import IomemoryVsl.SixLockImmediate

namespace IomemoryVsl

theorem upgradeConversion_null (mode : LockMode) : upgradeConversion mode .null = mode := by
  cases mode <;> rfl

theorem wraps_iff (count : BitVec 16) : count + 1#16 = 0#16 ↔ count = 65535#16 := by bv_omega

/-- A trylock takes the lock exactly where a request is let through at once and its
counter has room. -/
theorem fusionSixsemDownTrylock_eq {sem : Sixsem} (mode : LockMode)
    (serials : sem.waitCount = 0#16 → sem.waitSerial = sem.wakeSerial) :
    (Immediate sem .null mode ∧ sem.lockCounts mode ≠ 65535#16 ∧ fusionSixsemDownTrylock sem mode =
      ({ sem with
          lockCounts := Function.update sem.lockCounts mode (sem.lockCounts mode + 1#16)
          curLocksMask := sem.curLocksMask ||| lockModeMasks mode }, true)) ∨
    ((¬Immediate sem .null mode ∨ sem.lockCounts mode = 65535#16) ∧
      fusionSixsemDownTrylock sem mode = (sem, false)) := by
  unfold fusionSixsemDownTrylock
  by_cases waiting : 0#16 < sem.waitCount
  · have several : ¬Immediate sem .null mode := by
      intro immediate
      rw [immediate.1] at waiting
      exact absurd waiting (by decide)
    exact .inr ⟨.inl several, if_pos waiting⟩
  have alone : sem.waitCount = 0#16 := by bv_omega
  rw [if_neg waiting]
  by_cases fits : sixLockIsCompatible sem .null mode = true
  · rw [if_pos ⟨serials alone, fits⟩]
    simp only [Function.update_self, wraps_iff]
    by_cases full : sem.lockCounts mode = 65535#16
    · rw [if_pos full, Function.update_idem, BitVec.add_sub_cancel, Function.update_eq_self]
      exact .inr ⟨.inr full, rfl⟩
    · rw [if_neg full]
      exact .inl ⟨⟨alone, fits⟩, full, rfl⟩
  · have other : ¬(sem.waitSerial = sem.wakeSerial ∧ sixLockIsCompatible sem .null mode = true) := fun both =>
      fits both.2
    exact .inr ⟨.inl fun immediate => fits immediate.2, if_neg other⟩

variable {Tid : Type} [DecidableEq Tid]

namespace SixSystem

variable {s : SixSystem Tid} {history : List (SixEvent Tid)} {thread : Tid} {mode : LockMode}

/-- A plain request that is let through at once: with a full counter it fails, else it
holds the mode and has taken its place in `wait_count` back. -/
theorem grantNow_null (s : SixSystem Tid) (thread : Tid) (mode : LockMode) :
    s.sem.lockCounts mode = 65535#16 ∧ (s.grantNow thread .null mode).2 = -eagain ∨
    s.sem.lockCounts mode ≠ 65535#16 ∧ s.grantNow thread .null mode =
      ({ s with
          sem := { s.sem with
            lockCounts := Function.update s.sem.lockCounts mode (s.sem.lockCounts mode + 1#16)
            curLocksMask := s.sem.curLocksMask ||| lockModeMasks mode }
          holds := s.holds ++ [⟨thread, mode⟩]
          tickets := s.tickets + 1 }, 0) := by
  simp only [grantNow, fusionSixsemUpgradeGrant, leaveWaitLoop, ne_eq, not_true, if_false, Function.update_self,
    wraps_iff, keptHolds]
  by_cases full : s.sem.lockCounts mode = 65535#16
  · rw [if_pos full]
    exact .inl ⟨full, rfl⟩
  · rw [if_neg full]
    exact .inr ⟨full, by rw [if_pos rfl, BitVec.add_sub_cancel]⟩

/-- `fusion_sixsem_down`, started in a state, returns 0 without sleeping, in the second state. -/
def DownAtOnce (s : SixSystem Tid) (thread : Tid) (mode : LockMode) (u : SixSystem Tid) : Prop :=
  ∃ events ticket granted, s.step (.down thread mode) = some (u, events) ∧
    .granted ticket thread .null granted 0 ∈ events

/-- Where `fusion_sixsem_down` returns 0 without sleeping, and what it leaves. -/
theorem downAtOnce_iff (accounts : s.Accounts history) (idle : ¬s.Busy thread) {u : SixSystem Tid} :
    s.DownAtOnce thread mode u ↔ Immediate s.sem .null mode ∧ s.sem.lockCounts mode ≠ 65535#16 ∧
      u = (s.grantNow thread .null mode).1 := by
  have own : LockMode.null ≠ .null → (⟨thread, .null⟩ : Hold Tid) ∈ s.holds := fun converts => absurd rfl converts
  have ways := step_upgrade mode accounts idle own
  rw [upgradeConversion_null] at ways
  unfold DownAtOnce SixAction.down
  constructor
  · intro down
    obtain ⟨events, ticket, granted, run, member⟩ := down
    rcases ways with ⟨_, refused⟩ | ⟨_, _, t, asleep⟩ | ⟨immediate, through⟩
    · rw [refused] at run
      cases run
      simp at member
    · rw [asleep] at run
      cases run
      simp at member
    · rw [through] at run
      cases run
      refine ⟨immediate, fun full => ?_, rfl⟩
      rcases s.grantNow_null thread mode with ⟨_, failed⟩ | ⟨room, _⟩
      · simp [failed, neg_eagain_ne_zero.symm] at member
      · exact room full
  · intro outcome
    obtain ⟨immediate, room, rfl⟩ := outcome
    rcases ways with ⟨full, _⟩ | ⟨other, _⟩ | ⟨_, through⟩
    · rw [immediate.1] at full
      exact absurd full (by decide)
    · exact absurd immediate other
    · refine ⟨_, s.tickets, mode, through, ?_⟩
      rcases s.grantNow_null thread mode with ⟨full, _⟩ | ⟨_, taken⟩
      · exact absurd full room
      · simp [taken]

end SixSystem

open SixSystem

/-- A trylock succeeds exactly where the blocking call would succeed without sleeping,
and leaves the same state. Where it fails it leaves the state as it was. -/
theorem fusionSixsemDownTrylock_agrees {s : SixSystem Tid} {history : List (SixEvent Tid)}
    (reach : SixReach (fun _ _ => True) s history) {thread : Tid} (idle : ¬s.Busy thread) (mode : LockMode) :
    ∃ t gotLock, s.step (.trylock thread mode) = some (t, [.tried thread mode gotLock]) ∧
      (gotLock = true ↔ ∃ u, s.DownAtOnce thread mode u) ∧
      (gotLock = true → ∀ u, s.DownAtOnce thread mode u →
        u.sem = t.sem ∧ u.waiters = t.waiters ∧ u.holds = t.holds) ∧
      (gotLock = false → t = s) := by
  have accounts := SixSystem.accounts reach
  have run : s.step (.trylock thread mode) = some ({ s with
      sem := (fusionSixsemDownTrylock s.sem mode).1
      holds := if (fusionSixsemDownTrylock s.sem mode).2 then s.holds ++ [⟨thread, mode⟩] else s.holds },
      [.tried thread mode (fusionSixsemDownTrylock s.sem mode).2]) := if_neg idle
  refine ⟨_, _, run, ?_⟩
  simp only [downAtOnce_iff accounts idle]
  rcases fusionSixsemDownTrylock_eq mode fun none => (accounts.alone none).2 with
    ⟨immediate, room, taken⟩ | ⟨not, refused⟩
  · rw [taken]
    refine ⟨⟨fun _ => ⟨_, immediate, room, rfl⟩, fun _ => rfl⟩, fun _ u down => ?_, Bool.noConfusion⟩
    rcases s.grantNow_null thread mode with ⟨full, _⟩ | ⟨_, granted⟩
    · exact absurd full room
    · rw [down.2.2, granted]
      exact ⟨rfl, rfl, rfl⟩
  · rw [refused]
    refine ⟨⟨Bool.noConfusion, fun down => ?_⟩, Bool.noConfusion, fun _ => rfl⟩
    obtain ⟨u, immediate, room, _⟩ := down
    exact not.elim (fun other => absurd immediate other) fun full => absurd full room

/-- A trylock of `LOCK_IS` beside a holder of `LOCK_IX`. -/
theorem fusionSixsemDownTrylock_agrees_beside : ∃ (s : SixSystem Nat) (history : List (SixEvent Nat)),
    SixReach (fun _ _ => True) s history ∧ s.holds = [⟨1, .ix⟩] ∧
      ∃ t gotLock, s.step (.trylock 2 .is) = some (t, [.tried 2 .is gotLock]) ∧
        (gotLock = true ↔ ∃ u, s.DownAtOnce 2 .is u) := by
  obtain ⟨s, history, reach, checked⟩ := SixReach.of_check (fun _ _ => true)
    (fun (_ : SixSystem Nat) (_ : SixAction Nat) _ => trivial)
    (fun last => decide (¬last.1.Busy 2) && last.1.holds == [⟨1, .ix⟩]) [.down 1 .ix] (by decide)
  simp only [Bool.and_eq_true, decide_eq_true_eq, beq_iff_eq] at checked
  obtain ⟨t, gotLock, run, agrees, _⟩ := fusionSixsemDownTrylock_agrees reach checked.1 .is
  exact ⟨s, history, reach, checked.2, t, gotLock, run, agrees⟩

end IomemoryVsl
