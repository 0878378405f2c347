import IomemoryVsl.SixLockTrylock

namespace IomemoryVsl

variable {Tid : Type} [DecidableEq Tid]

/-- What the second overflow exit tests, as a fact about the state before the call: the
request does not sleep, and the counter of the mode that it would be granted is full.
A conversion to the mode that it already has frees a place first. -/
def OverflowsCount (sem : Sixsem) (oldMode newMode : LockMode) : Prop :=
  let mode := upgradeConversion newMode oldMode
  Immediate sem oldMode mode ∧ sem.lockCounts mode = 65535#16 ∧ (oldMode = .null ∨ mode ≠ oldMode)

theorem dropMode_lockCounts (sem : Sixsem) (mode : LockMode) :
    (dropMode sem mode).lockCounts = Function.update sem.lockCounts mode (sem.lockCounts mode - 1#16) := by
  unfold dropMode
  dsimp only
  split
  · rfl
  · rfl

theorem leaveWaitLoop_lockCounts (sem : Sixsem) (oldMode : LockMode) :
    (leaveWaitLoop sem oldMode).lockCounts =
      if oldMode ≠ .null then Function.update sem.lockCounts oldMode (sem.lockCounts oldMode - 1#16)
      else sem.lockCounts := by
  by_cases null : oldMode = .null
  · simp [leaveWaitLoop, null]
  · simp [leaveWaitLoop, null, dropMode_lockCounts]

/-- The counter that a request finds behind the wait loop is full. -/
theorem leaveWaitLoop_full {sem : Sixsem} {oldMode mode : LockMode}
    (held : oldMode ≠ .null → sem.lockCounts oldMode ≠ 0#16) :
    (leaveWaitLoop sem oldMode).lockCounts mode = 65535#16 ↔
      sem.lockCounts mode = 65535#16 ∧ (oldMode = .null ∨ mode ≠ oldMode) := by
  rw [leaveWaitLoop_lockCounts]
  by_cases null : oldMode = .null
  · simp [null]
  by_cases same : mode = oldMode
  · have some := held null
    simp only [ne_eq, null, not_false_eq_true, if_true, same, Function.update_self, not_true, or_self, and_false,
      iff_false]
    bv_omega
  · simp [null, same, Function.update_of_ne]

theorem fusionSixsemUpgradeGrant_cases (sem : Sixsem) (oldMode newMode : LockMode) :
    (leaveWaitLoop sem oldMode).lockCounts newMode = 65535#16 ∧
        (fusionSixsemUpgradeGrant sem oldMode newMode).2.1 = -eagain ∧
        (fusionSixsemUpgradeGrant sem oldMode newMode).1.waitCount = sem.waitCount ∨
      (leaveWaitLoop sem oldMode).lockCounts newMode ≠ 65535#16 ∧
        (fusionSixsemUpgradeGrant sem oldMode newMode).2.1 = 0 := by
  unfold fusionSixsemUpgradeGrant
  simp only [Function.update_self, wraps_iff]
  by_cases full : (leaveWaitLoop sem oldMode).lockCounts newMode = 65535#16
  · rw [if_pos full]
    exact .inl ⟨full, rfl, leaveWaitLoop_waitCount ..⟩
  · rw [if_neg full]
    exact .inr ⟨full, rfl⟩

namespace SixSystem

variable {s : SixSystem Tid} {history : List (SixEvent Tid)} {thread : Tid} {oldMode newMode mode : LockMode}

/-- A request that is let through at once either holds its mode, or finds the counter full
and leaves its place in `wait_count` behind. -/
theorem grantNow_cases (mode : LockMode) (accounts : s.Accounts history)
    (own : oldMode ≠ .null → ⟨thread, oldMode⟩ ∈ s.holds) :
    (s.sem.lockCounts mode = 65535#16 ∧ (oldMode = .null ∨ mode ≠ oldMode)) ∧
        (s.grantNow thread oldMode mode).2 = -eagain ∧
        (s.grantNow thread oldMode mode).1.sem.waitCount = s.sem.waitCount + 1#16 ∨
      ¬(s.sem.lockCounts mode = 65535#16 ∧ (oldMode = .null ∨ mode ≠ oldMode)) ∧
        (s.grantNow thread oldMode mode).2 = 0 := by
  have held (converts : oldMode ≠ .null) : s.sem.lockCounts oldMode ≠ 0#16 :=
    accounts.books.count_ne_zero (own converts)
  rw [← leaveWaitLoop_full held]
  have entered : (leaveWaitLoop { s.sem with
      waitCount := s.sem.waitCount + 1#16
      waitSerial := if oldMode ≠ .null then s.sem.waitSerial + 1#64 else s.sem.waitSerial } oldMode).lockCounts =
      (leaveWaitLoop s.sem oldMode).lockCounts := by
    rw [leaveWaitLoop_lockCounts, leaveWaitLoop_lockCounts]
  rw [← entered]
  exact fusionSixsemUpgradeGrant_cases ..

/-- If a call of `fusion_sixsem_upgrade` returns `-EAGAIN` without having slept, the
semaphore, its sleepers and all holds are as they were. -/
def RefusalUnchanged (s : SixSystem Tid) (thread : Tid) (oldMode newMode : LockMode) : Prop :=
  ∀ t events, s.step (.upgrade thread oldMode newMode) = some (t, events) →
    (∃ event ∈ events, event.isEagain = true) →
    t.sem.lockCounts = s.sem.lockCounts ∧ t.sem.curLocksMask = s.sem.curLocksMask ∧
      t.sem.waitCount = s.sem.waitCount ∧
      t.sem.waitSerial - t.sem.wakeSerial = s.sem.waitSerial - s.sem.wakeSerial ∧
      t.waiters = s.waiters ∧ t.holds = s.holds

theorem refusalUnchanged_iff (accounts : s.Accounts history) (idle : ¬s.Busy thread)
    (own : oldMode ≠ .null → ⟨thread, oldMode⟩ ∈ s.holds) :
    s.RefusalUnchanged thread oldMode newMode ↔ ¬OverflowsCount s.sem oldMode newMode := by
  have ways := step_upgrade newMode accounts idle own
  constructor
  · intro unchanged overflows
    obtain ⟨immediate, full⟩ := overflows
    rcases ways with ⟨wraps, _⟩ | ⟨other, _⟩ | ⟨_, through⟩
    · rw [immediate.1] at wraps
      exact absurd wraps (by decide)
    · exact other immediate
    · rcases grantNow_cases (upgradeConversion newMode oldMode) accounts own with
        ⟨_, failed, leaks⟩ | ⟨room, _⟩
      · have count := (unchanged _ _ through ⟨_, List.mem_cons_of_mem _ List.mem_cons_self, by
          simp [SixEvent.isEagain, failed]⟩).2.2.1
        rw [leaks] at count
        bv_omega
      · exact room full
  · intro fits t events run refused
    rcases ways with ⟨_, turned⟩ | ⟨_, _, u, asleep⟩ | ⟨immediate, through⟩
    · rw [turned] at run
      cases run
      exact ⟨rfl, rfl, rfl, rfl, rfl, rfl⟩
    · rw [asleep] at run
      cases run
      simp [SixEvent.isEagain] at refused
    · rw [through] at run
      cases run
      rcases grantNow_cases (upgradeConversion newMode oldMode) accounts own with
        ⟨full, _⟩ | ⟨_, granted⟩
      · exact absurd ⟨immediate, full⟩ fits
      · simp [SixEvent.isEagain, granted, neg_eagain_ne_zero.symm] at refused

end SixSystem

open SixSystem

/-- A refused request changes nothing exactly where it is not the counter of the granted
mode that is full. -/
theorem fusionSixsemUpgrade_refusal_unchanged {s : SixSystem Tid} {history : List (SixEvent Tid)}
    (reach : SixReach (fun _ _ => True) s history) {thread : Tid} {oldMode newMode : LockMode}
    (idle : ¬s.Busy thread) (own : oldMode ≠ .null → ⟨thread, oldMode⟩ ∈ s.holds) :
    s.RefusalUnchanged thread oldMode newMode ↔ ¬OverflowsCount s.sem oldMode newMode :=
  refusalUnchanged_iff (SixSystem.accounts reach) idle own

/-- The system when thread 0 has `LOCK_X` and that many others sleep for it. -/
def crowd (n : Nat) : SixSystem Nat where
  sem := { fusionSixsemInit with
    curLocksMask := lockModeMasks .x
    lockCounts := Function.update (fun _ => 0#16) .x 1#16
    waitCount := BitVec.ofNat 16 n }
  waiters := (List.range n).map fun i => ⟨⟨i + 1, .null, .x, 0#64, i + 1⟩, false⟩
  holds := [⟨0, .x⟩]
  tickets := n + 1

theorem crowd_idle (n : Nat) : ¬(crowd n).Busy (n + 1) := by
  rintro ⟨w, member, same⟩
  simp only [crowd, List.mem_map, List.mem_range] at member
  obtain ⟨i, below, rfl⟩ := member
  dsimp only at same
  omega

theorem crowd_succ (n : Nat) : crowd (n + 1) =
    ⟨{ (crowd n).sem with waitCount := (crowd n).sem.waitCount + 1#16 },
      (crowd n).waiters ++ [⟨⟨n + 1, .null, .x, 0#64, n + 1⟩, false⟩], (crowd n).holds, n + 2⟩ := by
  simp [crowd, List.range_succ, BitVec.ofNat_add]

theorem crowd_waits (n : Nat) : ¬Immediate (crowd n).sem .null .x := by
  rintro ⟨_, compatible⟩
  have held : lockModeMasks .x ≠ 0#8 := by decide
  have conflict : incompatMasks .x &&& lockModeMasks .x ≠ 0#8 := by decide
  simp [sixLockIsCompatible, crowd, held, conflict] at compatible

/-- One more sleeper. -/
theorem crowd_step {n : Nat} (small : n < 65535) : (crowd n).step (.upgrade (n + 1) .null .x) =
    some (crowd (n + 1), [.requested (n + 1) (n + 1) .null .x]) := by
  have enabled : ¬((crowd n).Busy (n + 1) ∨ (LockMode.null ≠ .null ∧ ⟨n + 1, .null⟩ ∉ (crowd n).holds)) := by
    rintro (busy | ⟨converts, _⟩)
    · exact crowd_idle n busy
    · exact absurd rfl converts
  have room : (crowd n).sem.waitCount ≠ 65535#16 := by
    simp only [crowd]
    bv_omega
  obtain ⟨sem, entered, same, waits⟩ := upgradeWaits_enter .null .x room fun _ => rfl
  have absent : (⟨⟨n + 1, .null, .x, 0#64, n + 1⟩, true⟩ : Waiter Nat) ∉ (crowd n).waiters :=
    fun member => crowd_idle n ⟨_, member, rfl⟩
  have queue : ((crowd n).waiters ++ [(⟨⟨n + 1, .null, .x, 0#64, n + 1⟩, true⟩ : Waiter Nat)]).erase
      ⟨⟨n + 1, .null, .x, 0#64, n + 1⟩, true⟩ = (crowd n).waiters := by
    rw [List.erase_append_right _ absent, List.erase_cons_head, List.append_nil]
  rw [step, if_neg enabled, entered, upgradeConversion_null]
  dsimp only
  rw [settle_asleep (Bool.eq_true_of_not_eq_false fun passes => crowd_waits n (waits.mp passes)), same, crowd_succ]
  dsimp only [enter]
  rw [show (crowd n).tickets = n + 1 from rfl, show (crowd n).sem.waitSerial = 0#64 from rfl, queue]
  rfl

theorem crowd_reach {n : Nat} (small : n ≤ 65535) : ∃ history, SixReach (fun _ _ => True) (crowd n) history := by
  induction n with
  | zero =>
    have first : SixSystem.initial.step (.upgrade 0 .null .x) = some (crowd 0, _) := rfl
    exact ⟨_, .next .start trivial first⟩
  | succ n ih =>
    obtain ⟨history, reach⟩ := ih (by omega)
    exact ⟨_, reach.next trivial (crowd_step small)⟩

/-- With 65535 sleepers, one more request is refused, and that changes nothing. -/
theorem fusionSixsemUpgrade_refusal_unchanged_crowd :
    (∃ history, SixReach (fun _ _ => True) (crowd 65535) history) ∧
      (crowd 65535).step (.upgrade 65536 .null .x) = some (crowd 65535, [.refused 65536 (-eagain)]) ∧
      (crowd 65535).RefusalUnchanged 65536 .null .x := by
  obtain ⟨history, reach⟩ := crowd_reach (Nat.le_refl 65535)
  have idle := crowd_idle 65535
  have own : LockMode.null ≠ .null → (⟨65536, .null⟩ : Hold Nat) ∈ (crowd 65535).holds :=
    fun converts => absurd rfl converts
  refine ⟨⟨history, reach⟩, ?_, ?_⟩
  · rcases step_upgrade .x (SixSystem.accounts reach) idle own with ⟨_, refused⟩ | ⟨_, room, _⟩ | ⟨immediate, _⟩
    · exact refused
    · exact absurd rfl room
    · exact absurd immediate (crowd_waits 65535)
  · refine (fusionSixsemUpgrade_refusal_unchanged reach idle own).mpr fun overflows => ?_
    rw [OverflowsCount, upgradeConversion_null] at overflows
    exact crowd_waits 65535 overflows.1

/-- The system after that many threads took `LOCK_IS`. -/
def readers (n : Nat) : SixSystem Nat where
  sem := { fusionSixsemInit with
    curLocksMask := if n = 0 then 0#8 else lockModeMasks .is
    lockCounts := Function.update (fun _ => 0#16) .is (BitVec.ofNat 16 n) }
  waiters := []
  holds := (List.range n).map fun thread => ⟨thread, .is⟩
  tickets := n

theorem readers_immediate (n : Nat) : Immediate (readers n).sem .null .is := by
  refine ⟨rfl, ?_⟩
  by_cases none : n = 0
  · simp [sixLockIsCompatible, readers, none]
  · have fits : incompatMasks .is &&& lockModeMasks .is = 0#8 := by decide
    simp [sixLockIsCompatible, readers, none, fits]

theorem readers_count (n : Nat) : (readers n).sem.lockCounts .is = BitVec.ofNat 16 n := by
  simp only [readers, Function.update_self]

/-- One more reader. -/
theorem readers_succ {n : Nat} (small : n < 65535) :
    ((readers n).grantNow n .null .is).1 = readers (n + 1) := by
  have count := readers_count n
  rcases (readers n).grantNow_null n .is with ⟨full, _⟩ | ⟨_, taken⟩
  · rw [count] at full
    bv_omega
  · have mask : (readers n).sem.curLocksMask ||| lockModeMasks .is = lockModeMasks .is := by
      by_cases none : n = 0
      · simp [readers, none]
      · simp [readers, none]
    rw [taken, mask, count]
    simp [readers, List.range_succ, BitVec.ofNat_add]

theorem readers_reach {n : Nat} (small : n ≤ 65535) :
    ∃ history, SixReach (fun _ _ => True) (readers n) history := by
  induction n with
  | zero =>
    have start : readers 0 = SixSystem.initial := by
      simp [readers, SixSystem.initial, fusionSixsemInit]
    exact ⟨[], start ▸ .start⟩
  | succ n ih =>
    obtain ⟨history, reach⟩ := ih (by omega)
    have idle : ¬(readers n).Busy n := by simp [SixSystem.Busy, readers]
    have own : LockMode.null ≠ .null → (⟨n, .null⟩ : Hold Nat) ∈ (readers n).holds :=
      fun converts => absurd rfl converts
    rcases step_upgrade .is (SixSystem.accounts reach) idle own with
      ⟨full, _⟩ | ⟨other, _⟩ | ⟨_, through⟩
    · exact absurd full (by simp [readers, fusionSixsemInit])
    · exact absurd (readers_immediate n) other
    · rw [upgradeConversion_null, readers_succ (by omega)] at through
      exact ⟨_, reach.next trivial through⟩

/-- With 65535 readers, one more is refused and stays in `wait_count`. -/
theorem fusionSixsemUpgrade_refusal_changes : (∃ history, SixReach (fun _ _ => True) (readers 65535) history) ∧
    ¬(readers 65535).Busy 65535 ∧ ¬(readers 65535).RefusalUnchanged 65535 .null .is := by
  obtain ⟨history, reach⟩ := readers_reach (Nat.le_refl 65535)
  have idle : ¬(readers 65535).Busy 65535 := by simp [SixSystem.Busy, readers]
  have own : LockMode.null ≠ .null → (⟨65535, .null⟩ : Hold Nat) ∈ (readers 65535).holds := fun converts =>
    absurd rfl converts
  refine ⟨⟨history, reach⟩, idle, ?_⟩
  rw [refusalUnchanged_iff (SixSystem.accounts reach) idle own, not_not, OverflowsCount, upgradeConversion_null]
  exact ⟨readers_immediate _, readers_count _, .inl rfl⟩

end IomemoryVsl
