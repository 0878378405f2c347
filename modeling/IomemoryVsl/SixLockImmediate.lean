import IomemoryVsl.SixLockRuns

namespace IomemoryVsl

/-- A request is let through at once: nobody is inside the wait loop, and the
held modes do not stand in its way. -/
def Immediate (sem : Sixsem) (oldMode newMode : LockMode) : Prop :=
  sem.waitCount = 0#16 ∧ sixLockIsCompatible sem oldMode newMode = true

theorem serial64Compare_self (serial : BitVec 64) : serial64Compare serial serial = 0 := if_pos rfl

/-- A request that would wrap `wait_count` is turned away with the state unchanged. -/
theorem fusionSixsemUpgradeEnter_eq_none {sem : Sixsem} {oldMode : LockMode} :
    fusionSixsemUpgradeEnter sem oldMode = none ↔ sem.waitCount = 65535#16 := by
  have wraps : sem.waitCount + 1#16 = 0#16 ↔ sem.waitCount = 65535#16 := by bv_omega
  rw [fusionSixsemUpgradeEnter, ← wraps]
  by_cases full : sem.waitCount + 1#16 = 0#16
  · simp [full]
  · by_cases null : oldMode = .null
    · simp [full, null]
    · simp [full, null]

/-- Once entered, a request is let through at once exactly where nobody was there before
it and the serials agree. -/
theorem upgradeWaits_enter {sem : Sixsem} (oldMode newMode : LockMode)
    (room : sem.waitCount ≠ 65535#16) (serials : sem.waitCount = 0#16 → sem.waitSerial = sem.wakeSerial) :
    ∃ sem', fusionSixsemUpgradeEnter sem oldMode = some (sem', sem.waitSerial) ∧
      sem' = { sem with
        waitCount := sem.waitCount + 1#16
        waitSerial := if oldMode ≠ .null then sem.waitSerial + 1#64 else sem.waitSerial } ∧
      (fusionSixsemUpgradeWaits sem' sem.waitSerial oldMode newMode true = false ↔ Immediate sem oldMode newMode) := by
  cases entered : fusionSixsemUpgradeEnter sem oldMode with
  | none => exact absurd (fusionSixsemUpgradeEnter_eq_none.mp entered) room
  | some result =>
    obtain ⟨sem', serial⟩ := result
    obtain ⟨counted, rfl, same⟩ := fusionSixsemUpgradeEnter_spec entered
    refine ⟨sem', rfl, same, ?_⟩
    have compatible : sixLockIsCompatible sem' oldMode newMode = sixLockIsCompatible sem oldMode newMode := by
      rw [same]
      rfl
    have wake : sem'.wakeSerial = sem.wakeSerial := by rw [same]
    have count : sem'.waitCount = sem.waitCount + 1#16 := by rw [same]
    simp only [fusionSixsemUpgradeWaits, Bool.or_eq_false_iff, Bool.and_true, Bool.not_eq_false', compatible, wake,
      count, decide_eq_false_iff_not, Immediate]
    constructor
    · intro passes
      exact ⟨by bv_omega, passes.2⟩
    · intro immediate
      obtain ⟨alone, fits⟩ := immediate
      rw [serials alone, serial64Compare_self, alone]
      exact ⟨⟨by decide, by decide⟩, fits⟩

variable {Tid : Type} [DecidableEq Tid]

namespace SixSystem

variable {s : SixSystem Tid} {history : List (SixEvent Tid)} {thread : Tid} {oldMode newMode : LockMode}

omit [DecidableEq Tid] in
/-- When `wait_count` is 0, nobody is inside the wait loop and no conversion is pending. -/
theorem Accounts.alone (accounts : s.Accounts history) (none : s.sem.waitCount = 0#16) :
    s.waiters = [] ∧ s.sem.waitSerial = s.sem.wakeSerial := by
  have queue := accounts.queue
  have zero : s.sem.waitCount.toNat = 0 := by rw [none]; rfl
  have empty : s.requests = [] := List.eq_nil_of_length_eq_zero (by omega)
  refine ⟨List.map_eq_nil_iff.mp empty, ?_⟩
  have pending := accounts.pending.length_eq
  rw [empty] at pending
  rw [accounts.waitSerial, accounts.wakeSerial, pending]
  simp [conversionTickets]

/-- The state in which a request that is let through at once leaves the system. -/
def grantNow (s : SixSystem Tid) (thread : Tid) (oldMode newMode : LockMode) : SixSystem Tid × Int :=
  let entered := { s.sem with
    waitCount := s.sem.waitCount + 1#16
    waitSerial := if oldMode ≠ .null then s.sem.waitSerial + 1#64 else s.sem.waitSerial }
  let result := fusionSixsemUpgradeGrant entered oldMode newMode
  let kept := keptHolds s.holds thread oldMode
  ({ s with
      sem := result.1
      holds := if result.2.1 = 0 then kept ++ [⟨thread, newMode⟩] else kept
      tickets := s.tickets + 1 }, result.2.1)

/-- The three ways in which a call of `fusion_sixsem_upgrade` can go on: turned away,
asleep, or let through at once. -/
theorem step_upgrade (newMode : LockMode) (accounts : s.Accounts history) (idle : ¬s.Busy thread)
    (own : oldMode ≠ .null → ⟨thread, oldMode⟩ ∈ s.holds) :
    (s.sem.waitCount = 65535#16 ∧
      s.step (.upgrade thread oldMode newMode) = some (s, [.refused thread (-eagain)])) ∨
    (¬Immediate s.sem oldMode (upgradeConversion newMode oldMode) ∧ s.sem.waitCount ≠ 65535#16 ∧
      ∃ t, s.step (.upgrade thread oldMode newMode) =
        some (t, [.requested s.tickets thread oldMode (upgradeConversion newMode oldMode)])) ∨
    (Immediate s.sem oldMode (upgradeConversion newMode oldMode) ∧
      s.step (.upgrade thread oldMode newMode) =
        some ((s.grantNow thread oldMode (upgradeConversion newMode oldMode)).1,
          [.requested s.tickets thread oldMode (upgradeConversion newMode oldMode),
            .granted s.tickets thread oldMode (upgradeConversion newMode oldMode)
              (s.grantNow thread oldMode (upgradeConversion newMode oldMode)).2])) := by
  have enabled : ¬(s.Busy thread ∨ (oldMode ≠ .null ∧ ⟨thread, oldMode⟩ ∉ s.holds)) := by
    rintro (busy | ⟨converts, missing⟩)
    · exact idle busy
    · exact missing (own converts)
  generalize conversion : upgradeConversion newMode oldMode = mode
  simp only [step, enabled, if_false, conversion]
  by_cases full : s.sem.waitCount = 65535#16
  · rw [fusionSixsemUpgradeEnter_eq_none.mpr full]
    exact .inl ⟨full, rfl⟩
  obtain ⟨sem, entered, same, waits⟩ :=
    upgradeWaits_enter oldMode mode full fun none => (accounts.alone none).2
  rw [entered]
  refine .inr ?_
  dsimp only
  by_cases immediate : Immediate s.sem oldMode mode
  · refine .inr ⟨immediate, ?_⟩
    rw [settle_granted (w := ⟨⟨thread, oldMode, mode, s.sem.waitSerial, s.tickets⟩, true⟩) (s := s.enter sem _)
      (waits.mpr immediate)]
    have alone := (accounts.alone immediate.1).1
    simp only [enter, alone, List.nil_append, List.erase_cons_head, grantNow, fusionCondvarSignal, ite_self, same]
  · refine .inl ⟨immediate, full, ?_⟩
    rw [settle_asleep (w := ⟨⟨thread, oldMode, mode, s.sem.waitSerial, s.tickets⟩, true⟩) (s := s.enter sem _)
      (Bool.eq_true_of_not_eq_false fun passes => immediate (waits.mp passes))]
    exact ⟨_, rfl⟩

end SixSystem

end IomemoryVsl
