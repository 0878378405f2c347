import IomemoryVsl.SixLockImmediate
import IomemoryVsl.SixLockWakeups

namespace IomemoryVsl

variable {Tid : Type} [DecidableEq Tid]

/-- A request that comes in finds a place in `wait_count`. -/
theorem upgradeEnter_room {sem : Sixsem} {oldMode : LockMode} {entered : Sixsem × BitVec 64}
    (run : fusionSixsemUpgradeEnter sem oldMode = some entered) : sem.waitCount ≠ 65535#16 := by
  intro full
  rw [fusionSixsemUpgradeEnter_eq_none.mpr full] at run
  cases run

namespace SixSystem

/-- The conversion's own hold is the only one there is. -/
def SoleHolder (s : SixSystem Tid) (w : Waiter Tid) : Prop :=
  w.Converts ∧ s.holds = [⟨w.thread, w.oldMode⟩]

instance (s : SixSystem Tid) (w : Waiter Tid) : Decidable (s.SoleHolder w) :=
  inferInstanceAs (Decidable (_ ∧ _))

/-- The only holder asks for a conversion while others are counted as waiting
and none of them is awake. With a full `wait_count` it would be turned away. -/
def JoinsSleepers (s : SixSystem Tid) : SixAction Tid → Prop
  | .upgrade thread oldMode _ =>
    oldMode ≠ .null ∧ s.holds = [⟨thread, oldMode⟩] ∧ s.sem.waitCount ≠ 0#16 ∧ s.sem.waitCount ≠ 65535#16 ∧
      s.Quiescent
  | _ => False

instance (s : SixSystem Tid) : (action : SixAction Tid) → Decidable (s.JoinsSleepers action)
  | .upgrade _ _ _ => inferInstanceAs (Decidable (_ ∧ _))
  | .wake _ | .trylock _ _ | .up _ _ => isFalse not_false

/-- The last wake-up goes to a plain request that cannot use it, while the only
holder is inside the wait loop. -/
def WastesWakeup (s : SixSystem Tid) (action : SixAction Tid) : Prop :=
  ∃ w ∈ s.waiters, action = .wake w.thread ∧ ¬w.Converts ∧
    fusionSixsemUpgradeWaits s.sem w.serial w.oldMode w.newMode false = true ∧
    (∃ c ∈ s.waiters, s.SoleHolder c) ∧ ∀ v ∈ s.waiters.erase w, v.awake = false

instance (s : SixSystem Tid) (action : SixAction Tid) : Decidable (s.WastesWakeup action) :=
  inferInstanceAs (Decidable (∃ w ∈ s.waiters, _ ∧ _))

/-- A conversion takes the last serial before `wait_serial` wraps. -/
def WrapsSerial (s : SixSystem Tid) : SixAction Tid → Prop
  | .upgrade _ oldMode _ => oldMode ≠ .null ∧ s.sem.waitSerial + 1#64 = 0#64 ∧ s.sem.waitCount ≠ 65535#16
  | _ => False

instance (s : SixSystem Tid) : (action : SixAction Tid) → Decidable (s.WrapsSerial action)
  | .upgrade _ _ _ => inferInstanceAs (Decidable (_ ∧ _))
  | .wake _ | .trylock _ _ | .up _ _ => isFalse not_false

/-- A step without spurious wake-up after which the only holder can still be reached. -/
def KeepsReachable (s : SixSystem Tid) (action : SixAction Tid) : Prop :=
  s.Prompted action ∧ ¬s.JoinsSleepers action ∧ ¬s.WastesWakeup action ∧ ¬s.WrapsSerial action

instance (s : SixSystem Tid) (action : SixAction Tid) : Decidable (s.KeepsReachable action) :=
  inferInstanceAs (Decidable (_ ∧ _))

variable {s t : SixSystem Tid} {w : Waiter Tid} {initFlag : Bool} {history events : List (SixEvent Tid)}
  {action : SixAction Tid}

omit [DecidableEq Tid] in
theorem Accounts.distinct_threads (accounts : s.Accounts history) : (s.waiters.map fun w => w.thread).Nodup := by
  have ledger : Ledger .. := accounts
  have threads := ledger.distinct
  rwa [requests, List.map_map] at threads

omit [DecidableEq Tid] in
/-- The only holder's conversion is the only conversion in the wait loop. -/
theorem SoleHolder.unique {c : Waiter Tid} (accounts : s.Accounts history) (memberC : c ∈ s.waiters)
    (sole : s.SoleHolder c) (member : w ∈ s.waiters) (converts : w.Converts) : w = c := by
  have ledger : Ledger .. := accounts
  have held := ledger.backed w.toRequest (List.mem_map_of_mem member) converts
  rw [sole.2, List.mem_singleton] at held
  exact List.inj_on_of_nodup_map accounts.distinct_threads member memberC (congrArg Hold.thread held)

theorem SoleHolder.conversionTickets {c : Waiter Tid} (accounts : s.Accounts history) (memberC : c ∈ s.waiters)
    (sole : s.SoleHolder c) : conversionTickets s.requests = [c.ticket] := by
  have only : (s.waiters.erase c).filter (fun w => w.Converts) = [] := by
    rw [List.filter_eq_nil_iff]
    intro w other converts
    have nodup : s.waiters.Nodup := List.Nodup.of_map _ accounts.distinct_threads
    have same := sole.unique accounts memberC (List.mem_of_mem_erase other) (by simpa using converts)
    rw [same] at other
    exact nodup.not_mem_erase other
  have moved : (IomemoryVsl.conversionTickets s.requests).Perm [c.ticket] := by
    have listed := ((List.perm_cons_erase memberC).filter (fun w => w.Converts)).map fun w => w.ticket
    have mine : decide c.Converts = true := by simpa using sole.1
    rw [List.filter_cons, if_pos mine, only] at listed
    rw [IomemoryVsl.conversionTickets, requests, List.filter_map, List.map_map]
    exact listed
  exact List.perm_singleton.mp moved

/-- The only holder finds its condition true, unless it has to queue behind others. -/
theorem SoleHolder.passes {c : Waiter Tid} (initFlag : Bool) (accounts : s.Accounts history) (memberC : c ∈ s.waiters)
    (sole : s.SoleHolder c) (few : (requestedConversions history).length < 2 ^ 64)
    (first : initFlag = true → s.sem.waitCount.toNat ≤ 1) :
    fusionSixsemUpgradeWaits s.sem c.serial c.oldMode c.newMode initFlag = false := by
  have ledger : Ledger .. := accounts
  obtain ⟨rest, split, waiting⟩ := ledger.waiting_suffix few
  rw [sole.conversionTickets accounts memberC, List.perm_singleton] at waiting
  have sorted := ledger.sorted
  refine fusionSixsemUpgradeWaits_eq_false first ?_ ?_
  · have serial := ledger.serials c.toRequest (List.mem_map_of_mem memberC)
    rw [split, waiting] at serial sorted
    rw [Ledger.count_older sorted (List.mem_singleton_self _)] at serial
    simpa [← ledger.wakeSerial] using serial
  · have books := ledger.books
    rw [sole.2] at books
    exact books.alone_compatible c.newMode

/-- While the only holder is inside the wait loop, somebody there is awake. -/
def SoleAwake (s : SixSystem Tid) : Prop :=
  ∀ c ∈ s.waiters, s.SoleHolder c → ∃ w ∈ s.waiters, w.awake = true

/-- Nobody becomes the only holder inside the wait loop because another request leaves it. -/
theorem SoleAwake.left (accounts : s.Accounts history) (member : w ∈ s.waiters)
    (passes : fusionSixsemUpgradeWaits s.sem w.serial w.oldMode w.newMode initFlag = false) :
    (s.settle w initFlag).1.SoleAwake := by
  intro c remains sole
  exfalso
  have ledger : Ledger .. := accounts
  have waits := settle_requests member c.toRequest (List.mem_map_of_mem remains)
  have held := ledger.backed c.toRequest waits sole.1
  have other : c.thread ≠ w.thread := by
    have distinct := ledger.distinct
    rw [((requests_erase member).map _).nodup_iff, List.map_cons, List.nodup_cons] at distinct
    intro same
    refine distinct.1 (List.mem_map.mpr ⟨c.toRequest, ?_, same⟩)
    have stays := List.mem_map_of_mem (f := Waiter.toRequest) remains
    simp only [settle_granted passes] at stays
    split at stays
    · rwa [fusionCondvarSignal_requests] at stays
    · exact stays
  have stays : ⟨c.thread, c.oldMode⟩ ∈ keptHolds s.holds w.thread w.oldMode := Ledger.mem_keptHolds held other
  have kept := List.length_pos_of_mem stays
  have left := settle_left accounts member passes
  rw [sole.2, List.length_singleton] at left
  omega

/-- A request that goes back to sleep leaves somebody awake, or nobody to wait for it. -/
theorem SoleAwake.asleep (waits : fusionSixsemUpgradeWaits s.sem w.serial w.oldMode w.newMode initFlag = true)
    (others : (∃ c ∈ s.waiters, s.SoleHolder c) → ∃ v ∈ s.waiters.erase w, v.awake = true)
    (member : w ∈ s.waiters) : (s.settle w initFlag).1.SoleAwake := by
  intro c remains sole
  have before : ∃ c ∈ s.waiters, s.SoleHolder c := by
    rw [settle_asleep waits] at remains sole
    rcases List.mem_append.mp remains with other | same
    · exact ⟨c, List.mem_of_mem_erase other, sole⟩
    · rw [List.mem_singleton.mp same] at sole
      exact ⟨w, member, sole⟩
  obtain ⟨v, other, awake⟩ := others before
  exact settle_awake other awake waits

omit [DecidableEq Tid] in
/-- A request takes a serial of its own as long as `wait_serial` does not wrap. -/
theorem requestedConversions_lt (newMode : LockMode) (accounts : s.Accounts history)
    (wraps : ¬s.WrapsSerial (.upgrade w.thread w.oldMode newMode)) (room : s.sem.waitCount ≠ 65535#16)
    (few : (requestedConversions history).length < 2 ^ 64) :
    (requestedConversions (history ++ [.requested w.ticket w.thread w.oldMode w.newMode])).length < 2 ^ 64 := by
  have ledger : Ledger .. := accounts
  rw [requestedConversions_append, List.length_append, requestedConversions_singleton]
  by_cases plain : w.oldMode = .null
  · simpa [SixEvent.conversionRequest, plain] using few
  · have fits : s.sem.waitSerial + 1#64 ≠ 0#64 := fun wrapped => wraps ⟨plain, wrapped, room⟩
    rw [ledger.waitSerial] at fits
    simp only [SixEvent.conversionRequest, ne_eq, plain, not_false_eq_true, if_true, Option.toList_some,
      List.length_singleton]
    bv_omega

/-- A request that has to sleep at once finds somebody awake if there is an only
holder inside the wait loop. -/
theorem SoleAwake.enter {sem : Sixsem} {newMode : LockMode} (entry : (s.enter sem w).Accounts history)
    (entered : fusionSixsemUpgradeEnter s.sem w.oldMode = some (sem, w.serial)) (idle : ¬s.Busy w.thread)
    (joins : ¬s.JoinsSleepers (.upgrade w.thread w.oldMode newMode))
    (few : (requestedConversions history).length < 2 ^ 64) (awake : s.SoleAwake) :
    ((s.enter sem w).settle w true).1.SoleAwake := by
  have inside : w ∈ (s.enter sem w).waiters := by simp [SixSystem.enter]
  cases waits : fusionSixsemUpgradeWaits (s.enter sem w).sem w.serial w.oldMode w.newMode true with
  | false => exact SoleAwake.left entry inside waits
  | true =>
    refine SoleAwake.asleep waits ?_ inside
    rintro ⟨c, member, sole⟩
    have found : ∃ v ∈ s.waiters, v.awake = true := by
      rcases List.mem_append.mp member with old | new
      · exact awake c old sole
      · -- the only holder itself enters; with nobody counted before it, it passes at once
        rw [List.mem_singleton.mp new] at sole
        by_contra asleep
        have still : s.Quiescent := by
          intro v old
          by_contra awakened
          exact asleep ⟨v, old, by simpa using awakened⟩
        have counted : s.sem.waitCount = 0#16 := by
          by_contra some
          exact joins ⟨sole.1, sole.2, some, upgradeEnter_room entered, still⟩
        have passed := sole.passes true entry inside few fun _ => by
          obtain ⟨_, _, rfl⟩ := fusionSixsemUpgradeEnter_spec entered
          simp [SixSystem.enter, counted]
        rw [passed] at waits
        cases waits
    obtain ⟨v, old, awakened⟩ := found
    exact ⟨v, mem_erase_enter sem idle old, awakened⟩

/-- A woken conversion of the only holder passes, and a woken plain request does
not use up the last wake-up. -/
theorem SoleAwake.woke (accounts : s.Accounts history) (member : w ∈ s.waiters)
    (wastes : ¬s.WastesWakeup (.wake w.thread)) (few : (requestedConversions history).length < 2 ^ 64) :
    (s.settle w false).1.SoleAwake := by
  cases waits : fusionSixsemUpgradeWaits s.sem w.serial w.oldMode w.newMode false with
  | false => exact SoleAwake.left accounts member waits
  | true =>
    refine SoleAwake.asleep waits ?_ member
    rintro ⟨c, waiting, sole⟩
    by_cases converts : w.Converts
    · have passed := sole.passes false accounts waiting few fun first => absurd first Bool.false_ne_true
      rw [sole.unique accounts waiting member converts, passed] at waits
      cases waits
    · by_contra asleep
      refine wastes ⟨w, member, rfl, converts, waits, ⟨c, waiting, sole⟩, ?_⟩
      intro v other
      by_contra awakened
      exact asleep ⟨v, other, by simpa using awakened⟩

/-- Fewer than `2^64` serials are taken and the only holder stays reachable, in
every run whose steps all keep it reachable. -/
theorem few_soleAwake (reach : SixReach KeepsReachable s history) :
    (requestedConversions history).length < 2 ^ 64 ∧ s.SoleAwake := by
  refine reach.invariant (fun s history => (requestedConversions history).length < 2 ^ 64 ∧ s.SoleAwake) ?_ ?_
  · refine ⟨by simp [requestedConversions], ?_⟩
    intro c member
    simp [initial] at member
  intro s t action history events before ih guards run
  obtain ⟨few, awake⟩ := ih
  obtain ⟨_, joins, wastes, wraps⟩ := guards
  have accounts := accounts before
  have ledger : Ledger .. := accounts
  have unchanged (none : requestedConversions events = []) :
      (requestedConversions (history ++ events)).length < 2 ^ 64 := by
    rw [requestedConversions_append, none, List.append_nil]
    exact few
  cases step_shape run with
  | refused => exact ⟨unchanged (by simp [SixEvent.conversionRequest]), awake⟩
  | @entered newMode sem w idle own entered rank _ _ =>
    have entry := accounts.enter idle own entered rank
    have fewer := requestedConversions_lt newMode accounts wraps (upgradeEnter_room entered) few
    refine ⟨?_, SoleAwake.enter entry entered idle joins fewer awake⟩
    rw [← List.singleton_append, ← List.append_assoc, requestedConversions_append,
      settle_requestedConversions, List.append_nil]
    exact fewer
  | woke member => exact ⟨unchanged settle_requestedConversions, SoleAwake.woke accounts member wastes few⟩
  | @tried thread mode idle =>
    refine ⟨unchanged (by simp [SixEvent.conversionRequest]), ?_⟩
    intro c member sole
    have held := ledger.backed c.toRequest (List.mem_map_of_mem member) sole.1
    refine awake c member ⟨sole.1, ?_⟩
    have only := sole.2
    simp only at only
    split at only
    · have two := congrArg List.length only
      have one := List.length_pos_of_mem held
      simp only [List.length_append, List.length_singleton] at two
      omega
    · exact only
  | released =>
    refine ⟨unchanged (by simp [SixEvent.conversionRequest]), ?_⟩
    intro c member _
    refine fusionCondvarSignal_wakes ?_
    intro nobody
    simp [nobody, fusionCondvarSignal] at member

end SixSystem

/-- The only holder is never asleep in its own conversion with nobody left to
wake it, in every run whose steps all keep it reachable. -/
theorem fusionSixsem_sole_holder_awake {s : SixSystem Tid} {history : List (SixEvent Tid)}
    (reach : SixReach SixSystem.KeepsReachable s history) (still : s.Quiescent) :
    ¬∃ w ∈ s.waiters, w.Converts ∧ ∃ hold, s.holds = [hold] ∧ hold.thread = w.thread := by
  rintro ⟨c, member, converts, hold, only, mine⟩
  have ledger : Ledger .. := SixSystem.accounts reach
  have held := ledger.backed c.toRequest (List.mem_map_of_mem member) converts
  rw [only, List.mem_singleton] at held
  obtain ⟨w, waiting, awake⟩ := (SixSystem.few_soleAwake reach).2 c member ⟨converts, by rw [only, ← held]⟩
  rw [still w waiting] at awake
  cases awake

/-- A plain request waits behind the conversion of a lock with two holders; the
other holder releases, and the conversion gets its wake-up. -/
theorem fusionSixsem_sole_holder_awake_handover : ∃ (s : SixSystem Nat) (history : List (SixEvent Nat)),
    SixReach SixSystem.KeepsReachable s history ∧ s.Quiescent ∧ grantedConversions history = [2] ∧
      ¬∃ w ∈ s.waiters, w.Converts ∧ ∃ hold, s.holds = [hold] ∧ hold.thread = w.thread := by
  obtain ⟨s, history, reach, checked⟩ := SixReach.of_check
    (fun (s : SixSystem Nat) action => decide (s.KeepsReachable action))
    (fun _ _ passed => of_decide_eq_true passed)
    (fun last => decide last.1.Quiescent && grantedConversions last.2 == [2])
    [.down 1 .ix, .down 2 .ix, .upgrade 1 .ix .x, .down 3 .s, .up 2 .ix, .wake 1, .wake 3] (by decide)
  simp only [Bool.and_eq_true, beq_iff_eq, decide_eq_true_eq] at checked
  exact ⟨s, history, reach, checked.1, checked.2, fusionSixsem_sole_holder_awake reach checked.1⟩

/-- Thread 2 sleeps for a shared lock; the conversion of thread 1, the only
holder, conflicts with nothing but is sent to sleep behind it. -/
theorem fusionSixsem_sole_holder_asleep : ¬∀ (s : SixSystem Nat) (history : List (SixEvent Nat)),
    SixReach (fun s action => s.Prompted action) s history → s.Quiescent →
      ¬∃ w ∈ s.waiters, w.Converts ∧ ∃ hold, s.holds = [hold] ∧ hold.thread = w.thread := by
  intro never
  obtain ⟨s, history, reach, checked⟩ := SixReach.of_check
    (fun (s : SixSystem Nat) action => decide (s.Prompted action)) (fun _ _ passed => of_decide_eq_true passed)
    (fun last => decide last.1.Quiescent && decide (last.1.holds = [⟨1, .ix⟩]) &&
      decide (∃ w ∈ last.1.waiters, w.Converts ∧ w.thread = 1))
    [.down 1 .ix, .down 2 .s, .upgrade 1 .ix .x] (by decide)
  simp only [Bool.and_eq_true, decide_eq_true_eq] at checked
  obtain ⟨⟨still, only⟩, w, member, converts, mine⟩ := checked
  exact never s history reach still ⟨w, member, converts, ⟨1, .ix⟩, only, mine.symm⟩

end IomemoryVsl
