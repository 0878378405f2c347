import IomemoryVsl.SixLockLedger

namespace IomemoryVsl

variable {Tid : Type}

namespace SixEvent

/-- The ticket of the conversion that is being requested, if the event is that. -/
def conversionRequest : SixEvent Tid → Option Nat
  | .requested ticket _ oldMode _ => if oldMode ≠ .null then some ticket else none
  | _ => none

/-- The ticket of the conversion that leaves the wait loop, if the event is that. -/
def conversionGrant : SixEvent Tid → Option Nat
  | .granted ticket _ oldMode _ _ => if oldMode ≠ .null then some ticket else none
  | _ => none

/-- The call left the wait loop with an error and without taking its count back. -/
def leaks : SixEvent Tid → Bool
  | .granted _ _ _ _ retval => decide (retval ≠ 0)
  | _ => false

/-- The call returns `-EAGAIN`. -/
def isEagain : SixEvent Tid → Bool
  | .granted _ _ _ _ retval => decide (retval = -eagain)
  | .refused _ retval => decide (retval = -eagain)
  | _ => false

end SixEvent

def requestedConversions (history : List (SixEvent Tid)) : List Nat :=
  history.filterMap SixEvent.conversionRequest

def grantedConversions (history : List (SixEvent Tid)) : List Nat :=
  history.filterMap SixEvent.conversionGrant

def leakedCounts (history : List (SixEvent Tid)) : Nat := history.countP SixEvent.leaks

/-- No call of the history returns `-EAGAIN`. -/
def NoEagain (history : List (SixEvent Tid)) : Prop := ∀ event ∈ history, event.isEagain = false

@[simp] theorem requestedConversions_append (a b : List (SixEvent Tid)) :
    requestedConversions (a ++ b) = requestedConversions a ++ requestedConversions b :=
  List.filterMap_append

@[simp] theorem requestedConversions_singleton (event : SixEvent Tid) :
    requestedConversions [event] = event.conversionRequest.toList := by
  cases asked : event.conversionRequest <;> simp [requestedConversions, asked]

@[simp] theorem grantedConversions_append (a b : List (SixEvent Tid)) :
    grantedConversions (a ++ b) = grantedConversions a ++ grantedConversions b :=
  List.filterMap_append

@[simp] theorem grantedConversions_singleton (event : SixEvent Tid) :
    grantedConversions [event] = event.conversionGrant.toList := by
  cases given : event.conversionGrant <;> simp [grantedConversions, given]

@[simp] theorem leakedCounts_append (a b : List (SixEvent Tid)) :
    leakedCounts (a ++ b) = leakedCounts a + leakedCounts b :=
  List.countP_append

@[simp] theorem leakedCounts_singleton (event : SixEvent Tid) :
    leakedCounts [event] = if event.leaks then 1 else 0 := by
  simp [leakedCounts, List.countP_cons]

theorem fusionCondvarSignal_requests (waiters : List (Waiter Tid)) :
    (fusionCondvarSignal waiters).map Waiter.toRequest = waiters.map Waiter.toRequest := by
  induction waiters with
  | nil => rfl
  | cons w rest ih =>
    unfold fusionCondvarSignal
    split
    · simp only [List.map_cons, ih]
    · rfl

variable [DecidableEq Tid]

namespace SixSystem

/-- Everything one step can do, with the guards that were met. -/
inductive StepShape (s : SixSystem Tid) : SixAction Tid → SixSystem Tid → List (SixEvent Tid) → Prop
  | refused {thread oldMode newMode} : fusionSixsemUpgradeEnter s.sem oldMode = none →
      StepShape s (.upgrade thread oldMode newMode) s [.refused thread (-eagain)]
  | entered {newMode sem w} : ¬s.Busy w.thread → (w.Converts → ⟨w.thread, w.oldMode⟩ ∈ s.holds) →
      fusionSixsemUpgradeEnter s.sem w.oldMode = some (sem, w.serial) → w.ticket = s.tickets →
      w.awake = true → w.newMode = upgradeConversion newMode w.oldMode →
      StepShape s (.upgrade w.thread w.oldMode newMode) ((s.enter sem w).settle w true).1
        (.requested w.ticket w.thread w.oldMode w.newMode :: ((s.enter sem w).settle w true).2)
  | woke {w} : w ∈ s.waiters → StepShape s (.wake w.thread) (s.settle w false).1 (s.settle w false).2
  | tried {thread mode} : ¬s.Busy thread →
      StepShape s (.trylock thread mode)
        { s with
          sem := (fusionSixsemDownTrylock s.sem mode).1
          holds := if (fusionSixsemDownTrylock s.sem mode).2 then s.holds ++ [⟨thread, mode⟩] else s.holds }
        [.tried thread mode (fusionSixsemDownTrylock s.sem mode).2]
  | released {thread mode} : ¬s.Busy thread → ⟨thread, mode⟩ ∈ s.holds →
      StepShape s (.up thread mode)
        { s with
          sem := fusionSixsemUp s.sem mode
          waiters := fusionCondvarSignal s.waiters
          holds := s.holds.erase ⟨thread, mode⟩ }
        [.released thread mode]

variable {s t : SixSystem Tid} {w : Waiter Tid} {initFlag : Bool} {history events : List (SixEvent Tid)}
  {action : SixAction Tid}

theorem step_shape (run : s.step action = some (t, events)) : StepShape s action t events := by
  cases action with
  | upgrade thread oldMode newMode =>
    simp only [step] at run
    split at run
    · cases run
    rename_i guards
    rw [not_or, not_and, not_not] at guards
    split at run
    · rename_i full
      cases run
      exact .refused full
    · rename_i sem serial entered
      cases run
      let w : Waiter Tid :=
        { thread, oldMode, newMode := upgradeConversion newMode oldMode, serial, ticket := s.tickets, awake := true }
      exact .entered (w := w) guards.1 guards.2 entered rfl rfl rfl
  | wake thread =>
    obtain ⟨w, found, same⟩ := Option.map_eq_some_iff.mp run
    have member := List.mem_of_find?_eq_some found
    have mine : w.thread = thread := by simpa using List.find?_some found
    subst mine
    rw [← show (s.settle w false).1 = t from congrArg Prod.fst same,
      ← show (s.settle w false).2 = events from congrArg Prod.snd same]
    exact .woke member
  | trylock thread mode =>
    simp only [step] at run
    split at run
    · cases run
    rename_i idle
    cases run
    exact .tried idle
  | up thread mode =>
    simp only [step] at run
    split at run
    · cases run
    rename_i guards
    rw [not_or, not_not] at guards
    cases run
    exact .released guards.1 guards.2

theorem settle_asleep (waits : fusionSixsemUpgradeWaits s.sem w.serial w.oldMode w.newMode initFlag = true) :
    s.settle w initFlag = ({ s with waiters := s.waiters.erase w ++ [{ w with awake := false }] }, []) := by
  simp only [settle, waits, if_true]

theorem settle_granted (passes : fusionSixsemUpgradeWaits s.sem w.serial w.oldMode w.newMode initFlag = false) :
    s.settle w initFlag =
      ({ s with
          sem := (fusionSixsemUpgradeGrant s.sem w.oldMode w.newMode).1
          waiters := if (fusionSixsemUpgradeGrant s.sem w.oldMode w.newMode).2.2 then
            fusionCondvarSignal (s.waiters.erase w) else s.waiters.erase w
          holds := if (fusionSixsemUpgradeGrant s.sem w.oldMode w.newMode).2.1 = 0 then
            keptHolds s.holds w.thread w.oldMode ++ [⟨w.thread, w.newMode⟩]
            else keptHolds s.holds w.thread w.oldMode },
        [.granted w.ticket w.thread w.oldMode w.newMode
          (fusionSixsemUpgradeGrant s.sem w.oldMode w.newMode).2.1]) := by
  simp only [settle, passes, Bool.false_eq_true, if_false]

/-- The requests inside the wait loop, without the state of the condition variable. -/
def requests (s : SixSystem Tid) : List (Request Tid) := s.waiters.map Waiter.toRequest

/-- The accounts of a system after a history. -/
def Accounts (s : SixSystem Tid) (history : List (SixEvent Tid)) : Prop :=
  Ledger s.sem s.requests s.holds s.tickets (requestedConversions history) (grantedConversions history)
    (leakedCounts history)

omit [DecidableEq Tid] in
theorem not_busy_iff {thread : Tid} : ¬s.Busy thread ↔ ∀ r ∈ s.requests, r.thread ≠ thread := by
  simp only [Busy, requests, List.mem_map, not_exists, not_and]
  constructor
  · rintro idle r ⟨w, member, rfl⟩
    exact idle w member
  · intro idle w member
    exact idle w.toRequest ⟨w, member, rfl⟩

theorem requests_erase (member : w ∈ s.waiters) :
    s.requests.Perm (w.toRequest :: (s.waiters.erase w).map Waiter.toRequest) :=
  (List.perm_cons_erase member).map Waiter.toRequest

omit [DecidableEq Tid] in
theorem Accounts.enter {sem : Sixsem} (accounts : s.Accounts history) (idle : ¬s.Busy w.thread)
    (own : w.Converts → ⟨w.thread, w.oldMode⟩ ∈ s.holds)
    (entered : fusionSixsemUpgradeEnter s.sem w.oldMode = some (sem, w.serial)) (rank : w.ticket = s.tickets) :
    (s.enter sem w).Accounts (history ++ [.requested w.ticket w.thread w.oldMode w.newMode]) := by
  have ledger := Ledger.enter accounts entered (not_busy_iff.mp idle) own rank
  have moved : (w.toRequest :: s.requests).Perm (s.enter sem w).requests := by
    simp only [requests, SixSystem.enter, List.map_append, List.map_singleton]
    exact (List.perm_append_singleton _ _).symm
  have asked : (SixEvent.requested w.ticket w.thread w.oldMode w.newMode).conversionRequest.toList =
      if w.Converts then [w.ticket] else [] := by
    by_cases converts : w.oldMode = .null <;>
      simp [SixEvent.conversionRequest, Request.Converts, converts]
  have next := ledger.perm moved
  simpa [Accounts, asked, SixEvent.conversionGrant, SixEvent.leaks, SixSystem.enter] using next

theorem Accounts.settle (initFlag : Bool) (accounts : s.Accounts history) (member : w ∈ s.waiters) :
    (s.settle w initFlag).1.Accounts (history ++ (s.settle w initFlag).2) := by
  cases waits : fusionSixsemUpgradeWaits s.sem w.serial w.oldMode w.newMode initFlag with
  | true =>
    rw [settle_asleep waits, List.append_nil]
    refine Ledger.perm accounts ((requests_erase member).trans ?_)
    simp only [requests, List.map_append, List.map_singleton]
    exact (List.perm_append_singleton _ _).symm
  | false =>
    rw [settle_granted waits]
    have ledger := Ledger.perm accounts (requests_erase member)
    have fits : sixLockIsCompatible s.sem w.oldMode w.newMode = true := by
      simp only [fusionSixsemUpgradeWaits, Bool.or_eq_false_iff, Bool.not_eq_false'] at waits
      exact waits.2
    have own : w.oldMode ≠ .null → ⟨w.thread, w.oldMode⟩ ∈ s.holds :=
      ledger.backed w.toRequest (List.mem_cons_self ..)
    have left := ledger.leave waits (ledger.books.grant own fits)
    have given : (SixEvent.granted w.ticket w.thread w.oldMode w.newMode
        (fusionSixsemUpgradeGrant s.sem w.oldMode w.newMode).2.1).conversionGrant.toList =
        if w.Converts then [w.ticket] else [] := by
      by_cases converts : w.oldMode = .null <;>
        simp [SixEvent.conversionGrant, Request.Converts, converts]
    have woken : (if (fusionSixsemUpgradeGrant s.sem w.oldMode w.newMode).2.2 then
        fusionCondvarSignal (s.waiters.erase w) else s.waiters.erase w).map Waiter.toRequest =
        (s.waiters.erase w).map Waiter.toRequest := by
      split
      · exact fusionCondvarSignal_requests _
      · rfl
    simpa [Accounts, requests, woken, given, SixEvent.conversionRequest, SixEvent.leaks] using left

/-- The accounts are right after every run, whichever actions are allowed. -/
theorem accounts {allowed : SixSystem Tid → SixAction Tid → Prop} (reach : SixReach allowed s history) :
    s.Accounts history := by
  refine reach.invariant Accounts Ledger.initial ?_
  intro s t action history events _ accounts _ run
  cases step_shape run with
  | refused =>
    simpa [Accounts, SixEvent.conversionRequest, SixEvent.conversionGrant, SixEvent.leaks] using accounts
  | @entered _ sem w idle own entered rank _ _ =>
    have inside : w ∈ (s.enter sem w).waiters := by simp [SixSystem.enter]
    have next := (accounts.enter idle own entered rank).settle true inside
    simpa only [List.append_assoc, List.singleton_append] using next
  | woke member => exact accounts.settle false member
  | @tried thread mode idle =>
    have next := Ledger.tried thread mode accounts
    simpa [Accounts, requests, SixEvent.conversionRequest, SixEvent.conversionGrant, SixEvent.leaks] using next
  | released idle held =>
    have next := Ledger.released accounts (not_busy_iff.mp idle) held
    simpa [Accounts, requests, fusionCondvarSignal_requests, SixEvent.conversionRequest,
      SixEvent.conversionGrant, SixEvent.leaks] using next

theorem grant_retval (sem : Sixsem) (oldMode newMode : LockMode) :
    (fusionSixsemUpgradeGrant sem oldMode newMode).2.1 = 0 ∨
      (fusionSixsemUpgradeGrant sem oldMode newMode).2.1 = -eagain := by
  unfold fusionSixsemUpgradeGrant
  dsimp only
  split
  · exact Or.inr rfl
  · exact Or.inl rfl

/-- A count is leaked only by a call that returns `-EAGAIN`. -/
theorem leak_isEagain {allowed : SixSystem Tid → SixAction Tid → Prop} (reach : SixReach allowed s history) :
    ∀ event ∈ history, event.leaks = true → event.isEagain = true := by
  have settled (s : SixSystem Tid) (w : Waiter Tid) (initFlag : Bool) :
      ∀ event ∈ (s.settle w initFlag).2, event.leaks = true → event.isEagain = true := by
    cases waits : fusionSixsemUpgradeWaits s.sem w.serial w.oldMode w.newMode initFlag with
    | true => simp [settle_asleep waits]
    | false =>
      rcases grant_retval s.sem w.oldMode w.newMode with zero | failed
      · simp [settle_granted waits, SixEvent.leaks, zero]
      · simp [settle_granted waits, SixEvent.isEagain, failed]
  refine reach.invariant (fun _ history => ∀ event ∈ history, event.leaks = true → event.isEagain = true)
    (by simp) ?_
  intro s t action history events _ ih _ run event member
  rcases List.mem_append.mp member with old | new
  · exact ih event old
  cases step_shape run with
  | entered =>
    rcases List.mem_cons.mp new with rfl | new
    · simp [SixEvent.leaks]
    · exact settled _ _ _ event new
  | woke => exact settled _ _ _ event new
  | refused | tried | released =>
    rw [List.mem_singleton.mp new]
    simp [SixEvent.leaks]

theorem leakedCounts_eq_zero {allowed : SixSystem Tid → SixAction Tid → Prop}
    (reach : SixReach allowed s history) (quiet : NoEagain history) : leakedCounts history = 0 := by
  rw [leakedCounts, List.countP_eq_zero]
  intro event member leaks
  have failed := leak_isEagain reach event member leaks
  rw [quiet event member] at failed
  cases failed

end SixSystem

end IomemoryVsl
