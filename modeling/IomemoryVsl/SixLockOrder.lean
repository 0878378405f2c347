import IomemoryVsl.SixLockRuns

namespace IomemoryVsl

variable {Tid : Type}

/-- What must have happened before an event. A request leaves the wait loop when
exactly the conversions requested before it have left, and a trylock succeeds
only when all of them have. -/
def InTurn (past : List (SixEvent Tid)) : SixEvent Tid → Prop
  | .granted ticket thread oldMode newMode _ =>
    ∃ before after, past = before ++ .requested ticket thread oldMode newMode :: after ∧
      grantedConversions past = requestedConversions before
  | .tried _ _ true => grantedConversions past = requestedConversions past
  | _ => True

/-- The order of conversions over a whole history. -/
structure ConversionOrder (history : List (SixEvent Tid)) : Prop where
  distinct : (requestedConversions history).Nodup
  granted : grantedConversions history <+: requestedConversions history
  events : Transition.Historical InTurn history

/-- Each request of the wait loop has its own place in the history, with the
conversions of smaller ticket before it. -/
def Originated (requests : List (Request Tid)) (history : List (SixEvent Tid)) : Prop :=
  ∀ r ∈ requests, ∃ before after, history = before ++ .requested r.ticket r.thread r.oldMode r.newMode :: after ∧
    (requestedConversions history).countP (fun k => k < r.ticket) = (requestedConversions before).length

theorem Originated.append {requests later : List (Request Tid)} {history events : List (SixEvent Tid)}
    (origins : Originated requests history) (old : ∀ r ∈ later, r ∈ requests)
    (none : ∀ r ∈ later, ∀ ticket ∈ requestedConversions events, r.ticket ≤ ticket) :
    Originated later (history ++ events) := by
  intro r member
  obtain ⟨before, after, split, count⟩ := origins r (old r member)
  refine ⟨before, after ++ events, ?_, ?_⟩
  · rw [split, List.append_assoc, List.cons_append]
  · have newer : (requestedConversions events).countP (fun k => k < r.ticket) = 0 := by
      rw [List.countP_eq_zero]
      intro ticket asked
      simpa using none r member ticket asked
    rw [requestedConversions_append, List.countP_append, newer, Nat.add_zero, count]

variable [DecidableEq Tid]

namespace SixSystem

variable {s t : SixSystem Tid} {w : Waiter Tid} {initFlag : Bool} {history events : List (SixEvent Tid)}
  {action : SixAction Tid}

theorem settle_requests (member : w ∈ s.waiters) : ∀ r ∈ (s.settle w initFlag).1.requests, r ∈ s.requests := by
  intro r present
  have split := requests_erase member
  rw [split.mem_iff]
  cases waits : fusionSixsemUpgradeWaits s.sem w.serial w.oldMode w.newMode initFlag with
  | true =>
    simp only [settle_asleep waits, requests, List.map_append, List.map_singleton, List.mem_append,
      List.mem_singleton] at present
    rcases present with other | same
    · exact List.mem_cons_of_mem _ other
    · rw [same]
      exact List.mem_cons_self
  | false =>
    simp only [settle_granted waits, requests] at present
    split at present
    · rw [fusionCondvarSignal_requests] at present
      exact List.mem_cons_of_mem _ present
    · exact List.mem_cons_of_mem _ present

theorem settle_requestedConversions : requestedConversions (s.settle w initFlag).2 = [] := by
  cases waits : fusionSixsemUpgradeWaits s.sem w.serial w.oldMode w.newMode initFlag with
  | true => simp [settle_asleep waits, requestedConversions]
  | false => simp [settle_granted waits, SixEvent.conversionRequest]

theorem Originated.settle (origins : Originated s.requests history) (member : w ∈ s.waiters) :
    Originated (s.settle w initFlag).1.requests (history ++ (s.settle w initFlag).2) := by
  refine origins.append (settle_requests member) ?_
  simp [settle_requestedConversions]

omit [DecidableEq Tid] in
theorem Originated.enter (sem : Sixsem) (accounts : s.Accounts history) (origins : Originated s.requests history)
    (rank : w.ticket = s.tickets) :
    Originated (s.enter sem w).requests (history ++ [.requested w.ticket w.thread w.oldMode w.newMode]) := by
  have ledger : Ledger .. := accounts
  have asked : ∀ ticket ∈ requestedConversions [.requested w.ticket w.thread w.oldMode w.newMode],
      ticket = w.ticket := by
    intro ticket new
    by_cases converts : w.oldMode = .null <;>
      simp_all [SixEvent.conversionRequest]
  intro r member
  simp only [requests, SixSystem.enter, List.map_append, List.map_singleton, List.mem_append,
    List.mem_singleton] at member
  rcases member with old | rfl
  · refine origins.append (fun r member => member) ?_ r old
    intro r member ticket new
    rw [asked ticket new, rank]
    exact (ledger.issued r member).le
  · refine ⟨history, [], rfl, ?_⟩
    have below : (requestedConversions history).countP (fun k => k < w.ticket) =
        (requestedConversions history).length := by
      rw [List.countP_eq_length]
      intro ticket member
      simpa [rank] using ledger.fresh ticket member
    have self : (requestedConversions [.requested w.ticket w.thread w.oldMode w.newMode]).countP
        (fun k => k < w.ticket) = 0 := by
      rw [List.countP_eq_zero]
      intro ticket new
      simp [asked ticket new]
    rw [requestedConversions_append, List.countP_append, below, self, Nat.add_zero]

/-- A request that leaves the wait loop does so in its turn. -/
theorem settle_inTurn (accounts : s.Accounts history) (origins : Originated s.requests history)
    (member : w ∈ s.waiters) (small : (requestedConversions history).length < 2 ^ 63)
    (past : Transition.Historical InTurn history) :
    Transition.Historical InTurn (history ++ (s.settle w initFlag).2) := by
  cases waits : fusionSixsemUpgradeWaits s.sem w.serial w.oldMode w.newMode initFlag with
  | true =>
    rw [settle_asleep waits, List.append_nil]
    exact past
  | false =>
    rw [settle_granted waits]
    refine past.snoc ?_
    have ledger : Ledger .. := accounts
    have inside : w.toRequest ∈ s.requests := List.mem_map_of_mem member
    obtain ⟨before, after, split, count⟩ := origins w.toRequest inside
    refine ⟨before, after, split, ?_⟩
    have equal := ledger.older_eq_granted inside small waits
    have ordered := ledger.ordered (by omega)
    have part : requestedConversions before <+: requestedConversions history := by
      rw [split, requestedConversions_append]
      exact List.prefix_append _ _
    have sameLength : (grantedConversions history).length = (requestedConversions before).length :=
      equal.symm.trans count
    exact (List.prefix_of_prefix_length_le ordered part sameLength.le).eq_of_length sameLength

omit [DecidableEq Tid] in
/-- A trylock that succeeds finds no conversion waiting. -/
theorem tried_inTurn {thread : Tid} {mode : LockMode} (accounts : s.Accounts history)
    (small : (requestedConversions history).length < 2 ^ 63) :
    InTurn history (.tried thread mode (fusionSixsemDownTrylock s.sem mode).2) := by
  have ledger : Ledger .. := accounts
  cases got : (fusionSixsemDownTrylock s.sem mode).2 with
  | false => exact trivial
  | true =>
    have empty : s.sem.waitCount.toNat = 0 := by
      unfold fusionSixsemDownTrylock at got
      split at got
      · cases got
      · rename_i free
        bv_omega
    have queue := ledger.queue
    have nobody : s.requests = [] := List.eq_nil_of_length_eq_zero (by omega)
    have pending := ledger.pending.length_eq
    rw [nobody] at pending
    refine (ledger.ordered (by omega)).eq_of_length ?_
    simpa [conversionTickets] using pending.symm

/-- The induction over a run: origins always, turns as long as serials cannot wrap. -/
theorem originated_inTurn {allowed : SixSystem Tid → SixAction Tid → Prop} (reach : SixReach allowed s history) :
    Originated s.requests history ∧
      ((requestedConversions history).length < 2 ^ 63 → Transition.Historical InTurn history) := by
  refine reach.invariant (fun s history => Originated s.requests history ∧
      ((requestedConversions history).length < 2 ^ 63 → Transition.Historical InTurn history)) ?_ ?_
  · refine ⟨?_, fun _ => Transition.historical_nil _⟩
    intro r member
    simp [requests, initial] at member
  intro s t action history events before ih _ run
  obtain ⟨origins, turns⟩ := ih
  have accounts := accounts before
  have shorter (small : (requestedConversions (history ++ events)).length < 2 ^ 63) :
      (requestedConversions history).length < 2 ^ 63 := by
    rw [requestedConversions_append, List.length_append] at small
    omega
  cases step_shape run with
  | refused =>
    refine ⟨origins.append (fun r member => member) ?_, fun small => (turns (shorter small)).snoc trivial⟩
    simp [SixEvent.conversionRequest]
  | @entered _ sem w idle own entered rank _ _ =>
    have inside : w ∈ (s.enter sem w).waiters := by simp [SixSystem.enter]
    have entry := Originated.enter sem accounts origins rank
    rw [← List.singleton_append, ← List.append_assoc] at shorter ⊢
    refine ⟨Originated.settle entry inside, fun small => ?_⟩
    refine settle_inTurn (accounts.enter idle own entered rank) entry inside ?_
      ((turns (shorter small)).snoc trivial)
    rw [requestedConversions_append, settle_requestedConversions, List.append_nil] at small
    exact small
  | woke member =>
    exact ⟨Originated.settle origins member, fun small =>
      settle_inTurn accounts origins member (shorter small) (turns (shorter small))⟩
  | tried =>
    refine ⟨origins.append (fun r member => member) ?_, fun small =>
      (turns (shorter small)).snoc (tried_inTurn accounts (shorter small))⟩
    simp [SixEvent.conversionRequest]
  | released =>
    refine ⟨origins.append ?_ ?_, fun small => (turns (shorter small)).snoc trivial⟩
    · simp only [requests, fusionCondvarSignal_requests]
      exact fun r member => member
    · simp [SixEvent.conversionRequest]

end SixSystem

/-- Conversions are granted in the order of their requests, and plain requests and
trylocks fall between them, in every run with fewer than `2^63` conversions. -/
theorem fusionSixsem_conversion_order {s : SixSystem Tid} {history : List (SixEvent Tid)}
    (reach : SixReach (fun _ _ => True) s history) (few : (requestedConversions history).length < 2 ^ 63) :
    ConversionOrder history := by
  have ledger : Ledger .. := SixSystem.accounts reach
  refine ⟨ledger.sorted.imp Nat.ne_of_lt, ledger.ordered (by omega), ?_⟩
  exact (SixSystem.originated_inTurn reach).2 few

/-- Two conversions, the second of which waits for the first, and a plain request behind both. -/
theorem fusionSixsem_conversion_order_two : ∃ (s : SixSystem Nat) (history : List (SixEvent Nat)),
    SixReach (fun _ _ => True) s history ∧ (requestedConversions history).length < 2 ^ 63 ∧
      grantedConversions history = [3, 4] ∧ ConversionOrder history := by
  obtain ⟨s, history, reach, checked⟩ := SixReach.of_check (fun _ _ => true)
    (fun (_ : SixSystem Nat) (_ : SixAction Nat) _ => trivial)
    (fun last => (requestedConversions last.2).length == 2 && grantedConversions last.2 == [3, 4])
    [.down 1 .is, .down 2 .is, .down 3 .ix, .upgrade 1 .is .s, .upgrade 2 .is .s, .down 4 .s, .up 3 .ix,
      .wake 1, .wake 2, .wake 4] (by decide)
  simp only [Bool.and_eq_true, beq_iff_eq] at checked
  have few : (requestedConversions history).length < 2 ^ 63 := by omega
  exact ⟨s, history, reach, few, checked.2, fusionSixsem_conversion_order reach few⟩

end IomemoryVsl
