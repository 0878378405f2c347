import IomemoryVsl.SixLockOrder

namespace IomemoryVsl

variable {Tid : Type} [DecidableEq Tid]

omit [DecidableEq Tid] in
/-- A signal is never lost while somebody is in the wait loop. -/
theorem fusionCondvarSignal_wakes {waiters : List (Waiter Tid)} (some : waiters ≠ []) :
    ∃ w ∈ fusionCondvarSignal waiters, w.awake = true := by
  cases waiters with
  | nil => exact absurd rfl some
  | cons w rest =>
    unfold fusionCondvarSignal
    split
    · rename_i awake
      exact ⟨w, List.mem_cons_self, awake⟩
    · exact ⟨{ w with awake := true }, List.mem_cons_self, rfl⟩

/-- The three tests of the wait loop, all passed. -/
theorem fusionSixsemUpgradeWaits_eq_false {sem : Sixsem} {serial : BitVec 64} {oldMode newMode : LockMode}
    {initFlag : Bool} (first : initFlag = true → sem.waitCount.toNat ≤ 1) (turn : serial = sem.wakeSerial)
    (fits : sixLockIsCompatible sem oldMode newMode = true) :
    fusionSixsemUpgradeWaits sem serial oldMode newMode initFlag = false := by
  have line : (decide (1#16 < sem.waitCount) && initFlag) = false := by
    cases initFlag with
    | false => exact Bool.and_false _
    | true =>
      have short := first rfl
      simp only [Bool.and_true, decide_eq_false_iff_not]
      bv_omega
  simp [fusionSixsemUpgradeWaits, line, turn, serial64Compare, fits]

namespace SixSystem

/-- No thread is in the critical section and no signalled waiter has yet to
recheck its condition. -/
def Quiescent (s : SixSystem Tid) : Prop := ∀ w ∈ s.waiters, w.awake = false

instance (s : SixSystem Tid) : Decidable s.Quiescent := inferInstanceAs (Decidable (∀ w ∈ s.waiters, w.awake = false))

/-- The action is no spurious wake-up. -/
def Prompted (s : SixSystem Tid) (action : SixAction Tid) : Prop :=
  ∀ w ∈ s.waiters, action = .wake w.thread → w.awake = true

instance (s : SixSystem Tid) (action : SixAction Tid) : Decidable (s.Prompted action) :=
  inferInstanceAs (Decidable (∀ w ∈ s.waiters, action = .wake w.thread → w.awake = true))

/-- A woken conversion passes while an older plain request is in the wait loop. -/
def Overtakes (s : SixSystem Tid) (action : SixAction Tid) : Prop :=
  ∃ w ∈ s.waiters, ∃ p ∈ s.waiters, action = .wake w.thread ∧ w.Converts ∧ ¬p.Converts ∧ p.ticket < w.ticket ∧
    fusionSixsemUpgradeWaits s.sem w.serial w.oldMode w.newMode false = false

instance (s : SixSystem Tid) (action : SixAction Tid) : Decidable (s.Overtakes action) :=
  inferInstanceAs (Decidable (∃ w ∈ s.waiters, ∃ p ∈ s.waiters, _ ∧ _))

variable {s t : SixSystem Tid} {w : Waiter Tid} {initFlag : Bool} {history events : List (SixEvent Tid)}
  {action : SixAction Tid}

/-- A request that leaves the wait loop leaves a hold behind, or finds 65535 of them. -/
theorem settle_left (accounts : s.Accounts history) (member : w ∈ s.waiters)
    (passes : fusionSixsemUpgradeWaits s.sem w.serial w.oldMode w.newMode initFlag = false) :
    (s.settle w initFlag).1.holds.length = (keptHolds s.holds w.thread w.oldMode).length + 1 ∨
      65535 ≤ (s.settle w initFlag).1.holds.length := by
  have ledger : Ledger .. := accounts
  have own := ledger.backed w.toRequest (List.mem_map_of_mem member)
  have fits : sixLockIsCompatible s.sem w.oldMode w.newMode = true := by
    simp only [fusionSixsemUpgradeWaits, Bool.or_eq_false_iff, Bool.not_eq_false'] at passes
    exact passes.2
  rw [settle_granted passes]
  have outcome := ledger.books.grant own fits
  generalize fusionSixsemUpgradeGrant s.sem w.oldMode w.newMode = result at outcome
  cases outcome with
  | taken =>
    left
    simp only [if_true, List.length_append, List.length_singleton]
  | full _ _ _ _ many =>
    right
    simpa only [neg_eagain_ne_zero, if_false] using many

theorem settle_awake {v : Waiter Tid} (other : v ∈ s.waiters.erase w) (awake : v.awake = true)
    (waits : fusionSixsemUpgradeWaits s.sem w.serial w.oldMode w.newMode initFlag = true) :
    ∃ u ∈ (s.settle w initFlag).1.waiters, u.awake = true := by
  rw [settle_asleep waits]
  exact ⟨v, List.mem_append_left _ other, awake⟩

omit [DecidableEq Tid] in
/-- A new request is the only one in the wait loop if it passes at once. -/
theorem enter_alone {sem : Sixsem} (accounts : (s.enter sem w).Accounts history)
    (passes : fusionSixsemUpgradeWaits sem w.serial w.oldMode w.newMode true = false) : s.waiters = [] := by
  have ledger : Ledger .. := accounts
  have queue := ledger.queue
  simp only [requests, SixSystem.enter, List.length_map, List.length_append, List.length_singleton] at queue
  simp only [fusionSixsemUpgradeWaits, Bool.or_eq_false_iff, Bool.and_true, decide_eq_false_iff_not] at passes
  have short := passes.1.1
  refine List.eq_nil_of_length_eq_zero ?_
  bv_omega

/-- The requests inside the wait loop are not the one that enters. -/
theorem mem_erase_enter {v : Waiter Tid} (sem : Sixsem) (idle : ¬s.Busy w.thread) (old : v ∈ s.waiters) :
    v ∈ (s.enter sem w).waiters.erase w := by
  refine (List.mem_erase_of_ne ?_).mpr (List.mem_append_left _ old)
  rintro rfl
  exact idle ⟨v, old, rfl⟩

/-- No plain request of the wait loop has been passed by a younger conversion. -/
def Unpassed (requests : List (Request Tid)) (history : List (SixEvent Tid)) : Prop :=
  ∀ r ∈ requests, ¬r.Converts →
    r.ticket ∉ requestedConversions history ∧ ∀ ticket ∈ grantedConversions history, ticket < r.ticket

omit [DecidableEq Tid] in
theorem Unpassed.append {requests later : List (Request Tid)} (unpassed : Unpassed requests history)
    (old : ∀ r ∈ later, r ∈ requests)
    (asked : ∀ r ∈ later, ¬r.Converts → r.ticket ∉ requestedConversions events)
    (given : ∀ r ∈ later, ¬r.Converts → ∀ ticket ∈ grantedConversions events, ticket < r.ticket) :
    Unpassed later (history ++ events) := by
  intro r member plain
  obtain ⟨notAsked, above⟩ := unpassed r (old r member) plain
  rw [requestedConversions_append, grantedConversions_append]
  refine ⟨?_, fun ticket granted => ?_⟩
  · rw [List.mem_append, not_or]
    exact ⟨notAsked, asked r member plain⟩
  · rcases List.mem_append.mp granted with before | now
    · exact above ticket before
    · exact given r member plain ticket now

omit [DecidableEq Tid] in
theorem Unpassed.enter (sem : Sixsem) (accounts : s.Accounts history) (unpassed : Unpassed s.requests history)
    (rank : w.ticket = s.tickets) :
    Unpassed (s.enter sem w).requests (history ++ [.requested w.ticket w.thread w.oldMode w.newMode]) := by
  have ledger : Ledger .. := accounts
  have nothing : grantedConversions [.requested w.ticket w.thread w.oldMode w.newMode] = [] := by
    simp [SixEvent.conversionGrant]
  intro r member plain
  simp only [requests, SixSystem.enter, List.map_append, List.map_singleton, List.mem_append,
    List.mem_singleton] at member
  rcases member with old | rfl
  · refine unpassed.append (fun r member => member) ?_ ?_ r old plain
    · intro r member _ asked
      have older := ledger.issued r member
      by_cases converts : w.oldMode = .null <;>
        simp [SixEvent.conversionRequest, converts] at asked
      omega
    · intro r _ _ ticket granted
      simp [nothing] at granted
  · have plain : w.oldMode = .null := not_not.mp plain
    rw [requestedConversions_append, grantedConversions_append, nothing, List.append_nil]
    refine ⟨?_, fun ticket granted => ?_⟩
    · simp only [requestedConversions_singleton, SixEvent.conversionRequest, plain, ne_eq, not_true, if_false,
        Option.toList_none, List.append_nil, rank]
      exact fun asked => Nat.lt_irrefl _ (ledger.fresh _ asked)
    · have asked := ledger.pending.mem_iff.mpr (List.mem_append_left _ granted)
      rw [rank]
      exact ledger.fresh ticket asked

theorem Unpassed.settle (unpassed : Unpassed s.requests history) (member : w ∈ s.waiters)
    (oldest : w.Converts → fusionSixsemUpgradeWaits s.sem w.serial w.oldMode w.newMode initFlag = false →
      ∀ p ∈ s.waiters, ¬p.Converts → w.ticket < p.ticket) :
    Unpassed (s.settle w initFlag).1.requests (history ++ (s.settle w initFlag).2) := by
  refine unpassed.append (settle_requests member) ?_ ?_
  · simp [settle_requestedConversions]
  · intro r remains plain ticket granted
    obtain ⟨p, sleeps, rfl⟩ := List.mem_map.mp (settle_requests member r remains)
    cases waits : fusionSixsemUpgradeWaits s.sem w.serial w.oldMode w.newMode initFlag with
    | true => simp [settle_asleep waits, grantedConversions] at granted
    | false =>
      by_cases converts : w.oldMode = .null
      · simp [settle_granted waits, SixEvent.conversionGrant, converts] at granted
      · simp only [settle_granted waits, grantedConversions_singleton, SixEvent.conversionGrant, ne_eq,
          converts, not_false_eq_true, if_true, Option.toList_some, List.mem_singleton] at granted
        rw [granted]
        exact oldest converts waits p sleeps plain

omit [DecidableEq Tid] in
/-- With nothing held, a request that nobody has passed finds its condition true. -/
theorem free_passes (accounts : s.Accounts history) (unpassed : Unpassed s.requests history) (free : s.holds = [])
    (member : w ∈ s.waiters) (first : initFlag = true → s.sem.waitCount.toNat ≤ 1) :
    fusionSixsemUpgradeWaits s.sem w.serial w.oldMode w.newMode initFlag = false := by
  have ledger : Ledger .. := accounts
  have inside : w.toRequest ∈ s.requests := List.mem_map_of_mem member
  have plain (r : Request Tid) (waiting : r ∈ s.requests) : ¬r.Converts := by
    intro converts
    have held := ledger.backed r waiting converts
    rw [free] at held
    cases held
  have settled : (requestedConversions history).Perm (grantedConversions history) := by
    have none : conversionTickets s.requests = [] := by
      rw [conversionTickets, List.map_eq_nil_iff, List.filter_eq_nil_iff]
      intro r waiting
      simpa using plain r waiting
    simpa only [none, List.append_nil] using ledger.pending
  have below : (requestedConversions history).countP (fun k => k < w.ticket) =
      (requestedConversions history).length := by
    rw [List.countP_eq_length]
    intro ticket asked
    have granted := settled.mem_iff.mp asked
    simpa using (unpassed w.toRequest inside (plain _ inside)).2 ticket granted
  refine fusionSixsemUpgradeWaits_eq_false first ?_ ?_
  · have serial := ledger.serials w.toRequest inside
    rw [below, settled.length_eq] at serial
    rw [ledger.wakeSerial]
    exact serial
  · have books := ledger.books
    rw [free] at books
    exact books.empty_compatible w.oldMode w.newMode

/-- While nothing is held, the wait loop is empty or has somebody about to recheck. -/
def FreeAwake (s : SixSystem Tid) : Prop :=
  s.holds = [] → s.waiters ≠ [] → ∃ w ∈ s.waiters, w.awake = true

theorem FreeAwake.settle (accounts : s.Accounts history) (unpassed : Unpassed s.requests history)
    (member : w ∈ s.waiters)
    (first : initFlag = true → s.sem.waitCount.toNat ≤ 1 ∨ (s.holds = [] → ∃ v ∈ s.waiters.erase w, v.awake = true)) :
    (s.settle w initFlag).1.FreeAwake := by
  intro free _
  cases waits : fusionSixsemUpgradeWaits s.sem w.serial w.oldMode w.newMode initFlag with
  | false =>
    exfalso
    have left := settle_left accounts member waits
    rw [free] at left
    simp at left
  | true =>
    have unheld : s.holds = [] := by
      simpa only [settle_asleep waits] using free
    by_cases alone : initFlag = true → s.sem.waitCount.toNat ≤ 1
    · rw [free_passes accounts unpassed unheld member alone] at waits
      cases waits
    · rw [Classical.not_imp] at alone
      obtain ⟨v, other, awake⟩ := (first alone.1).resolve_left alone.2 unheld
      exact settle_awake other awake waits

omit [DecidableEq Tid] in
/-- A conversion that overtakes no plain request is older than each of them. -/
theorem Unpassed.ticket_lt {p : Waiter Tid} (accounts : s.Accounts history) (unpassed : Unpassed s.requests history)
    (member : w ∈ s.waiters) (sleeps : p ∈ s.waiters) (converts : w.Converts) (plain : ¬p.Converts)
    (notBefore : ¬p.ticket < w.ticket) : w.ticket < p.ticket := by
  have ledger : Ledger .. := accounts
  have different : p.ticket ≠ w.ticket := by
    intro same
    have asked := ledger.pending.mem_iff.mpr
      (List.mem_append_right _ (Ledger.conversion_mem (List.mem_map_of_mem member) converts))
    rw [← same] at asked
    exact (unpassed p.toRequest (List.mem_map_of_mem sleeps) plain).1 asked
  omega

/-- A request that comes in is alone, or the one about to recheck is still there. -/
theorem FreeAwake.enter {sem : Sixsem} (awake : s.FreeAwake) (idle : ¬s.Busy w.thread)
    (noLeak : leakedCounts history = 0)
    (entry : (s.enter sem w).Accounts (history ++ [.requested w.ticket w.thread w.oldMode w.newMode])) :
    sem.waitCount.toNat ≤ 1 ∨ (s.holds = [] → ∃ v ∈ (s.enter sem w).waiters.erase w, v.awake = true) := by
  by_cases nobody : s.waiters = []
  · left
    have queue := Ledger.queue entry
    simp only [requests, SixSystem.enter, nobody, List.nil_append, List.map_singleton,
      List.length_singleton, leakedCounts_append, leakedCounts_singleton, SixEvent.leaks, noLeak] at queue
    exact queue.le
  · right
    intro free
    obtain ⟨v, member, woken⟩ := awake free nobody
    exact ⟨v, mem_erase_enter sem idle member, woken⟩

/-- The two facts over every run without spurious wake-ups and without overtaking. -/
theorem unpassed_freeAwake (reach : SixReach (fun s action => s.Prompted action ∧ ¬s.Overtakes action) s history)
    (quiet : NoEagain history) : Unpassed s.requests history ∧ s.FreeAwake := by
  refine reach.invariant (fun s history => NoEagain history → Unpassed s.requests history ∧ s.FreeAwake)
    ?_ ?_ quiet
  · intro _
    refine ⟨?_, fun _ some => absurd rfl some⟩
    intro r member
    simp [requests, initial] at member
  intro s t action history events before ih guards run quiet
  have quietBefore : NoEagain history := fun event member => quiet event (List.mem_append_left _ member)
  obtain ⟨unpassed, awake⟩ := ih quietBefore
  have accounts := accounts before
  have noLeak := leakedCounts_eq_zero before quietBefore
  cases step_shape run with
  | refused =>
    refine ⟨unpassed.append (fun r member => member) ?_ ?_, awake⟩
    · simp [SixEvent.conversionRequest]
    · simp [SixEvent.conversionGrant]
  | @entered _ sem w idle own entered rank _ _ =>
    have inside : w ∈ (s.enter sem w).waiters := by simp [SixSystem.enter]
    have entry := accounts.enter idle own entered rank
    have entryUnpassed := Unpassed.enter sem accounts unpassed rank
    rw [← List.singleton_append, ← List.append_assoc]
    refine ⟨Unpassed.settle entryUnpassed inside ?_, FreeAwake.settle entry entryUnpassed inside fun _ => ?_⟩
    · intro converts passes p member plain
      have alone := enter_alone entry passes
      simp only [SixSystem.enter, alone, List.nil_append, List.mem_singleton] at member
      rw [member] at plain
      exact absurd converts plain
    · exact FreeAwake.enter awake idle noLeak entry
  | @woke w member =>
    refine ⟨Unpassed.settle unpassed member ?_, FreeAwake.settle accounts unpassed member fun first => ?_⟩
    · intro converts passes p sleeps plain
      refine unpassed.ticket_lt accounts member sleeps converts plain fun older => ?_
      exact guards.2 ⟨w, member, p, sleeps, rfl, converts, plain, older, passes⟩
    · exact absurd first Bool.false_ne_true
  | @tried thread mode idle =>
    refine ⟨unpassed.append (fun r member => member) ?_ ?_, fun free some => ?_⟩
    · simp [SixEvent.conversionRequest]
    · simp [SixEvent.conversionGrant]
    · refine awake ?_ some
      simp only at free
      split at free
      · simp at free
      · exact free
  | released =>
    refine ⟨unpassed.append ?_ ?_ ?_, fun _ some => ?_⟩
    · simp only [requests, fusionCondvarSignal_requests]
      exact fun r member => member
    · simp [SixEvent.conversionRequest]
    · simp [SixEvent.conversionGrant]
    · refine fusionCondvarSignal_wakes ?_
      rintro nobody
      simp [nobody, fusionCondvarSignal] at some

end SixSystem

/-- A free lock keeps no sleepers as long as no conversion overtakes an older
plain request. -/
theorem fusionSixsem_free_no_sleepers {s : SixSystem Tid} {history : List (SixEvent Tid)}
    (reach : SixReach (fun s action => s.Prompted action ∧ ¬s.Overtakes action) s history)
    (quiet : NoEagain history) (still : s.Quiescent) (free : ∀ mode, s.sem.lockCounts mode = 0#16) :
    s.sem.waitCount = 0#16 := by
  have ledger : Ledger .. := SixSystem.accounts reach
  have nobody : s.waiters = [] := by
    by_contra some
    obtain ⟨w, member, awake⟩ :=
      (SixSystem.unpassed_freeAwake reach quiet).2 (ledger.books.holds_eq_nil free) some
    rw [still w member] at awake
    cases awake
  have queue := ledger.queue
  rw [SixSystem.leakedCounts_eq_zero reach quiet, SixSystem.requests, nobody] at queue
  exact BitVec.eq_of_toNat_eq queue

/-- A shared request waits for an intent holder, gets the lock and gives it back. -/
theorem fusionSixsem_free_no_sleepers_handover : ∃ (s : SixSystem Nat) (history : List (SixEvent Nat)),
    SixReach (fun s action => s.Prompted action ∧ ¬s.Overtakes action) s history ∧ NoEagain history ∧
      s.Quiescent ∧ (∀ mode, s.sem.lockCounts mode = 0#16) ∧ s.sem.waitCount = 0#16 := by
  obtain ⟨s, history, reach, checked⟩ := SixReach.of_check
    (fun (s : SixSystem Nat) action => decide (s.Prompted action ∧ ¬s.Overtakes action))
    (fun _ _ passed => of_decide_eq_true passed)
    (fun last => last.2.all (fun event => !event.isEagain) && decide last.1.Quiescent &&
      decide (∀ mode, last.1.sem.lockCounts mode = 0#16))
    [.down 1 .ix, .down 2 .s, .up 1 .ix, .wake 2, .up 2 .s] (by decide)
  simp only [Bool.and_eq_true, List.all_eq_true, Bool.not_eq_true', decide_eq_true_eq] at checked
  obtain ⟨⟨quiet, still⟩, free⟩ := checked
  exact ⟨s, history, reach, quiet, still, free, fusionSixsem_free_no_sleepers reach quiet still free⟩

/-- Thread 2 waits for a shared lock when thread 1 asks for a conversion and is
granted it first. From then on the serial of thread 2 is behind `wake_serial`
and its condition stays false, also when the last hold is gone. -/
theorem fusionSixsem_free_with_sleeper : ¬∀ (s : SixSystem Nat) (history : List (SixEvent Nat)),
    SixReach (fun s action => s.Prompted action) s history → NoEagain history → s.Quiescent →
      (∀ mode, s.sem.lockCounts mode = 0#16) → ¬0#16 < s.sem.waitCount := by
  intro never
  obtain ⟨s, history, reach, checked⟩ := SixReach.of_check
    (fun (s : SixSystem Nat) action => decide (s.Prompted action)) (fun _ _ passed => of_decide_eq_true passed)
    (fun last => last.2.all (fun event => !event.isEagain) && decide last.1.Quiescent &&
      decide (∀ mode, last.1.sem.lockCounts mode = 0#16) && decide (0#16 < last.1.sem.waitCount))
    [.down 1 .ix, .down 3 .ix, .down 4 .ix, .down 2 .s, .upgrade 1 .ix .x, .up 3 .ix, .wake 2, .up 4 .ix,
      .wake 1, .wake 2, .up 1 .x, .wake 2] (by decide)
  simp only [Bool.and_eq_true, List.all_eq_true, Bool.not_eq_true', decide_eq_true_eq] at checked
  obtain ⟨⟨⟨quiet, still⟩, free⟩, sleeper⟩ := checked
  exact never s history reach quiet still free sleeper

end IomemoryVsl
