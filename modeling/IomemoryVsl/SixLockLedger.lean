import IomemoryVsl.SixLockBooks
import IomemoryVsl.MachineWord
import Mathlib.Data.List.Perm.Basic
import Mathlib.Data.List.Infix

namespace IomemoryVsl

/-- Two serials that have not wrapped and are less than half the range apart
compare as smaller whenever they differ, so the wait loop lets a request pass
only at its own serial. -/
theorem serial64Compare_lt_zero_iff {a b : Nat} (boundA : a < 2 ^ 64) (boundB : b < 2 ^ 64)
    (nearA : a < b + 2 ^ 63) (nearB : b < a + 2 ^ 63) :
    serial64Compare (BitVec.ofNat 64 a) (BitVec.ofNat 64 b) < 0 ↔ a ≠ b := by
  have exactA : (BitVec.ofNat 64 a).toNat = a := MachineWord.toNat_ofNat boundA
  have exactB : (BitVec.ofNat 64 b).toNat = b := MachineWord.toNat_ofNat boundB
  have limit : (1#64 <<< 63).toNat = 2 ^ 63 := by decide
  unfold serial64Compare
  simp only [← BitVec.toNat_inj, BitVec.lt_def, BitVec.toNat_sub, exactA, exactB, limit]
  split
  · omega
  · split
    · split <;> omega
    · split <;> omega

/-- A request that gets into the wait loop is counted and has the current
`wait_serial`, which a conversion then moves on. -/
theorem fusionSixsemUpgradeEnter_spec {sem sem' : Sixsem} {oldMode : LockMode} {serial : BitVec 64}
    (entered : fusionSixsemUpgradeEnter sem oldMode = some (sem', serial)) :
    (sem.waitCount + 1#16).toNat = sem.waitCount.toNat + 1 ∧ serial = sem.waitSerial ∧
      sem' = { sem with
        waitCount := sem.waitCount + 1#16
        waitSerial := if oldMode ≠ .null then sem.waitSerial + 1#64 else sem.waitSerial } := by
  simp only [fusionSixsemUpgradeEnter] at entered
  split at entered
  · cases entered
  rename_i room
  have counted : (sem.waitCount + 1#16).toNat = sem.waitCount.toNat + 1 := by bv_omega
  split at entered
  · rename_i converts
    cases entered
    exact ⟨counted, rfl, by rw [if_pos converts]⟩
  · rename_i plain
    cases entered
    exact ⟨counted, rfl, by rw [if_neg plain]⟩

variable {Tid : Type}

/-- The tickets of the conversions among some requests. -/
def conversionTickets (requests : List (Request Tid)) : List Nat :=
  (requests.filter fun r => r.Converts).map Request.ticket

theorem conversionTickets_cons (r : Request Tid) (requests : List (Request Tid)) :
    conversionTickets (r :: requests) = (if r.Converts then [r.ticket] else []) ++ conversionTickets requests := by
  by_cases converts : r.Converts
  · simp only [conversionTickets, List.filter_cons, converts, decide_true, if_true, List.map_cons,
      List.singleton_append]
  · simp only [conversionTickets, List.filter_cons, converts, decide_false, Bool.false_eq_true, if_false,
      List.nil_append]

/-- Everything the semaphore's fields say about the requests inside the wait loop
and the holds. `requested` and `granted` list the tickets of all conversions that
entered and left the wait loop so far, `leaked` counts the failed exits, which
keep their place in `wait_count`. -/
structure Ledger (sem : Sixsem) (requests : List (Request Tid)) (holds : List (Hold Tid)) (tickets : Nat)
    (requested granted : List Nat) (leaked : Nat) : Prop where
  books : Books sem holds
  distinct : (requests.map Request.thread).Nodup
  backed : ∀ r ∈ requests, r.Converts → ⟨r.thread, r.oldMode⟩ ∈ holds
  queue : sem.waitCount.toNat = requests.length + leaked
  waitSerial : sem.waitSerial = BitVec.ofNat 64 requested.length
  wakeSerial : sem.wakeSerial = BitVec.ofNat 64 granted.length
  pending : requested.Perm (granted ++ conversionTickets requests)
  sorted : requested.Pairwise (· < ·)
  fresh : ∀ ticket ∈ requested, ticket < tickets
  issued : ∀ r ∈ requests, r.ticket < tickets
  serials : ∀ r ∈ requests, r.serial = BitVec.ofNat 64 (requested.countP fun k => k < r.ticket)
  ordered : requested.length < 2 ^ 64 → granted <+: requested

namespace Ledger

variable {sem sem' : Sixsem} {requests requests' : List (Request Tid)} {holds : List (Hold Tid)}
  {tickets leaked : Nat} {requested granted : List Nat}

theorem initial : Ledger fusionSixsemInit [] ([] : List (Hold Tid)) 0 [] [] 0 where
  books := books_init
  distinct := .nil
  backed := by simp
  queue := rfl
  waitSerial := rfl
  wakeSerial := rfl
  pending := .nil
  sorted := .nil
  fresh := by simp
  issued := by simp
  serials := by simp
  ordered _ := List.nil_prefix

/-- The order in which the requests sleep, and which of them are woken, do not matter. -/
theorem perm (ledger : Ledger sem requests holds tickets requested granted leaked)
    (moved : requests.Perm requests') : Ledger sem requests' holds tickets requested granted leaked where
  books := ledger.books
  distinct := (moved.map _).nodup_iff.mp ledger.distinct
  backed r member := ledger.backed r (moved.mem_iff.mpr member)
  queue := by rw [← moved.length_eq]; exact ledger.queue
  waitSerial := ledger.waitSerial
  wakeSerial := ledger.wakeSerial
  pending := ledger.pending.trans (List.Perm.append_left _ ((moved.filter _).map _))
  sorted := ledger.sorted
  fresh := ledger.fresh
  issued r member := ledger.issued r (moved.mem_iff.mpr member)
  serials r member := ledger.serials r (moved.mem_iff.mpr member)
  ordered := ledger.ordered

theorem waiting_lt (ledger : Ledger sem requests holds tickets requested granted leaked) :
    requests.length < 2 ^ 16 := by
  have queue := ledger.queue
  have bound := sem.waitCount.isLt
  omega

/-- A new request joins the wait loop and takes its serial. -/
theorem enter (ledger : Ledger sem requests holds tickets requested granted leaked) {r : Request Tid}
    (entered : fusionSixsemUpgradeEnter sem r.oldMode = some (sem', r.serial))
    (idle : ∀ q ∈ requests, q.thread ≠ r.thread) (own : r.Converts → ⟨r.thread, r.oldMode⟩ ∈ holds)
    (rank : r.ticket = tickets) :
    Ledger sem' (r :: requests) holds (tickets + 1)
      (requested ++ if r.Converts then [r.ticket] else []) granted leaked := by
  obtain ⟨counted, mine, rfl⟩ := fusionSixsemUpgradeEnter_spec entered
  have asked : ∀ k ∈ if r.Converts then [r.ticket] else [], k = tickets := by
    split <;> simp [rank]
  have below : requested.countP (fun k => k < r.ticket) = requested.length := by
    rw [List.countP_eq_length]
    intro k member
    simpa [rank] using ledger.fresh k member
  have above (bound : Nat) (older : bound ≤ tickets) :
      (if r.Converts then [r.ticket] else []).countP (fun k => k < bound) = 0 := by
    rw [List.countP_eq_zero]
    intro k member
    simpa [asked k member] using older
  have queue := ledger.queue
  refine ⟨ledger.books.congr rfl rfl, ?_, ?_, ?_, ?_, ledger.wakeSerial, ?_, ?_, ?_, ?_, ?_, ?_⟩
  · simp only [List.map_cons, List.nodup_cons, List.mem_map, not_exists, not_and]
    exact ⟨idle, ledger.distinct⟩
  · intro q member
    rcases List.mem_cons.mp member with rfl | old
    · exact own
    · exact ledger.backed q old
  · simp only [counted, List.length_cons]
    omega
  · by_cases plain : r.oldMode = .null
    · simp [ledger.waitSerial, Request.Converts, plain]
    · simp [ledger.waitSerial, Request.Converts, plain, BitVec.ofNat_add]
  · have joined := ledger.pending.append_right (if r.Converts then [r.ticket] else [])
    rw [List.append_assoc] at joined
    rw [conversionTickets_cons]
    exact joined.trans (List.perm_append_comm.append_left _)
  · refine List.pairwise_append.mpr ⟨ledger.sorted, ?_, fun k member last new => ?_⟩
    · split
      · exact List.pairwise_singleton _ _
      · exact .nil
    · rw [asked last new]
      exact ledger.fresh k member
  · intro k member
    rcases List.mem_append.mp member with old | new
    · exact (ledger.fresh k old).trans (Nat.lt_succ_self _)
    · rw [asked k new]
      exact Nat.lt_succ_self _
  · intro q member
    rcases List.mem_cons.mp member with rfl | old
    · omega
    · exact (ledger.issued q old).trans (Nat.lt_succ_self _)
  · intro q member
    rw [List.countP_append]
    rcases List.mem_cons.mp member with rfl | old
    · rw [above _ rank.le, below, Nat.add_zero, mine]
      exact ledger.waitSerial
    · rw [above _ (ledger.issued q old).le, Nat.add_zero]
      exact ledger.serials q old
  · intro small
    rw [List.length_append] at small
    exact (ledger.ordered (by omega)).trans (List.prefix_append _ _)

/-- Counting the older conversions of a pending conversion: all granted ones, and
those that are pending with a smaller ticket. -/
theorem count_older {ticket : Nat} {rest : List Nat} (sorted : (granted ++ rest).Pairwise (· < ·))
    (member : ticket ∈ rest) :
    (granted ++ rest).countP (fun k => k < ticket) = granted.length + rest.countP fun k => k < ticket := by
  rw [List.countP_append]
  congr 1
  rw [List.countP_eq_length]
  intro k old
  simpa using (List.pairwise_append.mp sorted).2.2 k old ticket member

/-- A sorted list with nothing below one of its members begins with that member. -/
theorem head_of_least {ticket : Nat} {list : List Nat} (sorted : list.Pairwise (· < ·))
    (member : ticket ∈ list) (least : list.countP (fun k => k < ticket) = 0) :
    ∃ rest, list = ticket :: rest := by
  cases list with
  | nil => simp at member
  | cons first rest =>
    have notBelow := List.countP_eq_zero.mp least first (List.mem_cons_self ..)
    rcases List.mem_cons.mp member with same | later
    · exact ⟨rest, by rw [same]⟩
    · have below := (List.pairwise_cons.mp sorted).1 ticket later
      simp [below] at notBelow

/-- A request that passes the serial test has a serial equal to `wake_serial`. -/
theorem older_eq_granted {r : Request Tid} {initFlag : Bool}
    (ledger : Ledger sem requests holds tickets requested granted leaked) (member : r ∈ requests)
    (small : requested.length < 2 ^ 63)
    (passes : fusionSixsemUpgradeWaits sem r.serial r.oldMode r.newMode initFlag = false) :
    requested.countP (fun k => k < r.ticket) = granted.length := by
  have some : requested.countP (fun k => k < r.ticket) ≤ requested.length := List.countP_le_length
  have total := ledger.pending.length_eq
  rw [List.length_append] at total
  simp only [fusionSixsemUpgradeWaits, Bool.or_eq_false_iff, decide_eq_false_iff_not,
    ledger.serials r member, ledger.wakeSerial] at passes
  have notBefore := passes.1.2
  rw [serial64Compare_lt_zero_iff (by omega) (by omega) (by omega) (by omega)] at notBefore
  exact not_not.mp notBefore

theorem conversion_mem {r : Request Tid} (member : r ∈ requests) (converts : r.Converts) :
    r.ticket ∈ conversionTickets requests :=
  List.mem_map.mpr ⟨r, List.mem_filter.mpr ⟨member, by simpa using converts⟩, rfl⟩

/-- While the serials have not wrapped, the conversions still waiting are those
requested last. -/
theorem waiting_suffix (ledger : Ledger sem requests holds tickets requested granted leaked)
    (small : requested.length < 2 ^ 64) :
    ∃ rest, requested = granted ++ rest ∧ rest.Perm (conversionTickets requests) := by
  obtain ⟨rest, split⟩ := ledger.ordered small
  refine ⟨rest, split.symm, ?_⟩
  have pending := ledger.pending
  rw [← split] at pending
  exact (List.perm_append_left_iff _).mp pending

/-- The conversion that passes is the oldest one pending. -/
theorem oldest_passes {r : Request Tid} {initFlag : Bool}
    (ledger : Ledger sem requests holds tickets requested granted leaked) (member : r ∈ requests)
    (converts : r.Converts) (small : requested.length < 2 ^ 64)
    (passes : fusionSixsemUpgradeWaits sem r.serial r.oldMode r.newMode initFlag = false) :
    granted ++ [r.ticket] <+: requested := by
  obtain ⟨rest, split, waiting⟩ := ledger.waiting_suffix small
  have sorted := ledger.sorted
  have total := congrArg List.length split
  rw [List.length_append] at total
  have short : rest.length < 2 ^ 16 := by
    have fewer : (conversionTickets requests).length ≤ requests.length := by
      rw [conversionTickets, List.length_map]
      exact List.length_filter_le _ _
    have bound := ledger.waiting_lt
    have equal := waiting.length_eq
    omega
  have inRest : r.ticket ∈ rest := waiting.mem_iff.mpr (conversion_mem member converts)
  have serial := ledger.serials r member
  rw [split] at serial sorted
  rw [count_older sorted inRest] at serial
  simp only [fusionSixsemUpgradeWaits, Bool.or_eq_false_iff, decide_eq_false_iff_not, serial,
    ledger.wakeSerial] at passes
  have notBefore := passes.1.2
  have older : rest.countP (fun k => k < r.ticket) ≤ rest.length := List.countP_le_length
  rw [serial64Compare_lt_zero_iff (by omega) (by omega) (by omega) (by omega)] at notBefore
  obtain ⟨later, first⟩ := head_of_least (List.pairwise_append.mp sorted).2.1 inRest (by omega)
  exact ⟨later, by rw [split, first, List.append_assoc, List.singleton_append]⟩

theorem mem_keptHolds [DecidableEq Tid] {thread other : Tid} {oldMode mode : LockMode}
    (held : (⟨other, mode⟩ : Hold Tid) ∈ holds) (different : other ≠ thread) :
    ⟨other, mode⟩ ∈ keptHolds holds thread oldMode := by
  unfold keptHolds
  split
  · refine (List.mem_erase_of_ne ?_).mpr held
    intro same
    exact different (congrArg Hold.thread same)
  · exact held

/-- A request leaves the wait loop, granted or turned away at a full counter. -/
theorem leave [DecidableEq Tid] {r : Request Tid} {initFlag : Bool} {result : Sixsem × Int × Bool}
    (ledger : Ledger sem (r :: requests) holds tickets requested granted leaked)
    (passes : fusionSixsemUpgradeWaits sem r.serial r.oldMode r.newMode initFlag = false)
    (outcome : GrantOutcome sem holds r.thread r.oldMode r.newMode result) :
    Ledger result.1 requests
      (if result.2.1 = 0 then keptHolds holds r.thread r.oldMode ++ [⟨r.thread, r.newMode⟩]
        else keptHolds holds r.thread r.oldMode)
      tickets requested (granted ++ if r.Converts then [r.ticket] else [])
      (leaked + if result.2.1 ≠ 0 then 1 else 0) := by
  have mine := List.mem_cons_self (a := r) (l := requests)
  have other (q : Request Tid) (member : q ∈ requests) : q.thread ≠ r.thread := by
    have distinct := ledger.distinct
    rw [List.map_cons, List.nodup_cons] at distinct
    intro same
    exact distinct.1 (List.mem_map.mpr ⟨q, member, same⟩)
  have backed : ∀ q ∈ requests, q.Converts → ⟨q.thread, q.oldMode⟩ ∈ keptHolds holds r.thread r.oldMode :=
    fun q member converts =>
      mem_keptHolds (ledger.backed q (List.mem_cons_of_mem _ member) converts) (other q member)
  have queue := ledger.queue
  rw [List.length_cons] at queue
  have pending : requested.Perm
      ((granted ++ if r.Converts then [r.ticket] else []) ++ conversionTickets requests) := by
    rw [List.append_assoc, ← conversionTickets_cons]
    exact ledger.pending
  have ordered : requested.length < 2 ^ 64 →
      (granted ++ if r.Converts then [r.ticket] else []) <+: requested := by
    intro small
    split
    · rename_i converts
      exact ledger.oldest_passes mine converts small passes
    · rw [List.append_nil]
      exact ledger.ordered small
  have turned : (if r.oldMode ≠ .null then sem.wakeSerial + 1#64 else sem.wakeSerial) =
      BitVec.ofNat 64 (granted ++ if r.Converts then [r.ticket] else []).length := by
    change (if r.Converts then sem.wakeSerial + 1#64 else sem.wakeSerial) = _
    rw [List.length_append, ledger.wakeSerial]
    split
    · exact (BitVec.ofNat_add ..).symm
    · rfl
  have distinct := (List.nodup_cons.mp ledger.distinct).2
  have issued : ∀ q ∈ requests, q.ticket < tickets := fun q member =>
    ledger.issued q (List.mem_cons_of_mem _ member)
  have serials := fun q (member : q ∈ requests) => ledger.serials q (List.mem_cons_of_mem _ member)
  cases outcome with
  | @taken after books counted waited woke =>
    simp only [if_true, ne_eq, not_true, if_false, Nat.add_zero]
    refine ⟨books, distinct, fun q member converts => List.mem_append_left _ (backed q member converts), ?_,
      waited.trans ledger.waitSerial, woke.trans turned, pending, ledger.sorted, ledger.fresh, issued,
      serials, ordered⟩
    rw [counted]
    bv_omega
  | @full after books counted waited woke _ =>
    simp only [neg_eagain_ne_zero, if_false, ne_eq, not_false_eq_true, if_true]
    refine ⟨books, distinct, backed, ?_, waited.trans ledger.waitSerial, woke.trans turned, pending,
      ledger.sorted, ledger.fresh, issued, serials, ordered⟩
    rw [counted]
    omega

/-- A trylock leaves everything but the books alone, and succeeds only with an
empty wait queue, equal serials and a compatible mode. -/
theorem tried (thread : Tid) (mode : LockMode)
    (ledger : Ledger sem requests holds tickets requested granted leaked) :
    Ledger (fusionSixsemDownTrylock sem mode).1 requests
      (if (fusionSixsemDownTrylock sem mode).2 then holds ++ [⟨thread, mode⟩] else holds)
      tickets requested granted leaked := by
  classical
  unfold fusionSixsemDownTrylock
  split
  · simpa using ledger
  split
  · rename_i free
    simp only [Function.update_self]
    split
    · simp only [Bool.false_eq_true, if_false, Function.update_idem, BitVec.add_sub_cancel,
        Function.update_eq_self]
      exact ledger
    · rename_i room
      have own : LockMode.null ≠ .null → (⟨thread, .null⟩ : Hold Tid) ∈ holds := fun converts => absurd rfl converts
      have fits := ledger.books.compatible_others own free.2
      simp only [keptHolds, ne_eq, not_true, if_false] at fits
      refine ⟨ledger.books.take rfl rfl room fits, ledger.distinct,
        fun r member converts => List.mem_append_left _ (ledger.backed r member converts), ledger.queue,
        ledger.waitSerial, ledger.wakeSerial, ledger.pending, ledger.sorted, ledger.fresh, ledger.issued,
        ledger.serials, ledger.ordered⟩
  · simpa using ledger

theorem released [DecidableEq Tid] {thread : Tid} {mode : LockMode}
    (ledger : Ledger sem requests holds tickets requested granted leaked)
    (idle : ∀ r ∈ requests, r.thread ≠ thread) (held : ⟨thread, mode⟩ ∈ holds) :
    Ledger (fusionSixsemUp sem mode) requests (holds.erase ⟨thread, mode⟩) tickets requested granted leaked where
  books := ledger.books.drop held
  distinct := ledger.distinct
  backed r member converts := by
    refine (List.mem_erase_of_ne ?_).mpr (ledger.backed r member converts)
    intro same
    exact idle r member (congrArg Hold.thread same)
  queue := by simpa only [fusionSixsemUp, dropMode_waitCount] using ledger.queue
  waitSerial := by simpa only [fusionSixsemUp, dropMode_waitSerial] using ledger.waitSerial
  wakeSerial := by simpa only [fusionSixsemUp, dropMode_wakeSerial] using ledger.wakeSerial
  pending := ledger.pending
  sorted := ledger.sorted
  fresh := ledger.fresh
  issued := ledger.issued
  serials := ledger.serials
  ordered := ledger.ordered

end Ledger

end IomemoryVsl
