import IomemoryVsl.SixLockRuns
import Mathlib.Data.Set.Card

namespace IomemoryVsl

variable {Tid : Type} [DecidableEq Tid]

/-- What the semaphore promises in every state. `holds` lists the holds in the
order in which they were granted or last converted. -/
structure SixSafe (s : SixSystem Tid) : Prop where
  /-- Each hold is in the compatibility mask of every hold granted after it. -/
  compatible : s.holds.Pairwise fun a b => hasMode (compatMask b.mode) a.mode = true
  exclusive : ∀ a ∈ s.holds, ∀ b ∈ s.holds, a.thread ≠ b.thread → a.mode = .x → b.mode = .null
  counts : ∀ mode, (s.sem.lockCounts mode).toNat = (s.holds.filter fun h => h.mode = mode).length
  /-- When no thread holds more than one mode, that is the number of threads. -/
  threads : (s.holds.map Hold.thread).Nodup →
    ∀ mode, (s.sem.lockCounts mode).toNat = {thread | ⟨thread, mode⟩ ∈ s.holds}.ncard
  mask : ∀ mode, hasMode s.sem.curLocksMask mode = true ↔ 0 < (s.sem.lockCounts mode).toNat
  waiting : s.sem.waitCount.toNat = s.waiters.length
  converting : s.sem.waitSerial - s.sem.wakeSerial =
    BitVec.ofNat 64 (s.waiters.filter fun w => w.Converts).length

omit [DecidableEq Tid] in
theorem Books.exclusive {sem : Sixsem} {holds : List (Hold Tid)} (books : Books sem holds) {a b : Hold Tid}
    (memberA : a ∈ holds) (memberB : b ∈ holds) (different : a ≠ b) (excl : a.mode = .x) : b.mode = .null := by
  let Beside (a b : Hold Tid) : Prop :=
    hasMode (compatMask b.mode) a.mode = true ∨ hasMode (compatMask a.mode) b.mode = true
  have symmetric : Std.Symm Beside := ⟨fun _ _ => Or.symm⟩
  have beside : holds.Pairwise Beside := books.compatible.imp Or.inl
  have either := beside.forall memberA memberB different
  simp only [Beside, excl] at either
  rcases either with later | earlier
  · exact compat_x.2 later
  · exact compat_x.1 earlier

theorem heldIn_eq_ncard {holds : List (Hold Tid)} (single : (holds.map Hold.thread).Nodup) (mode : LockMode) :
    heldIn holds mode = {thread | (⟨thread, mode⟩ : Hold Tid) ∈ holds}.ncard := by
  let owners := (holds.filter fun h => h.mode = mode).map Hold.thread
  have nodup : owners.Nodup := single.sublist (List.filter_sublist.map _)
  have same : {thread | (⟨thread, mode⟩ : Hold Tid) ∈ holds} = ↑owners.toFinset := by
    ext thread
    simp only [Set.mem_ofPred_eq, List.coe_toFinset, owners, List.mem_map, List.mem_filter, decide_eq_true_eq]
    constructor
    · intro held
      exact ⟨_, ⟨held, rfl⟩, rfl⟩
    · rintro ⟨hold, ⟨held, rfl⟩, rfl⟩
      exact held
  rw [same, Set.ncard_coe_finset, List.toFinset_card_of_nodup nodup, List.length_map, heldIn,
    List.countP_eq_length_filter]

/-- SIX-lock safety over every run of any number of threads, spurious wake-ups
included, in which no call returns `-EAGAIN`. -/
theorem fusionSixsem_safe {s : SixSystem Tid} {history : List (SixEvent Tid)}
    (reach : SixReach (fun _ _ => True) s history) (quiet : NoEagain history) : SixSafe s := by
  have ledger : Ledger .. := SixSystem.accounts reach
  have books := ledger.books
  refine ⟨books.compatible, ?_, ?_, ?_, ?_, ?_, ?_⟩
  · intro a memberA b memberB different
    exact books.exclusive memberA memberB fun same => different (congrArg Hold.thread same)
  · intro mode
    rw [books.counts, heldIn, List.countP_eq_length_filter]
  · intro single mode
    rw [books.counts, heldIn_eq_ncard single]
  · intro mode
    rw [books.bits, decide_eq_true_eq, BitVec.toNat_pos, BitVec.pos_iff_ne_zero]
  · have queue := ledger.queue
    rwa [SixSystem.leakedCounts_eq_zero reach quiet, Nat.add_zero, SixSystem.requests, List.length_map] at queue
  · have total := ledger.pending.length_eq
    have sameLength : (conversionTickets s.requests).length = (s.waiters.filter fun w => w.Converts).length := by
      simp only [conversionTickets, SixSystem.requests, List.length_map, List.filter_map]
      rfl
    rw [ledger.waitSerial, ledger.wakeSerial, total, List.length_append, sameLength, BitVec.ofNat_add,
      BitVec.add_comm, BitVec.add_sub_cancel]

/-- Two intent holders, one of them asleep in its conversion to `LOCK_X`. -/
theorem fusionSixsem_safe_sleeper : ∃ (s : SixSystem Nat) (history : List (SixEvent Nat)),
    SixReach (fun _ _ => True) s history ∧ NoEagain history ∧ s.holds.length = 2 ∧ s.waiters.length = 1 ∧
      SixSafe s := by
  obtain ⟨s, history, reach, checked⟩ := SixReach.of_check (fun _ _ => true)
    (fun (_ : SixSystem Nat) (_ : SixAction Nat) _ => trivial)
    (fun last => last.2.all (fun event => !event.isEagain) && last.1.holds.length == 2 &&
      last.1.waiters.length == 1)
    [.down 1 .ix, .down 2 .ix, .upgrade 1 .ix .x] (by decide)
  simp only [Bool.and_eq_true, List.all_eq_true, Bool.not_eq_true', beq_iff_eq] at checked
  obtain ⟨⟨quiet, held⟩, asleep⟩ := checked
  exact ⟨s, history, reach, quiet, held, asleep, fusionSixsem_safe reach quiet⟩

end IomemoryVsl
