import IomemoryVsl.SixLockMasks
import IomemoryVsl.SixLockSystem

namespace IomemoryVsl

variable {Tid : Type}

/-- How many of the given holds are in a mode. -/
def heldIn (holds : List (Hold Tid)) (mode : LockMode) : Nat := holds.countP fun h => h.mode = mode

/-- The semaphore's counters describe exactly these holds, and each hold was
compatible with the ones before it when it was granted. -/
structure Books (sem : Sixsem) (holds : List (Hold Tid)) : Prop where
  counts : ∀ mode, (sem.lockCounts mode).toNat = heldIn holds mode
  bits : ∀ mode, hasMode sem.curLocksMask mode = decide (sem.lockCounts mode ≠ 0#16)
  top : sem.curLocksMask.getLsbD 7 = false
  compatible : holds.Pairwise fun a b => hasMode (compatMask b.mode) a.mode = true

theorem books_init : Books fusionSixsemInit ([] : List (Hold Tid)) where
  counts _ := rfl
  bits mode := by simp [fusionSixsemInit, hasMode]
  top := by simp [fusionSixsemInit]
  compatible := .nil

theorem Books.congr {sem sem' : Sixsem} {holds : List (Hold Tid)} (books : Books sem holds)
    (counts : sem'.lockCounts = sem.lockCounts) (mask : sem'.curLocksMask = sem.curLocksMask) :
    Books sem' holds where
  counts := by simpa only [counts] using books.counts
  bits := by simpa only [counts, mask] using books.bits
  top := by simpa only [mask] using books.top
  compatible := books.compatible

theorem heldIn_erase [DecidableEq Tid] {holds : List (Hold Tid)} {hold : Hold Tid} (member : hold ∈ holds)
    (mode : LockMode) :
    heldIn holds mode = heldIn (holds.erase hold) mode + if hold.mode = mode then 1 else 0 := by
  have moved := (List.perm_cons_erase member).countP_eq fun h : Hold Tid => decide (h.mode = mode)
  simpa only [heldIn, List.countP_cons, decide_eq_true_eq] using moved

theorem heldIn_snoc (holds : List (Hold Tid)) (hold : Hold Tid) (mode : LockMode) :
    heldIn (holds ++ [hold]) mode = heldIn holds mode + if hold.mode = mode then 1 else 0 := by
  simp [heldIn, List.countP_cons]

theorem Books.count_ne_zero {sem : Sixsem} {holds : List (Hold Tid)} {hold : Hold Tid}
    (books : Books sem holds) (member : hold ∈ holds) : sem.lockCounts hold.mode ≠ 0#16 := by
  intro zero
  have count := books.counts hold.mode
  have positive : 0 < heldIn holds hold.mode := List.countP_pos_iff.mpr ⟨hold, member, by simp⟩
  rw [zero] at count
  exact absurd count (Nat.ne_of_lt positive)

/-- Taking a hold out of the books keeps them right for the remaining holds. -/
theorem Books.drop [DecidableEq Tid] {sem : Sixsem} {holds : List (Hold Tid)} {hold : Hold Tid}
    (books : Books sem holds) (member : hold ∈ holds) :
    Books (dropMode sem hold.mode) (holds.erase hold) := by
  have nonzero := books.count_ne_zero member
  have lowered : (sem.lockCounts hold.mode - 1#16).toNat = (sem.lockCounts hold.mode).toNat - 1 := by
    bv_omega
  have counts (mode : LockMode) :
      (Function.update sem.lockCounts hold.mode (sem.lockCounts hold.mode - 1#16) mode).toNat =
        heldIn (holds.erase hold) mode := by
    have total := books.counts mode
    rw [heldIn_erase member mode] at total
    by_cases same : mode = hold.mode
    · subst same
      rw [Function.update_self, lowered, total, if_pos rfl, Nat.add_sub_cancel]
    · rw [Function.update_of_ne same, total, if_neg (Ne.symm same), Nat.add_zero]
  have compatible := books.compatible.sublist (List.erase_sublist (a := hold))
  unfold dropMode
  simp only [Function.update_self]
  split
  · rename_i last
    refine ⟨counts, fun mode => ?_, by rw [top_remove]; exact books.top, compatible⟩
    rw [hasMode_remove, books.bits]
    by_cases same : mode = hold.mode
    · simp [same, last]
    · simp [same]
  · rename_i more
    refine ⟨counts, fun mode => ?_, books.top, compatible⟩
    rw [books.bits]
    by_cases same : mode = hold.mode
    · simp [same, more, nonzero]
    · simp [same]

/-- Entering a compatible hold into the books, when its counter does not wrap. -/
theorem Books.take {sem sem' : Sixsem} {holds : List (Hold Tid)} {hold : Hold Tid} (books : Books sem holds)
    (counts : sem'.lockCounts = Function.update sem.lockCounts hold.mode (sem.lockCounts hold.mode + 1#16))
    (mask : sem'.curLocksMask = sem.curLocksMask ||| lockModeMasks hold.mode)
    (room : sem.lockCounts hold.mode + 1#16 ≠ 0#16)
    (fits : ∀ other ∈ holds, hasMode (compatMask hold.mode) other.mode = true) :
    Books sem' (holds ++ [hold]) where
  counts mode := by
    have total := books.counts mode
    rw [heldIn_snoc, counts]
    by_cases same : mode = hold.mode
    · subst same
      rw [Function.update_self, if_pos rfl, ← total]
      bv_omega
    · rw [Function.update_of_ne same, if_neg (Ne.symm same), Nat.add_zero, total]
  bits mode := by
    rw [mask, counts, hasMode_insert, books.bits]
    by_cases same : mode = hold.mode
    · subst same
      simp [room]
    · simp [same]
  top := by rw [mask, top_insert]; exact books.top
  compatible := by
    rw [List.pairwise_append]
    refine ⟨books.compatible, List.pairwise_singleton _ _, fun other member added last => ?_⟩
    rw [List.mem_singleton.mp last]
    exact fits other member

theorem Books.mask_eq_zero {sem : Sixsem} (books : Books sem ([] : List (Hold Tid))) :
    sem.curLocksMask = 0#8 := by
  rw [mask_eq_zero_iff books.top]
  intro mode
  have count := books.counts mode
  have zero : sem.lockCounts mode = 0#16 := by
    apply BitVec.eq_of_toNat_eq
    simpa [heldIn] using count
  simp [books.bits, zero]

theorem Books.holds_eq_nil {sem : Sixsem} {holds : List (Hold Tid)} (books : Books sem holds)
    (empty : ∀ mode, sem.lockCounts mode = 0#16) : holds = [] := by
  rcases holds with _ | ⟨hold, rest⟩
  · rfl
  · exact absurd (empty hold.mode) (books.count_ne_zero (List.mem_cons_self ..))

theorem Books.empty_compatible {sem : Sixsem} (books : Books sem ([] : List (Hold Tid)))
    (oldMode newMode : LockMode) : sixLockIsCompatible sem oldMode newMode = true := by
  simp [sixLockIsCompatible, books.mask_eq_zero]

/-- The only hold there is never stands in the way of its own conversion. -/
theorem Books.alone_compatible {sem : Sixsem} {hold : Hold Tid} (books : Books sem [hold])
    (newMode : LockMode) : sixLockIsCompatible sem hold.mode newMode = true := by
  have one : sem.lockCounts hold.mode = 1#16 := by
    apply BitVec.eq_of_toNat_eq
    simpa [heldIn] using books.counts hold.mode
  have cleared : sem.curLocksMask &&& ~~~lockModeMasks hold.mode = 0#8 := by
    rw [mask_eq_zero_iff (by rw [top_remove]; exact books.top)]
    intro mode
    rw [hasMode_remove, books.bits]
    by_cases same : mode = hold.mode
    · simp [same]
    · have zero : sem.lockCounts mode = 0#16 := by
        apply BitVec.eq_of_toNat_eq
        simpa [heldIn, Ne.symm same] using books.counts mode
      simp [zero]
  simp [sixLockIsCompatible, one, cleared]

variable [DecidableEq Tid]

/-- A passed compatibility test covers every hold but the one being converted.
The code leaves that hold out of the mask only when it is the last of its mode. -/
theorem Books.compatible_others {sem : Sixsem} {holds : List (Hold Tid)} {thread : Tid}
    {oldMode newMode : LockMode} (books : Books sem holds)
    (own : oldMode ≠ .null → ⟨thread, oldMode⟩ ∈ holds)
    (fits : sixLockIsCompatible sem oldMode newMode = true) :
    ∀ other ∈ keptHolds holds thread oldMode, hasMode (compatMask newMode) other.mode = true := by
  intro other member
  have held : other ∈ holds := by
    unfold keptHolds at member
    split at member
    · exact List.mem_of_mem_erase member
    · exact member
  have bit : hasMode sem.curLocksMask other.mode = true := by
    rw [books.bits, decide_eq_true_eq]
    exact books.count_ne_zero held
  unfold sixLockIsCompatible at fits
  simp only at fits
  split at fits
  · rename_i empty
    simp [empty, hasMode] at bit
  split at fits
  · rename_i single
    rw [beq_iff_eq, incompat_and_eq_zero_iff (by rw [top_remove]; exact books.top)] at fits
    by_cases same : other.mode = oldMode
    · by_cases null : oldMode = .null
      · rw [same, null]
        exact compat_null newMode
      · -- the single hold of the old mode is the one that was erased
        have total := heldIn_erase (own null) oldMode
        rw [← books.counts oldMode, single, if_pos rfl] at total
        simp only [keptHolds, ne_eq, null, not_false_eq_true, if_true] at member
        have left : 0 < heldIn (holds.erase ⟨thread, oldMode⟩) oldMode :=
          List.countP_pos_iff.mpr ⟨other, member, by simp [same]⟩
        simp only [BitVec.toNat_ofNat] at total
        omega
    · exact fits other.mode (by rw [hasMode_remove, bit]; simp [same])
  · rw [beq_iff_eq, incompat_and_eq_zero_iff books.top] at fits
    exact fits other.mode bit

theorem Books.kept {sem : Sixsem} {holds : List (Hold Tid)} {thread : Tid} {oldMode : LockMode}
    (books : Books sem holds) (own : oldMode ≠ .null → ⟨thread, oldMode⟩ ∈ holds) :
    Books (if oldMode ≠ .null then dropMode sem oldMode else sem) (keptHolds holds thread oldMode) := by
  unfold keptHolds
  split
  · rename_i converts
    exact books.drop (own converts)
  · exact books

/-- How a request that has left the wait loop ends: granted with the books
brought up to date, or turned away at a full counter. -/
inductive GrantOutcome (sem : Sixsem) (holds : List (Hold Tid)) (thread : Tid) (oldMode newMode : LockMode) :
    Sixsem × Int × Bool → Prop
  | taken {sem'} : Books sem' (keptHolds holds thread oldMode ++ [⟨thread, newMode⟩]) →
      sem'.waitCount = sem.waitCount - 1#16 → sem'.waitSerial = sem.waitSerial →
      sem'.wakeSerial = (if oldMode ≠ .null then sem.wakeSerial + 1#64 else sem.wakeSerial) →
      GrantOutcome sem holds thread oldMode newMode (sem', 0, decide (0#16 < sem'.waitCount))
  | full {sem'} : Books sem' (keptHolds holds thread oldMode) →
      sem'.waitCount = sem.waitCount → sem'.waitSerial = sem.waitSerial →
      sem'.wakeSerial = (if oldMode ≠ .null then sem.wakeSerial + 1#64 else sem.wakeSerial) →
      65535 ≤ (keptHolds holds thread oldMode).length →
      GrantOutcome sem holds thread oldMode newMode (sem', -eagain, false)

@[simp] theorem dropMode_waitCount (sem : Sixsem) (mode : LockMode) :
    (dropMode sem mode).waitCount = sem.waitCount := by
  unfold dropMode; dsimp only; split <;> rfl

@[simp] theorem dropMode_waitSerial (sem : Sixsem) (mode : LockMode) :
    (dropMode sem mode).waitSerial = sem.waitSerial := by
  unfold dropMode; dsimp only; split <;> rfl

@[simp] theorem dropMode_wakeSerial (sem : Sixsem) (mode : LockMode) :
    (dropMode sem mode).wakeSerial = sem.wakeSerial := by
  unfold dropMode; dsimp only; split <;> rfl

theorem leaveWaitLoop_waitCount (sem : Sixsem) (oldMode : LockMode) :
    (leaveWaitLoop sem oldMode).waitCount = sem.waitCount := by
  by_cases null : oldMode = .null <;> simp [leaveWaitLoop, null]

theorem leaveWaitLoop_waitSerial (sem : Sixsem) (oldMode : LockMode) :
    (leaveWaitLoop sem oldMode).waitSerial = sem.waitSerial := by
  by_cases null : oldMode = .null <;> simp [leaveWaitLoop, null]

theorem leaveWaitLoop_wakeSerial (sem : Sixsem) (oldMode : LockMode) :
    (leaveWaitLoop sem oldMode).wakeSerial =
      if oldMode ≠ .null then sem.wakeSerial + 1#64 else sem.wakeSerial := by
  by_cases null : oldMode = .null <;> simp [leaveWaitLoop, null]

theorem Books.leave {sem : Sixsem} {holds : List (Hold Tid)} {thread : Tid} {oldMode : LockMode}
    (books : Books sem holds) (own : oldMode ≠ .null → ⟨thread, oldMode⟩ ∈ holds) :
    Books (leaveWaitLoop sem oldMode) (keptHolds holds thread oldMode) := by
  have turned : Books (if oldMode ≠ .null then { sem with wakeSerial := sem.wakeSerial + 1#64 } else sem)
      holds := by
    split
    · exact books.congr rfl rfl
    · exact books
  exact turned.kept own

theorem Books.grant {sem : Sixsem} {holds : List (Hold Tid)} {thread : Tid} {oldMode newMode : LockMode}
    (books : Books sem holds) (own : oldMode ≠ .null → ⟨thread, oldMode⟩ ∈ holds)
    (fits : sixLockIsCompatible sem oldMode newMode = true) :
    GrantOutcome sem holds thread oldMode newMode (fusionSixsemUpgradeGrant sem oldMode newMode) := by
  have others := books.compatible_others own fits
  have after := books.leave own
  unfold fusionSixsemUpgradeGrant
  simp only [Function.update_self]
  split
  · rename_i wrapped
    refine .full (after.congr ?_ rfl) (leaveWaitLoop_waitCount ..) (leaveWaitLoop_waitSerial ..)
      (leaveWaitLoop_wakeSerial ..) ?_
    · simp only [Function.update_idem, BitVec.add_sub_cancel, Function.update_eq_self]
    · have count := after.counts newMode
      have most : heldIn (keptHolds holds thread oldMode) newMode ≤ (keptHolds holds thread oldMode).length :=
        List.countP_le_length
      have last : ((leaveWaitLoop sem oldMode).lockCounts newMode).toNat = 65535 := by bv_omega
      omega
  · rename_i room
    refine .taken (after.take rfl rfl room others) ?_ (leaveWaitLoop_waitSerial ..) (leaveWaitLoop_wakeSerial ..)
    simp only [leaveWaitLoop_waitCount]

end IomemoryVsl
