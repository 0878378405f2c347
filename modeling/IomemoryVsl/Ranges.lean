import IomemoryVsl.Fbio
import IomemoryVsl.MachineWord
import Mathlib.Order.Interval.Set.LinearOrder

namespace IomemoryVsl

/-- `fio_range_t`, which has the name `fio_block_range_t` too. -/
abbrev FioRange := FioBlockRange

def fioRangeWrap (r1 : FioRange) : Bool := r1.base + r1.length < r1.base

def fioRangesOverlap (r1 r2 : FioRange) : Int :=
  if r1.base < fioRangeUpperBound r2 ∧ r2.base < fioRangeUpperBound r1 then 1 else 0

/-- Returns with the result what then is in `r`. -/
def fioRangeIntersect (r1 r2 r : FioRange) : Int × FioRange :=
  let base := if r1.base > r2.base then r1.base else r2.base
  let past := if r1.base + r1.length < r2.base + r2.length then r1.base + r1.length else r2.base + r2.length
  if past > base then (1, { base := base, length := past - base }) else (0, r)

namespace FioRange

/-- The blocks of a range that does not wrap. -/
def blocks (r : FioRange) : Set Nat := Set.Ico r.base.toNat (r.base.toNat + r.length.toNat)

/-- A range of no blocks whose base lies between two blocks of another one. -/
def EmptyWithin (r other : FioRange) : Prop :=
  r.length = 0#64 ∧ other.base < r.base ∧ r.base < fioRangeUpperBound other

instance (r other : FioRange) : Decidable (r.EmptyWithin other) :=
  inferInstanceAs (Decidable (_ ∧ _))

end FioRange

theorem fioRangeUpperBound_toNat {r : FioRange} (whole : fioRangeWrap r = false) :
    (fioRangeUpperBound r).toNat = r.base.toNat + r.length.toNat :=
  MachineWord.toNat_add_of_le (BitVec.not_lt.mp (of_decide_eq_false whole))

theorem fioRange_blocks {r : FioRange} (whole : fioRangeWrap r = false) :
    r.blocks = Set.Ico r.base.toNat (fioRangeUpperBound r).toNat := by
  rw [FioRange.blocks, fioRangeUpperBound_toNat whole]

theorem blocks_inter {r1 r2 : FioRange} (whole1 : fioRangeWrap r1 = false) (whole2 : fioRangeWrap r2 = false) :
    r1.blocks ∩ r2.blocks = Set.Ico (max r1.base.toNat r2.base.toNat)
      (min (fioRangeUpperBound r1).toNat (fioRangeUpperBound r2).toNat) := by
  rw [fioRange_blocks whole1, fioRange_blocks whole2, Set.Ico_inter_Ico]

theorem toNat_fiomax (a b : BitVec 64) : (if a > b then a else b).toNat = max a.toNat b.toNat := by
  split
  · rename_i less
    exact (max_eq_left (BitVec.lt_def.mp less).le).symm
  · rename_i notLess
    exact (max_eq_right (BitVec.le_def.mp (BitVec.not_lt.mp notLess))).symm

theorem toNat_fiomin (a b : BitVec 64) : (if a < b then a else b).toNat = min a.toNat b.toNat := by
  split
  · rename_i less
    exact (min_eq_left (BitVec.lt_def.mp less).le).symm
  · rename_i notLess
    exact (min_eq_right (BitVec.le_def.mp (BitVec.not_lt.mp notLess))).symm

/-- The intersection is right for all ranges that do not wrap: it is refused and `r`
left alone if no block is common. -/
theorem fioRangeIntersect_cases {r1 r2 : FioRange} (r : FioRange) (whole1 : fioRangeWrap r1 = false)
    (whole2 : fioRangeWrap r2 = false) :
    (∃ common, fioRangeIntersect r1 r2 r = (1, common) ∧ common.blocks = r1.blocks ∩ r2.blocks ∧
        common.blocks.Nonempty) ∨
      fioRangeIntersect r1 r2 r = (0, r) ∧ r1.blocks ∩ r2.blocks = ∅ := by
  have lower := toNat_fiomax r1.base r2.base
  have upper := toNat_fiomin (fioRangeUpperBound r1) (fioRangeUpperBound r2)
  rw [blocks_inter whole1 whole2, ← lower, ← upper]
  unfold fioRangeIntersect
  rw [← fioRangeUpperBound, ← fioRangeUpperBound]
  generalize (if r1.base > r2.base then r1.base else r2.base) = base
  generalize (if fioRangeUpperBound r1 < fioRangeUpperBound r2 then fioRangeUpperBound r1
    else fioRangeUpperBound r2) = past
  by_cases less : base < past
  · have length := BitVec.toNat_sub_of_le (BitVec.le_of_lt less)
    have order := BitVec.lt_def.mp less
    have blocks : FioRange.blocks ⟨base, past - base⟩ = Set.Ico base.toNat past.toNat := by
      simp only [FioRange.blocks, length, Nat.add_sub_cancel' order.le]
    exact Or.inl ⟨⟨base, past - base⟩, if_pos less, blocks, by rwa [blocks, Set.nonempty_Ico]⟩
  · refine Or.inr ⟨if_neg less, ?_⟩
    exact Set.Ico_eq_empty fun order => less (BitVec.lt_def.mpr order)

theorem fioRangesOverlap_eq_one_iff {r1 r2 : FioRange} : fioRangesOverlap r1 r2 = 1 ↔
    r1.base < fioRangeUpperBound r2 ∧ r2.base < fioRangeUpperBound r1 := by
  unfold fioRangesOverlap
  split <;> simp_all

theorem fioRangesOverlap_comm (r1 r2 : FioRange) : fioRangesOverlap r1 r2 = fioRangesOverlap r2 r1 := by
  simp only [fioRangesOverlap, and_comm]

theorem fioRangeIntersect_comm (r1 r2 r : FioRange) : fioRangeIntersect r1 r2 r = fioRangeIntersect r2 r1 r := by
  have bases : (if r1.base > r2.base then r1.base else r2.base) =
      if r2.base > r1.base then r2.base else r1.base :=
    BitVec.eq_of_toNat_eq (by rw [toNat_fiomax, toNat_fiomax, max_comm])
  have pasts : (if r1.base + r1.length < r2.base + r2.length then r1.base + r1.length else r2.base + r2.length) =
      if r2.base + r2.length < r1.base + r1.length then r2.base + r2.length else r1.base + r1.length :=
    BitVec.eq_of_toNat_eq (by rw [toNat_fiomin, toNat_fiomin, min_comm])
  unfold fioRangeIntersect
  rw [bases, pasts]

/-- Without an empty range inside the other one, ranges that overlap have a block in common. -/
theorem overlap_iff_common {r1 r2 : FioRange} (whole1 : fioRangeWrap r1 = false) (whole2 : fioRangeWrap r2 = false) :
    (fioRangesOverlap r1 r2 = 1 ↔ (r1.blocks ∩ r2.blocks).Nonempty) ↔
      ¬ r1.EmptyWithin r2 ∧ ¬ r2.EmptyWithin r1 := by
  have upper1 := fioRangeUpperBound_toNat whole1
  have upper2 := fioRangeUpperBound_toNat whole2
  have zero (d : BitVec 64) : d = 0#64 ↔ d.toNat = 0 := by rw [← BitVec.toNat_inj, BitVec.toNat_zero]
  simp only [fioRangesOverlap_eq_one_iff, blocks_inter whole1 whole2, Set.nonempty_Ico, Nat.max_lt, Nat.lt_min,
    FioRange.EmptyWithin, BitVec.lt_def, zero, upper1, upper2]
  omega

/-- What the two functions have to say about two ranges. -/
structure RangesAgree (r1 r2 : FioRange) : Prop where
  overlap_iff : ∀ r, fioRangesOverlap r1 r2 = 1 ↔ (fioRangeIntersect r1 r2 r).1 = 1
  intersect_iff : ∀ r, (fioRangeIntersect r1 r2 r).1 = 1 ↔ (r1.blocks ∩ r2.blocks).Nonempty
  common : ∀ r, (fioRangeIntersect r1 r2 r).1 = 1 →
    (fioRangeIntersect r1 r2 r).2.blocks = r1.blocks ∩ r2.blocks
  untouched : ∀ r, (fioRangeIntersect r1 r2 r).1 = 0 → (fioRangeIntersect r1 r2 r).2 = r
  overlap_comm : fioRangesOverlap r1 r2 = fioRangesOverlap r2 r1
  intersect_comm : ∀ r, fioRangeIntersect r1 r2 r = fioRangeIntersect r2 r1 r

/-- The overlap test differs from the intersection when an empty range lies inside the other one. -/
theorem rangesAgree_iff (r1 r2 : FioRange) (whole1 : fioRangeWrap r1 = false) (whole2 : fioRangeWrap r2 = false) :
    RangesAgree r1 r2 ↔ ¬ r1.EmptyWithin r2 ∧ ¬ r2.EmptyWithin r1 := by
  have intersects : ∀ r, (fioRangeIntersect r1 r2 r).1 = 1 ↔ (r1.blocks ∩ r2.blocks).Nonempty := by
    intro r
    rcases fioRangeIntersect_cases r whole1 whole2 with ⟨common, result, blocks, nonempty⟩ | ⟨result, none⟩
    · rw [result, ← blocks]
      exact iff_of_true rfl nonempty
    · rw [result, none]
      exact iff_of_false Int.zero_ne_one Set.not_nonempty_empty
  rw [← overlap_iff_common whole1 whole2]
  constructor
  · intro agree
    rw [agree.overlap_iff r1, agree.intersect_iff r1]
  · intro overlap
    refine ⟨fun r => overlap.trans (intersects r).symm, intersects, ?_, ?_, fioRangesOverlap_comm r1 r2,
      fioRangeIntersect_comm r1 r2⟩
    · intro r returned
      rcases fioRangeIntersect_cases r whole1 whole2 with ⟨common, result, blocks, _⟩ | ⟨result, _⟩
      · rw [result, blocks]
      · rw [result] at returned
        cases returned
    · intro r returned
      rcases fioRangeIntersect_cases r whole1 whole2 with ⟨common, result, _⟩ | ⟨result, _⟩
      · rw [result] at returned
        cases returned
      · rw [result]

/-- Ranges that touch, the second one up to the end of the address space. -/
theorem rangesAgree_touching : RangesAgree ⟨0#64, 16#64⟩ ⟨16#64, BitVec.ofNat 64 (2 ^ 64 - 17)⟩ :=
  (rangesAgree_iff _ _ (by decide) (by decide)).mpr (by decide)

/-- No block at 5 is said to overlap the first ten blocks. -/
theorem fioRangesOverlap_of_empty :
    fioRangeWrap ⟨5#64, 0#64⟩ = false ∧ fioRangeWrap ⟨0#64, 10#64⟩ = false ∧
      fioRangesOverlap ⟨5#64, 0#64⟩ ⟨0#64, 10#64⟩ = 1 ∧
      (∀ r, fioRangeIntersect ⟨5#64, 0#64⟩ ⟨0#64, 10#64⟩ r = (0, r)) ∧
      ¬ RangesAgree ⟨5#64, 0#64⟩ ⟨0#64, 10#64⟩ := by
  have refused : ∀ r, fioRangeIntersect ⟨5#64, 0#64⟩ ⟨0#64, 10#64⟩ r = (0, r) := fun _ => rfl
  refine ⟨by decide, by decide, by decide, refused, fun agree => ?_⟩
  have one := (agree.overlap_iff ⟨5#64, 0#64⟩).mp (by decide)
  rw [refused] at one
  cases one

end IomemoryVsl
