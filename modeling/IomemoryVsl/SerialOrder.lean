import Mathlib.Algebra.Group.Nat.Defs
import Mathlib.Order.Defs.PartialOrder

/-! Wrapping serial numbers, ordered by the shorter way round. -/

namespace SerialOrder

variable {w : Nat} {a b : BitVec w}

/-- The second serial is reached from the first one by less than half of the range. -/
def Before (a b : BitVec w) : Prop := ∃ d : BitVec w, 0 < d.toNat ∧ 2 * d.toNat < 2 ^ w ∧ b = a + d

/-- Neither way round is the shorter one. -/
def Antipodal (a b : BitVec w) : Prop := 2 * (b - a).toNat = 2 ^ w

theorem before_iff : Before a b ↔ 0 < (b - a).toNat ∧ 2 * (b - a).toNat < 2 ^ w := by
  constructor
  · rintro ⟨d, pos, half, rfl⟩
    rw [BitVec.add_comm, BitVec.add_sub_cancel]
    exact ⟨pos, half⟩
  · rintro ⟨pos, half⟩
    exact ⟨b - a, pos, half, by rw [BitVec.add_comm, BitVec.sub_add_cancel]⟩

instance (a b : BitVec w) : Decidable (Before a b) := decidable_of_iff _ before_iff.symm

/-- The two ways round make up the range. -/
theorem toNat_sub_add_sub (different : a ≠ b) : (b - a).toNat + (a - b).toNat = 2 ^ w := by
  have other : a.toNat ≠ b.toNat := fun same => different (BitVec.eq_of_toNat_eq same)
  have boundA := a.isLt
  have boundB := b.isLt
  rcases Nat.lt_or_gt_of_ne other with less | greater
  · rw [BitVec.toNat_sub_of_le (BitVec.le_def.mpr (Nat.le_of_lt less)),
      BitVec.toNat_sub_of_lt (BitVec.lt_def.mpr less)]
    omega
  · rw [BitVec.toNat_sub_of_lt (BitVec.lt_def.mpr greater),
      BitVec.toNat_sub_of_le (BitVec.le_def.mpr (Nat.le_of_lt greater))]
    omega

theorem Before.ne (before : Before a b) : a ≠ b := by
  rintro rfl
  have pos := (before_iff.mp before).1
  rw [BitVec.sub_self, BitVec.toNat_zero] at pos
  exact Nat.lt_irrefl 0 pos

theorem Before.asymm (before : Before a b) : ¬ Before b a := by
  intro after
  have whole := toNat_sub_add_sub before.ne
  have there := (before_iff.mp before).2
  have back := (before_iff.mp after).2
  omega

/-- Two different serials that are not antipodal have a shorter way round. -/
theorem before_or_before (different : a ≠ b) (near : ¬ Antipodal a b) : Before a b ∨ Before b a := by
  have whole := toNat_sub_add_sub different
  have there : (b - a).toNat < 2 ^ w := (b - a).isLt
  have back : (a - b).toNat < 2 ^ w := (a - b).isLt
  simp only [Antipodal] at near
  simp only [before_iff]
  omega

/-- What a comparison of two serials has to return. -/
structure Compares (a b : BitVec w) (result : Int) : Prop where
  equal : result = 0 ↔ a = b
  before : result = -1 ↔ Before a b
  after : result = 1 ↔ a ≠ b ∧ ¬ Before a b

def sign (a b : BitVec w) : Int := if a = b then 0 else if Before a b then -1 else 1

theorem compares_iff {result : Int} : Compares a b result ↔ result = sign a b := by
  constructor
  · intro ⟨equal, before, after⟩
    unfold sign
    split
    · exact equal.mpr ‹_›
    · split
      · exact before.mpr ‹_›
      · exact after.mpr ⟨‹_›, ‹_›⟩
  · rintro rfl
    unfold sign
    by_cases same : a = b
    · have never : ¬ Before a b := fun before => before.ne same
      exact ⟨by simp [same], by simp only [if_pos same, never, iff_false]; decide, by simp [same]⟩
    · by_cases before : Before a b
      · exact ⟨by simp [same, before], by simp [same, before], by simp [same, before]⟩
      · exact ⟨by simp [same, before], by simp [same, before], by simp [same, before]⟩

theorem sign_self (a : BitVec w) : sign a a = 0 := if_pos rfl

theorem sign_ne_zero (different : a ≠ b) : sign a b ≠ 0 := by
  unfold sign
  rw [if_neg different]
  split <;> decide

/-- Comparing the other way round negates the result, also across the wrap. -/
theorem sign_swap (near : ¬ Antipodal a b) : sign b a = -sign a b := by
  by_cases same : a = b
  · rw [same, sign_self, Int.neg_zero]
  · unfold sign
    rw [if_neg same, if_neg (Ne.symm same)]
    rcases before_or_before same near with before | before
    · rw [if_pos before, if_neg before.asymm, Int.neg_neg]
    · rw [if_pos before, if_neg before.asymm]

end SerialOrder
