import Mathlib.Algebra.Group.Nat.Defs

/-! Natural numbers and integers as machine words, and back. -/

namespace MachineWord

variable {w n : Nat}

theorem toNat_ofNat (small : n < 2 ^ w) : (BitVec.ofNat w n).toNat = n := by
  rw [BitVec.toNat_ofNat]
  exact Nat.mod_eq_of_lt small

theorem toInt_ofNat (small : 2 * n < 2 ^ w) : (BitVec.ofNat w n).toInt = n := by
  have value : (BitVec.ofNat w n).toNat = n := toNat_ofNat (by omega)
  rw [BitVec.toInt_eq_toNat_of_lt (by omega), value]

/-- A word that is not negative is below half of the range. -/
theorem two_mul_toNat_lt {x : BitVec w} (nonneg : 0 ≤ x.toInt) : 2 * x.toNat < 2 ^ w := by
  have bound := x.isLt
  rw [BitVec.toInt_eq_toNat_cond] at nonneg
  generalize 2 ^ w = range at bound nonneg ⊢
  split at nonneg
  · assumption
  · omega

theorem toInt_ofNat_ne_zero (some : n ≠ 0) (small : n < 2 ^ w) : (BitVec.ofNat w n).toInt ≠ 0 := by
  intro zero
  have value := congrArg BitVec.toNat (BitVec.eq_of_toInt_eq (zero.trans BitVec.toInt_zero.symm))
  rw [toNat_ofNat small, BitVec.toNat_ofNat, Nat.zero_mod] at value
  exact some value

/-- A sum that is not less than a summand has not wrapped. -/
theorem le_add_iff {a b : BitVec w} : a ≤ a + b ↔ a.toNat + b.toNat < 2 ^ w := by
  have boundA := a.isLt
  have boundB := b.isLt
  rw [BitVec.le_def, BitVec.toNat_add]
  by_cases fits : a.toNat + b.toNat < 2 ^ w
  · rw [Nat.mod_eq_of_lt fits]
    exact iff_of_true (Nat.le_add_right _ _) fits
  · rw [Nat.mod_eq_sub_mod (Nat.le_of_not_lt fits), Nat.mod_eq_of_lt (by omega)]
    omega

theorem toNat_add_of_le {a b : BitVec w} (le : a ≤ a + b) : (a + b).toNat = a.toNat + b.toNat := by
  rw [BitVec.toNat_add]
  exact Nat.mod_eq_of_lt (le_add_iff.mp le)

/-- Integers with the same word differ by a multiple of the range. -/
theorem dvd_sub_of_ofInt {a b : Int} (same : BitVec.ofInt w a = BitVec.ofInt w b) :
    ((2 ^ w : Nat) : Int) ∣ a - b := by
  have value := congrArg BitVec.toNat same
  have nonzero : ((2 ^ w : Nat) : Int) ≠ 0 := Int.natCast_ne_zero.mpr (Nat.ne_of_gt (Nat.pow_pos Nat.two_pos))
  have left := Int.emod_nonneg a nonzero
  have right := Int.emod_nonneg b nonzero
  rw [BitVec.toNat_ofInt, BitVec.toNat_ofInt] at value
  have rests : a % ((2 ^ w : Nat) : Int) = b % ((2 ^ w : Nat) : Int) := by
    generalize a % ((2 ^ w : Nat) : Int) = rest at left value ⊢
    generalize b % ((2 ^ w : Nat) : Int) = other at right value ⊢
    omega
  exact Int.dvd_of_emod_eq_zero (Int.emod_eq_emod_iff_emod_sub_eq_zero.mp rests)

end MachineWord
