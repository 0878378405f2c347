import IomemoryVsl.SerialOrder
import IomemoryVsl.SixLock

namespace IomemoryVsl

open SerialOrder

/-- The half of the range that the code compares distances with. -/
theorem lt_half_iff (d : BitVec 64) : d < 1#64 <<< 63 ↔ 2 * d.toNat < 2 ^ 64 := by
  have limit : (1#64 <<< 63).toNat = 2 ^ 63 := by decide
  rw [BitVec.lt_def, limit]
  omega

theorem before_iff_lt_half {s1 s2 : BitVec 64} (different : s1 ≠ s2) :
    Before s1 s2 ↔ s2 - s1 < 1#64 <<< 63 := by
  have whole := toNat_sub_add_sub different
  have back : (s1 - s2).toNat < 2 ^ 64 := (s1 - s2).isLt
  rw [before_iff, lt_half_iff]
  omega

/-- While the first serial is the smaller number, the distance is tested the right way. -/
theorem serial64Compare_of_le {s1 s2 : BitVec 64} (le : s1 ≤ s2) :
    serial64Compare s1 s2 = sign s1 s2 := by
  unfold serial64Compare sign
  by_cases same : s1 = s2
  · rw [if_pos same, if_pos same]
  · have less : s1 < s2 := BitVec.lt_of_le_ne le same
    simp only [if_neg same, if_pos less, before_iff_lt_half same]

/-- With the larger number first the code tests the same distance `s2 - s1`, and
returns the opposite results. -/
theorem serial64Compare_of_lt {s1 s2 : BitVec 64} (lt : s2 < s1) :
    serial64Compare s1 s2 = -sign s1 s2 := by
  have different : s1 ≠ s2 := fun same => BitVec.lt_irrefl s1 (same ▸ lt)
  have notLess : ¬ s1 < s2 := BitVec.lt_asymm lt
  unfold serial64Compare sign
  simp only [if_neg different, if_neg notLess, before_iff_lt_half different]
  split <;> rfl

theorem serial64Compare_compares_iff (s1 s2 : BitVec 64) :
    Compares s1 s2 (serial64Compare s1 s2) ↔ s1 ≤ s2 := by
  rw [compares_iff]
  constructor
  · intro orders
    refine BitVec.not_lt.mp fun lt => ?_
    have different : s1 ≠ s2 := fun same => BitVec.lt_irrefl s1 (same ▸ lt)
    have nonzero := sign_ne_zero different
    rw [serial64Compare_of_lt lt] at orders
    omega
  · exact serial64Compare_of_le

theorem serial64Compare_swap_iff {s1 s2 : BitVec 64} (near : ¬ Antipodal s1 s2) :
    serial64Compare s1 s2 = -serial64Compare s2 s1 ↔ s1 = s2 := by
  constructor
  · intro negated
    by_contra different
    have nonzero := sign_ne_zero different
    have swap := sign_swap near
    by_cases le : s1 ≤ s2
    · rw [serial64Compare_of_le le, serial64Compare_of_lt (BitVec.lt_of_le_ne le different)] at negated
      omega
    · have greater := BitVec.not_le.mp le
      rw [serial64Compare_of_lt greater, serial64Compare_of_le (BitVec.le_of_lt greater)] at negated
      omega
  · rintro rfl
    rw [serial64Compare_of_le (BitVec.le_refl s1), sign_self, Int.neg_zero]

/-- The result orders the serials while they are in the order of their numbers, and
it changes its sign with the arguments for equal serials only. -/
theorem serial64Compare_orders_iff (s1 s2 : BitVec 64) (near : ¬ Antipodal s1 s2) :
    (Compares s1 s2 (serial64Compare s1 s2) ↔ s1 ≤ s2) ∧
      (serial64Compare s1 s2 = -serial64Compare s2 s1 ↔ s1 = s2) :=
  ⟨serial64Compare_compares_iff s1 s2, serial64Compare_swap_iff near⟩

theorem serial64Compare_orders_wrapped :
    ¬ Antipodal 1#64 (BitVec.allOnes 64) ∧ Compares 1#64 (BitVec.allOnes 64) 1 ∧
      serial64Compare 1#64 (BitVec.allOnes 64) ≠ -serial64Compare (BitVec.allOnes 64) 1#64 := by
  have near : ¬ Antipodal 1#64 (BitVec.allOnes 64) := by unfold Antipodal; decide
  have orders := serial64Compare_orders_iff 1#64 (BitVec.allOnes 64) near
  exact ⟨near, orders.1.mpr (by decide), fun swap => absurd (orders.2.mp swap) (by decide)⟩

/-- Serial 1 is the earlier one, and both ways round the first argument is said to be. -/
theorem serial64Compare_two_one :
    ¬ Antipodal 2#64 1#64 ∧ serial64Compare 1#64 2#64 = -1 ∧ serial64Compare 2#64 1#64 = -1 ∧
      ¬ Before 2#64 1#64 ∧ ¬ Compares 2#64 1#64 (serial64Compare 2#64 1#64) ∧
      serial64Compare 2#64 1#64 ≠ -serial64Compare 1#64 2#64 := by
  refine ⟨by unfold Antipodal; decide, by decide, by decide, by decide, ?_, by decide⟩
  rw [serial64Compare_compares_iff]
  decide

end IomemoryVsl
