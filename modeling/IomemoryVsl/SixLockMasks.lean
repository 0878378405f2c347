import IomemoryVsl.SixLock
import Mathlib.Tactic.IntervalCases

namespace IomemoryVsl

/-- The bit of a mode in a mask. -/
def hasMode (mask : BitVec 8) (mode : LockMode) : Bool := mask.getLsbD mode.toNat

theorem hasMode_insert (mask : BitVec 8) (mode other : LockMode) :
    hasMode (mask ||| lockModeMasks mode) other = (hasMode mask other || decide (other = mode)) := by
  cases mode <;> cases other <;> simp [hasMode, lockModeMasks, LockMode.toNat]

theorem hasMode_remove (mask : BitVec 8) (mode other : LockMode) :
    hasMode (mask &&& ~~~lockModeMasks mode) other = (hasMode mask other && decide (other ≠ mode)) := by
  cases mode <;> cases other <;> simp [hasMode, lockModeMasks, LockMode.toNat]

/-- The seven modes leave the sign bit of the `int8_t` mask alone. -/
theorem top_insert (mask : BitVec 8) (mode : LockMode) :
    (mask ||| lockModeMasks mode).getLsbD 7 = mask.getLsbD 7 := by
  cases mode <;> simp [lockModeMasks, LockMode.toNat]

theorem top_remove (mask : BitVec 8) (mode : LockMode) :
    (mask &&& ~~~lockModeMasks mode).getLsbD 7 = mask.getLsbD 7 := by
  cases mode <;> simp [lockModeMasks, LockMode.toNat]

/-- A mask without the sign bit is determined by the modes in it. -/
theorem mask_eq_of_modes {a b : BitVec 8} (topA : a.getLsbD 7 = false) (topB : b.getLsbD 7 = false)
    (same : ∀ mode, hasMode a mode = hasMode b mode) : a = b := by
  apply BitVec.eq_of_getLsbD_eq
  intro i bound
  interval_cases i
  · exact same .null
  · exact same .is
  · exact same .ix
  · exact same .s
  · exact same .six
  · exact same .u
  · exact same .x
  · exact topA.trans topB.symm

theorem mask_eq_zero_iff {mask : BitVec 8} (top : mask.getLsbD 7 = false) :
    mask = 0#8 ↔ ∀ mode, hasMode mask mode = false := by
  constructor
  · rintro rfl mode
    simp [hasMode]
  · intro empty
    exact mask_eq_of_modes top (by simp) (fun mode => (empty mode).trans (by simp [hasMode]))

/-- The test against the incompatible modes passes exactly when every mode in
the mask is compatible. -/
theorem incompat_and_eq_zero_iff {mask : BitVec 8} (top : mask.getLsbD 7 = false) (newMode : LockMode) :
    incompatMasks newMode &&& mask = 0#8 ↔
      ∀ mode, hasMode mask mode = true → hasMode (compatMask newMode) mode = true := by
  have topAnd : (incompatMasks newMode &&& mask).getLsbD 7 = false := by
    simp only [BitVec.getLsbD_and, top, Bool.and_false]
  have bit (mode : LockMode) : hasMode (incompatMasks newMode &&& mask) mode =
      (!hasMode (compatMask newMode) mode && hasMode mask mode) := by
    have bound : mode.toNat < 8 := by cases mode <;> decide
    simp [hasMode, incompatMasks, bound]
  rw [mask_eq_zero_iff topAnd]
  refine forall_congr' fun mode => ?_
  rw [bit]
  cases hasMode mask mode <;> cases hasMode (compatMask newMode) mode <;> simp

theorem compat_null (mode : LockMode) : hasMode (compatMask mode) .null = true := by
  cases mode <;> decide

/-- Nothing but a NULL hold stands beside an X hold, whichever came first. -/
theorem compat_x {mode : LockMode} :
    (hasMode (compatMask .x) mode = true → mode = .null) ∧
      (hasMode (compatMask mode) .x = true → mode = .null) := by
  cases mode <;> decide

end IomemoryVsl
