import IomemoryVsl.MachineWord
import Mathlib.Algebra.Order.Ring.Nat
import Mathlib.Data.Nat.Init
import Mathlib.Tactic.NormNum

namespace IomemoryVsl

def usecPerSec : Nat := 1000000

/-- What the kernel gives the driver of its clock: the ticks of a second, the longest
sleep in ticks, and the function that makes microseconds of ticks. -/
structure KernelClock where
  hz : Nat
  maxJiffyOffset : BitVec 64
  jiffiesToUsecs : BitVec 64 → BitVec 32
  hz_dvd : hz ∣ usecPerSec

namespace KernelClock

variable (clock : KernelClock)

/-- The microseconds of a tick. -/
def tick : Nat := usecPerSec / clock.hz

/-- The microseconds up to which a timeout is slept for as such. -/
def longest : BitVec 64 := (clock.jiffiesToUsecs clock.maxJiffyOffset).setWidth 64

theorem hz_pos : 0 < clock.hz := Nat.pos_of_dvd_of_pos clock.hz_dvd (by decide)

theorem tick_pos : 0 < clock.tick := Nat.div_pos (Nat.le_of_dvd (by decide) clock.hz_dvd) clock.hz_pos

theorem tick_le : clock.tick ≤ usecPerSec := Nat.div_le_self _ _

end KernelClock

/-- The branch for a `HZ` that divides `USEC_PER_SEC`. -/
def fusionUsectohz (clock : KernelClock) (u : BitVec 64) : BitVec 64 :=
  if clock.longest < u then
    clock.maxJiffyOffset
  else
    (u + BitVec.ofNat 64 clock.tick - 1#64) / BitVec.ofNat 64 clock.tick

def fusionHztousec (clock : KernelClock) (hertz : BitVec 64) : BitVec 64 := hertz * BitVec.ofNat 64 clock.tick

/-- `left` is what `schedule_timeout` returns after it slept, of which `ret` has 32 bits. -/
def fusionCondvarTimedwaitNoloadElapsed (clock : KernelClock) (timeoutUs left : BitVec 64) : BitVec 64 :=
  let ret : BitVec 32 := left.setWidth 32
  timeoutUs - fusionHztousec clock (ret.setWidth 64)

section Elapsed

variable {clock : KernelClock} {u timeoutUs left : BitVec 64}

theorem tick_toNat : (BitVec.ofNat 64 clock.tick).toNat = clock.tick := by
  have small := clock.tick_le
  rw [usecPerSec] at small
  exact MachineWord.toNat_ofNat (by omega)

/-- A timeout of some microseconds is slept for in whole ticks, rounded up. -/
theorem fusionUsectohz_toNat (small : u.toNat ≤ 2 ^ 32) (short : ¬ clock.longest < u) :
    (fusionUsectohz clock u).toNat = (u.toNat + clock.tick - 1) / clock.tick := by
  have tickPos := clock.tick_pos
  have tickLe := clock.tick_le
  rw [usecPerSec] at tickLe
  have sum : (u + BitVec.ofNat 64 clock.tick - 1#64).toNat = u.toNat + clock.tick - 1 := by
    have back : (u + BitVec.ofNat 64 clock.tick).toNat = u.toNat + clock.tick := by
      rw [BitVec.toNat_add, tick_toNat]
      exact Nat.mod_eq_of_lt (by omega)
    rw [BitVec.toNat_sub, back, BitVec.toNat_ofNat]
    omega
  rw [fusionUsectohz, if_neg short, BitVec.toNat_udiv, sum, tick_toNat]

/-- The ticks that were left, of which 32 bits are kept, fit into 64 bits as microseconds. -/
theorem fusionHztousec_toNat : (fusionHztousec clock ((left.setWidth 32).setWidth 64)).toNat =
    left.toNat % 2 ^ 32 * clock.tick := by
  have tickLe := clock.tick_le
  rw [usecPerSec] at tickLe
  have kept : ((left.setWidth 32).setWidth 64).toNat = left.toNat % 2 ^ 32 := by
    rw [BitVec.toNat_setWidth, BitVec.toNat_setWidth]
    omega
  have bound : left.toNat % 2 ^ 32 * clock.tick ≤ 2 ^ 32 * 1000000 := by
    refine Nat.mul_le_mul ?_ tickLe
    omega
  rw [fusionHztousec, BitVec.toNat_mul, kept, tick_toNat]
  exact Nat.mod_eq_of_lt (by omega)

/-- The difference does not wrap when the time that was left is within the timeout. -/
theorem elapsed_le_iff (small : timeoutUs.toNat ≤ 2 ^ 32) :
    (fusionCondvarTimedwaitNoloadElapsed clock timeoutUs left).toNat ≤ timeoutUs.toNat ↔
      left.toNat % 2 ^ 32 * clock.tick ≤ timeoutUs.toNat := by
  have tickLe := clock.tick_le
  rw [usecPerSec] at tickLe
  have bound : left.toNat % 2 ^ 32 * clock.tick ≤ 2 ^ 32 * 1000000 := by
    refine Nat.mul_le_mul ?_ tickLe
    omega
  rw [fusionCondvarTimedwaitNoloadElapsed, BitVec.toNat_sub, fusionHztousec_toNat]
  omega

end Elapsed

/-- The ticks that are left are no more than fit into the timeout. That may fail for a timeout
that is rounded up to ticks none of which has passed, and for one that is longer than
the kernel sleeps for as such. -/
def LeftWithin (clock : KernelClock) (timeoutUs left : BitVec 64) : Prop :=
  if clock.longest < timeoutUs then
    left.toNat % 2 ^ 32 ≤ timeoutUs.toNat / clock.tick
  else
    clock.tick ∣ timeoutUs.toNat ∨ left.toNat ≠ timeoutUs.toNat / clock.tick + 1

instance (clock : KernelClock) (timeoutUs left : BitVec 64) : Decidable (LeftWithin clock timeoutUs left) := by
  unfold LeftWithin
  infer_instance

/-- Rounding up gives one tick more than rounding down, unless nothing is left over. -/
theorem roundUp_eq {u t : Nat} (pos : 0 < t) : (u + t - 1) / t = if t ∣ u then u / t else u / t + 1 := by
  have parts := Nat.div_add_mod u t
  have rest := Nat.mod_lt u pos
  split
  · rename_i divides
    obtain ⟨c, rfl⟩ := divides
    rw [Nat.mul_div_cancel_left c pos, Nat.add_sub_assoc pos, Nat.mul_add_div pos, Nat.div_eq_of_lt (by omega)]
    rfl
  · rename_i inside
    have more : 0 < u % t := Nat.pos_of_ne_zero fun none => inside (Nat.dvd_of_mod_eq_zero none)
    have split : u + t - 1 = t * (u / t + 1) + (u % t - 1) := by
      rw [Nat.mul_add, Nat.mul_one]
      omega
    have nothing : (u % t - 1) / t = 0 := Nat.div_eq_of_lt (by omega)
    rw [split, Nat.mul_add_div pos, nothing, Nat.add_zero]

/-- The time that a wait reports is within its timeout exactly when the ticks that are
left are. -/
theorem elapsed_le_timeout_iff (clock : KernelClock) (timeoutUs left : BitVec 64) (nonneg : 0 ≤ timeoutUs.toInt)
    (small : timeoutUs.toInt ≤ 2 ^ 32) (bound : left ≤ fusionUsectohz clock timeoutUs) :
    (fusionCondvarTimedwaitNoloadElapsed clock timeoutUs left).toNat ≤ timeoutUs.toNat ↔
      LeftWithin clock timeoutUs left := by
  have range : timeoutUs.toNat ≤ 2 ^ 32 := by
    rw [BitVec.toInt_eq_toNat_of_lt (MachineWord.two_mul_toNat_lt nonneg)] at small
    omega
  have tickPos := clock.tick_pos
  rw [elapsed_le_iff range, ← Nat.le_div_iff_mul_le tickPos, LeftWithin]
  split
  · rfl
  · rename_i short
    have ticks : left.toNat ≤ (fusionUsectohz clock timeoutUs).toNat := bound
    rw [fusionUsectohz_toNat range short, roundUp_eq tickPos] at ticks
    have whole := Nat.div_le_self timeoutUs.toNat clock.tick
    split at ticks
    · rename_i divides
      refine iff_of_true ?_ (Or.inl divides)
      exact (Nat.mod_le _ _).trans ticks
    · rename_i inside
      have coarse : 2 ≤ clock.tick := by
        by_contra fine
        have one : clock.tick = 1 := by omega
        exact inside (one ▸ Nat.one_dvd _)
      have half : timeoutUs.toNat / clock.tick ≤ 2 ^ 31 :=
        (Nat.div_le_div_left coarse (by decide)).trans (by omega)
      rw [Nat.mod_eq_of_lt (by omega)]
      constructor
      · intro within
        exact Or.inr (by omega)
      · rintro (divides | other)
        · exact absurd divides inside
        · omega

/-- A clock of 250 ticks a second on a machine of 64 bits. -/
def clock250 : KernelClock where
  hz := 250
  maxJiffyOffset := BitVec.ofNat 64 (2 ^ 62 - 2)
  jiffiesToUsecs j := (4000#64 * j).setWidth 32
  hz_dvd := by decide

/-- A wait for three ticks that is woken up after the first one. -/
theorem elapsed_le_timeout_woken :
    (fusionCondvarTimedwaitNoloadElapsed clock250 12000#64 2#64).toNat ≤ (12000#64).toNat :=
  (elapsed_le_timeout_iff clock250 12000#64 2#64 (by decide) (by decide) (by decide)).mpr (by decide)

/-- A wait for one microsecond that is woken up at once. -/
theorem elapsed_over_timeout :
    ¬ ∀ (clock : KernelClock) (timeoutUs left : BitVec 64), 0 ≤ timeoutUs.toInt → timeoutUs.toInt ≤ 2 ^ 32 →
      left ≤ fusionUsectohz clock timeoutUs →
        (fusionCondvarTimedwaitNoloadElapsed clock timeoutUs left).toNat ≤ timeoutUs.toNat := by
  intro always
  exact absurd (always clock250 1#64 1#64 (by decide) (by decide) (by decide)) (by decide)

end IomemoryVsl
