import IomemoryVsl.Ktime
import Mathlib.Algebra.Order.Floor.Div
import Mathlib.Tactic.Ring

namespace IomemoryVsl

section Ticks

variable (clock : KernelClock)

/-- The ticks that cover some microseconds. -/
theorem ticks_eq (n : Nat) : n * clock.hz ⌈/⌉ usecPerSec = n ⌈/⌉ clock.tick := by
  have product : usecPerSec = clock.hz * clock.tick := (Nat.mul_div_cancel' clock.hz_dvd).symm
  have second : 0 < usecPerSec := by decide
  refine eq_of_forall_ge_iff fun c => ?_
  rw [ceilDiv_le_iff_le_mul second, ceilDiv_le_iff_le_mul clock.tick_pos, product, Nat.mul_assoc, Nat.mul_comm n,
    Nat.mul_le_mul_left_iff clock.hz_pos]

theorem le_ticks_mul (n : Nat) : n ≤ (n ⌈/⌉ clock.tick) * clock.tick := by
  rw [Nat.mul_comm]
  exact (ceilDiv_le_iff_le_mul clock.tick_pos).mp (Nat.le_refl _)

theorem ticks_mul_lt (n : Nat) : (n ⌈/⌉ clock.tick) * clock.tick < n + clock.tick := by
  have pos := clock.tick_pos
  have whole := Nat.div_mul_le_self (n + clock.tick - 1) clock.tick
  rw [Nat.ceilDiv_eq_add_pred_div]
  omega

/-- The microseconds of a number of ticks, as long as they are a word. -/
theorem fusionHztousec_of_small {clock : KernelClock} {hertz : BitVec 64} (small : hertz.toNat * clock.tick < 2 ^ 64) :
    (fusionHztousec clock hertz).toNat = hertz.toNat * clock.tick := by
  rw [fusionHztousec, BitVec.toNat_mul, tick_toNat]
  exact Nat.mod_eq_of_lt small

/-- The ticks that cover a timeout take less than a tick more, as long as their microseconds are a word. -/
theorem fusionHztousec_covers {clock : KernelClock} {u hertz : BitVec 64} (covers : hertz.toNat = u.toNat ⌈/⌉ clock.tick)
    (small : u.toNat ⌈/⌉ clock.tick * clock.tick < 2 ^ 64) :
    u.toNat ≤ (fusionHztousec clock hertz).toNat ∧ (fusionHztousec clock hertz).toNat < u.toNat + clock.tick := by
  rw [← covers] at small
  rw [fusionHztousec_of_small small, covers]
  exact ⟨le_ticks_mul clock u.toNat, ticks_mul_lt clock u.toNat⟩

end Ticks

/-- The clock of a kernel for machines of 64 bits. Its `jiffies_to_usecs` multiplies in an
`unsigned int`. -/
def kernelClock64 (hz : Nat) (divides : hz ∣ usecPerSec) : KernelClock where
  hz := hz
  maxJiffyOffset := BitVec.ofNat 64 (2 ^ 62 - 2)
  jiffiesToUsecs j := (BitVec.ofNat 64 (usecPerSec / hz) * j).setWidth 32
  hz_dvd := divides

section Saturation

variable {hz : Nat} {divides : hz ∣ usecPerSec} {u : BitVec 64}

/-- The product wraps, so that the longest timeout is just below `2^32` microseconds. -/
theorem kernelClock64_longest : (kernelClock64 hz divides).longest.toNat =
    2 ^ 32 - 2 * (kernelClock64 hz divides).tick := by
  have pos := (kernelClock64 hz divides).tick_pos
  have small := (kernelClock64 hz divides).tick_le
  rw [usecPerSec] at small
  have value : (kernelClock64 hz divides).longest = ((BitVec.ofNat 64 (kernelClock64 hz divides).tick *
      BitVec.ofNat 64 (2 ^ 62 - 2)).setWidth 32).setWidth 64 := rfl
  rw [value, BitVec.toNat_setWidth, BitVec.toNat_setWidth, BitVec.toNat_mul, tick_toNat,
    MachineWord.toNat_ofNat (by decide)]
  generalize (kernelClock64 hz divides).tick = tick at pos small
  have low : tick * (2 ^ 62 - 2) % 2 ^ 64 % 2 ^ 32 = tick * (2 ^ 62 - 2) % 2 ^ 32 :=
    Nat.mod_mod_of_dvd _ (Nat.pow_dvd_pow 2 (by decide))
  have product : tick * (2 ^ 62 - 2) = 2 ^ 32 - 2 * tick + 2 ^ 32 * (tick * 2 ^ 30 - 1) := by omega
  rw [low, product, Nat.add_mul_mod_self_left, Nat.mod_eq_of_lt, Nat.mod_eq_of_lt]
  · omega
  · omega

/-- A timeout that is slept for as such is rounded up. -/
theorem fusionUsectohz_of_le (short : u.toNat ≤ 2 ^ 32 - 2 * (kernelClock64 hz divides).tick) :
    (fusionUsectohz (kernelClock64 hz divides) u).toNat = u.toNat ⌈/⌉ (kernelClock64 hz divides).tick := by
  have below : ¬ (kernelClock64 hz divides).longest < u := by
    rw [BitVec.not_lt, BitVec.le_def, kernelClock64_longest]
    exact short
  exact fusionUsectohz_toNat (by omega) below

/-- Any other one becomes the longest sleep. -/
theorem fusionUsectohz_of_gt (long : 2 ^ 32 - 2 * (kernelClock64 hz divides).tick < u.toNat) :
    (fusionUsectohz (kernelClock64 hz divides) u).toNat = 2 ^ 62 - 2 := by
  have above : (kernelClock64 hz divides).longest < u := by
    rw [BitVec.lt_def, kernelClock64_longest]
    exact long
  rw [fusionUsectohz, if_pos above]
  rfl

/-- A timeout becomes the ticks that cover it exactly when it is short enough for the threshold, or when the longest
sleep is what covers it. -/
theorem fusionUsectohz_covers_iff (hz : Nat) (divides : hz ∣ usecPerSec) (u : BitVec 64) :
    ((fusionUsectohz (kernelClock64 hz divides) u).toNat = u.toNat * hz ⌈/⌉ usecPerSec ∧
      u.toNat ≤ (fusionHztousec (kernelClock64 hz divides) (fusionUsectohz (kernelClock64 hz divides) u)).toNat ∧
      (fusionHztousec (kernelClock64 hz divides) (fusionUsectohz (kernelClock64 hz divides) u)).toNat <
        u.toNat + usecPerSec / hz) ↔
      u.toNat ≤ 2 ^ 32 - 2 * (usecPerSec / hz) ∨ u.toNat * hz ⌈/⌉ usecPerSec = 2 ^ 62 - 2 := by
  have ticks : u.toNat * hz ⌈/⌉ usecPerSec = u.toNat ⌈/⌉ (kernelClock64 hz divides).tick :=
    ticks_eq (kernelClock64 hz divides) u.toNat
  have tick : usecPerSec / hz = (kernelClock64 hz divides).tick := rfl
  have covers := le_ticks_mul (kernelClock64 hz divides) u.toNat
  have near := ticks_mul_lt (kernelClock64 hz divides) u.toNat
  have coarse := (kernelClock64 hz divides).tick_le
  have range := u.isLt
  rw [usecPerSec] at coarse
  rw [ticks, tick]
  rcases Nat.lt_or_ge (2 ^ 32 - 2 * (kernelClock64 hz divides).tick) u.toNat with long | short
  · have slept := fusionUsectohz_of_gt long
    constructor
    · rintro ⟨ticks, _⟩
      exact Or.inr (ticks.symm.trans slept)
    · rintro (within | longest)
      · omega
      · rw [longest] at covers near
        have same := slept.trans longest.symm
        refine ⟨same, fusionHztousec_covers same ?_⟩
        rw [longest]
        omega
  · have slept := fusionUsectohz_of_le short
    exact iff_of_true ⟨slept, fusionHztousec_covers slept (by omega)⟩ (Or.inl short)

/-- A little more than one tick of 4000 microseconds. -/
theorem fusionUsectohz_covers_4001 : (fusionUsectohz (kernelClock64 250 (by decide)) 4001#64).toNat =
    (4001#64).toNat * 250 ⌈/⌉ usecPerSec :=
  ((fusionUsectohz_covers_iff 250 (by decide) 4001#64).mpr (Or.inl (by decide))).1

/-- Seventy-two minutes become the longest sleep. -/
theorem fusionUsectohz_too_long :
    ¬ ∀ (hz : Nat) (divides : hz ∣ usecPerSec) (u : BitVec 64), u.toNat * hz ⌈/⌉ usecPerSec ≤ 2 ^ 62 - 2 →
      (fusionUsectohz (kernelClock64 hz divides) u).toNat = u.toNat * hz ⌈/⌉ usecPerSec ∧
        u.toNat ≤ (fusionHztousec (kernelClock64 hz divides) (fusionUsectohz (kernelClock64 hz divides) u)).toNat ∧
        (fusionHztousec (kernelClock64 hz divides) (fusionUsectohz (kernelClock64 hz divides) u)).toNat <
          u.toNat + usecPerSec / hz := by
  intro always
  exact absurd (always 250 (by decide) 4320000000#64 (by decide)).1 (by decide)

end Saturation

section Clocks

variable {clock : KernelClock} {j j₁ j₂ : BitVec 64}

/-- What `fusion_HZ` returns. -/
def fusionHZ (clock : KernelClock) : BitVec 64 := BitVec.ofNat 64 clock.hz

/-- The argument is the number of ticks that `fusion_get_lbolt` reads. -/
def fusionGetnanotime (clock : KernelClock) (lbolt : BitVec 64) : BitVec 64 := lbolt * 1000000000#64 / fusionHZ clock

/-- The argument is what `get_jiffies_64` returns. -/
def fusionGetmicrotime (clock : KernelClock) (jiffies : BitVec 64) : BitVec 64 :=
  jiffies * 1000000#64 / BitVec.ofNat 64 clock.hz

theorem fusionHZ_toNat : (fusionHZ clock).toNat = clock.hz := by
  have small : clock.hz ≤ usecPerSec := Nat.le_of_dvd (by decide) clock.hz_dvd
  rw [usecPerSec] at small
  exact MachineWord.toNat_ofNat (by omega)

theorem fusionGetnanotime_toNat : (fusionGetnanotime clock j).toNat = j.toNat * 1000000000 % 2 ^ 64 / clock.hz := by
  rw [fusionGetnanotime, BitVec.toNat_udiv, BitVec.toNat_mul, fusionHZ_toNat, MachineWord.toNat_ofNat (by decide)]

theorem fusionGetmicrotime_toNat (small : j.toNat * 1000000 < 2 ^ 64) :
    (fusionGetmicrotime clock j).toNat = j.toNat * clock.tick := by
  have product : clock.hz * clock.tick = 1000000 := Nat.mul_div_cancel' clock.hz_dvd
  rw [fusionGetmicrotime, ← fusionHZ, BitVec.toNat_udiv, BitVec.toNat_mul, fusionHZ_toNat,
    MachineWord.toNat_ofNat (by decide), Nat.mod_eq_of_lt small, ← product, Nat.mul_left_comm,
    Nat.mul_div_cancel_left _ clock.hz_pos]

theorem nanoseconds_eq (clock : KernelClock) (n : Nat) : n * 1000000000 = 1000 * (n * clock.tick) * clock.hz := by
  have product : clock.hz * clock.tick = 1000000 := Nat.mul_div_cancel' clock.hz_dvd
  calc
    n * 1000000000 = 1000 * n * 1000000 := by ring
    _ = 1000 * n * (clock.hz * clock.tick) := by rw [product]
    _ = 1000 * (n * clock.tick) * clock.hz := by ring

/-- A nanosecond clock that does not wrap is exact. -/
theorem fusionGetnanotime_of_small (small : j.toNat * 1000000000 < 2 ^ 64) :
    (fusionGetnanotime clock j).toNat = 1000 * (j.toNat * clock.tick) := by
  rw [fusionGetnanotime_toNat, Nat.mod_eq_of_lt small, nanoseconds_eq clock, Nat.mul_div_cancel _ clock.hz_pos]

/-- One that wraps is behind. -/
theorem fusionGetnanotime_of_large (large : 2 ^ 64 ≤ j.toNat * 1000000000) :
    (fusionGetnanotime clock j).toNat < 1000 * (j.toNat * clock.tick) := by
  rw [fusionGetnanotime_toNat, Nat.div_lt_iff_lt_mul clock.hz_pos, ← nanoseconds_eq]
  exact (Nat.mod_lt _ (by decide)).trans_le large

/-- The nanosecond clock agrees with the one in microseconds. -/
theorem clocks_agree_at_iff (small : j.toNat * 1000000 < 2 ^ 64) :
    (fusionGetnanotime clock j).toNat = 1000 * (fusionGetmicrotime clock j).toNat ↔
      j.toNat * 1000000000 < 2 ^ 64 := by
  rw [fusionGetmicrotime_toNat small]
  constructor
  · intro same
    by_contra large
    exact Nat.ne_of_lt (fusionGetnanotime_of_large (Nat.not_lt.mp large)) same
  · exact fusionGetnanotime_of_small

/-- The last tick before the product wraps is followed by a much earlier time. -/
theorem fusionGetnanotime_back (last : j.toNat * 1000000000 < 2 ^ 64) (wraps : 2 ^ 64 ≤ (j.toNat + 1) * 1000000000) :
    fusionGetnanotime clock (j + 1#64) < fusionGetnanotime clock j := by
  have next : (j + 1#64).toNat = j.toNat + 1 := by
    rw [BitVec.toNat_add, MachineWord.toNat_ofNat (by decide)]
    exact Nat.mod_eq_of_lt (by omega)
  rw [BitVec.lt_def, fusionGetnanotime_of_small last, fusionGetnanotime_toNat, next,
    Nat.div_lt_iff_lt_mul clock.hz_pos, ← nanoseconds_eq]
  omega

/-- Up to the later of two ticks the clocks agree and do not run backwards, exactly when its nanoseconds are a word
before the division. -/
theorem clocks_agree_iff (clock : KernelClock) (j₁ j₂ : BitVec 64) (le : j₁ ≤ j₂)
    (small : j₂.toNat * 1000000 < 2 ^ 64) :
    ((fusionGetnanotime clock j₁).toNat = 1000 * (fusionGetmicrotime clock j₁).toNat ∧
      (fusionGetnanotime clock j₂).toNat = 1000 * (fusionGetmicrotime clock j₂).toNat ∧
      fusionGetnanotime clock j₁ ≤ fusionGetnanotime clock j₂) ↔ j₂.toNat * 1000000000 < 2 ^ 64 := by
  have earlier (n : Nat) : j₁.toNat * n ≤ j₂.toNat * n := Nat.mul_le_mul_right n le
  rw [clocks_agree_at_iff ((earlier _).trans_lt small), clocks_agree_at_iff small]
  constructor
  · exact fun agree => agree.2.1
  · intro fits
    have before := (earlier _).trans_lt fits
    refine ⟨before, fits, ?_⟩
    rw [BitVec.le_def, fusionGetnanotime_of_small before, fusionGetnanotime_of_small fits]
    exact Nat.mul_le_mul_left _ (earlier _)

/-- One second and two seconds after the tick counter was zero. -/
theorem clocks_agree_seconds : fusionGetnanotime (kernelClock64 1000 (by decide)) 1000#64 ≤
    fusionGetnanotime (kernelClock64 1000 (by decide)) 2000#64 :=
  ((clocks_agree_iff (kernelClock64 1000 (by decide)) 1000#64 2000#64 (by decide) (by decide)).mpr (by decide)).2.2

/-- After 213 days of a thousand ticks a second the nanosecond clock goes back to zero. -/
theorem clocks_disagree :
    ¬ ∀ (clock : KernelClock) (j₁ j₂ : BitVec 64), clock.hz = 100 ∨ clock.hz = 250 ∨ clock.hz = 1000 → j₁ ≤ j₂ →
      j₂.toNat * 1000000 < 2 ^ 64 →
        (fusionGetnanotime clock j₁).toNat = 1000 * (fusionGetmicrotime clock j₁).toNat ∧
          (fusionGetnanotime clock j₂).toNat = 1000 * (fusionGetmicrotime clock j₂).toNat ∧
          fusionGetnanotime clock j₁ ≤ fusionGetnanotime clock j₂ := by
  intro always
  have order := (always (kernelClock64 1000 (by decide)) 18446744073#64 18446744074#64 (.inr (.inr rfl)) (by decide)
    (by decide)).2.2
  exact absurd order (by decide)

end Clocks

end IomemoryVsl
