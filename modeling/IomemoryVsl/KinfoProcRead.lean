import IomemoryVsl.KinfoProc
import IomemoryVsl.MachineWord

namespace IomemoryVsl

open ByteMemory

section Buffer

variable {len count ppos : BitVec 64} {uncopied : Nat}

/-- The length that is left to read, cut to the count. -/
def readLen (len count ppos : BitVec 64) : BitVec 64 := if count < len - ppos then count else len - ppos

theorem fioProcReadBuffer_eq {n : Nat} (cut : (readLen len count ppos).toNat % 2 ^ 32 = n) :
    fioProcReadBuffer len count ppos uncopied =
      if BitVec.slt 0#64 (readLen len count ppos) then
        if min uncopied n = 0 then
          ⟨readLen len count ppos, ppos + readLen len count ppos, List.range' ppos.toNat n⟩
        else
          ⟨(BitVec.ofNat 32 (min uncopied n)).signExtend 64, ppos, List.range' ppos.toNat (n - min uncopied n)⟩
      else
        ⟨readLen len count ppos, ppos, []⟩ := by
  have width : ((readLen len count ppos).setWidth 32).toNat = n := by rw [BitVec.toNat_setWidth, cut]
  rw [fioProcReadBuffer, ← readLen]
  simp only [kfioCopyToUser, width]
  split
  · by_cases none : min uncopied n = 0
    · rw [none, if_pos rfl, if_pos rfl, Nat.sub_zero]
    · have kept : BitVec.ofNat 32 (min uncopied n) ≠ 0#32 := by
        intro zero
        have value := congrArg BitVec.toNat zero
        rw [BitVec.toNat_ofNat, BitVec.toNat_ofNat, Nat.mod_eq_of_lt (by omega)] at value
        omega
      rw [if_neg kept, if_neg none]
  · rfl

/-- A read that copies everything returns the length that it cut. -/
theorem fioProcReadBuffer_ret : (fioProcReadBuffer len count ppos 0).ret = readLen len count ppos := by
  rw [fioProcReadBuffer_eq rfl, if_pos (Nat.zero_min _)]
  split
  · rfl
  · rfl

theorem readLen_of_le (count : BitVec 64) (inside : ppos.toNat ≤ len.toNat) :
    (readLen len count ppos).toNat = min (len.toNat - ppos.toNat) count.toNat := by
  have left : (len - ppos).toNat = len.toNat - ppos.toNat := BitVec.toNat_sub_of_le inside
  rw [readLen]
  split
  · rename_i cut
    have : count.toNat < (len - ppos).toNat := cut
    omega
  · rename_i whole
    have : ¬ count.toNat < (len - ppos).toNat := whole
    omega

/-- Past the end the difference wraps, and only a count of 0 makes nothing of it. -/
theorem readLen_of_gt (past : len.toNat < ppos.toNat) : readLen len count ppos = 0#64 ↔ count = 0#64 := by
  have left : (len - ppos).toNat = len.toNat + 2 ^ 64 - ppos.toNat := by
    have := ppos.isLt
    rw [BitVec.toNat_sub]
    omega
  have nonzero : len - ppos ≠ 0#64 := by
    intro zero
    have := ppos.isLt
    rw [zero, BitVec.toNat_ofNat] at left
    omega
  rw [readLen]
  split
  · rfl
  · rename_i above
    refine iff_of_false nonzero fun zero => above ?_
    have := ppos.isLt
    rw [zero, BitVec.lt_def, left, BitVec.toNat_ofNat]
    omega

/-- What a read promises: it copies bytes of the buffer from the position on, no more than the count,
and nothing at the end or past it; and one that copies everything returns how many bytes
it copied and goes on by them. -/
structure ReadsInside (len count ppos : BitVec 64) (uncopied : Nat) (r : BufferRead) : Prop where
  inside : ∀ i ∈ r.copied, ppos.toNat ≤ i ∧ i < len.toNat
  length : r.copied.length ≤ count.toNat
  atEnd : len.toNat ≤ ppos.toNat → r.ret = 0#64
  ret : uncopied = 0 → r.ret.toInt = r.copied.length
  ppos : uncopied = 0 → r.ppos.toInt = ppos.toInt + r.copied.length

/-- A read within the buffer of less than 4 GiB, or one of nothing. -/
def ReadFits (len count ppos : BitVec 64) : Prop :=
  count = 0#64 ∨ ppos.toNat ≤ len.toNat ∧ min (len.toNat - ppos.toNat) count.toNat < 2 ^ 32

instance : Decidable (ReadFits len count ppos) :=
  inferInstanceAs (Decidable (count = 0#64 ∨ _ ∧ _))

theorem ReadFits.readLen_toNat (fits : ReadFits len count ppos) :
    (readLen len count ppos).toNat = min (len.toNat - ppos.toNat) count.toNat ∧
      min (len.toNat - ppos.toNat) count.toNat < 2 ^ 32 := by
  rcases fits with rfl | ⟨inside, small⟩
  · rw [BitVec.toNat_ofNat, Nat.zero_mod, Nat.min_zero]
    refine ⟨?_, by decide⟩
    rcases Nat.lt_or_ge len.toNat ppos.toNat with past | inside
    · rw [(readLen_of_gt past).mpr rfl]
      rfl
    · rw [readLen_of_le _ inside, BitVec.toNat_ofNat, Nat.zero_mod, Nat.min_zero]
  · exact ⟨readLen_of_le _ inside, small⟩

/-- What a read that fits does. -/
theorem ReadFits.read_eq (uncopied : Nat) {n : Nat} (fits : ReadFits len count ppos)
    (length : min (len.toNat - ppos.toNat) count.toNat = n) :
    fioProcReadBuffer len count ppos uncopied =
      if min uncopied n = 0 then
        ⟨BitVec.ofNat 64 n, ppos + BitVec.ofNat 64 n, List.range' ppos.toNat n⟩
      else
        ⟨(BitVec.ofNat 32 (min uncopied n)).signExtend 64, ppos, List.range' ppos.toNat (n - min uncopied n)⟩ := by
  obtain ⟨toNat, small⟩ := fits.readLen_toNat
  rw [length] at toNat small
  have eq : readLen len count ppos = BitVec.ofNat 64 n := by
    rw [← toNat, BitVec.ofNat_toNat, BitVec.setWidth_eq]
  rw [fioProcReadBuffer_eq (n := n) (by rw [toNat, Nat.mod_eq_of_lt small]), eq]
  rcases Nat.eq_zero_or_pos n with nothing | some
  · rw [nothing, if_neg (by decide), Nat.min_zero, if_pos rfl, List.range'_zero, BitVec.add_zero]
  · have positive : BitVec.slt 0#64 (BitVec.ofNat 64 n) = true := by
      rw [← eq, BitVec.slt_iff_toInt_lt, BitVec.toInt_eq_toNat_of_lt (x := readLen len count ppos) (by omega), toNat,
        BitVec.toInt_zero]
      exact Int.natCast_pos.mpr some
    rw [if_pos positive]

theorem ReadFits.readsInside (fits : ReadFits len count ppos) (nonneg : 0 ≤ len.toInt) (start : 0 ≤ ppos.toInt) :
    ReadsInside len count ppos uncopied (fioProcReadBuffer len count ppos uncopied) := by
  have lenSmall := MachineWord.two_mul_toNat_lt nonneg
  have posSmall := MachineWord.two_mul_toNat_lt start
  obtain ⟨_, small⟩ := fits.readLen_toNat
  obtain ⟨n, length⟩ : ∃ n, min (len.toNat - ppos.toNat) count.toNat = n := ⟨_, rfl⟩
  have toNat : (BitVec.ofNat 64 n).toNat = n := MachineWord.toNat_ofNat (by omega)
  rw [fits.read_eq _ length]
  split
  · refine ⟨fun i member => ?_, ?_, fun atEnd => ?_, fun _ => ?_, fun _ => ?_⟩
    · have := List.mem_range'_1.mp member
      omega
    · rw [List.length_range']
      omega
    · have none : n = 0 := by omega
      rw [none]
    · dsimp only
      rw [List.length_range', BitVec.toInt_eq_toNat_of_lt (by omega), toNat]
    · have next : (ppos + BitVec.ofNat 64 n).toNat = ppos.toNat + n := by
        rw [BitVec.toNat_add, toNat]
        exact Nat.mod_eq_of_lt (by omega)
      dsimp only
      rw [List.length_range', BitVec.toInt_eq_toNat_of_lt posSmall, BitVec.toInt_eq_toNat_of_lt (by omega), next]
      exact Int.natCast_add ..
  · rename_i some
    refine ⟨fun i member => ?_, ?_, fun atEnd => ?_, fun whole => ?_, fun whole => ?_⟩
    · have := List.mem_range'_1.mp member
      omega
    · rw [List.length_range']
      omega
    · omega
    · omega
    · omega

/-- A read past the end of a count that is not 0, or one of 4 GiB or more, does not keep its
promise even if it copies everything. -/
theorem ReadsInside.readFits (reads : ReadsInside len count ppos 0 (fioProcReadBuffer len count ppos 0))
    (nonneg : 0 ≤ len.toInt) : ReadFits len count ppos := by
  rcases Nat.lt_or_ge len.toNat ppos.toNat with past | inside
  · have zero := reads.atEnd (Nat.le_of_lt past)
    rw [fioProcReadBuffer_ret] at zero
    exact Or.inl ((readLen_of_gt past).mp zero)
  · refine Or.inr ⟨inside, ?_⟩
    have lenSmall := MachineWord.two_mul_toNat_lt nonneg
    have toNat := readLen_of_le count inside
    by_contra large
    have positive : BitVec.slt 0#64 (readLen len count ppos) = true := by
      rw [BitVec.slt_iff_toInt_lt, BitVec.toInt_eq_toNat_of_lt (x := readLen len count ppos) (by omega), toNat, BitVec.toInt_zero]
      exact Int.natCast_pos.mpr (by omega)
    have ret := reads.ret rfl
    rw [fioProcReadBuffer_ret, fioProcReadBuffer_eq rfl, if_pos positive, if_pos (Nat.zero_min _),
      BitVec.toInt_eq_toNat_of_lt (by omega), List.length_range'] at ret
    omega

/-- Reads one after the other that copy everything: the indices of the bytes that they copy, and the
position after them. -/
def readAll (len : BitVec 64) : List (BitVec 64) → BitVec 64 → List Nat × BitVec 64
  | [], ppos => ([], ppos)
  | count :: counts, ppos =>
    let r := fioProcReadBuffer len count ppos 0
    (r.copied ++ (readAll len counts r.ppos).1, (readAll len counts r.ppos).2)

/-- Each of the reads fits. -/
def AllFit (len : BitVec 64) : List (BitVec 64) → BitVec 64 → Prop
  | [], _ => True
  | count :: counts, ppos => ReadFits len count ppos ∧ AllFit len counts (fioProcReadBuffer len count ppos 0).ppos

/-- Reads that fit go on through the buffer without a gap. -/
theorem readAll_range {counts : List (BitVec 64)} (nonneg : 0 ≤ len.toInt) (inside : ppos.toNat ≤ len.toNat)
    (fits : AllFit len counts ppos) :
    ppos.toNat ≤ (readAll len counts ppos).2.toNat ∧ (readAll len counts ppos).2.toNat ≤ len.toNat ∧
      (readAll len counts ppos).1 = List.range' ppos.toNat ((readAll len counts ppos).2.toNat - ppos.toNat) := by
  induction counts generalizing ppos with
  | nil =>
    refine ⟨Nat.le_refl _, inside, ?_⟩
    rw [readAll, Nat.sub_self, List.range'_zero]
  | cons count counts ih =>
    obtain ⟨now, later⟩ := fits
    have lenSmall := MachineWord.two_mul_toNat_lt nonneg
    have read := now.read_eq 0 rfl
    rw [if_pos (Nat.zero_min _)] at read
    have next : (fioProcReadBuffer len count ppos 0).ppos.toNat =
        ppos.toNat + min (len.toNat - ppos.toNat) count.toNat := by
      rw [read]
      dsimp only
      rw [BitVec.toNat_add, BitVec.toNat_ofNat]
      omega
    have copied : (fioProcReadBuffer len count ppos 0).copied =
        List.range' ppos.toNat (min (len.toNat - ppos.toNat) count.toNat) := by rw [read]
    obtain ⟨low, high, rest⟩ := ih (by omega) later
    rw [readAll]
    dsimp only
    refine ⟨by omega, high, ?_⟩
    rw [rest, copied, next, List.range'_append_1]
    refine congrArg (List.range' ppos.toNat) ?_
    omega

/-- The bytes that some reads from the beginning copy are those that the buffer begins with. -/
theorem readAll_takes {counts : List (BitVec 64)} (nonneg : 0 ≤ len.toInt) (fits : AllFit len counts 0#64)
    (mem : Nat → UInt8) : (readAll len counts 0#64).1.map mem <+: (List.range len.toNat).map mem := by
  obtain ⟨_, high, rest⟩ := readAll_range nonneg (Nat.zero_le _) fits
  have first : List.range (readAll len counts 0#64).2.toNat <+: List.range len.toNat := by
    rw [← Nat.min_eq_left high, ← List.take_range]
    exact List.take_prefix _ _
  rw [rest, BitVec.toNat_ofNat, Nat.zero_mod, Nat.sub_zero, ← List.range_eq_range']
  exact first.map mem

/-- A read keeps its promise exactly when it fits, and reads from the beginning that fit copy a
prefix of the buffer. What is promised of the result and of the position is for a copy that
succeeds. -/
theorem fioProcReadBuffer_spec (len : BitVec 64) (nonneg : 0 ≤ len.toInt) :
    (∀ count ppos, 0 ≤ ppos.toInt →
      ((∀ uncopied, ReadsInside len count ppos uncopied (fioProcReadBuffer len count ppos uncopied)) ↔
        ReadFits len count ppos)) ∧
    ∀ counts, AllFit len counts 0#64 →
      ∀ mem : Nat → UInt8, (readAll len counts 0#64).1.map mem <+: (List.range len.toNat).map mem := by
  refine ⟨fun count ppos start => ⟨fun reads => (reads 0).readFits nonneg, ?_⟩, ?_⟩
  · exact fun fits uncopied => fits.readsInside nonneg start
  · exact fun counts fits mem => readAll_takes nonneg fits mem

/-- Two bytes of a buffer of three are read, and then the last one. -/
theorem fioProcReadBuffer_spec_three : ReadsInside 3#64 2#64 0#64 0 (fioProcReadBuffer 3#64 2#64 0#64 0) ∧
    ∀ mem : Nat → UInt8, (readAll 3#64 [2#64, 2#64] 0#64).1.map mem <+: (List.range 3).map mem :=
  ⟨((fioProcReadBuffer_spec 3#64 (by decide)).1 2#64 0#64 (by decide)).mpr (by decide) 0,
    (fioProcReadBuffer_spec 3#64 (by decide)).2 [2#64, 2#64] ⟨by decide, by decide, trivial⟩⟩

/-- A read of four bytes behind a value that became shorter copies four bytes behind the value. -/
theorem fioProcReadBuffer_past :
    ¬ ∀ len : BitVec 64, 0 ≤ len.toInt →
      (∀ count ppos, 0 ≤ ppos.toInt →
        ∀ uncopied, ReadsInside len count ppos uncopied (fioProcReadBuffer len count ppos uncopied)) ∧
      ∀ counts, ∀ mem : Nat → UInt8, (readAll len counts 0#64).1.map mem <+: (List.range len.toNat).map mem := by
  intro always
  have reads := (always 2#64 (by decide)).1 4#64 5#64 (by decide) 0
  have inside := reads.inside 5 (by decide)
  exact absurd inside.2 (by decide)

end Buffer

end IomemoryVsl
