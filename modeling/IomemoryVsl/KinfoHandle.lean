import IomemoryVsl.KinfoListing
import IomemoryVsl.KinfoProc
import IomemoryVsl.MachineWord

namespace IomemoryVsl

open ByteMemory

/-- A `struct kfio_info_data` with its sizes as words. -/
structure KfioInfoData where
  buffer : Nat
  maxSize : BitVec 64
  curSize : BitVec 64
  totSize : BitVec 64
  deriving DecidableEq, Repr

namespace KfioInfoData

def kfioInfoResetDataHandle (data : Nat) (size : BitVec 64) : KfioInfoData := ⟨data, size, 0#64, 0#64⟩

/-- `text` is what the format comes to, or nothing if `kfio_vsnprintf` fails. `avail` and `len` are
compared as signed numbers. -/
def kfioInfoPrintf (mem : Nat → UInt8) (dbh : KfioInfoData) : Option (List UInt8) → (Nat → UInt8) × KfioInfoData × BitVec 64
  | none => (mem, dbh, 0#64)
  | some text =>
    let avail := dbh.maxSize - dbh.curSize
    let (mem, len) := kfioVsnprintf mem (dbh.buffer + dbh.curSize.toNat) avail.toNat text
    let len := BitVec.ofNat 64 len
    let curSize := if BitVec.slt avail len then dbh.maxSize else dbh.curSize + len
    (mem, { dbh with curSize := curSize, totSize := dbh.totSize + len }, len)

/-- `data` are the bytes that are written, `size` of them. -/
def kfioInfoWrite (mem : Nat → UInt8) (dbh : KfioInfoData) (data : List UInt8) : (Nat → UInt8) × KfioInfoData × BitVec 64 :=
  let size := BitVec.ofNat 64 data.length
  let avail := dbh.maxSize - dbh.curSize
  let avail := if size < avail then size else avail
  (memcpy mem (dbh.buffer + dbh.curSize.toNat) (data.take avail.toNat),
    { dbh with totSize := dbh.totSize + size, curSize := dbh.curSize + avail }, avail)

def kfioInfoDataOverflow (dbh : KfioInfoData) : Nat := if dbh.maxSize < dbh.totSize then 1 else 0

end KfioInfoData

/-- A call on a data handle. The length of a text is an `int`. -/
inductive HandleOp
  | write (data : List UInt8)
  | printf (text : List UInt8) (len_lt : text.length < 2 ^ 31)
  | printfFails

/-- The memory with a data handle. -/
structure HandleState where
  mem : Nat → UInt8
  dbh : KfioInfoData

namespace HandleOp

/-- What a call produces. -/
def bytes : HandleOp → List UInt8
  | write data => data
  | printf text _ => text
  | printfFails => []

def step (s : HandleState) : HandleOp → HandleState
  | write data =>
    let (mem, dbh, _) := s.dbh.kfioInfoWrite s.mem data
    ⟨mem, dbh⟩
  | printf text _ =>
    let (mem, dbh, _) := s.dbh.kfioInfoPrintf s.mem (some text)
    ⟨mem, dbh⟩
  | printfFails =>
    let (mem, dbh, _) := s.dbh.kfioInfoPrintf s.mem none
    ⟨mem, dbh⟩

/-- The total stays a word, and a text does not just fill the room that is left: the NUL behind it
would take the place of its last character. -/
def Fits (dbh : KfioInfoData) : HandleOp → Prop
  | write data => dbh.totSize.toNat + data.length < 2 ^ 64
  | printf text _ =>
    dbh.totSize.toNat + text.length < 2 ^ 64 ∧ (dbh.maxSize - dbh.curSize).toNat < 2 ^ 63 ∧
      (text.length = (dbh.maxSize - dbh.curSize).toNat → text = [] ∨ text.getLast? = some 0)
  | printfFails => True

end HandleOp

/-- What a data handle promises after some bytes were produced. -/
structure HoldsAll (out : List UInt8) (s : HandleState) : Prop where
  within : s.dbh.curSize ≤ s.dbh.maxSize
  total : s.dbh.totSize.toNat = out.length
  bytes : s.dbh.kfioInfoDataOverflow = 0 → bytesAt s.mem s.dbh.buffer s.dbh.curSize.toNat = out

/-- The same with what is behind the promise: the sizes are those of what was produced, and as long as it
fits it is in the buffer. -/
structure Filled (out : List UInt8) (s : HandleState) : Prop where
  cur : s.dbh.curSize.toNat = min s.dbh.maxSize.toNat out.length
  total : s.dbh.totSize.toNat = out.length
  bytes : out.length ≤ s.dbh.maxSize.toNat → Holds s.mem s.dbh.buffer out

section Steps

variable {out : List UInt8} {s : HandleState} {op : HandleOp}

theorem not_overflow_iff {dbh : KfioInfoData} : dbh.kfioInfoDataOverflow = 0 ↔ dbh.totSize.toNat ≤ dbh.maxSize.toNat := by
  rw [KfioInfoData.kfioInfoDataOverflow]
  split
  · rename_i short
    have : dbh.maxSize.toNat < dbh.totSize.toNat := short
    omega
  · rename_i fits
    have : ¬ dbh.maxSize.toNat < dbh.totSize.toNat := fits
    omega

theorem filled_reset (mem : Nat → UInt8) (data : Nat) (size : BitVec 64) :
    Filled [] ⟨mem, .kfioInfoResetDataHandle data size⟩ :=
  ⟨(Nat.min_zero _).symm, rfl, fun _ => trivial⟩

theorem Filled.holdsAll (filled : Filled out s) : HoldsAll out s := by
  refine ⟨?_, filled.total, fun fits => ?_⟩
  · rw [BitVec.le_def, filled.cur]
    exact Nat.min_le_left _ _
  · have fits := not_overflow_iff.mp fits
    rw [filled.total] at fits
    rw [filled.cur, Nat.min_eq_right fits]
    exact bytesAt_eq (filled.bytes fits)

/-- The room that is left. -/
theorem Filled.avail (filled : Filled out s) :
    (s.dbh.maxSize - s.dbh.curSize).toNat = s.dbh.maxSize.toNat - s.dbh.curSize.toNat :=
  BitVec.toNat_sub_of_le filled.holdsAll.within

/-- How many bytes a write copies. -/
theorem writeCount_toNat {dbh : KfioInfoData} (data : List UInt8) (within : dbh.curSize ≤ dbh.maxSize)
    (word : data.length < 2 ^ 64) :
    (if BitVec.ofNat 64 data.length < dbh.maxSize - dbh.curSize then BitVec.ofNat 64 data.length
      else dbh.maxSize - dbh.curSize).toNat = min data.length (dbh.maxSize.toNat - dbh.curSize.toNat) := by
  have avail : (dbh.maxSize - dbh.curSize).toNat = dbh.maxSize.toNat - dbh.curSize.toNat :=
    BitVec.toNat_sub_of_le within
  have size : (BitVec.ofNat 64 data.length).toNat = data.length := MachineWord.toNat_ofNat word
  split
  · rename_i short
    have : (BitVec.ofNat 64 data.length).toNat < (dbh.maxSize - dbh.curSize).toNat := short
    omega
  · rename_i long
    have : ¬ (BitVec.ofNat 64 data.length).toNat < (dbh.maxSize - dbh.curSize).toNat := long
    omega

/-- A buffer that was filled as far as it goes is filled further. -/
theorem min_add_min_sub (m o d : Nat) : min m o + min d (m - min m o) = min m (o + d) := by
  rcases Nat.le_total m o with full | room
  · rw [Nat.min_eq_left full, Nat.sub_self, Nat.min_zero, Nat.add_zero, Nat.min_eq_left (by omega)]
  · rw [Nat.min_eq_right room]
    omega

/-- When the room of a handle is less than a length, compared as signed numbers. -/
theorem slt_length_iff {avail : BitVec 64} {n : Nat} (small : n < 2 ^ 31) :
    BitVec.slt avail (BitVec.ofNat 64 n) = true ↔ 2 ^ 63 ≤ avail.toNat ∨ avail.toNat < n := by
  have range := avail.isLt
  rw [BitVec.slt_iff_toInt_lt, MachineWord.toInt_ofNat (by omega), BitVec.toInt_eq_toNat_cond]
  split
  · omega
  · omega

theorem Filled.write {data : List UInt8} (filled : Filled out s) (fits : (HandleOp.write data).Fits s.dbh) :
    Filled (out ++ data) ((HandleOp.write data).step s) := by
  have within := filled.holdsAll.within
  obtain ⟨cur, total, bytes⟩ := filled
  rw [HandleOp.Fits, total] at fits
  have size : (BitVec.ofNat 64 data.length).toNat = data.length := MachineWord.toNat_ofNat (by omega)
  have room := s.dbh.maxSize.isLt
  have copied := writeCount_toNat data within (by omega)
  generalize count : (if BitVec.ofNat 64 data.length < s.dbh.maxSize - s.dbh.curSize then BitVec.ofNat 64 data.length
      else s.dbh.maxSize - s.dbh.curSize) = n at copied
  rw [HandleOp.step, KfioInfoData.kfioInfoWrite]
  dsimp only
  rw [count]
  refine ⟨?_, ?_, fun fitting => ?_⟩
  · rw [BitVec.toNat_add, cur, copied, cur, List.length_append, min_add_min_sub]
    exact Nat.mod_eq_of_lt (Nat.lt_of_le_of_lt (Nat.min_le_left _ _) room)
  · rw [BitVec.toNat_add, total, size, List.length_append]
    exact Nat.mod_eq_of_lt fits
  · rw [List.length_append] at fitting
    dsimp only at fitting ⊢
    have place : s.dbh.curSize.toNat = out.length := by omega
    rw [place, List.take_of_length_le (by omega)]
    exact (bytes (by omega)).memcpy _

/-- A text is printed behind what is in the buffer when it does not just fill the room, up to a NUL that it
ends with. -/
theorem holds_kfioVsnprintf {mem : Nat → UInt8} {a avail : Nat} {text : List UInt8} (old : Holds mem a out)
    (room : text.length ≤ avail) (last : text.length = avail → text = [] ∨ text.getLast? = some 0) :
    Holds (kfioVsnprintf mem (a + out.length) avail text).1 a (out ++ text) := by
  rw [kfioVsnprintf]
  rcases List.eq_nil_or_concat' text with rfl | ⟨front, b, rfl⟩
  · rw [List.append_nil]
    split
    · exact old
    · exact old.congr fun _ _ high => memcpy_of_lt high
  · rw [List.length_append, List.length_singleton] at room last
    dsimp only
    rw [if_neg (by omega)]
    by_cases full : front.length + 1 = avail
    · have zero : b = 0 := by
        rcases last full with none | zero
        · exact absurd none (List.append_ne_nil_of_right_ne_nil front (List.cons_ne_nil b []))
        · rw [List.getLast?_concat] at zero
          exact Option.some.inj zero
      rw [← full, Nat.add_sub_cancel, List.take_left, zero]
      exact old.memcpy _
    · rw [List.take_of_length_le (by rw [List.length_append, List.length_singleton]; omega)]
      have more := old.memcpy (front ++ [b] ++ [0])
      rw [← List.append_assoc] at more
      exact (holds_append.mp more).1

/-- A text that just fills the room, or does not fit, ends with a NUL at the end of the room. -/
theorem kfioVsnprintf_nul {mem : Nat → UInt8} {a n : Nat} {text : List UInt8} (full : n < text.length) :
    (kfioVsnprintf mem a (n + 1) text).1 (a + n) = 0 := by
  have stored : Holds (memcpy mem a (text.take n ++ [0])) a (text.take n ++ [0]) := holds_memcpy
  have nul := (holds_append.mp stored).2.1
  rw [List.length_take, Nat.min_eq_left (Nat.le_of_lt full)] at nul
  rw [kfioVsnprintf, if_neg (Nat.succ_ne_zero n), Nat.add_sub_cancel]
  exact nul

theorem Filled.printf {text : List UInt8} {len_lt : text.length < 2 ^ 31} (filled : Filled out s)
    (fits : (HandleOp.printf text len_lt).Fits s.dbh) : Filled (out ++ text) ((HandleOp.printf text len_lt).step s) := by
  have avail := filled.avail
  obtain ⟨cur, total, bytes⟩ := filled
  obtain ⟨word, signed, last⟩ := fits
  rw [total] at word
  rw [avail] at signed last
  have size : (BitVec.ofNat 64 text.length).toNat = text.length := MachineWord.toNat_ofNat (by omega)
  have room := s.dbh.maxSize.isLt
  have compare : BitVec.slt (s.dbh.maxSize - s.dbh.curSize) (BitVec.ofNat 64 text.length) = true ↔
      s.dbh.maxSize.toNat - s.dbh.curSize.toNat < text.length := by
    rw [slt_length_iff len_lt, avail]
    omega
  rw [HandleOp.step, KfioInfoData.kfioInfoPrintf]
  refine ⟨?_, ?_, fun fitting => ?_⟩
  · rw [List.length_append]
    dsimp only [kfioVsnprintf]
    split
    · rename_i short
      have beyond := compare.mp short
      omega
    · rename_i within
      have inside := Nat.not_lt.mp (mt compare.mpr within)
      rw [cur] at inside
      rw [BitVec.toNat_add, size, cur, ← min_add_min_sub, Nat.min_eq_left inside]
      exact Nat.mod_eq_of_lt (by omega)
  · rw [BitVec.toNat_add, kfioVsnprintf, total, size, List.length_append]
    exact Nat.mod_eq_of_lt word
  · rw [List.length_append] at fitting
    dsimp only at fitting ⊢
    have place : s.dbh.curSize.toNat = out.length := by omega
    rw [avail, place]
    rw [place] at last
    exact holds_kfioVsnprintf (bytes (by omega)) (by omega) last

theorem Filled.step (filled : Filled out s) (fits : op.Fits s.dbh) : Filled (out ++ op.bytes) (op.step s) := by
  cases op with
  | write data => exact filled.write fits
  | printf text len_lt => exact filled.printf fits
  | printfFails =>
    rw [HandleOp.bytes, List.append_nil]
    exact filled

theorem bytesAt_getLast {mem : Nat → UInt8} {a n : Nat} : (bytesAt mem a (n + 1)).getLast? = some (mem (a + n)) := by
  rw [bytesAt, List.range_succ, List.map_append, List.map_singleton, List.getLast?_concat]

/-- A text that does not fit breaks the promise. -/
theorem Filled.fits_printf {text : List UInt8} {len_lt : text.length < 2 ^ 31} (filled : Filled out s)
    (holds : HoldsAll (out ++ text) ((HandleOp.printf text len_lt).step s)) :
    (HandleOp.printf text len_lt).Fits s.dbh := by
  have avail := filled.avail
  obtain ⟨cur, total, _⟩ := filled
  have word := holds.total
  have small := ((HandleOp.printf text len_lt).step s).dbh.totSize.isLt
  rw [List.length_append] at word
  have fits : s.dbh.totSize.toNat + text.length < 2 ^ 64 := by omega
  have size : (BitVec.ofNat 64 text.length).toNat = text.length := MachineWord.toNat_ofNat (by omega)
  -- as long as there is room nothing has overflowed, so that the promise is about what is in the buffer
  have kept : (HandleOp.printf text len_lt).step s = ⟨(kfioVsnprintf s.mem (s.dbh.buffer + s.dbh.curSize.toNat)
      (s.dbh.maxSize - s.dbh.curSize).toNat text).1,
      { s.dbh with
        curSize := if BitVec.slt (s.dbh.maxSize - s.dbh.curSize) (BitVec.ofNat 64 text.length) then s.dbh.maxSize
          else s.dbh.curSize + BitVec.ofNat 64 text.length
        totSize := s.dbh.totSize + BitVec.ofNat 64 text.length }⟩ := rfl
  have bytes := holds.bytes
  rw [not_overflow_iff, word, kept] at bytes
  dsimp only at bytes
  have signed : (s.dbh.maxSize - s.dbh.curSize).toNat < 2 ^ 63 := by
    by_contra large
    have room := (s.dbh.maxSize - s.dbh.curSize).isLt
    have negative := (slt_length_iff len_lt).mpr (Or.inl (Nat.not_lt.mp large))
    have inBuffer := congrArg List.length (bytes (by omega))
    rw [if_pos negative, bytesAt, List.length_map, List.length_range, List.length_append] at inBuffer
    omega
  refine ⟨fits, signed, fun exact' => or_iff_not_imp_left.mpr fun nonempty => ?_⟩
  have notOver : ¬ BitVec.slt (s.dbh.maxSize - s.dbh.curSize) (BitVec.ofNat 64 text.length) = true := by
    rw [slt_length_iff len_lt]
    omega
  have pos := List.length_pos_of_ne_nil nonempty
  obtain ⟨n, length⟩ : ∃ n, text.length = n + 1 := ⟨text.length - 1, by omega⟩
  have place : (s.dbh.curSize + BitVec.ofNat 64 text.length).toNat = s.dbh.curSize.toNat + n + 1 := by
    have := s.dbh.maxSize.isLt
    rw [BitVec.toNat_add, size]
    omega
  have inBuffer := congrArg List.getLast? (bytes (by omega))
  rw [if_neg notOver, place, bytesAt_getLast, List.getLast?_append_of_ne_nil _ nonempty, ← exact', length] at inBuffer
  rw [← inBuffer, ← Nat.add_assoc]
  exact congrArg some (kfioVsnprintf_nul (by omega))

/-- A call that does not fit breaks the promise. -/
theorem Filled.fits (filled : Filled out s) (holds : HoldsAll (out ++ op.bytes) (op.step s)) : op.Fits s.dbh := by
  cases op with
  | write data =>
    have word := holds.total
    have small := ((HandleOp.write data).step s).dbh.totSize.isLt
    rw [HandleOp.bytes, List.length_append] at word
    rw [HandleOp.Fits, filled.total]
    omega
  | printf text len_lt => exact filled.fits_printf holds
  | printfFails => trivial

end Steps

/-- The promise holds after each of some calls. -/
def HoldsAlong (out : List UInt8) (s : HandleState) : List HandleOp → Prop
  | [] => HoldsAll out s
  | op :: ops => HoldsAll out s ∧ HoldsAlong (out ++ op.bytes) (op.step s) ops

/-- Each of the calls fits when it is made. -/
def FitAlong (s : HandleState) : List HandleOp → Prop
  | [] => True
  | op :: ops => op.Fits s.dbh ∧ FitAlong (op.step s) ops

theorem Filled.holdsAlong {out : List UInt8} {s : HandleState} {ops : List HandleOp} (filled : Filled out s) :
    HoldsAlong out s ops ↔ FitAlong s ops := by
  induction ops generalizing out s with
  | nil => exact iff_of_true filled.holdsAll trivial
  | cons op ops ih =>
    rw [HoldsAlong, FitAlong, and_iff_right filled.holdsAll]
    constructor
    · intro along
      have now : HoldsAll (out ++ op.bytes) (op.step s) := by
        cases ops with
        | nil => exact along
        | cons => exact along.1
      have fits := filled.fits now
      exact ⟨fits, (ih (filled.step fits)).mp along⟩
    · rintro ⟨fits, rest⟩
      exact (ih (filled.step fits)).mpr rest

/-- From a handle that was reset, the promise holds after each call exactly when all calls fit. -/
theorem holdsAlong_iff (mem : Nat → UInt8) (data : Nat) (size : BitVec 64) (ops : List HandleOp) :
    HoldsAlong [] ⟨mem, .kfioInfoResetDataHandle data size⟩ ops ↔
      FitAlong ⟨mem, .kfioInfoResetDataHandle data size⟩ ops :=
  (filled_reset mem data size).holdsAlong

/-- Two characters printed into a buffer of two bytes: the second one is lost. -/
theorem printf_exact_fit :
    ¬ ∀ (mem : Nat → UInt8) (data : Nat) (size : BitVec 64) (ops : List HandleOp),
      HoldsAlong [] ⟨mem, .kfioInfoResetDataHandle data size⟩ ops := by
  intro always
  have holds := (always (fun _ => 0) 0 2#64 [.printf [79, 75] (by decide)]).2
  exact absurd (holds.bytes (by decide)) (by decide)

section Sizes

variable {dbh : KfioInfoData} {mem : Nat → UInt8} {data : List UInt8}

/-- The sizes of a data handle as numbers. -/
def KfioInfoData.toDataHandle (dbh : KfioInfoData) : DataHandle :=
  ⟨dbh.buffer, dbh.maxSize.toNat, dbh.curSize.toNat, dbh.totSize.toNat⟩

/-- As long as the total stays a word, a write is the one on numbers. -/
theorem kfioInfoWrite_toDataHandle (within : dbh.curSize ≤ dbh.maxSize)
    (word : dbh.totSize.toNat + data.length < 2 ^ 64) :
    (dbh.kfioInfoWrite mem data).1 = (kfioInfoWrite mem dbh.toDataHandle data).1 ∧
      (dbh.kfioInfoWrite mem data).2.1.toDataHandle = (kfioInfoWrite mem dbh.toDataHandle data).2.1 ∧
      (dbh.kfioInfoWrite mem data).2.2.toNat = (kfioInfoWrite mem dbh.toDataHandle data).2.2 := by
  have size : (BitVec.ofNat 64 data.length).toNat = data.length := MachineWord.toNat_ofNat (by omega)
  have room := dbh.maxSize.isLt
  have le : dbh.curSize.toNat ≤ dbh.maxSize.toNat := within
  have least : (if data.length < dbh.maxSize.toNat - dbh.curSize.toNat then data.length
      else dbh.maxSize.toNat - dbh.curSize.toNat) = min data.length (dbh.maxSize.toNat - dbh.curSize.toNat) := by
    split
    · omega
    · omega
  have same := (writeCount_toNat data within (by omega)).trans least.symm
  have cur : (dbh.curSize + if BitVec.ofNat 64 data.length < dbh.maxSize - dbh.curSize then BitVec.ofNat 64 data.length
      else dbh.maxSize - dbh.curSize).toNat = dbh.curSize.toNat +
      if data.length < dbh.maxSize.toNat - dbh.curSize.toNat then data.length
      else dbh.maxSize.toNat - dbh.curSize.toNat := by
    rw [BitVec.toNat_add, same]
    exact Nat.mod_eq_of_lt (by omega)
  refine ⟨?_, ?_, same⟩
  · rw [KfioInfoData.kfioInfoWrite, kfioInfoWrite]
    dsimp only [KfioInfoData.toDataHandle]
    rw [same]
    rfl
  · rw [KfioInfoData.kfioInfoWrite, kfioInfoWrite]
    dsimp only [KfioInfoData.toDataHandle]
    rw [cur, BitVec.toNat_add, size, Nat.mod_eq_of_lt word]
    rfl

end Sizes

end IomemoryVsl
