import IomemoryVsl.KinfoProcRead
import IomemoryVsl.KinfoProcWrite

namespace IomemoryVsl

open ByteMemory

section Text

variable {type : NumType}

theorem print_numeral (v : BitVec type.bits) : ∃ n, IsNumeral type (type.print v) n ∧ BitVec.ofInt type.bits n = v := by
  have digits : ∀ n, ∀ b ∈ Decimal.text n, Decimal.isDigit b = true := fun _ _ => Decimal.isDigit_of_mem_text
  have unsigned : ∀ n, IsNumeral type (Decimal.text n ++ [10]) n := by
    intro n
    have numeral : IsNumeral type _ _ :=
      .plain (Decimal.text n) [10] Decimal.text_ne_nil (digits n) (Or.inr rfl)
    rwa [Decimal.value_text] at numeral
  cases type with
  | uint32 => exact ⟨v.toNat, unsigned v.toNat, by rw [BitVec.ofInt_natCast, BitVec.ofNat_toNat, BitVec.setWidth_eq]⟩
  | uint64 => exact ⟨v.toNat, unsigned v.toNat, by rw [BitVec.ofInt_natCast, BitVec.ofNat_toNat, BitVec.setWidth_eq]⟩
  | int32 =>
    refine ⟨v.toInt, ?_, BitVec.ofInt_toInt⟩
    rw [NumType.print]
    split
    · rename_i negative
      have numeral : IsNumeral .int32 _ _ :=
        .minus (Decimal.text v.toInt.natAbs) [10] rfl Decimal.text_ne_nil (digits _) (Or.inr rfl)
      rw [Decimal.value_text] at numeral
      have value : -(v.toInt.natAbs : Int) = v.toInt := by omega
      rwa [value] at numeral
    · rename_i nonneg
      have value : (v.toInt.natAbs : Int) = v.toInt := by omega
      have numeral := unsigned v.toInt.natAbs
      rwa [value] at numeral

/-- The text of a number fits into `local_buf` with its NUL. -/
theorem print_length (v : BitVec type.bits) : (type.print v).length < localBufSize := by
  rw [localBufSize]
  cases type with
  | uint32 =>
    have below : v.toNat < 10 ^ 10 := v.isLt.trans (by decide)
    have := Decimal.text_length_le below (by decide)
    rw [NumType.print, List.length_append, List.length_singleton]
    omega
  | uint64 =>
    have below : v.toNat < 10 ^ 20 := v.isLt.trans (by decide)
    have := Decimal.text_length_le below (by decide)
    rw [NumType.print, List.length_append, List.length_singleton]
    omega
  | int32 =>
    have low : -2 ^ 31 ≤ v.toInt := BitVec.le_toInt v
    have high : v.toInt < 2 ^ 31 := BitVec.toInt_lt
    have below : v.toInt.natAbs < 10 ^ 10 := by omega
    have := Decimal.text_length_le below (by decide)
    have sign : (if v.toInt < 0 then [(45 : UInt8)] else []).length ≤ 1 := by
      split
      · exact Nat.le_refl 1
      · exact Nat.zero_le 1
    rw [NumType.print, List.length_append, List.length_append, List.length_singleton]
    omega

theorem print_getLast (v : BitVec type.bits) : (type.print v).getLast? = some 10 := by
  cases type with
  | uint32 => exact List.getLast?_concat
  | uint64 => exact List.getLast?_concat
  | int32 => exact List.getLast?_concat

end Text

section Reads

variable {type : NumType} {node : TypedNode (.num type)} {text : List UInt8} {mem : Nat → UInt8} {a n : Nat}
  {count ppos : BitVec 64}

/-- A part of a text that stands in the memory. -/
theorem map_range' (inside : a + n ≤ text.length) (stands : ∀ i (low : i < text.length), mem i = text[i]) :
    (List.range' a n).map mem = (text.drop a).take n := by
  apply List.ext_getElem
  · rw [List.length_map, List.length_range', List.length_take, List.length_drop]
    omega
  · intro i low high
    rw [List.length_map, List.length_range'] at low
    rw [List.getElem_map, List.getElem_range', List.getElem_take, List.getElem_drop, Nat.one_mul, stands _ (by omega)]

theorem kfioSnprintf_stands (mem : Nat → UInt8) (short : text.length < localBufSize) :
    (kfioSnprintf mem localBufSize text).2 = text.length ∧
      ∀ i (low : i < text.length), (kfioSnprintf mem localBufSize text).1 i = text[i] := by
  refine ⟨rfl, fun i low => ?_⟩
  rw [localBufSize] at short
  have whole : text.take (localBufSize - 1) = text := List.take_of_length_le (by rw [localBufSize]; omega)
  rw [kfioSnprintf, kfioVsnprintf, if_neg (by decide), whole]
  dsimp only
  rw [memcpy, if_pos (Nat.zero_le i), Nat.sub_zero,
    List.getElem?_append_left low, List.getElem?_eq_getElem low, Option.getD_some]

/-- A read of a number from a position in its text on, which copies everything. -/
theorem read_num (mem : Nat → UInt8) (vmalloc : Bool) (default : node.typeHandler = none)
    (inside : ppos.toNat ≤ (type.print node.data).length)
    (length : min ((type.print node.data).length - ppos.toNat) count.toNat = n) :
    kfioInfoOsTypeRead node count ppos 0 vmalloc mem =
      ⟨n, ppos + BitVec.ofNat 64 n, ((type.print node.data).drop ppos.toNat).take n⟩ := by
  have short := print_length node.data
  obtain ⟨len, stands⟩ := kfioSnprintf_stands mem short
  have toNat : (BitVec.ofNat 64 (type.print node.data).length).toNat = (type.print node.data).length := by
    rw [localBufSize] at short
    exact MachineWord.toNat_ofNat (by omega)
  have small : n < localBufSize := by omega
  have fits : ReadFits (BitVec.ofNat 64 (type.print node.data).length) count ppos := by
    rw [localBufSize] at small
    refine Or.inr ⟨by omega, ?_⟩
    rw [toNat, length]
    omega
  have read := fits.read_eq 0 (n := n) (by rw [toNat, length])
  rw [if_pos (Nat.zero_min n)] at read
  have ret : ((BitVec.ofNat 64 n).setWidth 32).toInt = n := by
    rw [localBufSize] at small
    rw [BitVec.toInt_eq_toNat_cond, BitVec.toNat_setWidth, BitVec.toNat_ofNat, if_pos (by omega)]
    omega
  rw [kfioInfoOsTypeRead, TypedNode.kfioInfoGenericTypeHandler, default]
  show NodeRead.ofBuffer (kfioSnprintf mem localBufSize (type.print node.data)).1 (fioProcReadBuffer
    (BitVec.ofNat 64 (kfioSnprintf mem localBufSize (type.print node.data)).2) count ppos 0) = _
  rw [len, read, NodeRead.ofBuffer]
  dsimp only
  rw [ret, map_range' (by omega) stands]

/-- Reads one after the other, which copy everything, each with its count and with what is on the stack before it:
the bytes that the user gets, and the position after them. -/
def readNode {type : ValueType} (node : TypedNode type) : List (BitVec 64 × (Nat → UInt8)) → BitVec 64 →
    List UInt8 × BitVec 64
  | [], ppos => ([], ppos)
  | (count, mem) :: reads, ppos =>
    let r := kfioInfoOsTypeRead node count ppos 0 true mem
    (r.bytes ++ (readNode node reads r.ppos).1, (readNode node reads r.ppos).2)

theorem readNode_num (reads : List (BitVec 64 × (Nat → UInt8))) (ppos : BitVec 64)
    (default : node.typeHandler = none) (inside : ppos.toNat ≤ (type.print node.data).length) :
    ppos.toNat ≤ (readNode node reads ppos).2.toNat ∧
      (readNode node reads ppos).2.toNat ≤ (type.print node.data).length ∧
      (readNode node reads ppos).1 =
        ((type.print node.data).drop ppos.toNat).take ((readNode node reads ppos).2.toNat - ppos.toNat) := by
  induction reads generalizing ppos with
  | nil =>
    refine ⟨Nat.le_refl _, inside, ?_⟩
    rw [readNode, Nat.sub_self, List.take_zero]
  | cons read reads ih =>
    obtain ⟨count, mem⟩ := read
    have short := print_length node.data
    obtain ⟨n, length⟩ : ∃ n, min ((type.print node.data).length - ppos.toNat) count.toNat = n := ⟨_, rfl⟩
    have now := read_num mem true default inside length
    have next : (ppos + BitVec.ofNat 64 n).toNat = ppos.toNat + n := by
      rw [localBufSize] at short
      rw [BitVec.toNat_add, BitVec.toNat_ofNat]
      omega
    obtain ⟨low, high, rest⟩ := ih (ppos + BitVec.ofNat 64 n) (by omega)
    rw [readNode, now]
    dsimp only
    refine ⟨by omega, high, ?_⟩
    obtain ⟨more, total⟩ : ∃ more, (readNode node reads (ppos + BitVec.ofNat 64 n)).2.toNat = ppos.toNat + n + more :=
      ⟨_, (Nat.add_sub_cancel' (by omega)).symm⟩
    rw [rest, next, total, ← List.drop_drop, Nat.add_sub_cancel_left, Nat.add_assoc, Nat.add_sub_cancel_left,
      List.take_add]

/-- The text of a number that is read to its end in any parts, written back in one call, restores the
number. -/
theorem read_write (type : NumType) (node later : TypedNode (.num type)) (default : node.typeHandler = none)
    (laterDefault : later.typeHandler = none) (reads : List (BitVec 64 × (Nat → UInt8)))
    (count : BitVec 64) (mem : Nat → UInt8) (some : count ≠ 0#64)
    (atEnd : (kfioInfoOsTypeRead node count (readNode node reads 0#64).2 0 true mem).ret = 0)
    (ppos : BitVec 64) (env : WriteEnv) (buffer : List UInt8) (copied : env.uncopied = 0) :
    (kfioInfoOsTypeWrite later (readNode node reads 0#64).1 ppos env buffer).ret = (readNode node reads 0#64).1.length ∧
      (kfioInfoOsTypeWrite later (readNode node reads 0#64).1 ppos env buffer).node.data = node.data := by
  obtain ⟨_, high, whole⟩ := readNode_num reads 0#64 default (Nat.zero_le _)
  rw [read_num mem true default high rfl] at atEnd
  have positive : 0 < count.toNat := by
    refine Nat.pos_of_ne_zero fun zero => some (BitVec.eq_of_toNat_eq ?_)
    rw [zero]
    rfl
  have ended : (readNode node reads 0#64).2.toNat = (type.print node.data).length := by
    have nothing := Int.natCast_eq_zero.mp atEnd
    omega
  have text : (readNode node reads 0#64).1 = type.print node.data := by
    rw [whole, ended]
    exact List.take_length
  obtain ⟨v, numeral, value⟩ := print_numeral node.data
  rw [text, write_numeral laterDefault numeral (Nat.le_of_lt (print_length node.data)) copied
    (Or.inl (print_getLast node.data))]
  exact ⟨rfl, value⟩

/-- The number -5 read in two parts. -/
theorem read_write_minus_five :
    (kfioInfoOsTypeWrite (⟨7#32, none⟩ : TypedNode (.num .int32))
      (readNode (⟨-5#32, none⟩ : TypedNode (.num .int32)) [(2#64, fun _ => 0), (9#64, fun _ => 0)] 0#64).1 0#64
      ⟨0, true, [], by decide⟩ (List.replicate 32 57)).node.data = -5#32 :=
  (read_write .int32 ⟨-5#32, none⟩ ⟨7#32, none⟩ rfl rfl [(2#64, fun _ => 0), (9#64, fun _ => 0)] 1#64 (fun _ => 0)
    (by decide) (by decide) 0#64 ⟨0, true, [], by decide⟩ (List.replicate 32 57) rfl).2

end Reads

end IomemoryVsl
