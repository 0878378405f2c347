import IomemoryVsl.KinfoProc
import IomemoryVsl.MachineWord

namespace IomemoryVsl

section Numerals

variable {type : NumType} {user rest s ds nl : List UInt8} {v : Int}

/-- A minus sign comes first, where the type has one. -/
def NumType.minus (type : NumType) (s : List UInt8) : Bool := type == .int32 && s.head? == some 45

/-- The longest decimal number that a text begins with. -/
def NumType.decimal (type : NumType) (s : List UInt8) : List UInt8 :=
  if type.minus s then 45 :: Decimal.digits s.tail else Decimal.digits s

/-- Its value, where no digits count as 0. -/
def NumType.value (type : NumType) (s : List UInt8) : Int :=
  if type.minus s then -(Decimal.value (Decimal.digits s.tail) : Int) else Decimal.value (Decimal.digits s)

/-- The parser of a type reads the longest decimal number, modulo 2^64. -/
theorem parse_eq : type.parse s = (BitVec.ofInt 64 (type.value s), (type.decimal s).length) := by
  have plain : kfioStrtoul s = (BitVec.ofInt 64 (Decimal.value (Decimal.digits s) : Int), (Decimal.digits s).length) := by
    rw [BitVec.ofInt_natCast]
    rfl
  rw [NumType.value, NumType.decimal]
  cases type with
  | uint32 => exact plain
  | uint64 => exact plain
  | int32 =>
    cases s with
    | nil => exact plain
    | cons b rest =>
      by_cases minus : b = 45
      · have first : NumType.minus .int32 (45 :: rest) = true := rfl
        rw [minus, if_pos first, if_pos first, BitVec.ofInt_neg, BitVec.ofInt_natCast]
        rfl
      · have other : ¬ NumType.minus .int32 (b :: rest) = true := by
          intro first
          rw [NumType.minus, Bool.and_eq_true, beq_iff_eq, beq_iff_eq] at first
          exact minus (Option.some.inj first.2)
        rw [if_neg other, if_neg other, ← plain]
        show kfioStrtol (b :: rest) = kfioStrtoul (b :: rest)
        rw [kfioStrtol]
        intro rest' same
        exact minus (List.cons.inj same).1

theorem decimal_length_le (type : NumType) (s : List UInt8) : (type.decimal s).length ≤ s.length := by
  rw [NumType.decimal]
  split
  · rename_i minus
    rw [NumType.minus, Bool.and_eq_true, beq_iff_eq, beq_iff_eq] at minus
    cases s with
    | nil => cases minus.2
    | cons b rest => exact Nat.succ_le_succ Decimal.digits_length_le
  · exact Decimal.digits_length_le

theorem minus_append (nonempty : user ≠ []) : type.minus (user ++ rest) = type.minus user := by
  rw [NumType.minus, NumType.minus, List.head?_append_of_ne_nil _ nonempty]

/-- The body of a number is digits alone. -/
def NumType.AllDigits (type : NumType) (user : List UInt8) : Prop :=
  ∀ b ∈ if type.minus user then user.tail else user, Decimal.isDigit b = true

instance : Decidable (type.AllDigits user) := inferInstanceAs (Decidable (∀ b ∈ _, Decimal.isDigit b = true))

/-- What follows a text with another character does not matter to the number. -/
theorem decimal_append_of_not (nonempty : user ≠ []) (other : ¬ type.AllDigits user) :
    type.decimal (user ++ rest) = type.decimal user ∧ type.value (user ++ rest) = type.value user := by
  rw [NumType.AllDigits, not_forall] at other
  obtain ⟨b, foreign⟩ := other
  obtain ⟨member, foreign⟩ := Classical.not_imp.mp foreign
  rw [Bool.not_eq_true] at foreign
  rw [NumType.decimal, NumType.value, NumType.decimal, NumType.value, minus_append nonempty]
  split
  · rename_i minus
    rw [if_pos minus] at member
    rw [List.tail_append_of_ne_nil nonempty, Decimal.digits_append_of_exists ⟨b, member, foreign⟩]
    exact ⟨rfl, rfl⟩
  · rename_i plain
    rw [if_neg plain] at member
    rw [Decimal.digits_append_of_exists ⟨b, member, foreign⟩]
    exact ⟨rfl, rfl⟩

/-- A number goes on with the digits that follow it. -/
theorem decimal_append_of_all (rest : List UInt8) (nonempty : user ≠ []) (all : type.AllDigits user) :
    type.decimal (user ++ rest) = user ++ Decimal.digits rest ∧
      type.value (user ++ rest) = (if type.minus user then -1 else 1) *
        (Decimal.value ((if type.minus user then user.tail else user) ++ Decimal.digits rest) : Int) := by
  rw [NumType.AllDigits] at all
  rw [NumType.decimal, NumType.value, minus_append nonempty]
  split
  · rename_i minus
    rw [if_pos minus] at all
    rw [List.tail_append_of_ne_nil nonempty, Decimal.digits_append_of_all all]
    rw [NumType.minus, Bool.and_eq_true, beq_iff_eq, beq_iff_eq] at minus
    cases user with
    | nil => exact absurd rfl nonempty
    | cons b body =>
      rw [Option.some.inj minus.2]
      exact ⟨rfl, by omega⟩
  · rename_i plain
    rw [if_neg plain] at all
    rw [Decimal.digits_append_of_all all]
    exact ⟨rfl, by omega⟩

/-- What is no digit does not add to the number before it. -/
theorem decimal_append_of_stop (nonempty : user ≠ []) (stop : Decimal.digits rest = []) :
    type.decimal (user ++ rest) = type.decimal user := by
  by_cases all : type.AllDigits user
  · have alone := (decimal_append_of_all [] nonempty all).1
    rw [(decimal_append_of_all rest nonempty all).1, stop, List.append_nil]
    rw [List.append_nil, Decimal.digits_nil, List.append_nil] at alone
    exact alone.symm
  · exact (decimal_append_of_not nonempty all).1

theorem digits_of_zero (zero : ∀ b ∈ rest, b = 0) : Decimal.digits rest = [] := by
  cases rest with
  | nil => rfl
  | cons b rest =>
    rw [zero b List.mem_cons_self]
    exact Decimal.digits_cons_of_not (by decide)

/-- A text that is a decimal number that is not empty, with a newline behind it or not. -/
inductive IsNumeral (type : NumType) : List UInt8 → Int → Prop
  | plain (ds nl : List UInt8) (nonempty : ds ≠ []) (all : ∀ b ∈ ds, Decimal.isDigit b = true)
      (newline : nl = [] ∨ nl = [10]) : IsNumeral type (ds ++ nl) (Decimal.value ds)
  | minus (ds nl : List UInt8) (signed : type = .int32) (nonempty : ds ≠ [])
      (all : ∀ b ∈ ds, Decimal.isDigit b = true) (newline : nl = [] ∨ nl = [10]) :
      IsNumeral type (45 :: (ds ++ nl)) (-(Decimal.value ds : Int))

theorem digits_newline (all : ∀ b ∈ ds, Decimal.isDigit b = true)
    (stop : nl = [10] ∨ nl = [] ∧ Decimal.digits rest = []) : Decimal.digits (ds ++ (nl ++ rest)) = ds := by
  rw [Decimal.digits_append_of_all all]
  rcases stop with rfl | ⟨rfl, stop⟩
  · rw [List.singleton_append, Decimal.digits_cons_of_not (by decide), List.append_nil]
  · rw [List.nil_append, stop, List.append_nil]

/-- A decimal number is read with its value, and no more than a newline of it is left, if a newline
or something that is no digit ends it. -/
theorem IsNumeral.decimal (numeral : IsNumeral type user v)
    (stop : user.getLast? = some 10 ∨ Decimal.digits rest = []) :
    type.value (user ++ rest) = v ∧ user.length ≤ (type.decimal (user ++ rest)).length + 1 := by
  have newlineOr : ∀ ds nl : List UInt8, (nl = [] ∨ nl = [10]) → (∀ b ∈ ds, Decimal.isDigit b = true) →
      ((ds ++ nl).getLast? = some 10 ∨ Decimal.digits rest = []) → nl = [10] ∨ nl = [] ∧ Decimal.digits rest = [] := by
    rintro ds nl (rfl | rfl) all stop
    · refine Or.inr ⟨rfl, stop.resolve_left fun last => ?_⟩
      rw [List.append_nil] at last
      have digit := all 10 (List.mem_of_getLast? last)
      exact absurd digit (by decide)
    · exact Or.inl rfl
  cases numeral with
  | plain ds nl nonempty all newline =>
    have stops := newlineOr ds nl newline all stop
    obtain ⟨b, body, rfl⟩ := List.exists_cons_of_ne_nil nonempty
    have first := all b List.mem_cons_self
    have noMinus : ¬ type.minus (b :: body ++ nl ++ rest) = true := by
      intro minus
      rw [NumType.minus, Bool.and_eq_true, beq_iff_eq, beq_iff_eq] at minus
      have sign : b = 45 := Option.some.inj minus.2
      rw [sign] at first
      exact absurd first (by decide)
    rw [NumType.value, NumType.decimal, if_neg noMinus, if_neg noMinus, List.append_assoc, digits_newline all stops,
      List.length_append]
    refine ⟨rfl, ?_⟩
    rcases newline with rfl | rfl
    · exact Nat.le_succ _
    · exact Nat.le_refl _
  | minus ds nl signed nonempty all newline =>
    have ends : (ds ++ nl).getLast? = some 10 ∨ Decimal.digits rest = [] := by
      refine stop.imp_left fun last => ?_
      rwa [List.getLast?_cons_of_ne_nil (List.append_ne_nil_of_left_ne_nil nonempty nl)] at last
    have stops := newlineOr ds nl newline all ends
    have minus : type.minus (45 :: (ds ++ nl) ++ rest) = true := by
      rw [signed]
      rfl
    rw [NumType.value, NumType.decimal, if_pos minus, if_pos minus, List.cons_append, List.tail_cons,
      List.append_assoc, digits_newline all stops, List.length_cons, List.length_append, List.length_cons]
    refine ⟨rfl, ?_⟩
    rcases newline with rfl | rfl
    · exact Nat.le_succ _
    · exact Nat.le_refl _

/-- The numbers that a node of a type can hold. -/
def NumType.Represents (type : NumType) (v : Int) : Prop :=
  match type with
  | .int32 => -2 ^ 31 ≤ v ∧ v < 2 ^ 31
  | .uint32 => 0 ≤ v ∧ v < 2 ^ 32
  | .uint64 => 0 ≤ v ∧ v < 2 ^ 64

theorem IsNumeral.ne_nil (numeral : IsNumeral type user v) : user ≠ [] := by
  cases numeral with
  | plain ds nl nonempty => exact List.append_ne_nil_of_left_ne_nil nonempty nl
  | minus => exact List.cons_ne_nil _ _

theorem setWidth_ofInt : (BitVec.ofInt 64 v).setWidth type.bits = BitVec.ofInt type.bits v := by
  apply BitVec.eq_of_toNat_eq
  rw [BitVec.toNat_setWidth, BitVec.toNat_ofInt, BitVec.toNat_ofInt]
  cases type with
  | int32 =>
    rw [NumType.bits]
    omega
  | uint32 =>
    rw [NumType.bits]
    omega
  | uint64 =>
    rw [NumType.bits]
    omega

end Numerals

section Writes

variable {type : NumType} {node : TypedNode (.num type)} {user buffer : List UInt8} {ppos : BitVec 64} {env : WriteEnv}
  {v : Int}

/-- What a write of text that is not too long does. -/
theorem write_num (fits : user.length ≤ localBufSize) :
    kfioInfoOsTypeWrite node user ppos env buffer =
      if min env.uncopied user.length ≠ 0 then
        ⟨node, (BitVec.ofNat 32 (min env.uncopied user.length)).toInt, ppos⟩
      else if (type.decimal (user ++ (buffer.drop user.length ++ env.behind))).length <
          (user.length + (2 ^ 64 - 1)) % 2 ^ 64 then
        ⟨node, -einval, ppos + BitVec.ofNat 64 user.length⟩
      else
        node.writeValue (BitVec.ofInt type.bits (type.value (user ++ (buffer.drop user.length ++ env.behind))))
          user.length (ppos + BitVec.ofNat 64 user.length) := by
  rw [localBufSize] at fits
  have whole : user.length % 2 ^ 32 = user.length := Nat.mod_eq_of_lt (by omega)
  rw [kfioInfoOsTypeWrite, if_neg (by rw [localBufSize]; omega)]
  simp only [kfioCopyFromUser, whole, List.take_length, List.append_assoc, parse_eq, setWidth_ofInt]
  by_cases all : min env.uncopied user.length = 0
  · have none : ¬ (BitVec.ofNat 32 0).toInt ≠ 0 := by decide
    rw [all, if_neg none, if_neg (not_not.mpr rfl)]
  · rw [if_pos all, if_pos (MachineWord.toInt_ofNat_ne_zero all (by omega))]

theorem write_num_copied (fits : user.length ≤ localBufSize) (copied : env.uncopied = 0) :
    kfioInfoOsTypeWrite node user ppos env buffer =
      if (type.decimal (user ++ (buffer.drop user.length ++ env.behind))).length <
          (user.length + (2 ^ 64 - 1)) % 2 ^ 64 then
        ⟨node, -einval, ppos + BitVec.ofNat 64 user.length⟩
      else
        node.writeValue (BitVec.ofInt type.bits (type.value (user ++ (buffer.drop user.length ++ env.behind))))
          user.length (ppos + BitVec.ofNat 64 user.length) := by
  rw [write_num fits, copied, Nat.zero_min, if_neg (not_not.mpr rfl)]

/-- The comparison with `count - 1` lets no empty text through. -/
theorem count_sub_one (some : user ≠ []) (fits : user.length ≤ localBufSize) :
    (user.length + (2 ^ 64 - 1)) % 2 ^ 64 = user.length - 1 := by
  have pos := List.length_pos_of_ne_nil some
  rw [localBufSize] at fits
  omega

theorem writeValue_default {type : ValueType} {node : TypedNode type} {value : type.Data} {count : Nat}
    (default : node.typeHandler = none) :
    node.writeValue value count ppos = ⟨{ node with data := value }, count, ppos⟩ := by
  rw [TypedNode.writeValue, TypedNode.kfioInfoGenericTypeHandler, default]
  rfl

/-- A decimal number is accepted and stored, modulo the width of the node. -/
theorem write_numeral (default : node.typeHandler = none) (numeral : IsNumeral type user v)
    (fits : user.length ≤ localBufSize) (copied : env.uncopied = 0)
    (stop : user.getLast? = some 10 ∨ Decimal.digits (buffer.drop user.length ++ env.behind) = []) :
    kfioInfoOsTypeWrite node user ppos env buffer =
      ⟨{ node with data := BitVec.ofInt type.bits v }, user.length, ppos + BitVec.ofNat 64 user.length⟩ := by
  obtain ⟨value, length⟩ := numeral.decimal stop
  rw [write_num_copied fits copied, count_sub_one numeral.ne_nil fits, if_neg (by omega), value, writeValue_default default]

/-- Text that is too long, none at all, and text with more than one character behind its number is
refused. -/
theorem write_refused (copied : env.uncopied = 0) (zero : ∀ b ∈ buffer.drop user.length ++ env.behind, b = 0)
    (foreign : user = [] ∨ localBufSize < user.length ∨ (type.decimal user).length + 1 < user.length) :
    (kfioInfoOsTypeWrite node user ppos env buffer).ret = -einval ∧
      (kfioInfoOsTypeWrite node user ppos env buffer).node = node := by
  by_cases long : localBufSize < user.length
  · rw [kfioInfoOsTypeWrite, if_pos long]
    exact ⟨rfl, rfl⟩
  · have stop := digits_of_zero zero
    rw [write_num_copied (Nat.not_lt.mp long) copied]
    rcases List.eq_nil_or_concat' user with rfl | ⟨_, _, rfl⟩
    · have short : (type.decimal ([] ++ (buffer.drop ([] : List UInt8).length ++ env.behind))).length <
          (([] : List UInt8).length + (2 ^ 64 - 1)) % 2 ^ 64 := by
        have noMinus : ¬ type.minus ([] ++ (buffer.drop ([] : List UInt8).length ++ env.behind)) = true := by
          intro minus
          rw [NumType.minus, Bool.and_eq_true, beq_iff_eq, beq_iff_eq] at minus
          have sign := zero 45 (List.mem_of_head? minus.2)
          exact absurd sign (by decide)
        rw [NumType.decimal, if_neg noMinus, List.nil_append, stop]
        decide
      rw [if_pos short]
      exact ⟨rfl, rfl⟩
    · rename_i front last
      have nonempty : front ++ [last] ≠ [] := List.append_ne_nil_of_right_ne_nil front (List.cons_ne_nil last [])
      have more := (foreign.resolve_left nonempty).resolve_left long
      rw [count_sub_one nonempty (Nat.not_lt.mp long), decimal_append_of_stop nonempty stop, if_pos (by omega)]
      exact ⟨rfl, rfl⟩

/-- With nothing but zeros behind the text, a decimal number of at most 32 characters is stored modulo
the width of the node, and what has more than one character behind its number is refused. -/
theorem write_decimal (type : NumType) (node : TypedNode (.num type)) (default : node.typeHandler = none)
    (user buffer : List UInt8) (ppos : BitVec 64) (env : WriteEnv) (copied : env.uncopied = 0)
    (zero : ∀ b ∈ buffer.drop user.length ++ env.behind, b = 0) :
    (∀ v, IsNumeral type user v → user.length ≤ localBufSize →
      (kfioInfoOsTypeWrite node user ppos env buffer).ret = user.length ∧
        (kfioInfoOsTypeWrite node user ppos env buffer).node = { node with data := BitVec.ofInt type.bits v }) ∧
    (user = [] ∨ localBufSize < user.length ∨ (type.decimal user).length + 1 < user.length →
      (kfioInfoOsTypeWrite node user ppos env buffer).ret = -einval ∧
        (kfioInfoOsTypeWrite node user ppos env buffer).node = node) := by
  refine ⟨fun v numeral fits => ?_, write_refused copied zero⟩
  rw [write_numeral default numeral fits copied (Or.inr (digits_of_zero zero))]
  exact ⟨rfl, rfl⟩

/-- The two digits of 42 and a newline are written to a node of each width. -/
theorem write_decimal_42 :
    (kfioInfoOsTypeWrite (⟨7#64, none⟩ : TypedNode (.num .uint64)) [52, 50, 10] 0#64 ⟨0, true, [], by decide⟩
      (List.replicate 32 0)).ret = 3 :=
  ((write_decimal .uint64 ⟨7#64, none⟩ rfl [52, 50, 10] (List.replicate 32 0) 0#64 ⟨0, true, [], by decide⟩ rfl
    (by simp)).1 42 (.plain [52, 50] [10] (by decide) (List.all_eq_true.mp rfl) (Or.inr rfl)) (by decide)).1

/-- A zero written with 33 digits is refused for its length. -/
theorem write_long_numeral :
    ¬ ∀ (type : NumType) (node : TypedNode (.num type)) (user buffer : List UInt8) (ppos : BitVec 64) (env : WriteEnv),
      node.typeHandler = none → env.uncopied = 0 → (∀ b ∈ buffer.drop user.length ++ env.behind, b = 0) →
        ((kfioInfoOsTypeWrite node user ppos env buffer).ret = user.length ↔
          ∃ v, IsNumeral type user v ∧ type.Represents v) ∧
        (∀ v, IsNumeral type user v → type.Represents v →
          (kfioInfoOsTypeWrite node user ppos env buffer).node = { node with data := BitVec.ofInt type.bits v }) ∧
        ((¬ ∃ v, IsNumeral type user v ∧ type.Represents v) →
          (kfioInfoOsTypeWrite node user ppos env buffer).ret < 0 ∧
            (kfioInfoOsTypeWrite node user ppos env buffer).node = node) := by
  intro always
  have accepted := (always .uint32 ⟨7#32, none⟩ (List.replicate 33 48) (List.replicate 32 0) 0#64
    ⟨0, true, [], by decide⟩ rfl rfl (by simp)).1
  have numeral : IsNumeral .uint32 (List.replicate 33 48 ++ []) (Decimal.value (List.replicate 33 48)) :=
    .plain _ [] (by decide) (List.all_eq_true.mp rfl) (Or.inl rfl)
  have small : NumType.uint32.Represents (Decimal.value (List.replicate 33 48)) := by
    unfold NumType.Represents
    decide
  exact absurd (accepted.mpr ⟨_, numeral, small⟩) (by decide)

end Writes

end IomemoryVsl
