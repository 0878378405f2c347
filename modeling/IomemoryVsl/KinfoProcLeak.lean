import IomemoryVsl.KinfoProcWrite
import Mathlib.Data.List.TakeDrop

namespace IomemoryVsl

/-- A write may show what was in the buffer before: a number that ends where the user's bytes end, before the
end of the buffer, or fewer bytes than a string has. -/
def ValueType.Leaks : ValueType → List UInt8 → Prop
  | .num type, user => 0 < user.length ∧ user.length < localBufSize ∧ type.AllDigits user
  | .string size, user => user.length ≤ size ∧ user.length % 2 ^ 32 < size

/-- The result of a write does not depend on what was in the buffer before. -/
def TypedNode.Independent {type : ValueType} (node : TypedNode type) (user : List UInt8) (ppos : BitVec 64) : Prop :=
  ∀ env buffer other, buffer.length = type.bufferSize → other.length = type.bufferSize →
    kfioInfoOsTypeWrite node user ppos env buffer = kfioInfoOsTypeWrite node user ppos env other

/-- Everything is copied, there is memory, and nothing stands behind the buffer. -/
def plainEnv : WriteEnv := ⟨0, true, [], by decide⟩

section Numbers

variable {type : NumType} {node : TypedNode (.num type)} {user buffer other : List UInt8} {ppos : BitVec 64}
  {env : WriteEnv}

/-- A buffer with one digit behind the user's bytes. -/
def digitBehind (len : Nat) (digit : UInt8) : List UInt8 :=
  List.replicate len 0 ++ digit :: List.replicate (localBufSize - 1 - len) 0

theorem digitBehind_length {len : Nat} {digit : UInt8} (short : len < localBufSize) :
    (digitBehind len digit).length = localBufSize := by
  rw [digitBehind, List.length_append, List.length_replicate, List.length_cons, List.length_replicate]
  omega

theorem digitBehind_drop {len : Nat} {digit : UInt8} :
    (digitBehind len digit).drop len = digit :: List.replicate (localBufSize - 1 - len) 0 :=
  List.drop_left' List.length_replicate

theorem digits_digitBehind {len : Nat} {digit : UInt8} (isDigit : Decimal.isDigit digit = true) :
    Decimal.digits ((digitBehind len digit).drop len ++ plainEnv.behind) = [digit] := by
  have all : ∀ b ∈ [digit], Decimal.isDigit b = true := fun b member => (List.mem_singleton.mp member) ▸ isDigit
  have stop : Decimal.digits (List.replicate (localBufSize - 1 - len) 0) = [] :=
    digits_of_zero fun b member => List.eq_of_mem_replicate member
  rw [digitBehind_drop, plainEnv, List.append_nil, ← List.singleton_append, Decimal.digits_append_of_all all, stop,
    List.append_nil]

/-- A number goes on with a digit behind it. -/
theorem write_digitBehind {digit : UInt8} (default : node.typeHandler = none) (leaks : (ValueType.num type).Leaks user)
    (isDigit : Decimal.isDigit digit = true) :
    (kfioInfoOsTypeWrite node user ppos plainEnv (digitBehind user.length digit)).node.data =
      BitVec.ofInt type.bits ((if type.minus user then -1 else 1) *
        ((Decimal.value (if type.minus user then user.tail else user) * 10 + (digit.toNat - 48) : Nat) : Int)) := by
  obtain ⟨pos, short, all⟩ := leaks
  have nonempty := List.ne_nil_of_length_pos pos
  obtain ⟨decimal, value⟩ := decimal_append_of_all
    ((digitBehind user.length digit).drop user.length ++ plainEnv.behind) nonempty all
  have length : ¬ (type.decimal (user ++ ((digitBehind user.length digit).drop user.length ++ plainEnv.behind))).length <
      user.length - 1 := by
    rw [decimal, List.length_append]
    omega
  rw [write_num_copied (Nat.le_of_lt short) rfl, count_sub_one nonempty (Nat.le_of_lt short), if_neg length,
    writeValue_default default, value, digits_digitBehind isDigit, Decimal.value_append]

/-- Two digits that were left in the buffer make two numbers. -/
theorem not_independent_of_leaks (default : node.typeHandler = none) (leaks : (ValueType.num type).Leaks user) :
    ¬ node.Independent user ppos := by
  intro independent
  have short : user.length < localBufSize := leaks.2.1
  have same := independent plainEnv (digitBehind user.length 48) (digitBehind user.length 49)
    (digitBehind_length short) (digitBehind_length short)
  have data := congrArg (fun write => write.node.data) same
  rw [write_digitBehind default leaks (by decide), write_digitBehind default leaks (by decide)] at data
  have zero : (48 : UInt8).toNat - 48 = 0 := by decide
  have one : (49 : UInt8).toNat - 48 = 1 := by decide
  rw [zero, one] at data
  generalize Decimal.value (if type.minus user then user.tail else user) = number at data
  -- the two numbers differ by one, and the words are even ranges
  have apart := MachineWord.dvd_sub_of_ofInt data
  have even : (2 : Int) ∣ ((2 ^ type.bits : Nat) : Int) := by
    cases type <;> exact Int.dvd_of_emod_eq_zero rfl
  have half := Int.dvd_trans even apart
  split at half
  · omega
  · omega

theorem independent_of_not_leaks (safe : ¬ (ValueType.num type).Leaks user) : node.Independent user ppos := by
  intro env buffer other length otherLength
  rw [ValueType.bufferSize] at length otherLength
  by_cases long : localBufSize < user.length
  · rw [kfioInfoOsTypeWrite, if_pos long, kfioInfoOsTypeWrite, if_pos long]
  · have fits := Nat.not_lt.mp long
    rw [write_num fits, write_num fits]
    rcases Nat.eq_zero_or_pos user.length with none | some
    · -- nothing is written, and the comparison refuses it whatever the buffer has
      have room := env.behind_lt
      have refused : ∀ buffer : List UInt8, buffer.length = localBufSize →
          (type.decimal (user ++ (buffer.drop user.length ++ env.behind))).length <
            (user.length + (2 ^ 64 - 1)) % 2 ^ 64 := by
        intro buffer length
        have atMost := decimal_length_le type (user ++ (buffer.drop user.length ++ env.behind))
        rw [List.length_append, List.length_append, List.length_drop, length, localBufSize] at atMost
        omega
      rw [if_pos (refused buffer length), if_pos (refused other otherLength)]
    · have nonempty := List.ne_nil_of_length_pos some
      by_cases full : user.length = localBufSize
      · rw [List.drop_of_length_le (by omega), List.drop_of_length_le (by omega)]
      · have foreign : ¬ type.AllDigits user := fun all => safe ⟨some, by omega, all⟩
        rw [(decimal_append_of_not nonempty foreign).1, (decimal_append_of_not nonempty foreign).2,
          (decimal_append_of_not nonempty foreign).1, (decimal_append_of_not nonempty foreign).2]

theorem num_independent_iff (default : node.typeHandler = none) :
    node.Independent user ppos ↔ ¬ (ValueType.num type).Leaks user :=
  ⟨fun independent leaks => not_independent_of_leaks default leaks independent, independent_of_not_leaks⟩

end Numbers

section Strings

variable {size : Nat} {node : TypedNode (.string size)} {user buffer : List UInt8} {ppos : BitVec 64} {env : WriteEnv}

theorem le_bufferSize (size : Nat) : size ≤ (ValueType.string size).bufferSize := by
  rw [ValueType.bufferSize]
  split
  · exact Nat.le_refl size
  · omega

/-- What is in the buffer once the user's bytes are copied, as far as the node takes it. -/
theorem takeD_copied (fits : user.length ≤ size) (length : buffer.length = (ValueType.string size).bufferSize) :
    (user.take (user.length % 2 ^ 32) ++ buffer.drop (user.length % 2 ^ 32)).takeD size 0 =
      user.take (user.length % 2 ^ 32) ++ (buffer.drop (user.length % 2 ^ 32)).take (size - user.length % 2 ^ 32) := by
  have room := le_bufferSize size
  have cut := Nat.mod_le user.length (2 ^ 32)
  rw [List.takeD_eq_take, List.take_append, List.length_take, Nat.min_eq_left cut, List.take_of_length_le]
  · rw [List.length_take]
    omega
  · rw [List.length_append, List.length_take, List.length_drop]
    omega

/-- What a write stores when the buffer has the same byte everywhere. -/
theorem write_replicate (default : node.typeHandler = none) (fits : user.length ≤ size) (b : UInt8) :
    (kfioInfoOsTypeWrite node user ppos plainEnv (List.replicate (ValueType.string size).bufferSize b)).node.data.val =
      user.take (user.length % 2 ^ 32) ++ List.replicate (size - user.length % 2 ^ 32) b := by
  have memory : ¬ (localBufSize < size ∧ plainEnv.vmalloc = false) := fun both => absurd both.2 (by decide)
  have all : ¬ (BitVec.ofNat 32 (min plainEnv.uncopied (user.length % 2 ^ 32))).toInt ≠ 0 := by
    rw [show plainEnv.uncopied = 0 from rfl, Nat.zero_min]
    decide
  have room := le_bufferSize size
  rw [kfioInfoOsTypeWrite, if_neg memory, if_neg (Nat.not_lt.mpr fits)]
  dsimp only [kfioCopyFromUser]
  rw [if_neg all, writeValue_default default]
  refine (takeD_copied fits List.length_replicate).trans ?_
  rw [List.drop_replicate, List.take_replicate, Nat.min_eq_left (Nat.sub_le_sub_right room _)]

/-- Two bytes that were left in the buffer make two strings. -/
theorem string_not_independent_of_leaks (default : node.typeHandler = none)
    (leaks : (ValueType.string size).Leaks user) : ¬ node.Independent user ppos := by
  intro independent
  obtain ⟨fits, short⟩ := leaks
  have same := independent plainEnv (List.replicate _ 0) (List.replicate _ 1) List.length_replicate
    List.length_replicate
  have data := congrArg (fun write => write.node.data.val) same
  rw [write_replicate default fits, write_replicate default fits, List.append_cancel_left_eq, List.replicate_inj] at data
  rcases data.2 with none | bytes
  · omega
  · exact absurd bytes (by decide)

theorem string_independent_of_not_leaks (safe : ¬ (ValueType.string size).Leaks user) :
    node.Independent user ppos := by
  intro env buffer other length otherLength
  rw [kfioInfoOsTypeWrite, kfioInfoOsTypeWrite]
  by_cases memory : localBufSize < size ∧ env.vmalloc = false
  · rw [if_pos memory, if_pos memory]
  · rw [if_neg memory, if_neg memory]
    by_cases long : size < user.length
    · rw [if_pos long, if_pos long]
    · have fits := Nat.not_lt.mp long
      have whole : size ≤ user.length % 2 ^ 32 := Nat.not_lt.mp fun short => safe ⟨fits, short⟩
      have nothing : size - user.length % 2 ^ 32 = 0 := by omega
      have first := takeD_copied fits length
      have second := takeD_copied fits otherLength
      rw [nothing, List.take_zero] at first second
      rw [if_neg long, if_neg long]
      dsimp only [kfioCopyFromUser]
      simp only [first, second]

theorem string_independent_iff (default : node.typeHandler = none) :
    node.Independent user ppos ↔ ¬ (ValueType.string size).Leaks user :=
  ⟨fun independent leaks => string_not_independent_of_leaks default leaks independent, string_independent_of_not_leaks⟩

end Strings

/-- A write depends on nothing but the user's bytes exactly when it does not leak. -/
theorem independent_iff {type : ValueType} (node : TypedNode type) (user : List UInt8) (ppos : BitVec 64)
    (default : node.typeHandler = none) : node.Independent user ppos ↔ ¬ type.Leaks user := by
  cases type with
  | num type => exact num_independent_iff default
  | string size => exact string_independent_iff default

/-- A digit with a newline. -/
theorem independent_newline : (⟨7#32, none⟩ : TypedNode (.num .uint32)).Independent [53, 10] 0#64 := by
  refine (independent_iff _ [53, 10] 0#64 rfl).mpr fun leaks => ?_
  exact absurd leaks.2.2 (by decide)

/-- The digit 5 alone goes on with a digit that was left in the buffer. -/
theorem write_leaks :
    ¬ ∀ (type : ValueType) (node : TypedNode type) (user : List UInt8) (ppos : BitVec 64), node.typeHandler = none →
      node.Independent user ppos := by
  intro always
  have same := always (.num .uint32) ⟨7#32, none⟩ [53] 0#64 rfl plainEnv (List.replicate 32 0)
    ([0, 49] ++ List.replicate 30 0) rfl rfl
  have data := congrArg (fun write => write.node.data) same
  exact absurd data (by decide)

end IomemoryVsl
