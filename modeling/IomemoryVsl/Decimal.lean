import Mathlib.Data.List.TakeWhile
import Mathlib.Data.Nat.Digits.Lemmas

/-! Decimal numbers as text. -/

namespace Decimal

variable {b : UInt8} {ds s rest : List UInt8} {n k : Nat}

def isDigit (b : UInt8) : Bool := 48 ≤ b.toNat && b.toNat ≤ 57

/-- The longest run of digits that a text begins with. -/
def digits (s : List UInt8) : List UInt8 := s.takeWhile isDigit

/-- The number that is read digit by digit. -/
def value (ds : List UInt8) : Nat := ds.foldl (fun n b => n * 10 + (b.toNat - 48)) 0

def digit (d : Nat) : UInt8 := UInt8.ofNat (48 + d)

/-- The text of a number, without leading zeros. -/
def text (n : Nat) : List UInt8 := if n = 0 then [48] else (Nat.digits 10 n).reverse.map digit

theorem digit_toNat (below : n < 10) : (digit n).toNat = 48 + n := by
  rw [digit, UInt8.toNat_ofNat']
  omega

theorem isDigit_digit (below : n < 10) : isDigit (digit n) = true := by
  rw [isDigit, digit_toNat below, Bool.and_eq_true, decide_eq_true_eq, decide_eq_true_eq]
  omega

theorem isDigit_of_mem_text (member : b ∈ text n) : isDigit b = true := by
  rw [text] at member
  split at member
  · rw [List.mem_singleton.mp member]
    decide
  · obtain ⟨d, inside, rfl⟩ := List.mem_map.mp member
    exact isDigit_digit (Nat.digits_lt_base (by decide) (List.mem_reverse.mp inside))

theorem text_ne_nil : text n ≠ [] := by
  rw [text]
  split
  · exact List.cons_ne_nil _ _
  · rename_i nonzero
    intro empty
    rw [List.map_eq_nil_iff, List.reverse_eq_nil_iff, Nat.digits_eq_nil_iff_eq_zero] at empty
    exact nonzero empty

/-- A number below a power of ten has no more digits than the power. -/
theorem text_length_le (below : n < 10 ^ k) (pos : 0 < k) : (text n).length ≤ k := by
  rw [text]
  split
  · exact pos
  · rw [List.length_map, List.length_reverse]
    exact (Nat.digits_length_le_iff (by decide) n).mpr below

theorem value_append : value (s ++ [b]) = value s * 10 + (b.toNat - 48) := by
  rw [value, List.foldl_append]
  rfl

/-- The digits of a number have its value. -/
theorem value_map_digit {l : List Nat} (below : ∀ d ∈ l, d < 10) :
    value (l.reverse.map digit) = Nat.ofDigits 10 l := by
  induction l with
  | nil => rfl
  | cons d l ih =>
    have first := below d List.mem_cons_self
    have tail := ih fun e member => below e (List.mem_cons_of_mem d member)
    rw [List.reverse_cons, List.map_append, List.map_singleton, value_append, tail, digit_toNat first,
      Nat.ofDigits_cons]
    omega

theorem value_text : value (text n) = n := by
  rw [text]
  split
  · rename_i zero
    rw [zero]
    rfl
  · rw [value_map_digit fun d member => Nat.digits_lt_base (by decide) member, Nat.ofDigits_digits]

theorem digits_length_le : (digits s).length ≤ s.length := (List.takeWhile_prefix isDigit).length_le

/-- After digits alone, the digits go on with those of what follows. -/
theorem digits_append_of_all (all : ∀ b ∈ ds, isDigit b = true) : digits (ds ++ rest) = ds ++ digits rest :=
  List.takeWhile_append_of_pos all

/-- The digits of a text with another character do not depend on what follows. -/
theorem digits_append_of_exists (other : ∃ b ∈ s, isDigit b = false) : digits (s ++ rest) = digits s := by
  obtain ⟨b, member, foreign⟩ := other
  rw [digits, List.takeWhile_append, if_neg]
  · rfl
  · intro whole
    have same := (List.takeWhile_prefix isDigit).eq_of_length whole
    rw [← same] at member
    have := List.mem_takeWhile_imp member
    rw [foreign] at this
    cases this

/-- The digits end at a character that is none. -/
theorem digits_cons_of_not (foreign : isDigit b = false) : digits (b :: rest) = [] := by
  rw [digits, List.takeWhile_cons, foreign]
  rfl

theorem digits_nil : digits [] = [] := rfl

end Decimal
