import Mathlib.Data.Nat.Find

/-! Loops over the indices below a bound that stop at the first hit. -/

namespace FirstHit

variable {p q : Nat → Prop} {n m k j : Nat} {r : Option Nat}

/-- The first index below the bound with the property. -/
def First (p : Nat → Prop) (n k : Nat) : Prop := k < n ∧ p k ∧ ∀ j < k, ¬ p j

/-- Whatever the bounds are. -/
theorem First.unique (first : First p n k) (other : First p m j) : k = j := by
  rcases Nat.lt_trichotomy k j with less | same | greater
  · exact absurd first.2.1 (other.2.2 k less)
  · exact same
  · exact absurd other.2.1 (first.2.2 j greater)

theorem first_zero (pos : 0 < n) (hit : p 0) : First p n 0 :=
  ⟨pos, hit, fun j below => absurd below (Nat.not_lt_zero j)⟩

/-- Some hit below the bound makes a first one. -/
theorem exists_first (below : k < n) (hit : p k) : ∃ j ≤ k, First p n j := by
  classical
  have some : ∃ k, p k := ⟨k, hit⟩
  have least : Nat.find some ≤ k := Nat.find_min' some hit
  exact ⟨Nat.find some, least, Nat.lt_of_le_of_lt least below, Nat.find_spec some, fun _ => Nat.find_min some⟩

/-- The loop looks at the first `m` indices, and the result is where it stops. -/
inductive Scanned (p : Nat → Prop) (n : Nat) : Nat → Option Nat → Prop
  | none : (∀ k < n, ¬ p k) → Scanned p n n .none
  | some {k : Nat} : First p n k → Scanned p n (k + 1) (.some k)

theorem Scanned.empty : Scanned p 0 0 .none := .none fun k below => absurd below (Nat.not_lt_zero k)

theorem Scanned.here (hit : p 0) : Scanned p (n + 1) 1 (.some 0) :=
  .some (first_zero (Nat.succ_pos n) hit)

theorem Scanned.later (miss : ¬ p 0) (rest : Scanned (fun k => p (k + 1)) n m r) :
    Scanned p (n + 1) (m + 1) (r.map (· + 1)) := by
  have shift {b : Nat} (others : ∀ k < b, ¬ p (k + 1)) : ∀ k < b + 1, ¬ p k := by
    intro k below
    cases k with
    | zero => exact miss
    | succ k => exact others k (Nat.lt_of_succ_lt_succ below)
  cases rest with
  | none others => exact .none (shift others)
  | some first => exact .some ⟨Nat.succ_lt_succ first.1, first.2.1, shift first.2.2⟩

/-- If later indices lie further out, the loop stays inside when there is a hit
inside, or all indices are inside. -/
theorem Scanned.inside_iff (scanned : Scanned p n m r) (further : ∀ j k, j ≤ k → q k → q j) :
    (∀ k < m, q k) ↔ (∀ k < n, q k) ∨ ∃ k < n, p k ∧ q k := by
  cases scanned with
  | none misses =>
    refine (or_iff_left ?_).symm
    rintro ⟨k, below, hit, _⟩
    exact misses k below hit
  | @some k first =>
    constructor
    · intro inside
      exact .inr ⟨k, first.1, first.2.1, inside k (Nat.lt_succ_self k)⟩
    · rintro (all | ⟨j, below, hit, inside⟩) i early
      · exact all i (by have := first.1; omega)
      · have least : k ≤ j := Nat.le_of_not_lt fun less => first.2.2 j less hit
        exact further i j (by omega) inside

end FirstHit
