import Mathlib.Data.Int.CardIntervalMod
import Mathlib.Data.Nat.Count

/-! Numbers for the full places of a row: place by place they are those that a second search finds,
which looks for full places up to a bound and goes on in single steps from there. And places
that are dealt out in turns. -/

namespace Renumber

variable {full : Nat → Prop} [DecidablePred full] {m n c d i j k : Nat}

/-- The search goes from `c` to the next full place, and no farther than the bound unless it
is there already. -/
structure Advance (full : Nat → Prop) (m c d : Nat) : Prop where
  lt : c < d
  between : ∀ i, c < i → i < d → ¬ full i ∧ i < m
  stop : full d ∨ m ≤ d

/-- The full places that the search finds as such. -/
def Inner (full : Nat → Prop) (m i : Nat) : Prop := (0 < i ∧ i < m) ∧ full i

/-- The other full places. -/
def Outer (full : Nat → Prop) (m i : Nat) : Prop := (i = 0 ∨ m ≤ i) ∧ full i

instance : DecidablePred (Inner full m) := fun i => inferInstanceAs (Decidable ((0 < i ∧ i < m) ∧ full i))

instance : DecidablePred (Outer full m) := fun i => inferInstanceAs (Decidable ((i = 0 ∨ m ≤ i) ∧ full i))

/-- The search stands at `c` after it went on `j` times from 0. -/
structure Reached (full : Nat → Prop) [DecidablePred full] (m j c : Nat) : Prop where
  place : if c < m then Nat.count (Inner full m) (c + 1) = j else c + 1 + Nat.count (Inner full m) m = m + j
  stop : c = 0 ∨ full c ∨ m ≤ c

theorem reached_zero (pos : 0 < m) : Reached full m 0 0 := by
  have first : ¬ Inner full m 0 := fun inner => absurd inner.1.1 (Nat.lt_irrefl 0)
  refine ⟨?_, Or.inl rfl⟩
  rw [if_pos pos, Nat.count_succ, Nat.count_zero, if_neg first]

/-- Places that are not counted do not change a count. -/
theorem count_eq_of_not {p : Nat → Prop} [DecidablePred p] (le : c ≤ d) (empty : ∀ i, c ≤ i → i < d → ¬ p i) :
    Nat.count p d = Nat.count p c := by
  induction d with
  | zero => rw [Nat.le_zero.mp le]
  | succ d ih =>
    rcases Nat.lt_or_ge d c with same | before
    · rw [Nat.le_antisymm le same]
    · rw [Nat.count_succ, if_neg (empty d before (Nat.lt_succ_self d)), Nat.add_zero]
      exact ih before fun i low high => empty i low (Nat.lt_succ_of_lt high)

theorem count_congr {p q : Nat → Prop} [DecidablePred p] [DecidablePred q] (same : ∀ i < n, p i ↔ q i) :
    Nat.count p n = Nat.count q n := by
  apply Nat.le_antisymm
  · exact Nat.count_mono_left fun i low => (same i low).mp
  · exact Nat.count_mono_left fun i low => (same i low).mpr

theorem count_inner_of_le (le : m ≤ n) : Nat.count (Inner full m) n = Nat.count (Inner full m) m :=
  count_eq_of_not le fun _ low _ inner => absurd inner.1.2 (Nat.not_lt.mpr low)

/-- The search goes on to the next place. -/
theorem Reached.advance (reached : Reached full m j c) (step : Advance full m c d) : Reached full m (j + 1) d := by
  have forward := step.lt
  have near : d ≤ max m (c + 1) := by
    by_contra far
    have inside := step.between (max m (c + 1)) (by omega) (by omega)
    omega
  have empty : ∀ i, c + 1 ≤ i → i < d → ¬ Inner full m i :=
    fun i low high inner => (step.between i low high).1 inner.2
  have kept : Nat.count (Inner full m) d = Nat.count (Inner full m) (c + 1) := count_eq_of_not forward empty
  have reached := reached.place
  refine ⟨?_, Or.inr step.stop⟩
  by_cases before : c < m
  · rw [if_pos before] at reached
    by_cases inside : d < m
    · have found : Inner full m d := ⟨⟨by omega, inside⟩, step.stop.resolve_right (by omega)⟩
      rw [if_pos inside, Nat.count_succ, if_pos found, kept, reached]
    · have atBound : d = m := by omega
      rw [atBound] at kept ⊢
      rw [if_neg (Nat.lt_irrefl m)]
      omega
  · rw [if_neg before] at reached
    rw [if_neg (by omega)]
    omega

/-- The search stands at a place at one time only. -/
theorem Reached.inj (first : Reached full m j c) (second : Reached full m k c) : j = k := by
  have first := first.place
  have second := second.place
  split at first
  · rename_i inside
    rw [if_pos inside] at second
    exact first.symm.trans second
  · rename_i outside
    rw [if_neg outside] at second
    omega

/-- The search is below the bound as long as it has inner places to go to. -/
theorem Reached.lt_iff (reached : Reached full m j c) : c < m ↔ j ≤ Nat.count (Inner full m) m := by
  have reached := reached.place
  constructor
  · intro inside
    rw [if_pos inside] at reached
    rw [← reached]
    exact Nat.count_monotone _ inside
  · intro few
    by_contra outside
    rw [if_neg outside] at reached
    omega

theorem Reached.eq_of_lt (reached : Reached full m j c) (many : Nat.count (Inner full m) m < j) :
    c + 1 + Nat.count (Inner full m) m = m + j := by
  have outside : ¬ c < m := fun inside => absurd (reached.lt_iff.mp inside) (Nat.not_le.mpr many)
  have place := reached.place
  rwa [if_neg outside] at place

/-- The search is below a limit as long as there are places below both the limit and the bound to
go to, and those from the bound on that are below the limit. -/
theorem Reached.lt_limit_iff {limit : Nat} (reached : Reached full m j c) (pos : 0 < limit) :
    c < limit ↔ j ≤ Nat.count (Inner full (min limit m)) (min limit m) + (limit - m) := by
  rcases Nat.lt_or_ge m limit with beyond | within
  · have place := reached.place
    have below := reached.lt_iff
    rw [Nat.min_eq_right (Nat.le_of_lt beyond)]
    split at place
    · rename_i inside
      have few := below.mp inside
      omega
    · omega
  · have same : Nat.count (Inner full limit) limit = Nat.count (Inner full m) limit :=
      count_congr fun i low => and_congr_left' (and_congr_right' ⟨fun _ => by omega, fun _ => low⟩)
    rw [Nat.min_eq_left within, same, Nat.sub_eq_zero_of_le within, Nat.add_zero]
    constructor
    · intro inside
      have place := reached.place
      rw [if_pos (by omega)] at place
      rw [← place]
      exact Nat.count_monotone _ inside
    · intro few
      by_contra outside
      have more : Nat.count (Inner full m) limit ≤ Nat.count (Inner full m) m := Nat.count_monotone _ within
      have inside := reached.lt_iff.mpr (few.trans more)
      have place := reached.place
      have isInner : Inner full m c :=
        ⟨⟨by omega, inside⟩, (reached.stop.resolve_left (by omega)).resolve_right (by omega)⟩
      have before : Nat.count (Inner full m) limit ≤ Nat.count (Inner full m) c := Nat.count_monotone _ (by omega)
      rw [if_pos inside, Nat.count_succ, if_pos isInner] at place
      omega

/-- A full place is an inner or an outer one. -/
theorem count_eq_inner_add_outer :
    Nat.count full n = Nat.count (Inner full m) n + Nat.count (Outer full m) n := by
  induction n with
  | zero => rfl
  | succ n ih =>
    rw [Nat.count_succ, Nat.count_succ, Nat.count_succ, ih]
    by_cases isFull : full n
    · by_cases inside : 0 < n ∧ n < m
      · have notOuter : ¬ Outer full m n := fun outer => by
          have := outer.1
          omega
        have isInner : Inner full m n := ⟨inside, isFull⟩
        rw [if_pos isFull, if_pos isInner, if_neg notOuter]
        omega
      · have notInner : ¬ Inner full m n := fun inner => inside inner.1
        have isOuter : Outer full m n := ⟨by omega, isFull⟩
        rw [if_pos isFull, if_neg notInner, if_pos isOuter]
        omega
    · have notInner : ¬ Inner full m n := fun inner => isFull inner.2
      have notOuter : ¬ Outer full m n := fun outer => isFull outer.2
      rw [if_neg isFull, if_neg notInner, if_neg notOuter]
      omega

/-- After all full places the search stands below the bound, or as far from it as there
are outer places. -/
theorem Reached.last (reached : Reached full m (Nat.count full n) c) (le : m ≤ n) :
    if Nat.count (Outer full m) n = 0 then c < m else c + 1 = m + Nat.count (Outer full m) n := by
  have total : Nat.count full n = _ := count_eq_inner_add_outer (m := m)
  rw [count_inner_of_le le] at total
  split
  · rename_i none
    exact reached.lt_iff.mpr (by omega)
  · rename_i some
    have place := reached.eq_of_lt (by omega)
    omega

/-- The last full place has all others before it. -/
theorem exists_last (some : 0 < Nat.count full n) : ∃ i < n, full i ∧ Nat.count full i + 1 = Nat.count full n := by
  induction n with
  | zero =>
    rw [Nat.count_zero] at some
    omega
  | succ n ih =>
    by_cases isFull : full n
    · refine ⟨n, Nat.lt_succ_self n, isFull, ?_⟩
      rw [Nat.count_succ, if_pos isFull]
    · rw [Nat.count_succ, if_neg isFull, Nat.add_zero] at some ⊢
      obtain ⟨i, low, last⟩ := ih some
      exact ⟨i, Nat.lt_succ_of_lt low, last⟩

section Dealing

variable {p : Nat → Prop} [DecidablePred p] {q r s n : Nat}

/-- What is dealt out in turns: of those that take part, every `q`-th one is dealt the same. -/
theorem count_dealt : Nat.count (fun i => p i ∧ Nat.count p i % q = r) n =
    Nat.count (fun x => x % q = r) (Nat.count p n) := by
  induction n with
  | zero => rfl
  | succ n ih =>
    rw [Nat.count_succ, Nat.count_succ, ih]
    by_cases takes : p n
    · rw [if_pos takes, Nat.count_succ]
      simp only [takes, true_and]
    · rw [if_neg takes, Nat.add_zero, if_neg fun dealt => takes dealt.1, Nat.add_zero]

/-- In turns no one is dealt more than one more than another. -/
theorem count_residue_le (first : r < q) (second : s < q) :
    Nat.count (fun x => x % q = r) n ≤ Nat.count (fun x => x % q = s) n + 1 := by
  have pos : 0 < q := by omega
  have share : ∀ v < q, Nat.count (fun x => x % q = v) n = n / q + if v < n % q then 1 else 0 := by
    intro v below
    have same : ∀ x < n, x % q = v ↔ x ≡ v [MOD q] := fun x _ => by rw [Nat.ModEq, Nat.mod_eq_of_lt below]
    rw [count_congr same, Nat.count_modEq_card n pos v, Nat.mod_eq_of_lt below]
  rw [share r first, share s second]
  split
  · split
    · omega
    · omega
  · omega

end Dealing

end Renumber
