import Mathlib.Data.List.Basic
import Mathlib.Logic.Function.Basic

/-! Lists of values in a memory, and copies of them. -/

namespace ByteMemory

variable {β : Type*} {mem : Nat → β} {a b n i : Nat} {x : β} {xs ys : List β}

/-- The values stand one after the other from address `a` on. -/
def Holds (mem : Nat → β) : Nat → List β → Prop
  | _, [] => True
  | a, x :: xs => mem a = x ∧ Holds mem (a + 1) xs

theorem holds_append : Holds mem a (xs ++ ys) ↔ Holds mem a xs ∧ Holds mem (a + xs.length) ys := by
  induction xs generalizing a with
  | nil => simp [Holds]
  | cons x xs ih =>
    rw [List.cons_append, Holds, Holds, ih, and_assoc, List.length_cons, Nat.add_assoc a 1, Nat.add_comm 1]

/-- A list is held by its addresses alone. -/
theorem Holds.congr {other : Nat → β} (holds : Holds mem a xs)
    (same : ∀ i, a ≤ i → i < a + xs.length → other i = mem i) : Holds other a xs := by
  induction xs generalizing a with
  | nil => trivial
  | cons x xs ih =>
    rw [List.length_cons] at same
    refine ⟨(same a (Nat.le_refl a) (by omega)).trans holds.1, ih holds.2 fun i low high => ?_⟩
    exact same i (by omega) (by omega)

theorem Holds.take (holds : Holds mem a xs) (n : Nat) : Holds mem a (xs.take n) := by
  rw [← List.take_append_drop n xs] at holds
  exact (holds_append.mp holds).1

/-- A value behind those that are in the memory. -/
theorem Holds.snoc (holds : Holds mem a xs) : Holds (Function.update mem (a + xs.length) x) a (xs ++ [x]) := by
  refine holds_append.mpr ⟨holds.congr fun i _ high => ?_, Function.update_self _ _ _, trivial⟩
  exact Function.update_of_ne (Nat.ne_of_lt high) _ _

/-- The memory after the values are written from address `a` on. -/
def memcpy (mem : Nat → β) (a : Nat) (xs : List β) : Nat → β :=
  fun i => if a ≤ i then (xs[i - a]?).getD (mem i) else mem i

theorem memcpy_of_lt (before : i < a) : memcpy mem a xs i = mem i := if_neg (Nat.not_le.mpr before)

theorem memcpy_of_ge (after : a + xs.length ≤ i) : memcpy mem a xs i = mem i := by
  have past : xs.length ≤ i - a := by omega
  rw [memcpy, List.getElem?_eq_none past, Option.getD_none, ite_self]

theorem memcpy_nil : memcpy mem a [] = mem := by
  funext i
  rw [memcpy, List.getElem?_nil, Option.getD_none, ite_self]

theorem memcpy_replicate (low : a ≤ i) (high : i < a + n) : memcpy mem a (List.replicate n x) i = x := by
  have inside : i - a < n := by omega
  rw [memcpy, if_pos low, List.getElem?_replicate_of_lt inside, Option.getD_some]

theorem memcpy_cons : memcpy mem a (x :: xs) = memcpy (Function.update mem a x) (a + 1) xs := by
  funext i
  unfold memcpy
  by_cases same : i = a
  · rw [same, if_pos (Nat.le_refl a), if_neg (Nat.not_succ_le_self a), Nat.sub_self, List.getElem?_cons_zero,
      Option.getD_some, Function.update_self]
  · by_cases low : a ≤ i
    · obtain ⟨j, rfl⟩ : ∃ j, i = a + 1 + j := ⟨i - (a + 1), by omega⟩
      have index : a + 1 + j - a = j + 1 := by omega
      have next : a + 1 + j - (a + 1) = j := by omega
      rw [if_pos low, if_pos (Nat.le_add_right _ _), index, next, List.getElem?_cons_succ, Function.update_of_ne same]
    · rw [if_neg low, if_neg (by omega), Function.update_of_ne same]

theorem holds_memcpy : Holds (memcpy mem a xs) a xs := by
  induction xs generalizing mem a with
  | nil => trivial
  | cons x xs ih =>
    rw [memcpy_cons]
    refine ⟨?_, ih⟩
    rw [memcpy_of_lt (Nat.lt_succ_self a), Function.update_self]

/-- Values behind those that are in the memory. -/
theorem Holds.memcpy (holds : Holds mem a xs) (ys : List β) :
    Holds (ByteMemory.memcpy mem (a + xs.length) ys) a (xs ++ ys) :=
  holds_append.mpr ⟨holds.congr fun _ _ high => memcpy_of_lt high, holds_memcpy⟩

/-- The memory after `n` values from address `b` on are moved to address `a`. -/
def memmove (mem : Nat → β) (a b n : Nat) : Nat → β :=
  fun i => if a ≤ i ∧ i < a + n then mem (b + (i - a)) else mem i

theorem memmove_of_not (outside : ¬ (a ≤ i ∧ i < a + n)) : memmove mem a b n i = mem i := if_neg outside

theorem holds_memmove (holds : Holds mem b xs) (fits : xs.length ≤ n) : Holds (memmove mem a b n) a xs := by
  suffices moved : ∀ j, j + xs.length ≤ n → Holds mem (b + j) xs → Holds (memmove mem a b n) (a + j) xs from
    moved 0 (by omega) holds
  clear holds fits
  induction xs with
  | nil => exact fun _ _ _ => trivial
  | cons x xs ih =>
    intro j fits holds
    rw [List.length_cons] at fits
    refine ⟨?_, ih (j + 1) (by omega) holds.2⟩
    rw [memmove, if_pos ⟨Nat.le_add_right _ _, by omega⟩, Nat.add_sub_cancel_left]
    exact holds.1

section Copies

variable {α γ : Type*} [DecidableEq α] {cells : α → γ} {pairs more : List (α × α)} {c : α}

/-- The memory after each first cell of a pair has got the value of the second one. -/
def copyAll (cells : α → γ) (pairs : List (α × α)) : α → γ :=
  pairs.foldl (fun cells pair => Function.update cells pair.1 (cells pair.2)) cells

theorem copyAll_append : copyAll cells (pairs ++ more) = copyAll (copyAll cells pairs) more := List.foldl_append ..

theorem copyAll_of_notMem (outside : c ∉ pairs.map Prod.fst) : copyAll cells pairs c = cells c := by
  induction pairs generalizing cells with
  | nil => rfl
  | cons pair pairs ih =>
    rw [List.map_cons, List.mem_cons, not_or] at outside
    rw [copyAll, List.foldl_cons, ← copyAll, ih outside.2, Function.update_of_ne outside.1]

/-- When no cell is both read and written, a written cell has the value of one of
the cells that are copied to it. -/
theorem copyAll_mem (apart : ∀ p ∈ pairs, ∀ q ∈ pairs, p.2 ≠ q.1) (inside : c ∈ pairs.map Prod.fst) :
    ∃ p ∈ pairs, p.1 = c ∧ copyAll cells pairs c = cells p.2 := by
  induction pairs generalizing cells with
  | nil => cases inside
  | cons pair pairs ih =>
    rw [copyAll, List.foldl_cons, ← copyAll]
    by_cases later : c ∈ pairs.map Prod.fst
    · have rest (p : α × α) (member : p ∈ pairs) (q : α × α) (also : q ∈ pairs) : p.2 ≠ q.1 :=
        apart p (List.mem_cons_of_mem _ member) q (List.mem_cons_of_mem _ also)
      obtain ⟨p, member, target, value⟩ := ih rest later
      have unread := apart p (List.mem_cons_of_mem _ member) pair List.mem_cons_self
      refine ⟨p, List.mem_cons_of_mem _ member, target, ?_⟩
      rw [value, Function.update_of_ne unread]
    · have here : c = pair.1 := by
        rw [List.map_cons, List.mem_cons] at inside
        exact inside.resolve_right later
      refine ⟨pair, List.mem_cons_self, here.symm, ?_⟩
      rw [copyAll_of_notMem later, here, Function.update_self]

theorem copyAll_zip {ds ss : List α} {i : Nat} {d s : α} (nodup : ds.Nodup) (apart : ∀ d ∈ ds, ∀ s ∈ ss, s ≠ d)
    (target : ds[i]? = some d) (source : ss[i]? = some s) : copyAll cells (ds.zip ss) d = cells s := by
  have pair : (ds.zip ss)[i]? = some (d, s) := List.getElem?_zip_eq_some.mpr ⟨target, source⟩
  have member : d ∈ (ds.zip ss).map Prod.fst := List.mem_map_of_mem (List.mem_of_getElem? pair)
  have separate (p : α × α) (first : p ∈ ds.zip ss) (q : α × α) (second : q ∈ ds.zip ss) : p.2 ≠ q.1 :=
    apart q.1 (List.of_mem_zip second).1 p.2 (List.of_mem_zip first).2
  obtain ⟨p, inside, same, value⟩ := copyAll_mem separate member
  obtain ⟨j, here⟩ := List.getElem?_of_mem inside
  obtain ⟨first, second⟩ := List.getElem?_zip_eq_some.mp here
  rw [same] at first
  have index : i = j :=
    (List.getElem?_inj (List.getElem?_eq_some_iff.mp target).1 nodup).mp (target.trans first.symm)
  rw [← index, source] at second
  rw [value, Option.some.inj second]

variable {ds ss ps qs : List α}

/-- A copy that moves the values of some cells to others, whatever these are, goes to
exactly those. -/
theorem copyAll_targets [Nontrivial γ] (whole : ds.length = ss.length) (pairs : ps.length = qs.length)
    (apart : ∀ d ∈ ds ++ ps, ∀ s ∈ ss ++ qs, s ≠ d)
    (copied : ∀ (cells : α → γ) (i : Nat) (d s : α), ps[i]? = some d → qs[i]? = some s →
      copyAll cells (ds.zip ss) d = cells s)
    (other : ∀ cells : α → γ, ∀ c ∉ ps, copyAll cells (ds.zip ss) c = cells c) (c : α) : c ∈ ds ↔ c ∈ ps := by
  obtain ⟨x, y, different⟩ := exists_pair_ne γ
  -- the cells that are read differ from those that are written
  obtain ⟨cells, source, target⟩ : ∃ cells : α → γ,
      (∀ s ∈ ss ++ qs, cells s = x) ∧ ∀ d ∈ ds ++ ps, cells d = y :=
    ⟨fun c => if c ∈ ss ++ qs then x else y, fun s member => if_pos member,
      fun d member => if_neg fun also => apart d member d also rfl⟩
  have fst : (ds.zip ss).map Prod.fst = ds := List.map_fst_zip (Nat.le_of_eq whole)
  constructor
  · intro written
    by_contra outside
    have separate (p : α × α) (first : p ∈ ds.zip ss) (q : α × α) (second : q ∈ ds.zip ss) : p.2 ≠ q.1 :=
      apart q.1 (List.mem_append_left _ (List.of_mem_zip second).1) p.2
        (List.mem_append_left _ (List.of_mem_zip first).2)
    have value : ∃ p ∈ ds.zip ss, p.1 = c ∧ copyAll cells (ds.zip ss) c = cells p.2 :=
      copyAll_mem separate (by rw [fst]; exact written)
    obtain ⟨p, inside, _, value⟩ := value
    rw [other cells c outside, target c (List.mem_append_left _ written),
      source p.2 (List.mem_append_left _ (List.of_mem_zip inside).2)] at value
    exact different value.symm
  · intro wanted
    by_contra outside
    obtain ⟨i, below, here⟩ := List.getElem_of_mem wanted
    have also : i < qs.length := pairs ▸ below
    have value := copied cells i c qs[i] (List.getElem?_eq_some_iff.mpr ⟨below, here⟩) (List.getElem?_eq_getElem also)
    have unwritten : c ∉ (ds.zip ss).map Prod.fst := by rw [fst]; exact outside
    rw [copyAll_of_notMem unwritten, target c (List.mem_append_right _ wanted),
      source _ (List.mem_append_right _ (List.getElem_mem also))] at value
    exact different value.symm

/-- And it reads exactly the cells that it has to. -/
theorem copyAll_sources [Nontrivial γ] (nodup : ds.Nodup) (whole : ds.length = ss.length)
    (pairs : ds.length = qs.length) (apart : ∀ d ∈ ds, ∀ s ∈ ss, s ≠ d)
    (copied : ∀ (cells : α → γ) (i : Nat) (d s : α), ds[i]? = some d → qs[i]? = some s →
      copyAll cells (ds.zip ss) d = cells s) : ss = qs := by
  obtain ⟨x, y, different⟩ := exists_pair_ne γ
  refine List.ext_getElem (whole.symm.trans pairs) fun i first second => ?_
  have below : i < ds.length := whole ▸ first
  have value := copied (fun c => if c = qs[i] then x else y) i ds[i] qs[i] (List.getElem?_eq_getElem below)
    (List.getElem?_eq_getElem second)
  rw [copyAll_zip nodup apart (List.getElem?_eq_getElem below) (List.getElem?_eq_getElem first), if_pos rfl] at value
  by_contra other
  rw [if_neg other] at value
  exact different value.symm

end Copies

end ByteMemory
