import IomemoryVsl.ByteMemory
import IomemoryVsl.KinfoSound

namespace IomemoryVsl

open ByteMemory

/-- `kfio_strcmp` of a name and the string at `p`, which finds them equal. -/
def strcmp (mem : Nat → UInt8) : List UInt8 → Nat → Bool
  | [], p => mem p == 0
  | c :: name, p => mem p == c && strcmp mem name (p + 1)

theorem strcmp_iff {mem : Nat → UInt8} {name word : List UInt8} {p : Nat} (nameNul : 0 ∉ name) (wordNul : 0 ∉ word)
    (holds : Holds mem p (word ++ [0])) : strcmp mem name p = true ↔ name = word := by
  induction name generalizing word p with
  | nil =>
    cases word with
    | nil => simp [strcmp, holds.1]
    | cons c word =>
      have apart : c ≠ 0 := fun same => wordNul (same ▸ List.mem_cons_self)
      have first : mem p = c := holds.1
      simp [strcmp, first, apart]
  | cons c name ih =>
    have notNul : 0 ∉ name := fun member => nameNul (List.mem_cons_of_mem _ member)
    cases word with
    | nil =>
      have apart : 0 ≠ c := fun same => nameNul (same ▸ List.mem_cons_self)
      have first : mem p = 0 := holds.1
      simp [strcmp, first, apart]
    | cons d word =>
      have first : mem p = d := holds.1
      have rest := ih notNul (fun member => wordNul (List.mem_cons_of_mem _ member)) holds.2
      rw [strcmp, first, Bool.and_eq_true, rest, beq_iff_eq, List.cons.injEq, eq_comm]

theorem CStr.eq_of_bytes {s t : CStr} (same : s.bytes = t.bytes) : s = t := by
  cases s
  cases t
  cases same
  rfl

/-- The non-empty parts of a string between its dots. -/
def components (s : List UInt8) : List (List UInt8) := (s.splitOn 46).filter (· ≠ [])

section Components

variable {s word : List UInt8}

theorem components_nil : components [] = [] := rfl

theorem components_dot (s : List UInt8) : components (46 :: s) = components s := by
  rw [components, components, List.splitOn_eq_splitOnP, List.splitOnP_cons_eq_if_modifyHead]
  simp [List.splitOn_eq_splitOnP]

theorem components_word (some : word ≠ []) (plain : 46 ∉ word) : components word = [word] := by
  have single : word.splitOn 46 = [word] := by
    rw [List.splitOn_eq_splitOnP]
    refine List.splitOnP_eq_singleton fun c member => ?_
    rw [beq_eq_false_iff_ne]
    rintro rfl
    exact plain member
  simp [components, single, some]

theorem components_word_dot (some : word ≠ []) (plain : 46 ∉ word) (s : List UInt8) :
    components (word ++ 46 :: s) = word :: components s := by
  have first : (word ++ 46 :: s).splitOn 46 = word :: s.splitOn 46 := by
    rw [List.splitOn_eq_splitOnP, List.splitOn_eq_splitOnP]
    refine List.splitOnP_append_cons_of_forall_mem (fun c member => ?_) 46 rfl s
    rw [beq_eq_false_iff_ne]
    rintro rfl
    exact plain member
  simp [components, first, some]

end Components

namespace Kinfo

/-- The first loop of `kfio_info_find_node`. -/
def skipDots (mem : Nat → UInt8) : Nat → Nat → Option Nat
  | 0, _ => none
  | fuel + 1, p => if mem p = 46 then skipDots mem fuel (p + 1) else some p

/-- The second loop. -/
def skipName (mem : Nat → UInt8) : Nat → Nat → Option Nat
  | 0, _ => none
  | fuel + 1, q => if mem q ≠ 0 ∧ mem q ≠ 46 then skipName mem fuel (q + 1) else some q

/-- `kfio_info_lookup_node` with the name at address `p`. -/
def lookupAt (k : Kinfo) (mem : Nat → UInt8) (parent p : Nat) : Option Nat :=
  (k.subnodesOf parent).find? fun n => (k.nodes n).any fun node => strcmp mem node.name.bytes p

/-- Nothing comes back when the string has no end within `fuel` bytes. -/
def findLoop (k : Kinfo) : Nat → Option Nat → (Nat → UInt8) → Nat → Option (Option Nat × (Nat → UInt8))
  | _, none, mem, _ => some (none, mem)
  | 0, some _, _, _ => none
  | fuel + 1, some n, mem, p =>
    (skipDots mem (fuel + 1) p).bind fun p =>
      (skipName mem (fuel + 1) p).bind fun q =>
        if p = q then
          some (some n, mem)
        else
          let orig := mem q
          let mem := Function.update mem q 0
          let nodep := if k.isDir n then k.lookupAt mem n p else none
          findLoop k fuel nodep (Function.update mem q orig) q

def kfioInfoFindNode (k : Kinfo) (fuel : Nat) (topnode : Option Nat) (mem : Nat → UInt8) (fullname : Nat) :
    Option (Option Nat × (Nat → UInt8)) :=
  k.findLoop fuel topnode mem fullname

/-- A child with the given name. -/
def childNamed (k : Kinfo) (n : Nat) (word : List UInt8) : Option Nat :=
  (k.subnodesOf n).find? fun c => (k.nodes c).any fun node => node.name.bytes == word

/-- Looks up one name after the other. -/
def walk (k : Kinfo) (n : Nat) : List (List UInt8) → Option Nat
  | [] => some n
  | word :: rest => if k.isDir n then (k.childNamed n word).bind fun c => k.walk c rest else none

section Scan

variable {k : Kinfo} {mem : Nat → UInt8} {s : List UInt8} {p fuel : Nat}

theorem skipDots_spec (holds : Holds mem p (s ++ [0])) (notNul : 0 ∉ s) (enough : s.length < fuel) :
    ∃ q t, skipDots mem fuel p = some q ∧ Holds mem q (t ++ [0]) ∧ 0 ∉ t ∧ t.length ≤ s.length ∧
      components t = components s ∧ ∀ rest, t ≠ 46 :: rest := by
  induction s generalizing p fuel with
  | nil =>
    obtain ⟨fuel, rfl⟩ : ∃ more, fuel = more + 1 := ⟨fuel - 1, by omega⟩
    have last : mem p = 0 := holds.1
    refine ⟨p, [], ?_, holds, notNul, Nat.le_refl _, rfl, fun rest => List.cons_ne_nil _ _ |>.symm⟩
    simp [skipDots, last]
  | cons c s ih =>
    obtain ⟨fuel, rfl⟩ : ∃ more, fuel = more + 1 := ⟨fuel - 1, by omega⟩
    have first : mem p = c := holds.1
    rw [List.length_cons] at enough
    by_cases dot : c = 46
    · obtain ⟨q, t, ran, rest, clean, shorter, same, stop⟩ :=
        ih holds.2 (fun member => notNul (List.mem_cons_of_mem _ member)) (Nat.lt_of_succ_lt_succ enough)
      refine ⟨q, t, ?_, rest, clean, Nat.le_succ_of_le shorter, ?_, stop⟩
      · rw [skipDots, if_pos (first.trans dot), ran]
      · rw [same, dot, components_dot]
    · refine ⟨p, c :: s, ?_, holds, notNul, Nat.le_refl _, rfl, fun rest same => dot (List.cons.inj same).1⟩
      rw [skipDots, if_neg (first ▸ dot)]

theorem skipName_spec (holds : Holds mem p (s ++ [0])) (notNul : 0 ∉ s) (enough : s.length < fuel) :
    ∃ word t, s = word ++ t ∧ 46 ∉ word ∧ (t = [] ∨ ∃ rest, t = 46 :: rest) ∧
      skipName mem fuel p = some (p + word.length) := by
  induction s generalizing p fuel with
  | nil =>
    obtain ⟨fuel, rfl⟩ : ∃ more, fuel = more + 1 := ⟨fuel - 1, by omega⟩
    have last : mem p = 0 := holds.1
    refine ⟨[], [], rfl, List.not_mem_nil, .inl rfl, ?_⟩
    simp [skipName, last]
  | cons c s ih =>
    obtain ⟨fuel, rfl⟩ : ∃ more, fuel = more + 1 := ⟨fuel - 1, by omega⟩
    have first : mem p = c := holds.1
    have notZero : c ≠ 0 := fun same => notNul (same ▸ List.mem_cons_self)
    rw [List.length_cons] at enough
    by_cases dot : c = 46
    · refine ⟨[], c :: s, rfl, List.not_mem_nil, .inr ⟨s, by rw [dot]⟩, ?_⟩
      simp [skipName, first, dot]
    · obtain ⟨word, t, rfl, plain, stop, ran⟩ :=
        ih holds.2 (fun member => notNul (List.mem_cons_of_mem _ member)) (Nat.lt_of_succ_lt_succ enough)
      refine ⟨c :: word, t, rfl, ?_, stop, ?_⟩
      · intro member
        rcases List.mem_cons.mp member with same | later
        · exact dot same.symm
        · exact plain later
      · rw [skipName, first, if_pos ⟨notZero, dot⟩, ran, List.length_cons, Nat.add_assoc, Nat.add_comm 1]

/-- With a NUL behind the word, the node of that name is found. -/
theorem lookupAt_cut {word t : List UInt8} (holds : Holds mem p (word ++ t)) (notNul : 0 ∉ word) (n : Nat) :
    k.lookupAt (Function.update mem (p + word.length) 0) n p = k.childNamed n word := by
  have cut : Holds (Function.update mem (p + word.length) 0) p (word ++ [0]) := (holds_append.mp holds).1.snoc
  have same (c : Nat) : ((k.nodes c).any fun node => strcmp (Function.update mem (p + word.length) 0) node.name.bytes p) =
      (k.nodes c).any fun node => node.name.bytes == word := by
    cases k.nodes c with
    | none => rfl
    | some node =>
      rw [Option.any_some, Option.any_some, Bool.eq_iff_iff, beq_iff_eq]
      exact strcmp_iff node.name.noNul notNul cut
  rw [lookupAt, childNamed, funext same]

theorem findLoop_none (fuel : Nat) (mem : Nat → UInt8) (p : Nat) : k.findLoop fuel none mem p = some (none, mem) := by
  cases fuel with
  | zero => rfl
  | succ fuel => rfl

/-- The loop takes one component of the string after the other, and puts back what it
has overwritten. -/
theorem findLoop_eq (holds : Holds mem p (s ++ [0])) (notNul : 0 ∉ s) (enough : s.length < fuel) (n : Nat) :
    k.findLoop fuel (some n) mem p = some (k.walk n (components s), mem) := by
  induction fuel generalizing s p n with
  | zero => omega
  | succ fuel ih =>
    obtain ⟨q, t, skipped, onward, clean, shorter, same, stop⟩ := skipDots_spec holds notNul enough
    obtain ⟨word, rest, rfl, plain, after, scanned⟩ := skipName_spec onward clean (Nat.lt_of_le_of_lt shorter enough)
    rw [← same]
    simp only [findLoop, skipped, scanned, Option.bind_some]
    by_cases empty : word = []
    · subst empty
      have nothing : rest = [] := by
        rcases after with done | ⟨more, dotted⟩
        · exact done
        · exact absurd dotted (stop more)
      rw [nothing, List.length_nil, Nat.add_zero, if_pos rfl]
      rfl
    · have positive : 0 < word.length := List.length_pos_iff.mpr empty
      have notEnd : 0 ∉ word := fun member => clean (List.mem_append_left _ member)
      have further : Holds mem (q + word.length) (rest ++ [0]) := by
        rw [List.append_assoc] at onward
        exact (holds_append.mp onward).2
      have split : components (word ++ rest) = word :: components rest := by
        rcases after with rfl | ⟨more, rfl⟩
        · rw [List.append_nil, components_word empty plain, components_nil]
        · rw [components_word_dot empty plain, components_dot]
      rw [List.length_append] at shorter
      rw [if_neg (by omega), Function.update_idem, Function.update_eq_self, split, walk]
      rw [List.append_assoc] at onward
      rw [lookupAt_cut onward notEnd]
      cases folder : k.isDir n with
      | false => exact findLoop_none _ _ _
      | true =>
        rw [if_pos rfl, if_pos rfl]
        cases k.childNamed n word with
        | none => exact findLoop_none _ _ _
        | some c =>
          exact ih further (fun member => clean (List.mem_append_right _ member)) (by omega) c

end Scan

/-- A tree of nodes whose siblings have different names. -/
structure IsTree (k : Kinfo) : Prop where
  child : ∀ p dir, k.nodes p = some dir → dir.type = .dir → ∀ c ∈ dir.subnodes, ∃ node,
    k.nodes c = some node ∧ node.parent = some p
  names : ∀ p dir n m left right, k.nodes p = some dir → n ∈ dir.subnodes → m ∈ dir.subnodes →
    k.nodes n = some left → k.nodes m = some right → left.name = right.name → n = m
  acyclic : ∀ n path, k.Under n n path → path = []

section Tree

variable {k : Kinfo} {n m c : Nat} {dir node : InfoNode} {path : ProcPath}

/-- An entry of a directory has it as its parent. -/
theorem IsTree.parent (tree : k.IsTree) (found : k.nodes n = some dir) (folder : dir.type = .dir)
    (member : c ∈ dir.subnodes) (known : k.nodes c = some node) : node.parent = some n := by
  obtain ⟨again, there, parent⟩ := tree.child n dir found folder c member
  rw [known, Option.some.injEq] at there
  rw [there]
  exact parent

theorem IsTree.ne_of_below {name : CStr} (tree : k.IsTree) (below : k.Under n m (path ++ [name])) : m ≠ n := by
  rintro rfl
  exact List.append_ne_nil_of_right_ne_nil path (List.cons_ne_nil name []) (tree.acyclic m _ below)

theorem Under.eq_of_nil (under : k.Under n m []) : m = n := by
  generalize empty : ([] : ProcPath) = path at under
  cases under with
  | here => rfl
  | child _ _ _ _ _ => simp at empty

theorem Under.cons (found : k.nodes n = some dir) (folder : dir.type = .dir) (member : c ∈ dir.subnodes)
    (known : k.nodes c = some node) (under : k.Under c m path) : k.Under n m (node.name :: path) := by
  induction under with
  | here => exact .child .here found folder member known
  | child _ there type inside here ih => exact .child ih there type inside here

theorem Under.uncons {name : CStr} (under : k.Under n m (name :: path)) : ∃ dir c node, k.nodes n = some dir ∧
    dir.type = .dir ∧ c ∈ dir.subnodes ∧ k.nodes c = some node ∧ node.name = name ∧ k.Under c m path := by
  generalize whole : name :: path = names at under
  induction under generalizing path with
  | here => cases whole
  | @child p m above folder last upper there type inside here ih =>
    cases above with
    | nil =>
      rw [upper.eq_of_nil] at there
      cases whole
      exact ⟨folder, m, last, there, type, inside, here, rfl, .here⟩
    | cons first above =>
      cases whole
      obtain ⟨dir, c, node, found, kind, member, known, same, rest⟩ := ih rfl
      exact ⟨dir, c, node, found, kind, member, known, same, .child rest there type inside here⟩

/-- Where names are unique, the child that is found is the one of that name. -/
theorem IsTree.childNamed_iff (tree : k.IsTree) (found : k.nodes n = some dir) {word : List UInt8} :
    k.childNamed n word = some c ↔ c ∈ dir.subnodes ∧ ∃ node, k.nodes c = some node ∧ node.name.bytes = word := by
  rw [childNamed, subnodesOf_eq found]
  constructor
  · intro first
    have passed := List.find?_some first
    obtain ⟨node, known, same⟩ := (Option.any_eq_true _ _).mp passed
    exact ⟨List.mem_of_find?_eq_some first, node, known, beq_iff_eq.mp same⟩
  · rintro ⟨member, node, known, same⟩
    cases first : dir.subnodes.find? fun c => (k.nodes c).any fun node => node.name.bytes == word with
    | none =>
      have failed := List.find?_eq_none.mp first c member
      simp [known, same] at failed
    | some d =>
      have passed := List.find?_some first
      obtain ⟨other, seen, alike⟩ := (Option.any_eq_true _ _).mp passed
      have equal : other.name = node.name := by
        apply CStr.eq_of_bytes
        rw [beq_iff_eq.mp alike, same]
      rw [tree.names n dir d c other node found (List.mem_of_find?_eq_some first) member seen known equal]

/-- Walking along names ends at the node that has them on its path. -/
theorem IsTree.walk_iff (tree : k.IsTree) {words : List (List UInt8)} :
    k.walk n words = some m ↔ ∃ path, k.Under n m path ∧ path.map CStr.bytes = words := by
  induction words generalizing n with
  | nil =>
    rw [walk, Option.some.injEq]
    constructor
    · rintro rfl
      exact ⟨[], .here, rfl⟩
    · rintro ⟨path, under, nothing⟩
      rw [List.map_eq_nil_iff.mp nothing] at under
      exact under.eq_of_nil.symm
  | cons word rest ih =>
    rw [walk]
    constructor
    · intro ran
      split at ran
      · rename_i folder
        obtain ⟨c, named, onward⟩ := Option.bind_eq_some_iff.mp ran
        obtain ⟨path, under, names⟩ := ih.mp onward
        obtain ⟨dir, found, type⟩ := (Option.any_eq_true _ _).mp folder
        obtain ⟨member, node, known, same⟩ := (tree.childNamed_iff found).mp named
        refine ⟨node.name :: path, Under.cons found (beq_iff_eq.mp type) member known under, ?_⟩
        rw [List.map_cons, same, names]
      · cases ran
    · rintro ⟨path, under, names⟩
      cases path with
      | nil => cases names
      | cons name path =>
        obtain ⟨dir, c, node, found, type, member, known, same, below⟩ := under.uncons
        rw [List.map_cons, List.cons.injEq] at names
        have named := (tree.childNamed_iff found).mpr ⟨member, node, known, (congrArg CStr.bytes same).trans names.1⟩
        rw [if_pos ((isDir_iff found).mpr type), named, Option.bind_some]
        exact ih.mpr ⟨path, below, names.2⟩

end Tree

end Kinfo

end IomemoryVsl
