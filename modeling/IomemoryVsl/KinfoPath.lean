import IomemoryVsl.KinfoFind

namespace IomemoryVsl

open ByteMemory

namespace Kinfo

/-- The loop of `kfio_info_node_pathname`, which writes the names from the end of the
buffer down. It has no place to write to when the name does not fit. A name is short,
so its length is an `int`. -/
def pathnameLoop (k : Kinfo) (topnode pathname : Nat) :
    Nat → Nat → (Nat → UInt8) → Nat → Option ((Nat → UInt8) × Option Nat)
  | 0, _, _, _ => none
  | fuel + 1, nodep, mem, cur =>
    if nodep = topnode then
      some (mem, some cur)
    else
      (k.nodes nodep).bind fun node =>
        let sln := node.name.strlen
        if cur < pathname + (sln + 1) then
          some (mem, none)
        else
          let cur := cur - (sln + 1)
          let mem := Function.update (memcpy mem cur node.name.bytes) (cur + sln) 46
          node.parent.bind fun nodep => pathnameLoop k topnode pathname fuel nodep mem cur

/-- Nothing comes back when `nodep` is not below `topnode`. -/
def kfioInfoNodePathname (k : Kinfo) (fuel topnode nodep : Nat) (mem : Nat → UInt8) (pathname len : Nat) :
    Option ((Nat → UInt8) × Int) :=
  (k.pathnameLoop topnode pathname fuel nodep mem (pathname + len)).map fun
    | (mem, none) => (mem, -einval)
    | (mem, some cur) =>
      let sln := len - (cur - pathname)
      let sln := if sln > 0 then sln - 1 else sln
      let mem := if cur > pathname then memmove mem pathname cur sln else mem
      (Function.update mem (pathname + sln) 0, sln)

end Kinfo

/-- The names with a dot behind each. -/
def dotted (path : ProcPath) : List UInt8 := path.flatMap fun name => name.bytes ++ [46]

/-- The bytes a path takes in the buffer. -/
def pathSize (path : ProcPath) : Nat := (path.map fun name => name.strlen + 1).sum

theorem length_dotted (path : ProcPath) : (dotted path).length = pathSize path := by
  rw [dotted, List.length_flatMap, pathSize]
  congr 1
  refine List.map_congr_left fun name _ => ?_
  rw [List.length_append, List.length_singleton, CStr.strlen]

theorem dotted_snoc (path : ProcPath) (name : CStr) : dotted (path ++ [name]) = dotted path ++ (name.bytes ++ [46]) := by
  rw [dotted, List.flatMap_append, List.flatMap_singleton, dotted]

theorem pathSize_snoc (path : ProcPath) (name : CStr) : pathSize (path ++ [name]) = pathSize path + (name.strlen + 1) := by
  rw [pathSize, List.map_append, List.sum_append, List.map_singleton, List.sum_singleton, pathSize]

theorem notNul_dotted (path : ProcPath) : 0 ∉ dotted path := by
  intro member
  obtain ⟨name, _, inside⟩ := List.mem_flatMap.mp member
  rcases List.mem_append.mp inside with inName | last
  · exact name.noNul inName
  · simp at last

/-- Without the last dot, the names are the components. -/
theorem components_dropLast_dotted {path : ProcPath} (plain : ∀ name ∈ path, name.bytes ≠ [] ∧ 46 ∉ name.bytes) :
    components (dotted path).dropLast = path.map CStr.bytes := by
  induction path with
  | nil => rfl
  | cons name path ih =>
    obtain ⟨filled, noDot⟩ := plain name List.mem_cons_self
    have rest := ih fun other member => plain other (List.mem_cons_of_mem _ member)
    cases path with
    | nil =>
      rw [dotted, List.flatMap_singleton, List.dropLast_concat, components_word filled noDot]
      rfl
    | cons next path =>
      have more : dotted (next :: path) ≠ [] := by
        simp [dotted]
      rw [dotted, List.flatMap_cons, ← dotted, List.dropLast_append_of_ne_nil more, List.append_assoc,
        List.singleton_append, components_word_dot filled noDot, rest]
      rfl

namespace Kinfo

variable {k : Kinfo} {top n : Nat} {path : ProcPath} {mem : Nat → UInt8} {pathname cur fuel : Nat}

theorem holds_name (mem : Nat → UInt8) (a : Nat) (name : CStr) :
    Holds (Function.update (memcpy mem a name.bytes) (a + name.strlen) 46) a (name.bytes ++ [46]) :=
  holds_memcpy.snoc

theorem name_frame {i a : Nat} (name : CStr) (outside : i < a ∨ a + (name.strlen + 1) ≤ i) :
    Function.update (memcpy mem a name.bytes) (a + name.strlen) 46 i = mem i := by
  have length : name.bytes.length = name.strlen := rfl
  rw [Function.update_of_ne (by omega)]
  rcases outside with before | after
  · exact memcpy_of_lt before
  · exact memcpy_of_ge (by omega)

/-- The loop writes the whole path below `cur` when there is room for it down to the
start of the buffer, and stops when there is none. -/
theorem IsTree.pathnameLoop (tree : k.IsTree) (under : k.Under top n path) (mem : Nat → UInt8)
    (low : pathname ≤ cur) (enough : path.length < fuel) : ∃ last, (∀ i, i < pathname ∨ cur ≤ i → last i = mem i) ∧
      (pathname + pathSize path ≤ cur →
        k.pathnameLoop top pathname fuel n mem cur = some (last, some (cur - pathSize path)) ∧
          Holds last (cur - pathSize path) (dotted path)) ∧
      (cur < pathname + pathSize path → k.pathnameLoop top pathname fuel n mem cur = some (last, none)) := by
  induction under generalizing mem cur fuel with
  | here =>
    obtain ⟨fuel, rfl⟩ : ∃ more, fuel = more + 1 := ⟨fuel - 1, by omega⟩
    refine ⟨mem, fun _ _ => rfl, fun _ => ⟨?_, trivial⟩, fun short => ?_⟩
    · rw [Kinfo.pathnameLoop, if_pos rfl]
      rfl
    · simp only [pathSize, List.map_nil, List.sum_nil] at short
      omega
  | @child p n path dir node above found folder member known ih =>
    obtain ⟨fuel, rfl⟩ : ∃ more, fuel = more + 1 := ⟨fuel - 1, by omega⟩
    have notTop := tree.ne_of_below (.child above found folder member known)
    have parent := tree.parent found folder member known
    rw [List.length_append, List.length_singleton] at enough
    rw [pathSize_snoc, dotted_snoc]
    simp only [Kinfo.pathnameLoop, if_neg notTop, known, Option.bind_some, parent]
    by_cases short : cur < pathname + (node.name.strlen + 1)
    · refine ⟨mem, fun _ _ => rfl, fun fits => ?_, fun _ => ?_⟩
      · omega
      · rw [if_pos short]
    · have lower : pathname ≤ cur - (node.name.strlen + 1) := by omega
      obtain ⟨last, frame, fits, fails⟩ := ih (Function.update
        (memcpy mem (cur - (node.name.strlen + 1)) node.name.bytes) (cur - (node.name.strlen + 1) + node.name.strlen) 46)
        lower (Nat.lt_of_succ_lt_succ enough)
      refine ⟨last, fun i outside => ?_, fun wide => ?_, fun narrow => ?_⟩
      · rw [frame i (by omega), name_frame node.name (by omega)]
      · obtain ⟨ran, stored⟩ := fits (by omega)
        rw [if_neg short, ran, Nat.sub_sub, Nat.add_comm (node.name.strlen + 1)]
        refine ⟨rfl, holds_append.mpr ⟨?_, ?_⟩⟩
        · rwa [Nat.sub_sub, Nat.add_comm (node.name.strlen + 1)] at stored
        · have place : cur - (pathSize path + (node.name.strlen + 1)) + (dotted path).length =
              cur - (node.name.strlen + 1) := by
            rw [length_dotted]
            omega
          rw [place]
          exact (holds_name mem _ node.name).congr fun i above _ => frame i (.inr above)
      · rw [if_neg short, fails (by omega)]

/-- What the function does with the names that the loop has written from `cur` on. -/
theorem holds_finish {last : Nat → UInt8} {len size : Nat} {s : List UInt8} (fits : size ≤ len)
    (length : s.length = size - 1) (stored : Holds last (pathname + len - size) s) :
    Holds (Function.update (if pathname + len - size > pathname then
      memmove last pathname (pathname + len - size) (size - 1) else last) (pathname + (size - 1)) 0)
      pathname (s ++ [0]) := by
  have moved : Holds (if pathname + len - size > pathname then
      memmove last pathname (pathname + len - size) (size - 1) else last) pathname s := by
    split
    · exact holds_memmove stored (Nat.le_of_eq length)
    · have start : pathname + len - size = pathname := by omega
      rwa [start] at stored
  rw [← length] at moved ⊢
  exact moved.snoc

/-- The function fails just when the path takes more than the buffer has, and puts the
names with dots between them into it otherwise. -/
theorem IsTree.kfioInfoNodePathname {len : Nat} (tree : k.IsTree) (under : k.Under top n path) (mem : Nat → UInt8)
    (positive : 1 ≤ len) (enough : path.length < fuel) : ∃ last rc, k.kfioInfoNodePathname fuel top n mem pathname len = some (last, rc) ∧
      (rc = -einval ↔ len < pathSize path) ∧ (∀ i, i < pathname ∨ pathname + len ≤ i → last i = mem i) ∧
      (pathSize path ≤ len →
        rc = (dotted path).dropLast.length ∧ Holds last pathname ((dotted path).dropLast ++ [0])) := by
  have length : (dotted path).dropLast.length = pathSize path - 1 := by
    rw [List.length_dropLast, length_dotted]
  obtain ⟨last, frame, fits, fails⟩ :=
    tree.pathnameLoop under mem (Nat.le_add_right pathname len) enough
  by_cases wide : pathSize path ≤ len
  · obtain ⟨ran, stored⟩ := fits (by omega)
    have used : len - (pathname + len - pathSize path - pathname) = pathSize path := by omega
    have trimmed : (if pathSize path > 0 then pathSize path - 1 else pathSize path) = pathSize path - 1 := by
      split
      · rfl
      · omega
    have whole : Holds last (pathname + len - pathSize path) (dotted path).dropLast := by
      rw [List.dropLast_eq_take]
      exact stored.take _
    refine ⟨_, _, congrArg (Option.map _) ran, ?_, ?_, fun _ => ?_⟩
    · simp only [used, trimmed, einval]
      omega
    · intro i outside
      simp only [used, trimmed]
      rw [Function.update_of_ne (by omega)]
      split
      · rw [memmove_of_not (by omega), frame i (by omega)]
      · exact frame i (by omega)
    · simp only [used, trimmed, length]
      exact ⟨trivial, holds_finish wide length whole⟩
  · refine ⟨last, -einval, ?_, ?_, ?_, fun short => absurd short wide⟩
    · rw [Kinfo.kfioInfoNodePathname, fails (by omega)]
      rfl
    · simp only [true_iff]
      omega
    · intro i outside
      exact frame i (by omega)

/-- What the calls build is a tree. -/
theorem Inv.isTree (inv : k.Inv) : k.IsTree := by
  refine ⟨fun p dir found _ c member => inv.child p dir found c member, ?_, ?_⟩
  · intro p dir n m left right found first second here there same
    exact inv.name_unique found first second here there same
  · intro n path under
    cases path with
    | nil => rfl
    | cons name path =>
      obtain ⟨dir, _, _, found, _⟩ := under.uncons
      obtain ⟨above, start⟩ := inv.has_path found
      have whole := under.nodePath inv start
      rw [start, Option.some.injEq] at whole
      simp at whole

end Kinfo

/-- The lookup follows the components of the string and leaves the string as it was,
and it inverts the construction of a path. -/
theorem kfioInfo_pathInverts {k : Kinfo} (tree : k.IsTree) (top : Nat) (mem : Nat → UInt8) :
    (∀ (s : CStr) (fullname fuel : Nat), Holds mem fullname (s.bytes ++ [0]) → s.strlen < fuel → ∃ found,
      k.kfioInfoFindNode fuel (some top) mem fullname = some (found, mem) ∧
        ∀ n, found = some n ↔ ∃ path, k.Under top n path ∧ path.map CStr.bytes = components s.bytes) ∧
    ∀ (n : Nat) (path : ProcPath) (pathname len fuel : Nat), k.Under top n path →
      (∀ name ∈ path, name.bytes ≠ [] ∧ 46 ∉ name.bytes) → 1 ≤ len → path.length < fuel → ∃ last rc,
        k.kfioInfoNodePathname fuel top n mem pathname len = some (last, rc) ∧
          (rc = -einval ↔ len < (path.map fun name => name.strlen + 1).sum) ∧
          (∀ i, i < pathname ∨ pathname + len ≤ i → last i = mem i) ∧
          (rc ≠ -einval → ∃ s : CStr, rc = s.strlen ∧ s.strlen < len ∧ Holds last pathname (s.bytes ++ [0]) ∧
            ∀ fuel, s.strlen < fuel → k.kfioInfoFindNode fuel (some top) last pathname = some (some n, last)) := by
  constructor
  · intro s fullname fuel holds enough
    exact ⟨_, Kinfo.findLoop_eq holds s.noNul enough top, fun n => tree.walk_iff⟩
  · intro n path pathname len fuel under plain positive enough
    obtain ⟨last, rc, ran, failed, frame, stored⟩ := tree.kfioInfoNodePathname under mem positive enough
    refine ⟨last, rc, ran, failed, frame, fun passed => ?_⟩
    have fits : pathSize path ≤ len := Nat.not_lt.mp fun short => passed (failed.mpr short)
    obtain ⟨result, holds⟩ := stored fits
    have notNul : 0 ∉ (dotted path).dropLast := fun member => notNul_dotted path (List.dropLast_subset _ member)
    have length : (dotted path).dropLast.length = pathSize path - 1 := by
      rw [List.length_dropLast, length_dotted]
    refine ⟨⟨(dotted path).dropLast, notNul⟩, result, ?_, holds, fun fuel enough => ?_⟩
    · rw [CStr.strlen, length]
      omega
    · have walked := tree.walk_iff.mpr ⟨path, under, (components_dropLast_dotted plain).symm⟩
      rw [Kinfo.kfioInfoFindNode, Kinfo.findLoop_eq holds notNul enough top, walked]

/-- The path of a value in a directory just fits into four bytes. -/
theorem kfioInfo_pathInverts_four : ∃ k : Kinfo, k.IsTree ∧ k.Under 0 2 [⟨[97], by decide⟩, ⟨[98], by decide⟩] ∧
    ∃ last rc, k.kfioInfoNodePathname 3 0 2 (fun _ => 1) 10 4 = some (last, rc) ∧ rc ≠ -einval ∧
      ∃ s : CStr, s.strlen < 4 ∧ Holds last 10 (s.bytes ++ [0]) ∧
        k.kfioInfoFindNode 4 (some 0) last 10 = some (some 2, last) := by
  obtain ⟨k, history, reach, checked⟩ := KinfoReach.of_check 0 ⟨[102], by decide⟩
    [.createDir none ⟨[97], by decide⟩ (some 1) true,
      .createProc (some 1) ⟨[98], by decide⟩ .uint32 0 0 (some 2) true]
    (fun (k, _) => k.root == 0 && k.nodePath 2 == some [⟨[97], by decide⟩, ⟨[98], by decide⟩]) (by decide +kernel)
  simp only [Bool.and_eq_true, beq_iff_eq] at checked
  have inv := Kinfo.Inv.of_reach reach
  have under : k.Under 0 2 [⟨[97], by decide⟩, ⟨[98], by decide⟩] := by
    have there := inv.at_iff.mpr checked.2
    rwa [Kinfo.At, checked.1] at there
  obtain ⟨last, rc, ran, failed, _, stored⟩ := (kfioInfo_pathInverts inv.isTree 0 fun _ => 1).2 2 _ 10 4 3 under
    (by decide) (by decide) (by decide)
  have passed : rc ≠ -einval := fun same => absurd (failed.mp same) (by decide)
  obtain ⟨s, _, fits, holds, back⟩ := stored passed
  exact ⟨k, inv.isTree, under, last, rc, ran, passed, s, fits, holds, back 4 fits⟩

end IomemoryVsl
