import IomemoryVsl.KinfoWalk

namespace IomemoryVsl

open ByteMemory

theorem bytesAt_eq {mem : Nat → UInt8} {a : Nat} {xs : List UInt8} (holds : Holds mem a xs) :
    bytesAt mem a xs.length = xs := by
  induction xs generalizing a with
  | nil => rfl
  | cons x xs ih =>
    have rest := ih holds.2
    rw [bytesAt] at rest
    rw [bytesAt, List.length_cons, List.range_succ_eq_map, List.map_cons, List.map_map, Nat.add_zero, holds.1]
    refine congrArg (x :: ·) (Eq.trans (List.map_congr_left fun i _ => ?_) rest)
    rw [Function.comp_apply, Nat.add_assoc, Nat.add_comm 1]

section Cursor

variable {list rest : List Nat} {entry : Option Nat} {c : Nat}

theorem entriesBehind_suffix (list : List Nat) (entry : Option Nat) : entriesBehind list entry <:+ list := by
  cases entry with
  | none => exact List.suffix_refl list
  | some c => exact (List.tail_suffix _).trans (List.dropWhile_suffix _)

theorem mem_of_entriesBehind (behind : entriesBehind list entry = c :: rest) : c ∈ list :=
  (entriesBehind_suffix list entry).subset (behind ▸ List.mem_cons_self)

/-- Going on to the next entry leaves the ones behind it. -/
theorem entriesBehind_next (nodup : list.Nodup) (behind : entriesBehind list entry = c :: rest) :
    entriesBehind list (some c) = rest := by
  obtain ⟨before, whole⟩ := entriesBehind_suffix list entry
  rw [behind] at whole
  rw [← whole, List.nodup_append] at nodup
  have others : ∀ d ∈ before, d ≠ c := fun d member => nodup.2.2 d member c List.mem_cons_self
  have dropped : list.dropWhile (· ≠ c) = c :: rest := by
    rw [← whole, List.dropWhile_append_of_pos fun d member => by simpa using others d member]
    simp
  rw [entriesBehind, dropped, List.tail_cons]

end Cursor

section Buffer

variable {mem other : Nat → UInt8} {dbh : DataHandle} {data size : Nat} {out bytes : List UInt8}

/-- What the data handle says after some bytes were written: it counts them all and
has as many of them as fit. -/
structure Buffered (mem : Nat → UInt8) (dbh : DataHandle) (data size : Nat) (out : List UInt8) : Prop where
  buffer : dbh.buffer = data
  maxSize : dbh.maxSize = size
  totSize : dbh.totSize = out.length
  curSize : dbh.curSize = min size out.length
  bytes : Holds mem data (out.take size)

theorem Buffered.congr (buffered : Buffered mem dbh data size out)
    (same : ∀ i, data ≤ i → i < data + size → other i = mem i) : Buffered other dbh data size out := by
  refine { buffered with bytes := buffered.bytes.congr fun i low high => same i low ?_ }
  rw [List.length_take] at high
  omega

/-- Writing adds to what was written, and touches the buffer alone. -/
theorem Buffered.write (buffered : Buffered mem dbh data size out) (bytes : List UInt8) :
    Buffered (kfioInfoWrite mem dbh bytes).1 (kfioInfoWrite mem dbh bytes).2.1 data size (out ++ bytes) ∧
      ∀ i, i < data ∨ data + size ≤ i → (kfioInfoWrite mem dbh bytes).1 i = mem i := by
  obtain ⟨buffer, maxSize, totSize, curSize, old⟩ := buffered
  have avail : (if bytes.length < size - min size out.length then bytes.length else size - min size out.length) =
      min bytes.length (size - out.length) := by
    split
    · omega
    · omega
  have length : (out.take size).length = min size out.length := List.length_take
  simp only [kfioInfoWrite, maxSize, curSize, avail, buffer]
  constructor
  · refine ⟨rfl, rfl, ?_, ?_, ?_⟩
    · rw [totSize, List.length_append]
    · rw [List.length_append]
      dsimp only
      omega
    · rw [List.take_append, ← length]
      have taken : bytes.take (size - out.length) = bytes.take (min bytes.length (size - out.length)) := by
        rw [List.take_eq_take_iff]
        omega
      rw [taken]
      exact old.memcpy _
  · intro i outside
    have short : (bytes.take (min bytes.length (size - out.length))).length ≤ size - out.length := by
      rw [List.length_take]
      omega
    rcases outside with before | behind
    · exact memcpy_of_lt (by omega)
    · by_cases full : size ≤ out.length
      · have nothing : min bytes.length (size - out.length) = 0 := by omega
        rw [nothing, List.take_zero, memcpy]
        simp
      · exact memcpy_of_ge (by omega)

end Buffer

section Walking

variable {mem first : Nat → UInt8} {dbh : DataHandle} {parentPath data size len : Nat} {path : ProcPath}
  {out : List UInt8} {name : CStr}

/-- Where the walk stands in a directory: the path buffer has its path with a dot behind
each name, the data handle has what was listed, and no other memory was touched. -/
structure Walking (first : Nat → UInt8) (parentPath data size : Nat) (path : ProcPath) (out : List UInt8) (len : Nat)
    (mem : Nat → UInt8) (dbh : DataHandle) : Prop where
  len : len = pathSize path
  short : pathSize path < kfioInfoMaxFullpathlen
  path : Holds mem parentPath (dotted path)
  buffered : Buffered mem dbh data size out
  frame : ∀ i, i < parentPath ∨ parentPath + kfioInfoMaxFullpathlen ≤ i → i < data ∨ data + size ≤ i →
    mem i = first i

variable (apart : parentPath + kfioInfoMaxFullpathlen ≤ data ∨ data + size ≤ parentPath)

include apart in
/-- A write inside the path buffer behind the path that stays there. -/
theorem Walking.store {other : Nat → UInt8} {path' : ProcPath} {len' : Nat}
    (walking : Walking first parentPath data size path out len mem dbh) (exact : len' = pathSize path')
    (short : pathSize path' < kfioInfoMaxFullpathlen) (holds : Holds other parentPath (dotted path'))
    (same : ∀ i, i < parentPath ∨ parentPath + kfioInfoMaxFullpathlen ≤ i → other i = mem i) :
    Walking first parentPath data size path' out len' other dbh := by
  refine ⟨exact, short, holds, walking.buffered.congr fun i low high => same i ?_, fun i outside apart => ?_⟩
  · omega
  · rw [same i outside, walking.frame i outside apart]

include apart in
/-- Going down appends the name of the directory and a dot. -/
theorem Walking.enter (walking : Walking first parentPath data size path out len mem dbh)
    (fits : pathSize (path ++ [name]) < kfioInfoMaxFullpathlen) :
    Walking first parentPath data size (path ++ [name]) out (len + (name.strlen + 1))
      (Function.update (Function.update (memcpy mem (parentPath + len) (name.bytes ++ [0]))
        (parentPath + (len + (name.strlen + 1) - 1)) 46) (parentPath + (len + (name.strlen + 1))) 0) dbh := by
  have total := pathSize_snoc path name
  have here := walking.len
  have behind : len + (name.strlen + 1) - 1 = len + name.strlen := by omega
  have length : (name.bytes ++ [0]).length = name.strlen + 1 := by
    rw [List.length_append, List.length_singleton, CStr.strlen]
  rw [behind]
  refine walking.store apart (by omega) fits ?_ fun i outside => ?_
  · rw [dotted_snoc]
    have long := length_dotted path
    refine holds_append.mpr ⟨walking.path.congr fun i _ high => ?_, holds_append.mpr ⟨?_, ?_⟩⟩
    · rw [Function.update_of_ne (by omega), Function.update_of_ne (by omega), memcpy_of_lt (by omega)]
    · have copied : Holds (memcpy mem (parentPath + len) (name.bytes ++ [0])) (parentPath + len) name.bytes :=
        (holds_append.mp holds_memcpy).1
      rw [long, ← here]
      refine copied.congr fun i _ high => ?_
      have inside : i < parentPath + len + name.strlen := high
      rw [Function.update_of_ne (by omega), Function.update_of_ne (by omega)]
    · have place : parentPath + (dotted path).length + name.bytes.length = parentPath + (len + name.strlen) := by
        rw [long, ← here, Nat.add_assoc]
        rfl
      rw [place]
      refine ⟨?_, trivial⟩
      rw [Function.update_of_ne (by omega), Function.update_self]
  · rw [Function.update_of_ne (by omega), Function.update_of_ne (by omega)]
    rcases outside with before | after
    · exact memcpy_of_lt (by omega)
    · exact memcpy_of_ge (by omega)

include apart in
/-- Going up cuts that off again. -/
theorem Walking.leave (walking : Walking first parentPath data size (path ++ [name]) out len mem dbh) :
    Walking first parentPath data size path out (len - (name.strlen + 1))
      (Function.update mem (parentPath + (len - (name.strlen + 1))) 0) dbh := by
  have total := pathSize_snoc path name
  have here := walking.len
  have short := walking.short
  have holds := walking.path
  rw [dotted_snoc] at holds
  have long := length_dotted path
  refine walking.store apart (by omega) (by omega) ?_ fun i outside => Function.update_of_ne (by omega) _ _
  exact (holds_append.mp holds).1.congr fun i _ high => Function.update_of_ne (by omega) _ _

include apart in
/-- A value is written with its path. -/
theorem Walking.leaf (walking : Walking first parentPath data size path out len mem dbh) (name : CStr) :
    Walking first parentPath data size path (out ++ ((dotted (path ++ [name])).dropLast ++ [0])) len
      (kfioInfoWrite (kfioInfoWrite mem dbh (bytesAt mem parentPath len)).1
        (kfioInfoWrite mem dbh (bytesAt mem parentPath len)).2.1 (name.bytes ++ [0])).1
      (kfioInfoWrite (kfioInfoWrite mem dbh (bytesAt mem parentPath len)).1
        (kfioInfoWrite mem dbh (bytesAt mem parentPath len)).2.1 (name.bytes ++ [0])).2.1 := by
  have read : bytesAt mem parentPath len = dotted path := by
    rw [walking.len, ← length_dotted]
    exact bytesAt_eq walking.path
  have written : (dotted (path ++ [name])).dropLast ++ [0] = dotted path ++ (name.bytes ++ [0]) := by
    rw [dotted_snoc, ← List.append_assoc, List.dropLast_concat, List.append_assoc]
  rw [read, written, ← List.append_assoc]
  obtain ⟨buffered, frame⟩ := walking.buffered.write (dotted path)
  obtain ⟨again, frame'⟩ := buffered.write (name.bytes ++ [0])
  refine ⟨walking.len, walking.short, walking.path.congr fun i low high => ?_, again, fun i outside other => ?_⟩
  · have short := walking.short
    rw [length_dotted] at high
    rw [frame' i (by omega), frame i (by omega)]
  · rw [frame' i other, frame i other, walking.frame i outside other]

end Walking

namespace Kinfo

variable {k : Kinfo} {first : Nat → UInt8} {start parentPath data size : Nat} {dir : InfoNode}

/-- A round of the walk at an entry. -/
theorem walkLoop_entry {s : WalkState} {c : Nat} {rest : List Nat} {node : InfoNode} (found : k.nodes s.parent = some dir)
    (behind : entriesBehind dir.subnodes s.entry = c :: rest) (known : k.nodes c = some node) (fuel : Nat) :
    k.walkLoop start parentPath (fuel + 1) s = k.walkLoop start parentPath fuel
      (if node.type = .dir then
        if s.parentPathlen + (node.name.strlen + 1) ≥ kfioInfoMaxFullpathlen then { s with entry := some c }
        else s.down parentPath c node.name
      else s.write parentPath c node.name) := by
  rw [walkLoop, subnodesOf_eq found, nextEntry, behind, List.head?_cons]
  simp only [known, Option.bind_some]
  split
  · split
    · rfl
    · rfl
  · rfl

/-- A round of the walk at the end of a list below the one it started with. -/
theorem walkLoop_end {s : WalkState} {p : Nat} (found : k.nodes s.parent = some dir)
    (behind : entriesBehind dir.subnodes s.entry = []) (below : s.parent ≠ start) (parent : dir.parent = some p)
    (fuel : Nat) :
    k.walkLoop start parentPath (fuel + 1) s = k.walkLoop start parentPath fuel (s.up parentPath p dir.name) := by
  rw [walkLoop, subnodesOf_eq found, nextEntry, behind, List.head?_nil]
  simp only [below, found, parent, if_false, Option.bind_some]

/-- Going through the entries behind a cursor, and through all below them, lists what
`listing` has and ends at the end of the list. -/
theorem IsTree.walkLoop_entries (tree : k.IsTree) (distinct : ∀ p dir, k.nodes p = some dir → dir.subnodes.Nodup)
    (apart : parentPath + kfioInfoMaxFullpathlen ≤ data ∨ data + size ≤ parentPath) (path : ProcPath)
    (entries : List Nat) {rel : ProcPath} {out : List UInt8} (s : WalkState) (found : k.nodes s.parent = some dir)
    (folder : dir.type = .dir) (under : k.Under start s.parent rel)
    (behind : entriesBehind dir.subnodes s.entry = entries)
    (walking : Walking first parentPath data size path out s.parentPathlen s.mem s.dbh) :
    ∃ rounds last, (∀ fuel, k.walkLoop start parentPath (fuel + rounds) s = k.walkLoop start parentPath fuel last) ∧
      last.parent = s.parent ∧ entriesBehind dir.subnodes last.entry = [] ∧
      Walking first parentPath data size path (out ++ listingBytes (k.listing path entries)) last.parentPathlen
        last.mem last.dbh := by
  induction path, entries using listing.induct k generalizing dir rel out s with
  | case1 path =>
    rw [listing, listingBytes, List.flatMap_nil, List.append_nil]
    exact ⟨0, s, fun _ => rfl, rfl, behind, walking⟩
  | case2 path c rest missing _ =>
    obtain ⟨node, known, _⟩ := tree.child s.parent dir found folder c (mem_of_entriesBehind behind)
    rw [missing] at known
    cases known
  | case3 path c rest node known type fits inner later =>
    have member := mem_of_entriesBehind behind
    have parent := tree.parent found folder member known
    have below : k.Under start c (rel ++ [node.name]) := .child under found folder member known
    have notStart := tree.ne_of_below below
    have len := walking.len
    have room : ¬s.parentPathlen + (node.name.strlen + 1) ≥ kfioInfoMaxFullpathlen := by
      rw [pathSize_snoc] at fits
      omega
    -- down into the directory, through it, and up again
    obtain ⟨rounds, last, ran, lastParent, lastEntry, lastWalking⟩ :=
      inner (s.down parentPath c node.name) known type below rfl (walking.enter apart fits)
    have downParent : (s.down parentPath c node.name).parent = c := rfl
    rw [downParent] at lastParent
    have upEntry : (last.up parentPath s.parent node.name).entry = some c := congrArg some lastParent
    have next := entriesBehind_next (distinct s.parent dir found) behind
    obtain ⟨rounds', last', ran', done⟩ :=
      later (last.up parentPath s.parent node.name) found folder under (upEntry ▸ next) (lastWalking.leave apart)
    refine ⟨rounds' + 1 + rounds + 1, last', fun fuel => ?_, ?_⟩
    · have regroup : fuel + (rounds' + 1 + rounds) = fuel + rounds' + 1 + rounds := by omega
      rw [← ran' fuel, ← Nat.add_assoc, walkLoop_entry found behind known, if_pos type, if_neg room, regroup, ran]
      exact walkLoop_end (lastParent ▸ known) lastEntry (lastParent ▸ notStart) parent _
    · rw [listing, known]
      simp only [type, if_true, fits]
      rw [listingBytes, List.flatMap_append, ← List.append_assoc]
      exact done
  | case4 path c rest node known type long later =>
    have len := walking.len
    have room : s.parentPathlen + (node.name.strlen + 1) ≥ kfioInfoMaxFullpathlen := by
      rw [pathSize_snoc] at long
      omega
    obtain ⟨rounds, last, ran, done⟩ :=
      later { s with entry := some c } found folder under (entriesBehind_next (distinct s.parent dir found) behind) walking
    refine ⟨rounds + 1, last, fun fuel => ?_, ?_⟩
    · rw [← ran fuel, ← Nat.add_assoc, walkLoop_entry found behind known, if_pos type, if_pos room]
    · rw [listing, known]
      simp only [type, if_true, long, if_false]
      exact done
  | case5 path c rest node known type later =>
    obtain ⟨rounds, last, ran, done⟩ :=
      later (s.write parentPath c node.name) found folder under
        (entriesBehind_next (distinct s.parent dir found) behind) (walking.leaf apart node.name)
    refine ⟨rounds + 1, last, fun fuel => ?_, ?_⟩
    · rw [← ran fuel, ← Nat.add_assoc, walkLoop_entry found behind known, if_neg type]
    · rw [listing, known]
      simp only [type, if_false]
      rw [listingBytes, List.flatMap_cons, ← List.append_assoc]
      exact done

/-- A value at entry `c` or below it, behind no directory whose path takes too much room. -/
def Lists (k : Kinfo) (path : ProcPath) (c : Nat) (value : ProcPath) : Prop :=
  ∃ node m leaf rel, k.nodes c = some node ∧ k.Under c m rel ∧ k.nodes m = some leaf ∧ leaf.type ≠ .dir ∧
    value = path ++ node.name :: rel ∧
    ∀ above, above ≠ [] → above <+: node.name :: rel → above ≠ node.name :: rel →
      pathSize (path ++ above) < kfioInfoMaxFullpathlen

theorem lists_cons {path value : ProcPath} {c : Nat} {rest : List Nat} :
    (∃ e ∈ c :: rest, k.Lists path e value) ↔ k.Lists path c value ∨ ∃ e ∈ rest, k.Lists path e value := by
  simp only [List.mem_cons, or_and_right, exists_or, exists_eq_left]

/-- A directory lists what its entries list, unless its path takes too much room. -/
theorem lists_dir {path value : ProcPath} {c : Nat} {node : InfoNode} (known : k.nodes c = some node)
    (type : node.type = .dir) : k.Lists path c value ↔
      pathSize (path ++ [node.name]) < kfioInfoMaxFullpathlen ∧
        ∃ e ∈ node.subnodes, k.Lists (path ++ [node.name]) e value := by
  constructor
  · intro lists
    obtain ⟨again, m, leaf, rel, there, under, atLeaf, plain, rfl, fits⟩ := lists
    rw [known, Option.some.injEq] at there
    subst there
    cases rel with
    | nil =>
      rw [under.eq_of_nil, known, Option.some.injEq] at atLeaf
      exact absurd (atLeaf ▸ type) plain
    | cons name rel =>
      have mine := fits [node.name] (List.cons_ne_nil _ _) (by simp) (by simp)
      obtain ⟨same, e, inner, found, _, member, atEntry, rfl, further⟩ := under.uncons
      rw [known, Option.some.injEq] at found
      subst found
      refine ⟨mine, e, member, inner, m, leaf, rel, atEntry, further, atLeaf, plain, by simp, ?_⟩
      intro above some inside other
      have longer := fits (node.name :: above) (List.cons_ne_nil _ _) (List.cons_prefix_cons.mpr ⟨rfl, inside⟩)
        fun same => other (List.cons.inj same).2
      rwa [List.append_cons] at longer
  · intro lists
    obtain ⟨mine, e, member, inner, m, leaf, rel, atEntry, further, atLeaf, plain, rfl, fits⟩ := lists
    refine ⟨node, m, leaf, inner.name :: rel, known, .cons known type member atEntry further, atLeaf, plain, by simp, ?_⟩
    intro above some inside other
    cases above with
    | nil => exact absurd rfl some
    | cons name above =>
      obtain ⟨rfl, shorter⟩ := List.cons_prefix_cons.mp inside
      by_cases last : above = []
      · rw [last]
        exact mine
      · rw [List.append_cons]
        exact fits above last shorter fun same => other (congrArg _ same)

theorem lists_value {path value : ProcPath} {c : Nat} {node : InfoNode} (known : k.nodes c = some node)
    (type : node.type ≠ .dir) : k.Lists path c value ↔ value = path ++ [node.name] := by
  constructor
  · intro lists
    obtain ⟨again, m, leaf, rel, there, under, _, _, rfl, _⟩ := lists
    rw [known, Option.some.injEq] at there
    subst there
    cases rel with
    | nil => rfl
    | cons name rel =>
      obtain ⟨_, _, _, found, folder, _⟩ := under.uncons
      rw [known, Option.some.injEq] at found
      exact absurd (found ▸ folder) type
  · rintro rfl
    refine ⟨node, c, node, [], known, .here, known, type, rfl, fun above some inside other => ?_⟩
    rcases List.prefix_cons_iff.mp inside with none | ⟨rest, rfl, more⟩
    · exact absurd none some
    · rw [List.prefix_nil.mp more] at other
      exact absurd rfl other

/-- The listing has the values below the entries, those that are not below a directory
whose path takes too much room. -/
theorem mem_listing (path : ProcPath) (entries : List Nat) (value : ProcPath) :
    value ∈ k.listing path entries ↔ ∃ c ∈ entries, k.Lists path c value := by
  induction path, entries using listing.induct k with
  | case1 path =>
    rw [listing]
    simp
  | case2 path c rest missing later =>
    rw [listing, missing, lists_cons, later]
    refine (or_iff_right fun lists => ?_).symm
    obtain ⟨node, _, _, _, there, _⟩ := lists
    rw [missing] at there
    cases there
  | case3 path c rest node known type fits inner later =>
    rw [listing, known, lists_cons, lists_dir known type, ← inner, ← later]
    simp only [type, if_true, fits, List.mem_append, true_and]
  | case4 path c rest node known type long later =>
    rw [listing, known, lists_cons, lists_dir known type, ← later]
    simp only [type, if_true, long, if_false, false_and, false_or]
  | case5 path c rest node known type later =>
    rw [listing, known, lists_cons, lists_value known type, ← later]
    simp only [type, if_false, List.mem_cons]

/-- The paths of the values below a directory, but for those in a directory whose path
takes too much room. -/
theorem mem_listing_dir (path value : ProcPath) (found : k.nodes start = some dir) (folder : dir.type = .dir) :
    value ∈ k.listing path dir.subnodes ↔ ∃ n leaf rel, k.Under start n rel ∧ k.nodes n = some leaf ∧
      leaf.type ≠ .dir ∧ value = path ++ rel ∧
      ∀ above, above ≠ [] → above <+: rel → above ≠ rel → pathSize (path ++ above) < kfioInfoMaxFullpathlen := by
  rw [mem_listing]
  constructor
  · intro lists
    obtain ⟨c, member, node, n, leaf, rel, known, under, atLeaf, plain, same, fits⟩ := lists
    exact ⟨n, leaf, node.name :: rel, .cons found folder member known under, atLeaf, plain, same, fits⟩
  · intro lists
    obtain ⟨n, leaf, rel, under, atLeaf, plain, same, fits⟩ := lists
    cases rel with
    | nil =>
      rw [under.eq_of_nil, found, Option.some.injEq] at atLeaf
      exact absurd (atLeaf ▸ folder) plain
    | cons name rel =>
      obtain ⟨again, c, node, there, _, member, known, rfl, further⟩ := under.uncons
      rw [found, Option.some.injEq] at there
      subst there
      exact ⟨c, member, node, n, leaf, rel, known, further, atLeaf, plain, same, fits⟩

/-- The path buffer at the start of the walk: the path of the start, with a dot behind
it if there is anything in the buffer. -/
theorem holds_start {last : Nat → UInt8} {path : ProcPath} (named : ∀ name, path = [name] → name.bytes ≠ [])
    (holds : Holds last parentPath ((dotted path).dropLast ++ [0])) :
    (dotted path).dropLast.length = 0 ∧ path = [] ∨
      0 < (dotted path).dropLast.length ∧ (dotted path).dropLast.length + 1 = pathSize path ∧
        Holds (Function.update last (parentPath + (dotted path).dropLast.length) 46) parentPath (dotted path) := by
  have length : (dotted path).dropLast.length = pathSize path - 1 := by
    rw [List.length_dropLast, length_dotted]
  induction path using List.reverseRecOn with
  | nil => exact .inl ⟨rfl, rfl⟩
  | append_singleton above name _ =>
    have total := pathSize_snoc above name
    have whole : dotted (above ++ [name]) = (dotted (above ++ [name])).dropLast ++ [46] := by
      rw [dotted_snoc, ← List.append_assoc, List.dropLast_concat]
    have some : 0 < pathSize above + name.strlen := by
      cases above with
      | nil =>
        have filled := named name rfl
        exact Nat.lt_of_lt_of_le (List.length_pos_of_ne_nil filled) (Nat.le_add_left _ _)
      | cons first above =>
        rw [pathSize, List.map_cons, List.sum_cons]
        omega
    refine .inr ⟨by omega, by omega, ?_⟩
    generalize (dotted (above ++ [name])).dropLast = bytes at holds whole
    rw [whole]
    exact (holds_append.mp holds).1.snoc

/-- A walk from its first state on. -/
theorem IsTree.walkLoop_start (tree : k.IsTree) (distinct : ∀ p dir, k.nodes p = some dir → dir.subnodes.Nodup)
    (apart : parentPath + kfioInfoMaxFullpathlen ≤ data ∨ data + size ≤ parentPath) {path : ProcPath}
    (found : k.nodes start = some dir) (folder : dir.type = .dir) {len : Nat} {mem : Nat → UInt8} {dbh : DataHandle}
    (walking : Walking first parentPath data size path [] len mem dbh) :
    ∃ rounds last, (∀ fuel, rounds ≤ fuel → k.walkLoop start parentPath fuel ⟨start, none, len, mem, dbh⟩ = some last) ∧
      Walking first parentPath data size path (listingBytes (k.listing path dir.subnodes)) last.parentPathlen last.mem
        last.dbh := by
  obtain ⟨rounds, last, ran, parent, none, done⟩ :=
    tree.walkLoop_entries distinct apart path dir.subnodes ⟨start, none, len, mem, dbh⟩ found folder .here rfl walking
  refine ⟨rounds + 1, last, fun fuel enough => ?_, done⟩
  obtain ⟨more, rfl⟩ : ∃ more, fuel = more + 1 + rounds := ⟨fuel - rounds - 1, by omega⟩
  rw [ran, walkLoop, parent, subnodesOf_eq found, nextEntry, none, List.head?_nil]
  exact if_pos rfl

/-- Once it ends, the loop that builds a path does not depend on the number of rounds. -/
theorem pathnameLoop_mono {fuel cur topnode nodep pathname : Nat} {mem : Nat → UInt8}
    {result : (Nat → UInt8) × Option Nat} (more : Nat)
    (ran : k.pathnameLoop topnode pathname fuel nodep mem cur = some result) :
    k.pathnameLoop topnode pathname (fuel + more) nodep mem cur = some result := by
  induction fuel generalizing nodep mem cur with
  | zero => cases ran
  | succ fuel ih =>
    rw [Nat.succ_add, pathnameLoop]
    rw [pathnameLoop] at ran
    split at ran
    · rename_i top
      rw [if_pos top]
      exact ran
    · rename_i below
      rw [if_neg below]
      obtain ⟨node, found, ran⟩ := Option.bind_eq_some_iff.mp ran
      rw [found, Option.bind_some]
      dsimp only at ran ⊢
      split at ran
      · rename_i short
        rw [if_pos short]
        exact ran
      · rename_i room
        rw [if_neg room]
        obtain ⟨parent, up, ran⟩ := Option.bind_eq_some_iff.mp ran
        rw [up, Option.bind_some]
        exact ih ran

end Kinfo

/-- The walk comes to its end and writes the paths of the values below the directory it
starts at, in the order in which they are found, into the buffer as far as they fit. -/
theorem kfioInfo_walk_lists {k : Kinfo} (tree : k.IsTree)
    (distinct : ∀ p dir, k.nodes p = some dir → dir.subnodes.Nodup) {topnode startnode : Nat} {dir : InfoNode}
    {path : ProcPath} (under : k.Under topnode startnode path) (found : k.nodes startnode = some dir)
    (folder : dir.type = .dir) (fits : (dotted path).length < kfioInfoMaxFullpathlen)
    (named : ∀ name, path = [name] → name.bytes ≠ []) (mem : Nat → UInt8) (parentPath data size : Nat)
    (apart : parentPath + kfioInfoMaxFullpathlen ≤ data ∨ data + size ≤ parentPath) :
    ∃ bytes rounds last dbh, bytes = listingBytes (k.listing path dir.subnodes) ∧
      (∀ fuel, rounds ≤ fuel → k.kfioInfoNodeWalkTree fuel topnode (some startnode)
        (kfioInfoResetDataHandle data size) mem parentPath = some (last, dbh, 0)) ∧
      (∀ i, i < parentPath ∨ parentPath + kfioInfoMaxFullpathlen ≤ i → i < data ∨ data + size ≤ i → last i = mem i) ∧
      dbh.totSize = bytes.length ∧ dbh.curSize = min size bytes.length ∧ Holds last data (bytes.take size) ∧
      ∀ value, value ∈ k.listing path dir.subnodes ↔ ∃ n leaf rel, k.Under startnode n rel ∧ k.nodes n = some leaf ∧
        leaf.type ≠ .dir ∧ value = path ++ rel ∧
        ∀ above, above ≠ [] → above <+: rel → above ≠ rel → (dotted (path ++ above)).length < kfioInfoMaxFullpathlen := by
  simp only [length_dotted] at fits ⊢
  have limit : kfioInfoMaxFullpathlen = 256 := rfl
  have positive : 1 ≤ kfioInfoMaxFullpathlen - 1 := by decide
  obtain ⟨start, rc, ran, _, frame, stored⟩ : ∃ start rc, k.kfioInfoNodePathname (path.length + 1) topnode startnode
      mem parentPath (kfioInfoMaxFullpathlen - 1) = some (start, rc) ∧ _ :=
    tree.kfioInfoNodePathname under mem positive (Nat.lt_succ_self path.length)
  obtain ⟨rfl, holds⟩ := stored (Nat.le_of_lt_succ fits)
  -- the state in which the loop starts
  obtain ⟨len, mem', same, walking⟩ : ∃ len mem',
      (if (dotted path).dropLast.length > 0 then
        (⟨startnode, none, (dotted path).dropLast.length + 1, Function.update (Function.update start
          (parentPath + (dotted path).dropLast.length) 46) (parentPath + ((dotted path).dropLast.length + 1)) 0,
          kfioInfoResetDataHandle data size⟩ : WalkState)
      else ⟨startnode, none, (dotted path).dropLast.length, start, kfioInfoResetDataHandle data size⟩) =
        ⟨startnode, none, len, mem', kfioInfoResetDataHandle data size⟩ ∧
      Walking mem parentPath data size path [] len mem' (kfioInfoResetDataHandle data size) := by
    have untouched (other : Nat → UInt8) :
        Buffered other (kfioInfoResetDataHandle data size) data size [] :=
      ⟨rfl, rfl, rfl, (Nat.min_zero size).symm, by rw [List.take_nil]; trivial⟩
    rcases Kinfo.holds_start named holds with ⟨none, rfl⟩ | ⟨some, total, whole⟩
    · refine ⟨0, start, by rw [none]; rfl, rfl, fits, trivial, untouched start, fun i outside _ => frame i (by omega)⟩
    · have long := length_dotted path
      refine ⟨_, _, if_pos some, total, fits, whole.congr fun i _ high => ?_, untouched _, fun i outside _ => ?_⟩
      · exact Function.update_of_ne (by omega) _ _
      · rw [Function.update_of_ne (by omega), Function.update_of_ne (by omega), frame i (by omega)]
  obtain ⟨rounds, last, walked, done⟩ := tree.walkLoop_start distinct apart found folder walking
  refine ⟨_, path.length + 1 + rounds, last.mem, last.dbh, rfl, fun fuel enough => ?_, done.frame,
    done.buffered.totSize, done.buffered.curSize, done.buffered.bytes, fun value => ?_⟩
  · obtain ⟨more, rfl⟩ : ∃ more, fuel = path.length + 1 + more := ⟨fuel - (path.length + 1), by omega⟩
    have again : k.kfioInfoNodePathname (path.length + 1 + more) topnode startnode mem parentPath
        (kfioInfoMaxFullpathlen - 1) = some (start, ((dotted path).dropLast.length : Int)) := by
      obtain ⟨result, looped, finished⟩ := Option.map_eq_some_iff.mp ran
      rw [Kinfo.kfioInfoNodePathname, Kinfo.pathnameLoop_mono more looped, Option.map_some, finished]
    have positive : ¬((dotted path).dropLast.length : Int) < 0 := by omega
    rw [Kinfo.kfioInfoNodeWalkTree]
    dsimp only
    rw [if_pos ((Kinfo.isDir_iff found).mpr folder), again, Option.bind_some]
    simp only [positive, if_false, Int.toNat_natCast, same, walked _ (by omega : rounds ≤ path.length + 1 + more),
      Option.map_some]
  · rw [Kinfo.mem_listing_dir path value found folder]

/-- A directory with a value in a directory of its own, and another value. -/
theorem kfioInfo_walk_lists_two : ∃ k : Kinfo, k.Inv ∧ ∃ dir, k.nodes 1 = some dir ∧
    ∃ bytes rounds last dbh, bytes = listingBytes (k.listing [⟨[97], by decide⟩] dir.subnodes) ∧
      (∀ fuel, rounds ≤ fuel → k.kfioInfoNodeWalkTree fuel 0 (some 1) (kfioInfoResetDataHandle 512 5) (fun _ => 0) 0 =
        some (last, dbh, 0)) ∧ dbh.curSize = min 5 bytes.length ∧ Holds last 512 (bytes.take 5) := by
  obtain ⟨k, history, reach, checked⟩ := KinfoReach.of_check 0 ⟨[102], by decide⟩
    [.createDir none ⟨[97], by decide⟩ (some 1) true, .createDir (some 1) ⟨[98], by decide⟩ (some 2) true,
      .createProc (some 2) ⟨[99], by decide⟩ .uint32 0 0 (some 3) true,
      .createText (some 1) ⟨[100], by decide⟩ 0 (some 4) true]
    (fun (k, _) => k.root == 0 && k.isDir 1 && k.nodePath 1 == some [⟨[97], by decide⟩]) (by decide +kernel)
  simp only [Bool.and_eq_true, beq_iff_eq] at checked
  obtain ⟨⟨root, folder⟩, path⟩ := checked
  have inv := Kinfo.Inv.of_reach reach
  obtain ⟨dir, found⟩ := inv.live_of_path path
  have under : k.Under 0 1 [⟨[97], by decide⟩] := by
    have there := inv.at_iff.mpr path
    rwa [Kinfo.At, root] at there
  have named (name : CStr) (same : [(⟨[97], by decide⟩ : CStr)] = [name]) : name.bytes ≠ [] := by
    rw [← List.singleton_injective same]
    exact List.cons_ne_nil _ _
  obtain ⟨bytes, rounds, last, dbh, all, ran, _, _, size, holds, _⟩ := kfioInfo_walk_lists inv.isTree inv.distinct
    under found ((Kinfo.isDir_iff found).mp folder) (by decide) named (fun _ => 0) 0 512 5 (by decide)
  exact ⟨k, inv, dir, found, bytes, rounds, last, dbh, all, ran, size, holds⟩

/-- A value `x` in a directory without a name is listed as `x` and not as `.x`. -/
theorem kfioInfo_walk_lists_unnamed : ∃ k : Kinfo, k.Inv ∧ k.Under 0 1 [⟨[], by decide⟩] ∧ ∃ dir,
    k.nodes 1 = some dir ∧ dir.type = .dir ∧ (dotted [⟨[], by decide⟩]).length < kfioInfoMaxFullpathlen ∧
      ∃ last dbh, k.kfioInfoNodeWalkTree 9 0 (some 1) (kfioInfoResetDataHandle 512 64) (fun _ => 0) 0 =
        some (last, dbh, 0) ∧ dbh.totSize ≠ (listingBytes (k.listing [⟨[], by decide⟩] dir.subnodes)).length := by
  obtain ⟨k, history, reach, checked⟩ := KinfoReach.of_check 0 ⟨[102], by decide⟩
    [.createDir none ⟨[], by decide⟩ (some 1) true, .createText (some 1) ⟨[120], by decide⟩ 0 (some 2) true]
    (fun (k, _) => k.root == 0 && k.nodePath 1 == some [⟨[], by decide⟩] && k.isDir 1 && k.subnodesOf 1 == [2] &&
      (k.nodes 2).any (fun node => node.type == .text && node.name == ⟨[120], by decide⟩) &&
      (k.kfioInfoNodeWalkTree 9 0 (some 1) (kfioInfoResetDataHandle 512 64) (fun _ => 0) 0).any
        fun (_, dbh, rc) => rc == 0 && dbh.totSize == 2) (by decide +kernel)
  simp only [Bool.and_eq_true, beq_iff_eq, Option.any_eq_true] at checked
  obtain ⟨⟨⟨⟨⟨root, path⟩, folder⟩, entries⟩, node, known, type, name⟩, ⟨last, dbh, rc⟩, ran, rfl, total⟩ := checked
  have inv := Kinfo.Inv.of_reach reach
  obtain ⟨dir, found⟩ := inv.live_of_path path
  have under : k.Under 0 1 [⟨[], by decide⟩] := by
    have there := inv.at_iff.mpr path
    rwa [Kinfo.At, root] at there
  rw [Kinfo.subnodesOf_eq found] at entries
  refine ⟨k, inv, under, dir, found, (Kinfo.isDir_iff found).mp folder, by decide, last, dbh, ran, ?_⟩
  have listed : k.listing [⟨[], by decide⟩] dir.subnodes = [[⟨[], by decide⟩, ⟨[120], by decide⟩]] := by
    rw [entries, Kinfo.listing, known]
    simp [type, name, Kinfo.listing]
  rw [listed, total]
  decide

end IomemoryVsl
