import IomemoryVsl.Kinfo
import Mathlib.Data.List.Induction
import Mathlib.Data.List.Nodup

namespace IomemoryVsl

namespace Kinfo

/-- A node below `top`, with the names on the way to it. -/
inductive Under (k : Kinfo) (top : Nat) : Nat → ProcPath → Prop
  | here : Under k top top []
  | child {p n : Nat} {path : ProcPath} {dir node : InfoNode} : Under k top p path → k.nodes p = some dir →
      dir.type = .dir → n ∈ dir.subnodes → k.nodes n = some node → Under k top n (path ++ [node.name])

/-- The names on the way from the root to a node. -/
def At (k : Kinfo) (n : Nat) (path : ProcPath) : Prop := k.Under k.root n path

/-- The path that procfs has for a node. -/
def nodePath (k : Kinfo) (n : Nat) : Option ProcPath := if n = k.root then some [] else k.osPrivOf n

/-- The tree hangs together, and procfs mirrors it. -/
structure Inv (k : Kinfo) : Prop where
  root : ∃ node, k.nodes k.root = some node ∧ node.type = .dir ∧ node.parent = none ∧ node.osPriv = none
  live : ∀ n, n ∈ k.live ↔ (k.nodes n).isSome = true
  liveNodup : k.live.Nodup
  listed : ∀ n node, k.nodes n = some node → n ≠ k.root → ∃ p dir path, node.parent = some p ∧
    k.nodes p = some dir ∧ dir.type = .dir ∧ n ∈ dir.subnodes ∧ k.nodePath p = some path ∧
    node.osPriv = some (path ++ [node.name])
  child : ∀ p dir, k.nodes p = some dir → ∀ c ∈ dir.subnodes, ∃ node, k.nodes c = some node ∧ node.parent = some p
  distinct : ∀ p dir, k.nodes p = some dir → dir.subnodes.Nodup
  paths : ∀ n m path, k.nodePath n = some path → k.nodePath m = some path → n = m
  top : ∀ n node, k.nodes n = some node → node.parent = some k.root → node.type = .dir
  procfs : ∀ dir name, (dir, name) ∈ k.procfs ↔ ∃ n node, k.nodes n = some node ∧
    node.osPriv = some (dir ++ [name])
  procfsNodup : k.procfs.Nodup

variable {k : Kinfo} {n m p : Nat} {node dir : InfoNode} {path : ProcPath}

theorem nodePath_root (k : Kinfo) : k.nodePath k.root = some [] := if_pos rfl

theorem nodePath_of_ne (other : n ≠ k.root) (here : k.nodes n = some node) : k.nodePath n = node.osPriv := by
  rw [nodePath, if_neg other, osPrivOf, here]
  rfl

theorem Inv.live_of_path (inv : k.Inv) (at_ : k.nodePath n = some path) : ∃ node, k.nodes n = some node := by
  by_cases same : n = k.root
  · obtain ⟨node, here, _⟩ := inv.root
    rw [same]
    exact ⟨node, here⟩
  · rw [nodePath, if_neg same, osPrivOf] at at_
    obtain ⟨node, here, _⟩ := Option.bind_eq_some_iff.mp at_
    exact ⟨node, here⟩

/-- The root has no entry of its own. -/
theorem Inv.ne_root_of_priv (inv : k.Inv) (here : k.nodes n = some node) (priv : node.osPriv = some path) :
    n ≠ k.root := by
  rintro rfl
  obtain ⟨top, there, _, _, bare⟩ := inv.root
  rw [here, Option.some.injEq] at there
  rw [there, bare] at priv
  cases priv

/-- A node that is not the root has its own name behind the path of its parent. -/
theorem Inv.path_snoc (inv : k.Inv) (here : k.nodes n = some node) (other : n ≠ k.root) :
    ∃ p dir path, node.parent = some p ∧ k.nodes p = some dir ∧ n ∈ dir.subnodes ∧ k.nodePath p = some path ∧
      k.nodePath n = some (path ++ [node.name]) := by
  obtain ⟨p, dir, path, parent, found, _, member, up, priv⟩ := inv.listed n node here other
  refine ⟨p, dir, path, parent, found, member, up, ?_⟩
  rw [nodePath_of_ne other here, priv]

theorem Inv.has_path (inv : k.Inv) (here : k.nodes n = some node) : ∃ path, k.nodePath n = some path := by
  by_cases same : n = k.root
  · rw [same]
    exact ⟨[], k.nodePath_root⟩
  · obtain ⟨_, _, path, _, _, _, _, whole⟩ := inv.path_snoc here same
    exact ⟨_, whole⟩

/-- A child is not the root, and its path is that of its directory with its name. -/
theorem Inv.path_child (inv : k.Inv) (found : k.nodes p = some dir) (member : n ∈ dir.subnodes)
    (up : k.nodePath p = some path) : ∃ node, k.nodes n = some node ∧ node.parent = some p ∧ n ≠ k.root ∧
      k.nodePath n = some (path ++ [node.name]) ∧ dir.type = .dir := by
  obtain ⟨node, here, parent⟩ := inv.child p dir found n member
  have other : n ≠ k.root := by
    rintro rfl
    obtain ⟨top, there, _, orphan, _⟩ := inv.root
    rw [here, Option.some.injEq] at there
    rw [there, orphan] at parent
    cases parent
  obtain ⟨q, folder, above, parents, known, type, _, paths, priv⟩ := inv.listed n node here other
  rw [parents, Option.some.injEq] at parent
  subst parent
  rw [found, Option.some.injEq] at known
  rw [up, Option.some.injEq] at paths
  refine ⟨node, here, parents, other, ?_, ?_⟩
  · rw [nodePath_of_ne other here, priv, paths]
  · rw [known]
    exact type

/-- No directory has two children of the same name. -/
theorem Inv.name_unique (inv : k.Inv) {other : InfoNode} (found : k.nodes p = some dir) (left : n ∈ dir.subnodes)
    (right : m ∈ dir.subnodes) (here : k.nodes n = some node) (there : k.nodes m = some other)
    (same : node.name = other.name) : n = m := by
  obtain ⟨path, up⟩ := inv.has_path found
  obtain ⟨x, known, _, _, first, _⟩ := inv.path_child found left up
  obtain ⟨y, seen, _, _, second, _⟩ := inv.path_child found right up
  rw [here, Option.some.injEq] at known
  rw [there, Option.some.injEq] at seen
  refine inv.paths n m _ first ?_
  rw [second, ← known, ← seen, same]

/-- The node `n` is added to the directory `p`. -/
def grow (k : Kinfo) (p n : Nat) (path : ProcPath) (node : InfoNode) : Kinfo :=
  { k with
    nodes := Function.update (Function.update k.nodes n (some node)) p
      ((k.nodes p).map fun dir => { dir with subnodes := dir.subnodes ++ [n] })
    live := n :: k.live
    procfs := k.procfs ++ [(path, node.name)] }

section Grow

variable {i : Nat} {x : InfoNode}

/-- An old node with the list it has now. -/
def grown (p n i : Nat) (x : InfoNode) : InfoNode := if i = p then { x with subnodes := x.subnodes ++ [n] } else x

theorem ne_of_fresh (old : k.nodes i = some x) (fresh : k.nodes n = none) : i ≠ n := by
  rintro rfl
  rw [old] at fresh
  cases fresh

theorem grow_nodes_self (found : k.nodes p = some dir) (fresh : k.nodes n = none) :
    (k.grow p n path node).nodes n = some node := by
  have other := (ne_of_fresh found fresh).symm
  simp only [grow, Function.update_of_ne other, Function.update_self]

theorem grow_nodes_old (fresh : k.nodes n = none) (old : k.nodes i = some x) :
    (k.grow p n path node).nodes i = some (grown p n i x) := by
  have other := ne_of_fresh old fresh
  by_cases same : i = p
  · subst same
    simp only [grow, grown, Function.update_self, old, if_true, Option.map_some]
  · simp only [grow, grown, Function.update_of_ne same, Function.update_of_ne other, old, if_neg same]

theorem grow_nodes_cases (found : k.nodes p = some dir) (fresh : k.nodes n = none)
    (now : (k.grow p n path node).nodes i = some x) :
    i = n ∧ x = node ∨ ∃ y, k.nodes i = some y ∧ x = grown p n i y := by
  by_cases new : i = n
  · rw [new, grow_nodes_self found fresh, Option.some.injEq] at now
    exact .inl ⟨new, now.symm⟩
  · cases old : k.nodes i with
    | some y =>
      rw [grow_nodes_old fresh old, Option.some.injEq] at now
      exact .inr ⟨y, rfl, now.symm⟩
    | none =>
      have other := (ne_of_fresh found old).symm
      simp only [grow, Function.update_of_ne other, Function.update_of_ne new, old] at now
      cases now

theorem grown_eq (p n i : Nat) (x : InfoNode) : (grown p n i x).parent = x.parent ∧ (grown p n i x).type = x.type ∧
    (grown p n i x).osPriv = x.osPriv ∧ (grown p n i x).name = x.name := by
  unfold grown
  split
  · exact ⟨rfl, rfl, rfl, rfl⟩
  · exact ⟨rfl, rfl, rfl, rfl⟩

theorem mem_grown {c : Nat} : c ∈ (grown p n i x).subnodes ↔ c ∈ x.subnodes ∨ i = p ∧ c = n := by
  unfold grown
  split
  · rename_i same
    simp [same]
  · rename_i other
    simp [other]

theorem grow_nodePath_old (fresh : k.nodes n = none) (old : k.nodes i = some x) :
    (k.grow p n path node).nodePath i = k.nodePath i := by
  have root : (k.grow p n path node).root = k.root := rfl
  simp only [nodePath, osPrivOf, root, grow_nodes_old fresh old, old, Option.bind_some, (grown_eq p n i x).2.2.1]

variable (inv : k.Inv) (found : k.nodes p = some dir) (folder : dir.type = .dir) (up : k.nodePath p = some path)
  (fresh : k.nodes n = none) (free : (path, node.name) ∉ k.procfs) (parent : node.parent = some p)
  (priv : node.osPriv = some (path ++ [node.name])) (empty : node.subnodes = [])

include inv found fresh in
theorem Inv.grow_live : i ∈ (k.grow p n path node).live ↔ ((k.grow p n path node).nodes i).isSome = true := by
  rw [show (k.grow p n path node).live = n :: k.live from rfl, List.mem_cons, inv.live i]
  by_cases new : i = n
  · simp [new, grow_nodes_self found fresh]
  · cases old : k.nodes i with
    | some x => simp [grow_nodes_old fresh old]
    | none =>
      have absent : (k.grow p n path node).nodes i = none := by
        by_contra present
        obtain ⟨x, now⟩ := Option.ne_none_iff_exists'.mp present
        rcases grow_nodes_cases found fresh now with ⟨same, _⟩ | ⟨y, here, _⟩
        · exact new same
        · exact ne_of_fresh here old rfl
      simp [new, absent]

include inv found folder up fresh parent priv in
theorem Inv.grow_listed (now : (k.grow p n path node).nodes i = some x) (other : i ≠ k.root) :
    ∃ q dir above, x.parent = some q ∧ (k.grow p n path node).nodes q = some dir ∧ dir.type = .dir ∧
      i ∈ dir.subnodes ∧ (k.grow p n path node).nodePath q = some above ∧ x.osPriv = some (above ++ [x.name]) := by
  rcases grow_nodes_cases found fresh now with ⟨rfl, rfl⟩ | ⟨y, old, rfl⟩
  · obtain ⟨_, types, _, _⟩ := grown_eq p i p dir
    refine ⟨p, _, path, parent, grow_nodes_old fresh found, types.trans folder, ?_, ?_, priv⟩
    · exact mem_grown.mpr (.inr ⟨rfl, rfl⟩)
    · rw [grow_nodePath_old fresh found, up]
  · obtain ⟨q, above, upper, parents, known, type, member, paths, privs⟩ := inv.listed i y old other
    obtain ⟨sameParent, _, samePriv, sameName⟩ := grown_eq p n i y
    obtain ⟨_, types, _, _⟩ := grown_eq p n q above
    refine ⟨q, _, upper, sameParent.trans parents, grow_nodes_old fresh known, types.trans type, ?_, ?_, ?_⟩
    · exact mem_grown.mpr (.inl member)
    · rw [grow_nodePath_old fresh known, paths]
    · rw [samePriv, privs, sameName]

include inv found fresh parent empty in
theorem Inv.grow_child {q c : Nat} (now : (k.grow p n path node).nodes q = some x) (member : c ∈ x.subnodes) :
    ∃ y, (k.grow p n path node).nodes c = some y ∧ y.parent = some q := by
  rcases grow_nodes_cases found fresh now with ⟨rfl, rfl⟩ | ⟨y, old, rfl⟩
  · rw [empty] at member
    cases member
  · rcases mem_grown.mp member with before | ⟨here, rfl⟩
    · obtain ⟨z, there, parents⟩ := inv.child q y old c before
      exact ⟨_, grow_nodes_old fresh there, (grown_eq p n c z).1.trans parents⟩
    · refine ⟨node, grow_nodes_self found fresh, ?_⟩
      rw [here]
      exact parent

include inv found fresh empty in
theorem Inv.grow_distinct {q : Nat} (now : (k.grow p n path node).nodes q = some x) : x.subnodes.Nodup := by
  rcases grow_nodes_cases found fresh now with ⟨rfl, rfl⟩ | ⟨y, old, rfl⟩
  · rw [empty]
    exact List.nodup_nil
  · unfold grown
    split
    · refine List.nodup_append.mpr ⟨inv.distinct q y old, List.nodup_singleton n, fun c member d last => ?_⟩
      rw [List.mem_singleton.mp last]
      obtain ⟨z, there, _⟩ := inv.child q y old c member
      exact ne_of_fresh there fresh
    · exact inv.distinct q y old

include found fresh priv in
/-- A path is that of the new node or was there before. -/
theorem grow_path {above : ProcPath} (now : (k.grow p n path node).nodePath i = some above) :
    i = n ∧ above = path ++ [node.name] ∨ k.nodePath i = some above := by
  by_cases root : i = k.root
  · rw [root, nodePath_root]
    rw [root] at now
    exact .inr (((k.grow p n path node).nodePath_root).symm.trans now)
  · rw [nodePath, if_neg (show i ≠ (k.grow p n path node).root from root), osPrivOf] at now
    obtain ⟨x, here, privs⟩ := Option.bind_eq_some_iff.mp now
    rcases grow_nodes_cases found fresh here with ⟨same, rfl⟩ | ⟨y, there, rfl⟩
    · rw [priv, Option.some.injEq] at privs
      exact .inl ⟨same, privs.symm⟩
    · rw [(grown_eq p n i y).2.2.1] at privs
      rw [nodePath_of_ne root there]
      exact .inr privs

include inv free in
theorem Inv.path_unused : k.nodePath i ≠ some (path ++ [node.name]) := by
  intro taken
  obtain ⟨x, here⟩ := inv.live_of_path taken
  have other : i ≠ k.root := by
    rintro rfl
    rw [nodePath_root, Option.some.injEq] at taken
    simp at taken
  rw [nodePath_of_ne other here] at taken
  exact free ((inv.procfs path node.name).mpr ⟨i, x, here, taken⟩)

include inv found fresh priv free in
theorem Inv.grow_paths {j : Nat} {above : ProcPath} (left : (k.grow p n path node).nodePath i = some above)
    (right : (k.grow p n path node).nodePath j = some above) : i = j := by
  rcases grow_path found fresh priv left with ⟨first, rfl⟩ | before
  · rcases grow_path found fresh priv right with ⟨second, _⟩ | after
    · rw [first, second]
    · exact absurd after (inv.path_unused free)
  · rcases grow_path found fresh priv right with ⟨_, rfl⟩ | after
    · exact absurd before (inv.path_unused free)
    · exact inv.paths i j above before after

include inv found fresh priv in
theorem Inv.grow_procfs (above : ProcPath) (name : CStr) : (above, name) ∈ (k.grow p n path node).procfs ↔
    ∃ i x, (k.grow p n path node).nodes i = some x ∧ x.osPriv = some (above ++ [name]) := by
  rw [show (k.grow p n path node).procfs = k.procfs ++ [(path, node.name)] from rfl, List.mem_append,
    List.mem_singleton, inv.procfs above name]
  constructor
  · rintro (⟨i, x, old, privs⟩ | entry)
    · exact ⟨i, _, grow_nodes_old fresh old, (grown_eq p n i x).2.2.1.trans privs⟩
    · cases entry
      exact ⟨n, node, grow_nodes_self found fresh, priv⟩
  · rintro ⟨i, x, now, privs⟩
    rcases grow_nodes_cases found fresh now with ⟨rfl, rfl⟩ | ⟨y, old, rfl⟩
    · rw [priv, Option.some.injEq] at privs
      obtain ⟨same, last⟩ := List.append_inj' privs rfl
      cases same
      cases last
      exact .inr rfl
    · exact .inl ⟨i, y, old, (grown_eq p n i y).2.2.1.symm.trans privs⟩

include inv found folder up fresh free parent priv empty in
/-- Adding a node with an unused path keeps everything in order. -/
theorem Inv.grow (top : p = k.root → node.type = .dir) : (k.grow p n path node).Inv := by
  refine ⟨?_, fun i => inv.grow_live found fresh, ?_, fun i x now other => ?_, fun q x now c member => ?_,
    fun q x now => ?_, fun i j above left right => ?_, fun i x now parents => ?_, inv.grow_procfs found fresh priv, ?_⟩
  · obtain ⟨x, here, type, orphan, bare⟩ := inv.root
    obtain ⟨parents, types, privs, _⟩ := grown_eq p n k.root x
    exact ⟨_, grow_nodes_old fresh here, types.trans type, parents.trans orphan, privs.trans bare⟩
  · refine List.nodup_cons.mpr ⟨fun member => ?_, inv.liveNodup⟩
    rw [inv.live n, fresh] at member
    cases member
  · exact inv.grow_listed found folder up fresh parent priv now other
  · exact inv.grow_child found fresh parent empty now member
  · exact inv.grow_distinct found fresh empty now
  · exact inv.grow_paths found fresh free priv left right
  · rcases grow_nodes_cases found fresh now with ⟨rfl, rfl⟩ | ⟨y, old, rfl⟩
    · rw [parent, Option.some.injEq] at parents
      exact top parents
    · obtain ⟨sameParent, sameType, _, _⟩ := grown_eq p n i y
      rw [sameType]
      exact inv.top i y old (sameParent.symm.trans parents)
  · refine List.nodup_append.mpr ⟨inv.procfsNodup, List.nodup_singleton _, fun entry member last same => ?_⟩
    rintro rfl
    rw [List.mem_singleton.mp same] at member
    exact free member

end Grow

end Kinfo

end IomemoryVsl
