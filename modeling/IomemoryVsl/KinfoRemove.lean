import IomemoryVsl.KinfoTree

namespace IomemoryVsl

namespace Kinfo

variable {k : Kinfo} {n p : Nat} {node : InfoNode} {path : ProcPath}

/-- The node `n` without children is gone from the directory with that path. -/
def shrink (k : Kinfo) (n : Nat) (path : ProcPath) (name : CStr) : Kinfo :=
  { k with
    nodes := fun i => if i = n then none else (k.nodes i).map fun x => { x with subnodes := x.subnodes.erase n }
    live := k.live.erase n
    procfs := k.procfs.erase (path, name) }

section Shrink

variable {name : CStr} {i : Nat} {x : InfoNode}

theorem shrink_nodes_old (other : i ≠ n) (old : k.nodes i = some x) :
    (k.shrink n path name).nodes i = some { x with subnodes := x.subnodes.erase n } := by
  simp only [shrink, if_neg other, old, Option.map_some]

theorem shrink_nodes_cases (now : (k.shrink n path name).nodes i = some x) :
    i ≠ n ∧ ∃ y, k.nodes i = some y ∧ x = { y with subnodes := y.subnodes.erase n } := by
  by_cases same : i = n
  · simp only [shrink, if_pos same] at now
    cases now
  · simp only [shrink, if_neg same] at now
    obtain ⟨y, old, rfl⟩ := Option.map_eq_some_iff.mp now
    exact ⟨same, y, old, rfl⟩

theorem shrink_nodePath (other : i ≠ n) : (k.shrink n path name).nodePath i = k.nodePath i := by
  simp only [nodePath, osPrivOf, shrink, if_neg other]
  cases k.nodes i with
  | none => rfl
  | some x => rfl

variable (inv : k.Inv) (here : k.nodes n = some node) (notRoot : n ≠ k.root) (empty : node.subnodes = [])
  (parent : node.parent = some p) (up : k.nodePath p = some path)

include inv here notRoot parent up in
theorem Inv.child_path : k.nodePath n = some (path ++ [node.name]) := by
  obtain ⟨q, _, above, parents, _, _, paths, whole⟩ := inv.path_snoc here notRoot
  rw [parent, Option.some.injEq] at parents
  rw [← parents, up, Option.some.injEq] at paths
  rw [whole, paths]

include inv here empty in
theorem Inv.shrink_listed (now : (k.shrink n path name).nodes i = some x) (other : i ≠ k.root) :
    ∃ q dir above, x.parent = some q ∧ (k.shrink n path name).nodes q = some dir ∧ dir.type = .dir ∧
      i ∈ dir.subnodes ∧ (k.shrink n path name).nodePath q = some above ∧ x.osPriv = some (above ++ [x.name]) := by
  obtain ⟨kept, y, old, rfl⟩ := shrink_nodes_cases now
  obtain ⟨q, dir, above, parents, known, type, member, paths, priv⟩ := inv.listed i y old other
  have alive : q ≠ n := by
    rintro rfl
    rw [here, Option.some.injEq] at known
    rw [← known, empty] at member
    cases member
  refine ⟨q, _, above, parents, shrink_nodes_old alive known, type, ?_, ?_, priv⟩
  · exact (List.mem_erase_of_ne kept).mpr member
  · rw [shrink_nodePath alive, paths]

include inv in
theorem Inv.shrink_child {dir : InfoNode} {q c : Nat} (now : (k.shrink n path name).nodes q = some dir)
    (member : c ∈ dir.subnodes) : ∃ x, (k.shrink n path name).nodes c = some x ∧ x.parent = some q := by
  obtain ⟨_, y, old, rfl⟩ := shrink_nodes_cases now
  obtain ⟨kept, before⟩ := (inv.distinct q y old).mem_erase_iff.mp member
  obtain ⟨x, there, parents⟩ := inv.child q y old c before
  exact ⟨_, shrink_nodes_old kept there, parents⟩

include notRoot in
theorem shrink_path {above : ProcPath} (now : (k.shrink n path name).nodePath i = some above) :
    i ≠ n ∧ k.nodePath i = some above := by
  have kept : i ≠ n := by
    rintro rfl
    rw [nodePath, if_neg (show i ≠ (k.shrink i path name).root from notRoot), osPrivOf] at now
    obtain ⟨x, found, _⟩ := Option.bind_eq_some_iff.mp now
    exact (shrink_nodes_cases found).1 rfl
  rw [shrink_nodePath kept] at now
  exact ⟨kept, now⟩

include inv here notRoot parent up in
theorem Inv.shrink_procfs (above : ProcPath) (last : CStr) :
    (above, last) ∈ (k.shrink n path node.name).procfs ↔
      ∃ i x, (k.shrink n path node.name).nodes i = some x ∧ x.osPriv = some (above ++ [last]) := by
  have own := inv.child_path here notRoot parent up
  rw [show (k.shrink n path node.name).procfs = k.procfs.erase (path, node.name) from rfl,
    inv.procfsNodup.mem_erase_iff, inv.procfs above last]
  constructor
  · rintro ⟨different, i, x, old, priv⟩
    have kept : i ≠ n := by
      rintro rfl
      rw [nodePath_of_ne notRoot old, priv, Option.some.injEq] at own
      obtain ⟨same, names⟩ := List.append_inj' own rfl
      cases names
      exact different (by rw [same])
    exact ⟨i, _, shrink_nodes_old kept old, priv⟩
  · rintro ⟨i, x, now, priv⟩
    obtain ⟨kept, y, old, rfl⟩ := shrink_nodes_cases now
    refine ⟨fun same => ?_, i, y, old, priv⟩
    cases same
    have other : i ≠ k.root := inv.ne_root_of_priv old priv
    refine kept (inv.paths i n _ ?_ own)
    rw [nodePath_of_ne other old]
    exact priv

include inv here notRoot empty parent up in
/-- Taking a node without children out keeps everything in order. -/
theorem Inv.shrink : (k.shrink n path node.name).Inv := by
  refine ⟨?_, ?_, inv.liveNodup.erase n, ?_, ?_, ?_, ?_, ?_, ?_, inv.procfsNodup.erase _⟩
  · obtain ⟨x, there, type, orphan, none⟩ := inv.root
    exact ⟨_, shrink_nodes_old notRoot.symm there, type, orphan, none⟩
  · intro i
    rw [show (k.shrink n path node.name).live = k.live.erase n from rfl, inv.liveNodup.mem_erase_iff, inv.live i]
    by_cases same : i = n
    · simp [same, Kinfo.shrink]
    · simp [same, Kinfo.shrink]
  · intro i x now other
    exact inv.shrink_listed here empty now other
  · intro q dir now c member
    exact inv.shrink_child now member
  · intro q dir now
    obtain ⟨_, y, old, rfl⟩ := shrink_nodes_cases now
    exact (inv.distinct q y old).erase n
  · intro i j above left right
    exact inv.paths i j above (shrink_path notRoot left).2 (shrink_path notRoot right).2
  · intro i x now above
    obtain ⟨_, y, old, rfl⟩ := shrink_nodes_cases now
    exact inv.top i y old above
  · exact inv.shrink_procfs here notRoot parent up

include inv here notRoot in
/-- What the loop has to do gets less with every node that is gone. -/
theorem Inv.rounds_shrink (whole : k.nodePath n = some path) (above : ProcPath) (name : CStr) :
    (k.shrink n above name).rounds + (path.length + 1) = k.rounds := by
  have member : n ∈ k.live := by
    rw [inv.live n, here]
    rfl
  have own : k.osPrivOf n = some path := by
    rwa [nodePath, if_neg notRoot] at whole
  have same : (k.live.erase n).map (fun i => ((k.shrink n above name).osPrivOf i).elim 0 List.length + 1) =
      (k.live.erase n).map fun i => (k.osPrivOf i).elim 0 List.length + 1 := by
    refine List.map_congr_left fun i rest => ?_
    have kept : i ≠ n := (inv.liveNodup.mem_erase_iff.mp rest).1
    have priv : (k.shrink n above name).osPrivOf i = k.osPrivOf i := by
      simp only [osPrivOf, Kinfo.shrink, if_neg kept]
      cases k.nodes i with
      | none => rfl
      | some x => rfl
    rw [priv]
  have total := List.sum_map_erase (fun i => (k.osPrivOf i).elim 0 List.length + 1) member
  rw [own] at total
  rw [rounds, rounds, ← total, show (k.shrink n above name).live = k.live.erase n from rfl, same, Nat.add_comm]
  rfl

include inv here notRoot parent up in
theorem Inv.osRemove (apart : p ≠ n) :
    k.kfioInfoOsRemoveNode (if node.parent = some k.root then none else node.parent) n =
      some { k.modify n (fun node => { node with osPriv := none }) with
        procfs := k.procfs.erase (path, node.name) } := by
  have priv : node.osPriv = some (path ++ [node.name]) := by
    rw [← nodePath_of_ne notRoot here, inv.child_path here notRoot parent up]
  simp only [kfioInfoOsRemoveNode, here, priv, reduceCtorEq, if_false, parent]
  by_cases top : p = k.root
  · rw [top, nodePath_root, Option.some.injEq] at up
    rw [top] at parent
    simp only [top, if_true, inv.top n node here parent, ← up]
  · have folder : (k.modify n fun node => { node with osPriv := none }).osPrivOf p = some path := by
      rw [nodePath, if_neg top] at up
      simpa only [osPrivOf, modify, Function.update_of_ne apart] using up
    simp only [Option.some.injEq, top, if_false, folder, Option.map_some]

include inv here notRoot empty parent up in
/-- A node without children can be unlinked and freed. -/
theorem Inv.unlink :
    (k.kfioInfoUnlinkNode n).map (fun k => k.kfioInfoFreeNode n) = some (k.shrink n path node.name) := by
  have apart : p ≠ n := by
    rintro rfl
    obtain ⟨q, dir, _, parents, found, member, _⟩ := inv.path_snoc here notRoot
    rw [parent, Option.some.injEq] at parents
    rw [← parents, here, Option.some.injEq] at found
    rw [← found, empty] at member
    cases member
  rw [kfioInfoUnlinkNode, here]
  simp only [inv.osRemove here notRoot parent up apart]
  simp only [parent, reduceCtorEq, if_false, Option.map_some, Option.some.injEq]
  simp only [kfioInfoFreeNode, modify, listDel, Kinfo.shrink, Kinfo.mk.injEq, true_and, and_true]
  funext i
  by_cases same : i = n
  · rw [same, Function.update_self, if_pos rfl]
  · rw [Function.update_of_ne same, Function.update_of_ne same, if_neg same, Function.update_of_ne same]

end Shrink

/-- Without a node to stop at, the loop ends with a failed assertion. -/
theorem removeLoop_root (fuel : Nat) (k : Kinfo) (c : Nat) : removeLoop none fuel k c = none := by
  induction fuel generalizing k c with
  | zero => rfl
  | succ fuel ih =>
    rw [removeLoop]
    split
    · split
      · exact ih _ _
      · cases k.kfioInfoUnlinkNode _ with
        | none => rfl
        | some last => exact ih _ _
    · split
      · rfl
      · cases k.kfioInfoUnlinkNode c with
        | none => rfl
        | some last => exact ih _ _

theorem isDir_iff (here : k.nodes n = some node) : k.isDir n = true ↔ node.type = .dir := by
  rw [isDir, here, Option.any_some, beq_iff_eq]

theorem subnodesOf_eq (here : k.nodes n = some node) : k.subnodesOf n = node.subnodes := by
  rw [subnodesOf, here]
  rfl

/-- A leaf has no children. -/
theorem Inv.leaf (inv : k.Inv) (here : k.nodes n = some node) (leaf : node.type ≠ .dir) : node.subnodes = [] := by
  refine List.eq_nil_iff_forall_not_mem.mpr fun c member => leaf ?_
  obtain ⟨path, up⟩ := inv.has_path here
  obtain ⟨_, _, _, _, _, folder⟩ := inv.path_child here member up
  exact folder

/-- A directory that stays is a directory still. -/
theorem isDir_shrink {i : Nat} {name : CStr} (other : i ≠ n) : (k.shrink n path name).isDir i = k.isDir i := by
  simp only [isDir, Kinfo.shrink, if_neg other]
  cases k.nodes i with
  | none => rfl
  | some x => rfl

/-- What the loop is about to remove lies below the node it stops at. -/
structure Below (k : Kinfo) (q c : Nat) (above path : ProcPath) : Prop where
  inv : k.Inv
  folder : k.isDir c = true
  notRoot : c ≠ k.root
  stop : k.nodePath q = some above
  here : k.nodePath c = some path
  inside : above <+: path
  apart : above ≠ path

/-- Going down into a directory stays below. -/
theorem Below.down {q c child : Nat} {above : ProcPath} {name : CStr} (below : k.Below q c above path)
    (folder : k.isDir child = true) (notRoot : child ≠ k.root) (longer : k.nodePath child = some (path ++ [name])) :
    k.Below q child above (path ++ [name]) := by
  refine ⟨below.inv, folder, notRoot, below.stop, longer, below.inside.trans (List.prefix_append _ _), ?_⟩
  rintro rfl
  have shorter := below.inside.length_le
  rw [List.length_append, List.length_singleton] at shorter
  omega

/-- A node with a longer path than `c` can go. -/
theorem Below.leaf {q c : Nat} {above : ProcPath} (below : k.Below q c above path) (known : k.nodes n = some node)
    (other : n ≠ k.root) (empty : node.subnodes = []) (parent : node.parent = some c) :
    (k.shrink n path node.name).Below q c above path := by
  have whole := below.inv.child_path known other parent below.here
  have shorter := below.inside.length_le
  have notStop : q ≠ n := by
    rintro rfl
    rw [below.stop, Option.some.injEq] at whole
    rw [whole, List.length_append, List.length_singleton] at shorter
    omega
  have notHere : c ≠ n := by
    rintro rfl
    rw [below.here, Option.some.injEq] at whole
    simp at whole
  refine ⟨below.inv.shrink known other empty parent below.here, ?_, below.notRoot, ?_, ?_, below.inside, below.apart⟩
  · rw [isDir_shrink notHere]
    exact below.folder
  · rw [shrink_nodePath notStop, below.stop]
  · rw [shrink_nodePath notHere, below.here]

/-- The directory above an empty one lies below too, unless it is the one to stop at. -/
theorem Below.up {q c up : Nat} {above upper : ProcPath} (below : k.Below q c above (upper ++ [node.name]))
    (found : k.nodes c = some node) (empty : node.subnodes = []) (parent : node.parent = some up)
    (outer : k.nodePath up = some upper) (further : up ≠ q) : (k.shrink c upper node.name).Below q up above upper := by
  have inside : above <+: upper := by
    rcases List.prefix_concat_iff.mp below.inside with same | inside
    · exact absurd same below.apart
    · exact inside
  have apart : above ≠ upper := by
    rintro rfl
    exact further (below.inv.paths up q above outer below.stop)
  have notStop : q ≠ c := by
    rintro rfl
    exact below.apart (Option.some.inj (below.stop.symm.trans below.here))
  have notHere : up ≠ c := by
    rintro rfl
    rw [below.here, Option.some.injEq] at outer
    simp at outer
  have notRoot : up ≠ k.root := by
    rintro rfl
    rw [nodePath_root, Option.some.injEq] at outer
    rw [← outer] at inside apart
    exact apart (List.prefix_nil.mp inside)
  obtain ⟨_, dir, _, parents, there, type, _⟩ := below.inv.listed c node found below.notRoot
  rw [parent, Option.some.injEq] at parents
  rw [← parents] at there
  refine ⟨below.inv.shrink found below.notRoot empty parent outer, ?_, notRoot, ?_, ?_, inside, apart⟩
  · rw [isDir_shrink notHere]
    exact (isDir_iff there).mpr type
  · rw [shrink_nodePath notStop, below.stop]
  · rw [shrink_nodePath notHere, outer]

/-- The rounds of the loop: down into a directory, over an entry that can go, and up behind
an empty directory, until the one to stop at is reached. -/
theorem Below.rounds_induction {q fuel c : Nat} {above : ProcPath} {motive : Nat → Kinfo → Nat → ProcPath → Prop}
    (down : ∀ fuel k c path dir child rest node, Below k q c above path → k.nodes c = some dir →
      dir.subnodes = child :: rest → k.nodes child = some node → k.isDir child = true →
      motive fuel k child (path ++ [node.name]) → motive (fuel + 1) k c path)
    (leaf : ∀ fuel k c path dir child rest node, Below k q c above path → k.nodes c = some dir →
      dir.subnodes = child :: rest → k.nodes child = some node → k.isDir child = false → node.subnodes = [] →
      child ≠ k.root → node.parent = some c → motive fuel (k.shrink child path node.name) c path →
      motive (fuel + 1) k c path)
    (last : ∀ fuel k c dir, Below k q c above (above ++ [dir.name]) → k.nodes c = some dir → dir.subnodes = [] →
      dir.parent = some q → motive (fuel + 1) k c (above ++ [dir.name]))
    (up : ∀ fuel k c p upper dir, Below k q c above (upper ++ [dir.name]) → k.nodes c = some dir →
      dir.subnodes = [] → dir.parent = some p → k.nodePath p = some upper → p ≠ q →
      motive fuel (k.shrink c upper dir.name) p upper → motive (fuel + 1) k c (upper ++ [dir.name]))
    (below : k.Below q c above path) (enough : k.rounds ≤ fuel + path.length) : motive fuel k c path := by
  induction fuel generalizing k c path with
  | zero =>
    obtain ⟨node, found⟩ := below.inv.live_of_path below.here
    have less := below.inv.rounds_shrink found below.notRoot below.here [] node.name
    omega
  | succ fuel ih =>
    obtain ⟨dir, found⟩ := below.inv.live_of_path below.here
    cases children : dir.subnodes with
    | cons child rest =>
      have member : child ∈ dir.subnodes := by
        rw [children]
        exact List.mem_cons_self
      obtain ⟨node, known, parent, other, longer, _⟩ := below.inv.path_child found member below.here
      by_cases folder : k.isDir child = true
      · refine down fuel k c path dir child rest node below found children known folder ?_
        refine ih (below.down folder other longer) ?_
        rw [List.length_append, List.length_singleton]
        omega
      · have plain := (Bool.not_eq_true _).mp folder
        have empty := below.inv.leaf known fun type => folder ((isDir_iff known).mpr type)
        have less := below.inv.rounds_shrink known other longer path node.name
        refine leaf fuel k c path dir child rest node below found children known plain empty other parent ?_
        exact ih (below.leaf known other empty parent) (by omega)
    | nil =>
      obtain ⟨p, _, upper, parent, _, _, outer, whole⟩ := below.inv.path_snoc found below.notRoot
      have same : path = upper ++ [dir.name] := Option.some.inj (below.here.symm.trans whole)
      subst same
      have less := below.inv.rounds_shrink found below.notRoot below.here upper dir.name
      by_cases done : p = q
      · rw [done, below.stop] at outer
        cases outer
        exact last fuel k c dir below found children (done ▸ parent)
      · refine up fuel k c p upper dir below found children parent outer done ?_
        exact ih (below.up found children parent outer done) (by omega)

/-- The loop takes away everything below the node it stops at, node by node. -/
theorem Below.removeLoop {q c fuel : Nat} {above : ProcPath} (below : k.Below q c above path)
    (enough : k.rounds ≤ fuel + path.length) : ∃ last, removeLoop (some q) fuel k c = some last ∧ last.Inv := by
  refine below.rounds_induction (motive := fun fuel k c _ => ∃ last, Kinfo.removeLoop (some q) fuel k c = some last ∧
    last.Inv) ?_ ?_ ?_ ?_ enough
  · intro fuel k c path dir child rest node _ found children _ down ih
    rw [Kinfo.removeLoop, subnodesOf_eq found, children]
    simp only [down, if_true]
    exact ih
  · intro fuel k c path dir child rest node below found children known plain empty other parent ih
    obtain ⟨last, ran, freed⟩ := Option.map_eq_some_iff.mp (below.inv.unlink known other empty parent below.here)
    rw [Kinfo.removeLoop, subnodesOf_eq found, children]
    simp only [plain, ran, Option.bind_some, freed, if_false, Bool.false_eq_true]
    exact ih
  · intro fuel k c dir below found children parent
    have gone := below.inv.unlink found below.notRoot children parent below.stop
    obtain ⟨last, ran, freed⟩ := Option.map_eq_some_iff.mp gone
    rw [Kinfo.removeLoop, subnodesOf_eq found, children]
    simp only [found, Option.bind_some, parent, ran, freed, if_true]
    exact ⟨_, rfl, below.inv.shrink found below.notRoot children parent below.stop⟩
  · intro fuel k c p upper dir below found children parent outer further ih
    obtain ⟨last, ran, freed⟩ := Option.map_eq_some_iff.mp (below.inv.unlink found below.notRoot children parent outer)
    rw [Kinfo.removeLoop, subnodesOf_eq found, children]
    simp only [found, Option.bind_some, parent, ran, freed, Option.some.injEq, further, if_false]
    exact ih

/-- A directory is below its own one. -/
theorem Inv.below {upper : ProcPath} (inv : k.Inv) (found : k.nodes n = some node) (folder : node.type = .dir)
    (notRoot : n ≠ k.root) (outer : k.nodePath p = some upper) (here : k.nodePath n = some (upper ++ [node.name])) :
    n ≠ p ∧ k.Below p n upper (upper ++ [node.name]) := by
  have apart : upper ≠ upper ++ [node.name] := by
    intro same
    simp at same
  refine ⟨?_, inv, (isDir_iff found).mpr folder, notRoot, outer, here, List.prefix_append _ _, apart⟩
  rintro rfl
  exact apart (Option.some.inj (outer.symm.trans here))

/-- Any node but the root can be removed with all that is below it. -/
theorem Inv.kfioInfoRemoveNode (inv : k.Inv) (found : k.nodes n = some node) (notRoot : n ≠ k.root) :
    ∃ last, k.kfioInfoRemoveNode (some n) = some last ∧ last.Inv := by
  obtain ⟨p, _, upper, parent, _, _, outer, whole⟩ := inv.path_snoc found notRoot
  by_cases folder : node.type = .dir
  · obtain ⟨other, below⟩ := inv.below found folder notRoot outer whole
    obtain ⟨last, ran, fine⟩ := below.removeLoop (Nat.le_add_right _ _)
    refine ⟨last, ?_, fine⟩
    simp only [Kinfo.kfioInfoRemoveNode, found, folder, if_true, parent, Option.some.injEq, other, if_false]
    exact ran
  · have empty := inv.leaf found folder
    refine ⟨_, ?_, inv.shrink found notRoot empty parent outer⟩
    simp only [Kinfo.kfioInfoRemoveNode, found, folder, if_false]
    exact inv.unlink found notRoot empty parent outer

/-- Removing the root fails an assertion. -/
theorem Inv.kfioInfoRemoveNode_root (inv : k.Inv) : k.kfioInfoRemoveNode (some k.root) = none := by
  obtain ⟨node, found, folder, orphan, _⟩ := inv.root
  simp only [Kinfo.kfioInfoRemoveNode, found, folder, if_true, orphan, reduceCtorEq, if_false]
  exact removeLoop_root _ _ _

/-- Whatever is removed, everything stays in order. -/
theorem Inv.removed (inv : k.Inv) {nodep : Option Nat} {last : Kinfo}
    (ran : k.kfioInfoRemoveNode nodep = some last) : last.Inv := by
  cases nodep with
  | none =>
    cases ran
    exact inv
  | some n =>
    cases found : k.nodes n with
    | none =>
      simp only [Kinfo.kfioInfoRemoveNode, found] at ran
      cases ran
    | some node =>
      by_cases same : n = k.root
      · rw [same, inv.kfioInfoRemoveNode_root] at ran
        cases ran
      · obtain ⟨other, done, fine⟩ := inv.kfioInfoRemoveNode found same
        rw [done, Option.some.injEq] at ran
        rw [← ran]
        exact fine

end Kinfo

end IomemoryVsl
