import IomemoryVsl.KinfoPath

namespace IomemoryVsl

/-- What `kfio_info_remove_node` does with the memory of a node. -/
inductive NodeEvent
  | touched (n : Nat)
  | unlinked (n : Nat)
  | freed (n : Nat)
  deriving DecidableEq, Repr

namespace NodeEvent

def node : NodeEvent → Nat
  | .touched n | .unlinked n | .freed n => n

def unlinkedNode : NodeEvent → Option Nat
  | .unlinked n => some n
  | _ => none

def freedNode : NodeEvent → Option Nat
  | .freed n => some n
  | _ => none

end NodeEvent

def unlinkedNodes (events : List NodeEvent) : List Nat := events.filterMap NodeEvent.unlinkedNode

def freedNodes (events : List NodeEvent) : List Nat := events.filterMap NodeEvent.freedNode

/-- The entries before and behind a node on its list. -/
def neighbours (list : List Nat) (n : Nat) : List Nat :=
  (list.takeWhile (· ≠ n)).getLast?.toList ++ (list.dropWhile (· ≠ n)).tail.head?.toList

namespace Kinfo

/-- The nodes in which `kfio_info_unlink_node` reads or writes: the node, its directory
and the entries beside it on the list. -/
def unlinkTouches (k : Kinfo) (n : Nat) : List Nat :=
  match (k.nodes n).bind InfoNode.parent with
  | none => [n]
  | some p => n :: p :: neighbours (k.subnodesOf p) n

/-- Unlinks and frees a node. -/
def dropNode (k : Kinfo) (n : Nat) : Option (Kinfo × List NodeEvent) :=
  (k.kfioInfoUnlinkNode n).map fun after =>
    (after.kfioInfoFreeNode n, (k.unlinkTouches n).map .touched ++ [.unlinked n, .freed n])

/-- `removeLoop` with what it does with the memory of the nodes. -/
def removeLoopLog (stop : Option Nat) : Nat → Kinfo → Nat → Option (Kinfo × List NodeEvent)
  | 0, _, _ => none
  | fuel + 1, k, parent =>
    match k.subnodesOf parent with
    | child :: _ =>
      if k.isDir child then
        (removeLoopLog stop fuel k child).map fun rest => (rest.1, [parent, child].map .touched ++ rest.2)
      else
        (k.dropNode child).bind fun dropped => (removeLoopLog stop fuel dropped.1 parent).map fun rest =>
          (rest.1, [parent, child].map .touched ++ (dropped.2 ++ rest.2))
    | [] =>
      match (k.nodes parent).bind InfoNode.parent with
      | none => none
      | some up =>
        (k.dropNode parent).bind fun dropped =>
          if some up = stop then some (dropped.1, [parent].map .touched ++ dropped.2)
          else (removeLoopLog stop fuel dropped.1 up).map fun rest =>
            (rest.1, [parent].map .touched ++ (dropped.2 ++ rest.2))

/-- `kfio_info_remove_node` with the handle that it leaves and what it does with the
memory of the nodes. -/
def kfioInfoRemoveNodeLog (k : Kinfo) (nodep : Option Nat) : Option (Kinfo × Option Nat × List NodeEvent) :=
  match nodep with
  | none => some (k, none, [])
  | some n =>
    match k.nodes n with
    | none => none
    | some node =>
      if node.type = .dir then
        if some n = node.parent then some (k, none, [.touched n])
        else (removeLoopLog node.parent k.rounds k n).map fun rest => (rest.1, none, [n].map .touched ++ rest.2)
      else
        (k.dropNode n).map fun dropped => (dropped.1, none, [n].map .touched ++ dropped.2)

theorem dropNode_fst (k : Kinfo) (n : Nat) :
    (k.dropNode n).map Prod.fst = (k.kfioInfoUnlinkNode n).map fun k => k.kfioInfoFreeNode n := by
  rw [dropNode, Option.map_map]
  rfl

theorem removeLoopLog_fst (stop : Option Nat) (fuel : Nat) (k : Kinfo) (parent : Nat) :
    (removeLoopLog stop fuel k parent).map Prod.fst = removeLoop stop fuel k parent := by
  induction fuel generalizing k parent with
  | zero => rfl
  | succ fuel ih =>
    rw [removeLoopLog, removeLoop]
    cases k.subnodesOf parent with
    | cons child rest =>
      dsimp only
      split
      · rw [← ih, Option.map_map]
        rfl
      · cases ran : k.kfioInfoUnlinkNode child with
        | none => simp [dropNode, ran]
        | some after =>
          simp only [dropNode, ran, Option.map_some, Option.bind_some, Option.map_map, ← ih]
          rfl
    | nil =>
      dsimp only
      cases (k.nodes parent).bind InfoNode.parent with
      | none => rfl
      | some up =>
        cases ran : k.kfioInfoUnlinkNode parent with
        | none => simp [dropNode, ran]
        | some after =>
          simp only [dropNode, ran, Option.map_some, Option.bind_some]
          split
          · rfl
          · rw [← ih, Option.map_map]
            rfl

/-- The log does not change what the function does. -/
theorem kfioInfoRemoveNodeLog_fst (k : Kinfo) (nodep : Option Nat) :
    (k.kfioInfoRemoveNodeLog nodep).map Prod.fst = k.kfioInfoRemoveNode nodep := by
  cases nodep with
  | none => rfl
  | some n =>
    simp only [kfioInfoRemoveNodeLog, Kinfo.kfioInfoRemoveNode]
    cases k.nodes n with
    | none => rfl
    | some node =>
      dsimp only
      split
      · split
        · rfl
        · rw [← removeLoopLog_fst, Option.map_map]
          rfl
      · rw [← dropNode_fst, Option.map_map]
        rfl

variable {k last : Kinfo} {n p c i : Nat} {node : InfoNode} {path top : ProcPath} {events : List NodeEvent}

/-- Nothing lies below a node without children. -/
theorem Inv.path_of_empty (inv : k.Inv) (found : k.nodes n = some node) (empty : node.subnodes = [])
    (here : k.nodePath n = some top) (below : k.nodePath i = some (top ++ path)) : i = n ∧ path = [] := by
  have under := (inv.under_iff here).mpr below
  cases path with
  | nil => exact ⟨under.eq_of_nil, rfl⟩
  | cons name path =>
    obtain ⟨dir, child, _, known, _, member, _⟩ := under.uncons
    rw [found, Option.some.injEq] at known
    rw [← known, empty] at member
    cases member

/-- All nodes at paths from `top` on are unlinked and freed. -/
structure Removal (k : Kinfo) (top : ProcPath) (last : Kinfo) (events : List NodeEvent) : Prop where
  freed : ∀ i, i ∈ freedNodes events ↔ ∃ path, k.nodePath i = some (top ++ path)
  nodup : (freedNodes events).Nodup
  unlinked : unlinkedNodes events = freedNodes events
  order : (freedNodes events).Pairwise fun a b => ∀ path, k.nodePath a = some path →
    ∀ rest, k.nodePath b ≠ some (path ++ rest)
  alive : ∀ e ∈ events, (k.nodes e.node).isSome = true
  safe : events.Pairwise fun a b => a ≠ .freed b.node
  nodes : ∀ i, last.nodes i = if i ∈ freedNodes events then none else
    (k.nodes i).map fun x => { x with subnodes := x.subnodes.filter fun c => c ∉ freedNodes events }

theorem Removal.done (none : ∀ i path, k.nodePath i ≠ some (top ++ path)) : k.Removal top k [] := by
  have nothing : freedNodes [] = [] := rfl
  refine ⟨fun i => ?_, List.nodup_nil, rfl, .nil, fun e member => absurd member List.not_mem_nil, .nil, fun i => ?_⟩
  · rw [nothing]
    refine ⟨fun member => absurd member List.not_mem_nil, fun found => ?_⟩
    obtain ⟨path, here⟩ := found
    exact absurd here (none i path)
  · cases k.nodes i with
    | none => rfl
    | some x => simp [nothing]

theorem freedNodes_touched (looked : List Nat) (events : List NodeEvent) :
    freedNodes (looked.map .touched ++ events) = freedNodes events := by
  induction looked with
  | nil => rfl
  | cons n looked ih => exact ih

theorem unlinkedNodes_touched (looked : List Nat) (events : List NodeEvent) :
    unlinkedNodes (looked.map .touched ++ events) = unlinkedNodes events := by
  induction looked with
  | nil => rfl
  | cons n looked ih => exact ih

/-- Looking at nodes that are there changes nothing. -/
theorem Removal.touch (removal : k.Removal top last events) {looked : List Nat}
    (alive : ∀ n ∈ looked, (k.nodes n).isSome = true) :
    k.Removal top last (looked.map .touched ++ events) := by
  refine ⟨?_, ?_, ?_, ?_, fun e member => ?_, List.pairwise_append.mpr ⟨?_, removal.safe, ?_⟩, ?_⟩
  · rw [freedNodes_touched]
    exact removal.freed
  · rw [freedNodes_touched]
    exact removal.nodup
  · rw [freedNodes_touched, unlinkedNodes_touched]
    exact removal.unlinked
  · rw [freedNodes_touched]
    exact removal.order
  · rcases List.mem_append.mp member with before | later
    · obtain ⟨n, seen, rfl⟩ := List.mem_map.mp before
      exact alive n seen
    · exact removal.alive e later
  · rw [List.pairwise_map]
    exact List.pairwise_of_forall fun _ _ => NodeEvent.noConfusion
  · intro a before b _
    obtain ⟨n, _, rfl⟩ := List.mem_map.mp before
    exact NodeEvent.noConfusion
  · rw [freedNodes_touched]
    exact removal.nodes

section Drop

variable {name : CStr} (inv : k.Inv) (here : k.nodes c = some node) (notRoot : c ≠ k.root)
  (empty : node.subnodes = []) (parent : node.parent = some p) (up : k.nodePath p = some path)

theorem shrink_nodePath_eq (notRoot : c ≠ k.root) :
    (k.shrink c path name).nodePath i = if i = c then none else k.nodePath i := by
  split
  · rename_i same
    by_contra found
    obtain ⟨above, now⟩ := Option.ne_none_iff_exists'.mp found
    exact (shrink_path notRoot now).1 same
  · rename_i other
    exact shrink_nodePath other

include inv here notRoot empty parent up in
/-- A node without children goes first, then all the others. -/
theorem Removal.cons (within : top <+: path ++ [node.name])
    (removal : (k.shrink c path node.name).Removal top last events) :
    k.Removal top last ([.unlinked c, .freed c] ++ events) := by
  have own := inv.child_path here notRoot parent up
  have gone (i : Nat) (member : i ∈ freedNodes events) : i ≠ c := by
    obtain ⟨below, now⟩ := (removal.freed i).mp member
    exact (shrink_path notRoot now).1
  have freed : freedNodes ([.unlinked c, .freed c] ++ events) = c :: freedNodes events := rfl
  have unlinked : unlinkedNodes ([.unlinked c, .freed c] ++ events) = c :: unlinkedNodes events := rfl
  have later (e : NodeEvent) (member : e ∈ events) : e.node ≠ c ∧ (k.nodes e.node).isSome = true := by
    obtain ⟨x, now⟩ := Option.isSome_iff_exists.mp (removal.alive e member)
    obtain ⟨kept, y, old, _⟩ := shrink_nodes_cases now
    exact ⟨kept, Option.isSome_iff_exists.mpr ⟨y, old⟩⟩
  refine ⟨fun i => ?_, ?_, ?_, ?_, fun e member => ?_, List.pairwise_append.mpr ⟨?_, removal.safe, ?_⟩, fun i => ?_⟩
  · rw [freed, List.mem_cons]
    by_cases same : i = c
    · obtain ⟨rest, whole⟩ := within
      refine ⟨fun _ => ⟨rest, ?_⟩, fun _ => .inl same⟩
      rw [same, own, whole]
    · rw [removal.freed i, shrink_nodePath_eq notRoot, if_neg same, or_iff_right same]
  · rw [freed]
    exact List.nodup_cons.mpr ⟨fun member => gone c member rfl, removal.nodup⟩
  · rw [freed, unlinked, removal.unlinked]
  · rw [freed]
    refine List.pairwise_cons.mpr ⟨fun b member above start rest below => ?_, ?_⟩
    · exact gone b member (inv.path_of_empty here empty start below).1
    · refine removal.order.imp_of_mem fun first second apart above start rest below => ?_
      rw [shrink_nodePath_eq notRoot, if_neg (gone _ first)] at apart
      refine apart above start rest ?_
      rw [shrink_nodePath_eq notRoot, if_neg (gone _ second)]
      exact below
  · rcases List.mem_append.mp member with now | old
    · have same : e.node = c := by
        simp only [List.mem_cons, List.not_mem_nil, or_false] at now
        rcases now with rfl | rfl
        · rfl
        · rfl
      rw [same, here]
      rfl
    · exact (later e old).2
  · refine List.pairwise_cons.mpr ⟨fun b _ => NodeEvent.noConfusion, List.pairwise_singleton _ _⟩
  · intro a now b member same
    simp only [List.mem_cons, List.not_mem_nil, or_false] at now
    rcases now with rfl | rfl
    · cases same
    · exact (later b member).1 (NodeEvent.freed.inj same).symm
  · rw [removal.nodes i, freed]
    by_cases same : i = c
    · simp [same, Kinfo.shrink]
    · simp only [List.mem_cons, same, false_or, Kinfo.shrink, if_false]
      cases found : k.nodes i with
      | none => rfl
      | some x =>
        have both : (x.subnodes.erase c).filter (fun n => n ∉ freedNodes events) =
            x.subnodes.filter fun n => ¬(n = c ∨ n ∈ freedNodes events) := by
          rw [(inv.distinct i x found).erase_eq_filter, List.filter_filter]
          refine List.filter_congr fun n _ => ?_
          by_cases first : n = c
          · simp [first]
          · simp [first]
        rw [Option.map_some, Option.map_some, Option.map_some, both]

include inv here notRoot empty parent up in
theorem Inv.dropNode : ∃ touched : List Nat, k.dropNode c = some (k.shrink c path node.name, touched.map .touched ++
    [.unlinked c, .freed c]) ∧ ∀ n ∈ touched, (k.nodes n).isSome = true := by
  obtain ⟨after, unlinked, freed⟩ := Option.map_eq_some_iff.mp (inv.unlink here notRoot empty parent up)
  refine ⟨k.unlinkTouches c, ?_, ?_⟩
  · rw [Kinfo.dropNode, unlinked, Option.map_some, freed]
  · obtain ⟨dir, found⟩ := inv.live_of_path up
    simp only [unlinkTouches, here, Option.bind_some, parent, subnodesOf_eq found]
    intro n member
    rcases List.mem_cons.mp member with rfl | member
    · rw [here]
      rfl
    rcases List.mem_cons.mp member with rfl | beside
    · rw [found]
      rfl
    have inside : n ∈ dir.subnodes := by
      rcases List.mem_append.mp beside with before | behind
      · exact (List.takeWhile_sublist _).subset (List.mem_of_getLast? (Option.mem_toList.mp before))
      · exact (List.dropWhile_sublist _).subset
          (List.mem_of_mem_tail (List.mem_of_head? (Option.mem_toList.mp behind)))
    obtain ⟨x, known, _⟩ := inv.child p dir found n inside
    rw [known]
    rfl

include inv here notRoot empty parent up in
/-- Looks at nodes, drops a node without children, and goes on. -/
theorem Inv.removal_drop (within : top <+: path ++ [node.name]) {looked : List Nat}
    (alive : ∀ n ∈ looked, (k.nodes n).isSome = true) : ∃ dropped, k.dropNode c =
      some (k.shrink c path node.name, dropped) ∧ ∀ last events, (k.shrink c path node.name).Removal top last events →
        k.Removal top last (looked.map .touched ++ (dropped ++ events)) := by
  obtain ⟨touched, ran, there⟩ := inv.dropNode here notRoot empty parent up
  refine ⟨_, ran, fun last events removal => Removal.touch ?_ alive⟩
  rw [List.append_assoc]
  exact (Removal.cons inv here notRoot empty parent up within removal).touch there

end Drop

/-- The loop takes away what lies at paths from `above ++ [name]` on, if it starts there. -/
theorem Below.removeLoopLog {q fuel : Nat} {above : ProcPath} {name : CStr} (below : k.Below q c above path)
    (within : above ++ [name] <+: path) (enough : k.rounds ≤ fuel + path.length) :
    ∃ last events, Kinfo.removeLoopLog (some q) fuel k c = some (last, events) ∧
      k.Removal (above ++ [name]) last events := by
  refine below.rounds_induction (motive := fun fuel k c path => above ++ [name] <+: path → ∃ last events,
    Kinfo.removeLoopLog (some q) fuel k c = some (last, events) ∧ k.Removal (above ++ [name]) last events)
    ?_ ?_ ?_ ?_ enough within
  · intro fuel k c path dir child rest node _ found children known down ih within
    obtain ⟨last, events, ran, removal⟩ := ih (within.trans (List.prefix_append _ _))
    rw [Kinfo.removeLoopLog, subnodesOf_eq found, children]
    simp only [down, if_true, ran, Option.map_some]
    exact ⟨last, _, rfl, removal.touch (by simp [found, known])⟩
  · intro fuel k c path dir child rest node below found children known plain empty other parent ih within
    have alive : ∀ n ∈ [c, child], (k.nodes n).isSome = true := by
      simp [found, known]
    obtain ⟨dropped, ran, first⟩ := below.inv.removal_drop known other empty parent below.here
      (within.trans (List.prefix_append _ _)) alive
    obtain ⟨last, events, onward, removal⟩ := ih within
    rw [Kinfo.removeLoopLog, subnodesOf_eq found, children]
    simp only [plain, Bool.false_eq_true, if_false, ran, Option.bind_some, onward, Option.map_some]
    exact ⟨last, _, rfl, first last events removal⟩
  · intro fuel k c dir below found children parent within
    -- `c` is the node that was to be removed, and nothing is left below it
    have names : above ++ [name] = above ++ [dir.name] := within.eq_of_length (by simp)
    rw [names] at within ⊢
    have alive : ∀ n ∈ [c], (k.nodes n).isSome = true := by
      simp [found]
    obtain ⟨dropped, ran, first⟩ :=
      below.inv.removal_drop found below.notRoot children parent below.stop within alive
    rw [Kinfo.removeLoopLog, subnodesOf_eq found, children]
    simp only [found, Option.bind_some, parent, ran, if_true]
    refine ⟨_, _, rfl, ?_⟩
    rw [← List.append_nil dropped]
    refine first _ _ (Removal.done fun i rest now => ?_)
    obtain ⟨kept, old⟩ := shrink_path below.notRoot now
    exact kept (below.inv.path_of_empty found children below.here old).1
  · intro fuel k c p upper dir below found children parent outer further ih within
    have alive : ∀ n ∈ [c], (k.nodes n).isSome = true := by
      simp [found]
    obtain ⟨dropped, ran, first⟩ := below.inv.removal_drop found below.notRoot children parent outer within alive
    have inside : above ++ [name] <+: upper := by
      rcases List.prefix_concat_iff.mp within with here | inside
      · obtain ⟨same, _⟩ := List.append_inj' here rfl
        rw [← same] at outer
        exact absurd (below.inv.paths p q above outer below.stop) further
      · exact inside
    obtain ⟨last, events, onward, removal⟩ := ih inside
    rw [Kinfo.removeLoopLog, subnodesOf_eq found, children]
    simp only [found, Option.bind_some, parent, ran, Option.some.injEq, further, if_false, onward, Option.map_some]
    exact ⟨last, _, rfl, first last events removal⟩

/-- Removing a node other than the root takes away what lies at its path and below it. -/
theorem Inv.kfioInfoRemoveNodeLog (inv : k.Inv) (found : k.nodes n = some node) (notRoot : n ≠ k.root)
    (here : k.nodePath n = some path) : ∃ last events,
      k.kfioInfoRemoveNodeLog (some n) = some (last, none, events) ∧ k.Removal path last events := by
  obtain ⟨p, _, upper, parent, _, _, outer, whole⟩ := inv.path_snoc found notRoot
  rw [here, Option.some.injEq] at whole
  subst whole
  have alive : ∀ i ∈ [n], (k.nodes i).isSome = true := by
    simp [found]
  by_cases folder : node.type = .dir
  · obtain ⟨other, below⟩ := inv.below found folder notRoot outer here
    obtain ⟨last, events, ran, removal⟩ := below.removeLoopLog (List.prefix_refl _) (Nat.le_add_right _ _)
    refine ⟨last, _, ?_, removal.touch alive⟩
    simp only [Kinfo.kfioInfoRemoveNodeLog, found, folder, if_true, parent, Option.some.injEq, other, if_false, ran,
      Option.map_some]
  · have empty := inv.leaf found folder
    obtain ⟨dropped, ran, first⟩ :=
      inv.removal_drop found notRoot empty parent outer (List.prefix_refl _) alive
    refine ⟨_, _, ?_, first _ _ (Removal.done fun i rest now => ?_)⟩
    · simp only [Kinfo.kfioInfoRemoveNodeLog, found, folder, if_false, ran, Option.map_some, List.append_nil]
    · obtain ⟨kept, old⟩ := shrink_path notRoot now
      exact kept (inv.path_of_empty found empty here old).1

/-- The lists of the nodes that stay only lose the node itself. -/
theorem Removal.kept (inv : k.Inv) (found : k.nodes n = some node) (here : k.nodePath n = some path)
    (removal : k.Removal path last events) {m : Nat} (stays : m ∉ freedNodes events) :
    last.nodes m = (k.nodes m).map fun x =>
      { x with subnodes := if node.parent = some m then x.subnodes.erase n else x.subnodes } := by
  rw [removal.nodes m, if_neg stays]
  cases there : k.nodes m with
  | none => rfl
  | some x =>
    obtain ⟨above, start⟩ := inv.has_path there
    have gone (c : Nat) (member : c ∈ x.subnodes) : c ∈ freedNodes events ↔ c = n := by
      rw [removal.freed c]
      constructor
      · intro freed
        obtain ⟨rest, whole⟩ := freed
        obtain ⟨y, _, _, _, longer, _⟩ := inv.path_child there member start
        rw [longer, Option.some.injEq] at whole
        induction rest using List.reverseRecOn with
        | nil =>
          rw [List.append_nil] at whole
          exact inv.paths c n _ (whole ▸ longer) here
        | append_singleton between name _ =>
          rw [← List.append_assoc] at whole
          obtain ⟨same, _⟩ := List.append_inj' whole rfl
          rw [same] at start
          exact absurd ((removal.freed m).mpr ⟨between, start⟩) stays
      · rintro rfl
        exact ⟨[], by rw [List.append_nil, here]⟩
    have filtered : x.subnodes.filter (fun c => c ∉ freedNodes events) = x.subnodes.erase n := by
      rw [(inv.distinct m x there).erase_eq_filter]
      refine List.filter_congr fun c member => ?_
      rw [decide_not, decide_eq_decide.mpr (gone c member)]
      rfl
    rw [Option.map_some, Option.map_some, filtered]
    by_cases parent : node.parent = some m
    · rw [if_pos parent]
    · rw [if_neg parent, List.erase_of_not_mem]
      intro member
      obtain ⟨y, again, mine⟩ := inv.child m x there n member
      rw [found, Option.some.injEq] at again
      exact parent (again ▸ mine)

end Kinfo

/-- Removing a node unlinks and frees the nodes of its subtree, each once and each one
behind those below it, uses no node that was freed, and leaves all others as they are. -/
theorem kfioInfo_remove_subtree {k : Kinfo} (inv : k.Inv) {n : Nat} {node : InfoNode} (found : k.nodes n = some node)
    (notRoot : n ≠ k.root) : ∃ last events,
    k.kfioInfoRemoveNodeLog (some n) = some (last, none, events) ∧ k.kfioInfoRemoveNode (some n) = some last ∧
      (∀ m, m ∈ freedNodes events ↔ ∃ path, k.Under n m path) ∧ (freedNodes events).Nodup ∧
      unlinkedNodes events = freedNodes events ∧
      (freedNodes events).Pairwise (fun a b => ∀ path, ¬k.Under a b path) ∧
      events.Pairwise (fun a b => a ≠ .freed b.node) ∧ (∀ m ∈ freedNodes events, last.nodes m = none) ∧
      ∀ m ∉ freedNodes events, last.nodes m = (k.nodes m).map fun x =>
        { x with subnodes := if node.parent = some m then x.subnodes.erase n else x.subnodes } := by
  obtain ⟨path, here⟩ := inv.has_path found
  obtain ⟨last, events, ran, removal⟩ := inv.kfioInfoRemoveNodeLog found notRoot here
  have plain := k.kfioInfoRemoveNodeLog_fst (some n)
  rw [ran, Option.map_some] at plain
  refine ⟨last, events, ran, plain.symm, fun m => ?_, removal.nodup, removal.unlinked, ?_, removal.safe, ?_,
    fun m stays => removal.kept inv found here stays⟩
  · rw [removal.freed m]
    exact exists_congr fun rest => (inv.under_iff here).symm
  · refine removal.order.imp_of_mem fun first _ apart rest under => ?_
    obtain ⟨between, start⟩ := (removal.freed _).mp first
    exact apart _ start rest ((inv.under_iff start).mp under)
  · intro m gone
    rw [removal.nodes m, if_pos gone]

/-- A directory with a directory, which has a value, and another value is removed. -/
theorem kfioInfo_remove_subtree_four : ∃ k : Kinfo, k.Inv ∧ k.live.length = 5 ∧ ∃ last events,
    k.kfioInfoRemoveNodeLog (some 1) = some (last, none, events) ∧ (freedNodes events).Nodup ∧
      ∀ m, m ∈ freedNodes events ↔ ∃ path, k.Under 1 m path := by
  obtain ⟨k, history, reach, checked⟩ := KinfoReach.of_check 0 ⟨[102], by decide⟩
    [.createDir none ⟨[97], by decide⟩ (some 1) true, .createDir (some 1) ⟨[98], by decide⟩ (some 2) true,
      .createProc (some 2) ⟨[99], by decide⟩ .uint32 0 0 (some 3) true,
      .createText (some 1) ⟨[100], by decide⟩ 0 (some 4) true]
    (fun (k, _) => k.root == 0 && k.live.length == 5 && (k.nodes 1).isSome) (by decide +kernel)
  simp only [Bool.and_eq_true, beq_iff_eq] at checked
  obtain ⟨⟨root, live⟩, there⟩ := checked
  obtain ⟨node, found⟩ := Option.isSome_iff_exists.mp there
  have inv := Kinfo.Inv.of_reach reach
  have notRoot : 1 ≠ k.root := by
    rw [root]
    decide
  obtain ⟨last, events, ran, _, subtree, once, _⟩ := kfioInfo_remove_subtree inv found notRoot
  exact ⟨k, inv, live, last, events, ran, once, subtree⟩

end IomemoryVsl
