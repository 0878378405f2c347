import IomemoryVsl.KinfoRemove

namespace IomemoryVsl

namespace Kinfo

variable {k : Kinfo} {n p : Nat} {node dir : InfoNode} {path : ProcPath}

/-- A node that has memory but no place yet. -/
def withNode (k : Kinfo) (n : Nat) (node : InfoNode) : Kinfo :=
  { k with nodes := Function.update k.nodes n (some node), live := n :: k.live }

theorem kfioInfoAllocNode_eq_some {type : InfoType} {name : CStr} {malloc : Option Nat} {last : Kinfo}
    (ran : k.kfioInfoAllocNode type name malloc = some (last, n)) :
    malloc = some n ∧ last = k.withNode n ⟨none, type, 0, 0, none, name, []⟩ := by
  unfold kfioInfoAllocNode at ran
  split at ran
  · cases ran
  · obtain ⟨m, got, same⟩ := Option.map_eq_some_iff.mp ran
    cases same
    exact ⟨got, rfl⟩

theorem withNode_modify (k : Kinfo) (n : Nat) (node : InfoNode) (f : InfoNode → InfoNode) :
    (k.withNode n node).modify n f = k.withNode n (f node) := by
  simp only [withNode, modify, Function.update_self, Option.map_some, Function.update_idem]

/-- Freeing the new node leaves no trace. -/
theorem withNode_free (fresh : k.nodes n = none) : (k.withNode n node).kfioInfoFreeNode n = k := by
  simp only [withNode, kfioInfoFreeNode, Function.update_idem, List.erase_cons_head]
  rw [← fresh, Function.update_eq_self]

theorem withNode_nodes_other (other : p ≠ n) : (k.withNode n node).nodes p = k.nodes p :=
  Function.update_of_ne other _ _

theorem withNode_nodes_self : (k.withNode n node).nodes n = some node := Function.update_self _ _ _

/-- The new node has an entry in procfs. -/
def withEntry (k : Kinfo) (n : Nat) (node : InfoNode) (path : ProcPath) : Kinfo :=
  ({ k with procfs := k.procfs ++ [(path, node.name)] } : Kinfo).withNode n
    { node with osPriv := some (path ++ [node.name]) }

/-- The backend makes the entry for a new node, or nothing happens. -/
theorem procCreate_cases (k : Kinfo) (n : Nat) (node : InfoNode) (path : ProcPath) (proc : Bool) :
    (k.withNode n node).procCreate path n node proc = (k.withNode n node, -eio) ∨
      (path, node.name) ∉ k.procfs ∧
        (k.withNode n node).procCreate path n node proc = (k.withEntry n node path, 0) := by
  have entered := ({ k with procfs := k.procfs ++ [(path, node.name)] } : Kinfo).withNode_modify n node fun node =>
    { node with osPriv := some (path ++ [node.name]) }
  unfold procCreate
  split
  · exact .inl rfl
  · rename_i free
    exact .inr ⟨fun taken => free (.inl taken), congrArg (·, (0 : Int)) entered⟩

/-- Where a new node goes: `path` is what procfs has for its directory. -/
structure Place (k : Kinfo) (parent : Option Nat) (node : InfoNode) (path : ProcPath) : Prop where
  here : k.nodePath (parent.getD k.root) = some path
  free : (path, node.name) ∉ k.procfs
  top : parent.getD k.root = k.root → node.type = .dir

theorem Inv.osCreate_cases {parent : Option Nat} (inv : k.Inv) (fresh : k.nodes n = none)
    (alive : ∀ p ∈ parent, (k.nodes p).isSome = true) (node : InfoNode) (proc : Bool) :
    (k.withNode n node).kfioInfoOsCreateNode parent n proc = (k.withNode n node, -eio) ∨
      ∃ path, k.Place parent node path ∧
        (k.withNode n node).kfioInfoOsCreateNode parent n proc = (k.withEntry n node path, 0) := by
  cases parent with
  | none =>
    simp only [kfioInfoOsCreateNode, withNode_nodes_self]
    split
    · rename_i folder
      rcases k.procCreate_cases n node [] proc with failed | ⟨free, made⟩
      · exact .inl failed
      · exact .inr ⟨[], ⟨k.nodePath_root, free, fun _ => folder⟩, made⟩
    · exact .inl rfl
  | some p =>
    obtain ⟨x, known⟩ := Option.isSome_iff_exists.mp (alive p rfl)
    have other : p ≠ n := ne_of_fresh known fresh
    have same : (k.withNode n node).osPrivOf p = k.osPrivOf p := by
      rw [osPrivOf, withNode_nodes_other other, osPrivOf]
    simp only [kfioInfoOsCreateNode, withNode_nodes_self, same]
    split
    · exact .inl rfl
    · exact .inl rfl
    · rename_i path priv _
      obtain ⟨folder, there, own⟩ := Option.bind_eq_some_iff.mp priv
      have notRoot : p ≠ k.root := inv.ne_root_of_priv there own
      rcases k.procCreate_cases n node path proc with failed | ⟨free, made⟩
      · exact .inl failed
      · refine .inr ⟨path, ⟨?_, free, fun top => absurd top notRoot⟩, made⟩
        rw [Option.getD_some, nodePath, if_neg notRoot, priv]

/-- The node that is linked to its directory is one that `grow` adds. -/
theorem withEntry_link (fresh : k.nodes n = none) (found : k.nodes p = some dir) :
    ((k.withEntry n node path).modify n fun node => { node with parent := some p }).modify p (fun dir =>
      { dir with subnodes := dir.subnodes ++ [n] }) =
      k.grow p n path { node with parent := some p, osPriv := some (path ++ [node.name]) } := by
  have other : p ≠ n := ne_of_fresh found fresh
  rw [withEntry, withNode_modify]
  simp only [modify, withNode, grow, Function.update_of_ne other]

/-- The directory that passes the assertion, or the root, is one. -/
theorem Inv.parent_dir {parent : Option Nat} (inv : k.Inv) (fresh : k.nodes n = none)
    (found : k.nodes (parent.getD k.root) = some dir)
    (passed : ¬ (parent.any fun p => !(k.withNode n node).isDir p) = true) : dir.type = .dir := by
  cases parent with
  | none =>
    obtain ⟨top, there, type, _⟩ := inv.root
    rw [Option.getD_none, there, Option.some.injEq] at found
    rw [← found]
    exact type
  | some p =>
    have other : p ≠ n := ne_of_fresh found fresh
    rw [Option.any_some, Bool.not_eq_true', Bool.not_eq_false, isDir, withNode_nodes_other other] at passed
    exact (isDir_iff found).mp passed

/-- A new node is put in its place, or it is as if there had never been one. -/
theorem Inv.insertOrFree {parent : Option Nat} {proc : Bool} {last : Kinfo} {rc : Int} (inv : k.Inv)
    (fresh : k.nodes n = none) (alive : ∀ p ∈ parent, (k.nodes p).isSome = true) (empty : node.subnodes = [])
    (ran : (k.withNode n node).insertOrFree parent n proc = some (last, rc)) :
    rc ≠ 0 ∧ last = k ∨ rc = 0 ∧ last.Inv := by
  obtain ⟨⟨placed, code⟩, inserted, same⟩ := Option.map_eq_some_iff.mp ran
  unfold kfioInfoInsertNode at inserted
  split at inserted
  · cases inserted
  rename_i folder
  split at inserted
  · cases inserted
    cases same
    exact .inl ⟨by decide, withNode_free fresh⟩
  rcases inv.osCreate_cases fresh alive node proc with failed | ⟨path, place, made⟩
  · simp only [failed] at inserted
    cases inserted
    cases same
    exact .inl ⟨by decide, withNode_free fresh⟩
  · rw [made] at inserted
    obtain ⟨dir, found⟩ := inv.live_of_path place.here
    have type : dir.type = .dir := inv.parent_dir fresh found folder
    cases inserted
    cases same
    refine .inr ⟨rfl, ?_⟩
    rw [show (k.withEntry n node path).root = k.root from rfl, withEntry_link fresh found]
    exact inv.grow found type place.here fresh place.free rfl rfl empty place.top

theorem insertOrFree_isSome {parent : Option Nat} {proc : Bool}
    (folder : (parent.any fun p => !(k.withNode n node).isDir p) = false) :
    ((k.withNode n node).insertOrFree parent n proc).isSome = true := by
  simp only [Kinfo.insertOrFree, Option.isSome_map, kfioInfoInsertNode, folder, Bool.false_eq_true, if_false]
  split
  · rfl
  · split
    · rfl
    · rfl

section Create

variable {parent : Option Nat} {name : CStr} {type : InfoType} {malloc : Option Nat} {proc : Bool} {made last : Kinfo}
  {rc : Int} {f : InfoNode → InfoNode}

/-- What the creates have in common: memory, some fields, and the insertion. -/
theorem Inv.inserted (inv : k.Inv) (fresh : ∀ n ∈ malloc, k.nodes n = none)
    (alive : ∀ p ∈ parent, (k.nodes p).isSome = true) (alloc : k.kfioInfoAllocNode type name malloc = some (made, n))
    (ran : (made.modify n f).insertOrFree parent n proc = some (last, rc))
    (keeps : ∀ node, (f node).subnodes = node.subnodes) :
    rc ≠ 0 ∧ last = k ∨ rc = 0 ∧ last.Inv := by
  obtain ⟨got, rfl⟩ := kfioInfoAllocNode_eq_some alloc
  rw [withNode_modify] at ran
  exact inv.insertOrFree (fresh n got) alive (keeps _) ran

theorem inserted_isSome (fresh : ∀ n ∈ malloc, k.nodes n = none) (folder : ∀ p ∈ parent, k.isDir p = true)
    (alloc : k.kfioInfoAllocNode type name malloc = some (made, n)) :
    ((made.modify n f).insertOrFree parent n proc).isSome = true := by
  obtain ⟨got, rfl⟩ := kfioInfoAllocNode_eq_some alloc
  rw [withNode_modify]
  refine insertOrFree_isSome ?_
  cases parent with
  | none => rfl
  | some p =>
    have known := folder p rfl
    have other : p ≠ n := by
      rintro rfl
      rw [isDir, fresh p got] at known
      cases known
    rw [Option.any_some, isDir, withNode_nodes_other other]
    rw [isDir] at known
    rw [known]
    rfl

theorem Inv.kfioInfoCreateDir (inv : k.Inv) (fresh : ∀ n ∈ malloc, k.nodes n = none)
    (alive : ∀ p ∈ parent, (k.nodes p).isSome = true)
    (ran : k.kfioInfoCreateDir parent name malloc proc = some (last, rc)) :
    rc ≠ 0 ∧ last = k ∨ rc = 0 ∧ last.Inv := by
  unfold Kinfo.kfioInfoCreateDir at ran
  split at ran
  · cases ran
    exact .inl ⟨by decide, rfl⟩
  · rename_i made n alloc
    exact inv.inserted fresh alive alloc ran fun _ => rfl

theorem Inv.kfioInfoCreateProc {mode size : Nat} (inv : k.Inv) (fresh : ∀ n ∈ malloc, k.nodes n = none)
    (alive : ∀ p ∈ parent, (k.nodes p).isSome = true)
    (ran : k.kfioInfoCreateProc parent name type mode size malloc proc = some (last, rc)) :
    rc ≠ 0 ∧ last = k ∨ rc = 0 ∧ last.Inv := by
  unfold Kinfo.kfioInfoCreateProc at ran
  split at ran
  · cases ran
    exact .inl ⟨by decide, rfl⟩
  split at ran
  · cases ran
    exact .inl ⟨by decide, rfl⟩
  rename_i made n alloc
  split at ran
  · obtain ⟨got, rfl⟩ := kfioInfoAllocNode_eq_some alloc
    cases ran
    exact .inl ⟨by decide, withNode_free (fresh n got)⟩
  · exact inv.inserted fresh alive alloc ran fun _ => rfl

theorem Inv.createFile {mode : Nat} (inv : k.Inv) (fresh : ∀ n ∈ malloc, k.nodes n = none)
    (alive : ∀ p ∈ parent, (k.nodes p).isSome = true)
    (ran : Kinfo.createFile type k parent name mode malloc proc = some (last, rc)) :
    rc ≠ 0 ∧ last = k ∨ rc = 0 ∧ last.Inv := by
  unfold Kinfo.createFile at ran
  split at ran
  · cases ran
    exact .inl ⟨by decide, rfl⟩
  split at ran
  · cases ran
    exact .inl ⟨by decide, rfl⟩
  · rename_i made n alloc
    exact inv.inserted fresh alive alloc ran fun _ => rfl

/-- A create call leaves everything in order, and as it was if it fails. -/
theorem Inv.create {action : KinfoAction} (inv : k.Inv) (live : k.Live action)
    (ran : k.create action = some (last, rc)) : rc ≠ 0 ∧ last = k ∨ rc = 0 ∧ last.Inv := by
  cases action with
  | createDir parent name malloc proc => exact inv.kfioInfoCreateDir live.malloc live.parent ran
  | createProc parent name type mode size malloc proc => exact inv.kfioInfoCreateProc live.malloc live.parent ran
  | createSeqf parent name mode malloc proc => exact inv.createFile live.malloc live.parent ran
  | createText parent name mode malloc proc => exact inv.createFile live.malloc live.parent ran
  | removeNode nodep => cases ran

theorem createFile_isSome {mode : Nat} (fresh : ∀ n ∈ malloc, k.nodes n = none)
    (folder : ∀ p ∈ parent, k.isDir p = true) :
    (Kinfo.createFile type k parent name mode malloc proc).isSome = true := by
  unfold Kinfo.createFile
  split
  · rfl
  split
  · rfl
  · rename_i alloc
    exact inserted_isSome fresh folder alloc

/-- A create call that meets the assertion on its parent comes back. -/
theorem create_isSome {action : KinfoAction} (live : k.Live action) (legal : k.Legal action)
    (creates : ∀ nodep, action ≠ .removeNode nodep) : (k.create action).isSome = true := by
  cases action with
  | createDir parent name malloc proc =>
    rw [Kinfo.create, Kinfo.kfioInfoCreateDir]
    split
    · rfl
    · rename_i alloc
      exact inserted_isSome live.malloc legal.parent alloc
  | createProc parent name type mode size malloc proc =>
    rw [Kinfo.create, Kinfo.kfioInfoCreateProc]
    split
    · rfl
    split
    · rfl
    rename_i alloc
    split
    · rfl
    · exact inserted_isSome live.malloc legal.parent alloc
  | createSeqf parent name mode malloc proc => exact createFile_isSome live.malloc legal.parent
  | createText parent name mode malloc proc => exact createFile_isSome live.malloc legal.parent
  | removeNode nodep => exact absurd rfl (creates nodep)

theorem step_create {action : KinfoAction} (creates : ∀ nodep, action ≠ .removeNode nodep) :
    k.step action = (k.create action).map fun (k, rc) => (k, [rc]) := by
  cases action with
  | removeNode nodep => exact absurd rfl (creates nodep)
  | _ => rfl

/-- A call that meets the assertions goes through. -/
theorem Inv.step_isSome {action : KinfoAction} (inv : k.Inv) (live : k.Live action) (legal : k.Legal action) :
    (k.step action).isSome = true := by
  by_cases creates : ∀ nodep, action ≠ .removeNode nodep
  · rw [step_create creates, Option.isSome_map]
    exact create_isSome live legal creates
  · push Not at creates
    obtain ⟨nodep, rfl⟩ := creates
    rw [step, Option.isSome_map]
    cases nodep with
    | none => rfl
    | some n =>
      obtain ⟨node, found⟩ := Option.isSome_iff_exists.mp (live.removed n rfl)
      have notRoot : n ≠ k.root := by
        rintro rfl
        exact legal.removed rfl
      obtain ⟨last, ran, _⟩ := inv.kfioInfoRemoveNode found notRoot
      rw [ran]
      rfl

theorem Inv.step {action : KinfoAction} {events : List Int} (inv : k.Inv) (live : k.Live action)
    (ran : k.step action = some (last, events)) : last.Inv := by
  by_cases creates : ∀ nodep, action ≠ .removeNode nodep
  · rw [step_create creates] at ran
    obtain ⟨⟨made, rc⟩, called, same⟩ := Option.map_eq_some_iff.mp ran
    cases same
    rcases inv.create live called with ⟨_, rfl⟩ | ⟨_, fine⟩
    · exact inv
    · exact fine
  · push Not at creates
    obtain ⟨nodep, rfl⟩ := creates
    obtain ⟨rest, called, same⟩ := Option.map_eq_some_iff.mp ran
    cases same
    exact inv.removed called

end Create

theorem Inv.initial (root : Nat) (name : CStr) : (Kinfo.initial root name).Inv := by
  have only {n : Nat} {node : InfoNode} (here : (Kinfo.initial root name).nodes n = some node) :
      n = root ∧ node = ⟨none, .dir, 0, sIrugo, none, name, []⟩ := by
    by_cases same : n = root
    · simp only [Kinfo.initial, same, Function.update_self, Option.some.injEq] at here
      exact ⟨same, here.symm⟩
    · simp only [Kinfo.initial, Function.update_of_ne same] at here
      cases here
  have here : (Kinfo.initial root name).nodes root = some ⟨none, .dir, 0, sIrugo, none, name, []⟩ := by
    simp only [Kinfo.initial, Function.update_self]
  refine ⟨⟨_, here, rfl, rfl, rfl⟩, ?_, List.nodup_singleton root, ?_, ?_, ?_, ?_, ?_, ?_, List.nodup_nil⟩
  · intro n
    by_cases same : n = root
    · simp [Kinfo.initial, same]
    · simp [Kinfo.initial, same]
  · intro n node here other
    exact absurd (only here).1 other
  · intro p dir here c member
    rw [(only here).2] at member
    cases member
  · intro p dir here
    rw [(only here).2]
    exact List.nodup_nil
  · have top {n : Nat} {path : ProcPath} (at_ : (Kinfo.initial root name).nodePath n = some path) : n = root := by
      by_contra other
      rw [nodePath, if_neg (show n ≠ (Kinfo.initial root name).root from other), osPrivOf] at at_
      obtain ⟨node, here, _⟩ := Option.bind_eq_some_iff.mp at_
      exact other (only here).1
    intro n m path left right
    rw [top left, top right]
  · intro n node here above
    rw [(only here).2] at above
    cases above
  · intro dir entry
    constructor
    · intro member
      cases member
    · rintro ⟨n, node, here, priv⟩
      rw [(only here).2] at priv
      cases priv

theorem Under.nodePath {top : Nat} {above : ProcPath} (inv : k.Inv) (under : k.Under top n path)
    (start : k.nodePath top = some above) : k.nodePath n = some (above ++ path) := by
  induction under with
  | here => rw [List.append_nil, start]
  | child _ found _ member known ih =>
    obtain ⟨node, again, _, _, whole, _⟩ := inv.path_child found member ih
    rw [known, Option.some.injEq] at again
    rw [whole, ← again, List.append_assoc]

/-- The nodes below one are those whose paths continue its own. -/
theorem Inv.under_iff (inv : k.Inv) {above : ProcPath} (start : k.nodePath p = some above) :
    k.Under p n path ↔ k.nodePath n = some (above ++ path) := by
  constructor
  · exact fun under => under.nodePath inv start
  · intro whole
    induction path using List.reverseRecOn generalizing n with
    | nil =>
      rw [List.append_nil] at whole
      rw [inv.paths n p above whole start]
      exact .here
    | append_singleton between name ih =>
      have notRoot : n ≠ k.root := by
        rintro rfl
        rw [nodePath_root, Option.some.injEq] at whole
        simp at whole
      obtain ⟨node, found⟩ := inv.live_of_path whole
      obtain ⟨q, dir, upper, _, known, member, outer, same⟩ := inv.path_snoc found notRoot
      obtain ⟨_, _, _, _, _, type⟩ := inv.path_child known member outer
      rw [whole, Option.some.injEq, ← List.append_assoc] at same
      obtain ⟨rfl, names⟩ := List.append_inj' same rfl
      cases names
      exact .child (ih outer) known type member found

/-- The path that procfs has for a node is the one in the tree. -/
theorem Inv.at_iff (inv : k.Inv) : k.At n path ↔ k.nodePath n = some path := inv.under_iff k.nodePath_root

/-- Every node but the root is on one list, that of its directory, no directory has
two children of one name, and the entries below `fusion` are the nodes at their paths. -/
structure Mirrored (k : Kinfo) : Prop where
  listed : ∀ n node, k.nodes n = some node → n ≠ k.root → ∃ p dir, node.parent = some p ∧ k.nodes p = some dir ∧
    dir.type = .dir ∧ ∀ q other, k.nodes q = some other → other.subnodes.count n = if q = p then 1 else 0
  entries : ∀ p dir, k.nodes p = some dir → ∀ n ∈ dir.subnodes, n ≠ k.root ∧ (k.nodes n).isSome = true
  names : ∀ p dir n m left right, k.nodes p = some dir → n ∈ dir.subnodes → m ∈ dir.subnodes →
    k.nodes n = some left → k.nodes m = some right → left.name = right.name → n = m
  placed : ∀ n, (k.nodes n).isSome = true → ∃! path, k.At n path
  single : ∀ n m path, k.At n path → k.At m path → n = m
  procfs : ∀ dir name, (dir, name) ∈ k.procfs ↔ ∃ n, n ≠ k.root ∧ k.At n (dir ++ [name])
  procfsNodup : k.procfs.Nodup

theorem Inv.count (inv : k.Inv) (here : k.nodes n = some node) (found : k.nodes p = some dir)
    (member : n ∈ dir.subnodes) {q : Nat} {other : InfoNode} (known : k.nodes q = some other) :
    other.subnodes.count n = if q = p then 1 else 0 := by
  split
  · rename_i same
    rw [same, found, Option.some.injEq] at known
    rw [← known]
    exact List.count_eq_one_of_mem (inv.distinct p dir found) member
  · rename_i different
    refine List.count_eq_zero_of_not_mem fun also => different ?_
    obtain ⟨x, first, parent⟩ := inv.child p dir found n member
    obtain ⟨y, second, parents⟩ := inv.child q other known n also
    rw [here, Option.some.injEq] at first second
    rw [← first] at parent
    rw [← second, parent, Option.some.injEq] at parents
    exact parents.symm

theorem Inv.mirrored (inv : k.Inv) : k.Mirrored := by
  refine ⟨?_, ?_, ?_, ?_, ?_, ?_, inv.procfsNodup⟩
  · intro n node here other
    obtain ⟨p, dir, path, parent, found, type, member, _⟩ := inv.listed n node here other
    exact ⟨p, dir, parent, found, type, fun q list known => inv.count here found member known⟩
  · intro p dir found n member
    obtain ⟨path, up⟩ := inv.has_path found
    obtain ⟨node, here, _, other, _⟩ := inv.path_child found member up
    rw [here]
    exact ⟨other, rfl⟩
  · intro p dir n m left right found first second here there same
    exact inv.name_unique found first second here there same
  · intro n known
    obtain ⟨node, here⟩ := Option.isSome_iff_exists.mp known
    obtain ⟨path, whole⟩ := inv.has_path here
    refine ⟨path, inv.at_iff.mpr whole, fun other there => ?_⟩
    exact Option.some.inj ((inv.at_iff.mp there).symm.trans whole)
  · intro n m path left right
    exact inv.paths n m path (inv.at_iff.mp left) (inv.at_iff.mp right)
  · intro dir name
    rw [inv.procfs dir name]
    constructor
    · rintro ⟨n, node, here, priv⟩
      have other := inv.ne_root_of_priv here priv
      refine ⟨n, other, inv.at_iff.mpr ?_⟩
      rw [nodePath_of_ne other here, priv]
    · rintro ⟨n, other, there⟩
      have whole := inv.at_iff.mp there
      obtain ⟨node, here⟩ := inv.live_of_path whole
      rw [nodePath_of_ne other here] at whole
      exact ⟨n, node, here, whole⟩

theorem Inv.of_reach {root : Nat} {name : CStr} {history : List Int} (reach : KinfoReach root name k history) :
    k.Inv := by
  refine reach.invariant (fun k _ => k.Inv) (Inv.initial root name) ?_
  intro k last action history events _ inv live ran
  exact inv.step live ran

/-- `Live` as a test. -/
def testLive (k : Kinfo) (action : KinfoAction) : Bool :=
  (action.parent.all fun p => (k.nodes p).isSome) && (action.removed.all fun n => (k.nodes n).isSome) &&
    (action.malloc.all fun n => (k.nodes n).isNone) && action.name.all fun name => !name.bytes.contains 47

theorem testLive_sound (k : Kinfo) (action : KinfoAction) (passed : k.testLive action = true) : k.Live action := by
  simp only [testLive, Bool.and_eq_true, Option.all_eq_true, Option.isNone_iff_eq_none, Bool.not_eq_true',
    List.contains_eq_mem, decide_eq_false_iff_not] at passed
  obtain ⟨⟨⟨parent, removed⟩, malloc⟩, name⟩ := passed
  exact ⟨parent, removed, malloc, name⟩

end Kinfo

theorem KinfoReach.of_check (root : Nat) (name : CStr) (actions : List KinfoAction) (check : Kinfo × List Int → Bool)
    (passes : (Transition.run Kinfo.step Kinfo.testLive (Kinfo.initial root name) actions).any check = true) :
    ∃ k history, KinfoReach root name k history ∧ check (k, history) = true :=
  Transition.Reach.of_check Kinfo.testLive_sound check passes

/-- After any run of calls the tree hangs together and procfs mirrors it, a create
call that fails changes nothing, and no call fails that meets the assertions. -/
theorem kfioInfo_mirrored {root : Nat} {name : CStr} {k : Kinfo} {history : List Int}
    (reach : KinfoReach root name k history) : k.Mirrored ∧
      (∀ action last rc, k.Live action → k.create action = some (last, rc) → rc ≠ 0 → last = k) ∧
      ∀ action, k.Live action → k.Legal action → (k.step action).isSome = true := by
  have inv := Kinfo.Inv.of_reach reach
  refine ⟨inv.mirrored, ?_, fun action live legal => inv.step_isSome live legal⟩
  intro action last rc live ran failed
  rcases inv.create live ran with ⟨_, same⟩ | ⟨fine, _⟩
  · exact same
  · exact absurd fine failed

/-- A directory, a value in it, the same name again, the same directory again, one
below, and a text there. -/
theorem kfioInfo_mirrored_six : ∃ k history, KinfoReach 0 ⟨[102], by decide⟩ k history ∧
    history = [0, 0, -17, -5, 0, 0] ∧ k.procfs.length = 4 ∧ k.Mirrored := by
  obtain ⟨k, history, reach, checked⟩ := KinfoReach.of_check 0 ⟨[102], by decide⟩
    [.createDir none ⟨[97], by decide⟩ (some 1) true,
      .createProc (some 1) ⟨[98], by decide⟩ .uint32 0 0 (some 2) true,
      .createProc (some 1) ⟨[98], by decide⟩ .uint32 0 0 (some 3) true,
      .createDir none ⟨[97], by decide⟩ (some 3) true, .createDir (some 1) ⟨[99], by decide⟩ (some 3) true,
      .createText (some 3) ⟨[100], by decide⟩ 0 (some 4) true]
    (fun (k, history) => decide (history = [0, 0, -17, -5, 0, 0]) && k.procfs.length == 4) (by decide +kernel)
  simp only [Bool.and_eq_true, decide_eq_true_eq, beq_iff_eq] at checked
  exact ⟨k, history, reach, checked.1, checked.2, (kfioInfo_mirrored reach).1⟩

end IomemoryVsl
