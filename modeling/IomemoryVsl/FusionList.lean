import IomemoryVsl.RingLinks

namespace IomemoryVsl

open RingLinks

section Operations

variable {α : Type*} [DecidableEq α]

/-- `e->next = target`. -/
def setNext (links : Links α) (e target : α) : Links α := { links with next := Function.update links.next e target }

/-- `e->prev = target`. -/
def setPrev (links : Links α) (e target : α) : Links α := { links with prev := Function.update links.prev e target }

def fusionInitList (links : Links α) (e : α) : Links α :=
  setPrev (setNext links e e) e e

/-- `fusion_list_add`, with its four stores in the order of the source. -/
def fusionListAdd (links : Links α) (e p n : α) : Links α :=
  let links := setPrev links n e
  let links := setNext links e n
  let links := setPrev links e p
  setNext links p e

def fusionListAddHead (links : Links α) (e l : α) : Links α := fusionListAdd links e l (links.next l)

def fusionListAddTail (links : Links α) (e l : α) : Links α := fusionListAdd links e (links.prev l) l

/-- `__fusion_list_del`. The second store reads the pointers of `e` again. -/
def fusionListDelRaw (null : α) (links : Links α) (e : α) : Links α :=
  if links.next e ≠ null ∧ links.prev e ≠ null then
    let links := setPrev links (links.next e) (links.prev e)
    setNext links (links.prev e) (links.next e)
  else links

def fusionListDel (null : α) (links : Links α) (e : α) : Links α :=
  fusionInitList (fusionListDelRaw null links e) e

def fusionListMoveHead (null : α) (links : Links α) (e l : α) : Links α :=
  fusionListAddHead (fusionListDelRaw null links e) e l

def fusionListMoveTail (null : α) (links : Links α) (e l : α) : Links α :=
  fusionListAddTail (fusionListDelRaw null links e) e l

def fusionListEmpty (links : Links α) (e : α) : Bool := links.next e = e

def fusionListAddList (links : Links α) (src dst : α) : Links α :=
  if links.next src = src then links else
    let newHead := links.next src
    let oldHead := links.next dst
    let links := setPrev links oldHead (links.prev src)
    let links := setNext links (links.prev src) oldHead
    let links := setPrev links newHead dst
    let links := setNext links dst newHead
    let links := setPrev links src src
    setNext links src src

/-- `fusion_list_pop_head`, which returns NULL for an empty list. -/
def fusionListPopHead (null : α) (links : Links α) (list : α) : Links α × α :=
  if fusionListEmpty links list then (links, null) else
    let retval := links.next list
    (fusionListDel null links retval, retval)

/-- `__fusion_list_splice`. -/
def fusionListSpliceBetween (links : Links α) (list prv nxt : α) : Links α :=
  let first := links.next list
  let last := links.prev list
  let links := setPrev links first prv
  let links := setNext links prv first
  let links := setNext links last nxt
  setPrev links nxt last

def fusionListSplice (links : Links α) (list head : α) : Links α :=
  if fusionListEmpty links list then links
  else fusionInitList (fusionListSpliceBetween links list head (links.next head)) list

def fusionListSpliceTail (links : Links α) (list head : α) : Links α :=
  if fusionListEmpty links list then links
  else fusionInitList (fusionListSpliceBetween links list (links.prev head) head) list

/-- A call of one of the operations. -/
inductive ListCall (α : Type*)
  | addHead (e l : α)
  | addTail (e l : α)
  | del (e : α)
  | moveHead (e l : α)
  | moveTail (e l : α)
  | popHead (l : α)
  | addList (src dst : α)
  | splice (list head : α)
  | spliceTail (list head : α)

/-- What a call does to the pointers and, for `fusion_list_pop_head`, what it returns. -/
def ListCall.run (null : α) (links : Links α) : ListCall α → Links α × Option α
  | .addHead e l => (fusionListAddHead links e l, none)
  | .addTail e l => (fusionListAddTail links e l, none)
  | .del e => (fusionListDel null links e, none)
  | .moveHead e l => (fusionListMoveHead null links e l, none)
  | .moveTail e l => (fusionListMoveTail null links e l, none)
  | .popHead l => ((fusionListPopHead null links l).1, some (fusionListPopHead null links l).2)
  | .addList src dst => (fusionListAddList links src dst, none)
  | .splice list head => (fusionListSplice links list head, none)
  | .spliceTail list head => (fusionListSpliceTail links list head, none)

end Operations

section Sequences

variable {α : Type*} [DecidableEq α]

/-- The lists without the entry, which is on none of them and no list of its own. -/
def takeOut (rings : Rings α) (e : α) : Rings α := fun head => if head = e then none else (rings head).map (·.erase e)

/-- The call on the sequences that the lists stand for. -/
def ListCall.effect (null : α) (rings : Rings α) : ListCall α → Rings α × Option α
  | .addHead e l => (Function.update (Function.update rings e none) l ((rings l).map (e :: ·)), none)
  | .addTail e l => (Function.update (Function.update rings e none) l ((rings l).map (· ++ [e])), none)
  | .del e => (Function.update (takeOut rings e) e (some []), none)
  | .moveHead e l => (Function.update (takeOut rings e) l ((takeOut rings e l).map (e :: ·)), none)
  | .moveTail e l => (Function.update (takeOut rings e) l ((takeOut rings e l).map (· ++ [e])), none)
  | .popHead l =>
    match rings l with
    | some (e :: xs) => (Function.update (Function.update rings l (some xs)) e (some []), some e)
    | _ => (rings, some null)
  | .addList src dst | .splice src dst =>
    (Function.update (Function.update rings dst ((rings dst).map ((rings src).getD [] ++ ·))) src (some []), none)
  | .spliceTail src dst =>
    (Function.update (Function.update rings dst ((rings dst).map (· ++ (rings src).getD []))) src (some []), none)

/-- The entry is unlinked or on a list. -/
def Initialized (rings : Rings α) (e : α) : Prop := rings e = some [] ∨ ∃ head xs, rings head = some xs ∧ e ∈ xs

/-- What the callers see to. -/
def ListCall.Permitted (rings : Rings α) : ListCall α → Prop
  | .addHead e l | .addTail e l => rings e = some [] ∧ (rings l).isSome ∧ e ≠ l
  | .del e => Initialized rings e
  | .moveHead e l | .moveTail e l => Initialized rings e ∧ (rings l).isSome ∧ e ≠ l
  | .popHead l => (rings l).isSome
  | .addList src dst | .splice src dst | .spliceTail src dst => (rings src).isSome ∧ (rings dst).isSome ∧ src ≠ dst

/-- The lists that the call is about: those it names and the one that its entry is on. -/
def ListCall.About (rings : Rings α) (head : α) : ListCall α → Prop
  | .addHead e l | .addTail e l => head = e ∨ head = l
  | .del e => head = e ∨ ∃ xs, rings head = some xs ∧ e ∈ xs
  | .moveHead e l | .moveTail e l => head = e ∨ head = l ∨ ∃ xs, rings head = some xs ∧ e ∈ xs
  | .popHead l => head = l ∨ (rings l).bind List.head? = some head
  | .addList src dst | .splice src dst | .spliceTail src dst => head = src ∨ head = dst

end Sequences

section Stores

variable {α : Type*} [DecidableEq α] {links : Links α} {null e p n src dst : α}

theorem fusionInitList_eq (links : Links α) (e : α) : fusionInitList links e = links.link e e := rfl

theorem fusionListAdd_eq (left : p ≠ e) (right : n ≠ e) :
    fusionListAdd links e p n = (links.link p e).link e n := by
  simp only [fusionListAdd, setPrev, setNext, Links.link, Links.mk.injEq]
  exact ⟨Function.update_comm left.symm .., Function.update_comm right ..⟩

theorem fusionListDelRaw_eq (next : links.next e ≠ null) (prev : links.prev e ≠ null) :
    fusionListDelRaw null links e = links.link (links.prev e) (links.next e) := by
  have again : Function.update links.prev (links.next e) (links.prev e) e = links.prev e := by
    by_cases self : e = links.next e
    · rw [← self, Function.update_self]
    · rw [Function.update_of_ne self]
  simp only [fusionListDelRaw, next, prev, ne_eq, not_false_iff, and_self, if_true, setNext, setPrev, again, Links.link]

theorem fusionListSpliceBetween_eq (links : Links α) (src p n : α) :
    fusionListSpliceBetween links src p n = (links.link p (links.next src)).link (links.prev src) n := rfl

theorem fusionListAddList_eq (some : links.next src ≠ src) (left : links.prev src ≠ dst)
    (right : links.next dst ≠ links.next src) (outside : src ≠ links.next dst) :
    fusionListAddList links src dst =
      ((links.link dst (links.next src)).link (links.prev src) (links.next dst)).link src src := by
  have again : Function.update links.prev (links.next dst) (links.prev src) src = links.prev src :=
    Function.update_of_ne outside ..
  simp only [fusionListAddList, some, if_false, setNext, setPrev, again, Links.link, Links.mk.injEq]
  rw [Function.update_comm left, Function.update_comm right]
  exact ⟨rfl, rfl⟩

end Stores

section Refinement

variable {α : Type*} [DecidableEq α] {links : Links α} {rings : Rings α} {null e l src dst : α} {xs ys : List α}

theorem takeOut_unlinked (rep : Represents links rings) (alone : rings e = some []) :
    takeOut rings e = Function.update rings e none := by
  funext head
  by_cases same : head = e
  · rw [takeOut, if_pos same, same, Function.update_self]
  · rw [takeOut, if_neg same, Function.update_of_ne same]
    cases here : rings head with
    | none => rfl
    | some xs =>
      have other : e ∉ xs := by
        intro inside
        have none := rep.member head xs here e inside
        rw [alone] at none
        cases none
      rw [Option.map_some, List.erase_of_not_mem other]

theorem takeOut_linked {zs : List α} (rep : Represents links rings) (here : rings l = some (ys ++ e :: zs)) :
    takeOut rings e = Function.update rings l (some (ys ++ zs)) := by
  have inside : e ∈ ys ++ e :: zs := List.mem_append_right _ List.mem_cons_self
  have free := rep.member l _ here e inside
  have first : e ∉ ys := fun also =>
    (List.nodup_append.mp (rep.nodup l _ here)).2.2 e also e List.mem_cons_self rfl
  funext head
  by_cases self : head = e
  · have apart : e ≠ l := by
      rintro rfl
      exact rep.head_notMem here inside
    rw [takeOut, if_pos self, self, Function.update_of_ne apart, free]
  · rw [takeOut, if_neg self]
    by_cases same : head = l
    · rw [same, Function.update_self, here, Option.map_some, List.erase_append_right _ first, List.erase_cons_head]
    · rw [Function.update_of_ne same]
      cases there : rings head with
      | none => rfl
      | some xs =>
        have other : e ∉ xs := fun also => same (rep.single l head _ xs e here there inside also).symm
        rw [Option.map_some, List.erase_of_not_mem other]

omit [DecidableEq α] in
/-- The neighbours of an initialized entry are on a list, so they are not NULL. -/
theorem neighbours_ne (rep : Represents links rings) (init : Initialized rings e) (outside : rings.Outside null) :
    links.next e ≠ null ∧ links.prev e ≠ null := by
  have inside : ∃ head xs, rings head = some xs ∧ links.next e ∈ head :: xs ∧ links.prev e ∈ head :: xs := by
    rcases init with alone | ⟨head, xs, here, member⟩
    · obtain ⟨next, prev⟩ := List.isChain_pair.mp (rep.ring e [] alone)
      rw [next, prev]
      exact ⟨e, [], alone, List.mem_cons_self, List.mem_cons_self⟩
    · obtain ⟨ys, zs, rfl⟩ := List.append_of_mem member
      obtain ⟨next, prev⟩ := (rep.ring head _ here).neighbours (List.mem_cons_of_mem head member)
      exact ⟨head, _, here, next, prev⟩
  obtain ⟨head, xs, here, next, prev⟩ := inside
  have null := Represents.outside_notMem outside here
  constructor
  · intro same
    exact null (same ▸ next)
  · intro same
    exact null (same ▸ prev)

/-- `__fusion_list_del` takes the entry off its list, if it is on one. -/
theorem delRaw_represents (rep : Represents links rings) (init : Initialized rings e) (outside : rings.Outside null) :
    Represents (fusionListDelRaw null links e) (takeOut rings e) ∧ (takeOut rings e).Outside e := by
  obtain ⟨next, prev⟩ := neighbours_ne rep init outside
  rw [fusionListDelRaw_eq next prev]
  rcases init with alone | ⟨head, xs, here, inside⟩
  · have ring := List.isChain_pair.mp (rep.ring e [] alone)
    have out := rep.outside_forget alone List.mem_cons_self
    rw [takeOut_unlinked rep alone, ring.1, ring.2]
    exact ⟨(rep.forget e).link_outside out out, out⟩
  · obtain ⟨ys, zs, rfl⟩ := List.append_of_mem inside
    rw [takeOut_linked rep here]
    exact rep.close here

theorem addHead_represents (rep : Represents links rings) (outside : rings.Outside e) (here : rings l = some xs) :
    Represents (fusionListAddHead links e l) (Function.update rings l (some (e :: xs))) := by
  obtain ⟨p, n, before, after, cut⟩ := Cut.exists_cut [] xs (rep.nodup_ring here)
  obtain ⟨_, right, _, _⟩ := cut.mem_ring
  obtain ⟨rfl, rfl⟩ := cut.front_pointer (rep.ring l xs here)
  have out := Represents.outside_notMem outside here
  have apart {x : α} (inside : x ∈ p :: xs) : x ≠ e := by
    rintro rfl
    exact out inside
  rw [fusionListAddHead, fusionListAdd_eq (apart List.mem_cons_self) (apart right)]
  exact rep.fill here cut (List.IsChain.singleton e) rfl (List.nil_append [e]).symm (List.nodup_singleton e)
    fun x inside => List.mem_singleton.mp inside ▸ outside

theorem addTail_represents (rep : Represents links rings) (outside : rings.Outside e) (here : rings l = some xs) :
    Represents (fusionListAddTail links e l) (Function.update rings l (some (xs ++ [e]))) := by
  have nodup := rep.nodup_ring here
  rw [← List.append_nil xs] at nodup here
  obtain ⟨p, n, before, after, cut⟩ := Cut.exists_cut xs [] nodup
  obtain ⟨left, _, _, _⟩ := cut.mem_ring
  obtain ⟨rfl, rfl⟩ := cut.rear_pointer (List.append_nil xs ▸ rep.ring l _ here)
  have out := Represents.outside_notMem outside here
  have apart {x : α} (inside : x ∈ n :: (xs ++ [])) : x ≠ e := by
    rintro rfl
    exact out inside
  rw [fusionListAddTail, fusionListAdd_eq (apart left) (apart List.mem_cons_self)]
  have filled := rep.fill here cut (List.IsChain.singleton e) rfl (List.nil_append [e]).symm (List.nodup_singleton e)
    fun x inside => List.mem_singleton.mp inside ▸ outside
  rwa [List.append_nil] at filled

theorem del_represents (rep : Represents links rings) (init : Initialized rings e) (outside : rings.Outside null) :
    Represents (fusionListDel null links e) (Function.update (takeOut rings e) e (some [])) := by
  obtain ⟨taken, out⟩ := delRaw_represents rep init outside
  exact taken.init out

theorem fusionListEmpty_iff (rep : Represents links rings) (here : rings l = some xs) :
    fusionListEmpty links l = true ↔ xs = [] := by
  rw [fusionListEmpty, decide_eq_true_iff]
  exact rep.next_eq_head here

theorem popHead_represents (rep : Represents links rings) (outside : rings.Outside null) (here : rings l = some xs) :
    Represents (fusionListPopHead null links l).1 ((ListCall.popHead l).effect null rings).1 ∧
      some (fusionListPopHead null links l).2 = ((ListCall.popHead l).effect null rings).2 := by
  have empty := fusionListEmpty_iff rep here
  cases xs with
  | nil =>
    rw [fusionListPopHead, if_pos (empty.mpr rfl), ListCall.effect, here]
    exact ⟨rep, rfl⟩
  | cons e xs =>
    have first := rep.next_head here
    have goes : ¬fusionListEmpty links l = true := fun same => absurd (empty.mp same) (List.cons_ne_nil e xs)
    have init : Initialized rings e := .inr ⟨l, e :: xs, here, List.mem_cons_self⟩
    have gone := del_represents rep init outside
    have split : rings l = some ([] ++ e :: xs) := here
    rw [takeOut_linked rep split] at gone
    rw [fusionListPopHead, if_neg goes, ListCall.effect, here, first]
    exact ⟨gone, rfl⟩

theorem splice_empty (there : rings src = some []) (here : rings dst = some xs) :
    Function.update (Function.update rings dst (some xs)) src (some []) = rings := by
  rw [← here, Function.update_eq_self, ← there, Function.update_eq_self]

theorem splice_represents (rep : Represents links rings) (there : rings src = some ys) (here : rings dst = some xs)
    (apart : src ≠ dst) :
    Represents (fusionListSplice links src dst)
      (Function.update (Function.update rings dst (some (ys ++ xs))) src (some [])) := by
  cases ys with
  | nil =>
    have same := splice_empty there here
    rw [List.nil_append, same, fusionListSplice, if_pos ((fusionListEmpty_iff rep there).mpr rfl)]
    exact rep
  | cons y ys =>
    have goes : ¬fusionListEmpty links src = true := fun same =>
      absurd ((fusionListEmpty_iff rep there).mp same) (List.cons_ne_nil y ys)
    obtain ⟨p, n, before, after, cut⟩ := Cut.exists_cut [] xs (rep.nodup_ring here)
    obtain ⟨rfl, rfl⟩ := cut.front_pointer (rep.ring dst xs here)
    rw [fusionListSplice, if_neg goes, fusionListSpliceBetween_eq, fusionInitList_eq]
    exact rep.splice here there apart (List.cons_ne_nil y ys) cut

theorem spliceTail_represents (rep : Represents links rings) (there : rings src = some ys)
    (here : rings dst = some xs) (apart : src ≠ dst) :
    Represents (fusionListSpliceTail links src dst)
      (Function.update (Function.update rings dst (some (xs ++ ys))) src (some [])) := by
  cases ys with
  | nil =>
    have same := splice_empty there here
    rw [List.append_nil, same, fusionListSpliceTail, if_pos ((fusionListEmpty_iff rep there).mpr rfl)]
    exact rep
  | cons y ys =>
    have goes : ¬fusionListEmpty links src = true := fun same =>
      absurd ((fusionListEmpty_iff rep there).mp same) (List.cons_ne_nil y ys)
    have nodup := rep.nodup_ring here
    rw [← List.append_nil xs] at nodup here
    obtain ⟨p, n, before, after, cut⟩ := Cut.exists_cut xs [] nodup
    obtain ⟨rfl, rfl⟩ := cut.rear_pointer (List.append_nil xs ▸ rep.ring dst _ here)
    rw [fusionListSpliceTail, if_neg goes, fusionListSpliceBetween_eq, fusionInitList_eq]
    have moved := rep.splice here there apart (List.cons_ne_nil y ys) cut
    rwa [List.append_nil] at moved

/-- `fusion_list_add_list` is `fusion_list_splice` with the stores in another order. -/
theorem addList_eq_splice (rep : Represents links rings) (there : rings src = some ys) (here : rings dst = some xs)
    (apart : src ≠ dst) : fusionListAddList links src dst = fusionListSplice links src dst := by
  have empty : fusionListEmpty links src = true ↔ links.next src = src := decide_eq_true_iff
  by_cases self : links.next src = src
  · rw [fusionListAddList, if_pos self, fusionListSplice, if_pos (empty.mpr self)]
  · have first := ((rep.ring src ys there).neighbours List.mem_cons_self).1
    have last := ((rep.ring src ys there).neighbours List.mem_cons_self).2
    have second := ((rep.ring dst xs here).neighbours List.mem_cons_self).1
    have left : links.prev src ≠ dst := by
      intro same
      exact rep.disjoint here there apart List.mem_cons_self (same ▸ last)
    have right : links.next dst ≠ links.next src := by
      intro same
      exact rep.disjoint here there apart second (same ▸ first)
    have outside : src ≠ links.next dst := by
      intro same
      exact rep.disjoint here there apart (same ▸ second) List.mem_cons_self
    rw [fusionListAddList_eq self left right outside, fusionListSplice, if_neg (mt empty.mp self), fusionListSpliceBetween_eq,
      fusionInitList_eq]

omit [DecidableEq α] in
/-- What is outside is no head and no entry. -/
theorem outside_ne {x y : α} (outside : rings.Outside x) (node : (rings y).isSome) : x ≠ y := by
  rintro rfl
  rw [outside.1] at node
  cases node

omit [DecidableEq α] in
theorem outside_ne_initialized {x y : α} (outside : rings.Outside x) (init : Initialized rings y) : x ≠ y := by
  rcases init with empty | ⟨head, xs, here, member⟩
  · exact outside_ne outside (Option.isSome_of_eq_some empty)
  · rintro rfl
    exact outside.2 head xs here member

omit [DecidableEq α] in
theorem outside_notMem_append {x y z : α} {ys : List α} (outside : rings.Outside x) (here : rings z = some ys) :
    x ∉ (rings y).getD [] ++ ys := by
  rw [List.mem_append, not_or]
  refine ⟨?_, outside.2 z ys here⟩
  cases there : rings y with
  | none => exact List.not_mem_nil
  | some zs => exact outside.2 y zs there

/-- Taking an entry off its list puts no other node on one. -/
theorem outside_takeOut {x : α} (outside : rings.Outside x) (y : α) : (takeOut rings y).Outside x := by
  constructor
  · rw [takeOut, outside.1, Option.map_none, ite_self]
  · intro head xs now inside
    rw [takeOut] at now
    split at now
    · cases now
    · obtain ⟨ys, here, rfl⟩ := Option.map_eq_some_iff.mp now
      exact outside.2 head ys here (List.mem_of_mem_erase inside)

/-- Neither does a change of one list that does not bring the node there. -/
theorem outside_map {x : α} {f : List α → List α} {list : Option (List α)} (outside : rings.Outside x) (apart : x ≠ l)
    (fresh : ∀ ys, list = some ys → x ∉ f ys) : Rings.Outside (Function.update rings l (list.map f)) x := by
  refine Represents.outside_update outside apart fun xs now => ?_
  obtain ⟨ys, here, rfl⟩ := Option.map_eq_some_iff.mp now
  exact fresh ys here

theorem outside_empty {x : α} (outside : rings.Outside x) (apart : x ≠ l) :
    Rings.Outside (Function.update rings l (some [])) x :=
  Represents.outside_update outside apart fun _ same => Option.some.inj same ▸ List.not_mem_nil

theorem outside_none {x : α} (outside : rings.Outside x) (apart : x ≠ l) :
    Rings.Outside (Function.update rings l none) x :=
  Represents.outside_update outside apart fun _ never => absurd never (Option.some_ne_none _).symm

/-- A call gives no list a node that was on none. -/
theorem ListCall.outside_effect {x : α} (call : ListCall α) (permitted : call.Permitted rings)
    (outside : rings.Outside x) : (call.effect null rings).1.Outside x := by
  have apart {y : α} (node : (rings y).isSome) : x ≠ y := outside_ne outside node
  have alone {y : α} (empty : rings y = some []) : x ≠ y := apart (Option.isSome_of_eq_some empty)
  have initialized {y : α} (init : Initialized rings y) : x ≠ y := outside_ne_initialized outside init
  cases call with
  | addHead e l =>
    refine outside_map (outside_none outside (alone permitted.1)) (apart permitted.2.1) fun ys here => ?_
    rw [List.mem_cons, not_or]
    exact ⟨alone permitted.1, outside.2 l ys here⟩
  | addTail e l =>
    refine outside_map (outside_none outside (alone permitted.1)) (apart permitted.2.1) fun ys here => ?_
    rw [List.mem_append, List.mem_singleton, not_or]
    exact ⟨outside.2 l ys here, alone permitted.1⟩
  | del e => exact outside_empty (outside_takeOut outside e) (initialized permitted)
  | moveHead e l =>
    refine outside_map (outside_takeOut outside e) (apart permitted.2.1) fun ys here => ?_
    rw [List.mem_cons, not_or]
    exact ⟨initialized permitted.1, (outside_takeOut outside e).2 l ys here⟩
  | moveTail e l =>
    refine outside_map (outside_takeOut outside e) (apart permitted.2.1) fun ys here => ?_
    rw [List.mem_append, List.mem_singleton, not_or]
    exact ⟨(outside_takeOut outside e).2 l ys here, initialized permitted.1⟩
  | popHead l =>
    simp only [ListCall.effect]
    split
    · rename_i e xs here
      have other := outside.2 l (e :: xs) here
      rw [List.mem_cons, not_or] at other
      refine outside_empty (Represents.outside_update outside (apart permitted) fun ys same => ?_) other.1
      cases same
      exact other.2
    · exact outside
  | addList src dst =>
    exact outside_empty (outside_map outside (apart permitted.2.1) fun _ => outside_notMem_append outside) (apart permitted.1)
  | splice src dst =>
    exact outside_empty (outside_map outside (apart permitted.2.1) fun _ => outside_notMem_append outside) (apart permitted.1)
  | spliceTail src dst =>
    refine outside_empty (outside_map outside (apart permitted.2.1) fun ys here => ?_) (apart permitted.1)
    have other := outside_notMem_append (y := src) outside here
    rw [List.mem_append, not_or] at other ⊢
    exact other.symm

/-- The other lists stay the same sequences. -/
theorem ListCall.effect_other {head : α} (call : ListCall α) (other : ¬call.About rings head) :
    (call.effect null rings).1 head = rings head := by
  have taken {y : α} (different : head ≠ y) (absent : ¬∃ xs, rings head = some xs ∧ y ∈ xs) :
      takeOut rings y head = rings head := by
    rw [takeOut, if_neg different]
    cases here : rings head with
    | none => rfl
    | some xs =>
      have missing : y ∉ xs := fun inside => absent ⟨xs, here, inside⟩
      rw [Option.map_some, List.erase_of_not_mem missing]
  cases call with
  | addHead e l | addTail e l =>
    obtain ⟨notE, notL⟩ := not_or.mp other
    simp only [ListCall.effect, Function.update_of_ne notE, Function.update_of_ne notL]
  | del e =>
    obtain ⟨notE, absent⟩ := not_or.mp other
    simp only [ListCall.effect, Function.update_of_ne notE, taken notE absent]
  | moveHead e l | moveTail e l =>
    obtain ⟨notE, rest⟩ := not_or.mp other
    obtain ⟨notL, absent⟩ := not_or.mp rest
    simp only [ListCall.effect, Function.update_of_ne notL, taken notE absent]
  | popHead l =>
    obtain ⟨notL, notFirst⟩ := not_or.mp other
    simp only [ListCall.effect]
    split
    · rename_i e xs here
      have notE : head ≠ e := by
        rintro rfl
        exact notFirst (by rw [here]; rfl)
      simp only [Function.update_of_ne notE, Function.update_of_ne notL]
    · rfl
  | addList src dst | splice src dst | spliceTail src dst =>
    obtain ⟨notSrc, notDst⟩ := not_or.mp other
    simp only [ListCall.effect, Function.update_of_ne notSrc, Function.update_of_ne notDst]

/-- An unlinked entry that goes onto a list is on none by then. -/
theorem adding (rep : Represents links rings) (alone : rings e = some []) (list : (rings l).isSome) (apart : e ≠ l) :
    ∃ xs, rings l = some xs ∧ Rings.Outside (Function.update rings e none) e ∧
      Function.update rings e none l = some xs := by
  obtain ⟨xs, here⟩ := Option.isSome_iff_exists.mp list
  refine ⟨xs, here, rep.outside_forget alone List.mem_cons_self, ?_⟩
  rwa [Function.update_of_ne apart.symm]

/-- An entry that moves to a list has left its own by then. -/
theorem moving (rep : Represents links rings) (init : Initialized rings e) (outside : rings.Outside null)
    (list : (rings l).isSome) (apart : e ≠ l) :
    ∃ xs, Represents (fusionListDelRaw null links e) (takeOut rings e) ∧ (takeOut rings e).Outside e ∧
      takeOut rings e l = some xs := by
  obtain ⟨xs, here⟩ := Option.isSome_iff_exists.mp list
  obtain ⟨taken, out⟩ := delRaw_represents rep init outside
  refine ⟨xs.erase e, taken, out, ?_⟩
  rw [takeOut, if_neg apart.symm, here, Option.map_some]

omit [DecidableEq α] in
/-- Two lists that are joined are both there. -/
theorem joining {src dst : α} (permitted : (ListCall.splice src dst).Permitted rings) :
    ∃ xs ys, rings dst = some xs ∧ rings src = some ys ∧ src ≠ dst := by
  obtain ⟨source, list, apart⟩ := permitted
  obtain ⟨ys, there⟩ := Option.isSome_iff_exists.mp source
  obtain ⟨xs, here⟩ := Option.isSome_iff_exists.mp list
  exact ⟨xs, ys, here, there, apart⟩

theorem ListCall.run_represents (call : ListCall α) (rep : Represents links rings) (outside : rings.Outside null)
    (permitted : call.Permitted rings) :
    Represents (call.run null links).1 (call.effect null rings).1 ∧
      (call.run null links).2 = (call.effect null rings).2 := by
  cases call with
  | addHead e l =>
    obtain ⟨xs, here, out, still⟩ := adding rep permitted.1 permitted.2.1 permitted.2.2
    refine ⟨?_, rfl⟩
    rw [ListCall.effect, here]
    exact addHead_represents (rep.forget e) out still
  | addTail e l =>
    obtain ⟨xs, here, out, still⟩ := adding rep permitted.1 permitted.2.1 permitted.2.2
    refine ⟨?_, rfl⟩
    rw [ListCall.effect, here]
    exact addTail_represents (rep.forget e) out still
  | del e => exact ⟨del_represents rep permitted outside, rfl⟩
  | moveHead e l =>
    obtain ⟨xs, taken, out, still⟩ := moving rep permitted.1 outside permitted.2.1 permitted.2.2
    refine ⟨?_, rfl⟩
    rw [ListCall.effect, still]
    exact addHead_represents taken out still
  | moveTail e l =>
    obtain ⟨xs, taken, out, still⟩ := moving rep permitted.1 outside permitted.2.1 permitted.2.2
    refine ⟨?_, rfl⟩
    rw [ListCall.effect, still]
    exact addTail_represents taken out still
  | popHead l =>
    obtain ⟨xs, here⟩ := Option.isSome_iff_exists.mp permitted
    exact popHead_represents rep outside here
  | addList src dst =>
    obtain ⟨xs, ys, here, there, apart⟩ := joining permitted
    refine ⟨?_, rfl⟩
    rw [ListCall.run, ListCall.effect, here, there, addList_eq_splice rep there here apart]
    exact splice_represents rep there here apart
  | splice src dst =>
    obtain ⟨xs, ys, here, there, apart⟩ := joining permitted
    refine ⟨?_, rfl⟩
    rw [ListCall.effect, here, there]
    exact splice_represents rep there here apart
  | spliceTail src dst =>
    obtain ⟨xs, ys, here, there, apart⟩ := joining permitted
    refine ⟨?_, rfl⟩
    rw [ListCall.effect, here, there]
    exact spliceTail_represents rep there here apart

/-- Each call does on well-formed lists what its effect says, and touches no other list. -/
theorem fusion_list_refines_sequences (null : α) (links : Links α) (rings : Rings α) (call : ListCall α)
    (rep : Represents links rings) (outside : rings.Outside null) (permitted : call.Permitted rings) :
    Represents (call.run null links).1 (call.effect null rings).1 ∧ (call.effect null rings).1.Outside null ∧
      (call.run null links).2 = (call.effect null rings).2 ∧
      ∀ head xs, rings head = some xs → ¬call.About rings head →
        (call.effect null rings).1 head = some xs ∧
        ∀ x ∈ head :: xs, (call.run null links).1.next x = links.next x ∧
          (call.run null links).1.prev x = links.prev x := by
  obtain ⟨after, result⟩ := call.run_represents rep outside permitted
  refine ⟨after, call.outside_effect permitted outside, result, fun head xs here other => ?_⟩
  have still : (call.effect null rings).1 head = some xs := (call.effect_other other).trans here
  exact ⟨still, fun x inside => (rep.ring head xs here).pointers (after.ring head xs still) inside⟩

/-- Two lists at 1 and 2 with one entry each, and an unlinked entry at 5. -/
def pairRings : Rings Nat := fun head =>
  if head = 1 then some [3] else if head = 2 then some [4] else if head = 5 then some [] else none

def pairLinks : Links Nat :=
  let partner := fun x => if x = 1 then 3 else if x = 3 then 1 else if x = 2 then 4 else if x = 4 then 2 else x
  ⟨partner, partner⟩

theorem pairRings_eq_some {head : Nat} {xs : List Nat} (here : pairRings head = some xs) :
    head = 1 ∧ xs = [3] ∨ head = 2 ∧ xs = [4] ∨ head = 5 ∧ xs = [] := by
  simp only [pairRings] at here
  split_ifs at here with first second third
  · exact .inl ⟨first, (Option.some.inj here).symm⟩
  · exact .inr (.inl ⟨second, (Option.some.inj here).symm⟩)
  · exact .inr (.inr ⟨third, (Option.some.inj here).symm⟩)

theorem pairLinks_represents : Represents pairLinks pairRings := by
  refine ⟨fun head xs here => ?_, fun head xs here => ?_, fun head xs here e inside => ?_, ?_⟩
  · rcases pairRings_eq_some here with ⟨rfl, rfl⟩ | ⟨rfl, rfl⟩ | ⟨rfl, rfl⟩ <;>
      simp [Links.Ring, Links.Path, Links.Joined, pairLinks]
  · rcases pairRings_eq_some here with ⟨_, rfl⟩ | ⟨_, rfl⟩ | ⟨_, rfl⟩ <;> simp
  · rcases pairRings_eq_some here with ⟨_, rfl⟩ | ⟨_, rfl⟩ | ⟨_, rfl⟩ <;> simp_all [pairRings]
  · intro head other xs ys e left right inLeft inRight
    rcases pairRings_eq_some left with ⟨rfl, rfl⟩ | ⟨rfl, rfl⟩ | ⟨rfl, rfl⟩ <;>
      rcases pairRings_eq_some right with ⟨rfl, rfl⟩ | ⟨rfl, rfl⟩ | ⟨rfl, rfl⟩ <;> simp_all

/-- The only entry of the second list is moved to the head of the first. -/
theorem fusion_list_refines_sequences_move :
    Represents ((ListCall.moveHead 4 1).run 0 pairLinks).1 ((ListCall.moveHead 4 1).effect 0 pairRings).1 ∧
      ((ListCall.moveHead 4 1).effect 0 pairRings).1 1 = some [4, 3] ∧
      ((ListCall.moveHead 4 1).effect 0 pairRings).1 2 = some [] ∧
      ((ListCall.moveHead 4 1).run 0 pairLinks).1.next 5 = 5 := by
  have outside : pairRings.Outside 0 := by
    refine ⟨rfl, fun head xs here => ?_⟩
    rcases pairRings_eq_some here with ⟨_, rfl⟩ | ⟨_, rfl⟩ | ⟨_, rfl⟩ <;> simp
  have permitted : (ListCall.moveHead 4 1).Permitted pairRings :=
    ⟨.inr ⟨2, [4], rfl, List.mem_cons_self⟩, rfl, by decide⟩
  have other : ¬(ListCall.moveHead 4 1).About pairRings 5 := by
    simp [ListCall.About, pairRings]
  have whole := fusion_list_refines_sequences 0 pairLinks pairRings (.moveHead 4 1) pairLinks_represents outside permitted
  exact ⟨whole.1, rfl, rfl, ((whole.2.2.2 5 [] rfl other).2 5 List.mem_cons_self).1⟩

/-- Every call of a run is permitted when it is made. -/
def PermittedRun (null : α) (rings : Rings α) : List (ListCall α) → Prop
  | [] => True
  | call :: calls => call.Permitted rings ∧ PermittedRun null (call.effect null rings).1 calls

/-- A run of calls on the pointers, with what they return. -/
def runCalls (null : α) (links : Links α) : List (ListCall α) → Links α × List (Option α)
  | [] => (links, [])
  | call :: calls =>
    let after := call.run null links
    ((runCalls null after.1 calls).1, after.2 :: (runCalls null after.1 calls).2)

/-- The same run on the sequences. -/
def runEffects (null : α) (rings : Rings α) : List (ListCall α) → Rings α × List (Option α)
  | [] => (rings, [])
  | call :: calls =>
    let after := call.effect null rings
    ((runEffects null after.1 calls).1, after.2 :: (runEffects null after.1 calls).2)

/-- Whole runs of permitted calls agree with the same runs on the sequences. -/
theorem runCalls_represents {calls : List (ListCall α)} (rep : Represents links rings) (outside : rings.Outside null)
    (permitted : PermittedRun null rings calls) :
    Represents (runCalls null links calls).1 (runEffects null rings calls).1 ∧
      (runCalls null links calls).2 = (runEffects null rings calls).2 := by
  induction calls generalizing links rings with
  | nil => exact ⟨rep, rfl⟩
  | cons call calls ih =>
    obtain ⟨now, later⟩ := permitted
    obtain ⟨after, result⟩ := call.run_represents rep outside now
    obtain ⟨final, results⟩ := ih after (call.outside_effect now outside) later
    rw [runCalls, runEffects, result, results]
    exact ⟨final, rfl⟩

end Refinement

end IomemoryVsl
