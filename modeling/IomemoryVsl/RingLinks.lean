import Mathlib.Data.List.Chain
import Mathlib.Data.List.Nodup
import Mathlib.Logic.Function.Basic

/-! Circular doubly linked lists in a heap of next and prev pointers. -/

namespace RingLinks

variable {α : Type*}

/-- The two pointers of every node. -/
structure Links (α : Type*) where
  next : α → α
  prev : α → α

variable {links : Links α} {p q e n : α} {xs ys zs path : List α}

namespace Links

/-- One node follows the other. -/
def Joined (links : Links α) (p n : α) : Prop := links.next p = n ∧ links.prev n = p

/-- Each node of the path follows the one before it. -/
def Path (links : Links α) (path : List α) : Prop := path.IsChain links.Joined

/-- The nodes `xs` between the node and itself. -/
def Ring (links : Links α) (head : α) (xs : List α) : Prop := links.Path (head :: (xs ++ [head]))

variable [DecidableEq α]

/-- Makes `n` follow `p`. -/
def link (links : Links α) (p n : α) : Links α :=
  ⟨Function.update links.next p n, Function.update links.prev n p⟩

theorem link_joined (links : Links α) (p n : α) : (links.link p n).Joined p n :=
  ⟨Function.update_self .., Function.update_self ..⟩

theorem Joined.link (joined : links.Joined e q) (left : e ≠ p) (right : q ≠ n) : (links.link p n).Joined e q :=
  ⟨(Function.update_of_ne left ..).trans joined.1, (Function.update_of_ne right ..).trans joined.2⟩

/-- A link from outside a path, or from its last node, to outside it or to its first one. -/
theorem Path.link (whole : links.Path path) (left : p ∉ path.dropLast) (right : n ∉ path.tail) :
    (links.link p n).Path path := by
  induction path with
  | nil => exact List.IsChain.nil
  | cons x path ih =>
    cases path with
    | nil => exact List.IsChain.singleton x
    | cons y path =>
      rw [Links.Path, List.isChain_cons_cons] at whole ⊢
      rw [List.dropLast_cons_cons, List.mem_cons, not_or] at left
      rw [List.tail_cons, List.mem_cons, not_or] at right
      exact ⟨whole.1.link (Ne.symm left.1) (Ne.symm right.1), ih whole.2 left.2 right.2⟩

/-- A link between nodes outside a ring leaves the ring as it is. -/
theorem Ring.link (ring : links.Ring e xs) (left : p ∉ e :: xs) (right : n ∉ e :: xs) :
    (links.link p n).Ring e xs := by
  refine Path.link ring ?_ ?_
  · rw [← List.cons_append, List.dropLast_concat]
    exact left
  · rw [List.tail_cons, List.mem_append, List.mem_singleton, not_or]
    rw [List.mem_cons, not_or] at right
    exact ⟨right.2, right.1⟩

end Links

/-- Whatever the pointers are, the same nodes follow one another on a path. -/
theorem Links.Path.exists_joined (path : List α) :
    (∀ x ∈ path.dropLast, ∃ y ∈ path.tail, ∀ links : Links α, links.Path path → links.Joined x y) ∧
      ∀ y ∈ path.tail, ∃ x ∈ path.dropLast, ∀ links : Links α, links.Path path → links.Joined x y := by
  induction path with
  | nil => exact ⟨fun x inside => absurd inside List.not_mem_nil, fun y inside => absurd inside List.not_mem_nil⟩
  | cons p path ih =>
    cases path with
    | nil => exact ⟨fun x inside => absurd inside List.not_mem_nil, fun y inside => absurd inside List.not_mem_nil⟩
    | cons n path =>
      have here (links : Links α) (whole : links.Path (p :: n :: path)) : links.Joined p n :=
        (List.isChain_cons_cons.mp whole).1
      have rest (links : Links α) (whole : links.Path (p :: n :: path)) : links.Path (n :: path) :=
        (List.isChain_cons_cons.mp whole).2
      rw [List.dropLast_cons_cons, List.tail_cons]
      constructor
      · intro x inside
        rcases List.mem_cons.mp inside with rfl | inside
        · exact ⟨n, List.mem_cons_self, here⟩
        · obtain ⟨y, member, joined⟩ := ih.1 x inside
          exact ⟨y, List.mem_cons_of_mem n member, fun links whole => joined links (rest links whole)⟩
      · intro y inside
        rcases List.mem_cons.mp inside with rfl | inside
        · exact ⟨p, List.mem_cons_self, here⟩
        · obtain ⟨x, member, joined⟩ := ih.2 y inside
          exact ⟨x, List.mem_cons_of_mem p member, fun links whole => joined links (rest links whole)⟩

/-- A node of a ring has one that follows it and one that it follows. -/
theorem Links.Ring.exists_joined {x : α} (inside : x ∈ e :: xs) :
    (∃ y ∈ e :: xs, ∀ links : Links α, links.Ring e xs → links.Joined x y) ∧
      ∃ y ∈ e :: xs, ∀ links : Links α, links.Ring e xs → links.Joined y x := by
  obtain ⟨nexts, prevs⟩ := Links.Path.exists_joined (e :: (xs ++ [e]))
  rw [← List.cons_append, List.dropLast_concat, List.cons_append, List.tail_cons] at nexts prevs
  have around (y : α) : y ∈ xs ++ [e] ↔ y ∈ e :: xs := by
    rw [List.mem_append, List.mem_singleton, List.mem_cons, or_comm]
  obtain ⟨y, member, joined⟩ := nexts x inside
  exact ⟨⟨y, (around y).mp member, joined⟩, prevs x ((around x).mpr inside)⟩

/-- A ring says where the pointers of its nodes lead. -/
theorem Links.Ring.pointers {first last : Links α} (left : first.Ring e xs) (right : last.Ring e xs) {x : α}
    (inside : x ∈ e :: xs) : last.next x = first.next x ∧ last.prev x = first.prev x := by
  obtain ⟨⟨y, _, follows⟩, z, _, precedes⟩ := Links.Ring.exists_joined inside
  constructor
  · rw [(follows last right).1, (follows first left).1]
  · rw [(precedes last right).2, (precedes first left).2]

/-- They lead to nodes of the ring. -/
theorem Links.Ring.neighbours (ring : links.Ring e xs) {x : α} (inside : x ∈ e :: xs) :
    links.next x ∈ e :: xs ∧ links.prev x ∈ e :: xs := by
  obtain ⟨⟨y, next, follows⟩, z, prev, precedes⟩ := Links.Ring.exists_joined inside
  rw [(follows links ring).1, (precedes links ring).2]
  exact ⟨next, prev⟩

/-- A ring is cut open behind `p`, where `n` follows: what lies on both sides. -/
structure Cut (head : α) (ys zs : List α) (p n : α) (before after : List α) : Prop where
  left : head :: ys = before ++ [p]
  right : zs ++ [head] = n :: after
  nodup : (head :: (ys ++ zs)).Nodup

namespace Cut

variable {head : α} {before after : List α}

/-- Every ring can be cut between any two of its nodes. -/
theorem exists_cut (ys zs : List α) (nodup : (head :: (ys ++ zs)).Nodup) : ∃ p n before after, Cut head ys zs p n before after := by
  have left := List.dropLast_concat_getLast (List.cons_ne_nil head ys)
  obtain ⟨n, after, right⟩ := List.exists_cons_of_ne_nil (List.concat_ne_nil head zs)
  exact ⟨_, n, _, after, left.symm, right, nodup⟩

variable (cut : Cut head ys zs p n before after)

include cut

/-- The path around the ring, with something at the cut. -/
theorem path_eq (mid : List α) : head :: (ys ++ mid ++ zs ++ [head]) = before ++ p :: (mid ++ n :: after) := by
  rw [List.append_assoc, List.append_assoc, cut.right, ← List.cons_append, cut.left, List.append_assoc,
    List.singleton_append]

theorem mem_left : p ∈ head :: ys := by
  rw [cut.left]
  exact List.mem_append_right _ List.mem_cons_self

theorem mem_right : n ∈ zs ++ [head] := by
  rw [cut.right]
  exact List.mem_cons_self

/-- The nodes at the cut and on both its sides are nodes of the ring. -/
theorem mem_ring : p ∈ head :: (ys ++ zs) ∧ n ∈ head :: (ys ++ zs) ∧ (∀ x ∈ before, x ∈ head :: (ys ++ zs)) ∧
    ∀ x ∈ after, x ∈ head :: (ys ++ zs) := by
  have left := cut.mem_left
  have right := cut.mem_right
  have whole (x : α) (member : x ∈ before ++ [p]) : x ∈ head :: ys := by rwa [cut.left]
  have rest (x : α) (member : x ∈ n :: after) : x ∈ zs ++ [head] := by rwa [cut.right]
  simp only [List.mem_cons, List.mem_append, List.not_mem_nil, or_false] at left right whole rest ⊢
  refine ⟨?_, ?_, fun x member => ?_, fun x member => ?_⟩
  · tauto
  · tauto
  · have inside := whole x (.inl member)
    tauto
  · have inside := rest x (.inr member)
    tauto

theorem left_notMem : p ∉ before ∧ p ∉ zs := by
  have nodup := cut.nodup
  have member := cut.mem_left
  rw [← List.cons_append, List.nodup_append] at nodup
  have before := nodup.1
  rw [cut.left, List.nodup_append] at before
  refine ⟨fun inside => before.2.2 p inside p List.mem_cons_self rfl, fun inside => ?_⟩
  exact nodup.2.2 p member p inside rfl

theorem right_notMem : n ∉ ys ∧ n ∉ after := by
  have nodup := cut.nodup
  have member := cut.mem_right
  rw [List.nodup_cons, List.mem_append, not_or, List.nodup_append] at nodup
  constructor
  · intro inside
    rcases List.mem_append.mp member with right | last
    · exact nodup.2.2.2 n inside n right rfl
    · rw [List.mem_singleton.mp last] at inside
      exact nodup.1.1 inside
  · have whole : (zs ++ [head]).Nodup := by
      refine List.nodup_append.mpr ⟨nodup.2.2.1, List.nodup_singleton head, fun x inside y last => ?_⟩
      rw [List.mem_singleton.mp last]
      rintro rfl
      exact nodup.1.2 inside
    rw [cut.right, List.nodup_cons] at whole
    exact whole.1

/-- The pointers across the cut. -/
theorem pointers (ring : links.Ring head (ys ++ zs)) : links.next p = n ∧ links.prev n = p := by
  have around := cut.path_eq []
  rw [List.append_nil, List.nil_append] at around
  rw [Links.Ring, around, Links.Path, List.isChain_append_cons_cons] at ring
  exact ring.2.1

omit cut in
theorem front_pointer (cut : Cut head [] zs p n before after) (ring : links.Ring head zs) :
    p = head ∧ n = links.next head := by
  have first := cut.mem_left
  obtain rfl := List.mem_singleton.mp first
  exact ⟨rfl, (cut.pointers ring).1.symm⟩

omit cut in
theorem rear_pointer (cut : Cut head ys [] p n before after) (ring : links.Ring head ys) :
    p = links.prev head ∧ n = head := by
  have final := cut.mem_right
  obtain rfl := List.mem_singleton.mp final
  rw [← List.append_nil ys] at ring
  exact ⟨(cut.pointers ring).2.symm, rfl⟩

variable [DecidableEq α]

/-- A link keeps the nodes before the cut. -/
theorem path_left (whole : links.Path (before ++ [p])) (left : e ∉ before) (right : q ∉ ys) :
    (links.link e q).Path (before ++ [p]) := by
  refine whole.link ?_ ?_
  · rw [List.dropLast_concat]
    exact left
  · rw [← cut.left, List.tail_cons]
    exact right

/-- A link keeps the nodes behind the cut. -/
theorem path_right (whole : links.Path (n :: after)) (left : e ∉ zs) (right : q ∉ after) :
    (links.link e q).Path (n :: after) := by
  refine whole.link ?_ right
  rw [← cut.right, List.dropLast_concat]
  exact left

/-- The ring closed at the cut after a node there is left out. -/
theorem close (ring : links.Ring head (ys ++ e :: zs)) :
    links.prev e = p ∧ links.next e = n ∧ (links.link p n).Ring head (ys ++ zs) := by
  have around := cut.path_eq [e]
  rw [List.append_assoc ys, List.singleton_append] at around
  rw [Links.Ring, around, Links.Path, List.singleton_append, List.isChain_append_cons_cons,
    List.isChain_cons_cons] at ring
  obtain ⟨first, joined, follows, second⟩ := ring
  obtain ⟨notBefore, notZs⟩ := cut.left_notMem
  obtain ⟨notYs, notAfter⟩ := cut.right_notMem
  refine ⟨joined.2, follows.1, ?_⟩
  have closed := cut.path_eq []
  rw [List.append_nil, List.nil_append] at closed
  rw [Links.Ring, closed, Links.Path, List.isChain_append_cons_cons]
  exact ⟨cut.path_left first notBefore notYs, links.link_joined p n, cut.path_right second notZs notAfter⟩

/-- The ring with other nodes put in at the cut. -/
theorem fill {first last : α} {front rear : List α} (ring : links.Ring head (ys ++ zs))
    (path : links.Path xs) (start : xs = first :: rear) (stop : xs = front ++ [last]) (nodup : xs.Nodup)
    (other : ∀ x ∈ xs, x ∉ head :: (ys ++ zs)) :
    ((links.link p first).link last n).Ring head (ys ++ xs ++ zs) := by
  have around := cut.path_eq []
  rw [List.append_nil, List.nil_append] at around
  rw [Links.Ring, around, Links.Path, List.isChain_append_cons_cons] at ring
  obtain ⟨left, _, right⟩ := ring
  obtain ⟨notBefore, notZs⟩ := cut.left_notMem
  obtain ⟨notYs, notAfter⟩ := cut.right_notMem
  obtain ⟨pHere, nHere, beforeHere, afterHere⟩ := cut.mem_ring
  have firstIn : first ∈ xs := by
    rw [start]
    exact List.mem_cons_self
  have lastIn : last ∈ xs := by
    rw [stop]
    exact List.mem_append_right _ List.mem_cons_self
  have apart {x y : α} (inside : x ∈ head :: (ys ++ zs)) (filled : y ∈ xs) : x ≠ y := by
    rintro rfl
    exact other x filled inside
  have ysHere {x : α} (member : x ∈ ys) : x ∈ head :: (ys ++ zs) :=
    List.mem_cons_of_mem _ (List.mem_append_left _ member)
  have zsHere {x : α} (member : x ∈ zs) : x ∈ head :: (ys ++ zs) :=
    List.mem_cons_of_mem _ (List.mem_append_right _ member)
  have outer : ((links.link p first).link last n).Path (before ++ [p]) := by
    refine cut.path_left (cut.path_left left notBefore fun member => ?_) (fun member => ?_) notYs
    · exact other first firstIn (ysHere member)
    · exact other last lastIn (beforeHere last member)
  have inner : ((links.link p first).link last n).Path (front ++ [last]) := by
    rw [← stop]
    refine (path.link (fun member => ?_) fun member => ?_).link (fun member => ?_) fun member => ?_
    · exact other p (List.dropLast_subset _ member) pHere
    · rw [start, List.nodup_cons] at nodup
      rw [start] at member
      exact nodup.1 member
    · rw [stop, List.nodup_append] at nodup
      rw [stop, List.dropLast_concat] at member
      exact nodup.2.2 last member last List.mem_cons_self rfl
    · exact other n (List.mem_of_mem_tail member) nHere
  have rest : ((links.link p first).link last n).Path (n :: after) := by
    refine cut.path_right (cut.path_right right notZs fun member => ?_) (fun member => ?_) notAfter
    · exact other first firstIn (afterHere first member)
    · exact other last lastIn (zsHere member)
  have joined : ((links.link p first).link last n).Joined p first :=
    (links.link_joined p first).link (apart pHere lastIn) (apart nHere firstIn).symm
  have whole := cut.path_eq xs
  rw [Links.Ring, whole, start, List.cons_append, Links.Path, List.isChain_append_cons_cons, ← List.cons_append, ← start,
    stop, List.append_assoc, List.singleton_append, List.isChain_append_cons_cons]
  exact ⟨outer, joined, inner, Links.link_joined _ last n, rest⟩

end Cut

/-- The heads of rings, each with the nodes of its ring. A node on its own is a head
of nothing. -/
abbrev Rings (α : Type*) := α → Option (List α)

/-- The node is on no ring. -/
def Rings.Outside (rings : Rings α) (e : α) : Prop := rings e = none ∧ ∀ head xs, rings head = some xs → e ∉ xs

/-- Every node is on one ring, as the head or as a member. -/
structure Represents (links : Links α) (rings : Rings α) : Prop where
  ring : ∀ head xs, rings head = some xs → links.Ring head xs
  nodup : ∀ head xs, rings head = some xs → xs.Nodup
  member : ∀ head xs, rings head = some xs → ∀ e ∈ xs, rings e = none
  single : ∀ head other xs ys e, rings head = some xs → rings other = some ys → e ∈ xs → e ∈ ys → head = other

namespace Represents

variable {rings : Rings α} {head other : α} {last : Links α}

theorem head_notMem (rep : Represents links rings) (here : rings head = some xs) : head ∉ xs := by
  intro inside
  have none := rep.member head xs here head inside
  rw [here] at none
  cases none

theorem nodup_ring (rep : Represents links rings) (here : rings head = some xs) : (head :: xs).Nodup :=
  List.nodup_cons.mpr ⟨rep.head_notMem here, rep.nodup head xs here⟩

/-- Different rings have no node in common. -/
theorem disjoint (rep : Represents links rings) (here : rings head = some xs) (there : rings other = some ys)
    (apart : other ≠ head) (inside : e ∈ head :: xs) : e ∉ other :: ys := by
  intro also
  rcases List.mem_cons.mp inside with rfl | inside
  · rcases List.mem_cons.mp also with rfl | also
    · exact apart rfl
    · have none := rep.member other ys there e also
      rw [here] at none
      cases none
  · rcases List.mem_cons.mp also with rfl | also
    · have none := rep.member head xs here e inside
      rw [there] at none
      cases none
    · exact apart (rep.single head other xs ys e here there inside also).symm

/-- A node on no ring is not a node of any. -/
theorem outside_notMem (outside : rings.Outside e) (here : rings head = some xs) : e ∉ head :: xs := by
  intro inside
  rcases List.mem_cons.mp inside with rfl | inside
  · rw [outside.1] at here
    cases here
  · exact outside.2 head xs here inside

theorem next_head (rep : Represents links rings) (here : rings head = some (e :: xs)) : links.next head = e := by
  obtain ⟨p, n, before, after, cut⟩ := Cut.exists_cut [] _ (rep.nodup_ring here)
  obtain ⟨rfl, same⟩ := cut.front_pointer (rep.ring head _ here)
  have right := cut.right
  rw [List.cons_append] at right
  rw [← same, (List.cons.inj right).1]

theorem prev_head (rep : Represents links rings) (here : rings head = some (xs ++ [e])) : links.prev head = e := by
  have nodup := rep.nodup_ring here
  rw [← List.append_nil (xs ++ [e])] at nodup
  obtain ⟨p, n, before, after, cut⟩ := Cut.exists_cut (xs ++ [e]) [] nodup
  obtain ⟨same, rfl⟩ := cut.rear_pointer (rep.ring head _ here)
  have left := cut.left
  rw [← List.cons_append] at left
  rw [← same, (List.cons.inj (List.append_inj' left rfl).2).1]

/-- Only an empty ring leads from the head to the head. -/
theorem next_eq_head (rep : Represents links rings) (here : rings head = some xs) :
    links.next head = head ↔ xs = [] := by
  constructor
  · intro same
    cases xs with
    | nil => rfl
    | cons e xs =>
      have first := rep.next_head here
      rw [same] at first
      exact absurd List.mem_cons_self (first ▸ rep.head_notMem here)
  · rintro rfl
    exact (List.isChain_pair.mp (rep.ring head [] here)).1

variable [DecidableEq α]

theorem update_eq_some {value : Option (List α)} (now : Function.update rings head value other = some ys) :
    other = head ∧ value = some ys ∨ other ≠ head ∧ rings other = some ys := by
  by_cases same : other = head
  · rw [same, Function.update_self] at now
    exact .inl ⟨same, now⟩
  · rw [Function.update_of_ne same] at now
    exact .inr ⟨same, now⟩

theorem outside_update {value : Option (List α)} (outside : rings.Outside e) (apart : e ≠ head)
    (fresh : ∀ xs, value = some xs → e ∉ xs) : Rings.Outside (Function.update rings head value) e := by
  constructor
  · rw [Function.update_of_ne apart]
    exact outside.1
  · intro g ws now
    rcases update_eq_some now with ⟨_, same⟩ | ⟨_, there⟩
    · exact fresh ws same
    · exact outside.2 g ws there

/-- A ring is no longer looked at. -/
theorem forget (rep : Represents links rings) (head : α) : Represents links (Function.update rings head none) := by
  have old {g : α} {ws : List α} (now : Function.update rings head none g = some ws) : rings g = some ws := by
    rcases update_eq_some now with ⟨_, never⟩ | ⟨_, before⟩
    · cases never
    · exact before
  refine ⟨fun g ws now => rep.ring g ws (old now), fun g ws now => rep.nodup g ws (old now), ?_, ?_⟩
  · intro g ws now x inside
    by_cases same : x = head
    · rw [same, Function.update_self]
    · rw [Function.update_of_ne same]
      exact rep.member g ws (old now) x inside
  · intro g h ws vs x left right inLeft inRight
    exact rep.single g h ws vs x (old left) (old right) inLeft inRight

/-- After that its nodes are on no ring. -/
theorem outside_forget (rep : Represents links rings) (here : rings head = some xs) (inside : e ∈ head :: xs) :
    (Rings.Outside (Function.update rings head none) e) := by
  constructor
  · rcases List.mem_cons.mp inside with rfl | member
    · exact Function.update_self ..
    · have apart : e ≠ head := by
        rintro rfl
        exact rep.head_notMem here member
      rw [Function.update_of_ne apart]
      exact rep.member head xs here e member
  · intro g ws now also
    rcases update_eq_some now with ⟨_, never⟩ | ⟨apart, there⟩
    · cases never
    · exact rep.disjoint here there apart inside (List.mem_cons_of_mem _ also)

/-- One ring gets other nodes, which were its own or on no ring. -/
theorem replace (rep : Represents links rings) (here : rings head = some xs) (ring : last.Ring head ys)
    (nodup : ys.Nodup) (source : ∀ x ∈ ys, x ∈ xs ∨ rings.Outside x)
    (others : ∀ g ws, rings g = some ws → g ≠ head → last.Ring g ws) :
    Represents last (Function.update rings head (some ys)) := by
  have free (x : α) (inside : x ∈ ys) : rings x = none := by
    rcases source x inside with old | outside
    · exact rep.member head xs here x old
    · exact outside.1
  have headNot (x : α) (none : rings x = none) : x ≠ head := by
    rintro rfl
    rw [here] at none
    cases none
  have elsewhere (x g : α) (ws : List α) (inside : x ∈ ys) (there : rings g = some ws) (apart : g ≠ head) :
      x ∉ ws := by
    intro also
    rcases source x inside with old | outside
    · exact apart (rep.single head g xs ws x here there old also).symm
    · exact outside.2 g ws there also
  refine ⟨?_, ?_, ?_, ?_⟩
  · intro g ws now
    rcases update_eq_some now with ⟨rfl, same⟩ | ⟨apart, there⟩
    · cases same
      exact ring
    · exact others g ws there apart
  · intro g ws now
    rcases update_eq_some now with ⟨rfl, same⟩ | ⟨apart, there⟩
    · cases same
      exact nodup
    · exact rep.nodup g ws there
  · intro g ws now x inside
    rcases update_eq_some now with ⟨rfl, same⟩ | ⟨apart, there⟩
    · cases same
      rw [Function.update_of_ne (headNot x (free x inside))]
      exact free x inside
    · have none := rep.member g ws there x inside
      rw [Function.update_of_ne (headNot x none)]
      exact none
  · intro g h ws vs x left right inLeft inRight
    rcases update_eq_some left with ⟨rfl, same⟩ | ⟨apart, there⟩
    · cases same
      rcases update_eq_some right with ⟨rfl, _⟩ | ⟨apart, there⟩
      · rfl
      · exact absurd inRight (elsewhere x h vs inLeft there apart)
    · rcases update_eq_some right with ⟨rfl, same⟩ | ⟨_, also⟩
      · cases same
        exact absurd inLeft (elsewhere x g ws inRight there apart)
      · exact rep.single g h ws vs x there also inLeft inRight

/-- A link between nodes on no ring. -/
theorem link_outside (rep : Represents links rings) (left : rings.Outside p) (right : rings.Outside n) :
    Represents (links.link p n) rings := by
  refine ⟨fun g ws there => ?_, rep.nodup, rep.member, rep.single⟩
  exact (rep.ring g ws there).link (outside_notMem left there) (outside_notMem right there)

/-- A node on no ring becomes a ring of its own. -/
theorem init (rep : Represents links rings) (outside : rings.Outside e) :
    Represents (links.link e e) (Function.update rings e (some [])) := by
  have kept := rep.link_outside outside outside
  have alone : (links.link e e).Ring e [] := List.isChain_pair.mpr (links.link_joined e e)
  have apart {x g : α} {ws : List α} (there : rings g = some ws) (inside : x ∈ ws) : x ≠ e := by
    rintro rfl
    exact outside.2 g ws there inside
  refine ⟨fun g ws now => ?_, fun g ws now => ?_, fun g ws now x inside => ?_, ?_⟩
  · rcases update_eq_some now with ⟨rfl, same⟩ | ⟨_, there⟩
    · cases same
      exact alone
    · exact kept.ring g ws there
  · rcases update_eq_some now with ⟨rfl, same⟩ | ⟨_, there⟩
    · cases same
      exact List.nodup_nil
    · exact rep.nodup g ws there
  · rcases update_eq_some now with ⟨rfl, same⟩ | ⟨_, there⟩
    · cases same
      cases inside
    · rw [Function.update_of_ne (apart there inside)]
      exact rep.member g ws there x inside
  · intro g h ws vs x left right inLeft inRight
    rcases update_eq_some left with ⟨rfl, same⟩ | ⟨_, there⟩
    · cases same
      cases inLeft
    · rcases update_eq_some right with ⟨rfl, same⟩ | ⟨_, also⟩
      · cases same
        cases inRight
      · exact rep.single g h ws vs x there also inLeft inRight

/-- Nodes on no ring are put in at a cut. -/
theorem fill {first final : α} {front rear before after : List α} (rep : Represents links rings)
    (here : rings head = some (ys ++ zs)) (cut : Cut head ys zs p n before after) (path : links.Path xs)
    (start : xs = first :: rear) (stop : xs = front ++ [final]) (nodup : xs.Nodup)
    (outside : ∀ x ∈ xs, rings.Outside x) :
    Represents ((links.link p first).link final n) (Function.update rings head (some (ys ++ xs ++ zs))) := by
  have other (x : α) (inside : x ∈ xs) : x ∉ head :: (ys ++ zs) := outside_notMem (outside x inside) here
  have firstIn : first ∈ xs := by
    rw [start]
    exact List.mem_cons_self
  have finalIn : final ∈ xs := by
    rw [stop]
    exact List.mem_append_right _ List.mem_cons_self
  obtain ⟨pHere, nHere, _, _⟩ := cut.mem_ring
  have whole := rep.nodup head (ys ++ zs) here
  refine rep.replace here (cut.fill (rep.ring head _ here) path start stop nodup other) ?_ ?_ ?_
  · rw [List.append_assoc, (List.perm_append_comm_assoc ys xs zs).nodup_iff, List.nodup_append]
    refine ⟨nodup, whole, fun x inside y member => ?_⟩
    rintro rfl
    exact other x inside (List.mem_cons_of_mem _ member)
  · intro x inside
    simp only [List.mem_append] at inside ⊢
    rcases inside with (inside | inside) | inside
    · exact .inl (.inl inside)
    · exact .inr (outside x inside)
    · exact .inl (.inr inside)
  · intro g ws there apart
    refine ((rep.ring g ws there).link ?_ ?_).link ?_ ?_
    · exact rep.disjoint here there apart pHere
    · exact outside_notMem (outside first firstIn) there
    · exact outside_notMem (outside final finalIn) there
    · exact rep.disjoint here there apart nHere

/-- A node leaves its ring. -/
theorem close (rep : Represents links rings) (here : rings head = some (ys ++ e :: zs)) :
    Represents (links.link (links.prev e) (links.next e)) (Function.update rings head (some (ys ++ zs))) ∧
      Rings.Outside (Function.update rings head (some (ys ++ zs))) e := by
  have nodup := rep.nodup_ring here
  have less : (head :: (ys ++ zs)).Nodup :=
    nodup.sublist (List.Sublist.cons_cons head (List.Sublist.append_left (List.sublist_cons_self e zs) ys))
  have gone : e ∉ ys ++ zs := (List.nodup_middle.mp (List.nodup_cons.mp nodup).2).notMem
  have headNot : e ≠ head := by
    rintro rfl
    exact rep.head_notMem here (List.mem_append_right _ List.mem_cons_self)
  have inside : e ∈ ys ++ e :: zs := List.mem_append_right _ List.mem_cons_self
  obtain ⟨p, n, before, after, cut⟩ := Cut.exists_cut ys zs less
  obtain ⟨isPrev, isNext, ring⟩ := cut.close (rep.ring head _ here)
  obtain ⟨pHere, nHere, _, _⟩ := cut.mem_ring
  have wider (x : α) (member : x ∈ head :: (ys ++ zs)) : x ∈ head :: (ys ++ e :: zs) := by
    simp only [List.mem_cons, List.mem_append] at member ⊢
    tauto
  rw [isPrev, isNext]
  constructor
  · refine rep.replace here ring (List.nodup_cons.mp less).2 (fun x member => .inl ?_) fun g ws there apart => ?_
    · simp only [List.mem_cons, List.mem_append] at member ⊢
      tauto
    · refine (rep.ring g ws there).link ?_ ?_
      · exact rep.disjoint here there apart (wider p pHere)
      · exact rep.disjoint here there apart (wider n nHere)
  · constructor
    · rw [Function.update_of_ne headNot]
      exact rep.member head _ here e inside
    · intro g ws now also
      rcases update_eq_some now with ⟨rfl, same⟩ | ⟨apart, there⟩
      · cases same
        exact gone also
      · exact apart (rep.single head g _ ws e here there inside also).symm

/-- All nodes of a ring are put in at a cut of another one. -/
theorem splice {before after : List α} (rep : Represents links rings) (here : rings head = some (ys ++ zs))
    (there : rings other = some xs) (apart : other ≠ head) (nonempty : xs ≠ [])
    (cut : Cut head ys zs p n before after) :
    Represents (((links.link p (links.next other)).link (links.prev other) n).link other other)
      (Function.update (Function.update rings head (some (ys ++ xs ++ zs))) other (some [])) := by
  obtain ⟨first, rear, start⟩ := List.exists_cons_of_ne_nil nonempty
  have stop := (List.dropLast_concat_getLast nonempty).symm
  have nexts : links.next other = first := rep.next_head (start ▸ there)
  have prevs : links.prev other = xs.getLast nonempty := rep.prev_head (there.trans (congrArg some stop))
  have gone := rep.forget other
  have free (x : α) (inside : x ∈ other :: xs) := rep.outside_forget there inside
  have still : Function.update rings other none head = some (ys ++ zs) := by
    rw [Function.update_of_ne apart.symm]
    exact here
  have path : links.Path xs := by
    have ring := rep.ring other xs there
    rw [Links.Ring, Links.Path, List.isChain_cons] at ring
    exact (List.isChain_append.mp ring.2).1
  have filled := gone.fill still cut path start stop (rep.nodup other xs there)
    fun x inside => free x (List.mem_cons_of_mem _ inside)
  have alone : Rings.Outside (Function.update (Function.update rings other none) head (some (ys ++ xs ++ zs))) other := by
    constructor
    · rw [Function.update_of_ne apart, Function.update_self]
    · intro g ws now also
      rcases update_eq_some now with ⟨rfl, same⟩ | ⟨_, old⟩
      · cases same
        simp only [List.mem_append] at also
        rcases also with (inside | inside) | inside
        · exact (free other List.mem_cons_self).2 g _ still (List.mem_append_left _ inside)
        · exact rep.head_notMem there inside
        · exact (free other List.mem_cons_self).2 g _ still (List.mem_append_right _ inside)
      · exact (free other List.mem_cons_self).2 g ws old also
  have result := filled.init alone
  rw [nexts, prevs]
  rw [Function.update_comm apart.symm, Function.update_idem] at result
  rw [Function.update_comm apart.symm]
  exact result

end Represents

end RingLinks
