import IomemoryVsl.LinkChain
import Mathlib.Data.List.Nodup
import Mathlib.Algebra.Order.Group.Multiset

/-! Disjoint linked lists in one heap of next pointers, each held by an owner. -/

namespace ChainHeap

open LinkChain

variable {κ β : Type*}

/-- A linked list as its owner keeps it: a pointer to the first node and, where
the owner keeps one, a pointer to the last. -/
structure Segment (κ β : Type*) where
  owner : κ
  head : Option β
  last : Option (Option β)

/-- The segment leads through exactly the listed nodes. -/
def Segment.Spans (next : β → Option β) (seg : Segment κ β) (list : List β) : Prop :=
  IsChain next seg.head list ∧ ∀ last, seg.last = some last → last = list.getLast?

/-- The nodes of a list, each with the owner. -/
def ownedBy (owner : κ) (list : List β) : Multiset (κ × β) := ↑(list.map fun b => (owner, b))

/-- Each segment spans a list of its own, no node is in two places, and `held`
says for every node whose it is. -/
inductive Owns (next : β → Option β) : Multiset (Segment κ β) → Multiset (κ × β) → Prop
  | empty : Owns next 0 0
  | add {seg list segs held} : seg.Spans next list → list.Nodup → (∀ b ∈ list, ∀ k, (k, b) ∉ held) →
      Owns next segs held → Owns next (seg ::ₘ segs) (ownedBy seg.owner list + held)

variable {next next' : β → Option β} {seg : Segment κ β} {segs : Multiset (Segment κ β)} {held : Multiset (κ × β)}
  {k k' : κ} {b t : β} {p : Option β} {last : Option (Option β)} {list : List β}

@[simp] theorem ownedBy_nil : ownedBy k ([] : List β) = 0 := rfl

@[simp] theorem ownedBy_cons : ownedBy k (b :: list) = (k, b) ::ₘ ownedBy k list := rfl

theorem ownedBy_append {more : List β} : ownedBy k (list ++ more) = ownedBy k list + ownedBy k more := by
  rw [ownedBy, List.map_append, ← Multiset.coe_add]
  rfl

theorem mem_ownedBy {x : κ × β} : x ∈ ownedBy k list ↔ x.1 = k ∧ x.2 ∈ list := by
  rw [ownedBy, Multiset.mem_coe, List.mem_map]
  constructor
  · rintro ⟨c, member, rfl⟩
    exact ⟨rfl, member⟩
  · rintro ⟨rfl, member⟩
    exact ⟨x.2, member, rfl⟩

/-- Any one of the segments can be taken apart from the others. -/
theorem Owns.split (owns : Owns next (seg ::ₘ segs) held) :
    ∃ list rest, seg.Spans next list ∧ list.Nodup ∧ (∀ b ∈ list, ∀ k, (k, b) ∉ rest) ∧ Owns next segs rest ∧
      held = ownedBy seg.owner list + rest := by
  generalize all : seg ::ₘ segs = total at owns
  induction owns generalizing segs with
  | empty => exact absurd all (Multiset.cons_ne_zero)
  | @add first list others held spans distinct apart owns ih =>
    rcases Multiset.cons_eq_cons.mp all with ⟨rfl, rfl⟩ | ⟨_, between, rfl, rfl⟩
    · exact ⟨list, held, spans, distinct, apart, owns, rfl⟩
    · obtain ⟨own, rest, spans', distinct', apart', owns', rfl⟩ := ih rfl
      refine ⟨own, ownedBy first.owner list + rest, spans', distinct', ?_, .add spans distinct ?_ owns', ?_⟩
      · intro b member k inside
        rcases Multiset.mem_add.mp inside with here | there
        · refine apart b (mem_ownedBy.mp here).2 seg.owner (Multiset.mem_add.mpr (.inl ?_))
          exact mem_ownedBy.mpr ⟨rfl, member⟩
        · exact apart' b member k there
      · exact fun b member k inside => apart b member k (Multiset.mem_add.mpr (.inr inside))
      · exact add_left_comm ..

theorem Owns.eq_zero (owns : Owns next 0 held) : held = 0 := by
  generalize none : (0 : Multiset (Segment κ β)) = total at owns
  cases owns with
  | empty => rfl
  | add => exact absurd none.symm Multiset.cons_ne_zero

/-- Only the links of held nodes matter. -/
theorem Owns.congr (owns : Owns next segs held) (same : ∀ k b, (k, b) ∈ held → next' b = next b) :
    Owns next' segs held := by
  induction owns with
  | empty => exact .empty
  | @add seg list segs held spans distinct apart _ ih =>
    refine .add ⟨spans.1.congr fun b member => ?_, spans.2⟩ distinct apart (ih fun k b member => ?_)
    · exact same seg.owner b (Multiset.mem_add.mpr (.inl (mem_ownedBy.mpr ⟨rfl, member⟩)))
    · exact same k b (Multiset.mem_add.mpr (.inr member))

theorem Owns.nodup (owns : Owns next segs held) : (held.map Prod.snd).Nodup := by
  induction owns with
  | empty => exact Multiset.nodup_zero
  | @add seg list segs held spans distinct apart _ ih =>
    have own : (ownedBy seg.owner list).map Prod.snd = ↑list := by
      rw [ownedBy, Multiset.map_coe, List.map_map]
      exact congrArg _ (List.map_id list)
    rw [Multiset.map_add, own, Multiset.nodup_add]
    refine ⟨Multiset.coe_nodup.mpr distinct, ih, ?_⟩
    rw [Multiset.disjoint_left]
    intro b member inside
    obtain ⟨⟨k, c⟩, there, rfl⟩ := Multiset.mem_map.mp inside
    exact apart c member k there

/-- A segment that holds no node can be forgotten. -/
theorem Owns.drop (owns : Owns next (seg ::ₘ segs) held) (vacant : seg.head = none) : Owns next segs held := by
  obtain ⟨list, rest, spans, _, _, others, rfl⟩ := owns.split
  have chain := spans.1
  rw [vacant] at chain
  rw [chain.eq_nil, ownedBy_nil, zero_add]
  exact others

theorem Owns.vacant (owns : Owns next segs held) (vacant : seg.head = none)
    (noLast : ∀ last, seg.last = some last → last = none) : Owns next (seg ::ₘ segs) held := by
  have spans : seg.Spans next [] := by
    refine ⟨?_, noLast⟩
    rw [vacant]
    exact .done
  have added := Owns.add spans List.nodup_nil (fun b member => absurd member List.not_mem_nil) owns
  rwa [ownedBy_nil, zero_add] at added

/-- A segment goes to another owner, who need not keep the last pointer. -/
theorem Owns.hand (k' : κ) (owns : Owns next (⟨k, p, last⟩ ::ₘ segs) held) {last' : Option (Option β)}
    (kept : last' = last ∨ last' = none) :
    ∃ list rest, IsChain next p list ∧ held = ownedBy k list + rest ∧
      Owns next (⟨k', p, last'⟩ ::ₘ segs) (ownedBy k' list + rest) := by
  obtain ⟨list, rest, spans, distinct, apart, others, rfl⟩ := owns.split
  refine ⟨list, rest, spans.1, rfl, .add ⟨spans.1, ?_⟩ distinct apart others⟩
  rcases kept with rfl | rfl
  · exact spans.2
  · exact fun last same => absurd same (Option.some_ne_none _).symm

/-- The first node is taken off a segment. It is then held nowhere. -/
theorem Owns.uncons (owns : Owns next (⟨k, some b, none⟩ ::ₘ segs) held) :
    ∃ rest, held = (k, b) ::ₘ rest ∧ (∀ k, (k, b) ∉ rest) ∧ Owns next (⟨k, next b, none⟩ ::ₘ segs) rest := by
  obtain ⟨list, rest, spans, distinct, apart, others, rfl⟩ := owns.split
  obtain ⟨list, rfl, tail⟩ := spans.1.eq_cons
  obtain ⟨fresh, distinct⟩ := List.nodup_cons.mp distinct
  refine ⟨ownedBy k list + rest, by rw [ownedBy_cons, Multiset.cons_add], ?_, ?_⟩
  · intro k' inside
    rcases Multiset.mem_add.mp inside with here | there
    · exact fresh (mem_ownedBy.mp here).2
    · exact apart b List.mem_cons_self k' there
  · have spans : (⟨k, next b, none⟩ : Segment κ β).Spans next list :=
      ⟨tail, fun last same => absurd same (Option.some_ne_none _).symm⟩
    exact .add spans distinct (fun c member => apart c (List.mem_cons_of_mem _ member)) others

/-- A node that is held nowhere and leads nowhere makes a segment of its own. -/
theorem Owns.single (owns : Owns next segs held) (fresh : ∀ k, (k, b) ∉ held) (null : next b = none)
    (kept : last = some (some b) ∨ last = none) : Owns next (⟨k, some b, last⟩ ::ₘ segs) ((k, b) ::ₘ held) := by
  have chain : IsChain next (some b) [b] := by
    refine .node ?_
    rw [null]
    exact .done
  have spans : (⟨k, some b, last⟩ : Segment κ β).Spans next [b] := by
    refine ⟨chain, ?_⟩
    rintro _ rfl
    rcases kept with same | same
    · exact Option.some.inj same
    · cases same
  have added := Owns.add spans (List.nodup_singleton b) (by simpa using fresh) owns
  rwa [ownedBy_cons, ownedBy_nil, Multiset.cons_add, zero_add] at added

variable [DecidableEq β]

/-- A write to a node that is held nowhere. -/
theorem Owns.update {target : Option β} (owns : Owns next segs held) (fresh : ∀ k, (k, b) ∉ held) :
    Owns (Function.update next b target) segs held := by
  refine owns.congr fun k c member => Function.update_of_ne ?_ ..
  rintro rfl
  exact fresh k member

/-- A node that is held nowhere is linked behind the last one. -/
theorem Owns.snoc (owns : Owns next (⟨k, p, some (some t)⟩ ::ₘ segs) held) (fresh : ∀ k, (k, b) ∉ held)
    (null : next b = none) :
    Owns (Function.update next t (some b)) (⟨k, p, some (some b)⟩ ::ₘ segs) ((k, b) ::ₘ held) := by
  obtain ⟨list, rest, spans, distinct, apart, others, rfl⟩ := owns.split
  obtain ⟨front, rfl⟩ := List.getLast?_eq_some_iff.mp (spans.2 _ rfl).symm
  have outside : b ∉ front ++ [t] := by
    intro member
    exact fresh k (Multiset.mem_add.mpr (.inl (mem_ownedBy.mpr ⟨rfl, member⟩)))
  have grown : (⟨k, p, some (some b)⟩ : Segment κ β).Spans (Function.update next t (some b))
    (front ++ [t] ++ [b]) := by
    refine ⟨spans.1.snoc distinct outside null, fun last same => ?_⟩
    rw [List.getLast?_concat]
    exact (Option.some.inj same).symm
  have unique : (front ++ [t] ++ [b]).Nodup := by
    rw [List.nodup_append]
    refine ⟨distinct, List.nodup_singleton b, ?_⟩
    rintro c member d single rfl
    rw [List.mem_singleton.mp single] at member
    exact outside member
  have disjoint : ∀ c ∈ front ++ [t] ++ [b], ∀ k, (k, c) ∉ rest := by
    intro c member k' inside
    rcases List.mem_append.mp member with old | new
    · exact apart c old k' inside
    · rw [List.mem_singleton.mp new] at inside
      exact fresh k' (Multiset.mem_add.mpr (.inr inside))
  have added := Owns.add grown unique disjoint (others.update (apart t (by simp)))
  rw [ownedBy_append, ownedBy_cons, ownedBy_nil, add_right_comm, Multiset.cons_zero, add_comm _ {_},
    Multiset.singleton_add] at added
  exact added

end ChainHeap
