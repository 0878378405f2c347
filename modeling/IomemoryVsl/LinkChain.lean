import Mathlib.Data.List.Basic
import Mathlib.Logic.Function.Basic

/-! Singly linked lists in a heap of next pointers. -/

namespace LinkChain

variable {β : Type*}

/-- The links lead from the pointer through exactly the listed nodes to NULL. -/
inductive IsChain (next : β → Option β) : Option β → List β → Prop
  | done : IsChain next none []
  | node {b rest} : IsChain next (next b) rest → IsChain next (some b) (b :: rest)

variable {next next' : β → Option β} {p : Option β} {b t : β} {list : List β}

theorem IsChain.eq_nil (chain : IsChain next none list) : list = [] := by
  cases chain
  rfl

theorem IsChain.eq_cons (chain : IsChain next (some b) list) :
    ∃ rest, list = b :: rest ∧ IsChain next (next b) rest := by
  cases chain with
  | node tail => exact ⟨_, rfl, tail⟩

theorem IsChain.unique {other : List β} (chain : IsChain next p list) (again : IsChain next p other) :
    list = other := by
  induction chain generalizing other with
  | done => exact again.eq_nil.symm
  | node _ ih =>
    obtain ⟨rest, rfl, tail⟩ := again.eq_cons
    rw [ih tail]

theorem IsChain.eq_next {c : β} {rest : List β} (chain : IsChain next (some b) (b :: c :: rest)) :
    next b = some c ∧ IsChain next (some c) (c :: rest) := by
  cases chain with
  | node tail =>
    cases target : next b with
    | none =>
      rw [target] at tail
      cases tail
    | some d =>
      rw [target] at tail
      obtain ⟨_, same, _⟩ := tail.eq_cons
      obtain rfl := (List.cons.inj same).1
      exact ⟨rfl, tail⟩

/-- Only the links of the nodes on the chain matter. -/
theorem IsChain.congr (chain : IsChain next p list) (same : ∀ b ∈ list, next' b = next b) :
    IsChain next' p list := by
  induction chain with
  | done => exact .done
  | @node b rest _ ih =>
    have here := same b List.mem_cons_self
    refine .node ?_
    rw [here]
    exact ih fun c member => same c (List.mem_cons_of_mem _ member)

theorem IsChain.last (chain : IsChain next p (list ++ [t])) : next t = none := by
  induction list generalizing p with
  | nil =>
    cases chain with
    | node tail =>
      cases ended : next t with
      | none => rfl
      | some c =>
        rw [ended] at tail
        cases tail
  | cons b rest ih =>
    cases chain with
    | node tail => exact ih tail

variable [DecidableEq β]

/-- Writing a node that is not on the chain leaves the chain alone. -/
theorem IsChain.update {target : Option β} (chain : IsChain next p list) (outside : b ∉ list) :
    IsChain (Function.update next b target) p list := by
  refine chain.congr fun c member => ?_
  have different : c ≠ b := by
    rintro rfl
    exact outside member
  exact Function.update_of_ne different ..

/-- Linking a new last node behind the old one. -/
theorem IsChain.snoc (chain : IsChain next p (list ++ [t])) (distinct : (list ++ [t]).Nodup)
    (fresh : b ∉ list ++ [t]) (null : next b = none) :
    IsChain (Function.update next t (some b)) p (list ++ [t] ++ [b]) := by
  induction list generalizing p with
  | nil =>
    cases chain with
    | node tail =>
      have different : b ≠ t := by simpa using fresh
      refine .node ?_
      rw [Function.update_self]
      refine .node ?_
      rw [Function.update_of_ne different, null]
      exact .done
  | cons c rest ih =>
    cases chain with
    | node tail =>
      rw [List.cons_append, List.nodup_cons] at distinct
      have different : c ≠ t := by
        rintro rfl
        exact distinct.1 (by simp)
      refine .node ?_
      rw [Function.update_of_ne different]
      exact ih tail distinct.2 fun member => fresh (List.mem_cons_of_mem _ member)

end LinkChain
