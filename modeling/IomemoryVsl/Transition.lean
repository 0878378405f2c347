import Mathlib.Data.List.Basic

/-! Runs of a partial step function that reports events. -/

namespace Transition

variable {σ α ε : Type*}

/-- The states a partial step function reaches from `initial`, each with the
whole history of reported events, when every action meets `allowed` in the
state in which it is taken. -/
inductive Reach (step : σ → α → Option (σ × List ε)) (allowed : σ → α → Prop) (initial : σ) :
    σ → List ε → Prop
  | start : Reach step allowed initial initial []
  | next {s t action history events} : Reach step allowed initial s history → allowed s action →
      step s action = some (t, events) → Reach step allowed initial t (history ++ events)

variable {step : σ → α → Option (σ × List ε)} {allowed : σ → α → Prop} {initial : σ}

/-- A fact about state and history that every allowed step keeps holds of
everything reached. The step may use that its source is itself reached. -/
theorem Reach.invariant {s : σ} {history : List ε} (reach : Reach step allowed initial s history)
    (Inv : σ → List ε → Prop) (base : Inv initial [])
    (keep : ∀ {s t action history events}, Reach step allowed initial s history → Inv s history →
      allowed s action → step s action = some (t, events) → Inv t (history ++ events)) : Inv s history := by
  induction reach with
  | start => exact base
  | next previous permitted run ih => exact keep previous ih permitted run

/-- Takes a list of actions in turn, giving up at the first one that is not
enabled or that the test rejects. -/
def run (step : σ → α → Option (σ × List ε)) (test : σ → α → Bool) : σ → List α → Option (σ × List ε)
  | s, [] => some (s, [])
  | s, action :: rest =>
    if test s action then
      (step s action).bind fun here =>
        (run step test here.1 rest).map fun last => (last.1, here.2 ++ last.2)
    else none

theorem Reach.of_run {test : σ → α → Bool} (sound : ∀ s action, test s action = true → allowed s action)
    {actions : List α} {s t : σ} {history events : List ε} (reach : Reach step allowed initial s history)
    (ran : run step test s actions = some (t, events)) :
    Reach step allowed initial t (history ++ events) := by
  induction actions generalizing s history events with
  | nil =>
    simp only [run, Option.some.injEq, Prod.mk.injEq] at ran
    obtain ⟨rfl, rfl⟩ := ran
    simpa only [List.append_nil] using reach
  | cons action rest ih =>
    simp only [run] at ran
    split at ran
    · rename_i passed
      obtain ⟨⟨u, first⟩, here, ran⟩ := Option.bind_eq_some_iff.mp ran
      obtain ⟨⟨v, later⟩, onward, same⟩ := Option.map_eq_some_iff.mp ran
      simp only [Prod.mk.injEq] at same
      obtain ⟨rfl, rfl⟩ := same
      rw [← List.append_assoc]
      exact ih (.next reach (sound _ _ passed) here) onward
    · cases ran

/-- A run whose outcome passes a check reaches a state that passes it. -/
theorem Reach.of_check {test : σ → α → Bool} (sound : ∀ s action, test s action = true → allowed s action)
    (check : σ × List ε → Bool) {actions : List α}
    (passes : (run step test initial actions).any check = true) :
    ∃ t history, Reach step allowed initial t history ∧ check (t, history) = true := by
  obtain ⟨⟨t, events⟩, ran, checked⟩ := (Option.any_eq_true check _).mp passes
  exact ⟨t, events, Reach.of_run sound .start ran, checked⟩

/-- Every event of the history stands in the given relation to what came before it. -/
def Historical (Q : List ε → ε → Prop) (history : List ε) : Prop :=
  ∀ before event after, history = before ++ event :: after → Q before event

theorem historical_nil (Q : List ε → ε → Prop) : Historical Q [] := by
  intro before event after split
  simp at split

theorem Historical.snoc {Q : List ε → ε → Prop} {history : List ε} {event : ε}
    (past : Historical Q history) (now : Q history event) : Historical Q (history ++ [event]) := by
  intro before e after split
  rcases List.append_eq_append_iff.mp split with ⟨middle, rfl, tail⟩ | ⟨middle, rfl, tail⟩
  · cases middle with
    | nil =>
      simp only [List.nil_append, List.cons.injEq] at tail
      obtain ⟨rfl, _⟩ := tail
      simpa only [List.append_nil] using now
    | cons x xs => simp at tail
  · cases middle with
    | nil =>
      simp only [List.nil_append, List.cons.injEq] at tail
      obtain ⟨rfl, _⟩ := tail
      simpa only [List.append_nil] using now
    | cons x xs =>
      simp only [List.cons_append, List.cons.injEq] at tail
      obtain ⟨rfl, _⟩ := tail
      exact past before e xs rfl

/-- Events that stand in the relation to every past can be appended. -/
theorem Historical.append {Q : List ε → ε → Prop} {history events : List ε} (past : Historical Q history)
    (now : ∀ before, ∀ event ∈ events, Q before event) : Historical Q (history ++ events) := by
  induction events generalizing history with
  | nil => simpa only [List.append_nil] using past
  | cons event rest ih =>
    rw [List.append_cons]
    refine ih (past.snoc (now history event List.mem_cons_self)) fun before other member => ?_
    exact now before other (List.mem_cons_of_mem _ member)

theorem historical_snoc_iff {Q : List ε → ε → Prop} {history : List ε} {event : ε} :
    Historical Q (history ++ [event]) ↔ Historical Q history ∧ Q history event := by
  constructor
  · intro all
    refine ⟨fun before e after split => ?_, all history event [] rfl⟩
    exact all before e (after ++ [event]) (by rw [split, List.append_assoc, List.cons_append])
  · intro parts
    exact parts.1.snoc parts.2

end Transition
