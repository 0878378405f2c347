import Mathlib.Data.List.Basic
import Mathlib.Logic.Function.Basic

/-! Programs that move single values between two stores. -/

namespace Transfer

/-- One value is moved between a device and a memory, or dropped from the device. -/
inductive Move (α μ : Type*) where
  | write (a : α) (m : μ)
  | read (a : α) (m : μ)
  | trim (a : α)
  deriving DecidableEq, Repr

/-- The contents of a device, which has none where it was trimmed, and of a memory. -/
structure Store (α μ ν : Type*) where
  device : α → Option ν
  memory : μ → Option ν

variable {α μ ν : Type*} [DecidableEq α] [DecidableEq μ]

def Move.run (s : Store α μ ν) : Move α μ → Store α μ ν
  | write a m => { s with device := Function.update s.device a (s.memory m) }
  | read a m => { s with memory := Function.update s.memory m (s.device a) }
  | trim a => { s with device := Function.update s.device a none }

/-- Moves one after the other. -/
def run (moves : List (Move α μ)) (s : Store α μ ν) : Store α μ ν := moves.foldl Move.run s

omit [DecidableEq α] [DecidableEq μ] in
/-- Numbering goes on where the first part ends. -/
theorem map_zipIdx_append {β γ : Type*} (f : β × Nat → γ) (front back : List β) (start : Nat) :
    ((front ++ back).zipIdx start).map f =
      (front.zipIdx start).map f ++ (back.zipIdx (start + front.length)).map f := by
  rw [List.zipIdx_append, List.map_append]

/-- Commands that come to the same moves, each one as a group of others, have the
same effect. -/
theorem run_groups {ι κ : Type*} {groups : List (List κ)} {commands : List ι} {f : ι → List (Move α μ)}
    {g : κ → List (Move α μ)}
    (same : List.Forall₂ (fun command group => f command = group.flatMap g) commands groups)
    (s : Store α μ ν) : commands.foldl (fun s command => run (f command) s) s =
      groups.flatten.foldl (fun s part => run (g part) s) s := by
  induction same generalizing s with
  | nil => rfl
  | @cons command group commands groups here _ ih =>
    rw [List.foldl_cons, List.flatten_cons, List.foldl_append, ih, here]
    congr 1
    rw [run, List.foldl_flatMap]
    rfl

end Transfer
