import IomemoryVsl.BioPath
import Mathlib.Data.List.Induction

/-! What the kickoff loop computes, without pointers: a partition of the bios into
the chains of fbios and the failed ones. -/

namespace IomemoryVsl

/-- An fbio with the bios it stands for. -/
structure Merged (β φ : Type) where
  fbio : φ
  bios : List β

/-- The fbio that still takes bios, the submitted ones, and the failed bios. -/
structure Merge (β φ : Type) where
  current : Option (Merged β φ)
  closed : List (Merged β φ)
  failed : List β

variable {β φ : Type}

namespace Merge

def initial : Merge β φ := ⟨none, [], []⟩

/-- All fbios, the one still open last. -/
def fbios (m : Merge β φ) : List (Merged β φ) := m.closed ++ m.current.toList

def place (ops : FbioOps β φ) (m : Merge β φ) (bio : β) : Merge β φ :=
  match ops.kfioMapToFbio bio with
  | none => { m with failed := m.failed ++ [bio] }
  | some fbio => { m with current := some ⟨fbio, [bio]⟩ }

def step (ops : FbioOps β φ) (m : Merge β φ) (bio : β) : Merge β φ :=
  match m.current with
  | some merged =>
    let result := ops.kfioKbioAddBio merged.fbio bio
    if result.2 = 0 then
      { m with current := some ⟨result.1, merged.bios ++ [bio]⟩ }
    else
      place ops { m with current := none, closed := m.closed ++ [⟨result.1, merged.bios⟩] } bio
  | none => place ops m bio

end Merge

def mergeBios (ops : FbioOps β φ) (bios : List β) : Merge β φ := bios.foldl (Merge.step ops) .initial

theorem mergeBios_snoc (ops : FbioOps β φ) (bios : List β) (bio : β) :
    mergeBios ops (bios ++ [bio]) = (mergeBios ops bios).step ops bio := by
  rw [mergeBios, List.foldl_append]
  rfl

namespace Merge

variable {ops : FbioOps β φ} {m : Merge β φ} {bio : β}

/-- The list of submitted fbios once the open one, if any, has refused the bio. -/
def Closes (ops : FbioOps β φ) (m : Merge β φ) (bio : β) (closed : List (Merged β φ)) : Prop :=
  (m.current = none ∧ closed = m.closed) ∨ ∃ merged, m.current = some merged ∧
    (ops.kfioKbioAddBio merged.fbio bio).2 ≠ 0 ∧
    closed = m.closed ++ [⟨(ops.kfioKbioAddBio merged.fbio bio).1, merged.bios⟩]

/-- The three ways a bio is dealt with. -/
inductive StepShape (ops : FbioOps β φ) (m : Merge β φ) (bio : β) : Merge β φ → Prop
  | added {merged} : m.current = some merged → (ops.kfioKbioAddBio merged.fbio bio).2 = 0 →
      StepShape ops m bio
        { m with current := some ⟨(ops.kfioKbioAddBio merged.fbio bio).1, merged.bios ++ [bio]⟩ }
  | mapped {closed fbio} : m.Closes ops bio closed →
      ops.kfioMapToFbio bio = some fbio → StepShape ops m bio ⟨some ⟨fbio, [bio]⟩, closed, m.failed⟩
  | failed {closed} : m.Closes ops bio closed →
      ops.kfioMapToFbio bio = none → StepShape ops m bio ⟨none, closed, m.failed ++ [bio]⟩

theorem step_shape (ops : FbioOps β φ) (m : Merge β φ) (bio : β) : StepShape ops m bio (m.step ops bio) := by
  obtain ⟨current, closed, failed⟩ := m
  cases current with
  | none =>
    cases mapped : ops.kfioMapToFbio bio with
    | none =>
      simp only [step, place, mapped]
      exact .failed (.inl ⟨rfl, rfl⟩) mapped
    | some fbio =>
      simp only [step, place, mapped]
      exact .mapped (.inl ⟨rfl, rfl⟩) mapped
  | some merged =>
    by_cases added : (ops.kfioKbioAddBio merged.fbio bio).2 = 0
    · simp only [step, added, if_true]
      exact .added rfl added
    · cases mapped : ops.kfioMapToFbio bio with
      | none =>
        simp only [step, added, if_false, place, mapped]
        exact .failed (.inr ⟨merged, rfl, added, rfl⟩) mapped
      | some fbio =>
        simp only [step, added, if_false, place, mapped]
        exact .mapped (.inr ⟨merged, rfl, added, rfl⟩) mapped

/-- A fact about every fbio is kept when it holds of a new one and survives both
adding and refusing a bio. -/
theorem step_all {Good : Merged β φ → Prop} (all : ∀ merged ∈ m.fbios, Good merged)
    (made : ∀ fbio, ops.kfioMapToFbio bio = some fbio → Good ⟨fbio, [bio]⟩)
    (added : ∀ merged, m.current = some merged → Good merged → (ops.kfioKbioAddBio merged.fbio bio).2 = 0 →
      Good ⟨(ops.kfioKbioAddBio merged.fbio bio).1, merged.bios ++ [bio]⟩)
    (refused : ∀ merged, Good merged → (ops.kfioKbioAddBio merged.fbio bio).2 ≠ 0 →
      Good ⟨(ops.kfioKbioAddBio merged.fbio bio).1, merged.bios⟩) :
    ∀ merged ∈ (m.step ops bio).fbios, Good merged := by
  have before : ∀ merged ∈ m.closed, Good merged := fun merged member => all merged (List.mem_append_left _ member)
  have last (merged : Merged β φ) (isOpen : m.current = some merged) : Good merged :=
    all merged (by simp [fbios, isOpen])
  have closes {closed : List (Merged β φ)} (shape : m.Closes ops bio closed) :
      ∀ merged ∈ closed, Good merged := by
    rcases shape with ⟨_, rfl⟩ | ⟨merged, isOpen, no, rfl⟩
    · exact before
    · intro other member
      rcases List.mem_append.mp member with old | new
      · exact before other old
      · rw [List.mem_singleton.mp new]
        exact refused merged (last merged isOpen) no
  have shape := step_shape ops m bio
  generalize m.step ops bio = after at shape ⊢
  intro other member
  cases shape with
  | @added merged isOpen yes =>
    rcases List.mem_append.mp member with old | new
    · exact before other old
    · rw [List.mem_singleton.mp new]
      exact added merged isOpen (last merged isOpen) yes
  | @mapped closed fbio shape fresh =>
    rcases List.mem_append.mp member with old | new
    · exact closes shape other old
    · rw [List.mem_singleton.mp new]
      exact made fbio fresh
  | @failed closed shape _ =>
    simp only [fbios, Option.toList_none, List.append_nil] at member
    exact closes shape other member

/-- Some value of a list has a property still when the last one is replaced. -/
theorem exists_mem_snoc {γ : Type} {P : γ → Prop} {front : List γ} {last next x : γ} (member : x ∈ front ++ [last])
    (fact : P x) (kept : P last → P next) : ∃ y ∈ front ++ [next], P y := by
  rcases List.mem_append.mp member with old | same
  · exact ⟨x, List.mem_append_left _ old, fact⟩
  · rw [List.mem_singleton.mp same] at fact
    exact ⟨next, List.mem_append_right _ (List.mem_singleton_self _), kept fact⟩

/-- A fact about some fbio is kept when it survives both adding and refusing a bio. -/
theorem step_some {Bad : Merged β φ → Prop} (some : ∃ merged ∈ m.fbios, Bad merged)
    (added : ∀ merged, Bad merged → Bad ⟨(ops.kfioKbioAddBio merged.fbio bio).1, merged.bios ++ [bio]⟩)
    (refused : ∀ merged, Bad merged → Bad ⟨(ops.kfioKbioAddBio merged.fbio bio).1, merged.bios⟩) :
    ∃ merged ∈ (m.step ops bio).fbios, Bad merged := by
  obtain ⟨bad, member, fact⟩ := some
  have closes {closed : List (Merged β φ)} (shape : m.Closes ops bio closed) :
      ∃ merged ∈ closed, Bad merged := by
    rcases shape with ⟨none, rfl⟩ | ⟨merged, isOpen, _, rfl⟩
    · simp only [fbios, none, Option.toList_none, List.append_nil] at member
      exact ⟨bad, member, fact⟩
    · simp only [fbios, isOpen, Option.toList_some] at member
      exact exists_mem_snoc member fact (refused merged)
  have shape := step_shape ops m bio
  generalize m.step ops bio = after at shape ⊢
  cases shape with
  | @added merged isOpen _ =>
    simp only [fbios, isOpen, Option.toList_some] at member ⊢
    exact exists_mem_snoc member fact (added merged)
  | mapped shape _ =>
    obtain ⟨merged, inside, fact⟩ := closes shape
    exact ⟨merged, List.mem_append_left _ inside, fact⟩
  | failed shape _ =>
    obtain ⟨merged, inside, fact⟩ := closes shape
    exact ⟨merged, List.mem_append_left _ inside, fact⟩

/-- The bios of all fbios in order. -/
def accepted (m : Merge β φ) : List β := m.fbios.flatMap Merged.bios

/-- The bios dealt with are split in two, each part in the order of arrival, and
every fbio leads its own bios. -/
structure Splits [DecidableEq β] (ops : FbioOps β φ) (m : Merge β φ) (bios : List β) : Prop where
  accepted : m.accepted = bios.filter fun bio => bio ∉ m.failed
  failed : m.failed.Sublist bios
  leads : ∀ merged ∈ m.fbios, ∃ rest, merged.bios = ops.fbioParameter merged.fbio :: rest

variable [DecidableEq β]

/-- Closing an fbio changes nothing about the list of all bios. -/
theorem closed_accepted {closed : List (Merged β φ)} {bios : List β} (splits : Splits ops m bios)
    (shape : m.Closes ops bio closed) :
    closed.flatMap Merged.bios = m.accepted ∧
      ∀ merged ∈ closed, ∃ rest, merged.bios = ops.fbioParameter merged.fbio :: rest := by
  rcases shape with ⟨none, rfl⟩ | ⟨open_, isOpen, _, rfl⟩
  · refine ⟨by simp [accepted, fbios, none], fun merged member => ?_⟩
    exact splits.leads merged (by simp [fbios, member])
  · refine ⟨by simp [accepted, fbios, isOpen], fun merged member => ?_⟩
    rcases List.mem_append.mp member with old | new
    · exact splits.leads merged (by simp [fbios, old])
    · rw [List.mem_singleton.mp new, ops.add_parameter]
      exact splits.leads open_ (by simp [fbios, isOpen])

theorem Splits.step {bios : List β} (splits : Splits ops m bios) (fresh : bio ∉ bios) :
    Splits ops (m.step ops bio) (bios ++ [bio]) := by
  have notFailed : bio ∉ m.failed := fun member => fresh (splits.failed.subset member)
  have kept : (bios ++ [bio]).filter (fun b => b ∉ m.failed) = m.accepted ++ [bio] := by
    rw [List.filter_append, splits.accepted]
    simp [notFailed]
  have shape := step_shape ops m bio
  generalize m.step ops bio = after at shape ⊢
  cases shape with
  | @added merged isOpen _ =>
    refine ⟨?_, splits.failed.trans (List.sublist_append_left _ _), ?_⟩
    · rw [kept]
      simp [Merge.accepted, fbios, isOpen]
    · intro other member
      rcases List.mem_append.mp member with old | new
      · exact splits.leads other (List.mem_append_left _ old)
      · simp only [Option.toList_some, List.mem_singleton] at new
        obtain ⟨rest, leads⟩ := splits.leads merged (by simp [fbios, isOpen])
        rw [new, ops.add_parameter]
        exact ⟨rest ++ [bio], by rw [leads, List.cons_append]⟩
  | @mapped closed fbio shape made =>
    obtain ⟨same, leads⟩ := closed_accepted splits shape
    refine ⟨?_, splits.failed.trans (List.sublist_append_left _ _), ?_⟩
    · rw [kept, ← same]
      simp [Merge.accepted, fbios]
    · intro other member
      rcases List.mem_append.mp member with old | new
      · exact leads other old
      · simp only [Option.toList_some, List.mem_singleton] at new
        rw [new, ops.map_parameter made]
        exact ⟨[], rfl⟩
  | @failed closed shape made =>
    obtain ⟨same, leads⟩ := closed_accepted splits shape
    refine ⟨?_, splits.failed.append (List.Sublist.refl _), ?_⟩
    · have others : (bios ++ [bio]).filter (fun b => b ∉ m.failed ++ [bio]) =
          bios.filter fun b => b ∉ m.failed := by
        rw [List.filter_append]
        simp only [List.mem_append, List.mem_singleton, List.filter_cons, List.filter_nil, or_true,
          not_true, decide_false, Bool.false_eq_true, if_false, List.append_nil]
        refine List.filter_congr fun b member => ?_
        have different : b ≠ bio := by
          rintro rfl
          exact fresh member
        simp [different]
      rw [others, ← splits.accepted, ← same]
      simp [Merge.accepted, fbios]
    · intro other member
      simp only [fbios, Option.toList_none, List.append_nil] at member
      exact leads other member

end Merge

/-- The bios of a list end up in exactly one place each. -/
theorem mergeBios_splits [DecidableEq β] (ops : FbioOps β φ) {bios : List β} (distinct : bios.Nodup) :
    (mergeBios ops bios).Splits ops bios := by
  induction bios using List.reverseRecOn with
  | nil => exact ⟨rfl, .refl _, by simp [mergeBios, Merge.initial, Merge.fbios]⟩
  | append_singleton bios bio ih =>
    rw [List.nodup_append] at distinct
    rw [mergeBios_snoc]
    exact (ih distinct.1).step fun member => distinct.2.2 bio member bio (by simp) rfl

end IomemoryVsl
