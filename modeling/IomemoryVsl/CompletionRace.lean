import IomemoryVsl.Transition
import Mathlib.Data.Fintype.Basic
import Mathlib.Logic.Function.Basic

/-! The concurrent runs of `kfio_req_completor` on one disk, step by step, with one
list entry for each completion. -/

namespace IomemoryVsl

/-- Where a completor stands. -/
inductive CompletorPc
  /-- has not been called -/
  | start
  /-- has pushed its entry and is about to try `queue_lock` -/
  | trying
  /-- did not get the lock and is about to test `KFIO_DISK_COMPLETION` -/
  | refused
  /-- has the lock and is about to set the bit -/
  | locked
  /-- has set the bit and is about to splice and complete the list -/
  | marked
  /-- has completed the spliced list and is about to clear the bit -/
  | spliced
  /-- has cleared the bit and is about to unlock -/
  | cleared
  | done
  deriving DecidableEq, Repr

variable {τ : Type}

/-- The part of the disk that completors share, and where each of them stands.
`completed` lists the entries for which `blk_mq_complete_request` was called. -/
structure CompletionState (τ : Type) where
  compList : List τ
  queueLock : Option τ
  completionBit : Bool
  pc : τ → CompletorPc
  completed : List τ

namespace CompletionState

def initial : CompletionState τ := ⟨[], none, false, fun _ => .start, []⟩

variable [DecidableEq τ]

/-- The next step of one completor. The event is the completor that takes it. -/
def step (s : CompletionState τ) (t : τ) : Option (CompletionState τ × List τ) :=
  let goto (pc : CompletorPc) : τ → CompletorPc := Function.update s.pc t pc
  match s.pc t with
  | .start => some ({ s with compList := t :: s.compList, pc := goto .trying }, [t])
  | .trying =>
    match s.queueLock with
    | none => some ({ s with queueLock := some t, pc := goto .locked }, [t])
    | some _ => some ({ s with pc := goto .refused }, [t])
  | .refused =>
    if s.completionBit then some ({ s with pc := goto .done }, [t]) else some ({ s with pc := goto .trying }, [t])
  | .locked => some ({ s with completionBit := true, pc := goto .marked }, [t])
  | .marked =>
    some ({ s with compList := [], completed := s.completed ++ s.compList, pc := goto .spliced }, [t])
  | .spliced => some ({ s with completionBit := false, pc := goto .cleared }, [t])
  | .cleared => some ({ s with queueLock := none, pc := goto .done }, [t])
  | .done => none

/-- No completor is running. -/
def Quiet (s : CompletionState τ) : Prop := ∀ t, s.pc t = .start ∨ s.pc t = .done

/-- The completor returns early, trusting the lock holder with its entry, when the
holder has already taken its list. -/
def TrustsTooLate (s : CompletionState τ) (t : τ) : Prop :=
  s.pc t = .refused ∧ s.completionBit = true ∧ t ∈ s.compList ∧ ∃ holder ∈ s.queueLock, s.pc holder = .spliced

instance [Fintype τ] (s : CompletionState τ) : Decidable s.Quiet :=
  inferInstanceAs (Decidable (∀ t, s.pc t = .start ∨ s.pc t = .done))

instance (s : CompletionState τ) (t : τ) : Decidable (s.TrustsTooLate t) :=
  inferInstanceAs (Decidable (_ ∧ _ ∧ _ ∧ ∃ holder ∈ s.queueLock, _))

/-- The lock has one holder, and only the holder sets and clears the bit. -/
structure Held (s : CompletionState τ) : Prop where
  holder : ∀ t, s.queueLock = some t ↔ s.pc t = .locked ∨ s.pc t = .marked ∨ s.pc t = .spliced ∨ s.pc t = .cleared
  bit : s.completionBit = true → ∃ t, s.queueLock = some t ∧ (s.pc t = .marked ∨ s.pc t = .spliced)

/-- Somebody is sure to look at the list after the entry was pushed. -/
def Covered (s : CompletionState τ) (entry : τ) : Prop :=
  s.pc entry = .trying ∨ s.pc entry = .refused ∨
    ∃ holder, s.queueLock = some holder ∧ (s.pc holder = .locked ∨ s.pc holder = .marked)

/-- Each entry that was pushed is on the list or completed, and only once. -/
def Accounted (s : CompletionState τ) : Prop :=
  ∀ t, s.compList.count t + s.completed.count t = if s.pc t = .start then 0 else 1

end CompletionState

/-- Runs of concurrent completors whose steps all meet `allowed`. -/
abbrev CompletionReach [DecidableEq τ] (allowed : CompletionState τ → τ → Prop) :
    CompletionState τ → List τ → Prop :=
  Transition.Reach CompletionState.step allowed CompletionState.initial

theorem CompletionReach.of_check [DecidableEq τ] {allowed : CompletionState τ → τ → Prop}
    (test : CompletionState τ → τ → Bool) (sound : ∀ s t, test s t = true → allowed s t)
    (check : CompletionState τ × List τ → Bool) (steps : List τ)
    (passes : (Transition.run CompletionState.step test CompletionState.initial steps).any check = true) :
    ∃ s history, CompletionReach allowed s history ∧ check (s, history) = true :=
  Transition.Reach.of_check sound check passes

namespace CompletionState

variable [DecidableEq τ] {s s' : CompletionState τ} {t : τ} {events history : List τ}

/-- Everything a step of one completor can do. -/
inductive StepShape (s : CompletionState τ) (t : τ) : CompletionState τ → Prop
  | push : s.pc t = .start →
      StepShape s t { s with compList := t :: s.compList, pc := Function.update s.pc t .trying }
  | lock : s.pc t = .trying → s.queueLock = none →
      StepShape s t { s with queueLock := some t, pc := Function.update s.pc t .locked }
  | refuse : s.pc t = .trying → s.queueLock ≠ none →
      StepShape s t { s with pc := Function.update s.pc t .refused }
  | trust : s.pc t = .refused → s.completionBit = true →
      StepShape s t { s with pc := Function.update s.pc t .done }
  | again : s.pc t = .refused → StepShape s t { s with pc := Function.update s.pc t .trying }
  | mark : s.pc t = .locked →
      StepShape s t { s with completionBit := true, pc := Function.update s.pc t .marked }
  | splice : s.pc t = .marked →
      StepShape s t { s with
        compList := []
        completed := s.completed ++ s.compList
        pc := Function.update s.pc t .spliced }
  | clear : s.pc t = .spliced →
      StepShape s t { s with completionBit := false, pc := Function.update s.pc t .cleared }
  | unlock : s.pc t = .cleared →
      StepShape s t { s with queueLock := none, pc := Function.update s.pc t .done }

theorem step_shape (run : s.step t = some (s', events)) : StepShape s t s' := by
  unfold step at run
  cases here : s.pc t with
  | start =>
    simp only [here] at run
    cases run
    exact .push here
  | trying =>
    simp only [here] at run
    cases owner : s.queueLock with
    | none =>
      simp only [owner] at run
      cases run
      exact .lock here owner
    | some other =>
      simp only [owner] at run
      cases run
      exact owner ▸ .refuse here (by simp [owner])
  | refused =>
    simp only [here] at run
    split at run
    · rename_i bit
      cases run
      exact .trust here bit
    · cases run
      exact .again here
  | locked =>
    simp only [here] at run
    cases run
    exact .mark here
  | marked =>
    simp only [here] at run
    cases run
    exact .splice here
  | spliced =>
    simp only [here] at run
    cases run
    exact .clear here
  | cleared =>
    simp only [here] at run
    cases run
    exact .unlock here
  | done =>
    simp only [here] at run
    cases run

theorem Held.step (held : s.Held) (shape : StepShape s t s') : s'.Held := by
  obtain ⟨holder, bit⟩ := held
  have mine := holder t
  cases shape with
  | push here | refuse here | trust here | again here =>
    -- the completor is outside the lock before and after, so the holder is another one
    refine ⟨fun u => ?_, fun set => ?_⟩
    · by_cases same : u = t
      · subst same
        simp [Function.update_self, mine, here]
      · simpa [Function.update_of_ne same] using holder u
    · obtain ⟨u, owner, place⟩ := bit set
      have different : u ≠ t := by
        rintro rfl
        simp [here] at place
      exact ⟨u, owner, by simpa [Function.update_of_ne different] using place⟩
  | lock here free =>
    have nobody (u : τ) : ¬s.queueLock = some u := by simp [free]
    refine ⟨fun u => ?_, fun set => ?_⟩
    · by_cases same : u = t
      · simp [same]
      · have outside := mt (holder u).mpr (nobody u)
        simpa [Function.update_of_ne same, Ne.symm same] using outside
    · obtain ⟨u, owner, _⟩ := bit set
      exact absurd owner (nobody u)
  | mark here | splice here =>
    have owner : s.queueLock = some t := mine.mpr (by simp [here])
    refine ⟨fun u => ?_, fun _ => ⟨t, owner, by simp⟩⟩
    by_cases same : u = t
    · simp [same, owner]
    · simpa [Function.update_of_ne same] using holder u
  | clear here =>
    have owner : s.queueLock = some t := mine.mpr (by simp [here])
    refine ⟨fun u => ?_, fun set => absurd set Bool.false_ne_true⟩
    by_cases same : u = t
    · simp [same, owner]
    · simpa [Function.update_of_ne same] using holder u
  | unlock here =>
    have owner : s.queueLock = some t := mine.mpr (by simp [here])
    refine ⟨fun u => ?_, fun set => ?_⟩
    · by_cases same : u = t
      · simp [same]
      · have outside := mt (holder u).mpr (by simpa [owner] using Ne.symm same)
        simpa [Function.update_of_ne same] using outside
    · obtain ⟨u, owned, place⟩ := bit set
      obtain rfl : t = u := by simpa [owner] using owned
      simp [here] at place

theorem Accounted.step (accounted : s.Accounted) (shape : StepShape s t s') : s'.Accounted := by
  intro u
  have before := accounted u
  cases shape with
  | push here =>
    by_cases same : u = t
    · subst same
      simp only [here, if_true] at before
      simp only [List.count_cons_self, Function.update_self, reduceCtorEq, if_false]
      omega
    · simpa [List.count_cons, Function.update_of_ne same, Ne.symm same] using before
  | splice here =>
    by_cases same : u = t
    · subst same
      simp only [here, reduceCtorEq, if_false] at before
      simp only [List.count_nil, List.count_append, Function.update_self, reduceCtorEq, if_false]
      omega
    · simp only [Function.update_of_ne same, List.count_nil, List.count_append]
      omega
  | lock here | refuse here | trust here | again here | mark here | clear here | unlock here =>
    by_cases same : u = t
    · subst same
      simpa [here] using before
    · simpa [Function.update_of_ne same] using before

/-- An entry stays covered when a completor moves that is neither its own nor a
holder about to look at the list. -/
theorem Covered.other {entry : τ} {pc : CompletorPc} (covered : s.Covered entry) (different : entry ≠ t)
    (idle : s.pc t ≠ .locked ∧ s.pc t ≠ .marked) (moved : s'.pc = Function.update s.pc t pc)
    (kept : ∀ holder, s.queueLock = some holder → holder ≠ t → s'.queueLock = some holder) : s'.Covered entry := by
  rcases covered with trying | refused | ⟨holder, owner, place⟩
  · left
    rw [moved, Function.update_of_ne different, trying]
  · right
    left
    rw [moved, Function.update_of_ne different, refused]
  · right
    right
    have elsewhere : holder ≠ t := by
      rintro rfl
      exact place.elim idle.1 idle.2
    refine ⟨holder, kept holder owner elsewhere, ?_⟩
    rw [moved, Function.update_of_ne elsewhere]
    exact place

theorem Covered.step (held : s.Held) (covered : ∀ entry ∈ s.compList, s.Covered entry)
    (trusts : ¬s.TrustsTooLate t) (shape : StepShape s t s') : ∀ entry ∈ s'.compList, s'.Covered entry := by
  intro entry member
  cases shape with
  | push here =>
    by_cases same : entry = t
    · left
      rw [same]
      exact Function.update_self ..
    · refine (covered entry ?_).other same (by simp [here]) rfl fun _ owner _ => owner
      simpa [same] using member
  | lock here free => exact .inr (.inr ⟨t, rfl, .inl (Function.update_self ..)⟩)
  | refuse here _ =>
    by_cases same : entry = t
    · right
      left
      rw [same]
      exact Function.update_self ..
    · exact (covered entry member).other same (by simp [here]) rfl fun _ owner _ => owner
  | trust here set =>
    by_cases same : entry = t
    · -- the holder that has the bit set must still have its splice to come
      subst same
      obtain ⟨holder, owner, marked | spliced⟩ := held.bit set
      · have elsewhere : holder ≠ entry := by
          rintro rfl
          simp [here] at marked
        exact .inr (.inr ⟨holder, owner, .inr ((Function.update_of_ne elsewhere ..).trans marked)⟩)
      · exact absurd ⟨here, set, member, holder, owner, spliced⟩ trusts
    · exact (covered entry member).other same (by simp [here]) rfl fun _ owner _ => owner
  | again here =>
    by_cases same : entry = t
    · left
      rw [same]
      exact Function.update_self ..
    · exact (covered entry member).other same (by simp [here]) rfl fun _ owner _ => owner
  | mark here =>
    have owner : s.queueLock = some t := (held.holder t).mpr (.inl here)
    exact .inr (.inr ⟨t, owner, .inr (Function.update_self ..)⟩)
  | splice => cases member
  | clear here =>
    have same : entry ≠ t := by
      rintro rfl
      have owner : s.queueLock = some entry := (held.holder entry).mpr (by simp [here])
      simpa [Covered, here, owner] using covered entry member
    exact (covered entry member).other same (by simp [here]) rfl fun _ owner _ => owner
  | unlock here =>
    have owner : s.queueLock = some t := (held.holder t).mpr (by simp [here])
    have same : entry ≠ t := by
      rintro rfl
      simpa [Covered, here, owner] using covered entry member
    refine (covered entry member).other same (by simp [here]) rfl fun holder owned elsewhere => ?_
    rw [owner] at owned
    exact absurd (Option.some.inj owned).symm elsewhere

/-- The invariants of every run without misplaced trust. -/
theorem invariants (reach : CompletionReach (fun s t => ¬s.TrustsTooLate t) s history) :
    s.Held ∧ s.Accounted ∧ ∀ entry ∈ s.compList, s.Covered entry := by
  refine reach.invariant (fun s _ => s.Held ∧ s.Accounted ∧ ∀ entry ∈ s.compList, s.Covered entry) ?_ ?_
  · refine ⟨⟨?_, ?_⟩, ?_, ?_⟩
    · simp [initial]
    · simp [initial]
    · intro t
      simp [initial]
    · simp [initial]
  · intro s s' t history events _ ih trusts run
    obtain ⟨held, accounted, covered⟩ := ih
    have shape := step_shape run
    exact ⟨held.step shape, accounted.step shape, Covered.step held covered trusts shape⟩

end CompletionState

/-- No completion is stranded, and each one that was entered is completed once, in
every run in which no completor trusts a lock holder that has already spliced. -/
theorem kfioReqCompletor_none_stranded [DecidableEq τ] {s : CompletionState τ} {history : List τ}
    (reach : CompletionReach (fun s t => ¬s.TrustsTooLate t) s history) (quiet : s.Quiet) :
    s.compList = [] ∧ ∀ t, s.pc t = .done → s.completed.count t = 1 := by
  obtain ⟨_, accounted, covered⟩ := CompletionState.invariants reach
  have empty : s.compList = [] := by
    rw [List.eq_nil_iff_forall_not_mem]
    intro entry member
    rcases covered entry member with trying | refused | ⟨holder, _, place⟩
    · have rests := quiet entry
      simp [trying] at rests
    · have rests := quiet entry
      simp [refused] at rests
    · have rests := quiet holder
      rcases place with place | place <;> simp [place] at rests
  refine ⟨empty, fun t ended => ?_⟩
  have total := accounted t
  simpa [empty, ended] using total

/-- The second completor returns early while the first has yet to splice. -/
theorem kfioReqCompletor_none_stranded_pair : ∃ (s : CompletionState Bool) (history : List Bool),
    CompletionReach (fun s t => ¬s.TrustsTooLate t) s history ∧ s.Quiet ∧
      s.compList = [] ∧ ∀ t, s.pc t = .done → s.completed.count t = 1 := by
  obtain ⟨s, history, reach, checked⟩ := CompletionReach.of_check
    (fun (s : CompletionState Bool) t => decide (¬s.TrustsTooLate t)) (fun _ _ passed => of_decide_eq_true passed)
    (fun last => decide last.1.Quiet)
    [false, false, false, true, true, true, false, false, false] (by decide)
  have quiet : s.Quiet := of_decide_eq_true checked
  exact ⟨s, history, reach, quiet, kfioReqCompletor_none_stranded reach quiet⟩

/-- The first completor splices; the second one pushes its entry, fails to get the
lock, sees the bit still set and returns; the first one clears the bit and unlocks. -/
theorem kfioReqCompletor_one_stranded : ¬∀ (s : CompletionState Bool) (history : List Bool),
    CompletionReach (fun _ _ => True) s history → s.Quiet → s.compList = [] := by
  intro always
  obtain ⟨s, history, reach, checked⟩ := CompletionReach.of_check (fun _ _ => true)
    (fun (_ : CompletionState Bool) (_ : Bool) _ => trivial)
    (fun last => decide (last.1.Quiet ∧ last.1.compList = [true]))
    [false, false, false, false, true, true, true, false, false] (by decide)
  obtain ⟨quiet, stranded⟩ := of_decide_eq_true checked
  have empty := always s history reach quiet
  rw [stranded] at empty
  cases empty

end IomemoryVsl
