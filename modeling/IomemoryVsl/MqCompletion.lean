import IomemoryVsl.MqDispatch

namespace IomemoryVsl

variable {ρ : Type}

/-- Each completor completes exactly the request of its own fbio, finds at least
as many requests pending as it completes, and comes to an end. -/
structure CompletesRequests (env : MqEnv ρ) (fuel : Nat) (s : MqSystem ρ) (history : List (MqEvent ρ)) : Prop where
  requests : ∀ fbio requests pending, .completed fbio requests pending ∈ history →
    ∃ f, fbio = .fbio f ∧ requests = [f.fbioParameter]
  pending : ∀ fbio requests pending, .completed fbio requests pending ∈ history →
    requests.length ≤ pending.toNat
  ends : (kfioReqCompletor env fuel s.disk).isSome = true

/-- No `kfio_req_completor` has run. -/
def NoCompletor (history : List (MqEvent ρ)) : Prop :=
  ∀ fbio requests pending, .completed fbio requests pending ∉ history

/-- No request has been dispatched: `BLK_STS_OK` was never returned. -/
def NoDispatch (history : List (MqEvent ρ)) : Prop := ∀ req, .returned req .ok ∉ history

/-- `pending` is the number of requests dispatched and not yet completed. -/
def MqSystem.CountsPending (s : MqSystem ρ) : Prop := s.disk.pending.toNat = s.inFlight.length

/-- Some completor took more requests off `pending` than it counted. -/
def Underflows (history : List (MqEvent ρ)) : Prop :=
  ∃ fbio requests pending, .completed fbio requests pending ∈ history ∧ pending.toNat < requests.length

theorem noCompletor_append {history events : List (MqEvent ρ)} :
    NoCompletor (history ++ events) ↔ NoCompletor history ∧ NoCompletor events := by
  simp [NoCompletor, forall_and]

theorem noDispatch_append {history events : List (MqEvent ρ)} :
    NoDispatch (history ++ events) ↔ NoDispatch history ∧ NoDispatch events := by
  simp [NoDispatch, forall_and]

theorem Underflows.append {history : List (MqEvent ρ)} (underflows : Underflows history)
    (events : List (MqEvent ρ)) : Underflows (history ++ events) := by
  obtain ⟨fbio, requests, pending, member, less⟩ := underflows
  exact ⟨fbio, requests, pending, List.mem_append_left _ member, less⟩

namespace MqSystem

variable [DecidableEq ρ] {env : MqEnv ρ} {fuel : Nat} {s : MqSystem ρ} {history : List (MqEvent ρ)}

/-- Nothing counts dispatched requests, so the first completion takes one from zero. -/
theorem underflows_of_completor {allowed : MqSystem ρ → MqAction ρ → Prop} (enough : 0 < fuel)
    (reach : MqReach env fuel allowed s history) :
    (NoCompletor history ∧ s.disk.pending = 0#32) ∨ Underflows history := by
  refine reach.invariant
    (fun s history => (NoCompletor history ∧ s.disk.pending = 0#32) ∨ Underflows history) ?_ ?_
  · left
    refine ⟨?_, rfl⟩
    intro fbio requests pending member
    cases member
  intro s t action history events before ih _ run
  rcases ih with ⟨none, zero⟩ | underflows
  swap
  · exact .inr (underflows.append events)
  have first (fbio : Ptr ρ) (pending : BitVec 32) (value : pending = s.disk.pending)
      (member : .completed fbio [env.diskParameter] pending ∈ events) : Underflows (history ++ events) := by
    refine ⟨fbio, _, pending, List.mem_append_right _ member, ?_⟩
    rw [value, zero]
    exact Nat.zero_lt_one
  cases step_shape enough (compList_null enough before) run with
  | starved =>
    left
    refine ⟨noCompletor_append.mpr ⟨none, ?_⟩, zero⟩
    simp [NoCompletor]
  | accepted _ prepared =>
    left
    refine ⟨noCompletor_append.mpr ⟨none, ?_⟩, (prepareFbio_keeps prepared).2.1.trans zero⟩
    simp [NoCompletor]
  | busy _ prepared =>
    left
    refine ⟨noCompletor_append.mpr ⟨none, ?_⟩, (prepareFbio_keeps prepared).2.1.trans zero⟩
    simp [NoCompletor]
  | @failed _ _ _ fbio disk _ prepared =>
    right
    exact first fbio disk.pending (prepareFbio_keeps prepared).2.1 (by simp)
  | @completed fbio =>
    right
    exact first fbio s.disk.pending rfl (by simp)

/-- Until the first completor runs, something is in flight as soon as a request was
dispatched; and no completor runs before that. -/
theorem dispatched_of_completor {allowed : MqSystem ρ → MqAction ρ → Prop} (enough : 0 < fuel)
    (reach : MqReach env fuel allowed s history) :
    (NoDispatch history → NoCompletor history ∧ s.inFlight = []) ∧
      (NoCompletor history → s.inFlight = [] → NoDispatch history) := by
  refine reach.invariant (fun s history => (NoDispatch history → NoCompletor history ∧ s.inFlight = []) ∧
    (NoCompletor history → s.inFlight = [] → NoDispatch history)) ?_ ?_
  · simp [NoDispatch, NoCompletor, initial]
  intro s t action history events before ih _ run
  obtain ⟨idle, dispatched⟩ := ih
  have dispatches (req : ρ) (member : .returned req .ok ∈ events) : ¬NoDispatch (history ++ events) :=
    fun none => none req (List.mem_append_right _ member)
  have completes (fbio : Ptr ρ) (requests : List ρ) (pending : BitVec 32)
      (member : .completed fbio requests pending ∈ events) : ¬NoCompletor (history ++ events) :=
    fun none => none fbio requests pending (List.mem_append_right _ member)
  cases step_shape enough (compList_null enough before) run with
  | starved | busy =>
    simp only [noDispatch_append, noCompletor_append]
    refine ⟨fun none => ⟨⟨(idle none.1).1, ?_⟩, (idle none.1).2⟩, fun none empty => ⟨dispatched none.1 empty, ?_⟩⟩
    · simp [NoCompletor]
    · simp [NoDispatch]
  | @accepted req =>
    refine ⟨fun none => absurd none (dispatches req (by simp)), fun _ empty => ?_⟩
    simp at empty
  | @failed req _ _ fbio disk =>
    refine ⟨fun none => absurd none (dispatches req (by simp)), fun none _ => ?_⟩
    exact absurd none (completes fbio [env.diskParameter] disk.pending (by simp))
  | @completed fbio member =>
    refine ⟨fun none => ?_, fun none _ => ?_⟩
    · rw [(idle (noDispatch_append.mp none).1).2] at member
      cases member
    · exact absurd none (completes fbio [env.diskParameter] s.disk.pending (by simp))

theorem completesRequests_iff {allowed : MqSystem ρ → MqAction ρ → Prop} (enough : 0 < fuel)
    (reach : MqReach env fuel allowed s history) :
    CompletesRequests env fuel s history ↔ NoCompletor history := by
  constructor
  · intro right
    rcases underflows_of_completor enough reach with ⟨none, _⟩ | ⟨fbio, requests, pending, member, less⟩
    · exact none
    · have covered := right.pending fbio requests pending member
      omega
  · intro none
    refine ⟨?_, ?_, ?_⟩
    · intro fbio requests pending member
      exact absurd member (none fbio requests pending)
    · intro fbio requests pending member
      exact absurd member (none fbio requests pending)
    · rw [kfioReqCompletor_eq env enough (compList_null enough reach)]
      rfl

/-- Before the first completor runs `pending` is still zero. -/
theorem countsPending_iff {allowed : MqSystem ρ → MqAction ρ → Prop} (enough : 0 < fuel)
    (reach : MqReach env fuel allowed s history) (none : NoCompletor history) :
    s.CountsPending ↔ s.inFlight = [] := by
  rcases underflows_of_completor enough reach with ⟨_, zero⟩ | ⟨fbio, requests, pending, member, _⟩
  · rw [CountsPending, zero, ← List.length_eq_zero_iff]
    exact eq_comm
  · exact absurd member (none fbio requests pending)

end MqSystem

/-- Completion is right exactly in the runs in which nothing is ever completed,
and `pending` is the number it should be as well only until the first dispatch. -/
theorem kfioReqCompletor_completes_iff [DecidableEq ρ] {env : MqEnv ρ} {fuel : Nat} {s : MqSystem ρ}
    {history : List (MqEvent ρ)} (enough : 0 < fuel) (reach : MqReach env fuel (fun _ _ => True) s history) :
    (CompletesRequests env fuel s history ↔ NoCompletor history) ∧
      (CompletesRequests env fuel s history ∧ s.CountsPending ↔ NoDispatch history) := by
  have completes := MqSystem.completesRequests_iff enough reach
  obtain ⟨idle, dispatched⟩ := MqSystem.dispatched_of_completor enough reach
  refine ⟨completes, ?_, ?_⟩
  · rintro ⟨right, counts⟩
    have none := completes.mp right
    exact dispatched none ((MqSystem.countsPending_iff enough reach none).mp counts)
  · intro undispatched
    obtain ⟨none, empty⟩ := idle undispatched
    exact ⟨completes.mpr none, (MqSystem.countsPending_iff enough reach none).mpr empty⟩

/-- A request is dispatched and still in flight. -/
theorem kfioReqCompletor_completes_dispatched : ∃ (s : MqSystem Nat) (history : List (MqEvent Nat)),
    0 < 1 ∧ MqReach ⟨0, fun _ => .null⟩ 1 (fun _ _ => True) s history ∧ s.inFlight = [.fbio ⟨0, 7⟩] ∧
      (CompletesRequests ⟨0, fun _ => .null⟩ 1 s history ↔ NoCompletor history) ∧
      (CompletesRequests ⟨0, fun _ => .null⟩ 1 s history ∧ s.CountsPending ↔ NoDispatch history) := by
  obtain ⟨s, history, reach, checked⟩ := MqReach.of_check ⟨0, fun _ => .null⟩ 1 (fun _ _ => true)
    (fun (_ : MqSystem Nat) (_ : MqAction Nat) _ => trivial)
    (fun last => decide (last.1.inFlight = [.fbio ⟨0, 7⟩])) [.queueRq 7 true 0] (by decide)
  exact ⟨s, history, by decide, reach, by simpa using checked,
    kfioReqCompletor_completes_iff (by decide) reach⟩

/-- One request is dispatched and completed: the completor completes whatever the
disk holds at the place of `fbio_parameter`, here request 0 and not request 7, and
`pending` wraps. -/
theorem kfioReqCompletor_completes_other : ¬∀ (s : MqSystem Nat) (history : List (MqEvent Nat)),
    MqReach ⟨0, fun _ => .null⟩ 1 (fun _ _ => True) s history →
      CompletesRequests ⟨0, fun _ => .null⟩ 1 s history := by
  intro always
  obtain ⟨s, history, reach, checked⟩ := MqReach.of_check ⟨0, fun _ => .null⟩ 1 (fun _ _ => true)
    (fun (_ : MqSystem Nat) (_ : MqAction Nat) _ => trivial)
    (fun last => decide (MqEvent.completed (.fbio ⟨0, 7⟩) [0] 0#32 ∈ last.2 ∧ last.1.disk.pending = 4294967295#32))
    [.queueRq 7 true 0, .complete (.fbio ⟨0, 7⟩)] (by decide)
  have event : MqEvent.completed (.fbio ⟨0, 7⟩) [0] 0#32 ∈ history := (of_decide_eq_true checked).1
  have covered := (always s history reach).pending _ _ _ event
  simp at covered

end IomemoryVsl
