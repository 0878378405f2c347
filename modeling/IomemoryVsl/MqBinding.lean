import IomemoryVsl.MqDispatch

namespace IomemoryVsl

variable {ρ : Type} [DecidableEq ρ]

/-- The event is a submission of the request's own fbio that was accepted or
failed for good. -/
def MqEvent.settles (req : ρ) : MqEvent ρ → Bool
  | .submitted (.fbio f) _ rc => f.fbioParameter = req && !kfioBioFailureIsRetryable rc
  | _ => false

/-- The fbio was accepted before. -/
def AcceptedBefore (past : List (MqEvent ρ)) (fbio : Ptr ρ) : Prop := ∃ req, .submitted fbio req 0 ∈ past

/-- Dispatch binds each request to its own fbio. -/
structure BindsRequests (history : List (MqEvent ρ)) : Prop where
  own : ∀ fbio req rc, .submitted fbio req rc ∈ history → ∃ f, fbio = .fbio f ∧ f.fbioParameter = req
  once : Transition.Historical (fun past event => ∀ fbio req rc, event = .submitted fbio req rc →
    ¬AcceptedBefore past fbio) history
  settled : ∀ req, .returned req .ok ∈ history → history.countP (MqEvent.settles req) = 1

/-- The pointer is NULL or an fbio made from the request. -/
def Ptr.NullOrOf (req : ρ) : Ptr ρ → Prop
  | .null => True
  | .disk => False
  | .fbio f => f.fbioParameter = req

instance (req : ρ) : (p : Ptr ρ) → Decidable (p.NullOrOf req)
  | .null => isTrue trivial
  | .disk => isFalse not_false
  | .fbio f => inferInstanceAs (Decidable (f.fbioParameter = req))

namespace MqSystem

/-- The cached fbio, if there is one, was made from the request that is presented. -/
def CachesOwn (s : MqSystem ρ) : MqAction ρ → Prop
  | .queueRq req _ _ => s.disk.fbio.NullOrOf req
  | .complete _ => True

instance (s : MqSystem ρ) : (action : MqAction ρ) → Decidable (s.CachesOwn action)
  | .queueRq req _ _ => inferInstanceAs (Decidable (s.disk.fbio.NullOrOf req))
  | .complete _ => isTrue trivial

variable {env : MqEnv ρ} {fuel : Nat} {s t : MqSystem ρ} {events history : List (MqEvent ρ)}

omit [DecidableEq ρ] in
theorem prepareFbio_own {disk disk' : MqDisk ρ} {req : ρ} {toBio : Bool} {fbio : Ptr ρ}
    (cached : disk.fbio.NullOrOf req) (prepared : prepareFbio disk req toBio = some (fbio, disk')) :
    ∃ id, fbio = .fbio ⟨id, req⟩ := by
  unfold prepareFbio at prepared
  cases word : disk.fbio with
  | null =>
    simp only [word] at prepared
    split at prepared
    · cases prepared
      exact ⟨_, rfl⟩
    · cases prepared
  | disk =>
    rw [word] at cached
    cases cached
  | fbio f =>
    rw [word] at cached
    have own : f.fbioParameter = req := cached
    simp only [word] at prepared
    cases prepared
    exact ⟨f.id, by rw [← own]⟩

/-- What every run keeps in which the cached fbio is always the right one: the
requests that were reported as dispatched are exactly those that have settled. -/
structure Bound (s : MqSystem ρ) (history : List (MqEvent ρ)) : Prop where
  binds : BindsRequests history
  returned : ∀ req, .returned req .ok ∈ history → req ∈ s.finished
  counts : ∀ req, history.countP (MqEvent.settles req) = if req ∈ s.finished then 1 else 0

/-- A request that is not finished has no accepted fbio. -/
theorem Bound.not_accepted {req : ρ} {id : Nat} (bound : s.Bound history) (fresh : req ∉ s.finished) :
    ¬AcceptedBefore history (.fbio ⟨id, req⟩) := by
  rintro ⟨presented, accepted⟩
  have none := bound.counts req
  rw [if_neg fresh, List.countP_eq_zero] at none
  exact none _ accepted (by simp [MqEvent.settles, kfioBioFailureIsRetryable, ebusy, enospc])

/-- The history grows by an event that is no submission, and reports settled requests only. -/
theorem Bound.quiet (event : MqEvent ρ) (bound : s.Bound history) (same : t.finished = s.finished)
    (notSubmitted : ∀ fbio req rc, event ≠ .submitted fbio req rc)
    (reported : ∀ req, event = .returned req .ok → req ∈ s.finished) : t.Bound (history ++ [event]) := by
  have silent (req : ρ) : event.settles req = false := by
    cases event with
    | submitted fbio req rc => exact absurd rfl (notSubmitted fbio req rc)
    | completed | returned => rfl
  have counts (req : ρ) :
      (history ++ [event]).countP (MqEvent.settles req) = if req ∈ t.finished then 1 else 0 := by
    simp [List.countP_append, silent req, bound.counts, same]
  have returned (req : ρ) (member : .returned req .ok ∈ history ++ [event]) : req ∈ t.finished := by
    rw [same]
    rcases List.mem_append.mp member with old | new
    · exact bound.returned req old
    · exact reported req (List.mem_singleton.mp new).symm
  refine ⟨⟨?_, ?_, ?_⟩, returned, counts⟩
  · intro fbio req rc member
    rcases List.mem_append.mp member with old | new
    · exact bound.binds.own fbio req rc old
    · exact absurd (List.mem_singleton.mp new).symm (notSubmitted fbio req rc)
  · refine bound.binds.once.snoc fun fbio req rc submission => ?_
    exact absurd submission (notSubmitted fbio req rc)
  · intro req member
    rw [counts, if_pos (returned req member)]

/-- A request submits an fbio of its own. That settles it, unless it is tried again later. -/
theorem Bound.submitted {req : ρ} {rc : Int} (id : Nat) (bound : s.Bound history) (fresh : req ∉ s.finished)
    (now : t.finished = if kfioBioFailureIsRetryable rc then s.finished else s.finished ++ [req]) :
    t.Bound (history ++ [.submitted (.fbio ⟨id, req⟩) req rc]) := by
  have counts (other : ρ) : (history ++ [MqEvent.submitted (.fbio ⟨id, req⟩) req rc]).countP
      (MqEvent.settles other) = if other ∈ t.finished then 1 else 0 := by
    rw [List.countP_append, bound.counts, now]
    cases retryable : kfioBioFailureIsRetryable rc with
    | true => simp [MqEvent.settles, retryable]
    | false =>
      by_cases mine : req = other
      · subst mine
        simp [MqEvent.settles, retryable, fresh]
      · simp [MqEvent.settles, retryable, mine, Ne.symm mine]
  have returned (other : ρ) (member : .returned other .ok ∈ history ++ [.submitted (.fbio ⟨id, req⟩) req rc]) :
      other ∈ t.finished := by
    have old := bound.returned other (by simpa using member)
    rw [now]
    split
    · exact old
    · exact List.mem_append_left _ old
  refine ⟨⟨?_, ?_, ?_⟩, returned, counts⟩
  · intro fbio presented rc member
    rcases List.mem_append.mp member with old | new
    · exact bound.binds.own fbio presented rc old
    · cases List.mem_singleton.mp new
      exact ⟨_, rfl, rfl⟩
  · refine bound.binds.once.snoc fun fbio presented rc submission => ?_
    cases submission
    exact bound.not_accepted fresh
  · intro other member
    rw [counts, if_pos (returned other member)]

theorem bound {env : MqEnv ρ} (enough : 0 < fuel) (reach : MqReach env fuel CachesOwn s history) :
    s.Bound history := by
  refine reach.invariant Bound ?_ ?_
  · refine ⟨⟨?_, Transition.historical_nil _, ?_⟩, ?_, ?_⟩ <;> simp [initial]
  intro s t action history events before bound own run
  cases step_shape enough (compList_null enough before) run with
  | starved => exact bound.quiet _ rfl (by simp) (by simp)
  | @accepted req _ fbio disk fresh prepared =>
    obtain ⟨id, rfl⟩ := prepareFbio_own own prepared
    let after : MqSystem ρ := ⟨disk, s.inFlight ++ [.fbio ⟨id, req⟩], s.finished ++ [req]⟩
    have sent : after.Bound (history ++ [.submitted (.fbio ⟨id, req⟩) req 0]) := bound.submitted id fresh rfl
    have next := sent.quiet (t := after) (.returned req .ok) rfl (by simp) (by simp [after])
    simpa using next
  | @busy req _ rc fbio disk fresh prepared busy =>
    obtain ⟨id, rfl⟩ := prepareFbio_own own prepared
    let after : MqSystem ρ := ⟨{ disk with fbio := .fbio ⟨id, req⟩ }, s.inFlight, s.finished⟩
    have tried := bound.submitted (t := after) id fresh (if_pos busy).symm
    have next := tried.quiet (t := after) (.returned req .resource) rfl (by simp) (by simp)
    simpa using next
  | @failed req _ rc fbio disk fresh prepared permanent _ =>
    obtain ⟨id, rfl⟩ := prepareFbio_own own prepared
    let after : MqSystem ρ := ⟨{ disk with fbio := .null, pending := disk.pending - 1#32 }, s.inFlight, s.finished ++ [req]⟩
    have sent := bound.submitted (t := after) id fresh (by rw [permanent]; rfl)
    have completed := sent.quiet (t := after)
      (.completed (.fbio ⟨id, req⟩) [env.diskParameter] disk.pending) rfl (by simp) (by simp)
    have next := completed.quiet (t := after) (.returned req .ok) rfl (by simp) (by simp [after])
    simpa using next
  | completed => exact bound.quiet _ rfl (by simp) (by simp)

end MqSystem

/-- Dispatch binds each request to its own fbio in every run in which the cached
fbio is never one of another request. -/
theorem fioQueueRq_binds {env : MqEnv ρ} {fuel : Nat} {s : MqSystem ρ} {history : List (MqEvent ρ)}
    (enough : 0 < fuel) (reach : MqReach env fuel MqSystem.CachesOwn s history) : BindsRequests history :=
  (MqSystem.bound enough reach).binds

/-- A request that meets a busy device is presented again, accepted and completed. -/
theorem fioQueueRq_binds_retry : ∃ (s : MqSystem Nat) (history : List (MqEvent Nat)),
    0 < 1 ∧ MqReach ⟨0, fun _ => .null⟩ 1 MqSystem.CachesOwn s history ∧ s.finished = [7] ∧
      BindsRequests history := by
  obtain ⟨s, history, reach, checked⟩ := MqReach.of_check ⟨0, fun _ => .null⟩ 1
    (fun (s : MqSystem Nat) action => decide (s.CachesOwn action)) (fun _ _ passed => of_decide_eq_true passed)
    (fun last => decide (last.1.finished = [7]))
    [.queueRq 7 true (-ebusy), .queueRq 7 true 0, .complete (.fbio ⟨0, 7⟩)] (by decide)
  exact ⟨s, history, by decide, reach, by simpa using checked, fioQueueRq_binds (by decide) reach⟩

/-- Request 1 meets a busy device and leaves its fbio in the cache; request 2 is
presented next, and the fbio of request 1 is submitted for it. -/
theorem fioQueueRq_binds_other : ¬∀ (s : MqSystem Nat) (history : List (MqEvent Nat)),
    MqReach ⟨0, fun _ => .null⟩ 1 (fun _ _ => True) s history → BindsRequests history := by
  intro always
  obtain ⟨s, history, reach, checked⟩ := MqReach.of_check ⟨0, fun _ => .null⟩ 1 (fun _ _ => true)
    (fun (_ : MqSystem Nat) (_ : MqAction Nat) _ => trivial)
    (fun last => decide (MqEvent.submitted (.fbio ⟨0, 1⟩) 2 0 ∈ last.2))
    [.queueRq 1 true (-ebusy), .queueRq 2 true 0] (by decide)
  obtain ⟨f, same, own⟩ := (always s history reach).own (.fbio ⟨0, 1⟩) 2 0 (by simpa using checked)
  cases same
  cases own

end IomemoryVsl
