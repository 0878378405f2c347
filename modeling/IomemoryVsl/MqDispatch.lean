import IomemoryVsl.Errno
import IomemoryVsl.Transition

namespace IomemoryVsl

/-- An fbio made by `kfio_request_to_bio`, with the request it was made from. -/
structure MqFbio (ρ : Type) where
  id : Nat
  fbioParameter : ρ
  deriving DecidableEq, Repr

/-- A word that is read as a pointer to an fbio or to a list entry: NULL, the
address of the disk, which is that of its first member `fbio`, or an fbio. -/
inductive Ptr (ρ : Type)
  | null
  | disk
  | fbio (f : MqFbio ρ)
  deriving DecidableEq, Repr

/-- The memory that the completor reads through a cast: the word of the
`kfio_disk` at the place of `fbio_parameter`, and the first word of an fbio. -/
structure MqEnv (ρ : Type) where
  diskParameter : ρ
  fbioOwner : MqFbio ρ → Ptr ρ

/-- What dispatch and completion use of a `struct kfio_disk`. `built` counts the
fbios made so far; the code does not have it. -/
structure MqDisk (ρ : Type) where
  fbio : Ptr ρ
  compList : Ptr ρ
  pending : BitVec 32
  built : Nat
  deriving DecidableEq, Repr

inductive BlkStatus
  | ok | resource
  deriving DecidableEq, Repr

def kfioBioFailureIsRetryable (status : Int) : Bool := status == -enospc || status == -ebusy

inductive MqEvent (ρ : Type)
  | submitted (fbio : Ptr ρ) (req : ρ) (rc : Int)
  /-- A run of `kfio_req_completor` for an fbio, with the requests for which it
  called `blk_mq_complete_request` and the value of `pending` before. -/
  | completed (fbio : Ptr ρ) (requests : List ρ) (pending : BitVec 32)
  | returned (req : ρ) (status : BlkStatus)
  deriving DecidableEq, Repr

variable {ρ : Type}

/-- The walk of `complete_list_entries` over the spliced list: each entry is cast
to an fbio, and the request is read from there. -/
def walkEntries (env : MqEnv ρ) (disk : MqDisk ρ) : Nat → Ptr ρ → Option (List ρ)
  | _, .null => some []
  | 0, _ => none
  | fuel + 1, .disk => (walkEntries env disk fuel disk.fbio).map (env.diskParameter :: ·)
  | fuel + 1, .fbio f => (walkEntries env disk fuel (env.fbioOwner f)).map (f.fbioParameter :: ·)

/-- Returns the requests completed. -/
def completeListEntries (env : MqEnv ρ) (fuel : Nat) (disk : MqDisk ρ) : Option (MqDisk ρ × List ρ) :=
  let list := disk.compList
  let disk := { disk with compList := .null }
  (walkEntries env disk fuel list).map fun requests =>
    ({ disk with pending := disk.pending - BitVec.ofNat 32 requests.length }, requests)

/-- A whole run of `kfio_req_completor` that gets the queue lock. The entry it
adds is the address of `dp->fbio`, so initialising and adding the entry write
that member. -/
def kfioReqCompletor (env : MqEnv ρ) (fuel : Nat) (disk : MqDisk ρ) : Option (MqDisk ρ × List ρ) :=
  let disk := { disk with fbio := .null }
  let disk := { disk with fbio := disk.compList, compList := .disk }
  completeListEntries env fuel disk

/-- The cached fbio, or a new one. `toBio` tells whether `kfio_request_to_bio`
succeeds if it is called. -/
def prepareFbio (disk : MqDisk ρ) (req : ρ) (toBio : Bool) : Option (Ptr ρ × MqDisk ρ) :=
  match disk.fbio with
  | .null => if toBio then some (.fbio ⟨disk.built, req⟩, { disk with built := disk.built + 1 }) else none
  | cached => some (cached, disk)

/-- `rc` is the result of `kfio_bio_submit_handle_retryable` if it is called. A
permanent failure has run the completor before the submission returns. -/
def fioQueueRq (env : MqEnv ρ) (fuel : Nat) (disk : MqDisk ρ) (req : ρ) (toBio : Bool) (rc : Int) :
    Option (MqDisk ρ × List (MqEvent ρ) × BlkStatus) :=
  match prepareFbio disk req toBio with
  | none => some (disk, [], .resource)
  | some (fbio, disk) =>
    if rc = 0 then
      some (disk, [.submitted fbio req rc], .ok)
    else if kfioBioFailureIsRetryable rc then
      some ({ disk with fbio := fbio }, [.submitted fbio req rc], .resource)
    else
      (kfioReqCompletor env fuel disk).map fun done =>
        (done.1, [.submitted fbio req rc, .completed fbio done.2 disk.pending], .ok)

/-- The disk, the fbios that were accepted and not completed, and the requests
for which `BLK_STS_OK` was returned. -/
structure MqSystem (ρ : Type) where
  disk : MqDisk ρ
  inFlight : List (Ptr ρ)
  finished : List ρ
  deriving DecidableEq, Repr

inductive MqAction (ρ : Type)
  | queueRq (req : ρ) (toBio : Bool) (rc : Int)
  | complete (fbio : Ptr ρ)
  deriving DecidableEq, Repr

namespace MqSystem

/-- `linux_bdev_create_disk` clears the disk. -/
def initial : MqSystem ρ := ⟨⟨.null, .null, 0#32, 0⟩, [], []⟩

variable [DecidableEq ρ]

/-- The block layer presents any request it was not told to be dispatched, and
the device completes any fbio it has accepted. -/
def step (env : MqEnv ρ) (fuel : Nat) (s : MqSystem ρ) : MqAction ρ → Option (MqSystem ρ × List (MqEvent ρ))
  | .queueRq req toBio rc =>
    if req ∈ s.finished then
      none
    else
      (fioQueueRq env fuel s.disk req toBio rc).map fun (disk, events, status) =>
        (⟨disk,
          s.inFlight ++ events.filterMap (fun
            | .submitted fbio _ rc => if rc = 0 then some fbio else none
            | _ => none),
          if status = .ok then s.finished ++ [req] else s.finished⟩,
        events ++ [.returned req status])
  | .complete fbio =>
    if fbio ∈ s.inFlight then
      (kfioReqCompletor env fuel s.disk).map fun (disk, requests) =>
        (⟨disk, s.inFlight.erase fbio, s.finished⟩, [.completed fbio requests s.disk.pending])
    else
      none

end MqSystem

/-- Runs of dispatch and completion whose actions all meet `allowed`. -/
abbrev MqReach [DecidableEq ρ] (env : MqEnv ρ) (fuel : Nat) (allowed : MqSystem ρ → MqAction ρ → Prop) :
    MqSystem ρ → List (MqEvent ρ) → Prop :=
  Transition.Reach (MqSystem.step env fuel) allowed MqSystem.initial

theorem MqReach.of_check [DecidableEq ρ] (env : MqEnv ρ) (fuel : Nat) {allowed : MqSystem ρ → MqAction ρ → Prop}
    (test : MqSystem ρ → MqAction ρ → Bool) (sound : ∀ s action, test s action = true → allowed s action)
    (check : MqSystem ρ × List (MqEvent ρ) → Bool) (actions : List (MqAction ρ))
    (passes : (Transition.run (MqSystem.step env fuel) test MqSystem.initial actions).any check = true) :
    ∃ s history, MqReach env fuel allowed s history ∧ check (s, history) = true :=
  Transition.Reach.of_check sound check passes

/-- With an empty completion list the completor takes exactly its own entry off
again, and reads the request from the disk. -/
theorem kfioReqCompletor_eq (env : MqEnv ρ) {fuel : Nat} (enough : 0 < fuel) {disk : MqDisk ρ}
    (empty : disk.compList = .null) :
    kfioReqCompletor env fuel disk =
      some ({ disk with fbio := .null, pending := disk.pending - 1#32 }, [env.diskParameter]) := by
  obtain ⟨fuel, rfl⟩ : ∃ n, fuel = n + 1 := ⟨fuel - 1, by omega⟩
  obtain ⟨fbio, compList, pending, built⟩ := disk
  simp only at empty
  subst empty
  simp [kfioReqCompletor, completeListEntries, walkEntries]

namespace MqSystem

variable [DecidableEq ρ]

/-- Everything one step can do while the completion list is empty between steps. -/
inductive StepShape (env : MqEnv ρ) (s : MqSystem ρ) : MqAction ρ → MqSystem ρ → List (MqEvent ρ) → Prop
  | starved {req toBio rc} : req ∉ s.finished → prepareFbio s.disk req toBio = none →
      StepShape env s (.queueRq req toBio rc) s [.returned req .resource]
  | accepted {req toBio fbio disk} : req ∉ s.finished → prepareFbio s.disk req toBio = some (fbio, disk) →
      StepShape env s (.queueRq req toBio 0) ⟨disk, s.inFlight ++ [fbio], s.finished ++ [req]⟩
        [.submitted fbio req 0, .returned req .ok]
  | busy {req toBio rc fbio disk} : req ∉ s.finished → prepareFbio s.disk req toBio = some (fbio, disk) →
      kfioBioFailureIsRetryable rc = true →
      StepShape env s (.queueRq req toBio rc) ⟨{ disk with fbio := fbio }, s.inFlight, s.finished⟩
        [.submitted fbio req rc, .returned req .resource]
  | failed {req toBio rc fbio disk} : req ∉ s.finished → prepareFbio s.disk req toBio = some (fbio, disk) →
      kfioBioFailureIsRetryable rc = false → rc ≠ 0 →
      StepShape env s (.queueRq req toBio rc)
        ⟨{ disk with fbio := .null, pending := disk.pending - 1#32 }, s.inFlight, s.finished ++ [req]⟩
        [.submitted fbio req rc, .completed fbio [env.diskParameter] disk.pending, .returned req .ok]
  | completed {fbio} : fbio ∈ s.inFlight →
      StepShape env s (.complete fbio)
        ⟨{ s.disk with fbio := .null, pending := s.disk.pending - 1#32 }, s.inFlight.erase fbio, s.finished⟩
        [.completed fbio [env.diskParameter] s.disk.pending]

end MqSystem

theorem prepareFbio_keeps {disk disk' : MqDisk ρ} {req : ρ} {toBio : Bool} {fbio : Ptr ρ}
    (prepared : prepareFbio disk req toBio = some (fbio, disk')) :
    disk'.compList = disk.compList ∧ disk'.pending = disk.pending ∧ disk'.fbio = disk.fbio := by
  unfold prepareFbio at prepared
  split at prepared
  · split at prepared
    · cases prepared
      exact ⟨rfl, rfl, rfl⟩
    · cases prepared
  · cases prepared
    exact ⟨rfl, rfl, rfl⟩

namespace MqSystem

variable [DecidableEq ρ] {env : MqEnv ρ} {fuel : Nat} {s t : MqSystem ρ} {action : MqAction ρ}
  {events history : List (MqEvent ρ)}

theorem step_shape (enough : 0 < fuel) (empty : s.disk.compList = .null)
    (run : s.step env fuel action = some (t, events)) : StepShape env s action t events := by
  cases action with
  | queueRq req toBio rc =>
    simp only [step] at run
    split at run
    · cases run
    rename_i fresh
    cases prepared : prepareFbio s.disk req toBio with
    | none =>
      simp only [fioQueueRq, prepared, Option.map_some] at run
      cases run
      simpa using StepShape.starved fresh prepared
    | some result =>
      obtain ⟨fbio, disk⟩ := result
      simp only [fioQueueRq, prepared] at run
      split at run
      · rename_i zero
        subst zero
        cases run
        exact .accepted fresh prepared
      rename_i nonzero
      split at run
      · rename_i busy
        cases run
        simpa [nonzero] using StepShape.busy fresh prepared busy
      · rename_i permanent
        rw [kfioReqCompletor_eq env enough ((prepareFbio_keeps prepared).1.trans empty)] at run
        cases run
        simpa [nonzero] using StepShape.failed fresh prepared (by simpa using permanent) nonzero
  | complete fbio =>
    simp only [step] at run
    split at run
    · rename_i member
      rw [kfioReqCompletor_eq env enough empty] at run
      cases run
      exact .completed member
    · cases run

/-- Between steps the completion list is empty. -/
theorem compList_null {allowed : MqSystem ρ → MqAction ρ → Prop} (enough : 0 < fuel)
    (reach : MqReach env fuel allowed s history) : s.disk.compList = .null := by
  refine reach.invariant (fun s _ => s.disk.compList = .null) rfl ?_
  intro s t action history events _ empty _ run
  cases step_shape enough empty run with
  | starved => exact empty
  | accepted _ prepared => exact (prepareFbio_keeps prepared).1.trans empty
  | busy _ prepared => exact (prepareFbio_keeps prepared).1.trans empty
  | failed _ prepared => exact (prepareFbio_keeps prepared).1.trans empty
  | completed => exact empty

end MqSystem

end IomemoryVsl
