import IomemoryVsl.BioPlug
import IomemoryVsl.ChainHeap
import IomemoryVsl.DiskExpose
import IomemoryVsl.Transition

namespace IomemoryVsl

open ChainHeap

/-- A `kfio_plug` on the `cb_list` of the plug of a task. -/
structure PlugEntry (τ δ β : Type) where
  task : τ
  disk : δ
  plug : KfioPlug β

/-- A call of `kfio_kickoff_plugged_io` that is under way: the bio it takes up
next and its local variables. -/
structure KickoffCall (δ β : Type) where
  disk : δ
  bio : β
  tail : Option β
  fbio : Option (KfioBio β)

/-- A call of `kfio_bio_completor` that is under way, at its next bio. -/
structure CompletorCall (δ β : Type) where
  disk : δ
  bio : β
  error : Int

/-- The make_request path of all disks. `given` says which bios the block layer
has handed over and has not got back. -/
structure RequestState (τ δ β : Type) where
  biNext : β → Option β
  plugged : τ → Bool
  plugs : List (PlugEntry τ δ β)
  works : List (PlugEntry τ δ β)
  kickoffs : List (KickoffCall δ β)
  inFlight : List (δ × KfioBio β)
  completors : List (CompletorCall δ β)
  given : β → Bool

/-- What one call of `kfio_make_request` meets: the bios, the module parameters,
and the outcomes of `holdoff_writes_under_pressure` and `kmalloc`. -/
structure RequestCall (β : Type) where
  env : BioEnv β
  unstalled : Bool
  kmalloc : Bool
  useWorkqueue : Int
  dangerousPluggingCallback : Int

inductive RequestEvent (δ β : Type) where
  | arrived (disk : δ) (bio : β)
  | ended (disk : δ) (bio : β) (error : Int)
  deriving DecidableEq, Repr

namespace RequestState

variable {τ δ β : Type}

/-- Before any bio has arrived. -/
def initial (links : β → Option β) : RequestState τ δ β :=
  ⟨links, fun _ => false, [], [], [], [], [], fun _ => false⟩

/-- What a piece of the bio path submitted is in flight, and what it completed is reported. -/
def absorb (s : RequestState τ δ β) (disk : δ) (path : BioPath β (KfioBio β)) :
    RequestState τ δ β × List (RequestEvent δ β) :=
  ({ s with
      biNext := path.biNext
      inFlight := s.inFlight ++ path.submitted.map fun sub => (disk, sub.fbio) },
    path.completed.map fun completion => .ended disk completion.1 completion.2)

/-- The path as a piece of it finds it, with nothing submitted or completed yet. -/
def path (s : RequestState τ δ β) : BioPath β (KfioBio β) := ⟨s.biNext, [], []⟩

def withPlugs (s : RequestState τ δ β) (plugs : List (PlugEntry τ δ β)) : RequestState τ δ β :=
  { s with plugs := plugs }

def kickoff (s : RequestState τ δ β) (disk : δ) (bio : β) : RequestState τ δ β :=
  { s with kickoffs := s.kickoffs ++ [⟨disk, bio, none, none⟩] }

variable [DecidableEq τ] [DecidableEq δ]

/-- The plug to queue on, by its place, and the plugs with it. -/
def kfioShouldPlug (s : RequestState τ δ β) (task : τ) (disk : δ) (call : RequestCall β) :
    Option (Nat × List (PlugEntry τ δ β)) :=
  if call.useWorkqueue ≠ useQueueNone then
    none
  else if call.dangerousPluggingCallback = 1 then
    none
  else if s.plugged task = false then
    none
  else
    match s.plugs.findIdx? fun kplug => kplug.task = task ∧ kplug.disk = disk with
    | some place => some (place, s.plugs)
    | none => if call.kmalloc then some (s.plugs.length, s.plugs ++ [⟨task, disk, none, none⟩]) else none

variable [DecidableEq β]

/-- `kfio_make_request`. The bio is what the kernel's split to the limits of the queue gives
back. The branch for atomic chains is dead, as `__kfio_bio_atomic` gives 0 for every bio. -/
def kfioMakeRequest (s : RequestState τ δ β) (task : τ) (disk : δ) (bio : β) (call : RequestCall β) :
    Option (RequestState τ δ β × List (RequestEvent δ β)) :=
  if (call.env.bio bio).bioDataDir = .write ∧ call.unstalled = false then
    some (s.absorb disk (s.path.kfioBioComplete bio (-eio)))
  else
    match s.kfioShouldPlug task disk call with
    | none =>
      match kfioMapToFbio call.env bio with
      | some fbio => some (s.absorb disk (s.path.kfioBioSubmit fbio))
      | none => some (s.absorb disk (s.path.kfioBioComplete bio (-eio)))
    | some (place, plugs) =>
      plugs[place]?.map fun kplug =>
        let submitNow bio := (call.env.bio bio).kfioBioShouldSubmitNow && decide (call.useWorkqueue = useQueueNone)
        let (plug, path, ret) := kfioAddBioToPluggedList submitNow kplug.plug s.path bio
        let (s, events) := (s.withPlugs (plugs.set place { kplug with plug := plug })).absorb disk path
        match ret with
        | some head => (s.kickoff disk head, events)
        | none => (s, events)

omit [DecidableEq τ] [DecidableEq δ] [DecidableEq β] in
def kfioUnplugDoCb (s : RequestState τ δ β) (kplug : PlugEntry τ δ β) : RequestState τ δ β :=
  match kplug.plug.bioHead with
  | some bio => s.kickoff kplug.disk bio
  | none => s

/-- `kfio_unplug_cb` for a plug that the block layer has taken off its list. -/
def kfioUnplugCb (s : RequestState τ δ β) (kplug : PlugEntry τ δ β) (fromSchedule : Bool) : RequestState τ δ β :=
  if fromSchedule then { s with works := s.works ++ [kplug] } else s.kfioUnplugDoCb kplug

/-- One round of the loop of a kickoff, and with the last round the submission
behind the loop. -/
def kickoffRound (s : RequestState τ δ β) (place : Nat) (call : KickoffCall δ β) (env : BioEnv β) :
    RequestState τ δ β × List (RequestEvent δ β) :=
  let k := kfioKickoffBody (kfioOps env) ⟨⟨s.biNext, [], []⟩, call.tail, call.fbio⟩ call.bio
  match s.biNext call.bio with
  | some bio => { s with kickoffs := s.kickoffs.set place ⟨call.disk, bio, k.tail, k.fbio⟩ }.absorb call.disk k.path
  | none => { s with kickoffs := s.kickoffs.eraseIdx place }.absorb call.disk k.finish

/-- One round of the loop of a completor: the link is read before the bio ends. -/
def completorRound (s : RequestState τ δ β) (place : Nat) (call : CompletorCall δ β) :
    RequestState τ δ β × List (RequestEvent δ β) :=
  let events := [.ended call.disk call.bio call.error]
  match s.biNext call.bio with
  | some bio => ({ s with completors := s.completors.set place { call with bio := bio } }, events)
  | none => ({ s with completors := s.completors.eraseIdx place }, events)

end RequestState

/-- What can happen next, in any order: the tasks and the block layer act, each
kickoff and each completor goes on by one round, an fbio completes, and a bio
that is not with the driver has its link written by its owner. -/
inductive RequestAction (τ δ β : Type) where
  | startPlug (task : τ)
  | finishPlug (task : τ)
  | makeRequest (task : τ) (disk : δ) (bio : β) (call : RequestCall β)
  | unplug (place : Nat) (fromSchedule : Bool)
  | runWork (place : Nat)
  | kickoffRound (place : Nat) (env : BioEnv β)
  | complete (place : Nat) (error : Int)
  | completorRound (place : Nat)
  | writeLink (bio : β) (target : Option β)

namespace RequestState

variable {τ δ β : Type} [DecidableEq τ] [DecidableEq δ] [DecidableEq β]

def act (s : RequestState τ δ β) : RequestAction τ δ β → Option (RequestState τ δ β × List (RequestEvent δ β))
  | .startPlug task => some ({ s with plugged := Function.update s.plugged task true }, [])
  | .finishPlug task =>
    if ∀ kplug ∈ s.plugs, kplug.task ≠ task then
      some ({ s with plugged := Function.update s.plugged task false }, [])
    else none
  | .makeRequest task disk bio call =>
    (s.kfioMakeRequest task disk bio call).map fun (s, events) => (s, .arrived disk bio :: events)
  | .unplug place fromSchedule =>
    s.plugs[place]?.map fun kplug =>
      ((s.withPlugs (s.plugs.eraseIdx place)).kfioUnplugCb kplug fromSchedule, [])
  | .runWork place =>
    s.works[place]?.map fun kplug => ({ s with works := s.works.eraseIdx place }.kfioUnplugDoCb kplug, [])
  | .kickoffRound place env => s.kickoffs[place]?.map fun call => s.kickoffRound place call env
  | .complete place error =>
    s.inFlight[place]?.map fun (disk, fbio) =>
      ({ s with
          inFlight := s.inFlight.eraseIdx place
          completors := s.completors ++ [⟨disk, fbio.fbioParameter, error⟩] }, [])
  | .completorRound place => s.completors[place]?.map fun call => s.completorRound place call
  | .writeLink bio target => some ({ s with biNext := Function.update s.biNext bio target }, [])

/-- The block layer's own note of where its bios are. -/
def note (given : β → Bool) : RequestEvent δ β → β → Bool
  | .arrived _ bio => Function.update given bio true
  | .ended _ bio _ => Function.update given bio false

def step (s : RequestState τ δ β) (action : RequestAction τ δ β) :
    Option (RequestState τ δ β × List (RequestEvent δ β)) :=
  (s.act action).map fun (t, events) => ({ t with given := events.foldl note s.given }, events)

/-- What the block layer promises: it hands over a bio that is its own and leads
to no other, and writes only the links of its own bios. -/
def Allowed (s : RequestState τ δ β) : RequestAction τ δ β → Prop
  | .makeRequest _ _ bio _ => s.given bio = false ∧ s.biNext bio = none
  | .writeLink bio _ => s.given bio = false
  | _ => True

instance (s : RequestState τ δ β) : (action : RequestAction τ δ β) → Decidable (s.Allowed action)
  | .makeRequest _ _ bio _ => inferInstanceAs (Decidable (s.given bio = false ∧ s.biNext bio = none))
  | .writeLink bio _ => inferInstanceAs (Decidable (s.given bio = false))
  | .startPlug _ | .finishPlug _ | .unplug .. | .runWork _ | .kickoffRound .. | .complete .. | .completorRound _ =>
    .isTrue trivial

end RequestState

end IomemoryVsl
