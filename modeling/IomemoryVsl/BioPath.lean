import IomemoryVsl.Errno
import IomemoryVsl.LinkChain

namespace IomemoryVsl

/-- The two functions of the bio path that look into a bio and an fbio. The path
itself uses nothing of them but their result and `fbio_parameter`. A refused bio
may leave the fbio changed, so the fbio is returned in both cases. -/
structure FbioOps (β φ : Type) where
  fbioParameter : φ → β
  kfioMapToFbio : β → Option φ
  kfioKbioAddBio : φ → β → φ × Int
  map_parameter : ∀ {bio fbio}, kfioMapToFbio bio = some fbio → fbioParameter fbio = bio
  add_parameter : ∀ fbio bio, fbioParameter (kfioKbioAddBio fbio bio).1 = fbioParameter fbio

/-- An fbio handed to `kfio_bio_submit`, with the links as they are at that moment. -/
structure Submission (β φ : Type) where
  fbio : φ
  links : β → Option β

/-- The links of the bios and what has been done with bios and fbios so far. -/
structure BioPath (β φ : Type) where
  biNext : β → Option β
  submitted : List (Submission β φ)
  completed : List (β × Int)

namespace BioPath

variable {β φ : Type}

def setNext [DecidableEq β] (path : BioPath β φ) (bio : β) (target : Option β) : BioPath β φ :=
  { path with biNext := Function.update path.biNext bio target }

def kfioBioSubmit (path : BioPath β φ) (fbio : φ) : BioPath β φ :=
  { path with submitted := path.submitted ++ [⟨fbio, path.biNext⟩] }

def kfioBioComplete (path : BioPath β φ) (bio : β) (error : Int) : BioPath β φ :=
  { path with completed := path.completed ++ [(bio, error)] }

end BioPath

/-- The local variables of `kfio_kickoff_plugged_io`. -/
structure Kickoff (β φ : Type) where
  path : BioPath β φ
  tail : Option β
  fbio : Option φ

variable {β φ : Type} [DecidableEq β]

/-- The second half of the loop body: a new fbio is made for the bio. -/
def kfioKickoffRemap (ops : FbioOps β φ) (path : BioPath β φ) (tail : Option β) (bio : β) : Kickoff β φ :=
  match ops.kfioMapToFbio bio with
  | none => ⟨path.kfioBioComplete bio (-eio), tail, none⟩
  | some fbio => ⟨path, some bio, some fbio⟩

/-- The loop body of `kfio_kickoff_plugged_io` behind the read of `bi_next`. -/
def kfioKickoffBody (ops : FbioOps β φ) (k : Kickoff β φ) (bio : β) : Kickoff β φ :=
  let path := k.path.setNext bio none
  match k.fbio with
  | some fbio =>
    let (fbio, refused) := ops.kfioKbioAddBio fbio bio
    if refused = 0 then
      match k.tail with
      | some tail => ⟨path.setNext tail (some bio), some bio, some fbio⟩
      | none => ⟨path, some bio, some fbio⟩
    else
      kfioKickoffRemap ops (path.kfioBioSubmit fbio) none bio
  | none => kfioKickoffRemap ops path k.tail bio

/-- The do-while loop. It stops with nothing only when it runs out of fuel. -/
def kfioKickoffLoop (ops : FbioOps β φ) : Nat → Kickoff β φ → β → Option (Kickoff β φ)
  | 0, _, _ => none
  | fuel + 1, k, bio =>
    let next := k.path.biNext bio
    let k := kfioKickoffBody ops k bio
    match next with
    | none => some k
    | some bio => kfioKickoffLoop ops fuel k bio

def Kickoff.finish (k : Kickoff β φ) : BioPath β φ :=
  match k.fbio with
  | some fbio => k.path.kfioBioSubmit fbio
  | none => k.path

def kfioKickoffPluggedIo (ops : FbioOps β φ) (fuel : Nat) (path : BioPath β φ) (bio : β) :
    Option (BioPath β φ) :=
  (kfioKickoffLoop ops fuel ⟨path, none, none⟩ bio).map Kickoff.finish

/-- The list of a `kfio_plug`. -/
structure KfioPlug (β : Type) where
  bioHead : Option β
  bioTail : Option β

/-- Returns the list that is to be kicked off now, if any. `submitNow` is
`kfio_bio_should_submit_now` together with the test of `use_workqueue`. -/
def kfioAddBioToPluggedList (submitNow : β → Bool) (plug : KfioPlug β) (path : BioPath β φ) (bio : β) :
    KfioPlug β × BioPath β φ × Option β :=
  let (plug, path) : KfioPlug β × BioPath β φ :=
    match plug.bioTail with
    | some tail => (plug, path.setNext tail (some bio))
    | none => ({ plug with bioHead := some bio }, path)
  let plug := { plug with bioTail := some bio }
  if submitNow bio then
    (⟨none, none⟩, path, plug.bioHead)
  else
    (plug, path, none)

/-- The plugged branch of `kfio_make_request`. -/
def kfioMakeRequestPlugged (ops : FbioOps β φ) (submitNow : β → Bool) (fuel : Nat) (s : KfioPlug β × BioPath β φ)
    (bio : β) : Option (KfioPlug β × BioPath β φ) :=
  let (plug, path, ret) := kfioAddBioToPluggedList submitNow s.1 s.2 bio
  match ret with
  | none => some (plug, path)
  | some head => (kfioKickoffPluggedIo ops fuel path head).map fun path => (plug, path)

def kfioUnplugDoCb (ops : FbioOps β φ) (fuel : Nat) (s : KfioPlug β × BioPath β φ) : Option (BioPath β φ) :=
  match s.1.bioHead with
  | some head => kfioKickoffPluggedIo ops fuel s.2 head
  | none => some s.2

/-- The life of one plug: some bios arrive, then the plug is pulled. -/
def plugRun (ops : FbioOps β φ) (submitNow : β → Bool) (fuel : Nat) (links : β → Option β) (arrivals : List β) :
    Option (BioPath β φ) :=
  (arrivals.foldlM (kfioMakeRequestPlugged ops submitNow fuel) (⟨none, none⟩, ⟨links, [], []⟩)).bind
    (kfioUnplugDoCb ops fuel)

/-- `kfio_bio_completor`: the bios ended, in order. The owner of a bio may do
with `bi_next` what it wants once the bio has ended. -/
def kfioBioCompletor (reuse : β → Option β) : Nat → (β → Option β) → β → Option (List β)
  | 0, _, _ => none
  | fuel + 1, links, bio =>
    let next := links bio
    let links := Function.update links bio (reuse bio)
    match next with
    | none => some [bio]
    | some bio' => (kfioBioCompletor reuse fuel links bio').map (bio :: ·)

end IomemoryVsl
