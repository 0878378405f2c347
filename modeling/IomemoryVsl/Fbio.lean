import IomemoryVsl.BioPath
import IomemoryVsl.Scatter

namespace IomemoryVsl

def kernelSectorSize : BitVec 64 := 512#64

def fusionMaxSectorsPerOsRwRequest : BitVec 64 := 2048#64

def fioReqAtomic : BitVec 32 := 1#32 <<< 31

def kbioFlgSync : BitVec 32 := 0x001#32

def kbioFlgAtomic : BitVec 32 := 0x100#32

/-- `REQ_OP_MASK` of the kernel: the operation is in the low eight bits of `bi_opf`. -/
def reqOpMask : BitVec 32 := 0xff#32

def reqOpDiscard : BitVec 32 := 3#32

def reqSync : BitVec 32 := 1#32 <<< 11

inductive KbioCmd
  | invalid | read | write | discard | flush
  deriving DecidableEq, Repr

inductive DataDir
  | read | write
  deriving DecidableEq, Repr

/-- What the driver reads of a `struct bio` besides its link. The segments of a
bio that carries data add up to its size. -/
structure Bio where
  biSector : BitVec 64
  biSize : BitVec 32
  biOpf : BitVec 32
  biFlags : BitVec 32
  segments : List BioVec
  sized : biOpf &&& reqOpMask ≠ reqOpDiscard → segmentBytes segments = biSize.toNat

namespace Bio

def bioOp (bio : Bio) : BitVec 32 := bio.biOpf &&& reqOpMask

/-- The macro of that name in `kblock.c`. -/
def bioFlags (bio : Bio) : BitVec 32 := bio.biOpf &&& reqOpMask

/-- The kernel's `op_is_write`: the lowest bit of the operation. -/
def bioDataDir (bio : Bio) : DataDir := if bio.bioOp &&& 1#32 = 1#32 then .write else .read

def kfioBioIsDiscard (bio : Bio) : Bool := bio.bioOp == reqOpDiscard

def kfioBioSync (bio : Bio) : Bool := bio.bioFlags == reqSync

/-- `kfio_bio_should_submit_now`. -/
def kfioBioShouldSubmitNow (bio : Bio) : Bool := bio.biSize == 0#32 || bio.kfioBioIsDiscard

end Bio

structure FioBlockRange where
  base : BitVec 64
  length : BitVec 64
  deriving DecidableEq, Repr

def fioRangeUpperBound (range : FioBlockRange) : BitVec 64 := range.base + range.length

/-- The block size of a device that `linux_bdev_create_disk` accepts. -/
structure FioBdev where
  bdevBlockSize : BitVec 32
  accepted : ¬(bdevBlockSize < 512#32 ∨ bdevBlockSize &&& (bdevBlockSize - 1#32) ≠ 0#32)

namespace FioBdev

/-- The block size as it enters 64-bit expressions. -/
def blockSize64 (bdev : FioBdev) : BitVec 64 := bdev.bdevBlockSize.setWidth 64

end FioBdev

/-- The fields of a `struct kfio_bio` that the bio path sets. -/
structure KfioBio (β : Type) where
  fbioCmd : KbioCmd
  fbioFlags : BitVec 32
  fbioRange : FioBlockRange
  fbioParameter : β
  fbioSgl : LinuxSgl

/-- The device, the contents of the bios, and the results of `kfio_bio_alloc`,
which returns an fbio with an empty SGL or nothing. -/
structure BioEnv (β : Type) where
  bdev : FioBdev
  bio : β → Bio
  kfioBioAlloc : β → Option { sgl : LinuxSgl // sgl.Empty }

variable {β : Type}

/-- The byte address of a bio, `BI_SECTOR(bio) * KERNEL_SECTOR_SIZE`. -/
def Bio.byteAddress (bio : Bio) : BitVec 64 := bio.biSector * kernelSectorSize

def linuxBioGetBid (bdev : FioBdev) (bio : Bio) : BitVec 64 := bio.byteAddress / bdev.blockSize64

def linuxBioGetBlen (bdev : FioBdev) (bio : Bio) : BitVec 64 := (bio.biSize / bdev.bdevBlockSize).setWidth 64

/-- The test with which `kfio_map_to_fbio` rejects a malformed bio. -/
def FioBdev.Aligned (bdev : FioBdev) (bio : Bio) : Prop :=
  bio.byteAddress % bdev.blockSize64 = 0#64 ∧ bio.biSize % bdev.bdevBlockSize = 0#32

instance (bdev : FioBdev) (bio : Bio) : Decidable (bdev.Aligned bio) := inferInstanceAs (Decidable (_ ∧ _))

/-- The command and the flags for a bio. -/
def fbioCommand (bio : Bio) : KbioCmd × BitVec 32 :=
  if bio.kfioBioIsDiscard then
    (.discard, 0#32)
  else if bio.bioDataDir = .write then
    (.write, (if bio.kfioBioSync then kbioFlgSync else 0#32) |||
      (if bio.biFlags &&& fioReqAtomic ≠ 0#32 then kbioFlgAtomic else 0#32))
  else
    (.read, 0#32)

def kfioMapToFbio (env : BioEnv β) (p : β) : Option (KfioBio β) :=
  let bio := env.bio p
  if ¬env.bdev.Aligned bio then
    none
  else
    match env.kfioBioAlloc p with
    | none => none
    | some sgl =>
      let fbio : KfioBio β := {
        fbioCmd := (fbioCommand bio).1
        fbioFlags := (fbioCommand bio).2
        fbioRange := ⟨linuxBioGetBid env.bdev bio, linuxBioGetBlen env.bdev bio⟩
        fbioParameter := p
        fbioSgl := sgl.1 }
      if bio.kfioBioIsDiscard then
        some fbio
      else
        let (sgl, error) := kfioSglMapBio fbio.fbioSgl bio.segments
        if error ≠ 0 then none else some { fbio with fbioSgl := sgl }

/-- The direction of the bio is that of the fbio. -/
def sameDirection (cmd : KbioCmd) (dir : DataDir) : Bool :=
  !((dir == .write && cmd != .write) || (dir == .read && cmd != .read))

/-- Returns 0 when the bio was added, 1 when it needs an fbio of its own. -/
def kfioKbioAddBio (env : BioEnv β) (fbio : KfioBio β) (p : β) : KfioBio β × Int :=
  let bio := env.bio p
  if bio.kfioBioIsDiscard then
    (fbio, 1)
  else if ¬sameDirection fbio.fbioCmd bio.bioDataDir then
    (fbio, 1)
  else if fbio.fbioFlags &&& kbioFlgAtomic ≠ 0#32 then
    (fbio, 1)
  else if bio.bioDataDir = .write ∧ bio.biFlags &&& fioReqAtomic ≠ 0#32 then
    (fbio, 1)
  else if fioRangeUpperBound fbio.fbioRange ≠ linuxBioGetBid env.bdev bio then
    (fbio, 1)
  else
    let blen := linuxBioGetBlen env.bdev bio
    if fbio.fbioRange.length + blen > fusionMaxSectorsPerOsRwRequest then
      (fbio, 1)
    else
      let (sgl, error) := kfioSglMapBio fbio.fbioSgl bio.segments
      if error ≠ 0 then
        ({ fbio with fbioSgl := sgl }, 1)
      else
        ({ fbio with
            fbioSgl := sgl
            fbioRange := { fbio.fbioRange with length := fbio.fbioRange.length + blen } }, 0)

/-- All that a successful `kfio_map_to_fbio` says about its bio and its fbio. -/
theorem kfioMapToFbio_eq_some {env : BioEnv β} {p : β} {fbio : KfioBio β} (made : kfioMapToFbio env p = some fbio) :
    env.bdev.Aligned (env.bio p) ∧ fbio.fbioParameter = p ∧ fbio.fbioCmd = (fbioCommand (env.bio p)).1 ∧
      fbio.fbioRange = ⟨linuxBioGetBid env.bdev (env.bio p), linuxBioGetBlen env.bdev (env.bio p)⟩ ∧
      ((env.bio p).kfioBioIsDiscard = false →
        fbio.fbioSgl.sglSize = BitVec.ofNat 32 (segmentBytes (env.bio p).segments)) := by
  unfold kfioMapToFbio at made
  dsimp only at made
  split at made
  · cases made
  rename_i aligned
  rw [not_not] at aligned
  split at made
  · cases made
  rename_i sgl _
  split at made
  · rename_i discard
    cases made
    refine ⟨aligned, rfl, rfl, rfl, fun other => ?_⟩
    rw [discard] at other
    cases other
  · split at made
    · cases made
    · rename_i mapped
      cases made
      refine ⟨aligned, rfl, rfl, rfl, fun _ => ?_⟩
      have size := kfioSglMapBio_size sgl.1 (env.bio p).segments
      rw [if_pos (not_not.mp mapped), sgl.2.2.2, BitVec.zero_add] at size
      exact size

/-- The bio passes every test of `kfio_kbio_add_bio` against the open fbio. -/
def Joins (env : BioEnv β) (fbio : KfioBio β) (p : β) : Prop :=
  (env.bio p).kfioBioIsDiscard = false ∧ sameDirection fbio.fbioCmd (env.bio p).bioDataDir = true ∧
    fbio.fbioFlags &&& kbioFlgAtomic = 0#32 ∧
    ¬((env.bio p).bioDataDir = .write ∧ (env.bio p).biFlags &&& fioReqAtomic ≠ 0#32) ∧
    fioRangeUpperBound fbio.fbioRange = linuxBioGetBid env.bdev (env.bio p) ∧
    ¬fbio.fbioRange.length + linuxBioGetBlen env.bdev (env.bio p) > fusionMaxSectorsPerOsRwRequest ∧
    (kfioSglMapBio fbio.fbioSgl (env.bio p).segments).2 = 0

instance (env : BioEnv β) (fbio : KfioBio β) (p : β) : Decidable (Joins env fbio p) :=
  inferInstanceAs (Decidable (_ ∧ _))

theorem kfioKbioAddBio_of_joins {env : BioEnv β} {fbio : KfioBio β} {p : β} (joins : Joins env fbio p) :
    kfioKbioAddBio env fbio p =
      ({ fbio with
          fbioSgl := (kfioSglMapBio fbio.fbioSgl (env.bio p).segments).1
          fbioRange := { fbio.fbioRange with
            length := fbio.fbioRange.length + linuxBioGetBlen env.bdev (env.bio p) } }, 0) := by
  obtain ⟨data, same, single, plain, next, short, mapped⟩ := joins
  simp only [kfioKbioAddBio, data, same, single, plain, next, short, mapped, Bool.false_eq_true, not_true,
    ne_eq, if_false]

/-- A refused bio changes nothing but unused parts of the SGL. -/
theorem kfioKbioAddBio_refused {env : BioEnv β} {fbio : KfioBio β} {p : β} (apart : ¬Joins env fbio p) :
    ∃ sgl, kfioKbioAddBio env fbio p = ({ fbio with fbioSgl := sgl }, 1) ∧ sgl.sglSize = fbio.fbioSgl.sglSize := by
  unfold kfioKbioAddBio
  dsimp only
  split
  · exact ⟨fbio.fbioSgl, rfl, rfl⟩
  rename_i data
  split
  · exact ⟨fbio.fbioSgl, rfl, rfl⟩
  rename_i same
  split
  · exact ⟨fbio.fbioSgl, rfl, rfl⟩
  rename_i single
  split
  · exact ⟨fbio.fbioSgl, rfl, rfl⟩
  rename_i plain
  split
  · exact ⟨fbio.fbioSgl, rfl, rfl⟩
  rename_i next
  split
  · exact ⟨fbio.fbioSgl, rfl, rfl⟩
  rename_i short
  split
  · rename_i failed
    refine ⟨_, rfl, ?_⟩
    have size := kfioSglMapBio_size fbio.fbioSgl (env.bio p).segments
    rwa [if_neg failed] at size
  · rename_i mapped
    refine absurd ⟨?_, not_not.mp same, not_not.mp single, plain, not_not.mp next, short, not_not.mp mapped⟩ apart
    simpa using data

theorem kfioKbioAddBio_of_not_joins {env : BioEnv β} {fbio : KfioBio β} {p : β} (apart : ¬Joins env fbio p) :
    (kfioKbioAddBio env fbio p).2 = 1 ∧
      ∃ sgl, (kfioKbioAddBio env fbio p).1 = { fbio with fbioSgl := sgl } ∧ sgl.sglSize = fbio.fbioSgl.sglSize := by
  obtain ⟨sgl, refused, size⟩ := kfioKbioAddBio_refused apart
  rw [refused]
  exact ⟨rfl, sgl, rfl, size⟩

theorem kfioKbioAddBio_eq_zero_iff {env : BioEnv β} {fbio : KfioBio β} {p : β} :
    (kfioKbioAddBio env fbio p).2 = 0 ↔ Joins env fbio p := by
  constructor
  · intro added
    by_contra apart
    rw [(kfioKbioAddBio_of_not_joins apart).1] at added
    cases added
  · intro joins
    rw [kfioKbioAddBio_of_joins joins]

theorem kfioKbioAddBio_parameter (env : BioEnv β) (fbio : KfioBio β) (p : β) :
    (kfioKbioAddBio env fbio p).1.fbioParameter = fbio.fbioParameter ∧
      (kfioKbioAddBio env fbio p).1.fbioCmd = fbio.fbioCmd := by
  by_cases joins : Joins env fbio p
  · rw [kfioKbioAddBio_of_joins joins]
    exact ⟨rfl, rfl⟩
  · obtain ⟨_, sgl, same, _⟩ := kfioKbioAddBio_of_not_joins joins
    rw [same]
    exact ⟨rfl, rfl⟩

/-- The driver's own functions on the bio path. -/
def kfioOps (env : BioEnv β) : FbioOps β (KfioBio β) where
  fbioParameter := KfioBio.fbioParameter
  kfioMapToFbio := kfioMapToFbio env
  kfioKbioAddBio := kfioKbioAddBio env
  map_parameter made := (kfioMapToFbio_eq_some made).2.1
  add_parameter fbio p := (kfioKbioAddBio_parameter env fbio p).1

/-- A device of 4096-byte blocks on which bio `n` writes one page of its own at
the `n`-th of some sectors. -/
def pageWrites (sectors : List (BitVec 64)) : BioEnv Nat where
  bdev := ⟨4096#32, by decide⟩
  bio n := {
    biSector := sectors.getD n 0#64
    biSize := 4096#32
    biOpf := 1#32
    biFlags := 0#32
    segments := [⟨n, 4096#32, 0#32⟩]
    sized := fun _ => rfl }
  kfioBioAlloc _ := some ⟨⟨16#32, 0#32, 0#32, 0#32, fun _ => 0#32, fun _ => ⟨0, 0#32, 0#32⟩⟩, rfl, rfl, rfl⟩

end IomemoryVsl
