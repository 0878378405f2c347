import IomemoryVsl.BioSync
import IomemoryVsl.ScatterBytes

namespace IomemoryVsl

def reqOpFlush : BitVec 32 := 2#32

def reqFua : BitVec 32 := 1#32 <<< 17

def reqPreflush : BitVec 32 := 1#32 <<< 18

/-- What the driver reads of a `struct request`: `blk_rq_pos`, `blk_rq_bytes`, the
flags and the bios. -/
structure BlkRequest (β : Type) where
  pos : BitVec 64
  bytes : BitVec 32
  cmdFlags : BitVec 32
  bios : List β

namespace BlkRequest

variable {β : Type}

def reqOp (req : BlkRequest β) : BitVec 32 := req.cmdFlags &&& reqOpMask

def rqDataDir (req : BlkRequest β) : DataDir := if req.reqOp &&& 1#32 = 1#32 then .write else .read

/-- The kernel's `op_is_sync`. -/
def rqIsSync (req : BlkRequest β) : Bool :=
  req.reqOp == 0#32 || req.cmdFlags &&& (reqSync ||| reqFua ||| reqPreflush) != 0#32

def rqIsEmptyFlush (req : BlkRequest β) : Bool := req.bytes == 0#32 && req.reqOp == reqOpFlush

/-- The request that the block layer makes of a single bio. -/
def ofBio (env : BioEnv β) (p : β) : BlkRequest β :=
  ⟨(env.bio p).biSector, (env.bio p).biSize, (env.bio p).biOpf, [p]⟩

end BlkRequest

variable {β : Type}

/-- The loop over the bios of a request, which stops at the first error. -/
def kfioSglMapBios (bio : β → Bio) : LinuxSgl → List β → LinuxSgl × Int
  | sgl, [] => (sgl, 0)
  | sgl, p :: rest =>
    let (sgl, error) := kfioSglMapBio sgl (bio p).segments
    if error ≠ 0 then (sgl, error) else kfioSglMapBios bio sgl rest

/-- The command and the flags for a request to read or write. -/
def requestCommand (req : BlkRequest β) (flags : BitVec 32) : KbioCmd × BitVec 32 :=
  if req.rqDataDir = .write then
    (.write, if req.rqIsSync ∨ req.cmdFlags &&& reqFua ≠ 0#32 then flags ||| kbioFlgSync else flags)
  else
    (.read, flags)

/-- `alloc` gives what `kfio_bio_alloc` or, if the caller cannot block,
`kfio_bio_try_alloc` returns: an empty SGL and the flags left in the fbio. A
request whose bios do not add up to its size is reported and returned all the same. -/
def kfioRequestToBio (bdev : FioBdev) (bio : β → Bio) (enableDiscard : Bool)
    (alloc : Bool → Option ({ sgl : LinuxSgl // sgl.Empty } × BitVec 32)) (req : BlkRequest β) (canBlock : Bool) :
    Option (KfioBio (BlkRequest β)) :=
  match alloc canBlock with
  | none => none
  | some (sgl, flags) =>
    let fbio : KfioBio (BlkRequest β) := {
      fbioCmd := .invalid
      fbioFlags := flags
      fbioRange := ⟨req.pos <<< 9 / bdev.blockSize64, (req.bytes / bdev.bdevBlockSize).setWidth 64⟩
      fbioParameter := req
      fbioSgl := sgl.1 }
    if req.rqIsEmptyFlush then
      some { fbio with
        fbioCmd := .flush
        fbioRange := { fbio.fbioRange with base := 0#64 }
        fbioFlags := fbio.fbioFlags ||| kbioFlgSync }
    else if enableDiscard ∧ req.reqOp = reqOpDiscard then
      some { fbio with fbioCmd := .discard }
    else
      let (cmd, flags) := requestCommand req fbio.fbioFlags
      let fbio := { fbio with fbioCmd := cmd, fbioFlags := flags }
      let (sgl, error) := kfioSglMapBios bio fbio.fbioSgl req.bios
      if error ≠ 0 then none else some { fbio with fbioSgl := sgl }

/-- The same command for the same blocks and the same memory. -/
structure SameCommand {α γ : Type} (a : KfioBio α) (b : KfioBio γ) : Prop where
  cmd : a.fbioCmd = b.fbioCmd
  range : a.fbioRange = b.fbioRange
  bytes : a.fbioSgl.bytes = b.fbioSgl.bytes

/-- Both paths make an fbio for the same command, or neither makes one. -/
def SameResult {α γ : Type} : Option (KfioBio α) → Option (KfioBio γ) → Prop
  | none, none => True
  | some a, some b => SameCommand a b
  | _, _ => False

/-- The bio is a flush without data. -/
def Bio.EmptyFlush (bio : Bio) : Prop := bio.biSize = 0#32 ∧ bio.bioOp = reqOpFlush

namespace LinuxSgl

variable {a b : LinuxSgl}

/-- Two empty lists of the same size agree. -/
theorem Empty.agrees (left : a.Empty) (right : b.Empty) (same : a.maxEntries = b.maxEntries) : a.Agrees b := by
  have none : b.numEntries.toNat = 0 := by
    rw [right.1]
    rfl
  refine ⟨same, left.1.trans right.1.symm, left.2.1.trans right.2.1.symm, left.2.2.trans right.2.2.symm, ?_, ?_⟩
  · intro i below
    omega
  · intro i below
    omega

theorem Agrees.last (agrees : a.Agrees b) : a.last = b.last := by
  rw [LinuxSgl.last, LinuxSgl.last, agrees.numEntries]

theorem Agrees.sl_last (agrees : a.Agrees b) (some : 0#32 < b.numEntries) : a.sl a.last = b.sl b.last := by
  have below := last_add_one some
  rw [agrees.last]
  exact agrees.entries _ (by omega)

theorem Agrees.continues (agrees : a.Agrees b) (vec : BioVec) : a.continues vec = b.continues vec := by
  rw [LinuxSgl.continues, LinuxSgl.continues]
  by_cases some : 0#32 < b.numEntries
  · simp only [agrees.numEntries, agrees.sl_last some]
  · simp only [agrees.numEntries, some, decide_false, Bool.false_and]

/-- Two arrays that are the same up to an entry are so with the entry. -/
theorem update_agrees {γ : Type} {f g : Nat → γ} {n : Nat} (old : ∀ i < n, f i = g i) (new : γ) :
    ∀ i < n + 1, Function.update f n new i = Function.update g n new i := by
  intro i below
  by_cases here : i = n
  · rw [here, Function.update_self, Function.update_self]
  · rw [Function.update_of_ne here, Function.update_of_ne here]
    exact old i (by omega)

theorem Agrees.addEntry (agrees : a.Agrees b) (entry : Scatterlist) (flags : BitVec 32)
    (room : b.numEntries < b.maxEntries) : (a.addEntry entry flags).Agrees (b.addEntry entry flags) := by
  refine ⟨agrees.maxEntries, congrArg (· + 1#32) agrees.numEntries, agrees.numMapped,
    congrArg (· + entry.length) agrees.sglSize, ?_, ?_⟩
  · simp only [LinuxSgl.addEntry, agrees.numEntries, toNat_numEntries_add_one room]
    exact update_agrees agrees.entries entry
  · simp only [LinuxSgl.addEntry, agrees.numEntries, toNat_numEntries_add_one room]
    exact update_agrees agrees.flags flags

theorem Agrees.growLast (agrees : a.Agrees b) (bytes : BitVec 32) (some : 0#32 < b.numEntries) :
    (a.growLast bytes).Agrees (b.growLast bytes) := by
  refine ⟨agrees.maxEntries, agrees.numEntries, agrees.numMapped, congrArg (· + bytes) agrees.sglSize,
    fun i below => ?_, agrees.flags⟩
  have entry := agrees.sl_last some
  simp only [LinuxSgl.growLast, entry]
  rw [agrees.last]
  by_cases same : i = b.last
  · rw [same, Function.update_self, Function.update_self]
  · rw [Function.update_of_ne same, Function.update_of_ne same]
    exact agrees.entries i below

end LinuxSgl

section SameSgl

variable {a b : LinuxSgl}

theorem kfioSglMapPage_agrees (agrees : a.Agrees b) (page : Nat) (offset size : BitVec 32) :
    (kfioSglMapPage a page offset size).1.Agrees (kfioSglMapPage b page offset size).1 ∧
      (kfioSglMapPage a page offset size).2 = (kfioSglMapPage b page offset size).2 := by
  simp only [kfioSglMapPage, agrees.numEntries, agrees.maxEntries]
  split
  · exact ⟨agrees, rfl⟩
  rename_i room
  split
  · exact ⟨agrees, rfl⟩
  · have added := agrees.addEntry ⟨page, offset, size⟩ 0#32 (BitVec.not_le.mp room)
    simp only [LinuxSgl.addEntry, agrees.numEntries, agrees.maxEntries] at added
    exact ⟨added, rfl⟩

theorem kfioSglMapSegment_agrees (agrees : a.Agrees b) (vec : BioVec) :
    (kfioSglMapSegment a vec).1.Agrees (kfioSglMapSegment b vec).1 ∧
      (kfioSglMapSegment a vec).2 = (kfioSglMapSegment b vec).2 := by
  unfold kfioSglMapSegment
  rw [agrees.continues]
  split
  · rename_i continues
    simp only [LinuxSgl.continues, Bool.and_eq_true, decide_eq_true_eq] at continues
    exact ⟨agrees.growLast vec.bvLen continues.1.1, rfl⟩
  · rw [agrees.numEntries, agrees.maxEntries]
    split
    · exact ⟨agrees, rfl⟩
    · exact kfioSglMapPage_agrees agrees _ _ _

theorem kfioSglMapSegments_agrees (agrees : a.Agrees b) (segments : List BioVec) :
    (kfioSglMapSegments a segments).1.Agrees (kfioSglMapSegments b segments).1 ∧
      (kfioSglMapSegments a segments).2 = (kfioSglMapSegments b segments).2 := by
  induction segments generalizing a b with
  | nil => exact ⟨agrees, rfl⟩
  | cons vec rest ih =>
    obtain ⟨here, rval⟩ := kfioSglMapSegment_agrees agrees vec
    rw [kfioSglMapSegments, kfioSglMapSegments]
    simp only [rval]
    split
    · exact ⟨here, rfl⟩
    · exact ih here

/-- Lists that agree map a bio alike. -/
theorem kfioSglMapBio_agrees (agrees : a.Agrees b) (segments : List BioVec) :
    (kfioSglMapBio a segments).2 = (kfioSglMapBio b segments).2 ∧
      ((kfioSglMapBio b segments).2 = 0 → (kfioSglMapBio a segments).1.Agrees (kfioSglMapBio b segments).1) := by
  obtain ⟨here, rval⟩ := kfioSglMapSegments_agrees agrees segments
  simp only [kfioSglMapBio, agrees.numEntries, agrees.maxEntries, rval]
  split
  · exact ⟨rfl, fun mapped => absurd mapped neg_eagain_ne_zero⟩
  split
  · rename_i failed
    exact ⟨rfl, fun mapped => absurd mapped failed⟩
  · exact ⟨rfl, fun _ => here⟩

end SameSgl

section Paths

variable {env : BioEnv β} {p : β} {enableDiscard canBlock : Bool}
  {alloc : Bool → Option ({ sgl : LinuxSgl // sgl.Empty } × BitVec 32)}
  {left right : { sgl : LinuxSgl // sgl.Empty }} {flags : BitVec 32}

theorem rqIsEmptyFlush_ofBio : (BlkRequest.ofBio env p).rqIsEmptyFlush = true ↔ (env.bio p).EmptyFlush := by
  rw [BlkRequest.rqIsEmptyFlush, Bool.and_eq_true, beq_iff_eq, beq_iff_eq]
  rfl

theorem reqOp_ofBio : (BlkRequest.ofBio env p).reqOp = reqOpDiscard ↔ (env.bio p).kfioBioIsDiscard = true :=
  beq_iff_eq.symm

theorem range_ofBio (bdev : FioBdev) (bio : Bio) :
    bio.biSector <<< 9 / bdev.blockSize64 = linuxBioGetBid bdev bio := by
  have shift : bio.biSector <<< 9 = bio.byteAddress := BitVec.shiftLeft_eq_mul_twoPow ..
  rw [shift]
  rfl

theorem Bio.EmptyFlush.data {bio : Bio} (flush : bio.EmptyFlush) : bio.kfioBioIsDiscard = false := by
  rw [Bio.kfioBioIsDiscard, flush.2]
  rfl

theorem Bio.EmptyFlush.read {bio : Bio} (flush : bio.EmptyFlush) : (fbioCommand bio).1 = .read := by
  have way : bio.bioDataDir = .read := by
    rw [Bio.bioDataDir, flush.2]
    rfl
  rw [fbioCommand, flush.data, way]
  rfl

theorem kfioSglMapBios_singleton (bio : β → Bio) (sgl : LinuxSgl) :
    (kfioSglMapBios bio sgl [p]).2 = (kfioSglMapBio sgl (bio p).segments).2 ∧
      ((kfioSglMapBio sgl (bio p).segments).2 = 0 →
        (kfioSglMapBios bio sgl [p]).1 = (kfioSglMapBio sgl (bio p).segments).1) := by
  simp only [kfioSglMapBios]
  split
  · rename_i failed
    exact ⟨rfl, fun mapped => absurd mapped failed⟩
  · rename_i mapped
    exact ⟨(not_not.mp mapped).symm, fun _ => rfl⟩

/-- The request path takes an empty flush for a flush, the bio path for a read. -/
theorem not_sameResult_of_emptyFlush (mq : alloc canBlock = some (right, flags))
    (flush : (env.bio p).EmptyFlush) :
    ¬SameResult (kfioRequestToBio env.bdev env.bio enableDiscard alloc (.ofBio env p) canBlock)
      (kfioMapToFbio env p) := by
  intro same
  simp only [kfioRequestToBio, mq, rqIsEmptyFlush_ofBio.mpr flush, if_true] at same
  cases made : kfioMapToFbio env p with
  | none =>
    rw [made] at same
    exact same
  | some fbio =>
    rw [made] at same
    have command := (kfioMapToFbio_eq_some made).2.2.1
    rw [flush.read, ← same.cmd] at command
    cases command

theorem not_rqIsEmptyFlush_of_discard (discard : (env.bio p).kfioBioIsDiscard = true) :
    ¬(BlkRequest.ofBio env p).rqIsEmptyFlush = true := by
  rw [rqIsEmptyFlush_ofBio]
  intro flush
  rw [flush.data] at discard
  cases discard

/-- With `enable_discard` off the request path takes a discard for a write. -/
theorem not_sameResult_of_discard (aligned : env.bdev.Aligned (env.bio p)) (direct : env.kfioBioAlloc p = some left)
    (mq : alloc canBlock = some (right, flags)) (discard : (env.bio p).kfioBioIsDiscard = true) :
    ¬SameResult (kfioRequestToBio env.bdev env.bio false alloc (.ofBio env p) canBlock) (kfioMapToFbio env p) := by
  intro same
  have noFlush := not_rqIsEmptyFlush_of_discard discard
  have way : (BlkRequest.ofBio env p).rqDataDir = .write := by
    rw [BlkRequest.rqDataDir, reqOp_ofBio.mpr discard]
    rfl
  simp only [kfioRequestToBio, mq, noFlush, Bool.false_eq_true, false_and, if_false, if_true,
    kfioMapToFbio, aligned, not_true, direct, discard] at same
  split at same
  · exact same
  · have command := same.cmd
    simp only [requestCommand, way, if_true, fbioCommand, discard] at command
    cases command

theorem sameResult_of_discard (aligned : env.bdev.Aligned (env.bio p)) (direct : env.kfioBioAlloc p = some left)
    (mq : alloc canBlock = some (right, flags)) (discard : (env.bio p).kfioBioIsDiscard = true) :
    SameResult (kfioRequestToBio env.bdev env.bio true alloc (.ofBio env p) canBlock) (kfioMapToFbio env p) := by
  have noFlush := not_rqIsEmptyFlush_of_discard discard
  simp only [kfioRequestToBio, mq, noFlush, reqOp_ofBio.mpr discard, and_self, if_true, if_false,
    kfioMapToFbio, aligned, not_true, direct, discard, Bool.false_eq_true]
  refine ⟨?_, ?_, ?_⟩
  · simp only [fbioCommand, discard, if_true]
  · simp only [BlkRequest.ofBio, range_ofBio]
    rfl
  · simp only [LinuxSgl.bytes, left.2.1, right.2.1]
    rfl

theorem sameResult_of_data (aligned : env.bdev.Aligned (env.bio p)) (direct : env.kfioBioAlloc p = some left)
    (mq : alloc canBlock = some (right, flags)) (capacity : right.1.maxEntries = left.1.maxEntries)
    (data : (env.bio p).kfioBioIsDiscard = false) (noFlush : ¬(env.bio p).EmptyFlush) :
    SameResult (kfioRequestToBio env.bdev env.bio enableDiscard alloc (.ofBio env p) canBlock)
      (kfioMapToFbio env p) := by
  have agrees := right.2.agrees left.2 capacity
  obtain ⟨error, mapped⟩ := kfioSglMapBio_agrees agrees (env.bio p).segments
  obtain ⟨single, same⟩ := kfioSglMapBios_singleton (p := p) env.bio right.1
  have noDiscard : ¬(BlkRequest.ofBio env p).reqOp = reqOpDiscard := by
    rw [reqOp_ofBio, data]
    exact Bool.false_ne_true
  have noEmptyFlush : ¬(BlkRequest.ofBio env p).rqIsEmptyFlush = true := rqIsEmptyFlush_ofBio.not.mpr noFlush
  have bios : (BlkRequest.ofBio env p).bios = [p] := rfl
  have command : (requestCommand (BlkRequest.ofBio env p) flags).1 = (fbioCommand (env.bio p)).1 := by
    have way : (BlkRequest.ofBio env p).rqDataDir = (env.bio p).bioDataDir := rfl
    simp only [requestCommand, fbioCommand, way, data, Bool.false_eq_true, if_false]
    cases (env.bio p).bioDataDir <;> rfl
  simp only [kfioRequestToBio, mq, noEmptyFlush, noDiscard, and_false, if_false, kfioMapToFbio, aligned,
    not_true, direct, data, Bool.false_eq_true, bios, single, error]
  split
  · trivial
  · rename_i fits
    refine ⟨command, ?_, ?_⟩
    · simp only [BlkRequest.ofBio, range_ofBio]
      rfl
    · simp only [same (error.trans (not_not.mp fits))]
      exact (mapped (not_not.mp fits)).bytes

/-- Both paths translate a well-formed bio to the same command exactly when it is
no empty flush and, if it is a discard, `enable_discard` is set. -/
theorem kfioRequestToBio_sameResult_iff (aligned : env.bdev.Aligned (env.bio p))
    (direct : env.kfioBioAlloc p = some left) (mq : alloc canBlock = some (right, flags))
    (capacity : right.1.maxEntries = left.1.maxEntries) :
    SameResult (kfioRequestToBio env.bdev env.bio enableDiscard alloc (.ofBio env p) canBlock)
        (kfioMapToFbio env p) ↔
      ¬(env.bio p).EmptyFlush ∧ ((env.bio p).kfioBioIsDiscard = true → enableDiscard = true) := by
  constructor
  · intro same
    refine ⟨fun flush => not_sameResult_of_emptyFlush mq flush same, fun discard => ?_⟩
    cases enableDiscard with
    | false => exact absurd same (not_sameResult_of_discard aligned direct mq discard)
    | true => rfl
  · rintro ⟨noFlush, enabled⟩
    cases discard : (env.bio p).kfioBioIsDiscard with
    | false => exact sameResult_of_data aligned direct mq capacity discard noFlush
    | true =>
      rw [enabled discard]
      exact sameResult_of_discard aligned direct mq discard

end Paths

/-- What an allocator of fbios with 16 entries returns. -/
def freshFbio : Option ({ sgl : LinuxSgl // sgl.Empty } × BitVec 32) :=
  some (⟨kfioSglAllocNvec 16#32 fun _ => 0#32, rfl, rfl, rfl⟩, 0#32)

theorem kfioRequestToBio_sameResult_iff_page :
    SameResult (kfioRequestToBio (pageWrites [8#64]).bdev (pageWrites [8#64]).bio false (fun _ => freshFbio)
        (.ofBio (pageWrites [8#64]) 0) false) (kfioMapToFbio (pageWrites [8#64]) 0) ↔
      ¬((pageWrites [8#64]).bio 0).EmptyFlush ∧
        (((pageWrites [8#64]).bio 0).kfioBioIsDiscard = true → false = true) :=
  kfioRequestToBio_sameResult_iff (by decide) rfl rfl rfl

/-- A device of 4096-byte blocks with one bio, an empty flush. -/
def emptyFlush : BioEnv Nat :=
  { pageWrites [0#64] with
    bio := fun _ => {
      biSector := 0#64
      biSize := 0#32
      biOpf := reqOpFlush
      biFlags := 0#32
      segments := []
      sized := fun _ => rfl } }

/-- An empty flush is flushed by the request path and read by the bio path. -/
theorem kfioRequestToBio_emptyFlush_differs :
    (kfioRequestToBio emptyFlush.bdev emptyFlush.bio true (fun _ => freshFbio) (.ofBio emptyFlush 0) true).map
        KfioBio.fbioCmd = some .flush ∧
      (kfioMapToFbio emptyFlush 0).map KfioBio.fbioCmd = some .read ∧
      ¬SameResult (kfioRequestToBio emptyFlush.bdev emptyFlush.bio true (fun _ => freshFbio)
        (.ofBio emptyFlush 0) true) (kfioMapToFbio emptyFlush 0) := by
  have flush : (emptyFlush.bio 0).EmptyFlush := ⟨rfl, rfl⟩
  exact ⟨by decide, by decide, not_sameResult_of_emptyFlush rfl flush⟩

end IomemoryVsl
