import IomemoryVsl.Scatter
import IomemoryVsl.Transition

namespace IomemoryVsl

def sgeUser : BitVec 32 := 0x2#32

def sgeReadMapped : BitVec 32 := 0x4#32

/-- `kfio_mem_seg_t`. -/
inductive MemSeg
  | system | user
  deriving DecidableEq, Repr

/-- The directions `IODRIVE_DMA_DIR_*`. -/
inductive DmaDir
  | write | read
  deriving DecidableEq, Repr

/-- The kernel's memory map, as far as an SGL asks for it. `overrun` is the page
that `sg_page` reads from a scatterlist whose first flags-sized word was zeroed. -/
structure SglEnv where
  vmallocStart : BitVec 64
  vmallocEnd : BitVec 64
  vmallocToPage : BitVec 64 → Nat
  virtToPage : BitVec 64 → Nat
  overrun : Nat → Nat

/-- What is done to pages: `get_user_pages_fast` pins one, `put_page` releases one. -/
inductive PageEvent
  | pinned (page : Nat)
  | dirtied (page : Nat)
  | released (page : Nat)
  /-- A `kfio_sgl_reset` is over. -/
  | reset
  deriving DecidableEq, Repr

/-- `kfio_sgl_alloc_nvec`, when it gets its memory. The flags are left as they are found. -/
def kfioSglAllocNvec (nvecs : BitVec 32) (stale : Nat → BitVec 32) : LinuxSgl where
  maxEntries := nvecs
  numEntries := 0#32
  numMapped := 0#32
  sglSize := 0#32
  sgeFlags := stale
  sl := fun _ => ⟨0, 0#32, 0#32⟩

/-- Takes the entry behind the last one into use. -/
def LinuxSgl.addEntry (sgl : LinuxSgl) (entry : Scatterlist) (flags : BitVec 32) : LinuxSgl :=
  { sgl with
    sgeFlags := Function.update sgl.sgeFlags sgl.numEntries.toNat flags
    sl := Function.update sgl.sl sgl.numEntries.toNat entry
    numEntries := sgl.numEntries + 1#32
    sglSize := sgl.sglSize + entry.length }

namespace LinuxSgl

variable {i : Nat} (sgl : LinuxSgl) (entry : Scatterlist) (flags : BitVec 32)

theorem addEntry_last : (sgl.addEntry entry flags).last = sgl.numEntries.toNat := by
  rw [last, addEntry, BitVec.add_sub_cancel]

theorem addEntry_sl_new : (sgl.addEntry entry flags).sl sgl.numEntries.toNat = entry := Function.update_self ..

theorem addEntry_sl_old (old : i ≠ sgl.numEntries.toNat) : (sgl.addEntry entry flags).sl i = sgl.sl i :=
  Function.update_of_ne old ..

theorem addEntry_flags_old (old : i ≠ sgl.numEntries.toNat) : (sgl.addEntry entry flags).sgeFlags i = sgl.sgeFlags i :=
  Function.update_of_ne old ..

end LinuxSgl

/-- `sge->flags = 0` for the entry behind the last one. It comes before the test
for a full list. The array `sl` begins where `sge` ends, so in a full list the
store falls on the page of the first scatterlist. -/
def LinuxSgl.clearFlags (env : SglEnv) (sgl : LinuxSgl) : LinuxSgl :=
  if sgl.numEntries ≥ sgl.maxEntries then
    { sgl with sl := Function.update sgl.sl 0 { sgl.sl 0 with page := env.overrun (sgl.sl 0).page } }
  else
    { sgl with sgeFlags := Function.update sgl.sgeFlags sgl.numEntries.toNat 0#32 }

def pageOffset (bp : BitVec 64) : BitVec 32 := (bp % BitVec.ofNat 64 fusionPageSize).setWidth 32

/-- What is left of the page from the address on, or of the buffer if that is less. -/
def mappedBytes (bp : BitVec 64) (size : BitVec 32) : BitVec 32 :=
  let pageRemainder := BitVec.ofNat 32 fusionPageSize - pageOffset bp
  if size < pageRemainder then size else pageRemainder

/-- The loop of `kfio_sgl_map_bytes_gen`. `getUserPages` gives for each address
what `get_user_pages_fast` returns for it, and the page. -/
def mapBytesLoop (env : SglEnv) (systemPage : BitVec 64 → Nat) (seg : MemSeg)
    (getUserPages : BitVec 64 → Int × Nat) (oldNum : Nat) :
    Nat → LinuxSgl → BitVec 64 → BitVec 32 → Option (LinuxSgl × List PageEvent × Int)
  | 0, _, _, _ => none
  | fuel + 1, sgl, bp, size =>
    if size = 0#32 then
      some (sgl, [], 0)
    else if sgl.numEntries ≥ sgl.maxEntries then
      some (sgl.clearFlags env, [], -enomem)
    else
      let sgl := sgl.clearFlags env
      let mapped := mappedBytes bp size
      match seg with
      | .system =>
        mapBytesLoop env systemPage seg getUserPages oldNum fuel
          (sgl.addEntry ⟨systemPage bp, pageOffset bp, mapped⟩ 0#32) (bp + mapped.setWidth 64) (size - mapped)
      | .user =>
        let (retval, page) := getUserPages bp
        if retval ≤ 0 then
          -- the pages are released, but their entries stay in the list
          some (sgl, (List.range' oldNum (sgl.numEntries.toNat - oldNum)).map fun i => .released (sgl.sl i).page, retval)
        else
          (mapBytesLoop env systemPage seg getUserPages oldNum fuel
            (sgl.addEntry ⟨page, pageOffset bp, mapped⟩ sgeUser) (bp + mapped.setWidth 64) (size - mapped)).map
            fun (sgl, events, rc) => (sgl, .pinned page :: events, rc)

/-- The page of a kernel address in a buffer, which lies in the vmalloc area or not. -/
def SglEnv.systemPage (env : SglEnv) (buffer bp : BitVec 64) : Nat :=
  if env.vmallocStart ≤ buffer ∧ buffer < env.vmallocEnd then env.vmallocToPage bp else env.virtToPage bp

/-- Each round of the loop takes an entry, so there are no more rounds than free
entries and the one that finds none. -/
def kfioSglMapBytesGen (env : SglEnv) (sgl : LinuxSgl) (buffer : BitVec 64) (size : BitVec 32) (seg : MemSeg)
    (getUserPages : BitVec 64 → Int × Nat) : Option (LinuxSgl × List PageEvent × Int) :=
  mapBytesLoop env (env.systemPage buffer) seg getUserPages sgl.numEntries.toNat
    ((sgl.maxEntries - sgl.numEntries).toNat + 1) sgl buffer size

def kfioSglDmaUnmap (sgl : LinuxSgl) : LinuxSgl := { sgl with numMapped := 0#32 }

/-- `mapped` is what `dma_map_sg` returns. -/
def kfioSglDmaMap (sgl : LinuxSgl) (dir : DmaDir) (mapped : BitVec 32) : LinuxSgl × Int :=
  let sgl := { sgl with
    sgeFlags := fun i =>
      if dir = DmaDir.read ∧ i < sgl.numEntries.toNat then sgl.sgeFlags i ||| sgeReadMapped else sgl.sgeFlags i }
  let sgl := { sgl with numMapped := mapped }
  if mapped < sgl.numEntries then (kfioSglDmaUnmap sgl, -einval) else (sgl, mapped.toInt)

/-- What `kfio_sgl_unmap` does to the page of one entry. -/
def unmapEntry (sgl : LinuxSgl) (i : Nat) : List PageEvent :=
  if sgl.sgeFlags i &&& sgeUser ≠ 0#32 then
    if sgl.sgeFlags i &&& sgeReadMapped ≠ 0#32 then
      [.dirtied (sgl.sl i).page, .released (sgl.sl i).page]
    else
      [.released (sgl.sl i).page]
  else
    []

def kfioSglUnmap (sgl : LinuxSgl) : List PageEvent :=
  (List.range sgl.numEntries.toNat).flatMap (unmapEntry sgl)

def kfioSglReset (sgl : LinuxSgl) : LinuxSgl × List PageEvent :=
  ({ sgl with sglSize := 0#32, numMapped := 0#32, numEntries := 0#32 }, kfioSglUnmap sgl ++ [.reset])

inductive SglAction
  | mapPage (page : Nat) (offset size : BitVec 32)
  | mapBytes (buffer : BitVec 64) (size : BitVec 32) (seg : MemSeg) (getUserPages : BitVec 64 → Int × Nat)
  | mapBio (segments : List BioVec)
  | dmaMap (dir : DmaDir) (mapped : BitVec 32)
  | dmaUnmap
  | reset

/-- The calls on one SGL. `dma_map_sg` maps at most the entries it is given. -/
def LinuxSgl.step (env : SglEnv) (sgl : LinuxSgl) : SglAction → Option (LinuxSgl × List PageEvent)
  | .mapPage page offset size => some ((kfioSglMapPage sgl page offset size).1, [])
  | .mapBytes buffer size seg getUserPages =>
    (kfioSglMapBytesGen env sgl buffer size seg getUserPages).map fun result => (result.1, result.2.1)
  | .mapBio segments => some ((kfioSglMapBio sgl segments).1, [])
  | .dmaMap dir mapped => if mapped ≤ sgl.numEntries then some ((kfioSglDmaMap sgl dir mapped).1, []) else none
  | .dmaUnmap => some (kfioSglDmaUnmap sgl, [])
  | .reset => some (kfioSglReset sgl)

/-- Runs of calls on an SGL of `nvecs` vectors whose calls all meet `allowed`. -/
abbrev SglReach (env : SglEnv) (nvecs : BitVec 32) (stale : Nat → BitVec 32)
    (allowed : LinuxSgl → SglAction → Prop) : LinuxSgl → List PageEvent → Prop :=
  Transition.Reach (LinuxSgl.step env) allowed (kfioSglAllocNvec nvecs stale)

theorem SglReach.of_check (env : SglEnv) (nvecs : BitVec 32) (stale : Nat → BitVec 32)
    {allowed : LinuxSgl → SglAction → Prop} (test : LinuxSgl → SglAction → Bool)
    (sound : ∀ sgl action, test sgl action = true → allowed sgl action)
    (check : LinuxSgl × List PageEvent → Bool) (actions : List SglAction)
    (passes : (Transition.run (LinuxSgl.step env) test (kfioSglAllocNvec nvecs stale) actions).any check = true) :
    ∃ sgl history, SglReach env nvecs stale allowed sgl history ∧ check (sgl, history) = true :=
  Transition.Reach.of_check sound check passes

end IomemoryVsl
