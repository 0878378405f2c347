import IomemoryVsl.BioMeaning
import IomemoryVsl.ScatterDma
import Mathlib.Algebra.Order.BigOperators.Group.Finset
import Mathlib.Data.List.SplitLengths

namespace IomemoryVsl

/-- Bios that a list is offered one after another, with those that it takes. -/
def mapBios : LinuxSgl → List (List BioVec) → LinuxSgl × List (List BioVec)
  | sgl, [] => (sgl, [])
  | sgl, bio :: rest =>
    let (sgl, rval) := kfioSglMapBio sgl bio
    let (last, taken) := mapBios sgl rest
    (last, if rval = 0 then bio :: taken else taken)

/-- The slices of a list one after another, each with its segments. The same map is
used for all of them. -/
def dmaSlices (dmaAddress : Nat → BitVec 64) (sgl : LinuxSgl) :
    KfioDmaMap → BitVec 32 → List (BitVec 32) → Option (List (List KfioSglPhys))
  | _, _, [] => some []
  | dmap, offset, length :: rest =>
    let dmap := (kfioSglDmaSlice sgl dmap offset length).1
    (dmaMapSegments dmaAddress dmap).bind fun segments =>
      (dmaSlices dmaAddress sgl dmap (offset + length) rest).map (segments :: ·)

/-- The loop of `kfio_sgl_get_byte_pointer`, from the entry `i` on. -/
def bytePointerFrom (pageAddress : Nat → BitVec 64) (sgl : LinuxSgl) (offset : BitVec 32) :
    Nat → Nat → BitVec 32 → Option (BitVec 64)
  | 0, _, _ => none
  | rest + 1, i, totalOffset =>
    let sl := sgl.sl i
    if offset < totalOffset + sl.length then
      some (pageAddress sl.page + sl.offset.setWidth 64 + (offset - totalOffset).setWidth 64)
    else bytePointerFrom pageAddress sgl offset rest (i + 1) (totalOffset + sl.length)

/-- `kfio_sgl_get_byte_pointer`. `pageAddress` is `page_address`. -/
def kfioSglGetBytePointer (pageAddress : Nat → BitVec 64) (sgl : LinuxSgl) (offset : BitVec 32) :
    Option (BitVec 64) :=
  bytePointerFrom pageAddress sgl offset sgl.numEntries.toNat 0 0#32

/-- `dma_map_sg` has given every entry an address at which the device finds its bytes. -/
def Translates (device : BitVec 64 → Nat × Nat) (dmaAddress : Nat → BitVec 64) (sgl : LinuxSgl) : Prop :=
  ∀ i < sgl.numEntries.toNat, ∀ k < (sgl.sl i).length.toNat,
    device (dmaAddress i + BitVec.ofNat 64 k) = ((sgl.sl i).page, (sgl.sl i).offset.toNat + k)

/-- All segments lie inside their pages. -/
def InPages (bio : List BioVec) : Prop := ∀ vec ∈ bio, vec.bvOffset.toNat + vec.bvLen.toNat ≤ fusionPageSize

instance : DecidablePred InPages := fun bio => inferInstanceAs (Decidable (∀ vec ∈ bio, _))

section MapBios

variable {sgl : LinuxSgl} {bio : List BioVec}

theorem LinuxSgl.Moves.maxEntries {a b : LinuxSgl} {events : List PageEvent} (moves : a.Moves events b) :
    b.maxEntries = a.maxEntries := by
  induction moves with
  | same agrees => exact agrees.maxEntries
  | system _ _ ih | user _ _ ih | grow _ _ ih => exact ih

/-- A list of pages, with the bytes of what it has taken. -/
structure SglHolds (sgl : LinuxSgl) (nvecs : BitVec 32) (bytes : List (Nat × Nat)) : Prop where
  sound : sgl.Sound
  inside : sgl.Inside
  room : sgl.maxEntries = nvecs
  bytes : sgl.bytes = bytes

/-- A bio is taken as a whole, or the list stays as it is. -/
theorem SglHolds.mapBio {nvecs : BitVec 32} {bytes : List (Nat × Nat)} (holds : SglHolds sgl nvecs bytes)
    (pages : InPages bio) :
    SglHolds (kfioSglMapBio sgl bio).1 nvecs
      (if (kfioSglMapBio sgl bio).2 = 0 then bytes ++ bio.flatMap BioVec.bytes else bytes) := by
  have moves := kfioSglMapBio_moves sgl bio
  by_cases mapped : (kfioSglMapBio sgl bio).2 = 0
  · obtain ⟨grown, inside⟩ := bytes_kfioSglMapBio holds.inside pages mapped
    refine ⟨holds.sound.moves moves, inside, moves.maxEntries.trans holds.room, ?_⟩
    rw [if_pos mapped, grown, holds.bytes]
  · have agrees := kfioSglMapBio_failed mapped
    refine ⟨holds.sound.moves moves, (LinuxSgl.inside_agrees agrees).mpr holds.inside,
      moves.maxEntries.trans holds.room, ?_⟩
    rw [if_neg mapped, agrees.bytes, holds.bytes]

theorem SglHolds.mapBios {nvecs : BitVec 32} {bios : List (List BioVec)} {bytes : List (Nat × Nat)}
    (holds : SglHolds sgl nvecs bytes) (pages : ∀ bio ∈ bios, InPages bio) :
    SglHolds (mapBios sgl bios).1 nvecs (bytes ++ (mapBios sgl bios).2.flatMap (List.flatMap BioVec.bytes)) := by
  induction bios generalizing sgl bytes with
  | nil =>
    rw [IomemoryVsl.mapBios, List.flatMap_nil, List.append_nil]
    exact holds
  | cons bio rest ih =>
    have onward := ih (holds.mapBio (pages bio List.mem_cons_self)) fun bio member =>
      pages bio (List.mem_cons_of_mem _ member)
    rw [IomemoryVsl.mapBios]
    by_cases mapped : (kfioSglMapBio sgl bio).2 = 0
    · simp only [if_pos mapped] at onward ⊢
      rw [List.flatMap_cons, ← List.append_assoc]
      exact onward
    · simp only [if_neg mapped] at onward ⊢
      exact onward

theorem holds_alloc (nvecs : BitVec 32) (stale : Nat → BitVec 32) :
    SglHolds (kfioSglAllocNvec nvecs stale) nvecs [] :=
  ⟨⟨BitVec.le_refl _, Nat.zero_le _, rfl⟩, fun i below => absurd below (Nat.not_lt_zero i), rfl, rfl⟩

/-- The bytes of fewer than `2^20` pages are counted right. -/
theorem SglHolds.total {nvecs : BitVec 32} {bytes : List (Nat × Nat)} (holds : SglHolds sgl nvecs bytes)
    (few : nvecs.toNat < 2 ^ 20) : sgl.entryBytes = sgl.sglSize.toNat := by
  have page : fusionPageSize = 4096 := rfl
  have room : sgl.numEntries.toNat ≤ nvecs.toNat := holds.room ▸ holds.sound.entries
  have bound : sgl.entryBytes ≤ sgl.numEntries.toNat * 4096 := by
    rw [LinuxSgl.entryBytes]
    refine (Finset.sum_le_card_nsmul _ _ 4096 fun i member => ?_).trans
      (by rw [Finset.card_range]; exact Nat.le_refl _)
    have fits := holds.inside i (Finset.mem_range.mp member)
    omega
  rw [holds.sound.size, BitVec.toNat_ofNat]
  exact (Nat.mod_eq_of_lt (by omega)).symm

end MapBios

section Pointer

variable {sgl : LinuxSgl} {pageAddress : Nat → BitVec 64}

theorem bytes_length (sgl : LinuxSgl) (i : Nat) :
    ((List.range i).flatMap fun j => (sgl.sl j).bytes).length = sgl.bytesBefore i := by
  induction i with
  | zero => rfl
  | succ i ih =>
    rw [List.range_succ, List.flatMap_append, List.flatMap_singleton, List.length_append, ih,
      LinuxSgl.bytesBefore_succ,
      Scatterlist.bytes, pieceBytes_length]

/-- The byte at an offset inside an entry. -/
theorem bytes_getElem? {i k : Nat} (below : i < sgl.numEntries.toNat) (inside : k < (sgl.sl i).length.toNat) :
    sgl.bytes[sgl.bytesBefore i + k]? = some ((sgl.sl i).page, (sgl.sl i).offset.toNat + k) := by
  obtain ⟨rest, split⟩ := Nat.exists_eq_add_of_lt below
  have whole : List.range sgl.numEntries.toNat = List.range i ++ i :: List.range' (i + 1) rest := by
    rw [split, List.range_eq_range', List.range_eq_range', Nat.add_assoc, ← List.range'_append_1, Nat.zero_add,
      List.range'_succ]
  have front := bytes_length sgl i
  have own : (sgl.sl i).bytes[k]? = some ((sgl.sl i).page, (sgl.sl i).offset.toNat + k) := by
    rw [Scatterlist.bytes, pieceBytes, List.getElem?_map, List.getElem?_range inside]
    rfl
  have size : k < (sgl.sl i).bytes.length := by
    rw [Scatterlist.bytes, pieceBytes_length]
    exact inside
  rw [LinuxSgl.bytes_eq_flatMap, whole, List.flatMap_append, List.flatMap_cons, ← front,
    List.getElem?_append_right (Nat.le_add_right ..), Nat.add_sub_cancel_left, List.getElem?_append_left size, own]

theorem bytePointerFrom_points {offset totalOffset : BitVec 32} {rest i : Nat}
    (stop : i + rest = sgl.numEntries.toNat) (small : sgl.bytesBefore sgl.numEntries.toNat < 2 ^ 32)
    (here : sgl.bytesBefore i = totalOffset.toNat) (least : totalOffset.toNat ≤ offset.toNat)
    (below : offset.toNat < sgl.bytesBefore sgl.numEntries.toNat) :
    ∃ page byte, sgl.bytes[offset.toNat]? = some (page, byte) ∧
      bytePointerFrom pageAddress sgl offset rest i totalOffset =
        some (pageAddress page + BitVec.ofNat 64 byte) := by
  induction rest generalizing i totalOffset with
  | zero =>
    rw [Nat.add_zero] at stop
    rw [stop] at here
    omega
  | succ rest ih =>
    have next := sgl.bytesBefore_succ i
    have within := sgl.bytesBefore_le (show i + 1 ≤ sgl.numEntries.toNat by omega)
    have sum : (totalOffset + (sgl.sl i).length).toNat = totalOffset.toNat + (sgl.sl i).length.toNat := by
      rw [BitVec.toNat_add]
      exact Nat.mod_eq_of_lt (by omega)
    rw [bytePointerFrom]
    by_cases found : offset < totalOffset + (sgl.sl i).length
    · rw [if_pos found]
      rw [BitVec.lt_def, sum] at found
      have left : (offset - totalOffset).toNat = offset.toNat - totalOffset.toNat := BitVec.toNat_sub_of_le least
      have byte : sgl.bytes[sgl.bytesBefore i + (offset.toNat - totalOffset.toNat)]? = _ :=
        bytes_getElem? (by omega) (by omega)
      rw [here, Nat.add_sub_cancel' least] at byte
      refine ⟨_, _, byte, ?_⟩
      rw [BitVec.ofNat_add, ← left, BitVec.ofNat_toNat, BitVec.ofNat_toNat, BitVec.add_assoc]
    · rw [if_neg found]
      rw [BitVec.lt_def, sum, not_lt] at found
      exact ih (by omega) (by omega) (by omega)

end Pointer

section Slices

variable {sgl : LinuxSgl} {device : BitVec 64 → Nat × Nat} {dmaAddress : Nat → BitVec 64}

theorem Translates.bytes (translates : Translates device dmaAddress sgl) :
    (sgl.dmaBytes dmaAddress).map device = sgl.bytes := by
  rw [LinuxSgl.dmaBytes, LinuxSgl.bytes_eq_flatMap, List.map_flatMap]
  refine List.flatMap_congr fun i member => ?_
  rw [LinuxSgl.dmaEntry, KfioSglPhys.bytes, Scatterlist.bytes, pieceBytes, List.map_map]
  refine List.map_congr_left fun k inside => ?_
  exact translates i (List.mem_range.mp member) k (List.mem_range.mp inside)

/-- Slices of a list that is mapped as a whole cut its bytes into pieces of their lengths. -/
theorem dmaSlices_split {lengths : List (BitVec 32)} {dmap : KfioDmaMap} {offset : BitVec 32}
    (mapped : sgl.numMapped = sgl.numEntries) (small : sgl.bytesBefore sgl.numEntries.toNat < 2 ^ 32)
    (positive : ∀ length ∈ lengths, 0#32 < length)
    (fits : offset.toNat + (lengths.map BitVec.toNat).sum ≤ sgl.bytesBefore sgl.numEntries.toNat) :
    ∃ slices, dmaSlices dmaAddress sgl dmap offset lengths = some slices ∧
      slices.map (List.flatMap KfioSglPhys.bytes) =
        (lengths.map BitVec.toNat).splitLengths ((sgl.dmaBytes dmaAddress).drop offset.toNat) := by
  induction lengths generalizing dmap offset with
  | nil => exact ⟨[], rfl, rfl⟩
  | cons length rest ih =>
    have used : 0 < length.toNat := positive length List.mem_cons_self
    rw [List.map_cons, List.sum_cons] at fits
    obtain ⟨start, more, slice⟩ :=
      kfioSglDmaSlice_sliceOf dmap offset length mapped small (by omega) (by omega)
    obtain ⟨segments, ran, _, _, bytes⟩ := slice.enumerates dmaAddress
    have sum : (offset + length).toNat = offset.toNat + length.toNat := by
      rw [BitVec.toNat_add]
      exact Nat.mod_eq_of_lt (by omega)
    obtain ⟨slices, onward, later⟩ :
        ∃ slices, dmaSlices dmaAddress sgl (kfioSglDmaSlice sgl dmap offset length).1 (offset + length) rest
          = some slices ∧ _ :=
      ih (fun length member => positive length (List.mem_cons_of_mem _ member)) (by omega)
    refine ⟨segments :: slices, ?_, ?_⟩
    · rw [dmaSlices, ran, Option.bind_some, onward, Option.map_some]
    · rw [List.map_cons, List.map_cons, List.splitLengths_cons, bytes, later, sum, List.drop_drop]

end Slices

/-- Mapping a list as a whole leaves its entries as they are. -/
theorem kfioSglDmaMapInto_keeps {sgl now : LinuxSgl} {dir : DmaDir} {old dmap : KfioDmaMap} {rc : Int}
    (mapped : kfioSglDmaMapInto sgl dir sgl.numEntries old = (now, dmap, rc)) :
    now.numMapped = now.numEntries ∧ now.bytes = sgl.bytes ∧
      now.bytesBefore now.numEntries.toNat = sgl.bytesBefore sgl.numEntries.toNat := by
  obtain ⟨flags, result⟩ := kfioSglDmaMapInto_all sgl dir old
  rw [mapped] at result
  cases result
  exact ⟨rfl, rfl, rfl⟩

/-- What the device gets to see. The bios that a fresh list has taken are mapped for
DMA and handed out in slices: then the device finds the bytes of these bios, in their
order and each once, with as many in each slice as were asked for, and the pointer to
a byte of the list points to the byte that the device finds at that offset. -/
theorem dmaSlices_transfer (device : BitVec 64 → Nat × Nat) (dmaAddress pageAddress : Nat → BitVec 64)
    {nvecs : BitVec 32} (stale : Nat → BitVec 32) {bios taken : List (List BioVec)} {sgl now : LinuxSgl}
    {dir : DmaDir} {old dmap : KfioDmaMap} {rc : Int} {lengths : List (BitVec 32)}
    (few : nvecs.toNat < 2 ^ 20) (pages : ∀ bio ∈ bios, InPages bio)
    (built : mapBios (kfioSglAllocNvec nvecs stale) bios = (sgl, taken))
    (mapped : kfioSglDmaMapInto sgl dir sgl.numEntries old = (now, dmap, rc))
    (translates : Translates device dmaAddress now) (positive : ∀ length ∈ lengths, 0#32 < length)
    (whole : (lengths.map BitVec.toNat).sum = sgl.sglSize.toNat) :
    ∃ slices, dmaSlices dmaAddress now dmap 0#32 lengths = some slices ∧
      slices.map (fun segments => (segments.flatMap KfioSglPhys.bytes).length) = lengths.map BitVec.toNat ∧
      (slices.flatMap (List.flatMap KfioSglPhys.bytes)).map device = taken.flatMap (List.flatMap BioVec.bytes) ∧
      ∀ offset < sgl.sglSize, ∃ page byte, (taken.flatMap (List.flatMap BioVec.bytes))[offset.toNat]? =
        some (page, byte) ∧
        kfioSglGetBytePointer pageAddress now offset = some (pageAddress page + BitVec.ofNat 64 byte) := by
  have holds := (holds_alloc nvecs stale).mapBios pages
  rw [built, List.nil_append] at holds
  have total : sgl.bytesBefore sgl.numEntries.toNat = sgl.sglSize.toNat := holds.total few
  have small := sgl.sglSize.isLt
  obtain ⟨all, bytes, size⟩ := kfioSglDmaMapInto_keeps mapped
  rw [holds.bytes] at bytes
  rw [total] at size
  have within : (0#32).toNat + (lengths.map BitVec.toNat).sum ≤ now.bytesBefore now.numEntries.toNat := by
    rw [size, whole]
    exact (Nat.zero_add _).le
  obtain ⟨slices, ran, pieces⟩ : ∃ slices, dmaSlices dmaAddress now dmap 0#32 lengths = some slices ∧ _ :=
    dmaSlices_split all (size.trans_lt small) positive within
  have long : (now.dmaBytes dmaAddress).length = (lengths.map BitVec.toNat).sum := by
    rw [whole, ← size]
    exact dmaEntries_length dmaAddress now _
  rw [show (0#32).toNat = 0 from rfl, List.drop_zero] at pieces
  refine ⟨slices, ran, ?_, ?_, fun offset below => ?_⟩
  · have lengths := congrArg (List.map List.length) pieces
    rw [List.map_map, List.map_splitLengths_length _ _ long.ge] at lengths
    exact lengths
  · rw [List.flatMap_def, pieces, List.flatten_splitLengths _ _ long.le, translates.bytes, bytes]
  · rw [← bytes]
    have inside : offset.toNat < now.bytesBefore now.numEntries.toNat := by rwa [size]
    exact bytePointerFrom_points (Nat.zero_add _) (size.trans_lt small) rfl (Nat.zero_le _) inside

/-- A first bio, a second one that goes on in its page, and a third one that the list has no room for. -/
def threeBios : List (List BioVec) :=
  [[⟨7, 512#32, 0#32⟩], [⟨7, 512#32, 512#32⟩, ⟨9, 100#32, 0#32⟩], [⟨10, 1#32, 0#32⟩, ⟨11, 1#32, 0#32⟩]]

/-- The pages of the first two bios from `0x1000` on. -/
def devicePages (address : BitVec 64) : Nat × Nat :=
  (if address.toNat < 0x2000 then 7 else 9, address.toNat % 0x1000)

theorem dmaSlices_transfer_three :
    let sgl := (mapBios (kfioSglAllocNvec 3#32 fun _ => 0#32) threeBios).1
    let ran := kfioSglDmaMapInto sgl .read sgl.numEntries (dmaMapWhole sgl)
    ∃ slices, dmaSlices (fun i => BitVec.ofNat 64 (0x1000 * (i + 1))) ran.1 ran.2.1 0#32 [1000#32, 124#32] =
      some slices ∧
      slices.map (fun segments => (segments.flatMap KfioSglPhys.bytes).length) = [1000, 124] ∧
      (slices.flatMap (List.flatMap KfioSglPhys.bytes)).map devicePages =
        (threeBios.take 2).flatMap (List.flatMap BioVec.bytes) := by
  intro sgl ran
  have translates : Translates devicePages (fun i => BitVec.ofNat 64 (0x1000 * (i + 1))) ran.1 := by
    have first : ran.1.sl 0 = ⟨7, 0#32, 1024#32⟩ := by decide
    have second : ran.1.sl 1 = ⟨9, 0#32, 100#32⟩ := by decide
    intro i below k inside
    have count : ran.1.numEntries.toNat = 2 := by decide
    obtain rfl | rfl : i = 0 ∨ i = 1 := by omega
    · rw [first] at inside ⊢
      have few : k < 1024 := inside
      simp only [devicePages, BitVec.toNat_add, BitVec.toNat_ofNat]
      rw [if_pos (by omega)]
      congr 1
      omega
    · rw [second] at inside ⊢
      have few : k < 100 := inside
      simp only [devicePages, BitVec.toNat_add, BitVec.toNat_ofNat]
      rw [if_neg (by omega)]
      congr 1
      omega
  have built : mapBios (kfioSglAllocNvec 3#32 fun _ => 0#32) threeBios = (sgl, threeBios.take 2) :=
    Prod.ext rfl (by decide)
  have mapped : kfioSglDmaMapInto sgl .read sgl.numEntries (dmaMapWhole sgl) = (ran.1, ran.2.1, ran.2.2) := rfl
  have positive : ∀ length ∈ [1000#32, 124#32], 0#32 < length := by simp
  have whole : ([1000#32, 124#32].map BitVec.toNat).sum = sgl.sglSize.toNat := by decide
  obtain ⟨slices, cut, lengths, bytes, _⟩ :=
    dmaSlices_transfer devicePages (fun i => BitVec.ofNat 64 (0x1000 * (i + 1)))
    (fun _ => 0#64) (fun _ => 0#32) (by decide) (by decide) built mapped translates positive whole
  exact ⟨slices, cut, lengths, bytes⟩

end IomemoryVsl
