import IomemoryVsl.ScatterSound

namespace IomemoryVsl

/-- The bytes of a piece of a page, each as the page and an offset. A piece that is
longer than the page goes on behind it. -/
def pieceBytes (page : Nat) (offset length : BitVec 32) : List (Nat × Nat) :=
  (List.range length.toNat).map fun k => (page, offset.toNat + k)

def BioVec.bytes (vec : BioVec) : List (Nat × Nat) := pieceBytes vec.bvPage vec.bvOffset vec.bvLen

def Scatterlist.bytes (entry : Scatterlist) : List (Nat × Nat) := pieceBytes entry.page entry.offset entry.length

namespace LinuxSgl

/-- The bytes of an SGL in order, each as a page and an offset. -/
def bytes (sgl : LinuxSgl) : List (Nat × Nat) :=
  (List.range sgl.numEntries.toNat).flatMap fun i =>
    (List.range (sgl.sl i).length.toNat).map fun k => ((sgl.sl i).page, (sgl.sl i).offset.toNat + k)

theorem bytes_eq_flatMap (sgl : LinuxSgl) :
    sgl.bytes = (List.range sgl.numEntries.toNat).flatMap fun i => (sgl.sl i).bytes := rfl

/-- The segment is merged into the last entry, and a sum of 32 bits wraps around:
where that entry ends, or its new length. -/
def Wraps (sgl : LinuxSgl) (vec : BioVec) : Prop :=
  sgl.continues vec = true ∧ vec.bvLen ≠ 0#32 ∧
    (2 ^ 32 ≤ (sgl.sl sgl.last).offset.toNat + (sgl.sl sgl.last).length.toNat ∨
      2 ^ 32 ≤ (sgl.sl sgl.last).length.toNat + vec.bvLen.toNat)

/-- No segment that is merged on the way wraps around. -/
def NoWrap : LinuxSgl → List BioVec → Prop
  | _, [] => True
  | sgl, vec :: rest => ¬sgl.Wraps vec ∧ NoWrap (kfioSglMapSegment sgl vec).1 rest

end LinuxSgl

theorem pieceBytes_length (page : Nat) (offset length : BitVec 32) :
    (pieceBytes page offset length).length = length.toNat := by
  rw [pieceBytes, List.length_map, List.length_range]

theorem pieceBytes_add {page : Nat} {offset length more : BitVec 32} (fits : length.toNat + more.toNat < 2 ^ 32) :
    pieceBytes page offset (length + more) =
      pieceBytes page offset length ++
        (List.range more.toNat).map fun k => (page, offset.toNat + length.toNat + k) := by
  have sum : (length + more).toNat = length.toNat + more.toNat := by
    rw [BitVec.toNat_add]
    exact Nat.mod_eq_of_lt fits
  rw [pieceBytes, sum, List.range_add, List.map_append, List.map_map, pieceBytes]
  congr 1
  exact List.map_congr_left fun k _ => congrArg (Prod.mk page) (Nat.add_assoc ..).symm

theorem flatMap_bytes_length (segments : List BioVec) :
    (segments.flatMap BioVec.bytes).length = segmentBytes segments := by
  induction segments with
  | nil => rfl
  | cons vec rest ih =>
    rw [List.flatMap_cons, List.length_append, ih, BioVec.bytes, pieceBytes_length, segmentBytes_cons]

namespace LinuxSgl

variable {sgl : LinuxSgl} {vec : BioVec}

theorem Agrees.bytes {a b : LinuxSgl} (agrees : a.Agrees b) : a.bytes = b.bytes := by
  rw [LinuxSgl.bytes, LinuxSgl.bytes, agrees.numEntries]
  refine List.flatMap_congr fun i member => ?_
  rw [agrees.entries i (List.mem_range.mp member)]

theorem bytes_addEntry (entry : Scatterlist) (flags : BitVec 32) (room : sgl.numEntries < sgl.maxEntries) :
    (sgl.addEntry entry flags).bytes = sgl.bytes ++ entry.bytes := by
  simp only [bytes_eq_flatMap, addEntry, toNat_numEntries_add_one room, List.range_succ, List.flatMap_append,
    List.flatMap_singleton, Function.update_self]
  congr 1
  refine List.flatMap_congr fun i member => ?_
  have below : i ≠ sgl.numEntries.toNat := (List.mem_range.mp member).ne
  rw [Function.update_of_ne below]

/-- The bytes before those of the last entry. -/
def frontBytes (sgl : LinuxSgl) : List (Nat × Nat) := (List.range sgl.last).flatMap fun i => (sgl.sl i).bytes

theorem bytes_eq_front (used : 0#32 < sgl.numEntries) : sgl.bytes = sgl.frontBytes ++ (sgl.sl sgl.last).bytes := by
  rw [bytes_eq_flatMap, ← last_add_one used, List.range_succ, List.flatMap_append, List.flatMap_singleton, frontBytes]

theorem bytes_growLast (used : 0#32 < sgl.numEntries) (more : BitVec 32) :
    (sgl.growLast more).bytes =
      sgl.frontBytes ++
        pieceBytes (sgl.sl sgl.last).page (sgl.sl sgl.last).offset ((sgl.sl sgl.last).length + more) := by
  have grown : 0#32 < (sgl.growLast more).numEntries := used
  rw [bytes_eq_front grown]
  have front : (sgl.growLast more).frontBytes = sgl.frontBytes := by
    refine List.flatMap_congr fun i member => ?_
    have below : i ≠ sgl.last := (List.mem_range.mp member).ne
    rw [growLast_sl_other _ _ below]
  rw [front, growLast_last, growLast_sl_last]
  rfl

end LinuxSgl

section MapBio

variable {sgl : LinuxSgl} {vec : BioVec} {segments : List BioVec}

/-- A round that succeeds merges the segment if it can, else it adds an entry. -/
theorem kfioSglMapSegment_mapped (mapped : (kfioSglMapSegment sgl vec).2 = 0) :
    sgl.continues vec = true ∧ (kfioSglMapSegment sgl vec).1 = sgl.growLast vec.bvLen ∨
      sgl.continues vec = false ∧ sgl.numEntries < sgl.maxEntries ∧
        (kfioSglMapSegment sgl vec).1 = sgl.addEntry ⟨vec.bvPage, vec.bvOffset, vec.bvLen⟩ 0#32 := by
  cases continues : sgl.continues vec with
  | true =>
    left
    rw [kfioSglMapSegment, if_pos continues]
    exact ⟨rfl, rfl⟩
  | false =>
    right
    rw [kfioSglMapSegment, if_neg (Bool.eq_false_iff.mp continues)] at mapped ⊢
    split at mapped
    · exact absurd mapped neg_eagain_ne_zero
    · rename_i space
      rw [if_neg space]
      rcases kfioSglMapPage_eq_addEntry (Prod.ext rfl rfl) with ⟨failed, _⟩ | ⟨_, room, added⟩
      · exact absurd mapped failed
      · exact ⟨rfl, room, added⟩

theorem LinuxSgl.continues_iff : sgl.continues vec = true ↔
    0#32 < sgl.numEntries ∧ (sgl.sl sgl.last).page = vec.bvPage ∧
      (sgl.sl sgl.last).offset + (sgl.sl sgl.last).length = vec.bvOffset := by
  simp only [LinuxSgl.continues, Bool.and_eq_true, decide_eq_true_eq, beq_iff_eq, and_assoc]

/-- Merging without wrapping around puts the bytes of the segment behind the others. -/
theorem bytes_merged (continues : sgl.continues vec = true) (wraps : ¬sgl.Wraps vec) :
    (sgl.growLast vec.bvLen).bytes = sgl.bytes ++ vec.bytes := by
  obtain ⟨used, page, next⟩ := LinuxSgl.continues_iff.mp continues
  rw [LinuxSgl.bytes_growLast used, LinuxSgl.bytes_eq_front used, List.append_assoc]
  congr 1
  by_cases empty : vec.bvLen = 0#32
  · have none : vec.bytes = [] := by
      rw [BioVec.bytes, empty]
      rfl
    rw [none, empty, BitVec.add_zero, List.append_nil, Scatterlist.bytes]
  · have inside : (sgl.sl sgl.last).offset.toNat + (sgl.sl sgl.last).length.toNat < 2 ^ 32 ∧
        (sgl.sl sgl.last).length.toNat + vec.bvLen.toNat < 2 ^ 32 := by
      by_contra outside
      rw [not_and_or, not_lt, not_lt] at outside
      exact wraps ⟨continues, empty, outside⟩
    have place : vec.bvOffset.toNat = (sgl.sl sgl.last).offset.toNat + (sgl.sl sgl.last).length.toNat := by
      rw [← next, BitVec.toNat_add]
      exact Nat.mod_eq_of_lt inside.1
    rw [pieceBytes_add inside.2, ← place, Scatterlist.bytes, BioVec.bytes, ← page]
    rfl

/-- Merging with a wrap-around loses bytes or puts other bytes in their place. -/
theorem bytes_wrapped (wraps : sgl.Wraps vec) :
    (sgl.growLast vec.bvLen).bytes.length < sgl.bytes.length + vec.bvLen.toNat ∨
      ∃ other, other ≠ vec.bytes ∧ other.length = vec.bvLen.toNat ∧
        (sgl.growLast vec.bvLen).bytes = sgl.bytes ++ other := by
  obtain ⟨continues, some, beyond⟩ := wraps
  obtain ⟨used, page, next⟩ := LinuxSgl.continues_iff.mp continues
  rw [LinuxSgl.bytes_growLast used, LinuxSgl.bytes_eq_front used]
  by_cases long : 2 ^ 32 ≤ (sgl.sl sgl.last).length.toNat + vec.bvLen.toNat
  · left
    rw [List.length_append, List.length_append, Scatterlist.bytes, pieceBytes_length, pieceBytes_length,
      BitVec.toNat_add]
    have small := (sgl.sl sgl.last).length.isLt
    have few := vec.bvLen.isLt
    omega
  · right
    have fits := not_le.mp long
    refine ⟨_, ?_, ?_, by rw [pieceBytes_add fits, ← List.append_assoc, Scatterlist.bytes]⟩
    · -- the first byte of the segment lies below `2^32`, the one in its place does not
      intro same
      have positive : vec.bvLen.toNat ≠ 0 := fun zero => some (BitVec.eq_of_toNat_eq zero)
      obtain ⟨k, length⟩ := Nat.exists_eq_succ_of_ne_zero positive
      rw [BioVec.bytes, pieceBytes, length, List.range_succ_eq_map, List.map_cons, List.map_cons] at same
      have first := (Prod.mk.inj (List.cons.inj same).1).2
      have below := vec.bvOffset.isLt
      omega
    · rw [List.length_map, List.length_range]

/-- What one successful round does to the bytes. -/
theorem kfioSglMapSegment_bytes (mapped : (kfioSglMapSegment sgl vec).2 = 0) :
    sgl.Wraps vec ∧ (kfioSglMapSegment sgl vec).1.bytes.length < sgl.bytes.length + vec.bvLen.toNat ∨
      ∃ other, other.length = vec.bvLen.toNat ∧ (other = vec.bytes ↔ ¬sgl.Wraps vec) ∧
        (kfioSglMapSegment sgl vec).1.bytes = sgl.bytes ++ other := by
  have length : vec.bytes.length = vec.bvLen.toNat := pieceBytes_length ..
  rcases kfioSglMapSegment_mapped mapped with ⟨continues, grown⟩ | ⟨apart, room, added⟩
  · rw [grown]
    by_cases wraps : sgl.Wraps vec
    · rcases bytes_wrapped wraps with short | ⟨other, different, size, after⟩
      · exact .inl ⟨wraps, short⟩
      · exact .inr ⟨other, size, iff_of_false different (not_not.mpr wraps), after⟩
    · exact .inr ⟨vec.bytes, length, iff_of_true rfl wraps, bytes_merged continues wraps⟩
  · have wraps : ¬sgl.Wraps vec := by
      rintro ⟨continues, _⟩
      rw [apart] at continues
      cases continues
    rw [added, LinuxSgl.bytes_addEntry _ _ room]
    exact .inr ⟨vec.bytes, length, iff_of_true rfl wraps, rfl⟩

/-- The rounds add at most the bytes of the segments, and what is complete keeps
the bytes from before. -/
theorem kfioSglMapSegments_prefix (mapped : (kfioSglMapSegments sgl segments).2 = 0) :
    (kfioSglMapSegments sgl segments).1.bytes.length < sgl.bytes.length + segmentBytes segments ∨
      (kfioSglMapSegments sgl segments).1.bytes.length = sgl.bytes.length + segmentBytes segments ∧
        sgl.bytes <+: (kfioSglMapSegments sgl segments).1.bytes := by
  induction segments generalizing sgl with
  | nil => exact .inr ⟨rfl, List.prefix_rfl⟩
  | cons vec rest ih =>
    obtain ⟨here, run⟩ := kfioSglMapSegments_cons mapped
    rw [run] at mapped ⊢
    have later := ih mapped
    rw [segmentBytes_cons]
    rcases kfioSglMapSegment_bytes here with ⟨_, short⟩ | ⟨other, size, _, after⟩
    · left
      omega
    · have length := congrArg List.length after
      rw [List.length_append, size] at length
      rcases later with short | ⟨whole, kept⟩
      · left
        omega
      · right
        refine ⟨by omega, List.IsPrefix.trans ?_ kept⟩
        rw [after]
        exact List.prefix_append ..

theorem kfioSglMapSegments_bytes (mapped : (kfioSglMapSegments sgl segments).2 = 0) :
    (kfioSglMapSegments sgl segments).1.bytes = sgl.bytes ++ segments.flatMap BioVec.bytes ↔
      sgl.NoWrap segments := by
  induction segments generalizing sgl with
  | nil => exact iff_of_true (List.append_nil _).symm trivial
  | cons vec rest ih =>
    obtain ⟨here, run⟩ := kfioSglMapSegments_cons mapped
    rw [run] at mapped ⊢
    have onward := ih mapped
    have bound := kfioSglMapSegments_prefix mapped
    rw [List.flatMap_cons, LinuxSgl.NoWrap, ← onward]
    constructor
    · intro same
      have length := congrArg List.length same
      rw [List.length_append, List.length_append, flatMap_bytes_length, BioVec.bytes, pieceBytes_length] at length
      rcases kfioSglMapSegment_bytes here with ⟨_, short⟩ | ⟨other, size, wraps, after⟩
      · omega
      · have shorter := congrArg List.length after
        rw [List.length_append, size] at shorter
        rcases bound with short | ⟨_, kept⟩
        · omega
        · rw [same, after, List.prefix_append_right_inj] at kept
          have sizes : other.length = vec.bytes.length := size.trans (pieceBytes_length ..).symm
          have equal : other = vec.bytes :=
            (List.prefix_of_prefix_length_le kept (List.prefix_append ..) sizes.le).eq_of_length sizes
          refine ⟨wraps.mp equal, ?_⟩
          rw [same, after, equal, List.append_assoc]
    · rintro ⟨wraps, rest⟩
      rcases kfioSglMapSegment_bytes here with ⟨wrapped, _⟩ | ⟨other, size, same, after⟩
      · exact absurd wrapped wraps
      · rw [rest, after, same.mpr wraps, List.append_assoc]

/-- Entries and segments that end below `2^32` do not wrap around. -/
theorem LinuxSgl.noWrap_of_below
    (last : 0#32 < sgl.numEntries →
      (sgl.sl sgl.last).offset.toNat + (sgl.sl sgl.last).length.toNat < 2 ^ 32)
    (below : ∀ vec ∈ segments, vec.bvOffset.toNat + vec.bvLen.toNat < 2 ^ 32)
    (mapped : (kfioSglMapSegments sgl segments).2 = 0) : sgl.NoWrap segments := by
  induction segments generalizing sgl with
  | nil => trivial
  | cons vec rest ih =>
    have here := below vec List.mem_cons_self
    have place (continues : sgl.continues vec = true) :
        vec.bvOffset.toNat = (sgl.sl sgl.last).offset.toNat + (sgl.sl sgl.last).length.toNat := by
      obtain ⟨used, _, next⟩ := LinuxSgl.continues_iff.mp continues
      rw [← next, BitVec.toNat_add]
      exact Nat.mod_eq_of_lt (last used)
    obtain ⟨now, run⟩ := kfioSglMapSegments_cons mapped
    rw [run] at mapped
    refine ⟨?_, ih (fun used => ?_) (fun vec member => below vec (List.mem_cons_of_mem _ member)) mapped⟩
    · rintro ⟨continues, _, beyond⟩
      have start := place continues
      omega
    · rcases kfioSglMapSegment_mapped now with ⟨continues, grown⟩ | ⟨_, room, added⟩
      · have start := place continues
        rw [grown, LinuxSgl.growLast_last]
        simp only [LinuxSgl.growLast_sl_last, BitVec.toNat_add]
        omega
      · rw [added, LinuxSgl.addEntry_last, LinuxSgl.addEntry_sl_new]
        exact here

/-- A bio that is not mapped leaves what is in use as it was. -/
theorem kfioSglMapBio_failed (failed : (kfioSglMapBio sgl segments).2 ≠ 0) :
    (kfioSglMapBio sgl segments).1.Agrees sgl := by
  unfold kfioSglMapBio at failed ⊢
  split
  · exact .refl sgl
  rename_i room
  rw [if_neg room] at failed
  dsimp only at failed ⊢
  split
  · have keeps : sgl.Keeps (kfioSglMapSegments sgl segments).1 := kfioSglMapSegments_keeps (.refl sgl)
    exact keeps.rollBack_agrees
  · rename_i mapped
    rw [if_neg mapped] at failed
    exact absurd failed mapped

end MapBio

/-- A bio is mapped as a whole or not at all. Mapping it adds its bytes behind the
others, exactly when no merge wraps around. -/
theorem kfio_sgl_map_bio_bytes (sgl : LinuxSgl) (segments : List BioVec) :
    ((kfioSglMapBio sgl segments).2 = 0 →
      ((kfioSglMapBio sgl segments).1.bytes = sgl.bytes ++ segments.flatMap BioVec.bytes ↔ sgl.NoWrap segments) ∧
      (kfioSglMapBio sgl segments).1.sglSize = sgl.sglSize + BitVec.ofNat 32 (segmentBytes segments)) ∧
    ((kfioSglMapBio sgl segments).2 ≠ 0 →
      (kfioSglMapBio sgl segments).1.numEntries = sgl.numEntries ∧
      (kfioSglMapBio sgl segments).1.sglSize = sgl.sglSize ∧
      ∀ i < sgl.numEntries.toNat, (kfioSglMapBio sgl segments).1.sl i = sgl.sl i) := by
  constructor
  · intro mapped
    have size := kfioSglMapBio_size sgl segments
    rw [if_pos mapped] at size
    refine ⟨?_, size⟩
    unfold kfioSglMapBio at mapped ⊢
    split at mapped
    · exact absurd mapped neg_eagain_ne_zero
    rename_i room
    rw [if_neg room]
    dsimp only at mapped ⊢
    split at mapped
    · rename_i failed
      exact absurd mapped failed
    · rename_i done
      rw [if_neg done]
      exact kfioSglMapSegments_bytes (not_not.mp done)
  · intro failed
    have agrees := kfioSglMapBio_failed failed
    exact ⟨agrees.numEntries, agrees.sglSize, agrees.entries⟩

/-- `kfio_sgl_map_page` takes `2^32 - 1` bytes from place 1 on, because the end of
that wraps around to 0. The segment of one byte that is then merged makes the
length 0. -/
theorem kfio_sgl_map_bio_bytes_wrapped :
    let sgl := (kfioSglMapPage (kfioSglAllocNvec 2#32 fun _ => 0#32) 7 1#32 0xffffffff#32).1
    (kfioSglMapBio sgl [⟨7, 1#32, 0#32⟩]).2 = 0 ∧
      ¬(kfioSglMapBio sgl [⟨7, 1#32, 0#32⟩]).1.bytes = sgl.bytes ++ [⟨7, 1#32, 0#32⟩].flatMap BioVec.bytes := by
  intro sgl
  have lost : (kfioSglMapBio sgl [⟨7, 1#32, 0#32⟩]).1.bytes = [] := by decide +kernel
  refine ⟨by decide +kernel, fun same => ?_⟩
  rw [lost] at same
  have length := congrArg List.length same
  rw [List.length_append, flatMap_bytes_length, segmentBytes_cons] at length
  simp only [List.length_nil, BitVec.toNat_ofNat] at length
  omega

end IomemoryVsl
