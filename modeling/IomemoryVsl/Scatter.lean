import IomemoryVsl.Errno
import Mathlib.Algebra.BigOperators.Group.List.Basic
import Mathlib.Algebra.Ring.Nat
import Mathlib.Logic.Function.Basic

namespace IomemoryVsl

/-- `FUSION_PAGE_SIZE`. -/
def fusionPageSize : Nat := 1 <<< 12

/-- One segment of a bio, as `bio_for_each_segment` yields it. -/
structure BioVec where
  bvPage : Nat
  bvLen : BitVec 32
  bvOffset : BitVec 32
  deriving DecidableEq, Repr

/-- The fields of a `struct scatterlist` that `sg_set_page` sets. -/
structure Scatterlist where
  page : Nat
  offset : BitVec 32
  length : BitVec 32
  deriving DecidableEq, Repr

/-- `struct linux_sgl`. The two arrays behind it are functions of the index; only
the first `num_entries` of their entries mean anything. -/
structure LinuxSgl where
  maxEntries : BitVec 32
  numEntries : BitVec 32
  numMapped : BitVec 32
  sglSize : BitVec 32
  sgeFlags : Nat → BitVec 32
  sl : Nat → Scatterlist

def kfioSglSize (sgl : LinuxSgl) : BitVec 32 := sgl.sglSize

/-- Nothing is mapped, as after `kfio_sgl_alloc_nvec` and `kfio_sgl_reset`. -/
def LinuxSgl.Empty (sgl : LinuxSgl) : Prop :=
  sgl.numEntries = 0#32 ∧ sgl.numMapped = 0#32 ∧ sgl.sglSize = 0#32

def kfioSglMapPage (sgl : LinuxSgl) (page : Nat) (offset size : BitVec 32) : LinuxSgl × Int :=
  if sgl.numEntries ≥ sgl.maxEntries then
    (sgl, -einval)
  else if (offset + size).toNat > fusionPageSize then
    (sgl, -einval)
  else
    ({ sgl with
        sgeFlags := Function.update sgl.sgeFlags sgl.numEntries.toNat 0#32
        sl := Function.update sgl.sl sgl.numEntries.toNat ⟨page, offset, size⟩
        numEntries := sgl.numEntries + 1#32
        sglSize := sgl.sglSize + size }, 0)

/-- The index of the last entry in use. -/
def LinuxSgl.last (sgl : LinuxSgl) : Nat := (sgl.numEntries - 1#32).toNat

/-- The segment starts where the last entry ends, in the same page. -/
def LinuxSgl.continues (sgl : LinuxSgl) (vec : BioVec) : Bool :=
  let sl := sgl.sl sgl.last
  decide (0#32 < sgl.numEntries) && sl.page == vec.bvPage && sl.offset + sl.length == vec.bvOffset

/-- One round of the loop of `kfio_sgl_map_bio`. -/
def kfioSglMapSegment (sgl : LinuxSgl) (vec : BioVec) : LinuxSgl × Int :=
  if sgl.continues vec then
    let sl := sgl.sl sgl.last
    ({ sgl with
        sl := Function.update sgl.sl sgl.last { sl with length := sl.length + vec.bvLen }
        sglSize := sgl.sglSize + vec.bvLen }, 0)
  else if 0#32 < sgl.numEntries ∧ sgl.numEntries ≥ sgl.maxEntries then
    (sgl, -eagain)
  else
    kfioSglMapPage sgl vec.bvPage vec.bvOffset vec.bvLen

/-- The loop of `kfio_sgl_map_bio`, which stops at the first error. -/
def kfioSglMapSegments : LinuxSgl → List BioVec → LinuxSgl × Int
  | sgl, [] => (sgl, 0)
  | sgl, vec :: rest =>
    let (sgl, rval) := kfioSglMapSegment sgl vec
    if rval ≠ 0 then (sgl, rval) else kfioSglMapSegments sgl rest

/-- Takes back the updates of a failed `kfio_sgl_map_bio`. -/
def LinuxSgl.rollBack (sgl old : LinuxSgl) : LinuxSgl :=
  { sgl with
    numEntries := old.numEntries
    sglSize := old.sglSize
    sl := if 0#32 < old.numEntries then
      Function.update sgl.sl old.last { sgl.sl old.last with length := (old.sl old.last).length }
      else sgl.sl }

def kfioSglMapBio (sgl : LinuxSgl) (segments : List BioVec) : LinuxSgl × Int :=
  if sgl.numEntries + BitVec.ofNat 32 segments.length > sgl.maxEntries then
    (sgl, -eagain)
  else
    let (mapped, rval) := kfioSglMapSegments sgl segments
    if rval ≠ 0 then (mapped.rollBack sgl, rval) else (mapped, rval)

theorem kfioSglMapSegment_size {sgl : LinuxSgl} {vec : BioVec} (mapped : (kfioSglMapSegment sgl vec).2 = 0) :
    (kfioSglMapSegment sgl vec).1.sglSize = sgl.sglSize + vec.bvLen := by
  unfold kfioSglMapSegment kfioSglMapPage at mapped ⊢
  split
  · rfl
  · rename_i apart
    simp only [apart, Bool.false_eq_true, if_false] at mapped
    split at mapped
    · exact absurd mapped neg_eagain_ne_zero
    rename_i room
    rw [if_neg room]
    split at mapped
    · exact absurd mapped neg_einval_ne_zero
    rename_i space
    rw [if_neg space]
    split at mapped
    · exact absurd mapped neg_einval_ne_zero
    rename_i fits
    rw [if_neg fits]

/-- The bytes of some segments. -/
def segmentBytes (segments : List BioVec) : Nat := (segments.map fun vec => vec.bvLen.toNat).sum

theorem segmentBytes_cons (vec : BioVec) (rest : List BioVec) :
    segmentBytes (vec :: rest) = vec.bvLen.toNat + segmentBytes rest := by
  rw [segmentBytes, List.map_cons, List.sum_cons, segmentBytes]

/-- All rounds succeed if the loop does. -/
theorem kfioSglMapSegments_cons {sgl : LinuxSgl} {vec : BioVec} {rest : List BioVec}
    (mapped : (kfioSglMapSegments sgl (vec :: rest)).2 = 0) :
    (kfioSglMapSegment sgl vec).2 = 0 ∧
      (kfioSglMapSegments sgl (vec :: rest)) = kfioSglMapSegments (kfioSglMapSegment sgl vec).1 rest := by
  simp only [kfioSglMapSegments] at mapped ⊢
  split at mapped
  · rename_i failed
    exact absurd mapped failed
  · rename_i here
    rw [if_neg here]
    exact ⟨not_not.mp here, rfl⟩

theorem kfioSglMapSegments_size {segments : List BioVec} {sgl : LinuxSgl}
    (mapped : (kfioSglMapSegments sgl segments).2 = 0) :
    (kfioSglMapSegments sgl segments).1.sglSize = sgl.sglSize + BitVec.ofNat 32 (segmentBytes segments) := by
  induction segments generalizing sgl with
  | nil => simp [kfioSglMapSegments, segmentBytes]
  | cons vec rest ih =>
    obtain ⟨here, run⟩ := kfioSglMapSegments_cons mapped
    rw [run] at mapped ⊢
    rw [ih mapped, kfioSglMapSegment_size here, segmentBytes_cons, BitVec.ofNat_add, BitVec.ofNat_toNat,
      BitVec.setWidth_eq, BitVec.add_assoc]

/-- All bytes of the bio are added, or nothing is. -/
theorem kfioSglMapBio_size (sgl : LinuxSgl) (segments : List BioVec) :
    (kfioSglMapBio sgl segments).1.sglSize =
      if (kfioSglMapBio sgl segments).2 = 0 then sgl.sglSize + BitVec.ofNat 32 (segmentBytes segments)
      else sgl.sglSize := by
  by_cases full : sgl.numEntries + BitVec.ofNat 32 segments.length > sgl.maxEntries
  · simp only [kfioSglMapBio, full, if_true, neg_eagain_ne_zero, if_false]
  · by_cases mapped : (kfioSglMapSegments sgl segments).2 = 0
    · simp only [kfioSglMapBio, full, if_false, mapped, ne_eq, not_true, if_true]
      exact kfioSglMapSegments_size mapped
    · simp only [kfioSglMapBio, full, if_false, mapped, ne_eq, not_false_eq_true, if_true, LinuxSgl.rollBack]

end IomemoryVsl
