import IomemoryVsl.ScatterSound
import Mathlib.Data.List.DropRight

namespace IomemoryVsl

/-- `struct kfio_dma_map`. Pointers into the array `sge` are indices. -/
structure KfioDmaMap where
  mapOffset : BitVec 32
  mapLength : BitVec 32
  sgeCount : BitVec 32
  sgeSkip : BitVec 32
  sgeTrunc : BitVec 32
  sgeFirst : Option Nat
  sgeLast : Option Nat
  lsg : Option LinuxSgl

/-- `struct kfio_sgl_phys`. -/
structure KfioSglPhys where
  addr : BitVec 64
  len : BitVec 32
  deriving DecidableEq, Repr

/-- The first loop of `kfio_sgl_dma_slice`, from the entry `i` on. It gives the
entry at which it stops, too. -/
def sliceFirst (sgl : LinuxSgl) : Nat → Nat → BitVec 32 → KfioDmaMap → KfioDmaMap × Nat
  | 0, i, _, dmap => (dmap, i)
  | rest + 1, i, offset, dmap =>
    let sl := sgl.sl i
    if offset < sl.length then
      ({ dmap with
          sgeFirst := some i
          sgeLast := some i
          mapLength := sl.length - offset
          sgeSkip := offset
          sgeCount := 1#32 }, i)
    else
      sliceFirst sgl rest (i + 1) (offset - sl.length) dmap

/-- The second loop of `kfio_sgl_dma_slice`. Only what it breaks off at sets `sge_trunc`. -/
def sliceLast (sgl : LinuxSgl) (length : BitVec 32) : Nat → Nat → KfioDmaMap → KfioDmaMap
  | 0, _, dmap => dmap
  | rest + 1, i, dmap =>
    if dmap.mapLength ≥ length then
      let trunc := dmap.mapLength - length
      { dmap with sgeTrunc := trunc, mapLength := dmap.mapLength - trunc }
    else
      sliceLast sgl length rest (i + 1)
        { dmap with
          mapLength := dmap.mapLength + (sgl.sl i).length
          sgeLast := some i
          sgeCount := dmap.sgeCount + 1#32 }

/-- `kfio_sgl_dma_slice`. The second loop goes on to `num_mapped` itself. -/
def kfioSglDmaSlice (sgl : LinuxSgl) (dmap : KfioDmaMap) (offset length : BitVec 32) : KfioDmaMap × Int :=
  let dmap := { dmap with mapOffset := offset, lsg := some sgl }
  let (dmap, i) := sliceFirst sgl sgl.numMapped.toNat 0 offset dmap
  (sliceLast sgl length (sgl.numMapped.toNat - i) (i + 1) dmap, 0)

def kfioDmaMapNvecs (dmap : KfioDmaMap) : Int := dmap.sgeCount.toInt

def kfioDmaMapSize (dmap : KfioDmaMap) : BitVec 32 := dmap.mapLength

/-- `kfio_dma_map_first`. `dmaAddress` is what `sg_dma_address` gives for each entry. -/
def kfioDmaMapFirst (dmaAddress : Nat → BitVec 64) (dmap : KfioDmaMap) : Option (Nat × KfioSglPhys) :=
  match dmap.lsg, dmap.sgeFirst with
  | some lsg, some sge =>
    let len := (lsg.sl sge).length - dmap.sgeSkip
    some (sge, { addr := dmaAddress sge + dmap.sgeSkip.setWidth 64
                 len := if some sge = dmap.sgeLast then len - dmap.sgeTrunc else len })
  | _, _ => none

def kfioDmaMapNext (dmaAddress : Nat → BitVec 64) (dmap : KfioDmaMap) (iter : Nat) : Option (Nat × KfioSglPhys) :=
  match dmap.lsg, dmap.sgeFirst, dmap.sgeLast with
  | some lsg, some first, some last =>
    if iter ≥ first ∧ iter < last then
      let sge := iter + 1
      let len := (lsg.sl sge).length
      some (sge, { addr := dmaAddress sge, len := if sge = last then len - dmap.sgeTrunc else len })
    else none
  | _, _, _ => none

/-- What `kfio_dma_map_next` gives until NULL, if that is within the given number of calls. -/
def dmaMapRest (dmaAddress : Nat → BitVec 64) (dmap : KfioDmaMap) : Nat → Nat → Option (List KfioSglPhys)
  | 0, _ => none
  | calls + 1, iter =>
    match kfioDmaMapNext dmaAddress dmap iter with
    | none => some []
    | some (next, seg) => (dmaMapRest dmaAddress dmap calls next).map (seg :: ·)

/-- The segments that `kfio_dma_map_first` and `kfio_dma_map_next` enumerate. Each call
moves on by one entry, so no more calls are needed than there are entries. -/
def dmaMapSegments (dmaAddress : Nat → BitVec 64) (dmap : KfioDmaMap) : Option (List KfioSglPhys) :=
  match kfioDmaMapFirst dmaAddress dmap with
  | none => some []
  | some (iter, seg) => (dmaMapRest dmaAddress dmap (dmap.sgeLast.getD 0 + 1) iter).map (seg :: ·)

/-- The map that `kfio_sgl_dma_map` fills in for the whole list, when all is mapped. -/
def dmaMapWhole (sgl : LinuxSgl) : KfioDmaMap where
  mapOffset := 0#32
  mapLength := sgl.sglSize
  sgeCount := sgl.numMapped
  sgeSkip := 0#32
  sgeTrunc := 0#32
  sgeFirst := some 0
  sgeLast := some (sgl.numMapped - 1#32).toNat
  lsg := some sgl

/-- `kfio_sgl_dma_map` for a caller that gives a map. -/
def kfioSglDmaMapInto (sgl : LinuxSgl) (dir : DmaDir) (mapped : BitVec 32) (dmap : KfioDmaMap) :
    LinuxSgl × KfioDmaMap × Int :=
  let (sgl', rc) := kfioSglDmaMap sgl dir mapped
  (sgl', if mapped < sgl.numEntries then dmap else dmaMapWhole sgl', rc)

/-- The bytes of a DMA segment. -/
def KfioSglPhys.bytes (seg : KfioSglPhys) : List (BitVec 64) :=
  (List.range seg.len.toNat).map fun k => seg.addr + BitVec.ofNat 64 k

namespace LinuxSgl

/-- The DMA addresses of the bytes of one entry. -/
def dmaEntry (dmaAddress : Nat → BitVec 64) (sgl : LinuxSgl) (i : Nat) : List (BitVec 64) :=
  KfioSglPhys.bytes ⟨dmaAddress i, (sgl.sl i).length⟩

/-- The DMA addresses of all bytes of the list. -/
def dmaBytes (dmaAddress : Nat → BitVec 64) (sgl : LinuxSgl) : List (BitVec 64) :=
  (List.range sgl.numEntries.toNat).flatMap (sgl.dmaEntry dmaAddress)

/-- The number of bytes before an entry. -/
def bytesBefore (sgl : LinuxSgl) (i : Nat) : Nat := ∑ j ∈ Finset.range i, (sgl.sl j).length.toNat

end LinuxSgl

/-- The map stands for `length` bytes from `offset` on, which begin in the entry
`start` and end in the one `more` entries behind it. -/
structure SliceOf (sgl : LinuxSgl) (dmap : KfioDmaMap) (offset length start more : Nat) : Prop where
  lsg : dmap.lsg = some sgl
  inside : start + more < sgl.numEntries.toNat
  first : dmap.sgeFirst = some start
  last : dmap.sgeLast = some (start + more)
  skip : sgl.bytesBefore start + dmap.sgeSkip.toNat = offset
  skipped : dmap.sgeSkip.toNat ≤ (sgl.sl start).length.toNat
  trunc : sgl.bytesBefore (start + more + 1) = offset + length + dmap.sgeTrunc.toNat
  truncated : dmap.sgeTrunc.toNat ≤ (sgl.sl (start + more)).length.toNat
  count : dmap.sgeCount.toNat = more + 1
  size : dmap.mapLength.toNat = length

section Segments

variable {dmaAddress : Nat → BitVec 64} {sgl : LinuxSgl} {dmap : KfioDmaMap} {offset length start more : Nat}

theorem KfioSglPhys.bytes_length (seg : KfioSglPhys) : seg.bytes.length = seg.len.toNat := by
  rw [KfioSglPhys.bytes, List.length_map, List.length_range]

theorem KfioSglPhys.bytes_drop (seg : KfioSglPhys) {skip : BitVec 32} (few : skip.toNat ≤ seg.len.toNat) :
    KfioSglPhys.bytes ⟨seg.addr + skip.setWidth 64, seg.len - skip⟩ = seg.bytes.drop skip.toNat := by
  have left : (seg.len - skip).toNat = seg.len.toNat - skip.toNat := BitVec.toNat_sub_of_le few
  obtain ⟨rest, split⟩ := Nat.exists_eq_add_of_le few
  have word : BitVec.ofNat 64 skip.toNat = skip.setWidth 64 := BitVec.ofNat_toNat ..
  rw [KfioSglPhys.bytes, KfioSglPhys.bytes, left, split, Nat.add_sub_cancel_left, List.range_add, List.map_append,
    List.drop_left' (by rw [List.length_map, List.length_range]), List.map_map]
  refine List.map_congr_left fun k _ => ?_
  rw [Function.comp_apply, BitVec.ofNat_add, word, BitVec.add_assoc]

theorem KfioSglPhys.bytes_rdrop (seg : KfioSglPhys) {trunc : BitVec 32} (few : trunc.toNat ≤ seg.len.toNat) :
    KfioSglPhys.bytes ⟨seg.addr, seg.len - trunc⟩ = seg.bytes.rdrop trunc.toNat := by
  have left : (seg.len - trunc).toNat = seg.len.toNat - trunc.toNat := BitVec.toNat_sub_of_le few
  have least : min (seg.len.toNat - trunc.toNat) seg.len.toNat = seg.len.toNat - trunc.toNat :=
    Nat.min_eq_left (Nat.sub_le ..)
  rw [List.rdrop, KfioSglPhys.bytes_length, KfioSglPhys.bytes, KfioSglPhys.bytes, left, ← List.map_take,
    List.take_range, least]

/-- The segment of an entry behind the first one. -/
def laterSegment (dmaAddress : Nat → BitVec 64) (sgl : LinuxSgl) (dmap : KfioDmaMap) (last i : Nat) : KfioSglPhys :=
  ⟨dmaAddress i, if i = last then (sgl.sl i).length - dmap.sgeTrunc else (sgl.sl i).length⟩

theorem SliceOf.next (slice : SliceOf sgl dmap offset length start more) {iter : Nat} (lower : start ≤ iter)
    (upper : iter < start + more) : kfioDmaMapNext dmaAddress dmap iter =
      some (iter + 1, laterSegment dmaAddress sgl dmap (start + more) (iter + 1)) := by
  have guard : iter ≥ start ∧ iter < start + more := ⟨lower, upper⟩
  simp only [kfioDmaMapNext, slice.lsg, slice.first, slice.last, guard, and_self, if_true, laterSegment]

theorem SliceOf.next_last (slice : SliceOf sgl dmap offset length start more) :
    kfioDmaMapNext dmaAddress dmap (start + more) = none := by
  simp only [kfioDmaMapNext, slice.lsg, slice.first, slice.last, lt_irrefl, and_false, if_false]

/-- From an entry of the map the enumeration goes through the entries behind it and ends. -/
theorem SliceOf.rest (slice : SliceOf sgl dmap offset length start more) {left iter calls : Nat} (lower : start ≤ iter)
    (upper : iter + left = start + more) (enough : left < calls) : dmaMapRest dmaAddress dmap calls iter =
      some ((List.range' (iter + 1) left).map (laterSegment dmaAddress sgl dmap (start + more))) := by
  induction left generalizing iter calls with
  | zero =>
    obtain ⟨calls, rfl⟩ := Nat.exists_eq_add_of_lt enough
    rw [Nat.add_zero] at upper
    rw [dmaMapRest, upper, slice.next_last]
    rfl
  | succ left ih =>
    cases calls with
    | zero => omega
    | succ calls =>
      have next : kfioDmaMapNext dmaAddress dmap iter = _ := slice.next lower (by omega)
      have onward : dmaMapRest dmaAddress dmap calls (iter + 1) = _ := ih (by omega) (by omega) (by omega)
      simp only [dmaMapRest, next, onward, Option.map_some, List.range'_succ, List.map_cons]

/-- The segments of the entries behind the first one have the bytes of these entries,
without the truncated ones. -/
theorem laterSegments_bytes {left iter : Nat}
    (truncated : dmap.sgeTrunc.toNat ≤ (sgl.sl (iter + (left + 1))).length.toNat) :
    ((List.range' (iter + 1) (left + 1)).map (laterSegment dmaAddress sgl dmap (iter + (left + 1)))).flatMap
        KfioSglPhys.bytes =
      ((List.range' (iter + 1) (left + 1)).flatMap (sgl.dmaEntry dmaAddress)).rdrop dmap.sgeTrunc.toNat := by
  have last : iter + 1 + 1 * left = iter + (left + 1) := by omega
  have short : dmap.sgeTrunc.toNat ≤ (sgl.dmaEntry dmaAddress (iter + (left + 1))).length := by
    rw [LinuxSgl.dmaEntry, KfioSglPhys.bytes_length]
    exact truncated
  rw [List.range'_concat, last, List.map_append, List.flatMap_append, List.flatMap_append, List.flatMap_map,
    List.map_singleton, List.flatMap_singleton, List.flatMap_singleton, List.rdrop_append_of_le_length _ short]
  congr 1
  · refine List.flatMap_congr fun i member => ?_
    have before : i ≠ iter + (left + 1) := by
      have bounds := List.mem_range'_1.mp member
      omega
    rw [laterSegment, if_neg before, LinuxSgl.dmaEntry]
  · rw [laterSegment, if_pos rfl]
    exact KfioSglPhys.bytes_rdrop ⟨dmaAddress _, _⟩ truncated

/-- All segments have the bytes of the entries of the map, without the skipped and
the truncated ones. -/
theorem SliceOf.segments (dmaAddress : Nat → BitVec 64) (slice : SliceOf sgl dmap offset length start more) :
    ∃ segments, dmaMapSegments dmaAddress dmap = some segments ∧ segments.length = more + 1 ∧
      segments.flatMap KfioSglPhys.bytes =
        (((List.range' start (more + 1)).flatMap (sgl.dmaEntry dmaAddress)).drop dmap.sgeSkip.toNat).rdrop
          dmap.sgeTrunc.toNat := by
  have later : dmaMapRest dmaAddress dmap (start + more + 1) start = _ := slice.rest le_rfl rfl (by omega)
  have entry : (sgl.dmaEntry dmaAddress start).length = (sgl.sl start).length.toNat := KfioSglPhys.bytes_length _
  have skipped :
      KfioSglPhys.bytes ⟨dmaAddress start + dmap.sgeSkip.setWidth 64, (sgl.sl start).length - dmap.sgeSkip⟩ =
        (sgl.dmaEntry dmaAddress start).drop dmap.sgeSkip.toNat :=
    KfioSglPhys.bytes_drop ⟨dmaAddress start, (sgl.sl start).length⟩ slice.skipped
  simp only [dmaMapSegments, kfioDmaMapFirst, slice.lsg, slice.first, slice.last, Option.getD_some, later,
    Option.map_some, Option.some.injEq, exists_eq_left', List.length_cons, List.length_map, List.length_range',
    List.flatMap_cons, true_and]
  have short : dmap.sgeSkip.toNat ≤ (sgl.dmaEntry dmaAddress start).length := by
    rw [entry]
    exact slice.skipped
  rw [List.range'_succ, List.flatMap_cons, List.drop_append_of_le_length short]
  cases more with
  | zero =>
    -- one entry is skipped into and truncated
    have fits : dmap.sgeTrunc.toNat ≤ ((sgl.sl start).length - dmap.sgeSkip).toNat := by
      have total := slice.trunc
      have before := slice.skip
      rw [LinuxSgl.bytesBefore, Finset.sum_range_succ] at total
      rw [LinuxSgl.bytesBefore] at before
      rw [BitVec.toNat_sub_of_le slice.skipped]
      omega
    have cut := KfioSglPhys.bytes_rdrop
      ⟨dmaAddress start + dmap.sgeSkip.setWidth 64, (sgl.sl start).length - dmap.sgeSkip⟩ fits
    simp only [Nat.add_zero, if_true, cut, skipped, List.range'_zero, List.map_nil, List.flatMap_nil, List.append_nil]
  | succ more =>
    have other : start ≠ start + (more + 1) := by omega
    have long : dmap.sgeTrunc.toNat ≤
        ((List.range' (start + 1) (more + 1)).flatMap (sgl.dmaEntry dmaAddress)).length := by
      have last : start + 1 + 1 * more = start + (more + 1) := by omega
      rw [List.range'_concat, last, List.flatMap_append, List.flatMap_singleton, List.length_append, LinuxSgl.dmaEntry,
        KfioSglPhys.bytes_length]
      exact le_add_left slice.truncated
    simp only [other, if_false, skipped, laterSegments_bytes slice.truncated]
    rw [List.rdrop_append_of_le_length _ long]

theorem dmaEntries_length (dmaAddress : Nat → BitVec 64) (sgl : LinuxSgl) (i : Nat) :
    ((List.range i).flatMap (sgl.dmaEntry dmaAddress)).length = sgl.bytesBefore i := by
  induction i with
  | zero => rfl
  | succ i ih =>
    rw [List.range_succ, List.flatMap_append, List.flatMap_singleton, List.length_append, ih, LinuxSgl.bytesBefore,
      LinuxSgl.bytesBefore, Finset.sum_range_succ, LinuxSgl.dmaEntry, KfioSglPhys.bytes_length]

/-- What is left of the entries of the map is the part of the list that it stands for. -/
theorem SliceOf.window (slice : SliceOf sgl dmap offset length start more) :
    (((List.range' start (more + 1)).flatMap (sgl.dmaEntry dmaAddress)).drop dmap.sgeSkip.toNat).rdrop
        dmap.sgeTrunc.toNat =
      ((sgl.dmaBytes dmaAddress).drop offset).take length := by
  have inside := slice.inside
  have skip := slice.skip
  have trunc := slice.trunc
  obtain ⟨rest, split⟩ := Nat.exists_eq_add_of_lt inside
  have upTo : List.range (start + more + 1) = List.range start ++ List.range' start (more + 1) := by
    rw [List.range_eq_range', List.range_eq_range', Nat.add_assoc, ← List.range'_append_1, Nat.zero_add]
  have whole : List.range sgl.numEntries.toNat =
      List.range (start + more + 1) ++ List.range' (start + more + 1) rest := by
    have total : sgl.numEntries.toNat = start + more + 1 + rest := by omega
    rw [total, List.range_eq_range', List.range_eq_range', ← List.range'_append_1, Nat.zero_add]
  have front := dmaEntries_length dmaAddress sgl start
  have sum := dmaEntries_length dmaAddress sgl (start + more + 1)
  rw [LinuxSgl.dmaBytes, whole, upTo, List.flatMap_append, List.flatMap_append]
  rw [upTo, List.flatMap_append, List.length_append] at sum
  generalize (List.range start).flatMap (sgl.dmaEntry dmaAddress) = before at *
  generalize (List.range' start (more + 1)).flatMap (sgl.dmaEntry dmaAddress) = window at *
  generalize (List.range' (start + more + 1) rest).flatMap (sgl.dmaEntry dmaAddress) = after at *
  have far : offset = before.length + dmap.sgeSkip.toNat := by omega
  have enough : dmap.sgeSkip.toNat ≤ window.length := by omega
  have size : length = (window.drop dmap.sgeSkip.toNat).length - dmap.sgeTrunc.toNat := by
    rw [List.length_drop]
    omega
  rw [List.rdrop, ← size, List.append_assoc, far, List.drop_length_add_append, List.drop_append_of_le_length enough,
    List.take_append_of_le_length (by omega)]

end Segments

section Slice

variable {sgl : LinuxSgl} {dmap : KfioDmaMap} {offset length : Nat}

theorem LinuxSgl.bytesBefore_succ (sgl : LinuxSgl) (i : Nat) :
    sgl.bytesBefore (i + 1) = sgl.bytesBefore i + (sgl.sl i).length.toNat := Finset.sum_range_succ ..

theorem LinuxSgl.bytesBefore_le (sgl : LinuxSgl) {i j : Nat} (least : i ≤ j) :
    sgl.bytesBefore i ≤ sgl.bytesBefore j := by
  induction least with
  | refl => exact le_rfl
  | step _ ih =>
    rw [LinuxSgl.bytesBefore_succ]
    omega

/-- The map covers whole entries, from inside the entry `start` on up to the one
`more` entries behind it. -/
structure SliceGrows (sgl : LinuxSgl) (dmap : KfioDmaMap) (offset length start more : Nat) : Prop where
  lsg : dmap.lsg = some sgl
  inside : start + more < sgl.numEntries.toNat
  first : dmap.sgeFirst = some start
  last : dmap.sgeLast = some (start + more)
  skip : sgl.bytesBefore start + dmap.sgeSkip.toNat = offset
  skipped : dmap.sgeSkip.toNat ≤ (sgl.sl start).length.toNat
  size : sgl.bytesBefore (start + more + 1) = offset + dmap.mapLength.toNat
  needed : more = 0 ∨ sgl.bytesBefore (start + more) < offset + length
  count : dmap.sgeCount.toNat = more + 1

/-- The first loop finds the entry that the offset lies in. -/
theorem sliceFirst_grows (length : Nat) {rest i : Nat} {left : BitVec 32} (lsg : dmap.lsg = some sgl)
    (stop : i + rest = sgl.numEntries.toNat) (here : sgl.bytesBefore i + left.toNat = offset)
    (below : offset < sgl.bytesBefore sgl.numEntries.toNat) :
    ∃ start, (sliceFirst sgl rest i left dmap).2 = start ∧
      SliceGrows sgl (sliceFirst sgl rest i left dmap).1 offset length start 0 := by
  induction rest generalizing i left with
  | zero =>
    rw [Nat.add_zero] at stop
    rw [stop] at here
    omega
  | succ rest ih =>
    rw [sliceFirst]
    by_cases found : left < (sgl.sl i).length
    · rw [if_pos found]
      rw [BitVec.lt_def] at found
      refine ⟨i, rfl, lsg, by omega, rfl, rfl, here, found.le, ?_, .inl rfl, rfl⟩
      rw [Nat.add_zero, LinuxSgl.bytesBefore_succ, BitVec.toNat_sub_of_le (BitVec.le_of_lt found)]
      omega
    · rw [if_neg found]
      rw [BitVec.lt_def, not_lt] at found
      refine ih (by omega) ?_
      rw [LinuxSgl.bytesBefore_succ, BitVec.toNat_sub_of_le found]
      omega

section SliceGrows

variable {start more : Nat}

/-- A map that is long enough is cut to its length. -/
theorem SliceGrows.cut {length : BitVec 32} (grows : SliceGrows sgl dmap offset length.toNat start more)
    (enough : length ≤ dmap.mapLength) :
    SliceOf sgl
      { dmap with
        sgeTrunc := dmap.mapLength - length
        mapLength := dmap.mapLength - (dmap.mapLength - length) } offset length.toNat start more := by
  have size := grows.size
  have skip := grows.skip
  have next := sgl.bytesBefore_succ (start + more)
  have left : (dmap.mapLength - length).toNat = dmap.mapLength.toNat - length.toNat := BitVec.toNat_sub_of_le enough
  have least : length.toNat ≤ dmap.mapLength.toNat := enough
  refine ⟨grows.lsg, grows.inside, grows.first, grows.last, skip, grows.skipped, ?_, ?_, grows.count, ?_⟩
  · simp only
    omega
  · simp only
    rcases grows.needed with rfl | before
    · simp only [Nat.add_zero] at next size ⊢
      omega
    · omega
  · simp only
    bv_omega

/-- A map that is too short takes in the next entry. -/
theorem SliceGrows.extend (grows : SliceGrows sgl dmap offset length start more) (short : dmap.mapLength.toNat < length)
    (small : sgl.bytesBefore sgl.numEntries.toNat < 2 ^ 32)
    (fits : offset + length ≤ sgl.bytesBefore sgl.numEntries.toNat) :
    SliceGrows sgl
      { dmap with
        mapLength := dmap.mapLength + (sgl.sl (start + more + 1)).length
        sgeLast := some (start + more + 1)
        sgeCount := dmap.sgeCount + 1#32 } offset length start (more + 1) := by
  have size := grows.size
  have count := grows.count
  have next := sgl.bytesBefore_succ (start + more + 1)
  have room : start + more + 1 < sgl.numEntries.toNat := by
    by_contra last
    have least := sgl.bytesBefore_le (not_lt.mp last)
    omega
  have within : sgl.bytesBefore (start + more + 1 + 1) ≤ sgl.bytesBefore sgl.numEntries.toNat :=
    sgl.bytesBefore_le room
  have entries := sgl.numEntries.isLt
  refine ⟨grows.lsg, room, grows.first, rfl, grows.skip, grows.skipped, ?_, .inr ?_, ?_⟩
  · rw [BitVec.toNat_add, Nat.mod_eq_of_lt (by omega), ← Nat.add_assoc]
    omega
  · rw [← Nat.add_assoc]
    omega
  · rw [BitVec.toNat_add, Nat.mod_eq_of_lt] <;> simp only [BitVec.toNat_ofNat] <;> omega

/-- The second loop takes in entries until the map is long enough, and cuts it. -/
theorem sliceLast_sliceOf {length : BitVec 32} {rest : Nat} (grows : SliceGrows sgl dmap offset length.toNat start more)
    (stop : start + more + rest = sgl.numEntries.toNat) (small : sgl.bytesBefore sgl.numEntries.toNat < 2 ^ 32)
    (fits : offset + length.toNat ≤ sgl.bytesBefore sgl.numEntries.toNat) :
    ∃ last, SliceOf sgl (sliceLast sgl length rest (start + more + 1) dmap) offset length.toNat start last := by
  induction rest generalizing more dmap with
  | zero =>
    have inside := grows.inside
    omega
  | succ rest ih =>
    rw [sliceLast]
    by_cases enough : dmap.mapLength ≥ length
    · rw [if_pos enough]
      exact ⟨more, grows.cut enough⟩
    · rw [if_neg enough]
      exact ih (grows.extend (BitVec.not_le.mp enough) small fits) (by omega)

end SliceGrows

/-- A slice of a list that is mapped as a whole stands for the bytes that were asked for. -/
theorem kfioSglDmaSlice_sliceOf (dmap : KfioDmaMap) (offset length : BitVec 32) (mapped : sgl.numMapped = sgl.numEntries)
    (small : sgl.bytesBefore sgl.numEntries.toNat < 2 ^ 32) (below : offset.toNat < sgl.bytesBefore sgl.numEntries.toNat)
    (fits : offset.toNat + length.toNat ≤ sgl.bytesBefore sgl.numEntries.toNat) :
    ∃ start more, SliceOf sgl (kfioSglDmaSlice sgl dmap offset length).1 offset.toNat length.toNat start more := by
  have lsg : { dmap with mapOffset := offset, lsg := some sgl }.lsg = some sgl := rfl
  obtain ⟨start, found, grows⟩ := sliceFirst_grows length.toNat lsg (Nat.zero_add _) (Nat.zero_add _) below
  obtain ⟨more, slice⟩ := sliceLast_sliceOf grows (Nat.add_sub_of_le grows.inside.le) small fits
  refine ⟨start, more, ?_⟩
  simp only [kfioSglDmaSlice, mapped, found]
  exact slice

/-- The map that `kfio_sgl_dma_map` fills in stands for all bytes. -/
theorem dmaMapWhole_sliceOf (mapped : sgl.numMapped = sgl.numEntries) (used : 0#32 < sgl.numEntries)
    (total : sgl.entryBytes = sgl.sglSize.toNat) :
    SliceOf sgl (dmaMapWhole sgl) 0 sgl.sglSize.toNat 0 (sgl.numEntries.toNat - 1) := by
  have positive : 0 < sgl.numEntries.toNat := used
  have last : (sgl.numEntries - 1#32).toNat = 0 + (sgl.numEntries.toNat - 1) := by bv_omega
  have all : 0 + (sgl.numEntries.toNat - 1) + 1 = sgl.numEntries.toNat := by omega
  refine ⟨rfl, by omega, rfl, ?_, rfl, Nat.zero_le _, ?_, Nat.zero_le _, ?_, rfl⟩
  · rw [dmaMapWhole, mapped, last]
  · rw [all, Nat.zero_add]
    exact total
  · simp only [dmaMapWhole, mapped]
    omega

theorem SliceOf.enumerates {start more : Nat} (slice : SliceOf sgl dmap offset length start more)
    (dmaAddress : Nat → BitVec 64) :
    ∃ segments, dmaMapSegments dmaAddress dmap = some segments ∧ dmap.sgeCount.toNat = segments.length ∧
      segments.length ≤ sgl.numEntries.toNat ∧
      segments.flatMap KfioSglPhys.bytes = ((sgl.dmaBytes dmaAddress).drop offset).take length := by
  obtain ⟨segments, ran, count, bytes⟩ := slice.segments dmaAddress
  have inside := slice.inside
  refine ⟨segments, ran, slice.count.trans count.symm, by omega, bytes.trans slice.window⟩

/-- `dma_map_sg` maps all entries, so the call succeeds and fills in the map. -/
theorem kfioSglDmaMapInto_all (sgl : LinuxSgl) (dir : DmaDir) (dmap : KfioDmaMap) :
    ∃ flags, kfioSglDmaMapInto sgl dir sgl.numEntries dmap =
      ({ sgl with sgeFlags := flags, numMapped := sgl.numEntries },
        dmaMapWhole { sgl with sgeFlags := flags, numMapped := sgl.numEntries }, sgl.numEntries.toInt) := by
  have all : ¬sgl.numEntries < sgl.numEntries := BitVec.lt_irrefl _
  simp only [kfioSglDmaMapInto, kfioSglDmaMap, all, if_false]
  exact ⟨_, rfl⟩

end Slice

/-- A slice enumerates exactly the bytes that were asked for, whatever the map held
before, and a slice of everything the same bytes as the map of the whole list. -/
theorem kfio_sgl_dma_slice_enumerates (dmaAddress : Nat → BitVec 64) (sgl : LinuxSgl) (dmap : KfioDmaMap)
    (offset length : BitVec 32) (total : sgl.entryBytes = sgl.sglSize.toNat) (mapped : sgl.numMapped = sgl.numEntries)
    (below : offset < sgl.sglSize) (fits : offset.toNat + length.toNat ≤ sgl.sglSize.toNat) :
    (∃ segments, dmaMapSegments dmaAddress (kfioSglDmaSlice sgl dmap offset length).1 = some segments ∧
      segments.flatMap KfioSglPhys.bytes = ((sgl.dmaBytes dmaAddress).drop offset.toNat).take length.toNat ∧
      kfioDmaMapSize (kfioSglDmaSlice sgl dmap offset length).1 = length ∧
      (kfioSglDmaSlice sgl dmap offset length).1.sgeCount.toNat = segments.length ∧
      (sgl.numEntries.toNat < 2 ^ 31 →
        kfioDmaMapNvecs (kfioSglDmaSlice sgl dmap offset length).1 = segments.length)) ∧
    ∀ (dir : DmaDir) (old : KfioDmaMap) (now : LinuxSgl) (whole : KfioDmaMap) (rc : Int),
      kfioSglDmaMapInto sgl dir sgl.numEntries old = (now, whole, rc) →
      rc = sgl.numEntries.toInt ∧ ∃ segments all,
        dmaMapSegments dmaAddress (kfioSglDmaSlice now dmap 0#32 now.sglSize).1 = some segments ∧
        dmaMapSegments dmaAddress whole = some all ∧
        segments.flatMap KfioSglPhys.bytes = all.flatMap KfioSglPhys.bytes := by
  have bytes : sgl.bytesBefore sgl.numEntries.toNat = sgl.sglSize.toNat := total
  have small := sgl.sglSize.isLt
  constructor
  · have inside : offset.toNat < sgl.bytesBefore sgl.numEntries.toNat := bytes.symm ▸ below
    have room : offset.toNat + length.toNat ≤ sgl.bytesBefore sgl.numEntries.toNat := bytes.symm ▸ fits
    obtain ⟨start, more, slice⟩ :=
      kfioSglDmaSlice_sliceOf dmap offset length mapped (bytes.symm ▸ small) inside room
    obtain ⟨segments, ran, count, few, same⟩ := slice.enumerates dmaAddress
    refine ⟨segments, ran, same, BitVec.eq_of_toNat_eq slice.size, count, fun narrow => ?_⟩
    rw [kfioDmaMapNvecs, BitVec.toInt_eq_toNat_of_lt (by omega), count]
  · intro dir old now whole rc ran
    obtain ⟨flags, result⟩ := kfioSglDmaMapInto_all sgl dir old
    rw [ran] at result
    cases result
    have some : 0 < sgl.sglSize.toNat := Nat.zero_lt_of_lt below
    have used : 0#32 < sgl.numEntries := by
      by_contra none
      have empty : sgl.numEntries.toNat = 0 := by bv_omega
      have zero : sgl.bytesBefore 0 = 0 := rfl
      rw [empty] at bytes
      omega
    have allMapped : { sgl with sgeFlags := flags, numMapped := sgl.numEntries }.numMapped = sgl.numEntries := rfl
    obtain ⟨start, more, slice⟩ := kfioSglDmaSlice_sliceOf dmap 0#32 sgl.sglSize allMapped
      (bytes.symm ▸ small) (bytes.symm ▸ some) ((Nat.zero_add _).le.trans bytes.ge)
    obtain ⟨segments, ran, _, _, same⟩ := slice.enumerates dmaAddress
    obtain ⟨all, ranAll, _, _, sameAll⟩ := (dmaMapWhole_sliceOf allMapped used total).enumerates dmaAddress
    exact ⟨rfl, segments, all, ran, ranAll, same.trans sameAll.symm⟩

/-- Of entries of 100, 200 and 50 bytes, 260 bytes from the 70th on: one entry is
skipped into, one is whole and one is truncated. -/
theorem kfio_sgl_dma_slice_enumerates_three :
    let sl : Nat → Scatterlist := fun i => ⟨i, 0#32, if i = 0 then 100#32 else if i = 1 then 200#32 else 50#32⟩
    let sgl : LinuxSgl := ⟨4#32, 3#32, 3#32, 350#32, fun _ => 0#32, sl⟩
    let dmap : KfioDmaMap := ⟨0#32, 9#32, 7#32, 5#32, 3#32, none, some 8, none⟩
    let dmaAddress : Nat → BitVec 64 := fun i => BitVec.ofNat 64 (4096 * (i + 1))
    ∃ segments, dmaMapSegments dmaAddress (kfioSglDmaSlice sgl dmap 70#32 260#32).1 = some segments ∧
      segments = [⟨4166#64, 30#32⟩, ⟨8192#64, 200#32⟩, ⟨12288#64, 30#32⟩] ∧
      segments.flatMap KfioSglPhys.bytes = ((sgl.dmaBytes dmaAddress).drop 70).take 260 := by
  intro sl sgl dmap dmaAddress
  have total : sgl.entryBytes = sgl.sglSize.toNat := rfl
  obtain ⟨⟨segments, ran, bytes, _⟩, _⟩ :=
    kfio_sgl_dma_slice_enumerates dmaAddress sgl dmap 70#32 260#32 total rfl (by decide) (by decide)
  have value : dmaMapSegments dmaAddress (kfioSglDmaSlice sgl dmap 70#32 260#32).1 =
      some [⟨4166#64, 30#32⟩, ⟨8192#64, 200#32⟩, ⟨12288#64, 30#32⟩] := by decide +kernel
  exact ⟨segments, ran, Option.some.inj (ran.symm.trans value), bytes⟩

end IomemoryVsl
