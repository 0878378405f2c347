import IomemoryVsl.ScatterOps
import Mathlib.Algebra.BigOperators.Intervals

namespace IomemoryVsl

namespace LinuxSgl

/-- The two lists are the same as far as they are in use. -/
structure Agrees (a b : LinuxSgl) : Prop where
  maxEntries : a.maxEntries = b.maxEntries
  numEntries : a.numEntries = b.numEntries
  numMapped : a.numMapped = b.numMapped
  sglSize : a.sglSize = b.sglSize
  entries : ∀ i < b.numEntries.toNat, a.sl i = b.sl i
  flags : ∀ i < b.numEntries.toNat, a.sgeFlags i = b.sgeFlags i

/-- Lengthens the last entry. -/
def growLast (sgl : LinuxSgl) (bytes : BitVec 32) : LinuxSgl :=
  { sgl with
    sl := Function.update sgl.sl sgl.last { sgl.sl sgl.last with length := (sgl.sl sgl.last).length + bytes }
    sglSize := sgl.sglSize + bytes }

theorem growLast_last (sgl : LinuxSgl) (bytes : BitVec 32) : (sgl.growLast bytes).last = sgl.last := rfl

theorem growLast_sl_last (sgl : LinuxSgl) (bytes : BitVec 32) : (sgl.growLast bytes).sl sgl.last =
    ⟨(sgl.sl sgl.last).page, (sgl.sl sgl.last).offset, (sgl.sl sgl.last).length + bytes⟩ :=
  Function.update_self ..

theorem growLast_sl_other {i : Nat} (sgl : LinuxSgl) (bytes : BitVec 32) (other : i ≠ sgl.last) :
    (sgl.growLast bytes).sl i = sgl.sl i :=
  Function.update_of_ne other ..

/-- All that mapping something does to the list: entries are added, the last one
is lengthened. The events are the pages that were pinned. -/
inductive Moves : LinuxSgl → List PageEvent → LinuxSgl → Prop
  | same {a b : LinuxSgl} : b.Agrees a → Moves a [] b
  | system {a b : LinuxSgl} {entry events} : a.numEntries < a.maxEntries → Moves (a.addEntry entry 0#32) events b →
      Moves a events b
  | user {a b : LinuxSgl} {entry events} : a.numEntries < a.maxEntries → Moves (a.addEntry entry sgeUser) events b →
      Moves a (.pinned entry.page :: events) b
  | grow {a b : LinuxSgl} {bytes events} : 0#32 < a.numEntries → Moves (a.growLast bytes) events b →
      Moves a events b

theorem Agrees.refl (sgl : LinuxSgl) : sgl.Agrees sgl :=
  ⟨rfl, rfl, rfl, rfl, fun _ _ => rfl, fun _ _ => rfl⟩

/-- The bytes of the entries in use. -/
def entryBytes (sgl : LinuxSgl) : Nat := ∑ i ∈ Finset.range sgl.numEntries.toNat, (sgl.sl i).length.toNat

/-- What every call keeps of an SGL. The size is a machine word, so it is the sum
of the lengths modulo `2^32`. -/
structure Sound (sgl : LinuxSgl) : Prop where
  mapped : sgl.numMapped ≤ sgl.numEntries
  entries : sgl.numEntries ≤ sgl.maxEntries
  size : sgl.sglSize = BitVec.ofNat 32 sgl.entryBytes

theorem toNat_numEntries_add_one {sgl : LinuxSgl} (room : sgl.numEntries < sgl.maxEntries) :
    (sgl.numEntries + 1#32).toNat = sgl.numEntries.toNat + 1 := by
  bv_omega

theorem entryBytes_addEntry {sgl : LinuxSgl} (entry : Scatterlist) (flags : BitVec 32)
    (room : sgl.numEntries < sgl.maxEntries) :
    (sgl.addEntry entry flags).entryBytes = sgl.entryBytes + entry.length.toNat := by
  simp only [entryBytes, addEntry, toNat_numEntries_add_one room, Finset.sum_range_succ, Function.update_self]
  congr 1
  refine Finset.sum_congr rfl fun i member => ?_
  have below : i ≠ sgl.numEntries.toNat := (Finset.mem_range.mp member).ne
  rw [Function.update_of_ne below]

theorem last_add_one {sgl : LinuxSgl} (some : 0#32 < sgl.numEntries) : sgl.last + 1 = sgl.numEntries.toNat := by
  rw [last]
  bv_omega

theorem entryBytes_growLast {sgl : LinuxSgl} (some : 0#32 < sgl.numEntries) (bytes : BitVec 32) :
    (sgl.growLast bytes).entryBytes + (sgl.sl sgl.last).length.toNat =
      sgl.entryBytes + ((sgl.sl sgl.last).length + bytes).toNat := by
  simp only [entryBytes, growLast, ← last_add_one some, Finset.sum_range_succ, Function.update_self]
  have rest (entry : Scatterlist) :
      ∑ i ∈ Finset.range sgl.last, (Function.update sgl.sl sgl.last entry i).length.toNat =
      ∑ i ∈ Finset.range sgl.last, (sgl.sl i).length.toNat := by
    refine Finset.sum_congr rfl fun i member => ?_
    have below : i ≠ sgl.last := (Finset.mem_range.mp member).ne
    rw [Function.update_of_ne below]
  rw [rest]
  omega

theorem Sound.agrees {a b : LinuxSgl} (sound : a.Sound) (agrees : b.Agrees a) : b.Sound := by
  refine ⟨?_, ?_, ?_⟩
  · rw [agrees.numMapped, agrees.numEntries]
    exact sound.mapped
  · rw [agrees.numEntries, agrees.maxEntries]
    exact sound.entries
  · have bytes : b.entryBytes = a.entryBytes := by
      rw [entryBytes, entryBytes, agrees.numEntries]
      refine Finset.sum_congr rfl fun i member => ?_
      rw [agrees.entries i (Finset.mem_range.mp member)]
    rw [agrees.sglSize, sound.size, bytes]

theorem Sound.addEntry {sgl : LinuxSgl} (sound : sgl.Sound) (room : sgl.numEntries < sgl.maxEntries)
    (entry : Scatterlist) (flags : BitVec 32) : (sgl.addEntry entry flags).Sound := by
  have mapped := sound.mapped
  refine ⟨?_, ?_, ?_⟩
  · simp only [LinuxSgl.addEntry]
    bv_omega
  · simp only [LinuxSgl.addEntry]
    bv_omega
  · rw [entryBytes_addEntry entry flags room, BitVec.ofNat_add, ← sound.size, BitVec.ofNat_toNat, BitVec.setWidth_eq]
    rfl

theorem Sound.growLast {sgl : LinuxSgl} (sound : sgl.Sound) (some : 0#32 < sgl.numEntries) (bytes : BitVec 32) :
    (sgl.growLast bytes).Sound := by
  refine ⟨sound.mapped, sound.entries, ?_⟩
  have total := congrArg (BitVec.ofNat 32) (entryBytes_growLast some bytes)
  simp only [BitVec.ofNat_add, BitVec.ofNat_toNat, BitVec.setWidth_eq, ← sound.size] at total
  refine (BitVec.add_left_inj (sgl.sl sgl.last).length).mp ?_
  rw [total, LinuxSgl.growLast, BitVec.add_assoc, BitVec.add_comm bytes]

theorem Sound.moves {a b : LinuxSgl} {events : List PageEvent} (sound : a.Sound) (moves : a.Moves events b) :
    b.Sound := by
  induction moves with
  | same agrees => exact sound.agrees agrees
  | system room _ ih => exact ih (sound.addEntry room _ _)
  | user room _ ih => exact ih (sound.addEntry room _ _)
  | grow some _ ih => exact ih (sound.growLast some _)

end LinuxSgl

theorem kfioSglMapPage_eq_addEntry {sgl : LinuxSgl} {page : Nat} {offset size : BitVec 32} {rval : Int} {last : LinuxSgl}
    (ran : kfioSglMapPage sgl page offset size = (last, rval)) :
    rval ≠ 0 ∧ last = sgl ∨
      rval = 0 ∧ sgl.numEntries < sgl.maxEntries ∧ last = sgl.addEntry ⟨page, offset, size⟩ 0#32 := by
  unfold kfioSglMapPage at ran
  split at ran
  · cases ran
    exact .inl ⟨neg_einval_ne_zero, rfl⟩
  rename_i room
  split at ran
  · cases ran
    exact .inl ⟨neg_einval_ne_zero, rfl⟩
  · cases ran
    exact .inr ⟨rfl, BitVec.not_le.mp room, rfl⟩

/-- One round of `kfio_sgl_map_bio` fails, lengthens the last entry or adds one. -/
theorem kfioSglMapSegment_cases {sgl last : LinuxSgl} {vec : BioVec} {rval : Int}
    (ran : kfioSglMapSegment sgl vec = (last, rval)) :
    rval ≠ 0 ∧ last = sgl ∨ rval = 0 ∧ 0#32 < sgl.numEntries ∧ last = sgl.growLast vec.bvLen ∨
      rval = 0 ∧ sgl.numEntries < sgl.maxEntries ∧
        last = sgl.addEntry ⟨vec.bvPage, vec.bvOffset, vec.bvLen⟩ 0#32 := by
  unfold kfioSglMapSegment at ran
  split at ran
  · rename_i continues
    cases ran
    simp only [LinuxSgl.continues, Bool.and_eq_true, decide_eq_true_eq] at continues
    exact .inr (.inl ⟨rfl, continues.1.1, rfl⟩)
  · split at ran
    · cases ran
      exact .inl ⟨neg_eagain_ne_zero, rfl⟩
    · rcases kfioSglMapPage_eq_addEntry ran with failed | added
      · exact .inl failed
      · exact .inr (.inr added)

/-- What the loop of `kfio_sgl_map_bio` leaves alone, also when it fails: all
entries in use but the last, and everything but the length of that. -/
structure LinuxSgl.Keeps (a b : LinuxSgl) : Prop where
  maxEntries : b.maxEntries = a.maxEntries
  numMapped : b.numMapped = a.numMapped
  grows : a.numEntries ≤ b.numEntries
  entries : ∀ i, i + 1 < a.numEntries.toNat → b.sl i = a.sl i
  flags : ∀ i < a.numEntries.toNat, b.sgeFlags i = a.sgeFlags i
  last : 0#32 < a.numEntries → { b.sl a.last with length := (a.sl a.last).length } = a.sl a.last

namespace LinuxSgl

theorem Keeps.refl (sgl : LinuxSgl) : sgl.Keeps sgl :=
  ⟨rfl, rfl, BitVec.le_refl _, fun _ _ => rfl, fun _ _ => rfl, fun _ => rfl⟩

theorem Keeps.addEntry {a b : LinuxSgl} (keeps : a.Keeps b) (room : b.numEntries < b.maxEntries)
    (entry : Scatterlist) : a.Keeps (b.addEntry entry 0#32) := by
  have grows := keeps.grows
  refine ⟨keeps.maxEntries, keeps.numMapped, ?_, fun i below => ?_, fun i below => ?_, fun some => ?_⟩
  · simp only [LinuxSgl.addEntry]
    bv_omega
  · rw [addEntry_sl_old _ _ _ (by bv_omega)]
    exact keeps.entries i below
  · rw [addEntry_flags_old _ _ _ (by bv_omega)]
    exact keeps.flags i below
  · have next := last_add_one some
    rw [addEntry_sl_old _ _ _ (by bv_omega)]
    exact keeps.last some

theorem Keeps.growLast {a b : LinuxSgl} (keeps : a.Keeps b) (some : 0#32 < b.numEntries) (bytes : BitVec 32) :
    a.Keeps (b.growLast bytes) := by
  have grows := keeps.grows
  have next := last_add_one some
  refine ⟨keeps.maxEntries, keeps.numMapped, grows, fun i below => ?_, keeps.flags, fun used => ?_⟩
  · rw [growLast_sl_other _ _ (by bv_omega)]
    exact keeps.entries i below
  · have old := keeps.last used
    by_cases same : a.last = b.last
    · rw [same, growLast_sl_last]
      simpa only [same] using old
    · rw [growLast_sl_other _ _ same]
      exact old

/-- Rolling back restores the part that was in use. -/
theorem Keeps.rollBack_agrees {a b : LinuxSgl} (keeps : a.Keeps b) : (b.rollBack a).Agrees a := by
  refine ⟨keeps.maxEntries, rfl, keeps.numMapped, rfl, fun i below => ?_, fun i below => ?_⟩
  · have some : 0#32 < a.numEntries := by bv_omega
    have next := last_add_one some
    simp only [rollBack, some, if_true]
    by_cases same : i = a.last
    · rw [same, Function.update_self]
      exact keeps.last some
    · rw [Function.update_of_ne same]
      exact keeps.entries i (by omega)
  · exact keeps.flags i below

end LinuxSgl

theorem kfioSglMapSegments_keeps {segments : List BioVec} {old sgl : LinuxSgl} (keeps : old.Keeps sgl) :
    old.Keeps (kfioSglMapSegments sgl segments).1 := by
  induction segments generalizing sgl with
  | nil => exact keeps
  | cons vec rest ih =>
    rw [kfioSglMapSegments]
    cases ran : kfioSglMapSegment sgl vec with
    | mk last rval =>
      simp only
      rcases kfioSglMapSegment_cases ran with ⟨failed, rfl⟩ | ⟨rfl, some, rfl⟩ | ⟨rfl, room, rfl⟩
      · rw [if_pos failed]
        exact keeps
      · exact ih (keeps.growLast some vec.bvLen)
      · exact ih (keeps.addEntry room _)

theorem kfioSglMapSegments_moves {segments : List BioVec} {sgl : LinuxSgl}
    (mapped : (kfioSglMapSegments sgl segments).2 = 0) :
    sgl.Moves [] (kfioSglMapSegments sgl segments).1 := by
  induction segments generalizing sgl with
  | nil => exact .same (.refl _)
  | cons vec rest ih =>
    rw [kfioSglMapSegments] at mapped ⊢
    cases ran : kfioSglMapSegment sgl vec with
    | mk last rval =>
      simp only [ran] at mapped ⊢
      rcases kfioSglMapSegment_cases ran with ⟨failed, rfl⟩ | ⟨rfl, some, rfl⟩ | ⟨rfl, room, rfl⟩
      · rw [if_pos failed] at mapped
        exact absurd mapped failed
      · exact .grow some (ih mapped)
      · exact .system room (ih mapped)

/-- Mapping a bio adds to the list, or leaves it as it was. -/
theorem kfioSglMapBio_moves (sgl : LinuxSgl) (segments : List BioVec) :
    sgl.Moves [] (kfioSglMapBio sgl segments).1 := by
  rw [kfioSglMapBio]
  split
  · exact .same (.refl _)
  simp only
  split
  · exact .same (kfioSglMapSegments_keeps (.refl sgl)).rollBack_agrees
  · rename_i mapped
    exact kfioSglMapSegments_moves (not_not.mp mapped)

theorem kfioSglMapPage_moves (sgl : LinuxSgl) (page : Nat) (offset size : BitVec 32) :
    sgl.Moves [] (kfioSglMapPage sgl page offset size).1 := by
  cases ran : kfioSglMapPage sgl page offset size with
  | mk last rval =>
    rcases kfioSglMapPage_eq_addEntry ran with ⟨_, rfl⟩ | ⟨_, room, rfl⟩
    · exact .same (.refl _)
    · exact .system room (.same (.refl _))

/-- The address at which the loop of `kfio_sgl_map_bytes_gen` asks for its `k`-th page. -/
def pageAddress (bp : BitVec 64) : Nat → BitVec 64
  | 0 => bp
  | k + 1 => bp - bp % 4096#64 + BitVec.ofNat 64 (4096 * (k + 1))

/-- The number of pages that a buffer touches. -/
def pagesSpanned (bp : BitVec 64) (size : BitVec 32) : Nat :=
  if size = 0#32 then 0 else (bp.toNat % 4096 + size.toNat + 4095) / 4096

theorem pageOffset_toNat (bp : BitVec 64) : (pageOffset bp).toNat = bp.toNat % 4096 := by
  have page : fusionPageSize = 4096 := rfl
  have inside : bp.toNat % 4096 < 2 ^ 32 := (Nat.mod_lt _ (by decide)).trans (by decide)
  rw [pageOffset, page, BitVec.toNat_setWidth, BitVec.toNat_umod]
  exact Nat.mod_eq_of_lt inside

theorem mappedBytes_toNat (bp : BitVec 64) (size : BitVec 32) :
    (mappedBytes bp size).toNat = min size.toNat (4096 - bp.toNat % 4096) := by
  have page : fusionPageSize = 4096 := rfl
  have offset := pageOffset_toNat bp
  have remainder : (BitVec.ofNat 32 fusionPageSize - pageOffset bp).toNat = 4096 - bp.toNat % 4096 := by
    rw [page, BitVec.toNat_sub, offset, BitVec.toNat_ofNat]
    omega
  simp only [mappedBytes, BitVec.lt_def, remainder]
  split
  · omega
  · rw [remainder]
    omega

section NextPage

theorem nextAddress_mod (bp : BitVec 64) (size : BitVec 32) :
    (bp + (mappedBytes bp size).setWidth 64).toNat % 4096 =
      (bp.toNat + min size.toNat (4096 - bp.toNat % 4096)) % 4096 := by
  have small := (mappedBytes bp size).isLt
  have narrow : (mappedBytes bp size).toNat % 2 ^ 64 = (mappedBytes bp size).toNat := Nat.mod_eq_of_lt (by omega)
  rw [BitVec.toNat_add, BitVec.toNat_setWidth, narrow, mappedBytes_toNat]
  exact Nat.mod_mod_of_dvd _ (by decide)

theorem restSize_toNat (bp : BitVec 64) (size : BitVec 32) :
    (size - mappedBytes bp size).toNat = size.toNat - min size.toNat (4096 - bp.toNat % 4096) := by
  have least : mappedBytes bp size ≤ size := by
    rw [BitVec.le_def, mappedBytes_toNat]
    exact Nat.min_le_left ..
  rw [BitVec.toNat_sub_of_le least, mappedBytes_toNat]

theorem pagesSpanned_next (bp : BitVec 64) {size : BitVec 32} (some : size ≠ 0#32) :
    pagesSpanned bp size =
      pagesSpanned (bp + (mappedBytes bp size).setWidth 64) (size - mappedBytes bp size) + 1 := by
  have positive : size.toNat ≠ 0 := fun zero => some (BitVec.eq_of_toNat_eq zero)
  have rest := restSize_toNat bp size
  have next := nextAddress_mod bp size
  rw [pagesSpanned, if_neg some, pagesSpanned, next]
  generalize bp.toNat = address at *
  split
  · rename_i done
    rw [done] at rest
    simp only [BitVec.toNat_ofNat] at rest
    omega
  · rename_i more
    have left : (size - mappedBytes bp size).toNat ≠ 0 := fun zero => more (BitVec.eq_of_toNat_eq zero)
    rw [rest] at left ⊢
    omega

variable {bp : BitVec 64} {size : BitVec 32}

/-- A buffer that goes on behind its first page goes on at the start of a page. -/
theorem nextAddress_eq (more : size - mappedBytes bp size ≠ 0#32) :
    bp + (mappedBytes bp size).setWidth 64 = bp - bp % 4096#64 + 4096#64 := by
  have left : (size - mappedBytes bp size).toNat ≠ 0 := fun zero => more (BitVec.eq_of_toNat_eq zero)
  have whole : (mappedBytes bp size).setWidth 64 = 4096#64 - bp % 4096#64 := by
    apply BitVec.eq_of_toNat_eq
    have inside : bp % 4096#64 ≤ 4096#64 := by
      rw [BitVec.le_def, BitVec.toNat_umod]
      exact (Nat.mod_lt _ (by decide)).le
    rw [restSize_toNat] at left
    have page : (4096#64).toNat = 4096 := rfl
    rw [BitVec.toNat_sub_of_le inside, BitVec.toNat_setWidth, mappedBytes_toNat, BitVec.toNat_umod, page]
    omega
  rw [whole, BitVec.sub_eq_add_neg, BitVec.sub_eq_add_neg, BitVec.add_assoc, BitVec.add_comm 4096#64]

theorem pageAddress_next (more : size - mappedBytes bp size ≠ 0#32) (k : Nat) :
    pageAddress bp (k + 1) = pageAddress (bp + (mappedBytes bp size).setWidth 64) k := by
  cases k with
  | zero => exact (nextAddress_eq more).symm
  | succ k =>
    have aligned : (bp + (mappedBytes bp size).setWidth 64) % 4096#64 = 0#64 := by
      have left : (size - mappedBytes bp size).toNat ≠ 0 := fun zero => more (BitVec.eq_of_toNat_eq zero)
      rw [restSize_toNat] at left
      apply BitVec.eq_of_toNat_eq
      rw [BitVec.toNat_umod]
      refine (nextAddress_mod bp size).trans ?_
      simp only [BitVec.toNat_ofNat]
      omega
    have step : 4096 * (k + 1 + 1) = 4096 + 4096 * (k + 1) := by omega
    rw [pageAddress, pageAddress, aligned, BitVec.sub_zero, nextAddress_eq more, step, BitVec.ofNat_add,
      BitVec.add_assoc]

end NextPage

/-- The page of the first entry, which is still to come while the list is empty. -/
def LinuxSgl.firstPage (sgl : LinuxSgl) (fresh : Nat) : Nat :=
  if sgl.numEntries = 0#32 then fresh else (sgl.sl 0).page

section MapBytes

variable {env : SglEnv} {systemPage : BitVec 64 → Nat} {seg : MemSeg} {getUserPages : BitVec 64 → Int × Nat}
  {oldNum fuel : Nat} {sgl : LinuxSgl} {bp : BitVec 64} {size : BitVec 32}

/-- The first pages of the buffer can all be had. -/
def PagesPinned (seg : MemSeg) (getUserPages : BitVec 64 → Int × Nat) (bp : BitVec 64) (pages : Nat) : Prop :=
  seg = .user → ∀ j < pages, 0 < (getUserPages (pageAddress bp j)).1

/-- Everything `kfio_sgl_map_bytes_gen` can do: all pages are entered, the entries
run out behind some of them, or `get_user_pages_fast` fails behind some of them. -/
inductive BytesOutcome (env : SglEnv) (systemPage : BitVec 64 → Nat) (seg : MemSeg)
    (getUserPages : BitVec 64 → Int × Nat) (oldNum : Nat) (a : LinuxSgl) (bp : BitVec 64) (size : BitVec 32) :
    LinuxSgl × List PageEvent × Int → Prop
  | mapped {b pins} : a.Moves pins b → BytesOutcome env systemPage seg getUserPages oldNum a bp size (b, pins, 0)
  | full {b pins} (pages : Nat) : a.Moves pins b → b.numEntries.toNat = a.numEntries.toNat + pages →
      b.maxEntries = a.maxEntries → b.maxEntries ≤ b.numEntries → pages < pagesSpanned bp size →
      PagesPinned seg getUserPages bp pages →
      (b.numEntries ≠ 0#32 →
        (b.sl 0).page = a.firstPage (if seg = .user then (getUserPages bp).2 else systemPage bp)) →
      BytesOutcome env systemPage seg getUserPages oldNum a bp size (b.clearFlags env, pins, -enomem)
  | failed {b pins retval} (pages : Nat) : a.Moves pins b → b.numEntries.toNat = a.numEntries.toNat + pages →
      b.maxEntries = a.maxEntries → b.numEntries < b.maxEntries → pages < pagesSpanned bp size →
      PagesPinned seg getUserPages bp pages → seg = .user → (getUserPages (pageAddress bp pages)).1 ≤ 0 →
      BytesOutcome env systemPage seg getUserPages oldNum a bp size (b.clearFlags env,
        pins ++ (List.range' oldNum (b.numEntries.toNat - oldNum)).map (fun i => .released (b.sl i).page), retval)

namespace LinuxSgl

theorem clearFlags_addEntry (entry : Scatterlist) (flags : BitVec 32) (room : ¬sgl.numEntries ≥ sgl.maxEntries) :
    (sgl.clearFlags env).addEntry entry flags = sgl.addEntry entry flags := by
  simp only [clearFlags, if_neg room, addEntry, Function.update_idem]

theorem numEntries_clearFlags : (sgl.clearFlags env).numEntries = sgl.numEntries := by
  unfold clearFlags
  split <;> rfl

theorem clearFlags_sl (room : ¬sgl.numEntries ≥ sgl.maxEntries) : (sgl.clearFlags env).sl = sgl.sl := by
  rw [clearFlags, if_neg room]

theorem addEntry_firstPage (entry : Scatterlist) (flags : BitVec 32) (fresh : Nat)
    (room : sgl.numEntries < sgl.maxEntries) :
    (sgl.addEntry entry flags).firstPage fresh = sgl.firstPage entry.page := by
  have some : sgl.numEntries + 1#32 ≠ 0#32 := by bv_omega
  simp only [firstPage, addEntry, some, if_false]
  split
  · rename_i empty
    have zero : sgl.numEntries.toNat = 0 := by rw [empty]; rfl
    rw [zero, Function.update_self]
  · rename_i used
    have other : 0 ≠ sgl.numEntries.toNat := fun zero => used (BitVec.eq_of_toNat_eq zero.symm)
    rw [Function.update_of_ne other]

end LinuxSgl

/-- Entering one page more in front of an outcome gives an outcome. -/
theorem BytesOutcome.cons {entry : Scatterlist} {flags : BitVec 32} (pins : List PageEvent)
    {result : LinuxSgl × List PageEvent × Int} (room : sgl.numEntries < sgl.maxEntries) (some : size ≠ 0#32)
    (here : entry.page = if seg = .user then (getUserPages bp).2 else systemPage bp)
    (pinned : seg = .user → 0 < (getUserPages bp).1)
    (moves : ∀ {events last}, (sgl.addEntry entry flags).Moves events last → sgl.Moves (pins ++ events) last)
    (onward : BytesOutcome env systemPage seg getUserPages oldNum (sgl.addEntry entry flags)
      (bp + (mappedBytes bp size).setWidth 64) (size - mappedBytes bp size) result) :
    BytesOutcome env systemPage seg getUserPages oldNum sgl bp size
      (result.1, pins ++ result.2.1, result.2.2) := by
  have next := pagesSpanned_next bp some
  have count : (sgl.addEntry entry flags).numEntries.toNat = sgl.numEntries.toNat + 1 :=
    LinuxSgl.toNat_numEntries_add_one room
  have later (pages : Nat) (pending : pages < pagesSpanned (bp + (mappedBytes bp size).setWidth 64)
      (size - mappedBytes bp size)) : size - mappedBytes bp size ≠ 0#32 := by
    intro done
    rw [pagesSpanned, if_pos done] at pending
    omega
  have extend (pages : Nat) (pending : pages < pagesSpanned (bp + (mappedBytes bp size).setWidth 64)
      (size - mappedBytes bp size))
      (all : PagesPinned seg getUserPages (bp + (mappedBytes bp size).setWidth 64) pages) :
      PagesPinned seg getUserPages bp (pages + 1) := by
    intro user j below
    cases j with
    | zero => exact pinned user
    | succ j =>
      rw [pageAddress_next (later pages pending)]
      exact all user j (by omega)
  cases onward with
  | mapped after => exact .mapped (moves after)
  | @full b events pages after entered same full pending all first =>
    refine .full (pages + 1) (moves after) (by omega) same full (by omega) (extend pages pending all) ?_
    intro used
    rw [first used, LinuxSgl.addEntry_firstPage _ _ _ room, here]
  | @failed b events retval pages after entered same left pending all user error =>
    rw [← List.append_assoc]
    refine .failed (pages + 1) (moves after) (by omega) same left (by omega) (extend pages pending all) user ?_
    rw [pageAddress_next (later pages pending)]
    exact error

/-- Everything a round of the loop can do. -/
inductive BytesRound (env : SglEnv) (systemPage : BitVec 64 → Nat) (seg : MemSeg)
    (getUserPages : BitVec 64 → Int × Nat) (oldNum fuel : Nat) (sgl : LinuxSgl) (bp : BitVec 64) (size : BitVec 32) :
    LinuxSgl × List PageEvent × Int → Prop
  | mapped : size = 0#32 → BytesRound env systemPage seg getUserPages oldNum fuel sgl bp size (sgl, [], 0)
  | full : size ≠ 0#32 → sgl.numEntries ≥ sgl.maxEntries →
      BytesRound env systemPage seg getUserPages oldNum fuel sgl bp size (sgl.clearFlags env, [], -enomem)
  | failed : size ≠ 0#32 → ¬sgl.numEntries ≥ sgl.maxEntries → seg = .user → (getUserPages bp).1 ≤ 0 →
      BytesRound env systemPage seg getUserPages oldNum fuel sgl bp size (sgl.clearFlags env,
        (List.range' oldNum (sgl.numEntries.toNat - oldNum)).map (fun i => .released (sgl.sl i).page),
        (getUserPages bp).1)
  | system {rest} : size ≠ 0#32 → ¬sgl.numEntries ≥ sgl.maxEntries → seg = .system →
      mapBytesLoop env systemPage seg getUserPages oldNum fuel
        (sgl.addEntry ⟨systemPage bp, pageOffset bp, mappedBytes bp size⟩ 0#32)
        (bp + (mappedBytes bp size).setWidth 64) (size - mappedBytes bp size) = some rest →
      BytesRound env systemPage seg getUserPages oldNum fuel sgl bp size rest
  | user {rest} : size ≠ 0#32 → ¬sgl.numEntries ≥ sgl.maxEntries → seg = .user → 0 < (getUserPages bp).1 →
      mapBytesLoop env systemPage seg getUserPages oldNum fuel
        (sgl.addEntry ⟨(getUserPages bp).2, pageOffset bp, mappedBytes bp size⟩ sgeUser)
        (bp + (mappedBytes bp size).setWidth 64) (size - mappedBytes bp size) = some rest →
      BytesRound env systemPage seg getUserPages oldNum fuel sgl bp size
        (rest.1, .pinned (getUserPages bp).2 :: rest.2.1, rest.2.2)

theorem mapBytesLoop_round {result : LinuxSgl × List PageEvent × Int}
    (ran : mapBytesLoop env systemPage seg getUserPages oldNum (fuel + 1) sgl bp size = some result) :
    BytesRound env systemPage seg getUserPages oldNum fuel sgl bp size result := by
  rw [mapBytesLoop] at ran
  split at ran
  · rename_i none
    cases ran
    exact .mapped none
  rename_i some
  split at ran
  · rename_i full
    cases ran
    exact .full some full
  rename_i room
  simp only [LinuxSgl.clearFlags_addEntry _ _ room] at ran
  cases seg with
  | system => exact .system some room rfl ran
  | user =>
    simp only at ran
    split at ran
    · rename_i error
      cases ran
      rw [LinuxSgl.clearFlags_sl room, LinuxSgl.numEntries_clearFlags]
      exact .failed some room rfl error
    · rename_i pinned
      obtain ⟨rest, onward, rfl⟩ := Option.map_eq_some_iff.mp ran
      exact .user some room rfl (not_le.mp pinned) onward

theorem mapBytesLoop_outcome {result : LinuxSgl × List PageEvent × Int}
    (ran : mapBytesLoop env systemPage seg getUserPages oldNum fuel sgl bp size = some result) :
    BytesOutcome env systemPage seg getUserPages oldNum sgl bp size result := by
  induction fuel generalizing sgl bp size result with
  | zero => cases ran
  | succ fuel ih =>
    have pending (some : size ≠ 0#32) : 0 < pagesSpanned bp size := by
      rw [pagesSpanned_next bp some]
      omega
    have nothing : PagesPinned seg getUserPages bp 0 := fun _ j below => absurd below (Nat.not_lt_zero j)
    cases mapBytesLoop_round ran with
    | mapped none => exact .mapped (.same (.refl _))
    | full some full =>
      refine .full 0 (.same (.refl _)) rfl rfl full (pending some) nothing fun used => ?_
      rw [LinuxSgl.firstPage, if_neg used]
    | failed some room user error =>
      exact .failed 0 (.same (.refl _)) rfl rfl (BitVec.not_le.mp room) (pending some) nothing user error
    | system some room system onward =>
      subst system
      refine (ih onward).cons [] (BitVec.not_le.mp room) some rfl (fun user => by cases user) ?_
      intro events last moves
      exact .system (BitVec.not_le.mp room) moves
    | user some room user pinned onward =>
      subst user
      refine (ih onward).cons [.pinned _] (BitVec.not_le.mp room) some rfl (fun _ => pinned) ?_
      intro events last moves
      exact .user (BitVec.not_le.mp room) moves

theorem mapBytesLoop_isSome (fits : sgl.numEntries ≤ sgl.maxEntries)
    (enough : (sgl.maxEntries - sgl.numEntries).toNat < fuel) :
    (mapBytesLoop env systemPage seg getUserPages oldNum fuel sgl bp size).isSome = true := by
  induction fuel generalizing sgl bp size with
  | zero => omega
  | succ fuel ih =>
    rw [mapBytesLoop]
    split
    · rfl
    split
    · rfl
    rename_i notFull
    have room : sgl.numEntries < sgl.maxEntries := BitVec.not_le.mp notFull
    simp only [LinuxSgl.clearFlags_addEntry _ _ notFull]
    have onward (entry : Scatterlist) (flags : BitVec 32) (bp : BitVec 64) (size : BitVec 32) :
        (mapBytesLoop env systemPage seg getUserPages oldNum fuel (sgl.addEntry entry flags) bp size).isSome = true := by
      refine ih ?_ ?_
      · simp only [LinuxSgl.addEntry]
        bv_omega
      · simp only [LinuxSgl.addEntry]
        bv_omega
    cases seg with
    | system => exact onward _ _ _ _
    | user =>
      simp only
      split
      · rfl
      · rw [Option.isSome_map]
        exact onward _ _ _ _

end MapBytes

namespace LinuxSgl

variable {env : SglEnv} {sgl last : LinuxSgl} {action : SglAction} {events : List PageEvent}

theorem Sound.clearFlags (sound : sgl.Sound) (env : SglEnv) : (sgl.clearFlags env).Sound := by
  unfold LinuxSgl.clearFlags
  split
  · -- only a page is overwritten, and the size does not depend on it
    refine ⟨sound.mapped, sound.entries, sound.size.trans (congrArg _ (Finset.sum_congr rfl fun i _ => ?_))⟩
    by_cases first : i = 0
    · subst first
      simp only [Function.update_self]
    · simp only [Function.update_of_ne first]
  · exact ⟨sound.mapped, sound.entries, sound.size⟩

theorem Sound.mapBytes {buffer : BitVec 64} {size : BitVec 32} {seg : MemSeg}
    {getUserPages : BitVec 64 → Int × Nat} {result : LinuxSgl × List PageEvent × Int} (sound : sgl.Sound)
    (ran : kfioSglMapBytesGen env sgl buffer size seg getUserPages = some result) : result.1.Sound := by
  cases mapBytesLoop_outcome ran with
  | mapped moves => exact sound.moves moves
  | full _ moves => exact (sound.moves moves).clearFlags env
  | failed _ moves => exact (sound.moves moves).clearFlags env

theorem Sound.dmaMap {mapped : BitVec 32} (sound : sgl.Sound) (dir : DmaDir) (few : mapped ≤ sgl.numEntries) :
    (kfioSglDmaMap sgl dir mapped).1.Sound := by
  unfold kfioSglDmaMap
  dsimp only
  split
  · exact ⟨Nat.zero_le _, sound.entries, sound.size⟩
  · exact ⟨few, sound.entries, sound.size⟩

theorem Sound.step (sound : sgl.Sound) (run : sgl.step env action = some (last, events)) : last.Sound := by
  cases action with
  | mapPage page offset size =>
    cases run
    exact sound.moves (kfioSglMapPage_moves sgl page offset size)
  | mapBytes buffer size seg getUserPages =>
    obtain ⟨result, ran, same⟩ := Option.map_eq_some_iff.mp run
    cases same
    exact sound.mapBytes ran
  | mapBio segments =>
    cases run
    exact sound.moves (kfioSglMapBio_moves sgl segments)
  | dmaMap dir mapped =>
    simp only [LinuxSgl.step] at run
    split at run
    · rename_i few
      cases run
      exact sound.dmaMap dir few
    · cases run
  | dmaUnmap =>
    cases run
    exact ⟨Nat.zero_le _, sound.entries, sound.size⟩
  | reset =>
    cases run
    exact ⟨BitVec.le_refl _, Nat.zero_le _, rfl⟩

theorem sound {nvecs : BitVec 32} {stale : Nat → BitVec 32} {allowed : LinuxSgl → SglAction → Prop}
    {history : List PageEvent} (reach : SglReach env nvecs stale allowed sgl history) : sgl.Sound := by
  refine reach.invariant (fun sgl _ => sgl.Sound) ?_ ?_
  · exact ⟨BitVec.le_refl _, Nat.zero_le _, rfl⟩
  · intro sgl last action history events _ sound _ run
    exact sound.step run

end LinuxSgl

/-- Every state of an SGL is sound, and every call on it comes to an end in such a state. -/
theorem kfioSgl_sound {env : SglEnv} {nvecs : BitVec 32} {stale : Nat → BitVec 32} {sgl : LinuxSgl}
    {history : List PageEvent} (reach : SglReach env nvecs stale (fun _ _ => True) sgl history) :
    sgl.Sound ∧ ∀ action, (∀ dir mapped, action = .dmaMap dir mapped → mapped ≤ sgl.numEntries) →
      (sgl.step env action).isSome = true := by
  have sound := LinuxSgl.sound reach
  refine ⟨sound, fun action few => ?_⟩
  cases action with
  | mapBytes buffer size seg getUserPages =>
    rw [LinuxSgl.step, Option.isSome_map]
    exact mapBytesLoop_isSome sound.entries (Nat.lt_succ_self _)
  | dmaMap dir mapped =>
    rw [LinuxSgl.step, if_pos (few dir mapped rfl)]
    rfl
  | mapPage | mapBio | dmaUnmap | reset => rfl

/-- A page, a user buffer whose second page cannot be had, and a mapping for DMA. -/
theorem kfioSgl_sound_partial : ∃ (sgl : LinuxSgl) (history : List PageEvent),
    SglReach ⟨0#64, 0#64, fun _ => 0, fun _ => 0, id⟩ 3#32 (fun _ => 0#32) (fun _ _ => True) sgl history ∧
      sgl.numEntries = 2#32 ∧ sgl.sglSize = 608#32 ∧ sgl.Sound ∧
      ∀ action, (∀ dir mapped, action = .dmaMap dir mapped → mapped ≤ sgl.numEntries) →
        (sgl.step ⟨0#64, 0#64, fun _ => 0, fun _ => 0, id⟩ action).isSome = true := by
  obtain ⟨sgl, history, reach, checked⟩ := SglReach.of_check ⟨0#64, 0#64, fun _ => 0, fun _ => 0, id⟩ 3#32
    (fun _ => 0#32) (fun _ _ => true) (fun _ _ _ => trivial)
    (fun last => decide (last.1.numEntries = 2#32 ∧ last.1.sglSize = 608#32))
    [.mapPage 7 0#32 512#32,
      .mapBytes 4000#64 200#32 .user fun bp => if bp = 4000#64 then (1, 9) else (-14, 0), .dmaMap .read 2#32]
    (by decide +kernel)
  have sizes := of_decide_eq_true checked
  exact ⟨sgl, history, reach, sizes.1, sizes.2, kfioSgl_sound reach⟩

end IomemoryVsl
