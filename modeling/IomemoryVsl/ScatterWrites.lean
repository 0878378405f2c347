import IomemoryVsl.ScatterBuffer
import IomemoryVsl.ScatterPins

namespace IomemoryVsl

/-- A store to an element of one of the two arrays of an SGL. -/
inductive SglWrite
  | sge (i : Nat)
  | sl (i : Nat)
  deriving DecidableEq, Repr

def SglWrite.index : SglWrite → Nat
  | .sge i | .sl i => i

@[simp] theorem SglWrite.index_sge (i : Nat) : (SglWrite.sge i).index = i := rfl

@[simp] theorem SglWrite.index_sl (i : Nat) : (SglWrite.sl i).index = i := rfl

/-- The stores of `kfio_sgl_map_page`. -/
def mapPageWrites (sgl : LinuxSgl) (offset size : BitVec 32) : List SglWrite :=
  if sgl.numEntries ≥ sgl.maxEntries then []
  else if (offset + size).toNat > fusionPageSize then []
  else [.sge sgl.numEntries.toNat, .sl sgl.numEntries.toNat]

/-- The stores of one round of `kfio_sgl_map_bio`. -/
def mapSegmentWrites (sgl : LinuxSgl) (vec : BioVec) : List SglWrite :=
  if sgl.continues vec then [.sl sgl.last]
  else if 0#32 < sgl.numEntries ∧ sgl.numEntries ≥ sgl.maxEntries then []
  else mapPageWrites sgl vec.bvOffset vec.bvLen

def mapSegmentsWrites : LinuxSgl → List BioVec → List SglWrite
  | _, [] => []
  | sgl, vec :: rest =>
    mapSegmentWrites sgl vec ++
      if (kfioSglMapSegment sgl vec).2 ≠ 0 then [] else mapSegmentsWrites (kfioSglMapSegment sgl vec).1 rest

/-- The stores of `kfio_sgl_map_bio`, the one that rolls back included. -/
def mapBioWrites (sgl : LinuxSgl) (segments : List BioVec) : List SglWrite :=
  if sgl.numEntries + BitVec.ofNat 32 segments.length > sgl.maxEntries then []
  else
    mapSegmentsWrites sgl segments ++
      if (kfioSglMapSegments sgl segments).2 ≠ 0 ∧ 0#32 < sgl.numEntries then [.sl sgl.last] else []

/-- The stores of the loop of `kfio_sgl_map_bytes_gen`. The flags are cleared before
the test for a full list. -/
def mapBytesWrites (systemPage : BitVec 64 → Nat) (seg : MemSeg) (getUserPages : BitVec 64 → Int × Nat) :
    Nat → LinuxSgl → BitVec 64 → BitVec 32 → List SglWrite
  | 0, _, _, _ => []
  | fuel + 1, sgl, bp, size =>
    if size = 0#32 then []
    else
      .sge sgl.numEntries.toNat ::
        if sgl.numEntries ≥ sgl.maxEntries then []
        else
          let mapped := mappedBytes bp size
          let rest := mapBytesWrites systemPage seg getUserPages fuel
            (sgl.addEntry ⟨seg.pageOf systemPage getUserPages bp, pageOffset bp, mapped⟩ seg.flags)
            (bp + mapped.setWidth 64) (size - mapped)
          match seg with
          | .system => .sl sgl.numEntries.toNat :: rest
          | .user =>
            if (getUserPages bp).1 ≤ 0 then []
            else
              -- `SGE_USER` and `this_current`, then the scatterlist
              .sge sgl.numEntries.toNat :: .sl sgl.numEntries.toNat :: rest

/-- The calls that add to an SGL. -/
inductive SglMapping
  | bytes (buffer : BitVec 64) (size : BitVec 32) (seg : MemSeg) (getUserPages : BitVec 64 → Int × Nat)
  | page (target : Nat) (offset size : BitVec 32)
  | bio (segments : List BioVec)

namespace SglMapping

def run (env : SglEnv) (sgl : LinuxSgl) : SglMapping → Option (LinuxSgl × Int)
  | .bytes buffer size seg getUserPages =>
    (kfioSglMapBytesGen env sgl buffer size seg getUserPages).map fun result => (result.1, result.2.2)
  | .page target offset size => some (kfioSglMapPage sgl target offset size)
  | .bio segments => some (kfioSglMapBio sgl segments)

def writes (env : SglEnv) (sgl : LinuxSgl) : SglMapping → List SglWrite
  | .bytes buffer size seg getUserPages =>
    mapBytesWrites (env.systemPage buffer) seg getUserPages ((sgl.maxEntries - sgl.numEntries).toNat + 1) sgl buffer size
  | .page _ offset size => mapPageWrites sgl offset size
  | .bio segments => mapBioWrites sgl segments

/-- The call maps a buffer of more pages than there are free entries, and the pages
for these can all be had. -/
def RunsOut (sgl : LinuxSgl) : SglMapping → Prop
  | .bytes buffer size seg getUserPages =>
    sgl.room < pagesSpanned buffer size ∧ PagesPinned seg getUserPages buffer sgl.room
  | .page .. | .bio _ => False

end SglMapping

section Inside

variable {sgl : LinuxSgl} {offset size : BitVec 32} {vec : BioVec} {segments : List BioVec}

theorem mapPageWrites_inside : ∀ write ∈ mapPageWrites sgl offset size, write.index < sgl.maxEntries.toNat := by
  intro write member
  unfold mapPageWrites at member
  split at member
  · exact absurd member List.not_mem_nil
  rename_i notFull
  have room : sgl.numEntries.toNat < sgl.maxEntries.toNat := BitVec.not_le.mp notFull
  split at member
  · exact absurd member List.not_mem_nil
  · rcases List.mem_cons.mp member with rfl | member
    · exact room
    · rw [List.mem_singleton.mp member]
      exact room

theorem LinuxSgl.last_inside (fits : sgl.numEntries ≤ sgl.maxEntries) (used : 0#32 < sgl.numEntries) :
    sgl.last < sgl.maxEntries.toNat := by
  have next := LinuxSgl.last_add_one used
  have least : sgl.numEntries.toNat ≤ sgl.maxEntries.toNat := fits
  omega

theorem mapSegmentWrites_inside (fits : sgl.numEntries ≤ sgl.maxEntries) :
    ∀ write ∈ mapSegmentWrites sgl vec, write.index < sgl.maxEntries.toNat := by
  intro write member
  unfold mapSegmentWrites at member
  split at member
  · rename_i continues
    rw [List.mem_singleton.mp member]
    exact LinuxSgl.last_inside fits (LinuxSgl.continues_iff.mp continues).1
  · split at member
    · exact absurd member List.not_mem_nil
    · exact mapPageWrites_inside write member

/-- A round of `kfio_sgl_map_bio` keeps the number of entries within bounds. -/
theorem kfioSglMapSegment_fits (vec : BioVec) (fits : sgl.numEntries ≤ sgl.maxEntries) :
    (kfioSglMapSegment sgl vec).1.numEntries ≤ (kfioSglMapSegment sgl vec).1.maxEntries ∧
      (kfioSglMapSegment sgl vec).1.maxEntries = sgl.maxEntries := by
  cases ran : kfioSglMapSegment sgl vec with
  | mk last rval =>
    rcases kfioSglMapSegment_cases ran with ⟨_, rfl⟩ | ⟨_, _, rfl⟩ | ⟨_, room, rfl⟩
    · exact ⟨fits, rfl⟩
    · exact ⟨fits, rfl⟩
    · simp only [LinuxSgl.addEntry, and_true]
      bv_omega

theorem mapSegmentsWrites_inside (fits : sgl.numEntries ≤ sgl.maxEntries) :
    ∀ write ∈ mapSegmentsWrites sgl segments, write.index < sgl.maxEntries.toNat := by
  induction segments generalizing sgl with
  | nil => exact fun write member => absurd member List.not_mem_nil
  | cons vec rest ih =>
    intro write member
    rw [mapSegmentsWrites, List.mem_append] at member
    rcases member with here | later
    · exact mapSegmentWrites_inside fits write here
    · split at later
      · exact absurd later List.not_mem_nil
      · obtain ⟨next, same⟩ := kfioSglMapSegment_fits vec fits
        rw [← same]
        exact ih next write later

theorem mapBioWrites_inside (fits : sgl.numEntries ≤ sgl.maxEntries) :
    ∀ write ∈ mapBioWrites sgl segments, write.index < sgl.maxEntries.toNat := by
  intro write member
  unfold mapBioWrites at member
  split at member
  · exact absurd member List.not_mem_nil
  rcases List.mem_append.mp member with loop | back
  · exact mapSegmentsWrites_inside fits write loop
  · split at back
    · rename_i rolls
      rw [List.mem_singleton.mp back]
      exact LinuxSgl.last_inside fits rolls.2
    · exact absurd back List.not_mem_nil

theorem LinuxSgl.room_add (fits : sgl.numEntries ≤ sgl.maxEntries) :
    sgl.room + sgl.numEntries.toNat = sgl.maxEntries.toNat := by
  rw [LinuxSgl.room]
  bv_omega

variable {systemPage : BitVec 64 → Nat} {seg : MemSeg} {getUserPages : BitVec 64 → Int × Nat} {fuel : Nat}
  {bp : BitVec 64}

/-- The pages of a buffer can be had if its first one and those behind that can. -/
theorem pagesPinned_succ {pages : Nat} (some : size ≠ 0#32) (below : pages + 1 < pagesSpanned bp size) :
    PagesPinned seg getUserPages bp (pages + 1) ↔ (seg = .user → 0 < (getUserPages bp).1) ∧
      PagesPinned seg getUserPages (bp + (mappedBytes bp size).setWidth 64) pages := by
  have next := pagesSpanned_next bp some
  have more : size - mappedBytes bp size ≠ 0#32 := by
    intro done
    rw [done, pagesSpanned.eq_1 _ 0#32, if_pos rfl] at next
    omega
  constructor
  · intro all
    refine ⟨fun user => all user 0 (Nat.succ_pos _), fun user j inside => ?_⟩
    rw [← pageAddress_next more]
    exact all user (j + 1) (Nat.succ_lt_succ inside)
  · rintro ⟨first, rest⟩ user j inside
    cases j with
    | zero => exact first user
    | succ j =>
      rw [pageAddress_next more]
      exact rest user j (Nat.lt_of_succ_lt_succ inside)

/-- Running out of entries is running out behind the first page, if that can be had. -/
theorem runsOut_succ {room : Nat} (some : size ≠ 0#32) :
    (room + 1 < pagesSpanned bp size ∧ PagesPinned seg getUserPages bp (room + 1)) ↔
      (seg = .user → 0 < (getUserPages bp).1) ∧
        room < pagesSpanned (bp + (mappedBytes bp size).setWidth 64) (size - mappedBytes bp size) ∧
        PagesPinned seg getUserPages (bp + (mappedBytes bp size).setWidth 64) room := by
  rw [pagesSpanned_next bp some, Nat.succ_lt_succ_iff, and_left_comm]
  refine and_congr_right fun below => pagesPinned_succ some ?_
  rw [pagesSpanned_next bp some]
  omega

/-- The loop writes behind the arrays exactly when it comes to a page without an entry. -/
theorem mapBytesWrites_inside (fits : sgl.numEntries ≤ sgl.maxEntries) (enough : sgl.room < fuel) :
    (∀ write ∈ mapBytesWrites systemPage seg getUserPages fuel sgl bp size, write.index < sgl.maxEntries.toNat) ↔
      ¬(sgl.room < pagesSpanned bp size ∧ PagesPinned seg getUserPages bp sgl.room) := by
  induction fuel generalizing sgl bp size with
  | zero => omega
  | succ fuel ih =>
    have total := LinuxSgl.room_add fits
    by_cases none : size = 0#32
    · rw [mapBytesWrites, if_pos none, pagesSpanned, if_pos none]
      refine iff_of_true (fun write member => absurd member List.not_mem_nil) ?_
      rintro ⟨below, _⟩
      exact Nat.not_lt_zero _ below
    rw [mapBytesWrites, if_neg none]
    by_cases full : sgl.numEntries ≥ sgl.maxEntries
    · -- the flags of the entry behind the last one are cleared
      rw [if_pos full]
      have full : sgl.maxEntries.toNat ≤ sgl.numEntries.toNat := full
      have empty : sgl.room = 0 := by omega
      rw [empty]
      have nothing : PagesPinned seg getUserPages bp 0 := fun _ j below => absurd below (Nat.not_lt_zero j)
      have next := pagesSpanned_next bp none
      refine iff_of_false (fun inside => ?_) (not_not.mpr ⟨by omega, nothing⟩)
      have bound := inside _ List.mem_cons_self
      rw [SglWrite.index_sge] at bound
      omega
    rw [if_neg full]
    have room : sgl.numEntries < sgl.maxEntries := BitVec.not_le.mp full
    have here : sgl.numEntries.toNat < sgl.maxEntries.toNat := room
    dsimp only
    generalize isLater :
      sgl.addEntry ⟨seg.pageOf systemPage getUserPages bp, pageOffset bp, mappedBytes bp size⟩ seg.flags = later
    have same : later.maxEntries = sgl.maxEntries := by rw [← isLater]; rfl
    have added : later.numEntries = sgl.numEntries + 1#32 := by rw [← isLater]; rfl
    have fewer : later.numEntries ≤ later.maxEntries := by bv_omega
    have less : later.room + 1 = sgl.room := by
      rw [LinuxSgl.room, LinuxSgl.room]
      bv_omega
    have onward :
        (∀ write ∈ mapBytesWrites systemPage seg getUserPages fuel later (bp + (mappedBytes bp size).setWidth 64)
          (size - mappedBytes bp size), write.index < sgl.maxEntries.toNat) ↔ _ := same ▸ ih fewer (by omega)
    rw [← less, runsOut_succ none, not_and, ← onward]
    cases seg with
    | system =>
      simp only [List.forall_mem_cons, SglWrite.index_sge, SglWrite.index_sl, here, true_and, reduceCtorEq,
        false_implies, true_implies]
    | user =>
      simp only [true_implies]
      by_cases error : (getUserPages bp).1 ≤ 0
      · rw [if_pos error]
        refine iff_of_true ?_ fun pinned => absurd pinned (not_lt.mpr error)
        simp only [List.forall_mem_cons, SglWrite.index_sge, here, true_and, List.not_mem_nil, false_implies,
          implies_true]
      · rw [if_neg error]
        simp only [List.forall_mem_cons, SglWrite.index_sge, SglWrite.index_sl, here, true_and, not_le.mp error,
          true_implies]

end Inside

/-- What is not written stays as it is. -/
structure Untouched (writes : List SglWrite) (a b : LinuxSgl) : Prop where
  sl : ∀ i, .sl i ∉ writes → b.sl i = a.sl i
  sge : ∀ i, .sge i ∉ writes → b.sgeFlags i = a.sgeFlags i

namespace Untouched

variable {a b c : LinuxSgl} {writes more : List SglWrite}

theorem refl (sgl : LinuxSgl) : Untouched writes sgl sgl := ⟨fun _ _ => rfl, fun _ _ => rfl⟩

theorem trans (first : Untouched writes a b) (second : Untouched more b c) : Untouched (writes ++ more) a c := by
  constructor
  · intro i absent
    rw [List.mem_append, not_or] at absent
    rw [second.sl i absent.2, first.sl i absent.1]
  · intro i absent
    rw [List.mem_append, not_or] at absent
    rw [second.sge i absent.2, first.sge i absent.1]

theorem mono (untouched : Untouched writes a b) (subset : writes ⊆ more) : Untouched more a b :=
  ⟨fun i absent => untouched.sl i (mt (@subset _) absent), fun i absent => untouched.sge i (mt (@subset _) absent)⟩

theorem addEntry (sgl : LinuxSgl) (entry : Scatterlist) (flags : BitVec 32) :
    Untouched [.sge sgl.numEntries.toNat, .sl sgl.numEntries.toNat] sgl (sgl.addEntry entry flags) := by
  constructor
  · intro i absent
    have other : i ≠ sgl.numEntries.toNat := by
      rintro rfl
      exact absent (List.mem_cons_of_mem _ List.mem_cons_self)
    exact sgl.addEntry_sl_old entry flags other
  · intro i absent
    have other : i ≠ sgl.numEntries.toNat := by
      rintro rfl
      exact absent List.mem_cons_self
    exact sgl.addEntry_flags_old entry flags other

theorem clearFlags (env : SglEnv) (room : ¬a.numEntries ≥ a.maxEntries) :
    Untouched [.sge a.numEntries.toNat] a (a.clearFlags env) := by
  refine ⟨fun i _ => by rw [LinuxSgl.clearFlags_sl room], fun i absent => ?_⟩
  have other : i ≠ a.numEntries.toNat := by
    rintro rfl
    exact absent List.mem_cons_self
  rw [LinuxSgl.clearFlags, if_neg room]
  exact Function.update_of_ne other ..

theorem growLast (sgl : LinuxSgl) (bytes : BitVec 32) : Untouched [.sl sgl.last] sgl (sgl.growLast bytes) := by
  refine ⟨fun i absent => ?_, fun _ _ => rfl⟩
  have other : i ≠ sgl.last := by
    rintro rfl
    exact absent List.mem_cons_self
  exact sgl.growLast_sl_other bytes other

end Untouched

section Traces

variable {env : SglEnv} {sgl : LinuxSgl} {vec : BioVec} {segments : List BioVec}

theorem kfioSglMapPage_untouched (sgl : LinuxSgl) (target : Nat) (offset size : BitVec 32) :
    Untouched (mapPageWrites sgl offset size) sgl (kfioSglMapPage sgl target offset size).1 := by
  unfold mapPageWrites kfioSglMapPage
  split
  · exact .refl sgl
  · split
    · exact .refl sgl
    · exact .addEntry sgl ⟨target, offset, size⟩ 0#32

theorem kfioSglMapSegment_untouched (sgl : LinuxSgl) (vec : BioVec) :
    Untouched (mapSegmentWrites sgl vec) sgl (kfioSglMapSegment sgl vec).1 := by
  unfold mapSegmentWrites kfioSglMapSegment
  split
  · exact .growLast sgl vec.bvLen
  · split
    · exact .refl sgl
    · exact kfioSglMapPage_untouched sgl vec.bvPage vec.bvOffset vec.bvLen

theorem kfioSglMapSegments_untouched (sgl : LinuxSgl) (segments : List BioVec) :
    Untouched (mapSegmentsWrites sgl segments) sgl (kfioSglMapSegments sgl segments).1 := by
  induction segments generalizing sgl with
  | nil => exact .refl sgl
  | cons vec rest ih =>
    rw [mapSegmentsWrites, kfioSglMapSegments]
    have here := kfioSglMapSegment_untouched sgl vec
    dsimp only
    split
    · rw [List.append_nil]
      exact here
    · exact here.trans (ih _)

theorem kfioSglMapBio_untouched (sgl : LinuxSgl) (segments : List BioVec) :
    Untouched (mapBioWrites sgl segments) sgl (kfioSglMapBio sgl segments).1 := by
  unfold mapBioWrites kfioSglMapBio
  split
  · exact .refl sgl
  have loop := kfioSglMapSegments_untouched sgl segments
  dsimp only
  by_cases failed : (kfioSglMapSegments sgl segments).2 ≠ 0
  · by_cases used : 0#32 < sgl.numEntries
    · rw [if_pos failed, if_pos ⟨failed, used⟩]
      refine loop.trans ⟨fun i absent => ?_, fun _ _ => rfl⟩
      have other : i ≠ sgl.last := by
        rintro rfl
        exact absent List.mem_cons_self
      simp only [LinuxSgl.rollBack, used, if_true, Function.update_of_ne other]
    · rw [if_pos failed, if_neg (fun both => used both.2), List.append_nil]
      refine ⟨fun i absent => ?_, loop.sge⟩
      simp only [LinuxSgl.rollBack, used, if_false]
      exact loop.sl i absent
  · rw [if_neg failed, if_neg (fun both => failed both.1), List.append_nil]
    exact loop

theorem mapBytesLoop_untouched {systemPage : BitVec 64 → Nat} {seg : MemSeg}
    {getUserPages : BitVec 64 → Int × Nat} {oldNum fuel : Nat} {bp : BitVec 64} {size : BitVec 32}
    {result : LinuxSgl × List PageEvent × Int}
    (inside :
      ∀ write ∈ mapBytesWrites systemPage seg getUserPages fuel sgl bp size, write.index < sgl.maxEntries.toNat)
    (ran : mapBytesLoop env systemPage seg getUserPages oldNum fuel sgl bp size = some result) :
    Untouched (mapBytesWrites systemPage seg getUserPages fuel sgl bp size) sgl result.1 := by
  induction fuel generalizing sgl bp size result with
  | zero => cases ran
  | succ fuel ih =>
    rw [mapBytesWrites] at inside ⊢
    cases mapBytesLoop_round ran with
    | mapped none => exact .refl sgl
    | full some full =>
      rw [if_neg some, if_pos full] at inside
      have behind : sgl.maxEntries.toNat ≤ sgl.numEntries.toNat := full
      exact absurd (inside _ List.mem_cons_self) (not_lt.mpr behind)
    | failed some room user error =>
      subst user
      simp only [if_neg some, if_neg room, if_pos error]
      exact .clearFlags env room
    | system some room system onward =>
      subst system
      simp only [if_neg some, if_neg room, List.forall_mem_cons] at inside ⊢
      exact (Untouched.addEntry sgl _ 0#32).trans (ih inside.2.2 onward)
    | user some room user pinned onward =>
      subst user
      simp only [if_neg some, if_neg room, if_neg (not_le.mpr pinned), List.forall_mem_cons] at inside ⊢
      have here := (Untouched.addEntry sgl _ sgeUser).trans (ih inside.2.2.2 onward)
      exact here.mono (List.subset_cons_self _ _)

end Traces

/-- What a call does not write stays as it is, if it stays inside the arrays. -/
theorem SglMapping.untouched {env : SglEnv} {sgl last : LinuxSgl} {rc : Int} (call : SglMapping)
    (inside : ∀ write ∈ call.writes env sgl, write.index < sgl.maxEntries.toNat)
    (ran : call.run env sgl = some (last, rc)) : Untouched (call.writes env sgl) sgl last := by
  cases call with
  | bytes buffer size seg getUserPages =>
    obtain ⟨result, loop, same⟩ := Option.map_eq_some_iff.mp ran
    cases same
    exact mapBytesLoop_untouched inside loop
  | page target offset size =>
    have same : (kfioSglMapPage sgl target offset size).1 = last := congrArg Prod.fst (Option.some.inj ran)
    rw [← same]
    exact kfioSglMapPage_untouched sgl target offset size
  | bio segments =>
    have same : (kfioSglMapBio sgl segments).1 = last := congrArg Prod.fst (Option.some.inj ran)
    rw [← same]
    exact kfioSglMapBio_untouched sgl segments

/-- A failed call leaves the entries from before as they were, unless it runs out of entries. -/
theorem SglMapping.failed_old {env : SglEnv} {sgl last : LinuxSgl} {rc : Int} (call : SglMapping)
    (fits : sgl.numEntries ≤ sgl.maxEntries) (enough : ¬call.RunsOut sgl) (ran : call.run env sgl = some (last, rc))
    (failed : rc ≠ 0) : ∀ i < sgl.numEntries.toNat, last.sl i = sgl.sl i := by
  cases call with
  | bytes buffer size seg getUserPages =>
    obtain ⟨⟨after, events, code⟩, loop, same⟩ := Option.map_eq_some_iff.mp ran
    cases same
    have ends : ∃ pages, LoopEnds env (env.systemPage buffer) seg getUserPages sgl buffer size pages after code :=
      mapBytesLoop_ends loop
    obtain ⟨pages, pinned, room, stop⟩ := ends
    have total := LinuxSgl.room_add fits
    cases stop with
    | done _ => exact absurd rfl failed
    | full below full =>
      have least : sgl.room ≤ pages := by omega
      exact absurd ⟨by omega, fun user j inside => pinned user j (by omega)⟩ enough
    | failed below free _ _ =>
      have added : AddedEntries sgl (afterPages (env.systemPage buffer) seg getUserPages sgl buffer size pages) _ :=
        afterPages_added room
      have count : (afterPages (env.systemPage buffer) seg getUserPages sgl buffer size pages).numEntries.toNat = _ :=
        numEntries_afterPages room
      have space : ¬(afterPages (env.systemPage buffer) seg getUserPages sgl buffer size pages).numEntries ≥
          (afterPages (env.systemPage buffer) seg getUserPages sgl buffer size pages).maxEntries := by
        rw [ge_iff_le, BitVec.le_def, count, added.maxEntries]
        omega
      rw [LinuxSgl.clearFlags_sl space]
      exact added.old
  | page target offset size =>
    rcases kfioSglMapPage_eq_addEntry (Option.some.inj ran) with ⟨_, rfl⟩ | ⟨done, _⟩
    · exact fun _ _ => rfl
    · exact absurd done failed
  | bio segments =>
    have same : kfioSglMapBio sgl segments = (last, rc) := Option.some.inj ran
    have agrees : (kfioSglMapBio sgl segments).1.Agrees sgl := kfioSglMapBio_failed (by rwa [same])
    rw [same] at agrees
    exact agrees.entries

/-- A call that adds to a list writes inside the two arrays, and leaves the entries
from before alone when it fails, exactly when it does not run out of entries. -/
theorem kfio_sgl_map_writes_inside (env : SglEnv) (sgl : LinuxSgl) (call : SglMapping)
    (fits : sgl.numEntries ≤ sgl.maxEntries) :
    ((∀ write ∈ call.writes env sgl, write.index < sgl.maxEntries.toNat) ∧
      ∀ last rc, call.run env sgl = some (last, rc) → rc ≠ 0 →
        ∀ i < sgl.numEntries.toNat, last.sl i = sgl.sl i) ↔
    ¬call.RunsOut sgl := by
  have writes : (∀ write ∈ call.writes env sgl, write.index < sgl.maxEntries.toNat) ↔ ¬call.RunsOut sgl := by
    cases call with
    | bytes buffer size seg getUserPages => exact mapBytesWrites_inside fits (Nat.lt_succ_self _)
    | page target offset size => exact iff_of_true mapPageWrites_inside not_false
    | bio segments => exact iff_of_true (mapBioWrites_inside fits) not_false
  rw [writes]
  exact and_iff_left_of_imp fun enough last rc ran failed => call.failed_old fits enough ran failed

/-- A user buffer of two pages in a list with two free entries. -/
theorem kfio_sgl_map_writes_inside_pair :
    let env : SglEnv := ⟨0#64, 0#64, fun _ => 0, fun _ => 0, fun _ => 0⟩
    let sgl := (kfioSglMapPage (kfioSglAllocNvec 3#32 fun _ => 0#32) 7 0#32 512#32).1
    let call : SglMapping := .bytes 4000#64 200#32 .user fun _ => (1, 9)
    call.writes env sgl = [.sge 1, .sge 1, .sl 1, .sge 2, .sge 2, .sl 2] ∧
      ∀ write ∈ call.writes env sgl, write.index < 3 := by
  intro env sgl call
  have enough : ¬call.RunsOut sgl := fun out => absurd out.1 (by decide)
  exact ⟨by decide +kernel, ((kfio_sgl_map_writes_inside env sgl call (by decide)).mpr enough).1⟩

/-- A buffer of one byte in a full list of one entry: the flags behind the array are
cleared, so the page of the entry is another one. -/
theorem kfio_sgl_map_writes_outside :
    let env : SglEnv := ⟨0#64, 0#64, fun _ => 0, fun _ => 0, fun _ => 0⟩
    let sgl := (kfioSglMapPage (kfioSglAllocNvec 1#32 fun _ => 0#32) 7 0#32 512#32).1
    let call : SglMapping := .bytes 4096#64 1#32 .system fun _ => (0, 0)
    sgl.numEntries ≤ sgl.maxEntries ∧ ¬((∀ write ∈ call.writes env sgl, write.index < sgl.maxEntries.toNat) ∧
      ∀ last rc, call.run env sgl = some (last, rc) → rc ≠ 0 →
        ∀ i < sgl.numEntries.toNat, last.sl i = sgl.sl i) ∧
      ∃ last, call.run env sgl = some (last, -enomem) ∧ last.sl 0 ≠ sgl.sl 0 := by
  intro env sgl call
  refine ⟨by decide, fun ⟨inside, _⟩ => ?_, (sgl.clearFlags env), rfl, by decide⟩
  exact absurd (inside (.sge 1) (by decide +kernel)) (by decide)

end IomemoryVsl
