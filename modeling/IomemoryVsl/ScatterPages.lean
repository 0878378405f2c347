import IomemoryVsl.MachineWord
import IomemoryVsl.ScatterCopyFits
import IomemoryVsl.ScatterSound
import Mathlib.Data.List.SplitBy

namespace IomemoryVsl

/-- Where a segment ends in its page, as the code computes it. -/
def BioVec.past (vec : BioVec) : BitVec 32 := vec.bvOffset + vec.bvLen

/-- The second segment begins where the first one ends. -/
def BioVec.continues (vec next : BioVec) : Bool := vec.bvPage == next.bvPage && vec.past == next.bvOffset

/-- The first segment of a run begins, and the last one ends, inside the page. -/
def RunFits (run : List BioVec) : Prop :=
  ∀ first ∈ run.head?, ∀ last ∈ run.getLast?,
    first.bvOffset ≤ last.past ∧ last.past.toNat ≤ fusionPageSize

namespace LinuxSgl

variable {sgl : LinuxSgl} {vec : BioVec} {run segments : List BioVec}

/-- The last entry in use, and the segments of a bio behind it. -/
def pieces (sgl : LinuxSgl) (segments : List BioVec) : List BioVec :=
  if 0#32 < sgl.numEntries then
    ⟨(sgl.sl sgl.last).page, (sgl.sl sgl.last).length, (sgl.sl sgl.last).offset⟩ :: segments
  else segments

/-- The longest runs of pieces that continue each other. -/
def runs (sgl : LinuxSgl) (segments : List BioVec) : List (List BioVec) :=
  (sgl.pieces segments).splitBy BioVec.continues

/-- The runs that need an entry of their own. -/
def newRuns (sgl : LinuxSgl) (segments : List BioVec) : List (List BioVec) :=
  if 0#32 < sgl.numEntries then (sgl.runs segments).tail else sgl.runs segments

/-- Some run finds the list full, or its first segment alone does not fit. -/
def RunRefused (sgl : LinuxSgl) (runs : List (List BioVec)) : Prop :=
  ∃ k run, runs[k]? = some run ∧
    (sgl.maxEntries.toNat ≤ sgl.numEntries.toNat + k ∨ ∃ first ∈ run.head?, fusionPageSize < first.past.toNat)

/-- The bio is not mapped, and the list is left as it was. -/
def BioRefused (sgl : LinuxSgl) (segments : List BioVec) : Prop :=
  sgl.maxEntries < sgl.numEntries + BitVec.ofNat 32 segments.length ∨ sgl.RunRefused (sgl.newRuns segments)

/-- All entries in use but the last lie inside their pages. -/
def InsideButLast (sgl : LinuxSgl) : Prop :=
  ∀ i < sgl.last, (sgl.sl i).offset.toNat + (sgl.sl i).length.toNat ≤ fusionPageSize

/-- The last entry holds a run of pieces. -/
structure Carries (sgl : LinuxSgl) (run : List BioVec) : Prop where
  used : 0#32 < sgl.numEntries
  chain : run.IsChain fun vec next => vec.continues next = true
  start : ∃ first ∈ run.head?, (sgl.sl sgl.last).offset = first.bvOffset
  stop : ∃ last ∈ run.getLast?, (sgl.sl sgl.last).page = last.bvPage ∧
    (sgl.sl sgl.last).offset + (sgl.sl sgl.last).length = last.past

end LinuxSgl

/-- An entry lies inside its page if its end is not wrapped to below its start. -/
theorem entry_fits_iff (offset length : BitVec 32) : offset.toNat + length.toNat ≤ fusionPageSize ↔
    offset ≤ offset + length ∧ (offset + length).toNat ≤ fusionPageSize := by
  have page : fusionPageSize = 4096 := rfl
  constructor
  · intro fits
    have whole : offset ≤ offset + length := MachineWord.le_add_iff.mpr (by omega)
    exact ⟨whole, (MachineWord.toNat_add_of_le whole).symm ▸ fits⟩
  · intro ⟨whole, fits⟩
    exact MachineWord.toNat_add_of_le whole ▸ fits

namespace LinuxSgl

variable {sgl : LinuxSgl} {vec : BioVec} {run segments : List BioVec}

instance (sgl : LinuxSgl) : Decidable sgl.Inside :=
  inferInstanceAs (Decidable (∀ i < sgl.numEntries.toNat, _ ≤ _))

theorem inside_iff_last (used : 0#32 < sgl.numEntries) : sgl.Inside ↔ sgl.InsideButLast ∧
    (sgl.sl sgl.last).offset.toNat + (sgl.sl sgl.last).length.toNat ≤ fusionPageSize := by
  have next := last_add_one used
  constructor
  · intro inside
    exact ⟨fun i below => inside i (by omega), inside sgl.last (by omega)⟩
  · rintro ⟨others, last⟩ i below
    by_cases same : i = sgl.last
    · rw [same]
      exact last
    · exact others i (by omega)

theorem Carries.ne_nil (carries : sgl.Carries run) : run ≠ [] := by
  rintro rfl
  obtain ⟨first, head, _⟩ := carries.start
  cases head

theorem Carries.fits_iff (carries : sgl.Carries run) :
    (sgl.sl sgl.last).offset.toNat + (sgl.sl sgl.last).length.toNat ≤ fusionPageSize ↔ RunFits run := by
  obtain ⟨first, head, offset⟩ := carries.start
  obtain ⟨last, final, _, past⟩ := carries.stop
  rw [entry_fits_iff, past, offset]
  constructor
  · intro fits other isHead another isLast
    rw [Option.mem_unique isHead head, Option.mem_unique isLast final]
    exact fits
  · intro fits
    exact fits first head last final

theorem Carries.inside_iff (carries : sgl.Carries run) : sgl.Inside ↔ sgl.InsideButLast ∧ RunFits run := by
  rw [inside_iff_last carries.used, carries.fits_iff]

theorem Carries.continues_iff {last : BioVec} (carries : sgl.Carries run) (final : last ∈ run.getLast?) :
    sgl.continues vec = last.continues vec := by
  obtain ⟨other, isLast, page, past⟩ := carries.stop
  rw [Option.mem_unique isLast final] at page past
  simp only [continues, BioVec.continues, carries.used, page, past, decide_true, Bool.true_and]

theorem insideButLast_growLast (bytes : BitVec 32) : (sgl.growLast bytes).InsideButLast ↔ sgl.InsideButLast := by
  rw [InsideButLast, growLast_last]
  refine forall₂_congr fun i below => ?_
  rw [growLast_sl_other _ _ (Nat.ne_of_lt below)]

/-- A segment that continues the run is added to its entry. -/
theorem Carries.growLast (carries : sgl.Carries run) (continues : sgl.continues vec = true) :
    (sgl.growLast vec.bvLen).Carries (run ++ [vec]) := by
  obtain ⟨first, head, offset⟩ := carries.start
  obtain ⟨last, final, page, past⟩ := carries.stop
  have follows := carries.continues_iff final ▸ continues
  have joins : last.bvPage = vec.bvPage ∧ last.past = vec.bvOffset := by
    simpa [BioVec.continues] using follows
  refine ⟨carries.used, ?_, ⟨first, ?_, ?_⟩, ⟨vec, by simp, ?_, ?_⟩⟩
  · refine List.isChain_append.mpr ⟨carries.chain, List.isChain_singleton _, fun other isLast next isHead => ?_⟩
    cases isHead
    rw [Option.mem_unique isLast final]
    exact follows
  · rw [List.head?_append, head]
    rfl
  · rw [growLast_last, growLast_sl_last]
    exact offset
  · rw [growLast_last, growLast_sl_last]
    exact page.trans joins.1
  · rw [growLast_last, growLast_sl_last, ← BitVec.add_assoc, past, joins.2, BioVec.past]

theorem addEntry_used (room : sgl.numEntries < sgl.maxEntries) (entry : Scatterlist) (flags : BitVec 32) :
    0#32 < (sgl.addEntry entry flags).numEntries := by
  rw [BitVec.lt_def, addEntry, toNat_numEntries_add_one room]
  exact Nat.succ_pos _

/-- A new entry holds a run of its own. -/
theorem carries_addEntry (room : sgl.numEntries < sgl.maxEntries) (vec : BioVec) (flags : BitVec 32) :
    (sgl.addEntry ⟨vec.bvPage, vec.bvOffset, vec.bvLen⟩ flags).Carries [vec] := by
  have entry : (sgl.addEntry ⟨vec.bvPage, vec.bvOffset, vec.bvLen⟩ flags).sl
      (sgl.addEntry ⟨vec.bvPage, vec.bvOffset, vec.bvLen⟩ flags).last = ⟨vec.bvPage, vec.bvOffset, vec.bvLen⟩ := by
    rw [addEntry_last, addEntry_sl_new]
  exact ⟨addEntry_used room _ _, List.isChain_singleton _, ⟨vec, rfl, by rw [entry]⟩,
    ⟨vec, rfl, by rw [entry], by rw [entry, BioVec.past]⟩⟩

theorem insideButLast_addEntry (entry : Scatterlist) (flags : BitVec 32) :
    (sgl.addEntry entry flags).InsideButLast ↔ sgl.Inside := by
  rw [InsideButLast, addEntry_last]
  refine forall₂_congr fun i below => ?_
  rw [addEntry_sl_old _ _ _ (Nat.ne_of_lt below)]

theorem inside_addEntry (room : sgl.numEntries < sgl.maxEntries) (entry : Scatterlist) (flags : BitVec 32) :
    (sgl.addEntry entry flags).Inside ↔ sgl.Inside ∧ entry.offset.toNat + entry.length.toNat ≤ fusionPageSize := by
  rw [inside_iff_last (addEntry_used room entry flags), insideButLast_addEntry, addEntry_last,
    addEntry_sl_new]

/-- The first of some runs is refused, or one of the others is once it has its entry. -/
theorem runRefused_cons {rest : List (List BioVec)} (room : sgl.numEntries < sgl.maxEntries)
    (fits : vec.past.toNat ≤ fusionPageSize) (head : vec ∈ run.head?) (entry : Scatterlist) (flags : BitVec 32) :
    sgl.RunRefused (run :: rest) ↔ (sgl.addEntry entry flags).RunRefused rest := by
  have count : (sgl.addEntry entry flags).numEntries.toNat = sgl.numEntries.toNat + 1 :=
    toNat_numEntries_add_one room
  have same : (sgl.addEntry entry flags).maxEntries = sgl.maxEntries := rfl
  simp only [RunRefused, count, same]
  constructor
  · rintro ⟨k, other, atK, refused⟩
    cases k with
    | zero =>
      cases atK
      rcases refused with full | ⟨first, isHead, long⟩
      · exact absurd room (BitVec.not_lt.mpr full)
      · rw [Option.mem_unique isHead head] at long
        exact absurd fits (Nat.not_le_of_lt long)
    | succ k => exact ⟨k, other, atK, refused.imp_left fun full => by omega⟩
  · rintro ⟨k, other, atK, refused⟩
    exact ⟨k + 1, other, atK, refused.imp_left fun full => by omega⟩

end LinuxSgl

/-- A segment that does not continue the last entry gets one of its own, or the call fails. -/
theorem kfioSglMapSegment_apart {sgl : LinuxSgl} {vec : BioVec} (apart : sgl.continues vec = false) :
    (∃ rval, kfioSglMapSegment sgl vec = (sgl, rval) ∧ rval ≠ 0 ∧
        (sgl.maxEntries ≤ sgl.numEntries ∨ fusionPageSize < vec.past.toNat)) ∨
      kfioSglMapSegment sgl vec = (sgl.addEntry ⟨vec.bvPage, vec.bvOffset, vec.bvLen⟩ 0#32, 0) ∧
        sgl.numEntries < sgl.maxEntries ∧ vec.past.toNat ≤ fusionPageSize := by
  rw [kfioSglMapSegment, if_neg (Bool.not_eq_true _ ▸ apart)]
  by_cases full : sgl.numEntries ≥ sgl.maxEntries
  · refine .inl ?_
    split
    · exact ⟨_, rfl, neg_eagain_ne_zero, .inl full⟩
    · exact ⟨_, if_pos full, neg_einval_ne_zero, .inl full⟩
  · rw [if_neg fun both => full both.2, kfioSglMapPage, if_neg full]
    by_cases long : (vec.bvOffset + vec.bvLen).toNat > fusionPageSize
    · exact .inl ⟨_, if_pos long, neg_einval_ne_zero, .inr long⟩
    · exact .inr ⟨if_neg long, BitVec.not_le.mp full, Nat.le_of_not_lt long⟩

theorem kfioSglMapSegment_continues {sgl : LinuxSgl} {vec : BioVec} (continues : sgl.continues vec = true) :
    kfioSglMapSegment sgl vec = (sgl.growLast vec.bvLen, 0) := by
  rw [kfioSglMapSegment, if_pos continues]
  rfl

namespace LinuxSgl

variable {sgl : LinuxSgl} {run segments : List BioVec}

/-- What the loop over the segments does to some runs: it fails as soon as a run is
refused, and puts each run into an entry else. -/
def LoopSpec (sgl : LinuxSgl) (segments : List BioVec) (newRuns : List (List BioVec)) (fits : Prop) : Prop :=
  (sgl.RunRefused newRuns ∧ (kfioSglMapSegments sgl segments).2 ≠ 0) ∨
    (¬ sgl.RunRefused newRuns ∧ (kfioSglMapSegments sgl segments).2 = 0 ∧
      ((kfioSglMapSegments sgl segments).1.Inside ↔ fits))

theorem splitBy_cons_head (vec : BioVec) (rest : List BioVec) :
    ∃ newRun newRuns, (vec :: rest).splitBy BioVec.continues = newRun :: newRuns ∧ vec ∈ newRun.head? := by
  have head := List.head_head_splitBy BioVec.continues (List.cons_ne_nil vec rest)
  cases split : (vec :: rest).splitBy BioVec.continues with
  | nil => exact absurd (List.splitBy_eq_nil.mp split) (List.cons_ne_nil vec rest)
  | cons newRun newRuns =>
    refine ⟨newRun, newRuns, rfl, ?_⟩
    simp only [split, List.head_cons] at head
    rw [← head]
    exact List.head_mem_head? _

/-- A segment that starts a run of its own. The loop goes on as it does behind the new entry. -/
theorem LoopSpec.apart {vec : BioVec} {rest : List BioVec} (apart : sgl.continues vec = false)
    (onward : ∀ last : LinuxSgl, last.Carries [vec] → last.LoopSpec rest
      (([vec] ++ rest).splitBy BioVec.continues).tail
      (last.InsideButLast ∧ ∀ piece ∈ ([vec] ++ rest).splitBy BioVec.continues, RunFits piece)) :
    sgl.LoopSpec (vec :: rest) ((vec :: rest).splitBy BioVec.continues)
      (sgl.Inside ∧ ∀ piece ∈ (vec :: rest).splitBy BioVec.continues, RunFits piece) := by
  obtain ⟨newRun, newRuns, split, head⟩ := splitBy_cons_head vec rest
  rw [List.singleton_append, split, List.tail_cons] at onward
  rw [split]
  rcases kfioSglMapSegment_apart apart with ⟨rval, ran, failed, refused⟩ | ⟨ran, room, short⟩
  · have full : sgl.maxEntries.toNat ≤ sgl.numEntries.toNat + 0 ∨ ∃ first ∈ newRun.head?,
        fusionPageSize < first.past.toNat :=
      refused.imp id fun long => ⟨vec, head, long⟩
    refine .inl ⟨⟨0, newRun, rfl, full⟩, ?_⟩
    simp only [kfioSglMapSegments, ran, if_pos failed]
    exact failed
  · have spec := onward _ (carries_addEntry room vec 0#32)
    rw [insideButLast_addEntry] at spec
    rw [LoopSpec, kfioSglMapSegments, ran, runRefused_cons room short head]
    exact spec

theorem Carries.loopSpec (carries : sgl.Carries run) : sgl.LoopSpec segments
    ((run ++ segments).splitBy BioVec.continues).tail
    (sgl.InsideButLast ∧ ∀ piece ∈ (run ++ segments).splitBy BioVec.continues, RunFits piece) := by
  induction segments generalizing sgl run with
  | nil =>
    rw [List.append_nil, List.splitBy_of_isChain carries.ne_nil carries.chain, List.tail_cons,
      List.forall_mem_singleton]
    refine .inr ⟨?_, rfl, carries.inside_iff⟩
    rintro ⟨k, piece, atK, _⟩
    cases atK
  | cons vec rest ih =>
    cases continues : sgl.continues vec with
    | true =>
      have onward := ih (carries.growLast continues)
      rw [List.append_assoc, List.singleton_append, insideButLast_growLast] at onward
      rw [LoopSpec, kfioSglMapSegments, kfioSglMapSegment_continues continues]
      exact onward
    | false =>
      have apart : ∀ other ∈ run.getLast?, other.continues vec = false := fun other isLast => by
        rw [← carries.continues_iff isLast, continues]
      rw [List.splitBy_append_cons rest apart, List.splitBy_of_isChain carries.ne_nil carries.chain,
        List.singleton_append, List.tail_cons, List.forall_mem_cons, ← and_assoc, ← carries.inside_iff]
      exact .apart continues fun _ => ih

/-- The last entry in use is a run of one piece. -/
theorem carries_last (used : 0#32 < sgl.numEntries) :
    sgl.Carries [⟨(sgl.sl sgl.last).page, (sgl.sl sgl.last).length, (sgl.sl sgl.last).offset⟩] :=
  ⟨used, List.isChain_singleton _, ⟨_, rfl, rfl⟩, ⟨_, rfl, rfl, rfl⟩⟩

theorem loopSpec (inside : sgl.Inside) (segments : List BioVec) :
    sgl.LoopSpec segments (sgl.newRuns segments) (∀ piece ∈ sgl.runs segments, RunFits piece) := by
  by_cases used : 0#32 < sgl.numEntries
  · have spec : sgl.LoopSpec segments _ _ := (carries_last used).loopSpec
    rw [newRuns, if_pos used, runs, pieces, if_pos used]
    simpa only [((inside_iff_last used).mp inside).1, true_and, List.singleton_append] using spec
  · rw [newRuns, if_neg used, runs, pieces, if_neg used]
    cases segments with
    | nil =>
      refine .inr ⟨?_, rfl, iff_of_true inside ?_⟩
      · rintro ⟨k, piece, atK, _⟩
        cases atK
      · intro piece member
        cases member
    | cons vec rest =>
      have apart : sgl.continues vec = false := by simp [continues, used]
      have spec : sgl.LoopSpec (vec :: rest) _ _ := .apart apart fun _ carries => carries.loopSpec
      simpa only [inside, true_and] using spec

theorem inside_agrees {a b : LinuxSgl} (agrees : b.Agrees a) : b.Inside ↔ a.Inside := by
  rw [Inside, Inside, agrees.numEntries]
  refine forall₂_congr fun i below => ?_
  rw [agrees.entries i below]

end LinuxSgl

theorem kfioSglMapPage_inside_iff {sgl : LinuxSgl} (inside : sgl.Inside) (page : Nat) (offset size : BitVec 32) :
    (kfioSglMapPage sgl page offset size).1.Inside ↔
      sgl.maxEntries ≤ sgl.numEntries ∨ fusionPageSize < (offset + size).toNat ∨
        offset.toNat + size.toNat < 2 ^ 32 := by
  cases ran : kfioSglMapPage sgl page offset size with
  | mk last rval =>
    have pageSize : fusionPageSize = 4096 := rfl
    unfold kfioSglMapPage at ran
    split at ran
    · rename_i full
      cases ran
      exact iff_of_true inside (.inl full)
    rename_i notFull
    have room := BitVec.not_le.mp notFull
    split at ran
    · rename_i long
      cases ran
      exact iff_of_true inside (.inr (.inl long))
    rename_i short
    have added : last = sgl.addEntry ⟨page, offset, size⟩ 0#32 := by
      cases ran
      rfl
    rw [added, LinuxSgl.inside_addEntry room, and_iff_right inside, or_iff_right notFull, or_iff_right short]
    rw [BitVec.toNat_add] at short
    dsimp only
    omega

/-- A bio that is mapped is mapped in its runs. -/
theorem kfioSglMapBio_inside_iff {sgl : LinuxSgl} (inside : sgl.Inside) (segments : List BioVec) :
    (kfioSglMapBio sgl segments).1.Inside ↔
      sgl.BioRefused segments ∨ ∀ run ∈ sgl.runs segments, RunFits run := by
  rw [kfioSglMapBio]
  split
  · rename_i many
    exact iff_of_true inside (.inl (.inl many))
  rename_i few
  rcases sgl.loopSpec inside segments with ⟨refused, failed⟩ | ⟨accepted, mapped, fits⟩
  · simp only [if_pos failed]
    rw [LinuxSgl.inside_agrees (kfioSglMapSegments_keeps (.refl sgl)).rollBack_agrees]
    exact iff_of_true inside (.inl (.inr refused))
  · have notRefused : ¬ sgl.BioRefused segments := not_or.mpr ⟨few, accepted⟩
    simp only [if_neg (not_not.mpr mapped)]
    rw [fits]
    exact (or_iff_right notRefused).symm

/-- The entries stay inside their pages unless the sum of a page's offset and size wraps,
or the merged segments of a bio go beyond the page. -/
theorem kfioSglMap_inside_iff (sgl : LinuxSgl) (inside : sgl.Inside) :
    (∀ page offset size, (kfioSglMapPage sgl page offset size).1.Inside ↔
      sgl.maxEntries ≤ sgl.numEntries ∨ fusionPageSize < (offset + size).toNat ∨
        offset.toNat + size.toNat < 2 ^ 32) ∧
      ∀ segments, (kfioSglMapBio sgl segments).1.Inside ↔
        sgl.BioRefused segments ∨ ∀ run ∈ sgl.runs segments, RunFits run :=
  ⟨kfioSglMapPage_inside_iff inside, kfioSglMapBio_inside_iff inside⟩

/-- The first half of a page is mapped, and a bio with the second half after it. -/
theorem kfioSglMap_inside_halves : ∃ sgl : LinuxSgl, sgl.numEntries = 1#32 ∧ sgl.Inside ∧
    (kfioSglMapBio sgl [⟨7, 2048#32, 2048#32⟩]).1.Inside := by
  let sgl := (kfioSglMapPage (kfioSglAllocNvec 2#32 fun _ => 0#32) 7 0#32 2048#32).1
  have inside : sgl.Inside := by decide
  refine ⟨sgl, rfl, inside, ((kfioSglMap_inside_iff sgl inside).2 _).mpr (.inr ?_)⟩
  have runs : sgl.runs [⟨7, 2048#32, 2048#32⟩] = [[⟨7, 2048#32, 0#32⟩, ⟨7, 2048#32, 2048#32⟩]] := by decide
  rw [runs, List.forall_mem_singleton]
  intro first head last final
  cases head
  cases final
  decide

/-- A span that wraps to the page size, and two segments of one page that are too long together. -/
theorem kfioSglMap_outside : (kfioSglAllocNvec 2#32 fun _ => 0#32).Inside ∧
    ¬ (kfioSglMapPage (kfioSglAllocNvec 2#32 fun _ => 0#32) 7 0xFFFFF000#32 0x2000#32).1.Inside ∧
    ¬ (kfioSglMapBio (kfioSglAllocNvec 2#32 fun _ => 0#32)
      [⟨7, 4000#32, 0#32⟩, ⟨7, 4000#32, 4000#32⟩]).1.Inside := by
  refine ⟨by decide, by decide, by decide⟩

end IomemoryVsl
