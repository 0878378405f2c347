import IomemoryVsl.ScatterBytes

namespace IomemoryVsl

/-- The entries for the first pages of a buffer. -/
def bufferEntries (pageOf : BitVec 64 → Nat) : Nat → BitVec 64 → BitVec 32 → List Scatterlist
  | 0, _, _ => []
  | pages + 1, bp, size =>
    ⟨pageOf bp, pageOffset bp, mappedBytes bp size⟩ ::
      bufferEntries pageOf pages (bp + (mappedBytes bp size).setWidth 64) (size - mappedBytes bp size)

/-- Takes entries into use, one after the other. -/
def LinuxSgl.addEntries (flags : BitVec 32) : LinuxSgl → List Scatterlist → LinuxSgl
  | sgl, [] => sgl
  | sgl, entry :: rest => (sgl.addEntry entry flags).addEntries flags rest

/-- The first address of the buffer that lies in the page of its byte `j`. -/
def firstInPage (bp : BitVec 64) (j : Nat) : BitVec 64 :=
  if j < 4096 - bp.toNat % 4096 then bp
  else bp + BitVec.ofNat 64 j - BitVec.ofNat 64 ((bp.toNat + j) % 4096)

/-- The bytes of a buffer, each as the page that was found for it and the offset in it. -/
def bufferBytes (pageOf : BitVec 64 → Nat) (bp : BitVec 64) (size : BitVec 32) : List (Nat × Nat) :=
  (List.range size.toNat).map fun j => (pageOf (firstInPage bp j), (bp.toNat + j) % 4096)

/-- How the call finds the page of an address. -/
def MemSeg.pageOf (seg : MemSeg) (systemPage : BitVec 64 → Nat) (getUserPages : BitVec 64 → Int × Nat)
    (bp : BitVec 64) : Nat :=
  if seg = .user then (getUserPages bp).2 else systemPage bp

def MemSeg.flags (seg : MemSeg) : BitVec 32 := if seg = .user then sgeUser else 0#32

section Entries

variable {pageOf : BitVec 64 → Nat} {pages : Nat} {bp : BitVec 64} {size flags : BitVec 32} {sgl : LinuxSgl}
  {entries : List Scatterlist}

theorem bufferEntries_length : (bufferEntries pageOf pages bp size).length = pages := by
  induction pages generalizing bp size with
  | zero => rfl
  | succ pages ih => rw [bufferEntries, List.length_cons, ih]

/-- No entry leaves its page. -/
theorem bufferEntries_inside : ∀ entry ∈ bufferEntries pageOf pages bp size,
    entry.offset.toNat + entry.length.toNat ≤ fusionPageSize := by
  induction pages generalizing bp size with
  | zero => exact fun entry member => absurd member List.not_mem_nil
  | succ pages ih =>
    intro entry member
    rcases List.mem_cons.mp member with rfl | member
    · have page : fusionPageSize = 4096 := rfl
      have below := Nat.mod_lt bp.toNat (show 0 < 4096 by decide)
      simp only [pageOffset_toNat, mappedBytes_toNat, page]
      omega
    · exact ih entry member

/-- A buffer that goes on behind its first page is mapped up to the end of that page. -/
theorem mappedBytes_eq_rest (more : size - mappedBytes bp size ≠ 0#32) :
    (mappedBytes bp size).toNat = 4096 - bp.toNat % 4096 := by
  have left : (size - mappedBytes bp size).toNat ≠ 0 := fun zero => more (BitVec.eq_of_toNat_eq zero)
  rw [restSize_toNat] at left
  rw [mappedBytes_toNat]
  omega

theorem firstInPage_next (more : size - mappedBytes bp size ≠ 0#32) (j : Nat) :
    firstInPage (bp + (mappedBytes bp size).setWidth 64) j = firstInPage bp ((mappedBytes bp size).toNat + j) := by
  have mapped := mappedBytes_eq_rest more
  have next := nextAddress_mod bp size
  have word : BitVec.ofNat 64 (mappedBytes bp size).toNat = (mappedBytes bp size).setWidth 64 := BitVec.ofNat_toNat ..
  rw [← mappedBytes_toNat, mapped] at next
  have behind : ¬(mappedBytes bp size).toNat + j < 4096 - bp.toNat % 4096 := by omega
  rw [firstInPage, firstInPage, if_neg behind, BitVec.ofNat_add, word, ← BitVec.add_assoc]
  generalize (bp + (mappedBytes bp size).setWidth 64) = address at *
  split
  · have place : (bp.toNat + ((mappedBytes bp size).toNat + j)) % 4096 = j := by omega
    rw [place, BitVec.add_sub_cancel]
  · have place : (bp.toNat + ((mappedBytes bp size).toNat + j)) % 4096 = (address.toNat + j) % 4096 := by omega
    rw [place]

theorem bufferBytes_next (pageOf : BitVec 64 → Nat) (bp : BitVec 64) (size : BitVec 32) : bufferBytes pageOf bp size =
    pieceBytes (pageOf bp) (pageOffset bp) (mappedBytes bp size) ++
      bufferBytes pageOf (bp + (mappedBytes bp size).setWidth 64) (size - mappedBytes bp size) := by
  have rest := restSize_toNat bp size
  have mapped := mappedBytes_toNat bp size
  have next := nextAddress_mod bp size
  have split : size.toNat = (mappedBytes bp size).toNat + (size - mappedBytes bp size).toNat := by omega
  rw [bufferBytes, split, List.range_add, List.map_append, List.map_map, pieceBytes, bufferBytes]
  refine congrArg₂ (· ++ ·) ?_ ?_
  · refine List.map_congr_left fun j member => ?_
    have below := List.mem_range.mp member
    have first : j < 4096 - bp.toNat % 4096 := by omega
    have place : (bp.toNat + j) % 4096 = bp.toNat % 4096 + j := by omega
    rw [firstInPage, if_pos first, place, pageOffset_toNat]
  · refine List.map_congr_left fun j member => ?_
    have below := List.mem_range.mp member
    have more : size - mappedBytes bp size ≠ 0#32 := by
      intro done
      rw [done] at below
      exact absurd below (Nat.not_lt_zero j)
    have place : (bp.toNat + ((mappedBytes bp size).toNat + j)) % 4096 =
        ((bp + (mappedBytes bp size).setWidth 64).toNat + j) % 4096 := by
      rw [← mapped] at next
      omega
    rw [Function.comp_apply, ← firstInPage_next more, place]

/-- The entries for all pages of a buffer describe its bytes. -/
theorem bufferEntries_bytes (spanned : pages = pagesSpanned bp size) :
    (bufferEntries pageOf pages bp size).flatMap Scatterlist.bytes = bufferBytes pageOf bp size := by
  induction pages generalizing bp size with
  | zero =>
    have none : size = 0#32 := by
      by_contra some
      rw [pagesSpanned_next bp some] at spanned
      omega
    rw [none]
    rfl
  | succ pages ih =>
    have some : size ≠ 0#32 := by
      intro none
      rw [pagesSpanned, if_pos none] at spanned
      omega
    rw [pagesSpanned_next bp some, Nat.add_right_cancel_iff] at spanned
    rw [bufferEntries, List.flatMap_cons, ih spanned, bufferBytes_next pageOf bp, Scatterlist.bytes]

/-- What entries that fit make of a list. -/
structure AddedEntries (sgl last : LinuxSgl) (entries : List Scatterlist) : Prop where
  maxEntries : last.maxEntries = sgl.maxEntries
  numEntries : last.numEntries.toNat = sgl.numEntries.toNat + entries.length
  sglSize : last.sglSize = sgl.sglSize + BitVec.ofNat 32 (entries.flatMap Scatterlist.bytes).length
  old : ∀ i < sgl.numEntries.toNat, last.sl i = sgl.sl i
  new : (List.range' sgl.numEntries.toNat entries.length).map last.sl = entries

theorem LinuxSgl.addEntries_added (fits : ∀ j < entries.length, sgl.numEntries.toNat + j < sgl.maxEntries.toNat) :
    AddedEntries sgl (sgl.addEntries flags entries) entries := by
  induction entries generalizing sgl with
  | nil => exact ⟨rfl, rfl, (BitVec.add_zero _).symm, fun _ _ => rfl, rfl⟩
  | cons entry rest ih =>
    have room : sgl.numEntries < sgl.maxEntries := fits 0 (Nat.succ_pos _)
    have count : (sgl.addEntry entry flags).numEntries.toNat = sgl.numEntries.toNat + 1 :=
      LinuxSgl.toNat_numEntries_add_one room
    have later (j : Nat) (below : j < rest.length) :
        (sgl.addEntry entry flags).numEntries.toNat + j < (sgl.addEntry entry flags).maxEntries.toNat := by
      have behind := fits (j + 1) (Nat.succ_lt_succ below)
      rw [count]
      exact lt_of_eq_of_lt (by omega) behind
    have added := ih later
    refine ⟨added.maxEntries, ?_, ?_, fun i below => ?_, ?_⟩
    · rw [LinuxSgl.addEntries, added.numEntries, count, List.length_cons]
      omega
    · have length : entry.bytes.length = entry.length.toNat := pieceBytes_length ..
      rw [LinuxSgl.addEntries, added.sglSize, List.flatMap_cons, List.length_append, length, BitVec.ofNat_add,
        BitVec.ofNat_toNat, BitVec.setWidth_eq, LinuxSgl.addEntry, BitVec.add_assoc]
    · rw [LinuxSgl.addEntries, added.old i (by omega), LinuxSgl.addEntry_sl_old _ _ _ below.ne]
    · rw [LinuxSgl.addEntries, List.length_cons, List.range'_succ, List.map_cons,
        added.old sgl.numEntries.toNat (by omega), LinuxSgl.addEntry_sl_new]
      congr 1
      have new := added.new
      rw [count] at new
      exact new

end Entries

section Loop

variable {env : SglEnv} {systemPage : BitVec 64 → Nat} {seg : MemSeg} {getUserPages : BitVec 64 → Int × Nat}
  {oldNum fuel : Nat} {sgl : LinuxSgl} {bp : BitVec 64} {size : BitVec 32}

/-- The list after the first pages of the buffer are entered. -/
def afterPages (systemPage : BitVec 64 → Nat) (seg : MemSeg) (getUserPages : BitVec 64 → Int × Nat) (sgl : LinuxSgl)
    (bp : BitVec 64) (size : BitVec 32) (pages : Nat) : LinuxSgl :=
  sgl.addEntries seg.flags (bufferEntries (seg.pageOf systemPage getUserPages) pages bp size)

/-- What ends the loop of `kfio_sgl_map_bytes_gen` when it has come behind some pages:
the end of the buffer, a full list, or a page that cannot be had. -/
inductive LoopStop (env : SglEnv) (systemPage : BitVec 64 → Nat) (seg : MemSeg)
    (getUserPages : BitVec 64 → Int × Nat) (sgl : LinuxSgl) (bp : BitVec 64) (size : BitVec 32) (pages : Nat) :
    LinuxSgl → Int → Prop
  | done : pages = pagesSpanned bp size →
      LoopStop env systemPage seg getUserPages sgl bp size pages
        (afterPages systemPage seg getUserPages sgl bp size pages) 0
  | full : pages < pagesSpanned bp size → sgl.maxEntries.toNat ≤ sgl.numEntries.toNat + pages →
      LoopStop env systemPage seg getUserPages sgl bp size pages
        ((afterPages systemPage seg getUserPages sgl bp size pages).clearFlags env) (-enomem)
  | failed : pages < pagesSpanned bp size → sgl.numEntries.toNat + pages < sgl.maxEntries.toNat → seg = .user →
      (getUserPages (pageAddress bp pages)).1 ≤ 0 →
      LoopStop env systemPage seg getUserPages sgl bp size pages
        ((afterPages systemPage seg getUserPages sgl bp size pages).clearFlags env)
        (getUserPages (pageAddress bp pages)).1

structure LoopEnds (env : SglEnv) (systemPage : BitVec 64 → Nat) (seg : MemSeg)
    (getUserPages : BitVec 64 → Int × Nat) (sgl : LinuxSgl) (bp : BitVec 64) (size : BitVec 32) (pages : Nat)
    (last : LinuxSgl) (rc : Int) : Prop where
  pinned : PagesPinned seg getUserPages bp pages
  room : ∀ j < pages, sgl.numEntries.toNat + j < sgl.maxEntries.toNat
  stop : LoopStop env systemPage seg getUserPages sgl bp size pages last rc

theorem LoopStop.spanned {pages : Nat} {last : LinuxSgl} {rc : Int}
    (stop : LoopStop env systemPage seg getUserPages sgl bp size pages last rc) : pages ≤ pagesSpanned bp size := by
  cases stop with
  | done all => exact all.le
  | full below _ => exact below.le
  | failed below _ _ _ => exact below.le

/-- One page more in front. -/
theorem LoopEnds.cons {pages : Nat} {last : LinuxSgl} {rc : Int} (some : size ≠ 0#32)
    (room : sgl.numEntries < sgl.maxEntries) (pinned : seg = .user → 0 < (getUserPages bp).1)
    (onward : LoopEnds env systemPage seg getUserPages
      (sgl.addEntry ⟨seg.pageOf systemPage getUserPages bp, pageOffset bp, mappedBytes bp size⟩ seg.flags)
      (bp + (mappedBytes bp size).setWidth 64) (size - mappedBytes bp size) pages last rc) :
    LoopEnds env systemPage seg getUserPages sgl bp size (pages + 1) last rc := by
  obtain ⟨all, fits, stop⟩ := onward
  have next := pagesSpanned_next bp some
  have spanned := stop.spanned
  have later {j : Nat} (below : j < pagesSpanned (bp + (mappedBytes bp size).setWidth 64) (size - mappedBytes bp size)) :
      pageAddress bp (j + 1) = pageAddress (bp + (mappedBytes bp size).setWidth 64) j := by
    refine pageAddress_next (fun done => ?_) j
    rw [pagesSpanned, if_pos done] at below
    exact absurd below (Nat.not_lt_zero j)
  simp only [LinuxSgl.addEntry, LinuxSgl.toNat_numEntries_add_one room] at fits
  refine ⟨?_, ?_, ?_⟩
  · intro user j below
    cases j with
    | zero => exact pinned user
    | succ j =>
      rw [later (by omega)]
      exact all user j (by omega)
  · intro j below
    cases j with
    | zero => exact room
    | succ j =>
      have fit := fits j (by omega)
      omega
  · cases stop with
    | done whole => exact .done (by omega)
    | full below full =>
      simp only [LinuxSgl.addEntry, LinuxSgl.toNat_numEntries_add_one room] at full
      exact .full (by omega) (by omega)
    | failed below free user error =>
      simp only [LinuxSgl.addEntry, LinuxSgl.toNat_numEntries_add_one room] at free
      rw [← later below] at error ⊢
      exact .failed (by omega) (by omega) user error

theorem mapBytesLoop_ends {result : LinuxSgl × List PageEvent × Int}
    (ran : mapBytesLoop env systemPage seg getUserPages oldNum fuel sgl bp size = some result) :
    ∃ pages, LoopEnds env systemPage seg getUserPages sgl bp size pages result.1 result.2.2 := by
  induction fuel generalizing sgl bp size result with
  | zero => cases ran
  | succ fuel ih =>
    have nothing : PagesPinned seg getUserPages bp 0 := fun _ j below => absurd below (Nat.not_lt_zero j)
    have free (j : Nat) (below : j < 0) : sgl.numEntries.toNat + j < sgl.maxEntries.toNat :=
      absurd below (Nat.not_lt_zero j)
    have pending (some : size ≠ 0#32) : 0 < pagesSpanned bp size := by
      rw [pagesSpanned_next bp some]
      omega
    cases mapBytesLoop_round ran with
    | mapped none =>
      refine ⟨0, nothing, free, .done ?_⟩
      rw [pagesSpanned, if_pos none]
    | full some full => exact ⟨0, nothing, free, .full (pending some) full⟩
    | failed some room user error => exact ⟨0, nothing, free, .failed (pending some) (BitVec.not_le.mp room) user error⟩
    | system some room system onward =>
      subst system
      obtain ⟨pages, ends⟩ := ih onward
      exact ⟨pages + 1, ends.cons some (BitVec.not_le.mp room) fun user => by cases user⟩
    | user some room user pinned onward =>
      subst user
      obtain ⟨pages, ends⟩ := ih onward
      exact ⟨pages + 1, ends.cons some (BitVec.not_le.mp room) fun _ => pinned⟩

/-- Every call comes to an end. -/
theorem kfioSglMapBytesGen_isSome (env : SglEnv) (sgl : LinuxSgl) (buffer : BitVec 64) (size : BitVec 32)
    (seg : MemSeg) (getUserPages : BitVec 64 → Int × Nat) :
    (kfioSglMapBytesGen env sgl buffer size seg getUserPages).isSome = true := by
  by_cases fits : sgl.numEntries ≤ sgl.maxEntries
  · exact mapBytesLoop_isSome fits (Nat.lt_succ_self _)
  · have full : sgl.numEntries ≥ sgl.maxEntries := BitVec.le_of_lt (BitVec.not_le.mp fits)
    rw [kfioSglMapBytesGen, mapBytesLoop, if_pos full]
    split <;> rfl

end Loop

/-- All pages of the buffer are entered behind the entries from before. -/
structure WholeBuffer (pageOf : BitVec 64 → Nat) (buffer : BitVec 64) (size : BitVec 32) (sgl last : LinuxSgl) :
    Prop where
  pages : last.numEntries.toNat = sgl.numEntries.toNat + pagesSpanned buffer size
  bytes : ((List.range' sgl.numEntries.toNat (pagesSpanned buffer size)).flatMap fun i => (last.sl i).bytes) =
    bufferBytes pageOf buffer size
  inside : ∀ i, sgl.numEntries.toNat ≤ i → i < last.numEntries.toNat →
    (last.sl i).offset.toNat + (last.sl i).length.toNat ≤ fusionPageSize
  old : ∀ i < sgl.numEntries.toNat, last.sl i = sgl.sl i
  size : last.sglSize = sgl.sglSize + size

section Whole

variable {env : SglEnv} {systemPage : BitVec 64 → Nat} {seg : MemSeg} {getUserPages : BitVec 64 → Int × Nat}
  {sgl : LinuxSgl} {bp : BitVec 64} {size : BitVec 32} {pages : Nat}

theorem afterPages_added (room : ∀ j < pages, sgl.numEntries.toNat + j < sgl.maxEntries.toNat) :
    AddedEntries sgl (afterPages systemPage seg getUserPages sgl bp size pages)
      (bufferEntries (seg.pageOf systemPage getUserPages) pages bp size) := by
  refine LinuxSgl.addEntries_added fun j below => ?_
  rw [bufferEntries_length] at below
  exact room j below

theorem numEntries_afterPages (room : ∀ j < pages, sgl.numEntries.toNat + j < sgl.maxEntries.toNat) :
    (afterPages systemPage seg getUserPages sgl bp size pages).numEntries.toNat = sgl.numEntries.toNat + pages := by
  rw [(afterPages_added room).numEntries, bufferEntries_length]

theorem afterPages_wholeBuffer (room : ∀ j < pagesSpanned bp size, sgl.numEntries.toNat + j < sgl.maxEntries.toNat) :
    WholeBuffer (seg.pageOf systemPage getUserPages) bp size sgl
      (afterPages systemPage seg getUserPages sgl bp size (pagesSpanned bp size)) := by
  have added : AddedEntries sgl (afterPages systemPage seg getUserPages sgl bp size (pagesSpanned bp size)) _ :=
    afterPages_added room
  have count : (afterPages systemPage seg getUserPages sgl bp size (pagesSpanned bp size)).numEntries.toNat = _ :=
    numEntries_afterPages room
  obtain ⟨_, _, sglSize, old, new⟩ := added
  rw [bufferEntries_length] at new
  rw [bufferEntries_bytes rfl, bufferBytes, List.length_map, List.length_range, BitVec.ofNat_toNat,
    BitVec.setWidth_eq] at sglSize
  refine ⟨count, ?_, fun i lower upper => ?_, old, sglSize⟩
  · rw [← bufferEntries_bytes rfl, ← new, List.flatMap_map]
  · rw [count] at upper
    have member : (afterPages systemPage seg getUserPages sgl bp size (pagesSpanned bp size)).sl i ∈
        bufferEntries (seg.pageOf systemPage getUserPages) (pagesSpanned bp size) bp size := by
      rw [← new]
      exact List.mem_map_of_mem (List.mem_range'_1.mpr ⟨lower, upper⟩)
    exact bufferEntries_inside _ member

end Whole

/-- The call maps a user buffer and `get_user_pages_fast` gives 0 for a page that
there is still an entry for. -/
def ZeroPages (sgl : LinuxSgl) (buffer : BitVec 64) (size : BitVec 32) (seg : MemSeg)
    (getUserPages : BitVec 64 → Int × Nat) : Prop :=
  seg = .user ∧ ∃ j < pagesSpanned buffer size, sgl.numEntries.toNat + j < sgl.maxEntries.toNat ∧
    PagesPinned .user getUserPages buffer j ∧ (getUserPages (pageAddress buffer j)).1 = 0

/-- The call comes to an end, and if it returns 0 then the whole buffer is mapped,
exactly when `get_user_pages_fast` does not give 0. -/
theorem kfio_sgl_map_bytes_gen_whole (env : SglEnv) (sgl : LinuxSgl) (buffer : BitVec 64) (size : BitVec 32)
    (seg : MemSeg) (getUserPages : BitVec 64 → Int × Nat) :
    (∃ last events rc, kfioSglMapBytesGen env sgl buffer size seg getUserPages = some (last, events, rc) ∧
      (rc = 0 → WholeBuffer (seg.pageOf (env.systemPage buffer) getUserPages) buffer size sgl last)) ↔
    ¬ZeroPages sgl buffer size seg getUserPages := by
  obtain ⟨⟨last, events, rc⟩, ran⟩ := Option.isSome_iff_exists.mp
    (kfioSglMapBytesGen_isSome env sgl buffer size seg getUserPages)
  have ends : ∃ pages, LoopEnds env (env.systemPage buffer) seg getUserPages sgl buffer size pages last rc :=
    mapBytesLoop_ends ran
  obtain ⟨pages, pinned, room, stop⟩ := ends
  -- the pages before the one where the loop stops could all be had
  have early {j : Nat} (user : seg = .user) (below : j < pages) : (getUserPages (pageAddress buffer j)).1 ≠ 0 :=
    (pinned user j below).ne'
  have result :
      (∃ last events rc, kfioSglMapBytesGen env sgl buffer size seg getUserPages = some (last, events, rc) ∧
        (rc = 0 → WholeBuffer (seg.pageOf (env.systemPage buffer) getUserPages) buffer size sgl last)) ↔
      (rc = 0 → WholeBuffer (seg.pageOf (env.systemPage buffer) getUserPages) buffer size sgl last) := by
    constructor
    · rintro ⟨_, _, _, again, whole⟩
      rw [ran] at again
      cases again
      exact whole
    · exact fun whole => ⟨last, events, rc, ran, whole⟩
  rw [result]
  cases stop with
  | done all =>
    subst all
    refine iff_of_true (fun _ => afterPages_wholeBuffer room) ?_
    rintro ⟨user, j, below, _, _, zero⟩
    exact early user below zero
  | full below full =>
    refine iff_of_true (fun zero => absurd zero (by decide)) ?_
    rintro ⟨user, j, _, free, _, zero⟩
    exact early user (by omega) zero
  | failed below free user error =>
    by_cases zero : (getUserPages (pageAddress buffer pages)).1 = 0
    · refine iff_of_false (fun whole => ?_) (not_not.mpr ⟨user, pages, below, free, user ▸ pinned, zero⟩)
      have count := (whole zero).pages
      rw [LinuxSgl.numEntries_clearFlags, numEntries_afterPages room] at count
      omega
    · refine iff_of_true (fun nothing => absurd nothing zero) ?_
      rintro ⟨_, j, _, _, all, none⟩
      rcases lt_trichotomy j pages with before | same | behind
      · exact early user before none
      · exact zero (same ▸ none)
      · have positive := all rfl pages behind
        omega

/-- The only page of a buffer of one byte cannot be had, and the call returns 0. -/
theorem kfio_sgl_map_bytes_gen_zero :
    let env : SglEnv := ⟨0#64, 0#64, fun _ => 0, fun _ => 0, id⟩
    let sgl := kfioSglAllocNvec 2#32 fun _ => 0#32
    let getUserPages : BitVec 64 → Int × Nat := fun _ => (0, 0)
    ¬∃ last events rc, kfioSglMapBytesGen env sgl 4096#64 1#32 .user getUserPages = some (last, events, rc) ∧
      (rc = 0 → WholeBuffer (MemSeg.user.pageOf (env.systemPage 4096#64) getUserPages) 4096#64 1#32 sgl last) := by
  intro env sgl getUserPages
  rintro ⟨last, events, rc, ran, whole⟩
  have value : kfioSglMapBytesGen env sgl 4096#64 1#32 .user getUserPages = some (sgl.clearFlags env, [], 0) := rfl
  rw [value] at ran
  cases ran
  have pages := (whole rfl).pages
  rw [LinuxSgl.numEntries_clearFlags] at pages
  exact absurd pages (by decide)

end IomemoryVsl
