import IomemoryVsl.ScatterSound

namespace IomemoryVsl

/-- User pages are released at most as often as they were pinned, and after a
reset exactly as often. -/
structure PinsBalance (history : List PageEvent) : Prop where
  covered : ∀ past, past <+: history → ∀ page, past.count (.released page) ≤ past.count (.pinned page)
  reset : Transition.Historical (fun past event => event = .reset →
    ∀ page, past.count (.released page) = past.count (.pinned page)) history

/-- Releases that earlier pins pay for, whatever comes between. -/
theorem covered_append {history events : List PageEvent}
    (covered : ∀ past, past <+: history → ∀ page, past.count (.released page) ≤ past.count (.pinned page))
    (paid : ∀ page, history.count (.released page) + events.count (.released page) ≤ history.count (.pinned page)) :
    ∀ past, past <+: history ++ events → ∀ page, past.count (.released page) ≤ past.count (.pinned page) := by
  rintro past ⟨rest, split⟩ page
  rcases List.append_eq_append_iff.mp split with ⟨middle, rfl, _⟩ | ⟨part, rfl, rfl⟩
  · exact covered past (List.prefix_append _ _) page
  · have total := paid page
    simp only [List.count_append] at total ⊢
    omega

namespace LinuxSgl

variable {env : SglEnv} {sgl last : LinuxSgl} {action : SglAction} {history events : List PageEvent} {page : Nat}

/-- The entry holds a pin on the page. -/
def tags (sgl : LinuxSgl) (page i : Nat) : Bool :=
  decide (sgl.sgeFlags i &&& sgeUser ≠ 0#32) && decide ((sgl.sl i).page = page)

/-- The pins on the page that the entries in use hold. -/
def tagged (sgl : LinuxSgl) (page : Nat) : Nat := (List.range sgl.numEntries.toNat).countP (sgl.tags page)

theorem tags_congr {a b : LinuxSgl} {i : Nat} (flags : b.sgeFlags i &&& sgeUser = a.sgeFlags i &&& sgeUser)
    (pages : (b.sl i).page = (a.sl i).page) : b.tags page i = a.tags page i := by
  rw [tags, tags, flags, pages]

theorem tagged_congr {a b : LinuxSgl} (same : b.numEntries = a.numEntries)
    (tags : ∀ i < a.numEntries.toNat, b.tags page i = a.tags page i) : b.tagged page = a.tagged page := by
  rw [tagged, tagged, same]
  refine List.countP_congr fun i member => ?_
  rw [tags i (List.mem_range.mp member)]

theorem tagged_agrees {a b : LinuxSgl} (agrees : b.Agrees a) : b.tagged page = a.tagged page := by
  refine tagged_congr agrees.numEntries fun i below => ?_
  rw [tags, tags, agrees.entries i below, agrees.flags i below]

theorem tagged_addEntry (entry : Scatterlist) (flags : BitVec 32) (room : sgl.numEntries < sgl.maxEntries) :
    (sgl.addEntry entry flags).tagged page =
      sgl.tagged page + if flags &&& sgeUser ≠ 0#32 ∧ entry.page = page then 1 else 0 := by
  have next : (sgl.addEntry entry flags).numEntries.toNat = sgl.numEntries.toNat + 1 := toNat_numEntries_add_one room
  rw [tagged, next, List.range_succ, List.countP_append, List.countP_singleton]
  congr 1
  · refine List.countP_congr fun i member => ?_
    have below : i ≠ sgl.numEntries.toNat := (List.mem_range.mp member).ne
    simp only [tags, addEntry, Function.update_of_ne below]
  · simp only [tags, addEntry, Function.update_self, Bool.and_eq_true, decide_eq_true_eq]

theorem tagged_growLast (bytes : BitVec 32) : (sgl.growLast bytes).tagged page = sgl.tagged page := by
  refine tagged_congr rfl fun i _ => ?_
  refine tags_congr rfl ?_
  by_cases same : i = sgl.last
  · rw [same, growLast_sl_last]
  · rw [growLast_sl_other _ _ same]

/-- Mapping something pins exactly the pages of the entries it tags. -/
theorem Moves.tagged {a b : LinuxSgl} (moves : a.Moves events b) (page : Nat) :
    b.tagged page = a.tagged page + events.count (.pinned page) := by
  induction moves with
  | same agrees => exact tagged_agrees agrees
  | @system a b entry events room _ ih =>
    have plain : ¬(0#32 &&& sgeUser ≠ 0#32 ∧ entry.page = page) := fun both => both.1 rfl
    rw [ih, tagged_addEntry entry 0#32 room, if_neg plain, Nat.add_zero]
  | @user a b entry events room _ ih =>
    have user : (sgeUser &&& sgeUser ≠ 0#32 ∧ entry.page = page) ↔ entry.page = page := by
      simp [sgeUser]
    rw [ih, tagged_addEntry entry sgeUser room, List.count_cons]
    simp only [user, beq_iff_eq, PageEvent.pinned.injEq]
    omega
  | grow some _ ih => rw [ih, tagged_growLast]

theorem Moves.not_released {a b : LinuxSgl} (moves : a.Moves events b) (page : Nat) :
    events.count (.released page) = 0 := by
  induction moves with
  | same => rfl
  | system _ _ ih | grow _ _ ih => exact ih
  | user _ _ ih =>
    rw [List.count_cons_of_ne (by simp)]
    exact ih

theorem Moves.not_reset {a b : LinuxSgl} (moves : a.Moves events b) : .reset ∉ events := by
  induction moves with
  | same => simp
  | system _ _ ih | grow _ _ ih => exact ih
  | user _ _ ih => simpa using ih

/-- The entries that are still free. -/
def room (sgl : LinuxSgl) : Nat := (sgl.maxEntries - sgl.numEntries).toNat

/-- The call maps a user buffer, and `get_user_pages_fast` fails when the call has
pinned some pages already. -/
def FailsMidway (sgl : LinuxSgl) : SglAction → Prop
  | .mapBytes buffer size .user getUserPages =>
    ∃ k < min sgl.room (pagesSpanned buffer size), 0 < k ∧ PagesPinned .user getUserPages buffer k ∧
      (getUserPages (pageAddress buffer k)).1 ≤ 0
  | _ => False

/-- The call maps a buffer for which the entries do not suffice, and the store
behind the last flags makes another page of the first scatterlist. -/
def Overruns (env : SglEnv) (sgl : LinuxSgl) : SglAction → Prop
  | .mapBytes buffer size seg getUserPages =>
    let first := sgl.firstPage (if seg = .user then (getUserPages buffer).2 else env.systemPage buffer buffer)
    0#32 < sgl.maxEntries ∧ sgl.room < pagesSpanned buffer size ∧
      PagesPinned seg getUserPages buffer sgl.room ∧ env.overrun first ≠ first
  | _ => False

instance (seg : MemSeg) (getUserPages : BitVec 64 → Int × Nat) (bp : BitVec 64) (pages : Nat) :
    Decidable (PagesPinned seg getUserPages bp pages) :=
  inferInstanceAs (Decidable (seg = .user → ∀ j < pages, 0 < (getUserPages (pageAddress bp j)).1))

instance (sgl : LinuxSgl) : (action : SglAction) → Decidable (sgl.FailsMidway action)
  | .mapBytes buffer size .user getUserPages =>
    inferInstanceAs (Decidable (∃ k < min sgl.room (pagesSpanned buffer size),
      0 < k ∧ PagesPinned .user getUserPages buffer k ∧ (getUserPages (pageAddress buffer k)).1 ≤ 0))
  | .mapBytes _ _ .system _ | .mapPage .. | .mapBio _ | .dmaMap .. | .dmaUnmap | .reset =>
    inferInstanceAs (Decidable False)

instance (env : SglEnv) (sgl : LinuxSgl) : (action : SglAction) → Decidable (sgl.Overruns env action)
  | .mapBytes buffer size seg getUserPages =>
    inferInstanceAs (Decidable (0#32 < sgl.maxEntries ∧ sgl.room < pagesSpanned buffer size ∧
      PagesPinned seg getUserPages buffer sgl.room ∧
      env.overrun (sgl.firstPage (if seg = .user then (getUserPages buffer).2 else env.systemPage buffer buffer)) ≠
        sgl.firstPage (if seg = .user then (getUserPages buffer).2 else env.systemPage buffer buffer)))
  | .mapPage .. | .mapBio _ | .dmaMap .. | .dmaUnmap | .reset => inferInstanceAs (Decidable False)

/-- The call does not meet one of the two slips. -/
def PinsKept (env : SglEnv) (sgl : LinuxSgl) (action : SglAction) : Prop :=
  ¬sgl.FailsMidway action ∧ ¬sgl.Overruns env action

theorem room_eq (sound : sgl.Sound) : sgl.room + sgl.numEntries.toNat = sgl.maxEntries.toNat := by
  have entries := sound.entries
  rw [room]
  bv_omega

/-- A store to flags behind the entries in use changes no pin. -/
theorem tagged_clearFlags (kept : sgl.numEntries < sgl.maxEntries ∨ sgl.numEntries = 0#32 ∨
    env.overrun (sgl.sl 0).page = (sgl.sl 0).page) : (sgl.clearFlags env).tagged page = sgl.tagged page := by
  refine tagged_congr numEntries_clearFlags fun i below => ?_
  unfold clearFlags
  split
  · rename_i full
    rcases kept with room | empty | same
    · exact absurd full (BitVec.not_le.mpr room)
    · rw [empty] at below
      exact absurd below (Nat.not_lt_zero i)
    · simp only [tags, same, Function.update_eq_self]
  · have other : i ≠ sgl.numEntries.toNat := below.ne
    simp only [tags, Function.update_of_ne other]

/-- A call that maps bytes pins what it tags and releases nothing, unless it meets
one of the two slips. -/
theorem mapBytes_pins {buffer : BitVec 64} {size : BitVec 32} {seg : MemSeg} {getUserPages : BitVec 64 → Int × Nat}
    {result : LinuxSgl × List PageEvent × Int} (sound : sgl.Sound)
    (kept : sgl.PinsKept env (.mapBytes buffer size seg getUserPages))
    (ran : kfioSglMapBytesGen env sgl buffer size seg getUserPages = some result) :
    (∀ page, result.1.tagged page = sgl.tagged page + result.2.1.count (.pinned page)) ∧
      (∀ page, result.2.1.count (.released page) = 0) ∧ .reset ∉ result.2.1 := by
  have total := room_eq sound
  cases mapBytesLoop_outcome ran with
  | mapped moves => exact ⟨moves.tagged, moves.not_released, moves.not_reset⟩
  | @full b pins pages moves entered same full pending all first =>
    refine ⟨fun page => ?_, moves.not_released, moves.not_reset⟩
    rw [← moves.tagged page]
    apply tagged_clearFlags
    have bound := (sound.moves moves).entries
    have free : pages = sgl.room := by
      rw [same] at full bound
      bv_omega
    by_cases empty : b.numEntries = 0#32
    · exact .inr (.inl empty)
    · refine .inr (.inr ?_)
      by_contra moved
      rw [first empty] at moved
      refine kept.2 ⟨?_, ?_, ?_, moved⟩
      · rw [same] at bound
        bv_omega
      · rw [← free]
        exact pending
      · rw [← free]
        exact all
  | @failed b pins retval pages moves entered same left pending all user error =>
    subst user
    have few : pages < sgl.room := by
      rw [same] at left
      bv_omega
    have none : pages = 0 := by
      by_contra some
      exact kept.1 ⟨pages, lt_min few pending, Nat.pos_of_ne_zero some, all, error⟩
    have nothing : b.numEntries.toNat - sgl.numEntries.toNat = 0 := by omega
    rw [nothing, List.range'_zero, List.map_nil, List.append_nil]
    refine ⟨fun page => ?_, moves.not_released, moves.not_reset⟩
    rw [← moves.tagged page]
    exact tagged_clearFlags (.inl left)

theorem readMapped_user (flags : BitVec 32) : (flags ||| sgeReadMapped) &&& sgeUser = flags &&& sgeUser := by
  rw [BitVec.and_or_distrib_right]
  exact BitVec.or_zero

theorem tagged_dmaMap (dir : DmaDir) (mapped : BitVec 32) :
    (kfioSglDmaMap sgl dir mapped).1.tagged page = sgl.tagged page := by
  unfold kfioSglDmaMap
  dsimp only
  have marked (i : Nat) :
      (if dir = DmaDir.read ∧ i < sgl.numEntries.toNat then sgl.sgeFlags i ||| sgeReadMapped
        else sgl.sgeFlags i) &&& sgeUser = sgl.sgeFlags i &&& sgeUser := by
    split
    · exact readMapped_user _
    · rfl
  split
  · exact tagged_congr rfl fun i _ => tags_congr (marked i) rfl
  · exact tagged_congr rfl fun i _ => tags_congr (marked i) rfl

theorem unmapEntry_counts (sgl : LinuxSgl) (page i : Nat) :
    (unmapEntry sgl i).count (.released page) = (if sgl.tags page i = true then 1 else 0) ∧
      (unmapEntry sgl i).count (.pinned page) = 0 ∧ .reset ∉ unmapEntry sgl i := by
  unfold unmapEntry tags
  split
  · rename_i user
    split
    · simp [List.count_cons, user]
    · simp [List.count_cons, user]
  · rename_i plain
    simp [plain]

/-- The reset releases each page as often as the entries in use are tagged with it. -/
theorem kfioSglUnmap_counts (sgl : LinuxSgl) (page : Nat) :
    (kfioSglUnmap sgl).count (.released page) = sgl.tagged page ∧ (kfioSglUnmap sgl).count (.pinned page) = 0 ∧
      .reset ∉ kfioSglUnmap sgl := by
  rw [kfioSglUnmap, tagged]
  induction List.range sgl.numEntries.toNat with
  | nil => simp
  | cons i rest ih =>
    obtain ⟨released, pinned, reset⟩ := unmapEntry_counts sgl page i
    obtain ⟨restReleased, restPinned, restReset⟩ := ih
    refine ⟨?_, ?_, ?_⟩
    · rw [List.flatMap_cons, List.count_append, released, restReleased, List.countP_cons, Nat.add_comm]
    · rw [List.flatMap_cons, List.count_append, pinned, restPinned]
    · rw [List.flatMap_cons, List.mem_append]
      exact not_or.mpr ⟨reset, restReset⟩

/-- The pins not yet released are those that the entries in use hold. -/
structure Holds (sgl : LinuxSgl) (history : List PageEvent) : Prop where
  held : ∀ page, history.count (.pinned page) = history.count (.released page) + sgl.tagged page
  balance : PinsBalance history

theorem Holds.pin (holds : sgl.Holds history)
    (tagged : ∀ page, last.tagged page = sgl.tagged page + events.count (.pinned page))
    (released : ∀ page, events.count (.released page) = 0) (reset : .reset ∉ events) :
    last.Holds (history ++ events) := by
  refine ⟨fun page => ?_, covered_append holds.balance.covered fun page => ?_, ?_⟩
  · have before := holds.held page
    rw [List.count_append, List.count_append, released, tagged]
    omega
  · have before := holds.held page
    rw [released]
    omega
  · refine holds.balance.reset.append fun past event member same => ?_
    rw [same] at member
    exact absurd member reset

theorem Holds.unmap (holds : sgl.Holds history) : (kfioSglReset sgl).1.Holds (history ++ (kfioSglReset sgl).2) := by
  have counts := kfioSglUnmap_counts sgl
  have even (page : Nat) : (history ++ kfioSglUnmap sgl).count (.released page) =
      (history ++ kfioSglUnmap sgl).count (.pinned page) := by
    obtain ⟨released, pinned, _⟩ := counts page
    have before := holds.held page
    rw [List.count_append, List.count_append, released, pinned]
    omega
  have paid (page : Nat) : history.count (.released page) + (kfioSglUnmap sgl).count (.released page) ≤
      history.count (.pinned page) := by
    rw [(counts page).1, holds.held page]
  have covered := covered_append holds.balance.covered paid
  rw [kfioSglReset, ← List.append_assoc]
  refine ⟨fun page => ?_, covered_append covered fun page => ?_, ?_⟩
  · have same := even page
    simp only [List.count_append] at same ⊢
    rw [same]
    rfl
  · rw [even page, List.count_singleton]
    rfl
  · refine Transition.Historical.snoc ?_ fun _ => even
    refine holds.balance.reset.append fun past event member same => ?_
    rw [same] at member
    exact absurd member (counts 0).2.2

theorem Holds.step (holds : sgl.Holds history) (sound : sgl.Sound) (kept : sgl.PinsKept env action)
    (run : sgl.step env action = some (last, events)) : last.Holds (history ++ events) := by
  cases action with
  | mapPage page offset size =>
    cases run
    have moves := kfioSglMapPage_moves sgl page offset size
    exact holds.pin moves.tagged moves.not_released moves.not_reset
  | mapBytes buffer size seg getUserPages =>
    obtain ⟨result, ran, same⟩ := Option.map_eq_some_iff.mp run
    cases same
    obtain ⟨tagged, released, reset⟩ := mapBytes_pins sound kept ran
    exact holds.pin tagged released reset
  | mapBio segments =>
    cases run
    have moves := kfioSglMapBio_moves sgl segments
    exact holds.pin moves.tagged moves.not_released moves.not_reset
  | dmaMap dir mapped =>
    simp only [LinuxSgl.step] at run
    split at run
    · cases run
      exact holds.pin (fun page => tagged_dmaMap dir mapped) (fun _ => rfl) List.not_mem_nil
    · cases run
  | dmaUnmap =>
    cases run
    exact holds.pin (fun page => rfl) (fun _ => rfl) List.not_mem_nil
  | reset =>
    cases run
    exact holds.unmap

end LinuxSgl

theorem kfioSgl_pinsBalance {env : SglEnv} {nvecs : BitVec 32} {stale : Nat → BitVec 32} {sgl : LinuxSgl}
    {history : List PageEvent} (reach : SglReach env nvecs stale (LinuxSgl.PinsKept env) sgl history) :
    PinsBalance history := by
  suffices holds : sgl.Holds history from holds.balance
  refine reach.invariant LinuxSgl.Holds ?_ ?_
  · refine ⟨fun page => rfl, fun past empty page => ?_, Transition.historical_nil _⟩
    rw [List.prefix_nil.mp empty]
    exact Nat.le_refl _
  · intro sgl last action history events reached holds kept run
    exact holds.step (LinuxSgl.sound reached) kept run

/-- A user buffer of two pages that is mapped for a read and released, then one
whose first page cannot be had. -/
theorem kfioSgl_pinsBalance_rounds : ∃ (sgl : LinuxSgl) (history : List PageEvent),
    SglReach ⟨0#64, 0#64, fun _ => 0, fun _ => 0, id⟩ 3#32 (fun _ => 0#32)
      (LinuxSgl.PinsKept ⟨0#64, 0#64, fun _ => 0, fun _ => 0, id⟩) sgl history ∧
      history = [.pinned 9, .pinned 10, .dirtied 9, .released 9, .dirtied 10, .released 10, .reset, .reset] ∧
      PinsBalance history := by
  obtain ⟨sgl, history, reach, checked⟩ := SglReach.of_check ⟨0#64, 0#64, fun _ => 0, fun _ => 0, id⟩ 3#32
    (fun _ => 0#32)
    (fun sgl action => decide (¬sgl.FailsMidway action ∧
      ¬sgl.Overruns ⟨0#64, 0#64, fun _ => 0, fun _ => 0, id⟩ action))
    (fun _ _ => of_decide_eq_true)
    (fun last => decide (last.2 =
      [.pinned 9, .pinned 10, .dirtied 9, .released 9, .dirtied 10, .released 10, .reset, .reset]))
    [.mapBytes 4000#64 200#32 .user fun bp => if bp = 4000#64 then (1, 9) else (1, 10), .dmaMap .read 2#32,
      .dmaUnmap, .reset, .mapBytes 4000#64 200#32 .user fun _ => (-14, 0), .reset]
    (by decide +kernel)
  exact ⟨sgl, history, reach, of_decide_eq_true checked, kfioSgl_pinsBalance reach⟩

/-- When the second page of a user buffer cannot be had, its first page is
released at once, and again by the reset. -/
theorem kfioSgl_pinsBalance_double : ∃ (sgl : LinuxSgl) (history : List PageEvent),
    SglReach ⟨0#64, 0#64, fun _ => 0, fun _ => 0, id⟩ 3#32 (fun _ => 0#32) (fun _ _ => True) sgl history ∧
      history = [.pinned 9, .released 9, .released 9, .reset] ∧ ¬PinsBalance history := by
  obtain ⟨sgl, history, reach, checked⟩ := SglReach.of_check ⟨0#64, 0#64, fun _ => 0, fun _ => 0, id⟩ 3#32
    (fun _ => 0#32) (fun _ _ => true) (fun _ _ _ => trivial)
    (fun last => decide (last.2 = [.pinned 9, .released 9, .released 9, .reset]))
    [.mapBytes 4000#64 200#32 .user fun bp => if bp = 4000#64 then (1, 9) else (-14, 0), .reset]
    (by decide +kernel)
  have events : history = [.pinned 9, .released 9, .released 9, .reset] := of_decide_eq_true checked
  refine ⟨sgl, history, reach, events, fun balance => ?_⟩
  have even := balance.covered history List.prefix_rfl 9
  rw [events] at even
  exact absurd even (by decide)

end IomemoryVsl
