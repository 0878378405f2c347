import IomemoryVsl.ScatterCopyFits
import IomemoryVsl.ScatterSound

namespace IomemoryVsl

open ByteMemory

/-- The order of the places in a list. -/
def PlaceBefore (a b : Nat × Nat) : Prop := a.1 < b.1 ∨ a.1 = b.1 ∧ a.2 < b.2

theorem PlaceBefore.asymm {a b : Nat × Nat} (first : PlaceBefore a b) : ¬PlaceBefore b a := by
  unfold PlaceBefore at *
  omega

theorem PlaceBefore.nodup {xs : List (Nat × Nat)} (sorted : xs.Pairwise PlaceBefore) : xs.Nodup := by
  refine sorted.imp fun first same => ?_
  rw [same] at first
  exact first.asymm first

/-- A list in order is known by its members. -/
theorem PlaceBefore.eq_of_mem {xs ys : List (Nat × Nat)} (first : xs.Pairwise PlaceBefore)
    (second : ys.Pairwise PlaceBefore) (same : ∀ place, place ∈ xs ↔ place ∈ ys) : xs = ys :=
  List.Perm.eq_of_pairwise (fun _ _ _ _ before after => absurd after before.asymm) first second
    ((List.perm_ext_iff_of_nodup (nodup first) (nodup second)).mpr same)

section Walk

variable {sgl : LinuxSgl} {cursor : SglCursor} {i k : Nat} {sub length : BitVec 32} {subs : List (BitVec 32)}
  {place : Nat × Nat}

theorem SglCursor.advance_cases (sgl : LinuxSgl) (cursor : SglCursor) (sub : BitVec 32) :
    (cursor.advance sgl sub).sl = cursor.sl + 1 ∨ cursor.advance sgl sub = ⟨cursor.sl, cursor.sgeOff + sub⟩ := by
  rw [advance]
  split
  · exact .inl rfl
  · exact .inr rfl

theorem SglCursor.sl_le_advance (sgl : LinuxSgl) (cursor : SglCursor) (sub : BitVec 32) :
    cursor.sl ≤ (cursor.advance sgl sub).sl := by
  rcases cursor.advance_cases sgl sub with next | same
  · omega
  · rw [same]

theorem SglCursor.sl_le_after : cursor.sl ≤ (cursor.after sgl subs).sl := by
  induction subs generalizing cursor with
  | nil => exact Nat.le_refl _
  | cons sub subs ih => exact Nat.le_trans (cursor.sl_le_advance sgl sub) ih

theorem SglCursor.mem_piece : place ∈ cursor.piece sub ↔
    place.1 = cursor.sl ∧ cursor.sgeOff.toNat ≤ place.2 ∧
      place.2 < cursor.sgeOff.toNat + (sub.signExtend 64).toNat := by
  simp only [piece, List.mem_map, List.mem_range]
  constructor
  · intro found
    obtain ⟨j, below, rfl⟩ := found
    exact ⟨rfl, by omega, by omega⟩
  · intro found
    obtain ⟨first, above, below⟩ := found
    exact ⟨place.2 - cursor.sgeOff.toNat, by omega, Prod.ext first.symm (by omega)⟩

/-- The rounds go through the entries from that of the cursor to that where it ends. -/
theorem walk_sl (member : place ∈ walk sgl cursor subs) :
    cursor.sl ≤ place.1 ∧ place.1 ≤ (cursor.after sgl subs).sl := by
  induction subs generalizing cursor with
  | nil => cases member
  | cons sub subs ih =>
    have onward := cursor.sl_le_advance sgl sub
    have last : (cursor.advance sgl sub).sl ≤ (cursor.after sgl (sub :: subs)).sl := SglCursor.sl_le_after
    rw [walk, List.mem_append, SglCursor.mem_piece] at member
    rcases member with ⟨first, _⟩ | later
    · omega
    · have between := ih later
      exact ⟨by omega, between.2⟩

/-- As long as they stay inside pages, the rounds go through the places in order. -/
theorem walk_pairwise (inside : ∀ place ∈ walk sgl cursor subs, place.2 < fusionPageSize) :
    (walk sgl cursor subs).Pairwise PlaceBefore ∧
      ∀ place ∈ walk sgl cursor subs, cursor.sl < place.1 ∨ cursor.sl = place.1 ∧ cursor.sgeOff.toNat ≤ place.2 := by
  have size : fusionPageSize = 4096 := rfl
  induction subs generalizing cursor with
  | nil => exact ⟨List.Pairwise.nil, fun _ member => absurd member List.not_mem_nil⟩
  | cons sub subs ih =>
    simp only [walk, List.mem_append] at inside ⊢
    obtain ⟨sorted, above⟩ := ih fun place member => inside place (.inr member)
    -- the cursor does not wrap around: the last byte of the piece is inside the page
    have small : (sub.signExtend 64).toNat = sub.toNat ∧
        (sub.toNat = 0 ∨ cursor.sgeOff.toNat + sub.toNat ≤ 4096) := by
      have last := inside (cursor.sl, cursor.sgeOff.toNat + ((sub.signExtend 64).toNat - 1))
      rw [SglCursor.mem_piece] at last
      rcases signExtend_toNat sub with ⟨_, same⟩ | ⟨_, large⟩
      · rw [same] at last ⊢
        refine ⟨rfl, ?_⟩
        by_cases zero : sub.toNat = 0
        · exact .inl zero
        · have below := last (.inl ⟨rfl, by omega, by omega⟩)
          omega
      · have below := last (.inl ⟨rfl, by omega, by omega⟩)
        omega
    have later (place : Nat × Nat) (member : place ∈ walk sgl (cursor.advance sgl sub) subs) :
        cursor.sl < place.1 ∨ cursor.sl = place.1 ∧ cursor.sgeOff.toNat + sub.toNat ≤ place.2 := by
      have bound := above place member
      rcases cursor.advance_cases sgl sub with next | same
      · omega
      · have off := cursor.sgeOff.isLt
        have sum : (cursor.sgeOff + sub).toNat = cursor.sgeOff.toNat + sub.toNat := by
          rw [BitVec.toNat_add]
          exact Nat.mod_eq_of_lt (by omega)
        rw [same] at bound
        dsimp only at bound
        omega
    refine ⟨List.pairwise_append.mpr ⟨?_, sorted, fun a first b second => ?_⟩, fun place member => ?_⟩
    · rw [SglCursor.piece, List.pairwise_map]
      exact List.pairwise_lt_range.imp fun below => .inr ⟨rfl, by omega⟩
    · rw [SglCursor.mem_piece] at first
      have bound := later b second
      unfold PlaceBefore
      omega
    · rcases member with first | second
      · rw [SglCursor.mem_piece] at first
        omega
      · have bound := later place second
        omega

theorem LinuxSgl.mem_placesFrom : place ∈ sgl.placesFrom i k ↔
    (place.1 = i ∨ i < place.1 ∧ place.1 < sgl.numEntries.toNat) ∧
      (sgl.sl place.1).offset.toNat + (if place.1 = i then k else 0) ≤ place.2 ∧
      place.2 < (sgl.sl place.1).offset.toNat + (sgl.sl place.1).length.toNat := by
  simp only [placesFrom, places, List.mem_append, List.mem_map, List.mem_flatMap, List.mem_range, List.mem_range'_1]
  constructor
  · intro found
    rcases found with ⟨j, below, rfl⟩ | ⟨e, used, j, below, rfl⟩
    · exact ⟨.inl rfl, by dsimp only; rw [if_pos rfl]; omega, by dsimp only; omega⟩
    · exact ⟨.inr ⟨by omega, by omega⟩, by dsimp only; rw [if_neg (by omega)]; omega, by dsimp only; omega⟩
  · intro found
    obtain ⟨first | ⟨behind, used⟩, above, below⟩ := found
    · rw [if_pos first] at above
      subst first
      exact .inl ⟨place.2 - (sgl.sl place.1).offset.toNat - k, by omega, Prod.ext rfl (by dsimp only; omega)⟩
    · rw [if_neg (by omega)] at above
      exact .inr ⟨place.1, by omega, place.2 - (sgl.sl place.1).offset.toNat, by omega,
        Prod.ext rfl (by dsimp only; omega)⟩

theorem LinuxSgl.placesFrom_pairwise : (sgl.placesFrom i k).Pairwise PlaceBefore := by
  have entry (e m n : Nat) : ((List.range n).map fun j => (e, m + j)).Pairwise PlaceBefore := by
    rw [List.pairwise_map]
    exact List.pairwise_lt_range.imp fun below => .inr ⟨rfl, by omega⟩
  refine List.pairwise_append.mpr ⟨entry .., ?_, fun a first b second => ?_⟩
  · refine List.pairwise_flatMap.mpr ⟨fun e _ => entry .., ?_⟩
    refine (List.pairwise_lt_range' 1).imp fun below a first b second => ?_
    obtain ⟨_, _, rfl⟩ := List.mem_map.mp first
    obtain ⟨_, _, rfl⟩ := List.mem_map.mp second
    exact .inl below
  · obtain ⟨_, _, rfl⟩ := List.mem_map.mp first
    obtain ⟨e, later, inside⟩ := List.mem_flatMap.mp second
    obtain ⟨_, _, rfl⟩ := List.mem_map.mp inside
    exact .inl (List.mem_range'_1.mp later).1

/-- Rounds that go through the next places of a list take bytes of the entry that they
stand in. -/
theorem SglCursor.At.inside (inside : sgl.Inside) (here : cursor.At sgl i k)
    (same : cursor.piece sub ++ walk sgl (cursor.advance sgl sub) subs = (sgl.placesFrom i k).take length.toNat) :
    k + sub.toNat ≤ (sgl.sl i).length.toNat ∧ (sub.signExtend 64).toNat = sub.toNat := by
  have page := inside i here.inUse
  have size : fusionPageSize = 4096 := rfl
  have bytes := here.bytes
  have off := here.sgeOff
  have last (some : 0 < (sub.signExtend 64).toNat) : k + (sub.signExtend 64).toNat ≤ (sgl.sl i).length.toNat := by
    have member : (i, cursor.sgeOff.toNat + ((sub.signExtend 64).toNat - 1)) ∈ (sgl.placesFrom i k).take length.toNat := by
      rw [← same, List.mem_append, SglCursor.mem_piece, here.sl]
      exact .inl ⟨rfl, by omega, by omega⟩
    obtain ⟨_, _, below⟩ := LinuxSgl.mem_placesFrom.mp (List.mem_of_mem_take member)
    dsimp only at below
    omega
  rcases signExtend_toNat sub with ⟨_, equal⟩ | ⟨_, large⟩
  · rw [equal] at last ⊢
    exact ⟨by omega, rfl⟩
  · have below := last (by omega)
    omega

/-- Rounds behind an entry that has bytes left go through none of the next places. -/
theorem take_eq_zero_of_walk {n : Nat} (same : walk sgl cursor subs = (sgl.placesFrom i k).take n)
    (behind : i < cursor.sl) (left : k < (sgl.sl i).length.toNat) : n = 0 := by
  by_contra some
  have first : (i, (sgl.sl i).offset.toNat + k) ∈ (sgl.placesFrom i k).take n := by
    have one : k + 1 ≤ (sgl.sl i).length.toNat := left
    rw [LinuxSgl.placesFrom_split one, List.take_append]
    refine List.mem_append_left _ ?_
    rw [List.range_one, List.map_singleton, List.take_of_length_le (by simp; omega)]
    exact List.mem_singleton.mpr rfl
  rw [← same] at first
  have between := (walk_sl first).1
  exact Nat.not_lt.mpr between behind

/-- Rounds that go through the next places of a list, and not past its last entry,
only exist where `CopyFits` holds. -/
theorem CopyFits.of_walk (inside : sgl.Inside) (here : cursor.At sgl i k) (steps : Steps sgl cursor length subs)
    (same : walk sgl cursor subs = (sgl.placesFrom i k).take length.toNat)
    (last : (cursor.after sgl subs).sl < sgl.numEntries.toNat)
    (before : (sgl.sl i).offset.toNat ≤ (sgl.sl i).length.toNat →
      (sgl.sl i).offset.toNat + k ≤ (sgl.sl i).length.toNat)
    (fresh : k = 0 ∨ (sgl.sl i).offset.toNat + k ≠ (sgl.sl i).length.toNat) :
    CopyFits (sgl.entriesFrom i) (k + length.toNat) := by
  have bytes := here.bytes
  induction subs generalizing cursor i k length with
  | nil =>
    rw [Steps] at steps
    have none : (0#32).toNat = 0 := rfl
    rw [steps, LinuxSgl.entriesFrom_cons here.inUse, CopyFits, BitVec.lt_def, none]
    omega
  | cons sub subs ih =>
    obtain ⟨more, least, left, onward⟩ := steps
    rw [walk] at same
    obtain ⟨bound, small⟩ := here.inside inside same
    rw [here.piece_eq small, LinuxSgl.placesFrom_take bound least, List.append_cancel_left_eq] at same
    have page := inside i here.inUse
    have size : fusionPageSize = 4096 := rfl
    have few : sub.toNat ≤ length.toNat := least
    have rest : (length - sub).toNat = length.toNat - sub.toNat := BitVec.toNat_sub_of_le least
    have total : k + sub.toNat + (length - sub).toNat = k + length.toNat := by omega
    by_cases upTo : (sgl.sl i).offset.toNat + k + sub.toNat = (sgl.sl i).length.toNat
    · have moved : (cursor.advance sgl sub).sl = i + 1 := by
        rw [(here.advance_eq (by omega)).2, if_pos upTo]
      have room : i + 1 < sgl.numEntries.toNat := by
        have above : (cursor.advance sgl sub).sl ≤ (cursor.after sgl (sub :: subs)).sl := SglCursor.sl_le_after
        omega
      have nonempty : sgl.entriesFrom (i + 1) ≠ [] := LinuxSgl.entriesFrom_ne_nil.mpr room
      rw [LinuxSgl.entriesFrom_cons here.inUse, CopyFits]
      by_cases start : (sgl.sl i).offset.toNat = 0
      · have whole : k + sub.toNat = (sgl.sl i).length.toNat := by omega
        rw [whole, LinuxSgl.placesFrom_end room] at same
        have next := ih (here.next room upTo) onward same last (fun start => start) (.inl rfl) (Nat.zero_le _)
        have behind : k + length.toNat - (sgl.sl i).length.toNat = 0 + (length - sub).toNat := by omega
        rw [behind]
        exact .inr (.inr (.inr (.inr ⟨BitVec.eq_of_toNat_eq start, by omega, nonempty, next⟩)))
      · -- bytes of the entry are left behind, so there must be no more to copy
        have done := take_eq_zero_of_walk same (moved ▸ Nat.lt_succ_self i) (by omega)
        exact .inr (.inr (.inr (.inl ⟨by omega, nonempty⟩)))
    · have stays := here.stay (by omega) upTo bound
      have within : (sgl.sl i).offset.toNat ≤ (sgl.sl i).length.toNat →
          (sgl.sl i).offset.toNat + (k + sub.toNat) ≤ (sgl.sl i).length.toNat := by
        intro fits
        have start := before fits
        have off := here.sgeOff
        have room : ((sgl.sl i).length - cursor.sgeOff).toNat = (sgl.sl i).length.toNat - cursor.sgeOff.toNat :=
          BitVec.toNat_sub_of_le (by rw [BitVec.le_def]; omega)
        rw [here.sl, BitVec.le_def, room] at left
        omega
      have next := ih stays onward same last within (.inr (by omega)) bound
      rw [total] at next
      exact next

end Walk

namespace LinuxSgl

variable {sgl : LinuxSgl}

/-- Different entries in use lie in different pages. -/
def DistinctPages (sgl : LinuxSgl) : Prop :=
  ∀ i < sgl.numEntries.toNat, ∀ j < sgl.numEntries.toNat, (sgl.sl i).page = (sgl.sl j).page → i = j

theorem DistinctPages.address_inj (distinct : sgl.DistinctPages) {a b : Nat × Nat} (first : a.1 < sgl.numEntries.toNat)
    (second : b.1 < sgl.numEntries.toNat) (same : sgl.address a = sgl.address b) : a = b :=
  Prod.ext (distinct _ first _ second (congrArg Prod.fst same)) (Prod.ext_iff.mp same).2

theorem placesFrom_used (used : 0 < sgl.numEntries.toNat) {place : Nat × Nat} (member : place ∈ sgl.placesFrom 0 0) :
    place.1 < sgl.numEntries.toNat := by
  have index := (mem_placesFrom.mp member).1
  omega

theorem bytes_length (sgl : LinuxSgl) : sgl.bytes.length = sgl.entryBytes := by
  rw [bytes_eq_flatMap, entryBytes]
  induction sgl.numEntries.toNat with
  | zero => rfl
  | succ n ih =>
    rw [List.range_succ, List.flatMap_append, List.length_append, ih, Finset.sum_range_succ, List.flatMap_singleton,
      Scatterlist.bytes, pieceBytes_length]

theorem Sound.prefix_le (sound : sgl.Sound) {length : BitVec 32} (fits : ¬length > sgl.sglSize) :
    length.toNat ≤ sgl.bytes.length := by
  have below : length ≤ sgl.sglSize := BitVec.not_lt.mp fits
  rw [BitVec.le_def, sound.size, BitVec.toNat_ofNat] at below
  rw [bytes_length]
  exact below.trans (Nat.mod_le ..)

theorem DistinctPages.bytes_nodup (distinct : sgl.DistinctPages) : sgl.bytes.Nodup := by
  by_cases used : 0 < sgl.numEntries.toNat
  · rw [bytes_eq_map used]
    refine (PlaceBefore.nodup placesFrom_pairwise).map_on fun a first b second same => ?_
    exact distinct.address_inj (placesFrom_used used first) (placesFrom_used used second) same
  · rw [bytes, Nat.eq_zero_of_not_pos used]
    exact List.nodup_nil

end LinuxSgl

theorem walk_length {sgl : LinuxSgl} {cursor : SglCursor} {subs : List (BitVec 32)} :
    (walk sgl cursor subs).length = (subs.map fun sub => (sub.signExtend 64).toNat).sum := by
  induction subs generalizing cursor with
  | nil => rfl
  | cons sub subs ih =>
    rw [walk, List.length_append, ih, SglCursor.piece_length, List.map_cons, List.sum_cons]

section Exact

variable {sgl dst src : LinuxSgl} {length : BitVec 32} {subs : List (BitVec 32)}

/-- Rounds that end inside the list go through its pages. -/
theorem walk_used (used : 0 < sgl.numEntries.toNat)
    (last : (sgl.begin.after sgl subs).sl ≤ sgl.numEntries.toNat - 1) {place : Nat × Nat}
    (member : place ∈ walk sgl sgl.begin subs) : place.1 < sgl.numEntries.toNat := by
  have between := (walk_sl member).2
  omega

/-- If the first bytes of a list are the bytes that the rounds go through, then the
rounds go through them in their order. -/
theorem walk_eq_of_mem (distinct : sgl.DistinctPages) (inside : sgl.Inside) (used : 0 < sgl.numEntries.toNat)
    (last : (sgl.begin.after sgl subs).sl ≤ sgl.numEntries.toNat - 1)
    (same : ∀ d, d ∈ (walk sgl sgl.begin subs).map sgl.address ↔ d ∈ sgl.bytes.take length.toNat) :
    walk sgl sgl.begin subs = (sgl.placesFrom 0 0).take length.toNat := by
  have member (place : Nat × Nat) :
      place ∈ walk sgl sgl.begin subs ↔ place ∈ (sgl.placesFrom 0 0).take length.toNat := by
    rw [LinuxSgl.bytes_eq_map used, ← List.map_take] at same
    constructor
    · intro here
      obtain ⟨other, there, equal⟩ := List.mem_map.mp ((same _).mp (List.mem_map_of_mem here))
      have index := LinuxSgl.placesFrom_used used (List.mem_of_mem_take there)
      exact distinct.address_inj index (walk_used used last here) equal ▸ there
    · intro there
      obtain ⟨other, here, equal⟩ := List.mem_map.mp ((same _).mpr (List.mem_map_of_mem there))
      have index := LinuxSgl.placesFrom_used used (List.mem_of_mem_take there)
      exact distinct.address_inj (walk_used used last here) index equal ▸ here
  refine PlaceBefore.eq_of_mem (walk_pairwise fun place here => ?_).1
    (LinuxSgl.placesFrom_pairwise.sublist (List.take_sublist ..)) member
  have there := List.mem_of_mem_take ((member place).mp here)
  have page := inside place.1 (LinuxSgl.placesFrom_used used there)
  have place := (LinuxSgl.mem_placesFrom.mp there).2
  omega

/-- The bytes that an accepted call goes through, and what `CopiesPrefix` says of them. -/
theorem CopiesPrefix.rounds (copies : CopiesPrefix dst src length)
    (accepted : ¬(length > dst.sglSize ∨ length > src.sglSize)) :
    ∃ rounds subs, copySubs dst src rounds dst.begin src.begin length = some subs ∧ ∀ mem,
      CopiedPrefix dst src length.toNat mem ⟨dst.begin.after dst subs, src.begin.after src subs, 0#32,
        copyAll mem (copyPairs dst src dst.begin src.begin subs)⟩ := by
  have ran (mem : PageMemory) : ∃ rounds subs, copySubs dst src rounds dst.begin src.begin length = some subs ∧
      CopiedPrefix dst src length.toNat mem ⟨dst.begin.after dst subs, src.begin.after src subs, 0#32,
        copyAll mem (copyPairs dst src dst.begin src.begin subs)⟩ := by
    obtain ⟨rounds, last, rc, result, _, copied⟩ := copies mem
    rw [kfioSglCopyData, if_neg accepted, copyLoop_eq, Option.map_map, Option.map_eq_some_iff] at result
    obtain ⟨subs, ran, same⟩ := result
    cases same
    exact ⟨rounds, subs, ran, (copied accepted).2⟩
  obtain ⟨rounds, subs, first, _⟩ := ran fun _ => 0
  refine ⟨rounds, subs, first, fun mem => ?_⟩
  obtain ⟨others, again, second, copied⟩ := ran mem
  have same : some subs = some again := by
    rw [← copySubs_mono first, ← copySubs_mono second, Nat.add_comm]
  rw [Option.some.inj same]
  exact copied

/-- Rounds from the start that go through the first bytes of a list. -/
theorem copyFits_of_rounds (inside : sgl.Inside) (used : 0 < sgl.numEntries.toNat)
    (last : (sgl.begin.after sgl subs).sl ≤ sgl.numEntries.toNat - 1) (steps : Steps sgl sgl.begin length subs)
    (same : walk sgl sgl.begin subs = (sgl.placesFrom 0 0).take length.toNat) :
    CopyFits (sgl.entriesFrom 0) length.toNat := by
  have fits := CopyFits.of_walk inside (LinuxSgl.begin_at used) steps same (by omega) (fun below => below) (.inl rfl)
  rw [Nat.zero_add] at fits
  exact fits

theorem LinuxSgl.used_of_bytes (more : length ≠ 0#32) (enough : length.toNat ≤ sgl.bytes.length) :
    0 < sgl.numEntries.toNat := by
  have positive : length.toNat ≠ 0 := fun zero => more (BitVec.eq_of_toNat_eq zero)
  obtain ⟨place, member⟩ := List.exists_mem_of_length_pos (Nat.lt_of_lt_of_le (Nat.pos_of_ne_zero positive) enough)
  obtain ⟨i, used, _⟩ := LinuxSgl.mem_bytes member
  omega

/-- The bytes that the rounds go through, in memory. -/
theorem address_walk_bytes (used : 0 < sgl.numEntries.toNat)
    (last : (sgl.begin.after sgl subs).sl ≤ sgl.numEntries.toNat - 1) {d : Nat × Nat}
    (member : d ∈ (walk sgl sgl.begin subs).map sgl.address) : ∃ i < sgl.numEntries.toNat, d.1 = (sgl.sl i).page := by
  obtain ⟨place, here, rfl⟩ := List.mem_map.mp member
  exact ⟨place.1, walk_used used last here, rfl⟩

theorem CopiesPrefix.goes (dstSound : dst.Sound) (srcSound : src.Sound) (dstInside : dst.Inside)
    (srcInside : src.Inside) (apart : dst.Apart src) (dstPages : dst.DistinctPages) (srcPages : src.DistinctPages)
    (copies : CopiesPrefix dst src length) : CopyGoes dst src length := by
  by_cases refused : length > dst.sglSize ∨ length > src.sglSize
  · exact refused.elim .inl fun second => .inr (.inl second)
  have enough := dstSound.prefix_le fun first => refused (.inl first)
  have enough' := srcSound.prefix_le fun second => refused (.inr second)
  by_cases zero : length = 0#32
  · have fits (entries : List Scatterlist) : CopyFits entries (0#32).toNat := by
      cases entries with
      | nil => rfl
      | cons entry rest => exact .inl rfl
    rw [zero]
    exact .inr (.inr ⟨fits _, fits _⟩)
  have dstUsed := LinuxSgl.used_of_bytes zero enough
  have srcUsed := LinuxSgl.used_of_bytes zero enough'
  obtain ⟨rounds, subs, ran, copied⟩ := copies.rounds refused
  obtain ⟨dstSteps, srcSteps⟩ := copySubs_steps ran
  have dstLast := (copied fun _ => 0).ldst
  have srcLast := (copied fun _ => 0).lsrc
  have whole : ((walk dst dst.begin subs).map dst.address).length =
      ((walk src src.begin subs).map src.address).length := by
    rw [List.length_map, List.length_map, walk_length, walk_length]
  have pairs : (dst.bytes.take length.toNat).length = (src.bytes.take length.toNat).length := by
    rw [List.length_take_of_le enough, List.length_take_of_le enough']
  -- nothing that is read is written, neither by the call nor by what it has to do
  have separate : ∀ d ∈ (walk dst dst.begin subs).map dst.address ++ dst.bytes.take length.toNat,
      ∀ s ∈ (walk src src.begin subs).map src.address ++ src.bytes.take length.toNat, s ≠ d := by
    intro d target s source same
    obtain ⟨i, first, pageD⟩ : ∃ i < dst.numEntries.toNat, d.1 = (dst.sl i).page :=
      (List.mem_append.mp target).elim (address_walk_bytes dstUsed dstLast)
        fun member => LinuxSgl.mem_bytes (List.mem_of_mem_take member)
    obtain ⟨j, second, pageS⟩ : ∃ j < src.numEntries.toNat, s.1 = (src.sl j).page :=
      (List.mem_append.mp source).elim (address_walk_bytes srcUsed srcLast)
        fun member => LinuxSgl.mem_bytes (List.mem_of_mem_take member)
    exact apart i first j second (by rw [← pageD, ← pageS, same])
  have prefixes (mem : PageMemory) (i : Nat) (d s : Nat × Nat) (target : (dst.bytes.take length.toNat)[i]? = some d)
      (source : (src.bytes.take length.toNat)[i]? = some s) :
      copyAll mem (copyPairs dst src dst.begin src.begin subs) d = mem s := by
    have below : i < length.toNat := by
      rw [← List.length_take_of_le enough]
      exact (List.getElem?_eq_some_iff.mp target).1
    rw [List.getElem?_take_of_lt below] at target source
    exact (copied mem).copied i below d s target source
  have bytes : Nontrivial UInt8 := ⟨0, 1, by decide⟩
  have targets := ByteMemory.copyAll_targets whole pairs separate prefixes fun mem => (copied mem).other
  have dstWalk := walk_eq_of_mem dstPages dstInside dstUsed dstLast targets
  have dstBytes : (walk dst dst.begin subs).map dst.address = dst.bytes.take length.toNat := by
    rw [dstWalk, List.map_take, LinuxSgl.bytes_eq_map dstUsed]
  simp only [copyPairs, dstBytes] at prefixes
  rw [dstBytes] at whole
  have sources : (walk src src.begin subs).map src.address = src.bytes.take length.toNat :=
    ByteMemory.copyAll_sources (dstPages.bytes_nodup.sublist (List.take_sublist ..)) whole pairs
      (fun d target s source => separate d (List.mem_append_right _ target) s (List.mem_append_left _ source)) prefixes
  have srcWalk := walk_eq_of_mem srcPages srcInside srcUsed srcLast fun s => by rw [sources]
  exact .inr (.inr ⟨copyFits_of_rounds dstInside dstUsed dstLast dstSteps dstWalk,
    copyFits_of_rounds srcInside srcUsed srcLast srcSteps srcWalk⟩)

end Exact

/-- The prefix is copied wherever `CopyGoes` holds. Where different entries lie in
different pages this is exactly where it is copied. -/
theorem kfio_sgl_copy_data_copies {dst src : LinuxSgl} {length : BitVec 32} (dstSound : dst.Sound)
    (srcSound : src.Sound) (dstInside : dst.Inside) (srcInside : src.Inside) (apart : dst.Apart src) :
    (dst.bytes.Nodup → CopyGoes dst src length → CopiesPrefix dst src length) ∧
      (dst.DistinctPages → src.DistinctPages → (CopiesPrefix dst src length ↔ CopyGoes dst src length)) := by
  refine ⟨fun nodup goes => goes.copiesPrefix dstInside srcInside apart nodup, fun dstPages srcPages => ?_⟩
  constructor
  · exact fun copies => copies.goes dstSound srcSound dstInside srcInside apart dstPages srcPages
  · exact fun goes => goes.copiesPrefix dstInside srcInside apart dstPages.bytes_nodup

/-- A list of one entry. -/
def singleSgl (page : Nat) (offset length : BitVec 32) : LinuxSgl where
  maxEntries := 1#32
  numEntries := 1#32
  numMapped := 0#32
  sglSize := length
  sgeFlags _ := 0#32
  sl _ := ⟨page, offset, length⟩

/-- A list of two whole sectors, in pages 1 and 2. -/
def sectorsSgl : LinuxSgl where
  maxEntries := 2#32
  numEntries := 2#32
  numMapped := 0#32
  sglSize := 1024#32
  sgeFlags _ := 0#32
  sl i := ⟨i + 1, 0#32, 512#32⟩

theorem singleSgl_sound (page : Nat) (offset length : BitVec 32) : (singleSgl page offset length).Sound where
  mapped := Nat.zero_le _
  entries := BitVec.le_refl _
  size := by
    have one : (singleSgl page offset length).entryBytes = length.toNat := Finset.sum_range_one _
    rw [one, BitVec.ofNat_toNat, BitVec.setWidth_eq, singleSgl]

theorem singleSgl_inside {page : Nat} {offset length : BitVec 32}
    (inside : offset.toNat + length.toNat ≤ fusionPageSize) : (singleSgl page offset length).Inside :=
  fun _ _ => inside

theorem singleSgl_distinct (page : Nat) (offset length : BitVec 32) :
    (singleSgl page offset length).DistinctPages := by
  intro i first j second _
  have one : (singleSgl page offset length).numEntries.toNat = 1 := rfl
  omega

theorem kfio_sgl_copy_data_copies_sectors :
    CopyGoes sectorsSgl (singleSgl 3 16#32 2048#32) 700#32 ∧
      CopiesPrefix sectorsSgl (singleSgl 3 16#32 2048#32) 700#32 := by
  have dstSound : sectorsSgl.Sound := ⟨by decide, by decide, by decide⟩
  have sector : (0#32).toNat + (512#32).toNat ≤ fusionPageSize := by decide
  have apart : sectorsSgl.Apart (singleSgl 3 16#32 2048#32) := by
    intro i first j _ same
    have below : i < 2 := first
    have page : i + 1 = 3 := same
    omega
  have exact := @kfio_sgl_copy_data_copies sectorsSgl (singleSgl 3 16#32 2048#32) 700#32 dstSound
    (singleSgl_sound ..) (fun _ _ => sector) (singleSgl_inside (by decide)) apart
  have goes : CopyGoes sectorsSgl (singleSgl 3 16#32 2048#32) 700#32 := by decide
  exact ⟨goes, (exact.2 (fun i _ j _ same => Nat.succ.inj same) (singleSgl_distinct 3 16#32 2048#32)).mpr goes⟩

/-- An entry of 200 bytes behind the first 100 of its page is left after 100 bytes. -/
theorem kfio_sgl_copy_data_copies_offset :
    let dst := singleSgl 1 100#32 200#32
    let src := singleSgl 2 100#32 200#32
    dst.Sound ∧ src.Sound ∧ dst.Inside ∧ src.Inside ∧ dst.Apart src ∧ dst.DistinctPages ∧ src.DistinctPages ∧
      ¬CopiesPrefix dst src 200#32 := by
  intro dst src
  have inside (page : Nat) : (singleSgl page 100#32 200#32).Inside := singleSgl_inside (by decide)
  have apart : dst.Apart src := fun _ _ _ _ same => Nat.succ_ne_self 1 same.symm
  have first := singleSgl_distinct 1 100#32 200#32
  have second := singleSgl_distinct 2 100#32 200#32
  refine ⟨singleSgl_sound .., singleSgl_sound .., inside 1, inside 2, apart, first, second, fun copies => ?_⟩
  have beyond : ¬CopyGoes (singleSgl 1 100#32 200#32) (singleSgl 2 100#32 200#32) 200#32 := by decide
  exact beyond (copies.goes (singleSgl_sound ..) (singleSgl_sound ..) (inside 1) (inside 2) apart first second)

end IomemoryVsl
