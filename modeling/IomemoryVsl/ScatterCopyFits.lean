import IomemoryVsl.ScatterCopy

namespace IomemoryVsl

open ByteMemory

namespace LinuxSgl

variable {sgl : LinuxSgl} {i k : Nat}

/-- The places of an entry in use. -/
def places (sgl : LinuxSgl) (i : Nat) : List (Nat × Nat) :=
  (List.range (sgl.sl i).length.toNat).map fun j => (i, (sgl.sl i).offset.toNat + j)

/-- The places of a list from byte `k` of an entry on. -/
def placesFrom (sgl : LinuxSgl) (i k : Nat) : List (Nat × Nat) :=
  ((List.range ((sgl.sl i).length.toNat - k)).map fun j => (i, (sgl.sl i).offset.toNat + k + j)) ++
    (List.range' (i + 1) (sgl.numEntries.toNat - (i + 1))).flatMap sgl.places

theorem range'_from (inside : i < sgl.numEntries.toNat) :
    List.range' i (sgl.numEntries.toNat - i) = i :: List.range' (i + 1) (sgl.numEntries.toNat - (i + 1)) := by
  have split : sgl.numEntries.toNat - i = sgl.numEntries.toNat - (i + 1) + 1 := by omega
  rw [split, List.range'_succ]

theorem entriesFrom_cons (inside : i < sgl.numEntries.toNat) :
    sgl.entriesFrom i = sgl.sl i :: sgl.entriesFrom (i + 1) := by
  rw [entriesFrom, range'_from inside, List.map_cons, entriesFrom]

theorem entriesFrom_ne_nil : sgl.entriesFrom i ≠ [] ↔ i < sgl.numEntries.toNat := by
  rw [entriesFrom, ne_eq, List.map_eq_nil_iff, List.range'_eq_nil_iff]
  omega

theorem bytes_eq_map (used : 0 < sgl.numEntries.toNat) : sgl.bytes = (sgl.placesFrom 0 0).map sgl.address := by
  have all : List.range sgl.numEntries.toNat = 0 :: List.range' (0 + 1) (sgl.numEntries.toNat - (0 + 1)) := by
    rw [List.range_eq_range']
    exact range'_from used
  rw [bytes, all, List.flatMap_cons, placesFrom, List.map_append, List.map_map, List.map_flatMap]
  refine congrArg₂ (· ++ ·) rfl (List.flatMap_congr fun i _ => ?_)
  rw [places, List.map_map]
  rfl

/-- At the end of an entry the places are those of the next one. -/
theorem placesFrom_end (inside : i + 1 < sgl.numEntries.toNat) :
    sgl.placesFrom i (sgl.sl i).length.toNat = sgl.placesFrom (i + 1) 0 := by
  simp only [placesFrom, Nat.sub_self, List.range_zero, List.map_nil, List.nil_append, range'_from inside,
    List.flatMap_cons, Nat.sub_zero, Nat.add_zero, places]

/-- The first bytes from byte `k` on lie in the entry. -/
theorem placesFrom_split {m : Nat} (inside : k + m ≤ (sgl.sl i).length.toNat) :
    sgl.placesFrom i k =
      ((List.range m).map fun j => (i, (sgl.sl i).offset.toNat + k + j)) ++ sgl.placesFrom i (k + m) := by
  have split : (sgl.sl i).length.toNat - k = m + ((sgl.sl i).length.toNat - (k + m)) := by omega
  rw [placesFrom, split, List.range_add, List.map_append, List.map_map, List.append_assoc, placesFrom]
  refine congrArg₂ (· ++ ·) rfl (congrArg₂ (· ++ ·) (List.map_congr_left fun j _ => ?_) rfl)
  rw [Function.comp_apply, ← Nat.add_assoc, ← Nat.add_assoc]

/-- All entries in use lie inside their pages. -/
def Inside (sgl : LinuxSgl) : Prop :=
  ∀ i < sgl.numEntries.toNat, (sgl.sl i).offset.toNat + (sgl.sl i).length.toNat ≤ fusionPageSize

end LinuxSgl

/-- A cursor stands in entry `i`, behind `k` of its bytes. -/
structure SglCursor.At (sgl : LinuxSgl) (cursor : SglCursor) (i k : Nat) : Prop where
  sl : cursor.sl = i
  inUse : i < sgl.numEntries.toNat
  sgeOff : cursor.sgeOff.toNat = (sgl.sl i).offset.toNat + k
  bytes : k ≤ (sgl.sl i).length.toNat

section Forward

variable {sgl : LinuxSgl} {cursor : SglCursor} {i k : Nat} {sub length : BitVec 32} {subs : List (BitVec 32)}

/-- A byte count becomes a `size_t` as it is, unless it is a negative `int`. -/
theorem signExtend_toNat (sub : BitVec 32) :
    sub.toNat < 2 ^ 31 ∧ (sub.signExtend 64).toNat = sub.toNat ∨
      2 ^ 31 ≤ sub.toNat ∧ 2 ^ 31 ≤ (sub.signExtend 64).toNat := by
  have below := sub.isLt
  rw [BitVec.toNat_signExtend, BitVec.msb_eq_decide, BitVec.toNat_setWidth]
  by_cases negative : 2 ^ 31 ≤ sub.toNat
  · refine .inr ⟨negative, ?_⟩
    simp only [Nat.reduceSub, negative, decide_true, if_true]
    omega
  · refine .inl ⟨by omega, ?_⟩
    simp only [Nat.reduceSub, negative, decide_false, Bool.false_eq_true, if_false]
    omega

theorem SglCursor.At.advance_eq (here : cursor.At sgl i k)
    (small : (sgl.sl i).offset.toNat + k + sub.toNat < 2 ^ 32) :
    (cursor.sgeOff + sub).toNat = (sgl.sl i).offset.toNat + k + sub.toNat ∧
      cursor.advance sgl sub =
        if (sgl.sl i).offset.toNat + k + sub.toNat = (sgl.sl i).length.toNat
        then ⟨i + 1, (sgl.sl (i + 1)).offset⟩ else ⟨i, cursor.sgeOff + sub⟩ := by
  have sum : (cursor.sgeOff + sub).toNat = (sgl.sl i).offset.toNat + k + sub.toNat := by
    rw [BitVec.toNat_add, here.sgeOff]
    exact Nat.mod_eq_of_lt small
  refine ⟨sum, ?_⟩
  rw [SglCursor.advance, here.sl, ← sum]
  exact if_congr BitVec.toNat_inj.symm rfl rfl

theorem SglCursor.At.stay (here : cursor.At sgl i k) (small : (sgl.sl i).offset.toNat + k + sub.toNat < 2 ^ 32)
    (other : (sgl.sl i).offset.toNat + k + sub.toNat ≠ (sgl.sl i).length.toNat)
    (bound : k + sub.toNat ≤ (sgl.sl i).length.toNat) : (cursor.advance sgl sub).At sgl i (k + sub.toNat) := by
  obtain ⟨sum, next⟩ := here.advance_eq small
  rw [next, if_neg other]
  exact ⟨rfl, here.inUse, sum.trans (Nat.add_assoc ..), bound⟩

theorem SglCursor.At.next (here : cursor.At sgl i k) (room : i + 1 < sgl.numEntries.toNat)
    (same : (sgl.sl i).offset.toNat + k + sub.toNat = (sgl.sl i).length.toNat) :
    (cursor.advance sgl sub).At sgl (i + 1) 0 := by
  have bound := (sgl.sl i).length.isLt
  obtain ⟨_, next⟩ := here.advance_eq (same ▸ bound)
  rw [next, if_pos same]
  exact ⟨rfl, room, rfl, Nat.zero_le _⟩

/-- What the next round does where `CopyFits` holds. -/
theorem CopyFits.round (inside : sgl.Inside) (here : cursor.At sgl i k)
    (fits : CopyFits (sgl.entriesFrom i) (k + length.toNat)) (more : length ≠ 0#32) (least : sub ≤ length)
    (left : sub ≤ (sgl.sl cursor.sl).length - cursor.sgeOff) :
    k + sub.toNat ≤ (sgl.sl i).length.toNat ∧
      ((cursor.advance sgl sub).At sgl i (k + sub.toNat) ∨
        (cursor.advance sgl sub).At sgl (i + 1) 0 ∧
          (sub = length ∨ k + sub.toNat = (sgl.sl i).length.toNat ∧
            CopyFits (sgl.entriesFrom (i + 1)) (length.toNat - sub.toNat))) := by
  have page := inside i here.inUse
  have size : fusionPageSize = 4096 := rfl
  have positive : length.toNat ≠ 0 := fun zero => more (BitVec.eq_of_toNat_eq zero)
  have few : sub.toNat ≤ length.toNat := least
  have bytes := here.bytes
  rw [LinuxSgl.entriesFrom_cons here.inUse] at fits
  rcases fits with none | ⟨beyond, fits⟩ | before | ⟨upTo, rest⟩ | ⟨start, whole, rest, fits⟩
  · omega
  · have behind : (sgl.sl i).length.toNat < (sgl.sl i).offset.toNat := beyond
    have bound : k + sub.toNat ≤ (sgl.sl i).length.toNat := by omega
    exact ⟨bound, .inl (here.stay (by omega) (by omega) bound)⟩
  · have bound : k + sub.toNat ≤ (sgl.sl i).length.toNat := by omega
    exact ⟨bound, .inl (here.stay (by omega) (by omega) bound)⟩
  · have bound : k + sub.toNat ≤ (sgl.sl i).length.toNat := by omega
    refine ⟨bound, ?_⟩
    by_cases all : sub = length
    · rw [all] at bound ⊢
      exact .inr ⟨here.next (LinuxSgl.entriesFrom_ne_nil.mp rest) (by omega), .inl rfl⟩
    · have different : sub.toNat ≠ length.toNat := fun same => all (BitVec.eq_of_toNat_eq same)
      exact .inl (here.stay (by omega) (by omega) bound)
  · have zero : (sgl.sl i).offset.toNat = 0 := by rw [start]; rfl
    have off := here.sgeOff
    rw [here.sl] at left
    have room : ((sgl.sl i).length - cursor.sgeOff).toNat = (sgl.sl i).length.toNat - cursor.sgeOff.toNat :=
      BitVec.toNat_sub_of_le (by rw [BitVec.le_def]; omega)
    rw [BitVec.le_def, room] at left
    have bound : k + sub.toNat ≤ (sgl.sl i).length.toNat := by omega
    refine ⟨bound, ?_⟩
    by_cases all : k + sub.toNat = (sgl.sl i).length.toNat
    · refine .inr ⟨here.next (LinuxSgl.entriesFrom_ne_nil.mp rest) (by omega), .inr ⟨all, ?_⟩⟩
      have same : length.toNat - sub.toNat = k + length.toNat - (sgl.sl i).length.toNat := by omega
      rw [same]
      exact fits
    · exact .inl (here.stay (by omega) (by omega) bound)

theorem Steps.zero (steps : Steps sgl cursor 0#32 subs) : subs = [] := by
  cases subs with
  | nil => rfl
  | cons sub subs => exact absurd rfl steps.1

/-- The places of a round, for a byte count that is no negative `int`. -/
theorem SglCursor.At.piece_eq (here : cursor.At sgl i k) (small : (sub.signExtend 64).toNat = sub.toNat) :
    cursor.piece sub = (List.range sub.toNat).map fun j => (i, (sgl.sl i).offset.toNat + k + j) := by
  rw [SglCursor.piece, small, here.sl, here.sgeOff]

/-- A piece of the list and then the next bytes behind it are the next bytes. -/
theorem LinuxSgl.placesFrom_take (bound : k + sub.toNat ≤ (sgl.sl i).length.toNat) (least : sub ≤ length) :
    (sgl.placesFrom i k).take length.toNat =
      ((List.range sub.toNat).map fun j => (i, (sgl.sl i).offset.toNat + k + j)) ++
        (sgl.placesFrom i (k + sub.toNat)).take (length - sub).toNat := by
  have few : sub.toNat ≤ length.toNat := least
  have rest : (length - sub).toNat = length.toNat - sub.toNat := BitVec.toNat_sub_of_le least
  have size : ((List.range sub.toNat).map fun j => (i, (sgl.sl i).offset.toNat + k + j)).length = sub.toNat := by
    rw [List.length_map, List.length_range]
  rw [LinuxSgl.placesFrom_split bound, List.take_append, size, rest, List.take_of_length_le (by omega)]

/-- Where `CopyFits` holds, the rounds go through exactly the next bytes of the list
and stay inside it. -/
theorem CopyFits.walk_eq (inside : sgl.Inside) (here : cursor.At sgl i k)
    (fits : CopyFits (sgl.entriesFrom i) (k + length.toNat)) (steps : Steps sgl cursor length subs) :
    walk sgl cursor subs = (sgl.placesFrom i k).take length.toNat ∧
      (cursor.after sgl subs).sl < sgl.numEntries.toNat := by
  induction subs generalizing cursor i k length with
  | nil =>
    rw [Steps] at steps
    rw [steps]
    exact ⟨rfl, here.sl ▸ here.inUse⟩
  | cons sub subs ih =>
    obtain ⟨more, least, left, onward⟩ := steps
    obtain ⟨bound, next⟩ := fits.round inside here more least left
    have page := inside i here.inUse
    have size : fusionPageSize = 4096 := rfl
    have small : (sub.signExtend 64).toNat = sub.toNat := by
      rcases signExtend_toNat sub with ⟨_, same⟩ | ⟨large, _⟩
      · exact same
      · omega
    have few : sub.toNat ≤ length.toNat := least
    have rest : (length - sub).toNat = length.toNat - sub.toNat := BitVec.toNat_sub_of_le least
    rw [walk, here.piece_eq small, LinuxSgl.placesFrom_take bound least, List.append_cancel_left_eq]
    rcases next with stays | ⟨goes, all | ⟨whole, following⟩⟩
    · refine ih stays ?_ onward
      have same : k + sub.toNat + (length - sub).toNat = k + length.toNat := by omega
      rw [same]
      exact fits
    · rw [all, BitVec.sub_self] at onward ⊢
      rw [all] at goes
      rw [onward.zero]
      exact ⟨rfl, goes.sl ▸ goes.inUse⟩
    · rw [whole, LinuxSgl.placesFrom_end goes.inUse]
      refine ih goes ?_ onward
      rw [Nat.zero_add, rest]
      exact following

/-- The rounds stand in a list at a place from which `CopyFits` holds. -/
def SglCursor.Goes (sgl : LinuxSgl) (cursor : SglCursor) (length : BitVec 32) : Prop :=
  ∃ i k, cursor.At sgl i k ∧ CopyFits (sgl.entriesFrom i) (k + length.toNat)

/-- The scatterlists from the one of a cursor on. -/
def SglCursor.remaining (sgl : LinuxSgl) (cursor : SglCursor) : Nat := sgl.numEntries.toNat - cursor.sl

/-- A round goes on in the list, and leaves an entry of which nothing is left. -/
theorem SglCursor.Goes.round (inside : sgl.Inside) (goes : cursor.Goes sgl length) (more : length ≠ 0#32)
    (least : sub ≤ length) (left : sub ≤ (sgl.sl cursor.sl).length - cursor.sgeOff) (other : sub ≠ length) :
    (cursor.advance sgl sub).Goes sgl (length - sub) ∧
      (cursor.advance sgl sub).remaining sgl ≤ cursor.remaining sgl ∧
      (sub = 0#32 → (sgl.sl cursor.sl).length - cursor.sgeOff = 0#32 →
        (cursor.advance sgl sub).remaining sgl < cursor.remaining sgl) := by
  obtain ⟨i, k, here, fits⟩ := goes
  obtain ⟨bound, next⟩ := fits.round inside here more least left
  have few : sub.toNat ≤ length.toNat := least
  have rest : (length - sub).toNat = length.toNat - sub.toNat := BitVec.toNat_sub_of_le least
  have used := here.inUse
  rw [remaining, remaining, here.sl]
  rcases next with stays | ⟨on, all | ⟨whole, following⟩⟩
  · refine ⟨⟨i, k + sub.toNat, stays, ?_⟩, by rw [stays.sl], fun none done => ?_⟩
    · have same : k + sub.toNat + (length - sub).toNat = k + length.toNat := by omega
      rw [same]
      exact fits
    · have moved : (cursor.advance sgl sub).sl = i + 1 := by
        have equal : (sgl.sl i).length = cursor.sgeOff := by
          rw [BitVec.sub_eq_iff_eq_add.mp done, BitVec.zero_add]
        rw [advance, none, BitVec.add_zero, here.sl, if_pos equal.symm]
      rw [stays.sl] at moved
      omega
  · exact absurd all other
  · refine ⟨⟨i + 1, 0, on, ?_⟩, by rw [on.sl]; omega, fun _ _ => by rw [on.sl]; omega⟩
    rw [Nat.zero_add, rest]
    exact following

end Forward

/-- Where both lists go on, the loop comes to an end: a round takes a byte or leaves
an entry. -/
theorem copySubs_ends {dst src : LinuxSgl} {ldst lsrc : SglCursor} {length : BitVec 32} {rounds : Nat}
    (dstInside : dst.Inside) (srcInside : src.Inside) (dstGoes : ldst.Goes dst length)
    (srcGoes : lsrc.Goes src length)
    (fuel : length.toNat + ldst.remaining dst + lsrc.remaining src < rounds) :
    ∃ subs, copySubs dst src rounds ldst lsrc length = some subs := by
  induction rounds generalizing ldst lsrc length with
  | zero => omega
  | succ rounds ih =>
    rw [copySubs]
    by_cases done : length = 0#32
    · exact ⟨[], if_pos done⟩
    rw [if_neg done]
    have positive : length.toNat ≠ 0 := fun zero => done (BitVec.eq_of_toNat_eq zero)
    obtain ⟨least, left, right⟩ := subLength_le dst src ldst lsrc length
    have zero : subLength dst src ldst lsrc length = 0#32 →
        (dst.sl ldst.sl).length - ldst.sgeOff = 0#32 ∨ (src.sl lsrc.sl).length - lsrc.sgeOff = 0#32 :=
      subLength_zero done
    generalize subLength dst src ldst lsrc length = sub at least left right zero ⊢
    have onward : ∃ subs, copySubs dst src rounds (ldst.advance dst sub) (lsrc.advance src sub) (length - sub) =
        some subs := by
      by_cases all : sub = length
      · obtain ⟨before, rfl⟩ : ∃ before, rounds = before + 1 := ⟨rounds - 1, by omega⟩
        rw [all, BitVec.sub_self]
        exact ⟨[], rfl⟩
      obtain ⟨first, fewer, drop⟩ := dstGoes.round dstInside done least left all
      obtain ⟨second, fewer', drop'⟩ := srcGoes.round srcInside done least right all
      refine ih first second ?_
      have few : sub.toNat ≤ length.toNat := least
      have rest : (length - sub).toNat = length.toNat - sub.toNat := BitVec.toNat_sub_of_le least
      by_cases none : sub = 0#32
      · rcases zero none with exhausted | exhausted
        · have drops := drop none exhausted
          omega
        · have drops := drop' none exhausted
          omega
      · have some : sub.toNat ≠ 0 := fun zero => none (BitVec.eq_of_toNat_eq zero)
        omega
    obtain ⟨subs, ran⟩ := onward
    exact ⟨sub :: subs, by dsimp only; rw [ran, Option.map_some]⟩

section Whole

variable {sgl dst src : LinuxSgl} {length : BitVec 32} {subs : List (BitVec 32)}

theorem LinuxSgl.begin_at (used : 0 < sgl.numEntries.toNat) : sgl.begin.At sgl 0 0 := ⟨rfl, used, rfl, Nat.zero_le _⟩

theorem CopyFits.used (fits : CopyFits (sgl.entriesFrom 0) length.toNat) (more : length ≠ 0#32) :
    0 < sgl.numEntries.toNat := by
  rw [← LinuxSgl.entriesFrom_ne_nil]
  intro empty
  rw [empty] at fits
  exact more (BitVec.eq_of_toNat_eq fits)

theorem CopyFits.begin_goes (fits : CopyFits (sgl.entriesFrom 0) length.toNat) (more : length ≠ 0#32) :
    sgl.begin.Goes sgl length :=
  ⟨0, 0, LinuxSgl.begin_at (fits.used more), (Nat.zero_add _).symm ▸ fits⟩

/-- Where `CopyFits` holds, the rounds from the start go through the first bytes of the list. -/
theorem CopyFits.bytes_eq (inside : sgl.Inside) (fits : CopyFits (sgl.entriesFrom 0) length.toNat)
    (steps : Steps sgl sgl.begin length subs) :
    (walk sgl sgl.begin subs).map sgl.address = sgl.bytes.take length.toNat ∧
      (sgl.begin.after sgl subs).sl ≤ sgl.numEntries.toNat - 1 := by
  by_cases zero : length = 0#32
  · rw [zero] at steps ⊢
    rw [steps.zero]
    exact ⟨rfl, Nat.zero_le _⟩
  · have used := fits.used zero
    obtain ⟨same, last⟩ := CopyFits.walk_eq inside (LinuxSgl.begin_at used) ((Nat.zero_add _).symm ▸ fits) steps
    rw [same, LinuxSgl.bytes_eq_map used, List.map_take]
    exact ⟨rfl, by omega⟩

/-- No page of one list is a page of the other one. -/
def LinuxSgl.Apart (dst src : LinuxSgl) : Prop :=
  ∀ i < dst.numEntries.toNat, ∀ j < src.numEntries.toNat, (dst.sl i).page ≠ (src.sl j).page

theorem LinuxSgl.mem_bytes {place : Nat × Nat} (member : place ∈ sgl.bytes) :
    ∃ i < sgl.numEntries.toNat, place.1 = (sgl.sl i).page := by
  rw [LinuxSgl.bytes, List.mem_flatMap] at member
  obtain ⟨i, used, inside⟩ := member
  obtain ⟨_, _, rfl⟩ := List.mem_map.mp inside
  exact ⟨i, List.mem_range.mp used, rfl⟩

theorem LinuxSgl.Apart.bytes (apart : dst.Apart src) : ∀ d ∈ dst.bytes, ∀ s ∈ src.bytes, s ≠ d := by
  intro d target s source same
  obtain ⟨i, first, pageD⟩ := LinuxSgl.mem_bytes target
  obtain ⟨j, second, pageS⟩ := LinuxSgl.mem_bytes source
  exact apart i first j second (by rw [← pageD, ← pageS, same])

/-- A copy of the first bytes of one list to those of the other one. -/
theorem copiedPrefix_of_copyAll {mem : PageMemory} {last : CopyState} {n : Nat} (apart : dst.Apart src)
    (nodup : dst.bytes.Nodup) (dstLast : last.ldst.sl ≤ dst.numEntries.toNat - 1)
    (srcLast : last.lsrc.sl ≤ src.numEntries.toNat - 1)
    (copied : last.mem = copyAll mem ((dst.bytes.take n).zip (src.bytes.take n))) :
    CopiedPrefix dst src n mem last := by
  have bytes := apart.bytes
  refine ⟨dstLast, srcLast, fun i below d s target source => ?_, fun place outside => ?_⟩
  · have separate (d : Nat × Nat) (first : d ∈ dst.bytes.take n) (s : Nat × Nat) (second : s ∈ src.bytes.take n) :
        s ≠ d := bytes d (List.mem_of_mem_take first) s (List.mem_of_mem_take second)
    rw [copied]
    exact copyAll_zip (nodup.sublist (List.take_sublist ..)) separate
      (by rw [List.getElem?_take_of_lt below, target]) (by rw [List.getElem?_take_of_lt below, source])
  · rw [copied]
    refine copyAll_of_notMem fun member => outside ?_
    obtain ⟨pair, inside, same⟩ := List.mem_map.mp member
    exact same ▸ (List.of_mem_zip inside).1

/-- What an accepted call does. -/
theorem kfioSglCopyData_eq {mem : PageMemory} {rounds : Nat}
    (accepted : ¬(length > dst.sglSize ∨ length > src.sglSize))
    (ran : copySubs dst src rounds dst.begin src.begin length = some subs) :
    kfioSglCopyData dst src length rounds mem =
      some (⟨dst.begin.after dst subs, src.begin.after src subs, 0#32,
        copyAll mem (copyPairs dst src dst.begin src.begin subs)⟩, 0) := by
  rw [kfioSglCopyData, if_neg accepted, copyLoop_eq, ran]
  rfl

theorem CopyGoes.copiesPrefix (dstInside : dst.Inside) (srcInside : src.Inside) (apart : dst.Apart src)
    (nodup : dst.bytes.Nodup) (goes : CopyGoes dst src length) : CopiesPrefix dst src length := by
  intro mem
  by_cases refused : length > dst.sglSize ∨ length > src.sglSize
  · exact ⟨0, _, _, if_pos refused, fun _ => ⟨rfl, rfl⟩, fun accepted => absurd refused accepted⟩
  obtain ⟨dstFits, srcFits⟩ : CopyFits (dst.entriesFrom 0) length.toNat ∧ CopyFits (src.entriesFrom 0) length.toNat := by
    rcases goes with first | second | fits
    · exact absurd (.inl first) refused
    · exact absurd (.inr second) refused
    · exact fits
  have ends : ∃ rounds subs, copySubs dst src rounds dst.begin src.begin length = some subs := by
    by_cases zero : length = 0#32
    · exact ⟨1, [], if_pos zero⟩
    · exact ⟨_, copySubs_ends dstInside srcInside (dstFits.begin_goes zero) (srcFits.begin_goes zero)
        (Nat.lt_succ_self _)⟩
  obtain ⟨rounds, subs, ran⟩ := ends
  obtain ⟨dstSteps, srcSteps⟩ := copySubs_steps ran
  obtain ⟨dstBytes, dstLast⟩ := dstFits.bytes_eq dstInside dstSteps
  obtain ⟨srcBytes, srcLast⟩ := srcFits.bytes_eq srcInside srcSteps
  refine ⟨rounds, _, 0, kfioSglCopyData_eq refused ran, fun again => absurd again refused, fun _ => ⟨rfl, ?_⟩⟩
  refine copiedPrefix_of_copyAll apart nodup dstLast srcLast ?_
  rw [copyPairs, dstBytes, srcBytes]

end Whole

end IomemoryVsl
