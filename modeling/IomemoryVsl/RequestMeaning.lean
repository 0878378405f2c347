import IomemoryVsl.BioMeaning
import IomemoryVsl.BioRequest

namespace IomemoryVsl

open Transfer

variable {β : Type}

/-- The bios lie one behind the other on the device. -/
def Consecutive (bio : β → Bio) : Nat → List β → Prop
  | _, [] => True
  | start, p :: rest => (bio p).start = start ∧ Consecutive bio (start + (bio p).biSize.toNat) rest

instance (bio : β → Bio) : (start : Nat) → (bios : List β) → Decidable (Consecutive bio start bios)
  | _, [] => .isTrue trivial
  | _, _ :: rest => @instDecidableAnd _ _ _ (instDecidableConsecutive bio _ rest)

/-- What the block layer promises of a request: whole blocks of the device, and
consecutive bios of one operation that add up to its size. -/
structure BlkRequest.WellFormed (bdev : FioBdev) (bio : β → Bio) (req : BlkRequest β) : Prop where
  aligned : req.pos.toNat * 512 % bdev.bdevBlockSize.toNat = 0
  whole : req.bytes.toNat % bdev.bdevBlockSize.toNat = 0
  inside : req.pos.toNat * 512 < 2 ^ 64
  op : ∀ p ∈ req.bios, (bio p).bioOp = req.reqOp
  pages : ∀ p ∈ req.bios, ∀ vec ∈ (bio p).segments, vec.bvOffset.toNat + vec.bvLen.toNat ≤ fusionPageSize
  consecutive : Consecutive bio (req.pos.toNat * 512) req.bios
  size : (req.bios.map fun p => (bio p).biSize.toNat).sum = req.bytes.toNat

variable {bio : β → Bio} {bdev : FioBdev} {req : BlkRequest β}

theorem trimMoves_add (start a b : Nat) :
    trimMoves start (a + b) = trimMoves start a ++ trimMoves (start + a) b := by
  rw [trimMoves, List.range_add, List.map_append, List.map_map, trimMoves, trimMoves]
  congr 1
  refine List.map_congr_left fun k _ => ?_
  rw [Function.comp_apply, Nat.add_assoc]

theorem dataMoves_consecutive {dir : DataDir} {start : Nat} {bios : List β} (next : Consecutive bio start bios)
    (data : ∀ p ∈ bios, (bio p).kfioBioIsDiscard = false ∧ (bio p).bioDataDir = dir) :
    dataMoves dir start (bios.flatMap fun p => (bio p).segments.flatMap BioVec.bytes) =
      bios.flatMap fun p => (bio p).moves := by
  induction bios generalizing start with
  | nil => rfl
  | cons p rest ih =>
    obtain ⟨here, later⟩ := next
    obtain ⟨plain, way⟩ := data p List.mem_cons_self
    rw [List.flatMap_cons, List.flatMap_cons, dataMoves_append, Bio.bytes_length plain, ih later fun q member =>
      data q (List.mem_cons_of_mem _ member), Bio.moves, plain, way, here]
    rfl

theorem trimMoves_consecutive {start : Nat} {bios : List β} (next : Consecutive bio start bios)
    (discard : ∀ p ∈ bios, (bio p).kfioBioIsDiscard = true) :
    trimMoves start (bios.map fun p => (bio p).biSize.toNat).sum = bios.flatMap fun p => (bio p).moves := by
  induction bios generalizing start with
  | nil => rfl
  | cons p rest ih =>
    obtain ⟨here, later⟩ := next
    rw [List.map_cons, List.sum_cons, trimMoves_add,
      ih later fun q member => discard q (List.mem_cons_of_mem _ member),
      List.flatMap_cons, Bio.moves, discard p List.mem_cons_self, if_pos rfl, here]

theorem bytes_kfioSglMapBios {sgl : LinuxSgl} {bios : List β} (inside : sgl.Inside)
    (pages : ∀ p ∈ bios, ∀ vec ∈ (bio p).segments, vec.bvOffset.toNat + vec.bvLen.toNat ≤ fusionPageSize)
    (mapped : (kfioSglMapBios bio sgl bios).2 = 0) :
    (kfioSglMapBios bio sgl bios).1.bytes =
      sgl.bytes ++ bios.flatMap fun p => (bio p).segments.flatMap BioVec.bytes := by
  induction bios generalizing sgl with
  | nil => exact (List.append_nil _).symm
  | cons p rest ih =>
    simp only [kfioSglMapBios] at mapped ⊢
    split at mapped
    · rename_i failed
      exact absurd mapped failed
    · rename_i here
      rw [if_neg here]
      obtain ⟨bytes, within⟩ := bytes_kfioSglMapBio inside (pages p List.mem_cons_self) (not_not.mp here)
      rw [ih within (fun q member => pages q (List.mem_cons_of_mem _ member)) mapped, bytes, List.flatMap_cons,
        List.append_assoc]

namespace BlkRequest

theorem WellFormed.base (formed : req.WellFormed bdev bio) :
    (req.pos <<< 9 / bdev.blockSize64).toNat * bdev.bdevBlockSize.toNat = req.pos.toNat * 512 := by
  have inside := formed.inside
  have shifted : (req.pos <<< 9).toNat = req.pos.toNat * 512 := by
    rw [BitVec.toNat_shiftLeft, Nat.shiftLeft_eq]
    exact Nat.mod_eq_of_lt inside
  rw [BitVec.toNat_udiv, shifted, blockSize64_toNat, Nat.div_mul_cancel (Nat.dvd_of_mod_eq_zero formed.aligned)]

theorem WellFormed.length (formed : req.WellFormed bdev bio) :
    ((req.bytes / bdev.bdevBlockSize).setWidth 64).toNat * bdev.bdevBlockSize.toNat = req.bytes.toNat := by
  have range := req.bytes.isLt
  have small : req.bytes.toNat / bdev.bdevBlockSize.toNat ≤ req.bytes.toNat := Nat.div_le_self _ _
  rw [BitVec.toNat_setWidth, BitVec.toNat_udiv, Nat.mod_eq_of_lt (by omega),
    Nat.div_mul_cancel (Nat.dvd_of_mod_eq_zero formed.whole)]

/-- The bios of a request go its way. -/
theorem WellFormed.bioDataDir (formed : req.WellFormed bdev bio) {p : β} (member : p ∈ req.bios) :
    (bio p).bioDataDir = req.rqDataDir := by
  rw [Bio.bioDataDir, formed.op p member]
  rfl

theorem WellFormed.kfioBioIsDiscard (formed : req.WellFormed bdev bio) {p : β} (member : p ∈ req.bios) :
    (bio p).kfioBioIsDiscard = (req.reqOp == reqOpDiscard) := by
  rw [Bio.kfioBioIsDiscard, formed.op p member]

end BlkRequest

/-- The moves of a request that carries data, whatever bios it is made of. -/
theorem kfioRequestToBio_moves {enableDiscard : Bool}
    {alloc : Bool → Option ({ sgl : LinuxSgl // sgl.Empty } × BitVec 32)} {canBlock : Bool}
    {fbio : KfioBio (BlkRequest β)} (formed : req.WellFormed bdev bio)
    (enabled : req.reqOp = reqOpDiscard → enableDiscard = true)
    (made : kfioRequestToBio bdev bio enableDiscard alloc req canBlock = some fbio) :
    fbioMoves bdev fbio = req.bios.flatMap fun p => (bio p).moves := by
  have data (plain : req.reqOp ≠ reqOpDiscard) :
      ∀ p ∈ req.bios, (bio p).kfioBioIsDiscard = false ∧ (bio p).bioDataDir = req.rqDataDir := by
    intro p member
    refine ⟨?_, formed.bioDataDir member⟩
    rw [formed.kfioBioIsDiscard member]
    exact beq_eq_false_iff_ne.mpr plain
  have bytes (plain : req.reqOp ≠ reqOpDiscard) :
      (req.bios.flatMap fun p => (bio p).segments.flatMap BioVec.bytes).length = req.bytes.toNat := by
    rw [List.length_flatMap, ← formed.size]
    congr 1
    exact List.map_congr_left fun p member => Bio.bytes_length (data plain p member).1
  unfold kfioRequestToBio at made
  split at made
  · cases made
  rename_i sgl flags _
  dsimp only at made
  split at made
  · -- an empty flush moves nothing
    rename_i flush
    cases made
    obtain ⟨none, op⟩ := Bool.and_eq_true_iff.mp flush
    have plain : req.reqOp ≠ reqOpDiscard := by
      rw [beq_iff_eq.mp op]
      decide
    have empty := bytes plain
    rw [beq_iff_eq.mp none] at empty
    rw [← dataMoves_consecutive formed.consecutive (data plain), List.length_eq_zero_iff.mp empty]
    rfl
  split at made
  · rename_i discard
    cases made
    have trims : ∀ p ∈ req.bios, (bio p).kfioBioIsDiscard = true := by
      intro p member
      rw [formed.kfioBioIsDiscard member, discard.2]
      rfl
    rw [← trimMoves_consecutive formed.consecutive trims, formed.size]
    simp only [fbioMoves, formed.base, formed.length]
  · rename_i other
    have plain : req.reqOp ≠ reqOpDiscard := fun discard => other ⟨enabled discard, discard⟩
    split at made
    · cases made
    · rename_i mapped
      cases made
      have all := bytes_kfioSglMapBios (inside_empty sgl.2) formed.pages (not_not.mp mapped)
      rw [bytes_empty sgl.2, List.nil_append] at all
      rw [← dataMoves_consecutive formed.consecutive (data plain), ← all, ← formed.base]
      refine fbioMoves_data ?_ ?_
      · show (requestCommand req flags).1.direction = _
        rw [requestCommand]
        cases dir : req.rqDataDir <;> rfl
      · show (kfioSglMapBios bio sgl.1 req.bios).1.bytes.length = _
        rw [all, bytes plain]
        exact formed.length.symm

/-- The queued path preserves the meaning of a request too: one fbio does what its bios
do, one after the other. -/
theorem kfioRequestToBio_means {ν : Type} {enableDiscard : Bool}
    {alloc : Bool → Option ({ sgl : LinuxSgl // sgl.Empty } × BitVec 32)} {canBlock : Bool}
    {fbio : KfioBio (BlkRequest β)} (formed : req.WellFormed bdev bio)
    (enabled : req.reqOp = reqOpDiscard → enableDiscard = true)
    (made : kfioRequestToBio bdev bio enableDiscard alloc req canBlock = some fbio) (s : Store Nat (Nat × Nat) ν) :
    runFbios bdev [fbio] s = runBios bio req.bios s := by
  have same : List.Forall₂ (fun (fbio : KfioBio (BlkRequest β)) group => fbioMoves bdev fbio =
      group.flatMap fun p => (bio p).moves) [fbio] [req.bios] :=
    .cons (kfioRequestToBio_moves formed enabled made) .nil
  have groups := run_groups same s
  rw [List.flatten_singleton] at groups
  exact groups

/-- A write of two pages that come in two bios. -/
def twoPages : BlkRequest Nat := ⟨0#64, 8192#32, 1#32, [0, 1]⟩

theorem kfioRequestToBio_means_pages : ∃ fbio,
    kfioRequestToBio (pageWrites [0#64, 8#64]).bdev (pageWrites [0#64, 8#64]).bio false
      (fun _ => freshFbio) twoPages
      true = some fbio ∧
    ∀ s : Store Nat (Nat × Nat) UInt8,
      runFbios (pageWrites [0#64, 8#64]).bdev [fbio] s = runBios (pageWrites [0#64, 8#64]).bio [0, 1] s := by
  have formed : twoPages.WellFormed (pageWrites [0#64, 8#64]).bdev (pageWrites [0#64, 8#64]).bio := by
    refine ⟨by decide, by decide, by decide, by decide, ?_, by decide, by decide⟩
    rintro p _ vec inside
    rw [List.mem_singleton.mp inside]
    exact Nat.le_refl _
  have some : (kfioRequestToBio (pageWrites [0#64, 8#64]).bdev (pageWrites [0#64, 8#64]).bio false
    (fun _ => freshFbio)
      twoPages true).isSome = true := by decide
  obtain ⟨fbio, made⟩ := Option.isSome_iff_exists.mp some
  exact ⟨fbio, made, fun s => kfioRequestToBio_means formed (by decide) made s⟩

end IomemoryVsl
