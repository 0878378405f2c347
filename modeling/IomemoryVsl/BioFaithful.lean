import IomemoryVsl.BioKickoff
import IomemoryVsl.Fbio
import IomemoryVsl.Transition
import Mathlib.Algebra.BigOperators.Group.List.Basic
import Mathlib.Algebra.Ring.Nat

namespace IomemoryVsl

open LinkChain

/-- The direction of a read or write command. -/
def KbioCmd.direction : KbioCmd → Option DataDir
  | .read => some .read
  | .write => some .write
  | _ => none

variable {β : Type} {env : BioEnv β} {fbio : KfioBio β} {p : β}

/-- The sum of the sizes of some bios. -/
def totalSize (env : BioEnv β) (chain : List β) : Nat := (chain.map fun p => (env.bio p).biSize.toNat).sum

/-- The second bio starts at the byte at which the first one ends. -/
def Follows (env : BioEnv β) (a b : β) : Prop :=
  (env.bio b).byteAddress = (env.bio a).byteAddress + (env.bio a).biSize.setWidth 64

/-- A read or write fbio describes exactly the bios of its chain. -/
structure FaithfulFbio (env : BioEnv β) (fbio : KfioBio β) (chain : List β) : Prop where
  direction : ∀ p ∈ chain, fbio.fbioCmd.direction = some (env.bio p).bioDataDir
  contiguous : chain.IsChain (Follows env)
  base : ∀ first ∈ chain.head?, fbio.fbioRange.base * env.bdev.blockSize64 = (env.bio first).byteAddress
  length : fbio.fbioRange.length.toNat * env.bdev.bdevBlockSize.toNat = totalSize env chain
  sgl : (kfioSglSize fbio.fbioSgl).toNat = totalSize env chain

/-- The bio joins the open fbio although it is malformed, or although the bytes no
longer fit into the size of an SGL. -/
def Misjoins (env : BioEnv β) (fbio : KfioBio β) (p : β) : Prop :=
  Joins env fbio p ∧ (¬env.bdev.Aligned (env.bio p) ∨
    2 ^ 32 ≤ fbio.fbioRange.length.toNat * env.bdev.bdevBlockSize.toNat + (env.bio p).biSize.toNat)

theorem totalSize_snoc (env : BioEnv β) (chain : List β) (p : β) :
    totalSize env (chain ++ [p]) = totalSize env chain + (env.bio p).biSize.toNat := by
  simp [totalSize]

/-- A block number times the block size is the address of an aligned bio again. -/
theorem bid_mul_blockSize {bdev : FioBdev} {bio : Bio} (aligned : bdev.Aligned bio) :
    linuxBioGetBid bdev bio * bdev.blockSize64 = bio.byteAddress := by
  have whole : bio.byteAddress.toNat % bdev.blockSize64.toNat = 0 := by
    have zero := congrArg BitVec.toNat aligned.1
    simpa only [BitVec.toNat_umod, BitVec.toNat_ofNat] using zero
  apply BitVec.eq_of_toNat_eq
  rw [linuxBioGetBid, BitVec.toNat_mul, BitVec.toNat_udiv, Nat.div_mul_cancel (Nat.dvd_of_mod_eq_zero whole)]
  exact Nat.mod_eq_of_lt bio.byteAddress.isLt

theorem blen_toNat (bdev : FioBdev) (bio : Bio) :
    (linuxBioGetBlen bdev bio).toNat = bio.biSize.toNat / bdev.bdevBlockSize.toNat := by
  have small : bio.biSize.toNat / bdev.bdevBlockSize.toNat ≤ bio.biSize.toNat := Nat.div_le_self _ _
  have bound := bio.biSize.isLt
  rw [linuxBioGetBlen, BitVec.toNat_setWidth, BitVec.toNat_udiv]
  exact Nat.mod_eq_of_lt (by omega)

theorem blen_mul_blockSize {bdev : FioBdev} {bio : Bio} (aligned : bdev.Aligned bio) :
    (linuxBioGetBlen bdev bio).toNat * bdev.bdevBlockSize.toNat = bio.biSize.toNat := by
  have whole : bio.biSize.toNat % bdev.bdevBlockSize.toNat = 0 := by
    have zero := congrArg BitVec.toNat aligned.2
    simpa only [BitVec.toNat_umod, BitVec.toNat_ofNat] using zero
  rw [blen_toNat, Nat.div_mul_cancel (Nat.dvd_of_mod_eq_zero whole)]

theorem blen_lt (bdev : FioBdev) (bio : Bio) : (linuxBioGetBlen bdev bio).toNat < 2 ^ 32 := by
  have small : bio.biSize.toNat / bdev.bdevBlockSize.toNat ≤ bio.biSize.toNat := Nat.div_le_self _ _
  have bound := bio.biSize.isLt
  rw [blen_toNat]
  omega

theorem segmentBytes_eq_biSize {bio : Bio} (data : bio.kfioBioIsDiscard = false) :
    segmentBytes bio.segments = bio.biSize.toNat := by
  refine bio.sized ?_
  simpa [Bio.kfioBioIsDiscard, Bio.bioOp] using data

theorem blockSize64_toNat (bdev : FioBdev) : bdev.blockSize64.toNat = bdev.bdevBlockSize.toNat := by
  have bound := bdev.bdevBlockSize.isLt
  rw [FioBdev.blockSize64, BitVec.toNat_setWidth]
  exact Nat.mod_eq_of_lt (by omega)

/-- An aligned bio at the upper bound of a faithful fbio starts where the bytes of
its chain end. -/
theorem FaithfulFbio.byteAddress_eq {fbio : KfioBio β} {first : β} {rest : List β}
    (faithful : FaithfulFbio env fbio (first :: rest)) (aligned : env.bdev.Aligned (env.bio p))
    (next : fioRangeUpperBound fbio.fbioRange = linuxBioGetBid env.bdev (env.bio p)) :
    (env.bio p).byteAddress = (env.bio first).byteAddress + BitVec.ofNat 64 (totalSize env (first :: rest)) := by
  have start := faithful.base first rfl
  calc (env.bio p).byteAddress
      = fioRangeUpperBound fbio.fbioRange * env.bdev.blockSize64 := by
        rw [next, bid_mul_blockSize aligned]
    _ = fbio.fbioRange.base * env.bdev.blockSize64 + fbio.fbioRange.length * env.bdev.blockSize64 := by
        rw [fioRangeUpperBound, BitVec.mul_comm, BitVec.mul_add, BitVec.mul_comm _ fbio.fbioRange.base,
          BitVec.mul_comm _ fbio.fbioRange.length]
    _ = (env.bio first).byteAddress + BitVec.ofNat 64 (totalSize env (first :: rest)) := by
        rw [start, ← faithful.length, BitVec.ofNat_mul, BitVec.ofNat_toNat, BitVec.setWidth_eq,
          ← blockSize64_toNat, BitVec.ofNat_toNat, BitVec.setWidth_eq]

/-- A bio that starts where the whole chain ends follows its last bio. -/
theorem contiguous_snoc {first : β} {rest : List β} (chain : (first :: rest).IsChain (Follows env))
    (next : (env.bio p).byteAddress =
      (env.bio first).byteAddress + BitVec.ofNat 64 (totalSize env (first :: rest))) :
    (first :: rest ++ [p]).IsChain (Follows env) := by
  have size (q : β) : BitVec.ofNat 64 (env.bio q).biSize.toNat = (env.bio q).biSize.setWidth 64 := by
    rw [← BitVec.ofNat_toNat]
  induction rest generalizing first with
  | nil =>
    refine .cons_cons ?_ (.singleton _)
    rw [Follows, next, totalSize, List.map_singleton, List.sum_singleton, size]
  | cons second rest ih =>
    obtain ⟨here, tail⟩ := List.isChain_cons_cons.mp chain
    refine .cons_cons here (ih tail ?_)
    have total : totalSize env (first :: second :: rest) =
        (env.bio first).biSize.toNat + totalSize env (second :: rest) := by
      simp [totalSize]
    rw [next, here, total, BitVec.ofNat_add, size, BitVec.add_assoc]

theorem direction_of_sameDirection {cmd : KbioCmd} {dir : DataDir} (same : sameDirection cmd dir = true) :
    cmd.direction = some dir := by
  cases cmd <;> cases dir <;> first | rfl | cases same

/-- What holds of every fbio as long as no bio misjoins. -/
structure Sound (env : BioEnv β) (merged : Merged β (KfioBio β)) : Prop where
  aligned : ∀ p ∈ merged.bios, env.bdev.Aligned (env.bio p)
  short : merged.fbio.fbioRange.length.toNat < 2 ^ 32
  some : merged.bios ≠ []
  faithful : merged.fbio.fbioCmd.direction ≠ none → FaithfulFbio env merged.fbio merged.bios

theorem sound_map (made : kfioMapToFbio env p = some fbio) : Sound env ⟨fbio, [p]⟩ := by
  obtain ⟨aligned, _, cmd, range, size⟩ := kfioMapToFbio_eq_some made
  have total : totalSize env [p] = (env.bio p).biSize.toNat := by simp [totalSize]
  refine ⟨by simpa using aligned, ?_, List.cons_ne_nil _ _, fun moves => ?_⟩
  · rw [range]
    exact blen_lt _ _
  have data : (env.bio p).kfioBioIsDiscard = false := by
    cases discard : (env.bio p).kfioBioIsDiscard with
    | false => rfl
    | true => simp [cmd, fbioCommand, discard, KbioCmd.direction] at moves
  refine ⟨?_, .singleton _, ?_, ?_, ?_⟩
  · intro q member
    rw [List.mem_singleton.mp member, cmd, fbioCommand, data]
    cases dir : (env.bio p).bioDataDir <;> rfl
  · intro first member
    simp only [List.head?_cons, Option.mem_def, Option.some.injEq] at member
    subst member
    rw [range]
    exact bid_mul_blockSize aligned
  · rw [range, total]
    exact blen_mul_blockSize aligned
  · rw [kfioSglSize, size data, segmentBytes_eq_biSize data, total]
    simp

/-- A refused bio leaves a sound fbio sound. -/
theorem Sound.refused {merged : Merged β (KfioBio β)} (sound : Sound env merged) (apart : ¬Joins env merged.fbio p) :
    Sound env ⟨(kfioKbioAddBio env merged.fbio p).1, merged.bios⟩ := by
  obtain ⟨_, sgl, same, size⟩ := kfioKbioAddBio_of_not_joins apart
  rw [same]
  refine ⟨sound.aligned, sound.short, sound.some, fun moves => ?_⟩
  obtain ⟨direction, contiguous, base, length, total⟩ := sound.faithful moves
  refine ⟨direction, contiguous, base, length, ?_⟩
  rw [kfioSglSize, size]
  exact total

/-- A well-formed bio that joins keeps the fbio sound. -/
theorem Sound.joined {merged : Merged β (KfioBio β)} (sound : Sound env merged) (joins : Joins env merged.fbio p)
    (right : ¬Misjoins env merged.fbio p) :
    Sound env ⟨(kfioKbioAddBio env merged.fbio p).1, merged.bios ++ [p]⟩ := by
  obtain ⟨aligned, fits⟩ := not_or.mp fun wrong => right ⟨joins, wrong⟩
  rw [not_not] at aligned
  rw [kfioKbioAddBio_of_joins joins]
  obtain ⟨data, same, _, _, next, room, mapped⟩ := joins
  have way := direction_of_sameDirection same
  have faithful := sound.faithful (by rw [way]; exact Option.some_ne_none _)
  have added : (merged.fbio.fbioRange.length + linuxBioGetBlen env.bdev (env.bio p)).toNat =
      merged.fbio.fbioRange.length.toNat + (linuxBioGetBlen env.bdev (env.bio p)).toNat := by
    have before := sound.short
    have more := blen_lt env.bdev (env.bio p)
    rw [BitVec.toNat_add]
    exact Nat.mod_eq_of_lt (by omega)
  refine ⟨?_, ?_, by simp, fun _ => ⟨?_, ?_, ?_, ?_, ?_⟩⟩
  · intro q member
    rcases List.mem_append.mp member with old | new
    · exact sound.aligned q old
    · rw [List.mem_singleton.mp new]
      exact aligned
  · have limit : fusionMaxSectorsPerOsRwRequest.toNat = 2048 := rfl
    rw [gt_iff_lt, BitVec.lt_def, limit] at room
    show (merged.fbio.fbioRange.length + linuxBioGetBlen env.bdev (env.bio p)).toNat < 2 ^ 32
    omega
  · intro q member
    rcases List.mem_append.mp member with old | new
    · exact faithful.direction q old
    · rw [List.mem_singleton.mp new]
      exact way
  · obtain ⟨first, rest, bios⟩ := List.exists_cons_of_ne_nil sound.some
    rw [bios] at faithful ⊢
    exact contiguous_snoc faithful.contiguous (faithful.byteAddress_eq aligned next)
  · intro first member
    refine faithful.base first ?_
    obtain ⟨head, rest, bios⟩ := List.exists_cons_of_ne_nil sound.some
    rw [bios] at member ⊢
    exact member
  · rw [added, Nat.add_mul, faithful.length, blen_mul_blockSize aligned, totalSize_snoc]
  · have size := kfioSglMapBio_size merged.fbio.fbioSgl (env.bio p).segments
    rw [if_pos mapped, segmentBytes_eq_biSize data] at size
    have total := faithful.sgl
    rw [kfioSglSize] at total ⊢
    rw [size, BitVec.toNat_add, BitVec.toNat_ofNat, total, totalSize_snoc, Nat.add_mod_mod]
    rw [faithful.length] at fits
    exact Nat.mod_eq_of_lt (by omega)

/-- No bio of the list misjoins the fbio that is open when its turn comes. -/
def NoMisjoin (env : BioEnv β) (bios : List β) : Prop :=
  Transition.Historical (fun before p => ∀ merged, (mergeBios (kfioOps env) before).current = some merged →
    ¬Misjoins env merged.fbio p) bios

theorem mergeBios_sound {bios : List β} (clean : NoMisjoin env bios) :
    ∀ merged ∈ (mergeBios (kfioOps env) bios).fbios, Sound env merged := by
  induction bios using List.reverseRecOn with
  | nil =>
    intro merged member
    simp [mergeBios, Merge.initial, Merge.fbios] at member
  | append_singleton bios p ih =>
    obtain ⟨before, now⟩ := Transition.historical_snoc_iff.mp clean
    rw [mergeBios_snoc]
    refine Merge.step_all (ih before) (fun fbio made => sound_map made) ?_ ?_
    · intro merged isOpen sound added
      exact sound.joined (kfioKbioAddBio_eq_zero_iff.mp added) (now merged isOpen)
    · intro merged sound refused
      exact sound.refused fun joins => refused (kfioKbioAddBio_eq_zero_iff.mpr joins)

/-- An fbio that no submission can make good again. -/
def Spoiled (env : BioEnv β) (merged : Merged β (KfioBio β)) : Prop :=
  (∃ p ∈ merged.bios, ¬env.bdev.Aligned (env.bio p)) ∨
    (merged.fbio.fbioCmd.direction ≠ none ∧ 2 ^ 32 ≤ totalSize env merged.bios)

theorem Spoiled.grown {merged : Merged β (KfioBio β)} (spoiled : Spoiled env merged) (more : List β) :
    Spoiled env ⟨(kfioKbioAddBio env merged.fbio p).1, merged.bios ++ more⟩ := by
  rcases spoiled with ⟨q, member, crooked⟩ | ⟨moves, large⟩
  · exact .inl ⟨q, List.mem_append_left _ member, crooked⟩
  · refine .inr ⟨?_, ?_⟩
    · rw [(kfioKbioAddBio_parameter env merged.fbio p).2]
      exact moves
    · refine Nat.le_trans large ?_
      simp [totalSize]

theorem Misjoins.spoils {merged : Merged β (KfioBio β)} (sound : Sound env merged)
    (wrong : Misjoins env merged.fbio p) :
    Spoiled env ⟨(kfioKbioAddBio env merged.fbio p).1, merged.bios ++ [p]⟩ := by
  obtain ⟨joins, crooked | large⟩ := wrong
  · exact .inl ⟨p, by simp, crooked⟩
  · have way := direction_of_sameDirection joins.2.1
    have moves : merged.fbio.fbioCmd.direction ≠ none := by
      rw [way]
      exact Option.some_ne_none _
    refine .inr ⟨?_, ?_⟩
    · rw [(kfioKbioAddBio_parameter env merged.fbio p).2]
      exact moves
    · rw [totalSize_snoc, ← (sound.faithful moves).length]
      exact large

theorem mergeBios_spoiled {bios : List β} (misjoin : ¬NoMisjoin env bios) :
    ∃ merged ∈ (mergeBios (kfioOps env) bios).fbios, Spoiled env merged := by
  induction bios using List.reverseRecOn with
  | nil => exact absurd (Transition.historical_nil _) misjoin
  | append_singleton bios p ih =>
    rw [mergeBios_snoc]
    by_cases clean : NoMisjoin env bios
    · have wrong : ∃ merged, (mergeBios (kfioOps env) bios).current = some merged ∧ Misjoins env merged.fbio p := by
        by_contra none
        refine misjoin (Transition.historical_snoc_iff.mpr ⟨clean, fun merged isOpen wrong => ?_⟩)
        exact none ⟨merged, isOpen, wrong⟩
      obtain ⟨merged, isOpen, wrong⟩ := wrong
      have sound := mergeBios_sound clean merged (by simp [Merge.fbios, isOpen])
      have added : ((kfioOps env).kfioKbioAddBio merged.fbio p).2 = 0 := kfioKbioAddBio_eq_zero_iff.mpr wrong.1
      refine ⟨⟨(kfioKbioAddBio env merged.fbio p).1, merged.bios ++ [p]⟩, ?_, wrong.spoils sound⟩
      simp only [Merge.step, isOpen, added, if_true, Merge.fbios]
      exact List.mem_append_right _ (List.mem_singleton_self _)
    · refine Merge.step_some (ih clean) ?_ ?_
      · exact fun merged spoiled => spoiled.grown [p]
      · intro merged spoiled
        have same := spoiled.grown (p := p) []
        rwa [List.append_nil] at same

/-- What the log of `kfio_kickoff_plugged_io` should say about a list of bios. -/
structure MergesFaithfully (env : BioEnv β) (bios : List β) (final : BioPath β (KfioBio β)) : Prop where
  faithful : ∀ sub ∈ final.submitted, ∀ chain, IsChain sub.links (some sub.fbio.fbioParameter) chain →
    sub.fbio.fbioCmd.direction ≠ none → FaithfulFbio env sub.fbio chain
  aligned : ∀ sub ∈ final.submitted, ∀ chain, IsChain sub.links (some sub.fbio.fbioParameter) chain →
    ∀ p ∈ chain, env.bdev.Aligned (env.bio p)
  rejected : ∀ p ∈ bios, ¬env.bdev.Aligned (env.bio p) → (p, -eio) ∈ final.completed

theorem forall₂_mem_left {α γ : Type} {R : α → γ → Prop} {left : List α} {right : List γ} {a : α}
    (related : List.Forall₂ R left right) (member : a ∈ left) : ∃ b ∈ right, R a b := by
  induction related with
  | nil => cases member
  | @cons x y left right first _ ih =>
    rcases List.mem_cons.mp member with rfl | later
    · exact ⟨y, List.mem_cons_self, first⟩
    · obtain ⟨b, inside, related⟩ := ih later
      exact ⟨b, List.mem_cons_of_mem _ inside, related⟩

variable [DecidableEq β]

/-- The merging done by `kfio_kickoff_plugged_io` is faithful exactly when no bio
misjoins. -/
theorem kfioKickoffPluggedIo_faithful_iff (env : BioEnv β) {links : β → Option β} {bio : β} {rest : List β}
    {fuel : Nat} (distinct : (bio :: rest).Nodup) (chain : IsChain links (some bio) (bio :: rest))
    (enough : rest.length < fuel) :
    ∃ final, kfioKickoffPluggedIo (kfioOps env) fuel ⟨links, [], []⟩ bio = some final ∧
      (MergesFaithfully env (bio :: rest) final ↔ NoMisjoin env (bio :: rest)) := by
  obtain ⟨final, subs, ran, submitted, submits, completed, _⟩ :=
    kfioKickoffPluggedIo_spec (kfioOps env) ⟨links, [], []⟩ distinct chain enough
  refine ⟨final, ran, ?_⟩
  rw [List.nil_append] at submitted completed
  have splits := mergeBios_splits (kfioOps env) distinct
  have found (sub : Submission β (KfioBio β)) (member : sub ∈ final.submitted) (chain : List β)
      (isChain : IsChain sub.links (some sub.fbio.fbioParameter) chain) :
      ⟨sub.fbio, chain⟩ ∈ (mergeBios (kfioOps env) (bio :: rest)).fbios := by
    rw [submitted] at member
    obtain ⟨merged, inside, fits⟩ := forall₂_mem_left submits member
    have own := fits.chain
    rw [← fits.fbio] at own
    rw [isChain.unique own, fits.fbio]
    exact inside
  constructor
  · intro merges
    by_contra misjoin
    obtain ⟨merged, inside, spoiled⟩ := mergeBios_spoiled misjoin
    obtain ⟨sub, member, fits⟩ := forall₂_mem_left submits.flip inside
    rw [← submitted] at member
    have own := fits.chain
    rw [← fits.fbio] at own
    rcases spoiled with ⟨p, among, crooked⟩ | ⟨moves, large⟩
    · exact crooked (merges.aligned sub member _ own p among)
    · rw [← fits.fbio] at moves
      have total := (merges.faithful sub member _ own moves).sgl
      have bound := (kfioSglSize sub.fbio.fbioSgl).isLt
      omega
  · intro clean
    have sound := mergeBios_sound clean
    refine ⟨?_, ?_, ?_⟩
    · intro sub member chain isChain moves
      exact (sound _ (found sub member chain isChain)).faithful moves
    · intro sub member chain isChain
      exact (sound _ (found sub member chain isChain)).aligned
    · intro p member crooked
      have refused : p ∈ (mergeBios (kfioOps env) (bio :: rest)).failed := by
        by_contra kept
        have accepted : p ∈ (mergeBios (kfioOps env) (bio :: rest)).accepted := by
          rw [splits.accepted]
          exact List.mem_filter.mpr ⟨member, by simpa using kept⟩
        obtain ⟨merged, inside, among⟩ := List.mem_flatMap.mp accepted
        exact crooked ((sound merged inside).aligned p among)
      rw [completed]
      exact List.mem_map.mpr ⟨p, refused, rfl⟩

/-- Two contiguous pages are merged, and the malformed bio behind them fails. -/
theorem kfioKickoffPluggedIo_faithful_iff_pages :
    ∃ final, kfioKickoffPluggedIo (kfioOps (pageWrites [0#64, 8#64, 3#64])) 3
        ⟨Function.update (Function.update (fun _ => none) 0 (some 1)) 1 (some 2), [], []⟩ 0 = some final ∧
      (MergesFaithfully (pageWrites [0#64, 8#64, 3#64]) [0, 1, 2] final ↔
        NoMisjoin (pageWrites [0#64, 8#64, 3#64]) [0, 1, 2]) :=
  kfioKickoffPluggedIo_faithful_iff _ (by decide) (.node (.node (.node .done))) (by decide)

/-- A write of the block at sector 0 is followed by a write at sector 9, inside
the next block. Its block number is cut to 1, so it is merged as if it started
at sector 8. -/
theorem kfioKickoffPluggedIo_malformed_merged :
    ¬∀ final, kfioKickoffPluggedIo (kfioOps (pageWrites [0#64, 9#64])) 2
        ⟨Function.update (fun _ => none) 0 (some 1), [], []⟩ 0 = some final →
      MergesFaithfully (pageWrites [0#64, 9#64]) [0, 1] final := by
  intro always
  have crooked : ¬(pageWrites [0#64, 9#64]).bdev.Aligned ((pageWrites [0#64, 9#64]).bio 1) := by decide
  have unfailed : (kfioKickoffPluggedIo (kfioOps (pageWrites [0#64, 9#64])) 2
      ⟨Function.update (fun _ => none) 0 (some 1), [], []⟩ 0).any (fun final => final.completed.isEmpty) = true := by
    decide
  obtain ⟨final, ran, empty⟩ := (Option.any_eq_true _ _).mp unfailed
  have completed := (always final ran).rejected 1 (by simp) crooked
  rw [List.isEmpty_iff.mp empty] at completed
  cases completed

end IomemoryVsl
