import IomemoryVsl.BioFaithful

namespace IomemoryVsl

open LinkChain

variable {β : Type} {env : BioEnv β} {fbio : KfioBio β} {p : β}

/-- The bio writes and carries `REQ_SYNC`. -/
def Bio.SyncWrite (bio : Bio) : Prop := bio.bioDataDir = .write ∧ bio.biOpf &&& reqSync ≠ 0#32

instance (bio : Bio) : Decidable bio.SyncWrite := inferInstanceAs (Decidable (_ ∧ _))

/-- Every submitted write that has a sync write in its chain is flagged so. -/
def KeepsSync (env : BioEnv β) (final : BioPath β (KfioBio β)) : Prop :=
  ∀ sub ∈ final.submitted, ∀ chain, IsChain sub.links (some sub.fbio.fbioParameter) chain →
    sub.fbio.fbioCmd = .write → (∃ p ∈ chain, (env.bio p).SyncWrite) → sub.fbio.fbioFlags &&& kbioFlgSync ≠ 0#32

/-- `kfio_map_to_fbio` can make an fbio of a bio with data. -/
def Mappable (env : BioEnv β) (p : β) : Prop :=
  env.bdev.Aligned (env.bio p) ∧ ∃ sgl, env.kfioBioAlloc p = some sgl ∧
    (kfioSglMapBio sgl.1 (env.bio p).segments).2 = 0

/-- The macro `bio_flags` cuts `bi_opf` down to the operation, so the test for
`REQ_SYNC` behind it never succeeds. -/
theorem kfioBioSync_eq_false (bio : Bio) : bio.kfioBioSync = false := by
  rw [Bio.kfioBioSync, beq_eq_false_iff_ne]
  intro same
  have bit := congrArg (fun flags => flags.getLsbD 11) same
  simp only [Bio.bioFlags, BitVec.getLsbD_and] at bit
  have cut : reqOpMask.getLsbD 11 = false := by decide
  have set : reqSync.getLsbD 11 = true := by decide
  rw [cut, set, Bool.and_false] at bit
  cases bit

theorem fbioCommand_unsynced (bio : Bio) : (fbioCommand bio).2 &&& kbioFlgSync = 0#32 := by
  simp only [fbioCommand, kfioBioSync_eq_false, Bool.false_eq_true, if_false, BitVec.zero_or]
  split
  · rfl
  split
  · split
    · rfl
    · rfl
  · rfl

theorem fbioCommand_eq_write_iff (bio : Bio) :
    (fbioCommand bio).1 = .write ↔ bio.kfioBioIsDiscard = false ∧ bio.bioDataDir = .write := by
  unfold fbioCommand
  cases bio.kfioBioIsDiscard <;> cases bio.bioDataDir <;> simp

theorem kfioMapToFbio_flags (made : kfioMapToFbio env p = some fbio) :
    fbio.fbioFlags = (fbioCommand (env.bio p)).2 := by
  unfold kfioMapToFbio at made
  dsimp only at made
  split at made
  · cases made
  split at made
  · cases made
  split at made
  · cases made
    rfl
  · split at made
    · cases made
    · cases made
      rfl

/-- A bio with data gets an fbio exactly when it is mappable. -/
theorem kfioMapToFbio_isSome_iff (data : (env.bio p).kfioBioIsDiscard = false) :
    (∃ fbio, kfioMapToFbio env p = some fbio) ↔ Mappable env p := by
  unfold kfioMapToFbio Mappable
  dsimp only
  by_cases aligned : env.bdev.Aligned (env.bio p)
  · cases alloc : env.kfioBioAlloc p with
    | none => simp [aligned]
    | some sgl =>
      by_cases mapped : (kfioSglMapBio sgl.1 (env.bio p).segments).2 = 0
      · simp [aligned, data, mapped]
      · simp [aligned, data, mapped]
  · simp [aligned]

theorem kfioKbioAddBio_flags (env : BioEnv β) (fbio : KfioBio β) (p : β) :
    (kfioKbioAddBio env fbio p).1.fbioFlags = fbio.fbioFlags := by
  by_cases joins : Joins env fbio p
  · rw [kfioKbioAddBio_of_joins joins]
  · obtain ⟨_, sgl, same, _⟩ := kfioKbioAddBio_of_not_joins joins
    rw [same]

/-- Neither way into an fbio is open to a sync write when its turn comes. -/
def SyncRefused (env : BioEnv β) (bios : List β) : Prop :=
  Transition.Historical (fun before p => (env.bio p).SyncWrite → (env.bio p).kfioBioIsDiscard = false →
    ¬Mappable env p ∧ ∀ merged, (mergeBios (kfioOps env) before).current = some merged →
      ¬Joins env merged.fbio p) bios

/-- No fbio of the bio path is flagged as sync. -/
theorem mergeBios_unsynced (env : BioEnv β) (bios : List β) :
    ∀ merged ∈ (mergeBios (kfioOps env) bios).fbios, merged.fbio.fbioFlags &&& kbioFlgSync = 0#32 := by
  induction bios using List.reverseRecOn with
  | nil =>
    intro merged member
    cases member
  | append_singleton bios p ih =>
    rw [mergeBios_snoc]
    refine Merge.step_all ih ?_ ?_ ?_
    · intro fbio made
      rw [kfioMapToFbio_flags made]
      exact fbioCommand_unsynced _
    · intro merged _ unsynced _
      exact (congrArg (· &&& kbioFlgSync) (kfioKbioAddBio_flags env merged.fbio p)).trans unsynced
    · intro merged unsynced _
      exact (congrArg (· &&& kbioFlgSync) (kfioKbioAddBio_flags env merged.fbio p)).trans unsynced

/-- A write fbio with a sync write in its chain. -/
def HoldsSync (env : BioEnv β) (merged : Merged β (KfioBio β)) : Prop :=
  merged.fbio.fbioCmd = .write ∧ ∃ p ∈ merged.bios, (env.bio p).SyncWrite

theorem HoldsSync.grown {merged : Merged β (KfioBio β)} (holds : HoldsSync env merged) (more : List β) :
    HoldsSync env ⟨(kfioKbioAddBio env merged.fbio p).1, merged.bios ++ more⟩ := by
  obtain ⟨write, q, member, sync⟩ := holds
  refine ⟨?_, q, List.mem_append_left _ member, sync⟩
  rw [(kfioKbioAddBio_parameter env merged.fbio p).2]
  exact write

theorem not_holdsSync_of_refused {bios : List β} (refused : SyncRefused env bios) :
    ∀ merged ∈ (mergeBios (kfioOps env) bios).fbios, ¬HoldsSync env merged := by
  induction bios using List.reverseRecOn with
  | nil =>
    intro merged member
    cases member
  | append_singleton bios p ih =>
    obtain ⟨before, now⟩ := Transition.historical_snoc_iff.mp refused
    rw [mergeBios_snoc]
    refine Merge.step_all (ih before) ?_ ?_ ?_
    · rintro fbio made ⟨write, q, member, sync⟩
      rw [List.mem_singleton.mp member] at sync
      have command := (kfioMapToFbio_eq_some made).2.2.1
      have data := (fbioCommand_eq_write_iff (env.bio p)).mp (command.symm.trans write)
      exact (now sync data.1).1 ((kfioMapToFbio_isSome_iff data.1).mp ⟨fbio, made⟩)
    · rintro merged isOpen clean added ⟨write, q, member, sync⟩
      have write := (kfioKbioAddBio_parameter env merged.fbio p).2.symm.trans write
      have joins := kfioKbioAddBio_eq_zero_iff.mp added
      rcases List.mem_append.mp member with old | new
      · exact clean ⟨write, q, old, sync⟩
      · rw [List.mem_singleton.mp new] at sync
        exact (now sync joins.1).2 merged isOpen joins
    · rintro merged clean _ ⟨write, some⟩
      have write := (kfioKbioAddBio_parameter env merged.fbio p).2.symm.trans write
      exact clean ⟨write, some⟩

/-- A sync write that finds a way in ends up in a write fbio. -/
theorem step_holdsSync {m : Merge β (KfioBio β)} (sync : (env.bio p).SyncWrite)
    (data : (env.bio p).kfioBioIsDiscard = false)
    (accepted : Mappable env p ∨ ∃ merged, m.current = some merged ∧ Joins env merged.fbio p) :
    ∃ merged ∈ (m.step (kfioOps env) p).fbios, HoldsSync env merged := by
  have shape := Merge.step_shape (kfioOps env) m p
  generalize m.step (kfioOps env) p = after at shape ⊢
  cases shape with
  | @added merged isOpen yes =>
    have joins := kfioKbioAddBio_eq_zero_iff.mp yes
    refine ⟨_, List.mem_append_right _ (List.mem_singleton_self _), ?_, p, by simp, sync⟩
    have way := direction_of_sameDirection joins.2.1
    rw [sync.1] at way
    refine (kfioKbioAddBio_parameter env merged.fbio p).2.trans ?_
    cases cmd : merged.fbio.fbioCmd <;> simp [cmd, KbioCmd.direction] at way ⊢
  | @mapped closed fbio _ made =>
    refine ⟨_, List.mem_append_right _ (List.mem_singleton_self _), ?_, p, List.mem_singleton_self _, sync⟩
    rw [(kfioMapToFbio_eq_some made).2.2.1]
    exact (fbioCommand_eq_write_iff _).mpr ⟨data, sync.1⟩
  | @failed closed closes made =>
    rcases accepted with mappable | ⟨merged, isOpen, joins⟩
    · obtain ⟨fbio, some⟩ := (kfioMapToFbio_isSome_iff data).mpr mappable
      exact absurd (made.symm.trans some) (Option.some_ne_none _).symm
    · rcases closes with ⟨none, _⟩ | ⟨other, same, no, _⟩
      · rw [isOpen] at none
        cases none
      · rw [isOpen, Option.some.injEq] at same
        subst same
        exact absurd (kfioKbioAddBio_eq_zero_iff.mpr joins) no

theorem holdsSync_of_not_refused {bios : List β} (accepted : ¬SyncRefused env bios) :
    ∃ merged ∈ (mergeBios (kfioOps env) bios).fbios, HoldsSync env merged := by
  induction bios using List.reverseRecOn with
  | nil => exact absurd (Transition.historical_nil _) accepted
  | append_singleton bios p ih =>
    rw [mergeBios_snoc]
    by_cases before : SyncRefused env bios
    · by_contra none
      refine accepted (Transition.historical_snoc_iff.mpr ⟨before, fun sync data => ⟨fun mappable => ?_, ?_⟩⟩)
      · exact none (step_holdsSync sync data (.inl mappable))
      · intro merged isOpen joins
        exact none (step_holdsSync sync data (.inr ⟨merged, isOpen, joins⟩))
    · refine Merge.step_some (ih before) (fun merged holds => holds.grown [p]) fun merged holds => ?_
      have same : HoldsSync env ⟨(kfioKbioAddBio env merged.fbio p).1, merged.bios ++ []⟩ := holds.grown []
      rwa [List.append_nil] at same

variable [DecidableEq β]

/-- `kfio_kickoff_plugged_io` keeps the sync requests of its bios exactly when it
fails every one of these bios. -/
theorem kfioKickoffPluggedIo_keepsSync_iff (env : BioEnv β) {links : β → Option β} {bio : β} {rest : List β}
    {fuel : Nat} (distinct : (bio :: rest).Nodup) (chain : IsChain links (some bio) (bio :: rest))
    (enough : rest.length < fuel) :
    ∃ final, kfioKickoffPluggedIo (kfioOps env) fuel ⟨links, [], []⟩ bio = some final ∧
      (KeepsSync env final ↔ SyncRefused env (bio :: rest)) := by
  obtain ⟨final, subs, ran, submitted, submits, _, _⟩ :=
    kfioKickoffPluggedIo_spec (kfioOps env) ⟨links, [], []⟩ distinct chain enough
  refine ⟨final, ran, ?_⟩
  rw [List.nil_append] at submitted
  constructor
  · intro keeps
    by_contra accepted
    obtain ⟨merged, inside, write, sync⟩ := holdsSync_of_not_refused accepted
    obtain ⟨sub, member, fits⟩ := forall₂_mem_left submits.flip inside
    rw [← submitted] at member
    have own := fits.chain
    rw [← fits.fbio] at own write
    refine keeps sub member _ own write sync ?_
    rw [fits.fbio]
    exact mergeBios_unsynced env _ merged inside
  · intro refused sub member chain isChain write sync
    rw [submitted] at member
    obtain ⟨merged, inside, fits⟩ := forall₂_mem_left submits member
    have own := fits.chain
    rw [← fits.fbio] at own
    rw [isChain.unique own] at sync
    rw [fits.fbio] at write
    exact absurd ⟨write, sync⟩ (not_holdsSync_of_refused refused merged inside)

/-- The writes of `pageWrites`, all with `REQ_SYNC`. -/
def syncWrites (sectors : List (BitVec 64)) : BioEnv Nat :=
  { pageWrites sectors with
    bio := fun n => { (pageWrites sectors).bio n with biOpf := 1#32 ||| reqSync, sized := fun _ => rfl } }

/-- A plain write, and a sync write in the middle of a block. -/
def syncInside : BioEnv Nat :=
  { pageWrites [0#64, 3#64] with
    bio := fun n => if n = 1 then (syncWrites [0#64, 3#64]).bio 1 else (pageWrites [0#64]).bio 0 }

theorem syncInside_refused : SyncRefused syncInside [0, 1] := by
  refine ((Transition.historical_nil _).snoc fun sync => absurd sync (by decide)).snoc fun _ _ => ⟨?_, ?_⟩
  · rintro ⟨aligned, _⟩
    exact absurd aligned (by decide)
  · intro merged isOpen joins
    have none : ((mergeBios (kfioOps syncInside) ([] ++ [0])).current.any fun merged =>
        decide (Joins syncInside merged.fbio 1)) = false := by decide
    rw [isOpen, Option.any_some, decide_eq_false_iff_not] at none
    exact none joins

/-- A list keeps its sync requests when the sync write in it is refused. -/
theorem kfioKickoffPluggedIo_keepsSync_iff_two : (syncInside.bio 1).SyncWrite ∧
    ∃ final, kfioKickoffPluggedIo (kfioOps syncInside) 2 ⟨Function.update (fun _ => none) 0 (some 1), [], []⟩ 0 =
      some final ∧ KeepsSync syncInside final := by
  obtain ⟨final, ran, keeps⟩ : ∃ final, kfioKickoffPluggedIo (kfioOps syncInside) 2
      ⟨Function.update (fun _ => none) 0 (some 1), [], []⟩ 0 = some final ∧
      (KeepsSync syncInside final ↔ SyncRefused syncInside [0, 1]) :=
    kfioKickoffPluggedIo_keepsSync_iff _ (by decide) (.node (.node .done)) (by decide)
  exact ⟨by decide, final, ran, keeps.mpr syncInside_refused⟩

/-- One sync write is submitted without its flag. -/
theorem kfioKickoffPluggedIo_sync_lost :
    ¬∀ final, kfioKickoffPluggedIo (kfioOps (syncWrites [0#64])) 1 ⟨fun _ => none, [], []⟩ 0 = some final →
      KeepsSync (syncWrites [0#64]) final := by
  intro always
  have lost : (kfioKickoffPluggedIo (kfioOps (syncWrites [0#64])) 1 ⟨fun _ => none, [], []⟩ 0).any (fun final =>
      final.submitted.any fun sub => decide (sub.fbio.fbioCmd = .write ∧ sub.fbio.fbioParameter = 0 ∧
        sub.links 0 = none ∧ sub.fbio.fbioFlags &&& kbioFlgSync = 0#32)) = true := by
    decide
  obtain ⟨final, ran, found⟩ := (Option.any_eq_true _ _).mp lost
  obtain ⟨sub, member, facts⟩ := List.any_eq_true.mp found
  obtain ⟨write, parameter, ended, unsynced⟩ := of_decide_eq_true facts
  refine always final ran sub member [0] ?_ write ⟨0, List.mem_singleton_self 0, by decide⟩ unsynced
  rw [parameter]
  refine .node ?_
  rw [ended]
  exact .done

end IomemoryVsl
