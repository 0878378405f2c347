import IomemoryVsl.BioFaithful
import IomemoryVsl.BioPlug
import IomemoryVsl.ScatterBytes
import IomemoryVsl.ScatterPages
import IomemoryVsl.Transfer

namespace IomemoryVsl

open LinkChain Transfer

/-- The memory is that of the pages, the device is addressed in bytes. -/
abbrev DiskMove : Type := Move Nat (Nat × Nat)

/-- What reading or writing some bytes of the memory from an address of the device on
comes to. -/
def dataMoves (dir : DataDir) (start : Nat) (bytes : List (Nat × Nat)) : List DiskMove :=
  (bytes.zipIdx start).map fun (m, a) => match dir with | .write => .write a m | .read => .read a m

def trimMoves (start length : Nat) : List DiskMove := (List.range length).map fun i => .trim (start + i)

/-- The byte on the device at which a bio starts. -/
def Bio.start (bio : Bio) : Nat := bio.biSector.toNat * 512

/-- What the block layer asks for with a bio. -/
def Bio.moves (bio : Bio) : List DiskMove :=
  if bio.kfioBioIsDiscard then trimMoves bio.start bio.biSize.toNat
  else dataMoves bio.bioDataDir bio.start (bio.segments.flatMap BioVec.bytes)

/-- What a device does for an fbio: it moves the blocks of the range to or from the
bytes of the SGL. -/
def fbioMoves {β : Type} (bdev : FioBdev) (fbio : KfioBio β) : List DiskMove :=
  let start := fbio.fbioRange.base.toNat * bdev.bdevBlockSize.toNat
  let length := fbio.fbioRange.length.toNat * bdev.bdevBlockSize.toNat
  match fbio.fbioCmd with
  | .write => dataMoves .write start (fbio.fbioSgl.bytes.take length)
  | .read => dataMoves .read start (fbio.fbioSgl.bytes.take length)
  | .discard => trimMoves start length
  | _ => []

/-- What the block layer promises of a bio: whole blocks of the device, and segments
that lie inside their pages. -/
structure Bio.WellFormed (bdev : FioBdev) (bio : Bio) : Prop where
  aligned : bdev.Aligned bio
  inside : bio.start < 2 ^ 64
  pages : ∀ vec ∈ bio.segments, vec.bvOffset.toNat + vec.bvLen.toNat ≤ fusionPageSize

section Moves

variable {bdev : FioBdev} {bio : Bio}

theorem dataMoves_append (dir : DataDir) (start : Nat) (front back : List (Nat × Nat)) :
    dataMoves dir start (front ++ back) = dataMoves dir start front ++ dataMoves dir (start + front.length) back :=
  map_zipIdx_append ..

theorem Bio.WellFormed.byteAddress (formed : bio.WellFormed bdev) : bio.byteAddress.toNat = bio.start := by
  have inside := formed.inside
  rw [Bio.start] at inside
  rw [Bio.byteAddress, BitVec.toNat_mul, Bio.start]
  exact Nat.mod_eq_of_lt inside

/-- The first block of a well-formed bio begins at its first byte. -/
theorem Bio.WellFormed.bid (formed : bio.WellFormed bdev) :
    (linuxBioGetBid bdev bio).toNat * bdev.bdevBlockSize.toNat = bio.start := by
  have whole : bio.byteAddress.toNat % bdev.bdevBlockSize.toNat = 0 := by
    have zero := congrArg BitVec.toNat formed.aligned.1
    rw [BitVec.toNat_umod, blockSize64_toNat] at zero
    exact zero
  rw [linuxBioGetBid, BitVec.toNat_udiv, blockSize64_toNat, Nat.div_mul_cancel (Nat.dvd_of_mod_eq_zero whole)]
  exact formed.byteAddress

theorem Bio.bytes_length (data : bio.kfioBioIsDiscard = false) :
    (bio.segments.flatMap BioVec.bytes).length = bio.biSize.toNat := by
  rw [flatMap_bytes_length, segmentBytes_eq_biSize data]

end Moves

variable {β : Type} {env : BioEnv β} {fbio : KfioBio β} {p : β}

section MapBio

variable {sgl : LinuxSgl} {segments : List BioVec}

theorem kfioSglMapBio_mapped (mapped : (kfioSglMapBio sgl segments).2 = 0) :
    (kfioSglMapBio sgl segments).1 = (kfioSglMapSegments sgl segments).1 ∧
      (kfioSglMapSegments sgl segments).2 = 0 := by
  unfold kfioSglMapBio at mapped ⊢
  split at mapped
  · exact absurd mapped neg_eagain_ne_zero
  rename_i room
  rw [if_neg room]
  dsimp only at mapped ⊢
  split at mapped
  · rename_i failed
    exact absurd mapped failed
  · rename_i done
    rw [if_neg done]
    exact ⟨rfl, not_not.mp done⟩

/-- Segments that lie inside their pages make entries that do. -/
theorem inside_kfioSglMapSegments (inside : sgl.Inside)
    (pages : ∀ vec ∈ segments, vec.bvOffset.toNat + vec.bvLen.toNat ≤ fusionPageSize)
    (mapped : (kfioSglMapSegments sgl segments).2 = 0) : (kfioSglMapSegments sgl segments).1.Inside := by
  have page : fusionPageSize = 4096 := rfl
  induction segments generalizing sgl with
  | nil => exact inside
  | cons vec rest ih =>
    obtain ⟨here, run⟩ := kfioSglMapSegments_cons mapped
    have room := pages vec List.mem_cons_self
    rw [run] at mapped ⊢
    refine ih ?_ (fun vec member => pages vec (List.mem_cons_of_mem _ member)) mapped
    rcases kfioSglMapSegment_mapped here with ⟨continues, grown⟩ | ⟨_, space, added⟩
    · obtain ⟨used, _, next⟩ := LinuxSgl.continues_iff.mp continues
      obtain ⟨others, last⟩ := (LinuxSgl.inside_iff_last used).mp inside
      have still : 0#32 < (sgl.growLast vec.bvLen).numEntries := used
      rw [grown, LinuxSgl.inside_iff_last still, LinuxSgl.insideButLast_growLast, LinuxSgl.growLast_last,
        LinuxSgl.growLast_sl_last]
      refine ⟨others, ?_⟩
      show (sgl.sl sgl.last).offset.toNat + ((sgl.sl sgl.last).length + vec.bvLen).toNat ≤ fusionPageSize
      have place := congrArg BitVec.toNat next
      rw [BitVec.toNat_add, Nat.mod_eq_of_lt (by omega)] at place
      rw [BitVec.toNat_add, Nat.mod_eq_of_lt (by omega)]
      omega
    · rw [added, LinuxSgl.inside_addEntry space]
      exact ⟨inside, room⟩

theorem bytes_kfioSglMapBio (inside : sgl.Inside)
    (pages : ∀ vec ∈ segments, vec.bvOffset.toNat + vec.bvLen.toNat ≤ fusionPageSize)
    (mapped : (kfioSglMapBio sgl segments).2 = 0) :
    (kfioSglMapBio sgl segments).1.bytes = sgl.bytes ++ segments.flatMap BioVec.bytes ∧
      (kfioSglMapBio sgl segments).1.Inside := by
  have page : fusionPageSize = 4096 := rfl
  obtain ⟨same, done⟩ := kfioSglMapBio_mapped mapped
  rw [same]
  refine ⟨(kfioSglMapSegments_bytes done).mpr ?_, inside_kfioSglMapSegments inside pages done⟩
  refine LinuxSgl.noWrap_of_below (fun used => ?_) (fun vec member => ?_) done
  · have last := ((LinuxSgl.inside_iff_last used).mp inside).2
    omega
  · have room := pages vec member
    omega

end MapBio

section Fbio

/-- The SGL of a new fbio holds the bytes of its bio, unless that is a discard. -/
theorem kfioMapToFbio_sgl (made : kfioMapToFbio env p = some fbio) : ∃ sgl : LinuxSgl, sgl.Empty ∧
    ((env.bio p).kfioBioIsDiscard = true ∧ fbio.fbioSgl = sgl ∨
      (env.bio p).kfioBioIsDiscard = false ∧ (kfioSglMapBio sgl (env.bio p).segments).2 = 0 ∧
        fbio.fbioSgl = (kfioSglMapBio sgl (env.bio p).segments).1) := by
  unfold kfioMapToFbio at made
  dsimp only at made
  split at made
  · cases made
  split at made
  · cases made
  rename_i sgl _
  refine ⟨sgl.1, sgl.2, ?_⟩
  split at made
  · rename_i discard
    cases made
    exact .inl ⟨discard, rfl⟩
  · rename_i data
    split at made
    · cases made
    · rename_i mapped
      cases made
      exact .inr ⟨Bool.eq_false_iff.mpr data, not_not.mp mapped, rfl⟩

/-- A refused bio leaves what is in use of the SGL. -/
theorem kfioKbioAddBio_agrees (apart : ¬Joins env fbio p) :
    ∃ sgl, (kfioKbioAddBio env fbio p).1 = { fbio with fbioSgl := sgl } ∧ sgl.Agrees fbio.fbioSgl := by
  obtain ⟨sgl, refused, _⟩ := kfioKbioAddBio_refused apart
  rw [refused]
  refine ⟨sgl, rfl, ?_⟩
  have same := congrArg (fun result : KfioBio β × Int => result.1.fbioSgl) refused
  change _ = sgl at same
  rw [← same]
  unfold kfioKbioAddBio at refused ⊢
  dsimp only at refused ⊢
  repeat' split
  any_goals exact .refl _
  · rename_i failed
    exact kfioSglMapBio_failed failed
  · rename_i mapped
    simp_all

theorem bytes_empty {sgl : LinuxSgl} (empty : sgl.Empty) : sgl.bytes = [] := by
  rw [LinuxSgl.bytes, empty.1]
  rfl

theorem inside_empty {sgl : LinuxSgl} (empty : sgl.Empty) : sgl.Inside := by
  intro i below
  rw [empty.1] at below
  exact absurd below (Nat.not_lt_zero i)

theorem fbioMoves_data {bdev : FioBdev} {dir : DataDir} (direction : fbio.fbioCmd.direction = some dir)
    (length : fbio.fbioSgl.bytes.length = fbio.fbioRange.length.toNat * bdev.bdevBlockSize.toNat) :
    fbioMoves bdev fbio =
      dataMoves dir (fbio.fbioRange.base.toNat * bdev.bdevBlockSize.toNat) fbio.fbioSgl.bytes := by
  simp only [fbioMoves, List.take_of_length_le (Nat.le_of_eq length)]
  cases cmd : fbio.fbioCmd <;> rw [cmd] at direction <;> cases direction <;> rfl

end Fbio

/-- An fbio that comes to exactly what its bios ask for. -/
structure Carried (env : BioEnv β) (merged : Merged β (KfioBio β)) : Prop where
  sound : Sound env merged
  base : merged.fbio.fbioRange.base.toNat * env.bdev.bdevBlockSize.toNat < 2 ^ 64
  inside : merged.fbio.fbioSgl.Inside
  moves : fbioMoves env.bdev merged.fbio = merged.bios.flatMap fun p => (env.bio p).moves
  /-- The SGL of a data command is as long as its range. -/
  length : merged.fbio.fbioCmd.direction ≠ none →
    merged.fbio.fbioSgl.bytes.length = merged.fbio.fbioRange.length.toNat * env.bdev.bdevBlockSize.toNat

theorem carried_map (formed : (env.bio p).WellFormed env.bdev) (made : kfioMapToFbio env p = some fbio) :
    Carried env ⟨fbio, [p]⟩ := by
  obtain ⟨_, _, cmd, range, _⟩ := kfioMapToFbio_eq_some made
  obtain ⟨sgl, empty, source⟩ := kfioMapToFbio_sgl made
  have start : fbio.fbioRange.base.toNat * env.bdev.bdevBlockSize.toNat = (env.bio p).start := by
    rw [range]
    exact formed.bid
  have size : fbio.fbioRange.length.toNat * env.bdev.bdevBlockSize.toNat = (env.bio p).biSize.toNat := by
    rw [range]
    exact blen_mul_blockSize formed.aligned
  have inside : fbio.fbioRange.base.toNat * env.bdev.bdevBlockSize.toNat < 2 ^ 64 := start ▸ formed.inside
  rcases source with ⟨discard, same⟩ | ⟨data, mapped, same⟩
  · refine ⟨sound_map made, inside, ?_, ?_, fun moves => ?_⟩
    · rw [same]
      exact inside_empty empty
    · rw [fbioCommand, discard, if_pos rfl] at cmd
      rw [fbioMoves, cmd, start, size, List.flatMap_singleton, Bio.moves, discard, if_pos rfl]
    · simp [cmd, fbioCommand, discard, KbioCmd.direction] at moves
  · obtain ⟨bytes, pages⟩ := bytes_kfioSglMapBio (inside_empty empty) formed.pages mapped
    rw [bytes_empty empty, List.nil_append, ← same] at bytes
    rw [← same] at pages
    have whole : fbio.fbioSgl.bytes.length = fbio.fbioRange.length.toNat * env.bdev.bdevBlockSize.toNat := by
      rw [bytes, Bio.bytes_length data, size]
    have direction : fbio.fbioCmd.direction = some (env.bio p).bioDataDir := by
      rw [cmd, fbioCommand, data]
      cases dir : (env.bio p).bioDataDir <;> rfl
    refine ⟨sound_map made, inside, pages, ?_, fun _ => whole⟩
    rw [fbioMoves_data direction whole, start, bytes, List.flatMap_singleton, Bio.moves, data]
    rfl

theorem Carried.refused {merged : Merged β (KfioBio β)} (carried : Carried env merged)
    (apart : ¬Joins env merged.fbio p) : Carried env ⟨(kfioKbioAddBio env merged.fbio p).1, merged.bios⟩ := by
  have sound := carried.sound.refused apart
  obtain ⟨sgl, same, agrees⟩ := kfioKbioAddBio_agrees apart
  rw [same] at sound ⊢
  refine ⟨sound, carried.base, (LinuxSgl.inside_agrees agrees).mpr carried.inside, ?_, ?_⟩
  · rw [← carried.moves, fbioMoves, fbioMoves, agrees.bytes]
  · rw [agrees.bytes]
    exact carried.length

/-- Blocks are small enough for the largest command to be less than 4 GiB. -/
def FioBdev.Small (bdev : FioBdev) : Prop := bdev.bdevBlockSize.toNat ≤ 2 ^ 20

theorem Carried.joined {merged : Merged β (KfioBio β)} (carried : Carried env merged) (small : env.bdev.Small)
    (formed : (env.bio p).WellFormed env.bdev) (joins : Joins env merged.fbio p) :
    Carried env ⟨(kfioKbioAddBio env merged.fbio p).1, merged.bios ++ [p]⟩ := by
  have block : 512 ≤ env.bdev.bdevBlockSize.toNat := by
    have accepted := (not_or.mp env.bdev.accepted).1
    bv_omega
  have way := direction_of_sameDirection joins.2.1
  have moves : merged.fbio.fbioCmd.direction ≠ none := by
    rw [way]
    exact Option.some_ne_none _
  have length := carried.length moves
  have blen := blen_mul_blockSize formed.aligned
  have limit : fusionMaxSectorsPerOsRwRequest.toNat = 2048 := rfl
  have before := carried.sound.short
  have more := blen_lt env.bdev (env.bio p)
  obtain ⟨data, _, _, _, next, room, mapped⟩ := id joins
  have grown : (merged.fbio.fbioRange.length + linuxBioGetBlen env.bdev (env.bio p)).toNat =
      merged.fbio.fbioRange.length.toNat + (linuxBioGetBlen env.bdev (env.bio p)).toNat := by
    rw [BitVec.toNat_add]
    exact Nat.mod_eq_of_lt (by omega)
  have fits : ¬Misjoins env merged.fbio p := by
    rintro ⟨_, crooked | large⟩
    · exact crooked formed.aligned
    · rw [gt_iff_lt, BitVec.lt_def, limit, grown] at room
      rw [← blen, ← Nat.add_mul] at large
      have most := Nat.mul_le_mul (Nat.le_of_not_lt room) small
      omega
  -- the bio starts on the device where the range ends
  have start : merged.fbio.fbioRange.base.toNat * env.bdev.bdevBlockSize.toNat +
      merged.fbio.fbioSgl.bytes.length = (env.bio p).start := by
    have base : merged.fbio.fbioRange.base.toNat < 2 ^ 55 := by
      by_contra far
      have least := Nat.mul_le_mul (Nat.le_of_not_lt far) block
      have inside := carried.base
      omega
    have whole := congrArg BitVec.toNat next
    rw [fioRangeUpperBound, BitVec.toNat_add, Nat.mod_eq_of_lt (by omega)] at whole
    rw [length, ← Nat.add_mul, whole]
    exact formed.bid
  obtain ⟨bytes, pages⟩ := bytes_kfioSglMapBio carried.inside formed.pages mapped
  have sound := carried.sound.joined joins fits
  rw [kfioKbioAddBio_of_joins joins] at sound ⊢
  have whole : (kfioSglMapBio merged.fbio.fbioSgl (env.bio p).segments).1.bytes.length =
      (merged.fbio.fbioRange.length + linuxBioGetBlen env.bdev (env.bio p)).toNat *
        env.bdev.bdevBlockSize.toNat := by
    rw [bytes, List.length_append, length, Bio.bytes_length data, grown, Nat.add_mul, blen]
  refine ⟨sound, carried.base, pages, ?_, fun _ => whole⟩
  have own : (env.bio p).moves =
      dataMoves (env.bio p).bioDataDir (env.bio p).start ((env.bio p).segments.flatMap BioVec.bytes) := by
    rw [Bio.moves, data]
    rfl
  have moved := (fbioMoves_data way length).symm.trans carried.moves
  rw [List.flatMap_append, List.flatMap_singleton, ← moved, own, ← start, ← dataMoves_append, ← bytes]
  refine fbioMoves_data ?_ ?_
  · exact way
  · exact whole

theorem mergeBios_carried {bios : List β} (small : env.bdev.Small)
    (formed : ∀ p ∈ bios, (env.bio p).WellFormed env.bdev) :
    ∀ merged ∈ (mergeBios (kfioOps env) bios).fbios, Carried env merged := by
  induction bios using List.reverseRecOn with
  | nil =>
    intro merged member
    simp [mergeBios, Merge.initial, Merge.fbios] at member
  | append_singleton bios p ih =>
    have own := formed p (by simp)
    rw [mergeBios_snoc]
    refine Merge.step_all (ih fun q member => formed q (List.mem_append_left _ member))
      (fun fbio made => carried_map own made) ?_ ?_
    · intro merged _ carried added
      exact carried.joined small own (kfioKbioAddBio_eq_zero_iff.mp added)
    · intro merged carried refused
      exact carried.refused fun joins => refused (kfioKbioAddBio_eq_zero_iff.mpr joins)

section Plug

variable {φ : Type} [DecidableEq β] {ops : FbioOps β φ} {links : β → Option β}

/-- The bios that were kicked off, each in an fbio that was merged from a part of them. -/
def Batched (ops : FbioOps β φ) (list : List (Merged β φ)) (kicked : List β) : Prop :=
  ∀ merged ∈ list, ∃ batch, (∀ p ∈ batch, p ∈ kicked) ∧ merged ∈ (mergeBios ops batch).fbios

omit [DecidableEq β] in
theorem Batched.kickoff {list : List (Merged β φ)} {kicked batch : List β} (batched : Batched ops list kicked) :
    Batched ops (list ++ (mergeBios ops batch).fbios) (kicked ++ batch) := by
  intro merged member
  rcases List.mem_append.mp member with old | new
  · obtain ⟨earlier, inside, among⟩ := batched merged old
    exact ⟨earlier, fun p here => List.mem_append_left _ (inside p here), among⟩
  · exact ⟨batch, fun p here => List.mem_append_right _ here, new⟩

/-- The state of an active plug, as `Plugged` has it, with where its fbios come from. -/
def PluggedFrom (ops : FbioOps β φ) (links : β → Option β) (s : KfioPlug β × BioPath β φ)
    (arrived : List β) : Prop :=
  ∃ list failed kicked pending, arrived = kicked ++ pending ∧ Settled ops s.2 list failed kicked ∧
    Batched ops list kicked ∧ IsChain s.2.biNext s.1.bioHead pending ∧ s.1.bioTail = pending.getLast? ∧
    ∀ bio ∉ arrived, s.2.biNext bio = links bio

theorem PluggedFrom.arrive (submitNow : β → Bool) {s : KfioPlug β × BioPath β φ} {arrived : List β}
    {bio : β} {fuel : Nat} (plugged : PluggedFrom ops links s arrived)
    (distinct : (arrived ++ [bio]).Nodup) (null : links bio = none) (enough : arrived.length < fuel) :
    ∃ s', kfioMakeRequestPlugged ops submitNow fuel s bio = some s' ∧
      PluggedFrom ops links s' (arrived ++ [bio]) := by
  obtain ⟨plug, path⟩ := s
  obtain ⟨list, failed, kicked, pending, rfl, settled, batched, chain, atTail, frame⟩ := plugged
  have fresh : bio ∉ kicked ++ pending := fun member =>
    (List.nodup_append.mp distinct).2.2 bio member bio (by simp) rfl
  rw [List.append_assoc] at distinct ⊢
  obtain ⟨_, own, apart⟩ := List.nodup_append.mp distinct
  obtain ⟨head, path', added, chain', submitted, completed, outside⟩ :=
    kfioAddBioToPluggedList_chain submitNow chain atTail own ((frame bio fresh).trans null)
  have settled' : Settled ops path' list failed kicked := by
    refine settled.congr submitted completed fun other member => outside other fun pends => ?_
    exact apart other member other (List.mem_append_left _ pends) rfl
  have frame' (other : β) (notIn : other ∉ kicked ++ (pending ++ [bio])) : path'.biNext other = links other := by
    simp only [List.mem_append, not_or] at notIn
    rw [outside other notIn.2.1]
    exact frame other (by simp [notIn])
  rw [kfioMakeRequestPlugged, added]
  cases now : submitNow bio with
  | true =>
    obtain ⟨rest, same, _⟩ := chain'.eq_cons
    have short : rest.length < fuel := by
      have total := congrArg List.length same
      simp only [List.length_append, List.length_cons, List.length_nil] at total enough
      omega
    rw [same] at distinct chain' frame' ⊢
    obtain ⟨last, ran, after, untouched⟩ := settled'.kickoff distinct chain' short
    refine ⟨(⟨none, none⟩, last), by simp [ran], _, _, kicked ++ head :: rest, [], (List.append_nil _).symm, after,
      batched.kickoff, .done, rfl, fun other notIn => ?_⟩
    rw [untouched other fun pends => notIn (List.mem_append_right _ pends)]
    exact frame' other notIn
  | false =>
    refine ⟨(⟨some head, some bio⟩, path'), rfl, list, failed, kicked, pending ++ [bio], rfl, settled',
      batched, chain',
      ?_, frame'⟩
    rw [List.getLast?_concat]

/-- Pulling the plug settles every bio that arrived, in fbios that were merged from some
of them. -/
theorem plugRun_batched (ops : FbioOps β φ) (submitNow : β → Bool) {arrivals : List β} {fuel : Nat}
    (distinct : arrivals.Nodup) (null : ∀ bio ∈ arrivals, links bio = none) (enough : arrivals.length ≤ fuel) :
    ∃ final list failed, plugRun ops submitNow fuel links arrivals = some final ∧
      Settled ops final list failed arrivals ∧ Batched ops list arrivals := by
  have plugged : ∃ s, arrivals.foldlM (kfioMakeRequestPlugged ops submitNow fuel) (⟨none, none⟩, ⟨links, [], []⟩) =
      some s ∧ PluggedFrom ops links s arrivals := by
    induction arrivals using List.reverseRecOn with
    | nil =>
      refine ⟨_, rfl, [], [], [], [], rfl, ⟨.nil, rfl, rfl, .refl _⟩, ?_, .done, rfl, fun _ _ => rfl⟩
      exact fun merged member => absurd member List.not_mem_nil
    | append_singleton arrivals bio ih =>
      rw [List.length_append, List.length_singleton] at enough
      obtain ⟨s, ran, plugged⟩ := ih (List.nodup_append.mp distinct).1
        (fun other member => null other (List.mem_append_left _ member)) (by omega)
      obtain ⟨s', next, after⟩ := plugged.arrive submitNow distinct (null bio (by simp)) enough
      exact ⟨s', by simp [List.foldlM_append, ran, next], after⟩
  obtain ⟨⟨plug, path⟩, ran, list, failed, kicked, pending, split, settled, batched, chain, _, _⟩ := plugged
  subst split
  cases atHead : plug.bioHead with
  | none =>
    rw [atHead] at chain
    rw [chain.eq_nil, List.append_nil] at ran ⊢
    exact ⟨path, list, failed, by simp [plugRun, ran, kfioUnplugDoCb, atHead], settled, batched⟩
  | some head =>
    rw [atHead] at chain
    obtain ⟨rest, rfl, _⟩ := chain.eq_cons
    have short : rest.length < fuel := by
      simp only [List.length_append, List.length_cons] at enough
      omega
    obtain ⟨last, kick, after, _⟩ := settled.kickoff distinct chain short
    exact ⟨last, _, _, by simp [plugRun, ran, kfioUnplugDoCb, atHead, kick], after, batched.kickoff⟩

end Plug

variable {ν : Type}

/-- What a list of fbios does to a device and to the memory. -/
def runFbios (bdev : FioBdev) (fbios : List (KfioBio β)) (s : Store Nat (Nat × Nat) ν) : Store Nat (Nat × Nat) ν :=
  fbios.foldl (fun s fbio => run (fbioMoves bdev fbio) s) s

/-- What a list of bios should do to them. -/
def runBios (bio : β → Bio) (bios : List β) (s : Store Nat (Nat × Nat) ν) : Store Nat (Nat × Nat) ν :=
  bios.foldl (fun s p => run (bio p).moves s) s

/-- Plugging and merging preserve the meaning of the bios: whatever well-formed bios
arrive, the submitted fbios do to the device and to the memory what the bios do that
were not failed, one after the other. -/
theorem plugRun_means [DecidableEq β] (env : BioEnv β) (submitNow : β → Bool) {links : β → Option β}
    {arrivals : List β} {fuel : Nat} (small : env.bdev.Small)
    (formed : ∀ p ∈ arrivals, (env.bio p).WellFormed env.bdev) (distinct : arrivals.Nodup)
    (null : ∀ bio ∈ arrivals, links bio = none) (enough : arrivals.length ≤ fuel) :
    ∃ final, plugRun (kfioOps env) submitNow fuel links arrivals = some final ∧
      ∀ s : Store Nat (Nat × Nat) ν, runFbios env.bdev (final.submitted.map Submission.fbio) s =
        runBios env.bio (arrivals.filter fun p => p ∉ final.completed.map Prod.fst) s := by
  obtain ⟨final, list, failed, ran, settled, batched⟩ :=
    plugRun_batched (kfioOps env) submitNow distinct null enough
  refine ⟨final, ran, fun s => ?_⟩
  have carried : ∀ merged ∈ list, Carried env merged := by
    intro merged member
    obtain ⟨batch, inside, among⟩ := batched merged member
    exact mergeBios_carried small (fun p here => formed p (inside p here)) merged among
  have gone : final.completed.map Prod.fst = failed := by
    rw [settled.completed, List.map_map]
    exact List.map_id failed
  have same : List.Forall₂ (fun (fbio : KfioBio β) group => fbioMoves env.bdev fbio =
      group.flatMap fun p => (env.bio p).moves) (final.submitted.map Submission.fbio) (list.map Merged.bios) := by
    rw [List.forall₂_map_left_iff, List.forall₂_map_right_iff]
    refine forall₂_imp_mem settled.submits fun sub merged member submits => ?_
    rw [submits.fbio]
    exact (carried merged member).moves
  rw [gone, ← settled.accepted, List.flatMap_def, runFbios, runBios]
  exact run_groups same s

/-- Two pages are written one behind the other, and the first one is overwritten. -/
theorem plugRun_means_pages : ∃ final,
    plugRun (kfioOps (pageWrites [0#64, 8#64, 0#64]))
      (fun p => ((pageWrites [0#64, 8#64, 0#64]).bio p).kfioBioShouldSubmitNow)
      3 (fun _ => none) [0, 1, 2] = some final ∧
    ∀ s : Store Nat (Nat × Nat) UInt8, runFbios (pageWrites [0#64, 8#64, 0#64]).bdev
      (final.submitted.map Submission.fbio) s =
      runBios (pageWrites [0#64, 8#64, 0#64]).bio
        ([0, 1, 2].filter fun p => p ∉ final.completed.map Prod.fst) s := by
  have formed : ∀ p ∈ [0, 1, 2], ((pageWrites [0#64, 8#64, 0#64]).bio p).WellFormed
    (pageWrites [0#64, 8#64, 0#64]).bdev := by
    intro p member
    have small : p < 3 := by
      simp at member
      omega
    refine ⟨?_, ?_, ?_⟩
    · exact (by decide : ∀ p < 3,
        (pageWrites [0#64, 8#64, 0#64]).bdev.Aligned ((pageWrites [0#64, 8#64, 0#64]).bio p)) p small
    · exact (by decide : ∀ p < 3, ((pageWrites [0#64, 8#64, 0#64]).bio p).start < 2 ^ 64) p small
    · rintro vec inside
      rw [List.mem_singleton.mp inside]
      exact Nat.le_refl _
  have small : (pageWrites [0#64, 8#64, 0#64]).bdev.bdevBlockSize.toNat ≤ 2 ^ 20 := by decide
  exact plugRun_means _ _ small formed (by decide) (fun _ _ => rfl) (by decide)

end IomemoryVsl
