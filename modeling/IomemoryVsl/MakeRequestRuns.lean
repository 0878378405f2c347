import IomemoryVsl.MakeRequestLedger

namespace IomemoryVsl

open ChainHeap

variable {τ δ β : Type}

/-- The driver goes on by itself, or a task gives up its plugs. -/
def RequestAction.Internal : RequestAction τ δ β → Prop
  | .unplug .. | .runWork _ | .kickoffRound .. | .complete .. | .completorRound _ => True
  | _ => False

namespace RequestState

variable {s t : RequestState τ δ β} {disk : δ} {bio : β} {path : BioPath β (KfioBio β)}
  {held : Multiset ((δ × Stage) × β)} {events : List (RequestEvent δ β)} {others : Multiset (Segment (δ × Stage) β)}

theorem segments_absorb : (s.absorb disk path).1.segments = s.segments + flights disk path := by
  simp only [segments, absorb, flights, List.map_append, List.sum_append]
  abel

theorem arrivals_absorb : arrivals (s.absorb disk path).2 = 0 := by
  have none : path.completed.filterMap
      (RequestEvent.arrival? ∘ fun completion => (.ended disk completion.1 completion.2 : RequestEvent δ β)) = [] :=
    List.filterMap_eq_nil_iff.mpr fun _ _ => rfl
  rw [arrivals, absorb, List.filterMap_map, none]
  rfl

theorem endings_absorb : endings (s.absorb disk path).2 = completedBy disk path := by
  have all : path.completed.filterMap
      (RequestEvent.ending? ∘ fun completion => (.ended disk completion.1 completion.2 : RequestEvent δ β)) =
        path.completed.map fun completion => (disk, completion.1) :=
    congrFun List.filterMap_eq_map' path.completed
  rw [endings, absorb, List.filterMap_map, all, completedBy, ownedBy, List.map_map]
  rfl

/-- What a piece of the driver leaves: the bios it keeps and those it ended. -/
structure Keeps (r : RequestState τ δ β × List (RequestEvent δ β))
    (held : Multiset ((δ × Stage) × β)) (ended : Multiset (δ × β)) : Prop where
  owns : Owns r.1.biNext r.1.segments held
  arrivals : arrivals r.2 = 0
  endings : endings r.2 = ended

theorem absorb_keeps (owns : Owns path.biNext (flights disk path + s.segments) held) :
    Keeps (s.absorb disk path) held (completedBy disk path) := by
  refine ⟨?_, arrivals_absorb, endings_absorb⟩
  rw [segments_absorb, add_comm]
  exact owns

theorem segments_kickoff :
    (s.kickoff disk bio).segments = s.segments + {opened disk none none} + {waiting disk (some bio)} := by
  simp only [segments, kickoff, List.map_append, List.sum_append, List.map_cons, List.map_nil, List.sum_cons,
    List.sum_nil, KickoffCall.segments]
  abel

theorem owns_kickoff (owns : Owns s.biNext (waiting disk (some bio) ::ₘ s.segments) held) :
    Owns (s.kickoff disk bio).biNext (s.kickoff disk bio).segments held := by
  have front : (s.kickoff disk bio).segments =
      opened disk none none ::ₘ waiting disk (some bio) ::ₘ s.segments := by
    rw [segments_kickoff, ← Multiset.singleton_add, ← Multiset.singleton_add]
    abel
  rw [front]
  exact owns.vacant rfl (fun _ same => by cases same)

theorem absorb_kickoff_keeps
    (owns : Owns path.biNext (waiting disk (some bio) ::ₘ (flights disk path + s.segments)) held) :
    Keeps ((s.absorb disk path).1.kickoff disk bio, (s.absorb disk path).2) held (completedBy disk path) := by
  refine ⟨owns_kickoff ?_, arrivals_absorb (s := s), endings_absorb (s := s)⟩
  rw [segments_absorb, add_comm s.segments]
  exact owns

theorem segments_setPlug {plugs : List (PlugEntry τ δ β)} {place : Nat} {kplug : PlugEntry τ δ β}
    (found : plugs[place]? = some kplug) : ∃ others, (s.withPlugs plugs).segments = kplug.segment ::ₘ others ∧
      ∀ entry, (s.withPlugs (plugs.set place entry)).segments = entry.segment ::ₘ others := by
  refine ⟨(s.withPlugs (plugs.eraseIdx place)).segments, ?_, fun entry => ?_⟩
  · simp only [segments, withPlugs, sum_map_eraseIdx _ found, ← Multiset.singleton_add]
    abel
  · simp only [segments, withPlugs, sum_map_set _ found, ← Multiset.singleton_add]
    abel

section Request

variable [DecidableEq τ] [DecidableEq δ]

/-- `kfio_should_plug` finds a plug of the task for the disk, or adds an empty one. -/
theorem kfioShouldPlug_owns {task : τ} {call : RequestCall β} {place : Nat} {plugs : List (PlugEntry τ δ β)}
    (owns : Owns s.biNext s.segments held) (found : s.kfioShouldPlug task disk call = some (place, plugs)) :
    Owns s.biNext (s.withPlugs plugs).segments held ∧
      ∃ kplug, plugs[place]? = some kplug ∧ kplug.task = task ∧ kplug.disk = disk := by
  simp only [kfioShouldPlug] at found
  split at found
  · cases found
  split at found
  · cases found
  split at found
  · cases found
  split at found
  · rename_i here
    obtain ⟨rfl, rfl⟩ := Prod.mk.inj (Option.some.inj found)
    obtain ⟨below, same, _⟩ := List.findIdx?_eq_some_iff_getElem.mp here
    refine ⟨owns, _, List.getElem?_eq_getElem below, ?_⟩
    simpa only [decide_eq_true_eq] using same
  · split at found
    · obtain ⟨rfl, rfl⟩ := Prod.mk.inj (Option.some.inj found)
      refine ⟨?_, ⟨task, disk, none, none⟩, List.getElem?_concat_length, rfl, rfl⟩
      have grown : (s.withPlugs (s.plugs ++ [⟨task, disk, none, none⟩])).segments =
          PlugEntry.segment ⟨task, disk, none, none⟩ ::ₘ s.segments := by
        simp only [segments, withPlugs, List.map_append, List.sum_append, List.map_cons, List.map_nil,
          List.sum_cons, List.sum_nil, ← Multiset.singleton_add]
        abel
      rw [grown]
      exact owns.vacant rfl (fun _ same => (Option.some.inj same).symm)
    · cases found

variable [DecidableEq β]

/-- A bio that arrives is kept on some list or ended at once. -/
theorem kfioMakeRequest_keeps {task : τ} {call : RequestCall β} (owns : Owns s.biNext s.segments held)
    (fresh : ∀ k, (k, bio) ∉ held) (null : s.biNext bio = none) :
    ∃ r held' ended, s.kfioMakeRequest task disk bio call = some r ∧ Keeps r held' ended ∧
      (disk, bio) ::ₘ byDisk held = ended + byDisk held' := by
  have refusal : ∃ r held' ended, some (s.absorb disk (s.path.kfioBioComplete bio (-eio))) = some r ∧
      Keeps r held' ended ∧ (disk, bio) ::ₘ byDisk held = ended + byDisk held' := by
    refine ⟨_, held, _, rfl, absorb_keeps ?_, rfl⟩
    exact (zero_add s.segments).symm ▸ owns
  rw [kfioMakeRequest]
  split
  · exact refusal
  cases plugging : s.kfioShouldPlug task disk call with
  | none =>
    cases mapped : kfioMapToFbio call.env bio with
    | none => exact refusal
    | some fbio =>
      have parameter : fbio.fbioParameter = bio := (kfioOps call.env).map_parameter mapped
      have single := owns.single (k := (disk, Stage.gathered)) fresh null (.inr rfl)
      refine ⟨_, ((disk, .gathered), bio) ::ₘ held, _, rfl, absorb_keeps ?_, ?_⟩
      · rw [← parameter] at single ⊢
        exact single
      · rw [completedBy_nil rfl, zero_add, byDisk_cons]
  | some found =>
    obtain ⟨place, plugs⟩ := found
    obtain ⟨grown, kplug, here, _, rfl⟩ := kfioShouldPlug_owns owns plugging
    simp only [here, Option.map_some]
    obtain ⟨others, before, after⟩ := segments_setPlug (s := s) here
    rw [before] at grown
    obtain ⟨queued, submitted, completed⟩ := kfioAddBioToPluggedList_owns s.path grown fresh null
      fun bio => (call.env.bio bio).kfioBioShouldSubmitNow && decide (call.useWorkqueue = useQueueNone)
    generalize kfioAddBioToPluggedList _ kplug.plug s.path bio = r at queued submitted completed ⊢
    obtain ⟨plug, path, ret⟩ := r
    have none : flights kplug.disk path = 0 := by
      rw [flights, submitted]
      rfl
    have spare := after { kplug with plug := plug }
    rw [Multiset.cons_swap, ← spare, ← zero_add (segments _), ← none] at queued
    have balance : (kplug.disk, bio) ::ₘ byDisk held =
        completedBy kplug.disk path + byDisk (((kplug.disk, Stage.waiting), bio) ::ₘ held) := by
      rw [completedBy_nil completed, zero_add, byDisk_cons]
    cases ret with
    | none =>
      have keeps := absorb_keeps (queued.drop rfl)
      exact ⟨_, _, _, rfl, keeps, balance⟩
    | some head =>
      have keeps := absorb_kickoff_keeps queued
      exact ⟨_, _, _, rfl, keeps, balance⟩

omit [DecidableEq τ] [DecidableEq δ] in
theorem kickoffRound_keeps {place : Nat} {call : KickoffCall δ β} (owns : Owns s.biNext s.segments held)
    (found : s.kickoffs[place]? = some call) (env : BioEnv β) :
    ∃ held' ended, Keeps (s.kickoffRound place call env) held' ended ∧ byDisk held = ended + byDisk held' ∧
      (s.kickoffRound place call env).1.plugRounds + rounds held' < s.plugRounds + rounds held := by
  let s' : RequestState τ δ β := { s with kickoffs := s.kickoffs.eraseIdx place }
  have taken : s.segments =
      waiting call.disk (some call.bio) ::ₘ opened call.disk call.tail call.fbio ::ₘ s'.segments := by
    simp only [s', segments, sum_map_eraseIdx _ found, KickoffCall.segments, ← Multiset.singleton_add]
    abel
  rw [taken] at owns
  obtain ⟨held', after, balance, fewer⟩ := kfioKickoffBody_owns owns env
  rw [kickoffRound]
  cases next : s.biNext call.bio with
  | none =>
    rw [next, Multiset.cons_swap] at after
    have last := Kickoff.finish_owns (after.drop rfl)
    refine ⟨held', _, absorb_keeps last, ?_, Nat.add_lt_add_left fewer _⟩
    rw [completedBy, Kickoff.finish_completed]
    exact balance
  | some bio =>
    rw [next] at after
    dsimp only
    generalize kfioKickoffBody (kfioOps env) _ call.bio = k at after balance ⊢
    let s'' : RequestState τ δ β := { s with kickoffs := s.kickoffs.set place ⟨call.disk, bio, k.tail, k.fbio⟩ }
    have put : flights call.disk k.path + s''.segments =
        opened call.disk k.tail k.fbio ::ₘ waiting call.disk (some bio) ::ₘ
          (flights call.disk k.path + s'.segments) := by
      simp only [s', s'', segments, sum_map_set _ found, KickoffCall.segments, ← Multiset.singleton_add]
      abel
    rw [← put] at after
    have keeps := absorb_keeps after
    exact ⟨held', _, keeps, balance, Nat.add_lt_add_left fewer _⟩

omit [DecidableEq τ] [DecidableEq δ] [DecidableEq β] in
theorem completorRound_keeps {place : Nat} {call : CompletorCall δ β} (owns : Owns s.biNext s.segments held)
    (found : s.completors[place]? = some call) :
    ∃ held' ended, Keeps (s.completorRound place call) held' ended ∧ byDisk held = ended + byDisk held' ∧
      (s.completorRound place call).1.plugRounds + rounds held' < s.plugRounds + rounds held := by
  have taken : s.segments =
      call.segment ::ₘ ({ s with completors := s.completors.eraseIdx place } : RequestState τ δ β).segments := by
    simp only [segments, sum_map_eraseIdx _ found, ← Multiset.singleton_add]
    abel
  rw [taken] at owns
  obtain ⟨held', rfl, _, after⟩ := owns.uncons
  have ends : byDisk (((call.disk, Stage.ending), call.bio) ::ₘ held') =
    {(call.disk, call.bio)} + byDisk held' := by
    rw [byDisk_cons, Multiset.singleton_add]
  have fewer : rounds held' < rounds (((call.disk, Stage.ending), call.bio) ::ₘ held') := by
    rw [rounds_cons, Stage.rounds]
    omega
  rw [completorRound]
  cases next : s.biNext call.bio with
  | none =>
    rw [next] at after
    exact ⟨held', _, ⟨after.drop rfl, rfl, rfl⟩, ends, Nat.add_lt_add_left fewer _⟩
  | some bio =>
    rw [next] at after
    refine ⟨held', _, ⟨?_, rfl, rfl⟩, ends, Nat.add_lt_add_left fewer _⟩
    have front : ({ s with completors := s.completors.set place { call with bio := bio } } :
        RequestState τ δ β).segments = CompletorCall.segment { call with bio := bio } ::ₘ
          ({ s with completors := s.completors.eraseIdx place } : RequestState τ δ β).segments := by
      simp only [segments, sum_map_set _ found, ← Multiset.singleton_add]
      abel
    dsimp only
    rw [front]
    exact after

omit [DecidableEq τ] [DecidableEq δ] [DecidableEq β] in
/-- `kfio_unplug_do_cb` kicks off what the plug holds. -/
theorem kfioUnplugDoCb_keeps {kplug : PlugEntry τ δ β} (owns : Owns s.biNext (kplug.segment ::ₘ s.segments) held) :
    Keeps (s.kfioUnplugDoCb kplug, []) held 0 ∧ (s.kfioUnplugDoCb kplug).plugRounds = s.plugRounds := by
  rw [kfioUnplugDoCb]
  cases empty : kplug.plug.bioHead with
  | none => exact ⟨⟨owns.drop empty, rfl, rfl⟩, rfl⟩
  | some head =>
    obtain ⟨list, rest, _, rfl, handed⟩ := owns.hand (kplug.disk, .waiting) (.inr rfl)
    rw [empty] at handed
    exact ⟨⟨owns_kickoff handed, rfl, rfl⟩, rfl⟩

/-- Whatever the driver does by itself, the bios it holds stay on its lists or are
ended, and a round less remains. -/
theorem act_keeps {action : RequestAction τ δ β} {r : RequestState τ δ β × List (RequestEvent δ β)}
    (owns : Owns s.biNext s.segments held) (internal : action.Internal) (ran : s.act action = some r) :
    ∃ held' ended, Keeps r held' ended ∧ byDisk held = ended + byDisk held' ∧
      r.1.plugRounds + rounds held' < s.plugRounds + rounds held := by
  cases action with
  | unplug place fromSchedule =>
    obtain ⟨kplug, found, rfl⟩ := Option.map_eq_some_iff.mp ran
    have taken : s.segments = kplug.segment ::ₘ (s.withPlugs (s.plugs.eraseIdx place)).segments := by
      simp only [segments, withPlugs, sum_map_eraseIdx _ found, ← Multiset.singleton_add]
      abel
    have fewer : (s.withPlugs (s.plugs.eraseIdx place)).plugRounds + 2 = s.plugRounds := by
      obtain ⟨below, _⟩ := List.getElem?_eq_some_iff.mp found
      simp only [plugRounds, withPlugs, List.length_eraseIdx, below, if_true]
      omega
    cases fromSchedule with
    | true =>
      refine ⟨held, 0, ⟨?_, rfl, rfl⟩, (zero_add _).symm, ?_⟩
      · have moved : ((s.withPlugs (s.plugs.eraseIdx place)).kfioUnplugCb kplug true).segments = s.segments := by
          rw [taken]
          simp only [segments, kfioUnplugCb, if_true, withPlugs, List.map_append, List.sum_append, List.map_cons,
            List.map_nil, List.sum_cons, List.sum_nil, ← Multiset.singleton_add]
          abel
        exact moved ▸ owns
      · have more : ((s.withPlugs (s.plugs.eraseIdx place)).kfioUnplugCb kplug true).plugRounds =
            (s.withPlugs (s.plugs.eraseIdx place)).plugRounds + 1 := by
          simp only [plugRounds, kfioUnplugCb, if_true, withPlugs, List.length_append, List.length_cons,
            List.length_nil]
          omega
        dsimp only
        omega
    | false =>
      rw [taken] at owns
      obtain ⟨keeps, same⟩ := kfioUnplugDoCb_keeps (s := s.withPlugs (s.plugs.eraseIdx place)) owns
      refine ⟨held, 0, keeps, (zero_add _).symm, ?_⟩
      show (kfioUnplugDoCb _ kplug).plugRounds + _ < _
      omega
  | runWork place =>
    obtain ⟨kplug, found, rfl⟩ := Option.map_eq_some_iff.mp ran
    let s' : RequestState τ δ β := { s with works := s.works.eraseIdx place }
    have taken : s.segments = kplug.segment ::ₘ s'.segments := by
      simp only [s', segments, sum_map_eraseIdx _ found, ← Multiset.singleton_add]
      abel
    have fewer : s'.plugRounds + 1 = s.plugRounds := by
      obtain ⟨below, _⟩ := List.getElem?_eq_some_iff.mp found
      simp only [s', plugRounds, List.length_eraseIdx, below, if_true]
      omega
    rw [taken] at owns
    obtain ⟨keeps, same⟩ := kfioUnplugDoCb_keeps (s := s') owns
    refine ⟨held, 0, keeps, (zero_add _).symm, ?_⟩
    show (kfioUnplugDoCb s' kplug).plugRounds + _ < _
    omega
  | kickoffRound place env =>
    obtain ⟨call, found, rfl⟩ := Option.map_eq_some_iff.mp ran
    exact kickoffRound_keeps owns found env
  | complete place error =>
    obtain ⟨⟨disk, fbio⟩, found, rfl⟩ := Option.map_eq_some_iff.mp ran
    let s' : RequestState τ δ β := { s with inFlight := s.inFlight.eraseIdx place }
    have taken : s.segments = flying (disk, fbio) ::ₘ s'.segments := by
      simp only [s', segments, sum_map_eraseIdx _ found, ← Multiset.singleton_add]
      abel
    rw [taken] at owns
    obtain ⟨list, rest, chain, rfl, handed⟩ := owns.hand (disk, Stage.ending) (.inr rfl)
    obtain ⟨rest', rfl, _⟩ := chain.eq_cons
    refine ⟨ownedBy (disk, .ending) (fbio.fbioParameter :: rest') + rest, 0, ⟨?_, rfl, rfl⟩, ?_, ?_⟩
    · have put : ({ s with
            inFlight := s.inFlight.eraseIdx place
            completors := s.completors ++ [⟨disk, fbio.fbioParameter, error⟩] } : RequestState τ δ β).segments =
          CompletorCall.segment ⟨disk, fbio.fbioParameter, error⟩ ::ₘ s'.segments := by
        simp only [s', segments, List.map_append, List.sum_append, List.map_cons, List.map_nil, List.sum_cons,
          List.sum_nil, ← Multiset.singleton_add]
        abel
      exact put ▸ handed
    · simp only [byDisk_add, byDisk_ownedBy, zero_add]
    · refine Nat.add_lt_add_left ?_ _
      simp only [rounds_add, rounds_ownedBy, Stage.rounds, List.length_cons]
      omega
  | completorRound place =>
    obtain ⟨call, found, rfl⟩ := Option.map_eq_some_iff.mp ran
    exact completorRound_keeps owns found
  | _ => exact internal.elim

omit [DecidableEq τ] [DecidableEq δ] in
/-- Only endings were reported, so the block layer has got those bios back. -/
theorem note_endings {given : β → Bool} (only : arrivals events = 0) :
    events.foldl note given bio = true ↔ given bio = true ∧ bio ∉ (endings events).map Prod.snd := by
  induction events generalizing given with
  | nil => simp
  | cons event events ih =>
    cases event with
    | arrived disk b =>
      rw [arrivals_arrived] at only
      exact absurd only Multiset.cons_ne_zero
    | ended disk b error =>
      rw [List.foldl_cons, ih only, note, endings_ended, Multiset.map_cons, Multiset.mem_cons, not_or]
      by_cases same : bio = b
      · subst same
        simp
      · simp [same]

end Request

/-- The books of a run: what the driver holds, in disjoint lists, accounts for
every bio that arrived and has not been ended. -/
structure Books (s : RequestState τ δ β) (history : List (RequestEvent δ β)) (held : Multiset ((δ × Stage) × β)) :
    Prop where
  owns : Owns s.biNext s.segments held
  balance : arrivals history = endings history + byDisk held
  given : ∀ bio, s.given bio = true ↔ ∃ k, (k, bio) ∈ held

theorem mem_byDisk_snd : bio ∈ (byDisk held).map Prod.snd ↔ ∃ k, (k, bio) ∈ held := by
  rw [byDisk, Multiset.map_map, Multiset.mem_map]
  constructor
  · rintro ⟨⟨k, b⟩, member, rfl⟩
    exact ⟨k, member⟩
  · rintro ⟨k, member⟩
    exact ⟨(k, bio), member, rfl⟩

theorem Books.initial (links : β → Option β) : Books (initial links : RequestState τ δ β) [] 0 := by
  refine ⟨.empty, rfl, fun bio => ?_⟩
  simp [RequestState.initial]

section Step

variable [DecidableEq τ] [DecidableEq δ] [DecidableEq β] {history : List (RequestEvent δ β)}

omit [DecidableEq τ] [DecidableEq δ] in
/-- What the driver keeps after some bios have ended. -/
theorem settle {given : β → Bool} {held' : Multiset ((δ × Stage) × β)} {ended : Multiset (δ × β)}
    (keeps : Keeps (t, events) held' ended) (nodup : (ended + byDisk held').map Prod.snd |>.Nodup)
    (balance : arrivals history = endings history + (ended + byDisk held'))
    (noted : ∀ bio, given bio = true ↔ bio ∈ (ended + byDisk held').map Prod.snd) :
    Books { t with given := events.foldl note given } (history ++ events) held' := by
  refine ⟨keeps.owns, ?_, fun bio => ?_⟩
  · rw [arrivals_append, endings_append, keeps.arrivals, keeps.endings, add_zero, add_assoc]
    exact balance
  · rw [note_endings keeps.arrivals, noted, keeps.endings, ← mem_byDisk_snd]
    rw [Multiset.map_add, Multiset.nodup_add] at nodup
    have apart : bio ∈ ended.map Prod.snd → bio ∉ (byDisk held').map Prod.snd := fun gone =>
      Multiset.disjoint_left.mp nodup.2.2 gone
    rw [Multiset.map_add, Multiset.mem_add]
    constructor
    · rintro ⟨gone | kept, still⟩
      · exact absurd gone still
      · exact kept
    · exact fun kept => ⟨.inr kept, fun gone => apart gone kept⟩

omit [DecidableEq δ] [DecidableEq β] in
theorem byDisk_snd_nodup {biNext : β → Option β} (owns : Owns biNext others held) :
    ((byDisk held).map Prod.snd).Nodup := by
  rw [byDisk, Multiset.map_map]
  exact owns.nodup

/-- Every step keeps the books, and a step of the driver itself leaves fewer rounds. -/
theorem Books.step {action : RequestAction τ δ β} (books : Books s history held) (allowed : s.Allowed action)
    (ran : s.step action = some (t, events)) :
    ∃ held', Books t (history ++ events) held' ∧
      (action.Internal → t.plugRounds + rounds held' < s.plugRounds + rounds held) := by
  obtain ⟨⟨u, _⟩, acted, same⟩ := Option.map_eq_some_iff.mp ran
  obtain ⟨rfl, rfl⟩ := Prod.mk.inj same
  have noted (bio : β) : s.given bio = true ↔ bio ∈ (byDisk held).map Prod.snd :=
    (books.given bio).trans mem_byDisk_snd.symm
  have nodup := byDisk_snd_nodup books.owns
  have balance := books.balance
  by_cases internal : action.Internal
  · obtain ⟨held', ended, keeps, moved, fewer⟩ := act_keeps books.owns internal acted
    rw [moved] at noted nodup balance
    exact ⟨held', settle keeps nodup balance noted, fun _ => fewer⟩
  suffices other : ∃ held', Books { u with given := _ } (history ++ _) held' by
    obtain ⟨held', after⟩ := other
    exact ⟨held', after, fun yes => absurd yes internal⟩
  cases action with
  | startPlug task =>
    cases acted
    rw [List.append_nil]
    exact ⟨held, books.owns, balance, books.given⟩
  | finishPlug task =>
    simp only [act] at acted
    split at acted
    · cases acted
      rw [List.append_nil]
      exact ⟨held, books.owns, balance, books.given⟩
    · cases acted
  | writeLink bio target =>
    cases acted
    have fresh (k : δ × Stage) : (k, bio) ∉ held := fun member => by
      have with_driver := (books.given bio).mpr ⟨k, member⟩
      rw [show s.given bio = false from allowed] at with_driver
      cases with_driver
    rw [List.append_nil]
    exact ⟨held, books.owns.update fresh, balance, books.given⟩
  | makeRequest task disk bio call =>
    obtain ⟨⟨v, later⟩, requested, same⟩ := Option.map_eq_some_iff.mp acted
    cases same
    obtain ⟨own, null⟩ := allowed
    have fresh (k : δ × Stage) : (k, bio) ∉ held := fun member => by
      have with_driver := (books.given bio).mpr ⟨k, member⟩
      rw [own] at with_driver
      cases with_driver
    obtain ⟨r, held', ended, kept, keeps, moved⟩ := kfioMakeRequest_keeps books.owns fresh null
    obtain rfl := Option.some.inj (kept.symm.trans requested)
    refine ⟨held', ?_⟩
    rw [List.append_cons, List.foldl_cons]
    have outside : bio ∉ (byDisk held).map Prod.snd := fun member => by
      obtain ⟨k, inside⟩ := mem_byDisk_snd.mp member
      exact fresh k inside
    have all : (ended + byDisk held').map Prod.snd = bio ::ₘ (byDisk held).map Prod.snd := by
      rw [← moved, Multiset.map_cons]
    refine settle keeps ?_ ?_ fun b => ?_
    · rw [all]
      exact Multiset.nodup_cons.mpr ⟨outside, nodup⟩
    · rw [← moved, arrivals_append, endings_append, balance]
      simp only [arrivals_arrived, endings_arrived, arrivals_nil, endings_nil, ← Multiset.singleton_add]
      abel
    · rw [all, Multiset.mem_cons, note]
      by_cases same : b = bio
      · subst same
        simp
      · rw [Function.update_of_ne same, noted]
        simp [same]
  | _ => exact absurd trivial internal

open Transition

theorem books_of_reach {links : β → Option β}
    (reach : Reach step Allowed (initial links : RequestState τ δ β) s history) :
    ∃ held, Books s history held := by
  refine reach.invariant (fun s history => ∃ held, Books s history held) ⟨0, .initial links⟩ ?_
  rintro s t action history events _ ⟨held, books⟩ allowed ran
  obtain ⟨held', after, _⟩ := books.step allowed ran
  exact ⟨held', after⟩

/-- However the tasks, the block layer, `kblockd` and the completions interleave,
every bio that came to a disk has been ended for that disk or is on exactly one
of the driver's lists, and these are disjoint and intact. -/
theorem step_accounts {links : β → Option β}
    (reach : Reach step Allowed (initial links : RequestState τ δ β) s history) :
    ∃ held, Owns s.biNext s.segments held ∧ arrivals history = endings history + byDisk held ∧
      ((byDisk held).map Prod.snd).Nodup ∧ ∀ bio, s.given bio = true ↔ ∃ disk, (disk, bio) ∈ byDisk held := by
  obtain ⟨held, books⟩ := books_of_reach reach
  refine ⟨held, books.owns, books.balance, byDisk_snd_nodup books.owns, fun bio => ?_⟩
  rw [books.given, ← mem_byDisk_snd, Multiset.mem_map]
  constructor
  · rintro ⟨⟨disk, _⟩, member, rfl⟩
    exact ⟨disk, member⟩
  · rintro ⟨disk, member⟩
    exact ⟨(disk, bio), member, rfl⟩

omit [DecidableEq τ] [DecidableEq δ] [DecidableEq β] in
/-- Three writes of a task go through its plug and `kblockd`. The first two make
one fbio, the third is malformed, and the completor has ended the first bio. -/
def pageRun : List (RequestAction Unit Unit Nat) :=
  let env := pageWrites [0#64, 8#64, 3#64]
  let request (bio : Nat) : RequestAction Unit Unit Nat := .makeRequest () () bio ⟨env, true, true, useQueueNone, 0⟩
  [.startPlug (), request 0, request 1, request 2, .unplug 0 true, .runWork 0, .kickoffRound 0 env,
    .kickoffRound 0 env, .kickoffRound 0 env, .complete 0 0, .completorRound 0]

def pageHistory : List (RequestEvent Unit Nat) :=
  [.arrived () 0, .arrived () 1, .arrived () 2, .ended () 2 (-eio), .ended () 0 0]

theorem pageRun_reach :
    ∃ s : RequestState Unit Unit Nat, Reach step Allowed (initial fun _ => none) s pageHistory := by
  have passes : (run step (fun s action => decide (Allowed s action)) (initial fun _ => none) pageRun).any
      (fun r => r.2 == pageHistory) = true := by decide +kernel
  obtain ⟨s, history, reach, same⟩ := Reach.of_check (fun _ _ => of_decide_eq_true) _ passes
  exact ⟨s, beq_iff_eq.mp same ▸ reach⟩

theorem step_accounts_pages : ∃ (s : RequestState Unit Unit Nat) (held : Multiset ((Unit × Stage) × Nat)),
    Owns s.biNext s.segments held ∧ arrivals pageHistory = endings pageHistory + byDisk held ∧
      ((byDisk held).map Prod.snd).Nodup ∧ ∀ bio, s.given bio = true ↔ ∃ disk, (disk, bio) ∈ byDisk held := by
  obtain ⟨s, reach⟩ := pageRun_reach
  exact ⟨s, step_accounts reach⟩

/-- Once no more bios arrive, the driver comes to an end after a bounded number of
rounds, whatever their order. -/
theorem run_length_le {actions : List (RequestAction τ δ β)} (books : Books s history held)
    (internal : ∀ action ∈ actions, action.Internal) (ran : (run step (fun _ _ => true) s actions).isSome) :
    actions.length ≤ s.plugRounds + rounds held := by
  induction actions generalizing s history held with
  | nil => exact Nat.zero_le _
  | cons action rest ih =>
    have own := internal action List.mem_cons_self
    simp only [run, if_true, Option.isSome_iff_exists, Option.bind_eq_some_iff, Option.map_eq_some_iff] at ran
    obtain ⟨_, ⟨t, events⟩, here, last, later, _⟩ := ran
    have allowed : s.Allowed action := by
      cases action <;> trivial
    obtain ⟨held', after, fewer⟩ := books.step allowed here
    have bound := ih after (fun action member => internal action (List.mem_cons_of_mem _ member))
      (Option.isSome_of_eq_some later)
    have one := fewer own
    rw [List.length_cons]
    omega

/-- A driver that can do nothing by itself holds no bio. -/
theorem segments_eq_zero (idle : ∀ action : RequestAction τ δ β, action.Internal → s.step action = none) :
    s.segments = 0 := by
  let env : BioEnv β := ⟨(pageWrites []).bdev, fun _ => (pageWrites []).bio 0, fun _ => none⟩
  have still (action : RequestAction τ δ β) (internal : action.Internal) : s.act action = none :=
    Option.map_eq_none_iff.mp (idle action internal)
  have empty {α : Type} (list : List α) (none : list[0]? = none) : list = [] := by
    cases list with
    | nil => rfl
    | cons => cases none
  have plugs := empty _ (Option.map_eq_none_iff.mp (still (.unplug 0 false) trivial))
  have works := empty _ (Option.map_eq_none_iff.mp (still (.runWork 0) trivial))
  have kickoffs := empty _ (Option.map_eq_none_iff.mp (still (.kickoffRound 0 env) trivial))
  have inFlight := empty _ (Option.map_eq_none_iff.mp (still (.complete 0 0) trivial))
  have completors := empty _ (Option.map_eq_none_iff.mp (still (.completorRound 0) trivial))
  simp [segments, plugs, works, kickoffs, inFlight, completors]

/-- From every reachable state the driver is done with all its bios after a bounded
number of rounds: a round is possible until every bio that arrived has been ended. -/
theorem step_drains {links : β → Option β}
    (reach : Reach step Allowed (initial links : RequestState τ δ β) s history) :
    (∀ actions, (∀ action ∈ actions, action.Internal) → (run step (fun _ _ => true) s actions).isSome →
      actions.length ≤
        2 * s.plugs.length + s.works.length + 3 * ((arrivals history).card - (endings history).card)) ∧
      ((∀ action, action.Internal → s.step action = none) → arrivals history = endings history) := by
  obtain ⟨held, books⟩ := books_of_reach reach
  constructor
  · intro actions internal ran
    have bound := run_length_le books internal ran
    have most : rounds held ≤ 3 * (byDisk held).card := rounds_le
    have difference : (arrivals history).card - (endings history).card = (byDisk held).card := by
      rw [books.balance, Multiset.card_add, Nat.add_sub_cancel_left]
    rw [difference]
    simp only [plugRounds] at bound
    omega
  · intro idle
    have owns := books.owns
    rw [segments_eq_zero idle] at owns
    have none : held = 0 := owns.eq_zero
    rw [books.balance, none]
    exact add_zero _

theorem step_drains_pages : ∃ s : RequestState Unit Unit Nat,
    (∀ actions, (∀ action ∈ actions, action.Internal) → (run step (fun _ _ => true) s actions).isSome →
      actions.length ≤
        2 * s.plugs.length + s.works.length + 3 * ((arrivals pageHistory).card - (endings pageHistory).card)) ∧
      ((∀ action, action.Internal → s.step action = none) → arrivals pageHistory = endings pageHistory) := by
  obtain ⟨s, reach⟩ := pageRun_reach
  exact ⟨s, step_drains reach⟩

end Step

end RequestState

section Alone

variable [DecidableEq β] {ops : FbioOps β (KfioBio β)}

/-- A path with an older log before its own. -/
def BioPath.behind (base path : BioPath β (KfioBio β)) : BioPath β (KfioBio β) :=
  ⟨path.biNext, base.submitted ++ path.submitted, base.completed ++ path.completed⟩

def Kickoff.behind (base : BioPath β (KfioBio β)) (k : Kickoff β (KfioBio β)) : Kickoff β (KfioBio β) :=
  ⟨base.behind k.path, k.tail, k.fbio⟩

omit [DecidableEq β] in
theorem kfioKickoffRemap_behind (base path : BioPath β (KfioBio β)) (tail : Option β) (bio : β) :
    kfioKickoffRemap ops (base.behind path) tail bio = (kfioKickoffRemap ops path tail bio).behind base := by
  cases mapped : ops.kfioMapToFbio bio with
  | none => simp [kfioKickoffRemap, mapped, Kickoff.behind, BioPath.behind, BioPath.kfioBioComplete]
  | some fbio => simp [kfioKickoffRemap, mapped, Kickoff.behind]

/-- The log only grows. -/
theorem kfioKickoffBody_behind (base : BioPath β (KfioBio β)) (k : Kickoff β (KfioBio β)) (bio : β) :
    kfioKickoffBody ops (k.behind base) bio = (kfioKickoffBody ops k bio).behind base := by
  obtain ⟨path, tail, fbio⟩ := k
  have detached : (base.behind path).setNext bio none = base.behind (path.setNext bio none) := rfl
  cases fbio with
  | none =>
    simp only [kfioKickoffBody, Kickoff.behind, detached]
    exact kfioKickoffRemap_behind ..
  | some fbio =>
    by_cases joined : (ops.kfioKbioAddBio fbio bio).2 = 0
    · cases tail <;> simp [kfioKickoffBody, Kickoff.behind, joined, BioPath.behind, BioPath.setNext]
    · have submitted : (base.behind (path.setNext bio none)).kfioBioSubmit (ops.kfioKbioAddBio fbio bio).1 =
          base.behind ((path.setNext bio none).kfioBioSubmit (ops.kfioKbioAddBio fbio bio).1) := by
        simp [BioPath.behind, BioPath.kfioBioSubmit]
      simp only [kfioKickoffBody, Kickoff.behind, detached, joined, if_false, submitted]
      exact kfioKickoffRemap_behind ..

omit [DecidableEq β] in
theorem Kickoff.finish_behind (base : BioPath β (KfioBio β)) (k : Kickoff β (KfioBio β)) :
    (k.behind base).finish = base.behind k.finish := by
  obtain ⟨path, tail, fbio⟩ := k
  cases fbio with
  | none => rfl
  | some fbio => simp [Kickoff.finish, Kickoff.behind, BioPath.behind, BioPath.kfioBioSubmit]

theorem kfioKickoffLoop_behind (base : BioPath β (KfioBio β)) {fuel : Nat}
    {k last : Kickoff β (KfioBio β)} {bio : β}
    (loop : kfioKickoffLoop ops fuel (k.behind base) bio = some last) :
    ∃ own, kfioKickoffLoop ops fuel k bio = some own ∧ last = own.behind base := by
  induction fuel generalizing k bio with
  | zero => cases loop
  | succ fuel ih =>
    have same : (k.behind base).path.biNext bio = k.path.biNext bio := rfl
    simp only [kfioKickoffLoop, kfioKickoffBody_behind, same] at loop ⊢
    cases next : k.path.biNext bio with
    | none =>
      rw [next] at loop
      exact ⟨_, rfl, (Option.some.inj loop).symm⟩
    | some onward =>
      rw [next] at loop
      exact ih loop

end Alone

namespace RequestState

open Transition

variable [DecidableEq τ] [DecidableEq δ] [DecidableEq β] {s : RequestState τ δ β}

/-- Rounds of one kickoff with nothing in between are the loop of
`kfio_kickoff_plugged_io`. -/
theorem run_kickoffRound {env : BioEnv β} {place fuel : Nat} {call : KickoffCall δ β}
    {last : Kickoff β (KfioBio β)} (found : s.kickoffs[place]? = some call)
    (loop : kfioKickoffLoop (kfioOps env) fuel ⟨s.path, call.tail, call.fbio⟩ call.bio = some last) :
    ∃ n, run act (fun _ _ => true) s (List.replicate n (.kickoffRound place env)) =
      some ({ s with kickoffs := s.kickoffs.eraseIdx place }.absorb call.disk last.finish) := by
  induction fuel generalizing s call last with
  | zero => cases loop
  | succ fuel ih =>
    have acted : s.act (.kickoffRound place env) = some (s.kickoffRound place call env) := by
      rw [act, found]
      rfl
    cases next : s.biNext call.bio with
    | none =>
      have ended : s.path.biNext call.bio = none := next
      simp only [kfioKickoffLoop, ended, Option.some.injEq] at loop
      refine ⟨1, ?_⟩
      simp only [List.replicate_one, run, if_true, acted, Option.bind_some, Option.map_some, kickoffRound, next,
        List.append_nil, ← loop]
      rfl
    | some bio =>
      have onward : s.path.biNext call.bio = some bio := next
      simp only [kfioKickoffLoop, onward] at loop
      obtain ⟨k, body⟩ : ∃ k, kfioKickoffBody (kfioOps env) ⟨s.path, call.tail, call.fbio⟩ call.bio = k := ⟨_, rfl⟩
      rw [body] at loop
      let t := ({ s with
        kickoffs := s.kickoffs.set place ⟨call.disk, bio, k.tail, k.fbio⟩ }.absorb call.disk k.path).1
      have split : k = (⟨t.path, k.tail, k.fbio⟩ : Kickoff β (KfioBio β)).behind k.path := by
        simp [Kickoff.behind, BioPath.behind, t, path, absorb]
      rw [split] at loop
      obtain ⟨own, later, rfl⟩ := kfioKickoffLoop_behind k.path loop
      have here : t.kickoffs[place]? = some ⟨call.disk, bio, k.tail, k.fbio⟩ := by
        obtain ⟨below, _⟩ := List.getElem?_eq_some_iff.mp found
        exact List.getElem?_set_self below
      obtain ⟨n, ran⟩ := ih here later
      refine ⟨n + 1, ?_⟩
      have first : s.act (.kickoffRound place env) = some
          ({ s with
            kickoffs := s.kickoffs.set place ⟨call.disk, bio, k.tail, k.fbio⟩ }.absorb call.disk k.path) := by
        rw [acted, kickoffRound, next, ← body]
        rfl
      rw [List.replicate_succ, run, if_pos rfl, first, Option.bind_some]
      show Option.map _ (run act _ t _) = _
      rw [ran, Option.map_some]
      simp [absorb, t, Kickoff.finish_behind, BioPath.behind, List.eraseIdx_set_eq]

/-- A kickoff whose rounds follow each other does what `kfio_kickoff_plugged_io`
does in one go. -/
theorem run_kickoff {env : BioEnv β} {disk : δ} {bio : β} {place fuel : Nat} {path : BioPath β (KfioBio β)}
    (found : s.kickoffs[place]? = some ⟨disk, bio, none, none⟩)
    (whole : kfioKickoffPluggedIo (kfioOps env) fuel s.path bio = some path) :
    ∃ n, run act (fun _ _ => true) s (List.replicate n (.kickoffRound place env)) =
      some ({ s with kickoffs := s.kickoffs.eraseIdx place }.absorb disk path) := by
  obtain ⟨last, loop, rfl⟩ := Option.map_eq_some_iff.mp whole
  exact run_kickoffRound found loop

theorem run_kickoff_pages :
    let env := pageWrites [0#64, 8#64, 3#64]
    let links := Function.update (Function.update (fun _ => none) 0 (some 1)) 1 (some 2)
    let s : RequestState Unit Unit Nat := (initial links).kickoff () 0
    ∃ path, kfioKickoffPluggedIo (kfioOps env) 3 s.path 0 = some path ∧
      ∃ n, run act (fun _ _ => true) s (List.replicate n (.kickoffRound 0 env)) =
        some ({ s with kickoffs := s.kickoffs.eraseIdx 0 }.absorb () path) := by
  intro env links s
  have ends : (kfioKickoffPluggedIo (kfioOps env) 3 s.path 0).isSome = true := by decide
  obtain ⟨path, whole⟩ := Option.isSome_iff_exists.mp ends
  exact ⟨path, whole, run_kickoff rfl whole⟩

end RequestState

end IomemoryVsl
