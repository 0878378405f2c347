import IomemoryVsl.BioKickoff
import IomemoryVsl.Fbio
import Mathlib.Data.List.Nodup

namespace IomemoryVsl

open LinkChain

variable {β φ : Type} [DecidableEq β] {ops : FbioOps β φ} {links : β → Option β}

/-- The completor ends the bios of the chain in order, also when their owners
reuse them at once. -/
theorem kfioBioCompletor_chain {reuse : β → Option β} {bio : β} {rest : List β} {fuel : Nat}
    (distinct : (bio :: rest).Nodup) (chain : IsChain links (some bio) (bio :: rest)) (enough : rest.length < fuel) :
    kfioBioCompletor reuse fuel links bio = some (bio :: rest) := by
  induction rest generalizing links bio fuel with
  | nil =>
    obtain ⟨fuel, rfl⟩ : ∃ n, fuel = n + 1 := ⟨fuel - 1, by simp at enough; omega⟩
    have ended : links bio = none := IsChain.last (show IsChain _ _ ([] ++ [bio]) from chain)
    simp [kfioBioCompletor, ended]
  | cons next rest ih =>
    obtain ⟨fuel, rfl⟩ : ∃ n, fuel = n + 1 := ⟨fuel - 1, by simp at enough; omega⟩
    obtain ⟨target, tail⟩ := chain.eq_next
    obtain ⟨outside, distinct⟩ := List.nodup_cons.mp distinct
    have untouched : IsChain (Function.update links bio (reuse bio)) (some next) (next :: rest) :=
      tail.update outside
    have ended := ih distinct untouched (by simpa using enough)
    simp only [kfioBioCompletor, target, ended, Option.map_some]

/-- Everything kicked off so far has its place in the log, in order. -/
structure Settled (ops : FbioOps β φ) (path : BioPath β φ) (list : List (Merged β φ)) (failed kicked : List β) :
    Prop where
  submits : List.Forall₂ (Submits ops path.biNext) path.submitted list
  completed : path.completed = failed.map fun bio => (bio, -eio)
  accepted : list.flatMap Merged.bios = kicked.filter fun bio => bio ∉ failed
  failed : failed.Sublist kicked

theorem Settled.congr {path path' : BioPath β φ} {list : List (Merged β φ)} {failed kicked : List β}
    (settled : Settled ops path list failed kicked) (submitted : path'.submitted = path.submitted)
    (completed : path'.completed = path.completed) (same : ∀ bio ∈ kicked, path'.biNext bio = path.biNext bio) :
    Settled ops path' list failed kicked := by
  refine ⟨?_, completed.trans settled.completed, settled.accepted, settled.failed⟩
  rw [submitted]
  refine forall₂_submits_congr settled.submits fun bio member => same bio ?_
  rw [settled.accepted] at member
  exact List.mem_of_mem_filter member

/-- Two parts of the bios, each split in two, are together split in two. -/
theorem filter_append_failed {kicked pending failed failed' : List β} (distinct : (kicked ++ pending).Nodup)
    (part : failed.Sublist kicked) (part' : failed'.Sublist pending) :
    (kicked ++ pending).filter (fun bio => bio ∉ failed ++ failed') =
      kicked.filter (fun bio => bio ∉ failed) ++ pending.filter fun bio => bio ∉ failed' := by
  have apart := (List.nodup_append.mp distinct).2.2
  rw [List.filter_append]
  congr 1
  · refine List.filter_congr fun bio member => ?_
    have other : bio ∉ failed' := fun late => apart bio member bio (part'.subset late) rfl
    simp [other]
  · refine List.filter_congr fun bio member => ?_
    have other : bio ∉ failed := fun early => apart bio (part.subset early) bio member rfl
    simp [other]

/-- Kicking off the pending list settles it behind what was settled before. -/
theorem Settled.kickoff {path : BioPath β φ} {list : List (Merged β φ)} {failed kicked rest : List β} {bio : β}
    {fuel : Nat} (settled : Settled ops path list failed kicked) (distinct : (kicked ++ bio :: rest).Nodup)
    (chain : IsChain path.biNext (some bio) (bio :: rest)) (enough : rest.length < fuel) :
    ∃ last, kfioKickoffPluggedIo ops fuel path bio = some last ∧
      Settled ops last (list ++ (mergeBios ops (bio :: rest)).fbios)
        (failed ++ (mergeBios ops (bio :: rest)).failed) (kicked ++ bio :: rest) ∧
      ∀ other ∉ bio :: rest, last.biNext other = path.biNext other := by
  obtain ⟨_, own, apart⟩ := List.nodup_append.mp distinct
  obtain ⟨last, subs, ran, submitted, submits, completed, frame⟩ :=
    kfioKickoffPluggedIo_spec ops path own chain enough
  have splits := mergeBios_splits ops own
  refine ⟨last, ran, ⟨?_, ?_, ?_, settled.failed.append splits.failed⟩, frame⟩
  · rw [submitted]
    refine List.rel_append (forall₂_submits_congr settled.submits fun other member => ?_) submits
    rw [settled.accepted] at member
    exact frame other fun late => apart other (List.mem_of_mem_filter member) other late rfl
  · rw [completed, settled.completed, List.map_append]
  · rw [List.flatMap_append, settled.accepted, filter_append_failed distinct settled.failed splits.failed]
    exact congrArg _ splits.accepted

/-- The state of an active plug: some bios are settled, the others are on its list. -/
def Plugged (ops : FbioOps β φ) (links : β → Option β) (s : KfioPlug β × BioPath β φ) (arrived : List β) : Prop :=
  ∃ list failed kicked pending, arrived = kicked ++ pending ∧ Settled ops s.2 list failed kicked ∧
    IsChain s.2.biNext s.1.bioHead pending ∧ s.1.bioTail = pending.getLast? ∧
    ∀ bio ∉ arrived, s.2.biNext bio = links bio

theorem plugged_initial : Plugged ops links (⟨none, none⟩, ⟨links, [], []⟩) [] :=
  ⟨[], [], [], [], rfl, ⟨.nil, rfl, rfl, .refl _⟩, .done, rfl, fun _ _ => rfl⟩

/-- The list of the plug after a bio was added to it. -/
theorem kfioAddBioToPluggedList_chain (submitNow : β → Bool) {plug : KfioPlug β} {path : BioPath β φ}
    {pending : List β} {bio : β}
    (chain : IsChain path.biNext plug.bioHead pending) (atTail : plug.bioTail = pending.getLast?)
    (distinct : (pending ++ [bio]).Nodup) (null : path.biNext bio = none) :
    ∃ head path', kfioAddBioToPluggedList submitNow plug path bio =
        (if submitNow bio then (⟨none, none⟩, path', some head) else (⟨some head, some bio⟩, path', none)) ∧
      IsChain path'.biNext (some head) (pending ++ [bio]) ∧ path'.submitted = path.submitted ∧
      path'.completed = path.completed ∧ ∀ other ∉ pending, path'.biNext other = path.biNext other := by
  obtain ⟨own, _, apart⟩ := List.nodup_append.mp distinct
  have fresh : bio ∉ pending := fun member => apart bio member bio (by simp) rfl
  rcases List.eq_nil_or_concat' pending with rfl | ⟨front, t, rfl⟩
  · refine ⟨bio, path, ?_, ?_, rfl, rfl, fun _ _ => rfl⟩
    · rw [kfioAddBioToPluggedList, atTail]
      rfl
    · refine .node ?_
      rw [null]
      exact .done
  · rw [List.getLast?_concat] at atTail
    obtain ⟨head, atHead⟩ : ∃ head, plug.bioHead = some head := by
      cases atHead : plug.bioHead with
      | none =>
        rw [atHead] at chain
        exact absurd chain.eq_nil (by simp)
      | some head => exact ⟨head, rfl⟩
    refine ⟨head, path.setNext t (some bio), ?_, ?_, rfl, rfl, ?_⟩
    · rw [kfioAddBioToPluggedList, atTail]
      simp only [atHead]
    · rw [← atHead]
      exact chain.snoc own fresh null
    · intro other outside
      refine Function.update_of_ne ?_ ..
      rintro rfl
      exact outside (by simp)

theorem Plugged.arrive (submitNow : β → Bool) {s : KfioPlug β × BioPath β φ} {arrived : List β} {bio : β} {fuel : Nat}
    (plugged : Plugged ops links s arrived) (distinct : (arrived ++ [bio]).Nodup) (null : links bio = none)
    (enough : arrived.length < fuel) :
    ∃ s', kfioMakeRequestPlugged ops submitNow fuel s bio = some s' ∧ Plugged ops links s' (arrived ++ [bio]) := by
  obtain ⟨plug, path⟩ := s
  obtain ⟨list, failed, kicked, pending, rfl, settled, chain, atTail, frame⟩ := plugged
  have fresh : bio ∉ kicked ++ pending := fun member =>
    (List.nodup_append.mp distinct).2.2 bio member bio (by simp) rfl
  rw [List.append_assoc] at distinct ⊢
  obtain ⟨_, own, apart⟩ := List.nodup_append.mp distinct
  obtain ⟨head, path', added, chain', submitted, completed, outside⟩ :=
    kfioAddBioToPluggedList_chain submitNow chain atTail own ((frame bio fresh).trans null)
  have settled' : Settled ops path' list failed kicked := by
    refine settled.congr submitted completed fun other member => outside other fun pends => ?_
    exact apart other member other (List.mem_append_left _ pends) rfl
  have frame' (other : β) (notIn : other ∉ kicked ++ (pending ++ [bio])) : path'.biNext other = links other := by
    simp only [List.mem_append, not_or] at notIn
    rw [outside other notIn.2.1]
    exact frame other (by simp [notIn])
  cases now : submitNow bio with
  | true =>
    simp only [kfioMakeRequestPlugged, added, now, if_true]
    obtain ⟨rest, same, _⟩ := chain'.eq_cons
    have short : rest.length < fuel := by
      have total := congrArg List.length same
      simp only [List.length_append, List.length_cons, List.length_nil] at total enough
      omega
    rw [same] at distinct chain' frame' ⊢
    obtain ⟨last, ran, after, untouched⟩ := settled'.kickoff distinct chain' short
    refine ⟨(⟨none, none⟩, last), by rw [ran, Option.map_some], _, _, kicked ++ head :: rest, [], ?_, after, .done,
      rfl, ?_⟩
    · rw [List.append_nil]
    · intro other notIn
      rw [untouched other fun pends => notIn (List.mem_append_right _ pends)]
      exact frame' other notIn
  | false =>
    simp only [kfioMakeRequestPlugged, added, now, Bool.false_eq_true, if_false]
    refine ⟨(⟨some head, some bio⟩, path'), rfl, list, failed, kicked, pending ++ [bio], rfl, settled', chain', ?_,
      frame'⟩
    rw [List.getLast?_concat]

theorem plugged_arrivals (ops : FbioOps β φ) (submitNow : β → Bool) {arrivals : List β} {fuel : Nat}
    (distinct : arrivals.Nodup) (null : ∀ bio ∈ arrivals, links bio = none) (enough : arrivals.length ≤ fuel) :
    ∃ s, arrivals.foldlM (kfioMakeRequestPlugged ops submitNow fuel) (⟨none, none⟩, ⟨links, [], []⟩) = some s ∧
      Plugged ops links s arrivals := by
  induction arrivals using List.reverseRecOn with
  | nil => exact ⟨_, rfl, plugged_initial⟩
  | append_singleton arrivals bio ih =>
    rw [List.length_append, List.length_singleton] at enough
    obtain ⟨s, ran, plugged⟩ := ih (List.nodup_append.mp distinct).1
      (fun other member => null other (List.mem_append_left _ member)) (by omega)
    obtain ⟨s', next, after⟩ := plugged.arrive submitNow distinct (null bio (by simp)) enough
    exact ⟨s', by simp [List.foldlM_append, ran, next], after⟩

/-- Pulling the plug settles every bio that arrived. -/
theorem plugRun_settled (ops : FbioOps β φ) (submitNow : β → Bool) {arrivals : List β} {fuel : Nat}
    (distinct : arrivals.Nodup) (null : ∀ bio ∈ arrivals, links bio = none) (enough : arrivals.length ≤ fuel) :
    ∃ final list failed, plugRun ops submitNow fuel links arrivals = some final ∧
      Settled ops final list failed arrivals := by
  obtain ⟨⟨plug, path⟩, ran, list, failed, kicked, pending, split, settled, chain, _, _⟩ :=
    plugged_arrivals ops submitNow distinct null enough
  subst split
  cases atHead : plug.bioHead with
  | none =>
    rw [atHead] at chain
    rw [chain.eq_nil, List.append_nil] at ran ⊢
    exact ⟨path, list, failed, by simp [plugRun, ran, kfioUnplugDoCb, atHead], settled⟩
  | some head =>
    rw [atHead] at chain
    obtain ⟨rest, rfl, _⟩ := chain.eq_cons
    have short : rest.length < fuel := by
      simp only [List.length_append, List.length_cons] at enough
      omega
    obtain ⟨last, kick, after, _⟩ := settled.kickoff distinct chain short
    exact ⟨last, _, _, by simp [plugRun, ran, kfioUnplugDoCb, atHead, kick], after⟩

/-- No bio is lost, duplicated or reordered: what the log of a plug's life says
about the bios that arrived and the chains of the submitted fbios. -/
structure Conserves (ops : FbioOps β φ) (arrivals : List β) (final : BioPath β φ) (chains : List (List β)) :
    Prop where
  /-- Each submitted fbio has its chain when it is submitted, and keeps it. -/
  chained : List.Forall₂ (fun sub chain => IsChain sub.links (some (ops.fbioParameter sub.fbio)) chain ∧
    IsChain final.biNext (some (ops.fbioParameter sub.fbio)) chain) final.submitted chains
  order : chains.flatten = arrivals.filter fun bio => bio ∉ final.completed.map Prod.fst
  failed : (final.completed.map Prod.fst).Sublist arrivals
  error : ∀ completion ∈ final.completed, completion.2 = -eio
  once : ∀ bio ∈ arrivals, (final.completed.map Prod.fst).count bio + chains.flatten.count bio = 1
  /-- The completor ends exactly the chain, whatever else has been written since. -/
  ended : ∀ reuse fuel, arrivals.length ≤ fuel → List.Forall₂ (fun sub chain =>
    ∀ links, (∀ bio ∈ chain, links bio = sub.links bio) →
      kfioBioCompletor reuse fuel links (ops.fbioParameter sub.fbio) = some chain) final.submitted chains

/-- A list without repetition that is split in two has each member on one side. -/
theorem count_failed_accepted {arrivals failed : List β} {bio : β} (distinct : arrivals.Nodup)
    (part : failed.Sublist arrivals) (member : bio ∈ arrivals) :
    failed.count bio + (arrivals.filter fun bio => bio ∉ failed).count bio = 1 := by
  by_cases failure : bio ∈ failed
  · have one := List.count_eq_one_of_mem (distinct.sublist part) failure
    have none : (arrivals.filter fun bio => bio ∉ failed).count bio = 0 :=
      List.count_eq_zero_of_not_mem fun kept => by simp [failure] at kept
    omega
  · have kept : bio ∈ arrivals.filter fun bio => bio ∉ failed := List.mem_filter.mpr ⟨member, by simpa using failure⟩
    have one := List.count_eq_one_of_mem (distinct.filter _) kept
    have none := List.count_eq_zero_of_not_mem failure
    omega

theorem Settled.conserves {final : BioPath β φ} {list : List (Merged β φ)} {failed arrivals : List β}
    (settled : Settled ops final list failed arrivals) (distinct : arrivals.Nodup) :
    Conserves ops arrivals final (list.map Merged.bios) := by
  have gone : final.completed.map Prod.fst = failed := by
    rw [settled.completed, List.map_map]
    exact List.map_id failed
  have accepted : (list.map Merged.bios).flatten = arrivals.filter fun bio => bio ∉ failed := by
    rw [← settled.accepted, List.flatMap_def]
  refine ⟨?_, by rw [gone, accepted], by rw [gone]; exact settled.failed, ?_, ?_, ?_⟩
  · rw [List.forall₂_map_right_iff]
    refine settled.submits.imp fun sub merged submits => ?_
    rw [submits.fbio]
    exact ⟨submits.chain, submits.chain.congr submits.kept⟩
  · intro completion member
    rw [settled.completed] at member
    obtain ⟨bio, _, rfl⟩ := List.mem_map.mp member
    rfl
  · intro bio member
    rw [gone, accepted]
    exact count_failed_accepted distinct settled.failed member
  · intro reuse fuel enough
    rw [List.forall₂_map_right_iff]
    have inside : ∀ merged ∈ list, merged.bios.Sublist (arrivals.filter fun bio => bio ∉ failed) := by
      intro merged member
      rw [← accepted]
      exact List.sublist_flatten_of_mem (List.mem_map_of_mem member)
    refine forall₂_imp_mem settled.submits fun sub merged member submits links same => ?_
    have small := (inside merged member).trans List.filter_sublist
    have chain := submits.chain.congr same
    obtain ⟨rest, bios, _⟩ := chain.eq_cons
    rw [submits.fbio]
    have length := small.length_le
    have own := distinct.sublist small
    rw [bios] at chain length own ⊢
    exact kfioBioCompletor_chain own chain (Nat.lt_of_succ_le (Nat.le_trans length enough))

/-- Whatever becomes of each bio, the life of a plug ends and conserves the bios. -/
theorem kfio_bio_path_conserves (ops : FbioOps β φ) (submitNow : β → Bool) {arrivals : List β} {fuel : Nat}
    (distinct : arrivals.Nodup) (null : ∀ bio ∈ arrivals, links bio = none) (enough : arrivals.length ≤ fuel) :
    ∃ final chains, plugRun ops submitNow fuel links arrivals = some final ∧
      Conserves ops arrivals final chains := by
  obtain ⟨final, list, failed, ran, settled⟩ := plugRun_settled ops submitNow distinct null enough
  exact ⟨final, list.map Merged.bios, ran, settled.conserves distinct⟩

/-- Two writes that are merged, and one that is malformed. -/
theorem kfio_bio_path_conserves_writes :
    ∃ final chains, plugRun (kfioOps (pageWrites [0#64, 8#64, 3#64]))
        (fun p => ((pageWrites [0#64, 8#64, 3#64]).bio p).kfioBioShouldSubmitNow) 3 (fun _ => none) [0, 1, 2] =
        some final ∧ Conserves (kfioOps (pageWrites [0#64, 8#64, 3#64])) [0, 1, 2] final chains :=
  kfio_bio_path_conserves _ _ (by decide) (fun _ _ => rfl) (by decide)

end IomemoryVsl
