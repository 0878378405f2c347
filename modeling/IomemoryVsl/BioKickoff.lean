import IomemoryVsl.BioMerge
import Mathlib.Data.List.Forall2

namespace IomemoryVsl

open LinkChain

variable {β φ : Type}

/-- A submission carries out a merged fbio: its chain is exactly the merged bios
when it is submitted, and later writes have left the links of these alone. -/
structure Submits (ops : FbioOps β φ) (links : β → Option β) (sub : Submission β φ) (merged : Merged β φ) :
    Prop where
  fbio : sub.fbio = merged.fbio
  chain : IsChain sub.links (some (ops.fbioParameter merged.fbio)) merged.bios
  kept : ∀ bio ∈ merged.bios, links bio = sub.links bio

theorem Submits.congr {ops : FbioOps β φ} {links links' : β → Option β} {sub : Submission β φ}
    {merged : Merged β φ} (submits : Submits ops links sub merged)
    (same : ∀ bio ∈ merged.bios, links' bio = links bio) : Submits ops links' sub merged :=
  ⟨submits.fbio, submits.chain, fun bio member => (same bio member).trans (submits.kept bio member)⟩

theorem forall₂_imp_mem {α γ : Type} {R S : α → γ → Prop} {left : List α} {right : List γ}
    (related : List.Forall₂ R left right) (step : ∀ a, ∀ b ∈ right, R a b → S a b) : List.Forall₂ S left right := by
  induction related with
  | nil => exact .nil
  | @cons a b left right first _ ih =>
    refine .cons (step a b List.mem_cons_self first) (ih ?_)
    exact fun a b member => step a b (List.mem_cons_of_mem _ member)

theorem forall₂_submits_congr {ops : FbioOps β φ} {links links' : β → Option β} {subs : List (Submission β φ)}
    {list : List (Merged β φ)} (submits : List.Forall₂ (Submits ops links) subs list)
    (same : ∀ bio ∈ list.flatMap Merged.bios, links' bio = links bio) :
    List.Forall₂ (Submits ops links') subs list := by
  refine forall₂_imp_mem submits fun sub merged member submits => submits.congr fun bio inside => ?_
  exact same bio (List.mem_flatMap.mpr ⟨merged, member, inside⟩)

/-- The pointer state of the loop after some bios, against what they were merged to. -/
structure Tracks (ops : FbioOps β φ) (base : BioPath β φ) (k : Kickoff β φ) (m : Merge β φ) (bios : List β) :
    Prop where
  submitted : ∃ subs, k.path.submitted = base.submitted ++ subs ∧
    List.Forall₂ (Submits ops k.path.biNext) subs m.closed
  completed : k.path.completed = base.completed ++ m.failed.map fun bio => (bio, -eio)
  fbio : k.fbio = m.current.map Merged.fbio
  tail : ∀ merged, m.current = some merged → ∃ front t, merged.bios = front ++ [t] ∧ k.tail = some t ∧
    IsChain k.path.biNext (some (ops.fbioParameter merged.fbio)) merged.bios
  frame : ∀ bio ∉ bios, k.path.biNext bio = base.biNext bio

variable [DecidableEq β] {ops : FbioOps β φ} {base : BioPath β φ} {k : Kickoff β φ} {m : Merge β φ}
  {bios : List β} {bio : β}

omit [DecidableEq β] in
/-- An open fbio is closed by submitting it. -/
theorem Tracks.close (fbio : φ) {merged : Merged β φ} (tracks : Tracks ops base k m bios)
    (isOpen : m.current = some merged) (same : ops.fbioParameter fbio = ops.fbioParameter merged.fbio) :
    ∃ subs, (k.path.kfioBioSubmit fbio).submitted = base.submitted ++ subs ∧
      List.Forall₂ (Submits ops k.path.biNext) subs (m.closed ++ [⟨fbio, merged.bios⟩]) := by
  obtain ⟨subs, split, submits⟩ := tracks.submitted
  obtain ⟨_, _, _, _, chain⟩ := tracks.tail merged isOpen
  refine ⟨subs ++ [⟨fbio, k.path.biNext⟩], ?_, ?_⟩
  · rw [BioPath.kfioBioSubmit, split, List.append_assoc]
  · refine List.rel_append submits (.cons ⟨rfl, ?_, fun _ _ => rfl⟩ .nil)
    rw [same]
    exact chain

/-- The write of NULL to the link of the next bio touches nothing seen before. -/
theorem Tracks.detach (tracks : Tracks ops base k m bios) (splits : m.Splits ops bios) (fresh : bio ∉ bios) :
    Tracks ops base { k with path := k.path.setNext bio none } m (bios ++ [bio]) := by
  have outside (merged : Merged β φ) (member : merged ∈ m.fbios) : bio ∉ merged.bios := by
    intro inside
    have accepted : bio ∈ m.accepted := List.mem_flatMap.mpr ⟨merged, member, inside⟩
    rw [splits.accepted] at accepted
    exact fresh (List.mem_of_mem_filter accepted)
  obtain ⟨subs, split, submits⟩ := tracks.submitted
  refine ⟨⟨subs, split, forall₂_submits_congr submits ?_⟩, tracks.completed, tracks.fbio, ?_, ?_⟩
  · intro other member
    obtain ⟨merged, among, inside⟩ := List.mem_flatMap.mp member
    refine Function.update_of_ne ?_ ..
    rintro rfl
    exact outside merged (List.mem_append_left _ among) inside
  · intro merged isOpen
    obtain ⟨front, t, last, atTail, chain⟩ := tracks.tail merged isOpen
    exact ⟨front, t, last, atTail, chain.update (outside merged (by simp [Merge.fbios, isOpen]))⟩
  · intro other notIn
    rw [List.mem_append, List.mem_singleton, not_or] at notIn
    exact (Function.update_of_ne notIn.2 ..).trans (tracks.frame other notIn.1)

omit [DecidableEq β] in
/-- A new fbio is made, or the bio fails, with everything older submitted. -/
theorem Tracks.remap {path : BioPath β φ} {tail : Option β} {closed : List (Merged β φ)}
    (submitted : ∃ subs, path.submitted = base.submitted ++ subs ∧
      List.Forall₂ (Submits ops path.biNext) subs closed)
    (completed : path.completed = base.completed ++ m.failed.map fun bio => (bio, -eio))
    (frame : ∀ other ∉ bios ++ [bio], path.biNext other = base.biNext other) (null : path.biNext bio = none) :
    Tracks ops base (kfioKickoffRemap ops path tail bio) (Merge.place ops ⟨none, closed, m.failed⟩ bio)
      (bios ++ [bio]) := by
  cases mapped : ops.kfioMapToFbio bio with
  | none =>
    simp only [kfioKickoffRemap, Merge.place, mapped]
    refine ⟨submitted, ?_, rfl, fun _ same => absurd same (Option.some_ne_none _).symm, frame⟩
    simp [BioPath.kfioBioComplete, completed]
  | some fbio =>
    simp only [kfioKickoffRemap, Merge.place, mapped]
    refine ⟨submitted, completed, rfl, ?_, frame⟩
    intro merged same
    simp only [Option.some.injEq] at same
    subst same
    refine ⟨[], bio, rfl, rfl, ?_⟩
    rw [ops.map_parameter mapped]
    refine .node ?_
    rw [null]
    exact .done

theorem Tracks.body (tracks : Tracks ops base k m bios) (splits : m.Splits ops bios) (distinct : bios.Nodup)
    (fresh : bio ∉ bios) : Tracks ops base (kfioKickoffBody ops k bio) (m.step ops bio) (bios ++ [bio]) := by
  have detached := tracks.detach splits fresh
  have null : (k.path.setNext bio none).biNext bio = none := Function.update_self ..
  cases isOpen : m.current with
  | none =>
    have closed : k.fbio = none := by rw [tracks.fbio, isOpen]; rfl
    have same : m = ⟨none, m.closed, m.failed⟩ := by rw [← isOpen]
    rw [kfioKickoffBody, closed, Merge.step, isOpen]
    dsimp only
    rw [same]
    exact Tracks.remap (m := m) detached.submitted detached.completed detached.frame null
  | some merged =>
    have isFbio : k.fbio = some merged.fbio := by rw [tracks.fbio, isOpen]; rfl
    rw [kfioKickoffBody, isFbio, Merge.step, isOpen]
    dsimp only
    split
    · obtain ⟨front, t, last, atTail, chain⟩ := detached.tail merged isOpen
      rw [show k.tail = some t from atTail]
      have all : (m.closed.flatMap Merged.bios ++ (front ++ [t])).Nodup := by
        have accepted : m.accepted = m.closed.flatMap Merged.bios ++ (front ++ [t]) := by
          simp [Merge.accepted, Merge.fbios, isOpen, last]
        rw [← accepted, splits.accepted]
        exact distinct.filter _
      have inside : ∀ other ∈ front ++ [t], other ∈ bios := by
        intro other member
        have accepted : other ∈ m.accepted := by
          simp only [Merge.accepted, Merge.fbios, isOpen, Option.toList_some, List.flatMap_append,
            List.flatMap_singleton, List.mem_append, last]
          exact .inr (List.mem_append.mp member)
        rw [splits.accepted] at accepted
        exact List.mem_of_mem_filter accepted
      rw [List.nodup_append] at all
      obtain ⟨subs, split, submits⟩ := detached.submitted
      refine ⟨⟨subs, split, forall₂_submits_congr submits ?_⟩, detached.completed, rfl, ?_, ?_⟩
      · intro other member
        refine Function.update_of_ne ?_ ..
        exact all.2.2 other member t (by simp)
      · intro next same
        simp only [Option.some.injEq] at same
        subst same
        refine ⟨merged.bios, bio, rfl, rfl, ?_⟩
        rw [ops.add_parameter]
        rw [last] at chain ⊢
        exact chain.snoc all.2.1 (fun member => fresh (inside bio member)) null
      · intro other notIn
        have different : other ≠ t := by
          rintro rfl
          exact notIn (List.mem_append_left _ (inside other (by simp)))
        exact (Function.update_of_ne different ..).trans (detached.frame other notIn)
    · have closed := detached.close _ isOpen (ops.add_parameter merged.fbio bio)
      exact Tracks.remap (m := m) closed detached.completed detached.frame null

/-- The loop takes the list it was given in order, whatever becomes of its bios. -/
theorem kfioKickoffLoop_tracks {rest : List β} {fuel : Nat} (tracks : Tracks ops base k (mergeBios ops bios) bios)
    (distinct : (bios ++ bio :: rest).Nodup) (chain : IsChain k.path.biNext (some bio) (bio :: rest))
    (enough : rest.length < fuel) :
    ∃ last, kfioKickoffLoop ops fuel k bio = some last ∧
      Tracks ops base last (mergeBios ops (bios ++ bio :: rest)) (bios ++ bio :: rest) := by
  induction rest generalizing k bios bio fuel with
  | nil =>
    obtain ⟨fuel, rfl⟩ : ∃ n, fuel = n + 1 := ⟨fuel - 1, by simp at enough; omega⟩
    obtain ⟨before, _, apart⟩ := List.nodup_append.mp distinct
    have fresh : bio ∉ bios := fun member => apart bio member bio (by simp) rfl
    have ended : k.path.biNext bio = none := IsChain.last (show IsChain _ _ ([] ++ [bio]) from chain)
    refine ⟨kfioKickoffBody ops k bio, by simp [kfioKickoffLoop, ended], ?_⟩
    rw [mergeBios_snoc]
    exact tracks.body (mergeBios_splits ops before) before fresh
  | cons next rest ih =>
    obtain ⟨fuel, rfl⟩ : ∃ n, fuel = n + 1 := ⟨fuel - 1, by simp at enough; omega⟩
    obtain ⟨before, ahead, apart⟩ := List.nodup_append.mp distinct
    have fresh : bio ∉ bios := fun member => apart bio member bio (by simp) rfl
    have onward := chain.eq_next
    have step := tracks.body (mergeBios_splits ops before) before fresh
    rw [← mergeBios_snoc] at step
    rw [List.append_cons] at distinct ⊢
    have apart := (List.nodup_append.mp distinct).2.2
    have chainAfter : IsChain (kfioKickoffBody ops k bio).path.biNext (some next) (next :: rest) := by
      refine onward.2.congr fun other member => ?_
      have notDone : other ∉ bios ++ [bio] := fun done => apart other done other member rfl
      have notBefore : other ∉ bios := fun done => notDone (List.mem_append_left _ done)
      rw [step.frame other notDone, tracks.frame other notBefore]
    obtain ⟨last, ran, final⟩ := ih step distinct chainAfter (by simpa using enough)
    exact ⟨last, by simp only [kfioKickoffLoop, onward.1, ran], final⟩

/-- `kfio_kickoff_plugged_io` ends, and submits and fails exactly what merging the
listed bios gives. -/
theorem kfioKickoffPluggedIo_spec (ops : FbioOps β φ) (path : BioPath β φ) {rest : List β} {fuel : Nat}
    (distinct : (bio :: rest).Nodup) (chain : IsChain path.biNext (some bio) (bio :: rest))
    (enough : rest.length < fuel) :
    ∃ last subs, kfioKickoffPluggedIo ops fuel path bio = some last ∧
      last.submitted = path.submitted ++ subs ∧
      List.Forall₂ (Submits ops last.biNext) subs (mergeBios ops (bio :: rest)).fbios ∧
      last.completed = path.completed ++ (mergeBios ops (bio :: rest)).failed.map (fun bio => (bio, -eio)) ∧
      ∀ other ∉ bio :: rest, last.biNext other = path.biNext other := by
  have start : Tracks ops path ⟨path, none, none⟩ (mergeBios ops []) [] := by
    refine ⟨⟨[], (List.append_nil _).symm, .nil⟩, (List.append_nil _).symm, rfl, ?_, fun _ _ => rfl⟩
    exact fun _ same => absurd same (Option.some_ne_none _).symm
  obtain ⟨k, ran, tracks⟩ := kfioKickoffLoop_tracks start distinct chain enough
  rw [List.nil_append] at tracks
  have result : kfioKickoffPluggedIo ops fuel path bio = some k.finish := by
    rw [kfioKickoffPluggedIo, ran, Option.map_some]
  cases isOpen : (mergeBios ops (bio :: rest)).current with
  | none =>
    have closed : k.fbio = none := by rw [tracks.fbio, isOpen]; rfl
    obtain ⟨subs, split, submits⟩ := tracks.submitted
    refine ⟨k.finish, subs, result, ?_⟩
    simp only [Kickoff.finish, closed, Merge.fbios, isOpen, Option.toList_none, List.append_nil]
    exact ⟨split, submits, tracks.completed, tracks.frame⟩
  | some merged =>
    have isFbio : k.fbio = some merged.fbio := by rw [tracks.fbio, isOpen]; rfl
    obtain ⟨subs, split, submits⟩ := tracks.close merged.fbio isOpen rfl
    refine ⟨k.finish, subs, result, ?_⟩
    simp only [Kickoff.finish, isFbio, Merge.fbios, isOpen, Option.toList_some]
    exact ⟨split, submits, tracks.completed, tracks.frame⟩

end IomemoryVsl
