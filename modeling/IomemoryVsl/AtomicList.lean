import IomemoryVsl.LinkChain
import IomemoryVsl.Transition
import Mathlib.Data.Fintype.Basic
import Mathlib.Data.List.Forall2

namespace IomemoryVsl

open LinkChain

/-- Where a thread stands in `fusion_atomic_list_add`. -/
inductive AddPc (β : Type)
  | idle
  | load (entry : β)
  | store (entry : β) (cur : Option β)
  | cmpxchg (entry : β) (cur : Option β)
  deriving DecidableEq, Repr

namespace AddPc

variable {β : Type}

/-- The entry that the thread is adding. -/
def entry : AddPc β → Option β
  | .idle => none
  | .load entry | .store entry _ | .cmpxchg entry _ => some entry

end AddPc

/-- One shared list, the links of all entries and the threads. -/
structure AtomicList (τ β : Type) where
  head : Option β
  next : β → Option β
  pc : τ → AddPc β

inductive ListAction (τ β : Type)
  /-- The thread calls `fusion_atomic_list_add`. -/
  | add (t : τ) (entry : β)
  /-- The thread takes its next step in `fusion_atomic_list_add`. -/
  | step (t : τ)
  /-- A thread calls `fusion_atomic_list_splice`. -/
  | splice

inductive ListEvent (β : Type)
  /-- The compare-and-exchange for an entry succeeded. -/
  | pushed (entry : β)
  /-- A splice took this list, whose links are those of the moment. -/
  | spliced (head : Option β) (next : β → Option β)

namespace AtomicList

variable {τ β : Type}

/-- `fusion_atomic_list_init`. The links hold anything. -/
def initial (links : β → Option β) : AtomicList τ β := ⟨none, links, fun _ => .idle⟩

variable [DecidableEq τ] [DecidableEq β]

omit [DecidableEq β] in
/-- The thread goes on to another place. -/
def setPc (s : AtomicList τ β) (t : τ) (pc : AddPc β) : AtomicList τ β := { s with pc := Function.update s.pc t pc }

omit [DecidableEq β] in
theorem setPc_self (s : AtomicList τ β) (t : τ) (pc : AddPc β) : (s.setPc t pc).pc t = pc := Function.update_self ..

omit [DecidableEq β] in
theorem setPc_of_ne (s : AtomicList τ β) {t u : τ} (pc : AddPc β) (other : u ≠ t) : (s.setPc t pc).pc u = s.pc u :=
  Function.update_of_ne other ..

/-- One atomic step. -/
def step (s : AtomicList τ β) : ListAction τ β → Option (AtomicList τ β × List (ListEvent β))
  | .add t entry =>
    match s.pc t with
    | .idle => some (s.setPc t (.load entry), [])
    | _ => none
  | .step t =>
    match s.pc t with
    | .idle => none
    | .load entry => some (s.setPc t (.store entry s.head), [])
    | .store entry cur =>
      some (({ s with next := Function.update s.next entry cur } : AtomicList τ β).setPc t (.cmpxchg entry cur), [])
    | .cmpxchg entry cur =>
      if s.head = cur then
        some (({ s with head := some entry } : AtomicList τ β).setPc t .idle, [.pushed entry])
      else
        some (s.setPc t (.load entry), [])
  | .splice => some ({ s with head := none }, [.spliced s.head s.next])

omit [DecidableEq τ] [DecidableEq β] in
/-- An entry is added only when it is not on the list and no thread is adding it. -/
def MayAdd (s : AtomicList τ β) : ListAction τ β → Prop
  | .add _ entry => (∀ list, IsChain s.next s.head list → entry ∉ list) ∧ ∀ t, (s.pc t).entry ≠ some entry
  | _ => True

end AtomicList

variable {τ β : Type}

/-- The entries that `fusion_atomic_list_for_each` visits. -/
def fusionAtomicListForEach (next : β → Option β) : Nat → Option β → Option (List β)
  | _, none => some []
  | 0, some _ => none
  | fuel + 1, some pos => (fusionAtomicListForEach next fuel (next pos)).map (pos :: ·)

/-- The runs of any threads on one list. -/
abbrev ListReach [DecidableEq τ] [DecidableEq β] (links : β → Option β) :
    AtomicList τ β → List (ListEvent β) → Prop :=
  Transition.Reach AtomicList.step AtomicList.MayAdd (AtomicList.initial links)

/-- The successful compare-and-exchanges in order. -/
def pushes (history : List (ListEvent β)) : List β :=
  history.filterMap fun
    | .pushed entry => some entry
    | .spliced .. => none

/-- The lists taken by splices in order. -/
def splices (history : List (ListEvent β)) : List (Option β × (β → Option β)) :=
  history.filterMap fun
    | .pushed _ => none
    | .spliced head next => some (head, next)

/-- The entries pushed since the last splice, the last one first. -/
def pushedSince (history : List (ListEvent β)) : List β :=
  history.foldl (fun entries event =>
    match event with
    | .pushed entry => entry :: entries
    | .spliced .. => []) []

/-- Every push is delivered by the next splice, in the order of a stack, or is
still on the list. -/
structure DeliversOnce (s : AtomicList τ β) (history : List (ListEvent β)) : Prop where
  shared : IsChain s.next s.head (pushedSince history) ∧ (pushedSince history).Nodup
  batch : Transition.Historical (fun past event => ∀ head next, event = .spliced head next →
    IsChain next head (pushedSince past) ∧ (pushedSince past).Nodup) history
  conserved : ∃ batches, List.Forall₂ (fun splice batch => IsChain splice.2 splice.1 batch) (splices history) batches ∧
    pushes history = batches.flatMap List.reverse ++ (pushedSince history).reverse

theorem fusionAtomicListForEach_isChain {next : β → Option β} {fuel : Nat} {p : Option β} {list : List β}
    (walked : fusionAtomicListForEach next fuel p = some list) : IsChain next p list := by
  induction fuel generalizing p list with
  | zero =>
    cases p with
    | none =>
      cases walked
      exact .done
    | some pos => cases walked
  | succ fuel ih =>
    cases p with
    | none =>
      cases walked
      exact .done
    | some pos =>
      obtain ⟨rest, onward, rfl⟩ := Option.map_eq_some_iff.mp walked
      exact .node (ih onward)

theorem pushes_snoc_pushed (history : List (ListEvent β)) (entry : β) :
    pushes (history ++ [.pushed entry]) = pushes history ++ [entry] := by
  simp [pushes]

theorem pushes_snoc_spliced (history : List (ListEvent β)) (head : Option β) (next : β → Option β) :
    pushes (history ++ [.spliced head next]) = pushes history := by
  simp [pushes]

theorem splices_snoc_pushed (history : List (ListEvent β)) (entry : β) :
    splices (history ++ [.pushed entry]) = splices history := by
  simp [splices]

theorem splices_snoc_spliced (history : List (ListEvent β)) (head : Option β) (next : β → Option β) :
    splices (history ++ [.spliced head next]) = splices history ++ [(head, next)] := by
  simp [splices]

theorem pushedSince_snoc_pushed (history : List (ListEvent β)) (entry : β) :
    pushedSince (history ++ [.pushed entry]) = entry :: pushedSince history := by
  rw [pushedSince, List.foldl_append]
  rfl

theorem pushedSince_snoc_spliced (history : List (ListEvent β)) (head : Option β) (next : β → Option β) :
    pushedSince (history ++ [.spliced head next]) = [] := by
  rw [pushedSince, List.foldl_append]
  rfl

/-- What is true while threads are adding entries. A thread about to exchange has
the value it compares with in the link of its entry, so the exchange is right
whenever it succeeds, also on a head that was gone in between. -/
structure AtomicList.Inv (s : AtomicList τ β) (history : List (ListEvent β)) : Prop where
  delivers : DeliversOnce s history
  outside : ∀ t entry, (s.pc t).entry = some entry → entry ∉ pushedSince history
  apart : ∀ t u entry, (s.pc t).entry = some entry → (s.pc u).entry = some entry → t = u
  linked : ∀ t entry cur, s.pc t = .cmpxchg entry cur → s.next entry = cur

namespace AtomicList

variable [DecidableEq τ] [DecidableEq β] {s : AtomicList τ β} {history : List (ListEvent β)} {t : τ}
  {entry : β} {cur : Option β}

omit [DecidableEq β] in
/-- A step that only moves a thread on with the entry it has. -/
theorem Inv.move (inv : s.Inv history) {pc : AddPc β}
    (same : ∀ entry, pc.entry = some entry → (s.pc t).entry = some entry)
    (linked : ∀ entry cur, pc = .cmpxchg entry cur → s.next entry = cur) : (s.setPc t pc).Inv history := by
  have adding (u : τ) (entry : β) (here : ((s.setPc t pc).pc u).entry = some entry) :
      (s.pc u).entry = some entry := by
    by_cases moved : u = t
    · rw [moved, setPc_self] at here
      rw [moved]
      exact same entry here
    · rwa [setPc_of_ne _ _ moved] at here
  refine ⟨⟨inv.delivers.shared, inv.delivers.batch, inv.delivers.conserved⟩, ?_, ?_, ?_⟩
  · intro u entry here
    exact inv.outside u entry (adding u entry here)
  · intro u v entry left right
    exact inv.apart u v entry (adding u entry left) (adding v entry right)
  · intro u entry cur here
    by_cases moved : u = t
    · rw [moved, setPc_self] at here
      exact linked entry cur here
    · rw [setPc_of_ne _ _ moved] at here
      exact inv.linked u entry cur here

omit [DecidableEq β] in
theorem Inv.add (inv : s.Inv history) (off : entry ∉ pushedSince history) (free : ∀ u, (s.pc u).entry ≠ some entry) :
    (s.setPc t (.load entry)).Inv history := by
  refine ⟨⟨inv.delivers.shared, inv.delivers.batch, inv.delivers.conserved⟩, ?_, ?_, ?_⟩
  · intro u other here
    by_cases moved : u = t
    · rw [moved, setPc_self] at here
      cases here
      exact off
    · rw [setPc_of_ne _ _ moved] at here
      exact inv.outside u other here
  · intro u v other left right
    by_cases first : u = t
    · by_cases second : v = t
      · exact first.trans second.symm
      · rw [first, setPc_self] at left
        cases left
        rw [setPc_of_ne _ _ second] at right
        exact absurd right (free v)
    · rw [setPc_of_ne _ _ first] at left
      by_cases second : v = t
      · rw [second, setPc_self] at right
        cases right
        exact absurd left (free u)
      · rw [setPc_of_ne _ _ second] at right
        exact inv.apart u v other left right
  · intro u other cur here
    by_cases moved : u = t
    · rw [moved, setPc_self] at here
      cases here
    · rw [setPc_of_ne _ _ moved] at here
      exact inv.linked u other cur here

/-- Storing the link of an entry touches neither the list nor another thread's entry. -/
theorem Inv.store (inv : s.Inv history) (here : s.pc t = .store entry cur) :
    (({ s with next := Function.update s.next entry cur } : AtomicList τ β).setPc t (.cmpxchg entry cur)).Inv
      history := by
  have adds : (s.pc t).entry = some entry := by rw [here]; rfl
  have off := inv.outside t entry adds
  have written : ({ s with next := Function.update s.next entry cur } : AtomicList τ β).Inv history := by
    refine ⟨⟨⟨inv.delivers.shared.1.update off, inv.delivers.shared.2⟩, inv.delivers.batch,
      inv.delivers.conserved⟩, inv.outside, inv.apart, ?_⟩
    intro u other value at_
    have different : other ≠ entry := by
      rintro rfl
      have same := inv.apart t u other adds (by rw [at_]; rfl)
      rw [← same, here] at at_
      cases at_
    exact (Function.update_of_ne different ..).trans (inv.linked u other value at_)
  refine written.move (t := t) ?_ ?_
  · intro other same
    rw [here]
    exact same
  · intro other value same
    cases same
    exact Function.update_self ..

omit [DecidableEq β] in
/-- A successful exchange puts the entry in front of the list as it is now. -/
theorem Inv.push (inv : s.Inv history) (here : s.pc t = .cmpxchg entry s.head) :
    (({ s with head := some entry } : AtomicList τ β).setPc t .idle).Inv (history ++ [.pushed entry]) := by
  have adds : (s.pc t).entry = some entry := by rw [here]; rfl
  have off := inv.outside t entry adds
  obtain ⟨batches, taken, all⟩ := inv.delivers.conserved
  have others (u : τ) (other : β)
      (here : ((({ s with head := some entry } : AtomicList τ β).setPc t .idle).pc u).entry = some other) :
      u ≠ t ∧ (s.pc u).entry = some other := by
    by_cases moved : u = t
    · rw [moved, setPc_self] at here
      cases here
    · rw [setPc_of_ne _ _ moved] at here
      exact ⟨moved, here⟩
  refine ⟨⟨?_, ?_, batches, ?_, ?_⟩, ?_, ?_, ?_⟩
  · rw [pushedSince_snoc_pushed]
    have chain := inv.delivers.shared.1
    rw [← inv.linked t entry s.head here] at chain
    exact ⟨.node chain, List.nodup_cons.mpr ⟨off, inv.delivers.shared.2⟩⟩
  · refine inv.delivers.batch.snoc fun head next same => ?_
    cases same
  · rw [splices_snoc_pushed]
    exact taken
  · rw [pushes_snoc_pushed, pushedSince_snoc_pushed, all, List.reverse_cons, List.append_assoc]
  · intro u other adding
    obtain ⟨moved, before⟩ := others u other adding
    rw [pushedSince_snoc_pushed, List.mem_cons, not_or]
    refine ⟨?_, inv.outside u other before⟩
    rintro rfl
    exact moved (inv.apart u t other before adds)
  · intro u v other left right
    exact inv.apart u v other (others u other left).2 (others v other right).2
  · intro u other value at_
    by_cases moved : u = t
    · rw [moved, setPc_self] at at_
      cases at_
    · rw [setPc_of_ne _ _ moved] at at_
      exact inv.linked u other value at_

omit [DecidableEq τ] [DecidableEq β] in
theorem Inv.splice (inv : s.Inv history) :
    ({ s with head := none } : AtomicList τ β).Inv (history ++ [.spliced s.head s.next]) := by
  obtain ⟨batches, taken, all⟩ := inv.delivers.conserved
  refine ⟨⟨?_, ?_, batches ++ [pushedSince history], ?_, ?_⟩, ?_, inv.apart, inv.linked⟩
  · rw [pushedSince_snoc_spliced]
    exact ⟨.done, List.nodup_nil⟩
  · refine inv.delivers.batch.snoc fun head next same => ?_
    cases same
    exact inv.delivers.shared
  · rw [splices_snoc_spliced]
    exact List.rel_append taken (.cons inv.delivers.shared.1 .nil)
  · rw [pushes_snoc_spliced, pushedSince_snoc_spliced, all, List.flatMap_append, List.flatMap_singleton,
      List.reverse_nil, List.append_nil]
  · intro u other _
    rw [pushedSince_snoc_spliced]
    exact List.not_mem_nil

theorem Inv.step {last : AtomicList τ β} {action : ListAction τ β} {events : List (ListEvent β)}
    (inv : s.Inv history) (may : s.MayAdd action) (run : s.step action = some (last, events)) :
    last.Inv (history ++ events) := by
  cases action with
  | add t entry =>
    simp only [AtomicList.step] at run
    split at run
    · cases run
      rw [List.append_nil]
      exact inv.add (may.1 _ inv.delivers.shared.1) may.2
    · cases run
  | step t =>
    simp only [AtomicList.step] at run
    split at run
    · cases run
    · rename_i entry here
      cases run
      rw [List.append_nil]
      refine inv.move (fun other same => ?_) fun other value same => by cases same
      rw [here]
      exact same
    · rename_i entry cur here
      cases run
      rw [List.append_nil]
      exact inv.store here
    · rename_i entry cur here
      split at run
      · rename_i same
        cases run
        rw [← same] at here
        exact inv.push here
      · cases run
        rw [List.append_nil]
        refine inv.move (fun other same => ?_) fun other value same => by cases same
        rw [here]
        exact same
  | splice =>
    cases run
    exact inv.splice

end AtomicList

/-- The list delivers every entry that was added once, whatever the threads do. -/
theorem fusionAtomicList_deliversOnce [DecidableEq τ] [DecidableEq β] {links : β → Option β} {s : AtomicList τ β}
    {history : List (ListEvent β)} (reach : ListReach links s history) : DeliversOnce s history := by
  suffices inv : s.Inv history from inv.delivers
  refine reach.invariant AtomicList.Inv ?_ ?_
  · refine ⟨⟨⟨.done, List.nodup_nil⟩, Transition.historical_nil _, [], .nil, rfl⟩, ?_, ?_, ?_⟩
    · intro t entry adding
      cases adding
    · intro t u entry adding
      cases adding
    · intro t entry cur adding
      cases adding
  · intro s last action history events _ inv may run
    exact inv.step may run

theorem ListReach.of_check [DecidableEq τ] [DecidableEq β] (links : β → Option β)
    (test : AtomicList τ β → ListAction τ β → Bool) (sound : ∀ s action, test s action = true → s.MayAdd action)
    (check : AtomicList τ β × List (ListEvent β) → Bool) (actions : List (ListAction τ β))
    (passes : (Transition.run AtomicList.step test (AtomicList.initial links) actions).any check = true) :
    ∃ s history, ListReach links s history ∧ check (s, history) = true :=
  Transition.Reach.of_check sound check passes

/-- Tests `MayAdd` on a list of at most `fuel` entries. -/
def AtomicList.mayAdd [Fintype τ] [DecidableEq β] (fuel : Nat) (s : AtomicList τ β) : ListAction τ β → Bool
  | .add _ entry =>
    (fusionAtomicListForEach s.next fuel s.head).any (fun list => !list.contains entry) &&
      decide (∀ t, (s.pc t).entry ≠ some entry)
  | .step _ | .splice => true

theorem AtomicList.mayAdd_sound [Fintype τ] [DecidableEq β] {fuel : Nat} {s : AtomicList τ β}
    {action : ListAction τ β} (passed : s.mayAdd fuel action = true) : s.MayAdd action := by
  cases action with
  | add t entry =>
    obtain ⟨walked, free⟩ := Bool.and_eq_true_iff.mp passed
    obtain ⟨list, walk, outside⟩ := (Option.any_eq_true _ _).mp walked
    refine ⟨fun other chain => ?_, of_decide_eq_true free⟩
    rw [chain.unique (fusionAtomicListForEach_isChain walk)]
    simpa using outside
  | step t => trivial
  | splice => trivial

/-- One thread has read the head 1 when another splices the list and adds 1 anew.
The exchange of the first succeeds, and its entry leads to the new 1. -/
theorem fusionAtomicList_deliversOnce_recycled : ∃ (s : AtomicList Bool Nat) (history : List (ListEvent Nat)),
    ListReach (fun _ => none) s history ∧ pushes history = [1, 1, 2] ∧
      fusionAtomicListForEach s.next 2 s.head = some [2, 1] ∧ DeliversOnce s history := by
  obtain ⟨s, history, reach, checked⟩ := ListReach.of_check (fun _ => none) (AtomicList.mayAdd 2)
    (fun _ _ => AtomicList.mayAdd_sound)
    (fun last => decide (pushes last.2 = [1, 1, 2] ∧ fusionAtomicListForEach last.1.next 2 last.1.head = some [2, 1]))
    [.add true 1, .step true, .step true, .step true, .add false 2, .step false, .step false, .splice,
      .add true 1, .step true, .step true, .step true, .step false]
    (by decide +kernel)
  have facts := of_decide_eq_true checked
  exact ⟨s, history, reach, facts.1, facts.2, fusionAtomicList_deliversOnce reach⟩

end IomemoryVsl
