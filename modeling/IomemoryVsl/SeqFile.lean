import IomemoryVsl.Transition
import Mathlib.Logic.Function.Basic

namespace IomemoryVsl

/-- What the untyped private pointer of a seq_file can point to. -/
inductive InfoPtr (ν : Type)
  | null
  | node (n : ν)
  | data (handle : Nat)
  deriving DecidableEq, Repr

/-- The fields of a `struct kfio_info_data` that the callbacks use. -/
structure InfoData (ν : Type) where
  node : InfoPtr ν
  maxSize : Nat
  curSize : Nat
  deriving DecidableEq, Repr

inductive SeqCallback
  | start | next | show | stop
  deriving DecidableEq, Repr

inductive SeqEvent (ν : Type)
  /-- A callback starts and finds this private pointer; `live` tells whether it
  points to a handle that is allocated. -/
  | ran (callback : SeqCallback) (priv : InfoPtr ν) (live : Bool)
  | allocated (handle : Nat)
  /-- The operation of the node is called and returns. -/
  | called (callback : SeqCallback) (nodep : InfoPtr ν)
  /-- What is taken for the operation of a node is none. -/
  | crashed (callback : SeqCallback) (nodep : InfoPtr ν)
  | freed (p : InfoPtr ν)
  | committed (num : Int)
  deriving DecidableEq, Repr

/-- The nodes as the callbacks see them. In the union of a node, a sequence file has
`seqf_ops` and a directory `subnode_list`, and every parent is a directory. -/
structure SeqNodes (ν : Type) where
  parent : ν → Option ν
  seqFile : ν → Bool
  parent_directory : ∀ n p, parent n = some p → seqFile p = false

/-- A node that is a sequence file. -/
abbrev SeqNodes.Entry {ν : Type} (nodes : SeqNodes ν) := { n : ν // nodes.seqFile n = true }

/-- The pointer is to a node with `seqf_ops`, as `kfio_info_seq_init` and its siblings
assert. -/
def SeqNodes.hasOps {ν : Type} (nodes : SeqNodes ν) : InfoPtr ν → Bool
  | .node n => nodes.seqFile n
  | .null => false
  | .data _ => false

/-- One open seq_file. `made` counts the handles allocated so far, and `round` is
the cursor while the kernel is between start and stop. -/
structure SeqFile (ν κ : Type) where
  priv : InfoPtr ν
  handles : Nat → Option (InfoData ν)
  made : Nat
  round : Option (Option κ)
  crashed : Bool

inductive SeqAction (κ : Type)
  /-- `malloc` is whether the handle can be allocated, `cookie` what `seq_init` returns. -/
  | start (size : Nat) (malloc : Bool) (cookie : Option κ)
  | next (cookie : Option κ)
  /-- `seq_show` returns `rc` and leaves `curSize` bytes in the buffer. -/
  | show (rc : Int) (curSize : Nat)
  | stop
  deriving DecidableEq, Repr

namespace SeqFile

variable {ν κ : Type}

/-- `kfio_info_seqf_open`. -/
def opened (node : ν) : SeqFile ν κ := ⟨.node node, fun _ => none, 0, none, false⟩

/-- The handle that the private pointer is taken for. -/
def handle (s : SeqFile ν κ) : Option (InfoData ν) :=
  match s.priv with
  | .data h => s.handles h
  | _ => none

/-- `kfio_info_data_node`, which reads the first word. That of a node is its
parent. NULL stands for what is read from no object. -/
def dataNode (nodes : SeqNodes ν) (s : SeqFile ν κ) : InfoPtr ν :=
  match s.priv with
  | .node n => (nodes.parent n).elim .null .node
  | _ => s.handle.elim .null InfoData.node

def ran (s : SeqFile ν κ) (callback : SeqCallback) : SeqEvent ν := .ran callback s.priv s.handle.isSome

/-- The call of an operation in `nodep->uu.seqf_ops`, with what follows when it returns.
Where these words are something else, they are jumped through, and nothing runs behind
the call. -/
def seqOp (nodes : SeqNodes ν) (callback : SeqCallback) (s : SeqFile ν κ) (nodep : InfoPtr ν)
    (returned : SeqFile ν κ × List (SeqEvent ν)) : SeqFile ν κ × List (SeqEvent ν) :=
  if nodes.hasOps nodep then (returned.1, .called callback nodep :: returned.2)
  else ({ s with crashed := true }, [.crashed callback nodep])

def kfioInfoSeqInit (nodes : SeqNodes ν) (s : SeqFile ν κ) := seqOp nodes .start s

def kfioInfoSeqNext (nodes : SeqNodes ν) (s : SeqFile ν κ) := seqOp nodes .next s

def kfioInfoSeqShow (nodes : SeqNodes ν) (s : SeqFile ν κ) := seqOp nodes .show s

def kfioInfoSeqStop (nodes : SeqNodes ν) (s : SeqFile ν κ) := seqOp nodes .stop s

/-- Puts events before those of the rest of a callback. -/
def after (events : List (SeqEvent ν)) (rest : SeqFile ν κ × List (SeqEvent ν)) :
    SeqFile ν κ × List (SeqEvent ν) :=
  (rest.1, events ++ rest.2)

def kfioInfoLinuxSeqStart (nodes : SeqNodes ν) (s : SeqFile ν κ) (size : Nat) (malloc : Bool) (cookie : Option κ) :
    SeqFile ν κ × List (SeqEvent ν) :=
  if malloc then
    let dbh : SeqFile ν κ :=
      { s with
        handles := Function.update s.handles s.made (some ⟨s.priv, size, 0⟩)
        made := s.made + 1
        priv := .data s.made }
    after [s.ran .start, .allocated s.made] (kfioInfoSeqInit nodes dbh s.priv ({ dbh with round := some cookie }, []))
  else
    ({ s with round := some none }, [s.ran .start])

def kfioInfoLinuxSeqNext (nodes : SeqNodes ν) (s : SeqFile ν κ) (cookie : Option κ) :
    SeqFile ν κ × List (SeqEvent ν) :=
  after [s.ran .next] (kfioInfoSeqNext nodes s (s.dataNode nodes) ({ s with round := some cookie }, []))

/-- The handles when that of the private pointer is changed. -/
def onHandle (s : SeqFile ν κ) (change : Option (InfoData ν) → Option (InfoData ν)) : Nat → Option (InfoData ν) :=
  match s.priv with
  | .data h => Function.update s.handles h (change (s.handles h))
  | _ => s.handles

def kfioInfoLinuxSeqShow (nodes : SeqNodes ν) (s : SeqFile ν κ) (rc : Int) (curSize : Nat) :
    SeqFile ν κ × List (SeqEvent ν) :=
  let size := s.handle.elim 0 InfoData.curSize
  let handles := s.onHandle (Option.map fun dbh => { dbh with curSize := curSize })
  after [s.ran .show] (kfioInfoSeqShow nodes s (s.dataNode nodes)
    ({ s with handles := handles }, [.committed (if rc < 0 then rc else curSize - size)]))

def kfioInfoLinuxSeqStop (nodes : SeqNodes ν) (s : SeqFile ν κ) : SeqFile ν κ × List (SeqEvent ν) :=
  let nodep := s.dataNode nodes
  let handles := s.onHandle fun _ => none
  after [s.ran .stop] (kfioInfoSeqStop nodes s nodep
    ({ s with priv := nodep, handles := handles, round := none }, [.freed s.priv]))

/-- The order in which the kernel calls: next and show only with a cursor, and
stop also when start returned none. -/
def drive (nodes : SeqNodes ν) (s : SeqFile ν κ) : SeqAction κ → Option (SeqFile ν κ × List (SeqEvent ν))
  | .start size malloc cookie =>
    if s.round.isNone then some (s.kfioInfoLinuxSeqStart nodes size malloc cookie) else none
  | .next cookie => if (s.round.bind id).isSome then some (s.kfioInfoLinuxSeqNext nodes cookie) else none
  | .show rc curSize => if (s.round.bind id).isSome then some (s.kfioInfoLinuxSeqShow nodes rc curSize) else none
  | .stop => if s.round.isSome then some (s.kfioInfoLinuxSeqStop nodes) else none

def step (nodes : SeqNodes ν) (s : SeqFile ν κ) (action : SeqAction κ) : Option (SeqFile ν κ × List (SeqEvent ν)) :=
  if s.crashed then none else s.drive nodes action

end SeqFile

/-- What is neither a callback nor the end or the beginning of a handle. -/
def SeqEvent.Quiet {ν : Type} : SeqEvent ν → Prop
  | .called .. => True
  | .crashed .. => True
  | .committed _ => True
  | .ran .. => False
  | .allocated _ => False
  | .freed _ => False

/-- The handle can be allocated. -/
def SeqAction.Allocates {κ : Type} : SeqAction κ → Prop
  | .start _ malloc _ => malloc = true
  | _ => True

instance {κ : Type} : (action : SeqAction κ) → Decidable action.Allocates
  | .start _ malloc _ => inferInstanceAs (Decidable (malloc = true))
  | .next _ | .show .. | .stop => inferInstanceAs (Decidable True)

variable {ν κ : Type}

/-- Runs of the callbacks on a seq_file opened for a sequence file. -/
abbrev SeqReach (nodes : SeqNodes ν) (node : nodes.Entry) (allowed : SeqFile ν κ → SeqAction κ → Prop) :
    SeqFile ν κ → List (SeqEvent ν) → Prop :=
  Transition.Reach (SeqFile.step nodes) allowed (SeqFile.opened node.1)

theorem SeqReach.of_check (nodes : SeqNodes ν) (node : nodes.Entry) {allowed : SeqFile ν κ → SeqAction κ → Prop}
    (test : SeqFile ν κ → SeqAction κ → Bool) (sound : ∀ s action, test s action = true → allowed s action)
    (check : SeqFile ν κ × List (SeqEvent ν) → Bool) (actions : List (SeqAction κ))
    (passes : (Transition.run (SeqFile.step nodes) test (SeqFile.opened node.1) actions).any check = true) :
    ∃ s history, SeqReach nodes node allowed s history ∧ check (s, history) = true :=
  Transition.Reach.of_check sound check passes

variable [DecidableEq ν]

/-- The private pointer is never misread: it is the node when start runs and a
live handle when another callback runs, every handle is freed once, at the
latest when its round is over, and no node is. -/
structure PrivateSound (node : ν) (s : SeqFile ν κ) (history : List (SeqEvent ν)) : Prop where
  start : ∀ priv live, .ran .start priv live ∈ history → priv = .node node
  others : ∀ callback priv live, .ran callback priv live ∈ history → callback ≠ .start →
    live = true ∧ ∃ handle, priv = .data handle
  once : ∀ handle, history.count (.allocated handle) ≤ 1 ∧
    history.count (.freed (.data handle)) ≤ history.count (.allocated handle)
  freed : s.round = none → ∀ handle, history.count (.freed (.data handle)) = history.count (.allocated handle)
  kept : ∀ n, .freed (.node n) ∉ history

/-- Between rounds the private pointer is the node, in a round it is the one
handle that is not freed. -/
structure SeqFile.Inv (node : ν) (s : SeqFile ν κ) (history : List (SeqEvent ν)) : Prop where
  sound : PrivateSound node s history
  fresh : ∀ handle, s.made ≤ handle → history.count (.allocated handle) = 0
  idle : s.round = none → s.priv = .node node
  busy : s.round ≠ none → ∃ handle dbh, s.priv = .data handle ∧ s.handles handle = some dbh ∧ dbh.node = .node node ∧
    history.count (.allocated handle) = 1 ∧ history.count (.freed (.data handle)) = 0 ∧
    ∀ other ≠ handle, history.count (.freed (.data other)) = history.count (.allocated other)
  running : s.crashed = false

/-- A start without a handle leaves the node in the private pointer. -/
structure SeqFile.Unstarted (node : ν) (s : SeqFile ν κ) (history : List (SeqEvent ν)) : Prop where
  sound : PrivateSound node s history
  priv : s.priv = .node node
  round : s.round = some none
  running : s.crashed = false

variable {nodes : SeqNodes ν} {node : nodes.Entry} {s t : SeqFile ν κ} {history : List (SeqEvent ν)}

/-- The events of one more call. -/
theorem PrivateSound.append {node : ν} {events : List (SeqEvent ν)} (sound : PrivateSound node s history)
    (start : ∀ priv live, .ran .start priv live ∈ events → priv = .node node)
    (others : ∀ callback priv live, .ran callback priv live ∈ events → callback ≠ .start →
      live = true ∧ ∃ handle, priv = .data handle)
    (once : ∀ handle, (history ++ events).count (.allocated handle) ≤ 1 ∧
      (history ++ events).count (.freed (.data handle)) ≤ (history ++ events).count (.allocated handle))
    (freed : t.round = none → ∀ handle,
      (history ++ events).count (.freed (.data handle)) = (history ++ events).count (.allocated handle))
    (kept : ∀ n, .freed (.node n) ∉ events) : PrivateSound node t (history ++ events) := by
  refine ⟨fun priv live member => ?_, fun callback priv live member => ?_, once, freed, fun n member => ?_⟩
  · rcases List.mem_append.mp member with old | new
    · exact sound.start priv live old
    · exact start priv live new
  · rcases List.mem_append.mp member with old | new
    · exact sound.others callback priv live old
    · exact others callback priv live new
  · rcases List.mem_append.mp member with old | new
    · exact sound.kept n old
    · exact kept n new

namespace SeqFile

section Calls

omit [DecidableEq ν]

theorem dataNode_of_live {handle : Nat} {dbh : InfoData ν} (here : s.priv = .data handle)
    (live : s.handles handle = some dbh) : s.dataNode nodes = dbh.node := by
  simp only [dataNode, SeqFile.handle, here, live, Option.elim_some]

theorem seqOp_of_entry {callback : SeqCallback} {nodep : InfoPtr ν} (entry : nodep = .node node.1)
    (returned : SeqFile ν κ × List (SeqEvent ν)) :
    seqOp nodes callback s nodep returned = (returned.1, .called callback nodep :: returned.2) := by
  rw [entry]
  exact if_pos node.2

theorem kfioInfoLinuxSeqStart_of_idle (idle : s.priv = .node node.1) (size : Nat) (cookie : Option κ) :
    s.kfioInfoLinuxSeqStart nodes size true cookie =
      ({ s with
          handles := Function.update s.handles s.made (some ⟨s.priv, size, 0⟩)
          made := s.made + 1
          priv := .data s.made
          round := some cookie }, [s.ran .start, .allocated s.made, .called .start s.priv]) := by
  rw [kfioInfoLinuxSeqStart, if_pos rfl]
  dsimp only
  rw [kfioInfoSeqInit, seqOp_of_entry idle]
  rfl

theorem kfioInfoLinuxSeqNext_of_live (entry : s.dataNode nodes = .node node.1) (cookie : Option κ) :
    s.kfioInfoLinuxSeqNext nodes cookie =
      ({ s with round := some cookie }, [s.ran .next, .called .next (s.dataNode nodes)]) := by
  rw [kfioInfoLinuxSeqNext, kfioInfoSeqNext, seqOp_of_entry entry]
  rfl

theorem onHandle_of_data {handle : Nat} (here : s.priv = .data handle)
    (change : Option (InfoData ν) → Option (InfoData ν)) :
    s.onHandle change = Function.update s.handles handle (change (s.handles handle)) := by
  rw [onHandle, here]

theorem kfioInfoLinuxSeqShow_of_live (entry : s.dataNode nodes = .node node.1) (rc : Int) (curSize : Nat) :
    s.kfioInfoLinuxSeqShow nodes rc curSize =
      ({ s with handles := s.onHandle (Option.map fun dbh => { dbh with curSize := curSize }) },
        [s.ran .show, .called .show (s.dataNode nodes),
          .committed (if rc < 0 then rc else curSize - s.handle.elim 0 InfoData.curSize)]) := by
  rw [kfioInfoLinuxSeqShow, kfioInfoSeqShow, seqOp_of_entry entry]
  rfl

theorem kfioInfoLinuxSeqStop_of_live {handle : Nat} (here : s.priv = .data handle)
    (entry : s.dataNode nodes = .node node.1) :
    s.kfioInfoLinuxSeqStop nodes =
      ({ s with
          priv := .node node.1
          handles := Function.update s.handles handle none
          round := none }, [s.ran .stop, .called .stop (.node node.1), .freed (.data handle)]) := by
  rw [kfioInfoLinuxSeqStop, kfioInfoSeqStop, seqOp_of_entry entry, entry, here, onHandle_of_data here]
  rfl

end Calls

theorem Inv.opened : (SeqFile.opened node.1 : SeqFile ν κ).Inv node.1 [] := by
  refine ⟨⟨?_, ?_, fun handle => ⟨Nat.zero_le _, Nat.le_refl _⟩, fun _ handle => rfl, ?_⟩, fun _ _ => rfl,
    fun _ => rfl, fun never => absurd rfl never, rfl⟩
  · exact fun priv live member => absurd member List.not_mem_nil
  · exact fun callback priv live member => absurd member List.not_mem_nil
  · exact fun n => List.not_mem_nil

theorem Inv.start (inv : s.Inv node.1 history) (ended : s.round = none) (size : Nat) (cookie : Option κ) :
    (s.kfioInfoLinuxSeqStart nodes size true cookie).1.Inv node.1
      (history ++ (s.kfioInfoLinuxSeqStart nodes size true cookie).2) := by
  have idle := inv.idle ended
  have new := inv.fresh s.made (Nat.le_refl _)
  have even := inv.sound.freed ended
  have allocated (handle : Nat) :
      (history ++ [s.ran .start, .allocated s.made, .called .start s.priv]).count (.allocated handle) =
        history.count (.allocated handle) + if s.made = handle then 1 else 0 := by
    simp [List.count_cons, ran]
  have freed (handle : Nat) :
      (history ++ [s.ran .start, .allocated s.made, .called .start s.priv]).count (.freed (.data handle)) =
        history.count (.freed (.data handle)) := by
    simp [ran]
  rw [kfioInfoLinuxSeqStart_of_idle idle]
  refine ⟨inv.sound.append ?_ ?_ ?_ ?_ ?_, ?_, ?_, ?_, inv.running⟩
  · intro priv live member
    simp only [ran, List.mem_cons, List.not_mem_nil, or_false, reduceCtorEq, SeqEvent.ran.injEq] at member
    rw [member.2.1]
    exact idle
  · intro callback priv live member other
    simp only [ran, List.mem_cons, List.not_mem_nil, or_false, reduceCtorEq, SeqEvent.ran.injEq] at member
    exact absurd member.1 other
  · intro handle
    rw [allocated, freed]
    have before := inv.sound.once handle
    have same := even handle
    split
    · rename_i here
      rw [← here] at same ⊢
      omega
    · omega
  · intro never
    cases never
  · intro n member
    simp [ran] at member
  · intro handle above
    dsimp only at above ⊢
    rw [allocated, inv.fresh handle (by omega), if_neg (by omega)]
  · intro never
    cases never
  · intro _
    refine ⟨s.made, ⟨s.priv, size, 0⟩, rfl, Function.update_self .., idle, ?_, ?_, ?_⟩
    · rw [allocated, new, if_pos rfl]
    · rw [freed, even, new]
    · intro other different
      rw [freed, allocated, even, if_neg different.symm, Nat.add_zero]

omit [DecidableEq ν] in
theorem mem_quiet {callback : SeqCallback} {more : List (SeqEvent ν)} {event : SeqEvent ν}
    (plain : ∀ event ∈ more, event.Quiet) (member : event ∈ s.ran callback :: more) :
    event = s.ran callback ∨ event.Quiet := by
  rcases List.mem_cons.mp member with first | later
  · exact .inl first
  · exact .inr (plain event later)

theorem count_quiet {callback : SeqCallback} {more : List (SeqEvent ν)} {event : SeqEvent ν}
    (plain : ∀ event ∈ more, event.Quiet) (noRun : event ≠ s.ran callback) (loud : ¬event.Quiet) :
    (history ++ s.ran callback :: more).count event = history.count event := by
  have absent : event ∉ s.ran callback :: more := by
    intro member
    rcases mem_quiet plain member with first | quiet
    · exact noRun first
    · exact loud quiet
  rw [List.count_append, List.count_eq_zero_of_not_mem absent, Nat.add_zero]

/-- A callback in a round that keeps the private pointer and its handle. -/
theorem Inv.quiet {callback : SeqCallback} {more : List (SeqEvent ν)} (inv : s.Inv node.1 history)
    (busy : s.round ≠ none) (round : t.round ≠ none) (priv : t.priv = s.priv) (made : t.made = s.made)
    (running : t.crashed = s.crashed)
    (handles : ∀ handle dbh, s.handles handle = some dbh → ∃ kept, t.handles handle = some kept ∧ kept.node = dbh.node)
    (other : callback ≠ .start) (plain : ∀ event ∈ more, event.Quiet) :
    t.Inv node.1 (history ++ s.ran callback :: more) := by
  obtain ⟨handle, dbh, here, live, name, allocated, freed, rest⟩ := inv.busy busy
  have allocations (h : Nat) : (history ++ s.ran callback :: more).count (.allocated h) =
      history.count (.allocated h) := count_quiet plain (by simp [ran]) id
  have frees (h : Nat) : (history ++ s.ran callback :: more).count (.freed (.data h)) =
      history.count (.freed (.data h)) := count_quiet plain (by simp [ran]) id
  refine ⟨inv.sound.append ?_ ?_ ?_ ?_ ?_, ?_, ?_, ?_, running.trans inv.running⟩
  · intro p l member
    rcases mem_quiet plain member with first | quiet
    · cases first
      exact absurd rfl other
    · exact absurd quiet id
  · intro cb p l member _
    rcases mem_quiet plain member with first | quiet
    · cases first
      simp only [SeqFile.handle, here, live, Option.isSome_some, true_and]
      exact ⟨handle, rfl⟩
    · exact absurd quiet id
  · intro h
    rw [allocations, frees]
    exact inv.sound.once h
  · intro ended
    exact absurd ended round
  · intro n member
    rcases mem_quiet plain member with first | quiet
    · cases first
    · exact absurd quiet id
  · intro h above
    rw [allocations]
    exact inv.fresh h (by omega)
  · intro ended
    exact absurd ended round
  · intro _
    obtain ⟨kept, still, same⟩ := handles handle dbh live
    refine ⟨handle, kept, priv.trans here, still, same.trans name, ?_, ?_, ?_⟩
    · rw [allocations, allocated]
    · rw [frees, freed]
    · intro h different
      rw [allocations, frees, rest h different]

/-- In a round, the handle is that of the node. -/
theorem Inv.dataNode (inv : s.Inv node.1 history) (busy : s.round ≠ none) : s.dataNode nodes = .node node.1 := by
  obtain ⟨handle, dbh, here, live, name, _⟩ := inv.busy busy
  exact (dataNode_of_live here live).trans name

theorem Inv.stop (inv : s.Inv node.1 history) (busy : s.round ≠ none) :
    (s.kfioInfoLinuxSeqStop nodes).1.Inv node.1 (history ++ (s.kfioInfoLinuxSeqStop nodes).2) := by
  obtain ⟨handle, dbh, here, live, name, allocated, freed, rest⟩ := inv.busy busy
  have found : s.ran .stop = .ran .stop (.data handle) true := by
    simp only [ran, here, SeqFile.handle, live, Option.isSome_some]
  rw [kfioInfoLinuxSeqStop_of_live here (inv.dataNode busy), found]
  generalize same : [SeqEvent.ran .stop (.data handle) true, .called .stop (.node node.1), .freed (.data handle)] = events
  have allocations (h : Nat) : (history ++ events).count (.allocated h) = history.count (.allocated h) := by
    simp [← same]
  have frees (h : Nat) : (history ++ events).count (.freed (.data h)) = history.count (.allocated h) := by
    by_cases own : h = handle
    · rw [own, List.count_append, freed, ← same, allocated]
      simp
    · rw [List.count_append, rest h own, ← same]
      simp [Ne.symm own]
  refine ⟨inv.sound.append ?_ ?_ ?_ ?_ ?_, ?_, fun _ => rfl, fun never => absurd rfl never, inv.running⟩
  · intro p l member
    simp [← same] at member
  · intro callback p l member _
    simp only [← same, List.mem_cons, List.not_mem_nil, or_false, reduceCtorEq, SeqEvent.ran.injEq] at member
    exact ⟨member.2.2, handle, member.2.1⟩
  · intro h
    rw [allocations, frees]
    exact ⟨(inv.sound.once h).1, Nat.le_refl _⟩
  · intro _ h
    rw [allocations, frees]
  · intro n member
    simp [← same] at member
  · intro h above
    rw [allocations]
    exact inv.fresh h above

theorem Inv.step {action : SeqAction κ} {events : List (SeqEvent ν)} (inv : s.Inv node.1 history)
    (allocates : action.Allocates) (run : s.step nodes action = some (t, events)) :
    t.Inv node.1 (history ++ events) := by
  have busy (cursor : (s.round.bind id).isSome = true) : s.round ≠ none := by
    intro ended
    rw [ended] at cursor
    cases cursor
  rw [SeqFile.step, if_neg (Bool.eq_false_iff.mp inv.running)] at run
  cases action with
  | start size malloc cookie =>
    cases allocates
    simp only [drive] at run
    split at run
    · rename_i ended
      cases run
      exact inv.start (Option.isNone_iff_eq_none.mp ended) size cookie
    · cases run
  | next cookie =>
    simp only [drive] at run
    split at run
    · rename_i cursor
      rw [kfioInfoLinuxSeqNext_of_live (inv.dataNode (busy cursor))] at run
      cases run
      refine inv.quiet (busy cursor) (Option.some_ne_none _) rfl rfl rfl ?_ ?_ ?_
      · exact fun handle dbh live => ⟨dbh, live, rfl⟩
      · exact SeqCallback.noConfusion
      · exact List.forall_mem_singleton.mpr trivial
    · cases run
  | «show» rc curSize =>
    simp only [drive] at run
    split at run
    · rename_i cursor
      rw [kfioInfoLinuxSeqShow_of_live (inv.dataNode (busy cursor))] at run
      cases run
      obtain ⟨own, _, here, _⟩ := inv.busy (busy cursor)
      refine inv.quiet (busy cursor) (busy cursor) rfl rfl rfl ?_ ?_ ?_
      · intro handle dbh live
        dsimp only
        rw [onHandle_of_data here]
        by_cases same : handle = own
        · rw [← same, Function.update_self, live]
          exact ⟨_, rfl, rfl⟩
        · rw [Function.update_of_ne same]
          exact ⟨dbh, live, rfl⟩
      · exact SeqCallback.noConfusion
      · exact List.forall_mem_cons.mpr ⟨trivial, List.forall_mem_singleton.mpr trivial⟩
    · cases run
  | stop =>
    simp only [drive] at run
    split at run
    · rename_i round
      cases run
      exact inv.stop (Option.isSome_iff_ne_none.mp round)
    · cases run

theorem Inv.unstarted (inv : s.Inv node.1 history) (ended : s.round = none) (size : Nat) (cookie : Option κ) :
    (s.kfioInfoLinuxSeqStart nodes size false cookie).1.Unstarted node.1
      (history ++ (s.kfioInfoLinuxSeqStart nodes size false cookie).2) := by
  have idle := inv.idle ended
  have same (event : SeqEvent ν) (other : s.ran .start ≠ event) :
      (history ++ [s.ran .start]).count event = history.count event := by
    rw [List.count_append, List.count_singleton, beq_eq_false_iff_ne.mpr other]
    rfl
  refine ⟨inv.sound.append ?_ ?_ ?_ ?_ ?_, idle, rfl, inv.running⟩
  · intro priv live member
    cases List.mem_singleton.mp member
    exact idle
  · intro callback priv live member other
    cases List.mem_singleton.mp member
    exact absurd rfl other
  · intro handle
    rw [kfioInfoLinuxSeqStart, if_neg Bool.false_ne_true, same _ (by simp [ran]), same _ (by simp [ran])]
    exact inv.sound.once handle
  · intro never
    cases never
  · intro n member
    cases List.mem_singleton.mp member

theorem Inv.step_unstarted {action : SeqAction κ} {events : List (SeqEvent ν)} (inv : s.Inv node.1 history)
    (fails : ¬action.Allocates) (run : s.step nodes action = some (t, events)) :
    t.Unstarted node.1 (history ++ events) := by
  rw [SeqFile.step, if_neg (Bool.eq_false_iff.mp inv.running)] at run
  cases action with
  | next | «show» | stop => exact absurd trivial fails
  | start size malloc cookie =>
    cases Bool.eq_false_iff.mpr fails
    simp only [drive] at run
    split at run
    · rename_i ended
      cases run
      exact inv.unstarted (Option.isNone_iff_eq_none.mp ended) size cookie
    · cases run

/-- Without a handle the kernel only calls stop, which crashes. -/
theorem Unstarted.step {action : SeqAction κ} {events : List (SeqEvent ν)} (unstarted : s.Unstarted node.1 history)
    (run : s.step nodes action = some (t, events)) : t.crashed = true ∧ ¬PrivateSound node.1 t (history ++ events) := by
  have directory : nodes.hasOps (s.dataNode nodes) = false := by
    rw [dataNode, unstarted.priv]
    dsimp only
    cases above : nodes.parent node.1 with
    | none => rfl
    | some p => exact nodes.parent_directory _ _ above
  have found : s.ran .stop = .ran .stop (.node node.1) false := by
    rw [ran, SeqFile.handle, unstarted.priv]
    rfl
  rw [SeqFile.step, if_neg (Bool.eq_false_iff.mp unstarted.running)] at run
  cases action with
  | start | next | «show» =>
    simp [drive, unstarted.round] at run
  | stop =>
    rw [drive, unstarted.round, Option.isSome_some, if_pos rfl, kfioInfoLinuxSeqStop, kfioInfoSeqStop, seqOp,
      if_neg (Bool.eq_false_iff.mp directory), found] at run
    cases run
    refine ⟨rfl, fun sound => ?_⟩
    have live := (sound.others .stop _ _ (List.mem_append_right _ List.mem_cons_self) SeqCallback.noConfusion).1
    cases live

end SeqFile

theorem SeqReach.inv (reach : SeqReach nodes node (fun _ action => action.Allocates) s history) :
    s.Inv node.1 history := by
  refine reach.invariant (SeqFile.Inv node.1) .opened ?_
  intro s t action history events _ inv allocates run
  exact inv.step allocates run

/-- As long as every handle can be allocated, the private pointer is never misread. -/
theorem kfioInfoLinuxSeq_privateSound
    (reach : SeqReach nodes node (fun _ action => action.Allocates) s history) : PrivateSound node.1 s history :=
  reach.inv.sound

/-- Then no callback runs into anything else than the operations of the node. -/
theorem kfioInfoLinuxSeq_running
    (reach : SeqReach nodes node (fun _ action => action.Allocates) s history) : s.crashed = false :=
  reach.inv.running

/-- Whatever is allocated, the private pointer is misread exactly when the machine has crashed. -/
theorem kfioInfoLinuxSeq_sound_iff (reach : SeqReach nodes node (fun _ _ => True) s history) :
    PrivateSound node.1 s history ↔ s.crashed = false := by
  suffices outcome : s.Inv node.1 history ∨ s.Unstarted node.1 history ∨
      s.crashed = true ∧ ¬PrivateSound node.1 s history by
    rcases outcome with inv | unstarted | ⟨crashed, unsound⟩
    · exact iff_of_true inv.sound inv.running
    · exact iff_of_true unstarted.sound unstarted.running
    · exact iff_of_false unsound (by simp [crashed])
  refine reach.invariant (fun s history => s.Inv node.1 history ∨ s.Unstarted node.1 history ∨
    s.crashed = true ∧ ¬PrivateSound node.1 s history) (.inl .opened) ?_
  intro s t action history events _ outcome _ run
  rcases outcome with inv | unstarted | ⟨crashed, _⟩
  · by_cases allocates : action.Allocates
    · exact .inl (inv.step allocates run)
    · exact .inr (.inl (inv.step_unstarted allocates run))
  · exact .inr (.inr (unstarted.step run))
  · rw [SeqFile.step, if_pos crashed] at run
    cases run

/-- The root directory 0, and everything else a sequence file in it. -/
def flatNodes : SeqNodes Nat where
  parent n := if n = 0 then none else some 0
  seqFile n := n != 0
  parent_directory n p above := by
    split at above
    · cases above
    · cases above
      rfl

theorem kfioInfoLinuxSeq_privateSound_rounds : ∃ (s : SeqFile Nat Nat) (history : List (SeqEvent Nat)),
    SeqReach flatNodes ⟨5, rfl⟩ (fun _ action => action.Allocates) s history ∧ s.round = none ∧
      history.count (.freed (.data 0)) = 1 ∧ history.count (.freed (.data 1)) = 1 ∧ PrivateSound 5 s history := by
  obtain ⟨s, history, reach, checked⟩ := SeqReach.of_check flatNodes ⟨5, rfl⟩
    (fun (_ : SeqFile Nat Nat) action => decide action.Allocates) (fun _ _ => of_decide_eq_true)
    (fun last => decide (last.1.round = none ∧ last.2.count (.freed (.data 0)) = 1 ∧
      last.2.count (.freed (.data 1)) = 1))
    [.start 4096 true (some 7), .show 0 12, .next (some 8), .show (-14) 12, .stop, .start 4096 true none, .stop]
    (by decide +kernel)
  have facts := of_decide_eq_true checked
  exact ⟨s, history, reach, facts.1, facts.2.1, facts.2.2, kfioInfoLinuxSeq_privateSound reach⟩

/-- When the handle cannot be allocated, stop finds the node where a handle should be. It
takes the directory that the node is in for a sequence file and crashes in its list. -/
theorem kfioInfoLinuxSeq_stop_misread : ∃ (s : SeqFile Nat Nat) (history : List (SeqEvent Nat)),
    SeqReach flatNodes ⟨5, rfl⟩ (fun _ _ => True) s history ∧
      history = [.ran .start (.node 5) false, .ran .stop (.node 5) false, .crashed .stop (.node 0)] ∧
      ¬PrivateSound 5 s history := by
  obtain ⟨s, history, reach, checked⟩ := SeqReach.of_check flatNodes ⟨5, rfl⟩
    (fun (_ : SeqFile Nat Nat) _ => true) (fun _ _ _ => trivial)
    (fun last => decide (last.2 = [.ran .start (.node 5) false, .ran .stop (.node 5) false, .crashed .stop (.node 0)]))
    [.start 4096 false none, .stop]
    (by decide +kernel)
  have events : history = _ := of_decide_eq_true checked
  refine ⟨s, history, reach, events, fun sound => ?_⟩
  have stopped : .ran .stop (.node 5) false ∈ history := by
    rw [events]
    simp
  have live := (sound.others _ _ _ stopped SeqCallback.noConfusion).1
  cases live

end IomemoryVsl
