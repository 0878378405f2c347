import IomemoryVsl.KcondvarRefines
import IomemoryVsl.StateVar

namespace IomemoryVsl

open Monitor

/-- What a call does to the state that it finds: the states that it hands to
`__fio_set_state_locked`, one after another, the old state if it tells it, and its result. -/
def StateOp.plan (wide : BitVec 32 → BitVec 32) (state : BitVec 32) :
    StateOp → List (BitVec 32) × Option (BitVec 32) × Option Int
  | .setState newState => ([newState], some state, none)
  | .transitionState newState old =>
    if old.length = 0 then if state = newState then ([], none, some 0) else ([newState], none, some 1)
    else if old.contains state then ([newState], none, some 1) else ([], none, some 0)
  | .transitionStateVa newState old =>
    if old.length = 0 then if state = newState then ([], some state, some 0) else ([newState], some state, some 1)
    else if old.contains state then ([newState], some state, some 1) else ([], some state, some 0)
  | .stateTransition arcs arcAction =>
    let (writes, arcNum) : List (BitVec 32) × Int :=
      match findArc (stateM1 wide state) arcs with
      | some arc => (if arc.stateTo ≠ fioStateSame then [arc.stateTo.signExtend 32] else [], arc.arcNum.toInt)
      | none => ([], stateArcNotfound.toInt)
    match arcAction with
    | some action => (writes ++ (action arcNum).1, none, some (action arcNum).2)
    | none => (writes, none, some arcNum)
  | .stateUp => ([state + 1#32], none, none)
  | .stateDown => ([state - 1#32], none, none)

section Plan

variable {τ : Type}

theorem fioSetStateLocked_state (s : StateVar τ) (newState : BitVec 32) :
    (s.fioSetStateLocked newState).state = newState := by
  unfold StateVar.fioSetStateLocked
  split
  · rfl
  · rename_i same
    exact not_not.mp same

theorem foldl_fioSetStateLocked_state (s : StateVar τ) (writes : List (BitVec 32)) :
    (writes.foldl StateVar.fioSetStateLocked s).state = writes.getLastD s.state := by
  induction writes generalizing s with
  | nil => rfl
  | cons state rest ih => rw [List.foldl_cons, ih, fioSetStateLocked_state, List.getLastD_cons]

theorem getLastD_append {α : Type*} (a b : List α) (x : α) : (a ++ b).getLastD x = b.getLastD (a.getLastD x) := by
  induction a generalizing x with
  | nil => rfl
  | cons y rest ih => rw [List.cons_append, List.getLastD_cons, ih, List.getLastD_cons]

/-- The plan of a call leaves the state as its body does, with the same answers. -/
theorem StateOp.plan_body (wide : BitVec 32 → BitVec 32) (s : StateVar τ) (t : τ) (op : StateOp) :
    (s.body wide t op).1.state = (op.plan wide s.state).1.getLastD s.state ∧
      (s.body wide t op).2 = ⟨t, (op.plan wide s.state).2.1, (op.plan wide s.state).2.2⟩ := by
  cases op with
  | setState newState => exact ⟨fioSetStateLocked_state s newState, rfl⟩
  | stateUp | stateDown => exact ⟨fioSetStateLocked_state s _, rfl⟩
  | transitionState newState old | transitionStateVa newState old =>
    simp only [StateVar.body, StateVar.fioTransitionStateVa, StateOp.plan]
    split
    · split
      · exact ⟨rfl, rfl⟩
      · exact ⟨fioSetStateLocked_state s newState, rfl⟩
    · split
      · exact ⟨fioSetStateLocked_state s newState, rfl⟩
      · exact ⟨rfl, rfl⟩
  | stateTransition arcs arcAction =>
    simp only [StateVar.body, StateVar.fioStateTransition, StateOp.plan]
    cases findArc (stateM1 wide s.state) arcs with
    | none =>
      cases arcAction with
      | none => exact ⟨rfl, rfl⟩
      | some action => exact ⟨foldl_fioSetStateLocked_state s _, rfl⟩
    | some arc =>
      have moved : (if arc.stateTo ≠ fioStateSame then s.fioSetStateLocked
        (arc.stateTo.signExtend 32) else s).state =
          (if arc.stateTo ≠ fioStateSame then [arc.stateTo.signExtend 32] else []).getLastD s.state := by
        split
        · exact fioSetStateLocked_state s _
        · rfl
      cases arcAction with
      | none => exact ⟨moved, rfl⟩
      | some action =>
        refine ⟨?_, rfl⟩
        rw [foldl_fioSetStateLocked_state, moved, getLastD_append]

end Plan

/-- A call on a state variable. A wait for one state is a wait for a list of one. -/
inductive FioCall
  | write (op : StateOp)
  | waitOn (states : List (BitVec 32))

/-- Where a thread is in `state.c`. -/
inductive FioPc
  | idle
  | begin (call : FioCall)
  | planning (op : StateOp)
  /-- The states that are still to be set. -/
  | setting (writes : List (BitVec 32))
  | announcing (writes : List (BitVec 32))
  | checking (states : List (BitVec 32))
  | waiting (states : List (BitVec 32))
  /-- The wait is over; the caller still has to call `fio_unlock_state`. -/
  | returned (states : List (BitVec 32))

/-- What the callers are told. -/
inductive FioMark
  | called (op : StateOp) (old : Option (BitVec 32)) (rc : Option Int)
  | found (states : List (BitVec 32))

namespace FioPc

def locked : FioPc → Bool
  | idle | begin _ => false
  | _ => true

def start : FioCall → FioPc
  | .write op => planning op
  | .waitOn states => checking states

def Entry (_ : FioPc) : FioPc → Prop
  | begin _ => True
  | _ => False

instance (p : FioPc) : DecidablePred p.Entry
  | begin _ => .isTrue trivial
  | idle | planning _ | setting _ | announcing _ | checking _ | waiting _ | returned _ => .isFalse id

/-- The states that a thread is about to set under the lock. -/
def writes : FioPc → Option (List (BitVec 32))
  | setting writes | announcing writes => some writes
  | _ => none

def announces : FioPc → Bool
  | announcing _ => true
  | _ => false

/-- A waiter has reason to go on. -/
def Ready (state : BitVec 32) : FioPc → Prop
  | waiting states => state ∈ states
  | _ => False

end FioPc

/-- The functions of `state.c` and `state.h` that take the lock of a state variable. -/
def fioProgram (wide : BitVec 32 → BitVec 32) : FioPc → Op (BitVec 32) FioMark FioPc
  | .idle => .stop
  | .begin call => .lock (.start call)
  | .planning op => .act fun state =>
    let (writes, old, rc) := op.plan wide state
    some (state, [.called op old rc], .setting writes)
  | .setting [] => .unlock .idle
  | .setting (newState :: rest) => .act fun state =>
    if state ≠ newState then some (newState, [], .announcing rest) else some (state, [], .setting rest)
  | .announcing rest => .broadcast (.setting rest)
  | .checking states => .act fun state =>
    if states.contains state then some (state, [.found states], .returned states)
    else some (state, [], .waiting states)
  | .waiting states => .wait fusionCondvarWait fun _ => .checking states
  | .returned _ => .unlock .idle

/-- The runs of any threads on one state variable over `kcondvar.c`. -/
abbrev FioRun {τ : Type} [DecidableEq τ] (wide : BitVec 32 → BitVec 32) (state : BitVec 32) :
    Condvar τ (BitVec 32) FioPc → List (τ × FioMark) → Prop :=
  CondvarReach (fioProgram wide) FioPc.Entry state .idle

/-- A state variable by itself: one call after another, each with the answers it got. -/
def FioMark.apply (wide : BitVec 32 → BitVec 32) (state : BitVec 32) : FioMark → Option (BitVec 32)
  | .called op old rc =>
    if (op.plan wide state).2 = (old, rc) then some ((op.plan wide state).1.getLastD state) else none
  | .found states => if state ∈ states then some state else none

def applyMarks (wide : BitVec 32 → BitVec 32) (state : BitVec 32) (marks : List FioMark) : Option (BitVec 32) :=
  marks.foldlM (FioMark.apply wide) state

section Discipline

variable {τ : Type} [DecidableEq τ] {wide : BitVec 32 → BitVec 32}

omit [DecidableEq τ] in
theorem setting_not_wait (writes : List (BitVec 32)) : ¬(fioProgram wide (.setting writes)).IsWait := by
  cases writes with
  | nil | cons => exact id

omit [DecidableEq τ] in
/-- No step of a call is ever blocked but by the lock. -/
theorem fioProgram_live {p : FioPc} {effect : BitVec 32 → Option (BitVec 32 × List FioMark × FioPc)}
    (op : fioProgram wide p = .act effect) (state : BitVec 32) : (effect state).isSome := by
  cases p with
  | planning call =>
    cases op
    rfl
  | setting writes =>
    cases writes with
    | nil => cases op
    | cons newState rest =>
      cases op
      simp only
      split <;> rfl
  | checking states =>
    cases op
    simp only
    split <;> rfl
  | _ => cases op

/-- The functions of `state.c` keep the discipline of the lock: whoever sets a new
state owes a broadcast to all waiters. -/
theorem fioDiscipline : Discipline (fioProgram wide) FioPc.Entry (fun p => p.locked = true)
    (fun p _ => p.announces = true)
    FioPc.Ready (fun _ (_ : τ → FioPc) => True) where
  entry {_ q} entry := by
    cases q with
    | begin call => exact ⟨Bool.false_ne_true, id⟩
    | _ => exact entry.elim
  stop {p} op := by
    cases p with
    | idle => exact ⟨Bool.false_ne_true, fun _ => Bool.false_ne_true⟩
    | setting writes => cases writes <;> cases op
    | _ => cases op
  goes _ _ := trivial
  act {state pc t effect state' events next} _ op ran := by
    refine ⟨trivial, ?_⟩
    cases here : pc t with
    | planning call =>
      rw [here] at op
      cases op
      cases ran
      refine ⟨Iff.rfl, fun u _ _ ready either => ?_, fun waits => absurd waits (setting_not_wait _)⟩
      rcases either with owing | late
      · cases owing
      · exact absurd ready late
    | setting writes =>
      rw [here] at op
      cases writes with
      | nil => cases op
      | cons newState rest =>
        cases op
        simp only at ran
        split at ran
        · cases ran
          exact ⟨Iff.rfl, fun _ _ _ _ _ => rfl, False.elim⟩
        · cases ran
          refine ⟨Iff.rfl, fun u _ _ ready either => ?_, ?_⟩
          · rcases either with owing | late
            · cases owing
            · exact absurd ready late
          · exact fun waits => absurd waits (setting_not_wait _)
    | checking states =>
      rw [here] at op
      cases op
      simp only at ran
      split at ran
      · cases ran
        refine ⟨Iff.rfl, fun u _ _ ready either => ?_, False.elim⟩
        rcases either with owing | late
        · cases owing
        · exact absurd ready late
      · rename_i missing
        cases ran
        refine ⟨Iff.rfl, fun u _ _ ready either => ?_, fun _ member => missing (List.contains_iff_mem.mpr member)⟩
        rcases either with owing | late
        · cases owing
        · exact absurd ready late
    | _ =>
      rw [here] at op
      cases op
  live _ op _ := fioProgram_live op _
  lock {p next} op := by
    cases p with
    | begin call =>
      cases op
      cases call with
      | write | waitOn => exact ⟨Bool.false_ne_true, rfl, fun _ => id, id⟩
    | setting writes => cases writes <;> cases op
    | _ => cases op
  unlock {p next} op := by
    cases p with
    | setting writes =>
      cases writes with
      | nil =>
        cases op
        exact ⟨rfl, Bool.false_ne_true, fun _ => id, id⟩
      | cons => cases op
    | returned states =>
      cases op
      exact ⟨rfl, Bool.false_ne_true, fun _ => id, id⟩
    | _ => cases op
  wait {p kind next} op := by
    cases p with
    | waiting states =>
      cases op
      exact ⟨rfl, fun _ => Bool.false_ne_true, fun _ => ⟨rfl, id⟩⟩
    | setting writes => cases writes <;> cases op
    | _ => cases op
  signal {p next} op := by
    cases p with
    | setting writes => cases writes <;> cases op
    | _ => cases op
  broadcast {p next} op := by
    cases p with
    | announcing rest =>
      cases op
      exact ⟨rfl, rfl, setting_not_wait rest⟩
    | setting writes => cases writes <;> cases op
    | _ => cases op

end Discipline

section Linear

variable {τ : Type} [DecidableEq τ] {wide : BitVec 32 → BitVec 32} {initial state : BitVec 32} {pc : τ → FioPc}
  {history : List (τ × FioMark)} {t : τ} {next : FioPc}

/-- The calls so far are calls on a state variable by itself. It is ahead of the
shared one by what the thread with the lock is about to set. -/
def Linear (wide : BitVec 32 → BitVec 32) (initial state : BitVec 32) (pc : τ → FioPc)
    (history : List (τ × FioMark)) : Prop :=
  ∃ last, applyMarks wide initial (history.map Prod.snd) = some last ∧
    ((∀ t, (pc t).writes = none) → state = last) ∧ ∀ t writes, (pc t).writes = some writes →
      writes.getLastD state = last

theorem applyMarks_snoc {marks : List FioMark} {mark : FioMark} {last : BitVec 32}
    (before : applyMarks wide initial marks = some last) :
    applyMarks wide initial (marks ++ [mark]) = mark.apply wide last := by
  rw [applyMarks] at before ⊢
  rw [List.foldlM_append, before]
  exact Option.bind_fun_some _

/-- Two points with the same states to be set. -/
theorem Linear.same (linear : Linear wide initial state pc history) (writes : next.writes = (pc t).writes) :
    Linear wide initial state (Function.update pc t next) history := by
  have all (u : τ) : (Function.update pc t next u).writes = (pc u).writes := by
    by_cases here : u = t
    · rw [here, Function.update_self, writes]
    · rw [Function.update_of_ne here]
  obtain ⟨last, applied, settled, ahead⟩ := linear
  refine ⟨last, applied, fun calm => settled fun u => (all u).symm.trans (calm u), fun u writes pending => ?_⟩
  exact ahead u writes ((all u).symm.trans pending)

/-- A thread that has set everything leaves the state as it is. -/
theorem Linear.done (linear : Linear wide initial state pc history) (here : (pc t).writes = some [])
    (out : next.writes = none) : Linear wide initial state (Function.update pc t next) history := by
  obtain ⟨last, applied, _, ahead⟩ := linear
  refine ⟨last, applied, fun _ => ahead t [] here, fun u writes pending => ?_⟩
  by_cases same : u = t
  · rw [same, Function.update_self, out] at pending
    cases pending
  · rw [Function.update_of_ne same] at pending
    exact ahead u writes pending

theorem Linear.goes (linear : Linear wide initial state pc history)
    (goes : (fioProgram wide (pc t)).Goes (pc t).Entry next) :
    Linear wide initial state (Function.update pc t next) history := by
  cases here : pc t with
  | idle =>
    rw [here] at goes
    cases next with
    | begin call => exact linear.same (by rw [here]; rfl)
    | _ => exact goes.elim
  | begin call =>
    rw [here] at goes
    cases goes
    refine linear.same ?_
    rw [here]
    cases call <;> rfl
  | setting writes =>
    rw [here] at goes
    cases writes with
    | nil =>
      cases goes
      exact linear.done (by rw [here]; rfl) rfl
    | cons => exact goes.elim
  | announcing rest | returned states =>
    rw [here] at goes
    cases goes
    exact linear.same (by rw [here]; rfl)
  | waiting states =>
    rw [here] at goes
    obtain ⟨_, rfl⟩ := goes
    exact linear.same (by rw [here]; rfl)
  | planning | checking =>
    rw [here] at goes
    exact goes.elim

omit [DecidableEq τ] in
/-- Only the thread with the lock has states to set. -/
theorem writes_of_alone (alone : Alone (fioProgram wide) (fun p => p.locked = true) pc)
    (locked : (pc t).locked = true)
    (working : ¬(fioProgram wide (pc t)).IsWait) {u : τ} (other : u ≠ t) : (pc u).writes = none := by
  have outside (busy : (pc u).locked = true) (acts : ¬(fioProgram wide (pc u)).IsWait) : False :=
    other (alone u t busy acts locked working)
  cases here : pc u with
  | setting writes =>
    rw [here] at outside
    exact (outside rfl (setting_not_wait _)).elim
  | announcing writes =>
    rw [here] at outside
    exact (outside rfl id).elim
  | _ => rfl

theorem Linear.act {effect : BitVec 32 → Option (BitVec 32 × List FioMark × FioPc)} {state' : BitVec 32}
    {events : List FioMark} (alone : Alone (fioProgram wide) (fun p => p.locked = true) pc)
    (linear : Linear wide initial state pc history) (op : fioProgram wide (pc t) = .act effect)
    (ran : effect state = some (state', events, next)) :
    Linear wide initial state' (Function.update pc t next) (history ++ events.map fun event => (t, event)) := by
  have others (locked : (pc t).locked = true) {u : τ} (other : u ≠ t) : (pc u).writes = none :=
    writes_of_alone alone locked (by rw [op]; exact id) other
  obtain ⟨last, applied, settled, ahead⟩ := linear
  cases here : pc t with
  | planning call =>
    rw [here] at op others
    cases op
    cases ran
    have same : state = last := settled fun u => by
      by_cases mine : u = t
      · rw [mine, here]
        rfl
      · exact others rfl mine
    subst same
    refine ⟨(call.plan wide state).1.getLastD state, ?_, fun calm => ?_, fun u writes pending => ?_⟩
    · rw [List.map_append, List.map_singleton, List.map_singleton, applyMarks_snoc applied]
      exact if_pos rfl
    · have never := calm t
      rw [Function.update_self] at never
      cases never
    · by_cases mine : u = t
      · rw [mine, Function.update_self] at pending
        cases pending
        rfl
      · rw [Function.update_of_ne mine, others rfl mine] at pending
        cases pending
  | setting writes =>
    rw [here] at op others
    cases writes with
    | nil => cases op
    | cons newState rest =>
      cases op
      have promised := ahead t (newState :: rest) (by rw [here]; rfl)
      rw [List.getLastD_cons] at promised
      simp only at ran
      have onward (p : FioPc) (writes : p.writes = some rest) (set : rest.getLastD state' = last) :
          Linear wide initial state' (Function.update pc t p) history := by
        refine ⟨last, applied, fun calm => ?_, fun u left pending => ?_⟩
        · have never := calm t
          rw [Function.update_self, writes] at never
          cases never
        · by_cases mine : u = t
          · rw [mine, Function.update_self, writes] at pending
            cases pending
            exact set
          · rw [Function.update_of_ne mine, others rfl mine] at pending
            cases pending
      split at ran
      · cases ran
        rw [List.map_nil, List.append_nil]
        exact onward _ rfl promised
      · rename_i same
        cases ran
        rw [List.map_nil, List.append_nil]
        rw [← not_not.mp same] at promised
        exact onward _ rfl promised
  | checking states =>
    rw [here] at op others
    cases op
    have same : state = last := settled fun u => by
      by_cases mine : u = t
      · rw [mine, here]
        rfl
      · exact others rfl mine
    subst same
    simp only at ran
    have still (p : FioPc) (none : p.writes = none) : Linear wide initial state (Function.update pc t p) history :=
      Linear.same ⟨state, applied, settled, ahead⟩ (by rw [here]; exact none)
    split at ran
    · rename_i member
      cases ran
      obtain ⟨_, applied', settled', ahead'⟩ := still (.returned states) rfl
      refine ⟨state, ?_, fun _ => rfl, fun u writes pending => ?_⟩
      · rw [List.map_append, List.map_singleton, List.map_singleton, applyMarks_snoc applied]
        exact if_pos (List.contains_iff_mem.mp member)
      · rw [applied] at applied'
        cases applied'
        exact ahead' u writes pending
    · cases ran
      rw [List.map_nil, List.append_nil]
      exact still _ rfl
  | _ =>
    rw [here] at op
    cases op

end Linear

section Runs

variable {τ : Type} [DecidableEq τ] {wide : BitVec 32 → BitVec 32} {initial : BitVec 32}
  {c : Condvar τ (BitVec 32) FioPc} {history : List (τ × FioMark)}

/-- A thread that neither can go on nor sleeps in vain. -/
inductive FioRests (c : Condvar τ (BitVec 32) FioPc) (t : τ) : Prop
  | done : c.stage t = .outside → c.pc t = .idle → FioRests c t
  | sleeps {states : List (BitVec 32)} : c.stage t = .asleep → c.pc t = .waiting states → c.shared ∉ states →
    FioRests c t

theorem fioRun_linear (run : FioRun wide initial c history) :
    ∃ state, applyMarks wide initial (history.map Prod.snd) = some state ∧ (c.owner = none → c.shared = state) := by
  obtain ⟨a, monitor, sim⟩ := condvarReach_refines run
  have inv := monitor.inv fioDiscipline rfl trivial
  have linear : Linear wide initial a.shared a.pc history := by
    refine monitor.assertion_of (A := Alone (fioProgram wide) fun p => p.locked = true)
      (fun reach => (reach.inv fioDiscipline rfl trivial).alone)
      ⟨initial, rfl, fun _ => rfl, fun _ _ pending => nomatch pending⟩ (fun _ => Linear.goes) Linear.act
  obtain ⟨state, applied, settled, _⟩ := linear
  refine ⟨state, applied, fun free => ?_⟩
  rw [← sim.shared]
  refine settled fun t => ?_
  by_contra busy
  obtain ⟨writes, pending⟩ := Option.ne_none_iff_exists'.mp busy
  have working : (a.pc t).locked = true ∧ ¬(fioProgram wide (a.pc t)).IsWait := by
    cases here : a.pc t with
    | setting left => exact ⟨rfl, setting_not_wait left⟩
    | announcing left => exact ⟨rfl, id⟩
    | _ =>
      rw [here] at pending
      cases pending
  have running := by_contra fun away => working.2 (inv.wait t away)
  have owner := (inv.owner t).mpr ⟨running, working.1⟩
  rw [sim.owner, free] at owner
  cases owner

theorem fioRun_rests (run : FioRun wide initial c history) (stuck : ∀ t, c.step (fioProgram wide) (.step t) = none)
    (locked : ∀ t, c.step (fioProgram wide) (.relock t false) = none) : c.owner = none ∧ ∀ t, FioRests c t := by
  obtain ⟨free, _, rests⟩ := condvarReach_rests run fioDiscipline rfl trivial stuck locked
  refine ⟨free, fun t => ?_⟩
  cases rests t with
  | stopped outside op =>
    cases here : c.pc t with
    | idle => exact .done outside here
    | setting writes =>
      rw [here] at op
      cases writes <;> cases op
    | _ =>
      rw [here] at op
      cases op
  | blocked _ op none _ =>
    have live := fioProgram_live op c.shared
    rw [none] at live
    cases live
  | sleeps asleep _ waits late =>
    cases here : c.pc t with
    | waiting states =>
      rw [here] at late
      exact .sleeps asleep here late
    | setting writes =>
      rw [here] at waits
      exact absurd waits (setting_not_wait writes)
    | _ =>
      rw [here] at waits
      exact waits.elim

/-- State variables as their users see them. In every run of any threads, whatever is
signalled, the calls are answered as if they were made one after another on a state
variable by itself, each at one moment while it ran, and that variable is what is
shared whenever the lock is free. Where no thread can go on the lock is free, and
every thread is done or sleeps for states of which the variable has none. -/
theorem fioRun_sound (run : FioRun wide initial c history) :
    (∃ state, applyMarks wide initial (history.map Prod.snd) = some state ∧ (c.owner = none → c.shared = state)) ∧
      ((∀ t, c.step (fioProgram wide) (.step t) = none) → (∀ t, c.step (fioProgram wide) (.relock t false) = none) →
        c.owner = none ∧ ∀ t, FioRests c t) :=
  ⟨fioRun_linear run, fioRun_rests run⟩

/-- One thread waits for a state, and another one sets it. -/
def fioActions : List (Monitor.Action Nat FioPc) :=
  .call 0 (.begin (.waitOn [5#32])) :: List.replicate 5 (.step 0) ++ .call 1 (.begin (.write (.setState 5#32))) ::
    List.replicate 5 (.step 1) ++ [.step 0, .relock 0 false] ++ List.replicate 3 (.step 0)

theorem fioRun_sound_waiter : ∃ (c : Condvar Nat (BitVec 32) FioPc) (history : List (Nat × FioMark)),
    FioRun (fun a => 1#32 <<< (a % 32#32)) 1#32 c history ∧ history.length = 2 ∧ c.shared = 5#32 ∧ c.owner = none ∧
      ∃ state, applyMarks (fun a => 1#32 <<< (a % 32#32)) 1#32 (history.map Prod.snd) = some state ∧
        c.shared = state := by
  have passes : (Transition.run (Condvar.step (fioProgram fun a => 1#32 <<< (a % 32#32)))
      (fun c action => decide (action.Enters fun t => (c.pc t).Entry)) (Condvar.initial 1#32 .idle) fioActions).any
        (fun r => r.2.length == 2 && r.1.shared == 5#32 && r.1.owner == none) = true := by decide +kernel
  obtain ⟨c, history, run, same⟩ := Transition.Reach.of_check (fun _ _ => of_decide_eq_true) _ passes
  simp only [Bool.and_eq_true, beq_iff_eq] at same
  obtain ⟨⟨two, five⟩, free⟩ := same
  obtain ⟨⟨state, applied, settled⟩, _⟩ := fioRun_sound run
  exact ⟨c, history, run, two, five, free, state, applied, settled free⟩

end Runs

end IomemoryVsl
