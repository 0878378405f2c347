import IomemoryVsl.Transition
import Mathlib.Logic.Function.Basic

namespace IomemoryVsl

/-- `fio_state_arc_t`. -/
structure StateArc where
  statesFromMask : BitVec 32
  stateTo : BitVec 16
  arcNum : BitVec 16

/-- `STATE_ARC_NOTFOUND`. -/
def stateArcNotfound : BitVec 16 := -1#16

def fioStateSame : BitVec 16 := -1#16

/-- The calls that change a state variable. An `arc_action` runs under the lock: it
may set the state with `__fio_set_state_locked`, any number of times, and its
result depends on the number of the arc. -/
inductive StateOp
  | setState (newState : BitVec 32)
  | transitionState (newState : BitVec 32) (old : List (BitVec 32))
  | transitionStateVa (newState : BitVec 32) (old : List (BitVec 32))
  | stateTransition (arcs : List StateArc) (arcAction : Option (Int → List (BitVec 32) × Int))
  | stateUp
  | stateDown

/-- How far a waiter on the wait queue has come in `fusion_condvar_wait`. -/
inductive WaitPhase
  | held | released | asleep
  deriving DecidableEq, Repr

inductive StatePc
  | idle
  | call (op : StateOp)
  | writing (op : StateOp)
  | unlocking
  | wait (states : List (BitVec 32))
  | check (states : List (BitVec 32))
  /-- The check has failed, and `fusion_condvar_wait` is called. -/
  | sleep (states : List (BitVec 32))
  | enqueued (states : List (BitVec 32)) (phase : WaitPhase) (marked : Bool)
  /-- The wait is over; the caller still has to call `fio_unlock_state`. -/
  | returned (states : List (BitVec 32))

namespace StatePc

/-- The thread is between a lock and its unlock. -/
def holds : StatePc → Bool
  | .writing _ | .unlocking | .check _ | .sleep _ | .enqueued _ .held _ | .returned _ => true
  | _ => false

/-- What `wake_up_all` does to a thread. -/
def mark : StatePc → StatePc
  | .enqueued states phase _ => .enqueued states phase true
  | pc => pc

end StatePc

/-- A `fio_state_t` and the threads that use it. -/
structure StateVar (τ : Type) where
  state : BitVec 32
  owner : Option τ
  pc : τ → StatePc

inductive StateAction (τ : Type)
  | write (t : τ) (op : StateOp)
  /-- `__fio_wait_on_states`, of which `__fio_wait_on_state` is the case of one state. -/
  | waitOn (t : τ) (states : List (BitVec 32))
  /-- The thread takes its next step. -/
  | step (t : τ)
  /-- A sleeping thread goes on, because it was marked or because of a signal. -/
  | wake (t : τ)

/-- What a call that changes the state returns: the old state and a result. -/
structure StateResult (τ : Type) where
  t : τ
  old : Option (BitVec 32)
  rc : Option Int

/-- `STATE_M1`. What a shift by 32 or more gives is up to the machine. -/
def stateM1 (wide : BitVec 32 → BitVec 32) (a : BitVec 32) : BitVec 32 := if a < 32#32 then 1#32 <<< a else wide a

/-- The arc for a state: the first one in the table before the end mark. -/
def findArc (mask : BitVec 32) (arcs : List StateArc) : Option StateArc :=
  (arcs.takeWhile fun arc => arc.arcNum != stateArcNotfound).find? fun arc => mask &&& arc.statesFromMask != 0#32

namespace StateVar

variable {τ : Type}

/-- `fio_init_state`. -/
def initial (state : BitVec 32) : StateVar τ := ⟨state, none, fun _ => .idle⟩

def fusionCondvarBroadcast (s : StateVar τ) : StateVar τ := { s with pc := fun t => (s.pc t).mark }

def fioSetStateLocked (s : StateVar τ) (newState : BitVec 32) : StateVar τ :=
  if s.state ≠ newState then ({ s with state := newState } : StateVar τ).fusionCondvarBroadcast else s

def fioSetState (s : StateVar τ) (newState : BitVec 32) : StateVar τ × BitVec 32 :=
  (s.fioSetStateLocked newState, s.state)

/-- With no old states given, the transition is from any other state. -/
def fioTransitionStateVa (s : StateVar τ) (newState : BitVec 32) (old : List (BitVec 32)) :
    StateVar τ × BitVec 32 × Int :=
  if old.length = 0 then
    if s.state = newState then (s, s.state, 0) else (s.fioSetStateLocked newState, s.state, 1)
  else if old.contains s.state then
    (s.fioSetStateLocked newState, s.state, 1)
  else
    (s, s.state, 0)

def fioStateTransition (wide : BitVec 32 → BitVec 32) (s : StateVar τ) (arcs : List StateArc)
    (arcAction : Option (Int → List (BitVec 32) × Int)) : StateVar τ × Int :=
  let (s, arcNum) :=
    match findArc (stateM1 wide s.state) arcs with
    | some arc =>
      (if arc.stateTo ≠ fioStateSame then s.fioSetStateLocked (arc.stateTo.signExtend 32) else s, arc.arcNum.toInt)
    | none => (s, stateArcNotfound.toInt)
  match arcAction with
  | some action => ((action arcNum).1.foldl fioSetStateLocked s, (action arcNum).2)
  | none => (s, arcNum)

def fioStateUp (s : StateVar τ) : StateVar τ := s.fioSetStateLocked (s.state + 1#32)

def fioStateDown (s : StateVar τ) : StateVar τ := s.fioSetStateLocked (s.state - 1#32)

/-- The body of a call that changes the state, from the lock to the unlock. -/
def body (wide : BitVec 32 → BitVec 32) (s : StateVar τ) (t : τ) : StateOp → StateVar τ × StateResult τ
  | .setState newState => ((s.fioSetState newState).1, ⟨t, some (s.fioSetState newState).2, none⟩)
  | .transitionState newState old =>
    ((s.fioTransitionStateVa newState old).1, ⟨t, none, some (s.fioTransitionStateVa newState old).2.2⟩)
  | .transitionStateVa newState old =>
    ((s.fioTransitionStateVa newState old).1,
      ⟨t, some (s.fioTransitionStateVa newState old).2.1, some (s.fioTransitionStateVa newState old).2.2⟩)
  | .stateTransition arcs arcAction =>
    ((s.fioStateTransition wide arcs arcAction).1, ⟨t, none, some (s.fioStateTransition wide arcs arcAction).2⟩)
  | .stateUp => (s.fioStateUp, ⟨t, none, none⟩)
  | .stateDown => (s.fioStateDown, ⟨t, none, none⟩)

variable [DecidableEq τ]

def setPc (s : StateVar τ) (t : τ) (pc : StatePc) : StateVar τ := { s with pc := Function.update s.pc t pc }

/-- The thread gets the lock if it is free. -/
def lock (s : StateVar τ) (t : τ) (pc : StatePc) : Option (StateVar τ × List (StateResult τ)) :=
  if s.owner = none then some (({ s with owner := some t } : StateVar τ).setPc t pc, []) else none

def unlock (s : StateVar τ) (t : τ) (pc : StatePc) : StateVar τ := ({ s with owner := none } : StateVar τ).setPc t pc

def step (wide : BitVec 32 → BitVec 32) (s : StateVar τ) :
    StateAction τ → Option (StateVar τ × List (StateResult τ))
  | .write t op => match s.pc t with
    | .idle => some (s.setPc t (.call op), [])
    | _ => none
  | .waitOn t states => match s.pc t with
    | .idle => some (s.setPc t (.wait states), [])
    | _ => none
  | .step t => match s.pc t with
    | .idle | .enqueued _ .asleep _ => none
    | .call op => s.lock t (.writing op)
    | .writing op => some ((s.body wide t op).1.setPc t .unlocking, [(s.body wide t op).2])
    | .unlocking => some (s.unlock t .idle, [])
    | .wait states => s.lock t (.check states)
    | .check states => some (s.setPc t (if states.contains s.state then .returned states else .sleep states), [])
    | .sleep states => some (s.setPc t (.enqueued states .held false), [])
    | .enqueued states .held marked => some (s.unlock t (.enqueued states .released marked), [])
    | .enqueued states .released marked =>
      -- `schedule` returns at once in a thread that was marked
      some (s.setPc t (if marked then .wait states else .enqueued states .asleep false), [])
    | .returned _ => some (s.unlock t .idle, [])
  | .wake t => match s.pc t with
    | .enqueued states .asleep _ => some (s.setPc t (.wait states), [])
    | _ => none

end StateVar

variable {τ : Type}

/-- The runs of any threads on one state variable. -/
abbrev StateReach [DecidableEq τ] (wide : BitVec 32 → BitVec 32) (state : BitVec 32) :
    StateVar τ → List (StateResult τ) → Prop :=
  Transition.Reach (StateVar.step wide) (fun _ _ => True) (StateVar.initial state)

/-- No wake-up is lost, and a wait ends with the lock held in one of its states. -/
structure NoLostWakeup (s : StateVar τ) : Prop where
  asleep : ∀ t states, s.pc t = .enqueued states .asleep false → s.state ∉ states
  returned : ∀ t states, s.pc t = .returned states → s.owner = some t ∧ s.state ∈ states

/-- What is true of each thread. A waiter that has found none of its states keeps
the lock until it is on the wait queue. -/
def StateVar.Fits (s : StateVar τ) : StatePc → Prop
  | .sleep states | .enqueued states _ false => s.state ∉ states
  | .returned states => s.state ∈ states
  | _ => True

structure StateVar.Inv (s : StateVar τ) : Prop where
  locked : ∀ t, (s.pc t).holds = true → s.owner = some t
  fits : ∀ t, s.Fits (s.pc t)

namespace StateVar

variable {s : StateVar τ} {t : τ} {op : StateOp} {pc : StatePc}

theorem holds_mark (pc : StatePc) : pc.mark.holds = pc.holds := by
  cases pc with
  | enqueued states phase marked => cases phase <;> rfl
  | _ => rfl

/-- The thread is in the body of a call that changes the state. -/
def Writing (s : StateVar τ) (t : τ) (op : StateOp) : Prop := s.Inv ∧ s.pc t = .writing op

/-- Only one thread has the lock. -/
theorem Writing.alone {u : τ} (writing : s.Writing t op) (holds : (s.pc u).holds = true) : u = t := by
  have mine : s.owner = some t := writing.1.locked t (by rw [writing.2]; rfl)
  have other : s.owner = some u := writing.1.locked u holds
  exact Option.some.inj (other.symm.trans mine)

/-- A new state wakes every waiter on the queue, and no other waiter can have
looked at the old one. -/
theorem Writing.fioSetStateLocked (writing : s.Writing t op) (newState : BitVec 32) :
    (s.fioSetStateLocked newState).Writing t op := by
  unfold StateVar.fioSetStateLocked
  split
  · refine ⟨⟨?_, ?_⟩, ?_⟩
    · intro u holds
      simp only [fusionCondvarBroadcast, holds_mark] at holds
      exact writing.1.locked u holds
    · intro u
      have alone := writing.alone (u := u)
      cases here : s.pc u with
      | sleep states | returned states =>
        have same := alone (by rw [here]; rfl)
        rw [same, writing.2] at here
        cases here
      | enqueued states phase marked =>
        simp only [fusionCondvarBroadcast, here]
        cases phase <;> trivial
      | idle | call | writing | unlocking | wait | check =>
        simp only [fusionCondvarBroadcast, here]
        trivial
    · simp only [fusionCondvarBroadcast, writing.2]
      rfl
  · exact writing

theorem Writing.foldl (writing : s.Writing t op) (states : List (BitVec 32)) :
    (states.foldl StateVar.fioSetStateLocked s).Writing t op := by
  induction states generalizing s with
  | nil => exact writing
  | cons state rest ih => exact ih (writing.fioSetStateLocked state)

theorem Writing.transition (writing : s.Writing t op) (newState : BitVec 32) (old : List (BitVec 32)) :
    (s.fioTransitionStateVa newState old).1.Writing t op := by
  unfold fioTransitionStateVa
  split
  · split
    · exact writing
    · exact writing.fioSetStateLocked newState
  · split
    · exact writing.fioSetStateLocked newState
    · exact writing

theorem Writing.arc {wide : BitVec 32 → BitVec 32} (writing : s.Writing t op) (arcs : List StateArc)
    (arcAction : Option (Int → List (BitVec 32) × Int)) :
    (s.fioStateTransition wide arcs arcAction).1.Writing t op := by
  unfold fioStateTransition
  have moved (arc : StateArc) : (if arc.stateTo ≠ fioStateSame then
      s.fioSetStateLocked (arc.stateTo.signExtend 32) else s).Writing t op := by
    split
    · exact writing.fioSetStateLocked _
    · exact writing
  cases findArc (stateM1 wide s.state) arcs with
  | none =>
    cases arcAction with
    | none => exact writing
    | some action => exact writing.foldl _
  | some arc =>
    cases arcAction with
    | none => exact moved arc
    | some action => exact (moved arc).foldl _

theorem Writing.body {wide : BitVec 32 → BitVec 32} (writing : s.Writing t op) (call : StateOp) :
    (s.body wide t call).1.Writing t op := by
  cases call with
  | setState newState => exact writing.fioSetStateLocked newState
  | transitionState newState old => exact writing.transition newState old
  | transitionStateVa newState old => exact writing.transition newState old
  | stateTransition arcs arcAction => exact writing.arc arcs arcAction
  | stateUp => exact writing.fioSetStateLocked _
  | stateDown => exact writing.fioSetStateLocked _

variable [DecidableEq τ]

theorem setPc_self (s : StateVar τ) (t : τ) (pc : StatePc) : (s.setPc t pc).pc t = pc := Function.update_self ..

theorem setPc_of_ne (s : StateVar τ) {t u : τ} (pc : StatePc) (other : u ≠ t) : (s.setPc t pc).pc u = s.pc u :=
  Function.update_of_ne other ..

theorem Inv.setPc (inv : s.Inv) (holds : pc.holds = true → s.owner = some t) (fits : s.Fits pc) :
    (s.setPc t pc).Inv := by
  refine ⟨fun u locked => ?_, fun u => ?_⟩
  · by_cases same : u = t
    · rw [same, setPc_self] at locked
      rw [same]
      exact holds locked
    · rw [setPc_of_ne s pc same] at locked
      exact inv.locked u locked
  · by_cases same : u = t
    · rw [same, setPc_self]
      exact fits
    · rw [setPc_of_ne s pc same]
      exact inv.fits u

/-- A thread that does not have the lock goes to another place. -/
theorem Inv.outside (inv : s.Inv) (released : pc.holds = false) (fits : s.Fits pc) : (s.setPc t pc).Inv := by
  refine inv.setPc (fun holds => ?_) fits
  rw [released] at holds
  cases holds

theorem Inv.lock {last : StateVar τ} {results : List (StateResult τ)} (inv : s.Inv)
    (ran : s.lock t pc = some (last, results)) (fits : s.Fits pc) : last.Inv := by
  unfold StateVar.lock at ran
  split at ran
  · rename_i free
    have taken : ({ s with owner := some t } : StateVar τ).Inv := by
      refine ⟨fun u holds => ?_, inv.fits⟩
      have owner := inv.locked u holds
      rw [free] at owner
      cases owner
    cases ran
    exact taken.setPc (fun _ => rfl) fits
  · cases ran

theorem Inv.unlock (inv : s.Inv) (mine : (s.pc t).holds = true) (released : pc.holds = false) (fits : s.Fits pc) :
    (s.unlock t pc).Inv := by
  refine ⟨fun u holds => ?_, fun u => ?_⟩
  · by_cases same : u = t
    · rw [StateVar.unlock, same, setPc_self, released] at holds
      cases holds
    · rw [StateVar.unlock, setPc_of_ne _ pc same] at holds
      have both := (inv.locked u holds).symm.trans (inv.locked t mine)
      exact absurd (Option.some.inj both) same
  · by_cases same : u = t
    · rw [StateVar.unlock, same, setPc_self]
      exact fits
    · rw [StateVar.unlock, setPc_of_ne _ pc same]
      exact inv.fits u

/-- Each place a thread can be in leaves things in order when the thread goes on. -/
theorem Inv.thread {wide : BitVec 32 → BitVec 32} {last : StateVar τ} {results : List (StateResult τ)} (inv : s.Inv)
    (run : s.step wide (.step t) = some (last, results)) : last.Inv := by
  have mine := inv.locked t
  have now := inv.fits t
  simp only [StateVar.step] at run
  cases here : s.pc t with
  | idle =>
    rw [here] at run
    cases run
  | call op =>
    simp only [here] at run
    exact inv.lock run trivial
  | writing op =>
    simp only [here] at run
    cases run
    have body : (s.body wide t op).1.Writing t op := Writing.body ⟨inv, here⟩ op
    exact body.1.setPc (fun _ => body.1.locked t (by rw [body.2]; rfl)) trivial
  | unlocking =>
    simp only [here] at run
    cases run
    exact inv.unlock (by rw [here]; rfl) rfl trivial
  | wait states =>
    simp only [here] at run
    exact inv.lock run trivial
  | check states =>
    simp only [here] at run
    rw [here] at mine
    cases run
    refine inv.setPc (fun _ => mine rfl) ?_
    split
    · rename_i found
      exact List.contains_iff_mem.mp found
    · rename_i missing
      exact fun member => missing (List.contains_iff_mem.mpr member)
  | sleep states =>
    simp only [here] at run
    rw [here] at mine now
    cases run
    exact inv.setPc (fun _ => mine rfl) now
  | enqueued states phase marked =>
    rw [here] at now
    cases phase with
    | held =>
      simp only [here] at run
      cases run
      refine inv.unlock (by rw [here]; rfl) rfl ?_
      cases marked <;> exact now
    | released =>
      simp only [here] at run
      cases run
      cases marked with
      | true => exact inv.outside rfl trivial
      | false => exact inv.outside rfl now
    | asleep =>
      simp only [here] at run
      cases run
  | returned states =>
    simp only [here] at run
    cases run
    exact inv.unlock (by rw [here]; rfl) rfl trivial

theorem Inv.step {wide : BitVec 32 → BitVec 32} {last : StateVar τ} {action : StateAction τ}
    {results : List (StateResult τ)} (inv : s.Inv) (run : s.step wide action = some (last, results)) : last.Inv := by
  cases action with
  | write t op | waitOn t states | wake t =>
    simp only [StateVar.step] at run
    split at run
    · cases run
      exact inv.outside rfl trivial
    · cases run
  | step t => exact inv.thread run

end StateVar

/-- State variables lose no wake-up, whatever threads do with them. -/
theorem fioState_noLostWakeup [DecidableEq τ] {wide : BitVec 32 → BitVec 32} {state : BitVec 32} {s : StateVar τ}
    {results : List (StateResult τ)} (reach : StateReach wide state s results) : NoLostWakeup s := by
  have inv : s.Inv := by
    refine reach.invariant (fun s _ => s.Inv) ?_ ?_
    · refine ⟨fun t held => ?_, fun t => trivial⟩
      cases held
    · intro s last action history events _ inv _ run
      exact inv.step run
  refine ⟨fun t states here => ?_, fun t states here => ?_⟩
  · have fits := inv.fits t
    rw [here] at fits
    exact fits
  · have fits := inv.fits t
    rw [here] at fits
    exact ⟨inv.locked t (by rw [here]; rfl), fits⟩

theorem StateReach.of_check [DecidableEq τ] (wide : BitVec 32 → BitVec 32) (state : BitVec 32)
    (check : StateVar τ × List (StateResult τ) → Bool) (actions : List (StateAction τ))
    (passes : (Transition.run (StateVar.step wide) (fun _ _ => true) (StateVar.initial state) actions).any check =
      true) : ∃ s results, StateReach wide state s results ∧ check (s, results) = true :=
  Transition.Reach.of_check (fun _ _ _ => trivial) check passes

/-- Thread 1 sleeps until thread 0 follows an arc to state 2 whose action goes on to
3; thread 2 goes to sleep after that. -/
theorem fioState_noLostWakeup_arc : ∃ (s : StateVar Nat) (results : List (StateResult Nat)),
    StateReach id 1#32 s results ∧ s.pc 1 = .returned [3#32] ∧ s.pc 2 = .enqueued [9#32] .asleep false ∧
      NoLostWakeup s := by
  obtain ⟨s, results, reach, checked⟩ := StateReach.of_check id 1#32
    (fun last : StateVar Nat × List (StateResult Nat) => match last.1.pc 1, last.1.pc 2 with
      | .returned first, .enqueued second .asleep false => first == [3#32] && second == [9#32]
      | _, _ => false)
    [.waitOn 1 [3#32], .step 1, .step 1, .step 1, .step 1, .step 1,
      .write 0 (.stateTransition [⟨2#32, 2#16, 7#16⟩] (some fun arc => ([3#32], arc))), .step 0, .step 0, .step 0,
      .waitOn 2 [9#32], .step 2, .step 2, .step 2, .step 2, .step 2, .wake 1, .step 1, .step 1]
    (by decide +kernel)
  dsimp only at checked
  split at checked
  · rename_i first second one two
    obtain ⟨left, right⟩ := Bool.and_eq_true_iff.mp checked
    rw [beq_iff_eq.mp left] at one
    rw [beq_iff_eq.mp right] at two
    exact ⟨s, results, reach, one, two, fioState_noLostWakeup reach⟩
  · cases checked

end IomemoryVsl
