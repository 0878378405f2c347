import IomemoryVsl.Monitor

namespace IomemoryVsl

open Monitor

/-- How far a thread has come in `fusion_condvar_wait` or in
`__fusion_condvar_timedwait`. -/
inductive CondvarStage where
  | outside
  /-- It is on the wait queue and still has the lock. -/
  | prepared
  | released
  | asleep
  /-- `schedule` has returned, by the timer or not. -/
  | back (timer : Bool)
  /-- It has the lock again, and `finish_wait` follows. -/
  | locked (reason : Reason)
  deriving DecidableEq, Repr

/-- The lock, the wait queue of the condition variable, and the threads. `up` tells
whether the scheduler has a thread as running. -/
structure Condvar (τ σ π : Type*) where
  shared : σ
  owner : Option τ
  pc : τ → π
  stage : τ → CondvarStage
  up : τ → Bool
  queue : List τ

namespace Condvar

variable {τ σ ε π : Type*} [DecidableEq τ]

def initial (shared : σ) (rest : π) : Condvar τ σ π :=
  ⟨shared, none, fun _ => rest, fun _ => .outside, fun _ => true, []⟩

def goto (c : Condvar τ σ π) (t : τ) (pc : π) : Condvar τ σ π := { c with pc := Function.update c.pc t pc }

def setStage (c : Condvar τ σ π) (t : τ) (stage : CondvarStage) : Condvar τ σ π :=
  { c with stage := Function.update c.stage t stage }

/-- The scheduler makes a sleeping thread runnable. -/
def tryToWakeUp (c : Condvar τ σ π) (t : τ) : Condvar τ σ π := { c with up := Function.update c.up t true }

/-- The entry is a fresh one of `DEFINE_WAIT`, so it is never on the queue yet. -/
def prepareToWaitExclusive (c : Condvar τ σ π) (t : τ) : Condvar τ σ π :=
  { c with queue := c.queue ++ [t], up := Function.update c.up t false }

def finishWait (c : Condvar τ σ π) (t : τ) : Condvar τ σ π :=
  { c with queue := c.queue.erase t, up := Function.update c.up t true }

/-- `wake_up`: entries of threads that are up already are passed over, and the
first sleeping thread is woken and taken off the queue. -/
def fusionCondvarSignal (c : Condvar τ σ π) : Condvar τ σ π :=
  match c.queue.find? fun t => !c.up t with
  | none => c
  | some t => { c.tryToWakeUp t with queue := c.queue.erase t }

/-- `wake_up_all`. -/
def fusionCondvarBroadcast (c : Condvar τ σ π) : Condvar τ σ π :=
  { c with up := fun t => c.up t || decide (t ∈ c.queue), queue := c.queue.filter c.up }

/-- A thread that is not in a wait does what its program says. The lock has to be
held for a signal and for a broadcast. -/
def advance (prog : π → Op σ ε π) (c : Condvar τ σ π) (t : τ) : Option (Condvar τ σ π × List (τ × ε)) :=
  match prog (c.pc t) with
  | .stop => none
  | .act effect =>
    (effect c.shared).map fun (shared, events, next) =>
      ({ c with shared := shared }.goto t next, events.map fun event => (t, event))
  | .lock next => if c.owner = none then some ({ c with owner := some t }.goto t next, []) else none
  | .unlock next => if c.owner = some t then some ({ c with owner := none }.goto t next, []) else none
  | .wait _ _ =>
    if c.owner = some t then some ((c.prepareToWaitExclusive t).setStage t .prepared, []) else none
  | .signal next => if c.owner = some t then some (c.fusionCondvarSignal.goto t next, []) else none
  | .broadcast next => if c.owner = some t then some (c.fusionCondvarBroadcast.goto t next, []) else none

def step (prog : π → Op σ ε π) (c : Condvar τ σ π) : Action τ π → Option (Condvar τ σ π × List (τ × ε))
  | .call t entry =>
    match c.stage t, prog (c.pc t) with
    | .outside, .stop => some (c.goto t entry, [])
    | _, _ => none
  | .step t =>
    match c.stage t with
    | .outside => c.advance prog t
    | .prepared => if c.owner = some t then some ({ c with owner := none }.setStage t .released, []) else none
    | .released => some (c.setStage t (if c.up t then .back false else .asleep), [])
    | .asleep => if c.up t then some (c.setStage t (.back false), []) else none
    | .back _ => none
    | .locked reason =>
      match prog (c.pc t) with
      | .wait _ next => some (((c.finishWait t).setStage t .outside).goto t (next reason), [])
      | _ => none
  | .relock t late =>
    match c.stage t, prog (c.pc t) with
    | .back timer, .wait kind _ =>
      if c.owner = none then
        some ({ c with owner := some t }.setStage t (.locked (kind.reason timer late)), [])
      else none
    | _, _ => none
  | .timeout t =>
    match c.stage t, prog (c.pc t) with
    | .asleep, .wait kind _ =>
      if kind.timed && !c.up t then some ((c.tryToWakeUp t).setStage t (.back true), []) else none
    | _, _ => none
  | .interrupt t =>
    match c.stage t, prog (c.pc t) with
    | .prepared, .wait kind _ | .released, .wait kind _ | .asleep, .wait kind _ =>
      if kind.interruptible && !c.up t then some (c.tryToWakeUp t, []) else none
    | _, _ => none

end Condvar

/-- `fusion_condvar_wait`. -/
def fusionCondvarWait : WaitKind := ⟨true, false⟩

/-- `fusion_condvar_timedwait`. -/
def fusionCondvarTimedwait : WaitKind := ⟨false, true⟩

/-- `fusion_condvar_timedwait_noload`. -/
def fusionCondvarTimedwaitNoload : WaitKind := ⟨true, true⟩

end IomemoryVsl
