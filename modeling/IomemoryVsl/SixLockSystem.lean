import IomemoryVsl.SixLock
import IomemoryVsl.Transition

namespace IomemoryVsl

/-- A call of `fusion_sixsem_upgrade` with the private data it keeps across its
wait loop. The ticket is the rank of the request among all requests; the code
does not have it. -/
structure Request (Tid : Type) where
  thread : Tid
  oldMode : LockMode
  newMode : LockMode
  serial : BitVec 64
  ticket : Nat
  deriving DecidableEq, Repr

/-- A conversion holds its old mode while it waits, a plain request holds nothing. -/
def Request.Converts {Tid : Type} (r : Request Tid) : Prop := r.oldMode ≠ .null

instance {Tid : Type} (r : Request Tid) : Decidable r.Converts := inferInstanceAs (Decidable (_ ≠ _))

/-- A request inside the wait loop. It is awake while it is about to evaluate the
condition: after it entered, and after a signal reached it. -/
structure Waiter (Tid : Type) extends Request Tid where
  awake : Bool
  deriving DecidableEq, Repr

structure Hold (Tid : Type) where
  thread : Tid
  mode : LockMode
  deriving DecidableEq, Repr

/-- The semaphore with all its threads between two critical sections. `waiters`
is the wait queue in the order in which its members went to sleep; `holds` is
kept in the order of granting and converting. -/
structure SixSystem (Tid : Type) where
  sem : Sixsem
  waiters : List (Waiter Tid)
  holds : List (Hold Tid)
  tickets : Nat

inductive SixAction (Tid : Type)
  | upgrade (thread : Tid) (oldMode newMode : LockMode)
  | wake (thread : Tid)
  | trylock (thread : Tid) (mode : LockMode)
  | up (thread : Tid) (mode : LockMode)
  deriving DecidableEq, Repr

/-- `fusion_sixsem_down` is the upgrade from no lock at all. -/
def SixAction.down {Tid : Type} (thread : Tid) (mode : LockMode) : SixAction Tid :=
  .upgrade thread .null mode

/-- What a critical section does that a caller can see. `granted` marks the exit
from the wait loop and carries the value the call then returns. -/
inductive SixEvent (Tid : Type)
  | requested (ticket : Nat) (thread : Tid) (oldMode newMode : LockMode)
  | granted (ticket : Nat) (thread : Tid) (oldMode newMode : LockMode) (retval : Int)
  | refused (thread : Tid) (retval : Int)
  | tried (thread : Tid) (mode : LockMode) (gotLock : Bool)
  | released (thread : Tid) (mode : LockMode)
  deriving DecidableEq, Repr

variable {Tid : Type} [DecidableEq Tid]

/-- `fusion_condvar_signal`: the longest sleeping waiter is woken. -/
def fusionCondvarSignal : List (Waiter Tid) → List (Waiter Tid)
  | [] => []
  | w :: rest => if w.awake then w :: fusionCondvarSignal rest else { w with awake := true } :: rest

/-- The holds that remain once the old mode of a request is given up. -/
def keptHolds (holds : List (Hold Tid)) (thread : Tid) (oldMode : LockMode) : List (Hold Tid) :=
  if oldMode ≠ .null then holds.erase ⟨thread, oldMode⟩ else holds

namespace SixSystem

def initial : SixSystem Tid where
  sem := fusionSixsemInit
  waiters := []
  holds := []
  tickets := 0

/-- The thread is inside a call that sleeps. -/
def Busy (s : SixSystem Tid) (thread : Tid) : Prop := ∃ w ∈ s.waiters, w.thread = thread

instance (s : SixSystem Tid) (thread : Tid) : Decidable (s.Busy thread) :=
  inferInstanceAs (Decidable (∃ w ∈ s.waiters, w.thread = thread))

/-- Puts a request with its private serial into the wait loop. -/
def enter (s : SixSystem Tid) (sem : Sixsem) (w : Waiter Tid) : SixSystem Tid :=
  { s with sem := sem, waiters := s.waiters ++ [w], tickets := s.tickets + 1 }

/-- One evaluation of the wait loop's condition for a member of the loop and all
that follows until the spinlock is dropped again. -/
def settle (s : SixSystem Tid) (w : Waiter Tid) (initFlag : Bool) :
    SixSystem Tid × List (SixEvent Tid) :=
  let others := s.waiters.erase w
  if fusionSixsemUpgradeWaits s.sem w.serial w.oldMode w.newMode initFlag then
    ({ s with waiters := others ++ [{ w with awake := false }] }, [])
  else
    let result := fusionSixsemUpgradeGrant s.sem w.oldMode w.newMode
    let kept := keptHolds s.holds w.thread w.oldMode
    ({ s with
        sem := result.1
        waiters := if result.2.2 then fusionCondvarSignal others else others
        holds := if result.2.1 = 0 then kept ++ [⟨w.thread, w.newMode⟩] else kept },
      [.granted w.ticket w.thread w.oldMode w.newMode result.2.1])

/-- The critical sections of the API. A thread inside a sleeping call does
nothing else, and threads only convert or release modes they hold. -/
def step (s : SixSystem Tid) : SixAction Tid → Option (SixSystem Tid × List (SixEvent Tid))
  | .upgrade thread oldMode newMode =>
    if s.Busy thread ∨ (oldMode ≠ .null ∧ ⟨thread, oldMode⟩ ∉ s.holds) then
      none
    else
      match fusionSixsemUpgradeEnter s.sem oldMode with
      | none => some (s, [.refused thread (-eagain)])
      | some (sem, serial) =>
        let newMode := upgradeConversion newMode oldMode
        let w : Waiter Tid := { thread, oldMode, newMode, serial, ticket := s.tickets, awake := true }
        let settled := (s.enter sem w).settle w true
        some (settled.1, .requested w.ticket thread oldMode newMode :: settled.2)
  | .wake thread =>
    (s.waiters.find? fun w => w.thread = thread).map fun w => s.settle w false
  | .trylock thread mode =>
    if s.Busy thread then
      none
    else
      let result := fusionSixsemDownTrylock s.sem mode
      some ({ s with
        sem := result.1
        holds := if result.2 then s.holds ++ [⟨thread, mode⟩] else s.holds },
        [.tried thread mode result.2])
  | .up thread mode =>
    if s.Busy thread ∨ ⟨thread, mode⟩ ∉ s.holds then
      none
    else
      some ({ s with
        sem := fusionSixsemUp s.sem mode
        waiters := fusionCondvarSignal s.waiters
        holds := s.holds.erase ⟨thread, mode⟩ },
        [.released thread mode])

end SixSystem

/-- Runs of the semaphore whose actions all meet `allowed`. -/
abbrev SixReach (allowed : SixSystem Tid → SixAction Tid → Prop) :
    SixSystem Tid → List (SixEvent Tid) → Prop :=
  Transition.Reach SixSystem.step allowed SixSystem.initial

theorem SixReach.of_check {allowed : SixSystem Tid → SixAction Tid → Prop}
    (test : SixSystem Tid → SixAction Tid → Bool) (sound : ∀ s action, test s action = true → allowed s action)
    (check : SixSystem Tid × List (SixEvent Tid) → Bool) (actions : List (SixAction Tid))
    (passes : (Transition.run SixSystem.step test SixSystem.initial actions).any check = true) :
    ∃ s history, SixReach allowed s history ∧ check (s, history) = true :=
  Transition.Reach.of_check sound check passes

end IomemoryVsl
