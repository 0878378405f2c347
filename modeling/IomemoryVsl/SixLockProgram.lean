import IomemoryVsl.KcondvarRefines
import IomemoryVsl.SixLockRuns

namespace IomemoryVsl

open Monitor

/-- A call of `fusion_sixsem_upgrade` with what it keeps across its wait loop. -/
structure SixRequest where
  oldMode : LockMode
  asked : LockMode
  serial : BitVec 64
  ticket : Nat
  deriving DecidableEq, Repr

/-- The mode after the conversion table. -/
def SixRequest.newMode (r : SixRequest) : LockMode := upgradeConversion r.asked r.oldMode

/-- `fusion_sixsem_down` is the upgrade from no lock at all. -/
inductive SixCall
  | upgrade (oldMode asked : LockMode)
  | trylock (mode : LockMode)
  | up (mode : LockMode)
  deriving DecidableEq, Repr

/-- Where a thread is in `six_lock.c`, with the modes it holds. -/
inductive SixPc
  | idle (held : List LockMode)
  | begin (held : List LockMode) (call : SixCall)
  | entering (held : List LockMode) (oldMode asked : LockMode)
  /-- The condition of the wait loop is to be evaluated. -/
  | testing (held : List LockMode) (r : SixRequest) (initFlag : Bool)
  | waiting (held : List LockMode) (r : SixRequest)
  | granting (held : List LockMode) (r : SixRequest) (initFlag : Bool)
  | signalling (held : List LockMode)
  | unlocking (held : List LockMode)
  | trying (held : List LockMode) (mode : LockMode)
  | releasing (held : List LockMode) (mode : LockMode)
  deriving DecidableEq, Repr

/-- What a thread does that a caller can see. -/
inductive SixMark
  | requested (ticket : Nat) (oldMode newMode : LockMode)
  | granted (ticket : Nat) (oldMode newMode : LockMode) (retval : Int)
  | refused (retval : Int)
  | tried (mode : LockMode) (gotLock : Bool)
  | released (mode : LockMode)
  deriving DecidableEq, Repr

def SixMark.of {Tid : Type} (thread : Tid) : SixMark → SixEvent Tid
  | requested ticket oldMode newMode => .requested ticket thread oldMode newMode
  | granted ticket oldMode newMode retval => .granted ticket thread oldMode newMode retval
  | refused retval => .refused thread retval
  | tried mode gotLock => .tried thread mode gotLock
  | released mode => .released thread mode

/-- What is held once the old mode of a request is given up. -/
def keptModes (held : List LockMode) (oldMode : LockMode) : List LockMode :=
  if oldMode ≠ .null then held.erase oldMode else held

namespace SixPc

def held : SixPc → List LockMode
  | idle held | begin held _ | entering held _ _ | testing held _ _ | waiting held _ | granting held _ _
  | signalling held | unlocking held | trying held _ | releasing held _ => held

/-- Where the spinlock is held. -/
def locked : SixPc → Bool
  | idle _ | begin .. => false
  | _ => true

/-- The first operation behind the spinlock. -/
def start (held : List LockMode) : SixCall → SixPc
  | .upgrade oldMode asked => entering held oldMode asked
  | .trylock mode => trying held mode
  | .up mode => releasing held mode

/-- A thread only converts and releases modes that it holds. -/
def Fair : SixPc → Prop
  | begin held (.upgrade oldMode _) | entering held oldMode _ => oldMode ≠ .null → oldMode ∈ held
  | testing held r _ | waiting held r | granting held r _ => r.oldMode ≠ .null → r.oldMode ∈ held
  | begin held (.up mode) | releasing held mode => mode ∈ held
  | _ => True

instance : DecidablePred Fair
  | begin held (.upgrade oldMode _) | entering held oldMode _ =>
    inferInstanceAs (Decidable (oldMode ≠ .null → oldMode ∈ held))
  | testing held r _ | waiting held r | granting held r _ =>
    inferInstanceAs (Decidable (r.oldMode ≠ .null → r.oldMode ∈ held))
  | begin held (.up mode) | releasing held mode => inferInstanceAs (Decidable (mode ∈ held))
  | begin _ (.trylock _) | idle _ | signalling _ | unlocking _ | trying .. => .isTrue trivial

/-- The next call of a thread finds it with the modes it has. -/
def Entry (p : SixPc) : SixPc → Prop
  | begin held call => held = p.held ∧ (begin held call).Fair
  | _ => False

instance (p : SixPc) : DecidablePred p.Entry
  | begin held call => inferInstanceAs (Decidable (held = p.held ∧ (begin held call).Fair))
  | idle _ | entering .. | testing .. | waiting .. | granting .. | signalling _ | unlocking _
  | trying .. | releasing .. => .isFalse id

end SixPc

section Effects

/-- The semaphore and the number of requests so far, which the code does not have. -/
abbrev SixShared := Sixsem × Nat

def enterEffect (held : List LockMode) (oldMode asked : LockMode) (shared : SixShared) :
    SixShared × List SixMark × SixPc :=
  match fusionSixsemUpgradeEnter shared.1 oldMode with
  | none => (shared, [.refused (-eagain)], .unlocking held)
  | some (sem, serial) =>
    let r : SixRequest := ⟨oldMode, asked, serial, shared.2⟩
    ((sem, shared.2 + 1), [.requested r.ticket r.oldMode r.newMode], .testing held r true)

def testEffect (held : List LockMode) (r : SixRequest) (initFlag : Bool) (shared : SixShared) :
    SixShared × List SixMark × SixPc :=
  if fusionSixsemUpgradeWaits shared.1 r.serial r.oldMode r.newMode initFlag then (shared, [], .waiting held r)
  else (shared, [], .granting held r initFlag)

def grantEffect (held : List LockMode) (r : SixRequest) (shared : SixShared) : SixShared × List SixMark × SixPc :=
  let (sem, retval, signal) := fusionSixsemUpgradeGrant shared.1 r.oldMode r.newMode
  let kept := keptModes held r.oldMode
  let held := if retval = 0 then kept ++ [r.newMode] else kept
  ((sem, shared.2), [.granted r.ticket r.oldMode r.newMode retval],
    if signal then .signalling held else .unlocking held)

def tryEffect (held : List LockMode) (mode : LockMode) (shared : SixShared) : SixShared × List SixMark × SixPc :=
  let (sem, gotLock) := fusionSixsemDownTrylock shared.1 mode
  ((sem, shared.2), [.tried mode gotLock], .unlocking (if gotLock then held ++ [mode] else held))

def releaseEffect (held : List LockMode) (mode : LockMode) (shared : SixShared) :
    SixShared × List SixMark × SixPc :=
  ((fusionSixsemUp shared.1 mode, shared.2), [.released mode], .signalling (held.erase mode))

/-- The functions of `six_lock.c`. -/
def sixProgram : SixPc → Op SixShared SixMark SixPc
  | .idle _ => .stop
  | .begin held call => .lock (.start held call)
  | .entering held oldMode asked => .act fun shared => some (enterEffect held oldMode asked shared)
  | .testing held r initFlag => .act fun shared => some (testEffect held r initFlag shared)
  | .waiting held r => .wait fusionCondvarWait fun _ => .testing held r false
  | .granting held r _ => .act fun shared => some (grantEffect held r shared)
  | .signalling held => .signal (.unlocking held)
  | .unlocking held => .unlock (.idle held)
  | .trying held mode => .act fun shared => some (tryEffect held mode shared)
  | .releasing held mode => .act fun shared => some (releaseEffect held mode shared)

end Effects

/-- The runs of any threads that use one semaphore over `kcondvar.c`. -/
abbrev SixRun {τ : Type} [DecidableEq τ] : Condvar τ SixShared SixPc → List (τ × SixMark) → Prop :=
  CondvarReach sixProgram SixPc.Entry (fusionSixsemInit, 0) (.idle [])

end IomemoryVsl
