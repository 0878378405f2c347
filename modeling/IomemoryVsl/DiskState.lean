import IomemoryVsl.Kcondvar

namespace IomemoryVsl

open Monitor

/-- What the threads of a disk share: the bit `KFIO_DISK_HOLDOFF_BIT`, the `done` of
each call of `kfio_blk_add_disk`, the flag of a dying queue, `ref_count`, and the
mutex and the `bd_openers` of the block device, which the block layer keeps. -/
structure DiskShared where
  holdoff : Bool
  done : Nat → Bool
  dying : Bool
  refCount : BitVec 32
  mutex : Bool
  openers : Int

/-- A disk that is not exposed yet. -/
def DiskShared.created : DiskShared := ⟨false, fun _ => false, false, 0#32, false, 0⟩

/-- The points of the functions that share `state_lk` and `state_cv`, and of the block
layer around `kfio_open_disk` and `kfio_close_disk`. -/
inductive DiskPc where
  | idle
  | holdoffTest (count : Nat)
  | holdoffLock (count : Nat)
  | holdoffInner (count : Nat)
  | holdoffWait (count : Nat)
  | holdoffUnlock (count : Nat) (reason : Reason)
  | holdoffCount (count : Nat) (reason : Reason)
  | pressureOn
  | pressureLock
  | pressureClear
  | pressureBroadcast
  | pressureUnlock
  | addLock (param : Nat)
  | addDone (param : Nat)
  | addBroadcast (param : Nat)
  | addUnlock
  | exposeLock (param : Nat)
  | exposeTest (param : Nat)
  | exposeWait (param : Nat)
  | exposeUnlock
  | openMutex (bdevOpen : Bool)
  | openDying (bdevOpen : Bool)
  | openIncr (bdevOpen : Bool)
  | openBdev (bdevOpen : Bool)
  | openDec
  | openCount
  | openUnlock
  | closeMutex
  | closeCount
  /-- `last` tells whether `bd_openers` has come to 0. -/
  | closeDecr (last : Bool)
  | closeDying
  | closeLock
  | closeBroadcast
  | closeStateUnlock
  | closeUnlock
  | hideDying
  | hideMutex
  | hideMutexUnlock
  | hideLock
  | hideTest
  | hideWait
  | hideUnlock
  deriving DecidableEq, Repr

inductive DiskEvent where
  /-- The holdoff bit has been set or cleared. -/
  | pressed (on : Bool)
  /-- A wait of `holdoff_writes_under_pressure` has run out. -/
  | timedOut
  /-- `holdoff_writes_under_pressure` returns. -/
  | returned (retval : Bool)
  | exposed (param : Nat)
  | opened
  | openFailed
  /-- `linux_bdev_hide_disk` has had the mutex. -/
  | quiesced
  | hidden
  deriving DecidableEq, Repr

/-- `holdoff_writes_under_pressure`, `linux_bdev_backpressure`, `kfio_blk_add_disk`
and the wait of `linux_bdev_expose_disk` for it, `kfio_open_disk` and
`kfio_close_disk` as the block layer calls them, and the wait of
`linux_bdev_hide_disk` for the openers. -/
def diskProgram : DiskPc → Op DiskShared DiskEvent DiskPc
  | .idle => .stop
  | .holdoffTest count => .act fun disk =>
    some (if disk.holdoff then (disk, [], .holdoffLock count) else (disk, [.returned true], .idle))
  | .holdoffLock count => .lock (.holdoffInner count)
  | .holdoffInner count => .act fun disk =>
    some (disk, [], if disk.holdoff then .holdoffWait count else .holdoffUnlock count .triggered)
  | .holdoffWait count => .wait fusionCondvarTimedwait fun
    | .triggered => .holdoffInner count
    | .timedOut => .holdoffUnlock count .timedOut
  | .holdoffUnlock count reason => .unlock (.holdoffCount count reason)
  | .holdoffCount count .triggered => .act fun disk => some (disk, [], .holdoffTest count)
  | .holdoffCount count .timedOut => .act fun disk =>
    some (if 12 ≤ count + 1 then (disk, [.timedOut, .returned (!disk.holdoff)], .idle)
      else (disk, [.timedOut], .holdoffTest (count + 1)))
  | .pressureOn => .act fun disk => some ({ disk with holdoff := true }, [.pressed true], .idle)
  | .pressureLock => .lock .pressureClear
  | .pressureClear => .act fun disk => some ({ disk with holdoff := false }, [.pressed false], .pressureBroadcast)
  | .pressureBroadcast => .broadcast .pressureUnlock
  | .pressureUnlock => .unlock .idle
  | .addLock param => .lock (.addDone param)
  | .addDone param => .act fun disk =>
    some ({ disk with done := Function.update disk.done param true }, [], .addBroadcast param)
  | .addBroadcast _ => .broadcast .addUnlock
  | .addUnlock => .unlock .idle
  | .exposeLock param => .lock (.exposeTest param)
  | .exposeTest param => .act fun disk =>
    some (if disk.done param then (disk, [.exposed param], .exposeUnlock) else (disk, [], .exposeWait param))
  | .exposeWait param => .wait fusionCondvarWait fun _ => .exposeTest param
  | .exposeUnlock => .unlock .idle
  | .openMutex bdevOpen => .act fun disk =>
    if disk.mutex then none else some ({ disk with mutex := true }, [], .openDying bdevOpen)
  | .openDying bdevOpen => .act fun disk =>
    some (if disk.dying then (disk, [.openFailed], .openUnlock) else (disk, [], .openIncr bdevOpen))
  | .openIncr bdevOpen => .act fun disk =>
    some ({ disk with refCount := disk.refCount + 1#32 }, [],
      if disk.refCount + 1#32 = 1#32 then .openBdev bdevOpen else .openCount)
  | .openBdev bdevOpen => .act fun disk => some (disk, [], if bdevOpen then .openCount else .openDec)
  | .openDec => .act fun disk => some ({ disk with refCount := disk.refCount - 1#32 }, [.openFailed], .openUnlock)
  | .openCount => .act fun disk => some ({ disk with openers := disk.openers + 1 }, [.opened], .openUnlock)
  | .openUnlock => .act fun disk => some ({ disk with mutex := false }, [], .idle)
  | .closeMutex => .act fun disk =>
    if disk.mutex then none else some ({ disk with mutex := true }, [], .closeCount)
  | .closeCount => .act fun disk =>
    some ({ disk with openers := disk.openers - 1 }, [], .closeDecr (disk.openers - 1 == 0))
  | .closeDecr _ => .act fun disk =>
    some ({ disk with refCount := disk.refCount - 1#32 }, [],
      if disk.refCount - 1#32 = 0#32 then .closeDying else .closeUnlock)
  | .closeDying => .act fun disk => some (disk, [], if disk.dying then .closeLock else .closeUnlock)
  | .closeLock => .lock .closeBroadcast
  | .closeBroadcast => .broadcast .closeStateUnlock
  | .closeStateUnlock => .unlock .closeUnlock
  | .closeUnlock => .act fun disk => some ({ disk with mutex := false }, [], .idle)
  | .hideDying => .act fun disk => some ({ disk with dying := true }, [], .hideMutex)
  | .hideMutex => .act fun disk =>
    if disk.mutex then none else some ({ disk with mutex := true }, [], .hideMutexUnlock)
  | .hideMutexUnlock => .act fun disk => some ({ disk with mutex := false }, [.quiesced], .hideLock)
  | .hideLock => .lock .hideTest
  | .hideTest => .act fun disk =>
    some (if 0 < disk.openers then (disk, [], .hideWait) else (disk, [.hidden], .hideUnlock))
  | .hideWait => .wait fusionCondvarWait fun _ => .hideTest
  | .hideUnlock => .unlock .idle

namespace DiskPc

/-- Where the functions begin. -/
def entry : DiskPc → Bool
  | holdoffTest count => count == 0
  | pressureOn | pressureLock | addLock _ | exposeLock _ | openMutex _ | closeMutex | hideDying => true
  | _ => false

/-- A function is called from wherever the last one ended. -/
def Entry (_ p : DiskPc) : Prop := p.entry = true

instance (p : DiskPc) : DecidablePred p.Entry := fun q => inferInstanceAs (Decidable (q.entry = true))

/-- Where `state_lk` is held. -/
def holds : DiskPc → Bool
  | holdoffInner _ | holdoffWait _ | holdoffUnlock .. | pressureClear | pressureBroadcast
  | pressureUnlock | addDone _ | addBroadcast _ | addUnlock | exposeTest _ | exposeWait _
  | exposeUnlock | closeBroadcast | closeStateUnlock | hideTest | hideWait | hideUnlock => true
  | _ => false

/-- Where the mutex of the block device is held. -/
def inMutex : DiskPc → Bool
  | openDying _ | openIncr _ | openBdev _ | openDec | openCount | openUnlock | closeCount | closeDecr _ | closeDying
  | closeLock | closeBroadcast | closeStateUnlock | closeUnlock | hideMutexUnlock => true
  | _ => false

/-- By how much `ref_count` is ahead of `bd_openers`. -/
def ahead : DiskPc → BitVec 32
  | openBdev _ | openDec | openCount | closeDecr _ => 1#32
  | _ => 0#32

/-- Where an open has found the queue alive. -/
def opening : DiskPc → Bool
  | openIncr _ | openBdev _ | openDec | openCount => true
  | _ => false

/-- Where `linux_bdev_hide_disk` has marked the queue as dying. -/
def marked : DiskPc → Bool
  | hideMutex | hideMutexUnlock | hideLock | hideTest | hideWait | hideUnlock => true
  | _ => false

/-- Where `linux_bdev_hide_disk` has got the mutex after that. -/
def quiet : DiskPc → Bool
  | hideMutexUnlock | hideLock | hideTest | hideWait | hideUnlock => true
  | _ => false

/-- Where the last one has closed the disk. -/
def last : DiskPc → Bool
  | closeDecr last => last
  | _ => false

/-- Who has changed what somebody waits for, and has not told yet. -/
def owes : DiskPc → DiskPc → Bool
  | pressureBroadcast, holdoffWait _ => true
  | addBroadcast param, exposeWait other => param == other
  | closeDecr true, hideWait | closeDying, hideWait | closeLock, hideWait | closeBroadcast, hideWait => true
  | _, _ => false

/-- What a waiter waits for. -/
def ready (disk : DiskShared) : DiskPc → Bool
  | holdoffWait _ => !disk.holdoff
  | exposeWait param => disk.done param
  | hideWait => decide (disk.openers ≤ 0)
  | _ => false

end DiskPc

end IomemoryVsl
