import IomemoryVsl.Errno
import Mathlib.Data.Finset.Insert
import Mathlib.Data.Fintype.Defs
import Mathlib.Logic.Function.Basic

namespace IomemoryVsl

/-- The lock classes of `fusion_sixsem_lock_t`, in the order of the enum. -/
inductive LockMode
  | null | is | ix | s | six | u | x
  deriving DecidableEq, Repr

namespace LockMode

/-- The enum value, which is also the mode's bit position in every mask. -/
def toNat : LockMode → Nat
  | null => 0
  | is => 1
  | ix => 2
  | s => 3
  | six => 4
  | u => 5
  | x => 6

instance : Fintype LockMode where
  elems := {null, is, ix, s, six, u, x}
  complete := by intro mode; cases mode <;> decide

end LockMode

def lockModeMasks (mode : LockMode) : BitVec 8 := 1#8 <<< mode.toNat

/-- The COMPAT_MASK_* macros: the held modes beside which a mode may be granted. -/
def compatMask : LockMode → BitVec 8
  | .null => lockModeMasks .null ||| lockModeMasks .s ||| lockModeMasks .is ||| lockModeMasks .ix |||
      lockModeMasks .six ||| lockModeMasks .x ||| lockModeMasks .u
  | .is => lockModeMasks .null ||| lockModeMasks .s ||| lockModeMasks .is ||| lockModeMasks .ix |||
      lockModeMasks .six
  | .ix => lockModeMasks .null ||| lockModeMasks .is ||| lockModeMasks .ix
  | .s => lockModeMasks .null ||| lockModeMasks .s ||| lockModeMasks .is
  | .six => lockModeMasks .null ||| lockModeMasks .is
  | .u => lockModeMasks .null ||| lockModeMasks .s
  | .x => lockModeMasks .null

def incompatMasks (mode : LockMode) : BitVec 8 := ~~~compatMask mode

/-- One row of the conversion table, indexed by the old mode's enum value. -/
def upgradeConversionRow : LockMode → List LockMode
  | .null => [.null, .is, .ix, .s, .six, .u, .x]
  | .is => [.is, .is, .ix, .s, .six, .u, .x]
  | .ix => [.ix, .ix, .ix, .six, .six, .x, .x]
  | .s => [.s, .s, .six, .s, .six, .u, .x]
  | .six => [.six, .six, .six, .six, .six, .six, .x]
  | .u => [.u, .u, .x, .u, .six, .u, .x]
  | .x => [.x, .x, .x, .x, .x, .x, .x]

/-- `upgrade_conversion[new_mode][old_mode]`. -/
def upgradeConversion (newMode oldMode : LockMode) : LockMode :=
  (upgradeConversionRow newMode).getD oldMode.toNat .null

/-- The counters of `fusion_sixsem_t`. The spinlock and the condition variable
live in the step relation of the threads. -/
structure Sixsem where
  curLocksMask : BitVec 8
  lockCounts : LockMode → BitVec 16
  waitCount : BitVec 16
  wakeSerial : BitVec 64
  waitSerial : BitVec 64

def fusionSixsemInit : Sixsem where
  curLocksMask := 0#8
  lockCounts := fun _ => 0#16
  waitCount := 0#16
  wakeSerial := 0#64
  waitSerial := 0#64

def sixLockIsCompatible (sem : Sixsem) (oldMode newMode : LockMode) : Bool :=
  let locksMask := sem.curLocksMask
  if sem.curLocksMask = 0#8 then
    true
  else
    let locksMask :=
      if sem.lockCounts oldMode = 1#16 then locksMask &&& ~~~lockModeMasks oldMode else locksMask
    incompatMasks newMode &&& locksMask == 0#8

/-- The comparison as it is written. When the first serial is the larger one the
subtraction wraps, so a close pair compares as smaller in both directions. -/
def serial64Compare (s1 s2 : BitVec 64) : Int :=
  if s1 = s2 then
    0
  else if s1 < s2 then
    if s2 - s1 < 1#64 <<< 63 then -1 else 1
  else
    if s2 - s1 < 1#64 <<< 63 then 1 else -1

/-- Takes one hold of a mode out of the books, as both a release and the
granting of a conversion do. -/
def dropMode (sem : Sixsem) (mode : LockMode) : Sixsem :=
  let sem := { sem with lockCounts := Function.update sem.lockCounts mode (sem.lockCounts mode - 1#16) }
  if sem.lockCounts mode = 0#16 then
    { sem with curLocksMask := sem.curLocksMask &&& ~~~lockModeMasks mode }
  else
    sem

/-- The entry of `fusion_sixsem_upgrade` up to its wait loop. Returns the private
serial of the request, or nothing when the wait queue is full. -/
def fusionSixsemUpgradeEnter (sem : Sixsem) (oldMode : LockMode) : Option (Sixsem × BitVec 64) :=
  let sem := { sem with waitCount := sem.waitCount + 1#16 }
  if sem.waitCount = 0#16 then
    none
  else
    let serial := sem.waitSerial
    if oldMode ≠ .null then
      some ({ sem with waitSerial := sem.waitSerial + 1#64 }, serial)
    else
      some (sem, serial)

/-- The condition of the wait loop of `fusion_sixsem_upgrade`. -/
def fusionSixsemUpgradeWaits (sem : Sixsem) (serial : BitVec 64) (oldMode newMode : LockMode)
    (initFlag : Bool) : Bool :=
  (decide (1#16 < sem.waitCount) && initFlag) ||
    decide (serial64Compare serial sem.wakeSerial < 0) ||
    !sixLockIsCompatible sem oldMode newMode

/-- The first half of what `fusion_sixsem_upgrade` does behind its wait loop: the
next batch is let through and the old mode is given up. -/
def leaveWaitLoop (sem : Sixsem) (oldMode : LockMode) : Sixsem :=
  let sem := if oldMode ≠ .null then { sem with wakeSerial := sem.wakeSerial + 1#64 } else sem
  if oldMode ≠ .null then dropMode sem oldMode else sem

/-- What `fusion_sixsem_upgrade` does behind its wait loop: the new state, the
return value, and whether the condition variable is signalled. -/
def fusionSixsemUpgradeGrant (sem : Sixsem) (oldMode newMode : LockMode) : Sixsem × Int × Bool :=
  let sem := leaveWaitLoop sem oldMode
  let sem := { sem with lockCounts := Function.update sem.lockCounts newMode (sem.lockCounts newMode + 1#16) }
  if sem.lockCounts newMode = 0#16 then
    ({ sem with lockCounts := Function.update sem.lockCounts newMode (sem.lockCounts newMode - 1#16) },
      -eagain, false)
  else
    let sem := { sem with
      curLocksMask := sem.curLocksMask ||| lockModeMasks newMode
      waitCount := sem.waitCount - 1#16 }
    (sem, 0, decide (0#16 < sem.waitCount))

def fusionSixsemDownTrylock (sem : Sixsem) (mode : LockMode) : Sixsem × Bool :=
  if 0#16 < sem.waitCount then
    (sem, false)
  else if sem.waitSerial = sem.wakeSerial ∧ sixLockIsCompatible sem .null mode = true then
    let sem := { sem with lockCounts := Function.update sem.lockCounts mode (sem.lockCounts mode + 1#16) }
    if sem.lockCounts mode = 0#16 then
      ({ sem with lockCounts := Function.update sem.lockCounts mode (sem.lockCounts mode - 1#16) }, false)
    else
      ({ sem with curLocksMask := sem.curLocksMask ||| lockModeMasks mode }, true)
  else
    (sem, false)

/-- The release itself. The unconditional signal that follows it in
`fusion_sixsem_up` is taken by the step of the releasing thread. -/
def fusionSixsemUp (sem : Sixsem) (mode : LockMode) : Sixsem := dropMode sem mode

end IomemoryVsl
