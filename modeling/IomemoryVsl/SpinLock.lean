import IomemoryVsl.Transition
import Mathlib.Logic.Function.Basic

namespace IomemoryVsl

/-- The value of `flags` that says that interrupts were not saved. -/
def fusionSpinlockNotIrqsaved : BitVec 64 := ~~~0#64

/-- The kernel's word for whether interrupts are on. It restores what it saved, and
it never has all bits set. -/
structure IrqWord where
  save : Bool → BitVec 64
  restore : BitVec 64 → Bool
  restore_save : ∀ on, restore (save on) = on
  save_ne : ∀ on, save on ≠ fusionSpinlockNotIrqsaved

/-- The functions that take the lock, each with its own one to give it back. -/
inductive SpinWay
  | plain | irqsave | irqdisabled | irq
  deriving DecidableEq, Repr

/-- Where a thread is in the wrappers of `kfio.c`, or in a wait of `kcondvar.c`, which
gives the lock up and takes it back: then `back` is how its caller took it. -/
inductive SpinPc
  | outside
  /-- The interrupts are to be saved and disabled. -/
  | disabling (way : SpinWay) (tries : Bool) (back : Option SpinWay)
  | acquiring (way : SpinWay) (flags : BitVec 64) (tries : Bool) (back : Option SpinWay)
  /-- The lock is taken, and `flags` of the lock is to be written. -/
  | marking (way : SpinWay) (flags : BitVec 64) (back : Option SpinWay)
  | holding (way : SpinWay)
  /-- In a wait: `fusion_cv_lock_is_irqsaved` is to be called. -/
  | asking (way : SpinWay)
  /-- `flags` of the lock is to be read for `spin_unlock_irqrestore`. -/
  | reading (back : Option SpinWay)
  | releasing (way : SpinWay) (flags : BitVec 64) (back : Option SpinWay)
  | enabling (way : SpinWay) (flags : BitVec 64) (back : Option SpinWay)
  /-- `spin_trylock_irqsave` has not got the lock. -/
  | failing (flags : BitVec 64)
  | sleeping (way back : SpinWay)
  deriving DecidableEq, Repr

/-- `linux_spinlock_t` with its threads, each with its interrupts on or off. -/
structure SpinSystem (τ : Type) where
  owner : Option τ
  flags : BitVec 64
  irqs : τ → Bool
  pc : τ → SpinPc

inductive SpinAction (τ : Type)
  | lock (thread : τ) (way : SpinWay)
  | trylock (thread : τ) (way : SpinWay)
  | unlock (thread : τ) (way : SpinWay)
  | wait (thread : τ)
  | step (thread : τ)
  deriving DecidableEq, Repr

/-- What a caller is told. -/
inductive SpinEvent (τ : Type)
  | tried (thread : τ) (gotLock : Bool)
  | asked (thread : τ) (way : SpinWay) (isIrqsaved : Bool)
  deriving DecidableEq, Repr

def fusionSpinIsIrqsaved (flags : BitVec 64) : Bool := flags != fusionSpinlockNotIrqsaved

namespace SpinPc

/-- How a call that takes the lock begins. -/
def locking (way : SpinWay) (tries : Bool) (back : Option SpinWay) : SpinPc :=
  match way with
  | .irqsave | .irq => disabling way tries back
  | .plain | .irqdisabled => acquiring way 0#64 tries back

/-- How a call that gives the lock back begins. -/
def unlocking (way : SpinWay) (back : Option SpinWay) : SpinPc :=
  match way with
  | .irqsave => reading back
  | .plain | .irqdisabled | .irq => releasing way 0#64 back

/-- Only the two ways that a wait can take back write `flags` of the lock. -/
def acquired (way : SpinWay) (flags : BitVec 64) (back : Option SpinWay) : SpinPc :=
  match way with
  | .plain | .irqsave => marking way flags back
  | .irqdisabled | .irq => holding way

def refused (way : SpinWay) (flags : BitVec 64) : SpinPc :=
  match way with
  | .irqsave => failing flags
  | .plain | .irqdisabled | .irq => outside

def released (way : SpinWay) (back : Option SpinWay) : SpinPc :=
  match back with
  | none => outside
  | some caller => sleeping way caller

end SpinPc

namespace SpinSystem

variable {τ : Type} [DecidableEq τ]

def initial (flags : BitVec 64) (irqs : τ → Bool) : SpinSystem τ := ⟨none, flags, irqs, fun _ => .outside⟩

def goto (s : SpinSystem τ) (t : τ) (pc : SpinPc) : SpinSystem τ := { s with pc := Function.update s.pc t pc }

/-- The next memory access or change of the interrupts of a thread in a call. -/
def advance (word : IrqWord) (s : SpinSystem τ) (t : τ) : Option (SpinSystem τ × List (SpinEvent τ)) :=
  match s.pc t with
  | .outside | .holding _ => none
  | .disabling way tries back =>
    some ({ s with irqs := Function.update s.irqs t false }.goto t
      (.acquiring way (word.save (s.irqs t)) tries back), [])
  | .acquiring way flags tries back =>
    if s.owner = none then
      some ({ s with owner := some t }.goto t (.acquired way flags back), if tries then [.tried t true] else [])
    else if tries then some (s.goto t (.refused way flags), [.tried t false])
    else none
  | .marking way flags back =>
    let flags := if way = .plain then fusionSpinlockNotIrqsaved else flags
    some ({ s with flags := flags }.goto t (.holding (back.getD way)), [])
  | .asking way =>
    let isIrqsaved := fusionSpinIsIrqsaved s.flags
    some (s.goto t (.unlocking (if isIrqsaved then .irqsave else .plain) (some way)), [.asked t way isIrqsaved])
  | .reading back => some (s.goto t (.releasing .irqsave s.flags back), [])
  | .releasing way flags back =>
    some ({ s with owner := none }.goto t
      (if way = SpinWay.irqsave ∨ way = SpinWay.irq then .enabling way flags back else .released way back), [])
  | .enabling way flags back =>
    let on := if way = .irqsave then word.restore flags else true
    some ({ s with irqs := Function.update s.irqs t on }.goto t (.released way back), [])
  | .failing flags => some ({ s with irqs := Function.update s.irqs t (word.restore flags) }.goto t .outside, [])
  -- `schedule` has returned
  | .sleeping way back => some (s.goto t (.locking way false (some back)), [])

def step (word : IrqWord) (s : SpinSystem τ) : SpinAction τ → Option (SpinSystem τ × List (SpinEvent τ))
  | .lock t way => if s.pc t = .outside then some (s.goto t (.locking way false none), []) else none
  | .trylock t way => if s.pc t = .outside then some (s.goto t (.locking way true none), []) else none
  | .unlock t way =>
    match s.pc t with
    | .holding _ => some (s.goto t (.unlocking way none), [])
    | _ => none
  | .wait t =>
    match s.pc t with
    | .holding way => some (s.goto t (.asking way), [])
    | _ => none
  | .step t => s.advance word t

end SpinSystem

/-- The two ways that `fusion_spin_is_irqsaved` tells apart. -/
def SpinWay.Marks (way : SpinWay) : Prop := way = .plain ∨ way = .irqsave

instance (way : SpinWay) : Decidable way.Marks := inferInstanceAs (Decidable (_ ∨ _))

/-- The threads give the lock back as they took it. `spin_lock_irq` is for threads with
interrupts on, there is a trylock of two ways only, and these two have a wait. -/
def SpinAction.Fair {τ : Type} (base : τ → Bool) (s : SpinSystem τ) : SpinAction τ → Prop
  | .lock t way => way = .irq → base t = true
  | .trylock _ way => way.Marks
  | .unlock t way => s.pc t = .holding way
  | .wait t => s.pc t = .holding .plain ∨ s.pc t = .holding .irqsave
  | .step _ => True

instance {τ : Type} (base : τ → Bool) (s : SpinSystem τ) : DecidablePred (SpinAction.Fair base s)
  | .lock _ _ => inferInstanceAs (Decidable (_ → _))
  | .trylock _ way => inferInstanceAs (Decidable way.Marks)
  | .unlock _ _ => inferInstanceAs (Decidable (_ = _))
  | .wait _ => inferInstanceAs (Decidable (_ ∨ _))
  | .step _ => .isTrue trivial

end IomemoryVsl
