import IomemoryVsl.DiskExpose
import IomemoryVsl.Transition
import Mathlib.Data.List.Nodup
import Mathlib.Logic.Function.Basic

namespace IomemoryVsl

open Transition

/-- What a PCI device has while the driver serves it. -/
structure PciDevice where
  enabled : Bool
  regions : Bool
  master : Bool
  attached : Bool
  deriving DecidableEq, Repr

/-- What the calls of one `iodrive_pci_probe` return. -/
structure ProbeAnswers where
  ignore : Int
  enable : Int
  regions : Int
  dmaMask : Int
  attach : Int
  deriving DecidableEq, Repr

inductive PciEvent (δ : Type)
  /-- `iodrive_init` has succeeded. -/
  | initialised
  /-- `iodrive_cleanup`. -/
  | cleaned
  | loaded (rc : Int)
  | attached (d : δ)
  | attachFailed (d : δ)
  | detached (d : δ)
  | shutDown (d : δ)
  /-- A probe has failed at the DMA mask. -/
  | noDma (d : δ)
  | probed (d : δ) (result : Int)
  deriving DecidableEq, Repr

namespace PciDevice

def kfioPciDisableDevice (dev : PciDevice) : PciDevice := { dev with enabled := false, master := false }

def kfioPciReleaseRegions (dev : PciDevice) : PciDevice := { dev with regions := false }

variable {δ : Type}

/-- `iodrive_pci_probe`. A failure of the DMA mask leaves the regions requested. -/
def iodrivePciProbe (dev : PciDevice) (d : δ) (answers : ProbeAnswers) : PciDevice × Int × List (PciEvent δ) :=
  if answers.ignore ≠ 0 then (dev, -enodev, [])
  else if answers.enable < 0 then (dev, answers.enable, [])
  else
    let dev := { dev with enabled := true }
    if answers.regions < 0 then (dev.kfioPciDisableDevice, answers.regions, [])
    else
      let dev := { dev with regions := true }
      if answers.dmaMask ≠ 0 then (dev.kfioPciDisableDevice, answers.dmaMask, [.noDma d])
      else
        let dev := { dev with master := true }
        if answers.attach < 0 then
          (dev.kfioPciReleaseRegions.kfioPciDisableDevice, answers.attach, [.attachFailed d])
        else ({ dev with attached := true }, 0, [.attached d])

def iodrivePciOnRemove (dev : PciDevice) (d : δ) : PciDevice × List (PciEvent δ) :=
  ({ dev with attached := false }.kfioPciReleaseRegions.kfioPciDisableDevice, [.detached d])

def iodrivePciOnShutdown (dev : PciDevice) (d : δ) : PciDevice × List (PciEvent δ) :=
  ({ dev with attached := false }.kfioPciReleaseRegions.kfioPciDisableDevice, [.shutDown d])

end PciDevice

def fioInitStateIodrive : BitVec 32 := 0x2#32

def fioInitStatePcidev : BitVec 32 := 0x4#32

def fioInitStateSysrq : BitVec 32 := 0x8#32

def kfioPciRegisterDriver (retval : Int) : Int := if 0 ≤ retval then 1 else retval

inductive ModulePhase
  | unloaded | loaded
  /-- `kfio_pci_unregister_driver` is removing the devices. -/
  | unregistering
  /-- The system is going down. -/
  | down
  deriving DecidableEq, Repr

/-- The module with its devices. `served` are those that are bound to it. -/
structure PciDriver (δ : Type) where
  device : δ → PciDevice
  served : List δ
  phase : ModulePhase
  fioInitState : BitVec 32
  library : Bool
  registered : Bool
  sysrqKeys : Bool

inductive PciAction (δ : Type)
  | init (useWorkqueue iodriveInit register : Int)
  | probe (d : δ) (answers : ProbeAnswers)
  | remove (d : δ)
  | shutdown (d : δ)
  | exit
  | unregistered
  deriving DecidableEq, Repr

namespace PciDriver

variable {δ : Type}

def initial : PciDriver δ := ⟨fun _ => ⟨false, false, false, false⟩, [], .unloaded, 0#32, false, false, false⟩

/-- The first part of `fio_do_exit`. -/
def fioDoExitKeys (s : PciDriver δ) : PciDriver δ :=
  if s.fioInitState &&& fioInitStateSysrq ≠ 0#32 then { s with sysrqKeys := false } else s

/-- The second part of `fio_do_exit`, when all devices are removed. -/
def fioDoExitPcidev (s : PciDriver δ) : PciDriver δ :=
  if s.fioInitState &&& fioInitStatePcidev ≠ 0#32 then { s with registered := false } else s

/-- The last part of `fio_do_exit`. -/
def fioDoExitIodrive (s : PciDriver δ) : PciDriver δ × List (PciEvent δ) :=
  if s.fioInitState &&& fioInitStateIodrive ≠ 0#32 then ({ s with library := false, fioInitState := 0#32 },
    [.cleaned])
  else ({ s with fioInitState := 0#32 }, [])

/-- The end of a `fio_do_init` that has failed. -/
def errorExit (s : PciDriver δ) (rc : Int) : PciDriver δ × Int × List (PciEvent δ) :=
  let (s, events) := s.fioDoExitKeys.fioDoExitPcidev.fioDoExitIodrive
  (s, if rc > 0 then -rc else rc, events)

/-- `fio_do_init`. A driver that could not be registered is unregistered nevertheless. -/
def fioDoInit (s : PciDriver δ) (iodriveInit register : Int) : PciDriver δ × Int × List (PciEvent δ) :=
  if iodriveInit ≠ 0 then s.errorExit iodriveInit
  else
    let s := { s with library := true, fioInitState := s.fioInitState ||| fioInitStateIodrive }
    if kfioPciRegisterDriver register < 0 then
      let (s, rc, events) := { s with registered := false }.errorExit (-enodev)
      (s, rc, .initialised :: events)
    else
      let s := { s with registered := true, fioInitState := s.fioInitState ||| fioInitStatePcidev }
      ({ s with sysrqKeys := true, fioInitState := s.fioInitState ||| fioInitStateSysrq }, 0, [.initialised])

/-- `init_fio_driver`. `FUSION_DEBUG` is defined in any case, by default as 0, so that blk-mq
is let through with a warning. -/
def initFioDriver (s : PciDriver δ) (useWorkqueue iodriveInit register : Int) :
    PciDriver δ × Int × List (PciEvent δ) :=
  if useWorkqueue = useQueueMq ∨ useWorkqueue = useQueueRq ∨ useWorkqueue = useQueueNone then
    s.fioDoInit iodriveInit register
  else
    (s, -1, [])

variable [DecidableEq δ]

def setDevice (s : PciDriver δ) (d : δ) (dev : PciDevice) : PciDriver δ :=
  { s with device := Function.update s.device d dev }

/-- The PCI core probes devices that are not bound while the driver is registered, binds
them when the probe succeeds, and removes them all to unregister the driver. -/
def step (s : PciDriver δ) : PciAction δ → Option (PciDriver δ × List (PciEvent δ))
  | .init useWorkqueue iodriveInit register =>
    if s.phase = .unloaded then
      let (s, rc, events) := s.initFioDriver useWorkqueue iodriveInit register
      some ({ s with phase := if rc = 0 then .loaded else .unloaded }, events ++ [.loaded rc])
    else none
  | .probe d answers =>
    if s.phase = .loaded ∧ s.registered ∧ d ∉ s.served then
      let (dev, result, events) := (s.device d).iodrivePciProbe d answers
      some ({ s.setDevice d dev with served := if 0 ≤ result then s.served ++ [d] else s.served },
        events ++ [.probed d result])
    else none
  | .remove d =>
    if (s.phase = .loaded ∨ s.phase = .unregistering) ∧ d ∈ s.served then
      let (dev, events) := (s.device d).iodrivePciOnRemove d
      some ({ s.setDevice d dev with served := s.served.erase d }, events)
    else none
  | .shutdown d =>
    if s.phase ≠ .unloaded ∧ d ∈ s.served then
      let (dev, events) := (s.device d).iodrivePciOnShutdown d
      some ({ s.setDevice d dev with served := s.served.erase d, phase := .down }, events)
    else none
  | .exit => if s.phase = .loaded then some ({ s.fioDoExitKeys with phase := .unregistering }, []) else none
  | .unregistered =>
    if s.phase = .unregistering ∧ s.served = [] then
      let (s, events) := s.fioDoExitPcidev.fioDoExitIodrive
      some ({ s with phase := .unloaded }, events)
    else none

/-- Regions that are requested cannot be requested again, and a DMA mask is set or
refused with a negative error. -/
def Allowed (s : PciDriver δ) : PciAction δ → Prop
  | .probe d answers => ((s.device d).regions = true → answers.regions < 0) ∧ answers.dmaMask ≤ 0
  | _ => True

instance (s : PciDriver δ) : DecidablePred s.Allowed
  | .probe d answers =>
    inferInstanceAs (Decidable (((s.device d).regions = true → answers.regions < 0) ∧ answers.dmaMask ≤ 0))
  | .init .. | .remove _ | .shutdown _ | .exit | .unregistered => .isTrue trivial

end PciDriver

/-- The life of the module. -/
abbrev PciReach {δ : Type} [DecidableEq δ] : PciDriver δ → List (PciEvent δ) → Prop :=
  Transition.Reach PciDriver.step PciDriver.Allowed PciDriver.initial

section Runs

variable {δ : Type} [DecidableEq δ]

/-- The library is called for a device only after `iodrive_init` and before `iodrive_cleanup`. -/
def CalledInside (before : List (PciEvent δ)) (event : PciEvent δ) : Prop :=
  (∃ d, event = .attached d ∨ event = .attachFailed d ∨ event = .detached d ∨ event = .shutDown d) →
    before.count .initialised = before.count .cleaned + 1

/-- What holds over the life of the module. A device has all it needs just while it is served,
but for the regions of one whose DMA mask was refused: it keeps them, and is never served again. -/
structure PciSound (s : PciDriver δ) (history : List (PciEvent δ)) : Prop where
  enabled : ∀ d, (s.device d).enabled = true ↔ d ∈ s.served
  master : ∀ d, (s.device d).master = true ↔ d ∈ s.served
  attached : ∀ d, (s.device d).attached = true ↔ d ∈ s.served
  regions : ∀ d, (s.device d).regions = true ↔ d ∈ s.served ∨ .noDma d ∈ history
  refused : ∀ d, .noDma d ∈ history → d ∉ s.served
  attaches : ∀ d, history.count (.attached d) =
    history.count (.detached d) + history.count (.shutDown d) + if d ∈ s.served then 1 else 0
  library : history.count .initialised = history.count .cleaned + if s.library then 1 else 0
  called : Historical CalledInside history
  unloaded : s.phase = .unloaded →
    s.served = [] ∧ s.registered = false ∧ s.sysrqKeys = false ∧ s.library = false ∧ s.fioInitState = 0#32

/-- The same with what keeps it. -/
structure PciDriver.Inv (s : PciDriver δ) (history : List (PciEvent δ)) : Prop extends PciSound s history where
  nodup : s.served.Nodup
  up : s.phase ≠ .unloaded → s.library = true ∧ s.fioInitState = 0xe#32
  keys : s.phase = .unregistering → s.sysrqKeys = false

/-- What a probe of a device that is not served can come to. -/
inductive Probed (dev : PciDevice) (d : δ) : PciDevice × Int × List (PciEvent δ) → Prop
  | undone {result} : result < 0 → Probed dev d (dev, result, [])
  | noDma {result} : result < 0 → dev.regions = false →
    Probed dev d ({ dev with regions := true }, result, [.noDma d])
  | attachFailed {result} : result < 0 → dev.regions = false → Probed dev d (dev, result, [.attachFailed d])
  | attached : dev.regions = false → Probed dev d (⟨true, true, true, true⟩, 0, [.attached d])

omit [DecidableEq δ] in
theorem iodrivePciProbe_probed {dev : PciDevice} {d : δ} {answers : ProbeAnswers} (off : dev.enabled = false)
    (quiet : dev.master = false) (free : dev.attached = false) (busy : dev.regions = true → answers.regions < 0)
    (mask : answers.dmaMask ≤ 0) : Probed dev d (dev.iodrivePciProbe d answers) := by
  obtain ⟨enabled, regions, master, attached⟩ := dev
  cases off
  cases quiet
  cases free
  rw [PciDevice.iodrivePciProbe]
  split
  · exact .undone (by decide)
  · split
    · rename_i refused
      exact .undone refused
    · split
      · rename_i taken
        exact .undone taken
      · rename_i given
        have unheld : regions = false := Bool.eq_false_iff.mpr fun held => given (busy held)
        cases unheld
        split
        · rename_i unmasked
          exact .noDma (by omega) rfl
        · split
          · rename_i failed
            exact .attachFailed failed rfl
          · exact .attached rfl

section Steps

variable {s t : PciDriver δ} {history events : List (PciEvent δ)} {d : δ}

theorem PciDriver.Inv.initial : (PciDriver.initial : PciDriver δ).Inv [] := by
  refine ⟨⟨?_, ?_, ?_, ?_, ?_, ?_, rfl, historical_nil _, fun _ => ⟨rfl, rfl, rfl, rfl, rfl⟩⟩, List.nodup_nil,
    fun loaded => absurd rfl loaded, fun never => by cases never⟩
  · exact fun d => iff_of_false Bool.false_ne_true List.not_mem_nil
  · exact fun d => iff_of_false Bool.false_ne_true List.not_mem_nil
  · exact fun d => iff_of_false Bool.false_ne_true List.not_mem_nil
  · exact fun d => iff_of_false Bool.false_ne_true (by rintro (never | never) <;> cases never)
  · exact fun d never => absurd never List.not_mem_nil
  · exact fun d => rfl

/-- The event is about the given device only. -/
inductive PciEvent.About (d : δ) : PciEvent δ → Prop
  | attached : About d (.attached d)
  | attachFailed : About d (.attachFailed d)
  | detached : About d (.detached d)
  | shutDown : About d (.shutDown d)
  | noDma : About d (.noDma d)

omit [DecidableEq δ] in
theorem PciEvent.About.other {event : PciEvent δ} {e : δ} (about : event.About d) (other : e ≠ d) :
    event ≠ .attached e ∧ event ≠ .detached e ∧ event ≠ .shutDown e ∧ event ≠ .noDma e := by
  cases about with
  | attached | attachFailed | detached | shutDown | noDma =>
    simp [other.symm]

omit [DecidableEq δ] in
theorem PciEvent.About.library {event : PciEvent δ} (about : event.About d) :
    event ≠ .initialised ∧ event ≠ .cleaned := by
  cases about with
  | attached | attachFailed | detached | shutDown | noDma => simp

theorem count_snoc_of_ne {event other : PciEvent δ} (different : event ≠ other) :
    (history ++ [event]).count other = history.count other := by
  rw [List.count_append, List.count_singleton, if_neg (by simpa using different), Nat.add_zero]

omit [DecidableEq δ] in
theorem mem_snoc_of_ne {event other : PciEvent δ} (different : event ≠ other) :
    other ∈ history ++ [event] ↔ other ∈ history := by
  rw [List.mem_append, List.mem_singleton, or_iff_left different.symm]

/-- Something happens with one device while the library is there. -/
theorem PciDriver.Inv.device {dev : PciDevice} {served : List δ} {phase : ModulePhase}
    {event : PciEvent δ} (inv : s.Inv history) (live : s.phase ≠ .unloaded)
    (still : phase = s.phase ∨ phase = .down) (about : event.About d) (nodup : served.Nodup)
    (others : ∀ e, e ≠ d → (e ∈ served ↔ e ∈ s.served)) (enabled : dev.enabled = true ↔ d ∈ served)
    (master : dev.master = true ↔ d ∈ served) (attached : dev.attached = true ↔ d ∈ served)
    (regions : dev.regions = true ↔ d ∈ served ∨ .noDma d ∈ history ++ [event])
    (refused : .noDma d ∈ history ++ [event] → d ∉ served)
    (attaches : (history ++ [event]).count (.attached d) = (history ++ [event]).count (.detached d) +
      (history ++ [event]).count (.shutDown d) + if d ∈ served then 1 else 0) :
    PciDriver.Inv { s.setDevice d dev with served := served, phase := phase } (history ++ [event]) := by
  have here : (s.setDevice d dev).device d = dev := Function.update_self ..
  have there {e : δ} (other : e ≠ d) : (s.setDevice d dev).device e = s.device e := Function.update_of_ne other ..
  have up := inv.up live
  have library := inv.library
  rw [up.1, if_pos rfl] at library
  refine ⟨⟨fun e => ?_, fun e => ?_, fun e => ?_, fun e => ?_, fun e => ?_, fun e => ?_, ?_, ?_, fun never => ?_⟩,
    nodup, fun _ => up, fun going => ?_⟩
  · show ((s.setDevice d dev).device e).enabled = true ↔ e ∈ served
    by_cases same : e = d
    · rw [same, here]
      exact enabled
    · rw [there same, others e same]
      exact inv.enabled e
  · show ((s.setDevice d dev).device e).master = true ↔ e ∈ served
    by_cases same : e = d
    · rw [same, here]
      exact master
    · rw [there same, others e same]
      exact inv.master e
  · show ((s.setDevice d dev).device e).attached = true ↔ e ∈ served
    by_cases same : e = d
    · rw [same, here]
      exact attached
    · rw [there same, others e same]
      exact inv.attached e
  · show ((s.setDevice d dev).device e).regions = true ↔ e ∈ served ∨ .noDma e ∈ history ++ [event]
    by_cases same : e = d
    · rw [same, here]
      exact regions
    · rw [there same, others e same, mem_snoc_of_ne (about.other same).2.2.2]
      exact inv.regions e
  · by_cases same : e = d
    · rw [same]
      exact refused
    · rw [others e same, mem_snoc_of_ne (about.other same).2.2.2]
      exact inv.refused e
  · by_cases same : e = d
    · rw [same]
      exact attaches
    · obtain ⟨noAttach, noDetach, noShutDown, _⟩ := about.other same
      rw [count_snoc_of_ne noAttach, count_snoc_of_ne noDetach, count_snoc_of_ne noShutDown,
        if_congr (others e same) rfl rfl]
      exact inv.attaches e
  · rw [count_snoc_of_ne about.library.1, count_snoc_of_ne about.library.2]
    exact inv.library
  · exact inv.called.snoc fun _ => library
  · dsimp only at never
    rcases still with rfl | rfl
    · exact absurd never live
    · cases never
  · dsimp only at going
    rcases still with rfl | rfl
    · exact inv.keys going
    · cases going

/-- An event that only tells what a call returned. -/
theorem PciDriver.Inv.told {event : PciEvent δ} (inv : s.Inv history)
    (plain : (∃ rc, event = .loaded rc) ∨ ∃ d rc, event = .probed d rc) : s.Inv (history ++ [event]) := by
  have noDma (e : δ) : event ≠ .noDma e := by rcases plain with ⟨rc, rfl⟩ | ⟨d, rc, rfl⟩ <;> simp
  have attached (e : δ) : event ≠ .attached e := by rcases plain with ⟨rc, rfl⟩ | ⟨d, rc, rfl⟩ <;> simp
  have detached (e : δ) : event ≠ .detached e := by rcases plain with ⟨rc, rfl⟩ | ⟨d, rc, rfl⟩ <;> simp
  have shutDown (e : δ) : event ≠ .shutDown e := by rcases plain with ⟨rc, rfl⟩ | ⟨d, rc, rfl⟩ <;> simp
  have initialised : event ≠ .initialised := by rcases plain with ⟨rc, rfl⟩ | ⟨d, rc, rfl⟩ <;> simp
  have cleaned : event ≠ .cleaned := by rcases plain with ⟨rc, rfl⟩ | ⟨d, rc, rfl⟩ <;> simp
  refine ⟨⟨inv.enabled, inv.master, inv.attached, fun e => ?_, fun e => ?_, fun e => ?_, ?_, ?_,
    inv.unloaded⟩, inv.nodup, inv.up,
    inv.keys⟩
  · rw [mem_snoc_of_ne (noDma e)]
    exact inv.regions e
  · rw [mem_snoc_of_ne (noDma e)]
    exact inv.refused e
  · rw [count_snoc_of_ne (attached e), count_snoc_of_ne (detached e), count_snoc_of_ne (shutDown e)]
    exact inv.attaches e
  · rw [count_snoc_of_ne initialised, count_snoc_of_ne cleaned]
    exact inv.library
  · refine inv.called.snoc fun ⟨d, about⟩ => ?_
    rcases plain with ⟨rc, rfl⟩ | ⟨e, rc, rfl⟩
    · simp at about
    · simp at about

theorem PciDriver.Inv.probe {answers : ProbeAnswers} (inv : s.Inv history) (loaded : s.phase = .loaded)
    (outside : d ∉ s.served) (allowed : s.Allowed (.probe d answers)) :
    PciDriver.Inv { s.setDevice d ((s.device d).iodrivePciProbe d answers).1 with
      served := if 0 ≤ ((s.device d).iodrivePciProbe d answers).2.1 then s.served ++ [d] else s.served }
      (history ++ ((s.device d).iodrivePciProbe d answers).2.2) := by
  have live : s.phase ≠ .unloaded := by
    rw [loaded]
    exact ModulePhase.noConfusion
  have enabled : (s.device d).enabled = false := Bool.eq_false_iff.mpr fun on => outside ((inv.enabled d).mp on)
  have master : (s.device d).master = false := Bool.eq_false_iff.mpr fun on => outside ((inv.master d).mp on)
  have attached : (s.device d).attached = false := Bool.eq_false_iff.mpr fun on => outside ((inv.attached d).mp on)
  have attaches := inv.attaches d
  rw [if_neg outside, Nat.add_zero] at attaches
  have probed := iodrivePciProbe_probed (d := d) enabled master attached allowed.1 allowed.2
  generalize (s.device d).iodrivePciProbe d answers = outcome at probed
  cases probed with
  | undone negative =>
    dsimp only
    rw [if_neg (by omega), PciDriver.setDevice, Function.update_eq_self, List.append_nil]
    exact inv
  | noDma negative unheld =>
    dsimp only
    rw [if_neg (by omega)]
    refine inv.device live (.inl rfl) .noDma inv.nodup (fun _ _ => Iff.rfl) ?_ ?_ ?_ ?_ (fun _ => outside) ?_
    · exact inv.enabled d
    · exact inv.master d
    · exact inv.attached d
    · exact iff_of_true rfl (.inr (List.mem_append_right _ (List.mem_singleton_self _)))
    · rw [if_neg outside, count_snoc_of_ne (by simp), count_snoc_of_ne (by simp), count_snoc_of_ne (by simp)]
      exact attaches
  | attachFailed negative unheld =>
    dsimp only
    rw [if_neg (by omega)]
    refine inv.device live (.inl rfl) .attachFailed inv.nodup (fun _ _ => Iff.rfl) (inv.enabled d)
      (inv.master d) (inv.attached d)
      ?_ (fun _ => outside) ?_
    · rw [mem_snoc_of_ne (by simp)]
      exact inv.regions d
    · rw [if_neg outside, count_snoc_of_ne (by simp), count_snoc_of_ne (by simp), count_snoc_of_ne (by simp)]
      exact attaches
  | attached unheld =>
    dsimp only
    rw [if_pos (by omega)]
    have now : d ∈ s.served ++ [d] := List.mem_append_right _ (List.mem_singleton_self d)
    have unmasked : .noDma d ∉ history := by
      intro masked
      have held := (inv.regions d).mpr (.inr masked)
      rw [unheld] at held
      cases held
    refine inv.device live (.inl rfl) .attached ?_ ?_ (iff_of_true rfl now) (iff_of_true rfl now)
      (iff_of_true rfl now)
      (iff_of_true rfl (.inl now)) ?_ ?_
    · exact List.nodup_append.mpr ⟨inv.nodup, List.nodup_singleton d, by
        rintro a here b single rfl
        exact outside (List.mem_singleton.mp single ▸ here)⟩
    · intro e other
      rw [List.mem_append, List.mem_singleton, or_iff_left other]
    · rw [mem_snoc_of_ne (by simp)]
      exact fun masked => absurd masked unmasked
    · rw [if_pos now, count_snoc_of_ne (by simp : PciEvent.attached d ≠ .detached d),
        count_snoc_of_ne (by simp : PciEvent.attached d ≠ .shutDown d), List.count_append,
          List.count_singleton_self]
      omega

/-- A device that is given up has nothing any more. -/
theorem PciDriver.Inv.drop {dev : PciDevice} {phase : ModulePhase} {event : PciEvent δ} (inv : s.Inv history)
    (live : s.phase ≠ .unloaded) (still : phase = s.phase ∨ phase = .down) (inside : d ∈ s.served)
    (which : event = .detached d ∨ event = .shutDown d) (nothing : dev = ⟨false, false, false, false⟩) :
    PciDriver.Inv { s.setDevice d dev with served := s.served.erase d, phase := phase } (history ++ [event]) := by
  have gone : d ∉ s.served.erase d := inv.nodup.not_mem_erase
  have attaches := inv.attaches d
  rw [if_pos inside] at attaches
  have about : event.About d := by
    rcases which with rfl | rfl
    · exact .detached
    · exact .shutDown
  have unmasked : .noDma d ∉ history ++ [event] := by
    have plain : event ≠ .noDma d := by rcases which with rfl | rfl <;> simp
    rw [mem_snoc_of_ne plain]
    exact fun masked => inv.refused d masked inside
  cases nothing
  refine inv.device live still about (inv.nodup.erase d) (fun e other => List.mem_erase_of_ne other)
    (iff_of_false Bool.false_ne_true gone) (iff_of_false Bool.false_ne_true gone)
    (iff_of_false Bool.false_ne_true gone)
    (iff_of_false Bool.false_ne_true (not_or.mpr ⟨gone, unmasked⟩)) (fun masked => absurd masked unmasked) ?_
  rw [if_neg gone]
  rcases which with rfl | rfl
  · rw [count_snoc_of_ne (by simp), count_snoc_of_ne (by simp : PciEvent.detached d ≠ .shutDown d),
      List.count_append,
      List.count_singleton_self]
    omega
  · rw [count_snoc_of_ne (by simp), count_snoc_of_ne (by simp : PciEvent.shutDown d ≠ .detached d),
      List.count_append,
      List.count_singleton_self]
    omega

/-- The module is loaded. -/
theorem PciDriver.Inv.load (inv : s.Inv history) (unloaded : s.phase = .unloaded) :
    PciDriver.Inv { s with
      phase := .loaded, fioInitState := 0xe#32, library := true, registered := true, sysrqKeys := true }
      (history ++ [.initialised]) := by
  obtain ⟨_, _, _, down, _⟩ := inv.unloaded unloaded
  have library := inv.library
  rw [down, if_neg Bool.false_ne_true] at library
  refine ⟨⟨inv.enabled, inv.master, inv.attached, fun e => ?_, fun e => ?_, fun e => ?_, ?_, ?_,
    fun never => by cases never⟩,
    inv.nodup, fun _ => ⟨rfl, rfl⟩, fun never => by cases never⟩
  · rw [mem_snoc_of_ne (by simp)]
    exact inv.regions e
  · rw [mem_snoc_of_ne (by simp)]
    exact inv.refused e
  · rw [count_snoc_of_ne (by simp), count_snoc_of_ne (by simp), count_snoc_of_ne (by simp)]
    exact inv.attaches e
  · rw [count_snoc_of_ne (by simp : PciEvent.initialised ≠ .cleaned), List.count_append,
      List.count_singleton_self, library]
    rfl
  · refine inv.called.snoc fun ⟨d, about⟩ => ?_
    simp at about

/-- The module is unloaded when it serves no device any more. -/
theorem PciDriver.Inv.unload (inv : s.Inv history) (live : s.phase ≠ .unloaded) (none : s.served = []) :
    PciDriver.Inv { s with
      phase := .unloaded, fioInitState := 0#32, library := false, registered := false, sysrqKeys := false }
      (history ++ [.cleaned]) := by
  have library := inv.library
  rw [(inv.up live).1, if_pos rfl] at library
  refine ⟨⟨inv.enabled, inv.master, inv.attached, fun e => ?_, fun e => ?_, fun e => ?_, ?_, ?_,
    fun _ => ⟨none, rfl, rfl, rfl, rfl⟩⟩, inv.nodup, fun never => absurd rfl never, fun never => by cases never⟩
  · rw [mem_snoc_of_ne (by simp)]
    exact inv.regions e
  · rw [mem_snoc_of_ne (by simp)]
    exact inv.refused e
  · rw [count_snoc_of_ne (by simp), count_snoc_of_ne (by simp), count_snoc_of_ne (by simp)]
    exact inv.attaches e
  · rw [count_snoc_of_ne (by simp : PciEvent.cleaned ≠ .initialised), List.count_append,
      List.count_singleton_self, library]
    rfl
  · refine inv.called.snoc fun ⟨d, about⟩ => ?_
    simp at about

/-- What loading the module can come to. -/
inductive Loading (s : PciDriver δ) : PciDriver δ × Int × List (PciEvent δ) → Prop
  | refused {rc} : rc ≠ 0 → Loading s (s, rc, [])
  | undone {rc} : rc ≠ 0 → Loading s (s, rc, [.initialised, .cleaned])
  | done : Loading s ({ s with fioInitState := 0xe#32, library := true, registered := true, sysrqKeys := true }, 0,
      [.initialised])

omit [DecidableEq δ] in
theorem initFioDriver_loading (useWorkqueue iodriveInit register : Int) (unregistered : s.registered = false)
    (noKeys : s.sysrqKeys = false) (noLibrary : s.library = false) (blank : s.fioInitState = 0#32) :
    Loading s (s.initFioDriver useWorkqueue iodriveInit register) := by
  obtain ⟨device, served, phase, fioInitState, library, registered, sysrqKeys⟩ := s
  obtain rfl : registered = false := unregistered
  obtain rfl : sysrqKeys = false := noKeys
  obtain rfl : library = false := noLibrary
  obtain rfl : fioInitState = 0#32 := blank
  rw [PciDriver.initFioDriver]
  split
  · rw [PciDriver.fioDoInit]
    split
    · rename_i failed
      have exited : (⟨device, served, phase, 0#32, false, false, false⟩ : PciDriver δ).errorExit iodriveInit =
          (⟨device, served, phase, 0#32, false, false, false⟩,
            if iodriveInit > 0 then -iodriveInit else iodriveInit, []) := by
        simp [PciDriver.errorExit, PciDriver.fioDoExitKeys, PciDriver.fioDoExitPcidev, PciDriver.fioDoExitIodrive]
      rw [exited]
      refine .refused ?_
      split
      · omega
      · exact failed
    · have first : 0#32 ||| fioInitStateIodrive = 0x2#32 := rfl
      have bits : 0x2#32 ||| fioInitStatePcidev ||| fioInitStateSysrq = 0xe#32 := rfl
      dsimp only
      rw [first]
      split
      · have exited : (⟨device, served, phase, 0x2#32, true, false, false⟩ : PciDriver δ).errorExit (-enodev) =
            (⟨device, served, phase, 0#32, false, false, false⟩, -enodev, [.cleaned]) := by
          simp [PciDriver.errorExit, PciDriver.fioDoExitKeys, PciDriver.fioDoExitPcidev, PciDriver.fioDoExitIodrive,
            fioInitStateSysrq, fioInitStatePcidev, fioInitStateIodrive, enodev]
        rw [exited]
        exact .undone (by decide : -enodev ≠ 0)
      · rw [bits]
        exact .done
  · exact .refused (by decide)

theorem PciDriver.Inv.step {action : PciAction δ} (inv : s.Inv history) (allowed : s.Allowed action)
    (run : s.step action = some (t, events)) : t.Inv (history ++ events) := by
  cases action with
  | init useWorkqueue iodriveInit register =>
    simp only [PciDriver.step] at run
    split at run
    · rename_i unloaded
      obtain ⟨_, unregistered, noKeys, noLibrary, blank⟩ := inv.unloaded unloaded
      have loading := initFioDriver_loading useWorkqueue iodriveInit register unregistered noKeys noLibrary blank
      generalize s.initFioDriver useWorkqueue iodriveInit register = outcome at run loading
      cases run
      rw [← List.append_assoc]
      refine PciDriver.Inv.told ?_ (.inl ⟨_, rfl⟩)
      cases loading with
      | refused failed =>
        dsimp only
        rw [if_neg failed, List.append_nil, ← unloaded]
        exact inv
      | undone failed =>
        have back := (inv.load unloaded).unload ModulePhase.noConfusion (inv.unloaded unloaded).1
        obtain ⟨device, served, phase, fioInitState, library, registered, sysrqKeys⟩ := s
        obtain rfl : registered = false := unregistered
        obtain rfl : sysrqKeys = false := noKeys
        obtain rfl : library = false := noLibrary
        obtain rfl : fioInitState = 0#32 := blank
        dsimp only
        rw [if_neg failed, List.append_cons]
        exact back
      | done => exact inv.load unloaded
    · cases run
  | probe d answers =>
    simp only [PciDriver.step] at run
    split at run
    · rename_i guard
      cases run
      rw [← List.append_assoc]
      exact (inv.probe guard.1 guard.2.2 allowed).told (.inr ⟨_, _, rfl⟩)
    · cases run
  | remove d =>
    simp only [PciDriver.step] at run
    split at run
    · rename_i guard
      cases run
      have live : s.phase ≠ .unloaded := by
        rcases guard.1 with phase | phase
        · rw [phase]
          exact ModulePhase.noConfusion
        · rw [phase]
          exact ModulePhase.noConfusion
      exact inv.drop live (.inl rfl) guard.2 (.inl rfl) rfl
    · cases run
  | shutdown d =>
    simp only [PciDriver.step] at run
    split at run
    · rename_i guard
      cases run
      exact inv.drop guard.1 (.inr rfl) guard.2 (.inr rfl) rfl
    · cases run
  | exit =>
    simp only [PciDriver.step] at run
    split at run
    · rename_i loaded
      cases run
      rw [List.append_nil]
      have live : s.phase ≠ .unloaded := by
        rw [loaded]
        exact ModulePhase.noConfusion
      have set : s.fioInitState &&& fioInitStateSysrq ≠ 0#32 := by
        rw [(inv.up live).2]
        decide
      rw [PciDriver.fioDoExitKeys, if_pos set]
      exact ⟨⟨inv.enabled, inv.master, inv.attached, inv.regions, inv.refused, inv.attaches, inv.library,
        inv.called,
        fun never => by cases never⟩, inv.nodup, fun _ => inv.up live, fun _ => rfl⟩
    · cases run
  | unregistered =>
    simp only [PciDriver.step] at run
    split at run
    · rename_i guard
      cases run
      have live : s.phase ≠ .unloaded := by
        rw [guard.1]
        exact ModulePhase.noConfusion
      have noKeys := inv.keys guard.1
      have pcidev : s.fioInitState &&& fioInitStatePcidev ≠ 0#32 := by
        rw [(inv.up live).2]
        decide
      have iodrive : s.fioInitState &&& fioInitStateIodrive ≠ 0#32 := by
        rw [(inv.up live).2]
        decide
      have done := inv.unload live guard.2
      rw [PciDriver.fioDoExitPcidev, if_pos pcidev, PciDriver.fioDoExitIodrive, if_pos iodrive]
      dsimp only
      rw [noKeys]
      exact done
    · cases run

/-- Whatever the library answers, and whatever the kernel does that refuses regions already requested
and sets a DMA mask or refuses it with a negative error, no device keeps anything it was given after
it was refused or removed, but for the regions of one whose DMA mask was refused; the library is
called for devices only between `iodrive_init` and `iodrive_cleanup`; and after unloading nothing
is left. -/
theorem pciReach_sound (reach : PciReach s history) : PciSound s history := by
  have inv : s.Inv history := reach.invariant PciDriver.Inv .initial fun _ inv allowed run => inv.step allowed run
  exact inv.toPciSound

end Steps

/-- A device whose DMA mask is refused, and one that is served until the module is unloaded. -/
def twoDevices : List (PciAction Nat) :=
  [.init useQueueNone 0 0, .probe 1 ⟨0, 0, 0, -5, 0⟩, .probe 2 ⟨0, 0, 0, 0, 0⟩, .probe 1 ⟨0, 0, -ebusy, 0, 0⟩,
    .exit, .remove 2, .unregistered]

theorem pciReach_sound_twoDevices : ∃ (s : PciDriver Nat) (history : List (PciEvent Nat)), PciReach s history ∧
    s.phase = .unloaded ∧ (s.device 1).regions = true ∧ (s.device 2).regions = false ∧ PciSound s history := by
  obtain ⟨s, history, reach, checked⟩ := Reach.of_check (fun _ _ => of_decide_eq_true)
    (fun last : PciDriver Nat × List (PciEvent Nat) => decide (last.1.phase = .unloaded ∧
      (last.1.device 1).regions = true ∧ (last.1.device 2).regions = false))
    (show (run PciDriver.step
      (fun s action => decide (s.Allowed action)) PciDriver.initial twoDevices).any _ = true by
      decide +kernel)
  obtain ⟨unloaded, kept, released⟩ := of_decide_eq_true checked
  exact ⟨s, history, reach, unloaded, kept, released, pciReach_sound reach⟩

end Runs

end IomemoryVsl
