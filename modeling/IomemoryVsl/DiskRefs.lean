import IomemoryVsl.Errno
import IomemoryVsl.MachineWord
import Mathlib.Algebra.BigOperators.Group.List.Basic
import Mathlib.Algebra.Ring.Nat
import Mathlib.Data.List.Induction
import Mathlib.Data.List.Infix

namespace IomemoryVsl

/-- A call into the parent device, with the result of `fio_bdev_open`. -/
inductive ParentCall
  | fioBdevOpen (retval : Int)
  | fioBdevRelease
  deriving DecidableEq, Repr

/-- What `kfio_open_disk` and `kfio_close_disk` use of a `struct kfio_disk`. The
queue is its `QUEUE_FLAG_DYING`, or nothing once `rq` is NULL. -/
structure KfioDisk where
  refCount : BitVec 32
  rq : Option Bool
  calls : List ParentCall
  /-- A NULL queue has been dereferenced. -/
  oops : Bool
  deriving DecidableEq, Repr

namespace KfioDisk

/-- A disk that has been exposed and not opened yet. -/
def exposed : KfioDisk := ⟨0#32, some false, [], false⟩

def call (disk : KfioDisk) (c : ParentCall) : KfioDisk := { disk with calls := disk.calls ++ [c] }

end KfioDisk

/-- `bdevOpen` is what `fio_bdev_open` returns if it is called. -/
def kfioOpenDisk (disk : KfioDisk) (bdevOpen : Int) : KfioDisk × Int :=
  match disk.rq with
  | none => ({ disk with oops := true }, -enxio)
  | some true => (disk, -enxio)
  | some false =>
    let disk := { disk with refCount := disk.refCount + 1#32 }
    if disk.refCount = 1#32 then
      let disk := disk.call (.fioBdevOpen bdevOpen)
      if bdevOpen ≠ 0 then
        ({ disk with refCount := disk.refCount - 1#32 }, bdevOpen)
      else
        (disk, bdevOpen)
    else
      (disk, 0)

/-- The broadcast to a waiting `linux_bdev_hide_disk` touches nothing modelled here. -/
def kfioCloseDisk (disk : KfioDisk) : KfioDisk :=
  let disk := { disk with refCount := disk.refCount - 1#32 }
  if disk.refCount = 0#32 then
    let disk := disk.call .fioBdevRelease
    match disk.rq with
    | none => { disk with oops := true }
    | some _ => disk
  else
    disk

def kfioDiskOpShutdown : BitVec 32 := 0x02#32

/-- What `linux_bdev_hide_disk` does to the references of an exposed disk.
`linuxBdev` tells whether `GET_BDEV` finds a block device. Without
`KFIO_DISK_OP_SHUTDOWN` it waits for the openers and leaves the count to them. -/
def linuxBdevHideDisk (disk : KfioDisk) (opflags : BitVec 32) (linuxBdev : Bool) : KfioDisk :=
  let disk := { disk with rq := some true }
  let disk :=
    if linuxBdev && opflags &&& kfioDiskOpShutdown != 0#32 then
      let disk := { disk with refCount := disk.refCount - 1#32 }
      if 0 < disk.refCount.toInt then disk.call .fioBdevRelease else disk
    else
      disk
  { disk with rq := none }

/-- The calls that the block layer makes before the disk is hidden. -/
inductive DiskCall
  | openDisk (bdevOpen : Int)
  | closeDisk
  deriving DecidableEq, Repr

/-- A disk with the number of opens that succeeded and were not closed yet. -/
structure OpenDisk where
  disk : KfioDisk
  outstanding : Nat
  deriving DecidableEq, Repr

namespace OpenDisk

/-- Each close matches an earlier successful open. -/
def step (s : OpenDisk) : DiskCall → Option OpenDisk
  | .openDisk bdevOpen =>
    let result := kfioOpenDisk s.disk bdevOpen
    some ⟨result.1, if result.2 = 0 then s.outstanding + 1 else s.outstanding⟩
  | .closeDisk => if s.outstanding = 0 then none else some ⟨kfioCloseDisk s.disk, s.outstanding - 1⟩

def run (calls : List DiskCall) : Option OpenDisk := calls.foldlM step ⟨.exposed, 0⟩

theorem run_snoc (calls : List DiskCall) (c : DiskCall) :
    run (calls ++ [c]) = (run calls).bind fun s => s.step c := by
  simp [run, List.foldlM_append]

end OpenDisk

/-- Some closes after the disk was hidden. -/
def closeAll : Nat → KfioDisk → KfioDisk
  | 0, disk => disk
  | closes + 1, disk => closeAll closes (kfioCloseDisk disk)

/-- One call seen by a parent device that is open or closed. A second open or a
second release is an error. -/
def parentStep (isOpen : Bool) : ParentCall → Option Bool
  | .fioBdevOpen retval => if retval ≠ 0 then some isOpen else if isOpen then none else some true
  | .fioBdevRelease => if isOpen then some false else none

/-- Whether the parent device is open after some calls, or nothing when
successful opens and releases do not alternate. -/
def parentOpen (calls : List ParentCall) : Option Bool := calls.foldlM parentStep false

theorem parentOpen_snoc (calls : List ParentCall) (c : ParentCall) :
    parentOpen (calls ++ [c]) = (parentOpen calls).bind fun isOpen => parentStep isOpen c := by
  simp [parentOpen, List.foldlM_append]

namespace OpenDisk

/-- Up to the hide the count is right as a machine word, and the parent device is
open exactly while the disk is. -/
structure Balanced (s : OpenDisk) : Prop where
  count : s.disk.refCount = BitVec.ofNat 32 s.outstanding
  alive : s.disk.rq = some false
  parent : parentOpen s.disk.calls = some (decide (0 < s.outstanding))

theorem Balanced.openDisk {s : OpenDisk} (balanced : s.Balanced) (bdevOpen : Int)
    (few : s.outstanding + 1 < 2 ^ 32) : ∀ t, s.step (.openDisk bdevOpen) = some t → t.Balanced := by
  intro t ran
  obtain ⟨⟨refCount, rq, calls, oops⟩, outstanding⟩ := s
  obtain ⟨count, alive, parent⟩ := balanced
  simp only at count alive parent few
  subst count alive
  simp only [step, kfioOpenDisk, Option.some.injEq] at ran
  subst ran
  have first : BitVec.ofNat 32 outstanding + 1#32 = 1#32 ↔ outstanding = 0 := by
    constructor
    · intro one
      have value := congrArg BitVec.toNat one
      simp only [BitVec.toNat_add, BitVec.toNat_ofNat] at value
      omega
    · rintro rfl
      rfl
  by_cases fresh : outstanding = 0
  · subst fresh
    by_cases fails : bdevOpen = 0
    · subst fails
      refine ⟨by simp [KfioDisk.call], by simp [KfioDisk.call], ?_⟩
      simp [KfioDisk.call, parentOpen_snoc, parent, parentStep]
    · refine ⟨by simp [KfioDisk.call, fails], by simp [KfioDisk.call, fails], ?_⟩
      simp [KfioDisk.call, parentOpen_snoc, parent, parentStep, fails]
  · simp only [first, fresh, if_false, if_true]
    have several : 0 < outstanding := Nat.pos_of_ne_zero fresh
    refine ⟨(BitVec.ofNat_add ..).symm, rfl, ?_⟩
    simpa [several] using parent

theorem Balanced.closeDisk {s : OpenDisk} (balanced : s.Balanced) (few : s.outstanding < 2 ^ 32) :
    ∀ t, s.step .closeDisk = some t → t.Balanced := by
  intro t ran
  obtain ⟨⟨refCount, rq, calls, oops⟩, outstanding⟩ := s
  obtain ⟨count, alive, parent⟩ := balanced
  simp only at count alive parent few
  subst count alive
  simp only [step] at ran
  split at ran
  · cases ran
  rename_i some
  cases ran
  obtain ⟨rest, rfl⟩ : ∃ n, outstanding = n + 1 := ⟨outstanding - 1, by omega⟩
  have drop : BitVec.ofNat 32 (rest + 1) - 1#32 = BitVec.ofNat 32 rest := by
    rw [BitVec.ofNat_add, BitVec.add_sub_cancel]
  have last : BitVec.ofNat 32 rest = 0#32 ↔ rest = 0 := by
    constructor
    · intro zero
      have value := congrArg BitVec.toNat zero
      simp only [BitVec.toNat_ofNat] at value
      omega
    · rintro rfl
      rfl
  simp only [kfioCloseDisk, drop, Nat.add_sub_cancel]
  by_cases empty : rest = 0
  · subst empty
    refine ⟨rfl, rfl, ?_⟩
    simp [KfioDisk.call, parentOpen_snoc, parent, parentStep]
  · simp only [last, empty, if_false]
    have several : 0 < rest := Nat.pos_of_ne_zero empty
    refine ⟨rfl, rfl, ?_⟩
    simpa [several] using parent

/-- At every moment of the calls the number of outstanding opens fits the counter. -/
def Fits (calls : List DiskCall) : Prop :=
  ∀ early late, calls = early ++ late → ∀ t, run early = some t → t.outstanding < 2 ^ 31

theorem run_balanced {calls : List DiskCall} {s : OpenDisk} (fits : Fits calls) (ran : run calls = some s) :
    s.Balanced := by
  induction calls using List.reverseRecOn generalizing s with
  | nil =>
    obtain rfl : (⟨.exposed, 0⟩ : OpenDisk) = s := Option.some.inj ran
    exact ⟨rfl, rfl, rfl⟩
  | append_singleton calls c ih =>
    rw [run_snoc] at ran
    obtain ⟨t, before, step⟩ := Option.bind_eq_some_iff.mp ran
    have balanced := ih (fun early late split => fits early (late ++ [c]) (by rw [split, List.append_assoc])) before
    have small := fits calls [c] rfl t before
    cases c with
    | openDisk bdevOpen => exact balanced.openDisk bdevOpen (by omega) s step
    | closeDisk => exact balanced.closeDisk (by omega) s step

end OpenDisk

/-- Closing a hidden disk releases the parent device once, when the count passes zero. -/
theorem closeAll_calls {closes m : Nat} {calls : List ParentCall} {oops : Bool} (small : m < 2 ^ 31)
    (most : closes ≤ m + 1) :
    (closeAll closes ⟨BitVec.ofNat 32 m, none, calls, oops⟩).calls =
      if 0 < m ∧ m ≤ closes then calls ++ [.fioBdevRelease] else calls := by
  induction closes generalizing m calls oops with
  | zero =>
    have never : ¬(0 < m ∧ m ≤ 0) := by omega
    rw [if_neg never]
    rfl
  | succ closes ih =>
    cases m with
    | zero =>
      obtain rfl : closes = 0 := by omega
      rfl
    | succ m =>
      have drop : BitVec.ofNat 32 (m + 1) - 1#32 = BitVec.ofNat 32 m := by
        rw [BitVec.ofNat_add, BitVec.add_sub_cancel]
      simp only [closeAll, kfioCloseDisk, drop]
      by_cases empty : m = 0
      · subst empty
        have now : 0 < 0 + 1 ∧ 0 + 1 ≤ closes + 1 := by omega
        rw [if_pos now]
        exact ih (m := 0) (by omega) (by omega)
      · have nonzero : BitVec.ofNat 32 m ≠ 0#32 := by
          intro zero
          have value := congrArg BitVec.toInt zero
          rw [MachineWord.toInt_ofNat (by omega)] at value
          simp at value
          omega
        simp only [nonzero, if_false]
        rw [ih (by omega) (by omega)]
        have same : (0 < m ∧ m ≤ closes) ↔ (0 < m + 1 ∧ m + 1 ≤ closes + 1) := by omega
        simp only [same]

/-- The hidden disk, when there is a block device for it. -/
theorem linuxBdevHideDisk_shutdown {s : OpenDisk} {opflags : BitVec 32} (balanced : s.Balanced)
    (small : s.outstanding < 2 ^ 31) (shutdown : opflags &&& kfioDiskOpShutdown ≠ 0#32) :
    linuxBdevHideDisk s.disk opflags true = ⟨BitVec.ofNat 32 s.outstanding - 1#32, none,
      if 2 ≤ s.outstanding then s.disk.calls ++ [.fioBdevRelease] else s.disk.calls, s.disk.oops⟩ := by
  obtain ⟨⟨refCount, rq, calls, oops⟩, outstanding⟩ := s
  obtain ⟨count, _, _⟩ := balanced
  simp only at count small ⊢
  subst count
  have positive : 0 < (BitVec.ofNat 32 outstanding - 1#32).toInt ↔ 2 ≤ outstanding := by
    cases outstanding with
    | zero => decide
    | succ n =>
      rw [BitVec.ofNat_add, BitVec.add_sub_cancel, MachineWord.toInt_ofNat (by omega)]
      omega
  simp only [linuxBdevHideDisk, bne_iff_ne.mpr shutdown, Bool.and_self, if_true, positive]
  split <;> rfl

/-- The parent-device references over the life of a disk: the calls up to the
hide, the hide itself and the closes that come after it. -/
structure ReferencesBalance (before : List DiskCall) (hidden : KfioDisk) (closes : Nat) : Prop where
  counts : ∀ early late, before = early ++ late → ∀ t, OpenDisk.run early = some t →
    t.disk.refCount.toInt = t.outstanding
  released : parentOpen hidden.calls = some false
  alternates : (parentOpen (closeAll closes hidden).calls).isSome = true

theorem counts_iff_fits {before : List DiskCall} :
    (∀ early late, before = early ++ late → ∀ t, OpenDisk.run early = some t →
      t.disk.refCount.toInt = t.outstanding) ↔ OpenDisk.Fits before := by
  constructor
  · intro counts early late split t ran
    have count := counts early late split t ran
    have bound := BitVec.two_mul_toInt_lt (x := t.disk.refCount)
    omega
  · intro fits early late split t ran
    have prior : OpenDisk.Fits early := fun first second parts =>
      fits first (second ++ late) (by rw [split, parts, List.append_assoc])
    have few := fits early late split t ran
    rw [(OpenDisk.run_balanced prior ran).count, MachineWord.toInt_ofNat (by omega)]

/-- A hide that releases nothing is right for a closed disk only. -/
theorem balance_unreleased_iff {before : List DiskCall} {s : OpenDisk} {hidden : KfioDisk} {closes : Nat}
    (fits : OpenDisk.Fits before) (ran : OpenDisk.run before = some s) (same : hidden.calls = s.disk.calls)
    (matched : closes ≤ s.outstanding) : ReferencesBalance before hidden closes ↔ s.outstanding = 0 := by
  have parent := (OpenDisk.run_balanced fits ran).parent
  constructor
  · intro balance
    have released := balance.released
    rw [same, parent] at released
    simpa using released
  · intro none
    obtain rfl : closes = 0 := by omega
    refine ⟨counts_iff_fits.mpr fits, ?_, ?_⟩
    · rw [same, parent, none]
      rfl
    · rw [closeAll, same, parent]
      rfl

/-- A hide that releases the one open leaves the count at `m`, so `m` closes later
the parent device is released once more. -/
theorem balance_released_iff {before : List DiskCall} {hidden : KfioDisk} {calls : List ParentCall} {oops : Bool}
    {closes m : Nat} (fits : OpenDisk.Fits before) (isOpen : parentOpen calls = some true) (some : 0 < m)
    (small : m < 2 ^ 31) (matched : closes ≤ m + 1)
    (state : hidden = ⟨BitVec.ofNat 32 m, none, calls ++ [.fioBdevRelease], oops⟩) :
    ReferencesBalance before hidden closes ↔ closes < m := by
  have released : parentOpen (calls ++ [.fioBdevRelease]) = .some false := by
    simp [parentOpen_snoc, isOpen, parentStep]
  have later : (closeAll closes hidden).calls =
      if 0 < m ∧ m ≤ closes then calls ++ [.fioBdevRelease] ++ [.fioBdevRelease]
      else calls ++ [.fioBdevRelease] := by
    rw [state]
    exact closeAll_calls small matched
  constructor
  · intro balance
    by_contra last
    have alternates := balance.alternates
    rw [later, if_pos (by omega), parentOpen_snoc, released] at alternates
    simp [parentStep] at alternates
  · intro early
    refine ⟨counts_iff_fits.mpr fits, ?_, ?_⟩
    · rw [state]
      exact released
    · rw [later, if_neg (by omega), released]
      rfl

/-- The references balance exactly when the count never overflows and the disk is
either closed when it is hidden, or has a block device, at least two openers, and
fewer closes to come than would bring the count to zero again. -/
theorem disk_references_balance_iff {before : List DiskCall} {s : OpenDisk} {opflags : BitVec 32}
    {linuxBdev : Bool} {closes : Nat} (ran : OpenDisk.run before = some s)
    (shutdown : opflags &&& kfioDiskOpShutdown ≠ 0#32) (matched : closes ≤ s.outstanding) :
    ReferencesBalance before (linuxBdevHideDisk s.disk opflags linuxBdev) closes ↔
      OpenDisk.Fits before ∧ (s.outstanding = 0 ∨
        linuxBdev = true ∧ 2 ≤ s.outstanding ∧ closes + 1 < s.outstanding) := by
  by_cases fits : OpenDisk.Fits before
  swap
  · exact ⟨fun balance => absurd (counts_iff_fits.mp balance.counts) fits, fun both => absurd both.1 fits⟩
  have balanced := OpenDisk.run_balanced fits ran
  have small := fits before [] (List.append_nil _).symm s ran
  simp only [fits, true_and]
  cases linuxBdev with
  | false =>
    have same : (linuxBdevHideDisk s.disk opflags false).calls = s.disk.calls := by
      simp [linuxBdevHideDisk]
    rw [balance_unreleased_iff fits ran same matched]
    simp
  | true =>
    simp only [true_and]
    have hidden := linuxBdevHideDisk_shutdown balanced small shutdown
    rcases Nat.lt_or_ge s.outstanding 2 with few | many
    · rw [if_neg (by omega)] at hidden
      rw [balance_unreleased_iff fits ran (by rw [hidden]) matched]
      omega
    · obtain ⟨m, more⟩ : ∃ m, s.outstanding = m + 1 := ⟨s.outstanding - 1, by omega⟩
      have isOpen : parentOpen s.disk.calls = some true := by
        rw [balanced.parent, decide_eq_true (by omega)]
      rw [if_pos many, more, BitVec.ofNat_add, BitVec.add_sub_cancel] at hidden
      rw [balance_released_iff fits isOpen (by omega) (by omega) (by omega) hidden]
      omega

/-- Three openers at shutdown, one of which closes later. -/
theorem disk_references_balance_three :
    ∃ s, OpenDisk.run [.openDisk 0, .openDisk 0, .openDisk 0] = some s ∧
      0x02#32 &&& kfioDiskOpShutdown ≠ 0#32 ∧ 1 ≤ s.outstanding ∧
      (ReferencesBalance [.openDisk 0, .openDisk 0, .openDisk 0] (linuxBdevHideDisk s.disk 0x02#32 true) 1 ↔
        OpenDisk.Fits [.openDisk 0, .openDisk 0, .openDisk 0] ∧ (s.outstanding = 0 ∨
          true = true ∧ 2 ≤ s.outstanding ∧ 1 + 1 < s.outstanding)) :=
  ⟨_, rfl, by decide, by decide, disk_references_balance_iff rfl (by decide) (by decide)⟩

/-- A single opener is forgotten: the count falls to zero, which is not positive,
and the parent device stays open after the shutdown. -/
theorem disk_references_single_opener :
    ¬∀ (before : List DiskCall) (s : OpenDisk) (closes : Nat), OpenDisk.run before = some s →
      closes ≤ s.outstanding → ReferencesBalance before (linuxBdevHideDisk s.disk 0x02#32 true) closes := by
  intro always
  have released := (always [.openDisk 0] _ 0 rfl (by decide)).released
  exact absurd released (by decide)

end IomemoryVsl
