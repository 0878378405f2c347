import IomemoryVsl.DiskRefs
import Mathlib.Data.List.Count

namespace IomemoryVsl

/-- What an allocator of the block layer returns: NULL, an `ERR_PTR` or an object. -/
inductive ErrPtr (α : Type)
  | null
  | err
  | obj (x : α)
  deriving DecidableEq, Repr

namespace ErrPtr

variable {α : Type}

/-- Reading or writing through a pointer. A NULL or an `ERR_PTR` faults. -/
def deref : ErrPtr α → Option α
  | obj x => some x
  | _ => none

@[simp] theorem deref_obj (x : α) : (obj x).deref = some x := rfl

@[simp] theorem deref_null : (null : ErrPtr α).deref = none := rfl

@[simp] theorem deref_err : (err : ErrPtr α).deref = none := rfl

theorem eq_obj_of_deref {p : ErrPtr α} {x : α} (found : p.deref = some x) : p = obj x := by
  cases p with
  | null => cases found
  | err => cases found
  | obj y => rw [Option.some.inj found]

end ErrPtr

/-- A queue that came with a gendisk, or one that was allocated alone. -/
inductive RequestQueue
  | ofDisk (n : Nat)
  | alone (n : Nat)
  deriving DecidableEq, Repr

/-- What one expose can allocate. The numbers are those of the calls. -/
inductive BlkObject
  | gendisk (n : Nat)
  | queue (rq : RequestQueue)
  | param (n : Nat)
  deriving DecidableEq, Repr

structure Gendisk where
  serial : Nat
  queue : ErrPtr RequestQueue
  deriving DecidableEq, Repr

/-- What `linux_bdev_expose_disk` and `linux_bdev_hide_disk` use of a `struct
kfio_disk`, with the bios of its list. -/
structure KfioBlkDisk where
  gd : ErrPtr Gendisk
  rq : ErrPtr RequestQueue
  useWorkqueue : Int
  bios : List Nat
  refCount : BitVec 32
  deriving DecidableEq, Repr

/-- The disk as `linux_bdev_create_disk` makes it. -/
def linuxBdevCreateDisk (useWorkqueue : Int) : KfioBlkDisk := ⟨.null, .null, useWorkqueue, [], 0#32⟩

/-- The disk with the two pointers as `linux_bdev_create_disk` sets them. -/
def KfioBlkDisk.unexposed (disk : KfioBlkDisk) : KfioBlkDisk := { disk with gd := .null, rq := .null }

/-- What the driver does to the block layer and to its memory. -/
inductive BlkEvent
  | allocated (object : BlkObject)
  | released (object : BlkObject)
  | addDisk (gd : Nat)
  | delGendisk (gd : Nat)
  | blkMqFreeTagSet
  | bioComplete (bio : Nat)
  | fioBdevRelease
  deriving DecidableEq, Repr

/-- The three ways of `kblock_meta.h` to allocate a disk: `blk_alloc_disk`, the
same with queue limits, and `alloc_disk` with a queue from `blk_alloc_queue`. -/
inductive BlkAllocDisk
  | blkAllocDisk
  | blkAllocDiskQueueLimits
  | allocDisk
  deriving DecidableEq, Repr

namespace BlkAllocDisk

/-- What `BLK_ALLOC_DISK` is when there is no memory. -/
def failure : BlkAllocDisk → ErrPtr Gendisk
  | blkAllocDiskQueueLimits => .err
  | _ => .null

def withQueue : BlkAllocDisk → Bool
  | allocDisk => false
  | _ => true

end BlkAllocDisk

/-- The kernel the driver is built for. Kernels differ in whether the last
`put_disk` of a disk that was never added drops its queue too. -/
structure BlkKernel where
  allocDisk : BlkAllocDisk
  putDropsQueue : Bool
  deriving DecidableEq, Repr

def useQueueNone : Int := 0

def useQueueRq : Int := 3

def useQueueMq : Int := 4

def kfioDiskOpForce : BitVec 32 := 0x04#32

/-- What a call of `linux_bdev_expose_disk` meets: the module parameter
`use_workqueue`, which allocations fail, and what `GET_BDEV` finds. -/
structure ExposeCall where
  useWorkqueue : Int
  diskFails : Bool
  queueFails : Bool
  paramFails : Bool
  linuxBdev : Bool
  serial : Nat
  deriving DecidableEq, Repr

/-- A call on a disk, with what it did so far. -/
structure BlkCall where
  disk : KfioBlkDisk
  events : List BlkEvent
  deriving DecidableEq, Repr

namespace BlkCall

def emit (c : BlkCall) (events : List BlkEvent) : BlkCall := { c with events := c.events ++ events }

def setGd (c : BlkCall) (gd : ErrPtr Gendisk) : BlkCall := { c with disk := { c.disk with gd } }

def setRq (c : BlkCall) (rq : ErrPtr RequestQueue) : BlkCall := { c with disk := { c.disk with rq } }

section Fields

variable (c : BlkCall) (gd : ErrPtr Gendisk) (rq : ErrPtr RequestQueue) (events : List BlkEvent)

@[simp] theorem setGd_gd : (c.setGd gd).disk.gd = gd := rfl

@[simp] theorem setGd_rq : (c.setGd gd).disk.rq = c.disk.rq := rfl

@[simp] theorem setGd_events : (c.setGd gd).events = c.events := rfl

@[simp] theorem setRq_gd : (c.setRq rq).disk.gd = c.disk.gd := rfl

@[simp] theorem setRq_rq : (c.setRq rq).disk.rq = rq := rfl

@[simp] theorem setRq_events : (c.setRq rq).events = c.events := rfl

@[simp] theorem emit_disk : (c.emit events).disk = c.disk := rfl

@[simp] theorem emit_events : (c.emit events).events = c.events ++ events := rfl

end Fields

/-- `put_disk`. -/
def putDisk (k : BlkKernel) (gd : Gendisk) (c : BlkCall) : BlkCall :=
  c.emit (.released (.gendisk gd.serial) ::
    match k.putDropsQueue, gd.queue with
    | true, .obj queue => [.released (.queue queue)]
    | _, _ => [])

/-- Fails all bios of the internal list, which the other queue modes do not use. -/
def failBios (c : BlkCall) : BlkCall :=
  if c.disk.useWorkqueue ≠ useQueueRq ∧ c.disk.useWorkqueue ≠ useQueueMq then
    { disk := { c.disk with bios := [] }, events := c.events ++ c.disk.bios.map .bioComplete }
  else
    c

/-- What happens to the reference count once the disk is deleted. Without
`KFIO_DISK_OP_SHUTDOWN` the openers are waited for. -/
def dropReference (opflags : BitVec 32) (linuxBdev : Bool) (c : BlkCall) : BlkCall :=
  if linuxBdev && opflags &&& kfioDiskOpShutdown != 0#32 then
    let c := { c with disk := { c.disk with refCount := c.disk.refCount - 1#32 } }
    if 0 < c.disk.refCount.toInt then c.emit [.fioBdevRelease] else c
  else
    c

/-- The part of `linux_bdev_hide_disk` for a disk with a gendisk. It reads the
gendisk for `GET_BDEV` and marks the queue as dying before anything else. -/
def hideGendisk (k : BlkKernel) (opflags : BitVec 32) (linuxBdev : Bool) (c : BlkCall) : Option BlkCall :=
  if c.disk.gd ≠ .null then do
    let gd ← c.disk.gd.deref
    let _ ← c.disk.rq.deref
    let c := c.failBios
    let c := c.emit [.delGendisk gd.serial]
    let c := c.dropReference opflags linuxBdev
    let c := c.putDisk k gd
    some (c.setGd .null)
  else
    some c

/-- The part for a disk with a queue. The call of `blk_cleanup_queue` is commented
out, and `useWorkqueue` is the module parameter. -/
def hideQueue (useWorkqueue : Int) (c : BlkCall) : BlkCall :=
  if c.disk.rq ≠ .null then
    (if useWorkqueue = useQueueMq then c.emit [.blkMqFreeTagSet] else c).setRq .null
  else
    c

def linuxBdevHideDisk (k : BlkKernel) (useWorkqueue : Int) (opflags : BitVec 32) (linuxBdev : Bool)
    (c : BlkCall) : Option BlkCall :=
  (c.hideGendisk k opflags linuxBdev).map fun c => c.hideQueue useWorkqueue

/-- `BLK_ALLOC_DISK`, stored in the disk. -/
def blkAllocDisk (k : BlkKernel) (call : ExposeCall) (c : BlkCall) : BlkCall :=
  if call.diskFails then
    c.setGd k.allocDisk.failure
  else if k.allocDisk.withQueue then
    (c.setGd (.obj ⟨call.serial, .obj (.ofDisk call.serial)⟩)).emit
      [.allocated (.gendisk call.serial), .allocated (.queue (.ofDisk call.serial))]
  else
    (c.setGd (.obj ⟨call.serial, .null⟩)).emit [.allocated (.gendisk call.serial)]

/-- `BLK_MQ_ALLOC_QUEUE`, stored in the disk. -/
def blkMqAllocQueue (call : ExposeCall) (c : BlkCall) : BlkCall :=
  if call.queueFails then
    c.setRq .err
  else
    (c.setRq (.obj (.alone call.serial))).emit [.allocated (.queue (.alone call.serial))]

/-- `kfio_alloc_queue`, with its result stored in the disk. It writes to the queue
unless it is NULL. -/
def kfioAllocQueue (k : BlkKernel) (call : ExposeCall) (c : BlkCall) : Option BlkCall := do
  if k.allocDisk.withQueue then
    let gd ← c.disk.gd.deref
    if gd.queue ≠ .null then
      let _ ← gd.queue.deref
    some (c.setRq gd.queue)
  else if call.queueFails then
    some (c.setRq .null)
  else
    some ((c.setRq (.obj (.alone call.serial))).emit [.allocated (.queue (.alone call.serial))])

/-- The label `err` of `linux_bdev_expose_disk`. -/
def exposeErr (k : BlkKernel) (call : ExposeCall) (c : BlkCall) : Option (Int × BlkCall) :=
  (c.linuxBdevHideDisk k call.useWorkqueue (kfioDiskOpShutdown ||| kfioDiskOpForce) call.linuxBdev).map fun c =>
    (-enomem, c)

/-- What follows the switch of `linux_bdev_expose_disk`: the limits and flags of the
queue, the test of the gendisk, its fields, and `add_disk` in a worker thread. -/
def exposeQueue (k : BlkKernel) (call : ExposeCall) (c : BlkCall) : Option (Int × BlkCall) := do
  let gd ← c.disk.gd.deref
  let rq := if gd.queue ≠ .null then gd.queue else c.disk.rq
  let _ ← rq.deref
  if c.disk.gd = .null then
    c.exposeErr k call
  else
    let gd := { gd with queue := rq }
    let c := c.setGd (.obj gd)
    if call.paramFails then
      ((c.putDisk k gd).setGd .null).exposeErr k call
    else
      some (0, c.emit [.allocated (.param call.serial), .addDisk gd.serial, .released (.param call.serial)])

end BlkCall

/-- On a disk that `linux_bdev_create_disk` made, so that `bdev_gd` is not NULL. -/
def linuxBdevExposeDisk (k : BlkKernel) (call : ExposeCall) (disk : KfioBlkDisk) : Option (Int × BlkCall) := do
  let c := BlkCall.blkAllocDisk k call ⟨disk, []⟩
  if call.useWorkqueue = useQueueMq then
    let c := c.blkMqAllocQueue call
    if c.disk.rq = .err then c.exposeErr k call else c.exposeQueue k call
  else if call.useWorkqueue = useQueueNone then
    let c ← c.kfioAllocQueue k call
    if c.disk.rq = .err then c.exposeErr k call else c.exposeQueue k call
  else
    c.exposeErr k call

/-- Everything that was allocated has been released, and only once. -/
def ReleasedOnce (events : List BlkEvent) : Prop :=
  ∀ object, .allocated object ∈ events → events.count (.released object) = 1

def DeletesAdded (events : List BlkEvent) : Prop := ∀ gd, .delGendisk gd ∈ events → .addDisk gd ∈ events

/-- A call on the disk that added its gendisk, or failed and left the disk as it was. -/
def CleanResult (disk : KfioBlkDisk) (result : Option (Int × BlkCall)) : Prop :=
  ∃ rc c, result = some (rc, c) ∧ DeletesAdded c.events ∧
    (rc = 0 ∧ (∃ gd, c.disk.gd = .obj gd ∧ .addDisk gd.serial ∈ c.events) ∨
      rc < 0 ∧ c.disk.gd = .null ∧ c.disk.rq = .null ∧ c.disk = disk ∧ ReleasedOnce c.events)

/-- The expose does not fault, and a failure of it leaves nothing behind. -/
def LeavesNothing (k : BlkKernel) (call : ExposeCall) (disk : KfioBlkDisk) : Prop :=
  CleanResult disk (linuxBdevExposeDisk k call disk)

/-- When an expose can clean up after itself. Once it has a gendisk the queue has to
follow, and `put_disk` has to drop that queue if there is no memory for the work. -/
def ExposeCall.CleansUp (k : BlkKernel) (call : ExposeCall) : Prop :=
  if call.diskFails then
    k.allocDisk.failure = .null ∧ call.useWorkqueue ≠ useQueueNone ∧
      (call.useWorkqueue = useQueueMq → call.queueFails)
  else if call.useWorkqueue = useQueueMq then
    ¬ call.queueFails ∧ (call.paramFails → ¬ k.allocDisk.withQueue ∧ k.putDropsQueue)
  else
    call.useWorkqueue = useQueueNone ∧ (call.queueFails → k.allocDisk.withQueue) ∧
      (call.paramFails → k.putDropsQueue)

theorem BlkAllocDisk.failure_deref (a : BlkAllocDisk) : a.failure.deref = none := by
  cases a <;> rfl

theorem not_cleanResult_none (disk : KfioBlkDisk) : ¬ CleanResult disk none := by
  rintro ⟨rc, c, same, _⟩
  cases same

namespace BlkCall

variable {k : BlkKernel} {call : ExposeCall} {c : BlkCall}

/-- Without a gendisk the cleanup forgets the queue, and frees the tag set at most. -/
theorem exposeErr_null (k : BlkKernel) (call : ExposeCall) (noGendisk : c.disk.gd = .null) :
    ∃ tags, (∀ event ∈ tags, event = .blkMqFreeTagSet) ∧
      c.exposeErr k call = some (-enomem, ⟨c.disk.unexposed, c.events ++ tags⟩) := by
  obtain ⟨⟨gd, rq, mode, bios, refCount⟩, events⟩ := c
  simp only at noGendisk
  subst noGendisk
  by_cases noQueue : rq = .null
  · exact ⟨[], nofun, by
      simp [exposeErr, linuxBdevHideDisk, hideGendisk, hideQueue, KfioBlkDisk.unexposed, noQueue]⟩
  · by_cases mq : call.useWorkqueue = useQueueMq
    · exact ⟨[.blkMqFreeTagSet], fun event member => List.mem_singleton.mp member, by
        simp [exposeErr, linuxBdevHideDisk, hideGendisk, hideQueue, setRq, emit, KfioBlkDisk.unexposed, noQueue, mq]⟩
    · exact ⟨[], nofun, by
        simp [exposeErr, linuxBdevHideDisk, hideGendisk, hideQueue, setRq, KfioBlkDisk.unexposed, noQueue, mq]⟩

/-- A cleanup that finds something in `gd` uses both pointers. -/
theorem exposeErr_faults (gendisk : c.disk.gd ≠ .null)
    (failed : c.disk.gd.deref = none ∨ c.disk.rq.deref = none) : c.exposeErr k call = none := by
  rcases failed with failed | failed
  · simp [exposeErr, linuxBdevHideDisk, hideGendisk, gendisk, failed]
  · cases found : c.disk.gd.deref with
    | none => simp [exposeErr, linuxBdevHideDisk, hideGendisk, gendisk, found]
    | some gd => simp [exposeErr, linuxBdevHideDisk, hideGendisk, gendisk, found, failed]

theorem exposeQueue_faults (failed : c.disk.gd.deref = none) : c.exposeQueue k call = none := by
  simp [exposeQueue, failed]

/-- A gendisk without a queue of its own, and no queue allocated for it. -/
theorem exposeQueue_no_queue {gd : Gendisk} (gendisk : c.disk.gd = .obj gd) (bare : gd.queue = .null)
    (failed : c.disk.rq.deref = none) : c.exposeQueue k call = none := by
  simp [exposeQueue, gendisk, bare, failed]

theorem putDisk_obj (n : Nat) (queue : RequestQueue) :
    c.putDisk k ⟨n, .obj queue⟩ =
      c.emit (.released (.gendisk n) :: if k.putDropsQueue then [.released (.queue queue)] else []) := by
  cases drops : k.putDropsQueue <;> simp [putDisk, drops]

section Found

variable {gd : Gendisk} {queue : RequestQueue}

theorem exposeQueue_added (gendisk : c.disk.gd = .obj gd)
    (found : (if gd.queue ≠ .null then gd.queue else c.disk.rq) = .obj queue) (memory : call.paramFails = false) :
    c.exposeQueue k call = some (0, (c.setGd (.obj ⟨gd.serial, .obj queue⟩)).emit
      [.allocated (.param call.serial), .addDisk gd.serial, .released (.param call.serial)]) := by
  simp only [exposeQueue, gendisk, ErrPtr.deref_obj, Option.bind_eq_bind, Option.bind_some, found, memory]
  simp

/-- No memory for the work. The gendisk is put and the cleanup does not see it. -/
theorem exposeQueue_no_param (gendisk : c.disk.gd = .obj gd)
    (found : (if gd.queue ≠ .null then gd.queue else c.disk.rq) = .obj queue) (failed : call.paramFails = true) :
    ∃ tags, (∀ event ∈ tags, event = .blkMqFreeTagSet) ∧
      c.exposeQueue k call = some (-enomem,
        ⟨c.disk.unexposed, c.events ++ (BlkEvent.released (.gendisk gd.serial) ::
          (if k.putDropsQueue then [BlkEvent.released (.queue queue)] else []) ++ tags)⟩) := by
  obtain ⟨tags, plain, cleaned⟩ := exposeErr_null k call
    (c := ((c.setGd (.obj ⟨gd.serial, .obj queue⟩)).putDisk k ⟨gd.serial, .obj queue⟩).setGd .null) rfl
  refine ⟨tags, plain, ?_⟩
  simp only [exposeQueue, gendisk, ErrPtr.deref_obj, Option.bind_eq_bind, Option.bind_some, found, failed]
  simp only [reduceCtorEq, if_false, if_true, cleaned]
  rw [putDisk_obj]
  simp only [setGd, emit, KfioBlkDisk.unexposed, List.append_assoc]

end Found

end BlkCall

section Released

variable {objects : List BlkObject} {n : Nat} {queue : RequestQueue} {drops : Bool} {tags : List BlkEvent}

theorem count_released_tags (plain : ∀ event ∈ tags, event = .blkMqFreeTagSet) (object : BlkObject) :
    tags.count (.released object) = 0 := by
  refine List.count_eq_zero.mpr fun member => ?_
  cases plain _ member

theorem count_released_allocated (object : BlkObject) :
    (objects.map BlkEvent.allocated).count (.released object) = 0 := by
  refine List.count_eq_zero.mpr fun member => ?_
  obtain ⟨other, _, same⟩ := List.mem_map.mp member
  cases same

/-- After `put_disk` only the gendisk and perhaps its queue have been released. -/
theorem releasedOnce_putDisk (plain : ∀ event ∈ tags, event = .blkMqFreeTagSet) :
    ReleasedOnce (objects.map BlkEvent.allocated ++ (BlkEvent.released (.gendisk n) ::
        (if drops then [BlkEvent.released (.queue queue)] else []) ++ tags)) ↔
      ∀ object ∈ objects, object = .gendisk n ∨ drops ∧ object = .queue queue := by
  have counts : ∀ object, (objects.map BlkEvent.allocated ++ (BlkEvent.released (.gendisk n) ::
      (if drops then [BlkEvent.released (.queue queue)] else []) ++ tags)).count (.released object) =
      (if .gendisk n = object then 1 else 0) + if drops ∧ .queue queue = object then 1 else 0 := by
    intro object
    rw [List.count_append, count_released_allocated, List.count_append, count_released_tags plain]
    cases drops with
    | false => simp [List.count_cons]
    | true => simp [List.count_cons, Nat.add_comm]
  have members : ∀ object, .allocated object ∈ objects.map BlkEvent.allocated ++ (BlkEvent.released (.gendisk n) ::
      (if drops then [BlkEvent.released (.queue queue)] else []) ++ tags) ↔ object ∈ objects := by
    intro object
    constructor
    · intro member
      rcases List.mem_append.mp member with member | member
      · obtain ⟨other, inside, same⟩ := List.mem_map.mp member
        cases same
        exact inside
      · rcases List.mem_append.mp member with member | member
        · cases drops <;> simp at member
        · cases plain _ member
    · intro inside
      exact List.mem_append_left _ (List.mem_map_of_mem inside)
  constructor
  · intro once object inside
    have one := once object ((members object).mpr inside)
    rw [counts] at one
    by_contra neither
    rw [not_or] at neither
    have notQueue : ¬(drops ∧ .queue queue = object) := fun both => neither.2 ⟨both.1, both.2.symm⟩
    rw [if_neg (Ne.symm neither.1), if_neg notQueue] at one
    cases one
  · intro covered object member
    rw [counts]
    rcases covered object ((members object).mp member) with rfl | ⟨dropped, rfl⟩
    · simp
    · simp [dropped]

end Released

/-- The tail of an expose that allocated some objects and has found its queue. -/
theorem exposeQueue_clean_iff {k : BlkKernel} (call : ExposeCall) {c : BlkCall} {gd : Gendisk}
    (queue : RequestQueue) (objects : List BlkObject) (gendisk : c.disk.gd = .obj gd)
    (found : (if gd.queue ≠ .null then gd.queue else c.disk.rq) = .obj queue)
    (fresh : c.events = objects.map .allocated) :
    CleanResult c.disk.unexposed (c.exposeQueue k call) ↔
      (call.paramFails → ∀ object ∈ objects,
        object = .gendisk gd.serial ∨ k.putDropsQueue ∧ object = .queue queue) := by
  cases failed : call.paramFails with
  | false =>
    rw [BlkCall.exposeQueue_added gendisk found failed]
    refine iff_of_true ⟨_, _, rfl, ?_, Or.inl ⟨rfl, _, rfl, ?_⟩⟩ (by simp)
    · intro other deleted
      simp [BlkCall.emit, BlkCall.setGd, fresh] at deleted
    · simp [BlkCall.emit]
  | true =>
    obtain ⟨tags, plain, result⟩ := BlkCall.exposeQueue_no_param (k := k) gendisk found failed
    rw [result, fresh]
    constructor
    · rintro ⟨rc, after, same, _, outcome⟩ _
      cases same
      rcases outcome with ⟨success, _⟩ | ⟨_, _, _, _, once⟩
      · cases success
      · exact (releasedOnce_putDisk plain).mp once
    · intro covered
      refine ⟨_, _, rfl, ?_, Or.inr ⟨by decide, rfl, rfl, rfl, ?_⟩⟩
      · intro other deleted
        rcases List.mem_append.mp deleted with deleted | deleted
        · simp at deleted
        · rcases List.mem_append.mp deleted with deleted | deleted
          · cases drops : k.putDropsQueue <;> simp [drops] at deleted
          · cases plain _ deleted
      · exact (releasedOnce_putDisk plain).mpr (covered rfl)

/-- A cleanup that has no gendisk to delete, with nothing allocated. -/
theorem exposeErr_clean {k : BlkKernel} {call : ExposeCall} {c : BlkCall} (noGendisk : c.disk.gd = .null)
    (nothing : c.events = []) : CleanResult c.disk.unexposed (c.exposeErr k call) := by
  obtain ⟨tags, plain, cleaned⟩ := BlkCall.exposeErr_null k call noGendisk
  rw [cleaned, nothing, List.nil_append]
  refine ⟨_, _, rfl, ?_, Or.inr ⟨by decide, rfl, rfl, rfl, ?_⟩⟩
  · intro gd deleted
    cases plain _ deleted
  · intro object allocated
    cases plain _ allocated

/-- The cleanup after the gendisk could not be allocated. -/
theorem exposeErr_clean_iff {k : BlkKernel} {call : ExposeCall} {c : BlkCall} {before : KfioBlkDisk}
    (same : c.disk.unexposed = before) (failed : c.disk.gd.deref = none) (nothing : c.events = []) :
    CleanResult before (c.exposeErr k call) ↔ c.disk.gd = .null := by
  constructor
  · intro clean
    by_contra gendisk
    rw [BlkCall.exposeErr_faults gendisk (Or.inl failed)] at clean
    exact not_cleanResult_none _ clean
  · intro noGendisk
    rw [← same]
    exact exposeErr_clean noGendisk nothing

section Expose

variable {k : BlkKernel} {call : ExposeCall} {disk : KfioBlkDisk}

theorem expose_mq (mq : call.useWorkqueue = useQueueMq) :
    linuxBdevExposeDisk k call disk =
      if call.queueFails then ((BlkCall.blkAllocDisk k call ⟨disk, []⟩).setRq .err).exposeErr k call
      else (((BlkCall.blkAllocDisk k call ⟨disk, []⟩).setRq (.obj (.alone call.serial))).emit
        [.allocated (.queue (.alone call.serial))]).exposeQueue k call := by
  cases noQueue : call.queueFails <;> simp [linuxBdevExposeDisk, mq, BlkCall.blkMqAllocQueue, noQueue]

theorem expose_none {c : BlkCall} (none : call.useWorkqueue = useQueueNone)
    (allocated : (BlkCall.blkAllocDisk k call ⟨disk, []⟩).kfioAllocQueue k call = some c) (ready : c.disk.rq ≠ .err) :
    linuxBdevExposeDisk k call disk = c.exposeQueue k call := by
  simp [linuxBdevExposeDisk, none, allocated, ready, show useQueueNone ≠ useQueueMq by decide]

theorem expose_other (notMq : call.useWorkqueue ≠ useQueueMq) (notNone : call.useWorkqueue ≠ useQueueNone) :
    linuxBdevExposeDisk k call disk = (BlkCall.blkAllocDisk k call ⟨disk, []⟩).exposeErr k call := by
  simp [linuxBdevExposeDisk, notMq, notNone]

theorem expose_none_faults (none : call.useWorkqueue = useQueueNone)
    (failed : (BlkCall.blkAllocDisk k call ⟨disk, []⟩).kfioAllocQueue k call = .none) :
    linuxBdevExposeDisk k call disk = .none := by
  simp [linuxBdevExposeDisk, none, failed, show useQueueNone ≠ useQueueMq by decide]

/-- The queue of `kfio_alloc_queue` for a disk that comes without one. -/
theorem kfioAllocQueue_separate (call : ExposeCall) (separate : k.allocDisk.withQueue = false) (c : BlkCall) :
    c.kfioAllocQueue k call = some (if call.queueFails then c.setRq .null
      else (c.setRq (.obj (.alone call.serial))).emit [.allocated (.queue (.alone call.serial))]) := by
  cases noQueue : call.queueFails <;> simp [BlkCall.kfioAllocQueue, separate, noQueue]

theorem kfioAllocQueue_own (own : k.allocDisk.withQueue = true) {c : BlkCall} {n : Nat} {queue : RequestQueue}
    (gendisk : c.disk.gd = .obj ⟨n, .obj queue⟩) : c.kfioAllocQueue k call = some (c.setRq (.obj queue)) := by
  simp [BlkCall.kfioAllocQueue, own, gendisk]

/-- No gendisk. The expose gets out only where it does not look at it. -/
theorem leavesNothing_no_disk (failed : call.diskFails = true) :
    LeavesNothing k call disk.unexposed ↔ k.allocDisk.failure = .null ∧ call.useWorkqueue ≠ useQueueNone ∧
      (call.useWorkqueue = useQueueMq → call.queueFails) := by
  have start : BlkCall.blkAllocDisk k call ⟨disk.unexposed, []⟩ =
      BlkCall.setGd ⟨disk.unexposed, []⟩ k.allocDisk.failure := by
    simp [BlkCall.blkAllocDisk, failed]
  rw [LeavesNothing]
  by_cases mq : call.useWorkqueue = useQueueMq
  · rw [expose_mq mq, start]
    cases noQueue : call.queueFails with
    | true =>
      refine (exposeErr_clean_iff rfl k.allocDisk.failure_deref rfl).trans ?_
      simp [mq, show useQueueMq ≠ useQueueNone by decide]
    | false =>
      rw [if_neg (by simp), BlkCall.exposeQueue_faults k.allocDisk.failure_deref]
      simp [not_cleanResult_none, mq]
  · by_cases none : call.useWorkqueue = useQueueNone
    · refine iff_of_false ?_ fun inside => inside.2.1 none
      cases own : k.allocDisk.withQueue with
      | true =>
        rw [expose_none_faults none]
        · exact not_cleanResult_none _
        · simp [start, BlkCall.kfioAllocQueue, own, k.allocDisk.failure_deref]
      | false =>
        rw [expose_none none (kfioAllocQueue_separate call own _), start, BlkCall.exposeQueue_faults]
        · exact not_cleanResult_none _
        · split <;> exact k.allocDisk.failure_deref
        · split <;> simp
    · rw [expose_other mq none, start]
      refine (exposeErr_clean_iff rfl k.allocDisk.failure_deref rfl).trans ?_
      simp [mq, none]

theorem exposeErr_not_clean {c : BlkCall} {before : KfioBlkDisk} (gendisk : c.disk.gd ≠ .null)
    (failed : c.disk.rq.deref = none) : ¬CleanResult before (c.exposeErr k call) := by
  rw [BlkCall.exposeErr_faults gendisk (Or.inr failed)]
  exact not_cleanResult_none _

/-- A gendisk that came with its queue. The queue of `USE_QUEUE_MQ` is never attached to
it, so nothing can release that one. -/
theorem leavesNothing_own (allocated : call.diskFails = false) (own : k.allocDisk.withQueue = true) :
    LeavesNothing k call disk.unexposed ↔
      if call.useWorkqueue = useQueueMq then
        ¬call.queueFails ∧ ¬call.paramFails
      else
        call.useWorkqueue = useQueueNone ∧ (call.paramFails → k.putDropsQueue) := by
  have start : BlkCall.blkAllocDisk k call ⟨disk.unexposed, []⟩ =
      (BlkCall.setGd ⟨disk.unexposed, []⟩ (.obj ⟨call.serial, .obj (.ofDisk call.serial)⟩)).emit
        [.allocated (.gendisk call.serial), .allocated (.queue (.ofDisk call.serial))] := by
    simp [BlkCall.blkAllocDisk, allocated, own]
  rw [LeavesNothing]
  by_cases mq : call.useWorkqueue = useQueueMq
  · rw [expose_mq mq, start, if_pos mq]
    cases noQueue : call.queueFails with
    | true => exact iff_of_false (exposeErr_not_clean (by simp) (by simp)) (by simp)
    | false =>
      refine (exposeQueue_clean_iff call (.ofDisk call.serial)
        [.gendisk call.serial, .queue (.ofDisk call.serial), .queue (.alone call.serial)] rfl (by simp)
        (by simp)).trans ?_
      simp
  · rw [if_neg mq]
    by_cases none : call.useWorkqueue = useQueueNone
    · rw [expose_none none (by rw [start]; exact kfioAllocQueue_own own rfl) (by simp)]
      refine (exposeQueue_clean_iff call (.ofDisk call.serial)
        [.gendisk call.serial, .queue (.ofDisk call.serial)] rfl (by simp) (by simp)).trans ?_
      simp [none]
    · rw [expose_other mq none, start]
      exact iff_of_false (exposeErr_not_clean (by simp) (by simp [KfioBlkDisk.unexposed])) fun inside => none inside.1

/-- A gendisk without a queue. -/
theorem leavesNothing_separate (allocated : call.diskFails = false) (separate : k.allocDisk.withQueue = false) :
    LeavesNothing k call disk.unexposed ↔ (call.useWorkqueue = useQueueMq ∨ call.useWorkqueue = useQueueNone) ∧
      ¬call.queueFails ∧ (call.paramFails → k.putDropsQueue) := by
  have start : BlkCall.blkAllocDisk k call ⟨disk.unexposed, []⟩ =
      (BlkCall.setGd ⟨disk.unexposed, []⟩ (.obj ⟨call.serial, .null⟩)).emit [.allocated (.gendisk call.serial)] := by
    simp [BlkCall.blkAllocDisk, allocated, separate]
  have tail := exposeQueue_clean_iff (k := k) call
    (c := ((BlkCall.setGd ⟨disk.unexposed, []⟩ (.obj ⟨call.serial, .null⟩)).emit
      [.allocated (.gendisk call.serial)] |>.setRq (.obj (.alone call.serial))).emit
        [.allocated (.queue (.alone call.serial))])
    (.alone call.serial) [.gendisk call.serial, .queue (.alone call.serial)] rfl (by simp) (by simp)
  rw [LeavesNothing]
  by_cases mq : call.useWorkqueue = useQueueMq
  · rw [expose_mq mq, start]
    cases noQueue : call.queueFails with
    | true => exact iff_of_false (exposeErr_not_clean (by simp) (by simp)) (by simp)
    | false =>
      refine tail.trans ?_
      simp [mq]
  · by_cases none : call.useWorkqueue = useQueueNone
    · have queued := kfioAllocQueue_separate call separate (BlkCall.blkAllocDisk k call ⟨disk.unexposed, []⟩)
      rw [start] at queued
      cases noQueue : call.queueFails with
      | true =>
        -- `IS_ERR` lets the NULL of `blk_alloc_queue` pass
        rw [noQueue, if_pos rfl, ← start] at queued
        rw [expose_none none queued (by simp), start, BlkCall.exposeQueue_no_queue rfl rfl rfl]
        exact iff_of_false (not_cleanResult_none _) (by simp)
      | false =>
        rw [noQueue, if_neg (by simp), ← start] at queued
        rw [expose_none none queued (by simp), start]
        refine tail.trans ?_
        simp [none]
    · rw [expose_other mq none, start]
      exact iff_of_false (exposeErr_not_clean (by simp) (by simp [KfioBlkDisk.unexposed])) (by simp [mq, none])

/-- A disk that is not exposed, whatever was done with it before. -/
theorem leavesNothing_iff (k : BlkKernel) (call : ExposeCall) (disk : KfioBlkDisk) :
    LeavesNothing k call disk.unexposed ↔ call.CleansUp k := by
  cases failed : call.diskFails with
  | true => simpa [ExposeCall.CleansUp, failed] using leavesNothing_no_disk failed
  | false =>
    cases own : k.allocDisk.withQueue with
    | true => simpa [ExposeCall.CleansUp, failed, own] using leavesNothing_own failed own
    | false =>
      rw [leavesNothing_separate failed own]
      by_cases mq : call.useWorkqueue = useQueueMq
      · simp [ExposeCall.CleansUp, failed, own, mq]
      · simp [ExposeCall.CleansUp, failed, own, mq]

/-- `USE_QUEUE_RQ`, which the driver accepts when it is loaded. Every allocation
succeeds, and the cleanup writes to the queue that nobody allocated. -/
theorem expose_rq_faults :
    ¬LeavesNothing ⟨.allocDisk, false⟩ ⟨useQueueRq, false, false, false, true, 1⟩ (linuxBdevCreateDisk useQueueRq) := by
  have faults : linuxBdevExposeDisk ⟨.allocDisk, false⟩ ⟨useQueueRq, false, false, false, true, 1⟩
      (linuxBdevCreateDisk useQueueRq) = .none := by decide
  rw [LeavesNothing, faults]
  exact not_cleanResult_none _

end Expose

end IomemoryVsl
