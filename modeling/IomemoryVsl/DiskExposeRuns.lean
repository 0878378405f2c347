import IomemoryVsl.DiskExpose
import IomemoryVsl.Transition

namespace IomemoryVsl

/-- The calls the core makes on a created disk. -/
inductive ExposeOp
  | expose (call : ExposeCall)
  | hide (useWorkqueue : Int) (opflags : BitVec 32) (linuxBdev : Bool)
  deriving DecidableEq, Repr

namespace KfioBlkDisk

def step (k : BlkKernel) (disk : KfioBlkDisk) : ExposeOp → Option (KfioBlkDisk × List BlkEvent)
  | .expose call => (linuxBdevExposeDisk k call disk).map fun r => (r.2.disk, r.2.events)
  | .hide useWorkqueue opflags linuxBdev =>
    (BlkCall.linuxBdevHideDisk k useWorkqueue opflags linuxBdev ⟨disk, []⟩).map fun c => (c.disk, c.events)

/-- An expose is for a disk that is not exposed. -/
def InTurn (disk : KfioBlkDisk) : ExposeOp → Prop
  | .expose _ => disk.unexposed = disk
  | .hide .. => True

/-- How many gendisks of that number the disk holds. -/
def held (disk : KfioBlkDisk) (n : Nat) : Nat :=
  match disk.gd with
  | .obj gd => if gd.serial = n then 1 else 0
  | _ => 0

theorem held_of_deref_none {disk : KfioBlkDisk} (nothing : disk.gd.deref = none) (n : Nat) : disk.held n = 0 := by
  unfold held
  split
  · rename_i gd same
    rw [same] at nothing
    cases nothing
  · rfl

theorem held_of_obj {disk : KfioBlkDisk} {gd : Gendisk} (gendisk : disk.gd = .obj gd) (n : Nat) :
    disk.held n = if gd.serial = n then 1 else 0 := by
  simp only [held, gendisk]

theorem exists_of_held {disk : KfioBlkDisk} {n : Nat} (one : disk.held n = 1) :
    ∃ gd, disk.gd = .obj gd ∧ gd.serial = n := by
  cases found : disk.gd with
  | null => simp [held, found] at one
  | err => simp [held, found] at one
  | obj gd =>
    refine ⟨gd, rfl, ?_⟩
    by_contra other
    simp [held, found, other] at one

end KfioBlkDisk

/-- Neither allocates, deletes nor releases a gendisk. -/
def BlkEvent.Quiet (event : BlkEvent) : Prop :=
  ∀ n, event ≠ .allocated (.gendisk n) ∧ event ≠ .released (.gendisk n) ∧ event ≠ .delGendisk n

/-- Over a call, what the disk held before and the gendisks allocated since are the
gendisks released since and what it holds now. Only what it held before is deleted. -/
structure BlkCall.Books (before : KfioBlkDisk) (c : BlkCall) : Prop where
  gendisks : ∀ n, before.held n + c.events.count (.allocated (.gendisk n)) =
    c.events.count (.released (.gendisk n)) + c.disk.held n
  deletes : ∀ n, .delGendisk n ∈ c.events → before.held n = 1

namespace BlkCall

variable {k : BlkKernel} {call : ExposeCall} {before : KfioBlkDisk} {c c' : BlkCall} {events : List BlkEvent}

theorem Books.start : Books before ⟨before, []⟩ where
  gendisks := fun _ => Nat.add_comm ..
  deletes := fun _ deleted => absurd deleted List.not_mem_nil

theorem count_quiet (quiet : ∀ event ∈ events, event.Quiet) (n : Nat) :
    events.count (.allocated (.gendisk n)) = 0 ∧ events.count (.released (.gendisk n)) = 0 := by
  constructor
  · exact List.count_eq_zero.mpr fun member => (quiet _ member n).1 rfl
  · exact List.count_eq_zero.mpr fun member => (quiet _ member n).2.1 rfl

theorem Books.quiet (books : Books before c) (quiet : ∀ event ∈ events, event.Quiet) {disk : KfioBlkDisk}
    (same : ∀ n, disk.held n = c.disk.held n) : Books before ⟨disk, c.events ++ events⟩ := by
  constructor
  · intro n
    obtain ⟨allocated, released⟩ := count_quiet quiet n
    have now := books.gendisks n
    simp only [List.count_append, allocated, released, same]
    omega
  · intro n deleted
    rcases List.mem_append.mp deleted with old | new
    · exact books.deletes n old
    · exact absurd rfl (quiet _ new n).2.2

theorem Books.emit (books : Books before c) (quiet : ∀ event ∈ events, event.Quiet) : Books before (c.emit events) :=
  books.quiet quiet fun _ => rfl

theorem Books.setRq (books : Books before c) (rq : ErrPtr RequestQueue) : Books before (c.setRq rq) :=
  ⟨books.gendisks, books.deletes⟩

theorem quiet_released_queue (queue : RequestQueue) : (BlkEvent.released (.queue queue)).Quiet := fun n => by
  simp

/-- `put_disk` releases the gendisk, and no other one. -/
theorem putDisk_emits (gd : Gendisk) (c : BlkCall) : ∃ more, (∀ event ∈ more, event.Quiet) ∧
    c.putDisk k gd = c.emit (.released (.gendisk gd.serial) :: more) := by
  rw [putDisk]
  cases k.putDropsQueue with
  | false => exact ⟨[], List.forall_mem_nil _, rfl⟩
  | true =>
    cases gd.queue with
    | null => exact ⟨[], List.forall_mem_nil _, rfl⟩
    | err => exact ⟨[], List.forall_mem_nil _, rfl⟩
    | obj queue => exact ⟨[.released (.queue queue)], List.forall_mem_singleton.mpr (quiet_released_queue queue), rfl⟩

/-- `put_disk` and the reset of the pointer. -/
theorem Books.putDisk (books : Books before c) {gd gd' : Gendisk} (gendisk : c.disk.gd = .obj gd)
    (same : gd'.serial = gd.serial) : Books before ((c.putDisk k gd').setGd .null) := by
  obtain ⟨more, quiet, emits⟩ := putDisk_emits (k := k) gd' c
  have put : Books before ⟨{ c.disk with gd := .null }, c.events ++ [.released (.gendisk gd'.serial)]⟩ := by
    constructor
    · intro n
      have now := books.gendisks n
      rw [KfioBlkDisk.held_of_obj gendisk, ← same] at now
      have released : [BlkEvent.released (.gendisk gd'.serial)].count (.released (.gendisk n)) =
          if gd'.serial = n then 1 else 0 := by simp [List.count_cons]
      have empty : ({ c.disk with gd := .null } : KfioBlkDisk).held n = 0 := rfl
      have allocated : [BlkEvent.released (.gendisk gd'.serial)].count (.allocated (.gendisk n)) = 0 := by
        simp
      rw [List.count_append, List.count_append, released, allocated, empty]
      omega
    · intro n deleted
      rcases List.mem_append.mp deleted with old | new
      · exact books.deletes n old
      · cases List.mem_singleton.mp new
  have whole := put.emit quiet
  rw [BlkCall.emit, List.append_assoc] at whole
  rw [emits]
  exact whole

theorem Books.failBios (books : Books before c) : Books before c.failBios := by
  rw [BlkCall.failBios]
  split
  · refine books.quiet ?_ fun _ => rfl
    intro event member
    obtain ⟨bio, _, rfl⟩ := List.mem_map.mp member
    exact fun n => ⟨nofun, nofun, nofun⟩
  · exact books

theorem Books.dropReference (books : Books before c) (opflags : BitVec 32) (linuxBdev : Bool) :
    Books before (c.dropReference opflags linuxBdev) := by
  have dropped : Books before { c with disk := { c.disk with refCount := c.disk.refCount - 1#32 } } :=
    ⟨books.gendisks, books.deletes⟩
  rw [BlkCall.dropReference]
  split
  · dsimp only
    split
    · exact dropped.emit (List.forall_mem_singleton.mpr fun n => ⟨nofun, nofun, nofun⟩)
    · exact dropped
  · exact books

theorem failBios_gd (c : BlkCall) : c.failBios.disk.gd = c.disk.gd := by
  rw [BlkCall.failBios]
  split <;> rfl

theorem dropReference_gd (opflags : BitVec 32) (linuxBdev : Bool) (c : BlkCall) :
    (c.dropReference opflags linuxBdev).disk.gd = c.disk.gd := by
  rw [BlkCall.dropReference]
  split
  · dsimp only
    split <;> rfl
  · rfl

theorem Books.delGendisk (books : Books before c) {n : Nat} (mine : before.held n = 1) :
    Books before (c.emit [.delGendisk n]) := by
  constructor
  · intro m
    have now := books.gendisks m
    have allocated : [BlkEvent.delGendisk n].count (.allocated (.gendisk m)) = 0 := by simp
    have released : [BlkEvent.delGendisk n].count (.released (.gendisk m)) = 0 := by simp
    rw [emit_events, List.count_append, List.count_append, allocated, released, emit_disk]
    omega
  · intro m deleted
    rcases List.mem_append.mp deleted with old | new
    · exact books.deletes m old
    · cases List.mem_singleton.mp new
      exact mine

theorem Books.hideQueue (books : Books before c) (noGendisk : c.disk.gd = .null) (useWorkqueue : Int) :
    Books before (c.hideQueue useWorkqueue) ∧ (c.hideQueue useWorkqueue).disk.unexposed =
      (c.hideQueue useWorkqueue).disk := by
  have tagged : Books before (c.emit [.blkMqFreeTagSet]) :=
    books.emit (List.forall_mem_singleton.mpr fun n => ⟨nofun, nofun, nofun⟩)
  rw [BlkCall.hideQueue]
  split
  · split
    · exact ⟨tagged.setRq .null, by simp [KfioBlkDisk.unexposed, BlkCall.setRq, noGendisk]⟩
    · exact ⟨books.setRq .null, by simp [KfioBlkDisk.unexposed, BlkCall.setRq, noGendisk]⟩
  · rename_i noQueue
    rw [not_not] at noQueue
    exact ⟨books, by rw [KfioBlkDisk.unexposed, ← noGendisk, ← noQueue]⟩

theorem hideDisk_books {disk : KfioBlkDisk} {useWorkqueue : Int} {opflags : BitVec 32} {linuxBdev : Bool}
    (ran : linuxBdevHideDisk k useWorkqueue opflags linuxBdev ⟨disk, []⟩ = some c) :
    Books disk c ∧ c.disk.unexposed = c.disk := by
  obtain ⟨hidden, gone, rfl⟩ := Option.map_eq_some_iff.mp ran
  rw [hideGendisk] at gone
  split at gone
  · obtain ⟨gd, found, gone⟩ := Option.bind_eq_some_iff.mp gone
    obtain ⟨rq, _, gone⟩ := Option.bind_eq_some_iff.mp gone
    cases gone
    have gendisk : disk.gd = .obj gd := ErrPtr.eq_obj_of_deref found
    have mine : disk.held gd.serial = 1 := by rw [KfioBlkDisk.held_of_obj gendisk, if_pos rfl]
    have deleted := ((Books.start : Books disk _).failBios.delGendisk mine).dropReference opflags linuxBdev
    have still : (((failBios ⟨disk, []⟩).emit [.delGendisk gd.serial]).dropReference opflags linuxBdev).disk.gd =
        .obj gd := by rw [dropReference_gd, emit_disk, failBios_gd, gendisk]
    exact (deleted.putDisk still rfl).hideQueue rfl useWorkqueue
  · rename_i noGendisk
    rw [not_not] at noGendisk
    cases gone
    exact Books.start.hideQueue noGendisk useWorkqueue

theorem failBios_references (c : BlkCall) :
    c.failBios.disk.refCount = c.disk.refCount ∧
      (.fioBdevRelease ∈ c.failBios.events ↔ .fioBdevRelease ∈ c.events) := by
  rw [failBios]
  split
  · simp
  · exact ⟨rfl, Iff.rfl⟩

theorem putDisk_references (gd : Gendisk) (c : BlkCall) :
    (c.putDisk k gd).disk.refCount = c.disk.refCount ∧
      (.fioBdevRelease ∈ (c.putDisk k gd).events ↔ .fioBdevRelease ∈ c.events) := by
  rw [putDisk]
  cases k.putDropsQueue with
  | false => simp
  | true => cases gd.queue <;> simp

theorem hideQueue_references (useWorkqueue : Int) (c : BlkCall) :
    (c.hideQueue useWorkqueue).disk.refCount = c.disk.refCount ∧
      (.fioBdevRelease ∈ (c.hideQueue useWorkqueue).events ↔ .fioBdevRelease ∈ c.events) := by
  rw [hideQueue]
  split
  · split <;> simp [setRq, emit]
  · exact ⟨rfl, Iff.rfl⟩

theorem dropReference_references (opflags : BitVec 32) (linuxBdev : Bool) {c : BlkCall}
    (unreleased : .fioBdevRelease ∉ c.events) :
    (c.dropReference opflags linuxBdev).disk.refCount =
        (IomemoryVsl.linuxBdevHideDisk ⟨c.disk.refCount, some false, [], false⟩ opflags linuxBdev).refCount ∧
      (.fioBdevRelease ∈ (c.dropReference opflags linuxBdev).events ↔ .fioBdevRelease ∈
        (IomemoryVsl.linuxBdevHideDisk ⟨c.disk.refCount, some false, [], false⟩ opflags linuxBdev).calls) := by
  rw [dropReference, IomemoryVsl.linuxBdevHideDisk]
  dsimp only
  split
  · split
    · simp [KfioDisk.call]
    · simpa using unreleased
  · simpa using unreleased

/-- On an exposed disk `linux_bdev_hide_disk` does not fault, and it treats the references as the
model of them says. -/
theorem hideDisk_references {disk : KfioBlkDisk} {gd : Gendisk} {rq : RequestQueue} (gendisk : disk.gd = .obj gd)
    (queue : disk.rq = .obj rq) (useWorkqueue : Int) (opflags : BitVec 32) (linuxBdev : Bool) :
    ∃ c, linuxBdevHideDisk k useWorkqueue opflags linuxBdev ⟨disk, []⟩ = some c ∧
      c.disk.refCount =
        (IomemoryVsl.linuxBdevHideDisk ⟨disk.refCount, some false, [], false⟩ opflags linuxBdev).refCount ∧
      (.fioBdevRelease ∈ c.events ↔ .fioBdevRelease ∈
        (IomemoryVsl.linuxBdevHideDisk ⟨disk.refCount, some false, [], false⟩ opflags linuxBdev).calls) := by
  have ran : linuxBdevHideDisk k useWorkqueue opflags linuxBdev ⟨disk, []⟩ =
      some (((((failBios ⟨disk, []⟩).emit [.delGendisk gd.serial]).dropReference opflags linuxBdev).putDisk k gd
        |>.setGd .null).hideQueue useWorkqueue) := by
    simp [linuxBdevHideDisk, hideGendisk, gendisk, queue]
  obtain ⟨count, bios⟩ := failBios_references ⟨disk, []⟩
  have unreleased : .fioBdevRelease ∉ ((failBios ⟨disk, []⟩).emit [.delGendisk gd.serial]).events := by
    simp [bios]
  obtain ⟨dropped, released⟩ := dropReference_references opflags linuxBdev unreleased
  obtain ⟨put, putEvents⟩ := putDisk_references (k := k) gd
    (((failBios ⟨disk, []⟩).emit [.delGendisk gd.serial]).dropReference opflags linuxBdev)
  obtain ⟨hid, hidEvents⟩ := hideQueue_references useWorkqueue
    (((((failBios ⟨disk, []⟩).emit [.delGendisk gd.serial]).dropReference opflags linuxBdev).putDisk k gd).setGd .null)
  rw [emit_disk, count] at dropped released
  exact ⟨_, ran, hid.trans (put.trans dropped), hidEvents.trans (putEvents.trans released)⟩

/-- The disk is not exposed, or its gendisk was added in this call. -/
def Settled (c : BlkCall) : Prop :=
  c.disk.unexposed = c.disk ∨ ∃ gd, c.disk.gd = .obj gd ∧ .addDisk gd.serial ∈ c.events

/-- A cleanup that does not fault finds no gendisk when there is no queue. -/
theorem exposeErr_books (books : Books before c) (bare : c.disk.gd = .null ∨ c.disk.rq.deref = none) {rc : Int}
    (ran : c.exposeErr k call = some (rc, c')) : Books before c' ∧ c'.Settled := by
  by_cases noGendisk : c.disk.gd = .null
  · have cleaned : c.exposeErr k call = some (-enomem, c.hideQueue call.useWorkqueue) := by
      simp [exposeErr, linuxBdevHideDisk, hideGendisk, noGendisk]
    rw [cleaned] at ran
    cases ran
    exact (books.hideQueue noGendisk call.useWorkqueue).imp_right Or.inl
  · rw [exposeErr_faults noGendisk (Or.inr (bare.resolve_left noGendisk))] at ran
    cases ran

theorem Books.setGd (books : Books before c) {gd gd' : Gendisk} (gendisk : c.disk.gd = .obj gd)
    (same : gd'.serial = gd.serial) : Books before (c.setGd (.obj gd')) := by
  refine ⟨fun n => ?_, books.deletes⟩
  have now := books.gendisks n
  rw [KfioBlkDisk.held_of_obj gendisk, ← same] at now
  exact now

theorem exposeQueue_books (books : Books before c) {rc : Int} (ran : c.exposeQueue k call = some (rc, c')) :
    Books before c' ∧ c'.Settled := by
  obtain ⟨gd, found, ran⟩ := Option.bind_eq_some_iff.mp ran
  obtain ⟨rq, _, ran⟩ := Option.bind_eq_some_iff.mp ran
  have gendisk := ErrPtr.eq_obj_of_deref found
  rw [if_neg (by simp [gendisk])] at ran
  obtain ⟨attached, same, ran⟩ : ∃ attached : Gendisk, attached.serial = gd.serial ∧
      (if call.paramFails then (((c.setGd (.obj attached)).putDisk k attached).setGd .null).exposeErr k call
        else some (0, (c.setGd (.obj attached)).emit [.allocated (.param call.serial), .addDisk attached.serial,
          .released (.param call.serial)])) = some (rc, c') :=
    ⟨{ gd with queue := if gd.queue ≠ .null then gd.queue else c.disk.rq }, rfl, ran⟩
  have ready : Books before (c.setGd (.obj attached)) := books.setGd gendisk same
  split at ran
  · have put : Books before (((c.setGd (.obj attached)).putDisk k attached).setGd .null) := ready.putDisk rfl rfl
    exact exposeErr_books put (Or.inl rfl) ran
  · cases ran
    refine ⟨ready.emit ?_, Or.inr ⟨attached, rfl, ?_⟩⟩
    · refine List.forall_mem_cons.mpr ⟨fun _ => ⟨nofun, nofun, nofun⟩, ?_⟩
      refine List.forall_mem_cons.mpr ⟨fun _ => ⟨nofun, nofun, nofun⟩, ?_⟩
      exact List.forall_mem_singleton.mpr fun _ => ⟨nofun, nofun, nofun⟩
    · simp

theorem quiet_allocated_queue (rq : RequestQueue) : ∀ event ∈ [BlkEvent.allocated (.queue rq)], event.Quiet :=
  List.forall_mem_singleton.mpr fun _ => ⟨nofun, nofun, nofun⟩

/-- The allocation of the gendisk for a disk that has none. -/
theorem allocDisk_books {disk : KfioBlkDisk} : Books disk.unexposed (blkAllocDisk k call ⟨disk.unexposed, []⟩) := by
  have filled : ∀ rq, Books disk.unexposed ⟨{ disk.unexposed with gd := .obj ⟨call.serial, rq⟩ },
      [.allocated (.gendisk call.serial)]⟩ := by
    intro rq
    refine ⟨fun n => ?_, fun n deleted => by cases List.mem_singleton.mp deleted⟩
    have allocated : [BlkEvent.allocated (.gendisk call.serial)].count (.allocated (.gendisk n)) =
        if call.serial = n then 1 else 0 := by simp [List.count_cons]
    have released : [BlkEvent.allocated (.gendisk call.serial)].count (.released (.gendisk n)) = 0 := by simp
    have empty : disk.unexposed.held n = 0 := rfl
    rw [allocated, released, empty, Nat.zero_add, Nat.zero_add]
    rfl
  rw [blkAllocDisk]
  split
  · refine ⟨fun n => ?_, fun n deleted => absurd deleted List.not_mem_nil⟩
    have still : (BlkCall.setGd ⟨disk.unexposed, []⟩ k.allocDisk.failure).disk.held n = 0 :=
      KfioBlkDisk.held_of_deref_none k.allocDisk.failure_deref n
    rw [still, KfioBlkDisk.held_of_deref_none rfl]
    rfl
  · split
    · exact (filled (.obj (.ofDisk call.serial))).emit (quiet_allocated_queue _)
    · exact filled .null

theorem allocQueue_books (books : Books before c) (ran : c.kfioAllocQueue k call = some c') : Books before c' := by
  rw [kfioAllocQueue] at ran
  split at ran
  · obtain ⟨gd, _, ran⟩ := Option.bind_eq_some_iff.mp ran
    split at ran
    · obtain ⟨rq, _, ran⟩ := Option.bind_eq_some_iff.mp ran
      cases ran
      exact books.setRq gd.queue
    · cases ran
      exact books.setRq gd.queue
  · split at ran
    · cases ran
      exact books.setRq .null
    · cases ran
      exact (books.setRq (.obj (.alone call.serial))).emit (quiet_allocated_queue _)

/-- The outcome of an expose of a disk that is not exposed, when it does not fault. -/
theorem expose_books {disk : KfioBlkDisk} {rc : Int}
    (ran : linuxBdevExposeDisk k call disk.unexposed = some (rc, c)) : Books disk.unexposed c ∧ c.Settled := by
  have start : Books disk.unexposed (blkAllocDisk k call ⟨disk.unexposed, []⟩) := allocDisk_books
  have bare : (blkAllocDisk k call ⟨disk.unexposed, []⟩).disk.rq = .null := by
    rw [blkAllocDisk]
    split
    · rfl
    · split <;> rfl
  rw [linuxBdevExposeDisk] at ran
  dsimp only at ran
  split at ran
  · have queued : Books disk.unexposed ((blkAllocDisk k call ⟨disk.unexposed, []⟩).blkMqAllocQueue call) := by
      rw [blkMqAllocQueue]
      split
      · exact start.setRq .err
      · exact (start.setRq (.obj (.alone call.serial))).emit (quiet_allocated_queue _)
    split at ran
    · rename_i failed
      exact exposeErr_books queued (Or.inr (by rw [failed]; rfl)) ran
    · exact exposeQueue_books queued ran
  · split at ran
    · obtain ⟨queued, allocated, ran⟩ := Option.bind_eq_some_iff.mp ran
      have books := allocQueue_books start allocated
      split at ran
      · rename_i failed
        exact exposeErr_books books (Or.inr (by rw [failed]; rfl)) ran
      · exact exposeQueue_books books ran
    · exact exposeErr_books start (Or.inr (by rw [bare]; rfl)) ran

end BlkCall

/-- What holds in every run of calls, faults apart. A gendisk that was allocated is held or
has been released, only added ones are deleted, and the disk has an added one or none. -/
structure ExposeBooks (disk : KfioBlkDisk) (history : List BlkEvent) : Prop where
  gendisks : ∀ n, history.count (.allocated (.gendisk n)) =
    history.count (.released (.gendisk n)) + disk.held n
  deletes : DeletesAdded history
  settled : disk.unexposed = disk ∨ ∃ gd, disk.gd = .obj gd ∧ .addDisk gd.serial ∈ history

/-- A call that returns keeps the books of the call. -/
theorem KfioBlkDisk.step_books {k : BlkKernel} {disk after : KfioBlkDisk} {op : ExposeOp} {events : List BlkEvent}
    (inTurn : disk.InTurn op) (ran : disk.step k op = some (after, events)) :
    BlkCall.Books disk ⟨after, events⟩ ∧ BlkCall.Settled ⟨after, events⟩ := by
  cases op with
  | expose call =>
    obtain ⟨⟨rc, c⟩, returned, same⟩ := Option.map_eq_some_iff.mp ran
    obtain ⟨rfl, rfl⟩ := Prod.mk.inj same
    rw [InTurn] at inTurn
    rw [← inTurn] at returned ⊢
    exact BlkCall.expose_books returned
  | hide useWorkqueue opflags linuxBdev =>
    obtain ⟨c, returned, same⟩ := Option.map_eq_some_iff.mp ran
    obtain ⟨rfl, rfl⟩ := Prod.mk.inj same
    obtain ⟨books, hidden⟩ := BlkCall.hideDisk_books returned
    exact ⟨books, Or.inl hidden⟩

theorem ExposeBooks.step {k : BlkKernel} {disk after : KfioBlkDisk} {op : ExposeOp} {history events : List BlkEvent}
    (books : ExposeBooks disk history) (inTurn : disk.InTurn op) (ran : disk.step k op = some (after, events)) :
    ExposeBooks after (history ++ events) := by
  obtain ⟨now, settled⟩ := KfioBlkDisk.step_books inTurn ran
  constructor
  · intro n
    have before := books.gendisks n
    have during := now.gendisks n
    rw [List.count_append, List.count_append]
    dsimp only at during
    omega
  · intro n deleted
    rcases List.mem_append.mp deleted with old | new
    · exact List.mem_append_left _ (books.deletes n old)
    · obtain ⟨gd, gendisk, rfl⟩ := KfioBlkDisk.exists_of_held (now.deletes n new)
      rcases books.settled with hidden | ⟨gd', same, added⟩
      · rw [← hidden] at gendisk
        cases gendisk
      · rw [same] at gendisk
        cases gendisk
        exact List.mem_append_left _ added
  · exact settled.imp_right fun ⟨gd, gendisk, added⟩ => ⟨gd, gendisk, List.mem_append_right _ added⟩

/-- Whatever the queue mode is and whatever fails, as long as no call faults. -/
theorem ExposeBooks.of_reach {k : BlkKernel} {useWorkqueue : Int} {disk : KfioBlkDisk} {history : List BlkEvent}
    (reach : Transition.Reach (KfioBlkDisk.step k) KfioBlkDisk.InTurn (linuxBdevCreateDisk useWorkqueue) disk history) :
    ExposeBooks disk history := by
  refine reach.invariant ExposeBooks ?_ fun _ books inTurn ran => books.step inTurn ran
  exact ⟨fun n => rfl, fun n deleted => absurd deleted List.not_mem_nil, Or.inl rfl⟩

end IomemoryVsl
