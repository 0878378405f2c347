import IomemoryVsl.DiskState
import IomemoryVsl.KcondvarRefines

namespace IomemoryVsl

open Monitor

variable {τ : Type*}

/-- What holds between the mutex, the two counts and where the threads are. -/
structure DiskSound (disk : DiskShared) (pc : τ → DiskPc) : Prop where
  alone : ∀ t u, (pc t).inMutex = true → (pc u).inMutex = true → t = u
  held : disk.mutex = true ↔ ∃ t, (pc t).inMutex = true
  inside : ∀ t, (pc t).inMutex = true → disk.refCount = BitVec.ofInt 32 disk.openers + (pc t).ahead
  outside : disk.mutex = false → disk.refCount = BitVec.ofInt 32 disk.openers
  marked : ∀ t, (pc t).marked = true → disk.dying = true
  quiet : ∀ t u, (pc t).quiet = true → (pc u).opening = false
  last : ∀ t, (pc t).last = true → disk.openers = 0

theorem DiskPc.inMutex_of_last {p : DiskPc} (last : p.last = true) : p.inMutex = true := by
  cases p <;> first | rfl | cases last

theorem DiskPc.inMutex_of_opening {p : DiskPc} (opening : p.opening = true) : p.inMutex = true := by
  cases p <;> first | rfl | cases opening

theorem DiskPc.marked_of_quiet {p : DiskPc} (quiet : p.quiet = true) : p.marked = true := by
  cases p <;> first | rfl | cases quiet

/-- A point that stands to the mutex, to the counts and to the dying queue as another. -/
structure DiskPc.Keeps (p next : DiskPc) : Prop where
  inMutex : next.inMutex = p.inMutex
  ahead : next.ahead = p.ahead
  marked : next.marked = true → p.marked = true
  quiet : next.quiet = true → p.quiet = true
  opening : next.opening = true → p.opening = true
  last : next.last = true → p.last = true

theorem DiskPc.keeps_of_goes {p next : DiskPc} (goes : (diskProgram p).Goes p.Entry next) :
    p.Keeps next := by
  cases p with
  | idle => cases next <;> first | exact ⟨rfl, rfl, id, id, id, id⟩ | cases goes
  | holdoffWait count =>
    obtain ⟨reason, rfl⟩ := goes
    cases reason <;> exact ⟨rfl, rfl, id, id, id, id⟩
  | holdoffCount count reason => cases reason <;> cases goes
  | holdoffLock | holdoffUnlock | pressureLock | pressureBroadcast | pressureUnlock | addLock
  | addBroadcast | addUnlock | exposeLock | exposeUnlock | closeLock | closeBroadcast
  | closeStateUnlock | hideLock =>
    cases goes
    exact ⟨rfl, rfl, id, id, id, id⟩
  | exposeWait | hideWait =>
    obtain ⟨_, rfl⟩ := goes
    exact ⟨rfl, rfl, id, id, id, id⟩
  | hideUnlock =>
    cases goes
    exact ⟨rfl, rfl, nofun, nofun, id, id⟩
  | _ => cases goes

variable {disk disk' : DiskShared} {pc : τ → DiskPc} {t : τ} {next : DiskPc} [DecidableEq τ]

namespace DiskSound

omit [DecidableEq τ] in
/-- While a thread has the mutex nobody else has. -/
theorem others_out (sound : DiskSound disk pc) (inMutex : (pc t).inMutex = true) {u : τ} (other : u ≠ t) :
    (pc u).inMutex = false :=
  Bool.eq_false_iff.mpr fun also => other (sound.alone u t also inMutex)

omit [DecidableEq τ] in
theorem all_out (sound : DiskSound disk pc) (free : disk.mutex = false) (u : τ) : (pc u).inMutex = false := by
  refine Bool.eq_false_iff.mpr fun inMutex => ?_
  have held := sound.held.mpr ⟨u, inMutex⟩
  rw [free] at held
  cases held

omit [DecidableEq τ] in
theorem none_opening (sound : DiskSound disk pc) (free : disk.mutex = false) (u : τ) : (pc u).opening = false :=
  Bool.eq_false_iff.mpr fun opening => by
    have out := sound.all_out free u
    rw [DiskPc.inMutex_of_opening opening] at out
    cases out

/-- A thread goes on to a point of the same standing. -/
theorem stay (sound : DiskSound disk pc) (mutex : disk'.mutex = disk.mutex) (count : disk'.refCount = disk.refCount)
    (openers : disk'.openers = disk.openers) (dying : disk'.dying = disk.dying)
    (keeps : (pc t).Keeps next) : DiskSound disk' (Function.update pc t next) := by
  obtain ⟨inMutex, ahead, marked, quiet, opening, last⟩ := keeps
  have inMutexAll (u : τ) : (Function.update pc t next u).inMutex = (pc u).inMutex := by
    by_cases same : u = t
    · subst same
      rw [Function.update_self]
      exact inMutex
    · rw [Function.update_of_ne same]
  refine ⟨fun u v here there => ?_, ?_, fun u here => ?_, ?_, fun u here => ?_, fun u v here => ?_, fun u here => ?_⟩
  · rw [inMutexAll] at here there
    exact sound.alone u v here there
  · simp only [mutex, inMutexAll]
    exact sound.held
  · rw [inMutexAll] at here
    rw [count, openers]
    by_cases same : u = t
    · subst same
      rw [Function.update_self, ahead]
      exact sound.inside u here
    · rw [Function.update_of_ne same]
      exact sound.inside u here
  · rw [mutex, count, openers]
    exact sound.outside
  · rw [dying]
    by_cases same : u = t
    · subst same
      rw [Function.update_self] at here
      exact sound.marked u (marked here)
    · rw [Function.update_of_ne same] at here
      exact sound.marked u here
  · have quietly : (pc u).quiet = true := by
      by_cases same : u = t
      · subst same
        rw [Function.update_self] at here
        exact quiet here
      · rw [Function.update_of_ne same] at here
        exact here
    have before (w : τ) : (pc w).opening = false := sound.quiet u w quietly
    by_cases same : v = t
    · subst same
      rw [Function.update_self]
      refine Bool.eq_false_iff.mpr fun opens => ?_
      have not := before v
      rw [opening opens] at not
      cases not
    · rw [Function.update_of_ne same]
      exact before v
  · rw [openers]
    by_cases same : u = t
    · subst same
      rw [Function.update_self] at here
      exact sound.last u (last here)
    · rw [Function.update_of_ne same] at here
      exact sound.last u here

/-- A thread takes the mutex. -/
theorem take (sound : DiskSound disk pc) (free : disk.mutex = false) (inMutex : next.inMutex = true)
    (ahead : next.ahead = 0#32) (marked : next.marked = true → (pc t).marked = true)
    (opening : next.opening = false) (last : next.last = false) :
    DiskSound { disk with mutex := true } (Function.update pc t next) := by
  have out := sound.all_out free
  have only (u : τ) (here : (Function.update pc t next u).inMutex = true) : u = t := by
    by_contra other
    rw [Function.update_of_ne other, out] at here
    cases here
  refine ⟨fun u v here there => (only u here).trans (only v there).symm, ?_, fun u here => ?_, fun taken => ?_,
    fun u here => ?_, fun _ v _ => ?_, fun u here => ?_⟩
  · refine ⟨fun _ => ⟨t, ?_⟩, fun _ => rfl⟩
    rw [Function.update_self]
    exact inMutex
  · obtain rfl := only u here
    rw [Function.update_self, ahead, BitVec.add_zero]
    exact sound.outside free
  · cases taken
  · by_cases same : u = t
    · subst same
      rw [Function.update_self] at here
      exact sound.marked u (marked here)
    · rw [Function.update_of_ne same] at here
      exact sound.marked u here
  · by_cases same : v = t
    · subst same
      rw [Function.update_self]
      exact opening
    · rw [Function.update_of_ne same]
      exact sound.none_opening free v
  · obtain rfl := only u (DiskPc.inMutex_of_last here)
    rw [Function.update_self, last] at here
    cases here

/-- A thread that has the mutex goes on with it. -/
theorem hold (sound : DiskSound disk pc) (mutex : disk'.mutex = disk.mutex) (dying : disk'.dying = disk.dying)
    (here : (pc t).inMutex = true) (inMutex : next.inMutex = true)
    (count : disk'.refCount = BitVec.ofInt 32 disk'.openers + next.ahead)
    (marked : next.marked = true → (pc t).marked = true) (quiet : next.quiet = true → (pc t).quiet = true)
    (opening : next.opening = true → (pc t).opening = true ∨ disk.dying = false)
    (last : next.last = true → disk'.openers = 0) : DiskSound disk' (Function.update pc t next) := by
  have only (u : τ) (inside : (Function.update pc t next u).inMutex = true) : u = t := by
    by_contra other
    rw [Function.update_of_ne other, sound.others_out here other] at inside
    cases inside
  have held : disk'.mutex = true := mutex.trans (sound.held.mpr ⟨t, here⟩)
  refine ⟨fun u v one two => (only u one).trans (only v two).symm, ?_, fun u one => ?_, fun free => ?_,
    fun u one => ?_, fun u v one => ?_, fun u one => ?_⟩
  · refine ⟨fun _ => ⟨t, ?_⟩, fun _ => held⟩
    rw [Function.update_self]
    exact inMutex
  · obtain rfl := only u one
    rw [Function.update_self]
    exact count
  · rw [held] at free
    cases free
  · rw [dying]
    by_cases same : u = t
    · subst same
      rw [Function.update_self] at one
      exact sound.marked u (marked one)
    · rw [Function.update_of_ne same] at one
      exact sound.marked u one
  · have quietly : (pc u).quiet = true := by
      by_cases same : u = t
      · subst same
        rw [Function.update_self] at one
        exact quiet one
      · rw [Function.update_of_ne same] at one
        exact one
    have before (w : τ) : (pc w).opening = false := sound.quiet u w quietly
    by_cases same : v = t
    · subst same
      rw [Function.update_self]
      refine Bool.eq_false_iff.mpr fun opens => ?_
      rcases opening opens with opened | alive
      · rw [before v] at opened
        cases opened
      · rw [sound.marked u (DiskPc.marked_of_quiet quietly)] at alive
        cases alive
    · rw [Function.update_of_ne same]
      exact before v
  · obtain rfl := only u (DiskPc.inMutex_of_last one)
    rw [Function.update_self] at one
    exact last one

/-- A thread gives the mutex back. -/
theorem leave (sound : DiskSound disk pc) (here : (pc t).inMutex = true) (level : (pc t).ahead = 0#32)
    (out : next.inMutex = false) (marked : next.marked = true → (pc t).marked = true)
    (quiet : next.quiet = true → (pc t).quiet = true) :
    DiskSound { disk with mutex := false } (Function.update pc t next) := by
  have nobody (u : τ) : (Function.update pc t next u).inMutex = false := by
    by_cases same : u = t
    · subst same
      rw [Function.update_self]
      exact out
    · rw [Function.update_of_ne same]
      exact sound.others_out here same
  have opening (u : τ) : (Function.update pc t next u).opening = false := Bool.eq_false_iff.mpr fun opens => by
    have inside := nobody u
    rw [DiskPc.inMutex_of_opening opens] at inside
    cases inside
  refine ⟨fun u v one => ?_, ?_, fun u one => ?_, fun _ => ?_, fun u one => ?_, fun _ v _ => opening v, fun u one => ?_⟩
  · rw [nobody] at one
    cases one
  · simp [nobody]
  · rw [nobody] at one
    cases one
  · have count := sound.inside t here
    rw [level, BitVec.add_zero] at count
    exact count
  · by_cases same : u = t
    · subst same
      rw [Function.update_self] at one
      exact sound.marked u (marked one)
    · rw [Function.update_of_ne same] at one
      exact sound.marked u one
  · have inside := DiskPc.inMutex_of_last one
    rw [nobody] at inside
    cases inside

/-- The queue is marked as dying. -/
theorem mark (sound : DiskSound disk pc) (out : next.inMutex = false) (before : (pc t).inMutex = false)
    (quiet : next.quiet = false) :
    DiskSound { disk with dying := true } (Function.update pc t next) := by
  have inMutexAll (u : τ) : (Function.update pc t next u).inMutex = (pc u).inMutex := by
    by_cases same : u = t
    · subst same
      rw [Function.update_self, out, before]
    · rw [Function.update_of_ne same]
  have elsewhere {u : τ} (inside : (pc u).inMutex = true) : Function.update pc t next u = pc u := by
    refine Function.update_of_ne ?_ ..
    rintro rfl
    rw [before] at inside
    cases inside
  refine ⟨fun u v one two => ?_, ?_, fun u one => ?_, sound.outside, fun _ _ => rfl, fun u v one => ?_, fun u one => ?_⟩
  · rw [inMutexAll] at one two
    exact sound.alone u v one two
  · simp only [inMutexAll]
    exact sound.held
  · rw [inMutexAll] at one
    rw [elsewhere one]
    exact sound.inside u one
  · have quietly : (pc u).quiet = true := by
      by_cases same : u = t
      · subst same
        rw [Function.update_self, quiet] at one
        cases one
      · rw [Function.update_of_ne same] at one
        exact one
    refine Bool.eq_false_iff.mpr fun opens => ?_
    have inside : (pc v).inMutex = true := by
      rw [← inMutexAll]
      exact DiskPc.inMutex_of_opening opens
    rw [elsewhere inside, sound.quiet u v quietly] at opens
    cases opens
  · have inside : (pc u).inMutex = true := by
      rw [← inMutexAll]
      exact DiskPc.inMutex_of_last one
    rw [elsewhere inside] at one
    exact sound.last u one

/-- Every effect keeps the disk in order. -/
theorem act {effect : DiskShared → Option (DiskShared × List DiskEvent × DiskPc)} {events : List DiskEvent}
    (sound : DiskSound disk pc) (op : diskProgram (pc t) = .act effect)
    (ran : effect disk = some (disk', events, next)) :
    DiskSound disk' (Function.update pc t next) := by
  have idle {p : DiskPc} (here : pc t = p) (keeps : p.Keeps next) (mutex : disk'.mutex = disk.mutex)
      (count : disk'.refCount = disk.refCount) (openers : disk'.openers = disk.openers)
        (dying : disk'.dying = disk.dying) :
      DiskSound disk' (Function.update pc t next) := sound.stay mutex count openers dying (here ▸ keeps)
  have inside {p : DiskPc} (here : pc t = p) (inMutex : p.inMutex = true) :
      disk.refCount = BitVec.ofInt 32 disk.openers + p.ahead := here ▸ sound.inside t (here ▸ inMutex)
  have lowered (ahead : disk.refCount = BitVec.ofInt 32 disk.openers + 1#32) :
      disk.refCount - 1#32 = BitVec.ofInt 32 disk.openers + 0#32 := by
    rw [ahead, BitVec.add_zero]
    exact BitVec.add_sub_cancel ..
  cases here : pc t with
  | holdoffTest count | exposeTest param | hideTest =>
    rw [here] at op
    cases op
    simp only [Option.some.injEq] at ran
    split at ran <;> cases ran <;> exact idle here ⟨rfl, rfl, id, id, id, id⟩ rfl rfl rfl rfl
  | holdoffInner count =>
    rw [here] at op
    cases op
    cases ran
    refine idle here ?_ rfl rfl rfl rfl
    split <;> exact ⟨rfl, rfl, id, id, id, id⟩
  | holdoffCount count reason =>
    rw [here] at op
    cases reason with
    | triggered =>
      cases op
      cases ran
      exact idle here ⟨rfl, rfl, id, id, id, id⟩ rfl rfl rfl rfl
    | timedOut =>
      cases op
      simp only [Option.some.injEq] at ran
      split at ran <;> cases ran <;> exact idle here ⟨rfl, rfl, id, id, id, id⟩ rfl rfl rfl rfl
  | pressureOn | pressureClear | addDone param =>
    rw [here] at op
    cases op
    cases ran
    exact idle here ⟨rfl, rfl, id, id, id, id⟩ rfl rfl rfl rfl
  | openMutex bdevOpen | closeMutex | hideMutex =>
    rw [here] at op
    cases op
    simp only at ran
    split at ran
    · cases ran
    · rename_i free
      cases ran
      exact sound.take (Bool.eq_false_iff.mpr free) rfl rfl (by rw [here]; exact id) rfl rfl
  | openDying bdevOpen =>
    rw [here] at op
    cases op
    simp only [Option.some.injEq] at ran
    split at ran
    · cases ran
      exact idle here ⟨rfl, rfl, id, id, id, id⟩ rfl rfl rfl rfl
    · rename_i alive
      cases ran
      have count := inside here rfl
      exact sound.hold rfl rfl (by rw [here]; rfl) rfl count nofun nofun
        (fun _ => .inr (Bool.eq_false_iff.mpr alive)) nofun
  | openIncr bdevOpen =>
    rw [here] at op
    cases op
    cases ran
    have count := inside here rfl
    have raised : disk.refCount + 1#32 = BitVec.ofInt 32 disk.openers + 1#32 := by
      rw [count]
      exact congrArg (· + 1#32) (BitVec.add_zero _)
    have opens : (pc t).opening = true := by rw [here]; rfl
    split
    · exact sound.hold rfl rfl (by rw [here]; rfl) rfl raised nofun nofun (fun _ => .inl opens) nofun
    · exact sound.hold rfl rfl (by rw [here]; rfl) rfl raised nofun nofun (fun _ => .inl opens) nofun
  | openBdev bdevOpen =>
    rw [here] at op
    cases op
    cases ran
    refine idle here ?_ rfl rfl rfl rfl
    split <;> exact ⟨rfl, rfl, id, id, id, id⟩
  | openDec =>
    rw [here] at op
    cases op
    cases ran
    exact sound.hold rfl rfl (by rw [here]; rfl) rfl (lowered (inside here rfl)) nofun nofun nofun nofun
  | closeDecr last =>
    rw [here] at op
    cases op
    cases ran
    have count := lowered (inside here rfl)
    split
    · exact sound.hold rfl rfl (by rw [here]; rfl) rfl count nofun nofun nofun nofun
    · exact sound.hold rfl rfl (by rw [here]; rfl) rfl count nofun nofun nofun nofun
  | openCount =>
    rw [here] at op
    cases op
    cases ran
    have count : disk.refCount = BitVec.ofInt 32 (disk.openers + 1) + 0#32 := by
      rw [BitVec.add_zero, BitVec.ofInt_add]
      exact inside here rfl
    exact sound.hold rfl rfl (by rw [here]; rfl) rfl count nofun nofun nofun nofun
  | closeCount =>
    rw [here] at op
    cases op
    cases ran
    have count : disk.refCount = BitVec.ofInt 32 (disk.openers - 1) + 1#32 := by
      have level : disk.refCount = BitVec.ofInt 32 disk.openers + 0#32 := inside here rfl
      rw [level, BitVec.add_zero, Int.sub_eq_add_neg, BitVec.ofInt_add, BitVec.ofInt_neg, ← BitVec.sub_eq_add_neg]
      exact (BitVec.sub_add_cancel ..).symm
    exact sound.hold rfl rfl (by rw [here]; rfl) rfl count nofun nofun nofun beq_iff_eq.mp
  | openUnlock | closeUnlock =>
    rw [here] at op
    cases op
    cases ran
    exact sound.leave (by rw [here]; rfl) (by rw [here]; rfl) rfl nofun nofun
  | hideMutexUnlock =>
    rw [here] at op
    cases op
    cases ran
    exact sound.leave (by rw [here]; rfl) (by rw [here]; rfl) rfl (by rw [here]; exact id) (by rw [here]; exact id)
  | closeDying =>
    rw [here] at op
    cases op
    cases ran
    refine idle here ?_ rfl rfl rfl rfl
    split <;> exact ⟨rfl, rfl, id, id, id, id⟩
  | hideDying =>
    rw [here] at op
    cases op
    cases ran
    exact sound.mark rfl (by rw [here]; rfl) rfl
  | _ =>
    rw [here] at op
    cases op

end DiskSound

section Effects

variable {p : DiskPc} {events : List DiskEvent}
    {effect : DiskShared → Option (DiskShared × List DiskEvent × DiskPc)}

namespace DiskPc

omit [DecidableEq τ]

theorem act_holds (op : diskProgram p = .act effect) (ran : effect disk = some (disk', events, next)) :
    next.holds = p.holds := by
  unfold diskProgram at op
  split at op <;> cases op <;> dsimp only at ran <;> repeat' split at ran
  all_goals cases ran
  all_goals rfl

/-- The pressure is taken off by somebody who will broadcast. -/
theorem act_holdoff (op : diskProgram p = .act effect) (ran : effect disk = some (disk', events, next)) :
    disk'.holdoff = disk.holdoff ∨ disk'.holdoff = true ∨ next = .pressureBroadcast := by
  unfold diskProgram at op
  split at op <;> cases op <;> dsimp only at ran <;> repeat' split at ran
  all_goals cases ran
  all_goals first | exact .inl rfl | exact .inr (.inl rfl) | exact .inr (.inr rfl)

theorem act_done (op : diskProgram p = .act effect) (ran : effect disk = some (disk', events, next)) :
    disk'.done = disk.done ∨
      ∃ param, next = .addBroadcast param ∧ disk'.done = Function.update disk.done param true := by
  unfold diskProgram at op
  split at op <;> cases op <;> dsimp only at ran <;> repeat' split at ran
  all_goals cases ran
  all_goals first | exact .inl rfl | exact .inr ⟨_, rfl, rfl⟩

theorem act_openers (op : diskProgram p = .act effect) (ran : effect disk = some (disk', events, next)) :
    disk'.openers = disk.openers ∨ p.opening = true ∨
      disk'.openers = disk.openers - 1 ∧ next = .closeDecr (disk'.openers == 0) := by
  unfold diskProgram at op
  split at op <;> cases op <;> dsimp only at ran <;> repeat' split at ran
  all_goals cases ran
  all_goals first | exact .inl rfl | exact .inr (.inl rfl) | exact .inr (.inr ⟨rfl, rfl⟩)

/-- Nobody goes to wait for what has come. -/
theorem act_waits (op : diskProgram p = .act effect) (ran : effect disk = some (disk', events, next))
    (waits : (diskProgram next).IsWait) : next.ready disk' = false := by
  unfold diskProgram at op
  split at op <;> cases op <;> dsimp only at ran <;> repeat' split at ran
  all_goals cases ran
  all_goals simp_all [Op.IsWait, diskProgram, ready]

/-- Only a close owes a broadcast before it has the lock. -/
theorem act_owes {w : DiskPc} (op : diskProgram p = .act effect) (owing : p.owes w = true) :
    w = .hideWait ∧ (p = .closeDecr true ∨ p = .closeDying) := by
  unfold owes at owing
  split at owing <;> try first | cases op | cases owing
  · exact ⟨rfl, .inl rfl⟩
  · exact ⟨rfl, .inr rfl⟩

/-- Only the mutex of the block device blocks. -/
theorem act_blocked (op : diskProgram p = .act effect) (blocked : effect disk = none) :
    disk.mutex = true ∧ p.inMutex = false ∧ p.holds = false ∧ ∀ w, p.owes w = false := by
  unfold diskProgram at op
  split at op <;> cases op <;> dsimp only at blocked <;> repeat' split at blocked
  all_goals first | exact ⟨‹_›, rfl, rfl, fun _ => rfl⟩ | cases blocked

theorem ready_wait (ready : p.ready disk = true) :
    (∃ count, p = .holdoffWait count ∧ disk.holdoff = false) ∨
      (∃ param, p = .exposeWait param ∧ disk.done param = true) ∨
      (p = .hideWait ∧ disk.openers ≤ 0) := by
  cases p with
  | holdoffWait count => exact .inl ⟨count, rfl, by simpa [DiskPc.ready] using ready⟩
  | exposeWait param => exact .inr (.inl ⟨param, rfl, ready⟩)
  | hideWait => exact .inr (.inr ⟨rfl, by simpa [DiskPc.ready] using ready⟩)
  | _ => cases ready

end DiskPc

omit [DecidableEq τ] in
/-- Whoever makes come what another one waits for, owes it a broadcast until it has
told. -/
theorem DiskSound.owes {u : τ} (sound : DiskSound disk pc) (op : diskProgram (pc t) = .act effect)
    (ran : effect disk = some (disk', events, next)) (ready : (pc u).ready disk' = true)
    (before : (pc t).owes (pc u) = true ∨ ¬(pc u).ready disk = true) : next.owes (pc u) = true := by
  rcases DiskPc.ready_wait ready with ⟨count, here, off⟩ | ⟨param, here, done⟩ | ⟨here, level⟩
  · rw [here] at before ⊢
    have on : disk.holdoff = true := by
      rcases before with owing | waits
      · cases (DiskPc.act_owes op owing).1
      · simpa [DiskPc.ready] using waits
    rcases DiskPc.act_holdoff op ran with same | still | rfl
    · rw [same, on] at off
      cases off
    · rw [still] at off
      cases off
    · rfl
  · rw [here] at before ⊢
    have undone : disk.done param = false := by
      rcases before with owing | waits
      · cases (DiskPc.act_owes op owing).1
      · simpa [DiskPc.ready] using waits
    rcases DiskPc.act_done op ran with same | ⟨other, rfl, changed⟩
    · rw [same, undone] at done
      cases done
    · by_cases same : param = other
      · subst same
        exact beq_self_eq_true _
      · rw [changed, Function.update_of_ne same, undone] at done
        cases done
  · have closed : (pc t).opening = false := sound.quiet u t (by rw [here]; rfl)
    have marked : disk.dying = true := sound.marked u (by rw [here]; rfl)
    rw [here] at before ⊢
    rcases before with owing | waits
    · rcases (DiskPc.act_owes op owing).2 with at_ | at_
      · have count := sound.inside t (by rw [at_]; rfl)
        have none := sound.last t (by rw [at_]; rfl)
        rw [at_] at op count
        cases op
        cases ran
        have zero : disk.refCount - 1#32 = 0#32 := by
          rw [count, none]
          rfl
        rw [if_pos zero]
        rfl
      · rw [at_] at op
        cases op
        cases ran
        rw [if_pos marked]
        rfl
    · have some : 0 < disk.openers := by simpa [DiskPc.ready] using waits
      rcases DiskPc.act_openers op ran with same | opens | ⟨fewer, rfl⟩
      · omega
      · rw [opens] at closed
        cases closed
      · have none : disk'.openers = 0 := by omega
        rw [none]
        rfl

end Effects

/-- The functions of `kblock.c` keep the discipline of the condition variable. -/
theorem diskDiscipline : Discipline diskProgram DiskPc.Entry (DiskPc.holds · = true)
    (fun p w => p.owes w = true) (fun disk p => p.ready disk = true) (DiskSound (τ := τ)) where
  entry {_ q} entry := by
    cases q <;> first | exact ⟨Bool.false_ne_true, id⟩ | cases entry
  stop {p} op := by
    unfold diskProgram at op
    split at op <;> cases op
    exact ⟨Bool.false_ne_true, fun _ => Bool.false_ne_true⟩
  goes sound goes := sound.stay rfl rfl rfl rfl (DiskPc.keeps_of_goes goes)
  act sound op ran := by
    refine ⟨sound.act op ran, by rw [DiskPc.act_holds op ran],
      fun u _ _ ready before => sound.owes op ran ready before, ?_⟩
    intro waits
    rw [DiskPc.act_waits op ran waits]
    exact Bool.false_ne_true
  live {disk pc t effect} _ op busy := by
    cases ran : effect disk with
    | some result => rfl
    | none =>
      obtain ⟨_, _, holds, owes⟩ := DiskPc.act_blocked op ran
      rcases busy with held | ⟨w, owing⟩
      · rw [holds] at held
        cases held
      · rw [owes] at owing
        cases owing
  lock {p next} op := by
    unfold diskProgram at op
    split at op <;> cases op
    all_goals refine ⟨Bool.false_ne_true, rfl, fun w owing => ?_, id⟩
    all_goals cases w <;> first | rfl | cases owing
  unlock {p next} op := by
    unfold diskProgram at op
    split at op <;> cases op
    · rename_i count reason
      cases reason <;> exact ⟨rfl, Bool.false_ne_true, nofun, id⟩
    all_goals exact ⟨rfl, Bool.false_ne_true, nofun, id⟩
  wait {p kind next} op := by
    unfold diskProgram at op
    split at op <;> cases op
    · refine ⟨rfl, nofun, fun reason => ?_⟩
      cases reason <;> exact ⟨rfl, id⟩
    · exact ⟨rfl, nofun, fun _ => ⟨rfl, id⟩⟩
    · exact ⟨rfl, nofun, fun _ => ⟨rfl, id⟩⟩
  signal {p next} op := by
    unfold diskProgram at op
    split at op <;> cases op
  broadcast {p next} op := by
    unfold diskProgram at op
    split at op <;> cases op
    all_goals exact ⟨rfl, rfl, id⟩

/-- The runs of any threads on one disk, from before it is exposed. -/
abbrev DiskReach : Condvar τ DiskShared DiskPc → List (τ × DiskEvent) → Prop :=
  CondvarReach diskProgram DiskPc.Entry DiskShared.created .idle

/-- What a thread may wait for when nobody can go on. -/
inductive DiskRests (c : Condvar τ DiskShared DiskPc) (t : τ) : Prop
  | done : c.stage t = .outside → c.pc t = .idle → DiskRests c t
  | pressed {count} : c.pc t = .holdoffWait count → c.shared.holdoff = true → DiskRests c t
  | unexposed {param} : c.pc t = .exposeWait param → c.shared.done param = false → DiskRests c t
  | opened : c.pc t = .hideWait → 0 < c.shared.openers → DiskRests c t

omit [DecidableEq τ] in
theorem diskSound_created : DiskSound DiskShared.created fun _ : τ => DiskPc.idle :=
  ⟨fun _ _ => nofun, ⟨nofun, nofun⟩, fun _ => nofun, fun _ => rfl, fun _ => nofun, fun _ _ => nofun, fun _ => nofun⟩

/-- No wake-up of a disk is lost: when no thread can go on, the lock and the mutex are
free, writers are held off only under pressure, exposing waits only for a disk that
is not added yet, and hiding only for those that have the disk open. -/
theorem diskReach_rests {c : Condvar τ DiskShared DiskPc} {history : List (τ × DiskEvent)}
    (reach : DiskReach c history) (stuck : ∀ t, c.step diskProgram (.step t) = none)
    (locked : ∀ t, c.step diskProgram (.relock t false) = none) :
    c.owner = none ∧ c.shared.mutex = false ∧ ∀ t, DiskRests c t := by
  obtain ⟨free, sound, rests⟩ := condvarReach_rests reach diskDiscipline rfl diskSound_created stuck locked
  have waits {t : τ} (asleep : (diskProgram (c.pc t)).IsWait) (notReady : ¬(c.pc t).ready c.shared = true) :
      DiskRests c t ∧ (c.pc t).inMutex = false := by
    cases here : c.pc t with
    | holdoffWait count =>
      rw [here] at notReady
      exact ⟨.pressed here (by simpa [DiskPc.ready] using notReady), rfl⟩
    | exposeWait param =>
      rw [here] at notReady
      exact ⟨.unexposed here (by simpa [DiskPc.ready] using notReady), rfl⟩
    | hideWait =>
      rw [here] at notReady
      exact ⟨.opened here (by simpa [DiskPc.ready] using notReady), rfl⟩
    | holdoffCount count reason =>
      rw [here] at asleep
      cases reason <;> exact asleep.elim
    | _ =>
      rw [here] at asleep
      exact asleep.elim
  have idle {t : τ} (op : diskProgram (c.pc t) = .stop) : c.pc t = .idle := by
    cases here : c.pc t with
    | idle => rfl
    | holdoffCount count reason =>
      rw [here] at op
      cases reason <;> cases op
    | _ =>
      rw [here] at op
      cases op
  have mutex : c.shared.mutex = false := Bool.eq_false_iff.mpr fun taken => by
    obtain ⟨t, inMutex⟩ := sound.held.mp taken
    cases rests t with
    | stopped _ op =>
      rw [idle op] at inMutex
      cases inMutex
    | blocked _ op blocked _ =>
      rw [(DiskPc.act_blocked op blocked).2.1] at inMutex
      cases inMutex
    | sleeps _ _ asleep notReady =>
      rw [(waits asleep notReady).2] at inMutex
      cases inMutex
  refine ⟨free, mutex, fun t => ?_⟩
  cases rests t with
  | stopped outside op => exact .done outside (idle op)
  | blocked _ op blocked _ =>
    have taken := (DiskPc.act_blocked op blocked).1
    rw [mutex] at taken
    cases taken
  | sleeps _ _ asleep notReady => exact (waits asleep notReady).1

/-- One thread has the disk open while the other one hides it. -/
def openedRun : List (Monitor.Action (Fin 2) DiskPc) :=
  .call 0 (.openMutex true) :: List.replicate 6 (.step 0) ++ .call 1 .hideDying :: List.replicate 8 (.step 1)

theorem diskReach_rests_opened : ∃ (c : Condvar (Fin 2) DiskShared DiskPc) (history : List (Fin 2 × DiskEvent)),
    DiskReach c history ∧ history = [(0, .opened), (1, .quiesced)] ∧ DiskRests c 1 ∧ c.pc 1 = .hideWait := by
  have passes : (Transition.run (Condvar.step diskProgram)
      (fun c action => decide (action.Enters fun t => DiskPc.Entry (c.pc t)))
      (Condvar.initial DiskShared.created .idle) openedRun).any (fun r => r.2 == [(0, .opened), (1, .quiesced)] &&
        r.1.pc 1 == .hideWait && decide (∀ t : Fin 2, (r.1.step diskProgram (.step t)).isNone = true ∧
          (r.1.step diskProgram (.relock t false)).isNone = true)) = true := by decide +kernel
  obtain ⟨c, history, reach, same⟩ := Transition.Reach.of_check (fun _ _ => of_decide_eq_true) _ passes
  simp only [Bool.and_eq_true, beq_iff_eq, decide_eq_true_eq, Option.isNone_iff_eq_none] at same
  obtain ⟨⟨events, here⟩, stuck⟩ := same
  have rests := diskReach_rests reach (fun t => (stuck t).1) (fun t => (stuck t).2)
  exact ⟨c, history, reach, events, rests.2.2 1, here⟩

end IomemoryVsl
