import IomemoryVsl.DiskStateRuns

namespace IomemoryVsl

open Monitor Transition

section Ledger

variable {τ : Type*} [DecidableEq τ]

/-- The holdoff bit, as reported. -/
def pressure (history : List (τ × DiskEvent)) : Bool :=
  history.foldl (fun on event => match event.2 with | .pressed now => now | _ => on) false

/-- How many waits of a thread have run out since it last returned from
`holdoff_writes_under_pressure`. -/
def timeouts (t : τ) (history : List (τ × DiskEvent)) : Nat :=
  history.foldl (fun count event =>
    if event.1 = t then match event.2 with | .timedOut => count + 1 | .returned _ => 0 | _ => count else count) 0

omit [DecidableEq τ] in
theorem pressure_snoc (history : List (τ × DiskEvent)) (event : τ × DiskEvent) :
    pressure (history ++ [event]) = match event.2 with | .pressed now => now | _ => pressure history := by
  rw [pressure, List.foldl_append]
  rfl

theorem timeouts_snoc (t : τ) (history : List (τ × DiskEvent)) (event : τ × DiskEvent) :
    timeouts t (history ++ [event]) = if event.1 = t then match event.2 with
      | .timedOut => timeouts t history + 1 | .returned _ => 0 | _ => timeouts t history
      else timeouts t history := by
  rw [timeouts, List.foldl_append]
  rfl

theorem timeouts_snoc_of_ne {t u : τ} (other : u ≠ t) (history : List (τ × DiskEvent)) (event : DiskEvent) :
    timeouts u (history ++ [(t, event)]) = timeouts u history := by
  rw [timeouts_snoc, if_neg other.symm]

theorem timeouts_snoc_self (t : τ) (history : List (τ × DiskEvent)) (event : DiskEvent) :
    timeouts t (history ++ [(t, event)]) = match event with
      | .timedOut => timeouts t history + 1 | .returned _ => 0 | _ => timeouts t history := by
  rw [timeouts_snoc, if_pos rfl]

/-- A writer is let through when there is no pressure, and is turned away only under
pressure and after exactly 12 waits that ran out. -/
def HoldoffRule (before : List (τ × DiskEvent)) : τ × DiskEvent → Prop
  | (t, .returned retval) => retval = !pressure before ∧ (retval = false → timeouts t before = 12)
  | (t, .timedOut) => timeouts t before < 12
  | _ => True

/-- No open succeeds once `linux_bdev_hide_disk` has had the mutex. -/
def OpenRule (before : List (τ × DiskEvent)) (event : τ × DiskEvent) : Prop :=
  event.2 = .opened → ∀ t, (t, .quiesced) ∉ before

end Ledger

/-- The `count` of `holdoff_writes_under_pressure`. -/
def DiskPc.count : DiskPc → Nat
  | holdoffTest count | holdoffLock count | holdoffInner count | holdoffWait count | holdoffUnlock count _
  | holdoffCount count _ => count
  | _ => 0

section Effects

variable {p next : DiskPc} {disk disk' : DiskShared} {events : List DiskEvent}
  {effect : DiskShared → Option (DiskShared × List DiskEvent × DiskPc)}

namespace DiskPc

theorem count_of_goes (goes : (diskProgram p).Goes p.Entry next) : next.count = p.count := by
  cases p with
  | idle =>
    cases next with
    | holdoffTest count => exact beq_iff_eq.mp goes
    | _ => first | rfl | cases goes
  | holdoffWait count =>
    obtain ⟨reason, rfl⟩ := goes
    cases reason <;> rfl
  | holdoffCount count reason => cases reason <;> cases goes
  | exposeWait | hideWait =>
    obtain ⟨_, rfl⟩ := goes
    rfl
  | _ =>
    cases goes
    try rfl

/-- What an effect can report about the pressure and about held off writers. -/
inductive Reports (p next : DiskPc) (disk disk' : DiskShared) : List DiskEvent → Prop
  | silent : disk'.holdoff = disk.holdoff → next.count = p.count → Reports p next disk disk' []
  | other {event} : disk'.holdoff = disk.holdoff → next.count = p.count → (∀ now, event ≠ .pressed now) →
      event ≠ .timedOut → (∀ retval, event ≠ .returned retval) → Reports p next disk disk' [event]
  | pressed : next.count = p.count → Reports p next disk disk' [.pressed disk'.holdoff]
  | timedOut : disk'.holdoff = disk.holdoff → next.count = p.count + 1 → p.count + 1 < 12 →
      Reports p next disk disk' [.timedOut]
  | passed : disk'.holdoff = disk.holdoff → disk.holdoff = false → next.count = 0 →
      Reports p next disk disk' [.returned true]
  | gaveUp : disk'.holdoff = disk.holdoff → 12 ≤ p.count + 1 → next.count = 0 →
      Reports p next disk disk' [.timedOut, .returned (!disk.holdoff)]

theorem act_reports (op : diskProgram p = .act effect) (ran : effect disk = some (disk', events, next)) :
    Reports p next disk disk' events := by
  unfold diskProgram at op
  split at op <;> cases op <;> dsimp only at ran <;> repeat' split at ran
  all_goals cases ran
  all_goals first
    | exact .silent rfl rfl
    | exact .other rfl rfl nofun nofun nofun
    | exact .pressed rfl
    | exact .passed rfl (Bool.eq_false_iff.mpr ‹_›) rfl
    | exact .gaveUp rfl ‹_› rfl
    | exact .timedOut rfl rfl (Nat.lt_of_not_le ‹_›)

theorem act_opened (op : diskProgram p = .act effect) (ran : effect disk = some (disk', events, next))
    (opened : .opened ∈ events) : events = [.opened] ∧ p.opening = true := by
  unfold diskProgram at op
  split at op <;> cases op <;> dsimp only at ran <;> repeat' split at ran
  all_goals cases ran
  all_goals first | exact ⟨rfl, rfl⟩ | simp at opened

theorem act_quiesced (op : diskProgram p = .act effect) (ran : effect disk = some (disk', events, next))
    (quiesced : .quiesced ∈ events) : p = .hideMutexUnlock ∧ next = .hideLock ∧ disk'.dying = disk.dying := by
  unfold diskProgram at op
  split at op <;> cases op <;> dsimp only at ran <;> repeat' split at ran
  all_goals cases ran
  all_goals first | exact ⟨rfl, rfl, rfl⟩ | simp at quiesced

/-- A dying queue stays so, and no open gets past it. -/
theorem act_dying (op : diskProgram p = .act effect) (ran : effect disk = some (disk', events, next))
    (dying : disk.dying = true) : disk'.dying = true ∧ (next.opening = true → p.opening = true) := by
  unfold diskProgram at op
  split at op <;> cases op <;> dsimp only at ran <;> repeat' split at ran
  all_goals cases ran
  all_goals first | exact ⟨dying, id⟩ | exact ⟨rfl, id⟩ | exact ⟨dying, nofun⟩

end DiskPc

end Effects

variable {τ : Type*} [DecidableEq τ] {disk disk' : DiskShared} {pc : τ → DiskPc} {history : List (τ × DiskEvent)}

/-- The holdoff bit and every writer's count are those of the history. -/
structure HoldoffLedger (disk : DiskShared) (pc : τ → DiskPc) (history : List (τ × DiskEvent)) : Prop where
  pressure : disk.holdoff = pressure history
  count : ∀ t, (pc t).count = timeouts t history
  small : ∀ t, (pc t).count < 12
  rule : Historical HoldoffRule history

theorem HoldoffLedger.act {t : τ} {next : DiskPc} {events : List DiskEvent} (ledger : HoldoffLedger disk pc history)
    (reports : DiskPc.Reports (pc t) next disk disk' events) :
    HoldoffLedger disk' (Function.update pc t next) (history ++ events.map fun event => (t, event)) := by
  have onward {h : List (τ × DiskEvent)} (count : next.count = timeouts t h)
      (others : ∀ u, u ≠ t → timeouts u h = timeouts u history) (u : τ) :
      (Function.update pc t next u).count = timeouts u h := by
    by_cases same : u = t
    · subst same
      rw [Function.update_self]
      exact count
    · rw [Function.update_of_ne same, others u same]
      exact ledger.count u
  have small (bound : next.count < 12) (u : τ) : (Function.update pc t next u).count < 12 := by
    by_cases same : u = t
    · subst same
      rw [Function.update_self]
      exact bound
    · rw [Function.update_of_ne same]
      exact ledger.small u
  have before := ledger.small t
  have count := ledger.count t
  cases reports with
  | silent holdoff same =>
    rw [List.map_nil, List.append_nil]
    exact ⟨holdoff.trans ledger.pressure, onward (same.trans count) fun _ _ => rfl, small (same ▸ before),
      ledger.rule⟩
  | other holdoff same notPressed notTimedOut notReturned =>
    rename_i event
    refine ⟨?_, onward ?_ fun u other => timeouts_snoc_of_ne other .., small (same ▸ before), ledger.rule.snoc ?_⟩
    · rw [List.map_singleton, pressure_snoc, holdoff, ledger.pressure]
      cases event with
      | pressed now => exact absurd rfl (notPressed now)
      | _ => rfl
    · rw [List.map_singleton, timeouts_snoc_self, same, count]
      cases event with
      | timedOut => exact absurd rfl notTimedOut
      | returned retval => exact absurd rfl (notReturned retval)
      | _ => rfl
    · cases event with
      | timedOut => exact absurd rfl notTimedOut
      | returned retval => exact absurd rfl (notReturned retval)
      | _ => trivial
  | pressed same =>
    refine ⟨?_, onward ?_ fun u other => timeouts_snoc_of_ne other .., small (same ▸ before),
      ledger.rule.snoc trivial⟩
    · rw [List.map_singleton, pressure_snoc]
    · rw [List.map_singleton, timeouts_snoc_self]
      exact same.trans count
  | timedOut holdoff next few =>
    refine ⟨?_, onward ?_ fun u other => timeouts_snoc_of_ne other .., small (next ▸ few), ledger.rule.snoc ?_⟩
    · rw [List.map_singleton, pressure_snoc]
      exact holdoff.trans ledger.pressure
    · rw [List.map_singleton, timeouts_snoc_self, next, count]
    · show timeouts t history < 12
      omega
  | passed holdoff off next =>
    refine ⟨?_, onward ?_ fun u other => timeouts_snoc_of_ne other .., small (by omega), ledger.rule.snoc ?_⟩
    · rw [List.map_singleton, pressure_snoc]
      exact holdoff.trans ledger.pressure
    · rw [List.map_singleton, timeouts_snoc_self]
      exact next
    · refine ⟨?_, nofun⟩
      rw [← ledger.pressure, off]
      rfl
  | gaveUp holdoff many next =>
    have last : timeouts t (history ++ [(t, .timedOut)]) = 12 := by
      rw [timeouts_snoc_self]
      show timeouts t history + 1 = 12
      omega
    rw [List.map_cons, List.map_singleton, List.append_cons]
    refine ⟨?_, onward ?_ fun u other => ?_, small (by omega), (ledger.rule.snoc ?_).snoc ⟨?_, fun _ => last⟩⟩
    · rw [pressure_snoc, pressure_snoc]
      exact holdoff.trans ledger.pressure
    · rw [timeouts_snoc_self]
      exact next
    · rw [timeouts_snoc_of_ne other, timeouts_snoc_of_ne other]
    · show timeouts t history < 12
      omega
    · rw [pressure_snoc, ← ledger.pressure]

/-- In every run on `kcondvar.c`, with any writers and whoever sets and clears the
pressure, `holdoff_writes_under_pressure` answers by the pressure at the moment it
returns, and turns a write away only after exactly 12 waits of the call that ran out. Waits
that are triggered leave this count as it is. -/
theorem diskReach_holdoff {c : Condvar τ DiskShared DiskPc} (reach : DiskReach c history) :
    c.shared.holdoff = pressure history ∧ Historical HoldoffRule history := by
  obtain ⟨a, monitor, sim⟩ := condvarReach_refines reach
  have ledger : HoldoffLedger a.shared a.pc history := by
    refine Reach.assertion (I := HoldoffLedger) monitor ?_ ?_ ?_
    · exact ⟨rfl, fun _ => rfl, fun _ => Nat.succ_pos 11, historical_nil _⟩
    · intro shared pc history t next ledger goes
      have count := DiskPc.count_of_goes goes
      have same (u : τ) : (Function.update pc t next u).count = (pc u).count := by
        by_cases here : u = t
        · subst here
          rw [Function.update_self]
          exact count
        · rw [Function.update_of_ne here]
      refine ⟨ledger.pressure, fun u => ?_, fun u => ?_, ledger.rule⟩
      · rw [same]
        exact ledger.count u
      · rw [same]
        exact ledger.small u
    · intro shared pc history t effect shared' events next ledger op ran
      exact ledger.act (DiskPc.act_reports op ran)
  rw [← sim.shared]
  exact ⟨ledger.pressure, ledger.rule⟩

/-- What `linux_bdev_hide_disk` has reached with its turn of the mutex. -/
structure OpenLedger (disk : DiskShared) (pc : τ → DiskPc) (history : List (τ × DiskEvent)) : Prop where
  sound : DiskSound disk pc
  shut : ∀ t, (t, .quiesced) ∈ history → disk.dying = true ∧ ∀ u, (pc u).opening = false
  rule : Historical OpenRule history

theorem OpenLedger.act {t : τ} {next : DiskPc} {events : List DiskEvent}
    {effect : DiskShared → Option (DiskShared × List DiskEvent × DiskPc)} (ledger : OpenLedger disk pc history)
    (op : diskProgram (pc t) = .act effect) (ran : effect disk = some (disk', events, next)) :
    OpenLedger disk' (Function.update pc t next) (history ++ events.map fun event => (t, event)) := by
  refine ⟨ledger.sound.act op ran, fun u quiesced => ?_, ?_⟩
  · obtain ⟨dying, shut, closed⟩ : disk'.dying = true ∧ next.opening = false ∧ ∀ u, u ≠ t →
      (pc u).opening = false := by
      rcases List.mem_append.mp quiesced with past | now
      · obtain ⟨dying, shut⟩ := ledger.shut u past
        obtain ⟨still, opening⟩ := DiskPc.act_dying op ran dying
        refine ⟨still, Bool.eq_false_iff.mpr fun opens => ?_, fun v _ => shut v⟩
        have opened := opening opens
        rw [shut] at opened
        cases opened
      · obtain ⟨event, member, same⟩ := List.mem_map.mp now
        cases same
        -- the mutex is held here, so no open is under way
        obtain ⟨here, rfl, same⟩ := DiskPc.act_quiesced op ran member
        have inMutex : (pc t).inMutex = true := by rw [here]; rfl
        refine ⟨same.trans (ledger.sound.marked t (by rw [here]; rfl)), rfl, fun v other => ?_⟩
        refine Bool.eq_false_iff.mpr fun opens => ?_
        have out := ledger.sound.others_out inMutex other
        rw [DiskPc.inMutex_of_opening opens] at out
        cases out
    refine ⟨dying, fun v => ?_⟩
    by_cases same : v = t
    · subst same
      rw [Function.update_self]
      exact shut
    · rw [Function.update_of_ne same]
      exact closed v same
  · by_cases opened : .opened ∈ events
    · obtain ⟨rfl, opening⟩ := DiskPc.act_opened op ran opened
      refine ledger.rule.snoc fun _ u quiesced => ?_
      have shut := (ledger.shut u quiesced).2 t
      rw [opening] at shut
      cases shut
    · refine ledger.rule.append fun before event member same => ?_
      obtain ⟨event, inside, rfl⟩ := List.mem_map.mp member
      cases same
      exact absurd inside opened

/-- In every run on `kcondvar.c` no open of a disk succeeds after
`linux_bdev_hide_disk` has locked and unlocked the mutex of the block device. -/
theorem diskReach_quiesced {c : Condvar τ DiskShared DiskPc} (reach : DiskReach c history) :
    Historical OpenRule history := by
  obtain ⟨a, monitor, _⟩ := condvarReach_refines reach
  have ledger : OpenLedger a.shared a.pc history := by
    refine Reach.assertion (I := OpenLedger) monitor ⟨diskSound_created, nofun, historical_nil _⟩ ?_ ?_
    · intro shared pc history t next ledger goes
      have keeps := DiskPc.keeps_of_goes goes
      refine ⟨ledger.sound.stay rfl rfl rfl rfl keeps, fun u quiesced => ?_, ledger.rule⟩
      obtain ⟨dying, shut⟩ := ledger.shut u quiesced
      refine ⟨dying, fun v => ?_⟩
      by_cases same : v = t
      · subst same
        rw [Function.update_self]
        refine Bool.eq_false_iff.mpr fun opens => ?_
        have before := keeps.opening opens
        rw [shut] at before
        cases before
      · rw [Function.update_of_ne same]
        exact shut v
    · intro shared pc history t effect shared' events next ledger op ran
      exact ledger.act op ran
  exact ledger.rule

/-- A writer whose waits all run out while the disk is opened, hidden and opened again. -/
def heldOffRun : List (Monitor.Action (Fin 3) DiskPc) :=
  [.call 0 .pressureOn, .step 0, .call 1 (.holdoffTest 0)] ++
    (List.replicate 12 ([.step 1, .step 1, .step 1, .step 1, .step 1, .step 1, .timeout 1, .relock 1 false] ++
      List.replicate 3 (.step 1))).flatten ++
    .call 0 (.openMutex true) :: List.replicate 6 (.step 0) ++ .call 2 .hideDying :: List.replicate 3 (.step 2) ++
    .call 0 (.openMutex true) :: List.replicate 2 (.step 0)

def heldOffHistory : List (Fin 3 × DiskEvent) :=
  (0, .pressed true) :: List.replicate 12 (1, .timedOut) ++
    [(1, .returned false), (0, .opened), (2, .quiesced), (0, .openFailed)]

theorem heldOffRun_reaches : ∃ c, DiskReach c heldOffHistory := by
  have passes : (Transition.run (Condvar.step diskProgram)
      (fun c action => decide (action.Enters fun t => DiskPc.Entry (c.pc t)))
      (Condvar.initial DiskShared.created .idle) heldOffRun).any
        (fun r => r.2 == heldOffHistory) = true := by decide +kernel
  obtain ⟨c, history, reach, same⟩ := Transition.Reach.of_check (fun _ _ => of_decide_eq_true) _ passes
  obtain rfl := beq_iff_eq.mp same
  exact ⟨c, reach⟩

theorem diskReach_holdoff_heldOff : pressure heldOffHistory = true ∧ Historical HoldoffRule heldOffHistory := by
  obtain ⟨_, reach⟩ := heldOffRun_reaches
  exact ⟨rfl, (diskReach_holdoff reach).2⟩

theorem diskReach_quiesced_heldOff : (2, .quiesced) ∈ heldOffHistory ∧ Historical OpenRule heldOffHistory := by
  obtain ⟨_, reach⟩ := heldOffRun_reaches
  exact ⟨by simp [heldOffHistory], diskReach_quiesced reach⟩

end IomemoryVsl
