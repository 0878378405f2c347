import IomemoryVsl.Kcondvar

namespace IomemoryVsl

open Monitor

variable {τ σ ε π : Type*}

namespace Condvar

/-- The thread waits for a wake-up and has given up the lock. -/
def awaits (c : Condvar τ σ π) (t : τ) : Bool := !c.up t && c.stage t != .prepared

end Condvar

/-- Where a thread in a given stage stands in the monitor. -/
def Stands (prog : π → Op σ ε π) (place : Place) (apc pc : π) (up : Bool) (queued last owns : Prop) :
    CondvarStage → Prop
  | .outside => place = .running ∧ apc = pc ∧ up = true ∧ ¬queued
  | .prepared => place = .running ∧ apc = pc ∧ owns ∧ queued ∧ last ∧
      ∃ kind next, prog pc = .wait kind next ∧ (up = true → kind.interruptible = true)
  | .released | .asleep => apc = pc ∧ (prog pc).IsWait ∧ place = (if up then .woken false else .waiting) ∧
      (up = false → queued)
  | .back timer => apc = pc ∧ (prog pc).IsWait ∧ place = .woken timer ∧ up = true
  | .locked reason => place = .running ∧ owns ∧ up = true ∧ ∃ kind next, prog pc = .wait kind next ∧
    apc = next reason

/-- The threads of the monitor stand where the threads on the wait queue have
come, and wait in the same order. -/
structure Implements (prog : π → Op σ ε π) (c : Condvar τ σ π) (a : State τ σ π) : Prop where
  shared : a.shared = c.shared
  owner : a.owner = c.owner
  nodup : c.queue.Nodup
  queue : a.queue = c.queue.filter c.awaits
  thread : ∀ t, Stands prog (a.place t) (a.pc t) (c.pc t) (c.up t) (t ∈ c.queue) (c.queue.getLast? = some t)
    (c.owner = some t) (c.stage t)

variable {prog : π → Op σ ε π} {c : Condvar τ σ π} {a : State τ σ π} {t : τ}

/-- The stand of a thread that does nothing and that nobody touches. -/
theorem Stands.mono {place : Place} {apc pc : π} {up : Bool} {queued last owns queued' last' owns' : Prop}
    {stage : CondvarStage} (stands : Stands prog place apc pc up queued last owns stage) (same : queued' ↔ queued)
    (keeps : owns → owns' ∧ (last → last')) : Stands prog place apc pc up queued' last' owns' stage := by
  cases stage with
  | outside =>
    obtain ⟨running, pcs, isUp, outside⟩ := stands
    exact ⟨running, pcs, isUp, fun queued => outside (same.mp queued)⟩
  | prepared =>
    obtain ⟨running, pcs, owns, queued, last, op⟩ := stands
    exact ⟨running, pcs, (keeps owns).1, same.mpr queued, (keeps owns).2 last, op⟩
  | released | asleep =>
    obtain ⟨pcs, waits, placed, queued⟩ := stands
    exact ⟨pcs, waits, placed, fun down => same.mpr (queued down)⟩
  | back timer => exact stands
  | locked reason =>
    obtain ⟨running, owns, isUp, op⟩ := stands
    exact ⟨running, (keeps owns).1, isUp, op⟩

variable [DecidableEq τ]

section Filter

variable {list : List τ} {p q : τ → Bool}

theorem filter_eq_erase (distinct : list.Nodup) (gone : q t = false) (same : ∀ u, u ≠ t → q u = p u) :
    list.filter q = (list.filter p).erase t := by
  rw [(distinct.filter p).erase_eq_filter, List.filter_filter]
  refine List.filter_congr fun u _ => ?_
  by_cases here : u = t
  · subst here
    simp [gone]
  · simp [same u here, here]

omit [DecidableEq τ] in
theorem filter_eq_snoc (distinct : list.Nodup) (last : list.getLast? = some t) (before : p t = false)
    (now : q t = true)
    (same : ∀ u, u ≠ t → q u = p u) : list.filter q = list.filter p ++ [t] := by
  obtain ⟨front, rfl⟩ := List.getLast?_eq_some_iff.mp last
  rw [List.filter_append, List.filter_append, List.filter_singleton, List.filter_singleton, before, now]
  simp only [cond_true, cond_false, List.append_nil, List.append_cancel_right_eq]
  refine List.filter_congr fun u member => same u ?_
  rintro rfl
  exact (List.nodup_append.mp distinct).2.2 u member u (List.mem_singleton_self u) rfl

end Filter

/-- One thread goes on, in the wait queue and in the monitor. -/
theorem Implements.move {c' : Condvar τ σ π} {a' : State τ σ π} (sim : Implements prog c a) (t : τ)
    (shared : a'.shared = c'.shared) (owner : a'.owner = c'.owner) (nodup : c'.queue.Nodup)
    (queue : a'.queue = c'.queue.filter c'.awaits)
    (same : ∀ u, u ≠ t → a'.place u = a.place u ∧ a'.pc u = a.pc u ∧ c'.pc u = c.pc u ∧ c'.up u = c.up u ∧
      c'.stage u = c.stage u ∧ (u ∈ c'.queue ↔ u ∈ c.queue))
    (keeps : ∀ u, u ≠ t → c.owner = some u →
      c'.owner = some u ∧ (c.queue.getLast? = some u → c'.queue.getLast? = some u))
    (stands : Stands prog (a'.place t) (a'.pc t) (c'.pc t) (c'.up t) (t ∈ c'.queue) (c'.queue.getLast? = some t)
      (c'.owner = some t) (c'.stage t)) : Implements prog c' a' := by
  refine ⟨shared, owner, nodup, queue, fun u => ?_⟩
  by_cases here : u = t
  · subst here
    exact stands
  · obtain ⟨place, apc, pc, up, stage, queued⟩ := same u here
    rw [place, apc, pc, up, stage]
    exact (sim.thread u).mono queued (keeps u here)

omit [DecidableEq τ] in
theorem awaits_of_ne {c' : Condvar τ σ π} {u : τ} (up : c'.up u = c.up u) (stage : c'.stage u = c.stage u) :
    c'.awaits u = c.awaits u := by
  rw [Condvar.awaits, Condvar.awaits, up, stage]

omit [DecidableEq τ] in
theorem Implements.mem_queue (sim : Implements prog c a) {u : τ} :
    u ∈ a.queue ↔ u ∈ c.queue ∧ c.awaits u = true := by
  rw [sim.queue, List.mem_filter]

/-- A thread outside goes on to another point of its program. -/
theorem Implements.goto (sim : Implements prog c a) (outside : c.stage t = .outside) (shared' : σ)
    {owner' : Option τ} (keeps : ∀ u, u ≠ t → c.owner = some u → owner' = some u) (next : π) :
    Implements prog ({ c with shared := shared', owner := owner' }.goto t next)
      ({ a with shared := shared', owner := owner' }.goto t next) := by
  have stands := sim.thread t
  rw [outside] at stands
  obtain ⟨running, _, isUp, unqueued⟩ := stands
  refine sim.move t rfl rfl sim.nodup sim.queue (fun u other => ?_) (fun u other owner => ?_) ?_
  · exact ⟨rfl, Function.update_of_ne other .., Function.update_of_ne other .., rfl, rfl, Iff.rfl⟩
  · exact ⟨keeps u other owner, id⟩
  · show Stands prog _ _ _ _ _ _ _ (c.stage t)
    rw [outside]
    refine ⟨running, ?_, isUp, unqueued⟩
    rw [State.goto_pc_self]
    exact (Function.update_self t next c.pc).symm

omit [DecidableEq τ] in
/-- While a thread outside has the lock, every thread that is not up waits. -/
theorem Implements.down (sim : Implements prog c a) (outside : c.stage t = .outside)
    (owner : c.owner = some t) {u : τ}
    (down : c.up u = false) : u ∈ c.queue ∧ c.awaits u = true ∧ a.pc u = c.pc u ∧ (prog (c.pc u)).IsWait ∧
      (c.stage u = .released ∨ c.stage u = .asleep) := by
  have stands := sim.thread u
  cases stage : c.stage u with
  | outside | back | locked =>
    rw [stage, down] at stands
    simp [Stands] at stands
  | prepared =>
    rw [stage] at stands
    obtain ⟨_, _, owns, _⟩ := stands
    obtain rfl := Option.some.inj (owner.symm.trans owns)
    rw [outside] at stage
    cases stage
  | released | asleep =>
    rw [stage] at stands
    obtain ⟨pcs, waits, _, queued⟩ := stands
    exact ⟨queued down, by simp [Condvar.awaits, down, stage], pcs, waits, by simp⟩

omit [DecidableEq τ] in
theorem Implements.awaits_eq (sim : Implements prog c a) (outside : c.stage t = .outside)
    (owner : c.owner = some t) :
    c.awaits = fun u => !c.up u := by
  funext u
  cases up : c.up u with
  | true => simp [Condvar.awaits, up]
  | false => exact (sim.down outside owner up).2.1

omit [DecidableEq τ] in
theorem Implements.not_mem_queue (sim : Implements prog c a) (outside : c.stage t = .outside) : t ∉ c.queue := by
  have stands := sim.thread t
  rw [outside] at stands
  exact stands.2.2.2

/-- A signal wakes the thread that has waited longest. -/
theorem Implements.signal (sim : Implements prog c a) (outside : c.stage t = .outside) (owner : c.owner = some t) :
    Implements prog c.fusionCondvarSignal (match a.queue with | [] => a | first :: _ => a.wake first false) := by
  have unqueued := sim.not_mem_queue outside
  have queue := sim.queue
  rw [sim.awaits_eq outside owner] at queue
  have heads : c.queue.find? (fun u => !c.up u) = a.queue.head? := by rw [queue, List.head?_filter]
  rw [Condvar.fusionCondvarSignal, heads]
  cases waiting : a.queue with
  | nil => exact sim
  | cons first rest =>
    have member : first ∈ a.queue := by
      rw [waiting]
      exact List.mem_cons_self
    obtain ⟨queued, awaits⟩ := sim.mem_queue.mp member
    rw [queue, List.mem_filter, Bool.not_eq_true'] at member
    obtain ⟨_, _, pcs, waits, stage⟩ := sim.down outside owner member.2
    have update (u : τ) (other : u ≠ first) : Function.update c.up first true u = c.up u :=
      Function.update_of_ne other ..
    have upNow : Function.update c.up first true first = true := Function.update_self ..
    refine sim.move first sim.shared sim.owner (sim.nodup.erase first) ?_ (fun u other => ?_)
      (fun u other mine => ?_) ?_
    · show a.queue.erase first = (c.queue.erase first).filter _
      rw [sim.queue, List.erase_filter]
      refine List.filter_congr fun u inside => ?_
      have kept : ({ c.tryToWakeUp first with queue := c.queue.erase first } : Condvar τ σ π).up u = c.up u :=
        update u (sim.nodup.mem_erase_iff.mp inside).1
      exact (awaits_of_ne kept rfl).symm
    · exact ⟨State.wake_place_of_ne other, rfl, rfl, update u other, rfl, List.mem_erase_of_ne other⟩
    · refine ⟨mine, fun last => ?_⟩
      obtain rfl := Option.some.inj (owner.symm.trans mine)
      exact absurd (List.mem_of_getLast? last) unqueued
    · show Stands prog _ _ _ (Function.update c.up first true first) _ _ _ (c.stage first)
      rw [upNow]
      rcases stage with stage | stage
      · rw [stage]
        exact ⟨pcs, waits, State.wake_place_self, fun down => by cases down⟩
      · rw [stage]
        exact ⟨pcs, waits, State.wake_place_self, fun down => by cases down⟩

/-- A broadcast wakes every thread that waits. -/
theorem Implements.broadcast (sim : Implements prog c a) (outside : c.stage t = .outside)
    (owner : c.owner = some t) :
    Implements prog c.fusionCondvarBroadcast a.wakeAll := by
  have upAll {u : τ} (up : c.up u = true) : c.fusionCondvarBroadcast.up u = true := by
    simp [Condvar.fusionCondvarBroadcast, up]
  refine ⟨sim.shared, sim.owner, sim.nodup.filter _, ?_, fun u => ?_⟩
  · show [] = (c.queue.filter c.up).filter _
    rw [eq_comm, List.filter_eq_nil_iff]
    intro u member
    rw [Condvar.awaits, upAll (List.mem_filter.mp member).2]
    simp
  · cases up : c.up u with
    | true =>
      have notAwaits : u ∉ a.queue := fun member => by
        have awaits := (sim.mem_queue.mp member).2
        simp [Condvar.awaits, up] at awaits
      have stands := sim.thread u
      rw [up] at stands
      rw [upAll up, State.wakeAll_place_of_not_mem notAwaits]
      refine stands.mono ?_ fun owns => ⟨owns, fun last => ?_⟩
      · show u ∈ c.queue.filter c.up ↔ _
        rw [List.mem_filter, up]
        exact and_iff_left rfl
      · obtain rfl := Option.some.inj (owner.symm.trans owns)
        exact absurd (List.mem_of_getLast? last) (sim.not_mem_queue outside)
    | false =>
      obtain ⟨queued, awaits, pcs, waits, stage⟩ := sim.down outside owner up
      have now : c.fusionCondvarBroadcast.up u = true := by simp [Condvar.fusionCondvarBroadcast, queued]
      rw [now, State.wakeAll_place_of_mem (sim.mem_queue.mpr ⟨queued, awaits⟩)]
      show Stands prog _ _ _ _ _ _ _ (c.stage u)
      rcases stage with stage | stage
      · rw [stage]
        exact ⟨pcs, waits, rfl, fun down => by cases down⟩
      · rw [stage]
        exact ⟨pcs, waits, rfl, fun down => by cases down⟩

theorem Condvar.fusionCondvarSignal_stage (c : Condvar τ σ π) : c.fusionCondvarSignal.stage = c.stage := by
  unfold Condvar.fusionCondvarSignal
  split
  · rfl
  · rfl

theorem Implements.onward (sim : Implements prog c a) (outside : c.stage t = .outside) (next : π) :
    Implements prog (c.goto t next) (a.goto t next) := by
  obtain ⟨shared, owner, apc, place, queue⟩ := a
  obtain rfl : shared = c.shared := sim.shared
  obtain rfl : owner = c.owner := sim.owner
  exact sim.goto outside c.shared (fun _ _ => id) next

/-- A thread goes on the queue. In the monitor it has not given up the lock yet. -/
theorem Implements.prepare {kind : WaitKind} {next : Reason → π} (sim : Implements prog c a)
    (outside : c.stage t = .outside) (owner : c.owner = some t) (op : prog (c.pc t) = .wait kind next) :
    Implements prog ((c.prepareToWaitExclusive t).setStage t .prepared) a := by
  have stands := sim.thread t
  rw [outside] at stands
  obtain ⟨running, pcs, isUp, unqueued⟩ := stands
  have stage_of_ne {u : τ} (other : u ≠ t) : Function.update c.stage t .prepared u = c.stage u :=
    Function.update_of_ne other ..
  have up_of_ne {u : τ} (other : u ≠ t) : Function.update c.up t false u = c.up u := Function.update_of_ne other ..
  refine sim.move t sim.shared sim.owner ?_ ?_ (fun u other => ?_) (fun u other mine => ?_) ?_
  · show (c.queue ++ [t]).Nodup
    rw [List.nodup_append]
    refine ⟨sim.nodup, List.nodup_singleton t, ?_⟩
    rintro u queued v single rfl
    rw [List.mem_singleton.mp single] at queued
    exact unqueued queued
  · show a.queue = (c.queue ++ [t]).filter _
    have last : Condvar.awaits ((c.prepareToWaitExclusive t).setStage t .prepared) t = false := by
      simp [Condvar.awaits, Condvar.setStage]
    rw [List.filter_append, List.filter_singleton, last, cond_false, List.append_nil, sim.queue]
    refine List.filter_congr fun u queued => (awaits_of_ne ?_ ?_).symm
    · exact up_of_ne fun same => unqueued (same ▸ queued)
    · exact stage_of_ne fun same => unqueued (same ▸ queued)
  · refine ⟨rfl, rfl, rfl, up_of_ne other, stage_of_ne other, ?_⟩
    show u ∈ c.queue ++ [t] ↔ _
    simp [other]
  · exact absurd (Option.some.inj (mine.symm.trans owner)) other
  · have placed : ((c.prepareToWaitExclusive t).setStage t .prepared).stage t = .prepared := Function.update_self ..
    have down : ((c.prepareToWaitExclusive t).setStage t .prepared).up t = false := Function.update_self ..
    rw [placed, down]
    refine ⟨running, pcs, owner, ?_, List.getLast?_concat, kind, next, op, fun up => by cases up⟩
    show t ∈ c.queue ++ [t]
    simp

/-- What a thread does outside a wait it does in the monitor too, except that it
goes on the wait queue before it gives up the lock. -/
theorem Implements.advance {c' : Condvar τ σ π} {events : List (τ × ε)} (sim : Implements prog c a)
    (outside : c.stage t = .outside) (ran : c.advance prog t = some (c', events)) :
    (∃ a', a.step prog (.step t) = some (a', events) ∧ Implements prog c' a') ∨
      (events = [] ∧ Implements prog c' a) := by
  obtain ⟨shared, owner, apc, place, queue⟩ := a
  obtain rfl : shared = c.shared := sim.shared
  obtain rfl : owner = c.owner := sim.owner
  have stands := sim.thread t
  rw [outside] at stands
  obtain ⟨running, pcs, isUp, unqueued⟩ := stands
  change apc t = c.pc t at pcs
  have stepped : State.step prog ⟨c.shared, c.owner, apc, place, queue⟩ (.step t) =
      State.advance prog ⟨c.shared, c.owner, apc, place, queue⟩ t := if_pos running
  rw [stepped, State.advance]
  unfold Condvar.advance at ran
  cases op : prog (c.pc t) with
  | stop =>
    rw [op] at ran
    cases ran
  | act effect =>
    simp only [op] at ran
    obtain ⟨⟨shared', evs, next⟩, effected, same⟩ := Option.map_eq_some_iff.mp ran
    cases same
    refine .inl ⟨_, ?_, sim.goto outside shared' (fun _ _ => id) next⟩
    simp only [pcs, op, effected, Option.map_some]
  | lock next =>
    simp only [op] at ran
    split at ran
    · rename_i free
      cases ran
      have keeps (u : τ) (_ : u ≠ t) (mine : c.owner = some u) : some t = some u := by
        rw [free] at mine
        cases mine
      refine .inl ⟨_, ?_, sim.goto outside c.shared keeps next⟩
      simp only [pcs, op, free, if_true]
    · cases ran
  | unlock next =>
    simp only [op] at ran
    split at ran
    · rename_i mine
      cases ran
      have keeps (u : τ) (other : u ≠ t) (theirs : c.owner = some u) : none = some u :=
        absurd (Option.some.inj (theirs.symm.trans mine)) other
      refine .inl ⟨_, ?_, sim.goto outside c.shared keeps next⟩
      simp only [pcs, op, mine, if_true]
    · cases ran
  | wait kind next =>
    simp only [op] at ran
    split at ran
    · rename_i mine
      cases ran
      exact .inr ⟨rfl, sim.prepare outside mine op⟩
    · cases ran
  | signal next =>
    simp only [op] at ran
    split at ran
    · rename_i mine
      cases ran
      have stays : c.fusionCondvarSignal.stage t = .outside := by
        rw [c.fusionCondvarSignal_stage]
        exact outside
      have moved := (sim.signal outside mine).onward stays next
      refine .inl ⟨_, ?_, moved⟩
      simp only [pcs, op]
      rw [if_pos mine]
      cases queue <;> rfl
    · cases ran
  | broadcast next =>
    simp only [op] at ran
    split at ran
    · rename_i mine
      cases ran
      refine .inl ⟨_, ?_, (sim.broadcast outside mine).onward outside next⟩
      simp only [pcs, op]
      exact if_pos mine
    · cases ran

section Stages

variable {stage : CondvarStage}

theorem setStage_self : (c.setStage t stage).stage t = stage := Function.update_self ..

theorem setStage_of_ne {u : τ} (other : u ≠ t) : (c.setStage t stage).stage u = c.stage u :=
  Function.update_of_ne other ..

theorem tryToWakeUp_self : (c.tryToWakeUp t).up t = true := Function.update_self ..

theorem tryToWakeUp_of_ne {u : τ} (other : u ≠ t) : (c.tryToWakeUp t).up u = c.up u :=
  Function.update_of_ne other ..

omit [DecidableEq τ] in
theorem awaits_of_up (up : c.up t = true) : c.awaits t = false := by simp [Condvar.awaits, up]

/-- A thread goes to another stage behind the lock, and stands in the monitor as before. -/
theorem Implements.restage (sim : Implements prog c a) (stage : CondvarStage)
    (awaits : (c.setStage t stage).awaits t = c.awaits t)
    (stands : Stands prog (a.place t) (a.pc t) (c.pc t) (c.up t) (t ∈ c.queue) (c.queue.getLast? = some t)
      (c.owner = some t) stage) : Implements prog (c.setStage t stage) a := by
  refine sim.move t sim.shared sim.owner sim.nodup ?_ (fun u other => ?_) (fun u other mine => ⟨mine, id⟩) ?_
  · show a.queue = c.queue.filter _
    rw [sim.queue]
    refine List.filter_congr fun u _ => ?_
    by_cases same : u = t
    · subst same
      exact awaits.symm
    · have kept : (c.setStage t stage).awaits u = c.awaits u := awaits_of_ne rfl (setStage_of_ne same)
      exact kept.symm
  · exact ⟨rfl, rfl, rfl, rfl, setStage_of_ne other, Iff.rfl⟩
  · rw [setStage_self]
    exact stands

/-- `schedule` returns in a thread that is up, and sleeps otherwise. -/
theorem Implements.schedule (sim : Implements prog c a) (away : c.stage t = .released ∨ c.stage t = .asleep) :
    Implements prog (c.setStage t (if c.up t then .back false else .asleep)) a := by
  have stands := sim.thread t
  have before : c.awaits t = !c.up t := by
    rcases away with away | away <;> simp [Condvar.awaits, away]
  obtain ⟨pcs, waits, placed, queued⟩ : a.pc t = c.pc t ∧ (prog (c.pc t)).IsWait ∧
      a.place t = (if c.up t then .woken false else .waiting) ∧ (c.up t = false → t ∈ c.queue) := by
    rcases away with away | away
    · rw [away] at stands
      exact stands
    · rw [away] at stands
      exact stands
  refine sim.restage _ ?_ ?_
  · rw [before, Condvar.awaits, setStage_self]
    cases up : c.up t with
    | true => simp [Condvar.setStage, up]
    | false => simp [Condvar.setStage, up]
  · cases up : c.up t with
    | true =>
      rw [up] at placed
      exact ⟨pcs, waits, placed, rfl⟩
    | false =>
      rw [up] at placed
      exact ⟨pcs, waits, placed, fun _ => queued up⟩

/-- A thread gives up the lock and waits in the monitor, unless a signal has come in
between. -/
theorem Implements.release (sim : Implements prog c a) (prepared : c.stage t = .prepared)
    (owner : c.owner = some t) :
    ∃ a', Implements prog ({ c with owner := none }.setStage t .released) a' ∧
      a.step prog (.step t) = some (a.sleep t, []) ∧
      (a' = a.sleep t ∨ (a.sleep t).step prog (.interrupt t) = some (a', [])) := by
  have stands := sim.thread t
  rw [prepared] at stands
  obtain ⟨running, pcs, _, queued, last, kind, next, op, interruptible⟩ := stands
  have waits : (prog (c.pc t)).IsWait := by
    rw [op]
    trivial
  have slept : a.step prog (.step t) = some (a.sleep t, []) := by
    simp only [State.step, running, if_true, State.advance, pcs, op, sim.owner, owner]
  have before : c.awaits t = false := by simp [Condvar.awaits, prepared]
  have outside : t ∉ a.queue := fun member => by
    rw [(sim.mem_queue.mp member).2] at before
    cases before
  have keeps (u : τ) (other : u ≠ t) (mine : c.owner = some u) : none = some u ∧
      (c.queue.getLast? = some u → c.queue.getLast? = some u) :=
    absurd (Option.some.inj (mine.symm.trans owner)) other
  have elsewhere (u : τ) (other : u ≠ t) :
      (({ c with owner := none } : Condvar τ σ π).setStage t .released).awaits u = c.awaits u :=
    awaits_of_ne rfl (Function.update_of_ne other ..)
  have now : (({ c with owner := none } : Condvar τ σ π).setStage t .released).awaits t = !c.up t := by
    simp [Condvar.awaits, Condvar.setStage]
  cases up : c.up t with
  | false =>
    refine ⟨a.sleep t, ?_, slept, .inl rfl⟩
    rw [up] at now
    refine sim.move t sim.shared rfl sim.nodup ?_ (fun u other => ?_) keeps ?_
    · show a.queue ++ [t] = c.queue.filter _
      rw [filter_eq_snoc sim.nodup last before now elsewhere, sim.queue]
    · exact ⟨State.sleep_place_of_ne other, rfl, rfl, rfl, Function.update_of_ne other .., Iff.rfl⟩
    · rw [setStage_self]
      show Stands prog _ _ _ (c.up t) _ _ _ _
      rw [up]
      exact ⟨pcs, waits, State.sleep_place_self, fun _ => queued⟩
  | true =>
    refine ⟨(a.sleep t).wake t false, ?_, slept, .inr ?_⟩
    · rw [up] at now
      refine sim.move t sim.shared rfl sim.nodup ?_ (fun u other => ?_) keeps ?_
      · show (a.queue ++ [t]).erase t = c.queue.filter _
        rw [List.erase_append_right _ outside, List.erase_cons_head, List.append_nil, sim.queue]
        refine List.filter_congr fun u _ => ?_
        by_cases same : u = t
        · subst same
          exact before.trans now.symm
        · exact (elsewhere u same).symm
      · exact ⟨(State.wake_place_of_ne other).trans (State.sleep_place_of_ne other), rfl, rfl, rfl,
          Function.update_of_ne other .., Iff.rfl⟩
      · rw [setStage_self]
        show Stands prog _ _ _ (c.up t) _ _ _ _
        rw [up]
        exact ⟨pcs, waits, State.wake_place_self, fun down => by cases down⟩
    · have pc : (a.sleep t).pc t = c.pc t := pcs
      simp only [State.step, State.sleep_place_self, pc, op, interruptible up, if_true]

/-- A waiting thread is woken by its timer or by a signal. Its entry stays on the
wait queue. -/
theorem Implements.rouse {stage : CondvarStage} {timer : Bool} (sim : Implements prog c a)
    (asleep : c.stage t = .released ∨ c.stage t = .asleep) (down : c.up t = false)
    (next : (timer = false ∧ stage = c.stage t) ∨ stage = .back timer) :
    Implements prog ((c.tryToWakeUp t).setStage t stage) (a.wake t timer) ∧ a.place t = .waiting ∧
      a.pc t = c.pc t := by
  obtain ⟨pcs, waits, placed, queued⟩ : a.pc t = c.pc t ∧ (prog (c.pc t)).IsWait ∧ a.place t = .waiting ∧
    t ∈ c.queue := by
    have stands := sim.thread t
    rw [down] at stands
    rcases asleep with asleep | asleep <;> rw [asleep] at stands <;>
      exact ⟨stands.1, stands.2.1, stands.2.2.1, stands.2.2.2 rfl⟩
  refine ⟨?_, placed, pcs⟩
  have gone : ((c.tryToWakeUp t).setStage t stage).awaits t = false := awaits_of_up tryToWakeUp_self
  refine sim.move t sim.shared sim.owner sim.nodup ?_ (fun u other => ?_) (fun u other mine => ⟨mine, id⟩) ?_
  · show a.queue.erase t = c.queue.filter _
    rw [sim.queue]
    refine (filter_eq_erase sim.nodup gone fun u other => ?_).symm
    exact awaits_of_ne (tryToWakeUp_of_ne other) (Function.update_of_ne other ..)
  · exact ⟨State.wake_place_of_ne other, rfl, rfl, tryToWakeUp_of_ne other, setStage_of_ne other, Iff.rfl⟩
  · rw [setStage_self]
    show Stands prog _ _ _ ((c.tryToWakeUp t).up t) _ _ _ _
    rw [tryToWakeUp_self, State.wake_place_self]
    rcases next with ⟨rfl, rfl⟩ | rfl
    · rcases asleep with asleep | asleep <;> rw [asleep] <;> exact ⟨pcs, waits, rfl, fun down => by cases down⟩
    · exact ⟨pcs, waits, rfl, rfl⟩

/-- A signal comes before the thread has given up the lock. -/
theorem Implements.alert {kind : WaitKind} {next : Reason → π} (sim : Implements prog c a)
    (prepared : c.stage t = .prepared) (op : prog (c.pc t) = .wait kind next)
    (interruptible : kind.interruptible = true) :
    Implements prog (c.tryToWakeUp t) a := by
  have stands := sim.thread t
  rw [prepared] at stands
  obtain ⟨running, pcs, owner, queued, last, _⟩ := stands
  refine sim.move t sim.shared sim.owner sim.nodup ?_ (fun u other => ?_) (fun u other mine => ⟨mine, id⟩) ?_
  · show a.queue = c.queue.filter _
    rw [sim.queue]
    refine List.filter_congr fun u _ => ?_
    by_cases same : u = t
    · subst same
      rw [awaits_of_up tryToWakeUp_self]
      simp [Condvar.awaits, prepared]
    · have kept : (c.tryToWakeUp t).awaits u = c.awaits u := awaits_of_ne (tryToWakeUp_of_ne same) rfl
      exact kept.symm
  · exact ⟨rfl, rfl, rfl, tryToWakeUp_of_ne other, rfl, Iff.rfl⟩
  · show Stands prog _ _ _ _ _ _ _ (c.stage t)
    rw [prepared]
    exact ⟨running, pcs, owner, queued, last, kind, next, op, fun _ => interruptible⟩

/-- A thread that has the lock back takes its entry off the queue. -/
theorem Implements.finish {reason : Reason} {kind : WaitKind} {next : Reason → π} (sim : Implements prog c a)
    (locked : c.stage t = .locked reason) (op : prog (c.pc t) = .wait kind next) :
    Implements prog (((c.finishWait t).setStage t .outside).goto t (next reason)) a := by
  have stands := sim.thread t
  rw [locked] at stands
  obtain ⟨running, owner, up, _, _, op', pcs⟩ := stands
  obtain ⟨rfl, rfl⟩ := Op.wait.inj (op.symm.trans op')
  have up_of_ne {u : τ} (other : u ≠ t) : Function.update c.up t true u = c.up u := Function.update_of_ne other ..
  have stage_of_ne {u : τ} (other : u ≠ t) : Function.update c.stage t .outside u = c.stage u :=
    Function.update_of_ne other ..
  refine sim.move t sim.shared sim.owner (sim.nodup.erase t) ?_ (fun u other => ?_) (fun u other mine => ?_) ?_
  · show a.queue = (c.queue.erase t).filter _
    have outside : t ∉ c.queue.filter c.awaits := fun member => by
      have awaits := (List.mem_filter.mp member).2
      rw [awaits_of_up up] at awaits
      cases awaits
    rw [sim.queue, ← List.erase_of_not_mem outside, List.erase_filter]
    refine List.filter_congr fun u member => ?_
    have other : u ≠ t := (sim.nodup.mem_erase_iff.mp member).1
    have kept : (((c.finishWait t).setStage t .outside).goto t (next reason)).awaits u = c.awaits u :=
      awaits_of_ne (up_of_ne other) (stage_of_ne other)
    exact kept.symm
  · exact ⟨rfl, rfl, Function.update_of_ne other .., up_of_ne other, stage_of_ne other, List.mem_erase_of_ne other⟩
  · exact absurd (Option.some.inj (mine.symm.trans owner)) other
  · have stage : (((c.finishWait t).setStage t .outside).goto t (next reason)).stage t = .outside := setStage_self
    rw [stage]
    refine ⟨running, pcs.trans (Function.update_self t (next reason) c.pc).symm, Function.update_self .., ?_⟩
    show t ∉ c.queue.erase t
    exact sim.nodup.not_mem_erase

/-- A thread that was woken gets the lock back. -/
theorem Implements.relock (late : Bool) {timer : Bool} {kind : WaitKind} {next : Reason → π}
    (sim : Implements prog c a) (back : c.stage t = .back timer) (op : prog (c.pc t) = .wait kind next)
    (free : c.owner = none) :
    Implements prog ({ c with owner := some t }.setStage t (.locked (kind.reason timer late)))
        ((a.resume t).goto t (next (kind.reason timer late))) ∧
      a.step prog (.relock t late) = some ((a.resume t).goto t (next (kind.reason timer late)), []) := by
  have stands := sim.thread t
  rw [back] at stands
  obtain ⟨pcs, _, placed, up⟩ := stands
  constructor
  · refine sim.move t sim.shared rfl sim.nodup ?_ (fun u other => ?_) (fun u _ mine => ?_) ?_
    · show a.queue = c.queue.filter _
      rw [sim.queue]
      refine List.filter_congr fun u _ => ?_
      by_cases same : u = t
      · subst same
        have still : (({ c with owner := some u } : Condvar τ σ π).setStage u
            (.locked (kind.reason timer late))).awaits u = false := awaits_of_up up
        rw [awaits_of_up up, still]
      · have kept : (({ c with owner := some t } : Condvar τ σ π).setStage t
            (.locked (kind.reason timer late))).awaits u = c.awaits u :=
          awaits_of_ne rfl (Function.update_of_ne same ..)
        exact kept.symm
    · exact ⟨State.resume_place_of_ne other, State.goto_pc_of_ne other, rfl, rfl,
        Function.update_of_ne other .., Iff.rfl⟩
    · rw [free] at mine
      cases mine
    · rw [setStage_self]
      exact ⟨State.resume_place_self, rfl, up, kind, next, op, State.goto_pc_self⟩
  · have owner : a.owner = none := sim.owner.trans free
    simp only [State.step, placed, pcs, op, owner, if_true]

end Stages

/-- Every step on the wait queue is one of the monitor, or none, or two. -/
theorem Implements.step {Entry : π → π → Prop} {shared : σ} {rest : π} {c' : Condvar τ σ π} {action : Action τ π}
    {history events : List (τ × ε)} (sim : Implements prog c a) (ran : c.step prog action = some (c', events))
    (entered : action.Enters fun t => Entry (c.pc t)) (reach : Reach prog Entry shared rest a history) :
    ∃ a', Reach prog Entry shared rest a' (history ++ events) ∧ Implements prog c' a' := by
  cases action with
  | call t entry =>
    simp only [Condvar.step] at ran
    split at ran
    · rename_i outside op
      cases ran
      have stands := sim.thread t
      rw [outside] at stands
      obtain ⟨running, pcs, _⟩ := stands
      have called : a.step prog (.call t entry) = some (a.goto t entry, []) := by
        simp only [State.step, running, pcs, op]
      have enters : Action.Enters (fun t => Entry (a.pc t)) (.call t entry : Action τ π) := by
        show Entry (a.pc t) entry
        rw [pcs]
        exact entered
      exact ⟨_, reach.next enters called, sim.onward outside entry⟩
    · cases ran
  | step t =>
    have free : Action.Enters (fun t => Entry (a.pc t)) (.step t : Action τ π) := trivial
    have quiet : Reach prog Entry shared rest a (history ++ []) := by
      rw [List.append_nil]
      exact reach
    simp only [Condvar.step] at ran
    cases stage : c.stage t with
    | outside =>
      simp only [stage] at ran
      rcases sim.advance stage ran with ⟨a', stepped, after⟩ | ⟨rfl, after⟩
      · exact ⟨a', reach.next free stepped, after⟩
      · exact ⟨a, quiet, after⟩
    | prepared =>
      simp only [stage] at ran
      split at ran
      · rename_i owner
        cases ran
        obtain ⟨a', after, slept, rfl | interrupted⟩ := sim.release stage owner
        · exact ⟨_, reach.next free slept, after⟩
        · have again : Action.Enters (fun t => Entry (a.pc t)) (.interrupt t : Action τ π) := trivial
          have both := (reach.next free slept).next again interrupted
          rw [List.append_assoc] at both
          exact ⟨a', both, after⟩
      · cases ran
    | released =>
      simp only [stage] at ran
      cases ran
      exact ⟨a, quiet, sim.schedule (.inl stage)⟩
    | asleep =>
      simp only [stage] at ran
      split at ran
      · rename_i up
        cases ran
        have after := sim.schedule (.inr stage)
        rw [if_pos up] at after
        exact ⟨a, quiet, after⟩
      · cases ran
    | back timer =>
      simp only [stage] at ran
      cases ran
    | locked reason =>
      simp only [stage] at ran
      split at ran
      · rename_i kind next op
        cases ran
        exact ⟨a, quiet, sim.finish stage op⟩
      · cases ran
  | relock t late =>
    simp only [Condvar.step] at ran
    split at ran
    · rename_i timer kind next back op
      split at ran
      · rename_i free
        cases ran
        obtain ⟨after, relocked⟩ := sim.relock late back op free
        have enters : Action.Enters (fun t => Entry (a.pc t)) (.relock t late : Action τ π) := trivial
        exact ⟨_, reach.next enters relocked, after⟩
      · cases ran
    · cases ran
  | timeout t =>
    simp only [Condvar.step] at ran
    split at ran
    · rename_i kind next asleep op
      split at ran
      · rename_i both
        cases ran
        simp only [Bool.and_eq_true, Bool.not_eq_true'] at both
        obtain ⟨after, placed, pcs⟩ := sim.rouse (.inr asleep) both.2 (.inr rfl)
        have enters : Action.Enters (fun t => Entry (a.pc t)) (.timeout t : Action τ π) := trivial
        have expired : a.step prog (.timeout t) = some (a.wake t true, []) := by
          simp only [State.step, placed, pcs, op, both.1, if_true]
        exact ⟨_, reach.next enters expired, after⟩
      · cases ran
    · cases ran
  | interrupt t =>
    have quiet : Reach prog Entry shared rest a (history ++ []) := by
      rw [List.append_nil]
      exact reach
    have roused (away : c.stage t = .released ∨ c.stage t = .asleep) {kind : WaitKind} {next : Reason → π}
        (op : prog (c.pc t) = .wait kind next) (both : (kind.interruptible && !c.up t) = true) :
        ∃ a', Reach prog Entry shared rest a' (history ++ []) ∧ Implements prog (c.tryToWakeUp t) a' := by
      simp only [Bool.and_eq_true, Bool.not_eq_true'] at both
      obtain ⟨after, placed, pcs⟩ :
        Implements prog ((c.tryToWakeUp t).setStage t (c.stage t)) (a.wake t false) ∧ _ :=
        sim.rouse away both.2 (.inl ⟨rfl, rfl⟩)
      have enters : Action.Enters (fun t => Entry (a.pc t)) (.interrupt t : Action τ π) := trivial
      have interrupted : a.step prog (.interrupt t) = some (a.wake t false, []) := by
        simp only [State.step, placed, pcs, op, both.1, if_true]
      have still : (c.tryToWakeUp t).setStage t (c.stage t) = c.tryToWakeUp t := by
        rw [Condvar.setStage, Condvar.tryToWakeUp]
        simp
      rw [still] at after
      exact ⟨_, reach.next enters interrupted, after⟩
    simp only [Condvar.step] at ran
    split at ran
    · rename_i prepared op
      split at ran
      · rename_i both
        cases ran
        simp only [Bool.and_eq_true, Bool.not_eq_true'] at both
        exact ⟨a, quiet, sim.alert prepared op both.1⟩
      · cases ran
    · rename_i released op
      split at ran
      · rename_i both
        cases ran
        exact roused (.inl released) op both
      · cases ran
    · rename_i asleep op
      split at ran
      · rename_i both
        cases ran
        exact roused (.inr asleep) op both
      · cases ran
    · cases ran

/-- The runs of any threads on the wait queue. -/
abbrev CondvarReach (prog : π → Op σ ε π) (Entry : π → π → Prop) (shared : σ) (rest : π) :
    Condvar τ σ π → List (τ × ε) → Prop :=
  Transition.Reach (Condvar.step prog) (fun c action => action.Enters fun t => Entry (c.pc t))
    (Condvar.initial shared rest)

/-- `kcondvar.c` refines the monitor: whatever programs the threads run, whatever
is signalled and whenever timers and signals fire, a run on the wait queue is a
run of the monitor with the same reports, and waiting threads are woken in the
order in which they came. -/
theorem condvarReach_refines {Entry : π → π → Prop} {shared : σ} {rest : π} {c : Condvar τ σ π}
    {history : List (τ × ε)} (reach : CondvarReach prog Entry shared rest c history) :
    ∃ a, Reach prog Entry shared rest a history ∧ Implements prog c a := by
  refine reach.invariant (fun c history => ∃ a, Reach prog Entry shared rest a history ∧ Implements prog c a) ?_ ?_
  · exact ⟨_, .start, rfl, rfl, List.nodup_nil, rfl, fun t => ⟨rfl, rfl, rfl, List.not_mem_nil⟩⟩
  · rintro c c' action history events _ ⟨a, monitor, sim⟩ entered ran
    exact sim.step ran entered monitor

/-- A thread that neither sleeps in vain nor can go on. -/
inductive CondvarRests (prog : π → Op σ ε π) (Holds : π → Prop) (Ready : σ → π → Prop) (c : Condvar τ σ π)
    (t : τ) : Prop
  | stopped : c.stage t = .outside → prog (c.pc t) = .stop → CondvarRests prog Holds Ready c t
  | blocked {effect} : c.stage t = .outside → prog (c.pc t) = .act effect → effect c.shared = none →
      ¬Holds (c.pc t) → CondvarRests prog Holds Ready c t
  | sleeps : c.stage t = .asleep → c.up t = false → (prog (c.pc t)).IsWait → ¬Ready c.shared (c.pc t) →
      CondvarRests prog Holds Ready c t

/-- A thread outside a wait that cannot go on cannot go on in the monitor either. -/
theorem Implements.blocked (sim : Implements prog c a) (outside : c.stage t = .outside)
    (stuck : c.advance prog t = none) : a.advance prog t = none := by
  have stands := sim.thread t
  rw [outside] at stands
  obtain ⟨_, pcs, _⟩ := stands
  unfold Condvar.advance at stuck
  unfold State.advance
  rw [pcs, sim.shared, sim.owner]
  cases op : prog (c.pc t) with
  | stop => rfl
  | act effect =>
    simp only [op, Option.map_eq_none_iff] at stuck ⊢
    exact stuck
  | lock next | unlock next | wait kind next | broadcast next =>
    simp only [op, ite_eq_right_iff, reduceCtorEq, imp_false] at stuck ⊢
    exact stuck
  | signal next =>
    simp only [op, ite_eq_right_iff, reduceCtorEq, imp_false] at stuck
    simp only
    exact if_neg stuck

/-- Where no thread can take a step, every thread is outside its waits, asleep, or
waits for the lock. -/
theorem Implements.stuck_stage (sim : Implements prog c a) (stuck : c.step prog (.step t) = none) :
    (c.stage t = .outside ∧ c.advance prog t = none) ∨ (c.stage t = .asleep ∧ c.up t = false) ∨
      ∃ timer, c.stage t = .back timer := by
  have stands := sim.thread t
  simp only [Condvar.step] at stuck
  cases stage : c.stage t with
  | outside =>
    simp only [stage] at stuck
    exact .inl ⟨rfl, stuck⟩
  | prepared =>
    rw [stage] at stands
    obtain ⟨_, _, owns, _⟩ := stands
    simp only [stage, owns, if_true] at stuck
    cases stuck
  | released =>
    simp only [stage] at stuck
    cases stuck
  | asleep =>
    simp only [stage] at stuck
    cases up : c.up t with
    | true =>
      rw [up] at stuck
      cases stuck
    | false => exact .inr (.inl ⟨rfl, rfl⟩)
  | back timer => exact .inr (.inr ⟨timer, rfl⟩)
  | locked reason =>
    rw [stage] at stands
    obtain ⟨_, _, _, kind, next, op, _⟩ := stands
    simp only [stage, op] at stuck
    cases stuck

/-- What is stuck on the wait queue is stuck in the monitor. -/
theorem Implements.stuck (sim : Implements prog c a) (stuck : c.step prog (.step t) = none)
    (locked : c.step prog (.relock t false) = none) :
    a.step prog (.step t) = none ∧ a.step prog (.relock t false) = none := by
  have stands := sim.thread t
  rcases sim.stuck_stage stuck with ⟨stage, still⟩ | ⟨stage, up⟩ | ⟨timer, stage⟩
  · rw [stage] at stands
    obtain ⟨running, _⟩ := stands
    constructor
    · simp only [State.step, running, if_true]
      exact sim.blocked stage still
    · simp only [State.step, running]
  · rw [stage, up] at stands
    obtain ⟨_, _, placed, _⟩ := stands
    have waiting : a.place t = .waiting := placed
    simp [State.step, waiting]
  · rw [stage] at stands
    obtain ⟨pcs, waits, placed, _⟩ := stands
    obtain ⟨kind, next, op⟩ := waits.eq
    have taken : c.owner ≠ none := fun free => by
      simp only [Condvar.step, stage, op, free, if_true] at locked
      cases locked
    simp [State.step, placed, pcs, op, sim.owner, taken]

/-- No wake-up is lost in `kcondvar.c`: where the threads keep the discipline and
none can go on, the lock is free, and whoever is not done is blocked outside the
lock or sleeps because what it waits for has not come. -/
theorem condvarReach_rests {Entry : π → π → Prop} {Holds : π → Prop} {Owes : π → π → Prop}
    {Ready : σ → π → Prop} {Sound : σ → (τ → π) → Prop} {shared : σ} {rest : π} {c : Condvar τ σ π}
    {history : List (τ × ε)} (reach : CondvarReach prog Entry shared rest c history)
    (rules : Discipline prog Entry Holds Owes Ready Sound) (stopped : prog rest = .stop)
    (sound : Sound shared fun _ => rest) (stuck : ∀ t, c.step prog (.step t) = none)
    (locked : ∀ t, c.step prog (.relock t false) = none) :
    c.owner = none ∧ Sound c.shared c.pc ∧ ∀ t, CondvarRests prog Holds Ready c t := by
  obtain ⟨a, monitor, sim⟩ := condvarReach_refines reach
  have inv : Inv prog Holds Owes Ready Sound a := monitor.inv rules stopped sound
  have still (u : τ) := sim.stuck (stuck u) (locked u)
  obtain ⟨free, rests⟩ := inv.rests rules (fun u => (still u).1) (fun u => (still u).2)
  -- no thread is on its way out of a wait, so the threads are where the monitor has them
  have pcs : a.pc = c.pc := by
    funext t
    have stands := sim.thread t
    rcases sim.stuck_stage (stuck t) with ⟨stage, _⟩ | ⟨stage, _⟩ | ⟨timer, stage⟩
    · rw [stage] at stands
      exact stands.2.1
    · rw [stage] at stands
      exact stands.1
    · rw [stage] at stands
      exact stands.1
  refine ⟨sim.owner.symm.trans free, ?_, fun t => ?_⟩
  · rw [← sim.shared, ← pcs]
    exact inv.sound
  have stands := sim.thread t
  rcases sim.stuck_stage (stuck t) with ⟨stage, _⟩ | ⟨stage, up⟩ | ⟨timer, stage⟩
  · rw [stage] at stands
    obtain ⟨running, _⟩ := stands
    cases rests t with
    | stopped _ op =>
      rw [pcs] at op
      exact .stopped stage op
    | blocked _ op blocked released =>
      rw [pcs] at op released
      rw [sim.shared] at blocked
      exact .blocked stage op blocked released
    | waits waiting _ _ =>
      rw [running] at waiting
      cases waiting
  · rw [stage, up] at stands
    obtain ⟨_, waits, placed, _⟩ := stands
    have waiting : a.place t = .waiting := placed
    cases rests t with
    | stopped running _ | blocked running _ _ _ =>
      rw [running] at waiting
      cases waiting
    | waits _ _ notReady =>
      rw [sim.shared, pcs] at notReady
      exact .sleeps stage up waits notReady
  · rw [stage] at stands
    obtain ⟨_, _, placed, _⟩ := stands
    cases rests t with
    | stopped other _ | blocked other _ _ _ | waits other _ _ =>
      rw [other] at placed
      cases placed

/-- One thread waits for a flag, another one sets it. -/
def flagProgram : Nat → Op Bool Nat Nat
  | 1 => .lock 2
  | 2 => .act fun flag => some (flag, if flag then [1] else [], if flag then 3 else 4)
  | 3 | 8 => .unlock 0
  | 4 => .wait fusionCondvarWait fun _ => 2
  | 5 => .lock 6
  | 6 => .act fun _ => some (true, [], 7)
  | 7 => .signal 8
  | _ => .stop

def flagEntry (_ p : Nat) : Prop := p ∈ [1, 5]

instance (p : Nat) : DecidablePred (flagEntry p) := fun q => inferInstanceAs (Decidable (q ∈ [1, 5]))

/-- The waiter is asleep on the queue when the flag is set and signalled. -/
def flagRun : List (Monitor.Action Nat Nat) :=
  .call 0 1 :: List.replicate 5 (.step 0) ++ .call 1 5 :: List.replicate 4 (.step 1) ++
    [.step 0, .relock 0 false, .step 0, .step 0, .step 0]

theorem condvarReach_refines_flag : ∃ (c : Condvar Nat Bool Nat) (a : State Nat Bool Nat),
    CondvarReach flagProgram flagEntry false 0 c [(0, 1)] ∧ Reach flagProgram flagEntry false 0 a [(0, 1)] ∧
      Implements flagProgram c a := by
  have passes : (Transition.run (Condvar.step flagProgram)
      (fun c action => decide (action.Enters fun t => flagEntry (c.pc t)))
      (Condvar.initial false 0) flagRun).any (fun r => r.2 == [(0, 1)]) = true := by decide +kernel
  obtain ⟨c, history, reach, same⟩ := Transition.Reach.of_check (fun _ _ => of_decide_eq_true) _ passes
  obtain rfl := beq_iff_eq.mp same
  obtain ⟨a, monitor, sim⟩ := condvarReach_refines reach
  exact ⟨c, a, reach, monitor, sim⟩

end IomemoryVsl
