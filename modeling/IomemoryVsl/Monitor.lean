import IomemoryVsl.Transition
import Mathlib.Data.List.Nodup
import Mathlib.Logic.Function.Basic

/-! A monitor: a lock, a condition variable, and threads that run programs over
what the lock protects. -/

namespace Monitor

/-- How a wait can end other than by a wake-up. -/
structure WaitKind where
  interruptible : Bool
  timed : Bool
  deriving DecidableEq, Repr

inductive Reason where
  | triggered | timedOut
  deriving DecidableEq, Repr

/-- What a thread does at one point of its program. An `act` is blocked where its
effect is undefined. -/
inductive Op (σ ε π : Type*) where
  | stop
  | act (effect : σ → Option (σ × List ε × π))
  | lock (next : π)
  | unlock (next : π)
  | wait (kind : WaitKind) (next : Reason → π)
  | signal (next : π)
  | broadcast (next : π)

def Op.IsWait {σ ε π : Type*} : Op σ ε π → Prop
  | .wait .. => True
  | _ => False

theorem Op.IsWait.eq {σ ε π : Type*} {op : Op σ ε π} (waits : op.IsWait) : ∃ kind next, op = .wait kind next := by
  cases op with
  | wait kind next => exact ⟨kind, next, rfl⟩
  | _ => exact waits.elim

/-- Where a thread can go on without an effect on what is shared. -/
def Op.Goes {σ ε π : Type*} (Entry : π → Prop) (op : Op σ ε π) (next : π) : Prop :=
  match op with
  | .stop => Entry next
  | .act _ => False
  | .lock onward | .unlock onward | .signal onward | .broadcast onward => next = onward
  | .wait _ onward => ∃ reason, next = onward reason

inductive Place where
  | running
  | waiting
  /-- It has left the queue and has to get the lock back. -/
  | woken (timer : Bool)
  deriving DecidableEq, Repr

structure State (τ σ π : Type*) where
  shared : σ
  owner : Option τ
  pc : τ → π
  place : τ → Place
  queue : List τ

inductive Action (τ π : Type*) where
  | call (t : τ) (entry : π)
  | step (t : τ)
  | relock (t : τ) (late : Bool)
  | timeout (t : τ)
  | interrupt (t : τ)

/-- A thread enters its program only where it may. -/
def Action.Enters {τ π : Type*} (Entry : τ → π → Prop) : Action τ π → Prop
  | .call t entry => Entry t entry
  | _ => True

instance {τ π : Type*} (Entry : τ → π → Prop) [∀ t, DecidablePred (Entry t)] :
    DecidablePred (Action.Enters Entry : Action τ π → Prop)
  | .call t entry => inferInstanceAs (Decidable (Entry t entry))
  | .step _ | .relock .. | .timeout _ | .interrupt _ => .isTrue trivial

/-- A timed wait may also run out after it was woken. -/
def WaitKind.reason (kind : WaitKind) (timer late : Bool) : Reason :=
  if timer || (late && kind.timed) then .timedOut else .triggered

variable {τ σ ε π : Type*} [DecidableEq τ]

namespace State

/-- All threads are outside their programs. -/
def initial (shared : σ) (rest : π) : State τ σ π := ⟨shared, none, fun _ => rest, fun _ => .running, []⟩

def goto (s : State τ σ π) (t : τ) (pc : π) : State τ σ π := { s with pc := Function.update s.pc t pc }

def wake (s : State τ σ π) (t : τ) (timer : Bool) : State τ σ π :=
  { s with place := Function.update s.place t (.woken timer), queue := s.queue.erase t }

/-- A thread gives up the lock and waits. -/
def sleep (s : State τ σ π) (t : τ) : State τ σ π :=
  { s with owner := none, place := Function.update s.place t .waiting, queue := s.queue ++ [t] }

/-- A woken thread has got the lock back. -/
def resume (s : State τ σ π) (t : τ) : State τ σ π :=
  { s with owner := some t, place := Function.update s.place t .running }

def wakeAll (s : State τ σ π) : State τ σ π :=
  { s with place := fun t => if t ∈ s.queue then .woken false else s.place t, queue := [] }

/-- A running thread does what its program says. What it reports is its own. -/
def advance (prog : π → Op σ ε π) (s : State τ σ π) (t : τ) : Option (State τ σ π × List (τ × ε)) :=
  match prog (s.pc t) with
  | .stop => none
  | .act effect =>
    (effect s.shared).map fun (shared, events, next) =>
      ({ s with shared := shared }.goto t next, events.map fun event => (t, event))
  | .lock next => if s.owner = none then some ({ s with owner := some t }.goto t next, []) else none
  | .unlock next => if s.owner = some t then some ({ s with owner := none }.goto t next, []) else none
  | .wait _ _ => if s.owner = some t then some (s.sleep t, []) else none
  | .signal next =>
    if s.owner = some t then
      match s.queue with
      | [] => some (s.goto t next, [])
      | first :: _ => some ((s.wake first false).goto t next, [])
    else none
  | .broadcast next => if s.owner = some t then some (s.wakeAll.goto t next, []) else none

def step (prog : π → Op σ ε π) (s : State τ σ π) : Action τ π → Option (State τ σ π × List (τ × ε))
  | .call t entry =>
    match s.place t, prog (s.pc t) with
    | .running, .stop => some (s.goto t entry, [])
    | _, _ => none
  | .step t => if s.place t = .running then s.advance prog t else none
  | .relock t late =>
    match s.place t, prog (s.pc t) with
    | .woken timer, .wait kind next =>
      if s.owner = none then some ((s.resume t).goto t (next (kind.reason timer late)), []) else none
    | _, _ => none
  | .timeout t =>
    match s.place t, prog (s.pc t) with
    | .waiting, .wait kind _ => if kind.timed then some (s.wake t true, []) else none
    | _, _ => none
  | .interrupt t =>
    match s.place t, prog (s.pc t) with
    | .waiting, .wait kind _ => if kind.interruptible then some (s.wake t false, []) else none
    | _, _ => none

variable {s : State τ σ π} {t u : τ} {pc : π}

@[simp] theorem goto_shared : (s.goto t pc).shared = s.shared := rfl

@[simp] theorem goto_owner : (s.goto t pc).owner = s.owner := rfl

@[simp] theorem goto_place : (s.goto t pc).place = s.place := rfl

@[simp] theorem goto_queue : (s.goto t pc).queue = s.queue := rfl

@[simp] theorem goto_pc_self : (s.goto t pc).pc t = pc := Function.update_self ..

theorem goto_pc_of_ne (other : u ≠ t) : (s.goto t pc).pc u = s.pc u := Function.update_of_ne other ..

theorem wake_place_self {timer : Bool} : (s.wake t timer).place t = .woken timer := Function.update_self ..

theorem wake_place_of_ne {timer : Bool} (other : u ≠ t) : (s.wake t timer).place u = s.place u :=
  Function.update_of_ne other ..

theorem sleep_place_self : (s.sleep t).place t = .waiting := Function.update_self ..

theorem sleep_place_of_ne (other : u ≠ t) : (s.sleep t).place u = s.place u := Function.update_of_ne other ..

theorem resume_place_self : (s.resume t).place t = .running := Function.update_self ..

theorem resume_place_of_ne (other : u ≠ t) : (s.resume t).place u = s.place u := Function.update_of_ne other ..

theorem wakeAll_place_of_mem (queued : t ∈ s.queue) : s.wakeAll.place t = .woken false := if_pos queued

theorem wakeAll_place_of_not_mem (outside : t ∉ s.queue) : s.wakeAll.place t = s.place t := if_neg outside

end State

/-- Who holds the lock where, when a waiter has reason to go on, and who still owes
a broadcast to whom: rules under which no wake-up is lost. `Sound` is what every
step keeps true of the shared state and of where the threads are. -/
structure Discipline (prog : π → Op σ ε π) (Entry : π → π → Prop) (Holds : π → Prop) (Owes : π → π → Prop)
    (Ready : σ → π → Prop) (Sound : σ → (τ → π) → Prop) : Prop where
  entry : ∀ {p q}, Entry p q → ¬Holds q ∧ ¬(prog q).IsWait
  stop : ∀ {p}, prog p = .stop → ¬Holds p ∧ ∀ w, ¬Owes p w
  goes : ∀ {shared pc t next}, Sound shared pc → (prog (pc t)).Goes (Entry (pc t)) next →
    Sound shared (Function.update pc t next)
  act : ∀ {shared pc t effect shared' events next}, Sound shared pc → prog (pc t) = .act effect →
    effect shared = some (shared', events, next) →
      Sound shared' (Function.update pc t next) ∧ (Holds next ↔ Holds (pc t)) ∧
      (∀ u, u ≠ t → (prog (pc u)).IsWait → Ready shared' (pc u) →
        (Owes (pc t) (pc u) ∨ ¬Ready shared (pc u)) → Owes next (pc u)) ∧
      ((prog next).IsWait → ¬Ready shared' next)
  /-- Whoever holds the lock or owes a broadcast is not blocked. -/
  live : ∀ {shared pc t effect}, Sound shared pc → prog (pc t) = .act effect →
    Holds (pc t) ∨ (∃ w, Owes (pc t) w) → (effect shared).isSome
  lock : ∀ {p next}, prog p = .lock next → ¬Holds p ∧ Holds next ∧ (∀ w, Owes p w → Owes next w) ∧
    ¬(prog next).IsWait
  unlock : ∀ {p next}, prog p = .unlock next →
    Holds p ∧ ¬Holds next ∧ (∀ w, Owes p w → Owes next w) ∧ ¬(prog next).IsWait
  wait : ∀ {p kind next}, prog p = .wait kind next →
    Holds p ∧ (∀ w, ¬Owes p w) ∧ ∀ reason, Holds (next reason) ∧ ¬(prog (next reason)).IsWait
  signal : ∀ {p next}, prog p = .signal next →
    Holds p ∧ Holds next ∧ (∀ w, Owes p w → Owes next w) ∧ ¬(prog next).IsWait
  broadcast : ∀ {p next}, prog p = .broadcast next → Holds p ∧ Holds next ∧ ¬(prog next).IsWait

/-- What holds in every state of threads that keep the discipline. -/
structure Inv (prog : π → Op σ ε π) (Holds : π → Prop) (Owes : π → π → Prop) (Ready : σ → π → Prop)
    (Sound : σ → (τ → π) → Prop) (s : State τ σ π) : Prop where
  sound : Sound s.shared s.pc
  queue : s.queue.Nodup
  waiting : ∀ t, t ∈ s.queue ↔ s.place t = .waiting
  wait : ∀ t, s.place t ≠ .running → (prog (s.pc t)).IsWait
  owner : ∀ t, s.owner = some t ↔ s.place t = .running ∧ Holds (s.pc t)
  /-- Nobody waits for what has already come, unless the broadcast is still to follow. -/
  ready : ∀ t, (prog (s.pc t)).IsWait → s.place t = .running ∨ s.place t = .waiting →
    Ready s.shared (s.pc t) → ∃ u, Owes (s.pc u) (s.pc t)

variable {prog : π → Op σ ε π} {Entry : π → π → Prop} {Holds : π → Prop} {Owes : π → π → Prop}
    {Ready : σ → π → Prop}
  {Sound : σ → (τ → π) → Prop} {s : State τ σ π} {t : τ}

theorem Inv.goes {next : π} (inv : Inv prog Holds Owes Ready Sound s)
    (rules : Discipline prog Entry Holds Owes Ready Sound) {op : Op σ ε π} (here : prog (s.pc t) = op)
    (goes : op.Goes (Entry (s.pc t)) next) :
    Sound s.shared (s.goto t next).pc :=
  rules.goes inv.sound (here.symm ▸ goes)

/-- A running thread goes on to another point. -/
theorem Inv.move (inv : Inv prog Holds Owes Ready Sound s) (running : s.place t = .running) {shared' : σ}
    {owner' : Option τ} {next : π} (sound : Sound shared' (s.goto t next).pc)
    (owner : ∀ u, owner' = some u ↔ s.place u = .running ∧ Holds ((s.goto t next).pc u))
    (owes : ∀ u, u ≠ t → (prog (s.pc u)).IsWait → Ready shared' (s.pc u) →
      (Owes (s.pc t) (s.pc u) ∨ ¬Ready s.shared (s.pc u)) → Owes next (s.pc u))
    (fresh : (prog next).IsWait → ¬Ready shared' next) :
    Inv prog Holds Owes Ready Sound ({ s with shared := shared', owner := owner' }.goto t next) := by
  refine ⟨sound, inv.queue, inv.waiting, fun u away => ?_, owner, fun u waits place ready => ?_⟩
  · have other : u ≠ t := by
      rintro rfl
      exact away running
    show (prog ((s.goto t next).pc u)).IsWait
    rw [State.goto_pc_of_ne other]
    exact inv.wait u away
  · change (prog ((s.goto t next).pc u)).IsWait at waits
    change Ready shared' ((s.goto t next).pc u) at ready
    show ∃ v, Owes ((s.goto t next).pc v) ((s.goto t next).pc u)
    by_cases same : u = t
    · subst same
      rw [State.goto_pc_self] at waits ready
      exact absurd ready (fresh waits)
    · rw [State.goto_pc_of_ne same] at waits ready ⊢
      have mine := owes u same waits ready
      by_cases before : Ready s.shared (s.pc u)
      · obtain ⟨v, owing⟩ := inv.ready u waits place before
        by_cases here : v = t
        · subst here
          exact ⟨v, by rw [State.goto_pc_self]; exact mine (.inl owing)⟩
        · exact ⟨v, by rw [State.goto_pc_of_ne here]; exact owing⟩
      · exact ⟨t, by rw [State.goto_pc_self]; exact mine (.inr before)⟩

/-- The same without a change of what is shared. -/
theorem Inv.onward (inv : Inv prog Holds Owes Ready Sound s) (running : s.place t = .running)
    {owner' : Option τ} {next : π} (sound : Sound s.shared (s.goto t next).pc)
    (owner : ∀ u, owner' = some u ↔ s.place u = .running ∧ Holds ((s.goto t next).pc u))
    (owes : ∀ w, Owes (s.pc t) w → Owes next w) (noWait : ¬(prog next).IsWait) :
    Inv prog Holds Owes Ready Sound ({ s with owner := owner' }.goto t next) := by
  refine inv.move running sound owner (fun u _ _ ready either => ?_) fun waits => absurd waits noWait
  rcases either with owing | not
  · exact owes _ owing
  · exact absurd ready not

omit [DecidableEq τ] in
theorem Inv.not_mem_queue (inv : Inv prog Holds Owes Ready Sound s) (running : s.place t = .running) :
    t ∉ s.queue := by
  intro queued
  rw [(inv.waiting t).mp queued] at running
  cases running

theorem Inv.wake {timer : Bool} (inv : Inv prog Holds Owes Ready Sound s) (queued : t ∈ s.queue) :
    Inv prog Holds Owes Ready Sound (s.wake t timer) := by
  have asleep := (inv.waiting t).mp queued
  refine ⟨inv.sound, inv.queue.erase t, fun u => ?_, fun u away => ?_, fun u => ?_, fun u waits place ready => ?_⟩
  · show u ∈ s.queue.erase t ↔ _
    rw [inv.queue.mem_erase_iff]
    by_cases same : u = t
    · subst same
      simp [State.wake_place_self]
    · rw [State.wake_place_of_ne same, ← inv.waiting]
      exact and_iff_right same
  · by_cases same : u = t
    · subst same
      exact inv.wait u (by rw [asleep]; exact Place.noConfusion)
    · rw [State.wake_place_of_ne same] at away
      exact inv.wait u away
  · show s.owner = some u ↔ _ ∧ Holds (s.pc u)
    rw [inv.owner u]
    by_cases same : u = t
    · subst same
      simp [asleep, State.wake_place_self]
    · rw [State.wake_place_of_ne same]
  · by_cases same : u = t
    · subst same
      simp [State.wake_place_self] at place
    · rw [State.wake_place_of_ne same] at place
      exact inv.ready u waits place ready

/-- After a broadcast nobody waits, and nobody else is about to. -/
theorem Inv.broadcast {next : π} (inv : Inv prog Holds Owes Ready Sound s)
    (rules : Discipline prog Entry Holds Owes Ready Sound) (running : s.place t = .running)
    (here : prog (s.pc t) = .broadcast next) (owner : s.owner = some t) :
    Inv prog Holds Owes Ready Sound (s.wakeAll.goto t next) := by
  obtain ⟨_, holds, noWait⟩ := rules.broadcast here
  have unqueued := inv.not_mem_queue running
  -- a thread that runs on the lock is the one that broadcasts
  have alone {u : τ} (runs : s.wakeAll.place u = .running) (locked : Holds (s.pc u)) : u = t := by
    by_cases queued : u ∈ s.queue
    · rw [State.wakeAll_place_of_mem queued] at runs
      cases runs
    · rw [State.wakeAll_place_of_not_mem queued] at runs
      exact Option.some.inj (((inv.owner u).mpr ⟨runs, locked⟩).symm.trans owner)
  refine ⟨inv.goes rules here rfl, List.nodup_nil, fun u => ?_, fun u away => ?_, fun u => ?_,
    fun u waits placed _ => ?_⟩
  · constructor
    · intro member
      cases member
    · intro asleep
      change s.wakeAll.place u = .waiting at asleep
      by_cases queued : u ∈ s.queue
      · rw [State.wakeAll_place_of_mem queued] at asleep
        cases asleep
      · rw [State.wakeAll_place_of_not_mem queued, ← inv.waiting] at asleep
        exact absurd asleep queued
  · change s.wakeAll.place u ≠ .running at away
    have other : u ≠ t := by
      rintro rfl
      rw [State.wakeAll_place_of_not_mem unqueued] at away
      exact away running
    show (prog ((s.wakeAll.goto t next).pc u)).IsWait
    rw [State.goto_pc_of_ne other]
    by_cases queued : u ∈ s.queue
    · exact inv.wait u (by rw [(inv.waiting u).mp queued]; exact Place.noConfusion)
    · rw [State.wakeAll_place_of_not_mem queued] at away
      exact inv.wait u away
  · show s.owner = some u ↔ s.wakeAll.place u = .running ∧ Holds ((s.wakeAll.goto t next).pc u)
    by_cases same : u = t
    · subst same
      rw [State.goto_pc_self, State.wakeAll_place_of_not_mem unqueued]
      exact ⟨fun _ => ⟨running, holds⟩, fun _ => owner⟩
    · rw [State.goto_pc_of_ne same]
      constructor
      · intro mine
        exact absurd (Option.some.inj (mine.symm.trans owner)) same
      · rintro ⟨runs, locked⟩
        exact absurd (alone runs locked) same
  · change (prog ((s.wakeAll.goto t next).pc u)).IsWait at waits
    change s.wakeAll.place u = .running ∨ s.wakeAll.place u = .waiting at placed
    by_cases same : u = t
    · subst same
      rw [State.goto_pc_self] at waits
      exact absurd waits noWait
    · rw [State.goto_pc_of_ne same] at waits
      rcases placed with runs | asleep
      · obtain ⟨kind, after, op⟩ := waits.eq
        exact absurd (alone runs (rules.wait op).1) same
      · by_cases queued : u ∈ s.queue
        · rw [State.wakeAll_place_of_mem queued] at asleep
          cases asleep
        · rw [State.wakeAll_place_of_not_mem queued, ← inv.waiting] at asleep
          exact absurd asleep queued

/-- A thread that owns the lock goes to sleep. It has looked before. -/
theorem Inv.sleep (inv : Inv prog Holds Owes Ready Sound s) (running : s.place t = .running)
    (owner : s.owner = some t)
    (waits : (prog (s.pc t)).IsWait) : Inv prog Holds Owes Ready Sound (s.sleep t) := by
  refine ⟨inv.sound, ?_, fun u => ?_, fun u away => ?_, fun u => ?_, fun u still placed => ?_⟩
  · rw [State.sleep, List.nodup_append]
    refine ⟨inv.queue, List.nodup_singleton t, ?_⟩
    rintro u queued v single rfl
    rw [List.mem_singleton.mp single] at queued
    exact inv.not_mem_queue running queued
  · show u ∈ s.queue ++ [t] ↔ _
    by_cases same : u = t
    · subst same
      simp [State.sleep_place_self]
    · simp [State.sleep_place_of_ne same, same, inv.waiting]
  · by_cases same : u = t
    · subst same
      exact waits
    · rw [State.sleep_place_of_ne same] at away
      exact inv.wait u away
  · show none = some u ↔ _ ∧ Holds (s.pc u)
    by_cases same : u = t
    · subst same
      simp [State.sleep_place_self]
    · rw [State.sleep_place_of_ne same, ← inv.owner u, owner]
      simp [Ne.symm same]
  · by_cases same : u = t
    · subst same
      exact inv.ready u waits (.inl running)
    · rw [State.sleep_place_of_ne same] at placed
      exact inv.ready u still placed

/-- What one thread does keeps everything in order. -/
theorem Inv.advance {s' : State τ σ π} {events : List (τ × ε)} (inv : Inv prog Holds Owes Ready Sound s)
    (rules : Discipline prog Entry Holds Owes Ready Sound) (running : s.place t = .running)
    (ran : s.advance prog t = some (s', events)) : Inv prog Holds Owes Ready Sound s' := by
  have mine (u : τ) (other : u ≠ t) {o : Option τ} (here : s.owner = some t) (gone : o = none ∨ o = some t) :
      o = some u ↔ s.place u = .running ∧ Holds (s.pc u) := by
    rw [← inv.owner u, here]
    rcases gone with rfl | rfl
    · exact ⟨fun none => (Option.some_ne_none _ none.symm).elim,
        fun same => absurd (Option.some.inj same).symm other⟩
    · rfl
  unfold State.advance at ran
  cases op : prog (s.pc t) with
  | stop =>
    rw [op] at ran
    cases ran
  | act effect =>
    simp only [op] at ran
    obtain ⟨⟨shared, evs, next⟩, effected, same⟩ := Option.map_eq_some_iff.mp ran
    cases same
    obtain ⟨sound, holds, owes, fresh⟩ := rules.act inv.sound op effected
    refine inv.move running sound (fun u => ?_) owes fresh
    by_cases same : u = t
    · subst same
      rw [State.goto_pc_self, holds]
      exact inv.owner u
    · rw [State.goto_pc_of_ne same]
      exact inv.owner u
  | lock next =>
    simp only [op] at ran
    split at ran
    · rename_i free
      cases ran
      obtain ⟨_, holds, owes, noWait⟩ := rules.lock op
      refine inv.onward running (inv.goes rules op rfl) (fun u => ?_) owes noWait
      by_cases same : u = t
      · subst same
        rw [State.goto_pc_self]
        exact ⟨fun _ => ⟨running, holds⟩, fun _ => rfl⟩
      · rw [State.goto_pc_of_ne same, ← inv.owner u, free]
        exact ⟨fun other => absurd (Option.some.inj other).symm same,
          fun none => (Option.some_ne_none _ none.symm).elim⟩
    · cases ran
  | unlock next =>
    simp only [op] at ran
    split at ran
    · rename_i here
      cases ran
      obtain ⟨_, released, owes, noWait⟩ := rules.unlock op
      refine inv.onward running (inv.goes rules op rfl) (fun u => ?_) owes noWait
      by_cases same : u = t
      · subst same
        rw [State.goto_pc_self]
        exact ⟨fun none => (Option.some_ne_none _ none.symm).elim, fun locked => absurd locked.2 released⟩
      · rw [State.goto_pc_of_ne same]
        exact mine u same here (.inl rfl)
    · cases ran
  | wait kind next =>
    simp only [op] at ran
    split at ran
    · rename_i here
      cases ran
      exact inv.sleep running here (by rw [op]; trivial)
    · cases ran
  | signal next =>
    simp only [op] at ran
    split at ran
    · rename_i here
      obtain ⟨_, holds, owes, noWait⟩ := rules.signal op
      have stays (u : τ) : s.owner = some u ↔ s.place u = .running ∧ Holds ((s.goto t next).pc u) := by
        by_cases same : u = t
        · subst same
          rw [State.goto_pc_self]
          exact ⟨fun _ => ⟨running, holds⟩, fun _ => here⟩
        · rw [State.goto_pc_of_ne same]
          exact inv.owner u
      cases queue : s.queue with
      | nil =>
        rw [queue] at ran
        cases ran
        exact inv.onward running (inv.goes rules op rfl) stays owes noWait
      | cons first rest =>
        rw [queue] at ran
        cases ran
        have queued : first ∈ s.queue := by
          rw [queue]
          exact List.mem_cons_self
        have other : t ≠ first := by
          rintro rfl
          exact inv.not_mem_queue running queued
        have woken : Inv prog Holds Owes Ready Sound (s.wake first false) := inv.wake queued
        have placed : (s.wake first false).place t = .running := (State.wake_place_of_ne other).trans running
        refine woken.onward placed (woken.goes rules op rfl) (fun u => ?_) owes noWait
        by_cases same : u = t
        · subst same
          rw [State.goto_pc_self]
          exact ⟨fun _ => ⟨placed, holds⟩, fun _ => here⟩
        · rw [State.goto_pc_of_ne same]
          exact woken.owner u
    · cases ran
  | broadcast next =>
    simp only [op] at ran
    split at ran
    · rename_i here
      cases ran
      exact inv.broadcast rules running op here
    · cases ran

/-- A woken thread gets the lock back. -/
theorem Inv.resume {timer : Bool} {next : π} (inv : Inv prog Holds Owes Ready Sound s)
    (sound : Sound s.shared (s.goto t next).pc) (placed : s.place t = .woken timer) (free : s.owner = none)
    (owesNot : ∀ w, ¬Owes (s.pc t) w) (holds : Holds next)
    (noWait : ¬(prog next).IsWait) : Inv prog Holds Owes Ready Sound ((s.resume t).goto t next) := by
  refine ⟨sound, inv.queue, fun u => ?_, fun u away => ?_, fun u => ?_, fun u waits place ready => ?_⟩
  · show u ∈ s.queue ↔ (s.resume t).place u = .waiting
    by_cases same : u = t
    · subst same
      rw [inv.waiting, placed, State.resume_place_self]
      simp
    · rw [State.resume_place_of_ne same]
      exact inv.waiting u
  · change (s.resume t).place u ≠ .running at away
    have other : u ≠ t := by
      rintro rfl
      exact away State.resume_place_self
    rw [State.resume_place_of_ne other] at away
    rw [State.goto_pc_of_ne other]
    exact inv.wait u away
  · show some t = some u ↔ (s.resume t).place u = .running ∧ _
    by_cases same : u = t
    · subst same
      rw [State.goto_pc_self]
      exact ⟨fun _ => ⟨State.resume_place_self, holds⟩, fun _ => rfl⟩
    · rw [State.goto_pc_of_ne same, State.resume_place_of_ne same]
      have none := inv.owner u
      rw [free] at none
      simp only [Option.some.injEq, Ne.symm same, false_iff]
      exact fun locked => Option.some_ne_none u (none.mpr locked).symm
  · change (s.resume t).place u = .running ∨ (s.resume t).place u = .waiting at place
    by_cases same : u = t
    · subst same
      rw [State.goto_pc_self] at waits
      exact absurd waits noWait
    · rw [State.goto_pc_of_ne same] at waits ready ⊢
      rw [State.resume_place_of_ne same] at place
      obtain ⟨v, owing⟩ := inv.ready u waits place ready
      have other : v ≠ t := by
        rintro rfl
        exact owesNot _ owing
      exact ⟨v, by rw [State.goto_pc_of_ne other]; exact owing⟩

theorem Inv.step {s' : State τ σ π} {action : Action τ π} {events : List (τ × ε)}
    (inv : Inv prog Holds Owes Ready Sound s) (rules : Discipline prog Entry Holds Owes Ready Sound)
    (entered : action.Enters fun t => Entry (s.pc t))
    (ran : s.step prog action = some (s', events)) : Inv prog Holds Owes Ready Sound s' := by
  cases action with
  | call t entry =>
    simp only [State.step] at ran
    split at ran
    · rename_i running op
      cases ran
      obtain ⟨released, noWait⟩ := rules.entry entered
      obtain ⟨before, owes⟩ := rules.stop op
      refine inv.onward running (inv.goes rules op entered) (fun u => ?_)
        (fun w owing => absurd owing (owes w)) noWait
      by_cases same : u = t
      · subst same
        rw [State.goto_pc_self, inv.owner u]
        exact ⟨fun locked => absurd locked.2 before, fun locked => absurd locked.2 released⟩
      · rw [State.goto_pc_of_ne same]
        exact inv.owner u
    · cases ran
  | step t =>
    simp only [State.step] at ran
    split at ran
    · rename_i running
      exact inv.advance rules running ran
    · cases ran
  | relock t late =>
    simp only [State.step] at ran
    split at ran
    · rename_i timer kind next placed op
      split at ran
      · rename_i free
        cases ran
        obtain ⟨_, owesNot, after⟩ := rules.wait op
        exact inv.resume (inv.goes rules op ⟨_, rfl⟩) placed free owesNot (after _).1 (after _).2
      · cases ran
    · cases ran
  | timeout t | interrupt t =>
    simp only [State.step] at ran
    split at ran
    · rename_i placed op
      split at ran
      · cases ran
        exact inv.wake ((inv.waiting t).mpr placed)
      · cases ran
    · cases ran

/-- The runs of any threads, entering their programs at the entries. -/
abbrev Reach (prog : π → Op σ ε π) (Entry : π → π → Prop) (shared : σ) (rest : π) :
    State τ σ π → List (τ × ε) → Prop :=
  Transition.Reach (State.step prog) (fun s action => action.Enters fun t => Entry (s.pc t))
    (State.initial shared rest)

theorem Reach.inv {shared : σ} {rest : π} {history : List (τ × ε)} (reach : Reach prog Entry shared rest s history)
    (rules : Discipline prog Entry Holds Owes Ready Sound) (stopped : prog rest = .stop)
    (sound : Sound shared fun _ => rest) :
    Inv prog Holds Owes Ready Sound s := by
  refine reach.invariant (fun s _ => Inv prog Holds Owes Ready Sound s) ?_ ?_
  · refine ⟨sound, List.nodup_nil, fun t => ?_, fun t away => absurd rfl away, fun t => ?_, fun t waits => ?_⟩
    · exact ⟨fun member => absurd member List.not_mem_nil, fun placed => (by cases placed)⟩
    · exact ⟨fun owner => (by cases owner), fun locked => absurd locked.2 (rules.stop stopped).1⟩
    · change (prog rest).IsWait at waits
      rw [stopped] at waits
      exact waits.elim
  · intro s s' action history events _ inv entered ran
    exact inv.step rules entered ran

/-- Every step is an effect of one thread with what it reports, or leaves what is
shared alone and reports nothing. -/
theorem State.step_cases {s' : State τ σ π} {action : Action τ π} {events : List (τ × ε)}
    (entered : action.Enters fun t => Entry (s.pc t)) (ran : s.step prog action = some (s', events)) :
    (s'.shared = s.shared ∧ events = [] ∧
      (s'.pc = s.pc ∨ ∃ t next, (prog (s.pc t)).Goes (Entry (s.pc t)) next ∧ s'.pc = Function.update s.pc t next)) ∨
    ∃ t effect reports next, prog (s.pc t) = .act effect ∧ effect s.shared = some (s'.shared, reports, next) ∧
      s'.pc = Function.update s.pc t next ∧ events = reports.map fun event => (t, event) := by
  cases action with
  | call t entry =>
    simp only [State.step] at ran
    split at ran
    · rename_i op
      cases ran
      exact .inl ⟨rfl, rfl, .inr ⟨t, entry, by rw [op]; exact entered, rfl⟩⟩
    · cases ran
  | step t =>
    simp only [State.step] at ran
    split at ran
    · unfold State.advance at ran
      cases op : prog (s.pc t) with
      | stop =>
        rw [op] at ran
        cases ran
      | act effect =>
        simp only [op] at ran
        obtain ⟨⟨shared, reports, next⟩, effected, same⟩ := Option.map_eq_some_iff.mp ran
        cases same
        exact .inr ⟨t, effect, reports, next, op, effected, rfl, rfl⟩
      | lock next | unlock next | broadcast next =>
        simp only [op] at ran
        split at ran
        · cases ran
          exact .inl ⟨rfl, rfl, .inr ⟨t, next, by rw [op]; rfl, rfl⟩⟩
        · cases ran
      | wait kind next =>
        simp only [op] at ran
        split at ran
        · cases ran
          exact .inl ⟨rfl, rfl, .inl rfl⟩
        · cases ran
      | signal next =>
        simp only [op] at ran
        split at ran
        · cases queue : s.queue with
          | nil | cons first rest =>
            rw [queue] at ran
            cases ran
            exact .inl ⟨rfl, rfl, .inr ⟨t, next, by rw [op]; rfl, rfl⟩⟩
        · cases ran
    · cases ran
  | relock t late =>
    simp only [State.step] at ran
    split at ran
    · rename_i timer kind next placed op
      split at ran
      · cases ran
        exact .inl ⟨rfl, rfl, .inr ⟨t, _, by rw [op]; exact ⟨_, rfl⟩, rfl⟩⟩
      · cases ran
    · cases ran
  | timeout t | interrupt t =>
    simp only [State.step] at ran
    split at ran
    · split at ran
      · cases ran
        exact .inl ⟨rfl, rfl, .inl rfl⟩
      · cases ran
    · cases ran

/-- At most one thread is where the lock is held and not given up to wait. -/
def Alone (prog : π → Op σ ε π) (Holds : π → Prop) (pc : τ → π) : Prop :=
  ∀ t u, Holds (pc t) → ¬(prog (pc t)).IsWait → Holds (pc u) → ¬(prog (pc u)).IsWait → t = u

omit [DecidableEq τ] in
theorem Inv.alone (inv : Inv prog Holds Owes Ready Sound s) : Alone prog Holds s.pc := by
  intro t u holdsT workingT holdsU workingU
  have ownerT := (inv.owner t).mpr ⟨by_contra fun away => workingT (inv.wait t away), holdsT⟩
  have ownerU := (inv.owner u).mpr ⟨by_contra fun away => workingU (inv.wait u away), holdsU⟩
  exact Option.some.inj (ownerT.symm.trans ownerU)

/-- What every effect and every other move keeps true of what is shared, of where the
threads are and of what was reported, holds in every run. The moves may use what is
always true of where the threads are. -/
theorem Reach.assertion_of {shared : σ} {rest : π} {history : List (τ × ε)} {A : (τ → π) → Prop}
    (always : ∀ {s : State τ σ π} {history}, Reach prog Entry shared rest s history → A s.pc)
    (reach : Reach prog Entry shared rest s history) {I : σ → (τ → π) → List (τ × ε) → Prop}
    (start : I shared (fun _ => rest) [])
    (goes : ∀ {shared pc history t next}, A pc → I shared pc history → (prog (pc t)).Goes (Entry (pc t)) next →
      I shared (Function.update pc t next) history)
    (act : ∀ {shared pc history t effect shared' events next}, A pc → I shared pc history →
      prog (pc t) = .act effect →
      effect shared = some (shared', events, next) →
      I shared' (Function.update pc t next) (history ++ events.map fun event => (t, event))) :
    I s.shared s.pc history := by
  refine reach.invariant (fun s history => I s.shared s.pc history) start ?_
  intro s s' action history events before holds entered ran
  rcases State.step_cases entered ran with ⟨same, rfl, still | ⟨t, next, onward, moved⟩⟩ |
    ⟨t, effect, reports, next, op, effected, moved, rfl⟩
  · rw [same, still, List.append_nil]
    exact holds
  · rw [same, moved, List.append_nil]
    exact goes (always before) holds onward
  · rw [moved]
    exact act (always before) holds op effected

theorem Reach.assertion {shared : σ} {rest : π} {history : List (τ × ε)}
    (reach : Reach prog Entry shared rest s history) {I : σ → (τ → π) → List (τ × ε) → Prop}
    (start : I shared (fun _ => rest) [])
    (goes : ∀ {shared pc history t next}, I shared pc history → (prog (pc t)).Goes (Entry (pc t)) next →
      I shared (Function.update pc t next) history)
    (act : ∀ {shared pc history t effect shared' events next}, I shared pc history → prog (pc t) = .act effect →
      effect shared = some (shared', events, next) →
      I shared' (Function.update pc t next) (history ++ events.map fun event => (t, event))) :
    I s.shared s.pc history :=
  Reach.assertion_of (A := fun _ => True) (fun _ => trivial) reach start (fun _ => goes) (fun _ => act)

/-- A thread that neither sleeps in vain nor can go on. -/
inductive Rests (prog : π → Op σ ε π) (Holds : π → Prop) (Ready : σ → π → Prop) (s : State τ σ π) (t : τ) : Prop
  | stopped : s.place t = .running → prog (s.pc t) = .stop → Rests prog Holds Ready s t
  | blocked {effect} : s.place t = .running → prog (s.pc t) = .act effect → effect s.shared = none →
      ¬Holds (s.pc t) → Rests prog Holds Ready s t
  | waits : s.place t = .waiting → (prog (s.pc t)).IsWait → ¬Ready s.shared (s.pc t) → Rests prog Holds Ready s t

/-- No deadlock: when no thread can take a step, nobody has the lock, and the
threads that are not done wait for something that has not come. -/
theorem Inv.rests (inv : Inv prog Holds Owes Ready Sound s) (rules : Discipline prog Entry Holds Owes Ready Sound)
    (stuck : ∀ t, s.step prog (.step t) = none) (locked : ∀ t, s.step prog (.relock t false) = none) :
    s.owner = none ∧ ∀ t, Rests prog Holds Ready s t := by
  have still (u : τ) (running : s.place u = .running) : s.advance prog u = none := by
    have step := stuck u
    simpa only [State.step, running, if_true] using step
  -- a running thread that holds the lock, or owes a broadcast while the lock is free, can go on
  have goes (u : τ) (running : s.place u = .running) (busy : s.owner = some u ∨
    (s.owner = none ∧ ∃ w, Owes (s.pc u) w)) :
      False := by
    have holds (locked : Holds (s.pc u)) : s.owner = some u := (inv.owner u).mpr ⟨running, locked⟩
    have stays := still u running
    unfold State.advance at stays
    cases op : prog (s.pc u) with
    | stop =>
      obtain ⟨released, owesNot⟩ := rules.stop op
      rcases busy with owner | ⟨_, owing⟩
      · exact released ((inv.owner u).mp owner).2
      · obtain ⟨w, owing⟩ := owing
        exact owesNot w owing
    | act effect =>
      simp only [op, Option.map_eq_none_iff] at stays
      have live := rules.live inv.sound op (busy.imp (fun owner => ((inv.owner u).mp owner).2) And.right)
      rw [stays] at live
      cases live
    | lock next =>
      simp only [op] at stays
      rcases busy with owner | ⟨free, _⟩
      · exact (rules.lock op).1 ((inv.owner u).mp owner).2
      · rw [if_pos free] at stays
        cases stays
    | unlock next =>
      simp only [op, if_pos (holds (rules.unlock op).1)] at stays
      cases stays
    | wait kind next =>
      simp only [op, if_pos (holds (rules.wait op).1)] at stays
      cases stays
    | signal next =>
      simp only [op, if_pos (holds (rules.signal op).1)] at stays
      cases queue : s.queue <;> rw [queue] at stays <;> cases stays
    | broadcast next =>
      simp only [op, if_pos (holds (rules.broadcast op).1)] at stays
      cases stays
  have free : s.owner = none := by
    cases owner : s.owner with
    | none => rfl
    | some u => exact (goes u ((inv.owner u).mp owner).1 (.inl owner)).elim
  refine ⟨free, fun t => ?_⟩
  cases placed : s.place t with
  | woken timer =>
    obtain ⟨kind, next, op⟩ := (inv.wait t (by rw [placed]; exact Place.noConfusion)).eq
    have stays := locked t
    simp only [State.step, placed, op, free, if_true] at stays
    cases stays
  | waiting =>
    have waits := inv.wait t (by rw [placed]; exact Place.noConfusion)
    refine .waits placed waits fun ready => ?_
    obtain ⟨u, owing⟩ := inv.ready t waits (.inr placed) ready
    refine goes u ?_ (.inr ⟨free, _, owing⟩)
    by_contra away
    obtain ⟨kind, next, op⟩ := (inv.wait u away).eq
    exact (rules.wait op).2.1 _ owing
  | running =>
    have stays := still t placed
    have released : ¬Holds (s.pc t) := fun holds => by
      have owner := (inv.owner t).mpr ⟨placed, holds⟩
      rw [free] at owner
      cases owner
    unfold State.advance at stays
    cases op : prog (s.pc t) with
    | stop => exact .stopped placed op
    | act effect =>
      simp only [op, Option.map_eq_none_iff] at stays
      exact .blocked placed op stays released
    | lock next =>
      simp only [op, if_pos free] at stays
      cases stays
    | unlock next => exact absurd (rules.unlock op).1 released
    | wait kind next => exact absurd (rules.wait op).1 released
    | signal next => exact absurd (rules.signal op).1 released
    | broadcast next => exact absurd (rules.broadcast op).1 released

end Monitor
