import IomemoryVsl.SixLockProgram
import Mathlib.Data.List.Pairwise

namespace IomemoryVsl

open Monitor

variable {τ : Type}

/-- The request of a call whose critical section is not over: the system of the
semaphore has not taken its step yet. -/
def SixPc.pending : SixPc → Option SixRequest
  | testing _ r true | granting _ r true => some r
  | _ => none

/-- The request of a thread in the wait loop. -/
def SixPc.inLoop : SixPc → Option SixRequest
  | waiting _ r => some r
  | testing _ r initFlag | granting _ r initFlag => if initFlag then none else some r
  | _ => none

def SixRequest.of (r : SixRequest) (thread : τ) : Request τ := ⟨thread, r.oldMode, r.newMode, r.serial, r.ticket⟩

theorem SixPc.not_inLoop {p : SixPc} {t : τ} {q : Request τ} (outside : p.inLoop = none) :
    ¬∃ r, p.inLoop = some r ∧ q = r.of t := by
  rintro ⟨r, inside, _⟩
  rw [outside] at inside
  cases inside

/-- What was reported, as events of the semaphore. -/
def sixEvents (history : List (τ × SixMark)) : List (SixEvent τ) := history.map fun report => report.2.of report.1

/-- The system of the semaphore stands for the threads in `six_lock.c`. While a call has
entered but is not through its critical section, the system is the one before it. -/
structure SixMatches (s : SixSystem τ) (h : List (SixEvent τ)) [DecidableEq τ] (shared : SixShared) (pc : τ → SixPc)
    (history : List (τ × SixMark)) : Prop where
  holds : ∀ t mode, (pc t).held.count mode = s.holds.count ⟨t, mode⟩
  fair : ∀ t, (pc t).Fair
  requests : ∀ r, r ∈ s.requests ↔ ∃ q, (pc r.thread).inLoop = some q ∧ r = q.of r.thread
  settled : (∀ t, (pc t).pending = none) → s.sem = shared.1 ∧ s.tickets = shared.2 ∧ sixEvents history = h
  entered : ∀ t r, (pc t).pending = some r → fusionSixsemUpgradeEnter s.sem r.oldMode = some (shared.1, r.serial) ∧
    r.ticket = s.tickets ∧ shared.2 = s.tickets + 1 ∧
      sixEvents history = h ++ [.requested r.ticket t r.oldMode r.newMode]
  passes : ∀ t held r initFlag, pc t = .granting held r initFlag →
    fusionSixsemUpgradeWaits shared.1 r.serial r.oldMode r.newMode initFlag = false

/-- The functions of `six_lock.c` keep the discipline of the lock. -/
theorem sixDiscipline [DecidableEq τ] : Discipline sixProgram SixPc.Entry (fun p => p.locked = true)
    (fun _ _ => False)
    (fun _ _ => False) (fun _ (_ : τ → SixPc) => True) where
  entry {_ q} entry := by
    cases q with
    | begin held call => exact ⟨Bool.false_ne_true, id⟩
    | _ => exact entry.elim
  stop {p} op := by
    cases p with
    | idle held => exact ⟨Bool.false_ne_true, fun _ => id⟩
    | _ => cases op
  goes _ _ := trivial
  act {shared pc t effect shared' events next} _ op ran := by
    refine ⟨trivial, ?_, fun _ _ _ never => never.elim, fun _ never => never⟩
    cases here : pc t with
    | entering held oldMode asked =>
      rw [here] at op
      cases op
      have done := Option.some.inj ran
      unfold enterEffect at done
      split at done
      · cases done
        exact Iff.rfl
      · cases done
        exact Iff.rfl
    | testing held r initFlag =>
      rw [here] at op
      cases op
      have done := Option.some.inj ran
      unfold testEffect at done
      split at done
      · cases done
        exact Iff.rfl
      · cases done
        exact Iff.rfl
    | granting held r initFlag =>
      rw [here] at op
      cases op
      have done := congrArg (fun r => r.2.2) (Option.some.inj ran)
      simp only [grantEffect] at done
      split at done
      · rw [← done]
        exact Iff.rfl
      · rw [← done]
        exact Iff.rfl
    | trying held mode | releasing held mode =>
      rw [here] at op
      cases op
      cases ran
      exact Iff.rfl
    | _ =>
      rw [here] at op
      cases op
  live {shared pc t effect} _ op _ := by
    cases here : pc t with
    | entering | testing | granting | trying | releasing =>
      rw [here] at op
      cases op
      rfl
    | _ =>
      rw [here] at op
      cases op
  lock {p next} op := by
    cases p with
    | begin held call =>
      cases op
      cases call with
      | upgrade | trylock | up => exact ⟨Bool.false_ne_true, rfl, fun _ => id, id⟩
    | _ => cases op
  unlock {p next} op := by
    cases p with
    | unlocking held =>
      cases op
      exact ⟨rfl, Bool.false_ne_true, fun _ => id, id⟩
    | _ => cases op
  wait {p kind next} op := by
    cases p with
    | waiting held r =>
      cases op
      exact ⟨rfl, fun _ => id, fun _ => ⟨rfl, id⟩⟩
    | _ => cases op
  signal {p next} op := by
    cases p with
    | signalling held =>
      cases op
      exact ⟨rfl, rfl, fun _ => id, id⟩
    | _ => cases op
  broadcast {p next} op := by
    cases p with
    | _ => cases op

section Matches

variable [DecidableEq τ] {s s' : SixSystem τ} {h h' : List (SixEvent τ)} {shared shared' : SixShared}
    {pc : τ → SixPc}
  {history : List (τ × SixMark)} {t : τ} {next : SixPc} {events : List SixMark}

omit [DecidableEq τ] in
theorem sixEvents_append : sixEvents (history ++ events.map fun event => (t, event)) =
    sixEvents history ++ events.map (SixMark.of t) := by
  rw [sixEvents, List.map_append, List.map_map]
  rfl

/-- Two points that the system of the semaphore does not tell apart. -/
structure SixPc.Same (p next : SixPc) : Prop where
  held : next.held = p.held
  pending : next.pending = p.pending
  inLoop : next.inLoop = p.inLoop
  fair : next.Fair

theorem SixMatches.stay (sim : SixMatches s h shared pc history) (same : (pc t).Same next)
    (passes : ∀ held r initFlag, next = .granting held r initFlag →
      fusionSixsemUpgradeWaits shared.1 r.serial r.oldMode r.newMode initFlag = false) :
    SixMatches s h shared (Function.update pc t next) history := by
  have pending : ∀ u, (Function.update pc t next u).pending = (pc u).pending := by
    intro u
    by_cases here : u = t
    · rw [here, Function.update_self]
      exact same.pending
    · rw [Function.update_of_ne here]
  refine ⟨fun u mode => ?_, fun u => ?_, fun r => ?_, fun calm => ?_, fun u r entered => ?_,
    fun u held r initFlag here => ?_⟩
  · by_cases here : u = t
    · rw [here, Function.update_self, same.held]
      exact sim.holds t mode
    · rw [Function.update_of_ne here]
      exact sim.holds u mode
  · by_cases here : u = t
    · rw [here, Function.update_self]
      exact same.fair
    · rw [Function.update_of_ne here]
      exact sim.fair u
  · rw [sim.requests r]
    by_cases here : r.thread = t
    · rw [here, Function.update_self, same.inLoop]
    · rw [Function.update_of_ne here]
  · exact sim.settled fun u => (pending u).symm.trans (calm u)
  · exact sim.entered u r ((pending u).symm.trans entered)
  · by_cases same' : u = t
    · rw [same', Function.update_self] at here
      exact passes held r initFlag here
    · rw [Function.update_of_ne same'] at here
      exact sim.passes u held r initFlag here

/-- A move that has no effect on what is shared. -/
theorem SixMatches.goes (sim : SixMatches s h shared pc history)
    (goes : (sixProgram (pc t)).Goes (pc t).Entry next) :
    SixMatches s h shared (Function.update pc t next) history := by
  have fair := sim.fair t
  cases here : pc t with
  | idle held =>
    rw [here] at goes
    cases next with
    | begin held' call =>
      obtain ⟨rfl, fair'⟩ := goes
      refine sim.stay ?_ nofun
      rw [here]
      exact ⟨rfl, rfl, rfl, fair'⟩
    | _ => exact goes.elim
  | begin held call =>
    rw [here] at goes fair
    cases goes
    refine sim.stay ?_ (by cases call <;> nofun)
    rw [here]
    cases call with
    | upgrade oldMode asked => exact ⟨rfl, rfl, rfl, fair⟩
    | trylock mode => exact ⟨rfl, rfl, rfl, trivial⟩
    | up mode => exact ⟨rfl, rfl, rfl, fair⟩
  | waiting held r =>
    rw [here] at goes fair
    obtain ⟨_, rfl⟩ := goes
    refine sim.stay ?_ nofun
    rw [here]
    exact ⟨rfl, rfl, rfl, fair⟩
  | signalling held | unlocking held =>
    rw [here] at goes
    cases goes
    refine sim.stay ?_ nofun
    rw [here]
    exact ⟨rfl, rfl, rfl, trivial⟩
  | entering | testing | granting | trying | releasing =>
    rw [here] at goes
    exact goes.elim

/-- Nobody but one thread is in a critical section. -/
def Lone (pc : τ → SixPc) (t : τ) : Prop :=
  ∀ u, u ≠ t → (pc u).pending = none ∧ ∀ held r initFlag, pc u ≠ .granting held r initFlag

omit [DecidableEq τ] in
theorem lone_of_alone (alone : Alone sixProgram (fun p => p.locked = true) pc) (locked : (pc t).locked = true)
    (working : ¬(sixProgram (pc t)).IsWait) : Lone pc t := by
  intro u other
  have outside (busy : (pc u).locked = true) (acts : ¬(sixProgram (pc u)).IsWait) : False :=
    other (alone u t busy acts locked working)
  cases here : pc u with
  | testing held r initFlag | granting held r initFlag =>
    rw [here] at outside
    exact (outside rfl id).elim
  | _ => exact ⟨rfl, nofun⟩

/-- An effect of a thread with which the system of the semaphore is settled. -/
theorem SixMatches.act (sim : SixMatches s h shared pc history) (lone : Lone pc t)
    (own : ∀ mode, next.held.count mode = s'.holds.count ⟨t, mode⟩)
    (others : ∀ u, u ≠ t → ∀ mode, s'.holds.count ⟨u, mode⟩ = s.holds.count ⟨u, mode⟩) (fair : next.Fair)
    (mine : ∀ r, r.thread = t → (r ∈ s'.requests ↔ ∃ q, next.inLoop = some q ∧ r = q.of t))
    (theirs : ∀ r, r.thread ≠ t → (r ∈ s'.requests ↔ r ∈ s.requests))
    (calm : next.pending = none) (sem : s'.sem = shared'.1) (tickets : s'.tickets = shared'.2)
    (told : sixEvents (history ++ events.map fun event => (t, event)) = h')
    (passes : ∀ held r initFlag, next = .granting held r initFlag →
      fusionSixsemUpgradeWaits shared'.1 r.serial r.oldMode r.newMode initFlag = false) :
    SixMatches s' h' shared' (Function.update pc t next) (history ++ events.map fun event => (t, event)) := by
  refine ⟨fun u mode => ?_, fun u => ?_, fun r => ?_, fun _ => ⟨sem, tickets, told⟩, fun u r entered => ?_,
    fun u held r initFlag here => ?_⟩
  · by_cases here : u = t
    · rw [here, Function.update_self]
      exact own mode
    · rw [Function.update_of_ne here, others u here]
      exact sim.holds u mode
  · by_cases here : u = t
    · rw [here, Function.update_self]
      exact fair
    · rw [Function.update_of_ne here]
      exact sim.fair u
  · by_cases here : r.thread = t
    · rw [mine r here, here, Function.update_self]
    · rw [theirs r here, Function.update_of_ne here]
      exact sim.requests r
  · by_cases here : u = t
    · rw [here, Function.update_self, calm] at entered
      cases entered
    · rw [Function.update_of_ne here, (lone u here).1] at entered
      cases entered
  · by_cases same : u = t
    · rw [same, Function.update_self] at here
      exact passes held r initFlag here
    · rw [Function.update_of_ne same] at here
      exact absurd here ((lone u same).2 held r initFlag)

omit [DecidableEq τ] in
theorem Lone.calm (lone : Lone pc t) (here : (pc t).pending = none) : ∀ u, (pc u).pending = none := by
  intro u
  by_cases same : u = t
  · rw [same]
    exact here
  · exact (lone u same).1

/-- A thread that is not in the wait loop is not busy. -/
theorem SixMatches.idle (sim : SixMatches s h shared pc history) (outside : (pc t).inLoop = none) : ¬s.Busy t := by
  rw [SixSystem.not_busy_iff]
  rintro r member rfl
  obtain ⟨q, inside, _⟩ := (sim.requests r).mp member
  rw [outside] at inside
  cases inside

/-- A thread that is not in the wait loop has no requests. -/
theorem SixMatches.none_of_outside (sim : SixMatches s h shared pc history) (outside : (pc t).inLoop = none)
    {r : Request τ} (mine : r.thread = t) : r ∉ s.requests :=
  fun member => SixSystem.not_busy_iff.mp (sim.idle outside) r member mine

theorem SixMatches.mem_holds (sim : SixMatches s h shared pc history) {mode : LockMode} :
    ⟨t, mode⟩ ∈ s.holds ↔ mode ∈ (pc t).held := by
  rw [← List.count_pos_iff, ← sim.holds t mode, List.count_pos_iff]

/-- The guard of the system's step. -/
theorem SixMatches.may (sim : SixMatches s h shared pc history) (outside : (pc t).inLoop = none)
    {oldMode : LockMode} (own : oldMode ≠ .null → oldMode ∈ (pc t).held) :
    ¬(s.Busy t ∨ (oldMode ≠ .null ∧ ⟨t, oldMode⟩ ∉ s.holds)) := by
  rintro (busy | ⟨converts, missing⟩)
  · exact sim.idle outside busy
  · exact missing (sim.mem_holds.mpr (own converts))

theorem count_keptHolds {holds : List (Hold τ)} {held : List LockMode} {oldMode : LockMode}
    (own : ∀ mode, held.count mode = holds.count ⟨t, mode⟩) (mode : LockMode) :
    (keptModes held oldMode).count mode = (keptHolds holds t oldMode).count ⟨t, mode⟩ := by
  rw [keptModes, keptHolds]
  split
  · rw [List.count_erase, List.count_erase, own mode]
    simp
  · exact own mode

theorem count_keptHolds_other {holds : List (Hold τ)} {oldMode : LockMode} {u : τ} (other : u ≠ t)
    (mode : LockMode) :
    (keptHolds holds t oldMode).count ⟨u, mode⟩ = holds.count ⟨u, mode⟩ := by
  rw [keptHolds]
  split
  · rw [List.count_erase_of_ne]
    exact fun same => other (congrArg Hold.thread same)
  · rfl

/-- The threads stand as some run of the system of the semaphore has them. -/
def SixStands (shared : SixShared) (pc : τ → SixPc) (history : List (τ × SixMark)) : Prop :=
  ∃ s h, SixReach (fun _ _ => True) s h ∧ SixMatches s h shared pc history

theorem SixMatches.entering {held : List LockMode} {oldMode asked : LockMode}
    (reach : SixReach (fun _ _ => True) s h) (sim : SixMatches s h shared pc history) (lone : Lone pc t)
    (here : pc t = .entering held oldMode asked)
    (ran : enterEffect held oldMode asked shared = (shared', events, next)) :
    SixStands shared' (Function.update pc t next) (history ++ events.map fun event => (t, event)) := by
  have pending : (pc t).pending = none := by rw [here]; rfl
  have outside : (pc t).inLoop = none := by rw [here]; rfl
  have kept : (pc t).held = held := by rw [here]; rfl
  have fair := sim.fair t
  rw [here] at fair
  obtain ⟨sem, tickets, told⟩ := sim.settled (lone.calm pending)
  rw [enterEffect] at ran
  split at ran
  · rename_i full
    cases ran
    have stepped : s.step (.upgrade t oldMode asked) = some (s, [.refused t (-eagain)]) := by
      rw [SixSystem.step, if_neg (sim.may outside (kept ▸ fair)), sem, full]
    refine ⟨s, _, reach.next trivial stepped,
      sim.act lone ?_ (fun _ _ _ => rfl) trivial ?_ (fun _ _ => Iff.rfl) rfl sem tickets
      ?_ fun _ _ _ same => by cases same⟩
    · intro mode
      rw [← sim.holds t mode, kept]
      rfl
    · exact fun r mine => iff_of_false (sim.none_of_outside outside mine) (SixPc.not_inLoop rfl)
    · rw [sixEvents_append, told]
      rfl
  · rename_i sem' serial entered
    cases ran
    rw [← sem] at entered
    refine ⟨s, h, reach, fun u mode => ?_, fun u => ?_, fun r => ?_, fun calm => ?_, fun u r pended => ?_,
      fun u held' r i at' => ?_⟩
    · by_cases same : u = t
      · rw [same, Function.update_self, ← sim.holds t mode, kept]
        rfl
      · rw [Function.update_of_ne same]
        exact sim.holds u mode
    · by_cases same : u = t
      · rw [same, Function.update_self]
        exact fair
      · rw [Function.update_of_ne same]
        exact sim.fair u
    · by_cases same : r.thread = t
      · rw [same, Function.update_self]
        exact iff_of_false (sim.none_of_outside outside same) (SixPc.not_inLoop rfl)
      · rw [Function.update_of_ne same]
        exact sim.requests r
    · have never := calm t
      rw [Function.update_self] at never
      cases never
    · by_cases same : u = t
      · rw [same, Function.update_self] at pended
        cases pended
        rw [same, sixEvents_append, told]
        exact ⟨entered, tickets.symm, congrArg (· + 1) tickets.symm, rfl⟩
      · rw [Function.update_of_ne same, (lone u same).1] at pended
        cases pended
    · by_cases same : u = t
      · rw [same, Function.update_self] at at'
        cases at'
      · rw [Function.update_of_ne same] at at'
        exact absurd at' ((lone u same).2 held' r i)

/-- The waiter that a request becomes in the system of the semaphore. -/
def SixRequest.waiter (r : SixRequest) (t : τ) : Waiter τ := { r.of t with awake := true }

omit [DecidableEq τ] in
theorem SixPc.eq_of_pending {p : SixPc} {r : SixRequest} (pended : p.pending = some r) :
    p = .testing p.held r true ∨ p = .granting p.held r true := by
  cases p with
  | testing held q initFlag =>
    cases initFlag with
    | true =>
      cases pended
      exact .inl rfl
    | false => cases pended
  | granting held q initFlag =>
    cases initFlag with
    | true =>
      cases pended
      exact .inr rfl
    | false => cases pended
  | _ => cases pended

omit [DecidableEq τ] in
theorem SixPc.outside_of_pending {p : SixPc} {r : SixRequest} (pended : p.pending = some r) : p.inLoop = none := by
  rcases SixPc.eq_of_pending pended with same | same
  · rw [same]
    rfl
  · rw [same]
    rfl

/-- The system takes the step of a call that has entered. -/
theorem SixMatches.upgrade {r : SixRequest} (sim : SixMatches s h shared pc history)
    (pended : (pc t).pending = some r) :
    s.step (.upgrade t r.oldMode r.asked) = some (((s.enter shared.1 (r.waiter t)).settle (r.waiter t) true).1,
      .requested r.ticket t r.oldMode r.newMode ::
        ((s.enter shared.1 (r.waiter t)).settle (r.waiter t) true).2) := by
  obtain ⟨entered, ticket, _, _⟩ := sim.entered t r pended
  have own : r.oldMode ≠ .null → r.oldMode ∈ (pc t).held := by
    have fair := sim.fair t
    rcases SixPc.eq_of_pending pended with same | same
    · rw [same] at fair
      exact fair
    · rw [same] at fair
      exact fair
  rw [SixSystem.step, if_neg (sim.may (SixPc.outside_of_pending pended) own), entered, SixRequest.waiter,
    SixRequest.of, ticket]
  rfl

theorem enter_erase {sem : Sixsem} {w : Waiter τ} (idle : ¬s.Busy w.thread) :
    (s.enter sem w).waiters.erase w = s.waiters := by
  have fresh : w ∉ s.waiters := fun member => idle ⟨w, member, rfl⟩
  rw [SixSystem.enter, List.erase_append_right _ fresh, List.erase_cons_head, List.append_nil]

/-- A call that has entered goes to sleep. -/
theorem SixMatches.sleeps {held : List LockMode} {r : SixRequest} (reach : SixReach (fun _ _ => True) s h)
    (sim : SixMatches s h shared pc history) (lone : Lone pc t) (here : pc t = .testing held r true)
    (waits : fusionSixsemUpgradeWaits shared.1 r.serial r.oldMode r.newMode true = true) :
    SixStands shared (Function.update pc t (.waiting held r))
      (history ++ ([] : List SixMark).map fun event => (t, event)) := by
  have pended : (pc t).pending = some r := by rw [here]; rfl
  have kept : (pc t).held = held := by rw [here]; rfl
  have fair := sim.fair t
  rw [here] at fair
  obtain ⟨_, _, tickets, told⟩ := sim.entered t r pended
  have idle : ¬s.Busy t := sim.idle (SixPc.outside_of_pending pended)
  have stepped := sim.upgrade pended
  have asleep : (s.enter shared.1 (r.waiter t)).settle (r.waiter t) true = _ := SixSystem.settle_asleep waits
  rw [asleep, enter_erase idle] at stepped
  refine ⟨_, _, reach.next trivial stepped,
    sim.act lone ?_ (fun _ _ _ => rfl) fair ?_ ?_ rfl rfl tickets.symm ?_
      fun _ _ _ same => by cases same⟩
  · intro mode
    rw [SixPc.held, ← kept]
    exact sim.holds t mode
  · intro q mine
    have old : q ∉ s.waiters.map Waiter.toRequest := sim.none_of_outside (SixPc.outside_of_pending pended) mine
    simp only [SixSystem.requests, List.map_append, List.map_singleton, List.mem_append, List.mem_singleton]
    rw [or_iff_right old]
    constructor
    · intro same
      exact ⟨r, rfl, same⟩
    · rintro ⟨_, same, eq⟩
      cases same
      exact eq
  · intro q other
    simp only [SixSystem.requests, List.map_append, List.map_singleton, List.mem_append, List.mem_singleton]
    refine or_iff_left ?_
    rintro rfl
    exact other rfl
  · rw [List.map_nil, List.append_nil]
    exact told

/-- A point at which a call is through its critical section. -/
structure SixPc.Over (p : SixPc) (held : List LockMode) : Prop where
  held : p.held = held
  pending : p.pending = none
  inLoop : p.inLoop = none
  fair : p.Fair
  passed : ∀ held r initFlag, p ≠ .granting held r initFlag

omit [DecidableEq τ] in
theorem SixPc.ends (signal : Bool) (held : List LockMode) :
    (if signal then signalling held else unlocking held).Over held := by
  cases signal with
  | true => exact ⟨rfl, rfl, rfl, trivial, nofun⟩
  | false => exact ⟨rfl, rfl, rfl, trivial, nofun⟩

/-- A request leaves the wait loop of a system that has the semaphore as it is. -/
theorem SixMatches.granted {b : SixSystem τ} {held : List LockMode} {r : SixRequest}
    {initFlag awake : Bool} (sim : SixMatches s h shared pc history) (lone : Lone pc t)
    (here : pc t = .granting held r initFlag) (sem : b.sem = shared.1) (tickets : b.tickets = shared.2)
    (holds : b.holds = s.holds) (told : sixEvents history = h')
    (mine : ∀ q, q.thread = t → q ∉ (b.waiters.erase ⟨r.of t, awake⟩).map Waiter.toRequest)
    (theirs : ∀ q, q.thread ≠ t → (q ∈ (b.waiters.erase ⟨r.of t, awake⟩).map Waiter.toRequest ↔ q ∈ s.requests))
    (ran : grantEffect held r shared = (shared', events, next)) :
    SixMatches (b.settle ⟨r.of t, awake⟩ initFlag).1 (h' ++ (b.settle ⟨r.of t, awake⟩ initFlag).2) shared'
      (Function.update pc t next) (history ++ events.map fun event => (t, event)) := by
  have kept : (pc t).held = held := by rw [here]; rfl
  have passes := sim.passes t held r initFlag here
  rw [← sem] at passes
  rcases outcome : fusionSixsemUpgradeGrant b.sem r.oldMode r.newMode with ⟨sem', retval, signal⟩
  simp only [grantEffect, ← sem, outcome] at ran
  cases ran
  have result : b.settle ⟨r.of t, awake⟩ initFlag =
      (⟨sem', if signal then fusionCondvarSignal (b.waiters.erase ⟨r.of t, awake⟩)
          else b.waiters.erase ⟨r.of t, awake⟩,
        if retval = 0 then keptHolds b.holds t r.oldMode ++ [⟨t, r.newMode⟩]
          else keptHolds b.holds t r.oldMode, b.tickets⟩,
        [.granted r.ticket t r.oldMode r.newMode retval]) := by
    rw [SixSystem.settle_granted (w := ⟨r.of t, awake⟩) passes]
    simp only [SixRequest.of, outcome]
  have requests (q : Request τ) :
      q ∈ (if signal then fusionCondvarSignal (b.waiters.erase ⟨r.of t, awake⟩) else
        b.waiters.erase ⟨r.of t, awake⟩).map Waiter.toRequest ↔
      q ∈ (b.waiters.erase ⟨r.of t, awake⟩).map Waiter.toRequest := by
    cases signal with
    | true => rw [if_pos rfl, fusionCondvarSignal_requests]
    | false => rw [if_neg Bool.false_ne_true]
  have own (mode : LockMode) : held.count mode = s.holds.count ⟨t, mode⟩ := by
    rw [← sim.holds t mode, kept]
  have ends := SixPc.ends signal
    (if retval = 0 then keptModes held r.oldMode ++ [r.newMode] else keptModes held r.oldMode)
  rw [result, holds]
  refine sim.act lone (fun mode => ?_) (fun u other mode => ?_) ends.fair (fun q same => ?_)
    (fun q other => ?_) ends.pending rfl
    tickets ?_ (fun held r i at' => absurd at' (ends.passed held r i))
  · rw [ends.held]
    by_cases zero : retval = 0
    · simp only [if_pos zero, List.count_append, count_keptHolds own mode]
      simp [List.count_singleton]
    · simp only [if_neg zero, count_keptHolds own mode]
  · by_cases zero : retval = 0
    · have foreign : (⟨u, mode⟩ : Hold τ) ∉ [⟨t, r.newMode⟩] := by
        rw [List.mem_singleton]
        exact fun same => other (congrArg Hold.thread same)
      simp only [if_pos zero, List.count_append, count_keptHolds_other other mode,
        List.count_eq_zero_of_not_mem foreign,
        Nat.add_zero]
    · simp only [if_neg zero, count_keptHolds_other other mode]
  · exact iff_of_false (fun member => mine q same ((requests q).mp member)) (SixPc.not_inLoop ends.inLoop)
  · exact (requests q).trans (theirs q other)
  · rw [sixEvents_append, told]
    rfl

/-- A call that never slept is granted. -/
theorem SixMatches.grants {held : List LockMode} {r : SixRequest} (reach : SixReach (fun _ _ => True) s h)
    (sim : SixMatches s h shared pc history) (lone : Lone pc t) (here : pc t = .granting held r true)
    (ran : grantEffect held r shared = (shared', events, next)) :
    SixStands shared' (Function.update pc t next) (history ++ events.map fun event => (t, event)) := by
  have pended : (pc t).pending = some r := by rw [here]; rfl
  obtain ⟨_, _, tickets, told⟩ := sim.entered t r pended
  have idle : ¬s.Busy t := sim.idle (SixPc.outside_of_pending pended)
  have before : (s.enter shared.1 ⟨r.of t, true⟩).waiters.erase ⟨r.of t, true⟩ = s.waiters := enter_erase idle
  have after := sim.granted (b := s.enter shared.1 ⟨r.of t, true⟩) lone here rfl tickets.symm rfl told
    (fun q same => by rw [before]; exact sim.none_of_outside (SixPc.outside_of_pending pended) same)
    (fun q _ => by rw [before]; rfl) ran
  rw [List.append_assoc] at after
  exact ⟨_, _, reach.next trivial (sim.upgrade pended), after⟩

theorem SixMatches.waiter {r : SixRequest} (sim : SixMatches s h shared pc history)
    (inside : (pc t).inLoop = some r) :
    ∃ awake, s.waiters.find? (fun w => w.thread = t) = some ⟨r.of t, awake⟩ := by
  have asked : r.of t ∈ s.requests := (sim.requests (r.of t)).mpr ⟨r, inside, rfl⟩
  obtain ⟨v, queued, same⟩ := List.mem_map.mp asked
  cases found : s.waiters.find? (fun w => w.thread = t) with
  | none =>
    have mine : v.thread = t := congrArg Request.thread same
    exact absurd (decide_eq_true mine) (List.find?_eq_none.mp found v queued)
  | some w =>
    have mine : w.thread = t := by simpa using List.find?_some found
    obtain ⟨q, inside', eq⟩ := (sim.requests w.toRequest).mp (List.mem_map_of_mem (List.mem_of_find?_eq_some found))
    rw [mine, inside] at inside'
    cases inside'
    rw [mine] at eq
    exact ⟨w.awake, by rw [← eq]⟩

/-- A call that has slept is granted. -/
theorem SixMatches.wakes {held : List LockMode} {r : SixRequest} (reach : SixReach (fun _ _ => True) s h)
    (sim : SixMatches s h shared pc history) (lone : Lone pc t) (here : pc t = .granting held r false)
    (ran : grantEffect held r shared = (shared', events, next)) :
    SixStands shared' (Function.update pc t next) (history ++ events.map fun event => (t, event)) := by
  have inside : (pc t).inLoop = some r := by rw [here]; rfl
  obtain ⟨sem, tickets, told⟩ := sim.settled (lone.calm (by rw [here]; rfl))
  obtain ⟨awake, found⟩ := sim.waiter inside
  have member : ⟨r.of t, awake⟩ ∈ s.waiters := List.mem_of_find?_eq_some found
  have stepped : s.step (.wake t) = some (s.settle ⟨r.of t, awake⟩ false) := by
    rw [SixSystem.step, found]
    rfl
  have ledger : Ledger .. := SixSystem.accounts reach
  have moved := SixSystem.requests_erase member
  have distinct := (moved.map Request.thread).nodup_iff.mp ledger.distinct
  rw [List.map_cons, List.nodup_cons] at distinct
  refine ⟨_, _, reach.next trivial stepped,
    sim.granted lone here sem tickets rfl told (fun q same left => ?_) (fun q other => ?_) ran⟩
  · exact distinct.1 (List.mem_map.mpr ⟨q, left, same⟩)
  · rw [moved.mem_iff, List.mem_cons]
    refine (or_iff_right ?_).symm
    rintro rfl
    exact other rfl

theorem SixMatches.tries {held : List LockMode} {mode : LockMode} (reach : SixReach (fun _ _ => True) s h)
    (sim : SixMatches s h shared pc history) (lone : Lone pc t) (here : pc t = .trying held mode)
    (ran : tryEffect held mode shared = (shared', events, next)) :
    SixStands shared' (Function.update pc t next) (history ++ events.map fun event => (t, event)) := by
  have kept : (pc t).held = held := by rw [here]; rfl
  have outside : (pc t).inLoop = none := by rw [here]; rfl
  obtain ⟨sem, tickets, told⟩ := sim.settled (lone.calm (by rw [here]; rfl))
  rcases outcome : fusionSixsemDownTrylock s.sem mode with ⟨sem', gotLock⟩
  simp only [tryEffect, ← sem, outcome] at ran
  cases ran
  have stepped : s.step (.trylock t mode) =
      some (⟨sem', s.waiters, if gotLock then s.holds ++ [⟨t, mode⟩] else s.holds, s.tickets⟩,
        [.tried t mode gotLock]) := by
    rw [SixSystem.step, if_neg (sim.idle outside)]
    simp only [outcome]
  have own (mode : LockMode) : held.count mode = s.holds.count ⟨t, mode⟩ := by
    rw [← sim.holds t mode, kept]
  refine ⟨_, _, reach.next trivial stepped,
    sim.act lone (fun mode' => ?_) (fun u other mode' => ?_) trivial (fun q same => ?_)
    (fun _ _ => Iff.rfl) rfl rfl tickets ?_ fun _ _ _ same => by cases same⟩
  · cases gotLock with
    | true =>
      simp only [SixPc.held, if_true, List.count_append, own mode']
      simp [List.count_singleton]
    | false =>
      simp only [SixPc.held, Bool.false_eq_true, if_false, own mode']
  · cases gotLock with
    | true =>
      have foreign : (⟨u, mode'⟩ : Hold τ) ∉ [⟨t, mode⟩] := by
        rw [List.mem_singleton]
        exact fun same => other (congrArg Hold.thread same)
      simp only [if_true, List.count_append, List.count_eq_zero_of_not_mem foreign, Nat.add_zero]
    | false => simp only [Bool.false_eq_true, if_false]
  · exact iff_of_false (sim.none_of_outside outside same) (SixPc.not_inLoop rfl)
  · rw [sixEvents_append, told]
    rfl

theorem SixMatches.releases {held : List LockMode} {mode : LockMode} (reach : SixReach (fun _ _ => True) s h)
    (sim : SixMatches s h shared pc history) (lone : Lone pc t) (here : pc t = .releasing held mode)
    (ran : releaseEffect held mode shared = (shared', events, next)) :
    SixStands shared' (Function.update pc t next) (history ++ events.map fun event => (t, event)) := by
  have kept : (pc t).held = held := by rw [here]; rfl
  have outside : (pc t).inLoop = none := by rw [here]; rfl
  have fair := sim.fair t
  rw [here] at fair
  obtain ⟨sem, tickets, told⟩ := sim.settled (lone.calm (by rw [here]; rfl))
  have member : (⟨t, mode⟩ : Hold τ) ∈ s.holds := sim.mem_holds.mpr (kept ▸ fair)
  simp only [releaseEffect, ← sem] at ran
  cases ran
  have stepped : s.step (.up t mode) = some (⟨fusionSixsemUp s.sem mode, fusionCondvarSignal s.waiters,
      s.holds.erase ⟨t, mode⟩, s.tickets⟩, [.released t mode]) := by
    rw [SixSystem.step, if_neg]
    rintro (busy | missing)
    · exact sim.idle outside busy
    · exact missing member
  have requests (q : Request τ) : q ∈ (fusionCondvarSignal s.waiters).map Waiter.toRequest ↔ q ∈ s.requests := by
    rw [fusionCondvarSignal_requests]
    rfl
  refine ⟨_, _, reach.next trivial stepped,
    sim.act lone (fun mode' => ?_) (fun u other mode' => ?_) trivial (fun q same => ?_)
    (fun q _ => requests q) rfl rfl tickets ?_ fun _ _ _ same => by cases same⟩
  · show (held.erase mode).count mode' = (s.holds.erase ⟨t, mode⟩).count ⟨t, mode'⟩
    rw [List.count_erase, List.count_erase, ← sim.holds t mode', kept]
    simp
  · show (s.holds.erase ⟨t, mode⟩).count ⟨u, mode'⟩ = s.holds.count ⟨u, mode'⟩
    rw [List.count_erase_of_ne]
    exact fun same => other (congrArg Hold.thread same)
  · exact iff_of_false (fun member => sim.none_of_outside outside same ((requests q).mp member)) (SixPc.not_inLoop rfl)
  · rw [sixEvents_append, told]
    rfl

theorem SixMatches.tests {held : List LockMode} {r : SixRequest} {initFlag : Bool}
    (reach : SixReach (fun _ _ => True) s h) (sim : SixMatches s h shared pc history) (lone : Lone pc t)
    (here : pc t = .testing held r initFlag)
    (ran : testEffect held r initFlag shared = (shared', events, next)) :
    SixStands shared' (Function.update pc t next) (history ++ events.map fun event => (t, event)) := by
  have fair := sim.fair t
  rw [here] at fair
  rw [testEffect] at ran
  split at ran
  · rename_i waits
    cases ran
    cases initFlag with
    | true => exact sim.sleeps reach lone here waits
    | false =>
      rw [List.map_nil, List.append_nil]
      refine ⟨s, h, reach, sim.stay ?_ nofun⟩
      rw [here]
      exact ⟨rfl, rfl, rfl, fair⟩
  · rename_i passes
    cases ran
    rw [List.map_nil, List.append_nil]
    refine ⟨s, h, reach, sim.stay ?_ fun held' r' i at' => ?_⟩
    · rw [here]
      cases initFlag with
      | true | false => exact ⟨rfl, rfl, rfl, fair⟩
    · cases at'
      exact Bool.eq_false_iff.mpr passes

theorem SixStands.act {effect : SixShared → Option (SixShared × List SixMark × SixPc)}
    (alone : Alone sixProgram (fun p => p.locked = true) pc) (stands : SixStands shared pc history)
    (op : sixProgram (pc t) = .act effect) (ran : effect shared = some (shared', events, next)) :
    SixStands shared' (Function.update pc t next) (history ++ events.map fun event => (t, event)) := by
  obtain ⟨s, h, reach, sim⟩ := stands
  have lone (locked : (pc t).locked = true) : Lone pc t := lone_of_alone alone locked (by rw [op]; exact id)
  cases here : pc t with
  | entering held oldMode asked =>
    rw [here] at op lone
    cases op
    exact sim.entering reach (lone rfl) here (Option.some.inj ran)
  | testing held r initFlag =>
    rw [here] at op lone
    cases op
    exact sim.tests reach (lone rfl) here (Option.some.inj ran)
  | granting held r initFlag =>
    rw [here] at op lone
    cases op
    cases initFlag with
    | true => exact sim.grants reach (lone rfl) here (Option.some.inj ran)
    | false => exact sim.wakes reach (lone rfl) here (Option.some.inj ran)
  | trying held mode =>
    rw [here] at op lone
    cases op
    exact sim.tries reach (lone rfl) here (Option.some.inj ran)
  | releasing held mode =>
    rw [here] at op lone
    cases op
    exact sim.releases reach (lone rfl) here (Option.some.inj ran)
  | _ =>
    rw [here] at op
    cases op

theorem SixMatches.initial :
    SixMatches (.initial : SixSystem τ) [] (fusionSixsemInit, 0) (fun _ => .idle []) [] where
  holds _ _ := rfl
  fair _ := trivial
  requests _ := iff_of_false List.not_mem_nil (SixPc.not_inLoop rfl)
  settled _ := ⟨rfl, rfl, rfl⟩
  entered _ _ pended := by cases pended
  passes _ _ _ _ here := by cases here

theorem SixMatches.prefix_events (sim : SixMatches s h shared pc history) : h <+: sixEvents history := by
  by_cases calm : ∀ u, (pc u).pending = none
  · rw [(sim.settled calm).2.2]
  · obtain ⟨u, busy⟩ := not_forall.mp calm
    obtain ⟨r, pended⟩ := Option.ne_none_iff_exists'.mp busy
    rw [(sim.entered u r pended).2.2.2]
    exact List.prefix_append _ _

end Matches

variable [DecidableEq τ]

theorem monitorReach_stands {a : State τ SixShared SixPc} {history : List (τ × SixMark)}
    (monitor : Reach sixProgram SixPc.Entry (fusionSixsemInit, 0) (.idle []) a history) :
    SixStands a.shared a.pc history := by
  refine monitor.assertion_of (A := Alone sixProgram fun p => p.locked = true)
    (fun reach => (reach.inv sixDiscipline rfl trivial).alone) ⟨_, _, .start, .initial⟩ ?_
    fun alone stands => stands.act alone
  rintro shared pc history t next _ ⟨s, h, reach, sim⟩ goes
  exact ⟨s, h, reach, sim.goes goes⟩

omit [DecidableEq τ] in
/-- A thread on the wait queue has the modes that it has in the monitor. -/
theorem Implements.held {c : Condvar τ SixShared SixPc} {a : State τ SixShared SixPc}
    (sim : Implements sixProgram c a)
    (t : τ) : (a.pc t).held = (c.pc t).held := by
  have stands := sim.thread t
  cases stage : c.stage t with
  | outside =>
    rw [stage] at stands
    rw [stands.2.1]
  | prepared =>
    rw [stage] at stands
    rw [stands.2.1]
  | released | asleep | back =>
    rw [stage] at stands
    rw [stands.1]
  | locked reason =>
    rw [stage] at stands
    obtain ⟨_, _, _, kind, next, op, same⟩ := stands
    rw [same]
    cases here : c.pc t with
    | waiting held r =>
      rw [here] at op
      cases op
      rfl
    | _ =>
      rw [here] at op
      cases op

/-- Two modes of which one was granted beside the other. -/
def Beside (a b : LockMode) : Prop := hasMode (compatMask a) b = true ∨ hasMode (compatMask b) a = true

omit [DecidableEq τ] in
theorem Books.beside {sem : Sixsem} {holds : List (Hold τ)} (books : Books sem holds) {a b : Hold τ}
    (memberA : a ∈ holds)
    (memberB : b ∈ holds) (different : a ≠ b) : Beside a.mode b.mode := by
  have symmetric : Std.Symm fun a b : Hold τ => Beside a.mode b.mode := ⟨fun _ _ => Or.symm⟩
  have pairs : holds.Pairwise fun a b => Beside a.mode b.mode := books.compatible.imp Or.inr
  exact pairs.forall memberA memberB different

/-- What the threads in `six_lock.c` stand for. -/
structure SixAgrees (s : SixSystem τ) (h : List (SixEvent τ)) (c : Condvar τ SixShared SixPc)
    (history : List (τ × SixMark)) :
    Prop where
  holds : ∀ t mode, (c.pc t).held.count mode = s.holds.count ⟨t, mode⟩
  told : h <+: sixEvents history
  free : c.owner = none → s.sem = c.shared.1 ∧ sixEvents history = h
  beside : ∀ t u, t ≠ u → ∀ a ∈ (c.pc t).held, ∀ b ∈ (c.pc u).held, Beside a b

/-- `six_lock.c` on `kcondvar.c` behaves as the system of its critical sections: in
every run of any threads, whatever is signalled and whenever a sleep is interrupted,
the threads hold the modes that a run of that system hands out, what they report is
what it reports, and whenever the spinlock is free the semaphore is the same. -/
theorem sixRun_refines {c : Condvar τ SixShared SixPc} {history : List (τ × SixMark)} (run : SixRun c history) :
    ∃ s h, SixReach (fun _ _ => True) s h ∧ SixAgrees s h c history := by
  obtain ⟨a, monitor, sim⟩ := condvarReach_refines run
  have inv := monitor.inv sixDiscipline rfl trivial
  obtain ⟨s, h, reach, stands⟩ := monitorReach_stands monitor
  have ledger : Ledger .. := SixSystem.accounts reach
  refine ⟨s, h, reach, fun t mode => ?_, stands.prefix_events, fun free => ?_,
    fun t u different m memberM n memberN => ?_⟩
  · rw [← sim.held t]
    exact stands.holds t mode
  · have calm : ∀ u, (a.pc u).pending = none := by
      intro u
      by_contra busy
      obtain ⟨r, pended⟩ := Option.ne_none_iff_exists'.mp busy
      have working : (a.pc u).locked = true ∧ ¬(sixProgram (a.pc u)).IsWait := by
        rcases SixPc.eq_of_pending pended with same | same
        · rw [same]
          exact ⟨rfl, id⟩
        · rw [same]
          exact ⟨rfl, id⟩
      have running := by_contra fun away => working.2 (inv.wait u away)
      have owner := (inv.owner u).mpr ⟨running, working.1⟩
      rw [sim.owner, free] at owner
      cases owner
    obtain ⟨sem, _, told⟩ := stands.settled calm
    exact ⟨by rw [sem, sim.shared], told⟩
  · rw [← sim.held] at memberM memberN
    exact ledger.books.beside (stands.mem_holds.mpr memberM) (stands.mem_holds.mpr memberN)
      fun same => different (congrArg Hold.thread same)

/-- A reader sleeps behind a writer that has taken the lock, and is let in when it is given back. -/
def sixActions : List (Monitor.Action Nat SixPc) :=
  .call 0 (.begin [] (.upgrade .null .x)) :: List.replicate 5 (.step 0) ++
    .call 1 (.begin [] (.upgrade .null .s)) ::
    List.replicate 6 (.step 1) ++ .call 0 (.begin [.x] (.up .x)) :: List.replicate 4 (.step 0) ++
    [.step 1, .relock 1 false, .step 1, .step 1, .step 1]

theorem sixRun_refines_reader : ∃ (c : Condvar Nat SixShared SixPc) (history : List (Nat × SixMark))
    (s : SixSystem Nat) (h : List (SixEvent Nat)), SixRun c history ∧ (c.pc 1).held = [.s] ∧ c.owner = some 1 ∧
      history.length = 5 ∧ SixReach (fun _ _ => True) s h ∧ SixAgrees s h c history := by
  have passes : (Transition.run (Condvar.step sixProgram)
      (fun c action => decide (action.Enters fun t => (c.pc t).Entry))
      (Condvar.initial (fusionSixsemInit, 0) (.idle [])) sixActions).any
        (fun r => (r.1.pc 1).held == [.s] && r.1.owner == some 1 && r.2.length == 5) = true := by decide +kernel
  obtain ⟨c, history, run, same⟩ := Transition.Reach.of_check (fun _ _ => of_decide_eq_true) _ passes
  simp only [Bool.and_eq_true, beq_iff_eq] at same
  obtain ⟨⟨held, owner⟩, told⟩ := same
  obtain ⟨s, h, reach, agrees⟩ := sixRun_refines run
  exact ⟨c, history, s, h, run, held, owner, told, reach, agrees⟩

end IomemoryVsl
