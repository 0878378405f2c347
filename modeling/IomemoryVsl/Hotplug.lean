import IomemoryVsl.Transition
import Mathlib.Logic.Function.Basic

namespace IomemoryVsl

/-- The two callbacks that are installed with `cpuhp_setup_state_nocalls`. -/
inductive CpuhpCallback
  | offline | online
  deriving DecidableEq, Repr

/-- The call to the hot-plug core that a thread has to make next. -/
inductive HotplugPc
  | idle | setupOffline | setupOnline | removeOnline | removeOffline
  deriving DecidableEq, Repr

/-- The globals of `khotplug.c`, the states installed in the kernel and the
threads. `queue` holds the threads with calls to make in the order in which they
left the lock; the code does not have it. -/
structure Hotplug (τ φ : Type) where
  notifyList : List φ
  hotplugInitialized : Bool
  offlineDynState : Int
  onlineDynState : Int
  installed : List (Int × CpuhpCallback)
  pc : τ → HotplugPc
  queue : List τ

inductive HotplugAction (τ φ : Type)
  /-- `kfio_register_cpu_notifier` up to the unlock. -/
  | register (t : τ) (func : φ) (malloc : Bool)
  /-- `kfio_unregister_cpu_notifier` up to the unlock. -/
  | unregister (t : τ) (func : φ)
  /-- The thread makes its next call; a setup returns `id`. -/
  | call (t : τ) (id : Int)
  deriving DecidableEq, Repr

inductive HotplugEvent
  | setUp (id : Int) (callback : CpuhpCallback)
  /-- `cpuhp_remove_state_nocalls` was called for a state that is installed or not. -/
  | removed (id : Int) (wasInstalled : Bool)
  deriving DecidableEq, Repr

namespace Hotplug

variable {τ φ : Type} [DecidableEq τ] [DecidableEq φ]

omit [DecidableEq τ] [DecidableEq φ] in
def initial : Hotplug τ φ := ⟨[], false, 0, 0, [], fun _ => .idle, []⟩

omit [DecidableEq φ] in
/-- The thread leaves the lock with calls to make. -/
def enqueue (s : Hotplug τ φ) (t : τ) (pc : HotplugPc) : Hotplug τ φ :=
  { s with pc := Function.update s.pc t pc, queue := s.queue ++ [t] }

omit [DecidableEq φ] in
/-- The thread has one more call to make. -/
def proceed (s : Hotplug τ φ) (t : τ) (pc : HotplugPc) : Hotplug τ φ := { s with pc := Function.update s.pc t pc }

omit [DecidableEq φ] in
/-- The thread has made its last call. -/
def finish (s : Hotplug τ φ) (t : τ) : Hotplug τ φ :=
  { s with pc := Function.update s.pc t .idle, queue := s.queue.erase t }

omit [DecidableEq φ] in
def kfioRegisterCpuNotifier (s : Hotplug τ φ) (t : τ) (func : φ) (malloc : Bool) : Hotplug τ φ :=
  if malloc then
    let s := { s with notifyList := s.notifyList ++ [func] }
    if s.hotplugInitialized then s else ({ s with hotplugInitialized := true } : Hotplug τ φ).enqueue t .setupOffline
  else s

def kfioUnregisterCpuNotifier (s : Hotplug τ φ) (t : τ) (func : φ) : Hotplug τ φ :=
  let s := { s with notifyList := s.notifyList.erase func }
  if s.notifyList.isEmpty then ({ s with hotplugInitialized := false } : Hotplug τ φ).enqueue t .removeOnline else s

omit [DecidableEq τ] [DecidableEq φ] in
def isInstalled (s : Hotplug τ φ) (id : Int) : Bool := s.installed.any fun state => state.1 == id

omit [DecidableEq τ] [DecidableEq φ] in
def cpuhpSetupState (s : Hotplug τ φ) (id : Int) (callback : CpuhpCallback) : Hotplug τ φ :=
  { s with installed := s.installed ++ [(id, callback)] }

omit [DecidableEq τ] [DecidableEq φ] in
def cpuhpRemoveState (s : Hotplug τ φ) (id : Int) : Hotplug τ φ :=
  { s with installed := s.installed.filter fun state => state.1 != id }

/-- One step of a thread. A setup returns the id of a state that is not in use. -/
def step (s : Hotplug τ φ) : HotplugAction τ φ → Option (Hotplug τ φ × List HotplugEvent)
  | .register t func malloc =>
    if s.pc t = .idle then some (s.kfioRegisterCpuNotifier t func malloc, []) else none
  | .unregister t func =>
    if s.pc t = .idle then some (s.kfioUnregisterCpuNotifier t func, []) else none
  | .call t id =>
    match s.pc t with
    | .idle => none
    | .setupOffline =>
      if s.isInstalled id then none
      else
        some (({ s.cpuhpSetupState id .offline with offlineDynState := id } : Hotplug τ φ).proceed t .setupOnline,
          [.setUp id .offline])
    | .setupOnline =>
      if s.isInstalled id then none
      else
        some (({ s.cpuhpSetupState id .online with onlineDynState := id } : Hotplug τ φ).finish t,
          [.setUp id .online])
    | .removeOnline =>
      some ((s.cpuhpRemoveState s.onlineDynState).proceed t .removeOffline,
        [.removed s.onlineDynState (s.isInstalled s.onlineDynState)])
    | .removeOffline =>
      some ((s.cpuhpRemoveState s.offlineDynState).finish t,
        [.removed s.offlineDynState (s.isInstalled s.offlineDynState)])

omit [DecidableEq τ] [DecidableEq φ] in
/-- An unregister names a function that is registered. -/
def Registered (s : Hotplug τ φ) : HotplugAction τ φ → Prop
  | .unregister _ func => func ∈ s.notifyList
  | _ => True

omit [DecidableEq τ] [DecidableEq φ] in
/-- Calls are made in the order in which the threads left the lock. -/
def InOrder (s : Hotplug τ φ) : HotplugAction τ φ → Prop
  | .call t _ => s.queue.head? = some t
  | _ => True

instance (s : Hotplug τ φ) : (action : HotplugAction τ φ) → Decidable (s.Registered action)
  | .unregister _ func => inferInstanceAs (Decidable (func ∈ s.notifyList))
  | .register .. | .call .. => inferInstanceAs (Decidable True)

omit [DecidableEq φ] in
instance (s : Hotplug τ φ) : (action : HotplugAction τ φ) → Decidable (s.InOrder action)
  | .call t _ => inferInstanceAs (Decidable (s.queue.head? = some t))
  | .register .. | .unregister .. => inferInstanceAs (Decidable True)

end Hotplug

variable {τ φ : Type}

/-- Runs of registrations and unregistrations whose steps all meet `allowed`. -/
abbrev HotplugReach [DecidableEq τ] [DecidableEq φ] (allowed : Hotplug τ φ → HotplugAction τ φ → Prop) :
    Hotplug τ φ → List HotplugEvent → Prop :=
  Transition.Reach Hotplug.step allowed Hotplug.initial

theorem HotplugReach.of_check [DecidableEq τ] [DecidableEq φ] {allowed : Hotplug τ φ → HotplugAction τ φ → Prop}
    (test : Hotplug τ φ → HotplugAction τ φ → Bool) (sound : ∀ s action, test s action = true → allowed s action)
    (check : Hotplug τ φ × List HotplugEvent → Bool) (actions : List (HotplugAction τ φ))
    (passes : (Transition.run Hotplug.step test Hotplug.initial actions).any check = true) :
    ∃ s history, HotplugReach allowed s history ∧ check (s, history) = true :=
  Transition.Reach.of_check sound check passes

/-- With no call in progress the installed states are those of the registration
list, and no state was removed that was not installed. -/
structure HotplugSound (s : Hotplug τ φ) (history : List HotplugEvent) : Prop where
  registered : (∀ t, s.pc t = .idle) → s.notifyList ≠ [] →
    s.installed.Perm [(s.onlineDynState, .online), (s.offlineDynState, .offline)]
  empty : (∀ t, s.pc t = .idle) → s.notifyList = [] → s.installed = []
  removed : ∀ id, .removed id false ∉ history

/-- The threads of the queue install and remove in turns, beginning with what is
due in a state in which the callbacks are up or not. -/
def Lined (pc : τ → HotplugPc) : Bool → List τ → Bool → Prop
  | up, [], final => up = final
  | up, t :: rest, final => pc t = (if up then .removeOnline else .setupOffline) ∧ Lined pc (!up) rest final

theorem Lined.congr {pc other : τ → HotplugPc} {up final : Bool} {queue : List τ} (lined : Lined pc up queue final)
    (same : ∀ t ∈ queue, other t = pc t) : Lined other up queue final := by
  induction queue generalizing up with
  | nil => exact lined
  | cons t rest ih =>
    refine ⟨(same t List.mem_cons_self).trans lined.1, ih lined.2 fun u member => ?_⟩
    exact same u (List.mem_cons_of_mem _ member)

theorem Lined.snoc {pc : τ → HotplugPc} {up final : Bool} {queue : List τ} {t : τ} (lined : Lined pc up queue final)
    (due : pc t = if final then .removeOnline else .setupOffline) : Lined pc up (queue ++ [t]) (!final) := by
  induction queue generalizing up with
  | nil =>
    cases lined
    exact ⟨due, rfl⟩
  | cons u rest ih => exact ⟨lined.1, ih lined.2⟩

/-- How far the thread in front has come. -/
inductive Front (pc : τ → HotplugPc) (offline online : Int) (final : Bool) :
    List τ → List (Int × CpuhpCallback) → Prop
  | down {queue} : Lined pc false queue final → Front pc offline online final queue []
  | up {queue} : Lined pc true queue final → offline ≠ online →
      Front pc offline online final queue [(offline, .offline), (online, .online)]
  | goingUp {t rest} : pc t = .setupOnline → Lined pc true rest final →
      Front pc offline online final (t :: rest) [(offline, .offline)]
  | goingDown {t rest} : pc t = .removeOffline → Lined pc false rest final →
      Front pc offline online final (t :: rest) [(offline, .offline)]

structure Hotplug.Inv (s : Hotplug τ φ) (history : List HotplugEvent) : Prop where
  initialized : s.hotplugInitialized = true ↔ s.notifyList ≠ []
  front : Front s.pc s.offlineDynState s.onlineDynState s.hotplugInitialized s.queue s.installed
  queued : ∀ t, t ∈ s.queue ↔ s.pc t ≠ .idle
  distinct : s.queue.Nodup
  removed : ∀ id, .removed id false ∉ history

theorem Front.congr {pc other : τ → HotplugPc} {offline online : Int} {final : Bool} {queue : List τ}
    {installed : List (Int × CpuhpCallback)} (front : Front pc offline online final queue installed)
    (same : ∀ t ∈ queue, other t = pc t) : Front other offline online final queue installed := by
  cases front with
  | down lined => exact .down (lined.congr same)
  | up lined different => exact .up (lined.congr same) different
  | goingUp here lined =>
    refine .goingUp ((same _ List.mem_cons_self).trans here) (lined.congr fun u member => ?_)
    exact same u (List.mem_cons_of_mem _ member)
  | goingDown here lined =>
    refine .goingDown ((same _ List.mem_cons_self).trans here) (lined.congr fun u member => ?_)
    exact same u (List.mem_cons_of_mem _ member)

theorem Front.snoc {pc : τ → HotplugPc} {offline online : Int} {final : Bool} {queue : List τ}
    {installed : List (Int × CpuhpCallback)} {t : τ} (front : Front pc offline online final queue installed)
    (due : pc t = if final then .removeOnline else .setupOffline) :
    Front pc offline online (!final) (queue ++ [t]) installed := by
  cases front with
  | down lined => exact .down (lined.snoc due)
  | up lined different => exact .up (lined.snoc due) different
  | goingUp here lined => exact .goingUp here (lined.snoc due)
  | goingDown here lined => exact .goingDown here (lined.snoc due)

namespace Hotplug

variable {s : Hotplug τ φ} {history : List HotplugEvent} {t : τ} {rest : List τ}

theorem Inv.sound (inv : s.Inv history) : HotplugSound s history := by
  have done (quiet : ∀ t, s.pc t = .idle) : s.queue = [] := by
    refine List.eq_nil_iff_forall_not_mem.mpr fun t member => ?_
    exact (inv.queued t).mp member (quiet t)
  have front := inv.front
  refine ⟨fun quiet some => ?_, fun quiet none => ?_, inv.removed⟩
  · rw [done quiet, inv.initialized.mpr some] at front
    generalize s.installed = installed at front ⊢
    cases front with
    | down lined => cases lined
    | up => exact List.Perm.swap ..
  · have off : s.hotplugInitialized = false := by
      rw [← Bool.not_eq_true, inv.initialized, not_not]
      exact none
    rw [done quiet, off] at front
    generalize s.installed = installed at front ⊢
    cases front with
    | down => rfl
    | up lined => cases lined

variable [DecidableEq τ]

/-- A thread whose section under the lock changes the mode lines up. -/
theorem Inv.enqueue (inv : s.Inv history) (list : List φ) (initialized : Bool) (idle : s.pc t = .idle)
    (mode : initialized = true ↔ list ≠ []) (change : initialized = !s.hotplugInitialized) :
    (({ s with notifyList := list, hotplugInitialized := initialized } : Hotplug τ φ).enqueue t
      (if s.hotplugInitialized then .removeOnline else .setupOffline)).Inv history := by
  have fresh : t ∉ s.queue := fun member => (inv.queued t).mp member idle
  have others (u : τ) (member : u ∈ s.queue) (pc : HotplugPc) : Function.update s.pc t pc u = s.pc u := by
    refine Function.update_of_ne ?_ ..
    rintro rfl
    exact fresh member
  subst change
  refine ⟨mode, ?_, ?_, ?_, inv.removed⟩
  · exact (inv.front.congr fun u member => others u member _).snoc (Function.update_self ..)
  · intro u
    simp only [Hotplug.enqueue, List.mem_append, List.mem_singleton]
    by_cases same : u = t
    · rw [same, Function.update_self]
      cases s.hotplugInitialized <;> simp
    · rw [Function.update_of_ne same, inv.queued u]
      simp [same]
  · refine List.nodup_append.mpr ⟨inv.distinct, List.pairwise_singleton _ _, fun u member v last => ?_⟩
    rw [List.mem_singleton.mp last]
    rintro rfl
    exact fresh member

omit [DecidableEq τ] in
/-- What a call has to leave behind: it does not touch the registration list. -/
theorem Inv.after {events : List HotplugEvent} {last : Hotplug τ φ} (inv : s.Inv history)
    (lists : last.notifyList = s.notifyList) (mode : last.hotplugInitialized = s.hotplugInitialized)
    (front : Front last.pc last.offlineDynState last.onlineDynState last.hotplugInitialized last.queue last.installed)
    (removed : ∀ id, .removed id false ∉ events) (queued : ∀ u, u ∈ last.queue ↔ last.pc u ≠ .idle)
    (distinct : last.queue.Nodup) : last.Inv (history ++ events) := by
  refine ⟨?_, front, queued, distinct, ?_⟩
  · rw [lists, mode]
    exact inv.initialized
  · intro id member
    rcases List.mem_append.mp member with old | new
    · exact inv.removed id old
    · exact removed id new

/-- The call of the thread in front is done, and it has another one to make. -/
theorem Inv.proceed {events : List HotplugEvent} {last : Hotplug τ φ} (inv : s.Inv history) (pc : HotplugPc)
    (busy : pc ≠ .idle) (queue : s.queue = t :: rest) (lists : last.notifyList = s.notifyList)
    (mode : last.hotplugInitialized = s.hotplugInitialized) (queues : last.queue = s.queue)
    (pcs : last.pc = Function.update s.pc t pc)
    (front : Front last.pc last.offlineDynState last.onlineDynState last.hotplugInitialized last.queue last.installed)
    (removed : ∀ id, .removed id false ∉ events) : last.Inv (history ++ events) := by
  refine inv.after lists mode front removed (fun u => ?_) ?_
  · rw [queues, pcs]
    by_cases same : u = t
    · rw [same, Function.update_self, queue]
      simp [busy]
    · rw [Function.update_of_ne same, inv.queued u]
  · rw [queues]
    exact inv.distinct

/-- The thread in front has made its last call. -/
theorem Inv.finish {events : List HotplugEvent} {last : Hotplug τ φ} (inv : s.Inv history)
    (queue : s.queue = t :: rest) (lists : last.notifyList = s.notifyList)
    (mode : last.hotplugInitialized = s.hotplugInitialized) (queues : last.queue = rest)
    (pcs : last.pc = Function.update s.pc t .idle)
    (front : Front last.pc last.offlineDynState last.onlineDynState last.hotplugInitialized last.queue last.installed)
    (removed : ∀ id, .removed id false ∉ events) : last.Inv (history ++ events) := by
  have distinct := inv.distinct
  rw [queue, List.nodup_cons] at distinct
  refine inv.after lists mode front removed (fun u => ?_) ?_
  · rw [queues, pcs]
    by_cases same : u = t
    · rw [same, Function.update_self]
      simpa using distinct.1
    · rw [Function.update_of_ne same, ← inv.queued u, queue]
      simp [same]
  · rw [queues]
    exact distinct.2

theorem Inv.call {events : List HotplugEvent} {last : Hotplug τ φ} {id : Int} [DecidableEq φ] (inv : s.Inv history)
    (first : s.queue.head? = some t) (run : s.step (.call t id) = some (last, events)) :
    last.Inv (history ++ events) := by
  obtain ⟨rest, queue⟩ : ∃ rest, s.queue = t :: rest := List.head?_eq_some_iff.mp first
  have distinct := inv.distinct
  rw [queue, List.nodup_cons] at distinct
  have others (pc : HotplugPc) (u : τ) (member : u ∈ rest) : Function.update s.pc t pc u = s.pc u := by
    refine Function.update_of_ne ?_ ..
    rintro rfl
    exact distinct.1 member
  have front := inv.front
  rw [queue] at front
  generalize states : s.installed = installed at front
  cases front with
  | down lined =>
    have here : s.pc t = .setupOffline := lined.1
    simp only [Hotplug.step, here, isInstalled, states, List.any_nil, Bool.false_eq_true, if_false] at run
    cases run
    refine inv.proceed .setupOnline (by decide) queue rfl rfl rfl rfl ?_ (by simp)
    simp only [Hotplug.proceed, cpuhpSetupState, states, queue, List.nil_append]
    exact .goingUp (Function.update_self ..) (lined.2.congr (others _))
  | up lined different =>
    have here : s.pc t = .removeOnline := lined.1
    have present : s.isInstalled s.onlineDynState = true := by simp [isInstalled, states]
    simp only [Hotplug.step, here, present] at run
    cases run
    refine inv.proceed .removeOffline (by decide) queue rfl rfl rfl rfl ?_ (by simp)
    have left : (s.cpuhpRemoveState s.onlineDynState).installed = [(s.offlineDynState, .offline)] := by
      simp [cpuhpRemoveState, states, different]
    simp only [Hotplug.proceed, left]
    simp only [cpuhpRemoveState, queue]
    exact .goingDown (Function.update_self ..) (lined.2.congr (others _))
  | goingUp here lined =>
    simp only [Hotplug.step, here] at run
    split at run
    · cases run
    rename_i free
    cases run
    have different : s.offlineDynState ≠ id := by simpa [isInstalled, states] using free
    refine inv.finish queue rfl rfl (by simp [Hotplug.finish, cpuhpSetupState, queue]) rfl ?_ (by simp)
    simp only [Hotplug.finish, cpuhpSetupState, states, queue, List.erase_cons_head, List.singleton_append]
    exact .up (lined.congr (others _)) different
  | goingDown here lined =>
    have present : s.isInstalled s.offlineDynState = true := by simp [isInstalled, states]
    simp only [Hotplug.step, here, present] at run
    cases run
    refine inv.finish queue rfl rfl (by simp [Hotplug.finish, cpuhpRemoveState, queue]) rfl ?_ (by simp)
    have left : (s.cpuhpRemoveState s.offlineDynState).installed = [] := by
      simp [cpuhpRemoveState, states]
    simp only [Hotplug.finish, left]
    simp only [cpuhpRemoveState, queue, List.erase_cons_head]
    exact .down (lined.congr (others _))

theorem Inv.register (inv : s.Inv history) (idle : s.pc t = .idle) (func : φ) (malloc : Bool) :
    (s.kfioRegisterCpuNotifier t func malloc).Inv history := by
  unfold kfioRegisterCpuNotifier
  split
  · dsimp only
    split
    · rename_i on
      refine ⟨?_, inv.front, inv.queued, inv.distinct, inv.removed⟩
      simp [on]
    · rename_i off
      have added := inv.enqueue (s.notifyList ++ [func]) true idle (by simp) (by simp [off])
      rw [if_neg off] at added
      exact added
  · exact inv

theorem Inv.unregister [DecidableEq φ] {func : φ} (inv : s.Inv history) (idle : s.pc t = .idle)
    (member : func ∈ s.notifyList) : (s.kfioUnregisterCpuNotifier t func).Inv history := by
  have on : s.hotplugInitialized = true := inv.initialized.mpr (List.ne_nil_of_mem member)
  unfold kfioUnregisterCpuNotifier
  dsimp only
  split
  · rename_i none
    have removed := inv.enqueue (s.notifyList.erase func) false idle
      (by simp [List.isEmpty_iff.mp none]) (by simp [on])
    rw [if_pos on] at removed
    exact removed
  · rename_i some
    refine ⟨?_, inv.front, inv.queued, inv.distinct, inv.removed⟩
    rw [List.isEmpty_iff] at some
    simp [on, some]

end Hotplug

/-- The installed states match the registration list as long as the threads make
their calls in the order in which they left the lock. -/
theorem kfioCpuNotifier_sound [DecidableEq τ] [DecidableEq φ] {s : Hotplug τ φ} {history : List HotplugEvent}
    (reach : HotplugReach (fun s action => s.Registered action ∧ s.InOrder action) s history) :
    HotplugSound s history := by
  suffices inv : s.Inv history from inv.sound
  refine reach.invariant Hotplug.Inv ?_ ?_
  · refine ⟨by simp [Hotplug.initial], .down rfl, ?_, List.nodup_nil, ?_⟩
    · simp [Hotplug.initial]
    · simp
  · intro s last action history events _ inv allowed run
    cases action with
    | register t func malloc =>
      simp only [Hotplug.step] at run
      split at run
      · rename_i idle
        cases run
        rw [List.append_nil]
        exact inv.register idle func malloc
      · cases run
    | unregister t func =>
      simp only [Hotplug.step] at run
      split at run
      · rename_i idle
        cases run
        rw [List.append_nil]
        exact inv.unregister idle allowed.1
      · cases run
    | call t id => exact inv.call allowed.2 run

/-- The notifier is removed and another one registered, the removals first. -/
theorem kfioCpuNotifier_sound_twice : ∃ (s : Hotplug Bool Nat) (history : List HotplugEvent),
    HotplugReach (fun s action => s.Registered action ∧ s.InOrder action) s history ∧
      s.notifyList = [8] ∧ s.installed = [(1, .offline), (2, .online)] ∧ HotplugSound s history := by
  obtain ⟨s, history, reach, checked⟩ := HotplugReach.of_check
    (fun (s : Hotplug Bool Nat) action => decide (s.Registered action ∧ s.InOrder action))
    (fun _ _ => of_decide_eq_true)
    (fun last => decide (last.1.notifyList = [8] ∧ last.1.installed = [(1, .offline), (2, .online)]))
    [.register true 7 true, .call true 1, .call true 2, .unregister false 7, .register true 8 true,
      .call false 0, .call false 0, .call true 1, .call true 2]
    (by decide +kernel)
  have facts := of_decide_eq_true checked
  exact ⟨s, history, reach, facts.1, facts.2, kfioCpuNotifier_sound reach⟩

/-- A last unregister and the next first register overlap: the new states overwrite
the ids before the old states are removed, so the new ones are. -/
theorem kfioCpuNotifier_overwritten : ∃ (s : Hotplug Bool Nat) (history : List HotplugEvent),
    HotplugReach Hotplug.Registered s history ∧ (∀ t, s.pc t = .idle) ∧ s.notifyList = [8] ∧
      s.installed = [(1, .offline), (2, .online)] ∧ s.offlineDynState = 3 ∧ s.onlineDynState = 4 ∧
      ¬HotplugSound s history := by
  obtain ⟨s, history, reach, checked⟩ := HotplugReach.of_check
    (fun (s : Hotplug Bool Nat) action => decide (s.Registered action)) (fun _ _ => of_decide_eq_true)
    (fun last => decide (last.1.pc true = .idle ∧ last.1.pc false = .idle ∧ last.1.notifyList = [8] ∧
      last.1.installed = [(1, .offline), (2, .online)] ∧ last.1.offlineDynState = 3 ∧ last.1.onlineDynState = 4))
    [.register true 7 true, .call true 1, .call true 2, .unregister false 7, .register true 8 true,
      .call true 3, .call true 4, .call false 0, .call false 0]
    (by decide +kernel)
  obtain ⟨first, second, list, installed, offline, online⟩ := of_decide_eq_true checked
  have quiet (t : Bool) : s.pc t = .idle := by
    cases t
    · exact second
    · exact first
  refine ⟨s, history, reach, quiet, list, installed, offline, online, fun sound => ?_⟩
  have states := sound.registered quiet (by rw [show s.notifyList = _ from list]; simp)
  rw [show s.installed = _ from installed, show s.offlineDynState = _ from offline,
    show s.onlineDynState = _ from online] at states
  exact absurd (states.mem_iff.mp List.mem_cons_self) (by decide)

end IomemoryVsl
