import IomemoryVsl.SpinLock

namespace IomemoryVsl

variable {τ : Type} {word : IrqWord} {on : Bool} {flags flags' : BitVec 64}

/-- The interrupts of a thread that has taken the lock in a way. -/
def SpinWay.irqs (on : Bool) : SpinWay → Bool
  | irqsave | irq => false
  | plain | irqdisabled => on

/-- What `flags` of a thread that locks or unlocks in a way is. -/
def SpinWay.Saved (word : IrqWord) (on : Bool) (flags : BitVec 64) : SpinWay → Prop
  | irqsave => flags = word.save on
  | irq => on = true
  | plain | irqdisabled => True

/-- What `flags` of the lock is while a thread has it. -/
def SpinWay.Marked (word : IrqWord) (on : Bool) (flags : BitVec 64) : SpinWay → Prop
  | plain => flags = fusionSpinlockNotIrqsaved
  | irqsave => flags = word.save on
  | irq => on = true
  | irqdisabled => True

/-- In a wait the lock is given up and taken back as the caller took it. -/
def SpinWay.Agrees (way : SpinWay) (back : Option SpinWay) : Prop :=
  ∀ caller, back = some caller → caller = way ∧ way.Marks

theorem SpinWay.agrees_none (way : SpinWay) : way.Agrees none := nofun

namespace SpinPc

/-- The interrupts of a thread, given what they are outside of all calls. -/
def irqs (on : Bool) : SpinPc → Bool
  | outside | disabling .. | sleeping .. => on
  | acquiring way _ _ _ | marking way _ _ | holding way | asking way | releasing way _ _ | enabling way _ _ =>
    way.irqs on
  | reading _ => SpinWay.irqsave.irqs on
  | failing _ => false

def Owns : SpinPc → Prop
  | marking .. | holding _ | asking _ | reading _ | releasing .. => True
  | _ => False

/-- What a thread knows of its own variables, and while it has the lock of `flags`. -/
def Knows (word : IrqWord) (on : Bool) (flags : BitVec 64) : SpinPc → Prop
  | outside => True
  | disabling way tries back =>
    (way = .irqsave ∨ (way = .irq ∧ on = true)) ∧ (tries = true → way.Marks) ∧ way.Agrees back
  | acquiring way saved tries back => way.Saved word on saved ∧ (tries = true → way.Marks) ∧ way.Agrees back
  | releasing way saved back => way.Saved word on saved ∧ way.Agrees back
  | enabling way saved back => (way = .irqsave ∨ way = .irq) ∧ way.Saved word on saved ∧ way.Agrees back
  | marking way saved back => way.Marks ∧ way.Saved word on saved ∧ way.Agrees back
  | holding way => way.Marked word on flags
  | asking way => way.Marks ∧ way.Marked word on flags
  | reading back => flags = word.save on ∧ SpinWay.irqsave.Agrees back
  | failing saved => saved = word.save on
  | sleeping way back => back = way ∧ way.Marks

/-- Another thread writes `flags` only while this one has not the lock. -/
theorem Knows.frame {pc : SpinPc} (knows : pc.Knows word on flags) (away : ¬pc.Owns) : pc.Knows word on flags' := by
  cases pc with
  | holding | asking | reading => exact absurd trivial away
  | _ => exact knows

/-- A point of a thread, with what holds there. -/
structure Sound (word : IrqWord) (on : Bool) (flags : BitVec 64) (irqs : Bool) (pc : SpinPc) : Prop where
  irqs : irqs = pc.irqs on
  knows : pc.Knows word on flags

theorem locking_sound (word : IrqWord) (on : Bool) (flags : BitVec 64) {way : SpinWay} (tries : Bool)
    {back : Option SpinWay} (needs : way = .irq → on = true)
    (marks : tries = true → way.Marks) (agrees : way.Agrees back) :
    Sound word on flags on (locking way tries back) ∧ ¬(locking way tries back).Owns := by
  cases way with
  | plain | irqdisabled => exact ⟨⟨rfl, trivial, marks, agrees⟩, id⟩
  | irqsave => exact ⟨⟨rfl, .inl rfl, marks, agrees⟩, id⟩
  | irq => exact ⟨⟨rfl, .inr ⟨rfl, needs rfl⟩, marks, agrees⟩, id⟩

theorem unlocking_sound {way : SpinWay} {back : Option SpinWay} (marked : way.Marked word on flags)
    (agrees : way.Agrees back) :
    Sound word on flags (way.irqs on) (unlocking way back) ∧ (unlocking way back).Owns := by
  cases way with
  | plain | irqdisabled => exact ⟨⟨rfl, trivial, agrees⟩, trivial⟩
  | irqsave | irq => exact ⟨⟨rfl, marked, agrees⟩, trivial⟩

theorem acquired_sound (flags : BitVec 64) {way : SpinWay} {saved : BitVec 64} {back : Option SpinWay}
    (known : way.Saved word on saved) (agrees : way.Agrees back) :
    Sound word on flags (way.irqs on) (acquired way saved back) ∧ (acquired way saved back).Owns := by
  cases way with
  | plain => exact ⟨⟨rfl, .inl rfl, known, agrees⟩, trivial⟩
  | irqsave => exact ⟨⟨rfl, .inr rfl, known, agrees⟩, trivial⟩
  | irqdisabled | irq => exact ⟨⟨rfl, known⟩, trivial⟩

theorem refused_sound (flags : BitVec 64) {way : SpinWay} {saved : BitVec 64}
    (known : way.Saved word on saved) (marks : way.Marks) :
    Sound word on flags (way.irqs on) (refused way saved) ∧ ¬(refused way saved).Owns := by
  rcases marks with rfl | rfl
  · exact ⟨⟨rfl, trivial⟩, id⟩
  · exact ⟨⟨rfl, known⟩, id⟩

theorem released_sound (word : IrqWord) (on : Bool) (flags : BitVec 64) {way : SpinWay} {back : Option SpinWay}
    (agrees : way.Agrees back) :
    Sound word on flags on (released way back) ∧ ¬(released way back).Owns := by
  cases back with
  | none => exact ⟨⟨rfl, trivial⟩, id⟩
  | some caller => exact ⟨⟨rfl, agrees caller rfl⟩, id⟩

end SpinPc

/-- While the lock is held in one of the two ways, the test tells which one it is. -/
theorem SpinWay.Marked.tells {way : SpinWay} (marked : way.Marked word on flags) (marks : way.Marks) :
    fusionSpinIsIrqsaved flags = decide (way = .irqsave) := by
  rcases marks with rfl | rfl
  · rw [show flags = fusionSpinlockNotIrqsaved from marked]
    rfl
  · rw [show flags = word.save on from marked]
    simpa [fusionSpinIsIrqsaved] using word.save_ne on

/-- One thread among others that may have the lock. -/
structure SpinStands (word : IrqWord) (base : τ → Bool) (s : SpinSystem τ) (t : τ) : Prop where
  sound : (s.pc t).Sound word (base t) s.flags (s.irqs t)
  owner : s.owner = some t ↔ (s.pc t).Owns

variable [DecidableEq τ] {base : τ → Bool} {s s' : SpinSystem τ} {t : τ} {next : SpinPc}

/-- One thread moves on. It writes `flags` only with the lock, and takes only a free one. -/
theorem SpinStands.moves (all : ∀ u, SpinStands word base s u) (pcs : s'.pc = Function.update s.pc t next)
    (others : ∀ u, u ≠ t → s'.irqs u = s.irqs u) (sound : next.Sound word (base t) s'.flags (s'.irqs t))
    (flags : s'.flags = s.flags ∨ (s.pc t).Owns)
    (owner : (s'.owner = s.owner ∧ (next.Owns ↔ (s.pc t).Owns)) ∨ (s.owner = none ∧ s'.owner = some t ∧ next.Owns) ∨
      ((s.pc t).Owns ∧ s'.owner = none ∧ ¬next.Owns)) (u : τ) : SpinStands word base s' u := by
  by_cases here : u = t
  · subst here
    refine ⟨by rwa [pcs, Function.update_self], ?_⟩
    rw [pcs, Function.update_self]
    rcases owner with ⟨same, owns⟩ | ⟨_, taken, owns⟩ | ⟨_, free, gone⟩
    · rw [same, (all u).owner, owns]
    · exact iff_of_true taken owns
    · exact iff_of_false (by simp [free]) gone
  · have old := all u
    have pc : s'.pc u = s.pc u := by rw [pcs, Function.update_of_ne here]
    have away (busy : s.owner = some t) : ¬(s.pc u).Owns := by
      intro owns
      rw [old.owner.mpr owns] at busy
      exact here (Option.some.inj busy)
    refine ⟨⟨?_, ?_⟩, ?_⟩
    · rw [pc, others u here]
      exact old.sound.irqs
    · rw [pc]
      rcases flags with same | owns
      · rw [same]
        exact old.sound.knows
      · exact old.sound.knows.frame (away ((all t).owner.mpr owns))
    · rw [pc, ← old.owner]
      rcases owner with ⟨same, _⟩ | ⟨free, taken, _⟩ | ⟨owns, free, _⟩
      · rw [same]
      · rw [free, taken]
        exact iff_of_false (fun same => here (Option.some.inj same).symm) (Option.some_ne_none u).symm
      · rw [free, (all t).owner.mpr owns]
        exact iff_of_false (Option.some_ne_none u).symm (fun same => here (Option.some.inj same).symm)

/-- A move that changes nothing but where the thread is. -/
theorem SpinStands.goto (all : ∀ u, SpinStands word base s u) (sound : next.Sound word (base t) s.flags (s.irqs t))
    (owns : next.Owns ↔ (s.pc t).Owns) : ∀ u, SpinStands word base (s.goto t next) u :=
  .moves all rfl (fun _ _ => rfl) sound (.inl rfl) (.inl ⟨rfl, owns⟩)

/-- What a caller is told is right. -/
def SpinEvent.Right : SpinEvent τ → Prop
  | .asked _ way isIrqsaved => isIrqsaved = decide (way = .irqsave)
  | .tried .. => True

theorem SpinStands.advance {events : List (SpinEvent τ)} (all : ∀ u, SpinStands word base s u)
    (ran : s.advance word t = some (s', events)) :
    (∀ u, SpinStands word base s' u) ∧ ∀ event ∈ events, event.Right := by
  obtain ⟨⟨irqs, knows⟩, owner⟩ := all t
  have others {on : Bool} : ∀ u, u ≠ t → Function.update s.irqs t on u = s.irqs u :=
    fun u other => Function.update_of_ne other ..
  unfold SpinSystem.advance at ran
  cases here : s.pc t with
  | outside | holding =>
    rw [here] at ran
    cases ran
  | disabling way tries back =>
    rw [here] at ran irqs knows owner
    cases ran
    obtain ⟨ways, marks, agrees⟩ := knows
    have on : s.irqs t = base t := irqs
    refine ⟨.moves all rfl others ⟨?_, ?_, marks, agrees⟩ (.inl rfl) (.inl ⟨rfl, by rw [here]; rfl⟩), nofun⟩
    · show Function.update s.irqs t false t = way.irqs (base t)
      rw [Function.update_self]
      rcases ways with rfl | ⟨rfl, _⟩
      · rfl
      · rfl
    · rw [on]
      rcases ways with rfl | ⟨rfl, enabled⟩
      · rfl
      · exact enabled
  | acquiring way saved tries back =>
    rw [here] at irqs knows owner
    simp only [here] at ran
    obtain ⟨known, marks, agrees⟩ := knows
    replace irqs : s.irqs t = way.irqs (base t) := irqs
    split at ran
    · rename_i free
      cases ran
      obtain ⟨sound, owns⟩ := SpinPc.acquired_sound s.flags known agrees
      rw [← irqs] at sound
      refine ⟨.moves all rfl (fun _ _ => rfl) sound (.inl rfl) (.inr (.inl ⟨free, rfl, owns⟩)),
        fun event member => ?_⟩
      cases tries with
      | true =>
        rw [List.mem_singleton.mp member]
        trivial
      | false => cases member
    · split at ran
      · rename_i tries
        cases ran
        obtain ⟨sound, away⟩ := SpinPc.refused_sound s.flags known (marks tries)
        rw [← irqs] at sound
        refine ⟨.goto all sound (iff_of_false away (by rw [here]; exact id)), fun event member => ?_⟩
        rw [List.mem_singleton.mp member]
        trivial
      · cases ran
  | marking way saved back =>
    rw [here] at ran irqs knows owner
    cases ran
    obtain ⟨marks, known, agrees⟩ := knows
    have same : back.getD way = way := by
      cases back with
      | none => rfl
      | some caller => exact (agrees caller rfl).1
    refine ⟨.moves all rfl (fun _ _ => rfl) ⟨?_, ?_⟩ (.inr (by rw [here]; trivial))
      (.inl ⟨rfl, by rw [here]; rfl⟩), nofun⟩
    · rw [same]
      exact irqs
    · rw [same]
      rcases marks with rfl | rfl
      · rfl
      · exact known
  | asking way =>
    rw [here] at ran irqs knows owner
    cases ran
    obtain ⟨marks, marked⟩ := knows
    have tells := marked.tells marks
    have same : (if fusionSpinIsIrqsaved s.flags then SpinWay.irqsave else .plain) = way := by
      rw [tells]
      rcases marks with rfl | rfl
      · rfl
      · rfl
    rw [same]
    obtain ⟨sound, owns⟩ := SpinPc.unlocking_sound marked fun caller back => ⟨(Option.some.inj back).symm, marks⟩
    replace irqs : s.irqs t = way.irqs (base t) := irqs
    rw [← irqs] at sound
    refine ⟨.goto all sound (iff_of_true owns (by rw [here]; trivial)), fun event member => ?_⟩
    rw [List.mem_singleton.mp member]
    exact tells
  | reading back =>
    rw [here] at ran irqs knows owner
    cases ran
    exact ⟨.goto all ⟨irqs, knows⟩ (by rw [here]; rfl), nofun⟩
  | releasing way saved back =>
    rw [here] at irqs knows owner
    simp only [here] at ran
    obtain ⟨known, agrees⟩ := knows
    cases ran
    replace irqs : s.irqs t = way.irqs (base t) := irqs
    by_cases masked : way = .irqsave ∨ way = .irq
    · rw [if_pos masked]
      exact ⟨.moves all rfl (fun _ _ => rfl) ⟨irqs, masked, known, agrees⟩ (.inl rfl)
        (.inr (.inr ⟨by rw [here]; trivial, rfl, id⟩)), nofun⟩
    · rw [if_neg masked]
      have on : s.irqs t = base t := by
        rw [irqs]
        cases way with
        | plain | irqdisabled => rfl
        | irqsave | irq => simp at masked
      obtain ⟨sound, away⟩ := SpinPc.released_sound word (base t) s.flags agrees
      rw [← on] at sound
      exact ⟨.moves all rfl (fun _ _ => rfl) (by rw [← on]; exact sound) (.inl rfl)
        (.inr (.inr ⟨by rw [here]; trivial, rfl, away⟩)), nofun⟩
  | enabling way saved back =>
    rw [here] at irqs knows owner
    simp only [here] at ran
    obtain ⟨masked, known, agrees⟩ := knows
    cases ran
    have on : (if way = .irqsave then word.restore saved else true) = base t := by
      rcases masked with rfl | rfl
      · rw [if_pos rfl, show saved = word.save (base t) from known, word.restore_save]
      · exact (show base t = true from known).symm
    obtain ⟨sound, away⟩ := SpinPc.released_sound word (base t) s.flags agrees
    refine ⟨.moves all rfl others ?_ (.inl rfl) (.inl ⟨rfl, iff_of_false away (by rw [here]; exact id)⟩), nofun⟩
    rw [on]
    simpa [SpinSystem.goto] using sound
  | failing saved =>
    rw [here] at ran irqs knows owner
    cases ran
    have on : word.restore saved = base t := by
      rw [show saved = word.save (base t) from knows, word.restore_save]
    refine ⟨.moves all rfl others ⟨?_, trivial⟩ (.inl rfl) (.inl ⟨rfl, by rw [here]; rfl⟩), nofun⟩
    rw [on]
    exact Function.update_self ..
  | sleeping way back =>
    rw [here] at ran irqs knows owner
    cases ran
    obtain ⟨same, marks⟩ := knows
    replace irqs : s.irqs t = base t := irqs
    obtain ⟨sound, away⟩ := SpinPc.locking_sound word (base t) s.flags false
      (fun never => by rcases marks with rfl | rfl <;> cases never) nofun
      fun caller back => ⟨(Option.some.inj back).symm.trans same, marks⟩
    rw [← irqs] at sound
    exact ⟨.goto all (by rw [← irqs]; exact sound) (iff_of_false away (by rw [here]; exact id)), nofun⟩

theorem SpinStands.step {action : SpinAction τ} {events : List (SpinEvent τ)} (all : ∀ u, SpinStands word base s u)
    (fair : action.Fair base s) (ran : s.step word action = some (s', events)) :
    (∀ u, SpinStands word base s' u) ∧ ∀ event ∈ events, event.Right := by
  cases action with
  | lock t way =>
    simp only [SpinSystem.step] at ran
    split at ran
    · rename_i here
      cases ran
      have irqs := (all t).sound.irqs
      obtain ⟨sound, away⟩ := SpinPc.locking_sound word (base t) s.flags false fair nofun way.agrees_none
      rw [here, SpinPc.irqs] at irqs
      exact ⟨.goto all (by rwa [irqs]) (iff_of_false away (by rw [here]; exact id)), nofun⟩
    · cases ran
  | trylock t way =>
    simp only [SpinSystem.step] at ran
    split at ran
    · rename_i here
      cases ran
      have irqs := (all t).sound.irqs
      have needs : way = .irq → base t = true := by
        rcases fair with rfl | rfl
        · nofun
        · nofun
      obtain ⟨sound, away⟩ := SpinPc.locking_sound word (base t) s.flags true needs (fun _ => fair) way.agrees_none
      rw [here, SpinPc.irqs] at irqs
      exact ⟨.goto all (by rwa [irqs]) (iff_of_false away (by rw [here]; exact id)), nofun⟩
    · cases ran
  | unlock t way =>
    have here : s.pc t = .holding way := fair
    simp only [SpinSystem.step, here] at ran
    cases ran
    obtain ⟨irqs, knows⟩ := (all t).sound
    rw [here] at irqs knows
    obtain ⟨sound, owns⟩ := SpinPc.unlocking_sound knows way.agrees_none
    exact ⟨.goto all (by rwa [irqs]) (iff_of_true owns (by rw [here]; trivial)), nofun⟩
  | wait t =>
    obtain ⟨irqs, knows⟩ := (all t).sound
    rcases fair with here | here
    · simp only [SpinSystem.step, here] at ran
      cases ran
      rw [here] at irqs knows
      exact ⟨.goto all ⟨irqs, .inl rfl, knows⟩ (by rw [here]; rfl), nofun⟩
    · simp only [SpinSystem.step, here] at ran
      cases ran
      rw [here] at irqs knows
      exact ⟨.goto all ⟨irqs, .inr rfl, knows⟩ (by rw [here]; rfl), nofun⟩
  | step t => exact SpinStands.advance all ran

end IomemoryVsl
