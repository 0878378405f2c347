import IomemoryVsl.StateVar
import Mathlib.Data.List.TakeWhile

namespace IomemoryVsl

/-- A left shift of 1 as x86 computes it, which takes the count modulo 32. -/
def x86Shl (a : BitVec 32) : BitVec 32 := 1#32 <<< (a % 32#32)

/-- The union of `STATE_M1` over some states, as `STATE_M2` and the further ones nest it. -/
def stateMask (states : List (BitVec 32)) : BitVec 32 :=
  states.foldr (fun a mask => stateM1 x86Shl a ||| mask) 0#32

/-- The end of a table. -/
def endArc : StateArc := ⟨0#32, 0#16, stateArcNotfound⟩

/-- The arcs of a table, up to its end. -/
def tableArcs (arcs : List StateArc) : List StateArc := arcs.takeWhile fun arc => arc.arcNum != stateArcNotfound

/-- The state is one of those the arc leads from. -/
def StateArc.isFrom (arc : StateArc) (state : BitVec 32) : Bool := arc.statesFromMask.getLsbD state.toNat

section Masks

variable {a mask : BitVec 32} {states : List (BitVec 32)} {arcs : List StateArc}

theorem toNat_mod_32 (a : BitVec 32) : (a % 32#32).toNat = a.toNat % 32 := BitVec.toNat_umod

theorem stateM1_x86Shl (a : BitVec 32) : stateM1 x86Shl a = BitVec.twoPow 32 (a.toNat % 32) := by
  rw [stateM1]
  split
  · rename_i low
    have below : a.toNat < 32 := low
    rw [Nat.mod_eq_of_lt below]
    exact (BitVec.twoPow_eq 32 a.toNat).symm
  · rw [x86Shl, ← toNat_mod_32]
    exact (BitVec.twoPow_eq 32 (a % 32#32).toNat).symm

/-- The shifted bit tests the bit of the state modulo 32. -/
theorem stateM1_and_ne_zero (a mask : BitVec 32) :
    (stateM1 x86Shl a &&& mask != 0#32) = mask.getLsbD (a.toNat % 32) := by
  have nonzero : BitVec.twoPow 32 (a.toNat % 32) ≠ 0#32 := by
    intro zero
    have value := congrArg BitVec.toNat zero
    rw [BitVec.toNat_twoPow_of_lt (Nat.mod_lt _ (by decide))] at value
    exact Nat.ne_of_gt (Nat.two_pow_pos _) value
  rw [stateM1_x86Shl, BitVec.twoPow_and]
  split
  · rename_i inside
    rw [inside]
    exact bne_iff_ne.mpr nonzero
  · rename_i outside
    rw [Bool.eq_false_iff.mpr outside]
    rfl

theorem findArc_x86Shl (state : BitVec 32) (arcs : List StateArc) :
    findArc (stateM1 x86Shl state) arcs =
      (tableArcs arcs).find? fun arc => arc.isFrom (state % 32#32) := by
  rw [findArc, tableArcs]
  congr 1
  funext arc
  rw [stateM1_and_ne_zero, StateArc.isFrom, toNat_mod_32]

/-- A mask of small states has their bits. -/
theorem getLsbD_stateMask (small : ∀ a ∈ states, a < 32#32) (b : BitVec 32) :
    (stateMask states).getLsbD b.toNat = true ↔ b ∈ states := by
  induction states with
  | nil => simp [stateMask]
  | cons a states ih =>
    have below : a.toNat < 32 := small a List.mem_cons_self
    have rest := ih fun b member => small b (List.mem_cons_of_mem _ member)
    rw [stateMask, List.foldr_cons, ← stateMask, BitVec.getLsbD_or, Bool.or_eq_true, rest, stateM1_x86Shl,
      Nat.mod_eq_of_lt below, BitVec.getLsbD_twoPow, List.mem_cons, Bool.and_eq_true, decide_eq_true_eq,
      decide_eq_true_eq, BitVec.toNat_inj, eq_comm, and_iff_right below]

end Masks

section Agreement

variable {τ : Type} {s : StateVar τ} {states : List (BitVec 32)} {t : BitVec 32} {arcs : List StateArc}

/-- The table with one arc, from some states to another one. -/
def singleArc (states : List (BitVec 32)) (t : BitVec 32) : List StateArc :=
  [⟨stateMask states, t.setWidth 16, 1#16⟩, endArc]

/-- The arc makes the same transition as the call that is given the states. -/
def StateVar.ArcAgrees (s : StateVar τ) (states : List (BitVec 32)) (t : BitVec 32) : Prop :=
  (s.fioStateTransition x86Shl (singleArc states t) none).1 = (s.fioTransitionStateVa t states).1 ∧
    ((s.fioStateTransition x86Shl (singleArc states t) none).2 = 1 ↔ (s.fioTransitionStateVa t states).2.2 = 1)

/-- The first arc that leads from the current state is followed, and nothing happens without one. -/
structure StateVar.FollowsFirst (s : StateVar τ) (arcs : List StateArc) : Prop where
  fires : ∀ arc, (tableArcs arcs).find? (fun arc => arc.isFrom s.state) = some arc →
    s.fioStateTransition x86Shl arcs none =
      (if arc.stateTo = fioStateSame then s else s.fioSetStateLocked (arc.stateTo.signExtend 32), arc.arcNum.toInt)
  stays : (∀ arc ∈ tableArcs arcs, ¬ arc.isFrom s.state) →
    s.fioStateTransition x86Shl arcs none = (s, stateArcNotfound.toInt)

theorem fioStateTransition_x86Shl (s : StateVar τ) (arcs : List StateArc) :
    s.fioStateTransition x86Shl arcs none =
      match (tableArcs arcs).find? (fun arc => arc.isFrom (s.state % 32#32)) with
      | some arc =>
        (if arc.stateTo = fioStateSame then s else s.fioSetStateLocked (arc.stateTo.signExtend 32), arc.arcNum.toInt)
      | none => (s, stateArcNotfound.toInt) := by
  rw [StateVar.fioStateTransition, findArc_x86Shl]
  cases (tableArcs arcs).find? fun arc => arc.isFrom (s.state % 32#32) with
  | none => rfl
  | some arc =>
    dsimp only
    rw [ite_not]

theorem mod_32_of_lt (low : s.state < 32#32) : s.state % 32#32 = s.state := by
  refine BitVec.eq_of_toNat_eq ?_
  rw [toNat_mod_32]
  exact Nat.mod_eq_of_lt low

/-- No arc leads from a state that its mask has no bit for. -/
theorem not_isFrom (high : ¬ s.state < 32#32) (arc : StateArc) : ¬ arc.isFrom s.state = true := by
  have above : 32 ≤ s.state.toNat := Nat.not_lt.mp high
  rw [StateArc.isFrom, BitVec.getLsbD_of_ge _ _ above]
  exact Bool.false_ne_true

/-- A table works by the states of its arcs exactly when the state is small, or the state modulo 32 is not one
of them either. -/
theorem StateVar.followsFirst_iff : s.FollowsFirst arcs ↔
    s.state < 32#32 ∨ ∀ arc ∈ tableArcs arcs, ¬ arc.isFrom (s.state % 32#32) := by
  have run := fioStateTransition_x86Shl s arcs
  by_cases low : s.state < 32#32
  · rw [mod_32_of_lt low] at run
    refine iff_of_true ⟨fun arc found => ?_, fun none => ?_⟩ (Or.inl low)
    · rw [run, found]
    · rw [run, List.find?_eq_none.mpr none]
  · have nowhere : (tableArcs arcs).find? (fun arc => arc.isFrom s.state) = none :=
      List.find?_eq_none.mpr fun arc _ => not_isFrom low arc
    constructor
    · intro follows
      refine Or.inr fun arc member isFrom => ?_
      have stays := follows.stays fun arc _ => not_isFrom low arc
      have some : ((tableArcs arcs).find? fun arc => arc.isFrom (s.state % 32#32)).isSome = true :=
        List.find?_isSome.mpr ⟨arc, member, isFrom⟩
      obtain ⟨first, found⟩ := Option.isSome_iff_exists.mp some
      rw [run, found] at stays
      have mark : (first.arcNum != stateArcNotfound) = true :=
        List.mem_takeWhile_imp (p := fun arc : StateArc => arc.arcNum != stateArcNotfound)
          (List.mem_of_find?_eq_some found)
      exact bne_iff_ne.mp mark (BitVec.eq_of_toInt_eq (congrArg Prod.snd stays))
    · rintro (small | none)
      · exact absurd small low
      · refine ⟨fun arc found => ?_, fun _ => ?_⟩
        · rw [nowhere] at found
          cases found
        · rw [run, List.find?_eq_none.mpr none]

theorem tableArcs_singleArc : tableArcs (singleArc states t) = [⟨stateMask states, t.setWidth 16, 1#16⟩] := rfl

/-- The target of the arc is the state that the call is given. -/
theorem target_signExtend (small : t ≤ 31#32) :
    (t.setWidth 16).signExtend 32 = t ∧ t.setWidth 16 ≠ fioStateSame := by
  have bound : t.toNat ≤ 31 := small
  have kept : (t.setWidth 16).toNat = t.toNat := by
    rw [BitVec.toNat_setWidth]
    exact Nat.mod_eq_of_lt (by omega)
  constructor
  · refine BitVec.eq_of_toInt_eq ?_
    rw [BitVec.toInt_signExtend_of_le (by decide), BitVec.toInt_eq_toNat_of_lt (by omega),
      BitVec.toInt_eq_toNat_of_lt (by omega), kept]
  · intro same
    have value := congrArg BitVec.toNat same
    have all : fioStateSame.toNat = 65535 := rfl
    omega

/-- What the table with one arc does. -/
theorem fioStateTransition_singleArc (inside : ∀ a ∈ states, a < 32#32) (small : t ≤ 31#32) :
    s.fioStateTransition x86Shl (singleArc states t) none =
      if s.state % 32#32 ∈ states then (s.fioSetStateLocked t, 1) else (s, -1) := by
  obtain ⟨target, other⟩ := target_signExtend small
  rw [fioStateTransition_x86Shl, tableArcs_singleArc]
  split
  · rename_i arc found
    obtain ⟨isFrom, rfl⟩ : StateArc.isFrom ⟨stateMask states, t.setWidth 16, 1#16⟩ (s.state % 32#32) = true ∧
        ⟨stateMask states, t.setWidth 16, 1#16⟩ = arc := by
      simpa using found
    rw [if_pos ((getLsbD_stateMask inside _).mp isFrom), if_neg other, target]
    rfl
  · rename_i none
    have notFrom := List.find?_eq_none.mp none _ List.mem_cons_self
    rw [if_neg (mt (getLsbD_stateMask inside _).mpr notFrom)]
    rfl

/-- And the call. -/
theorem fioTransitionStateVa_of_ne_nil (nonempty : states ≠ []) :
    (s.fioTransitionStateVa t states).1 = (if s.state ∈ states then s.fioSetStateLocked t else s) ∧
      ((s.fioTransitionStateVa t states).2.2 = 1 ↔ s.state ∈ states) := by
  have length : ¬ states.length = 0 := mt List.length_eq_zero_iff.mp nonempty
  rw [StateVar.fioTransitionStateVa, if_neg length]
  by_cases member : s.state ∈ states
  · rw [if_pos (List.contains_iff_mem.mpr member), if_pos member]
    exact ⟨rfl, iff_of_true rfl member⟩
  · rw [if_neg (mt List.contains_iff_mem.mp member), if_neg member]
    exact ⟨rfl, iff_of_false (show (0 : Int) ≠ 1 by decide) member⟩

theorem StateVar.arcAgrees_iff (nonempty : states ≠ []) (inside : ∀ a ∈ states, a < 32#32) (small : t ≤ 31#32) :
    s.ArcAgrees states t ↔ s.state < 32#32 ∨ s.state % 32#32 ∉ states := by
  obtain ⟨state, result⟩ := fioTransitionStateVa_of_ne_nil (s := s) (t := t) nonempty
  rw [StateVar.ArcAgrees, fioStateTransition_singleArc inside small, state, result]
  by_cases low : s.state < 32#32
  · rw [mod_32_of_lt low]
    refine iff_of_true ?_ (Or.inl low)
    split
    · rename_i member
      exact ⟨rfl, iff_of_true rfl member⟩
    · rename_i missing
      exact ⟨rfl, iff_of_false (show (-1 : Int) ≠ 1 by decide) missing⟩
  · have missing : s.state ∉ states := fun member => low (inside _ member)
    rw [or_iff_right low, if_neg missing]
    split
    · rename_i member
      exact iff_of_false (fun agrees => missing (agrees.2.mp rfl)) (not_not_intro member)
    · rename_i outside
      exact iff_of_true ⟨rfl, iff_of_false (show (-1 : Int) ≠ 1 by decide) missing⟩ outside

/-- The two ways to make a transition from some states agree exactly where the mask of an arc has no bit for
another state than the current one, and a table goes by its first arc in the same cases. -/
theorem stateTransitions_agree_iff (s : StateVar τ) (states : List (BitVec 32)) (t : BitVec 32) (arcs : List StateArc)
    (nonempty : states ≠ []) (inside : ∀ a ∈ states, 1#32 ≤ a ∧ a ≤ 31#32) (target : 1#32 ≤ t ∧ t ≤ 31#32) :
    (s.ArcAgrees states t ↔ s.state < 32#32 ∨ s.state % 32#32 ∉ states) ∧
      (s.FollowsFirst arcs ↔ s.state < 32#32 ∨ ∀ arc ∈ tableArcs arcs, ¬ arc.isFrom (s.state % 32#32)) := by
  refine ⟨StateVar.arcAgrees_iff nonempty (fun a member => ?_) target.2, StateVar.followsFirst_iff⟩
  have bound : a.toNat ≤ 31 := (inside a member).2
  exact Nat.lt_succ_of_le bound

/-- From state 5 to 7, for the states 5 and 6. -/
theorem stateTransitions_agree_five : (StateVar.initial 5#32 : StateVar Nat).ArcAgrees [5#32, 6#32] 7#32 :=
  (stateTransitions_agree_iff (StateVar.initial 5#32 : StateVar Nat) [5#32, 6#32] 7#32 [] (by decide) (by simp)
    (by decide)).1.mpr (Or.inl (by decide))

/-- The arc from state 1 is followed from state 33. -/
theorem stateTransitions_disagree :
    ¬ ∀ (s : StateVar Nat) (states : List (BitVec 32)) (t : BitVec 32) (arcs : List StateArc), states ≠ [] →
      (∀ a ∈ states, 1#32 ≤ a ∧ a ≤ 31#32) → 1#32 ≤ t ∧ t ≤ 31#32 → s.ArcAgrees states t ∧ s.FollowsFirst arcs := by
  intro always
  have agrees := (always (.initial 33#32) [1#32] 2#32 [] (by decide) (by simp) (by decide)).1
  exact absurd (agrees.2.mp rfl) (by decide)

end Agreement

end IomemoryVsl
