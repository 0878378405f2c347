import IomemoryVsl.MakeRequest
import Mathlib.Algebra.BigOperators.Group.Multiset.Basic
import Mathlib.Data.List.Perm.Basic
import Mathlib.Tactic.Abel

namespace IomemoryVsl

open ChainHeap

/-- How far a bio has come: it waits on a list, it is part of an fbio, or the
completor has it. -/
inductive Stage where
  | waiting | gathered | ending
  deriving DecidableEq

/-- How many rounds a bio at this stage can still see. -/
def Stage.rounds : Stage → Nat
  | .waiting => 3
  | .gathered => 2
  | .ending => 1

section ListSums

variable {α M : Type*} [AddCommMonoid M] (f : α → M) {list : List α} {place : Nat} {x : α}

theorem sum_map_eraseIdx (found : list[place]? = some x) :
    (list.map f).sum = f x + ((list.eraseIdx place).map f).sum := by
  obtain ⟨below, rfl⟩ := List.getElem?_eq_some_iff.mp found
  rw [← List.sum_cons, ← List.map_cons]
  exact ((List.getElem_cons_eraseIdx_perm below).symm.map f).sum_eq

theorem sum_map_set (found : list[place]? = some x) (y : α) :
    ((list.set place y).map f).sum = f y + ((list.eraseIdx place).map f).sum := by
  obtain ⟨below, _⟩ := List.getElem?_eq_some_iff.mp found
  rw [← List.sum_cons, ← List.map_cons]
  exact ((List.set_perm_cons_eraseIdx below y).map f).sum_eq

end ListSums

variable {τ δ β : Type}

/-- The lists that the parts of the path keep. -/
def PlugEntry.segment (kplug : PlugEntry τ δ β) : Segment (δ × Stage) β :=
  ⟨(kplug.disk, .waiting), kplug.plug.bioHead, some kplug.plug.bioTail⟩

/-- The list that waits to be kicked off. -/
def waiting (disk : δ) (head : Option β) : Segment (δ × Stage) β := ⟨(disk, .waiting), head, none⟩

/-- The bios of the fbio that a kickoff has not submitted yet. -/
def opened (disk : δ) (tail : Option β) (fbio : Option (KfioBio β)) : Segment (δ × Stage) β :=
  ⟨(disk, .gathered), fbio.map KfioBio.fbioParameter, fbio.map fun _ => tail⟩

def flying (entry : δ × KfioBio β) : Segment (δ × Stage) β :=
  ⟨(entry.1, .gathered), some entry.2.fbioParameter, none⟩

def CompletorCall.segment (call : CompletorCall δ β) : Segment (δ × Stage) β :=
  ⟨(call.disk, .ending), some call.bio, none⟩

def KickoffCall.segments (call : KickoffCall δ β) : Multiset (Segment (δ × Stage) β) :=
  {opened call.disk call.tail call.fbio} + {waiting call.disk (some call.bio)}

namespace RequestState

/-- All lists of bios that the driver keeps. -/
def segments (s : RequestState τ δ β) : Multiset (Segment (δ × Stage) β) :=
  (s.plugs.map fun kplug => {kplug.segment}).sum + (s.works.map fun kplug => {kplug.segment}).sum +
    (s.kickoffs.map KickoffCall.segments).sum + (s.inFlight.map fun entry => {flying entry}).sum +
    (s.completors.map fun call => {call.segment}).sum

/-- The rounds the plugs themselves take. -/
def plugRounds (s : RequestState τ δ β) : Nat := 2 * s.plugs.length + s.works.length

end RequestState

/-- The held bios, each with its disk. -/
def byDisk (held : Multiset ((δ × Stage) × β)) : Multiset (δ × β) := held.map fun x => (x.1.1, x.2)

def rounds (held : Multiset ((δ × Stage) × β)) : Nat := (held.map fun x => x.1.2.rounds).sum

variable {disk : δ} {stage : Stage} {list : List β} {held held' : Multiset ((δ × Stage) × β)} {b : β}

@[simp] theorem byDisk_add : byDisk (held + held') = byDisk held + byDisk held' := Multiset.map_add ..

@[simp] theorem byDisk_cons : byDisk (((disk, stage), b) ::ₘ held) = (disk, b) ::ₘ byDisk held :=
  Multiset.map_cons ..

@[simp] theorem byDisk_ownedBy : byDisk (ownedBy (disk, stage) list) = ownedBy disk list := by
  rw [byDisk, ownedBy, ownedBy, Multiset.map_coe, List.map_map]
  rfl

@[simp] theorem rounds_add : rounds (held + held') = rounds held + rounds held' := by
  rw [rounds, Multiset.map_add, Multiset.sum_add]
  rfl

@[simp] theorem rounds_cons : rounds (((disk, stage), b) ::ₘ held) = stage.rounds + rounds held := by
  rw [rounds, Multiset.map_cons, Multiset.sum_cons]
  rfl

@[simp] theorem rounds_ownedBy : rounds (ownedBy (disk, stage) list) = list.length * stage.rounds := by
  induction list with
  | nil => simp [rounds]
  | cons b list ih => rw [ownedBy_cons, rounds_cons, ih, List.length_cons, Nat.succ_mul, Nat.add_comm]

theorem rounds_le : rounds held ≤ 3 * (byDisk held).card := by
  induction held using Multiset.induction_on with
  | empty => exact Nat.le_refl _
  | cons x held ih =>
    obtain ⟨⟨disk, stage⟩, b⟩ := x
    rw [rounds_cons, byDisk_cons, Multiset.card_cons]
    cases stage <;> simp only [Stage.rounds] <;> omega

namespace RequestEvent

def arrival? : RequestEvent δ β → Option (δ × β)
  | .arrived disk bio => some (disk, bio)
  | .ended .. => none

def ending? : RequestEvent δ β → Option (δ × β)
  | .arrived .. => none
  | .ended disk bio _ => some (disk, bio)

end RequestEvent

/-- The bios that have come to a disk, as often as they came. -/
def arrivals (history : List (RequestEvent δ β)) : Multiset (δ × β) := ↑(history.filterMap RequestEvent.arrival?)

/-- The bios that have been ended for a disk, as often as they were. -/
def endings (history : List (RequestEvent δ β)) : Multiset (δ × β) := ↑(history.filterMap RequestEvent.ending?)

variable {history events : List (RequestEvent δ β)} {bio : β} {error : Int}

@[simp] theorem arrivals_nil : arrivals ([] : List (RequestEvent δ β)) = 0 := rfl

@[simp] theorem endings_nil : endings ([] : List (RequestEvent δ β)) = 0 := rfl

@[simp] theorem arrivals_arrived : arrivals (.arrived disk bio :: events) = (disk, bio) ::ₘ arrivals events := rfl

@[simp] theorem endings_arrived : endings (.arrived disk bio :: events) = endings events := rfl

@[simp] theorem arrivals_ended : arrivals (.ended disk bio error :: events) = arrivals events := rfl

@[simp] theorem endings_ended : endings (.ended disk bio error :: events) = (disk, bio) ::ₘ endings events := rfl

theorem arrivals_append : arrivals (history ++ events) = arrivals history + arrivals events := by
  rw [arrivals, List.filterMap_append, ← Multiset.coe_add]
  rfl

theorem endings_append : endings (history ++ events) = endings history + endings events := by
  rw [endings, List.filterMap_append, ← Multiset.coe_add]
  rfl

section Pieces

variable {others : Multiset (Segment (δ × Stage) β)} {env : BioEnv β}
  {tail : Option β}

/-- The bios that a piece of the path completed. -/
def completedBy (disk : δ) (path : BioPath β (KfioBio β)) : Multiset (δ × β) :=
  ownedBy disk (path.completed.map Prod.fst)

theorem completedBy_nil {path : BioPath β (KfioBio β)} (none : path.completed = []) :
    completedBy disk path = 0 := by
  rw [completedBy, none]
  rfl

/-- The lists of the fbios that a piece of the path submitted. -/
def flights (disk : δ) (path : BioPath β (KfioBio β)) : Multiset (Segment (δ × Stage) β) :=
  ((path.submitted.map fun sub => (disk, sub.fbio)).map fun entry => {flying entry}).sum

/-- A bio that has been taken off its list goes into a new fbio or fails. -/
theorem kfioKickoffRemap_owns (path : BioPath β (KfioBio β)) (owns : Owns path.biNext others held)
    (fresh : ∀ k, (k, b) ∉ held) (null : path.biNext b = none) (disk : δ) (env : BioEnv β)
    (tail : Option β) :
    let k := kfioKickoffRemap (kfioOps env) path tail b
    ∃ held', Owns k.path.biNext (opened disk k.tail k.fbio ::ₘ others) held' ∧ k.path.submitted = path.submitted ∧
      completedBy disk path + ((disk, b) ::ₘ byDisk held) = completedBy disk k.path + byDisk held' ∧
      rounds held' < 3 + rounds held := by
  cases mapped : (kfioOps env).kfioMapToFbio b with
  | none =>
    rw [kfioKickoffRemap, mapped]
    refine ⟨held, owns.vacant rfl (fun _ same => by cases same), rfl, ?_, by omega⟩
    simp only [completedBy, BioPath.kfioBioComplete, List.map_append, List.map_cons, List.map_nil, ownedBy_append,
      ownedBy_cons, ownedBy_nil, ← Multiset.singleton_add]
    abel
  | some fbio =>
    have parameter : fbio.fbioParameter = b := (kfioOps env).map_parameter mapped
    have single := owns.single (k := (disk, .gathered)) fresh null (.inl rfl)
    rw [kfioKickoffRemap, mapped]
    refine ⟨((disk, .gathered), b) ::ₘ held, ?_, rfl, ?_, ?_⟩
    · rw [← parameter] at single ⊢
      exact single
    · rw [byDisk_cons]
    · rw [rounds_cons, Stage.rounds]
      omega

/-- A list that is not empty has a last node. -/
theorem Owns.last_some {κ : Type} {next : β → Option β} {k : κ} {segs : Multiset (Segment κ β)}
    {held : Multiset (κ × β)} {last : Option β} (owns : Owns next (⟨k, some b, some last⟩ ::ₘ segs) held) :
    ∃ t, last = some t := by
  obtain ⟨list, _, spans, _⟩ := owns.split
  obtain ⟨list, rfl, _⟩ := spans.1.eq_cons
  exact ⟨_, (spans.2 _ rfl).trans (List.getLast?_eq_some_getLast (by simp))⟩

variable [DecidableEq β]

/-- One round of a kickoff: the bio at its front goes into the open fbio, or that
is submitted and the bio goes into a new one, or the bio fails. -/
theorem kfioKickoffBody_owns {biNext : β → Option β} {fbio : Option (KfioBio β)}
    (owns : Owns biNext (waiting disk (some b) ::ₘ opened disk tail fbio ::ₘ others) held) (env : BioEnv β) :
    let k := kfioKickoffBody (kfioOps env) ⟨⟨biNext, [], []⟩, tail, fbio⟩ b
    ∃ held', Owns k.path.biNext (opened disk k.tail k.fbio ::ₘ waiting disk (biNext b) ::ₘ
        (flights disk k.path + others)) held' ∧
      byDisk held = completedBy disk k.path + byDisk held' ∧ rounds held' < rounds held := by
  obtain ⟨rest, rfl, fresh, tailOwns⟩ := owns.uncons
  have detached : Owns (Function.update biNext b none)
    (opened disk tail fbio ::ₘ waiting disk (biNext b) ::ₘ others)
      rest := by
    rw [Multiset.cons_swap]
    exact tailOwns.update fresh
  have null : Function.update biNext b none b = none := Function.update_self ..
  rw [byDisk_cons, rounds_cons]
  cases fbio with
  | none =>
    have alone := detached.drop rfl
    obtain ⟨held', after, submitted, balance, fewer⟩ := kfioKickoffRemap_owns
      ⟨Function.update biNext b none, [], []⟩ alone fresh null disk env tail
    rw [completedBy_nil rfl, zero_add] at balance
    refine ⟨held', ?_, balance, fewer⟩
    simp only [kfioKickoffBody, BioPath.setNext, flights, submitted, List.map_nil, List.sum_nil, zero_add]
    exact after
  | some fbio =>
    obtain ⟨t, rfl⟩ := Owns.last_some detached
    have parameter : ((kfioOps env).kfioKbioAddBio fbio b).1.fbioParameter = fbio.fbioParameter :=
      (kfioOps env).add_parameter fbio b
    by_cases joined : ((kfioOps env).kfioKbioAddBio fbio b).2 = 0
    · refine ⟨((disk, .gathered), b) ::ₘ rest, ?_, ?_, ?_⟩
      · simp only [kfioKickoffBody, joined, if_true, flights, BioPath.setNext, List.map_nil, List.sum_nil, zero_add,
          opened, Option.map_some, parameter]
        exact detached.snoc fresh null
      · simp [kfioKickoffBody, joined, completedBy, BioPath.setNext]
      · simp [Stage.rounds]
    · have flies : Owns (Function.update biNext b none)
          (flying (disk, ((kfioOps env).kfioKbioAddBio fbio b).1) ::ₘ waiting disk (biNext b) ::ₘ others) rest := by
        obtain ⟨list, held, _, rfl, handed⟩ := detached.hand (disk, Stage.gathered) (.inr rfl)
        rw [flying, parameter]
        exact handed
      let path : BioPath β (KfioBio β) := ⟨Function.update biNext b none, [], []⟩
      obtain ⟨held', after, submitted, balance, fewer⟩ := kfioKickoffRemap_owns
        (path.kfioBioSubmit ((kfioOps env).kfioKbioAddBio fbio b).1) flies fresh null disk env none
      have body : kfioKickoffBody (kfioOps env) ⟨⟨biNext, [], []⟩, some t, some fbio⟩ b = kfioKickoffRemap
          (kfioOps env) (path.kfioBioSubmit ((kfioOps env).kfioKbioAddBio fbio b).1) none b := by
        simp only [kfioKickoffBody, joined, if_false]
        rfl
      rw [completedBy_nil rfl, zero_add] at balance
      rw [body]
      refine ⟨held', ?_, balance, fewer⟩
      rw [Multiset.cons_swap (flying _)] at after
      simp only [flights, submitted]
      exact after

omit [DecidableEq β] in
/-- The last round of a kickoff also submits the open fbio. -/
theorem Kickoff.finish_owns {k : Kickoff β (KfioBio β)}
    (owns : Owns k.path.biNext (opened disk k.tail k.fbio ::ₘ (flights disk k.path + others)) held) :
    Owns k.finish.biNext (flights disk k.finish + others) held := by
  obtain ⟨path, tail, fbio⟩ := k
  cases fbio with
  | none => exact owns.drop rfl
  | some fbio =>
    obtain ⟨list, rest, _, rfl, handed⟩ := owns.hand (disk, Stage.gathered) (.inr rfl)
    have last : flights disk (path.kfioBioSubmit fbio) = flights disk path + {flying (disk, fbio)} := by
      simp [flights, BioPath.kfioBioSubmit]
    have all : flights disk (path.kfioBioSubmit fbio) + others =
        flying (disk, fbio) ::ₘ (flights disk path + others) := by
      rw [last, ← Multiset.singleton_add]
      abel
    show Owns path.biNext (flights disk (path.kfioBioSubmit fbio) + others) _
    rw [all]
    exact handed

omit [DecidableEq β] in
theorem Kickoff.finish_completed (k : Kickoff β (KfioBio β)) : k.finish.completed = k.path.completed := by
  obtain ⟨path, tail, fbio⟩ := k
  cases fbio <;> rfl

/-- A bio that is held nowhere goes onto the list of a plug, and the whole list
comes off the plug if it is to be kicked off now. -/
theorem kfioAddBioToPluggedList_owns {kplug : PlugEntry τ δ β} (path : BioPath β (KfioBio β))
    (owns : Owns path.biNext (kplug.segment ::ₘ others) held) (fresh : ∀ k, (k, b) ∉ held)
    (null : path.biNext b = none) (submitNow : β → Bool) :
    let r := kfioAddBioToPluggedList submitNow kplug.plug path b
    Owns r.2.1.biNext (PlugEntry.segment { kplug with plug := r.1 } ::ₘ waiting kplug.disk r.2.2 ::ₘ others)
        (((kplug.disk, .waiting), b) ::ₘ held) ∧
      r.2.1.submitted = path.submitted ∧ r.2.1.completed = path.completed := by
  obtain ⟨task, disk, plug⟩ := kplug
  obtain ⟨list, rest, spans, distinct, apart, remaining, rfl⟩ := owns.split
  have outside : b ∉ list := fun member => fresh (disk, .waiting) (by simp [mem_ownedBy, PlugEntry.segment, member])
  have grown : (list ++ [b]).Nodup := by
    rw [List.nodup_append]
    refine ⟨distinct, List.nodup_singleton b, ?_⟩
    rintro c member d single rfl
    rw [List.mem_singleton.mp single] at member
    exact outside member
  obtain ⟨head, path', result, chain, submitted, completed, frame⟩ :=
    kfioAddBioToPluggedList_chain submitNow spans.1 (spans.2 _ rfl) grown null
  have kept : Owns path'.biNext others rest :=
    remaining.congr fun k c member => frame c fun inside => apart c inside k member
  have disjoint : ∀ c ∈ list ++ [b], ∀ k, (k, c) ∉ rest := by
    intro c member k inside
    rcases List.mem_append.mp member with old | new
    · exact apart c old k inside
    · rw [List.mem_singleton.mp new] at inside
      exact fresh k (Multiset.mem_add.mpr (.inr inside))
  have books : ((disk, Stage.waiting), b) ::ₘ (ownedBy (disk, Stage.waiting) list + rest) =
      ownedBy (disk, .waiting) (list ++ [b]) + rest := by
    rw [ownedBy_append, ownedBy_cons, ownedBy_nil, ← Multiset.singleton_add, ← Multiset.singleton_add]
    abel
  dsimp only
  rw [result]
  cases now : submitNow b with
  | true =>
    refine ⟨Owns.vacant ?_ rfl (fun _ same => (Option.some.inj same).symm), submitted, completed⟩
    have taken : (waiting disk (some head)).Spans path'.biNext (list ++ [b]) := ⟨chain, fun _ same => by cases same⟩
    exact books ▸ Owns.add taken grown disjoint kept
  | false =>
    refine ⟨?_, submitted, completed⟩
    have listed : (PlugEntry.segment ⟨task, disk, some head, some b⟩).Spans path'.biNext (list ++ [b]) :=
      ⟨chain, fun last same => (Option.some.inj same).symm.trans List.getLast?_concat.symm⟩
    rw [Multiset.cons_swap]
    refine Owns.vacant ?_ rfl (fun _ same => by cases same)
    exact books ▸ Owns.add listed grown disjoint kept

end Pieces

end IomemoryVsl
