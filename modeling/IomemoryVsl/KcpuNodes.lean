import IomemoryVsl.Kcpu
import IomemoryVsl.Renumber

namespace IomemoryVsl

open Renumber

/-- All accesses are within arrays of some entries. -/
def NodeArrays.InBounds (s : NodeArrays) (size : Nat) : Prop := ∀ a ∈ s.accesses, a.2 < size

section Search

variable {s s' : NodeArrays} {array : NodeArray} {numNodes fuel size index c d : Nat}

theorem NodeArrays.mem_access {a : NodeArray × Nat} :
    a ∈ (s.access array index).accesses ↔ a ∈ s.accesses ∨ a = (array, index) := by
  rw [NodeArrays.access, List.mem_append, List.mem_singleton]

theorem NodeArrays.InBounds.access (inBounds : s.InBounds size) (inside : index < size) :
    (s.access array index).InBounds size := by
  intro a member
  rcases NodeArrays.mem_access.mp member with old | rfl
  · exact inBounds a old
  · exact inside

theorem NodeArrays.InBounds.clearHist (inBounds : s.InBounds size) : (s.clearHist size).InBounds size := by
  intro a member
  rw [NodeArrays.clearHist, List.mem_append, List.mem_map] at member
  rcases member with old | ⟨i, inside, rfl⟩
  · exact inBounds a old
  · exact List.mem_range.mp inside

theorem NodeArrays.InBounds.clearMap (inBounds : s.InBounds size) : (s.clearMap size).InBounds size := by
  intro a member
  rw [NodeArrays.clearMap, List.mem_append, List.mem_map] at member
  rcases member with old | ⟨i, inside, rfl⟩
  · exact inBounds a old
  · exact List.mem_range.mp inside

/-- The nodes that have entries in the histogram. -/
abbrev NodeArrays.Full (s : NodeArrays) (node : Nat) : Prop := s.nodeHist node ≠ 0

/-- What a search does: it goes on to the next node, and reads the histogram on its way. -/
structure Searched (numNodes : Nat) (s : NodeArrays) (c : Nat) (s' : NodeArrays) (d : Nat) : Prop where
  hist : s'.nodeHist = s.nodeHist
  map : s'.nodeMap = s.nodeMap
  advance : Advance s.Full (max numNodes 1) c d
  accesses : ∀ a, a ∈ s'.accesses ↔ a ∈ s.accesses ∨ a.1 = .nodeHist ∧ c < a.2 ∧ a.2 ≤ d

theorem nextNode_searched (run : nextNode numNodes fuel s c = some (s', d)) : Searched numNodes s c s' d := by
  induction fuel generalizing s c with
  | zero => cases run
  | succ fuel ih =>
    rw [nextNode] at run
    split at run
    · rename_i goesOn
      obtain ⟨hist, map, advance, accesses⟩ := ih run
      refine ⟨hist, map, ⟨?_, ?_, advance.stop⟩, ?_⟩
      · have := advance.lt
        omega
      · intro i low high
        rcases Nat.lt_or_ge (c + 1) i with later | next
        · exact advance.between i later high
        · have here : i = c + 1 := by omega
          refine ⟨fun isFull => isFull ?_, by omega⟩
          rw [here]
          exact goesOn.1
      · intro a
        have := advance.lt
        rw [accesses, NodeArrays.mem_access, or_assoc]
        refine or_congr_right ⟨?_, ?_⟩
        · rintro (rfl | ⟨isHist, low, high⟩)
          · exact ⟨rfl, by dsimp only; omega, by dsimp only; omega⟩
          · exact ⟨isHist, by omega, high⟩
        · rintro ⟨isHist, low, high⟩
          rcases Nat.lt_or_ge (c + 1) a.2 with later | next
          · exact Or.inr ⟨isHist, later, high⟩
          · exact Or.inl (Prod.ext isHist (by dsimp only; omega))
    · rename_i stops
      obtain ⟨rfl, rfl⟩ := Prod.ext_iff.mp (Option.some.inj run)
      refine ⟨rfl, rfl, ⟨Nat.lt_succ_self c, fun i low high => by omega, ?_⟩, ?_⟩
      · by_cases isFull : s.Full (c + 1)
        · exact Or.inl isFull
        · refine Or.inr ?_
          have past : ¬ c + 1 < numNodes := fun inside => stops ⟨not_not.mp isFull, inside⟩
          omega
      · intro a
        rw [NodeArrays.mem_access]
        refine or_congr_right ⟨?_, ?_⟩
        · rintro rfl
          exact ⟨rfl, by dsimp only; omega, Nat.le_refl _⟩
        · rintro ⟨isHist, low, high⟩
          exact Prod.ext isHist (by dsimp only; omega)

/-- A search ends within as many rounds as there are online nodes. -/
theorem nextNode_ends (enough : numNodes ≤ c + fuel) (pos : 0 < fuel) :
    ∃ s' d, nextNode numNodes fuel s c = some (s', d) := by
  induction fuel generalizing s c with
  | zero => exact absurd pos (Nat.lt_irrefl 0)
  | succ fuel ih =>
    rw [nextNode]
    split
    · rename_i goesOn
      exact ih (by omega) (by omega)
    · exact ⟨_, _, rfl⟩

end Search

namespace CpuTopology

variable {t : CpuTopology} {first s nodes : NodeArrays} {memory : CpuMapMemory} {fuel cpu c ndx i : Nat}

/-- A node that has a CPU. -/
def Populated (t : CpuTopology) (node : Nat) : Prop := ∃ cpu, cpu < t.numcpus ∧ t.cpuToNode cpu = node

instance : DecidablePred t.Populated := fun node =>
  inferInstanceAs (Decidable (∃ cpu, cpu < t.numcpus ∧ t.cpuToNode cpu = node))

theorem countCpus_succ_hist : (t.countCpus s (cpu + 1)).nodeHist = Function.update (t.countCpus s cpu).nodeHist
    (t.cpuToNode cpu) (((t.countCpus s cpu).nodeHist (t.cpuToNode cpu) + 1) % 2 ^ 32) := rfl

theorem countCpus_inBounds (inBounds : s.InBounds t.numPossibleNodes) (le : cpu ≤ t.numcpus) :
    (t.countCpus s cpu).InBounds t.numPossibleNodes := by
  induction cpu with
  | zero => exact inBounds
  | succ cpu ih => exact (ih (by omega)).access (t.node_lt cpu (by omega))

/-- The histogram counts the CPUs of a node. -/
theorem countCpus_hist (clear : s.nodeHist i = 0) (le : cpu ≤ t.numcpus) :
    (t.countCpus s cpu).nodeHist i = Nat.count (fun cpu => t.cpuToNode cpu = i) cpu := by
  induction cpu with
  | zero => rw [countCpus, clear, Nat.count_zero]
  | succ cpu ih =>
    have before := ih (by omega)
    have counted : Nat.count (fun cpu => t.cpuToNode cpu = i) cpu ≤ cpu := Nat.count_le _
    have small := t.numcpus_lt
    rw [Nat.count_succ, countCpus_succ_hist]
    by_cases here : t.cpuToNode cpu = i
    · rw [if_pos here, here, Function.update_self, before]
      exact Nat.mod_eq_of_lt (by omega)
    · rw [if_neg here, Function.update_of_ne (Ne.symm here), before, Nat.add_zero]

/-- What the loop over the nodes has done so far: the full nodes have got the places of the
searches, and the last search has come to `c`. -/
structure Mapped (t : CpuTopology) (first : NodeArrays) (ndx : Nat) (s : NodeArrays) (c : Nat) : Prop where
  hist : s.nodeHist = first.nodeHist
  reached : Reached first.Full (max t.numOnlineNodes 1) (Nat.count first.Full ndx) c
  map : ∀ i < ndx, first.Full i →
    Reached first.Full (max t.numOnlineNodes 1) (Nat.count first.Full i) (s.nodeMap i)
  within : ∀ a ∈ s.accesses, a.2 < t.numPossibleNodes ∨ a.2 ≤ c ∧ 0 < Nat.count first.Full ndx
  last : 0 < Nat.count first.Full ndx → (NodeArray.nodeHist, c) ∈ s.accesses

theorem Mapped.start (inBounds : first.InBounds t.numPossibleNodes) : t.Mapped first 0 first 0 := by
  refine ⟨rfl, ?_, fun i low => absurd low (Nat.not_lt_zero i), fun a member => Or.inl (inBounds a member), ?_⟩
  · rw [Nat.count_zero]
    exact reached_zero (by omega)
  · intro some
    rw [Nat.count_zero] at some
    omega

theorem Mapped.within_access (mapped : t.Mapped first ndx s c) (lt : ndx < t.numPossibleNodes) :
    ∀ a ∈ (s.access .nodeHist ndx).accesses,
      a.2 < t.numPossibleNodes ∨ a.2 ≤ c ∧ 0 < Nat.count first.Full ndx := by
  intro a member
  rcases NodeArrays.mem_access.mp member with old | rfl
  · exact mapped.within a old
  · exact Or.inl lt

/-- A node without CPUs is passed over. -/
theorem Mapped.empty (mapped : t.Mapped first ndx s c) (lt : ndx < t.numPossibleNodes) (empty : ¬first.Full ndx) :
    t.Mapped first (ndx + 1) (s.access .nodeHist ndx) c := by
  have count : Nat.count first.Full (ndx + 1) = Nat.count first.Full ndx := by
    rw [Nat.count_succ, if_neg empty, Nat.add_zero]
  refine ⟨mapped.hist, ?_, ?_, ?_, ?_⟩
  · rw [count]
    exact mapped.reached
  · intro i low full
    by_cases here : i = ndx
    · exact absurd (here ▸ full) empty
    · exact mapped.map i (by omega) full
  · rw [count]
    exact mapped.within_access lt
  · rw [count]
    exact fun some => NodeArrays.mem_access.mpr (Or.inl (mapped.last some))

/-- A node with CPUs gets the place that the last search came to, and the next search begins. -/
theorem Mapped.full {s' : NodeArrays} {d : Nat} (mapped : t.Mapped first ndx s c) (lt : ndx < t.numPossibleNodes)
    (full : first.Full ndx)
    (run : nextNode t.numOnlineNodes fuel ((s.access .nodeHist ndx).setMap ndx c) c = some (s', d)) :
    t.Mapped first (ndx + 1) s' d := by
  have found := nextNode_searched run
  have setHist : ((s.access .nodeHist ndx).setMap ndx c).nodeHist = first.nodeHist := mapped.hist
  have setMap : ((s.access .nodeHist ndx).setMap ndx c).nodeMap = Function.update s.nodeMap ndx c := rfl
  have same : ((s.access .nodeHist ndx).setMap ndx c).Full = first.Full :=
    funext fun i => congrArg (fun hist => hist i ≠ 0) setHist
  have advance := found.advance
  rw [same] at advance
  have forward := advance.lt
  have count : Nat.count first.Full (ndx + 1) = Nat.count first.Full ndx + 1 := by
    rw [Nat.count_succ, if_pos full]
  refine ⟨found.hist.trans setHist, ?_, ?_, ?_, ?_⟩
  · rw [count]
    exact mapped.reached.advance advance
  · intro i low filled
    rw [found.map, setMap]
    by_cases here : i = ndx
    · rw [here, Function.update_self]
      exact mapped.reached
    · rw [Function.update_of_ne here]
      exact mapped.map i (by omega) filled
  · intro a member
    rcases (found.accesses a).mp member with old | ⟨_, _, high⟩
    · rcases NodeArrays.mem_access.mp old with older | rfl
      · rcases mapped.within_access lt a older with inside | ⟨near, _⟩
        · exact Or.inl inside
        · exact Or.inr ⟨by omega, by omega⟩
      · exact Or.inl lt
    · exact Or.inr ⟨high, by omega⟩
  · exact fun _ => (found.accesses _).mpr (Or.inr ⟨rfl, forward, Nat.le_refl d⟩)

theorem mapNodes_mapped (inBounds : first.InBounds t.numPossibleNodes) (le : ndx ≤ t.numPossibleNodes)
    (run : t.mapNodes fuel first ndx = some (s, c)) : t.Mapped first ndx s c := by
  induction ndx generalizing s c with
  | zero =>
    obtain ⟨rfl, rfl⟩ := Prod.ext_iff.mp (Option.some.inj run)
    exact .start inBounds
  | succ ndx ih =>
    rw [mapNodes, Option.bind_eq_some_iff] at run
    obtain ⟨⟨s₁, c₁⟩, before, run⟩ := run
    have mapped := ih (by omega) before
    have hist : (s₁.access .nodeHist ndx).nodeHist = first.nodeHist := mapped.hist
    dsimp only at run
    rw [hist] at run
    split at run
    · rename_i full
      exact mapped.full le full run
    · rename_i empty
      obtain ⟨rfl, rfl⟩ := Prod.ext_iff.mp (Option.some.inj run)
      exact mapped.empty le empty

theorem mapNodes_ends (enough : t.numOnlineNodes < fuel) : ∃ s c, t.mapNodes fuel first ndx = some (s, c) := by
  induction ndx with
  | zero => exact ⟨_, _, rfl⟩
  | succ ndx ih =>
    obtain ⟨s, c, run⟩ := ih
    rw [mapNodes, run, Option.bind_some]
    dsimp only
    split
    · exact nextNode_ends (by omega) (by omega)
    · exact ⟨_, _, rfl⟩

/-- What the scan leaves behind: the full nodes are those that have a CPU, they have got the
places of the searches, and the last search decides about the bounds. -/
structure Scanned (t : CpuTopology) (nodes : NodeArrays) : Prop where
  full : ∀ i < t.numPossibleNodes, nodes.Full i ↔ t.Populated i
  map : ∀ i < t.numPossibleNodes, nodes.Full i →
    Reached nodes.Full (max t.numOnlineNodes 1) (Nat.count nodes.Full i) (nodes.nodeMap i)
  last : ∃ c, Reached nodes.Full (max t.numOnlineNodes 1) (Nat.count nodes.Full t.numPossibleNodes) c ∧
    (nodes.InBounds t.numPossibleNodes ↔
      Nat.count nodes.Full t.numPossibleNodes = 0 ∨ c < t.numPossibleNodes)

theorem scanNodes_scanned (run : t.scanNodes fuel memory = some nodes) : t.Scanned nodes := by
  rw [scanNodes, Option.map_eq_some_iff] at run
  obtain ⟨⟨s, c⟩, run, rfl⟩ := run
  have clear : ∀ i < t.numPossibleNodes,
      ((⟨memory.nodeHist, memory.nodeMap, []⟩ : NodeArrays).clearHist t.numPossibleNodes).nodeHist i = 0 :=
    fun i low => if_pos low
  have start : (⟨memory.nodeHist, memory.nodeMap, []⟩ : NodeArrays).InBounds t.numPossibleNodes :=
    fun a member => absurd member List.not_mem_nil
  have inBounds := (countCpus_inBounds start.clearHist (Nat.le_refl t.numcpus)).clearMap
  obtain ⟨hist, reached, map, within, last⟩ := mapNodes_mapped inBounds (Nat.le_refl _) run
  obtain ⟨nodeHist, nodeMap, accesses⟩ := s
  subst hist
  refine ⟨fun i low => ?_, map, c, reached, ?_⟩
  · have counted := countCpus_hist (clear i low) (Nat.le_refl t.numcpus)
    have some : Nat.count (fun cpu => t.cpuToNode cpu = i) t.numcpus ≠ 0 ↔ t.Populated i := Nat.count_ne_iff_exists
    exact (iff_of_eq (congrArg (· ≠ 0) counted)).trans some
  · constructor
    · intro inBounds
      exact or_iff_not_imp_left.mpr fun some => inBounds _ (last (Nat.pos_of_ne_zero some))
    · intro stops a member
      rcases within a member with inside | ⟨near, some⟩
      · exact inside
      · have := stops.resolve_left (Nat.pos_iff_ne_zero.mp some)
        omega

theorem scanNodes_ends (t : CpuTopology) (memory : CpuMapMemory) (enough : t.numOnlineNodes < fuel) :
    ∃ nodes, t.scanNodes fuel memory = some nodes := by
  obtain ⟨s, c, run⟩ := mapNodes_ends enough
  exact ⟨s, Option.map_eq_some_iff.mpr ⟨(s, c), run, rfl⟩⟩

/-- The loop over the CPUs reads the map at their nodes. -/
theorem byCluster_accesses {nodesPerCluster queuesPerCluster : Nat} (le : cpu ≤ t.numcpus) :
    (t.byCluster nodesPerCluster queuesPerCluster nodes memory cpu).nodes.InBounds t.numPossibleNodes ↔
      nodes.InBounds t.numPossibleNodes := by
  induction cpu with
  | zero => rfl
  | succ cpu ih =>
    have same : (t.byCluster nodesPerCluster queuesPerCluster nodes memory (cpu + 1)).nodes =
        (t.byCluster nodesPerCluster queuesPerCluster nodes memory cpu).nodes.access .nodeMap (t.cpuToNode cpu) := by
      rw [byCluster]
      split
      · rfl
      · rfl
    rw [same, ← ih (by omega)]
    constructor
    · exact fun inBounds a member => inBounds a (NodeArrays.mem_access.mpr (Or.inl member))
    · exact fun inBounds => inBounds.access (t.node_lt cpu le)

/-- The nodes with CPUs that do not keep a number of their own below a bound: node 0, and those
from the bound on. -/
def outerNodesFrom (t : CpuTopology) (bound : Nat) : Nat :=
  Nat.count (fun node => (node = 0 ∨ bound ≤ node) ∧ t.Populated node) t.numPossibleNodes

/-- The nodes with CPUs that are not numbered by their own numbers: node 0, and those from the
number of online nodes on. -/
def outerNodes (t : CpuTopology) : Nat := t.outerNodesFrom t.numOnlineNodes

theorem Scanned.outer_eq (scanned : t.Scanned nodes) :
    Nat.count (Outer nodes.Full (max t.numOnlineNodes 1)) t.numPossibleNodes = t.outerNodes := by
  refine count_congr fun i low => ?_
  rw [Outer, scanned.full i low]
  refine and_congr_left' ?_
  omega

theorem Scanned.inBounds_iff (scanned : t.Scanned nodes) (le : t.numOnlineNodes ≤ t.numPossibleNodes) :
    nodes.InBounds t.numPossibleNodes ↔
      t.numcpus = 0 ∨ max t.numOnlineNodes 1 + t.outerNodes ≤ t.numPossibleNodes := by
  obtain ⟨c, reached, inBounds⟩ := scanned.last
  rw [inBounds]
  rcases Nat.eq_zero_or_pos t.numcpus with none | some
  · refine iff_of_true (Or.inl (Nat.count_iff_forall_not.mpr fun i low full => ?_)) (Or.inl none)
    obtain ⟨cpu, below, _⟩ := (scanned.full i low).mp full
    omega
  · have home := t.node_lt 0 some
    have full := (scanned.full _ home).mpr ⟨0, some, rfl⟩
    have nonzero : Nat.count nodes.Full t.numPossibleNodes ≠ 0 := Nat.count_ne_iff_exists.mpr ⟨_, home, full⟩
    have place := reached.last (by omega)
    rw [scanned.outer_eq] at place
    rw [or_iff_right nonzero, or_iff_right (by omega)]
    split at place
    · omega
    · omega

/-- The accesses of a call are within bounds exactly when those of the scan are. -/
theorem kfioMapCpusToReadQueues_accesses {readQueueCount : Nat} {accesses : List (NodeArray × Nat)}
    {mapping : Option QueueMapping}
    (run : t.kfioMapCpusToReadQueues readQueueCount fuel memory = some (accesses, mapping)) :
    ∃ nodes, t.scanNodes fuel memory = some nodes ∧
      ((∀ a ∈ accesses, a.2 < t.numPossibleNodes) ↔ nodes.InBounds t.numPossibleNodes) := by
  rw [kfioMapCpusToReadQueues, Option.map_eq_some_iff] at run
  obtain ⟨nodes, scan, run⟩ := run
  refine ⟨nodes, scan, ?_⟩
  split at run
  · obtain ⟨rfl, _⟩ := Prod.ext_iff.mp run
    rfl
  · split at run
    · obtain ⟨rfl, _⟩ := Prod.ext_iff.mp run
      rfl
    · obtain ⟨rfl, _⟩ := Prod.ext_iff.mp run
      exact byCluster_accesses (Nat.le_refl t.numcpus)

/-- The search loops end, and the two arrays are accessed within their bounds exactly when they have
room for the online nodes and for the nodes that are numbered from there on. -/
theorem accesses_inBounds_iff (t : CpuTopology) (readQueueCount : Nat) (memory : CpuMapMemory)
    (le : t.numOnlineNodes ≤ t.numPossibleNodes) :
    ((∃ fuel, (t.kfioMapCpusToReadQueues readQueueCount fuel memory).isSome = true) ∧
      ∀ fuel accesses mapping, t.kfioMapCpusToReadQueues readQueueCount fuel memory = some (accesses, mapping) →
        ∀ a ∈ accesses, a.2 < t.numPossibleNodes) ↔
      t.numcpus = 0 ∨ max t.numOnlineNodes 1 + t.outerNodes ≤ t.numPossibleNodes := by
  obtain ⟨nodes, scan⟩ := scanNodes_ends t memory (Nat.lt_succ_self _)
  have ends : (t.kfioMapCpusToReadQueues readQueueCount (t.numOnlineNodes + 1) memory).isSome = true := by
    rw [kfioMapCpusToReadQueues, scan]
    rfl
  constructor
  · rintro ⟨_, always⟩
    obtain ⟨⟨accesses, mapping⟩, run⟩ := Option.isSome_iff_exists.mp ends
    obtain ⟨nodes, scan, inBounds⟩ := kfioMapCpusToReadQueues_accesses run
    exact ((scanNodes_scanned scan).inBounds_iff le).mp (inBounds.mp (always _ _ _ run))
  · refine fun room => ⟨⟨_, ends⟩, fun fuel accesses mapping run => ?_⟩
    obtain ⟨nodes, scan, inBounds⟩ := kfioMapCpusToReadQueues_accesses run
    exact inBounds.mpr (((scanNodes_scanned scan).inBounds_iff le).mpr room)

/-- One CPU in node 0, with some possible nodes. -/
def singleNode (possible : Nat) (pos : 0 < possible) : CpuTopology where
  numcpus := 1
  cpuToNode _ := 0
  cpuOnline _ := true
  numOnlineNodes := 1
  numPossibleNodes := possible
  numcpus_lt := by decide
  node_lt _ _ := pos

def emptyMemory : CpuMapMemory := ⟨fun _ => 0, fun _ => 0, fun _ => 0, fun _ => 0⟩

/-- A machine with a second node that has no CPUs. -/
theorem accesses_inBounds_two_nodes :
    (∃ fuel, ((singleNode 2 (by decide)).kfioMapCpusToReadQueues 1 fuel emptyMemory).isSome = true) ∧
      ∀ fuel accesses mapping,
        (singleNode 2 (by decide)).kfioMapCpusToReadQueues 1 fuel emptyMemory = some (accesses, mapping) →
          ∀ a ∈ accesses, a.2 < 2 :=
  (accesses_inBounds_iff (singleNode 2 (by decide)) 1 emptyMemory (by decide)).mpr (by decide)

/-- On a machine with a single node the histogram is read behind its one entry. -/
theorem accesses_out_of_bounds :
    ¬ ∀ (t : CpuTopology) (readQueueCount : Nat) (memory : CpuMapMemory), t.numOnlineNodes ≤ t.numPossibleNodes →
      (∃ fuel, (t.kfioMapCpusToReadQueues readQueueCount fuel memory).isSome = true) ∧
        ∀ fuel accesses mapping, t.kfioMapCpusToReadQueues readQueueCount fuel memory = some (accesses, mapping) →
          ∀ a ∈ accesses, a.2 < t.numPossibleNodes := by
  intro always
  have inside := (always (singleNode 1 (by decide)) 1 emptyMemory (by decide)).2 1 _ _ rfl (.nodeHist, 1) (by decide)
  exact absurd inside (by decide)

end CpuTopology

end IomemoryVsl
