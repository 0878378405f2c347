import IomemoryVsl.KcpuNodes
import Mathlib.Algebra.Order.Floor.Div
import Mathlib.Algebra.Order.Ring.Nat

namespace IomemoryVsl

open Renumber

section Groups

variable {numNodes readQueueCount fuel p q nodesPerCluster clusterCount : Nat}

/-- The loop takes the fewest nodes to a cluster that leave a queue for each cluster. -/
theorem groupNodes_fewest (run : groupNodes numNodes readQueueCount fuel p (numNodes ⌈/⌉ p) =
    some (nodesPerCluster, clusterCount)) (fewer : ∀ q, 0 < q → q < p → readQueueCount < numNodes ⌈/⌉ q) :
    clusterCount = numNodes ⌈/⌉ nodesPerCluster ∧ clusterCount ≤ readQueueCount ∧ p ≤ nodesPerCluster ∧
      ∀ q, 0 < q → q < nodesPerCluster → readQueueCount < numNodes ⌈/⌉ q := by
  induction fuel generalizing p with
  | zero => cases run
  | succ fuel ih =>
    rw [groupNodes] at run
    split at run
    · rename_i many
      obtain ⟨count, enough, le, least⟩ := ih run fun q pos below => by
        rcases Nat.lt_or_ge q p with before | here
        · exact fewer q pos before
        · have same : q = p := by omega
          rwa [same]
      exact ⟨count, enough, by omega, least⟩
    · rename_i enough
      obtain ⟨rfl, rfl⟩ := Prod.ext_iff.mp (Option.some.inj run)
      exact ⟨rfl, Nat.not_lt.mp enough, Nat.le_refl p, fewer⟩

theorem groupNodes_ends (pos : 0 < readQueueCount) (posP : 0 < p) (enough : numNodes < p + fuel) (nonzero : 0 < fuel) :
    ∃ shape, groupNodes numNodes readQueueCount fuel p (numNodes ⌈/⌉ p) = some shape := by
  induction fuel generalizing p with
  | zero => exact absurd nonzero (Nat.lt_irrefl 0)
  | succ fuel ih =>
    rw [groupNodes]
    split
    · rename_i many
      refine ih (Nat.succ_pos p) (by omega) ?_
      by_contra last
      have single : numNodes ⌈/⌉ p ≤ 1 := (ceilDiv_le_iff_le_mul posP).mpr (by omega)
      omega
    · exact ⟨_, rfl⟩

end Groups

namespace CpuTopology

variable {t : CpuTopology} {nodes : NodeArrays} {memory : CpuMapMemory} {fuel cpu readQueueCount : Nat}

/-- The online CPUs among the first ones. -/
def onlineBefore (t : CpuTopology) (cpu : Nat) : Nat := Nat.count (fun cpu => t.cpuOnline cpu = true) cpu

theorem numOnlineCpus_le (t : CpuTopology) : t.numOnlineCpus ≤ t.numcpus := Nat.count_le _

/-- With fewer queues than online CPUs, the numbers of queues do not wrap in 16 clusters. -/
theorem lt_of_scarce {queues : Nat} (scarce : readQueueCount < t.numOnlineCpus) (le : queues ≤ readQueueCount) :
    queues < 2 ^ 28 := by
  have atMost := t.numOnlineCpus_le
  have small := t.numcpus_lt
  omega

/-- With a queue for each CPU, a CPU gets the queue whose number is that of the online CPUs
before it. -/
theorem onePerCpu_spec (t : CpuTopology) (readQueueCount : Nat) (memory : CpuMapMemory) (cpu : Nat) :
    (t.onePerCpu readQueueCount memory cpu).ix = t.onlineBefore cpu % readQueueCount ∧
    (t.onePerCpu readQueueCount memory cpu).queuesUsed = t.onlineBefore cpu ∧
    ∀ c < cpu, (t.onePerCpu readQueueCount memory cpu).cpuToReadQueue c = t.onlineBefore c % readQueueCount := by
  induction cpu with
  | zero => exact ⟨(Nat.zero_mod readQueueCount).symm, rfl, fun c low => absurd low (Nat.not_lt_zero c)⟩
  | succ cpu ih =>
    obtain ⟨ix, used, map⟩ := ih
    have mapped : ∀ c < cpu + 1, Function.update (t.onePerCpu readQueueCount memory cpu).cpuToReadQueue cpu
        (t.onePerCpu readQueueCount memory cpu).ix c = t.onlineBefore c % readQueueCount := by
      intro c low
      by_cases here : c = cpu
      · rw [here, Function.update_self, ix]
      · rw [Function.update_of_ne here]
        exact map c (by omega)
    have count : t.onlineBefore (cpu + 1) = t.onlineBefore cpu + if t.cpuOnline cpu = true then 1 else 0 :=
      Nat.count_succ ..
    rw [onePerCpu, count]
    by_cases online : t.cpuOnline cpu = true
    · rw [if_pos online, if_pos online]
      refine ⟨?_, ?_, mapped⟩
      · dsimp only
        rw [ix, Nat.mod_add_mod]
      · dsimp only
        rw [used]
    · rw [if_neg online, if_neg online]
      exact ⟨ix, used, mapped⟩

/-- With a queue for each CPU and at least one online CPU, each CPU has a queue that is in use
exactly when there are no more queues or the last CPU is online. -/
theorem onePerCpu_lt_iff (enough : t.numOnlineCpus ≤ readQueueCount) (some : 0 < t.numOnlineCpus) :
    (∀ c < t.numcpus, t.onlineBefore c % readQueueCount < t.numOnlineCpus) ↔
      readQueueCount = t.numOnlineCpus ∨ t.cpuOnline (t.numcpus - 1) = true := by
  have total : t.numOnlineCpus = t.onlineBefore t.numcpus := rfl
  have cpus : t.numcpus = t.numcpus - 1 + 1 := by
    have atMost := t.numOnlineCpus_le
    omega
  have count : t.onlineBefore (t.numcpus - 1 + 1) =
      t.onlineBefore (t.numcpus - 1) + if t.cpuOnline (t.numcpus - 1) = true then 1 else 0 := Nat.count_succ ..
  constructor
  · intro inUse
    by_contra neither
    obtain ⟨more, offline⟩ := not_or.mp neither
    have last := inUse (t.numcpus - 1) (by omega)
    rw [if_neg offline, ← cpus] at count
    rw [Nat.mod_eq_of_lt (by omega)] at last
    omega
  · rintro (same | online) c low
    · rw [same]
      exact Nat.mod_lt _ some
    · have before : t.onlineBefore c ≤ t.onlineBefore (t.numcpus - 1) := Nat.count_monotone _ (by omega)
      rw [if_pos online, ← cpus] at count
      exact (Nat.mod_le _ _).trans_lt (by omega)

/-- The nodes to a cluster, the number of clusters and the queues to a cluster. -/
structure ClusterShape (t : CpuTopology) (readQueueCount nodesPerCluster clusterCount queuesPerCluster : Nat) : Prop where
  nodes : nodesPerCluster = t.numOnlineNodes ⌈/⌉ readQueueCount
  clusters : clusterCount = t.numOnlineNodes ⌈/⌉ nodesPerCluster
  nodes_pos : 0 < nodesPerCluster
  queues_pos : 0 < queuesPerCluster
  fits : clusterCount * queuesPerCluster ≤ readQueueCount

theorem shapeClusters_shape {nodesPerCluster clusterCount queuesPerCluster : Nat} (pos : 0 < readQueueCount)
    (run : t.shapeClusters readQueueCount fuel = some (nodesPerCluster, clusterCount, queuesPerCluster)) :
    t.ClusterShape readQueueCount nodesPerCluster clusterCount queuesPerCluster := by
  rw [shapeClusters] at run
  split at run
  · rename_i scarce
    obtain ⟨⟨p, count⟩, run, same⟩ := Option.map_eq_some_iff.mp run
    obtain ⟨rfl, rest⟩ := Prod.ext_iff.mp same
    obtain ⟨rfl, rfl⟩ := Prod.ext_iff.mp rest
    have start : t.numOnlineNodes ⌈/⌉ 1 = t.numOnlineNodes := ceilDiv_one _
    have fewest : groupNodes t.numOnlineNodes readQueueCount fuel 1 (t.numOnlineNodes ⌈/⌉ 1) = some (p, count) := by
      rwa [start]
    obtain ⟨clusters, enough, posP, least⟩ := groupNodes_fewest fewest fun q posQ below => by omega
    dsimp only
    rw [clusters] at enough
    have holds := (ceilDiv_le_iff_le_mul posP).mp enough
    refine ⟨Nat.le_antisymm ?_ ?_, clusters, posP, Nat.one_pos, ?_⟩
    · by_contra fewer
      have whole := (ceilDiv_le_iff_le_mul pos).mp (Nat.le_refl (t.numOnlineNodes ⌈/⌉ readQueueCount))
      have posQ : 0 < t.numOnlineNodes ⌈/⌉ readQueueCount := by
        by_contra zero
        rw [Nat.eq_zero_of_not_pos zero] at whole
        omega
      have several := least _ posQ (by omega)
      rw [Nat.mul_comm] at whole
      have under := (ceilDiv_le_iff_le_mul posQ).mpr whole
      omega
    · rw [Nat.mul_comm] at holds
      exact (ceilDiv_le_iff_le_mul pos).mpr holds
    · omega
  · rename_i enough
    split at run
    · cases run
    · rename_i some
      obtain ⟨rfl, rest⟩ := Prod.ext_iff.mp (Option.some.inj run)
      obtain ⟨rfl, rfl⟩ := Prod.ext_iff.mp rest
      refine ⟨?_, (ceilDiv_one _).symm, Nat.one_pos, Nat.div_pos (by omega) (by omega), Nat.mul_div_le _ _⟩
      refine Nat.le_antisymm ?_ ((ceilDiv_le_iff_le_mul pos).mpr (by omega))
      by_contra zero
      have whole := (ceilDiv_le_iff_le_mul pos).mp (Nat.le_refl (t.numOnlineNodes ⌈/⌉ readQueueCount))
      have none : t.numOnlineNodes ⌈/⌉ readQueueCount = 0 := by omega
      rw [none] at whole
      omega

theorem shapeClusters_ends (pos : 0 < readQueueCount) (some : 0 < t.numOnlineNodes) (enough : t.numOnlineNodes < fuel) :
    ∃ shape, t.shapeClusters readQueueCount fuel = Option.some shape := by
  rw [shapeClusters]
  split
  · have start : t.numOnlineNodes ⌈/⌉ 1 = t.numOnlineNodes := ceilDiv_one _
    obtain ⟨shape, run⟩ : ∃ shape, groupNodes t.numOnlineNodes readQueueCount fuel 1 (t.numOnlineNodes ⌈/⌉ 1) =
        Option.some shape := groupNodes_ends pos Nat.one_pos (by omega) (by omega)
    rw [start] at run
    exact ⟨_, Option.map_eq_some_iff.mpr ⟨shape, run, rfl⟩⟩
  · rw [if_neg (by omega)]
    exact ⟨_, rfl⟩

/-- The numbers of the nodes stay below a limit exactly when no more than one of the nodes that
do not keep their own number has to go elsewhere than to the places behind the online nodes. -/
theorem Scanned.map_lt_iff {limit : Nat} (scanned : t.Scanned nodes) (pos : 0 < t.numOnlineNodes)
    (le : t.numOnlineNodes ≤ t.numPossibleNodes) (some : 0 < t.numcpus) (room : 0 < limit) :
    (∀ cpu < t.numcpus, nodes.nodeMap (t.cpuToNode cpu) < limit) ↔
      t.outerNodesFrom (min limit t.numOnlineNodes) ≤ 1 + (limit - t.numOnlineNodes) := by
  have outer : Nat.count (Outer nodes.Full (min limit t.numOnlineNodes)) t.numPossibleNodes =
      t.outerNodesFrom (min limit t.numOnlineNodes) :=
    count_congr fun i low => and_congr_right' (scanned.full i low)
  have total : Nat.count nodes.Full t.numPossibleNodes = _ :=
    count_eq_inner_add_outer (m := min limit t.numOnlineNodes)
  rw [count_inner_of_le ((Nat.min_le_right ..).trans le), outer] at total
  have reached : ∀ i < t.numPossibleNodes, nodes.Full i →
      Reached nodes.Full t.numOnlineNodes (Nat.count nodes.Full i) (nodes.nodeMap i) := by
    intro i low full
    have place := scanned.map i low full
    rwa [Nat.max_eq_left pos] at place
  have home := t.node_lt 0 some
  have first := (scanned.full _ home).mpr ⟨0, some, rfl⟩
  have nonzero := Nat.pos_of_ne_zero (Nat.count_ne_iff_exists.mpr ⟨_, home, first⟩)
  constructor
  · intro below
    obtain ⟨i, low, full, last⟩ := exists_last nonzero
    obtain ⟨cpu, inside, node⟩ := (scanned.full i low).mp full
    have few := ((reached i low full).lt_limit_iff room).mp (node ▸ below cpu inside)
    omega
  · intro fits cpu inside
    have low := t.node_lt cpu inside
    have full := (scanned.full _ low).mpr ⟨cpu, inside, rfl⟩
    have before : Nat.count nodes.Full (t.cpuToNode cpu) < Nat.count nodes.Full t.numPossibleNodes :=
      Nat.count_strict_mono full low
    exact ((reached _ low full).lt_limit_iff room).mpr (by omega)

section Clusters

variable {nodesPerCluster queuesPerCluster c : Nat}

/-- The cluster of a CPU's node. -/
def clusterOf (t : CpuTopology) (nodes : NodeArrays) (nodesPerCluster cpu : Nat) : Nat :=
  nodes.nodeMap (t.cpuToNode cpu) / nodesPerCluster

theorem byCluster_nodeMap :
    (t.byCluster nodesPerCluster queuesPerCluster nodes memory cpu).nodes.nodeMap = nodes.nodeMap := by
  induction cpu with
  | zero => rfl
  | succ cpu ih =>
    rw [byCluster]
    split
    · exact ih
    · exact ih

theorem byCluster_succ_queue :
    (t.byCluster nodesPerCluster queuesPerCluster nodes memory (cpu + 1)).cpuToReadQueue =
      Function.update (t.byCluster nodesPerCluster queuesPerCluster nodes memory cpu).cpuToReadQueue cpu
        ((t.clusterOf nodes nodesPerCluster cpu * queuesPerCluster +
          (t.byCluster nodesPerCluster queuesPerCluster nodes memory cpu).cpusInCluster
            (t.clusterOf nodes nodesPerCluster cpu) % queuesPerCluster) % 2 ^ 32) := by
  rw [byCluster, NodeArrays.access, byCluster_nodeMap, ← clusterOf]
  split
  · rfl
  · rfl

/-- The array on the stack is left exactly when a CPU comes to a cluster that it has no
place for. -/
theorem byCluster_faulted_iff :
    (t.byCluster nodesPerCluster queuesPerCluster nodes memory cpu).faulted = false ↔
      ∀ c < cpu, t.clusterOf nodes nodesPerCluster c < iodriveMaxCompQueues := by
  induction cpu with
  | zero => exact iff_of_true rfl fun c low => absurd low (Nat.not_lt_zero c)
  | succ cpu ih =>
    have next : (t.byCluster nodesPerCluster queuesPerCluster nodes memory (cpu + 1)).faulted =
        ((t.byCluster nodesPerCluster queuesPerCluster nodes memory cpu).faulted ||
          decide (iodriveMaxCompQueues ≤ t.clusterOf nodes nodesPerCluster cpu)) := by
      rw [byCluster, NodeArrays.access, byCluster_nodeMap, ← clusterOf]
      split
      · rfl
      · rfl
    rw [next, Bool.or_eq_false_iff, ih, decide_eq_false_iff_not, Nat.not_le, Nat.forall_lt_succ_right]

/-- With clusters, a CPU gets a queue of the cluster of its node, by the number of online CPUs
that the cluster has got before. The number of the queue does not wrap as long as the array has
a place for the cluster. -/
theorem byCluster_queue (pos : 0 < queuesPerCluster) (few : queuesPerCluster < 2 ^ 28) (low : c < cpu)
    (inside : t.clusterOf nodes nodesPerCluster c < iodriveMaxCompQueues) :
    (t.byCluster nodesPerCluster queuesPerCluster nodes memory cpu).cpuToReadQueue c =
      t.clusterOf nodes nodesPerCluster c * queuesPerCluster +
        (t.byCluster nodesPerCluster queuesPerCluster nodes memory c).cpusInCluster
          (t.clusterOf nodes nodesPerCluster c) % queuesPerCluster := by
  induction cpu with
  | zero => exact absurd low (Nat.not_lt_zero c)
  | succ cpu ih =>
    rw [byCluster_succ_queue]
    by_cases here : c = cpu
    · rw [← here, Function.update_self]
      refine Nat.mod_eq_of_lt ?_
      have turn := Nat.mod_lt ((t.byCluster nodesPerCluster queuesPerCluster nodes memory c).cpusInCluster
        (t.clusterOf nodes nodesPerCluster c)) pos
      have whole : (t.clusterOf nodes nodesPerCluster c + 1) * queuesPerCluster ≤ 16 * queuesPerCluster :=
        Nat.mul_le_mul_right _ inside
      rw [Nat.add_mul, Nat.one_mul] at whole
      omega
    · rw [Function.update_of_ne here]
      exact ih (by omega)

end Clusters

/-- A queue of a cluster is in use exactly when the cluster is one of those there are. -/
theorem queue_lt_iff {cluster clusterCount queuesPerCluster x : Nat} (pos : 0 < queuesPerCluster) :
    cluster * queuesPerCluster + x % queuesPerCluster < clusterCount * queuesPerCluster ↔ cluster < clusterCount := by
  have small := Nat.mod_lt x pos
  constructor
  · intro inUse
    by_contra beyond
    have := Nat.mul_le_mul_right queuesPerCluster (Nat.not_lt.mp beyond)
    omega
  · intro below
    have := Nat.mul_le_mul_right queuesPerCluster (Nat.succ_le_of_lt below)
    rw [Nat.succ_mul] at this
    omega

/-- There are queues for all nodes with CPUs: with a queue for each CPU, the CPUs behind the last
online one do not need another one, and with clusters, all nodes have room in the clusters that
there are and that the array has a place for. -/
def QueuesFit (t : CpuTopology) (readQueueCount : Nat) : Prop :=
  if t.numOnlineCpus ≤ readQueueCount then
    readQueueCount = t.numOnlineCpus ∨ t.cpuOnline (t.numcpus - 1) = true
  else
    let nodesPerCluster := t.numOnlineNodes ⌈/⌉ readQueueCount
    let room := min (t.numOnlineNodes ⌈/⌉ nodesPerCluster) iodriveMaxCompQueues * nodesPerCluster
    t.outerNodesFrom (min room t.numOnlineNodes) ≤ 1 + (room - t.numOnlineNodes)

theorem kfioMapCpusToReadQueues_onePerCpu {accesses : List (NodeArray × Nat)} {mapping : QueueMapping}
    (enough : t.numOnlineCpus ≤ readQueueCount)
    (run : t.kfioMapCpusToReadQueues readQueueCount fuel memory = some (accesses, some mapping)) :
    mapping.faulted = false ∧ mapping.queues = t.numOnlineCpus ∧
      ∀ c < t.numcpus, mapping.cpuToReadQueue c = t.onlineBefore c % readQueueCount := by
  rw [kfioMapCpusToReadQueues, Option.map_eq_some_iff] at run
  obtain ⟨nodes, _, run⟩ := run
  rw [if_pos enough] at run
  obtain ⟨_, used, map⟩ := onePerCpu_spec t readQueueCount memory t.numcpus
  have total : t.numOnlineCpus = t.onlineBefore t.numcpus := rfl
  obtain ⟨_, same⟩ := Prod.ext_iff.mp run
  obtain rfl := Option.some.inj same
  refine ⟨rfl, ?_, map⟩
  dsimp only
  rw [used, ← total]
  split
  · rfl
  · omega

theorem kfioMapCpusToReadQueues_byCluster {accesses : List (NodeArray × Nat)} {mapping : QueueMapping}
    (scarce : readQueueCount < t.numOnlineCpus)
    (run : t.kfioMapCpusToReadQueues readQueueCount fuel memory = some (accesses, some mapping)) :
    ∃ nodes nodesPerCluster clusterCount queuesPerCluster, t.Scanned nodes ∧
      t.shapeClusters readQueueCount fuel = some (nodesPerCluster, clusterCount, queuesPerCluster) ∧
      mapping = ⟨(t.byCluster nodesPerCluster queuesPerCluster nodes memory t.numcpus).cpuToReadQueue,
        (t.byCluster nodesPerCluster queuesPerCluster nodes memory t.numcpus).cluster,
        clusterCount * queuesPerCluster,
        (t.byCluster nodesPerCluster queuesPerCluster nodes memory t.numcpus).faulted⟩ := by
  rw [kfioMapCpusToReadQueues, Option.map_eq_some_iff] at run
  obtain ⟨nodes, scan, run⟩ := run
  rw [if_neg (Nat.not_le.mpr scarce)] at run
  split at run
  · cases run
  · rename_i nodesPerCluster clusterCount queuesPerCluster shape
    obtain ⟨_, same⟩ := Prod.ext_iff.mp run
    exact ⟨nodes, _, _, _, scanNodes_scanned scan, shape, (Option.some.inj same).symm⟩

/-- A call comes to its end when there is a queue and an online node. -/
theorem kfioMapCpusToReadQueues_ends (memory : CpuMapMemory) (pos : 0 < readQueueCount)
    (some : 0 < t.numOnlineNodes) (enough : t.numOnlineNodes < fuel) :
    ∃ accesses mapping, t.kfioMapCpusToReadQueues readQueueCount fuel memory =
      Option.some (accesses, Option.some mapping) := by
  obtain ⟨nodes, scan⟩ := scanNodes_ends t memory enough
  obtain ⟨⟨p, count, q⟩, shape⟩ := shapeClusters_ends pos some enough
  rw [kfioMapCpusToReadQueues, scan, Option.map_some, shape]
  split
  · exact ⟨_, _, rfl⟩
  · exact ⟨_, _, rfl⟩

/-- The clusters have room for all nodes exactly when no CPU comes to a place behind the array or to
a queue behind those in use. -/
theorem byCluster_fits_iff {nodesPerCluster clusterCount queuesPerCluster : Nat} (scanned : t.Scanned nodes)
    (pos : 0 < t.numOnlineNodes) (le : t.numOnlineNodes ≤ t.numPossibleNodes) (scarce : readQueueCount < t.numOnlineCpus)
    (shape : t.ClusterShape readQueueCount nodesPerCluster clusterCount queuesPerCluster) :
    ((t.byCluster nodesPerCluster queuesPerCluster nodes memory t.numcpus).faulted = false ∧
      ∀ cpu < t.numcpus, (t.byCluster nodesPerCluster queuesPerCluster nodes memory t.numcpus).cpuToReadQueue cpu <
        clusterCount * queuesPerCluster) ↔ t.QueuesFit readQueueCount := by
  obtain ⟨nodesEq, clustersEq, nodesPos, queuesPos, fits⟩ := shape
  have atMost := t.numOnlineCpus_le
  have some : 0 < clusterCount := by
    by_contra none
    have whole := (ceilDiv_le_iff_le_mul nodesPos).mp (Nat.le_of_eq clustersEq.symm)
    rw [Nat.eq_zero_of_not_pos none] at whole
    omega
  have few := lt_of_scarce scarce ((Nat.le_mul_of_pos_left queuesPerCluster some).trans fits)
  have room : 0 < min clusterCount iodriveMaxCompQueues * nodesPerCluster :=
    Nat.mul_pos (Nat.lt_min.mpr ⟨some, by decide⟩) nodesPos
  rw [QueuesFit, if_neg (Nat.not_le.mpr scarce), ← nodesEq]
  dsimp only
  rw [← clustersEq, ← scanned.map_lt_iff pos le (by omega) room, byCluster_faulted_iff, ← forall₂_and]
  refine forall₂_congr fun cpu low => ?_
  rw [← Nat.div_lt_iff_lt_mul nodesPos, ← clusterOf, Nat.lt_min, and_comm]
  refine and_congr_left fun inside => ?_
  rw [byCluster_queue queuesPos few low inside, queue_lt_iff queuesPos]

/-- All CPUs are mapped to queues in use, without a fault, exactly when the queues fit. -/
theorem queues_inUse_iff (t : CpuTopology) (readQueueCount : Nat) (memory : CpuMapMemory)
    (online : 0 < t.numOnlineCpus) (pos : 0 < t.numOnlineNodes) (le : t.numOnlineNodes ≤ t.numPossibleNodes)
    (queues : 0 < readQueueCount) :
    ((∃ fuel accesses mapping,
        t.kfioMapCpusToReadQueues readQueueCount fuel memory = some (accesses, some mapping)) ∧
      ∀ fuel accesses mapping,
        t.kfioMapCpusToReadQueues readQueueCount fuel memory = some (accesses, some mapping) →
          mapping.faulted = false ∧ mapping.queues ≤ readQueueCount ∧
            ∀ cpu < t.numcpus, mapping.cpuToReadQueue cpu < mapping.queues) ↔
      t.QueuesFit readQueueCount := by
  obtain ⟨accesses, mapping, run⟩ :=
    kfioMapCpusToReadQueues_ends memory queues pos (Nat.lt_succ_self t.numOnlineNodes)
  have spec : ∀ fuel accesses mapping,
      t.kfioMapCpusToReadQueues readQueueCount fuel memory = some (accesses, some mapping) →
        ((mapping.faulted = false ∧ mapping.queues ≤ readQueueCount ∧
            ∀ cpu < t.numcpus, mapping.cpuToReadQueue cpu < mapping.queues) ↔ t.QueuesFit readQueueCount) := by
    intro fuel accesses mapping run
    rcases Nat.lt_or_ge readQueueCount t.numOnlineCpus with scarce | enough
    · obtain ⟨nodes, p, count, q, scanned, ran, rfl⟩ := kfioMapCpusToReadQueues_byCluster scarce run
      have shape := shapeClusters_shape queues ran
      rw [and_iff_right shape.fits]
      exact byCluster_fits_iff scanned pos le scarce shape
    · obtain ⟨sound, used, map⟩ := kfioMapCpusToReadQueues_onePerCpu enough run
      rw [QueuesFit, if_pos enough, and_iff_right sound, used, and_iff_right enough, ← onePerCpu_lt_iff enough online]
      refine forall₂_congr fun cpu low => ?_
      rw [map cpu low]
  constructor
  · rintro ⟨_, always⟩
    exact (spec _ _ _ run).mp (always _ _ _ run)
  · exact fun fits => ⟨⟨_, _, _, run⟩, fun fuel accesses mapping run => (spec _ _ _ run).mpr fits⟩

instance (t : CpuTopology) (readQueueCount : Nat) : Decidable (t.QueuesFit readQueueCount) := by
  unfold QueuesFit
  infer_instance

/-- Four online CPUs, two in node 0 and two in another node, of two online nodes. -/
def twoNodes (possible other : Nat) (below : 0 < possible ∧ other < possible) : CpuTopology where
  numcpus := 4
  cpuToNode cpu := if cpu < 2 then 0 else other
  cpuOnline _ := true
  numOnlineNodes := 2
  numPossibleNodes := possible
  numcpus_lt := by decide
  node_lt cpu _ := by
    split
    · exact below.1
    · exact below.2

theorem queues_inUse_two_nodes :
    (∃ fuel accesses mapping, (twoNodes 2 1 (by decide)).kfioMapCpusToReadQueues 2 fuel emptyMemory =
      some (accesses, some mapping)) ∧
    ∀ fuel accesses mapping, (twoNodes 2 1 (by decide)).kfioMapCpusToReadQueues 2 fuel emptyMemory =
      some (accesses, some mapping) → mapping.faulted = false ∧ mapping.queues ≤ 2 ∧
        ∀ cpu < 4, mapping.cpuToReadQueue cpu < mapping.queues :=
  (queues_inUse_iff (twoNodes 2 1 (by decide)) 2 emptyMemory (by decide) (by decide) (by decide) (by decide)).mpr
    (by decide)

/-- Some nodes with two CPUs each. -/
def cpuPairs (nodes : Nat) (few : 2 * nodes < 2 ^ 28) : CpuTopology where
  numcpus := 2 * nodes
  cpuToNode cpu := cpu / 2
  cpuOnline _ := true
  numOnlineNodes := nodes
  numPossibleNodes := nodes
  numcpus_lt := few
  node_lt cpu low := by omega

/-- The seventeenth node has a queue of its own, and no place in the array. -/
example : (cpuPairs 16 (by decide)).QueuesFit 16 ∧ ¬(cpuPairs 17 (by decide)).QueuesFit 17 := by decide

/-- With nothing in node 1, the CPUs of node 2 are mapped to a queue behind those in use. -/
theorem queues_not_inUse :
    ¬ ∀ (t : CpuTopology) (readQueueCount : Nat) (memory : CpuMapMemory), 0 < t.numOnlineCpus →
      0 < t.numOnlineNodes → t.numOnlineNodes ≤ t.numPossibleNodes → 0 < readQueueCount →
        (∃ fuel accesses mapping,
          t.kfioMapCpusToReadQueues readQueueCount fuel memory = some (accesses, some mapping)) ∧
        ∀ fuel accesses mapping,
          t.kfioMapCpusToReadQueues readQueueCount fuel memory = some (accesses, some mapping) →
            mapping.queues ≤ readQueueCount ∧ ∀ cpu < t.numcpus, mapping.cpuToReadQueue cpu < mapping.queues := by
  intro always
  have inUse := (always (twoNodes 3 2 (by decide)) 2 emptyMemory (by decide) (by decide) (by decide) (by decide)).2
    3 _ _ rfl
  exact absurd (inUse.2 3 (by decide)) (by decide)

end CpuTopology

end IomemoryVsl
