import IomemoryVsl.KcpuQueues

namespace IomemoryVsl

open Renumber

namespace CpuTopology

variable {t : CpuTopology} {nodes : NodeArrays} {memory : CpuMapMemory}
  {fuel cpu other c readQueueCount nodesPerCluster queuesPerCluster cluster : Nat}

/-- Nodes with CPUs have different numbers. -/
theorem Scanned.map_inj (scanned : t.Scanned nodes) (low : cpu < t.numcpus) (below : other < t.numcpus)
    (same : nodes.nodeMap (t.cpuToNode cpu) = nodes.nodeMap (t.cpuToNode other)) :
    t.cpuToNode cpu = t.cpuToNode other := by
  have full : ∀ c < t.numcpus, nodes.Full (t.cpuToNode c) :=
    fun c inside => (scanned.full _ (t.node_lt c inside)).mpr ⟨c, inside, rfl⟩
  have first := scanned.map _ (t.node_lt cpu low) (full cpu low)
  have second := scanned.map _ (t.node_lt other below) (full other below)
  rw [same] at first
  exact Nat.count_injective (full cpu low) (full other below) (first.inj second)

theorem byCluster_succ_cpus :
    (t.byCluster nodesPerCluster queuesPerCluster nodes memory (cpu + 1)).cpusInCluster =
      if t.cpuOnline cpu = true then
        Function.update (t.byCluster nodesPerCluster queuesPerCluster nodes memory cpu).cpusInCluster
          (t.clusterOf nodes nodesPerCluster cpu)
          (((t.byCluster nodesPerCluster queuesPerCluster nodes memory cpu).cpusInCluster
            (t.clusterOf nodes nodesPerCluster cpu) + 1) % 2 ^ 32)
      else
        (t.byCluster nodesPerCluster queuesPerCluster nodes memory cpu).cpusInCluster := by
  rw [byCluster, NodeArrays.access, byCluster_nodeMap, ← clusterOf]
  split
  · rfl
  · rfl

theorem byCluster_cluster (low : c < cpu) :
    (t.byCluster nodesPerCluster queuesPerCluster nodes memory cpu).cluster c = t.clusterOf nodes nodesPerCluster c := by
  induction cpu with
  | zero => exact absurd low (Nat.not_lt_zero c)
  | succ cpu ih =>
    have next : (t.byCluster nodesPerCluster queuesPerCluster nodes memory (cpu + 1)).cluster =
        Function.update (t.byCluster nodesPerCluster queuesPerCluster nodes memory cpu).cluster cpu
          (t.clusterOf nodes nodesPerCluster cpu) := by
      rw [byCluster, NodeArrays.access, byCluster_nodeMap, ← clusterOf]
      split
      · rfl
      · rfl
    rw [next]
    by_cases here : c = cpu
    · rw [here, Function.update_self]
    · rw [Function.update_of_ne here]
      exact ih (by omega)

/-- The array counts the online CPUs of a cluster that it has a place for. -/
theorem byCluster_cpus (inside : cluster < iodriveMaxCompQueues) (le : cpu ≤ t.numcpus) :
    (t.byCluster nodesPerCluster queuesPerCluster nodes memory cpu).cpusInCluster cluster =
      Nat.count (fun c => t.cpuOnline c = true ∧ t.clusterOf nodes nodesPerCluster c = cluster) cpu := by
  induction cpu with
  | zero => exact if_pos inside
  | succ cpu ih =>
    have before := ih (by omega)
    have few : Nat.count (fun c => t.cpuOnline c = true ∧ t.clusterOf nodes nodesPerCluster c = cluster) cpu ≤ cpu :=
      Nat.count_le _
    have small := t.numcpus_lt
    rw [byCluster_succ_cpus, Nat.count_succ]
    by_cases online : t.cpuOnline cpu = true
    · rw [if_pos online]
      by_cases here : t.clusterOf nodes nodesPerCluster cpu = cluster
      · rw [if_pos ⟨online, here⟩, here, Function.update_self, before]
        exact Nat.mod_eq_of_lt (by omega)
      · rw [if_neg fun both => here both.2, Function.update_of_ne (Ne.symm here), before, Nat.add_zero]
    · rw [if_neg online, if_neg fun both => online both.1, before, Nat.add_zero]

/-- The online CPUs of a node that are mapped to a queue. -/
def assigned (t : CpuTopology) (mapping : QueueMapping) (node queue : Nat) : Nat :=
  Nat.count (fun cpu => (t.cpuOnline cpu = true ∧ t.cpuToNode cpu = node) ∧ mapping.cpuToReadQueue cpu = queue) t.numcpus

/-- The online CPUs of a node are dealt out to the queues of its cluster in turns. -/
theorem assigned_eq {r queues : Nat} {clusters : Nat → Nat} {faulted : Bool} (scanned : t.Scanned nodes)
    (low : cpu < t.numcpus) (inside : t.clusterOf nodes 1 cpu < iodriveMaxCompQueues) (pos : 0 < queuesPerCluster)
    (few : queuesPerCluster < 2 ^ 28) :
    t.assigned ⟨(t.byCluster 1 queuesPerCluster nodes memory t.numcpus).cpuToReadQueue, clusters, queues, faulted⟩
        (t.cpuToNode cpu) (t.clusterOf nodes 1 cpu * queuesPerCluster + r) =
      Nat.count (fun x => x % queuesPerCluster = r)
        (Nat.count (fun c => t.cpuOnline c = true ∧ t.clusterOf nodes 1 c = t.clusterOf nodes 1 cpu) t.numcpus) := by
  rw [← count_dealt, assigned]
  refine count_congr fun c lowC => ?_
  have sameNode : t.cpuToNode c = t.cpuToNode cpu ↔ t.clusterOf nodes 1 c = t.clusterOf nodes 1 cpu := by
    rw [clusterOf, clusterOf, Nat.div_one, Nat.div_one]
    exact ⟨fun same => by rw [same], scanned.map_inj lowC low⟩
  rw [sameNode]
  refine and_congr_right fun member => ?_
  dsimp only
  rw [byCluster_queue pos few lowC (member.2 ▸ inside), member.2, byCluster_cpus inside (Nat.le_of_lt lowC),
    Nat.add_left_cancel_iff]

/-- When there is a queue for each online node and not one for each CPU, two CPUs of different
nodes never share a queue, and the queues of a node share its online CPUs evenly. -/
theorem queues_shared (t : CpuTopology) (readQueueCount : Nat) (memory : CpuMapMemory)
    (enough : t.numOnlineNodes ≤ readQueueCount) (scarce : readQueueCount < t.numOnlineCpus) :
    (0 < t.numOnlineNodes → ∃ fuel accesses mapping,
      t.kfioMapCpusToReadQueues readQueueCount fuel memory = some (accesses, some mapping)) ∧
    ∀ fuel accesses mapping,
      t.kfioMapCpusToReadQueues readQueueCount fuel memory = some (accesses, some mapping) →
      (∀ cpu < t.numcpus, mapping.cluster cpu < iodriveMaxCompQueues) →
        (∀ cpu < t.numcpus, ∀ other < t.numcpus, t.cpuToNode cpu ≠ t.cpuToNode other →
          mapping.cpuToReadQueue cpu ≠ mapping.cpuToReadQueue other) ∧
        ∀ cpu < t.numcpus, let queuesPerCluster := readQueueCount / t.numOnlineNodes
          mapping.cpuToReadQueue cpu / queuesPerCluster = mapping.cluster cpu ∧
          ∀ r < queuesPerCluster, ∀ r' < queuesPerCluster,
            t.assigned mapping (t.cpuToNode cpu) (mapping.cluster cpu * queuesPerCluster + r) ≤
              t.assigned mapping (t.cpuToNode cpu) (mapping.cluster cpu * queuesPerCluster + r') + 1 := by
  refine ⟨fun some => ⟨_, kfioMapCpusToReadQueues_ends _ (by omega) some (Nat.lt_succ_self _)⟩, ?_⟩
  intro fuel accesses mapping run asserted
  obtain ⟨nodes, p, count, q, scanned, shape, rfl⟩ := kfioMapCpusToReadQueues_byCluster scarce run
  rw [shapeClusters, if_neg (Nat.not_lt.mpr enough)] at shape
  split at shape
  · cases shape
  · rename_i some
    obtain ⟨rfl, rest⟩ := Prod.ext_iff.mp (Option.some.inj shape)
    obtain ⟨rfl, rfl⟩ := Prod.ext_iff.mp rest
    dsimp only at asserted ⊢
    have pos : 0 < readQueueCount / t.numOnlineNodes := Nat.div_pos enough (Nat.pos_of_ne_zero some)
    have few := lt_of_scarce scarce (Nat.div_le_self readQueueCount t.numOnlineNodes)
    have inside : ∀ c < t.numcpus, t.clusterOf nodes 1 c < iodriveMaxCompQueues := by
      intro c low
      rw [← byCluster_cluster low]
      exact asserted c low
    have queue : ∀ c < t.numcpus,
        (t.byCluster 1 (readQueueCount / t.numOnlineNodes) nodes memory t.numcpus).cpuToReadQueue c /
          (readQueueCount / t.numOnlineNodes) = t.clusterOf nodes 1 c := by
      intro c low
      rw [byCluster_queue pos few low (inside c low), Nat.mul_comm, Nat.mul_add_div pos,
        Nat.div_eq_of_lt (Nat.mod_lt _ pos), Nat.add_zero]
    refine ⟨fun cpu low other below apart same => ?_, fun cpu low => ⟨?_, fun r first r' second => ?_⟩⟩
    · have clusters := queue cpu low
      rw [same, queue other below, clusterOf, clusterOf, Nat.div_one, Nat.div_one] at clusters
      exact apart (scanned.map_inj below low clusters).symm
    · rw [queue cpu low, byCluster_cluster low]
    · rw [byCluster_cluster low, assigned_eq scanned low (inside cpu low) pos few,
        assigned_eq scanned low (inside cpu low) pos few]
      exact count_residue_le first second

/-- Two nodes with three online CPUs each. -/
def sixCpus : CpuTopology where
  numcpus := 6
  cpuToNode cpu := if cpu < 3 then 0 else 1
  cpuOnline _ := true
  numOnlineNodes := 2
  numPossibleNodes := 2
  numcpus_lt := by decide
  node_lt cpu _ := by
    split
    · decide
    · decide

/-- With four queues, each node has two of them to itself, and its CPUs share them evenly. -/
theorem queues_shared_two_nodes : ∃ accesses mapping,
    sixCpus.kfioMapCpusToReadQueues 4 3 emptyMemory = some (accesses, some mapping) ∧
      mapping.cpuToReadQueue 0 ≠ mapping.cpuToReadQueue 3 ∧ mapping.cluster 3 = 1 ∧
      ∀ r < 2, ∀ r' < 2, sixCpus.assigned mapping 1 (1 * 2 + r) ≤ sixCpus.assigned mapping 1 (1 * 2 + r') + 1 := by
  have shared := (queues_shared sixCpus 4 emptyMemory (by decide) (by decide)).2 3 _ _ rfl (by decide)
  exact ⟨_, _, rfl, shared.1 0 (by decide) 3 (by decide) (by decide), rfl, (shared.2 3 (by decide)).2⟩

end CpuTopology

end IomemoryVsl
