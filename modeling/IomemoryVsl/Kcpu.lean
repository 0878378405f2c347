import Mathlib.Data.Nat.Count
import Mathlib.Logic.Function.Basic

namespace IomemoryVsl

def iodriveMaxCompQueues : Nat := 16

/-- What `kfio_map_cpus_to_read_queues` learns about the machine. A kernel is built for far
fewer than 2^28 CPUs, and with fewer the number of a queue does not wrap. -/
structure CpuTopology where
  numcpus : Nat
  cpuToNode : Nat → Nat
  cpuOnline : Nat → Bool
  numOnlineNodes : Nat
  numPossibleNodes : Nat
  numcpus_lt : numcpus < 2 ^ 28
  node_lt : ∀ cpu < numcpus, cpuToNode cpu < numPossibleNodes

/-- The two arrays of `num_possible_nodes()` entries. -/
inductive NodeArray
  | nodeHist
  | nodeMap
  deriving DecidableEq, Repr

/-- The arrays with the memory behind them, and the reads and writes so far. -/
structure NodeArrays where
  nodeHist : Nat → Nat
  nodeMap : Nat → Nat
  accesses : List (NodeArray × Nat)

namespace NodeArrays

variable (s : NodeArrays)

def access (array : NodeArray) (index : Nat) : NodeArrays := { s with accesses := s.accesses ++ [(array, index)] }

def setHist (index value : Nat) : NodeArrays :=
  { s.access .nodeHist index with nodeHist := Function.update s.nodeHist index value }

def setMap (index value : Nat) : NodeArrays :=
  { s.access .nodeMap index with nodeMap := Function.update s.nodeMap index value }

/-- `kfio_memset` of the first entries of the histogram to 0. -/
def clearHist (size : Nat) : NodeArrays :=
  { s with
    nodeHist := fun i => if i < size then 0 else s.nodeHist i
    accesses := s.accesses ++ (List.range size).map (NodeArray.nodeHist, ·) }

def clearMap (size : Nat) : NodeArrays :=
  { s with
    nodeMap := fun i => if i < size then 0 else s.nodeMap i
    accesses := s.accesses ++ (List.range size).map (NodeArray.nodeMap, ·) }

end NodeArrays

/-- The loop that finds the next node that has entries, if it ends within the given number of
rounds: `node_counter` goes up before the histogram is read. -/
def nextNode (numNodes : Nat) : Nat → NodeArrays → Nat → Option (NodeArrays × Nat)
  | 0, _, _ => none
  | fuel + 1, s, nodeCounter =>
    let nodeCounter := nodeCounter + 1
    let s := s.access .nodeHist nodeCounter
    if s.nodeHist nodeCounter = 0 ∧ nodeCounter < numNodes then
      nextNode numNodes fuel s nodeCounter
    else
      some (s, nodeCounter)

/-- The loop that groups nodes into clusters until there is a queue for each, if it ends within
the given number of rounds. -/
def groupNodes (numNodes readQueueCount : Nat) : Nat → Nat → Nat → Option (Nat × Nat)
  | 0, _, _ => none
  | fuel + 1, nodesPerCluster, clusterCount =>
    if readQueueCount < clusterCount then
      let nodesPerCluster := nodesPerCluster + 1
      groupNodes numNodes readQueueCount fuel nodesPerCluster ((numNodes + nodesPerCluster - 1) / nodesPerCluster)
    else
      some (nodesPerCluster, clusterCount)

/-- What the memory has before the call: the arrays that are allocated, the words behind
`cpus_in_cluster` and the map that is filled in. -/
structure CpuMapMemory where
  nodeHist : Nat → Nat
  nodeMap : Nat → Nat
  cpusInCluster : Nat → Nat
  cpuToReadQueue : Nat → Nat

/-- The variables of the loop for one queue per CPU. `SET_MAP` stores the address of a queue,
which stands here as its index. -/
structure OnePerCpu where
  cpuToReadQueue : Nat → Nat
  ix : Nat
  queuesUsed : Nat

/-- The variables of the loop for clusters, with the cluster that each CPU came to, and whether
`cpus_in_cluster` was accessed behind its end. -/
structure ByCluster where
  nodes : NodeArrays
  cpuToReadQueue : Nat → Nat
  cluster : Nat → Nat
  cpusInCluster : Nat → Nat
  faulted : Bool

/-- The map that is filled in, the clusters where there are any, the number of queues that is
returned, and whether the stack was accessed behind the array of clusters. -/
structure QueueMapping where
  cpuToReadQueue : Nat → Nat
  cluster : Nat → Nat
  queues : Nat
  faulted : Bool

namespace CpuTopology

variable (t : CpuTopology)

def numOnlineCpus : Nat := Nat.count (fun cpu => t.cpuOnline cpu = true) t.numcpus

/-- The histogram over the first CPUs. -/
def countCpus (s : NodeArrays) : Nat → NodeArrays
  | 0 => s
  | cpu + 1 =>
    let s := countCpus s cpu
    s.setHist (t.cpuToNode cpu) ((s.nodeHist (t.cpuToNode cpu) + 1) % 2 ^ 32)

/-- The map of used nodes over the first nodes, with `node_counter`. -/
def mapNodes (fuel : Nat) (s : NodeArrays) : Nat → Option (NodeArrays × Nat)
  | 0 => some (s, 0)
  | nodeNdx + 1 =>
    (mapNodes fuel s nodeNdx).bind fun (s, nodeCounter) =>
      let s := s.access .nodeHist nodeNdx
      if s.nodeHist nodeNdx ≠ 0 then
        nextNode t.numOnlineNodes fuel (s.setMap nodeNdx nodeCounter) nodeCounter
      else
        some (s, nodeCounter)

/-- The histogram and the map of all nodes. -/
def scanNodes (fuel : Nat) (memory : CpuMapMemory) : Option NodeArrays :=
  let s : NodeArrays := ⟨memory.nodeHist, memory.nodeMap, []⟩
  let s := t.countCpus (s.clearHist t.numPossibleNodes) t.numcpus
  (t.mapNodes fuel (s.clearMap t.numPossibleNodes) t.numPossibleNodes).map Prod.fst

/-- A queue for each of the first CPUs. Offline CPUs share one with the next CPU. -/
def onePerCpu (readQueueCount : Nat) (memory : CpuMapMemory) : Nat → OnePerCpu
  | 0 => ⟨memory.cpuToReadQueue, 0, 0⟩
  | cpu + 1 =>
    let s := onePerCpu readQueueCount memory cpu
    let s := { s with cpuToReadQueue := Function.update s.cpuToReadQueue cpu s.ix }
    if t.cpuOnline cpu then
      { s with ix := (s.ix + 1) % readQueueCount, queuesUsed := s.queuesUsed + 1 }
    else
      s

/-- The nodes of a cluster, the number of clusters and the queues of each. Without an
online node the number of queues is divided by 0. -/
def shapeClusters (readQueueCount fuel : Nat) : Option (Nat × Nat × Nat) :=
  if readQueueCount < t.numOnlineNodes then
    (groupNodes t.numOnlineNodes readQueueCount fuel 1 t.numOnlineNodes).map
      fun (nodesPerCluster, clusterCount) => (nodesPerCluster, clusterCount, 1)
  else if t.numOnlineNodes = 0 then
    none
  else
    some (1, t.numOnlineNodes, readQueueCount / t.numOnlineNodes)

/-- A queue of its cluster for each of the first CPUs. That the cluster is below
`IODRIVE_MAX_COMP_QUEUES`, the size of the array on the stack, is only asserted, which
the driver as it is built leaves out: above it the access is a fault. -/
def byCluster (nodesPerCluster queuesPerCluster : Nat) (nodes : NodeArrays) (memory : CpuMapMemory) : Nat → ByCluster
  | 0 =>
    { nodes := nodes
      cpuToReadQueue := memory.cpuToReadQueue
      cluster := fun _ => 0
      cpusInCluster := fun i => if i < iodriveMaxCompQueues then 0 else memory.cpusInCluster i
      faulted := false }
  | cpu + 1 =>
    let s := byCluster nodesPerCluster queuesPerCluster nodes memory cpu
    let nodes := s.nodes.access .nodeMap (t.cpuToNode cpu)
    let cluster := nodes.nodeMap (t.cpuToNode cpu) / nodesPerCluster
    let readQ := (cluster * queuesPerCluster + s.cpusInCluster cluster % queuesPerCluster) % 2 ^ 32
    let s : ByCluster :=
      { nodes := nodes
        cpuToReadQueue := Function.update s.cpuToReadQueue cpu readQ
        cluster := Function.update s.cluster cpu cluster
        cpusInCluster := s.cpusInCluster
        faulted := s.faulted || decide (iodriveMaxCompQueues ≤ cluster) }
    if t.cpuOnline cpu then
      { s with cpusInCluster := Function.update s.cpusInCluster cluster ((s.cpusInCluster cluster + 1) % 2 ^ 32) }
    else
      s

/-- The result has the accesses of the two arrays, if the search loops end within the given
number of rounds, and the mapping if the function comes to its end. The allocations
succeed, which the code takes for granted. -/
def kfioMapCpusToReadQueues (readQueueCount fuel : Nat) (memory : CpuMapMemory) :
    Option (List (NodeArray × Nat) × Option QueueMapping) :=
  (t.scanNodes fuel memory).map fun nodes =>
    if t.numOnlineCpus ≤ readQueueCount then
      let s := t.onePerCpu readQueueCount memory t.numcpus
      let queues := if s.queuesUsed < readQueueCount then s.queuesUsed else readQueueCount
      (nodes.accesses, some ⟨s.cpuToReadQueue, fun _ => 0, queues, false⟩)
    else
      match t.shapeClusters readQueueCount fuel with
      | none => (nodes.accesses, none)
      | some (nodesPerCluster, clusterCount, queuesPerCluster) =>
        let s := t.byCluster nodesPerCluster queuesPerCluster nodes memory t.numcpus
        (s.nodes.accesses, some ⟨s.cpuToReadQueue, s.cluster, clusterCount * queuesPerCluster, s.faulted⟩)

end CpuTopology

end IomemoryVsl
