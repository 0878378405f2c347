import IomemoryVsl.Errno
import IomemoryVsl.Transition
import Mathlib.Algebra.BigOperators.Group.List.Basic
import Mathlib.Algebra.Ring.Nat
import Mathlib.Logic.Function.Basic

namespace IomemoryVsl

/-- A C string without its terminator. -/
structure CStr where
  bytes : List UInt8
  noNul : 0 ∉ bytes
  deriving DecidableEq, Repr

def CStr.strlen (s : CStr) : Nat := s.bytes.length

/-- The types `KFIO_INFO_*`, and any other number given for one. -/
inductive InfoType
  | dir | int32 | uint32 | uint64 | string | text | seqfile
  | unknown (code : Int)
  deriving DecidableEq, Repr

def kfioInfoMaxNamelen : Nat := 64

/-- `S_IRUGO`. -/
def sIrugo : Nat := 0o444

/-- A directory of procfs, as the names on the way from `fusion` to it. -/
abbrev ProcPath := List CStr

/-- A `struct kfio_info_node`. Nodes are known by their addresses. What a leaf
keeps in the place of `subnode_list` is left out, as is its data. -/
structure InfoNode where
  parent : Option Nat
  type : InfoType
  size : Nat
  mode : Nat
  osPriv : Option ProcPath
  name : CStr
  subnodes : List Nat
  deriving DecidableEq, Repr

/-- The nodes in memory, the root of the tree, and the entries of procfs below
`fusion`. `live` lists the addresses of the nodes; the code does not have it. -/
structure Kinfo where
  root : Nat
  nodes : Nat → Option InfoNode
  live : List Nat
  procfs : List (ProcPath × CStr)

namespace Kinfo

/-- `kfio_info_driver_init`, which gets its memory and makes the directory `fusion`. -/
def initial (root : Nat) (name : CStr) : Kinfo :=
  ⟨root, Function.update (fun _ => none) root (some ⟨none, .dir, 0, sIrugo, none, name, []⟩), [root], []⟩

def modify (k : Kinfo) (n : Nat) (f : InfoNode → InfoNode) : Kinfo :=
  { k with nodes := Function.update k.nodes n ((k.nodes n).map f) }

/-- `malloc` is the address of the memory for the node, if there is any. -/
def kfioInfoAllocNode (k : Kinfo) (type : InfoType) (name : CStr) (malloc : Option Nat) : Option (Kinfo × Nat) :=
  if name.strlen > kfioInfoMaxNamelen then none
  else malloc.map fun n =>
    ({ k with nodes := Function.update k.nodes n (some ⟨none, type, 0, 0, none, name, []⟩), live := n :: k.live }, n)

def kfioInfoFreeNode (k : Kinfo) (n : Nat) : Kinfo :=
  { k with nodes := Function.update k.nodes n none, live := k.live.erase n }

def subnodesOf (k : Kinfo) (n : Nat) : List Nat := (k.nodes n).elim [] InfoNode.subnodes

def isDir (k : Kinfo) (n : Nat) : Bool := (k.nodes n).any fun node => node.type == .dir

def nameIs (k : Kinfo) (name : CStr) (n : Nat) : Bool := (k.nodes n).any fun node => node.name == name

def osPrivOf (k : Kinfo) (n : Nat) : Option ProcPath := (k.nodes n).bind InfoNode.osPriv

def kfioInfoLookupNode (k : Kinfo) (parent : Nat) (name : CStr) : Option Nat :=
  (k.subnodesOf parent).find? (k.nameIs name)

/-- Makes an entry in procfs, unless the name is taken or `proc` says that it fails. -/
def procCreate (k : Kinfo) (dir : ProcPath) (n : Nat) (node : InfoNode) (proc : Bool) : Kinfo × Int :=
  if (dir, node.name) ∈ k.procfs ∨ proc = false then
    (k, -eio)
  else
    (({ k with procfs := k.procfs ++ [(dir, node.name)] } : Kinfo).modify n fun node =>
      { node with osPriv := some (dir ++ [node.name]) }, 0)

/-- Without a parent the entry is `fusion/` with the name, which is short enough
for the buffer. -/
def kfioInfoOsCreateNode (k : Kinfo) (parent : Option Nat) (n : Nat) (proc : Bool) : Kinfo × Int :=
  match k.nodes n, parent with
  | none, _ => (k, -eio)
  | some node, none => if node.type = .dir then k.procCreate [] n node proc else (k, -eio)
  | some node, some p =>
    match k.osPrivOf p, node.type with
    | none, _ | some _, .unknown _ => (k, -eio)
    | some dir, _ => k.procCreate dir n node proc

/-- The driver as it is built leaves assertions out. Where one fails the code goes on with the
words of something else (here those of another node for a list), so the model gives nothing
back. -/
def kfioInfoInsertNode (k : Kinfo) (parent : Option Nat) (n : Nat) (proc : Bool) : Option (Kinfo × Int) :=
  if parent.any fun p => !k.isDir p then
    none
  else if parent.any fun p => (k.nodes n).any fun node => (k.kfioInfoLookupNode p node.name).isSome then
    some (k, -eexist)
  else
    let (k, rc) := k.kfioInfoOsCreateNode parent n proc
    if rc ≠ 0 then
      some (k, rc)
    else
      let p := parent.getD k.root
      some ((k.modify n fun node => { node with parent := some p }).modify p fun dir =>
        { dir with subnodes := dir.subnodes ++ [n] }, rc)

/-- Inserts a node that was allocated, and frees it if that fails. -/
def insertOrFree (k : Kinfo) (parent : Option Nat) (n : Nat) (proc : Bool) : Option (Kinfo × Int) :=
  (k.kfioInfoInsertNode parent n proc).map fun (k, rc) => if rc ≠ 0 then (k.kfioInfoFreeNode n, rc) else (k, rc)

def kfioInfoCreateDir (k : Kinfo) (parent : Option Nat) (name : CStr) (malloc : Option Nat) (proc : Bool) :
    Option (Kinfo × Int) :=
  match k.kfioInfoAllocNode .dir name malloc with
  | none => some (k, -enomem)
  | some (k, n) => (k.modify n fun node => { node with mode := sIrugo }).insertOrFree parent n proc

/-- The size of a value of fixed type, or of a string. -/
def typeSize (size : Nat) : InfoType → Option Nat
  | .int32 | .uint32 => some 4
  | .uint64 => some 8
  | .string => some size
  | _ => none

def kfioInfoCreateProc (k : Kinfo) (parent : Option Nat) (name : CStr) (type : InfoType) (mode size : Nat)
    (malloc : Option Nat) (proc : Bool) : Option (Kinfo × Int) :=
  if parent = none then
    some (k, -einval)
  else
    match k.kfioInfoAllocNode type name malloc with
    | none => some (k, -enomem)
    | some (k, n) =>
      match typeSize size type with
      | none => some (k.kfioInfoFreeNode n, -einval)
      | some size => (k.modify n fun node => { node with mode := mode, size := size }).insertOrFree parent n proc

/-- The common body of `kfio_info_create_seqf` and `kfio_info_create_text`. -/
def createFile (type : InfoType) (k : Kinfo) (parent : Option Nat) (name : CStr) (mode : Nat) (malloc : Option Nat)
    (proc : Bool) : Option (Kinfo × Int) :=
  if parent = none then
    some (k, -einval)
  else
    match k.kfioInfoAllocNode type name malloc with
    | none => some (k, -enomem)
    | some (k, n) => (k.modify n fun node => { node with mode := mode }).insertOrFree parent n proc

def kfioInfoCreateSeqf : Kinfo → Option Nat → CStr → Nat → Option Nat → Bool → Option (Kinfo × Int) :=
  createFile .seqfile

def kfioInfoCreateText : Kinfo → Option Nat → CStr → Nat → Option Nat → Bool → Option (Kinfo × Int) :=
  createFile .text

/-- Nothing comes back where an assertion fails. -/
def kfioInfoOsRemoveNode (k : Kinfo) (parent : Option Nat) (n : Nat) : Option Kinfo :=
  match k.nodes n with
  | none => none
  | some node =>
    if node.osPriv = none then
      some k
    else
      let cleared := k.modify n fun node => { node with osPriv := none }
      match parent with
      | none =>
        if node.type = .dir then some { cleared with procfs := k.procfs.erase ([], node.name) } else none
      | some p =>
        (cleared.osPrivOf p).map fun dir => { cleared with procfs := k.procfs.erase (dir, node.name) }

/-- `fusion_list_del`: the node leaves the list it is on. -/
def listDel (k : Kinfo) (n : Nat) : Kinfo :=
  { k with nodes := fun i => (k.nodes i).map fun node => { node with subnodes := node.subnodes.erase n } }

/-- The backend knows nothing about the root. -/
def kfioInfoUnlinkNode (k : Kinfo) (n : Nat) : Option Kinfo :=
  match k.nodes n with
  | none => none
  | some node =>
    (k.kfioInfoOsRemoveNode (if node.parent = some k.root then none else node.parent) n).map fun k =>
      if node.parent = none then k else (k.listDel n).modify n fun node => { node with parent := none }

/-- The inner loop of `kfio_info_remove_node` in the directory `parent`, up to the
point where the outer one is left. -/
def removeLoop (stop : Option Nat) : Nat → Kinfo → Nat → Option Kinfo
  | 0, _, _ => none
  | fuel + 1, k, parent =>
    match k.subnodesOf parent with
    | child :: _ =>
      if k.isDir child then
        removeLoop stop fuel k child
      else
        (k.kfioInfoUnlinkNode child).bind fun k => removeLoop stop fuel (k.kfioInfoFreeNode child) parent
    | [] =>
      match (k.nodes parent).bind InfoNode.parent with
      | none => none
      | some up =>
        (k.kfioInfoUnlinkNode parent).bind fun k =>
          let k := k.kfioInfoFreeNode parent
          if some up = stop then some k else removeLoop stop fuel k up

/-- Enough rounds for the loop: each one goes down a level or frees a node. -/
def rounds (k : Kinfo) : Nat := (k.live.map fun n => ((k.osPrivOf n).elim 0 List.length) + 1).sum

def kfioInfoRemoveNode (k : Kinfo) (nodep : Option Nat) : Option Kinfo :=
  match nodep with
  | none => some k
  | some n =>
    match k.nodes n with
    | none => none
    | some node =>
      if node.type = .dir then
        if some n = node.parent then some k else removeLoop node.parent k.rounds k n
      else
        (k.kfioInfoUnlinkNode n).map fun k => k.kfioInfoFreeNode n

end Kinfo

/-- A call to the kinfo tree, with the memory it gets and what procfs says. -/
inductive KinfoAction
  | createDir (parent : Option Nat) (name : CStr) (malloc : Option Nat) (proc : Bool)
  | createProc (parent : Option Nat) (name : CStr) (type : InfoType) (mode size : Nat) (malloc : Option Nat)
      (proc : Bool)
  | createSeqf (parent : Option Nat) (name : CStr) (mode : Nat) (malloc : Option Nat) (proc : Bool)
  | createText (parent : Option Nat) (name : CStr) (mode : Nat) (malloc : Option Nat) (proc : Bool)
  | removeNode (nodep : Option Nat)
  deriving DecidableEq, Repr

namespace KinfoAction

def parent : KinfoAction → Option Nat
  | .createDir parent .. | .createProc parent .. | .createSeqf parent .. | .createText parent .. => parent
  | .removeNode _ => none

def name : KinfoAction → Option CStr
  | .createDir _ name .. | .createProc _ name .. | .createSeqf _ name .. | .createText _ name .. => some name
  | .removeNode _ => none

def malloc : KinfoAction → Option Nat
  | .createDir _ _ malloc _ | .createProc _ _ _ _ _ malloc _ | .createSeqf _ _ _ malloc _
  | .createText _ _ _ malloc _ => malloc
  | .removeNode _ => none

def removed : KinfoAction → Option Nat
  | .removeNode nodep => nodep
  | _ => none

end KinfoAction

namespace Kinfo

/-- What a create call does, with its result. -/
def create (k : Kinfo) : KinfoAction → Option (Kinfo × Int)
  | .createDir parent name malloc proc => k.kfioInfoCreateDir parent name malloc proc
  | .createProc parent name type mode size malloc proc => k.kfioInfoCreateProc parent name type mode size malloc proc
  | .createSeqf parent name mode malloc proc => k.kfioInfoCreateSeqf parent name mode malloc proc
  | .createText parent name mode malloc proc => k.kfioInfoCreateText parent name mode malloc proc
  | .removeNode _ => none

/-- A call, which reports the result of a create. -/
def step (k : Kinfo) : KinfoAction → Option (Kinfo × List Int)
  | .removeNode nodep => (k.kfioInfoRemoveNode nodep).map fun k => (k, [])
  | action => (k.create action).map fun (k, rc) => (k, [rc])

/-- The nodes that are named exist, memory is not given out twice, and a name is
one component of a path. -/
structure Live (k : Kinfo) (action : KinfoAction) : Prop where
  parent : ∀ p ∈ action.parent, (k.nodes p).isSome = true
  removed : ∀ n ∈ action.removed, (k.nodes n).isSome = true
  malloc : ∀ n ∈ action.malloc, k.nodes n = none
  name : ∀ name ∈ action.name, 47 ∉ name.bytes

/-- The call meets the assertions: a parent is a directory, and the root is not removed. -/
structure Legal (k : Kinfo) (action : KinfoAction) : Prop where
  parent : ∀ p ∈ action.parent, k.isDir p = true
  removed : k.root ∉ action.removed

end Kinfo

/-- The runs of calls after `kfio_info_driver_init`. -/
abbrev KinfoReach (root : Nat) (name : CStr) : Kinfo → List Int → Prop :=
  Transition.Reach Kinfo.step Kinfo.Live (Kinfo.initial root name)

end IomemoryVsl
