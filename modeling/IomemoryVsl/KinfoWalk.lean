import IomemoryVsl.KinfoPath

namespace IomemoryVsl

open ByteMemory

/-- The buffer of a `struct kfio_info_data`, as an address, and its sizes. -/
structure DataHandle where
  buffer : Nat
  maxSize : Nat
  curSize : Nat
  totSize : Nat
  deriving DecidableEq, Repr

def kfioInfoResetDataHandle (data size : Nat) : DataHandle := ⟨data, size, 0, 0⟩

/-- `data` are the bytes that are written, `size` of them. -/
def kfioInfoWrite (mem : Nat → UInt8) (dbh : DataHandle) (data : List UInt8) : (Nat → UInt8) × DataHandle × Nat :=
  let size := data.length
  let avail := dbh.maxSize - dbh.curSize
  let avail := if size < avail then size else avail
  (memcpy mem (dbh.buffer + dbh.curSize) (data.take avail),
    { dbh with totSize := dbh.totSize + size, curSize := dbh.curSize + avail }, avail)

def kfioInfoMaxFullpathlen : Nat := 256

/-- The bytes from an address on. -/
def bytesAt (mem : Nat → UInt8) (a n : Nat) : List UInt8 := (List.range n).map fun i => mem (a + i)

/-- The entries of a list behind a cursor, which stands at the head of the list or at
one of its entries. -/
def entriesBehind (list : List Nat) : Option Nat → List Nat
  | none => list
  | some c => (list.dropWhile (· ≠ c)).tail

/-- `entry->next`, or nothing when that is the head of the list. -/
def nextEntry (list : List Nat) (entry : Option Nat) : Option Nat := (entriesBehind list entry).head?

/-- The variables of `kfio_info_node_walk_tree` with the memory and the data handle. -/
structure WalkState where
  parent : Nat
  entry : Option Nat
  parentPathlen : Nat
  mem : Nat → UInt8
  dbh : DataHandle

namespace WalkState

/-- Goes on with the first entry of a directory, whose name is appended to the path. -/
def down (s : WalkState) (parentPath nodep : Nat) (name : CStr) : WalkState :=
  let newPathlen := name.strlen + 1
  let mem := memcpy s.mem (parentPath + s.parentPathlen) (name.bytes ++ [0])
  let len := s.parentPathlen + newPathlen
  let mem := Function.update mem (parentPath + (len - 1)) 46
  { s with parent := nodep, entry := none, parentPathlen := len, mem := Function.update mem (parentPath + len) 0 }

/-- Goes on behind the directory that comes to its end, whose name is cut off the path.
The length of the path does not go below 0, as in the code. -/
def up (s : WalkState) (parentPath parent : Nat) (name : CStr) : WalkState :=
  let len := s.parentPathlen - (name.strlen + 1)
  { s with
    parent := parent
    entry := some s.parent
    parentPathlen := len
    mem := Function.update s.mem (parentPath + len) 0 }

/-- Writes the path and the name of a value. -/
def write (s : WalkState) (parentPath nodep : Nat) (name : CStr) : WalkState :=
  let (mem, dbh, _) := kfioInfoWrite s.mem s.dbh (bytesAt s.mem parentPath s.parentPathlen)
  let (mem, dbh, _) := kfioInfoWrite mem dbh (name.bytes ++ [0])
  { s with entry := some nodep, mem := mem, dbh := dbh }

end WalkState

namespace Kinfo

/-- The loop of `kfio_info_node_walk_tree`, if it ends within the given number of rounds. -/
def walkLoop (k : Kinfo) (startnode parentPath : Nat) : Nat → WalkState → Option WalkState
  | 0, _ => none
  | fuel + 1, s =>
    match nextEntry (k.subnodesOf s.parent) s.entry with
    | none =>
      if s.parent = startnode then
        some s
      else
        (k.nodes s.parent).bind fun dir =>
          dir.parent.bind fun parent => walkLoop k startnode parentPath fuel (s.up parentPath parent dir.name)
    | some nodep =>
      (k.nodes nodep).bind fun node =>
        if node.type = .dir then
          if s.parentPathlen + (node.name.strlen + 1) ≥ kfioInfoMaxFullpathlen then
            walkLoop k startnode parentPath fuel { s with entry := some nodep }
          else
            walkLoop k startnode parentPath fuel (s.down parentPath nodep node.name)
        else
          walkLoop k startnode parentPath fuel (s.write parentPath nodep node.name)

/-- The result is the memory and the data handle with the value that is returned. -/
def kfioInfoNodeWalkTree (k : Kinfo) (fuel topnode : Nat) (startnode : Option Nat) (dbh : DataHandle)
    (mem : Nat → UInt8) (parentPath : Nat) : Option ((Nat → UInt8) × DataHandle × Int) :=
  match startnode with
  | none => some (mem, dbh, -einval)
  | some start =>
    if k.isDir start then
      (k.kfioInfoNodePathname fuel topnode start mem parentPath (kfioInfoMaxFullpathlen - 1)).bind
        fun (mem, retval) =>
          if retval < 0 then
            some (mem, dbh, retval)
          else
            let len := retval.toNat
            let s : WalkState :=
              if len > 0 then
                let mem := Function.update mem (parentPath + len) 46
                ⟨start, none, len + 1, Function.update mem (parentPath + (len + 1)) 0, dbh⟩
              else
                ⟨start, none, len, mem, dbh⟩
            (k.walkLoop start parentPath fuel s).map fun s => (s.mem, s.dbh, 0)
    else
      some (mem, dbh, -einval)

/-- The paths of the values among some entries and below them, from the path of their
directory on. Nothing is listed below a directory whose names with their dots take too
much room. -/
def listing (k : Kinfo) (path : ProcPath) : List Nat → List ProcPath
  | [] => []
  | c :: rest =>
    match k.nodes c with
    | none => listing k path rest
    | some node =>
      if node.type = .dir then
        if pathSize (path ++ [node.name]) < kfioInfoMaxFullpathlen then
          listing k (path ++ [node.name]) node.subnodes ++ listing k path rest
        else
          listing k path rest
      else
        (path ++ [node.name]) :: listing k path rest
termination_by entries => (kfioInfoMaxFullpathlen - pathSize path, entries.length)
decreasing_by
  · exact Prod.Lex.right _ (Nat.lt_succ_self _)
  · refine Prod.Lex.left _ _ ?_
    rename_i fits
    rw [pathSize_snoc] at fits ⊢
    omega
  all_goals exact Prod.Lex.right _ (Nat.lt_succ_self _)

end Kinfo

/-- What is written for the listed values: their names with dots between them, and a NUL. -/
def listingBytes (paths : List ProcPath) : List UInt8 := paths.flatMap fun path => (dotted path).dropLast ++ [0]

end IomemoryVsl
