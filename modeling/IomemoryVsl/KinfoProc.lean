import IomemoryVsl.ByteMemory
import IomemoryVsl.Decimal
import IomemoryVsl.Errno

namespace IomemoryVsl

open ByteMemory

/-- The types `KFIO_INFO_INT32`, `KFIO_INFO_UINT32` and `KFIO_INFO_UINT64`. -/
inductive NumType
  | int32
  | uint32
  | uint64
  deriving DecidableEq, Repr

def NumType.bits : NumType → Nat
  | .int32 => 32
  | .uint32 => 32
  | .uint64 => 64

/-- The types of nodes that have a value, with the size of a string. -/
inductive ValueType
  | num (type : NumType)
  | string (size : Nat)
  deriving DecidableEq, Repr

/-- The value of a node: a number of its width, or as many bytes as its size says. -/
abbrev ValueType.Data : ValueType → Type
  | .num type => BitVec type.bits
  | .string size => { bytes : List UInt8 // bytes.length = size }

/-- A handler for `KFIO_INFO_READ` and `KFIO_INFO_WRITE`. The second one is given the old data and
the new value, and both return an error number with the value or the data. -/
structure TypeHandler (type : ValueType) where
  read : type.Data → Int × type.Data
  write : type.Data → type.Data → Int × type.Data

/-- What procfs uses of a `struct kfio_info_node` with a value. -/
structure TypedNode (type : ValueType) where
  data : type.Data
  typeHandler : Option (TypeHandler type)

/-- The default handler: the size of the value is that of the node. -/
def kfioInfoHandleCmd (type : ValueType) : TypeHandler type where
  read data := (0, data)
  write _ value := (0, value)

def TypedNode.kfioInfoGenericTypeHandler {type : ValueType} (node : TypedNode type) : TypeHandler type :=
  node.typeHandler.getD (kfioInfoHandleCmd type)

/-- The size of `local_buf`. -/
def localBufSize : Nat := 32

section Parsing

/-- The number and where it ends, for base 10. -/
def kfioStrtoull (s : List UInt8) : BitVec 64 × Nat :=
  (BitVec.ofNat 64 (Decimal.value (Decimal.digits s)), (Decimal.digits s).length)

def kfioStrtoul (s : List UInt8) : BitVec 64 × Nat := kfioStrtoull s

/-- A minus sign may come first. -/
def kfioStrtol : List UInt8 → BitVec 64 × Nat
  | 45 :: rest => (-(kfioStrtoul rest).1, (kfioStrtoul rest).2 + 1)
  | s => kfioStrtoul s

/-- The parser of each type. -/
def NumType.parse : NumType → List UInt8 → BitVec 64 × Nat
  | .int32 => kfioStrtol
  | .uint32 => kfioStrtoul
  | .uint64 => kfioStrtoull

/-- What is printed with `%d`, `%lu` and `%llu`, and a newline. -/
def NumType.print : (type : NumType) → BitVec type.bits → List UInt8
  | .int32, v => (if v.toInt < 0 then [45] else []) ++ Decimal.text v.toInt.natAbs ++ [10]
  | .uint32, v => Decimal.text v.toNat ++ [10]
  | .uint64, v => Decimal.text v.toNat ++ [10]

/-- Prints into a buffer of `n` bytes at address `a`, with a NUL behind what fits. -/
def kfioVsnprintf (mem : Nat → UInt8) (a n : Nat) (text : List UInt8) : (Nat → UInt8) × Nat :=
  (if n = 0 then mem else memcpy mem a (text.take (n - 1) ++ [0]), text.length)

/-- Prints into a buffer at the start of the memory. -/
def kfioSnprintf (mem : Nat → UInt8) (n : Nat) (text : List UInt8) : (Nat → UInt8) × Nat := kfioVsnprintf mem 0 n text

end Parsing

section Reading

/-- The bytes that cannot be copied are the last `uncopied` ones. The result has their number and
the indices of those that are copied. -/
def kfioCopyToUser (index : Nat) (len : BitVec 32) (uncopied : Nat) : BitVec 32 × List Nat :=
  (BitVec.ofNat 32 (min uncopied len.toNat), List.range' index (len.toNat - min uncopied len.toNat))

/-- What a read returns, the new position, and the bytes of the local buffer that it copies
to the user, as indices. -/
structure BufferRead where
  ret : BitVec 64
  ppos : BitVec 64
  copied : List Nat
  deriving DecidableEq, Repr

/-- The length is compared with the count as an unsigned number. -/
def fioProcReadBuffer (len count ppos : BitVec 64) (uncopied : Nat) : BufferRead :=
  let len := len - ppos
  let len := if count < len then count else len
  if BitVec.slt 0#64 len then
    let (result, copied) := kfioCopyToUser ppos.toNat (len.setWidth 32) uncopied
    if result = 0#32 then
      ⟨len, ppos + len, copied⟩
    else
      ⟨result.signExtend 64, ppos, copied⟩
  else
    ⟨len, ppos, []⟩

/-- What a read of a node returns, the new position, and the bytes that the user gets. -/
structure NodeRead where
  ret : Int
  ppos : BitVec 64
  bytes : List UInt8
  deriving DecidableEq, Repr

/-- `mem` is the memory from the buffer on, and `rc` is an `int`. -/
def NodeRead.ofBuffer (mem : Nat → UInt8) (r : BufferRead) : NodeRead :=
  ⟨(r.ret.setWidth 32).toInt, r.ppos, r.copied.map mem⟩

/-- `mem` is the memory from `local_buf` or the allocated buffer on before the call, and `vmalloc`
says whether there is memory for a buffer. -/
def kfioInfoOsTypeRead : {type : ValueType} → TypedNode type → (count ppos : BitVec 64) → (uncopied : Nat) →
    (vmalloc : Bool) → (mem : Nat → UInt8) → NodeRead
  | .string size, node, count, ppos, uncopied, vmalloc, mem =>
    if localBufSize < size ∧ vmalloc = false then
      ⟨-enomem, ppos, []⟩
    else
      let (rc, value) := node.kfioInfoGenericTypeHandler.read node.data
      if rc = 0 then
        .ofBuffer (memcpy mem 0 value.val) (fioProcReadBuffer (BitVec.ofNat 64 size) count ppos uncopied)
      else
        ⟨rc, ppos, []⟩
  | .num type, node, count, ppos, uncopied, _, mem =>
    let (rc, val) := node.kfioInfoGenericTypeHandler.read node.data
    if rc = 0 then
      let (mem, len) := kfioSnprintf mem localBufSize (type.print val)
      .ofBuffer mem (fioProcReadBuffer (BitVec.ofNat 64 len) count ppos uncopied)
    else
      ⟨rc, ppos, []⟩

end Reading

section Writing

/-- What a write depends on besides the user's bytes and the buffer: how many bytes cannot be copied,
whether there is memory for a buffer, and what stands in memory behind `local_buf`, up to where
it ends. -/
structure WriteEnv where
  uncopied : Nat
  vmalloc : Bool
  behind : List UInt8
  behind_lt : behind.length < 2 ^ 63
  deriving DecidableEq, Repr

/-- The size of the buffer: `local_buf`, or memory for a longer string. -/
def ValueType.bufferSize : ValueType → Nat
  | .num _ => localBufSize
  | .string size => if localBufSize < size then size else localBufSize

/-- The length is cut to 32 bits. The result has the number of bytes that were not copied, and the
buffer when that is 0. -/
def kfioCopyFromUser (buffer user : List UInt8) (uncopied : Nat) : Int × List UInt8 :=
  let len := user.length % 2 ^ 32
  ((BitVec.ofNat 32 (min uncopied len)).toInt, user.take len ++ buffer.drop len)

/-- The node after a write, what the write returns, and the new position. -/
structure NodeWrite (type : ValueType) where
  node : TypedNode type
  ret : Int
  ppos : BitVec 64

/-- Gives a value to the handler, after `count` bytes were copied. -/
def TypedNode.writeValue {type : ValueType} (node : TypedNode type) (value : type.Data) (count : Nat)
    (ppos : BitVec 64) : NodeWrite type :=
  let (rc, data) := node.kfioInfoGenericTypeHandler.write node.data value
  ⟨{ node with data := data }, if rc ≠ 0 then -eio else count, ppos⟩

/-- `user` are the bytes that the user passes, `count` of them, and `buffer` is what stands in the buffer
before the call. The end of a number is compared with `count - 1` as an unsigned number. -/
def kfioInfoOsTypeWrite : {type : ValueType} → TypedNode type → (user : List UInt8) → (ppos : BitVec 64) →
    (env : WriteEnv) → (buffer : List UInt8) → NodeWrite type
  | .string size, node, user, ppos, env, buffer =>
    if localBufSize < size ∧ env.vmalloc = false then
      ⟨node, -enomem, ppos⟩
    else if size < user.length then
      ⟨node, -einval, ppos⟩
    else
      let (rc, buffer) := kfioCopyFromUser buffer user env.uncopied
      if rc ≠ 0 then
        ⟨node, rc, ppos⟩
      else
        node.writeValue ⟨buffer.takeD size 0, List.takeD_length size buffer 0⟩ user.length
          (ppos + BitVec.ofNat 64 user.length)
  | .num type, node, user, ppos, env, buffer =>
    if localBufSize < user.length then
      ⟨node, -einval, ppos⟩
    else
      let (rc, buffer) := kfioCopyFromUser buffer user env.uncopied
      if rc ≠ 0 then
        ⟨node, rc, ppos⟩
      else
        let ppos := ppos + BitVec.ofNat 64 user.length
        let (val, endp) := type.parse (buffer ++ env.behind)
        if endp < (user.length + (2 ^ 64 - 1)) % 2 ^ 64 then
          ⟨node, -einval, ppos⟩
        else
          node.writeValue (val.setWidth type.bits) user.length ppos

end Writing

end IomemoryVsl
