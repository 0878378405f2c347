import IomemoryVsl.ByteMemory
import IomemoryVsl.ScatterBytes

namespace IomemoryVsl

open ByteMemory

/-- The bytes of all pages. What `kmap_atomic` maps is one page, so a place behind its
end is no byte of another page. -/
abbrev PageMemory := Nat × Nat → UInt8

/-- Where `kfio_sgl_copy_data` stands in one of its lists: the scatterlist, as an
index, and the offset in its page. -/
structure SglCursor where
  sl : Nat
  sgeOff : BitVec 32
  deriving DecidableEq, Repr

/-- `kfio_memcpy`, byte by byte. -/
def kfioMemcpy (mem : PageMemory) (dst src : Nat × Nat) (n : Nat) : PageMemory :=
  copyAll mem ((List.range n).map fun k => ((dst.1, dst.2 + k), (src.1, src.2 + k)))

/-- `MIN` of an `int` and a `uint32_t`, which compares them as unsigned. -/
def minUnsigned (a b : BitVec 32) : BitVec 32 := if a < b then a else b

/-- The bytes of one round. The rest of an entry is its length less the offset in the page. -/
def subLength (dst src : LinuxSgl) (ldst lsrc : SglCursor) (length : BitVec 32) : BitVec 32 :=
  let sub := minUnsigned length ((dst.sl ldst.sl).length - ldst.sgeOff)
  minUnsigned sub ((src.sl lsrc.sl).length - lsrc.sgeOff)

/-- The cursor behind some bytes. It goes on to the next scatterlist where its offset is
the length of the one it is in. -/
def SglCursor.advance (sgl : LinuxSgl) (cursor : SglCursor) (sub : BitVec 32) : SglCursor :=
  let sgeOff := cursor.sgeOff + sub
  if sgeOff = (sgl.sl cursor.sl).length then ⟨cursor.sl + 1, (sgl.sl (cursor.sl + 1)).offset⟩
  else ⟨cursor.sl, sgeOff⟩

structure CopyState where
  ldst : SglCursor
  lsrc : SglCursor
  length : BitVec 32
  mem : PageMemory

/-- One round of the loop. `sub_length` is an `int` that becomes a `size_t`. -/
def copyRound (dst src : LinuxSgl) (s : CopyState) : CopyState :=
  let sub := subLength dst src s.ldst s.lsrc s.length
  { ldst := s.ldst.advance dst sub
    lsrc := s.lsrc.advance src sub
    length := s.length - sub
    mem := kfioMemcpy s.mem ((dst.sl s.ldst.sl).page, s.ldst.sgeOff.toNat)
      ((src.sl s.lsrc.sl).page, s.lsrc.sgeOff.toNat) (sub.signExtend 64).toNat }

/-- The loop, if it ends within the given number of rounds. -/
def copyLoop (dst src : LinuxSgl) : Nat → CopyState → Option CopyState
  | 0, _ => none
  | rounds + 1, s => if s.length = 0#32 then some s else copyLoop dst src rounds (copyRound dst src s)

/-- The cursor at the start of a list. -/
def LinuxSgl.begin (sgl : LinuxSgl) : SglCursor := ⟨0, (sgl.sl 0).offset⟩

def kfioSglCopyData (dst src : LinuxSgl) (length : BitVec 32) (rounds : Nat) (mem : PageMemory) :
    Option (CopyState × Int) :=
  let s : CopyState := ⟨dst.begin, src.begin, length, mem⟩
  if length > dst.sglSize ∨ length > src.sglSize then some (s, -efault)
  else (copyLoop dst src rounds s).map fun last => (last, 0)

/-- The first `length` bytes are copied, and nothing else is changed. Neither cursor
moves past the last entry. -/
structure CopiedPrefix (dst src : LinuxSgl) (length : Nat) (mem : PageMemory) (last : CopyState) : Prop where
  ldst : last.ldst.sl ≤ dst.numEntries.toNat - 1
  lsrc : last.lsrc.sl ≤ src.numEntries.toNat - 1
  copied : ∀ i < length, ∀ d s, dst.bytes[i]? = some d → src.bytes[i]? = some s → last.mem d = mem s
  other : ∀ place, place ∉ dst.bytes.take length → last.mem place = mem place

/-- The call comes to an end. Too long a prefix is refused and changes nothing, any
other one is copied. -/
def CopiesPrefix (dst src : LinuxSgl) (length : BitVec 32) : Prop :=
  ∀ mem, ∃ rounds last rc, kfioSglCopyData dst src length rounds mem = some (last, rc) ∧
    (length > dst.sglSize ∨ length > src.sglSize → rc = -efault ∧ last.mem = mem) ∧
    (¬(length > dst.sglSize ∨ length > src.sglSize) → rc = 0 ∧ CopiedPrefix dst src length.toNat mem last)

/-- The entries from one on. -/
def LinuxSgl.entriesFrom (sgl : LinuxSgl) (i : Nat) : List Scatterlist :=
  (List.range' i (sgl.numEntries.toNat - i)).map sgl.sl

/-- The code takes the right bytes from these entries: it does not reach the place
where it takes an entry for exhausted, or there is one more entry and it either stops
there or stands at the end of an entry that starts at offset 0. -/
def CopyFits : List Scatterlist → Nat → Prop
  | [], length => length = 0
  | entry :: rest, length =>
    length = 0 ∨
    entry.length < entry.offset ∧ length ≤ entry.length.toNat ∨
    length + entry.offset.toNat < entry.length.toNat ∨
    length + entry.offset.toNat = entry.length.toNat ∧ rest ≠ [] ∨
    entry.offset = 0#32 ∧ entry.length.toNat ≤ length ∧ rest ≠ [] ∧ CopyFits rest (length - entry.length.toNat)

instance : (entries : List Scatterlist) → (length : Nat) → Decidable (CopyFits entries length)
  | [], length => inferInstanceAs (Decidable (length = 0))
  | entry :: rest, length =>
    have : Decidable (CopyFits rest (length - entry.length.toNat)) := instDecidableCopyFits rest _
    inferInstanceAs (Decidable (length = 0 ∨
      entry.length < entry.offset ∧ length ≤ entry.length.toNat ∨
      length + entry.offset.toNat < entry.length.toNat ∨
      length + entry.offset.toNat = entry.length.toNat ∧ rest ≠ [] ∨
      entry.offset = 0#32 ∧ entry.length.toNat ≤ length ∧ rest ≠ [] ∧ CopyFits rest (length - entry.length.toNat)))

/-- The call is refused, or it takes the right bytes from both lists. -/
def CopyGoes (dst src : LinuxSgl) (length : BitVec 32) : Prop :=
  length > dst.sglSize ∨ length > src.sglSize ∨
    CopyFits (dst.entriesFrom 0) length.toNat ∧ CopyFits (src.entriesFrom 0) length.toNat

instance (dst src : LinuxSgl) (length : BitVec 32) : Decidable (CopyGoes dst src length) :=
  inferInstanceAs (Decidable (length > dst.sglSize ∨ length > src.sglSize ∨
    CopyFits (dst.entriesFrom 0) length.toNat ∧ CopyFits (src.entriesFrom 0) length.toNat))

section Rounds

variable {dst src : LinuxSgl}

/-- The bytes of all rounds, if the loop ends within the given number of them. -/
def copySubs (dst src : LinuxSgl) : Nat → SglCursor → SglCursor → BitVec 32 → Option (List (BitVec 32))
  | 0, _, _, _ => none
  | rounds + 1, ldst, lsrc, length =>
    if length = 0#32 then some []
    else
      let sub := subLength dst src ldst lsrc length
      (copySubs dst src rounds (ldst.advance dst sub) (lsrc.advance src sub) (length - sub)).map (sub :: ·)

/-- The places that one round goes through: the entry and the place in its page. -/
def SglCursor.piece (cursor : SglCursor) (sub : BitVec 32) : List (Nat × Nat) :=
  (List.range (sub.signExtend 64).toNat).map fun k => (cursor.sl, cursor.sgeOff.toNat + k)

def walk (sgl : LinuxSgl) : SglCursor → List (BitVec 32) → List (Nat × Nat)
  | _, [] => []
  | cursor, sub :: subs => cursor.piece sub ++ walk sgl (cursor.advance sgl sub) subs

def SglCursor.after (sgl : LinuxSgl) (cursor : SglCursor) (subs : List (BitVec 32)) : SglCursor :=
  subs.foldl (SglCursor.advance sgl) cursor

/-- The byte of memory at a place of an entry. -/
def LinuxSgl.address (sgl : LinuxSgl) (place : Nat × Nat) : Nat × Nat := ((sgl.sl place.1).page, place.2)

/-- The bytes that are copied, with those that they are copied from. -/
def copyPairs (dst src : LinuxSgl) (ldst lsrc : SglCursor) (subs : List (BitVec 32)) :
    List ((Nat × Nat) × (Nat × Nat)) :=
  ((walk dst ldst subs).map dst.address).zip ((walk src lsrc subs).map src.address)

theorem SglCursor.piece_length (cursor : SglCursor) (sub : BitVec 32) :
    (cursor.piece sub).length = (sub.signExtend 64).toNat := by
  rw [SglCursor.piece, List.length_map, List.length_range]

theorem kfioMemcpy_eq (mem : PageMemory) (ldst lsrc : SglCursor) (sub : BitVec 32) :
    kfioMemcpy mem ((dst.sl ldst.sl).page, ldst.sgeOff.toNat) ((src.sl lsrc.sl).page, lsrc.sgeOff.toNat)
        (sub.signExtend 64).toNat =
      copyAll mem (((ldst.piece sub).map dst.address).zip ((lsrc.piece sub).map src.address)) := by
  rw [kfioMemcpy, SglCursor.piece, SglCursor.piece, List.map_map, List.map_map, List.zip_map']
  rfl

theorem copyPairs_cons (ldst lsrc : SglCursor) (sub : BitVec 32) (subs : List (BitVec 32)) :
    copyPairs dst src ldst lsrc (sub :: subs) =
      ((ldst.piece sub).map dst.address).zip ((lsrc.piece sub).map src.address) ++
        copyPairs dst src (ldst.advance dst sub) (lsrc.advance src sub) subs := by
  rw [copyPairs, walk, walk, List.map_append, List.map_append, List.zip_append, copyPairs]
  rw [List.length_map, List.length_map, SglCursor.piece_length, SglCursor.piece_length]

/-- What the loop does depends on the two lists alone. -/
theorem copyLoop_eq (rounds : Nat) (s : CopyState) : copyLoop dst src rounds s =
    (copySubs dst src rounds s.ldst s.lsrc s.length).map fun subs =>
      ⟨s.ldst.after dst subs, s.lsrc.after src subs, 0#32,
        copyAll s.mem (copyPairs dst src s.ldst s.lsrc subs)⟩ := by
  induction rounds generalizing s with
  | zero => rfl
  | succ rounds ih =>
    rw [copyLoop, copySubs]
    split
    · rename_i done
      rw [Option.map_some, ← done]
      rfl
    · rw [ih, copyRound]
      dsimp only
      cases copySubs dst src rounds _ _ _ with
      | none => rfl
      | some subs =>
        rw [Option.map_some, Option.map_some, Option.map_some, copyPairs_cons, copyAll_append, kfioMemcpy_eq]
        rfl

theorem copySubs_mono {rounds more : Nat} {ldst lsrc : SglCursor} {length : BitVec 32} {subs : List (BitVec 32)}
    (ran : copySubs dst src rounds ldst lsrc length = some subs) :
    copySubs dst src (rounds + more) ldst lsrc length = some subs := by
  induction rounds generalizing ldst lsrc length subs with
  | zero => cases ran
  | succ rounds ih =>
    rw [Nat.succ_add, copySubs]
    rw [copySubs] at ran
    split at ran
    · rename_i done
      rw [if_pos done]
      exact ran
    · rename_i more
      rw [if_neg more]
      obtain ⟨rest, onward, same⟩ := Option.map_eq_some_iff.mp ran
      dsimp only
      rw [ih onward, Option.map_some, same]

/-- Each round takes some of the remaining bytes, and no more than the cursor says
are left in the entry. -/
def Steps (sgl : LinuxSgl) : SglCursor → BitVec 32 → List (BitVec 32) → Prop
  | _, length, [] => length = 0#32
  | cursor, length, sub :: subs =>
    length ≠ 0#32 ∧ sub ≤ length ∧ sub ≤ (sgl.sl cursor.sl).length - cursor.sgeOff ∧
      Steps sgl (cursor.advance sgl sub) (length - sub) subs

theorem subLength_le (dst src : LinuxSgl) (ldst lsrc : SglCursor) (length : BitVec 32) :
    subLength dst src ldst lsrc length ≤ length ∧
      subLength dst src ldst lsrc length ≤ (dst.sl ldst.sl).length - ldst.sgeOff ∧
      subLength dst src ldst lsrc length ≤ (src.sl lsrc.sl).length - lsrc.sgeOff := by
  have least (a b : BitVec 32) : minUnsigned a b ≤ a ∧ minUnsigned a b ≤ b := by
    unfold minUnsigned
    split
    · rename_i below
      exact ⟨BitVec.le_refl a, BitVec.le_of_lt below⟩
    · rename_i above
      exact ⟨BitVec.not_lt.mp above, BitVec.le_refl b⟩
  have first := least length ((dst.sl ldst.sl).length - ldst.sgeOff)
  have second := least (minUnsigned length ((dst.sl ldst.sl).length - ldst.sgeOff))
    ((src.sl lsrc.sl).length - lsrc.sgeOff)
  exact ⟨BitVec.le_trans second.1 first.1, BitVec.le_trans second.1 first.2, second.2⟩

/-- A round takes no byte only where one of the entries has none left. -/
theorem subLength_zero {ldst lsrc : SglCursor} {length : BitVec 32} (more : length ≠ 0#32)
    (none : subLength dst src ldst lsrc length = 0#32) :
    (dst.sl ldst.sl).length - ldst.sgeOff = 0#32 ∨ (src.sl lsrc.sl).length - lsrc.sgeOff = 0#32 := by
  have pick (a b : BitVec 32) : minUnsigned a b = a ∨ minUnsigned a b = b := by
    unfold minUnsigned
    split
    · exact .inl rfl
    · exact .inr rfl
  rw [subLength] at none
  rcases pick (minUnsigned length ((dst.sl ldst.sl).length - ldst.sgeOff)) ((src.sl lsrc.sl).length - lsrc.sgeOff)
    with outer | outer
  · rw [outer] at none
    rcases pick length ((dst.sl ldst.sl).length - ldst.sgeOff) with inner | inner
    · exact absurd (inner.symm.trans none) more
    · exact .inl (inner.symm.trans none)
  · exact .inr (outer.symm.trans none)

theorem copySubs_steps {rounds : Nat} {ldst lsrc : SglCursor} {length : BitVec 32} {subs : List (BitVec 32)}
    (ran : copySubs dst src rounds ldst lsrc length = some subs) :
    Steps dst ldst length subs ∧ Steps src lsrc length subs := by
  induction rounds generalizing ldst lsrc length subs with
  | zero => cases ran
  | succ rounds ih =>
    rw [copySubs] at ran
    split at ran
    · rename_i done
      cases ran
      exact ⟨done, done⟩
    · rename_i more
      obtain ⟨rest, onward, rfl⟩ := Option.map_eq_some_iff.mp ran
      obtain ⟨whole, left, right⟩ := subLength_le dst src ldst lsrc length
      obtain ⟨first, second⟩ := ih onward
      exact ⟨⟨more, whole, left, first⟩, more, whole, right, second⟩

end Rounds

end IomemoryVsl
