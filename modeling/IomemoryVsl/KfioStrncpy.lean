import IomemoryVsl.ByteMemory
import IomemoryVsl.Kinfo

namespace IomemoryVsl

open ByteMemory

/-- `strlen` over the bytes that can be read. Nothing comes back when it runs past them. -/
def strlen : List UInt8 → Option Nat
  | [] => none
  | c :: src => if c = 0 then some 0 else (strlen src).map (· + 1)

/-- The memory after a copy, and how many bytes of the source, from its first one on, were read for it. -/
structure Copied where
  mem : Nat → UInt8
  reads : Nat

/-- `memcpy_and_pad` of the kernel. -/
def memcpyAndPad (mem : Nat → UInt8) (dst destLen : Nat) (src : List UInt8) (count : Nat) (pad : UInt8) :
    Option Copied :=
  if src.length < min count destLen then none
  else some ⟨memcpy mem dst (src.take (min count destLen) ++ List.replicate (destLen - count) pad), min count destLen⟩

/-- The source is the list of the bytes that can be read from `src` on. -/
def kfioStrncpy (mem : Nat → UInt8) (dst : Nat) (src : List UInt8) (n : Nat) : Option Copied :=
  (strlen src).bind fun length =>
    let len := if length > n then n else length
    (memcpyAndPad mem dst n src len 0).map fun copied => ⟨copied.mem, max (length + 1) copied.reads⟩

/-- The `strncpy` of C, which stops reading at the first NUL. -/
def strncpy (mem : Nat → UInt8) (dst : Nat) : List UInt8 → Nat → Option Copied
  | _, 0 => some ⟨mem, 0⟩
  | [], _ + 1 => none
  | c :: src, n + 1 =>
    if c = 0 then some ⟨memcpy mem dst (List.replicate (n + 1) 0), 1⟩
    else (strncpy (Function.update mem dst c) (dst + 1) src n).map fun copied => ⟨copied.mem, copied.reads + 1⟩

/-- The bytes before the first NUL, at most `n` of them, and NULs up to `n`. -/
def strncpyBytes (src : List UInt8) (n : Nat) : List UInt8 :=
  (src.takeWhile (· ≠ 0)).take n ++ List.replicate (n - (src.takeWhile (· ≠ 0)).length) 0

section Strings

variable {mem : Nat → UInt8} {dst n : Nat} {c : UInt8} {src : List UInt8}

theorem length_strncpyBytes (src : List UInt8) (n : Nat) : (strncpyBytes src n).length = n := by
  rw [strncpyBytes, List.length_append, List.length_take, List.length_replicate]
  omega

theorem takeWhile_nul : (0 :: src).takeWhile (· ≠ 0) = [] := by simp

theorem takeWhile_cons (some : c ≠ 0) : (c :: src).takeWhile (· ≠ 0) = c :: src.takeWhile (· ≠ 0) := by
  simp [some]

theorem strlen_of_mem (nul : 0 ∈ src) : strlen src = some (src.takeWhile (· ≠ 0)).length := by
  induction src with
  | nil => cases nul
  | cons c src ih =>
    rw [strlen]
    by_cases here : c = 0
    · rw [if_pos here, here, takeWhile_nul, List.length_nil]
    · have later : 0 ∈ src := (List.mem_cons.mp nul).resolve_left (Ne.symm here)
      rw [if_neg here, ih later, takeWhile_cons here, Option.map_some, List.length_cons]

theorem strlen_of_notMem (none : 0 ∉ src) : strlen src = .none := by
  induction src with
  | nil => rfl
  | cons c src ih =>
    rw [List.mem_cons, not_or] at none
    rw [strlen, if_neg (Ne.symm none.1), ih none.2, Option.map_none]

/-- The terminator is among the first bytes if the string is shorter. -/
theorem nul_mem_take_iff : 0 ∈ src.take n ↔ 0 ∈ src ∧ (src.takeWhile (· ≠ 0)).length < n := by
  induction src generalizing n with
  | nil => simp
  | cons c src ih =>
    cases n with
    | zero => simp
    | succ n =>
      by_cases here : c = 0
      · rw [here, takeWhile_nul]
        simp
      · rw [List.take_succ_cons, List.mem_cons, List.mem_cons, takeWhile_cons here, ih, List.length_cons,
          Nat.add_lt_add_iff_right, or_iff_right (Ne.symm here), or_iff_right (Ne.symm here)]

theorem strncpyBytes_nul (n : Nat) : strncpyBytes (0 :: src) n = List.replicate n 0 := by
  rw [strncpyBytes, takeWhile_nul, List.take_nil, List.nil_append, List.length_nil, Nat.sub_zero]

theorem strncpyBytes_cons (some : c ≠ 0) (n : Nat) : strncpyBytes (c :: src) (n + 1) = c :: strncpyBytes src n := by
  rw [strncpyBytes, takeWhile_cons some, List.take_succ_cons, List.length_cons, Nat.add_sub_add_right,
    List.cons_append, strncpyBytes]

/-- What `strncpy` stores, and how far it reads. -/
theorem strncpy_eq (readable : 0 ∈ src ∨ n ≤ src.length) :
    strncpy mem dst src n =
      some ⟨memcpy mem dst (strncpyBytes src n), min ((src.takeWhile (· ≠ 0)).length + 1) n⟩ := by
  induction n generalizing mem dst src with
  | zero =>
    have nothing := List.length_eq_zero_iff.mp (length_strncpyBytes src 0)
    rw [nothing, memcpy_nil, Nat.min_zero]
    cases src <;> rfl
  | succ n ih =>
    cases src with
    | nil =>
      rw [List.length_nil] at readable
      exact absurd (readable.resolve_left List.not_mem_nil) (Nat.not_succ_le_zero n)
    | cons c src =>
      rw [strncpy]
      by_cases here : c = 0
      · rw [if_pos here, here, strncpyBytes_nul, takeWhile_nul, List.length_nil, Nat.zero_add,
          Nat.min_eq_left (Nat.le_add_left 1 n)]
      · have rest : 0 ∈ src ∨ n ≤ src.length :=
          readable.imp (fun nul => (List.mem_cons.mp nul).resolve_left (Ne.symm here)) Nat.le_of_succ_le_succ
        rw [if_neg here, ih rest, strncpyBytes_cons here, memcpy_cons, takeWhile_cons here, Option.map_some,
          List.length_cons, Nat.add_min_add_right]

/-- A terminated string is stored as by `strncpy`, but read up to its terminator. -/
theorem kfioStrncpy_eq (nul : 0 ∈ src) :
    kfioStrncpy mem dst src n =
      some ⟨memcpy mem dst (strncpyBytes src n), (src.takeWhile (· ≠ 0)).length + 1⟩ := by
  have before : src.takeWhile (· ≠ 0) <+: src := List.takeWhile_prefix _
  have inside := before.length_le
  have whole := List.prefix_iff_eq_take.mp before
  rw [kfioStrncpy, strlen_of_mem nul, Option.bind_some, strncpyBytes]
  generalize src.takeWhile (· ≠ 0) = word at inside whole
  have len : (if word.length > n then n else word.length) = min word.length n := by
    split <;> omega
  have copied : min (min word.length n) n = min word.length n := by omega
  have pad : n - min word.length n = n - word.length := by omega
  have bytes : src.take (min word.length n) = word.take n := by
    calc src.take (min word.length n) = (src.take word.length).take n := by rw [List.take_take, Nat.min_comm]
      _ = word.take n := by rw [← whole]
  have reads : max (word.length + 1) (min word.length n) = word.length + 1 := by omega
  have fits : ¬ src.length < min word.length n := by omega
  simp only [len, memcpyAndPad, copied, pad, bytes, if_neg fits, Option.map_some, reads]

theorem kfioStrncpy_unterminated (none : 0 ∉ src) : kfioStrncpy mem dst src n = .none := by
  rw [kfioStrncpy, strlen_of_notMem none, Option.bind_none]

/-- The same bytes are in the memory after both functions. -/
def StoresSame (mem : Nat → UInt8) (dst : Nat) (src : List UInt8) (n : Nat) : Prop :=
  ∃ ours theirs, kfioStrncpy mem dst src n = some ours ∧ strncpy mem dst src n = some theirs ∧
    ours.mem = theirs.mem

/-- They store the same, and only bytes that `strncpy` reads are read. -/
def Matches (mem : Nat → UInt8) (dst : Nat) (src : List UInt8) (n : Nat) : Prop :=
  ∃ ours theirs, kfioStrncpy mem dst src n = some ours ∧ strncpy mem dst src n = some theirs ∧
    ours.mem = theirs.mem ∧ ours.reads ≤ theirs.reads

theorem storesSame_iff (readable : 0 ∈ src ∨ n ≤ src.length) : StoresSame mem dst src n ↔ 0 ∈ src := by
  constructor
  · rintro ⟨ours, _, ran, _⟩
    by_contra none
    rw [kfioStrncpy_unterminated none] at ran
    cases ran
  · intro nul
    exact ⟨_, _, kfioStrncpy_eq nul, strncpy_eq readable, rfl⟩

theorem matches_iff (readable : 0 ∈ src ∨ n ≤ src.length) : Matches mem dst src n ↔ 0 ∈ src.take n := by
  rw [nul_mem_take_iff]
  constructor
  · rintro ⟨ours, theirs, ran, other, stored, reads⟩
    have nul : 0 ∈ src := (storesSame_iff readable).mp ⟨ours, theirs, ran, other, stored⟩
    rw [kfioStrncpy_eq nul, Option.some.injEq] at ran
    rw [strncpy_eq readable, Option.some.injEq] at other
    rw [← ran, ← other] at reads
    exact ⟨nul, Nat.le_trans reads (Nat.min_le_right _ _)⟩
  · intro ⟨nul, short⟩
    exact ⟨_, _, kfioStrncpy_eq nul, strncpy_eq readable, rfl, Nat.le_min.mpr ⟨Nat.le_refl _, short⟩⟩

end Strings

/-- How `struct kfio_info_node` lies in memory: its fields up to `name`, as they are once
`type` and `node_entry` are set, and the array `name` of one byte at its end. -/
structure NodeLayout where
  size : Nat
  head : InfoType → Nat → List UInt8
  name : Nat
  length_head : ∀ type nodep, (head type nodep).length = name
  room : name < size

/-- The memory that `kfio_info_alloc_node` fills, and the address of the node. `malloc` is the
address of the memory for it, if there is any. -/
def kfioInfoAllocNodeBytes (layout : NodeLayout) (mem : Nat → UInt8) (type : InfoType) (name : List UInt8)
    (malloc : Option Nat) : Option ((Nat → UInt8) × Nat) :=
  (strlen name).bind fun namelen =>
    if namelen > kfioInfoMaxNamelen then none
    else malloc.bind fun nodep =>
      let mem := memcpy mem nodep (List.replicate (layout.size + namelen) 0)
      (kfioStrncpy mem (nodep + layout.name) name namelen).map fun copied =>
        (memcpy copied.mem nodep (layout.head type nodep), nodep)

/-- A node that is made has its name in memory, with a terminator. -/
def AllocStoresName : Prop :=
  ∀ (layout : NodeLayout) (mem : Nat → UInt8) (k last : Kinfo) (type : InfoType) (name : CStr) (rest : List UInt8)
    (malloc : Option Nat) (nodep : Nat), k.kfioInfoAllocNode type name malloc = some (last, nodep) →
    ∃ filled, kfioInfoAllocNodeBytes layout mem type (name.bytes ++ 0 :: rest) malloc = some (filled, nodep) ∧
      Holds filled (nodep + layout.name) (name.bytes ++ [0])

section AllocNode

theorem takeWhile_cstr (name : CStr) (rest : List UInt8) :
    (name.bytes ++ 0 :: rest).takeWhile (· ≠ 0) = name.bytes := by
  have plain : ∀ c ∈ name.bytes, decide (c ≠ 0) = true := by
    intro c member
    refine decide_eq_true ?_
    rintro rfl
    exact name.noNul member
  rw [List.takeWhile_append_of_pos plain, takeWhile_nul, List.append_nil]

theorem strncpyBytes_cstr (name : CStr) (rest : List UInt8) :
    strncpyBytes (name.bytes ++ 0 :: rest) name.strlen = name.bytes := by
  rw [strncpyBytes, takeWhile_cstr, CStr.strlen, List.take_length, Nat.sub_self, List.replicate_zero, List.append_nil]

theorem allocStoresName : AllocStoresName := by
  intro layout mem k last type name rest malloc nodep made
  have nul : (0 : UInt8) ∈ name.bytes ++ 0 :: rest := List.mem_append_right _ List.mem_cons_self
  unfold Kinfo.kfioInfoAllocNode at made
  split at made
  · cases made
  rename_i short
  obtain ⟨address, rfl, same⟩ := Option.map_eq_some_iff.mp made
  cases same
  rw [kfioInfoAllocNodeBytes, strlen_of_mem nul, takeWhile_cstr, Option.bind_some, ← CStr.strlen, if_neg short,
    Option.bind_some]
  dsimp only
  rw [kfioStrncpy_eq nul, strncpyBytes_cstr, Option.map_some]
  refine ⟨_, rfl, holds_append.mpr ⟨?_, ?_, trivial⟩⟩
  · -- the fields that are set last end where the name begins
    refine holds_memcpy.congr fun i low _ => memcpy_of_ge ?_
    rw [layout.length_head]
    exact low
  · have behind : nodep + (layout.head type nodep).length ≤ nodep + layout.name + name.bytes.length := by
      rw [layout.length_head]
      exact Nat.le_add_right _ _
    have room := layout.room
    rw [memcpy_of_ge behind]
    dsimp only
    rw [memcpy_of_ge (Nat.le_refl _)]
    exact memcpy_replicate (by omega) (by rw [CStr.strlen]; omega)

end AllocNode

/-- `kfio_strncpy` is `strncpy` as long as the terminator is among the bytes that are copied. With
a later one it stores the same but reads on, and without one it runs past the source. -/
theorem kfioStrncpy_matches_iff (mem : Nat → UInt8) (dst n : Nat) (src : List UInt8)
    (readable : 0 ∈ src ∨ n ≤ src.length) :
    (Matches mem dst src n ↔ 0 ∈ src.take n) ∧ (StoresSame mem dst src n ↔ 0 ∈ src) ∧ AllocStoresName :=
  ⟨matches_iff readable, storesSame_iff readable, allocStoresName⟩

theorem kfioStrncpy_matches_padded : Matches (fun _ => 7) 0 [97, 98, 0, 99] 4 :=
  (kfioStrncpy_matches_iff (fun _ => 7) 0 4 [97, 98, 0, 99] (.inr (by decide))).1.mpr (by decide)

/-- Two letters without a terminator, and a terminated string that is cut off. -/
theorem kfioStrncpy_overread :
    ((strncpy (fun _ => 7) 0 [97, 98] 2).map fun copied => (copied.mem 0, copied.mem 1, copied.reads)) =
        some (97, 98, 2) ∧
      (kfioStrncpy (fun _ => 7) 0 [97, 98] 2).isNone = true ∧ ¬ Matches (fun _ => 7) 0 [97, 98] 2 ∧
      (strncpy (fun _ => 7) 0 [97, 98, 0] 1).map Copied.reads = some 1 ∧
      (kfioStrncpy (fun _ => 7) 0 [97, 98, 0] 1).map Copied.reads = some 3 := by
  refine ⟨by decide, by decide, fun ⟨_, _, ran, _⟩ => ?_, by decide, by decide⟩
  have none : kfioStrncpy (fun _ => 7) 0 [97, 98] 2 = .none := rfl
  rw [none] at ran
  cases ran

end IomemoryVsl
