import IomemoryVsl.KinfoHandle
import IomemoryVsl.Transition

namespace IomemoryVsl

open ByteMemory Transition

/-- The buffer of a `struct seq_file`. It is full when its count is its size. -/
structure SeqBuffer where
  mem : Nat → UInt8
  buf : Nat
  size : BitVec 64
  count : BitVec 64

/-- What a show callback of a node does with its data handle, and what it returns. -/
structure SeqShow where
  ops : List HandleOp
  rc : BitVec 32

namespace SeqShow

def bytes (call : SeqShow) : List UInt8 := call.ops.flatMap HandleOp.bytes

def run (call : SeqShow) (mem : Nat → UInt8) (dbh : KfioInfoData) : HandleState :=
  call.ops.foldl HandleOp.step ⟨mem, dbh⟩

/-- A callback returns zero or an error, and the length of what it writes is a word. -/
def Fair (call : SeqShow) : Prop := (∀ op ∈ call.ops, op.bytes.length < 2 ^ 64) ∧ call.rc.toInt ≤ 0

instance (call : SeqShow) : Decidable call.Fair := inferInstanceAs (Decidable (_ ∧ _))

end SeqShow

namespace SeqBuffer

def kfioSeqGetBuf (m : SeqBuffer) : Nat × BitVec 64 :=
  if m.count < m.size then (m.buf + m.count.toNat, m.size - m.count) else (0, 0#64)

def kfioSeqCommit (m : SeqBuffer) (num : BitVec 32) : SeqBuffer :=
  { m with count := if num.slt 0#32 then m.size else m.count + num.signExtend 64 }

/-- The assertion in `kfio_seq_commit`. -/
def commitFits (m : SeqBuffer) (num : BitVec 32) : Bool :=
  num.slt 0#32 || decide (m.count + num.signExtend 64 ≤ m.size)

/-- The data handle that `kfio_info_linux_seq_start` makes, when it can be allocated. -/
def kfioInfoLinuxSeqStart (m : SeqBuffer) : KfioInfoData :=
  .kfioInfoResetDataHandle m.kfioSeqGetBuf.1 m.kfioSeqGetBuf.2

/-- What is committed after a callback: its error, or the bytes it added to the handle. -/
def added (dbh after : KfioInfoData) (call : SeqShow) : BitVec 32 :=
  if call.rc.slt 0#32 then call.rc else (after.curSize - dbh.curSize).setWidth 32

/-- The callback with the handle, and the commit. It gives the assertion, too. -/
def showInto (m : SeqBuffer) (dbh : KfioInfoData) (call : SeqShow) : SeqBuffer × KfioInfoData × Bool :=
  let after := call.run m.mem dbh
  let m := { m with mem := after.mem }
  (m.kfioSeqCommit (added dbh after.dbh call), after.dbh, m.commitFits (added dbh after.dbh call))

def kfioInfoLinuxSeqShow (m : SeqBuffer) (dbh : KfioInfoData) (call : SeqShow) : SeqBuffer × KfioInfoData × Bool :=
  m.showInto dbh call

/-- `kfio_info_linux_text_show` with a handle of its own. The size of a fresh handle is zero, so what is
committed is all that is in it. -/
def kfioInfoLinuxTextShow (m : SeqBuffer) (call : SeqShow) : SeqBuffer × Bool :=
  let (m, _, fits) := m.showInto m.kfioInfoLinuxSeqStart call
  (m, fits)

end SeqBuffer

/-- The rounds of reading a text file and a sequence file. In a round of a
sequence file the private data is a handle. -/
inductive SeqRound
  | outside
  | text
  | records (dbh : KfioInfoData)

/-- A file that is read. `offs` is the count before the last show, to which the
kernel goes back when that one failed or did not fit. -/
structure SeqRead extends SeqBuffer where
  round : SeqRound
  offs : BitVec 64
  failed : Bool

inductive SeqReadAction
  /-- The kernel takes an empty buffer. -/
  | empty (buf : Nat) (size : BitVec 64)
  /-- A sequence file gets its handle. What follows when it does not is seen from `SeqFile`. -/
  | start (text : Bool)
  /-- `malloc` tells whether a text file gets a handle. -/
  | «show» (call : SeqShow) (malloc : Bool)
  | stop

/-- What an empty buffer has of room, and what was shown. `full` tells whether the
buffer is full afterwards. -/
inductive SeqReadEvent
  | emptied (size : BitVec 64)
  | shown (call : SeqShow) (full fits : Bool)
  | refused

namespace SeqRead

def initial : SeqRead := ⟨⟨fun _ => 0, 0, 0#64, 0#64⟩, .outside, 0#64, false⟩

/-- `seq_has_overflowed`. -/
def full (s : SeqRead) : Bool := decide (¬s.count < s.size)

/-- The kernel shows no more after an error or once the buffer is full; it goes
back to what it had before, and stops. -/
def step (s : SeqRead) : SeqReadAction → Option (SeqRead × List SeqReadEvent)
  | .empty buf size =>
    match s.round with
    | .outside => some ({ s with buf := buf, size := size, count := 0#64, offs := 0#64 }, [.emptied size])
    | _ => none
  | .start text =>
    match s.round with
    | .outside => some ({ s with
        round := if text then .text else .records s.kfioInfoLinuxSeqStart, offs := s.count }, [])
    | _ => none
  | .show call malloc =>
    if s.failed || s.full then none else
    match s.round with
    | .outside => none
    | .text =>
      if malloc then
        let (m, fits) := s.kfioInfoLinuxTextShow call
        let s := { s with toSeqBuffer := m, offs := s.count, failed := call.rc.slt 0#32 }
        some (s, [.shown call s.full fits])
      else some ({ s with offs := s.count, failed := true }, [.refused])
    | .records dbh =>
      let (m, dbh, fits) := s.kfioInfoLinuxSeqShow dbh call
      let s := { s with toSeqBuffer := m, round := .records dbh, offs := s.count, failed := call.rc.slt 0#32 }
      some (s, [.shown call s.full fits])
  | .stop =>
    match s.round with
    | .outside => none
    | _ => some ({ s with
        round := .outside, count := if s.failed || s.full then s.offs else s.count, failed := false }, [])

end SeqRead

/-- What is to be read in the end: the records that were shown into the buffer
since it was empty, without those that failed or did not fit. -/
def content (history : List SeqReadEvent) : List UInt8 :=
  history.foldl (fun out event => match event with
    | .emptied _ => []
    | .shown call full _ => if full then out else out ++ call.bytes
    | .refused => out) []

/-- The size of the buffer. -/
def bufferSize (history : List SeqReadEvent) : Nat :=
  history.foldl (fun size event => match event with
    | .emptied size => size.toNat
    | _ => size) 0

/-- The buffer is full after a callback exactly when that failed or when what it
shows does not fit, with one byte left. -/
def ShownRight (before : List SeqReadEvent) (event : SeqReadEvent) : Prop :=
  ∀ call full fits, event = .shown call full fits → fits = true ∧
    (full = true ↔ call.rc.toInt < 0 ∨ bufferSize before ≤ (content before).length + call.bytes.length)

/-- A room of `n` bytes at `a`, into which some bytes were produced. Once they are not
fewer than the room nothing is known of what is in it. -/
structure Produced (first : Nat → UInt8) (a n : Nat) (out : List UInt8) (s : HandleState) : Prop where
  place : s.dbh.buffer + s.dbh.curSize.toNat = a + min n out.length
  left : s.dbh.maxSize.toNat = s.dbh.curSize.toNat + (n - min n out.length)
  small : s.dbh.maxSize.toNat < 2 ^ 63
  frame : ∀ i < a, s.mem i = first i
  bytes : out.length < n → Holds s.mem a out

section Produced

variable {first : Nat → UInt8} {a n : Nat} {out : List UInt8} {s : HandleState} {op : HandleOp}

theorem Produced.within (produced : Produced first a n out s) : s.dbh.curSize ≤ s.dbh.maxSize := by
  rw [BitVec.le_def, produced.left]
  exact Nat.le_add_right _ _

theorem Produced.avail (produced : Produced first a n out s) :
    (s.dbh.maxSize - s.dbh.curSize).toNat = n - min n out.length := by
  rw [BitVec.toNat_sub_of_le produced.within, produced.left]
  exact Nat.add_sub_cancel_left ..

/-- What moves the place on by as much as fits keeps the room. -/
theorem Produced.more {more : List UInt8} {next : HandleState} (produced : Produced first a n out s)
    (buffer : next.dbh.buffer = s.dbh.buffer) (maxSize : next.dbh.maxSize = s.dbh.maxSize)
    (curSize : next.dbh.curSize.toNat = s.dbh.curSize.toNat + min more.length (n - min n out.length))
    (frame : ∀ i < s.dbh.buffer + s.dbh.curSize.toNat, next.mem i = s.mem i)
    (bytes : out.length + more.length < n → Holds s.mem a out → Holds next.mem a (out ++ more)) :
    Produced first a n (out ++ more) next := by
  have place := produced.place
  have left := produced.left
  have together := min_add_min_sub n out.length more.length
  have least : min n (out.length + more.length) ≤ n := Nat.min_le_left _ _
  have whole : min n out.length ≤ n := Nat.min_le_left _ _
  refine ⟨?_, ?_, maxSize ▸ produced.small, fun i low => ?_, fun fits => ?_⟩
  · rw [buffer, curSize, List.length_append, ← together]
    omega
  · rw [maxSize, curSize, List.length_append, left]
    omega
  · exact (frame i (by omega)).trans (produced.frame i low)
  · rw [List.length_append] at fits
    exact bytes fits (produced.bytes (by omega))

theorem Produced.write {data : List UInt8} (produced : Produced first a n out s) (word : data.length < 2 ^ 64) :
    Produced first a n (out ++ data) ((HandleOp.write data).step s) := by
  have within := produced.within
  have left := produced.left
  have copied := writeCount_toNat data within word
  generalize count : (if BitVec.ofNat 64 data.length < s.dbh.maxSize - s.dbh.curSize then
      BitVec.ofNat 64 data.length else s.dbh.maxSize - s.dbh.curSize) = k at copied
  have stepped : (HandleOp.write data).step s =
    ⟨memcpy s.mem (s.dbh.buffer + s.dbh.curSize.toNat) (data.take k.toNat),
      { s.dbh with totSize := s.dbh.totSize + BitVec.ofNat 64 data.length, curSize := s.dbh.curSize + k }⟩ := by
    rw [HandleOp.step, KfioInfoData.kfioInfoWrite]
    dsimp only
    rw [count]
  have room : s.dbh.maxSize.toNat - s.dbh.curSize.toNat = n - min n out.length := by omega
  rw [stepped]
  rw [room] at copied
  refine produced.more rfl rfl ?_ (fun i low => memcpy_of_lt low) fun fits held => ?_
  · have bound := s.dbh.maxSize.isLt
    rw [BitVec.toNat_add, copied]
    exact Nat.mod_eq_of_lt (by omega)
  · have place := produced.place
    have here : s.dbh.buffer + s.dbh.curSize.toNat = a + out.length := by omega
    dsimp only
    rw [here, List.take_of_length_le (by omega)]
    exact held.memcpy _

theorem kfioVsnprintf_frame {mem : Nat → UInt8} {b size i : Nat} {text : List UInt8} (low : i < b) :
    (kfioVsnprintf mem b size text).1 i = mem i := by
  rw [kfioVsnprintf]
  split
  · rfl
  · exact memcpy_of_lt low

theorem Produced.printf {text : List UInt8} {len_lt : text.length < 2 ^ 31} (produced : Produced first a n out s) :
    Produced first a n (out ++ text) ((HandleOp.printf text len_lt).step s) := by
  have avail := produced.avail
  have left := produced.left
  have small := produced.small
  have size : (BitVec.ofNat 64 text.length).toNat = text.length := MachineWord.toNat_ofNat (by omega)
  have compare : BitVec.slt (s.dbh.maxSize - s.dbh.curSize) (BitVec.ofNat 64 text.length) = true ↔
      n - min n out.length < text.length := by
    rw [slt_length_iff len_lt, avail]
    omega
  have stepped : (HandleOp.printf text len_lt).step s = ⟨(kfioVsnprintf s.mem (s.dbh.buffer + s.dbh.curSize.toNat)
      (s.dbh.maxSize - s.dbh.curSize).toNat text).1,
      { s.dbh with
        curSize := if BitVec.slt (s.dbh.maxSize - s.dbh.curSize) (BitVec.ofNat 64 text.length) then s.dbh.maxSize
          else s.dbh.curSize + BitVec.ofNat 64 text.length
        totSize := s.dbh.totSize + BitVec.ofNat 64 text.length }⟩ := rfl
  rw [stepped]
  refine produced.more rfl rfl ?_ (fun i low => kfioVsnprintf_frame low) fun fits held => ?_
  · dsimp only
    by_cases short : BitVec.slt (s.dbh.maxSize - s.dbh.curSize) (BitVec.ofNat 64 text.length) = true
    · have beyond := compare.mp short
      rw [if_pos short]
      omega
    · have inside := Nat.not_lt.mp (mt compare.mpr short)
      rw [if_neg short, BitVec.toNat_add, size, Nat.min_eq_left inside]
      exact Nat.mod_eq_of_lt (by omega)
  · have place := produced.place
    have here : s.dbh.buffer + s.dbh.curSize.toNat = a + out.length := by omega
    dsimp only
    rw [here, avail]
    exact holds_kfioVsnprintf held (by omega) (by omega)

theorem Produced.step (produced : Produced first a n out s) (word : op.bytes.length < 2 ^ 64) :
    Produced first a n (out ++ op.bytes) (op.step s) := by
  cases op with
  | write data => exact produced.write word
  | printf text len_lt => exact produced.printf
  | printfFails =>
    rw [HandleOp.bytes, List.append_nil]
    exact produced

/-- All calls of a callback produce its bytes. -/
theorem Produced.calls {ops : List HandleOp} (produced : Produced first a n out s)
    (word : ∀ op ∈ ops, op.bytes.length < 2 ^ 64) :
    Produced first a n (out ++ ops.flatMap HandleOp.bytes) (ops.foldl HandleOp.step s) := by
  induction ops generalizing out s with
  | nil =>
    rw [List.flatMap_nil, List.append_nil]
    exact produced
  | cons op ops ih =>
    rw [List.flatMap_cons, ← List.append_assoc, List.foldl_cons]
    exact ih (produced.step (word op List.mem_cons_self)) fun other later =>
      word other (List.mem_cons_of_mem op later)

end Produced

/-- The room of a handle is the one that is left in the buffer. -/
structure Covers (m : SeqBuffer) (dbh : KfioInfoData) : Prop where
  place : dbh.buffer + dbh.curSize.toNat = m.buf + m.count.toNat
  left : dbh.maxSize.toNat = dbh.curSize.toNat + (m.size.toNat - m.count.toNat)
  small : dbh.maxSize.toNat < 2 ^ 31

/-- What a callback with its commit makes of a buffer that is not full. -/
structure Shows (m : SeqBuffer) (call : SeqShow) (m' : SeqBuffer) (dbh' : KfioInfoData) : Prop where
  buf : m'.buf = m.buf
  size : m'.size = m.size
  full : ¬m'.count < m'.size ↔ call.rc.toInt < 0 ∨ m.size.toNat ≤ m.count.toNat + call.bytes.length
  frame : ∀ i < m.buf + m.count.toNat, m'.mem i = m.mem i
  shown : m'.count < m'.size → m'.count.toNat = m.count.toNat + call.bytes.length ∧
    Holds m'.mem (m.buf + m.count.toNat) call.bytes ∧ Covers m' dbh'

section Show

variable {m : SeqBuffer} {dbh : KfioInfoData} {call : SeqShow}

/-- A callback leaves the buffer of the handle where it is. -/
theorem run_buffer {ops : List HandleOp} {s : HandleState} :
    (ops.foldl HandleOp.step s).dbh.buffer = s.dbh.buffer := by
  induction ops generalizing s with
  | nil => rfl
  | cons op ops ih =>
    rw [List.foldl_cons, ih]
    cases op with
    | write | printf | printfFails => rfl

theorem covers_start (room : m.count < m.size) (small : m.size.toNat < 2 ^ 31) :
    Covers m m.kfioInfoLinuxSeqStart := by
  have left : (m.size - m.count).toNat = m.size.toNat - m.count.toNat :=
    BitVec.toNat_sub_of_le (BitVec.le_of_lt room)
  rw [SeqBuffer.kfioInfoLinuxSeqStart, SeqBuffer.kfioSeqGetBuf, if_pos room]
  refine ⟨Nat.add_zero _, ?_, ?_⟩
  · exact left.trans (Nat.zero_add _).symm
  · exact left.trans_lt (by omega)

theorem slt_zero_iff {num : BitVec 32} : num.slt 0#32 = true ↔ num.toInt < 0 := BitVec.slt_iff_toInt_lt

/-- What is committed is not negative and is taken as it is. -/
theorem commit_added {k : BitVec 64} (small : k.toNat < 2 ^ 31) :
    (k.setWidth 32).slt 0#32 = false ∧ (k.setWidth 32).signExtend 64 = k := by
  have narrow : (k.setWidth 32).toNat = k.toNat := by
    rw [BitVec.toNat_setWidth]
    exact Nat.mod_eq_of_lt (by omega)
  have value : (k.setWidth 32).toInt = k.toNat := by
    rw [BitVec.toInt_eq_toNat_of_lt (by omega), narrow]
  constructor
  · rw [Bool.eq_false_iff, ne_eq, slt_zero_iff, value]
    omega
  · apply BitVec.eq_of_toInt_eq
    rw [BitVec.toInt_signExtend_of_le (by omega), value, BitVec.toInt_eq_toNat_of_lt (by omega)]

theorem Covers.showInto (covers : Covers m dbh) (room : m.count < m.size) (small : m.size.toNat < 2 ^ 31)
    (fair : call.Fair) : Shows m call (m.showInto dbh call).1 (m.showInto dbh call).2.1 ∧
      (m.showInto dbh call).2.2 = true := by
  have place := covers.place
  have left := covers.left
  have fewer : m.count.toNat < m.size.toNat := room
  have before : Produced m.mem (m.buf + m.count.toNat) (m.size.toNat - m.count.toNat) [] ⟨m.mem, dbh⟩ := by
    refine ⟨?_, ?_, Nat.lt_trans covers.small (by decide), fun _ _ => rfl, fun _ => trivial⟩
    · rw [List.length_nil, Nat.min_zero, Nat.add_zero]
      exact place
    · rw [List.length_nil, Nat.min_zero, Nat.sub_zero]
      exact left
  have after : Produced m.mem (m.buf + m.count.toNat) (m.size.toNat - m.count.toNat) call.bytes
    (call.run m.mem dbh) :=
    before.calls fair.1
  have buffer : (call.run m.mem dbh).dbh.buffer = dbh.buffer := run_buffer
  rw [SeqBuffer.showInto]
  generalize call.run m.mem dbh = ended at after buffer
  have placed := after.place
  have leftover := after.left
  have least : min (m.size.toNat - m.count.toNat) call.bytes.length ≤ m.size.toNat - m.count.toNat :=
    Nat.min_le_left _ _
  have cur : ended.dbh.curSize.toNat =
      dbh.curSize.toNat + min (m.size.toNat - m.count.toNat) call.bytes.length := by omega
  have added : (ended.dbh.curSize - dbh.curSize).toNat = min (m.size.toNat - m.count.toNat) call.bytes.length := by
    rw [BitVec.toNat_sub_of_le (by rw [BitVec.le_def]; omega), cur]
    exact Nat.add_sub_cancel_left ..
  obtain ⟨nonneg, word⟩ := commit_added (k := ended.dbh.curSize - dbh.curSize) (by omega)
  by_cases error : call.rc.slt 0#32 = true
  · -- the count becomes the size
    have negative := slt_zero_iff.mp error
    simp only [SeqBuffer.added, error, if_true, SeqBuffer.kfioSeqCommit, SeqBuffer.commitFits,
      Bool.true_or, and_true]
    refine ⟨rfl, rfl, iff_of_true (BitVec.lt_irrefl _) (.inl negative), after.frame, fun below => ?_⟩
    exact absurd below (BitVec.lt_irrefl _)
  · have count : (m.count + (ended.dbh.curSize - dbh.curSize)).toNat =
        m.count.toNat + min (m.size.toNat - m.count.toNat) call.bytes.length := by
      rw [BitVec.toNat_add, added]
      exact Nat.mod_eq_of_lt (by omega)
    have nonnegative := mt slt_zero_iff.mpr error
    simp only [SeqBuffer.added, error, if_false, SeqBuffer.kfioSeqCommit, SeqBuffer.commitFits, nonneg,
      word, Bool.false_or,
      Bool.false_eq_true, decide_eq_true_eq, BitVec.le_def]
    refine ⟨⟨rfl, rfl, ?_, after.frame, fun below => ?_⟩, by omega⟩
    · rw [BitVec.lt_def, count]
      dsimp only
      omega
    · rw [BitVec.lt_def, count] at below
      dsimp only at below
      have fits : call.bytes.length < m.size.toNat - m.count.toNat := by omega
      have total : (m.count + (ended.dbh.curSize - dbh.curSize)).toNat =
        m.count.toNat + call.bytes.length := by omega
      refine ⟨total, after.bytes fits, ?_, ?_, ?_⟩
      · rw [placed, total]
        dsimp only
        omega
      · rw [leftover, total]
        dsimp only
        omega
      · have whole := covers.small
        omega

end Show

/-- The kernel's buffers are smaller than an `int` tells. -/
def SeqReadAction.Allowed : SeqReadAction → Prop
  | .empty _ size => size.toNat < 2 ^ 31
  | .show call _ => call.Fair
  | _ => True

instance : DecidablePred SeqReadAction.Allowed
  | .empty _ size => inferInstanceAs (Decidable (size.toNat < 2 ^ 31))
  | .show call _ => inferInstanceAs (Decidable call.Fair)
  | .start _ | .stop => .isTrue trivial

/-- The reads of a file. -/
abbrev SeqReadReach : SeqRead → List SeqReadEvent → Prop :=
  Transition.Reach SeqRead.step (fun _ action => action.Allowed) SeqRead.initial

/-- What holds in every state of reading a file. As long as the last record counts, what is to be
read is up to the count, else up to where the kernel goes back to. -/
structure SeqRead.Inv (s : SeqRead) (history : List SeqReadEvent) : Prop where
  shown : Historical ShownRight history
  size : bufferSize history = s.size.toNat
  small : s.size.toNat < 2 ^ 31
  held : Holds s.mem s.buf (content history)
  kept : (content history).length = (if s.failed || s.full then s.offs else s.count).toNat
  outside : s.round = .outside → s.failed = false ∧ (s.full = true → s.count = s.offs)
  covers : ∀ dbh, s.round = .records dbh → s.failed = false → s.full = false → Covers s.toSeqBuffer dbh

section Reads

variable {s t : SeqRead} {history events : List SeqReadEvent}

theorem content_snoc (event : SeqReadEvent) : content (history ++ [event]) = match event with
    | .emptied _ => []
    | .shown call full _ => if full then content history else content history ++ call.bytes
    | .refused => content history := by
  rw [content, List.foldl_concat]
  rfl

theorem bufferSize_snoc (event : SeqReadEvent) : bufferSize (history ++ [event]) = match event with
    | .emptied size => size.toNat
    | _ => bufferSize history := by
  rw [bufferSize, List.foldl_concat]
  cases event with
  | emptied | shown | refused => rfl

theorem not_full_iff : s.full = false ↔ s.count < s.size := by
  rw [SeqRead.full, decide_eq_false_iff_not, not_not]

/-- A record is shown into a buffer that is not full. -/
theorem SeqRead.Inv.showing {call : SeqShow} {m : SeqBuffer} {dbh : KfioInfoData} (round : SeqRound)
    (inv : s.Inv history) (open' : (s.failed || s.full) = false) (shows : Shows s.toSeqBuffer call m dbh)
    (inside : round ≠ .outside) (same : ∀ other, round = .records other → other = dbh) :
    SeqRead.Inv { s with toSeqBuffer := m, round := round, offs := s.count, failed := call.rc.slt 0#32 }
      (history ++ [.shown call
        (SeqRead.full { s with
          toSeqBuffer := m, round := round, offs := s.count, failed := call.rc.slt 0#32 }) true]) := by
  obtain ⟨working, room⟩ := Bool.or_eq_false_iff.mp open'
  have before : (content history).length = s.count.toNat := by
    rw [inv.kept, open']
    rfl
  have size : bufferSize history = s.size.toNat := inv.size
  have decided : SeqRead.full { s with
      toSeqBuffer := m, round := round, offs := s.count, failed := call.rc.slt 0#32 } =
      decide (¬m.count < m.size) := rfl
  have still : Holds m.mem m.buf (content history) := by
    rw [shows.buf]
    exact inv.held.congr fun i _ high => shows.frame i (by omega)
  refine ⟨inv.shown.snoc ?_, ?_, ?_, ?_, ?_, fun ended => absurd ended inside, fun other round' _ below => ?_⟩
  · rintro _ _ _ ⟨⟩
    rw [decided, decide_eq_true_iff, shows.full, size, before]
    exact ⟨rfl, Iff.rfl⟩
  · rw [bufferSize_snoc]
    exact size.trans (congrArg BitVec.toNat shows.size).symm
  · exact (congrArg BitVec.toNat shows.size).trans_lt inv.small
  · rw [content_snoc, decided]
    dsimp only
    split
    · exact still
    · rename_i below
      have below := not_not.mp (mt decide_eq_true below)
      refine holds_append.mpr ⟨still, ?_⟩
      rw [before, shows.buf]
      exact (shows.shown below).2.1
  · rw [content_snoc, decided]
    dsimp only
    by_cases below : m.count < m.size
    · have good : call.rc.slt 0#32 = false := by
        refine Bool.eq_false_iff.mpr fun error => ?_
        exact shows.full.mpr (.inl (slt_zero_iff.mp error)) below
      rw [decide_eq_false (not_not.mpr below), Bool.or_false, good]
      rw [if_neg Bool.false_ne_true, if_neg Bool.false_ne_true, List.length_append, before]
      exact (shows.shown below).1.symm
    · rw [decide_eq_true below, Bool.or_true, if_pos rfl, if_pos rfl]
      exact before
  · rw [same other round']
    exact (shows.shown (not_full_iff.mp below)).2.2

theorem SeqRead.Inv.initial : SeqRead.initial.Inv [] := by
  refine ⟨historical_nil _, rfl, by decide, trivial, rfl, fun _ => ⟨rfl, fun _ => rfl⟩, fun dbh never => ?_⟩
  cases never

/-- A state between two rounds. -/
theorem SeqRead.Inv.rest (inv : s.Inv history) (ended : s.round = .outside) :
    (content history).length = s.count.toNat := by
  obtain ⟨working, stuck⟩ := inv.outside ended
  rw [inv.kept, working, Bool.false_or]
  by_cases full : s.full = true
  · rw [if_pos full, stuck full]
  · rw [if_neg full]

theorem SeqRead.Inv.step {action : SeqReadAction} (inv : s.Inv history) (allowed : action.Allowed)
    (run : s.step action = some (t, events)) : t.Inv (history ++ events) := by
  cases action with
  | empty buf size =>
    simp only [SeqRead.step] at run
    split at run
    · rename_i ended
      cases run
      refine ⟨inv.shown.snoc (by rintro _ _ _ ⟨⟩), ?_, allowed, ?_, ?_, fun _ => ?_, fun dbh inside => ?_⟩
      · rw [bufferSize_snoc]
      · rw [content_snoc]
        trivial
      · rw [content_snoc]
        dsimp only
        rw [ite_self]
        rfl
      · exact ⟨(inv.outside ended).1, fun _ => rfl⟩
      · rw [ended] at inside
        cases inside
    · cases run
  | start text =>
    simp only [SeqRead.step] at run
    split at run
    · rename_i ended
      cases run
      rw [List.append_nil]
      refine ⟨inv.shown, inv.size, inv.small, inv.held, ?_, fun never => ?_, fun dbh inside _ room => ?_⟩
      · dsimp only
        rw [inv.rest ended, ite_self]
      · cases text with
        | true | false => cases never
      · cases text with
        | true => cases inside
        | false =>
          cases inside
          exact covers_start (not_full_iff.mp room) inv.small
    · cases run
  | «show» call malloc =>
    simp only [SeqRead.step] at run
    split at run
    · cases run
    · rename_i open'
      have open' := Bool.eq_false_iff.mpr open'
      obtain ⟨working, room⟩ := Bool.or_eq_false_iff.mp open'
      have fewer := not_full_iff.mp room
      split at run
      · cases run
      · rename_i text
        split at run
        · cases run
          obtain ⟨shows, fits⟩ := (covers_start fewer inv.small).showInto fewer inv.small allowed
          have same : (s.kfioInfoLinuxTextShow call).2 = true := fits
          rw [same]
          refine inv.showing s.round open' shows ?_ ?_
          · rw [text]
            exact SeqRound.noConfusion
          · rw [text]
            exact fun _ => SeqRound.noConfusion
        · cases run
          have kept := inv.kept
          rw [open', if_neg Bool.false_ne_true] at kept
          refine ⟨inv.shown.snoc (by rintro _ _ _ ⟨⟩), ?_, inv.small, ?_, ?_, fun ended => ?_, fun _ _ never => ?_⟩
          · rw [bufferSize_snoc]
            exact inv.size
          · rw [content_snoc]
            exact inv.held
          · rw [content_snoc]
            exact kept
          · exact SeqRound.noConfusion (text.symm.trans ended)
          · cases never
      · rename_i dbh records
        cases run
        obtain ⟨shows, fits⟩ := (inv.covers dbh records working room).showInto fewer inv.small allowed
        have same : (s.kfioInfoLinuxSeqShow dbh call).2.2 = true := fits
        rw [same]
        refine inv.showing _ open' shows SeqRound.noConfusion ?_
        rintro _ ⟨⟩
        rfl
  | stop =>
    simp only [SeqRead.step] at run
    split at run
    · cases run
    · rename_i inside
      cases run
      rw [List.append_nil]
      have kept := inv.kept
      cases back : s.failed || s.full with
      | true =>
        rw [back, if_pos rfl] at kept
        refine ⟨inv.shown, inv.size, inv.small, inv.held, ?_, fun _ => ⟨rfl, fun _ => rfl⟩,
          fun _ => SeqRound.noConfusion⟩
        dsimp only
        rw [if_pos rfl, ite_self]
        exact kept
      | false =>
        rw [back, if_neg Bool.false_ne_true] at kept
        obtain ⟨_, room⟩ := Bool.or_eq_false_iff.mp back
        have still : SeqRead.full { s with round := .outside, count := s.count, failed := false } = false := room
        refine ⟨inv.shown, inv.size, inv.small, inv.held, ?_, fun _ => ⟨rfl, fun full => ?_⟩,
          fun _ => SeqRound.noConfusion⟩
        · dsimp only
          rw [if_neg Bool.false_ne_true, still]
          exact kept
        · rw [if_neg Bool.false_ne_true, still] at full
          cases full

theorem SeqReadReach.inv (reach : SeqReadReach s history) : s.Inv history :=
  reach.invariant SeqRead.Inv .initial fun _ inv allowed run => inv.step allowed run

end Reads

end IomemoryVsl
