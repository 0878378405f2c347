import IomemoryVsl.PciSlot

namespace IomemoryVsl

open FirstHit

/-- Only bytes of the mapped window are read. -/
def ReadsMapped (reads : List BiosRead) : Prop := ∀ read ∈ reads, read.1 + read.2 ≤ biosMemoryLen

/-- The header of the table that is searched is in the window, and if it is valid, so is the whole
table, or a piece of it for the device. -/
def TableMapped (bios : Nat → UInt8) (dev : PciDev) : Prop :=
  ∀ i, First (fun i => signatureAt bios (16 * i) = true) signaturePlaces i →
    16 * i + irqRoutingSize ≤ biosMemoryLen ∧
      ((irqRoutingAt bios (16 * i)).validates = true →
        16 * i + (irqRoutingAt bios (16 * i)).pciIrqrTableSize ≤ biosMemoryLen ∨
        ∃ h < tablePieces bios (16 * i), (slotEntryAt bios (16 * i + 16 * h)).isFor dev = true ∧
          16 * i + 16 * h + slotEntrySize ≤ biosMemoryLen)

variable {bios : Nat → UInt8} {dev : PciDev} {reads more : List BiosRead} {i m : Nat}

theorem readsMapped_append : ReadsMapped (reads ++ more) ↔ ReadsMapped reads ∧ ReadsMapped more :=
  List.forall_mem_append

theorem readsMapped_strides (start step size m : Nat) :
    ReadsMapped (strides start step size m) ↔ ∀ k < m, start + step * k + size ≤ biosMemoryLen := by
  simp only [ReadsMapped, strides, List.forall_mem_map, List.mem_range]

/-- The search for a signature stays inside. -/
theorem readsMapped_signatures (few : m ≤ signaturePlaces) : ReadsMapped (strides 0 16 5 m) := by
  have length : biosMemoryLen = 131072 := rfl
  have count : signaturePlaces = 8192 := rfl
  rw [readsMapped_strides]
  intro k below
  omega

/-- All pieces are in the window if the whole table is. -/
theorem pieces_mapped_iff (valid : (irqRoutingAt bios (16 * i)).validates = true) :
    (∀ k < tablePieces bios (16 * i), 16 * i + 16 * k + 16 ≤ biosMemoryLen) ↔
      16 * i + (irqRoutingAt bios (16 * i)).pciIrqrTableSize ≤ biosMemoryLen := by
  have size := size_eq_tablePieces valid
  have some := (PciIrqRouting.validates_iff.mp valid).2.1
  constructor
  · intro all
    have last := all (tablePieces bios (16 * i) - 1) (by omega)
    omega
  · intro whole k below
    omega

theorem readsMapped_iff {slot : UInt8} (lookup : Lookup bios dev slot reads) :
    ReadsMapped reads ↔ TableMapped bios dev := by
  cases lookup with
  | unsigned none =>
    exact iff_of_true (readsMapped_signatures (Nat.le_refl _)) fun i signed => absurd signed.2.1 (none i signed.1)
  | @invalid i first invalid =>
    rw [readsMapped_append, and_iff_right (readsMapped_signatures first.1), ReadsMapped, List.forall_mem_singleton]
    constructor
    · intro header j signed
      cases first.unique signed
      refine ⟨header, fun valid => ?_⟩
      rw [invalid] at valid
      cases valid
    · intro mapped
      exact (mapped i first).1
  | @table i m r first valid scanned =>
    have inside := scanned.inside_iff (q := fun k => 16 * i + 16 * k + 16 ≤ biosMemoryLen) fun j k le => by omega
    rw [pieces_mapped_iff valid] at inside
    rw [readsMapped_append, and_iff_right (readsMapped_signatures first.1), ReadsMapped, List.forall_mem_cons,
      ← ReadsMapped, readsMapped_strides, inside]
    constructor
    · intro ⟨header, entries⟩ j signed
      cases first.unique signed
      exact ⟨header, fun _ => entries⟩
    · intro mapped
      exact ⟨(mapped i first).1, (mapped i first).2 valid⟩

/-- The lookup ends, and stays in the window unless the first signature is at its very end or the
size of the table leads out of it. -/
theorem findSlotNumberBios_reads_iff (bios : Nat → UInt8) (dev : PciDev) :
    ∃ slot reads, findSlotNumberBios (some bios) dev = some (slot, reads) ∧
      (ReadsMapped reads ↔ TableMapped bios dev) := by
  obtain ⟨slot, reads, ran, lookup⟩ := findSlotNumberBios_lookup bios dev
  exact ⟨slot, reads, ran, readsMapped_iff lookup⟩

/-- An image whose last 16 bytes begin with the signature. -/
def signatureLast : Nat → UInt8 := fun p =>
  if p < 0x1fff0 then 0 else pciIrqRoutingTableSignature.getD (p - 0x1fff0) 0

theorem signatureLast_first : First (fun i => signatureAt signatureLast (16 * i) = true) signaturePlaces 8191 := by
  refine ⟨by decide, by decide, fun j before signed => ?_⟩
  have letter : signatureLast (16 * j) = 0x24 := by
    simp only [signatureAt, memcpyFromio, pciIrqRoutingTableSignature, beq_iff_eq] at signed
    exact (List.cons.inj signed).1
  have zero : signatureLast (16 * j) = 0 := if_pos (by omega)
  rw [zero] at letter
  exact absurd letter (by decide)

/-- The header of a table is read that begins 16 bytes before the end of the window. -/
theorem findSlotNumberBios_last : ∃ slot reads,
    findSlotNumberBios (some signatureLast) ⟨0, 0⟩ = some (slot, reads) ∧ ¬ ReadsMapped reads := by
  obtain ⟨slot, reads, ran, lookup⟩ := findSlotNumberBios_lookup signatureLast ⟨0, 0⟩
  refine ⟨slot, reads, ran, fun mapped => ?_⟩
  have header := ((readsMapped_iff lookup).mp mapped 8191 signatureLast_first).1
  exact absurd header (by decide)

end IomemoryVsl
