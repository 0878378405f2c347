import IomemoryVsl.FirstHit
import Mathlib.Data.List.Basic

namespace IomemoryVsl

open FirstHit

def systemRequiredVersion : Nat := 0x100

def systemRequiredMinSize : Nat := 32

def systemRequiredSizeAlignment : Nat := 16

def signatureOffset : Nat := 16

/-- `"$PIR"` with its terminator, which `sizeof` counts. -/
def pciIrqRoutingTableSignature : List UInt8 := [0x24, 0x50, 0x49, 0x52, 0]

def biosMemoryLen : Nat := 0x20000

/-- The size of a `pci_slot_entry_t`. -/
def slotEntrySize : Nat := 16

/-- The size of a `pci_irq_routing_t`. -/
def irqRoutingSize : Nat := 32

/-- What the lookup reads of a `struct pci_dev`. -/
structure PciDev where
  busNumber : UInt8
  devfn : UInt32
  deriving DecidableEq, Repr

structure PciSlotEntry where
  pciSlotBusNumber : UInt8
  pciSlotDeviceNumber : UInt8
  pciSlotNumber : UInt8
  deriving DecidableEq, Repr

structure PciIrqRouting where
  pciIrqrVersion : Nat
  pciIrqrTableSize : Nat
  deriving DecidableEq, Repr

/-- The bytes from address `p` on. -/
def memcpyFromio (bios : Nat → UInt8) (p n : Nat) : List UInt8 := (List.range n).map fun i => bios (p + i)

/-- A number of two bytes, the lower one first. -/
def shortAt (bios : Nat → UInt8) (p : Nat) : Nat := (bios p).toNat + 256 * (bios (p + 1)).toNat

def slotEntryAt (bios : Nat → UInt8) (p : Nat) : PciSlotEntry := ⟨bios p, bios (p + 1), bios (p + 14)⟩

def irqRoutingAt (bios : Nat → UInt8) (p : Nat) : PciIrqRouting := ⟨shortAt bios (p + 4), shortAt bios (p + 6)⟩

def signatureAt (bios : Nat → UInt8) (p : Nat) : Bool :=
  memcpyFromio bios p pciIrqRoutingTableSignature.length == pciIrqRoutingTableSignature

/-- The test of the basic fields. -/
def PciIrqRouting.validates (table : PciIrqRouting) : Bool :=
  table.pciIrqrVersion == systemRequiredVersion && decide (table.pciIrqrTableSize > systemRequiredMinSize) &&
    table.pciIrqrTableSize % systemRequiredSizeAlignment == 0

def PciSlotEntry.isFor (entry : PciSlotEntry) (dev : PciDev) : Bool :=
  entry.pciSlotDeviceNumber.toUInt32 == dev.devfn && entry.pciSlotBusNumber == dev.busNumber &&
    decide (entry.pciSlotNumber > 0)

/-- Where in the window something is read, and how many bytes. -/
abbrev BiosRead := Nat × Nat

/-- Puts a read before those of the rest of a run. -/
def afterRead (read : BiosRead) (rest : Option (UInt8 × List BiosRead)) : Option (UInt8 × List BiosRead) :=
  rest.map fun (slot, reads) => (slot, read :: reads)

section Lookup

variable (bios : Nat → UInt8) (dev : PciDev)

/-- The inner loop. -/
def searchEntries : Nat → Nat → Nat → Option (UInt8 × List BiosRead)
  | 0, _, _ => none
  | fuel + 1, nextAddr, stopAddr =>
    if nextAddr < stopAddr then
      let slotEntry := slotEntryAt bios nextAddr
      afterRead (nextAddr, slotEntrySize) <|
        if slotEntry.isFor dev then some (slotEntry.pciSlotNumber, [])
        else searchEntries fuel (nextAddr + slotEntrySize) stopAddr
    else
      some (0, [])

/-- What follows a signature. The search goes on at the signature itself. -/
def searchTable (nextAddr : Nat) : Option (UInt8 × List BiosRead) :=
  let pirEntry := irqRoutingAt bios nextAddr
  afterRead (nextAddr, irqRoutingSize) <|
    if pirEntry.validates then
      searchEntries bios dev biosMemoryLen nextAddr (nextAddr + pirEntry.pciIrqrTableSize)
    else some (0, [])

/-- The outer loop. -/
def searchSignature : Nat → Nat → Option (UInt8 × List BiosRead)
  | 0, _ => none
  | fuel + 1, nextAddr =>
    if nextAddr < biosMemoryLen then
      afterRead (nextAddr, pciIrqRoutingTableSignature.length) <|
        if signatureAt bios nextAddr then searchTable bios dev nextAddr
        else searchSignature fuel (nextAddr + signatureOffset)
    else
      some (0, [])

end Lookup

/-- The slot number, and what is read for it. If the window can be mapped, it is the first
`BIOS_MEMORY_LEN` bytes; what lies behind them is not known. -/
def findSlotNumberBios (ioremap : Option (Nat → UInt8)) (dev : PciDev) : Option (UInt8 × List BiosRead) :=
  match ioremap with
  | none => some (0, [])
  | some bios => searchSignature bios dev biosMemoryLen 0

/-- Reads of the same size one after the other. -/
def strides (start step size m : Nat) : List BiosRead := (List.range m).map fun k => (start + step * k, size)

theorem strides_succ (start step size m : Nat) :
    strides start step size (m + 1) = (start, size) :: strides (start + step) step size m := by
  have next (k : Nat) : start + step * (k + 1) = start + step + step * k := by
    rw [Nat.mul_add, Nat.mul_one, Nat.add_comm (step * k), Nat.add_assoc]
  simp only [strides, List.range_succ_eq_map, List.map_cons, List.map_map, Function.comp_def, Nat.succ_eq_add_one, next,
    Nat.mul_zero, Nat.add_zero]

section Lookup

variable {bios : Nat → UInt8} {dev : PciDev}

/-- The slot number of a piece of 16 bytes, if there is one. -/
def slotOf (bios : Nat → UInt8) (p : Option Nat) : UInt8 := p.elim 0 fun p => (slotEntryAt bios p).pciSlotNumber

/-- The inner loop ends at the first piece for the device. -/
theorem searchEntries_spec {fuel n : Nat} (nextAddr : Nat) (enough : n < fuel) :
    ∃ m r, Scanned (fun k => (slotEntryAt bios (nextAddr + 16 * k)).isFor dev = true) n m r ∧
      searchEntries bios dev fuel nextAddr (nextAddr + 16 * n) =
        some (slotOf bios (r.map fun k => nextAddr + 16 * k), strides nextAddr 16 16 m) := by
  induction n generalizing fuel nextAddr with
  | zero =>
    obtain ⟨fuel, rfl⟩ := Nat.exists_eq_add_one_of_ne_zero (Nat.ne_of_gt enough)
    exact ⟨0, none, .empty, if_neg (Nat.lt_irrefl nextAddr)⟩
  | succ n ih =>
    obtain ⟨fuel, rfl⟩ := Nat.exists_eq_add_one_of_ne_zero (Nat.ne_zero_of_lt enough)
    have more : nextAddr < nextAddr + 16 * (n + 1) := by omega
    rw [searchEntries, if_pos more]
    dsimp only [slotEntrySize]
    cases hit : (slotEntryAt bios nextAddr).isFor dev with
    | true =>
      refine ⟨1, some 0, .here hit, ?_⟩
      rw [strides_succ]
      rfl
    | false =>
      obtain ⟨m, r, scanned, ran⟩ := ih (nextAddr + 16) (Nat.lt_of_succ_lt_succ enough)
      have next (k : Nat) : nextAddr + 16 + 16 * k = nextAddr + 16 * (k + 1) := by omega
      simp only [next] at scanned ran
      refine ⟨m + 1, r.map (· + 1), .later (by simpa using hit) scanned, ?_⟩
      rw [if_neg Bool.false_ne_true, ran, strides_succ, Option.map_map]
      rfl

theorem shortAt_lt (bios : Nat → UInt8) (p : Nat) : shortAt bios p < 65536 := by
  have low := (bios p).toNat_lt
  have high := (bios (p + 1)).toNat_lt
  rw [shortAt]
  omega

/-- The pieces of 16 bytes of a table, its header among them. -/
def tablePieces (bios : Nat → UInt8) (p : Nat) : Nat := (irqRoutingAt bios p).pciIrqrTableSize / 16

theorem PciIrqRouting.validates_iff {table : PciIrqRouting} : table.validates = true ↔
    table.pciIrqrVersion = 0x100 ∧ 32 < table.pciIrqrTableSize ∧ table.pciIrqrTableSize % 16 = 0 := by
  simp only [validates, Bool.and_eq_true, beq_iff_eq, decide_eq_true_eq, and_assoc, systemRequiredVersion,
    systemRequiredMinSize, systemRequiredSizeAlignment, gt_iff_lt]

theorem size_eq_tablePieces {p : Nat} (valid : (irqRoutingAt bios p).validates = true) :
    (irqRoutingAt bios p).pciIrqrTableSize = 16 * tablePieces bios p := by
  have whole := (PciIrqRouting.validates_iff.mp valid).2.2
  rw [tablePieces]
  omega

theorem searchTable_of_invalid {p : Nat} (invalid : (irqRoutingAt bios p).validates = false) :
    searchTable bios dev p = some (0, [(p, 32)]) := by
  rw [searchTable]
  rw [if_neg (Bool.eq_false_iff.mp invalid)]
  rfl

theorem searchTable_of_valid (dev : PciDev) {p : Nat} (valid : (irqRoutingAt bios p).validates = true) :
    ∃ m r, Scanned (fun k => (slotEntryAt bios (p + 16 * k)).isFor dev = true) (tablePieces bios p) m r ∧
      searchTable bios dev p =
        some (slotOf bios (r.map fun k => p + 16 * k), (p, 32) :: strides p 16 16 m) := by
  have enough : tablePieces bios p < biosMemoryLen := by
    have small : (irqRoutingAt bios p).pciIrqrTableSize < 65536 := shortAt_lt bios (p + 6)
    have length : biosMemoryLen = 131072 := rfl
    rw [tablePieces]
    omega
  obtain ⟨m, r, scanned, ran⟩ := searchEntries_spec p enough
  refine ⟨m, r, scanned, ?_⟩
  rw [searchTable]
  rw [if_pos valid, size_eq_tablePieces valid, ran]
  rfl

/-- What the outer loop comes to once it has looked at `m` places. -/
def signatureFound (bios : Nat → UInt8) (dev : PciDev) (nextAddr m : Nat) (r : Option Nat) :
    Option (UInt8 × List BiosRead) :=
  r.elim (some (0, strides nextAddr 16 5 m)) fun k =>
    (searchTable bios dev (nextAddr + 16 * k)).map fun (slot, reads) => (slot, strides nextAddr 16 5 m ++ reads)

theorem searchSignature_spec (bios : Nat → UInt8) (dev : PciDev) {fuel n nextAddr : Nat}
    (length : nextAddr + 16 * n = biosMemoryLen) (enough : n < fuel) :
    ∃ m r, Scanned (fun k => signatureAt bios (nextAddr + 16 * k) = true) n m r ∧
      searchSignature bios dev fuel nextAddr = signatureFound bios dev nextAddr m r := by
  induction n generalizing fuel nextAddr with
  | zero =>
    obtain ⟨fuel, rfl⟩ := Nat.exists_eq_add_one_of_ne_zero (Nat.ne_of_gt enough)
    exact ⟨0, none, .empty, if_neg (by omega)⟩
  | succ n ih =>
    obtain ⟨fuel, rfl⟩ := Nat.exists_eq_add_one_of_ne_zero (Nat.ne_zero_of_lt enough)
    rw [searchSignature, if_pos (by omega)]
    cases hit : signatureAt bios nextAddr with
    | true =>
      refine ⟨1, some 0, .here hit, ?_⟩
      rw [signatureFound, strides_succ]
      rfl
    | false =>
      have onward : nextAddr + 16 + 16 * n = biosMemoryLen := by omega
      obtain ⟨m, r, scanned, ran⟩ := ih onward (Nat.lt_of_succ_lt_succ enough)
      have next (k : Nat) : nextAddr + 16 + 16 * k = nextAddr + 16 * (k + 1) := by omega
      simp only [next] at scanned
      refine ⟨m + 1, r.map (· + 1), .later (by simpa using hit) scanned, ?_⟩
      rw [if_neg Bool.false_ne_true, signatureOffset, ran, signatureFound, signatureFound, strides_succ]
      cases r with
      | none => rfl
      | some k =>
        rw [Option.elim_some, Option.map_some, Option.elim_some, next, afterRead, Option.map_map]
        rfl

/-- The places where a signature may be. -/
def signaturePlaces : Nat := biosMemoryLen / signatureOffset

/-- Everything a lookup can come to. -/
inductive Lookup (bios : Nat → UInt8) (dev : PciDev) : UInt8 → List BiosRead → Prop
  | unsigned : (∀ i < signaturePlaces, ¬ signatureAt bios (16 * i) = true) →
      Lookup bios dev 0 (strides 0 16 5 signaturePlaces)
  | invalid {i : Nat} : First (fun i => signatureAt bios (16 * i) = true) signaturePlaces i →
      (irqRoutingAt bios (16 * i)).validates = false →
      Lookup bios dev 0 (strides 0 16 5 (i + 1) ++ [(16 * i, 32)])
  | table {i m : Nat} {r : Option Nat} : First (fun i => signatureAt bios (16 * i) = true) signaturePlaces i →
      (irqRoutingAt bios (16 * i)).validates = true →
      Scanned (fun k => (slotEntryAt bios (16 * i + 16 * k)).isFor dev = true) (tablePieces bios (16 * i)) m r →
      Lookup bios dev (slotOf bios (r.map fun k => 16 * i + 16 * k))
        (strides 0 16 5 (i + 1) ++ (16 * i, 32) :: strides (16 * i) 16 16 m)

/-- A lookup comes to an end. -/
theorem findSlotNumberBios_lookup (bios : Nat → UInt8) (dev : PciDev) :
    ∃ slot reads, findSlotNumberBios (some bios) dev = some (slot, reads) ∧ Lookup bios dev slot reads := by
  have length : 0 + 16 * signaturePlaces = biosMemoryLen := by decide
  have enough : signaturePlaces < biosMemoryLen := by decide
  obtain ⟨m, r, scanned, ran⟩ := searchSignature_spec bios dev length enough
  simp only [Nat.zero_add] at scanned
  rw [findSlotNumberBios, ran, signatureFound]
  cases scanned with
  | none misses => exact ⟨_, _, rfl, .unsigned misses⟩
  | @some i first =>
    rw [Option.elim_some, Nat.zero_add]
    cases valid : (irqRoutingAt bios (16 * i)).validates with
    | false =>
      rw [searchTable_of_invalid valid]
      exact ⟨_, _, rfl, .invalid first valid⟩
    | true =>
      obtain ⟨m, r, scanned, table⟩ := searchTable_of_valid dev valid
      rw [table]
      exact ⟨_, _, rfl, .table first valid scanned⟩

end Lookup

end IomemoryVsl
