import IomemoryVsl.PciSlot

namespace IomemoryVsl

open FirstHit

/-- `$PIR` stands there, whatever comes behind it. -/
def pirAt (bios : Nat → UInt8) (p : Nat) : Bool := memcpyFromio bios p 4 == pciIrqRoutingTableSignature.take 4

/-- A table is at the first `$PIR` of the image, and inside the image. -/
structure TableInside (bios : Nat → UInt8) (i : Nat) : Prop where
  first : First (fun i => pirAt bios (16 * i) = true) signaturePlaces i
  valid : (irqRoutingAt bios (16 * i)).validates = true
  inside : 16 * i + (irqRoutingAt bios (16 * i)).pciIrqrTableSize ≤ biosMemoryLen

/-- The entries of the slot array, which follows the header. -/
def slotsOf (bios : Nat → UInt8) (i : Nat) : Nat :=
  ((irqRoutingAt bios (16 * i)).pciIrqrTableSize - irqRoutingSize) / slotEntrySize

def slotArrayAt (bios : Nat → UInt8) (i k : Nat) : PciSlotEntry :=
  slotEntryAt bios (16 * i + irqRoutingSize + slotEntrySize * k)

/-- What the slot number that is found has to be. -/
structure SlotSpec (bios : Nat → UInt8) (dev : PciDev) (slot : UInt8) : Prop where
  entry : slot ≠ 0 → ∃ i k, TableInside bios i ∧ k < slotsOf bios i ∧
    (slotArrayAt bios i k).isFor dev = true ∧ (slotArrayAt bios i k).pciSlotNumber = slot
  first : ∀ i k, TableInside bios i → First (fun k => (slotArrayAt bios i k).isFor dev = true) (slotsOf bios i) k →
    slot = (slotArrayAt bios i k).pciSlotNumber

/-- When a piece of the table that is searched is for the device, the table is the one to be
searched, and the first piece has the number of the first entry of the slot array. -/
def PiecesAgree (bios : Nat → UInt8) (dev : PciDev) : Prop :=
  ∀ i h, First (fun i => signatureAt bios (16 * i) = true) signaturePlaces i →
    (irqRoutingAt bios (16 * i)).validates = true →
    First (fun h => (slotEntryAt bios (16 * i + 16 * h)).isFor dev = true) (tablePieces bios (16 * i)) h →
    TableInside bios i ∧ ∃ k, First (fun k => (slotArrayAt bios i k).isFor dev = true) (slotsOf bios i) k ∧
      (slotArrayAt bios i k).pciSlotNumber = (slotEntryAt bios (16 * i + 16 * h)).pciSlotNumber

variable {bios : Nat → UInt8} {dev : PciDev} {i j k p : Nat}

theorem signatureAt_iff : signatureAt bios p = true ↔ pirAt bios p = true ∧ bios (p + 4) = 0 := by
  simp [signatureAt, pirAt, memcpyFromio, pciIrqRoutingTableSignature, List.range_succ, and_assoc]

/-- The version of a valid table begins with the terminator that the search wants. -/
theorem signatureAt_of_valid (pir : pirAt bios p = true) (valid : (irqRoutingAt bios p).validates = true) :
    signatureAt bios p = true := by
  have version : (bios (p + 4)).toNat + 256 * (bios (p + 4 + 1)).toNat = 0x100 :=
    (PciIrqRouting.validates_iff.mp valid).1
  have low := (bios (p + 4)).toNat_lt
  refine signatureAt_iff.mpr ⟨pir, UInt8.toNat_inj.mp ?_⟩
  rw [UInt8.toNat_zero]
  omega

/-- The table at the first `$PIR` is the one that is searched. -/
theorem TableInside.searched (table : TableInside bios i) :
    First (fun i => signatureAt bios (16 * i) = true) signaturePlaces i :=
  ⟨table.first.1, signatureAt_of_valid table.first.2.1 table.valid,
    fun j before signed => table.first.2.2 j before (signatureAt_iff.mp signed).1⟩

theorem slotArrayAt_eq (bios : Nat → UInt8) (i k : Nat) :
    slotArrayAt bios i k = slotEntryAt bios (16 * i + 16 * (k + 2)) := by
  have address : 16 * i + 32 + 16 * k = 16 * i + 16 * (k + 2) := by omega
  rw [slotArrayAt, irqRoutingSize, slotEntrySize, address]

theorem lt_slotsOf (below : k < slotsOf bios i) : k + 2 < tablePieces bios (16 * i) := by
  rw [slotsOf, irqRoutingSize, slotEntrySize] at below
  rw [tablePieces]
  omega

theorem slot_ne_zero {entry : PciSlotEntry} (isFor : entry.isFor dev = true) : entry.pciSlotNumber ≠ 0 := by
  simp only [PciSlotEntry.isFor, Bool.and_eq_true, decide_eq_true_eq] at isFor
  rintro zero
  rw [zero] at isFor
  exact absurd isFor.2 (by decide)

/-- Nothing is found, and no table at the first `$PIR` has an entry for the device. -/
theorem slotSpec_zero
    (none : ∀ i k, TableInside bios i → k < slotsOf bios i → ¬ (slotArrayAt bios i k).isFor dev = true) :
    SlotSpec bios dev 0 :=
  ⟨fun nonzero => absurd rfl nonzero, fun i k table first => absurd first.2.1 (none i k table first.1)⟩

theorem slotSpec_iff {slot : UInt8} {reads : List BiosRead} (lookup : Lookup bios dev slot reads) :
    SlotSpec bios dev slot ↔ PiecesAgree bios dev := by
  cases lookup with
  | unsigned none =>
    refine iff_of_true (slotSpec_zero fun i k table => ?_) fun i h signed => ?_
    · exact absurd table.searched.2.1 (none i table.searched.1)
    · exact absurd signed.2.1 (none i signed.1)
  | @invalid i first invalid =>
    refine iff_of_true (slotSpec_zero fun j k table => ?_) fun j h signed valid => ?_
    · have valid := first.unique table.searched ▸ table.valid
      exact absurd (valid.symm.trans invalid) (by decide)
    · rw [← first.unique signed, invalid] at valid
      cases valid
  | @table i m r first valid scanned =>
    cases scanned with
    | none misses =>
      refine iff_of_true (slotSpec_zero fun j k table below isFor => ?_) fun j h signed _ piece => ?_
      · rw [← first.unique table.searched] at below isFor
        rw [slotArrayAt_eq] at isFor
        exact misses (k + 2) (lt_slotsOf below) isFor
      · rw [← first.unique signed] at piece
        exact absurd piece.2.1 (misses h piece.1)
    | @some h piece =>
      have found : slotOf bios ((some h).map fun k => 16 * i + 16 * k) =
        (slotEntryAt bios (16 * i + 16 * h)).pciSlotNumber := rfl
      rw [found]
      constructor
      · intro spec j g signed _ other
        cases first.unique signed
        cases piece.unique other
        obtain ⟨j, k, table, below, isFor, _⟩ := spec.entry (slot_ne_zero piece.2.1)
        cases first.unique table.searched
        obtain ⟨k, _, entry⟩ := exists_first (p := fun k => (slotArrayAt bios i k).isFor dev = true) below isFor
        exact ⟨table, k, entry, (spec.first i k table entry).symm⟩
      · intro agree
        obtain ⟨table, k, entry, same⟩ := agree i h first valid piece
        refine ⟨fun _ => ⟨i, k, table, entry.1, entry.2.1, same⟩, fun j l other earliest => ?_⟩
        cases first.unique other.searched
        rw [← entry.unique earliest, same]

/-- The table at a place is read as it is meant: no half of its header names the device, all of it is in
the window, and no other `$PIR` comes before it. -/
structure ReadAsMeant (bios : Nat → UInt8) (dev : PciDev) (i : Nat) : Prop where
  header : ∀ h < 2, ¬ (slotEntryAt bios (16 * i + 16 * h)).isFor dev = true
  inside : 16 * i + (irqRoutingAt bios (16 * i)).pciIrqrTableSize ≤ biosMemoryLen
  first : ∀ j < i, ¬ pirAt bios (16 * j) = true

/-- The table that is searched, if there is a valid one, is read as it is meant. -/
def TableReadAsMeant (bios : Nat → UInt8) (dev : PciDev) : Prop :=
  ∀ i, First (fun i => signatureAt bios (16 * i) = true) signaturePlaces i →
    (irqRoutingAt bios (16 * i)).validates = true → ReadAsMeant bios dev i

/-- It does no harm how the table is read: no piece of it names the device, or the first half of the header
that does has by chance the number of the first entry that does. -/
def Harmless (bios : Nat → UInt8) (dev : PciDev) (i : Nat) : Prop :=
  (∀ h < tablePieces bios (16 * i), ¬ (slotEntryAt bios (16 * i + 16 * h)).isFor dev = true) ∨
    TableInside bios i ∧ ∃ h k, First (fun h => (slotEntryAt bios (16 * i + 16 * h)).isFor dev = true) 2 h ∧
      First (fun k => (slotArrayAt bios i k).isFor dev = true) (slotsOf bios i) k ∧
      (slotArrayAt bios i k).pciSlotNumber = (slotEntryAt bios (16 * i + 16 * h)).pciSlotNumber

/-- A table that is read as it is meant has an entry for the device in the place of its first piece
for it. -/
theorem ReadAsMeant.entry {h : Nat} (meant : ReadAsMeant bios dev i)
    (valid : (irqRoutingAt bios (16 * i)).validates = true)
    (piece : First (fun h => (slotEntryAt bios (16 * i + 16 * h)).isFor dev = true) (tablePieces bios (16 * i)) h) :
    ∃ k, First (fun k => (slotArrayAt bios i k).isFor dev = true) (slotsOf bios i) k ∧
      (slotArrayAt bios i k).pciSlotNumber = (slotEntryAt bios (16 * i + 16 * h)).pciSlotNumber := by
  obtain ⟨k, rfl⟩ : ∃ k, h = k + 2 := by
    have behind : 2 ≤ h := by
      by_contra half
      exact meant.header h (Nat.not_le.mp half) piece.2.1
    exact ⟨h - 2, (Nat.sub_add_cancel behind).symm⟩
  have size := size_eq_tablePieces valid
  have below := piece.1
  refine ⟨k, ⟨?_, ?_, ?_⟩, ?_⟩
  · rw [slotsOf, size, irqRoutingSize, slotEntrySize]
    omega
  · dsimp only
    rw [slotArrayAt_eq]
    exact piece.2.1
  · intro j before isFor
    rw [slotArrayAt_eq] at isFor
    exact piece.2.2 (j + 2) (by omega) isFor
  · rw [slotArrayAt_eq]

/-- Where the pieces agree, the table is read as it is meant or that does no harm. -/
theorem PiecesAgree.meant_or_harmless (agree : PiecesAgree bios dev)
    (signed : First (fun i => signatureAt bios (16 * i) = true) signaturePlaces i)
    (valid : (irqRoutingAt bios (16 * i)).validates = true) : ReadAsMeant bios dev i ∨ Harmless bios dev i := by
  by_cases named : ∃ h < tablePieces bios (16 * i), (slotEntryAt bios (16 * i + 16 * h)).isFor dev = true
  · obtain ⟨g, below, isFor⟩ := named
    obtain ⟨h, _, piece⟩ :=
      exists_first (p := fun h => (slotEntryAt bios (16 * i + 16 * h)).isFor dev = true) below isFor
    obtain ⟨table, k, entry, same⟩ := agree i h signed valid piece
    rcases Nat.lt_or_ge h 2 with half | behind
    · exact .inr (.inr ⟨table, h, k, ⟨half, piece.2⟩, entry, same⟩)
    · exact .inl ⟨fun g low => piece.2.2 g (by omega), table.inside, table.first.2.2⟩
  · exact .inr (.inl fun h below isFor => named ⟨h, below, isFor⟩)

theorem piecesAgree_iff : PiecesAgree bios dev ↔
    ∀ i, First (fun i => signatureAt bios (16 * i) = true) signaturePlaces i →
      (irqRoutingAt bios (16 * i)).validates = true → ReadAsMeant bios dev i ∨ Harmless bios dev i := by
  refine ⟨fun agree i signed valid => agree.meant_or_harmless signed valid, fun right i h signed valid piece => ?_⟩
  rcases right i signed valid with meant | silent | ⟨table, g, k, half, entry, same⟩
  · have pir := (signatureAt_iff.mp signed.2.1).1
    exact ⟨⟨⟨signed.1, pir, meant.first⟩, valid, meant.inside⟩, meant.entry valid piece⟩
  · exact absurd piece.2.1 (silent h piece.1)
  · cases half.unique piece
    exact ⟨table, k, entry, same⟩

/-- The number found is right when the table is read as it is meant, and otherwise only where that
does no harm. -/
theorem findSlotNumberBios_slot (bios : Nat → UInt8) (dev : PciDev) :
    ∃ slot reads, findSlotNumberBios (some bios) dev = some (slot, reads) ∧
      (TableReadAsMeant bios dev → SlotSpec bios dev slot) ∧
      (SlotSpec bios dev slot ↔ ∀ i, First (fun i => signatureAt bios (16 * i) = true) signaturePlaces i →
        (irqRoutingAt bios (16 * i)).validates = true → ReadAsMeant bios dev i ∨ Harmless bios dev i) := by
  obtain ⟨slot, reads, ran, lookup⟩ := findSlotNumberBios_lookup bios dev
  have right := (slotSpec_iff lookup).trans piecesAgree_iff
  exact ⟨slot, reads, ran, fun meant => right.mpr fun i signed valid => .inl (meant i signed valid), right⟩

/-- An image of one table with the given entry. Its header names a router. -/
def oneEntryImage (entry : List UInt8) : Nat → UInt8 := fun p =>
  ([0x24, 0x50, 0x49, 0x52, 0x00, 0x01, 0x30, 0x00, 0x00, 0xf8, 0x00, 0x00, 0x86, 0x80, 0x10, 0x71] ++
    List.replicate 16 0 ++ entry).getD p 0

/-- The slot of an entry for the device is found. -/
theorem findSlotNumberBios_slot_entry :
    (findSlotNumberBios (some (oneEntryImage [1, 8, 0, 0, 0, 0, 0, 0, 0, 0, 0, 0, 0, 0, 3])) ⟨1, 8⟩).map Prod.fst =
      some 3 ∧ SlotSpec (oneEntryImage [1, 8, 0, 0, 0, 0, 0, 0, 0, 0, 0, 0, 0, 0, 3]) ⟨1, 8⟩ 3 := by
  generalize image : oneEntryImage [1, 8, 0, 0, 0, 0, 0, 0, 0, 0, 0, 0, 0, 0, 3] = bios
  have number : (findSlotNumberBios (some bios) ⟨1, 8⟩).map Prod.fst = some 3 := by
    rw [← image]
    decide
  have meant : TableReadAsMeant bios ⟨1, 8⟩ := by
    rw [← image]
    intro i signed _
    cases (first_zero (p := fun i => signatureAt _ (16 * i) = true) Nat.one_pos (by decide)).unique signed
    exact ⟨by decide, by decide, fun j below => absurd below (Nat.not_lt_zero j)⟩
  obtain ⟨slot, reads, ran, sound, _⟩ := findSlotNumberBios_slot bios ⟨1, 8⟩
  rw [ran, Option.map_some] at number
  cases number
  refine ⟨?_, sound meant⟩
  rw [ran]
  rfl

/-- The entry is for no device. -/
def headerImage : Nat → UInt8 := oneEntryImage []

/-- The device at the bus and the address that the letters `$P` stand for is found in the header. -/
theorem findSlotNumberBios_header :
    (findSlotNumberBios (some headerImage) ⟨0x24, 0x50⟩).map Prod.fst = some 0x10 ∧
      ¬ SlotSpec headerImage ⟨0x24, 0x50⟩ 0x10 := by
  refine ⟨by decide, fun spec => ?_⟩
  obtain ⟨i, k, table, below, isFor, _⟩ := spec.entry (by decide)
  cases (first_zero (p := fun i => pirAt headerImage (16 * i) = true) Nat.one_pos (by decide)).unique table.first
  have one : slotsOf headerImage 0 = 1 := by decide
  rw [one, Nat.lt_one_iff] at below
  rw [below] at isFor
  exact absurd isFor (by decide)

end IomemoryVsl
