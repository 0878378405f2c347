import IomemoryVsl.Kinfo
import IomemoryVsl.KinfoProc

namespace IomemoryVsl

/-- `strncmp`. A string ends in a NUL. -/
def strncmp : Nat → List UInt8 → List UInt8 → Int
  | 0, _, _ => 0
  | _ + 1, [], [] => 0
  | _ + 1, [], b :: _ => -b.toNat
  | _ + 1, a :: _, [] => a.toNat
  | n + 1, a :: as, b :: bs => if a = b then strncmp n as bs else a.toNat - b.toNat

/-- The loop of `kfio_get_numa_node_override`. A malformed parameter ends it. -/
def findOverride (name : CStr) : List CStr → Option (BitVec 32)
  | [] => none
  | param :: rest =>
    if strncmp name.strlen name.bytes param.bytes = 0 ∧ param.bytes[name.strlen]? = some 61 then
      let value := param.bytes.drop (name.strlen + 1)
      let (node, endptr) := kfioStrtoul value
      if endptr = 0 ∨ value[endptr]? ≠ none then none else some (node.setWidth 32)
    else findOverride name rest

/-- `kfio_get_numa_node_override` with what it leaves in `*nodep`. -/
def kfioGetNumaNodeOverride (numaNodeOverride : List CStr) (name : CStr) (nodep : BitVec 32) : Int × BitVec 32 :=
  match findOverride name numaNodeOverride with
  | some node => (0, node)
  | none => (-enoent, nodep)

/-- What a parameter is about: the name before its first equals sign. -/
def overrideName (param : CStr) : Option (List UInt8) :=
  if 61 ∈ param.bytes then some (param.bytes.takeWhile (· != 61)) else none

/-- The node that a parameter gives, when there is a decimal number and nothing else
behind its first equals sign. -/
def overrideNode (param : CStr) : Option (BitVec 32) :=
  let value := (param.bytes.dropWhile (· != 61)).tail
  if value ≠ [] ∧ value.all Decimal.isDigit then some (BitVec.ofNat 32 (Decimal.value value)) else none

/-- A parameter as an administrator writes it. -/
def overrideText (name : CStr) (node : BitVec 32) : CStr where
  bytes := name.bytes ++ 61 :: Decimal.text node.toNat
  noNul := by
    rw [List.mem_append, List.mem_cons, not_or, not_or]
    refine ⟨name.noNul, by decide, fun member => ?_⟩
    have digit := Decimal.isDigit_of_mem_text member
    cases digit

variable {name param : CStr} {bs value : List UInt8}

theorem strncmp_eq_zero_iff {s : List UInt8} (noNul : 0 ∉ s) : strncmp s.length s bs = 0 ↔ s <+: bs := by
  induction s generalizing bs with
  | nil => exact iff_of_true rfl List.nil_prefix
  | cons a s ih =>
    rw [List.mem_cons, not_or] at noNul
    cases bs with
    | nil =>
      refine iff_of_false (fun zero => noNul.1 ?_) (by simp)
      have nothing : a.toNat = 0 := Int.ofNat.inj zero
      exact (UInt8.toNat_inj.mp nothing).symm
    | cons b bs =>
      rw [List.length_cons, strncmp, List.cons_prefix_cons]
      by_cases same : a = b
      · rw [if_pos same, ih noNul.2, and_iff_right same]
      · rw [if_neg same]
        refine iff_of_false (fun zero => same (UInt8.toNat_inj.mp ?_)) (fun both => same both.1)
        omega

/-- The test of the loop: the parameter is about the name. -/
theorem names_iff : strncmp name.strlen name.bytes param.bytes = 0 ∧ param.bytes[name.strlen]? = some 61 ↔
    ∃ value, param.bytes = name.bytes ++ 61 :: value := by
  rw [CStr.strlen, strncmp_eq_zero_iff name.noNul]
  constructor
  · rintro ⟨⟨rest, split⟩, sign⟩
    rw [← split, List.getElem?_append_right (Nat.le_refl _), Nat.sub_self] at sign
    cases rest with
    | nil => cases sign
    | cons b value =>
      cases sign
      exact ⟨value, split.symm⟩
  · rintro ⟨value, split⟩
    rw [split]
    refine ⟨List.prefix_append _ _, ?_⟩
    rw [List.getElem?_append_right (Nat.le_refl _), Nat.sub_self]
    rfl

theorem takeWhile_sign {s : List UInt8} (plain : 61 ∉ s) : (s ++ 61 :: value).takeWhile (· != 61) = s := by
  have all : ∀ b ∈ s, (b != 61) = true := by
    intro b member
    rw [bne_iff_ne]
    rintro rfl
    exact plain member
  rw [List.takeWhile_append_of_pos all]
  exact List.append_nil s

theorem dropWhile_sign {s : List UInt8} (plain : 61 ∉ s) :
    (s ++ 61 :: value).dropWhile (· != 61) = 61 :: value := by
  have all : ∀ b ∈ s, (b != 61) = true := by
    intro b member
    rw [bne_iff_ne]
    rintro rfl
    exact plain member
  rw [List.dropWhile_append_of_pos all]
  rfl

theorem overrideName_iff (plain : 61 ∉ name.bytes) :
    overrideName param = some name.bytes ↔ ∃ value, param.bytes = name.bytes ++ 61 :: value := by
  rw [overrideName]
  constructor
  · intro same
    split at same
    · rename_i signed
      obtain ⟨front, value, split, first⟩ := List.eq_append_cons_of_mem signed
      rw [split, takeWhile_sign first] at same
      exact ⟨value, Option.some.inj same ▸ split⟩
    · cases same
  · rintro ⟨value, split⟩
    rw [split, if_pos (by simp), takeWhile_sign plain]

/-- The number is read in full exactly when there are digits and nothing else. -/
theorem kfioStrtoul_whole_iff : ((kfioStrtoul value).2 = 0 ∨ value[(kfioStrtoul value).2]? ≠ none) ↔
    ¬(value ≠ [] ∧ value.all Decimal.isDigit = true) := by
  have count : (kfioStrtoul value).2 = (Decimal.digits value).length := rfl
  have prefix' : Decimal.digits value <+: value := List.takeWhile_prefix _
  rw [count, ← not_iff_not, not_not, not_or, not_not, List.getElem?_eq_none_iff]
  constructor
  · rintro ⟨some, whole⟩
    have same := prefix'.eq_of_length_le whole
    refine ⟨?_, ?_⟩
    · rintro rfl
      exact some rfl
    · rw [Decimal.digits, List.takeWhile_eq_self_iff] at same
      exact List.all_eq_true.mpr same
  · rintro ⟨some, all⟩
    have same : Decimal.digits value = value := List.takeWhile_eq_self_iff.mpr (List.all_eq_true.mp all)
    rw [same]
    exact ⟨fun none => some (List.eq_nil_of_length_eq_zero none), Nat.le_refl _⟩

/-- What the loop makes of a parameter that is about the name. -/
theorem findOverride_match {rest : List CStr} (plain : 61 ∉ name.bytes)
    (split : param.bytes = name.bytes ++ 61 :: value) :
    findOverride name (param :: rest) = overrideNode param := by
  have behind : param.bytes.drop (name.strlen + 1) = value := by
    rw [split, CStr.strlen, List.drop_append, List.drop_eq_nil_of_le (Nat.le_succ _), Nat.add_sub_cancel_left]
    rfl
  have tail : (param.bytes.dropWhile (· != 61)).tail = value := by
    rw [split, dropWhile_sign plain]
    rfl
  rw [findOverride, if_pos (names_iff.mpr ⟨value, split⟩), behind, overrideNode, tail]
  by_cases good : value ≠ [] ∧ value.all Decimal.isDigit = true
  · have same : Decimal.digits value = value := List.takeWhile_eq_self_iff.mpr (List.all_eq_true.mp good.2)
    have number : (kfioStrtoul value).1.setWidth 32 = BitVec.ofNat 32 (Decimal.value value) := by
      rw [kfioStrtoul, kfioStrtoull, same]
      exact BitVec.setWidth_ofNat_of_le (by decide) _
    rw [if_pos good, ← number]
    exact if_neg (not_not.mpr good ∘ kfioStrtoul_whole_iff.mp)
  · rw [if_neg good]
    exact if_pos (kfioStrtoul_whole_iff.mpr good)

/-- The first parameter that is about the name decides. -/
theorem findOverride_eq (plain : 61 ∉ name.bytes) (overrides : List CStr) :
    findOverride name overrides =
      (overrides.find? fun param => overrideName param = some name.bytes).bind overrideNode := by
  induction overrides with
  | nil => rfl
  | cons param rest ih =>
    by_cases about : overrideName param = some name.bytes
    · obtain ⟨value, split⟩ := (overrideName_iff plain).mp about
      rw [findOverride_match plain split, List.find?_cons_of_pos (by simpa using about)]
      rfl
    · have skipped := mt names_iff.mp (mt (overrideName_iff plain).mpr about)
      rw [findOverride, if_neg skipped, ih, List.find?_cons_of_neg (by simpa using about)]

theorem overrideName_text {node : BitVec 32} (plain : 61 ∉ name.bytes) :
    overrideName (overrideText name node) = some name.bytes := (overrideName_iff plain).mpr ⟨_, rfl⟩

theorem overrideNode_text {node : BitVec 32} (plain : 61 ∉ name.bytes) :
    overrideNode (overrideText name node) = some node := by
  have tail : ((overrideText name node).bytes.dropWhile (· != 61)).tail = Decimal.text node.toNat := by
    rw [overrideText, dropWhile_sign plain]
    rfl
  have digits : Decimal.text node.toNat ≠ [] ∧ (Decimal.text node.toNat).all Decimal.isDigit = true :=
    ⟨Decimal.text_ne_nil, List.all_eq_true.mpr fun b member => Decimal.isDigit_of_mem_text member⟩
  rw [overrideNode, tail, if_pos digits, Decimal.value_text, BitVec.ofNat_toNat, BitVec.setWidth_eq]

/-- A node is found as the parameters say, whatever they are: the first one about the name
decides, and what is malformed there is an error. Parameters that are written from a table
are looked up in it. -/
theorem kfioGetNumaNodeOverride_reads (plain : 61 ∉ name.bytes) (nodep : BitVec 32) :
    (∀ overrides : List CStr, kfioGetNumaNodeOverride overrides name nodep =
      match (overrides.find? fun param => overrideName param = some name.bytes).bind overrideNode with
      | some node => (0, node)
      | none => (-enoent, nodep)) ∧
    ∀ table : List (CStr × BitVec 32), (∀ entry ∈ table, 61 ∉ entry.1.bytes) →
      kfioGetNumaNodeOverride (table.map fun entry => overrideText entry.1 entry.2) name nodep =
        match table.lookup name with
        | some node => (0, node)
        | none => (-enoent, nodep) := by
  constructor
  · intro overrides
    rw [kfioGetNumaNodeOverride, findOverride_eq plain]
  · intro table names
    have same : findOverride name (table.map fun entry => overrideText entry.1 entry.2) = table.lookup name := by
      rw [findOverride_eq plain]
      induction table with
      | nil => rfl
      | cons entry rest ih =>
        have here := names entry List.mem_cons_self
        have others := ih fun other member => names other (List.mem_cons_of_mem entry member)
        obtain ⟨key, node⟩ := entry
        rw [List.map_cons, List.lookup_cons]
        by_cases about : name = key
        · subst about
          rw [List.find?_cons_of_pos (by simpa using overrideName_text here), Option.bind_some,
            overrideNode_text here,
            beq_self_eq_true]
        · have different : overrideName (overrideText key node) ≠ some name.bytes := by
            rw [overrideName_text here]
            intro both
            cases key
            cases name
            cases Option.some.inj both
            exact about rfl
          rw [List.find?_cons_of_neg (by simpa using different), others, beq_false_of_ne about]
    rw [kfioGetNumaNodeOverride, same]

/-- The parameters `0:2=1` and `0:2.0=7`, for the device `0:2.0`. -/
theorem kfioGetNumaNodeOverride_reads_pipeline :
    let short : CStr := ⟨[48, 58, 50], by decide⟩
    let device : CStr := ⟨[48, 58, 50, 46, 48], by decide⟩
    kfioGetNumaNodeOverride
        ([(short, 1#32), (device, 7#32)].map fun entry => overrideText entry.1 entry.2) device 0#32 =
      (0, 7#32) := by
  intro short device
  rw [(kfioGetNumaNodeOverride_reads (by decide) 0#32).2 _ (by decide)]
  rfl

end IomemoryVsl
