/-
# PC-relative pairs of RISC-V relocations

An `auipc` has the upper 20 bits of a PC-relative value and the instruction after it the lower 12.
The relocation of the second names a label at the first (`RelocationKind::RelativeRiscVLow12` in
`elf_writer.rs`), so its value is found by looking up the relocation there and computing the value
again.  Both computations give the same result where the low part finds the right relocation, and
where a string in a merged section is found by the right table (`pcrel_pair_iff`).  The second fails
for objects other than the first: the low part takes the object's part of the table of section
parts, but indexes it as if it were the whole (`second_object_string`).

Addresses are words of 64 bits with wrapping arithmetic.  Relocations are assumed to parse.
-/
import Srs.Dynamic.Flags
import Srs.Relaxation.Deltas
import Srs.StringMerging.Merge

namespace Srs.Relocation

open Srs.Dynamic Relaxation StringMerging List Option BitVec

abbrev Address := BitVec 64

/-! ## 1. Relocation types -/

inductive RiscVRelocationType where
  | hi20
  | pcrelHi20
  | gotHi20
  | tlsGotHi20
  | tlsGdHi20
  | tprelHi20
  | pcrelLo12I
  | pcrelLo12S
  | other (raw : Nat)
  deriving DecidableEq

inductive PageMask where
  | symbolPlusAddendAndPosition (mask : Address)
  | gotEntryAndPosition (mask : Address)
  | gotBase (mask : Address)
  | position (mask : Address)
  deriving DecidableEq

structure PageMaskValue where
  symbolPlusAddend : Address := allOnes 64
  gotEntry : Address := allOnes 64
  place : Address := allOnes 64
  got : Address := allOnes 64
  deriving DecidableEq

def getPageMask : Option PageMask → PageMaskValue
  | none => {}
  | some (.symbolPlusAddendAndPosition mask) => { symbolPlusAddend := ~~~mask, place := ~~~mask }
  | some (.gotEntryAndPosition mask) => { gotEntry := ~~~mask, place := ~~~mask }
  | some (.gotBase mask) => { got := ~~~mask }
  | some (.position mask) => { place := ~~~mask }

structure RelocationKindInfo where
  kind : RelocationKind
  mask : Option PageMask
  bias : Address
  deriving DecidableEq

namespace RiscVRelocationType

/-- `relocation_type_from_raw`, for the types that are modelled -/
def relocationFromRaw : RiscVRelocationType → Option RelocationKindInfo
  | hi20 => some ⟨.absolute, none, 0⟩
  | pcrelHi20 => some ⟨.relative, none, 0⟩
  | gotHi20 => some ⟨.gotRelative, none, 0⟩
  | tlsGotHi20 => some ⟨.gotTpOff, none, 0⟩
  | tlsGdHi20 => some ⟨.tlsGd, none, 0⟩
  | tprelHi20 => some ⟨.tpOff, none, 0⟩
  | pcrelLo12I | pcrelLo12S => some ⟨.relativeRiscVLow12, none, 0⟩
  | other _ => none

/-- `high_part_relocations` -/
def isHighPart : RiscVRelocationType → Bool
  | hi20 | pcrelHi20 | gotHi20 | tlsGotHi20 | tlsGdHi20 | tprelHi20 => true
  | _ => false

/-- The high parts that a PC-relative low part may refer to. -/
def isPcrelHigh : RiscVRelocationType → Bool
  | pcrelHi20 | gotHi20 | tlsGotHi20 | tlsGdHi20 => true
  | _ => false

def isPcrelLow : RiscVRelocationType → Bool
  | pcrelLo12I | pcrelLo12S => true
  | _ => false

end RiscVRelocationType

structure Rel where
  rType : RiscVRelocationType
  offset : Nat
  addend : Int
  symbol : Option Nat
  deriving DecidableEq

/-- `addend as u64` -/
def Rel.addendBits (r : Rel) : Address := BitVec.ofInt 64 r.addend

/-! ## 2. Symbols and their values -/

structure Resolution where
  rawValue : Address
  flags : ValueFlags
  gotAddress : Option Address
  pltAddress : Option Address
  deriving DecidableEq

namespace Resolution

variable (res : Resolution)

def gotAddressForRelocation : Option Address :=
  res.gotAddress.map fun got => if res.flags.ifuncGotForAddress then got + 8 else got

def tlsgdGotAddress : Option Address :=
  res.gotAddress.map fun got => if res.flags.gotTlsOffset then got + 8 else got

end Resolution

structure SymbolEntry where
  sectionIndex : Option Nat
  value : Nat
  hasName : Bool
  deriving DecidableEq

/-- The section ids of an object, and whether its sections are merged: `start_input_offset` of the
slots for merged strings. -/
structure ObjectSections where
  startSectionId : Nat
  mergeSlots : List (Option Nat)
  deriving DecidableEq

namespace ObjectSections

def numSections (o : ObjectSections) : Nat := o.mergeSlots.length

/-- `section_id_range.input_to_id` -/
def inputToId (o : ObjectSections) (sectionIndex : Nat) : Nat := o.startSectionId + sectionIndex

/-- `&section_part_ids[section_id_range.as_usize()]`: the entries of this object -/
def slice {α : Type} (o : ObjectSections) (table : List α) : List α :=
  (table.drop o.startSectionId).take o.numSections

end ObjectSections

/-- What the symbols of an object resolve to, and the merged strings of the output.  The part of a
section is given by the output section it belongs to. -/
structure PairEnv where
  sections : ObjectSections
  symbols : Nat → Option SymbolEntry
  /-- `get_resolution` -/
  resolution : Nat → Option Resolution
  sectionPartIds : List Nat
  mergedStrings : Nat → MergedStringsSection
  /-- The address of each bucket of an output section. -/
  mergedStringStartAddresses : Nat → Nat → Address
  tlsldGotEntry : Option Address

namespace PairEnv

variable (env : PairEnv)

/-- The string at an offset of a merged section, in some output section -/
def mergedStringAddress (outputSectionId startInputOffset inputOffset : Nat) : Option Address :=
  match findString startInputOffset inputOffset (env.mergedStrings outputSectionId) with
  | .ok offset =>
    some (env.mergedStringStartAddresses outputSectionId offset.bucket
      + BitVec.ofNat 64 offset.offsetInBucket)
  | .error _ => none

/-- The offset at which a string is looked up: an unnamed symbol stands for its section, so the
addend counts. -/
def lookupOffset (symbol : SymbolEntry) (addend : Address) : Nat :=
  if symbol.hasName then symbol.value else (BitVec.ofNat 64 symbol.value + addend).toNat

/-- `get_merged_string_output_address`: `none` is a failure, `some none` that the symbol is not in
a merged section.  `sectionPartIds` is the table it is given -/
def getMergedStringOutputAddress (sectionPartIds : List Nat) (symbolIndex : Nat) (addend : Address) :
    Option (Option Address) := do
  let symbol ← env.symbols symbolIndex
  match symbol.sectionIndex with
  | none => some none
  | some sectionIndex =>
    match ← env.sections.mergeSlots[sectionIndex]? with
    | none => some none
    | some startInputOffset =>
      let outputSectionId ← sectionPartIds[env.sections.inputToId sectionIndex]?
      let address ← env.mergedStringAddress outputSectionId startInputOffset
        (lookupOffset symbol addend)
      some (some (if symbol.hasName then address + addend else address))

/-- `Resolution::value_with_addend` -/
def valueWithAddend (res : Resolution) (addend : Address) (symbolIndex : Nat)
    (sectionPartIds : List Nat) : Option Address :=
  if res.flags.ifunc then res.pltAddress.map (· + addend)
  else if res.rawValue = 0 then
    (env.getMergedStringOutputAddress sectionPartIds symbolIndex addend).map fun merged =>
      merged.getD (res.rawValue + addend)
  else some (res.rawValue + addend)

end PairEnv

/-! ## 3. The loop over the relocations of a section -/

/-- The deletions that are not yet passed, and the bytes deleted before them. -/
structure RelaxCursor where
  deltas : List RelaxDelta
  currentCumulative : Nat
  deriving DecidableEq

/-- The loop of `RelaxCursor::translate`, over the deletions that are left -/
def RelaxCursor.advance (inputOffset : Nat) : List RelaxDelta → Nat → RelaxCursor
  | [], cumulative => ⟨[], cumulative⟩
  | d :: rest, cumulative =>
    if d.inputOffset < inputOffset then advance inputOffset rest d.cumulativeDeleted
    else ⟨d :: rest, cumulative⟩

/-- A section, with its relocations in the order they are applied.  Those that a relaxation makes
the loop skip are marked. -/
structure PairSection where
  address : Address
  relaxDeltas : Option SectionRelaxDeltas
  relocations : List (Rel × Bool)
  deriving DecidableEq

structure LoopState where
  relaxCursor : RelaxCursor
  /-- `relocation_cache.high_part_symbols`, with later entries first -/
  highPartSymbols : List (Address × Rel)
  deriving DecidableEq

namespace PairSection

variable (sec : PairSection)

/-- `opt_input_to_output` of a relocation's offset -/
def outputOffset (rel : Rel) : Address := BitVec.ofNat 64 (optInputToOutput sec.relaxDeltas rel.offset)

def start : LoopState := ⟨⟨(sec.relaxDeltas.map (·.deltas)).getD [], 0⟩, []⟩

/-- One turn of the loop of `apply_relocations`, for the next turns. -/
def step (s : LoopState) (entry : Rel × Bool) : LoopState where
  relaxCursor :=
    if entry.2 then s.relaxCursor
    else RelaxCursor.advance entry.1.offset s.relaxCursor.deltas s.relaxCursor.currentCumulative
  highPartSymbols :=
    if entry.1.rType.isHighPart then (sec.outputOffset entry.1, entry.1) :: s.highPartSymbols
    else s.highPartSymbols

/-- The state before the relocation with an index. -/
def stateAt (n : Nat) : LoopState := (sec.relocations.take n).foldl sec.step sec.start

/-- The place at which a relocation with an index is applied. -/
def placeAt (n : Nat) (rel : Rel) : Address :=
  let s := (sec.stateAt n).relaxCursor
  sec.address + (BitVec.ofNat 64 rel.offset
    - BitVec.ofNat 64 (RelaxCursor.advance rel.offset s.deltas s.currentCumulative).currentCumulative)

end PairSection

/-! ## 4. The values of both parts -/

namespace PairEnv

variable (env : PairEnv)

/-- The value of `apply_relocation`, for the kinds that are relative to the place. -/
def relocationValue (info : RelocationKindInfo) (rel : Rel) (place : Address) : Option Address := do
  let symbolIndex ← rel.symbol
  let res ← env.resolution symbolIndex
  let mask := getPageMask info.mask
  match info.kind with
  | .relative =>
    let value ← env.valueWithAddend res rel.addendBits symbolIndex env.sectionPartIds
    some (((value + info.bias) &&& mask.symbolPlusAddend) - (place &&& mask.place))
  | .gotRelative =>
    let got ← res.gotAddressForRelocation
    some (((got + info.bias + rel.addendBits) &&& mask.gotEntry) - (place &&& mask.place))
  | .tlsGd =>
    let got ← res.tlsgdGotAddress
    some (((got + rel.addendBits + info.bias) &&& mask.gotEntry) - (place &&& mask.place))
  | .tlsLd =>
    let got ← env.tlsldGotEntry
    some (((got + rel.addendBits + info.bias) &&& mask.gotEntry) - (place &&& mask.place))
  | .gotTpOff =>
    let got ← res.gotAddress
    some (((got + rel.addendBits + info.bias) &&& mask.gotEntry) - (place &&& mask.place))
  | _ => none

/-- What the high part with an index writes. -/
def highValue (sec : PairSection) (n : Nat) (rel : Rel) : Option Address := do
  let info ← rel.rType.relocationFromRaw
  env.relocationValue info rel (sec.placeAt n rel)

/-- The high part at an offset of the output: the last one before, or else the first one after. -/
def findHigh (sec : PairSection) (n : Nat) (hiOffset : Address) : Option Rel :=
  (((sec.stateAt n).highPartSymbols.find? fun entry => entry.1 == hiOffset).map (·.2)).or
    (((sec.relocations.drop (n + 1)).map (·.1)).find? fun r =>
      r.rType.isHighPart && sec.outputOffset r == hiOffset)

/-- The address of the label that a low part names. -/
def labelAddress (rel : Rel) : Option Address := do
  let symbolIndex ← rel.symbol
  let res ← env.resolution symbolIndex
  env.valueWithAddend res rel.addendBits symbolIndex env.sectionPartIds

/-- `RelocationKind::RelativeRiscVLow12` of `apply_relocation` -/
def lowValue (sec : PairSection) (n : Nat) (rel : Rel) : Option Address := do
  let info ← rel.rType.relocationFromRaw
  if rel.addend ≠ 0 then none
  else
    let label ← env.labelAddress rel
    let hiOffset := label - sec.address
    let hi ← findHigh sec n hiOffset
    let hiInfo ← hi.rType.relocationFromRaw
    let symbolIndex ← hi.symbol
    let res ← env.resolution symbolIndex
    let place := sec.address + hiOffset
    match hiInfo.kind with
    | .relative =>
      -- the entries of the object, where the whole table is expected
      let value ← env.valueWithAddend res hi.addendBits symbolIndex
        (env.sections.slice env.sectionPartIds)
      some (value + info.bias - place)
    | .gotRelative =>
      let got ← res.gotAddressForRelocation
      some (got + hi.addendBits + info.bias - place)
    | .tlsGd =>
      let got ← res.tlsgdGotAddress
      some (got + hi.addendBits + info.bias - place)
    | .tlsLd =>
      let got ← env.tlsldGotEntry
      some (got + hi.addendBits + info.bias - place)
    | .gotTpOff =>
      let got ← res.gotAddress
      some (got + hi.addendBits + info.bias - place)
    | _ => none

end PairEnv

/-! ## 5. The high part that is found -/

namespace PairSection

variable (sec : PairSection)

def rels : List Rel := sec.relocations.map (·.1)

/-- A high part at an offset of the output. -/
def isHighAt (hiOffset : Address) (r : Rel) : Bool :=
  r.rType.isHighPart && sec.outputOffset r == hiOffset

/-- A relocation is the last high part at an offset before the one with an index or, where there is
none, the first after it. -/
def HighFound (n : Nat) (hiOffset : Address) (hi : Rel) : Prop :=
  sec.isHighAt hiOffset hi = true ∧
    ((∃ before after, sec.rels.take n = before ++ hi :: after ∧
        ∀ r ∈ after, sec.isHighAt hiOffset r = false) ∨
      ((∀ r ∈ sec.rels.take n, sec.isHighAt hiOffset r = false) ∧
        ∃ before after, sec.rels.drop (n + 1) = before ++ hi :: after ∧
          ∀ r ∈ before, sec.isHighAt hiOffset r = false))

theorem highPartSymbols_foldl (entries : List (Rel × Bool)) : ∀ s : LoopState,
    (entries.foldl sec.step s).highPartSymbols
      = (((entries.map (·.1)).filter (·.rType.isHighPart)).map fun r =>
          (sec.outputOffset r, r)).reverse ++ s.highPartSymbols := by
  induction entries with
  | nil => exact fun s => rfl
  | cons entry rest ih =>
    intro s
    rw [foldl_cons, ih, step, map_cons]
    cases h : entry.1.rType.isHighPart with
    | true => simp [h]
    | false => simp [h]

/-- The cache has the high parts before. -/
theorem find?_highPartSymbols (n : Nat) (hiOffset : Address) :
    ((sec.stateAt n).highPartSymbols.find? fun entry => entry.1 == hiOffset).map (·.2)
      = (sec.rels.take n).reverse.find? (sec.isHighAt hiOffset) := by
  rw [stateAt, highPartSymbols_foldl, start, append_nil, ← map_reverse, find?_map,
    Option.map_map, ← filter_reverse, find?_filter, rels, map_take]
  have hid : ((·.2) ∘ fun r => (sec.outputOffset r, r)) = (id : Rel → Rel) := rfl
  rw [hid, Option.map_id_fun, id]
  congr 1
  funext r
  rw [isHighAt, Bool.decide_and, Bool.decide_eq_true, Bool.decide_eq_true]
  rfl

theorem findHigh_eq (n : Nat) (hiOffset : Address) :
    PairEnv.findHigh sec n hiOffset
      = ((sec.rels.take n).reverse.find? (sec.isHighAt hiOffset)).or
          ((sec.rels.drop (n + 1)).find? (sec.isHighAt hiOffset)) := by
  rw [PairEnv.findHigh, find?_highPartSymbols, rels, ← map_drop]
  rfl

theorem mem_of_findHigh {n : Nat} {hiOffset : Address} {hi : Rel}
    (h : PairEnv.findHigh sec n hiOffset = some hi) :
    hi ∈ sec.rels ∧ sec.isHighAt hiOffset hi = true := by
  rw [findHigh_eq, or_eq_some_iff] at h
  rcases h with h | ⟨-, h⟩
  · exact ⟨mem_of_mem_take (mem_reverse.mp (mem_of_find?_eq_some h)),
      find?_some h⟩
  · exact ⟨mem_of_mem_drop (mem_of_find?_eq_some h), find?_some h⟩

theorem findHigh_eq_some_iff (n : Nat) (hiOffset : Address) (hi : Rel) :
    PairEnv.findHigh sec n hiOffset = some hi ↔ sec.HighFound n hiOffset hi := by
  rw [findHigh_eq, or_eq_some_iff, find?_eq_some_iff_append, find?_eq_none,
    find?_eq_some_iff_append, HighFound]
  constructor
  · rintro (⟨hp, before, after, heq, hbefore⟩ | ⟨hnone, hp, before, after, heq, hbefore⟩)
    · refine ⟨hp, .inl ⟨after.reverse, before.reverse, ?_, ?_⟩⟩
      · rw [← reverse_reverse (sec.rels.take n), heq]
        simp
      · intro r hr
        exact Bool.not_eq_true' _ ▸ hbefore r (mem_reverse.mp hr)
    · refine ⟨hp, .inr ⟨?_, before, after, heq, ?_⟩⟩
      · intro r hr
        exact Bool.eq_false_iff.mpr (hnone r (mem_reverse.mpr hr))
      · intro r hr
        exact Bool.not_eq_true' _ ▸ hbefore r hr
  · rintro ⟨hp, ⟨before, after, heq, hafter⟩ | ⟨hnone, before, after, heq, hbefore⟩⟩
    · refine .inl ⟨hp, after.reverse, before.reverse, ?_, ?_⟩
      · rw [heq]
        simp
      · intro r hr
        rw [hafter r (mem_reverse.mp hr)]
        rfl
    · refine .inr ⟨?_, hp, before, after, heq, ?_⟩
      · intro r hr
        exact Bool.eq_false_iff.mp (hnone r (mem_reverse.mp hr))
      · intro r hr
        rw [hbefore r hr]
        rfl

end PairSection

/-! ## 6. The two values -/

namespace PairEnv

variable (env : PairEnv)

/-- The target of a high part, with a table of section parts. -/
def target (sectionPartIds : List Nat) (rel : Rel) : Option Address := do
  let symbolIndex ← rel.symbol
  let res ← env.resolution symbolIndex
  match rel.rType with
  | .pcrelHi20 => env.valueWithAddend res rel.addendBits symbolIndex sectionPartIds
  | .gotHi20 => res.gotAddressForRelocation.map (· + rel.addendBits)
  | .tlsGdHi20 => res.tlsgdGotAddress.map (· + rel.addendBits)
  | .tlsGotHi20 => res.gotAddress.map (· + rel.addendBits)
  | _ => none

variable {rel : Rel} {symbolIndex : Nat} {t : Address} {sectionIndex startInputOffset : Nat}
  {symbol : SymbolEntry}

variable {res : Resolution}

/-- The target, by the type of a high part. -/
theorem target_eq (sectionPartIds : List Nat)
    (hs : rel.symbol = some symbolIndex) (hr : env.resolution symbolIndex = some res) :
    env.target sectionPartIds rel = match rel.rType with
      | .pcrelHi20 => env.valueWithAddend res rel.addendBits symbolIndex sectionPartIds
      | .gotHi20 => res.gotAddressForRelocation.map (· + rel.addendBits)
      | .tlsGdHi20 => res.tlsgdGotAddress.map (· + rel.addendBits)
      | .tlsGotHi20 => res.gotAddress.map (· + rel.addendBits)
      | _ => none := by
  simp only [target, hs, hr, bind_eq_bind, bind_some]

theorem and_unmasked (x : Address) : x &&& allOnes 64 = x := and_allOnes

theorem add_unbiased (x : Address) : x + 0 = x := by
  simp

/-- RISC-V has no masks and no biases. -/
theorem highValue_eq (sec : PairSection) (n : Nat) (h : rel.rType.isPcrelHigh = true) :
    env.highValue sec n rel
      = (env.target env.sectionPartIds rel).map (· - sec.placeAt n rel) := by
  cases hs : rel.symbol with
  | none =>
    simp only [highValue, relocationValue, target, hs]
    cases rel.rType <;> rfl
  | some symbolIndex =>
    cases hr : env.resolution symbolIndex with
    | none =>
      simp only [highValue, relocationValue, target, hs, bind_eq_bind, bind_some, hr]
      cases rel.rType <;> rfl
    | some res =>
      rw [target_eq env env.sectionPartIds hs hr]
      simp only [highValue, relocationValue, hs, bind_eq_bind, bind_some, hr]
      cases ht : rel.rType with
      | pcrelHi20 =>
        simp only [RiscVRelocationType.relocationFromRaw, getPageMask, bind_some,
          and_unmasked, add_unbiased, map_eq_bind]
        rfl
      | gotHi20 =>
        simp only [RiscVRelocationType.relocationFromRaw, getPageMask, bind_some,
          and_unmasked, add_unbiased, map_eq_bind, bind_assoc]
        rfl
      | tlsGotHi20 =>
        simp only [RiscVRelocationType.relocationFromRaw, getPageMask, bind_some,
          and_unmasked, add_unbiased, map_eq_bind, bind_assoc]
        rfl
      | tlsGdHi20 =>
        simp only [RiscVRelocationType.relocationFromRaw, getPageMask, bind_some,
          and_unmasked, add_unbiased, map_eq_bind, bind_assoc]
        rfl
      | _ =>
        rw [ht] at h
        contradiction

theorem relocationFromRaw_low {t : RiscVRelocationType} (h : t.isPcrelLow = true) :
    t.relocationFromRaw = some ⟨.relativeRiscVLow12, none, 0⟩ := by
  cases t with
  | pcrelLo12I => rfl
  | pcrelLo12S => rfl
  | _ => contradiction

variable {sec : PairSection} {label : Address}

/-- The low part has the target of the high part that it finds, with the object's part of the
table. -/
theorem lowValue_eq {n : Nat} {hi : Rel}
    (hlow : rel.rType.isPcrelLow = true) (hadd : rel.addend = 0)
    (hlabel : env.labelAddress rel = some label)
    (hfind : findHigh sec n (label - sec.address) = some hi) :
    env.lowValue sec n rel =
      if hi.rType.isPcrelHigh then
        (env.target (env.sections.slice env.sectionPartIds) hi).map (· - label)
      else none := by
  have hplace : sec.address + (label - sec.address) = label := by
    rw [BitVec.add_comm, BitVec.sub_add_cancel]
  unfold lowValue
  simp only [relocationFromRaw_low hlow, hadd, hlabel, hfind, hplace, bind_eq_bind,
    bind_some, ne_eq, not_true_eq_false, if_false]
  cases hs : hi.symbol with
  | none =>
    simp only [target, hs]
    cases hi.rType <;> rfl
  | some symbolIndex =>
    cases hr : env.resolution symbolIndex with
    | none =>
      simp only [target, hs, bind_eq_bind, bind_some, hr]
      cases hi.rType <;> rfl
    | some res =>
      rw [target_eq env _ hs hr]
      simp only [bind_some, hr]
      cases ht : hi.rType with
      | pcrelHi20 =>
        simp only [RiscVRelocationType.relocationFromRaw, RiscVRelocationType.isPcrelHigh, if_true,
          bind_some, add_unbiased, map_eq_bind]
        rfl
      | gotHi20 =>
        simp only [RiscVRelocationType.relocationFromRaw, RiscVRelocationType.isPcrelHigh, if_true,
          bind_some, add_unbiased, map_eq_bind, bind_assoc]
        rfl
      | tlsGotHi20 =>
        simp only [RiscVRelocationType.relocationFromRaw, RiscVRelocationType.isPcrelHigh, if_true,
          bind_some, add_unbiased, map_eq_bind, bind_assoc]
        rfl
      | tlsGdHi20 =>
        simp only [RiscVRelocationType.relocationFromRaw, RiscVRelocationType.isPcrelHigh, if_true,
          bind_some, add_unbiased, map_eq_bind, bind_assoc]
        rfl
      | _ => rfl

theorem lowValue_none {n : Nat}
    (hlow : rel.rType.isPcrelLow = true) (hlabel : env.labelAddress rel = some label)
    (hfind : findHigh sec n (label - sec.address) = none) : env.lowValue sec n rel = none := by
  simp only [lowValue, relocationFromRaw_low hlow, hlabel, hfind, bind_eq_bind,
    bind_some, bind_none, ite_self]

/-! ## 7. Strings in merged sections -/

/-- An entry of the object's part of a table, by an index into the whole. -/
theorem getElem?_slice {α : Type} (o : ObjectSections) (table : List α) (sectionIndex : Nat) :
    (o.slice table)[o.inputToId sectionIndex]?
      = if o.inputToId sectionIndex < o.numSections then
          table[o.startSectionId + o.inputToId sectionIndex]?
        else none := by
  rw [ObjectSections.slice, getElem?_take, getElem?_drop]

/-- A high part refers to a string of a merged section through a symbol without a value yet. -/
structure RefersToString (rel : Rel) (symbol : SymbolEntry)
    (sectionIndex startInputOffset : Nat) : Prop where
  rType : rel.rType = .pcrelHi20
  entry : ∃ symbolIndex, rel.symbol = some symbolIndex ∧ env.symbols symbolIndex = some symbol ∧
    ∃ res, env.resolution symbolIndex = some res ∧ res.flags.ifunc = false ∧ res.rawValue = 0
  inSection : symbol.sectionIndex = some sectionIndex
  slot : env.sections.mergeSlots[sectionIndex]? = some (some startInputOffset)

/-- The section whose part the low part takes: one that is as far behind the referenced section as
that one's object is behind the first.  It is still in the object, and the string is at the same
address in its output section. -/
def StringsAgree (rel : Rel) : Prop :=
  ∀ symbol sectionIndex startInputOffset outputSectionId,
    env.RefersToString rel symbol sectionIndex startInputOffset →
    env.sectionPartIds[env.sections.inputToId sectionIndex]? = some outputSectionId →
    env.sections.inputToId sectionIndex < env.sections.numSections ∧
    ∃ other, env.sectionPartIds[env.sections.startSectionId + env.sections.inputToId sectionIndex]?
        = some other ∧
      env.mergedStringAddress other startInputOffset (lookupOffset symbol rel.addendBits)
        = env.mergedStringAddress outputSectionId startInputOffset
            (lookupOffset symbol rel.addendBits)

/-- In the first object, both tables agree. -/
theorem stringsAgree_first (h : env.sections.startSectionId = 0) :
    env.StringsAgree rel := by
  intro symbol sectionIndex startInputOffset outputSectionId href hpart
  have hid : env.sections.inputToId sectionIndex = sectionIndex := by
    rw [ObjectSections.inputToId, h, Nat.zero_add]
  constructor
  · rw [hid]
    exact (List.getElem?_eq_some_iff.mp href.slot).1
  · rw [h, Nat.zero_add]
    exact ⟨outputSectionId, hpart, rfl⟩

/-- The string of a symbol in a merged section. -/
theorem getMergedStringOutputAddress_eq (table : List Nat) (addend : Address)
    (hsymbol : env.symbols symbolIndex = some symbol)
    (hsection : symbol.sectionIndex = some sectionIndex)
    (hslot : env.sections.mergeSlots[sectionIndex]? = some (some startInputOffset)) :
    env.getMergedStringOutputAddress table symbolIndex addend
      = (table[env.sections.inputToId sectionIndex]?).bind fun outputSectionId =>
          (env.mergedStringAddress outputSectionId startInputOffset
            (lookupOffset symbol addend)).bind fun address =>
              some (some (if symbol.hasName then address + addend else address)) := by
  simp only [getMergedStringOutputAddress, hsymbol, hsection, hslot, bind_eq_bind,
    bind_some]

/-- Such a symbol has no other value. -/
theorem map_getMergedStringOutputAddress_iff (table : List Nat) {addend : Address} (value : Address)
    (hsymbol : env.symbols symbolIndex = some symbol)
    (hsection : symbol.sectionIndex = some sectionIndex)
    (hslot : env.sections.mergeSlots[sectionIndex]? = some (some startInputOffset)) :
    (env.getMergedStringOutputAddress table symbolIndex addend).map (fun m => m.getD value) = some t
      ↔ env.getMergedStringOutputAddress table symbolIndex addend = some (some t) := by
  rw [getMergedStringOutputAddress_eq env table addend hsymbol hsection hslot]
  cases table[env.sections.inputToId sectionIndex]? with
  | none => exact ⟨nofun, nofun⟩
  | some outputSectionId =>
    rw [bind_some]
    cases env.mergedStringAddress outputSectionId startInputOffset (lookupOffset symbol addend) with
    | none => exact ⟨nofun, nofun⟩
    | some address => simp

/-- Symbols that are not in a merged section are not looked up. -/
theorem getMergedStringOutputAddress_congr (table table' : List Nat) (addend : Address)
    (h : ∀ symbol sectionIndex startInputOffset, env.symbols symbolIndex = some symbol →
      symbol.sectionIndex = some sectionIndex →
      env.sections.mergeSlots[sectionIndex]? ≠ some (some startInputOffset)) :
    env.getMergedStringOutputAddress table symbolIndex addend
      = env.getMergedStringOutputAddress table' symbolIndex addend := by
  cases hsymbol : env.symbols symbolIndex with
  | none => simp only [getMergedStringOutputAddress, hsymbol, bind_eq_bind, bind_none]
  | some symbol =>
    cases hsection : symbol.sectionIndex with
    | none => simp only [getMergedStringOutputAddress, hsymbol, hsection, bind_eq_bind,
        bind_some]
    | some sectionIndex =>
      cases hslot : env.sections.mergeSlots[sectionIndex]? with
      | none => simp only [getMergedStringOutputAddress, hsymbol, hsection, hslot,
          bind_eq_bind, bind_some, bind_none]
      | some slot =>
        cases slot with
        | none => simp only [getMergedStringOutputAddress, hsymbol, hsection, hslot,
            bind_eq_bind, bind_some]
        | some startInputOffset =>
          exact absurd hslot (h symbol sectionIndex startInputOffset hsymbol hsection)

/-- The string that a high part refers to, with both tables. -/
theorem merged_slice_iff (hs : rel.symbol = some symbolIndex)
    (hsymbol : env.symbols symbolIndex = some symbol)
    (href : env.RefersToString rel symbol sectionIndex startInputOffset)
    (ht : env.getMergedStringOutputAddress env.sectionPartIds symbolIndex rel.addendBits
      = some (some t)) :
    env.getMergedStringOutputAddress (env.sections.slice env.sectionPartIds) symbolIndex
        rel.addendBits = some (some t) ↔ env.StringsAgree rel := by
  rw [getMergedStringOutputAddress_eq env _ _ hsymbol href.inSection href.slot] at ht ⊢
  obtain ⟨outputSectionId, hpart, hrest⟩ := bind_eq_some_iff.mp ht
  obtain ⟨address, haddress, hnamed⟩ := bind_eq_some_iff.mp hrest
  rw [getElem?_slice]
  constructor
  · intro h symbol' sectionIndex' startInputOffset' outputSectionId' href' hpart'
    -- both descriptions of the reference agree
    obtain ⟨symbolIndex', hs', hsymbol', -⟩ := href'.entry
    obtain rfl : symbolIndex = symbolIndex' := some.inj (hs.symm.trans hs')
    obtain rfl : symbol = symbol' := some.inj (hsymbol.symm.trans hsymbol')
    obtain rfl : sectionIndex = sectionIndex' :=
      some.inj (href.inSection.symm.trans href'.inSection)
    obtain rfl : startInputOffset = startInputOffset' :=
      some.inj (some.inj (href.slot.symm.trans href'.slot))
    obtain rfl : outputSectionId = outputSectionId' := some.inj (hpart.symm.trans hpart')
    obtain ⟨other, hother, hrest'⟩ := bind_eq_some_iff.mp h
    obtain ⟨address', haddress', hnamed'⟩ := bind_eq_some_iff.mp hrest'
    split at hother
    · next hlt =>
      refine ⟨hlt, other, hother, ?_⟩
      rw [haddress, haddress']
      have hsame := some.inj (some.inj (hnamed'.trans hnamed.symm))
      split at hsame
      · exact congrArg some (BitVec.add_left_inj _ |>.mp hsame)
      · exact congrArg some hsame
    · contradiction
  · intro h
    obtain ⟨hlt, other, hother, hsame⟩ := h symbol sectionIndex startInputOffset outputSectionId
      href hpart
    rw [if_pos hlt]
    refine bind_eq_some_iff.mpr ⟨other, hother, ?_⟩
    rw [hsame]
    exact hrest

/-- The value of a symbol with the object's part of the table. -/
theorem valueWithAddend_slice_iff
    (htype : rel.rType = .pcrelHi20) (hs : rel.symbol = some symbolIndex)
    (hr : env.resolution symbolIndex = some res)
    (ht : env.valueWithAddend res rel.addendBits symbolIndex env.sectionPartIds = some t) :
    env.valueWithAddend res rel.addendBits symbolIndex (env.sections.slice env.sectionPartIds)
      = some t ↔ env.StringsAgree rel := by
  unfold valueWithAddend at ht ⊢
  -- a reference to a string needs this resolution
  have hrefers : ∀ symbol sectionIndex startInputOffset,
      env.RefersToString rel symbol sectionIndex startInputOffset →
      env.symbols symbolIndex = some symbol ∧ res.flags.ifunc = false ∧ res.rawValue = 0 := by
    intro symbol sectionIndex startInputOffset href
    obtain ⟨symbolIndex', hs', hsymbol, res', hr', hifunc, hraw⟩ := href.entry
    obtain rfl : symbolIndex = symbolIndex' := some.inj (hs.symm.trans hs')
    obtain rfl : res = res' := some.inj (hr.symm.trans hr')
    exact ⟨hsymbol, hifunc, hraw⟩
  cases hifunc : res.flags.ifunc with
  | true =>
    rw [hifunc, if_pos rfl] at ht
    rw [if_pos rfl, ht]
    refine ⟨fun _ => fun symbol sectionIndex startInputOffset _ href => ?_, fun _ => rfl⟩
    rw [hifunc] at hrefers
    exact absurd (hrefers _ _ _ href).2.1 nofun
  | false =>
    rw [hifunc, if_neg Bool.false_ne_true] at ht
    rw [if_neg Bool.false_ne_true]
    by_cases hraw : res.rawValue = 0
    · rw [if_pos hraw] at ht ⊢
      by_cases hmerged : ∃ symbol sectionIndex startInputOffset,
          env.RefersToString rel symbol sectionIndex startInputOffset
      · obtain ⟨symbol, sectionIndex, startInputOffset, href⟩ := hmerged
        have hsymbol := (hrefers _ _ _ href).1
        rw [map_getMergedStringOutputAddress_iff env _ _ hsymbol href.inSection href.slot] at ht ⊢
        exact merged_slice_iff env hs hsymbol href ht
      · rw [getMergedStringOutputAddress_congr env _ env.sectionPartIds, ht]
        · refine ⟨fun _ symbol sectionIndex startInputOffset _ href => ?_, fun _ => rfl⟩
          exact absurd ⟨symbol, sectionIndex, startInputOffset, href⟩ hmerged
        · intro symbol sectionIndex startInputOffset hsymbol hsection hslot
          exact hmerged ⟨symbol, sectionIndex, startInputOffset, htype,
            ⟨symbolIndex, hs, hsymbol, res, hr, hifunc, hraw⟩, hsection, hslot⟩
    · rw [if_neg hraw] at ht ⊢
      refine ⟨fun _ symbol sectionIndex startInputOffset _ href => ?_, fun _ => ht⟩
      exact absurd (hrefers _ _ _ href).2.2 hraw

theorem target_slice_iff (htype : rel.rType.isPcrelHigh = true)
    (ht : env.target env.sectionPartIds rel = some t) :
    env.target (env.sections.slice env.sectionPartIds) rel = some t ↔ env.StringsAgree rel := by
  cases hs : rel.symbol with
  | none =>
    rw [target, hs] at ht
    contradiction
  | some symbolIndex =>
    cases hr : env.resolution symbolIndex with
    | none =>
      simp only [target, hs, bind_eq_bind, bind_some, hr, bind_none] at ht
      contradiction
    | some res =>
      rw [target_eq env _ hs hr] at ht ⊢
      by_cases hpcrel : rel.rType = .pcrelHi20
      · rw [hpcrel] at ht ⊢
        exact valueWithAddend_slice_iff env hpcrel hs hr ht
      · -- an entry of the GOT, whatever the table
        have hagree : env.StringsAgree rel := fun _ _ _ _ href => absurd href.rType hpcrel
        refine ⟨fun _ => hagree, fun _ => ?_⟩
        cases hcase : rel.rType with
        | pcrelHi20 => exact absurd hcase hpcrel
        | gotHi20 => rwa [hcase] at ht
        | tlsGotHi20 => rwa [hcase] at ht
        | tlsGdHi20 => rwa [hcase] at ht
        | _ =>
          rw [hcase] at htype
          contradiction

/-! ## 8. Pairs -/

/-- **The low part has the value of the high part that its label points at, if and only if it finds
that one and, in a merged section, its string.**  The label is at the place where the high part is
applied, and no other PC-relative high part is. -/
theorem pcrel_pair_iff {hiSection sec : PairSection} {i n : Nat} {hi lo : Rel} {v : Address}
    (hhigh : hi.rType.isPcrelHigh = true) (hlow : lo.rType.isPcrelLow = true)
    (hlabel : env.labelAddress { lo with addend := 0 } = some (hiSection.placeAt i hi))
    (hone : ∀ r ∈ sec.rels, r.rType.isPcrelHigh = true →
      sec.address + sec.outputOffset r = hiSection.placeAt i hi → r = hi)
    (hv : env.highValue hiSection i hi = some v) :
    env.lowValue sec n lo = some v ↔
      lo.addend = 0 ∧ sec.HighFound n (hiSection.placeAt i hi - sec.address) hi ∧
        env.StringsAgree hi := by
  rw [highValue_eq env hiSection i hhigh] at hv
  obtain ⟨t, ht, hsub⟩ := map_eq_some_iff.mp hv
  by_cases hadd : lo.addend = 0
  · have hlo : { lo with addend := 0 } = lo := by rw [← hadd]
    rw [hlo] at hlabel
    rw [← PairSection.findHigh_eq_some_iff]
    cases hfind : findHigh sec n (hiSection.placeAt i hi - sec.address) with
    | none =>
      rw [lowValue_none env hlow hlabel hfind]
      exact ⟨nofun, fun h => absurd h.2.1 nofun⟩
    | some r =>
      obtain ⟨hmem, hat⟩ := PairSection.mem_of_findHigh sec hfind
      rw [PairSection.isHighAt, Bool.and_eq_true, beq_iff_eq] at hat
      rw [lowValue_eq env hlow hadd hlabel hfind]
      cases hr : r.rType.isPcrelHigh with
      | false =>
        -- an absolute high part at the same place
        refine ⟨nofun, fun h => ?_⟩
        rw [some.inj h.2.1, hhigh] at hr
        contradiction
      | true =>
        have hplace : sec.address + sec.outputOffset r = hiSection.placeAt i hi := by
          rw [hat.2, BitVec.add_comm, BitVec.sub_add_cancel]
        obtain rfl := hone r hmem hr hplace
        rw [if_pos rfl, ← target_slice_iff env hhigh ht, map_eq_some_iff]
        constructor
        · rintro ⟨t', ht', hsub'⟩
          rw [(BitVec.sub_left_inj _).mp (hsub'.trans hsub.symm)] at ht'
          exact ⟨hadd, rfl, ht'⟩
        · rintro ⟨-, -, ht'⟩
          exact ⟨t, ht', hsub⟩
  · have hnone : env.lowValue sec n lo = none := by
      simp only [lowValue, relocationFromRaw_low hlow, hadd, bind_eq_bind, bind_some,
        ne_eq, not_false_eq_true, if_true]
    rw [hnone]
    exact ⟨nofun, fun h => absurd h.1 hadd⟩

end PairEnv

/-- A merged section with one string. -/
def oneString : MergedStringsSection where
  buckets := []
  bucketOffsets := [0]
  stringOffsets := fun offset => if offset = 0 then some ⟨0⟩ else none
  overflowedStringOffsets := fun _ => none
  patchRecords := []

/-- An object with code, and strings for two output sections.  Symbol 1 is the section of the first
strings and symbol 2 the label in the code, at `0x1000`. -/
def stringsObject (startSectionId : Nat) (sectionPartIds : List Nat) : PairEnv where
  sections := ⟨startSectionId, [none, none, some 0, none, some 0]⟩
  symbols := fun symbolIndex =>
    if symbolIndex = 1 then some ⟨some 2, 0, false⟩ else some ⟨some 1, 0, true⟩
  resolution := fun symbolIndex =>
    if symbolIndex = 1 then some ⟨0, { direct := true }, none, none⟩
    else some ⟨0x1000, { direct := true }, none, none⟩
  sectionPartIds := sectionPartIds
  mergedStrings := fun _ => oneString
  mergedStringStartAddresses := fun outputSectionId _ =>
    if outputSectionId = 20 then 0x2000 else 0x3008
  tlsldGotEntry := none

/-- Its code: both parts of the address of the string. -/
def stringsCode : PairSection where
  address := 0x1000
  relaxDeltas := none
  relocations := [(⟨.pcrelHi20, 0, 0, some 1⟩, false), (⟨.pcrelLo12I, 4, 0, some 2⟩, false)]

/-- The first object has the right low part. -/
theorem first_object_string :
    (stringsObject 0 [0, 10, 20, 10, 30]).highValue stringsCode 0 ⟨.pcrelHi20, 0, 0, some 1⟩
      = some 0x1000 ∧
    (stringsObject 0 [0, 10, 20, 10, 30]).lowValue stringsCode 1 ⟨.pcrelLo12I, 4, 0, some 2⟩
      = some 0x1000 := by
  have hv : (stringsObject 0 [0, 10, 20, 10, 30]).highValue stringsCode 0
      ⟨.pcrelHi20, 0, 0, some 1⟩ = some 0x1000 := by
    decide
  refine ⟨hv, (PairEnv.pcrel_pair_iff (stringsObject 0 [0, 10, 20, 10, 30]) rfl rfl (by decide)
    (by decide) hv).mpr ⟨rfl, ?_, PairEnv.stringsAgree_first _ rfl⟩⟩
  exact ⟨by decide, .inl ⟨[], [], rfl, nofun⟩⟩

/-- The same object after another one: the low part is that of a string in another output section. -/
theorem second_object_string :
    (stringsObject 2 [0, 10, 0, 10, 20, 10, 30]).labelAddress ⟨.pcrelLo12I, 4, 0, some 2⟩
        = some (stringsCode.placeAt 0 ⟨.pcrelHi20, 0, 0, some 1⟩) ∧
    (stringsObject 2 [0, 10, 0, 10, 20, 10, 30]).highValue stringsCode 0
        ⟨.pcrelHi20, 0, 0, some 1⟩ = some 0x1000 ∧
    (stringsObject 2 [0, 10, 0, 10, 20, 10, 30]).lowValue stringsCode 1
        ⟨.pcrelLo12I, 4, 0, some 2⟩ = some 0x2008 := by
  decide

end Srs.Relocation
