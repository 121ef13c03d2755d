/-
# The records of an incremental state, and the block they are written as

`incremental.rs` remembers where the previous link put things as four kinds of record
(`SectionRecord`, `RelocationRecord`, `FdeRecord`, `DynamicRelocationRecord`), plus the Mach-O
symbol resolutions.  A BLOCK is the text of such records: a table of the `(input_file, input)`
pairs they mention, then one counted table per kind, each line naming its input by its index in
that first table.

This file is the writing side (`write_rendered_records`,
`write_rendered_macho_symbol_resolution_refs`).  A writer is modelled by the list of lines it
passes to `writeln!`; `Text.unlines` is the text they leave in the buffer.

The input table (`SectionInputTable`) carries the fact the whole format rests on: the id stored
for a pair is the position of that pair, so looking the id up again gives the pair back.
-/
import Srs.Lib.Text

namespace Srs.Incremental

open Text List Decimal

/-! ## 1. The records -/

/-- A fixed word of the file format. -/
instance : Coe String Text := ⟨String.toList⟩

structure SectionRecord where
  inputFile : Text
  input : Text
  sectionIndex : UInt32
  outputOffset : UInt64
  size : UInt64
  deriving DecidableEq, Ord

structure RelocationTargetRecord where
  inputFile : Text
  input : Text
  sectionIndex : UInt32
  sectionOffset : UInt64
  deriving DecidableEq, Ord

structure RelocationRecord where
  targetSymbolId : UInt32
  writtenValue : Option UInt64
  targetValue : UInt64
  appliedTargetValue : Option UInt64
  targetName : Option Text
  target : Option RelocationTargetRecord
  inputFile : Text
  input : Text
  sectionIndex : UInt32
  relocationOffset : UInt64
  outputOffset : UInt64
  size : UInt64
  kind : UInt32
  addend : Int64
  deriving DecidableEq, Ord

structure MachOSymbolResolutionRecord where
  name : Text
  directValue : Option UInt64
  gotAddress : Option UInt64
  stubAddress : Option UInt64
  thunkAddresses : List UInt64
  target : Option RelocationTargetRecord
  deriving DecidableEq, Ord

structure FdeRecord where
  inputFile : Text
  input : Text
  sectionIndex : UInt32
  ehFrameSectionIndex : UInt32
  inputOffset : UInt64
  outputOffset : UInt64
  size : UInt64
  deriving DecidableEq, Ord

structure DynamicRelocationRecord where
  inputFile : Text
  input : Text
  sectionIndex : UInt32
  relocationOffset : UInt64
  outputOffset : UInt64
  size : UInt64
  outputROffset : Option UInt64
  outputRInfo : Option UInt64
  deriving DecidableEq, Ord

/-! ## 2. The table of inputs -/

/-- An input as the records name it: the file, and the object inside it. -/
abbrev InputKey := Text × Text

/-- `section_inputs` together with `section_input_ids`.  The two grow in step: the id of a pair
is its position. -/
structure SectionInputTable where
  inputs : List InputKey
  ids : InputKey → Option Nat
  ids_iff : ∀ key index, ids key = some index ↔ inputs[index]? = some key

namespace SectionInputTable

def empty : SectionInputTable where
  inputs := []
  ids := fun _ => none
  ids_iff := by simp

variable {key k : InputKey}

/-- Appending a pair that has no id yet keeps ids and positions in step. -/
theorem ids_iff_append (table : SectionInputTable) (h : table.ids key = none)
    (key' : InputKey) (index : Nat) :
    Function.update table.ids key (some table.inputs.length) key' = some index ↔
      (table.inputs ++ [key])[index]? = some key' := by
  have hnew : ∀ i, table.inputs[i]? ≠ some key := fun i hi => by
    rw [← table.ids_iff key i, h] at hi
    exact absurd hi (by simp)
  rcases Nat.lt_trichotomy index table.inputs.length with hi | hi | hi
  · rw [getElem?_append_left hi, ← table.ids_iff]
    by_cases hk : key' = key
    · subst hk
      have : table.inputs.length ≠ index := by omega
      simp [h, this]
    · simp [Function.update_of_ne hk]
  · subst hi
    by_cases hk : key' = key
    · subst hk; simp
    · have hne : ¬ key = key' := fun e => hk e.symm
      have : table.ids key' ≠ some table.inputs.length := fun e => by
        have := (table.ids_iff key' _).mp e
        simp at this
      simp [Function.update_of_ne hk, hne, this]
  · have hlen : (table.inputs ++ [key]).length ≤ index := by simp; omega
    by_cases hk : key' = key
    · subst hk
      have : table.inputs.length ≠ index := by omega
      simp [getElem?_eq_none hlen, this]
    · have : table.ids key' ≠ some index := fun e => by
        have := (table.ids_iff key' _).mp e
        rw [getElem?_eq_none (by omega)] at this
        exact absurd this (by simp)
      simp [Function.update_of_ne hk, getElem?_eq_none hlen, this]

/-- `add_section_input`: a pair that is already in the table is not added again. -/
def addSectionInput (table : SectionInputTable) (key : InputKey) : SectionInputTable :=
  if h : table.ids key = none then
    { inputs := table.inputs ++ [key]
      ids := Function.update table.ids key (some table.inputs.length)
      ids_iff := table.ids_iff_append h }
  else table

/-- The table built by calling `add_section_input` on each pair in turn. -/
def ofKeys (keys : List InputKey) : SectionInputTable := keys.foldl addSectionInput empty

/-- `section_input_ids[&key]`.  The index operator panics on a missing pair; here it gives an
id no reader accepts, and `id_ofKeys` shows that no writer ever asks for a missing pair. -/
def id (table : SectionInputTable) (key : InputKey) : Nat :=
  (table.ids key).getD table.inputs.length

theorem isSome_ids_addSectionInput_self (table : SectionInputTable) (key : InputKey) :
    ((table.addSectionInput key).ids key).isSome = true := by
  unfold addSectionInput
  split
  · simp
  · rename_i h; exact Option.isSome_iff_ne_none.mpr h

variable {table : SectionInputTable}

theorem isSome_ids_addSectionInput
    (h : (table.ids key).isSome = true) (other : InputKey) :
    ((table.addSectionInput other).ids key).isSome = true := by
  unfold addSectionInput
  split
  · by_cases hk : key = other
    · subst hk; simp
    · simpa [Function.update_of_ne hk] using h
  · exact h

theorem isSome_ids_foldl : ∀ (keys : List InputKey) (table : SectionInputTable),
    key ∈ keys ∨ (table.ids key).isSome = true →
      ((keys.foldl addSectionInput table).ids key).isSome = true
  | [], table, h => by simpa using h
  | k :: keys, table, h => by
    rw [foldl_cons]
    refine isSome_ids_foldl keys _ ?_
    rcases h with h | h
    · rcases mem_cons.mp h with rfl | h
      · exact .inr (isSome_ids_addSectionInput_self table key)
      · exact .inl h
    · exact .inr (isSome_ids_addSectionInput h k)

variable {keys : List InputKey}

/-- **An id leads back to its pair.** -/
theorem getElem?_id_ofKeys (h : key ∈ keys) :
    (ofKeys keys).inputs[(ofKeys keys).id key]? = some key := by
  obtain ⟨index, hi⟩ := Option.isSome_iff_exists.mp (isSome_ids_foldl keys empty (.inl h))
  have hid : (ofKeys keys).id key = index := by simp [id, ofKeys, hi]
  rw [hid]
  exact ((ofKeys keys).ids_iff key index).mp hi

theorem addSectionInput_inputs_subset
    (h : k ∈ (table.addSectionInput key).inputs) : k ∈ table.inputs ∨ k = key := by
  unfold addSectionInput at h
  split at h
  · simpa using h
  · exact .inl h

theorem mem_foldl_inputs : ∀ (keys : List InputKey) (table : SectionInputTable),
    k ∈ (keys.foldl addSectionInput table).inputs → k ∈ table.inputs ∨ k ∈ keys
  | [], _, h => .inl h
  | key :: keys, table, h => by
    rcases mem_foldl_inputs keys _ h with h | h
    · rcases addSectionInput_inputs_subset h with h | h
      · exact .inl h
      · exact .inr (by simp [h])
    · exact .inr (mem_cons_of_mem _ h)

/-- The table holds nothing but the pairs it was given. -/
theorem mem_of_mem_inputs (h : k ∈ (ofKeys keys).inputs) :
    k ∈ keys := by
  rcases mem_foldl_inputs keys empty h with h | h
  · exact absurd h (by simp [empty])
  · exact h

end SectionInputTable

/-! ## 3. The lines of a block -/

/-- `ABSENT_FIELD`. -/
def absentField : Text := "-"

/-- `OptionalRecordField`. -/
def optionalRecordField {α : Type} [Decimal α] : Option α → Text
  | some value => render value
  | none => absentField

/-- A line: its tag, then its columns, separated by tabs. -/
def row (tag : String) (columns : List Text) : Text := join '\t' (tag.toList :: columns)

/-- A `writeln!` of a table's name and length. -/
def countLine (tag : String) (count : Nat) : Text := row tag [render count]

def SectionRecord.key (r : SectionRecord) : InputKey := (r.inputFile, r.input)
def RelocationTargetRecord.key (r : RelocationTargetRecord) : InputKey := (r.inputFile, r.input)
def RelocationRecord.key (r : RelocationRecord) : InputKey := (r.inputFile, r.input)
def FdeRecord.key (r : FdeRecord) : InputKey := (r.inputFile, r.input)
def DynamicRelocationRecord.key (r : DynamicRelocationRecord) : InputKey := (r.inputFile, r.input)

@[simp] theorem SectionRecord.key_fst (r : SectionRecord) : r.key.1 = r.inputFile := rfl
@[simp] theorem SectionRecord.key_snd (r : SectionRecord) : r.key.2 = r.input := rfl
@[simp] theorem RelocationTargetRecord.key_fst (r : RelocationTargetRecord) :
    r.key.1 = r.inputFile := rfl
@[simp] theorem RelocationTargetRecord.key_snd (r : RelocationTargetRecord) :
    r.key.2 = r.input := rfl
@[simp] theorem RelocationRecord.key_fst (r : RelocationRecord) : r.key.1 = r.inputFile := rfl
@[simp] theorem RelocationRecord.key_snd (r : RelocationRecord) : r.key.2 = r.input := rfl
@[simp] theorem FdeRecord.key_fst (r : FdeRecord) : r.key.1 = r.inputFile := rfl
@[simp] theorem FdeRecord.key_snd (r : FdeRecord) : r.key.2 = r.input := rfl
@[simp] theorem DynamicRelocationRecord.key_fst (r : DynamicRelocationRecord) :
    r.key.1 = r.inputFile := rfl
@[simp] theorem DynamicRelocationRecord.key_snd (r : DynamicRelocationRecord) :
    r.key.2 = r.input := rfl

/-- The pairs of a relocation: its own, then its target's. -/
def RelocationRecord.keys (r : RelocationRecord) : List InputKey :=
  r.key :: (r.target.map RelocationTargetRecord.key).toList

/-- The pairs in the order in which `write_rendered_records` adds them. -/
def recordKeys (sections : List SectionRecord) (relocations : List RelocationRecord)
    (fdes : List FdeRecord) (dynamicRelocations : List DynamicRelocationRecord) :
    List InputKey :=
  sections.map SectionRecord.key ++ relocations.flatMap RelocationRecord.keys
    ++ fdes.map FdeRecord.key ++ dynamicRelocations.map DynamicRelocationRecord.key

def sectionInputLine (key : InputKey) : Text := row "section-input" [key.1, key.2]

def sectionColumns (table : SectionInputTable) (r : SectionRecord) : List Text :=
  [render (table.id r.key), render r.sectionIndex,
    render r.outputOffset, render r.size]

def sectionLine (table : SectionInputTable) (r : SectionRecord) : Text :=
  row "section" (sectionColumns table r)

/-- The three target columns: all absent, or all present. -/
def targetColumns (table : SectionInputTable) (target : Option RelocationTargetRecord) :
    List Text :=
  [optionalRecordField (target.map fun t => table.id t.key),
    optionalRecordField (target.map RelocationTargetRecord.sectionIndex),
    optionalRecordField (target.map RelocationTargetRecord.sectionOffset)]

def relocationColumns (table : SectionInputTable) (r : RelocationRecord) : List Text :=
  [render (table.id r.key), render r.sectionIndex,
    render r.targetSymbolId, render r.relocationOffset,
    render r.outputOffset, render r.size, render r.kind,
    render r.addend, optionalRecordField r.writtenValue, render r.targetValue,
    optionalRecordField r.appliedTargetValue, r.targetName.getD absentField]
    ++ targetColumns table r.target

def relocationLine (table : SectionInputTable) (r : RelocationRecord) : Text :=
  row "reloc3" (relocationColumns table r)

def fdeColumns (table : SectionInputTable) (r : FdeRecord) : List Text :=
  [render (table.id r.key), render r.sectionIndex,
    render r.ehFrameSectionIndex, render r.inputOffset,
    render r.outputOffset, render r.size]

def fdeLine (table : SectionInputTable) (r : FdeRecord) : Text := row "fde" (fdeColumns table r)

/-- The two output columns are written only when both are known. -/
def dynamicRelocationColumns (table : SectionInputTable) (r : DynamicRelocationRecord) :
    List Text :=
  [render (table.id r.key), render r.sectionIndex,
    render r.relocationOffset, render r.outputOffset, render r.size]
    ++ match r.outputROffset, r.outputRInfo with
      | some rOffset, some rInfo => [render rOffset, render rInfo]
      | _, _ => []

def dynamicRelocationLine (table : SectionInputTable) (r : DynamicRelocationRecord) : Text :=
  row "dynrel" (dynamicRelocationColumns table r)

/-- `write_rendered_records`. -/
def writeRenderedRecords (sections : List SectionRecord) (relocations : List RelocationRecord)
    (fdes : List FdeRecord) (dynamicRelocations : List DynamicRelocationRecord) : List Text :=
  let table := SectionInputTable.ofKeys (recordKeys sections relocations fdes dynamicRelocations)
  (countLine "section-inputs" table.inputs.length :: table.inputs.map sectionInputLine)
    ++ (countLine "sections" sections.length :: sections.map (sectionLine table))
    ++ (countLine "relocs" relocations.length :: relocations.map (relocationLine table))
    ++ (countLine "fdes" fdes.length :: fdes.map (fdeLine table))
    ++ (countLine "dynrels" dynamicRelocations.length ::
      dynamicRelocations.map (dynamicRelocationLine table))

/-! ## 4. The Mach-O resolution table -/

def machoResolutionKeys (resolutions : List MachOSymbolResolutionRecord) : List InputKey :=
  resolutions.flatMap fun r => (r.target.map RelocationTargetRecord.key).toList

def machoResolutionInputLine (key : InputKey) : Text :=
  row "macho-resolution-input" [key.1, key.2]

def thunkAddressesColumn (addresses : List UInt64) : Text :=
  if addresses = [] then absentField else join ',' (addresses.map render)

def machoResolutionColumns (table : SectionInputTable) (r : MachOSymbolResolutionRecord) :
    List Text :=
  [r.name, optionalRecordField r.directValue, optionalRecordField r.gotAddress,
    optionalRecordField r.stubAddress, thunkAddressesColumn r.thunkAddresses]
    ++ targetColumns table r.target

def machoResolutionLine (table : SectionInputTable) (r : MachOSymbolResolutionRecord) : Text :=
  row "macho-resolution" (machoResolutionColumns table r)

/-- `write_rendered_macho_symbol_resolution_refs`. -/
def writeRenderedMachoSymbolResolutionRefs (resolutions : List MachOSymbolResolutionRecord) :
    List Text :=
  let table := SectionInputTable.ofKeys (machoResolutionKeys resolutions)
  (countLine "macho-resolution-inputs" table.inputs.length ::
      table.inputs.map machoResolutionInputLine)
    ++ (countLine "macho-resolutions" resolutions.length ::
      resolutions.map (machoResolutionLine table))

end Srs.Incremental
