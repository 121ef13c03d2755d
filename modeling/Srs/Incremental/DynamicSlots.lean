/-
# Slots for dynamic relocations

`.rela.dyn` has a part for relocations other than relative ones.  `elf_writer.rs` fills it group by
group; every group takes its entries from the front, and the padding that an incremental link asks
for stays zero.  An entry that stands for a relocation of an input section is recorded
(`record_dynamic_relocation_for_section`).  Entries of the GOT, of thread-local storage and of copy
relocations are written through the same table and are not.

`incremental.rs` later adds relocations of a changed input
(`added_dynamic_relocation_patches_for_input`): a slot without a record counts as free.

An output is modelled as the entries at its file offsets.  The sections of a changed input are
given as they were read, and so is the input that a record inside an archive names.
-/
import Srs.Incremental.Records
import Srs.Lib.SortDedup

namespace Srs.Incremental

/-! ## 1. The writer -/

def RELA_ENTRY_SIZE : Nat := 24
def GENERATED_SECTION_INPUT_FILE : Text := "generated"
def GENERATED_RELA_DYN_GENERAL : Text := "generated:.rela.dyn.general"

/-- An entry of a relocation table. -/
structure Rela where
  rOffset : UInt64
  rInfo : UInt64
  rAddend : UInt64
  deriving DecidableEq

def Rela.zero : Rela := ⟨0, 0, 0⟩

inductive DynamicRelocationKind
  | copy | irelative | dtpMod | dtpOff | tlsDesc | tpOff | absolute | gotEntry
  deriving DecidableEq

/-- The place of a relocation in its input.  Sections that the linker makes have no source. -/
structure RelocationSite where
  inputFile : Text
  input : Text
  sourceSectionIndex : Option UInt32
  relocationOffset : UInt64
  deriving DecidableEq

/-- What the writer puts into the general part. -/
inductive GeneralWrite
  | absolute (site : RelocationSite) (place addend : UInt64) (symbolIndex : UInt32)
  | irelative (site : RelocationSite) (place resolverAddress : UInt64)
  | gotEntry (place : UInt64) (symbolIndex : UInt32)
  | tpOff (place : UInt64) (symbolIndex : UInt32) (addend : UInt64)
  | dtpMod (place : UInt64) (symbolIndex : UInt32)
  | dtpOff (place : UInt64) (symbolIndex : UInt32)
  | tlsDescriptor (place : UInt64) (symbolIndex : UInt32) (addend : UInt64)
  | copy (place : UInt64) (symbolIndex : UInt32)
  deriving DecidableEq

/-- `dynamic_relocation_r_info`. -/
def dynamicRelocationRInfo (symbolIndex relocationType : UInt32) : UInt64 :=
  (symbolIndex.toUInt64 <<< 32) ||| relocationType.toUInt64

section

variable (relocationType : DynamicRelocationKind → UInt32)

/-- The entry that is written. -/
def GeneralWrite.entry : GeneralWrite → Rela
  | absolute _ place addend symbolIndex =>
    ⟨place, dynamicRelocationRInfo symbolIndex (relocationType .absolute), addend⟩
  | irelative _ place resolverAddress =>
    ⟨place, dynamicRelocationRInfo 0 (relocationType .irelative), resolverAddress⟩
  | gotEntry place symbolIndex =>
    ⟨place, dynamicRelocationRInfo symbolIndex (relocationType .gotEntry), 0⟩
  | tpOff place symbolIndex addend =>
    ⟨place, dynamicRelocationRInfo symbolIndex (relocationType .tpOff), addend⟩
  | dtpMod place symbolIndex =>
    ⟨place, dynamicRelocationRInfo symbolIndex (relocationType .dtpMod), 0⟩
  | dtpOff place symbolIndex =>
    ⟨place, dynamicRelocationRInfo symbolIndex (relocationType .dtpOff), 0⟩
  | tlsDescriptor place symbolIndex addend =>
    ⟨place, dynamicRelocationRInfo symbolIndex (relocationType .tlsDesc), addend⟩
  | copy place symbolIndex =>
    ⟨place, dynamicRelocationRInfo symbolIndex (relocationType .copy), 0⟩

/-- `record_dynamic_relocation_for_section`. -/
def recordDynamicRelocationForSection (site : RelocationSite) (outputOffset : Nat)
    (place rInfo : UInt64) : Option DynamicRelocationRecord :=
  site.sourceSectionIndex.map fun sectionIndex =>
    { inputFile := site.inputFile, input := site.input, sectionIndex
      relocationOffset := site.relocationOffset, outputOffset := UInt64.ofNat outputOffset
      size := UInt64.ofNat RELA_ENTRY_SIZE, outputROffset := some place
      outputRInfo := some rInfo }

/-- The record of an entry, for the kinds that have one. -/
def GeneralWrite.record (outputOffset : Nat) : GeneralWrite → Option DynamicRelocationRecord
  | absolute site place _ symbolIndex => recordDynamicRelocationForSection site outputOffset place
      (dynamicRelocationRInfo symbolIndex (relocationType .absolute))
  | irelative site place _ => recordDynamicRelocationForSection site outputOffset place
      (dynamicRelocationRInfo 0 (relocationType .irelative))
  | gotEntry .. | tpOff .. | dtpMod .. | dtpOff .. | tlsDescriptor .. | copy .. => none

/-- A group of inputs: what it writes, its share of the part and of the padding, in entries. -/
structure GeneralGroup where
  writes : List GeneralWrite
  slots : Nat
  padding : Nat

/-- What a group leaves: its entries, with zeros behind them, and its records. -/
structure GeneralPart where
  entries : List Rela
  records : List DynamicRelocationRecord

/-- The entries from file offset `outputOffset` on, each taken with `take_rela_dyn_with_file_offset`,
and `validate_empty`, which clears what is left and allows no more than the padding. -/
def writeGroupFrom (padding : Nat) : Nat → Nat → List GeneralWrite → Option GeneralPart
  | _, slots, [] => if slots ≤ padding then some ⟨List.replicate slots Rela.zero, []⟩ else none
  | _, 0, _ :: _ => none
  | outputOffset, slots + 1, write :: writes => do
    let rest ← writeGroupFrom padding (outputOffset + RELA_ENTRY_SIZE) slots writes
    some ⟨write.entry relocationType :: rest.entries,
      (write.record relocationType outputOffset).toList ++ rest.records⟩

/-- The groups one behind the other. -/
def writeGroups : Nat → List GeneralGroup → Option GeneralPart
  | _, [] => some ⟨[], []⟩
  | outputOffset, group :: groups => do
    let first ← writeGroupFrom relocationType group.padding outputOffset group.slots group.writes
    let rest ← writeGroups (outputOffset + RELA_ENTRY_SIZE * group.slots) groups
    some ⟨first.entries ++ rest.entries, first.records ++ rest.records⟩

end

/-- `record_generated_section` for the general part. -/
def recordGeneratedSection (outputOffset size : Nat) : List SectionRecord :=
  if size = 0 then []
  else [{ inputFile := GENERATED_SECTION_INPUT_FILE, input := GENERATED_RELA_DYN_GENERAL
          sectionIndex := 0xffff_ffff, outputOffset := UInt64.ofNat outputOffset
          size := UInt64.ofNat size }]

/-! ## 2. A changed input -/

/-- A relocation of an input section. -/
structure RelaPatchEntry where
  offset : UInt64
  info : UInt64
  addend : UInt64
  deriving DecidableEq

/-- The contents of a relocation section, as far as they can be read. -/
inductive RelaData
  | overflow
  | outside
  | entries (entries : List RelaPatchEntry)

/-- A relocation section of the size of entries that is looked for, and what it relocates. -/
structure RelaSection where
  shInfo : UInt64
  data : RelaData

/-- An input file: its relocation sections, if it can be read as ELF. -/
abbrev ObjectInput := Option (List RelaSection)

/-- `rela_entries_for_section(..)`. -/
def relaEntriesForSection (sectionIndex : UInt32) : List RelaSection → Option (List RelaPatchEntry)
  | [] => some []
  | s :: rest =>
    if s.shInfo ≠ sectionIndex.toUInt64 then relaEntriesForSection sectionIndex rest
    else match s.data with
      | .entries entries => (relaEntriesForSection sectionIndex rest).map (entries ++ ·)
      | _ => none

/-- `dynamic_relocation_entry_range`: the entry of a record.  A range that overflows is an error. -/
def dynamicRelocationEntry (record : DynamicRelocationRecord) :
    List RelaSection → Option (Option RelaPatchEntry)
  | [] => some none
  | s :: rest =>
    if s.shInfo ≠ record.sectionIndex.toUInt64 then dynamicRelocationEntry record rest
    else match s.data with
      | .overflow => none
      | .outside => dynamicRelocationEntry record rest
      | .entries entries =>
        match entries.find? (·.offset = record.relocationOffset) with
        | some entry => some (some entry)
        | none => dynamicRelocationEntry record rest

/-- A patch of one entry.  It keeps the first two words of the output where the record does not
have them. -/
structure DynamicRelocationPatch where
  record : DynamicRelocationRecord
  inInput : Bool
  entry : Rela
  preserveHead : Bool
  isNew : Bool

/-- One turn of the loop of `dynamic_relocation_patches_for_input_bytes`. -/
def dynamicRelocationPatch (sections : List RelaSection) (record : DynamicRelocationRecord) :
    Option (Option DynamicRelocationPatch) :=
  if record.size.toNat ≠ RELA_ENTRY_SIZE then some none
  else match dynamicRelocationEntry record sections with
    | none => none
    | some none => some (some ⟨record, false, Rela.zero, false, false⟩)
    | some (some entry) =>
      match record.outputROffset, record.outputRInfo with
      | some rOffset, some rInfo =>
        some (some ⟨record, true, ⟨rOffset, rInfo, entry.addend⟩, false, false⟩)
      | _, _ => some (some ⟨record, true, ⟨0, 0, entry.addend⟩, true, false⟩)

/-- `has_restorable_rela_output_info`. -/
def DynamicRelocationRecord.hasRestorableRelaOutputInfo (record : DynamicRelocationRecord) : Bool :=
  record.size.toNat = RELA_ENTRY_SIZE ∧ record.outputROffset.isSome ∧ record.outputRInfo.isSome

structure MatchedPatchSection where
  previousInput : Text
  currentInput : Text
  previousIndex : UInt32
  currentIndex : UInt32

/-- A changed input.  `archiveInput` are the bytes that `patch_input_bytes_with_lookup` finds for
what a record names, and the previous bytes are those of the snapshot if it is loaded. -/
structure InputChange where
  inputFilePath : Text
  archiveInput : Text → Option ObjectInput
  currentBytes : ObjectInput
  previousBytes : Option ObjectInput
  matchedSections : List MatchedPatchSection

/-- `dynamic_relocation_patches_for_input`.  The source goes through the records input by input. -/
def dynamicRelocationPatchesForInput (archiveInput : Text → Option ObjectInput) :
    List DynamicRelocationRecord → Option (List DynamicRelocationPatch)
  | [] => some []
  | record :: records => do
    let rest ← dynamicRelocationPatchesForInput archiveInput records
    match archiveInput record.input with
    | some (some sections) =>
      let patch ← dynamicRelocationPatch sections record
      some (patch.toList ++ rest)
    | _ => some rest

/-! ## 3. Added relocations -/

/-- The slots of a recorded part: the loop goes on while a whole entry fits. -/
def partSlots (s : SectionRecord) : List Nat :=
  if s.outputOffset.toNat + s.size.toNat < 2 ^ 64 then
    (List.range (s.size.toNat / RELA_ENTRY_SIZE)).map fun i =>
      s.outputOffset.toNat + RELA_ENTRY_SIZE * i
  else []

/-- `free_dynamic_relocation_output_slots`. -/
def freeDynamicRelocationOutputSlots (sections : List SectionRecord)
    (records : List DynamicRelocationRecord) : List Nat :=
  let used := records.map (·.outputOffset.toNat)
  let generated := sections.filter fun s =>
    s.inputFile = GENERATED_SECTION_INPUT_FILE ∧ s.input = GENERATED_RELA_DYN_GENERAL
  sortedByKey id (generated.flatMap fun s => (partSlots s).filter (· ∉ used))

/-- A relocation that is new in the input, and a recorded one of the same kind. -/
structure AddedRelocation where
  sectionIndex : UInt32
  entry : RelaPatchEntry
  reference : DynamicRelocationRecord

/-- The relocations that a matched section has got and that have a reference. -/
def addedInSection (previous current : List RelaSection)
    (previousRecords : List DynamicRelocationRecord) (matched : MatchedPatchSection) :
    List AddedRelocation :=
  let previousEntries := (relaEntriesForSection matched.previousIndex previous).getD []
  let currentEntries := (relaEntriesForSection matched.currentIndex current).getD []
  let isNew := currentEntries.filter fun entry => entry.offset ∉ previousEntries.map (·.offset)
  isNew.filterMap fun entry =>
    (previousRecords.find? fun record => record.sectionIndex = matched.previousIndex ∧
      previousEntries.any fun old => old.offset = record.relocationOffset ∧ old.info = entry.info).map
        fun reference => ⟨matched.currentIndex, entry, reference⟩

/-- `add_signed_delta_u64`. -/
def addSignedDeltaU64 (value : UInt64) (delta : Int) : Option UInt64 :=
  let adjusted := (value.toNat : Int) + delta
  if 0 ≤ adjusted ∧ adjusted < 2 ^ 64 then some (UInt64.ofNat adjusted.toNat) else none

/-- The patch that puts an added relocation into a slot. -/
def addedPatch (inputFilePath : Text) (added : AddedRelocation) (outputOffset : Nat) :
    Option DynamicRelocationPatch := do
  let delta : Int := (added.entry.offset.toNat : Int) - added.reference.relocationOffset.toNat
  let referenceOffset ← added.reference.outputROffset
  let outputRInfo ← added.reference.outputRInfo
  let outputROffset ← addSignedDeltaU64 referenceOffset delta
  some {
    record := { inputFile := inputFilePath, input := inputFilePath
                sectionIndex := added.sectionIndex, relocationOffset := added.entry.offset
                outputOffset := UInt64.ofNat outputOffset, size := UInt64.ofNat RELA_ENTRY_SIZE
                outputROffset := some outputROffset, outputRInfo := some outputRInfo }
    inInput := true
    entry := ⟨outputROffset, outputRInfo, added.entry.addend⟩
    preserveHead := false
    isNew := true }

/-- Each relocation takes the next free slot, until there is none. -/
def placeAdded (inputFilePath : Text) : List AddedRelocation → List Nat →
    List DynamicRelocationPatch
  | added :: rest, slot :: slots =>
    (addedPatch inputFilePath added slot).toList ++ placeAdded inputFilePath rest slots
  | _, _ => []

/-- The recorded relocations that an added one can be like. -/
def referenceRecords (inputFilePath : Text) (records : List DynamicRelocationRecord) :
    List DynamicRelocationRecord :=
  records.filter fun record => record.inputFile = inputFilePath ∧ record.input = inputFilePath ∧
    record.hasRestorableRelaOutputInfo = true

/-- The relocations that `added_dynamic_relocation_patches_for_input` looks for slots for. -/
def addedRelocations (change : InputChange) (records : List DynamicRelocationRecord) :
    List AddedRelocation :=
  if change.matchedSections.any fun s =>
      s.previousInput ≠ change.inputFilePath ∨ s.currentInput ≠ change.inputFilePath then []
  else match change.currentBytes, change.previousBytes with
    | some current, some (some previous) =>
      change.matchedSections.flatMap
        (addedInSection previous current (referenceRecords change.inputFilePath records))
    | _, _ => []

/-- `added_dynamic_relocation_patches_for_input`. -/
def addedDynamicRelocationPatchesForInput (change : InputChange)
    (records : List DynamicRelocationRecord) (sections : List SectionRecord) :
    List DynamicRelocationPatch :=
  placeAdded change.inputFilePath (addedRelocations change records)
    (freeDynamicRelocationOutputSlots sections
      (records.filter fun record => record.size.toNat = RELA_ENTRY_SIZE))

/-! ## 4. The state over changes -/

/-- What is kept of the dynamic relocations, and the entries of the output. -/
structure DynamicState where
  sections : List SectionRecord
  records : List DynamicRelocationRecord
  output : Nat → Rela

/-- The output after a patch. -/
def DynamicRelocationPatch.apply (output : Nat → Rela) (patch : DynamicRelocationPatch) :
    Nat → Rela :=
  Function.update output patch.record.outputOffset.toNat
    (if patch.preserveHead then
      { output patch.record.outputOffset.toNat with rAddend := patch.entry.rAddend }
    else patch.entry)

namespace DynamicState

variable (change : InputChange) (s : DynamicState)

/-- The patches of the records that the input has. -/
def keptPatches : Option (List DynamicRelocationPatch) :=
  dynamicRelocationPatchesForInput change.archiveInput
    (s.records.filter (·.inputFile = change.inputFilePath))

/-- The patches of the relocations that are new. -/
def addedPatches : List DynamicRelocationPatch :=
  addedDynamicRelocationPatchesForInput change s.records s.sections

/-- The records after the patches: those that were added, without those whose relocation is gone and
that hold nothing to restore it from. -/
def recordsAfter (patches : List DynamicRelocationPatch) : List DynamicRelocationRecord :=
  let removed := (patches.filter fun patch => !patch.inInput).map (·.record)
  let added := (patches.filter fun patch => patch.inInput && patch.isNew).map (·.record)
  let records := if added = [] then s.records else sortDedup (s.records ++ added)
  records.filter fun record => record ∉ removed ∨ record.hasRestorableRelaOutputInfo = true

/-- A changed input, as `patch_changed_inputs` treats its dynamic relocations. -/
def step : Option DynamicState := do
  let kept ← s.keptPatches change
  let patches := kept ++ s.addedPatches change
  some { sections := s.sections
         records := s.recordsAfter patches
         output := patches.foldl DynamicRelocationPatch.apply s.output }

end DynamicState

end Srs.Incremental
