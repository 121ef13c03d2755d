/-
# The addresses that relaxation reckons with

`layout.rs`: while bytes are still being deleted, `compute_section_and_symbol_addresses` walks over
the files of each group and reckons where their sections and symbols will be.  Once the sizes are
final, `finalise_layout` walks over them again and hands out the addresses.

Both walks give every section the next offset of its part.  The second one also takes offsets for
what is not a section (common symbols, entries of the GOT, thunks, what other files need), and it
moves a symbol by what was deleted before it in its section.  `agrees_iff` says that the walks give
the same addresses exactly where none of this matters.
-/
import Mathlib.Algebra.BigOperators.Group.List.Lemmas
import Mathlib.Tactic.Abel
import Srs.Dynamic.Resolutions
import Srs.Output.Parts
import Srs.Relaxation.RiscV

namespace Srs.AddressEstimate

open Relaxation List Option
open Srs.Dynamic (ValueFlags Resolution createResolution createResolution_taken)
open Srs.Output (PartId)

/-! ## 1. Groups, files and sections -/

/-- `OutputSectionPartMap<u64>` -/
abbrev Offsets := PartId → Nat

abbrev SymbolId := Nat

def GOT : PartId := 6
def PLT_GOT : PartId := 7
def EH_FRAME : PartId := 9
def DYNSYM : PartId := 15

structure PartInfo where
  shouldPack : Bool
  alignment : Alignment

structure Section where
  size : Nat
  extraCapacity : Nat
  deriving DecidableEq

/-- `Section::capacity` -/
def Section.capacity (sec : Section) (part : PartInfo) : Nat :=
  if part.shouldPack then sec.size
  else min (part.alignment.alignUp sec.size + sec.extraCapacity) (2 ^ 64 - 1)

inductive SectionSlot where
  | loaded (sec : Section)
  | loadedDebugInfo (sec : Section)
  | frameData
  /-- discarded, not loaded, or merged -/
  | unplaced
  deriving DecidableEq

structure InputSection where
  slot : SectionSlot
  partId : PartId
  isExecutable : Bool
  bytes : Bytes
  relocations : List Rela
  relaxDeltas : Option SectionRelaxDeltas

structure CommonSymbol where
  size : Nat
  partId : PartId
  deriving DecidableEq

/-- An entry of the symbol table of a file. -/
structure SymtabEntry where
  symbolSection : Option Nat
  asCommon : Option CommonSymbol
  value : Nat
  isAbsolute : Bool
  deriving DecidableEq

structure ObjectLayoutState where
  sections : List InputSection
  symbols : List SymtabEntry
  /-- the first of the ids of its symbols -/
  symbolIdStart : SymbolId
  ehFrameSize : Nat
  /-- the size of a thunk, where the architecture has them -/
  thunkSize : Option Nat
  thunkBlockId : Nat
  ownsThunkBlock : Bool
  extraThunkBlockIds : List Nat

inductive FileLayoutState where
  | object (obj : ObjectLayoutState)
  /-- any other file, with the offsets that its `finalise_layout` takes -/
  | other (taken : Offsets)

structure GroupState where
  files : List FileLayoutState
  memSizes : Offsets

structure SymbolDb where
  symbolDefinitions : SymbolId → SymbolId

def SymbolDb.definition (db : SymbolDb) (id : SymbolId) : SymbolId :=
  db.symbolDefinitions (db.symbolDefinitions id)

def SymbolDb.isCanonical (db : SymbolDb) (id : SymbolId) : Bool := db.symbolDefinitions id == id

structure ThunkBlock where
  partId : PartId
  symbols : List SymbolId

structure Resources where
  symbolDb : SymbolDb
  flags : SymbolId → ValueFlags
  outputSections : PartId → PartInfo
  /-- `get_merged_string_output_address` of a symbol -/
  mergedStringAddress : SymbolId → Option Nat
  isMappingSymbol : SymbolId → Bool
  thunkBlocks : List ThunkBlock
  /-- the address of the dynamic symbol table -/
  dynsymStart : Nat

/-- `compute_start_offsets_by_group` -/
def computeStartOffsetsByGroup : Offsets → List GroupState → List Offsets
  | _, [] => []
  | offsets, group :: groups =>
    offsets :: computeStartOffsetsByGroup (offsets + group.memSizes) groups

/-! ## 2. The estimate -/

section

variable (res : Resources)

def InputSection.capacity (sec : InputSection) (s : Section) : Nat :=
  s.capacity (res.outputSections sec.partId)

/-- The loop of `compute_section_and_symbol_addresses` over the sections of a file. -/
def computeSections : Offsets → List InputSection → List Nat × Offsets
  | offsets, [] => ([], offsets)
  | offsets, sec :: rest =>
    match sec.slot with
    | .loaded s =>
      let (addresses, after) :=
        computeSections (offsets + Pi.single sec.partId (sec.capacity res s)) rest
      (offsets sec.partId :: addresses, after)
    | .loadedDebugInfo s =>
      let (addresses, after) :=
        computeSections (offsets + Pi.single sec.partId (sec.capacity res s)) rest
      (0 :: addresses, after)
    | .frameData | .unplaced =>
      let (addresses, after) := computeSections offsets rest
      (0 :: addresses, after)

/-- What is stored for a symbol, if anything. -/
def symbolStore (obj : ObjectLayoutState) (addresses : List Nat) (index : Nat)
    (sym : SymtabEntry) : Option (SymbolId × Nat) :=
  let symId := obj.symbolIdStart + index
  if res.symbolDb.definition symId ≠ symId then none
  else
    match sym.symbolSection with
    | some sec =>
      let secAddr := addresses.getD sec 0
      if secAddr = 0 then none else some (symId, secAddr + sym.value)
    | none => if sym.isAbsolute then some (symId, sym.value) else none

/-- The addresses of the sections of a file, and what is stored for its symbols. -/
def computeFile (offsets : Offsets) :
    FileLayoutState → (List Nat × List (SymbolId × Nat)) × Offsets
  | .object obj =>
    let (addresses, after) := computeSections res offsets obj.sections
    let stores := obj.symbols.zipIdx.filterMap fun (sym, index) =>
      symbolStore res obj addresses index sym
    ((addresses, stores), after + Pi.single EH_FRAME obj.ehFrameSize)
  | .other _ => (([], []), offsets)

def computeFiles : Offsets → List FileLayoutState → List (List Nat × List (SymbolId × Nat))
  | _, [] => []
  | offsets, file :: files =>
    let (computed, after) := computeFile res offsets file
    computed :: computeFiles after files

/-- `SYMBOL_ADDRESS_UNRESOLVED` -/
def symbolAddressUnresolved : Nat := 2 ^ 64 - 1

/-- The table of what was stored. -/
def symbolAddress (stores : List (SymbolId × Nat)) (id : SymbolId) : Nat :=
  ((stores.find? fun store => store.1 = id).map (·.2)).getD symbolAddressUnresolved

/-- `compute_section_and_symbol_addresses`: the addresses of the sections by group and file, and
those of the symbols. -/
def computeSectionAndSymbolAddresses (groups : List GroupState) (sectionPartLayouts : Offsets) :
    List (List (List Nat)) × (SymbolId → Nat) :=
  let computed := ((computeStartOffsetsByGroup sectionPartLayouts groups).zip groups).map
    fun (offsets, group) => computeFiles res offsets group.files
  (computed.map (·.map (·.1)), symbolAddress (computed.flatten.flatMap (·.2)))

/-! ## 3. The final addresses -/

/-- The loop of `finalise_layout` over the sections: the address of each, if it has one. -/
def finaliseSections : Offsets → List InputSection → List (Option Nat) × Offsets
  | offsets, [] => ([], offsets)
  | offsets, sec :: rest =>
    match sec.slot with
    | .loaded s | .loadedDebugInfo s =>
      let (resolutions, after) :=
        finaliseSections (offsets + Pi.single sec.partId (sec.capacity res s)) rest
      (some (offsets sec.partId) :: resolutions, after)
    | .frameData =>
      let (resolutions, after) := finaliseSections offsets rest
      (some (offsets EH_FRAME) :: resolutions, after)
    | .unplaced =>
      let (resolutions, after) := finaliseSections offsets rest
      (none :: resolutions, after)

/-- The value of a symbol, unless it needs none, and the offsets after it. -/
def rawValue (obj : ObjectLayoutState) (sectionResolutions : List (Option Nat)) (offsets : Offsets)
    (index : Nat) (sym : SymtabEntry) : Result (Option (Nat × Offsets)) :=
  match sym.symbolSection with
  | some sectionIndex =>
    match obj.sections[sectionIndex]?, sectionResolutions[sectionIndex]? with
    | some sec, some (some sectionAddress) =>
      .ok (some (optInputToOutput sec.relaxDeltas sym.value + sectionAddress, offsets))
    | some _, some none =>
      match res.mergedStringAddress (obj.symbolIdStart + index) with
      | some address => .ok (some (address, offsets))
      | none =>
        if res.isMappingSymbol (obj.symbolIdStart + index) then .ok none
        else .error "Symbol is in a section that we didn't load"
    -- an index out of bounds is a panic
    | _, _ => .error "index out of bounds"
  | none =>
    match sym.asCommon with
    | some common =>
      .ok (some (offsets common.partId, offsets + Pi.single common.partId common.size))
    | none => .ok (some (sym.value, offsets))

/-- `SYMTAB_ENTRY_SIZE` -/
def symtabEntrySize : Nat := 24

/-- `take_dynsym_index`, for a symbol that has one -/
def takeDynsymIndex (flags : ValueFlags) (offsets : Offsets) :
    Result (Option Nat × Offsets) :=
  if flags.dynamic then
    let index := (offsets DYNSYM - res.dynsymStart) / symtabEntrySize
    if 2 ^ 32 ≤ index then .error "Too many dynamic symbols"
    else if index = 0 then .error "Attempted to create dynamic symbol index 0"
    else .ok (some index, offsets + Pi.single DYNSYM symtabEntrySize)
  else .ok (none, offsets)

/-- What the entries of a resolution take of the GOT and the PLT. -/
def takenRoom (taken : Dynamic.Parts) : Offsets :=
  Pi.single GOT taken.got + Pi.single PLT_GOT taken.pltGot

/-- Whether a symbol gets a resolution. -/
def isResolved (id : SymbolId) : Bool :=
  (res.flags id).hasResolution && res.symbolDb.isCanonical id

/-- `create_symbol_resolution` -/
def createSymbolResolution (obj : ObjectLayoutState) (sectionResolutions : List (Option Nat))
    (offsets : Offsets) (index : Nat) (sym : SymtabEntry) :
    Result (Option Resolution × Offsets) :=
  let symbolId := obj.symbolIdStart + index
  if !isResolved res symbolId then .ok (none, offsets)
  else do
    match ← rawValue res obj sectionResolutions offsets index sym with
    | none => .ok (none, offsets)
    | some (value, offsets) =>
      let (dynamicSymbolIndex, offsets) ← takeDynsymIndex res (res.flags symbolId) offsets
      let (resolution, taken) :=
        createResolution (res.flags symbolId) value dynamicSymbolIndex (offsets GOT)
          (offsets PLT_GOT)
      .ok (some resolution, offsets + takenRoom taken)

/-- The loop over the symbols of a file, from the one with the given index on. -/
def finaliseSymbols (obj : ObjectLayoutState) (sectionResolutions : List (Option Nat)) :
    Nat → Offsets → List SymtabEntry → Result (List (Option Resolution) × Offsets)
  | _, offsets, [] => .ok ([], offsets)
  | index, offsets, sym :: rest => do
    let (resolution, offsets) ← createSymbolResolution res obj sectionResolutions offsets index sym
    let (resolutions, offsets) ← finaliseSymbols obj sectionResolutions (index + 1) offsets rest
    .ok (resolution :: resolutions, offsets)

/-- The offsets that `assign_thunk_block_addresses` takes. -/
def thunkBlockRoom (thunkSize blockId : Nat) : Offsets :=
  match res.thunkBlocks[blockId]? with
  | some block =>
    if block.symbols = [] then 0
    else
      Pi.single block.partId ((res.outputSections block.partId).alignment.alignUp
        (block.symbols.length * thunkSize))
  | none => 0

def thunkRoom (obj : ObjectLayoutState) : Offsets :=
  match obj.thunkSize with
  | some thunkSize =>
    (if obj.ownsThunkBlock then thunkBlockRoom res thunkSize obj.thunkBlockId else 0)
      + (obj.extraThunkBlockIds.map (thunkBlockRoom res thunkSize)).sum
  | none => 0

structure ObjectLayout where
  sectionResolutions : List (Option Nat)
  /-- the resolutions of its symbols -/
  resolutions : List (Option Resolution)

/-- `finalise_layout` of a file -/
def finaliseFile (offsets : Offsets) :
    FileLayoutState → Result (Option ObjectLayout × Offsets)
  | .object obj => do
    let (sectionResolutions, offsets) := finaliseSections res offsets obj.sections
    let (resolutions, offsets) ← finaliseSymbols res obj sectionResolutions 0 offsets obj.symbols
    .ok (some ⟨sectionResolutions, resolutions⟩,
      offsets + Pi.single EH_FRAME obj.ehFrameSize + thunkRoom res obj)
  | .other taken => .ok (none, offsets + taken)

def finaliseFiles : Offsets → List FileLayoutState → Result (List (Option ObjectLayout))
  | _, [] => .ok []
  | offsets, file :: files => do
    let (layout, offsets) ← finaliseFile res offsets file
    let layouts ← finaliseFiles offsets files
    .ok (layout :: layouts)

/-- `compute_symbols_and_layouts` -/
def computeSymbolsAndLayouts (groups : List GroupState) (sectionPartLayouts : Offsets) :
    Result (List (List (Option ObjectLayout))) :=
  ((computeStartOffsetsByGroup sectionPartLayouts groups).zip groups).mapM
    fun (offsets, group) => finaliseFiles res offsets group.files

/-! ## 4. What is asked of the estimate -/

def objectAt (groups : List GroupState) (g f : Nat) : Option ObjectLayoutState := do
  let group ← groups[g]?
  match ← group.files[f]? with
  | .object obj => some obj
  | .other _ => none

def layoutAt (layouts : List (List (Option ObjectLayout))) (g f : Nat) : Option ObjectLayout :=
  (layouts[g]?.bind (·[f]?)).join

/-- The estimate for a section; 0 where there is none. -/
def sectionAddress (groups : List GroupState) (sectionPartLayouts : Offsets) (g f i : Nat) : Nat :=
  (((computeSectionAndSymbolAddresses res groups sectionPartLayouts).1[g]?.bind (·[f]?)).bind
    (·[i]?)).getD 0

/-- A symbol of a file that is defined in one of its loaded sections. -/
structure DefinedIn (obj : ObjectLayoutState) (index : Nat) (sym : SymtabEntry) (i : Nat)
    (sec : InputSection) : Prop where
  symbol : obj.symbols[index]? = some sym
  inSection : sym.symbolSection = some i
  sectionAt : obj.sections[i]? = some sec
  loaded : ∃ s, sec.slot = .loaded s

/-- The loaded sections have the addresses that the estimate gives, and so have the resolutions of
the symbols defined in them, where the section has an address that is not zero.  (A resolution with
the dynamic flag is for a symbol that no section defines.) -/
structure Agrees (groups : List GroupState) (sectionPartLayouts : Offsets)
    (layouts : List (List (Option ObjectLayout))) : Prop where
  sections : ∀ g f obj layout, objectAt groups g f = some obj → layoutAt layouts g f = some layout →
    ∀ i sec s, obj.sections[i]? = some sec → sec.slot = .loaded s →
      layout.sectionResolutions[i]?
        = some (some (sectionAddress res groups sectionPartLayouts g f i))
  symbols : ∀ g f obj layout, objectAt groups g f = some obj → layoutAt layouts g f = some layout →
    ∀ index sym i sec resolution, DefinedIn obj index sym i sec →
      layout.resolutions[index]? = some (some resolution) → resolution.flags.dynamic = false →
      sectionAddress res groups sectionPartLayouts g f i ≠ 0 →
      (computeSectionAndSymbolAddresses res groups sectionPartLayouts).2 (obj.symbolIdStart + index)
        = resolution.rawValue

/-! ## 5. What the walks take -/

/-- The offsets that a section takes. -/
def sectionRoom (sec : InputSection) : Offsets :=
  match sec.slot with
  | .loaded s | .loadedDebugInfo s => Pi.single sec.partId (sec.capacity res s)
  | .frameData | .unplaced => 0

def sectionsRoom (sections : List InputSection) : Offsets :=
  (sections.map (sectionRoom res)).sum

/-- A mapping symbol in a section that is not in the output. -/
def isSkipped (obj : ObjectLayoutState) (index : Nat) (sym : SymtabEntry) : Bool :=
  match sym.symbolSection with
  | some i =>
    (obj.sections[i]?.map (·.slot)) == some .unplaced
      && (res.mergedStringAddress (obj.symbolIdStart + index)).isNone
      && res.isMappingSymbol (obj.symbolIdStart + index)
  | none => false

/-- The offsets that the area of a common symbol takes. -/
def commonRoom (sym : SymtabEntry) : Offsets :=
  match sym.symbolSection, sym.asCommon with
  | none, some common => Pi.single common.partId common.size
  | _, _ => 0

/-- The offsets that a symbol takes. -/
def symbolRoom (obj : ObjectLayoutState) (index : Nat) (sym : SymtabEntry) : Offsets :=
  let flags := res.flags (obj.symbolIdStart + index)
  if !isResolved res (obj.symbolIdStart + index) || isSkipped res obj index sym then 0
  else
    commonRoom sym + (if flags.dynamic then Pi.single DYNSYM symtabEntrySize else 0)
      + takenRoom (createResolution flags 0 none 0 0).2

def symbolsRoom (obj : ObjectLayoutState) (index : Nat) (symbols : List SymtabEntry) : Offsets :=
  ((symbols.zipIdx index).map fun (sym, i) => symbolRoom res obj i sym).sum

/-- The offsets that the sections of a file take, with its frame data. -/
def fileRoom : FileLayoutState → Offsets
  | .object obj => sectionsRoom res obj.sections + Pi.single EH_FRAME obj.ehFrameSize
  | .other _ => 0

/-- The offsets that a file takes for anything else. -/
def extraRoom : FileLayoutState → Offsets
  | .object obj => symbolsRoom res obj 0 obj.symbols + thunkRoom res obj
  | .other taken => taken

section

variable (sections : List InputSection)
include sections

theorem computeSections_snd : ∀ offsets : Offsets,
    (computeSections res offsets sections).2 = offsets + sectionsRoom res sections := by
  induction sections with
  | nil => exact fun offsets => (add_zero offsets).symm
  | cons sec rest ih =>
    intro offsets
    rw [sectionsRoom, map_cons, sum_cons, sectionRoom, computeSections]
    cases sec.slot with
    | loaded s | loadedDebugInfo s => simp only [ih, sectionsRoom, add_assoc]
    | frameData | unplaced => simp only [ih, sectionsRoom, zero_add]

theorem finaliseSections_snd : ∀ offsets : Offsets,
    (finaliseSections res offsets sections).2 = offsets + sectionsRoom res sections := by
  induction sections with
  | nil => exact fun offsets => (add_zero offsets).symm
  | cons sec rest ih =>
    intro offsets
    rw [sectionsRoom, map_cons, sum_cons, sectionRoom, finaliseSections]
    cases sec.slot with
    | loaded s | loadedDebugInfo s => simp only [ih, sectionsRoom, add_assoc]
    | frameData | unplaced => simp only [ih, sectionsRoom, zero_add]

/-- The estimate for a section: what its part starts with, and the sections before it. -/
theorem getElem?_computeSections : ∀ (offsets : Offsets) (i : Nat),
    (computeSections res offsets sections).1[i]? = sections[i]?.map fun sec =>
      match sec.slot with
      | .loaded _ => (offsets + sectionsRoom res (sections.take i)) sec.partId
      | _ => 0 := by
  induction sections with
  | nil => exact fun _ _ => rfl
  | cons sec rest ih =>
    intro offsets i
    cases i with
    | zero =>
      rw [computeSections]
      cases hslot : sec.slot with
      | loaded s | loadedDebugInfo s | frameData | unplaced =>
        simp [hslot, sectionsRoom]
    | succ i =>
      rw [computeSections, take_succ_cons, sectionsRoom, map_cons, sum_cons,
        sectionRoom]
      cases sec.slot with
      | loaded s | loadedDebugInfo s =>
        simp only [getElem?_cons_succ, ih, sectionsRoom, add_assoc]
      | frameData | unplaced =>
        simp only [getElem?_cons_succ, ih, sectionsRoom, zero_add]

theorem getElem?_finaliseSections : ∀ (offsets : Offsets) (i : Nat),
    (finaliseSections res offsets sections).1[i]? = sections[i]?.map fun sec =>
      match sec.slot with
      | .loaded _ | .loadedDebugInfo _ =>
        some ((offsets + sectionsRoom res (sections.take i)) sec.partId)
      | .frameData => some ((offsets + sectionsRoom res (sections.take i)) EH_FRAME)
      | .unplaced => none := by
  induction sections with
  | nil => exact fun _ _ => rfl
  | cons sec rest ih =>
    intro offsets i
    cases i with
    | zero =>
      rw [finaliseSections]
      cases hslot : sec.slot with
      | loaded s | loadedDebugInfo s | frameData | unplaced =>
        simp [hslot, sectionsRoom]
    | succ i =>
      rw [finaliseSections, take_succ_cons, sectionsRoom, map_cons, sum_cons,
        sectionRoom]
      cases sec.slot with
      | loaded s | loadedDebugInfo s =>
        simp only [getElem?_cons_succ, ih, sectionsRoom, add_assoc]
      | frameData | unplaced =>
        simp only [getElem?_cons_succ, ih, sectionsRoom, zero_add]

end

variable {obj : ObjectLayoutState} {start offsets : Offsets} {index : Nat} {sym : SymtabEntry}
  {after : Offsets}

/-- A symbol is skipped, or its value takes the area of a common symbol. -/
theorem rawValue_eq_ok {value : Option (Nat × Offsets)}
    (h : rawValue res obj (finaliseSections res start obj.sections).1 offsets index sym
      = .ok value) :
    match value with
    | none => isSkipped res obj index sym = true
    | some (_, after) =>
      isSkipped res obj index sym = false ∧ after = offsets + commonRoom sym := by
  unfold rawValue at h
  cases hsec : sym.symbolSection with
  | none =>
    have hskip : isSkipped res obj index sym = false := by simp [isSkipped, hsec]
    rw [hsec] at h
    cases hcommon : sym.asCommon with
    | none =>
      rw [hcommon] at h
      cases h
      exact ⟨hskip, by rw [commonRoom, hsec, hcommon, add_zero]⟩
    | some common =>
      rw [hcommon] at h
      cases h
      exact ⟨hskip, by rw [commonRoom, hsec, hcommon]⟩
  | some i =>
    have hroom : offsets = offsets + commonRoom sym := by rw [commonRoom, hsec, add_zero]
    rw [hsec] at h
    dsimp only at h
    rw [getElem?_finaliseSections] at h
    cases hobj : obj.sections[i]? with
    | none =>
      rw [hobj] at h
      cases h
    | some sec =>
      rw [hobj, map_some] at h
      have hskip : isSkipped res obj index sym = (sec.slot == .unplaced
          && (res.mergedStringAddress (obj.symbolIdStart + index)).isNone
          && res.isMappingSymbol (obj.symbolIdStart + index)) := by
        simp [isSkipped, hsec, hobj]
      cases hslot : sec.slot with
      | loaded s | loadedDebugInfo s | frameData =>
        simp only [hslot] at h
        cases h
        refine ⟨?_, hroom⟩
        rw [hskip, hslot]
        rfl
      | unplaced =>
        simp only [hslot] at h
        cases hmerged : res.mergedStringAddress (obj.symbolIdStart + index) with
        | some address =>
          rw [hmerged] at h
          cases h
          exact ⟨by rw [hskip, hmerged, isNone_some, Bool.and_false, Bool.false_and], hroom⟩
        | none =>
          rw [hmerged] at h
          dsimp only at h
          by_cases hmapping : res.isMappingSymbol (obj.symbolIdStart + index) = true
          · rw [if_pos hmapping] at h
            cases h
            dsimp only
            rw [hskip, hslot, hmerged, hmapping]
            rfl
          · rw [if_neg hmapping] at h
            cases h

theorem takeDynsymIndex_eq_ok {flags : ValueFlags} {index : Option Nat}
    (h : takeDynsymIndex res flags offsets = .ok (index, after)) :
    after = offsets + if flags.dynamic then Pi.single DYNSYM symtabEntrySize else 0 := by
  unfold takeDynsymIndex at h
  split at h
  · rename_i hdyn
    rw [if_pos hdyn]
    dsimp only at h
    split at h
    · cases h
    · split at h
      · cases h
      · cases h
        rfl
  · rename_i hdyn
    cases h
    rw [if_neg hdyn, add_zero]

/-- What the entries take does not depend on where they are. -/
theorem createResolution_snd (flags : ValueFlags) (value : Nat) (index : Option Nat)
    (gotOffset pltOffset : Nat) :
    (createResolution flags value index gotOffset pltOffset).2
      = (createResolution flags 0 none 0 0).2 := by
  rw [createResolution_taken, createResolution_taken]

/-- **What a symbol takes, and what it gets.** -/
theorem createSymbolResolution_eq_ok {resolution : Option Resolution}
    (h : createSymbolResolution res obj (finaliseSections res start obj.sections).1 offsets index
      sym = .ok (resolution, after)) :
    after = offsets + symbolRoom res obj index sym
      ∧ match resolution with
        | none => isResolved res (obj.symbolIdStart + index) = false
          ∨ rawValue res obj (finaliseSections res start obj.sections).1 offsets index sym
            = .ok none
        | some r => isResolved res (obj.symbolIdStart + index) = true
          ∧ r.flags = res.flags (obj.symbolIdStart + index)
          ∧ ∃ value o,
            rawValue res obj (finaliseSections res start obj.sections).1 offsets index sym
              = .ok (some (value, o))
            ∧ (r.flags.dynamic = false → r.rawValue = value) := by
  unfold createSymbolResolution at h
  cases hresolved : isResolved res (obj.symbolIdStart + index) with
  | false =>
    simp only [hresolved, Bool.not_false, if_true] at h
    cases h
    exact ⟨by simp [symbolRoom, hresolved], .inl rfl⟩
  | true =>
    simp only [hresolved, Bool.not_true, Bool.false_eq_true, if_false] at h
    obtain ⟨value, hvalue, h⟩ := bind_eq_ok.mp h
    have hspec := rawValue_eq_ok res hvalue
    cases value with
    | none =>
      cases h
      have hskip : isSkipped res obj index sym = true := hspec
      exact ⟨by simp [symbolRoom, hskip], .inr hvalue⟩
    | some pair =>
      obtain ⟨value, o⟩ := pair
      obtain ⟨hskip, rfl⟩ := hspec
      obtain ⟨⟨dynIndex, o'⟩, hdyn, h⟩ := bind_eq_ok.mp h
      have ho' := takeDynsymIndex_eq_ok res hdyn
      cases h
      refine ⟨?_, ?_⟩
      · rw [createResolution_snd, ho', symbolRoom, hresolved, hskip]
        simp only [Bool.not_true, Bool.or_self, Bool.false_eq_true, if_false, add_assoc]
      · refine ⟨rfl, Dynamic.createResolution_flags .., value, _, hvalue, ?_⟩
        intro hflags
        rw [Dynamic.createResolution_flags] at hflags
        unfold createResolution
        rw [hflags]
        split
        · rfl
        · split
          · rfl
          · split <;> rfl

theorem finaliseSymbols_eq_ok (symbols : List SymtabEntry) :
    ∀ {index : Nat} {offsets after : Offsets} {resolutions : List (Option Resolution)},
      finaliseSymbols res obj (finaliseSections res start obj.sections).1 index offsets symbols
        = .ok (resolutions, after) →
      after = offsets + symbolsRoom res obj index symbols
        ∧ ∀ k sym, symbols[k]? = some sym → ∃ r o o', resolutions[k]? = some r
          ∧ createSymbolResolution res obj (finaliseSections res start obj.sections).1 o (index + k)
            sym = .ok (r, o') := by
  induction symbols with
  | nil =>
    intro index offsets after resolutions h
    cases h
    refine ⟨(add_zero _).symm, ?_⟩
    intro k sym hk
    cases hk
  | cons sym rest ih =>
    intro index offsets after resolutions h
    rw [finaliseSymbols] at h
    obtain ⟨⟨r, o⟩, hfirst, h⟩ := bind_eq_ok.mp h
    obtain ⟨⟨rs, o'⟩, hrest, h⟩ := bind_eq_ok.mp h
    cases h
    obtain ⟨hafter, hget⟩ := ih hrest
    refine ⟨?_, ?_⟩
    · rw [hafter, (createSymbolResolution_eq_ok res hfirst).1, symbolsRoom, symbolsRoom,
        zipIdx_cons, map_cons, sum_cons, add_assoc]
    · intro k sym' hk
      cases k with
      | zero =>
        cases hk
        exact ⟨r, offsets, o, rfl, by rw [Nat.add_zero, hfirst]⟩
      | succ k =>
        obtain ⟨r', a, b, hr', hcreate⟩ := hget k sym' hk
        refine ⟨r', a, b, hr', ?_⟩
        rw [← hcreate, Nat.add_assoc, Nat.add_comm 1 k]

/-! ## 6. A file within its group -/

theorem computeFile_snd (offsets : Offsets) (file : FileLayoutState) :
    (computeFile res offsets file).2 = offsets + fileRoom res file := by
  cases file with
  | object obj =>
    simp only [computeFile, fileRoom]
    rw [computeSections_snd, add_assoc]
  | other taken => exact (add_zero _).symm

theorem finaliseFile_eq_ok {file : FileLayoutState}
    {layout : Option ObjectLayout} (h : finaliseFile res offsets file = .ok (layout, after)) :
    after = offsets + (fileRoom res file + extraRoom res file) := by
  cases file with
  | object obj =>
    rw [finaliseFile] at h
    obtain ⟨⟨resolutions, o⟩, hsymbols, h⟩ := bind_eq_ok.mp h
    cases h
    rw [(finaliseSymbols_eq_ok res _ hsymbols).1, finaliseSections_snd, fileRoom, extraRoom]
    abel
  | other taken =>
    cases h
    rw [fileRoom, extraRoom, zero_add]

theorem getElem?_computeFiles (files : List FileLayoutState) : ∀ (offsets : Offsets) (f : Nat),
    (computeFiles res offsets files)[f]? = files[f]?.map fun file =>
      (computeFile res (offsets + ((files.take f).map (fileRoom res)).sum) file).1 := by
  induction files with
  | nil => exact fun _ _ => rfl
  | cons file rest ih =>
    intro offsets f
    cases f with
    | zero => simp [computeFiles]
    | succ f =>
      rw [computeFiles, getElem?_cons_succ, ih, computeFile_snd, getElem?_cons_succ,
        take_succ_cons, map_cons, sum_cons, add_assoc]

theorem getElem?_finaliseFiles {files : List FileLayoutState} : ∀ {offsets : Offsets}
    {layouts : List (Option ObjectLayout)} {f : Nat} {file : FileLayoutState},
    finaliseFiles res offsets files = .ok layouts → files[f]? = some file →
    ∃ layout after, layouts[f]? = some layout
      ∧ finaliseFile res (offsets
          + ((files.take f).map fun file => fileRoom res file + extraRoom res file).sum) file
        = .ok (layout, after) := by
  induction files with
  | nil =>
    intro offsets layouts f file _ hf
    cases hf
  | cons first rest ih =>
    intro offsets layouts f file h hf
    rw [finaliseFiles] at h
    obtain ⟨⟨layout, o⟩, hfirst, h⟩ := bind_eq_ok.mp h
    obtain ⟨later, hrest, h⟩ := bind_eq_ok.mp h
    cases h
    cases f with
    | zero =>
      cases hf
      exact ⟨layout, o, rfl, by rw [take_zero, map_nil, sum_nil, add_zero, hfirst]⟩
    | succ f =>
      obtain ⟨layout', after, hlayout, hfile⟩ := ih hrest hf
      refine ⟨layout', after, hlayout, ?_⟩
      rw [← hfile, finaliseFile_eq_ok res hfirst, take_succ_cons, map_cons, sum_cons,
        ← add_assoc offsets]

/-- Where the parts of a group start. -/
def startOf (groups : List GroupState) (sectionPartLayouts : Offsets) (g : Nat) : Offsets :=
  sectionPartLayouts + ((groups.take g).map (·.memSizes)).sum

omit res in
theorem getElem?_zip_starts (groups : List GroupState) : ∀ (offsets : Offsets) (g : Nat),
    ((computeStartOffsetsByGroup offsets groups).zip groups)[g]?
      = groups[g]?.map fun group => (startOf groups offsets g, group) := by
  induction groups with
  | nil => exact fun _ _ => rfl
  | cons group rest ih =>
    intro offsets g
    cases g with
    | zero => simp [computeStartOffsetsByGroup, startOf]
    | succ g =>
      rw [computeStartOffsetsByGroup, zip_cons_cons, getElem?_cons_succ, ih,
        getElem?_cons_succ, startOf, startOf, take_succ_cons, map_cons,
        sum_cons, add_assoc]

omit res in
theorem objectAt_eq_some {groups : List GroupState} {g f : Nat}
    (h : objectAt groups g f = some obj) :
    ∃ group, groups[g]? = some group ∧ group.files[f]? = some (.object obj) := by
  obtain ⟨group, hgroup, h⟩ := bind_eq_some_iff.mp h
  obtain ⟨file, hfile, h⟩ := bind_eq_some_iff.mp h
  cases file with
  | object o =>
    cases h
    exact ⟨group, hgroup, hfile⟩
  | other taken => cases h

/-- What the files before a file of a group take for anything but their sections. -/
def extraBefore (groups : List GroupState) (g f : Nat) : Offsets :=
  match groups[g]? with
  | some group => ((group.files.take f).map (extraRoom res)).sum
  | none => 0

/-- **The two walks at a file**: they are apart by what the files before it take. -/
theorem exists_walks {groups : List GroupState} {sectionPartLayouts : Offsets}
    {layouts : List (List (Option ObjectLayout))}
    (h : computeSymbolsAndLayouts res groups sectionPartLayouts = .ok layouts) {g f : Nat}
    (hobj : objectAt groups g f = some obj) :
    ∃ (offsets o o' : Offsets) (resolutions : List (Option Resolution)),
      ((((computeStartOffsetsByGroup sectionPartLayouts groups).zip groups).map
          fun (offsets, group) => computeFiles res offsets group.files)[g]?.bind (·[f]?))
        = some (computeFile res offsets (.object obj)).1
      ∧ layoutAt layouts g f
        = some ⟨(finaliseSections res (offsets + extraBefore res groups g f) obj.sections).1,
            resolutions⟩
      ∧ finaliseSymbols res obj
          (finaliseSections res (offsets + extraBefore res groups g f) obj.sections).1 0 o
          obj.symbols
        = .ok (resolutions, o') := by
  obtain ⟨group, hgroup, hfile⟩ := objectAt_eq_some hobj
  have hpair : ((computeStartOffsetsByGroup sectionPartLayouts groups).zip groups)[g]?
      = some (startOf groups sectionPartLayouts g, group) := by
    rw [getElem?_zip_starts, hgroup, map_some]
  obtain ⟨hlt, hget⟩ := List.getElem?_eq_some_iff.mp hpair
  have hall := forall₂_of_mapM_ok h
  have hlt' : g < layouts.length := hall.length_eq ▸ hlt
  have hfiles : finaliseFiles res (startOf groups sectionPartLayouts g) group.files
      = .ok (layouts.get ⟨g, hlt'⟩) := by
    have := hall.get hlt hlt'
    rw [get_eq_getElem, hget] at this
    exact this
  obtain ⟨layout, after, hlayout, hfinal⟩ := getElem?_finaliseFiles res hfiles hfile
  have hoffsets : startOf groups sectionPartLayouts g
      + ((group.files.take f).map fun file => fileRoom res file + extraRoom res file).sum
      = startOf groups sectionPartLayouts g + ((group.files.take f).map (fileRoom res)).sum
        + extraBefore res groups g f := by
    rw [extraBefore, hgroup, sum_map_add, add_assoc]
  rw [hoffsets, finaliseFile] at hfinal
  obtain ⟨⟨resolutions, o⟩, hsymbols, hfinal⟩ := bind_eq_ok.mp hfinal
  cases hfinal
  refine ⟨_, _, _, resolutions, ?_, ?_, hsymbols⟩
  · rw [getElem?_map, hpair, map_some, bind_some, getElem?_computeFiles, hfile,
      map_some]
  · rw [layoutAt, getElem?_eq_getElem hlt', bind_some]
    exact congrArg Option.join hlayout

/-! ## 7. The table of symbols -/

def symbolIds : FileLayoutState → List SymbolId
  | .object obj => (List.range obj.symbols.length).map (obj.symbolIdStart + ·)
  | .other _ => []

/-- The symbols of the files have ids of their own. -/
def Numbered (groups : List GroupState) : Prop :=
  (groups.flatMap fun group => group.files.flatMap symbolIds).Nodup

instance (groups : List GroupState) : Decidable (Numbered groups) :=
  inferInstanceAs (Decidable (Nodup _))

omit res in
theorem map_fst_filterMap_sublist {α β γ : Type} {f : α → Option (β × γ)} {key : α → β}
    (h : ∀ a b, f a = some b → b.1 = key a) : ∀ l : List α,
    ((l.filterMap f).map (·.1)).Sublist (l.map key)
  | [] => Sublist.slnil
  | a :: l => by
    rw [filterMap_cons, map_cons]
    cases hf : f a with
    | none => exact (map_fst_filterMap_sublist h l).cons _
    | some b =>
      rw [map_cons, h a b hf]
      exact (map_fst_filterMap_sublist h l).cons_cons _

theorem symbolStore_fst {addresses : List Nat} {store : SymbolId × Nat}
    (h : symbolStore res obj addresses index sym = some store) :
    store.1 = obj.symbolIdStart + index := by
  unfold symbolStore at h
  dsimp only at h
  split at h
  · cases h
  · split at h
    · split at h
      · cases h
      · cases h
        rfl
    · split at h
      · cases h
        rfl
      · cases h

theorem stores_of_file_sublist (offsets : Offsets) (file : FileLayoutState) :
    ((computeFile res offsets file).1.2.map (·.1)).Sublist (symbolIds file) := by
  cases file with
  | object obj =>
    have hids : symbolIds (.object obj)
        = obj.symbols.zipIdx.map fun pair => obj.symbolIdStart + pair.2 := by
      rw [symbolIds, range_eq_range', ← zipIdx_map_snd 0 obj.symbols, List.map_map]
      rfl
    rw [hids]
    exact map_fst_filterMap_sublist (fun pair store h => symbolStore_fst res h) _
  | other taken => exact Sublist.slnil

theorem stores_of_files_sublist (files : List FileLayoutState) : ∀ offsets : Offsets,
    (((computeFiles res offsets files).flatMap (·.2)).map (·.1)).Sublist
      (files.flatMap symbolIds) := by
  induction files with
  | nil => exact fun _ => Sublist.slnil
  | cons file rest ih =>
    intro offsets
    rw [computeFiles, flatMap_cons, map_append, flatMap_cons]
    exact (stores_of_file_sublist res offsets file).append (ih _)

theorem stores_sublist (groups : List GroupState) : ∀ sectionPartLayouts : Offsets,
    (((((computeStartOffsetsByGroup sectionPartLayouts groups).zip groups).map
        fun (offsets, group) => computeFiles res offsets group.files).flatten.flatMap (·.2)).map
      (·.1)).Sublist (groups.flatMap fun group => group.files.flatMap symbolIds) := by
  induction groups with
  | nil => exact fun _ => Sublist.slnil
  | cons group rest ih =>
    intro offsets
    rw [computeStartOffsetsByGroup, zip_cons_cons, map_cons, flatten_cons,
      flatMap_append, map_append, flatMap_cons]
    exact (stores_of_files_sublist res group.files offsets).append (ih _)

omit res in
theorem symbolAddress_of_mem {stores : List (SymbolId × Nat)} {id : SymbolId} {value : Nat}
    (hnodup : (stores.map (·.1)).Nodup) (h : (id, value) ∈ stores) :
    symbolAddress stores id = value := by
  induction stores with
  | nil => exact absurd h not_mem_nil
  | cons store rest ih =>
    obtain ⟨hnot, hrest⟩ := nodup_cons.mp hnodup
    rcases mem_cons.mp h with rfl | h
    · simp [symbolAddress]
    · have hne : store.1 ≠ id := fun heq => hnot (mem_map.mpr ⟨_, h, heq.symm⟩)
      rw [symbolAddress, find?_cons_of_neg (by simpa using hne)]
      exact ih hrest h

/-! ## 8. The result -/

/-- The files before a file take nothing of the parts of its loaded sections, but for their own
sections; and nothing is deleted before a symbol of a loaded section. -/
structure Steady (groups : List GroupState) (sectionPartLayouts : Offsets) : Prop where
  alone : ∀ g f obj, objectAt groups g f = some obj →
    ∀ sec ∈ obj.sections, ∀ s, sec.slot = .loaded s → extraBefore res groups g f sec.partId = 0
  unmoved : ∀ g f obj, objectAt groups g f = some obj →
    ∀ index sym i sec, DefinedIn obj index sym i sec →
      isResolved res (obj.symbolIdStart + index) = true →
      (res.flags (obj.symbolIdStart + index)).dynamic = false →
      sectionAddress res groups sectionPartLayouts g f i ≠ 0 →
      ∀ d, sec.relaxDeltas = some d → d.deletedBefore sym.value = 0

section

variable {groups : List GroupState} {sectionPartLayouts : Offsets}
  {layouts : List (List (Option ObjectLayout))} (hids : Numbered groups)
  (h : computeSymbolsAndLayouts res groups sectionPartLayouts = .ok layouts)

include h

variable {g f i : Nat} {obj : ObjectLayoutState} {sec : InputSection}

variable {layout : ObjectLayout}

/-- The two addresses of a loaded section. -/
theorem section_addresses {s : Section}
    (hobj : objectAt groups g f = some obj)
    (hlayout : layoutAt layouts g f = some layout) (hsec : obj.sections[i]? = some sec)
    (hslot : sec.slot = .loaded s) :
    layout.sectionResolutions[i]? = some (some
      (sectionAddress res groups sectionPartLayouts g f i
        + extraBefore res groups g f sec.partId)) := by
  obtain ⟨offsets, o, o', resolutions, hestimate, hfinal, -⟩ := exists_walks res h hobj
  cases hlayout.symm.trans hfinal
  have haddress : sectionAddress res groups sectionPartLayouts g f i
      = (offsets + sectionsRoom res (obj.sections.take i)) sec.partId := by
    have hfiles : ((computeSectionAndSymbolAddresses res groups sectionPartLayouts).1[g]?.bind
        (·[f]?)) = some (computeFile res offsets (.object obj)).1.1 := by
      rw [computeSectionAndSymbolAddresses, getElem?_map]
      rw [bind_eq_some_iff] at hestimate
      obtain ⟨files, hg, hf⟩ := hestimate
      rw [hg, map_some, bind_some, getElem?_map, hf, map_some]
    rw [sectionAddress, hfiles, bind_some, computeFile, getElem?_computeSections, hsec,
      map_some, hslot]
    rfl
  rw [haddress, getElem?_finaliseSections, hsec, map_some, hslot]
  simp only [Pi.add_apply]
  congr 2
  omega

/-- A resolved symbol of a loaded section has a resolution, with the address of the section and
what is left of its offset. -/
theorem symbol_resolution {index : Nat}
    {sym : SymtabEntry} (hobj : objectAt groups g f = some obj)
    (hlayout : layoutAt layouts g f = some layout) (hdef : DefinedIn obj index sym i sec) :
    ∃ resolution, layout.resolutions[index]? = some resolution
      ∧ (isResolved res (obj.symbolIdStart + index) = true → resolution.isSome)
      ∧ ∀ r, resolution = some r → isResolved res (obj.symbolIdStart + index) = true
        ∧ r.flags = res.flags (obj.symbolIdStart + index)
        ∧ (r.flags.dynamic = false → r.rawValue = optInputToOutput sec.relaxDeltas sym.value
          + (sectionAddress res groups sectionPartLayouts g f i
            + extraBefore res groups g f sec.partId)) := by
  obtain ⟨s, hslot⟩ := hdef.loaded
  have haddress := section_addresses res h hobj hlayout hdef.sectionAt hslot
  obtain ⟨offsets, o, o', resolutions, -, hfinal, hsymbols⟩ := exists_walks res h hobj
  cases hlayout.symm.trans hfinal
  obtain ⟨resolution, a, b, hget, hcreate⟩ :=
    (finaliseSymbols_eq_ok res _ hsymbols).2 index sym hdef.symbol
  rw [Nat.zero_add] at hcreate
  have hvalue : rawValue res obj
      (finaliseSections res (offsets + extraBefore res groups g f) obj.sections).1 a index sym
      = .ok (some (optInputToOutput sec.relaxDeltas sym.value
        + (sectionAddress res groups sectionPartLayouts g f i
          + extraBefore res groups g f sec.partId), a)) := by
    rw [rawValue, hdef.inSection]
    dsimp only
    rw [hdef.sectionAt, haddress]
  have hspec := (createSymbolResolution_eq_ok res hcreate).2
  refine ⟨resolution, hget, ?_, ?_⟩
  · intro hresolved
    cases resolution with
    | none =>
      rcases hspec with hspec | hspec
      · rw [hresolved] at hspec
        cases hspec
      · rw [hvalue] at hspec
        cases hspec
    | some r => rfl
  · rintro r rfl
    obtain ⟨hresolved, hflags, value, o, hraw, heq⟩ := hspec
    rw [hvalue] at hraw
    cases hraw
    exact ⟨hresolved, hflags, heq⟩

include hids

/-- The estimate for a canonical symbol of a loaded section. -/
theorem symbol_estimate {index : Nat} {sym : SymtabEntry} (hobj : objectAt groups g f = some obj)
    (hdef : DefinedIn obj index sym i sec)
    (hresolved : isResolved res (obj.symbolIdStart + index) = true)
    (hne : sectionAddress res groups sectionPartLayouts g f i ≠ 0) :
    (computeSectionAndSymbolAddresses res groups sectionPartLayouts).2 (obj.symbolIdStart + index)
      = sectionAddress res groups sectionPartLayouts g f i + sym.value := by
  obtain ⟨offsets, -, -, -, hestimate, -, -⟩ := exists_walks res h hobj
  obtain ⟨files, hg, hf⟩ := bind_eq_some_iff.mp hestimate
  have haddress : sectionAddress res groups sectionPartLayouts g f i
      = (computeSections res offsets obj.sections).1.getD i 0 := by
    rw [sectionAddress, computeSectionAndSymbolAddresses, getElem?_map, hg, map_some,
      bind_some, getElem?_map, hf, map_some, bind_some,
      getD_eq_getElem?_getD]
    rfl
  have hcanonical : res.symbolDb.definition (obj.symbolIdStart + index)
      = obj.symbolIdStart + index := by
    have hdefs : res.symbolDb.symbolDefinitions (obj.symbolIdStart + index)
        = obj.symbolIdStart + index := eq_of_beq (Bool.and_eq_true_iff.mp hresolved).2
    rw [SymbolDb.definition, hdefs, hdefs]
  have hstore : symbolStore res obj (computeSections res offsets obj.sections).1 index sym
      = some (obj.symbolIdStart + index,
          sectionAddress res groups sectionPartLayouts g f i + sym.value) := by
    rw [haddress] at hne ⊢
    simp only [symbolStore, hcanonical, hdef.inSection, ne_eq, not_true_eq_false, if_false,
      if_neg hne]
  refine symbolAddress_of_mem ((stores_sublist res groups sectionPartLayouts).nodup hids) ?_
  refine mem_flatMap.mpr ⟨_, mem_flatten.mpr ⟨files, mem_of_getElem? hg,
    mem_of_getElem? hf⟩, ?_⟩
  exact mem_filterMap.mpr ⟨(sym, index),
    mem_zipIdx_iff_getElem?.mpr hdef.symbol, hstore⟩

/-- **The estimate is right exactly where the layout is steady.** -/
theorem agrees_iff :
    Agrees res groups sectionPartLayouts layouts ↔ Steady res groups sectionPartLayouts := by
  have hlayouts : ∀ {g f : Nat} {obj : ObjectLayoutState}, objectAt groups g f = some obj →
      ∃ layout, layoutAt layouts g f = some layout := by
    intro g f obj hobj
    obtain ⟨_, _, _, _, -, hlayout, -⟩ := exists_walks res h hobj
    exact ⟨_, hlayout⟩
  constructor
  · intro hagrees
    have halone : ∀ g f obj, objectAt groups g f = some obj →
        ∀ sec ∈ obj.sections, ∀ s, sec.slot = .loaded s →
          extraBefore res groups g f sec.partId = 0 := by
      intro g f obj hobj sec hsec s hslot
      obtain ⟨layout, hlayout⟩ := hlayouts hobj
      obtain ⟨i, hi⟩ := getElem?_of_mem hsec
      have hfinal := section_addresses res h hobj hlayout hi hslot
      rw [hagrees.sections g f obj layout hobj hlayout i sec s hi hslot] at hfinal
      have heq := some.inj (some.inj hfinal)
      omega
    refine ⟨halone, ?_⟩
    intro g f obj hobj index sym i sec hdef hresolved hflags hne d hd
    obtain ⟨layout, hlayout⟩ := hlayouts hobj
    obtain ⟨resolution, hget, hsome, hspec⟩ := symbol_resolution res h hobj hlayout hdef
    obtain ⟨r, rfl⟩ := isSome_iff_exists.mp (hsome hresolved)
    obtain ⟨-, hrflags, hraw⟩ := hspec r rfl
    obtain ⟨s, hslot⟩ := hdef.loaded
    have hzero := halone g f obj hobj sec (mem_of_getElem? hdef.sectionAt) s hslot
    have hdyn : r.flags.dynamic = false := by rw [hrflags, hflags]
    have heq := hagrees.symbols g f obj layout hobj hlayout index sym i sec r hdef hget hdyn hne
    rw [symbol_estimate res hids h hobj hdef hresolved hne, hraw hdyn, hzero, hd, optInputToOutput,
      SectionRelaxDeltas.inputToOutputOffset] at heq
    by_cases hvalue : sym.value = 0
    · -- nothing is before the first byte
      have hnone : d.deltas.takeWhile (fun e => e.inputOffset < 0) = [] := by
        cases d.deltas <;> simp
      rw [hvalue, SectionRelaxDeltas.deletedBefore, SectionRelaxDeltas.cumulativeAt,
        partitionPoint, hnone]
      rfl
    · omega
  · intro hsteady
    refine ⟨?_, ?_⟩
    · intro g f obj layout hobj hlayout i sec s hsec hslot
      rw [section_addresses res h hobj hlayout hsec hslot,
        hsteady.alone g f obj hobj sec (mem_of_getElem? hsec) s hslot, Nat.add_zero]
    · intro g f obj layout hobj hlayout index sym i sec r hdef hr hflags hne
      obtain ⟨resolution, hget, -, hspec⟩ := symbol_resolution res h hobj hlayout hdef
      cases hget.symm.trans hr
      obtain ⟨hresolved, hrflags, hraw⟩ := hspec r rfl
      obtain ⟨s, hslot⟩ := hdef.loaded
      have hmoved : optInputToOutput sec.relaxDeltas sym.value = sym.value := by
        cases hd : sec.relaxDeltas with
        | none => rfl
        | some d =>
          rw [optInputToOutput, SectionRelaxDeltas.inputToOutputOffset,
            hsteady.unmoved g f obj hobj index sym i sec hdef hresolved (by rw [← hrflags, hflags])
              hne d hd, Nat.sub_zero]
      rw [symbol_estimate res hids h hobj hdef hresolved hne, hraw hflags, hmoved,
        hsteady.alone g f obj hobj sec (mem_of_getElem? hdef.sectionAt) s hslot, Nat.add_zero,
        Nat.add_comm]

end

end

/-! ## 9. One section -/

/-- A section of 16 bytes that lost four bytes at offset 4, with a symbol. -/
def oneObject (value : Nat) : ObjectLayoutState where
  sections := [⟨.loaded ⟨12, 0⟩, 700, true, [], [], some (.new [(4, 4)])⟩]
  symbols := [⟨some 0, none, value, false⟩]
  symbolIdStart := 1
  ehFrameSize := 0
  thunkSize := none
  thunkBlockId := 0
  ownsThunkBlock := false
  extraThunkBlockIds := []

def oneGroup (value : Nat) : List GroupState := [⟨[.object (oneObject value)], Pi.single 700 12⟩]

/-- Every symbol is its own definition, and is referred to directly. -/
def plainResources : Resources where
  symbolDb := ⟨id⟩
  flags := fun _ => { direct := true, nonInterposable := true }
  outputSections := fun _ => ⟨false, .word⟩
  mergedStringAddress := fun _ => none
  isMappingSymbol := fun _ => false
  thunkBlocks := []
  dynsymStart := 0

def partAt (address : Nat) : Offsets := fun _ => address

/-- A symbol before the deleted bytes. -/
theorem agrees_iff_before_deletion :
    ∃ layouts, computeSymbolsAndLayouts plainResources (oneGroup 4) (partAt 0x1000) = .ok layouts
      ∧ (Agrees plainResources (oneGroup 4) (partAt 0x1000) layouts
        ↔ Steady plainResources (oneGroup 4) (partAt 0x1000)) :=
  ⟨_, rfl, agrees_iff plainResources (by decide) rfl⟩

/-- A symbol behind the deleted bytes: it is four bytes before the estimate. -/
theorem not_agrees_behind_deletion :
    ∃ layouts, computeSymbolsAndLayouts plainResources (oneGroup 8) (partAt 0x1000) = .ok layouts
      ∧ ¬ Agrees plainResources (oneGroup 8) (partAt 0x1000) layouts := by
  refine ⟨_, rfl, fun hagrees => ?_⟩
  have hsymbol := hagrees.symbols 0 0 (oneObject 8) _ rfl rfl 0 ⟨some 0, none, 8, false⟩ 0
    ⟨.loaded ⟨12, 0⟩, 700, true, [], [], some (.new [(4, 4)])⟩ _ ⟨rfl, rfl, rfl, _, rfl⟩ rfl rfl
    (by decide)
  revert hsymbol
  decide

end Srs.AddressEstimate
