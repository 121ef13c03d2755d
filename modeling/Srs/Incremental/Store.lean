/-
# The indexed record store, and its overrides

Between two links the records live in files of the state directory.  The BASE is one file: for
every input file that owns records, its block (`Records.lean`), compressed, one block after the
other.  An index of LOCATIONS says which bytes to read for an input file: its own block, and the
blocks of the files that have a relocation into it (an alias location).  When inputs change,
the base is left alone: the state keeps a list of overridden inputs and one more file with the
complete new records of exactly these inputs, and a reader replaces their base records by it.

This file is the code: `write_indexed_records_streaming`, `write_record_overrides_for_inputs`
and the readers down to `read_records_for_input_files`, which loads the records of a few input
files only, plus everything that points into them.  `StoreRefinement.lean` proves that this
loads what a full read would.

The four kinds of record are always treated alike, each in its own list; `RecordLists` and the
operations on it stand for the four repeated statements of the source.  A `HashSet<String>` is
a `Finset Text`.
-/
import Srs.Lib.Bytes
import Srs.Lib.SortDedup
import Srs.Incremental.RecordsParse

namespace Srs.Incremental

open Text Bytes

/-! ## 1. Four lists at a time -/

/-- A record of any of the four kinds. -/
inductive Record where
  | sectionRecord (r : SectionRecord)
  | relocation (r : RelocationRecord)
  | fde (r : FdeRecord)
  | dynamicRelocation (r : DynamicRelocationRecord)
  deriving DecidableEq

namespace Record

def inputFile : Record → Text
  | sectionRecord r => r.inputFile
  | relocation r => r.inputFile
  | fde r => r.inputFile
  | dynamicRelocation r => r.inputFile

/-- The file a record points into: only relocations do. -/
def targetFile : Record → Option Text
  | relocation r => r.target.map RelocationTargetRecord.inputFile
  | _ => none

/-- Whether a relocation points into one of the files. -/
def pointsInto (inputFiles : Finset Text) (r : Record) : Bool :=
  r.targetFile.any fun file => decide (file ∈ inputFiles)

end Record

namespace RecordLists

/-- The records of all four kinds. -/
def all (lists : RecordLists) : List Record :=
  lists.sections.map .sectionRecord ++ lists.relocations.map .relocation
    ++ lists.fdes.map .fde ++ lists.dynamicRelocations.map .dynamicRelocation

/-- `retain` on each list. -/
def retain (lists : RecordLists) (keep : Record → Bool) : RecordLists where
  sections := lists.sections.filter fun r => keep (.sectionRecord r)
  relocations := lists.relocations.filter fun r => keep (.relocation r)
  fdes := lists.fdes.filter fun r => keep (.fde r)
  dynamicRelocations := lists.dynamicRelocations.filter fun r => keep (.dynamicRelocation r)

/-- `extend` on each list. -/
def extend (lists more : RecordLists) : RecordLists where
  sections := lists.sections ++ more.sections
  relocations := lists.relocations ++ more.relocations
  fdes := lists.fdes ++ more.fdes
  dynamicRelocations := lists.dynamicRelocations ++ more.dynamicRelocations

/-- `sort` on each list. -/
def sorted (lists : RecordLists) : RecordLists where
  sections := Srs.sorted lists.sections
  relocations := Srs.sorted lists.relocations
  fdes := Srs.sorted lists.fdes
  dynamicRelocations := Srs.sorted lists.dynamicRelocations

/-- `sort` and `dedup` on each list. -/
def sortDedup (lists : RecordLists) : RecordLists where
  sections := Srs.sortDedup lists.sections
  relocations := Srs.sortDedup lists.relocations
  fdes := Srs.sortDedup lists.fdes
  dynamicRelocations := Srs.sortDedup lists.dynamicRelocations

/-- The block of the records: `write_rendered_records` of the four lists. -/
def blockLines (lists : RecordLists) : List Text :=
  writeRenderedRecords lists.sections lists.relocations lists.fdes lists.dynamicRelocations

/-- The records owned by the files that satisfy `keep`. -/
def ownedBy (lists : RecordLists) (keep : Text → Bool) : RecordLists :=
  lists.retain fun r => keep r.inputFile

end RecordLists

/-! ## 2. The state directory and its sidecar files -/

/-- The files of a state directory, by name. -/
structure StateDir where
  path : String
  files : Text → Option Bytes

/-- `zstd` and `blake3`, with what the store relies on: decompression undoes compression, a
digest is lower-case hexadecimal, and two different files have different digests. -/
structure Sidecars where
  compress : Bytes → Bytes
  decompress : Bytes → Option Bytes
  hashBytes : Bytes → Text
  decompress_compress : ∀ bytes, decompress (compress bytes) = some bytes
  hashBytes_isHex : ∀ bytes, ∀ c ∈ hashBytes bytes, IsHex c
  hashBytes_injective : Function.Injective hashBytes

def sectionsFile : Text := "sections"
def sectionsFilePrefix : Text := "sections-"
def compressedSectionsFilePrefix : Text := "sections-zstd-"
def compressedMachoResolutionsFilePrefix : Text := "macho-resolutions-zstd-"

/-- `str::starts_with`. -/
def startsWith (t pre : Text) : Bool := pre.isPrefixOf t

/-- The conditions on a file name that keep it inside the state directory.  A path without a
slash is never absolute. -/
def escapesDirectory (fileName : Text) : Bool :=
  decide ('/' ∈ fileName) || decide ('\\' ∈ fileName)

/-- `validate_sections_file_name`. -/
def validateSectionsFileName (fileName : Text) : Result Unit :=
  failIf (fileName ≠ sectionsFile ∧
      (¬ (startsWith fileName sectionsFilePrefix = true
          ∨ startsWith fileName compressedSectionsFilePrefix = true)
        ∨ escapesDirectory fileName = true))
    ("Invalid incremental sections sidecar name `" ++ String.ofList fileName ++ "`")

/-- `validate_macho_resolutions_file_name`. -/
def validateMachoResolutionsFileName (fileName : Text) : Result Unit :=
  failIf (¬ startsWith fileName compressedMachoResolutionsFilePrefix = true
      ∨ escapesDirectory fileName = true)
    ("Invalid incremental Mach-O resolution sidecar name `" ++ String.ofList fileName ++ "`")

namespace StateDir

def display (dir : StateDir) (fileName : Text) : String :=
  dir.path ++ "/" ++ String.ofList fileName

/-- `std::fs::read` with its error message. -/
def read (dir : StateDir) (fileName : Text) (what : String) : Result Bytes :=
  context (dir.files fileName) ("Failed to read " ++ what ++ " `" ++ dir.display fileName ++ "`")

/-- A temporary file renamed to its place: it appears whole, and replaces what was there. -/
def install (dir : StateDir) (fileName : Text) (contents : Bytes) : StateDir :=
  { dir with files := Function.update dir.files fileName (some contents) }

@[simp] theorem files_install_self (dir : StateDir) (fileName : Text) (contents : Bytes) :
    (dir.install fileName contents).files fileName = some contents := by
  simp [install]

@[simp] theorem files_install_of_ne (dir : StateDir) {fileName other : Text} (contents : Bytes)
    (h : other ≠ fileName) : (dir.install fileName contents).files other = dir.files other := by
  simp [install, Function.update_of_ne h]

@[simp] theorem path_install (dir : StateDir) (fileName : Text) (contents : Bytes) :
    (dir.install fileName contents).path = dir.path := rfl

end StateDir

namespace Sidecars

variable (env : Sidecars)

def hashText (text : Text) : Text := env.hashBytes (utf8 text)

/-- `section_sidecar_file_name`. -/
def sectionSidecarFileName (contents : Text) : Text :=
  sectionsFilePrefix ++ env.hashText contents

/-- `compressed_section_sidecar_file_name`. -/
def compressedSectionSidecarFileName (contents : Bytes) : Text :=
  compressedSectionsFilePrefix ++ env.hashBytes contents

/-- `compressed_macho_resolutions_sidecar_file_name`. -/
def compressedMachoResolutionsSidecarFileName (contents : Bytes) : Text :=
  compressedMachoResolutionsFilePrefix ++ env.hashBytes contents

/-- `read_sections_sidecar`. -/
def readSectionsSidecar (dir : StateDir) (fileName : Text) : Result Text := do
  validateSectionsFileName fileName
  if startsWith fileName compressedSectionsFilePrefix then
    let bytes ← dir.read fileName "compressed incremental sections"
    failIf (fileName ≠ env.compressedSectionSidecarFileName bytes)
      ("Incremental sections `" ++ dir.display fileName ++ "` do not match their content hash")
    let contents ← context (env.decompress bytes)
      ("Failed to decompress incremental sections `" ++ dir.display fileName ++ "`")
    context (fromUtf8 contents) "Invalid UTF-8 in compressed incremental sections"
  else
    let bytes ← dir.read fileName "incremental sections"
    let contents ← context (fromUtf8 bytes)
      ("Failed to read incremental sections `" ++ dir.display fileName ++ "`")
    failIf (startsWith fileName sectionsFilePrefix = true
        ∧ fileName ≠ env.sectionSidecarFileName contents)
      ("Incremental sections `" ++ dir.display fileName ++ "` do not match their content hash")
    return contents

/-- A file named after its contents is written only when no file has that name. -/
def installNew (dir : StateDir) (fileName : Text) (contents : Bytes) : StateDir :=
  if (dir.files fileName).isSome then dir else dir.install fileName contents

/-- `write_compressed_sections_sidecar`. -/
def writeCompressedSectionsSidecar (dir : StateDir) (contents : Text) : StateDir × Text :=
  let compressed := env.compress (utf8 contents)
  let fileName := env.compressedSectionSidecarFileName compressed
  (installNew dir fileName compressed, fileName)

/-- `write_macho_resolutions_sidecar`. -/
def writeMachoResolutionsSidecar (dir : StateDir)
    (resolutions : List MachOSymbolResolutionRecord) : StateDir × Text :=
  let contents := unlines (writeRenderedMachoSymbolResolutionRefs resolutions)
  let compressed := env.compress (utf8 contents)
  let fileName := env.compressedMachoResolutionsSidecarFileName compressed
  (installNew dir fileName compressed, fileName)

/-- `read_macho_resolutions_sidecar`. -/
def readMachoResolutionsSidecar (dir : StateDir) (fileName : Text) :
    Result (List MachOSymbolResolutionRecord) := do
  validateMachoResolutionsFileName fileName
  let bytes ← dir.read fileName "incremental Mach-O resolutions"
  failIf (fileName ≠ env.compressedMachoResolutionsSidecarFileName bytes)
    ("Incremental Mach-O resolutions `" ++ dir.display fileName
      ++ "` do not match their content hash")
  let contents ← context (env.decompress bytes)
    ("Failed to decompress incremental Mach-O resolutions `" ++ dir.display fileName ++ "`")
  let contents ← context (fromUtf8 contents) "Invalid UTF-8 in Mach-O resolution sidecar"
  parseMachoSymbolResolutions (lines contents)

end Sidecars

/-! ## 3. Locations -/

/-- Where the block of an input file is.  Offsets and lengths are `u64`s that count the bytes
of one file. -/
structure PatchRecordLocation where
  inputFile : Text
  offset : Nat
  len : Nat
  hash : Text
  deriving DecidableEq, Ord

/-- What of a location says which bytes to read. -/
structure LocationKey where
  offset : Nat
  len : Nat
  hash : Text
  deriving DecidableEq, Ord

def PatchRecordLocation.key (location : PatchRecordLocation) : LocationKey :=
  { offset := location.offset, len := location.len, hash := location.hash }

def patchRecordLocationLine (location : PatchRecordLocation) : Text :=
  row "patch-record" [location.inputFile, Decimal.render location.offset,
    Decimal.render location.len, location.hash]

/-- `parse_patch_record_location_line`. -/
def parsePatchRecordLocationLine (line : Text) : Result PatchRecordLocation := do
  let rest ← parsePrefixedLine (some line) "patch-record"
  let (inputFile, parts) ← nextPart (split '\t' rest) "Malformed incremental patch record input"
  let (offset, parts) ← nextNumber parts "Malformed incremental patch record offset"
    "Invalid incremental patch record offset"
  let (len, parts) ← nextNumber parts "Malformed incremental patch record length"
    "Invalid incremental patch record length"
  let (hash, parts) ← nextPart parts "Malformed incremental patch record hash"
  noMoreParts parts "Malformed incremental patch record location"
  return { inputFile, offset, len, hash }

/-- `render_patch_record_location_table`: a table that was never parsed is copied as it is. -/
def renderPatchRecordLocationTable (locations : List PatchRecordLocation) (raw : Option Text) :
    Text :=
  raw.getD (unlines (countLine "patch-records" locations.length ::
    locations.map patchRecordLocationLine))

/-- `parse_patch_record_location_table`, with the lines it leaves.  The table is parsed at once,
or kept as text to be parsed when it is needed. -/
def parsePatchRecordLocationTable (lines : List Text) (parseLocations : Bool) :
    Result ((List PatchRecordLocation × Option Text) × List Text) := do
  let (countLine, lines) ← nextPart lines "Missing incremental patch record location count"
  let count ← parseCount [countLine] "patch-records"
    "Invalid incremental patch record location count"
  if parseLocations then
    let (locations, lines) ← readTable (always parsePatchRecordLocationLine) missingLine count lines
    return ((locations, none), lines)
  else
    let (raw, lines) ← readTable (always .ok) "Missing incremental patch record location" count
      lines
    return (([], some (unlines (countLine :: raw))), lines)

/-! ## 4. Writing the base -/

/-- The pairs of strings of `relocation_aliases` are compared component by component. -/
instance : Ord (Text × Text) := lexOrd

/-- The entry of `records_by_input` for one input file. -/
def ownerRecords (records : RecordLists) (inputFile : Text) : RecordLists :=
  records.ownedBy fun file => decide (file = inputFile)

/-- The resolutions of that entry: those that the file's relocations name, then those that
point into the file. -/
def ownerResolutions (records : RecordLists) (resolutions : List MachOSymbolResolutionRecord)
    (inputFile : Text) : List MachOSymbolResolutionRecord :=
  ((ownerRecords records inputFile).relocations.flatMap fun r =>
      resolutions.filter fun resolution => decide (r.targetName = some resolution.name))
    ++ resolutions.filter fun resolution =>
      resolution.target.any fun target => decide (target.inputFile = inputFile)

/-- The keys of `records_by_input`, sorted. -/
def recordOwners (records : RecordLists) (resolutions : List MachOSymbolResolutionRecord) :
    List Text :=
  sorted (records.all.map Record.inputFile
    ++ resolutions.filterMap fun r => r.target.map RelocationTargetRecord.inputFile).dedup

/-- The text of one owner's block. -/
def ownerBlock (records : RecordLists) (resolutions : List MachOSymbolResolutionRecord)
    (inputFile : Text) : Text :=
  unlines ((ownerRecords records inputFile).sorted.blockLines
    ++ writeRenderedMachoSymbolResolutionRefs
      (sortDedup (ownerResolutions records resolutions inputFile)))

/-- The loop that writes the blocks one after the other. -/
def placeBlocks (env : Sidecars) : Nat → List (Text × Bytes) → List PatchRecordLocation
  | _, [] => []
  | offset, (inputFile, block) :: blocks =>
    { inputFile, offset, len := block.length, hash := env.hashBytes block } ::
      placeBlocks env (offset + block.length) blocks

/-- `relocation_aliases`: the files a relocation points into, each with the relocation's owner. -/
def relocationAliases (records : RecordLists) : List (Text × Text) :=
  sortDedup (records.relocations.filterMap fun r =>
    (r.target.filter fun target => decide (target.inputFile ≠ r.inputFile)).map
      fun target => (target.inputFile, r.inputFile))

/-- An alias is the owner's location under the name of the file that is pointed into. -/
def aliasLocations (ownLocations : List PatchRecordLocation) (aliases : List (Text × Text)) :
    List PatchRecordLocation :=
  aliases.filterMap fun entry =>
    (ownLocations.find? fun location => decide (location.inputFile = entry.2)).map
      fun location => { location with inputFile := entry.1 }

/-- The blocks of all owners, compressed. -/
def ownerBlocks (env : Sidecars) (records : RecordLists)
    (resolutions : List MachOSymbolResolutionRecord) : List (Text × Bytes) :=
  (recordOwners records resolutions).map fun inputFile =>
    (inputFile, env.compress (utf8 (ownerBlock records resolutions inputFile)))

/-- The locations of all blocks, own and alias. -/
def indexedLocations (env : Sidecars) (records : RecordLists)
    (resolutions : List MachOSymbolResolutionRecord) : List PatchRecordLocation :=
  let ownLocations := placeBlocks env 0 (ownerBlocks env records resolutions)
  sortDedup (ownLocations ++ aliasLocations ownLocations (relocationAliases records))

/-- `write_indexed_records_streaming`. -/
def writeIndexedRecordsStreaming (env : Sidecars) (dir : StateDir) (records : RecordLists)
    (resolutions : List MachOSymbolResolutionRecord) :
    StateDir × Text × List PatchRecordLocation :=
  let contents := (ownerBlocks env records resolutions).flatMap Prod.snd
  let fileName := env.compressedSectionSidecarFileName contents
  (dir.install fileName contents, fileName, indexedLocations env records resolutions)

/-! ## 5. The state -/

/-- The part of `PersistedState` that is about records. -/
structure RecordState extends RecordLists where
  machoSymbolResolutions : List MachOSymbolResolutionRecord := []
  sectionsFile : Option Text := none
  machoSymbolResolutionsFile : Option Text := none
  indexedMachoSymbolResolutionsFile : Option Text := none
  patchRecordsFile : Option Text := none
  patchRecordLocations : List PatchRecordLocation := []
  rawPatchRecordLocations : Option Text := none
  recordOverridesFile : Option Text := none
  recordOverrideInputs : List Text := []
  deriving DecidableEq

/-- The state with other records in memory. -/
def RecordState.setRecords (state : RecordState) (lists : RecordLists) : RecordState :=
  { state with
    sections := lists.sections
    relocations := lists.relocations
    fdes := lists.fdes
    dynamicRelocations := lists.dynamicRelocations }

@[simp] theorem RecordState.toRecordLists_setRecords (state : RecordState)
    (lists : RecordLists) : (state.setRecords lists).toRecordLists = lists := rfl

structure FilteredRecordCoverage where
  completeMachoSymbolResolutions : Bool := false
  completeRecordInputFiles : Finset Text := ∅

/-- What `PersistedState::write` leaves on disk, as the state that is read back: the base, with
a Mach-O resolution sidecar when there are resolutions. -/
def writeBase (env : Sidecars) (dir : StateDir) (records : RecordLists)
    (resolutions : List MachOSymbolResolutionRecord) : StateDir × RecordState :=
  let (dir, machoFile) := if resolutions = [] then (dir, none) else
    let (dir, fileName) := env.writeMachoResolutionsSidecar dir resolutions
    (dir, some fileName)
  let (dir, fileName, locations) := writeIndexedRecordsStreaming env dir records resolutions
  (dir, { sectionsFile := some fileName, patchRecordsFile := some fileName
          patchRecordLocations := locations, machoSymbolResolutionsFile := machoFile
          indexedMachoSymbolResolutionsFile := machoFile })

/-! ## 6. Reading -/

/-- One turn of the loop of `read_indexed_records_at_locations`. -/
def readLocation (env : Sidecars) (dir : StateDir) (fileName : Text) (file : Bytes)
    (location : PatchRecordLocation) : Result CompactRecords := do
  failIf (file.length < location.offset + location.len)
    ("Incremental patch record range is outside `" ++ dir.display fileName ++ "`")
  let bytes := (file.drop location.offset).take location.len
  failIf (env.hashBytes bytes ≠ location.hash)
    ("Incremental patch records `" ++ dir.display fileName ++ "` do not match their content hash")
  let bytes ← (if startsWith fileName compressedSectionsFilePrefix then
      context (env.decompress bytes)
        ("Failed to decompress incremental patch records `" ++ dir.display fileName ++ "`")
    else .ok bytes)
  let contents ← context (fromUtf8 bytes) "Invalid UTF-8 in incremental patch record sidecar"
  parseCompactRecordsBlock (lines contents)

/-- The records of all blocks together. -/
def mergeBlocks (locations : List PatchRecordLocation) (blocks : List CompactRecords) :
    CompactRecords where
  toRecordLists := (blocks.foldl
    (fun (lists : RecordLists) block => lists.extend block.toRecordLists) {}).sortDedup
  machoSymbolResolutions := sortDedup (blocks.flatMap (·.machoSymbolResolutions))
  machoSymbolResolutionsComplete :=
    decide (locations ≠ []) && blocks.all (·.machoSymbolResolutionsComplete)

/-- `read_indexed_records_at_locations`. -/
def readIndexedRecordsAtLocations (env : Sidecars) (dir : StateDir) (fileName : Text)
    (locations : List PatchRecordLocation) : Result CompactRecords := do
  validateSectionsFileName fileName
  let file ← dir.read fileName "incremental sections"
  let blocks ← locations.mapM (readLocation env dir fileName file)
  return mergeBlocks locations blocks

/-- The locations sorted by what they read, without repetitions. -/
def distinctLocations (locations : List PatchRecordLocation) : List PatchRecordLocation :=
  dedupByKey PatchRecordLocation.key
    (locations.insertionSort fun a b => (compare a.key b.key).isLE = true)

namespace RecordState

variable (env : Sidecars) (dir : StateDir)

/-- `load_macho_symbol_resolutions`. -/
def loadMachoSymbolResolutions (state : RecordState) : Result RecordState :=
  if state.machoSymbolResolutions ≠ [] then .ok state
  else match state.machoSymbolResolutionsFile with
    | none => .ok state
    | some fileName => do
      let resolutions ← env.readMachoResolutionsSidecar dir fileName
      return { state with machoSymbolResolutions := resolutions }

/-- `materialize_patch_record_locations`. -/
def materializePatchRecordLocations (state : RecordState) : Result RecordState :=
  match state.rawPatchRecordLocations with
  | none => .ok state
  | some raw => do
    let ((locations, deferred), lines) ← parsePatchRecordLocationTable (lines raw) true
    failIf (deferred.isSome = true ∨ lines ≠ [])
      "Unexpected trailing incremental patch record location data"
    return { state with patchRecordLocations := locations, rawPatchRecordLocations := none }

/-- `read_all_indexed_records`. -/
def readAllIndexedRecords (state : RecordState) : Result CompactRecords :=
  match state.patchRecordsFile with
  | none => .ok {}
  | some fileName =>
    readIndexedRecordsAtLocations env dir fileName (distinctLocations state.patchRecordLocations)

/-- The owners of the decoded records that were not asked for but are complete: the index maps
a block that was read under their own name. -/
def completeRecordInputFiles (state : RecordState) (inputFiles : Finset Text)
    (locations : List PatchRecordLocation) (records : RecordLists) : Finset Text :=
  let selectedKeys := locations.map PatchRecordLocation.key
  let canonicalRecordInputFiles := (state.patchRecordLocations.filter fun location =>
    decide (location.key ∈ selectedKeys)).map PatchRecordLocation.inputFile
  ((records.all.map Record.inputFile).filter fun inputFile =>
    decide (inputFile ∉ inputFiles) && decide (inputFile ∈ canonicalRecordInputFiles)).toFinset

/-- `read_indexed_patch_records`. -/
def readIndexedPatchRecords (state : RecordState) (patchRecordsFile : Text)
    (inputFiles : Finset Text) : Result (Option (CompactRecords × Finset Text)) :=
  let canonicalIndex := state.sectionsFile = some patchRecordsFile
  if state.patchRecordLocations = [] then
    if canonicalIndex then .ok (some ({}, ∅)) else .ok none
  else
    let selected := state.patchRecordLocations.filter fun location =>
      decide (location.inputFile ∈ inputFiles)
    if ¬ canonicalIndex ∧
        ∃ inputFile ∈ inputFiles, ∀ location ∈ selected, location.inputFile ≠ inputFile then
      .ok none
    else do
      let locations := distinctLocations selected
      let records ← readIndexedRecordsAtLocations env dir patchRecordsFile locations
      return some (records,
        state.completeRecordInputFiles inputFiles locations records.toRecordLists)

/-- What `apply_record_overrides` and `retain_relevant_complete_record_inputs` keep: the records
of the files in `owners`, and the relocations into the files in `targets`. -/
def keeps (owners targets : Finset Text) (r : Record) : Bool :=
  decide (r.inputFile ∈ owners) || r.pointsInto targets

/-- `apply_record_overrides`. -/
def applyRecordOverrides (state : RecordState) (inputFiles : Option (Finset Text)) :
    Result RecordState :=
  if state.recordOverrideInputs = [] then .ok state
  else do
    let base := state.ownedBy fun file => decide (file ∉ state.recordOverrideInputs)
    let lists ← (match state.recordOverridesFile with
      | none => .ok base
      | some fileName => do
        let contents ← env.readSectionsSidecar dir fileName
        let records ← parseCompactRecordsBlock (lines contents)
        failIf (∃ r ∈ records.all, r.inputFile ∉ state.recordOverrideInputs)
          "Incremental record override contains an unexpected input"
        return base.extend records.toRecordLists)
    let lists := lists.sortDedup
    let lists := match inputFiles with
      | none => lists
      | some inputFiles => lists.retain (keeps inputFiles inputFiles)
    return state.setRecords lists

/-- `retain_relevant_complete_record_inputs`. -/
def retainRelevantCompleteRecordInputs (state : RecordState)
    (inputFiles completeRecordInputFiles : Finset Text) : RecordState × Finset Text :=
  let complete := completeRecordInputFiles.filter fun inputFile =>
    ∃ r ∈ state.all, r.inputFile = inputFile ∧ r.pointsInto inputFiles = true
  (state.setRecords (state.retain (keeps (inputFiles ∪ complete) inputFiles)), complete)

/-- The records of a block, with the resolutions the block came with, or all resolutions when
those of the block are not complete or out of date. -/
def withRecords (state : RecordState) (records : CompactRecords) : Result (RecordState × Bool) :=
  let state := state.setRecords records.toRecordLists
  if ¬ records.machoSymbolResolutionsComplete
      ∨ state.indexedMachoSymbolResolutionsFile ≠ state.machoSymbolResolutionsFile then do
    let state ← loadMachoSymbolResolutions env dir { state with machoSymbolResolutions := [] }
    return (state, true)
  else .ok ({ state with machoSymbolResolutions := records.machoSymbolResolutions }, false)

/-- A sidecar that is one block, read for some input files only. -/
def readFilteredSidecar (fileName : Text) (inputFiles : Finset Text) : Result CompactRecords := do
  let contents ← env.readSectionsSidecar dir fileName
  parseCompactRecordsBlockForInputFiles (lines contents) inputFiles

/-- The last part of `read_records_for_input_files`, for a state without an index. -/
def readRecordsFromSectionsFile (state : RecordState) (inputFiles : Finset Text) :
    Result (RecordState × FilteredRecordCoverage) :=
  match state.sectionsFile with
  | none => do
    let state ← state.applyRecordOverrides env dir (some inputFiles)
    return (state, {})
  | some sectionsFile => do
    let records ← readFilteredSidecar env dir sectionsFile inputFiles
    let (state, completeMachoSymbolResolutions) ← withRecords env dir state records
    let state ← state.applyRecordOverrides env dir (some inputFiles)
    return (state, { completeMachoSymbolResolutions })

/-- `read_records_for_input_files`. -/
def readRecordsForInputFiles (state : RecordState) (inputFiles : Finset Text) :
    Result (RecordState × FilteredRecordCoverage) := do
  let state ← state.materializePatchRecordLocations
  match state.patchRecordsFile with
  | none => readRecordsFromSectionsFile env dir state inputFiles
  | some patchRecordsFile =>
    match ← state.readIndexedPatchRecords env dir patchRecordsFile inputFiles with
    | some (records, complete) =>
      let (state, completeMachoSymbolResolutions) ← withRecords env dir state records
      let state ← state.applyRecordOverrides env dir (some (inputFiles ∪ complete))
      let (state, completeRecordInputFiles) :=
        state.retainRelevantCompleteRecordInputs inputFiles complete
      return (state, { completeMachoSymbolResolutions, completeRecordInputFiles })
    | none =>
      if state.sectionsFile = some patchRecordsFile then
        let state ← (state.setRecords {}).applyRecordOverrides env dir (some inputFiles)
        return (state, {})
      else if state.patchRecordLocations = [] then
        let records ← readFilteredSidecar env dir patchRecordsFile inputFiles
        if ∀ inputFile ∈ inputFiles, ∃ r ∈ records.sections, r.inputFile = inputFile then
          let (state, completeMachoSymbolResolutions) ← withRecords env dir state records
          let state ← state.applyRecordOverrides env dir (some inputFiles)
          return (state, { completeMachoSymbolResolutions })
        else readRecordsFromSectionsFile env dir state inputFiles
      else readRecordsFromSectionsFile env dir state inputFiles

/-- The full read of `PersistedState::read_impl`, for an index that is canonical. -/
def readAllRecords (state : RecordState) : Result RecordState := do
  let records ← state.readAllIndexedRecords env dir
  (state.setRecords records.toRecordLists).applyRecordOverrides env dir none

/-- `write_record_overrides_for_inputs`. -/
def writeRecordOverridesForInputs (state : RecordState) (inputFiles : List Text) :
    Result (StateDir × RecordState) :=
  let changedInputFiles := sortDedup inputFiles
  if changedInputFiles = [] then .ok (dir, state)
  else do
    let previous ← (match state.recordOverridesFile with
      | none => .ok {}
      | some fileName => do
        let contents ← env.readSectionsSidecar dir fileName
        let records ← parseCompactRecordsBlock (lines contents)
        return records.toRecordLists)
    let kept := previous.ownedBy fun file => decide (file ∉ changedInputFiles)
    let changed := state.ownedBy fun file => decide (file ∈ changedInputFiles)
    let records := (kept.extend changed).sortDedup.sorted
    let state := { state with
      recordOverrideInputs := sortDedup (state.recordOverrideInputs ++ changedInputFiles) }
    if records = {} then
      return (dir, { state with recordOverridesFile := none })
    else
      let (dir, fileName) := env.writeCompressedSectionsSidecar dir (unlines records.blockLines)
      return (dir, { state with recordOverridesFile := some fileName })

end RecordState

end Srs.Incremental
