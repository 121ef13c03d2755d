/-
# The index of a state, and the updates written beside it

The whole of a `PersistedState` except its records is one text file, the INDEX.  It is written
once per full link.  A link that only patches the output does not write it again: it writes a
METADATA UPDATE, a second file with the fields that a patch may change and with the lines of the
inputs it changed.  There is one update file.  Each new update replaces the one before it, so
`write_metadata_update_for_inputs` first reads which inputs the old update had and writes their
lines again, from the state it is given.

This file is the code: the writers of both files, the parser of the index with its versions, and
`apply_metadata_update`.  A file is replaced by renaming a temporary file to its name, so it
appears whole.
-/
import Srs.Incremental.BuildId
import Srs.Incremental.InputLine
import Srs.Incremental.Reserve
import Srs.Incremental.Store

namespace Srs.Incremental

open Text Bytes

/-! ## 1. The state -/

structure PersistedState extends RecordState where
  argsHash : Text
  linkOptionsHash : Option Text
  inputOrderHash : Option Text
  sldVersion : Option Text
  linkStart : Option FileIdentity
  output : FileContentState
  buildIdHashes : Option BuildIdHashState
  inputFiles : List FileState
  reservedRanges : List ReservedRangeRecord
  deriving DecidableEq

def indexFile : Text := "index"
def metadataUpdateFile : Text := "metadata-update"

/-- The versions of a file format differ in their number only. -/
def versionLine (stem : Text) (number : Nat) : Text := stem ++ digits number

/-- The number of a version line, when it is the current version or an earlier one. -/
def versionNumber (stem : Text) (current : Nat) (line : Text) : Option Nat :=
  (List.range (current + 1)).find? fun number =>
    decide (0 < number ∧ line = versionLine stem number)

def stateVersionStem : Text := "sld-incremental-state-v"
def metadataUpdateVersionStem : Text := "sld-incremental-metadata-update-v"

/-- `STATE_VERSION` and `METADATA_UPDATE_VERSION`, by their numbers. -/
def stateVersion : Nat := 48
def metadataUpdateVersion : Nat := 9

namespace StateDir

/-- `std::fs::read_to_string`, with a missing file apart from the other errors. -/
def readToString (dir : StateDir) (fileName : Text) : Result (Option Text) :=
  match dir.files fileName with
  | none => .ok none
  | some bytes => (context (fromUtf8 bytes) "stream did not contain valid UTF-8").map some

/-- `std::fs::remove_file`. -/
def remove (dir : StateDir) (fileName : Text) : StateDir :=
  { dir with files := Function.update dir.files fileName none }

end StateDir

/-! ## 2. The lines both files have -/

def linkStartLine (linkStart : Option FileIdentity) : Text :=
  row "link-start" [renderIdentity linkStart]

def outputLine (output : FileContentState) : Text :=
  row "output" [Decimal.render output.len, output.hash, renderIdentity output.identity]

/-- `render_build_id_hash_state`. -/
def renderBuildIdHashState (state : BuildIdHashState) : Text :=
  join '\t' [Decimal.render state.outputLen, Decimal.render state.nodes,
    state.treeHash.getD absentField]

def buildIdHashLine (state : Option BuildIdHashState) : Text :=
  row "build-id-hash" [(state.map renderBuildIdHashState).getD absentField]

def machoResolutionsFileLine (file : Option Text) : Text :=
  row "macho-resolutions-file" [file.getD absentField]

def reservedRangeLine (range : ReservedRangeRecord) : Text :=
  row "reserve" [Decimal.render range.outputSectionId, Decimal.render range.alignmentExponent,
    Decimal.render range.outputOffset, Decimal.render range.size]

/-- `render_required_reserved_range_table`. -/
def renderRequiredReservedRangeTable (ranges : List ReservedRangeRecord) : List Text :=
  countLine "reserves" ranges.length :: ranges.map reservedRangeLine

/-- `render_reserved_range_table`. -/
def renderReservedRangeTable (ranges : List ReservedRangeRecord) : List Text :=
  if ranges = [] then [] else renderRequiredReservedRangeTable ranges

/-- `parse_link_start_line`. -/
def parseLinkStartLine (line : Option Text) : Result (Option FileIdentity) := do
  let rest ← parsePrefixedLine line "link-start"
  FileIdentity.parse rest

/-- `parse_content_line`. -/
def parseContentLine (line : Option Text) (expected : String) : Result FileContentState := do
  let rest ← parsePrefixedLine line expected
  let (len, parts) ← nextPart (split '\t' rest) "Malformed incremental content length"
  let (hash, parts) ← nextPart parts "Malformed incremental content hash"
  let identity ← parseIdentityColumn parts.head?
  noMoreParts parts.tail "Malformed incremental content record"
  let len ← parseNumber len "Invalid incremental content length"
  return { len, hash, identity }

/-- `parse_build_id_hash_line`. -/
def parseBuildIdHashLine (line : Option Text) : Result (Option BuildIdHashState) := do
  let rest ← parsePrefixedLine line "build-id-hash"
  if rest = absentField then .ok none
  else do
    let (outputLen, parts) ← nextNumber (split '\t' rest)
      "Malformed incremental build ID hash output length"
      "Invalid incremental build ID hash output length"
    let (nodes, parts) ← nextNumber parts "Malformed incremental build ID hash node count"
      "Invalid incremental build ID hash node count"
    let treeHash := parts.head?.bind optionalText
    noMoreParts parts.tail "Malformed incremental build ID hash record"
    failIf (nodes = 0) "Missing incremental build ID hash nodes"
    return some { outputLen, nodes, treeHash }

/-- One line of the table of reserved ranges. -/
def parseReservedRangeLine (outputLen : UInt64) (line : Text) : Result ReservedRangeRecord := do
  let rest ← parsePrefixedLine (some line) "reserve"
  let (outputSectionId, parts) ← nextNumber (split '\t' rest)
    "Malformed incremental reserve output section" "Invalid incremental reserve output section"
  let (alignmentExponent, parts) ← nextNumber parts "Malformed incremental reserve alignment"
    "Invalid incremental reserve alignment"
  let (outputOffset, parts) ← nextNumber parts "Malformed incremental reserve output offset"
    "Invalid incremental reserve output offset"
  let (size, parts) ← nextNumber parts "Malformed incremental reserve size"
    "Invalid incremental reserve size"
  noMoreParts parts "Malformed incremental reserve record"
  let alignment ← withContext (Alignment.fromExponent alignmentExponent)
    "Invalid incremental reserve alignment"
  let stop ← context (checkedAdd outputOffset size) "Incremental reserve range overflow"
  failIf (size = 0 ∨ outputLen < stop ∨ outputOffset &&& alignment.mask ≠ 0
      ∨ size &&& alignment.mask ≠ 0)
    "Invalid incremental reserve range"
  return { outputSectionId, alignmentExponent, outputOffset, size }

/-- `parse_reserved_range_table`, with the lines it leaves. -/
def parseReservedRangeTable (lines : List Text) (outputLen : UInt64) :
    Result (List ReservedRangeRecord × List Text) := do
  let count ← parseCount lines "reserves" "Invalid incremental reserve count"
  failIf (outputLen.toNat < count) "Incremental reserve count exceeds output size"
  let (ranges, lines) ← readTable (always (parseReservedRangeLine outputLen)) missingLine count
    lines.tail
  validateReservedRanges ranges
  return (ranges, lines)

/-- `validate_reserved_ranges_against_sections`, one range. -/
def validateReservedRangeAgainstSections (range : ReservedRangeRecord)
    (sections : List SectionRecord) : Result Unit := do
  let rangeEnd ← context (checkedAdd range.outputOffset range.size)
    "Incremental reserve range overflow"
  sections.forM fun s => do
    let sectionEnd ← context (checkedAdd s.outputOffset s.size) "Incremental section range overflow"
    failIf (range.outputOffset < sectionEnd ∧ s.outputOffset < rangeEnd)
      "Incremental reserve range overlaps a section record"

/-- `validate_reserved_ranges_against_sections`. -/
def validateReservedRangesAgainstSections (ranges : List ReservedRangeRecord)
    (sections : List SectionRecord) : Result Unit :=
  ranges.forM fun range => validateReservedRangeAgainstSections range sections

/-- The file of a line that names a Mach-O resolution sidecar, checked by `validate`. -/
def parseMachoResolutionsFile (validate : Text → Result Unit) (file : Text) :
    Result (Option Text) :=
  if file = absentField then .ok none
  else do
    validate file
    return some file

/-! ## 3. Writing the index -/

/-- A line that is only written when there is a value for it. -/
def optionalLine (tag : String) (value : Option Text) : List Text :=
  (value.map fun value => row tag [value]).toList

def inputLine (input : FileState) : Text := row "input" [renderInputLineRest input]

namespace PersistedState

/-- `render_header_and_inputs_with_macho_resolutions_files`. -/
def renderHeaderAndInputs (state : PersistedState)
    (machoSymbolResolutionsFile indexedMachoSymbolResolutionsFile : Option Text) : List Text :=
  [versionLine stateVersionStem stateVersion, row "args" [state.argsHash]]
    ++ optionalLine "link-options" state.linkOptionsHash
    ++ optionalLine "input-order" state.inputOrderHash
    ++ optionalLine "sld-version" state.sldVersion
    ++ [linkStartLine state.linkStart, outputLine state.output,
      buildIdHashLine state.buildIdHashes, countLine "inputs" state.inputFiles.length]
    ++ state.inputFiles.map inputLine
    ++ [machoResolutionsFileLine machoSymbolResolutionsFile]
    ++ optionalLine "indexed-macho-resolutions-file" indexedMachoSymbolResolutionsFile
    ++ renderReservedRangeTable state.reservedRanges

/-- `render_index`. -/
def renderIndex (state : PersistedState) (sectionsFile : Text) (patchRecordsFile : Option Text)
    (locations : List PatchRecordLocation)
    (raw machoSymbolResolutionsFile indexedMachoSymbolResolutionsFile : Option Text) : Text :=
  let table := renderPatchRecordLocationTable locations raw
  unlines (state.renderHeaderAndInputs machoSymbolResolutionsFile
      indexedMachoSymbolResolutionsFile)
    ++ (if patchRecordsFile = some sectionsFile then
        unlines [row "indexed-sections-file" [sectionsFile]] ++ table
      else unlines [row "sections-file" [sectionsFile]]
        ++ match patchRecordsFile with
          | none => []
          | some file => unlines [row "patch-records-file" [file]] ++ table)

/-- `write_index_with_sections_files`. -/
def writeIndexWithSectionsFiles (state : PersistedState) (dir : StateDir) (sectionsFile : Text)
    (patchRecordsFile : Option Text) (locations : List PatchRecordLocation)
    (raw machoSymbolResolutionsFile indexedMachoSymbolResolutionsFile : Option Text) : StateDir :=
  (dir.install indexFile (utf8 (state.renderIndex sectionsFile patchRecordsFile locations raw
    machoSymbolResolutionsFile indexedMachoSymbolResolutionsFile))).remove metadataUpdateFile

/-- `PersistedState::write`: all records are written, and an index for them. -/
def write (env : Sidecars) (state : PersistedState) (dir : StateDir) : Result StateDir := do
  let resolutions ← (match state.machoSymbolResolutions, state.machoSymbolResolutionsFile with
    | [], some fileName => env.readMachoResolutionsSidecar dir fileName
    | resolutions, _ => .ok resolutions)
  let (dir, machoFile) := if state.machoSymbolResolutions = [] then
      (dir, state.machoSymbolResolutionsFile)
    else
      let (dir, fileName) := env.writeMachoResolutionsSidecar dir resolutions
      (dir, some fileName)
  let (dir, sectionsFile, locations) := writeIndexedRecordsStreaming env dir state.toRecordLists
    resolutions
  return state.writeIndexWithSectionsFiles dir sectionsFile (some sectionsFile) locations none
    machoFile machoFile

end PersistedState

/-! ## 4. Reading an update -/

/-- The part of an update in front of its inputs.  A version that has no line for a field leaves
it out. -/
structure MetadataUpdateHeader where
  linkStart : Option FileIdentity
  output : FileContentState
  buildIdHashes : Option BuildIdHashState
  machoSymbolResolutionsFile : Option (Option Text)
  reservedRanges : Option (List ReservedRangeRecord)
  recordOverridesFile : Option Text
  recordOverrideInputs : List Text

/-- The texts of a list are in order. -/
def IsSorted (texts : List Text) : Prop := texts.IsChain fun a b => (compare a b).isLE = true

instance (texts : List Text) : Decidable (IsSorted texts) :=
  inferInstanceAs (Decidable (List.IsChain _ _))

/-- No two neighbours are equal. -/
def NoRepeats (texts : List Text) : Prop := texts.IsChain (· ≠ ·)

instance (texts : List Text) : Decidable (NoRepeats texts) :=
  inferInstanceAs (Decidable (List.IsChain _ _))

/-- `parse_record_override_metadata`, with the lines it leaves. -/
def parseRecordOverrideMetadata (lines : List Text) :
    Result ((Option Text × List Text) × List Text) := do
  let file ← parsePrefixedLine lines.head? "record-overrides-file"
  let file ← (if file = absentField then .ok none
    else do
      validateSectionsFileName file
      return some file)
  let count ← parseCount lines.tail "record-override-inputs"
    "Invalid incremental record override input count"
  let (inputFiles, lines) ← readTable
    (always fun line => parsePrefixedLine (some line) "record-override-input") missingLine count
    lines.tail.tail
  failIf (¬ IsSorted inputFiles) "Incremental record override inputs are not sorted"
  failIf (¬ NoRepeats inputFiles) "Incremental record override inputs contain duplicates"
  failIf (inputFiles = [] ∧ file.isSome = true)
    "Incremental record override sidecar has no overridden inputs"
  return ((file, inputFiles), lines)

/-- The lines in front of the inputs, which `apply_metadata_update` and
`metadata_update_input_indices_from_path` both read.  Only the first of them checks the name of
the Mach-O sidecar. -/
def parseMetadataUpdateHeader (validate : Text → Result Unit) (lines : List Text) :
    Result (MetadataUpdateHeader × List Text) := do
  let (line, lines) ← nextPart lines "Missing incremental metadata update header"
  let version ← context (versionNumber metadataUpdateVersionStem metadataUpdateVersion line)
    ("Unsupported incremental metadata update version `" ++ String.ofList line ++ "`")
  let linkStart ← parseLinkStartLine lines.head?
  let output ← parseContentLine lines.tail.head? "output"
  let buildIdHashes ← parseBuildIdHashLine lines.tail.tail.head?
  let lines := lines.tail.tail.tail
  let (machoSymbolResolutionsFile, lines) ← (if 2 ≤ version then do
      let file ← parsePrefixedLine lines.head? "macho-resolutions-file"
      let file ← parseMachoResolutionsFile validate file
      return (some file, lines.tail)
    else .ok (none, lines))
  let (reservedRanges, lines) ← (if 3 ≤ version then do
      let (ranges, lines) ← parseReservedRangeTable lines output.len
      return (some ranges, lines)
    else .ok (none, lines))
  let ((recordOverridesFile, recordOverrideInputs), lines) ← (if 8 ≤ version then
      parseRecordOverrideMetadata lines
    else .ok ((none, []), lines))
  return ({ linkStart, output, buildIdHashes, machoSymbolResolutionsFile, reservedRanges
            recordOverridesFile, recordOverrideInputs }, lines)

/-- The index and the line of an input of an update. -/
def splitInputUpdate (line : Option Text) : Result (Nat × Text) := do
  let rest ← parsePrefixedLine line "input"
  let (index, inputLine) ← context (splitOnce '\t' rest)
    "Malformed incremental metadata update input"
  let index ← parseNumber index "Invalid incremental metadata update input index"
  return (index, "input\t".toList ++ inputLine)

/-- The loop of `apply_metadata_update` over the inputs, with the lines it leaves. -/
def applyInputUpdates (blake3Hex : Bytes → Text) (patchSectionMode : PatchSectionReadMode) :
    Nat → List Text → List FileState → Result (List FileState × List Text)
  | 0, lines, inputFiles => .ok (inputFiles, lines)
  | count + 1, lines, inputFiles => do
    let (index, inputLine) ← splitInputUpdate lines.head?
    failIf (¬ index < inputFiles.length) "Incremental metadata update input index out of bounds"
    let input ← parseInputLine blake3Hex inputLine patchSectionMode
    applyInputUpdates blake3Hex patchSectionMode count lines.tail (inputFiles.set index input)

/-- The loop of `metadata_update_input_indices_from_path`. -/
def readInputUpdateIndex (blake3Hex : Bytes → Text) (line : Text) : Result Nat := do
  let (index, inputLine) ← splitInputUpdate (some line)
  let _ ← parseInputLine blake3Hex inputLine .preserveRaw
  return index

/-- `metadata_update_input_indices_from_path`. -/
def metadataUpdateInputIndices (blake3Hex : Bytes → Text) (dir : StateDir) :
    Result (List Nat) := do
  match ← dir.readToString metadataUpdateFile with
  | none => .ok []
  | some contents =>
    let (_, lines) ← parseMetadataUpdateHeader (fun _ => .ok ()) (lines contents)
    let count ← parseCount lines "inputs" "Invalid incremental metadata update input count"
    let (indices, lines) ← readTable (always (readInputUpdateIndex blake3Hex)) missingLine count
      lines.tail
    failIf (lines ≠ []) "Unexpected trailing incremental metadata update data"
    return indices

namespace PersistedState

/-- The state with the fields of an update. -/
def withHeader (state : PersistedState) (header : MetadataUpdateHeader) : PersistedState :=
  { state with
    linkStart := header.linkStart
    output := header.output
    buildIdHashes := header.buildIdHashes
    -- resolutions in memory belong to the file they were read from
    machoSymbolResolutions :=
      if header.machoSymbolResolutionsFile.getD state.machoSymbolResolutionsFile
        = state.machoSymbolResolutionsFile then state.machoSymbolResolutions else []
    machoSymbolResolutionsFile :=
      header.machoSymbolResolutionsFile.getD state.machoSymbolResolutionsFile
    reservedRanges := header.reservedRanges.getD state.reservedRanges
    recordOverridesFile := header.recordOverridesFile
    recordOverrideInputs := header.recordOverrideInputs }

/-- `apply_metadata_update`. -/
def applyMetadataUpdate (blake3Hex : Bytes → Text) (state : PersistedState) (dir : StateDir)
    (patchSectionMode : PatchSectionReadMode) : Result PersistedState := do
  match ← dir.readToString metadataUpdateFile with
  | none => .ok state
  | some contents =>
    let (header, lines) ← parseMetadataUpdateHeader validateMachoResolutionsFileName
      (lines contents)
    let count ← parseCount lines "inputs" "Invalid incremental metadata update input count"
    let (inputFiles, lines) ← applyInputUpdates blake3Hex patchSectionMode count lines.tail
      state.inputFiles
    failIf (lines ≠ []) "Unexpected trailing incremental metadata update data"
    return { state.withHeader header with inputFiles }

/-! ## 5. Writing an update -/

/-- `render_metadata_update`; an index past the inputs is a panic. -/
def renderMetadataUpdate (state : PersistedState) (inputIndices : List Nat) :
    Result (List Text) := do
  let inputIndices := sortDedup inputIndices
  let inputLines ← inputIndices.mapM fun index => do
    let input ← context state.inputFiles[index]? "index out of bounds"
    return row "input" [Decimal.render index, renderInputLineRest input]
  return [versionLine metadataUpdateVersionStem metadataUpdateVersion,
      linkStartLine state.linkStart, outputLine state.output,
      buildIdHashLine state.buildIdHashes,
      machoResolutionsFileLine state.machoSymbolResolutionsFile]
    ++ renderRequiredReservedRangeTable state.reservedRanges
    ++ [row "record-overrides-file" [state.recordOverridesFile.getD absentField],
      countLine "record-override-inputs" state.recordOverrideInputs.length]
    ++ state.recordOverrideInputs.map (fun file => row "record-override-input" [file])
    ++ countLine "inputs" inputIndices.length :: inputLines

/-- `write_metadata_update_for_inputs`. -/
def writeMetadataUpdateForInputs (env : Sidecars) (blake3Hex : Bytes → Text)
    (state : PersistedState) (dir : StateDir) (inputIndices : List Nat) : Result StateDir :=
  if state.sectionsFile = none then state.write env dir
  else do
    let previous ← metadataUpdateInputIndices blake3Hex dir
    let update ← state.renderMetadataUpdate (inputIndices ++ previous)
    return dir.install metadataUpdateFile (utf8 (unlines update))

/-- `persist_macho_symbol_resolutions_for_metadata_update`. -/
def persistMachoSymbolResolutions (env : Sidecars) (state : PersistedState) (dir : StateDir) :
    StateDir × PersistedState :=
  if state.machoSymbolResolutionsFile = none ∧ state.machoSymbolResolutions ≠ [] then
    let (dir, fileName) := env.writeMachoResolutionsSidecar dir state.machoSymbolResolutions
    (dir, { state with machoSymbolResolutionsFile := some fileName })
  else (dir, state)

/-- `write_index`: a state with record overrides is written as an update of all its inputs. -/
def writeIndex (env : Sidecars) (blake3Hex : Bytes → Text) (state : PersistedState)
    (dir : StateDir) : Result StateDir :=
  if state.recordOverrideInputs ≠ [] then
    let (dir, state) := state.persistMachoSymbolResolutions env dir
    state.writeMetadataUpdateForInputs env blake3Hex dir (List.range state.inputFiles.length)
  else
    .ok (state.writeIndexWithSectionsFiles dir
      (state.sectionsFile.getD Srs.Incremental.sectionsFile) state.patchRecordsFile
      state.patchRecordLocations state.rawPatchRecordLocations state.machoSymbolResolutionsFile
      state.indexedMachoSymbolResolutionsFile)

end PersistedState

/-! ## 6. Reading the index -/

/-- The line with the given tag, when it comes next. -/
def nextOptionalLine (tag : String) (lines : List Text) : Result (Option Text × List Text) :=
  if lines.head?.any (hasTag · tag) then do
    let rest ← parsePrefixedLine lines.head? tag
    return (some rest, lines.tail)
  else .ok (none, lines)

/-- An optional line that the recent versions must have. -/
def nextRequiredLine (required : Bool) (tag : String) (missing : String) (lines : List Text) :
    Result (Option Text × List Text) := do
  let (value, lines) ← nextOptionalLine tag lines
  failIf (required = true ∧ value = none) missing
  return (value, lines)

structure IndexHeader where
  argsHash : Text
  linkOptionsHash : Option Text
  inputOrderHash : Option Text
  sldVersion : Option Text
  linkStart : Option FileIdentity
  output : FileContentState
  buildIdHashes : Option BuildIdHashState

/-- The lines of the index in front of its inputs. -/
def parseIndexHeader (version : Nat) (lines : List Text) : Result (IndexHeader × List Text) := do
  let argsHash ← parsePrefixedLine lines.head? "args"
  let required := decide (38 ≤ version)
  let (linkOptionsHash, lines) ← nextRequiredLine required "link-options"
    "Missing incremental link-options hash in incremental state" lines.tail
  let (inputOrderHash, lines) ← nextRequiredLine required "input-order"
    "Missing incremental input-order hash in incremental state" lines
  let (sldVersion, lines) ← nextRequiredLine required "sld-version"
    "Missing sld version in incremental state" lines
  let (linkStart, lines) ← (if lines.head?.any (hasTag · "link-start") then do
      let linkStart ← parseLinkStartLine lines.head?
      return (linkStart, lines.tail)
    else .ok (none, lines))
  let output ← parseContentLine lines.head? "output"
  let lines := lines.tail
  let (buildIdHashes, lines) ← (if lines.head?.any (hasTag · "build-id-hash") then do
      let buildIdHashes ← parseBuildIdHashLine lines.head?
      return (buildIdHashes, lines.tail)
    else .ok (none, lines))
  return ({ argsHash, linkOptionsHash, inputOrderHash, sldVersion, linkStart, output
            buildIdHashes }, lines)

/-- The two lines that name Mach-O resolution sidecars. -/
def parseIndexMachoFiles (version : Nat) (lines : List Text) :
    Result ((Option Text × Option Text) × List Text) := do
  let (file, lines) ← nextRequiredLine (decide (37 ≤ version)) "macho-resolutions-file"
    "Missing Mach-O resolution sidecar in incremental state" lines
  let file ← parseMachoResolutionsFile validateMachoResolutionsFileName (file.getD absentField)
  let (indexedFile, lines) ← (if 45 ≤ version then
      nextOptionalLine "indexed-macho-resolutions-file" lines
    else .ok (none, lines))
  let indexedFile ← parseMachoResolutionsFile validateMachoResolutionsFileName
    (indexedFile.getD absentField)
  return ((file, indexedFile), lines)

/-- What the end of the index says about records. -/
structure IndexRecords where
  records : RecordLists := {}
  sectionsFile : Option Text := none
  patchRecordsFile : Option Text := none
  patchRecordLocations : List PatchRecordLocation := []
  rawPatchRecordLocations : Option Text := none

/-- `parse_section_line`. -/
def parseSectionLine (line : Text) : Result SectionRecord := do
  let rest ← parsePrefixedLine (some line) "section"
  let (inputFile, parts) ← nextPart (split '\t' rest) "Malformed incremental section input file"
  let (input, parts) ← nextPart parts "Malformed incremental section input"
  let (sectionIndex, parts) ← nextNumber parts "Malformed incremental section index"
    "Invalid incremental section index"
  let (outputOffset, parts) ← nextNumber parts "Malformed incremental section output offset"
    "Invalid incremental section output offset"
  let (size, parts) ← nextNumber parts "Malformed incremental section size"
    "Invalid incremental section size"
  noMoreParts parts "Malformed incremental section record"
  return { inputFile, input, sectionIndex, outputOffset, size }

/-- The records of a sidecar, none when the loader does not load it. -/
def loadRecords (loadSections : Text → Result (Option Text)) (file : Text) :
    Result CompactRecords := do
  match ← loadSections file with
  | none => .ok {}
  | some contents => parseCompactRecordsBlock (lines contents)

/-- The message for an index that is too old to name an indexed sidecar; it skips version 47. -/
def indexedSectionsMessage : String :=
  "Indexed incremental sections require incremental state version "
    ++ String.join (([48, 46, 45, 44, 43, 42, 41, 40, 39, 38, 37, 36, 35, 34, 33, 32, 31].map
      fun number => "`" ++ String.ofList (versionLine stateVersionStem number) ++ "`, "))
    ++ "or `" ++ String.ofList (versionLine stateVersionStem 30) ++ "`"

/-- An index whose sections sidecar is also the sidecar of patch records. -/
def parseIndexedSectionsFile (version : Nat) (parseLocations : Bool) (firstLine : Text)
    (lines : List Text) : Result (IndexRecords × List Text) := do
  failIf (version < 30) indexedSectionsMessage
  let file ← parsePrefixedLine (some firstLine) "indexed-sections-file"
  validateSectionsFileName file
  let ((patchRecordLocations, rawPatchRecordLocations), lines) ←
    parsePatchRecordLocationTable lines parseLocations
  return ({ sectionsFile := some file, patchRecordsFile := some file, patchRecordLocations
            rawPatchRecordLocations }, lines)

/-- The sidecar of patch records of an index that names one of its own. -/
def parsePatchRecordsFile (parseLocations : Bool) (lines : List Text) :
    Result ((Option Text × List PatchRecordLocation × Option Text) × List Text) := do
  let (file, lines) ← nextOptionalLine "patch-records-file" lines
  match file with
  | none => .ok ((none, [], none), lines)
  | some file =>
    validateSectionsFileName file
    if lines.head?.any (hasTag · "patch-records") then do
      let ((locations, raw), lines) ← parsePatchRecordLocationTable lines parseLocations
      return ((some file, locations, raw), lines)
    else .ok ((some file, [], none), lines)

/-- An index whose sections sidecar is one block. -/
def parseSectionsFile (parseLocations : Bool) (loadSections : Text → Result (Option Text))
    (firstLine : Text) (lines : List Text) : Result (IndexRecords × List Text) := do
  let file ← parsePrefixedLine (some firstLine) "sections-file"
  validateSectionsFileName file
  let records ← loadRecords loadSections file
  let ((patchRecordsFile, patchRecordLocations, rawPatchRecordLocations), lines) ←
    parsePatchRecordsFile parseLocations lines
  return ({ records := records.toRecordLists, sectionsFile := some file, patchRecordsFile
            patchRecordLocations, rawPatchRecordLocations }, lines)

/-- The end of the index: the sidecars of the records, or in early versions the records. -/
def parseIndexRecords (version : Nat) (parseLocations : Bool)
    (loadSections : Text → Result (Option Text)) (lines : List Text) :
    Result (IndexRecords × List Text) :=
  if 5 ≤ version then do
    let (firstLine, lines) ← nextPart lines "Missing incremental section input count"
    if hasTag firstLine "indexed-sections-file" then
      parseIndexedSectionsFile version parseLocations firstLine lines
    else if hasTag firstLine "sections-file" then
      parseSectionsFile parseLocations loadSections firstLine lines
    else do
      let records ← parseCompactRecordsBlock (firstLine :: lines)
      return ({ records := records.toRecordLists }, [])
  else if 2 ≤ version then do
    let count ← parseCount lines "sections" "Invalid incremental section count"
    let (sections, lines) ← readTable (always parseSectionLine)
      "Missing incremental section record" count lines.tail
    return ({ records := { sections } }, lines)
  else .ok ({}, lines)

namespace PersistedState

/-- `parse_with_section_loader`. -/
def parseWithSectionLoader (blake3Hex : Bytes → Text) (contents : Text)
    (patchSectionMode : PatchSectionReadMode) (parseLocations : Bool)
    (loadSections : Text → Result (Option Text)) : Result PersistedState := do
  let (line, lines) ← nextPart (lines contents) "Missing incremental state header"
  let version ← context (versionNumber stateVersionStem stateVersion line)
    ("Unsupported incremental state version `" ++ String.ofList line ++ "`")
  let (header, lines) ← parseIndexHeader version lines
  let count ← parseCount lines "inputs" "Invalid incremental input count"
  let (inputFiles, lines) ← readTable (always fun line => parseInputLine blake3Hex line
    patchSectionMode) "Missing incremental input record" count lines.tail
  let ((machoSymbolResolutionsFile, indexedMachoSymbolResolutionsFile), lines) ←
    parseIndexMachoFiles version lines
  let (reservedRanges, lines) ←
    (if 40 ≤ version ∧ lines.head?.any (hasTag · "reserves") = true then
      parseReservedRangeTable lines header.output.len
    else .ok ([], lines))
  let (records, lines) ← parseIndexRecords version parseLocations loadSections lines
  failIf (lines ≠ []) "Unexpected trailing incremental state data"
  validateReservedRangesAgainstSections reservedRanges records.records.sections
  return {
    argsHash := header.argsHash, linkOptionsHash := header.linkOptionsHash
    inputOrderHash := header.inputOrderHash, sldVersion := header.sldVersion
    linkStart := header.linkStart, output := header.output
    buildIdHashes := header.buildIdHashes, inputFiles, reservedRanges
    sections := records.records.sections, relocations := records.records.relocations
    fdes := records.records.fdes, dynamicRelocations := records.records.dynamicRelocations
    sectionsFile := records.sectionsFile, patchRecordsFile := records.patchRecordsFile
    patchRecordLocations := records.patchRecordLocations
    rawPatchRecordLocations := records.rawPatchRecordLocations
    machoSymbolResolutionsFile, indexedMachoSymbolResolutionsFile }

/-- The index of a state directory with its update, as `read_impl` reads them. -/
def readIndexAndUpdate (blake3Hex : Bytes → Text) (dir : StateDir)
    (patchSectionMode : PatchSectionReadMode) (parseLocations : Bool)
    (loadSections : Text → Result (Option Text)) : Result (Option PersistedState) := do
  match ← dir.readToString indexFile with
  | none => .ok none
  | some contents =>
    let state ← parseWithSectionLoader blake3Hex contents patchSectionMode parseLocations
      loadSections
    let state ← state.applyMetadataUpdate blake3Hex dir patchSectionMode
    return some state

end PersistedState

end Srs.Incremental
