/-
# Reading a record block

The reading side of `Records.lean`: `parse_compact_records_block`, which decodes every record,
and `parse_compact_records_block_for_input_files`, which looks at the raw columns of a line
first and decodes it only when one of its inputs is wanted.  The two share their control flow
line for line, so both are `parseRecordsBlock` with a reader for each kind of line; a reader
answers `none` for a line it skips.

An iterator over lines is modelled by the list of lines still to come: `lines.next()` is its
head, and reading past the end is reading the empty list.  The variable `next_line` of the
source is the head of that list too.

All three versions of a relocation line are modelled.  Only `reloc3` is still written.
-/
import Srs.Incremental.Records

namespace Srs.Incremental

open Text

/-! ## 1. Lines and columns -/

/-- `parse_prefixed_line`. -/
def parsePrefixedLine (line : Option Text) (expected : String) : Result Text := do
  let line ← context line "Missing incremental state line"
  let (tag, rest) ← context (splitOnce '\t' line) "Malformed incremental state line"
  failIf (tag ≠ expected.toList) ("Expected incremental state line `" ++ expected ++ "`, got `"
    ++ String.ofList tag ++ "`")
  return rest

/-- `parts.next().context(message)?` on an iterator of columns. -/
def nextPart (parts : List Text) (message : String) : Result (Text × List Text) :=
  match parts with
  | part :: rest => .ok (part, rest)
  | [] => .error message

/-- `text.parse().context(message)?`. -/
def parseNumber {α : Type} [Decimal α] (t : Text) (message : String) : Result α :=
  context (Decimal.parse t) message

/-- The next column, as a number. -/
def nextNumber {α : Type} [Decimal α] (parts : List Text) (malformed invalid : String) :
    Result (α × List Text) := do
  let (part, rest) ← nextPart parts malformed
  let value ← parseNumber part invalid
  return (value, rest)

/-- `if parts.next().is_some() { bail!(..) }`. -/
def noMoreParts (parts : List Text) (message : String) : Result Unit :=
  failIf (parts ≠ []) message

/-- `(part != ABSENT_FIELD).then(|| part.parse().context(message)).transpose()?`. -/
def optionalNumber {α : Type} [Decimal α] (part : Text) (message : String) :
    Result (Option α) :=
  if part = absentField then .ok none else (parseNumber part message).map some

/-- `(part != ABSENT_FIELD).then(|| part.to_owned())`. -/
def optionalText (part : Text) : Option Text := if part = absentField then none else some part

/-- `str::starts_with` a tag and its tab. -/
def hasTag (line : Text) (tag : String) : Bool := (tag.toList ++ ['\t']).isPrefixOf line

/-- `parse_prefixed_line(lines.next(), tag)?.parse().context(invalid)?`: a table's length. -/
def parseCount (lines : List Text) (tag invalid : String) : Result Nat := do
  let rest ← parsePrefixedLine lines.head? tag
  parseNumber rest invalid

/-- The loop over the lines of a table: `count` lines, each read by `read`. -/
def readTable {α : Type} (read : Text → Result (Option α)) (missing : String) :
    Nat → List Text → Result (List α × List Text)
  | 0, lines => .ok ([], lines)
  | _ + 1, [] => .error missing
  | count + 1, line :: lines => do
    let record ← read line
    let (records, rest) ← readTable read missing count lines
    return (record.toList ++ records, rest)

/-! ## 2. One line of each kind -/

/-- `parse_section_input_line`. -/
def parseSectionInputLine (line : Text) : Result InputKey := do
  let rest ← parsePrefixedLine (some line) "section-input"
  let (inputFile, parts) ← nextPart (split '\t' rest) "Malformed incremental section input file"
  let (input, parts) ← nextPart parts "Malformed incremental section input"
  noMoreParts parts "Malformed incremental section input record"
  return (inputFile, input)

/-- `parse_compact_section_line`. -/
def parseCompactSectionLine (sectionInputs : List InputKey) (line : Text) :
    Result SectionRecord := do
  let rest ← parsePrefixedLine (some line) "section"
  let (inputId, parts) ← nextNumber (α := Nat) (split '\t' rest)
    "Malformed incremental section input index" "Invalid incremental section input index"
  let (sectionIndex, parts) ← nextNumber parts
    "Malformed incremental section index" "Invalid incremental section index"
  let (outputOffset, parts) ← nextNumber parts
    "Malformed incremental section output offset" "Invalid incremental section output offset"
  let (size, parts) ← nextNumber parts
    "Malformed incremental section size" "Invalid incremental section size"
  noMoreParts parts "Malformed incremental section record"
  let (inputFile, input) ← context sectionInputs[inputId]?
    "Incremental section input index out of bounds"
  return { inputFile, input, sectionIndex, outputOffset, size }

/-- `parts.get(i).copied().context(malformed)?.parse().context(invalid)?`. -/
def numberAt {α : Type} [Decimal α] (parts : List Text) (i : Nat) (malformed invalid : String) :
    Result α := do
  let part ← context parts[i]? malformed
  parseNumber part invalid

/-- `parts[i]`, read only after the number of columns was checked. -/
def column (parts : List Text) (i : Nat) : Text := parts.getD i []

/-- The target of a `reloc2` or `reloc3` line, whose three columns start at `first`. -/
def parseInternedTarget (sectionInputs : List InputKey) (parts : List Text) (first : Nat) :
    Result (Option RelocationTargetRecord) := do
  if column parts first = absentField ∧ column parts (first + 1) = absentField
      ∧ column parts (first + 2) = absentField then
    return none
  let inputId ← parseNumber (α := Nat) (column parts first)
    "Invalid incremental relocation target input index"
  let (inputFile, input) ← context sectionInputs[inputId]?
    "Incremental relocation target input index out of bounds"
  let sectionIndex ← parseNumber (column parts (first + 1))
    "Invalid incremental relocation target section index"
  let sectionOffset ← parseNumber (column parts (first + 2))
    "Invalid incremental relocation target section offset"
  return some { inputFile, input, sectionIndex, sectionOffset }

/-- The target of a `reloc` line, whose four columns start at `first` and spell the input out. -/
def parseSpelledTarget (parts : List Text) (first : Nat) :
    Result (Option RelocationTargetRecord) := do
  if column parts first = absentField ∧ column parts (first + 1) = absentField
      ∧ column parts (first + 2) = absentField ∧ column parts (first + 3) = absentField then
    return none
  let sectionIndex ← parseNumber (column parts (first + 2))
    "Invalid incremental relocation target section index"
  let sectionOffset ← parseNumber (column parts (first + 3))
    "Invalid incremental relocation target section offset"
  return some { inputFile := column parts first, input := column parts (first + 1)
                sectionIndex, sectionOffset }

/-- What the versions of a relocation line differ in. -/
structure RelocationTail where
  writtenValue : Option UInt64
  targetValue : UInt64
  appliedTargetValue : Option UInt64
  targetName : Option Text
  target : Option RelocationTargetRecord

/-- The columns after the eighth, for a line of the given version. -/
def parseRelocationTail (version : Nat) (sectionInputs : List InputKey) (parts : List Text) :
    Result RelocationTail :=
  if 2 ≤ version then do
    failIf (parts.length ≠ (if version = 3 then 15 else 14))
      "Malformed incremental relocation record"
    let writtenValue ← optionalNumber (column parts 8)
      "Invalid incremental written relocation value"
    let targetValue ← parseNumber (column parts 9) "Invalid incremental relocation target value"
    let appliedTargetValue ← (if version = 3 then
        optionalNumber (column parts 10) "Invalid incremental applied relocation target value"
      else .ok none)
    let nameIndex := if version = 3 then 11 else 10
    let target ← parseInternedTarget sectionInputs parts (nameIndex + 1)
    return { writtenValue, targetValue, appliedTargetValue
             targetName := optionalText (column parts nameIndex), target }
  else match parts.length with
    | 8 => return { writtenValue := none, targetValue := 0, appliedTargetValue := none
                    targetName := none, target := none }
    | 10 => do
      let targetValue ← parseNumber (column parts 8)
        "Invalid incremental relocation target value"
      return { writtenValue := none, targetValue, appliedTargetValue := none
               targetName := optionalText (column parts 9), target := none }
    | 14 => do
      let targetValue ← parseNumber (column parts 8)
        "Invalid incremental relocation target value"
      let target ← parseSpelledTarget parts 10
      return { writtenValue := none, targetValue, appliedTargetValue := none
               targetName := optionalText (column parts 9), target }
    | 15 => do
      let writtenValue ← optionalNumber (column parts 8)
        "Invalid incremental written relocation value"
      let targetValue ← parseNumber (column parts 9)
        "Invalid incremental relocation target value"
      let target ← parseSpelledTarget parts 11
      return { writtenValue, targetValue, appliedTargetValue := none
               targetName := optionalText (column parts 10), target }
    | _ => throw "Malformed incremental relocation record"

/-- The version of a relocation line and its tag. -/
def relocationVersion (line : Text) : Nat × String :=
  if hasTag line "reloc3" then (3, "reloc3")
  else if hasTag line "reloc2" then (2, "reloc2")
  else (1, "reloc")

/-- `parse_compact_relocation_line`. -/
def parseCompactRelocationLine (sectionInputs : List InputKey) (line : Text) :
    Result RelocationRecord := do
  let (version, tag) := relocationVersion line
  let rest ← parsePrefixedLine (some line) tag
  let parts := split '\t' rest
  let inputId ← numberAt (α := Nat) parts 0
    "Malformed incremental relocation input index" "Invalid incremental relocation input index"
  let sectionIndex ← numberAt parts 1
    "Malformed incremental relocation section index"
    "Invalid incremental relocation section index"
  let targetSymbolId ← numberAt parts 2
    "Malformed incremental relocation target symbol"
    "Invalid incremental relocation target symbol"
  let relocationOffset ← numberAt parts 3
    "Malformed incremental relocation input offset"
    "Invalid incremental relocation input offset"
  let outputOffset ← numberAt parts 4
    "Malformed incremental relocation output offset"
    "Invalid incremental relocation output offset"
  let size ← numberAt parts 5
    "Malformed incremental relocation size" "Invalid incremental relocation size"
  let kind ← numberAt parts 6
    "Malformed incremental relocation kind" "Invalid incremental relocation kind"
  let addend ← numberAt parts 7
    "Malformed incremental relocation addend" "Invalid incremental relocation addend"
  let tail ← parseRelocationTail version sectionInputs parts
  let (inputFile, input) ← context sectionInputs[inputId]?
    "Incremental relocation input index out of bounds"
  return { targetSymbolId, writtenValue := tail.writtenValue, targetValue := tail.targetValue
           appliedTargetValue := tail.appliedTargetValue, targetName := tail.targetName
           target := tail.target, inputFile, input, sectionIndex, relocationOffset
           outputOffset, size, kind, addend }

/-- `parse_compact_fde_line`. -/
def parseCompactFdeLine (sectionInputs : List InputKey) (line : Text) : Result FdeRecord := do
  let rest ← parsePrefixedLine (some line) "fde"
  let (inputId, parts) ← nextNumber (α := Nat) (split '\t' rest)
    "Malformed incremental FDE input index" "Invalid incremental FDE input index"
  let (sectionIndex, parts) ← nextNumber parts
    "Malformed incremental FDE section index" "Invalid incremental FDE section index"
  let (ehFrameSectionIndex, parts) ← nextNumber parts
    "Malformed incremental FDE .eh_frame section index"
    "Invalid incremental FDE .eh_frame section index"
  let (inputOffset, parts) ← nextNumber parts
    "Malformed incremental FDE input offset" "Invalid incremental FDE input offset"
  let (outputOffset, parts) ← nextNumber parts
    "Malformed incremental FDE output offset" "Invalid incremental FDE output offset"
  let (size, parts) ← nextNumber parts
    "Malformed incremental FDE size" "Invalid incremental FDE size"
  noMoreParts parts "Malformed incremental FDE record"
  let (inputFile, input) ← context sectionInputs[inputId]?
    "Incremental FDE input index out of bounds"
  return { inputFile, input, sectionIndex, ehFrameSectionIndex, inputOffset, outputOffset
           size }

/-- The relocation offset of a `dynrel` line.  It and the two output columns came later than the
rest, so a line has four, five or seven columns. -/
def dynamicRelocationOffset (parts : List Text) : Result UInt64 :=
  match parts.length with
  | 4 => .ok 0
  | 5 | 7 => parseNumber (column parts 2) "Invalid incremental dynamic relocation input offset"
  | _ => .error "Malformed incremental dynamic relocation record"

/-- The two output columns of a `dynrel` line. -/
def dynamicRelocationOutput (parts : List Text) : Result (Option UInt64 × Option UInt64) :=
  if parts.length = 7 then do
    let rOffset ← parseNumber (column parts 5)
      "Invalid incremental dynamic relocation output r_offset"
    let rInfo ← parseNumber (column parts 6)
      "Invalid incremental dynamic relocation output r_info"
    return (some rOffset, some rInfo)
  else .ok (none, none)

/-- `parse_compact_dynamic_relocation_line`. -/
def parseCompactDynamicRelocationLine (sectionInputs : List InputKey) (line : Text) :
    Result DynamicRelocationRecord := do
  let rest ← parsePrefixedLine (some line) "dynrel"
  let parts := split '\t' rest
  let inputId ← numberAt (α := Nat) parts 0
    "Malformed incremental dynamic relocation input index"
    "Invalid incremental dynamic relocation input index"
  let sectionIndex ← numberAt parts 1
    "Malformed incremental dynamic relocation section index"
    "Invalid incremental dynamic relocation section index"
  let relocationOffset ← dynamicRelocationOffset parts
  let first := if parts.length = 4 then 2 else 3
  let outputOffset ← parseNumber (column parts first)
    "Invalid incremental dynamic relocation output offset"
  let size ← parseNumber (column parts (first + 1))
    "Invalid incremental dynamic relocation size"
  let (outputROffset, outputRInfo) ← dynamicRelocationOutput parts
  let (inputFile, input) ← context sectionInputs[inputId]?
    "Incremental dynamic relocation input index out of bounds"
  return { inputFile, input, sectionIndex, relocationOffset, outputOffset, size, outputROffset
           outputRInfo }

/-! ## 3. The Mach-O resolution table -/

def parseMachoResolutionInput (line : Text) : Result InputKey := do
  let rest ← parsePrefixedLine (some line) "macho-resolution-input"
  context (splitOnce '\t' rest) "Malformed Mach-O resolution input"

def parseThunkAddresses (part : Text) : Result (List UInt64) :=
  if part = absentField then .ok []
  else (split ',' part).mapM fun address =>
    parseNumber address "Invalid Mach-O resolution thunk address"

def parseMachoResolutionTarget (inputs : List InputKey) (parts : List Text) :
    Result (Option RelocationTargetRecord) := do
  if column parts 5 = absentField ∧ column parts 6 = absentField
      ∧ column parts 7 = absentField then
    return none
  let inputId ← parseNumber (α := Nat) (column parts 5)
    "Invalid Mach-O resolution target input index"
  let (inputFile, input) ← context inputs[inputId]?
    "Mach-O resolution target input index out of bounds"
  let sectionIndex ← parseNumber (column parts 6)
    "Invalid Mach-O resolution target section index"
  let sectionOffset ← parseNumber (column parts 7)
    "Invalid Mach-O resolution target section offset"
  return some { inputFile, input, sectionIndex, sectionOffset }

def parseMachoResolutionLine (inputs : List InputKey) (line : Text) :
    Result MachOSymbolResolutionRecord := do
  let rest ← parsePrefixedLine (some line) "macho-resolution"
  let parts := split '\t' rest
  failIf (parts.length ≠ 8) "Malformed Mach-O resolution record"
  let directValue ← optionalNumber (column parts 1) "Invalid Mach-O resolution direct value"
  let gotAddress ← optionalNumber (column parts 2) "Invalid Mach-O resolution GOT address"
  let stubAddress ← optionalNumber (column parts 3) "Invalid Mach-O resolution stub address"
  let thunkAddresses ← parseThunkAddresses (column parts 4)
  let target ← parseMachoResolutionTarget inputs parts
  return { name := column parts 0, directValue, gotAddress, stubAddress, thunkAddresses, target }

/-- A line that is never skipped. -/
def always {α : Type} (parse : Text → Result α) (line : Text) : Result (Option α) :=
  (parse line).map some

/-- The message of `parse_prefixed_line` when the lines have run out. -/
def missingLine : String := "Missing incremental state line"

/-- `parse_macho_symbol_resolutions`. -/
def parseMachoSymbolResolutions (lines : List Text) :
    Result (List MachOSymbolResolutionRecord) := do
  let inputCount ← parseCount lines "macho-resolution-inputs"
    "Invalid Mach-O resolution input count"
  let (inputs, lines) ← readTable (always parseMachoResolutionInput) missingLine
    inputCount lines.tail
  let resolutionCount ← parseCount lines "macho-resolutions" "Invalid Mach-O resolution count"
  let (resolutions, lines) ← readTable (always (parseMachoResolutionLine inputs)) missingLine
    resolutionCount lines.tail
  failIf (lines ≠ []) "Unexpected trailing Mach-O resolution sidecar data"
  return resolutions

/-! ## 4. The block -/

/-- The four lists that every holder of records has. -/
structure RecordLists where
  sections : List SectionRecord := []
  relocations : List RelocationRecord := []
  fdes : List FdeRecord := []
  dynamicRelocations : List DynamicRelocationRecord := []
  deriving DecidableEq

structure CompactRecords extends RecordLists where
  machoSymbolResolutions : List MachOSymbolResolutionRecord := []
  machoSymbolResolutionsComplete : Bool := false
  deriving DecidableEq

/-- How the lines of each kind are read, given the table of inputs. -/
structure LineReaders where
  readSection : List InputKey → Text → Result (Option SectionRecord)
  readRelocation : List InputKey → Text → Result (Option RelocationRecord)
  readFde : List InputKey → Text → Result (Option FdeRecord)
  readDynamicRelocation : List InputKey → Text → Result (Option DynamicRelocationRecord)

/-- A table that older files leave out: it is read only when the next line carries its tag. -/
def readOptionalTable {α : Type} (read : Text → Result (Option α)) (tag invalid missing : String)
    (lines : List Text) : Result (List α × List Text) :=
  if lines.head?.any (hasTag · tag) then do
    let count ← parseCount lines tag invalid
    readTable read missing count lines.tail
  else .ok ([], lines)

/-- The control flow of the two block parsers. -/
def parseRecordsBlock (readers : LineReaders) (lines : List Text) : Result CompactRecords := do
  let inputCount ← parseCount lines "section-inputs" "Invalid incremental section input count"
  let (inputs, lines) ← readTable (always parseSectionInputLine)
    "Missing incremental section input record" inputCount lines.tail
  let sectionCount ← parseCount lines "sections" "Invalid incremental section count"
  let (sections, lines) ← readTable (readers.readSection inputs)
    "Missing incremental section record" sectionCount lines.tail
  let (relocations, lines) ← readOptionalTable (readers.readRelocation inputs) "relocs"
    "Invalid incremental relocation count" "Missing incremental relocation record" lines
  let (fdes, lines) ← readOptionalTable (readers.readFde inputs) "fdes"
    "Invalid incremental FDE count" "Missing incremental FDE record" lines
  let (dynamicRelocations, lines) ← readOptionalTable (readers.readDynamicRelocation inputs)
    "dynrels" "Invalid incremental dynamic relocation count"
    "Missing incremental dynamic relocation record" lines
  if lines.head?.any (hasTag · "macho-resolution-inputs") then
    let resolutions ← parseMachoSymbolResolutions lines
    return { sections, relocations, machoSymbolResolutions := resolutions
             machoSymbolResolutionsComplete := true, fdes, dynamicRelocations }
  failIf (lines ≠ []) "Unexpected trailing incremental section data"
  return { sections, relocations, fdes, dynamicRelocations }

/-- Every line is decoded. -/
def fullReaders : LineReaders where
  readSection inputs := always (parseCompactSectionLine inputs)
  readRelocation inputs := always (parseCompactRelocationLine inputs)
  readFde inputs := always (parseCompactFdeLine inputs)
  readDynamicRelocation inputs := always (parseCompactDynamicRelocationLine inputs)

/-- `parse_compact_records_block`. -/
def parseCompactRecordsBlock (lines : List Text) : Result CompactRecords :=
  parseRecordsBlock fullReaders lines

/-! ## 5. The filtered block -/

/-- `matched_section_input_ids`: the positions of the wanted files in the table. -/
def matchedSectionInputIds (inputFiles : Finset Text) (inputs : List InputKey) : List Nat :=
  inputs.zipIdx.filterMap fun entry => if entry.1.1 ∈ inputFiles then some entry.2 else none

/-- `compact_record_section_input_id`. -/
def compactRecordSectionInputId (rest : Text) (tag : String) : Result Nat := do
  let (part, _) ← nextPart (split '\t' rest) "Malformed incremental record input index"
  parseNumber part ("Invalid incremental " ++ tag ++ " input index")

/-- `compact_record_matches_input`. -/
def compactRecordMatchesInput (line : Text) (tag : String) (matched : List Nat)
    (inputCount : Nat) : Result Bool := do
  let rest ← parsePrefixedLine (some line) tag
  let inputId ← compactRecordSectionInputId rest tag
  failIf (inputCount ≤ inputId) ("Incremental " ++ tag ++ " input index out of bounds")
  return decide (inputId ∈ matched)

/-- `str::contains`. -/
def contains (needle hay : Text) : Bool := decide (needle <:+: hay)

/-- `compact_relocation_record_matches_input`.  A `reloc` line spells its target out, so there
the wanted files are searched for in the whole line. -/
def compactRelocationRecordMatchesInput (line : Text) (matched : List Nat)
    (inputFiles : Finset Text) (inputCount : Nat) : Result Bool := do
  let (version, tag) := relocationVersion line
  if 2 ≤ version then
    let rest ← parsePrefixedLine (some line) tag
    if ← compactRecordMatchesInput line tag matched inputCount then
      return true
    let parts := split '\t' rest
    let targetIndex := if version = 3 then 12 else 11
    if parts.length ≠ (if version = 3 then 15 else 14)
        ∨ column parts targetIndex = absentField then
      return false
    let targetId ← parseNumber (α := Nat) (column parts targetIndex)
      "Invalid incremental relocation target input index"
    failIf (inputCount ≤ targetId) "Incremental relocation target input index out of bounds"
    return decide (targetId ∈ matched)
  if ← compactRecordMatchesInput line tag matched inputCount then
    return true
  return decide (∃ inputFile ∈ inputFiles, contains inputFile line = true)

/-- A line that is decoded only when `wanted` says so. -/
def whenWanted {α : Type} (wanted : Text → Result Bool) (parse : Text → Result α)
    (line : Text) : Result (Option α) := do
  if ← wanted line then
    let record ← parse line
    return some record
  return none

def filteredReaders (inputFiles : Finset Text) : LineReaders where
  readSection inputs := whenWanted
    (compactRecordMatchesInput · "section" (matchedSectionInputIds inputFiles inputs)
      inputs.length)
    (parseCompactSectionLine inputs)
  readRelocation inputs := whenWanted
    (compactRelocationRecordMatchesInput · (matchedSectionInputIds inputFiles inputs) inputFiles
      inputs.length)
    (parseCompactRelocationLine inputs)
  readFde inputs := whenWanted
    (compactRecordMatchesInput · "fde" (matchedSectionInputIds inputFiles inputs) inputs.length)
    (parseCompactFdeLine inputs)
  readDynamicRelocation inputs := whenWanted
    (compactRecordMatchesInput · "dynrel" (matchedSectionInputIds inputFiles inputs)
      inputs.length)
    (parseCompactDynamicRelocationLine inputs)

/-- `parse_compact_records_block_for_input_files`. -/
def parseCompactRecordsBlockForInputFiles (lines : List Text) (inputFiles : Finset Text) :
    Result CompactRecords :=
  parseRecordsBlock (filteredReaders inputFiles) lines

end Srs.Incremental
