/-
# The state of Mach-O archive members

When members of an archive are added to a Mach-O output after it was linked, or their
definitions change, the input line of the archive keeps what is needed to switch them on and
off: the sections and relocations that are dormant, the symbol resolutions of both versions, the
output patches in both directions and, where the unwind information changed, its two versions.

The states are one column.  A state is ten fields between colons, all but the first in
hexadecimal because each is a text with separators of its own; states are joined by semicolons.
The reader checks far more than the syntax, both within a state and across all of them, and
still takes the forms with six to nine fields that older versions wrote.
-/
import Srs.Incremental.PatchSections
import Srs.Alignment
import Srs.Lib.SortDedup

namespace Srs.Incremental

open Text Bytes

/-! ## 1. The data -/

inductive MachOArchiveActivationKind where
  | addedMembers
  | changedDefinitions
  | changedDefinitionsWithUnwind
  deriving DecidableEq

def MachOArchiveActivationKind.isChangedDefinitions : MachOArchiveActivationKind → Bool
  | addedMembers => false
  | changedDefinitions => true
  | changedDefinitionsWithUnwind => true

structure MachOArchiveMemberIdentity where
  normalizedIdentifier : Bytes
  objectHash : Text
  deriving DecidableEq

structure StoredOutputPatch where
  outputOffset : UInt64
  data : Bytes
  deriving DecidableEq

structure MachOEhFrameReserveState where
  start : UInt64
  stop : UInt64
  deriving DecidableEq

structure MachOArchiveUnwindVersionState where
  commonMembers : List MachOArchiveMemberIdentity
  ehFrameReserve : MachOEhFrameReserveState
  deriving DecidableEq

structure MachOArchiveUnwindTransactionState where
  forward : MachOArchiveUnwindVersionState
  rollback : MachOArchiveUnwindVersionState
  deriving DecidableEq

structure MachOArchiveActivationState where
  kind : MachOArchiveActivationKind
  members : List MachOArchiveMemberIdentity
  active : Bool
  sections : List FilePatchSectionState
  relocations : List RelocationRecord
  symbolResolutions : List MachOSymbolResolutionRecord
  indirectDependencies : List MachOSymbolResolutionRecord
  rollbackSymbolResolutions : List MachOSymbolResolutionRecord
  forwardPatches : List StoredOutputPatch
  rollbackPatches : List StoredOutputPatch
  unwindTransaction : Option MachOArchiveUnwindTransactionState
  deriving DecidableEq

/-! ## 2. Output patches -/

def renderStoredOutputPatch (patch : StoredOutputPatch) : Text :=
  join ':' [Decimal.render patch.outputOffset, hexEncode patch.data]

def renderStoredOutputPatches (patches : List StoredOutputPatch) : Text :=
  join ',' (patches.map renderStoredOutputPatch)

def parseStoredOutputPatch (encoded : Text) : Result StoredOutputPatch := do
  let (outputOffset, data) ← context (splitOnce ':' encoded)
    "Malformed incremental Mach-O archive output patch"
  let outputOffset ← parseNumber outputOffset
    "Invalid incremental Mach-O archive output patch offset"
  let data ← context (hexDecode data) "Invalid incremental Mach-O archive output patch data"
  failIf (data = []) "Incremental Mach-O archive output patch is empty"
  return { outputOffset, data }

def parseStoredOutputPatches (encoded : Text) : Result (List StoredOutputPatch) :=
  if encoded = [] then .ok [] else (split ',' encoded).mapM parseStoredOutputPatch

/-! ## 3. Members and unwind versions -/

/-- A member as both lists of members spell it. -/
def renderMemberIdentity (member : MachOArchiveMemberIdentity) : Text :=
  join '=' [hexEncode member.normalizedIdentifier, member.objectHash]

def renderMachoArchiveUnwindVersionState (state : MachOArchiveUnwindVersionState) : Text :=
  join '|' [join ',' (state.commonMembers.map renderMemberIdentity),
    join '-' [Decimal.render state.ehFrameReserve.start, Decimal.render state.ehFrameReserve.stop]]

def parseUnwindMember (encoded : Text) : Result MachOArchiveMemberIdentity := do
  let (identifier, objectHash) ← context (splitOnce '=' encoded)
    "Malformed incremental Mach-O archive unwind member identity"
  let normalizedIdentifier ← context (hexDecode identifier)
    "Invalid incremental Mach-O archive unwind member identifier"
  failIf (normalizedIdentifier = [] ∨ ¬ isBlake3HexDigest objectHash)
    "Invalid incremental Mach-O archive unwind member identity"
  return { normalizedIdentifier, objectHash }

/-- The members of one version are strictly sorted by their identifiers. -/
def MembersSorted (members : List MachOArchiveMemberIdentity) : Prop :=
  members.IsChain fun a b => a.normalizedIdentifier < b.normalizedIdentifier

instance (members : List MachOArchiveMemberIdentity) : Decidable (MembersSorted members) :=
  inferInstanceAs (Decidable (List.IsChain _ _))

/-- The reserve of one version: both ends are multiples of eight, in order. -/
def ReserveAligned (reserve : MachOEhFrameReserveState) : Prop :=
  reserve.start ≤ reserve.stop ∧ reserve.start.toNat % 8 = 0 ∧ reserve.stop.toNat % 8 = 0

instance (reserve : MachOEhFrameReserveState) : Decidable (ReserveAligned reserve) :=
  inferInstanceAs (Decidable (_ ∧ _))

def parseUnwindMembers (encoded : Text) : Result (List MachOArchiveMemberIdentity) :=
  if encoded = [] then .ok [] else (split ',' encoded).mapM parseUnwindMember

def parseMachoArchiveUnwindVersionState (encoded : Text) :
    Result MachOArchiveUnwindVersionState := do
  let (members, reserve) ← context (splitOnce '|' encoded)
    "Malformed incremental Mach-O archive unwind version state"
  let commonMembers ← parseUnwindMembers members
  failIf (¬ MembersSorted commonMembers)
    "Invalid incremental Mach-O archive unwind member identities"
  let (start, stop) ← context (splitOnce '-' reserve)
    "Malformed incremental Mach-O archive unwind reserve"
  let start ← parseNumber start "Invalid incremental Mach-O archive unwind reserve start"
  let stop ← parseNumber stop "Invalid incremental Mach-O archive unwind reserve end"
  failIf (¬ ReserveAligned ⟨start, stop⟩) "Invalid incremental Mach-O archive unwind reserve"
  return { commonMembers, ehFrameReserve := ⟨start, stop⟩ }

def renderMachoArchiveUnwindTransactionState (transaction : MachOArchiveUnwindTransactionState) :
    Text :=
  join ';' [renderMachoArchiveUnwindVersionState transaction.forward,
    renderMachoArchiveUnwindVersionState transaction.rollback]

def parseMachoArchiveUnwindTransactionState (encoded : Text) :
    Result (Option MachOArchiveUnwindTransactionState) :=
  if encoded = [] then .ok none
  else do
    let (forward, rollback) ← context (splitOnce ';' encoded)
      "Malformed incremental Mach-O archive unwind transaction"
    let forward ← parseMachoArchiveUnwindVersionState forward
    let rollback ← parseMachoArchiveUnwindVersionState rollback
    return some { forward, rollback }

/-! ## 4. Writing a state -/

def renderKind : MachOArchiveActivationKind → Text
  | .addedMembers => "members"
  | .changedDefinitions => "definitions"
  | .changedDefinitionsWithUnwind => "definitions-unwind"

def renderMembers (kind : MachOArchiveActivationKind)
    (members : List MachOArchiveMemberIdentity) : Text :=
  join '|' [renderKind kind, join ',' (members.map renderMemberIdentity)]

/-- The text of a table of resolutions, `write_rendered_macho_symbol_resolutions`. -/
def renderResolutions (resolutions : List MachOSymbolResolutionRecord) : Text :=
  unlines (writeRenderedMachoSymbolResolutionRefs resolutions)

/-- A text as one of the hexadecimal fields. -/
def hexField (t : Text) : Text := hexEncode (utf8 t)

def machoArchiveMemberStateFields (state : MachOArchiveActivationState) : List Text :=
  [if state.active then ['1'] else ['0'],
    hexField (renderMembers state.kind state.members),
    hexField (renderPatchSectionStates state.sections),
    hexField (unlines (writeRenderedRecords [] state.relocations [] [])),
    hexField (renderResolutions state.symbolResolutions),
    hexField (renderResolutions state.rollbackSymbolResolutions),
    hexField (renderStoredOutputPatches state.forwardPatches),
    hexField (renderStoredOutputPatches state.rollbackPatches),
    hexField (renderResolutions state.indirectDependencies),
    hexField ((state.unwindTransaction.map renderMachoArchiveUnwindTransactionState).getD [])]

def renderMachoArchiveMemberStates (states : List MachOArchiveActivationState) : Text :=
  join ';' (states.map fun state => join ':' (machoArchiveMemberStateFields state))

/-! ## 5. Transactions that only bind symbols

A state without sections switches symbols of the output's symbol table on and off.  Each of its
patches replaces one entry (16 bytes: a string index, a type byte, a section, a descriptor and
the value), and the two directions differ only in the string index, which is zero when off. -/

def nStab : UInt8 := 0xe0
def nType : UInt8 := 0x0e
def nSect : UInt8 := 0x0e
def nExt : UInt8 := 0x01

/-- The size of `object::macho::Nlist64`. -/
def nlistSize : Nat := 16

/-- `read_u64_le`. -/
def readU64Le (bytes : Bytes) : Option UInt64 :=
  if bytes.length = 8 then
    some (.ofNat (bytes.foldr (fun b n => b.toNat + 256 * n) 0))
  else none

/-- `macho_resolution_matches_archive_member`. -/
def machoResolutionMatchesArchiveMember (inputFilePath : Text)
    (resolution : MachOSymbolResolutionRecord) (member : MachOArchiveMemberIdentity) :
    Result Bool :=
  match resolution.target.filter (·.inputFile = inputFilePath) with
  | none => .ok false
  | some target => do
    let input ← parsePatchInputRef inputFilePath target.input
    return input.any fun input => input.identifier ≠ []
      ∧ archiveMemberPatchIdentifier input.identifier = member.normalizedIdentifier

/-- The loop over the members: the one that matches, `none` when a second one does. -/
def findMatchingMember (inputFilePath : Text) (resolution : MachOSymbolResolutionRecord) :
    List (MachOArchiveMemberIdentity × Nat) → Option Nat → Result (Option (Option Nat))
  | [], found => .ok (some found)
  | (member, index) :: rest, found => do
    let isMatch ← machoResolutionMatchesArchiveMember inputFilePath resolution member
    (if isMatch = true ∧ found.isSome = true then .ok none
    else findMatchingMember inputFilePath resolution rest
      (if isMatch = true then some index else found))

/-- A resolution and its patches are those of one symbol table entry. -/
def symbolPatchWellFormed (resolution : MachOSymbolResolutionRecord)
    (forward rollback : StoredOutputPatch) : Bool :=
  resolution.directValue.isSome ∧ resolution.gotAddress.isNone ∧ resolution.stubAddress.isNone
    ∧ resolution.thunkAddresses = []
    ∧ forward.outputOffset = rollback.outputOffset
    ∧ forward.data.length = nlistSize
    ∧ forward.data.length = rollback.data.length
    ∧ forward.data.take 4 ≠ [0, 0, 0, 0]
    ∧ rollback.data.take 4 = [0, 0, 0, 0]
    ∧ forward.data.drop 4 = rollback.data.drop 4
    ∧ forward.data.getD 4 0 &&& nStab = 0
    ∧ forward.data.getD 4 0 &&& nType = nSect
    ∧ forward.data.getD 4 0 &&& nExt ≠ 0
    ∧ readU64Le (forward.data.drop 8) = resolution.directValue

/-- What the loop over the resolutions carries. -/
structure SymbolOnlyState where
  names : List Bytes
  representedMembers : List Nat
  patchRanges : List (UInt64 × UInt64)

/-- The body of the loop; `none` where the source returns `Ok(false)`. -/
def symbolOnlyStep (inputFilePath : Text) (members : List MachOArchiveMemberIdentity)
    (state : SymbolOnlyState) (resolution : MachOSymbolResolutionRecord)
    (forward rollback : StoredOutputPatch) : Result (Option SymbolOnlyState) :=
  match hexDecode resolution.name with
  | none => .ok none
  | some name =>
    if name = [] ∨ name ∈ state.names
        ∨ symbolPatchWellFormed resolution forward rollback = false then .ok none
    else do
      let found ← findMatchingMember inputFilePath resolution members.zipIdx none
      return do
        let index ← found.join
        let stop ← checkedAdd forward.outputOffset (.ofNat forward.data.length)
        some
          { names := name :: state.names
            representedMembers := index :: state.representedMembers
            patchRanges := state.patchRanges ++ [(forward.outputOffset, stop)] }

/-- The loop over the resolutions and their patches. -/
def symbolOnlyLoop (inputFilePath : Text) (members : List MachOArchiveMemberIdentity) :
    List (MachOSymbolResolutionRecord × StoredOutputPatch × StoredOutputPatch) →
      SymbolOnlyState → Result (Option SymbolOnlyState)
  | [], state => .ok (some state)
  | (resolution, forward, rollback) :: rest, state => do
    let next ← symbolOnlyStep inputFilePath members state resolution forward rollback
    (match next with
    | none => .ok none
    | some state => symbolOnlyLoop inputFilePath members rest state)

/-- The order of the patch ranges: by start, then by end. -/
def comparePatchRanges : UInt64 × UInt64 → UInt64 × UInt64 → Ordering :=
  compareLex (compareOn Prod.fst) (compareOn Prod.snd)

def symbolOnlyMachoArchiveTransactionIsValid (inputFilePath : Text)
    (members : List MachOArchiveMemberIdentity) (resolutions : List MachOSymbolResolutionRecord)
    (forwardPatches rollbackPatches : List StoredOutputPatch) : Result Bool :=
  if resolutions = [] ∨ resolutions.length ≠ forwardPatches.length
      ∨ forwardPatches.length ≠ rollbackPatches.length then .ok false
  else do
    let state ← symbolOnlyLoop inputFilePath members
      (resolutions.zip (forwardPatches.zip rollbackPatches)) ⟨[], [], []⟩
    return state.any fun state =>
      (∀ index ∈ List.range members.length, index ∈ state.representedMembers)
        ∧ (sortedBy comparePatchRanges state.patchRanges).IsChain fun a b => a.2 ≤ b.1

/-- `macho_archive_transaction_patches_match`. -/
def machoArchiveTransactionPatchesMatch (state : MachOArchiveActivationState) : Bool :=
  state.forwardPatches ≠ [] ∧ state.forwardPatches.length = state.rollbackPatches.length
    ∧ ∀ pair ∈ state.forwardPatches.zip state.rollbackPatches,
      pair.1.outputOffset = pair.2.outputOffset ∧ pair.1.data.length = pair.2.data.length

/-- A forward patch with its string index zeroed. -/
def canonicalRollback (forward : StoredOutputPatch) : StoredOutputPatch :=
  { forward with data := List.replicate 4 0 ++ forward.data.drop 4 }

/-- The forward patches of the states a rollback patch may restore. -/
def counterpartPatches (state : MachOArchiveActivationState)
    (states : List MachOArchiveActivationState) : List StoredOutputPatch :=
  (states.filter fun candidate => candidate.active ≠ state.active
    ∧ machoArchiveTransactionPatchesMatch candidate).flatMap (·.forwardPatches)

def symbolOnlyMachoArchiveTransactionHasExactCounterpart (inputFilePath : Text)
    (state : MachOArchiveActivationState) (states : List MachOArchiveActivationState) :
    Result Bool :=
  if ∃ forward ∈ state.forwardPatches, forward.data.length < 4 then .ok false
  else do
    let canonical := state.forwardPatches.map canonicalRollback
    let valid ← symbolOnlyMachoArchiveTransactionIsValid inputFilePath state.members
      state.symbolResolutions state.forwardPatches canonical
    return valid && (state.rollbackPatches.zip canonical).all fun pair =>
      pair.1 = pair.2 ∨ (counterpartPatches state states).count pair.1 = 1

/-! ## 6. The checks on a state -/

/-- A section that belongs to no listed member. -/
def sectionIsForeign (inputFile : Text) (members : List MachOArchiveMemberIdentity)
    (s : FilePatchSectionState) : Bool :=
  match parsePatchInputRef inputFile s.input with
  | .ok (some input) =>
    archiveMemberPatchIdentifier input.identifier ∉ members.map (·.normalizedIdentifier)
  | _ => true

def SectionsInvalid (inputFile : Text) (kind : MachOArchiveActivationKind)
    (members : List MachOArchiveMemberIdentity) (sections : List FilePatchSectionState) : Prop :=
  (kind.isChangedDefinitions = true ∧ sections ≠ [])
    ∨ ∃ s ∈ sections, sectionIsForeign inputFile members s = true

instance (inputFile : Text) (kind : MachOArchiveActivationKind)
    (members : List MachOArchiveMemberIdentity) (sections : List FilePatchSectionState) :
    Decidable (SectionsInvalid inputFile kind members sections) :=
  inferInstanceAs (Decidable (_ ∨ _))

/-- An active state of added members that still has dormant records. -/
def HasDormantRecords (kind : MachOArchiveActivationKind) (active : Bool)
    (sections : List FilePatchSectionState) (relocations : List RelocationRecord)
    (symbolResolutions : List MachOSymbolResolutionRecord) : Prop :=
  kind = .addedMembers ∧ active = true
    ∧ (relocations ≠ [] ∨ (sections ≠ [] ∧ symbolResolutions ≠ []))

instance (kind : MachOArchiveActivationKind) (active : Bool)
    (sections : List FilePatchSectionState) (relocations : List RelocationRecord)
    (symbolResolutions : List MachOSymbolResolutionRecord) :
    Decidable (HasDormantRecords kind active sections relocations symbolResolutions) :=
  inferInstanceAs (Decidable (_ ∧ _))

/-- The two unwind versions do not fit together. -/
def UnwindVersionsDiffer (transaction : MachOArchiveUnwindTransactionState) : Prop :=
  transaction.forward.ehFrameReserve.stop ≠ transaction.rollback.ehFrameReserve.stop
    ∨ transaction.forward.commonMembers.map (·.normalizedIdentifier)
      ≠ transaction.rollback.commonMembers.map (·.normalizedIdentifier)

instance (transaction : MachOArchiveUnwindTransactionState) :
    Decidable (UnwindVersionsDiffer transaction) :=
  inferInstanceAs (Decidable (_ ∨ _))

/-- A dependency that is not an indirect one, or that is resolved elsewhere. -/
def DependencyInvalid (resolved : List MachOSymbolResolutionRecord)
    (dependency : MachOSymbolResolutionRecord) : Prop :=
  dependency.target.isSome = true ∨ dependency.directValue.isSome = true
    ∨ (dependency.gotAddress.isNone = true ∧ dependency.stubAddress.isNone = true
      ∧ dependency.thunkAddresses = [])
    ∨ dependency.name ∈ resolved.map (·.name)

instance (resolved : List MachOSymbolResolutionRecord)
    (dependency : MachOSymbolResolutionRecord) :
    Decidable (DependencyInvalid resolved dependency) :=
  inferInstanceAs (Decidable (_ ∨ _))

def IndirectDependenciesInvalid
    (symbolResolutions rollbackSymbolResolutions indirectDependencies :
      List MachOSymbolResolutionRecord) : Prop :=
  (∃ dependency ∈ indirectDependencies,
      DependencyInvalid (symbolResolutions ++ rollbackSymbolResolutions) dependency)
    ∨ ¬ (indirectDependencies.map (·.name)).Nodup

instance (symbolResolutions rollbackSymbolResolutions indirectDependencies :
    List MachOSymbolResolutionRecord) :
    Decidable (IndirectDependenciesInvalid symbolResolutions rollbackSymbolResolutions
      indirectDependencies) :=
  inferInstanceAs (Decidable (_ ∨ _))

/-- A change of definitions concerns one member and only its resolutions. -/
def ChangedDefinitionInvalid (kind : MachOArchiveActivationKind)
    (members : List MachOArchiveMemberIdentity) (relocations : List RelocationRecord)
    (symbolResolutions rollbackSymbolResolutions indirectDependencies :
      List MachOSymbolResolutionRecord) : Prop :=
  kind.isChangedDefinitions = true
    ∧ (members.length ≠ 1 ∨ relocations ≠ [] ∨ symbolResolutions = []
      ∨ indirectDependencies ≠ [] ∨ rollbackSymbolResolutions ≠ [])

instance (kind : MachOArchiveActivationKind)
    (members : List MachOArchiveMemberIdentity) (relocations : List RelocationRecord)
    (symbolResolutions rollbackSymbolResolutions indirectDependencies :
      List MachOSymbolResolutionRecord) :
    Decidable (ChangedDefinitionInvalid kind members relocations symbolResolutions
      rollbackSymbolResolutions indirectDependencies) :=
  inferInstanceAs (Decidable (_ ∧ _))

/-- The patches of the two directions do not pair up. -/
def TransactionIncomplete (forwardPatches rollbackPatches : List StoredOutputPatch) : Prop :=
  ¬ (forwardPatches = [] ↔ rollbackPatches = [])
    ∨ (forwardPatches ≠ []
      ∧ (forwardPatches.length ≠ rollbackPatches.length
        ∨ ∃ pair ∈ forwardPatches.zip rollbackPatches,
          pair.1.outputOffset ≠ pair.2.outputOffset ∨ pair.1.data.length ≠ pair.2.data.length))

instance (forwardPatches rollbackPatches : List StoredOutputPatch) :
    Decidable (TransactionIncomplete forwardPatches rollbackPatches) :=
  inferInstanceAs (Decidable (_ ∨ _))

/-- The check over all states at the end: a state without sections only binds symbols. -/
def checkSymbolOnly (inputFile : Text) (states : List MachOArchiveActivationState)
    (state : MachOArchiveActivationState) : Result Unit :=
  if state.kind = .addedMembers ∧ state.sections = [] then
    if state.relocations ≠ [] then
      .error "Invalid incremental symbol-only Mach-O archive member state"
    else do
      let valid ← symbolOnlyMachoArchiveTransactionIsValid inputFile state.members
        state.symbolResolutions state.forwardPatches state.rollbackPatches
      (if valid = true then .ok ()
      else do
        let counterpart ← symbolOnlyMachoArchiveTransactionHasExactCounterpart inputFile state
          states
        failIf (counterpart = false)
          "Invalid incremental symbol-only Mach-O archive member state")
  else .ok ()

/-! ## 7. Reading the states -/

/-- `String::from_utf8(hex::decode(field)?)?`. -/
def decodeField (field : Text) (invalid invalidUtf8 : String) : Result Text := do
  let bytes ← context (hexDecode field) invalid
  context (fromUtf8 bytes) invalidUtf8

def parseActivity (field : Text) : Result Bool :=
  if field = ['0'] then .ok false
  else if field = ['1'] then .ok true
  else .error "Invalid incremental Mach-O archive member activity"

/-- The kind of a state in front of its members; the oldest states have none. -/
def parseKind (encodedMembers : Text) : Result (MachOArchiveActivationKind × Text) :=
  match splitOnce '|' encodedMembers with
  | none => .ok (.addedMembers, encodedMembers)
  | some (kind, members) =>
    if kind = renderKind .addedMembers then .ok (.addedMembers, members)
    else if kind = renderKind .changedDefinitions then .ok (.changedDefinitions, members)
    else if kind = renderKind .changedDefinitionsWithUnwind then
      .ok (.changedDefinitionsWithUnwind, members)
    else .error "Invalid incremental Mach-O archive state kind"

/-- The members of a state, and the identifiers taken after them. -/
def parseMemberIdentities :
    List Text → List Bytes → Result (List MachOArchiveMemberIdentity × List Bytes)
  | [], identifiers => .ok ([], identifiers)
  | encoded :: rest, identifiers => do
    let (identifier, objectHash) ← context (splitOnce '=' encoded)
      "Malformed incremental Mach-O archive member identity"
    let normalizedIdentifier ← context (hexDecode identifier)
      "Invalid incremental Mach-O archive member identifier"
    failIf (normalizedIdentifier = [] ∨ normalizedIdentifier ∈ identifiers
        ∨ ¬ isBlake3HexDigest objectHash)
      "Invalid incremental Mach-O archive member identity"
    let (members, identifiers) ← parseMemberIdentities rest (normalizedIdentifier :: identifiers)
    return ({ normalizedIdentifier, objectHash } :: members, identifiers)

def parseIndirectDependencies : Option Text → Result (List MachOSymbolResolutionRecord)
  | none => .ok []
  | some field => do
    let contents ← decodeField field "Invalid incremental Mach-O archive indirect dependencies"
      "Invalid UTF-8 in incremental Mach-O archive indirect dependencies"
    parseMachoSymbolResolutions (lines contents)

def parseUnwindTransaction : Option Text → Result (Option MachOArchiveUnwindTransactionState)
  | none => .ok none
  | some field => do
    let contents ← decodeField field "Invalid incremental Mach-O archive unwind transaction"
      "Invalid UTF-8 in incremental Mach-O archive unwind transaction"
    parseMachoArchiveUnwindTransactionState contents

/-- The states read so far, with the identifiers that they took. -/
structure ParsedStates where
  states : List MachOArchiveActivationState
  memberIdentifiers : List Bytes
  definitionIdentifiers : List Bytes

/-- The identifiers a kind of state takes from. -/
def ParsedStates.identifiers (parsed : ParsedStates) (kind : MachOArchiveActivationKind) :
    List Bytes :=
  if kind.isChangedDefinitions then parsed.definitionIdentifiers else parsed.memberIdentifiers

/-- The states with one more, and the identifiers its kind takes from replaced. -/
def ParsedStates.push (parsed : ParsedStates) (state : MachOArchiveActivationState)
    (identifiers : List Bytes) : ParsedStates :=
  if state.kind.isChangedDefinitions then
    ⟨parsed.states ++ [state], parsed.memberIdentifiers, identifiers⟩
  else ⟨parsed.states ++ [state], identifiers, parsed.definitionIdentifiers⟩

/-- One state of eight, nine or ten fields. -/
def parseMachoArchiveMemberState (inputFile : Text) (parsed : ParsedStates) (parts : List Text) :
    Result ParsedStates := do
  let active ← parseActivity (column parts 0)
  let encodedMembers ← decodeField (column parts 1)
    "Invalid incremental Mach-O archive member identities"
    "Invalid UTF-8 in incremental Mach-O archive member identities"
  let (kind, encodedMembers) ← parseKind encodedMembers
  let (members, identifiers) ← parseMemberIdentities (split ',' encodedMembers)
    (parsed.identifiers kind)
  failIf (members = []) "Invalid incremental Mach-O archive member identity"
  let encodedSections ← decodeField (column parts 2)
    "Invalid incremental Mach-O archive member sections"
    "Invalid UTF-8 in incremental Mach-O archive member sections"
  let sections ← parsePatchSections inputFile encodedSections
  failIf (SectionsInvalid inputFile kind members sections)
    "Invalid incremental Mach-O archive member sections"
  let relocationContents ← decodeField (column parts 3)
    "Invalid incremental Mach-O archive member relocations"
    "Invalid UTF-8 in incremental Mach-O archive member relocations"
  let records ← parseCompactRecordsBlock (lines relocationContents)
  failIf (records.sections ≠ [] ∨ records.fdes ≠ [] ∨ records.dynamicRelocations ≠ [])
    "Invalid incremental Mach-O archive member relocation block"
  let resolutionContents ← decodeField (column parts 4)
    "Invalid incremental Mach-O archive member resolutions"
    "Invalid UTF-8 in incremental Mach-O archive member resolutions"
  let symbolResolutions ← parseMachoSymbolResolutions (lines resolutionContents)
  failIf (HasDormantRecords kind active sections records.relocations symbolResolutions)
    "Active incremental Mach-O archive member has dormant records"
  let rollbackContents ← decodeField (column parts 5)
    "Invalid incremental Mach-O archive rollback resolutions"
    "Invalid UTF-8 in incremental Mach-O archive rollback resolutions"
  let rollbackSymbolResolutions ← parseMachoSymbolResolutions (lines rollbackContents)
  let indirectDependencies ← parseIndirectDependencies parts[8]?
  let unwindTransaction ← parseUnwindTransaction parts[9]?
  failIf (unwindTransaction.any (fun transaction => UnwindVersionsDiffer transaction) = true)
    "Invalid incremental Mach-O archive unwind transaction versions"
  failIf (IndirectDependenciesInvalid symbolResolutions rollbackSymbolResolutions
      indirectDependencies)
    "Invalid incremental Mach-O archive indirect dependencies"
  failIf (ChangedDefinitionInvalid kind members records.relocations symbolResolutions
      rollbackSymbolResolutions indirectDependencies)
    "Invalid incremental Mach-O changed definition state"
  let encodedForward ← decodeField (column parts 6)
    "Invalid incremental Mach-O archive forward patches"
    "Invalid UTF-8 in incremental Mach-O archive forward patches"
  let forwardPatches ← parseStoredOutputPatches encodedForward
  let encodedRollback ← decodeField (column parts 7)
    "Invalid incremental Mach-O archive rollback patches"
    "Invalid UTF-8 in incremental Mach-O archive rollback patches"
  let rollbackPatches ← parseStoredOutputPatches encodedRollback
  failIf (TransactionIncomplete forwardPatches rollbackPatches)
    "Incremental Mach-O archive transaction is incomplete"
  return parsed.push
    { kind, members, active, sections, relocations := records.relocations, symbolResolutions
      indirectDependencies, rollbackSymbolResolutions, forwardPatches, rollbackPatches
      unwindTransaction } identifiers

/-- `empty_rollback_resolutions`. -/
def emptyRollbackResolutions : Text := hexField (renderResolutions [])

/-- A state of six fields, the identifier and the hash of its one member apart, as eight. -/
def legacySixFields (parts : List Text) : List Text :=
  [column parts 0, hexField (join '=' [column parts 1, column parts 2]), column parts 3,
    column parts 4, column parts 5, emptyRollbackResolutions, hexField [], hexField []]

/-- A state of seven fields, without rollback resolutions, as eight. -/
def legacySevenFields (parts : List Text) : List Text :=
  [column parts 0, column parts 1, column parts 2, column parts 3, column parts 4,
    emptyRollbackResolutions, column parts 5, column parts 6]

/-- The members of the states a legacy text was read as are claimed one by one. -/
def pushLegacyStates (parsed : ParsedStates) :
    List MachOArchiveActivationState → Result ParsedStates
  | [] => .ok parsed
  | state :: rest => do
    let identifiers := state.members.map (·.normalizedIdentifier)
    failIf (¬ identifiers.Nodup ∨ ∃ identifier ∈ identifiers, identifier ∈ parsed.memberIdentifiers)
      "Invalid incremental Mach-O archive member identity"
    pushLegacyStates ⟨parsed.states ++ [state], identifiers.reverse ++ parsed.memberIdentifiers,
      parsed.definitionIdentifiers⟩ rest

/-- The body of the loop over the states.  `parseLegacy` is the function itself, called again on
a text of eight fields. -/
def parseEncodedState (parseLegacy : Text → Result (List MachOArchiveActivationState))
    (inputFile : Text) (parsed : ParsedStates) (encoded : Text) : Result ParsedStates :=
  let parts := split ':' encoded
  if parts.length = 6 then do
    let normalizedIdentifier ← context (hexDecode (column parts 1))
      "Invalid incremental Mach-O archive member identifier"
    let legacy ← parseLegacy (join ':' (legacySixFields parts))
    let state ← context legacy.getLast? "Missing legacy incremental Mach-O archive member state"
    failIf (normalizedIdentifier ∈ parsed.memberIdentifiers)
      "Invalid incremental Mach-O archive member identity"
    return ⟨parsed.states ++ [state], normalizedIdentifier :: parsed.memberIdentifiers,
      parsed.definitionIdentifiers⟩
  else if parts.length = 7 then do
    let legacy ← parseLegacy (join ':' (legacySevenFields parts))
    pushLegacyStates parsed legacy
  else if parts.length ≠ 8 ∧ parts.length ≠ 9 ∧ parts.length ≠ 10 then
    .error "Malformed incremental Mach-O archive member state"
  else parseMachoArchiveMemberState inputFile parsed parts

def parseStatesWith (parseLegacy : Text → Result (List MachOArchiveActivationState))
    (inputFile encodedStates : Text) : Result (List MachOArchiveActivationState) :=
  if encodedStates = [] then .error "Malformed incremental Mach-O archive member state"
  else do
    let parsed ← (split ';' encodedStates).foldlM (parseEncodedState parseLegacy inputFile)
      ⟨[], [], []⟩
    parsed.states.forM (checkSymbolOnly inputFile parsed.states)
    return parsed.states

/-- `parse_macho_archive_member_states`.  The text the function calls itself on has eight fields
(`length_split_legacy`), so the inner call does not call it again. -/
def parseMachoArchiveMemberStates (inputFile encodedStates : Text) :
    Result (List MachOArchiveActivationState) :=
  parseStatesWith (parseStatesWith (fun _ => .error "unreachable") inputFile) inputFile
    encodedStates

end Srs.Incremental
