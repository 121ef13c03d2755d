/-
# The line of an input file

The index of an incremental state has one line per input file.  Its first seven columns are
always there: the path, the length, the hash and the identity of the content, the fingerprint
and the sections of the patch state, and the identity of the snapshot.  The other five (the
proof about the members of an archive, the fingerprints of its members, the digest of the
content of a Rust library, its object manifest and the Mach-O archive states) came with later
versions.  `render_input_line_rest` writes such a column when it is present, writes the absent
marker when a later column is, and otherwise leaves it out.

This file is the model of the writer and of `parse_input_line`.  The digest of an object
manifest is a BLAKE3 hash; the hash function is a parameter.
-/
import Mathlib.Data.List.ReduceOption
import Srs.Incremental.MachOArchiveState

namespace Srs.Incremental

open Text Bytes Decimal

/-! ## 1. What is known about an input file -/

structure FileIdentity where
  len : UInt64
  dev : UInt64
  ino : UInt64
  modifiedSec : Int64
  modifiedNsec : Int64
  changedSec : Int64
  changedNsec : Int64
  deriving DecidableEq

structure FileContentState where
  len : UInt64
  hash : Text
  identity : Option FileIdentity
  deriving DecidableEq

structure ArchiveMemberSetProof where
  rawOrderedHash : Text
  normalizedOrderedHash : Text
  memberCount : UInt64
  rustcLinkContentDigest : Option Text
  deriving DecidableEq

structure ArchiveMemberPatchFingerprint where
  archiveMemberIndex : UInt64
  identifier : Bytes
  dataLen : UInt64
  rangesHash : Text
  rustcObjectDigest : Text
  fingerprint : Text
  deriving DecidableEq

structure RustcRlibRawObjectDigest where
  identifier : Bytes
  digest : Text
  deriving DecidableEq

structure RustcRlibRawObjectManifest where
  linkContentDigest : Text
  orderedObjects : List RustcRlibRawObjectDigest
  deriving DecidableEq

structure FilePatchState where
  fingerprint : Text
  archiveMemberSetProof : Option ArchiveMemberSetProof
  archiveMemberPatchFingerprints : Option (List ArchiveMemberPatchFingerprint)
  machoArchiveMembers : List MachOArchiveActivationState
  sections : List FilePatchSectionState
  rawSections : Option Text
  deriving DecidableEq

structure FileState where
  path : Text
  content : FileContentState
  snapshotIdentity : Option FileIdentity
  rustcLinkContentDigest : Option Text
  rustcRawObjectManifest : Option RustcRlibRawObjectManifest
  patch : Option FilePatchState
  deriving DecidableEq

/-- Whether the sections of a patch state are parsed, or kept as the text they were read from. -/
inductive PatchSectionReadMode
  | parse
  | preserveRaw
  deriving DecidableEq

/-! ## 2. File identities -/

/-- `FileIdentity::render`. -/
def FileIdentity.render (identity : FileIdentity) : Text :=
  join ':' [Decimal.render identity.len, Decimal.render identity.dev, Decimal.render identity.ino,
    Decimal.render identity.modifiedSec, Decimal.render identity.modifiedNsec,
    Decimal.render identity.changedSec, Decimal.render identity.changedNsec]

/-- An identity, or the absent marker. -/
def renderIdentity (identity : Option FileIdentity) : Text :=
  (identity.map FileIdentity.render).getD absentField

/-- `FileIdentity::parse`. -/
def FileIdentity.parse (value : Text) : Result (Option FileIdentity) :=
  if value = absentField then .ok none
  else do
    let parts := split ':' value
    let (len, parts) ← nextNumber parts "Malformed incremental file identity `len`"
      "Invalid incremental file identity length"
    let (dev, parts) ← nextNumber parts "Malformed incremental file identity `dev`"
      "Invalid incremental file identity device"
    let (ino, parts) ← nextNumber parts "Malformed incremental file identity `ino`"
      "Invalid incremental file identity inode"
    let (modifiedSec, parts) ← nextNumber parts "Malformed incremental file identity `mtime`"
      "Invalid incremental file identity mtime"
    let (modifiedNsec, parts) ← nextNumber parts
      "Malformed incremental file identity `mtime_nsec`"
      "Invalid incremental file identity mtime_nsec"
    let (changedSec, parts) ← nextNumber parts "Malformed incremental file identity `ctime`"
      "Invalid incremental file identity ctime"
    let (changedNsec, parts) ← nextNumber parts
      "Malformed incremental file identity `ctime_nsec`"
      "Invalid incremental file identity ctime_nsec"
    noMoreParts parts "Malformed incremental file identity"
    return some { len, dev, ino, modifiedSec, modifiedNsec, changedSec, changedNsec }

/-- `parts.next().map(FileIdentity::parse).transpose()?.flatten()`. -/
def parseIdentityColumn (part : Option Text) : Result (Option FileIdentity) :=
  match part with
  | none => .ok none
  | some value => FileIdentity.parse value

/-! ## 3. The proof about the members of an archive -/

/-- `render_archive_member_set_proof`. -/
def renderArchiveMemberSetProof (proof : ArchiveMemberSetProof) : Text :=
  join ':' [proof.rawOrderedHash, proof.normalizedOrderedHash, render proof.memberCount,
    proof.rustcLinkContentDigest.getD absentField]

/-- The digest of the content of a Rust library, in a column of its own or in a proof. -/
def parseRustcLinkContentDigest (digest : Text) : Result Text := do
  failIf (isBlake3HexDigest digest = false) "Invalid incremental rustc rlib link-content digest"
  return digest

/-- `parts.next().filter(|part| *part != ABSENT_FIELD).map(parse).transpose()?`. -/
def parseOptionalColumn {α : Type} (parse : Text → Result α) (part : Option Text) :
    Result (Option α) :=
  match part.bind optionalText with
  | none => .ok none
  | some value => (parse value).map some

/-- `parse_archive_member_set_proof`. -/
def parseArchiveMemberSetProof (proof : Text) : Result ArchiveMemberSetProof := do
  let (rawOrderedHash, parts) ← nextPart (split ':' proof)
    "Malformed incremental archive member-set proof"
  let (normalizedOrderedHash, parts) ← nextPart parts
    "Malformed incremental archive member-set proof"
  let (memberCount, parts) ← nextNumber parts "Malformed incremental archive member-set proof"
    "Invalid incremental archive member-set count"
  let rustcLinkContentDigest ← parseOptionalColumn parseRustcLinkContentDigest parts.head?
  noMoreParts parts.tail "Malformed incremental archive member-set proof"
  return { rawOrderedHash, normalizedOrderedHash, memberCount, rustcLinkContentDigest }

/-! ## 4. The fingerprints of the members -/

def archiveMemberPatchFingerprintFields (fingerprint : ArchiveMemberPatchFingerprint) :
    List Text :=
  [render fingerprint.archiveMemberIndex, hexEncode fingerprint.identifier,
    render fingerprint.dataLen, fingerprint.rangesHash, fingerprint.rustcObjectDigest,
    fingerprint.fingerprint]

/-- `render_archive_member_patch_fingerprints`. -/
def renderArchiveMemberPatchFingerprints (fingerprints : List ArchiveMemberPatchFingerprint) :
    Text :=
  join ',' (fingerprints.map fun f => join ':' (archiveMemberPatchFingerprintFields f))

/-- One turn of the loop of `parse_archive_member_patch_fingerprints`; the indices seen so far
are those of the fingerprints already parsed. -/
def parseArchiveMemberPatchFingerprint (parsed : List ArchiveMemberPatchFingerprint)
    (encoded : Text) : Result (List ArchiveMemberPatchFingerprint) := do
  let malformed := "Malformed incremental archive member patch fingerprint"
  let (archiveMemberIndex, parts) ← nextNumber (split ':' encoded) malformed
    "Invalid incremental archive member patch fingerprint index"
  let (identifier, parts) ← nextPart parts malformed
  let identifier ← context (hexDecode identifier)
    "Invalid incremental archive member patch fingerprint identifier"
  let (dataLen, parts) ← nextNumber parts malformed
    "Invalid incremental archive member patch fingerprint data length"
  let (rangesHash, parts) ← nextPart parts malformed
  let (rustcObjectDigest, parts) ← nextPart parts malformed
  let (fingerprint, parts) ← nextPart parts malformed
  failIf (identifier = [] ∨ isBlake3HexDigest rangesHash = false
    ∨ isBlake3HexDigest rustcObjectDigest = false ∨ isBlake3HexDigest fingerprint = false
    ∨ parts ≠ [] ∨ archiveMemberIndex ∈ parsed.map (·.archiveMemberIndex)) malformed
  return parsed ++ [{ archiveMemberIndex, identifier, dataLen, rangesHash, rustcObjectDigest
                      fingerprint }]

/-- `parse_archive_member_patch_fingerprints`. -/
def parseArchiveMemberPatchFingerprints (fingerprints : Text) :
    Result (List ArchiveMemberPatchFingerprint) := do
  failIf (fingerprints = []) "Malformed incremental archive member patch fingerprints"
  (split ',' fingerprints).foldlM parseArchiveMemberPatchFingerprint []

/-! ## 5. The object manifest of a Rust library -/

/-- `u64::to_le_bytes`. -/
def u64LeBytes (n : Nat) : Bytes := (List.range 8).map fun i => UInt8.ofNat (n / 256 ^ i)

/-- The byte `.`. -/
def dot : UInt8 := 46

/-- `rustc_rlib_module_name_from_object_identifier`: the part of the name between its first
full stop and the one in front of the compiler's invocation. -/
def rustcRlibModuleNameFromObjectIdentifier (identifier : Bytes) : Option Bytes := do
  let ending := utf8 ".rcgu.o".toList
  let stem ← if ending <:+ identifier then
    some (identifier.take (identifier.length - ending.length)) else none
  let (invocation, outputFilestemAndModule) ← splitByte dot stem.reverse
  let (outputFilestem, moduleName) ← splitByte dot outputFilestemAndModule.reverse
  if outputFilestem ≠ [] ∧ moduleName ≠ [] ∧ invocation ≠ [] then some moduleName else none

/-- What one object adds to the hasher. -/
def rawObjectHashInput (object : RustcRlibRawObjectDigest) : Option Bytes := do
  let moduleName ← rustcRlibModuleNameFromObjectIdentifier object.identifier
  if moduleName = [] ∨ isBlake3HexDigest object.digest = false then none
  else some (u64LeBytes moduleName.length ++ moduleName ++ utf8 object.digest)

/-- `rustc_rlib_link_content_digest_from_raw_objects`. -/
def rustcRlibLinkContentDigestFromRawObjects (blake3Hex : Bytes → Text)
    (objects : List RustcRlibRawObjectDigest) : Option Text := do
  let updates ← objects.mapM rawObjectHashInput
  return blake3Hex (utf8 "rustc-rlib-link-content-v1".toList ++ u64LeBytes objects.length
    ++ updates.flatten)

def renderRawObject (object : RustcRlibRawObjectDigest) : Text :=
  join ':' [hexEncode object.identifier, object.digest]

/-- `render_rustc_rlib_raw_object_manifest`. -/
def renderRustcRlibRawObjectManifest (manifest : RustcRlibRawObjectManifest) : Text :=
  join ':' [manifest.linkContentDigest, render manifest.orderedObjects.length,
    join ',' (manifest.orderedObjects.map renderRawObject)]

/-- One turn of the loop over the objects of a manifest; the normalised identifiers seen so far
are those of the objects already parsed. -/
def parseRawObject (parsed : List RustcRlibRawObjectDigest) (encoded : Text) :
    Result (List RustcRlibRawObjectDigest) := do
  let (identifier, digest) ← context (splitOnce ':' encoded)
    "Malformed incremental rustc rlib raw-object manifest object"
  let identifier ← context (hexDecode identifier)
    "Invalid incremental rustc rlib raw-object manifest identifier"
  failIf (identifier = [] ∨ isBlake3HexDigest digest = false
    ∨ archiveMemberPatchIdentifier identifier
      ∈ parsed.map fun object => archiveMemberPatchIdentifier object.identifier)
    "Invalid incremental rustc rlib raw-object manifest object"
  return parsed ++ [{ identifier, digest }]

/-- `parse_rustc_rlib_raw_object_manifest`. -/
def parseRustcRlibRawObjectManifest (blake3Hex : Bytes → Text) (manifest : Text)
    (expectedLinkContentDigest : Option Text) : Result RustcRlibRawObjectManifest := do
  let malformed := "Malformed incremental rustc rlib raw-object manifest"
  let (linkContentDigest, parts) ← nextPart (splitn ':' 3 manifest) malformed
  failIf (isBlake3HexDigest linkContentDigest = false
      ∨ expectedLinkContentDigest ≠ some linkContentDigest)
    "Invalid incremental rustc rlib raw-object manifest digest"
  let (objectCount, parts) ← nextNumber (α := Nat) parts malformed
    "Invalid incremental rustc rlib raw-object manifest count"
  let (encodedObjects, _) ← nextPart parts malformed
  let orderedObjects ← (if encodedObjects = [] then [] else split ',' encodedObjects).foldlM
    parseRawObject []
  failIf (orderedObjects.length ≠ objectCount)
    "Incremental rustc rlib raw-object manifest count mismatch"
  failIf (rustcRlibLinkContentDigestFromRawObjects blake3Hex orderedObjects
      ≠ some linkContentDigest)
    "Incremental rustc rlib raw-object manifest content digest mismatch"
  return { linkContentDigest, orderedObjects }

/-! ## 6. Writing the line -/

/-- `render_patch_sections`: sections that were kept as text are written as that text. -/
def renderPatchSections (patch : FilePatchState) : Text :=
  match patch.sections, patch.rawSections with
  | [], some rawSections => rawSections
  | sections, _ => renderPatchSectionStates sections

/-- A later column that is absent is still written when `needed`. -/
def orAbsent (column : Option Text) (needed : Bool) : Option Text :=
  column.or (if needed then some absentField else none)

/-- The five columns that may be left out, last one first as the writer computes them. -/
def machoArchiveMembersColumn (input : FileState) : Option Text :=
  (input.patch.filter fun patch => patch.machoArchiveMembers ≠ []).map fun patch =>
    renderMachoArchiveMemberStates patch.machoArchiveMembers

def rustcRawObjectManifestColumn (input : FileState) : Option Text :=
  orAbsent
    ((input.rustcRawObjectManifest.filter fun manifest =>
      input.rustcLinkContentDigest = some manifest.linkContentDigest).map
        renderRustcRlibRawObjectManifest)
    (machoArchiveMembersColumn input).isSome

def rustcLinkContentDigestColumn (input : FileState) : Option Text :=
  orAbsent input.rustcLinkContentDigest
    ((rustcRawObjectManifestColumn input).isSome || (machoArchiveMembersColumn input).isSome)

def archiveMemberPatchFingerprintsColumn (input : FileState) : Option Text :=
  orAbsent
    ((input.patch.bind (·.archiveMemberPatchFingerprints)).map
      renderArchiveMemberPatchFingerprints)
    ((rustcLinkContentDigestColumn input).isSome || (machoArchiveMembersColumn input).isSome)

def archiveMemberSetProofColumn (input : FileState) : Option Text :=
  orAbsent
    ((input.patch.bind (·.archiveMemberSetProof)).map renderArchiveMemberSetProof)
    ((archiveMemberPatchFingerprintsColumn input).isSome
      || (rustcLinkContentDigestColumn input).isSome || (machoArchiveMembersColumn input).isSome)

/-- The columns that are written only when they are needed. -/
def laterInputColumns (input : FileState) : List Text :=
  List.reduceOption [archiveMemberSetProofColumn input, archiveMemberPatchFingerprintsColumn input,
    rustcLinkContentDigestColumn input, rustcRawObjectManifestColumn input,
    machoArchiveMembersColumn input]

def inputColumns (input : FileState) : List Text :=
  [input.path, render input.content.len, input.content.hash,
    renderIdentity input.content.identity, (input.patch.map (·.fingerprint)).getD absentField,
    (input.patch.map renderPatchSections).getD absentField,
    renderIdentity input.snapshotIdentity] ++ laterInputColumns input

/-- `render_input_line_rest`. -/
def renderInputLineRest (input : FileState) : Text := join '\t' (inputColumns input)

/-! ## 7. Reading the line -/

/-- The patch state of a line, when it has both a fingerprint and sections. -/
def parseFilePatchState (path : Text) (patchFingerprint patchSections : Option Text)
    (archiveMemberSetProof : Option ArchiveMemberSetProof)
    (archiveMemberPatchFingerprints : Option (List ArchiveMemberPatchFingerprint))
    (machoArchiveMembers : List MachOArchiveActivationState)
    (patchSectionMode : PatchSectionReadMode) : Result (Option FilePatchState) :=
  match patchFingerprint, patchSections with
  | some fingerprint, some rawSections =>
    match patchSectionMode with
    | .parse => do
      let sections ← parsePatchSections path rawSections
      return some { fingerprint, archiveMemberSetProof, archiveMemberPatchFingerprints
                    machoArchiveMembers, sections, rawSections := none }
    | .preserveRaw =>
      .ok (some { fingerprint, archiveMemberSetProof, archiveMemberPatchFingerprints
                  machoArchiveMembers, sections := [], rawSections := some rawSections })
  | _, _ => do
    failIf (machoArchiveMembers ≠ [])
      "Incremental Mach-O archive member state requires patch metadata"
    return none

/-- `parse_input_line`. -/
def parseInputLine (blake3Hex : Bytes → Text) (line : Text)
    (patchSectionMode : PatchSectionReadMode) : Result FileState := do
  let rest ← parsePrefixedLine (some line) "input"
  let (path, parts) ← nextPart (split '\t' rest) "Malformed incremental input path"
  let (len, parts) ← nextNumber parts "Malformed incremental input length"
    "Invalid incremental input length"
  let (hash, parts) ← nextPart parts "Malformed incremental input hash"
  let identity ← parseIdentityColumn parts[0]?
  let patchFingerprint := parts[1]?.bind optionalText
  let patchSections := parts[2]?.bind optionalText
  let snapshotIdentity ← parseIdentityColumn parts[3]?
  let archiveMemberSetProof ← parseOptionalColumn parseArchiveMemberSetProof parts[4]?
  let archiveMemberPatchFingerprints ← parseOptionalColumn parseArchiveMemberPatchFingerprints
    parts[5]?
  let rustcLinkContentDigest ← parseOptionalColumn parseRustcLinkContentDigest parts[6]?
  let rustcRawObjectManifest ← parseOptionalColumn
    (fun manifest => parseRustcRlibRawObjectManifest blake3Hex manifest rustcLinkContentDigest)
    parts[7]?
  let machoArchiveMembers ← parseOptionalColumn (parseMachoArchiveMemberStates path) parts[8]?
  let patch ← parseFilePatchState path patchFingerprint patchSections archiveMemberSetProof
    archiveMemberPatchFingerprints (machoArchiveMembers.getD []) patchSectionMode
  noMoreParts (parts.drop 9) "Malformed incremental input record"
  return { path, content := { len, hash, identity }, snapshotIdentity, rustcLinkContentDigest
           rustcRawObjectManifest, patch }

end Srs.Incremental
