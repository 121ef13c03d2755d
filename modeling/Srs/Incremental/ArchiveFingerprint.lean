/-
# The patch fingerprint of an archive

A changed input may be patched where it differs from the old one only in ranges that are patched.
Its fingerprint is a hash of everything else.  For an archive it is taken member by member
(`archive_patch_fingerprint_with_previous`), under names without the compiler's invocation.  A
library from rustc has a list of the digests of its raw objects; with it the fingerprint of a member
is stored, and taken over by the next link where name, length, masked ranges and digest agree.

The entries of an archive are given as they were read.  BLAKE3 is any function to 32 bytes.  Of an
object file the model has what the ranges act on: the places of its sections and of the values of
its symbols.  What is hashed besides is any function of these.
-/
import Srs.Lib.Masks
import Srs.Rlib.RmetaLink

namespace Srs.Incremental

open Bytes LeBytes Masks

/-! ## 1. Objects and archives -/

/-- What the fingerprint of a Mach-O object depends on.  A section without a file range has no data,
and a symbol may have no field for its value.  `hashed` is the stream that is hashed, from the data
of the sections that are not masked as a whole and from which values are masked. -/
structure MachOObject where
  sections : List (Option (Nat × Nat))
  valueFields : List (Option Nat)
  hashed : List (Option Bytes) → List Bool → Option Bytes

/-- The code outside. -/
structure FingerprintEnv where
  blake3 : Bytes → Bytes
  length_blake3 : ∀ bytes, (blake3 bytes).length = 32
  parseMachOObject : Bytes → Option MachOObject
  /-- The section of a library's metadata in the object that wraps it. -/
  linkMetadataSection : Bytes → Option Bytes

structure ArchiveContent where
  ident : Bytes
  entryData : Bytes
  dataOffset : Nat
  deriving DecidableEq

inductive ArchiveEntry
  | regular (content : ArchiveContent)
  | thin

/-- An archive and the ranges of it that are masked, as `normalize_patch_ranges` leaves them.
There are no entries if it cannot be read at all. -/
structure MaskedArchive where
  entries : Option (List (Except Text ArchiveEntry))
  ranges : List Interval
  sorted : ranges.Pairwise fun a b => a.stop ≤ b.start
  ordered : ∀ range ∈ ranges, range.start ≤ range.stop
  small : ∀ list ∈ entries, ∀ content, .ok (.regular content) ∈ list →
    content.entryData.length < 2 ^ 64

/-- The members, up to an error or a thin entry. -/
def readMembers : List (Except Text ArchiveEntry) → Except Text (Option (List ArchiveContent))
  | [] => .ok (some [])
  | .error e :: _ => .error e
  | .ok .thin :: _ => .ok none
  | .ok (.regular content) :: rest => (readMembers rest).map (·.map (content :: ·))

/-- The members of the archive, if it can be read and holds them itself. -/
def MaskedArchive.read (archive : MaskedArchive) : Except Text (Option (List ArchiveContent)) :=
  match archive.entries with
  | none => .ok none
  | some entries => readMembers entries

/-! ## 2. The fingerprint of a member -/

/-- `section.data()`. -/
def sectionData (bytes : Bytes) : Option (Nat × Nat) → Option Bytes
  | none => some []
  | some (offset, size) =>
    if offset + size ≤ bytes.length then some ((bytes.drop offset).take size) else none

/-- The data of a section with its ranges masked, if they do not cover it. -/
def maskedSection (fileOffset : Nat) (ranges : List Interval) :
    Option (Nat × Nat) → Bytes → Option Bytes
  | none, data => some (mask data fileOffset ranges)
  | some (offset, size), data =>
    if size ≠ 0 ∧ Covers ranges (fileOffset + offset) size then none
    else some (mask data (fileOffset + offset) ranges)

/-- Whether the value of a symbol is masked.  The field has to lie in the object. -/
def valueIsMasked (bytes : Bytes) (fileOffset : Nat) (ranges : List Interval) : Option Nat → Bool
  | none => false
  | some start => start + 8 ≤ bytes.length ∧ Covers ranges (fileOffset + start) 8

section

variable (env : FingerprintEnv)

/-- `macho_object_patch_fingerprint`. -/
def machoObjectPatchFingerprint (bytes : Bytes) (fileOffset : Nat) (ranges : List Interval) :
    Option Bytes := do
  let object ← env.parseMachOObject bytes
  let data ← object.sections.mapM (sectionData bytes)
  let hashed ← object.hashed (List.zipWith (maskedSection fileOffset ranges) object.sections data)
    (object.valueFields.map (valueIsMasked bytes fileOffset ranges))
  some (env.blake3 hashed)

/-- The fingerprint of a member that is not taken over. -/
def memberPatchFingerprint (data : Bytes) (dataOffset : Nat) (ranges : List Interval) : Bytes :=
  (machoObjectPatchFingerprint env data dataOffset ranges).getD
    (env.blake3 (utf8 "sld-archive-member-patch-fingerprint-v1".toList ++ leBytes 8 data.length
      ++ mask data dataOffset ranges))

/-- The ranges inside a member, as they are hashed. -/
def rangesBytes (ranges : List Interval) : Bytes :=
  utf8 "sld-archive-member-patch-ranges-v1".toList
    ++ ranges.flatMap fun range => leBytes 8 range.start ++ leBytes 8 range.stop

/-- `archive_member_patch_ranges_hash`. -/
def archiveMemberPatchRangesHash (dataOffset dataLen : Nat) (ranges : List Interval) : Text :=
  hexEncode (env.blake3 (rangesBytes (clipped dataOffset dataLen ranges)))

/-- `parse_blake3_hex_digest`. -/
def parseBlake3HexDigest (digest : Text) : Option Bytes :=
  if isBlake3HexDigest digest then hexDecode digest else none

/-! ## 3. The fingerprint of an archive -/

def RUSTC_RLIB_LINK_METADATA_MEMBER : Bytes := utf8 "lib.rmeta-link".toList
def PARALLEL_ARCHIVE_PATCH_FINGERPRINT_PREFIX : Text := "parallel-archive-members-v2:".toList

/-- The name under which a member is compared. -/
def ArchiveContent.identifier (content : ArchiveContent) : Bytes :=
  archiveMemberPatchIdentifier content.ident

/-- `rustc_rlib_raw_object_digests_from_wrapper`. -/
def rustcRlibRawObjectDigestsFromWrapper (data : Bytes) : Option (List RustcRlibRawObjectDigest) :=
  (env.linkMetadataSection data).bind fun metadata =>
    (Rlib.decodeRustcRlibRawObjectDigests metadata).toOption

/-- The list of digests, if the archive has one such member. -/
def rawObjectDigests (trustRustcObjectDigests : Bool) (members : List ArchiveContent) :
    Option (List RustcRlibRawObjectDigest) :=
  if trustRustcObjectDigests then
    match members.filter (·.ident = RUSTC_RLIB_LINK_METADATA_MEMBER) with
    | [content] => rustcRlibRawObjectDigestsFromWrapper env content.entryData
    | _ => none
  else none

/-- The digests as a map, unless two objects have one name in it. -/
def rustcObjectDigests (trustRustcObjectDigests : Bool) (members : List ArchiveContent) :
    Option (List RustcRlibRawObjectDigest) :=
  (rawObjectDigests env trustRustcObjectDigests members).filter fun objects =>
    (objects.map fun object => archiveMemberPatchIdentifier object.identifier).Nodup

/-- `digests.get(identifier)`. -/
def objectDigestOf (objects : List RustcRlibRawObjectDigest) (identifier : Bytes) : Option Text :=
  (objects.find? fun object => archiveMemberPatchIdentifier object.identifier = identifier).map
    (·.digest)

/-- The stored fingerprints as a map, which is cleared where a name comes twice. -/
def fingerprintsByIdentifier (previous : List ArchiveMemberPatchFingerprint) :
    List ArchiveMemberPatchFingerprint :=
  if (previous.map (·.identifier)).Nodup then previous else []

/-- `replacement_fingerprints`. -/
def replacementFingerprints (previous : List ArchiveMemberPatchFingerprint)
    (replacedIdentifiers : List Bytes) : Option (List ArchiveMemberPatchFingerprint) :=
  if replacedIdentifiers.Nodup then
    replacedIdentifiers.mapM fun identifier => previous.find? (·.identifier = identifier)
  else none

/-- What the loop over the members reads. -/
structure MemberContext where
  ranges : List Interval
  isRustArchive : Bool
  objectDigests : Option (List RustcRlibRawObjectDigest)
  previous : List ArchiveMemberPatchFingerprint
  ignoredIdentifiers : List Bytes
  replacements : List ArchiveMemberPatchFingerprint

namespace MemberContext

variable (context : MemberContext)

/-- The member is left out. -/
def skips (identifier : Bytes) : Bool :=
  identifier ∈ context.ignoredIdentifiers ∨ utf8 "__.SYMDEF".toList <+: identifier
    ∨ (context.isRustArchive = true
      ∧ (identifier = utf8 "lib.rmeta".toList ∨ identifier = utf8 "lib.rmeta-link".toList))

/-- The fingerprint of a replaced member. -/
def replaced (identifier : Bytes) : Option (Bytes × ArchiveMemberPatchFingerprint) := do
  let previous ← context.replacements.find? (·.identifier = identifier)
  let fingerprint ← parseBlake3HexDigest previous.fingerprint
  some (fingerprint, previous)

def rustcObjectDigest (identifier : Bytes) : Option Text :=
  context.objectDigests.bind (objectDigestOf · identifier)

def rangesHash (content : ArchiveContent) : Text :=
  archiveMemberPatchRangesHash env content.dataOffset content.entryData.length context.ranges

/-- The stored fingerprint of a member, if it is still valid. -/
def reused (index : Nat) (content : ArchiveContent) :
    Option (Bytes × ArchiveMemberPatchFingerprint) := do
  let rustcObjectDigest ← context.rustcObjectDigest content.identifier
  let previous ← context.previous.find? (·.identifier = content.identifier)
  if previous.dataLen = UInt64.ofNat content.entryData.length
      ∧ previous.rangesHash = context.rangesHash env content
      ∧ previous.rustcObjectDigest = rustcObjectDigest then
    let fingerprint ← parseBlake3HexDigest previous.fingerprint
    some (fingerprint, { previous with archiveMemberIndex := UInt64.ofNat index })
  else none

/-- The fingerprint of a member that is computed, and what is stored of it. -/
def computed (index : Nat) (content : ArchiveContent) :
    Bytes × Option ArchiveMemberPatchFingerprint :=
  let fingerprint :=
    memberPatchFingerprint env content.entryData content.dataOffset context.ranges
  (fingerprint, (context.rustcObjectDigest content.identifier).map fun rustcObjectDigest =>
    { archiveMemberIndex := UInt64.ofNat index
      identifier := content.identifier
      dataLen := UInt64.ofNat content.entryData.length
      rangesHash := context.rangesHash env content
      rustcObjectDigest
      fingerprint := hexEncode fingerprint })

/-- One turn of the loop over the members. -/
def memberHash (index : Nat) (content : ArchiveContent) :
    Option (Bytes × Option ArchiveMemberPatchFingerprint) :=
  if context.skips content.identifier then none
  else match context.replaced content.identifier with
    | some (fingerprint, previous) => some (fingerprint, some previous)
    | none => match context.reused env index content with
      | some (fingerprint, refreshed) => some (fingerprint, some refreshed)
      | none => some (context.computed env index content)

end MemberContext

/-- The results of the loop, for the members that are not left out. -/
def memberHashes (context : MemberContext) (members : List ArchiveContent) :
    List (Bytes × Bytes × Option ArchiveMemberPatchFingerprint) :=
  members.zipIdx.filterMap fun (content, index) =>
    (context.memberHash env index content).map fun hash => (content.identifier, hash)

/-- A fingerprint and what is stored for the members. -/
abbrev ArchiveFingerprint := Text × Option (List ArchiveMemberPatchFingerprint)

/-- The hash over the members, and their stored fingerprints. -/
def combineMemberHashes
    (hashes : List (Bytes × Bytes × Option ArchiveMemberPatchFingerprint)) : ArchiveFingerprint :=
  let stored := hashes.filterMap (·.2.2)
  (PARALLEL_ARCHIVE_PATCH_FINGERPRINT_PREFIX
    ++ hexEncode (env.blake3 (utf8 "sld-parallel-archive-patch-fingerprint-v2".toList
      ++ hashes.flatMap fun hash => leBytes 8 hash.1.length ++ hash.1 ++ hash.2.1)),
    if stored = [] then none else some stored)

/-- `archive_patch_fingerprint_with_previous`. -/
def archivePatchFingerprintWithPrevious (archive : MaskedArchive)
    (previous : Option (List ArchiveMemberPatchFingerprint)) (trustRustcObjectDigests : Bool)
    (ignoredIdentifiers replacedIdentifiers : List Bytes) :
    Except Text (Option ArchiveFingerprint) :=
  archive.read.map fun members => do
    let members ← members
    let previous := fingerprintsByIdentifier (previous.getD [])
    let replacements ← replacementFingerprints previous replacedIdentifiers
    some (combineMemberHashes env (memberHashes env
      { ranges := archive.ranges
        isRustArchive := members.any fun content => content.identifier ≠ content.ident
        objectDigests := rustcObjectDigests env trustRustcObjectDigests members
        previous
        ignoredIdentifiers
        replacements } members))

end

end Srs.Incremental
