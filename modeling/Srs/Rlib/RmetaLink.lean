/-
# The link metadata of a Rust library

`rmeta_link.rs`: an rlib has one member that says which of its other members are Rust objects.
Behind the list, which `rustc_serialize` encodes, stand up to two trailers: the digests of the raw
objects, with a prefix in front and their length behind, and the digest of what is linked, with a
prefix and of one length.  A reader finds them from the end of the data.

`incremental.rs` of the linker has readers of its own for the two trailers
(`decode_rustc_rlib_link_content_digest`, `decode_rustc_rlib_raw_object_digests`).

The names of the object files are only ever encoded and decoded, so a `String` there is its bytes.
BLAKE3 is any function from bytes to bytes.
-/
import Srs.Incremental.InputLine
import Srs.Lib.LeBytes
import Srs.Lib.Leb128
import Srs.Lib.Trailers

namespace Srs.Rlib

open Bytes LeBytes Leb128 Trailers
open Incremental (isBlake3HexDigest RustcRlibRawObjectDigest u64LeBytes)

/-! ## 1. Readers -/

/-- How a reader stops: it finds nothing, `rustc_serialize` panics, or a range that it takes does
not lie inside the data. -/
inductive Stop
  | absent
  | decoder
  | outOfBounds
  deriving DecidableEq

abbrev Decoded (α : Type) := Except Stop α

/-- `option?`. -/
def orAbsent {α : Type} : Option α → Decoded α
  | some a => .ok a
  | none => .error .absent

/-- `if !condition { return None; }`. -/
def require (condition : Prop) [Decidable condition] : Decoded Unit :=
  if condition then .ok () else .error .absent

/-- `&data[..stop]`. -/
def sliceTo (data : Bytes) (stop : Nat) : Decoded Bytes :=
  if stop ≤ data.length then .ok (data.take stop) else .error .outOfBounds

/-! ## 2. `rustc_serialize` -/

def MAGIC_END_BYTES : Bytes := utf8 "rust-end-file".toList
def STR_SENTINEL : UInt8 := 0xC1

/-- `emit_str`. -/
def emitStr (s : Bytes) : Bytes := writeLeb s.length ++ s ++ [STR_SENTINEL]

/-- `Vec<String>::encode`. -/
def encodeStrings (strings : List Bytes) : Bytes :=
  writeLeb strings.length ++ strings.flatMap emitStr

/-- A read of the decoder, which panics where the data ends. -/
def orExhausted {α : Type} : Option α → Decoded α
  | some a => .ok a
  | none => .error .decoder

/-- `read_str`.  The bytes are not checked to be UTF-8. -/
def readStr (data : Bytes) : Decoded (Bytes × Bytes) := do
  let (len, data) ← orExhausted (readLeb data)
  let (raw, data) ← orExhausted (takeExact ((len + 1) % 2 ^ 64) data)
  let last ← orExhausted raw[len]?
  if last = STR_SENTINEL then .ok (raw.take len, data) else .error .decoder

def decodeStringsFrom : Nat → Bytes → Decoded (List Bytes × Bytes)
  | 0, data => .ok ([], data)
  | count + 1, data => do
    let (s, data) ← readStr data
    let (rest, data) ← decodeStringsFrom count data
    .ok (s :: rest, data)

/-- `Vec<String>::decode`. -/
def decodeStrings (data : Bytes) : Decoded (List Bytes) := do
  let (len, data) ← orExhausted (readLeb data)
  let (strings, _) ← decodeStringsFrom len data
  .ok strings

/-! ## 3. The compiler's side -/

def LINK_CONTENT_DIGEST_PREFIX : Bytes := utf8 "rustc-rlib-link-content-v1:".toList
def RAW_OBJECT_DIGESTS_PREFIX : Bytes := utf8 "rustc-rlib-raw-object-digests-v1:".toList
def BLAKE3_HEX_DIGEST_LEN : Nat := 64

structure RawObjectDigest where
  memberName : Text
  digest : Text
  deriving DecidableEq

structure RmetaLink where
  rustObjectFiles : List Bytes
  rawObjectDigests : Option (List RawObjectDigest)
  linkContentDigest : Option Text
  deriving DecidableEq

/-- What `encode_raw_object_digests` and its readers accept of an object. -/
def RawObjectDigest.valid (object : RawObjectDigest) : Bool :=
  object.memberName ≠ [] ∧ isBlake3HexDigest object.digest = true

def encodeRawObject (object : RawObjectDigest) : Bytes :=
  leBytes 8 (utf8 object.memberName).length ++ utf8 object.memberName ++ utf8 object.digest

def encodeRawObjectDigests (rawObjectDigests : List RawObjectDigest) : Option Bytes :=
  if rawObjectDigests.any (fun object => !object.valid) then none
  else some (leBytes 8 rawObjectDigests.length ++ rawObjectDigests.flatMap encodeRawObject)

/-- The first trailer. -/
def rawObjectTrailer (rawObjectDigests : Option (List RawObjectDigest)) : Bytes :=
  match rawObjectDigests.bind encodeRawObjectDigests with
  | some payload => RAW_OBJECT_DIGESTS_PREFIX ++ payload ++ leBytes 8 payload.length
  | none => []

/-- The second trailer. -/
def linkContentTrailer (linkContentDigest : Option Text) : Bytes :=
  match linkContentDigest.filter isBlake3HexDigest with
  | some digest => LINK_CONTENT_DIGEST_PREFIX ++ utf8 digest
  | none => []

/-- `RmetaLink::encode`. -/
def RmetaLink.encode (m : RmetaLink) : Bytes :=
  encodeStrings m.rustObjectFiles ++ rawObjectTrailer m.rawObjectDigests
    ++ linkContentTrailer m.linkContentDigest ++ MAGIC_END_BYTES

/-- `link_content_digest`. -/
def linkContentDigest (blake3 : Bytes → Bytes) (objects : List (Text × Text)) : Option Text :=
  if objects.any (fun object => !isBlake3HexDigest object.2) then none
  else some (hexEncode (blake3 (utf8 "rustc-rlib-link-content-v1".toList
    ++ leBytes 8 objects.length
    ++ objects.flatMap fun object =>
        leBytes 8 (utf8 object.1).length ++ utf8 object.1 ++ utf8 object.2)))

/-- A digest in bytes. -/
def readDigest (bytes : Bytes) : Decoded Text := do
  let digest ← orAbsent (fromUtf8 bytes)
  require (isBlake3HexDigest digest = true)
  .ok digest

/-- `decode_link_content_digest`. -/
def decodeLinkContentDigest (data : Bytes) : Decoded Text := do
  let data ← orAbsent (stripSuffix MAGIC_END_BYTES data)
  let suffixLen := LINK_CONTENT_DIGEST_PREFIX.length + BLAKE3_HEX_DIGEST_LEN
  let start ← orAbsent (checkedSub data.length suffixLen)
  let suffix ← orAbsent (getRange data start data.length)
  let digest ← orAbsent (stripPrefix LINK_CONTENT_DIGEST_PREFIX suffix)
  readDigest digest

/-- Whether `strip_link_content_digest_suffix` finds a trailer behind `start`. -/
def hasLinkContentDigest (data : Bytes) (start : Nat) : Bool :=
  match (getRange data start data.length).bind (stripPrefix LINK_CONTENT_DIGEST_PREFIX) with
  | none => false
  | some digest =>
    match fromUtf8 digest with
    | none => false
    | some digest => isBlake3HexDigest digest

/-- `strip_link_content_digest_suffix`. -/
def stripLinkContentDigestSuffix (data : Bytes) : Decoded Bytes :=
  match checkedSub data.length (LINK_CONTENT_DIGEST_PREFIX.length + BLAKE3_HEX_DIGEST_LEN) with
  | none => .ok data
  | some start => if hasLinkContentDigest data start then sliceTo data start else .ok data

/-- `decode_u64`. -/
def decodeU64 (data : Bytes) : Option Nat := if data.length = 8 then some (leValue data) else none

/-- `decode_u64(take(&mut payload, 8)?)?`. -/
def takeU64 (payload : Bytes) : Decoded (Nat × Bytes) := do
  let (word, payload) ← orAbsent (takeExact 8 payload)
  let value ← orAbsent (decodeU64 word)
  .ok (value, payload)

/-- The loop of `decode_raw_object_digests`. -/
def decodeRawObjects : Nat → Bytes → Decoded (List RawObjectDigest × Bytes)
  | 0, payload => .ok ([], payload)
  | count + 1, payload => do
    let (memberNameLen, payload) ← takeU64 payload
    let (memberName, payload) ← orAbsent (takeExact memberNameLen payload)
    let memberName ← orAbsent (fromUtf8 memberName)
    let (digest, payload) ← orAbsent (takeExact BLAKE3_HEX_DIGEST_LEN payload)
    let digest ← orAbsent (fromUtf8 digest)
    require (memberName ≠ [] ∧ isBlake3HexDigest digest = true)
    let (rest, payload) ← decodeRawObjects count payload
    .ok (⟨memberName, digest⟩ :: rest, payload)

/-- The payload of the trailer of raw objects, which ends `data`. -/
def rawObjectPayload (data : Bytes) : Decoded Bytes := do
  let trailerLenOffset ← orAbsent (checkedSub data.length 8)
  let word ← orAbsent (getRange data trailerLenOffset data.length)
  let trailerLen ← orAbsent (decodeU64 word)
  let payloadOffset ← orAbsent (checkedSub trailerLenOffset trailerLen)
  let prefixOffset ← orAbsent (checkedSub payloadOffset RAW_OBJECT_DIGESTS_PREFIX.length)
  let start ← orAbsent
    (getRange data prefixOffset (prefixOffset + RAW_OBJECT_DIGESTS_PREFIX.length))
  require (start = RAW_OBJECT_DIGESTS_PREFIX)
  orAbsent (getRange data (prefixOffset + RAW_OBJECT_DIGESTS_PREFIX.length) trailerLenOffset)

/-- `decode_raw_object_digests`. -/
def decodeRawObjectDigests (data : Bytes) : Decoded (List RawObjectDigest) := do
  let data ← orAbsent (stripSuffix MAGIC_END_BYTES data)
  let data ← stripLinkContentDigestSuffix data
  let payload ← rawObjectPayload data
  let (objectCount, payload) ← takeU64 payload
  require (objectCount ≤ payload.length / (8 + BLAKE3_HEX_DIGEST_LEN))
  let (objects, payload) ← decodeRawObjects objectCount payload
  require (payload = [])
  .ok objects

/-- What a reader finds, where nothing is no failure. -/
def optional {α : Type} : Decoded α → Decoded (Option α)
  | .ok a => .ok (some a)
  | .error .absent => .ok none
  | .error stop => .error stop

/-- `RmetaLink::decode`. -/
def RmetaLink.decode (data : Bytes) : Decoded RmetaLink := do
  let body ← orAbsent (stripSuffix MAGIC_END_BYTES data)
  let rustObjectFiles ← decodeStrings body
  let rawObjectDigests ← optional (decodeRawObjectDigests data)
  let linkContentDigest ← optional (decodeLinkContentDigest data)
  .ok ⟨rustObjectFiles, rawObjectDigests, linkContentDigest⟩

/-! ## 4. The linker's side -/

def RUSTC_SERIALIZED_METADATA_END : Bytes := utf8 "rust-end-file".toList
def RUSTC_RLIB_LINK_CONTENT_DIGEST_PREFIX : Bytes := utf8 "rustc-rlib-link-content-v1:".toList
def RUSTC_RLIB_RAW_OBJECT_DIGESTS_PREFIX : Bytes :=
  utf8 "rustc-rlib-raw-object-digests-v1:".toList
def BLAKE3_OUT_LEN : Nat := 32

/-- `decode_rustc_rlib_link_content_digest`. -/
def decodeRustcRlibLinkContentDigest (metadata : Bytes) : Decoded Text := do
  let metadata ← orAbsent (stripSuffix RUSTC_SERIALIZED_METADATA_END metadata)
  let suffixLen := RUSTC_RLIB_LINK_CONTENT_DIGEST_PREFIX.length + BLAKE3_OUT_LEN * 2
  let start ← orAbsent (checkedSub metadata.length suffixLen)
  let suffix ← orAbsent (getRange metadata start metadata.length)
  let digest ← orAbsent (stripPrefix RUSTC_RLIB_LINK_CONTENT_DIGEST_PREFIX suffix)
  readDigest digest

/-- The digest that the trailer behind `suffixStart` holds. -/
def linkContentSuffix (metadata : Bytes) (suffixStart : Nat) : Option Text := do
  let suffix ← getRange metadata suffixStart metadata.length
  let digest ← stripPrefix RUSTC_RLIB_LINK_CONTENT_DIGEST_PREFIX suffix
  let digest ← fromUtf8 digest
  if isBlake3HexDigest digest then some digest else none

/-- The metadata without the trailer of the linked content. -/
def withoutLinkContentSuffix (metadata : Bytes) : Decoded Bytes :=
  match checkedSub metadata.length
      (RUSTC_RLIB_LINK_CONTENT_DIGEST_PREFIX.length + BLAKE3_OUT_LEN * 2) with
  | none => .ok metadata
  | some suffixStart =>
    match linkContentSuffix metadata suffixStart with
    | some _ => sliceTo metadata suffixStart
    | none => .ok metadata

/-- `take_u64_le`. -/
def takeU64Le (bytes : Bytes) : Decoded (Nat × Bytes) := do
  let (word, bytes) ← orAbsent (takeExact 8 bytes)
  let value ← orAbsent (decodeU64 word)
  .ok (value, bytes)

/-- The loop of `decode_rustc_rlib_raw_object_digests`. -/
def decodeRustcRlibRawObjects :
    Nat → Bytes → Decoded (List RustcRlibRawObjectDigest × Bytes)
  | 0, payload => .ok ([], payload)
  | count + 1, payload => do
    let (identifierLen, payload) ← takeU64Le payload
    let (identifier, payload) ← orAbsent (takeExact identifierLen payload)
    require (identifier ≠ [])
    let (digest, payload) ← orAbsent (takeExact (BLAKE3_OUT_LEN * 2) payload)
    let digest ← orAbsent (fromUtf8 digest)
    require (isBlake3HexDigest digest = true)
    let (rest, payload) ← decodeRustcRlibRawObjects count payload
    .ok (⟨identifier, digest⟩ :: rest, payload)

/-- The payload of the trailer of raw objects, which ends `metadata`. -/
def rustcRlibRawObjectPayload (metadata : Bytes) : Decoded Bytes := do
  let lenOffset ← orAbsent (checkedSub metadata.length 8)
  let word ← orAbsent (getRange metadata lenOffset metadata.length)
  let payloadLen ← orAbsent (decodeU64 word)
  let payloadEnd ← orAbsent (checkedSub metadata.length 8)
  let payloadStart ← orAbsent (checkedSub payloadEnd payloadLen)
  let prefixStart ← orAbsent
    (checkedSub payloadStart RUSTC_RLIB_RAW_OBJECT_DIGESTS_PREFIX.length)
  let start ← orAbsent (getRange metadata prefixStart payloadStart)
  require (start = RUSTC_RLIB_RAW_OBJECT_DIGESTS_PREFIX)
  orAbsent (getRange metadata payloadStart payloadEnd)

/-- `decode_rustc_rlib_raw_object_digests`. -/
def decodeRustcRlibRawObjectDigests (metadata : Bytes) :
    Decoded (List RustcRlibRawObjectDigest) := do
  let metadata ← orAbsent (stripSuffix RUSTC_SERIALIZED_METADATA_END metadata)
  let metadata ← withoutLinkContentSuffix metadata
  let payload ← rustcRlibRawObjectPayload metadata
  let (objectCount, payload) ← takeU64Le payload
  require (objectCount ≤ payload.length / (8 + BLAKE3_OUT_LEN * 2))
  let (objects, payload) ← decodeRustcRlibRawObjects objectCount payload
  require (payload = [])
  .ok objects

end Srs.Rlib
