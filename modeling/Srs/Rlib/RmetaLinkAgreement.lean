/-
# The compiler and the linker agree on the link metadata

What the compiler has written is read back by both sides (`decode_encode`, `linker_reads_encode`),
and on any bytes the linker finds every list that the compiler finds
(`decodeRustcRlibRawObjectDigests_of_ok`).  The two sides compute one digest of what is linked, as
long as no part of an object's name is empty (`rustcRlibLinkContentDigest_named`): the linker takes
no such name for one of a Rust object.
-/
import Srs.Rlib.RmetaLinkRoundTrip

namespace Srs.Rlib

open Bytes LeBytes Leb128 Trailers List Option RmetaLink
open Incremental (isBlake3HexDigest RustcRlibRawObjectDigest u64LeBytes dot splitByte
  rustcRlibModuleNameFromObjectIdentifier rawObjectHashInput
  rustcRlibLinkContentDigestFromRawObjects)

/-! ## 1. The compiler reads what it has written -/

/-- The digests of raw objects that are written. -/
def validRawObjects (objects : List RawObjectDigest) : Bool := objects.all (·.valid)

/-- What can be read of the metadata: an invalid digest or list of digests is not written. -/
def RmetaLink.readable (m : RmetaLink) : RmetaLink :=
  { m with
    rawObjectDigests := m.rawObjectDigests.filter validRawObjects
    linkContentDigest := m.linkContentDigest.filter isBlake3HexDigest }

variable {objects : List RawObjectDigest} {m : RmetaLink}

theorem encodeRawObjectDigests_isSome :
    (encodeRawObjectDigests objects).isSome = validRawObjects objects := by
  unfold encodeRawObjectDigests validRawObjects
  split
  · rename_i h
    rw [any_eq_not_all_not] at h
    simpa using h
  · rename_i h
    rw [any_eq_not_all_not] at h
    simpa using h

theorem leBytes_succ (k : Nat) : ∀ n, ∃ b : UInt8, b.toNat = n / 256 ^ k % 256 ∧
    leBytes (k + 1) n = leBytes k n ++ [b] := by
  induction k with
  | zero =>
    intro n
    refine ⟨UInt8.ofNat (n % 256), ?_, rfl⟩
    rw [UInt8.toNat_ofNat', Nat.pow_zero, Nat.div_one]
    omega
  | succ k ih =>
    intro n
    obtain ⟨b, hb, heq⟩ := ih (n / 256)
    refine ⟨b, ?_, ?_⟩
    · rw [hb, Nat.div_div_eq_div_mul, Nat.pow_succ, Nat.mul_comm]
    · rw [leBytes, heq, leBytes, cons_append]

/-- A length of this size ends with a zero. -/
theorem endsPlain_leBytes {n : Nat} (h : n < 2 ^ 48) (front : Bytes) :
    EndsPlain (front ++ leBytes 8 n) := by
  intro b hb hhex
  obtain ⟨last, hlast, heq⟩ := leBytes_succ 7 n
  rw [heq, ← List.append_assoc, getLast?_concat, some.injEq] at hb
  subst hb
  have hzero : n / 256 ^ 7 = 0 := Nat.div_eq_of_lt (Nat.lt_trans h (by decide))
  rw [hzero] at hlast
  have := hhex.1
  omega

/-- What stands in front of the trailer of the linked content. -/
def RmetaLink.body (m : RmetaLink) : Bytes :=
  encodeStrings m.rustObjectFiles ++ rawObjectTrailer m.rawObjectDigests

theorem RmetaLink.encode_eq (m : RmetaLink) :
    m.encode = m.body ++ linkContentTrailer m.linkContentDigest ++ MAGIC_END_BYTES := rfl

theorem RmetaLink.length_body_lt (h : m.encode.length < 2 ^ 48) :
    m.body.length < 2 ^ 48 := by
  rw [encode_eq, length_append, length_append] at h
  omega

theorem RmetaLink.body_of_valid
    (hraw : m.rawObjectDigests = some objects) (hvalid : validRawObjects objects = true) :
    ∃ payload, encodeRawObjectDigests objects = some payload ∧
      m.body = encodeStrings m.rustObjectFiles
        ++ (RAW_OBJECT_DIGESTS_PREFIX ++ payload ++ leBytes 8 payload.length) := by
  rw [← encodeRawObjectDigests_isSome] at hvalid
  obtain ⟨payload, hpayload⟩ := isSome_iff_exists.mp hvalid
  refine ⟨payload, hpayload, ?_⟩
  rw [body, rawObjectTrailer, hraw, bind_some, hpayload]

theorem RmetaLink.body_of_none (hraw : m.rawObjectDigests.filter validRawObjects = none) :
    m.body = encodeStrings m.rustObjectFiles := by
  have hnone : m.rawObjectDigests.bind encodeRawObjectDigests = none := by
    cases hobjects : m.rawObjectDigests with
    | none => rfl
    | some objects =>
      rw [hobjects, filter_some] at hraw
      rw [bind_some, ← isNone_iff_eq_none, ← not_isSome,
        encodeRawObjectDigests_isSome]
      split at hraw
      · cases hraw
      · rename_i h
        simpa using h
  rw [body, rawObjectTrailer, hnone, append_nil]

theorem RmetaLink.endsPlain_body (h : m.encode.length < 2 ^ 48) :
    EndsPlain m.body := by
  cases hraw : m.rawObjectDigests.filter validRawObjects with
  | none =>
    rw [body_of_none hraw]
    exact encodeStrings_endsPlain _
  | some objects =>
    obtain ⟨hraw, hvalid⟩ := filter_eq_some_iff.mp hraw
    obtain ⟨payload, -, hbody⟩ := body_of_valid hraw hvalid
    have hsize := length_body_lt h
    rw [hbody, length_append, length_append, length_append] at hsize
    rw [hbody, ← List.append_assoc]
    exact endsPlain_leBytes (by omega) _

theorem decodeRawObjectDigests_encode (h : m.encode.length < 2 ^ 48) :
    decodeRawObjectDigests m.encode = orAbsent (m.rawObjectDigests.filter validRawObjects) := by
  have hsize := length_body_lt h
  have hstrip := strip_linkContentTrailer (endsPlain_body h) m.linkContentDigest
  rw [encode_eq, decodeRawObjectDigests, stripSuffix_append, orAbsent_some, ok_bind,
    hstrip, ok_bind]
  cases hraw : m.rawObjectDigests.filter validRawObjects with
  | none =>
    rw [body_of_none hraw] at hsize ⊢
    rw [rawObjectPayload_encodeStrings hsize]
    rfl
  | some objects =>
    obtain ⟨hraw, hvalid⟩ := filter_eq_some_iff.mp hraw
    obtain ⟨payload, hpayload, hbody⟩ := body_of_valid hraw hvalid
    rw [hbody, length_append, length_append, length_append] at hsize
    obtain ⟨-, -, htake, hcount, hdecode⟩ := decode_payload hpayload (by omega)
    rw [hbody, rawObjectPayload_written (by omega), ok_bind, htake, ok_bind]
    have hle : require (objects.length
        ≤ (objects.flatMap encodeRawObject).length / (8 + BLAKE3_HEX_DIGEST_LEN)) = .ok () :=
      require_of hcount
    simp only [hle, ok_bind, hdecode, require_of, orAbsent_some]

theorem decodeLinkContentDigest_encode (h : m.encode.length < 2 ^ 48) :
    decodeLinkContentDigest m.encode = orAbsent (m.linkContentDigest.filter isBlake3HexDigest) :=
  decodeLinkContentDigest_written (endsPlain_body h) m.linkContentDigest

theorem optional_orAbsent {α : Type} (x : Option α) : optional (orAbsent x) = .ok x := by
  cases x <;> rfl

/-- **The compiler reads back what can be read.** -/
theorem decode_encode (h : m.encode.length < 2 ^ 48) :
    RmetaLink.decode m.encode = .ok m.readable := by
  have hbody := length_body_lt h
  rw [body, length_append] at hbody
  obtain ⟨hcount, hnames⟩ := length_le_encodeStrings m.rustObjectFiles
  have hstrings : decodeStrings (m.body ++ linkContentTrailer m.linkContentDigest)
      = .ok m.rustObjectFiles := by
    rw [body, List.append_assoc]
    refine decodeStrings_encodeStrings (by omega) (fun s hs => ?_) _
    have := hnames s hs
    omega
  have hsuffix : stripSuffix MAGIC_END_BYTES m.encode
      = some (m.body ++ linkContentTrailer m.linkContentDigest) := stripSuffix_append _ _
  rw [RmetaLink.decode, hsuffix, orAbsent_some, ok_bind, hstrings, ok_bind,
    decodeRawObjectDigests_encode h, optional_orAbsent, ok_bind, decodeLinkContentDigest_encode h,
    optional_orAbsent, ok_bind]
  rfl

/-! ## 2. The linker's readers -/

/-- A raw object as the linker keeps it. -/
def RawObjectDigest.linked (object : RawObjectDigest) : RustcRlibRawObjectDigest :=
  ⟨utf8 object.memberName, object.digest⟩

theorem linkContentSuffix_isSome (data : Bytes) (start : Nat) :
    (linkContentSuffix data start).isSome = hasLinkContentDigest data start := by
  rw [Bool.eq_iff_iff, hasLinkContentDigest_iff]
  constructor
  · intro h
    obtain ⟨digest, h⟩ := isSome_iff_exists.mp h
    obtain ⟨suffix, hsuffix, h⟩ := bind_eq_some_iff.mp h
    obtain ⟨bytes, hbytes, h⟩ := bind_eq_some_iff.mp h
    obtain ⟨text, htext, h⟩ := bind_eq_some_iff.mp h
    split at h
    · rename_i hvalid
      refine ⟨text, hvalid, ?_⟩
      rw [hsuffix, utf8_fromUtf8 htext, stripPrefix_eq_some.mp hbytes]
      rfl
    · cases h
  · rintro ⟨digest, hvalid, hrange⟩
    have hpre : RUSTC_RLIB_LINK_CONTENT_DIGEST_PREFIX = LINK_CONTENT_DIGEST_PREFIX := rfl
    rw [linkContentSuffix, hrange]
    simp [hpre, stripPrefix_append, hvalid]

theorem withoutLinkContentSuffix_eq (data : Bytes) :
    withoutLinkContentSuffix data = stripLinkContentDigestSuffix data := by
  have hlength : RUSTC_RLIB_LINK_CONTENT_DIGEST_PREFIX.length + BLAKE3_OUT_LEN * 2
      = LINK_CONTENT_DIGEST_PREFIX.length + BLAKE3_HEX_DIGEST_LEN := rfl
  rw [withoutLinkContentSuffix, stripLinkContentDigestSuffix, hlength]
  cases checkedSub data.length (LINK_CONTENT_DIGEST_PREFIX.length + BLAKE3_HEX_DIGEST_LEN) with
  | none => rfl
  | some start =>
    have hsome := linkContentSuffix_isSome data start
    cases hsuffix : linkContentSuffix data start with
    | none =>
      rw [hsuffix] at hsome
      simp [← hsome, hsuffix]
    | some digest =>
      rw [hsuffix] at hsome
      simp [← hsome, hsuffix]

theorem rustcRlibRawObjectPayload_eq (data : Bytes) :
    rustcRlibRawObjectPayload data = rawObjectPayload data := by
  unfold rustcRlibRawObjectPayload rawObjectPayload
  cases hoffset : checkedSub data.length 8 with
  | none => rfl
  | some lenOffset =>
    simp only [orAbsent_some, ok_bind]
    cases getRange data lenOffset data.length with
    | none => rfl
    | some word =>
      simp only [orAbsent_some, ok_bind]
      cases decodeU64 word with
      | none => rfl
      | some len =>
        simp only [orAbsent_some, ok_bind]
        cases checkedSub lenOffset len with
        | none => rfl
        | some start =>
          simp only [orAbsent_some, ok_bind]
          have hpre : RUSTC_RLIB_RAW_OBJECT_DIGESTS_PREFIX = RAW_OBJECT_DIGESTS_PREFIX := rfl
          rw [hpre]
          cases hstart : checkedSub start RAW_OBJECT_DIGESTS_PREFIX.length with
          | none => rfl
          | some prefixStart =>
            have hsum := checkedSub_eq_some.mp hstart
            simp only [orAbsent_some, ok_bind, ← hsum]

/-- The objects that the compiler reads are read by the linker. -/
theorem decodeRustcRlibRawObjects_of_ok : ∀ {count : Nat} {payload rest : Bytes}
    {objects : List RawObjectDigest}, decodeRawObjects count payload = .ok (objects, rest) →
      decodeRustcRlibRawObjects count payload = .ok (objects.map (·.linked), rest)
  | 0, payload, rest, objects, h => by
    cases h
    rfl
  | count + 1, payload, rest, objects, h => by
    obtain ⟨⟨len, p1⟩, hlen, h⟩ := bind_eq_ok.mp h
    obtain ⟨⟨name, p2⟩, hname, h⟩ := bind_eq_ok.mp h
    obtain ⟨text, htext, h⟩ := bind_eq_ok.mp h
    obtain ⟨⟨bytes, p3⟩, hbytes, h⟩ := bind_eq_ok.mp h
    obtain ⟨digest, hdigest, h⟩ := bind_eq_ok.mp h
    obtain ⟨_, hvalid, h⟩ := bind_eq_ok.mp h
    obtain ⟨⟨tail, p4⟩, htail, h⟩ := bind_eq_ok.mp h
    cases h
    have hvalid := require_eq_ok.mp hvalid
    have hlinked := decodeRustcRlibRawObjects_of_ok htail
    have hname8 : utf8 text = name := utf8_fromUtf8 (orAbsent_eq_ok.mp htext)
    have hne : name ≠ [] := fun hnil => hvalid.1 (utf8_eq_nil.mp (hname8.trans hnil))
    have hlen' : takeU64Le payload = .ok (len, p1) := hlen
    have hbytes' : orAbsent (takeExact (BLAKE3_OUT_LEN * 2) p2) = .ok (bytes, p3) := hbytes
    rw [decodeRustcRlibRawObjects, hlen', ok_bind]
    simp only [hname, ok_bind, require_of hne, hbytes', hdigest, require_of hvalid.2, hlinked]
    rw [map_cons, RawObjectDigest.linked, hname8]

/-- **The linker finds every list that the compiler finds.** -/
theorem decodeRustcRlibRawObjectDigests_of_ok {data : Bytes}
    (h : decodeRawObjectDigests data = .ok objects) :
    decodeRustcRlibRawObjectDigests data = .ok (objects.map (·.linked)) := by
  obtain ⟨body, hbody, h⟩ := bind_eq_ok.mp h
  obtain ⟨front, hfront, h⟩ := bind_eq_ok.mp h
  obtain ⟨payload, hpayload, h⟩ := bind_eq_ok.mp h
  obtain ⟨⟨count, rest⟩, hcount, h⟩ := bind_eq_ok.mp h
  obtain ⟨_, hle, h⟩ := bind_eq_ok.mp h
  obtain ⟨⟨found, left⟩, hfound, h⟩ := bind_eq_ok.mp h
  obtain ⟨_, hleft, h⟩ := bind_eq_ok.mp h
  cases h
  have hcount' : takeU64Le payload = .ok (count, rest) := hcount
  have hbody' : orAbsent (stripSuffix RUSTC_SERIALIZED_METADATA_END data) = .ok body := hbody
  have hle' : require (count ≤ rest.length / (8 + BLAKE3_OUT_LEN * 2)) = .ok () := hle
  rw [decodeRustcRlibRawObjectDigests, hbody', ok_bind, withoutLinkContentSuffix_eq, hfront,
    ok_bind, rustcRlibRawObjectPayload_eq, hpayload, ok_bind, hcount', ok_bind]
  simp only [hle', ok_bind, decodeRustcRlibRawObjects_of_ok hfound, hleft]

/-- **The linker reads what the compiler has written**, and finds nothing where nothing was
written. -/
theorem decodeRustcRlibRawObjectDigests_encode (h : m.encode.length < 2 ^ 48) :
    decodeRustcRlibRawObjectDigests m.encode
      = orAbsent ((m.rawObjectDigests.filter validRawObjects).map (·.map (·.linked))) := by
  have hread := decodeRawObjectDigests_encode h
  cases hraw : m.rawObjectDigests.filter validRawObjects with
  | some objects =>
    rw [hraw, orAbsent_some] at hread
    exact decodeRustcRlibRawObjectDigests_of_ok hread
  | none =>
    have hsize := length_body_lt h
    have hstrip := strip_linkContentTrailer (endsPlain_body h) m.linkContentDigest
    have hsuffix : stripSuffix RUSTC_SERIALIZED_METADATA_END m.encode
        = some (m.body ++ linkContentTrailer m.linkContentDigest) := stripSuffix_append _ _
    rw [body_of_none hraw] at hsize hstrip hsuffix
    rw [decodeRustcRlibRawObjectDigests, hsuffix, orAbsent_some, ok_bind,
      withoutLinkContentSuffix_eq, hstrip, ok_bind, rustcRlibRawObjectPayload_eq,
      rawObjectPayload_encodeStrings hsize]
    rfl

/-! ## 3. The digest of what is linked -/

/-- An object of a Rust library: its name is `<filestem>.<module>.<invocation>.rcgu.o`. -/
structure NamedObject where
  filestem : Bytes
  moduleName : Text
  invocation : Bytes
  digest : Text
  filestem_dotFree : dot ∉ filestem
  invocation_dotFree : dot ∉ invocation

namespace NamedObject

def identifier (object : NamedObject) : Bytes :=
  object.filestem ++ dot :: (utf8 object.moduleName ++ dot :: object.invocation)
    ++ utf8 ".rcgu.o".toList

/-- The object as the linker knows it. -/
def linked (object : NamedObject) : RustcRlibRawObjectDigest := ⟨object.identifier, object.digest⟩

/-- The object as the compiler knows it. -/
def compiled (object : NamedObject) : Text × Text := (object.moduleName, object.digest)

/-- No part of the name is empty. -/
def Complete (object : NamedObject) : Prop :=
  object.filestem ≠ [] ∧ object.moduleName ≠ [] ∧ object.invocation ≠ []

instance (object : NamedObject) : Decidable object.Complete := inferInstanceAs (Decidable (_ ∧ _))

/-- The linker hashes the object. -/
def Hashed (object : NamedObject) : Prop :=
  object.Complete ∧ isBlake3HexDigest object.digest = true

instance (object : NamedObject) : Decidable object.Hashed := inferInstanceAs (Decidable (_ ∧ _))

end NamedObject

theorem splitByte_append {sep : UInt8} : ∀ {a : Bytes}, sep ∉ a → ∀ b,
    splitByte sep (a ++ sep :: b) = some (a, b)
  | [], _, b => by rw [nil_append, splitByte, if_pos rfl]
  | x :: a, h, b => by
    have hx : x ≠ sep := fun heq => h (by simp [heq])
    rw [cons_append, splitByte, if_neg hx,
      splitByte_append (fun hmem => h (mem_cons_of_mem _ hmem)) b]
    rfl

/-- The linker finds the module in the name. -/
theorem moduleName_of_identifier (object : NamedObject) :
    rustcRlibModuleNameFromObjectIdentifier object.identifier
      = if object.Complete then some (utf8 object.moduleName) else none := by
  have hsuffix : utf8 ".rcgu.o".toList <:+ object.identifier := suffix_append _ _
  have htake : object.identifier.take
      (object.identifier.length - (utf8 ".rcgu.o".toList).length)
        = object.filestem ++ dot :: (utf8 object.moduleName ++ dot :: object.invocation) := by
    rw [NamedObject.identifier, length_append, Nat.add_sub_cancel, take_left]
  have hreverse : (object.filestem
      ++ dot :: (utf8 object.moduleName ++ dot :: object.invocation)).reverse
      = object.invocation.reverse
        ++ dot :: (object.filestem ++ dot :: utf8 object.moduleName).reverse := by
    simp
  have hinvocation : dot ∉ object.invocation.reverse := by
    rw [mem_reverse]
    exact object.invocation_dotFree
  have hstem := splitByte_append object.filestem_dotFree (utf8 object.moduleName)
  unfold rustcRlibModuleNameFromObjectIdentifier
  simp only [if_pos hsuffix, htake, hreverse, splitByte_append hinvocation, reverse_reverse,
    hstem, bind_eq_bind, bind_some]
  by_cases hc : object.Complete
  · rw [if_pos hc, if_pos]
    exact ⟨hc.1, fun h => hc.2.1 (utf8_eq_nil.mp h), fun h => hc.2.2 (reverse_eq_nil_iff.mp h)⟩
  · rw [if_neg hc, if_neg]
    rintro ⟨h1, h2, h3⟩
    exact hc ⟨h1, fun h => h2 (utf8_eq_nil.mpr h), fun h => h3 (reverse_eq_nil_iff.mpr h)⟩

theorem u64LeBytes_eq (n : Nat) : u64LeBytes n = leBytes 8 n := by
  have hbyte : ∀ m : Nat, UInt8.ofNat m = UInt8.ofNat (m % 256) := by
    intro m
    rw [← UInt8.toNat_inj, UInt8.toNat_ofNat', UInt8.toNat_ofNat']
    omega
  simp only [u64LeBytes, leBytes, List.range, List.range.loop, map_cons, map_nil,
    Nat.pow_zero, Nat.div_one, Nat.div_div_eq_div_mul, Nat.reduceMul, Nat.reducePow, Nat.pow_one,
    hbyte (n / 256), hbyte n, hbyte (n / 65536), hbyte (n / 16777216), hbyte (n / 4294967296),
    hbyte (n / 1099511627776), hbyte (n / 281474976710656), hbyte (n / 72057594037927936)]

/-- What the compiler adds to the hasher for an object. -/
def compiledHashInput (object : Text × Text) : Bytes :=
  leBytes 8 (utf8 object.1).length ++ utf8 object.1 ++ utf8 object.2

theorem rawObjectHashInput_linked (object : NamedObject) :
    rawObjectHashInput object.linked
      = if object.Hashed then some (compiledHashInput object.compiled) else none := by
  have hmodule := moduleName_of_identifier object
  unfold rawObjectHashInput
  change (rustcRlibModuleNameFromObjectIdentifier object.identifier >>= fun moduleName => _) = _
  rw [hmodule]
  by_cases hc : object.Complete
  · rw [if_pos hc, bind_eq_bind, bind_some]
    have hne : utf8 object.moduleName ≠ [] := fun h => hc.2.1 (utf8_eq_nil.mp h)
    by_cases hd : isBlake3HexDigest object.digest = true
    · have hhashed : object.Hashed := ⟨hc, hd⟩
      have hnot :
          ¬ (utf8 object.moduleName = [] ∨ isBlake3HexDigest object.linked.digest = false) :=
        fun h => h.elim hne fun hfalse => Bool.false_ne_true (hfalse.symm.trans hd)
      rw [if_neg hnot, if_pos hhashed, u64LeBytes_eq]
      rfl
    · have hor : utf8 object.moduleName = [] ∨ isBlake3HexDigest object.linked.digest = false :=
        Or.inr (Bool.eq_false_iff.mpr hd)
      rw [if_pos hor, if_neg fun h => hd h.2]
  · rw [if_neg hc, if_neg fun h => hc h.1]
    rfl

theorem mapM_rawObjectHashInput : ∀ objects : List NamedObject,
    (objects.map (·.linked)).mapM rawObjectHashInput
      = if ∀ object ∈ objects, object.Hashed then
          some (objects.map fun object => compiledHashInput object.compiled) else none
  | [] => by simp
  | object :: objects => by
    rw [map_cons, mapM_cons, rawObjectHashInput_linked, mapM_rawObjectHashInput objects]
    by_cases hobject : object.Hashed
    · rw [if_pos hobject]
      by_cases hall : ∀ o ∈ objects, o.Hashed
      · rw [if_pos hall, if_pos (List.forall_mem_cons.mpr ⟨hobject, hall⟩)]
        rfl
      · rw [if_neg hall, if_neg fun h => hall (List.forall_mem_cons.mp h).2]
        rfl
    · rw [if_neg hobject, if_neg fun h => hobject (List.forall_mem_cons.mp h).1]
      rfl

/-- **One digest of what is linked**, where no part of a name is empty; otherwise the linker has
none. -/
theorem rustcRlibLinkContentDigest_named (blake3 : Bytes → Bytes) (objects : List NamedObject) :
    rustcRlibLinkContentDigestFromRawObjects (fun bytes => hexEncode (blake3 bytes))
        (objects.map (·.linked))
      = if ∀ object ∈ objects, object.Complete then
          linkContentDigest blake3 (objects.map (·.compiled)) else none := by
  rw [rustcRlibLinkContentDigestFromRawObjects, mapM_rawObjectHashInput]
  by_cases hc : ∀ object ∈ objects, object.Complete
  · rw [if_pos hc, linkContentDigest]
    by_cases hd : ∀ object ∈ objects, isBlake3HexDigest object.digest = true
    · have hany : (objects.map (·.compiled)).any (fun object => !isBlake3HexDigest object.2)
          = false := by
        simpa [NamedObject.compiled] using hd
      rw [if_pos fun object ho => ⟨hc object ho, hd object ho⟩, hany, u64LeBytes_eq]
      simp only [bind_eq_bind, bind_some, length_map, Option.pure_def,
        Bool.false_eq_true, if_false, flatMap_def, List.map_map]
      rfl
    · have hany : (objects.map (·.compiled)).any (fun object => !isBlake3HexDigest object.2)
          = true := by
        simpa [NamedObject.compiled] using hd
      rw [if_neg fun h => hd fun object ho => (h object ho).2, if_pos hany]
      rfl
  · rw [if_neg hc, if_neg fun h => hc fun object ho => (h object ho).1]
    rfl

/-! ## 4. The agreement -/

section

variable {α β : Type}

/-- A reader that takes no range outside its data. -/
def InBounds (x : Decoded α) : Prop := x ≠ .error .outOfBounds

variable {x : Decoded α}

theorem OnlyAbsent.inBounds (h : OnlyAbsent x) : InBounds x :=
  fun heq => nomatch h _ heq

theorem inBounds_ok (a : α) : InBounds (.ok a : Decoded α) := fun h => nomatch h

theorem inBounds_orExhausted (x : Option α) : InBounds (orExhausted x) := by
  cases x <;> exact fun h => nomatch h

theorem InBounds.bind {f : α → Decoded β} (hx : InBounds x)
    (hf : ∀ a, InBounds (f a)) : InBounds (x >>= f) := by
  cases x with
  | ok a => exact hf a
  | error stop => exact fun h => hx (congrArg Except.error (Except.error.inj h))

theorem OnlyAbsent.inBounds_optional (h : OnlyAbsent x) :
    InBounds (optional x) := by
  cases x with
  | ok a => exact inBounds_ok _
  | error stop =>
    obtain rfl := h stop rfl
    exact inBounds_ok _

end

theorem inBounds_readStr (data : Bytes) : InBounds (readStr data) := by
  refine (inBounds_orExhausted _).bind fun _ => (inBounds_orExhausted _).bind fun _ => ?_
  refine (inBounds_orExhausted _).bind fun last => ?_
  split
  · exact inBounds_ok _
  · exact fun h => nomatch h

theorem inBounds_decodeStringsFrom : ∀ (count : Nat) (data : Bytes),
    InBounds (decodeStringsFrom count data)
  | 0, _ => inBounds_ok _
  | count + 1, data => (inBounds_readStr data).bind fun _ =>
      (inBounds_decodeStringsFrom count _).bind fun _ => inBounds_ok _

theorem inBounds_decode (data : Bytes) : InBounds (decode data) := by
  refine (onlyAbsent_orAbsent _).inBounds.bind fun body => ?_
  refine InBounds.bind ((inBounds_orExhausted _).bind fun _ =>
    (inBounds_decodeStringsFrom _ _).bind fun _ => inBounds_ok _) fun _ => ?_
  refine (onlyAbsent_decodeRawObjectDigests data).inBounds_optional.bind fun _ => ?_
  exact (onlyAbsent_decodeLinkContentDigest data).inBounds_optional.bind fun _ => inBounds_ok _

theorem onlyAbsent_decodeRustcRlibRawObjects : ∀ (count : Nat) (payload : Bytes),
    OnlyAbsent (decodeRustcRlibRawObjects count payload)
  | 0, _ => onlyAbsent_ok _
  | count + 1, payload => by
    refine OnlyAbsent.bind (onlyAbsent_takeU64 payload) fun len _ => ?_
    refine (onlyAbsent_orAbsent _).bind fun identifier _ => ?_
    refine (onlyAbsent_require _).bind fun _ _ => (onlyAbsent_orAbsent _).bind fun bytes _ => ?_
    refine (onlyAbsent_orAbsent _).bind fun digest _ => (onlyAbsent_require _).bind fun _ _ => ?_
    exact (onlyAbsent_decodeRustcRlibRawObjects count _).bind fun _ _ => onlyAbsent_ok _

theorem onlyAbsent_decodeRustcRlibRawObjectDigests (data : Bytes) :
    OnlyAbsent (decodeRustcRlibRawObjectDigests data) := by
  refine (onlyAbsent_orAbsent _).bind fun metadata _ => ?_
  rw [withoutLinkContentSuffix_eq]
  refine (onlyAbsent_stripLinkContentDigestSuffix _).bind fun front _ => ?_
  rw [rustcRlibRawObjectPayload_eq]
  refine (onlyAbsent_rawObjectPayload _).bind fun payload _ => ?_
  refine OnlyAbsent.bind (onlyAbsent_takeU64 payload) fun _ _ => ?_
  refine (onlyAbsent_require _).bind fun _ _ => ?_
  exact (onlyAbsent_decodeRustcRlibRawObjects _ _).bind fun _ _ =>
    (onlyAbsent_require _).bind fun _ _ => onlyAbsent_ok _

/-- **The compiler and the linker agree on the link metadata.** -/
theorem rmetaLink_agreement (blake3 : Bytes → Bytes) :
    (∀ m : RmetaLink, m.encode.length < 2 ^ 48 →
      RmetaLink.decode m.encode = .ok m.readable ∧
      decodeRustcRlibLinkContentDigest m.encode = orAbsent m.readable.linkContentDigest ∧
      decodeRustcRlibRawObjectDigests m.encode
        = orAbsent (m.readable.rawObjectDigests.map (·.map (·.linked)))) ∧
    (∀ data : Bytes,
      (InBounds (RmetaLink.decode data) ∧ InBounds (decodeRawObjectDigests data) ∧
        InBounds (decodeLinkContentDigest data) ∧ InBounds (decodeRustcRlibRawObjectDigests data) ∧
        InBounds (decodeRustcRlibLinkContentDigest data)) ∧
      ∀ objects, decodeRawObjectDigests data = .ok objects →
        decodeRustcRlibRawObjectDigests data = .ok (objects.map (·.linked))) ∧
    ∀ objects : List NamedObject,
      rustcRlibLinkContentDigestFromRawObjects (fun bytes => hexEncode (blake3 bytes))
          (objects.map (·.linked))
        = if ∀ object ∈ objects, object.Complete then
            linkContentDigest blake3 (objects.map (·.compiled)) else none := by
  refine ⟨fun m h => ⟨decode_encode h, decodeLinkContentDigest_encode h,
    decodeRustcRlibRawObjectDigests_encode h⟩, fun data => ⟨⟨inBounds_decode data, ?_, ?_, ?_, ?_⟩,
      fun objects h => decodeRustcRlibRawObjectDigests_of_ok h⟩,
    rustcRlibLinkContentDigest_named blake3⟩
  · exact (onlyAbsent_decodeRawObjectDigests data).inBounds
  · exact (onlyAbsent_decodeLinkContentDigest data).inBounds
  · exact (onlyAbsent_decodeRustcRlibRawObjectDigests data).inBounds
  · exact (onlyAbsent_decodeLinkContentDigest data).inBounds

/-- Metadata with both trailers. -/
def exampleLink : RmetaLink where
  rustObjectFiles := []
  rawObjectDigests := some [⟨['a'], replicate 64 'a'⟩]
  linkContentDigest := some (replicate 64 'b')

theorem rmetaLink_agreement_example :
    RmetaLink.decode exampleLink.encode = .ok exampleLink.readable ∧
      exampleLink.readable = exampleLink := by
  have hempty : encodeStrings [] = [0] := by
    rw [encodeStrings, length_nil, writeLeb]
    rfl
  have hsize : exampleLink.encode.length < 2 ^ 48 := by
    rw [encode, exampleLink, hempty]
    decide +kernel
  exact ⟨((rmetaLink_agreement fun _ => []).1 exampleLink hsize).1, by decide +kernel⟩

/-- The object `.m.i.rcgu.o`, whose name has an empty stem. -/
def stemlessObject : NamedObject where
  filestem := []
  moduleName := ['m']
  invocation := utf8 ['i']
  digest := replicate 64 'a'
  filestem_dotFree := by decide
  invocation_dotFree := by decide

/-- The compiler has a digest of an object without a file stem, the linker has none. -/
theorem stemless_digests_differ :
    ¬ ∀ (blake3 : Bytes → Bytes) (objects : List NamedObject),
      rustcRlibLinkContentDigestFromRawObjects (fun bytes => hexEncode (blake3 bytes))
          (objects.map (·.linked))
        = linkContentDigest blake3 (objects.map (·.compiled)) := by
  intro h
  have hstemless := h (fun _ => []) [stemlessObject]
  rw [rustcRlibLinkContentDigest_named] at hstemless
  revert hstemless
  decide

end Srs.Rlib
