/-
# When a stored fingerprint is that of the member

A stored fingerprint is found by a name without the compiler's invocation, and so is the digest of a
member.  Where one member has the name, the digest is that of the member, and equal digests are
equal contents.  So what is stored and found by its name is always the fingerprint of the content
that the digest is of (`stored_valid`), whatever came before: where two members have one name,
nothing is found by it in the next link.

In the link itself both are given the digest of the one that is listed.  So taking over is right
exactly where a member whose namesake is listed, with what is stored for the namesake, has the same
fingerprint (`reuse_eq_recompute_iff`).  `namesake_is_not_hashed` is an archive where it has not.
-/
import Srs.Incremental.ArchiveFingerprint
import Srs.Lib.HexText

namespace Srs.Incremental

open Bytes LeBytes Masks List Option MaskedArchive

/-! ## 1. Links one after another -/

/-- The members, if the archive can be read. -/
def MaskedArchive.members (archive : MaskedArchive) : List ArchiveContent :=
  match archive.read with
  | .ok (some members) => members
  | _ => []

/-- The ranges inside a member. -/
def MaskedArchive.rangesOf (archive : MaskedArchive) (content : ArchiveContent) : List Interval :=
  clipped content.dataOffset content.entryData.length archive.ranges

section

variable (env : FingerprintEnv) (trust : Bool)

/-- The stored fingerprints that a call returns. -/
def returned : Except Text (Option ArchiveFingerprint) →
    Option (List ArchiveMemberPatchFingerprint)
  | .ok (some (_, stored)) => stored
  | _ => none

/-- What is stored after a number of links, each of which has what the one before it returned. -/
def storedAfter (archives : List MaskedArchive) : Option (List ArchiveMemberPatchFingerprint) :=
  archives.foldl (fun previous archive =>
    returned (archivePatchFingerprintWithPrevious env archive previous trust [] [])) none

/-- The objects whose digests the archive lists. -/
def listedObjects (archive : MaskedArchive) : List RustcRlibRawObjectDigest :=
  (rustcObjectDigests env trust archive.members).getD []

/-- The archive lists members, each with its digest. -/
def TrueDigests (objectDigest : Bytes → Text) (archive : MaskedArchive) : Prop :=
  ∀ object ∈ listedObjects env trust archive,
    (∃ content ∈ archive.members, content.ident = object.identifier) ∧
      ∀ content ∈ archive.members, content.ident = object.identifier →
        object.digest = objectDigest content.entryData

/-- No two members with different contents have one digest, and no two with different ranges have
one hash of them. -/
structure NoCollisions (objectDigest : Bytes → Text) (archives : List MaskedArchive) : Prop where
  contents : ∀ x ∈ archives, ∀ a ∈ x.members, ∀ y ∈ archives, ∀ b ∈ y.members,
    objectDigest a.entryData = objectDigest b.entryData → a.entryData = b.entryData
  ranges : ∀ x ∈ archives, ∀ a ∈ x.members, ∀ y ∈ archives, ∀ b ∈ y.members,
    env.blake3 (rangesBytes (x.rangesOf a)) = env.blake3 (rangesBytes (y.rangesOf b)) →
      rangesBytes (x.rangesOf a) = rangesBytes (y.rangesOf b)

/-- What the loop reads where nothing is ignored or replaced. -/
def memberContext (archive : MaskedArchive)
    (previous : Option (List ArchiveMemberPatchFingerprint)) : MemberContext where
  ranges := archive.ranges
  isRustArchive := archive.members.any fun content => content.identifier ≠ content.ident
  objectDigests := rustcObjectDigests env trust archive.members
  previous := fingerprintsByIdentifier (previous.getD [])
  ignoredIdentifiers := []
  replacements := []

/-- A member has the fingerprint of a listed namesake where that is stored, with the length and the
ranges of the member. -/
def NamesakesAgree (objectDigest : Bytes → Text) (archive : MaskedArchive)
    (previous : Option (List ArchiveMemberPatchFingerprint)) : Prop :=
  ∀ content ∈ archive.members, ∀ namesake ∈ archive.members,
    namesake.identifier = content.identifier →
    (∃ object ∈ listedObjects env trust archive, object.identifier = namesake.ident) →
    (memberContext env trust archive previous).skips content.identifier = false →
    (∃ stored ∈ fingerprintsByIdentifier (previous.getD []),
      stored.identifier = content.identifier ∧
      stored.rustcObjectDigest = objectDigest namesake.entryData ∧
      stored.dataLen = UInt64.ofNat content.entryData.length ∧
      stored.rangesHash = (memberContext env trust archive previous).rangesHash env content) →
    memberPatchFingerprint env content.entryData content.dataOffset archive.ranges
      = memberPatchFingerprint env namesake.entryData 0 (archive.rangesOf content)

end

/-! ## 2. Hashes -/

variable {bytes : Bytes}

theorem isBlake3HexDigest_hexEncode (h : bytes.length = 32) :
    isBlake3HexDigest (hexEncode bytes) = true := by
  have hlen : (hexEncode bytes).length = 64 := by
    rw [hexEncode, length_flatMap]
    simp [h]
  exact decide_eq_true ⟨hlen, fun c hc => isHex_of_mem_hexEncode hc⟩

theorem parseBlake3HexDigest_hexEncode (h : bytes.length = 32) :
    parseBlake3HexDigest (hexEncode bytes) = some bytes := by
  rw [parseBlake3HexDigest, if_pos (isBlake3HexDigest_hexEncode h), hexDecode_hexEncode]

theorem hexEncode_inj {a b : Bytes} (h : hexEncode a = hexEncode b) : a = b := by
  have hdecode := hexDecode_hexEncode a
  rw [h, hexDecode_hexEncode] at hdecode
  exact (some.inj hdecode).symm

theorem leBytes_inj {a b : Nat} (ha : a < 2 ^ 64) (hb : b < 2 ^ 64)
    (h : leBytes 8 a = leBytes 8 b) : a = b := by
  have hvalue := congrArg leValue h
  rw [leValue_leBytes, leValue_leBytes] at hvalue
  rwa [Nat.mod_eq_of_lt ha, Nat.mod_eq_of_lt hb] at hvalue

theorem flatMap_ranges_inj : ∀ {a b : List Interval},
    (∀ range ∈ a, range.start < 2 ^ 64 ∧ range.stop < 2 ^ 64) →
    (∀ range ∈ b, range.start < 2 ^ 64 ∧ range.stop < 2 ^ 64) →
    (a.flatMap fun range => leBytes 8 range.start ++ leBytes 8 range.stop)
      = (b.flatMap fun range => leBytes 8 range.start ++ leBytes 8 range.stop) → a = b
  | [], [], _, _, _ => rfl
  | [], y :: b, _, _, h => by
    have hlen := congrArg List.length h
    simp at hlen
    omega
  | x :: a, [], _, _, h => by
    have hlen := congrArg List.length h
    simp at hlen
  | x :: a, y :: b, ha, hb, h => by
    obtain ⟨hxstart, hxstop⟩ := ha x mem_cons_self
    obtain ⟨hystart, hystop⟩ := hb y mem_cons_self
    rw [flatMap_cons, flatMap_cons] at h
    obtain ⟨hfirst, hrest⟩ := append_inj h (by simp)
    obtain ⟨hstart, hstop⟩ := append_inj hfirst (by simp)
    have hxy : x = y := by
      rw [Interval.mk.injEq]
      exact ⟨leBytes_inj hxstart hystart hstart, leBytes_inj hxstop hystop hstop⟩
    rw [hxy, flatMap_ranges_inj (fun r hr => ha r (mem_cons_of_mem _ hr))
      (fun r hr => hb r (mem_cons_of_mem _ hr)) hrest]

theorem rangesBytes_inj {a b : List Interval}
    (ha : ∀ range ∈ a, range.start < 2 ^ 64 ∧ range.stop < 2 ^ 64)
    (hb : ∀ range ∈ b, range.start < 2 ^ 64 ∧ range.stop < 2 ^ 64)
    (h : rangesBytes a = rangesBytes b) : a = b :=
  flatMap_ranges_inj ha hb (append_cancel_left h)

section

variable {env : FingerprintEnv}

theorem length_memberPatchFingerprint (data : Bytes) (dataOffset : Nat) (ranges : List Interval) :
    (memberPatchFingerprint env data dataOffset ranges).length = 32 := by
  rw [memberPatchFingerprint]
  cases hobject : machoObjectPatchFingerprint env data dataOffset ranges with
  | none => exact env.length_blake3 _
  | some fingerprint =>
    obtain ⟨object, -, hobject⟩ := bind_eq_some_iff.mp hobject
    obtain ⟨sections, -, hobject⟩ := bind_eq_some_iff.mp hobject
    obtain ⟨stream, -, hobject⟩ := bind_eq_some_iff.mp hobject
    cases hobject
    exact env.length_blake3 _

/-! ## 3. The fingerprint of a member depends on the ranges inside it -/

theorem maskedSection_clipped {bytes data : Bytes} {fileOffset : Nat} {ranges : List Interval}
    {s : Option (Nat × Nat)} (h : sectionData bytes s = some data) :
    maskedSection 0 (clipped fileOffset bytes.length ranges) s data
      = maskedSection fileOffset ranges s data := by
  match s with
  | none =>
    cases h
    rw [maskedSection, maskedSection, mask_nil, mask_nil]
  | some (offset, size) =>
    rw [sectionData] at h
    split at h
    · rename_i hin
      cases h
      have hlen : ((bytes.drop offset).take size).length = size := by
        rw [length_take, length_drop]
        omega
      have hmask : mask ((bytes.drop offset).take size) offset
            (clipped fileOffset bytes.length ranges)
          = mask ((bytes.drop offset).take size) (fileOffset + offset) ranges :=
        mask_clipped (by rw [hlen]; exact hin) ranges
      rw [maskedSection, maskedSection, Nat.zero_add, hmask]
      refine if_congr ⟨?_, ?_⟩ rfl rfl
      · rintro ⟨hsize, hcovers⟩
        exact ⟨hsize, (covers_clipped_iff hin (Nat.pos_of_ne_zero hsize)).mp hcovers⟩
      · rintro ⟨hsize, hcovers⟩
        exact ⟨hsize, (covers_clipped_iff hin (Nat.pos_of_ne_zero hsize)).mpr hcovers⟩
    · cases h

variable {α β : Type} {content : ArchiveContent} {archives : List MaskedArchive}

variable {f g : α → Option β} {member : ArchiveContent × Nat} {κ : Type} {l : List α} {a : α}

theorem zipWith_congr_of_mapM {γ : Type} {g g' : α → β → γ} :
    ∀ {l : List α} {values : List β}, l.mapM f = some values →
      (∀ a b, f a = some b → g a b = g' a b) → zipWith g l values = zipWith g' l values
  | [], values, _, _ => rfl
  | a :: l, values, h, hall => by
    rw [mapM_cons] at h
    obtain ⟨b, hb, h⟩ := bind_eq_some_iff.mp h
    obtain ⟨rest, hrest, h⟩ := bind_eq_some_iff.mp h
    cases h
    rw [zipWith_cons_cons, zipWith_cons_cons, hall a b hb,
      zipWith_congr_of_mapM hrest hall]

theorem valueIsMasked_clipped (bytes : Bytes) (fileOffset : Nat) (ranges : List Interval)
    (field : Option Nat) :
    valueIsMasked bytes 0 (clipped fileOffset bytes.length ranges) field
      = valueIsMasked bytes fileOffset ranges field := by
  cases field with
  | none => rfl
  | some start =>
    rw [valueIsMasked, valueIsMasked, Nat.zero_add, decide_eq_decide]
    exact and_congr_right fun hin => covers_clipped_iff hin (by decide)

/-- **Only the ranges inside the member count.** -/
theorem memberPatchFingerprint_clipped (data : Bytes) (dataOffset : Nat) (ranges : List Interval) :
    memberPatchFingerprint env data 0 (clipped dataOffset data.length ranges)
      = memberPatchFingerprint env data dataOffset ranges := by
  have hobject : machoObjectPatchFingerprint env data 0 (clipped dataOffset data.length ranges)
      = machoObjectPatchFingerprint env data dataOffset ranges := by
    rw [machoObjectPatchFingerprint, machoObjectPatchFingerprint]
    cases env.parseMachOObject data with
    | none => rfl
    | some object =>
      cases hsections : object.sections.mapM (sectionData data) with
      | none => simp only [bind_eq_bind, bind_some, hsections, bind_none]
      | some sections =>
        simp only [bind_eq_bind, bind_some, hsections]
        rw [zipWith_congr_of_mapM hsections fun s d h => maskedSection_clipped h,
          funext (valueIsMasked_clipped data dataOffset ranges)]
  have hmask : mask data 0 (clipped dataOffset data.length ranges) = mask data dataOffset ranges :=
    @mask_clipped _ _ data dataOffset data.length 0 (by rw [Nat.zero_add]) ranges
  rw [memberPatchFingerprint, memberPatchFingerprint, hobject, hmask]

/-! ## 4. The stored fingerprints of one link -/

theorem mem_entries_of_mem_readMembers : ∀ {entries : List (Except Text ArchiveEntry)}
    {members : List ArchiveContent}, readMembers entries = .ok (some members) →
      ∀ content ∈ members, .ok (.regular content) ∈ entries
  | [], members, h, content, hmem => by
    cases h
    cases hmem
  | .error e :: rest, members, h, content, hmem => by cases h
  | .ok .thin :: rest, members, h, content, hmem => by cases h
  | .ok (.regular first) :: rest, members, h, content, hmem => by
    rw [readMembers] at h
    cases hrest : readMembers rest with
    | error e => rw [hrest] at h; cases h
    | ok read =>
      rw [hrest] at h
      cases read with
      | none => cases h
      | some read =>
        cases h
        rcases mem_cons.mp hmem with rfl | hmem
        · exact mem_cons_self
        · exact mem_cons_of_mem _ (mem_entries_of_mem_readMembers hrest content hmem)

theorem MaskedArchive.length_lt {archive : MaskedArchive}
    (h : content ∈ archive.members) : content.entryData.length < 2 ^ 64 := by
  rw [members] at h
  split at h
  · rename_i members hread
    rw [read] at hread
    split at hread
    · cases hread
    · rename_i entries hentries
      exact archive.small entries hentries content (mem_entries_of_mem_readMembers hread content h)
  · cases h

theorem MaskedArchive.rangesOf_lt {archive : MaskedArchive} (h : content ∈ archive.members) :
    ∀ range ∈ archive.rangesOf content, range.start < 2 ^ 64 ∧ range.stop < 2 ^ 64 := by
  intro range hrange
  obtain ⟨hstart, hstop⟩ := le_of_mem_clipped hrange
  have hsmall := length_lt h
  omega

variable {trust : Bool} {archive : MaskedArchive}
  {previous : Option (List ArchiveMemberPatchFingerprint)}

/-- What a link stores for a member. -/
def storedFor (env : FingerprintEnv) (context : MemberContext) (member : ArchiveContent × Nat) :
    Option ArchiveMemberPatchFingerprint :=
  (context.memberHash env member.2 member.1).bind (·.2)

theorem call_of_read (h : archive.read = .ok (some archive.members)) :
    archivePatchFingerprintWithPrevious env archive previous trust [] []
      = .ok (some (combineMemberHashes env
          (memberHashes env (memberContext env trust archive previous) archive.members))) := by
  rw [archivePatchFingerprintWithPrevious, h]
  rfl

/-- A call on an archive without members that can be read does not depend on what is stored. -/
theorem call_of_not_read (h : archive.read ≠ .ok (some archive.members)) :
    archive.members = [] ∧
    archivePatchFingerprintWithPrevious env archive previous trust [] []
      = archivePatchFingerprintWithPrevious env archive none trust [] [] ∧
    returned (archivePatchFingerprintWithPrevious env archive previous trust [] []) = none := by
  rw [archivePatchFingerprintWithPrevious, archivePatchFingerprintWithPrevious]
  rw [members] at h ⊢
  rcases hread : archive.read with e | _ | members
  · exact ⟨rfl, rfl, rfl⟩
  · exact ⟨rfl, rfl, rfl⟩
  · rw [hread] at h
    exact absurd rfl h

theorem combineMemberHashes_stored
    (hashes : List (Bytes × Bytes × Option ArchiveMemberPatchFingerprint)) :
    (combineMemberHashes env hashes).2.getD [] = hashes.filterMap (·.2.2) := by
  rw [combineMemberHashes]
  dsimp only
  split
  · rename_i hnil
    rw [hnil]
    rfl
  · rfl

theorem filterMap_memberHashes (context : MemberContext) (members : List ArchiveContent) :
    (memberHashes env context members).filterMap (·.2.2)
      = members.zipIdx.filterMap (storedFor env context) := by
  rw [memberHashes, filterMap_filterMap]
  refine filterMap_congr fun (content, index) _ => ?_
  rw [storedFor]
  dsimp only
  cases context.memberHash env index content with
  | none => rfl
  | some hash => rfl

theorem memberHash_memberContext (index : Nat) (content : ArchiveContent) :
    (memberContext env trust archive previous).memberHash env index content
      = if (memberContext env trust archive previous).skips content.identifier then none
        else match (memberContext env trust archive previous).reused env index content with
          | some (fingerprint, refreshed) => some (fingerprint, some refreshed)
          | none => some ((memberContext env trust archive previous).computed env index content) :=
  rfl

theorem reused_eq_some {context : MemberContext} {index : Nat}
    {fingerprint : Bytes} {refreshed : ArchiveMemberPatchFingerprint}
    (h : context.reused env index content = some (fingerprint, refreshed)) :
    ∃ digest stored, context.rustcObjectDigest content.identifier = some digest ∧
      stored ∈ context.previous ∧ stored.identifier = content.identifier ∧
      stored.dataLen = UInt64.ofNat content.entryData.length ∧
      stored.rangesHash = context.rangesHash env content ∧ stored.rustcObjectDigest = digest ∧
      parseBlake3HexDigest stored.fingerprint = some fingerprint ∧
      refreshed = { stored with archiveMemberIndex := UInt64.ofNat index } := by
  obtain ⟨digest, hdigest, h⟩ := bind_eq_some_iff.mp h
  obtain ⟨stored, hstored, h⟩ := bind_eq_some_iff.mp h
  split at h
  · rename_i hsame
    obtain ⟨hlen, hranges, hobject⟩ := hsame
    obtain ⟨parsed, hparsed, h⟩ := bind_eq_some_iff.mp h
    cases h
    exact ⟨digest, stored, hdigest, mem_of_find?_eq_some hstored,
      by simpa using find?_some hstored, hlen, hranges, hobject, hparsed, rfl⟩
  · cases h

variable {p : ArchiveMemberPatchFingerprint}

/-- What is stored for a member: the old one, or what is computed. -/
theorem storedFor_cases
    (h : storedFor env (memberContext env trust archive previous) member = some p) :
    (memberContext env trust archive previous).skips member.1.identifier = false ∧
    ((∃ fingerprint, (memberContext env trust archive previous).reused env member.2 member.1
        = some (fingerprint, p)) ∨
      ((memberContext env trust archive previous).reused env member.2 member.1 = none ∧
        ((memberContext env trust archive previous).computed env member.2 member.1).2
          = some p)) := by
  rw [storedFor, memberHash_memberContext] at h
  split at h
  · cases h
  · rename_i hskips
    refine ⟨Bool.eq_false_iff.mpr hskips, ?_⟩
    split at h
    · rename_i fingerprint refreshed hreused
      cases h
      exact Or.inl ⟨fingerprint, hreused⟩
    · rename_i hnone
      exact Or.inr ⟨hnone, h⟩

/-- What is stored has the name of the member, and the digest that is listed for it. -/
theorem storedFor_spec
    (h : storedFor env (memberContext env trust archive previous) member = some p) :
    p.identifier = member.1.identifier ∧
      (memberContext env trust archive previous).rustcObjectDigest member.1.identifier
        = some p.rustcObjectDigest := by
  obtain ⟨-, ⟨fingerprint, hreused⟩ | ⟨-, hcomputed⟩⟩ := storedFor_cases h
  · obtain ⟨digest, stored, hdigest, -, hidentifier, -, -, hobject, -, rfl⟩ :=
      reused_eq_some hreused
    exact ⟨hidentifier, by rw [hdigest, ← hobject]⟩
  · obtain ⟨digest, hdigest, rfl⟩ := map_eq_some_iff.mp hcomputed
    exact ⟨rfl, hdigest⟩

theorem storedFor_isSome {member : ArchiveContent × Nat} {digest : Text}
    (hskips : (memberContext env trust archive previous).skips member.1.identifier = false)
    (hdigest : (memberContext env trust archive previous).rustcObjectDigest member.1.identifier
      = some digest) :
    (storedFor env (memberContext env trust archive previous) member).isSome = true := by
  rw [storedFor, memberHash_memberContext, hskips, if_neg Bool.false_ne_true]
  split
  · rfl
  · rw [bind_some, MemberContext.computed, hdigest]
    rfl

/-! ## 5. What is stored is valid -/

/-- The stored fingerprint is that of the data under the ranges. -/
structure IsFingerprintOf (env : FingerprintEnv) (objectDigest : Bytes → Text)
    (p : ArchiveMemberPatchFingerprint) (data : Bytes) (ranges : List Interval) : Prop where
  dataLen : p.dataLen = UInt64.ofNat data.length
  rangesHash : p.rangesHash = hexEncode (env.blake3 (rangesBytes ranges))
  rustcObjectDigest : p.rustcObjectDigest = objectDigest data
  fingerprint : p.fingerprint = hexEncode (memberPatchFingerprint env data 0 ranges)

/-- What is found by its name is the fingerprint of a member of one of the archives. -/
def StoredValid (env : FingerprintEnv) (objectDigest : Bytes → Text)
    (archives : List MaskedArchive) (stored : List ArchiveMemberPatchFingerprint) : Prop :=
  ∀ p ∈ fingerprintsByIdentifier stored, ∃ archive ∈ archives, ∃ content ∈ archive.members,
    IsFingerprintOf env objectDigest p content.entryData (archive.rangesOf content)

theorem fingerprintsByIdentifier_sublist (stored : List ArchiveMemberPatchFingerprint) :
    (fingerprintsByIdentifier stored).Sublist stored := by
  rw [fingerprintsByIdentifier]
  split
  · exact Sublist.refl _
  · exact nil_sublist _

theorem fingerprintsByIdentifier_nodup (stored : List ArchiveMemberPatchFingerprint) :
    ((fingerprintsByIdentifier stored).map (·.identifier)).Nodup := by
  rw [fingerprintsByIdentifier]
  split
  · assumption
  · exact nodup_nil

/-- Where the keys of what a list gives are distinct, an element is known by its key. -/
theorem eq_of_filterMap_nodup {key : β → κ} {k : α → κ} (hkey : ∀ a b, g a = some b → key b = k a)
    (hnodup : ((l.filterMap g).map key).Nodup) {b : α} (ha : a ∈ l) (hb : b ∈ l)
    (hga : (g a).isSome = true) (hgb : (g b).isSome = true) (hab : k a = k b) : a = b := by
  have hkeys : ∀ l : List α,
      (l.filterMap g).map key = (l.filter fun a => (g a).isSome).map k := by
    intro l
    induction l with
    | nil => rfl
    | cons a l ih =>
      cases hg : g a with
      | none => rw [filterMap_cons_none hg, filter_cons_of_neg (by simp [hg]), ih]
      | some b =>
        rw [filterMap_cons_some hg, filter_cons_of_pos (by simp [hg]), map_cons,
          map_cons, ih, hkey a b hg]
  rw [hkeys] at hnodup
  exact inj_on_of_nodup_map hnodup (mem_filter.mpr ⟨ha, hga⟩)
    (mem_filter.mpr ⟨hb, hgb⟩) hab

variable {identifier : Bytes} {digest : Text}

theorem objectDigestOf_eq_some {objects : List RustcRlibRawObjectDigest} (h : objectDigestOf objects identifier = some digest) :
    ∃ object ∈ objects, archiveMemberPatchIdentifier object.identifier = identifier ∧
      object.digest = digest := by
  obtain ⟨object, hobject, rfl⟩ := map_eq_some_iff.mp h
  exact ⟨object, mem_of_find?_eq_some hobject, by simpa using find?_some hobject, rfl⟩

variable {objectDigest : Bytes → Text}

/-- A digest that is found by a name is that of a member with the name, which is listed. -/
theorem rustcObjectDigest_spec (htrue : TrueDigests env trust objectDigest archive)
    (h : (memberContext env trust archive previous).rustcObjectDigest identifier = some digest) :
    ∃ namesake ∈ archive.members, namesake.identifier = identifier ∧
      (∃ object ∈ listedObjects env trust archive, object.identifier = namesake.ident) ∧
      digest = objectDigest namesake.entryData := by
  obtain ⟨objects, hobjects, h⟩ := bind_eq_some_iff.mp h
  obtain ⟨object, hobject, hname, rfl⟩ := objectDigestOf_eq_some h
  have hlisted : object ∈ listedObjects env trust archive := by
    rw [listedObjects]
    rw [show rustcObjectDigests env trust archive.members = some objects from hobjects]
    exact hobject
  obtain ⟨⟨namesake, hnamesake, hident⟩, hdigest⟩ := htrue object hlisted
  refine ⟨namesake, hnamesake, ?_, ⟨object, hlisted, hident.symm⟩,
    hdigest namesake hnamesake hident⟩
  rw [ArchiveContent.identifier, hident, hname]

/-- A stored fingerprint that is taken over is that of the listed member under the ranges of the
member at hand. -/
theorem reused_spec (hvalid : StoredValid env objectDigest archives (previous.getD []))
    (hhash : NoCollisions env objectDigest (archives ++ [archive]))
    (hcontent : content ∈ archive.members) {stored : ArchiveMemberPatchFingerprint}
    (hstored : stored ∈ fingerprintsByIdentifier (previous.getD [])) {namesake : ArchiveContent}
    (hnamesake : namesake ∈ archive.members)
    (hdigest : stored.rustcObjectDigest = objectDigest namesake.entryData)
    (hranges : stored.rangesHash
      = (memberContext env trust archive previous).rangesHash env content) :
    stored.fingerprint
      = hexEncode (memberPatchFingerprint env namesake.entryData 0 (archive.rangesOf content)) := by
  have hin : archive ∈ archives ++ [archive] :=
    mem_append_right _ (mem_singleton_self _)
  obtain ⟨old, hold, other, hother, hof⟩ := hvalid stored hstored
  have hold' := mem_append_left [archive] hold
  have hdata : other.entryData = namesake.entryData := by
    refine hhash.contents old hold' other hother archive hin namesake hnamesake ?_
    rw [← hof.rustcObjectDigest, hdigest]
  have hmask : old.rangesOf other = archive.rangesOf content := by
    refine rangesBytes_inj (rangesOf_lt hother)
      (rangesOf_lt hcontent) ?_
    refine hhash.ranges old hold' other hother archive hin content hcontent ?_
    have hhex := hof.rangesHash
    rw [hranges] at hhex
    exact (hexEncode_inj hhex).symm
  rw [hof.fingerprint, hdata, hmask]

/-- **A link stores only what is valid**, as far as it will be found. -/
theorem storedValid_returned (hvalid : StoredValid env objectDigest archives (previous.getD []))
    (htrue : TrueDigests env trust objectDigest archive)
    (hhash : NoCollisions env objectDigest (archives ++ [archive])) :
    StoredValid env objectDigest (archives ++ [archive])
      ((returned (archivePatchFingerprintWithPrevious env archive previous trust [] [])).getD
        []) := by
  by_cases hread : archive.read = .ok (some archive.members)
  · rw [call_of_read hread, returned]
    rw [combineMemberHashes_stored, filterMap_memberHashes]
    intro p hp
    have hnodup : ((archive.members.zipIdx.filterMap
        (storedFor env (memberContext env trust archive previous))).map (·.identifier)).Nodup := by
      rw [fingerprintsByIdentifier] at hp
      split at hp
      · assumption
      · cases hp
    obtain ⟨member, hmember, hstored⟩ :=
      mem_filterMap.mp ((fingerprintsByIdentifier_sublist _).subset hp)
    have hin : archive ∈ archives ++ [archive] :=
      mem_append_right _ (mem_singleton_self _)
    have hcontent := fst_mem_of_mem_zipIdx hmember
    obtain ⟨hskips, hcases⟩ := storedFor_cases hstored
    obtain ⟨hidentifier, hdigest⟩ := storedFor_spec hstored
    -- the listed member with the name is the member itself, as no other is stored under it
    have hobject : p.rustcObjectDigest = objectDigest member.1.entryData := by
      obtain ⟨namesake, hnamesake, hname, -, hobject⟩ := rustcObjectDigest_spec htrue hdigest
      obtain ⟨i, hi, rfl⟩ := mem_iff_getElem.mp hnamesake
      have hmem : (archive.members[i], i) ∈ archive.members.zipIdx :=
        mk_mem_zipIdx_iff_getElem?.mpr (getElem?_eq_getElem hi)
      have hsome : (storedFor env (memberContext env trust archive previous)
          (archive.members[i], i)).isSome = true := by
        rw [← hname] at hskips hdigest
        exact storedFor_isSome hskips hdigest
      have hsame := eq_of_filterMap_nodup (fun a b h => (storedFor_spec h).1) hnodup hmember hmem
        (by rw [hstored]; rfl) hsome hname.symm
      rw [hobject, hsame]
    refine ⟨archive, hin, member.1, hcontent, ?_⟩
    rcases hcases with ⟨fingerprint, hreused⟩ | ⟨-, hcomputed⟩
    · obtain ⟨digest, stored, hdigest', hmem, -, hlen, hranges, hdigeststored, hparsed, rfl⟩ :=
        reused_eq_some hreused
      exact ⟨hlen, hranges, hobject,
        reused_spec hvalid hhash hcontent hmem hcontent hobject hranges⟩
    · obtain ⟨digest, hdigest', rfl⟩ := map_eq_some_iff.mp hcomputed
      refine ⟨rfl, rfl, hobject, ?_⟩
      rw [rangesOf, memberPatchFingerprint_clipped]
      rfl
  · rw [(call_of_not_read hread).2.2]
    intro p hp
    cases (fingerprintsByIdentifier_sublist _).subset hp

theorem storedAfter_append (archives : List MaskedArchive) (archive : MaskedArchive) :
    storedAfter env trust (archives ++ [archive])
      = returned (archivePatchFingerprintWithPrevious env archive (storedAfter env trust archives)
          trust [] []) := by
  rw [storedAfter, foldl_append]
  rfl

theorem NoCollisions.of_append {more : List MaskedArchive}
    (h : NoCollisions env objectDigest (archives ++ more)) :
    NoCollisions env objectDigest archives where
  contents x hx a ha y hy b hb := h.contents x (mem_append_left _ hx) a ha y
    (mem_append_left _ hy) b hb
  ranges x hx a ha y hy b hb := h.ranges x (mem_append_left _ hx) a ha y
    (mem_append_left _ hy) b hb

/-- **What is stored is valid after every sequence of links.** -/
theorem stored_valid (htrue : ∀ archive ∈ archives, TrueDigests env trust objectDigest archive)
    (hhash : NoCollisions env objectDigest archives) :
    StoredValid env objectDigest archives ((storedAfter env trust archives).getD []) := by
  induction archives using reverseRecOn with
  | nil =>
    intro p hp
    cases (fingerprintsByIdentifier_sublist _).subset hp
  | append_singleton archives archive ih =>
    rw [storedAfter_append]
    refine storedValid_returned (ih (fun a ha => htrue a (mem_append_left _ ha))
      hhash.of_append) (htrue archive ?_) hhash
    exact mem_append_right _ (mem_singleton_self _)

/-! ## 6. Taking over and computing -/

theorem reused_none (index : Nat) (content : ArchiveContent) :
    (memberContext env trust archive none).reused env index content = none := by
  rw [MemberContext.reused]
  cases (memberContext env trust archive none).rustcObjectDigest content.identifier with
  | none => rfl
  | some digest => rfl

/-- Lists of what is given for the same elements are equal where all of it is. -/
theorem filterMap_eq_iff : ∀ {l : List α},
    (∀ a ∈ l, (f a).isSome = (g a).isSome) →
      (l.filterMap f = l.filterMap g ↔ ∀ a ∈ l, f a = g a)
  | [], _ => by simp
  | a :: l, h => by
    have ih := filterMap_eq_iff fun b hb => h b (mem_cons_of_mem _ hb)
    have ha := h a mem_cons_self
    cases hf : f a with
    | none =>
      rw [hf, isSome_none, eq_comm, isSome_eq_false_iff, isNone_iff_eq_none]
        at ha
      rw [filterMap_cons_none hf, filterMap_cons_none ha, ih, List.forall_mem_cons]
      exact ⟨fun hall => ⟨by rw [hf, ha], hall⟩, fun hall => hall.2⟩
    | some b =>
      rw [hf, isSome_some, eq_comm, isSome_iff_exists] at ha
      obtain ⟨c, hg⟩ := ha
      rw [filterMap_cons_some hf, filterMap_cons_some hg, List.cons.injEq, ih,
        List.forall_mem_cons, hf, hg, some.injEq]

theorem find?_of_nodup [DecidableEq κ] {key : α → κ}
    (h : (l.map key).Nodup) (ha : a ∈ l) : l.find? (fun b => key b = key a) = some a := by
  obtain ⟨b, hb⟩ := isSome_iff_exists.mp
    (find?_isSome.mpr ⟨a, ha, decide_eq_true rfl⟩ :
      (l.find? fun b => decide (key b = key a)).isSome = true)
  have hkey : key b = key a := by simpa using find?_some hb
  rw [hb, inj_on_of_nodup_map h (mem_of_find?_eq_some hb) ha hkey]

/-- The digest of a listed member is found by its name. -/
theorem rustcObjectDigest_of_listed (htrue : TrueDigests env trust objectDigest archive)
    {namesake : ArchiveContent} (hnamesake : namesake ∈ archive.members)
    (hlisted : ∃ object ∈ listedObjects env trust archive, object.identifier = namesake.ident) :
    (memberContext env trust archive previous).rustcObjectDigest namesake.identifier
      = some (objectDigest namesake.entryData) := by
  obtain ⟨object, hobject, hident⟩ := hlisted
  have hdigest := (htrue object hobject).2 namesake hnamesake hident.symm
  rw [listedObjects] at hobject
  cases hobjects : rustcObjectDigests env trust archive.members with
  | none =>
    rw [hobjects] at hobject
    cases hobject
  | some objects =>
    rw [hobjects, getD_some] at hobject
    have hnodup := (filter_eq_some_iff.mp hobjects).2
    have hfind := find?_of_nodup (of_decide_eq_true hnodup) hobject
    have hcontext : (memberContext env trust archive previous).objectDigests = some objects :=
      hobjects
    rw [MemberContext.rustcObjectDigest, hcontext, bind_some, objectDigestOf,
      ArchiveContent.identifier, ← hident, hfind, map_some, hdigest]

/-- Where namesakes agree, every turn of the loop gives what it gives without stored
fingerprints. -/
theorem memberHash_eq_of_namesakesAgree
    (hvalid : StoredValid env objectDigest archives (previous.getD []))
    (htrue : TrueDigests env trust objectDigest archive)
    (hhash : NoCollisions env objectDigest (archives ++ [archive]))
    (hagree : NamesakesAgree env trust objectDigest archive previous)
    (hcontent : content ∈ archive.members) (index : Nat) :
    (memberContext env trust archive previous).memberHash env index content
      = (memberContext env trust archive none).memberHash env index content := by
  rw [memberHash_memberContext, memberHash_memberContext, reused_none]
  refine if_ctx_congr Iff.rfl (fun _ => rfl) fun hskips => ?_
  cases hreused : (memberContext env trust archive previous).reused env index content with
  | none => rfl
  | some result =>
    obtain ⟨fingerprint, refreshed⟩ := result
    obtain ⟨digest, stored, hdigest, hstored, hidentifier, hlen, hranges, hobject, hparsed, rfl⟩ :=
      reused_eq_some hreused
    obtain ⟨namesake, hnamesake, hname, hlisted, rfl⟩ := rustcObjectDigest_spec htrue hdigest
    have hsame := hagree content hcontent namesake hnamesake hname hlisted
      (Bool.eq_false_iff.mpr hskips) ⟨stored, hstored, hidentifier, hobject, hlen, hranges⟩
    have hfingerprint := reused_spec hvalid hhash hcontent hstored hnamesake hobject hranges
    rw [← hsame] at hfingerprint
    rw [hfingerprint, parseBlake3HexDigest_hexEncode (length_memberPatchFingerprint _ _ _)]
      at hparsed
    cases hparsed
    have hdigest' : (memberContext env trust archive none).rustcObjectDigest content.identifier
        = some stored.rustcObjectDigest := by
      rw [hobject]
      exact hdigest
    dsimp only
    rw [MemberContext.computed, hdigest', map_some]
    cases stored
    dsimp only at hidentifier hlen hranges hfingerprint ⊢
    rw [hidentifier, hlen, hranges, hfingerprint]
    rfl

theorem storedFor_memberContext_none (member : ArchiveContent × Nat) :
    storedFor env (memberContext env trust archive none) member
      = if (memberContext env trust archive none).skips member.1.identifier then none
        else ((memberContext env trust archive none).computed env member.2 member.1).2 := by
  rw [storedFor, memberHash_memberContext, reused_none]
  split
  · rfl
  · rfl

theorem storedFor_isSome_eq (member : ArchiveContent × Nat) :
    (storedFor env (memberContext env trust archive previous) member).isSome
      = (storedFor env (memberContext env trust archive none) member).isSome := by
  cases hstored : storedFor env (memberContext env trust archive previous) member with
  | some p =>
    obtain ⟨hskips, -⟩ := storedFor_cases hstored
    obtain ⟨-, hdigest⟩ := storedFor_spec hstored
    exact (@storedFor_isSome env trust archive none member _ hskips hdigest).symm
  | none =>
    cases hnone : storedFor env (memberContext env trust archive none) member with
    | none => rfl
    | some p =>
      obtain ⟨hskips, -⟩ := storedFor_cases hnone
      obtain ⟨-, hdigest⟩ := storedFor_spec hnone
      have hsome := @storedFor_isSome env trust archive previous member _ hskips hdigest
      rw [hstored] at hsome
      cases hsome

/-- Where every turn of the loop stores what it stores without stored fingerprints, namesakes
agree. -/
theorem namesakesAgree_of_storedFor_eq
    (hvalid : StoredValid env objectDigest archives (previous.getD []))
    (htrue : TrueDigests env trust objectDigest archive)
    (hhash : NoCollisions env objectDigest (archives ++ [archive]))
    (hsame : ∀ member ∈ archive.members.zipIdx,
      storedFor env (memberContext env trust archive previous) member
        = storedFor env (memberContext env trust archive none) member) :
    NamesakesAgree env trust objectDigest archive previous := by
  intro content hcontent namesake hnamesake hname hlisted hskips
    ⟨stored, hstored, hidentifier, hobject, hlen, hranges⟩
  obtain ⟨i, hi, rfl⟩ := mem_iff_getElem.mp hcontent
  have hmember := hsame _ (mk_mem_zipIdx_iff_getElem?.mpr (getElem?_eq_getElem hi))
  have hfingerprint := reused_spec hvalid hhash hcontent hstored hnamesake hobject hranges
  have hdigest :=
    @rustcObjectDigest_of_listed env trust archive previous _ htrue _ hnamesake hlisted
  rw [hname, ← hobject] at hdigest
  have hfind := find?_of_nodup (fingerprintsByIdentifier_nodup (previous.getD [])) hstored
  rw [hidentifier] at hfind
  -- the stored fingerprint is taken over
  have hreused : (memberContext env trust archive previous).reused env i archive.members[i]
      = some (memberPatchFingerprint env namesake.entryData 0 (archive.rangesOf archive.members[i]),
          { stored with archiveMemberIndex := UInt64.ofNat i }) := by
    have hprevious : (memberContext env trust archive previous).previous
        = fingerprintsByIdentifier (previous.getD []) := rfl
    rw [MemberContext.reused, hdigest, bind_eq_bind, bind_some, hprevious, hfind,
      bind_eq_bind, bind_some, if_pos ⟨hlen, hranges, rfl⟩, hfingerprint,
      parseBlake3HexDigest_hexEncode (length_memberPatchFingerprint _ _ _)]
    rfl
  rw [storedFor, memberHash_memberContext, hskips, if_neg Bool.false_ne_true, hreused,
    storedFor_memberContext_none, if_neg (by rw [Bool.not_eq_true]; exact hskips)] at hmember
  obtain ⟨digest, -, hcomputed⟩ := map_eq_some_iff.mp hmember.symm
  have hequal := congrArg ArchiveMemberPatchFingerprint.fingerprint hcomputed
  dsimp only at hequal
  rw [hfingerprint] at hequal
  exact hexEncode_inj hequal

/-- **Taking over is computing** after any sequence of links exactly where the archive's members
agree with their listed namesakes. -/
theorem reuse_eq_recompute_iff {archives : List MaskedArchive}
    (htrue : ∀ archive' ∈ archives ++ [archive], TrueDigests env trust objectDigest archive')
    (hhash : NoCollisions env objectDigest (archives ++ [archive])) :
    archivePatchFingerprintWithPrevious env archive (storedAfter env trust archives) trust [] []
        = archivePatchFingerprintWithPrevious env archive none trust [] []
      ↔ NamesakesAgree env trust objectDigest archive (storedAfter env trust archives) := by
  have hvalid := stored_valid (fun a ha => htrue a (mem_append_left _ ha)) hhash.of_append
  have htrue' := htrue archive (mem_append_right _ (mem_singleton_self _))
  by_cases hread : archive.read = .ok (some archive.members)
  · rw [call_of_read hread, call_of_read hread]
    constructor
    · intro hequal
      have hstored := congrArg (·.2.getD []) (some.inj (Except.ok.inj hequal))
      rw [combineMemberHashes_stored, combineMemberHashes_stored, filterMap_memberHashes,
        filterMap_memberHashes] at hstored
      exact namesakesAgree_of_storedFor_eq hvalid htrue' hhash
        ((filterMap_eq_iff fun member _ => storedFor_isSome_eq member).mp hstored)
    · intro hagree
      have hhashes : memberHashes env
            (memberContext env trust archive (storedAfter env trust archives)) archive.members
          = memberHashes env (memberContext env trust archive none) archive.members := by
        refine filterMap_congr fun (content, index) hmember => ?_
        dsimp only
        rw [memberHash_eq_of_namesakesAgree hvalid htrue' hhash hagree
          (fst_mem_of_mem_zipIdx hmember)]
      rw [hhashes]
  · obtain ⟨hnil, hcall, -⟩ := call_of_not_read hread
    refine iff_of_true hcall fun content hcontent => ?_
    rw [hnil] at hcontent
    cases hcontent

end

/-! ## 7. Two archives -/

/-- A hash by the sum of the bytes, and no object files. -/
def sumEnv : FingerprintEnv where
  blake3 bytes := replicate 30 0 ++ leBytes 2 (bytes.map UInt8.toNat).sum
  length_blake3 _ := by simp
  parseMachOObject _ := none
  linkMetadataSection := some

/-- A library with one unit, and its digest. -/
def oneUnit : List ArchiveContent :=
  [⟨RUSTC_RLIB_LINK_METADATA_MEMBER,
      Rlib.rawObjectTrailer (some [⟨"a.cgu.1.rcgu.o".toList, hexEncode (sumEnv.blake3 [1])⟩])
        ++ Rlib.MAGIC_END_BYTES, 100⟩,
    ⟨utf8 "a.cgu.1.rcgu.o".toList, [1], 400⟩]

/-- The library with a unit of another invocation behind it. -/
def twoInvocations : List ArchiveContent :=
  oneUnit ++ [⟨utf8 "a.cgu.2.rcgu.o".toList, [2], 500⟩]

def unmasked (members : List ArchiveContent)
    (small : ∀ content ∈ members, content.entryData.length < 2 ^ 64) : MaskedArchive where
  entries := some (members.map fun content => .ok (.regular content))
  ranges := []
  sorted := List.Pairwise.nil
  ordered := fun _ h => absurd h not_mem_nil
  small := by
    intro list hlist content hcontent
    cases hlist
    obtain ⟨other, hother, heq⟩ := mem_map.mp hcontent
    obtain rfl := ArchiveEntry.regular.inj (Except.ok.inj heq)
    exact small other hother

def oneUnitArchive : MaskedArchive := unmasked oneUnit (by decide +kernel)

def twoInvocationsArchive : MaskedArchive := unmasked twoInvocations (by decide +kernel)

/-- The next link takes over what it would compute. -/
theorem reuse_eq_recompute_oneUnit :
    archivePatchFingerprintWithPrevious sumEnv oneUnitArchive
        (storedAfter sumEnv true [oneUnitArchive]) true [] []
      = archivePatchFingerprintWithPrevious sumEnv oneUnitArchive none true [] [] := by
  have htrue : ∀ archive ∈ [oneUnitArchive] ++ [oneUnitArchive],
      TrueDigests sumEnv true (fun data => hexEncode (sumEnv.blake3 data)) archive := by
    simp only [TrueDigests]
    decide +kernel
  have hhash : NoCollisions sumEnv (fun data => hexEncode (sumEnv.blake3 data))
      ([oneUnitArchive] ++ [oneUnitArchive]) :=
    ⟨by decide +kernel, by decide +kernel⟩
  refine (reuse_eq_recompute_iff htrue hhash).mpr ?_
  rw [NamesakesAgree]
  decide +kernel

/-- **The namesake of a listed member is not hashed**: the other invocation's unit gets the
fingerprint of the first. -/
theorem namesake_is_not_hashed :
    ¬ ∀ (env : FingerprintEnv) (trust : Bool) (objectDigest : Bytes → Text)
      (archives : List MaskedArchive) (archive : MaskedArchive),
      (∀ archive' ∈ archives ++ [archive], TrueDigests env trust objectDigest archive') →
      NoCollisions env objectDigest (archives ++ [archive]) →
      archivePatchFingerprintWithPrevious env archive (storedAfter env trust archives) trust [] []
        = archivePatchFingerprintWithPrevious env archive none trust [] [] := by
  intro h
  have htrue : ∀ archive ∈ [oneUnitArchive] ++ [twoInvocationsArchive],
      TrueDigests sumEnv true (fun data => hexEncode (sumEnv.blake3 data)) archive := by
    simp only [TrueDigests]
    decide +kernel
  have hhash : NoCollisions sumEnv (fun data => hexEncode (sumEnv.blake3 data))
      ([oneUnitArchive] ++ [twoInvocationsArchive]) :=
    ⟨by decide +kernel, by decide +kernel⟩
  have hdiffer : returned (archivePatchFingerprintWithPrevious sumEnv twoInvocationsArchive
        (storedAfter sumEnv true [oneUnitArchive]) true [] [])
      ≠ returned (archivePatchFingerprintWithPrevious sumEnv twoInvocationsArchive none
        true [] []) := by
    decide +kernel
  refine hdiffer (congrArg returned ?_)
  exact h sumEnv true _ [oneUnitArchive] twoInvocationsArchive htrue hhash

end Srs.Incremental
