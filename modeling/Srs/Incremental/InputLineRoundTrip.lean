/-
# The line of an input file reads back

A line that `render_input_line_rest` writes is read back by `parse_input_line` as the state it
was written from, whichever of the optional columns are there.  Two things are behind this.

* The columns that may be left out are nested: the writer fills a column in whenever a later one
  is written.  So the columns that are there are an initial segment of the five, and each is
  found at its own position (`getElem?_reduceOption`).
* Each column is a codec of its own, and none of them writes the absent marker for a value that
  is present.

The second does not hold for every value of the types.  An empty list of fingerprints is written
as an empty column, which the reader refuses; `FileState.Accepted` collects what the reader asks
for beyond the alphabets of the texts (`FileState.Plain`).
-/
import Srs.Incremental.InputLine
import Srs.Incremental.MachOArchiveRoundTrip

namespace Srs.Incremental

open Text Bytes List FileState Decimal

/-! ## 1. Texts and columns -/

/-- A text with none of the separators of an input line. -/
def CleanText (t : Text) : Prop := PlainText t ∧ FieldText t

instance (t : Text) : Decidable (CleanText t) := inferInstanceAs (Decidable (_ ∧ _))

theorem plainText_hexEncode (bytes : Bytes) : PlainText (hexEncode bytes) :=
  ⟨not_mem_hexEncode (by decide) bytes, not_mem_hexEncode (by decide) bytes⟩

variable {α : Type} {digest : Text} {proof : ArchiveMemberSetProof}
  {fingerprints : List ArchiveMemberPatchFingerprint} {object : RustcRlibRawObjectDigest}
  {patch : FilePatchState}

theorem cleanText_render [Decimal α] (a : α) : CleanText (render a) :=
  ⟨plainText_render a, fieldText_render a⟩

theorem cleanText_hexEncode (bytes : Bytes) : CleanText (hexEncode bytes) :=
  ⟨plainText_hexEncode bytes, fieldText_hexEncode bytes⟩

theorem cleanText_digest (h : isBlake3HexDigest digest = true) :
    CleanText digest := by
  refine ⟨⟨?_, ?_⟩, ?_, ?_⟩
  all_goals exact not_mem_of_isBlake3HexDigest h (by decide)

theorem cleanText_getD {o : Option Text} (h : ∀ t ∈ o, CleanText t) :
    CleanText (o.getD absentField) := by
  cases o with
  | none => exact ⟨plainText_absentField, fieldText_absentField⟩
  | some t => exact h t rfl

variable {sep : Char}

theorem plainText_join (htab : '\t' ≠ sep) (hnewline : '\n' ≠ sep)
    {pieces : List Text} (h : ∀ p ∈ pieces, PlainText p) : PlainText (join sep pieces) :=
  ⟨not_mem_join htab fun p hp => (h p hp).1, not_mem_join hnewline fun p hp => (h p hp).2⟩

theorem digest_ne_absentField (h : isBlake3HexDigest digest = true) :
    digest ≠ absentField := by
  rintro rfl
  exact absurd h (by decide)

/-- A text with a colon in it is not the absent marker. -/
theorem ne_absentField_of_colon_mem {t : Text} (h : ':' ∈ t) : t ≠ absentField := by
  rintro rfl
  exact absurd h (by decide)

theorem colon_mem_join_cons (a b : Text) (rest : List Text) : ':' ∈ join ':' (a :: b :: rest) := by
  rw [join_cons_cons]
  simp

/-- **An optional column reads back** when its text is not the absent marker and reads back. -/
theorem parseOptionalColumn_map {α : Type} {parse : Text → Result α} {render : α → Text}
    {o : Option α} (h : ∀ a ∈ o, render a ≠ absentField ∧ parse (render a) = .ok a) :
    parseOptionalColumn parse (o.map render) = .ok o := by
  cases o with
  | none => rfl
  | some a =>
    obtain ⟨hne, hparse⟩ := h a rfl
    simp [parseOptionalColumn, optionalText, hne, hparse, Except.map]

/-- The absent marker reads like a column that is not there. -/
theorem parseOptionalColumn_orAbsent (parse : Text → Result α) (column : Option Text)
    (needed : Bool) :
    parseOptionalColumn parse (orAbsent column needed) = parseOptionalColumn parse column := by
  cases column with
  | some t => rfl
  | none =>
    cases needed with
    | false => rfl
    | true => simp [orAbsent, parseOptionalColumn, optionalText]

/-- A column that a later one needs is written. -/
theorem isSome_orAbsent (column : Option Text) {needed : Bool} (h : needed = true) :
    (orAbsent column needed).isSome = true := by
  subst h
  cases column <;> rfl

/-- **Nested columns are found at their positions**: when a column is written only if the
earlier ones are, leaving out the absent ones moves nothing. -/
theorem getElem?_reduceOption {columns : List (Option α)}
    (h : columns.Pairwise fun earlier later => later.isSome = true → earlier.isSome = true) :
    ∀ i : Nat, columns.reduceOption[i]? = columns[i]?.join := by
  induction columns with
  | nil => simp
  | cons column rest ih =>
    obtain ⟨hcolumn, hrest⟩ := pairwise_cons.mp h
    intro i
    cases column with
    | some a =>
      rw [reduceOption_cons_of_some]
      cases i with
      | zero => rfl
      | succ i => exact ih hrest i
    | none =>
      have hnone : ∀ later ∈ rest, later = none := by
        intro later hlater
        cases later with
        | none => rfl
        | some a => exact absurd (hcolumn _ hlater rfl) (by simp)
      have hempty : rest.reduceOption = [] := by
        rw [reduceOption, filterMap_eq_nil_iff]
        exact hnone
      rw [reduceOption_cons_of_none, hempty]
      cases i with
      | zero => rfl
      | succ i =>
        rw [getElem?_cons_succ]
        cases hget : rest[i]? with
        | none => rfl
        | some later =>
          rw [hnone later (mem_of_getElem? hget)]
          rfl

/-! ## 2. Identities and the proof about the members -/

theorem split_identity (identity : FileIdentity) :
    split ':' identity.render = [render identity.len, render identity.dev,
      render identity.ino, render identity.modifiedSec,
      render identity.modifiedNsec, render identity.changedSec,
      render identity.changedNsec] := by
  refine split_join (by simp) ?_
  simp [colon_not_mem]

theorem FileIdentity.parse_render (identity : FileIdentity) :
    FileIdentity.parse identity.render = .ok (some identity) := by
  have hne : identity.render ≠ absentField :=
    ne_absentField_of_colon_mem (colon_mem_join_cons _ _ _)
  simp [FileIdentity.parse, hne, split_identity, noMoreParts]

theorem parseIdentityColumn_render (identity : Option FileIdentity) :
    parseIdentityColumn (some (renderIdentity identity)) = .ok identity := by
  cases identity with
  | none => simp [parseIdentityColumn, renderIdentity, FileIdentity.parse]
  | some identity => exact identity.parse_render

theorem plainText_renderIdentity (identity : Option FileIdentity) :
    PlainText (renderIdentity identity) := by
  cases identity with
  | none => exact plainText_absentField
  | some identity =>
    refine plainText_join (by decide) (by decide) ?_
    simp [plainText_render]

/-- The texts of a proof use the alphabet of the line. -/
structure ArchiveMemberSetProof.Plain (proof : ArchiveMemberSetProof) : Prop where
  rawOrderedHash : CleanText proof.rawOrderedHash
  normalizedOrderedHash : CleanText proof.normalizedOrderedHash
  digest : ∀ digest ∈ proof.rustcLinkContentDigest, isBlake3HexDigest digest = true

theorem parseRustcLinkContentDigest_ok (h : isBlake3HexDigest digest = true) :
    parseRustcLinkContentDigest digest = .ok digest := by
  simp [parseRustcLinkContentDigest, h]

theorem cleanText_proofFields (h : proof.Plain) :
    ∀ t ∈ [proof.rawOrderedHash, proof.normalizedOrderedHash, render proof.memberCount,
      proof.rustcLinkContentDigest.getD absentField], CleanText t := by
  intro t ht
  simp only [mem_cons, not_mem_nil, or_false] at ht
  rcases ht with rfl | rfl | rfl | rfl
  · exact h.rawOrderedHash
  · exact h.normalizedOrderedHash
  · exact cleanText_render _
  · exact cleanText_getD fun digest hd => cleanText_digest (h.digest digest hd)

theorem parseArchiveMemberSetProof_render (h : proof.Plain) :
    parseArchiveMemberSetProof (renderArchiveMemberSetProof proof) = .ok proof := by
  have hsplit := @split_join ':' _ (by simp) fun t ht => (cleanText_proofFields h t ht).2.2
  have hdigest : parseOptionalColumn parseRustcLinkContentDigest
      (some (proof.rustcLinkContentDigest.getD absentField))
      = .ok proof.rustcLinkContentDigest := by
    have hmap := @parseOptionalColumn_map _ parseRustcLinkContentDigest id
      proof.rustcLinkContentDigest fun digest hd =>
        ⟨digest_ne_absentField (h.digest digest hd),
          parseRustcLinkContentDigest_ok (h.digest digest hd)⟩
    rw [Option.map_id, id, ← parseOptionalColumn_orAbsent _ _ true] at hmap
    rw [← hmap]
    cases proof.rustcLinkContentDigest <;> rfl
  simp [parseArchiveMemberSetProof, renderArchiveMemberSetProof, hsplit, nextPart, hdigest,
    noMoreParts]

theorem plainText_renderArchiveMemberSetProof (h : proof.Plain) :
    PlainText (renderArchiveMemberSetProof proof) :=
  plainText_join (by decide) (by decide) fun t ht => (cleanText_proofFields h t ht).1

/-! ## 3. The fingerprints of the members -/

/-- The digests of a fingerprint are digests. -/
structure ArchiveMemberPatchFingerprint.Plain (fingerprint : ArchiveMemberPatchFingerprint) :
    Prop where
  rangesHash : isBlake3HexDigest fingerprint.rangesHash = true
  rustcObjectDigest : isBlake3HexDigest fingerprint.rustcObjectDigest = true
  fingerprint : isBlake3HexDigest fingerprint.fingerprint = true

variable {f : ArchiveMemberPatchFingerprint}

theorem cleanText_fingerprintFields (h : f.Plain) :
    ∀ t ∈ archiveMemberPatchFingerprintFields f, CleanText t := by
  intro t ht
  simp only [archiveMemberPatchFingerprintFields, mem_cons, not_mem_nil, or_false] at ht
  rcases ht with rfl | rfl | rfl | rfl | rfl | rfl
  · exact cleanText_render _
  · exact cleanText_hexEncode _
  · exact cleanText_render _
  · exact cleanText_digest h.rangesHash
  · exact cleanText_digest h.rustcObjectDigest
  · exact cleanText_digest h.fingerprint

/-- One fingerprint is read after others with different indices. -/
theorem parseArchiveMemberPatchFingerprint_render
    (h : f.Plain) (hidentifier : f.identifier ≠ []) {parsed : List ArchiveMemberPatchFingerprint}
    (hnew : f.archiveMemberIndex ∉ parsed.map (·.archiveMemberIndex)) :
    parseArchiveMemberPatchFingerprint parsed (join ':' (archiveMemberPatchFingerprintFields f))
      = .ok (parsed ++ [f]) := by
  have hsplit : split ':' (join ':' (archiveMemberPatchFingerprintFields f))
      = archiveMemberPatchFingerprintFields f :=
    split_join (by simp [archiveMemberPatchFingerprintFields])
      fun t ht => (cleanText_fingerprintFields h t ht).2.2
  simp only [parseArchiveMemberPatchFingerprint, hsplit]
  simp only [archiveMemberPatchFingerprintFields, nextNumber_cons, ok_bind, nextPart,
    hexDecode_hexEncode, context_some]
  rw [failIf_neg]
  · rfl
  · simp [hidentifier, h.rangesHash, h.rustcObjectDigest, h.fingerprint, hnew]

/-- **The loop over the fingerprints**: each is read, since no index comes twice. -/
theorem foldlM_parseArchiveMemberPatchFingerprint :
    ∀ {fingerprints : List ArchiveMemberPatchFingerprint},
      (∀ f ∈ fingerprints, f.Plain ∧ f.identifier ≠ []) →
      ∀ {parsed : List ArchiveMemberPatchFingerprint},
        ((parsed ++ fingerprints).map (·.archiveMemberIndex)).Nodup →
        (fingerprints.map fun f => join ':' (archiveMemberPatchFingerprintFields f)).foldlM
            parseArchiveMemberPatchFingerprint parsed
          = .ok (parsed ++ fingerprints) := by
  intro fingerprints
  induction fingerprints with
  | nil =>
    intro _ parsed _
    simp
  | cons f rest ih =>
    intro h parsed hnodup
    obtain ⟨hplain, hidentifier⟩ := h f (by simp)
    have hnew : f.archiveMemberIndex ∉ parsed.map (·.archiveMemberIndex) := by
      rw [map_append, map_cons] at hnodup
      intro hmem
      exact (nodup_append.mp hnodup).2.2 _ hmem _ (by simp) rfl
    have hrest := ih (fun x hx => h x (mem_cons_of_mem _ hx))
      (by simpa using hnodup : ((parsed ++ [f] ++ rest).map (·.archiveMemberIndex)).Nodup)
    rw [map_cons, foldlM_cons,
      parseArchiveMemberPatchFingerprint_render hplain hidentifier hnew, ok_bind, hrest]
    simp

theorem plainText_renderArchiveMemberPatchFingerprints (h : ∀ f ∈ fingerprints, f.Plain) :
    PlainText (renderArchiveMemberPatchFingerprints fingerprints) := by
  refine plainText_join (by decide) (by decide) ?_
  intro p hp
  obtain ⟨f, hf, rfl⟩ := mem_map.mp hp
  exact plainText_join (by decide) (by decide)
    fun t ht => (cleanText_fingerprintFields (h f hf) t ht).1

/-- A column made of colon-separated pieces is neither empty nor the absent marker. -/
theorem colon_mem_join {render : α → Text}
    (hrender : ∀ a, ':' ∈ render a) {l : List α} (hne : l ≠ []) :
    ':' ∈ join sep (l.map render) := by
  obtain ⟨a, rest, rfl⟩ := exists_cons_of_ne_nil hne
  cases rest with
  | nil => simpa using hrender a
  | cons b rest =>
    rw [map_cons, map_cons, join_cons_cons]
    exact mem_append_left _ (hrender a)

theorem colon_mem_renderArchiveMemberPatchFingerprints (hne : fingerprints ≠ []) :
    ':' ∈ renderArchiveMemberPatchFingerprints fingerprints :=
  colon_mem_join (fun _ => colon_mem_join_cons _ _ _) hne

theorem parseArchiveMemberPatchFingerprints_render (hne : fingerprints ≠ [])
    (h : ∀ f ∈ fingerprints, f.Plain ∧ f.identifier ≠ [])
    (hnodup : (fingerprints.map (·.archiveMemberIndex)).Nodup) :
    parseArchiveMemberPatchFingerprints (renderArchiveMemberPatchFingerprints fingerprints)
      = .ok fingerprints := by
  have hcolumn : renderArchiveMemberPatchFingerprints fingerprints ≠ [] :=
    ne_nil_of_mem (colon_mem_renderArchiveMemberPatchFingerprints hne)
  have hsplit : split ',' (renderArchiveMemberPatchFingerprints fingerprints)
      = fingerprints.map fun f => join ':' (archiveMemberPatchFingerprintFields f) := by
    refine split_join (by simpa using hne) ?_
    intro p hp
    obtain ⟨f, hf, rfl⟩ := mem_map.mp hp
    exact not_mem_join (by decide) fun t ht => (cleanText_fingerprintFields (h f hf).1 t ht).2.1
  have hloop := @foldlM_parseArchiveMemberPatchFingerprint fingerprints h [] hnodup
  rw [parseArchiveMemberPatchFingerprints, failIf_neg _ hcolumn, ok_bind, hsplit, hloop]
  rfl

/-! ## 4. The object manifest -/

/-- An object that was hashed has a name and a digest. -/
theorem rawObjectHashInput_eq_some {update : Bytes} (h : rawObjectHashInput object = some update) :
    object.identifier ≠ [] ∧ isBlake3HexDigest object.digest = true := by
  simp only [rawObjectHashInput, Option.bind_eq_bind, Option.bind_eq_some_iff] at h
  obtain ⟨moduleName, hname, hupdate⟩ := h
  constructor
  · intro hnil
    have hnone : rustcRlibModuleNameFromObjectIdentifier [] = none := by decide
    rw [hnil, hnone] at hname
    exact absurd hname (by simp)
  · by_contra hdigest
    rw [Bool.not_eq_true] at hdigest
    simp [hdigest] at hupdate

/-- Every element of a list that was mapped was mapped. -/
theorem exists_of_mapM_eq_some {β : Type} {f : α → Option β} : ∀ {l : List α} {l' : List β},
    l.mapM f = some l' → ∀ a ∈ l, ∃ b, f a = some b
  | [], _, _ => by simp
  | a :: rest, l', h => by
    simp only [mapM_cons, Option.bind_eq_bind, Option.bind_eq_some_iff] at h
    obtain ⟨b, hb, rest', hrest, -⟩ := h
    intro x hx
    rcases mem_cons.mp hx with rfl | hx
    · exact ⟨b, hb⟩
    · exact exists_of_mapM_eq_some hrest x hx

theorem rawObjects_valid {blake3Hex : Bytes → Text} {objects : List RustcRlibRawObjectDigest}
    (h : rustcRlibLinkContentDigestFromRawObjects blake3Hex objects = some digest) :
    ∀ object ∈ objects, object.identifier ≠ [] ∧ isBlake3HexDigest object.digest = true := by
  simp only [rustcRlibLinkContentDigestFromRawObjects, Option.bind_eq_bind,
    Option.bind_eq_some_iff] at h
  obtain ⟨updates, hupdates, -⟩ := h
  intro object hobject
  obtain ⟨update, hupdate⟩ := exists_of_mapM_eq_some hupdates object hobject
  exact rawObjectHashInput_eq_some hupdate

theorem cleanText_rawObject (h : isBlake3HexDigest object.digest = true) :
    ∀ t ∈ [hexEncode object.identifier, object.digest], CleanText t := by
  intro t ht
  simp only [mem_cons, not_mem_nil, or_false] at ht
  rcases ht with rfl | rfl
  · exact cleanText_hexEncode _
  · exact cleanText_digest h

/-- One object is read after others with different normalised identifiers. -/
theorem parseRawObject_render
    (hidentifier : object.identifier ≠ []) (hdigest : isBlake3HexDigest object.digest = true)
    {parsed : List RustcRlibRawObjectDigest} (hnew : archiveMemberPatchIdentifier object.identifier
      ∉ parsed.map fun o => archiveMemberPatchIdentifier o.identifier) :
    parseRawObject parsed (renderRawObject object) = .ok (parsed ++ [object]) := by
  have hsplit : splitOnce ':' (renderRawObject object)
      = some (hexEncode object.identifier, object.digest) := by
    rw [renderRawObject, splitOnce_join (fieldText_hexEncode _).2, join_singleton]
  simp only [parseRawObject, hsplit, context_some, ok_bind, hexDecode_hexEncode]
  rw [failIf_neg]
  · rfl
  · simp only [hidentifier, hdigest, hnew, Bool.true_eq_false, or_self, not_false_eq_true]

/-- **The loop over the objects**: each is read, since no normalised identifier comes twice. -/
theorem foldlM_parseRawObject : ∀ {objects : List RustcRlibRawObjectDigest},
    (∀ o ∈ objects, o.identifier ≠ [] ∧ isBlake3HexDigest o.digest = true) →
    ∀ {parsed : List RustcRlibRawObjectDigest},
      ((parsed ++ objects).map fun o => archiveMemberPatchIdentifier o.identifier).Nodup →
      (objects.map renderRawObject).foldlM parseRawObject parsed = .ok (parsed ++ objects) := by
  intro objects
  induction objects with
  | nil =>
    intro _ parsed _
    simp
  | cons object rest ih =>
    intro h parsed hnodup
    obtain ⟨hidentifier, hdigest⟩ := h object (by simp)
    have hnew : archiveMemberPatchIdentifier object.identifier
        ∉ parsed.map fun o => archiveMemberPatchIdentifier o.identifier := by
      rw [map_append, map_cons] at hnodup
      intro hmem
      exact (nodup_append.mp hnodup).2.2 _ hmem _ (by simp) rfl
    have hrest := ih (fun x hx => h x (mem_cons_of_mem _ hx))
      (by simpa using hnodup : ((parsed ++ [object] ++ rest).map
        fun o => archiveMemberPatchIdentifier o.identifier).Nodup)
    rw [map_cons, foldlM_cons, parseRawObject_render hidentifier hdigest hnew, ok_bind,
      hrest]
    simp

/-- What the writer is promised about a manifest, and what the reader checks. -/
structure RustcRlibRawObjectManifest.Consistent (blake3Hex : Bytes → Text)
    (manifest : RustcRlibRawObjectManifest) : Prop where
  digest : isBlake3HexDigest manifest.linkContentDigest = true
  objects : rustcRlibLinkContentDigestFromRawObjects blake3Hex manifest.orderedObjects
    = some manifest.linkContentDigest
  distinct : (manifest.orderedObjects.map
    fun o => archiveMemberPatchIdentifier o.identifier).Nodup

variable {manifest : RustcRlibRawObjectManifest}

theorem parseRustcRlibRawObjectManifest_render {blake3Hex : Bytes → Text} (h : manifest.Consistent blake3Hex) :
    parseRustcRlibRawObjectManifest blake3Hex (renderRustcRlibRawObjectManifest manifest)
        (some manifest.linkContentDigest)
      = .ok manifest := by
  have hvalid := rawObjects_valid h.objects
  have hparts := splitn_join_three (c := join ',' (manifest.orderedObjects.map renderRawObject))
    (cleanText_digest h.digest).2.2 (colon_not_mem manifest.orderedObjects.length)
  have hpieces : (if join ',' (manifest.orderedObjects.map renderRawObject) = [] then []
      else split ',' (join ',' (manifest.orderedObjects.map renderRawObject)))
      = manifest.orderedObjects.map renderRawObject := by
    by_cases hnil : manifest.orderedObjects = []
    · simp [hnil]
    · have hne : join ',' (manifest.orderedObjects.map renderRawObject) ≠ [] :=
        ne_nil_of_mem (colon_mem_join (fun _ => colon_mem_join_cons _ _ _) hnil)
      rw [if_neg hne]
      refine split_join (by simpa using hnil) ?_
      intro p hp
      obtain ⟨o, ho, rfl⟩ := mem_map.mp hp
      exact not_mem_join (by decide) fun t ht => (cleanText_rawObject (hvalid o ho).2 t ht).2.1
  have hloop := @foldlM_parseRawObject manifest.orderedObjects hvalid [] h.distinct
  rw [nil_append] at hloop
  simp only [parseRustcRlibRawObjectManifest, renderRustcRlibRawObjectManifest, hparts, nextPart,
    ok_bind, nextNumber_cons, hpieces, hloop]
  rw [failIf_neg _ (by simp [h.digest]), ok_bind, failIf_neg _ (by simp), ok_bind,
    failIf_neg _ (by simp [h.objects])]
  rfl

theorem plainText_renderRustcRlibRawObjectManifest {blake3Hex : Bytes → Text} (h : manifest.Consistent blake3Hex) :
    PlainText (renderRustcRlibRawObjectManifest manifest) := by
  have hobjects : PlainText (join ',' (manifest.orderedObjects.map renderRawObject)) := by
    refine plainText_join (by decide) (by decide) ?_
    intro p hp
    obtain ⟨o, ho, rfl⟩ := mem_map.mp hp
    exact plainText_join (by decide) (by decide)
      fun t ht => (cleanText_rawObject (rawObjects_valid h.objects o ho).2 t ht).1
  refine plainText_join (by decide) (by decide) ?_
  intro p hp
  simp only [mem_cons, not_mem_nil, or_false] at hp
  rcases hp with rfl | rfl | rfl
  · exact (cleanText_digest h.digest).1
  · exact plainText_render _
  · exact hobjects

/-! ## 5. The patch state -/

theorem plainText_renderMachoArchiveMemberStates (states : List MachOArchiveActivationState) :
    PlainText (renderMachoArchiveMemberStates states) := by
  refine plainText_join (by decide) (by decide) ?_
  intro p hp
  obtain ⟨state, -, rfl⟩ := mem_map.mp hp
  refine plainText_join (by decide) (by decide) ?_
  have hhex : ∀ t, PlainText (hexField t) := fun t => plainText_hexEncode _
  cases hactive : state.active with
  | false => simp [machoArchiveMemberStateFields, hactive, hhex, (by decide : PlainText ['0'])]
  | true => simp [machoArchiveMemberStateFields, hactive, hhex, (by decide : PlainText ['1'])]

theorem colon_mem_renderMachoArchiveMemberStates {states : List MachOArchiveActivationState}
    (hne : states ≠ []) : ':' ∈ renderMachoArchiveMemberStates states :=
  colon_mem_join (fun _ => colon_mem_join_cons _ _ _) hne

/-- The sections of a patch state survive a line read in the given mode. -/
def FilePatchState.SectionsReadable (mode : PatchSectionReadMode) (patch : FilePatchState) :
    Prop :=
  match mode with
  | .parse => patch.rawSections = none ∧ ∀ s ∈ patch.sections,
      s.Plain ∧ PlainText s.input ∧ (∀ hash ∈ s.dataHash, PlainText hash)
        ∧ ∀ hash ∈ s.cstringNulBoundariesHash, PlainText hash
  | .preserveRaw => patch.sections = [] ∧ ∃ raw, patch.rawSections = some raw
      ∧ PlainText raw ∧ raw ≠ absentField

theorem plainText_patchSectionFields {s : FilePatchSectionState} (hinput : PlainText s.input)
    (hdata : ∀ hash ∈ s.dataHash, PlainText hash)
    (hcstring : ∀ hash ∈ s.cstringNulBoundariesHash, PlainText hash) :
    ∀ t ∈ patchSectionFields s, PlainText t := by
  have hgetD : ∀ {o : Option Text}, (∀ t ∈ o, PlainText t) → PlainText (o.getD absentField) := by
    intro o ho
    cases o with
    | none => exact plainText_absentField
    | some t => exact ho t rfl
  intro t ht
  simp only [patchSectionFields, mem_append, mem_cons, not_mem_nil, or_false,
    Option.mem_toList] at ht
  rcases ht with (rfl | rfl | rfl | rfl | rfl | rfl | rfl) | ht
  · exact hinput
  · exact plainText_render _
  · exact plainText_render _
  · exact plainText_render _
  · exact plainText_render _
  · refine hgetD ?_
    intro t ht
    obtain ⟨name, -, rfl⟩ := Option.map_eq_some_iff.mp ht
    exact plainText_hexEncode _
  · exact hgetD hdata
  · exact hcstring t ht

theorem renderPatchSections_of_parse (h : patch.rawSections = none) :
    renderPatchSections patch = renderPatchSectionStates patch.sections := by
  unfold renderPatchSections
  rw [h]
  cases patch.sections <;> rfl

theorem renderPatchSections_of_preserveRaw {raw : Text}
    (hsections : patch.sections = []) (h : patch.rawSections = some raw) :
    renderPatchSections patch = raw := by
  unfold renderPatchSections
  rw [hsections, h]

/-- The column of the sections can stand in a line and is not the absent marker. -/
theorem renderPatchSections_column {mode : PatchSectionReadMode} (h : patch.SectionsReadable mode) :
    PlainText (renderPatchSections patch) ∧ renderPatchSections patch ≠ absentField := by
  cases mode with
  | parse =>
    obtain ⟨hraw, hsections⟩ := h
    rw [renderPatchSections_of_parse hraw]
    constructor
    · refine plainText_join (by decide) (by decide) ?_
      intro p hp
      obtain ⟨s, hs, rfl⟩ := mem_map.mp hp
      obtain ⟨-, hinput, hdata, hcstring⟩ := hsections s hs
      exact plainText_join (by decide) (by decide)
        (plainText_patchSectionFields hinput hdata hcstring)
    · by_cases hnil : patch.sections = []
      · rw [hnil]
        decide
      · exact ne_absentField_of_colon_mem (colon_mem_join (fun _ => colon_mem_join_cons _ _ _) hnil)
  | preserveRaw =>
    obtain ⟨hsections, raw, hraw, hplain, hne⟩ := h
    rw [renderPatchSections_of_preserveRaw hsections hraw]
    exact ⟨hplain, hne⟩

/-- What a patch state must be like to be read back. -/
structure FilePatchState.Readable (path : Text) (mode : PatchSectionReadMode)
    (patch : FilePatchState) : Prop where
  fingerprint : PlainText patch.fingerprint ∧ patch.fingerprint ≠ absentField
  setProof : ∀ proof ∈ patch.archiveMemberSetProof, proof.Plain
  memberFingerprints : ∀ fingerprints ∈ patch.archiveMemberPatchFingerprints,
    fingerprints ≠ [] ∧ (∀ f ∈ fingerprints, f.Plain ∧ f.identifier ≠ [])
      ∧ (fingerprints.map (·.archiveMemberIndex)).Nodup
  machoPlain : ∀ state ∈ patch.machoArchiveMembers, state.Plain
  machoAccepted : StatesAccepted path patch.machoArchiveMembers
  sections : patch.SectionsReadable mode

variable {path : Text}

/-- **The patch state reads back** from its fingerprint, its sections and the columns about
archive members. -/
theorem parseFilePatchState_render {mode : PatchSectionReadMode}
    (h : patch.Readable path mode) :
    parseFilePatchState path (some patch.fingerprint) (some (renderPatchSections patch))
        patch.archiveMemberSetProof patch.archiveMemberPatchFingerprints patch.machoArchiveMembers
        mode
      = .ok (some patch) := by
  have hsections := h.sections
  obtain ⟨fingerprint, proof, fingerprints, members, sections, rawSections⟩ := patch
  cases mode with
  | parse =>
    obtain ⟨rfl, hplain⟩ := hsections
    have hparse := parsePatchSections_render path fun s hs => (hplain s hs).1
    simp only [parseFilePatchState, renderPatchSections_of_parse, hparse, ok_bind]
    rfl
  | preserveRaw =>
    obtain ⟨rfl, raw, rfl, -⟩ := hsections
    rfl

/-! ## 6. The columns of a line -/

/-- What an input must be like for its line to be read back in the given mode. -/
structure FileState.Readable (blake3Hex : Bytes → Text) (mode : PatchSectionReadMode)
    (input : FileState) : Prop where
  path : PlainText input.path
  hash : PlainText input.content.hash
  digest : ∀ digest ∈ input.rustcLinkContentDigest, isBlake3HexDigest digest = true
  manifest : ∀ manifest ∈ input.rustcRawObjectManifest,
    input.rustcLinkContentDigest = some manifest.linkContentDigest
      ∧ manifest.Consistent blake3Hex
  patch : ∀ patch ∈ input.patch, patch.Readable input.path mode

/-- The members of the patch state, none when there is no patch state. -/
def FileState.machoArchiveMembers (input : FileState) : List MachOArchiveActivationState :=
  (input.patch.map (·.machoArchiveMembers)).getD []

/-- Each of the later columns is written only when the earlier ones are. -/
theorem laterInputColumns_getElem? (input : FileState) (i : Nat) :
    (laterInputColumns input)[i]?
      = [archiveMemberSetProofColumn input, archiveMemberPatchFingerprintsColumn input,
          rustcLinkContentDigestColumn input, rustcRawObjectManifestColumn input,
          machoArchiveMembersColumn input][i]?.join := by
  have hmanifest : (machoArchiveMembersColumn input).isSome = true →
      (rustcRawObjectManifestColumn input).isSome = true := isSome_orAbsent _
  have hdigest : (rustcRawObjectManifestColumn input).isSome = true →
      (rustcLinkContentDigestColumn input).isSome = true :=
    fun h => isSome_orAbsent _ (by simp [h])
  have hfingerprints : (rustcLinkContentDigestColumn input).isSome = true →
      (archiveMemberPatchFingerprintsColumn input).isSome = true :=
    fun h => isSome_orAbsent _ (by simp [h])
  have hproof : (archiveMemberPatchFingerprintsColumn input).isSome = true →
      (archiveMemberSetProofColumn input).isSome = true :=
    fun h => isSome_orAbsent _ (by simp [h])
  refine getElem?_reduceOption ?_ i
  simp only [pairwise_cons, mem_cons, not_mem_nil, or_false, forall_eq_or_imp,
    forall_eq, false_imp_iff, implies_true, List.Pairwise.nil, and_true]
  exact ⟨⟨hproof, fun h => hproof (hfingerprints h),
      fun h => hproof (hfingerprints (hdigest h)),
      fun h => hproof (hfingerprints (hdigest (hmanifest h)))⟩,
    ⟨hfingerprints, fun h => hfingerprints (hdigest h),
      fun h => hfingerprints (hdigest (hmanifest h))⟩,
    ⟨hdigest, fun h => hdigest (hmanifest h)⟩, hmanifest⟩

section Columns

variable {blake3Hex : Bytes → Text} {mode : PatchSectionReadMode} {input : FileState}

section

variable (h : input.Readable blake3Hex mode)
include h

theorem parse_archiveMemberSetProofColumn :
    parseOptionalColumn parseArchiveMemberSetProof (archiveMemberSetProofColumn input)
      = .ok (input.patch.bind (·.archiveMemberSetProof)) := by
  rw [archiveMemberSetProofColumn, parseOptionalColumn_orAbsent]
  refine parseOptionalColumn_map ?_
  intro proof hproof
  obtain ⟨patch, hpatch, hproof⟩ := Option.bind_eq_some_iff.mp hproof
  exact ⟨ne_absentField_of_colon_mem (colon_mem_join_cons _ _ _),
    parseArchiveMemberSetProof_render ((h.patch patch hpatch).setProof proof hproof)⟩

theorem parse_archiveMemberPatchFingerprintsColumn :
    parseOptionalColumn parseArchiveMemberPatchFingerprints
        (archiveMemberPatchFingerprintsColumn input)
      = .ok (input.patch.bind (·.archiveMemberPatchFingerprints)) := by
  rw [archiveMemberPatchFingerprintsColumn, parseOptionalColumn_orAbsent]
  refine parseOptionalColumn_map ?_
  intro fingerprints hmem
  obtain ⟨patch, hpatch, hmem⟩ := Option.bind_eq_some_iff.mp hmem
  obtain ⟨hne, hplain, hnodup⟩ := (h.patch patch hpatch).memberFingerprints fingerprints hmem
  exact ⟨ne_absentField_of_colon_mem (colon_mem_renderArchiveMemberPatchFingerprints hne),
    parseArchiveMemberPatchFingerprints_render hne hplain hnodup⟩

theorem parse_rustcLinkContentDigestColumn :
    parseOptionalColumn parseRustcLinkContentDigest (rustcLinkContentDigestColumn input)
      = .ok input.rustcLinkContentDigest := by
  rw [rustcLinkContentDigestColumn, parseOptionalColumn_orAbsent]
  have hmap := @parseOptionalColumn_map _ parseRustcLinkContentDigest id
    input.rustcLinkContentDigest fun digest hd =>
      ⟨digest_ne_absentField (h.digest digest hd),
        parseRustcLinkContentDigest_ok (h.digest digest hd)⟩
  rwa [Option.map_id, id] at hmap

theorem parse_rustcRawObjectManifestColumn :
    parseOptionalColumn (fun manifest =>
        parseRustcRlibRawObjectManifest blake3Hex manifest input.rustcLinkContentDigest)
        (rustcRawObjectManifestColumn input)
      = .ok input.rustcRawObjectManifest := by
  have hfilter : (input.rustcRawObjectManifest.filter fun manifest =>
      input.rustcLinkContentDigest = some manifest.linkContentDigest)
      = input.rustcRawObjectManifest := by
    cases hmanifest : input.rustcRawObjectManifest with
    | none => rfl
    | some manifest => simp [(h.manifest manifest hmanifest).1]
  rw [rustcRawObjectManifestColumn, parseOptionalColumn_orAbsent, hfilter]
  refine parseOptionalColumn_map ?_
  intro manifest hmanifest
  obtain ⟨hdigest, hconsistent⟩ := h.manifest manifest hmanifest
  rw [hdigest]
  exact ⟨ne_absentField_of_colon_mem (colon_mem_join_cons _ _ _),
    parseRustcRlibRawObjectManifest_render hconsistent⟩

theorem parse_machoArchiveMembersColumn :
    ∃ members, parseOptionalColumn (parseMachoArchiveMemberStates input.path)
        (machoArchiveMembersColumn input) = .ok members
      ∧ members.getD [] = input.machoArchiveMembers := by
  cases hpatch : input.patch with
  | none =>
    refine ⟨none, ?_, by simp [machoArchiveMembers, hpatch]⟩
    simp [machoArchiveMembersColumn, hpatch, parseOptionalColumn]
  | some patch =>
    by_cases hnil : patch.machoArchiveMembers = []
    · have hcolumn : machoArchiveMembersColumn input = none := by
        simp [machoArchiveMembersColumn, hpatch, Option.filter, hnil]
      rw [hcolumn]
      exact ⟨none, rfl, by simp [machoArchiveMembers, hpatch, hnil]⟩
    · have hcolumn : machoArchiveMembersColumn input
          = (some patch.machoArchiveMembers).map renderMachoArchiveMemberStates := by
        simp [machoArchiveMembersColumn, hpatch, Option.filter, hnil]
      rw [hcolumn]
      refine ⟨some patch.machoArchiveMembers, parseOptionalColumn_map ?_,
        by simp [machoArchiveMembers, hpatch]⟩
      intro members hmembers
      cases hmembers
      exact ⟨ne_absentField_of_colon_mem (colon_mem_renderMachoArchiveMemberStates hnil),
        parseMachoArchiveMemberStates_render hnil (h.patch patch hpatch).machoPlain
          (h.patch patch hpatch).machoAccepted⟩

end

/-- A filled-in column can stand in a line when the column itself can. -/
theorem plainText_orAbsent {column : Option Text} {needed : Bool}
    (h : ∀ t ∈ column, PlainText t) : ∀ t ∈ orAbsent column needed, PlainText t := by
  intro t ht
  cases column with
  | some c => exact h t ht
  | none =>
    cases needed with
    | false => exact absurd ht (by simp [orAbsent])
    | true =>
      cases ht
      exact plainText_absentField

section

variable (h : input.Readable blake3Hex mode)
include h

theorem plainText_laterInputColumns :
    ∀ t ∈ laterInputColumns input, PlainText t := by
  intro t ht
  rw [laterInputColumns, reduceOption_mem_iff] at ht
  simp only [mem_cons, not_mem_nil, or_false] at ht
  rcases ht with ht | ht | ht | ht | ht
  · refine plainText_orAbsent ?_ t ht.symm
    intro t ht
    obtain ⟨proof, hproof, rfl⟩ := Option.map_eq_some_iff.mp ht
    obtain ⟨patch, hpatch, hproof⟩ := Option.bind_eq_some_iff.mp hproof
    exact plainText_renderArchiveMemberSetProof ((h.patch patch hpatch).setProof proof hproof)
  · refine plainText_orAbsent ?_ t ht.symm
    intro t ht
    obtain ⟨fingerprints, hmem, rfl⟩ := Option.map_eq_some_iff.mp ht
    obtain ⟨patch, hpatch, hmem⟩ := Option.bind_eq_some_iff.mp hmem
    have hplain := ((h.patch patch hpatch).memberFingerprints fingerprints hmem).2.1
    exact plainText_renderArchiveMemberPatchFingerprints fun f hf => (hplain f hf).1
  · exact plainText_orAbsent (fun digest hd => (cleanText_digest (h.digest digest hd)).1) t ht.symm
  · refine plainText_orAbsent ?_ t ht.symm
    intro t ht
    obtain ⟨manifest, hmanifest, rfl⟩ := Option.map_eq_some_iff.mp ht
    exact plainText_renderRustcRlibRawObjectManifest
      (h.manifest manifest (Option.filter_eq_some_iff.mp hmanifest).1).2
  · obtain ⟨patch, -, rfl⟩ := Option.map_eq_some_iff.mp ht.symm
    exact plainText_renderMachoArchiveMemberStates _

/-- **Every column can stand in a line.** -/
theorem plainText_inputColumns :
    ∀ t ∈ inputColumns input, PlainText t := by
  have hpatch : PlainText ((input.patch.map (·.fingerprint)).getD absentField)
      ∧ PlainText ((input.patch.map renderPatchSections).getD absentField) := by
    cases hpatch : input.patch with
    | none => exact ⟨plainText_absentField, plainText_absentField⟩
    | some patch =>
      have hreadable := h.patch patch hpatch
      exact ⟨hreadable.fingerprint.1, (renderPatchSections_column hreadable.sections).1⟩
  intro t ht
  rcases mem_append.mp ht with ht | ht
  · simp only [mem_cons, not_mem_nil, or_false] at ht
    rcases ht with rfl | rfl | rfl | rfl | rfl | rfl | rfl
    · exact h.path
    · exact plainText_render _
    · exact h.hash
    · exact plainText_renderIdentity _
    · exact hpatch.1
    · exact hpatch.2
    · exact plainText_renderIdentity _
  · exact plainText_laterInputColumns h t ht

/-- The patch state reads back from the columns of the line, present or absent. -/
theorem parse_patchColumns :
    parseFilePatchState input.path
        (optionalText ((input.patch.map (·.fingerprint)).getD absentField))
        (optionalText ((input.patch.map renderPatchSections).getD absentField))
        (input.patch.bind (·.archiveMemberSetProof))
        (input.patch.bind (·.archiveMemberPatchFingerprints)) input.machoArchiveMembers mode
      = .ok input.patch := by
  have hmachoArchiveMembers : input.machoArchiveMembers
      = (input.patch.map (·.machoArchiveMembers)).getD [] := rfl
  rw [hmachoArchiveMembers]
  cases hpatch : input.patch with
  | none => simp [optionalText, parseFilePatchState]
  | some patch =>
    have hreadable := h.patch patch hpatch
    have hfingerprint : optionalText patch.fingerprint = some patch.fingerprint := by
      simp [optionalText, hreadable.fingerprint.2]
    have hsections : optionalText (renderPatchSections patch)
        = some (renderPatchSections patch) := by
      simp [optionalText, (renderPatchSections_column hreadable.sections).2]
    simp only [Option.map_some, Option.getD_some, Option.bind_some, hfingerprint, hsections]
    exact parseFilePatchState_render hreadable

/-- **The line of an input reads back** in either mode. -/
theorem parseInputLine_row :
    parseInputLine blake3Hex (row "input" (inputColumns input)) mode = .ok input := by
  have hsplit : split '\t' (join '\t' (inputColumns input)) = inputColumns input :=
    split_join (by simp [inputColumns]) fun t ht => (plainText_inputColumns h t ht).1
  have hlater := laterInputColumns_getElem? input
  have hlength : (laterInputColumns input).drop 5 = [] := by
    refine drop_eq_nil_of_le ?_
    exact reduceOption_length_le _
  obtain ⟨members, hmembers, hgetD⟩ := parse_machoArchiveMembersColumn h
  rw [parseInputLine, parsePrefixedLine_row "input" (by decide) (by simp [inputColumns]), ok_bind,
    hsplit]
  simp only [inputColumns, cons_append, nil_append, nextPart, ok_bind, nextNumber_cons,
    getElem?_cons_zero, getElem?_cons_succ, parseIdentityColumn_render,
    Option.bind_some, hlater, Option.join_some, parse_archiveMemberSetProofColumn h,
    parse_archiveMemberPatchFingerprintsColumn h, parse_rustcLinkContentDigestColumn h,
    parse_rustcRawObjectManifestColumn h, hmembers, hgetD, parse_patchColumns h,
    drop_succ_cons, hlength, noMoreParts]
  rfl

end

end Columns

/-! ## 7. The codec -/

/-- The texts of a patch state use the alphabets of the program, and its sections are parsed. -/
structure FilePatchState.Plain (patch : FilePatchState) : Prop where
  fingerprint : CleanText patch.fingerprint
  setProof : ∀ proof ∈ patch.archiveMemberSetProof, proof.Plain
  memberFingerprints : ∀ fingerprints ∈ patch.archiveMemberPatchFingerprints,
    ∀ f ∈ fingerprints, f.Plain
  sections : ∀ s ∈ patch.sections, CleanText s.input ∧ (∀ hash ∈ s.dataHash, CleanText hash)
    ∧ ∀ hash ∈ s.cstringNulBoundariesHash, CleanText hash
  rawSections : patch.rawSections = none

/-- The texts of an input use the alphabets of the program, and a manifest comes with the digest
its objects hash to. -/
structure FileState.Plain (blake3Hex : Bytes → Text) (input : FileState) : Prop where
  path : (hexDecode input.path).isSome = true
  hash : CleanText input.content.hash
  digest : ∀ digest ∈ input.rustcLinkContentDigest, isBlake3HexDigest digest = true
  manifest : ∀ manifest ∈ input.rustcRawObjectManifest,
    input.rustcLinkContentDigest = some manifest.linkContentDigest
      ∧ rustcRlibLinkContentDigestFromRawObjects blake3Hex manifest.orderedObjects
        = some manifest.linkContentDigest
  patch : ∀ patch ∈ input.patch, patch.Plain

/-- What the reader asks of a patch state beyond the alphabets: a list of fingerprints is not
empty and names each member once, nothing present is spelled like an absent field, and the
Mach-O archive states pass their own checks. -/
structure FilePatchState.Accepted (path : Text) (patch : FilePatchState) : Prop where
  fingerprint : patch.fingerprint ≠ absentField
  memberFingerprints : ∀ fingerprints ∈ patch.archiveMemberPatchFingerprints,
    fingerprints ≠ [] ∧ (∀ f ∈ fingerprints, f.identifier ≠ [])
      ∧ (fingerprints.map (·.archiveMemberIndex)).Nodup
  sections : ∀ s ∈ patch.sections, (∀ hash ∈ s.dataHash, hash ≠ absentField)
    ∧ ∀ hash ∈ s.cstringNulBoundariesHash, hash ≠ absentField
  machoPlain : ∀ state ∈ patch.machoArchiveMembers, state.Plain
  machoAccepted : StatesAccepted path patch.machoArchiveMembers

/-- What the reader asks of an input beyond the alphabets. -/
structure FileState.Accepted (input : FileState) : Prop where
  manifest : ∀ manifest ∈ input.rustcRawObjectManifest,
    (manifest.orderedObjects.map fun o => archiveMemberPatchIdentifier o.identifier).Nodup
  patch : ∀ patch ∈ input.patch, patch.Accepted input.path

theorem FilePatchState.readable (hplain : patch.Plain)
    (haccepted : patch.Accepted path) : patch.Readable path .parse where
  fingerprint := ⟨hplain.fingerprint.1, haccepted.fingerprint⟩
  setProof := hplain.setProof
  memberFingerprints := by
    intro fingerprints hmem
    obtain ⟨hne, hidentifiers, hnodup⟩ := haccepted.memberFingerprints fingerprints hmem
    exact ⟨hne, fun f hf => ⟨hplain.memberFingerprints fingerprints hmem f hf, hidentifiers f hf⟩,
      hnodup⟩
  machoPlain := haccepted.machoPlain
  machoAccepted := haccepted.machoAccepted
  sections := by
    refine ⟨hplain.rawSections, ?_⟩
    intro s hs
    obtain ⟨hinput, hdata, hcstring⟩ := hplain.sections s hs
    obtain ⟨hdataNe, hcstringNe⟩ := haccepted.sections s hs
    refine ⟨⟨hinput.2, ?_, ?_⟩, hinput.1, fun hash hh => (hdata hash hh).1,
      fun hash hh => (hcstring hash hh).1⟩
    · exact fun hash hh => ⟨(hdata hash hh).2, hdataNe hash hh⟩
    · exact fun hash hh => ⟨(hcstring hash hh).2, hcstringNe hash hh⟩

theorem FileState.readable {blake3Hex : Bytes → Text} {input : FileState}
    (hplain : input.Plain blake3Hex) (haccepted : input.Accepted) :
    input.Readable blake3Hex .parse where
  path := by
    obtain ⟨bytes, hbytes⟩ := Option.isSome_iff_exists.mp hplain.path
    exact ⟨not_mem_of_hexDecode (by decide) hbytes, not_mem_of_hexDecode (by decide) hbytes⟩
  hash := hplain.hash.1
  digest := hplain.digest
  manifest := by
    intro manifest hmanifest
    obtain ⟨hdigest, hobjects⟩ := hplain.manifest manifest hmanifest
    exact ⟨hdigest, hplain.digest _ hdigest, hobjects, haccepted.manifest manifest hmanifest⟩
  patch := fun patch hpatch =>
    FilePatchState.readable (hplain.patch patch hpatch) (haccepted.patch patch hpatch)

/-- **The line of an input reads back**: for every state whose texts use the alphabets of the
program and which the reader's own checks accept, reading its line gives the state, whichever of
its parts are present. -/
theorem input_line_round_trip (blake3Hex : Bytes → Text) (input : FileState)
    (hplain : input.Plain blake3Hex) (haccepted : input.Accepted) :
    parseInputLine blake3Hex ("input\t".toList ++ renderInputLineRest input) .parse
      = .ok input := by
  have hline : "input\t".toList ++ renderInputLineRest input = row "input" (inputColumns input) := by
    simp [row, renderInputLineRest, inputColumns, join_cons_cons]
  rw [hline]
  exact parseInputLine_row (readable hplain haccepted)

/-- The digest of a library with the one module `m`, whose object has the digest
`exampleDigest`. -/
def exampleLinkContentDigest : Text :=
  "eb7666685cd5a0571809ff959e0762a8239fd48d43eac1646ea845d3770a006e".toList

/-- An archive with everything present. -/
def exampleInput (fingerprints : List ArchiveMemberPatchFingerprint) : FileState where
  path := exampleArchive
  content := ⟨4096, exampleDigest, some ⟨4096, 1, 2, 3, 4, -5, 6⟩⟩
  snapshotIdentity := some ⟨4096, 1, 7, 3, 4, -5, 6⟩
  rustcLinkContentDigest := some exampleLinkContentDigest
  rustcRawObjectManifest := some
    ⟨exampleLinkContentDigest, [⟨utf8 "a.m.i.rcgu.o".toList, exampleDigest⟩]⟩
  patch := some
    { fingerprint := exampleDigest
      archiveMemberSetProof := some ⟨exampleDigest, exampleDigest, 1, some exampleLinkContentDigest⟩
      archiveMemberPatchFingerprints := some fingerprints
      machoArchiveMembers := [exampleState (some exampleDigest)]
      sections := [⟨exampleMember, 1, some "__text".toList, 4, 4096, 8, some exampleDigest, none⟩]
      rawSections := none }

theorem plain_exampleInput (h : ∀ f ∈ fingerprints, f.Plain) :
    (exampleInput fingerprints).Plain fun _ => exampleLinkContentDigest := by
  have hdigest : isBlake3HexDigest exampleDigest = true := by decide
  have hlink : isBlake3HexDigest exampleLinkContentDigest = true := by decide
  refine ⟨?_, cleanText_digest hdigest, ?_, ?_, ?_⟩
  · simp [exampleInput, exampleArchive]
  · intro digest hd
    cases hd
    exact hlink
  · intro manifest hmanifest
    cases hmanifest
    exact ⟨rfl, by decide⟩
  · intro patch hpatch
    cases hpatch
    refine ⟨cleanText_digest hdigest, ?_, ?_, ?_, rfl⟩
    · intro proof hproof
      cases hproof
      refine ⟨cleanText_digest hdigest, cleanText_digest hdigest, ?_⟩
      intro digest hd
      cases hd
      exact hlink
    · intro fs hfs
      cases hfs
      exact h
    · intro s hs
      obtain rfl := mem_singleton.mp hs
      refine ⟨cleanText_hexEncode _, ?_, by simp⟩
      intro hash hh
      cases hh
      exact cleanText_digest hdigest

def exampleFingerprint : ArchiveMemberPatchFingerprint :=
  ⟨0, utf8 "b.o".toList, 4, exampleDigest, exampleDigest, exampleDigest⟩

/-- An archive with a proof, a fingerprint, a manifest and a Mach-O archive state. -/
theorem input_line_round_trip_archive :
    parseInputLine (fun _ => exampleLinkContentDigest)
        ("input\t".toList ++ renderInputLineRest (exampleInput [exampleFingerprint])) .parse
      = .ok (exampleInput [exampleFingerprint]) := by
  refine input_line_round_trip _ _ (plain_exampleInput ?_) ⟨?_, ?_⟩
  · intro f hf
    obtain rfl := mem_singleton.mp hf
    exact ⟨by decide, by decide, by decide⟩
  · intro manifest hmanifest
    cases hmanifest
    exact nodup_singleton _
  · intro patch hpatch
    cases hpatch
    refine ⟨by decide, ?_, ?_, ?_, statesAccepted_example _⟩
    · intro fs hfs
      cases hfs
      exact ⟨by simp, by simp [exampleFingerprint]; decide, nodup_singleton _⟩
    · intro s hs
      obtain rfl := mem_singleton.mp hs
      refine ⟨?_, by simp⟩
      intro hash hh
      cases hh
      decide
    · intro state hstate
      obtain rfl := mem_singleton.mp hstate
      refine plain_exampleState ?_
      intro hash hh
      cases hh
      exact ⟨by decide, by decide⟩

/-- An object file `a` whose patch state has a list of fingerprints with nothing in it. -/
def exampleNoFingerprints : FileState where
  path := hexEncode (utf8 "a".toList)
  content := ⟨1, exampleDigest, none⟩
  snapshotIdentity := none
  rustcLinkContentDigest := none
  rustcRawObjectManifest := none
  patch := some ⟨exampleDigest, none, some [], [], [], none⟩

/-- Its line has an empty column, which the reader refuses. -/
theorem empty_fingerprints_are_refused :
    (exampleNoFingerprints.Plain fun _ => exampleLinkContentDigest)
      ∧ parseInputLine (fun _ => exampleLinkContentDigest)
          ("input\t".toList ++ renderInputLineRest exampleNoFingerprints) .parse
        = .error "Malformed incremental archive member patch fingerprints" := by
  have hdigest : isBlake3HexDigest exampleDigest = true := by decide
  refine ⟨⟨by simp [exampleNoFingerprints], cleanText_digest hdigest,
    by simp [exampleNoFingerprints], by simp [exampleNoFingerprints], ?_⟩, by rfl⟩
  intro patch hpatch
  cases hpatch
  exact ⟨cleanText_digest hdigest, by simp, by simp, by simp, rfl⟩

end Srs.Incremental
