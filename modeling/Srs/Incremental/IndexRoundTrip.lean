/-
# The index and an update read back

Reading what was written, one file at a time.  Both files are lists of tagged lines, so each
field has a lemma about its own line, and the two parsers are followed line by line
(`parseMetadataUpdateHeader_render`, `parseWithSectionLoader_render`).

The inputs need more care than the other fields.  A state that was read for its metadata keeps
the sections of an input as text, and writes that text again; what such an input stands for is
the input its line was first written from.  `FileState.asRaw` is the form in which both have
the same sections, and an input is SETTLED when it is some readable input up to that form.
A settled input has the line of the readable one, so reading it back gives the readable input,
or its text form, depending on the mode of the reader.

`PersistedState.Settled` collects what the readers check of the fields of an update.
-/
import Srs.Incremental.Index
import Srs.Incremental.InputLineRoundTrip
import Srs.Incremental.StoreRefinement

namespace Srs.Incremental

open Text Bytes List Option PersistedState FileState Decimal

/-! ## 1. Inputs whose sections are kept as text -/

/-- The patch state with its sections as text. -/
def FilePatchState.asRaw (patch : FilePatchState) : FilePatchState :=
  { patch with sections := [], rawSections := some (renderPatchSections patch) }

/-- The input with the sections of its patch state as text. -/
def FileState.asRaw (input : FileState) : FileState :=
  { input with patch := input.patch.map FilePatchState.asRaw }

/-- The form in which a reader returns an input. -/
def FileState.readAs (input : FileState) : PatchSectionReadMode → FileState
  | .parse => input
  | .preserveRaw => input.asRaw

@[simp] theorem FilePatchState.asRaw_asRaw (patch : FilePatchState) :
    patch.asRaw.asRaw = patch.asRaw := rfl

section

variable (input : FileState)
include input

@[simp] theorem FileState.asRaw_asRaw : input.asRaw.asRaw = input.asRaw := by
  cases hpatch : input.patch with
  | none => simp [asRaw, hpatch]
  | some patch => simp [asRaw, hpatch]

@[simp] theorem FileState.asRaw_readAs (mode : PatchSectionReadMode) :
    (input.readAs mode).asRaw = input.asRaw := by
  cases mode with
  | parse => rfl
  | preserveRaw => exact input.asRaw_asRaw

theorem machoArchiveMembersColumn_asRaw :
    machoArchiveMembersColumn input.asRaw = machoArchiveMembersColumn input := by
  unfold machoArchiveMembersColumn asRaw
  cases input.patch with
  | none => rfl
  | some patch =>
    by_cases hnil : patch.machoArchiveMembers = []
    · simp [Option.filter, FilePatchState.asRaw, hnil]
    · simp [Option.filter, FilePatchState.asRaw, hnil]

theorem patch_asRaw_bind {α : Type} (field : FilePatchState → Option α)
    (h : ∀ patch, field patch.asRaw = field patch) :
    input.asRaw.patch.bind field = input.patch.bind field := by
  unfold asRaw
  cases input.patch with
  | none => rfl
  | some patch => exact h patch

theorem laterInputColumns_asRaw :
    laterInputColumns input.asRaw = laterInputColumns input := by
  have hmacho := machoArchiveMembersColumn_asRaw input
  have hmanifest : rustcRawObjectManifestColumn input.asRaw = rustcRawObjectManifestColumn input := by
    unfold rustcRawObjectManifestColumn
    rw [hmacho]
    rfl
  have hdigest : rustcLinkContentDigestColumn input.asRaw = rustcLinkContentDigestColumn input := by
    unfold rustcLinkContentDigestColumn
    rw [hmacho, hmanifest]
    rfl
  have hfingerprints : archiveMemberPatchFingerprintsColumn input.asRaw
      = archiveMemberPatchFingerprintsColumn input := by
    unfold archiveMemberPatchFingerprintsColumn
    rw [hmacho, hdigest, patch_asRaw_bind input (·.archiveMemberPatchFingerprints) fun _ => rfl]
  have hproof : archiveMemberSetProofColumn input.asRaw = archiveMemberSetProofColumn input := by
    unfold archiveMemberSetProofColumn
    rw [hmacho, hdigest, hfingerprints, patch_asRaw_bind input (·.archiveMemberSetProof) fun _ => rfl]
  unfold laterInputColumns
  rw [hmacho, hmanifest, hdigest, hfingerprints, hproof]

/-- The line of an input does not depend on how its sections are kept. -/
theorem inputColumns_asRaw : inputColumns input.asRaw = inputColumns input := by
  unfold inputColumns
  rw [laterInputColumns_asRaw]
  unfold asRaw
  cases input.patch <;> rfl

end

variable {mode : PatchSectionReadMode} {input : FileState} {o : Option Text} {rest : List Text}
  {ranges : List ReservedRangeRecord} {locations : List PatchRecordLocation}

/-- A readable input is readable with its sections as text. -/
theorem FileState.Readable.asRaw {blake3Hex : Bytes → Text} (h : input.Readable blake3Hex mode) :
    input.asRaw.Readable blake3Hex .preserveRaw where
  path := h.path
  hash := h.hash
  digest := h.digest
  manifest := h.manifest
  patch := by
    intro patch hpatch
    obtain ⟨original, horiginal, rfl⟩ := map_eq_some_iff.mp hpatch
    have hreadable := h.patch original horiginal
    exact ⟨hreadable.fingerprint, hreadable.setProof, hreadable.memberFingerprints,
      hreadable.machoPlain, hreadable.machoAccepted, rfl, _, rfl,
      renderPatchSections_column hreadable.sections⟩

/-- A readable input up to the form of its sections. -/
def FileState.Settled (blake3Hex : Bytes → Text) (input : FileState) : Prop :=
  ∃ parsed : FileState, parsed.Readable blake3Hex .parse ∧ input.asRaw = parsed.asRaw

theorem FileState.Readable.settled {blake3Hex : Bytes → Text}
    (h : input.Readable blake3Hex .parse) : input.Settled blake3Hex := ⟨input, h, rfl⟩

/-- A readable input in the form of the reader that returns it. -/
theorem FileState.Readable.readAs {blake3Hex : Bytes → Text}
    (h : input.Readable blake3Hex .parse) (mode : PatchSectionReadMode) :
    (input.readAs mode).Readable blake3Hex mode := by
  cases mode with
  | parse => exact h
  | preserveRaw => exact h.asRaw

variable {other : FileState}

theorem inputColumns_eq_of_asRaw_eq (h : input.asRaw = other.asRaw) :
    inputColumns input = inputColumns other := by
  rw [← inputColumns_asRaw input, h, inputColumns_asRaw]

/-- Two readable inputs with the same line are the same. -/
theorem eq_of_asRaw_eq {blake3Hex : Bytes → Text} (h : input.Readable blake3Hex mode)
    (hother : other.Readable blake3Hex mode) (hraw : input.asRaw = other.asRaw) :
    input = other := by
  have hparse := parseInputLine_row h
  rw [inputColumns_eq_of_asRaw_eq hraw, parseInputLine_row hother] at hparse
  exact (Except.ok.inj hparse).symm

/-- What a reader is to return for an input: the same input up to the form of its sections, and
exactly that input when it is in the form that the reader returns. -/
structure FileState.ReadBack (blake3Hex : Bytes → Text) (mode : PatchSectionReadMode)
    (input read : FileState) : Prop where
  same : read.asRaw = input.asRaw
  readable : read.Readable blake3Hex mode
  exact : input.Readable blake3Hex mode → read = input

theorem FileState.ReadBack.of_asRaw_eq {blake3Hex : Bytes → Text}
    {read : FileState} (hread : read.Readable blake3Hex mode)
    (hsame : read.asRaw = input.asRaw) : input.ReadBack blake3Hex mode read :=
  ⟨hsame, hread, fun hinput => eq_of_asRaw_eq hread hinput hsame⟩

/-- **The line of a settled input reads back**, in either mode. -/
theorem parseInputLine_settled {blake3Hex : Bytes → Text}
    (h : input.Settled blake3Hex) (mode : PatchSectionReadMode) :
    ∃ read, parseInputLine blake3Hex (row "input" (inputColumns input)) mode = .ok read
      ∧ input.ReadBack blake3Hex mode read := by
  obtain ⟨parsed, hparsed, hraw⟩ := h
  have hmode := hparsed.readAs mode
  have hsame : (parsed.readAs mode).asRaw = input.asRaw := by
    rw [hraw, asRaw_readAs]
  refine ⟨parsed.readAs mode, ?_, .of_asRaw_eq hmode hsame⟩
  rw [← inputColumns_eq_of_asRaw_eq hsame]
  exact parseInputLine_row hmode

/-! ## 2. An input line is a line -/

variable {pieces : List Text} {sep : Char}

theorem endsPlain_join (hsep : '\r' ≠ sep)
    (h : ∀ p, pieces.getLast? = some p → EndsPlain p) : EndsPlain (join sep pieces) := by
  intro hlast
  rcases getLast?_join hlast with hc | ⟨p, hp, hc⟩
  · exact hsep hc
  · exact h p hp hc

theorem endsPlain_join_of_forall (hsep : '\r' ≠ sep)
    (h : ∀ p ∈ pieces, EndsPlain p) : EndsPlain (join sep pieces) :=
  endsPlain_join hsep fun p hp => h p (mem_of_getLast? hp)

theorem endsPlain_digest {digest : Text} (h : isBlake3HexDigest digest = true) :
    EndsPlain digest :=
  endsPlain_of_not_mem (not_mem_of_isBlake3HexDigest h (by decide))

theorem endsPlain_hexEncode (bytes : Bytes) : EndsPlain (hexEncode bytes) :=
  endsPlain_of_not_mem (not_mem_hexEncode (by decide) bytes)

theorem endsPlain_absentField : EndsPlain absentField := endsPlain_of_not_mem (by decide)

theorem endsPlain_getD (h : ∀ t ∈ o, EndsPlain t) :
    EndsPlain (o.getD absentField) := by
  cases o with
  | none => exact endsPlain_absentField
  | some t => exact h t rfl

theorem endsPlain_renderIdentity (identity : Option FileIdentity) :
    EndsPlain (renderIdentity identity) := by
  refine endsPlain_getD ?_
  intro t ht
  obtain ⟨identity, -, rfl⟩ := map_eq_some_iff.mp ht
  refine endsPlain_join_of_forall (by decide) ?_
  simp [endsPlain_render]

theorem endsPlain_orAbsent {column : Option Text} {needed : Bool}
    (h : ∀ t ∈ column, EndsPlain t) : ∀ t ∈ orAbsent column needed, EndsPlain t := by
  intro t ht
  cases column with
  | some c => exact h t ht
  | none =>
    cases needed with
    | false => exact absurd ht (by simp [orAbsent])
    | true =>
      cases ht
      exact endsPlain_absentField

theorem endsPlain_renderArchiveMemberSetProof {proof : ArchiveMemberSetProof} (h : proof.Plain) :
    EndsPlain (renderArchiveMemberSetProof proof) := by
  refine endsPlain_join (by decide) ?_
  intro p hp
  cases hp
  exact endsPlain_getD fun digest hd => endsPlain_digest (h.digest digest hd)

theorem endsPlain_renderArchiveMemberPatchFingerprints
    {fingerprints : List ArchiveMemberPatchFingerprint} (h : ∀ f ∈ fingerprints, f.Plain) :
    EndsPlain (renderArchiveMemberPatchFingerprints fingerprints) := by
  refine endsPlain_join_of_forall (by decide) ?_
  intro p hp
  obtain ⟨f, hf, rfl⟩ := mem_map.mp hp
  refine endsPlain_join (by decide) ?_
  intro p hp
  cases hp
  exact endsPlain_digest (h f hf).fingerprint

theorem endsPlain_renderRustcRlibRawObjectManifest {blake3Hex : Bytes → Text}
    {manifest : RustcRlibRawObjectManifest} (h : manifest.Consistent blake3Hex) :
    EndsPlain (renderRustcRlibRawObjectManifest manifest) := by
  refine endsPlain_join (by decide) ?_
  intro p hp
  cases hp
  refine endsPlain_join_of_forall (by decide) ?_
  intro p hp
  obtain ⟨o, ho, rfl⟩ := mem_map.mp hp
  refine endsPlain_join (by decide) ?_
  intro p hp
  cases hp
  exact endsPlain_digest (rawObjects_valid h.objects o ho).2

theorem endsPlain_renderMachoArchiveMemberStates (states : List MachOArchiveActivationState) :
    EndsPlain (renderMachoArchiveMemberStates states) := by
  refine endsPlain_join_of_forall (by decide) ?_
  intro p hp
  obtain ⟨state, -, rfl⟩ := mem_map.mp hp
  refine endsPlain_join (by decide) ?_
  intro p hp
  cases hp
  exact endsPlain_hexEncode _

/-- Each of the later columns may stand last on the line. -/
theorem endsPlain_laterInputColumns {blake3Hex : Bytes → Text} (h : input.Readable blake3Hex mode) :
    ∀ t ∈ laterInputColumns input, EndsPlain t := by
  intro t ht
  rw [laterInputColumns, reduceOption_mem_iff] at ht
  simp only [mem_cons, not_mem_nil, or_false] at ht
  rcases ht with ht | ht | ht | ht | ht
  · refine endsPlain_orAbsent ?_ t ht.symm
    intro t ht
    obtain ⟨proof, hproof, rfl⟩ := map_eq_some_iff.mp ht
    obtain ⟨patch, hpatch, hproof⟩ := bind_eq_some_iff.mp hproof
    exact endsPlain_renderArchiveMemberSetProof ((h.patch patch hpatch).setProof proof hproof)
  · refine endsPlain_orAbsent ?_ t ht.symm
    intro t ht
    obtain ⟨fingerprints, hmem, rfl⟩ := map_eq_some_iff.mp ht
    obtain ⟨patch, hpatch, hmem⟩ := bind_eq_some_iff.mp hmem
    have hplain := ((h.patch patch hpatch).memberFingerprints fingerprints hmem).2.1
    exact endsPlain_renderArchiveMemberPatchFingerprints fun f hf => (hplain f hf).1
  · exact endsPlain_orAbsent (fun digest hd => endsPlain_digest (h.digest digest hd)) t ht.symm
  · refine endsPlain_orAbsent ?_ t ht.symm
    intro t ht
    obtain ⟨manifest, hmanifest, rfl⟩ := map_eq_some_iff.mp ht
    exact endsPlain_renderRustcRlibRawObjectManifest
      (h.manifest manifest (filter_eq_some_iff.mp hmanifest).1).2
  · obtain ⟨patch, -, rfl⟩ := map_eq_some_iff.mp ht.symm
    exact endsPlain_renderMachoArchiveMemberStates _

theorem endsPlain_inputColumns {blake3Hex : Bytes → Text} (h : input.Readable blake3Hex mode)
    {last : Text}
    (hlast : (inputColumns input).getLast? = some last) : EndsPlain last := by
  by_cases hnil : laterInputColumns input = []
  · rw [inputColumns, hnil] at hlast
    cases hlast
    exact endsPlain_renderIdentity _
  · rw [inputColumns, getLast?_append_of_ne_nil _ hnil] at hlast
    exact endsPlain_laterInputColumns h last (mem_of_getLast? hlast)

/-- A row whose last columns are the columns of a settled input is a line. -/
theorem isLine_inputRow {blake3Hex : Bytes → Text}
    (h : input.Settled blake3Hex) (tag : String) (htag : '\n' ∉ tag.toList) {front : List Text}
    (hfront : ∀ t ∈ front, '\n' ∉ t) : IsLine (row tag (front ++ inputColumns input)) := by
  obtain ⟨parsed, hparsed, hraw⟩ := h
  rw [inputColumns_eq_of_asRaw_eq hraw]
  have hne : inputColumns parsed ≠ [] := by simp [inputColumns]
  obtain ⟨last, hlast⟩ := ne_none_iff_exists'.mp
    (fun hnone => hne (getLast?_eq_none_iff.mp hnone))
  refine @isLine_row tag htag _ ?_ last ?_ (endsPlain_inputColumns hparsed hlast)
  · intro c hc
    rcases mem_append.mp hc with hc | hc
    · exact hfront c hc
    · exact (plainText_inputColumns hparsed c hc).2
  · rw [getLast?_append_of_ne_nil _ hne, hlast]

/-! ## 3. The lines of the fields -/

@[simp] theorem parsePrefixedLine_row_singleton (tag : String) (h : '\t' ∉ tag.toList)
    (rest : Text) : parsePrefixedLine (some (row tag [rest])) tag = .ok rest := by
  rw [parsePrefixedLine_row tag h (by simp), join_singleton]

theorem noMoreParts_nil (m : String) : noMoreParts [] m = .ok () := by
  simp [noMoreParts]

theorem isLine_row_singleton (tag : String) (htag : '\n' ∉ tag.toList) {rest : Text}
    (h : IsLine rest) : IsLine (row tag [rest]) :=
  isLine_row tag htag (by simpa using h.1) rfl h.2

theorem isLine_getD (h : ∀ t ∈ o, IsLine t) : IsLine (o.getD absentField) := by
  cases o with
  | none => decide
  | some t => exact h t rfl

theorem isLine_renderIdentity (identity : Option FileIdentity) :
    IsLine (renderIdentity identity) :=
  ⟨(plainText_renderIdentity identity).2, endsPlain_renderIdentity identity⟩

theorem fileIdentity_parse_renderIdentity (identity : Option FileIdentity) :
    FileIdentity.parse (renderIdentity identity) = .ok identity :=
  parseIdentityColumn_render identity

theorem parseLinkStartLine_linkStartLine (linkStart : Option FileIdentity) :
    parseLinkStartLine (some (linkStartLine linkStart)) = .ok linkStart := by
  rw [parseLinkStartLine, linkStartLine, parsePrefixedLine_row_singleton _ (by decide), ok_bind]
  exact fileIdentity_parse_renderIdentity linkStart

theorem parseContentLine_outputLine {output : FileContentState} (h : PlainText output.hash) :
    parseContentLine (some (outputLine output)) "output" = .ok output := by
  have hsplit : split '\t' (join '\t' [render output.len, output.hash,
      renderIdentity output.identity]) = [render output.len, output.hash,
      renderIdentity output.identity] :=
    split_join (by simp) (by simp [h.1, (plainText_renderIdentity output.identity).1])
  rw [parseContentLine, outputLine, parsePrefixedLine_row _ (by decide) (by simp), ok_bind, hsplit]
  simp [nextPart, parseIdentityColumn_render, noMoreParts]

/-- A build ID state that its line is read back from. -/
structure BuildIdHashState.Plain (state : BuildIdHashState) : Prop where
  nodes : state.nodes ≠ 0
  treeHash : ∀ hash ∈ state.treeHash, PlainText hash ∧ EndsPlain hash ∧ hash ≠ absentField

theorem plainText_treeHash {state : BuildIdHashState} (h : state.Plain) :
    PlainText (state.treeHash.getD absentField) := by
  cases htree : state.treeHash with
  | none => exact plainText_absentField
  | some hash => exact (h.treeHash hash htree).1

theorem parseBuildIdHashLine_buildIdHashLine {state : Option BuildIdHashState}
    (h : ∀ s ∈ state, s.Plain) :
    parseBuildIdHashLine (some (buildIdHashLine state)) = .ok state := by
  rw [parseBuildIdHashLine, buildIdHashLine, parsePrefixedLine_row_singleton _ (by decide), ok_bind]
  cases state with
  | none => rfl
  | some state =>
    have hplain := h state rfl
    have hsplit : split '\t' (renderBuildIdHashState state) = [render state.outputLen,
        render state.nodes, state.treeHash.getD absentField] :=
      split_join (by simp) (by simp [(plainText_treeHash hplain).1])
    have htree : optionalText (state.treeHash.getD absentField) = state.treeHash :=
      optionalText_getD fun hash hh => (hplain.treeHash hash hh).2.2
    have hne : renderBuildIdHashState state ≠ absentField := by
      intro heq
      have hmem : '\t' ∈ absentField := by
        rw [← heq, renderBuildIdHashState, join_cons_cons]
        simp
      exact absurd hmem (by decide)
    simp [hne, hsplit, htree, noMoreParts, hplain.nodes]

theorem isLine_buildIdHashLine {state : Option BuildIdHashState} (h : ∀ s ∈ state, s.Plain) :
    IsLine (buildIdHashLine state) := by
  refine isLine_row_singleton _ (by decide) (isLine_getD ?_)
  intro t ht
  obtain ⟨s, hs, rfl⟩ := map_eq_some_iff.mp ht
  have hplain := h s hs
  constructor
  · refine not_mem_join (by decide) ?_
    simp [(plainText_treeHash hplain).2]
  · refine endsPlain_join (by decide) ?_
    intro p hp
    cases hp
    exact endsPlain_getD fun hash hh => (hplain.treeHash hash hh).2.1

/-- The name of a sidecar that its line is read back from. -/
def SidecarName (validate : Text → Result Unit) (file : Text) : Prop :=
  IsLine file ∧ validate file = .ok ()

theorem validateMachoResolutionsFileName_absent :
    validateMachoResolutionsFileName absentField ≠ .ok () := by
  intro h
  exact failIf_eq_ok.mp h (Or.inl (by decide))

theorem validateSectionsFileName_absent : validateSectionsFileName absentField ≠ .ok () := by
  intro h
  exact failIf_eq_ok.mp h ⟨by decide, Or.inl (by decide)⟩

theorem parseMachoResolutionsFile_getD {file : Option Text} {validate : Text → Result Unit}
    (h : ∀ f ∈ file, f ≠ absentField ∧ validate f = .ok ()) :
    parseMachoResolutionsFile validate (file.getD absentField) = .ok file := by
  cases file with
  | none => simp [parseMachoResolutionsFile]
  | some f =>
    obtain ⟨hne, hvalid⟩ := h f rfl
    simp [parseMachoResolutionsFile, hne, hvalid]

/-! ## 4. Reserved ranges -/

/-- What the reader checks of the reserved ranges of an output of the given length. -/
structure ReservesAccepted (outputLen : UInt64) (ranges : List ReservedRangeRecord) : Prop where
  count : ranges.length ≤ outputLen.toNat
  inside : ∀ r ∈ ranges, r.outputOffset.toNat + r.size.toNat ≤ outputLen.toNat
  valid : ValidRanges ranges

variable {outputLen : UInt64}

theorem parseReservedRangeLine_reservedRangeLine {range : ReservedRangeRecord}
    (h : range.WellFormed) (hinside : range.outputOffset.toNat + range.size.toNat ≤ outputLen.toNat) :
    parseReservedRangeLine outputLen (reservedRangeLine range) = .ok range := by
  have hsplit : split '\t' (join '\t' [render range.outputSectionId,
      render range.alignmentExponent, render range.outputOffset,
      render range.size]) = [render range.outputSectionId,
      render range.alignmentExponent, render range.outputOffset,
      render range.size] := split_join (by simp) (by simp)
  have hend : (UInt64.ofNat (range.outputOffset.toNat + range.size.toNat)).toNat
      = range.outputOffset.toNat + range.size.toNat := UInt64.toNat_ofNat_of_lt h.end_lt
  have hadd : checkedAdd range.outputOffset range.size
      = some (UInt64.ofNat (range.outputOffset.toNat + range.size.toNat)) :=
    checkedAdd_eq_some.mpr hend.symm
  have halignment : Alignment.fromExponent range.alignmentExponent
      = .ok ⟨range.alignmentExponent, h.supported⟩ := Alignment.fromExponent_eq_ok.mpr rfl
  have hpos := h.size_pos
  rw [parseReservedRangeLine, reservedRangeLine, parsePrefixedLine_row _ (by decide) (by simp),
    ok_bind, hsplit]
  simp only [nextNumber_cons, ok_bind, noMoreParts_nil, halignment, withContext_ok, hadd,
    context_some]
  rw [failIf_neg]
  · rfl
  · rw [not_or, not_or, not_or, not_not, not_not, Alignment.and_mask_eq_zero,
      Alignment.and_mask_eq_zero, uint64_eq_zero_iff, UInt64.lt_iff_toNat_lt, hend]
    exact ⟨by omega, by omega, h.dvd_offset, h.dvd_size⟩

/-- **The table of reserved ranges reads back.** -/
theorem parseReservedRangeTable_render
    (h : ReservesAccepted outputLen ranges) (rest : List Text) :
    parseReservedRangeTable (renderRequiredReservedRangeTable ranges ++ rest) outputLen
      = .ok (ranges, rest) := by
  have hcount := h.count
  have htable := readTable_map missingLine ranges rest fun r hr =>
    always_ok (parseReservedRangeLine_reservedRangeLine (h.valid.wellFormed r hr) (h.inside r hr))
  rw [parseReservedRangeTable, renderRequiredReservedRangeTable, cons_append,
    parseCount_countLine _ (by decide), ok_bind, failIf_neg _ (by omega), ok_bind,
    tail_cons, htable, ok_bind]
  simp only [validateReservedRanges_iff.mpr h.valid, ok_bind]
  rfl

theorem isLine_reservedRangeTable (ranges : List ReservedRangeRecord) :
    ∀ l ∈ renderRequiredReservedRangeTable ranges, IsLine l := by
  intro l hl
  rcases mem_cons.mp hl with rfl | hl
  · exact isLine_countLine _ (by decide) _
  · obtain ⟨range, -, rfl⟩ := mem_map.mp hl
    exact isLine_row _ (by decide) (by simp) rfl (endsPlain_render _)

/-! ## 5. An update -/

/-- What the readers check of the fields that an update has. -/
structure PersistedState.Settled (blake3Hex : Bytes → Text) (state : PersistedState) : Prop where
  outputHash : PlainText state.output.hash
  buildIdHashes : ∀ s ∈ state.buildIdHashes, s.Plain
  machoFile : ∀ file ∈ state.machoSymbolResolutionsFile,
    SidecarName validateMachoResolutionsFileName file
  reserves : ReservesAccepted state.output.len state.reservedRanges
  overridesFile : ∀ file ∈ state.recordOverridesFile, SidecarName validateSectionsFileName file
  overrideInputs : ∀ file ∈ state.recordOverrideInputs, IsLine file
  overridesSorted : IsSorted state.recordOverrideInputs
  overridesDistinct : NoRepeats state.recordOverrideInputs
  overridesUsed : state.recordOverrideInputs = [] → state.recordOverridesFile = none
  inputs : ∀ input ∈ state.inputFiles, input.Settled blake3Hex

/-- The fields of a state that an update of the current version has. -/
def PersistedState.updateHeader (state : PersistedState) : MetadataUpdateHeader where
  linkStart := state.linkStart
  output := state.output
  buildIdHashes := state.buildIdHashes
  machoSymbolResolutionsFile := some state.machoSymbolResolutionsFile
  reservedRanges := some state.reservedRanges
  recordOverridesFile := state.recordOverridesFile
  recordOverrideInputs := state.recordOverrideInputs

/-- The lines of the record overrides. -/
def PersistedState.overrideLines (state : PersistedState) : List Text :=
  [row "record-overrides-file" [state.recordOverridesFile.getD absentField],
      countLine "record-override-inputs" state.recordOverrideInputs.length]
    ++ state.recordOverrideInputs.map fun file => row "record-override-input" [file]

/-- The lines of an update in front of its inputs. -/
def PersistedState.updateHeaderLines (state : PersistedState) : List Text :=
  [versionLine metadataUpdateVersionStem metadataUpdateVersion,
      linkStartLine state.linkStart, outputLine state.output,
      buildIdHashLine state.buildIdHashes,
      machoResolutionsFileLine state.machoSymbolResolutionsFile]
    ++ (renderRequiredReservedRangeTable state.reservedRanges ++ state.overrideLines)

/-- The line of one input of an update. -/
def inputUpdateLine (entry : Nat × FileState) : Text :=
  row "input" [render entry.1, renderInputLineRest entry.2]

/-- The lines of an update with the given inputs. -/
def PersistedState.updateLines (state : PersistedState) (entries : List (Nat × FileState)) :
    List Text :=
  state.updateHeaderLines ++ countLine "inputs" entries.length :: entries.map inputUpdateLine

section Update

variable {blake3Hex : Bytes → Text} {state : PersistedState}

theorem parseRecordOverrideMetadata_render (h : state.Settled blake3Hex) (rest : List Text) :
    parseRecordOverrideMetadata (state.overrideLines ++ rest)
      = .ok ((state.recordOverridesFile, state.recordOverrideInputs), rest) := by
  have hfile : (if state.recordOverridesFile.getD absentField = absentField then .ok none
      else do
        validateSectionsFileName (state.recordOverridesFile.getD absentField)
        return some (state.recordOverridesFile.getD absentField) : Result (Option Text))
      = .ok state.recordOverridesFile := by
    cases hfile : state.recordOverridesFile with
    | none => simp
    | some file =>
      have hname := h.overridesFile file hfile
      have hne : file ≠ absentField := by
        rintro rfl
        exact validateSectionsFileName_absent hname.2
      simp [hne, hname.2]
  have htable := @readTable_map Text
    (always fun line => parsePrefixedLine (some line) "record-override-input") missingLine
    (fun file => row "record-override-input" [file]) state.recordOverrideInputs rest
    fun file _ => always_ok (parsePrefixedLine_row_singleton _ (by decide) file)
  have hused : ¬ (state.recordOverrideInputs = [] ∧ state.recordOverridesFile.isSome = true) := by
    rintro ⟨hnil, hsome⟩
    rw [h.overridesUsed hnil] at hsome
    exact absurd hsome (by simp)
  rw [parseRecordOverrideMetadata]
  simp only [overrideLines, cons_append, nil_append, head?_cons,
    tail_cons, parsePrefixedLine_row_singleton "record-overrides-file" (by decide), ok_bind,
    hfile, parseCount_countLine "record-override-inputs" (by decide), htable]
  rw [failIf_neg _ (not_not_intro h.overridesSorted), ok_bind,
    failIf_neg _ (not_not_intro h.overridesDistinct), ok_bind, failIf_neg _ hused]
  rfl

/-- **The lines of an update in front of its inputs read back.** -/
theorem parseMetadataUpdateHeader_render (h : state.Settled blake3Hex)
    {validate : Text → Result Unit}
    (hvalidate : ∀ file ∈ state.machoSymbolResolutionsFile, validate file = .ok ())
    (rest : List Text) :
    parseMetadataUpdateHeader validate (state.updateHeaderLines ++ rest)
      = .ok (state.updateHeader, rest) := by
  have hversion : versionNumber metadataUpdateVersionStem metadataUpdateVersion
      (versionLine metadataUpdateVersionStem metadataUpdateVersion) = some 9 := by decide
  have hmacho := @parseMachoResolutionsFile_getD state.machoSymbolResolutionsFile validate
    fun file hfile => by
      refine ⟨?_, hvalidate file hfile⟩
      rintro rfl
      exact validateMachoResolutionsFileName_absent (h.machoFile _ hfile).2
  rw [parseMetadataUpdateHeader]
  simp only [updateHeaderLines, cons_append, nil_append, nextPart, ok_bind,
    hversion, context_some, head?_cons, tail_cons,
    parseLinkStartLine_linkStartLine, parseContentLine_outputLine h.outputHash,
    parseBuildIdHashLine_buildIdHashLine h.buildIdHashes, machoResolutionsFileLine,
    parsePrefixedLine_row_singleton "macho-resolutions-file" (by decide), hmacho,
    List.append_assoc, Nat.reduceLeDiff, if_true, pure_eq_ok,
    parseReservedRangeTable_render h.reserves, parseRecordOverrideMetadata_render h]
  rfl

theorem row_renderInputLineRest (tag : String) (front : List Text) (input : FileState) :
    row tag (front ++ [renderInputLineRest input]) = row tag (front ++ inputColumns input) := by
  have hjoin : ∀ pieces : List Text, pieces ≠ [] → ∀ front : List Text,
      join '\t' (front ++ [join '\t' pieces]) = join '\t' (front ++ pieces) := by
    intro pieces hne front
    obtain ⟨p, rest, rfl⟩ := exists_cons_of_ne_nil hne
    induction front with
    | nil => simp
    | cons a front ih =>
      cases front with
      | nil => simp [join_cons_cons]
      | cons b front =>
        simp only [cons_append] at ih ⊢
        rw [join_cons_cons, join_cons_cons, ih]
  exact hjoin (inputColumns input) (by simp [inputColumns]) (tag.toList :: front)

theorem splitInputUpdate_inputUpdateLine (entry : Nat × FileState) :
    splitInputUpdate (some (inputUpdateLine entry))
      = .ok (entry.1, row "input" (inputColumns entry.2)) := by
  have hline : "input\t".toList ++ renderInputLineRest entry.2
      = row "input" (inputColumns entry.2) := by
    simp [row, renderInputLineRest, inputColumns, join_cons_cons]
  rw [splitInputUpdate, inputUpdateLine, parsePrefixedLine_row _ (by decide) (by simp), ok_bind,
    splitOnce_join (tab_not_mem entry.1), context_some, ok_bind]
  simp only [parseNumber_render, ok_bind, join_singleton, hline]
  rfl

theorem isLine_inputUpdateLine {entry : Nat × FileState} (h : entry.2.Settled blake3Hex) :
    IsLine (inputUpdateLine entry) := by
  have hrow := row_renderInputLineRest "input" [render entry.1] entry.2
  rw [inputUpdateLine, show [render entry.1, renderInputLineRest entry.2]
    = [render entry.1] ++ [renderInputLineRest entry.2] from rfl, hrow]
  exact isLine_inputRow h "input" (by decide) (by simp)

/-- **The loop over the inputs of an update**: the listed inputs are read back, the others are
left alone. -/
theorem applyInputUpdates_render {target : Nat → Option FileState} (mode : PatchSectionReadMode)
    (rest : List Text) : ∀ {entries : List (Nat × FileState)} {inputFiles : List FileState},
    (∀ e ∈ entries, target e.1 = some e.2 ∧ e.2.Settled blake3Hex ∧ e.1 < inputFiles.length) →
    ∃ updated, applyInputUpdates blake3Hex mode entries.length
        (entries.map inputUpdateLine ++ rest) inputFiles = .ok (updated, rest)
      ∧ updated.length = inputFiles.length
      ∧ (∀ i ∈ entries.map Prod.fst, ∃ input read, target i = some input
        ∧ updated[i]? = some read ∧ input.ReadBack blake3Hex mode read)
      ∧ ∀ i ∉ entries.map Prod.fst, updated[i]? = inputFiles[i]? := by
  intro entries
  induction entries with
  | nil =>
    intro inputFiles _
    exact ⟨inputFiles, rfl, rfl, by simp, fun _ _ => rfl⟩
  | cons e entries ih =>
    intro inputFiles h
    obtain ⟨htarget, hsettled, hbound⟩ := h e (by simp)
    obtain ⟨read, hread, hback⟩ := parseInputLine_settled hsettled mode
    have hlater : ∀ e' ∈ entries, target e'.1 = some e'.2 ∧ e'.2.Settled blake3Hex
        ∧ e'.1 < (inputFiles.set e.1 read).length := by
      intro e' he'
      rw [length_set]
      exact h e' (mem_cons_of_mem _ he')
    obtain ⟨updated, hrun, hlength, hlisted, hothers⟩ := ih hlater
    refine ⟨updated, ?_, by rw [hlength, length_set], ?_, ?_⟩
    · simp only [length_cons, map_cons, cons_append, applyInputUpdates,
        head?_cons, tail_cons, splitInputUpdate_inputUpdateLine, ok_bind]
      rw [failIf_neg _ (not_not_intro hbound), ok_bind, hread, ok_bind]
      exact hrun
    · intro i hi
      by_cases hlaterIndex : i ∈ entries.map Prod.fst
      · exact hlisted i hlaterIndex
      · have hie : i = e.1 := by
          rw [map_cons, mem_cons] at hi
          exact hi.resolve_right hlaterIndex
        subst hie
        refine ⟨e.2, read, htarget, ?_, hback⟩
        rw [hothers _ hlaterIndex, getElem?_set_self hbound]
    · intro i hi
      rw [map_cons, mem_cons, not_or] at hi
      rw [hothers i hi.2, getElem?_set_ne (Ne.symm hi.1)]

theorem isLine_updateLines (h : state.Settled blake3Hex) {entries : List (Nat × FileState)}
    (hentries : ∀ e ∈ entries, e.2.Settled blake3Hex) :
    ∀ l ∈ state.updateLines entries, IsLine l := by
  intro l hl
  simp only [updateLines, updateHeaderLines,
    overrideLines, mem_append, mem_cons, not_mem_nil,
    or_false] at hl
  rcases hl with ((rfl | rfl | rfl | rfl | rfl) | hl | (rfl | rfl) | hl) | rfl | hl
  · decide
  · exact isLine_row_singleton _ (by decide) (isLine_renderIdentity _)
  · refine isLine_row _ (by decide) ?_ rfl (endsPlain_renderIdentity _)
    simp [h.outputHash.2, (plainText_renderIdentity _).2]
  · exact isLine_buildIdHashLine h.buildIdHashes
  · exact isLine_row_singleton _ (by decide) (isLine_getD fun file hf => (h.machoFile file hf).1)
  · exact isLine_reservedRangeTable _ l hl
  · exact isLine_row_singleton _ (by decide)
      (isLine_getD fun file hf => (h.overridesFile file hf).1)
  · exact isLine_countLine _ (by decide) _
  · obtain ⟨file, hfile, rfl⟩ := mem_map.mp hl
    exact isLine_row_singleton _ (by decide) (h.overrideInputs file hfile)
  · exact isLine_countLine _ (by decide) _
  · obtain ⟨e, he, rfl⟩ := mem_map.mp hl
    exact isLine_inputUpdateLine (hentries e he)

end Update

/-! ## 6. The update file -/

theorem StateDir.readToString_utf8 {dir : StateDir} {fileName contents : Text}
    (h : dir.files fileName = some (utf8 contents)) :
    dir.readToString fileName = .ok (some contents) := by
  simp [readToString, h, Except.map]

theorem StateDir.readToString_none {dir : StateDir} {fileName : Text}
    (h : dir.files fileName = none) : dir.readToString fileName = .ok none := by
  simp [readToString, h]

/-- The update file holds an update of a settled state, with the listed inputs. -/
structure HoldsUpdate (blake3Hex : Bytes → Text) (dir : StateDir) (state : PersistedState)
    (entries : List (Nat × FileState)) : Prop where
  file : dir.files metadataUpdateFile = some (utf8 (unlines (state.updateLines entries)))
  settled : state.Settled blake3Hex
  entries : ∀ e ∈ entries, state.inputFiles[e.1]? = some e.2

section UpdateFile

variable {blake3Hex : Bytes → Text} {dir : StateDir} {state : PersistedState}
  {entries : List (Nat × FileState)}

section

variable (h : HoldsUpdate blake3Hex dir state entries)
include h

theorem HoldsUpdate.entries_settled :
    ∀ e ∈ entries, e.2.Settled blake3Hex :=
  fun e he => h.settled.inputs e.2 (mem_of_getElem? (h.entries e he))

theorem HoldsUpdate.lines :
    Text.lines (unlines (state.updateLines entries)) = state.updateLines entries :=
  lines_unlines (isLine_updateLines h.settled h.entries_settled)

/-- **The inputs of the last update are found again.** -/
theorem HoldsUpdate.indices :
    metadataUpdateInputIndices blake3Hex dir = .ok (entries.map Prod.fst) := by
  have hheader := @parseMetadataUpdateHeader_render blake3Hex state h.settled
    (fun _ => .ok ()) (fun _ _ => rfl)
    (countLine "inputs" entries.length :: entries.map inputUpdateLine)
  have hread : ∀ e ∈ entries, always (readInputUpdateIndex blake3Hex) (inputUpdateLine e)
      = .ok (some e.1) := by
    intro e he
    obtain ⟨read, hread, -⟩ := parseInputLine_settled (h.entries_settled e he) .preserveRaw
    refine always_ok ?_
    rw [readInputUpdateIndex, splitInputUpdate_inputUpdateLine, ok_bind]
    simp only [hread, ok_bind]
    rfl
  have htable : ∀ l : List (Nat × FileState), (∀ e ∈ l, e ∈ entries) →
      readTable (always (readInputUpdateIndex blake3Hex)) missingLine l.length
        (l.map inputUpdateLine) = .ok (l.map Prod.fst, []) := by
    intro l
    induction l with
    | nil => exact fun _ => rfl
    | cons e l ih =>
      intro hl
      have hrest := ih fun e' he' => hl e' (mem_cons_of_mem _ he')
      simp [readTable, hread e (hl e (by simp)), hrest]
  rw [metadataUpdateInputIndices, StateDir.readToString_utf8 h.file, ok_bind]
  simp only [h.lines]
  rw [updateLines, hheader, ok_bind]
  simp only [parseCount_countLine "inputs" (by decide), ok_bind, tail_cons,
    htable entries fun _ he => he]
  rfl

/-- **The last update is applied**: its fields replace those of the state it is applied to, its
inputs are read back, and the other inputs are left alone. -/
theorem HoldsUpdate.apply {base : PersistedState}
    (hbound : ∀ e ∈ entries, e.1 < base.inputFiles.length) (mode : PatchSectionReadMode) :
    ∃ inputFiles, base.applyMetadataUpdate blake3Hex dir mode
        = .ok { base.withHeader state.updateHeader with inputFiles }
      ∧ inputFiles.length = base.inputFiles.length
      ∧ (∀ i ∈ entries.map Prod.fst, ∃ input read, state.inputFiles[i]? = some input
        ∧ inputFiles[i]? = some read ∧ input.ReadBack blake3Hex mode read)
      ∧ ∀ i ∉ entries.map Prod.fst, inputFiles[i]? = base.inputFiles[i]? := by
  have hheader := parseMetadataUpdateHeader_render h.settled
    (fun file hfile => (h.settled.machoFile file hfile).2)
    (countLine "inputs" entries.length :: entries.map inputUpdateLine)
  obtain ⟨inputFiles, hrun, hlength, hlisted, hothers⟩ :=
    @applyInputUpdates_render blake3Hex (fun i => state.inputFiles[i]?) mode [] entries
      base.inputFiles fun e he => ⟨h.entries e he, h.entries_settled e he, hbound e he⟩
  rw [append_nil] at hrun
  refine ⟨inputFiles, ?_, hlength, hlisted, hothers⟩
  rw [applyMetadataUpdate, StateDir.readToString_utf8 h.file, ok_bind]
  simp only [h.lines]
  rw [updateLines, hheader, ok_bind]
  simp only [parseCount_countLine "inputs" (by decide), ok_bind, tail_cons, hrun]
  rfl

end

theorem metadataUpdateInputIndices_none (h : dir.files metadataUpdateFile = none) :
    metadataUpdateInputIndices blake3Hex dir = .ok [] := by
  rw [metadataUpdateInputIndices, StateDir.readToString_none h, ok_bind]

theorem applyMetadataUpdate_none (h : dir.files metadataUpdateFile = none)
    (base : PersistedState) (mode : PatchSectionReadMode) :
    base.applyMetadataUpdate blake3Hex dir mode = .ok base := by
  rw [applyMetadataUpdate, StateDir.readToString_none h, ok_bind]

end UpdateFile

/-! ## 7. The index -/

/-- The files and the table of locations that an index names. -/
structure IndexFiles where
  sectionsFile : Text
  patchRecordsFile : Option Text
  locations : List PatchRecordLocation
  raw : Option Text
  machoFile : Option Text
  indexedMachoFile : Option Text

/-- The lines of a table of locations. -/
def locationLines (locations : List PatchRecordLocation) : List Text :=
  countLine "patch-records" locations.length :: locations.map patchRecordLocationLine

/-- What the reader checks of the files that an index names.  A table that is kept as text is
the text of some table. -/
structure IndexFiles.Settled (files : IndexFiles) : Prop where
  sectionsFile : SidecarName validateSectionsFileName files.sectionsFile
  patchRecordsFile : ∀ file ∈ files.patchRecordsFile, SidecarName validateSectionsFileName file
  machoFile : ∀ file ∈ files.machoFile, SidecarName validateMachoResolutionsFileName file
  indexedMachoFile : ∀ file ∈ files.indexedMachoFile,
    SidecarName validateMachoResolutionsFileName file
  table : ∃ locations : List PatchRecordLocation,
    (∀ l ∈ locations, PlainText l.inputFile ∧ PlainText l.hash ∧ EndsPlain l.hash)
      ∧ renderPatchRecordLocationTable files.locations files.raw
        = unlines (locationLines locations)

/-- What the reader checks of the fields that only the index has. -/
structure PersistedState.HeaderSettled (state : PersistedState) : Prop where
  argsHash : IsLine state.argsHash
  linkOptionsHash : ∃ hash, state.linkOptionsHash = some hash ∧ IsLine hash
  inputOrderHash : ∃ hash, state.inputOrderHash = some hash ∧ IsLine hash
  sldVersion : ∃ version, state.sldVersion = some version ∧ IsLine version

/-- No line with the tag comes next. -/
def NotNext (tag : String) (lines : List Text) : Prop := lines.head?.any (hasTag · tag) = false

theorem nextOptionalLine_row (tag : String) (h : '\t' ∉ tag.toList) (value : Text)
    (rest : List Text) : nextOptionalLine tag (row tag [value] :: rest) = .ok (some value, rest) := by
  simp [nextOptionalLine, hasTag_row tag (cons_ne_nil value []),
    parsePrefixedLine_row_singleton tag h]

theorem nextOptionalLine_notNext {tag : String} {lines : List Text} (h : NotNext tag lines) :
    nextOptionalLine tag lines = .ok (none, lines) := by
  rw [nextOptionalLine, h]
  rfl

theorem nextOptionalLine_optionalLine (tag : String) (h : '\t' ∉ tag.toList)
    (value : Option Text) (hrest : NotNext tag rest) :
    nextOptionalLine tag (optionalLine tag value ++ rest) = .ok (value, rest) := by
  cases value with
  | none => exact nextOptionalLine_notNext hrest
  | some value => exact nextOptionalLine_row tag h value rest

theorem nextRequiredLine_row (tag : String) (h : '\t' ∉ tag.toList) (value : Text)
    (required : Bool) (missing : String) (rest : List Text) :
    nextRequiredLine required tag missing (row tag [value] :: rest) = .ok (some value, rest) := by
  rw [nextRequiredLine, nextOptionalLine_row tag h, ok_bind]
  simp

/-- The lines of the index in front of its inputs, without the version. -/
def PersistedState.headerLines (state : PersistedState) : List Text :=
  [row "args" [state.argsHash]] ++ optionalLine "link-options" state.linkOptionsHash
    ++ optionalLine "input-order" state.inputOrderHash
    ++ optionalLine "sld-version" state.sldVersion
    ++ [linkStartLine state.linkStart, outputLine state.output,
      buildIdHashLine state.buildIdHashes]

def PersistedState.indexHeader (state : PersistedState) : IndexHeader where
  argsHash := state.argsHash
  linkOptionsHash := state.linkOptionsHash
  inputOrderHash := state.inputOrderHash
  sldVersion := state.sldVersion
  linkStart := state.linkStart
  output := state.output
  buildIdHashes := state.buildIdHashes

theorem parseIndexHeader_render {blake3Hex : Bytes → Text} {state : PersistedState}
    (h : state.Settled blake3Hex) (hheader : state.HeaderSettled) (rest : List Text) :
    parseIndexHeader stateVersion (state.headerLines ++ rest) = .ok (state.indexHeader, rest) := by
  obtain ⟨options, hoptions, -⟩ := hheader.linkOptionsHash
  obtain ⟨order, horder, -⟩ := hheader.inputOrderHash
  obtain ⟨version, hversion, -⟩ := hheader.sldVersion
  have hlinkStart : hasTag (linkStartLine state.linkStart) "link-start" = true :=
    hasTag_row _ (by simp)
  have hbuildId : hasTag (buildIdHashLine state.buildIdHashes) "build-id-hash" = true :=
    hasTag_row _ (by simp)
  rw [parseIndexHeader]
  simp only [headerLines, hoptions, horder, hversion, optionalLine, map_some,
    toList_some, cons_append, nil_append, head?_cons, tail_cons,
    parsePrefixedLine_row_singleton "args" (by decide), ok_bind,
    nextRequiredLine_row "link-options" (by decide), nextRequiredLine_row "input-order" (by decide),
    nextRequiredLine_row "sld-version" (by decide), any_some, hlinkStart, if_true,
    parseLinkStartLine_linkStartLine, pure_eq_ok, parseContentLine_outputLine h.outputHash,
    hbuildId, parseBuildIdHashLine_buildIdHashLine h.buildIdHashes]
  rw [indexHeader, hoptions, horder, hversion]

theorem parseIndexMachoFiles_render {files : IndexFiles} (h : files.Settled)
    (hrest : NotNext "indexed-macho-resolutions-file" rest) :
    parseIndexMachoFiles stateVersion (machoResolutionsFileLine files.machoFile
        :: (optionalLine "indexed-macho-resolutions-file" files.indexedMachoFile ++ rest))
      = .ok ((files.machoFile, files.indexedMachoFile), rest) := by
  have hname : ∀ {file : Option Text}, (∀ f ∈ file, SidecarName validateMachoResolutionsFileName f)
      → ∀ f ∈ file, f ≠ absentField ∧ validateMachoResolutionsFileName f = .ok () := by
    intro file hfile f hf
    refine ⟨?_, (hfile f hf).2⟩
    rintro rfl
    exact validateMachoResolutionsFileName_absent (hfile _ hf).2
  have hindexed := nextOptionalLine_optionalLine "indexed-macho-resolutions-file" (by decide)
    files.indexedMachoFile hrest
  rw [parseIndexMachoFiles]
  simp only [machoResolutionsFileLine, nextRequiredLine_row "macho-resolutions-file" (by decide),
    ok_bind, getD_some, parseMachoResolutionsFile_getD (hname h.machoFile), stateVersion,
    Nat.reduceLeDiff, if_true, hindexed, parseMachoResolutionsFile_getD (hname h.indexedMachoFile)]
  rfl

/-- The lines of the index behind its reserved ranges. -/
def IndexFiles.recordLines (files : IndexFiles) (table : List Text) : List Text :=
  if files.patchRecordsFile = some files.sectionsFile then
    row "indexed-sections-file" [files.sectionsFile] :: table
  else row "sections-file" [files.sectionsFile] ::
    match files.patchRecordsFile with
    | none => []
    | some file => row "patch-records-file" [file] :: table

theorem notNext_row {tag other : String} {columns : List Text} (hne : columns ≠ [])
    (h : ∀ rest, (other.toList ++ ['\t']).isPrefixOf (tag.toList ++ '\t' :: rest) = false) :
    NotNext other (row tag columns :: rest) := by
  rw [NotNext, head?_cons, any_some]
  exact not_hasTag_row hne h

theorem notNext_recordLines (files : IndexFiles) (table : List Text) (other : String)
    (hindexed : ∀ rest, (other.toList ++ ['\t']).isPrefixOf
      ("indexed-sections-file".toList ++ '\t' :: rest) = false)
    (hsections : ∀ rest, (other.toList ++ ['\t']).isPrefixOf
      ("sections-file".toList ++ '\t' :: rest) = false) :
    NotNext other (files.recordLines table) := by
  unfold IndexFiles.recordLines
  split
  · exact notNext_row (by simp) hindexed
  · exact notNext_row (by simp) hsections

theorem parsePatchRecordLocationTable_locationLines
    (h : ∀ l ∈ locations, PlainText l.inputFile ∧ PlainText l.hash ∧ EndsPlain l.hash)
    (parseLocations : Bool) :
    ∃ read, parsePatchRecordLocationTable (locationLines locations) parseLocations
      = .ok (read, []) := by
  cases parseLocations with
  | true =>
    have htable := readTable_map missingLine locations [] fun l hl =>
      always_ok (parsePatchRecordLocationLine_patchRecordLocationLine (h l hl).1 (h l hl).2.1)
    rw [append_nil] at htable
    refine ⟨(locations, none), ?_⟩
    simp [parsePatchRecordLocationTable, locationLines, nextPart,
      parseCount_countLine "patch-records" (by decide), htable]
  | false =>
    have htable := @readTable_map Text (always .ok) "Missing incremental patch record location" id
      (locations.map patchRecordLocationLine) [] fun _ _ => always_ok rfl
    rw [append_nil, List.map_id, length_map] at htable
    refine ⟨([], some (unlines (locationLines locations))), ?_⟩
    simp [parsePatchRecordLocationTable, locationLines, nextPart,
      parseCount_countLine "patch-records" (by decide), htable]

/-- The records that an index loads with its parser: none of an indexed sidecar, which is read
later, and otherwise those of the sections sidecar. -/
def IndexFiles.Loads (files : IndexFiles) (loadSections : Text → Result (Option Text))
    (ranges : List ReservedRangeRecord) : Prop :=
  files.patchRecordsFile ≠ some files.sectionsFile →
    ∃ records, loadRecords loadSections files.sectionsFile = .ok records
      ∧ validateReservedRangesAgainstSections ranges records.sections = .ok ()

theorem validateReservedRangesAgainstSections_nil (h : ∀ r ∈ ranges, r.WellFormed) :
    validateReservedRangesAgainstSections ranges [] = .ok () := by
  refine forM_ok ?_
  intro range hrange
  have hadd : checkedAdd range.outputOffset range.size
      = some (UInt64.ofNat (range.outputOffset.toNat + range.size.toNat)) :=
    checkedAdd_eq_some.mpr (UInt64.toNat_ofNat_of_lt (h range hrange).end_lt).symm
  rw [validateReservedRangeAgainstSections, hadd, context_some, ok_bind]
  rfl

/-- **The end of the index reads back.** -/
theorem parseIndexRecords_render {files : IndexFiles} (h : files.Settled)
    (hlocations : ∀ l ∈ locations, PlainText l.inputFile ∧ PlainText l.hash ∧ EndsPlain l.hash)
    (parseLocations : Bool) {loadSections : Text → Result (Option Text)}
    (hranges : ∀ r ∈ ranges, r.WellFormed)
    (hload : files.Loads loadSections ranges) :
    ∃ records, parseIndexRecords stateVersion parseLocations loadSections
        (files.recordLines (locationLines locations)) = .ok (records, [])
      ∧ records.sectionsFile = some files.sectionsFile
      ∧ records.patchRecordsFile = files.patchRecordsFile
      ∧ validateReservedRangesAgainstSections ranges records.records.sections = .ok () := by
  obtain ⟨read, hread⟩ := parsePatchRecordLocationTable_locationLines hlocations parseLocations
  by_cases hindexed : files.patchRecordsFile = some files.sectionsFile
  · refine ⟨{ sectionsFile := some files.sectionsFile, patchRecordsFile := some files.sectionsFile
              patchRecordLocations := read.1, rawPatchRecordLocations := read.2 }, ?_, rfl,
      hindexed.symm, validateReservedRangesAgainstSections_nil hranges⟩
    have htag : hasTag (row "indexed-sections-file" [files.sectionsFile]) "indexed-sections-file"
        = true := hasTag_row _ (by simp)
    rw [IndexFiles.recordLines, if_pos hindexed, parseIndexRecords]
    simp only [stateVersion, Nat.reduceLeDiff, if_true, nextPart, ok_bind, htag,
      parseIndexedSectionsFile, parsePrefixedLine_row_singleton "indexed-sections-file" (by decide),
      h.sectionsFile.2, hread]
    rfl
  · obtain ⟨records, hrecords, hvalid⟩ := hload hindexed
    have hnot : hasTag (row "sections-file" [files.sectionsFile]) "indexed-sections-file"
        = false := not_hasTag_row (by simp) fun _ => rfl
    have htag : hasTag (row "sections-file" [files.sectionsFile]) "sections-file" = true :=
      hasTag_row _ (by simp)
    rw [IndexFiles.recordLines, if_neg hindexed]
    cases hpatch : files.patchRecordsFile with
    | none =>
      refine ⟨{ records := records.toRecordLists, sectionsFile := some files.sectionsFile }, ?_, rfl,
        rfl, hvalid⟩
      rw [parseIndexRecords]
      simp only [stateVersion, Nat.reduceLeDiff, if_true, nextPart, ok_bind, hnot, Bool.false_eq_true,
        if_false, htag, parseSectionsFile,
        parsePrefixedLine_row_singleton "sections-file" (by decide), h.sectionsFile.2, hrecords,
        parsePatchRecordsFile, nextOptionalLine_notNext (rfl : NotNext "patch-records-file" [])]
      rfl
    | some file =>
      refine ⟨{ records := records.toRecordLists, sectionsFile := some files.sectionsFile
                patchRecordsFile := some file, patchRecordLocations := read.1
                rawPatchRecordLocations := read.2 }, ?_, rfl, rfl, hvalid⟩
      have htable : (locationLines locations).head?.any (hasTag · "patch-records") = true := by
        rw [locationLines, head?_cons, any_some]
        exact hasTag_row _ (by simp)
      rw [parseIndexRecords]
      simp only [stateVersion, Nat.reduceLeDiff, if_true, nextPart, ok_bind, hnot, Bool.false_eq_true,
        if_false, htag, parseSectionsFile,
        parsePrefixedLine_row_singleton "sections-file" (by decide), h.sectionsFile.2, hrecords,
        parsePatchRecordsFile, nextOptionalLine_row "patch-records-file" (by decide),
        (h.patchRecordsFile file hpatch).2, htable, hread]
      rfl

/-- The index of a state as the list of its lines. -/
def PersistedState.indexLines (state : PersistedState) (files : IndexFiles) (table : List Text) :
    List Text :=
  versionLine stateVersionStem stateVersion :: (state.headerLines
    ++ (countLine "inputs" state.inputFiles.length :: (state.inputFiles.map inputLine
      ++ machoResolutionsFileLine files.machoFile
        :: (optionalLine "indexed-macho-resolutions-file" files.indexedMachoFile
          ++ (renderReservedRangeTable state.reservedRanges ++ files.recordLines table)))))

theorem renderIndex_eq_unlines (state : PersistedState) (files : IndexFiles)
    (htable : renderPatchRecordLocationTable files.locations files.raw
      = unlines (locationLines locations)) :
    state.renderIndex files.sectionsFile files.patchRecordsFile files.locations files.raw
        files.machoFile files.indexedMachoFile
      = unlines (state.indexLines files (locationLines locations)) := by
  unfold renderIndex
  simp only [htable]
  by_cases hindexed : files.patchRecordsFile = some files.sectionsFile
  · rw [if_pos hindexed, ← unlines_append, ← unlines_append]
    congr 1
    simp [indexLines, renderHeaderAndInputs,
      headerLines, IndexFiles.recordLines, hindexed]
  · rw [if_neg hindexed]
    cases hpatch : files.patchRecordsFile with
    | none =>
      simp only [append_nil]
      rw [← unlines_append]
      congr 1
      simp [indexLines, renderHeaderAndInputs,
        headerLines, IndexFiles.recordLines, hpatch]
    | some file =>
      rw [hpatch, some.injEq] at hindexed
      simp only
      rw [← unlines_append, ← unlines_append, ← unlines_append]
      congr 1
      simp [indexLines, renderHeaderAndInputs,
        headerLines, IndexFiles.recordLines, hpatch, hindexed]

theorem isLine_optionalLine (tag : String) (htag : '\n' ∉ tag.toList) {value : Option Text}
    (h : ∀ v ∈ value, IsLine v) : ∀ l ∈ optionalLine tag value, IsLine l := by
  intro l hl
  obtain ⟨v, hv, rfl⟩ := map_eq_some_iff.mp (mem_toList.mp hl)
  exact isLine_row_singleton tag htag (h v hv)

theorem isLine_locationLines
    (h : ∀ l ∈ locations, PlainText l.inputFile ∧ PlainText l.hash ∧ EndsPlain l.hash) :
    ∀ l ∈ locationLines locations, IsLine l := by
  intro l hl
  rcases mem_cons.mp hl with rfl | hl
  · exact isLine_countLine _ (by decide) _
  · obtain ⟨location, hlocation, rfl⟩ := mem_map.mp hl
    obtain ⟨hfile, hhash, hend⟩ := h location hlocation
    exact isLine_row _ (by decide) (by simp [hfile.2, hhash.2]) rfl hend

theorem isLine_recordLines {files : IndexFiles} (h : files.Settled) {table : List Text}
    (htable : ∀ l ∈ table, IsLine l) : ∀ l ∈ files.recordLines table, IsLine l := by
  intro l hl
  unfold IndexFiles.recordLines at hl
  split at hl
  · rcases mem_cons.mp hl with rfl | hl
    · exact isLine_row_singleton _ (by decide) h.sectionsFile.1
    · exact htable l hl
  · rcases mem_cons.mp hl with rfl | hl
    · exact isLine_row_singleton _ (by decide) h.sectionsFile.1
    · cases hpatch : files.patchRecordsFile with
      | none =>
        rw [hpatch] at hl
        exact absurd hl (by simp)
      | some file =>
        rw [hpatch] at hl
        rcases mem_cons.mp hl with rfl | hl
        · exact isLine_row_singleton _ (by decide) (h.patchRecordsFile file hpatch).1
        · exact htable l hl

theorem isLine_of_exists (h : ∃ t, o = some t ∧ IsLine t) :
    ∀ t ∈ o, IsLine t := by
  obtain ⟨t, rfl, ht⟩ := h
  intro t' ht'
  cases ht'
  exact ht

section Index

variable {blake3Hex : Bytes → Text} {state : PersistedState} {files : IndexFiles}

theorem isLine_indexLines (h : state.Settled blake3Hex) (hheader : state.HeaderSettled)
    (hfiles : files.Settled) {table : List Text} (htable : ∀ l ∈ table, IsLine l) :
    ∀ l ∈ state.indexLines files table, IsLine l := by
  intro l hl
  simp only [indexLines, headerLines, mem_append, mem_cons,
    not_mem_nil, or_false] at hl
  rcases hl with rfl | ((((rfl | hl) | hl) | hl) | rfl | rfl | rfl) | rfl | hl | rfl | hl | hl | hl
  · decide
  · exact isLine_row_singleton _ (by decide) hheader.argsHash
  · exact isLine_optionalLine _ (by decide) (isLine_of_exists hheader.linkOptionsHash) l hl
  · exact isLine_optionalLine _ (by decide) (isLine_of_exists hheader.inputOrderHash) l hl
  · exact isLine_optionalLine _ (by decide) (isLine_of_exists hheader.sldVersion) l hl
  · exact isLine_row_singleton _ (by decide) (isLine_renderIdentity _)
  · refine isLine_row _ (by decide) ?_ rfl (endsPlain_renderIdentity _)
    simp [h.outputHash.2, (plainText_renderIdentity _).2]
  · exact isLine_buildIdHashLine h.buildIdHashes
  · exact isLine_countLine _ (by decide) _
  · obtain ⟨input, hinput, rfl⟩ := mem_map.mp hl
    have hrow := row_renderInputLineRest "input" [] input
    rw [inputLine, ← nil_append [renderInputLineRest input], hrow]
    exact isLine_inputRow (h.inputs input hinput) "input" (by decide) (by simp)
  · exact isLine_row_singleton _ (by decide)
      (isLine_getD fun file hf => (hfiles.machoFile file hf).1)
  · exact isLine_optionalLine _ (by decide) (fun file hf => (hfiles.indexedMachoFile file hf).1) l hl
  · unfold renderReservedRangeTable at hl
    split at hl
    · exact absurd hl (by simp)
    · exact isLine_reservedRangeTable _ l hl
  · exact isLine_recordLines hfiles htable l hl

/-- The inputs of the index read back one by one. -/
theorem readTable_inputLines (mode : PatchSectionReadMode) (missing : String)
    (rest : List Text) : ∀ {inputs : List FileState},
    (∀ input ∈ inputs, input.Settled blake3Hex) →
    ∃ reads, readTable (always fun line => parseInputLine blake3Hex line mode) missing
        inputs.length (inputs.map inputLine ++ rest) = .ok (reads, rest)
      ∧ Forall₂ (ReadBack blake3Hex mode) inputs reads := by
  intro inputs
  induction inputs with
  | nil => exact fun _ => ⟨[], rfl, Forall₂.nil⟩
  | cons input inputs ih =>
    intro h
    obtain ⟨reads, hreads, hback⟩ := ih fun x hx => h x (mem_cons_of_mem _ hx)
    obtain ⟨read, hread, hinput⟩ := parseInputLine_settled (h input (by simp)) mode
    have hrow := row_renderInputLineRest "input" [] input
    rw [nil_append, nil_append] at hrow
    refine ⟨read :: reads, ?_, Forall₂.cons hinput hback⟩
    simp [readTable, always, inputLine, hrow, hread, hreads, Except.map]

/-- What the parser makes of the index of a state: the fields as they were written, the inputs in
the form of the reader, and no overrides. -/
structure IndexRead (blake3Hex : Bytes → Text) (mode : PatchSectionReadMode)
    (state : PersistedState) (files : IndexFiles) (read : PersistedState) : Prop where
  header : read.indexHeader = state.indexHeader
  reservedRanges : read.reservedRanges = state.reservedRanges
  inputFiles : Forall₂ (ReadBack blake3Hex mode) state.inputFiles read.inputFiles
  sectionsFile : read.sectionsFile = some files.sectionsFile
  patchRecordsFile : read.patchRecordsFile = files.patchRecordsFile
  machoFile : read.machoSymbolResolutionsFile = files.machoFile
  indexedMachoFile : read.indexedMachoSymbolResolutionsFile = files.indexedMachoFile
  overridesFile : read.recordOverridesFile = none
  overrideInputs : read.recordOverrideInputs = []

/-- **The index reads back.** -/
theorem parseWithSectionLoader_render (h : state.Settled blake3Hex)
    (hheader : state.HeaderSettled) (hfiles : files.Settled) (mode : PatchSectionReadMode)
    (parseLocations : Bool) {loadSections : Text → Result (Option Text)}
    (hload : files.Loads loadSections state.reservedRanges) :
    ∃ read, parseWithSectionLoader blake3Hex
        (state.renderIndex files.sectionsFile files.patchRecordsFile files.locations files.raw
          files.machoFile files.indexedMachoFile) mode parseLocations loadSections = .ok read
      ∧ IndexRead blake3Hex mode state files read := by
  obtain ⟨locations, hlocations, htable⟩ := hfiles.table
  have hlines := lines_unlines
    (isLine_indexLines h hheader hfiles (isLine_locationLines hlocations))
  have hversion : versionNumber stateVersionStem stateVersion
      (versionLine stateVersionStem stateVersion) = some stateVersion := by decide
  have hreserves : NotNext "reserves" (files.recordLines (locationLines locations)) :=
    notNext_recordLines files _ "reserves" (fun _ => rfl) fun _ => rfl
  have hindexed : NotNext "indexed-macho-resolutions-file"
      (renderReservedRangeTable state.reservedRanges
        ++ files.recordLines (locationLines locations)) := by
    unfold renderReservedRangeTable
    split
    · exact notNext_recordLines files _ _ (fun _ => rfl) fun _ => rfl
    · exact notNext_row (by simp) fun _ => rfl
  have hranges : (if 40 ≤ stateVersion ∧ (renderReservedRangeTable state.reservedRanges
        ++ files.recordLines (locationLines locations)).head?.any (hasTag · "reserves") = true then
      parseReservedRangeTable (renderReservedRangeTable state.reservedRanges
        ++ files.recordLines (locationLines locations)) state.output.len
      else .ok ([], renderReservedRangeTable state.reservedRanges
        ++ files.recordLines (locationLines locations)))
      = .ok (state.reservedRanges, files.recordLines (locationLines locations)) := by
    unfold renderReservedRangeTable
    by_cases hnil : state.reservedRanges = []
    · rw [if_pos hnil, nil_append, hreserves, hnil]
      rfl
    · rw [if_neg hnil, parseReservedRangeTable_render h.reserves, if_pos]
      refine ⟨by decide, ?_⟩
      exact hasTag_row _ (by simp)
  obtain ⟨inputs, hinputs, hback⟩ := readTable_inputLines mode
    "Missing incremental input record" (machoResolutionsFileLine files.machoFile
      :: (optionalLine "indexed-macho-resolutions-file" files.indexedMachoFile
        ++ (renderReservedRangeTable state.reservedRanges
          ++ files.recordLines (locationLines locations)))) h.inputs
  obtain ⟨records, hrecords, hsections, hpatchRecords, hvalid⟩ := parseIndexRecords_render hfiles
    hlocations parseLocations h.reserves.valid.wellFormed hload
  rw [renderIndex_eq_unlines state files htable, parseWithSectionLoader, hlines]
  simp only [indexLines, nextPart, ok_bind, hversion, context_some,
    parseIndexHeader_render h hheader, parseCount_countLine "inputs" (by decide), tail_cons,
    hinputs, parseIndexMachoFiles_render hfiles hindexed, indexHeader, hranges,
    hrecords]
  rw [failIf_neg _ (by simp), ok_bind, hvalid, ok_bind]
  exact ⟨_, rfl, rfl, rfl, hback, hsections, hpatchRecords, rfl, rfl, rfl, rfl⟩

end Index

end Srs.Incremental
