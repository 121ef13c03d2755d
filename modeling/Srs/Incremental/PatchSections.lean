/-
# Patch sections and the inputs they name

An input line remembers, for every section that may be patched, where its bytes are in the
input and in the output.  `incremental.rs` writes the sections as one column: the fields of a
section between colons, the sections between commas.  The last field is only written when it is
present, and older states have fewer fields still, so the reader decides by how many fields it
finds.

The `input` of a section is itself encoded: the bytes of the input file's path, in hexadecimal,
followed for an archive member by its identifier and its range in the archive
(`parse_patch_input_ref`).  Rust object files carry the name of the compiler's invocation, which
`archive_member_patch_identifier` takes out.
-/
import Srs.Incremental.RecordsRoundTrip
import Srs.Lib.Bytes

namespace Srs.Incremental

open Text Bytes List

/-! ## 1. Digests and archive members -/

/-- `is_blake3_hex_digest`: 64 lower-case hexadecimal digits. -/
def isBlake3HexDigest (digest : Text) : Bool :=
  digest.length = 64 ∧ ∀ c ∈ digest, IsHex c

/-- `str::strip_suffix`. -/
def stripEnd (ending t : Text) : Option Text :=
  if ending <:+ t then some (t.take (t.length - ending.length)) else none

/-- `str::rsplit_once`. -/
def rsplitOnce (sep : Char) (t : Text) : Option (Text × Text) :=
  (splitOnce sep t.reverse).map fun p => (p.2.reverse, p.1.reverse)

/-- The stem of a Rust object file without the compiler's invocation, when it is one. -/
def rustObjectModule (filename : Text) : Option Text := do
  let stem ← stripEnd ".rcgu.o".toList filename
  let (moduleName, invocation) ← rsplitOnce '.' stem
  match split '.' moduleName with
  | crateName :: codegenUnit :: moduleParts =>
    if crateName = [] ∨ codegenUnit = [] ∨ invocation = [] ∨ [] ∈ moduleParts then none
    else some moduleName
  | _ => none

/-- `archive_member_patch_identifier`. -/
def archiveMemberPatchIdentifier (identifier : Bytes) : Bytes :=
  match (fromUtf8 identifier).bind rustObjectModule with
  | some moduleName => utf8 (moduleName ++ ".rcgu.o".toList)
  | none => identifier

structure ParsedPatchInputRef where
  identifier : Bytes
  start : UInt64
  stop : UInt64
  deriving DecidableEq

/-- A reference that names no archive member. -/
def unknownPatchInputRef : ParsedPatchInputRef := ⟨[], 0, 0⟩

/-- `slice::split_once` at a byte. -/
def splitByte (sep : UInt8) : Bytes → Option (Bytes × Bytes)
  | [] => none
  | b :: rest => if b = sep then some ([], rest) else (splitByte sep rest).map fun p => (b :: p.1, p.2)

/-- The rest of a reference after the path of its file: the identifier, a zero byte and the
range of the member. -/
def parseArchiveMemberRange (identifier rangeBytes : Bytes) : Result ParsedPatchInputRef := do
  let range ← context (fromUtf8 rangeBytes) "Malformed incremental archive member range"
  match splitOnce ':' range with
  | none => return unknownPatchInputRef
  | some (start, stop) =>
    let start : UInt64 ← parseNumber start "Invalid incremental archive member start offset"
    let stop : UInt64 ← parseNumber stop "Invalid incremental archive member end offset"
    return if start > stop then unknownPatchInputRef else ⟨identifier, start, stop⟩

/-- `parse_patch_input_ref`. -/
def parsePatchInputRef (inputFilePath inputRef : Text) : Result (Option ParsedPatchInputRef) := do
  let pathBytes ← context (hexDecode inputFilePath) "Malformed incremental input file path"
  let refBytes ← context (hexDecode inputRef) "Malformed incremental input ref"
  if refBytes = pathBytes then return none
  else match (if pathBytes ++ [0] <+: refBytes then
      splitByte 0 (refBytes.drop (pathBytes.length + 1)) else none) with
    | none => return some unknownPatchInputRef
    | some (identifier, rangeBytes) => (parseArchiveMemberRange identifier rangeBytes).map some

/-! ## 2. The sections of a patch -/

structure FilePatchSectionState where
  input : Text
  sectionIndex : UInt32
  sectionName : Option Text
  inputSize : UInt64
  outputOffset : UInt64
  outputSize : UInt64
  dataHash : Option Text
  cstringNulBoundariesHash : Option Text
  deriving DecidableEq

/-- The fields of one section; the last is left out when it is absent. -/
def patchSectionFields (s : FilePatchSectionState) : List Text :=
  [s.input, Decimal.render s.sectionIndex, Decimal.render s.inputSize,
    Decimal.render s.outputOffset, Decimal.render s.outputSize,
    (s.sectionName.map fun name => hexEncode (utf8 name)).getD absentField,
    s.dataHash.getD absentField] ++ s.cstringNulBoundariesHash.toList

/-- `render_patch_section_states`. -/
def renderPatchSectionStates (sections : List FilePatchSectionState) : Text :=
  join ',' (sections.map fun s => join ':' (patchSectionFields s))

/-- The name of a section, when its field is there and not absent. -/
def parsePatchSectionName (part : Option Text) : Result (Option Text) :=
  match part.bind optionalText with
  | none => .ok none
  | some name => do
    let bytes ← context (hexDecode name) "Malformed incremental patch section name"
    let name ← context (fromUtf8 bytes) "Invalid incremental patch section name"
    return some name

/-- The numbered fields of a section, after its input. -/
def parsePatchSectionFields (input : Text) (parts : List Text)
    (dataHash cstringNulBoundariesHash : Option Text) : Result FilePatchSectionState := do
  let sectionName ← parsePatchSectionName parts[4]?
  let sectionIndex ← parseNumber (column parts 0) "Invalid incremental patch section index"
  let inputSize ← parseNumber (column parts 1) "Invalid incremental patch section input size"
  let outputOffset ← parseNumber (column parts 2)
    "Invalid incremental patch section output offset"
  let outputSize ← parseNumber (column parts 3) "Invalid incremental patch section output size"
  return { input, sectionIndex, sectionName, inputSize, outputOffset, outputSize, dataHash
           cstringNulBoundariesHash }

/-- One section, by the number of its fields.  A number that no version writes gives up on all
sections, which is `none` here. -/
def parsePatchSection (defaultInput : Text) (parts : List Text) :
    Result (Option FilePatchSectionState) :=
  if parts.length = 4 ∨ parts.length = 5 then
    (parsePatchSectionFields defaultInput parts none none).map some
  else if parts.length = 6 then
    (parsePatchSectionFields (column parts 0) (parts.drop 1) none none).map some
  else if parts.length = 7 then
    (parsePatchSectionFields (column parts 0) ((parts.drop 1).take 5)
      (optionalText (column parts 6)) none).map some
  else if parts.length = 8 then
    (parsePatchSectionFields (column parts 0) ((parts.drop 1).take 5)
      (optionalText (column parts 6)) (optionalText (column parts 7))).map some
  else .ok none

/-- The loop of `parse_patch_sections`. -/
def collectPatchSections (defaultInput : Text) :
    List Text → List FilePatchSectionState → Result (List FilePatchSectionState)
  | [], parsed => .ok parsed
  | encoded :: rest, parsed => do
    let s ← parsePatchSection defaultInput (split ':' encoded)
    match s with
    | none => return []
    | some s => collectPatchSections defaultInput rest (parsed ++ [s])

/-- `parse_patch_sections`. -/
def parsePatchSections (defaultInput encoded : Text) : Result (List FilePatchSectionState) :=
  if encoded = [] then .ok [] else collectPatchSections defaultInput (split ',' encoded) []

/-! ## 3. Sections read back -/

/-- A text that fits a field between commas and colons. -/
def FieldText (t : Text) : Prop := ',' ∉ t ∧ ':' ∉ t

instance (t : Text) : Decidable (FieldText t) := inferInstanceAs (Decidable (_ ∧ _))

/-- A section whose texts fit their fields: a present hash is not spelled like an absent one. -/
structure FilePatchSectionState.Plain (s : FilePatchSectionState) : Prop where
  input : FieldText s.input
  dataHash : ∀ hash ∈ s.dataHash, FieldText hash ∧ hash ≠ absentField
  cstringHash : ∀ hash ∈ s.cstringNulBoundariesHash, FieldText hash ∧ hash ≠ absentField

theorem fieldText_render {α : Type} [Decimal α] (a : α) : FieldText (Decimal.render a) :=
  ⟨Decimal.comma_not_mem a, Decimal.colon_not_mem a⟩

theorem fieldText_hexEncode (bytes : Bytes) : FieldText (hexEncode bytes) :=
  ⟨not_mem_hexEncode (by decide) bytes, not_mem_hexEncode (by decide) bytes⟩

theorem fieldText_absentField : FieldText absentField := by decide

/-- A present text or the absent marker. -/
theorem fieldText_getD {o : Option Text} (h : ∀ t ∈ o, FieldText t) :
    FieldText (o.getD absentField) := by
  cases o with
  | none => exact fieldText_absentField
  | some t => exact h t rfl

variable {s : FilePatchSectionState}

theorem fieldText_patchSectionFields (h : s.Plain) :
    ∀ t ∈ patchSectionFields s, FieldText t := by
  intro t ht
  simp only [patchSectionFields, mem_append, mem_cons, not_mem_nil, or_false,
    Option.mem_toList] at ht
  rcases ht with (rfl | rfl | rfl | rfl | rfl | rfl | rfl) | ht
  · exact h.input
  · exact fieldText_render _
  · exact fieldText_render _
  · exact fieldText_render _
  · exact fieldText_render _
  · refine fieldText_getD ?_
    intro t ht
    obtain ⟨name, -, rfl⟩ := Option.map_eq_some_iff.mp ht
    exact fieldText_hexEncode _
  · exact fieldText_getD fun hash hh => (h.dataHash hash hh).1
  · exact (h.cstringHash t ht).1

theorem hexEncode_ne_absentField (bytes : Bytes) : hexEncode bytes ≠ absentField := by
  intro h
  have hmem : '-' ∈ hexEncode bytes := by
    rw [h]
    decide
  exact not_mem_hexEncode (by decide) bytes hmem

@[simp] theorem parsePatchSectionName_render (name : Option Text) :
    parsePatchSectionName (some ((name.map fun n => hexEncode (utf8 n)).getD absentField))
      = .ok name := by
  cases name with
  | none => simp [parsePatchSectionName, optionalText]
  | some n => simp [parsePatchSectionName, optionalText, hexEncode_ne_absentField]

/-- **A section reads back from its fields.** -/
theorem parsePatchSection_fields (defaultInput : Text) (h : s.Plain) :
    parsePatchSection defaultInput (patchSectionFields s) = .ok (some s) := by
  have hdata : optionalText (s.dataHash.getD absentField) = s.dataHash :=
    optionalText_getD fun hash hh => (h.dataHash hash hh).2
  obtain ⟨input, sectionIndex, sectionName, inputSize, outputOffset, outputSize, dataHash,
    cstringHash⟩ := s
  cases cstringHash with
  | none =>
    simp only at hdata
    simp [parsePatchSection, patchSectionFields, parsePatchSectionFields, column, hdata, Except.map]
  | some hash =>
    have hcstring : optionalText hash = some hash := by
      simp [optionalText, (h.cstringHash hash rfl).2]
    simp only at hdata
    simp [parsePatchSection, patchSectionFields, parsePatchSectionFields, column, hdata, hcstring,
      Except.map]

theorem join_patchSectionFields_ne_nil (s : FilePatchSectionState) :
    join ':' (patchSectionFields s) ≠ [] := by
  simp [patchSectionFields, join_cons_cons]

theorem split_patchSectionFields (h : s.Plain) :
    split ':' (join ':' (patchSectionFields s)) = patchSectionFields s :=
  split_join (by simp [patchSectionFields]) fun t ht => (fieldText_patchSectionFields h t ht).2

theorem collectPatchSections_render (defaultInput : Text) :
    ∀ {sections : List FilePatchSectionState}, (∀ s ∈ sections, s.Plain) →
      ∀ parsed, collectPatchSections defaultInput
          (sections.map fun s => join ':' (patchSectionFields s)) parsed
        = .ok (parsed ++ sections) := by
  intro sections
  induction sections with
  | nil =>
    intro _ parsed
    simp [collectPatchSections]
  | cons s rest ih =>
    intro h parsed
    have hs : s.Plain := h s (by simp)
    rw [map_cons, collectPatchSections, split_patchSectionFields hs,
      parsePatchSection_fields defaultInput hs]
    simp [ih fun x hx => h x (mem_cons_of_mem _ hx)]

/-- A list of non-empty pieces joins to the empty text only when there are none. -/
theorem join_ne_nil {sep : Char} {pieces : List Text} (hne : pieces ≠ [])
    (h : ∀ p ∈ pieces, p ≠ []) : join sep pieces ≠ [] := by
  cases pieces with
  | nil => exact absurd rfl hne
  | cons a rest => exact fun he => h a (by simp) (join_eq_nil_iff.mp he).1

/-- **The sections of a patch read back.** -/
theorem parsePatchSections_render (defaultInput : Text) {sections : List FilePatchSectionState}
    (h : ∀ s ∈ sections, s.Plain) :
    parsePatchSections defaultInput (renderPatchSectionStates sections) = .ok sections := by
  cases sections with
  | nil => rfl
  | cons s rest =>
    have hne : renderPatchSectionStates (s :: rest) ≠ [] := by
      refine join_ne_nil (by simp) ?_
      intro p hp
      obtain ⟨s', -, rfl⟩ := mem_map.mp hp
      exact join_patchSectionFields_ne_nil s'
    have hcomma : ∀ p ∈ (s :: rest).map fun s => join ':' (patchSectionFields s), ',' ∉ p := by
      intro p hp
      obtain ⟨s', hs', rfl⟩ := mem_map.mp hp
      exact not_mem_join (by decide) fun t ht => (fieldText_patchSectionFields (h s' hs') t ht).1
    rw [parsePatchSections, if_neg hne, renderPatchSectionStates, split_join (by simp) hcomma,
      collectPatchSections_render defaultInput h, nil_append]

end Srs.Incremental
