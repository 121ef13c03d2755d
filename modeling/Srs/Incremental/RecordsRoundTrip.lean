/-
# A record block reads back as the records it was written from

The round trip of `write_rendered_records` and `parse_compact_records_block`, with or without a
Mach-O resolution table behind the records (`parseCompactRecordsBlock_write`).

The proof follows the file: one lemma for each kind of line, saying that the line of a record
reads back as the record; one lemma for a counted table (`readTable_map`), lifting that to all
lines of the table; and the block theorem, which runs the tables one after the other.  What the
record texts have to satisfy is collected in the `Plain` predicates: no text may contain the
tab that separates columns or the newline that separates lines, and a present target name may
not be spelled like an absent one.
-/
import Srs.Incremental.RecordsParse

namespace Srs.Incremental

open Text List Option SectionInputTable Decimal RelocationTargetRecord

/-! ## 1. Columns -/

/-- A text that can stand in a column. -/
def PlainText (t : Text) : Prop := '\t' ∉ t ∧ '\n' ∉ t

instance (t : Text) : Decidable (PlainText t) := inferInstanceAs (Decidable (_ ∧ _))

attribute [simp] tab_not_mem newline_not_mem

variable {α : Type} {table : SectionInputTable}

theorem plainText_render [Decimal α] (a : α) : PlainText (render a) :=
  ⟨tab_not_mem a, newline_not_mem a⟩

theorem plainText_absentField : PlainText absentField := by decide

theorem plainText_optionalRecordField [Decimal α] (o : Option α) :
    PlainText (optionalRecordField o) := by
  cases o with
  | none => exact plainText_absentField
  | some a => exact plainText_render a

@[simp] theorem render_ne_absentField [Decimal α] (a : α) :
    render a ≠ absentField := render_ne_dash a

@[simp] theorem parseNumber_render [Decimal α] (a : α) (m : String) :
    parseNumber (render a) m = .ok a := by
  simp [parseNumber]

@[simp] theorem optionalNumber_optionalRecordField [Decimal α] (o : Option α)
    (m : String) : optionalNumber (optionalRecordField o) m = .ok o := by
  cases o with
  | none => simp [optionalNumber, optionalRecordField]
  | some a => simp [optionalNumber, optionalRecordField, Except.map]

@[simp] theorem nextNumber_cons [Decimal α] (a : α) (rest : List Text)
    (m m' : String) : nextNumber (render a :: rest) m m' = .ok (a, rest) := by
  simp [nextNumber, nextPart]

/-- The tag of a line is cut off and the columns are left. -/
theorem parsePrefixedLine_row (tag : String) (h : '\t' ∉ tag.toList) {columns : List Text}
    (hne : columns ≠ []) :
    parsePrefixedLine (some (row tag columns)) tag = .ok (join '\t' columns) := by
  obtain ⟨b, rest, rfl⟩ := exists_cons_of_ne_nil hne
  simp [parsePrefixedLine, row, splitOnce_join h]

theorem hasTag_row (tag : String) {columns : List Text} (hne : columns ≠ []) :
    hasTag (row tag columns) tag = true := by
  obtain ⟨b, rest, rfl⟩ := exists_cons_of_ne_nil hne
  have h : row tag (b :: rest) = (tag.toList ++ ['\t']) ++ join '\t' (b :: rest) := by
    simp [row, join_cons_cons]
  simp [hasTag, h]

theorem parseCount_countLine (tag : String) (h : '\t' ∉ tag.toList) (count : Nat)
    (lines : List Text) (invalid : String) :
    parseCount (countLine tag count :: lines) tag invalid = .ok count := by
  simp [parseCount, countLine, parsePrefixedLine_row tag h (cons_ne_nil _ _)]

/-! ## 2. Counted tables -/

/-- A table whose lines each read back as their record reads back as the records. -/
theorem readTable_map {α : Type} {read : Text → Result (Option α)} (missing : String)
    {render : α → Text} : ∀ (records : List α) (rest : List Text),
    (∀ r ∈ records, read (render r) = .ok (some r)) →
      readTable read missing records.length (records.map render ++ rest) = .ok (records, rest)
  | [], rest, _ => rfl
  | r :: records, rest, h => by
    have hr : read (render r) = .ok (some r) := h r (by simp)
    have ih := readTable_map missing records rest fun r' hr' => h r' (by simp [hr'])
    simp [readTable, hr, ih]

theorem always_ok {parse : Text → Result α} {line : Text} {a : α}
    (h : parse line = .ok a) : always parse line = .ok (some a) := by
  simp [always, h, Except.map]

/-- The same for a table that is read only when its tag is found. -/
theorem readOptionalTable_countLine {read : Text → Result (Option α)}
    {missing invalid : String} {render : α → Text} (tag : String) (htag : '\t' ∉ tag.toList)
    (records : List α) (rest : List Text) (h : ∀ r ∈ records, read (render r) = .ok (some r)) :
    readOptionalTable read tag invalid missing
      (countLine tag records.length :: records.map render ++ rest) = .ok (records, rest) := by
  have hcount := parseCount_countLine tag htag records.length (records.map render ++ rest) invalid
  have htagged : hasTag (countLine tag records.length) tag = true := hasTag_row _ (by simp)
  simp only [cons_append, readOptionalTable, head?_cons, any_some, htagged,
    if_true, hcount, ok_bind, tail_cons]
  exact readTable_map missing records rest h

/-! ## 3. One line of each kind -/

theorem parseSectionInputLine_sectionInputLine {key : InputKey} (h₁ : '\t' ∉ key.1)
    (h₂ : '\t' ∉ key.2) : parseSectionInputLine (sectionInputLine key) = .ok key := by
  have hs : split '\t' (join '\t' [key.1, key.2]) = [key.1, key.2] :=
    split_join (by simp) (by simp [h₁, h₂])
  have hp : parsePrefixedLine (some (sectionInputLine key)) "section-input"
      = .ok (join '\t' [key.1, key.2]) := parsePrefixedLine_row _ (by decide) (by simp)
  simp [parseSectionInputLine, hp, hs, nextPart, noMoreParts]

/-- The lines below store an id and look it up again; the table gives the pair back. -/
theorem parseCompactSectionLine_sectionLine {r : SectionRecord}
    (h : table.inputs[table.id r.key]? = some r.key) :
    parseCompactSectionLine table.inputs (sectionLine table r) = .ok r := by
  have hs : split '\t' (join '\t' (sectionColumns table r)) = sectionColumns table r :=
    split_join (by simp [sectionColumns]) (by simp [sectionColumns])
  have hp : parsePrefixedLine (some (sectionLine table r)) "section"
      = .ok (join '\t' (sectionColumns table r)) :=
    parsePrefixedLine_row _ (by decide) (by simp [sectionColumns])
  rw [parseCompactSectionLine, hp, ok_bind, hs]
  simp [sectionColumns, noMoreParts, h]

theorem parseCompactFdeLine_fdeLine {r : FdeRecord}
    (h : table.inputs[table.id r.key]? = some r.key) :
    parseCompactFdeLine table.inputs (fdeLine table r) = .ok r := by
  have hs : split '\t' (join '\t' (fdeColumns table r)) = fdeColumns table r :=
    split_join (by simp [fdeColumns]) (by simp [fdeColumns])
  have hp : parsePrefixedLine (some (fdeLine table r)) "fde"
      = .ok (join '\t' (fdeColumns table r)) :=
    parsePrefixedLine_row _ (by decide) (by simp [fdeColumns])
  rw [parseCompactFdeLine, hp, ok_bind, hs]
  simp [fdeColumns, noMoreParts, h]

/-- A dynamic relocation knows both of its output columns or neither. -/
def DynamicRelocationRecord.OutputPaired (r : DynamicRelocationRecord) : Prop :=
  r.outputROffset.isSome = r.outputRInfo.isSome

instance (r : DynamicRelocationRecord) : Decidable r.OutputPaired :=
  inferInstanceAs (Decidable (_ = _))

theorem plainText_dynamicRelocationColumns (table : SectionInputTable)
    (r : DynamicRelocationRecord) : ∀ c ∈ dynamicRelocationColumns table r, PlainText c := by
  intro c hc
  unfold dynamicRelocationColumns at hc
  split at hc
  · simp at hc
    rcases hc with rfl | rfl | rfl | rfl | rfl | rfl | rfl <;> exact plainText_render _
  · simp at hc
    rcases hc with rfl | rfl | rfl | rfl | rfl <;> exact plainText_render _

theorem parseCompactDynamicRelocationLine_dynamicRelocationLine
    {r : DynamicRelocationRecord} (h : table.inputs[table.id r.key]? = some r.key)
    (hpair : r.OutputPaired) :
    parseCompactDynamicRelocationLine table.inputs (dynamicRelocationLine table r) = .ok r := by
  have hne : dynamicRelocationColumns table r ≠ [] := by simp [dynamicRelocationColumns]
  have hs := split_join hne fun c hc => (plainText_dynamicRelocationColumns table r c hc).1
  have hp : parsePrefixedLine (some (dynamicRelocationLine table r)) "dynrel"
      = .ok (join '\t' (dynamicRelocationColumns table r)) :=
    parsePrefixedLine_row _ (by decide) hne
  rw [parseCompactDynamicRelocationLine, hp, ok_bind, hs]
  -- the two shapes of the line are the two ways the output columns can be paired
  cases hOffset : r.outputROffset with
  | none =>
    cases hInfo : r.outputRInfo with
    | some _ => simp [DynamicRelocationRecord.OutputPaired, hOffset, hInfo] at hpair
    | none =>
      simp [dynamicRelocationColumns, dynamicRelocationOffset, dynamicRelocationOutput, hOffset,
        hInfo, numberAt, column, h]
      cases r; simp_all
  | some rOffset =>
    cases hInfo : r.outputRInfo with
    | none => simp [DynamicRelocationRecord.OutputPaired, hOffset, hInfo] at hpair
    | some rInfo =>
      simp [dynamicRelocationColumns, dynamicRelocationOffset, dynamicRelocationOutput, hOffset,
        hInfo, numberAt, column, h]
      cases r; simp_all

/-- The target columns of a line read back as the target. -/
theorem parseInternedTarget_targetColumns
    {target : Option RelocationTargetRecord} {parts : List Text} {first : Nat}
    (h : ∀ t ∈ target, table.inputs[table.id t.key]? = some t.key)
    (h₀ : column parts first = optionalRecordField (target.map fun t => table.id t.key))
    (h₁ : column parts (first + 1)
      = optionalRecordField (target.map sectionIndex))
    (h₂ : column parts (first + 2)
      = optionalRecordField (target.map sectionOffset)) :
    parseInternedTarget table.inputs parts first = .ok target := by
  cases target with
  | none => simp [parseInternedTarget, h₀, h₁, h₂, optionalRecordField]
  | some t =>
    have ht := h t rfl
    simp [parseInternedTarget, h₀, h₁, h₂, optionalRecordField, ht]

theorem optionalText_getD {name : Option Text} (h : ∀ n ∈ name, n ≠ absentField) :
    optionalText (name.getD absentField) = name := by
  cases name with
  | none => simp [optionalText]
  | some n => simp [optionalText, h n rfl]

theorem plainText_targetColumns (table : SectionInputTable)
    (target : Option RelocationTargetRecord) : ∀ c ∈ targetColumns table target, PlainText c := by
  simp [targetColumns, plainText_optionalRecordField]

theorem plainText_relocationColumns (table : SectionInputTable) {r : RelocationRecord}
    (hname : ∀ n ∈ r.targetName, PlainText n) :
    ∀ c ∈ relocationColumns table r, PlainText c := by
  have hn : PlainText (r.targetName.getD absentField) := by
    cases h : r.targetName with
    | none => exact plainText_absentField
    | some n => exact hname n h
  intro c hc
  rcases mem_append.mp hc with hc | hc
  · simp only [mem_cons, not_mem_nil, or_false] at hc
    rcases hc with rfl | rfl | rfl | rfl | rfl | rfl | rfl | rfl | rfl | rfl | rfl | rfl <;>
      simp only [hn, plainText_optionalRecordField, plainText_render]
  · exact plainText_targetColumns table r.target c hc

theorem relocationVersion_relocationLine (table : SectionInputTable) (r : RelocationRecord) :
    relocationVersion (relocationLine table r) = (3, "reloc3") := by
  rw [relocationVersion, relocationLine,
    hasTag_row "reloc3" (by simp [relocationColumns]), if_pos rfl]

theorem parseCompactRelocationLine_relocationLine
    {r : RelocationRecord} (h : table.inputs[table.id r.key]? = some r.key)
    (htarget : ∀ t ∈ r.target, table.inputs[table.id t.key]? = some t.key)
    (hname : ∀ n ∈ r.targetName, PlainText n ∧ n ≠ absentField) :
    parseCompactRelocationLine table.inputs (relocationLine table r) = .ok r := by
  have hne : relocationColumns table r ≠ [] := by simp [relocationColumns]
  have hs := split_join hne fun c hc =>
    (plainText_relocationColumns table (fun n hn => (hname n hn).1) c hc).1
  have hp : parsePrefixedLine (some (relocationLine table r)) "reloc3"
      = .ok (join '\t' (relocationColumns table r)) := parsePrefixedLine_row _ (by decide) hne
  have htargetColumns : parseInternedTarget table.inputs (relocationColumns table r) 12
      = .ok r.target := parseInternedTarget_targetColumns htarget rfl rfl rfl
  have hopt := optionalText_getD fun n hn => (hname n hn).2
  have htail : parseRelocationTail 3 table.inputs (relocationColumns table r)
      = .ok { writtenValue := r.writtenValue, targetValue := r.targetValue
              appliedTargetValue := r.appliedTargetValue, targetName := r.targetName
              target := r.target } := by
    simp only [parseRelocationTail]
    simp [htargetColumns]
    simp [relocationColumns, targetColumns, column, hopt]
  rw [parseCompactRelocationLine, relocationVersion_relocationLine]
  simp only [hp, ok_bind, hs, htail]
  simp [relocationColumns, numberAt, h]

/-! ## 4. The Mach-O resolution table -/

theorem parseMachoResolutionInput_machoResolutionInputLine {key : InputKey} (h : '\t' ∉ key.1) :
    parseMachoResolutionInput (machoResolutionInputLine key) = .ok key := by
  have hp : parsePrefixedLine (some (machoResolutionInputLine key)) "macho-resolution-input"
      = .ok (join '\t' [key.1, key.2]) := parsePrefixedLine_row _ (by decide) (by simp)
  simp [parseMachoResolutionInput, hp, splitOnce_join h]

theorem mapM_parseNumber [Decimal α] (m : String) : ∀ xs : List α,
    (xs.map render).mapM (fun t => parseNumber (α := α) t m) = .ok xs
  | [] => rfl
  | x :: xs => by
    simp [mapM_parseNumber m xs]

/-- A list of addresses is never spelled like an absent one: a single address is not the dash,
and two or more contain a comma. -/
theorem join_render_ne_absentField [Decimal α] {xs : List α} (h : xs ≠ []) :
    join ',' (xs.map render) ≠ absentField := by
  match xs, h with
  | [x], _ => simp
  | x :: y :: rest, _ =>
    intro he
    have hmem : ',' ∈ join ',' ((x :: y :: rest).map render) := by
      simp [join_cons_cons]
    rw [he] at hmem
    exact absurd hmem (by decide)

theorem parseThunkAddresses_thunkAddressesColumn (addresses : List UInt64) :
    parseThunkAddresses (thunkAddressesColumn addresses) = .ok addresses := by
  by_cases h : addresses = []
  · subst h; simp [thunkAddressesColumn, parseThunkAddresses]
  · have hne : addresses.map render ≠ [] := by simpa using h
    have hs : split ',' (join ',' (addresses.map render))
        = addresses.map render :=
      split_join hne (by simp [comma_not_mem])
    rw [thunkAddressesColumn, if_neg h, parseThunkAddresses,
      if_neg (join_render_ne_absentField h), hs]
    exact mapM_parseNumber _ addresses

theorem plainText_thunkAddressesColumn (addresses : List UInt64) :
    PlainText (thunkAddressesColumn addresses) := by
  unfold thunkAddressesColumn
  split
  · exact plainText_absentField
  · exact ⟨not_mem_join (by decide) (by simp), not_mem_join (by decide) (by simp)⟩

theorem parseMachoResolutionTarget_targetColumns
    {target : Option RelocationTargetRecord} {parts : List Text}
    (h : ∀ t ∈ target, table.inputs[table.id t.key]? = some t.key)
    (h₀ : column parts 5 = optionalRecordField (target.map fun t => table.id t.key))
    (h₁ : column parts 6 = optionalRecordField (target.map sectionIndex))
    (h₂ : column parts 7
      = optionalRecordField (target.map sectionOffset)) :
    parseMachoResolutionTarget table.inputs parts = .ok target := by
  cases target with
  | none => simp [parseMachoResolutionTarget, h₀, h₁, h₂, optionalRecordField]
  | some t =>
    have ht := h t rfl
    simp [parseMachoResolutionTarget, h₀, h₁, h₂, optionalRecordField, ht]

theorem plainText_machoResolutionColumns (table : SectionInputTable)
    {r : MachOSymbolResolutionRecord} (hname : PlainText r.name) :
    ∀ c ∈ machoResolutionColumns table r, PlainText c := by
  intro c hc
  rcases mem_append.mp hc with hc | hc
  · simp only [mem_cons, not_mem_nil, or_false] at hc
    rcases hc with rfl | rfl | rfl | rfl | rfl
    · exact hname
    · exact plainText_optionalRecordField _
    · exact plainText_optionalRecordField _
    · exact plainText_optionalRecordField _
    · exact plainText_thunkAddressesColumn _
  · exact plainText_targetColumns table r.target c hc

theorem parseMachoResolutionLine_machoResolutionLine
    {r : MachOSymbolResolutionRecord} (hname : PlainText r.name)
    (htarget : ∀ t ∈ r.target, table.inputs[table.id t.key]? = some t.key) :
    parseMachoResolutionLine table.inputs (machoResolutionLine table r) = .ok r := by
  have hne : machoResolutionColumns table r ≠ [] := by simp [machoResolutionColumns]
  have hs := split_join hne fun c hc => (plainText_machoResolutionColumns table hname c hc).1
  have hp : parsePrefixedLine (some (machoResolutionLine table r)) "macho-resolution"
      = .ok (join '\t' (machoResolutionColumns table r)) :=
    parsePrefixedLine_row _ (by decide) hne
  have ht : parseMachoResolutionTarget table.inputs (machoResolutionColumns table r)
      = .ok r.target := parseMachoResolutionTarget_targetColumns htarget rfl rfl rfl
  rw [parseMachoResolutionLine]
  simp only [hp, ok_bind, hs, ht]
  simp [machoResolutionColumns, targetColumns, column, parseThunkAddresses_thunkAddressesColumn]

/-! ## 5. What the texts have to satisfy -/

def RelocationTargetRecord.Plain (r : RelocationTargetRecord) : Prop :=
  PlainText r.inputFile ∧ PlainText r.input

def SectionRecord.Plain (r : SectionRecord) : Prop := PlainText r.inputFile ∧ PlainText r.input

def FdeRecord.Plain (r : FdeRecord) : Prop := PlainText r.inputFile ∧ PlainText r.input

def DynamicRelocationRecord.Plain (r : DynamicRelocationRecord) : Prop :=
  PlainText r.inputFile ∧ PlainText r.input

/-- The texts of a relocation fit their columns, and a present target name is not spelled like
an absent one. -/
def RelocationRecord.Plain (r : RelocationRecord) : Prop :=
  PlainText r.inputFile ∧ PlainText r.input
    ∧ (∀ n ∈ r.targetName, PlainText n ∧ n ≠ absentField)
    ∧ ∀ t ∈ r.target, t.Plain

def MachOSymbolResolutionRecord.Plain (r : MachOSymbolResolutionRecord) : Prop :=
  PlainText r.name ∧ ∀ t ∈ r.target, t.Plain

instance (r : RelocationTargetRecord) : Decidable r.Plain := inferInstanceAs (Decidable (_ ∧ _))
instance (r : SectionRecord) : Decidable r.Plain := inferInstanceAs (Decidable (_ ∧ _))
instance (r : FdeRecord) : Decidable r.Plain := inferInstanceAs (Decidable (_ ∧ _))
instance (r : DynamicRelocationRecord) : Decidable r.Plain :=
  inferInstanceAs (Decidable (_ ∧ _))
instance (r : RelocationRecord) : Decidable r.Plain := inferInstanceAs (Decidable (_ ∧ _))
instance (r : MachOSymbolResolutionRecord) : Decidable r.Plain :=
  inferInstanceAs (Decidable (_ ∧ _))

/-- The records of one block.  A dynamic relocation only keeps its output columns in pairs. -/
structure PlainRecords (sections : List SectionRecord) (relocations : List RelocationRecord)
    (fdes : List FdeRecord) (dynamicRelocations : List DynamicRelocationRecord) : Prop where
  sections : ∀ r ∈ sections, r.Plain
  relocations : ∀ r ∈ relocations, r.Plain
  fdes : ∀ r ∈ fdes, r.Plain
  dynamicRelocations : ∀ r ∈ dynamicRelocations, r.Plain ∧ r.OutputPaired

section Block

variable {sections : List SectionRecord} {relocations : List RelocationRecord}
  {fdes : List FdeRecord} {dynamicRelocations : List DynamicRelocationRecord}

/-- Every pair a block mentions is made of plain texts. -/
theorem PlainRecords.key (h : PlainRecords sections relocations fdes dynamicRelocations)
    {key : InputKey} (hk : key ∈ recordKeys sections relocations fdes dynamicRelocations) :
    PlainText key.1 ∧ PlainText key.2 := by
  simp only [recordKeys, mem_append, List.mem_map, mem_flatMap] at hk
  rcases hk with ((⟨r, hr, rfl⟩ | ⟨r, hr, hk⟩) | ⟨r, hr, rfl⟩) | ⟨r, hr, rfl⟩
  · exact h.sections r hr
  · obtain ⟨h₁, h₂, -, htarget⟩ := h.relocations r hr
    simp only [RelocationRecord.keys, mem_cons, mem_toList,
      map_eq_some_iff] at hk
    rcases hk with rfl | ⟨t, ht, rfl⟩
    · exact ⟨h₁, h₂⟩
    · exact htarget t ht
  · exact h.fdes r hr
  · exact (h.dynamicRelocations r hr).1

end Block

/-! ## 6. The block -/

/-- **The Mach-O resolution table reads back.** -/
theorem parseMachoSymbolResolutions_write {resolutions : List MachOSymbolResolutionRecord}
    (h : ∀ r ∈ resolutions, r.Plain) :
    parseMachoSymbolResolutions (writeRenderedMachoSymbolResolutionRefs resolutions)
      = .ok resolutions := by
  set table := ofKeys (machoResolutionKeys resolutions) with htable
  have hkeys : ∀ key ∈ table.inputs, '\t' ∉ key.1 := by
    intro key hkey
    have hk := mem_of_mem_inputs hkey
    simp only [machoResolutionKeys, mem_flatMap, mem_toList,
      map_eq_some_iff] at hk
    obtain ⟨r, hr, t, ht, rfl⟩ := hk
    exact ((h r hr).2 t ht).1.1
  have hlines : ∀ r ∈ resolutions,
      always (parseMachoResolutionLine table.inputs) (machoResolutionLine table r)
        = .ok (some r) := by
    intro r hr
    refine always_ok (parseMachoResolutionLine_machoResolutionLine (h r hr).1 ?_)
    intro t ht
    refine getElem?_id_ofKeys ?_
    simp only [machoResolutionKeys, mem_flatMap, mem_toList,
      map_eq_some_iff]
    exact ⟨r, hr, t, ht, rfl⟩
  have hinputLines : ∀ key ∈ table.inputs,
      always parseMachoResolutionInput (machoResolutionInputLine key) = .ok (some key) :=
    fun key hkey => always_ok (parseMachoResolutionInput_machoResolutionInputLine (hkeys key hkey))
  have hinputs := readTable_map missingLine table.inputs
    (countLine "macho-resolutions" resolutions.length ::
      resolutions.map (machoResolutionLine table)) hinputLines
  have hresolutions := readTable_map missingLine resolutions [] hlines
  rw [append_nil] at hresolutions
  simp only [writeRenderedMachoSymbolResolutionRefs, ← htable, cons_append,
    parseMachoSymbolResolutions,
    parseCount_countLine "macho-resolution-inputs" (by decide),
    parseCount_countLine "macho-resolutions" (by decide), ok_bind, tail_cons,
    hinputs, hresolutions]
  simp

/-- The lines that may follow the records of a block: a resolution table, or nothing. -/
def resolutionLines (resolutions : Option (List MachOSymbolResolutionRecord)) : List Text :=
  (resolutions.map writeRenderedMachoSymbolResolutionRefs).getD []

/-- **A record block reads back as the records it was written from**, in the same order, and the
completeness flag says whether a resolution table was appended. -/
theorem parseCompactRecordsBlock_write {sections : List SectionRecord}
    {relocations : List RelocationRecord} {fdes : List FdeRecord}
    {dynamicRelocations : List DynamicRelocationRecord}
    {resolutions : Option (List MachOSymbolResolutionRecord)}
    (h : PlainRecords sections relocations fdes dynamicRelocations)
    (hres : ∀ rs ∈ resolutions, ∀ r ∈ rs, r.Plain) :
    parseCompactRecordsBlock (writeRenderedRecords sections relocations fdes dynamicRelocations
        ++ resolutionLines resolutions)
      = .ok { sections, relocations, machoSymbolResolutions := resolutions.getD []
              machoSymbolResolutionsComplete := resolutions.isSome, fdes
              dynamicRelocations } := by
  set keys := recordKeys sections relocations fdes dynamicRelocations with hkeysDef
  set table := ofKeys keys with htable
  have hid : ∀ {key : InputKey}, key ∈ keys → table.inputs[table.id key]? = some key :=
    fun hk => getElem?_id_ofKeys hk
  have hinputLine : ∀ key ∈ table.inputs,
      always parseSectionInputLine (sectionInputLine key) = .ok (some key) := by
    intro key hkey
    have hp := h.key (mem_of_mem_inputs hkey)
    exact always_ok (parseSectionInputLine_sectionInputLine hp.1.1 hp.2.1)
  have hsection : ∀ r ∈ sections,
      always (parseCompactSectionLine table.inputs) (sectionLine table r) = .ok (some r) := by
    intro r hr
    refine always_ok (parseCompactSectionLine_sectionLine (hid ?_))
    simp only [hkeysDef, recordKeys, mem_append, List.mem_map]
    exact .inl (.inl (.inl ⟨r, hr, rfl⟩))
  have hrelocation : ∀ r ∈ relocations,
      always (parseCompactRelocationLine table.inputs) (relocationLine table r)
        = .ok (some r) := by
    intro r hr
    have hkey : ∀ k ∈ r.keys, k ∈ keys := by
      intro k hk
      simp only [hkeysDef, recordKeys, mem_append, mem_flatMap]
      exact .inl (.inl (.inr ⟨r, hr, hk⟩))
    refine always_ok (parseCompactRelocationLine_relocationLine (hid (hkey _ ?_)) ?_ ?_)
    · simp [RelocationRecord.keys]
    · intro t ht
      refine hid (hkey _ ?_)
      simp only [mem_def] at ht
      simp [RelocationRecord.keys, ht]
    · exact (h.relocations r hr).2.2.1
  have hfde : ∀ r ∈ fdes,
      always (parseCompactFdeLine table.inputs) (fdeLine table r) = .ok (some r) := by
    intro r hr
    refine always_ok (parseCompactFdeLine_fdeLine (hid ?_))
    simp only [hkeysDef, recordKeys, mem_append, List.mem_map]
    exact .inl (.inr ⟨r, hr, rfl⟩)
  have hdynamic : ∀ r ∈ dynamicRelocations,
      always (parseCompactDynamicRelocationLine table.inputs) (dynamicRelocationLine table r)
        = .ok (some r) := by
    intro r hr
    refine always_ok (parseCompactDynamicRelocationLine_dynamicRelocationLine (hid ?_)
      (h.dynamicRelocations r hr).2)
    simp only [hkeysDef, recordKeys, mem_append, List.mem_map]
    exact .inr ⟨r, hr, rfl⟩
  -- the tables one after the other, each leaving the lines of the next
  simp only [parseCompactRecordsBlock, parseRecordsBlock, writeRenderedRecords, ← hkeysDef,
    ← htable, fullReaders, List.append_assoc, cons_append,
    parseCount_countLine "section-inputs" (by decide), ok_bind, tail_cons,
    readTable_map _ table.inputs _ hinputLine,
    parseCount_countLine "sections" (by decide),
    readTable_map _ sections _ hsection]
  simp only [← cons_append,
    readOptionalTable_countLine "relocs" (by decide) relocations _ hrelocation,
    readOptionalTable_countLine "fdes" (by decide) fdes _ hfde,
    readOptionalTable_countLine "dynrels" (by decide) dynamicRelocations _ hdynamic,
    ok_bind]
  cases resolutions with
  | none => simp [resolutionLines]
  | some rs =>
    have hparse := parseMachoSymbolResolutions_write (hres rs rfl)
    have htag : (writeRenderedMachoSymbolResolutionRefs rs).head?.any
        (hasTag · "macho-resolution-inputs") = true := by
      simp only [writeRenderedMachoSymbolResolutionRefs, cons_append, head?_cons,
        any_some, countLine]
      exact hasTag_row _ (by simp)
    simp [resolutionLines, htag, hparse]

/-! ## 7. Through a text file

A block is kept in a file, and read back with `str::lines`.  That gives the written lines back
unless one of them ends in a carriage return, and the only texts that stand last on a line are
the `input` halves of the table entries. -/

/-- A column that may stand last on a line. -/
def EndsPlain (t : Text) : Prop := t.getLast? ≠ some '\r'

theorem endsPlain_of_not_mem {t : Text} (h : '\r' ∉ t) : EndsPlain t :=
  fun he => h (mem_of_getLast? he)

theorem endsPlain_render [Decimal α] (a : α) : EndsPlain (render a) :=
  endsPlain_of_not_mem (not_mem_render (by decide) (by decide) a)

theorem endsPlain_optionalRecordField [Decimal α] (o : Option α) :
    EndsPlain (optionalRecordField o) := by
  cases o with
  | none => exact show EndsPlain absentField from endsPlain_of_not_mem (by decide)
  | some a => exact endsPlain_render a

theorem isLine_row (tag : String) (htag : '\n' ∉ tag.toList) {columns : List Text}
    (hcols : ∀ c ∈ columns, '\n' ∉ c) {last : Text} (hlast : columns.getLast? = some last)
    (hend : EndsPlain last) : IsLine (row tag columns) := by
  constructor
  · refine not_mem_join (by decide) ?_
    intro c hc
    rcases mem_cons.mp hc with rfl | hc
    · exact htag
    · exact hcols c hc
  · intro h
    rcases getLast?_join h with h | ⟨c, hc, hcr⟩
    · exact absurd h (by decide)
    · have hcons : (tag.toList :: columns).getLast? = some last := by
        rw [getLast?_cons, hlast]
        rfl
      rw [hcons] at hc
      cases hc
      exact hend hcr

theorem isLine_countLine (tag : String) (htag : '\n' ∉ tag.toList) (count : Nat) :
    IsLine (countLine tag count) :=
  isLine_row tag htag (by simp) rfl (endsPlain_render count)

theorem isLine_machoResolution {resolutions : List MachOSymbolResolutionRecord}
    (h : ∀ r ∈ resolutions, r.Plain)
    (hend : ∀ key ∈ machoResolutionKeys resolutions, EndsPlain key.2) :
    ∀ l ∈ writeRenderedMachoSymbolResolutionRefs resolutions, IsLine l := by
  intro l hl
  simp only [writeRenderedMachoSymbolResolutionRefs, cons_append, mem_cons,
    mem_append, List.mem_map] at hl
  rcases hl with rfl | ⟨key, hkey, rfl⟩ | rfl | ⟨r, hr, rfl⟩
  · exact isLine_countLine _ (by decide) _
  · have hk := mem_of_mem_inputs hkey
    have hplain : PlainText key.1 ∧ PlainText key.2 := by
      simp only [machoResolutionKeys, mem_flatMap, mem_toList,
        map_eq_some_iff] at hk
      obtain ⟨r, hr, t, ht, rfl⟩ := hk
      exact (h r hr).2 t ht
    exact isLine_row _ (by decide) (by simp [hplain.1.2, hplain.2.2]) rfl (hend key hk)
  · exact isLine_countLine _ (by decide) _
  · exact isLine_row _ (by decide)
      (fun c hc => (plainText_machoResolutionColumns _ (h r hr).1 c hc).2) rfl
      (endsPlain_optionalRecordField _)

theorem isLine_writeRenderedRecords {sections : List SectionRecord}
    {relocations : List RelocationRecord} {fdes : List FdeRecord}
    {dynamicRelocations : List DynamicRelocationRecord}
    (h : PlainRecords sections relocations fdes dynamicRelocations)
    (hend : ∀ key ∈ recordKeys sections relocations fdes dynamicRelocations,
      EndsPlain key.2) :
    ∀ l ∈ writeRenderedRecords sections relocations fdes dynamicRelocations, IsLine l := by
  intro l hl
  simp only [writeRenderedRecords, cons_append, mem_cons, mem_append,
    List.mem_map, List.append_assoc] at hl
  rcases hl with rfl | ⟨key, hkey, rfl⟩ | rfl | ⟨r, hr, rfl⟩ | rfl | ⟨r, hr, rfl⟩ | rfl |
    ⟨r, hr, rfl⟩ | rfl | ⟨r, hr, rfl⟩
  · exact isLine_countLine _ (by decide) _
  · have hk := mem_of_mem_inputs hkey
    have hplain := h.key hk
    exact isLine_row _ (by decide) (by simp [hplain.1.2, hplain.2.2]) rfl (hend key hk)
  · exact isLine_countLine _ (by decide) _
  · exact isLine_row _ (by decide) (by simp [sectionColumns]) rfl (endsPlain_render _)
  · exact isLine_countLine _ (by decide) _
  · exact isLine_row _ (by decide)
      (fun c hc => (plainText_relocationColumns _
        (fun n hn => ((h.relocations r hr).2.2.1 n hn).1) c hc).2) rfl
      (endsPlain_optionalRecordField _)
  · exact isLine_countLine _ (by decide) _
  · exact isLine_row _ (by decide) (by simp [fdeColumns]) rfl (endsPlain_render _)
  · exact isLine_countLine _ (by decide) _
  · have hcols := fun c hc => (plainText_dynamicRelocationColumns
      (ofKeys (recordKeys sections relocations fdes dynamicRelocations)) r
      c hc).2
    unfold dynamicRelocationLine dynamicRelocationColumns at *
    split at hcols
    · exact isLine_row _ (by decide) hcols rfl (endsPlain_render _)
    · exact isLine_row _ (by decide) hcols rfl (endsPlain_render _)

/-- The pairs a resolution table mentions. -/
def optionalResolutionKeys (resolutions : Option (List MachOSymbolResolutionRecord)) :
    List InputKey :=
  machoResolutionKeys (resolutions.getD [])

theorem isLine_resolutionLines {resolutions : Option (List MachOSymbolResolutionRecord)}
    (h : ∀ rs ∈ resolutions, ∀ r ∈ rs, r.Plain)
    (hend : ∀ key ∈ optionalResolutionKeys resolutions, EndsPlain key.2) :
    ∀ l ∈ resolutionLines resolutions, IsLine l := by
  cases resolutions with
  | none => simp [resolutionLines]
  | some rs => exact isLine_machoResolution (h rs rfl) hend

/-- The text of a block reads back line by line. -/
theorem lines_unlines_write {sections : List SectionRecord}
    {relocations : List RelocationRecord} {fdes : List FdeRecord}
    {dynamicRelocations : List DynamicRelocationRecord}
    {resolutions : Option (List MachOSymbolResolutionRecord)}
    (h : PlainRecords sections relocations fdes dynamicRelocations)
    (hres : ∀ rs ∈ resolutions, ∀ r ∈ rs, r.Plain)
    (hend : ∀ key ∈ recordKeys sections relocations fdes dynamicRelocations
      ++ optionalResolutionKeys resolutions, EndsPlain key.2) :
    lines (unlines (writeRenderedRecords sections relocations fdes dynamicRelocations
        ++ resolutionLines resolutions))
      = writeRenderedRecords sections relocations fdes dynamicRelocations
        ++ resolutionLines resolutions := by
  refine lines_unlines fun l hl => ?_
  rcases mem_append.mp hl with hl | hl
  · exact isLine_writeRenderedRecords h
      (fun key hk => hend key (mem_append_left _ hk)) l hl
  · exact isLine_resolutionLines hres
      (fun key hk => hend key (mem_append_right _ hk)) l hl

/-- **The record block codec.**  The lines of a block read back as the same records in the same
order, with the completeness flag set exactly when a resolution table was appended; and so does
the text of the block, when no `input` ends in a carriage return. -/
theorem records_block_round_trip (sections : List SectionRecord)
    (relocations : List RelocationRecord) (fdes : List FdeRecord)
    (dynamicRelocations : List DynamicRelocationRecord)
    (resolutions : Option (List MachOSymbolResolutionRecord))
    (h : PlainRecords sections relocations fdes dynamicRelocations)
    (hres : ∀ rs ∈ resolutions, ∀ r ∈ rs, r.Plain) :
    let block := writeRenderedRecords sections relocations fdes dynamicRelocations
      ++ resolutionLines resolutions
    let records : CompactRecords :=
      { sections, relocations, machoSymbolResolutions := resolutions.getD []
        machoSymbolResolutionsComplete := resolutions.isSome, fdes, dynamicRelocations }
    parseCompactRecordsBlock block = .ok records ∧
      ((∀ key ∈ recordKeys sections relocations fdes dynamicRelocations
          ++ optionalResolutionKeys resolutions, EndsPlain key.2) →
        parseCompactRecordsBlock (lines (unlines block)) = .ok records) := by
  intro block records
  have hblock : parseCompactRecordsBlock block = .ok records :=
    parseCompactRecordsBlock_write h hres
  refine ⟨hblock, fun hend => ?_⟩
  rw [lines_unlines_write h hres hend]
  exact hblock

/-- Two sections of one file, a relocation into another file with all its optional columns, an
unwind entry, a dynamic relocation without output columns and a resolution with two thunks. -/
theorem records_block_round_trip_two_files :
    let a : SectionRecord := ⟨"61".toList, "6f".toList, 1, 64, 32⟩
    let b : SectionRecord := ⟨"61".toList, "6f".toList, 2, 96, 8⟩
    let target : RelocationTargetRecord := ⟨"62".toList, "70".toList, 3, 16⟩
    let r : RelocationRecord := ⟨7, some 4096, 4112, none, some "_main".toList, some target,
      "61".toList, "6f".toList, 1, 4, 68, 4, 2, -4⟩
    let f : FdeRecord := ⟨"61".toList, "6f".toList, 1, 9, 0, 512, 24⟩
    let d : DynamicRelocationRecord := ⟨"62".toList, "70".toList, 3, 8, 1024, 24, none, none⟩
    let m : MachOSymbolResolutionRecord := ⟨"_f".toList, some 1, none, none, [2, 3], some target⟩
    parseCompactRecordsBlock (writeRenderedRecords [a, b] [r] [f] [d]
        ++ resolutionLines (some [m]))
      = .ok { sections := [a, b], relocations := [r], machoSymbolResolutions := [m]
              machoSymbolResolutionsComplete := true, fdes := [f]
              dynamicRelocations := [d] } := by
  intro a b target r f d m
  exact (records_block_round_trip [a, b] [r] [f] [d] (some [m])
    ⟨by decide, by decide, by decide, by decide⟩ (by decide)).1

end Srs.Incremental
