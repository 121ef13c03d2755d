/-
# Reading only the records of some input files

`parse_compact_records_block_for_input_files` decides from the raw columns of a line whether to
decode it: the first column is the id of the record's own input, and on an interned relocation
line a later column is the id of its target's input.  The full parser decodes every line and
looks at nothing else.  This file proves that the first is the second followed by a restriction
of the records.

The agreement is a fact about LINES, so it is proved line by line: whatever the full reader
makes of a line, the filtered reader keeps exactly when the decoded record is wanted
(`Agrees`).  `readTable_filter` lifts that to tables and `parseRecordsBlock_filter` to blocks.
It holds for every list of lines that has no `reloc` line.  Such a line spells its target's
file out, and the filtered reader then searches for the wanted files in the whole line, which
may find one by accident; but the writer only emits `reloc3` (`not_hasTag_reloc_write`).
-/
import Srs.Incremental.RecordsRoundTrip

namespace Srs.Incremental

open Text List Option Except RelocationRecord

/-! ## 1. What is kept -/

/-- A relocation is wanted for its own sake, or because it points into a wanted file. -/
def RelocationRecord.wantedBy (inputFiles : Finset Text) (r : RelocationRecord) : Bool :=
  decide (r.inputFile ∈ inputFiles ∨ ∃ t ∈ r.target, t.inputFile ∈ inputFiles)

/-- The records of the given input files. -/
def CompactRecords.restrictTo (records : CompactRecords) (inputFiles : Finset Text) :
    CompactRecords :=
  { records with
    sections := records.sections.filter fun r => decide (r.inputFile ∈ inputFiles)
    relocations := records.relocations.filter (wantedBy inputFiles)
    fdes := records.fdes.filter fun r => decide (r.inputFile ∈ inputFiles)
    dynamicRelocations := records.dynamicRelocations.filter fun r =>
      decide (r.inputFile ∈ inputFiles) }

/-- On lines satisfying `P`, `read` keeps what `parse` decodes exactly when it is wanted. -/
def Agrees {α : Type} (P : Text → Prop) (keep : α → Bool) (parse : Text → Result α)
    (read : Text → Result (Option α)) : Prop :=
  ∀ line record, P line → parse line = .ok record →
    read line = .ok (if keep record then some record else none)

/-! ## 2. Tables -/

variable {α : Type} {parse : Text → Result α} {line : Text} {read : Text → Result (Option α)}
  {missing : String} {P : Text → Prop} {keep : α → Bool} {tag : String} {lines rest : List Text}
  {inputs : List InputKey} {key : InputKey} {m : String} {a : α} {parts : List Text} {m' : String}

theorem always_eq_ok {o : Option α} :
    always parse line = .ok o ↔ ∃ record, parse line = .ok record ∧ o = some record := by
  unfold always
  cases parse line with
  | error e => simp [Except.map]
  | ok record => simp [Except.map, eq_comm]

/-- A reader never puts a line back. -/
theorem readTable_suffix :
    ∀ {count : Nat} {lines rest : List Text} {records : List α},
      readTable read missing count lines = .ok (records, rest) → rest <:+ lines
  | 0, lines, rest, records, h => by
    simp only [readTable, ok.injEq, Prod.mk.injEq] at h
    rw [← h.2]
  | count + 1, [], rest, records, h => by simp [readTable] at h
  | count + 1, line :: lines, rest, records, h => by
    rw [readTable, bind_eq_ok] at h
    obtain ⟨record, -, h⟩ := h
    rw [bind_eq_ok] at h
    obtain ⟨⟨records', rest'⟩, hrest, h⟩ := h
    simp only [pure_eq_ok, ok.injEq, Prod.mk.injEq] at h
    rw [← h.2]
    exact (readTable_suffix hrest).trans (suffix_cons line lines)

/-- **A table read through the filter is the filtered table.** -/
theorem readTable_filter (hagree : Agrees P keep parse read) :
    ∀ {count : Nat} {lines rest : List Text} {records : List α}, (∀ l ∈ lines, P l) →
      readTable (always parse) missing count lines = .ok (records, rest) →
      readTable read missing count lines = .ok (records.filter keep, rest)
  | 0, lines, rest, records, _, h => by
    simp only [readTable, ok.injEq, Prod.mk.injEq] at h
    obtain ⟨rfl, rfl⟩ := h
    simp [readTable]
  | count + 1, [], rest, records, _, h => by simp [readTable] at h
  | count + 1, line :: lines, rest, records, hP, h => by
    rw [readTable, bind_eq_ok] at h
    obtain ⟨o, ho, h⟩ := h
    rw [bind_eq_ok] at h
    obtain ⟨⟨records', rest'⟩, hrest, h⟩ := h
    obtain ⟨record, hrecord, rfl⟩ := always_eq_ok.mp ho
    simp only [pure_eq_ok, ok.injEq, Prod.mk.injEq, toList_some] at h
    obtain ⟨rfl, rfl⟩ := h
    have hline := hagree line record (hP line (by simp)) hrecord
    have ih := readTable_filter hagree (fun l hl => hP l (by simp [hl])) hrest
    rw [readTable, hline, ok_bind, ih, ok_bind]
    cases hk : keep record with
    | true => simp [hk]
    | false => simp [hk]

variable {records : List α} {invalid : String}

theorem readOptionalTable_filter
    (hagree : Agrees P keep parse read) (hP : ∀ l ∈ lines, P l)
    (h : readOptionalTable (always parse) tag invalid missing lines = .ok (records, rest)) :
    readOptionalTable read tag invalid missing lines = .ok (records.filter keep, rest) := by
  unfold readOptionalTable at h ⊢
  split at h
  · rename_i htag
    rw [if_pos htag]
    obtain ⟨count, hcount, htable⟩ := bind_eq_ok.mp h
    rw [hcount, ok_bind]
    exact readTable_filter hagree (fun l hl => hP l (mem_of_mem_tail hl)) htable
  · rename_i htag
    rw [if_neg htag]
    simp only [ok.injEq, Prod.mk.injEq] at h
    obtain ⟨rfl, rfl⟩ := h
    simp

theorem readOptionalTable_suffix
    (h : readOptionalTable read tag invalid missing lines = .ok (records, rest)) :
    rest <:+ lines := by
  unfold readOptionalTable at h
  split at h
  · obtain ⟨count, -, htable⟩ := bind_eq_ok.mp h
    exact (readTable_suffix htable).trans (tail_suffix lines)
  · simp only [ok.injEq, Prod.mk.injEq] at h
    rw [h.2]

/-! ## 3. Lines that name one input -/

variable {inputId : Nat}

/-- The ids of the wanted files are the positions at which a wanted file stands. -/
theorem mem_matchedSectionInputIds (inputFiles : Finset Text) (h : inputs[inputId]? = some key) :
    inputId ∈ matchedSectionInputIds inputFiles inputs ↔ key.1 ∈ inputFiles := by
  unfold matchedSectionInputIds
  simp only [mem_filterMap, Prod.exists]
  constructor
  · rintro ⟨file, input, index, hmem, hsome⟩
    rw [mem_zipIdx_iff_getElem?] at hmem
    by_cases hfile : file ∈ inputFiles
    · simp only [hfile, if_true, some.injEq] at hsome
      subst hsome
      rw [hmem] at h
      cases h
      exact hfile
    · simp [hfile] at hsome
  · intro hfile
    refine ⟨key.1, key.2, inputId, ?_, by simp [hfile]⟩
    rw [mem_zipIdx_iff_getElem?]
    exact h

/-- The first column of a line, as the id of an input of the table. -/
def OwnedBy (inputs : List InputKey) (tag : String) (line : Text) (key : InputKey) : Prop :=
  ∃ rest part parts inputId, parsePrefixedLine (some line) tag = .ok rest ∧
    split '\t' rest = part :: parts ∧ Decimal.parse (α := Nat) part = some inputId ∧
    inputs[inputId]? = some key

/-- The membership test of the filtered reader sees the owner of a line. -/
theorem compactRecordMatchesInput_of_ownedBy (inputFiles : Finset Text)
    (h : OwnedBy inputs tag line key) :
    compactRecordMatchesInput line tag (matchedSectionInputIds inputFiles inputs) inputs.length
      = .ok (decide (key.1 ∈ inputFiles)) := by
  obtain ⟨rest, part, parts, inputId, hrest, hparts, hid, hkey⟩ := h
  have hlt : ¬ inputs.length ≤ inputId := by
    intro hle
    rw [getElem?_eq_none hle] at hkey
    exact absurd hkey (by simp)
  simp only [compactRecordMatchesInput, compactRecordSectionInputId, hrest, ok_bind, hparts,
    nextPart, parseNumber, hid, context_some, failIf_neg _ hlt, pure_eq_ok]
  exact congrArg ok (decide_eq_decide.mpr (mem_matchedSectionInputIds inputFiles hkey))

/-- A reader that tests a line first agrees with the restriction when its test does. -/
theorem agrees_whenWanted (wanted : Text → Result Bool)
    (h : ∀ line record, P line → parse line = .ok record → wanted line = .ok (keep record)) :
    Agrees P keep parse (whenWanted wanted parse) := by
  intro line record hline hrecord
  have hwanted := h line record hline hrecord
  cases hk : keep record with
  | true => simp [whenWanted, hwanted, hrecord, hk]
  | false => simp [whenWanted, hwanted, hk]

theorem parseNumber_eq_ok [Decimal α] {part : Text} :
    parseNumber part m = .ok a ↔ Decimal.parse part = some a := context_eq_ok

theorem nextNumber_eq_ok [Decimal α] : nextNumber parts m m' = .ok (a, rest) ↔
      ∃ part, parts = part :: rest ∧ Decimal.parse part = some a := by
  cases parts with
  | nil => simp [nextNumber, nextPart]
  | cons part parts =>
    simp only [nextNumber, nextPart, ok_bind, bind_eq_ok, parseNumber_eq_ok, pure_eq_ok,
      ok.injEq, Prod.mk.injEq, List.cons.injEq]
    constructor
    · rintro ⟨a', ha, rfl, rfl⟩
      exact ⟨part, ⟨rfl, rfl⟩, ha⟩
    · rintro ⟨part', ⟨rfl, rfl⟩, ha⟩
      exact ⟨a, ha, rfl, rfl⟩

theorem numberAt_eq_ok [Decimal α] {i : Nat} : numberAt parts i m m' = .ok a ↔
      ∃ part, parts[i]? = some part ∧ Decimal.parse part = some a := by
  simp only [numberAt, bind_eq_ok, context_eq_ok, parseNumber_eq_ok]

/-- A line whose first column is read by position. -/
theorem ownedBy_of_numberAt {rest : Text}
    (hrest : parsePrefixedLine (some line) tag = .ok rest)
    (hid : numberAt (split '\t' rest) 0 m m' = .ok inputId)
    (hkey : inputs[inputId]? = some key) : OwnedBy inputs tag line key := by
  obtain ⟨part, hpart, hid⟩ := numberAt_eq_ok.mp hid
  cases hparts : split '\t' rest with
  | nil => simp [hparts] at hpart
  | cons first parts =>
    rw [hparts] at hpart
    obtain rfl : first = part := by simpa using hpart
    exact ⟨rest, first, parts, inputId, hrest, hparts, hid, hkey⟩

theorem parseCompactSectionLine_ownedBy
    {r : SectionRecord} (h : parseCompactSectionLine inputs line = .ok r) :
    OwnedBy inputs "section" line r.key := by
  simp only [parseCompactSectionLine, bind_eq_ok, Prod.exists, nextNumber_eq_ok,
    context_eq_ok] at h
  obtain ⟨rest, hrest, inputId, parts, ⟨part, hparts, hid⟩, _, _, -, _, _, -, _, _, -, _, -,
    file, input, hkey, hr⟩ := h
  simp only [pure_eq_ok, ok.injEq] at hr
  subst hr
  exact ⟨rest, part, parts, inputId, hrest, hparts, hid, hkey⟩

theorem parseCompactFdeLine_ownedBy {r : FdeRecord} (h : parseCompactFdeLine inputs line = .ok r) :
    OwnedBy inputs "fde" line r.key := by
  simp only [parseCompactFdeLine, bind_eq_ok, Prod.exists, nextNumber_eq_ok,
    context_eq_ok] at h
  obtain ⟨rest, hrest, inputId, parts, ⟨part, hparts, hid⟩, _, _, -, _, _, -, _, _, -, _, _, -,
    _, _, -, _, -, file, input, hkey, hr⟩ := h
  simp only [pure_eq_ok, ok.injEq] at hr
  subst hr
  exact ⟨rest, part, parts, inputId, hrest, hparts, hid, hkey⟩

theorem parseCompactDynamicRelocationLine_ownedBy {r : DynamicRelocationRecord}
    (h : parseCompactDynamicRelocationLine inputs line = .ok r) :
    OwnedBy inputs "dynrel" line r.key := by
  unfold parseCompactDynamicRelocationLine at h
  obtain ⟨rest, hrest, h⟩ := bind_eq_ok.mp h
  obtain ⟨inputId, hid, h⟩ := bind_eq_ok.mp h
  obtain ⟨_, -, h⟩ := bind_eq_ok.mp h
  obtain ⟨_, -, h⟩ := bind_eq_ok.mp h
  obtain ⟨_, -, h⟩ := bind_eq_ok.mp h
  obtain ⟨_, -, h⟩ := bind_eq_ok.mp h
  obtain ⟨_, -, h⟩ := bind_eq_ok.mp h
  obtain ⟨⟨file, input⟩, hkey, hr⟩ := bind_eq_ok.mp h
  simp only [pure_eq_ok, ok.injEq] at hr
  subst hr
  exact ownedBy_of_numberAt hrest hid (context_eq_ok.mp hkey)

/-! ## 4. Relocation lines -/

/-- The target id a filtered reader finds on an interned relocation line. -/
theorem parseInternedTarget_cases {first : Nat} {target : Option RelocationTargetRecord}
    (h : parseInternedTarget inputs parts first = .ok target) :
    (target = none ∧ column parts first = absentField) ∨
    ∃ t inputId, target = some t ∧ column parts first ≠ absentField ∧
      Decimal.parse (α := Nat) (column parts first) = some inputId ∧
      inputs[inputId]? = some t.key := by
  unfold parseInternedTarget at h
  split at h
  · rename_i habsent
    simp only [pure_eq_ok, ok.injEq] at h
    exact Or.inl ⟨h.symm, habsent.1⟩
  · obtain ⟨inputId, hid, h⟩ := bind_eq_ok.mp h
    obtain ⟨⟨file, input⟩, hkey, h⟩ := bind_eq_ok.mp h
    obtain ⟨sectionIndex, -, h⟩ := bind_eq_ok.mp h
    obtain ⟨sectionOffset, -, h⟩ := bind_eq_ok.mp h
    simp only [pure_eq_ok, ok.injEq] at h
    have hid' := parseNumber_eq_ok.mp hid
    refine Or.inr ⟨_, inputId, h.symm, ?_, hid', context_eq_ok.mp hkey⟩
    -- the dash is no number, so a line with a target does not have it in this column
    intro habsent
    have hdash : Decimal.parse (α := Nat) absentField = none := by decide
    rw [habsent, hdash] at hid'
    exact absurd hid' (by simp)

variable {version : Nat}

/-- An interned relocation line that decodes has its version's number of columns, and its
target in that version's columns. -/
theorem parseRelocationTail_interned (hv : 2 ≤ version) {tail : RelocationTail}
    (h : parseRelocationTail version inputs parts = .ok tail) :
    parts.length = (if version = 3 then 15 else 14) ∧
      parseInternedTarget inputs parts (if version = 3 then 12 else 11) = .ok tail.target := by
  unfold parseRelocationTail at h
  rw [if_pos hv] at h
  obtain ⟨_, hlen, h⟩ := bind_eq_ok.mp h
  obtain ⟨_, -, h⟩ := bind_eq_ok.mp h
  obtain ⟨_, -, h⟩ := bind_eq_ok.mp h
  obtain ⟨_, -, h⟩ := bind_eq_ok.mp h
  obtain ⟨target, htarget, h⟩ := bind_eq_ok.mp h
  simp only [pure_eq_ok, ok.injEq] at h
  refine ⟨not_not.mp (failIf_eq_ok.mp hlen), ?_⟩
  rw [← h]
  by_cases h3 : version = 3
  · simpa [h3] using htarget
  · simpa [h3] using htarget

variable {r : RelocationRecord}

/-- What a relocation line that decodes says about its inputs. -/
theorem parseCompactRelocationLine_cases (h : parseCompactRelocationLine inputs line = .ok r) :
    ∃ version tag rest, relocationVersion line = (version, tag) ∧
      parsePrefixedLine (some line) tag = .ok rest ∧ OwnedBy inputs tag line r.key ∧
      (2 ≤ version → (split '\t' rest).length = (if version = 3 then 15 else 14) ∧
        parseInternedTarget inputs (split '\t' rest) (if version = 3 then 12 else 11)
          = .ok r.target) := by
  unfold parseCompactRelocationLine at h
  rcases hversion : relocationVersion line with ⟨version, tag⟩
  rw [hversion] at h
  obtain ⟨rest, hrest, h⟩ := bind_eq_ok.mp h
  obtain ⟨inputId, hid, h⟩ := bind_eq_ok.mp h
  obtain ⟨_, -, h⟩ := bind_eq_ok.mp h
  obtain ⟨_, -, h⟩ := bind_eq_ok.mp h
  obtain ⟨_, -, h⟩ := bind_eq_ok.mp h
  obtain ⟨_, -, h⟩ := bind_eq_ok.mp h
  obtain ⟨_, -, h⟩ := bind_eq_ok.mp h
  obtain ⟨_, -, h⟩ := bind_eq_ok.mp h
  obtain ⟨_, -, h⟩ := bind_eq_ok.mp h
  obtain ⟨tail, htail, h⟩ := bind_eq_ok.mp h
  obtain ⟨⟨file, input⟩, hkey, h⟩ := bind_eq_ok.mp h
  simp only [pure_eq_ok, ok.injEq] at h
  subst h
  exact ⟨version, tag, rest, rfl, hrest, ownedBy_of_numberAt hrest hid (context_eq_ok.mp hkey),
    fun hv => parseRelocationTail_interned hv htail⟩

theorem tag_of_relocationVersion_lt
    (h : relocationVersion line = (version, tag)) (hv : version < 2) : tag = "reloc" := by
  unfold relocationVersion at h
  split at h
  · simp only [Prod.mk.injEq] at h; omega
  · split at h
    · simp only [Prod.mk.injEq] at h; omega
    · simp only [Prod.mk.injEq] at h; exact h.2.symm

theorem splitOnce_eq_some {sep : Char} : ∀ {t a b : Text},
    splitOnce sep t = some (a, b) → t = a ++ sep :: b
  | [], a, b, h => by simp [splitOnce] at h
  | c :: t, a, b, h => by
    unfold splitOnce at h
    split at h
    · rename_i hc
      simp only [some.injEq, Prod.mk.injEq] at h
      obtain ⟨rfl, rfl⟩ := h
      simp [hc]
    · simp only [map_eq_some_iff, Prod.mk.injEq, Prod.exists] at h
      obtain ⟨a', b', hab, rfl, rfl⟩ := h
      rw [splitOnce_eq_some hab]
      rfl

/-- A line whose tag was cut off starts with that tag. -/
theorem hasTag_of_parsePrefixedLine {rest : Text}
    (h : parsePrefixedLine (some line) tag = .ok rest) : hasTag line tag = true := by
  unfold parsePrefixedLine at h
  obtain ⟨line', hline, h⟩ := bind_eq_ok.mp h
  obtain ⟨⟨found, rest'⟩, hsplit, h⟩ := bind_eq_ok.mp h
  obtain ⟨u, htag, -⟩ := bind_eq_ok.mp h
  cases context_eq_ok.mp hline
  obtain rfl := not_not.mp (failIf_eq_ok.mp htag)
  rw [splitOnce_eq_some (context_eq_ok.mp hsplit), hasTag, isPrefixOf_iff_prefix]
  exact ⟨rest', by simp⟩

/-- The membership test of a relocation line that decodes sees its owner and its target. -/
theorem compactRelocationRecordMatchesInput_of_parse (inputFiles : Finset Text) (hline : hasTag line "reloc" = false)
    (h : parseCompactRelocationLine inputs line = .ok r) :
    compactRelocationRecordMatchesInput line (matchedSectionInputIds inputFiles inputs)
      inputFiles inputs.length = .ok (r.wantedBy inputFiles) := by
  obtain ⟨version, tag, rest, hversion, hrest, howner, hinterned⟩ :=
    parseCompactRelocationLine_cases h
  have hv : 2 ≤ version := by
    by_contra hlt
    have htag := tag_of_relocationVersion_lt hversion (by omega)
    rw [htag] at hrest
    exact absurd (hasTag_of_parsePrefixedLine hrest) (by simp [hline])
  obtain ⟨hlen, htarget⟩ := hinterned hv
  have hmatch := compactRecordMatchesInput_of_ownedBy inputFiles howner
  simp only [compactRelocationRecordMatchesInput, hversion, if_pos hv, hrest, ok_bind, hmatch]
  by_cases hown : r.inputFile ∈ inputFiles
  · simp [wantedBy, hown]
  · rcases parseInternedTarget_cases htarget with ⟨hnone, habsent⟩ |
      ⟨t, targetId, hsome, hpresent, hid, hkey⟩
    · simp [wantedBy, hown, hnone, habsent]
    · have hlt : ¬ inputs.length ≤ targetId := by
        intro hle
        rw [getElem?_eq_none hle] at hkey
        exact absurd hkey (by simp)
      have hmem := mem_matchedSectionInputIds inputFiles hkey
      simp [wantedBy, hown, hsome, hlen, hpresent, parseNumber, hid, hlt, hmem]

/-! ## 5. Blocks -/

/-- A line the filtered reader decides from ids alone. -/
def Interned (line : Text) : Prop := hasTag line "reloc" = false

/-- The filtered readers keep what the full readers decode and the restriction keeps. -/
theorem agrees_readSection (inputFiles : Finset Text) (inputs : List InputKey) :
    Agrees Interned (fun r : SectionRecord => decide (r.inputFile ∈ inputFiles))
      (parseCompactSectionLine inputs) ((filteredReaders inputFiles).readSection inputs) :=
  agrees_whenWanted _ fun _ _ _ hr =>
    compactRecordMatchesInput_of_ownedBy inputFiles (parseCompactSectionLine_ownedBy hr)

theorem agrees_readRelocation (inputFiles : Finset Text) (inputs : List InputKey) :
    Agrees Interned (wantedBy inputFiles) (parseCompactRelocationLine inputs)
      ((filteredReaders inputFiles).readRelocation inputs) :=
  agrees_whenWanted _ fun _ _ hline hr =>
    compactRelocationRecordMatchesInput_of_parse inputFiles hline hr

theorem agrees_readFde (inputFiles : Finset Text) (inputs : List InputKey) :
    Agrees Interned (fun r : FdeRecord => decide (r.inputFile ∈ inputFiles))
      (parseCompactFdeLine inputs) ((filteredReaders inputFiles).readFde inputs) :=
  agrees_whenWanted _ fun _ _ _ hr =>
    compactRecordMatchesInput_of_ownedBy inputFiles (parseCompactFdeLine_ownedBy hr)

theorem agrees_readDynamicRelocation (inputFiles : Finset Text) (inputs : List InputKey) :
    Agrees Interned (fun r : DynamicRelocationRecord => decide (r.inputFile ∈ inputFiles))
      (parseCompactDynamicRelocationLine inputs)
      ((filteredReaders inputFiles).readDynamicRelocation inputs) :=
  agrees_whenWanted _ fun _ _ _ hr =>
    compactRecordMatchesInput_of_ownedBy inputFiles
      (parseCompactDynamicRelocationLine_ownedBy hr)

/-- **Filtered loading is full loading, restricted.** -/
theorem parseRecordsBlock_filter {records : CompactRecords}
    (inputFiles : Finset Text) (hlines : ∀ l ∈ lines, Interned l)
    (h : parseCompactRecordsBlock lines = .ok records) :
    parseCompactRecordsBlockForInputFiles lines inputFiles
      = .ok (records.restrictTo inputFiles) := by
  unfold parseCompactRecordsBlock parseRecordsBlock at h
  obtain ⟨inputCount, hinputCount, h⟩ := bind_eq_ok.mp h
  obtain ⟨⟨inputs, lines₁⟩, hinputs, h⟩ := bind_eq_ok.mp h
  obtain ⟨sectionCount, hsectionCount, h⟩ := bind_eq_ok.mp h
  obtain ⟨⟨sections, lines₂⟩, hsections, h⟩ := bind_eq_ok.mp h
  obtain ⟨⟨relocations, lines₃⟩, hrelocations, h⟩ := bind_eq_ok.mp h
  obtain ⟨⟨fdes, lines₄⟩, hfdes, h⟩ := bind_eq_ok.mp h
  obtain ⟨⟨dynamicRelocations, lines₅⟩, hdynamic, h⟩ := bind_eq_ok.mp h
  -- each table leaves a suffix of its lines to the next
  have hlines₁ : ∀ l ∈ lines₁, Interned l := fun l hl =>
    hlines l (mem_of_mem_tail ((readTable_suffix hinputs).subset hl))
  have hlines₂ : ∀ l ∈ lines₂, Interned l := fun l hl =>
    hlines₁ l (mem_of_mem_tail ((readTable_suffix hsections).subset hl))
  have hlines₃ : ∀ l ∈ lines₃, Interned l := fun l hl =>
    hlines₂ l ((readOptionalTable_suffix hrelocations).subset hl)
  have hlines₄ : ∀ l ∈ lines₄, Interned l := fun l hl =>
    hlines₃ l ((readOptionalTable_suffix hfdes).subset hl)
  have hsections' := readTable_filter (agrees_readSection inputFiles inputs)
    (fun l hl => hlines₁ l (mem_of_mem_tail hl)) hsections
  have hrelocations' := readOptionalTable_filter (agrees_readRelocation inputFiles inputs)
    hlines₂ hrelocations
  have hfdes' := readOptionalTable_filter (agrees_readFde inputFiles inputs) hlines₃ hfdes
  have hdynamic' := readOptionalTable_filter (agrees_readDynamicRelocation inputFiles inputs)
    hlines₄ hdynamic
  simp only [parseCompactRecordsBlockForInputFiles, parseRecordsBlock, hinputCount, hinputs,
    hsectionCount, hsections', hrelocations', hfdes', hdynamic', ok_bind]
  by_cases htag : lines₅.head?.any (hasTag · "macho-resolution-inputs") = true
  · simp only [htag, if_true] at h ⊢
    obtain ⟨resolutions, hresolutions, h⟩ := bind_eq_ok.mp h
    simp only [pure_eq_ok, ok.injEq] at h
    subst h
    simp [hresolutions, CompactRecords.restrictTo]
  · simp only [if_neg htag] at h ⊢
    obtain ⟨u, hend, h⟩ := bind_eq_ok.mp h
    simp only [pure_eq_ok, ok.injEq] at h
    subst h
    rw [hend]
    simp [CompactRecords.restrictTo]

/-! ## 6. Written blocks -/

/-- Two tags that differ in a character before either ends. -/
theorem not_hasTag_row {other : String} {columns : List Text} (hne : columns ≠ [])
    (h : ∀ rest, (other.toList ++ ['\t']).isPrefixOf (tag.toList ++ '\t' :: rest) = false) :
    hasTag (row tag columns) other = false := by
  obtain ⟨b, rest, rfl⟩ := exists_cons_of_ne_nil hne
  simp [hasTag, row, join_cons_cons, h]

/-- The writers emit no line of the first relocation version, whatever the records are. -/
theorem interned_write (sections : List SectionRecord) (relocations : List RelocationRecord)
    (fdes : List FdeRecord) (dynamicRelocations : List DynamicRelocationRecord)
    (resolutions : Option (List MachOSymbolResolutionRecord)) :
    ∀ l ∈ writeRenderedRecords sections relocations fdes dynamicRelocations
      ++ resolutionLines resolutions, Interned l := by
  intro l hl
  rcases mem_append.mp hl with hl | hl
  · simp only [writeRenderedRecords, cons_append, mem_cons, mem_append,
      List.mem_map, List.append_assoc] at hl
    rcases hl with rfl | ⟨key, -, rfl⟩ | rfl | ⟨r, -, rfl⟩ | rfl | ⟨r, -, rfl⟩ | rfl |
      ⟨r, -, rfl⟩ | rfl | ⟨r, -, rfl⟩
    all_goals exact not_hasTag_row (by simp [sectionColumns, relocationColumns, fdeColumns,
      dynamicRelocationColumns]) (fun _ => rfl)
  · cases resolutions with
    | none => simp [resolutionLines] at hl
    | some rs =>
      simp only [resolutionLines, map_some, getD_some,
        writeRenderedMachoSymbolResolutionRefs, cons_append, mem_cons,
        mem_append, List.mem_map] at hl
      rcases hl with rfl | ⟨key, -, rfl⟩ | rfl | ⟨r, -, rfl⟩
      all_goals exact not_hasTag_row (by simp [machoResolutionColumns]) (fun _ => rfl)

/-- **Filtered loading of a written block.**  Whatever the records, the filtered parser returns
the restriction of what the full parser returns; and for records whose texts fit their columns
the full parser returns the records, so this is the restriction of the records themselves. -/
theorem filtered_loading_agrees (sections : List SectionRecord)
    (relocations : List RelocationRecord) (fdes : List FdeRecord)
    (dynamicRelocations : List DynamicRelocationRecord)
    (resolutions : Option (List MachOSymbolResolutionRecord)) (inputFiles : Finset Text) :
    let block := writeRenderedRecords sections relocations fdes dynamicRelocations
      ++ resolutionLines resolutions
    (∀ records, parseCompactRecordsBlock block = .ok records →
      parseCompactRecordsBlockForInputFiles block inputFiles
        = .ok (records.restrictTo inputFiles)) ∧
    (PlainRecords sections relocations fdes dynamicRelocations →
      (∀ rs ∈ resolutions, ∀ r ∈ rs, r.Plain) →
      parseCompactRecordsBlockForInputFiles block inputFiles
        = (parseCompactRecordsBlock block).map (·.restrictTo inputFiles) ∧
      parseCompactRecordsBlockForInputFiles block inputFiles
        = .ok { sections := sections.filter fun r => decide (r.inputFile ∈ inputFiles)
                relocations := relocations.filter fun r => decide
                  (r.inputFile ∈ inputFiles ∨ ∃ t ∈ r.target, t.inputFile ∈ inputFiles)
                machoSymbolResolutions := resolutions.getD []
                machoSymbolResolutionsComplete := resolutions.isSome
                fdes := fdes.filter fun r => decide (r.inputFile ∈ inputFiles)
                dynamicRelocations := dynamicRelocations.filter fun r =>
                  decide (r.inputFile ∈ inputFiles) }) := by
  intro block
  have hfilter : ∀ records, parseCompactRecordsBlock block = .ok records →
      parseCompactRecordsBlockForInputFiles block inputFiles
        = .ok (records.restrictTo inputFiles) := fun records hrecords =>
    parseRecordsBlock_filter inputFiles
      (interned_write sections relocations fdes dynamicRelocations resolutions) hrecords
  refine ⟨hfilter, fun hplain hres => ?_⟩
  have hfull := parseCompactRecordsBlock_write hplain hres
  refine ⟨?_, hfilter _ hfull⟩
  rw [hfilter _ hfull, show parseCompactRecordsBlock block = _ from hfull]
  rfl

/-- A relocation of one file into another is loaded for the file it points into. -/
theorem filtered_loading_agrees_incoming :
    let a : SectionRecord := ⟨"61".toList, "6f".toList, 1, 64, 32⟩
    let b : SectionRecord := ⟨"62".toList, "70".toList, 3, 96, 8⟩
    let target : RelocationTargetRecord := ⟨"62".toList, "70".toList, 3, 0⟩
    let r : RelocationRecord := ⟨7, some 4096, 4112, none, none, some target,
      "61".toList, "6f".toList, 1, 4, 68, 4, 2, -4⟩
    let f : FdeRecord := ⟨"61".toList, "6f".toList, 1, 9, 0, 512, 24⟩
    parseCompactRecordsBlockForInputFiles (writeRenderedRecords [a, b] [r] [f] []
        ++ resolutionLines none) {"62".toList}
      = .ok { sections := [b], relocations := [r] } := by
  intro a b target r f
  exact ((filtered_loading_agrees [a, b] [r] [f] [] none {"62".toList}).2
    ⟨by decide, by decide, by decide, by decide⟩ (by decide)).2

end Srs.Incremental
