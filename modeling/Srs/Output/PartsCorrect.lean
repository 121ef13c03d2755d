/-
# What the offsets of parts keep

The layout of an executable or a shared object whose sections have no fixed locations.  Two cursors
only move up, so the records are stacked in the file, and those of sections with ALLOC in memory
(`Laid`).  The LOAD segment's cursors are in step when it starts and stay so as long as what is
placed moves both (`Steady`).

Two things go wrong.  A NOBITS section moves the memory cursor alone, and nothing brings the file
cursor in step before a section with data that follows in the same LOAD segment.  And the memory
offset of a section without ALLOC grows by the sizes of its parts only, although each part is
aligned up first, so that a part can start inside the one before.  `layout_wellFormed` is the
layout's correctness for inputs with neither.
-/
import Srs.Output.LoadSegments

namespace Srs.Output

open Spans Cursors OutputOrderBuilder List Option Srs.Alignment Nat
open Srs.Dynamic (OutputKind)

variable {builtIn : OutputSectionId → Option BuiltInSectionDetails} {outputKind : OutputKind}
  {sections : OutputSections SectionAttributes} {args : LayoutArgs} {sizes : PartId → Nat}
  {ids : List OutputSectionId} {events : List OrderEvent} {segments : List ProgramSegmentDef}
  {segmentAlignments : ProgramSegmentId → Option Alignment} {id : OutputSectionId}

/-! ## 1. The alignment of a part -/

/-- The parts of a regular section stand by alignment, the largest first. -/
theorem partAlignment_le {n m : Nat} (hn : n < NUM_ALIGNMENTS) (hnm : n ≤ m)
    (hm : m < NUM_ALIGNMENTS) (k : Nat) :
    (partAlignment sections (NUM_SINGLE_PART_SECTIONS + k * NUM_ALIGNMENTS + m)).exponent
      ≤ (partAlignment sections (NUM_SINGLE_PART_SECTIONS + k * NUM_ALIGNMENTS + n)).exponent := by
  have hexp : ∀ {l : Nat}, l < NUM_ALIGNMENTS →
      (partAlignment sections (NUM_SINGLE_PART_SECTIONS + k * NUM_ALIGNMENTS + l)).exponent
        = UInt8.ofNat (NUM_ALIGNMENTS - 1 - l) := by
    intro l hl
    rw [Nat.add_assoc, partAlignment, if_neg (Nat.not_lt.mpr (Nat.le_add_right _ _))]
    simp only [Nat.add_sub_cancel_left, Nat.mul_add_mod_self_right, Nat.mod_eq_of_lt hl]
  rw [hexp hn, hexp hm, UInt8.le_iff_toNat_le,
    UInt8.toNat_ofNat_of_lt' (Nat.lt_of_le_of_lt (Nat.sub_le _ _) (by decide)),
    UInt8.toNat_ofNat_of_lt' (Nat.lt_of_le_of_lt (Nat.sub_le _ _) (by decide))]
  omega

variable {part : PartId} {s : LayoutState} {before after : List OrderEvent}

/-- **A part that is not empty keeps its own alignment.** -/
theorem effectiveAlignment_of_nonempty (hmem : part ∈ partIdRange id)
    (hsize : id < NUM_SINGLE_PART_SECTIONS ∨ sizes part ≠ 0) :
    effectiveAlignment sections sizes id part = partAlignment sections part := by
  apply smaller_of_le
  unfold maxAlignment
  by_cases hsingle : id < NUM_SINGLE_PART_SECTIONS
  · rw [partIdRange, if_pos hsingle, mem_singleton] at hmem
    subst hmem
    rw [partAlignment, if_pos hsingle]
    exact le_larger_right _ _
  · refine UInt8.le_trans ?_ (le_larger_left _ _)
    have hsize := hsize.resolve_left hsingle
    rw [partIdRange, if_neg hsingle] at hmem ⊢
    obtain ⟨m, hm, rfl⟩ := mem_map.mp hmem
    rw [find?_map]
    cases hfind : (List.range NUM_ALIGNMENTS).find? _ with
    | none => exact absurd hsize (by simpa using find?_eq_none.mp hfind m hm)
    | some n =>
      -- the first part that is not empty stands at or before this one
      obtain ⟨hn, as, bs, hsplit, has⟩ := find?_eq_some_iff_append.mp hfind
      have hnm : n ≤ m := by
        by_contra hlt
        have hin : m ∈ as := by
          have hpair := pairwise_lt_range (n := NUM_ALIGNMENTS)
          rw [hsplit] at hpair hm
          rcases mem_append.mp hm with hm | hm
          · exact hm
          · have hge := (pairwise_append.mp hpair).2.1
            rcases mem_cons.mp hm with rfl | hm
            · omega
            · have := rel_of_pairwise_cons hge hm
              omega
        have hempty := has m hin
        simp [hsize] at hempty
      have hmn : n ∈ List.range NUM_ALIGNMENTS := mem_of_find?_eq_some hfind
      exact partAlignment_le (mem_range.mp hmn) hnm (mem_range.mp hm) _

theorem effectiveAlignment_le_max (part : PartId) :
    (effectiveAlignment sections sizes id part).exponent
      ≤ (maxAlignment sections sizes id).exponent :=
  smaller_le_right _ _

/-! ## 2. The records are stacked -/

/-- What a run that writes the records `ps` does to the cursors. -/
structure Laid (builtIn : OutputSectionId → Option BuiltInSectionDetails)
    (sections : OutputSections SectionAttributes) (sizes : PartId → Nat) (s : LayoutState)
    (ps : List PlacedPart) (s' : LayoutState) : Prop where
  file : Stacked (fun p : PlacedPart => p.record.fileOffset)
    (fun p => p.record.fileOffset + p.record.fileSize) s.fileOffset ps s'.fileOffset
  memory : Stacked (fun p : PlacedPart => p.record.memOffset)
    (fun p => p.record.memOffset + p.record.memSize) s.memOffset
    (ps.filter fun p => isAllocSection (elf builtIn) sections p.sectionId) s'.memOffset
  aligned : ∀ p ∈ ps, p.record.alignment.bytes ∣ p.record.fileOffset ∧
    p.record.alignment.bytes ∣ p.record.memOffset
  keeps : ∀ p ∈ ps, p.record.memSize ≠ 0 → p.record.alignment = partAlignment sections p.partId
  pending : s'.pendingLocation = s.pendingLocation

theorem Laid.refl (s : LayoutState) : Laid builtIn sections sizes s [] s :=
  ⟨le_refl _, le_refl _, by simp, by simp, rfl⟩

theorem Laid.trans {s' s'' : LayoutState} {ps qs : List PlacedPart}
    (h : Laid builtIn sections sizes s ps s') (h' : Laid builtIn sections sizes s' qs s'') :
    Laid builtIn sections sizes s (ps ++ qs) s'' where
  file := h.file.append h'.file
  memory := by
    rw [filter_append]
    exact h.memory.append h'.memory
  aligned := by
    intro p hp
    rcases mem_append.mp hp with hp | hp
    · exact h.aligned p hp
    · exact h'.aligned p hp
  keeps := by
    intro p hp
    rcases mem_append.mp hp with hp | hp
    · exact h.keeps p hp
    · exact h'.keeps p hp
  pending := h'.pending.trans h.pending

/-- A part of a section with ALLOC. -/
theorem layoutPart_alloc (hargs : args.shouldOutputPartialObject = false)
    (halloc : isAllocSection (elf builtIn) sections id = true) (s : LayoutState) (part : PartId) :
    let a := effectiveAlignment sections sizes id part
    let memSize := partMemSize args sizes id part s.memOffset
    let fileSize := if sectionHasDataInFile (elf builtIn) sections id then memSize else 0
    layoutPart (elf builtIn) sections args sizes id s part =
      ({ s with
          fileOffset := a.alignUp s.fileOffset + fileSize
          memOffset := a.alignUp s.memOffset + memSize },
        ⟨id, part, ⟨fileSize, memSize, a, a.alignUp s.fileOffset, a.alignUp s.memOffset⟩⟩) := by
  simp [layoutPart, halloc, hargs]

/-- A part of a section without ALLOC. -/
theorem layoutPart_nonalloc (halloc : isAllocSection (elf builtIn) sections id = false)
    (s : LayoutState) (part : PartId) :
    let a := effectiveAlignment sections sizes id part
    let memSize := partMemSize args sizes id part s.memOffset
    layoutPart (elf builtIn) sections args sizes id s part =
      ({ s with
          fileOffset := a.alignUp s.fileOffset + memSize
          nonallocMemOffsets :=
            Function.update s.nonallocMemOffsets id (s.nonallocMemOffsets id + memSize) },
        ⟨id, part, ⟨memSize, memSize, a, a.alignUp s.fileOffset,
          a.alignUp (s.nonallocMemOffsets id)⟩⟩) := by
  simp [layoutPart, halloc]

/-- RELRO padding is a single part. -/
theorem single_or_nonempty {memOffset : Nat}
    (hsize : partMemSize args sizes id part memOffset ≠ 0) :
    id < NUM_SINGLE_PART_SECTIONS ∨ sizes part ≠ 0 := by
  unfold partMemSize at hsize
  split at hsize
  · rename_i hid
    exact .inl (hid ▸ by decide)
  · exact .inr hsize

theorem layoutPart_laid (hargs : args.shouldOutputPartialObject = false) (s : LayoutState)
    (hmem : part ∈ partIdRange id) :
    Laid builtIn sections sizes s [(layoutPart (elf builtIn) sections args sizes id s part).2]
      (layoutPart (elf builtIn) sections args sizes id s part).1 := by
  have hkeeps : partMemSize args sizes id part s.memOffset ≠ 0 →
      effectiveAlignment sections sizes id part = partAlignment sections part :=
    fun h => effectiveAlignment_of_nonempty hmem (single_or_nonempty h)
  cases halloc : isAllocSection (elf builtIn) sections id with
  | true =>
    rw [layoutPart_alloc hargs halloc]
    refine ⟨⟨le_alignUp _ _, le_add_right _ _, le_refl _⟩, ?_, ?_, ?_, rfl⟩
    · simp only [filter_cons, halloc, if_true, filter_nil]
      exact ⟨le_alignUp _ _, le_add_right _ _, le_refl _⟩
    · intro p hp
      rw [mem_singleton.mp hp]
      exact ⟨bytes_dvd_alignUp _ _, bytes_dvd_alignUp _ _⟩
    · intro p hp
      rw [mem_singleton.mp hp]
      exact hkeeps
  | false =>
    rw [layoutPart_nonalloc halloc]
    refine ⟨⟨le_alignUp _ _, le_add_right _ _, le_refl _⟩, ?_, ?_, ?_, rfl⟩
    · simp only [filter_cons, halloc, filter_nil]
      exact le_refl _
    · intro p hp
      rw [mem_singleton.mp hp]
      exact ⟨bytes_dvd_alignUp _ _, bytes_dvd_alignUp _ _⟩
    · intro p hp
      rw [mem_singleton.mp hp]
      exact hkeeps

theorem layoutParts_laid (hargs : args.shouldOutputPartialObject = false) :
    ∀ {parts : List PartId} (s : LayoutState), parts ⊆ partIdRange id →
      Laid builtIn sections sizes s (layoutParts (elf builtIn) sections args sizes id s parts).2
        (layoutParts (elf builtIn) sections args sizes id s parts).1
  | [], s, _ => Laid.refl s
  | part :: parts, s, hsub => by
    exact (layoutPart_laid hargs s (hsub mem_cons_self)).trans
      (layoutParts_laid hargs _ fun p hp => hsub (mem_cons_of_mem _ hp))

/-- The start of a LOAD segment brings the memory cursor in step. -/
theorem layoutEvent_segmentStart (hpending : s.pendingLocation = none) (i : ProgramSegmentId) :
    layoutEvent (elf builtIn) sections segments args sizes segmentAlignments s (.segmentStart i) =
      (if isLoadSegment (elf builtIn) segments i then
        { s with
          memOffset := ((segmentAlignments i).getD args.loadableSegmentAlignment).alignModulo
            s.fileOffset s.memOffset }
      else s, []) := by
  cases hd : segments[i]? with
  | none => simp [layoutEvent, isLoadSegment, hd]
  | some d =>
    simp only [layoutEvent, isLoadSegment, hd, hpending, any_some]
    split <;> rfl

variable {e : OrderEvent}

/-- An event of an order without locations. -/
theorem layoutEvent_laid (hargs : args.shouldOutputPartialObject = false)
    (hloc : ∀ id, (sections.infos id).location = none)
    (hpending : s.pendingLocation = none)
    (he : ∀ address, e ≠ .setLocation address) :
    Laid builtIn sections sizes s
      (layoutEvent (elf builtIn) sections segments args sizes segmentAlignments s e).2
      (layoutEvent (elf builtIn) sections segments args sizes segmentAlignments s e).1 := by
  cases e with
  | setLocation address => exact absurd rfl (he address)
  | segmentEnd i => exact Laid.refl s
  | segmentStart i =>
    rw [layoutEvent_segmentStart hpending]
    split
    · exact ⟨le_refl _, le_alignModulo _ _ _, by simp, by simp, rfl⟩
    · exact Laid.refl s
  | sectionOf id =>
    simp only [layoutEvent, hloc]
    exact layoutParts_laid hargs s (List.Subset.refl _)

/-! ## 3. Runs -/

section

variable (builtIn : OutputSectionId → Option BuiltInSectionDetails)
  (sections : OutputSections SectionAttributes) (segments : List ProgramSegmentDef)
  (args : LayoutArgs) (sizes : PartId → Nat)
  (segmentAlignments : ProgramSegmentId → Option Alignment)

/-- The state behind a run of events. -/
def stateAfter (s : LayoutState) (events : List OrderEvent) : LayoutState :=
  events.foldl
    (fun s e => (layoutEvent (elf builtIn) sections segments args sizes segmentAlignments s e).1) s

end

theorem stateAfter_concat (s : LayoutState) (before : List OrderEvent) (e : OrderEvent) :
    stateAfter builtIn sections segments args sizes segmentAlignments s (before ++ [e]) =
      (layoutEvent (elf builtIn) sections segments args sizes segmentAlignments
        (stateAfter builtIn sections segments args sizes segmentAlignments s before) e).1 :=
  foldl_concat _ _ _ _

theorem layoutEvents_append : ∀ {s : LayoutState},
    layoutEvents (elf builtIn) sections segments args sizes segmentAlignments s (before ++ after) =
      layoutEvents (elf builtIn) sections segments args sizes segmentAlignments s before ++
        layoutEvents (elf builtIn) sections segments args sizes segmentAlignments
          (stateAfter builtIn sections segments args sizes segmentAlignments s before) after := by
  induction before with
  | nil => exact rfl
  | cons e before ih =>
    intro s
    simp only [cons_append, layoutEvents, ih]
    rfl

theorem length_layoutEvents : ∀ {events : List OrderEvent} {s : LayoutState},
    (layoutEvents (elf builtIn) sections segments args sizes segmentAlignments s events).length
      = events.length
  | [], _ => rfl
  | _ :: _, _ => congrArg (· + 1) length_layoutEvents

/-- The records of the event in the middle of a stream. -/
theorem layoutEvents_getElem? (before after : List OrderEvent) (e : OrderEvent) (s : LayoutState) :
    (layoutEvents (elf builtIn) sections segments args sizes segmentAlignments s
        (before ++ e :: after))[before.length]? =
      some (layoutEvent (elf builtIn) sections segments args sizes segmentAlignments
        (stateAfter builtIn sections segments args sizes segmentAlignments s before) e).2 := by
  rw [layoutEvents_append, getElem?_append_right (le_of_eq length_layoutEvents),
    length_layoutEvents, Nat.sub_self]
  rfl

/-- **The records of a whole run are stacked.** -/
theorem layoutEvents_laid (hargs : args.shouldOutputPartialObject = false)
    (hloc : ∀ id, (sections.infos id).location = none) : ∀ {events : List OrderEvent}
      {s : LayoutState}, s.pendingLocation = none → (∀ address, .setLocation address ∉ events) →
      Laid builtIn sections sizes s
        (layoutEvents (elf builtIn) sections segments args sizes segmentAlignments s events).flatten
        (stateAfter builtIn sections segments args sizes segmentAlignments s events)
  | [], s, _, _ => Laid.refl s
  | e :: events, s, hpending, hno => by
    have hhead : Laid builtIn sections sizes s
        (layoutEvent (elf builtIn) sections segments args sizes segmentAlignments s e).2
        (layoutEvent (elf builtIn) sections segments args sizes segmentAlignments s e).1 :=
      layoutEvent_laid hargs hloc hpending fun address heq => hno address (heq ▸ mem_cons_self)
    exact hhead.trans (layoutEvents_laid hargs hloc (hhead.pending.trans hpending)
      fun address hmem => hno address (mem_cons_of_mem _ hmem))

/-! ## 4. Sections without ALLOC -/

/-- The padding that aligns a part behind `n` bytes. -/
def partPadding (sections : OutputSections SectionAttributes) (n : Nat) (part : PartId) : Nat :=
  (partAlignment sections part).alignUp n - n

/-- Behind `n` bytes, no part of the list that is not empty needs more padding than a later one
does, padding counted from the plain sum of the sizes of the parts before. -/
def PaddingGrows (sections : OutputSections SectionAttributes) (sizes : PartId → Nat) (n : Nat)
    (parts : List PartId) : Prop :=
  ∀ pre part mid part' post, parts = pre ++ part :: mid ++ part' :: post →
    sizes part ≠ 0 → sizes part' ≠ 0 →
      partPadding sections (n + (pre.map sizes).sum) part
        ≤ partPadding sections (n + ((pre ++ part :: mid).map sizes).sum) part'

theorem PaddingGrows.tail {n : Nat} {part : PartId} {parts : List PartId}
    (h : PaddingGrows sections sizes n (part :: parts)) :
    PaddingGrows sections sizes (n + sizes part) parts := by
  intro pre p mid q post heq hp hq
  have hle := h (part :: pre) p mid q post (by rw [heq]; rfl) hp hq
  simpa [add_assoc] using hle

/-- Where the parts of a section without ALLOC are placed. -/
theorem layoutParts_nonalloc (halloc : isAllocSection (elf builtIn) sections id = false)
    (hregular : id ≠ RELRO_PADDING) :
    ∀ {parts : List PartId} {s : LayoutState}, parts ⊆ partIdRange id →
      ∀ p ∈ (layoutParts (elf builtIn) sections args sizes id s parts).2,
        ∃ pre post, parts = pre ++ p.partId :: post ∧ p.record.memSize = sizes p.partId ∧
          (sizes p.partId ≠ 0 → p.record.memOffset = s.nonallocMemOffsets id
            + (pre.map sizes).sum
            + partPadding sections (s.nonallocMemOffsets id + (pre.map sizes).sum) p.partId)
  | [], _, _ => fun p hp => absurd hp not_mem_nil
  | part :: parts, s, hsub => by
    have hmem : part ∈ partIdRange id := hsub mem_cons_self
    intro p hp
    rw [layoutParts, layoutPart_nonalloc halloc] at hp
    rcases mem_cons.mp hp with rfl | hp
    · refine ⟨[], parts, rfl, if_neg hregular, ?_⟩
      intro hsize
      simp only [map_nil, sum_nil, add_zero]
      rw [effectiveAlignment_of_nonempty hmem (.inr hsize), partPadding,
        Nat.add_sub_cancel' (le_alignUp _ _)]
    · obtain ⟨pre, post, heq, hsize, hoff⟩ := layoutParts_nonalloc halloc hregular
        (fun q hq => hsub (mem_cons_of_mem _ hq)) p hp
      refine ⟨part :: pre, post, by rw [heq]; rfl, hsize, ?_⟩
      intro hne
      have hmemSize : partMemSize args sizes id part s.memOffset = sizes part := if_neg hregular
      have hoff := hoff hne
      simp only [Function.update_self, hmemSize] at hoff
      rw [hoff]
      simp only [map_cons, sum_cons, add_assoc]

/-- The records have no byte of memory in common. -/
def PlacedPart.Apart (p q : PlacedPart) : Prop :=
  p.record.memSize = 0 ∨ q.record.memSize = 0 ∨
    p.record.memOffset + p.record.memSize ≤ q.record.memOffset ∨
    q.record.memOffset + q.record.memSize ≤ p.record.memOffset

instance (p q : PlacedPart) : Decidable (p.Apart q) := inferInstanceAs (Decidable (_ ∨ _))

/-- **Parts do not overlap if the padding grows.** -/
theorem layoutParts_disjoint (halloc : isAllocSection (elf builtIn) sections id = false)
    (hregular : id ≠ RELRO_PADDING) :
    ∀ {parts : List PartId} {s : LayoutState}, parts ⊆ partIdRange id →
      PaddingGrows sections sizes (s.nonallocMemOffsets id) parts →
        (layoutParts (elf builtIn) sections args sizes id s parts).2.Pairwise PlacedPart.Apart
  | [], _, _, _ => List.Pairwise.nil
  | part :: parts, s, hsub, hgrows => by
    have hmem : part ∈ partIdRange id := hsub mem_cons_self
    have htail : parts ⊆ partIdRange id := fun q hq => hsub (mem_cons_of_mem _ hq)
    have hmemSize : partMemSize args sizes id part s.memOffset = sizes part := if_neg hregular
    have hnext := hgrows.tail
    rw [layoutParts, layoutPart_nonalloc halloc, hmemSize]
    refine List.Pairwise.cons ?_ (layoutParts_disjoint halloc hregular htail ?_)
    · intro q hq
      obtain ⟨pre, post, rfl, hsize, hoff⟩ := layoutParts_nonalloc halloc hregular htail q hq
      by_cases hne : sizes part = 0
      · exact .inl hne
      by_cases hne' : sizes q.partId = 0
      · exact .inr (.inl (hsize.trans hne'))
      refine .inr (.inr (.inl ?_))
      have hgrow := hgrows [] part pre q.partId post rfl hne hne'
      have hstart := hoff hne'
      have hup : (partAlignment sections part).alignUp (s.nonallocMemOffsets id)
          = s.nonallocMemOffsets id + partPadding sections (s.nonallocMemOffsets id) part := by
        rw [partPadding, Nat.add_sub_cancel' (le_alignUp _ _)]
      simp only [Function.update_self] at hstart
      simp only [map_nil, sum_nil, add_zero, nil_append, map_cons,
        sum_cons, ← add_assoc] at hgrow
      dsimp only
      rw [effectiveAlignment_of_nonempty hmem (.inr hne), hup, hstart]
      omega
    · simpa using hnext

/-- Other sections' counters stay. -/
theorem layoutParts_counter {id' : OutputSectionId} (hne : id' ≠ id)
    (hargs : args.shouldOutputPartialObject = false) :
    ∀ {parts : List PartId} {s : LayoutState},
      (layoutParts (elf builtIn) sections args sizes id s parts).1.nonallocMemOffsets id'
        = s.nonallocMemOffsets id'
  | [], _ => rfl
  | part :: parts, s => by
    rw [layoutParts]
    refine (layoutParts_counter hne hargs).trans ?_
    cases halloc : isAllocSection (elf builtIn) sections id with
    | true => rw [layoutPart_alloc hargs halloc]
    | false =>
      rw [layoutPart_nonalloc halloc]
      exact Function.update_of_ne hne _ _

/-- The counter of a section that has not been placed. -/
theorem stateAfter_counter (hargs : args.shouldOutputPartialObject = false)
    (hloc : ∀ id, (sections.infos id).location = none) :
    ∀ {before : List OrderEvent} {s : LayoutState}, .sectionOf id ∉ before →
      (stateAfter builtIn sections segments args sizes segmentAlignments s
        before).nonallocMemOffsets id = s.nonallocMemOffsets id
  | [], _, _ => rfl
  | e :: before, s, hno => by
    refine (stateAfter_counter hargs hloc fun hmem => hno (mem_cons_of_mem _ hmem)).trans ?_
    cases e with
    | setLocation _ => rfl
    | segmentEnd _ => rfl
    | segmentStart i =>
      cases hd : segments[i]? with
      | none => simp [layoutEvent, hd]
      | some d =>
        simp only [layoutEvent, hd]
        split
        · cases s.pendingLocation <;> rfl
        · rfl
    | sectionOf id' =>
      have hne : id ≠ id' := fun heq => hno (heq ▸ mem_cons_self)
      simp only [layoutEvent, hloc]
      exact layoutParts_counter hne hargs

/-! ## 5. LOAD segments -/

/-- The alignment of a segment. -/
def segmentAlignment (builtIn : OutputSectionId → Option BuiltInSectionDetails)
    (sections : OutputSections SectionAttributes) (segments : List ProgramSegmentDef)
    (args : LayoutArgs) (sizes : PartId → Nat) (events : List OrderEvent) (i : ProgramSegmentId) :
    Alignment :=
  (computeSegmentAlignments (elf builtIn) sections segments args sizes events i).getD
    args.loadableSegmentAlignment

/-- The section moves the memory cursor as far as the file cursor, up to multiples of `a`. -/
def Steady (builtIn : OutputSectionId → Option BuiltInSectionDetails)
    (sections : OutputSections SectionAttributes) (sizes : PartId → Nat) (a : Alignment)
    (id : OutputSectionId) : Prop :=
  sectionHasDataInFile (elf builtIn) sections id = true ∨
    id ≠ RELRO_PADDING ∧ ∀ part ∈ partIdRange id, a.bytes ∣ sizes part

/-- The cursors are in step. -/
def InStep (a : Alignment) (s : LayoutState) : Prop := s.fileOffset ≡ s.memOffset [MOD a.bytes]

theorem layoutParts_inStep {a : Alignment} (hargs : args.shouldOutputPartialObject = false)
    (halloc : isAllocSection (elf builtIn) sections id = true)
    (hle : (maxAlignment sections sizes id).exponent ≤ a.exponent)
    (hsteady : Steady builtIn sections sizes a id) :
    ∀ {parts : List PartId} {s : LayoutState}, parts ⊆ partIdRange id → InStep a s →
      InStep a (layoutParts (elf builtIn) sections args sizes id s parts).1 ∧
        ∀ p ∈ (layoutParts (elf builtIn) sections args sizes id s parts).2,
          p.record.fileOffset ≡ p.record.memOffset [MOD a.bytes]
  | [], _, _, h => ⟨h, fun p hp => absurd hp not_mem_nil⟩
  | part :: parts, s, hsub, h => by
    have hlow : (effectiveAlignment sections sizes id part).exponent ≤ a.exponent :=
      UInt8.le_trans (effectiveAlignment_le_max part) hle
    have hup := alignUp_modEq hlow h
    rw [layoutParts, layoutPart_alloc hargs halloc]
    set align := effectiveAlignment sections sizes id part
    have hnext : InStep a
        { s with
          fileOffset := align.alignUp s.fileOffset
            + if sectionHasDataInFile (elf builtIn) sections id
                then partMemSize args sizes id part s.memOffset else 0
          memOffset := align.alignUp s.memOffset + partMemSize args sizes id part s.memOffset } := by
      rcases hsteady with hdata | ⟨hregular, hdvd⟩
      · rw [if_pos hdata]
        exact hup.add_right _
      · have hzero : partMemSize args sizes id part s.memOffset ≡ 0 [MOD a.bytes] := by
          rw [partMemSize, if_neg hregular]
          exact (modEq_zero_iff_dvd).mpr (hdvd part (hsub mem_cons_self))
        split
        · exact hup.add_right _
        · exact hup.add hzero.symm
    obtain ⟨hrest, hps⟩ := layoutParts_inStep hargs halloc hle hsteady
      (fun q hq => hsub (mem_cons_of_mem _ hq)) hnext
    refine ⟨hrest, ?_⟩
    intro p hp
    rcases mem_cons.mp hp with rfl | hp
    · exact hup
    · exact hps p hp

/-- **The cursors stay in step in a LOAD segment of steady sections.** -/
theorem stateAfter_inStep (h : Built (elf builtIn) outputKind sections ids events segments)
    (hkind : outputKind.isPartialObject = false) (hargs : args.shouldOutputPartialObject = false)
    (hprimary : ∀ id ∈ ids, sections.IsPrimary id)
    (hloc : ∀ id, (sections.infos id).location = none) {i : ProgramSegmentId}
    {d : ProgramSegmentDef} (hd : segments[i]? = some d) (hload : d.isLoadable = true)
    {pre : List OrderEvent} {mid : List OrderEvent} :
    ∀ {rest : List OrderEvent}, events = (pre ++ .segmentStart i :: mid) ++ rest →
      .segmentEnd i ∉ mid →
      (∀ bef id aft, mid = bef ++ .sectionOf id :: aft →
        Steady builtIn sections sizes
          (segmentAlignment builtIn sections segments args sizes events i) id) →
      InStep (segmentAlignment builtIn sections segments args sizes events i)
        (stateAfter builtIn sections segments args sizes
          (computeSegmentAlignments (elf builtIn) sections segments args sizes events)
          (initialLayout sections) (pre ++ .segmentStart i :: mid)) := by
  set A := segmentAlignment builtIn sections segments args sizes events i with hA
  set alignments := computeSegmentAlignments (elf builtIn) sections segments args sizes events
    with halignments
  -- no event of the order is a jump
  have hpending : ∀ before, before <+: events → (stateAfter builtIn sections segments args sizes
      alignments (initialLayout sections) before).pendingLocation = none := by
    intro before hbefore
    have hlaid : Laid builtIn sections sizes (initialLayout sections) _
        (stateAfter builtIn sections segments args sizes alignments (initialLayout sections) before) :=
      layoutEvents_laid hargs hloc rfl fun address hmem =>
        h.no_setLocation hloc address (hbefore.subset hmem)
    exact hlaid.pending
  induction mid using reverseRecOn with
  | nil =>
    intro rest heq _ _
    have hpre : pre <+: events := ⟨_, by rw [heq, List.append_assoc]⟩
    rw [stateAfter_concat, layoutEvent_segmentStart (hpending pre hpre)]
    have hseg : isLoadSegment (elf builtIn) segments i = true := by
      rw [isLoadSegment, hd, any_some]
      exact hload
    rw [if_pos hseg]
    exact (alignModulo_modEq _ _ _).symm
  | append_singleton mid e ih =>
    intro rest heq hend hsteady
    have heq' : events = (pre ++ .segmentStart i :: mid) ++ e :: rest := by
      rw [heq]
      simp
    have hbefore := ih heq' (fun hmem => hend (mem_append_left _ hmem))
      fun bef id aft hmid => hsteady bef id (aft ++ [e]) (by rw [hmid]; simp)
    have hsplit : events = pre ++ .segmentStart i :: (mid ++ e :: rest) := by
      rw [heq', List.append_assoc, cons_append]
    have hfresh := h.trace.fresh hsplit
    have hactive : IsActive (pre ++ .segmentStart i :: mid) segments i d := by
      refine ⟨by simp, ?_, hd⟩
      intro hmem
      rcases mem_append.mp hmem with hmem | hmem
      · exact hfresh.2 hmem
      · rcases mem_cons.mp hmem with hmem | hmem
        · cases hmem
        · exact hend (mem_append_left _ hmem)
    rw [← cons_append, ← List.append_assoc, stateAfter_concat]
    have hnone := hpending (pre ++ .segmentStart i :: mid) ⟨_, heq'.symm⟩
    cases e with
    | setLocation address =>
      exact absurd (heq' ▸ mem_append_right _ mem_cons_self)
        (h.no_setLocation hloc address)
    | segmentEnd j => exact hbefore
    | segmentStart j =>
      rw [layoutEvent_segmentStart hnone]
      split
      · -- no other LOAD segment starts
        rename_i hj
        obtain ⟨d', hd', hload'⟩ : ∃ d', segments[j]? = some d' ∧ d'.isLoadable = true :=
          (Option.any_eq_true _ _).mp hj
        rw [h.no_load_start hkind hprimary heq' hactive hd' hload] at hload'
        cases hload'
      · exact hbefore
    | sectionOf id =>
      simp only [layoutEvent, hloc]
      have hmax : (maxAlignment sections sizes id).exponent ≤ A.exponent := by
        rw [hA, segmentAlignment, heq']
        exact maxAlignment_le_segment hactive hload
      exact (layoutParts_inStep hargs (h.alloc_in_load hkind hprimary heq' hactive hload) hmax
        (hsteady mid id [] rfl) (List.Subset.refl _) hbefore).1

/-! ## 6. The whole layout -/

/-- A layout of `events` as it should be. -/
structure WellFormed (builtIn : OutputSectionId → Option BuiltInSectionDetails)
    (sections : OutputSections SectionAttributes) (segments : List ProgramSegmentDef)
    (args : LayoutArgs) (sizes : PartId → Nat) (events : List OrderEvent)
    (placed : List (List PlacedPart)) : Prop where
  /-- Every part of a section of the order has its record. -/
  complete : ∀ before id after, events = before ++ .sectionOf id :: after →
    ∃ ps, placed[before.length]? = some ps ∧ ps.map (·.partId) = partIdRange id ∧
      ∀ p ∈ ps, p.sectionId = id
  aligned : ∀ p ∈ placed.flatten, p.record.alignment.bytes ∣ p.record.fileOffset ∧
    p.record.alignment.bytes ∣ p.record.memOffset
  /-- A part that takes memory is aligned as it asks for. -/
  keeps : ∀ p ∈ placed.flatten, p.record.memSize ≠ 0 →
    p.record.alignment = partAlignment sections p.partId
  file : placed.flatten.Pairwise fun p q =>
    p.record.fileOffset + p.record.fileSize ≤ q.record.fileOffset
  memory : (placed.flatten.filter fun p =>
      isAllocSection (elf builtIn) sections p.sectionId).Pairwise fun p q =>
    p.record.memOffset + p.record.memSize ≤ q.record.memOffset
  nonalloc : ∀ id, isAllocSection (elf builtIn) sections id = false →
    (placed.flatten.filter fun p => p.sectionId = id).Pairwise PlacedPart.Apart
  congruent : ∀ before id after, events = before ++ .sectionOf id :: after → ∀ i d,
    IsActive before segments i d → d.isLoadable = true → ∀ ps, placed[before.length]? = some ps →
      ∀ p ∈ ps, p.record.fileSize ≠ 0 → p.record.fileOffset ≡ p.record.memOffset
        [MOD (segmentAlignment builtIn sections segments args sizes events i).bytes]

/-- The section has a part with bytes in the file. -/
def HasBytes (builtIn : OutputSectionId → Option BuiltInSectionDetails)
    (sections : OutputSections SectionAttributes) (sizes : PartId → Nat) (id : OutputSectionId) :
    Prop :=
  sectionHasDataInFile (elf builtIn) sections id = true ∧
    (id = RELRO_PADDING ∨ ∃ part ∈ partIdRange id, sizes part ≠ 0)

/-- In no LOAD segment does a section with bytes in the file stand behind one that moves the memory
cursor alone. -/
def DataFirst (builtIn : OutputSectionId → Option BuiltInSectionDetails)
    (sections : OutputSections SectionAttributes) (segments : List ProgramSegmentDef)
    (args : LayoutArgs) (sizes : PartId → Nat) (events : List OrderEvent) : Prop :=
  ∀ before id mid id' after,
    events = before ++ .sectionOf id :: mid ++ .sectionOf id' :: after → ∀ i d,
      IsActive before segments i d → .segmentEnd i ∉ mid → d.isLoadable = true →
        HasBytes builtIn sections sizes id' →
          Steady builtIn sections sizes
            (segmentAlignment builtIn sections segments args sizes events i) id

theorem layoutParts_ids : ∀ {parts : List PartId} {s : LayoutState},
    (layoutParts (elf builtIn) sections args sizes id s parts).2.map (·.partId) = parts ∧
      ∀ p ∈ (layoutParts (elf builtIn) sections args sizes id s parts).2, p.sectionId = id
  | [], _ => ⟨rfl, fun p hp => absurd hp not_mem_nil⟩
  | part :: parts, s => by
    have hhead : (layoutPart (elf builtIn) sections args sizes id s part).2.partId = part ∧
        (layoutPart (elf builtIn) sections args sizes id s part).2.sectionId = id := by
      unfold layoutPart
      dsimp only
      split
      · split <;> exact ⟨rfl, rfl⟩
      · exact ⟨rfl, rfl⟩
    obtain ⟨hmap, hids⟩ :=
      @layoutParts_ids parts (layoutPart (elf builtIn) sections args sizes id s part).1
    refine ⟨by rw [layoutParts, map_cons, hhead.1, hmap], ?_⟩
    intro p hp
    rcases mem_cons.mp hp with rfl | hp
    · exact hhead.2
    · exact hids p hp

/-- A record belongs to a section of the run. -/
theorem section_of_record : ∀ {events : List OrderEvent} {s : LayoutState},
    ∀ p ∈ (layoutEvents (elf builtIn) sections segments args sizes segmentAlignments s
      events).flatten, .sectionOf p.sectionId ∈ events
  | [], _ => fun p hp => absurd hp not_mem_nil
  | e :: events, s => by
    intro p hp
    rw [layoutEvents, flatten_cons] at hp
    rcases mem_append.mp hp with hp | hp
    · cases e with
      | setLocation _ => cases hp
      | segmentEnd _ => cases hp
      | segmentStart i =>
        cases hd : segments[i]? with
        | none => simp [layoutEvent, hd] at hp
        | some d =>
          simp only [layoutEvent, hd] at hp
          split at hp
          · cases hpending : s.pendingLocation <;> simp [hpending] at hp
          · cases hp
      | sectionOf id =>
        rw [layoutParts_ids.2 p hp]
        exact mem_cons_self
    · exact mem_cons_of_mem _ (section_of_record p hp)

/-- The records of a section that is placed once. -/
theorem records_of_section (hbefore : .sectionOf id ∉ before) (hafter : .sectionOf id ∉ after) :
    (layoutEvents (elf builtIn) sections segments args sizes segmentAlignments s
        (before ++ .sectionOf id :: after)).flatten.filter (fun p => p.sectionId = id) =
      (layoutEvent (elf builtIn) sections segments args sizes segmentAlignments
        (stateAfter builtIn sections segments args sizes segmentAlignments s before)
        (.sectionOf id)).2 := by
  have hnone : ∀ {run : List OrderEvent} {s : LayoutState}, .sectionOf id ∉ run →
      (layoutEvents (elf builtIn) sections segments args sizes segmentAlignments s
        run).flatten.filter (fun p => p.sectionId = id) = [] := by
    intro run s hrun
    refine filter_eq_nil_iff.mpr fun p hp hid => ?_
    exact hrun (of_decide_eq_true hid ▸ section_of_record p hp)
  rw [layoutEvents_append, flatten_append, filter_append, hnone hbefore,
    nil_append, layoutEvents, flatten_cons, filter_append, hnone hafter,
    append_nil]
  exact filter_eq_self.mpr fun p hp => decide_eq_true (layoutParts_ids.2 p hp)

theorem layoutSectionParts_getElem? (heq : events = before ++ e :: after) :
    (layoutSectionParts (elf builtIn) sections segments args sizes events)[before.length]? =
      some (layoutEvent (elf builtIn) sections segments args sizes
        (computeSegmentAlignments (elf builtIn) sections segments args sizes events)
        (stateAfter builtIn sections segments args sizes
          (computeSegmentAlignments (elf builtIn) sections segments args sizes events)
          (initialLayout sections) before) e).2 := by
  unfold layoutSectionParts
  generalize computeSegmentAlignments (elf builtIn) sections segments args sizes events = alignments
  rw [heq]
  exact layoutEvents_getElem? _ _ _ _

/-- A section with a record that has bytes in the file. -/
theorem hasBytes_of_record (hargs : args.shouldOutputPartialObject = false)
    (halloc : isAllocSection (elf builtIn) sections id = true) :
    ∀ {parts : List PartId} {s : LayoutState}, parts ⊆ partIdRange id →
      ∀ p ∈ (layoutParts (elf builtIn) sections args sizes id s parts).2, p.record.fileSize ≠ 0 →
        HasBytes builtIn sections sizes id
  | [], _, _ => fun p hp => absurd hp not_mem_nil
  | part :: parts, s, hsub => by
    intro p hp hsize
    rw [layoutParts, layoutPart_alloc hargs halloc] at hp
    rcases mem_cons.mp hp with rfl | hp
    · dsimp only at hsize
      split at hsize
      · rename_i hhas
        refine ⟨hhas, ?_⟩
        unfold partMemSize at hsize
        split at hsize
        · rename_i hrelro
          exact .inl hrelro
        · exact .inr ⟨part, hsub mem_cons_self, hsize⟩
      · exact absurd rfl hsize
    · exact hasBytes_of_record hargs halloc (fun q hq => hsub (mem_cons_of_mem _ hq)) p hp
        hsize

/-- **A layout is well formed** if in no LOAD segment a section with bytes in the file stands
behind one that only takes memory, and in no section without ALLOC the padding shrinks. -/
theorem layout_wellFormed (builtIn : OutputSectionId → Option BuiltInSectionDetails)
    (outputKind : OutputKind) (sections : OutputSections SectionAttributes) (args : LayoutArgs)
    (sizes : PartId → Nat) (ids : List OutputSectionId) (events : List OrderEvent)
    (segments : List ProgramSegmentDef)
    (horder : buildOutputOrder (elf builtIn) outputKind sections ids = some (events, segments))
    (hkind : outputKind.isPartialObject = false) (hargs : args.shouldOutputPartialObject = false)
    (hprimary : ∀ id ∈ ids, sections.IsPrimary id) (hnodup : ids.Nodup)
    (hloc : ∀ id, (sections.infos id).location = none)
    (hdata : DataFirst builtIn sections segments args sizes events)
    (hgrows : ∀ id, .sectionOf id ∈ events → isAllocSection (elf builtIn) sections id = false →
      PaddingGrows sections sizes 0 (partIdRange id)) :
    WellFormed builtIn sections segments args sizes events
      (layoutSectionParts (elf builtIn) sections segments args sizes events) := by
  have h := buildOutputOrder_spec horder
  have hlaid : Laid builtIn sections sizes (initialLayout sections)
      (layoutSectionParts (elf builtIn) sections segments args sizes events).flatten _ :=
    layoutEvents_laid hargs hloc rfl (h.no_setLocation hloc)
  refine ⟨?_, hlaid.aligned, hlaid.keeps, hlaid.file.pairwise, hlaid.memory.pairwise, ?_, ?_⟩
  · intro before id after heq
    refine ⟨_, layoutSectionParts_getElem? heq, ?_⟩
    simp only [layoutEvent, hloc]
    exact layoutParts_ids
  · intro id halloc
    by_cases hmem : .sectionOf id ∈ events
    · obtain ⟨before, after, heq⟩ := append_of_mem hmem
      have hbefore := h.section_once hprimary hnodup heq
      have hafter : .sectionOf id ∉ after := by
        intro hmem'
        obtain ⟨mid, after', rfl⟩ := append_of_mem hmem'
        have heq' : events = (before ++ .sectionOf id :: mid) ++ .sectionOf id :: after' := by
          rw [heq, List.append_assoc, cons_append]
        exact h.section_once hprimary hnodup heq' (by simp)
      unfold layoutSectionParts
      generalize computeSegmentAlignments (elf builtIn) sections segments args sizes events
        = alignments
      rw [heq, records_of_section hbefore hafter]
      simp only [layoutEvent, hloc]
      by_cases hrelro : id = RELRO_PADDING
      · -- one part
        have hone : partIdRange id = [id] := by
          rw [partIdRange, if_pos (hrelro ▸ by decide)]
        rw [hone]
        exact pairwise_singleton _ _
      · refine layoutParts_disjoint halloc hrelro (List.Subset.refl _) ?_
        rw [stateAfter_counter hargs hloc hbefore]
        exact hgrows id hmem halloc
    · have hnone : (layoutSectionParts (elf builtIn) sections segments args sizes
          events).flatten.filter (fun p => p.sectionId = id) = [] :=
        filter_eq_nil_iff.mpr fun p hp hid =>
          hmem (of_decide_eq_true hid ▸ section_of_record p hp)
      rw [hnone]
      exact List.Pairwise.nil
  · intro before id after heq i d hactive hload ps hps p hp hsize
    obtain ⟨pre, mid, rfl⟩ := append_of_mem hactive.1
    cases (layoutSectionParts_getElem? heq).symm.trans hps
    simp only [layoutEvent, hloc] at hp
    have halloc := h.alloc_in_load hkind hprimary heq hactive hload
    have hbytes := hasBytes_of_record hargs halloc (List.Subset.refl _) p hp hsize
    -- what stands before in the segment is steady
    have hsteady : ∀ bef id₀ aft, mid = bef ++ .sectionOf id₀ :: aft →
        Steady builtIn sections sizes
          (segmentAlignment builtIn sections segments args sizes events i) id₀ := by
      rintro bef id₀ aft rfl
      refine hdata (pre ++ .segmentStart i :: bef) id₀ aft id after ?_ i d
        ⟨by simp, ?_, hactive.2.2⟩ ?_ hload hbytes
      · rw [heq]
        simp
      · intro hmem
        apply hactive.2.1
        rcases mem_append.mp hmem with hmem | hmem
        · exact mem_append_left _ hmem
        · rw [← cons_append]
          exact mem_append_right _ (mem_append_left _ hmem)
      · exact fun hmem => hactive.2.1 (by simp [hmem])
    have hstep := stateAfter_inStep h hkind hargs hprimary hloc hactive.2.2 hload heq
      (fun hmem => hactive.2.1 (by simp [hmem])) hsteady
    have hmax : (maxAlignment sections sizes id).exponent
        ≤ (segmentAlignment builtIn sections segments args sizes events i).exponent := by
      rw [segmentAlignment, heq]
      exact maxAlignment_le_segment hactive hload
    exact (layoutParts_inStep hargs halloc hmax (.inl hbytes.1) (List.Subset.refl _) hstep).2 p hp

/-- Pages of 4096 bytes. -/
def pageArgs : LayoutArgs where
  loadableSegmentAlignment := ⟨12, by decide⟩
  shouldOutputPartialObject := false

def relroSegments : List ProgramSegmentDef :=
  [⟨.load, readable⟩, ⟨.load, { readable with writable := true }⟩, ⟨.gnuRelro, readable⟩,
    ⟨.load, { readable with writable := true }⟩, STACK_SEGMENT_DEF]

theorem relroOrder_wellFormed :
    WellFormed (fun id => if id = 1 then some ⟨true, none⟩ else none) relroSections relroSegments
      pageArgs (fun _ => 7) relroOrder
      (layoutSectionParts relroPlatform relroSections relroSegments pageArgs (fun _ => 7)
        relroOrder) :=
  layout_wellFormed _ .sharedObject relroSections pageArgs (fun _ => 7) [0, 1, 2] relroOrder
    relroSegments (by decide) rfl rfl (by decide) (by decide) (fun _ => rfl)
    (fun _ _ _ _ _ _ _ _ _ _ _ _ => .inl rfl) (fun _ _ halloc => by cases halloc)

/-! ## 7. Where it fails -/

/-- Two regular sections, 47 and 48, of which the first is NOBITS if `alloc` is set. -/
def twoSections (alloc : Bool) : OutputSections SectionAttributes where
  baseAddress := 0x400000
  numSections := 49
  infos id :=
    { kind := .primary
      sectionAttributes := ⟨⟨alloc, false, false, false⟩, if alloc && id = 47 then .nobits else .other 1⟩
      minAlignment := .minimal
      location := none
      secondaryOrder := none }

def oneLoad : List OrderEvent :=
  [.segmentStart 0, .sectionOf 47, .sectionOf 48, .segmentEnd 0, .segmentStart 1, .segmentEnd 1]

/-- A byte of each of the two sections, in the parts with alignment 1. -/
def twoBytes (part : PartId) : Nat := if part = 63 ∨ part = 80 then 1 else 0

/-- A byte, four bytes and a byte, in the parts of section 47 with alignments 8, 4 and 1. -/
def debugSizes (part : PartId) : Nat :=
  if part = 60 ∨ part = 63 then 1 else if part = 61 then 4 else 0

/-- **A byte in the file behind a byte of NOBITS is not congruent to its address**, and the last of
three debug parts lies inside the one before. -/
theorem layout_not_wellFormed :
    (buildOutputOrder (elf fun _ => none) .sharedObject (twoSections true) [47, 48]
        = some (oneLoad, [⟨.load, readable⟩, STACK_SEGMENT_DEF]) ∧
      ¬ WellFormed (fun _ => none) (twoSections true) [⟨.load, readable⟩, STACK_SEGMENT_DEF] pageArgs
        twoBytes oneLoad (layoutSectionParts (elf fun _ => none) (twoSections true)
          [⟨.load, readable⟩, STACK_SEGMENT_DEF] pageArgs twoBytes oneLoad)) ∧
    (buildOutputOrder (elf fun _ => none) .sharedObject (twoSections false) [47]
        = some ([.sectionOf 47, .segmentStart 0, .segmentEnd 0], [STACK_SEGMENT_DEF]) ∧
      ¬ WellFormed (fun _ => none) (twoSections false) [STACK_SEGMENT_DEF] pageArgs debugSizes
        [.sectionOf 47, .segmentStart 0, .segmentEnd 0]
        (layoutSectionParts (elf fun _ => none) (twoSections false) [STACK_SEGMENT_DEF] pageArgs
          debugSizes [.sectionOf 47, .segmentStart 0, .segmentEnd 0])) := by
  refine ⟨⟨by decide, ?_⟩, by decide, ?_⟩
  · intro h
    have hcongruent := h.congruent [.segmentStart 0, .sectionOf 47] 48
      [.segmentEnd 0, .segmentStart 1, .segmentEnd 1] rfl 0 ⟨.load, readable⟩
      ⟨by decide, by decide, rfl⟩ rfl _ rfl
    revert hcongruent
    decide +kernel
  · intro h
    have hapart := h.nonalloc 47 rfl
    revert hapart
    decide +kernel

end Srs.Output
