/-
# LOAD segments in an ELF order

What an order built for an executable or a shared object says about LOAD segments: no two of them
are active at one point, everything placed in one has ALLOC, and a section that is given once is
placed once.  `computeSegmentAlignments` gives a LOAD segment at least the page's alignment and
that of every section placed in it.
-/
import Srs.Output.Parts
import Srs.Output.Segments

namespace Srs.Output

open Spans OutputOrderBuilder List Option
open Srs.Dynamic (OutputKind)

variable {builtIn : OutputSectionId → Option BuiltInSectionDetails} {outputKind : OutputKind}
  {sections : OutputSections SectionAttributes} {ids : List OutputSectionId}
  {events : List OrderEvent} {segments : List ProgramSegmentDef}

/-! ## 1. ELF's LOAD definitions -/

variable {id : OutputSectionId} {d d' : ProgramSegmentDef} {i : ProgramSegmentId}
  {before after : List OrderEvent} {j : ProgramSegmentId}

/-- A section belongs to at most one LOAD definition. -/
theorem load_def_inj
    (hd : d ∈ PROGRAM_SEGMENT_DEFS) (hd' : d' ∈ PROGRAM_SEGMENT_DEFS) (hload : d.isLoadable = true)
    (hload' : d'.isLoadable = true) (h : sections.shouldIncludeInSegment (elf builtIn) id d = true)
    (h' : sections.shouldIncludeInSegment (elf builtIn) id d' = true) : d = d' := by
  simp only [OutputSections.shouldIncludeInSegment, elf, ProgramSegmentDef.shouldIncludeSection,
    of_decide_eq_true hload, of_decide_eq_true hload', Bool.and_eq_true, beq_iff_eq] at h h'
  obtain ⟨ty, writable, executable⟩ := d
  obtain ⟨ty', writable', executable'⟩ := d'
  obtain rfl : ty = .load := of_decide_eq_true hload
  obtain rfl : ty' = .load := of_decide_eq_true hload'
  obtain ⟨⟨_, hw⟩, hx⟩ := h
  obtain ⟨⟨_, hw'⟩, hx'⟩ := h'
  simp only at hw hx hw' hx'
  subst hw hx hw' hx'
  rfl

theorem alloc_of_load (hload : d.isLoadable = true)
    (h : sections.shouldIncludeInSegment (elf builtIn) id d = true) :
    (sections.infos id).sectionAttributes.flags.alloc = true := by
  simp only [OutputSections.shouldIncludeInSegment, elf, ProgramSegmentDef.shouldIncludeSection,
    of_decide_eq_true hload, Bool.and_eq_true] at h
  exact h.1.1

/-- The stack segment is not a LOAD segment. -/
theorem Built.load_def_mem (h : Built (elf builtIn) outputKind sections ids events segments)
    (hd : segments[i]? = some d)
    (hload : d.isLoadable = true) : d ∈ PROGRAM_SEGMENT_DEFS := by
  rcases h.segments_mem d (mem_of_getElem? hd) with hmem | hmem
  · exact hmem
  · obtain rfl := mem_singleton.mp hmem
    cases hload

/-! ## 2. The chunks of an order -/

/-- Where an item of a concatenation of many lists stands. -/
theorem split_flatMap {α β : Type} {f : α → List β} {x : β} : ∀ {l : List α} {pre post : List β},
    l.flatMap f = pre ++ x :: post →
      ∃ l₁ a l₂ pre' post', l = l₁ ++ a :: l₂ ∧ f a = pre' ++ x :: post' ∧
        pre = l₁.flatMap f ++ pre' ∧ post = post' ++ l₂.flatMap f
  | [], pre, post, h => by simp at h
  | a :: l, pre, post, h => by
    rw [flatMap_cons] at h
    rcases split_append h with ⟨post', hhead⟩ | ⟨pre', rfl, htail⟩
    · refine ⟨[], a, l, pre, post', rfl, hhead, rfl, ?_⟩
      rw [hhead, List.append_assoc] at h
      exact (List.cons.inj (append_cancel_left h)).2.symm
    · obtain ⟨l₁, b, l₂, pre'', post'', rfl, hb, rfl, rfl⟩ := split_flatMap htail
      exact ⟨a :: l₁, b, l₂, pre'', post'', rfl, hb, by simp, rfl⟩

/-- Events that are neither starts nor ends do not change what is active. -/
theorem isActive_neutral {Def : Type} {more : List OrderEvent} {segments : List Def}
    (hmore : ∀ e ∈ more, IsNeutral e) (i : ProgramSegmentId) (d : Def) :
    IsActive (before ++ more) segments i d ↔ IsActive before segments i d := by
  have hs : .segmentStart i ∉ more := fun h => (hmore _ h).1 i rfl
  have he : .segmentEnd i ∉ more := fun h => (hmore _ h).2 i rfl
  simp only [IsActive, mem_append, hs, he, or_false]

theorem neutral_secondaryEvents {e : OrderEvent}
    (he : e ∈ secondaryEvents sections id) : IsNeutral e := by
  obtain ⟨sid, rfl, _⟩ := mem_secondaryEvents he
  exact isNeutral_sectionOf sid

/-- A secondary section follows the section that it is merged into. -/
theorem primaryOutputSection_of_secondary {sid : OutputSectionId}
    (h : .sectionOf sid ∈ secondaryEvents sections id) :
    sections.primaryOutputSection sid = id := by
  obtain ⟨⟨priority, sid'⟩, hmem, heq⟩ := mem_map.mp h
  obtain rfl : sid' = sid := OrderEvent.sectionOf.inj heq
  rw [mem_insertionSort] at hmem
  obtain ⟨sid'', hsid, heq⟩ := mem_map.mp hmem
  obtain rfl : sid'' = sid' := congrArg Prod.snd heq
  rw [OutputSections.primaryOutputSection, of_decide_eq_true (mem_filter.mp hsid).2,
    getD_some]

theorem primaryOutputSection_of_primary (h : sections.IsPrimary id) :
    sections.primaryOutputSection id = id := by
  rw [OutputSections.primaryOutputSection, show sections.mergeTarget id = none from h,
    getD_none]

section

variable (h : Built (elf builtIn) outputKind sections ids events segments)
include h

/-- **Every section stands in the segments of its primary section.** -/
theorem Built.section_placed
    (hkind : outputKind.isPartialObject = false) (hprimary : ∀ id ∈ ids, sections.IsPrimary id)
    (heq : events = before ++ .sectionOf id :: after) :
    IsPlaced (elf builtIn) sections before segments (sections.primaryOutputSection id) := by
  obtain ⟨chunks, more, hids, hquiet, hevents, htail⟩ := h.shape
  rcases split_append (hevents ▸ heq) with ⟨post, hchunks⟩ | ⟨pre, _, hmore⟩
  · obtain ⟨l₁, c, l₂, pre', post', rfl, hc, rfl, rfl⟩ := split_flatMap hchunks
    have hcmem : c.id ∈ ids := hids ▸ mem_map.mpr ⟨c, by simp, rfl⟩
    have hprim := hprimary _ hcmem
    -- the event of the chunk's own section
    have hown : IsPlaced (elf builtIn) sections (l₁.flatMap (Chunk.events sections) ++ c.before)
        segments c.id := by
      refine h.placed hkind _ c.id
        (secondaryEvents sections c.id ++ (l₂.flatMap (Chunk.events sections)
          ++ more)) ?_ hprim
      rw [hevents]
      simp [Chunk.events]
    rcases split_append hc with ⟨post'', hbefore⟩ | ⟨pre'', rfl, hsections⟩
    · exact absurd (hbefore ▸ mem_append_right _ mem_cons_self)
        ((hquiet c (by simp)).no_section id)
    · have hid : sections.primaryOutputSection id = c.id ∧
          ∀ e ∈ pre'', IsNeutral e := by
        cases pre'' with
        | nil =>
          obtain ⟨hhead, _⟩ := List.cons.inj hsections
          cases hhead
          exact ⟨primaryOutputSection_of_primary hprim, by simp⟩
        | cons e pre'' =>
          obtain ⟨rfl, hrest⟩ := List.cons.inj hsections
          have hin : ∀ e ∈ pre'' ++ .sectionOf id :: post',
              e ∈ secondaryEvents sections c.id := by
            intro e he
            rw [hrest]
            exact he
          refine ⟨primaryOutputSection_of_secondary
            (hin _ (mem_append_right _ mem_cons_self)), ?_⟩
          intro e he
          rcases mem_cons.mp he with rfl | he
          · exact isNeutral_sectionOf c.id
          · exact neutral_secondaryEvents (hin e (mem_append_left _ he))
      intro d hd
      rw [hid.1, ← hown d hd, ← List.append_assoc]
      exact exists_congr fun i => isActive_neutral hid.2 i d
  · exact absurd (hmore ▸ mem_append_right _ mem_cons_self) (htail.no_section id)

/-- **What is placed in a LOAD segment has ALLOC.** -/
theorem Built.alloc_in_load
    (hkind : outputKind.isPartialObject = false) (hprimary : ∀ id ∈ ids, sections.IsPrimary id)
    (heq : events = before ++ .sectionOf id :: after) (hactive : IsActive before segments i d)
    (hload : d.isLoadable = true) : isAllocSection (elf builtIn) sections id = true := by
  have hd := h.load_def_mem hactive.2.2 hload
  exact alloc_of_load hload ((h.section_placed hkind hprimary heq d hd).mp ⟨i, hactive⟩)

/-! ## 3. One LOAD segment at a time -/

/-- Behind the start of a LOAD segment come other starts and then a section. -/
theorem Built.after_load_start
    (heq : events = before ++ .segmentStart j :: after) (hd : segments[j]? = some d)
    (hload : d.isLoadable = true) :
    ∃ (starts : List ProgramSegmentId) (id : OutputSectionId) (rest : List OrderEvent),
      after = starts.map .segmentStart ++ .sectionOf id :: rest ∧ id ∈ ids := by
  obtain ⟨chunks, more, hids, hquiet, hevents, htail⟩ := h.shape
  rcases split_append (hevents ▸ heq) with ⟨post, hchunks⟩ | ⟨pre, rfl, hmore⟩
  · obtain ⟨l₁, c, l₂, pre', post', rfl, hc, rfl, rfl⟩ := split_flatMap hchunks
    have hcmem : c.id ∈ ids := hids ▸ mem_map.mpr ⟨c, by simp, rfl⟩
    have hafter : after = post' ++ (l₂.flatMap (Chunk.events sections) ++ more) := by
      have hall := hevents.symm.trans heq
      rw [hchunks] at hall
      simp only [List.append_assoc, cons_append, append_cancel_left_eq,
        List.cons.injEq, true_and] at hall
      exact hall.symm
    rcases split_append hc with ⟨post'', hbefore⟩ | ⟨pre'', rfl, hsections⟩
    · have hpost : post' = post'' ++ .sectionOf c.id ::
          secondaryEvents sections c.id := by
        rw [Chunk.events, hbefore, List.append_assoc] at hc
        exact (List.cons.inj (append_cancel_left hc)).2.symm
      rcases split_append hbefore with ⟨q, hq⟩ | ⟨q, rfl, hstarts⟩
      · rcases hquiet c (by simp) _ (hq ▸ mem_append_right _ mem_cons_self) with
          ⟨_, heq'⟩ | hloc
        · cases heq'
        · obtain ⟨_, heq'⟩ := mem_locationEvents hloc
          cases heq'
      · obtain ⟨s₁, s₂', hsplit, hs₁, hs₂⟩ := map_eq_append_iff.mp hstarts
        obtain ⟨s, s₂, rfl, _, rfl⟩ := map_eq_cons_iff.mp hs₂
        refine ⟨s₂, c.id, secondaryEvents sections c.id ++
          (l₂.flatMap (Chunk.events sections) ++ more), ?_, hcmem⟩
        rw [hafter, hpost, List.append_assoc, cons_append]
    · exfalso
      have hmem : .segmentStart j ∈ .sectionOf c.id ::
          secondaryEvents sections c.id :=
        hsections ▸ mem_append_right _ mem_cons_self
      rcases mem_cons.mp hmem with heq' | hmem
      · cases heq'
      · exact (neutral_secondaryEvents hmem).1 j rfl
  · rcases htail _ (hmore ▸ mem_append_right _ mem_cons_self) with
      ⟨_, heq'⟩ | ⟨_, heq', d', hd', hlabel⟩
    · cases heq'
    · cases heq'
      cases hd.symm.trans hlabel
      obtain rfl := mem_singleton.mp hd'
      cases hload

variable {p : List OrderEvent}

/-- Two LOAD segments, one of which starts while the other one is active. -/
theorem Built.one_load_of_start
    (hkind : outputKind.isPartialObject = false) (hprimary : ∀ id ∈ ids, sections.IsPrimary id) (heq : events = p ++ .segmentStart j :: after) (hi : .segmentStart i ∈ p)
    (hendi : .segmentEnd i ∉ p) (hendj : .segmentEnd j ∉ p) (hd : segments[i]? = some d)
    (hd' : segments[j]? = some d') (hload : d.isLoadable = true) (hload' : d'.isLoadable = true) :
    i = j := by
  obtain ⟨starts, id, rest, hafter, hid⟩ := h.after_load_start heq hd' hload'
  set before := p ++ .segmentStart j :: starts.map .segmentStart with hbefore
  have hsplit : events = before ++ .sectionOf id :: rest := by
    rw [heq, hafter, hbefore, List.append_assoc, cons_append]
  have hactive : IsActive before segments i d :=
    ⟨mem_append_left _ hi, by simp [hbefore, hendi], hd⟩
  have hactive' : IsActive before segments j d' := ⟨by simp [hbefore], by simp [hbefore, hendj], hd'⟩
  have hplaced := h.placed hkind _ id _ hsplit (hprimary id hid)
  have hmem := h.load_def_mem hd hload
  have hmem' := h.load_def_mem hd' hload'
  obtain rfl : d = d' := load_def_inj hmem hmem' hload hload'
    ((hplaced d hmem).mp ⟨i, hactive⟩) ((hplaced d' hmem').mp ⟨j, hactive'⟩)
  exact h.isActive_inj (hsplit ▸ prefix_append _ _) hactive hactive'

/-- **No two LOAD segments are active at one point.** -/
theorem Built.one_load
    (hkind : outputKind.isPartialObject = false) (hprimary : ∀ id ∈ ids, sections.IsPrimary id)
    (hbefore : before <+: events) (hi : IsActive before segments i d)
    (hj : IsActive before segments j d') (hload : d.isLoadable = true)
    (hload' : d'.isLoadable = true) : i = j := by
  obtain ⟨rest, hrest⟩ := hbefore
  obtain ⟨p, q, hpq⟩ := append_of_mem hj.1
  have heq : events = p ++ .segmentStart j :: (q ++ rest) := by
    rw [← hrest, hpq, List.append_assoc, cons_append]
  by_cases hip : .segmentStart i ∈ p
  · have hend : ∀ k, .segmentEnd k ∉ before → .segmentEnd k ∉ p :=
      fun k hk hmem => hk (hpq ▸ mem_append_left _ hmem)
    exact h.one_load_of_start hkind hprimary heq hip (hend i hi.2.1) (hend j hj.2.1) hi.2.2
      hj.2.2 hload hload'
  · have hiq := hi.1
    rw [hpq] at hiq
    rcases mem_append.mp hiq with hmem | hmem
    · exact absurd hmem hip
    · rcases mem_cons.mp hmem with heq' | hmem
      · exact OrderEvent.segmentStart.inj heq'
      · -- `i` starts behind `j`
        obtain ⟨q₁, q₂, rfl⟩ := append_of_mem hmem
        have heq₂ : events = (p ++ .segmentStart j :: q₁) ++ .segmentStart i :: (q₂ ++ rest) := by
          rw [heq]
          simp
        have hend : ∀ k, .segmentEnd k ∉ before → .segmentEnd k ∉ p ++ .segmentStart j :: q₁ := by
          intro k hk hmem
          apply hk
          rw [hpq]
          rcases mem_append.mp hmem with hmem | hmem
          · exact mem_append_left _ hmem
          · rcases mem_cons.mp hmem with heq' | hmem
            · cases heq'
            · exact mem_append_right _ (mem_cons_of_mem _ (mem_append_left _ hmem))
        exact (h.one_load_of_start hkind hprimary heq₂ (by simp) (hend j hj.2.1) (hend i hi.2.1)
          hj.2.2 hi.2.2 hload' hload).symm

/-- **No LOAD segment starts in another one.** -/
theorem Built.no_load_start
    (hkind : outputKind.isPartialObject = false) (hprimary : ∀ id ∈ ids, sections.IsPrimary id)
    (heq : events = p ++ .segmentStart j :: after) (hi : IsActive p segments i d)
    (hd' : segments[j]? = some d') (hload : d.isLoadable = true) : d'.isLoadable = false := by
  by_contra hload'
  obtain ⟨hfresh, hend⟩ := h.trace.fresh heq
  obtain rfl := h.one_load_of_start hkind hprimary heq hi.1 hi.2.1 hend hi.2.2 hd' hload
    (Bool.eq_true_of_not_eq_false hload')
  exact hfresh hi.1

/-! ## 4. The sections of an order -/

/-- An order has no locations if its sections have none. -/
theorem Built.no_setLocation
    (hloc : ∀ id, (sections.infos id).location = none) (address : Nat) :
    .setLocation address ∉ events := by
  obtain ⟨chunks, more, _, hquiet, rfl, htail⟩ := h.shape
  intro hmem
  rcases mem_append.mp hmem with hmem | hmem
  · obtain ⟨c, hc, hmem⟩ := mem_flatMap.mp hmem
    rcases mem_append.mp hmem with hmem | hmem
    · rcases mem_append.mp hmem with hmem | hmem
      · rcases hquiet c hc _ hmem with ⟨_, heq⟩ | hmem
        · cases heq
        · simp [locationEvents, hloc] at hmem
      · obtain ⟨_, _, heq⟩ := mem_map.mp hmem
        cases heq
    · rcases mem_cons.mp hmem with heq | hmem
      · cases heq
      · obtain ⟨_, heq, _⟩ := mem_secondaryEvents hmem
        cases heq
  · rcases htail _ hmem with ⟨_, heq⟩ | ⟨_, heq, _⟩ <;> cases heq

end

/-- The sections of a stream of events. -/
def sectionIds (events : List OrderEvent) : List OutputSectionId :=
  events.filterMap fun e =>
    match e with
    | .sectionOf id => some id
    | _ => none

@[simp] theorem sectionIds_append (events more : List OrderEvent) :
    sectionIds (events ++ more) = sectionIds events ++ sectionIds more :=
  filterMap_append

theorem mem_sectionIds :
    id ∈ sectionIds events ↔ .sectionOf id ∈ events := by
  unfold sectionIds
  rw [mem_filterMap]
  constructor
  · rintro ⟨e, he, heq⟩
    cases e <;> simp_all
  · exact fun hmem => ⟨_, hmem, rfl⟩

theorem sectionIds_eq_nil (h : ∀ id, .sectionOf id ∉ events) : sectionIds events = [] :=
  eq_nil_iff_forall_not_mem.mpr fun id hmem => h id (mem_sectionIds.mp hmem)

theorem sectionIds_secondaryEvents (id : OutputSectionId) :
    (sectionIds (secondaryEvents sections id)).Perm (sections.secondary id) := by
  set key := fun sid => ((sections.infos sid).secondaryOrder.getD 65535, sid) with hkey
  have hids : sectionIds (secondaryEvents sections id)
      = (((sections.secondary id).map key).insertionSort fun a b => a.1 ≤ b.1).map (·.2) := by
    simp only [sectionIds, secondaryEvents, filterMap_map, ← hkey]
    exact congrFun filterMap_eq_map _
  have hmap : ((sections.secondary id).map key).map (·.2) = sections.secondary id := by
    rw [List.map_map]
    exact List.map_id _
  rw [hids]
  exact ((perm_insertionSort _ _).map _).trans (Perm.of_eq hmap)

/-- **A section that is given once is placed once.** -/
theorem Built.section_once (h : Built (elf builtIn) outputKind sections ids events segments)
    (hprimary : ∀ id ∈ ids, sections.IsPrimary id) (hnodup : ids.Nodup)
    (heq : events = before ++ .sectionOf id :: after) : .sectionOf id ∉ before := by
  obtain ⟨chunks, more, hids, hquiet, hevents, htail⟩ := h.shape
  have hchunk : ∀ c ∈ chunks, sectionIds (c.events sections)
      = c.id :: sectionIds (secondaryEvents sections c.id) := by
    intro c hc
    rw [Chunk.events, sectionIds_append, sectionIds_eq_nil (hquiet c hc).no_section,
      nil_append]
    rfl
  -- everything in a chunk is merged into the chunk's section
  have htarget : ∀ c ∈ chunks, ∀ sid ∈ sectionIds (c.events sections),
      sections.primaryOutputSection sid = c.id := by
    intro c hc sid hsid
    rw [hchunk c hc] at hsid
    rcases mem_cons.mp hsid with rfl | hsid
    · exact primaryOutputSection_of_primary (hprimary _ (hids ▸ mem_map.mpr ⟨c, hc, rfl⟩))
    · exact primaryOutputSection_of_secondary (mem_sectionIds.mp hsid)
  have hone : ∀ c ∈ chunks, (sectionIds (c.events sections)).Nodup := by
    intro c hc
    rw [hchunk c hc]
    refine nodup_cons.mpr ⟨?_, ?_⟩
    · intro hmem
      obtain ⟨sid, hsid, hnot⟩ := mem_secondaryEvents (mem_sectionIds.mp hmem)
      cases hsid
      exact hnot (hprimary _ (hids ▸ mem_map.mpr ⟨c, hc, rfl⟩))
    · exact (sectionIds_secondaryEvents c.id).nodup_iff.mpr (nodup_range.filter _)
  have hall : (sectionIds events).Nodup := by
    rw [hevents, sectionIds_append, sectionIds_eq_nil htail.no_section, append_nil, sectionIds,
      filterMap_flatMap]
    refine nodup_flatMap.mpr ⟨hone, ?_⟩
    have hpair : chunks.Pairwise fun c c' => c.id ≠ c'.id :=
      pairwise_map.mp (hids ▸ hnodup)
    refine hpair.imp_of_mem fun {c c'} hc hc' hne sid hsid hsid' => ?_
    exact hne ((htarget c hc sid hsid).symm.trans (htarget c' hc' sid hsid'))
  intro hmem
  rw [heq, sectionIds_append] at hall
  exact (nodup_append.mp hall).2.2 id (mem_sectionIds.mpr hmem) id
    (mem_sectionIds.mpr mem_cons_self) rfl

/-! ## 5. The alignments of LOAD segments -/

section

variable {args : LayoutArgs} {sizes : PartId → Nat}

variable {i : ProgramSegmentId}

/-- The segment is followed, and has an alignment. -/
theorem segmentAlignment_tracked {d : ProgramSegmentDef}
    (hload : d.isLoadable = true) {before : List OrderEvent} :
    let s := before.foldl (segmentAlignmentEvent (elf builtIn) sections segments args sizes)
      { alignments := fun _ => none, activeLoadSegments := [] }
    IsActive before segments i d → i ∈ s.activeLoadSegments ∧ ∃ a, s.alignments i = some a := by
  induction before using reverseRecOn with
  | nil => exact fun h => absurd h.1 not_mem_nil
  | append_singleton before e ih =>
    dsimp only at ih ⊢
    intro hactive
    rw [foldl_concat]
    set s := before.foldl (segmentAlignmentEvent (elf builtIn) sections segments args sizes)
      { alignments := fun _ => none, activeLoadSegments := [] }
    by_cases he : e = .segmentStart i
    · subst he
      have hseg : isLoadSegment (elf builtIn) segments i = true := by
        rw [isLoadSegment, hactive.2.2, any_some]
        exact hload
      simp [segmentAlignmentEvent, hseg]
    · have hbefore : IsActive before segments i d := by
        refine ⟨?_, fun hmem => hactive.2.1 (mem_append_left _ hmem), hactive.2.2⟩
        rcases mem_append.mp hactive.1 with hmem | hmem
        · exact hmem
        · exact absurd (mem_singleton.mp hmem).symm he
      obtain ⟨hmem, a, ha⟩ := ih hbefore
      cases e with
      | setLocation _ => exact ⟨hmem, a, ha⟩
      | segmentEnd j =>
        have hne : i ≠ j := by
          rintro rfl
          exact hactive.2.1 (mem_append_right _ (mem_singleton.mpr rfl))
        exact ⟨mem_filter.mpr ⟨hmem, decide_eq_true hne⟩, a, ha⟩
      | segmentStart j =>
        have hne : i ≠ j := fun hij => he (hij ▸ rfl)
        simp only [segmentAlignmentEvent]
        split
        · exact ⟨mem_append_left _ hmem, a, (Function.update_of_ne hne _ _).trans ha⟩
        · exact ⟨hmem, a, ha⟩
      | sectionOf id =>
        refine ⟨hmem, a.larger (maxAlignment sections sizes id), ?_⟩
        simp only [segmentAlignmentEvent, if_pos hmem, ha, map_some]

/-- An alignment only grows. -/
theorem segmentAlignment_grows : ∀ {after : List OrderEvent}
    {s : SegmentAlignments} {a : Alignment}, s.alignments i = some a →
      ∃ a', (after.foldl (segmentAlignmentEvent (elf builtIn) sections segments args sizes)
        s).alignments i = some a' ∧ a.exponent ≤ a'.exponent
  | [], s, a, ha => ⟨a, ha, UInt8.le_refl _⟩
  | e :: after, s, a, ha => by
    have hstep : ∃ a', (segmentAlignmentEvent (elf builtIn) sections segments args sizes s
        e).alignments i = some a' ∧ a.exponent ≤ a'.exponent := by
      cases e with
      | setLocation _ => exact ⟨a, ha, UInt8.le_refl _⟩
      | segmentEnd _ => exact ⟨a, ha, UInt8.le_refl _⟩
      | segmentStart j =>
        refine ⟨a, ?_, UInt8.le_refl _⟩
        simp only [segmentAlignmentEvent]
        split
        · by_cases hij : i = j
          · subst hij
            simp [ha]
          · exact (Function.update_of_ne hij _ _).trans ha
        · exact ha
      | sectionOf id =>
        simp only [segmentAlignmentEvent, ha, map_some]
        split
        · exact ⟨_, rfl, Alignment.le_larger_left _ _⟩
        · exact ⟨_, rfl, UInt8.le_refl _⟩
    obtain ⟨a₁, ha₁, hle₁⟩ := hstep
    obtain ⟨a₂, ha₂, hle₂⟩ := segmentAlignment_grows ha₁
    exact ⟨a₂, ha₂, UInt8.le_trans hle₁ hle₂⟩

/-- **A LOAD segment is aligned as much as what is placed in it.** -/
theorem maxAlignment_le_segment {before after : List OrderEvent} {id : OutputSectionId}
    {d : ProgramSegmentDef} (hactive : IsActive before segments i d)
    (hload : d.isLoadable = true) :
    (maxAlignment sections sizes id).exponent
      ≤ ((computeSegmentAlignments (elf builtIn) sections segments args sizes
          (before ++ .sectionOf id :: after) i).getD args.loadableSegmentAlignment).exponent := by
  unfold computeSegmentAlignments
  rw [foldl_append, foldl_cons]
  set f := segmentAlignmentEvent (elf builtIn) sections segments args sizes
  set s := before.foldl f { alignments := fun _ => none, activeLoadSegments := [] }
  have htracked : i ∈ s.activeLoadSegments ∧ ∃ a, s.alignments i = some a :=
    segmentAlignment_tracked hload hactive
  obtain ⟨hmem, a, ha⟩ := htracked
  have hstep : (f s (.sectionOf id)).alignments i
      = some (a.larger (maxAlignment sections sizes id)) := by
    simp only [f, segmentAlignmentEvent, if_pos hmem, ha, map_some]
  obtain ⟨a', ha', hle⟩ : ∃ a', (after.foldl f (f s (.sectionOf id))).alignments i = some a' ∧
      (a.larger (maxAlignment sections sizes id)).exponent ≤ a'.exponent :=
    segmentAlignment_grows hstep
  rw [ha', getD_some]
  exact UInt8.le_trans (Alignment.le_larger_right _ _) hle

end

end Srs.Output
