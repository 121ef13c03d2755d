/-
# Segments in the output order

The events of an `OutputOrderBuilder` are a trace of spans (`Srs.Lib.Spans`): a segment is a span
and its definition is the span's label.  The invariant `Inv` says that the builder's array of
active segments is what is open in the trace.  It is kept by every step of the builder, and the
trace's rules then give what a reader of the order relies on: each segment starts once and ends
once behind its start, at most one segment of a definition is active at a time, and a primary
section stands in a segment of a definition exactly if it belongs there
(`output_order_well_nested`).
-/
import Srs.Lib.Spans
import Srs.Output.Order

namespace Srs.Output

open Spans List Option OrderEvent
open Srs.Dynamic (OutputKind)

variable {Attributes Def : Type}

/-- The events that open and close segments. -/
def segmentMarks : Marks OrderEvent where
  start := .segmentStart
  finish := .segmentEnd
  start_inj := segmentStart.inj
  finish_inj := segmentEnd.inj
  start_ne_finish _ _ := OrderEvent.noConfusion

/-! ## 1. The array of active segments -/

/-- The active segments with their definitions. -/
def activeSegments : List Def → List (Option ProgramSegmentId) → List (ProgramSegmentId × Def)
  | segmentDef :: defs, some id :: active => (id, segmentDef) :: activeSegments defs active
  | _ :: defs, none :: active => activeSegments defs active
  | _, _ => []

theorem def_mem_of_activeSegments {p : ProgramSegmentId × Def} :
    ∀ {defs : List Def} {active : List (Option ProgramSegmentId)},
      p ∈ activeSegments defs active → p.2 ∈ defs
  | [], _, h => by simp [activeSegments] at h
  | _ :: _, [], h => by simp [activeSegments] at h
  | _ :: _, none :: _, h => mem_cons_of_mem _ (def_mem_of_activeSegments h)
  | _ :: _, some _ :: _, h => by
    rcases mem_cons.mp h with rfl | h
    · exact mem_cons_self
    · exact mem_cons_of_mem _ (def_mem_of_activeSegments h)

/-- Each definition has one slot. -/
theorem activeSegments_nodup : ∀ {defs : List Def} (active : List (Option ProgramSegmentId)),
    defs.Nodup → (activeSegments defs active).Nodup
  | [], _, _ => nodup_nil
  | _ :: _, [], _ => nodup_nil
  | _ :: _, none :: active, h => activeSegments_nodup active (nodup_cons.mp h).2
  | segmentDef :: _, some id :: active, h => by
    refine nodup_cons.mpr ⟨?_, activeSegments_nodup active (nodup_cons.mp h).2⟩
    exact fun hmem => (nodup_cons.mp h).1 (def_mem_of_activeSegments hmem)

@[simp] theorem activeSegments_none : ∀ (defs : List Def) (active : List (Option ProgramSegmentId)),
    activeSegments defs (active.map fun _ => none) = []
  | [], _ => rfl
  | _ :: _, [] => rfl
  | _ :: defs, _ :: active => activeSegments_none defs active

@[simp] theorem activeSegments_replicate (defs : List Def) (n : Nat) :
    activeSegments defs (replicate n none) = [] := by
  have h := activeSegments_none defs (replicate n none)
  rwa [map_replicate] at h

/-- All active ids, when every slot has its definition. -/
theorem filterMap_active : ∀ {defs : List Def} {active : List (Option ProgramSegmentId)},
    active.length = defs.length →
      active.filterMap (·) = (activeSegments defs active).map (·.1)
  | [], active, h => by
    rw [length_eq_zero_iff.mp h]
    rfl
  | _ :: _, [], h => by simp at h
  | _ :: _, none :: _, h => by
    simpa [activeSegments] using filterMap_active (Nat.succ_inj.mp h)
  | _ :: _, some _ :: _, h => by
    simpa [activeSegments] using filterMap_active (Nat.succ_inj.mp h)

/-- A slot that is emptied. -/
theorem mem_activeSegments_set {p : ProgramSegmentId × Def} {d : Def} :
    ∀ {defs : List Def} {active : List (Option ProgramSegmentId)} {k : Nat},
      defs.Nodup → defs[k]? = some d → active.length = defs.length →
        (p ∈ activeSegments defs (active.set k none) ↔ p ∈ activeSegments defs active ∧ p.2 ≠ d)
  | [], _, _, _, hk, _ => by simp at hk
  | _ :: _, [], _, _, _, hlen => by simp at hlen
  | segmentDef :: defs, a :: active, 0, hnodup, hk, _ => by
    obtain rfl : segmentDef = d := by simpa using hk
    have hne : p ∈ activeSegments defs active → p.2 ≠ segmentDef := by
      rintro hp rfl
      exact (nodup_cons.mp hnodup).1 (def_mem_of_activeSegments hp)
    cases a with
    | none =>
      simp only [set_cons_zero, activeSegments]
      exact ⟨fun hp => ⟨hp, hne hp⟩, And.left⟩
    | some id =>
      simp only [set_cons_zero, activeSegments, mem_cons]
      constructor
      · exact fun hp => ⟨.inr hp, hne hp⟩
      · rintro ⟨rfl | hp, hd⟩
        · exact absurd rfl hd
        · exact hp
  | segmentDef :: defs, a :: active, k + 1, hnodup, hk, hlen => by
    have ih := mem_activeSegments_set (p := p) (nodup_cons.mp hnodup).2
      (by simpa using hk) (Nat.succ_inj.mp hlen)
    have hne : segmentDef ≠ d := by
      rintro rfl
      exact (nodup_cons.mp hnodup).1 (mem_of_getElem? (by simpa using hk))
    cases a with
    | none => simpa only [set_cons_succ, activeSegments] using ih
    | some id =>
      simp only [set_cons_succ, activeSegments, mem_cons, ih]
      constructor
      · rintro (rfl | hp)
        · exact ⟨.inl rfl, hne⟩
        · exact ⟨.inr hp.1, hp.2⟩
      · rintro ⟨rfl | hp, hd⟩
        · exact .inl rfl
        · exact .inr ⟨hp, hd⟩

variable {d : Def}

theorem mem_activeSegments_of_getElem? {id : ProgramSegmentId} :
    ∀ {defs : List Def} {active : List (Option ProgramSegmentId)} {k : Nat},
      defs[k]? = some d → active[k]? = some (some id) → (id, d) ∈ activeSegments defs active
  | [], _, _, hk, _ => by simp at hk
  | _ :: _, [], _, _, ha => by simp at ha
  | _ :: _, _ :: _, 0, hk, ha => by
    cases hk
    cases ha
    exact mem_cons_self
  | _ :: defs, a :: active, k + 1, hk, ha => by
    rw [getElem?_cons_succ] at hk ha
    have hmem := mem_activeSegments_of_getElem? hk ha
    cases a with
    | none => exact hmem
    | some _ => exact mem_cons_of_mem _ hmem

/-! ## 2. The loop over the definitions -/

theorem addSegment_eq_some {segments segments' : List Def} {id : ProgramSegmentId}
    (h : addSegment segments d = some (id, segments')) :
    id = segments.length ∧ segments' = segments ++ [d] := by
  unfold addSegment at h
  split at h
  · simp only [some.injEq, Prod.mk.injEq] at h
    exact ⟨h.1.symm, h.2.symm⟩
  · cases h

/-- What `switchSegments` does: `fresh` are the definitions of the segments that it starts. -/
structure Switched (shouldBeActive : Def → Bool) (defs : List Def)
    (active : List (Option ProgramSegmentId)) (segments : List Def) (s : SegmentSwitch Def)
    (fresh : List Def) : Prop where
  segments_eq : s.segments = segments ++ fresh
  start_eq : s.start = range' segments.length fresh.length
  stop_eq : s.stop = ((activeSegments defs active).filter fun p => !shouldBeActive p.2).map (·.1)
  length_eq : s.active.length = defs.length
  sublist : fresh.Sublist defs
  fresh_active : ∀ d ∈ fresh, shouldBeActive d = true
  fresh_inactive : ∀ d ∈ fresh, ∀ id, (id, d) ∉ activeSegments defs active
  mem_iff : ∀ p, p ∈ activeSegments defs s.active ↔
    (p ∈ activeSegments defs active ∧ shouldBeActive p.2 = true) ∨
      ∃ n, fresh[n]? = some p.2 ∧ p.1 = segments.length + n
  covers : ∀ d ∈ defs, shouldBeActive d = true → ∃ id, (id, d) ∈ activeSegments defs s.active

theorem switchSegments_spec {shouldBeActive : Def → Bool} :
    ∀ {defs : List Def} {active : List (Option ProgramSegmentId)} {segments : List Def}
      {s : SegmentSwitch Def}, defs.Nodup → active.length = defs.length →
        switchSegments shouldBeActive defs active segments = some s →
          ∃ fresh, Switched shouldBeActive defs active segments s fresh
  | [], active, segments, s, _, hlen, h => by
    obtain rfl := length_eq_zero_iff.mp hlen
    obtain rfl : _ = s := some.inj h
    exact ⟨[], by simp, rfl, rfl, rfl, Sublist.refl _, by simp, by simp, by simp [activeSegments],
      by simp⟩
  | _ :: _, [], _, _, _, hlen, _ => by simp at hlen
  | segmentDef :: defs, a :: active, segments, s, hnodup, hlen, h => by
    have hdefs := (nodup_cons.mp hnodup).2
    have hnot : ∀ (l : List (Option ProgramSegmentId)) id, (id, segmentDef) ∉ activeSegments defs l :=
      fun l id hmem => (nodup_cons.mp hnodup).1 (def_mem_of_activeSegments hmem)
    have hlen' := Nat.succ_inj.mp hlen
    unfold switchSegments at h
    split at h
    · -- stays inactive
      rename_i hinc
      obtain ⟨s', hs', rfl⟩ := map_eq_some_iff.mp h
      obtain ⟨fresh, hsw⟩ := switchSegments_spec hdefs hlen' hs'
      refine ⟨fresh, hsw.segments_eq, hsw.start_eq, hsw.stop_eq, by simp [hsw.length_eq],
        hsw.sublist.cons _, hsw.fresh_active, hsw.fresh_inactive, hsw.mem_iff, ?_⟩
      intro d hd hinc'
      rcases mem_cons.mp hd with rfl | hd
      · rw [hinc] at hinc'
        cases hinc'
      · exact hsw.covers d hd hinc'
    · -- stays active
      rename_i id hinc
      obtain ⟨s', hs', rfl⟩ := map_eq_some_iff.mp h
      obtain ⟨fresh, hsw⟩ := switchSegments_spec hdefs hlen' hs'
      refine ⟨fresh, hsw.segments_eq, hsw.start_eq, ?_, by simp [hsw.length_eq],
        hsw.sublist.cons _, hsw.fresh_active, ?_, ?_, ?_⟩
      · simp [activeSegments, hinc, hsw.stop_eq]
      · intro d hd id' hmem
        rcases mem_cons.mp hmem with heq | hmem
        · cases heq
          exact (nodup_cons.mp hnodup).1 (hsw.sublist.subset hd)
        · exact hsw.fresh_inactive d hd id' hmem
      · intro p
        simp only [activeSegments, mem_cons, hsw.mem_iff p]
        constructor
        · rintro (rfl | hp | hp)
          · exact .inl ⟨.inl rfl, hinc⟩
          · exact .inl ⟨.inr hp.1, hp.2⟩
          · exact .inr hp
        · rintro (⟨rfl | hp, hp'⟩ | hp)
          · exact .inl rfl
          · exact .inr (.inl ⟨hp, hp'⟩)
          · exact .inr (.inr hp)
      · intro d hd hinc'
        rcases mem_cons.mp hd with rfl | hd
        · exact ⟨id, mem_cons_self⟩
        · obtain ⟨id', hmem⟩ := hsw.covers d hd hinc'
          exact ⟨id', mem_cons_of_mem _ hmem⟩
    · -- starts
      rename_i hinc
      obtain ⟨⟨id, segments'⟩, hadd, h⟩ := bind_eq_some_iff.mp h
      obtain ⟨rfl, rfl⟩ := addSegment_eq_some hadd
      obtain ⟨s', hs', rfl⟩ := map_eq_some_iff.mp h
      obtain ⟨fresh, hsw⟩ := switchSegments_spec hdefs hlen' hs'
      refine ⟨segmentDef :: fresh, ?_, ?_, hsw.stop_eq, by simp [hsw.length_eq],
        hsw.sublist.cons_cons _, ?_, ?_, ?_, ?_⟩
      · simp [hsw.segments_eq]
      · simp [hsw.start_eq, range'_succ]
      · intro d hd
        rcases mem_cons.mp hd with rfl | hd
        · exact hinc
        · exact hsw.fresh_active d hd
      · intro d hd id'
        rcases mem_cons.mp hd with rfl | hd
        · exact hnot active id'
        · exact hsw.fresh_inactive d hd id'
      · intro p
        simp only [activeSegments, mem_cons, hsw.mem_iff p, length_append,
          length_singleton]
        constructor
        · rintro (rfl | hp | ⟨n, hn, hp⟩)
          · exact .inr ⟨0, rfl, rfl⟩
          · exact .inl hp
          · exact .inr ⟨n + 1, hn, by rw [hp, Nat.add_assoc, Nat.add_comm 1 n]⟩
        · rintro (hp | ⟨n, hn, hp⟩)
          · exact .inr (.inl hp)
          · cases n with
            | zero => exact .inl (Prod.ext hp (some.inj hn).symm)
            | succ n =>
              exact .inr (.inr ⟨n, hn, by rw [hp, Nat.add_assoc, Nat.add_comm 1 n]⟩)
      · intro d hd hinc'
        rcases mem_cons.mp hd with rfl | hd
        · exact ⟨_, mem_cons_self⟩
        · obtain ⟨id', hmem⟩ := hsw.covers d hd hinc'
          exact ⟨id', mem_cons_of_mem _ hmem⟩
    · -- ends
      rename_i id hinc
      obtain ⟨s', hs', rfl⟩ := map_eq_some_iff.mp h
      obtain ⟨fresh, hsw⟩ := switchSegments_spec hdefs hlen' hs'
      refine ⟨fresh, hsw.segments_eq, hsw.start_eq, ?_, by simp [hsw.length_eq],
        hsw.sublist.cons _, hsw.fresh_active, ?_, ?_, ?_⟩
      · simp [activeSegments, hinc, hsw.stop_eq]
      · intro d hd id' hmem
        rcases mem_cons.mp hmem with heq | hmem
        · cases heq
          exact (nodup_cons.mp hnodup).1 (hsw.sublist.subset hd)
        · exact hsw.fresh_inactive d hd id' hmem
      · intro p
        simp only [activeSegments, mem_cons, hsw.mem_iff p]
        constructor
        · rintro (hp | hp)
          · exact .inl ⟨.inr hp.1, hp.2⟩
          · exact .inr hp
        · rintro (⟨rfl | hp, hp'⟩ | hp)
          · rw [hinc] at hp'
            cases hp'
          · exact .inl ⟨hp, hp'⟩
          · exact .inr hp
      · intro d hd hinc'
        rcases mem_cons.mp hd with rfl | hd
        · rw [hinc] at hinc'
          cases hinc'
        · exact hsw.covers d hd hinc'

/-! ## 3. The invariant -/

/-- **The array of active segments is what is open in the events.** -/
structure Inv (platform : Platform Attributes Def) (b : OutputOrderBuilder Def) : Prop where
  length_eq : b.activeSegmentKinds.length = platform.programSegmentDefs.length
  segments_mem : ∀ d ∈ b.programSegments, d ∈ platform.programSegmentDefs
  trace : ∃ live, Trace segmentMarks b.events live b.programSegments ∧
    ∀ p, p ∈ live ↔ p ∈ activeSegments platform.programSegmentDefs b.activeSegmentKinds

namespace OutputOrderBuilder

variable {platform : Platform Attributes Def} {outputKind : OutputKind}
  {sections : OutputSections Attributes} {b b' : OutputOrderBuilder Def}

theorem new_inv (platform : Platform Attributes Def) : Inv platform (new platform) where
  length_eq := length_replicate
  segments_mem := by simp [new]
  trace := ⟨[], .empty, by simp [new]⟩

/-- The ids of the active segments are different from one another. -/
theorem activeIds_nodup (h : Inv platform b) :
    ((activeSegments platform.programSegmentDefs b.activeSegmentKinds).map (·.1)).Nodup := by
  obtain ⟨live, htrace, hlive⟩ := h.trace
  refine Nodup.map_on ?_ (activeSegments_nodup _ platform.programSegmentDefs_nodup)
  rintro ⟨i, d⟩ hp ⟨j, e⟩ hq (rfl : i = j)
  have hd := htrace.label_of_live ((hlive _).mpr hp)
  have he := htrace.label_of_live ((hlive _).mpr hq)
  rw [some.inj (hd.symm.trans he)]

/-- Ending the writable LOAD segment keeps the invariant and adds no section. -/
theorem endRwLoadSegment_inv (h : Inv platform b) :
    Inv platform (b.endRwLoadSegment platform) ∧
      (b.endRwLoadSegment platform).programSegments = b.programSegments ∧
      ∃ ends : List ProgramSegmentId,
        (b.endRwLoadSegment platform).events = b.events ++ ends.map .segmentEnd := by
  unfold endRwLoadSegment
  dsimp only
  split
  · rename_i id hslot
    obtain ⟨live, htrace, hlive⟩ := h.trace
    set k := platform.programSegmentDefs.findIdx _
    have hlt : k < platform.programSegmentDefs.length :=
      h.length_eq ▸ (List.getElem?_eq_some_iff.mp hslot).1
    have hdef : platform.programSegmentDefs[k]? = some platform.programSegmentDefs[k] :=
      getElem?_eq_getElem hlt
    have hmem : (id, platform.programSegmentDefs[k]) ∈ live := by
      rw [hlive]
      exact mem_activeSegments_of_getElem? hdef hslot
    refine ⟨⟨by simp [h.length_eq], h.segments_mem, _, htrace.finish hmem, ?_⟩, rfl, [id], rfl⟩
    intro p
    rw [mem_activeSegments_set platform.programSegmentDefs_nodup hdef h.length_eq, ← hlive,
      mem_filter, decide_eq_true_eq]
    refine and_congr_right fun hp => not_congr ⟨?_, ?_⟩
    · intro hid
      have hp' : (p.1, p.2) ∈ live := hp
      have hlabel := htrace.label_of_live hp'
      rw [hid, htrace.label_of_live hmem] at hlabel
      exact (some.inj hlabel).symm
    · intro hd
      have hp' : (p.1, p.2) ∈ live := hp
      rw [hd] at hp'
      exact htrace.label_inj hp' hmem
  · exact ⟨h, rfl, [], by simp⟩

/-- Events that neither open nor close a segment. -/
def IsNeutral (e : OrderEvent) : Prop :=
  (∀ id, e ≠ .segmentStart id) ∧ ∀ id, e ≠ .segmentEnd id

variable {live : List (ProgramSegmentId × Def)}

theorem trace_neutral {es more : List OrderEvent}
    {segments : List Def} (h : Trace segmentMarks es live segments)
    (hmore : ∀ e ∈ more, IsNeutral e) : Trace segmentMarks (es ++ more) live segments :=
  h.others (fun e he => (hmore e he).1) (fun e he => (hmore e he).2)

/-- The segments chosen by `drop` end. -/
theorem trace_stop (h : Inv platform b) (drop : Def → Bool) :
    ∃ live, Trace segmentMarks
        (b.events ++ (((activeSegments platform.programSegmentDefs b.activeSegmentKinds).filter
          fun p => drop p.2).map (·.1)).map .segmentEnd) live b.programSegments ∧
      ∀ p, p ∈ live ↔
        p ∈ activeSegments platform.programSegmentDefs b.activeSegmentKinds ∧ drop p.2 = false := by
  obtain ⟨live, htrace, hlive⟩ := h.trace
  set pairs := activeSegments platform.programSegmentDefs b.activeSegmentKinds
  set stop := (pairs.filter fun p => drop p.2).map (·.1) with hstop
  have hmem : ∀ i ∈ stop, ∃ k, (i, k) ∈ live := by
    intro i hi
    obtain ⟨p, hp, rfl⟩ := mem_map.mp hi
    exact ⟨p.2, (hlive p).mpr (mem_of_mem_filter hp)⟩
  have hnodup : stop.Nodup := (activeIds_nodup h).sublist (filter_sublist.map _)
  refine ⟨_, htrace.finishes hmem hnodup, ?_⟩
  intro p
  rw [mem_filter, decide_eq_true_eq, hlive]
  refine and_congr_right fun hp => ⟨?_, ?_⟩
  · intro hnot
    by_contra hdrop
    exact hnot (mem_map.mpr
      ⟨p, mem_filter.mpr ⟨hp, Bool.eq_true_of_not_eq_false hdrop⟩, rfl⟩)
  · intro hdrop hi
    obtain ⟨q, hq, hid⟩ := mem_map.mp hi
    obtain ⟨hq, hq'⟩ := mem_filter.mp hq
    have h1 := htrace.label_of_live (show (p.1, p.2) ∈ live from (hlive p).mpr hp)
    have h2 := htrace.label_of_live (show (q.1, q.2) ∈ live from (hlive q).mpr hq)
    have heq : q.2 = p.2 := some.inj (h2.symm.trans (hid ▸ h1))
    rw [heq, hdrop] at hq'
    cases hq'

/-- What `start_stop_segments_for_section` returns for the segments `b` has active. -/
structure StartStop (platform : Platform Attributes Def) (outputKind : OutputKind)
    (sections : OutputSections Attributes) (b : OutputOrderBuilder Def) (id : OutputSectionId)
    (s : SegmentSwitch Def) : Prop where
  length_eq : s.active.length = platform.programSegmentDefs.length
  segments_eq : ∃ fresh, s.segments = b.programSegments ++ fresh ∧
    fresh ⊆ platform.programSegmentDefs
  trace : ∀ between : List OrderEvent, (∀ e ∈ between, IsNeutral e) →
    ∃ live, Trace segmentMarks
        (b.events ++ s.stop.map .segmentEnd ++ between ++ s.start.map .segmentStart) live
        s.segments ∧
      ∀ p, p ∈ live ↔ p ∈ activeSegments platform.programSegmentDefs s.active
  placed : outputKind.isPartialObject = false → sections.IsPrimary id →
    ∀ d ∈ platform.programSegmentDefs,
      (∃ i, (i, d) ∈ activeSegments platform.programSegmentDefs s.active) ↔
        sections.shouldIncludeInSegment platform id d = true

theorem startStop_of_unchanged (h : Inv platform b) (id : OutputSectionId)
    (hskip : outputKind.isPartialObject = true ∨ ¬ sections.IsPrimary id) :
    StartStop platform outputKind sections b id
      { stop := [], start := [], active := b.activeSegmentKinds, segments := b.programSegments } where
  length_eq := h.length_eq
  segments_eq := ⟨[], by simp, nil_subset _⟩
  trace := by
    intro between hbetween
    obtain ⟨live, htrace, hlive⟩ := h.trace
    exact ⟨live, by simpa using trace_neutral htrace hbetween, hlive⟩
  placed := by
    intro hkind hprimary
    rcases hskip with hskip | hskip
    · rw [hkind] at hskip
      cases hskip
    · exact absurd hprimary hskip

variable {s : SegmentSwitch Def}

/-- The loop, after the segments chosen by `drop` have ended. -/
theorem startStop_of_switch (h : Inv platform b) (id : OutputSectionId) (drop : Def → Bool)
    {active : List (Option ProgramSegmentId)} {stop : List ProgramSegmentId}
    (hlen : active.length = platform.programSegmentDefs.length)
    (hs : switchSegments (sections.shouldIncludeInSegment platform id) platform.programSegmentDefs
      active b.programSegments = some s)
    (hstop : stop ++ s.stop =
      ((activeSegments platform.programSegmentDefs b.activeSegmentKinds).filter
        fun p => drop p.2).map (·.1))
    (hstays : ∀ p, (p ∈ activeSegments platform.programSegmentDefs active ∧
        sections.shouldIncludeInSegment platform id p.2 = true) ↔
      p ∈ activeSegments platform.programSegmentDefs b.activeSegmentKinds ∧ drop p.2 = false) :
    StartStop platform outputKind sections b id { s with stop := stop ++ s.stop } := by
  obtain ⟨fresh, hsw⟩ := switchSegments_spec platform.programSegmentDefs_nodup hlen hs
  refine ⟨hsw.length_eq, ⟨fresh, hsw.segments_eq, hsw.sublist.subset⟩, ?_, ?_⟩
  · intro between hbetween
    obtain ⟨live, htrace, hlive⟩ := trace_stop h drop
    rw [← hstop] at htrace
    have hfresh : ∀ d ∈ fresh, ∀ i, (i, d) ∉ live := by
      intro d hd i hi
      have hold := ((hstays (i, d)).mpr ((hlive _).mp hi)).1
      exact hsw.fresh_inactive d hd i hold
    obtain ⟨live', htrace', hlive'⟩ := (trace_neutral htrace hbetween).starts hfresh
      (platform.programSegmentDefs_nodup.sublist hsw.sublist)
    refine ⟨live', ?_, ?_⟩
    · dsimp only
      rw [hsw.start_eq, hsw.segments_eq]
      exact htrace'
    · intro p
      rw [hlive', hsw.mem_iff, hlive, hstays]
  · intro _ _ d hd
    constructor
    · rintro ⟨i, hi⟩
      rcases (hsw.mem_iff _).mp hi with ⟨_, hinc⟩ | ⟨n, hn, _⟩
      · exact hinc
      · exact hsw.fresh_active d (mem_of_getElem? hn)
    · exact hsw.covers d hd

variable {id : OutputSectionId}

theorem startStopSegmentsForSection_spec (h : Inv platform b)
    (hs : b.startStopSegmentsForSection platform outputKind sections id = some s) :
    StartStop platform outputKind sections b id s := by
  unfold startStopSegmentsForSection at hs
  split at hs
  · rename_i hkind
    cases hs
    exact startStop_of_unchanged h id (.inl hkind)
  · split at hs
    · rename_i hsecondary
      cases hs
      refine startStop_of_unchanged h id (.inr ?_)
      intro hprimary
      rw [hprimary] at hsecondary
      cases hsecondary
    · dsimp only at hs
      obtain ⟨s, hsw, rfl⟩ := map_eq_some_iff.mp hs
      by_cases hloc : (sections.infos id).location.isSome = true
      · -- all active segments end, so the loop has none left to end
        rw [if_pos hloc] at hsw ⊢
        have hlen : (b.activeSegmentKinds.map fun _ => (none : Option ProgramSegmentId)).length
            = platform.programSegmentDefs.length := by
          rw [length_map, h.length_eq]
        refine startStop_of_switch h id (fun _ => true) hlen hsw ?_ ?_
        · obtain ⟨fresh, hspec⟩ := switchSegments_spec platform.programSegmentDefs_nodup hlen hsw
          rw [hspec.stop_eq, filterMap_active h.length_eq]
          simp
        · simp
      · rw [if_neg hloc] at hsw ⊢
        refine startStop_of_switch h id
          (fun d => !sections.shouldIncludeInSegment platform id d) h.length_eq hsw ?_ ?_
        · obtain ⟨fresh, hspec⟩ :=
            switchSegments_spec platform.programSegmentDefs_nodup h.length_eq hsw
          rw [hspec.stop_eq, nil_append]
        · simp

/-! ## 4. One section -/

/-- A segment of definition `d` that has started and not ended in `events`. -/
def IsActive (events : List OrderEvent) (segments : List Def) (id : ProgramSegmentId) (d : Def) :
    Prop :=
  .segmentStart id ∈ events ∧ .segmentEnd id ∉ events ∧ segments[id]? = some d

/-- The section's own event stands where exactly the segments that include it are active. -/
def IsPlaced (platform : Platform Attributes Def) (sections : OutputSections Attributes)
    (before : List OrderEvent) (segments : List Def) (id : OutputSectionId) : Prop :=
  ∀ d ∈ platform.programSegmentDefs, (∃ i, IsActive before segments i d) ↔
    sections.shouldIncludeInSegment platform id d = true

/-- The events of one primary section: ends and a location, starts, the section itself and the
secondary sections. -/
structure Chunk where
  quiet : List OrderEvent
  starts : List ProgramSegmentId
  id : OutputSectionId

namespace Chunk

/-- What comes before the section. -/
def before (c : Chunk) : List OrderEvent := c.quiet ++ c.starts.map .segmentStart

def events (sections : OutputSections Attributes) (c : Chunk) : List OrderEvent :=
  c.before ++ .sectionOf c.id :: secondaryEvents sections c.id

/-- Nothing else is in front of the starts. -/
def IsQuiet (platform : Platform Attributes Def) (sections : OutputSections Attributes)
    (c : Chunk) : Prop :=
  ∀ e ∈ c.quiet, (∃ id, e = .segmentEnd id) ∨ e ∈ locationEvents platform sections c.id

end Chunk

/-- What `add_section` appends. -/
structure Added (platform : Platform Attributes Def) (outputKind : OutputKind)
    (sections : OutputSections Attributes) (b b' : OutputOrderBuilder Def) (c : Chunk) : Prop where
  inv : Inv platform b'
  extends_segments : b.programSegments <+: b'.programSegments
  events_eq : b'.events = b.events ++ c.events sections
  quiet : c.IsQuiet platform sections
  placed : outputKind.isPartialObject = false → sections.IsPrimary c.id →
    IsPlaced platform sections (b.events ++ c.before) b'.programSegments c.id

variable {e : OrderEvent}

theorem mem_secondaryEvents
    (he : e ∈ secondaryEvents sections id) :
    ∃ sid, e = .sectionOf sid ∧ ¬ sections.IsPrimary sid := by
  obtain ⟨⟨priority, sid⟩, hmem, rfl⟩ := mem_map.mp he
  refine ⟨sid, rfl, ?_⟩
  rw [mem_insertionSort] at hmem
  obtain ⟨sid', hsid, heq⟩ := mem_map.mp hmem
  obtain rfl : sid' = sid := congrArg Prod.snd heq
  have htarget := of_decide_eq_true (mem_filter.mp hsid).2
  intro hprimary
  rw [OutputSections.IsPrimary, htarget] at hprimary
  cases hprimary

theorem mem_locationEvents
    (he : e ∈ locationEvents platform sections id) : ∃ address, e = .setLocation address := by
  unfold locationEvents at he
  split at he
  · split at he
    · exact ⟨_, mem_singleton.mp he⟩
    · cases he
  · cases he

theorem isNeutral_sectionOf (id : OutputSectionId) : IsNeutral (.sectionOf id) :=
  ⟨fun _ => OrderEvent.noConfusion, fun _ => OrderEvent.noConfusion⟩

theorem isNeutral_setLocation (address : Nat) : IsNeutral (.setLocation address) :=
  ⟨fun _ => OrderEvent.noConfusion, fun _ => OrderEvent.noConfusion⟩

theorem Chunk.IsQuiet.no_section {c : Chunk} (h : c.IsQuiet platform sections)
    (id : OutputSectionId) : .sectionOf id ∉ c.before := by
  intro hmem
  rcases mem_append.mp hmem with hmem | hmem
  · rcases h _ hmem with ⟨_, heq⟩ | hloc
    · cases heq
    · obtain ⟨_, heq⟩ := mem_locationEvents hloc
      cases heq
  · obtain ⟨_, _, heq⟩ := mem_map.mp hmem
    cases heq

theorem addSection_spec (h : Inv platform b)
    (hadd : b.addSection platform outputKind sections id = some b') :
    ∃ c, c.id = id ∧ Added platform outputKind sections b b' c := by
  unfold addSection at hadd
  dsimp only at hadd
  -- the builder after the writable LOAD segment may have ended
  have hcut : ∃ b₁, Inv platform b₁ ∧ b₁.programSegments = b.programSegments ∧
      (∃ ends : List ProgramSegmentId, b₁.events = b.events ++ ends.map .segmentEnd) ∧
      (if b.shouldEndCurrentRwSegment platform sections id then b.endRwLoadSegment platform
        else b) = b₁ := by
    split
    · obtain ⟨hinv, hseg, hev⟩ := endRwLoadSegment_inv h
      exact ⟨_, hinv, hseg, hev, rfl⟩
    · exact ⟨b, h, rfl, ⟨[], by simp⟩, rfl⟩
  obtain ⟨b₁, h₁, hseg₁, ⟨ends, hev₁⟩, heq₁⟩ := hcut
  rw [heq₁] at hadd
  obtain ⟨s, hs, rfl⟩ := map_eq_some_iff.mp hadd
  have hspec := startStopSegmentsForSection_spec h₁ hs
  have hneutral : ∀ e ∈ locationEvents platform sections id, IsNeutral e := by
    intro e he
    obtain ⟨address, rfl⟩ := mem_locationEvents he
    exact isNeutral_setLocation address
  obtain ⟨live, htrace, hlive⟩ := hspec.trace _ hneutral
  obtain ⟨fresh, hfresh, hsub⟩ := hspec.segments_eq
  have hsegments : ∀ d ∈ s.segments, d ∈ platform.programSegmentDefs := by
    intro d hd
    rw [hfresh] at hd
    rcases mem_append.mp hd with hd | hd
    · exact h₁.segments_mem d hd
    · exact hsub hd
  refine ⟨⟨ends.map .segmentEnd ++ s.stop.map .segmentEnd ++ locationEvents platform sections id,
      s.start, id⟩, rfl,
    ⟨hspec.length_eq, hsegments, live, ?_, hlive⟩, ⟨fresh, by rw [hfresh, hseg₁]⟩, ?_, ?_, ?_⟩
  · refine trace_neutral (trace_neutral htrace ?_) ?_
    · intro e he
      rw [mem_singleton.mp he]
      exact isNeutral_sectionOf id
    · intro e he
      obtain ⟨sid, rfl, _⟩ := mem_secondaryEvents he
      exact isNeutral_sectionOf sid
  · simp [hev₁, Chunk.events, Chunk.before]
  · intro e he
    rcases mem_append.mp he with he | he
    · rcases mem_append.mp he with he | he <;> obtain ⟨i, _, rfl⟩ := mem_map.mp he <;>
        exact .inl ⟨i, rfl⟩
    · exact .inr he
  · intro hkind hprimary d hd
    rw [← hspec.placed hkind hprimary d hd]
    refine exists_congr fun i => ?_
    rw [← hlive, htrace.mem_live_iff, hev₁]
    simp only [IsActive, segmentMarks, Chunk.before, List.append_assoc]

/-! ## 5. Whole runs -/

/-- Where an item of a concatenation stands. -/
theorem split_append {α : Type} {pre post l₁ l₂ : List α} {x : α}
    (h : l₁ ++ l₂ = pre ++ x :: post) :
    (∃ post', l₁ = pre ++ x :: post') ∨ ∃ pre', pre = l₁ ++ pre' ∧ l₂ = pre' ++ x :: post := by
  rcases append_eq_append_iff.mp h with ⟨m, hpre, hl₂⟩ | ⟨m, hl₁, hpost⟩
  · exact .inr ⟨m, hpre, hl₂⟩
  · cases m with
    | nil => exact .inr ⟨[], by simpa using hl₁.symm, by simpa using hpost.symm⟩
    | cons y m =>
      cases hpost
      exact .inl ⟨m, hl₁⟩

variable {segments segments' : List Def}

/-- Segments that are added later do not change which of the earlier ones are active. -/
theorem isActive_extend {events before : List OrderEvent} (h : Trace segmentMarks events live segments)
    (hpre : before <+: events) (hseg : segments <+: segments') (id : ProgramSegmentId) (d : Def) :
    IsActive before segments' id d ↔ IsActive before segments id d := by
  refine and_congr_right fun hstart => and_congr_right fun _ => ?_
  have hlt : id < segments.length := (h.start_mem_iff id).mp (hpre.subset hstart)
  obtain ⟨more, rfl⟩ := hseg
  rw [getElem?_append_left hlt]

/-- Every primary section of the events so far is placed. -/
def SectionsPlaced (platform : Platform Attributes Def) (sections : OutputSections Attributes)
    (events : List OrderEvent) (segments : List Def) : Prop :=
  ∀ before id after, events = before ++ .sectionOf id :: after → sections.IsPrimary id →
    IsPlaced platform sections before segments id

/-- Events without sections can follow. -/
theorem SectionsPlaced.append {events more : List OrderEvent}
    (h : SectionsPlaced platform sections events segments)
    (htrace : Trace segmentMarks events live segments) (hseg : segments <+: segments')
    (hmore : ∀ id, .sectionOf id ∉ more) :
    SectionsPlaced platform sections (events ++ more) segments' := by
  intro before id after heq hprimary d hd
  rcases split_append heq with ⟨after', rfl⟩ | ⟨before', _, rfl⟩
  · rw [← h before id after' rfl hprimary d hd]
    exact exists_congr fun i => isActive_extend htrace (prefix_append _ _) hseg i d
  · exact absurd (mem_append_right before' mem_cons_self) (hmore id)

theorem sectionsPlaced_step (h : Inv platform b)
    (hplaced : SectionsPlaced platform sections b.events b.programSegments)
    (hkind : outputKind.isPartialObject = false) {c : Chunk}
    (hadd : Added platform outputKind sections b b' c) :
    SectionsPlaced platform sections b'.events b'.programSegments := by
  obtain ⟨live, htrace, _⟩ := h.trace
  have hold := hplaced.append htrace hadd.extends_segments hadd.quiet.no_section
  rw [hadd.events_eq, Chunk.events, ← List.append_assoc]
  intro before s after heq hprimary
  rcases split_append heq with ⟨after', hhead⟩ | ⟨before', rfl, htail⟩
  · exact hold before s after' hhead hprimary
  · cases before' with
    | nil =>
      obtain ⟨hhead, _⟩ := List.cons.inj htail
      cases hhead
      rw [append_nil]
      exact hadd.placed hkind hprimary
    | cons e before' =>
      -- the sections that follow are secondary ones
      have hmem : .sectionOf s ∈ secondaryEvents sections c.id := by
        rw [(List.cons.inj htail).2]
        exact mem_append_right _ mem_cons_self
      obtain ⟨sid, hsid, hnot⟩ := mem_secondaryEvents hmem
      cases hsid
      exact absurd hprimary hnot

theorem addSections_spec : ∀ {ids : List OutputSectionId} {b b' : OutputOrderBuilder Def},
    Inv platform b → addSections platform outputKind sections b ids = some b' →
      Inv platform b' ∧
        (outputKind.isPartialObject = false →
          SectionsPlaced platform sections b.events b.programSegments →
            SectionsPlaced platform sections b'.events b'.programSegments) ∧
        ∃ chunks : List Chunk, chunks.map Chunk.id = ids ∧
          (∀ c ∈ chunks, c.IsQuiet platform sections) ∧
          b'.events = b.events ++ chunks.flatMap (Chunk.events sections)
  | [], b, b', h, hrun => by
    obtain rfl : b = b' := some.inj hrun
    exact ⟨h, fun _ hplaced => hplaced, [], rfl, by simp, by simp⟩
  | id :: ids, b, b', h, hrun => by
    obtain ⟨b₁, hadd, hrest⟩ := bind_eq_some_iff.mp hrun
    obtain ⟨c, hid, hspec⟩ := addSection_spec h hadd
    obtain ⟨hinv, hplaced, chunks, hids, hquiet, heq⟩ := addSections_spec hspec.inv hrest
    refine ⟨hinv, fun hkind h₀ => hplaced hkind (sectionsPlaced_step h h₀ hkind hspec),
      c :: chunks, by rw [map_cons, hid, hids], ?_, ?_⟩
    · intro c' hc'
      rcases mem_cons.mp hc' with rfl | hc'
      · exact hspec.quiet
      · exact hquiet c' hc'
    · rw [heq, hspec.events_eq, flatMap_cons, List.append_assoc]

/-! ## 6. The end of the order -/

/-- What follows the sections: ends of segments and segments without content. -/
def IsTail (unconditional : List Def) (segments : List Def) (more : List OrderEvent) : Prop :=
  ∀ e ∈ more, (∃ id, e = .segmentEnd id) ∨
    ∃ id, e = .segmentStart id ∧ ∃ d ∈ unconditional, segments[id]? = some d

structure Finished (unconditional : List Def) (events : List OrderEvent) (segments : List Def)
    (events' : List OrderEvent) (segments' : List Def) : Prop where
  extends_segments : segments <+: segments'
  extends_events : ∃ more, events' = events ++ more ∧ IsTail unconditional segments' more
  segments_mem : ∀ d ∈ segments', d ∈ segments ∨ d ∈ unconditional
  trace : Trace segmentMarks events' [] segments'

theorem IsTail.no_section {unconditional segments : List Def} {more : List OrderEvent}
    (h : IsTail unconditional segments more) (id : OutputSectionId) : .sectionOf id ∉ more := by
  intro hmem
  rcases h _ hmem with ⟨_, heq⟩ | ⟨_, heq, _⟩ <;> cases heq

theorem addUnconditional_spec {unconditional : List Def} : ∀ {defs : List Def}
    {b b' : OutputOrderBuilder Def}, defs ⊆ unconditional →
      Trace segmentMarks b.events [] b.programSegments → addUnconditional defs b = some b' →
        Finished unconditional b.events b.programSegments b'.events b'.programSegments
  | [], b, b', _, h, hrun => by
    obtain rfl : b = b' := some.inj hrun
    exact ⟨prefix_refl _, ⟨[], by simp, by simp [IsTail]⟩, fun _ => .inl, h⟩
  | d :: defs, b, b', hsub, h, hrun => by
    obtain ⟨⟨id, segments⟩, hadd, hrest⟩ := bind_eq_some_iff.mp hrun
    obtain ⟨rfl, rfl⟩ := addSegment_eq_some hadd
    have hboth : Trace segmentMarks
        (b.events ++ [.segmentStart b.programSegments.length]
          ++ [.segmentEnd b.programSegments.length])
        ([(b.programSegments.length, d)].filter (·.1 ≠ b.programSegments.length))
        (b.programSegments ++ [d]) :=
      (h.start (k := d) (by simp)).finish mem_cons_self
    obtain ⟨hseg, ⟨more, hmore, htail⟩, hmem, htrace⟩ :=
      addUnconditional_spec (subset_of_cons_subset hsub) (by simpa using hboth) hrest
    refine ⟨(prefix_append _ _).trans hseg, ⟨_, by rw [hmore, List.append_assoc], ?_⟩, ?_,
      htrace⟩
    · intro e he
      simp only [cons_append, nil_append, mem_cons] at he
      rcases he with rfl | rfl | he
      · refine .inr ⟨_, rfl, d, hsub mem_cons_self, ?_⟩
        obtain ⟨rest, hrest⟩ := hseg
        rw [← hrest, List.append_assoc]
        simp
      · exact .inl ⟨_, rfl⟩
      · exact htail e he
    · intro d' hd'
      rcases hmem d' hd' with hd' | hd'
      · rcases mem_append.mp hd' with hd' | hd'
        · exact .inl hd'
        · exact .inr (mem_singleton.mp hd' ▸ hsub mem_cons_self)
      · exact .inr hd'

theorem build_spec (h : Inv platform b) {events : List OrderEvent} {segments : List Def}
    (hbuild : build platform outputKind b = some (events, segments)) :
    Finished platform.unconditionalSegmentDefs b.events b.programSegments events segments := by
  obtain ⟨b', hrun, heq⟩ := map_eq_some_iff.mp hbuild
  cases heq
  obtain ⟨live, htrace, hlive⟩ := trace_stop h (fun _ => true)
  obtain rfl : live = [] := eq_nil_iff_forall_not_mem.mpr fun p hp => by
    have := ((hlive p).mp hp).2
    cases this
  rw [filter_eq_self.mpr (fun _ _ => rfl), ← filterMap_active h.length_eq] at htrace
  have hends : ∀ e ∈ (b.activeSegmentKinds.filterMap (·)).map segmentEnd,
      ∃ id, e = .segmentEnd id := by
    intro e he
    obtain ⟨id, _, rfl⟩ := mem_map.mp he
    exact ⟨id, rfl⟩
  split at hrun
  · cases hrun
    exact ⟨prefix_refl _, ⟨_, rfl, fun e he => .inl (hends e he)⟩, fun _ => .inl, htrace⟩
  · obtain ⟨hseg, ⟨more, hmore, htail⟩, hmem, htrace'⟩ :=
      addUnconditional_spec (List.Subset.refl _) htrace hrun
    refine ⟨hseg, ⟨_, hmore.trans (List.append_assoc _ _ _), ?_⟩, hmem, htrace'⟩
    intro e he
    rcases mem_append.mp he with he | he
    · exact .inl (hends e he)
    · exact htail e he

end OutputOrderBuilder

/-! ## 7. The built order -/

open OutputOrderBuilder

/-- What is known of a built order. -/
structure Built (platform : Platform Attributes Def) (outputKind : OutputKind)
    (sections : OutputSections Attributes) (ids : List OutputSectionId)
    (events : List OrderEvent) (segments : List Def) : Prop where
  trace : Trace segmentMarks events [] segments
  segments_mem : ∀ d ∈ segments,
    d ∈ platform.programSegmentDefs ∨ d ∈ platform.unconditionalSegmentDefs
  placed : outputKind.isPartialObject = false → SectionsPlaced platform sections events segments
  shape : ∃ (chunks : List Chunk) (more : List OrderEvent), chunks.map Chunk.id = ids ∧
    (∀ c ∈ chunks, c.IsQuiet platform sections) ∧
    events = chunks.flatMap (Chunk.events sections) ++ more ∧
    IsTail platform.unconditionalSegmentDefs segments more

variable {ids : List OutputSectionId} {events : List OrderEvent}

theorem buildOutputOrder_spec {platform : Platform Attributes Def} {outputKind : OutputKind}
    {sections : OutputSections Attributes} {segments : List Def}
    (h : buildOutputOrder platform outputKind sections ids = some (events, segments)) :
    Built platform outputKind sections ids events segments := by
  obtain ⟨b, hrun, hbuild⟩ := bind_eq_some_iff.mp h
  obtain ⟨hinv, hplaced, chunks, hids, hquiet, heq⟩ :=
    addSections_spec (new_inv platform) hrun
  obtain ⟨hseg, ⟨more, rfl, htail⟩, hmem, htrace⟩ := build_spec hinv hbuild
  refine ⟨htrace, ?_, ?_, chunks, more, hids, hquiet, ?_, htail⟩
  · intro d hd
    exact (hmem d hd).imp_left (hinv.segments_mem d)
  · intro hkind
    have hstart : SectionsPlaced platform sections (new platform).events
        (new platform).programSegments := by
      intro before id after heq
      simp [new] at heq
    obtain ⟨live, hlive, _⟩ := hinv.trace
    exact (hplaced hkind hstart).append hlive hseg htail.no_section
  · rw [heq]
    simp [new]

/-- One active segment a definition. -/
theorem Built.isActive_inj {platform : Platform Attributes Def} {outputKind : OutputKind}
    {sections : OutputSections Attributes} {segments : List Def}
    (h : Built platform outputKind sections ids events segments) {before : List OrderEvent}
    (hbefore : before <+: events) {i j : ProgramSegmentId}
    (hi : IsActive before segments i d) (hj : IsActive before segments j d) : i = j := by
  obtain ⟨live, labels, htrace, hlabels⟩ := h.trace.of_prefix hbefore
  have hlive : ∀ k, IsActive before segments k d → (k, d) ∈ live := by
    intro k hk
    exact (htrace.mem_live_iff k d).mpr
      ((isActive_extend htrace (prefix_refl _) hlabels k d).mp hk)
  exact htrace.label_inj (hlive i hi) (hlive j hj)

/-- **The segments of a built order are well nested.** Each segment starts once and ends once,
behind its start; at most one segment of a definition is active at any point; and, unless a partial
object is linked, a primary section stands in an active segment of a definition exactly if it is to
be included in it. -/
theorem output_order_well_nested (platform : Platform Attributes Def) (outputKind : OutputKind)
    (sections : OutputSections Attributes) (ids : List OutputSectionId)
    (events : List OrderEvent) (segments : List Def)
    (h : buildOutputOrder platform outputKind sections ids = some (events, segments)) :
    (∀ id, .segmentStart id ∈ events →
      events.count (.segmentStart id) = 1 ∧ events.count (.segmentEnd id) = 1 ∧
        ∃ before inside after,
          events = before ++ .segmentStart id :: inside ++ .segmentEnd id :: after) ∧
    (∀ before, before <+: events → ∀ i j d,
      IsActive before segments i d → IsActive before segments j d → i = j) ∧
    (outputKind.isPartialObject = false →
      ∀ before id after, events = before ++ .sectionOf id :: after → sections.IsPrimary id →
        ∀ d ∈ platform.programSegmentDefs, (∃ i, IsActive before segments i d) ↔
          sections.shouldIncludeInSegment platform id d = true) := by
  have hbuilt := buildOutputOrder_spec h
  refine ⟨?_, ?_, hbuilt.placed⟩
  · intro id hstart
    obtain ⟨before, inside, after, heq, hall⟩ := (hbuilt.trace.closed hstart).split
    have hothers : ∀ e ∈ before ++ inside ++ after,
        e ≠ .segmentStart id ∧ e ≠ .segmentEnd id := hall
    have hs : (before ++ inside ++ after).count (.segmentStart id) = 0 :=
      count_eq_zero.mpr fun hmem => (hothers _ hmem).1 rfl
    have he : (before ++ inside ++ after).count (.segmentEnd id) = 0 :=
      count_eq_zero.mpr fun hmem => (hothers _ hmem).2 rfl
    simp only [count_append] at hs he
    refine ⟨?_, ?_, before, inside, after, heq⟩
    · rw [heq]
      simp [segmentMarks]
      omega
    · rw [heq]
      simp [segmentMarks]
      omega
  · exact fun before hbefore i j d => hbuilt.isActive_inj hbefore

/-- A read-only section, a RELRO section and a writable one. -/
def relroSections : OutputSections SectionAttributes where
  baseAddress := 0
  numSections := 3
  infos id :=
    { kind := .primary
      sectionAttributes := ⟨⟨true, id ≠ 0, false, false⟩, .other 1⟩
      minAlignment := .minimal
      location := none
      secondaryOrder := none }

/-- Section 1 is the RELRO one. -/
def relroPlatform : Platform SectionAttributes ProgramSegmentDef :=
  elf fun id => if id = 1 then some ⟨true, none⟩ else none

/-- Their order: the end of the RELRO segment cuts the writable LOAD segment in two. -/
def relroOrder : List OrderEvent := [
  .segmentStart 0, .sectionOf 0,
  .segmentEnd 0, .segmentStart 1, .segmentStart 2, .sectionOf 1,
  .segmentEnd 1, .segmentEnd 2, .segmentStart 3, .sectionOf 2,
  .segmentEnd 3, .segmentStart 4, .segmentEnd 4]

theorem relroOrder_well_nested :
    relroOrder.count (.segmentStart 1) = 1 ∧ relroOrder.count (.segmentEnd 1) = 1 ∧
      ∃ before inside after,
        relroOrder = before ++ .segmentStart 1 :: inside ++ .segmentEnd 1 :: after :=
  (output_order_well_nested relroPlatform .sharedObject relroSections [0, 1, 2] relroOrder
    [⟨.load, readable⟩, ⟨.load, { readable with writable := true }⟩, ⟨.gnuRelro, readable⟩,
      ⟨.load, { readable with writable := true }⟩, STACK_SEGMENT_DEF] (by decide)).1 1 (by decide)

end Srs.Output
