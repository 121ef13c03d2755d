/-
# Spans in a stream of events

A stream of events opens and closes spans.  Each span has a number, given out in order, and a
label; at most one span of a label is open at a time, and a span that is closed is never opened
again.  `Trace` is the streams that keep these rules, with the spans that are open at the end and
the labels of all spans so far.

A producer of events shows that what it appends extends the trace.  What a reader of the stream
gets is `Trace.live_iff` (a span is open where its start has been seen and its end has not),
`Trace.label_inj` (one open span a label) and `Trace.closed` (a span that is not open at the end
has one start and, behind it, one end).  All three hold at every prefix (`Trace.of_prefix`).
-/
import Mathlib.Data.UInt

namespace Srs.Spans

open List

/-- The events that open and close spans, by the span's number. -/
structure Marks (ε : Type) where
  start : Nat → ε
  finish : Nat → ε
  start_inj : ∀ {i j}, start i = start j → i = j
  finish_inj : ∀ {i j}, finish i = finish j → i = j
  start_ne_finish : ∀ i j, start i ≠ finish j

variable {ε κ : Type} {m : Marks ε}

/-- A stream, the spans open at its end and the labels of all its spans. -/
inductive Trace (m : Marks ε) : List ε → List (Nat × κ) → List κ → Prop
  | empty : Trace m [] [] []
  | other {es live labels e} (h : Trace m es live labels) (hs : ∀ i, e ≠ m.start i)
      (hf : ∀ i, e ≠ m.finish i) : Trace m (es ++ [e]) live labels
  | start {es live labels k} (h : Trace m es live labels) (hk : ∀ i, (i, k) ∉ live) :
      Trace m (es ++ [m.start labels.length]) ((labels.length, k) :: live) (labels ++ [k])
  | finish {es live labels i k} (h : Trace m es live labels) (hi : (i, k) ∈ live) :
      Trace m (es ++ [m.finish i]) (live.filter (·.1 ≠ i)) labels

namespace Trace

variable {es : List ε} {live : List (Nat × κ)} {labels : List κ}

/-! ## 1. The spans that are open -/

section

variable (h : Trace m es live labels)
include h

/-- An open span has the label that it was opened with. -/
theorem label_of_live :
    ∀ {i : Nat} {k : κ}, (i, k) ∈ live → labels[i]? = some k := by
  induction h with
  | empty => intro i k hi; cases hi
  | other _ _ _ ih => exact ih
  | @start es live labels k _ _ ih =>
    intro i k' hi
    rcases mem_cons.mp hi with heq | hi
    · cases heq
      exact getElem?_concat_length
    · have hlab := ih hi
      rw [getElem?_append_left (List.getElem?_eq_some_iff.mp hlab).1]
      exact hlab
  | finish _ _ ih => exact fun hi => ih (mem_of_mem_filter hi)

variable {i : Nat}

theorem lt_of_live {k : κ} (hi : (i, k) ∈ live) :
    i < labels.length :=
  (List.getElem?_eq_some_iff.mp (h.label_of_live hi)).1

/-- **One open span a label.** -/
theorem label_inj :
    ∀ {i j : Nat} {k : κ}, (i, k) ∈ live → (j, k) ∈ live → i = j := by
  induction h with
  | empty => intro i j k hi; cases hi
  | other _ _ _ ih => exact ih
  | @start es live labels k h hk ih =>
    intro i j k' hi hj
    rcases mem_cons.mp hi with hi | hi <;> rcases mem_cons.mp hj with hj | hj
    · cases hi; cases hj; rfl
    · cases hi; exact absurd hj (hk j)
    · cases hj; exact absurd hi (hk i)
    · exact ih hi hj
  | finish _ _ ih => exact fun hi hj => ih (mem_of_mem_filter hi) (mem_of_mem_filter hj)

/-- The spans that were started are those with a label. -/
theorem start_mem_iff (i : Nat) :
    m.start i ∈ es ↔ i < labels.length := by
  induction h with
  | empty => simp
  | other _ hs _ ih =>
    simp only [mem_append, mem_singleton, ih, or_iff_left_iff_imp]
    exact fun heq => absurd heq.symm (hs i)
  | @start es live labels k _ _ ih =>
    simp only [mem_append, mem_singleton, ih, length_append, length_singleton]
    constructor
    · rintro (hlt | heq)
      · omega
      · have := m.start_inj heq
        omega
    · intro hlt
      rcases Nat.lt_succ_iff_lt_or_eq.mp hlt with hlt | rfl
      · exact .inl hlt
      · exact .inr rfl
  | @finish es live labels j k _ _ ih =>
    simp only [mem_append, mem_singleton, ih, or_iff_left_iff_imp]
    exact fun heq => absurd heq (m.start_ne_finish i j)

/-- Only spans that were started are closed. -/
theorem lt_of_finish_mem (hi : m.finish i ∈ es) :
    i < labels.length := by
  induction h with
  | empty => cases hi
  | other _ _ hf ih =>
    rcases mem_append.mp hi with hi | hi
    · exact ih hi
    · exact absurd (mem_singleton.mp hi).symm (hf i)
  | start _ _ ih =>
    rcases mem_append.mp hi with hi | hi
    · rw [length_append]
      exact Nat.lt_add_right _ (ih hi)
    · exact absurd (mem_singleton.mp hi).symm (m.start_ne_finish _ i)
  | finish h hlive ih =>
    rcases mem_append.mp hi with hi | hi
    · exact ih hi
    · obtain rfl := m.finish_inj (mem_singleton.mp hi)
      exact h.lt_of_live hlive

/-- **A span is open where its start has been seen and its end has not.** -/
theorem live_iff (i : Nat) :
    (∃ k, (i, k) ∈ live) ↔ m.start i ∈ es ∧ m.finish i ∉ es := by
  induction h with
  | empty => simp
  | @other es live labels e _ hs hf ih =>
    have h1 : m.start i ≠ e := fun heq => hs i heq.symm
    have h2 : m.finish i ≠ e := fun heq => hf i heq.symm
    simp [ih, h1, h2]
  | @start es live labels k h _ ih =>
    have hfin : m.finish i ≠ m.start labels.length := (m.start_ne_finish _ i).symm
    by_cases heq : i = labels.length
    · subst heq
      have hnot : m.finish labels.length ∉ es := fun hmem =>
        absurd (h.lt_of_finish_mem hmem) (Nat.lt_irrefl _)
      simp [hfin, hnot]
    · have hne : m.start i ≠ m.start labels.length := fun he => heq (m.start_inj he)
      simp [ih, hfin, hne, heq]
  | @finish es live labels j k h hj ih =>
    have hst : m.start i ≠ m.finish j := m.start_ne_finish i j
    by_cases heq : i = j
    · subst heq
      simp
    · have hne : m.finish i ≠ m.finish j := fun he => heq (m.finish_inj he)
      simp [ih, hst, hne, heq]

/-- The open spans, told by their events and labels. -/
theorem mem_live_iff (i : Nat) (k : κ) :
    (i, k) ∈ live ↔ m.start i ∈ es ∧ m.finish i ∉ es ∧ labels[i]? = some k := by
  constructor
  · intro hi
    obtain ⟨hs, hf⟩ := (h.live_iff i).mp ⟨k, hi⟩
    exact ⟨hs, hf, h.label_of_live hi⟩
  · rintro ⟨hs, hf, hk⟩
    obtain ⟨k', hi⟩ := (h.live_iff i).mpr ⟨hs, hf⟩
    obtain rfl : k' = k := Option.some.inj ((h.label_of_live hi).symm.trans hk)
    exact hi

/-! ## 2. Prefixes -/

/-- What holds of a stream holds of its prefixes. -/
theorem of_prefix :
    ∀ {p : List ε}, p <+: es → ∃ live' labels', Trace m p live' labels' ∧ labels' <+: labels := by
  induction h with
  | empty =>
    intro p hp
    rw [prefix_nil.mp hp]
    exact ⟨[], [], .empty, prefix_refl _⟩
  | other h hs hf ih =>
    intro p hp
    rcases prefix_concat_iff.mp hp with rfl | hp
    · exact ⟨_, _, .other h hs hf, prefix_refl _⟩
    · exact ih hp
  | start h hk ih =>
    intro p hp
    rcases prefix_concat_iff.mp hp with rfl | hp
    · exact ⟨_, _, .start h hk, prefix_refl _⟩
    · obtain ⟨live', labels', h', hpre⟩ := ih hp
      exact ⟨live', labels', h', hpre.trans (prefix_append _ _)⟩
  | finish h hi ih =>
    intro p hp
    rcases prefix_concat_iff.mp hp with rfl | hp
    · exact ⟨_, _, .finish h hi, prefix_refl _⟩
    · exact ih hp

/-- A span's start is not preceded by its start or its end. -/
theorem fresh {pre post : List ε}
    (heq : es = pre ++ m.start i :: post) : m.start i ∉ pre ∧ m.finish i ∉ pre := by
  have hpre : pre ++ [m.start i] <+: es := ⟨post, by simp [heq]⟩
  obtain ⟨live', labels', h', _⟩ := h.of_prefix hpre
  generalize hes : pre ++ [m.start i] = es' at h'
  cases h' with
  | empty => simp at hes
  | other _ hs _ =>
    obtain ⟨_, rfl⟩ := append_inj' hes rfl |>.imp_right singleton_inj.mp
    exact absurd rfl (hs i)
  | @start es' live' labels' k h' hk =>
    obtain ⟨rfl, hi⟩ := append_inj' hes rfl |>.imp_right singleton_inj.mp
    obtain rfl := m.start_inj hi
    exact ⟨fun hmem => absurd ((h'.start_mem_iff _).mp hmem) (Nat.lt_irrefl _),
      fun hmem => absurd (h'.lt_of_finish_mem hmem) (Nat.lt_irrefl _)⟩
  | @finish es' live' labels' j k _ _ =>
    obtain ⟨_, hi⟩ := append_inj' hes rfl |>.imp_right singleton_inj.mp
    exact absurd hi (m.start_ne_finish i j)

/-! ## 3. The spans that are closed -/

/-- A span that is open has one start and no end. -/
theorem opened :
    ∀ {i : Nat}, m.start i ∈ es → m.finish i ∉ es →
      ∃ pre post, es = pre ++ m.start i :: post ∧ m.start i ∉ pre ∧ m.start i ∉ post := by
  induction h with
  | empty => intro i hi; cases hi
  | @other es _ _ e h hs hf ih =>
    intro i hi hno
    have hmem : m.start i ∈ es := by
      rcases mem_append.mp hi with hi | hi
      · exact hi
      · exact absurd (mem_singleton.mp hi).symm (hs i)
    obtain ⟨pre, post, rfl, hpre, hpost⟩ := ih hmem (fun hf' => hno (mem_append_left _ hf'))
    refine ⟨pre, post ++ [e], by simp, hpre, ?_⟩
    have hne : m.start i ≠ e := fun heq => hs i heq.symm
    simp [hpost, hne]
  | @start es live labels k h hk ih =>
    intro i hi hno
    by_cases heq : i = labels.length
    · subst heq
      have hnot : m.start labels.length ∉ es := fun hmem =>
        absurd ((h.start_mem_iff _).mp hmem) (Nat.lt_irrefl _)
      exact ⟨es, [], rfl, hnot, not_mem_nil⟩
    · have hne : m.start i ≠ m.start labels.length := fun he => heq (m.start_inj he)
      have hmem : m.start i ∈ es := by simpa [hne] using hi
      obtain ⟨pre, post, rfl, hpre, hpost⟩ := ih hmem (fun hf' => hno (mem_append_left _ hf'))
      exact ⟨pre, post ++ [m.start labels.length], by simp, hpre, by simp [hpost, hne]⟩
  | @finish es live labels j k h hj ih =>
    intro i hi hno
    have hne : m.start i ≠ m.finish j := m.start_ne_finish i j
    have hmem : m.start i ∈ es := by simpa [hne] using hi
    obtain ⟨pre, post, rfl, hpre, hpost⟩ := ih hmem (fun hf' => hno (mem_append_left _ hf'))
    exact ⟨pre, post ++ [m.finish j], by simp, hpre, by simp [hpost, hne]⟩

end

/-- The events of one span that is over: one start and, behind it, one end. -/
structure Closed (m : Marks ε) (es : List ε) (i : Nat) : Prop where
  split : ∃ pre mid post, es = pre ++ m.start i :: mid ++ m.finish i :: post ∧
    ∀ e ∈ pre ++ mid ++ post, e ≠ m.start i ∧ e ≠ m.finish i

/-- Events of other spans can follow. -/
theorem Closed.concat {i : Nat} (h : Closed m es i) {e : ε} (hs : e ≠ m.start i)
    (hf : e ≠ m.finish i) : Closed m (es ++ [e]) i := by
  obtain ⟨pre, mid, post, rfl, hall⟩ := h.split
  refine ⟨pre, mid, post ++ [e], by simp, ?_⟩
  intro e' he'
  rw [← List.append_assoc, mem_append, mem_singleton] at he'
  rcases he' with he' | rfl
  · exact hall e' he'
  · exact ⟨hs, hf⟩

/-- **A span that is over has one start and, behind it, one end.** -/
theorem closed_of_finish (h : Trace m es live labels) :
    ∀ {i : Nat}, m.finish i ∈ es → Closed m es i := by
  induction h with
  | empty => intro i hi; cases hi
  | @other es _ _ e h hs hf ih =>
    intro i hi
    rcases mem_append.mp hi with hi | hi
    · exact (ih hi).concat (hs i) (hf i)
    · exact absurd (mem_singleton.mp hi).symm (hf i)
  | @start es live labels k h hk ih =>
    intro i hi
    rcases mem_append.mp hi with hi | hi
    · refine (ih hi).concat ?_ (m.start_ne_finish _ i)
      intro heq
      have hlt := h.lt_of_finish_mem hi
      have := m.start_inj heq
      omega
    · exact absurd (mem_singleton.mp hi).symm (m.start_ne_finish _ i)
  | @finish es live labels j k h hj ih =>
    intro i hi
    by_cases heq : i = j
    · subst heq
      obtain ⟨hst, hno⟩ := (h.live_iff i).mp ⟨k, hj⟩
      obtain ⟨pre, post, rfl, hpre, hpost⟩ := h.opened hst hno
      refine ⟨pre, post, [], rfl, ?_⟩
      intro e he
      rw [append_nil] at he
      refine ⟨?_, ?_⟩
      · rintro rfl
        rcases mem_append.mp he with he | he
        · exact hpre he
        · exact hpost he
      · rintro rfl
        apply hno
        rcases mem_append.mp he with he | he
        · exact mem_append_left _ he
        · exact mem_append_right _ (mem_cons_of_mem _ he)
    · have hne : m.finish i ≠ m.finish j := fun he => heq (m.finish_inj he)
      have hmem : m.finish i ∈ es := by simpa [hne] using hi
      exact (ih hmem).concat (m.start_ne_finish i j).symm hne.symm

/-- **When nothing is open at the end, every span that was started is over.** -/
theorem closed (h : Trace m es ([] : List (Nat × κ)) labels) {i : Nat} (hi : m.start i ∈ es) :
    Closed m es i := by
  refine h.closed_of_finish ?_
  by_contra hno
  obtain ⟨k, hk⟩ := (h.live_iff i).mpr ⟨hi, hno⟩
  cases hk

/-! ## 4. Appending -/

/-- Closing a list of open spans. -/
theorem finishes : ∀ {ids : List Nat} {es : List ε} {live : List (Nat × κ)},
    Trace m es live labels → (∀ i ∈ ids, ∃ k, (i, k) ∈ live) → ids.Nodup →
      Trace m (es ++ ids.map m.finish) (live.filter (fun p => p.1 ∉ ids)) labels
  | [], es, live, h, _, _ => by simpa using h
  | i :: ids, es, live, h, hlive, hnodup => by
    obtain ⟨k, hk⟩ := hlive i mem_cons_self
    have hstill : ∀ j ∈ ids, ∃ k', (j, k') ∈ live.filter (·.1 ≠ i) := by
      intro j hj
      obtain ⟨k', hk'⟩ := hlive j (mem_cons_of_mem _ hj)
      refine ⟨k', mem_filter.mpr ⟨hk', ?_⟩⟩
      have hne : j ≠ i := fun heq => (nodup_cons.mp hnodup).1 (heq ▸ hj)
      simpa using hne
    have hrest := finishes (h.finish hk) hstill (nodup_cons.mp hnodup).2
    have hfun : (fun p : Nat × κ => decide (p.1 ∉ ids) && decide (p.1 ≠ i))
        = fun p => decide (p.1 ∉ i :: ids) := by
      funext p
      simp [mem_cons, not_or, Bool.and_comm]
    rw [List.filter_filter, hfun] at hrest
    simpa using hrest

/-- Opening spans of labels of which none is open. -/
theorem starts : ∀ {fresh : List κ} {es : List ε} {live : List (Nat × κ)} {labels : List κ},
    Trace m es live labels → (∀ k ∈ fresh, ∀ i, (i, k) ∉ live) → fresh.Nodup →
      ∃ live', Trace m (es ++ (range' labels.length fresh.length).map m.start) live'
          (labels ++ fresh) ∧
        ∀ p, p ∈ live' ↔ p ∈ live ∨ ∃ n, fresh[n]? = some p.2 ∧ p.1 = labels.length + n
  | [], es, live, labels, h, _, _ => ⟨live, by simpa using h, by simp⟩
  | k :: fresh, es, live, labels, h, hnot, hnodup => by
    have hstart := h.start (hnot k mem_cons_self)
    have hnot' : ∀ k' ∈ fresh, ∀ i, (i, k') ∉ (labels.length, k) :: live := by
      intro k' hk' i hi
      rcases mem_cons.mp hi with heq | hi
      · cases heq
        exact (nodup_cons.mp hnodup).1 hk'
      · exact hnot k' (mem_cons_of_mem _ hk') i hi
    obtain ⟨live', h', hmem⟩ := starts hstart hnot' (nodup_cons.mp hnodup).2
    refine ⟨live', by simpa [range'_succ] using h', ?_⟩
    intro p
    rw [hmem p, mem_cons, length_append, length_singleton]
    constructor
    · rintro ((rfl | hp) | ⟨n, hn, hp⟩)
      · exact .inr ⟨0, rfl, rfl⟩
      · exact .inl hp
      · exact .inr ⟨n + 1, hn, by omega⟩
    · rintro (hp | ⟨n, hn, hp⟩)
      · exact .inl (.inr hp)
      · cases n with
        | zero => exact .inl (.inl (Prod.ext hp (Option.some.inj hn).symm))
        | succ n => exact .inr ⟨n, hn, by omega⟩

/-- Events of other kinds. -/
theorem others {more : List ε} (h : Trace m es live labels)
    (hs : ∀ e ∈ more, ∀ i, e ≠ m.start i) (hf : ∀ e ∈ more, ∀ i, e ≠ m.finish i) :
    Trace m (es ++ more) live labels := by
  induction more generalizing es with
  | nil => simpa using h
  | cons e more ih =>
    have hstep := h.other (hs e mem_cons_self) (hf e mem_cons_self)
    have hrest := ih hstep (fun e' he' => hs e' (mem_cons_of_mem _ he'))
      (fun e' he' => hf e' (mem_cons_of_mem _ he'))
    simpa using hrest

end Trace

end Srs.Spans
