/-
# The strings of a section and of a group

A section is processed for a range of the linear input space, and yields the strings that start
in the range (`processInputSection_eq`).  The range may start part way through a string section:
the code then looks at the byte before the cut and skips, if it has to, to the end of the string
the cut falls in, which the group before it has read to its end.

A group yields the strings of the whole input that start in its range (`splitGroup_eq`), if its
sections are those that have strings there (`Covers`).
-/
import Mathlib.Data.List.Flatten
import Srs.StringMerging.Sections
import Srs.Lib.Terminated

namespace Srs.StringMerging

open Terminated List StringMergeInputSection

/-! ## 1. The strings of a section -/

/-- A piece of a slice, located from the start of the slice. -/
def place (offset ptr : Nat) (x : Nat × Bytes) : Nat × Slice := (offset + x.1, ⟨ptr + x.1, x.2⟩)

/-- The null-terminated strings of a slice that lies at a linear input offset. -/
def stringsAt (offset : Nat) (s : Slice) : List (Nat × Slice) :=
  (locate 0 (pieces 0 s.bytes)).map (place offset s.ptr)

/-- The strings of an input section, each with its linear input offset. -/
def sectionStrings (s : StringMergeInputSection) : List (Nat × Slice) :=
  if s.isString then stringsAt s.startInputOffset s.sectionData
  else [(s.startInputOffset, s.sectionData)]

/-- All strings in input order. -/
def allStrings (sections : List StringMergeInputSection) : List (Nat × Slice) :=
  sections.flatMap sectionStrings

/-- String sections are made of null-terminated strings, other sections are not empty. -/
def StringMergeInputSection.WellFormed (s : StringMergeInputSection) : Prop :=
  if s.isString then Closed 0 s.sectionData.bytes else s.sectionData.bytes ≠ []

instance (s : StringMergeInputSection) : Decidable s.WellFormed := by
  unfold WellFormed
  exact inferInstance

@[simp] theorem Slice.drop_zero (s : Slice) : s.drop 0 = s := by
  simp [Slice.drop]

theorem stringsAt_drop (offset n : Nat) (s : Slice) :
    stringsAt (offset + n) (s.drop n)
      = (locate n (pieces 0 (s.bytes.drop n))).map (place offset s.ptr) := by
  have hl := locate_add n 0 (pieces 0 (s.bytes.drop n))
  rw [Nat.add_zero] at hl
  rw [hl, List.map_map]
  refine map_congr_left ?_
  intro x _
  simp only [place, Slice.drop, Function.comp_apply, Nat.add_assoc]

variable {x : Nat × Slice}

theorem le_of_mem_stringsAt {offset : Nat} {s : Slice}
    (h : x ∈ stringsAt offset s) : offset ≤ x.1 := by
  obtain ⟨y, -, rfl⟩ := mem_map.mp h
  exact Nat.le_add_right offset y.1

/-- The first string of a slice and those after it. -/
theorem stringsAt_cons {offset : Nat} {s : Slice} {body rest : Bytes} (hb : (0 : UInt8) ∉ body)
    (hs : s.bytes = body ++ 0 :: rest) :
    stringsAt offset s
      = (offset, ⟨s.ptr, s.bytes.take (body.length + 1)⟩)
        :: stringsAt (offset + (body.length + 1)) (s.drop (body.length + 1)) := by
  have htake : s.bytes.take (body.length + 1) = body ++ [0] := by
    rw [hs, take_append, take_of_length_le (Nat.le_succ _)]
    simp
  have hdrop : s.bytes.drop (body.length + 1) = rest := by
    have := drop_append_piece 0 body rest 0
    rwa [Nat.add_zero, List.drop_zero, ← hs] at this
  rw [stringsAt_drop, hdrop, htake]
  simp only [stringsAt, hs, pieces_append hb, locate, map_cons, place, Nat.add_zero,
    Nat.zero_add, length_append, length_singleton]

/-! ## 2. What processing a section adds -/

theorem closed_drop {bytes : Bytes} (h : Closed 0 bytes) (n : Nat) : Closed 0 (bytes.drop n) := by
  by_cases hd : bytes.drop n = []
  · exact Or.inl hd
  · rcases h with rfl | hlast
    · exact absurd (drop_nil) hd
    · refine Or.inr ?_
      rw [getLast?_drop, if_neg (by simpa using hd), hlast]

theorem advanceTo_eq_skip (bytes : Bytes) (cut : Nat) : advanceTo bytes cut = skip 0 bytes cut :=
  rfl

section Collect

variable (hashBytes : Bytes → UInt64) (room : Shard → Nat → Bool)

/-- Adds located strings, in order. -/
def collect (out : Split) (strings : List (Nat × Slice)) : Split :=
  strings.foldl (fun out x => insertData room out (takeHashed hashBytes x.2) x.1) out

theorem collect_append (out : Split) (a b : List (Nat × Slice)) :
    collect hashBytes room out (a ++ b)
      = collect hashBytes room (collect hashBytes room out a) b :=
  foldl_append

/-- The loop over a string section takes the strings that start before the end of the range. -/
theorem splitStrings_eq (rangeEnd : Nat) : ∀ bytes, Closed 0 bytes → ∀ (remaining : Slice)
    (inputOffset : Nat) (out : Split), remaining.bytes = bytes →
    splitStrings hashBytes room rangeEnd inputOffset remaining out
      = .ok (collect hashBytes room out
          ((stringsAt inputOffset remaining).filter fun x => x.1 < rangeEnd)) := by
  refine Closed.induction ?_ ?_
  · intro remaining inputOffset out hs
    rw [splitStrings, if_neg (fun h => h.1 hs)]
    simp [stringsAt, hs, pieces, locate, collect]
  · intro body rest hb _ ih remaining inputOffset out hs
    have hne : remaining.bytes ≠ [] := by
      rw [hs]
      simp
    by_cases hend : inputOffset < rangeEnd
    · have htake : takeStringHashed hashBytes remaining
          = .ok (takeHashed hashBytes ⟨remaining.ptr, remaining.bytes.take (body.length + 1)⟩,
              remaining.drop (body.length + 1)) := by
        refine (takeStringHashed_eq_ok hashBytes).mpr ⟨body.length, ?_, rfl, rfl⟩
        rw [memchr, hs, idxOf?_append hb]
      have hrest : (remaining.drop (body.length + 1)).bytes = rest := by
        have := drop_append_piece 0 body rest 0
        rwa [Nat.add_zero, List.drop_zero, ← hs] at this
      have hlen : (takeHashed hashBytes
          ⟨remaining.ptr, remaining.bytes.take (body.length + 1)⟩).value.len
          = body.length + 1 := by
        simp [takeHashed, Slice.len, hs]
      rw [splitStrings, if_pos ⟨hne, hend⟩]
      split
      · rename_i e he
        rw [htake] at he
        cases he
      · rename_i string rest' he
        rw [htake] at he
        cases he
        rw [hlen, ih _ _ _ hrest, stringsAt_cons hb hs,
          filter_cons_of_pos (by simpa using hend)]
        rfl
    · rw [splitStrings, if_neg (fun h => hend h.2)]
      have hnil : (stringsAt inputOffset remaining).filter (fun x => x.1 < rangeEnd) = [] := by
        refine filter_eq_nil_iff.mpr ?_
        intro x hx
        have := le_of_mem_stringsAt hx
        simp only [decide_eq_true_eq]
        omega
      rw [hnil]
      rfl

/-- A string is in the range when it starts there. -/
def inRange (rangeStart rangeEnd : Nat) (x : Nat × Slice) : Bool :=
  rangeStart ≤ x.1 && x.1 < rangeEnd

/-- The range may be used for the section: it does not start in the padding, and a section that
is not a string section is in it from its start on. -/
def Admits (rangeStart rangeEnd : Nat) (s : StringMergeInputSection) : Prop :=
  if s.isString then rangeStart ≤ s.startInputOffset + s.sectionData.len
  else rangeStart ≤ s.startInputOffset ∧ s.startInputOffset < rangeEnd

theorem filter_lt_filter_le (rangeStart rangeEnd : Nat) (xs : List (Nat × Slice)) :
    (xs.filter fun x => rangeStart ≤ x.1).filter (fun x => x.1 < rangeEnd)
      = xs.filter (inRange rangeStart rangeEnd) := by
  rw [List.filter_filter]
  refine filter_congr ?_
  intro x _
  simp only [inRange]
  exact Bool.and_comm _ _

variable {rangeStart rangeEnd : Nat} {s : StringMergeInputSection}

theorem processInputSection_string (hs : s.isString = true)
    (hwf : s.WellFormed) (ha : Admits rangeStart rangeEnd s)
    (out : Split) :
    processInputSection hashBytes room s out rangeStart rangeEnd
      = .ok (collect hashBytes room out
          ((sectionStrings s).filter (inRange rangeStart rangeEnd))) := by
  have hclosed : Closed 0 s.sectionData.bytes := by simpa [WellFormed, hs] using hwf
  have hle : rangeStart ≤ s.startInputOffset + s.sectionData.len := by simpa [Admits, hs] using ha
  have hbound : ¬ s.sectionData.len < rangeStart - s.startInputOffset := by omega
  rw [sectionStrings, if_pos hs, ← filter_lt_filter_le]
  simp only [processInputSection, failIf, if_neg hbound, hs, if_true, bind, Except.bind]
  by_cases hcut : s.startInputOffset < rangeStart
  · obtain ⟨cut, rfl⟩ : ∃ cut, rangeStart = s.startInputOffset + cut :=
      ⟨rangeStart - s.startInputOffset, by omega⟩
    have hcl : cut ≤ s.sectionData.bytes.length := by
      simp only [Slice.len] at hle
      omega
    rw [if_pos hcut, Nat.add_sub_cancel_left]
    rw [advanceTo_eq_skip, splitStrings_eq hashBytes room rangeEnd _ (closed_drop hclosed _) _ _ _
      rfl, stringsAt_drop]
    have hfrom := locate_pieces_of_cut s.sectionData.bytes hclosed 0 cut (by omega) hcl
    simp only [Nat.zero_add] at hfrom
    have hmap : ((locate 0 (pieces 0 s.sectionData.bytes)).filter fun x => cut ≤ x.1).map
          (place s.startInputOffset s.sectionData.ptr)
        = (stringsAt s.startInputOffset s.sectionData).filter
            fun x => s.startInputOffset + cut ≤ x.1 := by
      rw [stringsAt, List.filter_map]
      congr 1
      refine filter_congr ?_
      intro x _
      simp only [Function.comp_apply, place, Nat.add_le_add_iff_left]
    rw [hfrom, hmap]
  · rw [if_neg hcut, Nat.add_zero, Slice.drop_zero,
      splitStrings_eq hashBytes room rangeEnd _ hclosed _ _ _ rfl]
    congr 3
    refine (filter_eq_self.mpr ?_).symm
    intro x hx
    have := le_of_mem_stringsAt hx
    exact decide_eq_true (by omega)

theorem processInputSection_other (hs : s.isString = false) (ha : Admits rangeStart rangeEnd s) (out : Split) :
    processInputSection hashBytes room s out rangeStart rangeEnd
      = .ok (collect hashBytes room out
          ((sectionStrings s).filter (inRange rangeStart rangeEnd))) := by
  obtain ⟨hle, hlt⟩ : rangeStart ≤ s.startInputOffset ∧ s.startInputOffset < rangeEnd := by
    simpa [Admits, hs] using ha
  have hbound : ¬ s.sectionData.len < rangeStart - s.startInputOffset := by omega
  have hcut : ¬ s.startInputOffset < rangeStart := by omega
  have hin : inRange rangeStart rangeEnd (s.startInputOffset, s.sectionData) = true := by
    simp [inRange, hle, hlt]
  rw [sectionStrings, if_neg (by simp [hs]), filter_cons_of_pos hin, filter_nil]
  simp only [processInputSection, failIf, if_neg hbound, if_neg hcut, hs, bind, Except.bind,
    Nat.add_zero, Slice.drop_zero, Bool.false_eq_true, if_false]
  rfl

/-- **A section adds the strings that start in the range.** -/
theorem processInputSection_eq (hwf : s.WellFormed) (ha : Admits rangeStart rangeEnd s) (out : Split) :
    processInputSection hashBytes room s out rangeStart rangeEnd
      = .ok (collect hashBytes room out
          ((sectionStrings s).filter (inRange rangeStart rangeEnd))) := by
  cases hs : s.isString with
  | true => exact processInputSection_string hashBytes room hs hwf ha out
  | false => exact processInputSection_other hashBytes room hs ha out

theorem foldlM_processInputSection :
    ∀ {sections : List StringMergeInputSection}, (∀ s ∈ sections, s.WellFormed) →
      (∀ s ∈ sections, Admits rangeStart rangeEnd s) → ∀ out : Split,
      sections.foldlM
          (fun out s => processInputSection hashBytes room s out rangeStart rangeEnd) out
        = .ok (collect hashBytes room out
            ((allStrings sections).filter (inRange rangeStart rangeEnd)))
  | [], _, _, _ => rfl
  | s :: rest, hwf, ha, out => by
    rw [foldlM_cons, processInputSection_eq hashBytes room (hwf s mem_cons_self)
      (ha s mem_cons_self)]
    simp only [bind, Except.bind]
    rw [foldlM_processInputSection (fun x hx => hwf x (mem_cons_of_mem s hx))
      (fun x hx => ha x (mem_cons_of_mem s hx))]
    have hall : allStrings (s :: rest) = sectionStrings s ++ allStrings rest := flatMap_cons
    rw [hall, filter_append, collect_append]

end Collect

/-! ## 3. Where the strings lie -/

theorem le_paddedLen (s : StringMergeInputSection) : s.sectionData.len ≤ s.paddedLen := by
  unfold paddedLen nextMultipleOf
  split <;> omega

theorem paddedLen_lt (s : StringMergeInputSection) :
    s.paddedLen < s.sectionData.len + mapBlockSize := by
  unfold paddedLen nextMultipleOf
  have : 0 < mapBlockSize := by decide
  split <;> omega

theorem dvd_paddedLen (s : StringMergeInputSection) : mapBlockSize ∣ s.paddedLen := by
  unfold paddedLen nextMultipleOf mapBlockSize
  split <;> omega

/-- The end of the linear input space of some sections. -/
def linearSize (sections : List StringMergeInputSection) : Nat :=
  (sections.map (·.paddedLen)).sum

@[simp] theorem linearSize_cons (s : StringMergeInputSection)
    (sections : List StringMergeInputSection) :
    linearSize (s :: sections) = s.paddedLen + linearSize sections := by
  simp [linearSize]

@[simp] theorem linearSize_append (a b : List StringMergeInputSection) :
    linearSize (a ++ b) = linearSize a + linearSize b := by
  simp [linearSize]

theorem LaidOut.append : ∀ {a : List StringMergeInputSection} {start : Nat}
    {b : List StringMergeInputSection},
    LaidOut start (a ++ b) ↔ LaidOut start a ∧ LaidOut (start + linearSize a) b
  | [], start, b => by simp [LaidOut, linearSize]
  | s :: a, start, b => by
    simp only [cons_append, LaidOut, LaidOut.append, linearSize_cons, Nat.add_assoc,
      and_assoc]

/-- A section lies inside the space of the sections it is laid out with. -/
theorem LaidOut.bounds {start : Nat} : ∀ {sections : List StringMergeInputSection},
    LaidOut start sections → ∀ s ∈ sections,
      start ≤ s.startInputOffset ∧ s.startInputOffset + s.paddedLen ≤ start + linearSize sections
  | [], _, s, hs => absurd hs not_mem_nil
  | t :: rest, h, s, hs => by
    obtain ⟨ht, hrest⟩ := h
    rw [linearSize_cons]
    rcases mem_cons.mp hs with rfl | hs
    · omega
    · have := LaidOut.bounds hrest s hs
      omega

/-- A string of a section is not empty and lies in the section's data. -/
theorem bounds_of_mem_sectionStrings {s : StringMergeInputSection} (hwf : s.WellFormed) (hx : x ∈ sectionStrings s) :
    s.startInputOffset ≤ x.1 ∧ x.1 + x.2.len ≤ s.startInputOffset + s.sectionData.len
      ∧ 0 < x.2.len := by
  unfold sectionStrings at hx
  split at hx
  · obtain ⟨y, hy, rfl⟩ := mem_map.mp hx
    have hstop := stop_le_of_mem_locate hy
    have hne : y.2 ≠ [] := ne_nil_of_mem_pieces (mem_of_mem_locate hy)
    have hpos := length_pos_iff.mpr hne
    rw [flatten_pieces] at hstop
    simp only [place, Slice.len]
    omega
  · rename_i hs
    rw [mem_singleton] at hx
    subst hx
    have hne : s.sectionData.bytes ≠ [] := by
      simpa [WellFormed, hs] using hwf
    have hpos := length_pos_iff.mpr hne
    simp only [Slice.len]
    omega

variable {sections : List StringMergeInputSection}

theorem bounds_of_mem_allStrings {start : Nat}
    (hwf : ∀ s ∈ sections, s.WellFormed) (hl : LaidOut start sections)
    (hx : x ∈ allStrings sections) :
    start ≤ x.1 ∧ x.1 < start + linearSize sections := by
  obtain ⟨s, hs, hx⟩ := mem_flatMap.mp hx
  have hb := hl.bounds s hs
  have hin := bounds_of_mem_sectionStrings (hwf s hs) hx
  have := le_paddedLen s
  omega

/-- `x` ends before `y` starts. -/
def Precedes (x y : Nat × Slice) : Prop := x.1 + x.2.len ≤ y.1

theorem pairwise_sectionStrings (s : StringMergeInputSection) :
    (sectionStrings s).Pairwise Precedes := by
  unfold sectionStrings
  split
  · refine pairwise_map.mpr ((pairwise_locate 0 _).imp ?_)
    intro a b hab
    simp only [Precedes, place, Slice.len]
    omega
  · exact pairwise_singleton _ _

theorem pairwise_allStrings {start : Nat} : ∀ {sections : List StringMergeInputSection},
    (∀ s ∈ sections, s.WellFormed) → LaidOut start sections →
      (allStrings sections).Pairwise Precedes
  | [], _, _ => List.Pairwise.nil
  | s :: rest, hwf, hl => by
    obtain ⟨hs, hrest⟩ := hl
    have hwf' : ∀ t ∈ rest, t.WellFormed := fun t ht => hwf t (mem_cons_of_mem s ht)
    have hall : allStrings (s :: rest) = sectionStrings s ++ allStrings rest := flatMap_cons
    rw [hall]
    refine pairwise_append.mpr
      ⟨pairwise_sectionStrings s, pairwise_allStrings hwf' hrest, ?_⟩
    intro x hx y hy
    have hxb := bounds_of_mem_sectionStrings (hwf s mem_cons_self) hx
    have hyb := bounds_of_mem_allStrings hwf' hrest hy
    have := le_paddedLen s
    simp only [Precedes]
    omega

/-! ## 4. What a group yields -/

/-- The group consists of all sections that have strings in its range. -/
def Covers (sections : List StringMergeInputSection) (g : SectionGroup) : Prop :=
  ∃ before after, sections = before ++ g.sections ++ after
    ∧ (∀ x ∈ allStrings before, x.1 < g.rangeStart)
    ∧ (∀ x ∈ allStrings after, g.rangeEnd ≤ x.1)
    ∧ ∀ s ∈ g.sections, Admits g.rangeStart g.rangeEnd s

/-- The strings of the input that start in the range of the group. -/
def groupStrings (sections : List StringMergeInputSection) (g : SectionGroup) :
    List (Nat × Slice) :=
  (allStrings sections).filter (inRange g.rangeStart g.rangeEnd)

variable {g : SectionGroup}

theorem groupStrings_eq
    (h : Covers sections g) :
    groupStrings sections g = (allStrings g.sections).filter (inRange g.rangeStart g.rangeEnd) := by
  obtain ⟨before, after, rfl, hb, ha, -⟩ := h
  have hbefore : (allStrings before).filter (inRange g.rangeStart g.rangeEnd) = [] := by
    refine filter_eq_nil_iff.mpr ?_
    intro x hx
    have := hb x hx
    simp only [inRange, Bool.and_eq_true, decide_eq_true_eq]
    omega
  have hafter : (allStrings after).filter (inRange g.rangeStart g.rangeEnd) = [] := by
    refine filter_eq_nil_iff.mpr ?_
    intro x hx
    have := ha x hx
    simp only [inRange, Bool.and_eq_true, decide_eq_true_eq]
    omega
  have hall : allStrings (before ++ g.sections ++ after)
      = allStrings before ++ allStrings g.sections ++ allStrings after := by
    simp [allStrings]
  rw [groupStrings, hall, filter_append, filter_append, hbefore, hafter,
    nil_append, append_nil]

/-- **A group yields the strings that start in its range.** -/
theorem splitGroup_eq (hashBytes : Bytes → UInt64) (room : Shard → Nat → Bool) (hwf : ∀ s ∈ sections, s.WellFormed) (h : Covers sections g) :
    splitGroup hashBytes room g
      = .ok (collect hashBytes room ⟨fun _ => [], g.offsetsShard⟩ (groupStrings sections g)) := by
  rw [groupStrings_eq h]
  obtain ⟨before, after, rfl, -, -, ha⟩ := h
  refine foldlM_processInputSection hashBytes room ?_ ha _
  intro s hs
  exact hwf s (mem_append_left after (mem_append_right before hs))

end Srs.StringMerging
