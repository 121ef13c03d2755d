/-
# Every string is claimed by exactly one group

`split_sections` cuts the input at block boundaries, without looking at the data.  The ranges of
its groups follow each other without a gap from the start of the first section to the end of the
last (`splitSections_tiles`), so the groups together yield all strings of the input, once each
and in input order (`flatMap_groupStrings`).

The loop ends because every group takes at least a byte or ends a section.  That needs a size
that is positive as an `isize`: with a size of `2 ^ 63` or more the inner loop is never entered
and the outer one adds empty groups forever (`splitSections_diverges`).
-/
import Srs.StringMerging.Splitting

namespace Srs.StringMerging

open List

/-! ## 1. The groups tile the input -/

/-- The groups cover the input from `start` on: each starts where the one before it ended, the
last one ends with the input, and each one's shard is for its range. -/
def Tiles (sections : List StringMergeInputSection) : Nat → Nat → List SectionGroup → Prop
  | start, _, [] => start = linearSize sections
  | start, index, g :: groups =>
    g.index = index ∧ g.rangeStart = start ∧ start ≤ g.rangeEnd
      ∧ g.offsetsShard = ⟨start, g.rangeEnd - start, []⟩
      ∧ Covers sections g ∧ Tiles sections g.rangeEnd (index + 1) groups

/-- In a list whose items are in order, those from `a` on are those before `b` and those from
`b` on. -/
theorem filter_le_eq_append {a b : Nat} (hab : a ≤ b) : ∀ {xs : List (Nat × Slice)},
    xs.Pairwise Precedes →
      xs.filter (fun x => a ≤ x.1) = xs.filter (inRange a b) ++ xs.filter fun x => b ≤ x.1
  | [], _ => rfl
  | x :: xs, h => by
    obtain ⟨hx, hxs⟩ := pairwise_cons.mp h
    have ih := filter_le_eq_append hab hxs
    by_cases hb : b ≤ x.1
    · -- from here on everything is past `b`
      have hnone : xs.filter (inRange a b) = [] := by
        refine filter_eq_nil_iff.mpr ?_
        intro y hy
        have : x.1 + x.2.len ≤ y.1 := hx y hy
        simp only [inRange, Bool.and_eq_true, decide_eq_true_eq]
        omega
      rw [hnone, nil_append] at ih
      rw [filter_cons_of_pos (by simpa using Nat.le_trans hab hb),
        filter_cons_of_neg (by simp [inRange, hb]), hnone, nil_append,
        filter_cons_of_pos (by simpa using hb), ih]
    · by_cases ha : a ≤ x.1
      · rw [filter_cons_of_pos (by simpa using ha),
          filter_cons_of_pos (by simp [inRange, ha]; omega), cons_append,
          filter_cons_of_neg (by simpa using hb), ih]
      · rw [filter_cons_of_neg (by simpa using ha),
          filter_cons_of_neg (by simp [inRange, ha]),
          filter_cons_of_neg (by simpa using hb), ih]

variable {sections : List StringMergeInputSection}

/-- **The groups of a tiling yield every string once, in input order.** -/
theorem flatMap_groupStrings (hwf : ∀ s ∈ sections, s.WellFormed) (hl : LaidOut 0 sections) :
    ∀ {groups : List SectionGroup} {start index : Nat}, Tiles sections start index groups →
      groups.flatMap (groupStrings sections)
        = (allStrings sections).filter fun x => start ≤ x.1
  | [], start, index, h => by
    refine (filter_eq_nil_iff.mpr ?_).symm
    intro x hx
    have hb := bounds_of_mem_allStrings hwf hl hx
    simp only [Tiles] at h
    simp only [decide_eq_true_eq]
    omega
  | g :: groups, start, index, h => by
    obtain ⟨-, rfl, hle, -, -, hrest⟩ := h
    rw [flatMap_cons, flatMap_groupStrings hwf hl hrest,
      filter_le_eq_append hle (pairwise_allStrings hwf hl)]
    rfl

/-! ## 2. Where one group ends -/

theorem asIsize_of_lt {n : Nat} (h : n < 2 ^ 63) : asIsize n = n := by
  have hm : n % 2 ^ 64 = n := Nat.mod_eq_of_lt (by omega)
  rw [asIsize, hm, if_pos h]

/-- `offset` is a place in the first section of `suffix` where a group can start: the start of
the section, or a block boundary inside a string section. -/
def StartsAt (offset : Nat) (suffix : List StringMergeInputSection) : Prop :=
  offset = 0 ∨ ∃ sec rest, suffix = sec :: rest ∧ sec.isString = true
    ∧ offset < sec.paddedLen ∧ mapBlockSize ∣ offset

theorem StartsAt.le {offset : Nat} {sec : StringMergeInputSection}
    {rest : List StringMergeInputSection} (h : StartsAt offset (sec :: rest)) :
    offset ≤ sec.paddedLen ∧ mapBlockSize ∣ offset := by
  rcases h with rfl | ⟨s, r, he, -, hlt, hd⟩
  · exact ⟨Nat.zero_le _, Nat.dvd_zero _⟩
  · cases he
    exact ⟨Nat.le_of_lt hlt, hd⟩

/-- What the inner loop finds: the group takes the sections `used` and `last`, the latter up to
`stop.offsetInSection`. -/
structure Fills (used : List StringMergeInputSection) (last : StringMergeInputSection)
    (sectionIndex offset : Nat) (remaining : Int) (stop : GroupEnd) : Prop where
  index : stop.sectionIndex = sectionIndex + used.length
  taken : remaining - stop.remaining + offset = (linearSize used + stop.offsetInSection : Nat)
  ended : stop.endSection = true → stop.offsetInSection = last.paddedLen
  cut : stop.endSection = false → last.isString = true ∧ stop.offsetInSection < last.paddedLen
    ∧ mapBlockSize ∣ stop.offsetInSection ∧ (used = [] → offset < stop.offsetInSection)

theorem fillGroup_fills : ∀ {suffix : List StringMergeInputSection} {sectionIndex offset : Nat}
    {remaining : Int}, suffix ≠ [] → StartsAt offset suffix → 0 < remaining →
      (mapBlockSize : Int) ∣ remaining →
      ∃ used last after, suffix = used ++ last :: after
        ∧ Fills used last sectionIndex offset remaining
            (fillGroup suffix sectionIndex offset remaining)
  | [], _, _, _, hne, _, _, _ => absurd rfl hne
  | sec :: rest, sectionIndex, offset, remaining, _, hstart, hpos, hdvd => by
    obtain ⟨hle, hblock⟩ := hstart.le
    have hpad := dvd_paddedLen sec
    have hfits := sec.fits
    have hlt := paddedLen_lt sec
    have havail : asIsize (sec.paddedLen - offset) = (sec.paddedLen - offset : Nat) :=
      asIsize_of_lt (by omega)
    simp only [mapBlockSize] at hblock hpad hdvd
    rw [fillGroup, if_pos hpos]
    simp only [havail]
    split
    · -- the group ends inside this section
      rename_i h
      refine ⟨[], sec, rest, rfl, ⟨rfl, ?_, ?_, ?_⟩⟩
      · simp only [linearSize, map_nil, sum_nil, Nat.zero_add]
        omega
      · simp
      · intro _
        refine ⟨h.2, ?_, ?_, ?_⟩ <;> simp only [mapBlockSize] <;> omega
    · rename_i hnot
      split
      · -- the group ends with this section
        refine ⟨[], sec, rest, rfl, ⟨rfl, ?_, ?_, ?_⟩⟩
        · simp only [linearSize, map_nil, sum_nil, Nat.zero_add]
          omega
        · intro _
          dsimp only
          omega
        · simp
      · -- the group goes on with the next section
        rename_i hmore
        obtain ⟨hrem, hrest⟩ := not_or.mp hmore
        obtain ⟨used, last, after, he, hf⟩ := @fillGroup_fills rest (sectionIndex + 1) 0
          (remaining - (sec.paddedLen - offset : Nat)) hrest (.inl rfl) (by omega)
          (by simp only [mapBlockSize]; omega)
        refine ⟨sec :: used, last, after, by rw [he]; rfl, ⟨?_, ?_, hf.ended, ?_⟩⟩
        · rw [hf.index, length_cons]
          omega
        · have := hf.taken
          rw [linearSize_cons]
          omega
        · intro hcut
          obtain ⟨h1, h2, h3, -⟩ := hf.cut hcut
          exact ⟨h1, h2, h3, fun hnil => absurd hnil (cons_ne_nil _ _)⟩

/-! ## 3. One group -/

section Group

variable {before used after : List StringMergeInputSection} {last : StringMergeInputSection}
  {offset size index : Nat} {stop : GroupEnd}

theorem startOf_append {before after : List StringMergeInputSection}
    {sec : StringMergeInputSection} (hl : LaidOut 0 (before ++ sec :: after)) :
    startOf (before ++ sec :: after) before.length = linearSize before := by
  have hsec := (LaidOut.append.mp hl).2.1
  simp [startOf, hsec]

/-- The group that starts `offset` into the first of `used ++ [last]`. -/
theorem groupAt_eq (hl : LaidOut 0 (before ++ used ++ last :: after))
    (hf : Fills used last before.length offset (asIsize size) stop) :
    groupAt (before ++ used ++ last :: after) size index (linearSize before + offset)
        before.length offset stop
      = { index := index
          sections := used ++ [last]
          offsetsShard :=
            ⟨linearSize before + offset,
              linearSize (before ++ used) + stop.offsetInSection - (linearSize before + offset), []⟩
          rangeStart := linearSize before + offset
          rangeEnd := linearSize (before ++ used) + stop.offsetInSection } := by
  have hfirst : startOf (before ++ used ++ last :: after) before.length = linearSize before := by
    rcases used with _ | ⟨sec, used⟩
    · rw [append_nil] at hl ⊢
      exact startOf_append hl
    · rw [List.append_assoc, cons_append] at hl ⊢
      exact startOf_append hl
  have hlast : startOf (before ++ used ++ last :: after) stop.sectionIndex
      = linearSize (before ++ used) := by
    rw [hf.index, ← length_append]
    exact startOf_append hl
  have hsections : ((before ++ used ++ last :: after).drop before.length).take
      (stop.sectionIndex - before.length + 1) = used ++ [last] := by
    have hn : stop.sectionIndex - before.length + 1 = (used ++ [last]).length := by
      rw [hf.index, length_append, length_singleton]
      omega
    have he : before ++ used ++ last :: after = before ++ ((used ++ [last]) ++ after) := by simp
    rw [hn, he, drop_left, take_left]
  have hsize : (asIsize size - stop.remaining).toNat
      = linearSize (before ++ used) + stop.offsetInSection - (linearSize before + offset) := by
    have := hf.taken
    rw [linearSize_append]
    omega
  simp only [groupAt, hfirst, hlast, hsections, hsize]

theorem StartsAt.take (hs : StartsAt offset (used ++ last :: after)) :
    StartsAt offset (used ++ [last]) := by
  rcases hs with h | ⟨sec, rest, he, hstr, hlt, hd⟩
  · exact .inl h
  · refine .inr ?_
    rcases used with _ | ⟨u, used⟩
    · obtain ⟨rfl, -⟩ := List.cons.inj he
      exact ⟨last, [], rfl, hstr, hlt, hd⟩
    · obtain ⟨rfl, -⟩ := List.cons.inj he
      exact ⟨u, used ++ [last], rfl, hstr, hlt, hd⟩

/-- A group that starts inside a section does so before the end of the section's data. -/
theorem start_le_or_isString {start : Nat} {sections : List StringMergeInputSection}
    (hs : StartsAt offset sections) (hl : LaidOut start sections) :
    ∀ s ∈ sections, start + offset ≤ s.startInputOffset
      ∨ s.isString = true ∧ start + offset ≤ s.startInputOffset + s.sectionData.len := by
  intro s hmem
  rcases hs with rfl | ⟨sec, rest, rfl, hstr, hlt, hd⟩
  · exact .inl (hl.bounds s hmem).1
  · obtain ⟨hsec, hrest⟩ := hl
    rcases mem_cons.mp hmem with rfl | hmem
    · have hpad := dvd_paddedLen s
      have hlen := paddedLen_lt s
      simp only [mapBlockSize] at hpad hlen hd
      exact .inr ⟨hstr, by omega⟩
    · have := hrest.bounds s hmem
      exact .inl (by omega)

theorem covers_of_fills (hwf : ∀ s ∈ before ++ used ++ last :: after, s.WellFormed)
    (hl : LaidOut 0 (before ++ used ++ last :: after)) (hs : StartsAt offset (used ++ last :: after))
    (hf : Fills used last before.length offset (asIsize size) stop) {g : SectionGroup}
    (hsections : g.sections = used ++ [last]) (hstart : g.rangeStart = linearSize before + offset)
    (hend : g.rangeEnd = linearSize (before ++ used) + stop.offsetInSection) :
    Covers (before ++ used ++ last :: after) g := by
  have hl' := LaidOut.append.mp hl
  have hbefore := (LaidOut.append.mp hl'.1).1
  have hgroup : LaidOut (0 + linearSize before) (used ++ [last]) := by
    have he : before ++ used ++ last :: after = before ++ (used ++ [last] ++ after) := by simp
    rw [he] at hl
    exact (LaidOut.append.mp (LaidOut.append.mp hl).2).1
  obtain ⟨hlaststart, hafter⟩ := hl'.2
  have hstop : stop.offsetInSection ≤ last.paddedLen := by
    cases he : stop.endSection with
    | true => exact Nat.le_of_eq (hf.ended he)
    | false => exact Nat.le_of_lt (hf.cut he).2.1
  refine ⟨before, after, by rw [hsections]; simp, ?_, ?_, ?_⟩
  · intro x hx
    have := bounds_of_mem_allStrings
      (fun s hs => hwf s (mem_append_left _ (mem_append_left used hs))) hbefore hx
    omega
  · intro x hx
    have := bounds_of_mem_allStrings
      (fun s hs => hwf s (mem_append_right _ (mem_cons_of_mem last hs))) hafter hx
    omega
  · intro s hsmem
    rw [hsections] at hsmem
    have hfrom := start_le_or_isString (hs.take) hgroup s hsmem
    have hwfs : s.WellFormed := hwf s (by
      rw [List.append_assoc]
      refine mem_append_right before ?_
      rcases mem_append.mp hsmem with h | h
      · exact mem_append_left _ h
      · rw [mem_singleton.mp h]
        exact mem_append_right used mem_cons_self)
    unfold Admits
    split
    · rcases hfrom with h | h <;> omega
    · rename_i hstr
      refine ⟨?_, ?_⟩
      · rcases hfrom with h | h
        · omega
        · exact absurd h.1 hstr
      · -- a section that is not a string section is never cut
        have hne : s.sectionData.bytes ≠ [] := by
          simpa [StringMergeInputSection.WellFormed, hstr] using hwfs
        have hpos : 0 < s.sectionData.len := length_pos_iff.mpr hne
        have hlen := le_paddedLen s
        rcases mem_append.mp hsmem with h | h
        · have := hl'.1
          have hb := (LaidOut.append.mp hl'.1).2.bounds s h
          rw [hend, linearSize_append]
          omega
        · obtain rfl := mem_singleton.mp h
          have hended : stop.endSection = true := by
            cases he : stop.endSection with
            | true => rfl
            | false => exact absurd (hf.cut he).1 hstr
          have := hf.ended hended
          omega

end Group

/-! ## 4. All groups -/

/-- What the outer loop has left: bytes and sections. -/
def left (suffix : List StringMergeInputSection) (offset : Nat) : Nat :=
  linearSize suffix + suffix.length - offset

section Next

variable {before used after : List StringMergeInputSection} {last : StringMergeInputSection}
  {offset size : Nat} {stop : GroupEnd}

section

variable (hs : StartsAt offset (used ++ last :: after))
include hs

/-- The first section of a group is `last` or one of `used`. -/
theorem offset_le_of_startsAt :
    (used = [] ∧ offset ≤ last.paddedLen) ∨ (0 < used.length ∧ offset ≤ linearSize used) := by
  rcases used with _ | ⟨u, used⟩
  · exact .inl ⟨rfl, hs.le.1⟩
  · have := hs.le.1
    rw [linearSize_cons]
    exact .inr ⟨Nat.succ_pos _, by omega⟩

theorem le_end_of_fills
    (hf : Fills used last before.length offset (asIsize size) stop) :
    linearSize before + offset ≤ linearSize (before ++ used) + stop.offsetInSection := by
  rw [linearSize_append]
  rcases offset_le_of_startsAt hs with ⟨hu, h⟩ | ⟨-, h⟩
  · cases he : stop.endSection with
    | true =>
      have := hf.ended he
      omega
    | false =>
      have := (hf.cut he).2.2.2 hu
      omega
  · omega

/-- Where the next group starts: behind the last section, or inside it. -/
theorem next_of_fills
    (hf : Fills used last before.length offset (asIsize size) stop) :
    ∃ before' suffix' offset', before ++ used ++ last :: after = before' ++ suffix'
      ∧ StartsAt offset' suffix'
      ∧ linearSize (before ++ used) + stop.offsetInSection = linearSize before' + offset'
      ∧ left suffix' offset' < left (used ++ last :: after) offset
      ∧ ((stop.endSection = true ∧ before'.length = stop.sectionIndex + 1 ∧ offset' = 0)
        ∨ (stop.endSection = false ∧ before'.length = stop.sectionIndex
          ∧ offset' = stop.offsetInSection)) := by
  have hfirst := offset_le_of_startsAt hs
  cases he : stop.endSection with
  | true =>
    have hended := hf.ended he
    refine ⟨before ++ used ++ [last], after, 0, by simp, .inl rfl, ?_, ?_,
      .inl ⟨rfl, ?_, rfl⟩⟩
    · rw [hended, linearSize_append (before ++ used)]
      simp [linearSize]
    · simp only [left, linearSize_append, linearSize_cons, length_append, length_cons]
      omega
    · rw [hf.index, length_append, length_append, length_singleton]
  | false =>
    obtain ⟨hstr, hlt, hd, hpos⟩ := hf.cut he
    refine ⟨before ++ used, last :: after, stop.offsetInSection, rfl,
      .inr ⟨last, after, rfl, hstr, hlt, hd⟩, rfl, ?_, .inr ⟨rfl, ?_, rfl⟩⟩
    · simp only [left, linearSize_append, linearSize_cons, length_append, length_cons]
      rcases hfirst with ⟨hu, h⟩ | ⟨hu, h⟩
      · have := hpos hu
        omega
      · omega
    · rw [hf.index, length_append]

end

end Next

theorem splitLoop_tiles {size : Nat}
    (hwf : ∀ s ∈ sections, s.WellFormed) (hl : LaidOut 0 sections) (hpos : 0 < size)
    (hblock : mapBlockSize ∣ size) (hsize : size < 2 ^ 63) :
    ∀ (bound : Nat) (before suffix : List StringMergeInputSection) (offset : Nat)
      (result : List SectionGroup), sections = before ++ suffix → StartsAt offset suffix →
      left suffix offset ≤ bound →
      ∃ groups, (∀ fuel, bound < fuel →
          splitLoop sections size fuel before.length offset (linearSize before + offset) result
            = some (result ++ groups))
        ∧ Tiles sections (linearSize before + offset) result.length groups := by
  have hisize : asIsize size = size := asIsize_of_lt hsize
  intro bound
  -- the induction is on what is left; every group leaves less
  induction bound using Nat.strongRecOn with
  | _ bound ih =>
    intro before suffix offset result he hs hbound
    rcases suffix with _ | ⟨sec, rest⟩
    · rw [append_nil] at he
      subst he
      have ho : offset = 0 := by
        rcases hs with h | ⟨_, _, h, _⟩
        · exact h
        · cases h
      subst ho
      refine ⟨[], ?_, rfl⟩
      intro fuel hfuel
      obtain ⟨fuel, rfl⟩ : ∃ n, fuel = n + 1 := ⟨fuel - 1, by omega⟩
      rw [splitLoop, if_neg (Nat.lt_irrefl _), append_nil]
    · obtain ⟨used, last, after, hsplit, hf⟩ :=
        @fillGroup_fills (sec :: rest) before.length offset (asIsize size)
          (cons_ne_nil sec rest) hs (by omega) (by rw [hisize]; exact_mod_cast hblock)
      obtain ⟨stop, hstop⟩ : ∃ stop, fillGroup (sec :: rest) before.length offset (asIsize size)
        = stop := ⟨_, rfl⟩
      rw [hstop] at hf
      rw [hsplit] at he hs hbound
      rw [← List.append_assoc] at he
      subst he
      have hgroup := @groupAt_eq before used after last offset size result.length stop hl hf
      obtain ⟨group, hg⟩ : ∃ g, groupAt (before ++ used ++ last :: after) size result.length
        (linearSize before + offset) before.length offset stop = g := ⟨_, rfl⟩
      rw [hg] at hgroup
      have hle : linearSize before + offset ≤ linearSize (before ++ used) + stop.offsetInSection :=
        le_end_of_fills hs hf
      -- one round of the loop, then the rest by induction
      obtain ⟨before', suffix', offset', he', hs', hsize', hleft, hnext⟩ := next_of_fills hs hf
      obtain ⟨groups, hrun, htiles⟩ := ih (left suffix' offset') (by omega) before' suffix' offset'
        (result ++ [group]) he' hs' (Nat.le_refl _)
      refine ⟨group :: groups, ?_, ?_⟩
      · intro fuel hfuel
        obtain ⟨fuel, rfl⟩ : ∃ n, fuel = n + 1 := ⟨fuel - 1, by omega⟩
        have hlt : before.length < (before ++ used ++ last :: after).length := by
          simp only [length_append, length_cons]
          omega
        have hdrop : (before ++ used ++ last :: after).drop before.length = sec :: rest := by
          rw [List.append_assoc, drop_left, hsplit]
        have htaken : linearSize before + offset + group.offsetsShard.len
            = linearSize before' + offset' := by
          rw [hgroup, hsize']
          dsimp only
          omega
        rw [splitLoop, if_pos hlt]
        simp only [hdrop, hstop, hg, htaken]
        rcases hnext with ⟨hend, h1, h2⟩ | ⟨hend, h1, h2⟩
        · rw [if_pos hend, ← h1, ← h2, hrun fuel (by omega), List.append_assoc]
          rfl
        · rw [if_neg (by simp [hend]), ← h1, ← h2, hrun fuel (by omega), List.append_assoc]
          rfl
      · have hcov := @covers_of_fills before used after last offset size stop hwf hl hs hf group
          (by rw [hgroup]) (by rw [hgroup]) (by rw [hgroup])
        rw [length_append, length_singleton] at htiles
        rw [← hsize'] at htiles
        refine ⟨by rw [hgroup], by rw [hgroup], by rw [hgroup]; exact hle, by rw [hgroup], hcov, ?_⟩
        rw [hgroup]
        exact htiles

/-- **The groups tile the input**, and the loop that makes them ends. -/
theorem splitSections_tiles {size : Nat}
    (hwf : ∀ s ∈ sections, s.WellFormed) (hl : LaidOut 0 sections) (hpos : 0 < size)
    (hblock : mapBlockSize ∣ size) (hsize : size < 2 ^ 63) :
    ∃ groups, (∀ fuel, linearSize sections + sections.length < fuel →
        splitSections fuel sections size = some groups)
      ∧ Tiles sections 0 0 groups := by
  obtain ⟨groups, hrun, htiles⟩ := splitLoop_tiles hwf hl hpos hblock hsize
    (linearSize sections + sections.length) [] sections 0 [] rfl (.inl rfl)
    (by simp [left])
  refine ⟨groups, ?_, htiles⟩
  intro fuel hfuel
  rw [splitSections, if_pos (Nat.mod_eq_zero_of_dvd hblock)]
  exact hrun fuel hfuel

variable {groups : List SectionGroup}

theorem length_le_of_splitLoop {size : Nat} : ∀ {fuel sectionIndex offset taken : Nat}
      {result : List SectionGroup},
      splitLoop sections size fuel sectionIndex offset taken result = some groups →
      result.length ≤ groups.length
        ∧ (sectionIndex < sections.length → result.length < groups.length)
  | 0, _, _, _, _, h => by simp [splitLoop] at h
  | fuel + 1, sectionIndex, offset, taken, result, h => by
    rw [splitLoop] at h
    split at h
    · have hlt : result.length < groups.length := by
        dsimp only at h
        split at h
        · have := (length_le_of_splitLoop h).1
          simp only [length_append, length_singleton] at this
          omega
        · have := (length_le_of_splitLoop h).1
          simp only [length_append, length_singleton] at this
          omega
      exact ⟨Nat.le_of_lt hlt, fun _ => hlt⟩
    · rename_i hdone
      cases h
      exact ⟨Nat.le_refl _, fun h' => absurd h' hdone⟩

/-- There is a group as soon as there is a section. -/
theorem groups_ne_nil {size bound : Nat} (hne : sections ≠ [])
    (h : ∀ fuel, bound < fuel → splitSections fuel sections size = some groups) :
    groups ≠ [] := by
  have hrun := h (bound + 1) (Nat.lt_succ_self bound)
  unfold splitSections at hrun
  split at hrun
  · exact length_pos_iff.mp
      ((length_le_of_splitLoop hrun).2 (length_pos_iff.mpr hne))
  · cases hrun

/-- **A size that is not positive as an `isize` never ends the loop.** -/
theorem splitLoop_diverges {size : Nat}
    (hsize : asIsize size ≤ 0) : ∀ (fuel sectionIndex offset taken : Nat)
      (result : List SectionGroup), sectionIndex < sections.length →
      splitLoop sections size fuel sectionIndex offset taken result = none
  | 0, _, _, _, _, _ => rfl
  | fuel + 1, sectionIndex, offset, taken, result, h => by
    have hfill : ∀ suffix, fillGroup suffix sectionIndex offset (asIsize size)
        = ⟨sectionIndex, offset, asIsize size, false⟩ := by
      intro suffix
      cases suffix with
      | nil => rfl
      | cons sec rest => rw [fillGroup, if_neg (by omega)]
    rw [splitLoop, if_pos h]
    simp only [hfill]
    exact splitLoop_diverges hsize fuel sectionIndex offset _ _ h

theorem splitSections_diverges {sections : List StringMergeInputSection} {size : Nat}
    (hne : sections ≠ []) (hsize : asIsize size ≤ 0) (fuel : Nat) :
    splitSections fuel sections size = none := by
  unfold splitSections
  split
  · exact splitLoop_diverges hsize fuel 0 0 0 [] (length_pos_iff.mpr hne)
  · rfl

end Srs.StringMerging
