/-
# Merging is content-preserving and does not depend on the schedule

What a run leaves behind (`Workload.Finished`) determines the merged section: the buckets are
those of the sequential merge (`buckets_of_finished`), and an input offset is mapped to an output
offset if and only if a string starts there, namely to the string's place in its bucket
(`lookup_of_finished`).  The rest follows from what an interning table is: the place of a word in
a bucket holds the word, and no word is there twice.
-/
import Srs.StringMerging.Merge

namespace Srs.StringMerging

open Intern List Option MergeStringsSectionBucket MergedStringsSection Function

section Correct

variable {hashBytes : Bytes → UInt64} {room : Shard → Nat → Bool}
  {sections : List StringMergeInputSection}

/-! ## 1. The places of the strings -/

/-- The bucket a string goes into. -/
def homeOf (hashBytes : Bytes → UInt64) (x : Nat × Slice) : Fin mergeStringBuckets :=
  bucketOf (hashBytes x.2.bytes)

/-- A bucket with all its strings. -/
def fullBucket (hashBytes : Bytes → UInt64) (sections : List StringMergeInputSection)
    (b : Fin mergeStringBuckets) : MergeStringsSectionBucket :=
  (new b).addAll
    ((bucketStrings hashBytes sections b).map (takeHashed hashBytes))

/-- The place of a string in the output. -/
def finalPlace (hashBytes : Bytes → UInt64) (sections : List StringMergeInputSection)
    (x : Nat × Slice) : BucketOffset :=
  placeIn (homeOf hashBytes x) (fullBucket hashBytes sections (homeOf hashBytes x)).words x.2.bytes

theorem fullBucket_represents (b : Fin mergeStringBuckets) :
    (fullBucket hashBytes sections b).Represents
      ∧ (fullBucket hashBytes sections b).words
        = internAll [] ((bucketStrings hashBytes sections b).map (·.bytes)) := by
  obtain ⟨hr, hw⟩ := @MergeStringsSectionBucket.words_addAll
    ((bucketStrings hashBytes sections b).map (takeHashed hashBytes)) _
    (represents_new b)
  refine ⟨hr, hw.trans ?_⟩
  rw [List.map_map]
  rfl

theorem length_fullBucket (b : Fin mergeStringBuckets) :
    (fullBucket hashBytes sections b).words.flatten.length = bucketSize hashBytes sections b := by
  rw [(fullBucket_represents b).2, length_flatten_internAll]
  rfl

theorem mem_fullBucket {x : Nat × Slice} (hx : x ∈ allStrings sections) :
    x.2.bytes ∈ (fullBucket hashBytes sections (homeOf hashBytes x)).words := by
  rw [(fullBucket_represents _).2, mem_internAll]
  refine .inr (List.mem_map_of_mem (f := fun s : Slice => s.bytes) ?_)
  exact mem_map.mpr ⟨x, mem_filter.mpr ⟨hx, by simp [homeOf]⟩, rfl⟩

/-! ## 2. The sequential merge -/

/-- What the sequential merge has after the strings `done`. -/
structure SequentialAfter (hashBytes : Bytes → UInt64) (sections : List StringMergeInputSection)
    (done : List (Nat × Slice)) (acc : Sequential) : Prop where
  buckets : ∀ b, acc.buckets b = (new b).addAll
    ((done.filter fun x => homeOf hashBytes x = b).map fun x => takeHashed hashBytes x.2)
  offsets : ∀ key, acc.offsets key
    = (done.find? fun x => x.1 = key).map (finalPlace hashBytes sections)

variable {done rest : List (Nat × Slice)} {overflow : List (Nat × BucketOffset)}

theorem words_isPrefix_fullBucket
    (h : allStrings sections = done ++ rest) (b : Fin mergeStringBuckets) :
    ((new b).addAll ((done.filter fun x => homeOf hashBytes x = b).map
      fun x => takeHashed hashBytes x.2)).words <+: (fullBucket hashBytes sections b).words := by
  have hfull : fullBucket hashBytes sections b
      = ((new b).addAll
          ((done.filter fun x => homeOf hashBytes x = b).map fun x => takeHashed hashBytes x.2)).addAll
        ((rest.filter fun x => homeOf hashBytes x = b).map fun x => takeHashed hashBytes x.2) := by
    rw [← addAll_append, ← map_append, ← filter_append, ← h,
      fullBucket, bucketStrings, List.map_map]
    rfl
  rw [hfull, (words_addAll
    (words_addAll (represents_new b)).1).2]
  exact isPrefix_internAll _ _

theorem sequential_add (hsize : ∀ b, bucketSize hashBytes sections b < 2 ^ 28) {x : Nat × Slice}
    (h : allStrings sections = done ++ x :: rest) (hnew : ∀ y ∈ done, y.1 ≠ x.1)
    {acc : Sequential} (ha : SequentialAfter hashBytes sections done acc) :
    ∃ acc', acc.add hashBytes x = .ok acc'
      ∧ SequentialAfter hashBytes sections (done ++ [x]) acc' := by
  obtain ⟨b, hb⟩ : ∃ b, homeOf hashBytes x = b := ⟨_, rfl⟩
  have hhome : bucketOf (takeHashed hashBytes x.2).hash = b := hb
  have hstep : ((acc.buckets b).entry (takeHashed hashBytes x.2)).1
      = (new b).addAll (((done ++ [x]).filter
          fun y => homeOf hashBytes y = b).map fun y => takeHashed hashBytes y.2) := by
    rw [filter_append, map_append, addAll_append, ← ha.buckets]
    simp [hb, addAll]
  have hrep : (acc.buckets b).Represents := by
    rw [ha.buckets]
    exact (words_addAll (represents_new b)).1
  have hidx : (acc.buckets b).index = b := by
    rw [ha.buckets, addAll_index]
    rfl
  have hp : ((acc.buckets b).entry (takeHashed hashBytes x.2)).1.words
      <+: (fullBucket hashBytes sections b).words := by
    rw [hstep]
    exact words_isPrefix_fullBucket (h.trans (append_cons done x rest)) b
  have hadd := addString_eq hrep (takeHashed hashBytes x.2) hp
    (startsFit_of_length (by rw [length_fullBucket]; exact hsize b))
  rw [hidx] at hadd
  refine ⟨⟨update acc.buckets b ((acc.buckets b).entry (takeHashed hashBytes x.2)).1,
    update acc.offsets x.1 (some (finalPlace hashBytes sections x))⟩, ?_, ?_, ?_⟩
  · simp only [Sequential.add, hhome, hadd, bind, Except.bind, finalPlace, hb]
    rfl
  · intro c
    dsimp only
    by_cases hc : c = b
    · subst hc
      rw [update_self, hstep]
    · have hne : ¬ homeOf hashBytes x = c := fun e => hc (e.symm.trans hb)
      rw [update_of_ne hc, ha.buckets, filter_append]
      simp [hne]
  · intro key
    dsimp only
    rw [find?_append]
    by_cases hkey : key = x.1
    · subst hkey
      have hnone : done.find? (fun y => y.1 = x.1) = none := by
        refine find?_eq_none.mpr ?_
        intro y hy
        simpa using hnew y hy
      rw [update_self, hnone]
      simp
    · have hne : ¬ x.1 = key := fun e => hkey e.symm
      rw [update_of_ne hkey, ha.offsets]
      simp [hne]

/-- The sequential merge succeeds, with the full buckets and the places of all strings. -/
theorem mergeSequentially_eq (hwf : ∀ s ∈ sections, s.WellFormed) (hl : LaidOut 0 sections)
    (hsize : ∀ b, bucketSize hashBytes sections b < 2 ^ 28) :
    ∃ acc, mergeSequentially hashBytes sections = .ok acc
      ∧ SequentialAfter hashBytes sections (allStrings sections) acc := by
  have hpair := pairwise_allStrings hwf hl
  -- the induction is on the strings still to come
  have hrun : ∀ (rest done : List (Nat × Slice)) (acc : Sequential),
      allStrings sections = done ++ rest → SequentialAfter hashBytes sections done acc →
      ∃ acc', rest.foldlM (Sequential.add hashBytes) acc = .ok acc'
        ∧ SequentialAfter hashBytes sections (allStrings sections) acc' := by
    intro rest
    induction rest with
    | nil =>
      intro done acc h ha
      rw [append_nil] at h
      exact ⟨acc, rfl, h ▸ ha⟩
    | cons x rest ih =>
      intro done acc h ha
      have hnew : ∀ y ∈ done, y.1 ≠ x.1 := by
        intro y hy e
        rw [h] at hpair
        have hprec : y.1 + y.2.len ≤ x.1 :=
          (pairwise_append.mp hpair).2.2 y hy x mem_cons_self
        have hpos := len_pos_of_mem_allStrings hwf
          (by rw [h]; exact mem_append_left _ hy : y ∈ allStrings sections)
        omega
      obtain ⟨acc', hadd, ha'⟩ := sequential_add hsize h hnew ha
      obtain ⟨acc'', hrest, ha''⟩ := ih (done ++ [x]) acc' (by rw [h]; simp) ha'
      refine ⟨acc'', ?_, ha''⟩
      rw [foldlM_cons, hadd]
      exact hrest
  exact hrun (allStrings sections) [] _ rfl ⟨fun _ => rfl, fun _ => rfl⟩

/-! ## 3. The finished section -/

theorem overflowMap_eq {key : Nat} {offset : BucketOffset}
    (hmem : (key, offset) ∈ overflow) (hunique : ∀ o, (key, o) ∈ overflow → o = offset) :
    overflowMap overflow key = some offset := by
  have hgen : ∀ (l : List (Nat × BucketOffset)) (map : Nat → Option BucketOffset),
      (∀ o, (key, o) ∈ l → o = offset) → ((key, offset) ∈ l ∨ map key = some offset) →
      (l.foldl (fun (map : Nat → Option BucketOffset) o => update map o.1 (some o.2)) map) key = some offset := by
    intro l
    induction l with
    | nil => intro map _ h; exact h.resolve_left not_mem_nil
    | cons x l ih =>
      intro map hu h
      refine ih _ (fun o ho => hu o (mem_cons_of_mem x ho)) ?_
      dsimp only
      by_cases hx : x.1 = key
      · have hval : x.2 = offset := hu x.2 (by rw [← hx]; exact mem_cons_self)
        exact .inr (by rw [← hx, update_self, hval])
      · rw [update_of_ne (Ne.symm hx)]
        refine h.imp_left ?_
        intro hm
        refine (mem_cons.mp hm).resolve_left ?_
        intro e
        exact hx (by rw [← e])
  exact hgen overflow _ hunique (.inl hmem)

theorem overflowMap_eq_none {key : Nat}
    (h : ∀ o, (key, o) ∉ overflow) : overflowMap overflow key = none := by
  have hgen : ∀ (l : List (Nat × BucketOffset)) (map : Nat → Option BucketOffset),
      (∀ o, (key, o) ∉ l) → map key = none →
      (l.foldl (fun (map : Nat → Option BucketOffset) o => update map o.1 (some o.2)) map) key = none := by
    intro l
    induction l with
    | nil => intro map _ hm; exact hm
    | cons x l ih =>
      intro map hl hm
      refine ih _ (fun o ho => hl o (mem_cons_of_mem x ho)) ?_
      have hx : key ≠ x.1 := by
        intro e
        exact hl x.2 (by rw [e]; exact mem_cons_self)
      dsimp only
      rw [update_of_ne hx]
      exact hm
  exact hgen overflow _ h rfl

section Tiled

variable {groups : List SectionGroup}

section

variable (hwf : ∀ s ∈ sections, s.WellFormed) (hl : LaidOut 0 sections)
  (ht : Tiles sections 0 0 groups)
include hwf hl ht

theorem bucketAt_workload
    (b : Fin mergeStringBuckets) (next : Nat) :
    (workload hashBytes room hwf hl ht).bucketAt b groups.length next
      = { fullBucket hashBytes sections b with nextInputGroupIndex := next } := by
  rw [Workload.bucketAt, upTo_workload]
  rfl

theorem fits_workload
    (hsize : ∀ b, bucketSize hashBytes sections b < 2 ^ 28) :
    (workload hashBytes room hwf hl ht).Fits := by
  intro b
  rw [Workload.table, bucketAt_workload]
  exact lt_of_eq_of_lt (length_fullBucket b) (hsize b)

/-- A string of the input is one of the tagged strings of some group. -/
theorem exists_item
    {x : Nat × Slice} (hx : x ∈ allStrings sections) :
    ∃ g y, g < groups.length ∧ y ∈ (workload hashBytes room hwf hl ht).items g
      ∧ y.offsetOut.key = x.1 ∧ y.string = takeHashed hashBytes x.2 := by
  have hall : x ∈ groups.flatMap (groupStrings sections) := by
    rw [flatMap_groupStrings hwf hl ht]
    exact mem_filter.mpr ⟨hx, by simp⟩
  obtain ⟨group, hgroup, hxg⟩ := mem_flatMap.mp hall
  obtain ⟨g, hg, rfl⟩ := getElem_of_mem hgroup
  have hmap := map_tag hashBytes room (groupStrings sections groups[g]) groups[g].offsetsShard
  have hmem : (x.1, takeHashed hashBytes x.2) ∈ (tag hashBytes room groups[g].offsetsShard
      (groupStrings sections groups[g])).1.map fun y => (y.offsetOut.key, y.string) := by
    rw [hmap]
    exact mem_map.mpr ⟨x, hxg, rfl⟩
  obtain ⟨y, hy, he⟩ := mem_map.mp hmem
  obtain ⟨h1, h2⟩ := Prod.mk.inj he
  refine ⟨g, y, hg, ?_, h1, h2⟩
  simpa only [workload, taggedGroup, getElem?_eq_getElem hg] using hy

theorem placeOf_workload
    {x : Nat × Slice} {y : StringToMerge}
    (h : y.string = takeHashed hashBytes x.2) :
    (workload hashBytes room hwf hl ht).placeOf y = finalPlace hashBytes sections x := by
  rw [Workload.placeOf, h, Workload.table, bucketAt_workload]
  rfl

end

variable {s : State}

/-- The maps of a finished run: an output offset is recorded where a string starts, and nowhere
else. -/
theorem lookup_of_finished (hwf : ∀ s ∈ sections, s.WellFormed) (hl : LaidOut 0 sections)
    (ht : Tiles sections 0 0 groups)
    (hf : (workload hashBytes room hwf hl ht).Finished s) {overflow : List (Nat × BucketOffset)}
    (hp : overflow.Perm s.store.overflowed) (key : Nat) :
    (s.store.stringOffsets key).or (overflowMap overflow key)
      = ((allStrings sections).find? fun x => x.1 = key).map (finalPlace hashBytes sections) := by
  cases hfind : (allStrings sections).find? fun x => x.1 = key with
  | some x =>
    have hx := mem_of_find?_eq_some hfind
    have hkey : x.1 = key := by simpa using find?_some hfind
    obtain ⟨g, y, hg, hy, hyk, hys⟩ := @exists_item hashBytes room sections groups hwf hl ht x hx
    have hplace := @placeOf_workload hashBytes room sections groups hwf hl ht x y hys
    have hcells : ∀ g' y', y' ∈ (workload hashBytes room hwf hl ht).items g' →
        y'.offsetOut.key = key → y' = y := by
      intro g' y' hy' hk
      exact ((workload hashBytes room hwf hl ht).distinct g' g y' y hy' hy
        (by rw [hk, hyk, hkey])).2
    rw [map_some, ← hplace]
    cases hout : y.offsetOut with
    | inShard k =>
      have hk : k = key := by rw [hout] at hyk; exact hyk.trans hkey
      subst hk
      rw [hf.stores.cell g y k hg hy hout, if_pos hg]
      rfl
    | overflow k =>
      have hk : k = key := by rw [hout] at hyk; exact hyk.trans hkey
      subst hk
      have hnone : s.store.stringOffsets k = none := by
        refine hf.stores.no_cell k ?_
        intro g' y' _ hy' hin
        have := hcells g' y' hy' (by rw [hin]; rfl)
        rw [this, hout] at hin
        cases hin
      rw [hnone, none_or]
      refine overflowMap_eq ?_ ?_
      · exact hp.mem_iff.mpr ((hf.stores.overflow k _).mpr ⟨g, y, hg, hy, hout, rfl⟩)
      · intro o ho
        obtain ⟨g', y', -, hy', hout', rfl⟩ := (hf.stores.overflow k o).mp (hp.mem_iff.mp ho)
        rw [hcells g' y' hy' (by rw [hout']; rfl)]
  | none =>
    have hno : ∀ x ∈ allStrings sections, x.1 ≠ key := by
      intro x hx
      simpa using find?_eq_none.mp hfind x hx
    have hitem : ∀ g y, y ∈ (workload hashBytes room hwf hl ht).items g →
        y.offsetOut.key ≠ key := by
      intro g y hy
      obtain ⟨hg, hmem, -⟩ := mem_taggedGroup hashBytes room hy
      exact hno _ (mem_allStrings_of_mem_groupStrings hmem)
    have hcell : s.store.stringOffsets key = none := by
      refine hf.stores.no_cell key ?_
      intro g y _ hy hin
      exact hitem g y hy (by rw [hin]; rfl)
    have hover : overflowMap overflow key = none := by
      refine overflowMap_eq_none ?_
      intro o ho
      obtain ⟨g, y, -, hy, hout, -⟩ := (hf.stores.overflow key o).mp (hp.mem_iff.mp ho)
      exact hitem g y hy (by rw [hout]; rfl)
    rw [hcell, hover]
    rfl

@[simp] theorem fullBucket_index (b : Fin mergeStringBuckets) :
    (fullBucket hashBytes sections b).index = b :=
  addAll_index _ _

/-- The finished buckets in order. -/
def finalBuckets (hashBytes : Bytes → UInt64) (sections : List StringMergeInputSection)
    (numInputGroups : Nat) : List MergeStringsSectionBucket :=
  (finRange mergeStringBuckets).map fun b =>
    { fullBucket hashBytes sections b with nextInputGroupIndex := numInputGroups }

theorem finalBuckets_pairwise (n : Nat) :
    (finalBuckets hashBytes sections n).Pairwise fun a b => a.index.val < b.index.val := by
  refine pairwise_map.mpr ((pairwise_lt_finRange _).imp ?_)
  intro a b hab
  simpa using hab

theorem buckets_of_finished (hwf : ∀ s ∈ sections, s.WellFormed) (hl : LaidOut 0 sections)
    (ht : Tiles sections 0 0 groups)
    (hf : (workload hashBytes room hwf hl ht).Finished s) :
    sortedByKey (·.index.val) s.finishedBuckets
      = finalBuckets hashBytes sections groups.length := by
  have hperm : s.finishedBuckets.Perm (finalBuckets hashBytes sections groups.length) := by
    refine hf.buckets.trans (Perm.of_eq ?_)
    refine map_congr_left ?_
    intro b _
    exact bucketAt_workload hwf hl ht b groups.length
  have hsorted := @finalBuckets_pairwise hashBytes sections groups.length
  refine Perm.eq_of_pairwise ?_
    (sortedByKey_pairwise (fun b : MergeStringsSectionBucket => b.index.val) _)
    (hsorted.imp Nat.le_of_lt) ((sortedByKey_perm _ _).trans hperm)
  intro a b ha hb hab hba
  have ha' := hperm.mem_iff.mp ((sortedByKey_perm _ _).mem_iff.mp ha)
  obtain ⟨i, -, rfl⟩ := mem_map.mp ha'
  obtain ⟨j, -, rfl⟩ := mem_map.mp hb
  have hij : i = j := by
    have h1 : i.val ≤ j.val := by simpa using hab
    have h2 : j.val ≤ i.val := by simpa using hba
    exact Fin.ext (Nat.le_antisymm h1 h2)
  rw [hij]

/-! ## 4. Patch records -/

theorem exists_patchLoop (m : MergedStringsSection) : ∀ bytes, Terminated.Closed 0 bytes →
    ∀ (remaining : Slice) (inputOffset : Nat) (first : Option Nat) (next : Nat),
      remaining.bytes = bytes →
      ∃ r, m.patchLoop hashBytes inputOffset remaining first next = .ok r := by
  refine Terminated.Closed.induction ?_ ?_
  · intro remaining inputOffset first next hs
    exact ⟨first, by rw [patchLoop, if_pos hs]⟩
  · intro body rest hb _ ih remaining inputOffset first next hs
    have hne : ¬ remaining.bytes = [] := by
      rw [hs]
      simp
    rw [patchLoop, if_neg hne]
    split
    · rename_i e he
      have htake : ∃ string rest', takeStringHashed hashBytes remaining = .ok (string, rest') := by
        refine ⟨_, _, (takeStringHashed_eq_ok hashBytes).mpr ⟨body.length, ?_, rfl, rfl⟩⟩
        rw [memchr, hs, Terminated.idxOf?_append hb]
      obtain ⟨string, rest', htake⟩ := htake
      rw [he] at htake
      cases htake
    · rename_i string rest' he
      obtain ⟨i, hi, -, rfl⟩ := (takeStringHashed_eq_ok hashBytes).mp he
      rw [memchr, hs, Terminated.idxOf?_append hb] at hi
      cases hi
      split
      · exact ⟨none, rfl⟩
      · split
        · exact ⟨none, rfl⟩
        · refine ih _ _ _ _ ?_
          have hd := Terminated.drop_append_piece 0 body rest 0
          rwa [Nat.add_zero, List.drop_zero, ← hs] at hd

theorem exists_patchRecord (m : MergedStringsSection) {s : StringMergeInputSection}
    (hwf : s.WellFormed) : ∃ r, m.patchRecordForInputSection hashBytes s = .ok r := by
  cases hs : s.isString with
  | true =>
    have hc : Terminated.Closed 0 s.sectionData.bytes := by
      simpa [StringMergeInputSection.WellFormed, hs] using hwf
    obtain ⟨r, hr⟩ := @exists_patchLoop hashBytes m _ hc s.sectionData s.startInputOffset none 0 rfl
    simp only [patchRecordForInputSection, hs, if_true, hr, bind, Except.bind]
    exact ⟨_, rfl⟩
  | false =>
    by_cases hne : s.sectionData.bytes = []
    · simp only [patchRecordForInputSection, hs, Bool.false_eq_true, if_false,
        hne, if_true, bind, Except.bind]
      exact ⟨_, rfl⟩
    · simp only [patchRecordForInputSection, hs, Bool.false_eq_true, if_false,
        hne, bind, Except.bind]
      exact ⟨_, rfl⟩

/-- **What a finished run is turned into.** -/
theorem finish_of_finished (hwf : ∀ s ∈ sections, s.WellFormed) (hl : LaidOut 0 sections)
    (ht : Tiles sections 0 0 groups)
    (hf : (workload hashBytes room hwf hl ht).Finished s) (overflow : List (Nat × BucketOffset)) :
    ∃ (m : MergedStringsSection) (records : List (Option MergeStringPatchRecord)),
      sections.mapM (m.patchRecordForInputSection hashBytes) = .ok records
      ∧ finish hashBytes sections groups.length s overflow
        = .ok { m with patchRecords := records.reduceOption }
      ∧ m.buckets = finalBuckets hashBytes sections groups.length
      ∧ m.bucketOffsets = bucketOffsetsFrom 0 m.buckets
      ∧ m.stringOffsets = s.store.stringOffsets
      ∧ m.overflowedStringOffsets = overflowMap overflow := by
  have hbuckets := buckets_of_finished hwf hl ht hf
  have hlen : ¬ (finalBuckets hashBytes sections groups.length).length < mergeStringBuckets - 1 := by
    rw [finalBuckets, length_map, length_finRange]
    decide
  have hshards : ¬ ∃ g ∈ List.range groups.length, (s.finishedShards g).isNone := by
    rintro ⟨g, hg, hnone⟩
    rw [hf.shards g (mem_range.mp hg)] at hnone
    cases hnone
  obtain ⟨m, hm⟩ : ∃ m : MergedStringsSection, m =
    { buckets := finalBuckets hashBytes sections groups.length
      bucketOffsets := bucketOffsetsFrom 0 (finalBuckets hashBytes sections groups.length)
      stringOffsets := s.store.stringOffsets
      overflowedStringOffsets := overflowMap overflow
      patchRecords := [] } := ⟨_, rfl⟩
  obtain ⟨records, hrecords, -⟩ := exists_mapM_ok (f := m.patchRecordForInputSection hashBytes)
    (l := sections) fun t h => exists_patchRecord m (hwf t h)
  refine ⟨m, records, hrecords, ?_, by rw [hm], by rw [hm], by rw [hm], by rw [hm]⟩
  rw [hm] at hrecords
  simp only [finish, hf.errors, hbuckets, failIf, if_neg hlen, if_neg hshards, hrecords, bind,
    Except.bind, hm]

end Tiled

/-! ## 5. The output -/

/-- A merged section with the full buckets and the places of all strings. -/
structure Merged (hashBytes : Bytes → UInt64) (sections : List StringMergeInputSection)
    (n : Nat) (m : MergedStringsSection) : Prop where
  buckets : m.buckets = finalBuckets hashBytes sections n
  bucketOffsets : m.bucketOffsets = bucketOffsetsFrom 0 m.buckets
  lookup : ∀ key, m.stringOffsetAtInput key
    = ((allStrings sections).find? fun x => x.1 = key).map (finalPlace hashBytes sections)

theorem getElem?_bucketOffsetsFrom (b : MergeStringsSectionBucket)
    (post : List MergeStringsSectionBucket) : ∀ (pre : List MergeStringsSectionBucket)
      (start : Nat), (bucketOffsetsFrom start (pre ++ b :: post))[pre.length]?
        = some (start + (pre.map (·.nextOffset.toNat)).sum)
  | [], start => by simp [bucketOffsetsFrom]
  | c :: pre, start => by
    rw [cons_append, bucketOffsetsFrom, length_cons, getElem?_cons_succ,
      getElem?_bucketOffsetsFrom b post pre, map_cons, sum_cons, Nat.add_assoc]

section Output

variable {n : Nat} {m : MergedStringsSection}

theorem nextOffset_fullBucket (hsize : ∀ b, bucketSize hashBytes sections b < 2 ^ 32)
    (b : Fin mergeStringBuckets) :
    (fullBucket hashBytes sections b).nextOffset.toNat
      = (fullBucket hashBytes sections b).words.flatten.length := by
  have hlt := hsize b
  rw [← length_fullBucket] at hlt
  rw [(fullBucket_represents b).1.next, UInt32.toNat_ofNat']
  exact Nat.mod_eq_of_lt (by omega)

/-- The buckets before and after a bucket. -/
theorem exists_split_finalBuckets (n : Nat) (b : Fin mergeStringBuckets) :
    ∃ pre post, finalBuckets hashBytes sections n
        = pre ++ { fullBucket hashBytes sections b with nextInputGroupIndex := n } :: post
      ∧ pre.length = b.val := by
  have hlen : b.val < (finalBuckets hashBytes sections n).length := by
    simp [finalBuckets]
  refine ⟨(finalBuckets hashBytes sections n).take b.val,
    (finalBuckets hashBytes sections n).drop (b.val + 1), ?_, ?_⟩
  · have hget : (finalBuckets hashBytes sections n)[b.val]
        = { fullBucket hashBytes sections b with nextInputGroupIndex := n } := by
      simp [finalBuckets]
    rw [← hget, getElem_cons_drop, take_append_drop]
  · rw [length_take]
    omega

theorem flatMap_strings (L : List MergeStringsSectionBucket) :
    (L.flatMap (·.strings)).flatMap (·.bytes) = L.flatMap fun b => b.words.flatten := by
  rw [flatMap_assoc]
  rfl

theorem length_flatMap_words (hsize : ∀ b, bucketSize hashBytes sections b < 2 ^ 32) :
    ∀ {L : List MergeStringsSectionBucket}, (∀ c ∈ L, c ∈ finalBuckets hashBytes sections n) →
      (L.flatMap fun b => b.words.flatten).length = (L.map (·.nextOffset.toNat)).sum
  | [], _ => rfl
  | c :: L, h => by
    obtain ⟨b, -, hb⟩ := mem_map.mp (h c mem_cons_self)
    have hnext : c.nextOffset.toNat = c.words.flatten.length := by
      rw [← hb]
      exact nextOffset_fullBucket hsize b
    rw [flatMap_cons, length_append,
      length_flatMap_words hsize fun d hd => h d (mem_cons_of_mem c hd), map_cons,
      sum_cons, hnext]

variable {x y : Nat × Slice}

/-- What is at a string's place: the string. -/
theorem output_at (hsize : ∀ b, bucketSize hashBytes sections b < 2 ^ 28)
    (hm : Merged hashBytes sections n m) (hx : x ∈ allStrings sections) :
    ∃ offset, finalPlace hashBytes sections x = .make (homeOf hashBytes x) offset
      ∧ offset + x.2.len < 2 ^ 28
      ∧ (∀ d, offset + d < 2 ^ 28 → m.outputOffset (.make (homeOf hashBytes x) (offset + d))
        = m.outputOffset (finalPlace hashBytes sections x) + d)
      ∧ (m.output.drop (m.outputOffset (finalPlace hashBytes sections x))).take x.2.len
        = x.2.bytes := by
  obtain ⟨b, hb⟩ : ∃ b, homeOf hashBytes x = b := ⟨_, rfl⟩
  have hmem := @mem_fullBucket hashBytes sections x hx
  rw [hb] at hmem
  obtain ⟨offset, ho⟩ := exists_offsetOf hmem
  obtain ⟨hle, htake⟩ := take_drop_of_offsetOf ho
  have hlt := hsize b
  rw [← length_fullBucket] at hlt
  have hplace : finalPlace hashBytes sections x = .make b offset := by
    rw [finalPlace, hb, placeIn, ho]
    rfl
  obtain ⟨pre, post, hsplit, hpre⟩ :=
    @exists_split_finalBuckets hashBytes sections n b
  have hbase : ∀ o, o < 2 ^ 28 →
      m.outputOffset (.make b o) = (pre.map (·.nextOffset.toNat)).sum + o := by
    intro o ho
    rw [outputOffset, BucketOffset.bucket_make ho,
      BucketOffset.offsetInBucket_make ho, hm.bucketOffsets, hm.buckets, hsplit, ← hpre,
      getElem?_bucketOffsetsFrom, getD_some, Nat.zero_add]
  have hlen : x.2.len = x.2.bytes.length := rfl
  refine ⟨offset, by rw [hplace, hb], by omega, ?_, ?_⟩
  · intro d hd
    rw [hb, hbase _ hd, hplace, hbase _ (by omega)]
    omega
  · have hprelen : (pre.flatMap fun b => b.words.flatten).length
        = (pre.map (·.nextOffset.toNat)).sum := by
      refine length_flatMap_words (n := n) (fun b => Nat.lt_trans (hsize b) (by decide)) ?_
      intro c hc
      rw [hsplit]
      exact mem_append_left _ hc
    rw [hplace, hbase _ (by omega), output,
      outputStrings, flatMap_strings, hm.buckets, hsplit,
      flatMap_append, flatMap_cons, ← hprelen, drop_length_add_append]
    have hwords : ({ fullBucket hashBytes sections b with nextInputGroupIndex := n }
        : MergeStringsSectionBucket).words = (fullBucket hashBytes sections b).words := rfl
    rw [hwords, drop_append_of_le_length (by omega), take_append_of_le_length, hlen,
      htake]
    rw [length_drop]
    omega

section

variable (hwf : ∀ s ∈ sections, s.WellFormed) (hl : LaidOut 0 sections)
  (hx : x ∈ allStrings sections) (hy : y ∈ allStrings sections)
include hwf hl hx hy

/-- Two strings are the same or do not overlap. -/
theorem apart :
    x = y ∨ Precedes x y ∨ Precedes y x := by
  have hpair : (allStrings sections).Pairwise fun a b => Precedes a b ∨ Precedes b a :=
    (pairwise_allStrings hwf hl).imp fun h => .inl h
  have : Std.Symm fun a b : Nat × Slice => Precedes a b ∨ Precedes b a := ⟨fun _ _ h => h.symm⟩
  by_cases he : x = y
  · exact .inl he
  · exact .inr (hpair.forall hx hy he)

theorem eq_of_start_eq (h : x.1 = y.1) : x = y := by
  have hxpos := len_pos_of_mem_allStrings hwf hx
  have hypos := len_pos_of_mem_allStrings hwf hy
  rcases apart hwf hl hx hy with he | hxy | hyx
  · exact he
  · simp only [Precedes] at hxy
    omega
  · simp only [Precedes] at hyx
    omega

end

/-- No string is in the output twice. -/
theorem nodup_output (hm : Merged hashBytes sections n m) :
    (m.outputStrings.map (·.bytes)).Nodup := by
  have hwords : m.outputStrings.map (·.bytes)
      = (finalBuckets hashBytes sections n).flatMap (·.words) := by
    rw [outputStrings, hm.buckets, map_flatMap]
    rfl
  have hhome : ∀ b word, word ∈ (fullBucket hashBytes sections b).words →
      bucketOf (hashBytes word) = b := by
    intro b word hw
    rw [(fullBucket_represents b).2, mem_internAll] at hw
    obtain ⟨s, hs, rfl⟩ := mem_map.mp (hw.resolve_left not_mem_nil)
    obtain ⟨x, hx, rfl⟩ := mem_map.mp hs
    simpa using (mem_filter.mp hx).2
  rw [hwords]
  refine nodup_flatMap.mpr ⟨?_, ?_⟩
  · intro c hc
    obtain ⟨b, -, rfl⟩ := mem_map.mp hc
    have : (fullBucket hashBytes sections b).words.Nodup := by
      rw [(fullBucket_represents b).2]
      exact nodup_internAll nodup_nil
    exact this
  · refine pairwise_map.mpr ((pairwise_lt_finRange _).imp ?_)
    intro a b hab word ha hb
    have h1 := hhome a word ha
    have h2 := hhome b word hb
    exact absurd (h1.symm.trans h2) (Fin.ne_of_lt hab)

section

variable (hwf : ∀ s ∈ sections, s.WellFormed) (hl : LaidOut 0 sections)
include hwf hl

/-- A string starts where its recorded offset is found. -/
theorem lookup_start
    (hm : Merged hashBytes sections n m) (hx : x ∈ allStrings sections) :
    m.stringOffsetAtInput x.1 = some (finalPlace hashBytes sections x) := by
  rw [hm.lookup]
  cases hfind : (allStrings sections).find? fun y => y.1 = x.1 with
  | none =>
    have hno := find?_eq_none.mp hfind x hx
    simp at hno
  | some y =>
    have hy := mem_of_find?_eq_some hfind
    have hkey : y.1 = x.1 := by simpa using find?_some hfind
    rw [eq_of_start_eq hwf hl hy hx hkey]
    rfl

/-- No string starts inside another one. -/
theorem lookup_inside
    (hm : Merged hashBytes sections n m) (hx : x ∈ allStrings sections)
    {d : Nat} (hpos : 0 < d) (hd : d < x.2.len) : m.stringOffsetAtInput (x.1 + d) = none := by
  rw [hm.lookup]
  have hnone : (allStrings sections).find? (fun y => y.1 = x.1 + d) = none := by
    refine find?_eq_none.mpr ?_
    intro y hy hkey
    have hkey : y.1 = x.1 + d := by simpa using hkey
    rcases apart hwf hl hx hy with rfl | hxy | hyx
    · omega
    · simp only [Precedes] at hxy
      omega
    · have := len_pos_of_mem_allStrings hwf hy
      simp only [Precedes] at hyx
      omega
  rw [hnone]
  rfl

/-- **An offset inside a string is mapped to the same distance into its copy.** -/
theorem findString_eq
    (hsize : ∀ b, bucketSize hashBytes sections b < 2 ^ 28)
    (hm : Merged hashBytes sections n m) {s : StringMergeInputSection} (hs : s ∈ sections) (hx : x ∈ sectionStrings s) {d : Nat} (hd : d < x.2.len) :
    ∃ o, findString s.startInputOffset (x.1 - s.startInputOffset + d) m = .ok o
      ∧ m.outputOffset o = m.outputOffset (finalPlace hashBytes sections x) + d := by
  have hxall : x ∈ allStrings sections := mem_flatMap.mpr ⟨s, hs, hx⟩
  have hbounds := bounds_of_mem_sectionStrings (hwf s hs) hx
  obtain ⟨offset, hplace, hlt, hadd, -⟩ := output_at hsize hm hxall
  refine ⟨.make (homeOf hashBytes x) (offset + d), ?_, hadd d (by omega)⟩
  have hat : ∀ e, s.startInputOffset + (x.1 - s.startInputOffset + e) = x.1 + e := by
    intro e
    omega
  cases d with
  | zero =>
    rw [findString, hat, Nat.add_zero, lookup_start hwf hl hm hxall, hplace]
    rfl
  | succ d =>
    -- the search meets only offsets inside the string before it comes to its start
    have hrange : range' 1 (x.1 - s.startInputOffset + (d + 1))
        = range' 1 d ++ (d + 1) :: range' (d + 2) (x.1 - s.startInputOffset) := by
      have h1 := @List.range'_append_1 1 d (x.1 - s.startInputOffset + 1)
      rw [range'_succ] at h1
      have h2 : d + (x.1 - s.startInputOffset + 1) = x.1 - s.startInputOffset + (d + 1) := by omega
      rw [h2] at h1
      rw [← h1, Nat.add_comm 1 d]
    have hbefore : (range' 1 d).findSome? (fun i =>
        (m.stringOffsetAtInput (s.startInputOffset + (x.1 - s.startInputOffset + (d + 1) - i))).map
          fun offset => (⟨offset.raw + UInt32.ofNat i⟩ : BucketOffset)) = none := by
      refine findSome?_eq_none_iff.mpr ?_
      intro i hi
      obtain ⟨hlo, hhi⟩ := mem_range'_1.mp hi
      have hpos : s.startInputOffset + (x.1 - s.startInputOffset + (d + 1) - i)
          = x.1 + (d + 1 - i) := by omega
      rw [hpos, lookup_inside hwf hl hm hxall (by omega) (by omega)]
      rfl
    have hstart : s.startInputOffset + (x.1 - s.startInputOffset + (d + 1) - (d + 1)) = x.1 := by
      omega
    have hself : m.stringOffsetAtInput (s.startInputOffset
        + (x.1 - s.startInputOffset + (d + 1))) = none := by
      rw [hat]
      exact lookup_inside hwf hl hm hxall (Nat.succ_pos d) hd
    rw [findString, hself]
    dsimp only
    rw [hrange, findSome?_append, hbefore, none_or, findSome?_cons, hstart,
      lookup_start hwf hl hm hxall, hplace, map_some, BucketOffset.add_make (by omega)]
    rfl

end

end Output

/-! ## 6. The result -/

/-- The section is what the sequential merge makes. -/
structure MergesLike (seq : Sequential) (numInputGroups : Nat) (m : MergedStringsSection) :
    Prop where
  buckets : m.buckets = (finRange mergeStringBuckets).map fun b =>
    { seq.buckets b with nextInputGroupIndex := numInputGroups }
  bucketOffsets : m.bucketOffsets = bucketOffsetsFrom 0 m.buckets
  offsets : ∀ key, m.stringOffsetAtInput key = seq.offsets key

/-- The section has the content of the input, each string once. -/
structure Faithful (sections : List StringMergeInputSection) (m : MergedStringsSection) :
    Prop where
  content : ∀ x ∈ allStrings sections, ∃ o, m.stringOffsetAtInput x.1 = some o
    ∧ (m.output.drop (m.outputOffset o)).take x.2.len = x.2.bytes
  nodup : (m.outputStrings.map (·.bytes)).Nodup
  found : ∀ s ∈ sections, ∀ x ∈ sectionStrings s, ∀ d, d < x.2.len →
    ∃ o o', m.stringOffsetAtInput x.1 = some o
      ∧ findString s.startInputOffset (x.1 - s.startInputOffset + d) m = .ok o'
      ∧ m.outputOffset o' = m.outputOffset o + d

/-- What is asked of merging: the sections are split into groups, and however the tasks take
their steps, they can be brought to an end, and whenever they are at their end the result is that
of the sequential merge, with the content of the input. -/
def MergesFaithfully (hashBytes : Bytes → UInt64) (room : Shard → Nat → Bool)
    (sections : List StringMergeInputSection) (size capacity : Nat) : Prop :=
  ∃ (groups : List SectionGroup) (seq : Sequential),
    (∃ bound, ∀ fuel, bound < fuel → splitSections fuel sections size = some groups)
    ∧ mergeSequentially hashBytes sections = .ok seq
    ∧ ∀ s, Reachable hashBytes room groups capacity s →
      (∃ s', Relation.ReflTransGen (Step hashBytes room groups.length) s s' ∧ s'.tasks = 0)
      ∧ (s.tasks = 0 → ∀ overflow : List (Nat × BucketOffset), overflow.Perm s.store.overflowed →
        ∃ m, finish hashBytes sections groups.length s overflow = .ok m
          ∧ MergesLike seq groups.length m ∧ Faithful sections m)

theorem faithful_of_merged {n : Nat} {m : MergedStringsSection}
    (hwf : ∀ s ∈ sections, s.WellFormed) (hl : LaidOut 0 sections)
    (hsize : ∀ b, bucketSize hashBytes sections b < 2 ^ 28)
    (hm : Merged hashBytes sections n m) : Faithful sections m := by
  refine ⟨?_, nodup_output hm, ?_⟩
  · intro x hx
    obtain ⟨-, -, -, -, hcontent⟩ := output_at hsize hm hx
    exact ⟨_, lookup_start hwf hl hm hx, hcontent⟩
  · intro s hs x hx d hd
    obtain ⟨o, hfind, hout⟩ := findString_eq hwf hl hsize hm hs hx hd
    exact ⟨_, o, lookup_start hwf hl hm (mem_flatMap.mpr ⟨s, hs, hx⟩), hfind, hout⟩

/-- **Merging is content-preserving and does not depend on the schedule.**  `merge_strings` skips
output sections without input, and makes the pool a positive multiple of the number of buckets;
a group size of `2 ^ 63` or more is not positive as an `isize`. -/
theorem merging_is_sequential_and_faithful (hashBytes : Bytes → UInt64)
    (room : Shard → Nat → Bool) (sections : List StringMergeInputSection) (size capacity : Nat)
    (hne : sections ≠ []) (hwf : ∀ s ∈ sections, s.WellFormed) (hl : LaidOut 0 sections)
    (hbuckets : ∀ b, bucketSize hashBytes sections b < 2 ^ 28) (hpos : 0 < size)
    (hblock : mapBlockSize ∣ size) (hsize : size < 2 ^ 63) (hcap : mergeStringBuckets ≤ capacity) :
    MergesFaithfully hashBytes room sections size capacity := by
  obtain ⟨groups, hsplit, ht⟩ := splitSections_tiles hwf hl hpos hblock hsize
  obtain ⟨seq, hseq, hafter⟩ := mergeSequentially_eq hwf hl hbuckets
  have hgroups := groups_ne_nil hne hsplit
  have hfits : (workload hashBytes room hwf hl ht).StringsFit := fun b =>
    startsFit_of_length (fits_workload hwf hl ht hbuckets b)
  refine ⟨groups, seq, ⟨_, hsplit⟩, hseq, ?_⟩
  intro s hr
  refine ⟨Workload.exists_finished _ hgroups hfits hr, ?_⟩
  intro htasks overflow hperm
  obtain ⟨hf, -⟩ := Workload.finished_of_tasks_eq_zero _ hgroups hfits hcap hr htasks
  obtain ⟨m, records, -, hfinish, hb, hbo, hso, hov⟩ := finish_of_finished hwf hl ht hf overflow
  have hlookup : ∀ key, m.stringOffsetAtInput key
      = ((allStrings sections).find? fun x => x.1 = key).map (finalPlace hashBytes sections) := by
    intro key
    rw [stringOffsetAtInput, hso, hov]
    exact lookup_of_finished hwf hl ht hf hperm key
  refine ⟨{ m with patchRecords := records.reduceOption }, hfinish, ⟨?_, hbo, ?_⟩,
    faithful_of_merged hwf hl hbuckets ⟨hb, hbo, hlookup⟩⟩
  · change m.buckets = _
    rw [hb, finalBuckets]
    refine map_congr_left ?_
    intro b _
    rw [hafter.buckets, fullBucket, bucketStrings, List.map_map]
    rfl
  · intro key
    rw [hafter.offsets]
    exact hlookup key

/-- Two string sections with a common string, and between them data that is no string. -/
def threeSections : List StringMergeInputSection :=
  [⟨0, 1, ⟨1000, [97, 98, 0, 99, 0]⟩, 0, true, by decide⟩,
   ⟨0, 2, ⟨2000, [7, 0, 9]⟩, 256, false, by decide⟩,
   ⟨1, 1, ⟨3000, [97, 98, 0]⟩, 512, true, by decide⟩]

theorem merging_three_sections :
    MergesFaithfully (fun bytes => UInt64.ofNat bytes.sum.toNat) (fun _ key => key ≠ 3)
      threeSections 256 32 :=
  merging_is_sequential_and_faithful _ _ threeSections 256 32 (by decide) (by decide) (by decide)
    (by decide) (by decide) (by decide) (by decide) (by decide)

/-- With a group size of `2 ^ 63`, a multiple of the block size, the groups are never made. -/
theorem huge_group_size_never_splits :
    ¬ ∀ (hashBytes : Bytes → UInt64) (room : Shard → Nat → Bool)
      (sections : List StringMergeInputSection) (size capacity : Nat), sections ≠ [] →
      (∀ s ∈ sections, s.WellFormed) → LaidOut 0 sections →
      (∀ b, bucketSize hashBytes sections b < 2 ^ 28) → 0 < size → mapBlockSize ∣ size →
      mergeStringBuckets ≤ capacity → size < 2 ^ 64 →
      MergesFaithfully hashBytes room sections size capacity := by
  intro h
  obtain ⟨groups, -, ⟨bound, hrun⟩, -⟩ := h (fun bytes => UInt64.ofNat bytes.sum.toNat)
    (fun _ _ => true) threeSections (2 ^ 63) 16 (by decide) (by decide) (by decide) (by decide)
    (by decide) (by decide) (by decide) (by decide)
  have hnone := @splitSections_diverges threeSections (2 ^ 63) (by decide) (by decide) (bound + 1)
  rw [hrun (bound + 1) (Nat.lt_succ_self bound)] at hnone
  cases hnone

end Correct

end Srs.StringMerging
