/-
# Patch records

A patch record says that an input section lies in the output as it does in the input, so that its
bytes there can be replaced in place.  `patchRecordForInputSection` makes one when the section
owns its strings: each of them was the first of its content, and they follow one another in the
output.

Owning a string does not mean that it is alone: a later section with the same string is mapped to
the owner's copy.  `exclusive_iff` says that the records are safe exactly where no section shares
a string with the owner of a record.
-/
import Mathlib.Data.List.ReduceOption
import Srs.StringMerging.MergeCorrect

namespace Srs.StringMerging

open Intern List Option MergedStringsSection MergeStringsSectionBucket Terminated

/-! ## 1. What is asked of the records -/

/-- The records are exclusive: each is for a section whose bytes it has, no string of another
section is mapped into it, and no two of them meet. -/
structure Exclusive (sections : List StringMergeInputSection) (m : MergedStringsSection) : Prop where
  owner : ∀ r ∈ m.patchRecords, ∃ s ∈ sections,
    r.input = s.input ∧ r.sectionIndex = s.sectionIndex ∧ r.size = s.sectionData.len
    ∧ (m.output.drop r.outputOffset).take r.size = s.sectionData.bytes
    ∧ ∀ t ∈ sections, t ≠ s → ∀ x ∈ sectionStrings t, ∀ o, m.stringOffsetAtInput x.1 = some o →
      m.outputOffset o < r.outputOffset ∨ r.outputOffset + r.size ≤ m.outputOffset o
  disjoint : m.patchRecords.Pairwise fun r r' =>
    r.outputOffset + r.size ≤ r'.outputOffset ∨ r'.outputOffset + r'.size ≤ r.outputOffset

/-- The distinct strings of a bucket, in the order in which they first occur. -/
def bucketOrder (hashBytes : Bytes → UInt64) (sections : List StringMergeInputSection)
    (b : Fin mergeStringBuckets) : List Bytes :=
  internAll [] ((bucketStrings hashBytes sections b).map (·.bytes))

/-- The distinct strings by their buckets. -/
def outputOrder (hashBytes : Bytes → UInt64) (sections : List StringMergeInputSection) :
    List Bytes :=
  (finRange mergeStringBuckets).flatMap (bucketOrder hashBytes sections)

/-- The first string with the same bytes lies at the same address. -/
def Owned (sections : List StringMergeInputSection) (x : Nat × Slice) : Prop :=
  ((allStrings sections).find? fun y => y.2.bytes = x.2.bytes).map (·.2.ptr) = some x.2.ptr

instance (sections : List StringMergeInputSection) (x : Nat × Slice) :
    Decidable (Owned sections x) :=
  inferInstanceAs (Decidable (_ = _))

/-- A section that owns its strings, which stand one behind the other in the order of the
output. -/
structure Standing (hashBytes : Bytes → UInt64) (sections : List StringMergeInputSection)
    (s : StringMergeInputSection) : Prop where
  nonempty : s.sectionData.bytes ≠ []
  owned : ∀ x ∈ sectionStrings s, Owned sections x
  stretch : (sectionStrings s).map (·.2.bytes) <:+: outputOrder hashBytes sections

/-- No other section has a string of a section that stands on its own. -/
def OwnersAlone (hashBytes : Bytes → UInt64) (sections : List StringMergeInputSection) : Prop :=
  ∀ s ∈ sections, Standing hashBytes sections s → ∀ t ∈ sections, t ≠ s →
    ∀ x ∈ sectionStrings s, ∀ y ∈ sectionStrings t, y.2.bytes ≠ x.2.bytes

variable {hashBytes : Bytes → UInt64} {sections : List StringMergeInputSection}

/-! ## 2. The order of the output -/

theorem words_fullBucket (b : Fin mergeStringBuckets) :
    (fullBucket hashBytes sections b).words = bucketOrder hashBytes sections b :=
  (fullBucket_represents b).2

variable {word : Bytes}

theorem bucketOf_of_mem_bucketOrder {b : Fin mergeStringBuckets}
    (h : word ∈ bucketOrder hashBytes sections b) :
    bucketOf (hashBytes word) = b ∧ ∃ x ∈ allStrings sections, x.2.bytes = word := by
  rw [bucketOrder, mem_internAll] at h
  obtain ⟨s, hs, rfl⟩ := mem_map.mp (h.resolve_left not_mem_nil)
  obtain ⟨x, hx, rfl⟩ := mem_map.mp hs
  obtain ⟨hmem, hhome⟩ := mem_filter.mp hx
  exact ⟨by simpa using hhome, x, hmem, rfl⟩

theorem outputStrings_eq {n : Nat} {m : MergedStringsSection} (hm : Merged hashBytes sections n m) :
    m.outputStrings.map (·.bytes) = outputOrder hashBytes sections := by
  rw [outputStrings, hm.buckets, map_flatMap, outputOrder, finalBuckets,
    flatMap_map]
  exact flatMap_congr fun b _ => words_fullBucket b

theorem nodup_outputOrder : (outputOrder hashBytes sections).Nodup := by
  refine nodup_flatMap.mpr ⟨fun b _ => nodup_internAll nodup_nil, ?_⟩
  refine (pairwise_lt_finRange _).imp fun {a b} hab word ha hb => ?_
  exact Fin.ne_of_lt hab ((bucketOf_of_mem_bucketOrder ha).1.symm.trans
    (bucketOf_of_mem_bucketOrder hb).1)

theorem ne_nil_of_mem_outputOrder (hwf : ∀ s ∈ sections, s.WellFormed) :
    ∀ word ∈ outputOrder hashBytes sections, word ≠ [] := by
  intro word hword
  obtain ⟨b, -, hb⟩ := mem_flatMap.mp hword
  obtain ⟨-, x, hx, rfl⟩ := bucketOf_of_mem_bucketOrder hb
  exact length_pos_iff.mp (len_pos_of_mem_allStrings hwf hx)

theorem mem_bucketOrder {x : Nat × Slice} (hx : x ∈ allStrings sections) :
    x.2.bytes ∈ bucketOrder hashBytes sections (homeOf hashBytes x) := by
  rw [← words_fullBucket]
  exact mem_fullBucket hx

/-- **The place of a string in the output is its place in the order.** -/
theorem offsetOf_outputOrder {n : Nat} {m : MergedStringsSection}
    (hm : Merged hashBytes sections n m) (hstarts : ∀ b, StartsFit (bucketOrder hashBytes sections b))
    (hsize : ∀ b, bucketSize hashBytes sections b < 2 ^ 32) {x : Nat × Slice}
    (hx : x ∈ allStrings sections) :
    offsetOf x.2.bytes (outputOrder hashBytes sections)
      = some (m.outputOffset (finalPlace hashBytes sections x)) := by
  obtain ⟨b, hb⟩ : ∃ b, homeOf hashBytes x = b := ⟨_, rfl⟩
  have hmem := @mem_bucketOrder hashBytes sections x hx
  rw [hb] at hmem
  obtain ⟨offset, ho⟩ := exists_offsetOf hmem
  have hfits := hstarts b _ _ ho
  have hplace : finalPlace hashBytes sections x = .make b offset := by
    rw [finalPlace, hb, words_fullBucket, placeIn, ho]
    rfl
  obtain ⟨pre, post, hsplit, hpre⟩ := @exists_split_finalBuckets hashBytes sections n b
  -- the order is cut at the bucket of the string
  have horder : outputOrder hashBytes sections = pre.flatMap (·.words)
      ++ (bucketOrder hashBytes sections b ++ post.flatMap (·.words)) := by
    rw [← outputStrings_eq hm, outputStrings, hm.buckets, hsplit,
      map_flatMap, flatMap_append, flatMap_cons, ← words_fullBucket]
    rfl
  have hnot : x.2.bytes ∉ pre.flatMap (·.words) := by
    intro h
    have hnodup := @nodup_outputOrder hashBytes sections
    rw [horder, nodup_append'] at hnodup
    exact hnodup.2.2 h (mem_append_left _ hmem)
  have hlen : (pre.flatMap (·.words)).flatten.length = (pre.map (·.nextOffset.toNat)).sum := by
    have hall := @length_flatMap_words hashBytes sections n hsize pre
      fun c hc => by rw [hsplit]; exact mem_append_left _ hc
    rw [← hall, ← flatMap_id, flatMap_assoc]
    simp only [flatMap_id]
  rw [horder, offsetOf_append_of_not_mem hnot, offsetOf_append ho, hplace,
    outputOffset, BucketOffset.bucket_make hfits,
    BucketOffset.offsetInBucket_make hfits, hm.bucketOffsets, hm.buckets, hsplit, ← hpre,
    getElem?_bucketOffsetsFrom, getD_some, Nat.zero_add, hlen]
  rfl

/-! ## 3. The strings a section owns -/

/-- A bucket keeps the first string of each content. -/
theorem find?_strings_addAll (word : Bytes) : ∀ (strings : List PreHashed)
    {b : MergeStringsSectionBucket}, b.Represents →
    (b.addAll strings).strings.find? (fun c => c.bytes = word)
      = (b.strings.find? fun c => c.bytes = word).or
        ((strings.map (·.value)).find? fun c => c.bytes = word) := by
  intro strings
  induction strings with
  | nil => exact fun _ => (or_none).symm
  | cons string strings ih =>
    intro b hb
    rw [addAll_cons, ih (hb.entry string), map_cons, find?_cons]
    obtain ⟨offset, ho, -, hsame, -⟩ | ⟨-, -, hmore, -⟩ :=
      entry_cases hb string
    · rw [hsame]
      by_cases hword : string.value.bytes = word
      · -- the bucket has the content already
        obtain ⟨before, later, hsplit, -, -⟩ := exists_split_of_offsetOf ho
        have hmem : word ∈ b.strings.map (·.bytes) := by
          rw [← hword, ← words, hsplit]
          simp
        obtain ⟨c, hc, hbytes⟩ := mem_map.mp hmem
        have hsome : (b.strings.find? fun c => c.bytes = word).isSome :=
          find?_isSome.mpr ⟨c, hc, by simpa using hbytes⟩
        obtain ⟨d, hd⟩ := isSome_iff_exists.mp hsome
        rw [hd, some_or, some_or]
      · simp [hword]
    · rw [hmore, find?_append, Option.or_assoc, find?_cons, find?_nil]
      congr 1
      split <;> rfl

/-- The string of a bucket with a content is the first one of the input. -/
theorem find?_strings_fullBucket (x : Nat × Slice) :
    (fullBucket hashBytes sections (homeOf hashBytes x)).strings.find?
        (fun c => c.bytes = x.2.bytes)
      = ((allStrings sections).find? fun y => y.2.bytes = x.2.bytes).map (·.2) := by
  have hnone : (new (homeOf hashBytes x)).strings.find?
      (fun c => c.bytes = x.2.bytes) = none := rfl
  have hvalues : ((bucketStrings hashBytes sections (homeOf hashBytes x)).map
      (takeHashed hashBytes)).map (·.value) = bucketStrings hashBytes sections (homeOf hashBytes x) := by
    rw [List.map_map]
    exact List.map_id _
  rw [fullBucket, find?_strings_addAll _ _ (represents_new _), hnone,
    none_or, hvalues, bucketStrings, find?_map, find?_filter]
  congr 2
  funext y
  simp only [Function.comp_apply]
  by_cases hbytes : y.2.bytes = x.2.bytes
  · simp [hbytes, homeOf]
  · simp [hbytes]

/-- The candidate at the offset of a content is the string with that content. -/
theorem ownsStringAt_eq (string : Slice) {c : Slice} :
    ∀ {strings : List Slice} {offset : Nat}, (∀ d ∈ strings, d.bytes ≠ []) →
    offsetOf word (strings.map (·.bytes)) = some offset →
    strings.find? (fun d => d.bytes = word) = some c → ∀ current,
    ownsStringAt (current + offset) string current strings
      = (c.len == string.len && c.ptr == string.ptr) := by
  intro strings
  induction strings with
  | nil => exact fun _ ho _ => by simp [offsetOf] at ho
  | cons d strings ih =>
    intro offset hpos ho hfind current
    rw [map_cons, offsetOf] at ho
    rw [find?_cons] at hfind
    rw [ownsStringAt]
    by_cases hd : d.bytes = word
    · rw [if_pos hd] at ho
      cases ho
      simp only [hd, decide_true] at hfind
      cases hfind
      rw [if_pos (Nat.add_zero current).symm]
    · rw [if_neg hd] at ho
      simp only [hd, decide_false] at hfind
      obtain ⟨o, ho', rfl⟩ := map_eq_some_iff.mp ho
      have hlen : 0 < d.bytes.length :=
        length_pos_iff.mpr (hpos d mem_cons_self)
      rw [if_neg (by omega), if_neg (by omega), ← Nat.add_assoc]
      exact ih (fun e he => hpos e (mem_cons_of_mem d he)) ho' hfind (current + d.len)

section

variable {n : Nat} {m : MergedStringsSection} (hwf : ∀ s ∈ sections, s.WellFormed)
  (hl : LaidOut 0 sections) (hm : Merged hashBytes sections n m)
  (hstarts : ∀ b, StartsFit (bucketOrder hashBytes sections b))
include hwf hl hm hstarts

/-- **A string has an output offset of its own iff it was the first of its content.** -/
theorem outputOffsetIfOwned_eq {x : Nat × Slice} (hx : x ∈ allStrings sections) :
    m.outputOffsetIfOwned x.1 x.2
      = if Owned sections x then some (m.outputOffset (finalPlace hashBytes sections x))
        else none := by
  have hmem := @mem_bucketOrder hashBytes sections x hx
  obtain ⟨offset, ho⟩ := exists_offsetOf hmem
  have hfits := hstarts _ _ _ ho
  have hplace : finalPlace hashBytes sections x = .make (homeOf hashBytes x) offset := by
    rw [finalPlace, words_fullBucket, placeIn, ho]
    rfl
  obtain ⟨pre, post, hsplit, hpre⟩ :=
    @exists_split_finalBuckets hashBytes sections n (homeOf hashBytes x)
  have hbucket : m.buckets[(finalPlace hashBytes sections x).bucket]?
      = some { fullBucket hashBytes sections (homeOf hashBytes x) with
          nextInputGroupIndex := n } := by
    rw [hplace, BucketOffset.bucket_make hfits, hm.buckets, hsplit, ← hpre]
    simp
  have hfirst : ((allStrings sections).find? fun y => y.2.bytes = x.2.bytes).isSome :=
    find?_isSome.mpr ⟨x, hx, by simp⟩
  obtain ⟨y, hy⟩ := isSome_iff_exists.mp hfirst
  have hbytes : y.2.bytes = x.2.bytes := by simpa using find?_some hy
  have hfind := @find?_strings_fullBucket hashBytes sections x
  rw [hy, map_some] at hfind
  have hpos : ∀ d ∈ (fullBucket hashBytes sections (homeOf hashBytes x)).strings,
      d.bytes ≠ [] := by
    intro d hd
    have hword : d.bytes ∈ bucketOrder hashBytes sections (homeOf hashBytes x) := by
      rw [← words_fullBucket]
      exact List.mem_map_of_mem hd
    exact ne_nil_of_mem_outputOrder hwf _ (mem_flatMap.mpr ⟨_, mem_finRange _, hword⟩)
  rw [← words_fullBucket] at ho
  have howns := ownsStringAt_eq x.2 hpos ho hfind 0
  rw [Nat.zero_add] at howns
  have hlen : (y.2.len == x.2.len) = true := by
    rw [beq_iff_eq, Slice.len, Slice.len, hbytes]
  have hoffset : (finalPlace hashBytes sections x).offsetInBucket = offset := by
    rw [hplace, BucketOffset.offsetInBucket_make hfits]
  simp only [outputOffsetIfOwned, lookup_start hwf hl hm hx, hbucket,
    bind_eq_bind, bind_some, hoffset, howns, hlen, Bool.true_and, beq_iff_eq,
    Owned, hy, map_some, some.injEq]

end

/-! ## 4. The loop over a section -/

/-- One round of the loop. -/
theorem patchLoop_cons (m : MergedStringsSection) {remaining : Slice} {body rest : Bytes}
    (hb : (0 : UInt8) ∉ body) (hs : remaining.bytes = body ++ 0 :: rest)
    (inputOffset : Nat) (first : Option Nat) (next : Nat) :
    m.patchLoop hashBytes inputOffset remaining first next
      = match m.outputOffsetIfOwned inputOffset
          ⟨remaining.ptr, remaining.bytes.take (body.length + 1)⟩ with
        | none => .ok none
        | some o =>
          if first.isSome ∧ o ≠ next then .ok none
          else m.patchLoop hashBytes (inputOffset + (body.length + 1))
            (remaining.drop (body.length + 1)) (first.or (some o)) (o + (body.length + 1)) := by
  have hne : ¬ remaining.bytes = [] := by
    rw [hs]
    simp
  have htake : takeStringHashed hashBytes remaining
      = .ok (⟨(remaining.splitAt (body.length + 1)).1,
          hashBytes (remaining.bytes.take (body.length + 1))⟩, remaining.drop (body.length + 1)) := by
    refine (takeStringHashed_eq_ok hashBytes).mpr ⟨body.length, ?_, rfl, rfl⟩
    rw [memchr, hs, idxOf?_append hb]
  have hlen : (remaining.splitAt (body.length + 1)).1.len = body.length + 1 := by
    rw [Slice.splitAt, Slice.len, length_take, hs, length_append, length_cons]
    omega
  rw [patchLoop, if_neg hne]
  split
  · rename_i e he
    rw [htake] at he
    cases he
  · rename_i string rest' he
    rw [htake] at he
    cases he
    simp only [hlen]
    rfl

section

variable {n : Nat} {m : MergedStringsSection} (hwf : ∀ s ∈ sections, s.WellFormed)
  (hl : LaidOut 0 sections) (hm : Merged hashBytes sections n m)
  (hstarts : ∀ b, StartsFit (bucketOrder hashBytes sections b))
  (hsize : ∀ b, bucketSize hashBytes sections b < 2 ^ 32)
include hwf hl hm hstarts hsize

/-- A string is owned at an offset iff it was the first, and stands there. -/
theorem outputOffsetIfOwned_eq_some {x : Nat × Slice} (hx : x ∈ allStrings sections) {o : Nat} :
    m.outputOffsetIfOwned x.1 x.2 = some o
      ↔ Owned sections x ∧ offsetOf x.2.bytes (outputOrder hashBytes sections) = some o := by
  rw [outputOffsetIfOwned_eq hwf hl hm hstarts hx, offsetOf_outputOrder hm hstarts hsize hx]
  split
  · rename_i howned
    exact ⟨fun h => ⟨howned, h⟩, fun h => h.2⟩
  · rename_i howned
    exact iff_of_false (fun h => by cases h) fun h => howned h.1

/-- **The rest of a section passes** when its strings are owned and follow one another. -/
theorem patchLoop_some_iff : ∀ bytes, Closed 0 bytes →
    ∀ (remaining : Slice) (inputOffset first next : Nat), remaining.bytes = bytes →
    (∀ x ∈ stringsAt inputOffset remaining, x ∈ allStrings sections) → ∀ r,
    m.patchLoop hashBytes inputOffset remaining (some first) next = .ok (some r)
      ↔ r = first ∧ (∀ x ∈ stringsAt inputOffset remaining, Owned sections x)
        ∧ Follow (outputOrder hashBytes sections) next
          ((stringsAt inputOffset remaining).map (·.2.bytes)) := by
  refine Closed.induction ?_ ?_
  · intro remaining inputOffset first next hs _ r
    have hnil : stringsAt inputOffset remaining = [] := by
      simp [stringsAt, hs, pieces, locate]
    rw [patchLoop, if_pos hs, hnil]
    simp [Follow, eq_comm]
  · intro body rest hb _ ih remaining inputOffset first next hs hall r
    have hcons := @stringsAt_cons inputOffset remaining body rest hb hs
    have hrest : (remaining.drop (body.length + 1)).bytes = rest := by
      have hd := drop_append_piece 0 body rest 0
      rwa [Nat.add_zero, List.drop_zero, ← hs] at hd
    have hlen : (remaining.bytes.take (body.length + 1)).length = body.length + 1 := by
      rw [length_take, hs, length_append, length_cons]
      omega
    rw [hcons] at hall ⊢
    have hx := hall _ mem_cons_self
    have hown := @outputOffsetIfOwned_eq_some _ _ _ _ hwf hl hm hstarts hsize _ hx
    have hlater := fun o => ih (remaining.drop (body.length + 1)) (inputOffset + (body.length + 1))
      first (o + (body.length + 1)) hrest (fun x h => hall x (mem_cons_of_mem _ h)) r
    rw [patchLoop_cons m hb hs, List.forall_mem_cons, map_cons, Follow, hlen]
    cases ho : m.outputOffsetIfOwned inputOffset
        ⟨remaining.ptr, remaining.bytes.take (body.length + 1)⟩ with
    | none =>
      refine iff_of_false (fun h => by cases h) ?_
      rintro ⟨-, ⟨howned, -⟩, hnext, -⟩
      rw [hown.mpr ⟨howned, hnext⟩] at ho
      cases ho
    | some o =>
      obtain ⟨howned, hoffset⟩ := hown.mp ho
      dsimp only
      split
      · rename_i hne
        refine iff_of_false (fun h => by cases h) ?_
        rintro ⟨-, -, hnext, -⟩
        exact hne.2 (some.inj (hoffset.symm.trans hnext))
      · rename_i heq
        obtain rfl : o = next := by
          by_contra hne
          exact heq ⟨rfl, hne⟩
        rw [some_or, hlater]
        constructor
        · rintro ⟨rfl, hall', hfollow⟩
          exact ⟨rfl, ⟨howned, hall'⟩, hoffset, hfollow⟩
        · rintro ⟨rfl, ⟨-, hall'⟩, -, hfollow⟩
          exact ⟨rfl, hall', hfollow⟩

/-- A whole section passes when its strings are owned and follow one another from its offset on. -/
theorem patchLoop_none_iff {remaining : Slice} (hclosed : Closed 0 remaining.bytes)
    (hne : remaining.bytes ≠ []) {inputOffset : Nat}
    (hall : ∀ x ∈ stringsAt inputOffset remaining, x ∈ allStrings sections) (o : Nat) :
    m.patchLoop hashBytes inputOffset remaining none 0 = .ok (some o)
      ↔ (∀ x ∈ stringsAt inputOffset remaining, Owned sections x)
        ∧ Follow (outputOrder hashBytes sections) o
          ((stringsAt inputOffset remaining).map (·.2.bytes)) := by
  obtain ⟨body, rest, hb, hrest, hs⟩ := hclosed.exists_append hne
  have hbytes : (remaining.drop (body.length + 1)).bytes = rest := by
    have hd := drop_append_piece 0 body rest 0
    rwa [Nat.add_zero, List.drop_zero, ← hs] at hd
  have hlen : (remaining.bytes.take (body.length + 1)).length = body.length + 1 := by
    rw [length_take, hs, length_append, length_cons]
    omega
  rw [stringsAt_cons hb hs] at hall ⊢
  have hown := @outputOffsetIfOwned_eq_some _ _ _ _ hwf hl hm hstarts hsize _
    (hall _ mem_cons_self)
  have hlater := fun first => patchLoop_some_iff hwf hl hm hstarts hsize rest hrest
    (remaining.drop (body.length + 1)) (inputOffset + (body.length + 1)) first
    (first + (body.length + 1)) hbytes (fun x h => hall x (mem_cons_of_mem _ h)) o
  rw [patchLoop_cons m hb hs, List.forall_mem_cons, map_cons, Follow, hlen]
  cases ho : m.outputOffsetIfOwned inputOffset
      ⟨remaining.ptr, remaining.bytes.take (body.length + 1)⟩ with
  | none =>
    refine iff_of_false (fun h => by cases h) ?_
    rintro ⟨⟨howned, -⟩, hoffset, -⟩
    rw [hown.mpr ⟨howned, hoffset⟩] at ho
    cases ho
  | some first =>
    obtain ⟨howned, hoffset⟩ := hown.mp ho
    have hgo : ¬ ((none : Option Nat).isSome = true ∧ first ≠ 0) := fun h => by cases h.1
    dsimp only
    rw [if_neg hgo, none_or, hlater]
    constructor
    · rintro ⟨rfl, hall', hfollow⟩
      exact ⟨⟨howned, hall'⟩, hoffset, hfollow⟩
    · rintro ⟨⟨-, hall'⟩, hfirst, hfollow⟩
      cases hoffset.symm.trans hfirst
      exact ⟨rfl, hall', hfollow⟩

/-- **Which sections get a record, and which one.** -/
theorem patchRecord_iff {s : StringMergeInputSection} (hs : s ∈ sections)
    {r : MergeStringPatchRecord} :
    m.patchRecordForInputSection hashBytes s = .ok (some r)
      ↔ s.sectionData.bytes ≠ [] ∧ (∀ x ∈ sectionStrings s, Owned sections x)
        ∧ Follow (outputOrder hashBytes sections) r.outputOffset
          ((sectionStrings s).map (·.2.bytes))
        ∧ r = ⟨s.input, s.sectionIndex, r.outputOffset, s.sectionData.len⟩ := by
  have hall : ∀ x ∈ sectionStrings s, x ∈ allStrings sections := fun x hx =>
    mem_flatMap.mpr ⟨s, hs, hx⟩
  have hrecord : ∀ first : Option Nat,
      (Except.ok (first.map fun o => ⟨s.input, s.sectionIndex, o, s.sectionData.len⟩)
        : Result (Option MergeStringPatchRecord)) = .ok (some r)
      ↔ first = some r.outputOffset
        ∧ r = ⟨s.input, s.sectionIndex, r.outputOffset, s.sectionData.len⟩ := by
    intro first
    cases first with
    | none => simp
    | some o =>
      constructor
      · intro h
        cases h
        exact ⟨rfl, rfl⟩
      · rintro ⟨ho, hr⟩
        cases ho
        rw [map_some, ← hr]
  rw [patchRecordForInputSection]
  cases hstring : s.isString with
  | true =>
    have hclosed : Closed 0 s.sectionData.bytes := by
      have h := hwf s hs
      rwa [StringMergeInputSection.WellFormed, hstring, if_pos rfl] at h
    have hstrings : sectionStrings s = stringsAt s.startInputOffset s.sectionData := by
      rw [sectionStrings, hstring, if_pos rfl]
    rw [hstrings] at hall ⊢
    obtain ⟨first, hfirst⟩ := @exists_patchLoop hashBytes m _ hclosed s.sectionData
      s.startInputOffset none 0 rfl
    have hloop : first = some r.outputOffset ↔ m.patchLoop hashBytes s.startInputOffset
        s.sectionData none 0 = .ok (some r.outputOffset) := by
      rw [hfirst, Except.ok.injEq]
    simp only [if_true, hfirst, ok_bind]
    rw [hrecord, hloop]
    by_cases hne : s.sectionData.bytes = []
    · rw [patchLoop, if_pos hne]
      simp [hne]
    · rw [patchLoop_none_iff hwf hl hm hstarts hsize hclosed hne hall]
      simp [hne, and_assoc]
  | false =>
    have hne : s.sectionData.bytes ≠ [] := by
      have h := hwf s hs
      rwa [StringMergeInputSection.WellFormed, hstring, if_neg (by decide)] at h
    have hstrings : sectionStrings s = [(s.startInputOffset, s.sectionData)] := by
      rw [sectionStrings, hstring, if_neg (by decide)]
    rw [hstrings] at hall ⊢
    have hown := @outputOffsetIfOwned_eq_some _ _ _ _ hwf hl hm hstarts hsize _
      (hall _ mem_cons_self) r.outputOffset
    simp only [Bool.false_eq_true, if_false, if_neg hne, ok_bind]
    rw [hrecord, hown]
    simp [Follow, hne, and_assoc]

end

/-! ## 5. Exclusive records -/

/-- A section stands on its own when its strings follow one another from some offset on. -/
theorem standing_iff (hwf : ∀ s ∈ sections, s.WellFormed) {s : StringMergeInputSection} :
    Standing hashBytes sections s ↔ s.sectionData.bytes ≠ []
      ∧ (∀ x ∈ sectionStrings s, Owned sections x)
      ∧ ∃ o, Follow (outputOrder hashBytes sections) o ((sectionStrings s).map (·.2.bytes)) := by
  constructor
  · rintro ⟨hne, howned, before, later, hsplit⟩
    exact ⟨hne, howned, _, follow_of_split nodup_outputOrder hsplit.symm⟩
  · rintro ⟨hne, howned, o, hfollow⟩
    refine ⟨hne, howned, ?_⟩
    by_cases hnil : (sectionStrings s).map (·.2.bytes) = []
    · rw [hnil]
      exact nil_infix
    · obtain ⟨before, later, hsplit, -⟩ :=
        hfollow.exists_split (ne_nil_of_mem_outputOrder hwf) hnil
      exact ⟨before, later, hsplit.symm⟩

theorem flatten_sectionStrings (s : StringMergeInputSection) :
    ((sectionStrings s).map (·.2.bytes)).flatten = s.sectionData.bytes := by
  unfold sectionStrings
  split
  · have hpieces : (stringsAt s.startInputOffset s.sectionData).map (·.2.bytes)
        = pieces 0 s.sectionData.bytes := by
      rw [stringsAt, List.map_map]
      exact map_snd_locate 0 _
    rw [hpieces, flatten_pieces]
  · exact append_nil _

theorem sectionStrings_ne_nil {s : StringMergeInputSection} (h : s.sectionData.bytes ≠ []) :
    (sectionStrings s).map (·.2.bytes) ≠ [] := by
  intro hnil
  have hflatten := flatten_sectionStrings s
  rw [hnil] at hflatten
  exact h hflatten.symm

theorem startInputOffset_le {start : Nat} : ∀ {sections : List StringMergeInputSection},
    LaidOut start sections → ∀ s ∈ sections, start ≤ s.startInputOffset
  | s :: rest, ⟨hs, hrest⟩, t, ht => by
    obtain rfl | ht := mem_cons.mp ht
    · exact hs.ge
    · exact Nat.le_trans (Nat.le_add_right _ _) (startInputOffset_le hrest t ht)

/-- A section that is not empty is there once. -/
theorem pairwise_ne {start : Nat} : ∀ {sections : List StringMergeInputSection},
    LaidOut start sections →
    sections.Pairwise fun s t => s.sectionData.bytes ≠ [] → s ≠ t
  | [], _ => List.Pairwise.nil
  | s :: rest, ⟨hs, hrest⟩ => by
    refine pairwise_cons.mpr ⟨fun t ht hne => ?_, pairwise_ne hrest⟩
    rintro rfl
    have hstart := startInputOffset_le hrest s ht
    have hlen := le_paddedLen s
    have hpos : 0 < s.sectionData.len := length_pos_iff.mpr hne
    omega

variable {α β : Type} {as : List α}

theorem exists_of_mem_forall₂ {F : α → β → Prop} {bs : List β}
    (h : Forall₂ F as bs) {b : β} (hb : b ∈ bs) : ∃ a ∈ as, F a b := by
  induction h with
  | nil => cases hb
  | @cons a c as bs hac _ ih =>
    obtain rfl | hb := mem_cons.mp hb
    · exact ⟨a, mem_cons_self, hac⟩
    · obtain ⟨a', ha', hab⟩ := ih hb
      exact ⟨a', mem_cons_of_mem a ha', hab⟩

/-- What holds of two entries of a list holds of the two results. -/
theorem pairwise_reduceOption {F : α → Option β → Prop} {P : α → α → Prop}
    {R : β → β → Prop} {bs : List (Option β)} (h : Forall₂ F as bs)
    (hpairs : as.Pairwise P)
    (himp : ∀ a ∈ as, ∀ a' ∈ as, ∀ b b', P a a' → F a (some b) → F a' (some b') → R b b') :
    bs.reduceOption.Pairwise R := by
  induction h with
  | nil => exact List.Pairwise.nil
  | @cons a b as bs hab hrest ih =>
    obtain ⟨hfirst, hlater⟩ := pairwise_cons.mp hpairs
    have hih := ih hlater fun a ha a' ha' =>
      himp a (mem_cons_of_mem _ ha) a' (mem_cons_of_mem _ ha')
    cases b with
    | none => exact hih
    | some b =>
      rw [reduceOption_cons_of_some]
      refine pairwise_cons.mpr ⟨fun b' hb' => ?_, hih⟩
      obtain ⟨a', ha', hab'⟩ := exists_of_mem_forall₂ hrest (reduceOption_mem_iff.mp hb')
      exact himp a mem_cons_self a' (mem_cons_of_mem _ ha') b b' (hfirst a' ha') hab hab'

section

variable {n : Nat} {m : MergedStringsSection} (hwf : ∀ s ∈ sections, s.WellFormed)
  (hm : Merged hashBytes sections n m)
  (hstarts : ∀ b, StartsFit (bucketOrder hashBytes sections b))
  (hsize : ∀ b, bucketSize hashBytes sections b < 2 ^ 32)
include hwf hm hstarts hsize

variable {s : StringMergeInputSection} {o : Nat}

section

variable (hfollow : Follow (outputOrder hashBytes sections) o ((sectionStrings s).map (·.2.bytes)))
  (hne : s.sectionData.bytes ≠ [])
include hfollow hne

/-- The strings of a section that stands lie in its range, and no others do. -/
theorem within_iff
    {y : Nat × Slice} (hy : y ∈ allStrings sections) :
    (o ≤ m.outputOffset (finalPlace hashBytes sections y)
        ∧ m.outputOffset (finalPlace hashBytes sections y) < o + s.sectionData.len)
      ↔ ∃ x ∈ sectionStrings s, x.2.bytes = y.2.bytes := by
  have hne' := @ne_nil_of_mem_outputOrder hashBytes _ hwf
  have hplace := offsetOf_outputOrder hm hstarts hsize hy
  obtain ⟨before, later, hsplit, rfl⟩ := hfollow.exists_split hne' (sectionStrings_ne_nil hne)
  have hlen : s.sectionData.len
      = ((sectionStrings s).map (·.2.bytes)).flatten.length := by
    rw [flatten_sectionStrings]
    rfl
  rw [hlen]
  constructor
  · rintro ⟨hle, hlt⟩
    exact mem_map.mp (mem_of_offsetOf_within hne' hsplit hplace hle hlt)
  · intro hx
    have hmem : y.2.bytes ∈ (sectionStrings s).map (·.2.bytes) := mem_map.mpr hx
    have hnot : y.2.bytes ∉ before := by
      intro hbefore
      have hnodup := @nodup_outputOrder hashBytes sections
      rw [hsplit, List.append_assoc, nodup_append'] at hnodup
      exact hnodup.2.2 hbefore (mem_append_left _ hmem)
    obtain ⟨o, ho⟩ := exists_offsetOf hmem
    have hstop := (take_drop_of_offsetOf ho).1
    have hpos : 0 < y.2.bytes.length := len_pos_of_mem_allStrings hwf hy
    rw [hsplit, List.append_assoc, offsetOf_append_of_not_mem hnot, offsetOf_append ho,
      map_some] at hplace
    rw [← some.inj hplace]
    omega

omit hstarts hsize in
/-- The bytes of a section that stands are in its range. -/
theorem content_of_follow :
    (m.output.drop o).take s.sectionData.len = s.sectionData.bytes := by
  obtain ⟨before, later, hsplit, rfl⟩ :=
    hfollow.exists_split (ne_nil_of_mem_outputOrder hwf) (sectionStrings_ne_nil hne)
  have houtput : m.output = (outputOrder hashBytes sections).flatten := by
    rw [output, ← outputStrings_eq hm, flatMap_def]
  have hlen : s.sectionData.len = ((sectionStrings s).map (·.2.bytes)).flatten.length := by
    rw [flatten_sectionStrings]
    rfl
  rw [houtput, hsplit, flatten_append, flatten_append, List.append_assoc,
    drop_left, hlen, take_left, flatten_sectionStrings]

end

/-- Ranges of sections without a common string: neither starts in the other. -/
theorem not_within_of_alone {t : StringMergeInputSection} {o' : Nat} (ht : t ∈ sections)
    (hfollow : Follow (outputOrder hashBytes sections) o ((sectionStrings s).map (·.2.bytes)))
    (hne : s.sectionData.bytes ≠ [])
    (hfollow' : Follow (outputOrder hashBytes sections) o' ((sectionStrings t).map (·.2.bytes)))
    (hne' : t.sectionData.bytes ≠ [])
    (halone : ∀ x ∈ sectionStrings s, ∀ y ∈ sectionStrings t, y.2.bytes ≠ x.2.bytes) :
    ¬ (o ≤ o' ∧ o' < o + s.sectionData.len) := by
  cases hstrings : sectionStrings t with
  | nil => exact absurd (by rw [hstrings]; rfl) (sectionStrings_ne_nil hne')
  | cons y ys =>
    have hy : y ∈ sectionStrings t := by
      rw [hstrings]
      exact mem_cons_self
    have hall : y ∈ allStrings sections := mem_flatMap.mpr ⟨t, ht, hy⟩
    rw [hstrings] at hfollow'
    have hfirst := hfollow'.1
    rw [offsetOf_outputOrder hm hstarts hsize hall] at hfirst
    rw [← some.inj hfirst, within_iff hwf hm hstarts hsize hfollow hne hall]
    rintro ⟨x, hx, hbytes⟩
    exact halone x hx y hy hbytes.symm

variable {records : List (Option MergeStringPatchRecord)} (hl : LaidOut 0 sections)
  (hrecords : sections.mapM (m.patchRecordForInputSection hashBytes) = .ok records)
include hl hrecords

/-- **The records are exclusive exactly where the owners are alone.** -/
theorem exclusive_iff_of_merged :
    Exclusive sections { m with patchRecords := records.reduceOption }
      ↔ OwnersAlone hashBytes sections := by
  have hpairs := forall₂_of_mapM_ok hrecords
  have hlookup : ∀ t ∈ sections, ∀ x ∈ sectionStrings t, x ∈ allStrings sections
      ∧ m.stringOffsetAtInput x.1 = some (finalPlace hashBytes sections x) := by
    intro t ht x hx
    have hall : x ∈ allStrings sections := mem_flatMap.mpr ⟨t, ht, hx⟩
    exact ⟨hall, lookup_start hwf hl hm hall⟩
  constructor
  · intro hexclusive s hs hstanding t ht hts x hx y hy hbytes
    obtain ⟨hne, howned, o, hfollow⟩ := (standing_iff hwf).mp hstanding
    have hrecord := (patchRecord_iff hwf hl hm hstarts hsize hs
      (r := ⟨s.input, s.sectionIndex, o, s.sectionData.len⟩)).mpr ⟨hne, howned, hfollow, rfl⟩
    obtain ⟨b, hb, hsb⟩ := exists_of_mem_forall₂ hpairs.flip hs
    cases hsb.symm.trans hrecord
    obtain ⟨owner, -, -, -, -, -, halone⟩ :=
      hexclusive.owner _ (reduceOption_mem_iff.mpr hb)
    have hwithin : ∀ z ∈ allStrings sections, (∃ x ∈ sectionStrings s, x.2.bytes = z.2.bytes) →
        ¬ (m.outputOffset (finalPlace hashBytes sections z) < o
          ∨ o + s.sectionData.len ≤ m.outputOffset (finalPlace hashBytes sections z)) := by
      intro z hz hshared
      obtain ⟨hle, hlt⟩ := (within_iff hwf hm hstarts hsize hfollow hne hz).mpr hshared
      omega
    -- the owner of the record can only be the section itself
    have howner : s = owner := by
      by_contra hother
      exact hwithin x (hlookup s hs x hx).1 ⟨x, hx, rfl⟩
        (halone s hs hother x hx _ (hlookup s hs x hx).2)
    exact hwithin y (hlookup t ht y hy).1 ⟨x, hx, hbytes.symm⟩
      (halone t ht (howner ▸ hts) y hy _ (hlookup t ht y hy).2)
  · intro halone
    refine ⟨?_, ?_⟩
    · intro r hr
      obtain ⟨s, hs, hrecord⟩ := exists_of_mem_forall₂ hpairs (reduceOption_mem_iff.mp hr)
      obtain ⟨hne, howned, hfollow, hr⟩ :=
        (patchRecord_iff hwf hl hm hstarts hsize hs).mp hrecord
      have hsize' : r.size = s.sectionData.len := congrArg (·.size) hr
      refine ⟨s, hs, congrArg (·.input) hr, congrArg (·.sectionIndex) hr, hsize', ?_, ?_⟩
      · rw [hsize']
        exact content_of_follow hwf hm hfollow hne
      · intro t ht hts y hy o ho
        obtain ⟨hall, hplace⟩ := hlookup t ht y hy
        cases hplace.symm.trans ho
        have hstanding := (standing_iff hwf).mpr ⟨hne, howned, _, hfollow⟩
        have hnot : ¬ ∃ x ∈ sectionStrings s, x.2.bytes = y.2.bytes := by
          rintro ⟨x, hx, hbytes⟩
          exact halone s hs hstanding t ht hts x hx y hy hbytes.symm
        rw [← within_iff hwf hm hstarts hsize hfollow hne hall] at hnot
        change m.outputOffset _ < _ ∨ _ ≤ m.outputOffset _
        omega
    · refine pairwise_reduceOption hpairs (pairwise_ne hl) ?_
      intro s hs t ht r r' hst hr hr'
      obtain ⟨hne, howned, hfollow, hr⟩ := (patchRecord_iff hwf hl hm hstarts hsize hs).mp hr
      obtain ⟨hne', howned', hfollow', hr'⟩ := (patchRecord_iff hwf hl hm hstarts hsize ht).mp hr'
      have hsize' : r.size = s.sectionData.len := congrArg (·.size) hr
      have hsize'' : r'.size = t.sectionData.len := congrArg (·.size) hr'
      have hstanding := (standing_iff hwf).mpr ⟨hne, howned, _, hfollow⟩
      have hnot := not_within_of_alone hwf hm hstarts hsize ht hfollow hne hfollow' hne'
        (halone s hs hstanding t ht (hst hne).symm)
      have hnot' := not_within_of_alone hwf hm hstarts hsize hs hfollow' hne' hfollow hne
        fun y hy x hx h => halone s hs hstanding t ht (hst hne).symm x hx y hy h.symm
      omega

end

/-! ## 7. The result -/

/-- The sections are merged into `m`: by the groups they are split into, at the end of some run of
the tasks. -/
def Produces (hashBytes : Bytes → UInt64) (room : Shard → Nat → Bool)
    (sections : List StringMergeInputSection) (size capacity : Nat) (m : MergedStringsSection) :
    Prop :=
  ∃ (groups : List SectionGroup) (s : State) (overflow : List (Nat × BucketOffset)),
    (∃ bound, ∀ fuel, bound < fuel → splitSections fuel sections size = some groups)
    ∧ Reachable hashBytes room groups capacity s ∧ s.tasks = 0
    ∧ overflow.Perm s.store.overflowed
    ∧ finish hashBytes sections groups.length s overflow = .ok m

section

variable {room : Shard → Nat → Bool} {size capacity : Nat}

theorem stringsFit_workload {groups : List SectionGroup} (hwf : ∀ s ∈ sections, s.WellFormed)
    (hl : LaidOut 0 sections) (ht : Tiles sections 0 0 groups)
    (hstarts : ∀ b, StartsFit (bucketOrder hashBytes sections b)) :
    (workload hashBytes room hwf hl ht).StringsFit := by
  intro b
  rw [Workload.table, bucketAt_workload]
  have hwords := @words_fullBucket hashBytes sections b
  rw [words] at hwords ⊢
  rw [hwords]
  exact hstarts b

variable (hne : sections ≠ []) (hwf : ∀ s ∈ sections, s.WellFormed) (hl : LaidOut 0 sections)
  (hstarts : ∀ b, StartsFit (bucketOrder hashBytes sections b)) (hpos : 0 < size)
  (hblock : mapBlockSize ∣ size) (hsize : size < 2 ^ 63) (hcap : mergeStringBuckets ≤ capacity)
include hne hwf hl hstarts hpos hblock hsize hcap

/-- What the sections are merged into has the full buckets, and the records of the sections. -/
theorem merged_of_produces {m : MergedStringsSection}
    (hm : Produces hashBytes room sections size capacity m) :
    ∃ (n : Nat) (m₀ : MergedStringsSection) (records : List (Option MergeStringPatchRecord)),
      Merged hashBytes sections n m₀
      ∧ sections.mapM (m₀.patchRecordForInputSection hashBytes) = .ok records
      ∧ m = { m₀ with patchRecords := records.reduceOption } := by
  obtain ⟨groups, s, overflow, ⟨bound, hgroups⟩, hr, htasks, hperm, hfinish⟩ := hm
  obtain ⟨groups', hsplit, ht⟩ := splitSections_tiles hwf hl hpos hblock hsize
  -- both bounds allow the same fuel
  obtain rfl : groups' = groups := by
    have hfuel := hsplit (max bound (linearSize sections + sections.length) + 1) (by omega)
    rw [hgroups _ (by omega)] at hfuel
    exact (some.inj hfuel).symm
  have hfits := @stringsFit_workload hashBytes sections room _ hwf hl ht hstarts
  obtain ⟨hf, -⟩ := Workload.finished_of_tasks_eq_zero _ (groups_ne_nil hne hsplit) hfits hcap hr
    htasks
  obtain ⟨m₀, records, hrecords, hm₀, hb, hbo, hso, hov⟩ := finish_of_finished hwf hl ht hf overflow
  refine ⟨groups'.length, m₀, records, ⟨hb, hbo, fun key => ?_⟩, hrecords,
    Except.ok.inj (hfinish.symm.trans hm₀)⟩
  rw [stringOffsetAtInput, hso, hov]
  exact lookup_of_finished hwf hl ht hf hperm key

/-- The sections can be merged. -/
theorem exists_produces : ∃ m, Produces hashBytes room sections size capacity m := by
  obtain ⟨groups, hsplit, ht⟩ := splitSections_tiles hwf hl hpos hblock hsize
  have hgroups := groups_ne_nil hne hsplit
  have hfits := @stringsFit_workload hashBytes sections room _ hwf hl ht hstarts
  obtain ⟨s, hr, htasks⟩ := Workload.exists_finished _ hgroups hfits Relation.ReflTransGen.refl
  obtain ⟨hf, -⟩ := Workload.finished_of_tasks_eq_zero _ hgroups hfits hcap hr htasks
  obtain ⟨m₀, records, -, hm₀, -⟩ := finish_of_finished hwf hl ht hf s.store.overflowed
  exact ⟨_, groups, s, _, ⟨_, hsplit⟩, hr, htasks, Perm.refl _, hm₀⟩

variable (htotal : ∀ b, bucketSize hashBytes sections b < 2 ^ 32)
include htotal

/-- **The patch records are exclusive exactly where no section shares a string with the owner of a
record.**  A string that starts at `2 ^ 28` or later in its bucket is refused, and the end of a
bucket is kept in 32 bits. -/
theorem exclusive_iff {m : MergedStringsSection}
    (hm : Produces hashBytes room sections size capacity m) :
    Exclusive sections m ↔ OwnersAlone hashBytes sections := by
  obtain ⟨n, m₀, records, hmerged, hrecords, rfl⟩ :=
    merged_of_produces hne hwf hl hstarts hpos hblock hsize hcap hm
  exact exclusive_iff_of_merged hwf hmerged hstarts htotal hl hrecords

end

private abbrev sumHash (bytes : Bytes) : UInt64 := UInt64.ofNat bytes.sum.toNat

/-- Two string sections with different strings. -/
def unsharedSections : List StringMergeInputSection :=
  [⟨0, 1, ⟨1000, [97, 98, 0]⟩, 0, true, by decide⟩, ⟨1, 1, ⟨3000, [99, 0]⟩, 256, true, by decide⟩]

theorem startsFit_unsharedSections (b : Fin mergeStringBuckets) :
    StartsFit (bucketOrder sumHash unsharedSections b) := by
  refine startsFit_of_length ?_
  rw [← words_fullBucket, length_fullBucket]
  revert b
  decide +kernel

theorem exclusive_iff_unsharedSections :
    ∃ m, Produces sumHash (fun _ _ => true) unsharedSections 256 32 m
      ∧ Exclusive unsharedSections m := by
  obtain ⟨m, hm⟩ := @exists_produces sumHash unsharedSections (fun _ _ => true) 256 32 (by decide)
    (by decide) (by decide) startsFit_unsharedSections (by decide) (by decide) (by decide)
    (by decide)
  have halone : ∀ s ∈ unsharedSections, ∀ t ∈ unsharedSections, t ≠ s → ∀ x ∈ sectionStrings s,
      ∀ y ∈ sectionStrings t, y.2.bytes ≠ x.2.bytes := by decide +kernel
  exact ⟨m, hm, (exclusive_iff (by decide) (by decide) (by decide) startsFit_unsharedSections
    (by decide) (by decide) (by decide) (by decide) (by decide +kernel) hm).mpr
    fun s hs _ t ht hts => halone s hs t ht hts⟩

/-- Two string sections with one string: the first owns it. -/
def sharingSections : List StringMergeInputSection :=
  [⟨0, 1, ⟨1000, [97, 98, 0]⟩, 0, true, by decide⟩,
   ⟨1, 1, ⟨4000, [97, 98, 0]⟩, 256, true, by decide⟩]

/-- The record of the first section is for a range that the second one uses too. -/
theorem not_exclusive_sharingSections :
    ∃ m, Produces sumHash (fun _ _ => true) sharingSections 256 32 m
      ∧ ¬ Exclusive sharingSections m := by
  have hstarts : ∀ b, StartsFit (bucketOrder sumHash sharingSections b) := by
    intro b
    refine startsFit_of_length ?_
    rw [← words_fullBucket, length_fullBucket]
    revert b
    decide +kernel
  obtain ⟨m, hm⟩ := @exists_produces sumHash sharingSections (fun _ _ => true) 256 32 (by decide)
    (by decide) (by decide) hstarts (by decide) (by decide) (by decide) (by decide)
  obtain ⟨n, m₀, records, hmerged, hrecords, rfl⟩ := merged_of_produces (by decide) (by decide)
    (by decide) hstarts (by decide) (by decide) (by decide) (by decide) hm
  refine ⟨_, hm, fun hexclusive => ?_⟩
  have halone := (exclusive_iff_of_merged (by decide) hmerged hstarts (by decide +kernel)
    (by decide) hrecords).mp hexclusive
  have hstanding : Standing sumHash sharingSections sharingSections[0] :=
    ⟨by decide, by decide +kernel, by decide +kernel⟩
  exact halone _ (by decide) hstanding sharingSections[1] (by decide) (by decide)
    (0, ⟨1000, [97, 98, 0]⟩) (by decide +kernel) (256, ⟨4000, [97, 98, 0]⟩) (by decide +kernel) rfl

end Srs.StringMerging
