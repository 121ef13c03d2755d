/-
# The strings the groups are split into

The groups of `split_sections` are a workload for the tasks: each group yields the strings that
start in its range, each with a cell of the offset map or, if the map refused it, an entry of the
overflow list (`tag`).  No two strings have the same input offset, so no cell is shared.
-/
import Srs.StringMerging.Groups
import Srs.StringMerging.Run

namespace Srs.StringMerging

open List

section Tag

variable (hashBytes : Bytes → UInt64) (room : Shard → Nat → Bool)

/-- Located strings with the places their output offsets will be stored in. -/
def tag (shard : Shard) : List (Nat × Slice) → List StringToMerge × Shard
  | [] => ([], shard)
  | x :: xs =>
    match shard.insert room x.1 with
    | some shard' =>
      (⟨takeHashed hashBytes x.2, .inShard x.1⟩ :: (tag shard' xs).1, (tag shard' xs).2)
    | none => (⟨takeHashed hashBytes x.2, .overflow x.1⟩ :: (tag shard xs).1, (tag shard xs).2)

/-- Collecting strings puts the tagged strings into their buckets. -/
theorem collect_eq : ∀ (xs : List (Nat × Slice)) (out : Split),
    collect hashBytes room out xs
      = ⟨fun b => out.buckets b
            ++ (tag hashBytes room out.shard xs).1.filter fun y => bucketOf y.string.hash = b,
          (tag hashBytes room out.shard xs).2⟩
  | [], out => by simp [collect, tag]
  | x :: xs, out => by
    have hstep : ∀ (place : OffsetOut) (b : Fin mergeStringBuckets) (rest : List StringToMerge),
        Function.update out.buckets (bucketOf (takeHashed hashBytes x.2).hash)
            (out.buckets (bucketOf (takeHashed hashBytes x.2).hash)
              ++ [⟨takeHashed hashBytes x.2, place⟩]) b ++ rest
          = out.buckets b ++ (([⟨takeHashed hashBytes x.2, place⟩] : List StringToMerge).filter
              (fun y => bucketOf y.string.hash = b) ++ rest) := by
      intro place b rest
      by_cases hb : bucketOf (takeHashed hashBytes x.2).hash = b
      · subst hb
        simp
      · rw [Function.update_of_ne (Ne.symm hb)]
        simp [hb]
    have hcons : collect hashBytes room out (x :: xs) = collect hashBytes room
        (insertData room out (takeHashed hashBytes x.2) x.1) xs := rfl
    rw [hcons, collect_eq xs]
    cases hi : out.shard.insert room x.1 with
    | some shard' =>
      simp only [insertData, tag, hi, Split.mk.injEq, and_true]
      funext b
      rw [hstep, ← filter_append]
      rfl
    | none =>
      simp only [insertData, tag, hi, Split.mk.injEq, and_true]
      funext b
      rw [hstep, ← filter_append]
      rfl

/-- Tagging keeps the strings and their offsets. -/
theorem map_tag : ∀ (xs : List (Nat × Slice)) (shard : Shard),
    (tag hashBytes room shard xs).1.map (fun y => (y.offsetOut.key, y.string))
      = xs.map fun x => (x.1, takeHashed hashBytes x.2)
  | [], _ => rfl
  | x :: xs, shard => by
    simp only [tag]
    split
    · rw [map_cons, map_cons, map_tag xs]
      rfl
    · rw [map_cons, map_cons, map_tag xs]
      rfl

/-- The shard has accepted the offsets that have a cell. -/
theorem mem_keys_tag {key : Nat} : ∀ {xs : List (Nat × Slice)} {shard : Shard},
    key ∈ (tag hashBytes room shard xs).2.keys ↔
      key ∈ shard.keys ∨ ∃ y ∈ (tag hashBytes room shard xs).1, y.offsetOut = .inShard key
  | [], shard => by simp [tag]
  | x :: xs, shard => by
    simp only [tag]
    split
    · rename_i shard' hi
      have hkeys : shard'.keys = shard.keys ++ [x.1] := by
        unfold Shard.insert at hi
        split at hi
        · cases hi
          rfl
        · cases hi
      rw [mem_keys_tag, hkeys, exists_mem_cons_iff, mem_append, mem_singleton,
        or_assoc]
      refine or_congr_right (or_congr_left ?_)
      exact ⟨fun e => by rw [e], fun e => (OffsetOut.inShard.inj e).symm⟩
    · rw [mem_keys_tag, exists_mem_cons_iff]
      refine or_congr_right ?_
      exact ⟨Or.inr, fun h => h.resolve_left (by simp)⟩

end Tag

/-! ## 1. The workload of a tiling -/

section Tiling

variable (hashBytes : Bytes → UInt64) (room : Shard → Nat → Bool)
  (sections : List StringMergeInputSection)

/-- The tagged strings of the group with an index, and its shard after they were tagged. -/
def taggedGroup (groups : List SectionGroup) (g : Nat) : List StringToMerge × Shard :=
  match groups[g]? with
  | some group => tag hashBytes room group.offsetsShard (groupStrings sections group)
  | none => ([], ⟨0, 0, []⟩)

variable {sections}

theorem Tiles.getElem : ∀ {groups : List SectionGroup} {start index : Nat},
    Tiles sections start index groups → ∀ (g : Nat) (h : g < groups.length),
      groups[g].index = index + g ∧ Covers sections groups[g]
        ∧ groups[g].offsetsShard.keys = []
  | [], _, _, _, g, h => absurd h (Nat.not_lt_zero g)
  | group :: groups, _, index, ht, g, h => by
    obtain ⟨hi, -, -, hs, hc, hrest⟩ := ht
    cases g with
    | zero => exact ⟨hi, hc, by rw [getElem_cons_zero, hs]⟩
    | succ g =>
      obtain ⟨h1, h2, h3⟩ := hrest.getElem g (by simpa using h)
      exact ⟨by rw [getElem_cons_succ, h1]; omega, h2, h3⟩

variable {groups : List SectionGroup} {x : Nat × Slice}

theorem mem_taggedGroup {g : Nat} {y : StringToMerge}
    (h : y ∈ (taggedGroup hashBytes room sections groups g).1) :
    ∃ hg : g < groups.length, (y.offsetOut.key, y.string.value) ∈ groupStrings sections groups[g]
      ∧ y.string = takeHashed hashBytes y.string.value := by
  unfold taggedGroup at h
  split at h
  · rename_i group hgroup
    obtain ⟨hg, rfl⟩ := List.getElem?_eq_some_iff.mp hgroup
    refine ⟨hg, ?_⟩
    have hmem := List.mem_map_of_mem (f := fun y : StringToMerge => (y.offsetOut.key, y.string)) h
    rw [map_tag] at hmem
    obtain ⟨x, hx, he⟩ := mem_map.mp hmem
    obtain ⟨h1, h2⟩ := Prod.mk.inj he
    rw [← h1, ← h2]
    exact ⟨hx, rfl⟩
  · exact absurd h not_mem_nil

theorem pairwise_groupStrings (hwf : ∀ s ∈ sections, s.WellFormed) (hl : LaidOut 0 sections) (ht : Tiles sections 0 0 groups) :
    (groups.flatMap (groupStrings sections)).Pairwise Precedes := by
  rw [flatMap_groupStrings hwf hl ht]
  exact (pairwise_allStrings hwf hl).filter _

theorem len_pos_of_mem_allStrings (hwf : ∀ s ∈ sections, s.WellFormed)
    (hx : x ∈ allStrings sections) : 0 < x.2.len := by
  obtain ⟨s, hs, hx⟩ := mem_flatMap.mp hx
  exact (bounds_of_mem_sectionStrings (hwf s hs) hx).2.2

theorem mem_allStrings_of_mem_groupStrings {g : SectionGroup}
    (h : x ∈ groupStrings sections g) : x ∈ allStrings sections :=
  (mem_filter.mp h).1

/-- The offsets of the strings of a group are distinct. -/
theorem nodup_keys (hwf : ∀ s ∈ sections, s.WellFormed) (hl : LaidOut 0 sections)
    (group : SectionGroup) (shard : Shard) :
    ((tag hashBytes room shard (groupStrings sections group)).1.map (·.offsetOut.key)).Nodup := by
  have hmap := congrArg (List.map Prod.fst)
    (map_tag hashBytes room (groupStrings sections group) shard)
  simp only [List.map_map] at hmap
  have hkeys : (tag hashBytes room shard (groupStrings sections group)).1.map (·.offsetOut.key)
      = (groupStrings sections group).map Prod.fst := hmap
  rw [hkeys]
  refine pairwise_map.mpr ?_
  refine ((pairwise_allStrings hwf hl).filter _).imp_of_mem ?_
  intro x y hx _ hxy
  have := len_pos_of_mem_allStrings hwf (mem_allStrings_of_mem_groupStrings hx)
  simp only [Precedes] at hxy
  omega

/-- Two strings at the same input offset are in the same group and are the same. -/
theorem eq_of_key_eq (hwf : ∀ s ∈ sections, s.WellFormed) (hl : LaidOut 0 sections) (ht : Tiles sections 0 0 groups) {g g' : Nat}
    {x y : StringToMerge} (hx : x ∈ (taggedGroup hashBytes room sections groups g).1)
    (hy : y ∈ (taggedGroup hashBytes room sections groups g').1)
    (hkey : x.offsetOut.key = y.offsetOut.key) : g = g' ∧ x = y := by
  obtain ⟨hg, hxs, -⟩ := mem_taggedGroup hashBytes room hx
  obtain ⟨hg', hys, -⟩ := mem_taggedGroup hashBytes room hy
  have hxpos : 0 < x.string.value.len :=
    len_pos_of_mem_allStrings hwf (mem_allStrings_of_mem_groupStrings hxs)
  have hypos : 0 < y.string.value.len :=
    len_pos_of_mem_allStrings hwf (mem_allStrings_of_mem_groupStrings hys)
  have hacross := (pairwise_flatMap.mp (pairwise_groupStrings hwf hl ht)).2
  have horder := pairwise_iff_getElem.mp hacross
  have hsame : g = g' := by
    rcases Nat.lt_trichotomy g g' with hlt | heq | hgt
    · have h : x.offsetOut.key + x.string.value.len ≤ y.offsetOut.key :=
        horder g g' hg hg' hlt _ hxs _ hys
      omega
    · exact heq
    · have h : y.offsetOut.key + y.string.value.len ≤ x.offsetOut.key :=
        horder g' g hg' hg hgt _ hys _ hxs
      omega
  subst hsame
  refine ⟨rfl, ?_⟩
  have htagged : taggedGroup hashBytes room sections groups g
      = tag hashBytes room groups[g].offsetsShard (groupStrings sections groups[g]) := by
    simp only [taggedGroup, getElem?_eq_getElem hg]
  rw [htagged] at hx hy
  exact inj_on_of_nodup_map (nodup_keys hashBytes room hwf hl groups[g] _) hx hy hkey

/-- **The groups of a tiling are a workload.** -/
def workload (hwf : ∀ s ∈ sections, s.WellFormed) (hl : LaidOut 0 sections)
    {groups : List SectionGroup} (ht : Tiles sections 0 0 groups) :
    Workload hashBytes room groups where
  items g := (taggedGroup hashBytes room sections groups g).1
  shard g := (taggedGroup hashBytes room sections groups g).2
  index g h := by
    rw [(ht.getElem g h).1, Nat.zero_add]
  split g h := by
    rw [splitGroup_eq hashBytes room hwf (ht.getElem g h).2.1, collect_eq]
    simp only [taggedGroup, getElem?_eq_getElem h, nil_append]
  accepted g key := by
    unfold taggedGroup
    split
    · rename_i group hgroup
      obtain ⟨hg, rfl⟩ := List.getElem?_eq_some_iff.mp hgroup
      rw [mem_keys_tag, (ht.getElem g hg).2.2]
      simp
    · simp
  distinct g g' x y hx hy hkey := eq_of_key_eq hashBytes room hwf hl ht hx hy hkey

/-! ## 2. The strings of a bucket -/

/-- All strings that go into a bucket, in input order. -/
def bucketStrings (sections : List StringMergeInputSection) (b : Fin mergeStringBuckets) :
    List Slice :=
  ((allStrings sections).filter fun x => bucketOf (hashBytes x.2.bytes) = b).map (·.2)

/-- The size of a bucket: each of its strings once. -/
def bucketSize (sections : List StringMergeInputSection) (b : Fin mergeStringBuckets) : Nat :=
  ∑ word ∈ ((bucketStrings hashBytes sections b).map (·.bytes)).toFinset, word.length

theorem flatMap_range {α β : Type} {l : List α} {f : Nat → List β} {g : α → List β}
    (h : ∀ (i : Nat) (hi : i < l.length), f i = g l[i]) : ∀ k, k ≤ l.length →
      (List.range k).flatMap f = (l.take k).flatMap g
  | 0, _ => by simp
  | k + 1, hk => by
    rw [range_succ, flatMap_append, flatMap_range h k (by omega),
      take_succ_eq_append_getElem (by omega), flatMap_append]
    simp [h k (by omega)]

/-- The groups bring the strings of a bucket in input order. -/
theorem upTo_workload (hwf : ∀ s ∈ sections, s.WellFormed) (hl : LaidOut 0 sections) (ht : Tiles sections 0 0 groups) (b : Fin mergeStringBuckets) :
    (workload hashBytes room hwf hl ht).upTo b groups.length
      = (bucketStrings hashBytes sections b).map (takeHashed hashBytes) := by
  have hall : allStrings sections = groups.flatMap (groupStrings sections) := by
    rw [flatMap_groupStrings hwf hl ht]
    exact (filter_eq_self.mpr fun x _ => by simp).symm
  have hgroup : ∀ g (h : g < groups.length),
      ((workload hashBytes room hwf hl ht).vec g b).map (·.string)
        = ((groupStrings sections groups[g]).filter
            fun x => bucketOf (hashBytes x.2.bytes) = b).map fun x => takeHashed hashBytes x.2 := by
    intro g h
    have htagged : (workload hashBytes room hwf hl ht).items g
        = (tag hashBytes room groups[g].offsetsShard (groupStrings sections groups[g])).1 := by
      simp only [workload, taggedGroup, getElem?_eq_getElem h]
    have hmap := congrArg (List.map Prod.snd) (map_tag hashBytes room
      (groupStrings sections groups[g]) groups[g].offsetsShard)
    simp only [List.map_map] at hmap
    have hstrings : ((workload hashBytes room hwf hl ht).items g).map (·.string)
        = (groupStrings sections groups[g]).map fun x => takeHashed hashBytes x.2 := by
      rw [htagged]
      exact hmap
    have hleft := List.filter_map (f := fun y : StringToMerge => y.string)
      (p := fun s : PreHashed => decide (bucketOf s.hash = b))
      (l := (workload hashBytes room hwf hl ht).items g)
    have hright := List.filter_map (f := fun x : Nat × Slice => takeHashed hashBytes x.2)
      (p := fun s : PreHashed => decide (bucketOf s.hash = b))
      (l := groupStrings sections groups[g])
    rw [hstrings] at hleft
    exact hleft.symm.trans hright
  have hrange := flatMap_range (g := fun group : SectionGroup =>
    ((groupStrings sections group).filter fun x => bucketOf (hashBytes x.2.bytes) = b).map
      fun x => takeHashed hashBytes x.2) hgroup groups.length (Nat.le_refl _)
  rw [bucketStrings, hall, filter_flatMap, map_flatMap, map_flatMap,
    Workload.upTo, hrange, take_length]
  simp only [List.map_map]
  rfl

end Tiling

end Srs.StringMerging
