/-
# Racing stores and first entries

Two general patterns of parallel code.

STORES: tasks store values at keys of one table, each task in its own order, interleaved with the
others in any way.  What ends up at a key is what was stored last; where all stores to a key agree,
the order makes no difference (`applyStores_of_agree`).

FIRST ENTRIES: a map that keeps the first entry for each key, and a second map from the first entry to
all later ones.  Together they hold the entries of each key in order (`FirstMap.holds_addAll`).
-/
import Mathlib.Data.UInt

namespace Srs.Stores

open List

/-! ## 1. Stores -/

section

variable {κ ν ι α : Type} [DecidableEq κ]

def applyStores (table : κ → ν) (stores : List (κ × ν)) : κ → ν :=
  stores.foldl (fun t st => Function.update t st.1 st.2) table

theorem applyStores_append (table : κ → ν) (a b : List (κ × ν)) :
    applyStores table (a ++ b) = applyStores (applyStores table a) b :=
  foldl_append

variable {k : κ}

/-- A key that nothing is stored at keeps its value. -/
theorem applyStores_of_not_mem : ∀ {stores : List (κ × ν)} (table : κ → ν),
    (∀ st ∈ stores, st.1 ≠ k) → applyStores table stores k = table k
  | [], _, _ => rfl
  | st :: rest, table, h => by
    have hrest := applyStores_of_not_mem (Function.update table st.1 st.2)
      fun st' hmem => h st' (mem_cons_of_mem _ hmem)
    have hne : k ≠ st.1 := fun heq => h st mem_cons_self heq.symm
    exact hrest.trans (Function.update_of_ne hne st.2 table)

/-- Where all stores to a key agree, the key has their value. -/
theorem applyStores_of_agree {v : ν} {stores : List (κ × ν)} (table : κ → ν)
    (hmem : (k, v) ∈ stores) (hagree : ∀ st ∈ stores, st.1 = k → st.2 = v) :
    applyStores table stores k = v := by
  induction stores generalizing table with
  | nil => exact absurd hmem not_mem_nil
  | cons st rest ih =>
    have hrest : ∀ st' ∈ rest, st'.1 = k → st'.2 = v :=
      fun st' h' => hagree st' (mem_cons_of_mem _ h')
    by_cases hlater : (k, v) ∈ rest
    · exact ih _ hlater hrest
    · -- this is the last store to the key
      have hst : st = (k, v) := ((mem_cons.mp hmem).resolve_right hlater).symm
      have hnone : ∀ st' ∈ rest, st'.1 ≠ k := by
        intro st' h' hk
        have heq : st' = (k, v) := Prod.ext hk (hrest st' h' hk)
        rw [heq] at h'
        exact hlater h'
      have hkeep := applyStores_of_not_mem (Function.update table st.1 st.2) hnone
      rw [hst] at hkeep
      rw [hst]
      exact hkeep.trans (Function.update_self k v table)

end

/-! ## 2. Interleaving -/

section

variable {ι α : Type} [DecidableEq ι]

/-- A run in which every task does its operations in order. -/
def Interleaves (sequences : ι → List α) (run : List (ι × α)) : Prop :=
  ∀ i, (run.filter (·.1 = i)).map (·.2) = sequences i

variable {sequences : ι → List α}

theorem Interleaves.mem_iff {run : List (ι × α)}
    (h : Interleaves sequences run) {a : α} : a ∈ run.map (·.2) ↔ ∃ i, a ∈ sequences i := by
  constructor
  · intro hmem
    obtain ⟨entry, hentry, rfl⟩ := mem_map.mp hmem
    refine ⟨entry.1, ?_⟩
    rw [← h entry.1]
    exact mem_map.mpr ⟨entry, mem_filter.mpr ⟨hentry, decide_eq_true rfl⟩, rfl⟩
  · rintro ⟨i, hi⟩
    rw [← h i] at hi
    obtain ⟨entry, hentry, rfl⟩ := mem_map.mp hi
    exact mem_map.mpr ⟨entry, mem_of_mem_filter hentry, rfl⟩

theorem filter_tagged (i j : ι) (ops : List α) :
    ((ops.map fun a => (j, a)).filter (·.1 = i)).map (·.2) = if j = i then ops else [] := by
  rw [List.filter_map, List.map_map]
  have hid : ((·.2) ∘ fun a : α => (j, a)) = id := rfl
  rw [hid, List.map_id]
  by_cases hji : j = i
  · simp [Function.comp_def, hji]
  · simp [Function.comp_def, hji]

theorem filter_flatMap_tagged (sequences : ι → List α) (i : ι) : ∀ {order : List ι}, order.Nodup →
    ((order.flatMap fun j => (sequences j).map fun a => (j, a)).filter (·.1 = i)).map (·.2)
      = if i ∈ order then sequences i else []
  | [], _ => rfl
  | j :: rest, hnodup => by
    obtain ⟨hj, hrest⟩ := nodup_cons.mp hnodup
    rw [flatMap_cons, filter_append, map_append, filter_tagged,
      filter_flatMap_tagged sequences i hrest]
    by_cases hji : j = i
    · subst hji
      rw [if_pos rfl, if_neg hj, if_pos mem_cons_self, append_nil]
    · have hiff : i ∈ j :: rest ↔ i ∈ rest :=
        ⟨fun h => (mem_cons.mp h).resolve_left fun heq => hji heq.symm,
          mem_cons_of_mem j⟩
      simp only [if_neg hji, hiff, nil_append]

/-- One task after the other is an interleaving. -/
theorem interleaves_flatMap {order : List ι} (hnodup : order.Nodup)
    (hall : ∀ i, i ∉ order → sequences i = []) :
    Interleaves sequences (order.flatMap fun i => (sequences i).map fun a => (i, a)) := by
  intro i
  rw [filter_flatMap_tagged sequences i hnodup]
  split
  · rfl
  · next hi => exact (hall i hi).symm

end

/-! ## 3. First entries -/

section

variable {κ ι : Type} [DecidableEq κ] [DecidableEq ι]

structure FirstMap (κ ι : Type) where
  /-- The first entry of each key. -/
  first : List (κ × ι)
  /-- The other entries, by the first. -/
  alternatives : List (ι × List ι)

namespace FirstMap

def empty : FirstMap κ ι := ⟨[], []⟩

/-- Appends to the list of a key, which is empty where the key is new. -/
def pushAt (i j : ι) (alternatives : List (ι × List ι)) : List (ι × List ι) :=
  if alternatives.any (·.1 = i) then
    alternatives.map fun entry => if entry.1 = i then (entry.1, entry.2 ++ [j]) else entry
  else alternatives ++ [(i, [j])]

def get (m : FirstMap κ ι) (k : κ) : Option ι := (m.first.find? (·.1 = k)).map (·.2)

def add (m : FirstMap κ ι) (entry : κ × ι) : FirstMap κ ι :=
  match m.get entry.1 with
  | some i => { m with alternatives := pushAt i entry.2 m.alternatives }
  | none => { m with first := m.first ++ [entry] }

def addAll (entries : List (κ × ι)) : FirstMap κ ι := entries.foldl add empty

/-- The entries of a key, in order. -/
def idsOf (entries : List (κ × ι)) (k : κ) : List ι := (entries.filter (·.1 = k)).map (·.2)

variable {entries : List (κ × ι)} {k : κ} {i : ι} {m : FirstMap κ ι} {entry : κ × ι}

omit [DecidableEq ι] in
theorem mem_idsOf :
    i ∈ idsOf entries k ↔ (k, i) ∈ entries := by
  rw [idsOf, List.mem_map]
  constructor
  · rintro ⟨entry, hentry, rfl⟩
    obtain ⟨hmem, hk⟩ := mem_filter.mp hentry
    obtain rfl := of_decide_eq_true hk
    exact hmem
  · intro h
    exact ⟨(k, i), mem_filter.mpr ⟨h, decide_eq_true rfl⟩, rfl⟩

omit [DecidableEq ι] in
theorem idsOf_concat (entries : List (κ × ι)) (entry : κ × ι) (k : κ) :
    idsOf (entries ++ [entry]) k = idsOf entries k ++ if entry.1 = k then [entry.2] else [] := by
  rw [idsOf, idsOf, filter_append, map_append]
  by_cases hk : entry.1 = k
  · simp [hk]
  · simp [hk]

omit [DecidableEq ι] in
theorem idsOf_filter (entries : List (κ × ι)) (p : κ → Bool) (k : κ) :
    idsOf (entries.filter fun entry => p entry.1) k = if p k then idsOf entries k else [] := by
  rw [idsOf, List.filter_filter]
  by_cases hp : p k = true
  · rw [if_pos hp, idsOf]
    congr 1
    refine filter_congr fun entry _ => ?_
    by_cases hk : entry.1 = k
    · simp [hk, hp]
    · simp [hk]
  · rw [if_neg hp, map_eq_nil_iff, filter_eq_nil_iff]
    intro entry _ hboth
    simp only [Bool.and_eq_true, decide_eq_true_eq] at hboth
    rw [hboth.1] at hboth
    exact hp hboth.2

omit [DecidableEq κ] in
theorem mem_pushAt {j f : ι} {alts : List ι} {alternatives : List (ι × List ι)} :
    (f, alts) ∈ pushAt i j alternatives ↔
      (f ≠ i ∧ (f, alts) ∈ alternatives) ∨
      (f = i ∧ ((∃ old, (i, old) ∈ alternatives ∧ alts = old ++ [j]) ∨
        ((∀ old, (i, old) ∉ alternatives) ∧ alts = [j]))) := by
  have hany : alternatives.any (·.1 = i) = true ↔ ∃ old, (i, old) ∈ alternatives := by
    rw [List.any_eq_true]
    constructor
    · rintro ⟨entry, hmem, hi⟩
      obtain rfl := of_decide_eq_true hi
      exact ⟨entry.2, hmem⟩
    · rintro ⟨old, hmem⟩
      exact ⟨(i, old), hmem, decide_eq_true rfl⟩
  unfold pushAt
  split
  · next h =>
    obtain ⟨old, hold⟩ := hany.mp h
    rw [List.mem_map]
    constructor
    · rintro ⟨entry, hmem, heq⟩
      split at heq
      · next hi =>
        cases heq
        exact .inr ⟨hi, .inl ⟨entry.2, hi ▸ hmem, rfl⟩⟩
      · next hi =>
        subst heq
        exact .inl ⟨hi, hmem⟩
    · rintro (⟨hne, hmem⟩ | ⟨rfl, ⟨old', hmem, rfl⟩ | ⟨hnone, -⟩⟩)
      · exact ⟨(f, alts), hmem, if_neg hne⟩
      · exact ⟨(f, old'), hmem, if_pos rfl⟩
      · exact absurd hold (hnone old)
  · next h =>
    have hnone : ∀ old, (i, old) ∉ alternatives := fun old hmem => h (hany.mpr ⟨old, hmem⟩)
    rw [mem_append, mem_singleton]
    constructor
    · rintro (hmem | heq)
      · refine .inl ⟨?_, hmem⟩
        rintro rfl
        exact hnone alts hmem
      · cases heq
        exact .inr ⟨rfl, .inr ⟨hnone, rfl⟩⟩
    · rintro (⟨-, hmem⟩ | ⟨rfl, ⟨old, hmem, -⟩ | ⟨-, rfl⟩⟩)
      · exact .inl hmem
      · exact absurd hmem (hnone old)
      · exact .inr rfl

/-- What the two maps hold of a list of entries. -/
structure Holds (m : FirstMap κ ι) (entries : List (κ × ι)) : Prop where
  get : ∀ k, m.get k = (idsOf entries k).head?
  alternatives : ∀ f alts, (f, alts) ∈ m.alternatives ↔
    ∃ k, idsOf entries k = f :: alts ∧ alts ≠ []

omit [DecidableEq ι] in
/-- An entry belongs to one key. -/
theorem key_unique (hnodup : (entries.map (·.2)).Nodup) {k' : κ}
    (h : i ∈ idsOf entries k) (h' : i ∈ idsOf entries k') : k = k' := by
  have heq := inj_on_of_nodup_map hnodup (mem_idsOf.mp h) (mem_idsOf.mp h') rfl
  exact (Prod.mk.inj heq).1

omit [DecidableEq ι] in
theorem holds_empty : Holds (empty : FirstMap κ ι) [] where
  get _ := rfl
  alternatives _ _ := ⟨fun h => absurd h not_mem_nil, fun ⟨_, h, _⟩ => nomatch h⟩

omit [DecidableEq ι] in
/-- The first entry of a new key. -/
theorem Holds.add_first (h : Holds m entries) (hnew : idsOf entries entry.1 = []) :
    Holds { m with first := m.first ++ [entry] } (entries ++ [entry]) where
  get k := by
    have hget := h.get k
    unfold FirstMap.get at hget ⊢
    rw [find?_append, idsOf_concat]
    by_cases hk : entry.1 = k
    · subst hk
      rw [hnew] at hget ⊢
      rw [Option.map_eq_none_iff.mp hget]
      simp
    · rw [if_neg hk, append_nil, ← hget]
      simp [hk]
  alternatives f alts := by
    rw [h.alternatives f alts]
    constructor
    · rintro ⟨k, hk, hne⟩
      refine ⟨k, ?_, hne⟩
      have hother : entry.1 ≠ k := by
        rintro rfl
        rw [hnew] at hk
        contradiction
      rw [idsOf_concat, if_neg hother, append_nil, hk]
    · rintro ⟨k, hk, hne⟩
      rw [idsOf_concat] at hk
      by_cases hother : entry.1 = k
      · subst hother
        rw [hnew, if_pos rfl] at hk
        exact absurd (List.cons.inj hk).2.symm hne
      · rw [if_neg hother, append_nil] at hk
        exact ⟨k, hk, hne⟩

/-- One more entry of a key. -/
theorem Holds.add_more (h : Holds m entries)
    (hnodup : (entries.map (·.2)).Nodup) {old : List ι}
    (hold : idsOf entries entry.1 = i :: old) :
    Holds { m with alternatives := pushAt i entry.2 m.alternatives } (entries ++ [entry]) where
  get k := by
    have hget : FirstMap.get { m with alternatives := pushAt i entry.2 m.alternatives } k
        = m.get k := rfl
    rw [hget, h.get k, idsOf_concat]
    by_cases hk : entry.1 = k
    · subst hk
      rw [hold]
      rfl
    · rw [if_neg hk, append_nil]
  alternatives f alts := by
    have hi : i ∈ idsOf entries entry.1 := by
      rw [hold]
      exact mem_cons_self
    -- the entries of the first entry's key
    have hkey : ∀ {k : κ} {rest : List ι}, idsOf entries k = i :: rest → k = entry.1 ∧ rest = old := by
      intro k rest hk
      have hik : i ∈ idsOf entries k := by
        rw [hk]
        exact mem_cons_self
      obtain rfl := key_unique hnodup hik hi
      exact ⟨rfl, (List.cons.inj (hk.symm.trans hold)).2⟩
    rw [mem_pushAt]
    constructor
    · rintro (⟨hne, hmem⟩ | ⟨rfl, ⟨old', hmem, rfl⟩ | ⟨hnone, rfl⟩⟩)
      · obtain ⟨k, hk, halts⟩ := (h.alternatives f alts).mp hmem
        refine ⟨k, ?_, halts⟩
        have hother : entry.1 ≠ k := by
          rintro rfl
          exact hne (List.cons.inj (hk.symm.trans hold)).1
        rw [idsOf_concat, if_neg hother, append_nil, hk]
      · obtain ⟨k, hk, -⟩ := (h.alternatives f old').mp hmem
        obtain ⟨rfl, rfl⟩ := hkey hk
        refine ⟨entry.1, ?_, append_ne_nil_of_right_ne_nil old' (cons_ne_nil _ _)⟩
        rw [idsOf_concat, if_pos rfl, hold, cons_append]
      · -- the second entry of the key
        have hempty : old = [] := by
          refine by_contra fun hne => ?_
          exact hnone old ((h.alternatives f old).mpr ⟨entry.1, hold, hne⟩)
        refine ⟨entry.1, ?_, cons_ne_nil _ _⟩
        rw [idsOf_concat, if_pos rfl, hold, hempty]
        rfl
    · rintro ⟨k, hk, halts⟩
      rw [idsOf_concat] at hk
      by_cases hother : entry.1 = k
      · subst hother
        rw [if_pos rfl, hold, cons_append] at hk
        cases hk
        refine .inr ⟨rfl, ?_⟩
        by_cases hempty : old = []
        · subst hempty
          refine .inr ⟨fun old' hmem => ?_, rfl⟩
          obtain ⟨k, hk', hne⟩ := (h.alternatives i old').mp hmem
          exact hne (hkey hk').2
        · exact .inl ⟨old, (h.alternatives i old).mpr ⟨entry.1, hold, hempty⟩, rfl⟩
      · rw [if_neg hother, append_nil] at hk
        refine .inl ⟨?_, (h.alternatives f alts).mpr ⟨k, hk, halts⟩⟩
        rintro rfl
        exact hother (hkey hk).1.symm

/-- **The two maps hold the entries of each key, in order.** -/
theorem holds_addAll (entries : List (κ × ι)) (hnodup : (entries.map (·.2)).Nodup) :
    Holds (addAll entries) entries := by
  induction entries using reverseRecOn with
  | nil => exact holds_empty
  | append_singleton entries entry ih =>
    have hprefix : (entries.map (·.2)).Nodup := by
      rw [map_append] at hnodup
      exact hnodup.of_append_left
    have h := ih hprefix
    have hadd : addAll (entries ++ [entry]) = (addAll entries).add entry := foldl_append
    have hget := h.get entry.1
    rw [hadd, add]
    cases hids : idsOf entries entry.1 with
    | nil =>
      rw [hids] at hget
      rw [hget]
      exact h.add_first hids
    | cons i old =>
      rw [hids] at hget
      rw [hget]
      exact h.add_more hprefix hids

end FirstMap

end

end Srs.Stores
