/-
# Interning

A table of distinct words that is written out as their concatenation.  `intern` adds a word
unless the table has it; `offsetOf` is where a word starts in the concatenation.  Since words are
only ever added at the end, an offset that was given out stays right (`offsetOf_of_isPrefix`),
and the bytes there are the word (`take_drop_of_offsetOf`).  The size of a table that interned
some words is the size of the distinct words among them, in whatever order they came
(`length_flatten_internAll`).
-/
import Mathlib.Algebra.BigOperators.Group.Finset.Basic
import Mathlib.Algebra.Order.BigOperators.Group.Finset
import Mathlib.Data.UInt

namespace Srs.Intern

open List

variable {α : Type} [DecidableEq α]

/-- The table after a word was looked up. -/
def intern (table : List (List α)) (word : List α) : List (List α) :=
  if word ∈ table then table else table ++ [word]

def internAll (table words : List (List α)) : List (List α) := words.foldl intern table

/-- Where a word starts in the concatenation of the table. -/
def offsetOf (word : List α) : List (List α) → Option Nat
  | [] => none
  | w :: table => if w = word then some 0 else (offsetOf word table).map (w.length + ·)

/-! ## 1. Offsets -/

variable {word : List α}

theorem offsetOf_eq_none : ∀ {table : List (List α)},
    offsetOf word table = none ↔ word ∉ table
  | [] => by simp [offsetOf]
  | w :: table => by
    by_cases h : w = word
    · simp [offsetOf, h]
    · have h' : ¬ word = w := fun e => h e.symm
      simp [offsetOf, h, h', offsetOf_eq_none]

theorem exists_offsetOf {table : List (List α)} (h : word ∈ table) :
    ∃ offset, offsetOf word table = some offset := by
  cases ho : offsetOf word table with
  | none => exact absurd h (offsetOf_eq_none.mp ho)
  | some offset => exact ⟨offset, rfl⟩

/-- An offset stays what it is when the table grows. -/
theorem offsetOf_append {word : List α} {offset : Nat} : ∀ {table : List (List α)},
    offsetOf word table = some offset → ∀ more, offsetOf word (table ++ more) = some offset
  | [], h, _ => by simp [offsetOf] at h
  | w :: table, h, more => by
    by_cases hw : w = word
    · simpa [offsetOf, hw] using h
    · simp only [offsetOf, if_neg hw, Option.map_eq_some_iff] at h
      obtain ⟨o, ho, rfl⟩ := h
      simp [offsetOf, hw, offsetOf_append ho more]

variable {offset : Nat}

theorem offsetOf_of_isPrefix {a b : List (List α)}
    (h : offsetOf word a = some offset) (hp : a <+: b) : offsetOf word b = some offset := by
  obtain ⟨more, rfl⟩ := hp
  exact offsetOf_append h more

/-- A new word starts where the table ended. -/
theorem offsetOf_append_self : ∀ {table : List (List α)}, word ∉ table →
    offsetOf word (table ++ [word]) = some table.flatten.length
  | [], _ => by simp [offsetOf]
  | w :: table, h => by
    have hw : ¬ w = word := fun e => h (e ▸ mem_cons_self)
    have ht : word ∉ table := fun hm => h (mem_cons_of_mem w hm)
    simp [offsetOf, hw, offsetOf_append_self ht]

/-- **The word is found at its offset.** -/
theorem take_drop_of_offsetOf {word : List α} {offset : Nat} : ∀ {table : List (List α)},
    offsetOf word table = some offset →
      offset + word.length ≤ table.flatten.length
        ∧ (table.flatten.drop offset).take word.length = word
  | [], h => by simp [offsetOf] at h
  | w :: table, h => by
    by_cases hw : w = word
    · simp only [offsetOf, if_pos hw, Option.some.injEq] at h
      subst hw h
      simp
    · simp only [offsetOf, if_neg hw, Option.map_eq_some_iff] at h
      obtain ⟨o, ho, rfl⟩ := h
      obtain ⟨hle, htake⟩ := take_drop_of_offsetOf ho
      rw [flatten_cons, length_append]
      refine ⟨by omega, ?_⟩
      rw [drop_length_add_append]
      exact htake

/-! ## 2. Tables -/

theorem isPrefix_intern (table : List (List α)) (word : List α) : table <+: intern table word := by
  unfold intern
  split
  · exact prefix_refl table
  · exact prefix_append table [word]

theorem isPrefix_internAll : ∀ (words table : List (List α)), table <+: internAll table words
  | [], table => prefix_refl table
  | w :: words, table =>
    (isPrefix_intern table w).trans (isPrefix_internAll words (intern table w))

theorem mem_intern {table : List (List α)} {word w : List α} :
    w ∈ intern table word ↔ w ∈ table ∨ w = word := by
  unfold intern
  split
  · rename_i h
    exact ⟨Or.inl, fun h' => h'.elim id fun e => e ▸ h⟩
  · simp

theorem mem_internAll {w : List α} : ∀ {words table : List (List α)},
    w ∈ internAll table words ↔ w ∈ table ∨ w ∈ words
  | [], table => by simp [internAll]
  | v :: words, table => by
    have ih := @mem_internAll w words (intern table v)
    rw [mem_intern] at ih
    rw [mem_cons, ← or_assoc]
    exact ih

theorem nodup_intern {table : List (List α)} (h : table.Nodup) (word : List α) :
    (intern table word).Nodup := by
  unfold intern
  split
  · exact h
  · rename_i hw
    refine nodup_append.mpr ⟨h, nodup_singleton word, ?_⟩
    intro a ha b hb e
    rw [mem_singleton] at hb
    exact hw (hb ▸ e ▸ ha)

theorem nodup_internAll : ∀ {words table : List (List α)}, table.Nodup →
    (internAll table words).Nodup
  | [], _, h => h
  | w :: words, table, h => @nodup_internAll words (intern table w) (nodup_intern h w)

theorem internAll_append (table a b : List (List α)) :
    internAll table (a ++ b) = internAll (internAll table a) b :=
  foldl_append

/-- **The size of a table is the size of the distinct words it interned.** -/
theorem length_flatten_internAll (words : List (List α)) :
    (internAll [] words).flatten.length = ∑ w ∈ words.toFinset, w.length := by
  have hset : (internAll [] words).toFinset = words.toFinset := by
    ext w
    simp [mem_internAll]
  have hnodup : (internAll [] words).Nodup := nodup_internAll nodup_nil
  rw [← hset, sum_toFinset _ hnodup, length_flatten]

/-! ## 3. Words that follow one another -/

/-- A word that is not in the first part is found in the second. -/
theorem offsetOf_append_of_not_mem : ∀ {a : List (List α)}, word ∉ a →
    ∀ b, offsetOf word (a ++ b) = (offsetOf word b).map (a.flatten.length + ·)
  | [], _, b => by
    cases h : offsetOf word b <;> simp [h]
  | w :: a, h, b => by
    have hw : ¬ w = word := fun e => h (e ▸ mem_cons_self)
    have ha : word ∉ a := fun hm => h (mem_cons_of_mem w hm)
    rw [cons_append, offsetOf, if_neg hw, offsetOf_append_of_not_mem ha b, Option.map_map]
    congr 1
    funext o
    simp only [Function.comp_apply, flatten_cons, length_append]
    omega

theorem exists_split_of_offsetOf {table : List (List α)}
    (h : offsetOf word table = some offset) :
    ∃ before later, table = before ++ word :: later ∧ word ∉ before
      ∧ before.flatten.length = offset := by
  have hmem : word ∈ table := by
    by_contra hnot
    rw [offsetOf_eq_none.mpr hnot] at h
    cases h
  obtain ⟨before, later, rfl, hbefore⟩ := eq_append_cons_of_mem hmem
  refine ⟨before, later, rfl, hbefore, ?_⟩
  rw [offsetOf_append_of_not_mem hbefore, offsetOf, if_pos rfl] at h
  exact Option.some.inj h

/-- The words start one behind the other, from an offset on. -/
def Follow (table : List (List α)) : Nat → List (List α) → Prop
  | _, [] => True
  | offset, w :: ws => offsetOf w table = some offset ∧ Follow table (offset + w.length) ws

section

variable {table : List (List α)} (hne : ∀ w ∈ table, w ≠ [])
include hne

omit [DecidableEq α] in
/-- Two parts of a table that are as long are the same. -/
theorem eq_of_length_flatten {a b c d : List (List α)} (h : table = a ++ b) (h' : table = c ++ d)
    (hlen : a.flatten.length = c.flatten.length) : a = c ∧ b = d := by
  have hempty : ∀ e : List (List α), (∀ w ∈ e, w ∈ table) → e.flatten.length = 0 → e = [] := by
    intro e he hzero
    rw [length_eq_zero_iff, flatten_eq_nil_iff] at hzero
    exact eq_nil_iff_forall_not_mem.mpr fun w hw => hne w (he w hw) (hzero w hw)
  obtain ⟨e, rfl, rfl⟩ | ⟨e, rfl, rfl⟩ := append_eq_append_iff.mp (h.symm.trans h')
  · rw [flatten_append, length_append] at hlen
    obtain rfl := hempty e (fun w hw => by rw [h]; simp [hw]) (by omega)
    simp
  · rw [flatten_append, length_append] at hlen
    obtain rfl := hempty e (fun w hw => by rw [h]; simp [hw]) (by omega)
    simp

/-- Words that follow one another from the end of a part on start the rest. -/
theorem Follow.isPrefix : ∀ {ws before rest : List (List α)} {offset : Nat},
    Follow table offset ws → table = before ++ rest → before.flatten.length = offset → ws <+: rest
  | [], _, rest, _, _, _, _ => nil_prefix
  | w :: ws, before, rest, offset, ⟨hw, hws⟩, hsplit, hlen => by
    obtain ⟨before', later, hsplit', -, hlen'⟩ := exists_split_of_offsetOf hw
    obtain ⟨rfl, rfl⟩ := eq_of_length_flatten hne hsplit hsplit' (hlen.trans hlen'.symm)
    have hnext : table = (before ++ [w]) ++ later := by rw [hsplit, append_cons]
    have hlater : ws <+: later := by
      refine Follow.isPrefix hws hnext ?_
      rw [flatten_append, length_append, flatten_singleton, hlen]
    exact cons_prefix_cons.mpr ⟨rfl, hlater⟩

/-- **Words follow one another where they are a stretch of the table.** -/
theorem Follow.exists_split {ws : List (List α)} {offset : Nat} (h : Follow table offset ws)
    (hws : ws ≠ []) : ∃ before later, table = before ++ ws ++ later
      ∧ before.flatten.length = offset := by
  obtain ⟨w, ws, rfl⟩ := exists_cons_of_ne_nil hws
  obtain ⟨before, later, hsplit, -, hlen⟩ := exists_split_of_offsetOf h.1
  obtain ⟨more, hmore⟩ := h.isPrefix hne hsplit hlen
  exact ⟨before, more, by rw [List.append_assoc, hmore, hsplit], hlen⟩

/-- A word that starts within a stretch is one of it. -/
theorem mem_of_offsetOf_within {before ws later : List (List α)} {word : List α} {offset : Nat}
    (hsplit : table = before ++ ws ++ later) (ho : offsetOf word table = some offset)
    (hle : before.flatten.length ≤ offset)
    (hlt : offset < before.flatten.length + ws.flatten.length) : word ∈ ws := by
  have hmem : word ∈ table := by
    by_contra hnot
    rw [offsetOf_eq_none.mpr hnot] at ho
    cases ho
  by_cases hbefore : word ∈ before
  · obtain ⟨o, hword⟩ := exists_offsetOf hbefore
    have hstop := (take_drop_of_offsetOf hword).1
    have hpos := length_pos_iff.mpr (hne word hmem)
    have hwhole := offsetOf_append hword (ws ++ later)
    rw [hsplit, List.append_assoc, hwhole] at ho
    cases ho
    omega
  · by_contra hws
    have hnot : word ∉ before ++ ws := fun h => (mem_append.mp h).elim hbefore hws
    rw [hsplit, offsetOf_append_of_not_mem hnot] at ho
    obtain ⟨o, -, rfl⟩ := Option.map_eq_some_iff.mp ho
    rw [flatten_append, length_append] at hlt
    omega

end

/-- A stretch of a table follows what is before it. -/
theorem follow_of_split : ∀ {ws before later table : List (List α)}, table.Nodup →
    table = before ++ ws ++ later → Follow table before.flatten.length ws
  | [], _, _, _, _, _ => trivial
  | w :: ws, before, later, table, hnodup, hsplit => by
    have hbefore : w ∉ before := by
      intro h
      rw [hsplit, List.append_assoc, nodup_append'] at hnodup
      exact hnodup.2.2 h (mem_append_left later mem_cons_self)
    refine ⟨?_, ?_⟩
    · rw [hsplit, List.append_assoc, offsetOf_append_of_not_mem hbefore, cons_append, offsetOf,
        if_pos rfl]
      rfl
    · have hrest := follow_of_split hnodup (hsplit.trans (by simp) :
        table = (before ++ [w]) ++ ws ++ later)
      rwa [flatten_append, length_append, flatten_singleton] at hrest

end Srs.Intern
