/-
# The groups of a list that is sorted by a key

In a list sorted by a key the elements of one key stand together: a group is what a scan from its
first element on collects (`exists_split_of_filter`), and the groups of all keys in order are the
list (`flatten_groups`).
-/
import Mathlib.Data.UInt

namespace Srs.SortedGroups

open List

variable {α : Type} {key : α → Nat} {l : List α} {k n : Nat}

/-- Where no key is smaller, the group of `k` stands in front. -/
theorem filter_eq_takeWhile : ∀ {l : List α}, l.Pairwise (fun a b => key a ≤ key b) →
    (∀ a ∈ l, k ≤ key a) → l.filter (fun a => key a = k) = l.takeWhile fun a => key a = k
  | [], _, _ => rfl
  | a :: rest, hsorted, hge => by
    obtain ⟨hfirst, hrest⟩ := pairwise_cons.mp hsorted
    by_cases ha : key a = k
    · rw [filter_cons_of_pos (by simpa using ha), takeWhile_cons_of_pos (by simpa using ha),
        filter_eq_takeWhile hrest fun b hb => hge b (mem_cons_of_mem _ hb)]
    · have hlt : k < key a := Nat.lt_of_le_of_ne (hge a (by simp)) (Ne.symm ha)
      rw [takeWhile_cons_of_neg (by simpa using ha), filter_eq_nil_iff]
      intro b hb
      have hkey : k < key b := by
        rcases mem_cons.mp hb with rfl | hb
        · exact hlt
        · exact Nat.lt_of_lt_of_le hlt (hfirst b hb)
      simpa using (Nat.ne_of_lt hkey).symm

/-- **A group that is not empty is what a scan from its first element on collects.** -/
theorem exists_split_of_filter {a : α} {group : List α} :
    ∀ {l : List α}, l.Pairwise (fun a b => key a ≤ key b) →
      l.filter (fun b => key b = k) = a :: group →
        ∃ pre rest, l = pre ++ a :: rest ∧ key a = k ∧ group = rest.takeWhile fun b => key b = k
  | [], _, h => absurd h (by simp)
  | b :: l, hsorted, h => by
    obtain ⟨hfirst, hrest⟩ := pairwise_cons.mp hsorted
    by_cases hb : key b = k
    · rw [filter_cons_of_pos (by simpa using hb)] at h
      obtain ⟨rfl, rfl⟩ := cons_eq_cons.mp h
      exact ⟨[], l, rfl, hb, filter_eq_takeWhile hrest fun c hc => hb ▸ hfirst c hc⟩
    · rw [filter_cons_of_neg (by simpa using hb)] at h
      obtain ⟨pre, rest, rfl, ha, hgroup⟩ := exists_split_of_filter hrest h
      exact ⟨b :: pre, rest, rfl, ha, hgroup⟩

theorem filter_lt_succ : ∀ {l : List α}, l.Pairwise (fun a b => key a ≤ key b) →
    l.filter (fun a => key a < n + 1)
      = l.filter (fun a => key a < n) ++ l.filter fun a => key a = n
  | [], _ => rfl
  | a :: rest, hsorted => by
    obtain ⟨hfirst, hrest⟩ := pairwise_cons.mp hsorted
    have ih := filter_lt_succ hrest
    rcases Nat.lt_trichotomy (key a) n with hlt | heq | hgt
    · rw [filter_cons_of_pos (by simpa using Nat.lt_succ_of_lt hlt),
        filter_cons_of_pos (by simpa using hlt),
        filter_cons_of_neg (by simpa using Nat.ne_of_lt hlt), ih, cons_append]
    · have hnone : rest.filter (fun b => key b < n) = [] :=
        filter_eq_nil_iff.mpr fun b hb => by simpa using heq ▸ hfirst b hb
      rw [filter_cons_of_pos
          (by exact decide_eq_true (Nat.lt_succ_of_le (Nat.le_of_eq heq))),
        filter_cons_of_neg (by simpa using Nat.le_of_eq heq.symm),
        filter_cons_of_pos (by simpa using heq), ih, hnone, nil_append, nil_append]
    · rw [filter_cons_of_neg (by simpa using Nat.succ_le_of_lt hgt),
        filter_cons_of_neg (by simpa using Nat.le_of_lt hgt),
        filter_cons_of_neg (by simpa using (Nat.ne_of_lt hgt).symm), ih]

/-- **The groups in order are the list.** -/
theorem flatten_groups (hsorted : l.Pairwise fun a b => key a ≤ key b) (hlt : ∀ a ∈ l, key a < n) :
    ((List.range n).map fun k => l.filter fun a => key a = k).flatten = l := by
  have hall : ∀ n, ((List.range n).map fun k => l.filter fun a => key a = k).flatten
      = l.filter fun a => key a < n := by
    intro n
    induction n with
    | zero => simp
    | succ n ih =>
      rw [range_succ, map_append, flatten_append, ih, filter_lt_succ hsorted]
      simp
  rw [hall, filter_eq_self]
  exact fun a ha => by simpa using hlt a ha

end Srs.SortedGroups
