/-
# What follows what in a list

`followers a l` are the items that stand directly behind an `a` in `l`: what a scan over all
adjacent pairs of a list sees of the pairs that begin with `a`.  Cutting a list anywhere but behind
an `a` cuts its followers (`followers_append`).
-/
import Mathlib.Data.UInt

namespace Srs.Adjacent

open List

variable {α : Type} [DecidableEq α] {a b : α} {l l' : List α}

/-- The items that stand directly behind an `a`. -/
def followers (a : α) (l : List α) : List α :=
  (l.zip l.tail).filterMap fun pair => if pair.1 = a then some pair.2 else none

@[simp] theorem followers_nil (a : α) : followers a [] = [] := rfl

@[simp] theorem followers_singleton (a b : α) : followers a [b] = [] := rfl

theorem followers_cons_cons (a b c : α) (l : List α) :
    followers a (b :: c :: l)
      = if b = a then c :: followers a (c :: l) else followers a (c :: l) := by
  unfold followers
  rw [tail_cons, zip_cons_cons, filterMap_cons]
  split <;> rename_i heq <;> split at heq <;> simp_all

/-- An item that is not `a` has no follower. -/
theorem followers_cons_of_ne (h : b ≠ a) (l : List α) : followers a (b :: l) = followers a l := by
  cases l with
  | nil => rfl
  | cons c l => rw [followers_cons_cons, if_neg h]

/-- **A cut that is not behind an `a`.** -/
theorem followers_append (h : l.getLast? ≠ some a) (l' : List α) :
    followers a (l ++ l') = followers a l ++ followers a l' := by
  induction l with
  | nil => rfl
  | cons b l ih =>
    cases l with
    | nil =>
      have hne : b ≠ a := fun heq => h (by rw [heq]; rfl)
      rw [singleton_append, followers_cons_of_ne hne, followers_singleton, nil_append]
    | cons c l =>
      have ih := ih (by simpa using h)
      simp only [cons_append] at ih ⊢
      rw [followers_cons_cons, followers_cons_cons, ih]
      split <;> rfl

theorem mem_followers_iff : b ∈ followers a l ↔ ∃ pre post, l = pre ++ a :: b :: post := by
  induction l with
  | nil => simp
  | cons c l ih =>
    cases l with
    | nil =>
      simp only [followers_singleton, not_mem_nil, false_iff, not_exists]
      intro pre post heq
      have hlen := congrArg List.length heq
      simp at hlen
      omega
    | cons d l =>
      have hmem : b ∈ followers a (c :: d :: l) ↔ (c = a ∧ b = d) ∨ b ∈ followers a (d :: l) := by
        rw [followers_cons_cons]
        split <;> simp_all
      rw [hmem, ih]
      constructor
      · rintro (⟨rfl, rfl⟩ | ⟨pre, post, heq⟩)
        · exact ⟨[], l, rfl⟩
        · exact ⟨c :: pre, post, by rw [heq]; rfl⟩
      · rintro ⟨pre, post, heq⟩
        cases pre with
        | nil =>
          simp only [nil_append, List.cons.injEq] at heq
          exact Or.inl ⟨heq.1, heq.2.1.symm⟩
        | cons e pre => exact Or.inr ⟨pre, post, (List.cons.inj heq).2⟩

end Srs.Adjacent
