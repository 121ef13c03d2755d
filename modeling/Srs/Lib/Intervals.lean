/-
# Half-open intervals of numbers

A checker that wants to know whether many intervals are disjoint sorts them by where they start
and compares neighbours.  That is enough as long as no interval is empty: an empty interval in
the middle hides that its two neighbours meet.  `pairwise_disjoint_iff_isChain` is that fact.

The second part counts how many intervals of a list cover a number.  Disjoint intervals cover
every number at most once (`pairwise_disjoint_iff_cover_le_one`), and cutting an interval in two
changes no count (`cover_cut`): together they say that pieces cut off disjoint intervals are
disjoint, whatever was cut and in which order.
-/
import Mathlib.Data.List.Chain
import Mathlib.Data.UInt

namespace Srs

open List

/-- The numbers from `start` up to, and not including, `stop`. -/
structure Interval where
  start : Nat
  stop : Nat
  deriving DecidableEq

namespace Interval

/-- No number in both, for intervals that are not empty. -/
def Apart (a b : Interval) : Prop := a.stop ≤ b.start ∨ b.stop ≤ a.start

instance (a b : Interval) : Decidable (Apart a b) := inferInstanceAs (Decidable (_ ∨ _))

def Nonempty (a : Interval) : Prop := a.start < a.stop

instance (a : Interval) : Decidable a.Nonempty := inferInstanceAs (Decidable (_ < _))

def Contains (a : Interval) (n : Nat) : Prop := a.start ≤ n ∧ n < a.stop

instance (a : Interval) (n : Nat) : Decidable (a.Contains n) :=
  inferInstanceAs (Decidable (_ ∧ _))

variable {a b : Interval}

theorem Apart.symm (h : Apart a b) : Apart b a := Or.symm h

/-! ## 1. Comparing neighbours -/

section

variable {α γ : Type} {range : α → Interval} {group : α → γ} {before : γ → γ → Prop}

section

variable (hirrefl : ∀ g, ¬ before g g) (htrans : ∀ a b c, before a b → before b c → before a c)
include hirrefl htrans

/-- In a list sorted by groups, an element that ends before its neighbour of the same group ends
before all later elements of that group. -/
theorem le_start_of_isChain_group {l : List α} : ∀ {a : α},
    (a :: l).Pairwise (fun a b => before (group a) (group b) ∨ group a = group b) →
      (a :: l).IsChain (fun a b => group a = group b → (range a).stop ≤ (range b).start) →
        (∀ b ∈ l, (range b).Nonempty) → ∀ b ∈ l, group a = group b →
          (range a).stop ≤ (range b).start := by
  induction l with
  | nil =>
    intro a _ _ _ b hb
    exact absurd hb (by simp)
  | cons c l ih =>
    intro a hsorted hchain hne b hb hgroup
    rw [isChain_cons_cons] at hchain
    obtain ⟨hfirst, hrest⟩ := pairwise_cons.mp hsorted
    rcases mem_cons.mp hb with rfl | hb
    · exact hchain.1 hgroup
    · -- the neighbour lies between two elements of one group, so it belongs to that group
      have hcb := (pairwise_cons.mp hrest).1 b hb
      have hac : group a = group c := by
        rcases hfirst c (by simp) with h | h
        · rcases hcb with h' | h'
          · exact absurd (hgroup ▸ htrans _ _ _ h h') (hirrefl _)
          · exact absurd (hgroup ▸ h' ▸ h) (hirrefl _)
        · exact h
      have hcb : (range c).stop ≤ (range b).start :=
        ih hrest hchain.2 (fun x hx => hne x (mem_cons_of_mem _ hx)) b hb (hac ▸ hgroup)
      have hcne : (range c).start < (range c).stop := hne c (by simp)
      have := hchain.1 hac
      omega

/-- **Comparing neighbours decides disjointness group by group**, in a list sorted by groups and
by starts within a group. -/
theorem pairwise_disjoint_iff_isChain_group {l : List α}
    (hsorted : l.Pairwise fun a b =>
      before (group a) (group b) ∨ group a = group b ∧ (range a).start ≤ (range b).start)
    (hne : ∀ a ∈ l, (range a).Nonempty) :
    l.Pairwise (fun a b => group a = group b → Apart (range a) (range b))
      ↔ l.IsChain fun a b => group a = group b → (range a).stop ≤ (range b).start := by
  constructor
  · intro h
    refine ((h.and hsorted).imp_of_mem ?_).isChain
    rintro a b ha hb ⟨hab, hord⟩ hgroup
    have hle : (range a).start ≤ (range b).start := by
      rcases hord with hlt | hle
      · exact absurd (hgroup ▸ hlt) (hirrefl _)
      · exact hle.2
    rcases hab hgroup with h | h
    · exact h
    · have hbne : (range b).start < (range b).stop := hne b hb
      omega
  · intro h
    induction l with
    | nil => exact List.Pairwise.nil
    | cons a l ih =>
      obtain ⟨-, hrest⟩ := pairwise_cons.mp hsorted
      refine pairwise_cons.mpr ⟨?_, ?_⟩
      · intro b hb hgroup
        exact .inl (le_start_of_isChain_group hirrefl htrans
          (hsorted.imp fun h => h.imp_right And.left) h
          (fun x hx => hne x (mem_cons_of_mem _ hx)) b hb hgroup)
      · exact ih hrest (fun x hx => hne x (mem_cons_of_mem _ hx)) h.tail

end

end

/-- **In a list of non-empty intervals sorted by their starts, comparing neighbours decides
disjointness.** -/
theorem pairwise_disjoint_iff_isChain {α : Type} (range : α → Interval) {l : List α}
    (hsorted : l.Pairwise fun a b => (range a).start ≤ (range b).start)
    (hne : ∀ a ∈ l, (range a).Nonempty) :
    l.Pairwise (fun a b => Apart (range a) (range b))
      ↔ l.IsChain fun a b => (range a).stop ≤ (range b).start := by
  -- all of them are in one group
  have h := @pairwise_disjoint_iff_isChain_group α Unit range (fun _ => ()) (fun _ _ => False)
    (fun _ => id) (fun _ _ _ => False.elim) l (hsorted.imp fun h => .inr ⟨rfl, h⟩) hne
  simpa using h

/-! ## 2. Counting -/

/-- How many intervals of the list contain `n`. -/
def cover (l : List Interval) (n : Nat) : Nat := l.countP fun a => decide (a.Contains n)

@[simp] theorem cover_nil (n : Nat) : cover [] n = 0 := rfl

theorem cover_cons (a : Interval) (l : List Interval) (n : Nat) :
    cover (a :: l) n = cover l n + if a.Contains n then 1 else 0 := by
  simp [cover, countP_cons]

theorem cover_append (a b : List Interval) (n : Nat) : cover (a ++ b) n = cover a n + cover b n :=
  countP_append

theorem cover_perm {a b : List Interval} (h : a.Perm b) (n : Nat) : cover a n = cover b n :=
  h.countP_eq _

variable {l : List Interval}

theorem cover_pos {n : Nat} {a : Interval} (ha : a ∈ l) (hn : a.Contains n) :
    0 < cover l n :=
  countP_pos_iff.mpr ⟨a, ha, by simpa using hn⟩

/-- Two intervals in the list that are not apart have a number in common. -/
theorem exists_contains_of_not_apart (ha : a.Nonempty) (hb : b.Nonempty)
    (h : ¬ Apart a b) : ∃ n, a.Contains n ∧ b.Contains n := by
  simp only [Apart, not_or, Nat.not_le] at h
  simp only [Nonempty] at ha hb
  refine ⟨max a.start b.start, ⟨?_, ?_⟩, ?_, ?_⟩ <;> omega

/-- **Non-empty intervals are pairwise disjoint exactly when no number is covered twice.** -/
theorem pairwise_disjoint_iff_cover_le_one (hne : ∀ a ∈ l, a.Nonempty) :
    l.Pairwise Apart ↔ ∀ n, cover l n ≤ 1 := by
  induction l with
  | nil => simp
  | cons a l ih =>
    have hne' : ∀ b ∈ l, b.Nonempty := fun b hb => hne b (mem_cons_of_mem _ hb)
    rw [pairwise_cons, ih hne']
    constructor
    · rintro ⟨hapart, hcover⟩ n
      rw [cover_cons]
      by_cases hn : a.Contains n
      · have hzero : cover l n = 0 := by
          by_contra hpos
          obtain ⟨b, hb, hbn⟩ := countP_pos_iff.mp (Nat.pos_of_ne_zero hpos)
          have hbn' : b.Contains n := by simpa using hbn
          have := hapart b hb
          simp only [Apart, Contains] at this hn hbn'
          omega
        simp [hzero, hn]
      · simpa [hn] using hcover n
    · intro hcover
      constructor
      · intro b hb
        by_contra hapart
        obtain ⟨n, han, hbn⟩ := exists_contains_of_not_apart (hne a (by simp)) (hne' b hb) hapart
        have hpos := cover_pos hb hbn
        have hle := hcover n
        rw [cover_cons, if_pos han] at hle
        omega
      · intro n
        have hle := hcover n
        rw [cover_cons] at hle
        omega

/-- Cutting an interval in two changes no count. -/
theorem cover_cut {start middle stop : Nat} (h₁ : start ≤ middle) (h₂ : middle ≤ stop) (n : Nat) :
    cover [⟨start, stop⟩] n = cover [⟨start, middle⟩, ⟨middle, stop⟩] n := by
  have hs : ∀ a b : Nat, (⟨a, b⟩ : Interval).Contains n ↔ a ≤ n ∧ n < b := fun _ _ => Iff.rfl
  simp only [cover_cons, cover_nil, hs]
  split_ifs <;> omega

end Interval

end Srs
