/-
# Sorting, and dropping neighbours that agree

`slice::sort` followed by `Vec::dedup` is how the state keeps its lists canonical.  What the
readers of those lists rely on is only which elements are left: sorting changes none
(`mem_sorted`), `dedup` none either (`mem_dedup`), and `dedup_by_key` leaves at least one
element of each key and invents none (`exists_mem_dedupByKey`, `dedupByKey_sublist`).
-/
import Mathlib.Data.UInt

namespace Srs

open List

/-- `slice::sort` (and `sort_unstable`, which can only exchange equal elements).  Insertion
sort is the stable sort that evaluates by structural recursion. -/
def sorted {α : Type} [Ord α] (l : List α) : List α :=
  l.insertionSort fun a b => (compare a b).isLE = true

theorem sorted_perm {α : Type} [Ord α] (l : List α) : (sorted l).Perm l :=
  perm_insertionSort _ l

@[simp] theorem mem_sorted {α : Type} [Ord α] {l : List α} {a : α} : a ∈ sorted l ↔ a ∈ l :=
  (sorted_perm l).mem_iff

/-- `slice::sort_by_key` with a numeric key. -/
def sortedByKey {α : Type} (key : α → Nat) (l : List α) : List α :=
  l.insertionSort fun a b => key a ≤ key b

theorem sortedByKey_perm {α : Type} (key : α → Nat) (l : List α) :
    (sortedByKey key l).Perm l :=
  perm_insertionSort _ l

theorem sortedByKey_pairwise {α : Type} (key : α → Nat) (l : List α) :
    (sortedByKey key l).Pairwise fun a b => key a ≤ key b := by
  have : Std.Total fun a b : α => key a ≤ key b := ⟨fun a b => Nat.le_total _ _⟩
  have : IsTrans α fun a b => key a ≤ key b := ⟨fun _ _ _ => Nat.le_trans⟩
  exact pairwise_insertionSort _ l

/-- Elements of one key keep their order. -/
theorem filter_sortedByKey {α : Type} (key : α → Nat) (l : List α) (k : Nat) :
    (sortedByKey key l).filter (key · = k) = l.filter (key · = k) := by
  have : Std.Total fun a b : α => key a ≤ key b := ⟨fun a b => Nat.le_total _ _⟩
  have : IsTrans α fun a b => key a ≤ key b := ⟨fun _ _ _ => Nat.le_trans⟩
  have halike : (l.filter (key · = k)).Pairwise fun a b => key a ≤ key b := by
    rw [pairwise_filter]
    exact pairwise_of_forall fun a b => by simp only [decide_eq_true_eq]; omega
  have hsub := (sublist_insertionSort halike filter_sublist).filter (key · = k)
  rw [filter_filter, filter_congr fun a _ => Bool.and_self _] at hsub
  exact (hsub.eq_of_length ((sortedByKey_perm key l).filter _).length_eq.symm).symm

/-- What holds between elements and those after them is not changed by sorting if it does not depend
on the order of elements of different keys. -/
theorem pairwise_sortedByKey_iff {α : Type} {key : α → Nat} {l : List α} {R : α → α → Prop}
    (hsymm : ∀ a b, key a ≠ key b → R a b → R b a) :
    (sortedByKey key l).Pairwise R ↔ l.Pairwise R := by
  have hsplit : ∀ l : List α, l.Pairwise R ↔ l.Pairwise (fun a b => key a ≠ key b → R a b) ∧
      ∀ k, (l.filter (key · = k)).Pairwise R := by
    intro l
    simp only [pairwise_filter, decide_eq_true_eq]
    rw [pairwise_iff_forall_sublist, pairwise_iff_forall_sublist]
    constructor
    · exact fun h => ⟨fun hab _ => h hab, fun k => pairwise_of_forall_sublist fun hab _ _ => h hab⟩
    · rintro ⟨hne, heq⟩ a b hab
      by_cases hkey : key a = key b
      · exact (heq _).forall_sublist hab hkey rfl
      · exact hne hab hkey
  have hperm : (sortedByKey key l).Pairwise (fun a b => key a ≠ key b → R a b) ↔
      l.Pairwise fun a b => key a ≠ key b → R a b :=
    (sortedByKey_perm key l).pairwise_iff fun h hne => hsymm _ _ hne.symm (h hne.symm)
  rw [hsplit, hsplit l, hperm]
  simp only [filter_sortedByKey]

/-- `slice::sort_by`. -/
def sortedBy {α : Type} (cmp : α → α → Ordering) (l : List α) : List α :=
  l.insertionSort fun a b => (cmp a b).isLE = true

theorem sortedBy_perm {α : Type} (cmp : α → α → Ordering) (l : List α) :
    (sortedBy cmp l).Perm l :=
  perm_insertionSort _ l

@[simp] theorem mem_sortedBy {α : Type} {cmp : α → α → Ordering} {l : List α} {a : α} :
    a ∈ sortedBy cmp l ↔ a ∈ l :=
  (sortedBy_perm cmp l).mem_iff

theorem sortedBy_pairwise {α : Type} (cmp : α → α → Ordering) [Std.TransCmp cmp] (l : List α) :
    (sortedBy cmp l).Pairwise fun a b => (cmp a b).isLE = true := by
  have : Std.Total fun a b : α => (cmp a b).isLE = true := ⟨fun a b => by
    rcases h : cmp a b with _ | _ | _
    · exact .inl rfl
    · exact .inl rfl
    · have hswap : cmp b a = (cmp a b).swap := Std.OrientedCmp.eq_swap
      exact .inr (by rw [hswap, h]; rfl)⟩
  have : IsTrans α fun a b => (cmp a b).isLE = true := ⟨fun _ _ _ => Std.TransCmp.isLE_trans⟩
  exact pairwise_insertionSort _ l

/-- The loop of `Vec::dedup_by_key` after its first element: `kept` is the element kept last. -/
def dedupByKeyFrom {α κ : Type} [DecidableEq κ] (key : α → κ) (kept : α) : List α → List α
  | [] => []
  | a :: rest =>
    if key a = key kept then dedupByKeyFrom key kept rest else a :: dedupByKeyFrom key a rest

/-- `Vec::dedup_by_key`: an element is dropped when its key is that of the element kept last. -/
def dedupByKey {α κ : Type} [DecidableEq κ] (key : α → κ) : List α → List α
  | [] => []
  | a :: rest => a :: dedupByKeyFrom key a rest

/-- `Vec::dedup`. -/
def dedup {α : Type} [DecidableEq α] (l : List α) : List α := dedupByKey id l

section

variable {α κ : Type} [DecidableEq κ] {key : α → κ}

theorem dedupByKeyFrom_sublist : ∀ (kept : α) (l : List α),
    (dedupByKeyFrom key kept l).Sublist l
  | _, [] => Sublist.refl _
  | kept, a :: rest => by
    unfold dedupByKeyFrom
    split
    · exact (dedupByKeyFrom_sublist kept rest).trans (sublist_cons_self a rest)
    · exact (dedupByKeyFrom_sublist a rest).cons_cons a

theorem dedupByKey_sublist : ∀ l : List α, (dedupByKey key l).Sublist l
  | [] => Sublist.refl _
  | a :: rest => (dedupByKeyFrom_sublist a rest).cons_cons a

variable {a : α}

theorem exists_mem_dedupByKeyFrom : ∀ (kept : α) (l : List α), a ∈ l →
    ∃ b ∈ kept :: dedupByKeyFrom key kept l, key b = key a
  | kept, c :: rest, h => by
    unfold dedupByKeyFrom
    rcases mem_cons.mp h with rfl | h
    · split
      · rename_i hk; exact ⟨kept, by simp, hk.symm⟩
      · exact ⟨a, by simp, rfl⟩
    · split
      · exact exists_mem_dedupByKeyFrom kept rest h
      · obtain ⟨b, hb, hkey⟩ := exists_mem_dedupByKeyFrom c rest h
        exact ⟨b, mem_cons_of_mem _ hb, hkey⟩

/-- Each key that occurs still occurs. -/
theorem exists_mem_dedupByKey (key : α → κ) : ∀ {l : List α}, a ∈ l →
    ∃ b ∈ dedupByKey key l, key b = key a
  | c :: rest, h => by
    rcases mem_cons.mp h with rfl | h
    · exact ⟨a, by simp [dedupByKey], rfl⟩
    · exact exists_mem_dedupByKeyFrom c rest h

theorem dedupByKeyFrom_pairwise {key : α → Nat} : ∀ {kept : α} {l : List α},
    (kept :: l).Pairwise (fun a b => key a ≤ key b) →
      (kept :: dedupByKeyFrom key kept l).Pairwise fun a b => key a < key b
  | kept, [], _ => pairwise_singleton _ _
  | kept, a :: rest, h => by
    obtain ⟨hkept, hrest⟩ := pairwise_cons.mp h
    unfold dedupByKeyFrom
    split
    · rename_i heq
      refine dedupByKeyFrom_pairwise (pairwise_cons.mpr
        ⟨fun b hb => hkept b (mem_cons_of_mem _ hb), (pairwise_cons.mp hrest).2⟩)
    · rename_i hne
      have hlt : key kept < key a := Nat.lt_of_le_of_ne (hkept a (by simp)) (Ne.symm hne)
      have ih := dedupByKeyFrom_pairwise hrest
      refine pairwise_cons.mpr ⟨?_, ih⟩
      intro b hb
      rcases mem_cons.mp hb with rfl | hb
      · exact hlt
      · exact hlt.trans ((pairwise_cons.mp ih).1 b hb)

variable {l : List α}

/-- Sorted by the key, what is left is strictly sorted. -/
theorem dedupByKey_pairwise {key : α → Nat} (h : l.Pairwise fun a b => key a ≤ key b) :
    (dedupByKey key l).Pairwise fun a b => key a < key b := by
  cases l with
  | nil => exact List.Pairwise.nil
  | cons a rest => exact dedupByKeyFrom_pairwise h

theorem mem_of_mem_dedupByKey (h : a ∈ dedupByKey key l) : a ∈ l :=
  (dedupByKey_sublist l).subset h

end

@[simp] theorem mem_dedup {α : Type} [DecidableEq α] {l : List α} {a : α} :
    a ∈ dedup l ↔ a ∈ l := by
  constructor
  · exact mem_of_mem_dedupByKey
  · intro h
    obtain ⟨b, hb, rfl⟩ := exists_mem_dedupByKey id h
    exact hb

/-- The list after `sort` and `dedup`. -/
def sortDedup {α : Type} [Ord α] [DecidableEq α] (l : List α) : List α := dedup (sorted l)

@[simp] theorem mem_sortDedup {α : Type} [Ord α] [DecidableEq α] {l : List α} {a : α} :
    a ∈ sortDedup l ↔ a ∈ l := by
  simp [sortDedup]

theorem sortDedup_pairwise (l : List Nat) : (sortDedup l).Pairwise (· < ·) := by
  have : Std.Total fun a b : Nat => (compare a b).isLE = true := ⟨fun a b => by
    rw [Nat.isLE_compare, Nat.isLE_compare]
    exact Nat.le_total a b⟩
  have : IsTrans Nat fun a b => (compare a b).isLE = true := ⟨fun a b c hab hbc => by
    rw [Nat.isLE_compare] at hab hbc ⊢
    exact hab.trans hbc⟩
  have hcompare : (sorted l).Pairwise fun a b => (compare a b).isLE = true :=
    pairwise_insertionSort _ l
  have hsorted : (sorted l).Pairwise fun a b => id a ≤ id b :=
    hcompare.imp fun h => Nat.isLE_compare.mp h
  exact dedupByKey_pairwise hsorted

theorem sortDedup_eq_nil {α : Type} [Ord α] [DecidableEq α] {l : List α} :
    sortDedup l = [] ↔ l = [] := by
  simp only [eq_nil_iff_forall_not_mem, mem_sortDedup]

end Srs
