/-
# Records that lie one after the other

A buffer with records in it: each says how long it is, and the next one starts where it ends.
`walk` is the loop over them, which stops where the buffer has no room for another header and fails
at a record that does not end inside it.  The positions do not depend on what is done with the
records, so a loop is a fold over `records` (`walk_eq_ok_iff`), and two loops over the same buffer
are two folds over the same list.
-/
import Mathlib.Data.UInt

namespace Srs.Records

open List

/-- How the records lie in a buffer: what must be left for another one, and the size of the one at
a position. -/
structure Format where
  header : Nat
  sizeAt : Nat → Nat
  pos : ∀ o, 0 < sizeAt o

structure Record where
  start : Nat
  stop : Nat
  deriving DecidableEq

def Record.size (r : Record) : Nat := r.stop - r.start

variable {ε σ : Type} (f : Format) (len : Nat)

/-- Sequencing of two steps that may fail. -/
theorem bind_ok_iff {α β : Type} {x : Except ε α} {g : α → Except ε β} {b : β} :
    (x >>= g) = .ok b ↔ ∃ a, x = .ok a ∧ g a = .ok b := by
  cases x <;> simp [bind, Except.bind]

/-- The record at a position. -/
def Format.recordAt (o : Nat) : Record := ⟨o, o + f.sizeAt o⟩

@[simp] theorem Format.recordAt_start (o : Nat) : (f.recordAt o).start = o := rfl

@[simp] theorem Format.recordAt_stop (o : Nat) : (f.recordAt o).stop = o + f.sizeAt o := rfl

@[simp] theorem Format.recordAt_size (o : Nat) : (f.recordAt o).size = f.sizeAt o :=
  Nat.add_sub_cancel_left o _

/-- The loop over the records from a position on. -/
def walk (bad : ε) (body : Record → σ → Except ε σ) (o : Nat) (s : σ) : Except ε (Nat × σ) :=
  if o + f.header ≤ len then
    if _h : o + f.sizeAt o ≤ len then
      (body (f.recordAt o) s).bind fun s => walk bad body (o + f.sizeAt o) s
    else .error bad
  else .ok (o, s)
termination_by len - o
decreasing_by
  have := f.pos o
  omega

/-- The records from a position on, up to one that does not fit. -/
def records (o : Nat) : List Record :=
  if _h : o + f.header ≤ len ∧ o + f.sizeAt o ≤ len then
    f.recordAt o :: records (o + f.sizeAt o)
  else []
termination_by len - o
decreasing_by
  have := f.pos o
  omega

/-- Where the records from a position on end. -/
def endOf (o : Nat) : Nat :=
  if _h : o + f.header ≤ len ∧ o + f.sizeAt o ≤ len then endOf (o + f.sizeAt o) else o
termination_by len - o
decreasing_by
  have := f.pos o
  omega

variable {f len}

variable {o : Nat}

theorem records_of_fits (h : o + f.header ≤ len ∧ o + f.sizeAt o ≤ len) :
    records f len o = f.recordAt o :: records f len (o + f.sizeAt o) := by
  rw [records, dif_pos h]

theorem endOf_of_fits (h : o + f.header ≤ len ∧ o + f.sizeAt o ≤ len) :
    endOf f len o = endOf f len (o + f.sizeAt o) := by
  rw [endOf, dif_pos h]

/-- **The loop is a fold over the records**, and it comes to its end where no header is left. -/
theorem walk_eq_ok_iff (bad : ε) (body : Record → σ → Except ε σ) (o : Nat) (s : σ)
    (o' : Nat) (s' : σ) :
    walk f len bad body o s = .ok (o', s') ↔
      (records f len o).foldlM (fun s r => body r s) s = .ok s' ∧ o' = endOf f len o ∧
        len < o' + f.header := by
  fun_induction walk f len bad body o s with
  | case1 o s hheader hsize ih =>
    rw [records_of_fits ⟨hheader, hsize⟩, endOf_of_fits ⟨hheader, hsize⟩, foldlM_cons]
    cases hbody : body (f.recordAt o) s with
    | error e =>
      refine iff_of_false (fun h => ?_) (fun h => ?_)
      · exact absurd h (by simp [Except.bind])
      · exact absurd h.1 (by simp [bind, Except.bind])
    | ok t => exact ih t
  | case2 o s hheader hsize =>
    rw [records, dif_neg (fun h => hsize h.2), endOf, dif_neg (fun h => hsize h.2)]
    refine iff_of_false (fun h => by simp at h) (fun h => ?_)
    obtain ⟨-, rfl, hend⟩ := h
    omega
  | case3 o s hheader =>
    rw [records, dif_neg (fun h => hheader h.1), endOf, dif_neg (fun h => hheader h.1)]
    constructor
    · intro h
      cases h
      exact ⟨rfl, rfl, Nat.lt_of_not_le hheader⟩
    · rintro ⟨hfold, rfl, -⟩
      rw [Except.ok.inj hfold]

/-- **The rule for invariants**: what each record keeps from its start to its stop, the fold keeps
from the first to the end. -/
theorem foldlM_records {body : Record → σ → Except ε σ} {P : Nat → σ → Prop}
    (hstep : ∀ o s s', o + f.header ≤ len → o + f.sizeAt o ≤ len → P o s →
      body (f.recordAt o) s = .ok s' → P (o + f.sizeAt o) s') : ∀ {s s' : σ}, P o s → (records f len o).foldlM (fun s r => body r s) s = .ok s' →
      P (endOf f len o) s' := by
  fun_induction records f len o with
  | case1 o h ih =>
    intro s s' hP hfold
    rw [foldlM_cons] at hfold
    obtain ⟨t, hbody, hrest⟩ := bind_ok_iff.mp hfold
    rw [endOf_of_fits h]
    exact ih (hstep o s t h.1 h.2 hP hbody) hrest
  | case2 o h =>
    intro s s' hP hfold
    rw [endOf, dif_neg h, ← Except.ok.inj hfold]
    exact hP

/-- A record is one of a position at or after the start. -/
theorem eq_recordAt_of_mem {r : Record} (h : r ∈ records f len o) :
    r = f.recordAt r.start ∧ o ≤ r.start ∧ r.start + f.header ≤ len ∧ r.stop ≤ len := by
  fun_induction records f len o with
  | case1 o h' ih =>
    rcases mem_cons.mp h with rfl | hmem
    · exact ⟨rfl, Nat.le_refl o, h'.1, h'.2⟩
    · obtain ⟨heq, hle, hheader, hstop⟩ := ih hmem
      exact ⟨heq, Nat.le_trans (Nat.le_add_right o _) hle, hheader, hstop⟩
  | case2 o h' => exact absurd h not_mem_nil

/-! ## Two runs of one loop -/

section

variable {α τ : Type} (body : σ → α → Except ε σ) (body' : τ → α → Except ε τ)
  {B : σ → Prop} {R : σ → τ → Prop} {l : List α}

/-- What holds before a step if it holds after it, holds at the start of a run. -/
theorem foldlM_back (hback : ∀ s s' a, a ∈ l → body s a = .ok s' → B s' → B s) :
    ∀ {s s' : σ}, l.foldlM body s = .ok s' → B s' → B s := by
  induction l with
  | nil =>
    intro s s' h hbound
    obtain rfl : s = s' := Except.ok.inj h
    exact hbound
  | cons a l ih =>
    intro s s' h hbound
    rw [foldlM_cons] at h
    obtain ⟨next, hnext, hrest⟩ := bind_ok_iff.mp h
    refine hback s next a mem_cons_self hnext (ih (fun s s' b hb => ?_) hrest hbound)
    exact hback s s' b (mem_cons_of_mem _ hb)

/-- **A run follows another one**: where under a bound each step of the first run is one of the
second, and the first run ends under the bound, the second run ends in a related state. -/
theorem foldlM_sim (hback : ∀ s s' a, a ∈ l → body s a = .ok s' → B s' → B s)
    (hstep : ∀ s s' t a, a ∈ l → body s a = .ok s' → B s' → R s t →
      ∃ t', body' t a = .ok t' ∧ R s' t') :
    ∀ {s s' : σ} {t : τ}, l.foldlM body s = .ok s' → B s' → R s t →
      ∃ t', l.foldlM body' t = .ok t' ∧ R s' t' := by
  induction l with
  | nil =>
    intro s s' t h hbound hR
    obtain rfl : s = s' := Except.ok.inj h
    exact ⟨t, rfl, hR⟩
  | cons a l ih =>
    intro s s' t h hbound hR
    rw [foldlM_cons] at h
    obtain ⟨next, hnext, hrest⟩ := bind_ok_iff.mp h
    have hback' : ∀ s s' b, b ∈ l → body s b = .ok s' → B s' → B s :=
      fun s s' b hb => hback s s' b (mem_cons_of_mem _ hb)
    obtain ⟨t', ht', hR'⟩ := hstep s next t a mem_cons_self hnext
      (foldlM_back body hback' hrest hbound) hR
    obtain ⟨u, hu, hRu⟩ := ih hback'
      (fun s s' t b hb => hstep s s' t b (mem_cons_of_mem _ hb)) hrest hbound hR'
    refine ⟨u, ?_, hRu⟩
    rw [foldlM_cons, bind_ok_iff]
    exact ⟨t', ht', hu⟩

end

/-! ## Items that are sorted by position -/

section

variable {α : Type} (key : α → Nat)

variable {l : List α}

theorem dropWhile_of_sorted (h : l.Pairwise fun a b => key a ≤ key b) (k : Nat) :
    (l.dropWhile fun a => key a < k) = l.filter fun a => k ≤ key a := by
  induction l with
  | nil => rfl
  | cons a l ih =>
    obtain ⟨hle, hrest⟩ := pairwise_cons.mp h
    by_cases ha : key a < k
    · rw [dropWhile_cons_of_pos (by simpa using ha), ih hrest,
        filter_cons_of_neg (by simpa using ha)]
    · rw [dropWhile_cons_of_neg (by simpa using ha)]
      refine (filter_eq_self.mpr fun b hb => ?_).symm
      have hab : key a ≤ key b := by
        rcases mem_cons.mp hb with rfl | hmem
        · exact Nat.le_refl _
        · exact hle b hmem
      simp only [decide_eq_true_eq]
      omega

theorem takeWhile_of_sorted (h : l.Pairwise fun a b => key a ≤ key b) (k : Nat) :
    (l.takeWhile fun a => key a < k) = l.filter fun a => key a < k := by
  induction l with
  | nil => rfl
  | cons a l ih =>
    obtain ⟨hle, hrest⟩ := pairwise_cons.mp h
    by_cases ha : key a < k
    · rw [takeWhile_cons_of_pos (by simpa using ha), ih hrest,
        filter_cons_of_pos (by simpa using ha)]
    · rw [takeWhile_cons_of_neg (by simpa using ha)]
      refine (filter_eq_nil_iff.mpr fun b hb => ?_).symm
      have hab : key a ≤ key b := by
        rcases mem_cons.mp hb with rfl | hmem
        · exact Nat.le_refl _
        · exact hle b hmem
      simp only [decide_eq_true_eq]
      omega

end

end Srs.Records
