/-
# Laying things out with a cursor

Items are placed one after another; a cursor is moved up to where an item may start, the item is
placed there and the cursor goes to its end.  `Stacked` is what such a run leaves: the items lie in
order, each at or behind the end of the one before.  A second cursor that is moved in step keeps
its remainder (`roundUp_modEq`).
-/
import Srs.Alignment

namespace Srs.Cursors

/-! ## 1. Rounding -/

/-- Whole steps pass through rounding. -/
theorem roundUp_add_of_dvd {e m : Nat} (x : Nat) (h : 2 ^ e ∣ m) :
    roundUp e (x + m) = roundUp e x + m := by
  obtain ⟨k, rfl⟩ := h
  have hpos : 0 < 2 ^ e := Nat.two_pow_pos e
  have hsplit : x + 2 ^ e * k + (2 ^ e - 1) = x + (2 ^ e - 1) + 2 ^ e * k := by omega
  rw [roundUp, roundUp, hsplit, Nat.add_mul_div_left _ _ hpos, Nat.add_mul, Nat.mul_comm k]

/-- **Rounding keeps two cursors in step**, if they were in step by more than is rounded to. -/
theorem roundUp_modEq {e E x y : Nat} (he : e ≤ E) (h : x ≡ y [MOD 2 ^ E]) :
    roundUp e x ≡ roundUp e y [MOD 2 ^ E] := by
  have hup : ∀ {a b : Nat}, a ≤ b → a ≡ b [MOD 2 ^ E] →
      roundUp e a ≡ roundUp e b [MOD 2 ^ E] := by
    intro a b hle hab
    have hdvd : 2 ^ E ∣ b - a := (Nat.modEq_iff_dvd' hle).mp hab
    have hstep : roundUp e b = roundUp e a + (b - a) := by
      rw [← roundUp_add_of_dvd a ((Nat.pow_dvd_pow 2 he).trans hdvd), Nat.add_sub_cancel' hle]
    rw [hstep]
    exact (Nat.modEq_iff_dvd' (Nat.le_add_right _ _)).mpr (by rwa [Nat.add_sub_cancel_left])
  rcases Nat.le_total x y with hle | hle
  · exact hup hle h
  · exact (hup hle h.symm).symm

/-! ## 2. Stacks -/

variable {α : Type} (start stop : α → Nat)

/-- The items lie in order between two positions. -/
def Stacked : Nat → List α → Nat → Prop
  | low, [], high => low ≤ high
  | low, a :: as, high => low ≤ start a ∧ start a ≤ stop a ∧ Stacked (stop a) as high

variable {start stop}

theorem Stacked.append {as bs : List α} : ∀ {low mid high : Nat}, Stacked start stop low as mid →
    Stacked start stop mid bs high → Stacked start stop low (as ++ bs) high := by
  induction as with
  | nil =>
    intro low mid high ha hb
    cases bs with
    | nil => exact Nat.le_trans ha hb
    | cons b bs => exact ⟨Nat.le_trans ha hb.1, hb.2⟩
  | cons a as ih => exact fun ha hb => ⟨ha.1, ha.2.1, ih ha.2.2 hb⟩

variable {as : List α}

theorem Stacked.le_start : ∀ {low high : Nat}, Stacked start stop low as high →
    ∀ a ∈ as, low ≤ start a := by
  induction as with
  | nil => exact fun _ a ha => absurd ha List.not_mem_nil
  | cons b as ih =>
    intro low high h a ha
    rcases List.mem_cons.mp ha with rfl | ha
    · exact h.1
    · exact h.1.trans (h.2.1.trans (ih h.2.2 a ha))

/-- **No item starts before an earlier one has ended.** -/
theorem Stacked.pairwise : ∀ {low high : Nat}, Stacked start stop low as high →
    as.Pairwise fun a b => stop a ≤ start b := by
  induction as with
  | nil => exact fun _ => List.Pairwise.nil
  | cons a as ih => exact fun h => List.Pairwise.cons h.2.2.le_start (ih h.2.2)

end Srs.Cursors
