/-
# Sweeps over part of the items

A loop passes over all items of a state until a pass costs nothing.  A thinned loop passes over some
of them only, and over ever fewer.  An item that is left out once is never done again, so the two
loops end in the same state if and only if no item had anything to do when it was left out
(`Thinned.eq_iff`).
-/
import Mathlib.Data.UInt

namespace Srs.Sweeps

open List

/-- Passes over the items `ι` of a state `σ`. -/
structure Sweep (σ ι : Type) where
  /-- the items of a state -/
  all : σ → ι → Bool
  /-- the state after a pass over some items -/
  pass : (ι → Bool) → σ → σ
  cost : (ι → Bool) → σ → Nat
  /-- what happens between two passes -/
  between : σ → σ
  /-- how much was done to an item -/
  done : σ → ι → Nat
  /-- a pass over the item does nothing to it -/
  Quiet : σ → ι → Prop
  all_pass : ∀ S s, all (pass S s) = all s
  all_between : ∀ s, all (between s) = all s
  pass_congr : ∀ {S T s}, (∀ i, ¬ Quiet s i → S i = T i) →
    pass S s = pass T s ∧ cost S s = cost T s
  pass_none : ∀ s, pass (fun _ => false) s = s ∧ cost (fun _ => false) s = 0
  done_between : ∀ s i, done (between s) i = done s i
  done_skip : ∀ {S s i}, S i = false → done (pass S s) i = done s i
  done_le : ∀ S s i, done s i ≤ done (pass S s) i
  done_lt : ∀ {S s i}, S i = true → ¬ Quiet s i → done s i < done (pass S s) i

variable {σ ι : Type} (W : Sweep σ ι)

namespace Sweep

/-- The loop over all items, from a state to the one it ends with. -/
inductive Exhausts : σ → σ → Prop where
  | last {s : σ} : W.cost (W.all s) s = 0 → Exhausts s (W.pass (W.all s) s)
  | more {s t : σ} : W.cost (W.all s) s ≠ 0 → Exhausts (W.between (W.pass (W.all s) s)) t →
      Exhausts s t

/-- A loop over ever fewer items, with its passes: it ends when a pass costs nothing, or when no
item is left. -/
inductive Thinned : (ι → Bool) → σ → List (σ × (ι → Bool)) → σ → Prop where
  | idle {S : ι → Bool} {s : σ} : (∀ i, S i = false) → Thinned S s [(s, S)] s
  | last {S : ι → Bool} {s : σ} : W.cost S s = 0 → Thinned S s [(s, S)] (W.pass S s)
  | more {S S' : ι → Bool} {s f : σ} {visits : List (σ × (ι → Bool))} : W.cost S s ≠ 0 →
      (∀ i, S' i = true → S i = true) → Thinned S' (W.between (W.pass S s)) visits f →
      Thinned S s ((s, S) :: visits) f

/-- No item is left out that has something to do. -/
def LeavesQuiet (visits : List (σ × (ι → Bool))) : Prop :=
  ∀ v ∈ visits, ∀ i, W.all v.1 i = true → v.2 i = false → W.Quiet v.1 i

variable {W}

variable {s t : σ} {S : ι → Bool} {f : σ} {visits : List (σ × (ι → Bool))}

theorem Exhausts.pass_le (h : W.Exhausts s t) (i : ι) :
    W.done (W.pass (W.all s) s) i ≤ W.done t i := by
  induction h with
  | last hcost => exact Nat.le_refl _
  | @more s t hcost hrest ih =>
    refine Nat.le_trans (Nat.le_trans (Nat.le_of_eq ?_) (W.done_le _ _ i)) ih
    exact (W.done_between _ i).symm

/-- What is left out once is never done. -/
theorem Thinned.done_eq
    (h : W.Thinned S s visits f) {i : ι} (hi : S i = false) : W.done f i = W.done s i := by
  induction h with
  | idle => rfl
  | last hcost => exact W.done_skip hi
  | @more S S' s f visits hcost hsub hrest ih =>
    have hnot : S' i = false := by
      cases hS' : S' i with
      | false => rfl
      | true => rw [hsub i hS'] at hi; cases hi
    rw [ih hnot, W.done_between, W.done_skip hi]

/-- The passes are those over all items, as long as what they leave out is quiet. -/
theorem pass_all (hS : ∀ i, S i = true → W.all s i = true)
    (hquiet : ∀ i, W.all s i = true → S i = false → W.Quiet s i) :
    W.pass (W.all s) s = W.pass S s ∧ W.cost (W.all s) s = W.cost S s := by
  refine W.pass_congr fun i hi => ?_
  cases hSi : S i with
  | true => exact hS i hSi
  | false =>
    cases hall : W.all s i with
    | false => rfl
    | true => exact absurd (hquiet i hall hSi) hi

theorem Exhausts.eq_last (h : W.Exhausts s t) (hcost : W.cost (W.all s) s = 0) :
    t = W.pass (W.all s) s := by
  cases h with
  | last => rfl
  | more hne => exact absurd hcost hne

theorem Exhausts.rest (h : W.Exhausts s t) (hcost : W.cost (W.all s) s ≠ 0) :
    W.Exhausts (W.between (W.pass (W.all s) s)) t := by
  cases h with
  | last hzero => exact absurd hzero hcost
  | more _ hrest => exact hrest

section

variable (h : W.Thinned S s visits f) (hS : ∀ i, S i = true → W.all s i = true)
  (ht : W.Exhausts s t)
include h hS ht

theorem Thinned.eq_of_leavesQuiet
    (hquiet : W.LeavesQuiet visits) : f = t := by
  induction h with
  | @idle S s hnone =>
    obtain rfl : S = fun _ => false := funext hnone
    obtain ⟨hpass, hcost⟩ := pass_all hS (hquiet (s, _) mem_cons_self)
    rw [ht.eq_last (by rw [hcost, (W.pass_none s).2]), hpass, (W.pass_none s).1]
  | @last S s hzero =>
    obtain ⟨hpass, hcost⟩ := pass_all hS (hquiet (s, S) mem_cons_self)
    rw [ht.eq_last (by rw [hcost, hzero]), hpass]
  | @more S S' s f visits hne hsub hrest ih =>
    obtain ⟨hpass, hcost⟩ := pass_all hS (hquiet (s, S) mem_cons_self)
    have hafter := ht.rest (by rw [hcost]; exact hne)
    rw [hpass] at hafter
    refine ih ?_ hafter fun v hv => hquiet v (mem_cons_of_mem _ hv)
    intro i hi
    rw [W.all_between, W.all_pass]
    exact hS i (hsub i hi)

theorem Thinned.leavesQuiet_of_done
    (hdone : ∀ i, W.done f i = W.done t i) : W.LeavesQuiet visits := by
  -- what is not quiet and left out is done by the full loop only
  have hfirst : ∀ {S : ι → Bool} {s f t : σ} {visits : List (σ × (ι → Bool))},
      W.Thinned S s visits f → W.Exhausts s t → (∀ i, W.done f i = W.done t i) →
      ∀ i, W.all s i = true → S i = false → W.Quiet s i := by
    intro S s f t visits h ht hdone i hall hi
    by_contra hquiet
    have hlt := W.done_lt hall hquiet
    have hle := ht.pass_le i
    rw [← hdone i, h.done_eq hi] at hle
    omega
  induction h with
  | @idle S s hnone =>
    intro v hv
    obtain rfl := mem_singleton.mp hv
    exact hfirst (.idle hnone) ht hdone
  | @last S s hzero =>
    intro v hv
    obtain rfl := mem_singleton.mp hv
    exact hfirst (.last hzero) ht hdone
  | @more S S' s f visits hne hsub hrest ih =>
    have hquiet := hfirst (.more hne hsub hrest) ht hdone
    obtain ⟨hpass, hcost⟩ := pass_all hS hquiet
    have hafter := ht.rest (by rw [hcost]; exact hne)
    rw [hpass] at hafter
    intro v hv
    rcases mem_cons.mp hv with rfl | hv
    · exact hquiet
    · refine ih ?_ hafter hdone v hv
      intro i hi
      rw [W.all_between, W.all_pass]
      exact hS i (hsub i hi)

end

/-- A loop whose passes make something smaller comes to an end. -/
theorem exists_exhausts {size : σ → Nat}
    (hsize : ∀ s, W.cost (W.all s) s ≠ 0 → size (W.between (W.pass (W.all s) s)) < size s) (s : σ) :
    ∃ t, W.Exhausts s t := by
  induction hn : size s using Nat.strongRecOn generalizing s with
  | ind n ih =>
    by_cases hcost : W.cost (W.all s) s = 0
    · exact ⟨_, .last hcost⟩
    · obtain ⟨t, ht⟩ := ih _ (hn ▸ hsize s hcost) _ rfl
      exact ⟨t, .more hcost ht⟩

end Sweep

end Srs.Sweeps
