/-
# One pass over assignments

Assignments `dst := change src`, run once and in order over a store.  An assignment reads what its
source has at that moment, which is not its last value when the source is assigned later.

`solves_iff` says when every assignment holds at the end all the same: each source that is assigned
later has at the start what it is assigned (`Ready`).  What it is assigned does not depend on the
order: it is `Value`, the changes along the chain of sources from where the chain ends.
-/
import Mathlib.Data.UInt

namespace Srs.OnePass

open List Option

/-! ## 1. Definitions -/

structure Assignment (ι α : Type) where
  dst : ι
  src : ι
  change : α → α

/-- A place may be absent; it stays so. -/
abbrev Store (ι α : Type) := ι → Option α

variable {ι α : Type} [DecidableEq ι]

def Assignment.run (a : Assignment ι α) (store : Store ι α) : Store ι α :=
  match store a.src, store a.dst with
  | some v, some _ => Function.update store a.dst (some (a.change v))
  | _, _ => store

def run (as : List (Assignment ι α)) (store : Store ι α) : Store ι α :=
  as.foldl (fun store a => a.run store) store

omit [DecidableEq ι] in
/-- Each place that is there has what its assignment says. -/
def Solves (as : List (Assignment ι α)) (store : Store ι α) : Prop :=
  ∀ a ∈ as, ∀ v, store a.dst = some v → ∃ w, store a.src = some w ∧ v = a.change w

/-- The value of a place by the chain of its sources. -/
inductive Value (as : List (Assignment ι α)) (start : Store ι α) : ι → α → Prop
  | given {x v} : x ∉ as.map (·.dst) → start x = some v → Value as start x v
  | assigned {a v} : a ∈ as → Value as start a.src v → Value as start a.dst (a.change v)

/-- The assignments that run after one. -/
def after (as : List (Assignment ι α)) (a : Assignment ι α) : List (Assignment ι α) :=
  (as.dropWhile fun b => decide (b.dst ≠ a.dst)).tail

/-- A source is there, and has its value already if it is assigned later. -/
def Ready (as : List (Assignment ι α)) (start : Store ι α) : Prop :=
  ∀ a ∈ as, (start a.dst).isSome → (start a.src).isSome ∧
    (a.src ∈ (after as a).map (·.dst) → ∀ v, Value as start a.src v → start a.src = some v)

/-! ## 2. One assignment -/

/-- An assignment runs when both places are there. -/
theorem Assignment.run_cases (a : Assignment ι α) (store : Store ι α) :
    a.run store = store ∨ ∃ v w, store a.src = some w ∧ store a.dst = some v ∧
      a.run store = Function.update store a.dst (some (a.change w)) := by
  unfold Assignment.run
  split
  · rename_i w v hsrc hdst
    exact .inr ⟨v, w, hsrc, hdst, rfl⟩
  · exact .inl rfl

variable {x : ι}

theorem Assignment.run_of_ne (a : Assignment ι α) (h : x ≠ a.dst) (store : Store ι α) :
    a.run store x = store x := by
  obtain hsame | ⟨v, w, -, -, hrun⟩ := a.run_cases store
  · rw [hsame]
  · rw [hrun, Function.update_of_ne h]

theorem Assignment.run_dst {a : Assignment ι α} {store : Store ι α} {v w : α}
    (hsrc : store a.src = some w) (hdst : store a.dst = some v) :
    a.run store a.dst = some (a.change w) := by
  rw [Assignment.run, hsrc, hdst]
  exact Function.update_self _ _ _

theorem Assignment.isSome_run (a : Assignment ι α) (store : Store ι α) (x : ι) :
    (a.run store x).isSome = (store x).isSome := by
  obtain hsame | ⟨v, w, -, hdst, hrun⟩ := a.run_cases store
  · rw [hsame]
  · rw [hrun]
    by_cases hx : x = a.dst
    · rw [hx, Function.update_self, hdst]
      rfl
    · rw [Function.update_of_ne hx]

/-! ## 3. All of them -/

theorem run_append (as bs : List (Assignment ι α)) (store : Store ι α) :
    run (as ++ bs) store = run bs (run as store) :=
  foldl_append

theorem isSome_run (as : List (Assignment ι α)) : ∀ (store : Store ι α) (x : ι),
    (run as store x).isSome = (store x).isSome := by
  induction as with
  | nil => exact fun _ _ => rfl
  | cons a as ih => exact fun store x => (ih (a.run store) x).trans (a.isSome_run store x)

/-- A place without an assignment keeps what it has. -/
theorem run_of_not_mem {as : List (Assignment ι α)} : x ∉ as.map (·.dst) →
    ∀ store : Store ι α, run as store x = store x := by
  induction as with
  | nil => exact fun _ _ => rfl
  | cons a as ih =>
    intro h store
    rw [map_cons, mem_cons, not_or] at h
    exact (ih h.2 (a.run store)).trans (a.run_of_ne h.1 store)

section

variable {as before later : List (Assignment ι α)} {a : Assignment ι α} {start : Store ι α}
  (hsplit : as = before ++ a :: later) (hnodup : (as.map (·.dst)).Nodup)
include hsplit

/-- A source that is not assigned later is read as it is at the end. -/
theorem run_before_of_not_later {x : ι} (hx : x ∉ later.map (·.dst)) (hne : x ≠ a.dst) :
    run before start x = run as start x := by
  rw [hsplit, run_append]
  exact ((run_of_not_mem hx _).trans (a.run_of_ne hne _)).symm

include hnodup

omit [DecidableEq ι] in
theorem not_mem_of_split : a.dst ∉ before.map (·.dst) ∧ a.dst ∉ later.map (·.dst) := by
  rw [hsplit, map_append, map_cons, nodup_append', nodup_cons] at hnodup
  obtain ⟨-, ⟨hlater, -⟩, hdisjoint⟩ := hnodup
  exact ⟨fun h => hdisjoint h mem_cons_self, hlater⟩

theorem after_eq : after as a = later := by
  obtain ⟨hbefore, -⟩ := not_mem_of_split hsplit hnodup
  have hskip : ∀ b ∈ before, decide (b.dst ≠ a.dst) = true := by
    intro b hb
    rw [decide_eq_true_iff]
    exact fun h => hbefore (h ▸ List.mem_map_of_mem hb)
  rw [after, hsplit, dropWhile_append_of_pos hskip,
    dropWhile_cons_of_neg (by simp), tail_cons]

/-- **What an assignment leaves**: the change of what its source has when it runs. -/
theorem run_dst {v w : α} (hdst : start a.dst = some v) (hsrc : run before start a.src = some w) :
    run as start a.dst = some (a.change w) := by
  obtain ⟨hbefore, hlater⟩ := not_mem_of_split hsplit hnodup
  have hkept : run before start a.dst = some v := (run_of_not_mem hbefore start).trans hdst
  rw [hsplit, run_append]
  exact (run_of_not_mem hlater _).trans (Assignment.run_dst hsrc hkept)

/-- A source that is assigned later is read as it was at the start. -/
theorem run_before_of_later {x : ι} (hx : x ∈ later.map (·.dst)) :
    run before start x = start x := by
  refine run_of_not_mem (fun hbefore => ?_) start
  rw [hsplit, map_append, map_cons, nodup_append'] at hnodup
  exact hnodup.2.2 hbefore (mem_cons_of_mem _ hx)

end

/-! ## 4. Values -/

omit [DecidableEq ι] in
/-- An assignment is the only one of its place. -/
theorem eq_of_dst {as : List (Assignment ι α)} (hnodup : (as.map (·.dst)).Nodup)
    {a b : Assignment ι α} (ha : a ∈ as) (hb : b ∈ as) (h : a.dst = b.dst) : a = b :=
  inj_on_of_nodup_map hnodup ha hb h

omit [DecidableEq ι] in
/-- A place that has a value is not its own source. -/
theorem Value.src_ne {as : List (Assignment ι α)} {start : Store ι α}
    (hnodup : (as.map (·.dst)).Nodup) {v : α} (h : Value as start x v) :
    ∀ a ∈ as, a.dst = x → a.src ≠ x := by
  induction h with
  | given hx _ => exact fun a ha hdst => absurd (hdst ▸ List.mem_map_of_mem ha) hx
  | @assigned b v hb _ ih =>
    intro a ha hdst hself
    obtain rfl := eq_of_dst hnodup ha hb hdst
    exact ih a ha hself.symm rfl

section

variable {as : List (Assignment ι α)} {start : Store ι α}

/-- Where every assignment holds, every place has its value. -/
theorem eq_of_solves (hsolves : Solves as (run as start)) {x : ι} {v : α}
    (h : Value as start x v) : ∀ w, run as start x = some w → w = v := by
  induction h with
  | given hx hv =>
    intro w hw
    rw [run_of_not_mem hx, hv] at hw
    exact (some.inj hw).symm
  | @assigned a v ha _ ih =>
    intro w hw
    obtain ⟨u, hu, rfl⟩ := hsolves a ha w hw
    rw [ih u hu]

variable (hnodup : (as.map (·.dst)).Nodup)
include hnodup

/-- Where the assignments are ready, every place has its value. -/
theorem eq_of_ready (hready : Ready as start) {x : ι} {v : α} (h : Value as start x v) :
    ∀ w, run as start x = some w → w = v := by
  induction h with
  | given hx hv =>
    intro w hw
    rw [run_of_not_mem hx, hv] at hw
    exact (some.inj hw).symm
  | @assigned a v ha hvalue ih =>
    intro w hw
    have hdst : (start a.dst).isSome := by rw [← isSome_run as, hw]; rfl
    obtain ⟨u, hu⟩ := isSome_iff_exists.mp hdst
    obtain ⟨hsome, hlater⟩ := hready a ha hdst
    obtain ⟨before, later, hsplit⟩ := append_of_mem ha
    rw [after_eq hsplit hnodup] at hlater
    by_cases hmem : a.src ∈ later.map (·.dst)
    · have hread : run before start a.src = some v :=
        (run_before_of_later hsplit hnodup hmem).trans (hlater hmem v hvalue)
      rw [run_dst hsplit hnodup hu hread] at hw
      exact (some.inj hw).symm
    · have hne : a.src ≠ a.dst := (hvalue.assigned ha).src_ne hnodup a ha rfl
      rw [← isSome_run as] at hsome
      obtain ⟨r, hr⟩ := isSome_iff_exists.mp hsome
      have hread : run before start a.src = some r :=
        (run_before_of_not_later hsplit hmem hne).trans hr
      rw [run_dst hsplit hnodup hu hread] at hw
      rw [← ih r hr]
      exact (some.inj hw).symm

/-- **One pass solves the assignments iff each source is there, and one that is assigned later has
its value from the start.** -/
theorem solves_iff (hinj : ∀ a ∈ as, Function.Injective a.change)
    (hvalues : ∀ a ∈ as, ∃ v, Value as start a.src v) :
    Solves as (run as start) ↔ Ready as start := by
  constructor
  · intro hsolves a ha hdst
    obtain ⟨u, hu⟩ := isSome_iff_exists.mp hdst
    obtain ⟨w, hw⟩ : ∃ w, run as start a.dst = some w := by
      rw [← isSome_iff_exists, isSome_run, hdst]
    obtain ⟨r, hr, hwr⟩ := hsolves a ha w hw
    refine ⟨by rw [← isSome_run as, hr]; rfl, fun hlater v hv => ?_⟩
    obtain ⟨before, later, hsplit⟩ := append_of_mem ha
    rw [after_eq hsplit hnodup] at hlater
    have hread := @run_before_of_later _ _ _ _ _ _ _ start hsplit hnodup _ hlater
    obtain ⟨s, hs⟩ : ∃ s, start a.src = some s := by
      rw [← isSome_iff_exists, ← isSome_run as, hr]
      rfl
    -- the source is read as it was at the start, and the assignment holds: it never changed
    rw [run_dst hsplit hnodup hu (hread.trans hs)] at hw
    have hsame : s = r := hinj a ha ((some.inj hw).trans hwr)
    rw [hs, hsame, eq_of_solves hsolves hv r hr]
  · intro hready a ha w hw
    have hdst : (start a.dst).isSome := by rw [← isSome_run as, hw]; rfl
    obtain ⟨v, hv⟩ := hvalues a ha
    obtain ⟨r, hr⟩ : ∃ r, run as start a.src = some r := by
      rw [← isSome_iff_exists, isSome_run]
      exact (hready a ha hdst).1
    refine ⟨r, hr, ?_⟩
    rw [eq_of_ready hnodup hready (hv.assigned ha) w hw, eq_of_ready hnodup hready hv r hr]

end

end Srs.OnePass
