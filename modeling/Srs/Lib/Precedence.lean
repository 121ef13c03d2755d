/-
# Infix operators by levels

A recursive-descent parser reads infix operators level by level: each level reads operands with the
next tighter level and, between them, its own operators.  Two kinds of level occur.  A
left-associative level goes on as long as it finds an operator; a level that does not chain reads
at most one.

What a level does with a text is said by two properties of a text `t` and the value `a` it spells:

* `Reads`: on `t` and anything after it at which the reader stops, the value is `a` and nothing
  is left of `t`;
* `Continues`: a left-associative level comes to its loop with `a` on its left and the text
  after `t` in front of it.

A left operand of the same level only has to satisfy the second one, and this is what makes the
induction on a left-nested operand go through.  Nothing here knows the operators or the operands.
-/
import Mathlib.Data.UInt

namespace Srs.Precedence

variable {σ α : Type}

/-- A reader of a prefix: the value and what is left, or a failure. -/
abbrev Reader (σ α : Type) := List σ → Option (α × List σ)

section Levels

variable (skip : List σ → List σ) (operator : Reader σ (α → α → α)) (next : Reader σ α)

/-- `while let Some(op) = opt(operator)`, for at most so many turns. -/
def chainLoop : Nat → α → List σ → Option (α × List σ)
  | 0, _, _ => none
  | turns + 1, left, input =>
    match operator input with
    | none => some (left, input)
    | some (build, input) => do
      let (right, input) ← next (skip input)
      chainLoop turns (build left right) (skip input)

/-- A level whose operators chain to the left.  A turn consumes its operator, so the turns of the
loop are bounded by what is left to read. -/
def leftAssociative : Reader σ α := fun input => do
  let (left, input) ← next input
  chainLoop skip operator next (input.length + 1) left (skip input)

/-- A level that reads one operator at most. -/
def atMostOne : Reader σ α := fun input => do
  let (left, input) ← next input
  let input := skip input
  match operator input with
  | none => some (left, input)
  | some (build, input) => do
    let (right, input) ← next (skip input)
    some (build left right, skip input)

end Levels

/-! ## 1. What a text is read as -/

/-- What is skipped is skipped at once, and skipping never adds. -/
structure Skips (skip : List σ → List σ) : Prop where
  again : ∀ t, skip (skip t) = skip t
  le : ∀ t, (skip t).length ≤ t.length

/-- **A text that a reader takes for a value**, in inputs of less than `n` symbols and before
anything at which the reader stops. -/
def Reads (skip : List σ → List σ) (n : Nat) (reader : Reader σ α) (stop : List σ → Prop)
    (t : List σ) (a : α) : Prop :=
  ∀ rest, (t ++ rest).length < n → stop (skip rest) →
    ∃ r, reader (t ++ rest) = some (a, r) ∧ skip r = skip rest

/-- The same with nothing left to skip. -/
def Consumes (skip : List σ → List σ) (n : Nat) (reader : Reader σ α) (stop : List σ → Prop)
    (t : List σ) (a : α) : Prop :=
  ∀ rest, (t ++ rest).length < n → stop (skip rest) → reader (t ++ rest) = some (a, skip rest)

/-- **A text that brings a left-associative level to its loop** with a value on the left. -/
def Continues (skip : List σ → List σ) (n : Nat) (operator : Reader σ (α → α → α))
    (next : Reader σ α) (stop : List σ → Prop) (t : List σ) (a : α) : Prop :=
  ∀ rest, (t ++ rest).length < n → stop (skip rest) → ∃ turns, (skip rest).length < turns ∧
    leftAssociative skip operator next (t ++ rest) =
      chainLoop skip operator next turns a (skip rest)

/-- An infix operator and the blanks around it, in front of an operand: the operator is read, at
some cost, and the operand is what comes next. -/
def ReadsOperator (skip : List σ → List σ) (operator : Reader σ (α → α → α)) (m t : List σ)
    (build : α → α → α) : Prop :=
  ∀ rest, ∃ u, operator (skip (m ++ (t ++ rest))) = some (build, u) ∧ skip u = t ++ rest ∧
    u.length < (skip (m ++ (t ++ rest))).length

variable {skip : List σ → List σ} {operator : Reader σ (α → α → α)} {next : Reader σ α}
  {stop : List σ → Prop} {n : Nat} {t tl tr m : List σ} {a b : α} {build : α → α → α}

theorem Consumes.reads (hskip : Skips skip) {reader : Reader σ α}
    (h : Consumes skip n reader stop t a) : Reads skip n reader stop t a := by
  intro rest hlen hstop
  exact ⟨skip rest, h rest hlen hstop, hskip.again rest⟩

/-! ## 2. Levels that chain -/

/-- An operand of the next level is an operand of this one. -/
theorem Reads.continues (hskip : Skips skip) (h : Reads skip n next stop t a) :
    Continues skip n operator next stop t a := by
  intro rest hlen hstop
  obtain ⟨r, hr, hrest⟩ := h rest hlen hstop
  have hle : (skip r).length ≤ r.length := hskip.le r
  refine ⟨r.length + 1, ?_, ?_⟩
  · rw [← hrest]
    exact Nat.lt_succ_of_le hle
  · simp [leftAssociative, hr, hrest]

/-- **The loop goes on over an operator and its right operand.** -/
theorem Continues.binary (hskip : Skips skip) (hl : Continues skip n operator next stop tl a)
    (hr : Reads skip n next stop tr b) (hop : ReadsOperator skip operator m tr build)
    (hstop : ∀ rest, stop (skip (m ++ (tr ++ rest)))) :
    Continues skip n operator next stop (tl ++ (m ++ tr)) (build a b) := by
  intro rest hlen hrest
  have hassoc : tl ++ (m ++ tr) ++ rest = tl ++ (m ++ (tr ++ rest)) := by
    simp only [List.append_assoc]
  rw [hassoc] at hlen ⊢
  obtain ⟨turns, hturns, hloop⟩ := hl (m ++ (tr ++ rest)) hlen (hstop rest)
  obtain ⟨u, hu, hskipu, hless⟩ := hop rest
  obtain ⟨turns, rfl⟩ : ∃ k, turns = k + 1 := ⟨turns - 1, by omega⟩
  obtain ⟨r, hnext, hr'⟩ := hr rest (by simp only [List.length_append] at hlen ⊢; omega) hrest
  refine ⟨turns, ?_, ?_⟩
  · have h1 : (skip rest).length ≤ rest.length := hskip.le rest
    have h2 : (tr ++ rest).length ≤ u.length := hskipu ▸ hskip.le u
    simp only [List.length_append] at h2
    omega
  · simp [hloop, chainLoop, hu, hskipu, hnext, hr']

/-- Where no operator of the level follows, the level is done. -/
theorem Continues.consumes (h : Continues skip n operator next stop t a) :
    Consumes skip n (leftAssociative skip operator next)
      (fun r => stop r ∧ operator r = none) t a := by
  rintro rest hlen ⟨hstop, hnone⟩
  obtain ⟨turns, hturns, hloop⟩ := h rest hlen hstop
  obtain ⟨turns, rfl⟩ : ∃ k, turns = k + 1 := ⟨turns - 1, by omega⟩
  simp [hloop, chainLoop, hnone]

/-! ## 3. Levels that do not -/

theorem Reads.consumes_atMostOne (h : Reads skip n next stop t a) :
    Consumes skip n (atMostOne skip operator next)
      (fun r => stop r ∧ operator r = none) t a := by
  rintro rest hlen ⟨hstop, hnone⟩
  obtain ⟨r, hr, hrest⟩ := h rest hlen hstop
  simp [atMostOne, hr, hrest, hnone]

theorem Reads.binary_atMostOne (hl : Reads skip n next stop tl a)
    (hr : Reads skip n next stop tr b) (hop : ReadsOperator skip operator m tr build)
    (hstop : ∀ rest, stop (skip (m ++ (tr ++ rest)))) :
    Consumes skip n (atMostOne skip operator next) stop (tl ++ (m ++ tr)) (build a b) := by
  intro rest hlen hrest
  have hassoc : tl ++ (m ++ tr) ++ rest = tl ++ (m ++ (tr ++ rest)) := by
    simp only [List.append_assoc]
  rw [hassoc] at hlen ⊢
  obtain ⟨r, hleft, hskipr⟩ := hl (m ++ (tr ++ rest)) hlen (hstop rest)
  obtain ⟨u, hu, hskipu, -⟩ := hop rest
  obtain ⟨r', hright, hskipr'⟩ :=
    hr rest (by simp only [List.length_append] at hlen ⊢; omega) hrest
  simp [atMostOne, hleft, hskipr, hu, hskipu, hright, hskipr']

/-! ## 4. Blanks in front -/

variable {s s' : List σ}

/-- Every level passes on what its operands make of the front of the input. -/
theorem leftAssociative_congr (h : next s = next s') :
    leftAssociative skip operator next s = leftAssociative skip operator next s' := by
  simp only [leftAssociative, h]

theorem atMostOne_congr (h : next s = next s') :
    atMostOne skip operator next s = atMostOne skip operator next s' := by
  simp only [atMostOne, h]

end Srs.Precedence
