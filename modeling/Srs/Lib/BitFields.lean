/-
# Bit fields of a word

A field is a list of segments: runs of bits of a value that are kept at other places of a word.
`scatter` puts the bits of a value into a word, `gather` takes them out again.  Where the places
in the word are apart, a value that is scattered into a word with an empty field is gathered from
it unchanged (`gather_scatter`), as far as the segments cover it.
-/
import Mathlib.Data.Nat.Bitwise

namespace Srs.BitFields

open List Bool

/-! ## 1. Segments -/

/-- `len` bits, from `src` on in the value and from `dst` on in the word. -/
structure Segment where
  src : Nat
  dst : Nat
  len : Nat
  deriving DecidableEq

namespace Segment

/-- The same bits, the other way. -/
def swap (s : Segment) : Segment := ⟨s.dst, s.src, s.len⟩

/-- A bit of the word belongs to the segment. -/
def holds (s : Segment) (i : Nat) : Bool := s.dst ≤ i && i < s.dst + s.len

/-- The places of two segments in the word are apart. -/
def Apart (s t : Segment) : Prop := s.dst + s.len ≤ t.dst ∨ t.dst + t.len ≤ s.dst

instance (s t : Segment) : Decidable (s.Apart t) := inferInstanceAs (Decidable (_ ∨ _))

end Segment

/-- `len` bits of a value from a position on. -/
def bits (v start len : Nat) : Nat := (v >>> start) % 2 ^ len

theorem testBit_bits (v start len i : Nat) :
    (bits v start len).testBit i = (decide (i < len) && v.testBit (start + i)) := by
  rw [bits, Nat.testBit_mod_two_pow, Nat.testBit_shiftRight]

/-! ## 2. Scatter and gather -/

/-- The bits of a value at their places in a word. -/
def scatter (segs : List Segment) (v : Nat) : Nat :=
  segs.foldr (fun s acc => bits v s.src s.len <<< s.dst ||| acc) 0

/-- The bits of a word at their places in the value. -/
def gather (segs : List Segment) (w : Nat) : Nat := scatter (segs.map Segment.swap) w

/-- The bits of the word that the segments take. -/
def holds (segs : List Segment) (i : Nat) : Bool := segs.any (·.holds i)

/-- The bits of the value that the segments take. -/
def covers (segs : List Segment) (i : Nat) : Bool := holds (segs.map Segment.swap) i

theorem scatter_cons (s : Segment) (segs : List Segment) (v : Nat) :
    scatter (s :: segs) v = bits v s.src s.len <<< s.dst ||| scatter segs v := rfl

theorem testBit_scatter (segs : List Segment) (v i : Nat) :
    (scatter segs v).testBit i
      = segs.any fun s => s.holds i && v.testBit (i - s.dst + s.src) := by
  induction segs with
  | nil => simp [scatter]
  | cons s segs ih =>
    rw [scatter_cons, Nat.testBit_or, ih, any_cons, Nat.testBit_shiftLeft, testBit_bits,
      Nat.add_comm s.src]
    congr 1
    by_cases hd : s.dst ≤ i
    · have hlt : i - s.dst < s.len ↔ i < s.dst + s.len := by omega
      simp [Segment.holds, hd, hlt]
    · simp [Segment.holds, hd]

variable {segs : List Segment}

/-- Outside of the places there is nothing. -/
theorem testBit_scatter_of_not_holds {i : Nat} (h : holds segs i = false)
    (v : Nat) : (scatter segs v).testBit i = false := by
  rw [testBit_scatter, List.any_eq_false]
  intro s hs
  have := any_eq_false.mp h s hs
  simp only [not_eq_true] at this
  simp [this]

/-- **A bit at its place.** -/
theorem testBit_scatter_of_mem (hapart : segs.Pairwise Segment.Apart)
    {s : Segment} (hs : s ∈ segs) {i : Nat} (hi : s.holds i = true) (v : Nat) :
    (scatter segs v).testBit i = v.testBit (i - s.dst + s.src) := by
  rw [testBit_scatter]
  induction segs with
  | nil => exact absurd hs not_mem_nil
  | cons t segs ih =>
    obtain ⟨ht, hapart⟩ := pairwise_cons.mp hapart
    -- no other segment has a bit there
    have hother : ∀ {a b : Segment}, a.Apart b → a.holds i = true → b.holds i = false := by
      intro a b hab ha
      unfold Segment.Apart at hab
      simp only [Segment.holds, and_eq_true, decide_eq_true_eq] at ha
      simp only [Segment.holds, and_eq_false_iff, decide_eq_false_iff_not]
      omega
    rw [any_cons]
    rcases mem_cons.mp hs with rfl | hs
    · have hrest : (segs.any fun t => t.holds i && v.testBit (i - t.dst + t.src)) = false := by
        rw [List.any_eq_false]
        intro t htmem
        simp [hother (ht t htmem) hi]
      rw [hrest, hi, Bool.true_and, Bool.or_false]
    · have hfalse : t.holds i = false := hother (Or.symm (ht s hs)) hi
      rw [hfalse, Bool.false_and, Bool.false_or]
      exact ih hapart hs

/-- **What was scattered is gathered**, as far as the segments cover it. -/
theorem testBit_gather_scatter (hapart : segs.Pairwise Segment.Apart)
    {w : Nat} (hw : ∀ i, holds segs i = true → w.testBit i = false) (v i : Nat) :
    (gather segs (w ||| scatter segs v)).testBit i = (covers segs i && v.testBit i) := by
  rw [gather, testBit_scatter, List.any_map, covers, holds, List.any_map]
  have hbit : ∀ s ∈ segs, s.swap.holds i = true →
      (w ||| scatter segs v).testBit (i - s.swap.dst + s.swap.src) = v.testBit i := by
    intro s hs hi
    have hin : s.src ≤ i ∧ i < s.src + s.len := by
      rw [Segment.holds, and_eq_true] at hi
      exact ⟨of_decide_eq_true hi.1, of_decide_eq_true hi.2⟩
    change (w ||| scatter segs v).testBit (i - s.src + s.dst) = _
    have hplace : s.holds (i - s.src + s.dst) = true := by
      simp only [Segment.holds, and_eq_true, decide_eq_true_eq]
      omega
    have hback : i - s.src + s.dst - s.dst + s.src = i := by omega
    rw [Nat.testBit_or, hw _ (any_eq_true.mpr ⟨s, hs, hplace⟩), Bool.false_or,
      testBit_scatter_of_mem hapart hs hplace, hback]
  rw [Bool.eq_iff_iff, List.any_eq_true, Bool.and_eq_true, List.any_eq_true]
  constructor
  · rintro ⟨s, hs, hboth⟩
    simp only [Function.comp, and_eq_true] at hboth
    rw [hbit s hs hboth.1] at hboth
    exact ⟨⟨s, hs, hboth.1⟩, hboth.2⟩
  · rintro ⟨⟨s, hs, hi⟩, hv⟩
    refine ⟨s, hs, ?_⟩
    simp only [Function.comp, and_eq_true] at hi ⊢
    rw [hbit s hs hi]
    exact ⟨hi, hv⟩

/-- A value that the segments cover comes back as it was. -/
theorem gather_scatter (hapart : segs.Pairwise Segment.Apart)
    {w : Nat} (hw : ∀ i, holds segs i = true → w.testBit i = false) {v : Nat}
    (hv : ∀ i, v.testBit i = true → covers segs i = true) :
    gather segs (w ||| scatter segs v) = v := by
  refine Nat.eq_of_testBit_eq fun i => ?_
  rw [testBit_gather_scatter hapart hw]
  cases hi : v.testBit i with
  | false => exact and_false _
  | true => rw [hv i hi, Bool.and_true]

end Srs.BitFields
