/-
# Buffers written in place

A buffer is a list whose length never changes.  `slice` reads a range of it and fails where the
range does not lie inside; `splice` puts a piece over as many elements as the piece has.

Two buffers often differ at known places only (`AgreeExcept`).  A piece of the one that is copied
into the other mends the places that it covers (`AgreeExcept.copy`), so a buffer is brought up to
date by copying pieces until no place is left.
-/
import Mathlib.Data.UInt

namespace Srs.Buffers

open List

variable {α : Type}

/-! ## 1. Reading and writing -/

/-- `buffer.get(start..stop)`. -/
def slice (buffer : List α) (start stop : Nat) : Option (List α) :=
  if start ≤ stop ∧ stop ≤ buffer.length then some ((buffer.drop start).take (stop - start))
  else none

/-- The buffer after `piece` was copied to `offset`. -/
def splice (buffer : List α) (offset : Nat) (piece : List α) : List α :=
  buffer.take offset ++ piece ++ buffer.drop (offset + piece.length)

variable {buffer : List α} {start stop : Nat} {piece : List α} {offset : Nat}

theorem slice_of_le (hle : start ≤ stop) (hstop : stop ≤ buffer.length) :
    slice buffer start stop = some ((buffer.drop start).take (stop - start)) :=
  if_pos ⟨hle, hstop⟩

theorem slice_eq_some :
    slice buffer start stop = some piece ↔
      start ≤ stop ∧ stop ≤ buffer.length ∧ piece = (buffer.drop start).take (stop - start) := by
  unfold slice
  split
  · rename_i h
    simp [h.1, h.2, eq_comm]
  · rename_i h
    constructor
    · exact fun hn => absurd hn (by simp)
    · exact fun hs => absurd ⟨hs.1, hs.2.1⟩ h

theorem length_slice (h : slice buffer start stop = some piece) : piece.length = stop - start := by
  obtain ⟨hle, hstop, rfl⟩ := slice_eq_some.mp h
  rw [length_take, length_drop]
  omega

theorem getElem?_take_drop {count i : Nat} (hi : i < count) :
    ((buffer.drop start).take count)[i]? = buffer[start + i]? := by
  rw [getElem?_take_of_lt hi, getElem?_drop]

theorem length_splice {buffer piece : List α} {offset : Nat}
    (h : offset + piece.length ≤ buffer.length) :
    (splice buffer offset piece).length = buffer.length := by
  simp only [splice, length_append, length_take, length_drop]
  omega

theorem getElem?_splice {buffer piece : List α} {offset : Nat}
    (h : offset + piece.length ≤ buffer.length) (i : Nat) :
    (splice buffer offset piece)[i]? =
      if offset ≤ i ∧ i < offset + piece.length then piece[i - offset]? else buffer[i]? := by
  have htake : (buffer.take offset).length = offset := by
    rw [length_take]
    omega
  rcases Nat.lt_or_ge i offset with hlt | hge
  · rw [if_neg (by omega), splice, List.append_assoc, getElem?_append_left (by omega),
      getElem?_take_of_lt hlt]
  · rcases Nat.lt_or_ge i (offset + piece.length) with hin | hout
    · rw [if_pos ⟨hge, hin⟩, splice, List.append_assoc, getElem?_append_right (by omega),
        htake, getElem?_append_left (by omega)]
    · rw [if_neg (by omega), splice, getElem?_append_right
        (by rw [length_append, htake]; omega), length_append, htake, getElem?_drop]
      congr 1
      omega

theorem take_splice_of_le {count : Nat} (hle : count ≤ offset)
    (h : offset ≤ buffer.length) : (splice buffer offset piece).take count = buffer.take count := by
  rw [splice, List.append_assoc, take_append_of_le_length (by rw [length_take]; omega),
    take_take, Nat.min_eq_left hle]

theorem drop_splice (h : offset ≤ buffer.length) :
    (splice buffer offset piece).drop offset = piece ++ buffer.drop (offset + piece.length) := by
  rw [splice, List.append_assoc, drop_append_of_le_length (by rw [length_take]; omega),
    drop_take, Nat.sub_self, take_zero, nil_append]

/-- Buffers that are the same in a range have the same piece there. -/
theorem slice_congr {a b : List α} (hlen : a.length = b.length)
    (h : ∀ i, start ≤ i → i < stop → a[i]? = b[i]?) : slice a start stop = slice b start stop := by
  unfold slice
  rw [hlen]
  split
  · rename_i hle
    refine congrArg some (ext_getElem? fun i => ?_)
    rcases Nat.lt_or_ge i (stop - start) with hi | hi
    · rw [getElem?_take_drop hi, getElem?_take_drop hi]
      exact h _ (Nat.le_add_right _ _) (by omega)
    · rw [getElem?_take_eq_none hi, getElem?_take_eq_none hi]
  · rfl

/-- What is put beside a range leaves it as it is, -/
theorem slice_splice_of_apart (hfit : offset + piece.length ≤ buffer.length)
    (hapart : offset + piece.length ≤ start ∨ stop ≤ offset) :
    slice (splice buffer offset piece) start stop = slice buffer start stop := by
  refine slice_congr (length_splice hfit) fun i hstart hstop => ?_
  rw [getElem?_splice hfit, if_neg (by omega)]

/-- and what is put there is read back. -/
theorem slice_splice_self (hfit : offset + piece.length ≤ buffer.length) :
    slice (splice buffer offset piece) offset (offset + piece.length) = some piece := by
  rw [slice_of_le (Nat.le_add_right _ _) (by rw [length_splice hfit]; exact hfit),
    drop_splice (by omega), Nat.add_sub_cancel_left, take_left]

/-! ## 2. Buffers that differ at known places -/

/-- Buffers of one length that differ at most where `differs` says so. -/
structure AgreeExcept (differs : Nat → Prop) (a b : List α) : Prop where
  length_eq : a.length = b.length
  agree : ∀ i, ¬ differs i → a[i]? = b[i]?

namespace AgreeExcept

variable {differs differs' : Nat → Prop} {a b c : List α}

theorem refl (a : List α) : AgreeExcept differs a a := ⟨rfl, fun _ _ => rfl⟩

theorem mono (h : AgreeExcept differs a b) (himp : ∀ i, differs i → differs' i) :
    AgreeExcept differs' a b :=
  ⟨h.length_eq, fun i hi => h.agree i fun hd => hi (himp i hd)⟩

theorem trans (hab : AgreeExcept differs a b) (hbc : AgreeExcept differs b c) :
    AgreeExcept differs a c :=
  ⟨hab.length_eq.trans hbc.length_eq, fun i hi => (hab.agree i hi).trans (hbc.agree i hi)⟩

section

variable (h : AgreeExcept differs a b)
include h

theorem eq (hnone : ∀ i, ¬ differs i) : a = b :=
  ext_getElem? fun i => h.agree i (hnone i)

/-- A piece is the same where none of its places differs. -/
theorem take_drop {start count : Nat}
    (hsame : ∀ i, start ≤ i → i < start + count → ¬ differs i) :
    (a.drop start).take count = (b.drop start).take count := by
  refine ext_getElem? fun i => ?_
  rcases Nat.lt_or_ge i count with hi | hi
  · rw [getElem?_take_drop hi, getElem?_take_drop hi]
    exact h.agree _ (hsame _ (Nat.le_add_right _ _) (by omega))
  · rw [getElem?_take_eq_none hi, getElem?_take_eq_none hi]

/-- **A piece of `b` copied into `a` leaves no difference where it was put.** -/
theorem copy {offset count : Nat} {piece : List α}
    (hpiece : piece = (b.drop offset).take count) (hcount : offset + count ≤ b.length) :
    AgreeExcept (fun i => differs i ∧ ¬ (offset ≤ i ∧ i < offset + count))
      (splice a offset piece) b := by
  have hlen : piece.length = count := by
    rw [hpiece, length_take, length_drop]
    omega
  have hfit : offset + piece.length ≤ a.length := by
    rw [hlen, h.length_eq]
    exact hcount
  refine ⟨(length_splice hfit).trans h.length_eq, fun i hi => ?_⟩
  rw [getElem?_splice hfit, hlen]
  split
  · rename_i hin
    rw [hpiece, getElem?_take_drop (by omega)]
    congr 1
    omega
  · rename_i hout
    exact h.agree i fun hd => hi ⟨hd, hout⟩

/-- A piece that is put anywhere is one more difference. -/
theorem splice {offset : Nat} {piece : List α}
    (hfit : offset + piece.length ≤ a.length) :
    AgreeExcept (fun i => differs i ∨ (offset ≤ i ∧ i < offset + piece.length))
      (splice a offset piece) b := by
  refine ⟨(length_splice hfit).trans h.length_eq, fun i hi => ?_⟩
  rw [getElem?_splice hfit, if_neg fun hin => hi (Or.inr hin)]
  exact h.agree i fun hd => hi (Or.inl hd)

end

end AgreeExcept

/-! ## 3. Pieces of one length -/

section

variable {β : Type} {f : β → List α} {n : Nat}

theorem length_flatMap_pieces (hf : ∀ b, (f b).length = n) (l : List β) :
    (l.flatMap f).length = l.length * n := by
  induction l with
  | nil => simp
  | cons b l ih =>
    rw [flatMap_cons, length_append, hf, ih, length_cons, Nat.succ_mul, Nat.add_comm]

/-- A piece stands where the pieces before it end. -/
theorem take_drop_flatMap (hf : ∀ b, (f b).length = n) : ∀ {l : List β} {k : Nat} {b : β},
    l[k]? = some b → ((l.flatMap f).drop (k * n)).take n = f b
  | [], _, _, h => absurd h (by simp)
  | c :: l, 0, b, h => by
    obtain rfl : c = b := by simpa using h
    rw [Nat.zero_mul, List.drop_zero, flatMap_cons, take_left' (hf c)]
  | c :: l, k + 1, b, h => by
    have hdrop : ((c :: l).flatMap f).drop ((k + 1) * n) = (l.flatMap f).drop (k * n) := by
      rw [flatMap_cons, Nat.succ_mul, Nat.add_comm, ← drop_drop, drop_left' (hf c)]
    rw [hdrop, take_drop_flatMap hf (by simpa using h)]

end

end Srs.Buffers
