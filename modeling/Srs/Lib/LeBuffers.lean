/-
# Little-endian words in buffers

`readLe n` and `writeLe n` read and write a word of `n` bytes at an offset and fail where it does
not lie inside the buffer.  A word that was written is read back cut to its size, a word apart from
it is untouched (`readLe_writeLe`, `readLe_of_apart`), and in general a read depends on the bytes of
the word only (`AgreeExcept.readLe`).
-/
import Srs.Lib.Buffers
import Srs.Lib.LeBytes

namespace Srs.Buffers

open LeBytes List Option

/-! ## 1. One word -/

/-- The word of `n` bytes at `offset`. -/
def readLe (n : Nat) (buffer : Bytes) (offset : Nat) : Option Nat :=
  (slice buffer offset (offset + n)).map leValue

/-- The buffer after a word of `n` bytes was written at `offset`. -/
def writeLe (n : Nat) (buffer : Bytes) (offset value : Nat) : Option Bytes :=
  if offset + n ≤ buffer.length then some (splice buffer offset (leBytes n value)) else none

variable {n : Nat} {buffer buffer' : Bytes} {offset value : Nat}

theorem writeLe_eq_some :
    writeLe n buffer offset value = some buffer' ↔
      offset + n ≤ buffer.length ∧ buffer' = splice buffer offset (leBytes n value) := by
  unfold writeLe
  split <;> simp_all [eq_comm]

theorem length_writeLe
    (h : writeLe n buffer offset value = some buffer') : buffer'.length = buffer.length := by
  obtain ⟨hfit, rfl⟩ := writeLe_eq_some.mp h
  exact length_splice (by rw [length_leBytes]; exact hfit)

/-- A write touches the bytes of the word only. -/
theorem agreeExcept_writeLe (h : writeLe n buffer offset value = some buffer') :
    AgreeExcept (fun i => offset ≤ i ∧ i < offset + n) buffer' buffer := by
  obtain ⟨hfit, rfl⟩ := writeLe_eq_some.mp h
  have href : AgreeExcept (fun _ => False) buffer buffer := AgreeExcept.refl buffer
  have hsplice := @AgreeExcept.splice UInt8 _ _ _ href offset (leBytes n value)
    (by rw [length_leBytes]; exact hfit)
  refine hsplice.mono fun i hi => ?_
  rw [length_leBytes] at hi
  exact hi.resolve_left id

/-- **A read depends on the bytes of the word only.** -/
theorem AgreeExcept.readLe {differs : Nat → Prop} {a b : Bytes} (h : AgreeExcept differs a b)
    (hsame : ∀ i, offset ≤ i → i < offset + n → ¬ differs i) :
    readLe n a offset = readLe n b offset := by
  have hdrop := h.take_drop hsame
  rw [Buffers.readLe, Buffers.readLe, slice, slice, h.length_eq, Nat.add_sub_cancel_left, hdrop]

/-- **The word that was written is read back**, cut to its size. -/
theorem readLe_writeLe (h : writeLe n buffer offset value = some buffer') :
    readLe n buffer' offset = some (value % 2 ^ (8 * n)) := by
  obtain ⟨hfit, rfl⟩ := writeLe_eq_some.mp h
  have hlen := @length_splice UInt8 buffer (leBytes n value) offset
    (by rw [length_leBytes]; exact hfit)
  have hslice : slice (splice buffer offset (leBytes n value)) offset (offset + n)
      = some (leBytes n value) := by
    refine slice_eq_some.mpr ⟨Nat.le_add_right _ _, by rw [hlen]; exact hfit, ?_⟩
    rw [drop_splice (by omega), Nat.add_sub_cancel_left, take_left' (length_leBytes n value)]
  rw [readLe, hslice, map_some, leValue_leBytes]

/-- A word apart from the one that was written is untouched. -/
theorem readLe_of_apart {m : Nat} {other : Nat} (h : writeLe n buffer offset value = some buffer')
    (hapart : other + m ≤ offset ∨ offset + n ≤ other) :
    readLe m buffer' other = readLe m buffer other :=
  (agreeExcept_writeLe h).readLe fun i _ _ => by omega

/-- A word of a piece that was put into a buffer. -/
theorem readLe_splice {piece : Bytes} {position : Nat}
    (hfit : offset + piece.length ≤ buffer.length) (hle : offset ≤ position)
    (hlt : position + n ≤ offset + piece.length) :
    readLe n (splice buffer offset piece) position = readLe n piece (position - offset) := by
  have hdrop : (splice buffer offset piece).drop position
      = (piece ++ buffer.drop (offset + piece.length)).drop (position - offset) := by
    rw [← drop_splice (by omega), drop_drop]
    congr 1
    omega
  have htake : ((splice buffer offset piece).drop position).take n
      = (piece.drop (position - offset)).take n := by
    rw [hdrop, drop_append_of_le_length (by omega),
      take_append_of_le_length (by rw [length_drop]; omega)]
  rw [readLe, readLe, slice_of_le (Nat.le_add_right _ _) (by rw [length_splice hfit]; omega),
    slice_of_le (Nat.le_add_right _ _) (by omega), Nat.add_sub_cancel_left, Nat.add_sub_cancel_left,
    htake]

/-! ## 2. Many words -/

/-- The buffer after words of `n` bytes were written, each an offset and a value. -/
def writeAllLe (n : Nat) : List (Nat × Nat) → Bytes → Option Bytes
  | [], buffer => some buffer
  | (offset, value) :: words, buffer => do
    let buffer ← writeLe n buffer offset value
    writeAllLe n words buffer

theorem length_writeAllLe : ∀ {words : List (Nat × Nat)} {buffer buffer' : Bytes},
    writeAllLe n words buffer = some buffer' → buffer'.length = buffer.length
  | [], _, _, h => by rw [some.inj h]
  | (offset, value) :: words, buffer, buffer', h => by
    obtain ⟨next, hnext, h⟩ := bind_eq_some_iff.mp h
    rw [length_writeAllLe h, length_writeLe hnext]

/-- A word apart from all that were written is untouched. -/
theorem readLe_writeAllLe_of_apart {m other : Nat} : ∀ {words : List (Nat × Nat)}
    {buffer buffer' : Bytes}, writeAllLe n words buffer = some buffer' →
      (∀ word ∈ words, other + m ≤ word.1 ∨ word.1 + n ≤ other) →
        readLe m buffer' other = readLe m buffer other
  | [], _, _, h, _ => by rw [some.inj h]
  | (offset, value) :: words, buffer, buffer', h, hapart => by
    obtain ⟨next, hnext, h⟩ := bind_eq_some_iff.mp h
    rw [readLe_writeAllLe_of_apart h fun word hmem => hapart word (mem_cons_of_mem _ hmem),
      readLe_of_apart hnext (hapart (offset, value) (by simp))]

/-- **Where words are written at one place or apart, one of those written there is read back.** -/
theorem exists_readLe_writeAllLe : ∀ {words : List (Nat × Nat)}
    {buffer buffer' : Bytes}, writeAllLe n words buffer = some buffer' →
      (∀ word ∈ words, word.1 = offset ∨ offset + n ≤ word.1 ∨ word.1 + n ≤ offset) →
        (∃ word ∈ words, word.1 = offset) →
          ∃ value, (offset, value) ∈ words ∧ readLe n buffer' offset = some (value % 2 ^ (8 * n))
  | [], _, _, _, _, hsome => by
    obtain ⟨word, hword, -⟩ := hsome
    exact absurd hword (by simp)
  | (first, x) :: words, buffer, buffer', h, hapart, hsome => by
    obtain ⟨next, hnext, hrun⟩ := bind_eq_some_iff.mp h
    have hrest : ∀ word ∈ words,
        word.1 = offset ∨ offset + n ≤ word.1 ∨ word.1 + n ≤ offset :=
      fun word hmem => hapart word (mem_cons_of_mem _ hmem)
    by_cases hlater : ∃ word ∈ words, word.1 = offset
    · obtain ⟨value, hmem, hread⟩ := exists_readLe_writeAllLe hrun hrest hlater
      exact ⟨value, mem_cons_of_mem _ hmem, hread⟩
    · obtain ⟨word, hword, heq⟩ := hsome
      obtain rfl : word = (first, x) :=
        (mem_cons.mp hword).resolve_right fun hin => hlater ⟨word, hin, heq⟩
      obtain rfl : first = offset := heq
      refine ⟨x, by simp, ?_⟩
      rw [readLe_writeAllLe_of_apart hrun, readLe_writeLe hnext]
      intro word hin
      exact (hrest word hin).resolve_left fun heq => hlater ⟨word, hin, heq⟩

end Srs.Buffers
