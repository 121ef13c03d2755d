/-
# Deleted bytes of a section, in machine words

The same maps as in `Relaxation/Deltas.lean`, on the `u64` values the code computes with, where
an addition or a subtraction may go around.  For deletions that end below `2 ^ 64` the running
sums do not (`counts_accumulate`), so both directions are those on numbers
(`toNat_inputToOutputOffset`, `toNat_outputToInputOffset`).  Only the way back goes around, for
the last places of the address space: `relaxDeltas_inverse` says for which offsets all is well.

A `RelaxCursor` answers the same questions for offsets in order, and remembers how far it is.
-/
import Mathlib.Data.List.TakeWhile
import Srs.Relaxation.Deltas

namespace Srs.Relaxation.Words

open Deletions List UInt64

/-! ## 1. Definitions -/

structure RelaxDelta where
  inputOffset : UInt64
  cumulativeDeleted : UInt64
  bytesDeleted : UInt32
  deriving DecidableEq

structure SectionRelaxDeltas where
  deltas : List RelaxDelta
  deriving DecidableEq

/-- The loop of `SectionRelaxDeltas::new`. -/
def accumulate : UInt64 → List (UInt64 × UInt32) → List RelaxDelta
  | _, [] => []
  | running, (inputOffset, bytesDeleted) :: raw =>
    ⟨inputOffset, running + bytesDeleted.toUInt64, bytesDeleted⟩
      :: accumulate (running + bytesDeleted.toUInt64) raw

/-- The part of a `RelaxCursor` that changes: what is not consumed yet, and what was deleted in
front of it. -/
structure RelaxCursor where
  remaining : List RelaxDelta
  currentCumulative : UInt64

/-- The loop of `RelaxCursor::translate`. -/
def advance (inputOffset : UInt64) : List RelaxDelta → UInt64 → RelaxCursor
  | [], currentCumulative => ⟨[], currentCumulative⟩
  | delta :: deltas, currentCumulative =>
    if delta.inputOffset < inputOffset then advance inputOffset deltas delta.cumulativeDeleted
    else ⟨delta :: deltas, currentCumulative⟩

/-- `RelaxCursor::translate` -/
def RelaxCursor.translate (cursor : RelaxCursor) (inputOffset : UInt64) : UInt64 × RelaxCursor :=
  let next := advance inputOffset cursor.remaining cursor.currentCumulative
  (inputOffset - next.currentCumulative, next)

/-- The answers of a cursor that is asked for one offset after the other. -/
def RelaxCursor.answers : RelaxCursor → List UInt64 → List UInt64
  | _, [] => []
  | cursor, inputOffset :: offsets =>
    (cursor.translate inputOffset).1 :: (cursor.translate inputOffset).2.answers offsets

namespace SectionRelaxDeltas

def new (raw : List (UInt64 × UInt32)) : SectionRelaxDeltas := ⟨accumulate 0 raw⟩

variable (d : SectionRelaxDeltas)

def totalDeleted : UInt64 := (d.deltas.getLast?.map (·.cumulativeDeleted)).getD 0

def cursor : RelaxCursor := ⟨d.deltas, 0⟩

/-- `self.deltas[idx - 1]`, or nothing before the first entry. -/
def entryBefore (idx : Nat) : Option RelaxDelta :=
  if idx = 0 then none else d.deltas[idx - 1]?

def deletesInputOffset (inputOffset : UInt64) : Bool :=
  match d.entryBefore (partitionPoint (fun e => e.inputOffset ≤ inputOffset) d.deltas) with
  | none => false
  | some e => inputOffset < e.inputOffset + e.bytesDeleted.toUInt64

/-- The bytes that `input_to_output_offset` subtracts. -/
def deletedBefore (inputOffset : UInt64) : UInt64 :=
  ((d.entryBefore (partitionPoint (fun e => e.inputOffset < inputOffset) d.deltas)).map
    (·.cumulativeDeleted)).getD 0

def inputToOutputOffset (inputOffset : UInt64) : UInt64 := inputOffset - d.deletedBefore inputOffset

/-- The bytes that `output_to_input_offset` adds. -/
def deletedUpTo (outputOffset : UInt64) : UInt64 :=
  ((d.entryBefore (partitionPoint (fun e =>
    e.inputOffset + e.bytesDeleted.toUInt64 - e.cumulativeDeleted ≤ outputOffset) d.deltas)).map
      (·.cumulativeDeleted)).getD 0

def outputToInputOffset (outputOffset : UInt64) : UInt64 :=
  outputOffset + d.deletedUpTo outputOffset

end SectionRelaxDeltas

/-! ## 2. The numbers behind the words -/

/-- The numbers of an entry. -/
def RelaxDelta.counts (e : RelaxDelta) : Relaxation.RelaxDelta :=
  ⟨e.inputOffset.toNat, e.cumulativeDeleted.toNat, e.bytesDeleted.toNat⟩

def numbers (raw : List (UInt64 × UInt32)) : List (Nat × Nat) :=
  raw.map fun r => (r.1.toNat, r.2.toNat)

/-- **Deletions of a section**: ascending, apart and not empty, and within the address space. -/
structure Deletions (raw : List (UInt64 × UInt32)) : Prop where
  separate : Separate (numbers raw)
  within : ∀ r ∈ numbers raw, r.1 + r.2 < 2 ^ 64

theorem counts_accumulate : ∀ {raw : List (UInt64 × UInt32)} {running : UInt64} {pos : Nat},
    Apart pos (numbers raw) → running.toNat ≤ pos → (∀ r ∈ numbers raw, r.1 + r.2 < 2 ^ 64) →
      (accumulate running raw).map (·.counts)
        = Relaxation.accumulate running.toNat (numbers raw) := by
  intro raw
  induction raw with
  | nil => exact fun _ _ _ => rfl
  | cons r raw ih =>
    intro running pos hapart hrunning hwithin
    obtain ⟨hr, hwithin⟩ := List.forall_mem_cons.mp hwithin
    have hpos := hapart.1
    dsimp only at hr hpos
    have hsum : (running + r.2.toUInt64).toNat = running.toNat + r.2.toNat := by
      rw [UInt64.toNat_add, UInt32.toNat_toUInt64, Nat.mod_eq_of_lt]
      omega
    rw [accumulate, map_cons,
      ih hapart.2 (by rw [hsum]; exact Nat.add_le_add_right (Nat.le_trans hrunning hpos) _) hwithin,
      hsum]
    simp only [RelaxDelta.counts, hsum]
    rfl

variable {raw : List (UInt64 × UInt32)}

theorem counts_new (h : Deletions raw) :
    (SectionRelaxDeltas.new raw).deltas.map (·.counts)
      = (Relaxation.SectionRelaxDeltas.new (numbers raw)).deltas :=
  counts_accumulate h.separate.1 (Nat.le_refl 0) h.within

theorem partitionPoint_map {α β : Type} (f : α → β) {p : α → Bool} {q : β → Bool} :
    ∀ {l : List α}, (∀ a ∈ l, p a = q (f a)) → partitionPoint p l = partitionPoint q (l.map f) := by
  intro l
  induction l with
  | nil => exact fun _ => rfl
  | cons a l ih =>
    intro h
    obtain ⟨ha, hl⟩ := List.forall_mem_cons.mp h
    have hrest := ih hl
    unfold partitionPoint at hrest ⊢
    rw [map_cons, takeWhile_cons, takeWhile_cons, ← ha]
    cases p a with
    | true => simp [hrest]
    | false => rfl

/-- The sum up to an entry, in words and in numbers. -/
theorem toNat_entryBefore {d : SectionRelaxDeltas} {n : Relaxation.SectionRelaxDeltas}
    (h : d.deltas.map (·.counts) = n.deltas) (idx : Nat) :
    (((d.entryBefore idx).map RelaxDelta.cumulativeDeleted).getD 0).toNat = n.cumulativeAt idx := by
  unfold SectionRelaxDeltas.entryBefore Relaxation.SectionRelaxDeltas.cumulativeAt
  split
  · rfl
  · rw [← h, getElem?_map]
    cases d.deltas[idx - 1]? <;> rfl

theorem toNat_deletedBefore (h : Deletions raw) (x : UInt64) :
    ((SectionRelaxDeltas.new raw).deletedBefore x).toNat = before (numbers raw) x.toNat := by
  have hpoint := @partitionPoint_map _ _ RelaxDelta.counts
    (fun e => decide (e.inputOffset < x)) (fun e => decide (e.inputOffset < x.toNat))
    (SectionRelaxDeltas.new raw).deltas fun e _ => decide_eq_decide.mpr lt_iff_toNat_lt
  rw [SectionRelaxDeltas.deletedBefore, toNat_entryBefore (counts_new h), hpoint, counts_new h]
  exact deletedBefore_new h.separate.pairwise x.toNat

variable {x : UInt64}

/-- **From the input to the output**, where the subtraction does not go around. -/
theorem toNat_inputToOutputOffset (h : Deletions raw)
    (hx : before (numbers raw) x.toNat ≤ x.toNat) :
    ((SectionRelaxDeltas.new raw).inputToOutputOffset x).toNat
      = x.toNat - before (numbers raw) x.toNat := by
  have hbefore := toNat_deletedBefore h x
  rw [SectionRelaxDeltas.inputToOutputOffset, UInt64.toNat_sub_of_le, hbefore]
  rw [le_iff_toNat_le, hbefore]
  exact hx

/-- Nothing goes around at an offset that is not deleted. -/
theorem before_le_of_kept (h : Deletions raw) {x : Nat}
    (hx : ∀ r ∈ numbers raw, ¬ (r.1 ≤ x ∧ x < r.1 + r.2)) : before (numbers raw) x ≤ x := by
  have hle := h.separate.1.before_add_le (Nat.zero_le x) fun r hr hrx => by
    have := hx r hr
    omega
  omega

/-- The deletions end behind what was deleted up to them. -/
theorem cumulative_le {raw : List (Nat × Nat)} : ∀ {pos running : Nat}, Apart pos raw →
    running ≤ pos → ∀ e ∈ Relaxation.accumulate running raw,
      e.cumulativeDeleted ≤ e.inputOffset + e.bytesDeleted := by
  induction raw with
  | nil => exact fun _ _ => forall_mem_nil _
  | cons r raw ih =>
    intro pos running h hrunning
    have hpos := h.1
    refine List.forall_mem_cons.mpr ⟨?_, ih h.2 (by omega)⟩
    dsimp only
    omega

theorem mem_new {raw : List (Nat × Nat)} {e : Relaxation.RelaxDelta}
    (he : e ∈ (Relaxation.SectionRelaxDeltas.new raw).deltas) :
    (e.inputOffset, e.bytesDeleted) ∈ raw := by
  rw [← raw_new raw]
  exact List.mem_map_of_mem he

/-- The words at the end of a deletion's place are its numbers. -/
theorem toNat_place (h : Deletions raw) {e : RelaxDelta}
    (he : e ∈ (SectionRelaxDeltas.new raw).deltas) :
    (e.inputOffset + e.bytesDeleted.toUInt64 - e.cumulativeDeleted).toNat
      = e.counts.inputOffset + e.counts.bytesDeleted - e.counts.cumulativeDeleted := by
  have hmem : e.counts ∈ (Relaxation.SectionRelaxDeltas.new (numbers raw)).deltas := by
    rw [← counts_new h]
    exact List.mem_map_of_mem he
  have hwithin := h.within _ (mem_new hmem)
  have hcum := cumulative_le h.separate.1 (Nat.le_refl 0) _ hmem
  simp only [RelaxDelta.counts] at hwithin hcum ⊢
  have hsum : (e.inputOffset + e.bytesDeleted.toUInt64).toNat
      = e.inputOffset.toNat + e.bytesDeleted.toNat := by
    rw [UInt64.toNat_add, UInt32.toNat_toUInt64, Nat.mod_eq_of_lt hwithin]
  rw [UInt64.toNat_sub_of_le, hsum]
  rw [le_iff_toNat_le, hsum]
  exact hcum

theorem toNat_deletedUpTo (h : Deletions raw) (o : UInt64) :
    o.toNat + ((SectionRelaxDeltas.new raw).deletedUpTo o).toNat
      = (Relaxation.SectionRelaxDeltas.new (numbers raw)).outputToInputOffset o.toNat := by
  have hpoint := @partitionPoint_map _ _ RelaxDelta.counts
    (fun e => decide (e.inputOffset + e.bytesDeleted.toUInt64 - e.cumulativeDeleted ≤ o))
    (fun e => decide (e.inputOffset + e.bytesDeleted - e.cumulativeDeleted ≤ o.toNat))
    (SectionRelaxDeltas.new raw).deltas fun e he => decide_eq_decide.mpr (by
      rw [le_iff_toNat_le, toNat_place h he])
  rw [SectionRelaxDeltas.deletedUpTo, toNat_entryBefore (counts_new h), hpoint, counts_new h]
  rfl

/-! ## 3. Which offsets are deleted -/

/-- The last deletion that starts at or before an offset is the one that covers it, if one does. -/
theorem covered_iff {raw : List (Nat × Nat)} : ∀ {pos : Nat}, Apart pos raw →
    (∀ r ∈ raw, 0 < r.2) → ∀ x,
      ((raw.takeWhile fun r => r.1 ≤ x).getLast?.any fun r => x < r.1 + r.2) = true
        ↔ ∃ r ∈ raw, r.1 ≤ x ∧ x < r.1 + r.2 := by
  induction raw with
  | nil => exact fun _ _ x => by simp
  | cons r rest ih =>
    intro pos h hpositive x
    have hr := hpositive r mem_cons_self
    have hrest := ih h.2 (fun q hq => hpositive q (mem_cons_of_mem r hq)) x
    by_cases hle : r.1 ≤ x
    · rw [takeWhile_cons_of_pos (by simpa using hle)]
      simp only [mem_cons, exists_eq_or_imp, ← hrest]
      cases rest with
      | nil => simp [hle]
      | cons q rest =>
        have hq := h.2.1
        by_cases hqx : q.1 ≤ x
        · rw [takeWhile_cons_of_pos (by simpa using hqx), getLast?_cons_cons]
          simp only [hle, true_and, iff_or_self]
          omega
        · rw [takeWhile_cons_of_neg (by simpa using hqx)]
          simp [hle]
    · rw [takeWhile_cons_of_neg (by simpa using hle)]
      simp only [getLast?_nil, Option.any_none, Bool.false_eq_true, false_iff]
      rintro ⟨q, hq, hqx, -⟩
      rcases mem_cons.mp hq with rfl | hq
      · exact hle hqx
      · have := h.2.le q hq
        omega

theorem entryBefore_partitionPoint (d : SectionRelaxDeltas) (p : RelaxDelta → Bool) :
    d.entryBefore (partitionPoint p d.deltas) = (d.deltas.takeWhile p).getLast? := by
  unfold SectionRelaxDeltas.entryBefore partitionPoint
  split
  · rename_i hzero
    rw [length_eq_zero_iff.mp hzero]
    rfl
  · rename_i hne
    have hlt : (d.deltas.takeWhile p).length - 1 < (d.deltas.takeWhile p).length := by omega
    have hlt' := Nat.lt_of_lt_of_le hlt (List.takeWhile_prefix p).length_le
    rw [getLast?_eq_getElem?, getElem?_eq_getElem hlt, getElem?_eq_getElem hlt',
      (List.takeWhile_prefix p).getElem hlt]

/-- The offset and the size of an entry. -/
def RelaxDelta.range (e : RelaxDelta) : Nat × Nat := (e.inputOffset.toNat, e.bytesDeleted.toNat)

theorem range_accumulate (raw : List (UInt64 × UInt32)) : ∀ running : UInt64,
    (accumulate running raw).map (·.range) = numbers raw := by
  induction raw with
  | nil => exact fun _ => rfl
  | cons r raw ih =>
    intro running
    rw [accumulate, map_cons, ih]
    rfl

theorem deletesInputOffset_new (h : Deletions raw) (x : UInt64) :
    (SectionRelaxDeltas.new raw).deletesInputOffset x = true
      ↔ ∃ r ∈ numbers raw, r.1 ≤ x.toNat ∧ x.toNat < r.1 + r.2 := by
  rw [← covered_iff h.separate.1 h.separate.2 x.toNat, ← range_accumulate raw 0,
    takeWhile_map, getLast?_map, SectionRelaxDeltas.deletesInputOffset,
    entryBefore_partitionPoint]
  have hpred : (fun e : RelaxDelta => decide (e.inputOffset ≤ x))
      = (fun r : Nat × Nat => decide (r.1 ≤ x.toNat)) ∘ RelaxDelta.range := by
    funext e
    exact decide_eq_decide.mpr le_iff_toNat_le
  rw [← hpred]
  cases hlast : ((SectionRelaxDeltas.new raw).deltas.takeWhile
      fun e => decide (e.inputOffset ≤ x)).getLast? with
  | none =>
    rw [SectionRelaxDeltas.new] at hlast
    simp [hlast]
  | some e =>
    have hmem := (List.takeWhile_prefix _).subset (mem_of_getLast? hlast)
    have hwithin := h.within e.range (by
      rw [← range_accumulate raw 0]
      exact List.mem_map_of_mem hmem)
    have hsum : (e.inputOffset + e.bytesDeleted.toUInt64).toNat = e.range.1 + e.range.2 := by
      rw [UInt64.toNat_add, UInt32.toNat_toUInt64]
      exact Nat.mod_eq_of_lt hwithin
    rw [SectionRelaxDeltas.new] at hlast
    simp [hlast, lt_iff_toNat_lt, hsum]

/-! ## 4. The inverse -/

/-- **What survives is found again.** -/
structure Inverse (d : SectionRelaxDeltas) : Prop where
  /-- the subtraction does not go around -/
  noUnderflow : ∀ x, d.deletesInputOffset x = false → d.deletedBefore x ≤ x
  increasing : ∀ x y, d.deletesInputOffset x = false → d.deletesInputOffset y = false → x < y →
    d.inputToOutputOffset x < d.inputToOutputOffset y
  back : ∀ x, d.deletesInputOffset x = false →
    d.outputToInputOffset (d.inputToOutputOffset x) = x
  /-- the addition goes around for the places behind -/
  forth : ∀ o, o.toNat + d.totalDeleted.toNat < 2 ^ 64 →
    d.inputToOutputOffset (d.outputToInputOffset o) = o
  cursor : ∀ offsets : List UInt64, offsets.Pairwise (· ≤ ·) →
    d.cursor.answers offsets = offsets.map d.inputToOutputOffset

/-- An offset that is not deleted is in none of the ranges. -/
theorem kept_of_deletesInputOffset (h : Deletions raw)
    (hx : (SectionRelaxDeltas.new raw).deletesInputOffset x = false) :
    ∀ r ∈ numbers raw, ¬ (r.1 ≤ x.toNat ∧ x.toNat < r.1 + r.2) := by
  intro r hr hcovers
  have htrue := (deletesInputOffset_new h x).mpr ⟨r, hr, hcovers⟩
  rw [hx] at htrue
  exact absurd htrue (by decide)

theorem getLast?_accumulate (raw : List (Nat × Nat)) : ∀ running : Nat,
    ((Relaxation.accumulate running raw).getLast?.map (·.cumulativeDeleted)).getD running
      = running + total raw := by
  induction raw with
  | nil => exact fun _ => rfl
  | cons r raw ih =>
    intro running
    rw [Relaxation.accumulate, getLast?_cons, total_cons, ← Nat.add_assoc, ← ih]
    cases (Relaxation.accumulate (running + r.2) raw).getLast? <;> rfl

theorem toNat_totalDeleted (h : Deletions raw) :
    (SectionRelaxDeltas.new raw).totalDeleted.toNat = total (numbers raw) := by
  have hsum := getLast?_accumulate (numbers raw) 0
  have hcounts : Relaxation.accumulate 0 (numbers raw)
      = (SectionRelaxDeltas.new raw).deltas.map (·.counts) := (counts_new h).symm
  rw [hcounts, getLast?_map, Nat.zero_add] at hsum
  rw [← hsum, SectionRelaxDeltas.totalDeleted]
  cases (SectionRelaxDeltas.new raw).deltas.getLast? <;> rfl

/-- What a cursor did not consume does not start before the offset, and what it consumed does. -/
theorem advance_spec (x : UInt64) (deltas : List RelaxDelta) : ∀ current : UInt64,
    advance x deltas current
      = ⟨deltas.dropWhile fun e => e.inputOffset < x,
        (((deltas.takeWhile fun e => e.inputOffset < x).getLast?.map
          RelaxDelta.cumulativeDeleted).getD current)⟩ := by
  induction deltas with
  | nil => exact fun _ => rfl
  | cons e deltas ih =>
    intro current
    rw [advance]
    split
    · rename_i hlt
      rw [ih, dropWhile_cons_of_pos (by simpa using hlt),
        takeWhile_cons_of_pos (by simpa using hlt), getLast?_cons]
      simp
    · rename_i hlt
      rw [dropWhile_cons_of_neg (by simpa using hlt),
        takeWhile_cons_of_neg (by simpa using hlt)]
      rfl

/-- The answers of a cursor that stands in front of an offset are those of a new one. -/
theorem answers_advance (deltas : List RelaxDelta) : ∀ {offsets : List UInt64} {x : UInt64},
    (∀ o ∈ offsets, x ≤ o) → ∀ current : UInt64,
      (advance x deltas current).answers offsets
        = (RelaxCursor.mk deltas current).answers offsets := by
  intro offsets x h current
  cases offsets with
  | nil => rfl
  | cons o offsets =>
    have hx := h o mem_cons_self
    have hsame : advance o (advance x deltas current).remaining
        (advance x deltas current).currentCumulative = advance o deltas current := by
      clear h
      induction deltas generalizing current with
      | nil => rfl
      | cons e deltas ih =>
        rw [advance, advance]
        by_cases hlt : e.inputOffset < x
        · rw [if_pos hlt, if_pos (UInt64.lt_of_lt_of_le hlt hx)]
          exact ih e.cumulativeDeleted
        · rw [if_neg hlt, advance]
    simp only [RelaxCursor.answers, RelaxCursor.translate, hsame]

theorem deletedBefore_eq_advance (d : SectionRelaxDeltas) (x : UInt64) :
    d.deletedBefore x = (advance x d.deltas 0).currentCumulative := by
  rw [advance_spec, SectionRelaxDeltas.deletedBefore, entryBefore_partitionPoint]

/-- **A cursor that is asked in order answers as the search does.** -/
theorem answers_cursor (d : SectionRelaxDeltas) : ∀ {offsets : List UInt64},
    offsets.Pairwise (· ≤ ·) → d.cursor.answers offsets = offsets.map d.inputToOutputOffset := by
  intro offsets
  induction offsets with
  | nil => exact fun _ => rfl
  | cons x offsets ih =>
    intro h
    obtain ⟨hx, hrest⟩ := pairwise_cons.mp h
    rw [RelaxCursor.answers, map_cons, ← ih hrest, SectionRelaxDeltas.inputToOutputOffset,
      deletedBefore_eq_advance]
    exact congrArg _ (answers_advance d.deltas hx 0)

/-- **The maps are inverse to each other on what survives.** -/
theorem relaxDeltas_inverse {raw : List (UInt64 × UInt32)} (h : Deletions raw) :
    Inverse (SectionRelaxDeltas.new raw) where
  noUnderflow x hx := by
    rw [le_iff_toNat_le, toNat_deletedBefore h]
    exact before_le_of_kept h (kept_of_deletesInputOffset h hx)
  increasing x y hx hy hlt := by
    have hkeptX := kept_of_deletesInputOffset h hx
    have hkeptY := kept_of_deletesInputOffset h hy
    rw [lt_iff_toNat_lt, toNat_inputToOutputOffset h (before_le_of_kept h hkeptX),
      toNat_inputToOutputOffset h (before_le_of_kept h hkeptY)]
    exact h.separate.1.sub_before_lt h.separate.2 (Nat.zero_le _)
      (lt_iff_toNat_lt.mp hlt) hkeptX hkeptY
  back x hx := by
    have hkept := kept_of_deletesInputOffset h hx
    have hout := toNat_inputToOutputOffset h (before_le_of_kept h hkept)
    have hback := outputToInputOffset_new h.separate hkept
    rw [inputToOutputOffset_new h.separate.pairwise, ← hout, ← toNat_deletedUpTo h] at hback
    rw [SectionRelaxDeltas.outputToInputOffset, ← UInt64.toNat_inj, UInt64.toNat_add, hback]
    exact Nat.mod_eq_of_lt x.toNat_lt
  forth o ho := by
    obtain ⟨x, hx, hkept⟩ := h.separate.1.exists_kept h.separate.2 (Nat.zero_le o.toNat)
    have hplace : o.toNat = x - before (numbers raw) x := by omega
    have hback := outputToInputOffset_new h.separate hkept
    rw [inputToOutputOffset_new h.separate.pairwise, ← hplace, ← toNat_deletedUpTo h] at hback
    have hbound : x < 2 ^ 64 := by
      have htotal := before_le_total (numbers raw) x
      rw [toNat_totalDeleted h] at ho
      omega
    have hinput : ((SectionRelaxDeltas.new raw).outputToInputOffset o).toNat = x := by
      rw [SectionRelaxDeltas.outputToInputOffset, UInt64.toNat_add, hback]
      exact Nat.mod_eq_of_lt hbound
    rw [← UInt64.toNat_inj, toNat_inputToOutputOffset h, hinput, ← hplace]
    rw [hinput]
    omega
  cursor := fun _ => answers_cursor _

/-! ## 5. Two deletions -/

/-- Four bytes go at 4, and two more right behind them. -/
def twoDeletions : List (UInt64 × UInt32) := [(4, 4), (8, 2)]

theorem deletions_twoDeletions : Deletions twoDeletions where
  separate := by decide
  within := by decide

theorem relaxDeltas_inverse_twoDeletions : Inverse (SectionRelaxDeltas.new twoDeletions) :=
  relaxDeltas_inverse deletions_twoDeletions

/-- Where words go around.  One byte goes at the start of the section, and the way back from the
last place of the address space leads to the start; or two bytes go at the last offset, and the
deletion's end is the start. -/
theorem not_inverse_last_place :
    (Separate (numbers [(0, 1)]) ∧ ¬ ∀ o, (SectionRelaxDeltas.new [(0, 1)]).inputToOutputOffset
      ((SectionRelaxDeltas.new [(0, 1)]).outputToInputOffset o) = o) ∧
    Separate (numbers [(18446744073709551615, 2)]) ∧
      ¬ ∀ x, (SectionRelaxDeltas.new [(18446744073709551615, 2)]).deletesInputOffset x = false →
        (SectionRelaxDeltas.new [(18446744073709551615, 2)]).outputToInputOffset
          ((SectionRelaxDeltas.new [(18446744073709551615, 2)]).inputToOutputOffset x) = x := by
  refine ⟨⟨by decide, fun hforth => ?_⟩, by decide, fun hback => ?_⟩
  · exact absurd (hforth 18446744073709551615) (by decide)
  · exact absurd (hback 18446744073709551615 (by decide)) (by decide)

end Srs.Relaxation.Words
