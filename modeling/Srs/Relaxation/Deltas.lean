/-
# Deleted bytes of a section

`linker-utils/src/relaxation.rs`: the deletions of a section with their running sums.  An offset
of the input is mapped to the output by subtracting what was deleted before it, and back by
adding it again.  Both directions look for the last deletion that counts; `SectionRelaxDeltas.new`
has the sums such that the first is `x - before x` (`inputToOutputOffset_new`), and the second is
its inverse where nothing was deleted (`outputToInputOffset_new`).
-/
import Srs.Lib.Deletions
import Srs.Lib.SortDedup

namespace Srs.Relaxation

open Deletions List

/-! ## 1. Definitions -/

/-- `slice::partition_point`, on a slice whose elements with the property come first. -/
def partitionPoint {α : Type} (p : α → Bool) (l : List α) : Nat := (l.takeWhile p).length

/-- `slice::binary_search_by_key(..).ok()`, on a sorted slice without equal keys. -/
def binarySearchByKey {α : Type} (key : α → Nat) (k : Nat) (l : List α) : Option Nat :=
  l.findIdx? fun a => key a = k

/-- The bytes deleted at an offset of the input section. -/
structure RelaxDelta where
  inputOffset : Nat
  /-- the bytes deleted up to this entry, with it -/
  cumulativeDeleted : Nat
  bytesDeleted : Nat
  deriving DecidableEq

structure SectionRelaxDeltas where
  deltas : List RelaxDelta
  deriving DecidableEq

/-- The loop of `SectionRelaxDeltas::new`. -/
def accumulate : Nat → List (Nat × Nat) → List RelaxDelta
  | _, [] => []
  | running, (inputOffset, bytesDeleted) :: raw =>
    ⟨inputOffset, running + bytesDeleted, bytesDeleted⟩ :: accumulate (running + bytesDeleted) raw

namespace SectionRelaxDeltas

def new (raw : List (Nat × Nat)) : SectionRelaxDeltas := ⟨accumulate 0 raw⟩

variable (d : SectionRelaxDeltas)

/-- The offsets and sizes of the deletions. -/
def raw : List (Nat × Nat) := d.deltas.map fun e => (e.inputOffset, e.bytesDeleted)

def totalDeleted : Nat := (d.deltas.getLast?.map (·.cumulativeDeleted)).getD 0

def mergeAdditional (additional : List (Nat × Nat)) : SectionRelaxDeltas :=
  if additional = [] then d else new (sortedByKey (·.1) (d.raw ++ additional))

def hasDeltaAt (offset : Nat) : Bool :=
  (binarySearchByKey (·.inputOffset) offset d.deltas).isSome

def deltaBytesAt (offset : Nat) : Nat :=
  ((binarySearchByKey (·.inputOffset) offset d.deltas).bind fun i =>
    d.deltas[i]?.map (·.bytesDeleted)).getD 0

/-- `self.deltas[idx - 1].cumulative_deleted`, or nothing before the first entry. -/
def cumulativeAt (idx : Nat) : Nat :=
  if idx = 0 then 0 else (d.deltas[idx - 1]?.map (·.cumulativeDeleted)).getD 0

/-- The bytes deleted strictly before an input offset. -/
def deletedBefore (inputOffset : Nat) : Nat :=
  d.cumulativeAt (partitionPoint (fun e => e.inputOffset < inputOffset) d.deltas)

def inputToOutputOffset (inputOffset : Nat) : Nat := inputOffset - d.deletedBefore inputOffset

def outputToInputOffset (outputOffset : Nat) : Nat :=
  outputOffset + d.cumulativeAt (partitionPoint
    (fun e => e.inputOffset + e.bytesDeleted - e.cumulativeDeleted ≤ outputOffset) d.deltas)

end SectionRelaxDeltas

/-- `opt_input_to_output` -/
def optInputToOutput (deltas : Option SectionRelaxDeltas) (inputOffset : Nat) : Nat :=
  match deltas with
  | some d => d.inputToOutputOffset inputOffset
  | none => inputOffset

/-! ## 2. The sums -/

section

variable (raw : List (Nat × Nat))
include raw

theorem map_accumulate : ∀ running : Nat,
    (accumulate running raw).map (fun e => (e.inputOffset, e.bytesDeleted)) = raw := by
  induction raw with
  | nil => exact fun _ => rfl
  | cons r raw ih =>
    intro running
    rw [accumulate, map_cons, ih]

@[simp] theorem raw_new : (SectionRelaxDeltas.new raw).raw = raw :=
  map_accumulate raw 0

/-- The sum at an entry is that of the entries up to it. -/
theorem getElem?_accumulate : ∀ (running i : Nat), i < raw.length →
    (accumulate running raw)[i]?.map (·.cumulativeDeleted)
      = some (running + total (raw.take (i + 1))) := by
  induction raw with
  | nil =>
    intro running i hi
    exact absurd hi (Nat.not_lt_zero i)
  | cons r raw ih =>
    intro running i hi
    cases i with
    | zero => simp [accumulate, total]
    | succ i =>
      have hlt : i < raw.length := by simpa using hi
      rw [accumulate, getElem?_cons_succ, ih _ _ hlt, take_succ_cons, total_cons,
        Nat.add_assoc]

theorem cumulativeAt_new {idx : Nat} (h : idx ≤ raw.length) :
    (SectionRelaxDeltas.new raw).cumulativeAt idx = total (raw.take idx) := by
  unfold SectionRelaxDeltas.cumulativeAt
  cases idx with
  | zero => simp [total]
  | succ i =>
    rw [if_neg (Nat.succ_ne_zero i), Nat.add_sub_cancel, SectionRelaxDeltas.new,
      getElem?_accumulate raw 0 i h, Nat.zero_add]
    rfl

/-- The entries before a point, when those that count come first. -/
theorem partitionPoint_accumulate {p : RelaxDelta → Bool} {q : Nat × Nat → Bool}
    : ∀ {running : Nat},
    (∀ i, i < raw.length → (accumulate running raw)[i]?.map p = raw[i]?.map q) →
      partitionPoint p (accumulate running raw) = (raw.takeWhile q).length := by
  induction raw with
  | nil => exact fun _ => rfl
  | cons r raw ih =>
    intro running h
    have h0 : p ⟨r.1, running + r.2, r.2⟩ = q r := by
      have := h 0 (by simp)
      simpa [accumulate] using this
    have hrest := @ih (running + r.2) fun i hi => by
      have := h (i + 1) (by simpa using hi)
      simpa [accumulate] using this
    unfold partitionPoint at hrest ⊢
    rw [accumulate, takeWhile_cons, takeWhile_cons, h0]
    cases q r with
    | true => simp [hrest]
    | false => rfl

end

variable {raw : List (Nat × Nat)}

theorem takeWhile_eq_filter_of_sorted {x : Nat} (h : raw.Pairwise fun a b => a.1 < b.1) :
    raw.takeWhile (fun r => r.1 < x) = raw.filter fun r => r.1 < x := by
  induction raw with
  | nil => rfl
  | cons r raw ih =>
    obtain ⟨hr, hrest⟩ := pairwise_cons.mp h
    by_cases hx : r.1 < x
    · rw [takeWhile_cons_of_pos (by simpa using hx), filter_cons_of_pos (by simpa using hx),
        ih hrest]
    · rw [takeWhile_cons_of_neg (by simpa using hx), filter_cons_of_neg (by simpa using hx)]
      refine (filter_eq_nil_iff.mpr ?_).symm
      intro q hq
      have := hr q hq
      simp only [decide_eq_true_eq]
      omega

theorem total_take_takeWhile (q : Nat × Nat → Bool) (raw : List (Nat × Nat)) :
    total (raw.take (raw.takeWhile q).length) = total (raw.takeWhile q) := by
  have hpre : raw.takeWhile q <+: raw := takeWhile_prefix q
  rw [← prefix_iff_eq_take.mp hpre]

/-- **The bytes deleted before an offset.** -/
theorem deletedBefore_new (h : raw.Pairwise fun a b => a.1 < b.1)
    (x : Nat) : (SectionRelaxDeltas.new raw).deletedBefore x = before raw x := by
  have hpoint : partitionPoint (fun e : RelaxDelta => e.inputOffset < x) (accumulate 0 raw)
      = (raw.takeWhile fun r => r.1 < x).length := by
    refine partitionPoint_accumulate raw ?_
    intro i hi
    have hmap := congrArg (fun l : List (Nat × Nat) => (l[i]?).map fun r => decide (r.1 < x))
      (map_accumulate raw 0)
    simpa [getElem?_map, Option.map_map, Function.comp_def] using hmap
  have hle : (raw.takeWhile fun r => r.1 < x).length ≤ raw.length :=
    (List.takeWhile_prefix _).length_le
  rw [SectionRelaxDeltas.deletedBefore, SectionRelaxDeltas.new, hpoint]
  refine (cumulativeAt_new raw hle).trans ?_
  rw [total_take_takeWhile, takeWhile_eq_filter_of_sorted h]
  rfl

theorem inputToOutputOffset_new (h : raw.Pairwise fun a b => a.1 < b.1)
    (x : Nat) : (SectionRelaxDeltas.new raw).inputToOutputOffset x = x - before raw x := by
  rw [SectionRelaxDeltas.inputToOutputOffset, deletedBefore_new h]

/-! ## 3. Back to the input -/

/-- The deletions that end at or before the place of an offset are those before the offset. -/
theorem partitionPoint_output : ∀ {pos running : Nat}, Apart pos raw →
    running ≤ pos → (∀ r ∈ raw, 0 < r.2) → ∀ {x : Nat}, pos ≤ x →
      (∀ r ∈ raw, ¬ (r.1 ≤ x ∧ x < r.1 + r.2)) →
      partitionPoint (fun e : RelaxDelta => e.inputOffset + e.bytesDeleted - e.cumulativeDeleted
          ≤ x - running - before raw x) (accumulate running raw)
        = (raw.takeWhile fun r => r.1 < x).length := by
  induction raw with
  | nil =>
    intro pos running _ _ _ x _ _
    rfl
  | cons r rest ih =>
    intro pos running h hrun hpos x hx hnot
    have hr := h.1
    have hp := hpos r mem_cons_self
    have hcov := hnot r mem_cons_self
    have hnot' : ∀ q ∈ rest, ¬ (q.1 ≤ x ∧ x < q.1 + q.2) := fun q hq =>
      hnot q (mem_cons_of_mem r hq)
    unfold partitionPoint at ih ⊢
    rw [accumulate, before_cons]
    by_cases hrx : r.1 < x
    · have hend : r.1 + r.2 ≤ x := by omega
      have hle := h.2.before_add_le hend fun q hq hqx => by
        have := hnot' q hq
        omega
      have hrest := @ih (r.1 + r.2) (running + r.2) h.2 (by omega)
        (fun q hq => hpos q (mem_cons_of_mem r hq)) x hend hnot'
      have hout : x - running - (r.2 + before rest x) = x - (running + r.2) - before rest x := by
        omega
      have hhead : r.1 + r.2 - (running + r.2) ≤ x - (running + r.2) - before rest x := by omega
      rw [if_pos hrx, hout, takeWhile_cons, takeWhile_cons]
      simp only [hhead, hrx, decide_true, if_true, length_cons, hrest]
    · have hzero : before rest x = 0 := by
        refine before_eq_zero ?_
        intro q hq
        have := h.2.le q hq
        omega
      have hhead : ¬ r.1 + r.2 - (running + r.2) ≤ x - running - (0 + 0) := by omega
      rw [if_neg hrx, hzero, takeWhile_cons, takeWhile_cons]
      simp only [hhead, hrx, decide_false, Bool.false_eq_true, if_false, length_nil]

/-- The ranges are apart and not empty. -/
def Separate (raw : List (Nat × Nat)) : Prop := Apart 0 raw ∧ ∀ r ∈ raw, 0 < r.2

instance (raw : List (Nat × Nat)) : Decidable (Separate raw) :=
  inferInstanceAs (Decidable (_ ∧ _))

theorem pairwise_of_apart : ∀ {pos : Nat}, Apart pos raw →
    (∀ r ∈ raw, 0 < r.2) → raw.Pairwise fun a b => a.1 < b.1 := by
  induction raw with
  | nil => exact fun _ _ => List.Pairwise.nil
  | cons r rest ih =>
    intro pos h hpos
    refine pairwise_cons.mpr ⟨?_, ih h.2 fun q hq => hpos q (mem_cons_of_mem r hq)⟩
    intro q hq
    have := h.2.le q hq
    have := hpos r mem_cons_self
    omega

theorem Separate.pairwise (h : Separate raw) :
    raw.Pairwise fun a b => a.1 < b.1 :=
  pairwise_of_apart h.1 h.2

/-- **The way back**, where nothing was deleted. -/
theorem outputToInputOffset_new (h : Separate raw) {x : Nat}
    (hx : ∀ r ∈ raw, ¬ (r.1 ≤ x ∧ x < r.1 + r.2)) :
    (SectionRelaxDeltas.new raw).outputToInputOffset
      ((SectionRelaxDeltas.new raw).inputToOutputOffset x) = x := by
  have hpoint := partitionPoint_output h.1 (Nat.le_refl 0) h.2 (Nat.zero_le x) hx
  have hle : (raw.takeWhile fun r => r.1 < x).length ≤ raw.length :=
    (List.takeWhile_prefix _).length_le
  have hbefore := h.1.before_add_le (Nat.zero_le x) fun r hr hrx => by
    have := hx r hr
    omega
  rw [Nat.sub_zero] at hpoint
  rw [inputToOutputOffset_new h.pairwise, SectionRelaxDeltas.outputToInputOffset,
    SectionRelaxDeltas.new, hpoint]
  have hcum := cumulativeAt_new raw hle
  rw [total_take_takeWhile, takeWhile_eq_filter_of_sorted h.pairwise] at hcum
  have htotal : (SectionRelaxDeltas.mk (accumulate 0 raw)).cumulativeAt
      (raw.takeWhile fun r => r.1 < x).length = before raw x := by
    rw [takeWhile_eq_filter_of_sorted h.pairwise]
    exact hcum
  rw [htotal]
  omega

/-! ## 4. Looking up and merging -/

theorem bind_findIdx? {α : Type} (p : α → Bool) (l : List α) :
    ((l.findIdx? p).bind fun i => l[i]?) = l.find? p := by
  induction l with
  | nil => rfl
  | cons a l ih =>
    rw [findIdx?_cons, find?_cons]
    cases p a with
    | true => rfl
    | false =>
      rw [← ih]
      simp [Option.bind_map]

theorem hasDeltaAt_iff {d : SectionRelaxDeltas} {offset : Nat} :
    d.hasDeltaAt offset = true ↔ ∃ r ∈ d.raw, r.1 = offset := by
  rw [SectionRelaxDeltas.hasDeltaAt, binarySearchByKey, findIdx?_isSome, List.any_eq_true]
  simp [SectionRelaxDeltas.raw]

theorem deltaBytesAt_eq (d : SectionRelaxDeltas) (offset : Nat) :
    d.deltaBytesAt offset = ((d.raw.find? fun r => r.1 = offset).map (·.2)).getD 0 := by
  have hfind := bind_findIdx? (fun e : RelaxDelta => decide (e.inputOffset = offset)) d.deltas
  rw [SectionRelaxDeltas.deltaBytesAt, binarySearchByKey]
  have hmap : ((d.deltas.findIdx? fun e => decide (e.inputOffset = offset)).bind fun i =>
      d.deltas[i]?.map (·.bytesDeleted))
      = (d.deltas.find? fun e => decide (e.inputOffset = offset)).map (·.bytesDeleted) := by
    rw [← hfind, Option.map_bind]
    rfl
  rw [hmap, SectionRelaxDeltas.raw, find?_map, Option.map_map]
  rfl

theorem deltaBytesAt_of_mem {d : SectionRelaxDeltas} (h : d.raw.Pairwise fun a b => a.1 < b.1)
    {r : Nat × Nat} (hr : r ∈ d.raw) : d.deltaBytesAt r.1 = r.2 := by
  rw [deltaBytesAt_eq]
  cases hfind : d.raw.find? fun q => q.1 = r.1 with
  | none =>
    have := find?_eq_none.mp hfind r hr
    simp at this
  | some q =>
    have hq := mem_of_find?_eq_some hfind
    have hkey : q.1 = r.1 := by simpa using find?_some hfind
    have hnodup : (d.raw.map (·.1)).Nodup := pairwise_map.mpr (h.imp Nat.ne_of_lt)
    rw [inj_on_of_nodup_map hnodup hq hr hkey]
    rfl

theorem deltaBytesAt_eq_zero {d : SectionRelaxDeltas} {offset : Nat}
    (h : ∀ r ∈ d.raw, r.1 ≠ offset) : d.deltaBytesAt offset = 0 := by
  have hnone : (d.raw.find? fun r => r.1 = offset) = none := by
    refine find?_eq_none.mpr ?_
    intro r hr
    simpa using h r hr
  rw [deltaBytesAt_eq, hnone]
  rfl

theorem raw_mergeAdditional (d : SectionRelaxDeltas) (additional : List (Nat × Nat)) :
    (d.mergeAdditional additional).raw.Perm (d.raw ++ additional) := by
  unfold SectionRelaxDeltas.mergeAdditional
  split
  · rename_i hnil
    rw [hnil, append_nil]
  · rw [raw_new]
    exact sortedByKey_perm _ _

end Srs.Relaxation
