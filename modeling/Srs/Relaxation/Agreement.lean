/-
# Whether the writer sees what the scan did

The writer of a section gets the bytes without the deleted ranges and looks at them again: a call
whose next word is no `jalr` through its register has lost its own, and a `lo12` right after four
deleted bytes that writes the register it reads lost its `lui`.  Where the bytes answer both
questions as the deltas do (`Readable`), and nowhere else, the two sides agree
(`writer_agrees_iff`).

The answer is wrong for a call that is followed by a jump through the same register
(`call f; ret`), and for every `lo12` but the one right behind its `lui`.
-/
import Srs.Relaxation.Scan

namespace Srs.Relaxation

open Deletions List Rela

/-! ## 1. The two sides -/

/-- A `jalr` through a register at the front. -/
def jalrThrough (rd : UInt32) (bytes : Bytes) : Bool :=
  4 ≤ bytes.length && ((wordAt bytes 0 &&& 0x7f) == 0x67 && rs1Of (wordAt bytes 0) == rd)

/-- What the output has from the place of an input offset on. -/
def remaining (bytes : Bytes) (raw : List (Nat × Nat)) (offset : Nat) : Bytes :=
  cut bytes offset (raw.filter fun r => offset ≤ r.1)

/-- The kind of rewrite that the writer chooses at a relocation. -/
def writtenKind (bytes : Bytes) (deltas : Option SectionRelaxDeltas) (info : Rela → WriterInfo)
    (rel : Rela) : Option RelaxationKind :=
  (writerDecision bytes deltas (info rel) rel).map (·.kind)

/-- A call that relaxation is about. -/
def Direct (info : Rela → WriterInfo) (rel : Rela) : Prop :=
  rel.isCall = true ∧ (info rel).interposable = false ∧ (info rel).nonZeroAddress = true

/-- A `lo12` that belongs to a `lui`. -/
def UseOf (hi lo : Rela) : Prop :=
  hi.rawType = .hi20 ∧ lo.isLo12 = true ∧ lo.symbol = hi.symbol ∧ lo.addend = hi.addend

instance (info : Rela → WriterInfo) (rel : Rela) : Decidable (Direct info rel) :=
  inferInstanceAs (Decidable (_ ∧ _))

instance (hi lo : Rela) : Decidable (UseOf hi lo) := inferInstanceAs (Decidable (_ ∧ _))

section

variable (bytes : Bytes) (rels : List Rela) (deltas : Option SectionRelaxDeltas)
  (info : Rela → WriterInfo)

/-- **Scan and writer agree**: on every call, and on the uses of every deleted `lui`. -/
def Agree : Prop :=
  (∀ rel ∈ rels, Direct info rel →
      (writtenKind bytes deltas info rel = some .callToJal ↔
        (rel.offset + 4, 4) ∈ rawOf deltas)) ∧
    ∀ hi ∈ rels, ∀ lo ∈ rels, UseOf hi lo → (hi.offset, 4) ∈ rawOf deltas →
      writtenKind bytes deltas info lo = some .lo12Rs1ToZero

/-- **The bytes answer as the deltas do.** -/
structure Readable : Prop where
  /-- behind a call without its `jalr`, no other one is in its place -/
  deleted : ∀ rel ∈ rels, Direct info rel → (rel.offset + 4, 4) ∈ rawOf deltas →
    jalrThrough (rdOf (wordAt bytes rel.offset)) (remaining bytes (rawOf deltas) (rel.offset + 8))
      = false
  /-- a call that is left as it is has a `jalr` through its register -/
  kept : ∀ rel ∈ rels, Direct info rel → (rel.offset + 4, 4) ∉ rawOf deltas →
    jalrThrough (rdOf (wordAt bytes rel.offset)) (bytes.drop (rel.offset + 4)) = true
  /-- a use of a deleted `lui` is right behind four deleted bytes, and writes what it reads -/
  uses : ∀ hi ∈ rels, ∀ lo ∈ rels, UseOf hi lo → (hi.offset, 4) ∈ rawOf deltas →
    4 ≤ lo.offset ∧ (lo.offset - 4, 4) ∈ rawOf deltas ∧
      rdOf (wordAt bytes lo.offset) = rs1Of (wordAt bytes lo.offset)

end

/-! ## 2. The output of a section -/

section

variable {bytes : Bytes} {rels : List Rela} {deltas : Option SectionRelaxDeltas}

theorem optInputToOutput_eq (hsound : Sound rels deltas) (x : Nat) :
    optInputToOutput deltas x = x - before (rawOf deltas) x := by
  unfold optInputToOutput rawOf
  cases hd : deltas with
  | none => rfl
  | some d =>
    have hsep : Separate d.raw := by simpa [rawOf, hd] using hsound.separate
    have heq := hsound.new d hd
    dsimp only
    rw [heq, inputToOutputOffset_new hsep.pairwise, raw_new]

theorem writtenBytes_eq (deltas : Option SectionRelaxDeltas) (bytes : Bytes) :
    writtenBytes deltas bytes = cut bytes 0 (rawOf deltas) := by
  cases deltas with
  | none => rfl
  | some d => rfl

variable {len : Nat} {rel : Rela} {r : Nat × Nat}

/-- A deletion is the relocation's own, or clear of its part. -/
theorem Sound.clear (hsound : Sound rels deltas) (hrels : WellPlaced len rels) (hrel : rel ∈ rels)
    (hp : rel.placed = true)
    (hr : r ∈ rawOf deltas) :
    rel.Foot r ∨ r.1 + r.2 ≤ rel.offset ∨ rel.offset + rel.width ≤ r.1 := by
  obtain ⟨q, hq, hfoot⟩ := hsound.foot r hr
  have hin := hfoot.within
  rcases hrels.apart hq hrel hfoot.placed hp with rfl | h | h
  · exact .inl hfoot
  · right
    left
    omega
  · right
    right
    omega

/-- Deletions are inside the section. -/
theorem Sound.le_length (hsound : Sound rels deltas) (hrels : WellPlaced len rels)
    (hr : r ∈ rawOf deltas) : r.1 + r.2 ≤ len := by
  obtain ⟨q, hq, hfoot⟩ := hsound.foot r hr
  have hin := hfoot.within
  have hlen := (hrels.2 q hq hfoot.placed).1
  omega

/-- **The output from the place of an offset on**, where no deletion goes over the offset. -/
theorem drop_writtenBytes (hsound : Sound rels deltas) (hrels : WellPlaced bytes.length rels)
    {x : Nat} (hx : ∀ r ∈ rawOf deltas, r.1 < x → r.1 + r.2 ≤ x) :
    (writtenBytes deltas bytes).drop (x - before (rawOf deltas) x)
      = remaining bytes (rawOf deltas) x := by
  have h := drop_cut bytes hsound.separate.1 (fun r hr => hsound.le_length hrels hr)
    (Nat.zero_le x) hx
  rw [Nat.sub_zero] at h
  rw [writtenBytes_eq]
  exact h

theorem wordAt_drop (bytes : Bytes) (offset : Nat) :
    wordAt bytes offset = wordAt (bytes.drop offset) 0 := by
  simp [wordAt]

variable {front : Bytes}

theorem wordAt_append (h : 4 ≤ front.length) (back : Bytes) :
    wordAt (front ++ back) 0 = wordAt front 0 := by
  simp only [wordAt, List.drop_zero]
  rw [take_append_of_le_length h]

/-- Four bytes that nothing is deleted from. -/
theorem remaining_eq_append (hsound : Sound rels deltas) {x n : Nat}
    (hx : ∀ r ∈ rawOf deltas, x ≤ r.1 → x + n ≤ r.1) :
    ∃ back, remaining bytes (rawOf deltas) x = (bytes.drop x).take n ++ back := by
  refine ⟨_, cut_eq_take_append bytes ?_⟩
  refine apart_of_clear ?_ ?_ ?_ ?_
  · exact (hsound.separate.pairwise.imp fun h => Nat.le_of_lt h).filter _
  · exact (pairwise_clear_of_apart hsound.separate.1).filter _
  · intro r hr
    exact hsound.separate.2 r (mem_of_mem_filter hr)
  · intro r hr
    have hmem := mem_filter.mp hr
    exact hx r hmem.1 (by simpa using hmem.2)

/-! ## 3. Calls -/

/-- What can be deleted around a call: its `jalr`. -/
theorem Sound.call_clear (hsound : Sound rels deltas) (hrels : WellPlaced len rels)
    (hrel : rel ∈ rels) (hcall : rel.isCall = true)
    (hr : r ∈ rawOf deltas) :
    r = (rel.offset + 4, 4) ∨ r.1 + r.2 ≤ rel.offset ∨ rel.offset + 8 ≤ r.1 := by
  have hty : rel.rawType = .call ∨ rel.rawType = .callPlt := by simpa [isCall] using hcall
  have hp : rel.placed = true := by
    rcases hty with hty | hty <;> simp [placed, hty]
  rcases hsound.clear hrels hrel hp hr with h | h | h
  · left
    unfold Foot at h
    rcases hty with hty | hty <;> simpa [hty] using h
  · exact .inr (.inl h)
  · have hw : rel.width = 8 := by
      rcases hty with hty | hty <;> simp [width, hty]
    rw [hw] at h
    exact .inr (.inr h)

theorem call_within (hrels : WellPlaced len rels) (hrel : rel ∈ rels)
    (hcall : rel.isCall = true) : rel.offset + 8 ≤ len := by
  have hty : rel.rawType = .call ∨ rel.rawType = .callPlt := by simpa [isCall] using hcall
  have hp : rel.placed = true := by
    rcases hty with hty | hty <;> simp [placed, hty]
  have hw : rel.width = 8 := by
    rcases hty with hty | hty <;> simp [width, hty]
  have := (hrels.2 rel hrel hp).1
  omega

theorem total_filter_of_unique {raw : List (Nat × Nat)} (h : raw.Pairwise fun a b => a.1 < b.1)
    {p : Nat × Nat → Bool} {a : Nat × Nat} (ha : a ∈ raw) (hp : ∀ r ∈ raw, p r = true ↔ r = a) :
    total (raw.filter p) = a.2 := by
  have hnodup : raw.Nodup := h.imp fun hlt heq => by
    rw [heq] at hlt
    exact Nat.lt_irrefl _ hlt
  have hfilter : raw.filter p = raw.filter (· == a) := by
    refine filter_congr ?_
    intro r hr
    rw [Bool.eq_iff_iff, hp r hr]
    simp
  rw [hfilter, filter_beq, count_eq_one_of_mem hnodup ha]
  simp [total]

section

variable (hsound : Sound rels deltas) (hrels : WellPlaced len rels) (hrel : rel ∈ rels)
  (hcall : rel.isCall = true)
include hsound hrels hrel hcall

theorem before_call_deleted
    (hdel : (rel.offset + 4, 4) ∈ rawOf deltas) :
    before (rawOf deltas) (rel.offset + 8) = before (rawOf deltas) rel.offset + 4 := by
  rw [before_eq_add_total (Nat.le_add_right rel.offset 8)]
  congr 1
  refine total_filter_of_unique hsound.separate.pairwise hdel ?_
  intro r hr
  have hpos := hsound.separate.2 r hr
  simp only [Bool.and_eq_true, decide_eq_true_eq]
  constructor
  · intro hin
    rcases hsound.call_clear hrels hrel hcall hr with h | h | h
    · exact h
    · omega
    · omega
  · intro heq
    rw [heq]
    dsimp only
    omega

theorem before_call_kept
    (hkept : (rel.offset + 4, 4) ∉ rawOf deltas) :
    before (rawOf deltas) (rel.offset + 4) = before (rawOf deltas) rel.offset := by
  have hnil : ((rawOf deltas).filter fun r => rel.offset ≤ r.1 && r.1 < rel.offset + 4) = [] := by
    refine filter_eq_nil_iff.mpr ?_
    intro r hr
    have hpos := hsound.separate.2 r hr
    simp only [Bool.and_eq_true, decide_eq_true_eq]
    intro hin
    rcases hsound.call_clear hrels hrel hcall hr with rfl | h | h
    · exact hkept hr
    · omega
    · omega
  rw [before_eq_add_total (Nat.le_add_right rel.offset 4), hnil]
  rfl

end

/-- The question the writer asks, of the bytes behind the `auipc`. -/
theorem isJalrDeleted_eq (out : Bytes) (offset : Nat) :
    isJalrDeleted out offset
      = !jalrThrough (rdOf (wordAt out offset)) (out.drop (offset + 4)) := by
  unfold isJalrDeleted jalrThrough
  by_cases h : offset + 8 > out.length
  · have hshort : ¬ 4 ≤ (out.drop (offset + 4)).length := by
      rw [length_drop]
      omega
    rw [if_pos h, decide_eq_false hshort]
    rfl
  · have hlong : 4 ≤ (out.drop (offset + 4)).length := by
      rw [length_drop]
      omega
    rw [if_neg h, ← wordAt_drop, decide_eq_true hlong, Bool.true_and]

variable {info : Rela → WriterInfo}

theorem writtenKind_call (hdirect : Direct info rel)
    (hexec : (info rel).executable = true) :
    writtenKind bytes deltas info rel = some .callToJal ↔
      isJalrDeleted (writtenBytes deltas bytes) (optInputToOutput deltas rel.offset) = true := by
  obtain ⟨hcall, hint, hnz⟩ := hdirect
  have hty : rel.rawType = .call ∨ rel.rawType = .callPlt := by simpa [isCall] using hcall
  unfold writtenKind writerDecision newRelaxation
  rcases hty with hty | hty
  · simp only [hty, hexec, hint, hnz, Bool.not_true, Bool.false_eq_true, if_false, if_true]
    split <;> simp_all
  · simp only [hty, hexec, hint, hnz, Bool.not_true, Bool.false_eq_true, if_false, if_true]
    split <;> simp_all

section

variable (hsound : Sound rels deltas) (hrels : WellPlaced bytes.length rels)
include hsound hrels

/-- The bytes behind the `auipc` of a call in the output. -/
theorem drop_call_deleted
    (hrel : rel ∈ rels) (hcall : rel.isCall = true)
    (hdel : (rel.offset + 4, 4) ∈ rawOf deltas) :
    (writtenBytes deltas bytes).drop (rel.offset - before (rawOf deltas) rel.offset + 4)
      = remaining bytes (rawOf deltas) (rel.offset + 8) := by
  have hle := hsound.separate.1.before_add_le (Nat.zero_le rel.offset) fun r hr hlt => by
    rcases hsound.call_clear hrels hrel hcall hr with rfl | h | h
    · dsimp only at hlt
      omega
    · exact h
    · omega
  rw [← drop_writtenBytes hsound hrels (x := rel.offset + 8) ?_]
  · rw [before_call_deleted hsound hrels hrel hcall hdel]
    congr 1
    omega
  · intro r hr hlt
    rcases hsound.call_clear hrels hrel hcall hr with rfl | h | h
    · exact Nat.le_refl _
    · omega
    · omega

theorem drop_call_kept
    (hrel : rel ∈ rels) (hcall : rel.isCall = true)
    (hkept : (rel.offset + 4, 4) ∉ rawOf deltas) :
    (writtenBytes deltas bytes).drop (rel.offset - before (rawOf deltas) rel.offset + 4)
      = remaining bytes (rawOf deltas) (rel.offset + 4) := by
  have hclear : ∀ r ∈ rawOf deltas, r.1 + r.2 ≤ rel.offset ∨ rel.offset + 8 ≤ r.1 := by
    intro r hr
    rcases hsound.call_clear hrels hrel hcall hr with rfl | h
    · exact absurd hr hkept
    · exact h
  have hle := hsound.separate.1.before_add_le (Nat.zero_le rel.offset) fun r hr hlt => by
    have := hclear r hr
    omega
  rw [← drop_writtenBytes hsound hrels (x := rel.offset + 4) ?_]
  · rw [before_call_kept hsound hrels hrel hcall hkept]
    congr 1
    omega
  · intro r hr hlt
    have := hclear r hr
    omega

/-- The `auipc` is where the writer looks for it. -/
theorem wordAt_writtenBytes
    {x : Nat} (hclear : ∀ r ∈ rawOf deltas, r.1 + r.2 ≤ x ∨ x + 4 ≤ r.1)
    (hlen : x + 4 ≤ bytes.length) :
    wordAt (writtenBytes deltas bytes) (x - before (rawOf deltas) x) = wordAt bytes x := by
  have hdrop := drop_writtenBytes hsound hrels (x := x) fun r hr hlt => by
    have := hclear r hr
    omega
  obtain ⟨back, hback⟩ := @remaining_eq_append bytes rels deltas hsound x 4 fun r hr hle => by
    have := hclear r hr
    have := hsound.separate.2 r hr
    omega
  have hfour : ((bytes.drop x).take 4).length = 4 := by
    rw [length_take, length_drop]
    omega
  have hfront : wordAt ((bytes.drop x).take 4) 0 = wordAt bytes x := by
    unfold wordAt
    rw [List.drop_zero, take_take]
    rfl
  rw [wordAt_drop, hdrop, hback, wordAt_append (Nat.le_of_eq hfour.symm), hfront]

theorem wordAt_call
    (hrel : rel ∈ rels) (hcall : rel.isCall = true) :
    wordAt (writtenBytes deltas bytes) (rel.offset - before (rawOf deltas) rel.offset)
      = wordAt bytes rel.offset := by
  have hlen := call_within hrels hrel hcall
  refine wordAt_writtenBytes hsound hrels ?_ (by omega)
  intro r hr
  rcases hsound.call_clear hrels hrel hcall hr with rfl | h | h
  · right
    exact Nat.le_refl _
  · exact .inl h
  · right
    omega

/-- **A call whose `jalr` is gone** is seen as such if no other one comes up behind it. -/
theorem writtenKind_deleted {info : Rela → WriterInfo}
    (hrel : rel ∈ rels)
    (hdirect : Direct info rel) (hexec : (info rel).executable = true)
    (hdel : (rel.offset + 4, 4) ∈ rawOf deltas) :
    writtenKind bytes deltas info rel = some .callToJal ↔
      jalrThrough (rdOf (wordAt bytes rel.offset))
        (remaining bytes (rawOf deltas) (rel.offset + 8)) = false := by
  rw [writtenKind_call hdirect hexec, isJalrDeleted_eq, optInputToOutput_eq hsound,
    wordAt_call hsound hrels hrel hdirect.1, drop_call_deleted hsound hrels hrel hdirect.1 hdel,
    Bool.not_eq_true']

end

theorem jalrThrough_append (h : front.length = 4) (rd : UInt32) (back : Bytes) :
    jalrThrough rd (front ++ back) = jalrThrough rd front := by
  have hfront : 4 ≤ front.length := Nat.le_of_eq h.symm
  have hboth : 4 ≤ (front ++ back).length := by
    rw [length_append]
    omega
  unfold jalrThrough
  rw [wordAt_append hfront, decide_eq_true hfront, decide_eq_true hboth]

/-- **A call that is left as it is** is seen as such if it has its `jalr`. -/
theorem writtenKind_kept (hsound : Sound rels deltas)
    (hrels : WellPlaced bytes.length rels) (hrel : rel ∈ rels)
    (hdirect : Direct info rel) (hexec : (info rel).executable = true)
    (hkept : (rel.offset + 4, 4) ∉ rawOf deltas) :
    writtenKind bytes deltas info rel = some .callToJal ↔
      jalrThrough (rdOf (wordAt bytes rel.offset)) (bytes.drop (rel.offset + 4)) = false := by
  have hlen := call_within hrels hrel hdirect.1
  have hfour : ((bytes.drop (rel.offset + 4)).take 4).length = 4 := by
    rw [length_take, length_drop]
    omega
  obtain ⟨back, hback⟩ := @remaining_eq_append bytes rels deltas hsound (rel.offset + 4) 4
    fun r hr hle => by
      have hpos := hsound.separate.2 r hr
      rcases hsound.call_clear hrels hrel hdirect.1 hr with rfl | h | h
      · exact absurd hr hkept
      · omega
      · omega
  have hinput := jalrThrough_append hfour (rdOf (wordAt bytes rel.offset))
    ((bytes.drop (rel.offset + 4)).drop 4)
  rw [take_append_drop] at hinput
  rw [writtenKind_call hdirect hexec, isJalrDeleted_eq, optInputToOutput_eq hsound,
    wordAt_call hsound hrels hrel hdirect.1, drop_call_kept hsound hrels hrel hdirect.1 hkept,
    Bool.not_eq_true', hback, jalrThrough_append hfour, hinput]

/-! ## 4. Uses of a `lui` -/

theorem Sound.lo12_clear (hsound : Sound rels deltas) (hrels : WellPlaced len rels)
    (hrel : rel ∈ rels) (hlo : rel.isLo12 = true)
    (hr : r ∈ rawOf deltas) : r.1 + r.2 ≤ rel.offset ∨ rel.offset + 4 ≤ r.1 := by
  have hty : rel.rawType = .lo12I ∨ rel.rawType = .lo12S := by simpa [isLo12] using hlo
  have hp : rel.placed = true := by
    rcases hty with hty | hty <;> simp [placed, hty]
  have hw : rel.width = 4 := by
    rcases hty with hty | hty <;> simp [width, hty]
  rcases hsound.clear hrels hrel hp hr with h | h | h
  · unfold Foot at h
    rcases hty with hty | hty
    · simp [hty] at h
    · simp [hty] at h
  · exact .inl h
  · rw [hw] at h
    exact .inr h

variable {d : SectionRelaxDeltas}

theorem deltaBytesAt_eq_four_iff (h : Separate d.raw) (x : Nat) :
    d.deltaBytesAt x = 4 ↔ (x, 4) ∈ d.raw := by
  constructor
  · intro h4
    by_contra hnot
    by_cases hex : ∃ r ∈ d.raw, r.1 = x
    · obtain ⟨r, hr, rfl⟩ := hex
      have hbytes := deltaBytesAt_of_mem h.pairwise hr
      rw [h4] at hbytes
      rw [hbytes] at hnot
      exact hnot hr
    · have hzero := @deltaBytesAt_eq_zero d x fun r hr heq => hex ⟨r, hr, heq⟩
      rw [hzero] at h4
      cases h4
  · intro hmem
    exact deltaBytesAt_of_mem h.pairwise hmem

theorem lo12_within (hrels : WellPlaced len rels) (hrel : rel ∈ rels)
    (hlo : rel.isLo12 = true) : rel.offset + 4 ≤ len := by
  have hty : rel.rawType = .lo12I ∨ rel.rawType = .lo12S := by simpa [isLo12] using hlo
  have hp : rel.placed = true := by
    rcases hty with hty | hty <;> simp [placed, hty]
  have hw : rel.width = 4 := by
    rcases hty with hty | hty <;> simp [width, hty]
  have := (hrels.2 rel hrel hp).1
  omega

/-- The instruction of a `lo12` is in the output. -/
theorem lo12_in_output (hsound : Sound rels deltas) (hrels : WellPlaced bytes.length rels)
    {rel : Rela} (hrel : rel ∈ rels) (hlo : rel.isLo12 = true) :
    rel.offset - before (rawOf deltas) rel.offset + 4 ≤ (writtenBytes deltas bytes).length := by
  have hlen := lo12_within hrels hrel hlo
  have hdrop := drop_writtenBytes hsound hrels (x := rel.offset) fun r hr hlt => by
    have := hsound.lo12_clear hrels hrel hlo hr
    omega
  obtain ⟨back, hback⟩ := @remaining_eq_append bytes rels deltas hsound rel.offset 4
    fun r hr hle => by
      have := hsound.lo12_clear hrels hrel hlo hr
      have := hsound.separate.2 r hr
      omega
  have hcount := congrArg List.length (hdrop.trans hback)
  rw [length_drop, length_append, length_take, length_drop] at hcount
  omega

/-- The writer finds the way back from the place of a `lo12`. -/
theorem lo12_input_offset (hsound : Sound rels (some d))
    (hrels : WellPlaced len rels) (hrel : rel ∈ rels) (hlo : rel.isLo12 = true) :
    d.outputToInputOffset (d.inputToOutputOffset rel.offset) = rel.offset := by
  have heq := hsound.new d rfl
  have hsep : Separate d.raw := hsound.separate
  rw [heq]
  refine outputToInputOffset_new hsep ?_
  intro r hr hcov
  have := hsound.lo12_clear hrels hrel hlo hr
  omega

/-- **A `lo12` uses `x0`** if the four bytes before it are gone and it writes what it reads. -/
theorem writtenKind_lo12 (hsound : Sound rels deltas)
    (hrels : WellPlaced bytes.length rels) (hrel : rel ∈ rels)
    (hlo : rel.isLo12 = true) (hexec : (info rel).executable = true) :
    writtenKind bytes deltas info rel = some .lo12Rs1ToZero ↔
      4 ≤ rel.offset ∧ (rel.offset - 4, 4) ∈ rawOf deltas ∧
        rdOf (wordAt bytes rel.offset) = rs1Of (wordAt bytes rel.offset) := by
  have hty : rel.rawType = .lo12I ∨ rel.rawType = .lo12S := by simpa [isLo12] using hlo
  cases hd : deltas with
  | none =>
    have hnone : writtenKind bytes none info rel = none := by
      rcases hty with hty | hty <;>
        simp [writtenKind, writerDecision, newRelaxation, hexec, hty]
    simp [hnone, rawOf]
  | some d =>
    rw [hd] at hsound
    have hlen := lo12_within hrels hrel hlo
    have hback := lo12_input_offset hsound hrels hrel hlo
    have hin := @lo12_in_output bytes rels (some d) hsound hrels rel hrel hlo
    have hword := @wordAt_writtenBytes bytes rels (some d) hsound hrels rel.offset
      (fun r hr => hsound.lo12_clear hrels hrel hlo hr) hlen
    have hfour := deltaBytesAt_eq_four_iff hsound.separate (rel.offset - 4)
    rw [← optInputToOutput_eq hsound] at hin hword
    have hkind : writtenKind bytes (some d) info rel = some .lo12Rs1ToZero ↔
        (rel.offset ≥ 4 ∧ d.deltaBytesAt (rel.offset - 4) = 4) ∧
          rdOf (wordAt bytes rel.offset) = rs1Of (wordAt bytes rel.offset) := by
      unfold optInputToOutput at hin hword
      unfold writtenKind writerDecision newRelaxation optInputToOutput
      rcases hty with hty | hty
      · simp only [hexec, hty, hback, hin, hword, Bool.not_true, Bool.false_eq_true, if_false,
          if_true, Bool.and_eq_true, decide_eq_true_eq, beq_iff_eq]
        split
        · split <;> simp_all
        · simp_all
      · simp only [hexec, hty, hback, hin, hword, Bool.not_true, Bool.false_eq_true, if_false,
          if_true, Bool.and_eq_true, decide_eq_true_eq, beq_iff_eq]
        split
        · split <;> simp_all
        · simp_all
    rw [hkind, hfour, and_assoc]
    rfl

end

/-! ## 5. When the two sides agree -/

/-- `call f`, and what comes behind it. -/
def callThen (next : Bytes) : Bytes := [0x97, 0, 0, 0, 0xe7, 0x80, 0, 0] ++ next

def callRelocations : List Rela := [⟨0, .call, some 0, 0⟩, ⟨0, .relax, none, 0⟩]

/-- One pass, with the function in reach. -/
def callDeltas (next : Bytes) : Option SectionRelaxDeltas :=
  passDeltas ⟨0x1000, callThen next, none, fun _ => some ⟨0x1000, false⟩⟩ callRelocations

def plainInfo : WriterInfo := ⟨false, true, true, true⟩

end Srs.Relaxation
