/-
# What a scan deletes

The scan of a section remembers the call or the `lui` it has seen and decides at the
`R_RISCV_RELAX` that follows.  Looking one relocation ahead says the same without the memory
(`scan_rawDeltas`): every relocation gives at most one range, inside the part of the section that
is its own.  So the deletions of any number of passes are sorted and do not meet
(`Passes.sound`), which is what `SectionRelaxDeltas::new` asserts of them.
-/
import Mathlib.Data.List.Pairwise
import Srs.Relaxation.RiscV

namespace Srs.Relaxation

open Deletions List Option ScanState Rela

/-! ## 1. The place of a relocation -/

namespace Rela

/-- Relocations that a part of the section belongs to. -/
def placed (rel : Rela) : Bool :=
  match rel.rawType with
  | .relax | .other _ => false
  | _ => true

/-- The size of that part: two instructions, one, or the NOPs. -/
def width (rel : Rela) : Nat :=
  match rel.rawType with
  | .call | .callPlt => 8
  | .hi20 | .lo12I | .lo12S => 4
  | .align => asU64 rel.addend
  | .relax | .other _ => 0

def isCall (rel : Rela) : Bool := rel.rawType = .call || rel.rawType = .callPlt

def isLo12 (rel : Rela) : Bool := rel.rawType = .lo12I || rel.rawType = .lo12S

/-- The ranges that a relocation can have deleted. -/
def Foot (rel : Rela) (r : Nat × Nat) : Prop :=
  match rel.rawType with
  | .call | .callPlt => r = (rel.offset + 4, 4)
  | .hi20 => r = (rel.offset, 4) ∨ r = (rel.offset + 2, 2)
  | .align => r.1 = rel.offset ∧ 0 < r.2 ∧ r.2 ≤ asU64 rel.addend
  | _ => False

end Rela

/-- The relocations of a section as an assembler writes them: in the order of their offsets, about
different parts of the section, and with alignments below 4 GiB. -/
def WellPlaced (len : Nat) (relocations : List Rela) : Prop :=
  (relocations.Pairwise fun a b => a.placed → b.placed → a.offset + a.width ≤ b.offset) ∧
    ∀ rel ∈ relocations, rel.placed →
      rel.offset + rel.width ≤ len ∧ (rel.rawType = .align → rel.width < 2 ^ 32)

instance (len : Nat) (relocations : List Rela) : Decidable (WellPlaced len relocations) :=
  inferInstanceAs (Decidable (_ ∧ _))

variable {rel : Rela} {r : Nat × Nat} {len : Nat} {env : ScanInput} {q : Rela} {st : ScanState}
  {cum : Nat} {rels : List Rela}

theorem Rela.Foot.placed (h : rel.Foot r) : rel.placed = true := by
  unfold Foot at h
  unfold Rela.placed
  split at h <;> simp_all

theorem Rela.Foot.pos (h : rel.Foot r) : 0 < r.2 := by
  unfold Foot at h
  split at h
  · rw [h]
    exact Nat.succ_pos _
  · rw [h]
    exact Nat.succ_pos _
  · rcases h with h | h
    · rw [h]
      exact Nat.succ_pos _
    · rw [h]
      exact Nat.succ_pos _
  · exact h.2.1
  · exact h.elim

/-- A range is inside the part of its relocation. -/
theorem Rela.Foot.within (h : rel.Foot r) :
    rel.offset ≤ r.1 ∧ r.1 + r.2 ≤ rel.offset + rel.width := by
  unfold Foot at h
  unfold width
  split at h
  · rename_i hty
    simp only [hty, h]
    omega
  · rename_i hty
    simp only [hty, h]
    omega
  · rename_i hty
    simp only [hty]
    rcases h with h | h
    · rw [h]
      exact ⟨Nat.le_refl _, Nat.le_refl _⟩
    · rw [h]
      dsimp only
      omega
  · rename_i hty
    simp only [hty]
    omega
  · exact h.elim

theorem WellPlaced.tail {len : Nat} {rel : Rela} {rest : List Rela}
    (h : WellPlaced len (rel :: rest)) : WellPlaced len rest :=
  ⟨(pairwise_cons.mp h.1).2, fun q hq => h.2 q (mem_cons_of_mem rel hq)⟩

/-- Two relocations are about different parts, or they are the same. -/
theorem WellPlaced.apart {relocations : List Rela} (h : WellPlaced len relocations)
    {a b : Rela} (ha : a ∈ relocations) (hb : b ∈ relocations) (hpa : a.placed = true)
    (hpb : b.placed = true) :
    a = b ∨ a.offset + a.width ≤ b.offset ∨ b.offset + b.width ≤ a.offset := by
  by_cases hab : a = b
  · exact .inl hab
  · refine .inr ?_
    have hsymm : relocations.Pairwise fun a b => a.placed → b.placed →
        a.offset + a.width ≤ b.offset ∨ b.offset + b.width ≤ a.offset :=
      h.1.imp fun hq hpa hpb => .inl (hq hpa hpb)
    have : Std.Symm fun a b : Rela => a.placed → b.placed →
        a.offset + a.width ≤ b.offset ∨ b.offset + b.width ≤ a.offset :=
      ⟨fun _ _ hq hpa hpb => (hq hpb hpa).symm⟩
    exact hsymm.forall ha hb hab hpa hpb

/-! ## 2. One relocation ahead -/

/-- A `R_RISCV_RELAX` for this relocation comes next. -/
def relaxFollows (rel : Rela) (next : Option Rela) : Bool :=
  match next with
  | some n => n.rawType = .relax && n.offset = rel.offset
  | none => false

/-- Whether a call is short enough to lose its `jalr`. -/
def callFits (env : ScanInput) (rel : Rela) : Bool :=
  match rel.symbol.bind env.resolveSymbol with
  | some info => !info.isInterposable && distanceFitsJal (callDistance env info rel.offset)
  | none => false

/-- What a `lui` loses: itself, its upper half, or nothing. -/
def hi20Range (env : ScanInput) (rel : Rela) : Option (Nat × Nat) :=
  match rel.symbol.bind env.resolveSymbol with
  | some info =>
    let value := asU64 ((info.outputAddress : Int) + rel.addend)
    if info.isInterposable || decide (env.sectionBytes.length < rel.offset + 4) then none
    else if hi20IsZero value then some (rel.offset, 4)
    else if rdValidForClui (rdOf (wordAt env.sectionBytes rel.offset)) && hi20FitsClui value then
      some (rel.offset + 2, 2)
    else none
  | none => none

/-- What the NOPs of an alignment lose, after `cum` bytes were deleted before them. -/
def alignRange (env : ScanInput) (cum : Nat) (rel : Rela) : Option (Nat × Nat) :=
  let addend := asU64 rel.addend
  let p := env.sectionOutputAddress + (rel.offset - env.existingCum rel.offset - cum)
  let desired := nextMultipleOf p (nextPowerOfTwo addend)
  if addend = 0 || env.hasDeltaAt rel.offset then none
  else if p + addend > desired then some (rel.offset, (p + addend - desired) % 2 ^ 32)
  else none

/-- The range a relocation gives, when the next one is known. -/
def emit (env : ScanInput) (cum : Nat) (rel : Rela) (next : Option Rela) : Option (Nat × Nat) :=
  match rel.rawType with
  | .align => alignRange env cum rel
  | .call | .callPlt =>
    if relaxFollows rel next && !env.hasDeltaAt (rel.offset + 4) && callFits env rel then
      some (rel.offset + 4, 4)
    else none
  | .hi20 =>
    if relaxFollows rel next && !(env.hasDeltaAt rel.offset || env.hasDeltaAt (rel.offset + 2)) then
      hi20Range env rel
    else none
  | _ => none

/-- The ranges of a list of relocations. -/
def ranges (env : ScanInput) : Nat → List Rela → List (Nat × Nat)
  | _, [] => []
  | cum, rel :: rest =>
    match emit env cum rel rest.head? with
    | some r => r :: ranges env (cum + r.2) rest
    | none => ranges env cum rest

/-- The call or the `lui` that the scan has in mind after a relocation. -/
def Remembers (st : ScanState) (prev : Option Rela) : Prop :=
  match prev with
  | some rel =>
    match rel.rawType with
    | .call | .callPlt =>
      st.prevCall = rel.symbol.map (fun symIdx => (rel.offset, symIdx)) ∧ st.prevHi20 = none
    | .hi20 =>
      st.prevHi20 = rel.symbol.map (fun symIdx => (rel.offset, symIdx, rel.addend)) ∧
        st.prevCall = none
    | _ => st.prevCall = none ∧ st.prevHi20 = none
  | none => st.prevCall = none ∧ st.prevHi20 = none

/-- What is still to come for the relocation in mind. -/
def pending (env : ScanInput) (prev next : Option Rela) : Option (Nat × Nat) :=
  match prev with
  | some rel => if rel.rawType = .align then none else emit env 0 rel next
  | none => none

/-- The state after the ranges of one relocation. -/
def ScanState.pushed (st : ScanState) (r : Option (Nat × Nat)) : List (Nat × Nat) × Nat :=
  (st.rawDeltas ++ r.toList, st.newCumulativeDelta + (r.map (·.2)).getD 0)

variable {prev : Option Rela}

theorem pending_of_not_relax
    (h : rel.rawType ≠ .relax) : pending env prev (some rel) = none := by
  have hf : ∀ q : Rela, relaxFollows q (some rel) = false := fun q => by simp [relaxFollows, h]
  unfold pending
  split
  · split
    · rfl
    · rename_i q hq
      unfold emit
      split
      · contradiction
      all_goals simp [hf]
  · rfl

theorem ScanState.pushed_none (st : ScanState) :
    st.pushed none = (st.rawDeltas, st.newCumulativeDelta) := by
  simp [pushed]

theorem ScanState.pushed_push (st : ScanState) (offset bytes : Nat) :
    ((st.push offset bytes).rawDeltas, (st.push offset bytes).newCumulativeDelta)
      = st.pushed (some (offset, bytes)) := by
  simp [pushed, push]

theorem scanRelax_forgets (env : ScanInput) (st : ScanState) (rel : Rela) :
    (scanRelax env st rel).prevCall = none ∧ (scanRelax env st rel).prevHi20 = none := by
  unfold scanRelax
  repeat' split
  all_goals exact ⟨rfl, rfl⟩

/-- What a call pushes at its `R_RISCV_RELAX`. -/
theorem scanCall_pushed (env : ScanInput) (st : ScanState) (rel : Rela) {symIdx : Nat}
    (h : rel.symbol = some symIdx) :
    ((scanCall env st rel.offset symIdx).rawDeltas,
        (scanCall env st rel.offset symIdx).newCumulativeDelta)
      = st.pushed (if callFits env rel then some (rel.offset + 4, 4) else none) := by
  unfold scanCall callFits
  rw [h, bind_some]
  cases env.resolveSymbol symIdx with
  | none => exact (st.pushed_none).symm
  | some info =>
    dsimp only
    by_cases hi : info.isInterposable = true
    · simp [hi, pushed_none]
    · by_cases hd : distanceFitsJal (callDistance env info rel.offset) = true
      · simp only [hi, hd, Bool.not_false, Bool.and_self, if_true, Bool.false_eq_true, if_false]
        exact st.pushed_push _ _
      · simp [hi, hd, pushed_none, unrelaxed]

/-- What a `lui` pushes. -/
theorem scanHi20_pushed (env : ScanInput) (st : ScanState) (rel : Rela) {info : RelaxSymbolInfo}
    (h : rel.symbol.bind env.resolveSymbol = some info) (hi : info.isInterposable = false) :
    ((scanHi20 env st rel.offset rel.addend info).rawDeltas,
        (scanHi20 env st rel.offset rel.addend info).newCumulativeDelta)
      = st.pushed (hi20Range env rel) := by
  unfold scanHi20 hi20Range
  rw [h]
  dsimp only
  by_cases hlen : rel.offset + 4 ≤ env.sectionBytes.length
  · have hcond : (info.isInterposable || decide (env.sectionBytes.length < rel.offset + 4)) = false := by
      simpa [hi] using hlen
    rw [if_pos hlen, hcond, if_neg Bool.false_ne_true]
    by_cases hz : hi20IsZero (asU64 ((info.outputAddress : Int) + rel.addend)) = true
    · rw [if_pos hz, if_pos hz]
      exact st.pushed_push _ _
    · rw [if_neg hz, if_neg hz]
      by_cases hv : rdValidForClui (rdOf (wordAt env.sectionBytes rel.offset)) = true
      · by_cases hf : hi20FitsClui (asU64 ((info.outputAddress : Int) + rel.addend)) = true
        · rw [if_pos hv, if_pos hf, hv, hf]
          exact st.pushed_push _ _
        · simp [hv, hf, pushed_none, unrelaxed]
      · simp [hv, pushed_none]
  · have hcond : (info.isInterposable || decide (env.sectionBytes.length < rel.offset + 4)) = true := by
      simpa [hi] using hlen
    rw [if_neg hlen, hcond, if_pos rfl]
    exact (st.pushed_none).symm

theorem relaxFollows_relax (h : rel.rawType = .relax) :
    relaxFollows q (some rel) = decide (rel.offset = q.offset) := by
  simp [relaxFollows, h]

/-- The arm of a call in mind. -/
theorem scanRelax_call (hq : q.isCall = true)
    (hc : st.prevCall = q.symbol.map fun symIdx => (q.offset, symIdx)) (hh : st.prevHi20 = none)
    (h : rel.rawType = .relax) :
    ((scanRelax env st rel).rawDeltas, (scanRelax env st rel).newCumulativeDelta)
      = st.pushed (emit env 0 q (some rel)) := by
  have hemit : emit env 0 q (some rel)
      = if callPending env rel (q.offset, 0) && callFits env q then some (q.offset + 4, 4)
        else none := by
    have hty : q.rawType = .call ∨ q.rawType = .callPlt := by simpa [isCall] using hq
    rcases hty with hty | hty
    · simp only [emit, hty, relaxFollows_relax h, callPending]
      rfl
    · simp only [emit, hty, relaxFollows_relax h, callPending]
      rfl
  rw [hemit]
  unfold scanRelax
  rw [hc, hh]
  cases hsym : q.symbol with
  | none =>
    have hfit : callFits env q = false := by simp [callFits, hsym]
    simp [hfit, pushed_none, forget]
  | some symIdx =>
    have hp : callPending env rel (q.offset, symIdx) = callPending env rel (q.offset, 0) := rfl
    rw [map_some, filter_some, hp]
    cases callPending env rel (q.offset, 0) with
    | true =>
      simp only [Bool.true_and, if_true]
      exact scanCall_pushed env st q hsym
    | false => simp [pushed_none, forget]

/-- The arm of a `lui` in mind. -/
theorem scanRelax_hi20 (hq : q.rawType = .hi20)
    (hh : st.prevHi20 = q.symbol.map fun symIdx => (q.offset, symIdx, q.addend))
    (hc : st.prevCall = none) (h : rel.rawType = .relax) :
    ((scanRelax env st rel).rawDeltas, (scanRelax env st rel).newCumulativeDelta)
      = st.pushed (emit env 0 q (some rel)) := by
  have hemit : emit env 0 q (some rel)
      = if hi20Pending env rel (q.offset, 0, 0) then hi20Range env q else none := by
    simp only [emit, hq, relaxFollows_relax h, hi20Pending]
    rfl
  rw [hemit]
  unfold scanRelax
  rw [hc, hh]
  cases hsym : q.symbol with
  | none =>
    have hrange : hi20Range env q = none := by simp [hi20Range, hsym]
    simp [hrange, pushed_none, forget]
  | some symIdx =>
    have hp : hi20Pending env rel (q.offset, symIdx, q.addend)
        = hi20Pending env rel (q.offset, 0, 0) := rfl
    rw [map_some, filter_some, hp]
    cases hi20Pending env rel (q.offset, 0, 0) with
    | true =>
      simp only [filter_none, if_true]
      cases hinfo : env.resolveSymbol symIdx with
      | none =>
        have hrange : hi20Range env q = none := by simp [hi20Range, hsym, hinfo]
        simp [hrange, pushed_none, forget]
      | some info =>
        have hbind : q.symbol.bind env.resolveSymbol = some info := by rw [hsym]; exact hinfo
        cases hi : info.isInterposable with
        | true =>
          have hrange : hi20Range env q = none := by simp [hi20Range, hbind, hi]
          simp [hrange, hi, pushed_none, forget]
        | false =>
          simp only [hi, Bool.false_eq_true, if_false]
          exact scanHi20_pushed env st q hbind hi
    | false => simp [pushed_none, forget]

/-- What the `R_RISCV_RELAX` arm pushes. -/
theorem scanRelax_pushed
    (hmem : Remembers st prev) (h : rel.rawType = .relax) :
    ((scanRelax env st rel).rawDeltas, (scanRelax env st rel).newCumulativeDelta)
      = st.pushed (pending env prev (some rel)) := by
  have hnone : st.prevCall = none → st.prevHi20 = none →
      ((scanRelax env st rel).rawDeltas, (scanRelax env st rel).newCumulativeDelta)
        = st.pushed none := by
    intro hc hh
    simp [scanRelax, hc, hh, pushed_none, forget]
  cases prev with
  | none => exact hnone hmem.1 hmem.2
  | some q =>
    have hpend : q.rawType ≠ .align → pending env (some q) (some rel) = emit env 0 q (some rel) :=
      fun hq => if_neg hq
    unfold Remembers at hmem
    cases hty : q.rawType with
    | align =>
      simp only [hty] at hmem
      simpa [pending, hty] using hnone hmem.1 hmem.2
    | call =>
      simp only [hty] at hmem
      rw [hpend (by rw [hty]; decide)]
      exact scanRelax_call (by simp [isCall, hty]) hmem.1 hmem.2 h
    | callPlt =>
      simp only [hty] at hmem
      rw [hpend (by rw [hty]; decide)]
      exact scanRelax_call (by simp [isCall, hty]) hmem.1 hmem.2 h
    | hi20 =>
      simp only [hty] at hmem
      rw [hpend (by rw [hty]; decide)]
      exact scanRelax_hi20 hty hmem.1 hmem.2 h
    | lo12I =>
      simp only [hty] at hmem
      simpa [pending, emit, hty] using hnone hmem.1 hmem.2
    | lo12S =>
      simp only [hty] at hmem
      simpa [pending, emit, hty] using hnone hmem.1 hmem.2
    | relax =>
      simp only [hty] at hmem
      simpa [pending, emit, hty] using hnone hmem.1 hmem.2
    | other n =>
      simp only [hty] at hmem
      simpa [pending, emit, hty] using hnone hmem.1 hmem.2

theorem scanAlign_pushed (env : ScanInput) (st : ScanState) (rel : Rela) :
    ((scanAlign env st rel).rawDeltas, (scanAlign env st rel).newCumulativeDelta)
      = st.pushed (alignRange env st.newCumulativeDelta rel) := by
  unfold scanAlign alignRange
  dsimp only
  split
  · exact (st.pushed_none).symm
  · split
    · exact st.pushed_push _ _
    · exact (st.pushed_none).symm

/-- **One step**: what was in mind is settled, an alignment is settled at once, and the relocation
is in mind. -/
theorem scanStep_pushed {env : ScanInput} {st : ScanState} {prev : Option Rela}
    (hmem : Remembers st prev) (rel : Rela) :
    ((scanStep env st rel).rawDeltas, (scanStep env st rel).newCumulativeDelta)
        = st.pushed (if rel.rawType = .align then alignRange env st.newCumulativeDelta rel
          else pending env prev (some rel)) ∧
      Remembers (scanStep env st rel) (some rel) := by
  unfold scanStep Remembers
  cases hty : rel.rawType with
  | align =>
    refine ⟨?_, ?_⟩
    · rw [if_pos rfl]
      exact scanAlign_pushed env st rel
    · simp only [hty]
      unfold scanAlign
      dsimp only
      split
      · exact ⟨rfl, rfl⟩
      · split <;> exact ⟨rfl, rfl⟩
  | relax =>
    refine ⟨?_, ?_⟩
    · rw [if_neg (by decide)]
      exact scanRelax_pushed hmem hty
    · simp only [hty]
      exact scanRelax_forgets env st rel
  | call | callPlt | hi20 | lo12I | lo12S | other n =>
    have hp : pending env prev (some rel) = none := pending_of_not_relax (by rw [hty]; simp)
    rw [if_neg (by simp), hp]
    refine ⟨(st.pushed_none).symm, ?_⟩
    simp [hty, forget]

/-- The ranges from a relocation on, with that of the relocation in mind. -/
def rangesAfter (env : ScanInput) (cum : Nat) (prev : Option Rela) (rels : List Rela) :
    List (Nat × Nat) :=
  match pending env prev rels.head? with
  | some r => r :: ranges env (cum + r.2) rels
  | none => ranges env cum rels

theorem emit_cum (h : rel.rawType ≠ .align) (cum : Nat)
    (next : Option Rela) : emit env cum rel next = emit env 0 rel next := by
  unfold emit
  split
  · contradiction
  all_goals rfl

/-- A relocation other than an alignment is settled with the one after it. -/
theorem rangesAfter_of_not_align (h : rel.rawType ≠ .align) (cum : Nat) (rest : List Rela) :
    rangesAfter env cum (some rel) rest = ranges env cum (rel :: rest) := by
  have hp : pending env (some rel) rest.head? = emit env cum rel rest.head? := by
    rw [emit_cum h]
    exact if_neg h
  rw [rangesAfter, ranges, hp]

/-- An alignment is settled at once. -/
theorem ranges_align (h : rel.rawType = .align) (cum : Nat) (rest : List Rela) :
    ranges env cum (rel :: rest) = (alignRange env cum rel).toList
      ++ rangesAfter env (cum + ((alignRange env cum rel).map (·.2)).getD 0) (some rel) rest := by
  have hp : pending env (some rel) rest.head? = none := if_pos h
  have hemit : emit env cum rel rest.head? = alignRange env cum rel := by simp only [emit, h]
  rw [rangesAfter, hp, ranges, hemit]
  cases alignRange env cum rel with
  | none => rfl
  | some r => rfl

theorem foldl_scanStep (env : ScanInput) (rels : List Rela) : ∀ {st : ScanState}
    {prev : Option Rela}, Remembers st prev →
      (rels.foldl (scanStep env) st).rawDeltas
        = st.rawDeltas ++ rangesAfter env st.newCumulativeDelta prev rels := by
  induction rels with
  | nil =>
    intro st prev _
    have hp : pending env prev none = none := by
      unfold pending
      split
      · split
        · rfl
        · rename_i q hq
          unfold emit
          split
          · contradiction
          all_goals simp [relaxFollows]
      · rfl
    rw [foldl_nil, rangesAfter, head?_nil, hp]
    exact (append_nil _).symm
  | cons rel rest ih =>
    intro st prev hmem
    obtain ⟨hpush, hmem'⟩ := @scanStep_pushed env st prev hmem rel
    have hraw := congrArg Prod.fst hpush
    have hcum := congrArg Prod.snd hpush
    rw [foldl_cons, ih hmem']
    dsimp only at hraw hcum
    rw [hraw, hcum]
    by_cases hty : rel.rawType = .align
    · have hp : pending env prev (some rel) = none := pending_of_not_relax (by rw [hty]; decide)
      have hafter : rangesAfter env st.newCumulativeDelta prev (rel :: rest)
          = ranges env st.newCumulativeDelta (rel :: rest) := by
        rw [rangesAfter, head?_cons, hp]
      rw [if_pos hty, hafter, ranges_align hty, ← List.append_assoc]
      rfl
    · rw [if_neg hty, rangesAfter_of_not_align hty]
      unfold rangesAfter
      rw [head?_cons]
      cases pending env prev (some rel) with
      | none => simp [pushed]
      | some r => simp [pushed]

/-- **The scan, one relocation ahead.** -/
theorem scan_rawDeltas (env : ScanInput) (rels : List Rela) :
    (scan env rels).rawDeltas = ranges env 0 rels :=
  foldl_scanStep env rels (show Remembers .start none from ⟨rfl, rfl⟩)

/-! ## 3. The ranges of a pass -/

theorem nextPowerOfTwo_pos (n : Nat) : 0 < nextPowerOfTwo n := by
  unfold nextPowerOfTwo
  split
  · exact Nat.one_pos
  · exact Nat.two_pow_pos _

theorem le_nextMultipleOf (n : Nat) {m : Nat} (h : 0 < m) : n ≤ nextMultipleOf n m := by
  unfold nextMultipleOf
  have hdiv := Nat.div_add_mod (n + (m - 1)) m
  have hmod := Nat.mod_lt (n + (m - 1)) h
  rw [Nat.mul_comm] at hdiv
  omega

variable {next : Option Rela}

/-- A range that a relocation gives is one it can have, and new. -/
theorem emit_foot
    (hsled : rel.rawType = .align → rel.width < 2 ^ 32) (h : emit env cum rel next = some r) :
    rel.Foot r := by
  unfold emit at h
  unfold Foot
  cases hty : rel.rawType with
  | align =>
    simp only [hty, alignRange] at h
    have hw := hsled hty
    simp only [width, hty] at hw
    split at h
    · cases h
    · split at h
      · rename_i hgt
        have hle := le_nextMultipleOf (env.sectionOutputAddress
          + (rel.offset - env.existingCum rel.offset - cum))
          (nextPowerOfTwo_pos (asU64 rel.addend))
        cases h
        dsimp only
        omega
      · cases h
  | call | callPlt =>
    simp only [hty] at h
    split at h
    · cases h
      rfl
    · cases h
  | hi20 =>
    simp only [hty, hi20Range] at h
    split at h
    · split at h
      · split at h
        · cases h
        · split at h
          · cases h
            exact .inl rfl
          · split at h
            · cases h
              exact .inr rfl
            · cases h
      · cases h
    · cases h
  | lo12I | lo12S | relax | other n => simp [hty] at h

/-- A relocation gives no range when it has one. -/
theorem emit_fresh {q : Nat × Nat}
    (h : emit env cum rel next = some r) (hq : rel.Foot q) : env.hasDeltaAt q.1 = false := by
  unfold emit at h
  unfold Foot at hq
  cases hty : rel.rawType with
  | align =>
    simp only [hty, alignRange] at h hq
    split at h
    · cases h
    · rename_i hnot
      rw [hq.1]
      simp only [Bool.or_eq_true, decide_eq_true_eq, not_or, Bool.not_eq_true] at hnot
      exact hnot.2
  | call | callPlt =>
    simp only [hty] at h hq
    split at h
    · rename_i hc
      simp only [Bool.and_eq_true, Bool.not_eq_true'] at hc
      rw [hq]
      exact hc.1.2
    · cases h
  | hi20 =>
    simp only [hty] at h hq
    split at h
    · rename_i hc
      simp only [Bool.and_eq_true, Bool.not_eq_true', Bool.or_eq_false_iff] at hc
      rcases hq with hq | hq
      · rw [hq]
        exact hc.2.1
      · rw [hq]
        exact hc.2.2
    · cases h
  | lo12I | lo12S | relax | other n => simp [hty] at h

/-- Where a range comes from. -/
theorem mem_ranges (rels : List Rela) : ∀ {cum : Nat},
    r ∈ ranges env cum rels → ∃ (before after : List Rela) (rel : Rela) (c : Nat),
      rels = before ++ rel :: after ∧ emit env c rel after.head? = some r := by
  induction rels with
  | nil =>
    intro cum h
    exact absurd h not_mem_nil
  | cons rel rest ih =>
    intro cum h
    have hlater : ∀ {c : Nat}, r ∈ ranges env c rest →
        ∃ (before after : List Rela) (q : Rela) (c : Nat),
          rel :: rest = before ++ q :: after ∧ emit env c q after.head? = some r := by
      intro c hc
      obtain ⟨before, after, q, c, hsplit, hemit⟩ := ih hc
      exact ⟨rel :: before, after, q, c, by rw [hsplit]; rfl, hemit⟩
    rw [ranges] at h
    cases hemit : emit env cum rel rest.head? with
    | none =>
      rw [hemit] at h
      exact hlater h
    | some q =>
      rw [hemit] at h
      rcases mem_cons.mp h with rfl | h
      · exact ⟨[], rest, rel, cum, rfl, hemit⟩
      · exact hlater h

theorem foot_of_mem_ranges (hrels : WellPlaced len rels) (h : r ∈ ranges env cum rels) :
    ∃ rel ∈ rels, rel.Foot r ∧ ∀ q, rel.Foot q → env.hasDeltaAt q.1 = false := by
  obtain ⟨before, after, rel, c, hsplit, hemit⟩ := mem_ranges rels h
  have hmem : rel ∈ rels := by
    rw [hsplit]
    exact mem_append_right _ mem_cons_self
  have hsled : rel.rawType = .align → rel.width < 2 ^ 32 := fun hty =>
    (hrels.2 rel hmem (by simp [placed, hty])).2 hty
  exact ⟨rel, hmem, emit_foot hsled hemit, fun q hq => emit_fresh hemit hq⟩

/-- Two ranges are clear of each other. -/
def Clear (a b : Nat × Nat) : Prop := a.1 + a.2 ≤ b.1 ∨ b.1 + b.2 ≤ a.1

instance : Std.Symm Clear := ⟨fun _ _ h => h.symm⟩

variable {raw : List (Nat × Nat)}

theorem pairwise_clear_of_apart : ∀ {pos : Nat}, Apart pos raw →
    raw.Pairwise Clear := by
  induction raw with
  | nil => exact fun _ => List.Pairwise.nil
  | cons r rest ih =>
    intro pos h
    exact pairwise_cons.mpr ⟨fun q hq => .inl (h.2.le q hq), ih h.2⟩

/-- Ranges that are sorted and do not meet are apart. -/
theorem apart_of_clear : ∀ {pos : Nat},
    raw.Pairwise (fun a b => a.1 ≤ b.1) → raw.Pairwise Clear → (∀ r ∈ raw, 0 < r.2) →
      (∀ r ∈ raw, pos ≤ r.1) → Apart pos raw := by
  induction raw with
  | nil =>
    intro pos _ _ _ _
    trivial
  | cons r rest ih =>
    intro pos hsorted hclear hpos hle
    obtain ⟨hs, hsorted⟩ := pairwise_cons.mp hsorted
    obtain ⟨hd, hclear⟩ := pairwise_cons.mp hclear
    refine ⟨hle r mem_cons_self, ih hsorted hclear
      (fun q hq => hpos q (mem_cons_of_mem r hq)) ?_⟩
    intro q hq
    have hrq := hs q hq
    have hq0 := hpos q (mem_cons_of_mem r hq)
    rcases hd q hq with h | h
    · exact h
    · omega

/-- The ranges of a pass come in the order of the relocations. -/
theorem apart_ranges {env : ScanInput} {len : Nat} (rels : List Rela) : ∀ {pos cum : Nat},
    WellPlaced len rels → (∀ rel ∈ rels, rel.placed = true → pos ≤ rel.offset) →
      Apart pos (ranges env cum rels) := by
  induction rels with
  | nil =>
    intro pos cum _ _
    trivial
  | cons rel rest ih =>
    intro pos cum h hle
    rw [ranges]
    cases hemit : emit env cum rel rest.head? with
    | none => exact ih h.tail fun q hq => hle q (mem_cons_of_mem rel hq)
    | some r =>
      have hsled : rel.rawType = .align → rel.width < 2 ^ 32 := fun hty =>
        (h.2 rel mem_cons_self (by simp [placed, hty])).2 hty
      have hfoot := emit_foot hsled hemit
      have hin := hfoot.within
      refine ⟨Nat.le_trans (hle rel mem_cons_self hfoot.placed) hin.1, ih h.tail ?_⟩
      intro q hq hpq
      exact Nat.le_trans hin.2 ((pairwise_cons.mp h.1).1 q hq hfoot.placed hpq)

/-! ## 4. Any number of passes -/

/-- The deletions of a section. -/
def rawOf (deltas : Option SectionRelaxDeltas) : List (Nat × Nat) :=
  match deltas with
  | some d => d.raw
  | none => []

/-- The deltas of a section after some passes.  The addresses are different in every pass. -/
inductive Passes (bytes : Bytes) (relocations : List Rela) : Option SectionRelaxDeltas → Prop where
  | none : Passes bytes relocations none
  | pass {deltas : Option SectionRelaxDeltas} (h : Passes bytes relocations deltas)
      (address : Nat) (resolveSymbol : Nat → Option RelaxSymbolInfo) :
      Passes bytes relocations (passDeltas ⟨address, bytes, deltas, resolveSymbol⟩ relocations)

/-- What holds of the deltas of a section. -/
structure Sound (relocations : List Rela) (deltas : Option SectionRelaxDeltas) : Prop where
  new : ∀ d, deltas = some d → d = .new d.raw
  separate : Separate (rawOf deltas)
  foot : ∀ r ∈ rawOf deltas, ∃ rel ∈ relocations, rel.Foot r

theorem hasDeltaAt_rawOf {offset : Nat} :
    env.hasDeltaAt offset = true ↔ ∃ r ∈ rawOf env.existingDeltas, r.1 = offset := by
  unfold ScanInput.hasDeltaAt rawOf
  cases env.existingDeltas with
  | none => simp
  | some d => exact hasDeltaAt_iff

/-- A new range meets none of the old ones. -/
theorem clear_new (hrels : WellPlaced len rels)
    (hsound : Sound rels env.existingDeltas) {q : Nat × Nat}
    (hr : r ∈ rawOf env.existingDeltas) (hq : q ∈ ranges env 0 rels) : Clear r q := by
  obtain ⟨a, ha, hfoot⟩ := hsound.foot r hr
  obtain ⟨b, hb, hfoot', hfresh⟩ := foot_of_mem_ranges hrels hq
  have hra := hfoot.within
  have hqb := hfoot'.within
  rcases hrels.apart ha hb hfoot.placed hfoot'.placed with rfl | h | h
  · have := hfresh r hfoot
    have hold : env.hasDeltaAt r.1 = true := hasDeltaAt_rawOf.mpr ⟨r, hr, rfl⟩
    rw [hold] at this
    cases this
  · left
    omega
  · right
    omega

/-- The deletions after a pass: the old ones and the new ones. -/
theorem rawOf_passDeltas (env : ScanInput) (rels : List Rela) :
    (rawOf (passDeltas env rels)).Perm (rawOf env.existingDeltas ++ ranges env 0 rels) := by
  have hraw : (collectRelaxationDeltas env rels).1 = ranges env 0 rels := scan_rawDeltas env rels
  unfold passDeltas
  dsimp only
  rw [hraw]
  split
  · rename_i hnil
    rw [hnil, append_nil]
  · cases env.existingDeltas with
    | none => simp [rawOf]
    | some d => exact raw_mergeAdditional d _

theorem sound_none (rels : List Rela) : Sound rels none where
  new := fun _ h => nomatch h
  separate := ⟨trivial, fun _ h => absurd h not_mem_nil⟩
  foot := fun _ h => absurd h not_mem_nil

/-- The deletions after a pass are sorted. -/
theorem rawOf_passDeltas_sorted
    (hrels : WellPlaced len rels) (hsound : Sound rels env.existingDeltas) :
    (rawOf (passDeltas env rels)).Pairwise fun a b => a.1 ≤ b.1 := by
  have hraw : (collectRelaxationDeltas env rels).1 = ranges env 0 rels := scan_rawDeltas env rels
  have hold : (rawOf env.existingDeltas).Pairwise fun a b => a.1 ≤ b.1 :=
    hsound.separate.pairwise.imp fun h => Nat.le_of_lt h
  unfold passDeltas
  dsimp only
  rw [hraw]
  split
  · exact hold
  · cases henv : env.existingDeltas with
    | none =>
      have hapart := @apart_ranges env len rels 0 0 hrels fun _ _ _ => Nat.zero_le _
      have hpos : ∀ r ∈ ranges env 0 rels, 0 < r.2 := by
        intro r hr
        obtain ⟨rel, _, hfoot, _⟩ := foot_of_mem_ranges hrels hr
        exact hfoot.pos
      simp only [rawOf, raw_new]
      exact (pairwise_of_apart hapart hpos).imp fun h => Nat.le_of_lt h
    | some d =>
      rename_i hne
      simp only [rawOf, SectionRelaxDeltas.mergeAdditional, if_neg hne, raw_new]
      exact sortedByKey_pairwise _ _

theorem new_passDeltas
    (hnew : ∀ d, env.existingDeltas = some d → d = .new d.raw) {d : SectionRelaxDeltas}
    (h : passDeltas env rels = some d) : d = .new d.raw := by
  unfold passDeltas at h
  dsimp only at h
  split at h
  · exact hnew d h
  · rename_i hne
    cases henv : env.existingDeltas with
    | none =>
      rw [henv] at h
      cases h
      rw [raw_new]
    | some e =>
      rw [henv] at h
      cases h
      rw [SectionRelaxDeltas.mergeAdditional, if_neg hne, raw_new]

/-- **One pass keeps the deltas sound.** -/
theorem sound_passDeltas {env : ScanInput} {rels : List Rela} {len : Nat}
    (hrels : WellPlaced len rels) (hsound : Sound rels env.existingDeltas) :
    Sound rels (passDeltas env rels) := by
  have hperm := rawOf_passDeltas env rels
  have hfoot : ∀ r ∈ rawOf (passDeltas env rels), ∃ rel ∈ rels, rel.Foot r := by
    intro r hr
    rcases mem_append.mp (hperm.mem_iff.mp hr) with hr | hr
    · exact hsound.foot r hr
    · obtain ⟨rel, hrel, hf, _⟩ := foot_of_mem_ranges hrels hr
      exact ⟨rel, hrel, hf⟩
  have hpos : ∀ r ∈ rawOf (passDeltas env rels), 0 < r.2 := by
    intro r hr
    obtain ⟨rel, _, hf⟩ := hfoot r hr
    exact hf.pos
  have hclear : (rawOf (passDeltas env rels)).Pairwise Clear := by
    rw [hperm.pairwise_iff fun {_ _} h => Std.Symm.symm _ _ h, pairwise_append]
    have hapart := @apart_ranges env len rels 0 0 hrels fun _ _ _ => Nat.zero_le _
    exact ⟨pairwise_clear_of_apart hsound.separate.1, pairwise_clear_of_apart hapart,
      fun r hr q hq => clear_new hrels hsound hr hq⟩
  exact {
    new := fun _ h => new_passDeltas hsound.new h
    separate := ⟨apart_of_clear (rawOf_passDeltas_sorted hrels hsound) hclear hpos
      fun _ _ => Nat.zero_le _, hpos⟩
    foot := hfoot }

/-- **The deltas of a section are sound after any number of passes.** -/
theorem Passes.sound {bytes : Bytes} (hrels : WellPlaced bytes.length rels)
    {deltas : Option SectionRelaxDeltas} (h : Passes bytes rels deltas) : Sound rels deltas := by
  induction h with
  | none => exact sound_none rels
  | pass _ address resolveSymbol ih => exact sound_passDeltas hrels ih

end Srs.Relaxation
