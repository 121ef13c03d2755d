/-
# Whether alignments survive relaxation

An assembler leaves room for an alignment as NOPs, two or four bytes less than the alignment, and
the linker deletes those that are not needed.  The scan guesses the alignment from the number of
NOPs, deletes at most once from each sled, and comes back to a section in later passes.

So the guess must be right, which it is for sleds of more than four bytes; there must be enough
NOPs, which is a matter of what is deleted between a sled and the one before it (`Spaced`); and
nothing may move a sled that was cut in an earlier pass, unless a sled before it with at least its
alignment takes the movement up (`Undisturbed`).  In every run whose passes are of this kind, what
is behind a sled is aligned after every pass (`sleds_stay_aligned`).
-/
import Srs.Relaxation.Agreement

namespace Srs.Relaxation

open Deletions List Option Nat Rela

/-! ## 1. Sleds and runs -/

/-- The NOPs for an alignment. -/
def Sled (rel : Rela) (a : Nat) : Prop :=
  rel.rawType = .align ∧ (∃ k, a = 2 ^ k) ∧ (rel.width + 2 = a ∨ rel.width + 4 = a)

/-- The bytes that are gone from a sled. -/
def removedAt (deltas : Option SectionRelaxDeltas) (offset : Nat) : Nat :=
  match deltas with
  | some d => d.deltaBytesAt offset
  | none => 0

/-- The output offset just behind what is left of a sled. -/
def sledEnd (deltas : Option SectionRelaxDeltas) (rel : Rela) : Nat :=
  optInputToOutput deltas rel.offset + (rel.width - removedAt deltas rel.offset)

/-- What is different from pass to pass: where the section is, and the symbols. -/
structure PassInput where
  address : Nat
  resolveSymbol : Nat → Option RelaxSymbolInfo

/-- The input of a pass over a section. -/
def PassInput.scan (p : PassInput) (bytes : Bytes) (deltas : Option SectionRelaxDeltas) :
    ScanInput :=
  ⟨p.address, bytes, deltas, p.resolveSymbol⟩

/-- The deltas of a section after a run of passes. -/
def deltasAfter (bytes : Bytes) (rels : List Rela) (passes : List PassInput) :
    Option SectionRelaxDeltas :=
  passes.foldl (fun deltas p => passDeltas (p.scan bytes deltas) rels) none

/-! ## 2. The passes that keep alignments -/

/-- The section starts at a multiple of every alignment in it. -/
def AtMultiple (rels : List Rela) (address : Nat) : Prop :=
  ∀ rel ∈ rels, ∀ a, Sled rel a → a ∣ address

/-- Every alignment of the section has a sled of more than four bytes. -/
def LongSleds (rels : List Rela) : Prop :=
  ∀ rel ∈ rels, rel.rawType = .align → 4 < rel.width ∧ ∃ a, Sled rel a

/-- The alignment that the scan takes a sled to be for. -/
def Rela.alignment (rel : Rela) : Nat := nextPowerOfTwo rel.width

/-- A `lui` that is, or in this pass becomes, half as long. -/
def halved (env : ScanInput) (rel : Rela) (next : Option Rela) : Bool :=
  rel.rawType = .hi20 && (decide ((rel.offset + 2, 2) ∈ rawOf env.existingDeltas)
    || emit env 0 rel next == some (rel.offset + 2, 2))

/-- Sleds that are two bytes short of the alignment are at an even distance from the one before
(or the start of the section).  Those that are four bytes short are at a multiple of four, with no
`lui` in between that became a `c.lui`. -/
def Spaced (env : ScanInput) : Nat → Bool → List Rela → Prop
  | _, _, [] => True
  | anchor, half, rel :: rest =>
    if rel.rawType = .align then
      (rel.alignment - rel.width ∣ rel.offset - anchor ∧
        (rel.alignment - rel.width = 4 → half = false)) ∧
      Spaced env (rel.offset + rel.width) false rest
    else Spaced env anchor (half || halved env rel rest.head?) rest

instance Spaced.decidable (env : ScanInput) :
    ∀ anchor half rels, Decidable (Spaced env anchor half rels)
  | _, _, [] => .isTrue trivial
  | anchor, half, rel :: rest =>
    have := Spaced.decidable env (rel.offset + rel.width) false rest
    have := Spaced.decidable env anchor (half || halved env rel rest.head?) rest
    inferInstanceAs (Decidable (if rel.rawType = .align then
      (rel.alignment - rel.width ∣ rel.offset - anchor ∧
        (rel.alignment - rel.width = 4 → half = false)) ∧
      Spaced env (rel.offset + rel.width) false rest
    else Spaced env anchor (half || halved env rel rest.head?) rest))

/-- No call and no `lui` gets shorter in this pass between a sled that was cut before and the last
sled in front of it with at least its alignment.  `limit` is the greatest alignment since the last
one that got shorter. -/
def Undisturbed (env : ScanInput) : Option Nat → List Rela → Prop
  | _, [] => True
  | limit, rel :: rest =>
    if rel.rawType = .align then
      (env.hasDeltaAt rel.offset = true → ∀ l, limit = some l → rel.alignment ≤ l) ∧
        Undisturbed env (limit.map (max rel.alignment)) rest
    else
      Undisturbed env (if (emit env 0 rel rest.head?).isSome then some 0 else limit) rest

instance Undisturbed.decidable (env : ScanInput) :
    ∀ limit rels, Decidable (Undisturbed env limit rels)
  | _, [] => .isTrue trivial
  | limit, rel :: rest =>
    have := Undisturbed.decidable env (limit.map (max rel.alignment)) rest
    have := Undisturbed.decidable env
      (if (emit env 0 rel rest.head?).isSome then some 0 else limit) rest
    have : Decidable (∀ l, limit = some l → rel.alignment ≤ l) :=
      match limit with
      | none => .isTrue fun _ h => nomatch h
      | some m => decidable_of_iff (rel.alignment ≤ m)
        ⟨fun h _ hl => some.inj hl ▸ h, fun h => h m rfl⟩
    inferInstanceAs (Decidable (if rel.rawType = .align then
      (env.hasDeltaAt rel.offset = true → ∀ l, limit = some l → rel.alignment ≤ l) ∧
        Undisturbed env (limit.map (max rel.alignment)) rest
    else
      Undisturbed env (if (emit env 0 rel rest.head?).isSome then some 0 else limit) rest))

/-- **A pass that keeps the alignments.** -/
structure KeepsAlignment (env : ScanInput) (rels : List Rela) : Prop where
  address : AtMultiple rels env.sectionOutputAddress
  spaced : Spaced env 0 false rels
  undisturbed : Undisturbed env none rels

/-! ## 3. The alignment of a sled -/

variable {a : Nat}

/-- **The guess is right for long sleds.** -/
theorem Sled.alignment_eq {rel : Rela} (h : Sled rel a) (hlong : 4 < rel.width) :
    rel.alignment = a := by
  obtain ⟨_, ⟨k, rfl⟩, hw⟩ := h
  unfold alignment nextPowerOfTwo
  cases k with
  | zero => omega
  | succ j =>
    rw [pow_succ] at hw
    have hlog : log2 (rel.width - 1) = j := by
      rw [log2_eq_iff (by omega), pow_succ]
      omega
    rw [if_neg (by omega), hlog]

theorem Sled.four_dvd {rel : Rela} (h : Sled rel a) (hlong : 4 < rel.width) : 4 ∣ a := by
  obtain ⟨_, ⟨k, rfl⟩, hw⟩ := h
  match k with
  | 0 => omega
  | 1 => omega
  | k + 2 => exact ⟨2 ^ k, by rw [pow_add]; omega⟩

theorem dvd_nextMultipleOf (n m : Nat) : m ∣ nextMultipleOf n m := ⟨_, mul_comm _ _⟩

theorem nextMultipleOf_lt (n : Nat) {m : Nat} (h : 0 < m) : nextMultipleOf n m < n + m := by
  have := div_mul_le_self (n + (m - 1)) m
  unfold nextMultipleOf
  omega

/-- A multiple less than an alignment above a place is the next one. -/
theorem nextMultipleOf_eq {p n : Nat} (ha : 0 < a) (hdvd : a ∣ p + n) (hn : n < a) :
    nextMultipleOf p a = p + n := by
  have hle := le_nextMultipleOf p ha
  have hlt := nextMultipleOf_lt p ha
  obtain ⟨u, hu⟩ := hdvd
  obtain ⟨v, hv⟩ := dvd_nextMultipleOf p a
  have huv : u = v := by
    rw [hv] at hle hlt
    have h1 : a * v < a * (u + 1) := by
      rw [Nat.mul_add]
      omega
    have h2 : a * u < a * (v + 1) := by
      rw [Nat.mul_add]
      omega
    have := Nat.lt_of_mul_lt_mul_left h1
    have := Nat.lt_of_mul_lt_mul_left h2
    omega
  rw [hv, hu, huv]

/-- There are enough NOPs at a multiple of what the sled is short of. -/
theorem nextMultipleOf_le {p n : Nat} (h4 : 4 ∣ a) (ha : n + 2 = a ∨ n + 4 = a)
    (hp : a - n ∣ p) : nextMultipleOf p a ≤ p + n := by
  have hlt := nextMultipleOf_lt p (m := a) (by omega)
  have hdvd : 4 ∣ nextMultipleOf p a := h4.trans (dvd_nextMultipleOf p a)
  rcases ha with ha | ha
  · have h2 : a - n = 2 := by omega
    rw [h2] at hp
    omega
  · have h2 : a - n = 4 := by omega
    rw [h2] at hp
    omega

/-! ## 4. Along the relocations -/

/-- What an option gives to the sum. -/
def bytesOf (r : Option (Nat × Nat)) : Nat := (r.map (·.2)).getD 0

section

variable {env : ScanInput} {rels : List Rela} {len : Nat}

theorem existingCum_eq (hsound : Sound rels env.existingDeltas) (x : Nat) :
    env.existingCum x = before (rawOf env.existingDeltas) x := by
  unfold ScanInput.existingCum rawOf
  cases hd : env.existingDeltas with
  | none => rfl
  | some d =>
    have hsep : Separate d.raw := by simpa [rawOf, hd] using hsound.separate
    have heq := hsound.new d hd
    dsimp only
    rw [heq, deletedBefore_new hsep.pairwise, raw_new]

/-- The deletions from a position on belong to the relocations that are left. -/
structure Ahead (old : List (Nat × Nat)) (len pos : Nat) (rest : List Rela) : Prop where
  placed : WellPlaced len rest
  le : ∀ rel ∈ rest, rel.placed = true → pos ≤ rel.offset
  foot : ∀ r ∈ old, pos ≤ r.1 → ∃ rel ∈ rest, rel.Foot r
  behind : ∀ r ∈ old, r.1 < pos → r.1 + r.2 ≤ pos

variable {old : List (Nat × Nat)} {pos : Nat} {rel : Rela} {rest : List Rela}

theorem Ahead.skip (h : Ahead old len pos (rel :: rest)) (hp : rel.placed = false) :
    Ahead old len pos rest where
  placed := h.placed.tail
  le := fun q hq => h.le q (mem_cons_of_mem rel hq)
  behind := h.behind
  foot := by
    intro r hr hpos
    obtain ⟨q, hq, hfoot⟩ := h.foot r hr hpos
    rcases mem_cons.mp hq with rfl | hq
    · rw [hfoot.placed] at hp
      cases hp
    · exact ⟨q, hq, hfoot⟩

variable {r : Nat × Nat}

/-- A deletion from here on is that of the next relocation, or behind its part. -/
theorem Ahead.cases (h : Ahead old len pos (rel :: rest)) (hp : rel.placed = true) (hr : r ∈ old) (hpos : pos ≤ r.1) :
    rel.Foot r ∨ rel.offset + rel.width ≤ r.1 ∧ ∃ q ∈ rest, q.Foot r := by
  obtain ⟨q, hq, hfoot⟩ := h.foot r hr hpos
  rcases mem_cons.mp hq with rfl | hq
  · exact .inl hfoot
  · have hle := (pairwise_cons.mp h.placed.1).1 q hq hp hfoot.placed
    exact .inr ⟨le_trans hle hfoot.within.1, q, hq, hfoot⟩

/-- The deletions that are a relocation's own. -/
def own (old : List (Nat × Nat)) (rel : Rela) : List (Nat × Nat) :=
  old.filter fun r => rel.offset ≤ r.1 && r.1 < rel.offset + rel.width

section

variable (h : Ahead old len pos (rel :: rest)) (hp : rel.placed = true)
include h hp

theorem Ahead.foot_of_own (hr : r ∈ own old rel) : rel.Foot r := by
  obtain ⟨hmem, hin⟩ := mem_filter.mp hr
  simp only [Bool.and_eq_true, decide_eq_true_eq] at hin
  have hpos := h.le rel mem_cons_self hp
  rcases h.cases hp hmem (by omega) with hfoot | ⟨hle, _⟩
  · exact hfoot
  · omega

theorem Ahead.next :
    Ahead old len (rel.offset + rel.width) rest where
  placed := h.placed.tail
  le := fun q hq hpq => (pairwise_cons.mp h.placed.1).1 q hq hp hpq
  foot := by
    intro r hr hle
    have hpos := h.le rel mem_cons_self hp
    rcases h.cases hp hr (by omega) with hfoot | ⟨_, hrest⟩
    · have := hfoot.within
      have := hfoot.pos
      omega
    · exact hrest
  behind := by
    intro r hr hlt
    have hpos := h.le rel mem_cons_self hp
    by_cases hr0 : r.1 < pos
    · have := h.behind r hr hr0
      omega
    · rcases h.cases hp hr (by omega) with hfoot | ⟨hle, _⟩
      · exact hfoot.within.2
      · omega

/-- Nothing is deleted between the position and the next relocation. -/
theorem Ahead.before_offset :
    before old rel.offset = before old pos := by
  have hpos := h.le rel mem_cons_self hp
  have hnil : (old.filter fun r => pos ≤ r.1 && r.1 < rel.offset) = [] := by
    refine filter_eq_nil_iff.mpr ?_
    intro r hr
    simp only [Bool.and_eq_true, decide_eq_true_eq]
    intro hin
    rcases h.cases hp hr hin.1 with hfoot | ⟨hle, _⟩
    · have := hfoot.within
      omega
    · omega
  rw [before_eq_add_total hpos, hnil]
  rfl

/-- What is deleted up to the end of the next relocation. -/
theorem Ahead.before_end :
    before old (rel.offset + rel.width) = before old pos + total (own old rel) := by
  rw [before_eq_add_total (le_add_right rel.offset rel.width), h.before_offset hp]
  rfl

theorem Ahead.own_le
    (hsep : Separate old) : total (own old rel) ≤ rel.width := by
  have hle := hsep.1.before_le_add (le_add_right rel.offset rel.width) fun r hr hlt =>
    (h.next hp).behind r hr hlt
  rw [before_eq_add_total (le_add_right rel.offset rel.width)] at hle
  unfold own
  omega

end

/-- A relocation that gives a range has none. -/
theorem Ahead.own_eq_nil (h : Ahead (rawOf env.existingDeltas) len pos (rel :: rest))
    (hp : rel.placed = true) {cum : Nat} {next : Option Rela}
    (hemit : emit env cum rel next = some r) : own (rawOf env.existingDeltas) rel = [] := by
  refine eq_nil_iff_forall_not_mem.mpr ?_
  intro q hq
  have hfresh := emit_fresh hemit (h.foot_of_own hp hq)
  have hold : env.hasDeltaAt q.1 = true :=
    hasDeltaAt_rawOf.mpr ⟨q, mem_of_mem_filter hq, rfl⟩
  rw [hold] at hfresh
  cases hfresh

end

/-- What is behind every sled is aligned, with the section at a multiple. -/
def Aligned (raw : List (Nat × Nat)) (rels : List Rela) : Prop :=
  ∀ rel ∈ rels, ∀ a, Sled rel a → a ∣ rel.offset + rel.width - before raw (rel.offset + 1)

/-- The scan at a position: `cum` bytes are newly deleted, the last sled ended at `anchor`. -/
structure Walk (env : ScanInput) (rels rest : List Rela) (len pos cum anchor : Nat) (half : Bool)
    (limit : Option Nat) : Prop where
  ahead : Ahead (rawOf env.existingDeltas) len pos rest
  anchor_le : anchor ≤ pos
  le : before (rawOf env.existingDeltas) pos + cum ≤ pos
  even : (before (rawOf env.existingDeltas) pos + cum) % 2 = anchor % 2
  quad : half = false → (before (rawOf env.existingDeltas) pos + cum) % 4 = anchor % 4
  still : Aligned (rawOf env.existingDeltas) rels →
    ∀ k, (∀ l, limit = some l → 2 ^ k ≤ l) → 2 ^ k ∣ cum

section

variable {env : ScanInput} {rels : List Rela} {len pos cum anchor : Nat} {half : Bool}
  {limit : Option Nat} {rel : Rela} {rest : List Rela}

theorem sled_placed (h : rel.rawType = .align) : rel.placed = true := by simp [placed, h]

/-- The deletion of a sled is at its start. -/
theorem before_sled (h : Ahead (rawOf env.existingDeltas) len pos (rel :: rest))
    (hty : rel.rawType = .align) (hlong : 4 < rel.width) :
    before (rawOf env.existingDeltas) (rel.offset + 1)
      = before (rawOf env.existingDeltas) (rel.offset + rel.width) := by
  have hnil : ((rawOf env.existingDeltas).filter
      fun r => rel.offset + 1 ≤ r.1 && r.1 < rel.offset + rel.width) = [] := by
    refine filter_eq_nil_iff.mpr ?_
    intro r hr
    simp only [Bool.and_eq_true, decide_eq_true_eq]
    intro hin
    have hmem : r ∈ own (rawOf env.existingDeltas) rel := by
      refine mem_filter.mpr ⟨hr, ?_⟩
      simp only [Bool.and_eq_true, decide_eq_true_eq]
      omega
    have hfoot := h.foot_of_own (sled_placed hty) hmem
    unfold Foot at hfoot
    simp only [hty] at hfoot
    omega
  rw [before_eq_add_total (show rel.offset + 1 ≤ rel.offset + rel.width by omega), hnil]
  rfl

/-- Where the scan takes a sled to be. -/
def sledPlace (env : ScanInput) (cum : Nat) (rel : Rela) : Nat :=
  env.sectionOutputAddress + (rel.offset - env.existingCum rel.offset - cum)

theorem bytesOf_alignRange (hty : rel.rawType = .align) (hlong : 4 < rel.width)
    (hwidth : rel.width < 2 ^ 32) (hnot : env.hasDeltaAt rel.offset = false) :
    bytesOf (alignRange env cum rel)
      = sledPlace env cum rel + rel.width - nextMultipleOf (sledPlace env cum rel) rel.alignment := by
  have hw : asU64 rel.addend = rel.width := by simp [width, hty]
  have hle := le_nextMultipleOf (sledPlace env cum rel) (nextPowerOfTwo_pos rel.width)
  unfold alignRange bytesOf
  dsimp only
  rw [hw, hnot, if_neg (by simp; omega)]
  change ((if sledPlace env cum rel + rel.width
    > nextMultipleOf (sledPlace env cum rel) rel.alignment then _ else none).map _).getD 0 = _
  split
  · rename_i hgt
    change (sledPlace env cum rel + rel.width
      - nextMultipleOf (sledPlace env cum rel) rel.alignment) % 2 ^ 32 = _
    unfold alignment at hgt ⊢
    exact mod_eq_of_lt (by omega)
  · rename_i hgt
    simp only [map_none, getD_none]
    omega

theorem alignRange_of_hasDeltaAt (h : env.hasDeltaAt rel.offset = true) :
    alignRange env cum rel = none := by
  simp [alignRange, h]

variable {a : Nat} {r : Nat × Nat}

section

variable (h : Walk env rels (rel :: rest) len pos cum anchor half limit)
include h

/-- A sled that was cut before: the scan leaves it, and what is new before it is a multiple. -/
theorem Walk.cut_sled
    (hmem : rel ∈ rels) (hsled : Sled rel a) (hlong : 4 < rel.width)
    (hhas : env.hasDeltaAt rel.offset = true) (hlimit : ∀ l, limit = some l → rel.alignment ≤ l)
    (hprev : Aligned (rawOf env.existingDeltas) rels) :
    a ∣ rel.offset + rel.width - (before (rawOf env.existingDeltas) (rel.offset + 1)
      + (cum + bytesOf (alignRange env cum rel))) := by
  obtain ⟨k, hk⟩ := hsled.2.1
  have hcum : a ∣ cum := by
    rw [hk]
    refine h.still hprev k ?_
    intro l hl
    rw [← hk, ← hsled.alignment_eq hlong]
    exact hlimit l hl
  have hold := hprev rel hmem a hsled
  rw [alignRange_of_hasDeltaAt hhas]
  have hsub := dvd_sub hold hcum
  rw [Nat.sub_sub] at hsub
  exact hsub

/-- The place of a sled that was not cut before. -/
theorem Walk.sledPlace_eq
    (hsound : Sound rels env.existingDeltas) (hty : rel.rawType = .align) :
    sledPlace env cum rel = env.sectionOutputAddress
      + (rel.offset - (before (rawOf env.existingDeltas) pos + cum)) := by
  unfold sledPlace
  rw [existingCum_eq hsound, h.ahead.before_offset (sled_placed hty), Nat.sub_sub]

theorem Walk.own_sled_eq_nil
    (hty : rel.rawType = .align) (hnot : env.hasDeltaAt rel.offset = false) :
    own (rawOf env.existingDeltas) rel = [] := by
  refine eq_nil_iff_forall_not_mem.mpr ?_
  intro q hq
  have hfoot := h.ahead.foot_of_own (sled_placed hty) hq
  unfold Foot at hfoot
  simp only [hty] at hfoot
  have hold : env.hasDeltaAt rel.offset = true :=
    hasDeltaAt_rawOf.mpr ⟨q, mem_of_mem_filter hq, hfoot.1⟩
  rw [hold] at hnot
  cases hnot

theorem Walk.before_uncut
    (hty : rel.rawType = .align) (hlong : 4 < rel.width)
    (hnot : env.hasDeltaAt rel.offset = false) :
    before (rawOf env.existingDeltas) (rel.offset + 1)
      = before (rawOf env.existingDeltas) pos := by
  rw [before_sled h.ahead hty hlong, h.ahead.before_end (sled_placed hty),
    h.own_sled_eq_nil hty hnot]
  rfl

/-- There are enough NOPs. -/
theorem Walk.enough
    (hsound : Sound rels env.existingDeltas) (hsled : Sled rel a) (hlong : 4 < rel.width)
    (haddr : a ∣ env.sectionOutputAddress) (hdist : a - rel.width ∣ rel.offset - anchor)
    (hhalf : a - rel.width = 4 → half = false) :
    nextMultipleOf (sledPlace env cum rel) a ≤ sledPlace env cum rel + rel.width := by
  have h4 := hsled.four_dvd hlong
  have hpos := h.ahead.le rel mem_cons_self (sled_placed hsled.1)
  have hle := h.le
  have hanchor := h.anchor_le
  have heven := h.even
  have haddr4 : 4 ∣ env.sectionOutputAddress := h4.trans haddr
  refine nextMultipleOf_le h4 hsled.2.2 ?_
  rw [h.sledPlace_eq hsound hsled.1]
  rcases hsled.2.2 with hw | hw
  · have h2 : a - rel.width = 2 := by omega
    rw [h2] at hdist ⊢
    omega
  · have h2 : a - rel.width = 4 := by omega
    have hquad := h.quad (hhalf h2)
    rw [h2] at hdist ⊢
    omega

/-- **A sled that was not cut before** ends at a multiple. -/
theorem Walk.new_sled
    (hsound : Sound rels env.existingDeltas) (hsled : Sled rel a) (hlong : 4 < rel.width)
    (hwidth : rel.width < 2 ^ 32) (hnot : env.hasDeltaAt rel.offset = false)
    (haddr : a ∣ env.sectionOutputAddress) (hdist : a - rel.width ∣ rel.offset - anchor)
    (hhalf : a - rel.width = 4 → half = false) :
    a ∣ rel.offset + rel.width - (before (rawOf env.existingDeltas) (rel.offset + 1)
      + (cum + bytesOf (alignRange env cum rel))) := by
  have henough := h.enough hsound hsled hlong haddr hdist hhalf
  have hplace := h.sledPlace_eq hsound hsled.1
  have hpos := h.ahead.le rel mem_cons_self (sled_placed hsled.1)
  have hle := h.le
  have hge := le_nextMultipleOf (sledPlace env cum rel) (m := a) (by
    have := hsled.2.2
    omega)
  have hbefore := h.before_uncut hsled.1 hlong hnot
  have hend : rel.offset + rel.width - (before (rawOf env.existingDeltas) (rel.offset + 1)
      + (cum + bytesOf (alignRange env cum rel)))
      = nextMultipleOf (sledPlace env cum rel) a - env.sectionOutputAddress := by
    rw [bytesOf_alignRange hsled.1 hlong hwidth hnot, hsled.alignment_eq hlong, hbefore]
    omega
  rw [hend]
  exact dvd_sub (dvd_nextMultipleOf _ _) haddr

/-- A sled that needs no other NOPs than before is left. -/
theorem Walk.left_sled
    (hsound : Sound rels env.existingDeltas) (hmem : rel ∈ rels) (hsled : Sled rel a)
    (hlong : 4 < rel.width) (hwidth : rel.width < 2 ^ 32) (haddr : a ∣ env.sectionOutputAddress)
    (hprev : Aligned (rawOf env.existingDeltas) rels) (hcum : a ∣ cum) :
    bytesOf (alignRange env cum rel) = 0 := by
  by_cases hhas : env.hasDeltaAt rel.offset = true
  · rw [alignRange_of_hasDeltaAt hhas]
    rfl
  · have hnot : env.hasDeltaAt rel.offset = false := Bool.eq_false_of_not_eq_true hhas
    have hplace := h.sledPlace_eq hsound hsled.1
    have hpos := h.ahead.le rel mem_cons_self (sled_placed hsled.1)
    have hle := h.le
    have hw := hsled.2.2
    have hbefore := h.before_uncut hsled.1 hlong hnot
    have hend : a ∣ sledPlace env cum rel + rel.width := by
      have hold := dvd_sub (hprev rel hmem a hsled) hcum
      rw [hbefore] at hold
      have hsum : sledPlace env cum rel + rel.width = env.sectionOutputAddress
          + (rel.offset + rel.width - before (rawOf env.existingDeltas) pos - cum) := by omega
      rw [hsum]
      exact Nat.dvd_add haddr hold
    rw [bytesOf_alignRange hsled.1 hlong hwidth hnot, hsled.alignment_eq hlong,
      nextMultipleOf_eq (by omega) hend (by omega)]
    omega

/-- At most what is there is deleted from a sled. -/
theorem Walk.sled_le
    (hsound : Sound rels env.existingDeltas) (hty : rel.rawType = .align) (hlong : 4 < rel.width)
    (hwidth : rel.width < 2 ^ 32) :
    before (rawOf env.existingDeltas) (rel.offset + rel.width)
      + (cum + bytesOf (alignRange env cum rel)) ≤ rel.offset + rel.width := by
  have hpos := h.ahead.le rel mem_cons_self (sled_placed hty)
  have hle := h.le
  rw [h.ahead.before_end (sled_placed hty)]
  by_cases hhas : env.hasDeltaAt rel.offset = true
  · have hown := h.ahead.own_le (sled_placed hty) hsound.separate
    rw [alignRange_of_hasDeltaAt hhas]
    change _ + (cum + 0) ≤ _
    omega
  · have hnot : env.hasDeltaAt rel.offset = false := Bool.eq_false_of_not_eq_true hhas
    have hge := le_nextMultipleOf (sledPlace env cum rel) (nextPowerOfTwo_pos rel.width)
    rw [h.own_sled_eq_nil hty hnot, bytesOf_alignRange hty hlong hwidth hnot]
    unfold alignment
    change _ + 0 + _ ≤ _
    omega

/-- **Past a sled.** -/
theorem Walk.past_sled
    (hsound : Sound rels env.existingDeltas) (hmem : rel ∈ rels) (hsled : Sled rel a)
    (hlong : 4 < rel.width) (hwidth : rel.width < 2 ^ 32) (haddr : a ∣ env.sectionOutputAddress)
    (hend : a ∣ rel.offset + rel.width - (before (rawOf env.existingDeltas) (rel.offset + 1)
      + (cum + bytesOf (alignRange env cum rel)))) :
    Walk env rels rest len (rel.offset + rel.width) (cum + bytesOf (alignRange env cum rel))
      (rel.offset + rel.width) false (limit.map (max rel.alignment)) := by
  have hle := h.sled_le hsound hsled.1 hlong hwidth
  have hfour := (hsled.four_dvd hlong).trans hend
  rw [before_sled h.ahead hsled.1 hlong] at hend hfour
  refine {
    ahead := h.ahead.next (sled_placed hsled.1)
    anchor_le := le_refl _
    le := hle
    even := by omega
    quad := fun _ => by omega
    still := ?_ }
  intro hprev k hk
  obtain ⟨j, hj⟩ := hsled.2.1
  have hcum' : a ∣ cum + bytesOf (alignRange env cum rel) := by
    have hold := hprev rel hmem a hsled
    rw [before_sled h.ahead hsled.1 hlong] at hold
    have hdiff := dvd_sub hold hend
    have heq : rel.offset + rel.width
          - before (rawOf env.existingDeltas) (rel.offset + rel.width)
        - (rel.offset + rel.width - (before (rawOf env.existingDeltas) (rel.offset + rel.width)
          + (cum + bytesOf (alignRange env cum rel))))
        = cum + bytesOf (alignRange env cum rel) := by omega
    rwa [heq] at hdiff
  -- either the sled is of a greater alignment than all since the last movement, or it is left
  by_cases hgreat : ∃ l, limit = some l ∧ l < a
  · obtain ⟨l, hl, hla⟩ := hgreat
    have hka : 2 ^ k ≤ a := by
      have := hk (max rel.alignment l) (by rw [hl]; rfl)
      rw [hsled.alignment_eq hlong] at this
      omega
    rw [hj] at hka hcum'
    exact (Nat.pow_dvd_pow 2 ((Nat.pow_le_pow_iff_right (by decide)).mp hka)).trans hcum'
  · have hlimit : ∀ l, limit = some l → a ≤ l := by
      intro l hl
      by_contra hlt
      exact hgreat ⟨l, hl, by omega⟩
    have hcum : a ∣ cum := by
      rw [hj]
      refine h.still hprev j ?_
      intro l hl
      rw [← hj]
      exact hlimit l hl
    rw [h.left_sled hsound hmem hsled hlong hwidth haddr hprev hcum]
    refine h.still hprev k ?_
    intro l hl
    have hmax := hk (max rel.alignment l) (by rw [hl]; rfl)
    have := hlimit l hl
    rw [hsled.alignment_eq hlong] at hmax
    omega

end

/-- What a call or a `lui` can lose. -/
theorem Rela.Foot.even (h : rel.Foot r) (hty : rel.rawType ≠ .align) :
    2 ∣ r.2 ∧ (4 ∣ r.2 ∨ rel.rawType = .hi20 ∧ r = (rel.offset + 2, 2)) := by
  unfold Foot at h
  split at h
  · rw [h]
    exact ⟨⟨2, rfl⟩, .inl ⟨1, rfl⟩⟩
  · rw [h]
    exact ⟨⟨2, rfl⟩, .inl ⟨1, rfl⟩⟩
  · rename_i hhi
    rcases h with h | h
    · rw [h]
      exact ⟨⟨2, rfl⟩, .inl ⟨1, rfl⟩⟩
    · rw [h]
      exact ⟨⟨1, rfl⟩, .inr ⟨hhi, rfl⟩⟩
  · contradiction
  · exact h.elim

theorem emit_of_not_placed (hp : rel.placed = false) (next : Option Rela) :
    emit env cum rel next = none := by
  unfold placed at hp
  unfold emit
  split at hp
  · rename_i hty
    simp only [hty]
  · rename_i hty
    simp only [hty]
  · cases hp

/-- All that a call or a `lui` has lost, in this pass or before. -/
def lost (env : ScanInput) (rel : Rela) (next : Option Rela) : List (Nat × Nat) :=
  own (rawOf env.existingDeltas) rel ++ (emit env 0 rel next).toList

theorem total_lost (next : Option Rela) :
    total (lost env rel next)
      = total (own (rawOf env.existingDeltas) rel) + bytesOf (emit env 0 rel next) := by
  unfold lost bytesOf
  rw [total_append]
  cases emit env 0 rel next with
  | none => rfl
  | some r => simp [total]

section

variable (h : Walk env rels (rel :: rest) len pos cum anchor half limit)
include h

theorem Walk.foot_of_lost
    (hp : rel.placed = true) (hty : rel.rawType ≠ .align) {next : Option Rela}
    (hr : r ∈ lost env rel next) : rel.Foot r := by
  rcases mem_append.mp hr with hr | hr
  · exact h.ahead.foot_of_own hp hr
  · exact emit_foot (fun h => absurd h hty) (mem_toList.mp hr)

theorem Walk.lost_le
    (hsound : Sound rels env.existingDeltas) (hp : rel.placed = true)
    (hty : rel.rawType ≠ .align) (next : Option Rela) :
    total (lost env rel next) ≤ rel.width := by
  rw [total_lost]
  cases hemit : emit env 0 rel next with
  | none =>
    have := h.ahead.own_le hp hsound.separate
    exact this
  | some r =>
    have hin := (emit_foot (fun h => absurd h hty) hemit).within
    rw [h.ahead.own_eq_nil hp hemit]
    change 0 + r.2 ≤ _
    omega

/-- **Past a call, a `lui` or anything else.** -/
theorem Walk.past_other
    (hsound : Sound rels env.existingDeltas) (hty : rel.rawType ≠ .align) :
    ∃ pos', Walk env rels rest len pos' (cum + bytesOf (emit env 0 rel rest.head?)) anchor
      (half || halved env rel rest.head?)
      (if (emit env 0 rel rest.head?).isSome then some 0 else limit) := by
  have hstill : Aligned (rawOf env.existingDeltas) rels → ∀ k,
      (∀ l, (if (emit env 0 rel rest.head?).isSome then some 0 else limit) = some l → 2 ^ k ≤ l) →
        2 ^ k ∣ cum + bytesOf (emit env 0 rel rest.head?) := by
    intro hprev k hk
    cases hemit : emit env 0 rel rest.head? with
    | none =>
      rw [hemit] at hk
      exact h.still hprev k hk
    | some r =>
      rw [hemit] at hk
      have := hk 0 rfl
      have := Nat.two_pow_pos k
      omega
  cases hp : rel.placed with
  | false =>
    have hnone := @emit_of_not_placed env 0 rel hp rest.head?
    have hhalved : halved env rel rest.head? = false := by
      have hhi : rel.rawType ≠ .hi20 := by
        intro hhi
        simp [placed, hhi] at hp
      simp [halved, hhi]
    rw [hnone] at hstill ⊢
    rw [hhalved, Bool.or_false]
    exact ⟨pos, { h with ahead := h.ahead.skip hp, still := hstill }⟩
  | true =>
    have hpos := h.ahead.le rel mem_cons_self hp
    have hle := h.le
    have hanchor := h.anchor_le
    have heven := h.even
    have hlost := h.lost_le hsound hp hty rest.head?
    have hend := h.ahead.before_end hp
    have htotal := @total_lost env rel rest.head?
    have htwo : 2 ∣ total (lost env rel rest.head?) :=
      dvd_total fun r hr => ((h.foot_of_lost hp hty hr).even hty).1
    refine ⟨rel.offset + rel.width, {
      ahead := h.ahead.next hp
      anchor_le := by omega
      le := by omega
      even := by omega
      quad := ?_
      still := hstill }⟩
    intro hhalf
    rw [Bool.or_eq_false_iff] at hhalf
    have hquad := h.quad hhalf.1
    have hfour : 4 ∣ total (lost env rel rest.head?) := by
      refine dvd_total ?_
      intro r hr
      rcases ((h.foot_of_lost hp hty hr).even hty).2 with h4 | ⟨hhi, hr2⟩
      · exact h4
      · have hnot := hhalf.2
        simp only [halved, hhi, decide_true, Bool.true_and, Bool.or_eq_false_iff,
          decide_eq_false_iff_not, beq_eq_false_iff_ne] at hnot
        rw [hr2] at hr
        rcases mem_append.mp hr with hr | hr
        · exact absurd (mem_of_mem_filter hr) hnot.1
        · exact absurd (mem_toList.mp hr) hnot.2
    omega

end

/-! ## 5. A pass -/

theorem before_ranges_cons {x : Nat} (hx : ∀ r, emit env cum rel rest.head? = some r → r.1 < x) :
    cum + before (ranges env cum (rel :: rest)) x
      = cum + bytesOf (emit env cum rel rest.head?)
        + before (ranges env (cum + bytesOf (emit env cum rel rest.head?)) rest) x := by
  rw [ranges]
  cases hemit : emit env cum rel rest.head? with
  | none => rfl
  | some r =>
    have hlt := hx r hemit
    change cum + before (r :: ranges env (cum + r.2) rest) x
      = cum + r.2 + before (ranges env (cum + r.2) rest) x
    rw [before_cons, if_pos hlt]
    omega

/-- What is new before the end of a sled, in the steps of the scan. -/
theorem Walk.before_ranges (h : Walk env rels (rel :: rest) len pos cum anchor half limit)
    {q : Rela} (hq : q ∈ rel :: rest) (hqty : q.rawType = .align) :
    cum + before (ranges env cum (rel :: rest)) (q.offset + 1)
      = cum + bytesOf (emit env cum rel rest.head?)
        + before (ranges env (cum + bytesOf (emit env cum rel rest.head?)) rest) (q.offset + 1) := by
  refine before_ranges_cons ?_
  intro r hemit
  have hsled : rel.rawType = .align → rel.width < 2 ^ 32 := fun hty =>
    (h.ahead.placed.2 rel mem_cons_self (by simp [placed, hty])).2 hty
  have hfoot := emit_foot hsled hemit
  have hin := hfoot.within
  have hr := hfoot.pos
  rcases mem_cons.mp hq with rfl | hq
  · unfold Foot at hfoot
    simp only [hqty] at hfoot
    omega
  · have := (pairwise_cons.mp h.ahead.placed.1).1 q hq hfoot.placed (sled_placed hqty)
    omega

/-- Later ranges are behind a sled. -/
theorem Walk.before_later (h : Walk env rels (rel :: rest) len pos cum anchor half limit)
    (hty : rel.rawType = .align) (hlong : 4 < rel.width) (c : Nat) :
    before (ranges env c rest) (rel.offset + 1) = 0 := by
  refine before_eq_zero ?_
  have hapart := @apart_ranges env len rest (rel.offset + rel.width) c h.ahead.placed.tail
    fun q hq hpq => (pairwise_cons.mp h.ahead.placed.1).1 q hq (sled_placed hty) hpq
  intro r hr
  have := hapart.le r hr
  omega

end

section

variable {env : ScanInput} {rels : List Rela} {len : Nat}

/-- **The scan from a position on.** -/
theorem Walk.aligned (hsound : Sound rels env.existingDeltas) (hlong : LongSleds rels)
    (haddr : AtMultiple rels env.sectionOutputAddress)
    (hprev : rawOf env.existingDeltas = [] ∨ Aligned (rawOf env.existingDeltas) rels)
    (rest : List Rela) : ∀ {pos cum anchor : Nat} {half : Bool} {limit : Option Nat},
      Walk env rels rest len pos cum anchor half limit → (∀ rel ∈ rest, rel ∈ rels) →
      Spaced env anchor half rest → Undisturbed env limit rest →
      ∀ q ∈ rest, ∀ a, Sled q a →
        a ∣ q.offset + q.width - (before (rawOf env.existingDeltas) (q.offset + 1)
          + (cum + before (ranges env cum rest) (q.offset + 1))) := by
  induction rest with
  | nil =>
    intro pos cum anchor half limit _ _ _ _ q hq
    exact absurd hq not_mem_nil
  | cons rel rest ih =>
    intro pos cum anchor half limit h hsub hspaced hund q hq a hqsled
    have hsub' : ∀ r ∈ rest, r ∈ rels := fun r hr => hsub r (mem_cons_of_mem rel hr)
    have hmem := hsub rel mem_cons_self
    rw [h.before_ranges hq hqsled.1]
    unfold Spaced at hspaced
    unfold Undisturbed at hund
    by_cases hty : rel.rawType = .align
    · rw [if_pos hty] at hspaced hund
      obtain ⟨hlen, b, hsled⟩ := hlong rel hmem hty
      have hwidth := (h.ahead.placed.2 rel mem_cons_self (sled_placed hty)).2 hty
      have hemit : emit env cum rel rest.head? = alignRange env cum rel := by simp only [emit, hty]
      have hend : b ∣ rel.offset + rel.width - (before (rawOf env.existingDeltas) (rel.offset + 1)
          + (cum + bytesOf (alignRange env cum rel))) := by
        by_cases hhas : env.hasDeltaAt rel.offset = true
        · have hal : Aligned (rawOf env.existingDeltas) rels := by
            rcases hprev with hnil | hal
            · obtain ⟨r, hr, _⟩ := hasDeltaAt_rawOf.mp hhas
              rw [hnil] at hr
              exact absurd hr not_mem_nil
            · exact hal
          exact h.cut_sled hmem hsled hlen hhas (hund.1 hhas) hal
        · rw [hsled.alignment_eq hlen] at hspaced
          exact h.new_sled hsound hsled hlen hwidth (Bool.eq_false_of_not_eq_true hhas)
            (haddr rel hmem b hsled) hspaced.1.1 hspaced.1.2
      have hnext := h.past_sled hsound hmem hsled hlen hwidth (haddr rel hmem b hsled) hend
      rw [hemit]
      rcases mem_cons.mp hq with rfl | hq
      · have hab : a = b := (hqsled.alignment_eq hlen).symm.trans (hsled.alignment_eq hlen)
        rw [hab, h.before_later hty hlen, add_zero]
        exact hend
      · exact ih hnext hsub' hspaced.2 hund.2 q hq a hqsled
    · rw [if_neg hty] at hspaced hund
      obtain ⟨pos', hnext⟩ := h.past_other hsound hty
      rw [emit_cum hty]
      rcases mem_cons.mp hq with rfl | hq
      · exact absurd hqsled.1 hty
      · exact ih hnext hsub' hspaced hund q hq a hqsled

/-- **A pass keeps the alignments**, or makes them if it is the first. -/
theorem aligned_passDeltas (hrels : WellPlaced len rels) (hsound : Sound rels env.existingDeltas)
    (hlong : LongSleds rels) (hkeeps : KeepsAlignment env rels)
    (hprev : rawOf env.existingDeltas = [] ∨ Aligned (rawOf env.existingDeltas) rels) :
    Aligned (rawOf (passDeltas env rels)) rels := by
  have hzero : before (rawOf env.existingDeltas) 0 = 0 := before_eq_zero fun _ _ => zero_le _
  have hstart : Walk env rels rels len 0 0 0 false none := {
    ahead := {
      placed := hrels
      le := fun _ _ _ => zero_le _
      foot := fun r hr _ => hsound.foot r hr
      behind := fun _ _ h => absurd h (not_lt_zero _) }
    anchor_le := le_refl 0
    le := by rw [hzero]
    even := by rw [hzero]
    quad := fun _ => by rw [hzero]
    still := fun _ k _ => Nat.dvd_zero _ }
  intro rel hrel a hsled
  have hend := Walk.aligned hsound hlong hkeeps.address hprev rels hstart (fun _ h => h)
    hkeeps.spaced hkeeps.undisturbed rel hrel a hsled
  rw [zero_add] at hend
  rw [before_perm (rawOf_passDeltas env rels), before_append]
  exact hend

end

/-! ## 6. Runs -/

theorem deltasAfter_concat (bytes : Bytes) (rels : List Rela) (passes : List PassInput)
    (p : PassInput) :
    deltasAfter bytes rels (passes ++ [p])
      = passDeltas (p.scan bytes (deltasAfter bytes rels passes)) rels := by
  simp [deltasAfter, foldl_append]

theorem passes_deltasAfter (bytes : Bytes) (rels : List Rela) (passes : List PassInput) :
    Passes bytes rels (deltasAfter bytes rels passes) := by
  induction passes using reverseRecOn with
  | nil => exact .none
  | append_singleton passes p ih =>
    rw [deltasAfter_concat]
    exact .pass ih p.address p.resolveSymbol

variable {deltas : Option SectionRelaxDeltas}

/-- What is gone from a sled, as a deletion at its start. -/
theorem total_at_offset
    (hsep : Separate (rawOf deltas)) (offset : Nat) :
    total ((rawOf deltas).filter fun r => offset ≤ r.1 && r.1 < offset + 1)
      = removedAt deltas offset := by
  have hat : ∀ r : Nat × Nat, (decide (offset ≤ r.1) && decide (r.1 < offset + 1)) = true ↔
      r.1 = offset := by
    intro r
    simp only [Bool.and_eq_true, decide_eq_true_eq]
    omega
  by_cases hex : ∃ r ∈ rawOf deltas, r.1 = offset
  · obtain ⟨r, hr, rfl⟩ := hex
    have hnodup : ((rawOf deltas).map (·.1)).Nodup :=
      pairwise_map.mpr (hsep.pairwise.imp ne_of_lt)
    rw [total_filter_of_unique hsep.pairwise hr fun q hq => (hat q).trans
      ⟨fun h => inj_on_of_nodup_map hnodup hq hr h, fun h => by rw [h]⟩]
    cases deltas with
    | none => exact absurd hr not_mem_nil
    | some d => exact (deltaBytesAt_of_mem hsep.pairwise hr).symm
  · have hnil : ((rawOf deltas).filter fun r => offset ≤ r.1 && r.1 < offset + 1) = [] := by
      refine filter_eq_nil_iff.mpr ?_
      intro r hr
      rw [hat r]
      exact fun h => hex ⟨r, hr, h⟩
    rw [hnil]
    cases deltas with
    | none => rfl
    | some d =>
      exact (deltaBytesAt_eq_zero fun r hr h => hex ⟨r, hr, h⟩).symm

/-- The end of a sled, by what is deleted before it and from it. -/
theorem sledEnd_eq {len : Nat} {rels : List Rela} (hrels : WellPlaced len rels) (hsound : Sound rels deltas) {rel : Rela}
    (hrel : rel ∈ rels) (hty : rel.rawType = .align) (hlong : 4 < rel.width) :
    sledEnd deltas rel = rel.offset + rel.width - before (rawOf deltas) (rel.offset + 1) := by
  have hp := sled_placed hty
  have hle := hsound.separate.1.before_add_le (zero_le rel.offset) fun r hr hlt => by
    rcases hsound.clear hrels hrel hp hr with h | h | h
    · have := h.within
      omega
    · exact h
    · omega
  have hstep := before_eq_add_total (le_add_right rel.offset 1) (rawOf deltas)
  rw [total_at_offset hsound.separate] at hstep
  have hwithin := hsound.separate.1.before_le_add (le_add_right rel.offset rel.width)
    fun r hr hlt => by
      rcases hsound.clear hrels hrel hp hr with h | h | h
      · exact h.within.2
      · omega
      · omega
  have hmono := before_mono (show rel.offset + 1 ≤ rel.offset + rel.width by omega) (rawOf deltas)
  rw [sledEnd, optInputToOutput_eq hsound]
  omega

theorem aligned_deltasAfter {bytes : Bytes} {rels : List Rela}
    (hrels : WellPlaced bytes.length rels) (hlong : LongSleds rels) (passes : List PassInput) :
    (∀ front p back, passes = front ++ p :: back →
      KeepsAlignment (p.scan bytes (deltasAfter bytes rels front)) rels) →
    rawOf (deltasAfter bytes rels passes) = [] ∧ passes = [] ∨
      Aligned (rawOf (deltasAfter bytes rels passes)) rels := by
  induction passes using reverseRecOn with
  | nil => exact fun _ => .inl ⟨rfl, rfl⟩
  | append_singleton passes p ih =>
    intro hkeeps
    have hsound := (passes_deltasAfter bytes rels passes).sound hrels
    have hpast := ih fun front q back hsplit => hkeeps front q (back ++ [p]) (by
      rw [hsplit, List.append_assoc, cons_append])
    refine .inr ?_
    rw [deltasAfter_concat]
    refine aligned_passDeltas hrels hsound hlong (hkeeps passes p [] rfl) ?_
    rcases hpast with ⟨hnil, _⟩ | hal
    · exact .inl hnil
    · exact .inr hal

/-- **Alignments are honoured after every pass**, in every run whose passes keep them. -/
theorem sleds_stay_aligned {bytes : Bytes} {rels : List Rela} {passes : List PassInput}
    (hrels : WellPlaced bytes.length rels) (hlong : LongSleds rels)
    (hkeeps : ∀ front p back, passes = front ++ p :: back →
      KeepsAlignment (p.scan bytes (deltasAfter bytes rels front)) rels) :
    ∀ front p back, passes = front ++ p :: back → ∀ rel ∈ rels, ∀ a, Sled rel a →
      ∀ address, a ∣ address →
        a ∣ address + sledEnd (deltasAfter bytes rels (front ++ [p])) rel := by
  intro front p back hpasses rel hrel a hsled address haddr
  have hlen := (hlong rel hrel hsled.1).1
  have hsound := (passes_deltasAfter bytes rels (front ++ [p])).sound hrels
  have hal := aligned_deltasAfter hrels hlong (front ++ [p]) fun front' q back' hsplit =>
    hkeeps front' q (back' ++ back) (by
      rw [hpasses, append_cons, hsplit, List.append_assoc, cons_append])
  rcases hal with ⟨_, hnil⟩ | hal
  · exact absurd hnil (by simp)
  · rw [sledEnd_eq hrels hsound hrel hsled.1 hlen]
    exact Nat.dvd_add haddr (hal rel hrel a hsled)

/-- `call f`, and six bytes of NOPs for an alignment to eight. -/
def callAndSled : List Rela :=
  [⟨0, .call, some 0, 0⟩, ⟨0, .relax, none, 0⟩, ⟨8, .align, none, 6⟩]

def callAndSledPass : PassInput := ⟨0x1000, fun _ => some ⟨0x1000, false⟩⟩

theorem sled_of_callAndSled {rel : Rela} (hrel : rel ∈ callAndSled) (hty : rel.rawType = .align) :
    4 < rel.width ∧ Sled rel 8 := by
  simp only [callAndSled, mem_cons, not_mem_nil, or_false] at hrel
  rcases hrel with rfl | rfl | rfl
  · cases hty
  · cases hty
  · exact ⟨by decide, rfl, ⟨3, rfl⟩, .inl rfl⟩

/-- The call loses its `jalr` and the sled two of its NOPs; a second pass changes nothing. -/
theorem callAndSled_aligned :
    8 ∣ 0x1000 + sledEnd (deltasAfter (List.replicate 16 0) callAndSled
      [callAndSledPass, callAndSledPass]) ⟨8, .align, none, 6⟩ := by
  have hsled : Sled ⟨8, .align, none, 6⟩ 8 := ⟨rfl, ⟨3, rfl⟩, .inl rfl⟩
  have haddr : AtMultiple callAndSled 0x1000 := by
    intro rel hrel a ha
    obtain ⟨hlen, h8⟩ := sled_of_callAndSled hrel ha.1
    rw [← ha.alignment_eq hlen, h8.alignment_eq hlen]
    decide
  refine @sleds_stay_aligned (replicate 16 0) callAndSled [callAndSledPass, callAndSledPass]
    (by decide) ?_ ?_ [callAndSledPass] callAndSledPass [] rfl _ (by decide) 8 hsled _ (by decide)
  · intro rel hrel hty
    exact ⟨(sled_of_callAndSled hrel hty).1, 8, (sled_of_callAndSled hrel hty).2⟩
  · intro front p back hsplit
    rcases front with _ | ⟨q, _ | ⟨q', front⟩⟩
    · obtain ⟨rfl, _⟩ := List.cons.inj hsplit
      exact ⟨haddr, by decide, by decide⟩
    · obtain ⟨rfl, htail⟩ := List.cons.inj hsplit
      obtain ⟨rfl, _⟩ := List.cons.inj htail
      exact ⟨haddr, by decide, by decide⟩
    · simp at hsplit

/-- Four bytes of NOPs for an alignment to eight are taken for an alignment to four: all of them
are deleted, and what is behind them is at a multiple of four only. -/
theorem short_sled_misaligned :
    ¬ ∀ (bytes : Bytes) (rels : List Rela) (passes : List PassInput) (address : Nat),
        WellPlaced bytes.length rels → passes ≠ [] →
        (∀ p ∈ passes, AtMultiple rels p.address) → AtMultiple rels address →
        ∀ rel ∈ rels, ∀ a, Sled rel a →
          a ∣ address + sledEnd (deltasAfter bytes rels passes) rel := by
  intro h
  have hsled : Sled ⟨4, .align, none, 4⟩ 8 := ⟨rfl, ⟨3, rfl⟩, .inr rfl⟩
  have haddr : AtMultiple [⟨4, .align, none, 4⟩] 0x1000 := by
    intro rel hrel a ha
    obtain rfl := mem_singleton.mp hrel
    obtain ⟨k, rfl⟩ := ha.2.1
    have hwidth : width ⟨4, .align, none, 4⟩ = 4 := rfl
    have hpow := ha.2.2
    rw [hwidth] at hpow
    -- `2 ^ k` is six or eight, so it is eight
    match k with
    | 0 => omega
    | 1 => omega
    | 2 => omega
    | 3 => decide
    | k + 4 =>
      have := Nat.one_le_two_pow (n := k)
      rw [pow_add] at hpow
      omega
  have hend := h (replicate 8 0) [⟨4, .align, none, 4⟩] [⟨0x1000, fun _ => none⟩] 0x1000
    (by decide) (by decide) (by simpa using haddr) haddr _ mem_cons_self 8 hsled
  exact absurd hend (by decide)

end Srs.Relaxation
