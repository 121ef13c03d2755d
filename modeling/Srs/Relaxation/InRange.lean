/-
# Whether relaxed calls stay in reach

The scan accepts a call by an estimate: the offsets of the call and of its target are those of the
input, and the sections are where they are before the pass.  Later deletions bring the two nearer,
with one exception.  Deletions before a call move it away from the end of its section, and the
capacity of the section need not follow: the alignment takes the deleted bytes up as padding.  For
a call to a later section that is the padding of its own section, for one to an earlier section
that of the target's.

So a call that is accepted while its distance in the layout leaves room for that padding
(`Room`) is in reach at the end, and if all are, the relaxed program is good
(`relaxed_calls_fit`).  Without the room, it need not be (`relaxed_call_out_of_reach`).
-/
import Srs.Relaxation.Program

namespace Srs.Relaxation

open Deletions List Option ExecSection

/-! ## 1. Room for the padding -/

namespace ExecSection

/-- An offset that no deletion can go over. -/
def Landing (sec : ExecSection) (value : Nat) : Prop :=
  value ≤ sec.bytes.length ∧
    ∀ rel ∈ sec.relocations, ∀ r, rel.Foot r → ¬ (r.1 < value ∧ value < r.1 + r.2)

/-- The padding at the end of a section. -/
def padding (sec : ExecSection) : Nat :=
  roundUp sec.alignment.exponent.toNat sec.size - sec.size

/-- The padding there can be. -/
def maxPadding (sec : ExecSection) : Nat := 2 ^ sec.alignment.exponent.toNat - 1

/-- What holds of a section before and after every pass. -/
structure Good (sec : ExecSection) : Prop where
  relocations : WellPlaced sec.bytes.length sec.relocations
  deltas : Sound sec.relocations sec.deltas
  size : sec.size + total (rawOf sec.deltas) = sec.bytes.length
  length : sec.bytes.length < 2 ^ 63

/-- A section some passes later. -/
structure Later (sec sec' : ExecSection) : Prop where
  alignment : sec'.alignment = sec.alignment
  bytes : sec'.bytes = sec.bytes
  relocations : sec'.relocations = sec.relocations
  extraCapacity : sec'.extraCapacity = sec.extraCapacity
  deltas : ∃ new, (rawOf sec'.deltas).Perm (rawOf sec.deltas ++ new) ∧
    sec'.size + total new = sec.size

end ExecSection

namespace Program

/-- The sections as they come from the input files. -/
def WellFormed (p : Program) : Prop :=
  ∀ sec ∈ p.sections, sec.deltas = none ∧ sec.size = sec.bytes.length ∧
    WellPlaced sec.bytes.length sec.relocations ∧ sec.bytes.length < 2 ^ 63

/-- **Room for a call**: its distance in the layout, and the padding that can come in. -/
def Room (p : Program) (index : Nat) (sec : ExecSection) (offset : Nat) : SymbolPlace → Prop
  | .inSection j value => ∀ dest, p.sections[j]? = some dest → dest.Landing value ∧
    (index < j → p.place j dest value + sec.maxPadding
      ≤ p.place index sec offset + sec.padding + (2 ^ 20 - 1)) ∧
    (j < index → p.place index sec offset + dest.maxPadding
      ≤ p.place j dest value + dest.padding + 2 ^ 20)
  | .absolute value =>
    value ≤ p.base + (2 ^ 20 - 1) ∧ p.place index sec offset ≤ value + 2 ^ 20
  | .undefined => True

/-- Every call that a pass shortens has room. -/
def HasRoom (p : Program) (rescan : Option (List Nat)) : Prop :=
  ∀ (index : Nat) (sec : ExecSection), p.sections[index]? = some sec →
    isScanned rescan index = true → ∀ front rel back, sec.relocations = front ++ rel :: back →
    rel.isCall = true → (emit (p.scanInput index sec) 0 rel back.head?).isSome = true →
    ∀ symIdx, rel.symbol = some symIdx → p.Room index sec rel.offset (p.symbol symIdx).place

/-- A program some passes later. -/
structure Later (p p' : Program) : Prop where
  base : p'.base = p.base
  symbol : p'.symbol = p.symbol
  sections : Forall₂ ExecSection.Later p.sections p'.sections

/-- All sections are good. -/
def Good (p : Program) : Prop := ∀ sec ∈ p.sections, sec.Good

end Program

/-! ## 2. Sections -/

theorem roundUp_le (e n : Nat) : roundUp e n ≤ n + (2 ^ e - 1) := Nat.div_mul_le_self _ _

theorem roundUp_mono (e : Nat) {m n : Nat} (h : m ≤ n) : roundUp e m ≤ roundUp e n :=
  Nat.mul_le_mul_right _ (Nat.div_le_div_right (Nat.add_le_add_right h _))

namespace ExecSection

theorem Later.refl (sec : ExecSection) : sec.Later sec where
  alignment := rfl
  bytes := rfl
  relocations := rfl
  extraCapacity := rfl
  deltas := ⟨[], by rw [append_nil], rfl⟩

theorem Later.trans {a b c : ExecSection} (h : a.Later b) (h' : b.Later c) : a.Later c where
  alignment := h'.alignment.trans h.alignment
  bytes := h'.bytes.trans h.bytes
  relocations := h'.relocations.trans h.relocations
  extraCapacity := h'.extraCapacity.trans h.extraCapacity
  deltas := by
    obtain ⟨new, hperm, hsize⟩ := h.deltas
    obtain ⟨new', hperm', hsize'⟩ := h'.deltas
    refine ⟨new ++ new', ?_, ?_⟩
    · rw [← List.append_assoc]
      exact hperm'.trans (hperm.append_right new')
    · rw [total_append]
      omega

theorem Later.capacity_le {sec sec' : ExecSection} (h : sec.Later sec') :
    sec'.capacity ≤ sec.capacity := by
  obtain ⟨new, _, hsize⟩ := h.deltas
  have := roundUp_mono sec.alignment.exponent.toNat (show sec'.size ≤ sec.size by omega)
  unfold capacity
  rw [h.alignment, h.extraCapacity]
  omega

variable {sec : ExecSection}

theorem outputOffset_eq (h : sec.Good) (x : Nat) :
    sec.outputOffset x = x - before (rawOf sec.deltas) x :=
  optInputToOutput_eq h.deltas x

/-- What is at an offset that no deletion goes over. -/
structure Clean (sec : ExecSection) (x : Nat) : Prop where
  le : x ≤ sec.bytes.length
  whole : ∀ r ∈ rawOf sec.deltas, r.1 < x → r.1 + r.2 ≤ x

variable {x : Nat}

theorem Landing.clean (hgood : sec.Good) (h : sec.Landing x) :
    sec.Clean x where
  le := h.1
  whole := by
    intro r hr hlt
    obtain ⟨rel, hrel, hfoot⟩ := hgood.deltas.foot r hr
    have := h.2 rel hrel r hfoot
    omega

theorem clean_call (hgood : sec.Good) {rel : Rela}
    (hrel : rel ∈ sec.relocations) (hcall : rel.isCall = true) : sec.Clean rel.offset where
  le := by
    have := call_within hgood.relocations hrel hcall
    omega
  whole := by
    intro r hr hlt
    rcases hgood.deltas.call_clear hgood.relocations hrel hcall hr with rfl | h | h
    · dsimp only at hlt
      omega
    · exact h
    · omega

theorem Later.landing {sec sec' : ExecSection} (h : sec.Later sec')
    (hx : sec.Landing x) : sec'.Landing x := by
  unfold Landing
  rw [h.bytes, h.relocations]
  exact hx

/-- **Deletions before an offset**: not more than there is before it, or all but what there is
behind it; and never fewer later. -/
theorem Clean.before_le (h : sec.Good) (hx : sec.Clean x) :
    before (rawOf sec.deltas) x ≤ x := by
  have := h.deltas.separate.1.before_add_le (Nat.zero_le x) hx.whole
  omega

theorem Clean.total_le (h : sec.Good) (hx : sec.Clean x) :
    total (rawOf sec.deltas) ≤ before (rawOf sec.deltas) x + (sec.bytes.length - x) := by
  have hall : before (rawOf sec.deltas) sec.bytes.length = total (rawOf sec.deltas) := by
    refine before_eq_total ?_
    intro r hr
    have := h.deltas.le_length h.relocations hr
    have := h.deltas.separate.2 r hr
    omega
  rw [← hall]
  refine h.deltas.separate.1.before_le_add hx.le ?_
  intro r hr _
  exact h.deltas.le_length h.relocations hr

/-- The end of a section gets nearer to an offset by what is deleted between them. -/
theorem Later.size_before {sec sec' : ExecSection} (h : sec.Later sec') (x : Nat) :
    before (rawOf sec.deltas) x ≤ before (rawOf sec'.deltas) x ∧
      sec'.size + before (rawOf sec'.deltas) x ≤ sec.size + before (rawOf sec.deltas) x := by
  obtain ⟨new, hperm, hsize⟩ := h.deltas
  have hle := before_le_total new x
  rw [before_perm hperm, before_append]
  omega

end ExecSection

/-! ## 3. Distances in the layout -/

theorem distanceFitsJal_of {t place : Nat} (hle : place ≤ t + 2 ^ 20)
    (hge : t ≤ place + (2 ^ 20 - 1)) : distanceFitsJal (distance t place) = true := by
  have hd : distance t place = (t : Int) - place := by
    unfold distance
    exact Int.bmod_eq_of_le_mul_two (by omega) (by omega)
  rw [hd]
  simp only [distanceFitsJal, Bool.and_eq_true, decide_eq_true_eq]
  omega

theorem exists_getElem?_of_forall₂ {α : Type} {R : α → α → Prop} {l l' : List α}
    (h : Forall₂ R l l') : ∀ {i : Nat} {a : α}, l[i]? = some a →
      ∃ b, l'[i]? = some b ∧ R a b := by
  induction h with
  | nil =>
    intro i a ha
    simp at ha
  | cons hab _ ih =>
    intro i a ha
    cases i with
    | zero =>
      rw [getElem?_cons_zero, some.injEq] at ha
      subst ha
      exact ⟨_, rfl, hab⟩
    | succ i => exact ih (by simpa using ha)

theorem take_eq_append {α : Type} {l : List α} {i j : Nat} {a : α} (ha : l[i]? = some a)
    (hij : i < j) : l.take j = l.take i ++ a :: (l.take j).drop (i + 1) := by
  have hget : (l.take j)[i]? = some a := by
    rw [getElem?_take_of_lt hij]
    exact ha
  obtain ⟨hlt, hval⟩ := List.getElem?_eq_some_iff.mp hget
  have hdrop : (l.take j).drop i = a :: (l.take j).drop (i + 1) := by
    rw [drop_eq_getElem_cons hlt, hval]
  have htake : (l.take j).take i = l.take i := by
    rw [take_take, Nat.min_eq_left (Nat.le_of_lt hij)]
  rw [← hdrop, ← htake, take_append_drop]

theorem sum_capacity_le {l l' : List ExecSection} (h : Forall₂ Later l l') :
    (l'.map (·.capacity)).sum ≤ (l.map (·.capacity)).sum := by
  induction h with
  | nil => exact Nat.le_refl _
  | cons hab _ ih =>
    have := hab.capacity_le
    simp only [map_cons, sum_cons]
    omega

theorem forall₂_later_trans {l l' l'' : List ExecSection}
    (h : Forall₂ Later l l') (h' : Forall₂ Later l' l'') :
    Forall₂ Later l l'' := by
  induction h generalizing l'' with
  | nil =>
    cases h'
    exact .nil
  | cons hab _ ih =>
    cases h' with
    | cons hbc hrest => exact .cons (hab.trans hbc) (ih hrest)

namespace Program

theorem Later.refl (p : Program) : p.Later p where
  base := rfl
  symbol := rfl
  sections := forall₂_same.mpr fun sec _ => .refl sec

theorem Later.trans {a b c : Program} (h : a.Later b) (h' : b.Later c) : a.Later c where
  base := h'.base.trans h.base
  symbol := h'.symbol.trans h.symbol
  sections := forall₂_later_trans h.sections h'.sections

/-- The capacities between two sections. -/
def between (p : Program) (i j : Nat) : Nat :=
  (((p.sections.take j).drop (i + 1)).map (·.capacity)).sum

theorem address_eq_add {p : Program} {i j : Nat} {sec : ExecSection}
    (hsec : p.sections[i]? = some sec) (hij : i < j) :
    p.address j = p.address i + sec.capacity + p.between i j := by
  unfold address between
  rw [take_eq_append hsec hij, map_append, sum_append, map_cons, sum_cons]
  have hlen : (p.sections.take i).length = i := by
    have := (List.getElem?_eq_some_iff.mp hsec).1
    rw [length_take]
    omega
  have hdrop : (p.sections.take i ++ sec :: (p.sections.take j).drop (i + 1)).drop (i + 1)
      = (p.sections.take j).drop (i + 1) := by
    rw [← take_eq_append hsec hij]
  rw [hdrop]
  omega

theorem Later.address_le {p p' : Program} (h : p.Later p') (i : Nat) :
    p'.address i ≤ p.address i := by
  have := sum_capacity_le (forall₂_take i h.sections)
  unfold address
  rw [h.base]
  omega

theorem Later.between_le {p p' : Program} (h : p.Later p') (i j : Nat) :
    p'.between i j ≤ p.between i j :=
  sum_capacity_le (forall₂_drop (i + 1) (forall₂_take j h.sections))

section

variable {p p' : Program} {index j offset value : Nat} {sec dest sec' dest' : ExecSection}

theorem place_eq (hgood : sec.Good) (x : Nat) :
    p.place index sec x = p.address index + (x - before (rawOf sec.deltas) x) := by
  rw [place, outputOffset_eq hgood]

/-- A place moves down. -/
theorem Later.place_le (h : p.Later p') (hsec : sec.Later sec') (hgood : sec.Good)
    (hgood' : sec'.Good) (x : Nat) : p'.place index sec' x ≤ p.place index sec x := by
  have haddr := h.address_le index
  have hbefore := (hsec.size_before x).1
  rw [place_eq hgood, place_eq hgood']
  omega

/-- The distance from an offset to one in a later section, up to the padding of the first. -/
theorem later_forward (h : p.Later p') (hij : index < j)
    (hsec : p.sections[index]? = some sec) (hsec' : p'.sections[index]? = some sec')
    (hlater : sec.Later sec') (hdest : dest.Later dest') (hg : sec.Good) (hg' : sec'.Good)
    (hd : dest.Good) (hd' : dest'.Good) (hclean : sec.Clean offset) (hclean' : sec'.Clean offset) :
    p'.place index sec' offset ≤ p'.place j dest' value ∧
      p'.place j dest' value + p.place index sec offset + sec.padding
        ≤ p'.place index sec' offset + p.place j dest value + sec.maxPadding := by
  have hbefore := hlater.size_before offset
  have hbefore' := (hdest.size_before value).1
  have hle := hclean.before_le hg
  have hle' := hclean'.before_le hg'
  have htotal := hclean'.total_le hg'
  have hoff := hclean'.le
  have hsize' := hg'.size
  have hbetween := h.between_le index j
  have hround := le_roundUp sec.alignment.exponent.toNat sec.size
  have hround' := le_roundUp sec.alignment.exponent.toNat sec'.size
  have hroundLe := roundUp_le sec.alignment.exponent.toNat sec'.size
  rw [place_eq hg, place_eq hg', place_eq hd, place_eq hd', address_eq_add hsec hij,
    address_eq_add hsec' hij]
  unfold capacity padding maxPadding
  rw [hlater.alignment, hlater.extraCapacity]
  omega

/-- Two offsets of one section do not get further apart. -/
theorem same_section (hg' : sec'.Good) (hoff : sec'.Clean offset) (hval : sec'.Clean value)
    (hle : offset ≤ value + 2 ^ 20) (hge : value ≤ offset + (2 ^ 20 - 1)) :
    p'.place index sec' offset ≤ p'.place index sec' value + 2 ^ 20 ∧
      p'.place index sec' value ≤ p'.place index sec' offset + (2 ^ 20 - 1) := by
  have hboff := hoff.before_le hg'
  have hbval := hval.before_le hg'
  rw [place_eq hg', place_eq hg']
  rcases Nat.le_total offset value with hov | hvo
  · have hmono := before_mono hov (rawOf sec'.deltas)
    have hstep := hg'.deltas.separate.1.before_le_add hov hval.whole
    omega
  · have hmono := before_mono hvo (rawOf sec'.deltas)
    have hstep := hg'.deltas.separate.1.before_le_add hvo hoff.whole
    omega

/-- The estimate inside a section is the distance of the offsets. -/
theorem estimate_same {address : Nat} (hoff : offset < 2 ^ 63) (hval : value < 2 ^ 63)
    (h : distanceFitsJal (distance (address + value) (address + offset)) = true) :
    offset ≤ value + 2 ^ 20 ∧ value ≤ offset + (2 ^ 20 - 1) := by
  have hd : distance (address + value) (address + offset) = (value : Int) - offset := by
    unfold distance
    have hsub : ((address + value : Nat) : Int) - ((address + offset : Nat) : Int)
        = (value : Int) - offset := by omega
    rw [hsub]
    exact Int.bmod_eq_of_le_mul_two (by omega) (by omega)
  rw [hd] at h
  simp only [distanceFitsJal, Bool.and_eq_true, decide_eq_true_eq] at h
  omega

variable {rel : Rela}

/-- What an accepted call is about. -/
theorem callFits_resolved (h : callFits (p.scanInput index sec) rel = true) :
    ∃ symIdx, rel.symbol = some symIdx ∧
      p.symbolAddress (p.symbol symIdx).place ≠ symbolAddressUnresolved ∧
      distanceFitsJal (distance (p.symbolAddress (p.symbol symIdx).place)
        (p.address index + rel.offset)) = true := by
  unfold callFits at h
  cases hsym : rel.symbol with
  | none => simp [hsym] at h
  | some symIdx =>
    refine ⟨symIdx, rfl, ?_⟩
    rw [hsym, bind_some] at h
    simp only [scanInput, resolve] at h
    split at h
    · rename_i info hinfo
      split at hinfo
      · cases hinfo
      · rename_i hne
        cases hinfo
        simp only [Bool.and_eq_true] at h
        exact ⟨hne, h.2⟩
    · cases h

/-- **A call with room is in reach from then on.** -/
theorem fits_of_room (hgood : p.Good) (hgood' : p'.Good) (h : p.Later p')
    (hsec : p.sections[index]? = some sec) (hsec' : p'.sections[index]? = some sec')
    (hrel : rel ∈ sec.relocations) (hcall : rel.isCall = true) {symIdx : Nat}
    (hne : p.symbolAddress (p.symbol symIdx).place ≠ symbolAddressUnresolved)
    (hfits : distanceFitsJal (distance (p.symbolAddress (p.symbol symIdx).place)
      (p.address index + rel.offset)) = true)
    (hroom : p.Room index sec rel.offset (p.symbol symIdx).place) :
    ∃ t, p'.target (p'.symbol symIdx).place = some t ∧
      distanceFitsJal (distance t (p'.place index sec' rel.offset)) = true := by
  have hg := hgood sec (mem_of_getElem? hsec)
  have hg' := hgood' sec' (mem_of_getElem? hsec')
  obtain ⟨_, hget, hlater⟩ := exists_getElem?_of_forall₂ h.sections hsec
  rw [hsec'] at hget
  cases hget
  have hrel' : rel ∈ sec'.relocations := by
    rw [hlater.relocations]
    exact hrel
  have hclean := clean_call hg hrel hcall
  have hclean' := clean_call hg' hrel' hcall
  rw [h.symbol]
  cases hplace : (p.symbol symIdx).place with
  | undefined =>
    rw [hplace] at hne
    exact absurd rfl hne
  | absolute value =>
    rw [hplace] at hroom
    refine ⟨value, rfl, ?_⟩
    have hdown := @Later.place_le p p' index sec sec' h hlater hg hg' rel.offset
    have hbase : p.base ≤ p'.place index sec' rel.offset := by
      unfold place address
      rw [h.base]
      omega
    exact distanceFitsJal_of (Nat.le_trans hdown hroom.2) (by have := hroom.1; omega)
  | inSection j value =>
    rw [hplace] at hne hfits hroom
    unfold symbolAddress at hne hfits
    dsimp only at hne hfits
    have hj : j < p.sections.length := by
      by_contra hnot
      rw [if_neg hnot] at hne
      exact hne rfl
    have hdest : p.sections[j]? = some p.sections[j] := getElem?_eq_getElem hj
    obtain ⟨dest', hdest', hlaterDest⟩ := exists_getElem?_of_forall₂ h.sections hdest
    have hd := hgood p.sections[j] (mem_of_getElem? hdest)
    have hd' := hgood' dest' (mem_of_getElem? hdest')
    obtain ⟨hland, hforward, hbackward⟩ := hroom p.sections[j] hdest
    have hval := hland.clean hd
    have hval' := (hlaterDest.landing hland).clean hd'
    refine ⟨p'.place j dest' value, by rw [target, hdest']; rfl, ?_⟩
    rcases Nat.lt_trichotomy index j with hij | rfl | hij
    · have hdist := @later_forward p p' index j rel.offset value sec p.sections[j] sec' dest' h hij
        hsec hsec' hlater hlaterDest hg hg' hd hd' hclean hclean'
      have := hforward hij
      exact distanceFitsJal_of (by omega) (by omega)
    · rw [hsec'] at hdest'
      cases hdest'
      rw [if_pos hj] at hfits hne
      have haddr : p.address index ≠ 0 := by
        intro hzero
        rw [if_pos hzero] at hne
        exact hne rfl
      rw [if_neg haddr] at hfits
      have hlen := hg'.length
      have hoffLe := hclean'.le
      have hvalLe := hval'.le
      have hest := estimate_same (by omega) (by omega) hfits
      have hsame := @same_section p' index rel.offset value sec' hg' hclean' hval' hest.1 hest.2
      exact distanceFitsJal_of hsame.1 hsame.2
    · have hdist := @later_forward p p' j index value rel.offset p.sections[j] sec dest' sec' h hij
        hdest hdest' hlaterDest hlater hd hd' hg hg' hval hval'
      have := hbackward hij
      exact distanceFitsJal_of (by omega) (by omega)

end

/-! ## 4. A pass -/

section

variable {p : Program} {rescan : Option (List Nat)} {index : Nat} {sec : ExecSection}

/-- What a pass does to a section: nothing, or the ranges of its scan are deleted. -/
theorem passSection_cases (p : Program) (rescan : Option (List Nat)) (index : Nat)
    (sec : ExecSection) :
    p.passSection rescan index sec = sec ∨
      isScanned rescan index = true ∧ p.passSection rescan index sec = { sec with
        size := sec.size - total (ranges (p.scanInput index sec) 0 sec.relocations)
        deltas := passDeltas (p.scanInput index sec) sec.relocations } := by
  have hraw : (collectRelaxationDeltas (p.scanInput index sec) sec.relocations).1
      = ranges (p.scanInput index sec) 0 sec.relocations := scan_rawDeltas _ _
  unfold passSection
  split
  · rename_i hscan
    unfold scanSection
    split
    · exact .inl rfl
    · dsimp only
      split
      · exact .inl rfl
      · rw [hraw]
        exact .inr ⟨hscan, rfl⟩
  · exact .inl rfl

variable {rels : List Rela}

/-- All that is deleted from a section is in it. -/
theorem total_le_length {len : Nat} {deltas : Option SectionRelaxDeltas}
    (hrels : WellPlaced len rels) (hsound : Sound rels deltas) : total (rawOf deltas) ≤ len := by
  have hle := hsound.separate.1.before_add_le (Nat.zero_le len) fun r hr _ =>
    hsound.le_length hrels hr
  rw [before_eq_total, Nat.zero_add] at hle
  · exact hle
  · intro r hr
    have := hsound.le_length hrels hr
    have := hsound.separate.2 r hr
    omega

theorem passSection_good (hgood : sec.Good) :
    (p.passSection rescan index sec).Good ∧ sec.Later (p.passSection rescan index sec) := by
  rcases passSection_cases p rescan index sec with heq | ⟨_, heq⟩
  · rw [heq]
    exact ⟨hgood, .refl sec⟩
  · rw [heq]
    have hsound := @sound_passDeltas (p.scanInput index sec) _ _ hgood.relocations hgood.deltas
    have hperm := rawOf_passDeltas (p.scanInput index sec) sec.relocations
    have hle := total_le_length hgood.relocations hsound
    have hsize := hgood.size
    rw [total_perm hperm, total_append] at hle
    change total (rawOf sec.deltas) + _ ≤ _ at hle
    refine ⟨⟨hgood.relocations, hsound, ?_, hgood.length⟩, ⟨rfl, rfl, rfl, rfl, _, hperm, ?_⟩⟩
    · dsimp only
      rw [total_perm hperm, total_append]
      change _ + (total (rawOf sec.deltas) + _) = _
      omega
    · dsimp only
      omega

theorem getElem?_afterPass {sec' : ExecSection}
    (h : (p.afterPass rescan).sections[index]? = some sec') :
    ∃ sec, p.sections[index]? = some sec ∧ sec' = p.passSection rescan index sec := by
  unfold afterPass at h
  rw [getElem?_mapIdx] at h
  cases hsec : p.sections[index]? with
  | none => simp [hsec] at h
  | some sec =>
    rw [hsec] at h
    exact ⟨sec, rfl, (some.inj h).symm⟩

theorem afterPass_good (hgood : p.Good) : (p.afterPass rescan).Good := by
  intro sec' hsec'
  obtain ⟨index, hindex⟩ := mem_iff_getElem?.mp hsec'
  obtain ⟨sec, hsec, rfl⟩ := getElem?_afterPass hindex
  exact (passSection_good (hgood sec (mem_of_getElem? hsec))).1

theorem forall₂_mapIdx {R : ExecSection → ExecSection → Prop} {l : List ExecSection} :
    ∀ {f : Nat → ExecSection → ExecSection}, (∀ i, ∀ sec ∈ l, R sec (f i sec)) →
      Forall₂ R l (l.mapIdx f) := by
  induction l with
  | nil =>
    intro f _
    exact .nil
  | cons a l ih =>
    intro f h
    rw [mapIdx_cons]
    exact .cons (h 0 a mem_cons_self)
      (ih fun i sec hsec => h (i + 1) sec (mem_cons_of_mem a hsec))

theorem later_afterPass (hgood : p.Good) : p.Later (p.afterPass rescan) where
  base := rfl
  symbol := rfl
  sections := forall₂_mapIdx fun _ sec hsec => (passSection_good (hgood sec hsec)).2

variable {env : ScanInput} {rel : Rela}

theorem callFits_of_emit {cum : Nat} {next : Option Rela}
    (hcall : rel.isCall = true) (h : (emit env cum rel next).isSome = true) :
    callFits env rel = true := by
  have hty : rel.rawType = .call ∨ rel.rawType = .callPlt := by simpa [Rela.isCall] using hcall
  unfold emit at h
  rcases hty with hty | hty
  · simp only [hty] at h
    split at h
    · rename_i hc
      simp only [Bool.and_eq_true] at hc
      exact hc.2
    · cases h
  · simp only [hty] at h
    split at h
    · rename_i hc
      simp only [Bool.and_eq_true] at hc
      exact hc.2
    · cases h

/-- A call whose `jalr` is new among the deletions was accepted by the scan. -/
theorem accepted_of_mem_ranges {len : Nat}
    (hrels : WellPlaced len rels) (hrel : rel ∈ rels) (hcall : rel.isCall = true)
    (h : (rel.offset + 4, 4) ∈ ranges env 0 rels) :
    ∃ front back, rels = front ++ rel :: back ∧
      (emit env 0 rel back.head?).isSome = true := by
  have hty : rel.rawType = .call ∨ rel.rawType = .callPlt := by simpa [Rela.isCall] using hcall
  have hp : rel.placed = true := by
    rcases hty with hty | hty <;> simp [Rela.placed, hty]
  have hw : rel.width = 8 := by
    rcases hty with hty | hty <;> simp [Rela.width, hty]
  obtain ⟨front, back, q, c, hsplit, hemit⟩ := mem_ranges rels h
  have hq : q ∈ rels := by
    rw [hsplit]
    exact mem_append_right _ mem_cons_self
  have hsled : q.rawType = .align → q.width < 2 ^ 32 := fun hty =>
    (hrels.2 q hq (by simp [Rela.placed, hty])).2 hty
  have hfoot := emit_foot hsled hemit
  have hin := hfoot.within
  dsimp only at hin
  -- the range is in the part of the call, so it is the call's own
  have hsame : q = rel := by
    rcases hrels.apart hq hrel hfoot.placed hp with h | h | h
    · exact h
    · omega
    · omega
  have hnot : rel.rawType ≠ .align := by
    rcases hty with hty | hty <;> simp [hty]
  rw [hsame] at hsplit hemit
  rw [emit_cum hnot] at hemit
  exact ⟨front, back, hsplit, by rw [hemit]; rfl⟩

/-! ## 5. The loop -/

/-- Every call whose `jalr` was deleted is in reach, now and later. -/
def Secured (p : Program) : Prop :=
  ∀ (index : Nat) (sec : ExecSection), p.sections[index]? = some sec →
    ∀ rel ∈ sec.relocations, rel.isCall = true → (rel.offset + 4, 4) ∈ rawOf sec.deltas →
      ∃ symIdx, rel.symbol = some symIdx ∧
        ∀ p' : Program, p'.Good → p.Later p' → ∀ sec', p'.sections[index]? = some sec' →
          ∃ t, p'.target (p'.symbol symIdx).place = some t ∧
            distanceFitsJal (distance t (p'.place index sec' rel.offset)) = true

theorem Secured.callsFit (h : p.Secured) (hgood : p.Good) : p.CallsFit := by
  intro index sec hsec rel hrel hcall hdel
  obtain ⟨symIdx, hsym, hfits⟩ := h index sec hsec rel hrel hcall hdel
  obtain ⟨t, ht, hfit⟩ := hfits p hgood (.refl p) sec hsec
  exact ⟨symIdx, t, hsym, ht, hfit⟩

/-- **A pass in which every shortened call has room.** -/
theorem secured_afterPass (hgood : p.Good) (hsecured : p.Secured) (hroom : p.HasRoom rescan) :
    (p.afterPass rescan).Secured := by
  intro index sec' hsec' rel hrel hcall hdel
  obtain ⟨sec, hsec, rfl⟩ := getElem?_afterPass hsec'
  have hg := hgood sec (mem_of_getElem? hsec)
  have hlater : ∀ {p' : Program}, (p.afterPass rescan).Later p' → p.Later p' :=
    fun h => (later_afterPass hgood).trans h
  have hrel' : rel ∈ sec.relocations := by
    rw [← (@passSection_good p rescan index sec hg).2.relocations]
    exact hrel
  by_cases hold : (rel.offset + 4, 4) ∈ rawOf sec.deltas
  · obtain ⟨symIdx, hsym, hfits⟩ := hsecured index sec hsec rel hrel' hcall hold
    exact ⟨symIdx, hsym, fun p' hp' h sec' hsec' => hfits p' hp' (hlater h) sec' hsec'⟩
  · rcases passSection_cases p rescan index sec with heq | ⟨hscan, heq⟩
    · rw [heq] at hdel
      exact absurd hdel hold
    · rw [heq] at hdel
      have hnew : (rel.offset + 4, 4) ∈ ranges (p.scanInput index sec) 0 sec.relocations := by
        rcases mem_append.mp ((rawOf_passDeltas (p.scanInput index sec)
          sec.relocations).mem_iff.mp hdel) with h | h
        · exact absurd h hold
        · exact h
      obtain ⟨front, back, hsplit, hemit⟩ :=
        accepted_of_mem_ranges hg.relocations hrel' hcall hnew
      obtain ⟨symIdx, hsym, hne, hfits⟩ := callFits_resolved (callFits_of_emit hcall hemit)
      have hr := hroom index sec hsec hscan front rel back hsplit hcall hemit symIdx hsym
      refine ⟨symIdx, hsym, ?_⟩
      intro p' hp' h sec' hsec'
      exact fits_of_room hgood hp' (hlater h) hsec hsec' hrel' hcall hne hfits hr

/-- **The loop**, from any state on. -/
theorem secured_relaxationLoop : ∀ (n : Nat) {rescan : Option (List Nat)} {p : Program}, p.Good →
    p.Secured → (∀ q ∈ (relaxationLoop n rescan p).2, q.1.HasRoom q.2) →
      (relaxationLoop n rescan p).1.Good ∧ (relaxationLoop n rescan p).1.Secured := by
  intro n
  induction n with
  | zero =>
    intro rescan p hgood hsecured _
    exact ⟨hgood, hsecured⟩
  | succ n ih =>
    intro rescan p hgood hsecured
    unfold relaxationLoop
    split
    · exact fun _ => ⟨hgood, hsecured⟩
    · dsimp only [relaxationScanPass]
      split
      · intro hroom
        have hr := hroom (p, rescan) mem_cons_self
        exact ⟨afterPass_good hgood, secured_afterPass hgood hsecured hr⟩
      · intro hroom
        have hr := hroom (p, rescan) mem_cons_self
        exact ih (afterPass_good hgood) (secured_afterPass hgood hsecured hr)
          fun q hq => hroom q (mem_cons_of_mem _ hq)

theorem WellFormed.good (h : p.WellFormed) : p.Good := by
  intro sec hsec
  obtain ⟨hnone, hsize, hrels, hlen⟩ := h sec hsec
  refine ⟨hrels, ?_, ?_, hlen⟩
  · rw [hnone]
    exact sound_none _
  · rw [hnone]
    exact hsize

theorem WellFormed.secured (h : p.WellFormed) : p.Secured := by
  intro index sec hsec rel _ _ hdel
  rw [(h sec (mem_of_getElem? hsec)).1] at hdel
  exact absurd hdel not_mem_nil

end

end Program

/-- **Relaxed calls stay in reach**, in every run in which the calls that a pass shortens have
room. -/
theorem relaxed_calls_fit {p : Program} (hwf : p.WellFormed)
    (hroom : ∀ q ∈ relaxationPasses p, q.1.HasRoom q.2) :
    (performIterativeRelaxation p).CallsFit := by
  obtain ⟨hgood, hsecured⟩ :=
    Program.secured_relaxationLoop maxRelaxationIterations hwf.good hwf.secured hroom
  exact hsecured.callsFit hgood

/-- Two sections, and a call from the first to the second. -/
def nearCall : Program where
  base := 0x1000
  sections := [
    ⟨.word, replicate 16 0, [⟨0, .call, some 0, 0⟩, ⟨0, .relax, none, 0⟩], 0, 16, none⟩,
    ⟨.word, replicate 8 0, [], 0, 8, none⟩]
  symbol := fun _ => ⟨.inSection 1 0, false⟩

/-- The call is 16 bytes away before, and 12 after. -/
theorem nearCall_fits :
    (performIterativeRelaxation nearCall).sections[0]?.map (fun sec => rawOf sec.deltas)
        = some [(4, 4)] ∧
      (performIterativeRelaxation nearCall).CallsFit := by
  refine ⟨by decide, relaxed_calls_fit ?_ ?_⟩
  · intro sec hsec
    simp only [nearCall, mem_cons, not_mem_nil, or_false] at hsec
    rcases hsec with rfl | rfl
    · exact ⟨rfl, by decide, by decide, by decide⟩
    · exact ⟨rfl, by decide, by decide, by decide⟩
  · have hpasses : relaxationPasses nearCall = [(nearCall, none)] := rfl
    intro q hq index sec hsec _ front rel back hsplit hcall _ symIdx _
    rw [hpasses, mem_singleton] at hq
    subst hq
    intro dest hdest
    cases hdest
    have hlanding : Landing ⟨.word, replicate 8 0, [], 0, 8, none⟩ 0 :=
      ⟨by decide, fun _ h => absurd h not_mem_nil⟩
    have hrel : rel ∈ sec.relocations := by
      rw [hsplit]
      exact mem_append_right _ mem_cons_self
    match index with
    | 0 =>
      cases hsec
      simp only [mem_cons, not_mem_nil, or_false] at hrel
      rcases hrel with rfl | rfl
      · exact ⟨hlanding, fun _ => by decide, fun h => absurd h (by decide)⟩
      · cases hcall
    | 1 =>
      cases hsec
      exact absurd hrel not_mem_nil
    | index + 2 => cases hsec

/-- Seventeen sections at multiples of 65536.  The first has a call to itself and one to the last
of them, which is in reach as long as it is not moved. -/
def farCall : Program where
  base := 0x10000
  sections :=
    ⟨⟨16, by decide⟩, replicate 16 0,
      [⟨0, .call, some 0, 0⟩, ⟨0, .relax, none, 0⟩, ⟨8, .call, some 1, 0⟩, ⟨8, .relax, none, 0⟩],
      0, 16, none⟩
      :: replicate 16 ⟨⟨16, by decide⟩, replicate 8 0, [], 0, 8, none⟩
  symbol := fun symIdx => if symIdx = 0 then ⟨.inSection 0 0, false⟩ else ⟨.inSection 16 4, false⟩

/-- Both calls are accepted.  The first deletion moves the second call four bytes down, and
nothing else moves: its target is then 2 ^ 20 bytes away, one too many. -/
theorem relaxed_call_out_of_reach :
    ¬ ∀ p : Program, p.WellFormed → (performIterativeRelaxation p).CallsFit := by
  intro h
  have hwf : farCall.WellFormed := by
    intro sec hsec
    simp only [farCall, mem_cons, mem_replicate] at hsec
    rcases hsec with rfl | ⟨_, rfl⟩
    · exact ⟨rfl, by decide, by decide, by decide⟩
    · exact ⟨rfl, by decide, by decide, by decide⟩
  have hfirst : ∃ sec, (performIterativeRelaxation farCall).sections[0]? = some sec ∧
      rawOf sec.deltas = [(4, 4), (12, 4)] ∧ (⟨8, .call, some 1, 0⟩ : Rela) ∈ sec.relocations ∧
      (performIterativeRelaxation farCall).place 0 sec 8 = 0x10004 :=
    ⟨_, rfl, by decide, by decide, by decide⟩
  obtain ⟨sec, hsec, hraw, hrel, hplace⟩ := hfirst
  obtain ⟨symIdx, t, hsym, ht, hfits⟩ :=
    h farCall hwf 0 sec hsec ⟨8, .call, some 1, 0⟩ hrel (by decide) (by rw [hraw]; decide)
  cases hsym
  have ht' : (performIterativeRelaxation farCall).target (.inSection 16 4) = some 0x110004 := by
    decide
  have heq : t = 0x110004 := some.inj (ht.symm.trans ht')
  dsimp only at hfits
  rw [hplace, heq] at hfits
  exact absurd hfits (by decide)

end Srs.Relaxation
