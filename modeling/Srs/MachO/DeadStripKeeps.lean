/-
# What dead stripping keeps

The compaction deletes the atoms that are not kept, whole ones or, in `__const`, the front of a run
of them.  A subsection that starts at a symbol is an atom and is kept if it is marked
(`live_subsection_is_kept`).  Elsewhere than in `__const` what is kept is also marked, and the
traversal has done the relocations of what is marked (`dead_strip_keeps`).

The bytes in front of the first symbol are an atom as well, which is never kept, and a relocation
without a symbol marks nothing (`dead_strip_deletes`).
-/
import Srs.MachO.DeadStripTraversal

namespace Srs.MachO.DeadStrip

open Cuts List Option

variable {link : Link} {s : State}

/-! ## 1. Boundaries and atoms -/

theorem boundaries_pairwise (object : Object) (sectionIndex : Nat) (header : SectionHeader) :
    (object.boundaries sectionIndex header).Pairwise (· < ·) :=
  sortDedup_pairwise _

theorem mem_boundaries {object : Object} {sectionIndex : Nat} {header : SectionHeader}
    {offset : Nat} : offset ∈ object.boundaries sectionIndex header ↔ offset = 0 ∨
      (offset ∈ object.ordinaryOffsets sectionIndex header ∧ offset < header.size) := by
  rw [Object.boundaries, mem_sortDedup, mem_cons, mem_filter, decide_eq_true_iff]

/-- A subsection ends inside its section, -/
theorem pieceStop_boundaries_le (object : Object) (sectionIndex : Nat) (header : SectionHeader)
    (index : Nat) :
    pieceStop (object.boundaries sectionIndex header) header.size index ≤ header.size := by
  refine pieceStop_le_size fun c hc => ?_
  rcases mem_boundaries.mp hc with rfl | ⟨-, hlt⟩
  · exact Nat.zero_le _
  · exact hlt.le

variable {index o size : Nat}

/-- and before the next symbol that starts one. -/
theorem pieceStop_le_ordinary {object : Object} {header : SectionHeader}
    {sectionIndex offset : Nat} (hi : index < (object.boundaries sectionIndex header).length)
    (hoffset : offset ∈ object.ordinaryOffsets sectionIndex header)
    (hlt : (object.boundaries sectionIndex header)[index] < offset) :
    pieceStop (object.boundaries sectionIndex header) header.size index ≤ offset := by
  by_cases hsize : offset < header.size
  · exact pieceStop_le (boundaries_pairwise object sectionIndex header) hi
      (mem_boundaries.mpr (.inr ⟨hoffset, hsize⟩)) hlt
  · exact (pieceStop_boundaries_le object sectionIndex header index).trans (Nat.not_lt.mp hsize)

theorem mem_mergeFrom_true : ∀ {offset : Nat} {keep : Bool} {rest : List (Nat × Bool)},
    (o, true) ∈ mergeFrom offset keep rest ↔ (o, true) ∈ (offset, keep) :: rest
  | offset, keep, [] => Iff.rfl
  | offset, keep, (next, nextKeep) :: rest => by
    rw [mergeFrom]
    split
    · rename_i heq
      rw [mem_mergeFrom_true, heq]
      cases keep with
      | true =>
        simp only [Bool.true_or, mem_cons, Prod.mk.injEq, and_true]
        tauto
      | false => cases nextKeep <;> simp
    · rw [mem_cons, mem_mergeFrom_true, mem_cons (l := (next, nextKeep) :: rest)]

theorem mem_map_mergeFrom : ∀ {offset : Nat} {keep : Bool} {rest : List (Nat × Bool)},
    o ∈ (mergeFrom offset keep rest).map (·.1) ↔ o ∈ ((offset, keep) :: rest).map (·.1)
  | offset, keep, [] => Iff.rfl
  | offset, keep, (next, nextKeep) :: rest => by
    rw [mergeFrom]
    split
    · rename_i heq
      rw [mem_map_mergeFrom, heq]
      simp
    · rw [map_cons, mem_cons, mem_map_mergeFrom]
      simp

theorem mergeFrom_pairwise : ∀ {offset : Nat} {keep : Bool} {rest : List (Nat × Bool)},
    ((offset, keep) :: rest).Pairwise (fun a b => a.1 ≤ b.1) →
      (mergeFrom offset keep rest).Pairwise fun a b => a.1 < b.1
  | offset, keep, [], _ => pairwise_singleton _ _
  | offset, keep, (next, nextKeep) :: rest, h => by
    obtain ⟨hfirst, hrest⟩ := pairwise_cons.mp h
    rw [mergeFrom]
    split
    · refine mergeFrom_pairwise (pairwise_cons.mpr ⟨fun b hb => ?_,
        (pairwise_cons.mp hrest).2⟩)
      exact hfirst b (mem_cons_of_mem _ hb)
    · rename_i hne
      refine pairwise_cons.mpr ⟨fun b hb => ?_, mergeFrom_pairwise hrest⟩
      have hlt : offset < next :=
        Nat.lt_of_le_of_ne (hfirst (next, nextKeep) mem_cons_self) (Ne.symm hne)
      have hmem := mem_map_mergeFrom.mp (List.mem_map_of_mem hb)
      rcases mem_cons.mp hmem with heq | hmem
      · rw [heq]
        exact hlt
      · obtain ⟨c, hc, heq⟩ := mem_map.mp hmem
        rw [← heq]
        exact hlt.trans_le ((pairwise_cons.mp hrest).1 c hc)

/-- What merging does: strictly sorted, the same kept offsets, and an atom at the start. -/
theorem mergedAtoms_spec (atoms : List (Nat × Bool)) :
    (mergedAtoms atoms).Pairwise (fun a b => a.1 < b.1) ∧
    (∀ o, (o, true) ∈ mergedAtoms atoms ↔ (o, true) ∈ atoms) ∧
    ∀ o, o ∈ (mergedAtoms atoms).map (·.1) ↔ o ∈ atoms.map (·.1) ∨ (o = 0 ∧ atoms ≠ []) := by
  have hperm := sortedByKey_perm (fun a : Nat × Bool => a.1) atoms
  have hsorted := sortedByKey_pairwise (fun a : Nat × Bool => a.1) atoms
  have hmap : ∀ o, o ∈ (sortedByKey (fun a : Nat × Bool => a.1) atoms).map (·.1)
      ↔ o ∈ atoms.map (·.1) := fun o => (hperm.map _).mem_iff
  rw [mergedAtoms]
  cases hlist : sortedByKey (fun a : Nat × Bool => a.1) atoms with
  | nil =>
    rw [hlist] at hperm
    obtain rfl := hperm.symm.eq_nil
    exact ⟨List.Pairwise.nil, fun _ => Iff.rfl, fun o => by simp⟩
  | cons first rest =>
    obtain ⟨offset, keep⟩ := first
    rw [hlist] at hperm hsorted hmap
    have hne : atoms ≠ [] := by
      rintro rfl
      exact absurd hperm.eq_nil (cons_ne_nil _ _)
    dsimp only
    split
    · refine ⟨mergeFrom_pairwise (pairwise_cons.mpr ⟨fun b _ => Nat.zero_le _, hsorted⟩),
        fun o => ?_, fun o => ?_⟩
      · rw [mem_mergeFrom_true, mem_cons, hperm.mem_iff]
        simp
      · rw [mem_map_mergeFrom, map_cons, mem_cons, hmap]
        exact ⟨fun h => h.symm.imp_right fun h => ⟨h, hne⟩, fun h => h.symm.imp_left (·.1)⟩
    · rename_i hzero
      have hoffset : offset = 0 := Nat.eq_zero_of_not_pos hzero
      refine ⟨mergeFrom_pairwise hsorted, fun o => ?_, fun o => ?_⟩
      · rw [mem_mergeFrom_true, hperm.mem_iff]
      · rw [mem_map_mergeFrom, hmap]
        refine ⟨.inl, fun h => h.elim id fun h => (hmap o).mp ?_⟩
        rw [h.1, ← hoffset]
        exact mem_cons_self

/-! ## 2. What is deleted -/

/-- No delta deletes the byte. -/
def KeepsByte (deltas : List (Nat × Nat)) (x : Nat) : Prop :=
  ∀ delta ∈ deltas, ¬ (delta.1 ≤ x ∧ x < delta.1 + delta.2)

/-- Deltas start at atoms and end before the next one that is kept. -/
def Avoids (starts : Nat → Prop) (atoms : List (Nat × Bool)) (deltas : List (Nat × Nat)) : Prop :=
  ∀ delta ∈ deltas, starts delta.1 ∧
    ∀ o, (o, true) ∈ atoms → delta.1 + delta.2 ≤ o ∨ o < delta.1

theorem head_le {rest : List (Nat × Bool)} {size o : Nat}
    (hrest : rest.Pairwise fun a b => a.1 < b.1) (ho : o ∈ rest.map (·.1)) :
    (rest.head?.map (·.1)).getD size ≤ o := by
  cases rest with
  | nil => cases ho
  | cons first rest =>
    rcases mem_cons.mp ho with rfl | ho
    · exact le_rfl
    · obtain ⟨b, hb, rfl⟩ := mem_map.mp ho
      exact ((pairwise_cons.mp hrest).1 b hb).le

variable {atom : Nat × Bool}

/-- A deletion behind an atom avoids it. -/
theorem avoids_cons {rest : List (Nat × Bool)} {delta : Nat × Nat}
    (hfirst : ∀ b ∈ rest, atom.1 < b.1) (hmem : delta.1 ∈ rest.map (·.1))
    (hkept : ∀ o, (o, true) ∈ rest → delta.1 + delta.2 ≤ o ∨ o < delta.1) (o : Nat)
    (ho : (o, true) ∈ atom :: rest) : delta.1 + delta.2 ≤ o ∨ o < delta.1 := by
  rcases mem_cons.mp ho with rfl | ho
  · obtain ⟨b, hb, hstart⟩ := mem_map.mp hmem
    exact .inr (hstart ▸ hfirst b hb)
  · exact hkept o ho

theorem plainDeltas_avoids : ∀ {atoms : List (Nat × Bool)}
    {deltas : List (Nat × Nat)}, atoms.Pairwise (fun a b => a.1 < b.1) →
      plainDeltas size atoms = some deltas → Avoids (· ∈ atoms.map (·.1)) atoms deltas
  | [], deltas, _, h => by
    cases h
    intro delta hdelta
    cases hdelta
  | (start, keep) :: rest, deltas, hsorted, h => by
    obtain ⟨hfirst, hrest⟩ := pairwise_cons.mp hsorted
    -- the deltas of the rest start behind this atom
    have hlater : ∀ {deltas}, plainDeltas size rest = some deltas →
        Avoids (· ∈ ((start, keep) :: rest).map (·.1)) ((start, keep) :: rest) deltas := by
      intro deltas hdeltas delta hdelta
      obtain ⟨hmem, hkept⟩ := plainDeltas_avoids hrest hdeltas delta hdelta
      exact ⟨mem_cons_of_mem _ hmem, avoids_cons hfirst hmem hkept⟩
    rw [plainDeltas] at h
    split at h
    · exact hlater h
    · rename_i hdead
      split at h
      · obtain ⟨later, hdeltas, rfl⟩ := map_eq_some_iff.mp h
        intro delta hdelta
        rcases mem_cons.mp hdelta with rfl | hdelta
        · refine ⟨mem_cons_self, fun o ho => .inl ?_⟩
          rcases mem_cons.mp ho with heq | ho
          · obtain ⟨-, rfl⟩ := Prod.mk.inj heq
            exact absurd (.inl rfl) hdead
          · have hle := @head_le _ size _ hrest (List.mem_map_of_mem ho)
            dsimp only at hle ⊢
            omega
        · exact hlater hdeltas delta hdelta
      · cases h

theorem runDelta_spec {start stop alignment : Nat} {deltas : List (Nat × Nat)}
    (h : runDelta start stop alignment = some deltas) :
    ∀ delta ∈ deltas, delta.1 = start ∧ delta.1 + delta.2 ≤ stop := by
  rw [runDelta] at h
  intro delta hdelta
  split at h
  · cases h
    cases hdelta
  · dsimp only at h
    split at h
    · cases h
      cases hdelta
    · split at h
      · cases h
        obtain rfl := mem_singleton.mp hdelta
        refine ⟨rfl, ?_⟩
        dsimp only
        omega
      · cases h

/-- In `__const` the run that is open starts in front of the atoms. -/
theorem constDeltas_avoids : ∀ {atoms : List (Nat × Bool)} {run : Option Nat}
    {deltas : List (Nat × Nat)}, atoms.Pairwise (fun a b => a.1 < b.1) →
      constDeltas size run atoms = some deltas →
        Avoids (fun start => start ∈ run ∨ start ∈ atoms.map (·.1)) atoms deltas
  | [], none, deltas, _, h => by
    cases h
    intro delta hdelta
    cases hdelta
  | [], some start, deltas, _, h => fun delta hdelta =>
    ⟨.inl (by rw [(runDelta_spec h delta hdelta).1]; rfl), fun o ho => by cases ho⟩
  | (offset, true) :: rest, none, deltas, hsorted, h => by
    obtain ⟨hfirst, hrest⟩ := pairwise_cons.mp hsorted
    intro delta hdelta
    obtain ⟨hmem, hkept⟩ := constDeltas_avoids hrest h delta hdelta
    have hmem : delta.1 ∈ rest.map (·.1) := hmem.resolve_left (by simp)
    exact ⟨.inr (mem_cons_of_mem _ hmem), avoids_cons hfirst hmem hkept⟩
  | (offset, false) :: rest, none, deltas, hsorted, h => by
    intro delta hdelta
    obtain ⟨hmem, hkept⟩ :=
      constDeltas_avoids (pairwise_cons.mp hsorted).2 h delta hdelta
    refine ⟨.inr ?_, fun o ho => hkept o ?_⟩
    · rcases hmem with hmem | hmem
      · rw [← some.inj hmem]
        exact mem_cons_self
      · exact mem_cons_of_mem _ hmem
    · rcases mem_cons.mp ho with heq | ho
      · cases heq
      · exact ho
  | (offset, false) :: rest, some start, deltas, hsorted, h => by
    intro delta hdelta
    obtain ⟨hmem, hkept⟩ :=
      constDeltas_avoids (pairwise_cons.mp hsorted).2 h delta hdelta
    refine ⟨hmem.imp_right (mem_cons_of_mem _), fun o ho => hkept o ?_⟩
    rcases mem_cons.mp ho with heq | ho
    · cases heq
    · exact ho
  | (offset, true) :: rest, some start, deltas, hsorted, h => by
    obtain ⟨hfirst, hrest⟩ := pairwise_cons.mp hsorted
    obtain ⟨front, hfront, h⟩ := bind_eq_some_iff.mp h
    obtain ⟨later, hlater, h⟩ := bind_eq_some_iff.mp h
    cases h
    intro delta hdelta
    rcases mem_append.mp hdelta with hdelta | hdelta
    · obtain ⟨hstart, hstop⟩ := runDelta_spec hfront delta hdelta
      refine ⟨.inl (by rw [hstart]; rfl), fun o ho => .inl ?_⟩
      rcases mem_cons.mp ho with heq | ho
      · obtain ⟨rfl, -⟩ := Prod.mk.inj heq
        exact hstop
      · exact hstop.trans (hfirst _ ho).le
    · obtain ⟨hmem, hkept⟩ := constDeltas_avoids hrest hlater delta hdelta
      have hmem : delta.1 ∈ rest.map (·.1) := hmem.resolve_left (by simp)
      exact ⟨.inr (mem_cons_of_mem _ hmem), avoids_cons hfirst hmem hkept⟩

/-- Both ways of deleting avoid what is kept. -/
theorem rawDeltas_avoids (link : Link) (s : State) (object : Object) (header : SectionHeader)
    (file sectionIndex : Nat) :
    Avoids (· ∈ (mergedAtoms (symbolAtoms s object header file sectionIndex)).map (·.1))
      (mergedAtoms (symbolAtoms s object header file sectionIndex))
      (rawDeltas link s object header file sectionIndex) := by
  obtain ⟨hsorted, -, -⟩ := mergedAtoms_spec (symbolAtoms s object header file sectionIndex)
  rw [rawDeltas]
  split
  · intro delta hdelta
    cases hdelta
  · dsimp only
    split
    · cases hdeltas : constDeltas header.size none
          (mergedAtoms (symbolAtoms s object header file sectionIndex)) with
      | none =>
        intro delta hdelta
        cases hdelta
      | some deltas =>
        intro delta hdelta
        obtain ⟨hmem, hkept⟩ := constDeltas_avoids hsorted hdeltas delta hdelta
        exact ⟨hmem.resolve_left (by simp), hkept⟩
    · cases hdeltas : plainDeltas header.size
          (mergedAtoms (symbolAtoms s object header file sectionIndex)) with
      | none =>
        intro delta hdelta
        cases hdelta
      | some deltas => exact plainDeltas_avoids hsorted hdeltas

/-- A dead atom is deleted up to the next one. -/
theorem plainDeltas_deletes {x : Nat} : ∀ {atoms : List (Nat × Bool)}
    {deltas : List (Nat × Nat)}, atoms.Pairwise (fun a b => a.1 < b.1) →
      plainDeltas size atoms = some deltas → (o, false) ∈ atoms → o ≤ x → x < size →
        (∀ o' ∈ atoms.map (·.1), o' ≤ o ∨ x < o') → ¬ KeepsByte deltas x
  | (start, keep) :: rest, deltas, hsorted, h, ho, hle, hlt, hnext => by
    obtain ⟨hfirst, hrest⟩ := pairwise_cons.mp hsorted
    rw [plainDeltas] at h
    have htail : ∀ {later}, plainDeltas size rest = some later → (o, false) ∈ rest →
        ¬ KeepsByte later x := fun hlater hmem =>
      plainDeltas_deletes hrest hlater hmem hle hlt
        fun o' ho' => hnext o' (mem_cons_of_mem _ ho')
    -- what follows the atom is behind `x`
    have hstop : (start, keep) = (o, false) → x < (rest.head?.map (·.1)).getD size := by
      intro heq
      cases hhead : rest with
      | nil => exact hlt
      | cons first later =>
        have hmem : first.1 ∈ rest.map (·.1) := by
          rw [hhead]
          exact mem_cons_self
        have hfirst' := hfirst first (by rw [hhead]; exact mem_cons_self)
        rw [(Prod.mk.inj heq).1] at hfirst'
        rcases hnext first.1 (mem_cons_of_mem _ hmem) with hback | hahead
        · exact absurd hback (Nat.not_le.mpr hfirst')
        · exact hahead
    split at h
    · rename_i hskip
      rcases mem_cons.mp ho with heq | hmem
      · have hx := hstop heq.symm
        cases heq
        rcases hskip with hkeep | hempty
        · cases hkeep
        · omega
      · exact htail h hmem
    · split at h
      · obtain ⟨later, hlater, rfl⟩ := map_eq_some_iff.mp h
        intro hkeeps
        rcases mem_cons.mp ho with heq | hmem
        · have hx := hstop heq.symm
          cases heq
          refine hkeeps _ mem_cons_self ⟨hle, ?_⟩
          dsimp only
          omega
        · exact htail hlater hmem fun delta hdelta =>
            hkeeps delta (mem_cons_of_mem _ hdelta)
      · cases h

theorem plainDeltas_isSome {size : Nat} (hsize : size < 2 ^ 32) :
    ∀ {atoms : List (Nat × Bool)}, (∀ o ∈ atoms.map (·.1), o < 2 ^ 32) →
      ∃ deltas, plainDeltas size atoms = some deltas
  | [], _ => ⟨[], rfl⟩
  | (start, keep) :: rest, h => by
    obtain ⟨later, hlater⟩ := @plainDeltas_isSome size hsize rest
      fun o ho => h o (mem_cons_of_mem _ ho)
    have hstop : (rest.head?.map (·.1)).getD size < 2 ^ 32 := by
      cases hhead : rest with
      | nil => exact hsize
      | cons first later =>
        refine h first.1 (mem_cons_of_mem _ ?_)
        rw [hhead]
        exact mem_cons_self
    rw [plainDeltas]
    split
    · exact ⟨later, hlater⟩
    · rw [if_pos (by omega), hlater]
      exact ⟨_, rfl⟩

/-! ## 3. What is kept -/

/-- The byte is one of a subsection. -/
def InSubsection (object : Object) (header : SectionHeader) (sectionIndex index x : Nat) : Prop :=
  (∃ start, (object.boundaries sectionIndex header)[index]? = some start ∧ start ≤ x) ∧
    x < pieceStop (object.boundaries sectionIndex header) header.size index

/-- The subsection starts at a symbol, or the section has no symbol that starts one. -/
def StartsAtSymbol (object : Object) (header : SectionHeader) (sectionIndex index : Nat) : Prop :=
  object.ordinaryOffsets sectionIndex header = [] ∨
    ∃ start ∈ object.ordinaryOffsets sectionIndex header,
      (object.boundaries sectionIndex header)[index]? = some start

theorem mem_symbolAtoms {s : State} {object : Object} {header : SectionHeader}
    {file sectionIndex : Nat} :
    atom ∈ symbolAtoms s object header file sectionIndex ↔ ∃ symbol j,
      object.symbols[j]? = some symbol ∧ symbol.altEntry = false ∧
      symbol.sectionIndex = some sectionIndex ∧
      Object.symbolOffsetInSection symbol header = some atom.1 ∧
      atom.2 = (subsectionIsLive s object header file sectionIndex atom.1
        || s.resolved ⟨file, j⟩ || symbol.noDeadStrip) := by
  rw [symbolAtoms, mem_filterMap]
  constructor
  · rintro ⟨⟨symbol, j⟩, hzip, hatom⟩
    dsimp only at hatom
    split at hatom
    · rename_i hsymbol
      obtain ⟨offset, hoffset, rfl⟩ := map_eq_some_iff.mp hatom
      exact ⟨symbol, j, mk_mem_zipIdx_iff_getElem?.mp hzip, hsymbol.1, hsymbol.2, hoffset, rfl⟩
    · cases hatom
  · rintro ⟨symbol, j, hj, halt, hindex, hoffset, hkeep⟩
    refine ⟨(symbol, j), mk_mem_zipIdx_iff_getElem?.mpr hj, ?_⟩
    dsimp only
    rw [if_pos ⟨halt, hindex⟩, hoffset, map_some, ← hkeep]

theorem mem_map_symbolAtoms {s : State} {object : Object} {header : SectionHeader}
    {file sectionIndex o : Nat} :
    o ∈ (symbolAtoms s object header file sectionIndex).map (·.1)
      ↔ o ∈ object.ordinaryOffsets sectionIndex header := by
  rw [List.mem_map, Object.ordinaryOffsets, mem_filterMap]
  constructor
  · rintro ⟨atom, hatom, rfl⟩
    obtain ⟨symbol, j, hj, halt, hindex, hoffset, -⟩ := mem_symbolAtoms.mp hatom
    exact ⟨symbol, mem_of_getElem? hj, by rw [if_pos ⟨halt, hindex⟩, hoffset]⟩
  · rintro ⟨symbol, hsymbol, hoffset⟩
    split at hoffset
    · rename_i hordinary
      obtain ⟨j, hj⟩ := mem_iff_getElem?.mp hsymbol
      refine ⟨(o, subsectionIsLive s object header file sectionIndex o || s.resolved ⟨file, j⟩
        || symbol.noDeadStrip), ?_, rfl⟩
      exact mem_symbolAtoms.mpr ⟨symbol, j, hj, hordinary.1, hordinary.2, hoffset, rfl⟩
    · cases hoffset

/-- **A marked subsection that starts at a symbol is kept whole.** -/
theorem live_subsection_is_kept {object : Object} {header : SectionHeader}
    {file sectionIndex x : Nat} (hlive : s.live file sectionIndex index = true)
    (hstart : StartsAtSymbol object header sectionIndex index)
    (hx : InSubsection object header sectionIndex index x) :
    KeepsByte (rawDeltas link s object header file sectionIndex) x := by
  obtain ⟨⟨start, hindex, hle⟩, hstop⟩ := hx
  obtain ⟨hi, rfl⟩ := List.getElem?_eq_some_iff.mp hindex
  have hcuts := boundaries_pairwise object sectionIndex header
  obtain ⟨-, htrue, hmem⟩ := mergedAtoms_spec (symbolAtoms s object header file sectionIndex)
  rintro delta hdelta ⟨hfrom, hto⟩
  obtain ⟨hatom, hkept⟩ := rawDeltas_avoids link s object header file sectionIndex delta hdelta
  rcases hstart with hnone | ⟨offset, hoffset, hindex'⟩
  · -- without symbols there are no atoms
    have hatoms : symbolAtoms s object header file sectionIndex = [] := by
      rw [← map_eq_nil_iff, eq_nil_iff_forall_not_mem]
      intro o ho
      rw [mem_map_symbolAtoms, hnone] at ho
      cases ho
    rw [hmem, hatoms] at hatom
    rcases hatom with hatom | ⟨-, hne⟩
    · cases hatom
    · exact hne rfl
  · rw [hindex] at hindex'
    cases hindex'
    -- the atom at the start is kept, so the delta is behind it, and behind the subsection
    have hislive : subsectionIsLive s object header file sectionIndex
        (object.boundaries sectionIndex header)[index] = true := by
      rw [subsectionIsLive, cutsUpTo_getElem hcuts hi, Nat.add_sub_cancel, hlive, Bool.and_true,
        contains_iff_mem]
      exact getElem_mem hi
    obtain ⟨atom, hatom', hfst⟩ := mem_map.mp (mem_map_symbolAtoms.mpr hoffset)
    obtain ⟨symbol, j, -, -, -, -, hkeep⟩ := mem_symbolAtoms.mp hatom'
    rw [hfst, hislive, Bool.true_or, Bool.true_or] at hkeep
    have hatomTrue : ((object.boundaries sectionIndex header)[index], true)
        ∈ symbolAtoms s object header file sectionIndex := by
      rw [← hfst, ← hkeep]
      exact hatom'
    rcases hkept _ ((htrue _).mpr hatomTrue) with hbefore | hbehind
    · omega
    · refine absurd hfrom (Nat.not_le.mpr (hstop.trans_le ?_))
      have hordinary : delta.1 ∈ object.ordinaryOffsets sectionIndex header := by
        rcases (hmem _).mp hatom with h | ⟨hzero, -⟩
        · exact mem_map_symbolAtoms.mp h
        · omega
      exact pieceStop_le_ordinary hi hordinary hbehind

/-- The index of a symbol at a boundary, where the subsection is not empty. -/
theorem markedIndex_getElem {object : Object} {header : SectionHeader} {sectionIndex : Nat}
    (hi : index < (object.boundaries sectionIndex header).length)
    (hne : (object.boundaries sectionIndex header)[index]
      < pieceStop (object.boundaries sectionIndex header) header.size index) :
    markedIndex object header sectionIndex (object.boundaries sectionIndex header)[index]
      = some index := by
  rw [markedIndex, cutsUpTo_getElem (boundaries_pairwise _ _ _) hi]
  dsimp only
  rw [getElem?_eq_getElem hi]
  dsimp only
  rw [if_neg (Nat.not_le.mpr hne)]

section

variable {file sectionIndex : Nat} {object : Object} {header : SectionHeader}

/-- **A kept subsection is marked**, elsewhere than in `__const` and in sections without symbols. -/
theorem kept_subsection_is_live (hinv : Invariant link s) (hdone : s.pending = [])
    (hobject : link.objects[file]? = some object)
    (hheader : object.sections[sectionIndex]? = some header)
    (hgc : link.subsectionGcEnabled object header = true)
    (hloaded : s.loaded file sectionIndex = true) (hname : header.name ≠ "__const".toList)
    (hsymbols : object.ordinaryOffsets sectionIndex header ≠ []) (hsize : header.size < 2 ^ 32)
    (hoffsets : ∀ o ∈ object.ordinaryOffsets sectionIndex header, o < 2 ^ 32) {index x : Nat}
    (hx : InSubsection object header sectionIndex index x)
    (hkeeps : KeepsByte (rawDeltas link s object header file sectionIndex) x) :
    s.live file sectionIndex index = true := by
  obtain ⟨⟨start, hindex, hle⟩, hstop⟩ := hx
  obtain ⟨hi, rfl⟩ := List.getElem?_eq_some_iff.mp hindex
  have hcuts := boundaries_pairwise object sectionIndex header
  obtain ⟨hsorted, htrue, hmem⟩ := mergedAtoms_spec (symbolAtoms s object header file sectionIndex)
  have hatoms : symbolAtoms s object header file sectionIndex ≠ [] := by
    obtain ⟨o, ho⟩ := exists_mem_of_ne_nil _ hsymbols
    rintro hnil
    have hmap := (@mem_map_symbolAtoms s object header file sectionIndex o).mpr ho
    rw [hnil] at hmap
    cases hmap
  have hstrip := (Bool.and_eq_true _ _).mp hgc
  -- the start is an atom
  have hatom : (object.boundaries sectionIndex header)[index]
      ∈ (mergedAtoms (symbolAtoms s object header file sectionIndex)).map (·.1) := by
    refine (hmem _).mpr ?_
    rcases mem_boundaries.mp (getElem_mem hi) with hzero | ⟨hordinary, -⟩
    · exact .inr ⟨hzero, hatoms⟩
    · exact .inl (mem_map_symbolAtoms.mpr hordinary)
  obtain ⟨⟨o, keep⟩, hentry, ho⟩ := mem_map.mp hatom
  dsimp only at ho
  rw [ho] at hentry
  have hxsize : x < header.size :=
    hstop.trans_le (pieceStop_boundaries_le object sectionIndex header index)
  cases keep with
  | false =>
    have hsmall : ∀ o' ∈ (mergedAtoms (symbolAtoms s object header file sectionIndex)).map (·.1),
        o' < 2 ^ 32 := by
      intro o' ho'
      rcases (hmem _).mp ho' with h | ⟨rfl, -⟩
      · exact hoffsets o' (mem_map_symbolAtoms.mp h)
      · decide
    obtain ⟨deltas, hdeltas⟩ := plainDeltas_isSome hsize hsmall
    refine absurd hkeeps ?_
    rw [rawDeltas, if_neg (by rw [hstrip.1, hloaded, hstrip.2]; decide)]
    dsimp only
    rw [if_neg hname, hdeltas, getD_some]
    refine plainDeltas_deletes hsorted hdeltas hentry hle hxsize fun o' ho' => ?_
    by_cases hback : o' ≤ (object.boundaries sectionIndex header)[index]
    · exact .inl hback
    · refine .inr (hstop.trans_le ?_)
      have hordinary : o' ∈ object.ordinaryOffsets sectionIndex header := by
        rcases (hmem _).mp ho' with h | ⟨rfl, -⟩
        · exact mem_map_symbolAtoms.mp h
        · exact absurd (Nat.zero_le _) hback
      exact pieceStop_le_ordinary hi hordinary (Nat.not_le.mp hback)
  | true =>
    obtain ⟨symbol, j, hj, halt, hsection, hoffset, hkeep⟩ :=
      mem_symbolAtoms.mp ((htrue _).mp hentry)
    -- a symbol that is marked has this subsection
    have hmarked : SymbolMarked link s ⟨file, j⟩ → s.live file sectionIndex index = true := by
      intro h
      exact h object symbol sectionIndex header _ index hobject hj hsection hheader hgc hoffset
        (markedIndex_getElem hi (hle.trans_lt hstop))
    have hkeep := hkeep.symm
    rw [Bool.or_eq_true, Bool.or_eq_true] at hkeep
    rcases hkeep with (hislive | hresolved) | hno
    · rw [subsectionIsLive, cutsUpTo_getElem hcuts hi, Nat.add_sub_cancel, Bool.and_eq_true]
        at hislive
      exact hislive.2
    · exact hmarked (hinv.settled _ (mem_done_of_knows hdone (hinv.tracked.resolved _ hresolved)))
    · exact hmarked (hinv.settled _ (mem_done_of_knows hdone (hinv.tracked.loaded file sectionIndex
        object header hobject hheader hgc hloaded symbol j hj halt hno hsection)))

/-- A relocation inside a subsection is one of its relocations. -/
theorem mem_subsectionRelocations {index : Nat} {rel : Relocation} (hrel : rel ∈ header.relocations)
    (hx : InSubsection object header sectionIndex index rel.rAddress) :
    rel ∈ object.subsectionRelocations sectionIndex header index := by
  obtain ⟨⟨start, hindex, hle⟩, hstop⟩ := hx
  obtain ⟨hi, rfl⟩ := List.getElem?_eq_some_iff.mp hindex
  refine mem_filter.mpr ⟨mem_filter.mpr ⟨hrel, decide_eq_true ?_⟩, decide_eq_true hstop⟩
  exact cutsUpTo_of_mem_piece (boundaries_pairwise _ _ _) hi hle hstop

/-- A byte of the section is in the subsection that a symbol there marks. -/
theorem exists_markedIndex {offset : Nat} (hsize : offset < header.size) :
    ∃ index, markedIndex object header sectionIndex offset = some index ∧
      InSubsection object header sectionIndex index offset := by
  have hcuts := boundaries_pairwise object sectionIndex header
  obtain ⟨index, hi, hcount, hle, hstop⟩ := exists_piece hcuts (mem_boundaries.mpr (.inl rfl))
    (Nat.zero_le offset) hsize
  refine ⟨index, ?_, ⟨_, getElem?_eq_getElem hi, hle⟩, hstop⟩
  rw [markedIndex, hcount]
  dsimp only
  rw [getElem?_eq_getElem hi]
  dsimp only
  rw [if_neg (Nat.not_le.mpr (hle.trans_lt hstop))]

end

/-! ## 4. Nothing that is needed is lost -/

/-- The symbol's byte is in a marked subsection of its section, if that is stripped, and is kept if
the subsection starts at a symbol. -/
def KeepsSymbol (link : Link) (s : State) (symbolId : SymbolId) : Prop :=
  ∀ object symbol sectionIndex header offset,
    link.objects[symbolId.file]? = some object → object.symbols[symbolId.index]? = some symbol →
    symbol.sectionIndex = some sectionIndex → object.sections[sectionIndex]? = some header →
    link.subsectionGcEnabled object header = true →
    Object.symbolOffsetInSection symbol header = some offset → offset < header.size →
    ∃ index, InSubsection object header sectionIndex index offset ∧
      s.live symbolId.file sectionIndex index = true ∧
      (StartsAtSymbol object header sectionIndex index →
        KeepsByte (rawDeltas link s object header symbolId.file sectionIndex) offset)

/-- The subsection is marked, or it is kept in a section that is neither `__const` nor without
symbols nor too large. -/
def IsNeeded (link : Link) (s : State) (object : Object) (header : SectionHeader)
    (file sectionIndex index : Nat) : Prop :=
  s.live file sectionIndex index = true ∨
    (s.loaded file sectionIndex = true ∧ header.name ≠ "__const".toList ∧
      object.ordinaryOffsets sectionIndex header ≠ [] ∧ header.size < 2 ^ 32 ∧
      (∀ o ∈ object.ordinaryOffsets sectionIndex header, o < 2 ^ 32) ∧
      ∃ x, InSubsection object header sectionIndex index x ∧
        KeepsByte (rawDeltas link s object header file sectionIndex) x)

variable {symbolId : SymbolId}

theorem SymbolMarked.keeps (h : SymbolMarked link s symbolId) :
    KeepsSymbol link s symbolId := by
  intro object symbol sectionIndex header offset hobject hsymbol hsection hheader hgc hoffset hsize
  obtain ⟨index, hmarked, hx⟩ := @exists_markedIndex sectionIndex object header offset hsize
  have hlive := h object symbol sectionIndex header offset index hobject hsymbol hsection hheader
    hgc hoffset hmarked
  exact ⟨index, hx, hlive, fun hstart => live_subsection_is_kept hlive hstart hx⟩

variable {rel : Relocation}

/-- When nothing is pending, a relocation with a symbol that was processed keeps the symbol. -/
theorem processed_relocation_keeps (hinv : Invariant link s) (hdone : s.pending = [])
    {file sectionIndex : Nat}
    (hrel : .processRelocation file sectionIndex rel ∈ s.done) (hother : rel.rType = .other)
    (hsymbolic : rel.rExtern = true) :
    KeepsSymbol link s (link.definition ⟨file, rel.rSymbolnum⟩) ∧
      ∀ object symbol, link.objects[file]? = some object →
        object.symbols[rel.rSymbolnum]? = some symbol →
        KeepsOwn link symbol ⟨file, rel.rSymbolnum⟩ → KeepsSymbol link s ⟨file, rel.rSymbolnum⟩ := by
  obtain ⟨hresolves, hown⟩ := hinv.settled _ hrel hother hsymbolic
  constructor
  · have hload : s.Knows (.loadSymbol (link.definition ⟨file, rel.rSymbolnum⟩)) :=
      hinv.settled _ (mem_done_of_knows hdone hresolves)
    exact SymbolMarked.keeps (hinv.settled _ (mem_done_of_knows hdone hload))
  · intro object symbol hobject hsymbol hkeeps object' symbol' i header offset hobject' hsymbol'
      hi hheader hgc
    have hmarked : SymbolMarked link s ⟨file, rel.rSymbolnum⟩ := by
      rw [hobject] at hobject'
      cases hobject'
      rw [hsymbol] at hsymbol'
      cases hsymbol'
      rcases hown object symbol i header hobject hsymbol hi hheader hgc hkeeps with hm | hknows
      · exact hm
      · exact hinv.settled _ (mem_done_of_knows hdone hknows)
    exact hmarked.keeps object' symbol' i header offset hobject' hsymbol' hi hheader hgc

/-- **Dead stripping keeps what is marked, and what that needs.**  In every order of work, once
nothing is pending: a marked subsection that starts at a symbol is kept whole; the relocations of
what is needed were processed; and those with a symbol keep it. -/
theorem dead_strip_keeps (hreachable : Reachable link s) (hdone : s.pending = [])
    {file sectionIndex : Nat} {object : Object} {header : SectionHeader}
    (hobject : link.objects[file]? = some object)
    (hheader : object.sections[sectionIndex]? = some header)
    (hgc : link.subsectionGcEnabled object header = true) (index : Nat) :
    (s.live file sectionIndex index = true → StartsAtSymbol object header sectionIndex index →
      ∀ x, InSubsection object header sectionIndex index x →
        KeepsByte (rawDeltas link s object header file sectionIndex) x) ∧
    (IsNeeded link s object header file sectionIndex index → ∀ rel ∈ header.relocations,
      InSubsection object header sectionIndex index rel.rAddress →
        .processRelocation file sectionIndex rel ∈ s.done ∧
        (rel.rType = .other → rel.rExtern = true →
          KeepsSymbol link s (link.definition ⟨file, rel.rSymbolnum⟩) ∧
          ∀ symbol, object.symbols[rel.rSymbolnum]? = some symbol →
            KeepsOwn link symbol ⟨file, rel.rSymbolnum⟩ →
            KeepsSymbol link s ⟨file, rel.rSymbolnum⟩)) := by
  have hinv := hreachable.invariant
  refine ⟨fun hlive hstart x hx => live_subsection_is_kept hlive hstart hx, ?_⟩
  intro hneeded rel hrel hx
  have hlive : s.live file sectionIndex index = true := by
    rcases hneeded with hlive | ⟨hloaded, hname, hsymbols, hsize, hoffsets, y, hy, hkeeps⟩
    · exact hlive
    · exact kept_subsection_is_live hinv hdone hobject hheader hgc hloaded hname hsymbols hsize
        hoffsets hy hkeeps
  have hprocessed : .processRelocation file sectionIndex rel ∈ s.done :=
    mem_done_of_knows hdone (hinv.tracked.live file sectionIndex index object header hobject
      hheader hlive rel (mem_subsectionRelocations hrel hx))
  refine ⟨hprocessed, fun hother hsymbolic => ?_⟩
  obtain ⟨hdefinition, hown⟩ := processed_relocation_keeps hinv hdone hprocessed hother hsymbolic
  exact ⟨hdefinition, fun symbol => hown object symbol hobject⟩

/-! ## 5. Runs -/

/-- Does the first piece of work that is pending, a number of times. -/
def runFirst (link : Link) : Nat → State → Option State
  | 0, s => some s
  | n + 1, s =>
    match s.pending with
    | [] => some s
    | work :: rest =>
      (exec link { s with pending := rest, done := work :: s.done } [] work).bind (runFirst link n)

theorem Reachable.runFirst {s' : State} : ∀ {n : Nat} {s : State}, Reachable link s →
    runFirst link n s = some s' → Reachable link s'
  | 0, s, h, hrun => by
    cases hrun
    exact h
  | n + 1, s, h, hrun => by
    rw [DeadStrip.runFirst] at hrun
    split at hrun
    · cases hrun
      exact h
    · rename_i work rest hpending
      obtain ⟨next, hexec, hrun⟩ := bind_eq_some_iff.mp hrun
      refine Reachable.runFirst (h.step ?_) hrun
      exact @Step.work link s next [] rest [] work hpending
        (fun _ hw => absurd hw not_mem_nil) hexec

/-- A run that starts with the request for a symbol. -/
def request (link : Link) (symbolId : SymbolId) : Option State :=
  runFirst link 30 ((initial.push [.loadSymbol symbolId]).resolve symbolId true)

theorem reachable_of_request (h : request link symbolId = some s) :
    Reachable link s :=
  Reachable.runFirst (Reachable.initial.step (Step.requestSymbol symbolId)) h

theorem reached_of_any {symbolId : SymbolId} {test : State → Bool}
    (h : (request link symbolId).any (fun s => s.pending.isEmpty && test s) = true) :
    ∃ s, Reachable link s ∧ s.pending = [] ∧ test s = true := by
  obtain ⟨s, hs, htest⟩ := (Option.any_eq_true _ _).mp h
  rw [Bool.and_eq_true] at htest
  exact ⟨s, reachable_of_request hs, List.isEmpty_iff.mp htest.1, htest.2⟩

/-- The only section of an object. -/
def soleSection (name : String) (size : Nat) (relocations : List Relocation) : SectionHeader where
  name := name.toList
  addr := 0
  size := size
  shouldRetain := false
  isExecutable := name = "__text"
  slot := .unloaded
  relocations := relocations

/-- A symbol there. -/
def soleSymbol (nValue : Nat) (altEntry : Bool) : Symbol where
  sectionIndex := some 0
  nValue := nValue
  altEntry := altEntry
  noDeadStrip := false
  isLocal := false
  isHidden := false

def soleObject (header : SectionHeader) (symbols : List Symbol) : Object where
  subsectionsViaSymbols := true
  sections := [header]
  symbols := symbols

/-- The link of one object, whose symbols are their own definitions. -/
def soleLink (object : Object) : Link where
  deadStrip := true
  objects := [object]
  definition := id
  resolves _ := false

/-- The symbols at 0 and 4 cut eight bytes in two. -/
def halvesText (relocations : List Relocation) : SectionHeader := soleSection "__text" 8 relocations

def halves (relocations : List Relocation) (altEntry : Bool) : Object :=
  soleObject (halvesText relocations) [soleSymbol 0 altEntry, soleSymbol 4 false]

/-- A relocation at 0 that means offset 4, by its symbol or by the value that it stores. -/
def toSecondHalf (rExtern : Bool) (rType : RelocationType) : Relocation where
  rAddress := 0
  rSymbolnum := 1
  rExtern := rExtern
  rType := rType
  designated := 4

/-- The first symbol is an alternative entry. -/
theorem leading_half_is_deleted : ∃ s, Reachable (soleLink (halves [] true)) s ∧ s.pending = [] ∧
    s.live 0 0 0 = true ∧ ¬ KeepsByte
      (rawDeltas (soleLink (halves [] true)) s (halves [] true) (halvesText []) 0 0) 0 := by
  obtain ⟨s, hs, hdone, htest⟩ := @reached_of_any (soleLink (halves [] true)) ⟨0, 0⟩
    (fun s => s.live 0 0 0
      && rawDeltas (soleLink (halves [] true)) s (halves [] true) (halvesText []) 0 0
        = [(0, 4), (4, 4)]) (by decide +kernel)
  obtain ⟨hlive, hdeltas⟩ := (Bool.and_eq_true _ _).mp htest
  refine ⟨s, hs, hdone, hlive, fun hkeeps => ?_⟩
  rw [of_decide_eq_true hdeltas] at hkeeps
  exact hkeeps (0, 4) mem_cons_self (by decide)

/-- A relocation loads the section of the other half, and does not mark it. -/
theorem second_half_is_deleted (hrel : rel = toSecondHalf false .other
      ∨ rel = toSecondHalf true .subtractor) :
    ∃ s, Reachable (soleLink (halves [rel] false)) s ∧ s.pending = [] ∧ s.live 0 0 0 = true ∧
      .processRelocation 0 0 rel ∈ s.done ∧
      ¬ KeepsByte (rawDeltas (soleLink (halves [rel] false)) s (halves [rel] false)
        (halvesText [rel]) 0 0) 4 := by
  have hrun : (request (soleLink (halves [rel] false)) ⟨0, 0⟩).any (fun s => s.pending.isEmpty
      && (s.live 0 0 0 && decide (Work.processRelocation 0 0 rel ∈ s.done)
        && rawDeltas (soleLink (halves [rel] false)) s (halves [rel] false) (halvesText [rel]) 0 0
          = [(4, 4)])) = true := by
    rcases hrel with rfl | rfl
    · decide +kernel
    · decide +kernel
  obtain ⟨s, hs, hdone, htest⟩ := reached_of_any hrun
  obtain ⟨hfirst, hdeltas⟩ := (Bool.and_eq_true _ _).mp htest
  obtain ⟨hlive, hprocessed⟩ := (Bool.and_eq_true _ _).mp hfirst
  refine ⟨s, hs, hdone, hlive, of_decide_eq_true hprocessed, fun hkeeps => ?_⟩
  rw [of_decide_eq_true hdeltas] at hkeeps
  exact hkeeps (4, 4) mem_cons_self (by decide)

/-- The symbol at 16 is aligned, so what is in front of it stays. -/
def alignedConst : SectionHeader :=
  soleSection "__const" 20
    [{ toSecondHalf true .other with rSymbolnum := 2, designated := 16 },
      { toSecondHalf true .other with rAddress := 8 }]

def aligned : Object :=
  soleObject alignedConst [soleSymbol 0 false, soleSymbol 4 false, soleSymbol 16 false]

/-- A dead run of `__const` stays for the alignment of what follows, and its relocations were not
processed. -/
theorem unprocessed_const_is_kept : ∃ s, Reachable (soleLink aligned) s ∧ s.pending = [] ∧
    (∀ x, KeepsByte (rawDeltas (soleLink aligned) s aligned alignedConst 0 0) x) ∧
    .processRelocation 0 0 { toSecondHalf true .other with rAddress := 8 } ∉ s.done := by
  obtain ⟨s, hs, hdone, htest⟩ := @reached_of_any (soleLink aligned) ⟨0, 0⟩
    (fun s => rawDeltas (soleLink aligned) s aligned alignedConst 0 0 = []
      && decide (Work.processRelocation 0 0 { toSecondHalf true .other with rAddress := 8 }
        ∉ s.done)) (by decide +kernel)
  obtain ⟨hdeltas, hskipped⟩ := (Bool.and_eq_true _ _).mp htest
  refine ⟨s, hs, hdone, fun x delta hdelta => ?_, of_decide_eq_true hskipped⟩
  rw [of_decide_eq_true hdeltas] at hdelta
  cases hdelta

theorem in_first_half (relocations : List Relocation) (altEntry : Bool) :
    InSubsection (halves relocations altEntry) (halvesText relocations) 0 0 0 := by
  have hboundaries : (halves [] altEntry).boundaries 0 (halvesText []) = [0, 4] := by
    cases altEntry with
    | false => decide +kernel
    | true => decide +kernel
  -- the boundaries do not depend on the relocations
  change (halves relocations altEntry).boundaries 0 (halvesText relocations) = [0, 4]
    at hboundaries
  rw [InSubsection, hboundaries]
  exact ⟨⟨0, rfl, Nat.le_refl 0⟩, Nat.zero_lt_succ 3⟩

/-- **What is lost.**  The part in front of the first symbol is deleted though it is marked.  What
a relocation without a symbol means, or the symbol of a `SUBTRACTOR`, is deleted though the
relocation was processed.  And a kept part of `__const` has a relocation that was not. -/
theorem dead_strip_deletes :
    (∃ s, Reachable (soleLink (halves [] true)) s ∧ s.pending = [] ∧ s.live 0 0 0 = true ∧
      InSubsection (halves [] true) (halvesText []) 0 0 0 ∧ ¬ KeepsByte
        (rawDeltas (soleLink (halves [] true)) s (halves [] true) (halvesText []) 0 0) 0) ∧
    (∀ rel ∈ [toSecondHalf false .other, toSecondHalf true .subtractor],
      ∃ s, Reachable (soleLink (halves [rel] false)) s ∧ s.pending = [] ∧ s.live 0 0 0 = true ∧
        InSubsection (halves [rel] false) (halvesText [rel]) 0 0 rel.rAddress ∧
        .processRelocation 0 0 rel ∈ s.done ∧
        ¬ KeepsByte (rawDeltas (soleLink (halves [rel] false)) s (halves [rel] false)
          (halvesText [rel]) 0 0) rel.designated) ∧
    ∃ s, Reachable (soleLink aligned) s ∧ s.pending = [] ∧
      (∀ x, KeepsByte (rawDeltas (soleLink aligned) s aligned alignedConst 0 0) x) ∧
      ∃ rel ∈ alignedConst.relocations, .processRelocation 0 0 rel ∉ s.done := by
  refine ⟨?_, ?_, ?_⟩
  · obtain ⟨s, hs, hdone, hlive, hlost⟩ := leading_half_is_deleted
    exact ⟨s, hs, hdone, hlive, in_first_half [] true, hlost⟩
  · intro rel hrel
    have hrel' : rel = toSecondHalf false .other ∨ rel = toSecondHalf true .subtractor := by
      simpa using hrel
    have haddress : rel.rAddress = 0 ∧ rel.designated = 4 := by
      rcases hrel' with rfl | rfl
      · exact ⟨rfl, rfl⟩
      · exact ⟨rfl, rfl⟩
    rw [haddress.1, haddress.2]
    obtain ⟨s, hs, hdone, hlive, hprocessed, hlost⟩ := second_half_is_deleted hrel'
    exact ⟨s, hs, hdone, hlive, in_first_half [rel] false, hprocessed, hlost⟩
  · obtain ⟨s, hs, hdone, hkept, hskipped⟩ := unprocessed_const_is_kept
    exact ⟨s, hs, hdone, hkept, _, mem_cons_of_mem _ (mem_singleton_self _), hskipped⟩

/-- The first half refers to the second one by its symbol, and both are kept. -/
theorem dead_strip_keeps_halves :
    ∃ s, s.live 0 0 0 = true ∧ .processRelocation 0 0 (toSecondHalf true .other) ∈ s.done ∧
      KeepsSymbol (soleLink (halves [toSecondHalf true .other] false)) s ⟨0, 1⟩ ∧
      KeepsByte (rawDeltas (soleLink (halves [toSecondHalf true .other] false)) s
        (halves [toSecondHalf true .other] false) (halvesText [toSecondHalf true .other]) 0 0)
        0 := by
  obtain ⟨s, hs, hdone, hlive⟩ :=
    @reached_of_any (soleLink (halves [toSecondHalf true .other] false)) ⟨0, 0⟩
      (fun s => s.live 0 0 0) (by decide +kernel)
  obtain ⟨hwhole, hneeded⟩ := @dead_strip_keeps _ s hs hdone 0 0
    (halves [toSecondHalf true .other] false) (halvesText [toSecondHalf true .other]) rfl rfl
    (by decide +kernel) 0
  have hfirst := in_first_half [toSecondHalf true .other] false
  obtain ⟨hprocessed, hsymbol⟩ := hneeded (.inl hlive) _ (mem_singleton_self _) hfirst
  refine ⟨s, hlive, hprocessed, (hsymbol rfl rfl).1, hwhole hlive ?_ 0 hfirst⟩
  exact .inr ⟨0, by decide +kernel, by decide +kernel⟩

end Srs.MachO.DeadStrip
