/-
# What the layout allocates for exception frames

Along the activation of an object, the chain of a section holds the FDEs of the section that were
met so far (`Chains`); when the section is loaded, their sizes are added.  So after any sequence of
section load requests, the allocation is that of the CIEs, of the bytes behind the last entries, and
of the FDEs whose section is loaded and not empty (`layout_spec`).
-/
import Srs.EhFrame.Layout

namespace Srs.EhFrame

open LeBytes Records List Option SectionSlot Except

/-! ## 1. Slots and chains -/

/-- A slot without its frames. -/
def SectionSlot.forget : SectionSlot → SectionSlot
  | unloaded _ => unloaded none
  | mustLoad _ => mustLoad none
  | slot => slot

/-- Whether a section could still be loaded. -/
def unloadable (slots : List SectionSlot) (j : Nat) : Bool :=
  (slots[j]?.bind unloadedMut).isSome

theorem unloadedMut_forget (slot : SectionSlot) :
    slot.forget.unloadedMut = slot.unloadedMut.map fun _ => none := by
  cases slot <;> rfl

theorem forget_withLastFrameIndex (k : Nat) (slot : SectionSlot) :
    (slot.withLastFrameIndex k).forget = slot.forget := by
  cases slot <;> rfl

variable {slot : SectionSlot} {α : Type} {j : Nat}

theorem unloadedMut_withLastFrameIndex {last : Option Nat}
    (h : slot.unloadedMut = some last) (k : Nat) :
    (slot.withLastFrameIndex k).unloadedMut = some (some k) := by
  cases slot with
  | unloaded _ => rfl
  | mustLoad _ => rfl
  | _ => cases h

theorem unloadable_map_forget (slots : List SectionSlot) (j : Nat) :
    unloadable (slots.map forget) j = unloadable slots j := by
  unfold unloadable
  rw [getElem?_map]
  cases slots[j]? with
  | none => rfl
  | some slot =>
    rw [map_some, bind_some, bind_some, unloadedMut_forget,
      isSome_map]

/-- Replacing an element by one with the same image. -/
theorem map_set_of_eq {β : Type} {g : α → β} {l : List α} {a b : α}
    (h : l[j]? = some a) (hab : g b = g a) : (l.set j b).map g = l.map g := by
  rw [map_set, hab]
  refine ext_getElem? fun k => ?_
  by_cases hk : j = k
  · subst hk
    have hlt : j < (l.map g).length := by
      rw [length_map]
      exact (List.getElem?_eq_some_iff.mp h).1
    rw [getElem?_set_self hlt, getElem?_map, h, map_some]
  · rw [getElem?_set_ne hk]

/-- The chains of the sections that are not loaded, where `met` has the section and the size of
every frame. -/
structure Chains (met : List (Nat × Nat)) (frames : List ExceptionFrame)
    (slots : List SectionSlot) : Prop where
  length : frames.length = met.length
  bound : frames.length < 2 ^ 32
  chain : ∀ j last, slots[j]?.bind unloadedMut = some last →
    ∃ items, BackLinks.Chain ExceptionFrame.previousFrameForSection frames last items ∧
      items.map ExceptionFrame.frameSize = ((met.filter (·.1 == j)).map (·.2)).reverse

theorem frameIndexFromUsize_eq {raw k : Nat} (hraw : raw < 2 ^ 32)
    (h : frameIndexFromUsize raw = .ok k) : k = raw ∧ raw + 1 < 2 ^ 32 := by
  unfold frameIndexFromUsize at h
  split at h
  · cases h
  · next hne =>
    have hk := ok.inj h
    constructor
    · omega
    · omega

/-- **A new frame goes to the front of the chain of its section.** -/
theorem Chains.push {met : List (Nat × Nat)} {frames : List ExceptionFrame}
    {slots : List SectionSlot} (h : Chains met frames slots) {k : Nat}
    {previous : Option Nat} (hslot : slots[j]? = some slot)
    (hprevious : slot.unloadedMut = some previous)
    (hk : frameIndexFromUsize frames.length = .ok k) (size i : Nat) :
    Chains (met ++ [(j, size)]) (frames ++ [⟨size, previous, i⟩])
      (slots.set j (slot.withLastFrameIndex k)) := by
  obtain ⟨rfl, hbound⟩ := frameIndexFromUsize_eq h.bound hk
  refine ⟨?_, ?_, ?_⟩
  · rw [length_append, length_append, h.length]
    rfl
  · rw [length_append]
    exact hbound
  · intro j' last hlast
    by_cases hj : j = j'
    · subst hj
      rw [getElem?_set_self (List.getElem?_eq_some_iff.mp hslot).1, bind_some,
        unloadedMut_withLastFrameIndex hprevious] at hlast
      obtain ⟨items, hchain, hsizes⟩ := h.chain j previous (by rw [hslot]; exact hprevious)
      refine ⟨⟨size, previous, i⟩ :: items, ?_, ?_⟩
      · rw [← some.inj hlast]
        exact hchain.push rfl
      · rw [map_cons, hsizes, filter_append, filter_cons_of_pos (by simp),
          filter_nil, map_append, reverse_append]
        rfl
    · rw [getElem?_set_ne hj] at hlast
      obtain ⟨items, hchain, hsizes⟩ := h.chain j' last hlast
      refine ⟨items, hchain.append _, ?_⟩
      rw [hsizes, filter_append, filter_cons_of_neg (by simpa using hj), filter_nil,
        append_nil]

/-! ## 2. One section -/

/-- The frame that is made for an entry: its section and its size. -/
def frameOf (file : File) (slots : List SectionSlot) (data : Bytes) (rels : List Rel)
    (r : Record) : Option (Nat × Nat) :=
  if isCie data r then none
  else (layoutSection file rels r).bind fun j =>
    if unloadable slots j then some (j, r.size % 2 ^ 32) else none

def cieBytes (data : Bytes) (l : List Record) : Nat :=
  ((l.filter (isCie data)).map Record.size).sum

/-- What is behind the last entry. -/
def tailBytes (data : Bytes) : Nat :=
  data.length - endOf (entryFormat data) data.length 0

section

variable {file : File} {slots : List SectionSlot} {i : Nat} {data : Bytes} {rels : List Rel}
  {met : List (Nat × Nat)} {frames : List ExceptionFrame} {start : ObjectLayoutState}

/-- Halfway through a section: what is done and what is still to come are the whole. -/
structure ScanInv (file : File) (slots : List SectionSlot) (data : Bytes) (rels : List Rel)
    (met : List (Nat × Nat)) (frames : List ExceptionFrame) (start : ObjectLayoutState) (o : Nat)
    (s : Scan) : Prop where
  relocations : s.relIter = relsFrom rels o
  kinds : s.object.sections.map forget = slots
  chains : ∃ done, Chains (met ++ done) (frames ++ s.exceptionFrames) s.object.sections ∧
    done ++ (records (entryFormat data) data.length o).filterMap (frameOf file slots data rels)
      = (entries data).filterMap (frameOf file slots data rels)
  cies : (s.object.cies.map fun cie => cie.bytes.length).sum
      + cieBytes data (records (entryFormat data) data.length o)
    = (start.cies.map fun cie => cie.bytes.length).sum + cieBytes data (entries data)
  exceptionFrames : s.object.exceptionFrames = start.exceptionFrames
  ehFrameSize : s.object.ehFrameSize = start.ehFrameSize
  ehFrameHdr : s.object.ehFrameHdr = start.ehFrameHdr

theorem processFde_step (hsorted : rels.Pairwise fun a b => a.offset ≤ b.offset) {o : Nat}
    (hfits : o + prefixLen ≤ data.length ∧ o + (entryFormat data).sizeAt o ≤ data.length)
    (hfde : isCie data ((entryFormat data).recordAt o) = false) {s s' : Scan}
    (hinv : ScanInv file slots data rels met frames start o s)
    (h : processFde file i frames.length ((entryFormat data).recordAt o) s = .ok s') :
    ScanInv file slots data rels met frames start (o + (entryFormat data).sizeAt o) s' := by
  unfold processFde at h
  obtain ⟨⟨sectionIndex, rest⟩, hscan, h⟩ := bind_ok_iff.mp h
  rw [hinv.relocations] at hscan
  have hle : ((entryFormat data).recordAt o).start ≤ ((entryFormat data).recordAt o).stop :=
    Nat.le_add_right o _
  obtain ⟨hrest', hsection'⟩ := scanFdeRelocations_relsFrom hsorted hle hscan
  obtain ⟨done, hchains, hdone⟩ := hinv.chains
  have hcies : cieBytes data (records (entryFormat data) data.length o)
      = cieBytes data (records (entryFormat data) data.length
        (o + (entryFormat data).sizeAt o)) := by
    unfold cieBytes
    rw [records_of_fits hfits, filter_cons_of_neg (by simp [hfde])]
  rw [records_of_fits hfits] at hdone
  -- an FDE that no frame is made for leaves the object as it is
  have hskip : frameOf file slots data rels ((entryFormat data).recordAt o) = none →
      ScanInv file slots data rels met frames start (o + (entryFormat data).sizeAt o)
        { s with relIter := rest } := by
    intro hnone
    refine ⟨hrest', hinv.kinds, ⟨done, hchains, ?_⟩, ?_, hinv.exceptionFrames, hinv.ehFrameSize,
      hinv.ehFrameHdr⟩
    · rw [← hdone, filterMap_cons_none hnone]
    · rw [← hcies]
      exact hinv.cies
  cases hindex : sectionIndex with
  | none =>
    rw [hindex] at h hsection'
    rw [← ok.inj h]
    refine hskip ?_
    rw [frameOf, if_neg (by simp [hfde]), ← hsection', bind_none]
  | some j =>
    rw [hindex] at h hsection'
    have hframe : frameOf file slots data rels ((entryFormat data).recordAt o)
        = if unloadable s.object.sections j
          then some (j, ((entryFormat data).recordAt o).size % 2 ^ 32) else none := by
      rw [frameOf, if_neg (by simp [hfde]), ← hsection', bind_some, ← hinv.kinds,
        unloadable_map_forget]
    cases hslot : s.object.sections[j]? with
    | none => simp [hslot] at h
    | some slot =>
      simp only [hslot] at h
      cases hprevious : slot.unloadedMut with
      | none =>
        simp only [hprevious] at h
        rw [← ok.inj h]
        refine hskip ?_
        rw [hframe, if_neg (by simp [unloadable, hslot, hprevious])]
      | some previous =>
        simp only [hprevious] at h
        obtain ⟨k, hk, h⟩ := bind_ok_iff.mp h
        rw [← ok.inj h]
        rw [if_pos (by simp [unloadable, hslot, hprevious])] at hframe
        rw [← length_append] at hk
        have hpush := hchains.push hslot hprevious hk
          (((entryFormat data).recordAt o).size % 2 ^ 32) i
        refine ⟨hrest', ?_, ⟨done ++ [(j, ((entryFormat data).recordAt o).size % 2 ^ 32)], ?_, ?_⟩,
          ?_, hinv.exceptionFrames, hinv.ehFrameSize, hinv.ehFrameHdr⟩
        · rw [map_set_of_eq hslot (forget_withLastFrameIndex k slot)]
          exact hinv.kinds
        · rw [← append_assoc, ← append_assoc]
          exact hpush
        · rw [← hdone, filterMap_cons_some hframe, append_assoc]
          rfl
        · rw [← hcies]
          exact hinv.cies

theorem processCie_step (hsorted : rels.Pairwise fun a b => a.offset ≤ b.offset) {o : Nat}
    (hfits : o + prefixLen ≤ data.length ∧ o + (entryFormat data).sizeAt o ≤ data.length)
    (hcie : isCie data ((entryFormat data).recordAt o) = true) {s : Scan}
    (hinv : ScanInv file slots data rels met frames start o s) :
    ScanInv file slots data rels met frames start (o + (entryFormat data).sizeAt o)
      (processCie data ((entryFormat data).recordAt o) s) := by
  obtain ⟨done, hchains, hdone⟩ := hinv.chains
  have hcies := hinv.cies
  rw [records_of_fits hfits] at hdone hcies
  refine ⟨?_, hinv.kinds, ⟨done, hchains, ?_⟩, ?_, hinv.exceptionFrames, hinv.ehFrameSize,
    hinv.ehFrameHdr⟩
  · change (s.relIter.dropWhile _) = _
    rw [hinv.relocations]
    exact dropWhile_relsFrom hsorted (Nat.le_add_right o _)
  · rw [← hdone, filterMap_cons_none]
    rw [frameOf, if_pos hcie]
  · have hlen : ((data.take (o + (entryFormat data).sizeAt o)).drop o).length
        = (entryFormat data).sizeAt o := by
      rw [length_drop, length_take]
      omega
    rw [← hcies]
    unfold cieBytes
    rw [filter_cons_of_pos hcie]
    simp only [processCie, map_append, map_cons, map_nil, sum_append,
      sum_cons, sum_nil, Format.recordAt_start, Format.recordAt_stop,
      Format.recordAt_size, hlen]
    omega

/-- **A section**: the frames of its FDEs, and room for its CIEs and what is behind them. -/
theorem processEhFrameRelocations_spec (hsorted : rels.Pairwise fun a b => a.offset ≤ b.offset)
    (hkinds : start.sections.map forget = slots)
    (hchains : Chains met frames start.sections) {object : ObjectLayoutState}
    {new : List ExceptionFrame}
    (h : processEhFrameRelocations file i frames.length data rels start = .ok (object, new)) :
    object.sections.map forget = slots ∧
      Chains (met ++ (entries data).filterMap (frameOf file slots data rels)) (frames ++ new)
        object.sections ∧
      (object.cies.map fun cie => cie.bytes.length).sum + object.ehFrameSize
        = (start.cies.map fun cie => cie.bytes.length).sum + start.ehFrameSize
          + (cieBytes data (entries data) + tailBytes data) ∧
      object.exceptionFrames = start.exceptionFrames ∧ object.ehFrameHdr = start.ehFrameHdr := by
  unfold processEhFrameRelocations at h
  obtain ⟨⟨offset, s⟩, hwalk, h⟩ := bind_ok_iff.mp h
  cases h
  obtain ⟨hfold, hoffset, hend⟩ := (walk_eq_ok_iff _ _ _ _ _ _).mp hwalk
  have hfirst : ScanInv file slots data rels met frames start 0 ⟨rels, start, []⟩ := by
    refine ⟨?_, hkinds, ⟨[], ?_, rfl⟩, rfl, rfl, rfl, rfl⟩
    · exact (filter_eq_self.mpr fun rel _ => by simp).symm
    · rw [append_nil, append_nil]
      exact hchains
  have hinv := foldlM_records (P := ScanInv file slots data rels met frames start)
    (fun o s s' hheader hsize hP hstep => by
      unfold processEntry at hstep
      split at hstep
      · next hcie =>
        rw [← ok.inj hstep]
        exact processCie_step hsorted ⟨hheader, hsize⟩ (by simpa [isCie] using hcie) hP
      · next hfde =>
        exact processFde_step hsorted ⟨hheader, hsize⟩ (by simpa [isCie] using hfde) hP hstep)
    hfirst hfold
  rw [← hoffset] at hinv
  have hnone : records (entryFormat data) data.length offset = [] := by
    rw [records, dif_neg]
    intro hfits
    exact absurd hfits.1 (Nat.not_le.mpr hend)
  obtain ⟨done, hchains', hdone⟩ := hinv.chains
  have hcies := hinv.cies
  rw [hnone] at hdone hcies
  rw [filterMap_nil, append_nil] at hdone
  refine ⟨hinv.kinds, ?_, ?_, hinv.exceptionFrames, hinv.ehFrameHdr⟩
  · rw [← hdone]
    exact hchains'
  · have htail : tailBytes data = data.length - offset := by rw [tailBytes, hoffset]
    have hsize := hinv.ehFrameSize
    have hnil : cieBytes data [] = 0 := rfl
    simp only
    omega

end

/-! ## 3. The activation of an object -/

/-- The frames that are made for an `.eh_frame` section of a file. -/
def framesOf (file : File) (slots : List SectionSlot) (i : Nat) : List (Nat × Nat) :=
  (entries (file.data i)).filterMap
    (frameOf file slots (file.data i) (file.relocations i).rels)

/-- What is written of an `.eh_frame` section whatever is loaded. -/
def fixedBytes (file : File) (i : Nat) : Nat :=
  cieBytes (file.data i) (entries (file.data i)) + tailBytes (file.data i)

/-- The relocations of every `.eh_frame` section are sorted by offset. -/
def SortedRelocations (file : File) (slots : List SectionSlot) : Prop :=
  ∀ i ∈ frameSections slots, (file.relocations i).rels.Pairwise fun a b => a.offset ≤ b.offset

/-- What the activation has done after some of the sections. -/
structure Activated (slots : List SectionSlot) (met : List (Nat × Nat)) (fixed : Nat)
    (object : ObjectLayoutState) : Prop where
  kinds : object.sections.map forget = slots
  chains : Chains met object.exceptionFrames.frames object.sections
  sizes : (object.cies.map fun cie => cie.bytes.length).sum + object.ehFrameSize = fixed
  ehFrameHdr : object.ehFrameHdr = 0

theorem frames_extend {a b c : ExceptionFrames} (h : a.extend b = .ok c) :
    c.frames = a.frames ++ b.frames := by
  unfold ExceptionFrames.extend at h
  split at h
  · rw [← ok.inj h]
  · split at h
    · next hempty =>
      rw [← ok.inj h, isEmpty_iff.mp hempty, nil_append]
    · cases h

section

variable {file : File} {slots : List SectionSlot} {met : List (Nat × Nat)} {fixed : Nat}
  {object object' : ObjectLayoutState}

theorem loadExceptionFrameData_spec {i : Nat}
    (hsorted : (file.relocations i).rels.Pairwise fun a b => a.offset ≤ b.offset)
    (hobject : Activated slots met fixed object)
    (h : loadExceptionFrameData file i object = .ok object') :
    Activated slots (met ++ framesOf file slots i) (fixed + fixedBytes file i) object' := by
  unfold loadExceptionFrameData at h
  obtain ⟨⟨scanned, new⟩, hprocess, h⟩ := bind_ok_iff.mp h
  obtain ⟨exceptionFrames, hextend, h⟩ := bind_ok_iff.mp h
  obtain ⟨hkinds, hchains, hsizes, hframes, hhdr⟩ :=
    processEhFrameRelocations_spec hsorted hobject.kinds hobject.chains hprocess
  rw [← ok.inj h]
  refine ⟨hkinds, ?_, ?_, ?_⟩
  · rw [frames_extend hextend, hframes]
    exact hchains
  · have hfixed := hobject.sizes
    unfold fixedBytes
    simp only
    omega
  · exact hhdr.trans hobject.ehFrameHdr

theorem foldlM_loadExceptionFrameData {l : List Nat}
    (hsorted : ∀ i ∈ l, (file.relocations i).rels.Pairwise fun a b => a.offset ≤ b.offset) :
    ∀ {met : List (Nat × Nat)} {fixed : Nat} {object : ObjectLayoutState},
    Activated slots met fixed object →
    l.foldlM (fun object i => loadExceptionFrameData file i object) object = .ok object' →
    Activated slots (met ++ l.flatMap (framesOf file slots))
      (fixed + (l.map (fixedBytes file)).sum) object' := by
  induction l with
  | nil =>
    intro met fixed object hobject h
    rw [← ok.inj h, flatMap_nil, append_nil]
    exact hobject
  | cons i l ih =>
    intro met fixed object hobject h
    rw [foldlM_cons] at h
    obtain ⟨next, hload, h⟩ := bind_ok_iff.mp h
    have hnext := loadExceptionFrameData_spec (hsorted i mem_cons_self) hobject hload
    have hrest := ih (fun i hi => hsorted i (mem_cons_of_mem _ hi)) hnext h
    rw [flatMap_cons, map_cons, sum_cons, ← append_assoc, ← Nat.add_assoc]
    exact hrest

end

theorem map_forget_resolvedSlots (sections : List ResolvedSection) :
    (resolvedSlots sections).map forget = resolvedSlots sections := by
  refine ext_getElem? fun j => ?_
  rw [getElem?_map, resolvedSlots, getElem?_mapIdx]
  cases sections[j]? with
  | none => rfl
  | some kind => cases kind <;> rfl

/-- No section has a frame before the activation. -/
theorem chains_resolvedSlots (sections : List ResolvedSection) :
    Chains [] [] (resolvedSlots sections) := by
  refine ⟨rfl, by decide, fun j last hlast => ⟨[], ?_, rfl⟩⟩
  rw [resolvedSlots, getElem?_mapIdx] at hlast
  cases hkind : sections[j]? with
  | none => simp [hkind] at hlast
  | some kind =>
    rw [hkind] at hlast
    cases kind with
    | unloaded => rw [← some.inj hlast]; rfl
    | mustLoad => rw [← some.inj hlast]; rfl
    | _ => cases hlast

/-! ## 4. Loading sections -/

/-- A section that is loaded and not empty. -/
def loadedNonEmpty (slots : List SectionSlot) (j : Nat) : Bool :=
  match slots[j]? with
  | some (.loaded size) => 0 < size
  | _ => false

/-- The frames of sections that are loaded and not empty. -/
def loadedFrames (slots : List SectionSlot) (met : List (Nat × Nat)) : List (Nat × Nat) :=
  met.filter fun frame => loadedNonEmpty slots frame.1

/-- The section that an `.eh_frame` slot is for. -/
def SectionSlot.frameIndex : SectionSlot → Option Nat
  | frameData index => some index
  | _ => none

theorem frameSections_eq (slots : List SectionSlot) :
    frameSections slots = (slots.map frameIndex).filterMap id := by
  rw [filterMap_map]
  refine filterMap_congr fun slot _ => ?_
  cases slot <;> rfl

theorem frameIndex_forget (slot : SectionSlot) : slot.forget.frameIndex = slot.frameIndex := by
  cases slot <;> rfl

/-- What holds while sections are loaded. -/
structure Loading (shouldWriteEhFrameHdr : Bool) (slots : List SectionSlot)
    (met : List (Nat × Nat)) (fixed : Nat) (object : ObjectLayoutState) : Prop where
  frameIndex : object.sections.map frameIndex = slots.map frameIndex
  unloadable : ∀ j, EhFrame.unloadable object.sections j = true ∨
    loadedNonEmpty object.sections j = true → EhFrame.unloadable slots j = true
  chains : Chains met object.exceptionFrames.frames object.sections
  sizes : (object.cies.map fun cie => cie.bytes.length).sum + object.ehFrameSize
    = fixed + ((loadedFrames object.sections met).map (·.2)).sum
  ehFrameHdr : object.ehFrameHdr = if shouldWriteEhFrameHdr
    then ehFrameHdrEntrySize * (loadedFrames object.sections met).length else 0

/-- A section that is no longer unloaded has no chain. -/
theorem Chains.set {met : List (Nat × Nat)} {frames : List ExceptionFrame}
    {slots : List SectionSlot} (h : Chains met frames slots) (j : Nat)
    (hslot : slot.unloadedMut = none) : Chains met frames (slots.set j slot) := by
  refine ⟨h.length, h.bound, fun j' last hlast => ?_⟩
  by_cases hj : j = j'
  · subst hj
    rw [getElem?_set] at hlast
    split at hlast
    · split at hlast
      · rw [bind_some, hslot] at hlast
        cases hlast
      · cases hlast
    · next hne => exact absurd rfl hne
  · rw [getElem?_set_ne hj] at hlast
    exact h.chain j' last hlast

theorem filter_or_perm (p q : α → Bool) (l : List α)
    (hdisjoint : ∀ a ∈ l, q a = true → p a = false) :
    (l.filter fun a => p a || q a).Perm (l.filter p ++ l.filter q) := by
  have hsplit := (filter_append_perm p (l.filter fun a => p a || q a)).symm
  rw [List.filter_filter, List.filter_filter] at hsplit
  have hp : (l.filter fun a => p a && (p a || q a)) = l.filter p :=
    filter_congr fun a _ => by cases p a <;> rfl
  have hq : (l.filter fun a => !p a && (p a || q a)) = l.filter q :=
    filter_congr fun a ha => by
      cases hqa : q a with
      | false => cases p a <;> rfl
      | true => rw [hdisjoint a ha hqa]; rfl
  rwa [hp, hq] at hsplit

theorem loadedNonEmpty_set_loaded {slots : List SectionSlot}
    (hslot : slots[j]? = some slot) (hsize : ∀ size, slot ≠ .loaded size) (size k : Nat) :
    loadedNonEmpty (slots.set j (.loaded size)) k
      = (loadedNonEmpty slots k || (k == j && decide (0 < size))) := by
  unfold loadedNonEmpty
  by_cases hk : j = k
  · subst hk
    rw [getElem?_set_self (List.getElem?_eq_some_iff.mp hslot).1, hslot]
    cases slot with
    | loaded size' => exact absurd rfl (hsize size')
    | _ => simp
  · have hkj : (k == j) = false := by simpa using Ne.symm hk
    rw [getElem?_set_ne hk, hkj, Bool.false_and, Bool.or_false]

section

variable {file : File} {flag : Bool} {slots : List SectionSlot} {met : List (Nat × Nat)}
  {fixed : Nat} {object object' : ObjectLayoutState}

variable {j : Nat}

/-- The frames of a section are the ones on its chain. -/
theorem processSectionExceptionFrames_eq {frames : List ExceptionFrame} {sections : List SectionSlot}
    (hchains : Chains met frames sections) {slot : SectionSlot} {last : Option Nat}
    (hslot : sections[j]? = some slot) (hlast : slot.unloadedMut = some last) :
    processSectionExceptionFrames frames last = .ok
      ((met.filter (·.1 == j)).length, ((met.filter (·.1 == j)).map (·.2)).sum) := by
  obtain ⟨items, hchain, hsizes⟩ := hchains.chain j last (by rw [hslot]; exact hlast)
  have hlength : items.length = (met.filter (·.1 == j)).length := by
    have := congrArg length hsizes
    rwa [length_map, length_reverse, length_map] at this
  have hfuel : items.length ≤ frames.length := by
    rw [hlength, hchains.length]
    exact length_filter_le _ _
  unfold processSectionExceptionFrames
  rw [BackLinks.follow_eq hchain hfuel]
  simp only [hlength, hsizes, sum_reverse]

section

variable (hobject : Loading flag slots met fixed object)
include hobject

/-- **Loading a section** adds the frames of the section, if it is not empty. -/
theorem loadSection_step {slot : SectionSlot} {last : Option Nat}
    (hslot : object.sections[j]? = some slot)
    (hlast : slot.unloadedMut = some last) (h : loadSection file flag last j object = .ok object') :
    Loading flag slots met fixed object' := by
  have hnot : ∀ size, slot ≠ .loaded size := by
    rintro size rfl
    cases hlast
  have hindex : slot.frameIndex = none := by
    cases slot with
    | frameData index => cases hlast
    | _ => rfl
  have hj : unloadable slots j = true := by
    refine hobject.unloadable j (Or.inl ?_)
    rw [EhFrame.unloadable, hslot, bind_some, hlast]
    rfl
  cases hheader : file.sectionHeader j with
  | none => simp [loadSection, hheader] at h
  | some header =>
    simp only [loadSection, hheader] at h
    -- what is there when the slot is marked as loaded
    have hstep : ∃ added : ObjectLayoutState, added.sections = object.sections ∧
        added.cies = object.cies ∧ added.exceptionFrames = object.exceptionFrames ∧
        added.ehFrameSize = object.ehFrameSize + (if 0 < header.sectionSize
          then ((met.filter (·.1 == j)).map (·.2)).sum else 0) ∧
        added.ehFrameHdr = object.ehFrameHdr + (if flag then ehFrameHdrEntrySize *
          (if 0 < header.sectionSize then (met.filter (·.1 == j)).length else 0) else 0) ∧
        object' = { added with
          sections := added.sections.set j (.loaded header.sectionSize) } := by
      split at h
      · next hpos =>
        rw [nonEmptySectionLoaded,
          processSectionExceptionFrames_eq hobject.chains hslot hlast] at h
        refine ⟨_, ?_, ?_, ?_, ?_, ?_, (ok.inj h).symm⟩
        · rfl
        · rfl
        · rfl
        · rw [if_pos hpos]
        · rw [if_pos hpos]
      · next hzero =>
        refine ⟨object, rfl, rfl, rfl, ?_, ?_, (ok.inj h).symm⟩
        · rw [if_neg hzero, Nat.add_zero]
        · rw [if_neg hzero, Nat.mul_zero, ite_self, Nat.add_zero]
    obtain ⟨added, hsections, hcies, hframes, hsize, hhdr, rfl⟩ := hstep
    have hnonEmpty := loadedNonEmpty_set_loaded hslot hnot header.sectionSize
    have hperm : (loadedFrames (object.sections.set j (.loaded header.sectionSize)) met).Perm
        (loadedFrames object.sections met ++
          if 0 < header.sectionSize then met.filter (·.1 == j) else []) := by
      unfold loadedFrames
      simp only [hnonEmpty]
      refine (filter_or_perm _ _ met fun frame _ hframe => ?_).trans ?_
      · rw [Bool.and_eq_true, beq_iff_eq] at hframe
        rw [hframe.1, loadedNonEmpty, hslot]
        cases slot with
        | loaded size => exact absurd rfl (hnot size)
        | _ => rfl
      · split
        · next hpos => simp [hpos]
        · next hzero => simp [hzero]
    refine ⟨?_, fun k hk => ?_, ?_, ?_, ?_⟩
    · simp only [hsections]
      rw [map_set_of_eq hslot (b := loaded header.sectionSize) hindex.symm]
      exact hobject.frameIndex
    · simp only [hsections] at hk
      by_cases hkj : k = j
      · rw [hkj]
        exact hj
      · refine hobject.unloadable k (hk.imp (fun hun => ?_) (fun hload => ?_))
        · rw [EhFrame.unloadable, getElem?_set_ne (Ne.symm hkj)] at hun
          exact hun
        · rw [hnonEmpty, beq_eq_false_iff_ne.mpr hkj, Bool.false_and, Bool.or_false] at hload
          exact hload
    · simp only [hsections, hframes]
      exact hobject.chains.set j rfl
    · have hsum := (hperm.map (·.2)).sum_eq
      have hbefore := hobject.sizes
      simp only [hsections, hcies, hsize]
      rw [hsum, map_append, sum_append]
      split
      · omega
      · rw [map_nil, sum_nil]
        omega
    · have hlength := hperm.length_eq
      simp only [hsections, hhdr]
      rw [hobject.ehFrameHdr, hlength, length_append]
      cases flag with
      | false => rfl
      | true =>
        simp only [if_true, ← Nat.mul_add]
        split <;> rfl

/-- Debug information has no frames. -/
theorem loadDebugSection_step
    (hslot : object.sections[j]? = some .unloadedDebugInfo)
    (h : loadDebugSection file j object = .ok object') :
    Loading flag slots met fixed object' := by
  cases hheader : file.sectionHeader j with
  | none => simp [loadDebugSection, hheader] at h
  | some header =>
    simp only [loadDebugSection, hheader] at h
    rw [← ok.inj h]
    have hother : ∀ k, loadedNonEmpty
        (object.sections.set j (.loadedDebugInfo header.sectionSize)) k
          = loadedNonEmpty object.sections k := by
      intro k
      unfold loadedNonEmpty
      by_cases hk : j = k
      · subst hk
        rw [getElem?_set_self (List.getElem?_eq_some_iff.mp hslot).1, hslot]
      · rw [getElem?_set_ne hk]
    have hframes : loadedFrames (object.sections.set j (.loadedDebugInfo header.sectionSize)) met
        = loadedFrames object.sections met :=
      filter_congr fun frame _ => hother frame.1
    refine ⟨?_, fun k hk => hobject.unloadable k (hk.imp (fun hun => ?_) (fun hload => ?_)),
      hobject.chains.set j rfl, ?_, ?_⟩
    · simp only
      rw [map_set_of_eq hslot (b := loadedDebugInfo header.sectionSize) rfl]
      exact hobject.frameIndex
    · by_cases hkj : j = k
      · subst hkj
        simp only [EhFrame.unloadable] at hun
        rw [getElem?_set_self (List.getElem?_eq_some_iff.mp hslot).1] at hun
        cases hun
      · rw [EhFrame.unloadable, getElem?_set_ne hkj] at hun
        exact hun
    · rw [hother k] at hload
      exact hload
    · rw [hframes]
      exact hobject.sizes
    · rw [hframes]
      exact hobject.ehFrameHdr

theorem handleSectionLoadRequest_step
    (h : handleSectionLoadRequest file flag j object = .ok object') :
    Loading flag slots met fixed object' := by
  unfold handleSectionLoadRequest at h
  split at h
  · cases h
  · next last hslot => exact loadSection_step hobject hslot rfl h
  · next last hslot => exact loadSection_step hobject hslot rfl h
  · next hslot => exact loadDebugSection_step hobject hslot h
  · cases h
  · rw [← ok.inj h]
    exact hobject

end

theorem foldlM_handleSectionLoadRequest (requests : List Nat) :
    ∀ {object : ObjectLayoutState}, Loading flag slots met fixed object →
    requests.foldlM (fun object i => handleSectionLoadRequest file flag i object) object
      = .ok object' →
    Loading flag slots met fixed object' := by
  induction requests with
  | nil =>
    intro object hobject h
    rw [← ok.inj h]
    exact hobject
  | cons j requests ih =>
    intro object hobject h
    rw [foldlM_cons] at h
    obtain ⟨next, hnext, h⟩ := bind_ok_iff.mp h
    exact ih (handleSectionLoadRequest_step hobject hnext) h

/-- Nothing is loaded after the activation. -/
theorem Activated.loading (hslots : ∀ j, loadedNonEmpty slots j = false)
    (h : Activated slots met fixed object) : Loading flag slots met fixed object := by
  have hindex : object.sections.map frameIndex = slots.map frameIndex := by
    rw [← h.kinds, List.map_map]
    exact (map_congr_left fun slot _ => frameIndex_forget slot).symm
  have hnone : ∀ j, loadedNonEmpty object.sections j = false := by
    intro j
    have hj := hslots j
    rw [← h.kinds, loadedNonEmpty, getElem?_map] at hj
    rw [loadedNonEmpty]
    cases hslot : object.sections[j]? with
    | none => rfl
    | some slot =>
      rw [hslot] at hj
      cases slot with
      | loaded size => exact hj
      | _ => rfl
  have hframes : loadedFrames object.sections met = [] :=
    filter_eq_nil_iff.mpr fun frame _ => by rw [hnone]; exact Bool.false_ne_true
  refine ⟨hindex, fun j hj => ?_, h.chains, ?_, ?_⟩
  · rw [hnone j, or_iff_left Bool.false_ne_true] at hj
    rw [← h.kinds, unloadable_map_forget]
    exact hj
  · rw [hframes, h.sizes]
    rfl
  · rw [hframes, h.ehFrameHdr, length_nil, Nat.mul_zero, ite_self]

end

/-! ## 5. The allocation -/

/-- An FDE in an `.eh_frame` section of an object. -/
structure Fde where
  ehFrameSectionIndex : Nat
  record : Record
  deriving DecidableEq

def fdesOf (file : File) (i : Nat) : List Fde :=
  ((entries (file.data i)).filter fun r => !isCie (file.data i) r).map (Fde.mk i)

def objectFdes (file : File) (slots : List SectionSlot) : List Fde :=
  (frameSections slots).flatMap (fdesOf file)

namespace Fde

variable (file : File) (slots : List SectionSlot) (fde : Fde)

/-- The relocations of its section. -/
def rels : List Rel := (file.relocations fde.ehFrameSectionIndex).rels

/-- `frame_size` -/
def frameSize : Nat := fde.record.size % 2 ^ 32

/-- Whether there is a section that the layout takes the FDE to be for, and it is loaded and not
empty. -/
def counted : Bool :=
  match layoutSection file (fde.rels file) fde.record with
  | some j => loadedNonEmpty slots j
  | none => false

end Fde

section

variable {file : File} {flag : Bool} {slots final : List SectionSlot}

/-- The frames of loaded sections are the FDEs that are counted. -/
theorem loadedFrames_framesOf (hfinal : ∀ j, loadedNonEmpty final j = true →
      unloadable slots j = true) (i : Nat) :
    (loadedFrames final (framesOf file slots i)).map (·.2)
      = ((fdesOf file i).filter (Fde.counted file final)).map Fde.frameSize := by
  unfold framesOf fdesOf
  induction entries (file.data i) with
  | nil => rfl
  | cons r l ih =>
    cases hcie : isCie (file.data i) r with
    | true =>
      rw [filterMap_cons_none (by rw [frameOf, if_pos hcie]),
        filter_cons_of_neg (by simp [hcie])]
      exact ih
    | false =>
      rw [filter_cons_of_pos (by simp [hcie]), map_cons]
      have hframe : frameOf file slots (file.data i) (file.relocations i).rels r
          = (layoutSection file (file.relocations i).rels r).bind fun j =>
            if unloadable slots j then some (j, r.size % 2 ^ 32) else none := by
        rw [frameOf, if_neg (by simp [hcie])]
      cases hsection : layoutSection file (file.relocations i).rels r with
      | none =>
        have hcounted : ¬ Fde.counted file final ⟨i, r⟩ = true := by
          simp [Fde.counted, Fde.rels, hsection]
        rw [filterMap_cons_none (by rw [hframe, hsection]; rfl),
          filter_cons_of_neg hcounted]
        exact ih
      | some j =>
        have hcounted : Fde.counted file final ⟨i, r⟩ = loadedNonEmpty final j := by
          simp [Fde.counted, Fde.rels, hsection]
        rw [hsection, bind_some] at hframe
        cases hun : unloadable slots j with
        | false =>
          have hnot : ¬ Fde.counted file final ⟨i, r⟩ = true := by
            rw [hcounted]
            intro hload
            rw [hfinal j hload] at hun
            cases hun
          rw [hun, if_neg Bool.false_ne_true] at hframe
          rw [filterMap_cons_none hframe, filter_cons_of_neg hnot]
          exact ih
        | true =>
          rw [hun, if_pos rfl] at hframe
          rw [filterMap_cons_some hframe]
          unfold loadedFrames at ih ⊢
          cases hload : loadedNonEmpty final j with
          | false =>
            rw [filter_cons_of_neg (by simp [hload]),
              filter_cons_of_neg (by simp [hcounted, hload])]
            exact ih
          | true =>
            rw [filter_cons_of_pos (by simp [hload]),
              filter_cons_of_pos (by simp [hcounted, hload]), map_cons, map_cons, ih]
            rfl

theorem loadedFrames_flatMap (hfinal : ∀ j, loadedNonEmpty final j = true →
      unloadable slots j = true) (l : List Nat) :
    (loadedFrames final (l.flatMap (framesOf file slots))).map (·.2)
      = ((l.flatMap (fdesOf file)).filter (Fde.counted file final)).map Fde.frameSize := by
  induction l with
  | nil => rfl
  | cons i l ih =>
    rw [flatMap_cons, flatMap_cons, filter_append, map_append, ← ih,
      ← loadedFrames_framesOf hfinal i, ← map_append, loadedFrames, filter_append]
    rfl

theorem loadedNonEmpty_resolvedSlots (sections : List ResolvedSection) (j : Nat) :
    loadedNonEmpty (resolvedSlots sections) j = false := by
  rw [loadedNonEmpty, resolvedSlots, getElem?_mapIdx]
  cases sections[j]? with
  | none => rfl
  | some kind => cases kind <;> rfl

/-- **The allocation of an object**, for any sections and any requests. -/
theorem layout_spec {sections : List ResolvedSection} {requests : List Nat}
    {object : ObjectLayoutState} (hsorted : SortedRelocations file (resolvedSlots sections))
    (h : layout file flag sections requests = .ok object) :
    frameSections object.sections = frameSections (resolvedSlots sections) ∧
      object.ehFrameSize = ((frameSections object.sections).map (fixedBytes file)).sum
        + (((objectFdes file object.sections).filter
          (Fde.counted file object.sections)).map Fde.frameSize).sum ∧
      object.ehFrameHdr = if flag then ehFrameHdrEntrySize *
        ((objectFdes file object.sections).filter (Fde.counted file object.sections)).length
          else 0 := by
  unfold layout at h
  obtain ⟨activated, hactivate, h⟩ := bind_ok_iff.mp h
  obtain ⟨loaded, hload, h⟩ := bind_ok_iff.mp h
  have hstart : Activated (resolvedSlots sections) [] 0
      ⟨resolvedSlots sections, [], ⟨false, []⟩, 0, 0⟩ :=
    ⟨map_forget_resolvedSlots sections, chains_resolvedSlots sections, rfl, rfl⟩
  have hactivated := foldlM_loadExceptionFrameData hsorted hstart hactivate
  rw [nil_append, Nat.zero_add] at hactivated
  have hloading := foldlM_handleSectionLoadRequest requests
    (hactivated.loading (loadedNonEmpty_resolvedSlots sections)) hload
  have hfinal : ∀ j, loadedNonEmpty loaded.sections j = true →
      unloadable (resolvedSlots sections) j = true := fun j hj => hloading.unloadable j (Or.inr hj)
  have hframes : frameSections loaded.sections = frameSections (resolvedSlots sections) := by
    rw [frameSections_eq, frameSections_eq, hloading.frameIndex]
  have hcounted : (loadedFrames loaded.sections ((frameSections (resolvedSlots sections)).flatMap
        (framesOf file (resolvedSlots sections)))).map (·.2)
      = ((objectFdes file loaded.sections).filter
        (Fde.counted file loaded.sections)).map Fde.frameSize := by
    rw [objectFdes, hframes]
    exact loadedFrames_flatMap hfinal _
  rw [← ok.inj h]
  refine ⟨hframes, ?_, ?_⟩
  · have hsizes := hloading.sizes
    rw [hcounted, ← hframes] at hsizes
    simp only [finaliseObjectSizes]
    rw [Nat.add_comm]
    exact hsizes
  · have hlength := congrArg length hcounted
    rw [length_map, length_map] at hlength
    have hhdr := hloading.ehFrameHdr
    rw [hlength] at hhdr
    exact hhdr

end

end Srs.EhFrame
