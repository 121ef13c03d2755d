/-
# Rescanning part of the sections

`layout.rs`: `perform_iterative_relaxation` scans the executable sections, lays the parts out anew
and scans again, until a pass makes nothing smaller.  After the first pass it leaves sections out:
it keeps those whose closest candidate was at most as far from being relaxed as the bytes that were
deleted in that pass.

A section that is left out is never scanned again, so the filter loses nothing exactly where every
section it leaves out has nothing to relax in any later pass (`losesNothing_iff`).  It does lose
something: the margin of a backward call is one too large, an alignment has no margin at all, and
the deletions of two passes add up.
-/
import Srs.Layout.AddressEstimate
import Srs.Lib.Sweeps
import Srs.Relaxation.Scan

namespace Srs.AddressEstimate

open Relaxation Deletions Sweeps Option

/-! ## 1. A pass -/

structure LayoutState where
  groups : List GroupState
  sectionPartSizes : Offsets
  sectionPartLayouts : Offsets

/-- A group, a file of it and a section of that. -/
abbrev SectionPath := Nat × Nat × Nat

def InputSection.isLoaded (sec : InputSection) : Bool :=
  match sec.slot with
  | .loaded _ => true
  | _ => false

section

variable (res : Resources) (st : LayoutState)

/-- `SymbolOutputInfos::resolve` -/
def resolve (symbolId : SymbolId) : Option RelaxSymbolInfo :=
  let addr := (computeSectionAndSymbolAddresses res st.groups st.sectionPartLayouts).2 symbolId
  if addr = symbolAddressUnresolved then none
  else some ⟨addr, (res.flags symbolId).isInterposable⟩

/-- What the scan of a section is given. -/
def scanInput (g f : Nat) (obj : ObjectLayoutState) (i : Nat) (sec : InputSection) : ScanInput where
  sectionOutputAddress := sectionAddress res st.groups st.sectionPartLayouts g f i
  sectionBytes := sec.bytes
  existingDeltas := sec.relaxDeltas
  resolveSymbol := fun symIdx =>
    resolve res st (res.symbolDb.definition (obj.symbolIdStart + symIdx))

/-- A section after its scan, and the margin of its closest candidate. -/
def scanSection (g f : Nat) (obj : ObjectLayoutState) (i : Nat) (sec : InputSection) :
    InputSection × Option Nat :=
  if sectionAddress res st.groups st.sectionPartLayouts g f i = 0 then (sec, none)
  else
    let env := scanInput res st g f obj i sec
    let (rawDeltas, minMargin) := collectRelaxationDeltas env sec.relocations
    if rawDeltas = [] then (sec, minMargin)
    else
      ({ sec with
          slot := match sec.slot with
            | .loaded s => .loaded { s with size := s.size - total rawDeltas }
            | slot => slot
          relaxDeltas := passDeltas env sec.relocations }, minMargin)

/-- `RescanSections`: the sections to scan, by group and file. -/
abbrev RescanSections := List (List (List Nat))

/-- Whether a section is scanned: every executable one is, the first time. -/
def isScanned (prevRescan : Option RescanSections) (g f i : Nat) (sec : InputSection) : Bool :=
  match prevRescan with
  | some rescan => ((rescan[g]?.bind (·[f]?)).getD []).contains i
  | none => sec.isLoaded && sec.isExecutable

/-- The part of the layout that a loaded section takes. -/
def loadedCapacity (sec : InputSection) : Nat :=
  match sec.slot with
  | .loaded s => sec.capacity res s
  | _ => 0

/-- The files with other sections. -/
def FileLayoutState.mapSections (step : ObjectLayoutState → Nat → InputSection → InputSection) :
    FileLayoutState → FileLayoutState
  | .object obj => .object { obj with sections := obj.sections.mapIdx (step obj) }
  | .other taken => .other taken

/-- What the sections of a file get smaller by, for each part. -/
def reductions (step : ObjectLayoutState → Nat → InputSection → InputSection) :
    FileLayoutState → Offsets
  | .object obj =>
    (obj.sections.mapIdx fun i sec =>
      Pi.single sec.partId (loadedCapacity res sec - loadedCapacity res (step obj i sec))).sum
  | .other _ => 0

/-- The same for all parts together. -/
def deletedBytes (step : ObjectLayoutState → Nat → InputSection → InputSection) :
    FileLayoutState → Nat
  | .object obj =>
    (obj.sections.mapIdx fun i sec =>
      loadedCapacity res sec - loadedCapacity res (step obj i sec)).sum
  | .other _ => 0

/-- The state with other sections: the groups and the parts have the sizes that are left. -/
def rebuild (step : Nat → Nat → ObjectLayoutState → Nat → InputSection → InputSection) :
    LayoutState where
  groups := st.groups.mapIdx fun g group =>
    { files := group.files.mapIdx fun f file => file.mapSections (step g f)
      memSizes := group.memSizes
        - (group.files.mapIdx fun f file => reductions res (step g f) file).sum }
  sectionPartSizes := st.sectionPartSizes
    - (st.groups.mapIdx fun g group =>
        (group.files.mapIdx fun f file => reductions res (step g f) file).sum).sum
  sectionPartLayouts := st.sectionPartLayouts

/-- `total_deleted` -/
def totalDeleted (step : Nat → Nat → ObjectLayoutState → Nat → InputSection → InputSection) : Nat :=
  (st.groups.mapIdx fun g group =>
    (group.files.mapIdx fun f file => deletedBytes res (step g f) file).sum).sum

/-- A section after a pass. -/
def passSection (visit : Nat → Nat → Nat → InputSection → Bool) (g f : Nat)
    (obj : ObjectLayoutState) (i : Nat) (sec : InputSection) : InputSection :=
  if visit g f i sec then (scanSection res st g f obj i sec).1 else sec

/-- The scanned sections with candidates that were not relaxed, and the margins. -/
def rescanCandidates (visit : Nat → Nat → Nat → InputSection → Bool) :
    List (List (List (Nat × Nat))) :=
  st.groups.mapIdx fun g group => group.files.mapIdx fun f file =>
    match file with
    | .object obj =>
      obj.sections.zipIdx.filterMap fun (sec, i) =>
        if visit g f i sec then (scanSection res st g f obj i sec).2.map (Prod.mk i) else none
    | .other _ => []

/-- `relaxation_scan_pass` -/
def relaxationScanPass (prevRescan : Option RescanSections) :
    LayoutState × Nat × List (List (List (Nat × Nat))) :=
  let visit := isScanned prevRescan
  (rebuild res st (passSection res st visit), totalDeleted res st (passSection res st visit),
    rescanCandidates res st visit)

end

/-! ## 2. The loop -/

section

variable (res : Resources) (layoutSectionParts : Offsets → Offsets)

/-- The parts laid out with the sizes they have now. -/
def LayoutState.relayout (st : LayoutState) : LayoutState :=
  { st with sectionPartLayouts := layoutSectionParts st.sectionPartSizes }

/-- How the loop ended, and the states in which it chose what to scan. -/
structure Outcome where
  state : LayoutState
  passes : List (LayoutState × Option RescanSections)
  /-- it was left before the iterations were used up -/
  stopped : Bool

/-- `MAX_RELAXATION_ITERATIONS` -/
def maxRelaxationIterations : Nat := 5

def relaxationLoop : Nat → Option RescanSections → LayoutState → Outcome
  | 0, _, st => ⟨st, [], false⟩
  | n + 1, rescan, st =>
    if rescan.any fun r => r.all fun files => files.all (·.isEmpty) then ⟨st, [(st, rescan)], true⟩
    else
      let (after, deleted, nextCandidates) := relaxationScanPass res st rescan
      if deleted = 0 then ⟨after, [(st, rescan)], true⟩
      else
        let next := nextCandidates.map (·.map fun secs =>
          (secs.filter fun candidate => candidate.2 ≤ deleted).map (·.1))
        let rest := relaxationLoop n (some next) (after.relayout layoutSectionParts)
        { rest with passes := (st, rescan) :: rest.passes }

/-- `perform_iterative_relaxation` -/
def performIterativeRelaxation (st : LayoutState) : Outcome :=
  relaxationLoop res layoutSectionParts maxRelaxationIterations none st

end

/-! ## 3. What is asked of the filter -/

/-- The section at a path. -/
def sectionAt (st : LayoutState) (g f i : Nat) : Option InputSection :=
  (objectAt st.groups g f).bind (·.sections[i]?)

/-- The deletions of a section. -/
def deltasAt (st : LayoutState) (g f i : Nat) : Option (Option SectionRelaxDeltas) :=
  (sectionAt st g f i).map (·.relaxDeltas)

section

variable (res : Resources) (layoutSectionParts : Offsets → Offsets)

/-- The loop that scans every executable section in every pass, until no bytes are deleted. -/
inductive RelaxesFully : LayoutState → LayoutState → Prop where
  | last {st : LayoutState} : (relaxationScanPass res st none).2.1 = 0 →
      RelaxesFully st (relaxationScanPass res st none).1
  | more {st t : LayoutState} : (relaxationScanPass res st none).2.1 ≠ 0 →
      RelaxesFully ((relaxationScanPass res st none).1.relayout layoutSectionParts) t →
      RelaxesFully st t

/-- The deletions are those of the loop without the filter. -/
def LosesNothing (st : LayoutState) : Prop :=
  ∃ t, RelaxesFully res layoutSectionParts st t
    ∧ ∀ g f i, deltasAt (performIterativeRelaxation res layoutSectionParts st).state g f i
      = deltasAt t g f i

/-- No relocation of a section can be relaxed with the addresses of a state: no call in reach that
still has its `jalr`, no `lui` with a small value, no NOPs that an alignment can do without. -/
def Settled (st : LayoutState) (g f : Nat) (obj : ObjectLayoutState) (i : Nat)
    (sec : InputSection) : Prop :=
  sectionAddress res st.groups st.sectionPartLayouts g f i = 0
    ∨ ∀ before rel after, sec.relocations = before ++ rel :: after →
      emit (scanInput res st g f obj i sec) 0 rel after.head? = none

/-- Whenever sections are chosen, the executable ones that are left out are settled. -/
def LeavesSettled (st : LayoutState) : Prop :=
  ∀ pass ∈ (performIterativeRelaxation res layoutSectionParts st).passes,
    ∀ g f i obj sec, objectAt pass.1.groups g f = some obj → obj.sections[i]? = some sec →
      sec.isLoaded = true → sec.isExecutable = true → isScanned pass.2 g f i sec = false →
      Settled res pass.1 g f obj i sec

end

/-! ## 4. The scan of a section -/

theorem ranges_eq_nil_iff {env : ScanInput} {cum : Nat} (rels : List Rela) :
    ranges env cum rels = [] ↔
      ∀ before rel after, rels = before ++ rel :: after → emit env cum rel after.head? = none := by
  induction rels with
  | nil =>
    refine iff_of_true rfl ?_
    intro before rel after h
    simp at h
  | cons rel rest ih =>
    rw [ranges]
    constructor
    · intro h before q after hsplit
      cases hemit : emit env cum rel rest.head? with
      | some r =>
        rw [hemit] at h
        cases h
      | none =>
        rw [hemit] at h
        cases before with
        | nil =>
          cases hsplit
          exact hemit
        | cons b before => exact ih.mp h before q after (List.cons.inj hsplit).2
    · intro h
      rw [h [] rel rest rfl]
      exact ih.mpr fun before q after hsplit => h (rel :: before) q after (by rw [hsplit]; rfl)

section

variable {res : Resources} {st : LayoutState} {g f i : Nat} {obj : ObjectLayoutState}
  {sec : InputSection}

theorem rawDeltas_eq_nil_iff (env : ScanInput) (rels : List Rela) :
    (collectRelaxationDeltas env rels).1 = [] ↔
      ∀ before rel after, rels = before ++ rel :: after → emit env 0 rel after.head? = none := by
  have hraw : (collectRelaxationDeltas env rels).1 = ranges env 0 rels := scan_rawDeltas env rels
  rw [hraw]
  exact ranges_eq_nil_iff rels

/-- **The scan of a section**: it leaves it as it is, or it adds deletions. -/
theorem scanSection_cases (res : Resources) (st : LayoutState) (g f : Nat)
    (obj : ObjectLayoutState) (i : Nat) (sec : InputSection) :
    (Settled res st g f obj i sec ∧ (scanSection res st g f obj i sec).1 = sec)
    ∨ (¬ Settled res st g f obj i sec
      ∧ ∃ raw, raw ≠ [] ∧ (scanSection res st g f obj i sec).1
        = { sec with
            slot := match sec.slot with
              | .loaded s => .loaded { s with size := s.size - total raw }
              | slot => slot
            relaxDeltas := passDeltas (scanInput res st g f obj i sec) sec.relocations }
        ∧ raw = ranges (scanInput res st g f obj i sec) 0 sec.relocations) := by
  unfold scanSection Settled
  by_cases haddress : sectionAddress res st.groups st.sectionPartLayouts g f i = 0
  · rw [if_pos haddress]
    exact .inl ⟨.inl haddress, rfl⟩
  · rw [if_neg haddress]
    dsimp only
    by_cases hraw :
        (collectRelaxationDeltas (scanInput res st g f obj i sec) sec.relocations).1 = []
    · rw [if_pos hraw]
      exact .inl ⟨.inr ((rawDeltas_eq_nil_iff _ _).mp hraw), rfl⟩
    · rw [if_neg hraw]
      refine .inr ⟨?_, _, hraw, rfl, scan_rawDeltas _ _⟩
      rintro (h | h)
      · exact haddress h
      · exact hraw ((rawDeltas_eq_nil_iff _ _).mpr h)

theorem isLoaded_scanSection :
    (scanSection res st g f obj i sec).1.isLoaded = sec.isLoaded := by
  obtain ⟨-, h⟩ | ⟨-, raw, -, h, -⟩ := scanSection_cases res st g f obj i sec
  · rw [h]
  · rw [h]
    unfold InputSection.isLoaded
    cases sec.slot <;> rfl

theorem isExecutable_scanSection :
    (scanSection res st g f obj i sec).1.isExecutable = sec.isExecutable := by
  obtain ⟨-, h⟩ | ⟨-, raw, -, h, -⟩ := scanSection_cases res st g f obj i sec
  · rw [h]
  · rw [h]

/-- How many deletions a section has. -/
def deletions (sec : InputSection) : Nat := (rawOf sec.relaxDeltas).length

theorem deletions_scanSection_of_not_settled (h : ¬ Settled res st g f obj i sec) :
    deletions sec < deletions (scanSection res st g f obj i sec).1 := by
  obtain ⟨hsettled, -⟩ | ⟨-, raw, hraw, hscan, rfl⟩ := scanSection_cases res st g f obj i sec
  · exact absurd hsettled h
  · have hperm := (rawOf_passDeltas (scanInput res st g f obj i sec) sec.relocations).length_eq
    rw [List.length_append] at hperm
    have hpos := List.length_pos_iff.mpr hraw
    rw [hscan]
    change (rawOf sec.relaxDeltas).length < (rawOf (passDeltas _ _)).length
    rw [hperm]
    exact Nat.lt_add_of_pos_right hpos

theorem deletions_le_scanSection :
    deletions sec ≤ deletions (scanSection res st g f obj i sec).1 := by
  by_cases h : Settled res st g f obj i sec
  · obtain ⟨-, hscan⟩ | ⟨hnot, -⟩ := scanSection_cases res st g f obj i sec
    · rw [hscan]
    · exact absurd h hnot
  · exact (deletions_scanSection_of_not_settled h).le

theorem capacity_mono {part : PartInfo} {s t : Section} (hsize : s.size ≤ t.size)
    (hextra : s.extraCapacity = t.extraCapacity) : s.capacity part ≤ t.capacity part := by
  unfold Section.capacity
  split
  · exact hsize
  · have hround : part.alignment.alignUp s.size ≤ part.alignment.alignUp t.size :=
      Nat.mul_le_mul_right _ (Nat.div_le_div_right (Nat.add_le_add_right hsize _))
    omega

theorem loadedCapacity_scanSection :
    loadedCapacity res (scanSection res st g f obj i sec).1 ≤ loadedCapacity res sec := by
  obtain ⟨-, h⟩ | ⟨-, raw, -, h, -⟩ := scanSection_cases res st g f obj i sec
  · rw [h]
  · rw [h]
    unfold loadedCapacity
    cases sec.slot with
    | loaded s => exact capacity_mono (Nat.sub_le _ _) rfl
    | loadedDebugInfo s | frameData | unplaced => exact Nat.le_refl _

end

/-! ## 5. States with other sections -/

section

variable {res : Resources} {st : LayoutState}
  {step step' : Nat → Nat → ObjectLayoutState → Nat → InputSection → InputSection}

theorem objectAt_mapIdx (groups : List GroupState) (memSizes : Nat → GroupState → Offsets)
    (g f : Nat) :
    objectAt (groups.mapIdx fun g group =>
        { files := group.files.mapIdx fun f file => file.mapSections (step g f)
          memSizes := memSizes g group }) g f
      = (objectAt groups g f).map fun obj =>
        { obj with sections := obj.sections.mapIdx (step g f obj) } := by
  unfold objectAt
  rw [List.getElem?_mapIdx]
  cases hg : groups[g]? with
  | none => rfl
  | some group =>
    simp only [map_some, bind, bind_some, List.getElem?_mapIdx]
    cases hf : group.files[f]? with
    | none => rfl
    | some file => cases file <;> rfl

theorem sectionAt_rebuild (g f i : Nat) :
    sectionAt (rebuild res st step) g f i = (objectAt st.groups g f).bind fun obj =>
      (obj.sections[i]?).map (step g f obj i) := by
  unfold sectionAt rebuild
  rw [objectAt_mapIdx]
  cases objectAt st.groups g f with
  | none => rfl
  | some obj => simp only [map_some, bind_some, List.getElem?_mapIdx]

/-- What is true of every section is true of every object of every group. -/
theorem forall_object {P : Nat → Nat → ObjectLayoutState → Nat → InputSection → Prop}
    (h : ∀ g f obj i sec, objectAt st.groups g f = some obj → obj.sections[i]? = some sec →
      P g f obj i sec) {g f : Nat} (hg : g < st.groups.length)
    (hf : f < st.groups[g].files.length) {obj : ObjectLayoutState}
    (hobj : st.groups[g].files[f] = .object obj) {i : Nat} (hi : i < obj.sections.length) :
    P g f obj i obj.sections[i] := by
  refine h g f obj i _ ?_ (List.getElem?_eq_getElem hi)
  unfold objectAt
  rw [List.getElem?_eq_getElem hg]
  simp only [bind, bind_some, List.getElem?_eq_getElem hf, hobj]

/-- The state depends on what becomes of the sections only. -/
theorem rebuild_congr (h : ∀ g f obj i sec, objectAt st.groups g f = some obj →
    obj.sections[i]? = some sec → step g f obj i sec = step' g f obj i sec) :
    rebuild res st step = rebuild res st step'
      ∧ totalDeleted res st step = totalDeleted res st step' := by
  have hfile : ∀ g (hg : g < st.groups.length) f (hf : f < st.groups[g].files.length),
      st.groups[g].files[f].mapSections (step g f) = st.groups[g].files[f].mapSections (step' g f)
      ∧ reductions res (step g f) st.groups[g].files[f]
        = reductions res (step' g f) st.groups[g].files[f]
      ∧ deletedBytes res (step g f) st.groups[g].files[f]
        = deletedBytes res (step' g f) st.groups[g].files[f] := by
    intro g hg f hf
    cases hobj : st.groups[g].files[f] with
    | other taken => exact ⟨rfl, rfl, rfl⟩
    | object obj =>
      have hstep : ∀ i (hi : i < obj.sections.length),
          step g f obj i obj.sections[i] = step' g f obj i obj.sections[i] :=
        fun i hi => forall_object h hg hf hobj hi
      refine ⟨?_, ?_, ?_⟩
      · dsimp only [FileLayoutState.mapSections]
        rw [List.mapIdx_eq_mapIdx_iff.mpr hstep]
      · refine congrArg List.sum (List.mapIdx_eq_mapIdx_iff.mpr fun i hi => ?_)
        rw [hstep i hi]
      · refine congrArg List.sum (List.mapIdx_eq_mapIdx_iff.mpr fun i hi => ?_)
        rw [hstep i hi]
  have hreductions : ∀ g (hg : g < st.groups.length),
      (st.groups[g].files.mapIdx fun f file => reductions res (step g f) file)
        = st.groups[g].files.mapIdx fun f file => reductions res (step' g f) file :=
    fun g hg => List.mapIdx_eq_mapIdx_iff.mpr fun f hf => (hfile g hg f hf).2.1
  constructor
  · unfold rebuild
    congr 1
    · refine List.mapIdx_eq_mapIdx_iff.mpr fun g hg => ?_
      rw [hreductions g hg, List.mapIdx_eq_mapIdx_iff.mpr fun f hf => (hfile g hg f hf).1]
    · refine congrArg (fun l : List Offsets => st.sectionPartSizes - l.sum)
        (List.mapIdx_eq_mapIdx_iff.mpr fun g hg => ?_)
      rw [hreductions g hg]
  · refine congrArg List.sum (List.mapIdx_eq_mapIdx_iff.mpr fun g hg => ?_)
    exact congrArg List.sum (List.mapIdx_eq_mapIdx_iff.mpr fun f hf => (hfile g hg f hf).2.2)

theorem mapIdx_eq_self {α : Type} {step : Nat → α → α} {l : List α}
    (h : ∀ i (hi : i < l.length), step i l[i] = l[i]) : l.mapIdx step = l := by
  refine List.ext_getElem? fun i => ?_
  rw [List.getElem?_mapIdx]
  cases hi : l[i]? with
  | none => rfl
  | some a =>
    obtain ⟨hlt, rfl⟩ := List.getElem?_eq_some_iff.mp hi
    rw [map_some, h i hlt]

theorem sum_mapIdx_eq_zero {α β : Type} [AddMonoid β] {step : Nat → α → β} (l : List α)
    (h : ∀ i a, step i a = 0) : (l.mapIdx step).sum = 0 := by
  refine List.sum_eq_zero fun b hb => ?_
  obtain ⟨i, hi, rfl⟩ := List.mem_mapIdx.mp hb
  exact h i _

theorem offsets_sub_zero (offsets : Offsets) : offsets - 0 = offsets :=
  funext fun _ => Nat.sub_zero _

/-- Nothing changes when every section stays as it is. -/
theorem rebuild_id : rebuild res st (fun _ _ _ _ sec => sec) = st
    ∧ totalDeleted res st (fun _ _ _ _ sec => sec) = 0 := by
  have hreductions : ∀ file, reductions res (fun _ _ sec => sec) file = 0 := by
    intro file
    cases file with
    | other taken => rfl
    | object obj =>
      refine sum_mapIdx_eq_zero _ fun i sec => ?_
      rw [Nat.sub_self, Pi.single_zero]
  have hdeleted : ∀ file, deletedBytes res (fun _ _ sec => sec) file = 0 := by
    intro file
    cases file with
    | other taken => rfl
    | object obj => exact sum_mapIdx_eq_zero _ fun i sec => Nat.sub_self _
  have hsections : ∀ file : FileLayoutState, file.mapSections (fun _ _ sec => sec) = file := by
    intro file
    cases file with
    | other taken => rfl
    | object obj =>
      have hself : obj.sections.mapIdx (fun _ sec => sec) = obj.sections :=
        mapIdx_eq_self fun _ _ => rfl
      dsimp only [FileLayoutState.mapSections]
      rw [hself]
  have hgroup : ∀ group : GroupState,
      (group.files.mapIdx fun _ file => reductions res (fun _ _ sec => sec) file).sum = 0 :=
    fun group => sum_mapIdx_eq_zero _ fun _ file => hreductions file
  constructor
  · unfold rebuild
    have hgroups : (st.groups.mapIdx fun _ group =>
        { files := group.files.mapIdx fun _ file => file.mapSections fun _ _ sec => sec
          memSizes := group.memSizes
            - (group.files.mapIdx fun _ file => reductions res (fun _ _ sec => sec) file).sum
          : GroupState }) = st.groups := by
      refine mapIdx_eq_self fun g hg => ?_
      rw [hgroup, offsets_sub_zero, mapIdx_eq_self fun f hf => hsections _]
    rw [hgroups, sum_mapIdx_eq_zero _ fun _ group => hgroup group, offsets_sub_zero]
  · exact sum_mapIdx_eq_zero _ fun _ group => sum_mapIdx_eq_zero _ fun _ file => hdeleted file

end

/-! ## 6. The loop as sweeps -/

/-- Whether there is an executable section at a path. -/
def isExecutableAt (st : LayoutState) (path : SectionPath) : Bool :=
  (sectionAt st path.1 path.2.1 path.2.2).any fun sec => sec.isLoaded && sec.isExecutable

def deletionsAt (st : LayoutState) (path : SectionPath) : Nat :=
  ((sectionAt st path.1 path.2.1 path.2.2).map deletions).getD 0

section

variable (res : Resources) (layoutSectionParts : Offsets → Offsets)

/-- The pass over the sections at some paths. -/
def passOver (visit : SectionPath → Bool) (st : LayoutState) :
    Nat → Nat → ObjectLayoutState → Nat → InputSection → InputSection :=
  passSection res st fun g f i _ => visit (g, f, i)

/-- A section after a pass, where there is one. -/
theorem sectionAt_passOver (visit : SectionPath → Bool) (st : LayoutState) (g f i : Nat) :
    sectionAt (rebuild res st (passOver res visit st)) g f i
      = (objectAt st.groups g f).bind fun obj => (obj.sections[i]?).map fun sec =>
        if visit (g, f, i) then (scanSection res st g f obj i sec).1 else sec :=
  sectionAt_rebuild g f i

theorem sectionAt_eq_some {st : LayoutState} {g f i : Nat} {obj : ObjectLayoutState}
    {sec : InputSection} (hobj : objectAt st.groups g f = some obj)
    (hsec : obj.sections[i]? = some sec) : sectionAt st g f i = some sec := by
  rw [sectionAt, hobj, bind_some, hsec]

/-- A fact about the sections of a pass, from the one about a section and its scan. -/
theorem sectionAt_passOver_cases {R : Option InputSection → Option InputSection → Prop}
    (hnone : R none none) (hself : ∀ sec, R (some sec) (some sec))
    (hscan : ∀ st g f obj i sec, R (some sec) (some (scanSection res st g f obj i sec).1))
    (visit : SectionPath → Bool) (st : LayoutState) (g f i : Nat) :
    R (sectionAt st g f i) (sectionAt (rebuild res st (passOver res visit st)) g f i) := by
  rw [sectionAt_passOver, sectionAt]
  cases objectAt st.groups g f with
  | none => exact hnone
  | some obj =>
    rw [bind_some, bind_some]
    cases obj.sections[i]? with
    | none => exact hnone
    | some sec =>
      rw [map_some]
      cases visit (g, f, i) with
      | true => exact hscan st g f obj i sec
      | false => exact hself sec

/-- The passes of `perform_iterative_relaxation`. -/
def sweep : Sweep LayoutState SectionPath where
  all := isExecutableAt
  pass visit st := rebuild res st (passOver res visit st)
  cost visit st := totalDeleted res st (passOver res visit st)
  between := LayoutState.relayout layoutSectionParts
  done := deletionsAt
  Quiet st path := ∀ obj sec, objectAt st.groups path.1 path.2.1 = some obj →
    obj.sections[path.2.2]? = some sec → Settled res st path.1 path.2.1 obj path.2.2 sec
  all_pass visit st := by
    funext path
    refine sectionAt_passOver_cases res (R := fun a b =>
        (b.any fun sec => sec.isLoaded && sec.isExecutable)
          = a.any fun sec => sec.isLoaded && sec.isExecutable)
      rfl (fun _ => rfl) ?_ visit st _ _ _
    intro st g f obj i sec
    rw [any_some, any_some, isLoaded_scanSection, isExecutable_scanSection]
  all_between st := rfl
  pass_congr {S T st} h := by
    refine rebuild_congr ?_
    intro g f obj i sec hobj hsec
    unfold passOver passSection
    by_cases hquiet : Settled res st g f obj i sec
    · have hscan : (scanSection res st g f obj i sec).1 = sec := by
        obtain ⟨-, hscan⟩ | ⟨hnot, -⟩ := scanSection_cases res st g f obj i sec
        · exact hscan
        · exact absurd hquiet hnot
      rw [hscan, ite_self, ite_self]
    · have hsame : S (g, f, i) = T (g, f, i) :=
        h (g, f, i) fun hq => hquiet (hq obj sec hobj hsec)
      simp only [hsame]
  pass_none st := by
    have hstep : passOver res (fun _ => false) st = fun _ _ _ _ sec => sec := by
      funext g f obj i sec
      rfl
    rw [hstep]
    exact rebuild_id
  done_between st path := rfl
  done_skip {S st path} h := by
    obtain ⟨g, f, i⟩ := path
    unfold deletionsAt
    rw [sectionAt_passOver, h, sectionAt]
    simp only [Bool.false_eq_true, if_false, Option.map_id']
  done_le visit st path := by
    refine sectionAt_passOver_cases res (R := fun a b =>
        (a.map deletions).getD 0 ≤ (b.map deletions).getD 0)
      (Nat.le_refl _) (fun _ => Nat.le_refl _) ?_ visit st _ _ _
    intro st g f obj i sec
    exact deletions_le_scanSection
  done_lt {S st path} hS hquiet := by
    obtain ⟨g, f, i⟩ := path
    obtain ⟨obj, hquiet⟩ := not_forall.mp hquiet
    obtain ⟨sec, hquiet⟩ := not_forall.mp hquiet
    obtain ⟨hobj, hquiet⟩ := Classical.not_imp.mp hquiet
    obtain ⟨hsec, hquiet⟩ := Classical.not_imp.mp hquiet
    unfold deletionsAt
    rw [sectionAt_passOver, hobj, bind_some, hsec, map_some, hS, if_pos rfl,
      sectionAt_eq_some hobj hsec]
    exact deletions_scanSection_of_not_settled hquiet

/-- The paths at which sections are scanned. -/
def visitOf (rescan : Option RescanSections) (st : LayoutState) : SectionPath → Bool :=
  match rescan with
  | some r => fun path => ((r[path.1]?.bind (·[path.2.1]?)).getD []).contains path.2.2
  | none => isExecutableAt st

theorem visitOf_eq {rescan : Option RescanSections} {st : LayoutState} {g f i : Nat}
    {sec : InputSection} (h : sectionAt st g f i = some sec) :
    visitOf rescan st (g, f, i) = isScanned rescan g f i sec := by
  cases rescan with
  | some r => rfl
  | none =>
    change Option.any _ _ = _
    rw [h]
    rfl

/-- A scan pass is a pass over the paths at which sections are scanned. -/
theorem relaxationScanPass_eq (rescan : Option RescanSections) (st : LayoutState) :
    (relaxationScanPass res st rescan).1
        = (sweep res layoutSectionParts).pass (visitOf rescan st) st
      ∧ (relaxationScanPass res st rescan).2.1
        = (sweep res layoutSectionParts).cost (visitOf rescan st) st := by
  refine rebuild_congr ?_
  intro g f obj i sec hobj hsec
  unfold passOver passSection
  have hsame := @visitOf_eq rescan _ _ _ _ _ (sectionAt_eq_some hobj hsec)
  simp only [hsame]

/-- The sections that are kept for the next pass are among those scanned in this one. -/
theorem visitOf_next {rescan : Option RescanSections} {st st' : LayoutState}
    {keep : Nat × Nat → Bool} {path : SectionPath}
    (h : visitOf (some ((relaxationScanPass res st rescan).2.2.map (·.map fun secs =>
      (secs.filter keep).map (·.1)))) st' path = true) : visitOf rescan st path = true := by
  obtain ⟨g, f, i⟩ := path
  simp only [visitOf, relaxationScanPass, rescanCandidates, List.getElem?_map,
    List.getElem?_mapIdx] at h
  cases hg : st.groups[g]? with
  | none =>
    rw [hg] at h
    cases h
  | some group =>
    rw [hg] at h
    simp only [map_some, bind_some, List.getElem?_map, List.getElem?_mapIdx] at h
    cases hf : group.files[f]? with
    | none =>
      rw [hf] at h
      cases h
    | some file =>
      rw [hf] at h
      cases file with
      | other taken => simp at h
      | object obj =>
        have hobj : objectAt st.groups g f = some obj := by
          unfold objectAt
          rw [hg]
          simp only [bind, bind_some, hf]
        simp only [map_some, getD_some, List.contains_iff_mem, List.mem_map,
          List.mem_filter, List.mem_filterMap] at h
        obtain ⟨⟨i', margin⟩, ⟨⟨⟨sec, k⟩, hmem, hsome⟩, -⟩, rfl⟩ := h
        have hsec := List.mem_zipIdx_iff_getElem?.mp hmem
        dsimp only at hsome hsec
        split at hsome
        · rename_i hvisit
          obtain ⟨m, -, heq⟩ := map_eq_some_iff.mp hsome
          obtain ⟨rfl, -⟩ := Prod.mk.inj heq
          rw [visitOf_eq (sectionAt_eq_some hobj hsec)]
          exact hvisit
        · cases hsome

/-- **The loop is a thinned one**, when it is left early. -/
theorem thinned_relaxationLoop (n : Nat) : ∀ {rescan : Option RescanSections} {st : LayoutState},
    (relaxationLoop res layoutSectionParts n rescan st).stopped = true →
    (sweep res layoutSectionParts).Thinned (visitOf rescan st) st
      ((relaxationLoop res layoutSectionParts n rescan st).passes.map fun pass =>
        (pass.1, visitOf pass.2 pass.1))
      (relaxationLoop res layoutSectionParts n rescan st).state := by
  induction n with
  | zero =>
    intro rescan st h
    cases h
  | succ n ih =>
    intro rescan st h
    obtain ⟨hpass, hcost⟩ := relaxationScanPass_eq res layoutSectionParts rescan st
    unfold relaxationLoop at h ⊢
    split at h
    · rename_i hempty
      rw [if_pos hempty]
      refine .idle fun path => ?_
      cases rescan with
      | none => cases hempty
      | some r =>
        change (((r[path.1]?.bind (·[path.2.1]?)).getD []).contains path.2.2) = false
        have hall : ∀ files ∈ r, ∀ secs ∈ files, secs = [] := by
          intro files hfiles secs hsecs
          have := List.all_eq_true.mp (List.all_eq_true.mp hempty files hfiles) secs hsecs
          exact List.isEmpty_iff.mp this
        have hnil : (r[path.1]?.bind (·[path.2.1]?)).getD [] = [] := by
          cases hsecs : r[path.1]?.bind (·[path.2.1]?) with
          | none => rfl
          | some secs =>
            obtain ⟨files, hg, hf⟩ := bind_eq_some_iff.mp hsecs
            exact hall files (List.mem_of_getElem? hg) secs (List.mem_of_getElem? hf)
        rw [hnil]
        rfl
    · rename_i hsome
      rw [if_neg hsome]
      dsimp only at h ⊢
      split at h
      · rename_i hzero
        rw [if_pos hzero]
        rw [hcost] at hzero
        dsimp only
        rw [hpass]
        exact .last hzero
      · rename_i hne
        rw [if_neg hne]
        rw [hcost] at hne
        dsimp only at h ⊢
        have hbetween : (sweep res layoutSectionParts).between
              ((sweep res layoutSectionParts).pass (visitOf rescan st) st)
            = (relaxationScanPass res st rescan).1.relayout layoutSectionParts := by
          rw [← hpass]
          rfl
        have hrest := ih h
        generalize hafter : (relaxationScanPass res st rescan).1.relayout layoutSectionParts = after
          at hrest hbetween ⊢
        obtain rfl := hbetween
        exact .more hne (fun path hnext => visitOf_next res hnext) hrest

theorem relaxesFully_iff {st t : LayoutState} :
    RelaxesFully res layoutSectionParts st t ↔ (sweep res layoutSectionParts).Exhausts st t := by
  have hpass := fun st => relaxationScanPass_eq res layoutSectionParts none st
  constructor
  · intro h
    induction h with
    | @last st hzero =>
      rw [(hpass st).1]
      exact .last ((hpass st).2 ▸ hzero)
    | @more st t hne _ ih =>
      rw [(hpass st).1] at ih
      exact .more ((hpass st).2 ▸ hne) ih
  · intro h
    induction h with
    | @last st hzero =>
      have hstate := (hpass st).1
      exact hstate ▸ .last ((hpass st).2.trans hzero)
    | @more st t hne _ ih =>
      refine .more (fun hzero => hne ((hpass st).2.symm.trans hzero)) ?_
      rw [(hpass st).1]
      exact ih

/-! ## 7. The loop without the filter comes to an end -/

def fileCapacity : FileLayoutState → Nat
  | .object obj => (obj.sections.map (loadedCapacity res)).sum
  | .other _ => 0

def groupCapacity (group : GroupState) : Nat := (group.files.map (fileCapacity res)).sum

def totalCapacity (st : LayoutState) : Nat := (st.groups.map (groupCapacity res)).sum

theorem map_mapIdx {α β γ : Type} (k : β → γ) (step : Nat → α → β) (l : List α) :
    (l.mapIdx step).map k = l.mapIdx fun i a => k (step i a) := by
  refine List.ext_getElem? fun i => ?_
  simp only [List.getElem?_map, List.getElem?_mapIdx, Option.map_map, Function.comp_def]

theorem sum_mapIdx_add {α : Type} {total : α → Nat} (l : List α) : ∀ {taken left : Nat → α → Nat},
    (∀ i a, taken i a + left i a = total a) →
      (l.mapIdx taken).sum + (l.mapIdx left).sum = (l.map total).sum := by
  induction l with
  | nil => exact fun _ => rfl
  | cons a l ih =>
    intro taken left h
    have hrest := @ih (fun i => taken (i + 1)) (fun i => left (i + 1)) fun i b => h (i + 1) b
    have hfirst := h 0 a
    rw [List.mapIdx_cons, List.mapIdx_cons, List.map_cons, List.sum_cons, List.sum_cons,
      List.sum_cons]
    omega

/-- What is deleted and what is left. -/
theorem totalDeleted_add_totalCapacity {st : LayoutState}
    {step : Nat → Nat → ObjectLayoutState → Nat → InputSection → InputSection}
    (hstep : ∀ g f obj i sec, loadedCapacity res (step g f obj i sec) ≤ loadedCapacity res sec) :
    totalDeleted res st step + totalCapacity res (rebuild res st step) = totalCapacity res st := by
  have hfile : ∀ g f file, deletedBytes res (step g f) file
      + fileCapacity res (file.mapSections (step g f)) = fileCapacity res file := by
    intro g f file
    cases file with
    | other taken => rfl
    | object obj =>
      dsimp only [deletedBytes, fileCapacity, FileLayoutState.mapSections]
      rw [map_mapIdx]
      refine sum_mapIdx_add _ fun i sec => ?_
      have := hstep g f obj i sec
      omega
  unfold totalDeleted totalCapacity rebuild
  rw [map_mapIdx]
  refine sum_mapIdx_add _ fun g group => ?_
  dsimp only [groupCapacity]
  rw [map_mapIdx]
  exact sum_mapIdx_add _ fun f file => hfile g f file

theorem exists_relaxesFully (st : LayoutState) : ∃ t, RelaxesFully res layoutSectionParts st t := by
  have hsmaller : ∀ st, totalDeleted res st (passOver res (isExecutableAt st) st) ≠ 0 →
      totalCapacity res (rebuild res st (passOver res (isExecutableAt st) st))
        < totalCapacity res st := by
    intro st hne
    have hsum := @totalDeleted_add_totalCapacity res st (passOver res (isExecutableAt st) st)
      fun g f obj i sec => by
        unfold passOver passSection
        split
        · exact loadedCapacity_scanSection
        · exact Nat.le_refl _
    omega
  obtain ⟨t, ht⟩ := @Sweep.exists_exhausts _ _ (sweep res layoutSectionParts) (totalCapacity res)
    hsmaller st
  exact ⟨t, (relaxesFully_iff res layoutSectionParts).mpr ht⟩

/-! ## 8. The result -/

/-- The passes leave quiet what they leave out, in the words of the sections. -/
theorem leavesQuiet_iff (st : LayoutState) :
    (sweep res layoutSectionParts).LeavesQuiet
        ((performIterativeRelaxation res layoutSectionParts st).passes.map fun pass =>
          (pass.1, visitOf pass.2 pass.1))
      ↔ LeavesSettled res layoutSectionParts st := by
  unfold Sweep.LeavesQuiet LeavesSettled
  rw [List.forall_mem_map]
  refine forall₂_congr fun pass _ => ⟨?_, ?_⟩
  · intro h g f i obj sec hobj hsec hloaded hexec hnot
    have hat := sectionAt_eq_some hobj hsec
    refine h (g, f, i) ?_ ((visitOf_eq hat).trans hnot) obj sec hobj hsec
    change Option.any _ (sectionAt pass.1 g f i) = true
    rw [hat, any_some, hloaded, hexec]
    rfl
  · intro h path hexec hnot obj sec hobj hsec
    have hat := sectionAt_eq_some hobj hsec
    have hboth : (sec.isLoaded && sec.isExecutable) = true := by
      change Option.any _ (sectionAt pass.1 path.1 path.2.1 path.2.2) = true at hexec
      rwa [hat, any_some] at hexec
    obtain ⟨hloaded, hexec⟩ := Bool.and_eq_true_iff.mp hboth
    exact h path.1 path.2.1 path.2.2 obj sec hobj hsec hloaded hexec
      ((visitOf_eq hat).symm.trans hnot)

section

variable {res layoutSectionParts} {st : LayoutState}
  (hstop : (performIterativeRelaxation res layoutSectionParts st).stopped = true)
include hstop

theorem leavesSettled_of_losesNothing (h : LosesNothing res layoutSectionParts st) :
    LeavesSettled res layoutSectionParts st := by
  obtain ⟨t, ht, hdeltas⟩ := h
  refine (leavesQuiet_iff res layoutSectionParts st).mp
    ((thinned_relaxationLoop res layoutSectionParts _ hstop).leavesQuiet_of_done (fun _ h => h)
      ((relaxesFully_iff ..).mp ht) fun path => ?_)
  have hlengths : ∀ st : LayoutState, deletionsAt st path
      = ((deltasAt st path.1 path.2.1 path.2.2).map fun d => (rawOf d).length).getD 0 := by
    intro st
    unfold deletionsAt deltasAt
    rw [Option.map_map]
    rfl
  change deletionsAt (performIterativeRelaxation res layoutSectionParts st).state path
    = deletionsAt t path
  rw [hlengths, hlengths t, hdeltas]

theorem losesNothing_of_leavesSettled (h : LeavesSettled res layoutSectionParts st) :
    LosesNothing res layoutSectionParts st := by
  obtain ⟨t, ht⟩ := exists_relaxesFully res layoutSectionParts st
  have heq := (thinned_relaxationLoop res layoutSectionParts _ hstop).eq_of_leavesQuiet
    (fun _ h => h) ((relaxesFully_iff ..).mp ht) ((leavesQuiet_iff ..).mpr h)
  exact ⟨t, ht, fun g f i => congrArg (deltasAt · g f i) heq⟩

end

end

/-! ## 9. A call backwards -/

/-- An executable section of eight bytes, a call to a symbol. -/
def callSection (symbol : Nat) : InputSection where
  slot := .loaded ⟨8, 0⟩
  partId := 700
  isExecutable := true
  bytes := [0x97, 0, 0, 0, 0xe7, 0x80, 0, 0]
  relocations := [⟨0, .call, some symbol, 0⟩, ⟨0, .relax, none, 0⟩]
  relaxDeltas := none

/-- Sections at `2 ^ 21` that call symbols with the given addresses. -/
def callsTo (targets : List Nat) : LayoutState where
  groups :=
    [⟨[.object {
        sections := (List.range targets.length).map callSection
        symbols := targets.map fun value => ⟨none, none, value, true⟩
        symbolIdStart := 0
        ehFrameSize := 0
        thunkSize := none
        thunkBlockId := 0
        ownsThunkBlock := false
        extraThunkBlockIds := [] }], Pi.single 700 (8 * targets.length)⟩]
  sectionPartSizes := Pi.single 700 (8 * targets.length)
  sectionPartLayouts := partAt (2 ^ 21)

/-- The second call is `2 ^ 20 + 4` bytes behind its target.  Its margin is 5, and the first call
loses 4 bytes: then the second one is in reach, but it is not looked at again. -/
def backwardCall : LayoutState := callsTo [2 ^ 21, 2 ^ 20 + 4]

/-- A relaxation of the first relocation of a section that is left out. -/
def missedAt (pass : LayoutState × Option RescanSections) (g f i : Nat) : Bool :=
  ((objectAt pass.1.groups g f).bind fun obj => (obj.sections[i]?).map fun sec =>
    sec.isLoaded && sec.isExecutable && !isScanned pass.2 g f i sec
      && sectionAddress plainResources pass.1.groups pass.1.sectionPartLayouts g f i != 0
      && match sec.relocations with
        | rel :: after =>
          (emit (scanInput plainResources pass.1 g f obj i sec) 0 rel after.head?).isSome
        | [] => false).getD false

theorem not_settled_of_missedAt {pass : LayoutState × Option RescanSections} {g f i : Nat}
    (h : missedAt pass g f i = true) : ∃ obj sec, objectAt pass.1.groups g f = some obj
      ∧ obj.sections[i]? = some sec ∧ sec.isLoaded = true ∧ sec.isExecutable = true
      ∧ isScanned pass.2 g f i sec = false ∧ ¬ Settled plainResources pass.1 g f obj i sec := by
  unfold missedAt at h
  cases hobj : objectAt pass.1.groups g f with
  | none =>
    rw [hobj] at h
    cases h
  | some obj =>
    rw [hobj, bind_some] at h
    cases hsec : obj.sections[i]? with
    | none =>
      rw [hsec] at h
      cases h
    | some sec =>
      rw [hsec, map_some, getD_some] at h
      simp only [Bool.and_eq_true, Bool.not_eq_true', bne_iff_ne] at h
      obtain ⟨⟨⟨⟨hloaded, hexec⟩, hnot⟩, haddress⟩, hemit⟩ := h
      refine ⟨obj, sec, rfl, hsec, hloaded, hexec, hnot, ?_⟩
      rintro (hzero | hnone)
      · exact haddress hzero
      · cases hrels : sec.relocations with
        | nil =>
          rw [hrels] at hemit
          cases hemit
        | cons rel after =>
          rw [hrels] at hemit
          dsimp only at hemit
          rw [hnone [] rel after hrels] at hemit
          cases hemit

end Srs.AddressEstimate
