/-
# Layout and writer on exception frames

What the layout allocates for an object is what the writer takes, if the FDEs that only one of the
two sees cancel out (`eh_frame_agreement_iff`).  The layout looks at every relocation of an FDE, and
takes the last one at `pc_begin`; the writer looks at the first relocation only.  On RISC-V and
LoongArch, `pc_begin` can be the difference of two symbols, and then there are two relocations: the
layout takes the one that is subtracted, which is in `.eh_frame` itself, so nothing is allocated for
an FDE that the writer keeps (`difference_at_pc_begin`).

A writer has the buffers of a whole group, so the property is about every size of them that has room
for what was allocated for the object.
-/
import Srs.EhFrame.Writing

namespace Srs.EhFrame

open LeBytes Records List Fde

/-! ## 1. A run with other buffers -/

/-- The second writer has written the same, and has room for what the first one takes until `bytes`
and `hdr` are left. -/
structure Follows (bytes hdr : Nat) (tw₁ tw₂ : TableWriter) : Prop where
  start : tw₁.ehFrameStartAddress = tw₂.ehFrameStartAddress
  hdrEntries : tw₁.hdrEntries = tw₂.hdrEntries
  written : tw₁.written = tw₂.written
  ehFrame : tw₁.ehFrame ≤ tw₂.ehFrame + bytes
  ehFrameHdr : tw₁.ehFrameHdr = 0 ∧ tw₂.ehFrameHdr = 0 ∨
    0 < hdr ∧ tw₁.ehFrameHdr ≤ tw₂.ehFrameHdr + hdr

/-- At least that much is left. -/
def Left (bytes hdr : Nat) (tw : TableWriter) : Prop := bytes ≤ tw.ehFrame ∧ hdr ≤ tw.ehFrameHdr

structure StateFollows (bytes hdr : Nat) (s₁ s₂ : WriteState) : Prop where
  relocations : s₁.relocations = s₂.relocations
  outputPos : s₁.outputPos = s₂.outputPos
  cies : s₁.ciesOffsetConversion = s₂.ciesOffsetConversion
  table : Follows bytes hdr s₁.table s₂.table

section

variable {bytes hdr : Nat} {env : WriterEnv} {i : Nat} {data : Bytes} {r : Record}

variable {tw₁ tw₁' tw₂ : TableWriter} {s₁ s₂ : WriteState}

theorem takeEhFrameData_sim {size : Nat}
    (h : tw₁.takeEhFrameData size = .ok tw₁') (hleft : Left bytes hdr tw₁')
    (hfollows : Follows bytes hdr tw₁ tw₂) :
    ∃ tw₂', tw₂.takeEhFrameData size = .ok tw₂' ∧ Follows bytes hdr tw₁' tw₂' := by
  obtain ⟨hle, rfl⟩ := takeEhFrameData_eq h
  have hbytes := hleft.1
  have hroom := hfollows.ehFrame
  simp only at hbytes
  refine ⟨{ tw₂ with ehFrame := tw₂.ehFrame - size }, ?_, hfollows.start, hfollows.hdrEntries,
    hfollows.written, ?_, hfollows.ehFrameHdr⟩
  · rw [TableWriter.takeEhFrameData, if_neg (by omega)]
  · simp only
    omega

theorem writeHdrEntry_sim {target : FdeTarget} {outputPos : Nat}
    (h : writeHdrEntry env target outputPos tw₁ = .ok tw₁') (hleft : Left bytes hdr tw₁')
    (hfollows : Follows bytes hdr tw₁ tw₂) :
    ∃ tw₂', writeHdrEntry env target outputPos tw₂ = .ok tw₂' ∧ Follows bytes hdr tw₁' tw₂' := by
  have hspec := writeHdrEntry_eq h
  unfold writeHdrEntry at h ⊢
  obtain ⟨taken, htake, h⟩ := bind_ok_iff.mp h
  unfold TableWriter.takeEhFrameHdrEntry at htake
  split at htake
  · next hzero =>
    rw [← Except.ok.inj htake] at h
    obtain rfl : tw₁ = tw₁' := Except.ok.inj h
    have hzero₂ : tw₂.ehFrameHdr = 0 := by
      have := hleft.2
      have := hfollows.ehFrameHdr
      omega
    refine ⟨tw₂, ?_, hfollows⟩
    rw [bind_ok_iff]
    refine ⟨none, ?_, rfl⟩
    rw [TableWriter.takeEhFrameHdrEntry, if_pos hzero₂]
  · next hne =>
    split at htake
    · cases htake
    · next hge =>
      rw [← Except.ok.inj htake] at h
      obtain ⟨framePtr, hframePtr, h⟩ := bind_ok_iff.mp h
      obtain ⟨frameInfoPtr, hframeInfoPtr, h⟩ := bind_ok_iff.mp h
      have htaken := Except.ok.inj h
      have hroom : ehFrameHdrEntrySize ≤ tw₂.ehFrameHdr := by
        have hhdr := hspec.2.1
        have := hleft.2
        have := hfollows.ehFrameHdr
        omega
      refine ⟨{ tw₂ with
        ehFrameHdr := tw₂.ehFrameHdr - ehFrameHdrEntrySize
        hdrEntries := tw₂.hdrEntries ++ [⟨framePtr, frameInfoPtr⟩] }, ?_, ?_⟩
      · rw [bind_ok_iff]
        refine ⟨some { tw₂ with ehFrameHdr := tw₂.ehFrameHdr - ehFrameHdrEntrySize }, ?_, ?_⟩
        · have hpos : tw₂.ehFrameHdr ≠ 0 := by
            unfold ehFrameHdrEntrySize at hroom
            omega
          rw [TableWriter.takeEhFrameHdrEntry, if_neg hpos, if_neg (Nat.not_lt.mpr hroom)]
        · simp only
          rw [bind_ok_iff]
          refine ⟨framePtr, hframePtr, ?_⟩
          rw [bind_ok_iff]
          refine ⟨frameInfoPtr, ?_, rfl⟩
          rw [← hfollows.start]
          exact hframeInfoPtr
      · rw [← htaken] at hleft ⊢
        refine ⟨hfollows.start, ?_, hfollows.written, hfollows.ehFrame, ?_⟩
        · simp only [hfollows.hdrEntries]
        · have hhdr := hleft.2
          have := hfollows.ehFrameHdr
          simp only at hhdr ⊢
          omega

variable {s₁' : WriteState}

theorem keepEntry_sim {cieOffset target : Option Nat}
    (h : keepEntry i data r cieOffset target s₁ = .ok s₁') (hleft : Left bytes hdr s₁'.table)
    (hfollows : StateFollows bytes hdr s₁ s₂) :
    ∃ s₂', keepEntry i data r cieOffset target s₂ = .ok s₂' ∧ StateFollows bytes hdr s₁' s₂' := by
  unfold keepEntry at h ⊢
  obtain ⟨table₁, htake, h⟩ := bind_ok_iff.mp h
  have hs₁' := Except.ok.inj h
  have hleft' : Left bytes hdr table₁ := by
    rw [← hs₁'] at hleft
    exact hleft
  obtain ⟨table₂, htake₂, htable⟩ := takeEhFrameData_sim htake hleft' hfollows.table
  refine ⟨_, bind_ok_iff.mpr ⟨table₂, htake₂, rfl⟩, ?_⟩
  rw [← hs₁']
  refine ⟨?_, ?_, hfollows.cies, htable.start, htable.hdrEntries, ?_, htable.ehFrame,
    htable.ehFrameHdr⟩
  · simp only [hfollows.relocations]
  · simp only [hfollows.outputPos]
  · simp only [htable.written, htable.start, hfollows.outputPos]

theorem writeEntry_sim (h : writeEntry env i data r s₁ = .ok s₁')
    (hleft : Left bytes hdr s₁'.table) (hfollows : StateFollows bytes hdr s₁ s₂) :
    ∃ s₂', writeEntry env i data r s₂ = .ok s₂' ∧ StateFollows bytes hdr s₁' s₂' := by
  unfold writeEntry at h ⊢
  split at h
  · next hcie =>
    rw [if_pos hcie]
    refine keepEntry_sim h hleft ⟨hfollows.relocations, hfollows.outputPos, ?_, hfollows.table⟩
    simp only [hfollows.cies, hfollows.outputPos]
  · next hfde =>
    rw [if_neg hfde]
    unfold writeFde at h ⊢
    obtain ⟨target, htarget, h⟩ := bind_ok_iff.mp h
    rw [hfollows.relocations] at htarget
    cases target with
    | none =>
      rw [← Except.ok.inj h]
      refine ⟨_, bind_ok_iff.mpr ⟨none, htarget, rfl⟩, ?_, hfollows.outputPos, hfollows.cies,
        hfollows.table⟩
      simp only [hfollows.relocations]
    | some target =>
      obtain ⟨inputPos, hinputPos, h⟩ := bind_ok_iff.mp h
      obtain ⟨table₁, htable₁, h⟩ := bind_ok_iff.mp h
      obtain ⟨cieOffset, hcieOffset, h⟩ := bind_ok_iff.mp h
      rw [hfollows.outputPos] at htable₁
      rw [hfollows.outputPos, hfollows.cies] at hcieOffset
      have hleft' : Left bytes hdr table₁ := by
        obtain ⟨-, hs₁'⟩ := keepEntry_eq h
        rw [hs₁'] at hleft
        exact ⟨Nat.le_trans hleft.1 (Nat.sub_le _ _), hleft.2⟩
      obtain ⟨table₂, htable₂, htable⟩ := writeHdrEntry_sim htable₁ hleft' hfollows.table
      have hmid : StateFollows bytes hdr { s₁ with table := table₁ } { s₂ with table := table₂ } :=
        ⟨hfollows.relocations, hfollows.outputPos, hfollows.cies, htable⟩
      obtain ⟨s₂', hs₂', hfollows'⟩ := keepEntry_sim h hleft hmid
      refine ⟨s₂', bind_ok_iff.mpr ⟨some target, htarget, ?_⟩, hfollows'⟩
      refine bind_ok_iff.mpr ⟨inputPos, hinputPos, ?_⟩
      refine bind_ok_iff.mpr ⟨table₂, htable₂, ?_⟩
      exact bind_ok_iff.mpr ⟨cieOffset, hcieOffset, hs₂'⟩

/-- An entry takes, it does not give back. -/
theorem writeEntry_left {s s' : WriteState} (h : writeEntry env i data r s = .ok s')
    (hleft : Left bytes hdr s'.table) : Left bytes hdr s.table := by
  unfold writeEntry at h
  split at h
  · obtain ⟨-, rfl⟩ := keepEntry_eq h
    exact ⟨Nat.le_trans hleft.1 (Nat.sub_le _ _), hleft.2⟩
  · unfold writeFde at h
    obtain ⟨target, -, h⟩ := bind_ok_iff.mp h
    cases target with
    | none =>
      rw [← Except.ok.inj h] at hleft
      exact hleft
    | some target =>
      obtain ⟨inputPos, -, h⟩ := bind_ok_iff.mp h
      obtain ⟨table, htable, h⟩ := bind_ok_iff.mp h
      obtain ⟨cieOffset, -, h⟩ := bind_ok_iff.mp h
      obtain ⟨hehFrame, hehFrameHdr, -, -⟩ := writeHdrEntry_eq htable
      obtain ⟨-, rfl⟩ := keepEntry_eq h
      have h₁ := hleft.1
      have h₂ := hleft.2
      simp only at h₁ h₂
      constructor
      · omega
      · omega

variable {remaining : Nat}

theorem writeRemaining_left {s : WriteState} {tw : TableWriter}
    (h : writeRemaining remaining s = .ok tw) (hleft : Left bytes hdr tw) :
    Left bytes hdr s.table := by
  obtain ⟨hehFrame, hehFrameHdr, -⟩ := writeRemaining_eq h
  obtain ⟨hbytes, hhdr⟩ := hleft
  constructor
  · omega
  · omega

theorem writeRemaining_sim
    (h : writeRemaining remaining s₁ = .ok tw₁) (hleft : Left bytes hdr tw₁)
    (hfollows : StateFollows bytes hdr s₁ s₂) :
    ∃ tw₂, writeRemaining remaining s₂ = .ok tw₂ ∧ Follows bytes hdr tw₁ tw₂ := by
  unfold writeRemaining at h ⊢
  split at h
  · next hpos =>
    obtain ⟨table₁, htable₁, h⟩ := bind_ok_iff.mp h
    have htw₁ := Except.ok.inj h
    have hleft' : Left bytes hdr table₁ := by
      rw [← htw₁] at hleft
      exact hleft
    obtain ⟨table₂, htable₂, htable⟩ := takeEhFrameData_sim htable₁ hleft' hfollows.table
    rw [if_pos hpos]
    refine ⟨_, bind_ok_iff.mpr ⟨table₂, htable₂, rfl⟩, ?_⟩
    rw [← htw₁]
    refine ⟨?_, htable.hdrEntries, htable.written, htable.ehFrame, htable.ehFrameHdr⟩
    simp only [htable.start, hfollows.outputPos]
  · next hzero =>
    rw [if_neg hzero, ← Except.ok.inj h]
    refine ⟨_, rfl, ?_, hfollows.table.hdrEntries, hfollows.table.written, hfollows.table.ehFrame,
      hfollows.table.ehFrameHdr⟩
    simp only [hfollows.table.start, hfollows.outputPos]

variable {rels : List Rel}

/-- A section takes, it does not give back. -/
theorem writeEhFrameRelocations_left {tw tw' : TableWriter}
    (h : writeEhFrameRelocations env i data rels tw = .ok tw') (hleft : Left bytes hdr tw') :
    Left bytes hdr tw := by
  unfold writeEhFrameRelocations at h
  obtain ⟨⟨inputPos, s⟩, hwalk, h⟩ := bind_ok_iff.mp h
  have hfold := ((walk_eq_ok_iff _ _ _ _ _ _).mp hwalk).1
  exact foldlM_back (fun s r => writeEntry env i data r s) (B := fun s : WriteState => Left bytes hdr s.table)
    (fun s s' r _ hstep => writeEntry_left hstep) hfold (writeRemaining_left h hleft)

theorem writeEhFrameRelocations_sim
    (h : writeEhFrameRelocations env i data rels tw₁ = .ok tw₁') (hleft : Left bytes hdr tw₁')
    (hfollows : Follows bytes hdr tw₁ tw₂) :
    ∃ tw₂', writeEhFrameRelocations env i data rels tw₂ = .ok tw₂' ∧
      Follows bytes hdr tw₁' tw₂' := by
  unfold writeEhFrameRelocations at h ⊢
  obtain ⟨⟨inputPos, s₁⟩, hwalk, h⟩ := bind_ok_iff.mp h
  obtain ⟨hfold, hend⟩ := (walk_eq_ok_iff _ _ _ _ _ _).mp hwalk
  have hfirst : StateFollows bytes hdr ⟨rels, 0, [], tw₁⟩ ⟨rels, 0, [], tw₂⟩ :=
    ⟨rfl, rfl, rfl, hfollows⟩
  obtain ⟨s₂, hfold₂, hs₂⟩ := foldlM_sim (fun s r => writeEntry env i data r s)
    (fun s r => writeEntry env i data r s) (B := fun s : WriteState => Left bytes hdr s.table)
    (fun s s' r _ hstep => writeEntry_left hstep)
    (fun s s' t r _ hstep hleft hR => writeEntry_sim hstep hleft hR)
    hfold (writeRemaining_left h hleft) hfirst
  obtain ⟨tw₂', htw₂', hfollows'⟩ := writeRemaining_sim h hleft hs₂
  have hwalk₂ := (walk_eq_ok_iff WriteError.invalidEhFrame _ _ _ _ _).mpr ⟨hfold₂, hend⟩
  exact ⟨tw₂', bind_ok_iff.mpr ⟨(inputPos, s₂), hwalk₂, htw₂'⟩, hfollows'⟩

/-- **A run goes through with other buffers**, if they have room for what it takes. -/
theorem writeObject_sim (h : writeObject env tw₁ = .ok tw₁')
    (hfollows : Follows tw₁'.ehFrame tw₁'.ehFrameHdr tw₁ tw₂) :
    ∃ tw₂', writeObject env tw₂ = .ok tw₂' := by
  let body := fun tw i => writeEhFrameRelocations env i (env.file.data i)
    (env.file.relocations i).rels tw
  obtain ⟨tw₂', htw₂', -⟩ := foldlM_sim body body (B := Left tw₁'.ehFrame tw₁'.ehFrameHdr)
    (fun s s' i _ hstep => writeEhFrameRelocations_left hstep)
    (fun s s' t i _ hstep hleft hR => writeEhFrameRelocations_sim hstep hleft hR)
    h ⟨Nat.le_refl _, Nat.le_refl _⟩ hfollows
  exact ⟨tw₂', htw₂'⟩

end

/-! ## 2. Agreement -/

/-- A section that is loaded. -/
def Loaded (slots : List SectionSlot) (j : Nat) : Prop :=
  ∃ size, slots[j]? = some (.loaded size) ∨ slots[j]? = some (.loadedDebugInfo size)

/-- The buffers of a group, and where the object's part of `.eh_frame` starts. -/
def tableWriter (ehFrame ehFrameHdr start : Nat) : TableWriter := ⟨ehFrame, ehFrameHdr, start, [], []⟩

/-- There is room for what was allocated.  A group has a part of `.eh_frame_hdr` only if there is a
table. -/
structure Room (shouldWriteEhFrameHdr : Bool) (object : ObjectLayoutState) (tw : TableWriter) :
    Prop where
  ehFrame : object.ehFrameSize ≤ tw.ehFrame
  ehFrameHdr : if shouldWriteEhFrameHdr then object.ehFrameHdr ≤ tw.ehFrameHdr
    else tw.ehFrameHdr = 0

/-- What layout and writer agree on, for a run of the writer. -/
structure Agrees (file : File) (object : ObjectLayoutState) (tw tw' : TableWriter) : Prop where
  ehFrame : tw.ehFrame = tw'.ehFrame + object.ehFrameSize
  ehFrameHdr : tw.ehFrameHdr = tw'.ehFrameHdr + object.ehFrameHdr
  loaded : ∀ w ∈ tw'.written, ∀ j, w.targetSectionIndex = some j → Loaded object.sections j
  pointers : ∀ w ∈ tw'.written, w.targetSectionIndex ≠ none →
    PointsToCie (file.data w.ehFrameSectionIndex) tw'.written w

/-- The writer accepts the `.eh_frame` sections of the object: with enough room it comes to the
end. -/
def Accepts (shouldWriteEhFrameHdr : Bool) (env : WriterEnv) (start : Nat) : Prop :=
  ∃ ehFrame ehFrameHdr tw', writeObject env (tableWriter ehFrame ehFrameHdr start) = .ok tw' ∧
    if shouldWriteEhFrameHdr then 0 < tw'.ehFrameHdr else ehFrameHdr = 0

section

variable (env : WriterEnv)

/-- The FDEs that the layout counts and the writer drops. -/
def onlyCounted : List Fde :=
  (objectFdes env.file env.sections).filter fun fde =>
    fde.counted env.file env.sections && !fde.kept env

/-- The FDEs that the writer keeps and the layout does not count. -/
def onlyKept : List Fde :=
  (objectFdes env.file env.sections).filter fun fde =>
    fde.kept env && !fde.counted env.file env.sections

def countedAndKept : List Fde :=
  (objectFdes env.file env.sections).filter fun fde =>
    fde.counted env.file env.sections && fde.kept env

/-- The FDEs on which the two differ cancel out, and no FDE is for a section with frame data. -/
structure Balanced (shouldWriteEhFrameHdr : Bool) : Prop where
  /-- An FDE that both see counts where its size does not fit 32 bits. -/
  bytes : ((onlyCounted env).map frameSize).sum = keptSizes (onlyKept env)
    + ((countedAndKept env).map fun fde => fde.record.size - fde.frameSize).sum
  number : shouldWriteEhFrameHdr = true → (onlyCounted env).length = (onlyKept env).length
  frameData : ∀ fde ∈ objectFdes env.file env.sections, fde.kept env = true →
    ∀ j k, writerSection env.file (fde.rels env.file) fde.record = some j →
      env.sections[j]? ≠ some (.frameData k)

end

theorem sum_filter_split {α : Type} (p q : α → Bool) (f : α → Nat) (l : List α) :
    ((l.filter p).map f).sum
      = ((l.filter fun a => p a && !q a).map f).sum + ((l.filter fun a => p a && q a).map f).sum := by
  have hperm := (filter_append_perm q (l.filter p)).map f
  rw [List.filter_filter, List.filter_filter, map_append] at hperm
  rw [← hperm.sum_eq, sum_append, Nat.add_comm]
  congr 3
  · exact filter_congr fun a _ => Bool.and_comm _ _
  · exact filter_congr fun a _ => Bool.and_comm _ _

theorem length_filter_split {α : Type} (p q : α → Bool) (l : List α) :
    (l.filter p).length
      = (l.filter fun a => p a && !q a).length + (l.filter fun a => p a && q a).length := by
  have hsum := sum_filter_split p q (fun _ => 1) l
  simpa using hsum

theorem keptSizes_eq (fdes : List Fde) :
    keptSizes fdes = (fdes.map frameSize).sum
      + (fdes.map fun fde => fde.record.size - fde.frameSize).sum := by
  unfold keptSizes
  induction fdes with
  | nil => rfl
  | cons fde fdes ih =>
    have hle : fde.frameSize ≤ fde.record.size := Nat.mod_le _ _
    rw [map_cons, map_cons, map_cons, sum_cons, sum_cons, sum_cons,
      ih]
    omega

section

variable {env : WriterEnv}

/-- The FDEs that are counted take as much as the ones that are kept. -/
theorem sizes_eq_iff :
    (((objectFdes env.file env.sections).filter
        (counted env.file env.sections)).map frameSize).sum
        = keptSizes ((objectFdes env.file env.sections).filter (kept env)) ↔
      ((onlyCounted env).map frameSize).sum = keptSizes (onlyKept env)
        + ((countedAndKept env).map fun fde => fde.record.size - fde.frameSize).sum := by
  have hcounted := sum_filter_split (counted env.file env.sections) (kept env)
    frameSize (objectFdes env.file env.sections)
  have hkept := sum_filter_split (kept env) (counted env.file env.sections)
    (fun fde => fde.record.size) (objectFdes env.file env.sections)
  have hboth : ((objectFdes env.file env.sections).filter fun fde =>
      fde.kept env && fde.counted env.file env.sections) = countedAndKept env :=
    filter_congr fun fde _ => Bool.and_comm _ _
  have hsizes := keptSizes_eq (countedAndKept env)
  rw [hboth] at hkept
  unfold keptSizes at hsizes ⊢
  unfold onlyCounted onlyKept
  unfold countedAndKept at hkept hsizes ⊢
  omega

theorem number_eq_iff :
    ((objectFdes env.file env.sections).filter (counted env.file env.sections)).length
        = ((objectFdes env.file env.sections).filter (kept env)).length ↔
      (onlyCounted env).length = (onlyKept env).length := by
  have hcounted := length_filter_split (counted env.file env.sections) (kept env)
    (objectFdes env.file env.sections)
  have hkept := length_filter_split (kept env) (counted env.file env.sections)
    (objectFdes env.file env.sections)
  have hboth : ((objectFdes env.file env.sections).filter fun fde =>
      fde.kept env && fde.counted env.file env.sections) = countedAndKept env :=
    filter_congr fun fde _ => Bool.and_comm _ _
  rw [hboth] at hkept
  unfold onlyCounted onlyKept
  unfold countedAndKept at hkept
  omega

/-- An object is balanced where layout and writer see the same FDEs, and the sizes fit 32 bits. -/
theorem balanced_of_forall {shouldWriteEhFrameHdr : Bool}
    (h : ∀ fde ∈ objectFdes env.file env.sections,
      fde.counted env.file env.sections = fde.kept env ∧ fde.record.size < 2 ^ 32 ∧
      (fde.kept env = true → ∀ j k, writerSection env.file (fde.rels env.file) fde.record = some j →
        env.sections[j]? ≠ some (.frameData k))) :
    Balanced env shouldWriteEhFrameHdr := by
  have hcounted : onlyCounted env = [] :=
    filter_eq_nil_iff.mpr fun fde hfde => by rw [(h fde hfde).1]; simp
  have hkept : onlyKept env = [] :=
    filter_eq_nil_iff.mpr fun fde hfde => by rw [(h fde hfde).1]; simp
  have hsizes : ((countedAndKept env).map fun fde => fde.record.size - fde.frameSize).sum = 0 := by
    refine sum_eq_zero fun x hx => ?_
    obtain ⟨fde, hfde, rfl⟩ := mem_map.mp hx
    rw [frameSize, Nat.mod_eq_of_lt (h fde (mem_of_mem_filter hfde)).2.1, Nat.sub_self]
  refine ⟨?_, fun _ => ?_, fun fde hfde => (h fde hfde).2.2⟩
  · rw [hcounted, hkept, hsizes]
    rfl
  · rw [hcounted, hkept]

/-- A section with an address is loaded or has frame data. -/
theorem slot_of_placed {j : Nat} (h : env.placed j = true) :
    Loaded env.sections j ∨ ∃ k, env.sections[j]? = some (.frameData k) := by
  unfold WriterEnv.placed WriterEnv.sectionAddress at h
  cases hslot : env.sections[j]? with
  | none => simp [hslot] at h
  | some slot =>
    cases slot with
    | loaded size => exact .inl ⟨size, .inl hslot⟩
    | loadedDebugInfo size => exact .inl ⟨size, .inr hslot⟩
    | frameData k => exact .inr ⟨k, rfl⟩
    | _ => simp [hslot] at h

/-- The section of an FDE that is kept. -/
theorem exists_writerSection {fde : Fde} (h : fde.kept env = true) :
    ∃ j, writerSection env.file (fde.rels env.file) fde.record = some j ∧ env.placed j = true := by
  unfold kept at h
  split at h
  · next j hj => exact ⟨j, hj, h⟩
  · cases h

theorem frameData_iff {log : List WrittenEntry}
    (hlog : ObjectLogged env (frameSections env.sections) log) :
    (∀ w ∈ log, ∀ j, w.targetSectionIndex = some j → Loaded env.sections j) ↔
      ∀ fde ∈ objectFdes env.file env.sections, fde.kept env = true →
        ∀ j k, writerSection env.file (fde.rels env.file) fde.record = some j →
          env.sections[j]? ≠ some (.frameData k) := by
  have hmem : ∀ fde, fde ∈ (frameSections env.sections).flatMap (keptFdes env) ↔
      fde ∈ objectFdes env.file env.sections ∧ fde.kept env = true := by
    intro fde
    rw [← filter_flatMap_fdesOf, mem_filter, objectFdes]
  constructor
  · intro hloaded fde hfde hkept j k hj hslot
    obtain ⟨w, hw, htarget⟩ := hlog.kept fde ((hmem fde).mpr ⟨hfde, hkept⟩)
    rw [hj] at htarget
    obtain ⟨size, hslot' | hslot'⟩ := hloaded w hw j htarget
    · rw [hslot] at hslot'
      cases hslot'
    · rw [hslot] at hslot'
      cases hslot'
  · intro hframe w hw j hj
    obtain ⟨fde, hfde, hsection⟩ := hlog.targets w hw j hj
    obtain ⟨hfde, hkept⟩ := (hmem fde).mp hfde
    obtain ⟨j', hj', hplaced⟩ := exists_writerSection hkept
    rw [hsection] at hj'
    cases hj'
    rcases slot_of_placed hplaced with hloaded | ⟨k, hslot⟩
    · exact hloaded
    · exact absurd hslot (hframe fde hfde hkept j k hsection)

/-- **Layout and writer agree on an object exactly if it is balanced**: for every object whose
relocations are sorted, every set of loaded sections and all buffers of the group. -/
theorem eh_frame_agreement_iff {shouldWriteEhFrameHdr : Bool} {sections : List ResolvedSection}
    {requests : List Nat} {object : ObjectLayoutState} {start : Nat}
    (hsorted : SortedRelocations env.file (resolvedSlots sections))
    (hlayout : layout env.file shouldWriteEhFrameHdr sections requests = .ok object)
    (henv : env.sections = object.sections) (haccepts : Accepts shouldWriteEhFrameHdr env start) :
    (∀ ehFrame ehFrameHdr,
      Room shouldWriteEhFrameHdr object (tableWriter ehFrame ehFrameHdr start) →
      ∃ tw', writeObject env (tableWriter ehFrame ehFrameHdr start) = .ok tw' ∧
        Agrees env.file object (tableWriter ehFrame ehFrameHdr start) tw') ↔
      Balanced env shouldWriteEhFrameHdr := by
  obtain ⟨hframes, hsize, hhdr⟩ := layout_spec hsorted hlayout
  rw [← henv] at hframes hsize hhdr
  have hsorted' : SortedRelocations env.file env.sections := by
    intro i hi
    rw [hframes] at hi
    exact hsorted i hi
  constructor
  · intro hagree
    -- buffers that have room for what the writer takes, too
    obtain ⟨tw', hrun, hagrees⟩ := hagree object.ehFrameSize
      (if shouldWriteEhFrameHdr then object.ehFrameHdr + ehFrameHdrEntrySize *
        ((objectFdes env.file env.sections).filter (kept env)).length else 0)
      ⟨Nat.le_refl _, by cases shouldWriteEhFrameHdr <;> simp [tableWriter]⟩
    obtain ⟨log, hconsumed, hlog⟩ := writeObject_spec hsorted' hrun
    have hwritten : tw'.written = log := hconsumed.written
    refine ⟨sizes_eq_iff.mp ?_, fun hflag => number_eq_iff.mp ?_, (frameData_iff hlog).mp ?_⟩
    · have h₁ := hagrees.ehFrame
      have h₂ := hconsumed.ehFrame
      omega
    · have h₁ := hagrees.ehFrameHdr
      have h₂ := hconsumed.ehFrameHdr
      rw [hflag] at h₁ h₂ hhdr
      simp only [tableWriter, if_true, ehFrameHdrEntrySize] at h₁ h₂ hhdr
      omega
    · rw [← hwritten, henv]
      exact hagrees.loaded
  · intro hbalanced ehFrame ehFrameHdr hroom
    have hsizes := sizes_eq_iff.mpr hbalanced.bytes
    obtain ⟨ehFrame₁, ehFrameHdr₁, tw₁', hrun₁, hrest⟩ := haccepts
    obtain ⟨log₁, hconsumed₁, -⟩ := writeObject_spec hsorted' hrun₁
    have h₁ := hconsumed₁.ehFrame
    have h₂ := hconsumed₁.ehFrameHdr
    simp only [tableWriter] at h₁ h₂
    have hehFrame := hroom.ehFrame
    have hehFrameHdr := hroom.ehFrameHdr
    simp only [tableWriter] at hehFrame hehFrameHdr
    -- the accepted run goes through with these buffers
    have hfollows : Follows tw₁'.ehFrame tw₁'.ehFrameHdr (tableWriter ehFrame₁ ehFrameHdr₁ start)
        (tableWriter ehFrame ehFrameHdr start) := by
      refine ⟨rfl, rfl, rfl, ?_, ?_⟩
      · simp only [tableWriter]
        omega
      · simp only [tableWriter]
        cases hflag : shouldWriteEhFrameHdr with
        | false =>
          rw [hflag] at hrest hehFrameHdr
          simp only [Bool.false_eq_true, if_false] at hrest hehFrameHdr
          exact .inl ⟨hrest, hehFrameHdr⟩
        | true =>
          have hnumber := number_eq_iff.mpr (hbalanced.number hflag)
          rw [hflag] at hrest hehFrameHdr hhdr
          simp only [if_true] at hrest hehFrameHdr hhdr
          rw [hnumber] at hhdr
          refine .inr ⟨hrest, ?_⟩
          omega
    obtain ⟨tw', hrun⟩ := writeObject_sim hrun₁ hfollows
    obtain ⟨log, hconsumed, hlog⟩ := writeObject_spec hsorted' hrun
    have hwritten : tw'.written = log := hconsumed.written
    refine ⟨tw', hrun, ?_, ?_, ?_, ?_⟩
    · rw [hconsumed.ehFrame, hsize, hsizes]
    · have h₃ := hconsumed.ehFrameHdr
      simp only [tableWriter] at h₃ ⊢
      cases hflag : shouldWriteEhFrameHdr with
      | false =>
        rw [hflag] at hehFrameHdr hhdr
        simp only [Bool.false_eq_true, if_false] at hehFrameHdr hhdr
        omega
      | true =>
        have hnumber := number_eq_iff.mpr (hbalanced.number hflag)
        rw [hflag] at hehFrameHdr hhdr
        simp only [if_true] at hehFrameHdr hhdr
        rw [hnumber] at hhdr
        omega
    · rw [hwritten, ← henv]
      exact (frameData_iff hlog).mpr hbalanced.frameData
    · rw [hwritten]
      exact hlog.pointers

end

/-! ## 3. Two objects -/

/-- A CIE of 20 bytes and an FDE of 20 bytes, as assemblers for RISC-V write them. -/
def exampleData : Bytes :=
  [16, 0, 0, 0, 0, 0, 0, 0, 3, 0x7a, 0x52, 0, 1, 0x7c, 1, 1, 0x1b, 0x0d, 2, 0,
   16, 0, 0, 0, 24, 0, 0, 0, 0, 0, 0, 0, 0, 0, 0, 0, 0, 0, 0, 0]

/-- Section 0 is a function of four bytes and section 1 is `.eh_frame`; symbol 0 is the function and
symbol 1 a label at `pc_begin`. -/
def exampleFile (rels : List Rel) : File where
  sectionHeader := fun i => if i = 0 then some ⟨4, none⟩ else some ⟨40, none⟩
  symbol := fun i => if i = 0 then some ⟨0, some 0⟩ else some ⟨28, some 1⟩
  data := fun _ => exampleData
  relocations := fun _ => ⟨false, rels⟩

def exampleSections : List ResolvedSection := [.unloaded, .frameData]

def exampleEnv (rels : List Rel) : WriterEnv where
  file := exampleFile rels
  sections := [.loaded 4, .frameData 1]
  address := fun i => if i = 0 then 0x1000 else 0x2000
  sectionRelaxDeltas := fun _ => none
  ehFrameHdrAddress := 0x3000

/-- `.word f - .`, as one PC-relative relocation. -/
def pcRelative : List Rel := [⟨28, some 0, 0⟩]

/-- `.word f - .`, as an addition (`R_RISCV_ADD32`) and a subtraction (`R_RISCV_SUB32`). -/
def difference : List Rel := [⟨28, some 0, 0⟩, ⟨28, some 1, 0⟩]

/-- What is allocated if the function is loaded. -/
def exampleObject (frames : List ExceptionFrame) (ehFrameSize ehFrameHdr : Nat) :
    ObjectLayoutState :=
  ⟨[.loaded 4, .frameData 1], [⟨0, exampleData.take 20⟩], ⟨false, frames⟩, ehFrameSize, ehFrameHdr⟩

/-- The writer keeps the FDE in either case. -/
theorem accepts_example {rels : List Rel} (hrels : rels = pcRelative ∨ rels = difference) :
    Accepts true (exampleEnv rels) 0x2000 := by
  have hrun : writeObject (exampleEnv rels) (tableWriter 40 16 0x2000) = .ok
      ⟨0, 8, 0x2028, [⟨-0x2000, -0xfec⟩], [
        ⟨1, 0, 0x2000, exampleData.take 20, none⟩,
        ⟨1, 20, 0x2014, exampleData.drop 20, some 0⟩]⟩ := by
    rcases hrels with rfl | rfl
    · decide +kernel
    · decide +kernel
  exact ⟨40, 16, _, hrun, Nat.succ_pos 7⟩

/-- One relocation at `pc_begin`: 40 bytes and one entry of the table, on both sides. -/
theorem single_relocation_agrees : Balanced (exampleEnv pcRelative) true ∧
    ∃ tw', writeObject (exampleEnv pcRelative) (tableWriter 40 16 0x2000) = .ok tw' ∧
      Agrees (exampleFile pcRelative) (exampleObject [⟨20, none, 1⟩] 40 8)
        (tableWriter 40 16 0x2000) tw' := by
  have hsorted : SortedRelocations (exampleFile pcRelative) (resolvedSlots exampleSections) :=
    fun _ _ => pairwise_singleton _ _
  have hlayout : layout (exampleFile pcRelative) true exampleSections [0]
      = .ok (exampleObject [⟨20, none, 1⟩] 40 8) := by decide +kernel
  have hfdes : objectFdes (exampleFile pcRelative) [.loaded 4, .frameData 1]
      = [⟨1, ⟨20, 40⟩⟩] := by decide +kernel
  have hbalanced : Balanced (exampleEnv pcRelative) true := by
    refine balanced_of_forall fun fde hfde => ?_
    obtain rfl := mem_singleton.mp (hfdes ▸ hfde)
    refine ⟨by decide +kernel, by decide, fun _ j k hj => ?_⟩
    have hzero : writerSection (exampleFile pcRelative) pcRelative ⟨20, 40⟩ = some 0 := by
      decide +kernel
    cases hzero.symm.trans hj
    exact fun hslot => by cases hslot
  have hiff := @eh_frame_agreement_iff (exampleEnv pcRelative) true exampleSections [0]
    (exampleObject [⟨20, none, 1⟩] 40 8) 0x2000 hsorted hlayout rfl (accepts_example (.inl rfl))
  exact ⟨hbalanced, hiff.mpr hbalanced 40 16 ⟨Nat.le_refl 40, by decide⟩⟩

/-- **Two relocations at `pc_begin`**: the layout allocates 20 bytes, for the CIE, and a writer with
just that room fails. -/
theorem difference_at_pc_begin :
    SortedRelocations (exampleFile difference) (resolvedSlots exampleSections) ∧
      layout (exampleFile difference) true exampleSections [0] = .ok (exampleObject [] 20 0) ∧
      Accepts true (exampleEnv difference) 0x2000 ∧
      writeObject (exampleEnv difference) (tableWriter 20 0 0x2000)
        = .error .insufficientAllocation ∧
      ¬ ∀ ehFrame ehFrameHdr, Room true (exampleObject [] 20 0)
          (tableWriter ehFrame ehFrameHdr 0x2000) →
        ∃ tw', writeObject (exampleEnv difference) (tableWriter ehFrame ehFrameHdr 0x2000)
            = .ok tw' ∧
          Agrees (exampleFile difference) (exampleObject [] 20 0)
            (tableWriter ehFrame ehFrameHdr 0x2000) tw' := by
  have hfails : writeObject (exampleEnv difference) (tableWriter 20 0 0x2000)
      = .error .insufficientAllocation := by decide +kernel
  refine ⟨fun _ _ => pairwise_pair.mpr (Nat.le_refl 28), by decide +kernel,
    accepts_example (.inr rfl), hfails, fun hagree => ?_⟩
  obtain ⟨tw', hrun, -⟩ := hagree 20 0 ⟨Nat.le_refl 20, Nat.le_refl 0⟩
  rw [hfails] at hrun
  cases hrun

end Srs.EhFrame
