/-
# The record store, against what it stores

Abstractly the store is a set of records, and a write of overrides replaces all records of the
changed inputs (`Overlay.override`).  This file connects the files of `Store.lean` to that set:

* a full read returns the latest records (`readAllRecords_spec`), because the base and the
  override file together are an overlay and an override of an overlay is one again
  (`Overlay.override_overlay`);
* a filtered read returns the part of them it was asked for (`readRecordsForInputFiles_spec`),
  because the locations of the wanted files deliver a `PartialRead` of the base.

Two invariants carry the run.  `Indexed` says what the locations of the base read; it is
established once, by the writer, and kept by every later write since no file that exists is
ever changed.  `Overridden` says what the override file holds.  The texts of all records have
to fit the lines they are written to (`Record.Storable`).
-/
import Srs.Lib.Overlay
import Srs.Incremental.Store
import Srs.Incremental.RecordsFilter

namespace Srs.Incremental

open Text Bytes List RecordState RecordLists StateDir Overlay Sidecars

/-! ## 1. Membership in four lists -/

namespace RecordLists

variable {r : Record}

variable {lists : RecordLists}

theorem mem_all : r ∈ lists.all ↔
    match r with
    | .sectionRecord s => s ∈ lists.sections
    | .relocation s => s ∈ lists.relocations
    | .fde s => s ∈ lists.fdes
    | .dynamicRelocation s => s ∈ lists.dynamicRelocations := by
  cases r <;> simp [all]

@[simp] theorem mem_all_retain {keep : Record → Bool} :
    r ∈ (lists.retain keep).all ↔ r ∈ lists.all ∧ keep r = true := by
  cases r <;> simp [mem_all, retain]

@[simp] theorem mem_all_ownedBy {keep : Text → Bool} :
    r ∈ (lists.ownedBy keep).all ↔ r ∈ lists.all ∧ keep r.inputFile = true :=
  mem_all_retain

@[simp] theorem mem_all_extend {lists more : RecordLists} :
    r ∈ (lists.extend more).all ↔ r ∈ lists.all ∨ r ∈ more.all := by
  cases r <;> simp [mem_all, extend]

@[simp] theorem mem_all_sorted :
    r ∈ lists.sorted.all ↔ r ∈ lists.all := by
  cases r <;> simp [mem_all, sorted]

@[simp] theorem mem_all_sortDedup :
    r ∈ lists.sortDedup.all ↔ r ∈ lists.all := by
  cases r <;> simp [mem_all, sortDedup]

@[simp] theorem all_empty : ({} : RecordLists).all = [] := rfl

theorem mem_all_foldl_extend : ∀ (blocks : List CompactRecords)
    (lists : RecordLists),
    r ∈ (blocks.foldl (fun (lists : RecordLists) block => lists.extend block.toRecordLists)
      lists).all ↔ r ∈ lists.all ∨ ∃ block ∈ blocks, r ∈ block.all
  | [], lists => by simp
  | block :: blocks, lists => by
    rw [foldl_cons, mem_all_foldl_extend blocks, mem_all_extend]
    simp [or_assoc]

end RecordLists

/-! ## 2. Records that can be stored -/

/-- A record whose texts fit the lines they are written to. -/
def Record.Storable : Record → Prop
  | .sectionRecord r => r.Plain ∧ EndsPlain r.input
  | .relocation r => r.Plain ∧ EndsPlain r.input ∧ ∀ t ∈ r.target, EndsPlain t.input
  | .fde r => r.Plain ∧ EndsPlain r.input
  | .dynamicRelocation r => (r.Plain ∧ r.OutputPaired) ∧ EndsPlain r.input

instance (t : Text) : Decidable (EndsPlain t) := inferInstanceAs (Decidable (_ ≠ _))

instance : ∀ r : Record, Decidable r.Storable
  | .sectionRecord _ => inferInstanceAs (Decidable (_ ∧ _))
  | .relocation _ => inferInstanceAs (Decidable (_ ∧ _))
  | .fde _ => inferInstanceAs (Decidable (_ ∧ _))
  | .dynamicRelocation _ => inferInstanceAs (Decidable (_ ∧ _))

def MachOSymbolResolutionRecord.Storable (r : MachOSymbolResolutionRecord) : Prop :=
  r.Plain ∧ ∀ t ∈ r.target, EndsPlain t.input

instance (r : MachOSymbolResolutionRecord) : Decidable r.Storable :=
  inferInstanceAs (Decidable (_ ∧ _))

/-- Four lists of records that can be stored. -/
def RecordLists.Storable (lists : RecordLists) : Prop := ∀ r ∈ lists.all, r.Storable

namespace RecordLists

variable {lists : RecordLists}

theorem Storable.plain (h : lists.Storable) : PlainRecords lists.sections lists.relocations
    lists.fdes lists.dynamicRelocations where
  sections r hr := (h (.sectionRecord r) (mem_all.mpr hr)).1
  relocations r hr := (h (.relocation r) (mem_all.mpr hr)).1
  fdes r hr := (h (.fde r) (mem_all.mpr hr)).1
  dynamicRelocations r hr := (h (.dynamicRelocation r) (mem_all.mpr hr)).1

theorem Storable.endsPlain (h : lists.Storable) {key : InputKey}
    (hk : key ∈ recordKeys lists.sections lists.relocations lists.fdes
      lists.dynamicRelocations) : EndsPlain key.2 := by
  simp only [recordKeys, mem_append, List.mem_map, mem_flatMap] at hk
  rcases hk with ((⟨r, hr, rfl⟩ | ⟨r, hr, hk⟩) | ⟨r, hr, rfl⟩) | ⟨r, hr, rfl⟩
  · exact (h (.sectionRecord r) (mem_all.mpr hr)).2
  · obtain ⟨-, hinput, htarget⟩ := h (.relocation r) (mem_all.mpr hr)
    simp only [RelocationRecord.keys, mem_cons, Option.mem_toList,
      Option.map_eq_some_iff] at hk
    rcases hk with rfl | ⟨t, ht, rfl⟩
    · exact hinput
    · exact htarget t ht
  · exact (h (.fde r) (mem_all.mpr hr)).2
  · exact (h (.dynamicRelocation r) (mem_all.mpr hr)).2

/-- Storability is a property of the records, not of their order or number. -/
theorem Storable.of_subset {other : RecordLists} (h : lists.Storable)
    (hsub : ∀ r ∈ other.all, r ∈ lists.all) : other.Storable :=
  fun r hr => h r (hsub r hr)

end RecordLists

theorem endsPlain_resolutionKeys {resolutions : List MachOSymbolResolutionRecord}
    (h : ∀ r ∈ resolutions, r.Storable) {key : InputKey}
    (hk : key ∈ machoResolutionKeys resolutions) : EndsPlain key.2 := by
  simp only [machoResolutionKeys, mem_flatMap, Option.mem_toList,
    Option.map_eq_some_iff] at hk
  obtain ⟨r, hr, t, ht, rfl⟩ := hk
  exact (h r hr).2 t ht

/-- **The text of a block reads back**, with or without a resolution table. -/
theorem parseCompactRecordsBlock_text {lists : RecordLists} (h : lists.Storable)
    (resolutions : Option (List MachOSymbolResolutionRecord))
    (hres : ∀ rs ∈ resolutions, ∀ r ∈ rs, r.Storable) :
    parseCompactRecordsBlock (lines (unlines (lists.blockLines ++ resolutionLines resolutions)))
      = .ok { toRecordLists := lists, machoSymbolResolutions := resolutions.getD []
              machoSymbolResolutionsComplete := resolutions.isSome } := by
  have hplain : ∀ rs ∈ resolutions, ∀ r ∈ rs, r.Plain := fun rs hrs r hr => (hres rs hrs r hr).1
  rw [blockLines, lines_unlines_write h.plain hplain]
  · exact parseCompactRecordsBlock_write h.plain hplain
  · intro key hk
    rcases mem_append.mp hk with hk | hk
    · exact h.endsPlain hk
    · cases resolutions with
      | none => simp [optionalResolutionKeys, machoResolutionKeys] at hk
      | some rs => exact endsPlain_resolutionKeys (hres rs rfl) hk

theorem parseMachoSymbolResolutions_text {resolutions : List MachOSymbolResolutionRecord}
    (h : ∀ r ∈ resolutions, r.Storable) :
    parseMachoSymbolResolutions
        (lines (unlines (writeRenderedMachoSymbolResolutionRefs resolutions)))
      = .ok resolutions := by
  have hplain : ∀ r ∈ resolutions, r.Plain := fun r hr => (h r hr).1
  rw [lines_unlines (isLine_machoResolution hplain fun key hk => endsPlain_resolutionKeys h hk)]
  exact parseMachoSymbolResolutions_write hplain

/-! ## 3. Files named after their contents -/

section Files

variable {env : Sidecars} {dir : StateDir}

/-- The compressed sidecars of a directory have the digest of their contents in their names. -/
def Consistent (env : Sidecars) (dir : StateDir) : Prop :=
  ∀ contents other,
    (dir.files (env.compressedSectionSidecarFileName contents) = some other →
      other = contents) ∧
    (dir.files (env.compressedMachoResolutionsSidecarFileName contents) = some other →
      other = contents)

/-- `later` has all the files of `dir`, unchanged. -/
structure Extends (dir later : StateDir) : Prop where
  path : later.path = dir.path
  files : ∀ fileName contents, dir.files fileName = some contents →
    later.files fileName = some contents

theorem Extends.refl (dir : StateDir) : Extends dir dir := ⟨rfl, fun _ _ h => h⟩

theorem startsWith_append (pre t : Text) : startsWith (pre ++ t) pre = true := by
  simp [startsWith]

theorem compressedSectionSidecarFileName_injective (env : Sidecars) :
    Function.Injective env.compressedSectionSidecarFileName :=
  fun _ _ h => env.hashBytes_injective (append_cancel_left h)

theorem compressedMachoResolutionsSidecarFileName_injective (env : Sidecars) :
    Function.Injective env.compressedMachoResolutionsSidecarFileName :=
  fun _ _ h => env.hashBytes_injective (append_cancel_left h)

/-- The two kinds of sidecar never share a name. -/
theorem sectionName_ne_machoName (env : Sidecars) (a b : Bytes) :
    env.compressedSectionSidecarFileName a ≠ env.compressedMachoResolutionsSidecarFileName b := by
  intro h
  have hs : (env.compressedSectionSidecarFileName a).head? = some 's' := rfl
  have hm : (env.compressedMachoResolutionsSidecarFileName b).head? = some 'm' := rfl
  rw [h, hm] at hs
  exact absurd hs (by decide)

/-- A digest holds no slash, so neither does a name made of it. -/
theorem escapesDirectory_append_hash (env : Sidecars) {pre : Text}
    (h : escapesDirectory pre = false) (bytes : Bytes) :
    escapesDirectory (pre ++ env.hashBytes bytes) = false := by
  have hslash : '/' ∉ env.hashBytes bytes := fun hc =>
    absurd (env.hashBytes_isHex bytes _ hc) (by decide)
  have hback : '\\' ∉ env.hashBytes bytes := fun hc =>
    absurd (env.hashBytes_isHex bytes _ hc) (by decide)
  simp only [escapesDirectory, Bool.or_eq_false_iff, decide_eq_false_iff_not,
    mem_append, not_or] at h ⊢
  exact ⟨⟨h.1, hslash⟩, h.2, hback⟩

theorem validateSectionsFileName_compressed (env : Sidecars) (bytes : Bytes) :
    validateSectionsFileName (env.compressedSectionSidecarFileName bytes) = .ok () := by
  refine failIf_neg _ ?_
  rintro ⟨-, hpre | hescape⟩
  · exact hpre (.inr (startsWith_append _ _))
  · rw [compressedSectionSidecarFileName,
      escapesDirectory_append_hash env (by decide)] at hescape
    exact absurd hescape (by decide)

theorem validateMachoResolutionsFileName_compressed (env : Sidecars) (bytes : Bytes) :
    validateMachoResolutionsFileName (env.compressedMachoResolutionsSidecarFileName bytes)
      = .ok () := by
  refine failIf_neg _ ?_
  rintro (hpre | hescape)
  · exact hpre (startsWith_append _ _)
  · rw [compressedMachoResolutionsSidecarFileName,
      escapesDirectory_append_hash env (by decide)] at hescape
    exact absurd hescape (by decide)

/-- Reading a sections sidecar whose file is there. -/
theorem readSectionsSidecar_of_file {contents : Text}
    (h : dir.files (env.compressedSectionSidecarFileName (env.compress (utf8 contents)))
      = some (env.compress (utf8 contents))) :
    env.readSectionsSidecar dir
      (env.compressedSectionSidecarFileName (env.compress (utf8 contents))) = .ok contents := by
  have hpre : startsWith (env.compressedSectionSidecarFileName (env.compress (utf8 contents)))
      compressedSectionsFilePrefix = true := startsWith_append _ _
  simp only [readSectionsSidecar, validateSectionsFileName_compressed, ok_bind, hpre,
    if_true, StateDir.read, h, context_some, env.decompress_compress, fromUtf8_utf8]
  rw [failIf_neg _ (by simp), ok_bind]

variable {resolutions : List MachOSymbolResolutionRecord}

theorem readMachoResolutionsSidecar_of_file (hres : ∀ r ∈ resolutions, r.Storable) {bytes : Bytes}
    (hbytes : bytes = env.compress
      (utf8 (unlines (writeRenderedMachoSymbolResolutionRefs resolutions))))
    (h : dir.files (env.compressedMachoResolutionsSidecarFileName bytes) = some bytes) :
    env.readMachoResolutionsSidecar dir (env.compressedMachoResolutionsSidecarFileName bytes)
      = .ok resolutions := by
  simp only [readMachoResolutionsSidecar, validateMachoResolutionsFileName_compressed,
    ok_bind, StateDir.read, h, context_some]
  rw [failIf_neg _ (by simp), ok_bind, hbytes, env.decompress_compress, context_some, ok_bind,
    fromUtf8_utf8, context_some, ok_bind]
  exact parseMachoSymbolResolutions_text hres

/-- Writing a file under a free name, or finding it there. -/
theorem extends_installNew (fileName : Text) (contents : Bytes) :
    Extends dir (installNew dir fileName contents) := by
  unfold installNew
  split
  · exact Extends.refl dir
  · rename_i hnone
    refine ⟨rfl, fun name other hother => ?_⟩
    have hne : name ≠ fileName := by
      rintro rfl
      simp [hother] at hnone
    rw [files_install_of_ne _ _ hne, hother]

variable {fileName : Text}

theorem files_installNew {contents : Bytes}
    (h : ∀ other, dir.files fileName = some other → other = contents) :
    (installNew dir fileName contents).files fileName = some contents := by
  unfold installNew
  split
  · rename_i hsome
    obtain ⟨other, hother⟩ := Option.isSome_iff_exists.mp hsome
    rw [hother, h other hother]
  · exact files_install_self _ _ _

section

variable (h : Consistent env dir)
include h

theorem Consistent.install_sections (contents : Bytes) :
    Consistent env (dir.install (env.compressedSectionSidecarFileName contents) contents) := by
  intro name other
  constructor
  · intro hfile
    by_cases hname : name = contents
    · subst hname
      rw [files_install_self] at hfile
      exact (Option.some.inj hfile).symm
    · have hne := fun e => hname (compressedSectionSidecarFileName_injective env e)
      rw [files_install_of_ne _ _ hne] at hfile
      exact (h name other).1 hfile
  · intro hfile
    have hne := (sectionName_ne_machoName env contents name).symm
    rw [files_install_of_ne _ _ hne] at hfile
    exact (h name other).2 hfile

theorem Consistent.install_macho (contents : Bytes) :
    Consistent env
      (dir.install (env.compressedMachoResolutionsSidecarFileName contents) contents) := by
  intro name other
  constructor
  · intro hfile
    rw [files_install_of_ne _ _ (sectionName_ne_machoName env name contents)] at hfile
    exact (h name other).1 hfile
  · intro hfile
    by_cases hname : name = contents
    · subst hname
      rw [files_install_self] at hfile
      exact (Option.some.inj hfile).symm
    · have hne := fun e => hname (compressedMachoResolutionsSidecarFileName_injective env e)
      rw [files_install_of_ne _ _ hne] at hfile
      exact (h name other).2 hfile

/-- Replacing a file by one of the same name changes nothing when names are digests. -/
theorem Consistent.extends_install (contents : Bytes) :
    Extends dir (dir.install (env.compressedSectionSidecarFileName contents) contents) := by
  refine ⟨rfl, fun name other hother => ?_⟩
  by_cases hname : name = env.compressedSectionSidecarFileName contents
  · subst hname
    rw [files_install_self, (h contents other).1 hother]
  · rw [files_install_of_ne _ _ hname, hother]

/-- **A sections sidecar that was written is read back**, and nothing else changes. -/
theorem writeCompressedSectionsSidecar_spec (contents : Text) :
    let written := env.writeCompressedSectionsSidecar dir contents
    Consistent env written.1 ∧ Extends dir written.1 ∧
      env.readSectionsSidecar written.1 written.2 = .ok contents := by
  intro written
  refine ⟨?_, extends_installNew _ _, ?_⟩
  · show Consistent env (installNew dir _ _)
    unfold installNew
    split
    · exact h
    · exact h.install_sections _
  · exact readSectionsSidecar_of_file (files_installNew fun other hother => (h _ other).1 hother)

theorem writeMachoResolutionsSidecar_spec
    (hres : ∀ r ∈ resolutions, r.Storable) :
    let written := env.writeMachoResolutionsSidecar dir resolutions
    Consistent env written.1 ∧ Extends dir written.1 ∧
      env.readMachoResolutionsSidecar written.1 written.2 = .ok resolutions := by
  intro written
  refine ⟨?_, extends_installNew _ _, ?_⟩
  · show Consistent env (installNew dir _ _)
    unfold installNew
    split
    · exact h
    · exact h.install_macho _
  · exact readMachoResolutionsSidecar_of_file hres rfl
      (files_installNew fun other hother => (h _ other).2 hother)

end

theorem Extends.readMachoResolutionsSidecar {later : StateDir} (h : Extends dir later) (hread : env.readMachoResolutionsSidecar dir fileName = .ok resolutions) :
    env.readMachoResolutionsSidecar later fileName = .ok resolutions := by
  have hdisplay : later.display = dir.display := by
    funext name
    simp [display, h.path]
  have hfile : later.files fileName = dir.files fileName := by
    cases hf : dir.files fileName with
    | some bytes => exact h.files _ _ hf
    | none =>
      exfalso
      simp only [Sidecars.readMachoResolutionsSidecar, StateDir.read, hf, context_none,
        error_bind, bind_eq_ok] at hread
      obtain ⟨_, -, hread⟩ := hread
      exact absurd hread (by simp)
  unfold Sidecars.readMachoResolutionsSidecar StateDir.read at hread ⊢
  rw [hdisplay, hfile]
  exact hread

end Files

/-! ## 4. What the locations of the base read -/

section Base

variable {env : Sidecars} {dir : StateDir}

variable {location : PatchRecordLocation} {resolutions : List MachOSymbolResolutionRecord}
  {r : Record} {ownLocations : List PatchRecordLocation}

/-- The blocks follow one another, so each location cuts out the block it was made for. -/
theorem placeBlocks_spec (env : Sidecars) :
    ∀ (blocks : List (Text × Bytes)) (before : Bytes),
      location ∈ placeBlocks env before.length blocks →
      ∃ block, (location.inputFile, block) ∈ blocks ∧ location.hash = env.hashBytes block ∧
        location.offset + location.len ≤ (before ++ blocks.flatMap Prod.snd).length ∧
        ((before ++ blocks.flatMap Prod.snd).drop location.offset).take location.len = block
  | [], before, h => by simp [placeBlocks] at h
  | (inputFile, block) :: blocks, before, h => by
    rw [placeBlocks, mem_cons] at h
    rcases h with rfl | h
    · refine ⟨block, by simp, rfl, ?_, ?_⟩
      · simp only [flatMap_cons, length_append]
        omega
      · simp
    · rw [← length_append] at h
      obtain ⟨found, hmem, hhash, hlen, hslice⟩ := placeBlocks_spec env blocks _ h
      have hfile : before ++ ((inputFile, block) :: blocks).flatMap Prod.snd
          = before ++ block ++ blocks.flatMap Prod.snd := by simp
      rw [hfile]
      exact ⟨found, mem_cons_of_mem _ hmem, hhash, hlen, hslice⟩

/-- Every block has a location. -/
theorem exists_mem_placeBlocks (env : Sidecars) {inputFile : Text} {block : Bytes} :
    ∀ (blocks : List (Text × Bytes)) (offset : Nat), (inputFile, block) ∈ blocks →
      ∃ location ∈ placeBlocks env offset blocks, location.inputFile = inputFile
  | (file, bytes) :: blocks, offset, h => by
    rcases mem_cons.mp h with h | h
    · refine ⟨_, mem_cons_self, ?_⟩
      exact (Prod.mk.inj h).1.symm
    · obtain ⟨location, hmem, hfile⟩ := exists_mem_placeBlocks env blocks (offset + bytes.length) h
      exact ⟨location, mem_cons_of_mem _ hmem, hfile⟩

/-- A location of the file delivers exactly the records of one owner. -/
def Reads (env : Sidecars) (dir : StateDir) (fileName : Text) (file : Bytes)
    (records : RecordLists) (location : PatchRecordLocation) (owner : Text) : Prop :=
  ∃ block, readLocation env dir fileName file location = .ok block ∧
    ∀ r, r ∈ block.all ↔ r ∈ records.all ∧ r.inputFile = owner

variable {records : RecordLists} {fileName : Text} {file : Bytes}

/-- What is read depends on the key of a location only. -/
theorem Reads.of_key
    {other : PatchRecordLocation} {owner : Text}
    (h : Reads env dir fileName file records location owner) (hkey : other.key = location.key) :
    Reads env dir fileName file records other owner := by
  obtain ⟨block, hblock, hmem⟩ := h
  refine ⟨block, ?_, hmem⟩
  simp only [PatchRecordLocation.key, LocationKey.mk.injEq] at hkey
  obtain ⟨hoffset, hlen, hhash⟩ := hkey
  rw [← hblock]
  simp only [readLocation, hoffset, hlen, hhash]

theorem storable_ownerResolutions (h : ∀ r ∈ resolutions, r.Storable)
    (inputFile : Text) : ∀ r ∈ sortDedup (ownerResolutions records resolutions inputFile),
      r.Storable := by
  intro r hr
  rw [mem_sortDedup, ownerResolutions, mem_append, mem_flatMap] at hr
  rcases hr with ⟨_, -, hr⟩ | hr
  · exact h r (mem_of_mem_filter hr)
  · exact h r (mem_of_mem_filter hr)

/-- The location of an owner's block reads the owner's records. -/
theorem reads_placeBlocks (dir : StateDir) (hrec : records.Storable)
    (hres : ∀ r ∈ resolutions, r.Storable)
    (h : location ∈ placeBlocks env 0 (ownerBlocks env records resolutions)) :
    let contents := (ownerBlocks env records resolutions).flatMap Prod.snd
    Reads env dir (env.compressedSectionSidecarFileName contents) contents records location
      location.inputFile := by
  intro contents
  obtain ⟨block, hmem, hhash, hlen, hslice⟩ := placeBlocks_spec env _ [] h
  rw [nil_append] at hlen hslice
  rw [ownerBlocks, List.mem_map] at hmem
  obtain ⟨owner, -, howner⟩ := hmem
  cases howner
  have hstorable : (ownerRecords records location.inputFile).sorted.Storable :=
    hrec.of_subset fun r hr => by
      rw [mem_all_sorted, ownerRecords, mem_all_ownedBy] at hr
      exact hr.1
  set found := sortDedup (ownerResolutions records resolutions location.inputFile) with hfound
  have hparse := parseCompactRecordsBlock_text hstorable (some found) (by
    rintro rs hrs
    cases hrs
    exact storable_ownerResolutions hres _)
  refine ⟨{ toRecordLists := (ownerRecords records location.inputFile).sorted
            machoSymbolResolutions := found, machoSymbolResolutionsComplete := true }, ?_, ?_⟩
  · have hpre : startsWith (env.compressedSectionSidecarFileName contents)
        compressedSectionsFilePrefix = true := startsWith_append _ _
    simp only [readLocation]
    rw [failIf_neg _ (Nat.not_lt.mpr hlen), ok_bind, hslice, hhash,
      failIf_neg _ (by simp), ok_bind, if_pos hpre, env.decompress_compress, context_some,
      ok_bind, fromUtf8_utf8, context_some, ok_bind]
    exact hparse
  · intro r
    simp [ownerRecords]

/-- The file of the base, and what the locations of the state read from it. -/
structure Indexed (env : Sidecars) (dir : StateDir) (state : RecordState)
    (records : RecordLists) (fileName : Text) (file : Bytes) : Prop where
  sectionsFile : state.sectionsFile = some fileName
  patchRecordsFile : state.patchRecordsFile = some fileName
  valid : validateSectionsFileName fileName = .ok ()
  installed : dir.files fileName = some file
  parsed : state.rawPatchRecordLocations = none
  /-- Every location reads the records of one owner. -/
  reads : ∀ location ∈ state.patchRecordLocations, ∃ owner,
    Reads env dir fileName file records location owner
  /-- Every record is found under its owner. -/
  own : ∀ r ∈ records.all, ∃ location ∈ state.patchRecordLocations,
    location.inputFile = r.inputFile ∧ Reads env dir fileName file records location r.inputFile
  /-- Every relocation is found under the file it points into. -/
  incoming : ∀ r ∈ records.all, ∀ target, r.targetFile = some target →
    ∃ location ∈ state.patchRecordLocations,
      location.inputFile = target ∧ Reads env dir fileName file records location r.inputFile
  /-- The table of locations can be written as text and read back. -/
  plain : ∀ location ∈ state.patchRecordLocations,
    PlainText location.inputFile ∧ ∀ c ∈ location.hash, IsHex c
  /-- The resolution sidecar can be read when it is needed. -/
  resolutions : ∀ name ∈ state.machoSymbolResolutionsFile,
    ∃ resolutions, env.readMachoResolutionsSidecar dir name = .ok resolutions

/-- The base outlives every write that leaves existing files alone. -/
theorem Indexed.mono {state later : RecordState} {dir' : StateDir} (h : Indexed env dir state records fileName file)
    (hdir : Extends dir dir') (hsections : later.sectionsFile = state.sectionsFile)
    (hpatch : later.patchRecordsFile = state.patchRecordsFile)
    (hraw : later.rawPatchRecordLocations = state.rawPatchRecordLocations)
    (hlocations : later.patchRecordLocations = state.patchRecordLocations)
    (hmacho : later.machoSymbolResolutionsFile = state.machoSymbolResolutionsFile) :
    Indexed env dir' later records fileName file := by
  have hdisplay : dir'.display = dir.display := by
    funext name
    simp [display, hdir.path]
  have hreads : ∀ {location owner}, Reads env dir fileName file records location owner →
      Reads env dir' fileName file records location owner := by
    rintro location owner ⟨block, hblock, hmem⟩
    refine ⟨block, ?_, hmem⟩
    unfold readLocation at hblock ⊢
    rw [hdisplay]
    exact hblock
  refine ⟨hsections.trans h.sectionsFile, hpatch.trans h.patchRecordsFile, h.valid,
    hdir.files _ _ h.installed, hraw.trans h.parsed, ?_, ?_, ?_, ?_, ?_⟩
  · rw [hlocations]
    intro location hlocation
    obtain ⟨owner, hread⟩ := h.reads location hlocation
    exact ⟨owner, hreads hread⟩
  · rw [hlocations]
    intro r hr
    obtain ⟨location, hlocation, hfile, hread⟩ := h.own r hr
    exact ⟨location, hlocation, hfile, hreads hread⟩
  · rw [hlocations]
    intro r hr target htarget
    obtain ⟨location, hlocation, hfile, hread⟩ := h.incoming r hr target htarget
    exact ⟨location, hlocation, hfile, hreads hread⟩
  · rw [hlocations]
    exact h.plain
  · rw [hmacho]
    intro name hname
    obtain ⟨resolutions, hread⟩ := h.resolutions name hname
    exact ⟨resolutions, hdir.readMachoResolutionsSidecar hread⟩

/-- Every record has its owner among the owners that get a block. -/
theorem mem_recordOwners (resolutions : List MachOSymbolResolutionRecord)
    (hr : r ∈ records.all) : r.inputFile ∈ recordOwners records resolutions := by
  rw [recordOwners, mem_sorted, List.mem_dedup, mem_append]
  exact .inl (List.mem_map_of_mem hr)

/-- An owner's location, own or alias, with its own location beside it. -/
theorem exists_ownLocation (env : Sidecars)
    (resolutions : List MachOSymbolResolutionRecord) (hr : r ∈ records.all) :
    ∃ location ∈ placeBlocks env 0 (ownerBlocks env records resolutions),
      location.inputFile = r.inputFile :=
  exists_mem_placeBlocks env _ 0
    (List.mem_map_of_mem (f := fun inputFile =>
      (inputFile, env.compress (utf8 (ownerBlock records resolutions inputFile))))
      (mem_recordOwners resolutions hr))

theorem mem_relocationAliases {target : Text}
    (hr : r ∈ records.all) (htarget : r.targetFile = some target) (hne : target ≠ r.inputFile) :
    (target, r.inputFile) ∈ relocationAliases records := by
  rw [relocationAliases, mem_sortDedup, mem_filterMap]
  match r, htarget with
  | .relocation s, htarget =>
    simp only [Record.targetFile, Option.map_eq_some_iff] at htarget
    obtain ⟨t, ht, rfl⟩ := htarget
    refine ⟨s, mem_all.mp hr, ?_⟩
    simp only [Record.inputFile] at hne ⊢
    simp [ht, hne]

variable {aliases : List (Text × Text)}

/-- An alias location has the key of the location it stands for. -/
theorem aliasLocations_spec
    (h : location ∈ aliasLocations ownLocations aliases) :
    ∃ own ∈ ownLocations, own.key = location.key := by
  rw [aliasLocations, mem_filterMap] at h
  obtain ⟨entry, -, hentry⟩ := h
  rw [Option.map_eq_some_iff] at hentry
  obtain ⟨own, hown, rfl⟩ := hentry
  exact ⟨own, mem_of_find?_eq_some hown, rfl⟩

theorem exists_aliasLocation {target owner : Text} (h : (target, owner) ∈ aliases)
    {own : PatchRecordLocation} (hmem : own ∈ ownLocations) (howner : own.inputFile = owner) :
    ∃ location ∈ aliasLocations ownLocations aliases, location.inputFile = target ∧
      ∃ found ∈ ownLocations, found.inputFile = owner ∧ found.key = location.key := by
  cases hfind : ownLocations.find? fun location => decide (location.inputFile = owner) with
  | none =>
    have := find?_eq_none.mp hfind own hmem
    simp [howner] at this
  | some found =>
    have hfound : found.inputFile = owner := by simpa using find?_some hfind
    refine ⟨{ found with inputFile := target }, ?_, rfl, found,
      mem_of_find?_eq_some hfind, hfound, rfl⟩
    rw [aliasLocations, mem_filterMap]
    exact ⟨(target, owner), h, by simp [hfind]⟩

/-- The files a storable record names fit a column. -/
theorem Record.Storable.inputFile (h : r.Storable) : PlainText r.inputFile := by
  cases r with
  | sectionRecord r => exact h.1.1
  | relocation r => exact h.1.1
  | fde r => exact h.1.1
  | dynamicRelocation r => exact h.1.1.1

theorem plain_ownLocation (hrec : records.Storable)
    (hres : ∀ r ∈ resolutions, r.Storable)
    (h : location ∈ placeBlocks env 0 (ownerBlocks env records resolutions)) :
    PlainText location.inputFile := by
  obtain ⟨block, hmem, -⟩ := placeBlocks_spec env _ [] h
  rw [ownerBlocks, List.mem_map] at hmem
  obtain ⟨owner, howner, heq⟩ := hmem
  rw [← (Prod.mk.inj heq).1]
  rw [recordOwners, mem_sorted, List.mem_dedup, mem_append, List.mem_map,
    mem_filterMap] at howner
  rcases howner with ⟨r, hr, rfl⟩ | ⟨r, hr, htarget⟩
  · exact (hrec r hr).inputFile
  · rw [Option.map_eq_some_iff] at htarget
    obtain ⟨t, ht, rfl⟩ := htarget
    exact ((hres r hr).1.2 t ht).1

theorem isHex_ownLocation {blocks : List (Text × Bytes)}
    (h : location ∈ placeBlocks env 0 blocks) : ∀ c ∈ location.hash, IsHex c := by
  obtain ⟨block, -, hhash, -⟩ := placeBlocks_spec env _ [] h
  rw [hhash]
  exact env.hashBytes_isHex block

theorem plain_aliasLocation (hrec : records.Storable)
    (h : location ∈ aliasLocations ownLocations (relocationAliases records)) :
    PlainText location.inputFile := by
  rw [aliasLocations, mem_filterMap] at h
  obtain ⟨entry, hentry, hlocation⟩ := h
  rw [Option.map_eq_some_iff] at hlocation
  obtain ⟨own, -, rfl⟩ := hlocation
  rw [relocationAliases, mem_sortDedup, mem_filterMap] at hentry
  obtain ⟨r, hr, hmap⟩ := hentry
  rw [Option.map_eq_some_iff] at hmap
  obtain ⟨t, ht, rfl⟩ := hmap
  have htarget : r.target = some t := (Option.filter_eq_some_iff.mp ht).1
  exact ((hrec (.relocation r) (mem_all.mpr hr)).1.2.2.2 t htarget).1

/-- The writer of the base establishes the index. -/
theorem writeIndexedRecordsStreaming_spec (hdir : Consistent env dir)
    (hrec : records.Storable)
    (hres : ∀ r ∈ resolutions, r.Storable) (state : RecordState) (hsections : state.sectionsFile
      = some (writeIndexedRecordsStreaming env dir records resolutions).2.1)
    (hpatch : state.patchRecordsFile
      = some (writeIndexedRecordsStreaming env dir records resolutions).2.1)
    (hlocations : state.patchRecordLocations
      = (writeIndexedRecordsStreaming env dir records resolutions).2.2)
    (hraw : state.rawPatchRecordLocations = none)
    (hmacho : ∀ name ∈ state.machoSymbolResolutionsFile,
      ∃ rs, env.readMachoResolutionsSidecar dir name = .ok rs) :
    let written := writeIndexedRecordsStreaming env dir records resolutions
    Consistent env written.1 ∧ Extends dir written.1 ∧
      Indexed env written.1 state records written.2.1
        ((ownerBlocks env records resolutions).flatMap Prod.snd) := by
  intro written
  set ownLocations := placeBlocks env 0 (ownerBlocks env records resolutions) with hownDef
  have hmem : ∀ location, location ∈ state.patchRecordLocations ↔
      location ∈ ownLocations ∨
        location ∈ aliasLocations ownLocations (relocationAliases records) := by
    intro location
    rw [hlocations]
    simp only [writeIndexedRecordsStreaming, indexedLocations, mem_sortDedup, mem_append,
      hownDef]
  have hreads : ∀ own ∈ ownLocations, Reads env written.1 written.2.1
      ((ownerBlocks env records resolutions).flatMap Prod.snd) records own own.inputFile :=
    fun own hown => reads_placeBlocks written.1 hrec hres hown
  have hextends : Extends dir written.1 := hdir.extends_install _
  refine ⟨hdir.install_sections _, hextends, hsections, hpatch,
    validateSectionsFileName_compressed env _, files_install_self _ _ _, hraw, ?_, ?_,
    ?_, ?_, ?_⟩
  · intro location hlocation
    rcases (hmem location).mp hlocation with hown | halias
    · exact ⟨location.inputFile, hreads location hown⟩
    · obtain ⟨own, hown, hkey⟩ := aliasLocations_spec halias
      exact ⟨own.inputFile, (hreads own hown).of_key hkey.symm⟩
  · intro r hr
    obtain ⟨own, hown, hfile⟩ := exists_ownLocation env resolutions hr
    have hread := hreads own hown
    rw [hfile] at hread
    exact ⟨own, (hmem own).mpr (.inl hown), hfile, hread⟩
  · intro r hr target htarget
    obtain ⟨own, hown, hfile⟩ := exists_ownLocation env resolutions hr
    by_cases hsame : target = r.inputFile
    · have hread := hreads own hown
      rw [hfile] at hread
      exact ⟨own, (hmem own).mpr (.inl hown), hfile.trans hsame.symm, hread⟩
    · obtain ⟨location, hlocation, htgt, found, hfound, hfoundFile, hkey⟩ :=
        exists_aliasLocation (mem_relocationAliases hr htarget hsame) hown hfile
      have hread := hreads found hfound
      rw [hfoundFile] at hread
      exact ⟨location, (hmem location).mpr (.inr hlocation), htgt, hread.of_key hkey.symm⟩
  · intro location hlocation
    rcases (hmem location).mp hlocation with hown | halias
    · exact ⟨plain_ownLocation hrec hres hown, isHex_ownLocation hown⟩
    · refine ⟨plain_aliasLocation hrec halias, ?_⟩
      obtain ⟨own, hown, hkey⟩ := aliasLocations_spec halias
      have hhash : location.hash = own.hash := congrArg LocationKey.hash hkey.symm
      rw [hhash]
      exact isHex_ownLocation hown
  · intro name hname
    obtain ⟨rs, hread⟩ := hmacho name hname
    exact ⟨rs, hextends.readMachoResolutionsSidecar hread⟩

/-- **The base as it is read back.** -/
theorem writeBase_spec (hdir : Consistent env dir) (hrec : records.Storable)
    (hres : ∀ r ∈ resolutions, r.Storable) :
    let written := writeBase env dir records resolutions
    Consistent env written.1 ∧ (∃ fileName file,
      Indexed env written.1 written.2 records fileName file) ∧
      written.2.recordOverrideInputs = [] ∧ written.2.recordOverridesFile = none := by
  intro written
  by_cases hnil : resolutions = []
  · have hw : written = writeBase env dir records resolutions := rfl
    simp only [writeBase, if_pos hnil] at hw
    obtain ⟨hcons, -, hindexed⟩ := writeIndexedRecordsStreaming_spec hdir hrec hres
      written.2 (by rw [hw]) (by rw [hw]) (by rw [hw]) (by rw [hw]) (by rw [hw]; simp)
    rw [hw] at hindexed ⊢
    exact ⟨hcons, ⟨_, _, hindexed⟩, rfl, rfl⟩
  · have hw : written = writeBase env dir records resolutions := rfl
    simp only [writeBase, if_neg hnil] at hw
    obtain ⟨hcons, -, hread⟩ := writeMachoResolutionsSidecar_spec hdir hres
    obtain ⟨hcons', -, hindexed⟩ := writeIndexedRecordsStreaming_spec hcons hrec hres
      written.2 (by rw [hw]) (by rw [hw]) (by rw [hw]) (by rw [hw]) (by
        rw [hw]
        rintro name hname
        cases hname
        exact ⟨resolutions, hread⟩)
    rw [hw] at hindexed ⊢
    exact ⟨hcons', ⟨_, _, hindexed⟩, rfl, rfl⟩

end Base

/-! ## 5. Reading the base -/

section Read

variable {env : Sidecars} {dir : StateDir} {state : RecordState} {records : RecordLists}
  {fileName : Text} {file : Bytes}

/-- The set of the records of four lists. -/
def RecordLists.toSet (lists : RecordLists) : Set Record := {r | r ∈ lists.all}

@[simp] theorem RecordLists.mem_toSet {lists : RecordLists} {r : Record} :
    r ∈ lists.toSet ↔ r ∈ lists.all := Iff.rfl

/-- Reading at some of the locations delivers the records of the owners that they read. -/
theorem readIndexedRecordsAtLocations_spec (h : Indexed env dir state records fileName file)
    (locations : List PatchRecordLocation)
    (hsub : ∀ location ∈ locations, location ∈ state.patchRecordLocations) :
    ∃ found, readIndexedRecordsAtLocations env dir fileName locations = .ok found ∧
      ∀ r, r ∈ found.all ↔ r ∈ records.all ∧
        ∃ location ∈ locations, Reads env dir fileName file records location r.inputFile := by
  have hblocks : ∀ location ∈ locations, ∃ block,
      readLocation env dir fileName file location = .ok block := by
    intro location hlocation
    obtain ⟨owner, block, hblock, -⟩ := h.reads location (hsub location hlocation)
    exact ⟨block, hblock⟩
  obtain ⟨blocks, hmap, hmem⟩ := exists_mapM_ok hblocks
  refine ⟨mergeBlocks locations blocks, ?_, ?_⟩
  · simp only [readIndexedRecordsAtLocations, h.valid, ok_bind, StateDir.read, h.installed,
      context_some, hmap, pure_eq_ok]
  · intro r
    rw [mergeBlocks, mem_all_sortDedup, mem_all_foldl_extend]
    simp only [all_empty, not_mem_nil, false_or]
    constructor
    · rintro ⟨block, hblock, hr⟩
      obtain ⟨location, hlocation, hread⟩ := (hmem block).mp hblock
      obtain ⟨owner, block', hread', hspec⟩ := h.reads location (hsub location hlocation)
      cases hread.symm.trans hread'
      obtain ⟨hrec, rfl⟩ := (hspec r).mp hr
      exact ⟨hrec, location, hlocation, block, hread, hspec⟩
    · rintro ⟨hrec, location, hlocation, block, hread, hspec⟩
      exact ⟨block, (hmem block).mpr ⟨location, hlocation, hread⟩, (hspec r).mpr ⟨hrec, rfl⟩⟩

variable {location : PatchRecordLocation} {locations : List PatchRecordLocation}

theorem mem_of_mem_distinctLocations (h : location ∈ distinctLocations locations) :
    location ∈ locations :=
  (perm_insertionSort _ locations).mem_iff.mp (mem_of_mem_dedupByKey h)

/-- Dropping locations that read the same bytes loses nothing. -/
theorem exists_mem_distinctLocations (h : location ∈ locations) :
    ∃ other ∈ distinctLocations locations, other.key = location.key :=
  exists_mem_dedupByKey _ ((perm_insertionSort _ locations).mem_iff.mpr h)

theorem Reads.of_distinctLocations {owner : Text} (h : location ∈ locations)
    (hread : Reads env dir fileName file records location owner) :
    ∃ other ∈ distinctLocations locations,
      Reads env dir fileName file records other owner := by
  obtain ⟨other, hother, hkey⟩ := exists_mem_distinctLocations h
  exact ⟨other, hother, hread.of_key hkey⟩

/-- **Reading all locations delivers the base.** -/
theorem readAllIndexedRecords_spec (h : Indexed env dir state records fileName file) :
    ∃ found, state.readAllIndexedRecords env dir = .ok found ∧
      ∀ r, r ∈ found.all ↔ r ∈ records.all := by
  obtain ⟨found, hfound, hmem⟩ := readIndexedRecordsAtLocations_spec h
    (distinctLocations state.patchRecordLocations)
    fun location hlocation => mem_of_mem_distinctLocations hlocation
  refine ⟨found, ?_, fun r => ?_⟩
  · simp only [readAllIndexedRecords, h.patchRecordsFile]
    exact hfound
  · rw [hmem r]
    refine ⟨fun hr => hr.1, fun hr => ⟨hr, ?_⟩⟩
    obtain ⟨location, hlocation, -, hread⟩ := h.own r hr
    exact hread.of_distinctLocations hlocation

/-- **Reading the locations of some files delivers a partial read of the base for them.** -/
theorem readIndexedPatchRecords_spec (h : Indexed env dir state records fileName file)
    (inputFiles : Finset Text) :
    ∃ found complete,
      state.readIndexedPatchRecords env dir fileName inputFiles = .ok (some (found, complete)) ∧
      PartialRead Record.inputFile Record.targetFile records.toSet
        found.toRecordLists.toSet inputFiles complete := by
  by_cases hempty : state.patchRecordLocations = []
  · have hnone : ∀ r, r ∉ records.all := by
      intro r hr
      obtain ⟨location, hlocation, -⟩ := h.own r hr
      rw [hempty] at hlocation
      exact absurd hlocation (by simp)
    refine ⟨{}, ∅, ?_, ?_, ?_, ?_⟩
    · simp [readIndexedPatchRecords, hempty, h.sectionsFile]
    · intro r hr
      exact absurd hr (by simp)
    · exact fun r hr => absurd hr (hnone r)
    · exact fun r hr => absurd hr (hnone r)
  · set selected := state.patchRecordLocations.filter fun location =>
      decide (location.inputFile ∈ inputFiles) with hselected
    have hmemSelected : ∀ location, location ∈ selected ↔
        location ∈ state.patchRecordLocations ∧ location.inputFile ∈ inputFiles := by
      simp [hselected]
    obtain ⟨found, hfound, hmem⟩ := readIndexedRecordsAtLocations_spec h
      (distinctLocations selected)
      fun location hlocation =>
        ((hmemSelected location).mp (mem_of_mem_distinctLocations hlocation)).1
    refine ⟨found, state.completeRecordInputFiles inputFiles (distinctLocations selected)
      found.toRecordLists, ?_, ?_, ?_, ?_⟩
    · simp only [readIndexedPatchRecords, if_neg hempty, h.sectionsFile,
        not_true_eq_false, false_and, if_false, ← hselected, hfound, ok_bind, pure_eq_ok]
    · intro r hr
      exact ((hmem r).mp hr).1
    · -- a wanted record is found under its owner, or under the file it points into
      intro r hr hkeep
      refine (hmem r).mpr ⟨hr, ?_⟩
      rcases hkeep with hown | ⟨target, htarget, hwanted⟩
      · obtain ⟨location, hlocation, hfile, hread⟩ := h.own r hr
        refine hread.of_distinctLocations ((hmemSelected location).mpr ⟨hlocation, ?_⟩)
        rw [hfile]
        exact hown
      · obtain ⟨location, hlocation, hfile, hread⟩ := h.incoming r hr target htarget
        refine hread.of_distinctLocations ((hmemSelected location).mpr ⟨hlocation, ?_⟩)
        rw [hfile]
        exact hwanted
    · -- one record of a file was decoded, so its block was read, and with it all its records
      intro r hr hcomplete
      rw [completeRecordInputFiles, Finset.mem_coe, List.mem_toFinset,
        mem_filter, List.mem_map] at hcomplete
      obtain ⟨⟨r', hr', hfile⟩, -⟩ := hcomplete
      obtain ⟨-, location, hlocation, hread⟩ := (hmem r').mp hr'
      rw [hfile] at hread
      exact (hmem r).mpr ⟨hr, location, hlocation, hread⟩

end Read

/-! ## 6. Overrides -/

section Overrides

variable {env : Sidecars} {dir : StateDir} {state : RecordState} {replacement : RecordLists}

/-- The overridden inputs of a state. -/
def RecordState.overriddenFiles (state : RecordState) : Set Text :=
  {file | file ∈ state.recordOverrideInputs}

/-- What the override file of the state holds: records of overridden inputs only. -/
structure Overridden (env : Sidecars) (dir : StateDir) (state : RecordState)
    (replacement : RecordLists) : Prop where
  owners : ∀ r ∈ replacement.all, r.inputFile ∈ state.recordOverrideInputs
  storable : replacement.Storable
  absent : state.recordOverridesFile = none → replacement = {}
  present : ∀ fileName ∈ state.recordOverridesFile, ∃ contents block,
    env.readSectionsSidecar dir fileName = .ok contents ∧
    parseCompactRecordsBlock (lines contents) = .ok block ∧ block.toRecordLists = replacement

/-- A state without overrides. -/
theorem Overridden.empty (hfile : state.recordOverridesFile = none) :
    Overridden env dir state {} where
  owners r hr := absurd hr (by simp)
  storable r hr := absurd hr (by simp)
  absent _ := rfl
  present fileName h := by rw [hfile] at h; exact absurd h (by simp)

/-- Only the two override fields of the state matter. -/
theorem Overridden.congr {later : RecordState} (h : Overridden env dir state replacement)
    (hfile : later.recordOverridesFile = state.recordOverridesFile)
    (hinputs : later.recordOverrideInputs = state.recordOverrideInputs) :
    Overridden env dir later replacement where
  owners := by rw [hinputs]; exact h.owners
  storable := h.storable
  absent := by rw [hfile]; exact h.absent
  present := by rw [hfile]; exact h.present

theorem keeps_iff {owners targets : Finset Text} {r : Record} :
    keeps owners targets r = true ↔
      Keeps Record.inputFile Record.targetFile (owners : Set Text) targets r := by
  simp only [keeps, Record.pointsInto, Bool.or_eq_true, decide_eq_true_eq,
    Keeps, Finset.mem_coe]
  cases r.targetFile <;> simp

/-- **Applying the overrides overlays the records of the state**, and then filters them. -/
theorem applyRecordOverrides_spec (h : Overridden env dir state replacement)
    (inputFiles : Option (Finset Text)) :
    ∃ lists, state.applyRecordOverrides env dir inputFiles
        = .ok (state.setRecords lists) ∧
      ∀ r, r ∈ lists.all ↔
        r ∈ overlay Record.inputFile state.toRecordLists.toSet state.overriddenFiles
          replacement.toSet ∧
        (state.recordOverrideInputs ≠ [] → ∀ files ∈ inputFiles,
          keeps files files r = true) := by
  by_cases hnone : state.recordOverrideInputs = []
  · -- nothing is overridden, so the replacement is empty and the state is left alone
    have hempty : ∀ r, r ∉ replacement.all := by
      intro r hr
      have := h.owners r hr
      rw [hnone] at this
      exact absurd this (by simp)
    refine ⟨state.toRecordLists, ?_, fun r => ?_⟩
    · rw [applyRecordOverrides, if_pos hnone]
      rfl
    · simp [mem_overlay, overriddenFiles, hnone, hempty]
  · set base := state.ownedBy fun file => decide (file ∉ state.recordOverrideInputs) with hbase
    have hoverlay : ∀ r, r ∈ (base.extend replacement).sortDedup.all ↔
        r ∈ overlay Record.inputFile state.toRecordLists.toSet state.overriddenFiles
          replacement.toSet := by
      intro r
      simp [hbase, mem_overlay, overriddenFiles]
    have happly : state.applyRecordOverrides env dir inputFiles = .ok (state.setRecords
        (inputFiles.elim (base.extend replacement).sortDedup fun files =>
          (base.extend replacement).sortDedup.retain (keeps files files))) := by
      rw [applyRecordOverrides, if_neg hnone, ← hbase]
      cases hfile : state.recordOverridesFile with
      | none =>
        have hrepl := h.absent hfile
        subst hrepl
        have hext : base.extend {} = base := by simp [extend]
        rw [hext]
        cases inputFiles <;> rfl
      | some fileName =>
        obtain ⟨contents, block, hread, hparse, hblock⟩ := h.present fileName hfile
        have hown : ¬ ∃ r ∈ replacement.all, r.inputFile ∉ state.recordOverrideInputs := by
          rintro ⟨r, hr, hr'⟩
          exact hr' (h.owners r hr)
        cases inputFiles with
        | none => simp [hread, hparse, hblock, failIf_neg _ hown]
        | some files => simp [hread, hparse, hblock, failIf_neg _ hown]
    refine ⟨_, happly, fun r => ?_⟩
    cases inputFiles with
    | none => simp [hoverlay]
    | some files =>
      rw [Option.elim_some, mem_all_retain, hoverlay]
      simp [hnone]

/-- The parts of a state that a write of overrides leaves alone. -/
structure SameBase (state later : RecordState) : Prop where
  sectionsFile : later.sectionsFile = state.sectionsFile
  patchRecordsFile : later.patchRecordsFile = state.patchRecordsFile
  raw : later.rawPatchRecordLocations = state.rawPatchRecordLocations
  locations : later.patchRecordLocations = state.patchRecordLocations
  macho : later.machoSymbolResolutionsFile = state.machoSymbolResolutionsFile

/-- **Writing overrides overrides**: the replacement is overridden by the records of the state,
and the changed inputs are added to the overridden ones. -/
theorem writeRecordOverridesForInputs_spec (hdir : Consistent env dir)
    (h : Overridden env dir state replacement) (hstate : state.toRecordLists.Storable)
    (inputFiles : List Text) :
    ∃ later dir' replacement', state.writeRecordOverridesForInputs env dir inputFiles
        = .ok (dir', later) ∧
      Consistent env dir' ∧ Extends dir dir' ∧ SameBase state later ∧
      Overridden env dir' later replacement' ∧
      later.overriddenFiles = state.overriddenFiles ∪ {file | file ∈ inputFiles} ∧
      replacement'.toSet = override Record.inputFile replacement.toSet
        {file | file ∈ inputFiles} state.toRecordLists.toSet := by
  by_cases hnone : sortDedup inputFiles = []
  · have hnil : inputFiles = [] := sortDedup_eq_nil.mp hnone
    refine ⟨state, dir, replacement, ?_, hdir, Extends.refl dir, ⟨rfl, rfl, rfl, rfl, rfl⟩, h,
      ?_, ?_⟩
    · rw [writeRecordOverridesForInputs, if_pos hnone]
    · simp [hnil]
    · ext r
      simp [hnil, override]
  · set kept := replacement.ownedBy fun file => decide (file ∉ sortDedup inputFiles) with hkept
    set changed := state.ownedBy fun file => decide (file ∈ sortDedup inputFiles) with hchanged
    set written := (kept.extend changed).sortDedup.sorted with hwritten
    set inputs := sortDedup (state.recordOverrideInputs ++ sortDedup inputFiles) with hinputs
    have hmem : ∀ r, r ∈ written.all ↔
        (r ∈ replacement.all ∧ r.inputFile ∉ inputFiles) ∨
          (r ∈ state.all ∧ r.inputFile ∈ inputFiles) := by
      intro r
      simp [hwritten, hkept, hchanged]
    have hstorable : written.Storable := by
      intro r hr
      rcases (hmem r).mp hr with hr | hr
      · exact h.storable r hr.1
      · exact hstate r hr.1
    have howners : ∀ r ∈ written.all, r.inputFile ∈ inputs := by
      intro r hr
      simp only [hinputs, mem_sortDedup, mem_append]
      rcases (hmem r).mp hr with hr | hr
      · exact .inl (h.owners r hr.1)
      · exact .inr hr.2
    have hrun : state.writeRecordOverridesForInputs env dir inputFiles =
        if written = {} then
          .ok (dir, { state with recordOverrideInputs := inputs, recordOverridesFile := none })
        else
          .ok ((env.writeCompressedSectionsSidecar dir (unlines written.blockLines)).1,
            { state with
              recordOverrideInputs := inputs
              recordOverridesFile :=
                some (env.writeCompressedSectionsSidecar dir (unlines written.blockLines)).2 }) := by
      rw [writeRecordOverridesForInputs, if_neg hnone]
      cases hfile : state.recordOverridesFile with
      | none =>
        have hrepl := h.absent hfile
        subst hrepl
        rfl
      | some fileName =>
        obtain ⟨contents, block, hread, hparse, hblock⟩ := h.present fileName hfile
        simp only [hread, ok_bind, hparse, pure_eq_ok, hblock]
        rfl
    have hfiles : {file | file ∈ inputs} = state.overriddenFiles ∪ {file | file ∈ inputFiles} := by
      ext file
      simp [hinputs, overriddenFiles]
    have hset : written.toSet = override Record.inputFile replacement.toSet
        {file | file ∈ inputFiles} state.toRecordLists.toSet := by
      ext r
      exact hmem r
    by_cases hempty : written = {}
    · rw [if_pos hempty] at hrun
      refine ⟨_, _, written, hrun, hdir, Extends.refl dir, ⟨rfl, rfl, rfl, rfl, rfl⟩,
        ⟨howners, hstorable, fun _ => hempty, ?_⟩, hfiles, hset⟩
      intro fileName hname
      exact absurd hname (by simp)
    · rw [if_neg hempty] at hrun
      obtain ⟨hcons, hext, hread⟩ :=
        writeCompressedSectionsSidecar_spec hdir (unlines written.blockLines)
      refine ⟨_, _, written, hrun, hcons, hext, ⟨rfl, rfl, rfl, rfl, rfl⟩,
        ⟨howners, hstorable, fun hnot => absurd hnot (by simp), ?_⟩, hfiles, hset⟩
      intro fileName hname
      cases hname
      have hparse := parseCompactRecordsBlock_text hstorable none (by simp)
      rw [show resolutionLines none = [] from rfl, append_nil] at hparse
      exact ⟨_, _, hread, hparse, rfl⟩

end Overrides

/-! ## 7. Runs -/

section Runs

variable {env : Sidecars} {dir : StateDir} {state : RecordState}
  {records replacement : RecordLists} {fileName : Text} {file : Bytes}

/-- Loading the resolutions leaves the records and the overrides alone. -/
theorem loadMachoSymbolResolutions_spec (env : Sidecars) (dir : StateDir)
    (state : RecordState) (h : ∀ name ∈ state.machoSymbolResolutionsFile,
      ∃ resolutions, env.readMachoResolutionsSidecar dir name = .ok resolutions) :
    ∃ next, state.loadMachoSymbolResolutions env dir = .ok next ∧
      next.toRecordLists = state.toRecordLists ∧
      next.recordOverridesFile = state.recordOverridesFile ∧
      next.recordOverrideInputs = state.recordOverrideInputs := by
  unfold loadMachoSymbolResolutions
  split
  · exact ⟨state, rfl, rfl, rfl, rfl⟩
  · split
    · exact ⟨state, rfl, rfl, rfl, rfl⟩
    · rename_i name hname
      obtain ⟨resolutions, hread⟩ := h name hname
      rw [hread]
      exact ⟨{ state with machoSymbolResolutions := resolutions }, rfl, rfl, rfl, rfl⟩

/-- Taking over the records of a block, and the resolutions it came with or all of them. -/
theorem withRecords_spec (h : Indexed env dir state records fileName file)
    (found : CompactRecords) :
    ∃ next flag, state.withRecords env dir found = .ok (next, flag) ∧
      next.toRecordLists = found.toRecordLists ∧
      next.recordOverridesFile = state.recordOverridesFile ∧
      next.recordOverrideInputs = state.recordOverrideInputs := by
  simp only [withRecords]
  split
  · obtain ⟨next, hload, hlists, hfile, hinputs⟩ := loadMachoSymbolResolutions_spec env dir
      { state.setRecords found.toRecordLists with machoSymbolResolutions := [] } h.resolutions
    refine ⟨next, true, ?_, hlists, hfile, hinputs⟩
    rw [hload]
    rfl
  · exact ⟨_, false, rfl, rfl, rfl, rfl⟩

/-- The records a state stands for: its base, overlaid with its overrides. -/
def storedRecords (state : RecordState) (records replacement : RecordLists) : Set Record :=
  overlay Record.inputFile records.toSet state.overriddenFiles replacement.toSet

section

variable (h : Indexed env dir state records fileName file)
  (ho : Overridden env dir state replacement)
include h ho

/-- **A full read returns the stored records.** -/
theorem readAllRecords_spec :
    ∃ all, state.readAllRecords env dir = .ok all ∧
      ∀ r, r ∈ all.all ↔ r ∈ storedRecords state records replacement := by
  obtain ⟨found, hfound, hmem⟩ := readAllIndexedRecords_spec h
  have ho' : Overridden env dir (state.setRecords found.toRecordLists) replacement :=
    ho.congr rfl rfl
  obtain ⟨lists, happly, hlists⟩ := applyRecordOverrides_spec ho' none
  refine ⟨(state.setRecords found.toRecordLists).setRecords lists, ?_, fun r => ?_⟩
  · rw [readAllRecords, hfound, ok_bind]
    exact happly
  · have hbase : found.toRecordLists.toSet = records.toSet := by
      ext r
      exact hmem r
    rw [toRecordLists_setRecords, hlists r, toRecordLists_setRecords,
      hbase]
    simp [storedRecords, overriddenFiles, setRecords]

/-- **A filtered read returns the stored records it was asked for**: those of the wanted files
and of the files it reports complete, and every relocation into a wanted file. -/
theorem readRecordsForInputFiles_spec
    (inputFiles : Finset Text) :
    ∃ filtered coverage, state.readRecordsForInputFiles env dir inputFiles
        = .ok (filtered, coverage) ∧
      ∀ r, r ∈ filtered.all ↔ r ∈ storedRecords state records replacement ∧
        Keeps Record.inputFile Record.targetFile
          (inputFiles ∪ coverage.completeRecordInputFiles) inputFiles r := by
  have hmaterialize : state.materializePatchRecordLocations = .ok state := by
    rw [materializePatchRecordLocations, h.parsed]
  obtain ⟨found, complete, hfound, hpartial⟩ := readIndexedPatchRecords_spec h inputFiles
  obtain ⟨next, flag, hwith, hlistsNext, hfileNext, hinputsNext⟩ := withRecords_spec h found
  have ho' : Overridden env dir next replacement := ho.congr hfileNext hinputsNext
  obtain ⟨lists, happly, hlists⟩ := applyRecordOverrides_spec ho' (some (inputFiles ∪ complete))
  set kept := (next.setRecords lists).retainRelevantCompleteRecordInputs inputFiles complete
    with hkept
  refine ⟨kept.1, { completeMachoSymbolResolutions := flag, completeRecordInputFiles := kept.2 },
    ?_, fun r => ?_⟩
  · simp only [readRecordsForInputFiles, hmaterialize, ok_bind, h.patchRecordsFile,
      hfound, hwith, happly]
    rfl
  · have hsub : (kept.2 : Set Text) ⊆ complete := by
      exact_mod_cast Finset.filter_subset _ _
    have hmem : r ∈ kept.1.all ↔ r ∈ lists.all ∧
        Keeps Record.inputFile Record.targetFile ((inputFiles : Set Text) ∪ kept.2)
          inputFiles r := by
      rw [← Finset.coe_union, ← keeps_iff]
      exact mem_all_retain
    have hoverridden : next.overriddenFiles = state.overriddenFiles := by
      simp only [overriddenFiles, hinputsNext]
    have hstored := partial_read state.overriddenFiles replacement.toSet hpartial hsub r
    rw [hmem, hlists r, hlistsNext, hoverridden, storedRecords]
    constructor
    · rintro ⟨⟨hr, -⟩, hkeep⟩
      exact hstored.mp ⟨hr, hkeep⟩
    · intro hr
      obtain ⟨hr', hkeep⟩ := hstored.mpr hr
      refine ⟨⟨hr', fun _ files hfiles => ?_⟩, hkeep⟩
      cases hfiles
      rw [keeps_iff, Finset.coe_union]
      exact hkeep.mono (Set.union_subset_union_right _ hsub) Set.subset_union_left

end

/-- One write of overrides: the state holds `records` in memory, among them the complete new
records of `inputFiles`. -/
structure OverrideStep where
  records : RecordLists
  inputFiles : List Text

/-- A run of writes, each on the state and the directory the one before left. -/
def runOverrides (env : Sidecars) :
    StateDir × RecordState → List OverrideStep → Result (StateDir × RecordState)
  | current, [] => .ok current
  | (dir, state), step :: steps => do
    let next ← (state.setRecords step.records).writeRecordOverridesForInputs env dir
      step.inputFiles
    runOverrides env next steps

/-- The records a run of overrides leaves, abstractly: each step replaces the records of its
input files. -/
def latestRecords (base : Set Record) (steps : List OverrideStep) : Set Record :=
  steps.foldl (fun store step =>
    override Record.inputFile store {file | file ∈ step.inputFiles} step.records.toSet)
    base

/-- **Every run keeps the base and stores the latest records.** -/
theorem runOverrides_spec {steps : List OverrideStep} :
    ∀ {dir : StateDir} {state : RecordState} {replacement : RecordLists},
      Consistent env dir → Indexed env dir state records fileName file →
      Overridden env dir state replacement →
      (∀ step ∈ steps, step.records.Storable) →
      ∃ dir' later replacement', runOverrides env (dir, state) steps = .ok (dir', later) ∧
        Indexed env dir' later records fileName file ∧
        Overridden env dir' later replacement' ∧
        storedRecords later records replacement'
          = latestRecords (storedRecords state records replacement) steps := by
  induction steps with
  | nil =>
    intro dir state replacement _ hindexed hoverridden _
    exact ⟨dir, state, replacement, rfl, hindexed, hoverridden, rfl⟩
  | cons step steps ih =>
    intro dir state replacement hdir hindexed hoverridden hsteps
    have hoverridden' : Overridden env dir (state.setRecords step.records) replacement :=
      hoverridden.congr rfl rfl
    obtain ⟨next, dir', replacement', hwrite, hdir', hext, hsame, hnext, hfiles, hset⟩ :=
      writeRecordOverridesForInputs_spec hdir hoverridden' (hsteps step (by simp))
        step.inputFiles
    have hindexed' : Indexed env dir' next records fileName file :=
      hindexed.mono hext hsame.sectionsFile hsame.patchRecordsFile hsame.raw hsame.locations
        hsame.macho
    obtain ⟨dir'', later, replacement'', hrun, hfinal, hoverr, hstored⟩ :=
      ih hdir' hindexed' hnext fun s hs => hsteps s (mem_cons_of_mem _ hs)
    refine ⟨dir'', later, replacement'', ?_, hfinal, hoverr, ?_⟩
    · rw [runOverrides, hwrite, ok_bind]
      exact hrun
    · rw [hstored, latestRecords, latestRecords, foldl_cons]
      congr 1
      rw [storedRecords, hfiles, hset]
      exact (override_overlay _ _ _ _ _).symm

/-! ## 8. A table of locations that is parsed late -/

theorem isHex_plain {t : Text} (h : ∀ c ∈ t, IsHex c) : PlainText t ∧ EndsPlain t := by
  refine ⟨⟨fun hc => ?_, fun hc => ?_⟩, endsPlain_of_not_mem fun hc => ?_⟩
  · exact absurd (h _ hc) (by decide)
  · exact absurd (h _ hc) (by decide)
  · exact absurd (h _ hc) (by decide)

theorem parsePatchRecordLocationLine_patchRecordLocationLine {location : PatchRecordLocation}
    (hfile : PlainText location.inputFile) (hhash : PlainText location.hash) :
    parsePatchRecordLocationLine (patchRecordLocationLine location) = .ok location := by
  have hs : split '\t' (join '\t' [location.inputFile, Decimal.render location.offset,
      Decimal.render location.len, location.hash]) = [location.inputFile,
      Decimal.render location.offset, Decimal.render location.len, location.hash] :=
    split_join (by simp) (by simp [hfile.1, hhash.1])
  rw [parsePatchRecordLocationLine, patchRecordLocationLine,
    parsePrefixedLine_row _ (by decide) (by simp), ok_bind, hs]
  simp [nextPart, noMoreParts]

/-- **The table of locations reads back**, both at once and through its text. -/
theorem parsePatchRecordLocationTable_render {locations : List PatchRecordLocation}
    (h : ∀ location ∈ locations, PlainText location.inputFile ∧ ∀ c ∈ location.hash, IsHex c) :
    parsePatchRecordLocationTable
        (lines (renderPatchRecordLocationTable locations none)) true
      = .ok ((locations, none), []) := by
  have hlines : ∀ l ∈ countLine "patch-records" locations.length ::
      locations.map patchRecordLocationLine, IsLine l := by
    intro l hl
    rcases mem_cons.mp hl with rfl | hl
    · exact isLine_countLine _ (by decide) _
    · obtain ⟨location, hlocation, rfl⟩ := mem_map.mp hl
      obtain ⟨hfile, hhash⟩ := h location hlocation
      refine isLine_row _ (by decide) ?_ rfl (isHex_plain hhash).2
      simp [hfile.2, (isHex_plain hhash).1.2]
  have hread : ∀ location ∈ locations,
      always parsePatchRecordLocationLine (patchRecordLocationLine location)
        = .ok (some location) := fun location hlocation =>
    always_ok (parsePatchRecordLocationLine_patchRecordLocationLine (h location hlocation).1
      (isHex_plain (h location hlocation).2).1)
  have htable := readTable_map missingLine locations [] hread
  rw [append_nil] at htable
  rw [renderPatchRecordLocationTable, Option.getD_none, lines_unlines hlines,
    parsePatchRecordLocationTable]
  simp [nextPart, parseCount_countLine "patch-records" (by decide), htable]

/-- The state as it is read for its metadata: the table of locations is kept as text. -/
def RecordState.deferLocations (state : RecordState) : RecordState :=
  { state with
    patchRecordLocations := []
    rawPatchRecordLocations := some
      (renderPatchRecordLocationTable state.patchRecordLocations none) }

/-- It makes no difference whether the locations were parsed when the state was read. -/
theorem readRecordsForInputFiles_deferLocations (h : Indexed env dir state records fileName file)
    (inputFiles : Finset Text) :
    state.deferLocations.readRecordsForInputFiles env dir inputFiles
      = state.readRecordsForInputFiles env dir inputFiles := by
  have hstate : state.materializePatchRecordLocations = .ok state := by
    rw [materializePatchRecordLocations, h.parsed]
  have hdeferred : state.deferLocations.materializePatchRecordLocations = .ok state := by
    rw [materializePatchRecordLocations]
    simp only [deferLocations, parsePatchRecordLocationTable_render h.plain, ok_bind]
    rw [failIf_neg _ (by simp), ok_bind, ← h.parsed]
    rfl
  rw [readRecordsForInputFiles, readRecordsForInputFiles, hstate,
    hdeferred]

/-! ## 9. The store -/

/-- **The indexed record store.**  Write a base and then any run of overrides.  A filtered read
of the resulting state, whether its locations were parsed before or are still text, returns, of
all records that a full read returns, exactly those of the wanted files, those of the files it
reports complete, and the relocations into a wanted file.  So a file reported complete has all
of its records; and what a full read returns are the latest records. -/
theorem filtered_read_agrees_with_full_read (env : Sidecars) (dir : StateDir)
    (hdir : Consistent env dir) (base : RecordLists)
    (resolutions : List MachOSymbolResolutionRecord) (hbase : base.Storable)
    (hres : ∀ r ∈ resolutions, r.Storable) (steps : List OverrideStep)
    (hsteps : ∀ step ∈ steps, step.records.Storable) (inputFiles : Finset Text) :
    ∃ dir' state all filtered coverage,
      runOverrides env (writeBase env dir base resolutions) steps = .ok (dir', state) ∧
      state.sectionsFile = state.patchRecordsFile ∧
      state.readAllRecords env dir' = .ok all ∧
      state.readRecordsForInputFiles env dir' inputFiles = .ok (filtered, coverage) ∧
      state.deferLocations.readRecordsForInputFiles env dir' inputFiles
        = .ok (filtered, coverage) ∧
      (∀ r, r ∈ filtered.all ↔ r ∈ all.all ∧ (r.inputFile ∈ inputFiles ∨
        r.inputFile ∈ coverage.completeRecordInputFiles ∨ r.pointsInto inputFiles = true)) ∧
      (∀ inputFile ∈ coverage.completeRecordInputFiles, ∀ r ∈ all.all,
        r.inputFile = inputFile → r ∈ filtered.all) ∧
      ∀ r, r ∈ all.all ↔ r ∈ latestRecords base.toSet steps := by
  obtain ⟨hcons, ⟨fileName, file, hindexed⟩, hinputs, hfile⟩ := writeBase_spec hdir hbase hres
  obtain ⟨dir', state, replacement, hrun, hindexed', hoverridden, hstored⟩ :=
    runOverrides_spec hcons hindexed (Overridden.empty hfile) hsteps
  obtain ⟨all, hall, hmemAll⟩ := readAllRecords_spec hindexed' hoverridden
  obtain ⟨filtered, coverage, hfiltered, hmem⟩ :=
    readRecordsForInputFiles_spec hindexed' hoverridden inputFiles
  have hagree : ∀ r, r ∈ filtered.all ↔ r ∈ all.all ∧ (r.inputFile ∈ inputFiles ∨
      r.inputFile ∈ coverage.completeRecordInputFiles ∨ r.pointsInto inputFiles = true) := by
    intro r
    rw [hmem r, hmemAll r, ← Finset.coe_union, ← keeps_iff, keeps]
    simp [or_assoc]
  refine ⟨dir', state, all, filtered, coverage, hrun,
    hindexed'.sectionsFile.trans hindexed'.patchRecordsFile.symm, hall, hfiltered, ?_, hagree,
    ?_, fun r => ?_⟩
  · rw [readRecordsForInputFiles_deferLocations hindexed', hfiltered]
  · rintro inputFile hcomplete r hr rfl
    exact (hagree r).mpr ⟨hr, .inr (.inl hcomplete)⟩
  · -- a base without overrides stands for its own records
    have hstart : storedRecords (writeBase env dir base resolutions).2 base {} = base.toSet := by
      ext r
      simp [storedRecords, mem_overlay, overriddenFiles, hinputs]
    rw [hmemAll r, hstored, hstart]

/-- Files stored uncompressed and named after their bytes in hexadecimal. -/
def plainSidecars : Sidecars where
  compress := id
  decompress := some
  hashBytes := hexEncode
  decompress_compress _ := rfl
  hashBytes_isHex _ _ := isHex_of_mem_hexEncode
  hashBytes_injective := hexEncode_injective

/-- The file `61` had a relocation into `62`, and was overridden by records without it: the
relocation does not come back through the alias location of the base, and the section of `62`
is still found. -/
theorem filtered_read_agrees_overridden_incoming :
    let a : SectionRecord := ⟨"61".toList, "6f".toList, 1, 64, 32⟩
    let b : SectionRecord := ⟨"62".toList, "70".toList, 3, 96, 8⟩
    let r : RelocationRecord := ⟨7, none, 4112, none, none,
      some ⟨"62".toList, "70".toList, 3, 0⟩, "61".toList, "6f".toList, 1, 4, 68, 4, 2, -4⟩
    ∃ dir state filtered coverage,
      runOverrides plainSidecars
        (writeBase plainSidecars ⟨"state", fun _ => none⟩
          { sections := [a, b], relocations := [r] } [])
        [⟨{ sections := [a] }, ["61".toList]⟩] = .ok (dir, state) ∧
      state.readRecordsForInputFiles plainSidecars dir {"62".toList} = .ok (filtered, coverage) ∧
      .relocation r ∉ filtered.all ∧ .sectionRecord b ∈ filtered.all := by
  intro a b r
  obtain ⟨dir, state, all, filtered, coverage, hrun, -, -, hread, -, hagree, -, hlatest⟩ :=
    filtered_read_agrees_with_full_read plainSidecars ⟨"state", fun _ => none⟩
      (fun contents other => ⟨fun h => absurd h (by simp), fun h => absurd h (by simp)⟩)
      { sections := [a, b], relocations := [r] } []
      (by unfold Storable; decide) (by decide)
      [⟨{ sections := [a] }, ["61".toList]⟩]
      (by unfold Storable; decide) {"62".toList}
  refine ⟨dir, state, filtered, coverage, hrun, hread, fun hr => ?_, ?_⟩
  · have hmem := (hlatest _).mp ((hagree _).mp hr).1
    simp [latestRecords, override, RecordLists.all, Record.inputFile, r] at hmem
  · refine (hagree _).mpr ⟨(hlatest _).mpr ?_, .inl (by decide)⟩
    simp [latestRecords, override, RecordLists.all, Record.inputFile, b]

end Runs

end Srs.Incremental
