/-
# Any number of updates

A state directory goes through one write of the index and any number of updates after it.  What
has to survive is the LATEST state: the reader sees the first index and the last update, and
nothing of the updates in between.

The invariant of the run is `Kept`.  The index file is the first index.  The update file, when
there is one, is an update of the latest state, and every input that is not in it is still what
it was in the first state.  One write keeps this (`Kept.step`) because the new update lists the
inputs of the old one again, together with its own, and takes all their lines from the state it
is given: an input that is in neither list was not changed by this write, nor by any before it.

The two files together then give the latest state back (`Kept.read`).
-/
import Srs.Incremental.IndexRoundTrip

namespace Srs.Incremental

open Text Bytes List Option PersistedState StateDir FileState

/-! ## 1. A run of updates -/

/-- One call of `write_metadata_update_for_inputs`. -/
structure MetadataUpdate where
  state : PersistedState
  inputIndices : List Nat

/-- The calls one after the other. -/
def runUpdates (env : Sidecars) (blake3Hex : Bytes → Text) (dir : StateDir)
    (updates : List MetadataUpdate) : Result StateDir :=
  updates.foldlM (fun dir update =>
    update.state.writeMetadataUpdateForInputs env blake3Hex dir update.inputIndices) dir

/-- The state that was written last. -/
def latestState (first : PersistedState) (updates : List MetadataUpdate) : PersistedState :=
  updates.foldl (fun _ update => update.state) first

/-- What a call may do with the state before it: change the fields that an update has, and the
inputs whose indices are passed. -/
structure MetadataUpdate.Follows (blake3Hex : Bytes → Text) (previous : PersistedState)
    (update : MetadataUpdate) : Prop where
  settled : update.state.Settled blake3Hex
  sectionsFile : update.state.sectionsFile = previous.sectionsFile
  length : update.state.inputFiles.length = previous.inputFiles.length
  bound : ∀ i ∈ update.inputIndices, i < update.state.inputFiles.length
  unchanged : ∀ i, i ∉ update.inputIndices →
    update.state.inputFiles[i]?.map asRaw = previous.inputFiles[i]?.map asRaw

/-- Each call follows the one before it. -/
def FollowingUpdates (blake3Hex : Bytes → Text) :
    PersistedState → List MetadataUpdate → Prop
  | _, [] => True
  | previous, update :: updates =>
    update.Follows blake3Hex previous ∧ FollowingUpdates blake3Hex update.state updates

/-! ## 2. One update -/

/-- The inputs of an update with their indices. -/
def PersistedState.updateEntries (state : PersistedState) (inputIndices : List Nat) :
    List (Nat × FileState) :=
  (sortDedup inputIndices).filterMap fun i => state.inputFiles[i]?.map fun input => (i, input)

variable {inputIndices : List Nat} {state : PersistedState}

theorem mem_updateEntries
    {e : Nat × FileState} (h : e ∈ state.updateEntries inputIndices) :
    state.inputFiles[e.1]? = some e.2 := by
  obtain ⟨i, -, he⟩ := mem_filterMap.mp h
  obtain ⟨input, hinput, rfl⟩ := map_eq_some_iff.mp he
  exact hinput

/-- **An update of inputs that exist is rendered**, with exactly these inputs. -/
theorem renderMetadataUpdate_ok
    (h : ∀ i ∈ inputIndices, i < state.inputFiles.length) :
    state.renderMetadataUpdate inputIndices
        = .ok (state.updateLines (state.updateEntries inputIndices))
      ∧ ∀ i, i ∈ (state.updateEntries inputIndices).map Prod.fst ↔ i ∈ inputIndices := by
  have hmapM : ∀ l : List Nat, (∀ i ∈ l, i < state.inputFiles.length) →
      l.mapM (fun i => do
          let input ← context state.inputFiles[i]? "index out of bounds"
          return row "input" [Decimal.render i, renderInputLineRest input])
        = .ok ((l.filterMap fun i => state.inputFiles[i]?.map fun input => (i, input)).map
            inputUpdateLine)
        ∧ (l.filterMap fun i => state.inputFiles[i]?.map fun input => (i, input)).map Prod.fst
          = l := by
    intro l
    induction l with
    | nil => exact fun _ => ⟨rfl, rfl⟩
    | cons i l ih =>
      intro hl
      obtain ⟨hrest, hfst⟩ := ih fun j hj => hl j (mem_cons_of_mem _ hj)
      obtain ⟨input, hget⟩ : ∃ input, state.inputFiles[i]? = some input :=
        ⟨_, getElem?_eq_getElem (hl i (by simp))⟩
      constructor
      · rw [mapM_cons]
        simp only [hget, context_some, ok_bind, hrest]
        simp [hget, inputUpdateLine]
      · simp [hget, hfst]
  obtain ⟨hlines, hfst⟩ := hmapM (sortDedup inputIndices) fun i hi => h i (mem_sortDedup.mp hi)
  constructor
  · have hlength : (state.updateEntries inputIndices).length = (sortDedup inputIndices).length := by
      rw [updateEntries, ← length_map Prod.fst, hfst]
    rw [renderMetadataUpdate]
    simp only [hlines, ok_bind]
    rw [← hlength]
    simp [updateLines, updateHeaderLines,
      overrideLines, updateEntries]
  · intro i
    rw [updateEntries, hfst, mem_sortDedup]

/-! ## 3. The invariant -/

/-- What a state directory holds after an index of `first` and updates up to `latest`. -/
structure Kept (blake3Hex : Bytes → Text) (first : PersistedState) (index : Bytes)
    (dir : StateDir) (latest : PersistedState) : Prop where
  index : dir.files indexFile = some index
  sectionsFile : latest.sectionsFile ≠ none
  length : latest.inputFiles.length = first.inputFiles.length
  update : (dir.files metadataUpdateFile = none ∧ latest = first)
    ∨ ∃ entries, HoldsUpdate blake3Hex dir latest entries
      ∧ ∀ i, i ∉ entries.map Prod.fst →
        latest.inputFiles[i]?.map asRaw = first.inputFiles[i]?.map asRaw

section Run

variable {env : Sidecars} {blake3Hex : Bytes → Text} {first latest : PersistedState}
  {index : Bytes} {dir : StateDir}

/-- The indices that the next update carries forward: inputs outside of them are unchanged. -/
theorem Kept.carried (h : Kept blake3Hex first index dir latest) :
    ∃ previous, metadataUpdateInputIndices blake3Hex dir = .ok previous
      ∧ (∀ i ∈ previous, i < latest.inputFiles.length)
      ∧ ∀ i, i ∉ previous →
        latest.inputFiles[i]?.map asRaw = first.inputFiles[i]?.map asRaw := by
  rcases h.update with ⟨hnone, rfl⟩ | ⟨entries, hholds, hothers⟩
  · exact ⟨[], metadataUpdateInputIndices_none hnone, by simp, fun _ _ => rfl⟩
  · refine ⟨entries.map Prod.fst, hholds.indices, ?_, hothers⟩
    intro i hi
    obtain ⟨e, he, rfl⟩ := mem_map.mp hi
    exact (List.getElem?_eq_some_iff.mp (hholds.entries e he)).1

/-- **One update keeps the invariant.** -/
theorem Kept.step (h : Kept blake3Hex first index dir latest) {update : MetadataUpdate}
    (hupdate : update.Follows blake3Hex latest) :
    ∃ dir', update.state.writeMetadataUpdateForInputs env blake3Hex dir update.inputIndices
        = .ok dir'
      ∧ Kept blake3Hex first index dir' update.state := by
  obtain ⟨previous, hprevious, hbound, hothers⟩ := h.carried
  have hsections : update.state.sectionsFile ≠ none := by
    rw [hupdate.sectionsFile]
    exact h.sectionsFile
  have hall : ∀ i ∈ update.inputIndices ++ previous, i < update.state.inputFiles.length := by
    intro i hi
    rcases mem_append.mp hi with hi | hi
    · exact hupdate.bound i hi
    · rw [hupdate.length]
      exact hbound i hi
  obtain ⟨hrender, hindices⟩ := renderMetadataUpdate_ok hall
  refine ⟨dir.install metadataUpdateFile (utf8 (unlines (update.state.updateLines
    (update.state.updateEntries (update.inputIndices ++ previous))))), ?_, ?_, hsections,
    hupdate.length.trans h.length, Or.inr ⟨update.state.updateEntries
      (update.inputIndices ++ previous), ⟨?_, hupdate.settled, ?_⟩, ?_⟩⟩
  · rw [writeMetadataUpdateForInputs, if_neg hsections, hprevious, ok_bind, hrender]
    rfl
  · rw [files_install_of_ne _ _ (by decide), h.index]
  · exact files_install_self _ _ _
  · exact fun e he => mem_updateEntries he
  · intro i hi
    rw [hindices, mem_append, not_or] at hi
    exact (hupdate.unchanged i hi.1).trans (hothers i hi.2)

/-- **A run of updates keeps the invariant.** -/
theorem Kept.run : ∀ {updates : List MetadataUpdate} {dir : StateDir} {latest : PersistedState},
    Kept blake3Hex first index dir latest → FollowingUpdates blake3Hex latest updates →
    ∃ dir', runUpdates env blake3Hex dir updates = .ok dir'
      ∧ Kept blake3Hex first index dir' (latestState latest updates) := by
  intro updates
  induction updates with
  | nil =>
    intro dir latest h _
    exact ⟨dir, rfl, h⟩
  | cons update updates ih =>
    intro dir latest h hfollowing
    obtain ⟨hupdate, hrest⟩ := hfollowing
    obtain ⟨dir', hwrite, hkept⟩ := h.step hupdate
    obtain ⟨dir'', hrun, hfinal⟩ := ih hkept hrest
    refine ⟨dir'', ?_, hfinal⟩
    rw [runUpdates, foldlM_cons, hwrite, ok_bind]
    exact hrun

end Run

/-! ## 4. Reading it all back -/

/-- The files that `write_index` names for a state. -/
def PersistedState.indexFiles (state : PersistedState) : IndexFiles where
  sectionsFile := state.sectionsFile.getD Srs.Incremental.sectionsFile
  patchRecordsFile := state.patchRecordsFile
  locations := state.patchRecordLocations
  raw := state.rawPatchRecordLocations
  machoFile := state.machoSymbolResolutionsFile
  indexedMachoFile := state.indexedMachoSymbolResolutionsFile

/-- The reader returns the latest state where updates can change a state, and the first state
elsewhere. -/
structure Reproduced (blake3Hex : Bytes → Text) (mode : PatchSectionReadMode)
    (first latest read : PersistedState) : Prop where
  linkStart : read.linkStart = latest.linkStart
  output : read.output = latest.output
  buildIdHashes : read.buildIdHashes = latest.buildIdHashes
  machoFile : read.machoSymbolResolutionsFile = latest.machoSymbolResolutionsFile
  reservedRanges : read.reservedRanges = latest.reservedRanges
  overridesFile : read.recordOverridesFile = latest.recordOverridesFile
  overrideInputs : read.recordOverrideInputs = latest.recordOverrideInputs
  inputFiles : Forall₂ (ReadBack blake3Hex mode) latest.inputFiles read.inputFiles
  argsHash : read.argsHash = first.argsHash
  linkOptionsHash : read.linkOptionsHash = first.linkOptionsHash
  inputOrderHash : read.inputOrderHash = first.inputOrderHash
  sldVersion : read.sldVersion = first.sldVersion
  sectionsFile : read.sectionsFile = first.sectionsFile
  patchRecordsFile : read.patchRecordsFile = first.patchRecordsFile
  indexedMachoFile :
    read.indexedMachoSymbolResolutionsFile = first.indexedMachoSymbolResolutionsFile

variable {α β : Type} {R : α → β → Prop} {l : List α} {l' : List β}

/-- Inputs that read back one by one, given by their positions. -/
theorem forall₂_of_getElem?
    (hlength : l.length = l'.length)
    (h : ∀ (i : Nat) a b, l[i]? = some a → l'[i]? = some b → R a b) : Forall₂ R l l' := by
  rw [forall₂_iff_get]
  refine ⟨hlength, ?_⟩
  intro i hi hi'
  exact h i _ _ (getElem?_eq_getElem hi) (getElem?_eq_getElem hi')

theorem forall₂_getElem?
    (h : Forall₂ R l l') {i : Nat} {a : α} {b : β} (ha : l[i]? = some a)
    (hb : l'[i]? = some b) : R a b := by
  obtain ⟨hi, rfl⟩ := List.getElem?_eq_some_iff.mp ha
  obtain ⟨hi', rfl⟩ := List.getElem?_eq_some_iff.mp hb
  exact (forall₂_iff_get.mp h).2 i hi hi'

section Read

variable {blake3Hex : Bytes → Text} {first latest base : PersistedState} {index : Bytes}
  {dir : StateDir} {mode : PatchSectionReadMode}

/-- The update, applied to what the index was read as, gives the latest state. -/
theorem Kept.apply (h : Kept blake3Hex first index dir latest)
    (hsections : first.sectionsFile ≠ none) (hsettled : first.Settled blake3Hex)
    (hoverrides : first.recordOverrideInputs = [])
    (hbase : IndexRead blake3Hex mode first first.indexFiles base) :
    ∃ read, base.applyMetadataUpdate blake3Hex dir mode = .ok read
      ∧ Reproduced blake3Hex mode first latest read := by
  obtain ⟨sectionsFile, hfile⟩ := ne_none_iff_exists'.mp hsections
  have hbaseSections : base.sectionsFile = first.sectionsFile := by
    rw [hbase.sectionsFile, indexFiles, hfile]
    rfl
  have hargs := congrArg IndexHeader.argsHash hbase.header
  have hoptions := congrArg IndexHeader.linkOptionsHash hbase.header
  have horder := congrArg IndexHeader.inputOrderHash hbase.header
  have hversion := congrArg IndexHeader.sldVersion hbase.header
  rcases h.update with ⟨hnone, rfl⟩ | ⟨entries, hholds, hothers⟩
  · refine ⟨base, applyMetadataUpdate_none hnone base mode, ?_⟩
    exact ⟨congrArg IndexHeader.linkStart hbase.header, congrArg IndexHeader.output hbase.header,
      congrArg IndexHeader.buildIdHashes hbase.header, hbase.machoFile, hbase.reservedRanges,
      hbase.overridesFile.trans (hsettled.overridesUsed hoverrides).symm,
      hbase.overrideInputs.trans hoverrides.symm, hbase.inputFiles, hargs, hoptions, horder,
      hversion, hbaseSections, hbase.patchRecordsFile, hbase.indexedMachoFile⟩
  · have hlength : base.inputFiles.length = latest.inputFiles.length := by
      rw [h.length, hbase.inputFiles.length_eq]
    have hbound : ∀ e ∈ entries, e.1 < base.inputFiles.length := by
      intro e he
      rw [hlength]
      exact (List.getElem?_eq_some_iff.mp (hholds.entries e he)).1
    obtain ⟨inputFiles, happly, hlen, hlisted, hrest⟩ := hholds.apply hbound mode
    refine ⟨_, happly, rfl, rfl, rfl, rfl, rfl, rfl, rfl, ?_, hargs, hoptions, horder, hversion,
      hbaseSections, hbase.patchRecordsFile, hbase.indexedMachoFile⟩
    refine forall₂_of_getElem? (by rw [hlen, hlength]) ?_
    intro i input read hinput hread
    by_cases hi : i ∈ entries.map Prod.fst
    · obtain ⟨input', read', hinput', hread', hback⟩ := hlisted i hi
      rw [hinput] at hinput'
      rw [hread] at hread'
      cases hinput'
      cases hread'
      exact hback
    · -- an input that no update listed is still the one of the index
      have hsame := hothers i hi
      rw [hinput, map_some] at hsame
      obtain ⟨original, horiginal, horaw⟩ := map_eq_some_iff.mp hsame.symm
      rw [hrest i hi] at hread
      have hback := forall₂_getElem? hbase.inputFiles horiginal hread
      exact .of_asRaw_eq hback.readable (hback.same.trans horaw)

end Read

/-- Writing an index installs it and removes the update. -/
theorem files_writeIndexWithSectionsFiles (state : PersistedState) (dir : StateDir)
    (files : IndexFiles) {dir' : StateDir}
    (h : dir' = state.writeIndexWithSectionsFiles dir files.sectionsFile files.patchRecordsFile
      files.locations files.raw files.machoFile files.indexedMachoFile) :
    dir'.files indexFile = some (utf8 (state.renderIndex files.sectionsFile files.patchRecordsFile
        files.locations files.raw files.machoFile files.indexedMachoFile))
      ∧ dir'.files metadataUpdateFile = none := by
  subst h
  simp only [writeIndexWithSectionsFiles, remove]
  rw [Function.update_of_ne (by decide), files_install_self, Function.update_self]
  exact ⟨rfl, rfl⟩

/-- The directory after `write_index` of a state without overrides. -/
theorem kept_writeIndex {blake3Hex : Bytes → Text} (env : Sidecars) (dir : StateDir)
    {first : PersistedState} (hsections : first.sectionsFile ≠ none)
    (hoverrides : first.recordOverrideInputs = []) :
    ∃ dir', first.writeIndex env blake3Hex dir = .ok dir'
      ∧ Kept blake3Hex first (utf8 (first.renderIndex first.indexFiles.sectionsFile
          first.indexFiles.patchRecordsFile first.indexFiles.locations first.indexFiles.raw
          first.indexFiles.machoFile first.indexFiles.indexedMachoFile)) dir' first := by
  obtain ⟨dir', hdir⟩ : ∃ dir', dir' = first.writeIndexWithSectionsFiles dir
      first.indexFiles.sectionsFile first.indexFiles.patchRecordsFile first.indexFiles.locations
      first.indexFiles.raw first.indexFiles.machoFile first.indexFiles.indexedMachoFile := ⟨_, rfl⟩
  obtain ⟨hindex, hupdate⟩ := files_writeIndexWithSectionsFiles first dir first.indexFiles hdir
  refine ⟨dir', ?_, hindex, hsections, rfl, Or.inl ⟨hupdate, rfl⟩⟩
  rw [writeIndex, if_neg (not_not_intro hoverrides), hdir]
  rfl

/-- **The index and the last update reproduce the latest state.**  After the index of a state
without overrides and any number of updates, each of which changed the fields of an update and
the inputs it was passed, reading the index and applying the last update gives the latest state:
its fields, and all its inputs, those changed by an earlier update only included. -/
theorem updates_reproduce_latest_state (env : Sidecars) (blake3Hex : Bytes → Text)
    (dir : StateDir) (first : PersistedState) (hsettled : first.Settled blake3Hex)
    (hheader : first.HeaderSettled) (hfiles : first.indexFiles.Settled)
    (hsections : first.sectionsFile ≠ none) (hoverrides : first.recordOverrideInputs = [])
    (updates : List MetadataUpdate) (hupdates : FollowingUpdates blake3Hex first updates)
    (mode : PatchSectionReadMode) (parseLocations : Bool)
    (loadSections : Text → Result (Option Text))
    (hload : first.indexFiles.Loads loadSections first.reservedRanges) :
    ∃ dir₁ dir₂ read, first.writeIndex env blake3Hex dir = .ok dir₁
      ∧ runUpdates env blake3Hex dir₁ updates = .ok dir₂
      ∧ PersistedState.readIndexAndUpdate blake3Hex dir₂ mode parseLocations loadSections
        = .ok (some read)
      ∧ Reproduced blake3Hex mode first (latestState first updates) read := by
  obtain ⟨dir₁, hwrite, hkept⟩ := @kept_writeIndex blake3Hex env dir first hsections hoverrides
  obtain ⟨dir₂, hrun, hkept'⟩ := @Kept.run env _ _ _ updates dir₁ first hkept hupdates
  obtain ⟨base, hparse, hbase⟩ :=
    parseWithSectionLoader_render hsettled hheader hfiles mode parseLocations hload
  obtain ⟨read, happly, hread⟩ := hkept'.apply hsections hsettled hoverrides hbase
  refine ⟨dir₁, dir₂, read, hwrite, hrun, ?_, hread⟩
  rw [readIndexAndUpdate, readToString_utf8 hkept'.index, ok_bind]
  simp only [hparse, happly, ok_bind]
  rfl

/-- An object file whose bytes have the given length. -/
def exampleObject (path : String) (len : UInt64) : FileState where
  path := hexEncode (utf8 path.toList)
  content := ⟨len, exampleDigest, none⟩
  snapshotIdentity := none
  rustcLinkContentDigest := none
  rustcRawObjectManifest := none
  patch := none

theorem readable_exampleObject (blake3Hex : Bytes → Text) (mode : PatchSectionReadMode)
    (path : String) (len : UInt64) : (exampleObject path len).Readable blake3Hex mode where
  path := plainText_hexEncode _
  hash := (cleanText_digest (by decide : isBlake3HexDigest exampleDigest = true)).1
  digest := by simp [exampleObject]
  manifest := by simp [exampleObject]
  patch := by simp [exampleObject]

/-- A state of two object files, with or without a sections sidecar and overrides. -/
def exampleLink (sectionsFile : Option Text) (overrides : List Text) (a b : UInt64) :
    PersistedState where
  sections := []
  relocations := []
  fdes := []
  dynamicRelocations := []
  sectionsFile := sectionsFile
  recordOverrideInputs := overrides
  argsHash := exampleDigest
  linkOptionsHash := some exampleDigest
  inputOrderHash := some exampleDigest
  sldVersion := some "1.0".toList
  linkStart := none
  output := ⟨64, exampleDigest, none⟩
  buildIdHashes := some ⟨64, 1, none⟩
  inputFiles := [exampleObject "a" a, exampleObject "b" b]
  reservedRanges := []

theorem settled_exampleLink (blake3Hex : Bytes → Text) (sectionsFile : Option Text)
    {overrides : List Text} (hlines : ∀ file ∈ overrides, IsLine file)
    (hsorted : IsSorted overrides) (hdistinct : NoRepeats overrides) (a b : UInt64) :
    (exampleLink sectionsFile overrides a b).Settled blake3Hex := by
  refine ⟨(cleanText_digest (by decide : isBlake3HexDigest exampleDigest = true)).1, ?_,
    by simp [exampleLink], ?_, by simp [exampleLink], hlines, hsorted, hdistinct, fun _ => rfl, ?_⟩
  · intro s hs
    cases hs
    exact ⟨by decide, by simp⟩
  · exact ⟨by simp [exampleLink], by simp [exampleLink], by simp [exampleLink], by simp [exampleLink]⟩
  · intro input hinput
    simp only [exampleLink, mem_cons, not_mem_nil, or_false] at hinput
    rcases hinput with rfl | rfl
    · exact (readable_exampleObject blake3Hex .parse _ _).settled
    · exact (readable_exampleObject blake3Hex .parse _ _).settled

theorem headerSettled_exampleLink (sectionsFile : Option Text) (overrides : List Text)
    (a b : UInt64) : (exampleLink sectionsFile overrides a b).HeaderSettled := by
  have hdigest : IsLine exampleDigest := by decide
  exact ⟨hdigest, ⟨_, rfl, hdigest⟩, ⟨_, rfl, hdigest⟩, ⟨_, rfl, by decide⟩⟩

theorem settled_exampleFiles {sectionsFile : Text}
    (h : SidecarName validateSectionsFileName sectionsFile) (patchRecordsFile : Option Text)
    (hpatch : ∀ file ∈ patchRecordsFile, file = sectionsFile) :
    (IndexFiles.mk sectionsFile patchRecordsFile [] none none none).Settled := by
  refine ⟨h, ?_, by simp, by simp, [], by simp, rfl⟩
  intro file hfile
  rw [hpatch file hfile]
  exact h

/-- Without a loader the sections sidecar of an index is not read. -/
theorem loads_none (files : IndexFiles) : files.Loads (fun _ => .ok none) [] :=
  fun _ => ⟨{}, rfl, rfl⟩

/-- The first update changes `a`, the second changes `b` and overrides its records: the length
that the first update gave to `a` is still there. -/
theorem updates_reproduce_latest_state_two_inputs :
    let first := exampleLink (some sectionsFile) [] 1 2
    let updates : List MetadataUpdate := [⟨exampleLink (some sectionsFile) [] 3 2, [0]⟩,
      ⟨exampleLink (some sectionsFile) ["62".toList] 3 4, [1]⟩]
    ∃ dir₁ dir₂ read, first.writeIndex plainSidecars hexEncode ⟨"state", fun _ => none⟩ = .ok dir₁
      ∧ runUpdates plainSidecars hexEncode dir₁ updates = .ok dir₂
      ∧ readIndexAndUpdate hexEncode dir₂ .parse true (fun _ => .ok none)
        = .ok (some read)
      ∧ read.inputFiles = [exampleObject "a" 3, exampleObject "b" 4]
      ∧ read.recordOverrideInputs = ["62".toList] := by
  intro first updates
  have hfollowing : FollowingUpdates hexEncode first updates := by
    refine ⟨⟨?_, rfl, rfl, by simp [exampleLink], ?_⟩, ⟨?_, rfl, rfl, by simp [exampleLink], ?_⟩,
      trivial⟩
    · exact settled_exampleLink _ _ (by simp) (by decide) (by decide) _ _
    · rintro (_ | _ | i) hi
      · exact absurd hi (by simp)
      · rfl
      · rfl
    · exact settled_exampleLink _ _ (by decide) (by decide) (by decide) _ _
    · rintro (_ | _ | i) hi
      · rfl
      · exact absurd hi (by simp)
      · rfl
  obtain ⟨dir₁, dir₂, read, hwrite, hrun, hread, hreproduced⟩ := updates_reproduce_latest_state
    plainSidecars hexEncode ⟨"state", fun _ => none⟩ first
    (settled_exampleLink _ _ (by simp) (by decide) (by decide) _ _)
    (headerSettled_exampleLink _ _ _ _)
    (settled_exampleFiles ⟨by decide, failIf_eq_ok.mpr (by decide)⟩ none (by simp))
    (by simp [first, exampleLink]) rfl updates hfollowing .parse true (fun _ => .ok none)
    (loads_none _)
  refine ⟨dir₁, dir₂, read, hwrite, hrun, hread, ?_, hreproduced.overrideInputs⟩
  have hinputs : Forall₂ (ReadBack hexEncode .parse)
      [exampleObject "a" 3, exampleObject "b" 4] read.inputFiles := hreproduced.inputFiles
  generalize read.inputFiles = inputs at hinputs
  cases hinputs with
  | cons ha hrest =>
    cases hrest with
    | cons hb hnil =>
      cases hnil
      rw [ha.exact (readable_exampleObject _ _ _ _), hb.exact (readable_exampleObject _ _ _ _)]

/-- A state without a sections sidecar is written whole, and a whole index has no overrides; and
a state with overrides is written as an update by `write_index`, also where there is no index
yet. -/
theorem overrides_without_a_base_are_lost :
    (∃ dir₁ dir₂ read,
      (exampleLink none [] 1 2).writeIndex plainSidecars hexEncode ⟨"state", fun _ => none⟩
        = .ok dir₁
      ∧ runUpdates plainSidecars hexEncode dir₁ [⟨exampleLink none ["62".toList] 1 2, []⟩]
        = .ok dir₂
      ∧ PersistedState.readIndexAndUpdate hexEncode dir₂ .parse true (fun _ => .ok none)
        = .ok (some read)
      ∧ read.recordOverrideInputs ≠ (exampleLink none ["62".toList] 1 2).recordOverrideInputs)
    ∧ ∃ dir, (exampleLink (some sectionsFile) ["62".toList] 1 2).writeIndex plainSidecars hexEncode
        ⟨"state", fun _ => none⟩ = .ok dir
      ∧ dir.files indexFile = none := by
  constructor
  · have hsettled : (exampleLink none ["62".toList] 1 2).Settled hexEncode :=
      settled_exampleLink _ _ (by decide) (by decide) (by decide) _ _
    obtain ⟨dir₁, hwrite⟩ : ∃ dir₁, (exampleLink none [] 1 2).writeIndex plainSidecars hexEncode
        ⟨"state", fun _ => none⟩ = .ok dir₁ := ⟨_, rfl⟩
    obtain ⟨dir₂, hdir⟩ : ∃ dir₂, dir₂ = (exampleLink none ["62".toList] 1 2).writeIndexWithSectionsFiles
        (dir₁.install compressedSectionsFilePrefix []) compressedSectionsFilePrefix
        (some compressedSectionsFilePrefix) [] none none none := ⟨_, rfl⟩
    obtain ⟨hindex, hupdate⟩ := files_writeIndexWithSectionsFiles _ _
      ⟨compressedSectionsFilePrefix, some compressedSectionsFilePrefix, [], none, none, none⟩ hdir
    obtain ⟨read, hparse, hread⟩ := parseWithSectionLoader_render hsettled
      (headerSettled_exampleLink _ _ _ _) (@settled_exampleFiles compressedSectionsFilePrefix
        ⟨by decide, failIf_eq_ok.mpr (by decide)⟩ (some compressedSectionsFilePrefix) (by simp))
      .parse true (loads_none _)
    have hstep : (exampleLink none ["62".toList] 1 2).writeMetadataUpdateForInputs plainSidecars
        hexEncode dir₁ [] = .ok dir₂ := by
      have hnone : (exampleLink none ["62".toList] 1 2).sectionsFile = none := rfl
      rw [writeMetadataUpdateForInputs, if_pos hnone, hdir]
      rfl
    refine ⟨dir₁, dir₂, read, hwrite, ?_, ?_, ?_⟩
    · rw [runUpdates, foldlM_cons]
      simp only [hstep]
      rfl
    · rw [readIndexAndUpdate, readToString_utf8 hindex, ok_bind]
      simp only [hparse, ok_bind, applyMetadataUpdate_none hupdate]
      rfl
    · rw [hread.overrideInputs]
      exact (cons_ne_nil _ _).symm
  · obtain ⟨update, hrender⟩ : ∃ update,
        (exampleLink (some sectionsFile) ["62".toList] 1 2).renderMetadataUpdate ([0, 1] ++ [])
          = .ok update := ⟨_, (renderMetadataUpdate_ok (by simp [exampleLink])).1⟩
    have hwrite : (exampleLink (some sectionsFile) ["62".toList] 1 2).writeIndex plainSidecars
        hexEncode ⟨"state", fun _ => none⟩ = .ok (install ⟨"state", fun _ => none⟩
          metadataUpdateFile (utf8 (unlines update))) := by
      rw [writeIndex, if_pos (by simp [exampleLink])]
      exact congrArg (fun update : Result (List Text) => update >>= fun update =>
        .ok (install ⟨"state", fun _ => none⟩ metadataUpdateFile (utf8 (unlines update))))
        hrender
    exact ⟨_, hwrite, files_install_of_ne _ _ (by decide)⟩

end Srs.Incremental
