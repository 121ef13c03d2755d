/-
# Input files and their groups

`SymbolDb` as far as the selection of archive entries needs it: the parsed inputs with their
symbols, and the groups `add_inputs` puts them into.  Every file gets the symbol ids that follow
those of the file before it (`Db.tiled`): that is what the slices of the definitions vector are cut
by.  `SymbolId::add_usize` panics beyond 32 bits; ids only grow, so that the last id decides.
-/
import Srs.Lib.Bytes
import Srs.Lib.Tiling
import Srs.Layout.Traversal

namespace Srs.Resolution

open Tiling List
open Srs.Layout (SymbolPlacement)

/-! ## 1. Parsed inputs -/

/-- The id of a symbol; 0 is that of the undefined symbol. -/
abbrev SymbolId := Nat

abbrev SymbolIdRange := Tiling.Range

structure FileId where
  group : Nat
  file : Nat
  deriving DecidableEq

def preludeFileId : FileId := ⟨0, 0⟩

/-- The version of a symbol by its index. -/
abbrev VerneedTable := Nat → Option Bytes

/-- What the formats of object files differ in. -/
structure Platform where
  /-- `PreHashedSymbolName` -/
  Name : Type
  /-- `raw_symbol_name` -/
  rawSymbolName : Bytes → VerneedTable → Nat → Name

/-- A symbol of an object; the name may not be readable. -/
structure ObjectSymbol where
  name : Option Bytes
  isUndefined : Bool
  isLocal : Bool
  isInterposable : Bool
  isWeak : Bool
  isHidden : Bool
  deriving DecidableEq

structure ParsedInputObject where
  symbols : List ObjectSymbol
  /-- `verneed_table()`, which may fail -/
  verneedTable : Option VerneedTable
  numSections : Nat
  isDynamic : Bool
  hasArchiveSemantics : Bool
  wholeArchive : Bool
  asNeeded : Bool

structure SequencedInputObject where
  parsed : ParsedInputObject
  symbolIdRange : SymbolIdRange
  sectionIdRange : Tiling.Range
  fileId : FileId

/-- `SequencedInputObject::is_optional` -/
def SequencedInputObject.isOptional (o : SequencedInputObject) : Bool :=
  (o.parsed.hasArchiveSemantics && !o.parsed.wholeArchive)
    || (o.parsed.isDynamic && o.parsed.asNeeded)

/-- A linker script, by the names it defines. -/
structure ProcessedLinkerScript where
  symbolDefs : List Bytes
  deriving DecidableEq

structure SequencedLinkerScript where
  parsed : ProcessedLinkerScript
  symbolIdRange : SymbolIdRange
  fileId : FileId
  deriving DecidableEq

structure PluginSymbol (P : Platform) where
  name : P.Name
  isDefinition : Bool
  isWeakUndef : Bool
  defaultVisibility : Bool

structure LtoInputInfo (P : Platform) where
  symbols : List (PluginSymbol P)
  hasArchiveSemantics : Bool
  wholeArchive : Bool

structure LtoInput (P : Platform) where
  info : LtoInputInfo P
  symbolIdRange : SymbolIdRange
  fileId : FileId

/-- `LtoInput::is_optional` -/
def LtoInput.isOptional {P : Platform} (o : LtoInput P) : Bool :=
  o.info.hasArchiveSemantics && !o.info.wholeArchive

structure InternalSymDefInfo where
  placement : SymbolPlacement
  name : Bytes
  deriving DecidableEq

structure Prelude where
  symbolDefinitions : List InternalSymDefInfo
  deriving DecidableEq

/-! ## 2. Groups -/

inductive Group (P : Platform) where
  | prelude (prelude : Prelude)
  | objects (objects : List SequencedInputObject)
  | linkerScripts (scripts : List SequencedLinkerScript)
  | syntheticSymbols (symbolIdRange : SymbolIdRange)
  | ltoInputs (objects : List (LtoInput P))

namespace Group

variable {P : Platform}

/-- The symbol ids of each file. -/
def ranges : Group P → List SymbolIdRange
  | prelude p => [⟨0, p.symbolDefinitions.length⟩]
  | objects os => os.map (·.symbolIdRange)
  | linkerScripts ss => ss.map (·.symbolIdRange)
  | syntheticSymbols r => [r]
  | ltoInputs os => os.map (·.symbolIdRange)

/-- From the first file to the last. -/
def coveringAll : List SymbolIdRange → SymbolIdRange
  | [] => ⟨0, 0⟩
  | r :: rs => Range.covering r ((r :: rs).getLast (cons_ne_nil r rs))

/-- `Group::symbol_id_range` -/
def symbolIdRange : Group P → SymbolIdRange
  | prelude p => ⟨0, p.symbolDefinitions.length⟩
  | objects os => coveringAll (os.map (·.symbolIdRange))
  | linkerScripts ss => coveringAll (ss.map (·.symbolIdRange))
  | syntheticSymbols r => r
  | ltoInputs os => coveringAll (os.map (·.symbolIdRange))

/-- `Group::num_symbols` -/
def numSymbols (g : Group P) : Nat := g.symbolIdRange.len

end Group

/-- `SymbolDb::next_symbol_id` -/
def nextSymbolId {P : Platform} (groups : List (Group P)) : SymbolId :=
  match groups.getLast? with
  | none => 0
  | some g => g.symbolIdRange.start + g.symbolIdRange.len

/-! ## 3. Adding inputs -/

/-- The limits of a group of objects, which depend on the arguments and on how many symbols there
are. -/
structure GroupLimits where
  maxFilesPerGroup : Nat
  symbolsPerGroup : Nat

/-- The group has the maximal number of files, this was the last file, or the next one has too
many symbols. -/
def GroupLimits.finishGroup (limits : GroupLimits) (numFiles numSymbolsInGroup : Nat)
    (rest : List ParsedInputObject) : Bool :=
  decide (limits.maxFilesPerGroup ≤ numFiles)
    || rest.head?.all fun next =>
      decide (limits.symbolsPerGroup < numSymbolsInGroup + next.symbols.length)

/-- The sections of shared objects are not copied. -/
def ParsedInputObject.sectionCount (parsed : ParsedInputObject) : Nat :=
  if parsed.isDynamic then 0 else parsed.numSections

/-- The loop of `create_groups` over the objects: `groupObjects` is the group that is being
filled. -/
def createObjectGroups (P : Platform) (limits : GroupLimits) :
    List ParsedInputObject → Nat → List SequencedInputObject → Nat → SymbolId → Nat →
      List (Group P) × SymbolId × Nat
  | [], _, _, _, nextSymbolId, nextSectionId => ([], nextSymbolId, nextSectionId)
  | parsed :: rest, groupIndex, groupObjects, numSymbolsInGroup, nextSymbolId, nextSectionId =>
    let numSymbols := parsed.symbols.length
    let object : SequencedInputObject :=
      ⟨parsed, ⟨nextSymbolId, numSymbols⟩, ⟨nextSectionId, parsed.sectionCount⟩,
        ⟨groupIndex, groupObjects.length⟩⟩
    let groupObjects := groupObjects ++ [object]
    let numSymbolsInGroup := numSymbolsInGroup + numSymbols
    if limits.finishGroup groupObjects.length numSymbolsInGroup rest then
      let more := createObjectGroups P limits rest (groupIndex + 1) [] 0 (nextSymbolId + numSymbols)
        (nextSectionId + parsed.sectionCount)
      (.objects groupObjects :: more.1, more.2)
    else
      createObjectGroups P limits rest groupIndex groupObjects numSymbolsInGroup
        (nextSymbolId + numSymbols) (nextSectionId + parsed.sectionCount)

/-- Linker scripts and the ids of their symbols. -/
def sequenceScripts (groupIndex : Nat) :
    List ProcessedLinkerScript → Nat → SymbolId → List SequencedLinkerScript
  | [], _, _ => []
  | script :: rest, i, nextSymbolId =>
    ⟨script, ⟨nextSymbolId, script.symbolDefs.length⟩, ⟨groupIndex, i⟩⟩
      :: sequenceScripts groupIndex rest (i + 1) (nextSymbolId + script.symbolDefs.length)

def sequenceLto {P : Platform} (groupIndex : Nat) :
    List (LtoInputInfo P) → Nat → SymbolId → List (LtoInput P)
  | [], _, _ => []
  | info :: rest, i, nextSymbolId =>
    ⟨info, ⟨nextSymbolId, info.symbols.length⟩, ⟨groupIndex, i⟩⟩
      :: sequenceLto groupIndex rest (i + 1) (nextSymbolId + info.symbols.length)

/-- The part of `SymbolDb` that grows with the inputs. -/
structure Db (P : Platform) where
  groups : List (Group P)
  nextInputSectionId : Nat

structure LoadedInputs (P : Platform) where
  objects : List ParsedInputObject
  linkerScripts : List ProcessedLinkerScript
  ltoObjects : List (LtoInputInfo P)

def maxFilesPerGroup : Nat := 2 ^ 8

section

variable {P : Platform}

/-- `create_groups` -/
def createGroups (limits : GroupLimits) (db : Db P) (objects : List ParsedInputObject)
    (linkerScripts : List ProcessedLinkerScript) : Db P :=
  let made := createObjectGroups P limits objects db.groups.length [] 0 (nextSymbolId db.groups)
    db.nextInputSectionId
  let groups := db.groups ++ made.1
  let scripts := sequenceScripts groups.length linkerScripts 0 made.2.1
  ⟨if scripts.isEmpty then groups else groups ++ [.linkerScripts scripts], made.2.2⟩

/-- One group of `create_lto_input_groups`. -/
def pushLtoGroup (groups : List (Group P)) (objects : List (LtoInputInfo P)) : List (Group P) :=
  groups ++ [.ltoInputs (sequenceLto groups.length objects 0 (nextSymbolId groups))]

def createLtoInputGroups (groups : List (Group P)) (objects : List (LtoInputInfo P)) :
    List (Group P) :=
  (chunks maxFilesPerGroup objects).foldl pushLtoGroup groups

/-- The first group is the prelude. -/
def pushPrelude (prelude : Prelude) (db : Db P) : Db P :=
  if db.groups.isEmpty then { db with groups := [.prelude prelude] } else db

/-- `SymbolDb::add_inputs`, or `none` where the symbol ids overflow. -/
def addInputs (prelude : Prelude) (limits : GroupLimits) (db : Db P) (loaded : LoadedInputs P) :
    Option (Db P) :=
  let made := createGroups limits (pushPrelude prelude db) loaded.objects loaded.linkerScripts
  let groups := createLtoInputGroups made.groups loaded.ltoObjects
  if nextSymbolId groups < 2 ^ 32 then some { made with groups := groups } else none

/-! ## 4. The ids of the files follow one another -/

/-- A group as inputs make them: not empty, and not that of the synthetic symbols, which is added
when all calls are over. -/
def Group.Proper : Group P → Prop
  | .syntheticSymbols _ => False
  | g => g.ranges ≠ []

variable {g : Group P} {start stop : Nat} {groups : List (Group P)} {db : Db P}

theorem Group.Proper.ne_nil (h : g.Proper) : g.ranges ≠ [] := by
  cases g with
  | syntheticSymbols r => exact h.elim
  | prelude p => exact h
  | objects os => exact h
  | linkerScripts ss => exact h
  | ltoInputs os => exact h

/-- The files of the groups have all ids up to the next one, in order. -/
structure Tiled (groups : List (Group P)) : Prop where
  tiles : Tiles 0 (groups.flatMap Group.ranges) (nextSymbolId groups)
  proper : ∀ g ∈ groups, g.Proper

theorem coveringAll_eq {rs : List SymbolIdRange} (h : Tiles start rs stop)
    (hne : rs ≠ []) : Group.coveringAll rs = ⟨start, stop - start⟩ := by
  cases rs with
  | nil => exact absurd rfl hne
  | cons r rs => exact h.covering_eq

/-- The range of a group is that of its files together. -/
theorem symbolIdRange_eq (h : Tiles start g.ranges stop)
    (hne : g.ranges ≠ []) : g.symbolIdRange = ⟨start, stop - start⟩ := by
  cases g with
  | prelude p =>
    obtain ⟨rfl, rfl⟩ := h
    simp [Group.symbolIdRange]
  | syntheticSymbols r =>
    obtain ⟨rfl, rfl⟩ := h
    simp [Group.symbolIdRange]
  | objects os => exact coveringAll_eq h hne
  | linkerScripts ss => exact coveringAll_eq h hne
  | ltoInputs os => exact coveringAll_eq h hne

theorem nextSymbolId_concat (h : Tiles start g.ranges stop) (hne : g.ranges ≠ []) :
    nextSymbolId (groups ++ [g]) = stop := by
  have hle := h.stop_eq
  rw [nextSymbolId, getLast?_concat]
  change g.symbolIdRange.start + g.symbolIdRange.len = stop
  rw [symbolIdRange_eq h hne]
  change start + (stop - start) = stop
  omega

/-- One more group. -/
theorem Tiled.concat {groups : List (Group P)} (h : Tiled groups) {stop : Nat} {g : Group P}
    (hg : Tiles (nextSymbolId groups) g.ranges stop) (hproper : g.Proper) :
    Tiled (groups ++ [g]) := by
  constructor
  · rw [flatMap_append, flatMap_singleton, nextSymbolId_concat hg hproper.ne_nil,
      tiles_append]
    exact ⟨_, h.tiles, hg⟩
  · intro g' hg'
    rcases mem_append.mp hg' with hold | hnew
    · exact h.proper g' hold
    · rw [mem_singleton.mp hnew]
      exact hproper

/-- Some more groups. -/
theorem Tiled.append {more : List (Group P)} (h : Tiled groups)
    (hmore : Tiles (nextSymbolId groups) (more.flatMap Group.ranges) stop)
    (hproper : ∀ g ∈ more, g.Proper) :
    Tiled (groups ++ more) ∧ nextSymbolId (groups ++ more) = stop := by
  induction more generalizing groups with
  | nil =>
    rw [append_nil]
    exact ⟨h, hmore⟩
  | cons g more ih =>
    rw [flatMap_cons, tiles_append] at hmore
    obtain ⟨mid, hg, hmore⟩ := hmore
    have hfirst := hproper g mem_cons_self
    have hconcat : nextSymbolId (groups ++ [g]) = mid := nextSymbolId_concat hg hfirst.ne_nil
    rw [append_cons]
    refine ih (h.concat hg hfirst) ?_ (fun g' hg' => hproper g' (mem_cons_of_mem g hg'))
    rw [hconcat]
    exact hmore

/-- What one round of the loop over the objects adds; the group that is being filled goes on from
where the groups end. -/
theorem createObjectGroups_tiles (limits : GroupLimits) {objects : List ParsedInputObject}
    {groupIndex numSymbolsInGroup nextId nextSectionId start : Nat}
    {groupObjects : List SequencedInputObject}
    (h : Tiles start (groupObjects.map (·.symbolIdRange)) nextId)
    (hlast : objects = [] → groupObjects = []) :
    Tiles start ((createObjectGroups P limits objects groupIndex groupObjects numSymbolsInGroup
        nextId nextSectionId).1.flatMap Group.ranges)
      (createObjectGroups P limits objects groupIndex groupObjects numSymbolsInGroup nextId
        nextSectionId).2.1 ∧
    ∀ g ∈ (createObjectGroups P limits objects groupIndex groupObjects numSymbolsInGroup nextId
      nextSectionId).1, g.Proper := by
  induction objects generalizing groupIndex groupObjects numSymbolsInGroup nextId nextSectionId
    start with
  | nil =>
    rw [hlast rfl] at h
    exact ⟨h, fun g hg => absurd hg not_mem_nil⟩
  | cons parsed rest ih =>
    -- the group with the new object
    have hgroup : ∀ object : SequencedInputObject,
        object.symbolIdRange = ⟨nextId, parsed.symbols.length⟩ →
        Tiles start ((groupObjects ++ [object]).map (·.symbolIdRange))
          (nextId + parsed.symbols.length) := by
      intro object hobject
      rw [map_append, map_singleton, hobject, tiles_append]
      exact ⟨nextId, h, rfl, rfl⟩
    generalize hmade : createObjectGroups P limits (parsed :: rest) groupIndex groupObjects
      numSymbolsInGroup nextId nextSectionId = made
    rw [createObjectGroups] at hmade
    simp only at hmade
    split at hmade
    · subst hmade
      obtain ⟨hrest, hproper⟩ := @ih (groupIndex + 1) 0 (nextId + parsed.symbols.length)
        (nextSectionId + parsed.sectionCount) (nextId + parsed.symbols.length) [] rfl (fun _ => rfl)
      refine ⟨?_, ?_⟩
      · rw [flatMap_cons, tiles_append]
        exact ⟨_, hgroup _ rfl, hrest⟩
      · intro g hg
        rcases mem_cons.mp hg with rfl | hg
        · simp [Group.Proper, Group.ranges]
        · exact hproper g hg
    · next hopen =>
      subst hmade
      refine ih (hgroup _ rfl) ?_
      rintro rfl
      simp [GroupLimits.finishGroup] at hopen

theorem sequenceScripts_tiles (groupIndex : Nat) (scripts : List ProcessedLinkerScript)
    (i nextId : Nat) :
    ∃ stop, Tiles nextId ((sequenceScripts groupIndex scripts i nextId).map (·.symbolIdRange))
      stop := by
  induction scripts generalizing i nextId with
  | nil => exact ⟨nextId, rfl⟩
  | cons script rest ih =>
    obtain ⟨stop, h⟩ := ih (i + 1) (nextId + script.symbolDefs.length)
    exact ⟨stop, rfl, h⟩

theorem sequenceLto_tiles (groupIndex : Nat) (objects : List (LtoInputInfo P)) (i nextId : Nat) :
    ∃ stop, Tiles nextId ((sequenceLto groupIndex objects i nextId).map (·.symbolIdRange))
      stop := by
  induction objects generalizing i nextId with
  | nil => exact ⟨nextId, rfl⟩
  | cons info rest ih =>
    obtain ⟨stop, h⟩ := ih (i + 1) (nextId + info.symbols.length)
    exact ⟨stop, rfl, h⟩

theorem createGroups_tiled (limits : GroupLimits) (h : Tiled db.groups)
    (objects : List ParsedInputObject) (linkerScripts : List ProcessedLinkerScript) :
    Tiled (createGroups limits db objects linkerScripts).groups := by
  obtain ⟨hmade, hproper⟩ := @createObjectGroups_tiles P limits objects db.groups.length 0
    (nextSymbolId db.groups) db.nextInputSectionId (nextSymbolId db.groups) [] rfl (fun _ => rfl)
  obtain ⟨htiled, hnext⟩ := h.append hmade hproper
  unfold createGroups
  simp only
  split
  · exact htiled
  · next hscripts =>
    obtain ⟨stop, hstop⟩ := sequenceScripts_tiles _ linkerScripts 0 _
    refine @Tiled.concat P _ htiled stop _ ?_ ?_
    · rw [hnext]
      exact hstop
    · simp only [Group.Proper, Group.ranges, ne_eq, map_eq_nil_iff]
      rwa [List.isEmpty_iff] at hscripts

theorem pushLtoGroup_tiled (h : Tiled groups)
    {objects : List (LtoInputInfo P)} (hne : objects ≠ []) :
    Tiled (pushLtoGroup groups objects) := by
  obtain ⟨stop, hstop⟩ := sequenceLto_tiles groups.length objects 0 (nextSymbolId groups)
  refine h.concat hstop ?_
  cases objects with
  | nil => exact absurd rfl hne
  | cons info rest => simp [Group.Proper, Group.ranges, sequenceLto]

theorem createLtoInputGroups_tiled (h : Tiled groups)
    (objects : List (LtoInputInfo P)) : Tiled (createLtoInputGroups groups objects) := by
  have hfold : ∀ (chunks : List (List (LtoInputInfo P))) {groups : List (Group P)},
      (∀ c ∈ chunks, c ≠ []) → Tiled groups → Tiled (chunks.foldl pushLtoGroup groups) := by
    intro chunks
    induction chunks with
    | nil => exact fun _ h => h
    | cons c chunks ih =>
      intro groups hne h
      exact ih (fun c' hc' => hne c' (mem_cons_of_mem c hc'))
        (pushLtoGroup_tiled h (hne c mem_cons_self))
  refine hfold _ ?_ h
  intro c hc
  exact ne_nil_of_mem_chunks (by decide) hc

theorem tiled_nil : Tiled ([] : List (Group P)) := ⟨rfl, fun _ hg => absurd hg not_mem_nil⟩

theorem pushPrelude_tiled (prelude : Prelude) (h : Tiled db.groups) :
    Tiled (pushPrelude prelude db).groups := by
  unfold pushPrelude
  split
  · have hprelude : Tiles (nextSymbolId ([] : List (Group P))) (Group.prelude prelude : Group P).ranges
        (0 + prelude.symbolDefinitions.length) := ⟨rfl, rfl⟩
    exact tiled_nil.concat hprelude (cons_ne_nil _ _)
  · exact h

variable {loaded : LoadedInputs P} {limits : GroupLimits} {prelude : Prelude} {db' : Db P}

/-- **Added inputs get the ids that follow.** -/
theorem addInputs_tiled
    (h : Tiled db.groups)
    (hadd : addInputs prelude limits db loaded = some db') : Tiled db'.groups := by
  unfold addInputs at hadd
  simp only at hadd
  split at hadd
  · cases hadd
    exact createLtoInputGroups_tiled (createGroups_tiled limits (pushPrelude_tiled prelude h) _ _) _
  · cases hadd

/-- The groups that were there stay. -/
theorem addInputs_extends (hadd : addInputs prelude limits db loaded = some db') :
    ∃ more, db'.groups = db.groups ++ more := by
  have hprelude : ∃ more, (pushPrelude prelude db).groups = db.groups ++ more := by
    unfold pushPrelude
    split
    · next hempty => exact ⟨[.prelude prelude], by rw [List.isEmpty_iff.mp hempty]; rfl⟩
    · exact ⟨[], (append_nil _).symm⟩
  have hcreate : ∀ db : Db P, ∃ more,
      (createGroups limits db loaded.objects loaded.linkerScripts).groups = db.groups ++ more := by
    intro db
    unfold createGroups
    simp only
    split
    · exact ⟨_, rfl⟩
    · exact ⟨_, List.append_assoc _ _ _⟩
  have hlto : ∀ (chunks : List (List (LtoInputInfo P))) (groups : List (Group P)),
      ∃ more, chunks.foldl pushLtoGroup groups = groups ++ more := by
    intro chunks
    induction chunks with
    | nil => exact fun groups => ⟨[], (append_nil _).symm⟩
    | cons c chunks ih =>
      intro groups
      obtain ⟨more, hmore⟩ := ih (pushLtoGroup groups c)
      exact ⟨_, hmore.trans (List.append_assoc _ _ _)⟩
  unfold addInputs at hadd
  simp only at hadd
  split at hadd
  · cases hadd
    obtain ⟨a, ha⟩ := hprelude
    obtain ⟨b, hb⟩ := hcreate (pushPrelude prelude db)
    obtain ⟨c, hc⟩ := hlto (chunks maxFilesPerGroup loaded.ltoObjects)
      (createGroups limits (pushPrelude prelude db) loaded.objects loaded.linkerScripts).groups
    refine ⟨a ++ (b ++ c), ?_⟩
    change foldl pushLtoGroup _ _ = _
    rw [hc, hb, ha, List.append_assoc, List.append_assoc]
  · cases hadd

end

end Srs.Resolution
