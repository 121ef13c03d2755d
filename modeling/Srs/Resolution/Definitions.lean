/-
# The definitions of each file

`resolve_symbols_and_select_archive_entries` cuts the vector with the definitions of all symbols
into a slice per file: for the groups of earlier calls by the ranges of the resolved files, for the
new ones in `resolve_group`.  The arm for linker scripts does not cut: what follows a linker script
that defines symbols gets the slices of those before it.  `NoGap` is when this does not matter, and
`slices_right_iff` that it is exactly then that every file gets its own slice.
-/
import Srs.Resolution.Groups

namespace Srs.Resolution

open Tiling List Option

variable {P : Platform}

/-! ## 1. Resolved files -/

/-- A file as an earlier call left it, by its symbols. -/
inductive ResolvedFile where
  | notLoaded (symbolIdRange : SymbolIdRange)
  | prelude (numSymbols : Nat)
  | object (symbolIdRange : SymbolIdRange)
  | dynamic (symbolIdRange : SymbolIdRange)
  | linkerScript (symbolIdRange : SymbolIdRange)
  | syntheticSymbols (startSymbolId : SymbolId) (numSymbols : Nat)
  | ltoInput (symbolIdRange : SymbolIdRange)
  deriving DecidableEq

/-- `ResolvedFile::symbol_id_range` -/
def ResolvedFile.symbolIdRange : ResolvedFile → SymbolIdRange
  | notLoaded r | object r | dynamic r | linkerScript r | ltoInput r => r
  | prelude n => ⟨0, n⟩
  | syntheticSymbols start n => ⟨start, n⟩

abbrev ResolvedGroup := List ResolvedFile

/-- What becomes of the slice of a file: its symbols are resolved at once, or it is kept in an
`AtomicTake` until the file is requested. -/
inductive Assigned where
  | handed (definitionsOut : Range)
  | stored (definitionsOut : Range)
  | empty
  deriving DecidableEq

def Assigned.slice? : Assigned → Option Range
  | handed r | stored r => some r
  | empty => none

/-! ## 2. Cutting the slices -/

/-- `split_off_mut(..n).unwrap()`, and what becomes of it. -/
def cutOne (n : Nat) (assign : Range → Assigned) (r : Range) :
    Option (Assigned × Range) :=
  (r.splitOff n).map fun p => (assign p.1, p.2)

/-- A file of an earlier call: only one that was not loaded may still be requested. -/
def cutResolved (file : ResolvedFile) (r : Range) : Option (Assigned × Range) :=
  cutOne file.symbolIdRange.len
    (fun definitions => match file with
      | .notLoaded _ => .stored definitions
      | _ => .empty) r

/-- What `export_list_roots_object` reads. -/
structure Exports where
  exportListRootsArchiveSymbols : Bool
  exportList : Option (Bytes → Bool)

/-- `export_list_roots_object` -/
def Exports.rootsObject (exports : Exports) (object : SequencedInputObject) : Bool :=
  exports.exportListRootsArchiveSymbols &&
    match exports.exportList with
    | none => false
    | some contains =>
      object.parsed.symbols.any fun symbol =>
        !(symbol.isUndefined || symbol.isLocal || symbol.isHidden) &&
          match symbol.name with
          | none => false
          | some name => contains name

/-- A slice that is kept or resolved at once. -/
def assignBy (optional : Bool) (definitionsOut : Range) : Assigned :=
  if optional then .stored definitionsOut else .handed definitionsOut

def cutObject (exports : Exports) (s : SequencedInputObject) (r : Range) :
    Option (Assigned × Range) :=
  cutOne s.symbolIdRange.len (assignBy (s.isOptional && !exports.rootsObject s)) r

def cutLtoInput (o : LtoInput P) (r : Range) : Option (Assigned × Range) :=
  cutOne o.symbolIdRange.len (assignBy o.isOptional) r

/-- The slices of `resolve_group`. -/
def resolveGroup (exports : Exports) (group : Group P) (r : Range) :
    Option (List Assigned × Range) :=
  match group with
  | .prelude prelude =>
    (cutOne prelude.symbolDefinitions.length .handed r).map fun p => ([p.1], p.2)
  | .objects objects => cutEach (cutObject exports) objects r
  | .linkerScripts scripts => some (scripts.map fun _ => .empty, r)
  | .syntheticSymbols _ => some ([.empty], r)
  | .ltoInputs objects => cutEach cutLtoInput objects r

/-- The files of `resolve_group`. -/
def resolvedGroup : Group P → ResolvedGroup
  | .prelude prelude => [.prelude prelude.symbolDefinitions.length]
  | .objects objects => objects.map fun s => .notLoaded s.symbolIdRange
  | .linkerScripts scripts => scripts.map fun s => .linkerScript s.symbolIdRange
  | .syntheticSymbols r => [.syntheticSymbols r.start 0]
  | .ltoInputs objects => objects.map fun o => .notLoaded o.symbolIdRange

/-- The length of the vector of definitions: `add_inputs` takes a shard of it for each group. -/
def numDefinitions (groups : List (Group P)) : Nat := (groups.map Group.numSymbols).sum

/-- The set-up of a call: `definitions_per_group_and_file`, with the slices that are handed out. -/
def setup (exports : Exports) (groups : List (Group P)) (resolved : List ResolvedGroup) :
    Option (List (List Assigned) × Range) :=
  (cutEach (cutEach cutResolved) resolved ⟨0, numDefinitions groups⟩).bind fun old =>
    (cutEach (resolveGroup exports) (groups.drop resolved.length) old.2).map fun new =>
      (old.1 ++ new.1, new.2)

/-! ## 3. Calls -/

/-- The symbol database and the resolver between calls. -/
structure Linker (P : Platform) where
  db : Db P
  resolvedGroups : List ResolvedGroup

/-- A file that was loaded, at its place. -/
def loadFile (group : Group P) (file : Nat) (old : ResolvedFile) : ResolvedFile :=
  match group with
  | .objects objects =>
    match objects[file]? with
    | some o => if o.parsed.isDynamic then .dynamic o.symbolIdRange else .object o.symbolIdRange
    | none => old
  | .ltoInputs objects =>
    match objects[file]? with
    | some o => .ltoInput o.symbolIdRange
    | none => old
  | _ => old

/-- The resolved groups after a call that loaded some files. -/
def gatherLoaded (groups : List (Group P)) (loaded : FileId → Bool)
    (resolved : List ResolvedGroup) : List ResolvedGroup :=
  resolved.mapIdx fun g files =>
    files.mapIdx fun k file =>
      match groups[g]? with
      | some group => if loaded ⟨g, k⟩ then loadFile group k file else file
      | none => file

/-- The linkers that come about by adding inputs and by calls, whatever these load. -/
inductive Reachable (exports : Exports) (prelude : Prelude) : Linker P → Prop where
  | init : Reachable exports prelude ⟨⟨[], 0⟩, []⟩
  | add {l : Linker P} {db : Db P} (limits : GroupLimits) (loaded : LoadedInputs P) :
      Reachable exports prelude l → addInputs prelude limits l.db loaded = some db →
      Reachable exports prelude { l with db := db }
  | resolve {l : Linker P} (loaded : FileId → Bool) :
      Reachable exports prelude l →
      (setup exports l.db.groups l.resolvedGroups).isSome →
      Reachable exports prelude { l with
        resolvedGroups := gatherLoaded l.db.groups loaded
          (l.resolvedGroups ++ (l.db.groups.drop l.resolvedGroups.length).map resolvedGroup) }

/-- A slice that is handed out or stored has the positions of its file's symbols. -/
def FileRight (range : SymbolIdRange) (a : Assigned) : Prop :=
  ∀ slice, a.slice? = some slice → ∀ i, slice.Covers i ↔ range.Covers i

/-- So have all slices. -/
def SlicesRight (groups : List (Group P)) (assigned : List (List Assigned)) : Prop :=
  Forall₂ (fun group files => Forall₂ FileRight group.ranges files) groups assigned

/-! ## 4. What a call cuts -/

theorem cutOne_eq {n : Nat} (assign : Range → Assigned) {r : Range} (h : n ≤ r.len) :
    cutOne n assign r = some (assign ⟨r.start, n⟩, ⟨r.start + n, r.len - n⟩) := by
  rw [cutOne, Range.splitOff_of_le h, map_some]

namespace Group

/-- How many definitions the arm for the group cuts. -/
def taken : Group P → Nat
  | prelude p => p.symbolDefinitions.length
  | objects os => (os.map (·.symbolIdRange.len)).sum
  | ltoInputs os => (os.map (·.symbolIdRange.len)).sum
  | linkerScripts _ | syntheticSymbols _ => 0

/-- How many definitions of the group's files are left to those that follow. -/
def unclaimed : Group P → Nat
  | linkerScripts ss => (ss.map (·.symbolIdRange.len)).sum
  | syntheticSymbols r => r.len
  | _ => 0

/-- The slices of a group's files, from some place on. -/
def assign (exports : Exports) (group : Group P) (start : Nat) : List Assigned :=
  match group with
  | prelude p => [.handed ⟨start, p.symbolDefinitions.length⟩]
  | objects os =>
    layEach (·.symbolIdRange.len) (fun s start =>
      assignBy (s.isOptional && !exports.rootsObject s) ⟨start, s.symbolIdRange.len⟩) start os
  | linkerScripts ss => ss.map fun _ => .empty
  | syntheticSymbols _ => [.empty]
  | ltoInputs os =>
    layEach (·.symbolIdRange.len) (fun o start =>
      assignBy o.isOptional ⟨start, o.symbolIdRange.len⟩) start os

theorem taken_add_unclaimed (g : Group P) : g.taken + g.unclaimed = total g.ranges := by
  cases g with
  | prelude p => rfl
  | objects os => simp [taken, unclaimed, ranges, total, Function.comp_def]
  | linkerScripts ss => simp [taken, unclaimed, ranges, total, Function.comp_def]
  | syntheticSymbols r => simp [taken, unclaimed, ranges, total]
  | ltoInputs os => simp [taken, unclaimed, ranges, total, Function.comp_def]

end Group

theorem resolveGroup_eq (exports : Exports) (g : Group P) {r : Range} (h : g.taken ≤ r.len) :
    resolveGroup exports g r
      = some (g.assign exports r.start, ⟨r.start + g.taken, r.len - g.taken⟩) := by
  cases g with
  | prelude p =>
    have hcut := @cutOne_eq p.symbolDefinitions.length .handed r h
    rw [resolveGroup, hcut]
    rfl
  | objects os => exact cutEach_eq (fun s r hle => cutOne_eq _ hle) os r h
  | linkerScripts ss => rfl
  | syntheticSymbols r => rfl
  | ltoInputs os => exact cutEach_eq (fun o r hle => cutOne_eq _ hle) os r h

/-! ## 5. Which slices are right -/

variable {start stop shift : Nat} {groups : List (Group P)} {l : Linker P}

/-- A slice of the right length is right where it starts right, or where it is empty. -/
theorem fileRight_iff {range : SymbolIdRange} {a : Assigned}
    (ha : a.slice? = some ⟨start, range.len⟩) :
    FileRight range a ↔ start = range.start ∨ range.len = 0 := by
  rw [← Range.covers_iff_covers]
  constructor
  · intro h
    exact h _ ha
  · intro h slice hslice
    cases ha.symm.trans hslice
    exact h

theorem slice?_assignBy (optional : Bool) (r : Range) :
    (assignBy optional r).slice? = some r := by
  cases optional <;> rfl

variable {α : Type} {make : α → Nat → Assigned} {xs : List α} {range : α → SymbolIdRange}

/-- Files whose slices are cut some places too early. -/
theorem forall₂_fileRight_iff
    (hmake : ∀ x start, (make x start).slice? = some ⟨start, (range x).len⟩)
    (h : Tiles start (xs.map range) stop) (hle : shift ≤ start) :
    Forall₂ FileRight (xs.map range)
        (layEach (fun x => (range x).len) make (start - shift) xs)
      ↔ shift = 0 ∨ (xs.map fun x => (range x).len).sum = 0 := by
  induction xs generalizing start with
  | nil => simp [layEach]
  | cons x xs ih =>
    obtain ⟨hstart, h⟩ := h
    have hmove : start - shift + (range x).len = start + (range x).len - shift := by omega
    rw [map_cons, layEach, forall₂_cons, hmove, ih h (by omega),
      fileRight_iff (hmake x _), hstart, map_cons, sum_cons]
    omega

/-- Files whose slices are cut at the right place. -/
theorem forall₂_fileRight
    (hmake : ∀ x, FileRight (range x) (make x (range x).start))
    (h : Tiles start (xs.map range) stop) :
    Forall₂ FileRight (xs.map range) (layEach (fun x => (range x).len) make start xs) := by
  induction xs generalizing start with
  | nil => exact Forall₂.nil
  | cons x xs ih =>
    obtain ⟨rfl, h⟩ := h
    exact Forall₂.cons (hmake x) (ih h)

theorem fileRight_empty (range : SymbolIdRange) : FileRight range .empty := by
  intro slice hslice
  cases hslice

variable {g : Group P}

/-- **A group that is cut too early is right where it has nothing to cut.** -/
theorem assign_right_iff (exports : Exports)
    (h : Tiles start g.ranges stop) (hle : shift ≤ start) :
    Forall₂ FileRight g.ranges (g.assign exports (start - shift))
      ↔ shift = 0 ∨ g.taken = 0 := by
  cases g with
  | prelude p =>
    obtain ⟨rfl, -⟩ := h
    obtain rfl : shift = 0 := Nat.le_zero.mp hle
    refine iff_of_true ?_ (.inl rfl)
    exact Forall₂.cons ((fileRight_iff rfl).mpr (.inl rfl)) Forall₂.nil
  | objects os => exact forall₂_fileRight_iff (fun s start => slice?_assignBy _ _) h hle
  | linkerScripts ss =>
    refine iff_of_true ?_ (.inr rfl)
    simp only [Group.ranges, Group.assign]
    rw [forall₂_map_left_iff, forall₂_map_right_iff, forall₂_same]
    exact fun s _ => fileRight_empty s.symbolIdRange
  | syntheticSymbols r =>
    exact iff_of_true (Forall₂.cons (fileRight_empty r) Forall₂.nil) (.inr rfl)
  | ltoInputs os => exact forall₂_fileRight_iff (fun o start => slice?_assignBy _ _) h hle

/-- No group with definitions follows one whose definitions are not claimed: `gap` have not been
claimed so far. -/
def NoGap : Nat → List (Group P) → Prop
  | _, [] => True
  | gap, g :: gs => (gap = 0 ∨ g.taken = 0) ∧ NoGap (gap + g.unclaimed) gs

/-- The new groups, where some definitions before them were not claimed. -/
theorem layGroups_right_iff (exports : Exports)
    (h : Tiles start (groups.flatMap Group.ranges) stop) (hle : shift ≤ start) :
    SlicesRight groups
        (layEach Group.taken (Group.assign exports) (start - shift) groups)
      ↔ NoGap shift groups := by
  induction groups generalizing start shift with
  | nil => exact iff_of_true Forall₂.nil trivial
  | cons g gs ih =>
    rw [flatMap_cons, tiles_append] at h
    obtain ⟨mid, hg, hgs⟩ := h
    have hmid := hg.stop_eq
    have hsplit := g.taken_add_unclaimed
    have hmove : start - shift + g.taken = mid - (shift + g.unclaimed) := by omega
    rw [SlicesRight, layEach, forall₂_cons, hmove, assign_right_iff exports hg hle]
    exact and_congr_right fun _ => ih hgs (by omega)

/-! ## 6. Whole calls -/

/-- The slice of a file of an earlier call. -/
def ResolvedFile.assign (file : ResolvedFile) (start : Nat) : Assigned :=
  match file with
  | .notLoaded _ => .stored ⟨start, file.symbolIdRange.len⟩
  | _ => .empty

def ResolvedGroup.numDefinitions (files : ResolvedGroup) : Nat :=
  (files.map (·.symbolIdRange.len)).sum

def ResolvedGroup.assign (files : ResolvedGroup) (start : Nat) : List Assigned :=
  layEach (·.symbolIdRange.len) ResolvedFile.assign start files

theorem cutResolved_eq (file : ResolvedFile) {r : Range}
    (h : file.symbolIdRange.len ≤ r.len) :
    cutResolved file r = some (file.assign r.start,
      ⟨r.start + file.symbolIdRange.len, r.len - file.symbolIdRange.len⟩) := by
  rw [cutResolved, cutOne_eq _ h]
  cases file <;> rfl

variable {resolved : List ResolvedGroup}

/-- The files of earlier calls get their own slices. -/
theorem layResolved_right
    (hranges : resolved.map (·.map ResolvedFile.symbolIdRange) = groups.map Group.ranges)
    (h : Tiles start (groups.flatMap Group.ranges) stop) :
    SlicesRight groups (layEach ResolvedGroup.numDefinitions ResolvedGroup.assign start resolved)
      ∧ (resolved.map ResolvedGroup.numDefinitions).sum = total (groups.flatMap Group.ranges) := by
  induction resolved generalizing groups start with
  | nil =>
    obtain rfl : groups = [] := map_eq_nil_iff.mp hranges.symm
    exact ⟨Forall₂.nil, rfl⟩
  | cons files resolved ih =>
    cases groups with
    | nil => cases hranges
    | cons g gs =>
      obtain ⟨hfiles, hranges⟩ := cons_eq_cons.mp hranges
      rw [flatMap_cons, tiles_append] at h
      obtain ⟨mid, hg, hgs⟩ := h
      have hnum : ResolvedGroup.numDefinitions files = total g.ranges := by
        rw [← hfiles, total, List.map_map]
        rfl
      obtain ⟨hright, hsum⟩ := ih hranges hgs
      have hmid := hg.stop_eq
      constructor
      · refine Forall₂.cons ?_ ?_
        · rw [← hfiles] at hg ⊢
          refine forall₂_fileRight (fun file => ?_) hg
          cases file with
          | notLoaded r => exact (fileRight_iff rfl).mpr (.inl rfl)
          | _ => exact fileRight_empty _
        · rw [hnum, ← hmid]
          exact hright
      · rw [map_cons, sum_cons, hnum, hsum, flatMap_cons, total_append]

/-- The vector of definitions has a place for each symbol. -/
theorem numDefinitions_eq
    (h : Tiles start (groups.flatMap Group.ranges) stop) (hproper : ∀ g ∈ groups, g.Proper) :
    numDefinitions groups = total (groups.flatMap Group.ranges) := by
  induction groups generalizing start with
  | nil => rfl
  | cons g gs ih =>
    rw [flatMap_cons, tiles_append] at h
    obtain ⟨mid, hg, hgs⟩ := h
    have hrest := ih hgs fun g' hg' => hproper g' (mem_cons_of_mem g hg')
    have hmid := hg.stop_eq
    have hlen : g.numSymbols = total g.ranges := by
      rw [Group.numSymbols, symbolIdRange_eq hg (hproper g mem_cons_self).ne_nil]
      change mid - start = _
      omega
    rw [flatMap_cons, total_append, ← hrest, ← hlen]
    rfl

/-- What holds of a linker between calls. -/
structure Consistent (l : Linker P) : Prop where
  tiled : Tiled l.db.groups
  ranges : l.resolvedGroups.map (·.map ResolvedFile.symbolIdRange)
    = (l.db.groups.take l.resolvedGroups.length).map Group.ranges

theorem sum_taken_le (groups : List (Group P)) :
    (groups.map Group.taken).sum ≤ total (groups.flatMap Group.ranges) := by
  induction groups with
  | nil => exact Nat.le_refl 0
  | cons g gs ih =>
    have hsplit := g.taken_add_unclaimed
    rw [map_cons, sum_cons, flatMap_cons, total_append]
    omega

/-- All slices of a call. -/
def assignAll (exports : Exports) (groups : List (Group P)) (resolved : List ResolvedGroup) :
    List (List Assigned) :=
  layEach ResolvedGroup.numDefinitions ResolvedGroup.assign 0 resolved
    ++ layEach Group.taken (Group.assign exports)
      (resolved.map ResolvedGroup.numDefinitions).sum (groups.drop resolved.length)

/-- The groups of earlier calls and the new ones, each with their ids. -/
theorem Consistent.split (h : Consistent l) :
    Tiles 0 ((l.db.groups.take l.resolvedGroups.length).flatMap Group.ranges)
        (l.resolvedGroups.map ResolvedGroup.numDefinitions).sum ∧
      Tiles (l.resolvedGroups.map ResolvedGroup.numDefinitions).sum
        ((l.db.groups.drop l.resolvedGroups.length).flatMap Group.ranges)
        (nextSymbolId l.db.groups) := by
  have htiles := h.tiled.tiles
  nth_rewrite 1 [← take_append_drop l.resolvedGroups.length l.db.groups] at htiles
  rw [flatMap_append, tiles_append] at htiles
  obtain ⟨mid, hold, hnew⟩ := htiles
  have hsum := (layResolved_right h.ranges hold).2
  have hmid := hold.stop_eq
  obtain rfl : mid = (l.resolvedGroups.map ResolvedGroup.numDefinitions).sum := by omega
  exact ⟨hold, hnew⟩

/-- **A call cuts without running out.** -/
theorem setup_eq (exports : Exports) (h : Consistent l) :
    (setup exports l.db.groups l.resolvedGroups).map Prod.fst
      = some (assignAll exports l.db.groups l.resolvedGroups) := by
  obtain ⟨hold, hnew⟩ := h.split
  have hnum := numDefinitions_eq h.tiled.tiles h.tiled.proper
  have hend := h.tiled.tiles.stop_eq
  have hendNew := hnew.stop_eq
  have htaken := sum_taken_le (l.db.groups.drop l.resolvedGroups.length)
  have hcutFile : ∀ (files : ResolvedGroup) (r : Range),
      ResolvedGroup.numDefinitions files ≤ r.len → cutEach cutResolved files r
        = some (ResolvedGroup.assign files r.start,
          ⟨r.start + ResolvedGroup.numDefinitions files,
            r.len - ResolvedGroup.numDefinitions files⟩) :=
    fun files r hle => cutEach_eq (fun file r hle => cutResolved_eq file hle) files r hle
  have hcutOld := cutEach_eq hcutFile l.resolvedGroups ⟨0, numDefinitions l.db.groups⟩
    (by change _ ≤ numDefinitions l.db.groups; omega)
  have hcutNew := cutEach_eq (fun g r hle => resolveGroup_eq exports g hle)
    (l.db.groups.drop l.resolvedGroups.length)
    ⟨(l.resolvedGroups.map ResolvedGroup.numDefinitions).sum, numDefinitions l.db.groups
      - (l.resolvedGroups.map ResolvedGroup.numDefinitions).sum⟩
    (by change _ ≤ numDefinitions l.db.groups - _; omega)
  rw [setup, hcutOld, bind_some]
  simp only [Nat.zero_add]
  rw [hcutNew, map_some, map_some]
  rfl

/-- Each file gets its own slice where there is no gap in the new groups. -/
theorem assignAll_right_iff (exports : Exports) (h : Consistent l) :
    SlicesRight l.db.groups (assignAll exports l.db.groups l.resolvedGroups)
      ↔ NoGap 0 (l.db.groups.drop l.resolvedGroups.length) := by
  obtain ⟨hold, hnew⟩ := h.split
  have holdRight := (layResolved_right h.ranges hold).1
  have hnewRight := layGroups_right_iff exports hnew (Nat.zero_le _)
  rw [Nat.sub_zero] at hnewRight
  rw [← hnewRight, assignAll]
  have hlen : (layEach ResolvedGroup.numDefinitions ResolvedGroup.assign 0
      l.resolvedGroups).length = l.resolvedGroups.length := length_layEach _ _ _ _
  constructor
  · intro hall
    have hdrop := forall₂_drop_append _ _ _ hall
    rwa [hlen] at hdrop
  · intro hright
    have hboth := rel_append holdRight hright
    simp only [take_append_drop] at hboth
    exact hboth

/-! ## 7. Whole runs -/

/-- A file keeps its ids when it is loaded. -/
theorem symbolIdRange_loadFile {group : Group P} {k : Nat} {file : ResolvedFile}
    (h : group.ranges[k]? = some file.symbolIdRange) :
    (loadFile group k file).symbolIdRange = file.symbolIdRange := by
  cases group with
  | prelude p => rfl
  | linkerScripts ss => rfl
  | syntheticSymbols r => rfl
  | objects os =>
    rw [Group.ranges, getElem?_map] at h
    unfold loadFile
    simp only
    cases ho : os[k]? with
    | none => rfl
    | some o =>
      rw [ho, map_some] at h
      simp only
      split
      · exact some.inj h
      · exact some.inj h
  | ltoInputs os =>
    rw [Group.ranges, getElem?_map] at h
    unfold loadFile
    simp only
    cases ho : os[k]? with
    | none => rfl
    | some o =>
      rw [ho, map_some] at h
      exact some.inj h

theorem gatherLoaded_ranges
    (h : resolved.map (·.map ResolvedFile.symbolIdRange) = groups.map Group.ranges)
    (loaded : FileId → Bool) :
    (gatherLoaded groups loaded resolved).map (·.map ResolvedFile.symbolIdRange)
      = groups.map Group.ranges := by
  rw [← h]
  refine ext_getElem? fun g => ?_
  have hg := congrArg (·[g]?) h
  simp only [getElem?_map] at hg
  rw [gatherLoaded, getElem?_map, getElem?_mapIdx, getElem?_map]
  cases hfiles : resolved[g]? with
  | none => rfl
  | some files =>
    rw [hfiles, map_some] at hg
    cases hgroup : groups[g]? with
    | none =>
      rw [hgroup] at hg
      cases hg
    | some group =>
      rw [hgroup, map_some] at hg
      have hranges := some.inj hg
      simp only [map_some, some.injEq]
      refine ext_getElem? fun k => ?_
      rw [getElem?_map, getElem?_mapIdx, getElem?_map]
      cases hfile : files[k]? with
      | none => rfl
      | some file =>
        simp only [map_some, some.injEq]
        split
        · refine symbolIdRange_loadFile ?_
          rw [← hranges, getElem?_map, hfile, map_some]
        · rfl

theorem resolvedGroup_ranges (h : g.Proper) :
    (resolvedGroup g).map ResolvedFile.symbolIdRange = g.ranges := by
  cases g with
  | syntheticSymbols r => exact h.elim
  | prelude p => rfl
  | objects os => simp [resolvedGroup, Group.ranges, ResolvedFile.symbolIdRange]
  | linkerScripts ss => simp [resolvedGroup, Group.ranges, ResolvedFile.symbolIdRange]
  | ltoInputs os => simp [resolvedGroup, Group.ranges, ResolvedFile.symbolIdRange]

/-- **Between calls the resolver and the database agree.** -/
theorem Reachable.consistent {exports : Exports} {prelude : Prelude}
    (h : Reachable exports prelude l) : Consistent l := by
  induction h with
  | init => exact ⟨tiled_nil, rfl⟩
  | @add l db limits loaded _ hadd ih =>
    refine ⟨addInputs_tiled ih.tiled hadd, ?_⟩
    obtain ⟨more, hmore⟩ := addInputs_extends hadd
    have hlen : l.resolvedGroups.length ≤ l.db.groups.length := by
      have hlen := congrArg List.length ih.ranges
      simp only [length_map, length_take] at hlen
      omega
    change _ = (db.groups.take l.resolvedGroups.length).map Group.ranges
    rw [hmore, take_append_of_le_length hlen]
    exact ih.ranges
  | @resolve l loaded _ _ ih =>
    refine ⟨ih.tiled, ?_⟩
    have hnew : ((l.db.groups.drop l.resolvedGroups.length).map resolvedGroup).map
        (·.map ResolvedFile.symbolIdRange)
        = (l.db.groups.drop l.resolvedGroups.length).map Group.ranges := by
      rw [List.map_map]
      refine map_congr_left fun g hg => ?_
      exact resolvedGroup_ranges (ih.tiled.proper g (mem_of_mem_drop hg))
    have hall : (l.resolvedGroups
        ++ (l.db.groups.drop l.resolvedGroups.length).map resolvedGroup).map
        (·.map ResolvedFile.symbolIdRange) = l.db.groups.map Group.ranges := by
      rw [map_append, ih.ranges, hnew, ← map_append, take_append_drop]
    have hranges := gatherLoaded_ranges hall loaded
    have hlen := congrArg List.length hranges
    simp only [length_map] at hlen
    change (gatherLoaded l.db.groups loaded _).map _ = _
    rw [hranges, hlen, take_length]

/-- **When every file gets its own slice**: in every call of every run, exactly where no group with
definitions follows a linker script whose definitions nobody claims. -/
theorem slices_right_iff {exports : Exports} {prelude : Prelude} {l : Linker P}
    (h : Reachable exports prelude l) :
    ∃ assigned rest, setup exports l.db.groups l.resolvedGroups = some (assigned, rest) ∧
      (SlicesRight l.db.groups assigned
        ↔ NoGap 0 (l.db.groups.drop l.resolvedGroups.length)) := by
  have hcons := h.consistent
  have hsetup := setup_eq exports hcons
  obtain ⟨⟨assigned, rest⟩, hsome, hfst⟩ := map_eq_some_iff.mp hsetup
  refine ⟨assigned, rest, hsome, ?_⟩
  obtain rfl : assigned = _ := hfst
  exact assignAll_right_iff exports hcons

/-- Names without versions. -/
def plainNames : Platform := ⟨Bytes, fun name _ _ => name⟩

/-- A prelude with nothing but the undefined symbol. -/
def emptyPrelude : Prelude := ⟨[⟨.undefined, []⟩]⟩

def noExports : Exports := ⟨false, none⟩

/-- A script that defines `s`, and an input for the plugin that defines `f`. -/
def scriptAndLto : LoadedInputs plainNames where
  objects := []
  linkerScripts := [⟨[[115]]⟩]
  ltoObjects := [⟨[⟨[102], true, false, true⟩], false, false⟩]

/-- The same script alone. -/
def scriptAlone : LoadedInputs plainNames := { scriptAndLto with ltoObjects := [] }

/-- The linker before the first call. -/
def firstCall (groups : List (Group plainNames)) : Linker plainNames := ⟨⟨groups, 0⟩, []⟩

def scriptGroup : Group plainNames := .linkerScripts [⟨⟨[[115]]⟩, ⟨1, 1⟩, ⟨1, 0⟩⟩]

def ltoGroup : Group plainNames :=
  .ltoInputs [⟨⟨[⟨[102], true, false, true⟩], false, false⟩, ⟨2, 1⟩, ⟨2, 0⟩⟩]

theorem script_alone_right :
    ∃ assigned rest,
      setup noExports [.prelude emptyPrelude, scriptGroup] [] = some (assigned, rest) ∧
      SlicesRight [.prelude emptyPrelude, scriptGroup] assigned := by
  have hadd : addInputs emptyPrelude ⟨256, 1⟩ ⟨[], 0⟩ scriptAlone
      = some ⟨[.prelude emptyPrelude, scriptGroup], 0⟩ := rfl
  have hreach : Reachable noExports emptyPrelude
      (firstCall [.prelude emptyPrelude, scriptGroup]) :=
    .add ⟨256, 1⟩ scriptAlone .init hadd
  obtain ⟨assigned, rest, hsetup, hiff⟩ := slices_right_iff hreach
  refine ⟨assigned, rest, hsetup, hiff.mpr ?_⟩
  exact ⟨.inl rfl, .inr rfl, trivial⟩

/-- The input for the plugin has symbol 2, and gets the definition of symbol 1. -/
theorem script_shifts_slices :
    Reachable noExports emptyPrelude
        (firstCall [.prelude emptyPrelude, scriptGroup, ltoGroup]) ∧
      setup noExports [.prelude emptyPrelude, scriptGroup, ltoGroup] []
        = some ([[.handed ⟨0, 1⟩], [.empty], [.handed ⟨1, 1⟩]], ⟨2, 1⟩) ∧
      ¬ SlicesRight [.prelude emptyPrelude, scriptGroup, ltoGroup]
        [[.handed ⟨0, 1⟩], [.empty], [.handed ⟨1, 1⟩]] := by
  have hadd : addInputs emptyPrelude ⟨256, 1⟩ ⟨[], 0⟩ scriptAndLto
      = some ⟨[.prelude emptyPrelude, scriptGroup, ltoGroup], 0⟩ := rfl
  refine ⟨.add ⟨256, 1⟩ scriptAndLto .init hadd, rfl, ?_⟩
  rintro (_ | ⟨-, _ | ⟨-, _ | ⟨hlto, -⟩⟩⟩)
  rcases hlto with _ | ⟨hright, -⟩
  have hcover := (hright ⟨1, 1⟩ rfl 1).mp ⟨Nat.le_refl 1, by decide⟩
  exact absurd hcover.1 (by decide)

end Srs.Resolution
