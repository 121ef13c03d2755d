/-
# Symbols that redirect to other symbols

A `--defsym` and a symbol of a linker script can name another symbol and an offset.  The layout
gives such a symbol a placeholder for its value (`createInternalSymbolResolution`), and
`updateRedirectResolutions` goes over the definitions once, in the order of their ids, and sets
each to the value its target has at that moment.

A target that redirects as well and is defined later still has its placeholder then:
`redirectsResolved_iff` says for which definitions the values are right at the end.
-/
import Srs.Lib.Bytes
import Srs.Lib.OnePass
import Srs.Lib.Tiling

namespace Srs.Redirects

open Tiling List Option OnePass

/-! ## 1. Definitions of symbols -/

abbrev SymbolId := Nat

abbrev OutputSectionId := Nat

inductive RedirectKind where
  | defSym
  | script
  deriving DecidableEq

structure Redirect where
  kind : RedirectKind
  targetName : Bytes
  offset : Int64
  deriving DecidableEq

inductive SegmentName where
  | text
  | rodata
  | data
  | bss
  | other
  deriving DecidableEq

inductive SymbolPlacement where
  | undefined
  | sectionStart (section_ : OutputSectionId)
  | sectionGroupStart (section_ : OutputSectionId)
  | sectionEnd (section_ : OutputSectionId)
  | sectionGroupEnd (section_ : OutputSectionId)
  | forceUndefined
  | defsymAbsolute (value : UInt64)
  | redirect (redirect : Redirect)
  | loadBaseAddress
  | segmentStart (name : SegmentName) (default : UInt64)
  deriving DecidableEq

structure InternalSymDefInfo where
  placement : SymbolPlacement
  sectionIfPresent : Bool
  name : Bytes
  deriving DecidableEq

/-- `InternalSymDefInfo::new` -/
def InternalSymDefInfo.new (placement : SymbolPlacement) (name : Bytes) : InternalSymDefInfo :=
  ⟨placement, false, name⟩

inductive DefsymValue where
  | value (value : UInt64)
  | symbolWithOffset (name : Bytes) (offset : Int64)
  deriving DecidableEq

def DefsymValue.placement : DefsymValue → SymbolPlacement
  | value addr => .defsymAbsolute addr
  | symbolWithOffset target offset => .redirect ⟨.defSym, target, offset⟩

/-- `Prelude::new`: the definitions of the linker, then those of the command line. -/
def preludeNew (linkerDefined : List InternalSymDefInfo) (forceUndefined : List Bytes)
    (defsym : List (Bytes × DefsymValue)) : List InternalSymDefInfo :=
  linkerDefined ++ forceUndefined.map (.new .forceUndefined)
    ++ defsym.map fun (name, value) => .new value.placement name

structure SequencedLinkerScript where
  symbolIdRange : Tiling.Range
  symbolDefs : List InternalSymDefInfo
  numSymbols : symbolIdRange.len = symbolDefs.length

/-- The groups of inputs, as far as they define symbols of these kinds. -/
inductive Group where
  | prelude (symbolDefinitions : List InternalSymDefInfo)
  | linkerScripts (scripts : List SequencedLinkerScript)
  | other (symbolIdRange : Tiling.Range)

namespace Group

def ranges : Group → List Tiling.Range
  | prelude defs => [⟨0, defs.length⟩]
  | linkerScripts scripts => scripts.map (·.symbolIdRange)
  | other range => [range]

/-- `symbol_id_range().start()` -/
def start : Group → SymbolId
  | prelude _ => 0
  | linkerScripts [] => 0
  | linkerScripts (script :: _) => script.symbolIdRange.start
  | other range => range.start

end Group

/-- `SymbolDb`, with ids that follow one another. -/
structure SymbolDb where
  groups : List Group
  symbolDefinitions : SymbolId → SymbolId
  getUnversioned : Bytes → Option SymbolId
  numbered : ∃ stop, Tiles 0 (groups.flatMap Group.ranges) stop

namespace SymbolDb

variable (db : SymbolDb)

def isCanonical (symbolId : SymbolId) : Bool := db.symbolDefinitions symbolId = symbolId

def definition (symbolId : SymbolId) : SymbolId :=
  db.symbolDefinitions (db.symbolDefinitions symbolId)

end SymbolDb

/-! ## 2. Resolutions -/

/-- A resolution; the update reads and writes its value only. -/
structure Resolution (Ext : Type) where
  rawValue : UInt64
  ext : Ext

/-- The resolutions of all symbols. -/
abbrev Resolutions (Ext : Type) := SymbolId → Option (Resolution Ext)

structure OutputRecordLayout where
  memOffset : UInt64
  memSize : UInt64
  fileSize : UInt64

structure SegmentLayout where
  isLoadable : Bool
  memOffset : UInt64

/-- What the resolutions of internal symbols are made of. -/
structure Resources (Ext : Type) where
  /-- `flags_for_symbol(..).has_resolution()` -/
  hasResolution : SymbolId → Bool
  sectionLayouts : OutputSectionId → OutputRecordLayout
  mergedSectionLayouts : OutputSectionId → OutputRecordLayout
  willEmitSection : OutputSectionId → Bool
  sectionBoundarySymbolMatches : Bytes → OutputSectionId → Bool
  segmentLayouts : List SegmentLayout
  segmentStartOverride : SegmentName → Option UInt64
  /-- `P::create_resolution` of a symbol, with or without `ABSOLUTE`, and a value. -/
  createResolution : SymbolId → Bool → UInt64 → Resolution Ext

variable {Ext : Type}

/-- The section that a symbol of its start or end is for is not there. -/
def optionalSectionIsAbsent (resources : Resources Ext) (info : InternalSymDefInfo) : Bool :=
  info.sectionIfPresent &&
    match info.placement with
    | .sectionStart sectionId | .sectionEnd sectionId =>
      let layout := resources.sectionLayouts sectionId
      !resources.sectionBoundarySymbolMatches info.name sectionId
        || (!resources.willEmitSection sectionId && layout.fileSize == 0 && layout.memSize == 0)
    | _ => false

/-- The value of an internal symbol; that of a redirect is set later. -/
def internalRawValue (resources : Resources Ext) (info : InternalSymDefInfo) : Option UInt64 :=
  match info.placement with
  | .undefined | .forceUndefined => some 0
  | .sectionStart sectionId =>
    if optionalSectionIsAbsent resources info then some 0
    else some (resources.sectionLayouts sectionId).memOffset
  | .sectionEnd sectionId =>
    if optionalSectionIsAbsent resources info then some 0
    else
      let layout := resources.sectionLayouts sectionId
      some (layout.memOffset + layout.memSize)
  | .sectionGroupStart sectionId => some (resources.mergedSectionLayouts sectionId).memOffset
  | .sectionGroupEnd sectionId =>
    let layout := resources.mergedSectionLayouts sectionId
    some (layout.memOffset + layout.memSize)
  | .defsymAbsolute value => some value
  | .redirect _ => some 0
  | .loadBaseAddress => (resources.segmentLayouts.find? (·.isLoadable)).map (·.memOffset)
  | .segmentStart name default => some ((resources.segmentStartOverride name).getD default)

/-- `create_internal_symbol_resolution` -/
def createInternalSymbolResolution (resources : Resources Ext) (db : SymbolDb)
    (info : InternalSymDefInfo) (symbolId : SymbolId) : Option (Resolution Ext) :=
  if db.isCanonical symbolId = false then none
  else if resources.hasResolution symbolId = false then none
  else (internalRawValue resources info).map
    (resources.createResolution symbolId (optionalSectionIsAbsent resources info))

/-! ## 3. The update -/

/-- The error of `Redirect::missing_target`: that the symbol is referenced by `--defsym` and does
not exist, or is referenced in an expression and undefined. -/
inductive MissingTarget where
  | defSym (targetName : Bytes)
  | script (targetName : Bytes)
  deriving DecidableEq

/-- `Redirect::missing_target` -/
def Redirect.missingTarget (redirect : Redirect) : MissingTarget :=
  match redirect.kind with
  | .defSym => .defSym redirect.targetName
  | .script => .script redirect.targetName

/-- `(target_value as i64).wrapping_add(redirect.offset) as u64` -/
def Redirect.apply (redirect : Redirect) (targetValue : UInt64) : UInt64 :=
  (targetValue.toInt64 + redirect.offset).toUInt64

/-- `update_defsym_symbol_resolution` -/
def updateDefsymSymbolResolution (symbolId : SymbolId) (info : InternalSymDefInfo) (db : SymbolDb)
    (resolutions : Resolutions Ext) : Except MissingTarget (Resolutions Ext) :=
  match info.placement with
  | .redirect redirect =>
    if db.isCanonical symbolId = false then .ok resolutions
    else
      match db.getUnversioned redirect.targetName with
      | none => .error redirect.missingTarget
      | some targetSymbolId =>
        match resolutions (db.definition targetSymbolId), resolutions symbolId with
        | some target, some resolution =>
          .ok (Function.update resolutions symbolId
            (some { resolution with rawValue := redirect.apply target.rawValue }))
        | _, _ => .ok resolutions
  | _ => .ok resolutions

/-- The definitions of a file, from an id on. -/
def updateDefinitions (db : SymbolDb) : SymbolId → List InternalSymDefInfo → Resolutions Ext →
    Except MissingTarget (Resolutions Ext)
  | _, [], resolutions => .ok resolutions
  | symbolId, info :: infos, resolutions =>
    (updateDefsymSymbolResolution symbolId info db resolutions).bind
      (updateDefinitions db (symbolId + 1) infos)

/-- The scripts of a group: the ids go on from one script to the next. -/
def updateScripts (db : SymbolDb) : SymbolId → List SequencedLinkerScript → Resolutions Ext →
    Except MissingTarget (Resolutions Ext)
  | _, [], resolutions => .ok resolutions
  | symbolId, script :: scripts, resolutions =>
    (updateDefinitions db symbolId script.symbolDefs resolutions).bind
      (updateScripts db (symbolId + script.symbolDefs.length) scripts)

def updateGroup (db : SymbolDb) (group : Group) (resolutions : Resolutions Ext) :
    Except MissingTarget (Resolutions Ext) :=
  match group with
  | .prelude defs => updateDefinitions db group.start defs resolutions
  | .linkerScripts scripts => updateScripts db group.start scripts resolutions
  | .other _ => .ok resolutions

def updateGroups (db : SymbolDb) : List Group → Resolutions Ext →
    Except MissingTarget (Resolutions Ext)
  | [], resolutions => .ok resolutions
  | group :: groups, resolutions => (updateGroup db group resolutions).bind (updateGroups db groups)

/-- `update_redirect_resolutions` -/
def updateRedirectResolutions (db : SymbolDb) (resolutions : Resolutions Ext) :
    Except MissingTarget (Resolutions Ext) :=
  updateGroups db db.groups resolutions

/-! ## 4. What the values are to be -/

/-- Definitions with their ids. -/
def numberFrom : SymbolId → List InternalSymDefInfo → List (SymbolId × InternalSymDefInfo)
  | _, [] => []
  | symbolId, info :: infos => (symbolId, info) :: numberFrom (symbolId + 1) infos

def Group.definitions : Group → List (SymbolId × InternalSymDefInfo)
  | prelude defs => numberFrom 0 defs
  | linkerScripts scripts =>
    scripts.flatMap fun script => numberFrom script.symbolIdRange.start script.symbolDefs
  | other _ => []

namespace SymbolDb

variable (db : SymbolDb)

/-- All definitions, by the ids of their files. -/
def definitions : List (SymbolId × InternalSymDefInfo) := db.groups.flatMap Group.definitions

/-- The symbol is a canonical one that redirects. -/
def IsRedirect (s : SymbolId) (redirect : Redirect) : Prop :=
  (∃ info, (s, info) ∈ db.definitions ∧ info.placement = .redirect redirect)
    ∧ db.isCanonical s = true

/-- The symbol a redirect is to. -/
def target? (redirect : Redirect) : Option SymbolId :=
  (db.getUnversioned redirect.targetName).map db.definition

/-- The value of a symbol by the chain of its targets: that of the symbol the chain ends in, and
the offsets on the way. -/
inductive ChainValue (resolutions : Resolutions Ext) : SymbolId → UInt64 → Prop
  | ends {s r} : (∀ redirect, ¬ db.IsRedirect s redirect) → resolutions s = some r →
      ChainValue resolutions s r.rawValue
  | follows {s t redirect v} : db.IsRedirect s redirect → db.target? redirect = some t →
      ChainValue resolutions t v → ChainValue resolutions s (redirect.apply v)

/-- The targets of each redirect end in a symbol with a resolution, and are not in a cycle. -/
def Grounded (resolutions : Resolutions Ext) : Prop :=
  ∀ s redirect, db.IsRedirect s redirect →
    ∃ t v, db.target? redirect = some t ∧ db.ChainValue resolutions t v

/-- Each redirect has the value of its target and the offset, modulo 2^64. -/
def RedirectsResolved (resolutions : Resolutions Ext) : Prop :=
  ∀ s redirect, db.IsRedirect s redirect → ∀ r, resolutions s = some r →
    ∃ t target, db.target? redirect = some t ∧ resolutions t = some target ∧
      (r.rawValue.toNat : Int) = (target.rawValue.toNat + redirect.offset.toInt) % 2 ^ 64

/-- The target of each redirect that has a resolution has one too; and where it is a redirect of a
later id, its chain has the value of its placeholder. -/
def TargetsReady (resolutions : Resolutions Ext) : Prop :=
  ∀ s redirect, db.IsRedirect s redirect → (resolutions s).isSome →
    ∃ t target, db.target? redirect = some t ∧ resolutions t = some target ∧
      (s < t → (∃ other, db.IsRedirect t other) →
        ∀ v, db.ChainValue resolutions t v → v = target.rawValue)

end SymbolDb

/-! ## 5. The update is one pass over assignments -/

/-- The values of the resolutions. -/
def rawValues (resolutions : Resolutions Ext) : Store SymbolId UInt64 :=
  fun s => (resolutions s).map (·.rawValue)

theorem rawValues_apply (resolutions : Resolutions Ext) (s : SymbolId) :
    rawValues resolutions s = (resolutions s).map (·.rawValue) := rfl

theorem rawValues_update (resolutions : Resolutions Ext) (s : SymbolId) (r : Resolution Ext) :
    rawValues (Function.update resolutions s (some r))
      = Function.update (rawValues resolutions) s (some r.rawValue) := by
  funext x
  by_cases hx : x = s
  · rw [hx, rawValues, Function.update_self, Function.update_self]
    rfl
  · rw [rawValues, Function.update_of_ne hx, Function.update_of_ne hx]
    rfl

/-- The assignment of a definition that redirects. -/
def SymbolDb.assignment? (db : SymbolDb) (symbolId : SymbolId) (info : InternalSymDefInfo) :
    Option (Assignment SymbolId UInt64) :=
  match info.placement with
  | .redirect redirect =>
    if db.isCanonical symbolId = false then none
    else (db.target? redirect).map fun t => ⟨symbolId, t, redirect.apply⟩
  | _ => none

def SymbolDb.assignments (db : SymbolDb) : List (Assignment SymbolId UInt64) :=
  db.definitions.filterMap fun (symbolId, info) => db.assignment? symbolId info

variable {db : SymbolDb}

/-- No definition misses its target. -/
def TargetsFound (db : SymbolDb) (definitions : List (SymbolId × InternalSymDefInfo)) : Prop :=
  ∀ s info redirect, (s, info) ∈ definitions → info.placement = .redirect redirect →
    db.isCanonical s = true → (db.target? redirect).isSome

variable {symbolId : SymbolId} {before later : List (SymbolId × InternalSymDefInfo)}
  {stop start : SymbolId} {resolutions : Resolutions Ext} {s : SymbolId}

variable {info : InternalSymDefInfo}

/-- What one definition does to the values. -/
theorem updateDefsymSymbolResolution_run
    (hfound : TargetsFound db [(symbolId, info)]) (resolutions : Resolutions Ext) :
    ∃ final, updateDefsymSymbolResolution symbolId info db resolutions = .ok final ∧
      rawValues final
        = run (db.assignment? symbolId info).toList (rawValues resolutions) := by
  unfold updateDefsymSymbolResolution SymbolDb.assignment?
  cases hplacement : info.placement with
  | redirect redirect =>
    by_cases hcanonical : db.isCanonical symbolId = false
    · simp only [if_pos hcanonical]
      exact ⟨resolutions, rfl, rfl⟩
    · simp only [if_neg hcanonical]
      rw [Bool.not_eq_false] at hcanonical
      have htarget := hfound symbolId info redirect mem_cons_self hplacement hcanonical
      rw [SymbolDb.target?, isSome_map] at htarget
      obtain ⟨targetSymbolId, hname⟩ := isSome_iff_exists.mp htarget
      simp only [hname, SymbolDb.target?, map_some]
      generalize db.definition targetSymbolId = t
      have hrun : run (some (Assignment.mk symbolId t redirect.apply)).toList
          (rawValues resolutions)
          = (Assignment.mk symbolId t redirect.apply).run (rawValues resolutions) := rfl
      rw [hrun, Assignment.run, rawValues_apply, rawValues_apply]
      cases resolutions t with
      | none => exact ⟨resolutions, rfl, rfl⟩
      | some target =>
        cases resolutions symbolId with
        | none => exact ⟨resolutions, rfl, rfl⟩
        | some resolution => exact ⟨_, rfl, rawValues_update _ _ _⟩
  | undefined | sectionStart | sectionGroupStart | sectionEnd | sectionGroupEnd | forceUndefined
  | defsymAbsolute | loadBaseAddress | segmentStart => exact ⟨resolutions, rfl, rfl⟩

theorem TargetsFound.of_append
    (h : TargetsFound db (before ++ later)) : TargetsFound db before ∧ TargetsFound db later :=
  ⟨fun s info redirect hmem => h s info redirect (mem_append_left _ hmem),
    fun s info redirect hmem => h s info redirect (mem_append_right _ hmem)⟩

/-- What definitions do to the values. -/
def Runs (db : SymbolDb) (update : Resolutions Ext → Except MissingTarget (Resolutions Ext))
    (definitions : List (SymbolId × InternalSymDefInfo)) : Prop :=
  TargetsFound db definitions → ∀ resolutions, ∃ final, update resolutions = .ok final ∧
    rawValues final = run
      (definitions.filterMap fun (symbolId, info) => db.assignment? symbolId info)
      (rawValues resolutions)

theorem Runs.nil : @Runs Ext db .ok [] := fun _ resolutions => ⟨resolutions, rfl, rfl⟩

/-- One update after another. -/
theorem Runs.append {first rest : Resolutions Ext → Except MissingTarget (Resolutions Ext)}
    (hfirst : Runs db first before)
    (hrest : Runs db rest later) :
    Runs db (fun resolutions => (first resolutions).bind rest) (before ++ later) := by
  intro hfound resolutions
  obtain ⟨hbefore, hlater⟩ := hfound.of_append
  obtain ⟨mid, hmid, hvalues⟩ := hfirst hbefore resolutions
  obtain ⟨final, hfinal, hvalues'⟩ := hrest hlater mid
  refine ⟨final, ?_, ?_⟩
  · change (first resolutions).bind rest = .ok final
    rw [hmid]
    exact hfinal
  · rw [filterMap_append, run_append, ← hvalues, hvalues']

theorem runs_updateDefsymSymbolResolution (symbolId : SymbolId) (info : InternalSymDefInfo) :
    @Runs Ext db (updateDefsymSymbolResolution symbolId info db) [(symbolId, info)] := by
  intro hfound resolutions
  obtain ⟨final, hfinal, hvalues⟩ := updateDefsymSymbolResolution_run hfound resolutions
  refine ⟨final, hfinal, hvalues.trans ?_⟩
  cases hassignment : db.assignment? symbolId info with
  | none => simp [hassignment]
  | some a => simp [hassignment]

theorem runs_updateDefinitions : ∀ (infos : List InternalSymDefInfo) (symbolId : SymbolId),
    @Runs Ext db (updateDefinitions db symbolId infos) (numberFrom symbolId infos) := by
  intro infos
  induction infos with
  | nil => exact fun _ => Runs.nil
  | cons info infos ih =>
    exact fun symbolId =>
      (runs_updateDefsymSymbolResolution symbolId info).append (ih (symbolId + 1))

/-- The running id is that of each script. -/
theorem runs_updateScripts : ∀ (scripts : List SequencedLinkerScript) {symbolId stop : SymbolId},
    Tiles symbolId (scripts.map (·.symbolIdRange)) stop →
    @Runs Ext db (updateScripts db symbolId scripts)
      (Group.linkerScripts scripts).definitions := by
  intro scripts
  induction scripts with
  | nil => exact fun _ => Runs.nil
  | cons script scripts ih =>
    rintro symbolId stop ⟨hstart, htiles⟩
    rw [script.numSymbols] at htiles
    have hstart' : script.symbolIdRange.start = symbolId := hstart
    subst hstart'
    exact (runs_updateDefinitions script.symbolDefs _).append (ih htiles)

variable {group : Group}

theorem runs_updateGroup (h : Tiles symbolId group.ranges stop) :
    @Runs Ext db (updateGroup db group) group.definitions := by
  cases group with
  | prelude defs => exact runs_updateDefinitions defs 0
  | other range => exact Runs.nil
  | linkerScripts scripts =>
    cases scripts with
    | nil => exact Runs.nil
    | cons script scripts =>
      have hstart : script.symbolIdRange.start = symbolId := h.1
      subst hstart
      exact runs_updateScripts (script :: scripts) h

theorem runs_updateGroups : ∀ (groups : List Group) {symbolId stop : SymbolId},
    Tiles symbolId (groups.flatMap Group.ranges) stop →
    @Runs Ext db (updateGroups db groups) (groups.flatMap Group.definitions) := by
  intro groups
  induction groups with
  | nil => exact fun _ => Runs.nil
  | cons group groups ih =>
    intro symbolId stop h
    rw [flatMap_cons, tiles_append] at h
    obtain ⟨mid, hgroup, hgroups⟩ := h
    exact (runs_updateGroup hgroup).append (ih hgroups)

/-- **The update is one pass** over the assignments of the redirects. -/
theorem updateRedirectResolutions_run (hfound : TargetsFound db db.definitions)
    (resolutions : Resolutions Ext) :
    ∃ final, updateRedirectResolutions db resolutions = .ok final ∧
      rawValues final = run db.assignments (rawValues resolutions) := by
  obtain ⟨stop, htiles⟩ := db.numbered
  exact runs_updateGroups db.groups htiles hfound resolutions

/-! ## 6. The ids grow -/

/-- The ids grow from `start` on, below `stop`. -/
structure Grows (start stop : SymbolId) (definitions : List (SymbolId × InternalSymDefInfo)) :
    Prop where
  le : start ≤ stop
  pairwise : definitions.Pairwise (·.1 < ·.1)
  within : ∀ d ∈ definitions, start ≤ d.1 ∧ d.1 < stop

theorem Grows.append {mid : SymbolId} (hbefore : Grows start mid before)
    (hlater : Grows mid stop later) : Grows start stop (before ++ later) where
  le := Nat.le_trans hbefore.le hlater.le
  pairwise := pairwise_append.mpr ⟨hbefore.pairwise, hlater.pairwise, fun d hd e he =>
    Nat.lt_of_lt_of_le (hbefore.within d hd).2 (hlater.within e he).1⟩
  within := by
    intro d hd
    obtain hd | hd := mem_append.mp hd
    · exact ⟨(hbefore.within d hd).1, Nat.lt_of_lt_of_le (hbefore.within d hd).2 hlater.le⟩
    · exact ⟨Nat.le_trans hbefore.le (hlater.within d hd).1, (hlater.within d hd).2⟩

theorem Grows.nil (h : start ≤ stop) : Grows start stop [] :=
  ⟨h, List.Pairwise.nil, fun _ hd => absurd hd not_mem_nil⟩

theorem grows_numberFrom : ∀ (infos : List InternalSymDefInfo) (symbolId : SymbolId),
    Grows symbolId (symbolId + infos.length) (numberFrom symbolId infos) := by
  intro infos
  induction infos with
  | nil => exact fun symbolId => Grows.nil (Nat.le_refl symbolId)
  | cons info infos ih =>
    intro symbolId
    have hone : Grows symbolId (symbolId + 1) [(symbolId, info)] :=
      ⟨Nat.le_succ symbolId, pairwise_singleton _ _, fun d hd => by
        obtain rfl := mem_singleton.mp hd
        exact ⟨Nat.le_refl symbolId, Nat.lt_succ_self symbolId⟩⟩
    have hrest := ih (symbolId + 1)
    rw [Nat.add_right_comm, Nat.add_assoc] at hrest
    exact hone.append hrest

theorem grows_scripts : ∀ (scripts : List SequencedLinkerScript) {start stop : SymbolId},
    Tiles start (scripts.map (·.symbolIdRange)) stop →
    Grows start stop (Group.linkerScripts scripts).definitions := by
  intro scripts
  induction scripts with
  | nil => exact fun h => Grows.nil (Nat.le_of_eq h)
  | cons script scripts ih =>
    rintro start stop ⟨hstart, htiles⟩
    rw [script.numSymbols] at htiles
    have hstart' : script.symbolIdRange.start = start := hstart
    subst hstart'
    exact (grows_numberFrom script.symbolDefs _).append (ih htiles)

theorem grows_group (h : Tiles start group.ranges stop) :
    Grows start stop group.definitions := by
  cases group with
  | other range => exact Grows.nil (by rw [h.stop_eq]; exact Nat.le_add_right _ _)
  | linkerScripts scripts => exact grows_scripts scripts h
  | prelude defs =>
    obtain ⟨hstart, hstop⟩ := h
    have hgrows := grows_numberFrom defs 0
    change (0 : Nat) = start at hstart
    change start + defs.length = stop at hstop
    subst hstart hstop
    exact hgrows

theorem grows_groups : ∀ (groups : List Group) {start stop : SymbolId},
    Tiles start (groups.flatMap Group.ranges) stop →
    Grows start stop (groups.flatMap Group.definitions) := by
  intro groups
  induction groups with
  | nil => exact fun h => Grows.nil (Nat.le_of_eq h)
  | cons group groups ih =>
    intro start stop h
    rw [flatMap_cons, tiles_append] at h
    obtain ⟨mid, hgroup, hgroups⟩ := h
    exact (grows_group hgroup).append (ih hgroups)

theorem pairwise_definitions (db : SymbolDb) : db.definitions.Pairwise (·.1 < ·.1) := by
  obtain ⟨stop, htiles⟩ := db.numbered
  exact (grows_groups db.groups htiles).pairwise

variable {a : Assignment SymbolId UInt64}

theorem assignment?_dst (h : db.assignment? symbolId info = some a) :
    a.dst = symbolId ∧ db.isCanonical symbolId = true ∧
      ∃ redirect, info.placement = .redirect redirect ∧ db.target? redirect = some a.src ∧
        a.change = redirect.apply := by
  unfold SymbolDb.assignment? at h
  split at h
  · rename_i redirect hplacement
    split at h
    · cases h
    · rename_i hcanonical
      obtain ⟨t, ht, rfl⟩ := map_eq_some_iff.mp h
      exact ⟨rfl, by simpa using hcanonical, redirect, hplacement, ht, rfl⟩
  · cases h

/-- The assignments come in the order of the symbols. -/
theorem pairwise_assignments (db : SymbolDb) : db.assignments.Pairwise (·.dst < ·.dst) := by
  refine List.Pairwise.filterMap _ ?_ (pairwise_definitions db)
  intro d e hlt a ha b hb
  rw [(assignment?_dst ha).1, (assignment?_dst hb).1]
  exact hlt

theorem nodup_assignments (db : SymbolDb) : (db.assignments.map (·.dst)).Nodup :=
  pairwise_map.mpr ((pairwise_assignments db).imp Nat.ne_of_lt)

/-! ## 7. Values and chains -/

/-- The offset is added modulo 2^64. -/
theorem Redirect.toNat_apply (redirect : Redirect) (v : UInt64) :
    ((redirect.apply v).toNat : Int) = (v.toNat + redirect.offset.toInt) % 2 ^ 64 := by
  have hadd : (redirect.apply v).toBitVec = v.toBitVec + redirect.offset.toBitVec := rfl
  have hsigned : redirect.offset.toInt = (redirect.offset.toBitVec.toNat : Int).bmod (2 ^ 64) :=
    BitVec.toInt_eq_toNat_bmod _
  have hmod : redirect.offset.toInt % 2 ^ 64 = (redirect.offset.toBitVec.toNat : Int) % 2 ^ 64 := by
    rw [hsigned]
    exact Int.bmod_emod
  rw [← UInt64.toNat_toBitVec, hadd, BitVec.toNat_add, Int.natCast_emod, Int.natCast_add,
    Int.natCast_pow, Int.add_emod, Int.add_emod (v.toNat : Int), hmod]
  rfl

theorem Redirect.apply_eq_iff (redirect : Redirect) (v w : UInt64) :
    w = redirect.apply v ↔ (w.toNat : Int) = (v.toNat + redirect.offset.toInt) % 2 ^ 64 := by
  rw [← Redirect.toNat_apply, Int.natCast_inj, UInt64.toNat_inj]

theorem Redirect.apply_injective (redirect : Redirect) : Function.Injective redirect.apply := by
  intro v w h
  have hadd : v.toBitVec + redirect.offset.toBitVec = w.toBitVec + redirect.offset.toBitVec :=
    congrArg UInt64.toBitVec h
  exact UInt64.toBitVec_inj.mp ((BitVec.add_left_inj _).mp hadd)

/-- The assignments are those of the canonical redirects. -/
theorem mem_assignments :
    a ∈ db.assignments ↔ ∃ redirect, db.IsRedirect a.dst redirect ∧
      db.target? redirect = some a.src ∧ a.change = redirect.apply := by
  rw [SymbolDb.assignments, mem_filterMap]
  constructor
  · rintro ⟨⟨symbolId, info⟩, hmem, ha⟩
    obtain ⟨hdst, hcanonical, redirect, hplacement, htarget, hchange⟩ := assignment?_dst ha
    refine ⟨redirect, ⟨⟨info, ?_, hplacement⟩, ?_⟩, htarget, hchange⟩
    · rwa [hdst]
    · rwa [hdst]
  · rintro ⟨redirect, ⟨⟨info, hmem, hplacement⟩, hcanonical⟩, htarget, hchange⟩
    refine ⟨(a.dst, info), hmem, ?_⟩
    change db.assignment? a.dst info = some a
    rw [SymbolDb.assignment?, hplacement]
    simp only [hcanonical, htarget]
    rw [if_neg (by decide), map_some, ← hchange]

section

variable (hfound : TargetsFound db db.definitions)
include hfound

variable {s : SymbolId} {resolutions : Resolutions Ext}

theorem SymbolDb.IsRedirect.exists_target {redirect : Redirect}
    (h : db.IsRedirect s redirect) : ∃ t, db.target? redirect = some t := by
  obtain ⟨⟨info, hmem, hplacement⟩, hcanonical⟩ := h
  exact isSome_iff_exists.mp (hfound s info redirect hmem hplacement hcanonical)

theorem mem_dst_iff :
    s ∈ db.assignments.map (·.dst) ↔ ∃ redirect, db.IsRedirect s redirect := by
  rw [List.mem_map]
  constructor
  · rintro ⟨a, ha, rfl⟩
    obtain ⟨redirect, hredirect, -⟩ := mem_assignments.mp ha
    exact ⟨redirect, hredirect⟩
  · rintro ⟨redirect, hredirect⟩
    obtain ⟨t, ht⟩ := hredirect.exists_target hfound
    exact ⟨⟨s, t, redirect.apply⟩, mem_assignments.mpr ⟨redirect, hredirect, ht, rfl⟩, rfl⟩

/-- The value of a chain of targets is that of the chain of sources. -/
theorem chainValue_iff {v : UInt64} :
    db.ChainValue resolutions s v
      ↔ Value db.assignments (rawValues resolutions) s v := by
  constructor
  · intro h
    induction h with
    | @ends s r hnot hr =>
      refine .given ?_ (by rw [rawValues_apply, hr]; rfl)
      rw [mem_dst_iff hfound]
      exact fun ⟨redirect, hredirect⟩ => hnot redirect hredirect
    | @follows s t redirect v hredirect htarget _ ih =>
      exact @OnePass.Value.assigned _ _ _ _ ⟨s, t, redirect.apply⟩ v
        (mem_assignments.mpr ⟨redirect, hredirect, htarget, rfl⟩) ih
  · intro h
    induction h with
    | @given s v hnot hv =>
      rw [mem_dst_iff hfound] at hnot
      obtain ⟨r, hr, rfl⟩ := map_eq_some_iff.mp hv
      exact .ends (fun redirect hredirect => hnot ⟨redirect, hredirect⟩) hr
    | @assigned a v ha _ ih =>
      obtain ⟨redirect, hredirect, htarget, hchange⟩ := mem_assignments.mp ha
      rw [hchange]
      exact .follows hredirect htarget ih

/-- What runs after an assignment is of a later id. -/
theorem mem_after_iff {a : Assignment SymbolId UInt64} (ha : a ∈ db.assignments)
    {t : SymbolId} : t ∈ (after db.assignments a).map (·.dst)
      ↔ a.dst < t ∧ ∃ redirect, db.IsRedirect t redirect := by
  obtain ⟨before, later, hsplit⟩ := append_of_mem ha
  have hordered := pairwise_assignments db
  rw [after_eq hsplit (nodup_assignments db), ← mem_dst_iff hfound, hsplit, map_append,
    map_cons, mem_append, mem_cons]
  rw [hsplit, pairwise_append, pairwise_cons] at hordered
  obtain ⟨-, ⟨hlater, -⟩, hbefore⟩ := hordered
  constructor
  · intro ht
    obtain ⟨b, hb, rfl⟩ := mem_map.mp ht
    exact ⟨hlater b hb, .inr (.inr ht)⟩
  · rintro ⟨hlt, ht | rfl | ht⟩
    · obtain ⟨b, hb, rfl⟩ := mem_map.mp ht
      exact absurd hlt (Nat.lt_asymm (hbefore b hb a mem_cons_self))
    · exact absurd hlt (Nat.lt_irrefl _)
    · exact ht

theorem solves_iff_redirectsResolved :
    Solves db.assignments (rawValues resolutions) ↔ db.RedirectsResolved resolutions := by
  constructor
  · intro h s redirect hredirect r hr
    obtain ⟨t, ht⟩ := hredirect.exists_target hfound
    obtain ⟨w, hw, hvalue⟩ := h ⟨s, t, redirect.apply⟩
      (mem_assignments.mpr ⟨redirect, hredirect, ht, rfl⟩) r.rawValue
      (by rw [rawValues_apply, hr]; rfl)
    obtain ⟨target, htarget, rfl⟩ := map_eq_some_iff.mp hw
    exact ⟨t, target, ht, htarget, (redirect.apply_eq_iff _ _).mp hvalue⟩
  · intro h a ha v hv
    obtain ⟨redirect, hredirect, htarget, hchange⟩ := mem_assignments.mp ha
    obtain ⟨r, hr, rfl⟩ := map_eq_some_iff.mp hv
    obtain ⟨t, target, ht, hresolved, hvalue⟩ := h a.dst redirect hredirect r hr
    cases htarget.symm.trans ht
    refine ⟨target.rawValue, by rw [rawValues_apply, hresolved]; rfl, ?_⟩
    rw [hchange]
    exact (redirect.apply_eq_iff _ _).mpr hvalue

theorem ready_iff_targetsReady :
    Ready db.assignments (rawValues resolutions) ↔ db.TargetsReady resolutions := by
  constructor
  · intro h s redirect hredirect hsome
    obtain ⟨t, ht⟩ := hredirect.exists_target hfound
    have ha : (⟨s, t, redirect.apply⟩ : Assignment SymbolId UInt64) ∈ db.assignments :=
      mem_assignments.mpr ⟨redirect, hredirect, ht, rfl⟩
    obtain ⟨hsrc, hlater⟩ := h _ ha (by rw [rawValues_apply, isSome_map]; exact hsome)
    obtain ⟨v, hv⟩ := isSome_iff_exists.mp hsrc
    obtain ⟨target, htarget, rfl⟩ := map_eq_some_iff.mp hv
    refine ⟨t, target, ht, htarget, fun hlt hother v hchain => ?_⟩
    have hstart := hlater ((mem_after_iff hfound ha).mpr ⟨hlt, hother⟩) v
      ((chainValue_iff hfound).mp hchain)
    exact some.inj (hstart.symm.trans hv)
  · intro h a ha hsome
    obtain ⟨redirect, hredirect, htarget, -⟩ := mem_assignments.mp ha
    rw [rawValues_apply, isSome_map] at hsome
    obtain ⟨t, target, ht, hresolved, hvalue⟩ := h a.dst redirect hredirect hsome
    cases htarget.symm.trans ht
    rw [rawValues_apply, hresolved]
    refine ⟨rfl, fun hmem v hv => ?_⟩
    obtain ⟨hlt, hother⟩ := (mem_after_iff hfound ha).mp hmem
    rw [hvalue hlt hother v ((chainValue_iff hfound).mpr hv)]
    rfl

end

/-! ## 8. When the values are right -/

theorem SymbolDb.Grounded.targetsFound
    (h : db.Grounded resolutions) : TargetsFound db db.definitions := by
  intro s info redirect hmem hplacement hcanonical
  have hredirect : db.IsRedirect s redirect := ⟨⟨info, hmem, hplacement⟩, hcanonical⟩
  obtain ⟨t, -, ht, -⟩ := h s redirect hredirect
  rw [ht]
  rfl

/-- **The values are right exactly where no redirect is to a later one whose placeholder is not
its value yet**: for all definitions without a cycle. -/
theorem redirectsResolved_iff {resolutions : Resolutions Ext} (h : db.Grounded resolutions) :
    (∃ final, updateRedirectResolutions db resolutions = .ok final ∧ db.RedirectsResolved final)
      ↔ db.TargetsReady resolutions := by
  have hfound := h.targetsFound
  obtain ⟨final, hfinal, hvalues⟩ := updateRedirectResolutions_run hfound resolutions
  have hsolves := @OnePass.solves_iff _ _ _ db.assignments (rawValues resolutions)
    (nodup_assignments db) ?_ ?_
  · rw [← hvalues, solves_iff_redirectsResolved hfound, ready_iff_targetsReady hfound] at hsolves
    rw [← hsolves]
    constructor
    · rintro ⟨other, hother, hresolved⟩
      cases hfinal.symm.trans hother
      exact hresolved
    · exact fun hresolved => ⟨final, hfinal, hresolved⟩
  · intro a ha
    obtain ⟨redirect, -, -, hchange⟩ := mem_assignments.mp ha
    rw [hchange]
    exact redirect.apply_injective
  · intro a ha
    obtain ⟨redirect, hredirect, htarget, -⟩ := mem_assignments.mp ha
    obtain ⟨t, v, ht, hchain⟩ := h a.dst redirect hredirect
    cases htarget.symm.trans ht
    exact ⟨v, (chainValue_iff hfound).mp hchain⟩

variable {r : Resolution Ext}

/-- **Where the targets are ready, each redirect gets the value of its chain**, which says nothing
of the order of the definitions. -/
theorem rawValue_eq_chainValue {final : Resolutions Ext} (h : db.Grounded resolutions)
    (hready : db.TargetsReady resolutions)
    (hfinal : updateRedirectResolutions db resolutions = .ok final) {v : UInt64}
    (hchain : db.ChainValue resolutions s v) (hr : final s = some r) :
    r.rawValue = v := by
  have hfound := h.targetsFound
  obtain ⟨other, hother, hvalues⟩ := updateRedirectResolutions_run hfound resolutions
  cases hfinal.symm.trans hother
  refine eq_of_ready (nodup_assignments db) ((ready_iff_targetsReady hfound).mpr hready)
    ((chainValue_iff hfound).mp hchain) r.rawValue ?_
  rw [← hvalues, rawValues_apply, hr]
  rfl

/-- The resolutions of the definitions are those that the layout makes. -/
def FromLayout (resources : Resources Ext) (db : SymbolDb) (resolutions : Resolutions Ext) : Prop :=
  ∀ s info, (s, info) ∈ db.definitions →
    resolutions s = createInternalSymbolResolution resources db info s

variable {resources : Resources Ext} {redirect : Redirect}

/-- The placeholder of a redirect is zero. -/
theorem FromLayout.rawValue_eq_zero
    (h : FromLayout resources db resolutions)
    (hkeeps : ∀ s absolute v, (resources.createResolution s absolute v).rawValue = v) (hredirect : db.IsRedirect s redirect) (hr : resolutions s = some r) : r.rawValue = 0 := by
  obtain ⟨⟨info, hmem, hplacement⟩, -⟩ := hredirect
  rw [h s info hmem, createInternalSymbolResolution] at hr
  split at hr
  · cases hr
  · split at hr
    · cases hr
    · rw [internalRawValue, hplacement] at hr
      cases hr
      exact hkeeps _ _ _

/-- After the layout, a target that is a later redirect is ready when its chain has the value 0. -/
theorem targetsReady_iff_of_layout
    (h : FromLayout resources db resolutions)
    (hkeeps : ∀ s absolute v, (resources.createResolution s absolute v).rawValue = v) :
    db.TargetsReady resolutions ↔ ∀ s redirect, db.IsRedirect s redirect → (resolutions s).isSome →
      ∃ t, db.target? redirect = some t ∧ (resolutions t).isSome ∧
        (s < t → (∃ other, db.IsRedirect t other) →
          ∀ v, db.ChainValue resolutions t v → v = 0) := by
  constructor
  · intro hready s redirect hredirect hsome
    obtain ⟨t, target, ht, htarget, hvalue⟩ := hready s redirect hredirect hsome
    refine ⟨t, ht, by rw [htarget]; rfl, fun hlt ⟨other, hother⟩ v hchain => ?_⟩
    rw [hvalue hlt ⟨other, hother⟩ v hchain, h.rawValue_eq_zero hkeeps hother htarget]
  · intro hzero s redirect hredirect hsome
    obtain ⟨t, ht, htarget, hvalue⟩ := hzero s redirect hredirect hsome
    obtain ⟨target, htarget⟩ := isSome_iff_exists.mp htarget
    refine ⟨t, target, ht, htarget, fun hlt ⟨other, hother⟩ v hchain => ?_⟩
    rw [hvalue hlt ⟨other, hother⟩ v hchain, h.rawValue_eq_zero hkeeps hother htarget]

/-! ## 9. Two definitions in both orders -/

/-- The undefined symbol, two definitions of the command line, and a symbol `c` of an object. -/
def twoDefsyms (first second : Bytes × DefsymValue) : SymbolDb where
  groups := [.prelude (preludeNew [.new .undefined []] [] [first, second]), .other ⟨3, 1⟩]
  symbolDefinitions := id
  getUnversioned name :=
    if name = first.1 then some 1 else if name = second.1 then some 2
    else if name = [99] then some 3 else none
  numbered := ⟨4, rfl, rfl, rfl⟩

theorem isRedirect_twoDefsyms {name name' target target' : Bytes} :
    (twoDefsyms (name, .symbolWithOffset target 0)
        (name', .symbolWithOffset target' 0)).IsRedirect s redirect
      ↔ (s = 1 ∧ redirect = ⟨.defSym, target, 0⟩) ∨ (s = 2 ∧ redirect = ⟨.defSym, target', 0⟩) := by
  have hdefinitions : (twoDefsyms (name, .symbolWithOffset target 0)
      (name', .symbolWithOffset target' 0)).definitions = [(0, .new .undefined []),
      (1, .new (.redirect ⟨.defSym, target, 0⟩) name),
      (2, .new (.redirect ⟨.defSym, target', 0⟩) name')] := rfl
  have hcanonical : (twoDefsyms (name, .symbolWithOffset target 0)
      (name', .symbolWithOffset target' 0)).isCanonical s = true := decide_eq_true rfl
  simp only [SymbolDb.IsRedirect, hdefinitions, hcanonical, mem_cons, not_mem_nil,
    Prod.mk.injEq, or_false, and_true]
  constructor
  · rintro ⟨info, ⟨rfl, rfl⟩ | ⟨rfl, rfl⟩ | ⟨rfl, rfl⟩, hplacement⟩
    · cases hplacement
    · exact .inl ⟨rfl, (SymbolPlacement.redirect.inj hplacement).symm⟩
    · exact .inr ⟨rfl, (SymbolPlacement.redirect.inj hplacement).symm⟩
  · rintro (⟨rfl, rfl⟩ | ⟨rfl, rfl⟩)
    · exact ⟨_, .inr (.inl ⟨rfl, rfl⟩), rfl⟩
    · exact ⟨_, .inr (.inr ⟨rfl, rfl⟩), rfl⟩

/-- The placeholders, and the address of `c`. -/
def atAddress : Resolutions Unit := fun s => if s = 3 then some ⟨0x1000, ()⟩ else some ⟨0, ()⟩

/-- `--defsym=b=c --defsym=a=b` -/
def targetFirst : SymbolDb :=
  twoDefsyms ([98], .symbolWithOffset [99] 0) ([97], .symbolWithOffset [98] 0)

/-- `--defsym=a=b --defsym=b=c` -/
def targetLater : SymbolDb :=
  twoDefsyms ([97], .symbolWithOffset [98] 0) ([98], .symbolWithOffset [99] 0)

/-- The object's symbol is where both chains end. -/
theorem chainValue_object {first second : Bytes × DefsymValue}
    (h : ∀ redirect, ¬ (twoDefsyms first second).IsRedirect 3 redirect) :
    (twoDefsyms first second).ChainValue atAddress 3 0x1000 :=
  @SymbolDb.ChainValue.ends _ _ _ 3 ⟨0x1000, ()⟩ h rfl

theorem grounded_targetFirst : targetFirst.Grounded atAddress := by
  have hobject : targetFirst.ChainValue atAddress 3 0x1000 :=
    chainValue_object fun redirect h => by
      obtain ⟨h, -⟩ | ⟨h, -⟩ := isRedirect_twoDefsyms.mp h <;> cases h
  intro s redirect h
  obtain ⟨rfl, rfl⟩ | ⟨rfl, rfl⟩ := isRedirect_twoDefsyms.mp h
  · exact ⟨3, _, by decide, hobject⟩
  · exact ⟨1, _, by decide,
      .follows (isRedirect_twoDefsyms.mpr (.inl ⟨rfl, rfl⟩)) (by decide) hobject⟩

theorem grounded_targetLater : targetLater.Grounded atAddress := by
  have hobject : targetLater.ChainValue atAddress 3 0x1000 :=
    chainValue_object fun redirect h => by
      obtain ⟨h, -⟩ | ⟨h, -⟩ := isRedirect_twoDefsyms.mp h <;> cases h
  intro s redirect h
  obtain ⟨rfl, rfl⟩ | ⟨rfl, rfl⟩ := isRedirect_twoDefsyms.mp h
  · exact ⟨2, _, by decide,
      .follows (isRedirect_twoDefsyms.mpr (.inr ⟨rfl, rfl⟩)) (by decide) hobject⟩
  · exact ⟨3, _, by decide, hobject⟩

/-- With the target first both symbols get the address. -/
theorem redirectsResolved_iff_targetFirst :
    ∃ final, updateRedirectResolutions targetFirst atAddress = .ok final ∧
      targetFirst.RedirectsResolved final := by
  refine (redirectsResolved_iff grounded_targetFirst).mpr ?_
  intro s redirect h _
  obtain ⟨rfl, rfl⟩ | ⟨rfl, rfl⟩ := isRedirect_twoDefsyms.mp h
  · exact ⟨3, ⟨0x1000, ()⟩, by decide, rfl, fun _ ⟨other, hother⟩ => by
      obtain ⟨h, -⟩ | ⟨h, -⟩ := isRedirect_twoDefsyms.mp hother <;> cases h⟩
  · exact ⟨1, ⟨0, ()⟩, by decide, rfl, fun hlt => absurd hlt (by decide)⟩

/-- With the target later `a` keeps 0, and `b` gets the address of `c`. -/
theorem not_redirectsResolved_targetLater : targetLater.Grounded atAddress ∧
    ¬ ∃ final, updateRedirectResolutions targetLater atAddress = .ok final ∧
      targetLater.RedirectsResolved final := by
  refine ⟨grounded_targetLater, ?_⟩
  rintro ⟨final, hfinal, hresolved⟩
  cases hfinal
  obtain ⟨t, target, ht, htarget, hvalue⟩ := hresolved 1 ⟨.defSym, [98], 0⟩
    (isRedirect_twoDefsyms.mpr (.inl ⟨rfl, rfl⟩)) ⟨0, ()⟩ rfl
  have hlater : targetLater.target? ⟨.defSym, [98], 0⟩ = some 2 := by decide
  obtain rfl : 2 = t := some.inj (hlater.symm.trans ht)
  obtain rfl : ⟨0x1000, ()⟩ = target := some.inj htarget
  exact absurd hvalue (by decide)

end Srs.Redirects
