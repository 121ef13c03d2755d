/-
# The symbol versions

The dynamic symbols and their versions are written side by side: each group of files has space for
as many versions as it has symbols, and the definitions come last, in chunks that are written in
parallel.  A definition from a linker script gets a symbol but no version, so the versions behind
it in its chunk move up and the last ones of the chunk are not written
(`versions_aligned_iff`).

What else goes into a symbol entry is left out; it can fail (`writable`).
-/
import Srs.Dynamic.Flags
import Srs.Dynamic.HashTables
import Srs.Lib.Tiling

namespace Srs.Dynamic

open Tiling List Option

/-! ## 1. Tables -/

/-- Space for entries that is written from the front; `none` is an entry that was not written. -/
structure Slots (α : Type) where
  table : List (Option α)
  free : Nat
  deriving DecidableEq

namespace Slots

variable {α : Type}

/-- `split_off_first_mut` -/
def push (s : Slots α) (a : α) : Option (Slots α) :=
  match s.free with
  | 0 => none
  | free + 1 => some ⟨s.table ++ [some a], free⟩

/-- What is in the space at the end. -/
def final (s : Slots α) : List (Option α) := s.table ++ replicate s.free none

theorem push_eq_some {s s' : Slots α} {a : α} (h : s.push a = some s') :
    s'.table = s.table ++ [some a] ∧ s.free = s'.free + 1 := by
  unfold push at h
  cases hfree : s.free with
  | zero => simp [hfree] at h
  | succ free =>
    rw [hfree] at h
    cases h
    exact ⟨rfl, rfl⟩

end Slots

/-! ## 2. Files -/

def verNdxGlobal : Nat := 1

structure SharedSymbol where
  symbolId : Nat
  resolved : Bool
  needsCopyRelocation : Bool
  deriving DecidableEq

structure SharedObject where
  symbols : List SharedSymbol
  versym : List Nat
  versionMapping : List Nat
  deriving DecidableEq

/-- The output version of `copy_symbol_version`; `none` where the mapping is too short. -/
def SharedObject.outputVersion (o : SharedObject) (localSymbolIndex : Nat) : Option Nat :=
  match o.versym[localSymbolIndex]? with
  | none => some verNdxGlobal
  | some versym =>
    let inputVersion := versym &&& 0x7fff
    if inputVersion ≤ verNdxGlobal then some inputVersion
    else o.versionMapping[inputVersion - 1]?

structure ObjectSymbolLayout where
  symbolId : Nat
  isDynamic : Bool
  isLocal : Bool
  deriving DecidableEq

inductive FileLayout where
  | prelude
  | object (symbols : List ObjectSymbolLayout)
  | dynamic (file : SharedObject)
  | linkerScript
  | syntheticSymbols
  | notLoaded
  deriving DecidableEq

/-- The file that a dynamic symbol definition is from. -/
inductive DefiningFile where
  | object
  | dynamic (file : SharedObject) (localSymbolIndex : Nat)
  | linkerScript
  | prelude
  | other
  deriving DecidableEq

structure LocatedDefinition where
  symDef : DynamicSymbolDefinition
  file : DefiningFile
  deriving DecidableEq

/-- What an entry of `.dynsym` is for. -/
inductive DynSymbol where
  | null
  | weakUndefined (symbolId : Nat)
  | imported (file : SharedObject) (localSymbolIndex : Nat)
  | definition (d : LocatedDefinition)
  deriving DecidableEq

/-- The version of a dynamic symbol; the null symbol has none. -/
def DynSymbol.version : DynSymbol → Option Nat
  | null => none
  | weakUndefined _ => some verNdxGlobal
  | imported file i => file.outputVersion i
  | definition ⟨symDef, file⟩ =>
    match file with
    | .dynamic file i => file.outputVersion i
    | _ => some symDef.version

/-! ## 3. The writer -/

structure TableWriter where
  dynsym : Slots DynSymbol
  versym : Option (Slots Nat)
  deriving DecidableEq

section

variable (writable : DynSymbol → Bool)

def TableWriter.defineSymbol (w : TableWriter) (symbol : DynSymbol) : Option TableWriter :=
  if writable symbol then (w.dynsym.push symbol).map fun dynsym => { w with dynsym := dynsym }
  else none

/-- `set_next_symbol_version`, `write_symbol_version` and `copy_symbol_version`: nothing is done
where there is no version table. -/
def TableWriter.writeVersion (w : TableWriter) (version : Option Nat) : Option TableWriter :=
  match w.versym with
  | none => some w
  | some versym =>
    version.bind fun version =>
      (versym.push version).map fun versym => { w with versym := some versym }

/-- One symbol of `write_object`: a weak reference that no shared object defines.  The writer has
no space for local symbols. -/
def writeObjectSymbol (w : TableWriter) (symbol : ObjectSymbolLayout) : Option TableWriter :=
  if symbol.isDynamic then
    if symbol.isLocal then none
    else
      (w.defineSymbol writable (.weakUndefined symbol.symbolId)).bind
        (·.writeVersion (some verNdxGlobal))
  else some w

/-- The symbols of `write_dynamic_file` from an index on. -/
def writeSharedSymbols (file : SharedObject) :
    List SharedSymbol → Nat → TableWriter → Option TableWriter
  | [], _, w => some w
  | symbol :: rest, i, w =>
    (if symbol.resolved && !symbol.needsCopyRelocation then
        (w.defineSymbol writable (.imported file i)).bind (·.writeVersion (file.outputVersion i))
      else some w).bind (writeSharedSymbols file rest (i + 1))

/-- `write_file`, except for the epilogue -/
def writeFile (kind : OutputKind) (w : TableWriter) : FileLayout → Option TableWriter
  | .prelude =>
    (w.writeVersion (some verNdxGlobal)).bind fun w =>
      if kind.needsDynsym then w.defineSymbol writable .null else some w
  | .object symbols => symbols.foldlM (writeObjectSymbol writable) w
  | .dynamic file => writeSharedSymbols writable file file.symbols 0 w
  | .linkerScript | .syntheticSymbols | .notLoaded => some w

/-- One definition of `write_dynamic_symbol_definitions`. -/
def writeDefinition (w : TableWriter) (d : LocatedDefinition) : Option TableWriter :=
  match d.file with
  | .object | .prelude =>
    (w.defineSymbol writable (.definition d)).bind (·.writeVersion (some d.symDef.version))
  | .dynamic file i =>
    (w.defineSymbol writable (.definition d)).bind (·.writeVersion (file.outputVersion i))
  | .linkerScript => w.defineSymbol writable (.definition d)
  | .other => none

/-- Takes the space for a chunk from the front and writes the chunk there. -/
def writeChunk (w : TableWriter) (defs : List LocatedDefinition) : Option TableWriter :=
  if w.dynsym.free < defs.length ∨ w.versym.any (·.free < defs.length) then none
  else
    (defs.foldlM (writeDefinition writable)
      ⟨⟨[], defs.length⟩, w.versym.map fun _ => ⟨[], defs.length⟩⟩).map fun chunk =>
      ⟨⟨w.dynsym.table ++ chunk.dynsym.final, w.dynsym.free - defs.length⟩,
        w.versym.map fun versym =>
          ⟨versym.table ++ (chunk.versym.map (·.final)).getD [], versym.free - defs.length⟩⟩

def writeDynamicSymbolDefinitions (threads : Nat) (w : TableWriter)
    (defs : List LocatedDefinition) : Option TableWriter :=
  (chunks (max 10 (defs.length / 10 / threads)) defs).foldlM (writeChunk writable) w

end

/-! ## 4. The output -/

/-- The files of a group and how many dynamic symbols it was given space for. -/
structure FileGroup where
  files : List FileLayout
  numDynamicSymbols : Nat
  deriving DecidableEq

/-- The epilogue is the last file of the last group. -/
structure DynamicLayout where
  kind : OutputKind
  versionsUsed : Bool
  groups : List FileGroup
  lastGroup : FileGroup
  definitions : List LocatedDefinition
  deriving DecidableEq

namespace DynamicLayout

/-- Whether `.gnu.version` has space: `finalise_gnu_version_size` and
`apply_non_addressable_indexes`. -/
def versioning (l : DynamicLayout) : Bool := l.kind.shouldOutputSymbolVersions && l.versionsUsed

/-- `TableWriter::new` for a group -/
def tableWriter (l : DynamicLayout) (g : FileGroup) : TableWriter :=
  ⟨⟨[], g.numDynamicSymbols⟩,
    if l.versioning ∧ g.numDynamicSymbols ≠ 0 then some ⟨[], g.numDynamicSymbols⟩ else none⟩

end DynamicLayout

/-- `validate_empty`, and the tables of a group. -/
def TableWriter.finish (w : TableWriter) : Option (List (Option DynSymbol) × List (Option Nat)) :=
  if w.dynsym.free = 0 ∧ w.versym.all (·.free == 0) then
    some (w.dynsym.table, (w.versym.map (·.table)).getD [])
  else none

section

variable (writable : DynSymbol → Bool)

def writeFiles (l : DynamicLayout) (g : FileGroup) : Option TableWriter :=
  g.files.foldlM (writeFile writable l.kind) (l.tableWriter g)

def writeGroups (l : DynamicLayout) :
    List FileGroup → Option (List (Option DynSymbol) × List (Option Nat))
  | [] => some ([], [])
  | g :: rest =>
    (writeFiles writable l g).bind fun w => w.finish.bind fun written =>
      (writeGroups l rest).map fun more => (written.1 ++ more.1, written.2 ++ more.2)

/-- `.dynsym` and `.gnu.version` as they are written. -/
def writeDynamicTables (threads : Nat) (l : DynamicLayout) :
    Option (List (Option DynSymbol) × List (Option Nat)) :=
  (writeGroups writable l l.groups).bind fun written =>
    (writeFiles writable l l.lastGroup).bind fun w =>
      (writeDynamicSymbolDefinitions writable threads w l.definitions).bind fun w =>
        w.finish.map fun last => (written.1 ++ last.1, written.2 ++ last.2)

end

/-! ## 5. Symbols and versions in step -/

/-- Both entries are written, and the second is the version of the first. -/
def EntryMatches (symbol : Option DynSymbol) (version : Option Nat) : Prop :=
  ∃ s v, symbol = some s ∧ version = some v ∧ ∀ x, s.version = some x → v = x

/-- There are as many versions as symbols, all written, and each is that of its symbol. -/
def Aligned (dynsym : List (Option DynSymbol)) (versym : List (Option Nat)) : Prop :=
  Forall₂ EntryMatches dynsym versym

/-- As much space is left for versions as for symbols; a group without space has no versions. -/
def TableWriter.InStep (w : TableWriter) : Prop :=
  match w.versym with
  | none => w.dynsym = ⟨[], 0⟩
  | some versym => Aligned w.dynsym.table versym.table ∧ w.dynsym.free = versym.free

theorem Aligned.concat {dynsym : List (Option DynSymbol)} {versym : List (Option Nat)}
    (h : Aligned dynsym versym) {symbol : DynSymbol} {v : Nat}
    (hv : ∀ x, symbol.version = some x → v = x) :
    Aligned (dynsym ++ [some symbol]) (versym ++ [some v]) :=
  rel_append h (Forall₂.cons ⟨symbol, v, rfl, rfl, hv⟩ Forall₂.nil)

section

variable {writable : DynSymbol → Bool}

variable {w w' : TableWriter} {symbol : DynSymbol} {versym : Slots Nat}
  {defs : List LocatedDefinition}

theorem defineSymbol_eq_some (h : w.defineSymbol writable symbol = some w') :
    w'.versym = w.versym ∧ w'.dynsym.table = w.dynsym.table ++ [some symbol] ∧
      w.dynsym.free = w'.dynsym.free + 1 := by
  unfold TableWriter.defineSymbol at h
  split at h
  · obtain ⟨dynsym, hpush, rfl⟩ := map_eq_some_iff.mp h
    exact ⟨rfl, Slots.push_eq_some hpush⟩
  · exact absurd h (by simp)

variable {version : Option Nat}

theorem writeVersion_eq_some
    (hversym : w.versym = some versym) (h : w.writeVersion version = some w') :
    ∃ v versym', version = some v ∧ w'.versym = some versym' ∧ w'.dynsym = w.dynsym ∧
      versym'.table = versym.table ++ [some v] ∧ versym.free = versym'.free + 1 := by
  unfold TableWriter.writeVersion at h
  rw [hversym] at h
  obtain ⟨v, hv, hmap⟩ := bind_eq_some_iff.mp h
  obtain ⟨versym', hpush, rfl⟩ := map_eq_some_iff.mp hmap
  exact ⟨v, versym', hv, rfl, rfl, Slots.push_eq_some hpush⟩

/-- There is space for the symbol, so there are versions. -/
theorem TableWriter.InStep.versym_of_define (h : w.InStep)
    (hdefine : w.defineSymbol writable symbol = some w') :
    ∃ versym, w.versym = some versym ∧ Aligned w.dynsym.table versym.table ∧
      w.dynsym.free = versym.free := by
  unfold TableWriter.InStep at h
  cases hversym : w.versym with
  | none =>
    rw [hversym] at h
    have hfree := (defineSymbol_eq_some hdefine).2.2
    rw [show w.dynsym = ⟨[], 0⟩ from h] at hfree
    exact absurd hfree (Nat.succ_ne_zero _).symm
  | some versym =>
    rw [hversym] at h
    exact ⟨versym, rfl, h⟩

/-- **A symbol and its version.** -/
theorem TableWriter.InStep.define (h : w.InStep) (hversion : ∀ x, symbol.version = some x → version = some x)
    (hwrite : ((w.defineSymbol writable symbol).bind (·.writeVersion version)) = some w') :
    w'.InStep := by
  obtain ⟨w₁, hdefine, hwrite⟩ := bind_eq_some_iff.mp hwrite
  obtain ⟨versym, hversym, haligned, hfree⟩ := h.versym_of_define hdefine
  obtain ⟨hversym₁, htable, hfree₁⟩ := defineSymbol_eq_some hdefine
  obtain ⟨v, versym', hv, hversym', hdynsym, htable', hfree'⟩ :=
    writeVersion_eq_some (hversym₁.trans hversym) hwrite
  unfold TableWriter.InStep
  rw [hversym']
  constructor
  · rw [hdynsym, htable, htable']
    refine haligned.concat ?_
    intro x hx
    exact some.inj (hv.symm.trans (hversion x hx))
  · rw [hdynsym]
    omega

/-- The null symbol: its version comes first. -/
theorem TableWriter.InStep.prelude (h : w.InStep)
    {version : Nat} (hwrite : ((w.writeVersion (some version)).bind
      (·.defineSymbol writable .null)) = some w') :
    w'.InStep := by
  obtain ⟨w₁, hversion, hdefine⟩ := bind_eq_some_iff.mp hwrite
  obtain ⟨hversym', htable, hfree⟩ := defineSymbol_eq_some hdefine
  unfold TableWriter.InStep at h
  cases hversym : w.versym with
  | none =>
    rw [hversym] at h
    rw [TableWriter.writeVersion, hversym] at hversion
    obtain rfl : w = w₁ := some.inj hversion
    rw [show w.dynsym = ⟨[], 0⟩ from h] at hfree
    exact absurd hfree (Nat.succ_ne_zero _).symm
  | some versym =>
    rw [hversym] at h
    obtain ⟨v, versym₁, -, hversym₁, hdynsym, htable₁, hfree₁⟩ :=
      writeVersion_eq_some hversym hversion
    unfold TableWriter.InStep
    rw [hversym', hversym₁]
    rw [hdynsym] at htable hfree
    have hfreeEq : w.dynsym.free = versym.free := h.2
    constructor
    · rw [htable, htable₁]
      exact h.1.concat nofun
    · omega

/-- A loop keeps what its step keeps. -/
theorem foldlM_inStep {α : Type} {step : TableWriter → α → Option TableWriter} {xs : List α}
    (hstep : ∀ x ∈ xs, ∀ w w', w.InStep → step w x = some w' → w'.InStep)
    (h : w.InStep) (hrun : xs.foldlM step w = some w') : w'.InStep := by
  induction xs generalizing w with
  | nil =>
    obtain rfl : w = w' := some.inj hrun
    exact h
  | cons x xs ih =>
    rw [foldlM_cons] at hrun
    obtain ⟨w₁, hfirst, hrest⟩ := bind_eq_some_iff.mp hrun
    exact ih (fun y hy => hstep y (mem_cons_of_mem x hy))
      (hstep x mem_cons_self w w₁ h hfirst) hrest

theorem writeSharedSymbols_inStep {file : SharedObject} {symbols : List SharedSymbol} {i : Nat}
    (h : w.InStep)
    (hwrite : writeSharedSymbols writable file symbols i w = some w') : w'.InStep := by
  induction symbols generalizing i w with
  | nil =>
    obtain rfl : w = w' := some.inj hwrite
    exact h
  | cons symbol rest ih =>
    obtain ⟨w₁, hfirst, hrest⟩ := bind_eq_some_iff.mp hwrite
    refine ih ?_ hrest
    split at hfirst
    · exact h.define (fun _ hx => hx) hfirst
    · obtain rfl : w = w₁ := some.inj hfirst
      exact h

/-- **Every file** but the epilogue writes symbols and versions in step. -/
theorem writeFile_inStep {kind : OutputKind} (hkind : kind.needsDynsym = true)
    {file : FileLayout} (h : w.InStep)
    (hwrite : writeFile writable kind w file = some w') : w'.InStep := by
  cases file with
  | prelude =>
    unfold writeFile at hwrite
    simp only [hkind, if_true] at hwrite
    exact h.prelude hwrite
  | object symbols =>
    refine foldlM_inStep ?_ h hwrite
    intro symbol _ w w' h hstep
    unfold writeObjectSymbol at hstep
    split at hstep
    · split at hstep
      · exact absurd hstep (by simp)
      · exact h.define (fun _ hx => hx) hstep
    · obtain rfl : w = w' := some.inj hstep
      exact h
  | dynamic file => exact writeSharedSymbols_inStep h hwrite
  | linkerScript => exact some.inj hwrite ▸ h
  | syntheticSymbols => exact some.inj hwrite ▸ h
  | notLoaded => exact some.inj hwrite ▸ h

/-! ## 6. The definitions -/

variable {d : LocatedDefinition}

/-- A definition always takes the space of a symbol, and that of a version unless it is from a
linker script. -/
theorem writeDefinition_eq_some
    (hversym : w.versym = some versym) (h : writeDefinition writable w d = some w') :
    w.dynsym.free = w'.dynsym.free + 1 ∧
      ∃ versym', w'.versym = some versym' ∧
        versym.free = versym'.free + if d.file = .linkerScript then 0 else 1 := by
  have hboth : ∀ version, d.file ≠ .linkerScript →
      ((w.defineSymbol writable (.definition d)).bind (·.writeVersion version)) = some w' →
      w.dynsym.free = w'.dynsym.free + 1 ∧
        ∃ versym', w'.versym = some versym' ∧
          versym.free = versym'.free + if d.file = .linkerScript then 0 else 1 := by
    intro version hne hwrite
    obtain ⟨w₁, hdefine, hwrite⟩ := bind_eq_some_iff.mp hwrite
    obtain ⟨hversym₁, -, hfree⟩ := defineSymbol_eq_some hdefine
    obtain ⟨v, versym', -, hversym', hdynsym, -, hfree'⟩ :=
      writeVersion_eq_some (hversym₁.trans hversym) hwrite
    rw [hdynsym, if_neg hne]
    exact ⟨hfree, versym', hversym', hfree'⟩
  unfold writeDefinition at h
  split at h
  · next hfile => exact hboth _ (by rw [hfile]; nofun) h
  · next hfile => exact hboth _ (by rw [hfile]; nofun) h
  · next hfile => exact hboth _ (by rw [hfile]; nofun) h
  · next hfile =>
    obtain ⟨hversym', -, hfree⟩ := defineSymbol_eq_some h
    rw [if_pos hfile]
    exact ⟨hfree, versym, hversym'.trans hversym, rfl⟩
  · exact absurd h (by simp)

theorem writeDefinition_inStep (hd : d.file ≠ .linkerScript) (h : w.InStep)
    (hwrite : writeDefinition writable w d = some w') :
    w'.InStep := by
  obtain ⟨symDef, file⟩ := d
  cases file with
  | object => exact h.define (fun _ hx => hx) hwrite
  | dynamic file i => exact h.define (fun _ hx => hx) hwrite
  | linkerScript => exact absurd rfl hd
  | prelude => exact h.define (fun _ hx => hx) hwrite
  | other => exact absurd hwrite (by simp [writeDefinition])

/-- The space that is left after a run of definitions. -/
theorem writeDefinitions_free (hversym : w.versym = some versym)
    (h : defs.foldlM (writeDefinition writable) w = some w') :
    w.dynsym.free = w'.dynsym.free + defs.length ∧
      ∃ versym', w'.versym = some versym' ∧
        versym.free = versym'.free + defs.countP (·.file ≠ .linkerScript) := by
  induction defs generalizing w versym with
  | nil =>
    obtain rfl : w = w' := some.inj h
    exact ⟨rfl, versym, hversym, rfl⟩
  | cons d defs ih =>
    rw [foldlM_cons] at h
    obtain ⟨w₁, hfirst, hrest⟩ := bind_eq_some_iff.mp h
    obtain ⟨hfree, versym₁, hversym₁, hfree₁⟩ := writeDefinition_eq_some hversym hfirst
    obtain ⟨hfree', versym', hversym', hfree₂⟩ := ih hversym₁ hrest
    refine ⟨by rw [length_cons]; omega, versym', hversym', ?_⟩
    rw [hfree₁, hfree₂, countP_cons]
    by_cases hfile : d.file = .linkerScript
    · simp [hfile]
    · simp [hfile]
      omega

/-- What `writeChunk` does where there are versions. -/
theorem writeChunk_eq_some (hversym : w.versym = some versym)
    (h : writeChunk writable w defs = some w') :
    ∃ chunk chunkVersym, defs.foldlM (writeDefinition writable)
        ⟨⟨[], defs.length⟩, some ⟨[], defs.length⟩⟩ = some chunk ∧
      chunk.versym = some chunkVersym ∧ chunk.dynsym.free = 0 ∧
      chunkVersym.free + defs.countP (·.file ≠ .linkerScript) = defs.length ∧
      w'.dynsym = ⟨w.dynsym.table ++ chunk.dynsym.table, w.dynsym.free - defs.length⟩ ∧
      w'.versym = some ⟨versym.table ++ chunkVersym.final, versym.free - defs.length⟩ := by
  unfold writeChunk at h
  split at h
  · exact absurd h (by simp)
  · rw [hversym, map_some] at h
    obtain ⟨chunk, hchunk, rfl⟩ := map_eq_some_iff.mp h
    obtain ⟨hfree, chunkVersym, hchunkVersym, hfree'⟩ := writeDefinitions_free rfl hchunk
    have hzero : chunk.dynsym.free = 0 := by
      change defs.length = _ at hfree
      omega
    refine ⟨chunk, chunkVersym, hchunk, hchunkVersym, hzero, hfree'.symm, ?_, ?_⟩
    · rw [Slots.final, hzero, replicate_zero, append_nil]
    · rw [hchunkVersym]
      rfl

/-- There is no space for a chunk in a group without versions. -/
theorem TableWriter.InStep.versym_of_chunk (h : w.InStep) (hdefs : defs ≠ [])
    (hwrite : writeChunk writable w defs = some w') :
    ∃ versym, w.versym = some versym := by
  unfold TableWriter.InStep at h
  cases hversym : w.versym with
  | none =>
    rw [hversym] at h
    unfold writeChunk at hwrite
    rw [show w.dynsym = ⟨[], 0⟩ from h,
      if_pos (.inl (length_pos_iff.mpr hdefs))] at hwrite
    exact absurd hwrite (by simp)
  | some versym => exact ⟨versym, rfl⟩

/-- **A chunk without definitions from linker scripts** is written in step. -/
theorem writeChunk_inStep (hdefs : defs ≠ [])
    (hscript : ∀ d ∈ defs, d.file ≠ .linkerScript) (h : w.InStep)
    (hwrite : writeChunk writable w defs = some w') : w'.InStep := by
  obtain ⟨versym, hversym⟩ := h.versym_of_chunk hdefs hwrite
  obtain ⟨chunk, chunkVersym, hchunk, hchunkVersym, hfree, -, hdynsym, hversym'⟩ :=
    writeChunk_eq_some hversym hwrite
  have hinit : TableWriter.InStep ⟨⟨[], defs.length⟩, some ⟨[], defs.length⟩⟩ :=
    ⟨Forall₂.nil, rfl⟩
  have hin := foldlM_inStep (fun d hd w w' => writeDefinition_inStep (hscript d hd)) hinit hchunk
  unfold TableWriter.InStep at h hin ⊢
  rw [hversym] at h
  rw [hchunkVersym] at hin
  have hzero : chunkVersym.free = 0 := hin.2.symm.trans hfree
  have hleft : w.dynsym.free = versym.free := h.2
  rw [hversym', hdynsym, Slots.final, hzero, replicate_zero, append_nil]
  exact ⟨rel_append h.1 hin.1, congrArg (· - defs.length) hleft⟩

/-- **A chunk with a definition from a linker script** leaves a version unwritten. -/
theorem writeChunk_unwritten (hversym : w.versym = some versym)
    (hwrite : writeChunk writable w defs = some w') :
    ∃ versym', w'.versym = some versym' ∧
      ((none ∈ versym.table ∨ ∃ d ∈ defs, d.file = .linkerScript) → none ∈ versym'.table) := by
  obtain ⟨chunk, chunkVersym, -, -, -, hcount, -, hversym'⟩ := writeChunk_eq_some hversym hwrite
  refine ⟨_, hversym', ?_⟩
  rintro (hmem | ⟨d, hd, hfile⟩)
  · exact mem_append_left _ hmem
  · refine mem_append_right _ (mem_append_right _ ?_)
    have hlt : defs.countP (·.file ≠ .linkerScript) < defs.length := by
      refine Nat.lt_of_le_of_ne countP_le_length ?_
      intro hall
      exact of_decide_eq_true (countP_eq_length.mp hall d hd) hfile
    rw [mem_replicate]
    exact ⟨by omega, rfl⟩

/-- All chunks: a version is left unwritten once there is a definition from a linker script. -/
theorem writeChunks_unwritten {cs : List (List LocatedDefinition)}
    (hversym : w.versym = some versym)
    (hwrite : cs.foldlM (writeChunk writable) w = some w') :
    ∃ versym', w'.versym = some versym' ∧
      ((none ∈ versym.table ∨ ∃ d ∈ cs.flatten, d.file = .linkerScript) →
        none ∈ versym'.table) := by
  induction cs generalizing w versym with
  | nil =>
    obtain rfl : w = w' := some.inj hwrite
    refine ⟨versym, hversym, ?_⟩
    rintro (hmem | ⟨d, hd, -⟩)
    · exact hmem
    · exact absurd hd not_mem_nil
  | cons defs cs ih =>
    rw [foldlM_cons] at hwrite
    obtain ⟨w₁, hfirst, hrest⟩ := bind_eq_some_iff.mp hwrite
    obtain ⟨versym₁, hversym₁, hnone₁⟩ := writeChunk_unwritten hversym hfirst
    obtain ⟨versym', hversym', hnone'⟩ := ih hversym₁ hrest
    refine ⟨versym', hversym', ?_⟩
    rintro (hmem | ⟨d, hd, hfile⟩)
    · exact hnone' (.inl (hnone₁ (.inl hmem)))
    · rw [flatten_cons, mem_append] at hd
      rcases hd with hd | hd
      · exact hnone' (.inl (hnone₁ (.inr ⟨d, hd, hfile⟩)))
      · exact hnone' (.inr ⟨d, hd, hfile⟩)

end

/-! ## 7. The tables -/

section

variable {writable : DynSymbol → Bool} {l : DynamicLayout}

theorem tableWriter_inStep (hver : l.versioning = true) (g : FileGroup) :
    (l.tableWriter g).InStep := by
  unfold DynamicLayout.tableWriter TableWriter.InStep
  by_cases hzero : g.numDynamicSymbols = 0
  · simp [hzero]
  · simp [hver, hzero, Aligned]

variable {w : TableWriter}

theorem writeFiles_inStep (hver : l.versioning = true) {g : FileGroup}
    (h : writeFiles writable l g = some w) : w.InStep := by
  have hkind : l.kind.needsDynsym = true :=
    OutputKind.needsDynsym_of_versions (Bool.and_eq_true_iff.mp hver).1
  exact foldlM_inStep (fun file _ w w' => writeFile_inStep hkind) (tableWriter_inStep hver g) h

variable {dynsym : List (Option DynSymbol)} {versym : List (Option Nat)}

theorem finish_eq_some (h : w.finish = some (dynsym, versym)) :
    dynsym = w.dynsym.table ∧ versym = (w.versym.map (·.table)).getD [] := by
  unfold TableWriter.finish at h
  split at h
  · cases h
    exact ⟨rfl, rfl⟩
  · exact absurd h (by simp)

theorem TableWriter.InStep.finish {w : TableWriter} (hin : w.InStep)
    {written : List (Option DynSymbol) × List (Option Nat)} (h : w.finish = some written) :
    Aligned written.1 written.2 := by
  obtain ⟨hdynsym, hversym⟩ := finish_eq_some h
  unfold TableWriter.InStep at hin
  rw [hdynsym, hversym]
  cases hw : w.versym with
  | none =>
    rw [hw] at hin
    rw [show w.dynsym = ⟨[], 0⟩ from hin]
    exact Forall₂.nil
  | some versym =>
    rw [hw] at hin
    exact hin.1

theorem writeGroups_aligned (hver : l.versioning = true) {groups : List FileGroup}
    {written : List (Option DynSymbol) × List (Option Nat)}
    (h : writeGroups writable l groups = some written) : Aligned written.1 written.2 := by
  induction groups generalizing written with
  | nil =>
    cases h
    exact Forall₂.nil
  | cons g groups ih =>
    obtain ⟨w, hw, h⟩ := bind_eq_some_iff.mp h
    obtain ⟨first, hfirst, h⟩ := bind_eq_some_iff.mp h
    obtain ⟨more, hmore, rfl⟩ := map_eq_some_iff.mp h
    exact rel_append ((writeFiles_inStep hver hw).finish hfirst) (ih hmore)

theorem Aligned.written
    (h : Aligned dynsym versym) : none ∉ versym := by
  induction h with
  | nil => exact not_mem_nil
  | cons hmatch _ ih =>
    obtain ⟨s, v, -, rfl, -⟩ := hmatch
    rw [mem_cons, not_or]
    exact ⟨nofun, ih⟩

/-- **The versions are aligned with the symbols** just where no definition is from a linker script:
for every layout with symbol versions that is written, with any number of threads.  Then there are
as many versions as symbols, each is written, and each is the version of its symbol. -/
theorem versions_aligned_iff (writable : DynSymbol → Bool) (threads : Nat) (l : DynamicLayout)
    (hver : l.versioning = true) {dynsym : List (Option DynSymbol)} {versym : List (Option Nat)}
    (h : writeDynamicTables writable threads l = some (dynsym, versym)) :
    Aligned dynsym versym ↔ ∀ d ∈ l.definitions, d.file ≠ .linkerScript := by
  obtain ⟨groups, hgroups, h⟩ := bind_eq_some_iff.mp h
  obtain ⟨w, hfiles, h⟩ := bind_eq_some_iff.mp h
  obtain ⟨w', hdefs, h⟩ := bind_eq_some_iff.mp h
  obtain ⟨last, hlast, heq⟩ := map_eq_some_iff.mp h
  cases heq
  have hsize : 0 < max 10 (l.definitions.length / 10 / threads) :=
    Nat.lt_of_lt_of_le (by decide) (Nat.le_max_left _ _)
  have hflatten := flatten_chunks hsize l.definitions
  have hin := writeFiles_inStep hver hfiles
  constructor
  · intro haligned d hd hfile
    -- the first chunk finds space, so there are versions
    have hne : chunks (max 10 (l.definitions.length / 10 / threads)) l.definitions ≠ [] := by
      intro hnil
      rw [hnil] at hflatten
      exact absurd hd (hflatten ▸ not_mem_nil)
    obtain ⟨first, rest, hcons⟩ := exists_cons_of_ne_nil hne
    unfold writeDynamicSymbolDefinitions at hdefs
    have hfirst : ∃ w₁, writeChunk writable w first = some w₁ := by
      rw [hcons, foldlM_cons] at hdefs
      obtain ⟨w₁, hw₁, -⟩ := bind_eq_some_iff.mp hdefs
      exact ⟨w₁, hw₁⟩
    obtain ⟨w₁, hw₁⟩ := hfirst
    obtain ⟨versym, hversym⟩ := hin.versym_of_chunk
      (ne_nil_of_mem_chunks hsize (hcons ▸ mem_cons_self)) hw₁
    obtain ⟨versym', hversym', hnone⟩ := writeChunks_unwritten hversym hdefs
    have hmem : none ∈ last.2 := by
      rw [(finish_eq_some hlast).2, hversym']
      exact hnone (.inr ⟨d, hflatten.symm ▸ hd, hfile⟩)
    exact haligned.written (mem_append_right _ hmem)
  · intro hscript
    have hin' : w'.InStep := by
      refine foldlM_inStep ?_ hin hdefs
      intro defs hdefs' w w'
      refine writeChunk_inStep (ne_nil_of_mem_chunks hsize hdefs') ?_
      intro d hd
      exact hscript d (hflatten ▸ mem_flatten_of_mem hdefs' hd)
    exact rel_append (writeGroups_aligned hver hgroups) (hin'.finish hlast)

/-- A shared object that defines a symbol with version 2. -/
def versionedLibrary : DynamicLayout where
  kind := .sharedObject
  versionsUsed := true
  groups := [⟨[.prelude], 1⟩]
  lastGroup := ⟨[], 1⟩
  definitions := [⟨⟨1, [102], 2⟩, .object⟩]

theorem versionedLibrary_aligned :
    writeDynamicTables (fun _ => true) 1 versionedLibrary
        = some ([some .null, some (.definition ⟨⟨1, [102], 2⟩, .object⟩)], [some 1, some 2]) ∧
      Aligned [some .null, some (.definition ⟨⟨1, [102], 2⟩, .object⟩)] [some 1, some 2] :=
  ⟨by decide, (versions_aligned_iff (fun _ => true) 1 versionedLibrary rfl (by decide)).mpr
    (by decide)⟩

/-- The same one with a linker script that defines a symbol before it. -/
def scriptedLibrary : DynamicLayout where
  kind := .sharedObject
  versionsUsed := true
  groups := [⟨[.prelude, .linkerScript], 1⟩]
  lastGroup := ⟨[], 2⟩
  definitions := [⟨⟨1, [101], 1⟩, .linkerScript⟩, ⟨⟨2, [102], 2⟩, .object⟩]

/-- The script's symbol gets the version of the one behind it, which gets none. -/
theorem scriptedLibrary_shifted :
    ∃ dynsym, writeDynamicTables (fun _ => true) 1 scriptedLibrary
        = some (dynsym, [some 1, some 2, none]) ∧
      dynsym.length = 3 ∧ ¬ Aligned dynsym [some 1, some 2, none] := by
  refine ⟨[some .null, some (.definition ⟨⟨1, [101], 1⟩, .linkerScript⟩),
    some (.definition ⟨⟨2, [102], 2⟩, .object⟩)], by decide, rfl, ?_⟩
  intro h
  exact h.written (by decide)

end

end Srs.Dynamic
