/-
# Resolving the symbols of an object

`resolve_symbols` goes over a chunk of an object's symbols and looks each undefined one up.  The
chunk comes with the offset it starts at, and the symbol's id is found with that offset; its
version is not: `raw_symbol_name` gets the index within the chunk.  `chunking_agrees_iff` says for
which objects the chunks make no difference.
-/
import Srs.Resolution.Groups

namespace Srs.Resolution

open Tiling List Option Nat

/-! ## 1. One symbol -/

inductive Visibility where
  | default_
  | protected_
  | hidden
  deriving DecidableEq

/-- What the resolution reads of `SymbolDb` and of the flags; nothing of it changes meanwhile. -/
structure Lookup (P : Platform) where
  get : P.Name → Bool → Option SymbolId
  getUnversioned : Bytes → Option SymbolId
  fileIdForSymbol : SymbolId → FileId
  /-- `file(file_id).is_dynamic()` -/
  isDynamic : FileId → Bool
  inputSymbolVisibility : SymbolId → Visibility
  /-- The symbol's flags have `DYNAMIC`. -/
  hasDynamicFlag : SymbolId → Bool
  entrySymbolName : Bytes

structure UndefinedSymbol (P : Platform) where
  ignoreIfLoaded : Option FileId
  name : P.Name
  symbolId : SymbolId

/-- The flags that are set on a definition that a symbol of less than default visibility refers
to. -/
inductive FlagUpdate where
  /-- `NON_INTERPOSABLE | DOWNGRADE_TO_LOCAL` -/
  | downgrade
  /-- `NON_INTERPOSABLE` -/
  | nonInterposable
  deriving DecidableEq

structure SymbolAttributes (P : Platform) where
  nameInfo : P.Name
  defaultVisibility : Bool
  isWeak : Bool

/-- What the resolution of symbols does: the definitions it leaves, and what it sends to others. -/
structure Results (P : Platform) where
  definitions : List SymbolId
  undefinedSymbols : List (UndefinedSymbol P)
  flags : List (SymbolId × FlagUpdate)
  requests : List FileId

variable {P : Platform}

namespace Results

def empty : Results P := ⟨[], [], [], []⟩

def append (a b : Results P) : Results P :=
  ⟨a.definitions ++ b.definitions, a.undefinedSymbols ++ b.undefinedSymbols, a.flags ++ b.flags,
    a.requests ++ b.requests⟩

@[simp]
theorem append_empty (a : Results P) : a.append empty = a := by
  simp [append, empty]

@[simp]
theorem empty_append (a : Results P) : empty.append a = a := by
  simp [append, empty]

theorem append_assoc (a b c : Results P) : (a.append b).append c = a.append (b.append c) := by
  simp [append]

end Results

/-- The flags for a definition, by the visibility of the reference. -/
def flagUpdates (lookup : Lookup P) (localSymbolId symbolId : SymbolId) (defaultVisibility : Bool) :
    List (SymbolId × FlagUpdate) :=
  if defaultVisibility then []
  else
    match lookup.inputSymbolVisibility localSymbolId with
    | .hidden => [(symbolId, .downgrade)]
    | .protected_ =>
      if lookup.hasDynamicFlag symbolId then [] else [(symbolId, .nonInterposable)]
    | .default_ => []

/-- `resolve_symbol` of a symbol whose definition is undefined -/
def resolveSymbol (lookup : Lookup P) (localSymbolId : SymbolId) (attributes : SymbolAttributes P)
    (isDynamic : Bool) (fileId : FileId) : Results P :=
  match lookup.get attributes.nameInfo attributes.defaultVisibility with
  | some symbolId =>
    let symbolFileId := lookup.fileIdForSymbol symbolId
    let flags := flagUpdates lookup localSymbolId symbolId attributes.defaultVisibility
    if symbolFileId ≠ fileId ∧ attributes.isWeak = false then
      if isDynamic = false ∨ lookup.isDynamic symbolFileId = false then
        ⟨[symbolId], [], flags, [symbolFileId]⟩
      else ⟨[symbolId], [], flags, []⟩
    else if symbolFileId ≠ preludeFileId then
      ⟨[symbolId], [⟨some symbolFileId, attributes.nameInfo, localSymbolId⟩], flags, []⟩
    else ⟨[symbolId], [], flags, []⟩
  | none => ⟨[0], [⟨none, attributes.nameInfo, localSymbolId⟩], [], []⟩

/-! ## 2. Chunks of symbols -/

/-- A symbol with its definition so far. -/
abbrev Item := ObjectSymbol × SymbolId

/-- Whether the symbol is looked up. -/
def resolves (object : SequencedInputObject) (offset : Nat) (item : Item) : Bool :=
  item.2 == 0 && offset != 0 && !(object.parsed.isDynamic && item.1.isHidden)

/-- One round of the loop of `resolve_symbols`: the symbol's offset in the object, and the index
that its version is read with.  It fails where the name cannot be read. -/
def resolveAt (lookup : Lookup P) (object : SequencedInputObject) (verneed : VerneedTable)
    (offset versionIndex : Nat) (item : Item) : Option (Results P) :=
  if resolves object offset item then
    item.1.name.map fun name =>
      resolveSymbol lookup (object.symbolIdRange.start + offset)
        ⟨P.rawSymbolName name verneed versionIndex, item.1.isInterposable, item.1.isWeak⟩
        object.parsed.isDynamic object.fileId
  else some ⟨[item.2], [], [], []⟩

/-- All results, or the failure. -/
def joinAll : List (Option (Results P)) → Option (Results P)
  | [] => some .empty
  | r :: rs => r.bind fun a => (joinAll rs).map a.append

/-- The loop of `resolve_symbols`. -/
def resolveItems (lookup : Lookup P) (object : SequencedInputObject) (verneed : VerneedTable)
    (startSymbolOffset : Nat) (items : List Item) : Option (Results P) :=
  joinAll (items.mapIdx fun i item =>
    resolveAt lookup object verneed (startSymbolOffset + i) i item)

/-- `resolve_symbols` -/
def resolveSymbols (lookup : Lookup P) (object : SequencedInputObject) (startSymbolOffset : Nat)
    (items : List Item) : Option (Results P) :=
  object.parsed.verneedTable.bind fun verneed =>
    resolveItems lookup object verneed startSymbolOffset items

/-- The loop of `work_items_do`: chunks with the offsets they start at, at least one. -/
def workItemsFrom {α : Type} (chunkSize : Nat) : Nat → Nat → List α → List (Nat × List α)
  | 0, _, _ => []
  | fuel + 1, start, items =>
    let len := min chunkSize items.length
    (start, items.take len) ::
      if (items.drop len).isEmpty then []
      else workItemsFrom chunkSize fuel (start + len) (items.drop len)

def workItems {α : Type} (chunkSize : Nat) (items : List α) : List (Nat × List α) :=
  workItemsFrom chunkSize (items.length + 1) 0 items

/-- All work items of an object. -/
def resolveChunks (lookup : Lookup P) (object : SequencedInputObject) (chunkSize : Nat)
    (items : List Item) : Option (Results P) :=
  joinAll ((workItems chunkSize items).map fun chunk =>
    resolveSymbols lookup object chunk.1 chunk.2)

/-! ## 3. Joining -/

theorem joinAll_append (rs ts : List (Option (Results P))) :
    joinAll (rs ++ ts) = (joinAll rs).bind fun a => (joinAll ts).map a.append := by
  induction rs with
  | nil =>
    change joinAll ts = (joinAll ts).map Results.empty.append
    have hid : (Results.empty : Results P).append = id := funext Results.empty_append
    rw [hid, Option.map_id]
    rfl
  | cons r rs ih =>
    rw [cons_append, joinAll, joinAll, ih]
    cases r with
    | none => rfl
    | some a =>
      cases hrs : joinAll rs with
      | none => rfl
      | some b =>
        cases joinAll ts with
        | none => rfl
        | some c => simp [Results.append_assoc]

/-- It does not matter which results are joined first. -/
theorem joinAll_map_joinAll (rss : List (List (Option (Results P)))) :
    joinAll (rss.map joinAll) = joinAll rss.flatten := by
  induction rss with
  | nil => rfl
  | cons rs rss ih => rw [map_cons, joinAll, ih, flatten_cons, joinAll_append]

/-! ## 4. The chunks together -/

variable {start : Nat} {object : SequencedInputObject} {verneed : VerneedTable}

variable {chunkSize : Nat}

/-- The chunks, with the offset and the index within the chunk for each symbol. -/
theorem workItemsFrom_flatten {α β : Type} (hpos : 0 < chunkSize)
    (f : Nat → Nat → α → β) {fuel : Nat} {items : List α} (hfuel : items.length < fuel)
    (hstart : start % chunkSize = 0) :
    ((workItemsFrom chunkSize fuel start items).map fun chunk =>
        chunk.2.mapIdx fun i item => f (chunk.1 + i) i item).flatten
      = items.mapIdx fun i item => f (start + i) ((start + i) % chunkSize) item := by
  induction fuel generalizing start items with
  | zero => exact absurd hfuel (not_lt_zero _)
  | succ fuel ih =>
    have hsplit : items = items.take (min chunkSize items.length)
        ++ items.drop (min chunkSize items.length) := (take_append_drop _ _).symm
    have htake : (items.take (min chunkSize items.length)).length
        = min chunkSize items.length := by
      rw [length_take]
      omega
    -- within the chunk the index is the remainder
    have hfirst : (items.take (min chunkSize items.length)).mapIdx
        (fun i item => f (start + i) i item)
        = (items.take (min chunkSize items.length)).mapIdx
          (fun i item => f (start + i) ((start + i) % chunkSize) item) := by
      refine mapIdx_eq_mapIdx_iff.mpr fun i hi => ?_
      rw [htake] at hi
      have hmod : (start + i) % chunkSize = i := by
        rw [Nat.add_mod, hstart, Nat.zero_add, Nat.mod_mod, Nat.mod_eq_of_lt (by omega)]
      rw [hmod]
    rw [workItemsFrom, map_cons, flatten_cons, hfirst]
    by_cases hrest : items.drop (min chunkSize items.length) = []
    · rw [if_pos (List.isEmpty_iff.mpr hrest), map_nil, flatten_nil, append_nil]
      rw [hrest, append_nil] at hsplit
      rw [← hsplit]
    · have hfull : min chunkSize items.length = chunkSize := by
        by_contra hne
        refine hrest (drop_of_length_le ?_)
        omega
      rw [if_neg (fun h => hrest (List.isEmpty_iff.mp h)), ih]
      · conv_rhs => rw [hsplit, mapIdx_append, htake]
        congr 1
        refine mapIdx_eq_mapIdx_iff.mpr fun i _ => ?_
        rw [Nat.add_right_comm, Nat.add_assoc]
      · rw [length_drop]
        omega
      · rw [hfull, Nat.add_mod, hstart, Nat.zero_add, Nat.mod_mod, Nat.mod_self]

theorem resolveChunks_eq (lookup : Lookup P)
    (hverneed : object.parsed.verneedTable = some verneed) (hpos : 0 < chunkSize)
    (items : List Item) :
    resolveChunks lookup object chunkSize items
      = joinAll (items.mapIdx fun i item =>
          resolveAt lookup object verneed i (i % chunkSize) item) := by
  have hflat := workItemsFrom_flatten hpos
    (fun offset i item => resolveAt lookup object verneed offset i item)
    (lt_succ_self items.length) (zero_mod chunkSize)
  simp only [Nat.zero_add] at hflat
  rw [← hflat, ← joinAll_map_joinAll, List.map_map, resolveChunks]
  congr 1
  refine map_congr_left fun chunk _ => ?_
  rw [resolveSymbols, hverneed, bind_some]
  rfl

/-! ## 5. When the chunks make no difference -/

/-- A record is kept of the reference: it has no definition, or one that may not be loaded for
it. -/
def KeepsRecord (lookup : Lookup P) (isWeak : Bool) (fileId : FileId) : Option SymbolId → Prop
  | none => True
  | some symbolId =>
    ¬ (lookup.fileIdForSymbol symbolId ≠ fileId ∧ isWeak = false) ∧
      lookup.fileIdForSymbol symbolId ≠ preludeFileId

instance (lookup : Lookup P) (isWeak : Bool) (fileId : FileId) (target : Option SymbolId) :
    Decidable (KeepsRecord lookup isWeak fileId target) :=
  match target with
  | none => isTrue trivial
  | some _ => inferInstanceAs (Decidable (_ ∧ _))

/-- Two names have the same definition, and are the same where one of them is kept. -/
def SameTarget (lookup : Lookup P) (defaultVisibility isWeak : Bool) (fileId : FileId)
    (a b : P.Name) : Prop :=
  lookup.get a defaultVisibility = lookup.get b defaultVisibility ∧
    (KeepsRecord lookup isWeak fileId (lookup.get a defaultVisibility) → a = b)

section

variable {lookup : Lookup P} {localSymbolId : SymbolId} {dv weak isDynamic : Bool} {fileId : FileId}

/-- What a reference leaves besides flags and requests. -/
theorem resolveSymbol_core (name : P.Name) :
    (resolveSymbol lookup localSymbolId ⟨name, dv, weak⟩ isDynamic fileId).definitions
        = [(lookup.get name dv).getD 0] ∧
      (resolveSymbol lookup localSymbolId ⟨name, dv, weak⟩ isDynamic fileId).undefinedSymbols
        = if KeepsRecord lookup weak fileId (lookup.get name dv) then
            [⟨(lookup.get name dv).map lookup.fileIdForSymbol, name, localSymbolId⟩]
          else [] := by
  unfold resolveSymbol
  cases hget : lookup.get name dv with
  | none => exact ⟨rfl, rfl⟩
  | some symbolId =>
    simp only
    by_cases hload : lookup.fileIdForSymbol symbolId ≠ fileId ∧ weak = false
    · have hkeep : ¬ KeepsRecord lookup weak fileId (some symbolId) := fun h => h.1 hload
      rw [if_pos hload, if_neg hkeep]
      split
      · exact ⟨rfl, rfl⟩
      · exact ⟨rfl, rfl⟩
    · rw [if_neg hload]
      by_cases hprelude : lookup.fileIdForSymbol symbolId ≠ preludeFileId
      · have hkeep : KeepsRecord lookup weak fileId (some symbolId) := ⟨hload, hprelude⟩
        rw [if_pos hprelude]
        exact ⟨rfl, (if_pos hkeep).symm⟩
      · have hkeep : ¬ KeepsRecord lookup weak fileId (some symbolId) := fun h => hprelude h.2
        rw [if_neg hprelude]
        exact ⟨rfl, (if_neg hkeep).symm⟩

variable {a b : P.Name}

/-- **The definition and the record say which definition was found**, and the record which name was
looked up. -/
theorem sameTarget_of_eq
    (hdef : (resolveSymbol lookup localSymbolId ⟨a, dv, weak⟩ isDynamic fileId).definitions
      = (resolveSymbol lookup localSymbolId ⟨b, dv, weak⟩ isDynamic fileId).definitions)
    (hundef : (resolveSymbol lookup localSymbolId ⟨a, dv, weak⟩ isDynamic fileId).undefinedSymbols
      = (resolveSymbol lookup localSymbolId ⟨b, dv, weak⟩ isDynamic fileId).undefinedSymbols) :
    SameTarget lookup dv weak fileId a b := by
  rw [(resolveSymbol_core a).1, (resolveSymbol_core b).1] at hdef
  rw [(resolveSymbol_core a).2, (resolveSymbol_core b).2] at hundef
  have hgetD := (cons_eq_cons.mp hdef).1
  have hnone : KeepsRecord lookup weak fileId none := trivial
  unfold SameTarget
  cases ha : lookup.get a dv with
  | none =>
    rw [ha, if_pos hnone] at hundef
    cases hb : lookup.get b dv with
    | none =>
      rw [hb, if_pos hnone] at hundef
      refine ⟨rfl, fun _ => ?_⟩
      injection (cons_eq_cons.mp hundef).1
    | some t =>
      rw [hb] at hundef
      split at hundef
      · injection (cons_eq_cons.mp hundef).1 with hignore _ _
        cases hignore
      · cases hundef
  | some s =>
    rw [ha] at hundef hgetD
    cases hb : lookup.get b dv with
    | none =>
      rw [hb, if_pos hnone] at hundef
      split at hundef
      · injection (cons_eq_cons.mp hundef).1 with hignore _ _
        cases hignore
      · cases hundef
    | some t =>
      rw [hb] at hundef hgetD
      obtain rfl : s = t := hgetD
      refine ⟨rfl, fun hkeep => ?_⟩
      rw [if_pos hkeep, if_pos hkeep] at hundef
      injection (cons_eq_cons.mp hundef).1

theorem resolveSymbol_eq_of_sameTarget (h : SameTarget lookup dv weak fileId a b) :
    resolveSymbol lookup localSymbolId ⟨a, dv, weak⟩ isDynamic fileId
      = resolveSymbol lookup localSymbolId ⟨b, dv, weak⟩ isDynamic fileId := by
  obtain ⟨hget, hname⟩ := h
  by_cases hkeep : KeepsRecord lookup weak fileId (lookup.get a dv)
  · rw [hname hkeep]
  · unfold resolveSymbol
    simp only [← hget]
    cases ha : lookup.get a dv with
    | none =>
      rw [ha] at hkeep
      exact absurd trivial hkeep
    | some s =>
      rw [ha] at hkeep
      simp only
      -- the name is only used where a record is kept
      by_cases hload : lookup.fileIdForSymbol s ≠ fileId ∧ weak = false
      · rw [if_pos hload, if_pos hload]
      · rw [if_neg hload, if_neg hload]
        by_cases hprelude : lookup.fileIdForSymbol s ≠ preludeFileId
        · exact absurd ⟨hload, hprelude⟩ hkeep
        · rw [if_neg hprelude, if_neg hprelude]

end

/-! ## 6. Lists of results -/

/-- The results of one symbol: one definition, and records of that symbol. -/
def OneAt (symbolId : SymbolId) (r : Results P) : Prop :=
  r.definitions.length = 1 ∧ ∀ u ∈ r.undefinedSymbols, u.symbolId = symbolId

variable {offset versionIndex : Nat} {item : Item}

theorem resolveAt_oneAt {lookup : Lookup P} {r : Results P}
    (h : resolveAt lookup object verneed offset versionIndex item = some r) :
    OneAt (object.symbolIdRange.start + offset) r := by
  unfold resolveAt at h
  split at h
  · obtain ⟨name, -, rfl⟩ := map_eq_some_iff.mp h
    obtain ⟨hdef, hundef⟩ := resolveSymbol_core
      (P.rawSymbolName name verneed versionIndex)
    refine ⟨?_, ?_⟩
    · rw [hdef]
      rfl
    · intro u hu
      rw [hundef] at hu
      split at hu
      · rw [mem_singleton.mp hu]
      · exact absurd hu not_mem_nil
  · cases h
    exact ⟨rfl, fun u hu => absurd hu not_mem_nil⟩

/-- All results of a list. -/
def concat (rs : List (Results P)) : Results P := rs.foldr Results.append .empty

theorem joinAll_map_some (rs : List (Results P)) : joinAll (rs.map some) = some (concat rs) := by
  induction rs with
  | nil => rfl
  | cons r rs ih =>
    rw [map_cons, joinAll, bind_some, ih]
    rfl

theorem joinAll_eq_none_iff (rs : List (Option (Results P))) : joinAll rs = none ↔ none ∈ rs := by
  induction rs with
  | nil => simp [joinAll]
  | cons r rs ih =>
    cases r with
    | none => simp [joinAll]
    | some a => simp [joinAll, ih]

/-- The records of later symbols are of other symbols. -/
theorem symbolId_ne_of_later {symbolId : Nat} (hlt : symbolId < start)
    {rs : List (Results P)} (h : ∀ j r, rs[j]? = some r → OneAt (start + j) r) :
    ∀ u ∈ (concat rs).undefinedSymbols, u.symbolId ≠ symbolId := by
  induction rs generalizing start with
  | nil => exact fun u hu => absurd hu not_mem_nil
  | cons r rs ih =>
    intro u hu
    rcases mem_append.mp hu with hhead | htail
    · rw [(h 0 r rfl).2 u hhead]
      exact ne_of_gt hlt
    · refine @ih (start + 1) (by omega) ?_ u htail
      intro j q hj
      have hone := h (j + 1) q hj
      rwa [Nat.add_comm j 1, ← Nat.add_assoc] at hone

/-- What belongs to one symbol can be told from the whole. -/
theorem concat_inj {rs ts : List (Results P)} (hrs : ∀ j r, rs[j]? = some r → OneAt (start + j) r)
    (hts : ∀ j t, ts[j]? = some t → OneAt (start + j) t)
    (hdef : (concat rs).definitions = (concat ts).definitions)
    (hundef : (concat rs).undefinedSymbols = (concat ts).undefinedSymbols) :
    Forall₂ (fun r t => r.definitions = t.definitions ∧
      r.undefinedSymbols = t.undefinedSymbols) rs ts := by
  induction rs generalizing start ts with
  | nil =>
    cases ts with
    | nil => exact Forall₂.nil
    | cons t ts =>
      have hlen := congrArg List.length hdef
      have hone := (hts 0 t rfl).1
      simp only [concat, foldr, Results.empty, Results.append, length_append,
        length_nil] at hlen
      omega
  | cons r rs ih =>
    cases ts with
    | nil =>
      have hlen := congrArg List.length hdef
      have hone := (hrs 0 r rfl).1
      simp only [concat, foldr, Results.empty, Results.append, length_append,
        length_nil] at hlen
      omega
    | cons t ts =>
      have hr := hrs 0 r rfl
      have ht := hts 0 t rfl
      have hrs' : ∀ j r, rs[j]? = some r → OneAt (start + 1 + j) r := by
        intro j r hj
        have := hrs (j + 1) r hj
        rwa [Nat.add_comm j 1, ← Nat.add_assoc] at this
      have hts' : ∀ j t, ts[j]? = some t → OneAt (start + 1 + j) t := by
        intro j t hj
        have := hts (j + 1) t hj
        rwa [Nat.add_comm j 1, ← Nat.add_assoc] at this
      change r.definitions ++ (concat rs).definitions = t.definitions ++ (concat ts).definitions
        at hdef
      change r.undefinedSymbols ++ (concat rs).undefinedSymbols
        = t.undefinedSymbols ++ (concat ts).undefinedSymbols at hundef
      obtain ⟨hdefHead, hdefTail⟩ := append_inj hdef (hr.1.trans ht.1.symm)
      -- the records of the first symbol are those with its id
      have hhead : r.undefinedSymbols = t.undefinedSymbols := by
        have hfilter := congrArg (List.filter fun u => u.symbolId == start) hundef
        have hkeep : ∀ q : Results P, OneAt (start + 0) q →
            q.undefinedSymbols.filter (fun u => u.symbolId == start) = q.undefinedSymbols := by
          intro q hq
          refine filter_eq_self.mpr fun u hu => ?_
          rw [hq.2 u hu]
          exact beq_self_eq_true start
        have hdrop : ∀ {qs : List (Results P)},
            (∀ j q, qs[j]? = some q → OneAt (start + 1 + j) q) →
            (concat qs).undefinedSymbols.filter (fun u => u.symbolId == start) = [] := by
          intro qs hqs
          refine filter_eq_nil_iff.mpr fun u hu => ?_
          simpa using symbolId_ne_of_later (lt_succ_self start) hqs u hu
        rw [filter_append, filter_append, hkeep r hr, hkeep t ht, hdrop hrs',
          hdrop hts', append_nil, append_nil] at hfilter
        exact hfilter
      rw [hhead] at hundef
      exact Forall₂.cons ⟨hdefHead, hhead⟩
        (ih hrs' hts' hdefTail (append_cancel_left hundef))

/-! ## 7. Chunks against the whole -/

/-- The symbol is looked up and its name cannot be read. -/
def Unreadable (object : SequencedInputObject) (items : List Item) : Prop :=
  ∃ i item, items[i]? = some item ∧ resolves object i item = true ∧ item.1.name = none

/-- The versions that are read within the chunks do no harm: the object cannot be read at all, or
every symbol that is looked up has the same definition by the version of its place in the chunk as
by its own, and the same name where the name is kept. -/
def ChunkingAgrees (lookup : Lookup P) (object : SequencedInputObject) (chunkSize : Nat)
    (items : List Item) : Prop :=
  ∀ verneed, object.parsed.verneedTable = some verneed →
    Unreadable object items ∨
      ∀ i item name, items[i]? = some item → resolves object i item = true →
        item.1.name = some name →
        SameTarget lookup item.1.isInterposable item.1.isWeak object.fileId
          (P.rawSymbolName name verneed (i % chunkSize)) (P.rawSymbolName name verneed i)

theorem resolveAt_eq_none_iff {lookup : Lookup P} :
    resolveAt lookup object verneed offset versionIndex item = none
      ↔ resolves object offset item = true ∧ item.1.name = none := by
  unfold resolveAt
  split
  · next h => simp [h]
  · next h => simp [h]

/-- Whether an object can be read does not depend on the versions. -/
theorem joinAll_none_iff (lookup : Lookup P) (object : SequencedInputObject)
    (verneed : VerneedTable) (index : Nat → Nat) (items : List Item) :
    joinAll (items.mapIdx fun i item => resolveAt lookup object verneed i (index i) item) = none
      ↔ Unreadable object items := by
  rw [joinAll_eq_none_iff, mem_mapIdx]
  constructor
  · rintro ⟨i, hi, hnone⟩
    exact ⟨i, items[i], getElem?_eq_getElem hi, resolveAt_eq_none_iff.mp hnone⟩
  · rintro ⟨i, item, hitem, hnone⟩
    obtain ⟨hi, rfl⟩ := List.getElem?_eq_some_iff.mp hitem
    exact ⟨i, hi, resolveAt_eq_none_iff.mpr hnone⟩

/-- Without failures there is a result for each symbol. -/
theorem exists_results {rs : List (Option (Results P))} (h : joinAll rs ≠ none) :
    ∃ ts : List (Results P), rs = ts.map some := by
  induction rs with
  | nil => exact ⟨[], rfl⟩
  | cons r rs ih =>
    rw [Ne, joinAll_eq_none_iff, mem_cons, not_or] at h
    obtain ⟨a, rfl⟩ := ne_none_iff_exists'.mp (Ne.symm h.1)
    obtain ⟨ts, rfl⟩ := ih (fun hnone => h.2 ((joinAll_eq_none_iff rs).mp hnone))
    exact ⟨a :: ts, rfl⟩

/-- Equal results are equal symbol by symbol, as far as that tells the targets. -/
theorem joinAll_resolveAt_eq_iff (lookup : Lookup P) (object : SequencedInputObject)
    (verneed : VerneedTable) (index : Nat → Nat) {items : List Item}
    (hread : ¬ Unreadable object items) :
    joinAll (items.mapIdx fun i item => resolveAt lookup object verneed i (index i) item)
        = joinAll (items.mapIdx fun i item => resolveAt lookup object verneed i i item)
      ↔ ∀ i item name, items[i]? = some item → resolves object i item = true →
        item.1.name = some name →
        SameTarget lookup item.1.isInterposable item.1.isWeak object.fileId
          (P.rawSymbolName name verneed (index i)) (P.rawSymbolName name verneed i) := by
  have hat : ∀ {i : Nat} {item : Item} {name : Bytes} (k : Nat), resolves object i item = true →
      item.1.name = some name → resolveAt lookup object verneed i k item
        = some (resolveSymbol lookup (object.symbolIdRange.start + i)
          ⟨P.rawSymbolName name verneed k, item.1.isInterposable, item.1.isWeak⟩
          object.parsed.isDynamic object.fileId) := by
    intro i item name k hres hname
    rw [resolveAt, if_pos hres, hname, map_some]
  constructor
  · intro heq i item name hitem hres hname
    have hnone := fun index => mt (joinAll_none_iff lookup object verneed index items).mp hread
    obtain ⟨rs, hrs⟩ := exists_results (hnone index)
    obtain ⟨ts, hts⟩ := exists_results (hnone id)
    simp only [id] at hts
    rw [hrs, hts, joinAll_map_some, joinAll_map_some] at heq
    have hconcat := some.inj heq
    have hone : ∀ (index : Nat → Nat) {qs : List (Results P)},
        (items.mapIdx fun i item => resolveAt lookup object verneed i (index i) item) = qs.map some →
        ∀ j q, qs[j]? = some q → OneAt (object.symbolIdRange.start + j) q := by
      intro index qs hqs j q hq
      have hj := congrArg (·[j]?) hqs
      simp only [getElem?_mapIdx, getElem?_map, hq, map_some] at hj
      obtain ⟨item, -, hitem⟩ := map_eq_some_iff.mp hj
      exact resolveAt_oneAt hitem
    have hall := concat_inj (hone index hrs) (hone id hts) (congrArg _ hconcat)
      (congrArg _ hconcat)
    have hri := congrArg (·[i]?) hrs
    have hti := congrArg (·[i]?) hts
    simp only [getElem?_mapIdx, hitem, map_some, getElem?_map,
      hat _ hres hname] at hri hti
    obtain ⟨r, hr, hrr⟩ := map_eq_some_iff.mp hri.symm
    obtain ⟨t, ht, htt⟩ := map_eq_some_iff.mp hti.symm
    cases hrr
    cases htt
    obtain ⟨hi, hreq⟩ := List.getElem?_eq_some_iff.mp hr
    obtain ⟨hi', hteq⟩ := List.getElem?_eq_some_iff.mp ht
    have hpair := (forall₂_iff_get.mp hall).2 i hi hi'
    simp only [get_eq_getElem, hreq, hteq] at hpair
    exact sameTarget_of_eq hpair.1 hpair.2
  · intro hsame
    congr 1
    refine mapIdx_eq_mapIdx_iff.mpr fun i hi => ?_
    have hitem : items[i]? = some items[i] := getElem?_eq_getElem hi
    by_cases hres : resolves object i items[i] = true
    · cases hname : items[i].1.name with
      | none => exact absurd ⟨i, items[i], hitem, hres, hname⟩ hread
      | some name =>
        rw [hat _ hres hname, hat _ hres hname,
          resolveSymbol_eq_of_sameTarget (hsame i items[i] name hitem hres hname)]
    · rw [resolveAt, resolveAt, if_neg hres, if_neg hres]

/-- **When the chunks make no difference.** -/
theorem chunking_agrees_iff (lookup : Lookup P) (object : SequencedInputObject) {chunkSize : Nat}
    (hpos : 0 < chunkSize) (items : List Item) :
    resolveChunks lookup object chunkSize items = resolveSymbols lookup object 0 items
      ↔ ChunkingAgrees lookup object chunkSize items := by
  unfold ChunkingAgrees
  cases hverneed : object.parsed.verneedTable with
  | none =>
    refine iff_of_true ?_ (fun verneed h => by cases h)
    have hfail : ∀ start chunk, resolveSymbols lookup object start chunk = none := by
      intro start chunk
      rw [resolveSymbols, hverneed, bind_none]
    rw [hfail, resolveChunks, workItems, workItemsFrom, map_cons, hfail]
    rfl
  | some verneed =>
    have hwhole : resolveSymbols lookup object 0 items
        = joinAll (items.mapIdx fun i item => resolveAt lookup object verneed i i item) := by
      rw [resolveSymbols, hverneed, bind_some, resolveItems]
      simp only [Nat.zero_add]
    rw [resolveChunks_eq lookup hverneed hpos, hwhole]
    simp only [some.injEq, forall_eq']
    by_cases hread : Unreadable object items
    · refine iff_of_true ?_ (Or.inl hread)
      rw [(joinAll_none_iff lookup object verneed (· % chunkSize) items).mpr hread]
      exact ((joinAll_none_iff lookup object verneed id items).mpr hread).symm
    · rw [joinAll_resolveAt_eq_iff lookup object verneed (· % chunkSize) hread]
      exact (or_iff_right hread).symm

/-- Names with the versions of the table, as ELF has them. -/
def versionedNames : Platform := ⟨Bytes × Option Bytes, fun name verneed i => (name, verneed i)⟩

/-- A shared object whose last symbol `f` has a version. -/
def versionedObject (numSymbols : Nat) : SequencedInputObject where
  parsed := {
    symbols := []
    verneedTable := some fun i => if i = numSymbols then some [118] else none
    numSections := 0
    isDynamic := true
    hasArchiveSemantics := false
    wholeArchive := false
    asNeeded := false }
  symbolIdRange := ⟨1, numSymbols + 1⟩
  sectionIdRange := ⟨0, 0⟩
  fileId := ⟨1, 0⟩

/-- Some symbols that are defined, and the undefined `f`. -/
def versionedItems (numSymbols : Nat) : List Item :=
  replicate numSymbols (⟨some [100], false, false, true, false, false⟩, 1)
    ++ [(⟨some [102], true, false, true, false, false⟩, 0)]

/-- Only `f` with its version is defined. -/
def versionedLookup : Lookup versionedNames where
  get := fun name _ => if name.1 = [102] ∧ name.2 = some [118] then some 6000 else none
  getUnversioned _ := none
  fileIdForSymbol _ := ⟨1, 1⟩
  isDynamic _ := false
  inputSymbolVisibility _ := .default_
  hasDynamicFlag _ := false
  entrySymbolName := []

def maxSymbolsPerWorkItem : Nat := 5000

/-- Three symbols are one chunk. -/
theorem small_object_agrees :
    resolveChunks versionedLookup (versionedObject 2) maxSymbolsPerWorkItem (versionedItems 2)
      = resolveSymbols versionedLookup (versionedObject 2) 0 (versionedItems 2) := by
  refine (chunking_agrees_iff _ _ (by decide) _).mpr ?_
  intro verneed hverneed
  refine Or.inr fun i item name hitem _ _ => ?_
  have hlt : i < 3 := (List.getElem?_eq_some_iff.mp hitem).1
  have hmod : i % maxSymbolsPerWorkItem = i :=
    mod_eq_of_lt (lt_of_lt_of_le hlt (by decide))
  rw [hmod]
  exact ⟨rfl, fun _ => rfl⟩

theorem not_unreadable_versioned (n : Nat) :
    ¬ Unreadable (versionedObject n) (versionedItems n) := by
  rintro ⟨i, item, hitem, -, hname⟩
  have hmem := mem_of_getElem? hitem
  rcases mem_append.mp hmem with hrep | hlast
  · rw [eq_of_mem_replicate hrep] at hname
    cases hname
  · rw [mem_singleton.mp hlast] at hname
    cases hname

/-- After 5000 symbols the version of `f` is looked for at index 0. -/
theorem versioned_symbol_lost :
    resolveChunks versionedLookup (versionedObject 5000) maxSymbolsPerWorkItem (versionedItems 5000)
      ≠ resolveSymbols versionedLookup (versionedObject 5000) 0 (versionedItems 5000) := by
  intro heq
  have hverneed : (versionedObject 5000).parsed.verneedTable
      = some fun i => if i = 5000 then some [118] else none := rfl
  have hwhole : resolveSymbols versionedLookup (versionedObject 5000) 0 (versionedItems 5000)
      = joinAll ((versionedItems 5000).mapIdx fun i item =>
          resolveAt versionedLookup (versionedObject 5000)
            (fun i => if i = 5000 then some [118] else none) i i item) := by
    rw [resolveSymbols, hverneed, bind_some, resolveItems]
    simp only [Nat.zero_add]
  rw [resolveChunks_eq versionedLookup hverneed (by decide), hwhole,
    joinAll_resolveAt_eq_iff _ _ _ (· % maxSymbolsPerWorkItem) (not_unreadable_versioned 5000)]
    at heq
  have hitem : (versionedItems 5000)[5000]?
      = some (⟨some [102], true, false, true, false, false⟩, 0) := by
    rw [versionedItems, getElem?_append_right (by rw [length_replicate]),
      length_replicate]
    rfl
  have hsame := (heq 5000 _ [102] hitem rfl rfl).1
  revert hsame
  decide

end Srs.Resolution
