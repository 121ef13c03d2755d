/-
# Alternative definitions

`resolve_alternative_symbol_definitions`: where a name has several definitions, one is selected and
stored as the definition of all of them.  The names are spread over buckets by their hashes, and the
buckets are processed in parallel.  A definition with a default version is recorded under two names,
with and without the version, and the two may select different definitions; then the buckets race.
`canonical_unique_iff` says that this is the only case in which the result is not what it should be,
and `default_version_split` that it happens.

Hash functions are arbitrary: which bucket a name goes to is not known.
-/
import Srs.Lib.Stores
import Srs.Resolution.Symbols

namespace Srs.Resolution

open Stores Stores.FirstMap List Option

/-! ## 1. Selection -/

inductive SymbolStrength where
  /-- The object was not loaded. -/
  | undefined
  | weak
  | gnuUnique
  | strong
  | common (size : Nat)
  deriving DecidableEq

structure SymbolPrioritySelector where
  firstStrong : Option SymbolId := none
  maxCommon : Option (Nat × SymbolId) := none
  firstWeak : Option SymbolId := none
  deriving DecidableEq

namespace SymbolPrioritySelector

variable (selector : SymbolPrioritySelector)

def consider (id : SymbolId) : SymbolStrength → SymbolPrioritySelector
  | .strong => { selector with firstStrong := selector.firstStrong.or (some id) }
  | .weak | .gnuUnique => { selector with firstWeak := selector.firstWeak.or (some id) }
  | .common size =>
    match selector.maxCommon with
    | some (prevSize, _) =>
      if size ≤ prevSize then selector else { selector with maxCommon := some (size, id) }
    | none => { selector with maxCommon := some (size, id) }
  | .undefined => selector

/-- strong, then the largest common one, then weak -/
def best : Option SymbolId :=
  (selector.firstStrong.or (selector.maxCommon.map (·.2))).or selector.firstWeak

end SymbolPrioritySelector

/-- What the selection reads of the symbols; nothing of it changes meanwhile. -/
structure SelectEnv where
  /-- The symbol's flags have `DYNAMIC`. -/
  isDynamic : SymbolId → Bool
  symbolStrength : SymbolId → SymbolStrength
  isInComdatGroup : SymbolId → Bool
  allowDuplicateDefinition : SymbolId → SymbolId → Bool
  allowMultipleDefinitions : Bool

namespace SelectEnv

variable (env : SelectEnv)

/-- A second strong definition that is not allowed. -/
def isDuplicate (selector : SymbolPrioritySelector) (id : SymbolId) : Bool :=
  match env.symbolStrength id, selector.firstStrong with
  | .strong, some existing =>
    (!env.isInComdatGroup existing || !env.isInComdatGroup id)
      && !env.allowDuplicateDefinition existing id && !env.allowMultipleDefinitions
  | _, _ => false

/-- The first loop of `select_symbol`, over the definitions that are not dynamic -/
def selectLoop (selector : SymbolPrioritySelector) :
    List SymbolId → Option SymbolPrioritySelector
  | [] => some selector
  | id :: rest =>
    if env.isDynamic id then selectLoop selector rest
    else if env.isDuplicate selector id then none
    else selectLoop (selector.consider id (env.symbolStrength id)) rest

/-- `none` is a duplicate definition -/
def selectSymbol (first : SymbolId) (alternatives : List SymbolId) : Option SymbolId :=
  (selectLoop env {} (first :: alternatives)).map fun selector =>
    match selector.best with
    | some best => best
    | none =>
      -- only defined in shared objects
      ((first :: alternatives).find? fun id => env.symbolStrength id != .undefined).getD first

end SelectEnv

/-! ## 2. Buckets -/

section

variable (Name Version : Type)

/-- A definition with external linkage: it may have a version and, if that is the default, is found
without it as well. -/
structure Definition where
  symbolId : SymbolId
  name : Name
  version : Option Version
  isDefault : Bool

/-- The definitions of all files, in the order of their symbol ids, and what the table of definitions
holds before. -/
structure SymbolTable where
  definitions : List (Definition Name Version)
  nodup : (definitions.map (·.symbolId)).Nodup
  initial : SymbolId → SymbolId
  initial_self : ∀ d ∈ definitions, initial d.symbolId = d.symbolId
  env : SelectEnv

structure SymbolBucket where
  names : FirstMap Name SymbolId
  versionedNames : FirstMap (Name × Version) SymbolId

/-- The hashes of the names. -/
structure Hashes where
  hash : Name → Nat
  hashVersioned : Name × Version → Nat

end

/-- The pending symbols of a bucket, added one after the other: `add_symbol` and
`add_versioned_symbol` -/
def bucketEntries {κ : Type} [DecidableEq κ] (pending : List (κ × SymbolId)) (hash : κ → Nat)
    (numBuckets b : Nat) : FirstMap κ SymbolId :=
  addAll (pending.filter fun p => hash p.1 % numBuckets = b)

namespace SymbolTable

variable {Name Version : Type} [DecidableEq Name] [DecidableEq Version]
variable (table : SymbolTable Name Version)

/-- The pending symbols. -/
def unversioned : List (Name × SymbolId) :=
  (table.definitions.filter (·.isDefault)).map fun d => (d.name, d.symbolId)

/-- The pending versioned symbols. -/
def versioned : List ((Name × Version) × SymbolId) :=
  table.definitions.filterMap fun d => d.version.map fun v => ((d.name, v), d.symbolId)

/-- `populate_symbol_db`: the bucket with an index -/
def bucket (hashes : Hashes Name Version) (numBuckets b : Nat) : SymbolBucket Name Version where
  names := bucketEntries table.unversioned hashes.hash numBuckets b
  versionedNames := bucketEntries table.versioned hashes.hashVersioned numBuckets b

/-- The stores of `process_alternatives` for one entry. -/
def stores (entry : SymbolId × List SymbolId) : List (SymbolId × SymbolId) :=
  match table.env.selectSymbol entry.1 entry.2 with
  | some selected => (entry.1 :: entry.2).map fun id => (id, selected)
  | none => []

/-- An order in which the entries of a bucket are processed: those without versions first. -/
def BucketOrder (bucket : SymbolBucket Name Version) (order : List (SymbolId × List SymbolId)) :
    Prop :=
  ∃ us vs, us.Perm bucket.names.alternatives ∧ vs.Perm bucket.versionedNames.alternatives ∧
    order = us ++ vs

/-- `resolve_alternative_symbol_definitions` succeeds and may leave these definitions. -/
structure Resolves (hashes : Hashes Name Version) (numBuckets : Nat)
    (final : SymbolId → SymbolId) : Prop where
  pos : 0 < numBuckets
  selects : ∀ b, ∀ entry ∈ (table.bucket hashes numBuckets b).names.alternatives
      ++ (table.bucket hashes numBuckets b).versionedNames.alternatives,
    (table.env.selectSymbol entry.1 entry.2).isSome
  run : ∃ (orders : Nat → List (SymbolId × List SymbolId)) (run : List (Nat × (SymbolId × SymbolId))),
    (∀ b, BucketOrder (table.bucket hashes numBuckets b) (orders b)) ∧
    Interleaves (fun b => (orders b).flatMap table.stores) run ∧
    final = applyStores table.initial (run.map (·.2))

end SymbolTable

/-- `SymbolDb::definition` -/
def definition (definitions : SymbolId → SymbolId) (id : SymbolId) : SymbolId :=
  definitions (definitions id)

/-! ## 3. What is selected -/

namespace SymbolPrioritySelector

/-- All that was considered comes from some list. -/
def From (selector : SymbolPrioritySelector) (ids : List SymbolId) : Prop :=
  (∀ id ∈ selector.firstStrong, id ∈ ids) ∧ (∀ c ∈ selector.maxCommon, c.2 ∈ ids) ∧
    ∀ id ∈ selector.firstWeak, id ∈ ids

variable {selector : SymbolPrioritySelector} {ids : List SymbolId} {id : SymbolId}

theorem From.consider
    (h : selector.From ids) (hid : id ∈ ids) (strength : SymbolStrength) :
    (selector.consider id strength).From ids := by
  obtain ⟨hstrong, hcommon, hweak⟩ := h
  have hor : ∀ {o : Option SymbolId}, (∀ x ∈ o, x ∈ ids) → ∀ x ∈ o.or (some id), x ∈ ids := by
    intro o ho x hx
    cases o with
    | none => rwa [← some.inj hx]
    | some y => exact ho x hx
  have hnew : ∀ size : Nat, ∀ c ∈ some (size, id), c.2 ∈ ids := by
    intro size c hc
    rwa [← some.inj hc]
  unfold SymbolPrioritySelector.consider
  cases strength with
  | undefined => exact ⟨hstrong, hcommon, hweak⟩
  | weak => exact ⟨hstrong, hcommon, hor hweak⟩
  | gnuUnique => exact ⟨hstrong, hcommon, hor hweak⟩
  | strong => exact ⟨hor hstrong, hcommon, hweak⟩
  | common size =>
    simp only
    split
    · split
      · exact ⟨hstrong, hcommon, hweak⟩
      · exact ⟨hstrong, hnew size, hweak⟩
    · exact ⟨hstrong, hnew size, hweak⟩

theorem From.best
    (h : selector.From ids) (hbest : selector.best = some id) : id ∈ ids := by
  obtain ⟨hstrong, hcommon, hweak⟩ := h
  rw [SymbolPrioritySelector.best, or_eq_some_iff, or_eq_some_iff] at hbest
  rcases hbest with (hs | ⟨-, hc⟩) | ⟨-, hw⟩
  · exact hstrong id hs
  · obtain ⟨c, hmem, rfl⟩ := map_eq_some_iff.mp hc
    exact hcommon c hmem
  · exact hweak id hw

end SymbolPrioritySelector

namespace SelectEnv

variable (env : SelectEnv)

theorem selectLoop_from {all : List SymbolId} : ∀ {ids : List SymbolId}
    {selector result : SymbolPrioritySelector}, selector.From all → ids ⊆ all →
    env.selectLoop selector ids = some result → result.From all
  | [], _, _, hfrom, _, h => some.inj h ▸ hfrom
  | id :: rest, selector, result, hfrom, hsub, h => by
    have hrest : rest ⊆ all := fun x hx => hsub (mem_cons_of_mem id hx)
    rw [selectLoop] at h
    split at h
    · exact selectLoop_from hfrom hrest h
    · split at h
      · contradiction
      · exact selectLoop_from (hfrom.consider (hsub mem_cons_self) _) hrest h

/-- One of the alternatives is selected. -/
theorem mem_of_selectSymbol {first selected : SymbolId} {alternatives : List SymbolId}
    (h : env.selectSymbol first alternatives = some selected) :
    selected ∈ first :: alternatives := by
  obtain ⟨selector, hloop, hsel⟩ := map_eq_some_iff.mp h
  have hempty : SymbolPrioritySelector.From {} (first :: alternatives) := ⟨nofun, nofun, nofun⟩
  have hfrom := selectLoop_from env hempty (List.Subset.refl _) hloop
  split at hsel
  · next best hbest =>
    subst hsel
    exact hfrom.best hbest
  · cases hfind : (first :: alternatives).find? fun id => env.symbolStrength id != .undefined with
    | none =>
      rw [hfind] at hsel
      obtain rfl := hsel
      exact mem_cons_self
    | some id =>
      rw [hfind] at hsel
      obtain rfl := hsel
      exact mem_of_find?_eq_some hfind

end SelectEnv

/-! ## 4. Groups of alternatives -/

theorem two_le_length_iff {first : SymbolId} {alternatives : List SymbolId} :
    2 ≤ (first :: alternatives).length ↔ alternatives ≠ [] := by
  rw [length_cons, ← length_pos_iff]
  omega

/-- The entries of a bucket are the names with several definitions. -/
theorem mem_bucketEntries_iff {κ : Type} [DecidableEq κ] {pending : List (κ × SymbolId)}
    (hnodup : (pending.map (·.2)).Nodup) (hash : κ → Nat) (numBuckets b : Nat) (first : SymbolId)
    (alternatives : List SymbolId) :
    (first, alternatives) ∈ (bucketEntries pending hash numBuckets b).alternatives ↔
      ∃ key, hash key % numBuckets = b ∧ idsOf pending key = first :: alternatives ∧
        2 ≤ (idsOf pending key).length := by
  have hfiltered : ((pending.filter fun p => hash p.1 % numBuckets = b).map (·.2)).Nodup :=
    hnodup.sublist (filter_sublist.map _)
  rw [bucketEntries, (holds_addAll _ hfiltered).alternatives]
  refine exists_congr fun key => ?_
  have hids := idsOf_filter pending (fun key => decide (hash key % numBuckets = b)) key
  rw [hids]
  by_cases hb : hash key % numBuckets = b
  · rw [if_pos (decide_eq_true hb)]
    constructor
    · rintro ⟨heq, hne⟩
      exact ⟨hb, heq, heq ▸ two_le_length_iff.mpr hne⟩
    · rintro ⟨-, heq, hlen⟩
      rw [heq] at hlen
      exact ⟨heq, two_le_length_iff.mp hlen⟩
  · simp [hb]

namespace SymbolTable

variable {Name Version : Type} (table : SymbolTable Name Version)

/-- What is selected for the definitions of a name. -/
def selectGroup : List SymbolId → Option SymbolId
  | [] => none
  | first :: alternatives => table.env.selectSymbol first alternatives

variable {v s : SymbolId} {κ : Type} {pending : List (κ × SymbolId)} {numBuckets : Nat} {key : κ}
  {hashes : Hashes Name Version} {final : SymbolId → SymbolId}

variable {ids : List SymbolId}

theorem mem_of_selectGroup
    (h : table.selectGroup ids = some v) : v ∈ ids := by
  cases ids with
  | nil => contradiction
  | cons first alternatives => exact table.env.mem_of_selectSymbol h

theorem nodup_unversioned : (table.unversioned.map (·.2)).Nodup := by
  rw [unversioned, List.map_map]
  exact table.nodup.sublist (filter_sublist.map _)

theorem versioned_sublist (definitions : List (Definition Name Version)) :
    ((definitions.filterMap fun d => d.version.map fun v => ((d.name, v), d.symbolId)).map
      (·.2)).Sublist (definitions.map (·.symbolId)) := by
  induction definitions with
  | nil => exact Sublist.refl _
  | cons d rest ih =>
    cases hv : d.version with
    | none =>
      rw [filterMap_cons, hv]
      exact ih.cons d.symbolId
    | some v =>
      rw [filterMap_cons, hv]
      exact ih.cons_cons d.symbolId

theorem nodup_versioned : (table.versioned.map (·.2)).Nodup :=
  table.nodup.sublist (versioned_sublist table.definitions)

variable {entry : SymbolId × List SymbolId} {hash : κ → Nat}

theorem mem_stores_iff :
    (s, v) ∈ table.stores entry ↔
      s ∈ entry.1 :: entry.2 ∧ table.selectGroup (entry.1 :: entry.2) = some v := by
  rw [stores, selectGroup]
  cases h : table.env.selectSymbol entry.1 entry.2 with
  | none => simp
  | some selected =>
    rw [List.mem_map]
    constructor
    · rintro ⟨id, hid, heq⟩
      cases heq
      exact ⟨hid, rfl⟩
    · rintro ⟨hs, hv⟩
      exact ⟨s, hs, by rw [some.inj hv]⟩

/-- A value is selected for a symbol by the definitions of some key. -/
def SelectedBy {κ : Type} [DecidableEq κ] (pending : List (κ × SymbolId)) (key : κ)
    (s v : SymbolId) : Prop :=
  2 ≤ (idsOf pending key).length ∧ s ∈ idsOf pending key ∧
    table.selectGroup (idsOf pending key) = some v

/-- The stores of the entries of a bucket. -/
theorem mem_flatMap_stores_iff [DecidableEq κ]
    (hnodup : (pending.map (·.2)).Nodup) {b : Nat}
    {entries : List (SymbolId × List SymbolId)}
    (hperm : entries.Perm (bucketEntries pending hash numBuckets b).alternatives) :
    (s, v) ∈ entries.flatMap table.stores ↔
      ∃ key, hash key % numBuckets = b ∧ table.SelectedBy pending key s v := by
  rw [mem_flatMap]
  constructor
  · rintro ⟨entry, hentry, hstore⟩
    obtain ⟨key, hb, hids, hlen⟩ :=
      (mem_bucketEntries_iff hnodup hash numBuckets b _ _).mp (hperm.mem_iff.mp hentry)
    refine ⟨key, hb, hlen, ?_⟩
    rw [hids]
    exact table.mem_stores_iff.mp hstore
  · rintro ⟨key, hb, hlen, hs, hv⟩
    cases hids : idsOf pending key with
    | nil =>
      rw [hids] at hs
      exact absurd hs not_mem_nil
    | cons first alternatives =>
      rw [hids] at hs hv
      refine ⟨(first, alternatives), hperm.mem_iff.mpr ?_, table.mem_stores_iff.mpr ⟨hs, hv⟩⟩
      exact (mem_bucketEntries_iff hnodup hash numBuckets b _ _).mpr ⟨key, hb, hids, hlen⟩

/-- A symbol has one definition selected by each kind of name. -/
theorem SelectedBy.unique [DecidableEq κ]
    (hnodup : (pending.map (·.2)).Nodup) {key' : κ} {v' : SymbolId}
    (h : table.SelectedBy pending key s v) (h' : table.SelectedBy pending key' s v') : v = v' := by
  obtain rfl := key_unique hnodup h.2.1 h'.2.1
  exact some.inj (h.2.2.symm.trans h'.2.2)

/-- What is selected is selected for itself. -/
theorem SelectedBy.self [DecidableEq κ] (h : table.SelectedBy pending key s v) :
    table.SelectedBy pending key v v :=
  ⟨h.1, table.mem_of_selectGroup h.2.2, h.2.2⟩

/-! ## 5. Canonical definitions -/

variable [DecidableEq Name] [DecidableEq Version]

/-- The symbol is one of several definitions of a name. -/
def HasAlternatives (s : SymbolId) : Prop :=
  (∃ name, 2 ≤ (idsOf table.unversioned name).length ∧ s ∈ idsOf table.unversioned name) ∨
    ∃ key, 2 ≤ (idsOf table.versioned key).length ∧ s ∈ idsOf table.versioned key

/-- The definitions that `resolve_alternative_symbol_definitions` leaves are what they should be,
whatever the buckets and the order. -/
structure CanonicalUnique : Prop where
  idempotent : ∀ {hashes numBuckets final}, table.Resolves hashes numBuckets final →
    ∀ s, table.HasAlternatives s →
      definition final (definition final s) = definition final s
  shared : ∀ {hashes numBuckets final}, table.Resolves hashes numBuckets final →
    ∀ name, ∀ s ∈ idsOf table.unversioned name, ∀ t ∈ idsOf table.unversioned name,
      definition final s = definition final t
  independent : ∀ {hashes numBuckets final hashes' numBuckets' final'},
    table.Resolves hashes numBuckets final → table.Resolves hashes' numBuckets' final' →
    ∀ name, ∀ s ∈ idsOf table.unversioned name, definition final s = definition final' s

/-- There are no duplicate definitions. -/
def Succeeds : Prop :=
  (∀ name, 2 ≤ (idsOf table.unversioned name).length →
    (table.selectGroup (idsOf table.unversioned name)).isSome) ∧
  ∀ key, 2 ≤ (idsOf table.versioned key).length →
    (table.selectGroup (idsOf table.versioned key)).isSome

/-- A definition that has alternatives under its name both with and without its version has the same
one selected by both. -/
def SelectionsAgree : Prop :=
  ∀ name key s u v, table.SelectedBy table.unversioned name s u →
    table.SelectedBy table.versioned key s v → u = v

/-- A definition is selected for a symbol by one of its names. -/
def Selected (s v : SymbolId) : Prop :=
  (∃ name, table.SelectedBy table.unversioned name s v) ∨
    ∃ key, table.SelectedBy table.versioned key s v

/-- The stores of every run. -/
theorem Resolves.mem_stores_iff
    {orders : Nat → List (SymbolId × List SymbolId)} {run : List (Nat × (SymbolId × SymbolId))}
    (horders : ∀ b, BucketOrder (table.bucket hashes numBuckets b) (orders b))
    (hrun : Interleaves (fun b => (orders b).flatMap table.stores) run) :
    (s, v) ∈ run.map (·.2) ↔ table.Selected s v := by
  rw [hrun.mem_iff]
  constructor
  · rintro ⟨b, hb⟩
    obtain ⟨us, vs, hus, hvs, heq⟩ := horders b
    rw [heq, flatMap_append, mem_append] at hb
    rcases hb with hu | hv
    · obtain ⟨name, -, h⟩ := (table.mem_flatMap_stores_iff table.nodup_unversioned hus).mp hu
      exact .inl ⟨name, h⟩
    · obtain ⟨key, -, h⟩ := (table.mem_flatMap_stores_iff table.nodup_versioned hvs).mp hv
      exact .inr ⟨key, h⟩
  · rintro (⟨name, h⟩ | ⟨key, h⟩)
    · obtain ⟨us, vs, hus, hvs, heq⟩ := horders (hashes.hash name % numBuckets)
      refine ⟨hashes.hash name % numBuckets, ?_⟩
      rw [heq, flatMap_append, mem_append]
      exact .inl ((table.mem_flatMap_stores_iff table.nodup_unversioned hus).mpr ⟨name, rfl, h⟩)
    · obtain ⟨us, vs, hus, hvs, heq⟩ := horders (hashes.hashVersioned key % numBuckets)
      refine ⟨hashes.hashVersioned key % numBuckets, ?_⟩
      rw [heq, flatMap_append, mem_append]
      exact .inr ((table.mem_flatMap_stores_iff table.nodup_versioned hvs).mpr ⟨key, rfl, h⟩)

theorem Selected.self (h : table.Selected s v) : table.Selected v v := by
  rcases h with ⟨name, h⟩ | ⟨key, h⟩
  · exact .inl ⟨name, h.self⟩
  · exact .inr ⟨key, h.self⟩

/-- Where the selections agree, they leave one choice. -/
theorem SelectionsAgree.unique (hagree : table.SelectionsAgree) {w : SymbolId}
    (hv : table.Selected s v) (hw : table.Selected s w) : v = w := by
  rcases hv with ⟨name, hv⟩ | ⟨key, hv⟩
  · rcases hw with ⟨name', hw⟩ | ⟨key', hw⟩
    · exact hv.unique table table.nodup_unversioned hw
    · exact hagree name key' s v w hv hw
  · rcases hw with ⟨name', hw⟩ | ⟨key', hw⟩
    · exact (hagree name' key s w v hw hv).symm
    · exact hv.unique table table.nodup_versioned hw

section

variable (h : table.Resolves hashes numBuckets final)
include h

theorem Resolves.succeeds :
    table.Succeeds := by
  constructor
  · intro name hlen
    cases hids : idsOf table.unversioned name with
    | nil => rw [hids] at hlen; contradiction
    | cons first alternatives =>
      have hmem := (mem_bucketEntries_iff table.nodup_unversioned hashes.hash numBuckets
        (hashes.hash name % numBuckets) first alternatives).mpr ⟨name, rfl, hids, hlen⟩
      exact h.selects _ (first, alternatives) (mem_append_left _ hmem)
  · intro key hlen
    cases hids : idsOf table.versioned key with
    | nil => rw [hids] at hlen; contradiction
    | cons first alternatives =>
      have hmem := (mem_bucketEntries_iff table.nodup_versioned hashes.hashVersioned numBuckets
        (hashes.hashVersioned key % numBuckets) first alternatives).mpr ⟨key, rfl, hids, hlen⟩
      exact h.selects _ (first, alternatives) (mem_append_right _ hmem)

/-- Where the selections agree, every run leaves what is selected. -/
theorem Resolves.final_eq
    (hagree : table.SelectionsAgree) (hv : table.Selected s v) : final s = v := by
  obtain ⟨orders, run, horders, hrun, rfl⟩ := h.run
  refine applyStores_of_agree _ ((Resolves.mem_stores_iff table horders hrun).mpr hv) ?_
  rintro ⟨s', w⟩ hmem rfl
  exact hagree.unique table ((Resolves.mem_stores_iff table horders hrun).mp hmem) hv

theorem Resolves.definition_eq
    (hagree : table.SelectionsAgree) (hv : table.Selected s v) :
    definition final s = v := by
  rw [definition, h.final_eq table hagree hv, h.final_eq table hagree hv.self]

/-- What nothing is selected for keeps its definition. -/
theorem Resolves.final_of_not_selected
    (hs : ∀ v, ¬ table.Selected s v) : final s = table.initial s := by
  obtain ⟨orders, run, horders, hrun, rfl⟩ := h.run
  refine applyStores_of_not_mem _ ?_
  rintro ⟨s', w⟩ hmem rfl
  exact hs w ((Resolves.mem_stores_iff table horders hrun).mp hmem)

end

theorem Succeeds.selected (h : table.Succeeds) (hs : table.HasAlternatives s) :
    ∃ v, table.Selected s v := by
  rcases hs with ⟨name, hlen, hmem⟩ | ⟨key, hlen, hmem⟩
  · obtain ⟨v, hv⟩ := isSome_iff_exists.mp (h.1 name hlen)
    exact ⟨v, .inl ⟨name, hlen, hmem, hv⟩⟩
  · obtain ⟨v, hv⟩ := isSome_iff_exists.mp (h.2 key hlen)
    exact ⟨v, .inr ⟨key, hlen, hmem, hv⟩⟩

omit [DecidableEq Version] in
theorem initial_of_mem {name : Name} (hs : s ∈ idsOf table.unversioned name) :
    table.initial s = s := by
  obtain ⟨d, hd, heq⟩ := mem_map.mp (mem_idsOf.mp hs)
  obtain ⟨-, rfl⟩ := Prod.mk.inj heq
  exact table.initial_self d (mem_of_mem_filter hd)

theorem two_le_of_ne {t : SymbolId} (hs : s ∈ ids) (ht : t ∈ ids)
    (hne : s ≠ t) : 2 ≤ ids.length := by
  cases ids with
  | nil => exact absurd hs not_mem_nil
  | cons first rest =>
    rw [two_le_length_iff]
    rintro rfl
    exact hne ((mem_singleton.mp hs).trans (mem_singleton.mp ht).symm)

theorem canonicalUnique_of_agree (h : table.Succeeds → table.SelectionsAgree) :
    table.CanonicalUnique where
  idempotent hres s hs := by
    have hagree := h hres.succeeds
    obtain ⟨v, hv⟩ := hres.succeeds.selected table hs
    rw [hres.definition_eq table hagree hv, hres.definition_eq table hagree hv.self]
  shared hres name s hs t ht := by
    by_cases hst : s = t
    · rw [hst]
    · have hagree := h hres.succeeds
      have hlen := two_le_of_ne hs ht hst
      obtain ⟨v, hv⟩ := isSome_iff_exists.mp (hres.succeeds.1 name hlen)
      rw [hres.definition_eq table hagree (.inl ⟨name, hlen, hs, hv⟩),
        hres.definition_eq table hagree (.inl ⟨name, hlen, ht, hv⟩)]
  independent hres hres' name s hs := by
    have hagree := h hres.succeeds
    by_cases hsel : ∃ v, table.Selected s v
    · obtain ⟨v, hv⟩ := hsel
      rw [hres.definition_eq table hagree hv, hres'.definition_eq table hagree hv]
    · have hnone : ∀ v, ¬ table.Selected s v := fun v hv => hsel ⟨v, hv⟩
      simp only [definition, hres.final_of_not_selected table hnone,
        hres'.final_of_not_selected table hnone, table.initial_of_mem hs]

/-! ## 6. Two runs -/

/-- All names in one bucket. -/
def oneBucket : Hashes Name Version := ⟨fun _ => 0, fun _ => 0⟩

/-- Names with and without versions in two buckets. -/
def twoBuckets : Hashes Name Version := ⟨fun _ => 0, fun _ => 1⟩

/-- The stores for the names of each kind. -/
def unversionedStores : List (SymbolId × SymbolId) :=
  (bucketEntries table.unversioned (fun _ => 0) 1 0).alternatives.flatMap table.stores

def versionedStores : List (SymbolId × SymbolId) :=
  (bucketEntries table.versioned (fun _ => 0) 1 0).alternatives.flatMap table.stores

omit [DecidableEq Version] in
theorem mem_unversionedStores_iff :
    (s, v) ∈ table.unversionedStores ↔ ∃ name, table.SelectedBy table.unversioned name s v := by
  rw [unversionedStores, table.mem_flatMap_stores_iff table.nodup_unversioned (Perm.refl _)]
  simp

theorem mem_versionedStores_iff :
    (s, v) ∈ table.versionedStores ↔ ∃ key, table.SelectedBy table.versioned key s v := by
  rw [versionedStores, table.mem_flatMap_stores_iff table.nodup_versioned (Perm.refl _)]
  simp

omit [DecidableEq Name] [DecidableEq Version] in
/-- What is stored last for a name stays. -/
theorem definition_of_last [DecidableEq κ]
    (hnodup : (pending.map (·.2)).Nodup) {before last : List (SymbolId × SymbolId)}
    (hlast : ∀ s v, (s, v) ∈ last ↔ ∃ key, table.SelectedBy pending key s v)
    (h : table.SelectedBy pending key s v) :
    definition (applyStores table.initial (before ++ last)) s = v := by
  have hkeep : ∀ {t : SymbolId}, table.SelectedBy pending key t v →
      applyStores table.initial (before ++ last) t = v := by
    intro t ht
    rw [applyStores_append]
    refine applyStores_of_agree _ ((hlast t v).mpr ⟨key, ht⟩) ?_
    rintro ⟨t', w⟩ hmem rfl
    obtain ⟨key', hw⟩ := (hlast t' w).mp hmem
    exact hw.unique table hnodup ht
  rw [definition, hkeep h, hkeep h.self]

theorem Succeeds.selects (h : table.Succeeds) (hashes : Hashes Name Version) (numBuckets b : Nat)
    (hentry : entry ∈ (table.bucket hashes numBuckets b).names.alternatives
      ++ (table.bucket hashes numBuckets b).versionedNames.alternatives) :
    (table.env.selectSymbol entry.1 entry.2).isSome := by
  rcases mem_append.mp hentry with hu | hv
  · obtain ⟨name, -, hids, hlen⟩ :=
      (mem_bucketEntries_iff table.nodup_unversioned hashes.hash numBuckets b _ _).mp hu
    have hsome := h.1 name hlen
    rwa [hids] at hsome
  · obtain ⟨key, -, hids, hlen⟩ :=
      (mem_bucketEntries_iff table.nodup_versioned hashes.hashVersioned numBuckets b _ _).mp hv
    have hsome := h.2 key hlen
    rwa [hids] at hsome

omit [DecidableEq Name] [DecidableEq Version] in
theorem bucketEntries_eq_empty [DecidableEq κ] (pending : List (κ × SymbolId)) {b : Nat} (h : ∀ key, hash key % numBuckets ≠ b) :
    bucketEntries pending hash numBuckets b = empty := by
  have hnil : pending.filter (fun p => hash p.1 % numBuckets = b) = [] :=
    filter_eq_nil_iff.mpr fun p _ hp => h p.1 (of_decide_eq_true hp)
  rw [bucketEntries, hnil]
  rfl

/-- The buckets one after the other, in some order. -/
theorem Succeeds.resolves (h : table.Succeeds)
    (hpos : 0 < numBuckets) {order : List Nat} (hnodup : order.Nodup)
    (hall : ∀ b, b ∉ order → (∀ name, hashes.hash name % numBuckets ≠ b) ∧
      ∀ key, hashes.hashVersioned key % numBuckets ≠ b) :
    table.Resolves hashes numBuckets (applyStores table.initial (order.flatMap fun b =>
      ((table.bucket hashes numBuckets b).names.alternatives
        ++ (table.bucket hashes numBuckets b).versionedNames.alternatives).flatMap
          table.stores)) where
  pos := hpos
  selects b _ hentry := h.selects table hashes numBuckets b hentry
  run := by
    refine ⟨fun b => (table.bucket hashes numBuckets b).names.alternatives
        ++ (table.bucket hashes numBuckets b).versionedNames.alternatives, _,
      fun b => ⟨_, _, Perm.refl _, Perm.refl _, rfl⟩,
      interleaves_flatMap hnodup ?_, ?_⟩
    · intro b hb
      obtain ⟨hu, hv⟩ := hall b hb
      have hnames : (table.bucket hashes numBuckets b).names = empty := bucketEntries_eq_empty _ hu
      have hversioned : (table.bucket hashes numBuckets b).versionedNames = empty :=
        bucketEntries_eq_empty _ hv
      simp only [hnames, hversioned]
      rfl
    · rw [map_flatMap]
      simp only [List.map_map, Function.comp_def, List.map_id']

theorem resolves_oneBucket (h : table.Succeeds) :
    table.Resolves oneBucket 1
      (applyStores table.initial (table.unversionedStores ++ table.versionedStores)) := by
  have hall : ∀ b, b ∉ [0] → (∀ name, (oneBucket : Hashes Name Version).hash name % 1 ≠ b) ∧
      ∀ key : Name × Version, oneBucket.hashVersioned key % 1 ≠ b := by
    intro b hb
    have hne : 0 ≠ b := by
      rintro rfl
      exact hb (mem_singleton_self 0)
    exact ⟨fun _ => hne, fun _ => hne⟩
  have hres := h.resolves table Nat.one_pos (nodup_singleton 0) hall
  rw [flatMap_singleton, flatMap_append] at hres
  exact hres

theorem resolves_twoBuckets (h : table.Succeeds) :
    table.Resolves twoBuckets 2
      (applyStores table.initial (table.versionedStores ++ table.unversionedStores)) := by
  have hall : ∀ b, b ∉ [1, 0] → (∀ name, (twoBuckets : Hashes Name Version).hash name % 2 ≠ b) ∧
      ∀ key : Name × Version, twoBuckets.hashVersioned key % 2 ≠ b := by
    intro b hb
    simp only [mem_cons, not_mem_nil, or_false, not_or] at hb
    exact ⟨fun _ => Ne.symm hb.2, fun _ => Ne.symm hb.1⟩
  have hres := h.resolves table Nat.two_pos (by decide : [1, 0].Nodup) hall
  have hnames : (table.bucket twoBuckets 2 1).names = empty :=
    bucketEntries_eq_empty _ fun _ => Nat.zero_ne_one
  have hversioned : (table.bucket twoBuckets 2 0).versionedNames = empty :=
    bucketEntries_eq_empty _ fun _ => Nat.one_ne_zero
  rw [flatMap_cons, flatMap_singleton, flatMap_append, flatMap_append, hnames,
    hversioned] at hres
  simp only [empty, flatMap_nil, nil_append, append_nil] at hres
  exact hres

end SymbolTable

/-- `foo@@V1` and `foo@V1`, with `foo` between them.  The first is weak. -/
def splitTable : SymbolTable Nat Nat where
  definitions := [⟨1, 0, some 1, true⟩, ⟨2, 0, none, true⟩, ⟨3, 0, some 1, false⟩]
  nodup := by decide
  initial := id
  initial_self _ _ := rfl
  env :=
    { isDynamic := fun _ => false
      symbolStrength := fun id => if id = 1 then .weak else .strong
      isInComdatGroup := fun _ => false
      allowDuplicateDefinition := fun _ _ => false
      allowMultipleDefinitions := false }

theorem splitTable_succeeds : splitTable.Succeeds := by
  constructor
  · intro name hlen
    by_cases hname : name = 0
    · subst hname
      decide
    · have hnil : idsOf splitTable.unversioned name = [] := by
        simp [idsOf, SymbolTable.unversioned, splitTable, Ne.symm hname]
      rw [hnil] at hlen
      contradiction
  · intro key hlen
    by_cases hkey : key = (0, 1)
    · subst hkey
      decide
    · have hnil : idsOf splitTable.versioned key = [] := by
        simp [idsOf, SymbolTable.versioned, splitTable, Ne.symm hkey]
      rw [hnil] at hlen
      contradiction

end Srs.Resolution
