/-
# Lookups that leave out shared objects

`SymbolDb::get` with `allow_dynamic = false`: where the first definition of a name is in a shared
object, another one is selected.  It is searched among the alternatives of the first one, and these
are always taken from the map for names without versions; so a versioned name loses its other
definitions.  A definition that is not in an object has no strength and is never selected.
`findsRegular_iff` says when the lookup finds a definition outside shared objects nevertheless.
-/
import Mathlib.Data.List.MinMax
import Srs.Resolution.Alternatives

namespace Srs.Resolution

open Stores Stores.FirstMap List Option

/-! ## 1. The lookup -/

/-- Only objects may be shared objects and have symbols of some strength. -/
inductive SequencedInput where
  | prelude
  | object (isDynamic : Bool) (symbolStrength : SymbolId → SymbolStrength)
  | linkerScript
  | syntheticSymbols
  | ltoInput

namespace SequencedInput

def isDynamic : SequencedInput → Bool
  | object isDynamic _ => isDynamic
  | _ => false

def symbolStrength (id : SymbolId) : SequencedInput → SymbolStrength
  | object _ symbolStrength => symbolStrength id
  | _ => .undefined

end SequencedInput

inductive PreHashedSymbolName (Name Version : Type) where
  | unversioned (key : Name)
  | versioned (key : Name × Version)

structure SymbolDb (Name Version : Type) where
  table : SymbolTable Name Version
  hashes : Hashes Name Version
  numBuckets : Nat
  /-- `resolve_alternative_symbol_definitions` has emptied the maps of alternatives. -/
  taken : Bool
  /-- `file(file_id_for_symbol(id))` -/
  file : SymbolId → SequencedInput

namespace SymbolDb

variable {Name Version : Type} [DecidableEq Name] [DecidableEq Version]
  (db : SymbolDb Name Version) (key : PreHashedSymbolName Name Version)

def bucket (hash : Nat) : SymbolBucket Name Version :=
  let bucket := db.table.bucket db.hashes db.numBuckets (hash % db.numBuckets)
  if db.taken then ⟨⟨bucket.names.first, []⟩, ⟨bucket.versionedNames.first, []⟩⟩ else bucket

def getNonDynamic (bucket : SymbolBucket Name Version) (id : SymbolId) : Option SymbolId := do
  let entry ← bucket.names.alternatives.find? (·.1 = id)
  (entry.2.foldl (fun (selector : SymbolPrioritySelector) alt =>
    if (db.file alt).isDynamic then selector
    else selector.consider alt ((db.file alt).symbolStrength alt)) {}).best

def get (allowDynamic : Bool) : Option SymbolId :=
  match key with
  | .unversioned key => do
    let bucket := db.bucket (db.hashes.hash key)
    let id ← bucket.names.get key
    if !allowDynamic && (db.file id).isDynamic then db.getNonDynamic bucket id else some id
  | .versioned key => do
    let bucket := db.bucket (db.hashes.hashVersioned key)
    let id ← bucket.versionedNames.get key
    if !allowDynamic && (db.file id).isDynamic then db.getNonDynamic bucket id else some id

/-! ## 2. What it should find -/

/-- The symbols that define a name. -/
def definers : List SymbolId :=
  match key with
  | .unversioned key => idsOf db.table.unversioned key
  | .versioned key => idsOf db.table.versioned key

/-- Those outside shared objects. -/
def regular (ids : List SymbolId) : List SymbolId := ids.filter fun id => !(db.file id).isDynamic

def FindsRegular : Prop :=
  if db.regular (db.definers key) = [] then db.get key false = none
  else ∃ id ∈ db.regular (db.definers key), db.get key false = some id

/-- The largest common definition, the first of them if there are several. -/
def largestCommon (strength : SymbolId → SymbolStrength) (ids : List SymbolId) :
    Option (Nat × SymbolId) :=
  argmax Prod.fst (ids.filterMap fun id =>
    match strength id with
    | .common size => some (size, id)
    | _ => none)

/-- The first strong definition, else the largest common one, else the first weak one. -/
def preferred (strength : SymbolId → SymbolStrength) (ids : List SymbolId) : Option SymbolId :=
  ((ids.find? (strength · = .strong)).or ((largestCommon strength ids).map (·.2))).or
    (ids.find? fun id => strength id = .weak ∨ strength id = .gnuUnique)

def hashOf : Nat :=
  match key with
  | .unversioned key => db.hashes.hash key
  | .versioned key => db.hashes.hashVersioned key

/-- What is stored as the alternatives of a symbol for names without versions. -/
def stored (first : SymbolId) : List SymbolId :=
  ((db.bucket (db.hashOf key)).names.alternatives.find? (·.1 = first)).elim [] (·.2)

/-- If the first definition is in a shared object: a name without version that is defined elsewhere
is defined in an object; for a name with a version, the preferred alternative of the same symbol's
name without version defines it, and there is none if nothing outside shared objects does. -/
def Reaches : Prop :=
  ∀ first ∈ (db.definers key).head?, (db.file first).isDynamic →
    match key with
    | .unversioned _ => db.regular (db.definers key) ≠ [] → db.taken = false ∧
      ∃ id ∈ db.regular (db.definers key), (db.file id).symbolStrength id ≠ .undefined
    | .versioned _ =>
      let selected := preferred (fun id => (db.file id).symbolStrength id)
        (db.regular (db.stored key first))
      if db.regular (db.definers key) = [] then selected = none
      else ∃ id ∈ db.regular (db.definers key), selected = some id

end SymbolDb

/-! ## 3. What it finds -/

section

variable (strength : SymbolId → SymbolStrength) (ids : List SymbolId)

/-- The selector after a list of symbols. -/
theorem foldl_consider :
    ids.foldl (fun (selector : SymbolPrioritySelector) id => selector.consider id (strength id)) {}
      = ⟨ids.find? (strength · = .strong), SymbolDb.largestCommon strength ids,
        ids.find? fun id => strength id = .weak ∨ strength id = .gnuUnique⟩ := by
  induction ids using reverseRecOn with
  | nil => rfl
  | append_singleton ids id ih =>
    rw [foldl_append, foldl_cons, foldl_nil, ih, SymbolDb.largestCommon, SymbolDb.largestCommon]
    cases hs : strength id with
    | common size =>
      simp only [SymbolPrioritySelector.consider, find?_append, filterMap_append, hs,
        filterMap_cons, filterMap_nil, argmax_concat]
      cases argmax (Prod.fst : Nat × SymbolId → Nat) _ with
      | none => simp [hs]
      | some c => by_cases hle : size ≤ c.1 <;> simp [hs, hle, not_lt.mpr, not_le.mp]
    | _ => simp [SymbolPrioritySelector.consider, find?_append, hs]

variable {strength ids}

/-- Something is preferred if the strength of something is known. -/
theorem preferred_eq_none_iff :
    SymbolDb.preferred strength ids = none ↔ ∀ id ∈ ids, strength id = .undefined := by
  simp only [SymbolDb.preferred, SymbolDb.largestCommon, or_eq_none_iff, find?_eq_none,
    map_eq_none_iff, argmax_eq_none, filterMap_eq_nil_iff, decide_eq_true_eq]
  constructor
  · rintro ⟨⟨hstrong, hcommon⟩, hweak⟩ id hid
    have h := hcommon id hid
    cases hs : strength id with
    | undefined => rfl
    | strong => exact absurd hs (hstrong id hid)
    | weak => exact absurd (.inl hs) (hweak id hid)
    | gnuUnique => exact absurd (.inr hs) (hweak id hid)
    | common size => simp [hs] at h
  · intro h
    refine ⟨⟨fun id hid => ?_, fun id hid => ?_⟩, fun id hid => ?_⟩ <;> simp [h id hid]

theorem mem_of_preferred {id : SymbolId} (h : SymbolDb.preferred strength ids = some id) :
    id ∈ ids := by
  rw [SymbolDb.preferred, or_eq_some_iff, or_eq_some_iff] at h
  rcases h with (hstrong | ⟨-, hcommon⟩) | ⟨-, hweak⟩
  · exact mem_of_find?_eq_some hstrong
  · obtain ⟨c, hc, rfl⟩ := map_eq_some_iff.mp hcommon
    obtain ⟨id, hid, heq⟩ := mem_filterMap.mp (argmax_mem hc)
    split at heq
    · cases heq
      exact hid
    · contradiction
  · exact mem_of_find?_eq_some hweak

end

namespace SymbolDb

variable {Name Version : Type} [DecidableEq Name] [DecidableEq Version]
  (db : SymbolDb Name Version) {key : PreHashedSymbolName Name Version}

/-- The alternatives of a symbol outside shared objects are considered. -/
theorem getNonDynamic_eq (first : SymbolId) :
    db.getNonDynamic (db.bucket (db.hashOf key)) first
      = preferred (fun id => (db.file id).symbolStrength id) (db.regular (db.stored key first)) := by
  have hfold : ∀ ids : List SymbolId, (ids.foldl (fun (selector : SymbolPrioritySelector) alt =>
      if (db.file alt).isDynamic then selector
      else selector.consider alt ((db.file alt).symbolStrength alt)) {}).best
        = preferred (fun id => (db.file id).symbolStrength id) (db.regular ids) := by
    intro ids
    have hsel := foldl_consider (fun id => (db.file id).symbolStrength id) (db.regular ids)
    rw [regular, foldl_filter] at hsel
    simp only [Bool.not_eq_true', ← Bool.not_eq_true, ite_not] at hsel
    rw [hsel]
    rfl
  rw [getNonDynamic, stored]
  cases (db.bucket (db.hashOf key)).names.alternatives.find? (·.1 = first) with
  | none => rfl
  | some entry => exact hfold entry.2

omit [DecidableEq Name] [DecidableEq Version] in
theorem bucketEntries_get {κ : Type} [DecidableEq κ] {pending : List (κ × SymbolId)}
    (hnodup : (pending.map (·.2)).Nodup) (hash : κ → Nat) (numBuckets : Nat) (key : κ) :
    (bucketEntries pending hash numBuckets (hash key % numBuckets)).get key
      = (idsOf pending key).head? := by
  rw [bucketEntries, (holds_addAll _ (hnodup.sublist (filter_sublist.map _))).get,
    idsOf_filter pending (fun k => decide (hash k % numBuckets = hash key % numBuckets)) key,
    if_pos (decide_eq_true rfl)]

/-- Where the first definition is in a shared object, an alternative is looked up. -/
theorem get_false : db.get key false = (db.definers key).head?.bind fun first =>
    if (db.file first).isDynamic then
      preferred (fun id => (db.file id).symbolStrength id) (db.regular (db.stored key first))
    else some first := by
  simp only [← getNonDynamic_eq]
  cases key with
  | unversioned name =>
    have hget : (db.bucket (db.hashes.hash name)).names.get name
        = (idsOf db.table.unversioned name).head? := by
      rw [← bucketEntries_get db.table.nodup_unversioned db.hashes.hash db.numBuckets, bucket]
      split <;> rfl
    simp only [get, hget, Bool.not_false, Bool.true_and]
    rfl
  | versioned key =>
    have hget : (db.bucket (db.hashes.hashVersioned key)).versionedNames.get key
        = (idsOf db.table.versioned key).head? := by
      rw [← bucketEntries_get db.table.nodup_versioned db.hashes.hashVersioned db.numBuckets,
        bucket]
      split <;> rfl
    simp only [get, hget, Bool.not_false, Bool.true_and]
    rfl

/-- What is stored for the first definition of a name without version. -/
theorem stored_eq {name : Name} {first : SymbolId} {rest : List SymbolId}
    (htaken : db.taken = false) (h : idsOf db.table.unversioned name = first :: rest) :
    db.stored (.unversioned name) first = rest := by
  have hiff : ∀ f alts, (f, alts) ∈ (db.bucket (db.hashes.hash name)).names.alternatives ↔
      ∃ key, db.hashes.hash key % db.numBuckets = db.hashes.hash name % db.numBuckets ∧
        idsOf db.table.unversioned key = f :: alts ∧
        2 ≤ (idsOf db.table.unversioned key).length := by
    rw [bucket, htaken]
    exact mem_bucketEntries_iff db.table.nodup_unversioned _ _ _
  rw [stored, hashOf]
  cases hfind : (db.bucket (db.hashes.hash name)).names.alternatives.find? (·.1 = first) with
  | none =>
    refine by_contra fun hne => ?_
    have hmem := (hiff first rest).mpr ⟨name, rfl, h, h ▸ two_le_length_iff.mpr (Ne.symm hne)⟩
    exact find?_eq_none.mp hfind _ hmem (decide_eq_true rfl)
  | some entry =>
    obtain ⟨f, alts⟩ := entry
    have hf := find?_some hfind
    obtain rfl := of_decide_eq_true hf
    obtain ⟨key, -, hids, -⟩ := (hiff f alts).mp (mem_of_find?_eq_some hfind)
    obtain rfl := key_unique db.table.nodup_unversioned (hids ▸ mem_cons_self) (h ▸ mem_cons_self)
    exact (cons.inj (hids.symm.trans h)).2

end SymbolDb

/-- `foo` in a shared object and in a linker script, and `bar@V1` in a shared object and in an
object. -/
def lookupDb : SymbolDb Nat Nat where
  table :=
    { definitions := [⟨1, 0, none, true⟩, ⟨2, 0, none, true⟩, ⟨3, 1, some 1, false⟩,
        ⟨4, 1, some 1, false⟩]
      nodup := by decide
      initial := id
      initial_self := fun _ _ => rfl
      env := splitTable.env }
  hashes := SymbolTable.oneBucket
  numBuckets := 1
  taken := false
  file id :=
    if id = 2 then .linkerScript
    else .object (id != 4) fun _ => .strong

end Srs.Resolution
