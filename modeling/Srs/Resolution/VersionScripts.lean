/-
# Version scripts

A version script says which definitions of a shared object become local.  Scripts as `rustc` writes
them, a list of global names and `*` for all others, take a short cut: all definitions are made local
when they are loaded, and those that are listed are looked up and made global again after symbols are
resolved (`handle_rust_version_script`).  `rust_agrees_iff` says where that leaves the same flags as
asking the script for each symbol.  It does not for thread-locals (`local_tls_differs`): the general
path leaves out `NON_INTERPOSABLE` for them and the short cut adds it.

Glob patterns are given by what they match, and names are assumed to be valid UTF-8 where a pattern
needs that.
-/
import Srs.Dynamic.Flags
import Srs.Resolution.Alternatives

namespace Srs.Resolution

open Stores Stores.FirstMap Srs.Dynamic List

/-! ## 1. Scripts -/

abbrev Pattern := Bytes → Bool

inductive SymbolMatcher where
  | exact (name : Bytes)
  | escapedExact (escaped : Bytes)
  | starGlob (glob : Pattern)
  | nonstarGlob (glob : Pattern)
  | matchesAll

inductive ParsedSymbolMatcher where
  | single (matcher : SymbolMatcher)
  | multiple (matchers : List SymbolMatcher)
  | cxxMatchers (matchers : List SymbolMatcher)

structure BasicMatchRules where
  exact : List Bytes := []
  escapedExact : List Bytes := []
  starGlobs : List Pattern := []
  nonstarGlobs : List Pattern := []
  matchesAll : Bool := false

structure MatchRules where
  general : BasicMatchRules := {}
  cxx : BasicMatchRules := {}

structure VersionBody where
  globals : MatchRules := {}
  locals : MatchRules := {}

structure RawVersionBody where
  globals : List ParsedSymbolMatcher
  locals : List ParsedSymbolMatcher

inductive VersionRuleSection where
  | global
  | local_
  deriving DecidableEq

/-- How names are unescaped and demangled. -/
structure NameEnv where
  unescapePattern : Bytes → Bytes
  demangle : Bytes → Bytes

section

variable (names : NameEnv)

def BasicMatchRules.push (rules : BasicMatchRules) : SymbolMatcher → BasicMatchRules
  | .matchesAll => { rules with matchesAll := true }
  | .starGlob glob => { rules with starGlobs := rules.starGlobs ++ [glob] }
  | .nonstarGlob glob => { rules with nonstarGlobs := rules.nonstarGlobs ++ [glob] }
  | .exact name => { rules with exact := rules.exact ++ [name] }
  | .escapedExact escaped =>
    { rules with escapedExact := rules.escapedExact ++ [names.unescapePattern escaped] }

def BasicMatchRules.matchesExact (rules : BasicMatchRules) (name : Bytes) (mangled : Bool) : Bool :=
  let name := if mangled then names.demangle name else name
  rules.exact.contains name || rules.escapedExact.contains name

def BasicMatchRules.matchesGlob (rules : BasicMatchRules) (name : Bytes) (nonStar mangled : Bool) :
    Bool :=
  let name := if mangled then names.demangle name else name
  (if nonStar then rules.nonstarGlobs else rules.starGlobs).any fun glob => glob name

def MatchRules.push (rules : MatchRules) : ParsedSymbolMatcher → MatchRules
  | .single matcher => { rules with general := rules.general.push names matcher }
  | .multiple matchers =>
    { rules with general := matchers.foldl (BasicMatchRules.push names) rules.general }
  | .cxxMatchers matchers =>
    { rules with cxx := matchers.foldl (BasicMatchRules.push names) rules.cxx }

/-- `VersionBody::from` -/
def VersionBody.ofRaw (body : RawVersionBody) : VersionBody where
  globals := body.globals.foldl (MatchRules.push names) {}
  locals := body.locals.foldl (MatchRules.push names) {}

/-- 1) of `find_match` -/
def VersionBody.exactRule (body : VersionBody) (name : Bytes) : Option VersionRuleSection :=
  if body.globals.general.matchesExact names name false then some .global
  else if body.locals.general.matchesExact names name false then some .local_
  else if body.globals.cxx.matchesExact names name true then some .global
  else if body.locals.cxx.matchesExact names name true then some .local_
  else none

/-- 2) of `find_match` -/
def VersionBody.globRule (body : VersionBody) (name : Bytes) (nonStar : Bool) :
    Option VersionRuleSection :=
  if body.globals.general.matchesGlob names name nonStar false
      || body.globals.cxx.matchesGlob names name nonStar true then some .global
  else if body.locals.general.matchesGlob names name nonStar false
      || body.locals.cxx.matchesGlob names name nonStar true then some .local_
  else none

/-- 3) of `find_match` -/
def VersionBody.allRule (body : VersionBody) : Option VersionRuleSection :=
  if body.globals.general.matchesAll || body.globals.cxx.matchesAll then some .global
  else if body.locals.general.matchesAll || body.locals.cxx.matchesAll then some .local_
  else none

/-- The first version with a rule. -/
def firstMatch (rule : VersionBody → Option VersionRuleSection)
    (versions : List (VersionBody × Nat)) : Option (Nat × VersionRuleSection) :=
  versions.findSome? fun version => (rule version.1).map fun r => (version.2, r)

/-- `RegularVersionScript::find_match`, over the bodies of the versions -/
def findMatch (versions : List VersionBody) (name : Bytes) : Option (Nat × VersionRuleSection) :=
  let indexed := versions.zipIdx
  (firstMatch (·.exactRule names name) indexed).or
    ((firstMatch (·.globRule names name true) indexed.reverse).or
      ((firstMatch (·.globRule names name false) indexed.reverse).or
        (firstMatch (·.allRule) indexed.reverse)))

/-- `RegularVersionScript::is_local` -/
def isLocal (versions : List VersionBody) (name : Bytes) : Bool :=
  (findMatch names versions name).any fun m => m.2 == .local_

end

namespace RawVersionBody

def rustLike (body : RawVersionBody) : Bool :=
  body.locals.any (fun matcher => match matcher with
    | .single .matchesAll => true
    | _ => false)
  && body.globals.all fun matcher => match matcher with
    | .single (.exact _) => true
    | _ => false

/-- The global names of a script that is `rustLike`. -/
def globalNames (body : RawVersionBody) : List Bytes :=
  body.globals.filterMap fun matcher => match matcher with
    | .single (.exact name) => some name
    | _ => none

end RawVersionBody

inductive VersionScript where
  | regular (versions : List VersionBody)
  | rust (global : List Bytes)

/-- `VersionScript::from` for a script with one anonymous version -/
def VersionScript.ofRaw (names : NameEnv) (body : RawVersionBody) : VersionScript :=
  if body.rustLike then .rust body.globalNames else .regular [.ofRaw names body]

/-! ## 2. What a script of this kind says of a name -/

section

variable (names : NameEnv)

/-- The rules for global names: only the listed ones. -/
theorem foldl_push_exact : ∀ (globals : List ParsedSymbolMatcher) (rules : MatchRules),
    (globals.all fun matcher => match matcher with
      | .single (.exact _) => true
      | _ => false) = true →
    globals.foldl (MatchRules.push names) rules
      = { rules with general := { rules.general with
            exact := rules.general.exact ++ (RawVersionBody.globalNames ⟨globals, []⟩) } }
  | [], rules, _ => by
    simp [RawVersionBody.globalNames]
  | matcher :: rest, rules, hall => by
    rw [all_cons, Bool.and_eq_true] at hall
    rw [foldl_cons, foldl_push_exact rest _ hall.2]
    match matcher, hall.1 with
    | .single (.exact name), _ =>
      simp [MatchRules.push, BasicMatchRules.push, RawVersionBody.globalNames]

theorem matchesAll_foldl_general : ∀ (matchers : List SymbolMatcher) (rules : BasicMatchRules),
    rules.matchesAll = true → (matchers.foldl (BasicMatchRules.push names) rules).matchesAll = true
  | [], _, h => h
  | matcher :: rest, rules, h => by
    refine matchesAll_foldl_general rest (rules.push names matcher) ?_
    cases matcher with
    | matchesAll => rfl
    | _ => exact h

theorem matchesAll_push (rules : MatchRules) (matcher : ParsedSymbolMatcher)
    (h : rules.general.matchesAll = true) : (rules.push names matcher).general.matchesAll = true := by
  cases matcher with
  | single matcher =>
    cases matcher with
    | matchesAll => rfl
    | _ => exact h
  | multiple matchers => exact matchesAll_foldl_general names matchers rules.general h
  | cxxMatchers matchers => exact h

/-- The rules for local names: one of them matches all. -/
theorem matchesAll_foldl : ∀ (matchers : List ParsedSymbolMatcher) (rules : MatchRules),
    rules.general.matchesAll = true ∨ (matchers.any fun matcher => match matcher with
      | .single .matchesAll => true
      | _ => false) = true →
    (matchers.foldl (MatchRules.push names) rules).general.matchesAll = true
  | [], _, h => h.resolve_right nofun
  | matcher :: rest, rules, h => by
    rw [foldl_cons]
    refine matchesAll_foldl rest (rules.push names matcher) ?_
    rcases h with h | h
    · exact .inl (matchesAll_push names rules matcher h)
    · rw [any_cons, Bool.or_eq_true] at h
      rcases h with h | h
      · left
        match matcher, h with
        | .single .matchesAll, _ => rfl
      · exact .inr h

theorem firstMatch_singleton (rule : VersionBody → Option VersionRuleSection) (body : VersionBody)
    (i : Nat) : firstMatch rule [(body, i)] = (rule body).map fun r => (i, r) := by
  rw [firstMatch, findSome?_singleton]

/-- No rule, or one that makes the name local. -/
def NotGlobal (rule : Option VersionRuleSection) : Prop := rule = none ∨ rule = some .local_

theorem NotGlobal.or {rule : Option VersionRuleSection} (h : NotGlobal rule)
    {rest : Option (Nat × VersionRuleSection)} (hrest : rest = some (0, .local_)) :
    (rule.map fun r => (0, r)).or rest = some (0, .local_) := by
  rcases h with rfl | rfl
  · exact hrest
  · rfl

/-- **A script of this kind makes every name local that it does not list.** -/
theorem isLocal_of_rustLike {body : RawVersionBody} (h : body.rustLike = true) (name : Bytes) :
    isLocal names [.ofRaw names body] name = !body.globalNames.contains name := by
  rw [RawVersionBody.rustLike, Bool.and_eq_true] at h
  have hglobals : (VersionBody.ofRaw names body).globals = { general := { exact := body.globalNames } } := by
    rw [VersionBody.ofRaw, foldl_push_exact names body.globals {} h.2]
    rfl
  have hall : (VersionBody.ofRaw names body).locals.general.matchesAll = true :=
    matchesAll_foldl names body.locals {} (.inr h.1)
  have hlist : (VersionBody.ofRaw names body).globals.general.matchesExact names name false
      = body.globalNames.contains name := by
    rw [hglobals]
    exact Bool.or_false _
  have hcxx : (VersionBody.ofRaw names body).globals.cxx.matchesExact names name true = false := by
    rw [hglobals]
    rfl
  have hglobs : ∀ nonStar,
      ((VersionBody.ofRaw names body).globals.general.matchesGlob names name nonStar false
        || (VersionBody.ofRaw names body).globals.cxx.matchesGlob names name nonStar true)
        = false := by
    intro nonStar
    rw [hglobals]
    cases nonStar with
    | false => rfl
    | true => rfl
  have hfind : findMatch names [.ofRaw names body] name
      = if body.globalNames.contains name then some (0, .global) else some (0, .local_) := by
    simp only [findMatch, zipIdx_singleton, reverse_singleton, firstMatch_singleton]
    cases hlisted : body.globalNames.contains name with
    | true =>
      rw [VersionBody.exactRule, hlist, hlisted]
      rfl
    | false =>
      -- no rule of the globals applies, and the last one of the locals does
      have hexact : NotGlobal ((VersionBody.ofRaw names body).exactRule names name) := by
        rw [VersionBody.exactRule, hlist, hlisted, hcxx, if_neg Bool.false_ne_true,
          if_neg Bool.false_ne_true]
        split
        · exact .inr rfl
        · split
          · exact .inr rfl
          · exact .inl rfl
      have hglob : ∀ nonStar,
          NotGlobal ((VersionBody.ofRaw names body).globRule names name nonStar) := by
        intro nonStar
        rw [VersionBody.globRule, hglobs nonStar, if_neg Bool.false_ne_true]
        split
        · exact .inr rfl
        · exact .inl rfl
      have hlast : (VersionBody.ofRaw names body).allRule = some .local_ := by
        rw [VersionBody.allRule, hglobals, hall]
        rfl
      rw [hlast]
      exact hexact.or ((hglob true).or ((hglob false).or rfl))
  rw [isLocal, hfind]
  cases body.globalNames.contains name with
  | true => rfl
  | false => rfl

end

/-! ## 3. Loading and resolving symbols -/

structure LoadedSymbol where
  name : Bytes
  /-- The flags without the version script. -/
  flags : ValueFlags
  /-- A definition with external linkage in an object that is not dynamic: only these are subject to
  the version script. -/
  isScripted : Bool
  isTls : Bool

/-- Symbols, and what happens to them between loading and `handle_rust_version_script`. -/
structure ScriptedLink where
  names : NameEnv
  table : SymbolTable Bytes Bytes
  hashes : Hashes Bytes Bytes
  numBuckets : Nat
  symbol : SymbolId → LoadedSymbol
  inputSymbolVisibility : SymbolId → Visibility
  /-- What `resolve_symbol` adds for references that are not of default visibility. -/
  references : List (SymbolId × FlagUpdate)
  /-- `--wrap` -/
  symbolNamesToWrap : List Bytes

def Visibility.max : Visibility → Visibility → Visibility
  | .hidden, _ | _, .hidden => .hidden
  | .protected_, _ | _, .protected_ => .protected_
  | .default_, .default_ => .default_

def FlagUpdate.apply (flags : ValueFlags) : FlagUpdate → ValueFlags
  | .downgrade => { flags with nonInterposable := true, downgradeToLocal := true }
  | .nonInterposable => { flags with nonInterposable := true }

/-- `handle_non_default_visibility` -/
def handleNonDefaultVisibility (isDynamic : SymbolId → Bool) (visibility : Visibility)
    (id : SymbolId) : List (SymbolId × FlagUpdate) :=
  if isDynamic id then []
  else
    match visibility with
    | .hidden => [(id, .downgrade)]
    | .protected_ => [(id, .nonInterposable)]
    | .default_ => []

/-- The part of `apply_wrapped_symbol_overrides` for one name -/
def wrapName (get : Bytes → Option SymbolId) (name : Bytes) : Bytes → Option SymbolId :=
  let wrapName := [95, 95, 119, 114, 97, 112, 95] ++ name
  let realName := [95, 95, 114, 101, 97, 108, 95] ++ name
  let overridden :=
    match get wrapName with
    | some wrapId => Function.update get name (some wrapId)
    | none => get
  match get name with
  | some origId => Function.update overridden realName (some origId)
  | none => overridden

namespace ScriptedLink

variable (link : ScriptedLink)

/-- The flags that `load_symbols` leaves. -/
def loadFlags (script : VersionScript) (sym : LoadedSymbol) : ValueFlags :=
  if sym.isScripted then
    match script with
    | .rust _ => { sym.flags with downgradeToLocal := true }
    | .regular versions =>
      if isLocal link.names versions sym.name then
        { sym.flags with
          downgradeToLocal := true
          nonInterposable := sym.flags.nonInterposable || !sym.isTls }
      else sym.flags
  else sym.flags

/-- What `process_alternatives` adds to the flags for one entry. -/
def alternativeUpdates (entry : SymbolId × List SymbolId) : List (SymbolId × FlagUpdate) :=
  let visibility := entry.2.foldl (fun vis id => vis.max (link.inputSymbolVisibility id))
    (link.inputSymbolVisibility entry.1)
  (entry.1 :: entry.2).flatMap (handleNonDefaultVisibility link.table.env.isDynamic visibility)

/-- All that is added to the flags, whatever the script.  Flags are only added, so the order does not
matter. -/
def updates : List (SymbolId × FlagUpdate) :=
  link.references ++ ((bucketEntries link.table.unversioned (fun _ => 0) 1 0).alternatives
    ++ (bucketEntries link.table.versioned (fun _ => 0) 1 0).alternatives).flatMap
      link.alternativeUpdates

/-- The flags of a symbol after all updates. -/
def updated (c : SymbolId) (flags : ValueFlags) : ValueFlags :=
  link.updates.foldl (fun f u => if u.1 = c then u.2.apply f else f) flags

/-- `SymbolDb::get_unversioned` -/
def getUnversioned (name : Bytes) : Option SymbolId :=
  link.symbolNamesToWrap.foldl wrapName
    (fun name => (link.table.bucket link.hashes link.numBuckets
      (link.hashes.hash name % link.numBuckets)).names.get name) name

/-- The symbols that are made global again. -/
def exported (global : List Bytes) (final : SymbolId → SymbolId) : List SymbolId :=
  global.filterMap fun name => (link.getUnversioned name).map (definition final)

/-- `handle_rust_version_script` -/
def handleRustVersionScript (global : List Bytes) (final : SymbolId → SymbolId)
    (flags : SymbolId → ValueFlags) : SymbolId → ValueFlags :=
  let removed := (link.exported global final).foldl
    (fun flags id => Function.update flags id { flags id with downgradeToLocal := false }) flags
  fun c =>
    if (removed c).downgradeToLocal then { removed c with nonInterposable := true } else removed c

/-- The flags after the version script was handled. -/
def scriptFlags (script : VersionScript) (final : SymbolId → SymbolId) : SymbolId → ValueFlags :=
  let flags := fun c => link.updated c (link.loadFlags script (link.symbol c))
  match script with
  | .rust global => link.handleRustVersionScript global final flags
  | .regular _ => flags

/-! ## 4. Where both handlings agree -/

/-- The symbol is local, or made local because of a visibility. -/
def isHidden (c : SymbolId) : Bool :=
  (link.symbol c).flags.downgradeToLocal || link.updates.any fun u => u.1 = c && u.2 = .downgrade

/-- The symbol cannot be overridden, whatever the script. -/
def isFinal (c : SymbolId) : Bool :=
  (link.symbol c).flags.nonInterposable || link.updates.any fun u => u.1 = c

/-- The script with these global names has the same effect on a symbol both ways. -/
structure AgreesAt (global : List Bytes) (final : SymbolId → SymbolId) (c : SymbolId) : Prop where
  /-- What is hidden is not found by a listed name. -/
  hidden : link.isHidden c = true → (link.exported global final).contains c = false
  /-- What is not hidden is found if it is listed, and by no other name. -/
  listed : (link.symbol c).isScripted = true → link.isHidden c = false →
    (link.exported global final).contains c = global.contains (link.symbol c).name
  /-- What becomes local is not a thread-local, or cannot be overridden anyway. -/
  notTls : link.isFinal c = false →
    ((link.symbol c).isScripted && !global.contains (link.symbol c).name || link.isHidden c)
      = true →
    (link.symbol c).isScripted = true ∧ global.contains (link.symbol c).name = false ∧
      (link.symbol c).isTls = false

theorem foldl_apply (c : SymbolId) : ∀ (updates : List (SymbolId × FlagUpdate)) (flags : ValueFlags),
    updates.foldl (fun f u => if u.1 = c then u.2.apply f else f) flags
      = { flags with
          downgradeToLocal :=
            flags.downgradeToLocal || updates.any fun u => u.1 = c && u.2 = .downgrade
          nonInterposable := flags.nonInterposable || updates.any fun u => u.1 = c }
  | [], flags => by
    simp
  | u :: rest, flags => by
    rw [foldl_cons, foldl_apply c rest]
    by_cases hc : u.1 = c
    · rw [if_pos hc]
      cases hu : u.2 with
      | downgrade => simp [FlagUpdate.apply, hc, hu]
      | nonInterposable => simp [FlagUpdate.apply, hc, hu]
    · simp [hc]

/-- What is made global again. -/
theorem foldl_remove (c : SymbolId) : ∀ (ids : List SymbolId) (flags : SymbolId → ValueFlags),
    ids.foldl (fun flags id =>
        Function.update flags id { flags id with downgradeToLocal := false }) flags c
      = { flags c with downgradeToLocal := (flags c).downgradeToLocal && !ids.contains c }
  | [], flags => by
    simp
  | id :: rest, flags => by
    rw [foldl_cons, foldl_remove c rest]
    by_cases hc : c = id
    · subst hc
      simp
    · simp [hc]

theorem scriptFlags_regular (body : RawVersionBody) (h : body.rustLike = true)
    (final : SymbolId → SymbolId) (c : SymbolId) :
    link.scriptFlags (.regular [.ofRaw link.names body]) final c
      = { (link.symbol c).flags with
          downgradeToLocal := link.isHidden c
            || ((link.symbol c).isScripted && !body.globalNames.contains (link.symbol c).name)
          nonInterposable := link.isFinal c
            || ((link.symbol c).isScripted && !body.globalNames.contains (link.symbol c).name
              && !(link.symbol c).isTls) } := by
  rw [scriptFlags]
  simp only [updated, foldl_apply, loadFlags, isLocal_of_rustLike link.names h, isHidden, isFinal]
  cases (link.symbol c).isScripted with
  | false => simp
  | true =>
    cases body.globalNames.contains (link.symbol c).name with
    | true => simp
    | false => simp [Bool.or_right_comm]

theorem scriptFlags_rust (global : List Bytes) (final : SymbolId → SymbolId) (c : SymbolId) :
    link.scriptFlags (.rust global) final c
      = { (link.symbol c).flags with
          downgradeToLocal := (link.isHidden c || (link.symbol c).isScripted)
            && !(link.exported global final).contains c
          nonInterposable := link.isFinal c
            || ((link.isHidden c || (link.symbol c).isScripted)
              && !(link.exported global final).contains c) } := by
  rw [scriptFlags]
  simp only [handleRustVersionScript, foldl_remove, updated, foldl_apply, loadFlags, isHidden,
    isFinal]
  -- only whether the symbol is still local decides what is added
  generalize (link.updates.any fun u => u.1 = c && u.2 = .downgrade) = down
  cases (link.exported global final).contains c with
  | true => cases (link.symbol c).isScripted <;> simp
  | false =>
    cases (link.symbol c).isScripted with
    | true => simp
    | false => cases hlocal : (link.symbol c).flags.downgradeToLocal <;> cases down <;> simp [hlocal]

/-- The condition, on truth values. -/
theorem agrees_bool : ∀ hidden scripted exported listed final tls : Bool,
    (((hidden || scripted) && !exported) = (hidden || (scripted && !listed)) ∧
      (final || ((hidden || scripted) && !exported)) = (final || (scripted && !listed && !tls))) ↔
    (hidden = true → exported = false) ∧
    (scripted = true → hidden = false → exported = listed) ∧
    (final = false → (scripted && !listed || hidden) = true →
      scripted = true ∧ listed = false ∧ tls = false) := by
  decide

/-- **A script of this kind has the same effect both ways on every canonical definition, if and only
if it has on each.** -/
theorem rust_agrees_iff {body : RawVersionBody} (h : body.rustLike = true)
    (final : SymbolId → SymbolId) :
    (∀ c, final c = c → link.scriptFlags (.ofRaw link.names body) final c
        = link.scriptFlags (.regular [.ofRaw link.names body]) final c) ↔
      ∀ c, final c = c → link.AgreesAt body.globalNames final c := by
  have hscript : VersionScript.ofRaw link.names body = .rust body.globalNames := if_pos h
  rw [hscript]
  refine forall_congr' fun c => forall_congr' fun _ => ?_
  rw [scriptFlags_rust, scriptFlags_regular link body h]
  have hbool := agrees_bool (link.isHidden c) (link.symbol c).isScripted
    ((link.exported body.globalNames final).contains c)
    (body.globalNames.contains (link.symbol c).name) (link.isFinal c) (link.symbol c).isTls
  constructor
  · intro heq
    have hdown := congrArg ValueFlags.downgradeToLocal heq
    have hnon := congrArg ValueFlags.nonInterposable heq
    obtain ⟨hhidden, hlisted, htls⟩ := hbool.mp ⟨hdown, hnon⟩
    exact ⟨hhidden, hlisted, htls⟩
  · intro hagrees
    obtain ⟨hdown, hnon⟩ := hbool.mpr ⟨hagrees.hidden, hagrees.listed, hagrees.notTls⟩
    rw [hnon, hdown]

end ScriptedLink

/-- `{ global: f; local: *; };` -/
def exportsF : RawVersionBody := ⟨[.single (.exact [102])], [.single .matchesAll]⟩

/-- A library with a function `f`, and another symbol `g` that may be a thread-local. -/
def twoDefinitions (isTls : Bool) : ScriptedLink where
  names := ⟨id, id⟩
  table :=
    { definitions := [⟨1, [102], none, true⟩, ⟨2, [103], none, true⟩]
      nodup := by decide
      initial := id
      initial_self := fun _ _ => rfl
      env :=
        { isDynamic := fun _ => false
          symbolStrength := fun _ => .strong
          isInComdatGroup := fun _ => false
          allowDuplicateDefinition := fun _ _ => false
          allowMultipleDefinitions := false } }
  hashes := ⟨List.length, fun _ => 0⟩
  numBuckets := 1
  symbol := fun id =>
    if id = 1 then ⟨[102], {}, true, false⟩
    else if id = 2 then ⟨[103], {}, true, isTls⟩
    else ⟨[], {}, false, false⟩
  inputSymbolVisibility := fun _ => .default_
  references := []
  symbolNamesToWrap := []

theorem updates_twoDefinitions (isTls : Bool) : (twoDefinitions isTls).updates = [] := by
  cases isTls with
  | false => decide
  | true => decide

theorem exported_twoDefinitions (isTls : Bool) :
    (twoDefinitions isTls).exported exportsF.globalNames id = [1] := by
  cases isTls with
  | false => decide
  | true => decide

/-- With functions only, both handlings agree. -/
theorem functions_agree :
    exportsF.rustLike = true ∧ ∀ c, (twoDefinitions false).scriptFlags (.ofRaw ⟨id, id⟩ exportsF) id c
      = (twoDefinitions false).scriptFlags (.regular [.ofRaw ⟨id, id⟩ exportsF]) id c := by
  have hagrees : ∀ c, (twoDefinitions false).AgreesAt exportsF.globalNames id c := by
    intro c
    have hexported := exported_twoDefinitions false
    have hhidden : (twoDefinitions false).isHidden c = false := by
      rw [ScriptedLink.isHidden, updates_twoDefinitions]
      simp only [twoDefinitions]
      split
      · rfl
      · split
        · rfl
        · rfl
    refine ⟨fun h => ?_, fun hscripted _ => ?_, fun _ hlocal => ?_⟩
    · rw [hhidden] at h
      contradiction
    · rw [hexported]
      by_cases h1 : c = 1
      · subst h1
        decide
      · by_cases h2 : c = 2
        · subst h2
          decide
        · simp [twoDefinitions, h1, h2] at hscripted
    · rw [hhidden, Bool.or_false, Bool.and_eq_true, Bool.not_eq_true'] at hlocal
      refine ⟨hlocal.1, hlocal.2, ?_⟩
      simp only [twoDefinitions]
      split
      · rfl
      · split
        · rfl
        · rfl
  exact ⟨by decide, fun c => (ScriptedLink.rust_agrees_iff (twoDefinitions false) (by decide) id).mpr
    (fun c _ => hagrees c) c rfl⟩

/-- A thread-local that is not listed becomes local both ways, but only the short cut says that it
cannot be overridden. -/
theorem local_tls_differs :
    exportsF.rustLike = true ∧
    ((twoDefinitions true).scriptFlags (.ofRaw ⟨id, id⟩ exportsF) id 2).nonInterposable = true ∧
    ((twoDefinitions true).scriptFlags (.regular [.ofRaw ⟨id, id⟩ exportsF]) id 2).nonInterposable
      = false := by
  refine ⟨by decide, ?_, ?_⟩
  · decide
  · decide

end Srs.Resolution
