/-
# Version scripts and export lists

Both are read by byte searches: `parseMatcher` takes everything up to a `;` or a `}` as one
pattern, or a block of patterns after `extern`.  `parseVersionScript` reads whole scripts and
`ExportList.parse` the lists of exported symbols, in braces or line by line.

The loops have no bound of their own, so the readers are given turns; `unfinished` means that there
were too few.  What loops forever needs more than any number.  `watch` is a set of places at which
the loop over an `extern` block is stopped; the readers of the program stop at none (`never`).

The bytes of a script are modelled as characters.  `Pattern::new` of the glob library is a parameter
(`newPattern`).
-/
import Srs.Resolution.VersionScripts
import Srs.Script.Tokens

namespace Srs.Script.VersionScripts

open Script Precedence
open Srs.Resolution (SymbolMatcher ParsedSymbolMatcher RawVersionBody VersionRuleSection)

/-! ## 1. Patterns -/

inductive GlobPatternType where
  | exact
  | escapedExact
  | star
  | nonStar
  deriving DecidableEq

/-- The loop of `analyze_glob_pattern`. -/
def analyzeLoop : GlobPatternType → Text → GlobPatternType
  | patternType, [] => patternType
  | patternType, '\\' :: rest =>
    let patternType := if patternType = .exact then .escapedExact else patternType
    match rest with
    | [] => patternType
    | _ :: rest => analyzeLoop patternType rest
  | _, '*' :: _ => .star
  | patternType, c :: rest =>
    analyzeLoop (if c = '[' ∨ c = ']' ∨ c = '?' then .nonStar else patternType) rest

/-- `analyze_glob_pattern`, whose fast path is a case of the loop. -/
def analyzeGlobPattern (pattern : Text) : GlobPatternType := analyzeLoop .exact pattern

inductive VersionScriptError where
  | unknownParentVersion
  | invalidUtf8String
  | invalidGlobPattern
  | unexpectedExtern (language : Text)
  | unsupportedExtern (language : Text)
  deriving DecidableEq

/-- Why there is nothing to return. -/
inductive Failure where
  /-- A parser of the library does not match. -/
  | mismatch
  | invalid (error : VersionScriptError)
  /-- The loop over an `extern` block is at a place that is watched. -/
  | stopped
  /-- There are no turns left. -/
  | unfinished
  deriving DecidableEq

/-- A parser of the library, which consumes nothing when it does not match. -/
def expect {α : Type} : Option α → Except Failure α
  | none => .error .mismatch
  | some a => .ok a

@[simp] theorem expect_some {α : Type} (a : α) : expect (some a) = .ok a := rfl

@[simp] theorem expect_none {α : Type} : expect (none : Option α) = .error .mismatch := rfl

/-- The bytes of a script. -/
def bytes (t : Text) : Bytes := t.map fun c => UInt8.ofNat c.toNat

/-- `u8::is_ascii_whitespace` -/
def isAsciiWhitespace (c : Char) : Bool :=
  c = ' ' || c = '\t' || c = '\n' || c = '\x0C' || c = '\r'

def trimAsciiStart (t : Text) : Text := t.dropWhile isAsciiWhitespace

def trimAsciiEnd (t : Text) : Text := (t.reverse.dropWhile isAsciiWhitespace).reverse

/-- `replace("[^", "[!")` -/
def replaceNegation : Text → Text
  | '[' :: '^' :: rest => '[' :: '!' :: replaceNegation rest
  | c :: rest => c :: replaceNegation rest
  | [] => []

/-- What stands between quotes. -/
def unquote (t : Text) : Option Text :=
  match t with
  | '"' :: rest => if rest.getLast? = some '"' then some rest.dropLast else none
  | _ => none

section

variable (w : Scanners) (newPattern : Text → Option Resolution.Pattern)

/-- `compile_glob_pattern` -/
def compileGlobPattern (token : Text) : Except VersionScriptError Resolution.Pattern :=
  match Bytes.fromUtf8 (bytes token) with
  | none => .error .invalidUtf8String
  | some pattern =>
    match newPattern (replaceNegation pattern) with
    | none => .error .invalidGlobPattern
    | some pattern => .ok pattern

/-- The matcher for a token. -/
def classify (token : Text) : Except Failure SymbolMatcher :=
  match unquote token with
  | some unquoted => .ok (.exact (bytes unquoted))
  | none =>
    if token = ['*'] then .ok .matchesAll
    else
      match analyzeGlobPattern token with
      | .exact => .ok (.exact (bytes token))
      | .escapedExact => .ok (.escapedExact (bytes token))
      | .star => ((compileGlobPattern newPattern token).map .starGlob).mapError .invalid
      | .nonStar => ((compileGlobPattern newPattern token).map .nonstarGlob).mapError .invalid

/-- The token of a single pattern, and what is left.  Without a `}` ahead, a pattern that needs no
semicolon is all of the input, and none of it is consumed. -/
def takePattern (withoutSemicolon : Bool) (input : Text) : Option (Text × Text) :=
  if withoutSemicolon then
    if input.contains '\x7d' then w.takeUntil 1 ['\x7d'] input else some (input, input)
  else w.takeUntil 1 [';'] input

/-- `parse_matcher`, for anything but an `extern` block -/
def parseSingle (withoutSemicolon : Bool) (input : Text) :
    Except Failure (ParsedSymbolMatcher × Text) := do
  let (token, input) ← expect (takePattern w withoutSemicolon input)
  let input ← expect (skipCommentsAndWhitespace w input)
  let input := (literal [';'] input).getD input
  let matcher ← classify newPattern (trimAsciiEnd token)
  .ok (.single matcher, input)

/-- The language of an `extern` block: whether it is C++.  Any other is an error, of the library's
parser where no brace follows at once. -/
def externLanguage (input : Text) : Except Failure (Bool × Text) :=
  match literal "\"C++\"".toList input with
  | some input => .ok (true, input)
  | none =>
    match literal "\"C\"".toList input with
    | some input => .ok (false, input)
    | none =>
      match literal ['\x7b'] input with
      | some _ => .error (.invalid (.unsupportedExtern ['\x7b']))
      | none => .error .mismatch

/-- Symbols at the end of `extern` blocks may omit semicolons. -/
def expectSemicolon (withoutSemicolon : Bool) (remaining : Text) : Bool :=
  match findLiteral "\x7d;".toList remaining with
  | some (beforeClose, _) => beforeClose.contains ';'
  | none => withoutSemicolon

/-! ## 2. The readers -/

/-- The places at which the loop over an `extern` block is stopped. -/
abbrev Watch := Bool → Text → Bool

/-- The loop of the program stops at no place. -/
def never : Watch := fun _ _ => false

variable (watch : Watch)

mutual

def parseMatcher : Nat → Bool → Text → Except Failure (ParsedSymbolMatcher × Text)
  | 0, _, _ => .error .unfinished
  | turns + 1, withoutSemicolon, input =>
    match literal "extern ".toList input with
    | none => parseSingle w newPattern withoutSemicolon input
    | some input => do
      let (cxx, input) ← externLanguage input
      let input ← expect (skipCommentsAndWhitespace w input)
      let input ← expect (literal ['\x7b'] input)
      let (matchers, input) ← externLoop turns withoutSemicolon input
      .ok (if cxx then .cxxMatchers matchers else .multiple matchers, input)

/-- The loop over an `extern` block. -/
def externLoop : Nat → Bool → Text → Except Failure (List SymbolMatcher × Text)
  | 0, _, _ => .error .unfinished
  | turns + 1, withoutSemicolon, input => do
    let input ← expect (skipCommentsAndWhitespace w input)
    match literal "\x7d;".toList input with
    | some input => do
      let input ← expect (skipCommentsAndWhitespace w input)
      .ok ([], input)
    | none =>
      if watch withoutSemicolon input then .error .stopped
      else do
        let (matcher, input) ←
          parseMatcher turns (! expectSemicolon withoutSemicolon input) input
        match matcher with
        | .single matcher => do
          let (matchers, input) ← externLoop turns withoutSemicolon input
          .ok (matcher :: matchers, input)
        | .cxxMatchers _ => .error (.invalid (.unexpectedExtern "C++".toList))
        | .multiple _ => .error (.invalid (.unexpectedExtern ['C']))

end

/-- A matcher is added to the section it stands in. -/
def addMatcher (section_ : Option VersionRuleSection) (matcher : ParsedSymbolMatcher)
    (out : RawVersionBody) : RawVersionBody :=
  match section_ with
  | some .global | none => { out with globals := out.globals ++ [matcher] }
  | some .local_ => { out with locals := out.locals ++ [matcher] }

/-- The loop of `parse_version_section`. -/
def sectionLoop : Nat → Option VersionRuleSection → RawVersionBody → Text →
    Except Failure (RawVersionBody × Text)
  | 0, _, _, _ => .error .unfinished
  | turns + 1, section_, out, input => do
    let input ← expect (skipCommentsAndWhitespace w input)
    match literal ['\x7d'] input with
    | some input => do
      let input ← expect (skipCommentsAndWhitespace w input)
      .ok (out, input)
    | none =>
      match literal "global:".toList input with
      | some input => sectionLoop turns (some .global) out input
      | none =>
        match literal "local:".toList input with
        | some input => sectionLoop turns (some .local_) out input
        | none => do
          let (matcher, input) ← parseMatcher w newPattern watch turns false input
          sectionLoop turns section_ (addMatcher section_ matcher out) input

def parseVersionSection (turns : Nat) (input : Text) : Except Failure (RawVersionBody × Text) := do
  let input ← expect (literal ['\x7b'] input)
  sectionLoop w newPattern watch turns none ⟨[], []⟩ input

structure Version where
  name : Bytes
  parentIndex : Option UInt16
  versionBody : RawVersionBody

/-- `parse_token` of a version script, which takes a `;` into a name. -/
def isVersionNameChar (c : Char) : Bool := ! " ()\x7b\x7d\n\t".toList.contains c

/-- The index of the parent among the versions so far. -/
def parentIndexOf (versionNames : List Bytes) (parentName : Bytes) :
    Except Failure (Option UInt16) :=
  if parentName = [] then .ok none
  else
    match versionNames.findIdx? (· = parentName) with
    | some index => .ok (some (UInt16.ofNat index))
    | none => .error (.invalid .unknownParentVersion)

/-- The loop over named versions. -/
def versionsLoop : Nat → List Version → Text → Except Failure (List Version)
  | 0, _, _ => .error .unfinished
  | turns + 1, versions, input =>
    if input = [] then .ok versions
    else do
      let (name, input) ← expect (w.takeWhile1 isVersionNameChar input)
      let input ← expect (skipCommentsAndWhitespace w input)
      let (versionBody, input) ← parseVersionSection w newPattern watch turns input
      let (parentName, input) ← expect (w.takeUntil 0 [';'] input)
      let parentIndex ← parentIndexOf (versions.map Version.name) (bytes parentName)
      let input ← expect (literal [';'] input)
      let input ← expect (skipCommentsAndWhitespace w input)
      versionsLoop turns (versions ++ [⟨bytes name, parentIndex, versionBody⟩]) input

/-- A script with one anonymous version, or with named ones after the base version. -/
inductive VersionScript where
  | anonymous (body : RawVersionBody)
  | named (versions : List Version)

/-- The version in front of all named ones. -/
def baseVersion : Version := ⟨[], none, ⟨[], []⟩⟩

/-- Nothing may be left. -/
def atEnd {α : Type} : α × Text → Except Failure α
  | (a, []) => .ok a
  | _ => .error .mismatch

/-- `VersionScript::parse` -/
def parseVersionScript (turns : Nat) (input : Text) : Except Failure VersionScript := do
  let input ← expect (skipCommentsAndWhitespace w input)
  if startsWith ['\x7b'] input then do
    let (body, input) ← parseVersionSection w newPattern watch turns input
    let input ← expect (literal [';'] input)
    let input ← expect (skipCommentsAndWhitespace w input)
    let body ← atEnd (body, input)
    .ok (.anonymous body)
  else do
    let versions ← versionsLoop w newPattern watch turns [baseVersion] input
    .ok (.named versions)

/-- The loop of `parse_export_list`. -/
def exportLoop : Nat → List ParsedSymbolMatcher → Text →
    Except Failure (List ParsedSymbolMatcher × Text)
  | 0, _, _ => .error .unfinished
  | turns + 1, out, input => do
    let input ← expect (skipCommentsAndWhitespace w input)
    match literal "\x7d;".toList input with
    | some input => do
      let input ← expect (skipCommentsAndWhitespace w input)
      .ok (out, input)
    | none => do
      let (matcher, input) ← parseMatcher w newPattern watch turns false input
      exportLoop turns (out ++ [matcher]) input

def parseExportList (turns : Nat) (input : Text) : Except Failure (List ParsedSymbolMatcher) := do
  let input ← expect (skipCommentsAndWhitespace w input)
  let input ← expect (literal ['\x7b'] input)
  let found ← exportLoop w newPattern watch turns [] input
  atEnd found

/-- `parse_line_export_list`: one pattern a line, whatever is left of the line after it. -/
def parseLineExportList (turns : Nat) : List Text → Except Failure (List ParsedSymbolMatcher)
  | [] => .ok []
  | line :: lines =>
    let line := trimAsciiEnd (trimAsciiStart line)
    if line = [] ∨ startsWith ['#'] line = true then parseLineExportList turns lines
    else do
      let (matcher, _) ← parseMatcher w newPattern watch turns true line
      let matchers ← parseLineExportList turns lines
      .ok (matcher :: matchers)

/-- `ExportList::parse` -/
def ExportList.parse (turns : Nat) (data : Text) : Except Failure (List ParsedSymbolMatcher) :=
  if startsWith ['\x7b'] (trimAsciiStart data) then
    parseExportList w newPattern watch turns data
  else parseLineExportList w newPattern watch turns (Text.split '\n' data)

end

end Srs.Script.VersionScripts
