/-
# Tokens of a script

What the readers of linker scripts, version scripts and export lists share: the blanks and comments
between tokens (`skipCommentsAndWhitespace`) and a quoted or bare token (`parseToken`).

The parsers of the parser library that search for a literal join those of a character class as
parameters (`Scanners`), with their documented behaviour as hypotheses (`Scanners.Documented`).
-/
import Mathlib.Data.List.DropRight
import Srs.Script.RoundTrip

namespace Srs.Script

open Precedence List Option

/-! ## 1. Searching for a literal -/

/-- Everything in front of the first occurrence of a literal, and the literal with what follows. -/
def findLiteral (expected : Text) : Reader Char Text
  | [] => if expected = [] then some ([], []) else none
  | c :: rest =>
    if expected <+: c :: rest then some ([], c :: rest)
    else (findLiteral expected rest).map fun (before, after) => (c :: before, after)

/-- The parsers that the library provides ready-made, with those that search. -/
structure Scanners extends Winnow where
  /-- `take_until(count.., literal)` -/
  takeUntil : Nat → Text → Reader Char Text

/-- The documented behaviour of the library's parsers, as far as it is relied on. -/
structure Scanners.Documented (w : Scanners) : Prop extends w.toWinnow.Documented where
  takeWhile1_eq_none : ∀ {isMember t}, EndsAt isMember t → w.takeWhile1 isMember t = none
  /-- Up to the first occurrence, which must not come too early. -/
  takeUntil : ∀ count expected t, w.takeUntil count expected t =
    (findLiteral expected t).filter fun found => count ≤ found.1.length

section

variable (w : Scanners)

/-- `take_while(1.., class)` -/
theorem Scanners.Documented.takeWhile1_eq {w : Scanners} (hw : w.Documented)
    (isMember : Char → Bool) (t : Text) : w.takeWhile1 isMember t =
      if t.takeWhile isMember = [] then none
      else some (t.takeWhile isMember, t.dropWhile isMember) := by
  have hends : EndsAt isMember (t.dropWhile isMember) := by
    intro c hc
    have hnot := head?_dropWhile_not isMember t
    rw [mem_def.mp hc] at hnot
    exact hnot
  split
  case isTrue hnil =>
    have hall : t.dropWhile isMember = t := by
      rw [takeWhile_eq_nil_iff] at hnil
      cases t with
      | nil => rfl
      | cons c t => rw [dropWhile_cons_of_neg (by simpa using hnil)]
    exact hw.takeWhile1_eq_none (hall ▸ hends)
  case isFalse hne =>
    have hread := hw.takeWhile1 hne
      (fun c hc => mem_takeWhile_imp hc) hends
    rwa [takeWhile_append_dropWhile] at hread

/-! ## 2. Blanks, comments and tokens -/

/-- `starts_with` -/
def startsWith (expected input : Text) : Bool := (literal expected input).isSome

/-- The loop of `skip_comments_and_whitespace`, for at most so many turns. -/
def skipLoop : Nat → Text → Option Text
  | 0, _ => none
  | turns + 1, input =>
    let input := w.multispace0 input
    if startsWith ['#'] input then do
      let (_, input) ← w.takeUntil 1 ['\n'] input
      skipLoop turns input
    else if startsWith "/*".toList input then do
      let (_, input) ← w.takeUntil 1 "*/".toList input
      let input ← literal "*/".toList input
      skipLoop turns input
    else some input

/-- `skip_comments_and_whitespace`: every turn of the loop but the last consumes a character. -/
def skipCommentsAndWhitespace (input : Text) : Option Text := skipLoop w (input.length + 1) input

/-- What a bare token is made of: anything but the bytes of `" (){};\n\t"`. -/
def isTokenChar (c : Char) : Bool := ! " ()\x7b\x7d;\n\t".toList.contains c

/-- `parse_token` -/
def parseToken : Reader Char Text := fun input =>
  if startsWith ['"'] input then do
    let input ← literal ['"'] input
    let (content, input) ← w.takeUntil 0 ['"'] input
    let input ← literal ['"'] input
    some (content, input)
  else w.takeWhile1 isTokenChar input

/-! ## 3. What they consume -/

variable {expected input : Text}

variable {rest : Text}

theorem literal_eq_some_iff :
    literal expected input = some rest ↔ input = expected ++ rest := by
  unfold literal
  split
  case isTrue h =>
    obtain ⟨tail, rfl⟩ := h
    simp
  case isFalse h =>
    simp only [reduceCtorEq, false_iff]
    rintro rfl
    exact h (prefix_append _ _)

theorem append_of_findLiteral : ∀ {input before after : Text},
    findLiteral expected input = some (before, after) → before ++ after = input
  | [], before, after, h => by
    unfold findLiteral at h
    split at h <;> simp_all
  | c :: rest, before, after, h => by
    unfold findLiteral at h
    split at h
    · simp_all
    · obtain ⟨⟨before, after⟩, hfound, heq⟩ := map_eq_some_iff.mp h
      cases heq
      simpa using append_of_findLiteral hfound

/-- Where a literal is found, it stands. -/
theorem prefix_of_findLiteral : ∀ {input before after : Text},
    findLiteral expected input = some (before, after) → expected <+: after
  | [], before, after, h => by
    unfold findLiteral at h
    split at h <;> simp_all
  | c :: rest, before, after, h => by
    unfold findLiteral at h
    split at h
    case isTrue hprefix =>
      cases h
      exact hprefix
    case isFalse =>
      obtain ⟨⟨before, after⟩, hfound, heq⟩ := map_eq_some_iff.mp h
      cases heq
      exact prefix_of_findLiteral hfound

variable {w}

theorem Scanners.Documented.takeUntil_some (hw : w.Documented) {count : Nat}
    {before after : Text}
    (h : w.takeUntil count expected input = some (before, after)) :
    before ++ after = input ∧ count ≤ before.length := by
  rw [hw.takeUntil, filter_eq_some_iff] at h
  exact ⟨append_of_findLiteral h.1, by simpa using h.2⟩

theorem length_dropWhile_le (p : Char → Bool) (t : Text) : (t.dropWhile p).length ≤ t.length :=
  (dropWhile_suffix p).length_le

/-- Neither a blank nor a comment comes next. -/
structure AtToken (t : Text) : Prop where
  noBlank : t.dropWhile isMultispace = t
  noLineComment : startsWith ['#'] t = false
  noComment : startsWith "/*".toList t = false

theorem skipLoop_some (hw : w.Documented) : ∀ {turns : Nat} {input rest : Text},
    skipLoop w turns input = some rest → rest.length ≤ input.length ∧ AtToken rest
  | 0, _, _, h => absurd h (by simp [skipLoop])
  | turns + 1, input, rest, h => by
    have hskip : (w.multispace0 input).length ≤ input.length := by
      rw [hw.multispace0]
      exact length_dropWhile_le _ _
    simp only [skipLoop] at h
    split at h
    case isTrue =>
      obtain ⟨⟨comment, after⟩, hcomment, h⟩ := bind_eq_some_iff.mp h
      have hlength := congrArg List.length (hw.takeUntil_some hcomment).1
      rw [length_append] at hlength
      obtain ⟨hle, htoken⟩ := skipLoop_some hw h
      simp only at hle
      exact ⟨by omega, htoken⟩
    case isFalse hline =>
      split at h
      case isTrue =>
        obtain ⟨⟨comment, after⟩, hcomment, h⟩ := bind_eq_some_iff.mp h
        obtain ⟨close, hclose, h⟩ := bind_eq_some_iff.mp h
        simp only at hclose
        have hlength := congrArg List.length (hw.takeUntil_some hcomment).1
        have hrest := congrArg List.length (literal_eq_some_iff.mp hclose)
        rw [length_append] at hlength hrest
        obtain ⟨hle, htoken⟩ := skipLoop_some hw h
        exact ⟨by omega, htoken⟩
      case isFalse hcomment =>
        cases h
        refine ⟨hskip, ?_, by simpa using hline, by simpa using hcomment⟩
        rw [hw.multispace0, dropWhile_idempotent]

theorem skip_some (hw : w.Documented)
    (h : skipCommentsAndWhitespace w input = some rest) :
    rest.length ≤ input.length ∧ AtToken rest := skipLoop_some hw h

/-- At a token there is nothing to skip. -/
theorem skip_of_atToken (hw : w.Documented) {t : Text} (h : AtToken t) :
    skipCommentsAndWhitespace w t = some t := by
  have hblank : w.multispace0 t = t := by rw [hw.multispace0, h.noBlank]
  simp only [skipCommentsAndWhitespace, skipLoop, hblank, h.noLineComment, h.noComment,
    Bool.false_eq_true, if_false]

end

/-! ## 4. The library's parsers -/

/-- Parsers that behave as documented. -/
def scanners : Scanners where
  toWinnow := winnow
  takeUntil count expected t := (findLiteral expected t).filter fun found => count ≤ found.1.length

theorem scanners_documented : scanners.Documented where
  toDocumented := winnow_documented
  takeWhile1_eq_none {isMember t} h := by
    cases t with
    | nil => rfl
    | cons c t => simp [scanners, winnow, h c rfl]
  takeUntil _ _ _ := rfl

end Srs.Script
