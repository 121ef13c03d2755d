/-
# Where reading a version script does not end

Every loop of the readers consumes a character in each turn, but for one place: in an `extern` block
with no `}` ahead, `parseMatcher` is called for a pattern that needs no semicolon, takes the whole
rest of the input as the pattern and consumes nothing.  The loop over the block is then where it was
(`externLoop_of_stalls`), and adds the same pattern without end.

`stalls` is that place.  Readers that stop there need no more turns than twice the characters they
read (`parseMatcher_finishes`), so the readers of the program return if and only if they do not come
to it: `terminates_iff_not_stalls`.
-/
import Srs.Lib.Records
import Srs.Lib.Turns
import Srs.Script.VersionScripts

namespace Srs.Script.VersionScripts

open Script Precedence Turns List Option ExportList Below Nat Except
open Srs.Records (bind_ok_iff)
open Srs.Resolution (SymbolMatcher ParsedSymbolMatcher RawVersionBody VersionRuleSection)

/-! ## 1. The place -/

/-- In an `extern` block no `}` is ahead, and the rest of the input is neither another block nor
starts with a semicolon, and is accepted as a pattern. -/
def stalls (newPattern : Text → Option Resolution.Pattern) : Watch :=
  fun withoutSemicolon input =>
    ! withoutSemicolon && ! input.contains '\x7d' && ! startsWith "extern ".toList input
      && ! startsWith [';'] input && (classify newPattern (trimAsciiEnd input)).isOk

/-- The run has no result yet. -/
def IsCut (e : Failure) : Prop := e = .unfinished ∨ e = .stopped

section

variable {w : Scanners} {newPattern : Text → Option Resolution.Pattern}

variable {α : Type} {input : Text} {withoutSemicolon : Bool} {turns turns' : Nat}
  {expected rest : Text}

theorem expect_eq_ok {o : Option α} {a : α} : expect o = .ok a ↔ o = some a := by
  cases o <;> simp [expect]

theorem findLiteral_close_of_not_mem (h : '\x7d' ∉ input) :
    findLiteral "\x7d;".toList input = none := by
  cases hfound : findLiteral "\x7d;".toList input with
  | none => rfl
  | some found =>
    obtain ⟨before, after⟩ := found
    obtain ⟨tail, rfl⟩ := prefix_of_findLiteral hfound
    refine absurd ?_ h
    rw [← append_of_findLiteral hfound]
    simp

/-- At the place the pattern is the whole rest, and all of it is still there afterwards. -/
theorem parseSingle_of_stalls (hw : w.Documented)
    (htoken : AtToken input) (h : stalls newPattern withoutSemicolon input = true) :
    ∃ matcher, parseSingle w newPattern true input = .ok (.single matcher, input) := by
  simp only [stalls, Bool.and_eq_true, Bool.not_eq_true', startsWith] at h
  obtain ⟨⟨⟨⟨-, hclose⟩, -⟩, hsemicolon⟩, hclassify⟩ := h
  have hnone : literal [';'] input = none := by simpa using hsemicolon
  cases hmatcher : classify newPattern (trimAsciiEnd input) with
  | error e => simp [hmatcher, Except.isOk, Except.toBool] at hclassify
  | ok matcher =>
    refine ⟨matcher, ?_⟩
    have hpattern : takePattern w true input = some (input, input) := by
      simp only [takePattern, hclose, if_true, Bool.false_eq_true, if_false]
    simp only [parseSingle, hpattern, skip_of_atToken hw htoken, hnone, hmatcher, expect_some,
      bind_of_ok, getD_none]

/-- **At the place the loop goes on for ever.** -/
theorem externLoop_of_stalls (hw : w.Documented) (hend : literal "\x7d;".toList input = none)
    (h : stalls newPattern withoutSemicolon input = true) : ∀ (turns : Nat) {before : Text},
      skipCommentsAndWhitespace w before = some input →
        externLoop w newPattern never turns withoutSemicolon before = .error .unfinished
  | 0, _, _ => rfl
  | turns + 1, before, hskip => by
    have htoken := (skip_some hw hskip).2
    have hplace := h
    simp only [stalls, Bool.and_eq_true, Bool.not_eq_true', startsWith] at hplace
    obtain ⟨⟨⟨⟨hwithout, hclose⟩, hextern⟩, -⟩, -⟩ := hplace
    have hnone : literal "extern ".toList input = none := by simpa using hextern
    have hexpect : expectSemicolon withoutSemicolon input = false := by
      rw [expectSemicolon, findLiteral_close_of_not_mem (by simpa using hclose)]
      exact hwithout
    simp only [externLoop, hskip, hend, hexpect, expect_some, bind_of_ok, never, Bool.not_false,
      Bool.false_eq_true, if_false]
    cases turns with
    | zero => rfl
    | succ turns =>
      obtain ⟨matcher, hsingle⟩ := parseSingle_of_stalls hw htoken h
      have hmatcher : parseMatcher w newPattern never (turns + 1) true input
          = .ok (.single matcher, input) := by
        simp only [parseMatcher, hnone]
        exact hsingle
      simp only [hmatcher, bind_of_ok,
        externLoop_of_stalls hw hend h (turns + 1) (skip_of_atToken hw htoken), bind_of_error]

/-! ## 2. Comparing two readers -/

/-- Where the loop over a block is stopped by one watch and not by the other, this makes no
difference but for what is cut off. -/
structure Compatible (w : Scanners) (newPattern : Text → Option Resolution.Pattern)
    (cut : Failure → Prop) (watch watch' : Watch) : Prop where
  unfinished : cut .unfinished
  place : ∀ {withoutSemicolon input}, literal "\x7d;".toList input = none →
    watch withoutSemicolon input = watch' withoutSemicolon input ∨
    (watch withoutSemicolon input = true ∧ cut .stopped) ∨
    ∀ turns before, skipCommentsAndWhitespace w before = some input →
      externLoop w newPattern watch turns withoutSemicolon before = .error .unfinished

variable {cut : Failure → Prop} {watch watch' : Watch}

/-- What readers with fewer turns return, those with more return. -/
theorem matcher_below (h : Compatible w newPattern cut watch watch') :
    ∀ {turns turns' : Nat}, turns ≤ turns' →
      (∀ withoutSemicolon input, Below cut
        (parseMatcher w newPattern watch turns withoutSemicolon input)
        (parseMatcher w newPattern watch' turns' withoutSemicolon input)) ∧
      ∀ withoutSemicolon input, Below cut
        (externLoop w newPattern watch turns withoutSemicolon input)
        (externLoop w newPattern watch' turns' withoutSemicolon input)
  | 0, _, _ => ⟨fun _ _ => .of_cut h.unfinished _, fun _ _ => .of_cut h.unfinished _⟩
  | turns + 1, 0, hle => absurd hle (by omega)
  | turns + 1, turns' + 1, hle => by
    obtain ⟨hmatcher, hloop⟩ := matcher_below h (le_of_succ_le_succ hle)
    constructor
    · intro withoutSemicolon input
      simp only [parseMatcher]
      split
      · exact .refl _
      · refine (refl _).bind fun ⟨cxx, input⟩ _ => ?_
        refine (refl _).bind fun input _ => ?_
        refine (refl _).bind fun input _ => ?_
        exact (hloop withoutSemicolon input).bind fun _ _ => .refl _
    · intro withoutSemicolon before
      cases hskip : skipCommentsAndWhitespace w before with
      | none => simp only [externLoop, hskip, expect_none, bind_of_error]; exact .refl _
      | some input =>
        cases hend : literal "\x7d;".toList input with
        | some rest => simp only [externLoop, hskip, hend, expect_some, bind_of_ok]; exact .refl _
        | none =>
          have hsame : watch withoutSemicolon input = watch' withoutSemicolon input →
              Below cut (externLoop w newPattern watch (turns + 1) withoutSemicolon before)
                (externLoop w newPattern watch' (turns' + 1) withoutSemicolon before) := by
            intro heq
            simp only [externLoop, hskip, hend, expect_some, bind_of_ok, heq]
            split
            · exact .refl _
            · refine (hmatcher _ input).bind fun ⟨matcher, input⟩ _ => ?_
              cases matcher with
              | single matcher => exact (hloop withoutSemicolon input).bind fun _ _ => .refl _
              | multiple | cxxMatchers => exact .refl _
          rcases h.place hend with heq | ⟨hstop, hcut⟩ | hunfinished
          · exact hsame heq
          · have hstopped : externLoop w newPattern watch (turns + 1) withoutSemicolon before
                = .error .stopped := by
              simp only [externLoop, hskip, hend, expect_some, bind_of_ok, hstop, if_true]
            rw [hstopped]
            exact .of_cut hcut _
          · rw [hunfinished _ before hskip]
            exact .of_cut h.unfinished _

theorem parseMatcher_below (h : Compatible w newPattern cut watch watch')
    (hle : turns ≤ turns') (withoutSemicolon : Bool) (input : Text) :
    Below cut (parseMatcher w newPattern watch turns withoutSemicolon input)
      (parseMatcher w newPattern watch' turns' withoutSemicolon input) :=
  (matcher_below h hle).1 withoutSemicolon input

theorem sectionLoop_below (h : Compatible w newPattern cut watch watch') :
    ∀ {turns turns' : Nat}, turns ≤ turns' → ∀ section_ out input,
      Below cut (sectionLoop w newPattern watch turns section_ out input)
        (sectionLoop w newPattern watch' turns' section_ out input)
  | 0, _, _, _, _, _ => .of_cut h.unfinished _
  | turns + 1, 0, hle, _, _, _ => absurd hle (by omega)
  | turns + 1, turns' + 1, hle, section_, out, input => by
    have hnext := fun section_ => sectionLoop_below h (le_of_succ_le_succ hle) section_
    simp only [sectionLoop]
    refine (refl _).bind fun input _ => ?_
    split
    · exact .refl _
    · split
      · exact hnext _ _ _
      · split
        · exact hnext _ _ _
        · exact (parseMatcher_below h (le_of_succ_le_succ hle) _ _).bind
            fun _ _ => hnext _ _ _

theorem parseVersionSection_below (h : Compatible w newPattern cut watch watch')
    (hle : turns ≤ turns') (input : Text) :
    Below cut (parseVersionSection w newPattern watch turns input)
      (parseVersionSection w newPattern watch' turns' input) :=
  (refl _).bind fun _ _ => sectionLoop_below h hle _ _ _

theorem versionsLoop_below (h : Compatible w newPattern cut watch watch') :
    ∀ {turns turns' : Nat}, turns ≤ turns' → ∀ versions input,
      Below cut (versionsLoop w newPattern watch turns versions input)
        (versionsLoop w newPattern watch' turns' versions input)
  | 0, _, _, _, _ => .of_cut h.unfinished _
  | turns + 1, 0, hle, _, _ => absurd hle (by omega)
  | turns + 1, turns' + 1, hle, versions, input => by
    have hle' := le_of_succ_le_succ hle
    simp only [versionsLoop]
    split
    · exact .refl _
    · refine (refl _).bind fun ⟨name, input⟩ _ => ?_
      refine (refl _).bind fun input _ => ?_
      refine (parseVersionSection_below h hle' input).bind fun ⟨versionBody, input⟩ _ => ?_
      refine (refl _).bind fun ⟨parentName, input⟩ _ => ?_
      refine (refl _).bind fun parentIndex _ => ?_
      refine (refl _).bind fun input _ => ?_
      refine (refl _).bind fun input _ => ?_
      exact versionsLoop_below h hle' _ _

theorem parseVersionScript_below (h : Compatible w newPattern cut watch watch')
    (hle : turns ≤ turns') (input : Text) :
    Below cut (parseVersionScript w newPattern watch turns input)
      (parseVersionScript w newPattern watch' turns' input) := by
  refine (refl _).bind fun input _ => ?_
  dsimp only
  split
  · exact (parseVersionSection_below h hle input).bind fun _ _ => .refl _
  · exact (versionsLoop_below h hle _ input).bind fun _ _ => .refl _

theorem exportLoop_below (h : Compatible w newPattern cut watch watch') :
    ∀ {turns turns' : Nat}, turns ≤ turns' → ∀ out input,
      Below cut (exportLoop w newPattern watch turns out input)
        (exportLoop w newPattern watch' turns' out input)
  | 0, _, _, _, _ => .of_cut h.unfinished _
  | turns + 1, 0, hle, _, _ => absurd hle (by omega)
  | turns + 1, turns' + 1, hle, out, input => by
    simp only [exportLoop]
    refine (refl _).bind fun input _ => ?_
    split
    · exact .refl _
    · exact (parseMatcher_below h (le_of_succ_le_succ hle) _ _).bind
        fun _ _ => exportLoop_below h (le_of_succ_le_succ hle) _ _

theorem parseLineExportList_below (h : Compatible w newPattern cut watch watch')
    (hle : turns ≤ turns') : ∀ lines,
      Below cut (parseLineExportList w newPattern watch turns lines)
        (parseLineExportList w newPattern watch' turns' lines)
  | [] => .refl _
  | line :: lines => by
    have hnext := parseLineExportList_below h hle lines
    simp only [parseLineExportList]
    split
    · exact hnext
    · exact (parseMatcher_below h hle _ _).bind fun _ _ => hnext.bind fun _ _ => .refl _

theorem exportList_parse_below (h : Compatible w newPattern cut watch watch') (hle : turns ≤ turns')
    (data : Text) :
    Below cut (parse w newPattern watch turns data)
      (parse w newPattern watch' turns' data) := by
  unfold parse
  split
  · refine (refl _).bind fun input _ => ?_
    refine (refl _).bind fun input _ => ?_
    exact (exportLoop_below h hle _ _).bind fun _ _ => .refl _
  · exact parseLineExportList_below h hle _

/-! ## 3. What the readers consume -/

theorem length_of_literal (h : literal expected input = some rest) :
    expected.length + rest.length = input.length := by
  rw [literal_eq_some_iff.mp h, length_append]

theorem length_of_expect_literal (h : expect (literal expected input) = .ok rest) :
    expected.length + rest.length = input.length :=
  length_of_literal (expect_eq_ok.mp h)

theorem length_of_expect_skip (hw : w.Documented)
    (h : expect (skipCommentsAndWhitespace w input) = .ok rest) : rest.length ≤ input.length :=
  (skip_some hw (expect_eq_ok.mp h)).1

theorem length_of_takeUntil (hw : w.Documented) {count : Nat} {before after : Text}
    (h : w.takeUntil count expected input = some (before, after)) :
    after.length + count ≤ input.length := by
  obtain ⟨happend, hcount⟩ := hw.takeUntil_some h
  have hlength := congrArg List.length happend
  rw [length_append] at hlength
  omega

theorem length_of_takeWhile1 (hw : w.Documented) {isMember : Char → Bool} {run : Text}
    (h : w.takeWhile1 isMember input = some (run, rest)) : rest.length < input.length := by
  rw [hw.takeWhile1_eq] at h
  split at h
  case isTrue => exact absurd h (by simp)
  case isFalse hne =>
    cases h
    have hlength := congrArg List.length (@List.takeWhile_append_dropWhile _ isMember input)
    rw [length_append] at hlength
    have hpos := length_pos_of_ne_nil hne
    omega

theorem length_of_externLanguage {cxx : Bool}
    (h : externLanguage input = .ok (cxx, rest)) : rest.length ≤ input.length := by
  unfold externLanguage at h
  split at h
  case h_1 _ hliteral =>
    obtain ⟨-, rfl⟩ := Prod.mk.inj (ok.inj h)
    exact le.intro ((add_comm _ _).trans (length_of_literal hliteral))
  case h_2 =>
    split at h
    case h_1 _ hliteral =>
      obtain ⟨-, rfl⟩ := Prod.mk.inj (ok.inj h)
      exact le.intro ((add_comm _ _).trans (length_of_literal hliteral))
    case h_2 => split at h <;> exact absurd h (by simp)

theorem length_takePattern (hw : w.Documented) {token : Text}
    (h : takePattern w withoutSemicolon input = some (token, rest)) :
    rest.length ≤ input.length ∧
      (withoutSemicolon = false ∨ '\x7d' ∈ input → rest.length < input.length) := by
  unfold takePattern at h
  split at h
  case isTrue hwithout =>
    split at h
    case isTrue =>
      have hlength := length_of_takeUntil hw h
      exact ⟨by omega, fun _ => by omega⟩
    case isFalse hclose =>
      obtain ⟨-, rfl⟩ := Prod.mk.inj (some.inj h)
      refine ⟨le_refl _, fun hor => ?_⟩
      rcases hor with hfalse | hmem
      · exact absurd (hwithout.symm.trans hfalse) (by decide)
      · exact absurd (contains_iff_mem.mpr hmem) hclose
  case isFalse =>
    have hlength := length_of_takeUntil hw h
    exact ⟨by omega, fun _ => by omega⟩

theorem length_getD_literal (expected input : Text) :
    ((literal expected input).getD input).length ≤ input.length := by
  cases h : literal expected input with
  | none => exact le_refl _
  | some rest => exact le.intro ((add_comm _ _).trans (length_of_literal h))

variable {matcher : ParsedSymbolMatcher}

/-- A single pattern consumes a character, unless it is all that is left. -/
theorem length_parseSingle (hw : w.Documented)
    (h : parseSingle w newPattern withoutSemicolon input = .ok (matcher, rest)) :
    rest.length ≤ input.length ∧
      (withoutSemicolon = false ∨ '\x7d' ∈ input → rest.length < input.length) := by
  obtain ⟨⟨token, after⟩, htoken, h⟩ := bind_ok_iff.mp h
  obtain ⟨skipped, hskip, h⟩ := bind_ok_iff.mp h
  obtain ⟨_, -, h⟩ := bind_ok_iff.mp h
  obtain ⟨-, rfl⟩ := Prod.mk.inj (ok.inj h)
  obtain ⟨hle, hlt⟩ := length_takePattern hw (expect_eq_ok.mp htoken)
  have hskipped := length_of_expect_skip hw hskip
  have hsemicolon := length_getD_literal [';'] skipped
  exact ⟨by omega, fun hor => by have := hlt hor; omega⟩

/-- A block consumes characters. -/
theorem length_matcher (hw : w.Documented) : ∀ (turns : Nat),
    (∀ {withoutSemicolon input matcher rest},
      parseMatcher w newPattern watch turns withoutSemicolon input = .ok (matcher, rest) →
        rest.length ≤ input.length ∧
        (withoutSemicolon = false ∨ '\x7d' ∈ input ∨ startsWith "extern ".toList input = true →
          rest.length < input.length)) ∧
    ∀ {withoutSemicolon input matchers rest},
      externLoop w newPattern watch turns withoutSemicolon input = .ok (matchers, rest) →
        rest.length ≤ input.length
  | 0 => ⟨fun h => absurd h (by simp [parseMatcher]), fun h => absurd h (by simp [externLoop])⟩
  | turns + 1 => by
    obtain ⟨hmatcher, hloop⟩ := length_matcher hw turns
    constructor
    · intro withoutSemicolon input matcher rest h
      simp only [parseMatcher] at h
      split at h
      case h_1 hnone =>
        obtain ⟨hle, hlt⟩ := length_parseSingle hw h
        refine ⟨hle, fun hor => ?_⟩
        rcases hor with hor | hor | hor
        · exact hlt (.inl hor)
        · exact hlt (.inr hor)
        · exact absurd hor (by rw [startsWith, hnone]; decide)
      case h_2 after hextern =>
        obtain ⟨⟨cxx, language⟩, hlanguage, h⟩ := bind_ok_iff.mp h
        obtain ⟨skipped, hskip, h⟩ := bind_ok_iff.mp h
        obtain ⟨opened, hopen, h⟩ := bind_ok_iff.mp h
        obtain ⟨⟨matchers, closed⟩, hclosed, h⟩ := bind_ok_iff.mp h
        obtain ⟨-, rfl⟩ := Prod.mk.inj (ok.inj h)
        have h₁ := length_of_literal hextern
        have h₂ := length_of_externLanguage hlanguage
        have h₃ := length_of_expect_skip hw hskip
        have h₄ := length_of_expect_literal hopen
        have h₅ := hloop hclosed
        simp only [String.reduceToList, length_cons, length_nil] at h₁ h₃ h₄ ⊢
        exact ⟨by omega, fun _ => by omega⟩
    · intro withoutSemicolon input matchers rest h
      simp only [externLoop] at h
      obtain ⟨skipped, hskip, h⟩ := bind_ok_iff.mp h
      have h₁ := length_of_expect_skip hw hskip
      split at h
      case h_1 closed hclose =>
        obtain ⟨last, hlast, h⟩ := bind_ok_iff.mp h
        obtain ⟨-, rfl⟩ := Prod.mk.inj (ok.inj h)
        have h₂ := length_of_literal hclose
        have h₃ := length_of_expect_skip hw hlast
        omega
      case h_2 =>
        split at h
        case isTrue => exact absurd h (by simp)
        case isFalse =>
          obtain ⟨⟨matcher, after⟩, hafter, h⟩ := bind_ok_iff.mp h
          have h₂ := (hmatcher hafter).1
          cases matcher with
          | single matcher =>
            obtain ⟨⟨others, last⟩, hlast, h⟩ := bind_ok_iff.mp h
            obtain ⟨-, rfl⟩ := Prod.mk.inj (ok.inj h)
            have h₃ := hloop hlast
            dsimp only at h₃ ⊢
            omega
          | multiple | cxxMatchers => exact absurd h (by simp)

/-- In a block, away from the place, every pattern consumes a character. -/
theorem length_matcher_of_not_stalls (hw : w.Documented)
    (hplace : stalls newPattern withoutSemicolon input = false) (htoken : AtToken input)
    (h : parseMatcher w newPattern watch turns (! expectSemicolon withoutSemicolon input) input
      = .ok (matcher, rest)) : rest.length < input.length := by
  obtain ⟨hle, hlt⟩ := (length_matcher hw turns).1 h
  by_cases hsure : (! expectSemicolon withoutSemicolon input) = false ∨ '\x7d' ∈ input ∨
      startsWith "extern ".toList input = true
  · exact hlt hsure
  -- The pattern needs no semicolon and is all that is left.
  obtain ⟨hneeds, hclose, hextern⟩ : expectSemicolon withoutSemicolon input = false ∧
      '\x7d' ∉ input ∧ startsWith "extern ".toList input = false := by
    simpa [not_or] using hsure
  have hwithout : withoutSemicolon = false := by
    rwa [expectSemicolon, findLiteral_close_of_not_mem hclose] at hneeds
  have hcontains : input.contains '\x7d' = false := by simpa using hclose
  cases turns with
  | zero => exact absurd h (by simp [parseMatcher])
  | succ turns =>
    have hnone : literal "extern ".toList input = none := by simpa [startsWith] using hextern
    simp only [parseMatcher, hnone, hneeds, Bool.not_false] at h
    obtain ⟨⟨token, after⟩, htake, h⟩ := bind_ok_iff.mp h
    obtain ⟨skipped, hskip, h⟩ := bind_ok_iff.mp h
    obtain ⟨single, hclassify, h⟩ := bind_ok_iff.mp h
    obtain ⟨-, rfl⟩ := Prod.mk.inj (ok.inj h)
    have hall : takePattern w true input = some (input, input) := by
      simp only [takePattern, hcontains, if_true, Bool.false_eq_true, if_false]
    cases hall.symm.trans (expect_eq_ok.mp htake)
    obtain rfl : input = skipped :=
      some.inj ((skip_of_atToken hw htoken).symm.trans (expect_eq_ok.mp hskip))
    -- So it is followed by a semicolon that is there to be consumed.
    have hsemicolon : startsWith [';'] input = true := by
      simp only [hclassify, stalls, hwithout, hcontains, hextern, Except.isOk, Except.toBool,
        Bool.not_false, Bool.true_and, Bool.and_true] at hplace
      simpa using hplace
    obtain ⟨after, hafter⟩ := isSome_iff_exists.mp hsemicolon
    rw [hafter]
    exact Nat.lt_of_lt_of_eq (Nat.lt_add_of_pos_left (by simp)) (length_of_literal hafter)

/-! ## 4. Readers that stop at the place need few turns -/

/-- There were turns enough. -/
abbrev Ends {α : Type} (x : Except Failure α) : Prop := Finishes (· = Failure.unfinished) x

theorem ends_ok (a : α) : Ends (.ok a) := finishes_ok a

theorem ends_error {e : Failure} (h : e ≠ .unfinished) :
    Ends (.error e : Except Failure α) := finishes_error_iff.mpr h

theorem expect_ends (o : Option α) : Ends (expect o) := by
  cases o with
  | none => exact ends_error (by simp)
  | some a => exact ends_ok a

theorem classify_ends (token : Text) : Ends (classify newPattern token) := by
  have hcompiled : ∀ build : Resolution.Pattern → SymbolMatcher,
      Ends (((compileGlobPattern newPattern token).map build).mapError .invalid) := by
    intro build
    cases compileGlobPattern newPattern token with
    | error e => exact ends_error (by simp)
    | ok pattern => exact ends_ok _
  unfold classify
  split
  · exact ends_ok _
  · split
    · exact ends_ok _
    · split
      · exact ends_ok _
      · exact ends_ok _
      · exact hcompiled _
      · exact hcompiled _

theorem parseSingle_ends (withoutSemicolon : Bool) (input : Text) :
    Ends (parseSingle w newPattern withoutSemicolon input) :=
  (expect_ends _).bind fun _ _ => (expect_ends _).bind fun _ _ =>
    (classify_ends _).bind fun _ _ => ends_ok _

theorem externLanguage_ends (input : Text) : Ends (externLanguage input) := by
  unfold externLanguage
  split
  · exact ends_ok _
  · split
    · exact ends_ok _
    · split
      · exact ends_error (by simp)
      · exact ends_error (by simp)

theorem parentIndexOf_ends (versionNames : List Bytes) (parentName : Bytes) :
    Ends (parentIndexOf versionNames parentName) := by
  unfold parentIndexOf
  split
  · exact ends_ok _
  · split
    · exact ends_ok _
    · exact ends_error (by simp)

theorem atEnd_ends (found : α × Text) : Ends (atEnd found) := by
  unfold atEnd
  split
  · exact ends_ok _
  · exact ends_error (by simp)

/-- **Two turns a character are enough**, and two more for a loop. -/
theorem matcher_ends (hw : w.Documented) : ∀ (turns : Nat),
    (∀ withoutSemicolon (input : Text), 2 * input.length + 1 ≤ turns →
      Ends (parseMatcher w newPattern (stalls newPattern) turns withoutSemicolon input)) ∧
    ∀ withoutSemicolon (input : Text), 2 * input.length + 2 ≤ turns →
      Ends (externLoop w newPattern (stalls newPattern) turns withoutSemicolon input)
  | 0 => ⟨fun _ _ h => absurd h (by omega), fun _ _ h => absurd h (by omega)⟩
  | turns + 1 => by
    obtain ⟨hmatcher, hloop⟩ := matcher_ends hw turns
    constructor
    · intro withoutSemicolon input hturns
      simp only [parseMatcher]
      split
      case h_1 => exact parseSingle_ends _ _
      case h_2 after hextern =>
        refine (externLanguage_ends after).bind fun ⟨cxx, language⟩ hlanguage => ?_
        refine (expect_ends _).bind fun skipped hskip => ?_
        refine (expect_ends _).bind fun opened hopen => ?_
        have h₁ := length_of_literal hextern
        have h₂ := length_of_externLanguage hlanguage
        have h₃ := length_of_expect_skip hw hskip
        have h₄ := length_of_expect_literal hopen
        simp only [String.reduceToList, length_cons, length_nil] at h₁ h₃ h₄
        exact (hloop _ _ (by omega)).bind fun _ _ => ends_ok _
    · intro withoutSemicolon input hturns
      simp only [externLoop]
      refine (expect_ends _).bind fun skipped hskip => ?_
      have h₁ := length_of_expect_skip hw hskip
      split
      case h_1 => exact (expect_ends _).bind fun _ _ => ends_ok _
      case h_2 =>
        split
        case isTrue => exact ends_error (by simp)
        case isFalse hplace =>
          refine (hmatcher _ _ (by omega)).bind fun ⟨matcher, after⟩ hafter => ?_
          have h₂ := length_matcher_of_not_stalls hw (by simpa using hplace)
            (skip_some hw (expect_eq_ok.mp hskip)).2 hafter
          cases matcher with
          | single matcher => exact (hloop _ _ (by dsimp only; omega)).bind fun _ _ => ends_ok _
          | multiple | cxxMatchers => exact ends_error (by simp)

theorem length_sectionLoop (hw : w.Documented) : ∀ {turns : Nat} {section_ out input body rest},
    sectionLoop w newPattern watch turns section_ out input = .ok (body, rest) →
      rest.length ≤ input.length
  | 0, _, _, _, _, _, h => absurd h (by simp [sectionLoop])
  | turns + 1, section_, out, input, body, rest, h => by
    simp only [sectionLoop] at h
    obtain ⟨skipped, hskip, h⟩ := bind_ok_iff.mp h
    have h₁ := length_of_expect_skip hw hskip
    split at h
    case h_1 closed hclose =>
      obtain ⟨last, hlast, h⟩ := bind_ok_iff.mp h
      obtain ⟨-, rfl⟩ := Prod.mk.inj (ok.inj h)
      have h₂ := length_of_literal hclose
      have h₃ := length_of_expect_skip hw hlast
      omega
    case h_2 =>
      split at h
      case h_1 after hafter =>
        have h₂ := length_of_literal hafter
        have h₃ := length_sectionLoop hw h
        omega
      case h_2 =>
        split at h
        case h_1 after hafter =>
          have h₂ := length_of_literal hafter
          have h₃ := length_sectionLoop hw h
          omega
        case h_2 =>
          obtain ⟨⟨matcher, after⟩, hafter, h⟩ := bind_ok_iff.mp h
          have h₂ := ((length_matcher hw turns).1 hafter).1
          have h₃ := length_sectionLoop hw h
          dsimp only at h₃
          omega

theorem sectionLoop_ends (hw : w.Documented) : ∀ (turns : Nat) section_ out (input : Text),
    2 * input.length + 2 ≤ turns →
      Ends (sectionLoop w newPattern (stalls newPattern) turns section_ out input)
  | 0, _, _, _, h => absurd h (by omega)
  | turns + 1, section_, out, input, hturns => by
    simp only [sectionLoop]
    refine (expect_ends _).bind fun skipped hskip => ?_
    have h₁ := length_of_expect_skip hw hskip
    split
    case h_1 => exact (expect_ends _).bind fun _ _ => ends_ok _
    case h_2 =>
      split
      case h_1 after hafter =>
        have h₂ := length_of_literal hafter
        simp only [String.reduceToList, length_cons] at h₂
        exact sectionLoop_ends hw turns _ _ _ (by omega)
      case h_2 =>
        split
        case h_1 after hafter =>
          have h₂ := length_of_literal hafter
          simp only [String.reduceToList, length_cons] at h₂
          exact sectionLoop_ends hw turns _ _ _ (by omega)
        case h_2 =>
          refine ((matcher_ends hw turns).1 _ _ (by omega)).bind fun ⟨matcher, after⟩ hafter => ?_
          have h₂ := ((length_matcher hw turns).1 hafter).2 (.inl rfl)
          exact sectionLoop_ends hw turns _ _ _ (by dsimp only; omega)

theorem parseVersionSection_ends (hw : w.Documented) (h : 2 * input.length + 1 ≤ turns) :
    Ends (parseVersionSection w newPattern (stalls newPattern) turns input) := by
  refine (expect_ends _).bind fun opened hopen => ?_
  have h₁ := length_of_expect_literal hopen
  simp only [length_cons] at h₁
  exact sectionLoop_ends hw turns _ _ _ (by omega)

theorem versionsLoop_ends (hw : w.Documented) : ∀ (turns : Nat) versions (input : Text),
    2 * input.length + 2 ≤ turns →
      Ends (versionsLoop w newPattern (stalls newPattern) turns versions input)
  | 0, _, _, h => absurd h (by omega)
  | turns + 1, versions, input, hturns => by
    simp only [versionsLoop]
    split
    case isTrue => exact ends_ok _
    case isFalse =>
      refine (expect_ends _).bind fun ⟨name, named⟩ hnamed => ?_
      refine (expect_ends _).bind fun skipped hskip => ?_
      have h₁ := length_of_takeWhile1 hw (expect_eq_ok.mp hnamed)
      have h₂ := length_of_expect_skip hw hskip
      dsimp only at h₂
      refine (parseVersionSection_ends hw (by omega)).bind fun ⟨body, after⟩ hbody => ?_
      obtain ⟨opened, hopen, hbody⟩ := bind_ok_iff.mp hbody
      have h₃ := length_of_expect_literal hopen
      have h₄ := length_sectionLoop hw hbody
      refine (expect_ends _).bind fun ⟨parentName, parent⟩ hparent => ?_
      have h₅ := length_of_takeUntil hw (expect_eq_ok.mp hparent)
      refine (parentIndexOf_ends _ _).bind fun parentIndex _ => ?_
      refine (expect_ends _).bind fun semicolon hsemicolon => ?_
      have h₆ := length_of_expect_literal hsemicolon
      refine (expect_ends _).bind fun last hlast => ?_
      have h₇ := length_of_expect_skip hw hlast
      dsimp only at h₅ h₆
      exact versionsLoop_ends hw turns _ _ (by omega)

theorem parseVersionScript_ends (hw : w.Documented) (h : 2 * input.length + 2 ≤ turns) :
    Ends (parseVersionScript w newPattern (stalls newPattern) turns input) := by
  refine (expect_ends _).bind fun skipped hskip => ?_
  have h₁ := length_of_expect_skip hw hskip
  dsimp only
  split
  · refine (parseVersionSection_ends hw (by omega)).bind fun _ _ => ?_
    refine (expect_ends _).bind fun _ _ => ?_
    exact (expect_ends _).bind fun _ _ => (atEnd_ends _).bind fun _ _ => ends_ok _
  · exact (versionsLoop_ends hw turns _ _ (by omega)).bind fun _ _ => ends_ok _

theorem exportLoop_ends (hw : w.Documented) : ∀ (turns : Nat) out (input : Text),
    2 * input.length + 2 ≤ turns →
      Ends (exportLoop w newPattern (stalls newPattern) turns out input)
  | 0, _, _, h => absurd h (by omega)
  | turns + 1, out, input, hturns => by
    simp only [exportLoop]
    refine (expect_ends _).bind fun skipped hskip => ?_
    have h₁ := length_of_expect_skip hw hskip
    split
    case h_1 => exact (expect_ends _).bind fun _ _ => ends_ok _
    case h_2 =>
      refine ((matcher_ends hw turns).1 _ _ (by omega)).bind fun ⟨matcher, after⟩ hafter => ?_
      have h₂ := ((length_matcher hw turns).1 hafter).2 (.inl rfl)
      exact exportLoop_ends hw turns _ _ (by dsimp only; omega)

theorem parseLineExportList_ends (hw : w.Documented) : ∀ {lines : List Text},
    (∀ line ∈ lines, 2 * line.length + 1 ≤ turns) →
      Ends (parseLineExportList w newPattern (stalls newPattern) turns lines)
  | [], _ => ends_ok _
  | line :: lines, h => by
    have hnext := parseLineExportList_ends hw fun l hl => h l (mem_cons_of_mem _ hl)
    simp only [parseLineExportList]
    split
    · exact hnext
    · have hline := h line (by simp)
      have htrimmed : (trimAsciiEnd (trimAsciiStart line)).length ≤ line.length := by
        have h₁ := length_dropWhile_le isAsciiWhitespace line
        have h₂ := length_dropWhile_le isAsciiWhitespace (trimAsciiStart line).reverse
        rw [length_reverse] at h₂
        rw [trimAsciiEnd, length_reverse]
        exact h₂.trans h₁
      exact ((matcher_ends hw turns).1 _ _ (by omega)).bind
        fun _ _ => hnext.bind fun _ _ => ends_ok _

theorem length_le_join (separator : Char) {line : Text} : ∀ {pieces : List Text},
    line ∈ pieces → line.length ≤ (Text.join separator pieces).length
  | [], h => absurd h (by simp)
  | [piece], h => by simp [mem_singleton.mp h]
  | piece :: next :: rest, h => by
    rw [Text.join_cons_cons, length_append, length_cons]
    rcases mem_cons.mp h with rfl | h
    · omega
    · have hrest := length_le_join separator h
      omega

theorem length_of_mem_split {separator : Char} {data line : Text}
    (h : line ∈ Text.split separator data) : line.length ≤ data.length := by
  have hjoined : Text.join separator (Text.split separator data) = data :=
    intercalate_splitOn separator
  exact hjoined ▸ length_le_join separator h

theorem exportList_parse_ends (hw : w.Documented) {data : Text} (h : 2 * data.length + 2 ≤ turns) :
    Ends (parse w newPattern (stalls newPattern) turns data) := by
  unfold parse
  split
  · refine (expect_ends _).bind fun skipped hskip => ?_
    refine (expect_ends _).bind fun opened hopen => ?_
    have h₁ := length_of_expect_skip hw hskip
    have h₂ := length_of_expect_literal hopen
    exact (exportLoop_ends hw turns _ _ (by omega)).bind fun _ _ => atEnd_ends _
  · refine parseLineExportList_ends hw fun line hline => ?_
    have h₁ := length_of_mem_split hline
    omega

/-! ## 5. Which texts are read to the end -/

/-- The reader returns a value or an error, given turns enough. -/
def Returns {α : Type} (parse : Nat → Except Failure α) : Prop :=
  ∃ turns, Finishes IsCut (parse turns)

theorem compatible_of_eq (watch : Watch) :
    Compatible w newPattern (· = Failure.unfinished) watch watch :=
  ⟨rfl, fun _ => .inl rfl⟩

theorem compatible_never_stalls (hw : w.Documented) :
    Compatible w newPattern IsCut never (stalls newPattern) where
  unfinished := .inl rfl
  place {withoutSemicolon input} hend := by
    cases hplace : stalls newPattern withoutSemicolon input with
    | false => exact .inl rfl
    | true => exact .inr (.inr fun turns before => externLoop_of_stalls hw hend hplace turns)

theorem compatible_stalls_never : Compatible w newPattern IsCut (stalls newPattern) never where
  unfinished := .inl rfl
  place {withoutSemicolon input} _ := by
    cases hplace : stalls newPattern withoutSemicolon input with
    | false => exact .inl rfl
    | true => exact .inr (.inl ⟨rfl, .inr rfl⟩)

/-- A reader returns if and only if it does not come to the place within the turns that it needs. -/
theorem returns_iff {α : Type} {parse : Watch → Nat → Except Failure α} {enough : Nat}
    (hw : w.Documented) (hbelow : ∀ {cut watch watch'}, Compatible w newPattern cut watch watch' →
      ∀ {turns turns'}, turns ≤ turns' → Below cut (parse watch turns) (parse watch' turns'))
    (hends : Ends (parse (stalls newPattern) enough)) :
    Returns (parse never) ↔ parse (stalls newPattern) enough ≠ .error .stopped := by
  constructor
  · rintro ⟨turns, hfinishes⟩ hstopped
    have hnever := hbelow (compatible_never_stalls hw) (le_max_left turns enough) hfinishes
    have hlater := hbelow (@compatible_of_eq w _ (stalls newPattern))
      (le_max_right turns enough) hends
    rw [hstopped, hnever] at hlater
    rw [hlater] at hfinishes
    exact finishes_error_iff.mp hfinishes (.inr rfl)
  · intro hplace
    have hfinishes : Finishes IsCut (parse (stalls newPattern) enough) := by
      intro e he hcut
      rcases hcut with rfl | rfl
      · exact hends _ he rfl
      · exact hplace he
    have hsame := hbelow compatible_stalls_never (le_refl enough) hfinishes
    exact ⟨enough, by rwa [hsame]⟩

end

/-- Reading the text comes to the place. -/
def ComesToStall {α : Type} (newPattern : Text → Option Resolution.Pattern)
    (parse : Watch → Nat → Text → Except Failure α) (text : Text) : Prop :=
  parse (stalls newPattern) (2 * text.length + 2) text = .error .stopped

instance {α : Type} (newPattern : Text → Option Resolution.Pattern)
    (parse : Watch → Nat → Text → Except Failure α) (text : Text) :
    Decidable (ComesToStall newPattern parse text) :=
  match h : parse (stalls newPattern) (2 * text.length + 2) text with
  | .ok _ => isFalse (by simp [ComesToStall, h])
  | .error e => decidable_of_iff (e = .stopped) (by simp [ComesToStall, h])

section

variable (w : Scanners) (hw : w.Documented) (newPattern : Text → Option Resolution.Pattern)
  (text : Text)

include hw

theorem versionScript_returns_iff :
    Returns (parseVersionScript w newPattern never · text) ↔
      ¬ ComesToStall newPattern (parseVersionScript w newPattern) text :=
  @returns_iff w newPattern _
    (fun watch turns => parseVersionScript w newPattern watch turns text) _ hw
    (fun h _ _ hle => parseVersionScript_below h hle text)
    (parseVersionScript_ends hw (le_refl _))

theorem exportList_returns_iff :
    Returns (parse w newPattern never · text) ↔
      ¬ ComesToStall newPattern (parse w newPattern) text :=
  @returns_iff w newPattern _
    (fun watch turns => parse w newPattern watch turns text) _ hw
    (fun h _ _ hle => exportList_parse_below h hle text)
    (exportList_parse_ends hw (le_refl _))

/-- **Version scripts and export lists are read to the end, unless an `extern` block goes on for
ever.** -/
theorem returns_iff_not_comesToStall :
    (Returns (parseVersionScript w newPattern never · text) ↔
      ¬ ComesToStall newPattern (parseVersionScript w newPattern) text) ∧
    (Returns (ExportList.parse w newPattern never · text) ↔
      ¬ ComesToStall newPattern (ExportList.parse w newPattern) text) :=
  ⟨versionScript_returns_iff w hw newPattern text, exportList_returns_iff w hw newPattern text⟩

end

/-- `{ extern "C" { foo; }; };` -/
def closedBlock : Text := "\x7b extern \"C\" \x7b foo; \x7d; \x7d;".toList

theorem closedBlock_returns :
    Returns (parseVersionScript scanners (fun _ => none) never · closedBlock) ∧
      Returns (ExportList.parse scanners (fun _ => none) never · closedBlock) :=
  have h := returns_iff_not_comesToStall scanners scanners_documented (fun _ => none) closedBlock
  ⟨h.1.mpr (by decide +kernel), h.2.mpr (by decide +kernel)⟩

/-- `{ extern "C" { foo`: the block is not closed. -/
def openBlock : Text := "\x7b extern \"C\" \x7b foo".toList

/-- Neither reader comes to the end of it. -/
theorem openBlock_never_returns :
    ¬ Returns (parseVersionScript scanners (fun _ => none) never · openBlock) ∧
      ¬ Returns (ExportList.parse scanners (fun _ => none) never · openBlock) := by
  rw [versionScript_returns_iff _ scanners_documented, exportList_returns_iff _ scanners_documented,
    not_not, not_not]
  decide +kernel

end Srs.Script.VersionScripts
