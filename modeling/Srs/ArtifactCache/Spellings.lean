/-
# Spellings of rustc options

rustc takes the value of an option joined or as the next argument, many options under a short and a
long name, and the name of a codegen or unstable option with dashes or underscores.  The admission
test knows some of these spellings.  Those of search paths, crate types, outputs and extern crates
that it does not know, it rejects; `--codegen`, the long name of `-C`, passes unseen, and so does
`link_arg` for `link-arg` (`rejected_becomes_accepted`).

Between the spellings it knows, the test does not tell (`same_decision`): an option that stands
where no other option takes it as its value adds the same conditions however it is spelled.
-/
import Srs.ArtifactCache.Admission

namespace Srs.ArtifactCache

open Text Adjacent List

/-! ## 1. The options of rustc -/

/-- An option with a value; one of its two names can be missing. -/
structure ValueOption where
  short : Text
  long : Text
  deriving DecidableEq

/-- The options of `rustc_optgroups` that take a value. -/
def VALUE_OPTIONS : List ValueOption := [
  ⟨"", "cfg"⟩, ⟨"", "check-cfg"⟩, ⟨"L", ""⟩, ⟨"l", ""⟩, ⟨"", "crate-type"⟩, ⟨"", "crate-name"⟩,
  ⟨"", "edition"⟩, ⟨"", "emit"⟩, ⟨"", "print"⟩, ⟨"o", ""⟩, ⟨"", "out-dir"⟩, ⟨"", "explain"⟩,
  ⟨"", "target"⟩, ⟨"A", "allow"⟩, ⟨"W", "warn"⟩, ⟨"", "force-warn"⟩, ⟨"D", "deny"⟩,
  ⟨"F", "forbid"⟩, ⟨"", "cap-lints"⟩, ⟨"C", "codegen"⟩, ⟨"", "extern"⟩, ⟨"", "sysroot"⟩, ⟨"Z", ""⟩,
  ⟨"", "error-format"⟩, ⟨"", "json"⟩, ⟨"", "color"⟩, ⟨"", "diagnostic-width"⟩,
  ⟨"", "remap-path-prefix"⟩, ⟨"", "remap-path-scope"⟩, ⟨"", "env-set"⟩]

/-- The codegen options, under the names of their fields. -/
def CODEGEN_OPTIONS : List Text := [
  "ar", "code_model", "codegen_units", "collapse_macro_debuginfo", "control_flow_guard",
  "debug_assertions", "debuginfo", "default_linker_libraries", "dlltool", "dwarf_version",
  "embed_bitcode", "extra_filename", "force_frame_pointers", "force_unwind_tables", "help",
  "incremental", "inline_threshold", "instrument_coverage", "jump_tables", "link_arg", "link_args",
  "link_dead_code", "link_self_contained", "linker", "linker_features", "linker_flavor",
  "linker_plugin_lto", "llvm_args", "lto", "metadata", "no_prepopulate_passes", "no_redzone",
  "no_stack_check", "no_vectorize_loops", "no_vectorize_slp", "opt_level", "overflow_checks", "panic",
  "passes", "prefer_dynamic", "profile_generate", "profile_use", "relocation_model", "relro_level",
  "remark", "rpath", "save_temps", "soft_float", "split_debuginfo", "strip",
  "symbol_mangling_version", "target_cpu", "target_feature", "unsafe_allow_abi_mismatch"]

/-- `key.replace('-', "_")`. -/
def withUnderscores (key : Text) : Text := key.map fun c => if c = '-' then '_' else c

/-- A name with or without a value. -/
def optionText (name : Text) (value : Option Text) : Text :=
  name ++ value.elim [] fun value => '=' :: value

/-- The spellings of an option with a value. -/
inductive Spells (o : ValueOption) (value : Text) : List Text → Prop
  | shortJoined (h : o.short ≠ []) (hvalue : value ≠ []) : Spells o value [('-' :: o.short) ++ value]
  | shortSeparate (h : o.short ≠ []) : Spells o value ['-' :: o.short, value]
  | longJoined (h : o.long ≠ []) :
      Spells o value [('-' :: '-' :: o.long) ++ '=' :: value]
  | longSeparate (h : o.long ≠ []) : Spells o value ['-' :: '-' :: o.long, value]

/-- Two values that rustc takes for the same. -/
inductive SameValue (o : ValueOption) : Text → Text → Prop
  | refl (value : Text) : SameValue o value value
  | names (h : o.short = "C" ∨ o.short = "Z") {name name' : Text} (value : Option Text)
      (hname : '=' ∉ name) (hname' : '=' ∉ name')
      (hsame : withUnderscores name = withUnderscores name') :
      SameValue o (optionText name value) (optionText name' value)

/-- The value of a codegen option that rustc knows. -/
def IsCodegenValue (text : Text) : Prop :=
  ∃ name value, text = optionText name value ∧ withUnderscores name ∈ CODEGEN_OPTIONS

/-- Two spellings of one option. -/
def Equivalent (s s' : List Text) : Prop :=
  ∃ o ∈ VALUE_OPTIONS, ∃ value value', SameValue o value value' ∧
    (o.short = "C" → IsCodegenValue value ∧ IsCodegenValue value') ∧
    Spells o value s ∧ Spells o value' s'

/-! ## 2. Arguments among others -/

/-- The options that are looked at together with the argument behind them. -/
def pairedOptions : List Text :=
  ["--emit", "--crate-type", "--out-dir", "--target", "--sysroot", "-C", "-L", "--extern", "-Z"]

/-- Behind these arguments stands no value. -/
def Complete (args : List Text) : Prop := ∀ name ∈ pairedOptions, args.getLast? ≠ some name

/-- The tests on single arguments that look for one option each. -/
def argumentTests : List (Text → Bool) := [
  (startsWith · "--emit="), (· == "--crate-type"), (startsWith · "--crate-type="), (· == "--test"),
  (startsWith · "@"), (startsWith · "-l"), (fun arg => arg != "-L" && startsWith arg "-L"),
  (startsWith · "--extern=")]

/-- The options on which no other option depends. -/
def separateOptions : List Text := ["-C", "-Z", "--target"]

/-- Arguments that the other options do not depend on. -/
structure Quiet (s : List Text) : Prop where
  complete : Complete s
  followers : ∀ name ∈ pairedOptions, name ∉ separateOptions → followers name s = []
  tests : ∀ test ∈ argumentTests, ∀ a ∈ s, test a = false

/-- Whether the arguments themselves are rejected. -/
def isRejected (s : List Text) : Bool :=
  s.any unmodeledArgument || s.any unmodeledLinkOrUnstable ||
    ((followers "-C".toList s).any fun value =>
      startsWith value "save-temps" || unmodeledCodegenBehaviorFlag value) ||
    ((followers "--target".toList s).any customTargetSpecFlag) ||
    (followers "-Z".toList s).any fun flag => !modeledUnstableFlag flag

section

variable {pre s post : List Text}

theorem any_insert (test : Text → Bool) (pre s post : List Text) :
    (pre ++ (s ++ post)).any test = ((pre ++ post).any test || s.any test) := by
  rw [List.any_append, List.any_append, List.any_append, Bool.or_assoc, Bool.or_comm (s.any test)]

variable {test : Text → Bool}

theorem Quiet.any_insert (hs : Quiet s) (htest : test ∈ argumentTests)
    (pre post : List Text) : (pre ++ (s ++ post)).any test = (pre ++ post).any test := by
  have hnone : s.any test = false := List.any_eq_false.mpr fun a ha => by
    rw [hs.tests test htest a ha]
    exact Bool.false_ne_true
  rw [ArtifactCache.any_insert, hnone, Bool.or_false]

variable {name : Text}

/-- Two cuts, neither of them behind an option that waits for its value. -/
theorem followers_insert (hpre : Complete pre) (hs : Complete s) (post : List Text)
    (hname : name ∈ pairedOptions) :
    followers name (pre ++ (s ++ post))
      = followers name pre ++ (followers name s ++ followers name post) := by
  rw [followers_append (hpre name hname), followers_append (hs name hname)]

theorem Quiet.followers_insert (hpre : Complete pre) (hs : Quiet s) (post : List Text)
    (hname : name ∈ pairedOptions) (hother : name ∉ separateOptions) :
    Adjacent.followers name (pre ++ (s ++ post)) = Adjacent.followers name (pre ++ post) := by
  rw [ArtifactCache.followers_insert hpre hs.complete post hname, followers_append (hpre name hname),
    hs.followers name hname hother, List.nil_append]

theorem any_followers_insert (hpre : Complete pre) (hs : Complete s) (post : List Text)
    {name : Text} (hname : name ∈ pairedOptions) (test : Text → Bool) :
    (followers name (pre ++ (s ++ post))).any test
      = ((followers name (pre ++ post)).any test || (followers name s).any test) := by
  rw [followers_insert hpre hs post hname, followers_append (hpre name hname), any_insert]

/-- Quiet arguments emit nothing. -/
theorem Quiet.emits_insert (hs : Quiet s) (pre post : List Text) :
    emits (pre ++ (s ++ post)) = emits (pre ++ post) := by
  have hnone : s.filterMap (stripPrefix "--emit=") = [] := by
    refine filterMap_eq_nil_iff.mpr fun a ha => ?_
    have htest : startsWith a "--emit=" = false := hs.tests _ List.mem_cons_self a ha
    exact if_neg (by rw [← Bool.not_eq_true] at htest; exact htest)
  simp only [emits, List.filterMap_append, hnone, List.nil_append]

theorem Quiet.count_insert (hs : Quiet s) (pre post : List Text) :
    (pre ++ (s ++ post)).countP (startsWith · "--emit=")
      = (pre ++ post).countP (startsWith · "--emit=") := by
  have hzero : s.countP (startsWith · "--emit=") = 0 := by
    refine countP_eq_zero.mpr fun a ha => ?_
    have htest : startsWith a "--emit=" = false := hs.tests _ List.mem_cons_self a ha
    rw [htest]
    exact Bool.false_ne_true
  simp only [List.countP_append, hzero, Nat.zero_add]

/-- **Quiet arguments add their own conditions and nothing else.** -/
theorem optionsAreModeled_insert (hpre : Complete pre) (hs : Quiet s) (post : List Text)
    (outputRoot : Text) (paths : List OsString) (mode : CompileMode) :
    optionsAreModeled (pre ++ (s ++ post)) outputRoot paths mode
      = (optionsAreModeled (pre ++ post) outputRoot paths mode && !isRejected s) := by
  have hcheck : metadataOnlyTestCheck mode (pre ++ (s ++ post))
      = metadataOnlyTestCheck mode (pre ++ post) := by
    simp only [metadataOnlyTestCheck, metadataOnly, hs.emits_insert]
    rw [hs.any_insert (by simp [argumentTests]), hs.any_insert (by simp [argumentTests])]
  have hfollow : ∀ {name : Text}, name ∈ pairedOptions → name ∉ separateOptions →
      followers name (pre ++ (s ++ post)) = followers name (pre ++ post) :=
    fun hname hother => hs.followers_insert hpre post hname hother
  have hcodegen := @any_followers_insert _ _ hpre hs.complete post "-C".toList (by decide)
  have hunstable := @any_followers_insert _ _ hpre hs.complete post "-Z".toList (by decide)
  have htarget := @any_followers_insert _ _ hpre hs.complete post "--target".toList (by decide)
  have htests : ∀ test ∈ argumentTests, (pre ++ (s ++ post)).any test = (pre ++ post).any test :=
    fun test htest => hs.any_insert htest pre post
  simp only [argumentTests, List.forall_mem_cons] at htests
  obtain ⟨_, _, _, htest, hfile, hlib, hsearch, hextern, _⟩ := htests
  unfold optionsAreModeled
  dsimp only
  rw [ordinaryLibraryCrateType, ordinaryLibraryCrateType, hcheck, hs.emits_insert, hs.count_insert,
    hcodegen, hunstable, htarget, hfollow (by decide) (by decide), hfollow (by decide) (by decide),
    hfollow (by decide) (by decide), hfollow (by decide) (by decide),
    hfollow (by decide) (by decide), hfollow (by decide) (by decide), htest, hfile, hlib, hsearch,
    hextern, any_insert unmodeledArgument,
    any_insert unmodeledLinkOrUnstable]
  cases hr : isRejected s with
  | false =>
    simp only [isRejected, Bool.or_eq_false_iff] at hr
    obtain ⟨⟨⟨⟨h1, h2⟩, h3⟩, h4⟩, h5⟩ := hr
    simp only [h1, h2, h3, h4, h5, Bool.or_false, Bool.not_false, Bool.and_true]
  | true =>
    simp only [isRejected, Bool.or_eq_true] at hr
    rcases hr with (((hr | hr) | hr) | hr) | hr <;>
      simp only [hr, Bool.or_true, Bool.not_true, Bool.and_false, Bool.false_and]

/-- The target of a command whose other arguments have none. -/
theorem actionTarget_insert (hpre : Complete pre) (hs : Complete s) (post : List Text)
    (hostTriple : Text) (hother : (pre ++ post).findSome? (stripPrefix "--target=") = none)
    (hpair : followers "--target".toList (pre ++ post) = []) :
    actionTarget (pre ++ (s ++ post)) hostTriple = actionTarget s hostTriple := by
  have hmem : "--target".toList ∈ pairedOptions := by decide
  rw [List.findSome?_append, Option.or_eq_none_iff] at hother
  rw [followers_append (hpre _ hmem), List.append_eq_nil_iff] at hpair
  rw [actionTarget, actionTarget, followers_insert hpre hs post hmem, hpair.1, hpair.2,
    List.findSome?_append, List.findSome?_append, hother.1, hother.2, List.nil_append,
    List.append_nil, Option.none_or, Option.or_none]

/-- What arguments add that say nothing of the target. -/
structure Adds (s : List Text) (rejected : Bool) : Prop where
  quiet : Quiet s
  rejected_eq : isRejected s = rejected
  target : ∀ a ∈ s, stripPrefix "--target=" a = none
  targetPair : followers "--target".toList s = []

theorem argumentsAreModeled_insert {rejected : Bool} (hpre : Complete pre) (hs : Adds s rejected)
    (post : List Text) (outputRoot hostTriple : Text) (paths : List OsString) (mode : CompileMode) :
    argumentsAreModeled (pre ++ (s ++ post)) outputRoot hostTriple paths mode
      = (argumentsAreModeled (pre ++ post) outputRoot hostTriple paths mode && !rejected) := by
  have hmem : "--target".toList ∈ pairedOptions := by decide
  have hnone : s.findSome? (stripPrefix "--target=") = none :=
    List.findSome?_eq_none_iff.mpr hs.target
  have htarget : actionTarget (pre ++ (s ++ post)) hostTriple
      = actionTarget (pre ++ post) hostTriple := by
    rw [actionTarget, actionTarget, followers_insert hpre hs.quiet.complete post hmem,
      hs.targetPair, List.nil_append, ← followers_append (hpre _ hmem)]
    simp only [List.findSome?_append, hnone, Option.none_or]
  rw [argumentsAreModeled, argumentsAreModeled, htarget,
    optionsAreModeled_insert hpre hs.quiet post outputRoot paths mode, hs.rejected_eq,
    Bool.and_assoc]

/-! ## 3. Rejected spellings -/

/-- The tests of which each rejects an argument on its own. -/
def rejectingTests : List (Text → Bool) := [
  unmodeledArgument, unmodeledLinkOrUnstable, (startsWith · "--extern="), (startsWith · "-l"),
  (fun arg => arg != "-L" && startsWith arg "-L")]

variable {a value : Text}

theorem rejected_of_argument (htest : test ∈ rejectingTests)
    {args : List Text} (ha : a ∈ args) (h : test a = true) (outputRoot hostTriple : Text)
    (paths : List OsString) (mode : CompileMode) :
    argumentsAreModeled args outputRoot hostTriple paths mode = false := by
  have hany : args.any test = true := any_eq_true.mpr ⟨a, ha, h⟩
  unfold argumentsAreModeled optionsAreModeled
  simp only [rejectingTests, mem_cons, not_mem_nil, or_false] at htest
  rcases htest with rfl | rfl | rfl | rfl | rfl <;>
    simp only [hany, Bool.not_true, Bool.and_false, Bool.false_and]

theorem rejected_of_pair {pre post args : List Text}
    (hargs : args = pre ++ name :: value :: post)
    (h : name = "--emit" ∨ name = "--sysroot" ∨ (name = "-Z" ∧ modeledUnstableFlag value = false))
    (outputRoot hostTriple : Text) (paths : List OsString) (mode : CompileMode) :
    argumentsAreModeled args outputRoot hostTriple paths mode = false := by
  have hmem : value ∈ followers name args := mem_followers_iff.mpr ⟨pre, post, hargs⟩
  have hne : (followers name args).isEmpty = false := by
    cases hf : followers name args with
    | nil => rw [hf] at hmem; cases hmem
    | cons => rfl
  unfold argumentsAreModeled optionsAreModeled
  rcases h with rfl | rfl | ⟨rfl, h⟩
  · simp only [hne, Bool.and_false, Bool.false_and]
  · simp only [hne, Bool.and_false, Bool.false_and]
  · have hany : ((followers "-Z".toList args).any fun flag => !modeledUnstableFlag flag) = true :=
      List.any_eq_true.mpr ⟨value, hmem, by rw [h]; rfl⟩
    simp only [hany, Bool.not_true, Bool.and_false]

/-! ## 4. Silent arguments -/

theorem startsWith_of_head {t : Text} {c : Char} (h : t.head? ≠ some c) (pre : Text) :
    startsWith t (c :: pre) = false := by
  cases t with
  | nil => rfl
  | cons d t =>
    have hne : c ≠ d := fun heq => h (by rw [heq]; rfl)
    simp [startsWith, List.isPrefixOf, hne]

theorem stripPrefix_of_not {pre t : Text} (h : startsWith t pre = false) :
    stripPrefix pre t = none := by
  rw [← Bool.not_eq_true] at h
  exact if_neg h

/-- A value that does not look like an option or a file of arguments. -/
structure Word (value : Text) : Prop where
  dash : value.head? ≠ some '-'
  file : value.head? ≠ some '@'

/-- Arguments that are looked at alone and for nothing but what rejects them. -/
def isSilent (a : Text) : Bool :=
  pairedOptions.all (· != a) && argumentTests.all (fun test => !test a) &&
    (stripPrefix "--target=" a).isNone

theorem Word.isSilent (h : Word value) : isSilent value = true := by
  cases value with
  | nil => rfl
  | cons c t =>
    have hdash : c ≠ '-' := fun heq => h.dash (by rw [heq]; rfl)
    have hfile : c ≠ '@' := fun heq => h.file (by rw [heq]; rfl)
    simp [ArtifactCache.isSilent, pairedOptions, argumentTests, startsWith, stripPrefix,
      isPrefixOf, hdash, hdash.symm, hfile.symm]

theorem Word.unmodeledArgument (h : Word value) :
    unmodeledArgument value = false := by
  cases value with
  | nil => rfl
  | cons c t =>
    have hdash : c ≠ '-' := fun heq => h.dash (by rw [heq]; rfl)
    simp [ArtifactCache.unmodeledArgument, startsWith, stripPrefix, isPrefixOf, hdash,
      hdash.symm]

theorem Word.unmodeledLinkOrUnstable (h : Word value) :
    unmodeledLinkOrUnstable value
      = (startsWith value "link-arg=" || startsWith value "link-args=") := by
  cases value with
  | nil => rfl
  | cons c t =>
    have hdash : '-' ≠ c := fun heq => h.dash (by rw [heq]; rfl)
    rw [ArtifactCache.unmodeledLinkOrUnstable]
    have hrest : (startsWith (c :: t) "-Clink-arg=" = false ∧
        startsWith (c :: t) "-Clink-args=" = false) ∧ stripPrefix "-Z" (c :: t) = none := by
      simp [startsWith, stripPrefix, isPrefixOf, hdash]
    simp only [hrest.1.1, hrest.1.2, hrest.2, Option.any_none, Bool.and_false, Bool.or_false]

theorem isSilent_iff : isSilent a = true ↔
    (∀ name ∈ pairedOptions, name ≠ a) ∧ (∀ test ∈ argumentTests, test a = false) ∧
      stripPrefix "--target=" a = none := by
  simp only [isSilent, Bool.and_eq_true, List.all_eq_true, bne_iff_ne, ne_eq,
    Bool.not_eq_true', Option.isNone_iff_eq_none, and_assoc]

/-- An option in one argument. -/
theorem adds_joined {a : Text} (ha : isSilent a = true) :
    Adds [a] (unmodeledArgument a || unmodeledLinkOrUnstable a) := by
  obtain ⟨hpaired, htests, htarget⟩ := isSilent_iff.mp ha
  refine ⟨⟨?_, fun _ _ _ => rfl, ?_⟩, ?_, ?_, rfl⟩
  · intro name hname heq
    exact hpaired name hname (Option.some.inj heq).symm
  · intro test htest a' ha'
    rw [List.mem_singleton.mp ha']
    exact htests test htest
  · simp [isRejected]
  · intro a' ha'
    rw [List.mem_singleton.mp ha']
    exact htarget

/-- An option in two arguments. -/
theorem adds_separate {a value : Text} (ha : argumentTests.all (fun test => !test a) = true)
    (hname : a ∉ pairedOptions ∨ a = "-C" ∨ a = "-Z") (htarget : stripPrefix "--target=" a = none)
    (hvalue : isSilent value = true) : Adds [a, value] (isRejected [a, value]) := by
  obtain ⟨hpaired, htests, htargetValue⟩ := isSilent_iff.mp hvalue
  have hfollowers : ∀ name ∈ pairedOptions, name ∉ "-C".toList :: "-Z".toList :: [] →
      followers name [a, value] = [] := by
    intro name hmem hother
    rw [followers_cons_cons, if_neg, followers_singleton]
    rintro rfl
    rcases hname with hname | rfl | rfl
    · exact hname hmem
    · exact hother (by decide)
    · exact hother (by decide)
  refine ⟨⟨?_, ?_, ?_⟩, rfl, ?_, hfollowers _ (by decide) (by decide)⟩
  · intro name hmem heq
    exact hpaired name hmem (Option.some.inj heq).symm
  · intro name hmem hother
    exact hfollowers name hmem fun h => hother (by simp_all [separateOptions])
  · intro test htest a' ha'
    rcases mem_cons.mp ha' with rfl | ha'
    · have htest' := all_eq_true.mp ha test htest
      rwa [Bool.not_eq_true'] at htest'
    · rw [mem_singleton.mp ha']
      exact htests test htest
  · intro a' ha'
    rcases mem_cons.mp ha' with rfl | ha'
    · exact htarget
    · rw [mem_singleton.mp ha']
      exact htargetValue

/-! ## 5. Options on which nothing depends -/

/-- The options that the admission test does not look for. -/
def plainOptions : List ValueOption := [
  ⟨"", "cfg"⟩, ⟨"", "check-cfg"⟩, ⟨"", "crate-name"⟩, ⟨"", "edition"⟩, ⟨"", "explain"⟩,
  ⟨"A", "allow"⟩, ⟨"W", "warn"⟩, ⟨"", "force-warn"⟩, ⟨"D", "deny"⟩, ⟨"F", "forbid"⟩,
  ⟨"", "cap-lints"⟩, ⟨"", "error-format"⟩, ⟨"", "json"⟩, ⟨"", "color"⟩, ⟨"", "diagnostic-width"⟩,
  ⟨"", "remap-path-prefix"⟩, ⟨"", "remap-path-scope"⟩, ⟨"", "env-set"⟩]

/-- A value that looks like nothing that the test looks for. -/
structure Plain (value : Text) : Prop extends Word value where
  linkArg : startsWith value "link-arg=" = false
  linkArgs : startsWith value "link-args=" = false

theorem Plain.not_link (h : Plain value) :
    ArtifactCache.unmodeledLinkOrUnstable value = false := by
  rw [h.toWord.unmodeledLinkOrUnstable, h.linkArg, h.linkArgs, Bool.or_false]

/-- The names of these options are rejected by no test. -/
theorem plain_separate (ha : argumentTests.all (fun test => !test a) = true)
    (hname : a ∉ pairedOptions) (htarget : stripPrefix "--target=" a = none)
    (hrejected : (unmodeledArgument a || unmodeledLinkOrUnstable a) = false) (hvalue : Plain value) :
    Adds [a, value] false := by
  have hadds := adds_separate ha (Or.inl hname) htarget hvalue.isSilent
  have hno : ∀ name ∈ pairedOptions, followers name [a, value] = [] := by
    intro name hmem
    rw [followers_cons_cons, if_neg, followers_singleton]
    rintro rfl
    exact hname hmem
  rw [Bool.or_eq_false_iff] at hrejected
  have hfalse : isRejected [a, value] = false := by
    rw [isRejected, hno "-C".toList (by decide), hno "-Z".toList (by decide),
      hno "--target".toList (by decide)]
    simp only [any_cons, any_nil, hrejected.1, hrejected.2,
      hvalue.toWord.unmodeledArgument, hvalue.not_link, Bool.or_false]
  rwa [hfalse] at hadds

/-- The name of an option, and the name joined with a value, is looked at for nothing. -/
theorem plain_names : ∀ o ∈ plainOptions, ∀ a ∈ ['-' :: o.short, '-' :: '-' :: o.long],
    (argumentTests.all (fun test => !test a) = true ∧ a ∉ pairedOptions ∧
      stripPrefix "--target=" a = none) ∧
      (unmodeledArgument a || unmodeledLinkOrUnstable a) = false := by
  decide +kernel

variable {o : ValueOption}

theorem plain_joined (ho : o ∈ plainOptions) (value : Text) :
    (o.short ≠ [] → isSilent (('-' :: o.short) ++ value) = true ∧
      (unmodeledArgument (('-' :: o.short) ++ value) ||
        unmodeledLinkOrUnstable (('-' :: o.short) ++ value)) = false) ∧
    (isSilent (('-' :: '-' :: o.long) ++ '=' :: value) = true ∧
      (unmodeledArgument (('-' :: '-' :: o.long) ++ '=' :: value) ||
        unmodeledLinkOrUnstable (('-' :: '-' :: o.long) ++ '=' :: value)) = false) := by
  simp only [plainOptions, List.mem_cons, List.not_mem_nil, or_false] at ho
  rcases ho with rfl | rfl | rfl | rfl | rfl | rfl | rfl | rfl | rfl | rfl | rfl | rfl | rfl |
    rfl | rfl | rfl | rfl | rfl <;>
    first
      | exact ⟨fun h => absurd rfl h, rfl, rfl⟩
      | exact ⟨fun _ => ⟨rfl, rfl⟩, rfl, rfl⟩

/-- **An option that the test does not look for adds nothing, however it is spelled.** -/
theorem plain_adds (ho : o ∈ plainOptions) {value : Text} (hvalue : Plain value)
    {s : List Text} (hs : Spells o value s) : Adds s false := by
  have hnames := plain_names o ho
  have hjoined := plain_joined ho value
  cases hs with
  | shortJoined h _ =>
    have hadds := adds_joined (hjoined.1 h).1
    rwa [(hjoined.1 h).2] at hadds
  | shortSeparate h =>
    obtain ⟨⟨htests, hname, htarget⟩, hrejected⟩ := hnames _ List.mem_cons_self
    exact plain_separate htests hname htarget hrejected hvalue
  | longJoined h =>
    have hadds := adds_joined hjoined.2.1
    rwa [hjoined.2.2] at hadds
  | longSeparate h =>
    obtain ⟨⟨htests, hname, htarget⟩, hrejected⟩ :=
      hnames _ (List.mem_cons_of_mem _ List.mem_cons_self)
    exact plain_separate htests hname htarget hrejected hvalue

/-! ## 6. Codegen options -/

/-- Whether a codegen option is rejected. -/
def codegenRejected (value : Text) : Bool :=
  unmodeledCodegenBehaviorFlag value || startsWith value "link-arg=" || startsWith value "link-args="

/-- The names of codegen options. -/
theorem codegenOption_shape : ∀ option ∈ CODEGEN_OPTIONS, '=' ∉ option ∧
    (option ≠ [] ∧ option.head? ≠ some '_' ∧ option.head? ≠ some '@') ∧
    ("save_temps".toList <+: option → option = "save_temps".toList) := by
  decide +kernel

theorem equals_not_mem (h : withUnderscores name ∈ CODEGEN_OPTIONS) : '=' ∉ name := by
  intro hmem
  have hin : '=' ∈ withUnderscores name := List.mem_map.mpr ⟨'=', hmem, rfl⟩
  exact (codegenOption_shape _ h).1 hin

theorem splitOnce_optionText (h : '=' ∉ name) (value : Option Text) :
    splitOnce '=' (optionText name value) = value.map fun value => (name, value) := by
  cases value with
  | none =>
    rw [optionText, Option.elim_none, List.append_nil]
    exact splitOnce_eq_none h
  | some value => exact splitOnce_append value h

/-- The test on the name of a codegen option and its value. -/
theorem unmodeled_optionText (h : '=' ∉ name) (value : Option Text) :
    unmodeledCodegenBehaviorFlag (optionText name value)
      = ([("profile-use" : Text), "profile-sample-use", "llvm-args", "save-temps"].contains
          (withDashes name) || (withDashes name == "target-cpu" && value == some "native")) := by
  unfold unmodeledCodegenBehaviorFlag
  rw [splitOnce_optionText h]
  cases value with
  | none => simp [optionText]
  | some value => rfl

theorem withDashes_withUnderscores (name : Text) :
    withDashes (withUnderscores name) = withDashes name := by
  simp only [withDashes, withUnderscores, List.map_map]
  refine List.map_congr_left fun c _ => ?_
  by_cases hc : c = '-'
  · simp [hc]
  · simp [hc]

/-- The test is on the name that rustc knows. -/
theorem unmodeled_congr {name name' : Text} (value : Option Text) (hname : '=' ∉ name)
    (hname' : '=' ∉ name') (hsame : withUnderscores name = withUnderscores name') :
    unmodeledCodegenBehaviorFlag (optionText name value)
      = unmodeledCodegenBehaviorFlag (optionText name' value) := by
  rw [unmodeled_optionText hname, unmodeled_optionText hname', ← withDashes_withUnderscores name,
    hsame, withDashes_withUnderscores]

/-- What begins with a name and `=` has that name. -/
theorem name_of_startsWith {name lit : Text} {value : Option Text} (hname : '=' ∉ name)
    (hlit : '=' ∉ lit) (h : startsWith (optionText name value) (lit ++ ['=']) = true) :
    name = lit := by
  obtain ⟨rest, hrest⟩ := List.isPrefixOf_iff_prefix.mp h
  have hsplit := splitOnce_optionText hname value
  rw [← hrest, List.append_assoc, List.singleton_append, splitOnce_append rest hlit] at hsplit
  cases value with
  | none => cases hsplit
  | some value => exact (Prod.ext_iff.mp (Option.some.inj hsplit)).1.symm

/-- What begins like `save-temps` is `save-temps`. -/
theorem saveTemps_of_startsWith {value : Text} (hvalue : IsCodegenValue value)
    (h : startsWith value "save-temps" = true) : unmodeledCodegenBehaviorFlag value = true := by
  obtain ⟨name, value, rfl, hmem⟩ := hvalue
  have hname := equals_not_mem hmem
  have hpre : "save-temps".toList <+: name := by
    have hall := List.isPrefixOf_iff_prefix.mp h
    rcases List.prefix_or_prefix_of_prefix hall (List.prefix_append name _) with hpre | hpre
    · exact hpre
    · -- the name cannot be shorter, because `=` would follow it
      obtain ⟨more, hmore⟩ := hpre
      cases more with
      | nil =>
        rw [List.append_nil] at hmore
        exact hmore ▸ List.prefix_refl _
      | cons c more =>
        exfalso
        rw [← hmore, optionText, List.prefix_append_right_inj] at hall
        cases value with
        | none => simp at hall
        | some value =>
          obtain rfl : c = '=' := (List.cons_prefix_cons.mp hall).1
          have hin : '=' ∈ "save-temps".toList := hmore ▸ by simp
          revert hin
          decide
  have hunder : withUnderscores "save-temps" <+: withUnderscores name := hpre.map _
  rw [unmodeled_optionText hname, ← withDashes_withUnderscores,
    (codegenOption_shape _ hmem).2.2 hunder]
  rfl

theorem IsCodegenValue.word {value : Text} (h : IsCodegenValue value) : Word value := by
  obtain ⟨name, value, rfl, hmem⟩ := h
  obtain ⟨hne, hdash, hfile⟩ := (codegenOption_shape _ hmem).2.1
  cases name with
  | nil => exact absurd rfl hne
  | cons c name =>
    constructor
    · intro heq
      obtain rfl : c = '-' := Option.some.inj heq
      exact hdash rfl
    · intro heq
      obtain rfl : c = '@' := Option.some.inj heq
      exact hfile rfl

/-- A codegen option in one argument. -/
theorem rejected_codegenJoined {value : Text} (hvalue : IsCodegenValue value) :
    (unmodeledArgument ('-' :: 'C' :: value) || unmodeledLinkOrUnstable ('-' :: 'C' :: value))
      = codegenRejected value := by
  have hbehavior : unmodeledArgument ('-' :: 'C' :: value)
      = (('-' :: 'C' :: value == "-Csave-temps".toList ||
          startsWith ('-' :: 'C' :: value) "-Csave-temps=") ||
          unmodeledCodegenBehaviorFlag value) := rfl
  have hlink : unmodeledLinkOrUnstable ('-' :: 'C' :: value)
      = ((startsWith value "link-arg=" || startsWith value "link-args=") ||
          ('-' :: 'C' :: value != "-Z".toList && false)) := rfl
  have hsave : ('-' :: 'C' :: value == "-Csave-temps".toList ||
      startsWith ('-' :: 'C' :: value) "-Csave-temps=") = true →
        unmodeledCodegenBehaviorFlag value = true := by
    intro h
    refine saveTemps_of_startsWith hvalue ?_
    rcases (Bool.or_eq_true _ _).mp h with h | h
    · have heq : value = "save-temps".toList := (List.cons.inj (List.cons.inj (beq_iff_eq.mp h)).2).2
      rw [heq]
      decide
    · have hlong : "save-temps=".toList <+: value := List.isPrefixOf_iff_prefix.mp h
      have hshort : "save-temps".toList <+: "save-temps=".toList := by decide
      exact List.isPrefixOf_iff_prefix.mpr (hshort.trans hlong)
  rw [hbehavior, hlink, Bool.or_eq_right_iff_imp.mpr hsave, Bool.and_false, Bool.or_false,
    codegenRejected, Bool.or_assoc]

/-- A codegen option in two arguments. -/
theorem rejected_codegenSeparate {value : Text} (hvalue : IsCodegenValue value) :
    isRejected ["-C", value] = codegenRejected value := by
  have hpair : isRejected ["-C", value]
      = (((((false || (unmodeledArgument value || false)) ||
          (false || (unmodeledLinkOrUnstable value || false))) ||
          ((startsWith value "save-temps" || unmodeledCodegenBehaviorFlag value) || false)) ||
          false) || false) := rfl
  rw [hpair, hvalue.word.unmodeledArgument, hvalue.word.unmodeledLinkOrUnstable,
    Bool.or_eq_right_iff_imp.mpr (saveTemps_of_startsWith hvalue)]
  simp only [Bool.or_false, Bool.false_or]
  rw [codegenRejected, Bool.or_comm, Bool.or_assoc]

/-- **A codegen option adds the same in one argument and in two.** -/
theorem codegen_adds {value : Text} (hvalue : IsCodegenValue value) :
    (value ≠ [] → Adds ['-' :: 'C' :: value] (codegenRejected value)) ∧
      Adds ["-C", value] (codegenRejected value) := by
  constructor
  · intro hne
    obtain ⟨c, rest, rfl⟩ := List.exists_cons_of_ne_nil hne
    have hadds : Adds ['-' :: 'C' :: c :: rest] _ := adds_joined rfl
    rwa [rejected_codegenJoined hvalue] at hadds
  · have hadds : Adds ["-C", value] _ :=
      adds_separate (by decide) (by decide) (by decide) hvalue.word.isSilent
    rwa [rejected_codegenSeparate hvalue] at hadds

/-! ## 7. Unstable options -/

variable {flag : Text}

theorem head_of_modeled (h : modeledUnstableFlag flag = true) :
    ∃ c rest, flag = c :: rest ∧ (c = 'c' ∨ c = 'p') := by
  cases flag with
  | nil => cases h
  | cons c flag =>
    refine ⟨c, flag, rfl, ?_⟩
    by_contra hne
    rw [not_or] at hne
    revert h
    simp [modeledUnstableFlag, modeledSysrootCodegenBackendFlag, stripPrefix, hne.1, hne.2,
      Ne.symm hne.1]

theorem plain_of_modeled (h : modeledUnstableFlag flag = true) : Plain flag := by
  obtain ⟨c, rest, rfl, rfl | rfl⟩ := head_of_modeled h <;>
    exact ⟨⟨by simp, by simp⟩, rfl, rfl⟩

/-- **A modelled unstable option adds nothing.** -/
theorem unstable_adds (h : modeledUnstableFlag flag = true) :
    Adds ['-' :: 'Z' :: flag] false ∧ Adds ["-Z", flag] false := by
  have hplain := plain_of_modeled h
  constructor
  · have hlink : unmodeledLinkOrUnstable ('-' :: 'Z' :: flag)
        = ('-' :: 'Z' :: flag != "-Z".toList && !modeledUnstableFlag flag) := rfl
    have hsilent : isSilent ('-' :: 'Z' :: flag) = true ∧
        unmodeledArgument ('-' :: 'Z' :: flag) = false := by
      obtain ⟨c, rest, rfl, rfl | rfl⟩ := head_of_modeled h <;> exact ⟨rfl, rfl⟩
    have hadds := adds_joined hsilent.1
    rwa [hlink, h, hsilent.2, Bool.not_true, Bool.and_false, Bool.or_false] at hadds
  · have hpair : isRejected ["-Z", flag]
        = (((((false || (unmodeledArgument flag || false)) ||
            (false || (unmodeledLinkOrUnstable flag || false))) ||
            false) || false) || (!modeledUnstableFlag flag || false)) := rfl
    have hadds : Adds ["-Z", flag] _ :=
      adds_separate (by decide) (by decide) (by decide) hplain.isSilent
    rwa [hpair, hplain.toWord.unmodeledArgument, hplain.not_link, h] at hadds

/-! ## 8. Targets -/

/-- The target of a command and what rejects it do not depend on the spelling. -/
theorem target_adds {value : Text} (hvalue : Plain value) :
    (Quiet ["--target=".toList ++ value] ∧
      isRejected ["--target=".toList ++ value] = customTargetSpecFlag value) ∧
    (Quiet ["--target", value] ∧ isRejected ["--target", value] = customTargetSpecFlag value) := by
  obtain ⟨hpaired, htests, _⟩ := isSilent_iff.mp hvalue.isSilent
  refine ⟨⟨⟨?_, fun _ _ _ => rfl, ?_⟩, ?_⟩, ⟨?_, ?_, ?_⟩, ?_⟩
  · intro name hname heq
    have hall : pairedOptions.all (· != "--target=".toList ++ value) = true := rfl
    exact bne_iff_ne.mp (List.all_eq_true.mp hall name hname) (Option.some.inj heq).symm
  · intro test htest a ha
    obtain rfl := List.mem_singleton.mp ha
    have hall : argumentTests.all (fun test => !test ("--target=".toList ++ value)) = true := rfl
    have htest' := all_eq_true.mp hall test htest
    rwa [Bool.not_eq_true'] at htest'
  · have hargument : unmodeledArgument ("--target=".toList ++ value)
        = (customTargetSpecFlag value || false || false || false || false || false || false ||
            false || false || false) := rfl
    have hlink : unmodeledLinkOrUnstable ("--target=".toList ++ value) = false := rfl
    have hadds : isRejected ["--target=".toList ++ value]
        = ((((unmodeledArgument ("--target=".toList ++ value) || false) ||
            (unmodeledLinkOrUnstable ("--target=".toList ++ value) || false)) || false) || false ||
            false) := rfl
    rw [hadds, hargument, hlink]
    simp only [Bool.or_false]
  · intro name hname heq
    exact hpaired name hname (Option.some.inj heq).symm
  · intro name hmem hother
    rw [followers_cons_cons, if_neg, followers_singleton]
    rintro rfl
    exact hother (by decide)
  · intro test htest a ha
    rcases List.mem_cons.mp ha with rfl | ha
    · revert htest
      have hall : argumentTests.all (fun test => !test "--target") = true := by decide
      intro htest
      have htest' := all_eq_true.mp hall test htest
      rwa [Bool.not_eq_true'] at htest'
    · rw [mem_singleton.mp ha]
      exact htests test htest
  · have hpair : isRejected ["--target", value]
        = (((((false || (unmodeledArgument value || false)) ||
            (false || (unmodeledLinkOrUnstable value || false))) ||
            false) || (customTargetSpecFlag value || false)) || false) := rfl
    rw [hpair, hvalue.toWord.unmodeledArgument, hvalue.not_link]
    simp only [Bool.or_false, Bool.false_or]

end

/-! ## 9. The result -/

/-- Spellings that are rejected whatever the value is. -/
inductive Unsupported (o : ValueOption) (value : Text) : List Text → Prop
  | searchPath (h : o.short = "L") : Unsupported o value [('-' :: o.short) ++ value]
  | joined (h : o.long = "crate-type" ∨ o.long = "out-dir" ∨ o.long = "extern") :
      Unsupported o value [('-' :: '-' :: o.long) ++ '=' :: value]
  | emit (h : o.long = "emit") : Unsupported o value ['-' :: '-' :: o.long, value]

/-- A spelling `s` of an option between other arguments, and what makes it safe to write `s'`
instead. -/
structure Replacement (pre post : List Text) (o : ValueOption) (value value' : Text)
    (s s' : List Text) : Prop where
  option_mem : o ∈ VALUE_OPTIONS
  spells : Spells o value s
  spells' : Spells o value' s'
  same : SameValue o value value'
  /-- It is not the value of the option before it. -/
  complete : Complete pre
  supported : ¬ Unsupported o value s
  /-- Codegen options are written with `-C`. -/
  codegen : o.short = "C" → IsCodegenValue value ∧ IsCodegenValue value' ∧
    (∀ a ∈ s ++ s', startsWith a "--codegen" = false)
  /-- The name of `link-arg` and `link-args` stays as it is. -/
  link : o.short = "C" → value = value' ∨ ∀ name v, value = optionText name v →
    withUnderscores name ≠ "link_arg" ∧ withUnderscores name ≠ "link_args"
  unstable : o.short = "Z" → value = value' ∨ modeledUnstableFlag value = true
  plain : o.short ≠ "C" → o.short ≠ "Z" → Plain value
  /-- rustc takes one target. -/
  target : o.long = "target" → (pre ++ post).findSome? (stripPrefix "--target=") = none ∧
    followers "--target".toList (pre ++ post) = []

/-- What an accepted command does not ask for. -/
structure AsksForNothingUnmodeled (args : List Text) : Prop where
  codegen : ∀ name value, '=' ∉ name →
    (withUnderscores name ∈ [("profile_use" : Text), "profile_sample_use", "llvm_args", "save_temps"] ∨
      (withUnderscores name = "target_cpu" ∧ value = some "native".toList)) →
    '-' :: 'C' :: optionText name value ∉ args ∧ optionText name value ∉ followers "-C".toList args
  targetSpec : ∀ value, endsWith value ".json" = true →
    "--target=".toList ++ value ∉ args ∧ value ∉ followers "--target".toList args
  sysroot : ∀ value, "--sysroot=".toList ++ value ∉ args ∧ value ∉ followers "--sysroot".toList args
  oneEmit : args.countP (startsWith · "--emit=") = 1 ∧ followers "--emit".toList args = []
  oneOutDir : (followers "--out-dir".toList args).length = 1 ∧
    ∀ value, "--out-dir=".toList ++ value ∉ args
  unstable : ∀ flag, modeledUnstableFlag flag = false →
    (flag ≠ [] → '-' :: 'Z' :: flag ∉ args) ∧ flag ∉ followers "-Z".toList args

theorem SameValue.eq {o : ValueOption} {value value' : Text} (h : SameValue o value value')
    (hC : o.short ≠ "C") (hZ : o.short ≠ "Z") : value = value' := by
  cases h with
  | refl => rfl
  | names h => exact absurd h (not_or.mpr ⟨hC, hZ⟩)

/-- The conditions of a codegen option do not depend on the spelling of its name. -/
theorem codegenRejected_congr {o : ValueOption} {value value' : Text} (h : SameValue o value value')
    (hvalue : IsCodegenValue value) (hlink : value = value' ∨ ∀ name v, value = optionText name v →
      withUnderscores name ≠ "link_arg" ∧ withUnderscores name ≠ "link_args") :
    codegenRejected value = codegenRejected value' := by
  cases h with
  | refl => rfl
  | @names _ name name' v hname hname' hsame =>
    rcases hlink with heq | hlink
    · rw [heq]
    · obtain ⟨harg, hargs⟩ := hlink name v rfl
      have hno : ∀ {n : Text}, '=' ∉ n → withUnderscores n = withUnderscores name →
          startsWith (optionText n v) "link-arg=" = false ∧
            startsWith (optionText n v) "link-args=" = false := by
        intro n hn hsame'
        constructor
        · rw [← Bool.not_eq_true]
          intro hstarts
          obtain rfl : n = "link-arg".toList := name_of_startsWith hn (by decide) hstarts
          exact harg (hsame'.symm.trans (by decide))
        · rw [← Bool.not_eq_true]
          intro hstarts
          obtain rfl : n = "link-args".toList := name_of_startsWith hn (by decide) hstarts
          exact hargs (hsame'.symm.trans (by decide))
      rw [codegenRejected, codegenRejected, unmodeled_congr v hname hname' hsame,
        (hno hname rfl).1, (hno hname rfl).2, (hno hname' hsame.symm).1, (hno hname' hsame.symm).2]

/-- The options that take a value. -/
theorem option_cases : ∀ o ∈ VALUE_OPTIONS, o ∈ plainOptions ∨ o = ⟨"C", "codegen"⟩ ∨ o = ⟨"Z", ""⟩ ∨
    o = ⟨"", "target"⟩ ∨ o = ⟨"L", ""⟩ ∨ o = ⟨"l", ""⟩ ∨ o = ⟨"o", ""⟩ ∨ o = ⟨"", "print"⟩ ∨
    o = ⟨"", "sysroot"⟩ ∨ o = ⟨"", "emit"⟩ ∨ o = ⟨"", "crate-type"⟩ ∨ o = ⟨"", "out-dir"⟩ ∨
    o = ⟨"", "extern"⟩ := by
  decide +kernel

section

variable {pre post : List Text} {value value' : Text} {s s' : List Text}

theorem keeps_codegen (h : Replacement pre post ⟨"C", "codegen"⟩ value value' s s')
    (outputRoot hostTriple : Text) (paths : List OsString) (mode : CompileMode) :
    argumentsAreModeled (pre ++ (s ++ post)) outputRoot hostTriple paths mode
      = argumentsAreModeled (pre ++ (s' ++ post)) outputRoot hostTriple paths mode := by
  obtain ⟨hvalue, hvalue', hshort⟩ := h.codegen rfl
  have hadds : ∀ {v : Text} {t : List Text}, IsCodegenValue v → Spells ⟨"C", "codegen"⟩ v t →
      (∀ a ∈ t, startsWith a "--codegen" = false) → Adds t (codegenRejected v) := by
    intro v t hv ht hno
    cases ht with
    | shortJoined _ hne => exact (codegen_adds hv).1 hne
    | shortSeparate => exact (codegen_adds hv).2
    | longJoined => exact absurd (hno _ mem_cons_self) (by simp [startsWith])
    | longSeparate => exact absurd (hno _ mem_cons_self) (by decide)
  rw [argumentsAreModeled_insert h.complete (hadds hvalue h.spells fun a ha =>
      hshort a (mem_append_left _ ha)),
    argumentsAreModeled_insert h.complete (hadds hvalue' h.spells' fun a ha =>
      hshort a (mem_append_right _ ha)),
    codegenRejected_congr h.same hvalue (h.link rfl)]

theorem keeps_target (h : Replacement pre post ⟨"", "target"⟩ value value' s s')
    (outputRoot hostTriple : Text) (paths : List OsString) (mode : CompileMode) :
    argumentsAreModeled (pre ++ (s ++ post)) outputRoot hostTriple paths mode
      = argumentsAreModeled (pre ++ (s' ++ post)) outputRoot hostTriple paths mode := by
  obtain rfl := h.same.eq (by decide) (by decide)
  have hplain := h.plain (by decide) (by decide)
  obtain ⟨hother, hpair⟩ := h.target rfl
  have hform : ∀ {t : List Text}, Spells ⟨"", "target"⟩ value t →
      argumentsAreModeled (pre ++ (t ++ post)) outputRoot hostTriple paths mode
        = (!windowsGnuTarget value && (optionsAreModeled (pre ++ post) outputRoot paths mode &&
            !customTargetSpecFlag value)) := by
    intro t ht
    obtain ⟨⟨hjoined, hjoinedRejected⟩, hseparate, hseparateRejected⟩ := target_adds hplain
    cases ht with
    | shortJoined hne => exact absurd rfl hne
    | shortSeparate hne => exact absurd rfl hne
    | longJoined =>
      change argumentsAreModeled (pre ++ (["--target=".toList ++ value] ++ post)) _ _ _ _ = _
      have htarget : actionTarget ["--target=".toList ++ value] hostTriple = value := rfl
      rw [argumentsAreModeled, actionTarget_insert h.complete hjoined.complete post hostTriple hother
        hpair, htarget, optionsAreModeled_insert h.complete hjoined, hjoinedRejected]
    | longSeparate =>
      change argumentsAreModeled (pre ++ (["--target".toList, value] ++ post)) _ _ _ _ = _
      have hnone : stripPrefix "--target=" value = none :=
        stripPrefix_of_not (startsWith_of_head hplain.dash _)
      have htarget : actionTarget ["--target".toList, value] hostTriple = value := by
        have hstrip : ["--target".toList, value].findSome? (stripPrefix "--target=") = none := by
          rw [findSome?_eq_none_iff]
          intro a ha
          rcases mem_cons.mp ha with rfl | ha
          · decide
          · rw [mem_singleton.mp ha]
            exact hnone
        rw [actionTarget, hstrip]
        rfl
      rw [argumentsAreModeled, actionTarget_insert h.complete hseparate.complete post hostTriple
        hother hpair, htarget, optionsAreModeled_insert h.complete hseparate, hseparateRejected]
  rw [hform h.spells, hform h.spells']

theorem keeps_unstable (h : Replacement pre post ⟨"Z", ""⟩ value value' s s')
    (outputRoot hostTriple : Text) (paths : List OsString) (mode : CompileMode)
    (hrejected : argumentsAreModeled (pre ++ (s ++ post)) outputRoot hostTriple paths mode = false) :
    argumentsAreModeled (pre ++ (s' ++ post)) outputRoot hostTriple paths mode = false := by
  cases hmodeled : modeledUnstableFlag value' with
  | false =>
    cases h.spells' with
    | shortJoined _ hne =>
      have htest : unmodeledLinkOrUnstable ∈ rejectingTests := by simp [rejectingTests]
      refine rejected_of_argument htest (mem_append_right _ mem_cons_self) ?_ _ _ _ _
      have hlink : unmodeledLinkOrUnstable ('-' :: 'Z' :: value')
          = ('-' :: 'Z' :: value' != "-Z".toList && !modeledUnstableFlag value') := rfl
      have hlong : ('-' :: 'Z' :: value' != "-Z".toList) = true := by
        refine bne_iff_ne.mpr fun heq => hne ?_
        exact (List.cons.inj (List.cons.inj heq).2).2
      exact hlink.trans (by rw [hlong, hmodeled]; rfl)
    | shortSeparate => exact rejected_of_pair rfl (.inr (.inr ⟨rfl, hmodeled⟩)) _ _ _ _
    | longJoined hne => exact absurd rfl hne
    | longSeparate hne => exact absurd rfl hne
  | true =>
    have hform : ∀ {v : Text} {t : List Text}, modeledUnstableFlag v = true →
        Spells ⟨"Z", ""⟩ v t → Adds t false := by
      intro v t hv ht
      cases ht with
      | shortJoined => exact (unstable_adds hv).1
      | shortSeparate => exact (unstable_adds hv).2
      | longJoined hne => exact absurd rfl hne
      | longSeparate hne => exact absurd rfl hne
    have hvalue : modeledUnstableFlag value = true := by
      rcases h.unstable rfl with heq | hvalue
      · rw [heq, hmodeled]
      · exact hvalue
    rw [argumentsAreModeled_insert h.complete (hform hvalue h.spells)] at hrejected
    rw [argumentsAreModeled_insert h.complete (hform hmodeled h.spells'), hrejected]

/-- Arguments with which a command is rejected. -/
def Rejects (s : List Text) : Prop :=
  (∃ test ∈ rejectingTests, ∃ a ∈ s, test a = true) ∨
    ∃ name v, s = [name, v] ∧ (name = "--emit" ∨ name = "--sysroot")

theorem rejects_of_argument {a : Text} (h : unmodeledArgument a = true) (rest : List Text) :
    Rejects (a :: rest) :=
  Or.inl ⟨_, List.mem_cons_self, a, List.mem_cons_self, h⟩

variable {o : ValueOption}

/-- Options that are rejected in every spelling. -/
theorem rejects_always
    (ho : o = ⟨"l", ""⟩ ∨ o = ⟨"o", ""⟩ ∨ o = ⟨"", "print"⟩ ∨ o = ⟨"", "sysroot"⟩)
    (hs : Spells o value s) : Rejects s := by
  have hlib : ∀ (v : Text) (rest : List Text), Rejects (('-' :: 'l' :: v) :: rest) := fun v rest =>
    Or.inl ⟨(startsWith · "-l"), by simp [rejectingTests], _, List.mem_cons_self, rfl⟩
  rcases ho with rfl | rfl | rfl | rfl
  · cases hs with
    | shortJoined => exact hlib value []
    | shortSeparate => exact hlib [] [value]
    | longJoined hne => exact absurd rfl hne
    | longSeparate hne => exact absurd rfl hne
  · cases hs with
    | shortJoined => exact rejects_of_argument rfl []
    | shortSeparate => exact rejects_of_argument rfl [value]
    | longJoined hne => exact absurd rfl hne
    | longSeparate hne => exact absurd rfl hne
  · cases hs with
    | shortJoined hne => exact absurd rfl hne
    | shortSeparate hne => exact absurd rfl hne
    | longJoined => exact rejects_of_argument rfl []
    | longSeparate => exact rejects_of_argument (by decide) [value]
  · cases hs with
    | shortJoined hne => exact absurd rfl hne
    | shortSeparate hne => exact absurd rfl hne
    | longJoined => exact rejects_of_argument rfl []
    | longSeparate => exact Or.inr ⟨_, _, rfl, Or.inr rfl⟩

/-- Options with one spelling that is not rejected. -/
theorem rejects_or_supported (ho : o = ⟨"L", ""⟩ ∨ o = ⟨"", "emit"⟩ ∨
      o = ⟨"", "crate-type"⟩ ∨ o = ⟨"", "out-dir"⟩ ∨ o = ⟨"", "extern"⟩) (hs : Spells o value s) :
    (Rejects s ∧ Unsupported o value s) ∨
      s = if o.long = "emit" then ['-' :: '-' :: o.long ++ '=' :: value]
        else if o.short = "L" then ["-L", value] else ['-' :: '-' :: o.long, value] := by
  rcases ho with rfl | rfl | rfl | rfl | rfl
  · cases hs with
    | shortJoined _ hne =>
      refine Or.inl ⟨Or.inl ⟨fun arg => arg != "-L" && startsWith arg "-L", by simp [rejectingTests],
        _, List.mem_cons_self, ?_⟩, .searchPath rfl⟩
      have hlong : ('-' :: 'L' :: value != "-L".toList) = true :=
        bne_iff_ne.mpr fun heq => hne (List.cons.inj (List.cons.inj heq).2).2
      exact (Bool.and_eq_true _ _).mpr ⟨hlong, rfl⟩
    | shortSeparate => exact Or.inr rfl
    | longJoined hne => exact absurd rfl hne
    | longSeparate hne => exact absurd rfl hne
  · cases hs with
    | shortJoined hne => exact absurd rfl hne
    | shortSeparate hne => exact absurd rfl hne
    | longJoined => exact Or.inr rfl
    | longSeparate => exact Or.inl ⟨Or.inr ⟨_, _, rfl, Or.inl rfl⟩, .emit rfl⟩
  · cases hs with
    | shortJoined hne => exact absurd rfl hne
    | shortSeparate hne => exact absurd rfl hne
    | longJoined => exact Or.inl ⟨rejects_of_argument rfl [], .joined (Or.inl rfl)⟩
    | longSeparate => exact Or.inr rfl
  · cases hs with
    | shortJoined hne => exact absurd rfl hne
    | shortSeparate hne => exact absurd rfl hne
    | longJoined => exact Or.inl ⟨rejects_of_argument rfl [], .joined (Or.inr (Or.inl rfl))⟩
    | longSeparate => exact Or.inr rfl
  · cases hs with
    | shortJoined hne => exact absurd rfl hne
    | shortSeparate hne => exact absurd rfl hne
    | longJoined =>
      exact Or.inl ⟨Or.inl ⟨(startsWith · "--extern="), by simp [rejectingTests], _,
        mem_cons_self, rfl⟩, .joined (.inr (.inr rfl))⟩
    | longSeparate => exact .inr rfl

theorem rejected_of_rejects (h : Rejects s') (pre post : List Text) (outputRoot hostTriple : Text)
    (paths : List OsString) (mode : CompileMode) :
    argumentsAreModeled (pre ++ (s' ++ post)) outputRoot hostTriple paths mode = false := by
  rcases h with ⟨test, htest, a, ha, h⟩ | ⟨name, v, rfl, h⟩
  · exact rejected_of_argument htest (mem_append_right _ (mem_append_left _ ha)) h _ _ _ _
  · refine rejected_of_pair rfl ?_ _ _ _ _
    rcases h with rfl | rfl
    · exact .inl rfl
    · exact .inr (.inl rfl)

/-- **A rejected command stays rejected.** -/
theorem keeps_rejection (h : Replacement pre post o value value' s s')
    (outputRoot hostTriple : Text) (paths : List OsString) (mode : CompileMode)
    (hrejected : argumentsAreModeled (pre ++ (s ++ post)) outputRoot hostTriple paths mode = false) :
    argumentsAreModeled (pre ++ (s' ++ post)) outputRoot hostTriple paths mode = false := by
  have hfixed : o = ⟨"L", ""⟩ ∨ o = ⟨"", "emit"⟩ ∨ o = ⟨"", "crate-type"⟩ ∨ o = ⟨"", "out-dir"⟩ ∨
      o = ⟨"", "extern"⟩ →
        argumentsAreModeled (pre ++ (s' ++ post)) outputRoot hostTriple paths mode = false := by
    intro ho
    have hsame : value = value' :=
      h.same.eq (by rcases ho with rfl | rfl | rfl | rfl | rfl <;> decide)
        (by rcases ho with rfl | rfl | rfl | rfl | rfl <;> decide)
    subst hsame
    rcases rejects_or_supported ho h.spells' with ⟨hrejects, _⟩ | hs'
    · exact rejected_of_rejects hrejects pre post _ _ _ _
    · rcases rejects_or_supported ho h.spells with ⟨_, hunsupported⟩ | hs
      · exact absurd hunsupported h.supported
      · rwa [hs', ← hs]
  rcases option_cases o h.option_mem with ho | rfl | rfl | rfl | ho | ho | ho | ho | ho | ho | ho |
    ho | ho
  · have hnames : ∀ o ∈ plainOptions, o.short ≠ "C" ∧ o.short ≠ "Z" := by decide +kernel
    obtain ⟨hC, hZ⟩ := hnames o ho
    obtain rfl := h.same.eq hC hZ
    have hplain := h.plain hC hZ
    rw [argumentsAreModeled_insert h.complete (plain_adds ho hplain h.spells)] at hrejected
    rw [argumentsAreModeled_insert h.complete (plain_adds ho hplain h.spells'), hrejected]
  · rw [← keeps_codegen h, hrejected]
  · exact keeps_unstable h _ _ _ _ hrejected
  · rw [← keeps_target h, hrejected]
  · exact hfixed (.inl ho)
  · exact rejected_of_rejects (rejects_always (.inl ho) h.spells') pre post _ _ _ _
  · exact rejected_of_rejects (rejects_always (.inr (.inl ho)) h.spells') pre post _ _ _ _
  · exact rejected_of_rejects (rejects_always (.inr (.inr (.inl ho))) h.spells') pre post _ _ _ _
  · exact rejected_of_rejects (rejects_always (.inr (.inr (.inr ho))) h.spells') pre post _ _ _ _
  · exact hfixed (.inr (.inl ho))
  · exact hfixed (.inr (.inr (.inl ho)))
  · exact hfixed (.inr (.inr (.inr (.inl ho))))
  · exact hfixed (.inr (.inr (.inr (.inr ho))))

end

/-- **What an accepted command does not ask for.** -/
theorem asksForNothingUnmodeled {args : List Text} {outputRoot hostTriple : Text}
    {paths : List OsString} {mode : CompileMode}
    (h : argumentsAreModeled args outputRoot hostTriple paths mode = true) :
    AsksForNothingUnmodeled args := by
  have hargument : ∀ {a : Text}, unmodeledArgument a = true → a ∉ args := by
    intro a ha hmem
    rw [rejected_of_argument mem_cons_self hmem ha] at h
    cases h
  have hlink : ∀ {a : Text}, unmodeledLinkOrUnstable a = true → a ∉ args := by
    intro a ha hmem
    rw [rejected_of_argument (mem_cons_of_mem _ mem_cons_self) hmem ha] at h
    cases h
  simp only [argumentsAreModeled, optionsAreModeled, Bool.and_eq_true, Bool.not_eq_true',
    beq_iff_eq, List.isEmpty_iff] at h
  obtain ⟨_, ⟨⟨⟨⟨⟨⟨⟨⟨⟨⟨⟨⟨⟨⟨⟨⟨⟨⟨_, _⟩, hcount⟩, hemit⟩, hout⟩, _⟩, htarget⟩, hsysroot⟩, hcodegen⟩, _⟩, _⟩,
    _⟩, _⟩, _⟩, _⟩, _⟩, _⟩, _⟩, _⟩, hunstable⟩ := h
  refine ⟨?_, ?_, ?_, ⟨hcount, hemit⟩, ⟨hout, fun value => hargument rfl⟩, ?_⟩
  · intro name value hname hasks
    have hrejected : unmodeledCodegenBehaviorFlag (optionText name value) = true := by
      rw [unmodeled_optionText hname, ← withDashes_withUnderscores]
      rcases hasks with hasks | ⟨hcpu, rfl⟩
      · have hall : ∀ n ∈ [("profile_use" : Text), "profile_sample_use", "llvm_args", "save_temps"],
            [("profile-use" : Text), "profile-sample-use", "llvm-args", "save-temps"].contains
              (withDashes n) = true := by decide +kernel
        rw [hall _ hasks, Bool.true_or]
      · rw [hcpu]
        decide +kernel
    constructor
    · refine hargument ?_
      have hbehavior : unmodeledArgument ('-' :: 'C' :: optionText name value)
          = (('-' :: 'C' :: optionText name value == "-Csave-temps".toList ||
              startsWith ('-' :: 'C' :: optionText name value) "-Csave-temps=") ||
              unmodeledCodegenBehaviorFlag (optionText name value)) := rfl
      rw [hbehavior, hrejected, Bool.or_true]
    · intro hmem
      have hno := any_eq_false.mp hcodegen _ hmem
      rw [hrejected, Bool.or_true] at hno
      exact hno rfl
  · intro value hspec
    constructor
    · refine hargument ?_
      have htargetArgument : unmodeledArgument ("--target=".toList ++ value)
          = (customTargetSpecFlag value || false || false || false || false || false || false ||
              false || false || false) := rfl
      rw [htargetArgument, customTargetSpecFlag, hspec]
      rfl
    · exact fun hmem => List.any_eq_false.mp htarget _ hmem hspec
  · intro value
    exact ⟨hargument rfl, by rw [hsysroot]; exact List.not_mem_nil⟩
  · intro flag hflag
    constructor
    · intro hne
      refine hlink ?_
      have hjoined : unmodeledLinkOrUnstable ('-' :: 'Z' :: flag)
          = ('-' :: 'Z' :: flag != "-Z".toList && !modeledUnstableFlag flag) := rfl
      have hlong : ('-' :: 'Z' :: flag != "-Z".toList) = true :=
        bne_iff_ne.mpr fun heq => hne (List.cons.inj (List.cons.inj heq).2).2
      rw [hjoined, hlong, hflag]
      rfl
    · intro hmem
      have hno := List.any_eq_false.mp hunstable _ hmem
      rw [hflag] at hno
      exact hno rfl

/-- The command with other arguments. -/
def ProcessBuilder.withArgs (rustc : ProcessBuilder) (pre post : List OsString) (s : List Text) :
    ProcessBuilder :=
  { rustc with args := pre ++ (s.map .ofText ++ post) }

variable {rustc : ProcessBuilder}

theorem lossy_withArgs (h : rustc.wrappers = []) (pre post : List OsString)
    (s : List Text) : (rustc.withArgs pre post s).getArgs.map (·.lossy)
      = pre.map (·.lossy) ++ (s ++ post.map (·.lossy)) := by
  have htext : (s.map OsString.ofText).map (·.lossy) = s := by
    rw [List.map_map]
    exact List.map_id _
  simp only [ProcessBuilder.getArgs, ProcessBuilder.getPrograms, ProcessBuilder.withArgs, h,
    List.reverse_nil, List.nil_append, List.singleton_append, List.drop_succ_cons, List.drop_zero,
    List.map_append, htext]

/-- The conditions on the surroundings are the same for all arguments that are text. -/
theorem surroundings_withArgs (surroundings : Surroundings) (rustc : ProcessBuilder)
    (pre post : List OsString) (s s' : List Text) (compilerProgram : Text) :
    surroundingsAreModeled surroundings (rustc.withArgs pre post s) compilerProgram
      = surroundingsAreModeled surroundings (rustc.withArgs pre post s') compilerProgram := by
  have htext : ∀ s : List Text, (s.map OsString.ofText).all (·.isUnicode) = true := by
    intro s
    rw [List.all_map]
    exact List.all_eq_true.mpr fun _ _ => rfl
  have hargs : ∀ s : List Text, (rustc.withArgs pre post s).getArgs.all (·.isUnicode)
      = ((rustc.wrappers.reverse ++ [rustc.program]).tail.all (·.isUnicode)
        && (pre.all (·.isUnicode) && post.all (·.isUnicode))) := by
    intro s
    have hne : rustc.wrappers.reverse ++ [rustc.program] ≠ [] := by simp
    have hargs : (rustc.withArgs pre post s).getArgs
        = ((rustc.wrappers.reverse ++ [rustc.program]) ++
            (pre ++ (s.map OsString.ofText ++ post))).tail := List.drop_one
    rw [hargs, List.tail_append_of_ne_nil hne, List.all_append, List.all_append, List.all_append, htext,
      Bool.true_and]
  simp only [surroundingsAreModeled, hargs s, hargs s']
  rfl

theorem wrappers_eq_nil {surroundings : Surroundings}
    {compilerProgram : Text} (h : surroundingsAreModeled surroundings rustc compilerProgram = true) :
    rustc.wrappers = [] := by
  simp only [surroundingsAreModeled, Bool.and_eq_true, beq_iff_eq, ProcessBuilder.getPrograms,
    List.length_append, List.length_reverse, List.length_singleton] at h
  exact List.eq_nil_of_length_eq_zero (Nat.succ.inj h.1.1.1.1.2)

/-- **Admission and spelling.** Writing an option in another spelling does not turn a rejected
command into an accepted one, where the first spelling is one that is supported; and an accepted
command asks for nothing unmodelled in a supported spelling. -/
theorem admission_of_spellings (surroundings : Surroundings) (rustc : ProcessBuilder)
    (outputRoot compilerProgram hostTriple : Text) (paths : List OsString) (mode : CompileMode) :
    (∀ (pre post : List OsString) (o : ValueOption) (value value' : Text) (s s' : List Text),
      Replacement (pre.map (·.lossy)) (post.map (·.lossy)) o value value' s s' →
        rlibActionIsCacheableWithSearchPaths surroundings (rustc.withArgs pre post s) outputRoot
            compilerProgram hostTriple paths mode = false →
          rlibActionIsCacheableWithSearchPaths surroundings (rustc.withArgs pre post s') outputRoot
            compilerProgram hostTriple paths mode = false) ∧
    (rlibActionIsCacheableWithSearchPaths surroundings rustc outputRoot compilerProgram hostTriple
        paths mode = true → AsksForNothingUnmodeled (rustc.getArgs.map (·.lossy))) := by
  constructor
  · intro pre post o value value' s s' hreplace hrejected
    unfold rlibActionIsCacheableWithSearchPaths at hrejected ⊢
    rw [surroundings_withArgs surroundings rustc pre post s' s]
    cases hsur : surroundingsAreModeled surroundings (rustc.withArgs pre post s) compilerProgram with
    | false => rfl
    | true =>
      have hnone : (rustc.withArgs pre post s).wrappers = [] := wrappers_eq_nil hsur
      have hwrappers : rustc.wrappers = [] := hnone
      rw [hsur, Bool.true_and, lossy_withArgs hwrappers] at hrejected
      rw [Bool.true_and, lossy_withArgs hwrappers]
      exact keeps_rejection hreplace _ _ _ _ hrejected
  · intro haccepted
    exact asksForNothingUnmodeled ((Bool.and_eq_true _ _).mp haccepted).2

/-- An ordinary command for a library. -/
def ordinaryRlib (more : List Text) : ProcessBuilder where
  program := .ofText "/rustc"
  wrappers := []
  args := (("--crate-type" : Text) :: "lib" :: "--emit=dep-info,metadata,link" :: "--out-dir" ::
    "/t/debug/deps" :: more).map .ofText
  env := []

/-- Whether the ordinary command is accepted with these options. -/
def isAccepted (more : List Text) : Bool :=
  rlibActionIsCacheableWithSearchPaths ⟨[], fun _ => none⟩ (ordinaryRlib more) "/t/debug/deps"
    "/rustc" "x86_64-unknown-linux-gnu" [.ofText "dependency=/t/debug/deps"] .build

/-- The library's command once more, asking for the host's CPU in one argument and in two. -/
theorem targetCpu_stays_rejected :
    rlibActionIsCacheableWithSearchPaths ⟨[], fun _ => none⟩
        ((ordinaryRlib []).withArgs (ordinaryRlib []).args [] ["-C", "target_cpu=native"])
        "/t/debug/deps" "/rustc" "x86_64-unknown-linux-gnu" [] .build = false ∧
      AsksForNothingUnmodeled ((ordinaryRlib []).getArgs.map (·.lossy)) := by
  have hvalue : IsCodegenValue "target-cpu=native" :=
    ⟨"target-cpu", some "native", by decide, by decide⟩
  have hvalue' : IsCodegenValue "target_cpu=native" :=
    ⟨"target_cpu", some "native", by decide, by decide⟩
  have hboth := admission_of_spellings ⟨[], fun _ => none⟩ (ordinaryRlib []) "/t/debug/deps" "/rustc"
    "x86_64-unknown-linux-gnu" [] .build
  refine ⟨hboth.1 (ordinaryRlib []).args [] ⟨"C", "codegen"⟩ "target-cpu=native" "target_cpu=native"
    ["-Ctarget-cpu=native"] ["-C", "target_cpu=native"] ?_ (by decide +kernel),
    hboth.2 (by decide +kernel)⟩
  have hsame : SameValue ⟨"C", "codegen"⟩ "target-cpu=native" "target_cpu=native" :=
    @SameValue.names ⟨"C", "codegen"⟩ (.inl rfl) "target-cpu" "target_cpu" (some "native")
      (by decide) (by decide) (by decide)
  have hcomplete : Complete ((ordinaryRlib []).args.map (·.lossy)) := by
    unfold Complete
    decide +kernel
  refine ⟨by decide, .shortJoined (by decide) (by decide), .shortSeparate (by decide), hsame,
    hcomplete, ?_, fun _ => ⟨hvalue, hvalue', by decide +kernel⟩, fun _ => .inr ?_,
    fun h => absurd h (by decide), fun h => absurd rfl h, fun h => absurd h (by decide)⟩
  · intro h
    cases h with
    | searchPath h => exact absurd h (by decide)
  · -- the name begins with `t`
    intro name v heq
    cases name with
    | nil => exact ⟨by decide, by decide⟩
    | cons c name =>
      obtain rfl : 't' = c := (List.cons.inj heq).1
      exact ⟨fun h => absurd (List.cons.inj h).1 (by decide),
        fun h => absurd (List.cons.inj h).1 (by decide)⟩

/-- **A rejected command is accepted in another spelling.** A search path in one argument is
rejected, in two it is accepted; and the host's CPU is asked for with `--codegen`. -/
theorem rejected_becomes_accepted :
    (Equivalent ["-Ldependency=/t/debug/deps"] ["-L", "dependency=/t/debug/deps"] ∧
      isAccepted ["-Ldependency=/t/debug/deps"] = false ∧
      isAccepted ["-L", "dependency=/t/debug/deps"] = true) ∧
    (Equivalent ["-Ctarget-cpu=native"] ["--codegen", "target-cpu=native"] ∧
      isAccepted ["-Ctarget-cpu=native"] = false ∧
      isAccepted ["--codegen", "target-cpu=native"] = true) := by
  have heval : (isAccepted ["-Ldependency=/t/debug/deps"] = false ∧
      isAccepted ["-L", "dependency=/t/debug/deps"] = true) ∧
      isAccepted ["-Ctarget-cpu=native"] = false ∧
      isAccepted ["--codegen", "target-cpu=native"] = true := by decide +kernel
  refine ⟨⟨?_, heval.1⟩, ?_, heval.2⟩
  · exact ⟨⟨"L", ""⟩, by decide, "dependency=/t/debug/deps", _, .refl _, fun h => absurd h (by decide),
      .shortJoined (by decide) (by decide), .shortSeparate (by decide)⟩
  · have hvalue : IsCodegenValue "target-cpu=native" :=
      ⟨"target-cpu", some "native", by decide, by decide⟩
    exact ⟨⟨"C", "codegen"⟩, by decide, "target-cpu=native", _, .refl _, fun _ => ⟨hvalue, hvalue⟩,
      .shortJoined (by decide) (by decide), .longSeparate (by decide)⟩

end Srs.ArtifactCache
