/-
# Which rustc actions may be cached

`compiler/mod.rs`: before an action is looked up in the artifact cache,
`rlib_action_is_cacheable_with_search_paths` decides from the command alone whether everything the
action depends on is part of its key.  It is one conjunction of tests on the arguments, on pairs of
adjacent arguments and on the environment.

Paths are Unix paths.  What the file system says of an executable is a parameter.
-/
import Srs.Lib.Adjacent
import Srs.Lib.Text

namespace Srs.ArtifactCache

open Text Adjacent

instance : Coe String Text := ⟨String.toList⟩

/-! ## 1. Commands -/

/-- An `OsString`: what `to_string_lossy` makes of it, and whether that is the string itself. -/
structure OsString where
  lossy : Text
  isUnicode : Bool
  deriving DecidableEq

/-- A string that is text. -/
def OsString.ofText (t : Text) : OsString := ⟨t, true⟩

/-- `ProcessBuilder`; `env` is the map of the variables that are set or removed. -/
structure ProcessBuilder where
  program : OsString
  wrappers : List OsString
  args : List OsString
  env : List (Text × Option OsString)

/-- What a command runs in: the environment that it inherits, and the executable that
`paths::resolve_executable` finds for a program. -/
structure Surroundings where
  environment : List (Text × OsString)
  resolveExecutable : Text → Option Text

namespace ProcessBuilder

variable (rustc : ProcessBuilder)

def getProgram : OsString := rustc.wrappers.getLast?.getD rustc.program

def getPrograms : List OsString := rustc.wrappers.reverse ++ [rustc.program]

/-- The arguments behind the outermost program. -/
def getArgs : List OsString := (rustc.getPrograms ++ rustc.args).drop 1

def getEnv (surroundings : Surroundings) (key : Text) : Option OsString :=
  match rustc.env.lookup key with
  | some value => value
  | none => surroundings.environment.lookup key

end ProcessBuilder

inductive CompileMode where
  | test
  | build
  | check (test : Bool)
  | doc
  | doctest
  | docscrape
  | runCustomBuild
  deriving DecidableEq

/-! ## 2. Text and paths -/

def startsWith (t pre : Text) : Bool := pre.isPrefixOf t

def endsWith (t suffix : Text) : Bool := suffix.isSuffixOf t

/-- `str::strip_prefix`. -/
def stripPrefix (pre t : Text) : Option Text :=
  if pre.isPrefixOf t then some (t.drop pre.length) else none

/-- `Path::components`. -/
def components (path : Text) : List Text :=
  let pieces := (split '/' path).filter (· ≠ [])
  match path, pieces with
  | '/' :: _, pieces => ['/'] :: pieces.filter (· ≠ ['.'])
  | _, ['.'] :: pieces => ['.'] :: pieces.filter (· ≠ ['.'])
  | _, pieces => pieces.filter (· ≠ ['.'])

/-- `Path::parent`. -/
def parent (path : List Text) : Option (List Text) :=
  if path = [] ∨ path = [['/']] then none else some path.dropLast

/-! ## 3. Single arguments -/

/-- `flag.replace('_', "-")`. -/
def withDashes (flag : Text) : Text := flag.map fun c => if c = '_' then '-' else c

def unmodeledCodegenBehaviorFlag (arg : Text) : Bool :=
  let (flag, value) := match splitOnce '=' arg with
    | some (flag, value) => (flag, some value)
    | none => (arg, none)
  let flag := withDashes flag
  [("profile-use" : Text), "profile-sample-use", "llvm-args", "save-temps"].contains flag ||
    (flag == "target-cpu" && value == some "native")

def modeledSysrootCodegenBackendFlag (arg : Text) : Bool :=
  ([("codegen-backend=" : Text), "codegen_backend="].findSome? fun pre => stripPrefix pre arg).any
    fun backend => !backend.contains '.'

def modeledUnstableFlag (arg : Text) : Bool :=
  modeledSysrootCodegenBackendFlag arg ||
    arg == "checksum-hash-algorithm=blake3" ||
    [("preserve-duplicate-constants=yes" : Text), "preserve-duplicate-constants=no"].contains arg

def customTargetSpecFlag (arg : Text) : Bool := endsWith arg ".json"

/-- `target.contains("-windows-gnu")`. -/
def windowsGnuTarget (target : Text) : Bool :=
  target.tails.any fun tail => startsWith tail "-windows-gnu"

/-- The options that are rejected however they stand. -/
def unmodeledArgument (arg : Text) : Bool :=
  startsWith arg "--crate-type=" ||
    startsWith arg "--out-dir=" ||
    startsWith arg "--print=" ||
    startsWith arg "--pretty=" ||
    startsWith arg "--unpretty=" ||
    (stripPrefix "--target=" arg).any customTargetSpecFlag ||
    startsWith arg "--sysroot=" ||
    startsWith arg "-Zunpretty=" ||
    startsWith arg "-o" ||
    arg == "--print" ||
    arg == "--pretty" ||
    arg == "--unpretty" ||
    arg == "-Csave-temps" ||
    startsWith arg "-Csave-temps=" ||
    (stripPrefix "-C" arg).any unmodeledCodegenBehaviorFlag

/-- A link argument, or an unstable option in one piece that is not modelled. -/
def unmodeledLinkOrUnstable (arg : Text) : Bool :=
  startsWith arg "link-arg=" ||
    startsWith arg "link-args=" ||
    startsWith arg "-Clink-arg=" ||
    startsWith arg "-Clink-args=" ||
    (arg != "-Z" && (stripPrefix "-Z" arg).any fun flag => !modeledUnstableFlag flag)

/-! ## 4. The environment -/

def unmodeledCodegenBackendEnvironment (surroundings : Surroundings) (rustc : ProcessBuilder) :
    Bool :=
  let isSet := fun key : Text =>
    startsWith key "CG_GCCJIT_" && (rustc.getEnv surroundings key).isSome
  (rustc.env.any fun (key, _) => isSet key) || surroundings.environment.any fun (key, _) => isSet key

def unmodeledSldProvenanceEnvironment (surroundings : Surroundings) (rustc : ProcessBuilder) :
    Bool :=
  let key : Text := "SLD_RUSTC_WORK_PRODUCT_PROVENANCE"
  (rustc.env.lookup key).isNone && (rustc.getEnv surroundings key).isSome

def unmodeledEnvironment : List Text := [
  "RUSTC_BOOTSTRAP",
  "RUSTC_FORCE_RUSTC_VERSION",
  "RUSTC_OVERRIDE_VERSION_STRING",
  "RUSTC_LOG",
  "RUSTC_LOG_COLOR",
  "RUSTC_LOG_ENTRY_EXIT",
  "RUSTC_LOG_THREAD_IDS",
  "RUSTC_LOG_BACKTRACE",
  "RUSTC_LOG_LINES",
  "RUSTC_LOG_FORMAT_JSON",
  "RUSTC_LOG_OUTPUT_TARGET",
  "RUST_TARGET_PATH",
  "CG_CLIF_FORCE_GNU_AS",
  "CG_CLIF_DISABLE_INCR_CACHE",
  "CG_CLIF_ENABLE_VERIFIER",
  "CG_CLIF_JIT_ARGS"]

/-- The conditions on the program and its environment. -/
def surroundingsAreModeled (surroundings : Surroundings) (rustc : ProcessBuilder)
    (compilerProgram : Text) : Bool :=
  let resolve := fun program => (surroundings.resolveExecutable program).getD program
  (rustc.getPrograms.all (·.isUnicode)) &&
    (rustc.getArgs.all (·.isUnicode)) &&
    (rustc.env.all fun (_, value) => value.all (·.isUnicode)) &&
    (rustc.env.lookup ("PATH" : Text)).isNone &&
    rustc.getPrograms.length == 1 &&
    components (resolve rustc.getProgram.lossy) == components (resolve compilerProgram) &&
    !(unmodeledEnvironment.any fun key => (rustc.getEnv surroundings key).isSome) &&
    !unmodeledCodegenBackendEnvironment surroundings rustc &&
    !unmodeledSldProvenanceEnvironment surroundings rustc

/-! ## 5. The arguments -/

def actionTarget (args : List Text) (hostTriple : Text) : Text :=
  ((args.findSome? (stripPrefix "--target=")).or (followers "--target".toList args).head?).getD
    hostTriple

/-- The values of `--emit=`. -/
def emits (args : List Text) : List Text := args.filterMap (stripPrefix "--emit=")

def metadataOnly (args : List Text) : Bool := emits args == ["dep-info,metadata".toList]

def ordinaryLibraryCrateType (args : List Text) : Bool :=
  followers "--crate-type".toList args == ["lib".toList]

def metadataOnlyTestCheck (compileMode : CompileMode) (args : List Text) : Bool :=
  compileMode == .check true && metadataOnly args &&
    !args.any (· == "--crate-type") &&
    !args.any (startsWith · "--crate-type=")

/-- The path of a search path that is not one of dependencies. -/
def searchPath (value : Text) : Text :=
  match splitOnce '=' value with
  | some (_, path) => path
  | none => value

/-- The conditions on the options.  The source takes adjacent arguments as pairs; `followers` are
the second ones of the pairs that begin with an option. -/
def optionsAreModeled (args : List Text) (outputRoot : Text)
    (modeledDependencySearchPaths : List OsString) (compileMode : CompileMode) : Bool :=
  let root := components outputRoot
  let targetProfileRoot := (parent root).getD root
  let isDependency := fun value => startsWith value "dependency=" || startsWith value "crate="
  let testCheck := metadataOnlyTestCheck compileMode args
  (ordinaryLibraryCrateType args || testCheck) &&
    ((emits args).all fun emit =>
      [("dep-info,metadata" : Text), "dep-info,link", "dep-info,metadata,link"].contains emit) &&
    (args.countP (startsWith · "--emit=") == 1) &&
    (followers "--emit".toList args).isEmpty &&
    ((followers "--out-dir".toList args).length == 1) &&
    !args.any unmodeledArgument &&
    !((followers "--target".toList args).any customTargetSpecFlag) &&
    (followers "--sysroot".toList args).isEmpty &&
    !((followers "-C".toList args).any fun value =>
      startsWith value "save-temps" || unmodeledCodegenBehaviorFlag value) &&
    (!args.any (· == "--test") || testCheck) &&
    !args.any (startsWith · "@") &&
    !args.any (startsWith · "-l") &&
    !(args.any fun arg => arg != "-L" && startsWith arg "-L") &&
    !((followers "-L".toList args).any fun value =>
      isDependency value && !modeledDependencySearchPaths.contains (.ofText value)) &&
    !((followers "-L".toList args).any fun value =>
      !isDependency value &&
        !targetProfileRoot.isPrefixOf (components (searchPath value))) &&
    !((followers "--extern".toList args).any fun value =>
      [(".dylib" : Text), ".so", ".dll"].any (endsWith value ·)) &&
    !args.any (startsWith · "--extern=") &&
    !((followers "--extern".toList args).any fun value => !value.contains '=') &&
    !args.any unmodeledLinkOrUnstable &&
    !((followers "-Z".toList args).any fun flag => !modeledUnstableFlag flag)

/-- The conditions on the arguments. -/
def argumentsAreModeled (args : List Text) (outputRoot hostTriple : Text)
    (modeledDependencySearchPaths : List OsString) (compileMode : CompileMode) : Bool :=
  !windowsGnuTarget (actionTarget args hostTriple) &&
    optionsAreModeled args outputRoot modeledDependencySearchPaths compileMode

/-- `rlib_action_is_cacheable_with_search_paths`. -/
def rlibActionIsCacheableWithSearchPaths (surroundings : Surroundings) (rustc : ProcessBuilder)
    (outputRoot compilerProgram hostTriple : Text) (modeledDependencySearchPaths : List OsString)
    (compileMode : CompileMode) : Bool :=
  surroundingsAreModeled surroundings rustc compilerProgram &&
    argumentsAreModeled (rustc.getArgs.map (·.lossy)) outputRoot hostTriple
      modeledDependencySearchPaths compileMode

end Srs.ArtifactCache
