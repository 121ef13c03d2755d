/-
# Evaluating expressions

Assertions of a linker script are evaluated after layout.  `ORIGIN` and `LENGTH` of a memory region
are expressions of their own, so the recursion of `evaluateExpression` goes through the regions and
is counted by a depth; an evaluation that needs every depth does not end.

A region may be defined in terms of itself.  `evaluateNoted` remembers which fields of regions it is
in the middle of and stops when it comes back to one of them; it needs no more depth than there are
fields.  `terminates_iff_not_comesBack` says that this is the only way for an evaluation not to end.
-/
import Srs.Lib.Records
import Srs.Lib.Turns
import Srs.Script.Tokens

namespace Srs.Script

open Precedence List
open Records (bind_ok_iff)

/-! ## 1. Memory regions -/

structure MemoryRegion where
  name : Text
  origin : Expression
  length : Expression
  deriving DecidableEq

/-- What `ORIGIN` and `LENGTH` read of a region. -/
inductive Field where
  | origin
  | length
  deriving DecidableEq

def MemoryRegion.get (region : MemoryRegion) : Field → Expression
  | .origin => region.origin
  | .length => region.length

section Parser

variable (w : Scanners)

/-- `keyword = expression`, in one of the spellings of the keyword. -/
def parseField (spellings : List Text) : Reader Char Expression := fun input => do
  let (_, input) ← firstLiteral (spellings.map fun spelling => (spelling, ())) input
  let input ← skipCommentsAndWhitespace w input
  let input ← literal ['='] input
  let input ← skipCommentsAndWhitespace w input
  parseExpression w.toWinnow input

def parseMemoryRegion : Reader Char MemoryRegion := fun input => do
  let (name, input) ← parseToken w input
  let input ← skipCommentsAndWhitespace w input
  let input ← literal [':'] input
  let input ← skipCommentsAndWhitespace w input
  let (origin, input) ← parseField w ["ORIGIN".toList, "org".toList, "o".toList] input
  let input ← skipCommentsAndWhitespace w input
  let input ← literal [','] input
  let input ← skipCommentsAndWhitespace w input
  let (length, input) ← parseField w ["LENGTH".toList, "len".toList, "l".toList] input
  some (⟨name, origin, length⟩, input)

/-- `repeat_till(0.., parse_memory_region, '}')`, for at most so many regions: a region consumes
characters. -/
def parseMemoryRegions : Nat → Reader Char (List MemoryRegion)
  | 0, _ => none
  | turns + 1, input =>
    match literal ['\x7d'] input with
    | some input => some ([], input)
    | none => do
      let (region, input) ← parseMemoryRegion w input
      let (regions, input) ← parseMemoryRegions turns input
      some (region :: regions, input)

def parseMemory : Reader Char (List MemoryRegion) := fun input => do
  let input ← literal ['\x7b'] input
  let input ← skipCommentsAndWhitespace w input
  let (regions, input) ← parseMemoryRegions w (input.length + 1) input
  let input ← skipCommentsAndWhitespace w input
  some (regions, input)

end Parser

/-! ## 2. Constants -/

inductive ConstantError where
  /-- `division by zero in constant expression` -/
  | divisionByZero
  /-- `expression is not a compile-time constant` -/
  | notConstant
  deriving DecidableEq

/-- An expression that must be a compile-time constant. -/
def evalConstantExpr : Expression → Except ConstantError UInt64
  | .number n => .ok n
  | .add l r => do
    let a ← evalConstantExpr l
    let b ← evalConstantExpr r
    .ok (a + b)
  | .subtract l r => do
    let a ← evalConstantExpr l
    let b ← evalConstantExpr r
    .ok (a - b)
  | .multiply l r => do
    let a ← evalConstantExpr l
    let b ← evalConstantExpr r
    .ok (a * b)
  | .divide l r => do
    let d ← evalConstantExpr r
    if d = 0 then .error .divisionByZero
    else
      let a ← evalConstantExpr l
      .ok (a / d)
  | .negate e => do
    let a ← evalConstantExpr e
    .ok (-a)
  | _ => .error .notConstant

/-! ## 3. The evaluation -/

inductive EvaluationError where
  /-- `Division by zero in linker script expression` -/
  | divisionByZero
  /-- `ALIGN(0) is invalid` -/
  | alignZero
  /-- `ADDR: section '{}' not found` -/
  | sectionNotFound (name : Text)
  /-- `ORIGIN: memory region '{}' not found`, and the same of `LENGTH` -/
  | regionNotFound (field : Field) (name : Text)
  deriving DecidableEq

/-- Why an evaluation has no value. -/
inductive Interruption where
  | failed (error : EvaluationError)
  /-- There was more to evaluate. -/
  | unfinished
  deriving DecidableEq

abbrev Outcome := Except Interruption UInt64

/-- What is read of the layout of an output section. -/
structure OutputRecordLayout where
  memSize : UInt64
  alignment : UInt64
  memOffset : UInt64

/-- The layouts of the output sections by their names. -/
abbrev SectionLayouts := Text → Option OutputRecordLayout

/-- `u64::from` of a `bool` -/
def ofBool (condition : Bool) : UInt64 := if condition then 1 else 0

section

variable (sectionLayouts : SectionLayouts)

def sectionSize (name : Text) : UInt64 := ((sectionLayouts name).map (·.memSize)).getD 0

def sectionAlign (name : Text) : UInt64 := ((sectionLayouts name).map (·.alignment)).getD 0

def sectionAddress (name : Text) : Outcome :=
  match sectionLayouts name with
  | none => .error (.failed (.sectionNotFound name))
  | some layout => .ok layout.memOffset

/-- Two operands, the left one first. -/
def both (left right : Outcome) (combine : UInt64 → UInt64 → UInt64) : Outcome := do
  let a ← left
  let b ← right
  .ok (combine a b)

/-- `evaluate_expression`, where the fields of memory regions are evaluated by a function.  The
warning for a symbol is left out. -/
def evaluateWith (field : Field → Text → Outcome) : Expression → Outcome
  | .number n => .ok n
  | .locationCounter => .ok 0
  | .symbol _ => .ok 1
  | .add l r => both (evaluateWith field l) (evaluateWith field r) (· + ·)
  | .subtract l r => both (evaluateWith field l) (evaluateWith field r) (· - ·)
  | .multiply l r => both (evaluateWith field l) (evaluateWith field r) (· * ·)
  | .divide l r => do
    let divisor ← evaluateWith field r
    if divisor = 0 then .error (.failed .divisionByZero)
    else
      let a ← evaluateWith field l
      .ok (a / divisor)
  | .lessThan l r => both (evaluateWith field l) (evaluateWith field r) fun a b => ofBool (a < b)
  | .greaterThan l r => both (evaluateWith field l) (evaluateWith field r) fun a b => ofBool (a > b)
  | .lessEqual l r => both (evaluateWith field l) (evaluateWith field r) fun a b => ofBool (a ≤ b)
  | .greaterEqual l r =>
    both (evaluateWith field l) (evaluateWith field r) fun a b => ofBool (a ≥ b)
  | .equal l r => both (evaluateWith field l) (evaluateWith field r) fun a b => ofBool (a = b)
  | .notEqual l r => both (evaluateWith field l) (evaluateWith field r) fun a b => ofBool (a ≠ b)
  | .sizeof name => .ok (sectionSize sectionLayouts name)
  | .alignof name => .ok (sectionAlign sectionLayouts name)
  | .addr name => sectionAddress sectionLayouts name
  | .loadaddr name => sectionAddress sectionLayouts name
  | .align e => do
    let align ← evaluateWith field e
    if align = 0 then .error (.failed .alignZero)
    else .ok (0 + (align - 1) &&& ~~~(align - 1))
  | .min l r => both (evaluateWith field l) (evaluateWith field r) min
  | .max l r => both (evaluateWith field l) (evaluateWith field r) max
  | .bitwiseAnd l r => both (evaluateWith field l) (evaluateWith field r) (· &&& ·)
  | .bitwiseOr l r => both (evaluateWith field l) (evaluateWith field r) (· ||| ·)
  | .bitwiseXor l r => both (evaluateWith field l) (evaluateWith field r) (· ^^^ ·)
  | .leftShift l r => both (evaluateWith field l) (evaluateWith field r) (· <<< ·)
  | .rightShift l r => both (evaluateWith field l) (evaluateWith field r) (· >>> ·)
  | .logicalAnd l r => do
    let a ← evaluateWith field l
    if a = 0 then .ok 0
    else
      let b ← evaluateWith field r
      .ok (ofBool (b ≠ 0))
  | .logicalOr l r => do
    let a ← evaluateWith field l
    if a ≠ 0 then .ok 1
    else
      let b ← evaluateWith field r
      .ok (ofBool (b ≠ 0))
  | .logicalNot e => do
    let a ← evaluateWith field e
    .ok (ofBool (a = 0))
  | .bitwiseNot e => do
    let a ← evaluateWith field e
    .ok (~~~a)
  | .negate e => do
    let a ← evaluateWith field e
    .ok (-a)
  | .origin name => field .origin name
  | .length name => field .length name
  | .segmentStart _ otherwise => evaluateWith field otherwise

variable (memoryRegions : List MemoryRegion)

/-- The field of the first region with the name. -/
def evaluateField (evaluate : Expression → Outcome) (field : Field) (name : Text) : Outcome :=
  match memoryRegions.find? fun region => region.name = name with
  | none => .error (.failed (.regionNotFound field name))
  | some region => evaluate (region.get field)

/-- `evaluate_expression`, going through memory regions to a depth. -/
def evaluateExpression : Nat → Expression → Outcome
  | 0 => fun _ => .error .unfinished
  | depth + 1 =>
    evaluateWith sectionLayouts (evaluateField memoryRegions (evaluateExpression depth))

/-- The evaluation ends, with a value or an error. -/
def Evaluates (e : Expression) (outcome : Outcome) : Prop :=
  outcome ≠ .error .unfinished ∧
    ∃ depth, evaluateExpression sectionLayouts memoryRegions depth e = outcome

/-- The evaluation ends, and if the expression is a constant it ends with its value. -/
def EvaluationSound (e : Expression) : Prop :=
  (∃ outcome, Evaluates sectionLayouts memoryRegions e outcome) ∧
    ∀ value, evalConstantExpr e = .ok value →
      Evaluates sectionLayouts memoryRegions e (.ok value)

/-- The evaluation that stops at a field of a region which it is in the middle of. -/
def evaluateNoted : Nat → List (Field × Text) → Expression → Outcome
  | 0, _ => fun _ => .error .unfinished
  | depth + 1, noted => evaluateWith sectionLayouts fun field name =>
    if (field, name) ∈ noted then .error .unfinished
    else evaluateField memoryRegions (evaluateNoted depth ((field, name) :: noted)) field name

/-- The evaluation comes back to the origin or the length of a region while it evaluates it. -/
def ComesBack (e : Expression) : Prop :=
  evaluateNoted sectionLayouts memoryRegions (2 * memoryRegions.length + 1) [] e
    = .error .unfinished

instance (e : Expression) : Decidable (ComesBack sectionLayouts memoryRegions e) :=
  inferInstanceAs (Decidable (_ = _))

/-! ## 4. More depth never changes a result -/

/-- Where the first evaluation ends, the second ends the same way. -/
abbrev Outcome.Below (x y : Outcome) : Prop := Turns.Below (· = Interruption.unfinished) x y

theorem Outcome.finishes_iff {x : Outcome} :
    Turns.Finishes (· = Interruption.unfinished) x ↔ x ≠ .error .unfinished := by
  cases x <;> simp [Turns.Finishes]

theorem Outcome.unfinished_below (y : Outcome) : Outcome.Below (.error .unfinished) y := by
  refine Turns.Below.of_cut ?_ y
  rfl

theorem both_below {l r l' r' : Outcome} {combine : UInt64 → UInt64 → UInt64} (hl : l.Below l')
    (hr : r.Below r') : (both l r combine).Below (both l' r' combine) :=
  hl.bind fun _ _ => hr.bind fun _ _ => .refl _

/-- An expression over fields that end more often. -/
theorem evaluateWith_below {field field' : Field → Text → Outcome}
    (h : ∀ which name, (field which name).Below (field' which name)) (e : Expression) :
    (evaluateWith sectionLayouts field e).Below (evaluateWith sectionLayouts field' e) := by
  induction e with
  | number | symbol | locationCounter | sizeof | alignof | addr | loadaddr => exact .refl _
  | origin name => exact h .origin name
  | length name => exact h .length name
  | segmentStart _ _ ih => exact ih
  | divide l r ihl ihr =>
    refine ihr.bind fun divisor _ => ?_
    split
    · exact .refl _
    · exact ihl.bind fun _ _ => .refl _
  | align e ih =>
    refine ih.bind fun align _ => ?_
    split <;> exact .refl _
  | logicalAnd l r ihl ihr | logicalOr l r ihl ihr =>
    refine ihl.bind fun a _ => ?_
    split
    · exact .refl _
    · exact ihr.bind fun _ _ => .refl _
  | logicalNot e ih | bitwiseNot e ih | negate e ih => exact ih.bind fun _ _ => .refl _
  | _ l r ihl ihr => exact both_below ihl ihr

theorem evaluateField_below {evaluate evaluate' : Expression → Outcome}
    (h : ∀ e, (evaluate e).Below (evaluate' e)) (field : Field) (name : Text) :
    (evaluateField memoryRegions evaluate field name).Below
      (evaluateField memoryRegions evaluate' field name) := by
  unfold evaluateField
  split
  · exact .refl _
  · exact h _

theorem evaluateExpression_below_succ : ∀ (depth : Nat) (e : Expression),
    (evaluateExpression sectionLayouts memoryRegions depth e).Below
      (evaluateExpression sectionLayouts memoryRegions (depth + 1) e)
  | 0, _ => Outcome.unfinished_below _
  | depth + 1, e => evaluateWith_below sectionLayouts
      (evaluateField_below memoryRegions (evaluateExpression_below_succ depth)) e

/-- **A result at one depth is the result at every greater depth.** -/
theorem evaluateExpression_below {depth depth' : Nat} (hle : depth ≤ depth') (e : Expression) :
    (evaluateExpression sectionLayouts memoryRegions depth e).Below
      (evaluateExpression sectionLayouts memoryRegions depth' e) :=
  Turns.below_of_le
    (fun depth => evaluateExpression_below_succ sectionLayouts memoryRegions depth e) hle

/-! ## 5. An evaluation that ends never comes back -/

/-- The fields of the regions. -/
def fields (memoryRegions : List MemoryRegion) : List (Field × Text) :=
  memoryRegions.flatMap fun region => [(.origin, region.name), (.length, region.name)]

theorem length_fields (memoryRegions : List MemoryRegion) :
    (fields memoryRegions).length = 2 * memoryRegions.length := by
  simp [fields, length_flatMap, Nat.mul_comm]

theorem mem_fields_of_find? {memoryRegions : List MemoryRegion} {name : Text}
    {region : MemoryRegion} (field : Field)
    (h : memoryRegions.find? (fun region => region.name = name) = some region) :
    (field, name) ∈ fields memoryRegions := by
  have hname : region.name = name := by simpa using find?_some h
  refine mem_flatMap.mpr ⟨region, mem_of_find?_eq_some h, ?_⟩
  cases field <;> simp [hname]

/-- The fields in `noted` do not end at a smaller depth. -/
def Outlast (noted : List (Field × Text)) (depth : Nat) : Prop :=
  ∀ field name, (field, name) ∈ noted → ∀ smaller < depth,
    evaluateField memoryRegions (evaluateExpression sectionLayouts memoryRegions smaller) field name
      = .error .unfinished

/-- The least depth at which a field ends. -/
theorem exists_least_depth {depth : Nat} (field : Field) (name : Text)
    (hends : evaluateField memoryRegions (evaluateExpression sectionLayouts memoryRegions depth)
      field name ≠ .error .unfinished) :
    ∃ least ≤ depth, evaluateField memoryRegions
        (evaluateExpression sectionLayouts memoryRegions least) field name ≠ .error .unfinished ∧
      ∀ smaller < least, evaluateField memoryRegions
        (evaluateExpression sectionLayouts memoryRegions smaller) field name
          = .error .unfinished := by
  have hsome : ∃ least, evaluateField memoryRegions
      (evaluateExpression sectionLayouts memoryRegions least) field name ≠ .error .unfinished :=
    ⟨depth, hends⟩
  exact ⟨Nat.find hsome, Nat.find_min' hsome hends, Nat.find_spec hsome,
    fun smaller hlt => not_not.mp (Nat.find_min hsome hlt)⟩

/-- What ends at a depth ends the same way while fields are noted that take at least that depth.
A field that is needed takes less depth than what needs it, so it is none of those noted, and at the
least depth at which it ends it can be noted itself. -/
theorem evaluateNoted_eq : ∀ (depth steps : Nat) (noted : List (Field × Text)) (e : Expression),
    noted.Nodup → noted ⊆ fields memoryRegions →
    2 * memoryRegions.length + 1 ≤ steps + noted.length →
    Outlast sectionLayouts memoryRegions noted depth →
    (evaluateExpression sectionLayouts memoryRegions depth e).Below
      (evaluateNoted sectionLayouts memoryRegions steps noted e) := by
  intro depth
  induction depth using Nat.strong_induction_on with
  | _ depth ih =>
  intro steps noted e hnodup hsub hsteps houtlast
  have hroom : noted.length ≤ 2 * memoryRegions.length :=
    length_fields memoryRegions ▸ (hnodup.subperm hsub).length_le
  obtain _ | depth := depth
  · exact Outcome.unfinished_below _
  obtain _ | steps := steps
  · omega
  refine evaluateWith_below sectionLayouts (fun field name hfinishes => ?_) e
  have hends := Outcome.finishes_iff.mp hfinishes
  have hnot : (field, name) ∉ noted :=
    fun hmem => hends (houtlast field name hmem depth (Nat.lt_succ_self _))
  rw [if_neg hnot]
  obtain ⟨least, hle, hleast, hbefore⟩ :=
    exists_least_depth sectionLayouts memoryRegions field name hends
  rw [evaluateField_below memoryRegions
    (evaluateExpression_below sectionLayouts memoryRegions hle) field name
    (Outcome.finishes_iff.mpr hleast)]
  unfold evaluateField at hleast ⊢
  cases hfind : memoryRegions.find? fun region => region.name = name with
  | none => rfl
  | some region =>
    rw [hfind] at hleast
    refine ih least (Nat.lt_succ_of_le hle) steps ((field, name) :: noted)
      (region.get field) (nodup_cons.mpr ⟨hnot, hnodup⟩)
      (cons_subset.mpr ⟨mem_fields_of_find? field hfind, hsub⟩)
      (by simp only [length_cons]; omega) ?_
      (Outcome.finishes_iff.mpr hleast)
    intro other otherName hmem smaller hlt
    rcases mem_cons.mp hmem with heq | hmem
    · cases heq
      exact hbefore smaller hlt
    · exact houtlast other otherName hmem smaller (by omega)

/-- What ends while fields are noted ends the same way without the notes. -/
theorem evaluateNoted_below : ∀ (steps : Nat) (noted : List (Field × Text)) (e : Expression),
    (evaluateNoted sectionLayouts memoryRegions steps noted e).Below
      (evaluateExpression sectionLayouts memoryRegions steps e)
  | 0, _, _ => Outcome.unfinished_below _
  | steps + 1, noted, e => by
    refine evaluateWith_below sectionLayouts (fun field name => ?_) e
    split
    · exact Outcome.unfinished_below _
    · exact evaluateField_below memoryRegions (evaluateNoted_below steps _) field name

/-- **An evaluation ends if and only if it never comes back to a field of a region that it is in
the middle of.** -/
theorem terminates_iff_not_comesBack (e : Expression) :
    (∃ outcome, Evaluates sectionLayouts memoryRegions e outcome)
      ↔ ¬ ComesBack sectionLayouts memoryRegions e := by
  constructor
  · rintro ⟨outcome, hends, depth, hdepth⟩ hback
    rw [← hdepth] at hends
    have hnoted := evaluateNoted_eq sectionLayouts memoryRegions depth
      (2 * memoryRegions.length + 1) [] e nodup_nil (nil_subset _) (by simp)
      (fun _ _ hmem => absurd hmem (by simp)) (Outcome.finishes_iff.mpr hends)
    exact hends (hnoted.symm.trans hback)
  · intro h
    exact ⟨_, h, _, evaluateNoted_below sectionLayouts memoryRegions _ _ e
      (Outcome.finishes_iff.mpr h)⟩

/-! ## 6. Constants -/

/-- A constant has its value whatever the fields of regions are. -/
theorem evaluateWith_of_constant (field : Field → Text → Outcome) {e : Expression}
    {value : UInt64} (h : evalConstantExpr e = .ok value) :
    evaluateWith sectionLayouts field e = .ok value := by
  induction e generalizing value with
  | number n =>
    cases h
    rfl
  | add l r ihl ihr | subtract l r ihl ihr | multiply l r ihl ihr =>
    obtain ⟨a, ha, h⟩ := bind_ok_iff.mp h
    obtain ⟨b, hb, h⟩ := bind_ok_iff.mp h
    cases h
    simp only [evaluateWith, ihl ha, ihr hb]
    rfl
  | divide l r ihl ihr =>
    obtain ⟨d, hd, h⟩ := bind_ok_iff.mp h
    split at h
    case isTrue => exact absurd h (by simp)
    case isFalse hne =>
      obtain ⟨a, ha, h⟩ := bind_ok_iff.mp h
      cases h
      simp only [evaluateWith, ihl ha, ihr hd]
      exact if_neg hne
  | negate e ih =>
    obtain ⟨a, ha, h⟩ := bind_ok_iff.mp h
    cases h
    simp only [evaluateWith, ih ha]
    rfl
  | _ => exact absurd h (by simp [evalConstantExpr])

/-- **When an expression is evaluated as it should be.** -/
theorem evaluationSound_iff_not_comesBack (e : Expression) :
    EvaluationSound sectionLayouts memoryRegions e
      ↔ ¬ ComesBack sectionLayouts memoryRegions e := by
  rw [← terminates_iff_not_comesBack]
  refine ⟨And.left, fun hends => ⟨hends, fun value hvalue => ⟨by simp, 1, ?_⟩⟩⟩
  exact evaluateWith_of_constant sectionLayouts _ hvalue

end

/-! ## 7. A region that is defined by itself -/

/-- `{ a : ORIGIN = ORIGIN(a), LENGTH = 1 }` -/
def selfOrigin : Text := "\x7b a : ORIGIN = ORIGIN(a), LENGTH = 1 \x7d".toList

/-- The region is accepted, and its origin is never evaluated to the end. -/
theorem selfOrigin_accepted_and_unsound : ∃ regions : List MemoryRegion,
    parseMemory scanners selfOrigin = some (regions, []) ∧
      ¬ EvaluationSound (fun _ => none) regions (.origin ['a']) := by
  refine ⟨[⟨['a'], .origin ['a'], .number 1⟩], by decide +kernel, fun h => ?_⟩
  exact (terminates_iff_not_comesBack _ _ _).mp h.1 (by decide +kernel)

end Srs.Script
