/-
# The files that a directly patched output is published through

A directly patched output is patched in a private file, the generation, and the generation then
takes the place of the output.  This file is the storage that this happens on: what is at the
output path, at the standby path, at the unique generation paths and at the state path of the
standby, and what each file-system operation does to it.

An operation replies with a value or fails, and which of the two is not determined.  A file has
the identity that `metadata` shows of it, and it has an object number of its own, which nothing
in the program sees: two files put at one path one after the other are different objects even
where nothing else tells them apart.  Writing, renaming and linking give the file an identity
that is not determined either, except that renaming and linking leave everything but the change
time as it was.  `honest` restricts which identity a file may have; what is proved about the
contents of files needs that equal identities mean equal contents.

`published` and `foreign` are no part of the storage.  They record what this process put at the
output path and what it displaced there, and which files of other processes were put there and
not taken away by other processes since.
-/
import Srs.Incremental.InputLine
import Srs.Lib.Procedures

namespace Srs.Publication

open Incremental (FileIdentity)

/-! ## 1. Identities and files -/

/-- `FileIdentity::matches_same_data_ignoring_change_time`. -/
def matchesSameDataIgnoringChangeTime (identity other : FileIdentity) : Bool :=
  identity.len = other.len && identity.dev = other.dev && identity.ino = other.ino &&
    identity.modifiedSec = other.modifiedSec && identity.modifiedNsec = other.modifiedNsec

theorem matchesSameData_refl (a : FileIdentity) : matchesSameDataIgnoringChangeTime a a := by
  simp [matchesSameDataIgnoringChangeTime]

theorem matchesSameData_symm {a b : FileIdentity}
    (h : matchesSameDataIgnoringChangeTime a b) : matchesSameDataIgnoringChangeTime b a := by
  simp only [matchesSameDataIgnoringChangeTime, Bool.and_eq_true, decide_eq_true_eq] at h ⊢
  obtain ⟨⟨⟨⟨h1, h2⟩, h3⟩, h4⟩, h5⟩ := h
  exact ⟨⟨⟨⟨h1.symm, h2.symm⟩, h3.symm⟩, h4.symm⟩, h5.symm⟩

theorem matchesSameData_trans {a b c : FileIdentity}
    (h : matchesSameDataIgnoringChangeTime a b) (h' : matchesSameDataIgnoringChangeTime b c) :
    matchesSameDataIgnoringChangeTime a c := by
  simp only [matchesSameDataIgnoringChangeTime, Bool.and_eq_true, decide_eq_true_eq] at h h' ⊢
  obtain ⟨⟨⟨⟨h1, h2⟩, h3⟩, h4⟩, h5⟩ := h
  obtain ⟨⟨⟨⟨g1, g2⟩, g3⟩, g4⟩, g5⟩ := h'
  exact ⟨⟨⟨⟨h1.trans g1, h2.trans g2⟩, h3.trans g3⟩, h4.trans g4⟩, h5.trans g5⟩

structure File where
  object : Nat
  identity : FileIdentity
  bytes : List UInt8
  deriving DecidableEq

/-- The same file after its directory entry changed: only the change time may be another. -/
structure File.Touched (f f' : File) : Prop where
  object : f'.object = f.object
  bytes : f'.bytes = f.bytes
  identity : matchesSameDataIgnoringChangeTime f'.identity f.identity

theorem File.Touched.refl (f : File) : f.Touched f := ⟨rfl, rfl, matchesSameData_refl _⟩

/-- The output, and the files of the state directory that it is published through. -/
inductive Path
  | outputFile
  | standbyFile
  | standbyStateFile
  | standbyStateTmpFile
  | generationFile (sequence : Nat)
  | selectedFile
  deriving DecidableEq

structure Disk where
  files : Path → Option File
  /-- The object number that the next new file gets. -/
  next : Nat
  /-- What this process put at the output path, each with the file it displaced. -/
  published : List (File × Option File)
  /-- The files of other processes that were put at the output path and are still theirs. -/
  foreign : List Nat

namespace Disk

def put (w : Disk) (p : Path) (f : Option File) : Disk :=
  { w with files := Function.update w.files p f }

/-- This process put a file at a path: recorded where it is the output path. -/
def record (w : Disk) (p : Path) (f : File) (displaced : Option File) : Disk :=
  if p = .outputFile then { w with published := w.published ++ [(f, displaced)] } else w

/-- A new object. -/
def create (w : Disk) (p : Path) (identity : FileIdentity) (bytes : List UInt8) : Disk :=
  { w.put p (some ⟨w.next, identity, bytes⟩) with next := w.next + 1 }

variable (w : Disk) (p q : Path) (f : Option File)

@[simp] theorem put_files_self : (w.put p f).files p = f := Function.update_self ..

@[simp] theorem put_files_of_ne {p q : Path} (h : q ≠ p) : (w.put p f).files q = w.files q :=
  Function.update_of_ne h ..

@[simp] theorem put_next : (w.put p f).next = w.next := rfl

@[simp] theorem put_published : (w.put p f).published = w.published := rfl

@[simp] theorem put_foreign : (w.put p f).foreign = w.foreign := rfl

@[simp] theorem create_files_self (identity : FileIdentity) (bytes : List UInt8) :
    (w.create p identity bytes).files p = some ⟨w.next, identity, bytes⟩ := put_files_self ..

@[simp] theorem create_files_of_ne {p q : Path} (h : q ≠ p) (identity : FileIdentity)
    (bytes : List UInt8) : (w.create p identity bytes).files q = w.files q :=
  put_files_of_ne _ _ h

@[simp] theorem record_files (g : File) : (w.record p g f).files = w.files := by
  unfold record
  split <;> rfl

@[simp] theorem record_next (g : File) : (w.record p g f).next = w.next := by
  unfold record
  split <;> rfl

@[simp] theorem record_foreign (g : File) : (w.record p g f).foreign = w.foreign := by
  unfold record
  split <;> rfl

@[simp] theorem record_output_published (g : File) :
    (w.record .outputFile g f).published = w.published ++ [(g, f)] := rfl

end Disk

/-! ## 2. Operations -/

/-- `io::ErrorKind`, as far as the program asks for it. -/
inductive ErrorKind
  | notFound
  | other
  deriving DecidableEq

/-- A failure: its message, with the paths that are put into it. -/
structure Failure where
  kind : ErrorKind
  message : String
  paths : List Path
  deriving DecidableEq

/-- What `std::fs::metadata` shows.  Outside Unix a file has no identity. -/
structure Metadata where
  len : Nat
  identity : Option FileIdentity

inductive Operation
  | tryExists (p : Path)
  | metadata (p : Path)
  | read (p : Path)
  | hardLink (p q : Path)
  | exchange (p q : Path)
  | rename (p q : Path)
  | remove (p : Path)
  | cloneBytes (p q : Path)
  | copyToUnique (p : Path)
  | readAt (p : Path) (offset len : Nat)
  | writeAt (p : Path) (offset : Nat) (bytes : List UInt8)
  | write (p : Path) (bytes : List UInt8)
  deriving DecidableEq

/-- What an operation replies with when it succeeds. -/
def Value : Operation → Type
  | .tryExists _ => Bool
  | .metadata _ => Metadata
  | .read _ => List UInt8
  | .copyToUnique _ => Path
  | .readAt .. => List UInt8
  | _ => Unit

abbrev Reply (op : Operation) : Type := Except Failure (Value op)

/-- The bytes of a file after some were written at an offset: a gap is filled with zeros. -/
def overwrite (bytes : List UInt8) (offset : Nat) (data : List UInt8) : List UInt8 :=
  bytes.take offset ++ List.replicate (offset - bytes.length) 0 ++ data ++
    bytes.drop (offset + data.length)

variable (honest : File → Prop)

/-- The file at `p` becomes another one, of the same object, with the given bytes. -/
def Rewritten (p : Path) (bytes : List UInt8) (w w' : Disk) : Prop :=
  ∃ f f' : File, w.files p = some f ∧ f'.object = f.object ∧ f'.bytes = bytes ∧ honest f' ∧
    w' = w.put p (some f')

/-- A new file at a path where none is. -/
def Created (p : Path) (bytes : List UInt8) (w w' : Disk) : Prop :=
  ∃ identity, w.files p = none ∧ honest ⟨w.next, identity, bytes⟩ ∧ w' = w.create p identity bytes

/-- An operation that succeeds. -/
def Succeeds : (op : Operation) → Disk → Value op → Disk → Prop
  | .tryExists p, w, r, w' => w' = w ∧ r = (w.files p).isSome
  | .metadata p, w, r, w' => w' = w ∧ ∃ f, w.files p = some f ∧ r.len = f.bytes.length ∧
      (r.identity = some f.identity ∨ r.identity = none)
  | .read p, w, r, w' => w' = w ∧ ∃ f, w.files p = some f ∧ r = f.bytes
  | .hardLink p q, w, _, w' => ∃ f f', w.files p = some f ∧ w.files q = none ∧ f.Touched f' ∧
      honest f' ∧ w' = ((w.put p (some f')).put q (some f')).record q f' none
  | .exchange p q, w, _, w' => ∃ f f' g g', w.files p = some f ∧ w.files q = some g ∧
      f.Touched f' ∧ g.Touched g' ∧ honest f' ∧ honest g' ∧
      w' = ((w.put p (some g')).put q (some f')).record q f' (some g)
  | .rename p q, w, _, w' => ∃ f f', w.files p = some f ∧ f.Touched f' ∧ honest f' ∧
      w' = ((w.put p none).put q (some f')).record q f' (w.files q)
  | .remove p, w, _, w' => (∃ f, w.files p = some f) ∧ w' = w.put p none
  | .cloneBytes p q, w, _, w' => ∃ f, w.files p = some f ∧ Created honest q f.bytes w w'
  | .copyToUnique p, w, r, w' => ∃ f n, w.files p = some f ∧ r = Path.generationFile n ∧
      Created honest (.generationFile n) f.bytes w w'
  | .readAt p offset len, w, r, w' => w' = w ∧ ∃ f, w.files p = some f ∧
      offset + len ≤ f.bytes.length ∧ r = (f.bytes.drop offset).take len
  | .writeAt p offset bytes, w, _, w' => ∃ f, w.files p = some f ∧
      Rewritten honest p (overwrite f.bytes offset bytes) w w'
  | .write p bytes, w, _, w' => Rewritten honest p bytes w w' ∨ Created honest p bytes w w'

/-- An operation that fails.  A write that fails may have written some of its bytes. -/
def Fails : Operation → Disk → Disk → Prop
  | .writeAt p offset bytes, w, w' => w' = w ∨ ∃ f n, w.files p = some f ∧
      Rewritten honest p (overwrite f.bytes offset (bytes.take n)) w w'
  | .write p bytes, w, w' => w' = w ∨ ∃ n,
      Rewritten honest p (bytes.take n) w w' ∨ Created honest p (bytes.take n) w w'
  | _, w, w' => w' = w

/-- Nothing is reported as not found that is there. -/
def effect (op : Operation) (w : Disk) (r : Reply op) (w' : Disk) : Prop :=
  match r with
  | .ok a => Succeeds honest op w a w'
  | .error e => Fails honest op w w' ∧
      (e.kind = .notFound → ∀ p, op = .remove p → w.files p = none)

end Srs.Publication
