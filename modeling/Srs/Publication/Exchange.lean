/-
# Publishing a patch of a retained snapshot beside other processes

While `install` publishes a generation that was copied from a retained snapshot, another process
may create, replace or delete the output between any two of its operations (`Elsewhere`).  The
identity of the output is checked before the exchange, but nothing that was seen of the output
holds any longer when the next operation is made; so none of these checks carries the proof.
What carries it is what other processes cannot reach: the generation path.

* As long as nothing was published (`Waiting`), a file of theirs can only be at the output, and
  all that is removed is the generation.
* A hard link is made only where no file is, so it displaces nothing (`Linked`).
* The exchange leaves what it displaced at the generation path, out of reach (`Exchanged`).  From
  there on the generation is not removed by `drop`, and `install` removes the path only after it
  saw that the file there is the expected one in everything but its change time.

The exception is real.  Renaming changes the change time of a file, so it cannot be part of the
comparison after the exchange; and a file that is put at the output between the last check and
the exchange, and that agrees with the expected output in length, device, inode and modification
time, is removed (`raced_file_is_lost`).
-/
import Srs.Publication.DirectlyPatched

namespace Srs.Publication

open Procedure Option
open Incremental (FileIdentity)

/-! ## 1. The other process -/

/-- The object at a path. -/
def At (w : Disk) (p : Path) (object : Nat) : Prop := ∃ f, w.files p = some f ∧ f.object = object

/-- The files of other processes once another process took the output away. -/
def Disk.remaining (w : Disk) : List Nat :=
  w.foreign.filter fun object => (w.files .outputFile).all fun f => f.object ≠ object

/-- Another process creates, replaces or deletes the output. -/
inductive Elsewhere (honest : File → Prop) : Disk → Disk → Prop
  | put {w identity bytes} (h : honest ⟨w.next, identity, bytes⟩) :
      Elsewhere honest w
        { w.create .outputFile identity bytes with foreign := w.next :: w.remaining }
  | delete {w} : Elsewhere honest w { w.put .outputFile none with foreign := w.remaining }

/-- The storage that another process works on too. -/
def shared (honest : File → Prop) : System Operation Reply Disk where
  effect := effect honest
  interference := Elsewhere honest

variable {honest : File → Prop}

variable {object : Nat}

theorem mem_remaining {w : Disk} (h : object ∈ w.remaining) :
    object ∈ w.foreign ∧ ¬ At w .outputFile object := by
  obtain ⟨hmem, hall⟩ := List.mem_filter.mp h
  refine ⟨hmem, ?_⟩
  rintro ⟨f, hf, hobject⟩
  simp [hf, hobject] at hall

variable {w' : Disk}

theorem Elsewhere.files_of_ne {w : Disk} (h : Elsewhere honest w w') {p : Path}
    (hp : p ≠ .outputFile) : w'.files p = w.files p := by
  cases h with
  | put _ => exact Disk.put_files_of_ne _ _ hp
  | delete => exact Disk.put_files_of_ne _ _ hp

theorem Elsewhere.published {w : Disk} (h : Elsewhere honest w w') :
    w'.published = w.published := by
  cases h <;> rfl

/-- What is theirs after another process stepped is at the output, or was theirs and elsewhere. -/
theorem Elsewhere.foreign {w : Disk} (h : Elsewhere honest w w')
    (ho : object ∈ w'.foreign) :
    At w' .outputFile object ∨ object ∈ w.foreign ∧ ¬ At w .outputFile object := by
  cases h with
  | @put identity bytes _ =>
    rcases List.mem_cons.mp ho with rfl | ho
    · exact .inl ⟨_, w.create_files_self .outputFile identity bytes, rfl⟩
    · exact .inr (mem_remaining ho)
  | delete => exact .inr (mem_remaining ho)

/-! ## 2. The points of a publication -/

section

variable (g : File) (path : Path)

/-- The generation is not published yet. -/
structure Waiting (w : Disk) : Prop where
  generation : w.files path = some g
  published : w.published = []
  theirs : ∀ object ∈ w.foreign, At w .outputFile object

/-- Nothing was published, and the generation need not be there any more. -/
structure Withdrawn (w : Disk) : Prop where
  published : w.published = []
  theirs : ∀ object ∈ w.foreign, At w .outputFile object

/-- The generation took a free output path. -/
structure Linked (w : Disk) : Prop where
  published : ∃ f, w.published = [(f, none)] ∧ g.Touched f
  theirs : ∀ object ∈ w.foreign, At w .outputFile object

/-- The generation took the place of a file, which is where the generation was. -/
structure Exchanged (displaced : File) (w : Disk) : Prop where
  published : ∃ f, w.published = [(f, some displaced)] ∧ g.Touched f
  generation : ∃ f, w.files path = some f ∧ displaced.Touched f
  theirs : ∀ object ∈ w.foreign, At w .outputFile object ∨ object = displaced.object

/-- The generation took the place of a file, wherever that file is now. -/
structure Replaced (displaced : File) (w : Disk) : Prop where
  published : ∃ f, w.published = [(f, some displaced)] ∧ g.Touched f
  theirs : ∀ object ∈ w.foreign, At w .outputFile object ∨ object = displaced.object

variable {g path}

theorem theirs_stable {w w' : Disk} (h : Elsewhere honest w w')
    (htheirs : ∀ object ∈ w.foreign, At w .outputFile object) :
    ∀ object ∈ w'.foreign, At w' .outputFile object := by
  intro object ho
  rcases h.foreign ho with hat | ⟨hmem, hnot⟩
  · exact hat
  · exact absurd (htheirs object hmem) hnot

variable {displaced : File} {identity : FileIdentity}

theorem theirs_or_stable {w w' : Disk} (h : Elsewhere honest w w')
    (htheirs : ∀ object ∈ w.foreign, At w .outputFile object ∨ object = displaced.object) :
    ∀ object ∈ w'.foreign, At w' .outputFile object ∨ object = displaced.object := by
  intro object ho
  rcases h.foreign ho with hat | ⟨hmem, hnot⟩
  · exact .inl hat
  · exact .inr ((htheirs object hmem).resolve_left hnot)

theorem stable_waiting (hpath : path ≠ .outputFile) : Stable (shared honest) (Waiting g path) :=
  fun _ _ h hw => ⟨h.files_of_ne hpath ▸ hw.generation, h.published ▸ hw.published,
    theirs_stable h hw.theirs⟩

theorem stable_withdrawn : Stable (shared honest) Withdrawn :=
  fun _ _ h hw => ⟨h.published ▸ hw.published, theirs_stable h hw.theirs⟩

theorem stable_linked : Stable (shared honest) (Linked g) :=
  fun _ _ h hw => ⟨h.published ▸ hw.published, theirs_stable h hw.theirs⟩

theorem stable_exchanged (hpath : path ≠ .outputFile) :
    Stable (shared honest) (Exchanged g path displaced) :=
  fun _ _ h hw => ⟨h.published ▸ hw.published, h.files_of_ne hpath ▸ hw.generation,
    theirs_or_stable h hw.theirs⟩

theorem stable_replaced : Stable (shared honest) (Replaced g displaced) :=
  fun _ _ h hw => ⟨h.published ▸ hw.published, theirs_or_stable h hw.theirs⟩

/-! ## 3. One publication -/

theorem at_put_of_ne {w : Disk} {p q : Path} {object : Nat} (h : q ≠ p) (f : Option File) :
    At (w.put p f) q object ↔ At w q object := by
  simp [At, h]

theorem Linked.remove {w : Disk} (h : Linked g w) (hpath : path ≠ .outputFile) :
    Linked g (w.put path none) :=
  ⟨h.published, fun object ho => (at_put_of_ne hpath.symm none).mpr (h.theirs object ho)⟩

theorem Waiting.remove {w : Disk} (h : Waiting g path w) (hpath : path ≠ .outputFile) :
    Withdrawn (w.put path none) :=
  ⟨h.published, fun object ho => (at_put_of_ne hpath.symm none).mpr (h.theirs object ho)⟩

theorem Withdrawn.create {w : Disk} (h : Withdrawn w) (hpath : path ≠ .outputFile)
    (identity : FileIdentity) (bytes : List UInt8) :
    Waiting ⟨w.next, identity, bytes⟩ path (w.create path identity bytes) :=
  ⟨Disk.create_files_self .., h.published, fun object ho =>
    (at_put_of_ne hpath.symm _).mpr (h.theirs object ho)⟩

theorem Exchanged.remove {w : Disk} (h : Exchanged g path displaced w)
    (hpath : path ≠ .outputFile) : Replaced g displaced (w.put path none) :=
  ⟨h.published, fun object ho =>
    (h.theirs object ho).imp_left (at_put_of_ne hpath.symm none).mpr⟩

/-- A hard link is only made where nothing is, so nothing of theirs was there. -/
theorem Waiting.hardLink {w : Disk} (h : Waiting g path w) {f f' : File}
    (hf : w.files path = some f) (htouched : f.Touched f') (hfree : w.files .outputFile = none) :
    Linked g (((w.put path (some f')).put .outputFile (some f')).record .outputFile f' none) := by
  obtain rfl : g = f := some.inj (h.generation.symm.trans hf)
  refine ⟨⟨f', ?_, htouched⟩, fun object ho => ?_⟩
  · simp [h.published]
  · obtain ⟨f, hf, -⟩ := h.theirs object (by simpa using ho)
    exact absurd hf (by simp [hfree])

theorem Waiting.exchange {w : Disk} (h : Waiting g path w) (hpath : path ≠ .outputFile)
    {f f' d : File} (hf : w.files path = some f) (htouched : f.Touched f')
    (hdisplaced : w.files .outputFile = some displaced) (hd : displaced.Touched d) :
    Exchanged g path displaced
      (((w.put path (some d)).put .outputFile (some f')).record .outputFile f'
        (some displaced)) := by
  obtain rfl : g = f := some.inj (h.generation.symm.trans hf)
  refine ⟨⟨f', ?_, htouched⟩, ⟨d, ?_, hd⟩, fun object ho => .inr ?_⟩
  · simp [h.published]
  · simp [hpath]
  · -- whatever is theirs was at the output, and that is what was displaced
    obtain ⟨f, hf, hobject⟩ := h.theirs object (by simpa using ho)
    obtain rfl : f = displaced := some.inj (hf.symm.trans hdisplaced)
    exact hobject.symm

/-- What holds when `install` returned `r` and left the `DirectlyPatchedOutput` `self`. -/
inductive Installed (g : File) (expected : Option FileIdentity) :
    Except Failure (Option FileIdentity) → DirectlyPatchedOutput → Disk → Prop
  | waiting {e self w} (h : Waiting g self.path w) : Installed g expected (.error e) self w
  | linked {r self w} (hpath : self.path ≠ .outputFile) (h : Linked g w) :
      Installed g expected r self w
  | raced {e self w displaced} (h : Exchanged g self.path displaced w)
      (hself : self.removePathOnDrop = false) : Installed g expected (.error e) self w
  | verified {r self w displaced identity} (h : Replaced g displaced w)
      (hself : self.removePathOnDrop = false) (hexpected : expected = some identity)
      (hmatches : matchesSameDataIgnoringChangeTime displaced.identity identity) :
      Installed g expected r self w

/-- `x` ends in one of the states of `Installed`. -/
abbrev Installs (honest : File → Prop) (g : File) (expected : Option FileIdentity)
    (x : Step DirectlyPatchedOutput (Option FileIdentity)) (self : DirectlyPatchedOutput)
    (w : Disk) : Prop :=
  (x self).Ensures (shared honest) (fun _ => True)
    (fun r w => r.2.path = self.path ∧ Installed g expected r.1 r.2 w) w

variable {expected : Option FileIdentity} {w : Disk} {self : DirectlyPatchedOutput}

/-- **An operation that changes nothing where it fails**, from a stable assertion. -/
theorem ensures_checked {α : Type} {op : Operation} {P : Disk → Prop} {post : α → Disk → Prop}
    {next : Reply op → Procedure Operation Reply α} {w : Disk} (hP : Stable (shared honest) P)
    (hw : P w) (hfails : ∀ w w', Fails honest op w w' → w' = w)
    (herror : ∀ w e, P w → (next (.error e)).Ensures (shared honest) (fun _ => True) post w)
    (hok : ∀ w a w', P w → Succeeds honest op w a w' →
      (next (.ok a)).Ensures (shared honest) (fun _ => True) post w') :
    (call op next).Ensures (shared honest) (fun _ => True) post w := by
  refine ensures_call hP hw (fun _ _ => trivial) ?_
  rintro w r w' hw heffect
  cases r with
  | error e =>
    obtain rfl := hfails w w' heffect.1
    exact herror w' e hw
  | ok a => exact hok w a w' hw heffect

section

variable (hpath : self.path ≠ .outputFile)
include hpath

theorem ensures_failed (hw : Waiting g self.path w) (e : Failure) :
    Installs honest g expected (Action.fail e) self w :=
  ensures_done (stable_waiting hpath) hw (fun _ _ => trivial) fun _ h =>
    ⟨rfl, .waiting h⟩

theorem ensures_linked (hw : Linked g w)
    (r : Except Failure (Option FileIdentity)) :
    Installs honest g expected (Action.unwrap r) self w :=
  ensures_done stable_linked hw (fun _ _ => trivial) fun _ h => ⟨rfl, .linked hpath h⟩

theorem ensures_linkGeneration (message : String) (b : Bool)
    (hw : Waiting g self.path w) :
    Installs honest g expected (linkGeneration self.path .outputFile message b) self w := by
  refine ensures_checked (stable_waiting hpath) hw (fun _ _ h => h)
    (fun w e hw => ensures_failed hpath hw _) ?_
  rintro w _ w' hw ⟨f, f', hf, hfree, htouched, -, rfl⟩
  refine ensures_checked stable_linked (hw.hardLink hf htouched hfree) (fun _ _ h => h)
    (fun w e hw => ensures_linked hpath hw _) ?_
  rintro w found w' hw ⟨rfl, -⟩
  -- with and without a link to remove, the path is removed next
  cases b
  all_goals
    refine ensures_checked stable_linked hw (fun _ _ h => h)
      (fun w e hw => ensures_linked hpath hw _) ?_
    rintro w _ w' hw ⟨-, rfl⟩
    exact ensures_done stable_linked (hw.remove hpath) (fun _ _ => trivial) fun _ h =>
      ⟨rfl, .linked hpath h⟩

theorem ensures_raced
    (hw : Exchanged g self.path displaced w) (hself : self.removePathOnDrop = false) (e : Failure) :
    Installs honest g expected (Action.fail e) self w :=
  ensures_done (stable_exchanged hpath) hw (fun _ _ => trivial) fun _ h =>
    ⟨rfl, .raced h hself⟩

end

theorem ensures_verifyExchange (self : DirectlyPatchedOutput) (hpath : self.path ≠ .outputFile)
    (generationIdentity : Option FileIdentity)
    (hw : Exchanged g self.path displaced w) (hself : self.removePathOnDrop = false) :
    Installs honest g (some identity)
      (verifyExchange self.path .outputFile identity generationIdentity) self w := by
  refine ensures_checked (stable_exchanged hpath) hw (fun _ _ h => h)
    (fun w e hw => ensures_raced hpath hw hself _) ?_
  rintro w found w' hw ⟨rfl, f, hf, -, hfound⟩
  -- the file that is looked at is the displaced one, up to its change time
  have hmatches : found.identity.any (matchesSameDataIgnoringChangeTime · identity) →
      matchesSameDataIgnoringChangeTime displaced.identity identity := by
    intro hany
    obtain ⟨d, hd, htouched⟩ := hw.generation
    obtain rfl : d = f := some.inj (hd.symm.trans hf)
    rcases hfound with hsome | hnone
    · rw [hsome] at hany
      exact matchesSameData_trans (matchesSameData_symm htouched.identity) hany
    · simp [hnone] at hany
  refine ensures_checked (stable_exchanged hpath) hw (fun _ _ h => h)
    (fun w e hw => ensures_raced hpath hw hself _) ?_
  rintro w installed w' hw ⟨rfl, -⟩
  refine Action.ensures_ite (fun hrefuse => ?_) (fun hrefuse => ?_)
  · exact ensures_raced hpath hw hself _
  · refine ensures_checked (stable_exchanged hpath) hw (fun _ _ h => h)
      (fun w e hw => ensures_raced hpath hw hself _) ?_
    rintro w _ w' hw ⟨-, rfl⟩
    refine ensures_done stable_replaced (hw.remove hpath) (fun _ _ => trivial) fun _ h => ?_
    exact ⟨rfl, .verified h hself rfl (hmatches (by simpa using fun h => hrefuse (.inl h)))⟩

/-- `try_exists` sees nothing that matters here, and `install` goes on from where it was. -/
theorem ensures_tryExistsOr (hpath : self.path ≠ .outputFile) (fallback : Bool)
    {x y : Step DirectlyPatchedOutput (Option FileIdentity)} (hw : Waiting g self.path w)
    (hx : ∀ w, Waiting g self.path w → Installs honest g expected x self w)
    (hy : ∀ w, Waiting g self.path w → Installs honest g expected y self w) :
    Installs honest g expected
      (do if ← tryExistsOr fallback .outputFile then x else y) self w := by
  refine ensures_checked (stable_waiting hpath) hw (fun _ _ h => h)
    (fun w e hw => Action.ensures_ite (fun _ => hx _ hw) (fun _ => hy _ hw)) ?_
  rintro w found w' hw ⟨rfl, -⟩
  exact Action.ensures_ite (fun _ => hx _ hw) (fun _ => hy _ hw)

theorem ensures_exchangeAndVerify (hpath : self.path ≠ .outputFile) (platform : Platform)
    (generationIdentity : Option FileIdentity)
    (hw : Waiting g self.path w) :
    Installs honest g (some identity)
      (exchangeAndVerify platform self.path .outputFile identity generationIdentity) self w := by
  -- an exchange that failed left everything as it was
  have hfailed : ∀ (e : Failure) (w : Disk), Waiting g self.path w →
      Installs honest g (some identity) (do
        if ← tryExistsOr true .outputFile then Action.fail e
        else linkGeneration self.path .outputFile disappearedOutputMessage false) self w :=
    fun e w hw => ensures_tryExistsOr hpath true hw (fun _ hw => ensures_failed hpath hw e)
      fun _ hw => ensures_linkGeneration hpath _ _ hw
  unfold exchangeAndVerify exchangeDirectlyPatchedOutputGeneration
  by_cases hplatform : platform = .other
  · rw [if_pos hplatform]
    exact hfailed _ w hw
  · rw [if_neg hplatform]
    refine ensures_checked (stable_waiting hpath) hw (fun _ _ h => h)
      (fun w e hw => hfailed _ w hw) ?_
    rintro w _ w' hw ⟨f, f', displaced, d, hf, hdisplaced, htouched, hd, -, -, rfl⟩
    exact ensures_verifyExchange { self with removePathOnDrop := false } hpath
      generationIdentity (hw.exchange hpath hf htouched hdisplaced hd) rfl

theorem ensures_exchangeExpected (hpath : self.path ≠ .outputFile) (platform : Platform)
    (hw : Waiting g self.path w) :
    Installs honest g (some identity) (exchangeExpected platform self.path .outputFile identity)
      self w := by
  refine ensures_tryExistsOr hpath true hw (fun w hw => ?_)
    fun _ hw => ensures_linkGeneration hpath _ _ hw
  refine ensures_checked (stable_waiting hpath) hw (fun _ _ h => h)
    (fun w e hw => ensures_failed hpath hw _) ?_
  rintro w found w' hw ⟨rfl, -⟩
  refine Action.ensures_ite (fun _ => ensures_failed hpath hw _) fun _ => ?_
  refine ensures_checked (stable_waiting hpath) hw (fun _ _ h => h)
    (fun w e hw => ensures_failed hpath hw _) ?_
  rintro w generation w' hw ⟨rfl, -⟩
  refine ensures_checked (stable_waiting hpath) hw (fun _ _ h => h)
    (fun w e hw => ensures_failed hpath hw _) ?_
  rintro w found w' hw ⟨rfl, -⟩
  exact Action.ensures_ite (fun _ => ensures_failed hpath hw _)
    fun _ => ensures_exchangeAndVerify hpath platform _ hw

/-- A publication from a retained snapshot, as `new` sets it up. -/
structure FromSnapshot (publication : DirectlyPatchedOutput) : Prop where
  published : publication.publishedPath = some .outputFile
  path : publication.path ≠ .outputFile
  standby : publication.standbyStatePath = none
  selected : publication.installIfMissing = publication.publishedIdentity.isNone

theorem ensures_withdrawn {α : Type} {post : α → Disk → Prop} (hw : Withdrawn w) {a : α}
    (hpost : ∀ w, Withdrawn w → post a w) :
    (done a : Procedure Operation Reply α).Ensures (shared honest) (fun _ => True) post w :=
  ensures_done stable_withdrawn hw (fun _ _ => trivial) hpost

theorem ensures_install (platform : Platform) (ranges : List Interval) (hself : FromSnapshot self)
    (hw : Waiting g self.path w) :
    Installs honest g self.publishedIdentity (installWithExchangeHooks platform ranges)
      self w := by
  obtain ⟨path, removePathOnDrop, publishedPath, publishedIdentity, standbyStatePath,
    installIfMissing⟩ := self
  obtain ⟨hpublished, hpath, hstandby, hselected⟩ := hself
  simp only at hpublished hstandby hselected
  subst hpublished hstandby hselected
  cases publishedIdentity with
  | none => exact ensures_linkGeneration hpath _ _ hw
  | some identity => exact ensures_exchangeExpected hpath platform hw

/-- What holds once the `DirectlyPatchedOutput` was dropped, too. -/
def Settled (g : File) (path : Path) (expected : Option FileIdentity)
    (r : Except Failure (Option FileIdentity)) (w : Disk) : Prop :=
  (∀ identity, r = .ok identity → ∃ f displaced, w.published = [(f, displaced)] ∧ g.Touched f ∧
    ∀ d, displaced = some d →
      ∃ e, expected = some e ∧ matchesSameDataIgnoringChangeTime d.identity e) ∧
  ∀ object ∈ w.foreign, At w .outputFile object ∨ At w path object ∨
    ∃ f d e, (f, some d) ∈ w.published ∧ d.object = object ∧ expected = some e ∧
      matchesSameDataIgnoringChangeTime d.identity e

theorem Withdrawn.settled (h : Withdrawn w) (e : Failure) :
    Settled g path expected (.error e) w :=
  ⟨nofun, fun object ho => .inl (h.theirs object ho)⟩

theorem Waiting.settled (h : Waiting g path w) (e : Failure) :
    Settled g path expected (.error e) w :=
  ⟨nofun, fun object ho => .inl (h.theirs object ho)⟩

theorem Linked.settled (h : Linked g w) (r : Except Failure (Option FileIdentity)) :
    Settled g path expected r w := by
  obtain ⟨f, hf, htouched⟩ := h.published
  exact ⟨fun _ _ => ⟨f, none, hf, htouched, nofun⟩, fun object ho => .inl (h.theirs object ho)⟩

theorem Exchanged.settled (h : Exchanged g path displaced w) (e : Failure) :
    Settled g path expected (.error e) w := by
  refine ⟨nofun, fun object ho => ?_⟩
  rcases h.theirs object ho with hat | rfl
  · exact .inl hat
  · obtain ⟨d, hd, htouched⟩ := h.generation
    exact .inr (.inl ⟨d, hd, htouched.object⟩)

theorem Replaced.settled (h : Replaced g displaced w) (hexpected : expected = some identity)
    (hmatches : matchesSameDataIgnoringChangeTime displaced.identity identity)
    (r : Except Failure (Option FileIdentity)) : Settled g path expected r w := by
  obtain ⟨f, hf, htouched⟩ := h.published
  refine ⟨fun _ _ => ⟨f, some displaced, hf, htouched, ?_⟩, fun object ho => ?_⟩
  · rintro _ ⟨⟩
    exact ⟨identity, hexpected, hmatches⟩
  · rcases h.theirs object ho with hat | rfl
    · exact .inl hat
    · exact .inr (.inr ⟨f, displaced, identity, by simp [hf], rfl, hexpected, hmatches⟩)

/-- Dropping the `DirectlyPatchedOutput` removes at most its own generation. -/
theorem ensures_drop (hpath : self.path ≠ .outputFile)
    {r : Except Failure (Option FileIdentity)} (hw : Installed g expected r self w) :
    (do let _ ← (self.drop : Step Unit Unit) (); return r : Procedure Operation Reply _).Ensures
      (shared honest) (fun _ => True) (Settled g self.path expected) w := by
  unfold DirectlyPatchedOutput.drop
  by_cases hdrop : self.publishedPath.isSome ∧ self.removePathOnDrop
  · rw [if_pos hdrop]
    cases hw with
    | waiting hw =>
      refine ensures_checked (stable_waiting hpath) hw (fun _ _ h => h)
        (fun w e hw => ensures_done (stable_waiting hpath) hw (fun _ _ => trivial) fun _ h => h.settled _) ?_
      rintro w _ w' hw ⟨-, rfl⟩
      exact ensures_withdrawn (hw.remove hpath) fun _ h => h.settled _
    | linked _ hw =>
      refine ensures_checked stable_linked hw (fun _ _ h => h)
        (fun w e hw => ensures_done stable_linked hw (fun _ _ => trivial) fun _ h => h.settled _) ?_
      rintro w _ w' hw ⟨-, rfl⟩
      exact ensures_done stable_linked (hw.remove hpath) (fun _ _ => trivial)
        fun _ h => h.settled _
    | raced _ hself => exact absurd hdrop.2 (by simp [hself])
    | verified _ hself _ _ => exact absurd hdrop.2 (by simp [hself])
  · rw [if_neg hdrop]
    cases hw with
    | waiting hw =>
      exact ensures_done (stable_waiting hpath) hw (fun _ _ => trivial) fun _ h => h.settled _
    | linked _ hw =>
      exact ensures_done stable_linked hw (fun _ _ => trivial) fun _ h => h.settled _
    | raced hw _ =>
      exact ensures_done (stable_exchanged hpath) hw (fun _ _ => trivial) fun _ h => h.settled _
    | verified hw _ hexpected hmatches =>
      exact ensures_done stable_replaced hw (fun _ _ => trivial)
        fun _ h => h.settled hexpected hmatches _

theorem ensures_installAndDrop (platform : Platform) (ranges : List Interval)
    (hself : FromSnapshot self) (hw : Waiting g self.path w) :
    (installAndDrop platform ranges self).Ensures (shared honest) (fun _ => True)
      (Settled g self.path self.publishedIdentity) w := by
  refine Ensures.bind ((ensures_install platform ranges hself hw).mono ?_)
  rintro ⟨r, self'⟩ w - ⟨hpath, hw⟩
  have hdrop := @ensures_drop honest g _ w self' (hpath ▸ hself.path) r hw
  rw [hpath] at hdrop
  exact hdrop

/-- **No file of another process is lost** to a publication from a retained snapshot, whatever
that process does to the output in between, unless the file is the expected output in everything
but its change time.  A publication that succeeds put the generation at the output path, and
displaced at most the expected output, up to the change time. -/
theorem install_keeps_foreign_files {platform : Platform} {ranges : List Interval} {w' : Disk}
    {r : Except Failure (Option FileIdentity)} (hself : FromSnapshot self)
    (hw : Waiting g self.path w)
    (hrun : Run (shared honest) (installAndDrop platform ranges self) w (some r) w') :
    (∀ identity, r = .ok identity → ∃ f displaced, w'.published = [(f, displaced)] ∧
      g.Touched f ∧ ∀ d, displaced = some d → ∃ e, self.publishedIdentity = some e ∧
        matchesSameDataIgnoringChangeTime d.identity e) ∧
    ∀ object ∈ w'.foreign, At w' .outputFile object ∨ At w' self.path object ∨
      ∃ f d e, (f, some d) ∈ w'.published ∧ d.object = object ∧ self.publishedIdentity = some e ∧
        matchesSameDataIgnoringChangeTime d.identity e :=
  ((ensures_installAndDrop platform ranges hself hw).run hrun).2 r rfl

end

/-! ## 4. The one file that can be lost -/

/-- The output that the snapshot was taken of, as `new` saw it. -/
def seenIdentity : FileIdentity := ⟨8, 1, 10, 5, 0, 5, 0⟩

/-- A file in its place later on: only its change time differs. -/
def racedIdentity : FileIdentity := { seenIdentity with changedNsec := 1 }

def generationIdentity : FileIdentity := ⟨8, 1, 11, 6, 0, 6, 0⟩

def racedPublication : DirectlyPatchedOutput :=
  { path := .generationFile 0, removePathOnDrop := true, publishedPath := some .outputFile,
    publishedIdentity := some seenIdentity, standbyStatePath := none, installIfMissing := false }

def racedGeneration : File := ⟨1, generationIdentity, [2]⟩

def racedStart : Disk where
  files := Function.update (Function.update (fun _ => none) (.generationFile 0)
    (some racedGeneration)) .outputFile (some ⟨0, seenIdentity, [1]⟩)
  next := 2
  published := []
  foreign := []

/-- Another process replaces the output before the exchange. -/
def racedReplaced : Disk :=
  { racedStart.create .outputFile racedIdentity [3] with
    foreign := racedStart.next :: racedStart.remaining }

def racedFile : File := ⟨2, racedIdentity, [3]⟩

def racedExchanged : Disk :=
  ((racedReplaced.put (.generationFile 0) (some racedFile)).put .outputFile
    (some racedGeneration)).record .outputFile racedGeneration (some racedFile)

def racedEnd : Disk := racedExchanged.put (.generationFile 0) none

theorem run_succeeds {α : Type} {op : Operation} {a : Value op} {w w'' : Disk} {o : Option α}
    {next : Reply op → Procedure Operation Reply α} (h : Succeeds honest op w a w')
    (hrun : Run (shared honest) (next (.ok a)) w' o w'') :
    Run (shared honest) (.call op next) w o w'' :=
  have heffect : (shared honest).effect op w (.ok a) w' := h
  .call heffect hrun

/-- The run: the output is replaced after it was seen to be the expected one. -/
theorem raced_run : Run (shared fun _ => True) (installAndDrop .linux [] racedPublication)
    racedStart (some (.ok (some generationIdentity))) racedEnd := by
  let found : Value (.tryExists .outputFile) := true
  let seen : Value (.metadata .outputFile) := (⟨1, some seenIdentity⟩ : Metadata)
  let own : Value (.metadata (.generationFile 0)) := (⟨1, some generationIdentity⟩ : Metadata)
  let exchanged : Value (.exchange (.generationFile 0) .outputFile) := ()
  let raced : Value (.metadata (.generationFile 0)) := (⟨1, some racedIdentity⟩ : Metadata)
  let installed : Value (.metadata .outputFile) := (⟨1, some generationIdentity⟩ : Metadata)
  let removed : Value (.remove (.generationFile 0)) := ()
  have hreplace : Elsewhere (fun _ => True) racedStart racedReplaced := .put trivial
  refine run_succeeds (a := found) ⟨rfl, rfl⟩ ?_
  refine run_succeeds (a := seen) ⟨rfl, _, rfl, rfl, .inl rfl⟩ ?_
  refine run_succeeds (a := own) ⟨rfl, _, rfl, rfl, .inl rfl⟩ ?_
  refine run_succeeds (a := seen) ⟨rfl, _, rfl, rfl, .inl rfl⟩ ?_
  refine .interference hreplace ?_
  refine run_succeeds (a := exchanged) ⟨racedGeneration, racedGeneration, racedFile, racedFile,
    rfl, rfl, .refl _, .refl _, trivial, trivial, rfl⟩ ?_
  refine run_succeeds (a := raced) ⟨rfl, _, rfl, rfl, .inl rfl⟩ ?_
  refine run_succeeds (a := installed) ⟨rfl, _, rfl, rfl, .inl rfl⟩ ?_
  refine run_succeeds (a := removed) ⟨⟨_, rfl⟩, rfl⟩ ?_
  exact .done _ _

theorem racedPublication_fromSnapshot : FromSnapshot racedPublication := ⟨rfl, nofun, rfl, rfl⟩

theorem racedStart_waiting : Waiting racedGeneration racedPublication.path racedStart :=
  ⟨rfl, rfl, nofun⟩

/-- The theorem above at this run: what it says of the displaced file is all that can be said. -/
theorem install_keeps_foreign_files_raced :
    ∃ f displaced, racedEnd.published = [(f, displaced)] ∧ racedGeneration.Touched f ∧
      ∀ d, displaced = some d → ∃ e, racedPublication.publishedIdentity = some e ∧
        matchesSameDataIgnoringChangeTime d.identity e :=
  (install_keeps_foreign_files racedPublication_fromSnapshot racedStart_waiting raced_run).1 _ rfl

/-- **A file that differs from the expected output in its change time only is lost**: it is
displaced by a publication that succeeds, and removed. -/
theorem raced_file_is_lost :
    FromSnapshot racedPublication ∧ Waiting racedGeneration racedPublication.path racedStart ∧
      Run (shared fun _ => True) (installAndDrop .linux [] racedPublication) racedStart
        (some (.ok (some generationIdentity))) racedEnd ∧
      racedEnd.published = [(racedGeneration, some racedFile)] ∧
      some racedFile.identity ≠ racedPublication.publishedIdentity ∧
      racedFile.object ∈ racedEnd.foreign ∧ ¬ At racedEnd .outputFile racedFile.object ∧
      ¬ At racedEnd racedPublication.path racedFile.object := by
  refine ⟨racedPublication_fromSnapshot, racedStart_waiting, raced_run, rfl, by decide, by decide,
    ?_, ?_⟩
  · rintro ⟨f, hf, hobject⟩
    obtain rfl : racedGeneration = f := some.inj hf
    exact absurd hobject (by decide)
  · rintro ⟨f, hf, -⟩
    exact absurd hf (by simp [racedEnd, racedPublication])

end Srs.Publication
