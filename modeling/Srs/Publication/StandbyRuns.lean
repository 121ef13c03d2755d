/-
# A standby that is caught up is the output

`content` is what an identity says about a file: files of different contents have different
identities (`Honest`).  The invariant of the state directory is then a statement about the state
file alone (`Sound`).  It does not speak of what is at the output or the standby path now, but of
every two files with the identities that the state file names; so nothing that happens to the
two paths can break it, a crash in the middle of a catch-up or of a publication included.

Section 2 is the frame: an operation that puts nothing at the state path keeps the invariant
(`Sound.effect`), so only one step of the program has more to show.  Section 3 goes through the
catch-up.  That the two identities are those of the files now is what turns the state file into a
fact about them (`meets_readStandbyRanges`), and copying the ranges then leaves no difference
(`meets_copyOutputRanges`).  A copy that fails half-way leaves a standby that is discarded.
-/
import Srs.Publication.Standby

namespace Srs.Publication

open Procedure Text Option DirectlyPatchedOutput
open Incremental (FileIdentity)

/-! ## 1. What holds between and within the links -/

section

variable (content : FileIdentity → List UInt8)

/-- The identity of a file says what its content is. -/
def Honest (f : File) : Prop := f.bytes = content f.identity

/-- The storage while the state is locked: nobody else works on it. -/
def locked : System Operation Reply Disk where
  effect := effect (Honest content)
  interference _ _ := False

/-- What the state file says holds of every two files with the identities that it names. -/
def StateSays (f : File) : Prop :=
  ∃ o s ranges, f.bytes = encodeText (standbyStateText o s ranges) ∧
    AgreeExcept (Covered ranges) (content s) (content o)

/-- **The invariant.**  It survives a crash anywhere: the state file speaks of identities, not of
what is at the two paths now. -/
structure Sound (w : Disk) : Prop where
  honest : ∀ p f, w.files p = some f → Honest content f
  state : ∀ f, w.files .standbyStateFile = some f → StateSays content f

end

/-- The operation may put a file at the path, or give the file there another identity. -/
def Operation.MayFill (q : Path) : Operation → Prop
  | .hardLink p p' => q = p ∨ q = p'
  | .exchange p p' => q = p ∨ q = p'
  | .rename _ p => q = p
  | .cloneBytes _ p => q = p
  | .copyToUnique _ => ∃ n, q = .generationFile n
  | .writeAt p _ _ => q = p
  | .write p _ => q = p
  | _ => False

section

variable {honest : File → Prop} {w w' : Disk} {p q : Path}

theorem put_files (f : Option File) :
    (w.put p f).files q = if q = p then f else w.files q := by
  simp [Disk.put, Function.update_apply]

variable {bytes : List UInt8} {op : Operation}

theorem Rewritten.files (h : Rewritten honest p bytes w w') :
    (∃ f', w'.files p = some f' ∧ f'.bytes = bytes ∧ honest f') ∧
      ∀ q, q ≠ p → w'.files q = w.files q := by
  obtain ⟨f, f', -, -, hbytes, hhonest, rfl⟩ := h
  exact ⟨⟨f', by simp, hbytes, hhonest⟩, fun q hq => by simp [hq]⟩

theorem Created.files (h : Created honest p bytes w w') :
    (∃ f', w'.files p = some f' ∧ f'.bytes = bytes ∧ honest f') ∧
      ∀ q, q ≠ p → w'.files q = w.files q := by
  obtain ⟨identity, -, hhonest, rfl⟩ := h
  exact ⟨⟨_, w.create_files_self p identity bytes, rfl, hhonest⟩, fun q hq => by simp [hq]⟩

/-- What is at a path after an operation: what was there, nothing, or an honest file. -/
def Kept (honest : File → Prop) (op : Operation) (w w' : Disk) (q : Path) : Prop :=
  w'.files q = w.files q ∨ w'.files q = none ∨
    op.MayFill q ∧ ∃ f, w'.files q = some f ∧ honest f

theorem kept_of_filled (hop : ∀ q, q = p → op.MayFill q)
    (h : (∃ f', w'.files p = some f' ∧ f'.bytes = bytes ∧ honest f') ∧
      ∀ q, q ≠ p → w'.files q = w.files q) : Kept honest op w w' q := by
  by_cases hq : q = p
  · subst hq
    obtain ⟨⟨f, hf, -, hhonest⟩, -⟩ := h
    exact .inr (.inr ⟨hop q rfl, f, hf, hhonest⟩)
  · exact .inl (h.2 q hq)

theorem kept_of_succeeds {a : Value op} (h : Succeeds honest op w a w')
    (q : Path) : Kept honest op w w' q := by
  cases op with
  | tryExists p => exact .inl (h.1 ▸ rfl)
  | metadata p => exact .inl (h.1 ▸ rfl)
  | read p => exact .inl (h.1 ▸ rfl)
  | readAt p offset len => exact .inl (h.1 ▸ rfl)
  | hardLink p p' =>
    obtain ⟨f, f', -, -, -, hhonest, rfl⟩ := h
    simp only [Kept, Disk.record_files, put_files]
    by_cases hp' : q = p'
    · exact .inr (.inr ⟨.inr hp', f', by simp [hp'], hhonest⟩)
    · by_cases hp : q = p
      · exact .inr (.inr ⟨.inl hp, f', by simp [hp], hhonest⟩)
      · simp [hp, hp']
  | exchange p p' =>
    obtain ⟨f, f', g, g', -, -, -, -, hf', hg', rfl⟩ := h
    simp only [Kept, Disk.record_files, put_files]
    by_cases hp' : q = p'
    · exact .inr (.inr ⟨.inr hp', f', by simp [hp'], hf'⟩)
    · by_cases hp : q = p
      · subst hp
        exact .inr (.inr ⟨.inl rfl, g', by simp [hp'], hg'⟩)
      · simp [hp, hp']
  | rename p p' =>
    obtain ⟨f, f', -, -, hhonest, rfl⟩ := h
    simp only [Kept, Disk.record_files, put_files]
    by_cases hp' : q = p'
    · exact .inr (.inr ⟨hp', f', by simp [hp'], hhonest⟩)
    · by_cases hp : q = p
      · subst hp
        exact .inr (.inl (by simp [hp']))
      · simp [hp, hp']
  | remove p =>
    obtain ⟨-, rfl⟩ := h
    simp only [Kept, put_files]
    by_cases hp : q = p <;> simp [hp]
  | cloneBytes p p' =>
    obtain ⟨f, -, h⟩ := h
    exact kept_of_filled (fun _ hq => hq) h.files
  | copyToUnique p =>
    obtain ⟨f, n, -, -, h⟩ := h
    exact kept_of_filled (fun _ hq => ⟨n, hq⟩) h.files
  | writeAt p offset bytes =>
    obtain ⟨f, -, h⟩ := h
    exact kept_of_filled (fun _ hq => hq) h.files
  | write p bytes =>
    rcases h with h | h
    · exact kept_of_filled (fun _ hq => hq) h.files
    · exact kept_of_filled (fun _ hq => hq) h.files

theorem kept_of_fails (h : Fails honest op w w') (q : Path) :
    Kept honest op w w' q := by
  cases op with
  | writeAt p offset bytes =>
    rcases h with rfl | ⟨f, n, -, h⟩
    · exact .inl rfl
    · exact kept_of_filled (fun _ hq => hq) h.files
  | write p bytes =>
    rcases h with rfl | ⟨n, h | h⟩
    · exact .inl rfl
    · exact kept_of_filled (fun _ hq => hq) h.files
    · exact kept_of_filled (fun _ hq => hq) h.files
  | _ => exact .inl (h ▸ rfl)

theorem kept_of_effect {r : Reply op} (h : effect honest op w r w') (q : Path) :
    Kept honest op w w' q := by
  cases r with
  | error e => exact kept_of_fails h.1 q
  | ok a => exact kept_of_succeeds h q

end

/-! ## 2. Operations and the invariant -/

section

variable {content : FileIdentity → List UInt8} {w w' : Disk} {α : Type}
  {post : α → Disk → Prop}

variable {op : Operation}

theorem Sound.effect {r : Reply op} (h : Sound content w)
    (hop : ¬ op.MayFill .standbyStateFile) (heffect : effect (Honest content) op w r w') :
    Sound content w' := by
  refine ⟨fun p f hf => ?_, fun f hf => ?_⟩
  · rcases kept_of_effect heffect p with heq | hnone | ⟨-, f', hf', hhonest⟩
    · exact h.honest p f (heq ▸ hf)
    · exact absurd (hnone.symm.trans hf) nofun
    · exact some.inj (hf'.symm.trans hf) ▸ hhonest
  · rcases kept_of_effect heffect .standbyStateFile with heq | hnone | ⟨hfill, -⟩
    · exact h.state f (heq ▸ hf)
    · exact absurd (hnone.symm.trans hf) nofun
    · exact absurd hfill hop

theorem stable_locked (P : Disk → Prop) : Stable (locked content) P :=
  stable_of_alone (fun _ _ h => h) P

/-- **One operation** that leaves the state file alone. -/
theorem ensures_step {next : Reply op → Procedure Operation Reply α}
    (h : Sound content w) (hop : ¬ op.MayFill .standbyStateFile)
    (hnext : ∀ r w', effect (Honest content) op w r w' → Sound content w' →
      (next r).Ensures (locked content) (Sound content) post w') :
    (call op next).Ensures (locked content) (Sound content) post w := by
  refine ensures_call (stable_locked (· = w)) rfl (fun _ hw => hw ▸ h) ?_
  rintro w r w' rfl heffect
  exact hnext r w' heffect (h.effect hop heffect)

/-- An operation that changes nothing where it fails. -/
theorem ensures_tried {next : Reply op → Procedure Operation Reply α}
    (h : Sound content w) (hop : ¬ op.MayFill .standbyStateFile)
    (hfails : ∀ w', Fails (Honest content) op w w' → w' = w)
    (herror : ∀ e, (next (.error e)).Ensures (locked content) (Sound content) post w)
    (hok : ∀ a w', Succeeds (Honest content) op w a w' → Sound content w' →
      (next (.ok a)).Ensures (locked content) (Sound content) post w') :
    (call op next).Ensures (locked content) (Sound content) post w := by
  refine ensures_step h hop fun r w' heffect hw' => ?_
  cases r with
  | error e =>
    obtain rfl := hfails w' heffect.1
    exact herror e
  | ok a => exact hok a w' heffect hw'

theorem ensures_end {a : α} (h : Sound content w) (hpost : post a w) :
    (done a : Procedure Operation Reply α).Ensures (locked content) (Sound content) post w :=
  ensures_done (stable_locked (· = w)) rfl (fun _ hw => hw ▸ h) fun _ hw => hw ▸ hpost

end

/-! ## 3. The steps of the program -/

section

variable {content : FileIdentity → List UInt8} {σ α β : Type} {s : σ} {w : Disk}

/-- The invariant holds throughout, and `post` at the end. -/
abbrev Meets (content : FileIdentity → List UInt8) (x : Step σ α) (s : σ) (w : Disk)
    (post : Except Failure α × σ → Disk → Prop) : Prop :=
  (x s).Ensures (locked content) (Sound content) post w

variable {post : Except Failure β × σ → Disk → Prop}

theorem meets_orNone {x : Option α} {f : α → Step σ β} (hw : Sound content w)
    (hsome : ∀ a, x = some a → Meets content (f a) s w post)
    (hnone : ∀ e, post (.error e, s) w) : Meets content (orNone x >>= f) s w post := by
  cases x with
  | none => exact ensures_end hw (hnone _)
  | some a => exact hsome a rfl

theorem meets_orNone_last {x : Option β} (hw : Sound content w)
    (hsome : ∀ a, x = some a → post (.ok a, s) w) (hnone : ∀ e, post (.error e, s) w) :
    Meets content (orNone x) s w post := by
  cases x with
  | none => exact ensures_end hw (hnone _)
  | some a => exact ensures_end hw (hsome a rfl)

variable {f : Option FileIdentity → Step σ β} {differs : Nat → Prop}

variable {p : Path} {honest : File → Prop}

theorem identity_of_metadata {found : Metadata} {w' : Disk}
    (h : Succeeds honest (.metadata p) w found w') :
    w' = w ∧ ∀ i ∈ found.identity, ∃ g, w.files p = some g ∧ g.identity = i := by
  obtain ⟨hw, g, hg, -, hidentity⟩ := h
  refine ⟨hw, fun i hi => ⟨g, hg, ?_⟩⟩
  rcases hidentity with h | h
  · exact some.inj (h.symm.trans hi)
  · exact absurd (h.symm.trans hi) nofun

/-- The identity that is read is that of the file at the path. -/
theorem meets_identityIfAny (hw : Sound content w)
    (hnext : ∀ identity, (∀ i ∈ identity, ∃ g, w.files p = some g ∧ g.identity = i) →
      Meets content (f identity) s w post) : Meets content (identityIfAny p >>= f) s w post := by
  refine ensures_tried hw (fun h => h) (fun _ h => h) (fun e => hnext none nofun) ?_
  rintro found w' hfound _
  obtain ⟨rfl, hidentity⟩ := identity_of_metadata hfound
  exact hnext found.identity hidentity

theorem meets_fromPath (hw : Sound content w)
    (hnext : ∀ identity, (∀ i ∈ identity, ∃ g, w.files p = some g ∧ g.identity = i) →
      Meets content (f identity) s w post)
    (hfail : ∀ e, post (.error e, s) w) : Meets content (fromPath p >>= f) s w post := by
  refine ensures_tried hw (fun h => h) (fun _ h => h) (fun e => ensures_end hw (hfail _)) ?_
  rintro found w' hfound _
  obtain ⟨rfl, hidentity⟩ := identity_of_metadata hfound
  exact hnext found.identity hidentity

theorem meets_ignoreRemove {f : Unit → Step σ β} (hw : Sound content w)
    (hnext : ∀ w', Sound content w' → (∀ q, q ≠ p → w'.files q = w.files q) →
      Meets content (f ()) s w' post) :
    Meets content (ignore (perform (.remove p)) >>= f) s w post := by
  refine ensures_tried hw (fun h => h) (fun _ h => h) (fun e => hnext _ hw fun _ _ => rfl) ?_
  rintro _ w' ⟨-, rfl⟩ hw'
  exact hnext _ hw' fun q hq => by simp [hq]

/-- The output and the standby are there, and agree except for some positions. -/
def Beside (differs : Nat → Prop) (w : Disk) : Prop :=
  ∃ f g, w.files .outputFile = some f ∧ w.files .standbyFile = some g ∧
    AgreeExcept differs g.bytes f.bytes

/-- **The ranges that are read are where the two files differ now**: the state file names the
identities that they have. -/
theorem meets_readStandbyRanges (hw : Sound content w) :
    Meets content (readDirectlyPatchedOutputStandbyRanges .outputFile .standbyFile
      .standbyStateFile) s w (fun r w' => r.2 = s ∧ ∀ ranges, r.1 = .ok ranges →
        ∃ rs, ranges = mergedOutputRanges rs ∧ Beside (Covered rs) w') := by
  refine ensures_tried hw (fun h => h) (fun _ h => h) (fun e => ensures_end hw ⟨rfl, of_error⟩) ?_
  rintro found w' ⟨rfl, -⟩ _
  refine Action.ensures_ite (fun _ => ensures_end hw ⟨rfl, of_error⟩) fun _ => ?_
  refine ensures_tried hw (fun h => h) (fun _ h => h) (fun e => ensures_end hw ⟨rfl, of_error⟩) ?_
  rintro bytes w' ⟨rfl, f, hf, rfl⟩ _
  obtain ⟨o, i, rs, hbytes, hagree⟩ := hw.state f hf
  refine meets_orNone hw (fun contents hcontents => ?_) fun _ => ⟨rfl, of_error⟩
  obtain rfl : standbyStateText o i rs = contents := by
    rw [hbytes, decodeText_encodeText] at hcontents
    exact some.inj hcontents
  refine meets_orNone hw (fun header hheader => ?_) fun _ => ⟨rfl, of_error⟩
  cases (parseStandbyHeader_text o i rs).symm.trans hheader
  refine meets_identityIfAny hw fun found hfound => ?_
  refine meets_orNone hw (fun outputIdentity houtput => ?_) fun _ => ⟨rfl, of_error⟩
  refine meets_identityIfAny hw fun found' hfound' => ?_
  refine meets_orNone hw (fun standbyIdentity hstandby => ?_) fun _ => ⟨rfl, of_error⟩
  refine Action.ensures_ite (fun _ => ensures_end hw ⟨rfl, of_error⟩) fun hsame => ?_
  refine meets_orNone_last hw (fun ranges hranges => ?_) fun _ => ⟨rfl, of_error⟩
  -- the identities are those that the state file names, so the contents are, too
  obtain ⟨rfl, rfl⟩ : o = outputIdentity ∧ i = standbyIdentity := by simpa using hsame
  obtain ⟨f', hf', rfl⟩ := hfound _ houtput
  obtain ⟨g, hg, rfl⟩ := hfound' _ hstandby
  refine ⟨rfl, ?_⟩
  rintro _ ⟨⟩
  refine ⟨rs, parseStandbyRanges_text hranges, f', g, hf', hg, ?_⟩
  rw [hw.honest _ _ hf', hw.honest _ _ hg]
  exact hagree

theorem Beside.mono {differs' : Nat → Prop} (h : Beside differs w)
    (himp : ∀ i, differs i → differs' i) : Beside differs' w := by
  obtain ⟨f, g, hf, hg, hagree⟩ := h
  exact ⟨f, g, hf, hg, hagree.mono himp⟩

/-- A piece of the output, written to the same place of the standby. -/
theorem Beside.writeAt (h : Beside differs w) {f : File}
    (hf : w.files .outputFile = some f) {offset len : Nat} (hlen : offset + len ≤ f.bytes.length) {w' : Disk} (heffect : Succeeds honest
      (.writeAt .standbyFile offset ((f.bytes.drop offset).take len)) w () w') :
    Beside (fun i => differs i ∧ ¬ (offset ≤ i ∧ i < offset + len)) w' := by
  obtain ⟨f', g, hf', hg, hagree⟩ := h
  obtain rfl : f' = f := some.inj (hf'.symm.trans hf)
  obtain ⟨g', hg', hrewritten⟩ := heffect
  obtain rfl : g = g' := some.inj (hg.symm.trans hg')
  obtain ⟨⟨g', hg', hbytes, -⟩, hrest⟩ := hrewritten.files
  exact ⟨f', g', (hrest .outputFile (by decide)).trans hf, hg', hbytes ▸ hagree.copy hlen⟩

theorem meets_copyRange (remaining : Nat) : ∀ {offset : Nat} {w : Disk} {differs : Nat → Prop},
    Sound content w → Beside differs w →
      Meets content (copyRange .outputFile .standbyFile offset remaining) s w (fun r w' =>
        r.2 = s ∧ ∀ u, r.1 = .ok u →
          Beside (fun i => differs i ∧ ¬ (offset ≤ i ∧ i < offset + remaining)) w') := by
  induction remaining using Nat.strong_induction_on with
  | _ remaining ih =>
    intro offset w differs hw hbeside
    unfold Meets
    rw [copyRange]
    refine Action.ensures_ite (fun hzero => ensures_end hw ⟨rfl, fun _ _ => ?_⟩) fun hne => ?_
    · exact hbeside.mono fun i hi => ⟨hi, by omega⟩
    refine ensures_tried hw (fun h => h) (fun _ h => h)
      (fun e => ensures_end hw ⟨rfl, of_error⟩) ?_
    rintro bytes w' ⟨rfl, f, hf, hlen, rfl⟩ _
    refine ensures_step hw nofun fun r w' heffect hw' => ?_
    cases r with
    | error e => exact ensures_end hw' ⟨rfl, of_error⟩
    | ok _ =>
      have hbuffer : 0 < bufferLen := by decide
      have hnext := hbeside.writeAt hf hlen heffect
      refine (ih _ (by omega) hw' hnext).mono fun r w'' _ hr => ⟨hr.1, fun u hu => ?_⟩
      refine (hr.2 u hu).mono fun i hi => ⟨hi.1.1, fun hin => ?_⟩
      have := hi.1.2
      have := hi.2
      omega

theorem meets_copyRanges (ranges : List Interval) : ∀ {w : Disk} {differs : Nat → Prop},
    Sound content w → Beside differs w →
      Meets content (copyRanges .outputFile .standbyFile ranges) s w (fun r w' =>
        r.2 = s ∧ ∀ u, r.1 = .ok u → Beside (fun i => differs i ∧ ¬ Covered ranges i) w') := by
  induction ranges with
  | nil =>
    intro w differs hw hbeside
    exact ensures_end hw ⟨rfl, fun _ _ => hbeside.mono fun i hi => ⟨hi, by simp [Covered]⟩⟩
  | cons range ranges ih =>
    intro w differs hw hbeside
    refine Ensures.bind ((meets_copyRange _ hw hbeside).mono ?_)
    rintro ⟨r, s'⟩ w' hw' ⟨rfl, hr⟩
    cases r with
    | error e => exact ensures_end hw' ⟨rfl, of_error⟩
    | ok u =>
      refine (ih hw' (hr u rfl)).mono fun r w'' _ hr => ⟨hr.1, fun u hu => ?_⟩
      refine (hr.2 u hu).mono fun i hi => ⟨hi.1.1, ?_⟩
      rintro ⟨r, hr, hin⟩
      rcases List.mem_cons.mp hr with rfl | hr
      · exact hi.1.2 ⟨hin.1, by have := hin.1; have := hin.2; omega⟩
      · exact hi.2 ⟨r, hr, hin⟩

/-- **Catching up leaves no difference** where the ranges covered all of them. -/
theorem meets_copyOutputRanges {ranges : List Interval} (hw : Sound content w)
    (hbeside : Beside (Covered (mergedOutputRanges ranges)) w) :
    Meets content (copyOutputRanges .outputFile .standbyFile ranges) s w
      (fun r w' => r.2 = s ∧ ∀ u, r.1 = .ok u → Beside (fun _ => False) w') := by
  refine ensures_tried hw (fun h => h) (fun _ h => h) (fun e => ensures_end hw ⟨rfl, of_error⟩) ?_
  rintro _ w' ⟨rfl, -⟩ _
  refine ensures_tried hw (fun h => h) (fun _ h => h) (fun e => ensures_end hw ⟨rfl, of_error⟩) ?_
  rintro _ w' ⟨rfl, -⟩ _
  refine (meets_copyRanges _ hw hbeside).mono fun r w' _ hr => ⟨hr.1, fun u hu => ?_⟩
  exact (hr.2 u hu).mono fun i hi => hi.2 hi.1

theorem meets_reuseStandby (hw : Sound content w) :
    Meets content (reuseStandby .outputFile) s w
      (fun r w' => r.2 = s ∧ (r.1 = .ok true → Beside (fun _ => False) w')) := by
  refine Ensures.bind (Ensures.bind ((meets_readStandbyRanges hw).mono ?_))
  rintro ⟨r, s'⟩ w' hw' ⟨rfl, hr⟩
  cases r with
  | error e => exact ensures_end hw' (ensures_end hw' ⟨rfl, nofun⟩)
  | ok ranges =>
    obtain ⟨rs, rfl, hbeside⟩ := hr ranges rfl
    have hcovered : Beside (Covered (mergedOutputRanges (mergedOutputRanges rs))) w' :=
      hbeside.mono fun i hi => covered_mergedOutputRanges (covered_mergedOutputRanges hi)
    refine ensures_end hw' (Ensures.bind (Ensures.bind
      ((meets_copyOutputRanges hw' hcovered).mono ?_)))
    rintro ⟨r, s'⟩ w' hw' ⟨rfl, hcopied⟩
    cases r with
    | error e => exact ensures_end hw' (ensures_end hw' ⟨rfl, nofun⟩)
    | ok u => exact ensures_end hw' (ensures_end hw' ⟨rfl, fun _ => hcopied u rfl⟩)

/-! ## 4. A new generation -/

/-- What `new` returns with a standby. -/
def standbyPublication (identity : FileIdentity) : DirectlyPatchedOutput :=
  { path := .standbyFile, removePathOnDrop := true, publishedPath := some .outputFile,
    publishedIdentity := some identity, standbyStatePath := some .standbyStateFile,
    installIfMissing := false }

/-- What `new` returns from a retained snapshot. -/
structure SnapshotPublication (publication : DirectlyPatchedOutput) : Prop where
  path : ∃ n, publication.path = .generationFile n
  published : publication.publishedPath = some .outputFile
  standby : publication.standbyStatePath = none
  selected : publication.installIfMissing = publication.publishedIdentity.isNone

/-- The three kinds of generations; a standby has the bytes of the output. -/
inductive Prepared : DirectlyPatchedOutput → Disk → Prop
  | inPlace (w : Disk) : Prepared (.inPlace .outputFile) w
  | snapshot (w : Disk) {publication : DirectlyPatchedOutput}
      (h : SnapshotPublication publication) : Prepared publication w
  | standby {w : Disk} {identity : FileIdentity} (h : Beside (fun _ => False) w) :
      Prepared (standbyPublication identity) w

section

variable (hw : Sound content w)
include hw

theorem meets_checkOutput {identity : FileIdentity}
    (hbeside : Beside (fun _ => False) w) :
    Meets content (checkOutput .outputFile identity) s w
      (fun r w' => ∀ publication, r.1 = .ok publication → Prepared publication w') := by
  refine meets_identityIfAny hw fun found _ => ?_
  refine Action.ensures_ite (fun _ => ensures_end hw ?_) fun _ => ?_
  · rintro publication ⟨⟩
    exact .standby hbeside
  · exact meets_ignoreRemove hw fun w' hw' _ => ensures_end hw' of_error

theorem meets_cloneStandby :
    Meets content (cloneStandby .outputFile) s w
      (fun r w' => r.2 = s ∧ ∀ u, r.1 = .ok u → Beside (fun _ => False) w') := by
  refine meets_ignoreRemove hw fun w hw _ => ?_
  refine ensures_step hw nofun fun r w' heffect hw' => ?_
  cases r with
  | error e => exact ensures_end hw' ⟨rfl, of_error⟩
  | ok _ =>
    obtain ⟨f, hf, hcreated⟩ := heffect
    obtain ⟨⟨g, hg, hbytes, -⟩, hrest⟩ := hcreated.files
    refine ensures_end hw' ⟨rfl, fun _ _ => ?_⟩
    exact ⟨f, g, (hrest .outputFile (by decide)).trans hf, hg, hbytes ▸ .refl _⟩

theorem meets_ofStandby :
    Meets content (ofStandby .outputFile) s w
      (fun r w' => ∀ publication, r.1 = .ok publication → Prepared publication w') := by
  refine meets_identityIfAny hw fun found _ => ?_
  refine meets_orNone hw (fun identity _ => ?_) fun _ => of_error
  refine Ensures.bind ((meets_reuseStandby hw).mono ?_)
  rintro ⟨r, s'⟩ w' hw' ⟨rfl, hr⟩
  cases r with
  | error e => exact ensures_end hw' of_error
  | ok reused =>
    cases reused with
    | true => exact meets_checkOutput hw' (hr rfl)
    | false =>
      refine Ensures.bind ((meets_cloneStandby hw').mono ?_)
      rintro ⟨r, s'⟩ w' hw' ⟨rfl, hcloned⟩
      cases r with
      | error e => exact ensures_end hw' of_error
      | ok u => exact meets_checkOutput hw' (hcloned u rfl)

variable {live : Option FileIdentity}

theorem meets_ofSnapshot {snapshot : Path} :
    Meets content (ofSnapshot .outputFile snapshot live) s w
      (fun r w' => ∀ publication, r.1 = .ok publication → Prepared publication w') := by
  have hcopy : ∀ (identity : Option FileIdentity) (found : Bool) (w : Disk), Sound content w →
      (!found) = identity.isNone →
      Meets content (do
        let generation ← copyToUnique snapshot
        return mk generation true (some .outputFile) identity none !found)
        s w (fun r w' => ∀ publication, r.1 = .ok publication → Prepared publication w') := by
    intro identity found w hw hfound
    have hspares : ¬ Operation.MayFill .standbyStateFile (.copyToUnique snapshot) := nofun
    refine ensures_step hw hspares fun r w' heffect hw' => ?_
    cases r with
    | error e => exact ensures_end hw' of_error
    | ok generation =>
      obtain ⟨f, n, -, rfl, -⟩ := heffect
      refine ensures_end hw' ?_
      rintro publication ⟨⟩
      exact .snapshot _ ⟨⟨n, rfl⟩, rfl, rfl, hfound⟩
  refine ensures_tried hw (fun h => h) (fun _ h => h) (fun e => ensures_end hw of_error) ?_
  rintro found w' ⟨rfl, -⟩ _
  cases found with
  | false => cases live <;> exact hcopy none false _ hw rfl
  | true =>
    refine meets_identityIfAny hw fun identity _ => ?_
    cases identity with
    | none => cases live <;> exact ensures_end hw of_error
    | some identity =>
      cases live with
      | none => exact ensures_end hw of_error
      | some expected =>
        exact Action.ensures_ite (fun _ => ensures_end hw of_error)
          fun _ => hcopy (some identity) true _ hw rfl

theorem meets_new {shouldReplace : Bool} {retained : Option Path} :
    Meets content (new .outputFile shouldReplace retained live) s w
      (fun r w' => ∀ publication, r.1 = .ok publication → Prepared publication w') := by
  cases retained with
  | some snapshot => exact meets_ofSnapshot hw
  | none =>
    have hnext : ∀ (found : Bool) (w : Disk), Sound content w →
        Meets content (do
          if ¬ found then orNone none
          if ¬ shouldReplace then return .inPlace .outputFile
          ofStandby .outputFile) s w
          (fun r w' => ∀ publication, r.1 = .ok publication → Prepared publication w') := by
      intro found w hw
      refine Action.ensures_ite (fun _ => ensures_end hw of_error) fun _ => ?_
      refine Action.ensures_ite (fun _ => ensures_end hw ?_) fun _ => meets_ofStandby hw
      rintro publication ⟨⟩
      exact .inPlace _
    refine ensures_tried hw (fun h => h) (fun _ h => h) (fun e => hnext false _ hw) ?_
    rintro found w' ⟨rfl, -⟩ _
    exact hnext found _ hw

end

end

end Srs.Publication
