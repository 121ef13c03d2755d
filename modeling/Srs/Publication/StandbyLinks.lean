/-
# Directly patched links, one after the other

Where the standby differs from the output, from one link to the next: nowhere once `new` returned;
at most in the merged flush ranges once the patches were written to it; and still there once the
two changed places (`Beside.exchange`), since the difference is symmetric.  That is what the state
file is allowed to say.  Where the generation is renamed instead there is no standby to compare,
and the state file is removed.

The sequences of links are `Reachable`: each link on any platform and with any patches, complete or
crashed, each relink with its invalidation and whatever it writes.  Nothing is assumed of the order
of these.  `standby_generation_eq_output` is the result.
-/
import Srs.Publication.StandbyRuns

namespace Srs.Publication

open Procedure Text Option
open Incremental (FileIdentity)

variable {content : FileIdentity → List UInt8} {σ α β : Type} {s : σ} {w w' : Disk}

/-! ## 1. What leaves the state file alone -/

/-- No operation of the step puts anything at the state path. -/
def Spares (x : Step σ α) : Prop :=
  ∀ s, (x s).Uses fun op => ¬ op.MayFill .standbyStateFile

namespace Spares

theorem pure (a : α) : Spares (Pure.pure a : Step σ α) := fun _ => trivial

theorem fail (e : Failure) : Spares (Action.fail e : Step σ α) := fun _ => trivial

theorem update (f : σ → σ) : Spares (Action.update f : Step σ Unit) := fun _ => trivial

theorem perform {op : Operation} (hop : ¬ op.MayFill .standbyStateFile) :
    Spares (perform op : Step σ (Value op)) := fun _ => ⟨hop, fun _ => trivial⟩

theorem remove (p : Path) : Spares (Publication.perform (.remove p) : Step σ Unit) :=
  perform fun h => h

variable {x : Step σ α} {p : Path}

theorem bind {f : α → Step σ β} (hx : Spares x) (hf : ∀ a, Spares (f a)) :
    Spares (x >>= f) := by
  refine fun s => (hx s).bind ?_
  rintro ⟨r, s'⟩
  cases r with
  | error e => trivial
  | ok a => exact hf a s'

theorem attempt (hx : Spares x) : Spares x.attempt :=
  fun s => (hx s).bind fun _ => trivial

theorem ite {c : Prop} [Decidable c] {y : Step σ α} (hx : Spares x) (hy : Spares y) :
    Spares (if c then x else y) := by
  split
  · exact hx
  · exact hy

theorem withContext (hx : Spares x) (message : String) (paths : List Path) :
    Spares (withContext x message paths) := by
  refine hx.attempt.bind fun r => ?_
  cases r with
  | error e => exact fail _
  | ok a => exact pure a

theorem ignore (hx : Spares x) : Spares (ignore x) :=
  hx.attempt.bind fun _ => pure ()

theorem tryExistsOr (b : Bool) (p : Path) : Spares (tryExistsOr b p : Step σ Bool) := by
  refine (perform fun h => h : Spares (Publication.perform (.tryExists p))).attempt.bind fun r => ?_
  cases r with
  | error e => exact pure _
  | ok a => exact pure _

theorem fromPath (p : Path) : Spares (fromPath p : Step σ (Option FileIdentity)) :=
  ((perform fun h => h : Spares (Publication.perform (.metadata p))).withContext _ _).bind
    fun _ => pure _

/-- A step that leaves the state file alone keeps the invariant. -/
theorem meets (hx : Spares x) (hw : Sound content w) :
    Meets content x s w (fun _ _ => True) :=
  (hx s).ensures hw (stable_locked _) fun _ _ _ _ hop hw heffect => hw.effect hop heffect

theorem writeRanges (hp : p ≠ .standbyStateFile) (output : List UInt8)
    (ranges : List Interval) : Spares (writeRanges output p ranges : Step σ Unit) := by
  induction ranges with
  | nil => exact pure ()
  | cons range ranges ih =>
    have hop : ∀ data, ¬ Operation.MayFill .standbyStateFile (.writeAt p range.start data) :=
      fun _ h => hp h.symm
    exact ite (((perform (hop _)).withContext _ _).bind fun _ => ih) (fail _)

theorem drop {publication : DirectlyPatchedOutput} :
    Spares (publication.drop : Step σ Unit) :=
  ite (remove _).ignore (pure ())

theorem linkGeneration (hp : p ≠ .standbyStateFile) (message : String) (b : Bool) :
    Spares (linkGeneration p .outputFile message b) := by
  have hop : ¬ Operation.MayFill .standbyStateFile (.hardLink p .outputFile) := by
    rintro (h | h)
    · exact hp h.symm
    · exact absurd h nofun
  refine ((perform hop).withContext _ _).bind fun _ => (fromPath _).bind fun _ => ?_
  cases b with
  | true => exact ((remove p).withContext _ _).bind fun _ => (update _).bind fun _ => pure _
  | false => exact (remove p).bind fun _ => (update _).bind fun _ => pure _

theorem exchange (hp : p ≠ .standbyStateFile) (platform : Platform) :
    Spares (exchangeDirectlyPatchedOutputGeneration platform p .outputFile : Step σ Unit) := by
  have hop : ¬ Operation.MayFill .standbyStateFile (.exchange p .outputFile) := by
    rintro (h | h)
    · exact hp h.symm
    · exact absurd h nofun
  exact ite (fail _) ((perform hop).withContext _ _)

theorem verifyExchange (p : Path) (expected : FileIdentity)
    (generationIdentity : Option FileIdentity) :
    Spares (verifyExchange p .outputFile expected generationIdentity) := by
  refine (fromPath _).bind fun _ => (fromPath _).bind fun _ => ?_
  refine ite ((fail _).bind fun _ => ?_) ?_
  · exact (remove p).bind fun _ => (update _).bind fun _ => pure _
  · exact (remove p).bind fun _ => (update _).bind fun _ => pure _

theorem exchangeExpected (hp : p ≠ .standbyStateFile) (platform : Platform)
    (expected : FileIdentity) : Spares (exchangeExpected platform p .outputFile expected) := by
  have hverify : ∀ generationIdentity,
      Spares (exchangeAndVerify platform p .outputFile expected generationIdentity) := by
    refine fun generationIdentity => (exchange hp platform).attempt.bind fun r => ?_
    cases r with
    | error e =>
      exact (tryExistsOr _ _).bind fun _ => ite (fail _) (linkGeneration hp _ _)
    | ok _ => exact (update _).bind fun _ => verifyExchange p expected _
  refine (tryExistsOr _ _).bind fun _ => ite ?_ (linkGeneration hp _ _)
  refine (fromPath _).bind fun _ => ite ((fail _).bind fun _ => ?_) ?_
  all_goals
    refine (fromPath _).bind fun _ => (fromPath _).bind fun _ => ?_
    exact ite ((fail _).bind fun _ => hverify _) (hverify _)

end Spares

/-! ## 2. Writing the state file -/

/-- **The state file is put in place whole**: what it says holds of the identities it names. -/
theorem Sound.renameState {o i : FileIdentity} {rs : List Interval} {t : File}
    {r : Reply (.rename .standbyStateTmpFile .standbyStateFile)} (hw : Sound content w)
    (ht : w.files .standbyStateTmpFile = some t)
    (hbytes : t.bytes = encodeText (standbyStateText o i rs))
    (hagree : AgreeExcept (Covered rs) (content i) (content o))
    (heffect : Publication.effect (Honest content) (.rename .standbyStateTmpFile .standbyStateFile) w r w') :
    Sound content w' := by
  cases r with
  | error e =>
    obtain ⟨rfl, -⟩ := heffect
    exact hw
  | ok _ =>
    obtain ⟨f, f', hf, htouched, hhonest, rfl⟩ := heffect
    obtain rfl : t = f := some.inj (ht.symm.trans hf)
    refine ⟨fun p g hg => ?_, fun g hg => ?_⟩
    · simp only [Disk.record_files, put_files] at hg
      by_cases hstate : p = .standbyStateFile
      · rw [if_pos hstate] at hg
        exact some.inj hg ▸ hhonest
      · by_cases htmp : p = .standbyStateTmpFile
        · simp [htmp] at hg
        · rw [if_neg hstate, if_neg htmp] at hg
          exact hw.honest p g hg
    · obtain rfl : f' = g := by
        simpa using hg
      exact ⟨o, i, rs, htouched.bytes.trans hbytes, hagree⟩

variable {ranges : List Interval} {differs : Nat → Prop} {identity : FileIdentity}
  {publication : DirectlyPatchedOutput}

theorem meets_writeStandbyState (hw : Sound content w)
    (hbeside : Beside (Covered (mergedOutputRanges ranges)) w) :
    Meets content (writeDirectlyPatchedOutputStandbyState .standbyStateFile .outputFile .standbyFile
      ranges) s w (fun r _ => r.2 = s) := by
  refine Action.ensures_ite (fun _ => ?_) fun _ => ?_
  · refine meets_ignoreRemove hw fun w hw _ => ?_
    refine ensures_step hw (fun h => h) fun r w' _ hw' => ?_
    cases r with
    | error e => exact ensures_end hw' rfl
    | ok _ => exact ensures_end hw' rfl
  · obtain ⟨f, g, hf, hg, hagree⟩ := hbeside
    refine meets_fromPath hw (fun output houtput => ?_) fun _ => rfl
    cases output with
    | none => exact ensures_end hw rfl
    | some o =>
      refine meets_fromPath hw (fun standby hstandby => ?_) fun _ => rfl
      cases standby with
      | none => exact ensures_end hw rfl
      | some i =>
        obtain ⟨f', hf', rfl⟩ := houtput o rfl
        obtain rfl : f = f' := some.inj (hf.symm.trans hf')
        obtain ⟨g', hg', rfl⟩ := hstandby i rfl
        obtain rfl : g = g' := some.inj (hg.symm.trans hg')
        rw [hw.honest _ _ hf, hw.honest _ _ hg] at hagree
        refine ensures_step hw nofun fun r w' heffect hw' => ?_
        cases r with
        | error e => exact ensures_end hw' rfl
        | ok _ =>
          have htmp : ∃ t, w'.files .standbyStateTmpFile = some t ∧ t.bytes = encodeText
              (standbyStateText f.identity g.identity (mergedOutputRanges ranges)) := by
            rcases heffect with h | h
            · obtain ⟨⟨t, ht, hbytes, -⟩, -⟩ := h.files
              exact ⟨t, ht, hbytes⟩
            · obtain ⟨⟨t, ht, hbytes, -⟩, -⟩ := h.files
              exact ⟨t, ht, hbytes⟩
          obtain ⟨t, ht, hbytes⟩ := htmp
          refine ensures_call (stable_locked (· = w')) rfl (fun _ hw => hw ▸ hw') ?_
          rintro w r w'' rfl heffect
          have hw'' := hw'.renameState ht hbytes hagree heffect
          cases r with
          | error e => exact ensures_end hw'' rfl
          | ok _ => exact ensures_end hw'' rfl

/-! ## 3. Publishing a generation, with the displaced output as the next standby -/

variable {honest : File → Prop} {w₀ : Disk}

/-- The two files changed places: they still differ where they did. -/
theorem Beside.exchange (h : Beside differs w)
    (heffect : Succeeds honest (.exchange .standbyFile .outputFile) w () w') :
    Beside differs w' := by
  obtain ⟨f, g, hf, hg, hagree⟩ := h
  obtain ⟨g', g'', f', f'', hg', hf', hgtouched, hftouched, -, -, rfl⟩ := heffect
  obtain rfl : f = f' := some.inj (hf.symm.trans hf')
  obtain rfl : g = g' := some.inj (hg.symm.trans hg')
  refine ⟨g'', f'', by simp, by simp, ?_⟩
  rw [hgtouched.bytes, hftouched.bytes]
  exact hagree.symm

theorem meets_rename (hw : Sound content w) (message : String) (paths : List Path) :
    Meets content (withContext (perform (.rename .standbyFile .outputFile)) message paths) s w
      (fun r w' => r.2 = s ∧ ∀ u, r.1 = .ok u → w'.files .standbyFile = none) := by
  refine ensures_step hw nofun fun r w' heffect hw' => ?_
  cases r with
  | error e => exact ensures_end hw' ⟨rfl, of_error⟩
  | ok _ =>
    obtain ⟨f, f', -, -, -, rfl⟩ := heffect
    exact ensures_end hw' ⟨rfl, fun _ _ => by simp⟩

/-- The generation is published: the two files changed places, or there is no standby any more. -/
theorem meets_installGeneration (platform : Platform)
    (hw : Sound content w) (hbeside : Beside differs w) :
    Meets content (installDirectlyPatchedOutputGeneration platform .standbyFile .outputFile) s w
      (fun r w' => r.2 = s ∧ ∀ u, r.1 = .ok u →
        Beside differs w' ∨ w'.files .standbyFile = none) := by
  have hrename : ∀ {w} (message : String) (paths : List Path), Sound content w →
      Meets content (withContext (perform (.rename .standbyFile .outputFile)) message paths) s w
        (fun r w' => r.2 = s ∧ ∀ u, r.1 = .ok u →
          Beside differs w' ∨ w'.files .standbyFile = none) := fun message paths hw =>
    (meets_rename hw message paths).mono fun r w' _ hr => ⟨hr.1, fun u hu => .inr (hr.2 u hu)⟩
  cases platform with
  | linux => exact hrename _ _ hw
  | other => exact hrename _ _ hw
  | apple =>
    refine ensures_step hw (fun h => h.elim nofun nofun) fun r w' heffect hw' => ?_
    cases r with
    | error e => exact hrename _ _ hw'
    | ok _ => exact ensures_end hw' ⟨rfl, fun _ _ => .inl (hbeside.exchange heffect)⟩

theorem meets_installStandbyState (hw : Sound content w)
    (h : Beside (Covered (mergedOutputRanges ranges)) w ∨ w.files .standbyFile = none) :
    Meets content (installStandbyState .outputFile ranges) (standbyPublication identity) w
      (fun _ _ => True) := by
  refine meets_identityIfAny hw fun displaced hdisplaced => ?_
  refine Action.ensures_ite (fun hpredecessor => ?_) fun _ => ensures_end hw trivial
  rcases h with hbeside | hnone
  · refine Ensures.bind (Ensures.bind ((meets_writeStandbyState hw hbeside).mono ?_))
    rintro ⟨r, s'⟩ w hw -
    cases r with
    | error e => exact ensures_end hw (ensures_end hw trivial)
    | ok u => exact ensures_end hw (ensures_end hw trivial)
  · -- without a standby there is no identity to compare
    cases displaced with
    | none => exact absurd hpredecessor (by simp [standbyPublication])
    | some i =>
      obtain ⟨g, hg, -⟩ := hdisplaced i rfl
      exact absurd (hnone.symm.trans hg) nofun

theorem Spares.discardStandby : Spares discardStandby := by
  intro s
  refine ((remove s.path).ignore.bind fun _ => ?_) s
  cases s.standbyStatePath with
  | none => exact pure ()
  | some p => exact (remove p).ignore

theorem meets_installWithStandby (platform : Platform) (hw : Sound content w)
    (hbeside : Beside (Covered (mergedOutputRanges ranges)) w) :
    Meets content (installWithStandby platform .outputFile ranges) (standbyPublication identity) w
      (fun _ _ => True) := by
  refine meets_fromPath hw (fun generationIdentity _ => ?_) fun _ => trivial
  refine Ensures.bind ((meets_installGeneration platform hw hbeside).mono ?_)
  rintro ⟨r, s'⟩ w hw ⟨rfl, hr⟩
  cases r with
  | error e => exact ensures_end hw trivial
  | ok u =>
    refine Ensures.bind ((meets_installStandbyState hw (hr u rfl)).mono ?_)
    rintro ⟨r, s'⟩ w hw -
    cases r with
    | error e => exact ensures_end hw trivial
    | ok installed =>
      refine Spares.meets ?_ hw
      refine Spares.ite (Spares.discardStandby.bind fun _ => ?_) ?_
      · exact (Spares.update _).bind fun _ => .pure _
      · exact (Spares.update _).bind fun _ => .pure _

/-! ## 4. One link -/

/-- Bytes written within the standby add to where it differs. -/
theorem Beside.overwrite (h : Beside differs w)
    {g : File} (hg : w.files .standbyFile = some g) {offset : Nat} {data : List UInt8}
    (hfit : offset + data.length ≤ g.bytes.length)
    (heffect : Succeeds honest (.writeAt .standbyFile offset data) w () w') :
    Beside (fun i => differs i ∨ (offset ≤ i ∧ i < offset + data.length)) w' ∧
      ∀ g', w'.files .standbyFile = some g' → g'.bytes.length = g.bytes.length := by
  obtain ⟨f, g', hf, hg', hagree⟩ := h
  obtain rfl : g = g' := some.inj (hg.symm.trans hg')
  obtain ⟨g', hg', hrewritten⟩ := heffect
  obtain rfl : g = g' := some.inj (hg.symm.trans hg')
  obtain ⟨⟨g', hg', hbytes, -⟩, hrest⟩ := hrewritten.files
  refine ⟨⟨f, g', (hrest .outputFile (by decide)).trans hf, hg', ?_⟩, fun g'' hg'' => ?_⟩
  · exact hbytes ▸ hagree.overwrite hfit
  · obtain rfl : g' = g'' := some.inj (hg'.symm.trans hg'')
    rw [hbytes, length_overwrite hfit]

/-- The patches that are written to the standby: they add to where it differs from the output. -/
theorem meets_writeRanges {output : List UInt8} (ranges : List Interval) :
    ∀ {w : Disk} {differs : Nat → Prop}, Sound content w → Beside differs w →
      (∀ g, w.files .standbyFile = some g → output.length = g.bytes.length) →
        Meets content (writeRanges output .standbyFile ranges) s w (fun r w' => r.2 = s ∧
          ∀ u, r.1 = .ok u → Beside (fun i => differs i ∨ Covered ranges i) w') := by
  induction ranges with
  | nil =>
    intro w differs hw hbeside _
    exact ensures_end hw ⟨rfl, fun _ _ => hbeside.mono fun i => .inl⟩
  | cons range ranges ih =>
    intro w differs hw hbeside hlength
    refine Action.ensures_ite (fun hbounds => ?_) fun _ => ensures_end hw ⟨rfl, of_error⟩
    refine ensures_step hw nofun fun r w' heffect hw' => ?_
    cases r with
    | error e => exact ensures_end hw' ⟨rfl, of_error⟩
    | ok _ =>
      have hboth := hbeside
      obtain ⟨f, g, -, hg, -⟩ := hboth
      have hlen : ((output.drop range.start).take (range.stop - range.start)).length
          = range.stop - range.start := by
        rw [List.length_take, List.length_drop]
        omega
      have hfit : range.start +
          ((output.drop range.start).take (range.stop - range.start)).length ≤ g.bytes.length := by
        rw [hlen, ← hlength g hg]
        omega
      obtain ⟨hnext, hkept⟩ := Beside.overwrite hbeside hg hfit heffect
      have hlength' : ∀ g', w'.files .standbyFile = some g' → output.length = g'.bytes.length :=
        fun g' hg' => (hlength g hg).trans (hkept g' hg').symm
      refine (ih hw' hnext hlength').mono fun r w'' _ hr => ⟨hr.1, fun u hu => ?_⟩
      refine (hr.2 u hu).mono fun i hi => ?_
      rcases hi with (hi | hi) | ⟨r, hr, hin⟩
      · exact .inl hi
      · exact .inr ⟨range, by simp, hi.1, by rw [hlen] at hi; omega⟩
      · exact .inr ⟨r, List.mem_cons_of_mem _ hr, hin⟩

/-- The link patches the generation, and publishes it. -/
theorem meets_patchOutput_standby (link : Link)
    (hw : Sound content w) (hbeside : Beside (fun _ => False) w) :
    Meets content (patchOutput link (standbyPublication identity)) s w (fun r w' => r.2 = s ∧
      ∀ u, r.1 = .ok u → Beside (Covered (mergedOutputRanges link.flushRanges)) w') := by
  refine ensures_step hw (fun h => h) fun r w' heffect _ => ?_
  cases r with
  | error e =>
    obtain ⟨rfl, -⟩ := heffect
    exact ensures_end hw ⟨rfl, of_error⟩
  | ok bytes =>
    obtain ⟨rfl, g, hg, rfl⟩ := heffect
    refine (meets_writeRanges (mergedOutputRanges link.flushRanges) hw hbeside ?_).mono
      fun r w' _ hr => ⟨hr.1, fun u hu => (hr.2 u hu).mono fun i hi => hi.resolve_left id⟩
    intro g' hg'
    obtain rfl : g = g' := some.inj (hg.symm.trans hg')
    exact link.length_patch g.bytes

theorem Spares.patchOutput (link : Link) (hp : publication.path ≠ .standbyStateFile) :
    Spares (patchOutput link publication : Step σ Unit) := by
  have hread : ¬ Operation.MayFill .standbyStateFile (.read publication.path) := fun h => h
  refine (perform hread).bind fun bytes => ite (writeRanges hp _ _) ?_
  have hwrite : ¬ Operation.MayFill .standbyStateFile
      (.writeAt publication.path 0 (link.patch bytes)) := fun h => hp h.symm
  exact perform hwrite

theorem meets_patchOutput (link : Link)
    (hw : Sound content w) (hprepared : Prepared publication w) :
    Meets content (patchOutput link publication) s w (fun r w' => ∀ u, r.1 = .ok u →
      ∀ identity, publication = standbyPublication identity →
        Beside (Covered (mergedOutputRanges link.flushRanges)) w') := by
  cases hprepared with
  | inPlace =>
    have hp : (DirectlyPatchedOutput.inPlace .outputFile).path ≠ .standbyStateFile := nofun
    exact ((Spares.patchOutput link hp).meets hw).mono fun _ _ _ _ _ _ _ h => absurd h nofun
  | standby hbeside =>
    exact (meets_patchOutput_standby link hw hbeside).mono fun r w' _ hr u hu _ _ => hr.2 u hu
  | snapshot _ h =>
    obtain ⟨n, hn⟩ := h.path
    have hp : publication.path ≠ .standbyStateFile := by simp [hn]
    refine ((Spares.patchOutput link hp).meets hw).mono fun _ _ _ _ _ _ _ h' => ?_
    exact absurd (h'.symm ▸ h.standby) nofun

section

variable (platform : Platform) (hw : Sound content w) (hprepared : Prepared publication w₀)
  (hstandby : ∀ identity, publication = standbyPublication identity → Beside (Covered (mergedOutputRanges ranges)) w)
include platform hw hprepared hstandby

theorem meets_install :
    Meets content (installWithExchangeHooks platform ranges) publication w (fun _ _ => True) := by
  cases hprepared with
  | inPlace => exact ensures_end hw trivial
  | standby hbeside => exact meets_installWithStandby platform hw (hstandby _ rfl)
  | snapshot _ h =>
    obtain ⟨path, removePathOnDrop, publishedPath, publishedIdentity, standbyStatePath,
      installIfMissing⟩ := publication
    obtain ⟨⟨n, hpath⟩, hpublished, hnone, hselected⟩ := h
    simp only at hpath hpublished hnone hselected
    subst hpath hpublished hnone hselected
    have hpath : Path.generationFile n ≠ .standbyStateFile := nofun
    cases publishedIdentity with
    | none => exact (Spares.linkGeneration hpath _ _).meets hw
    | some expected => exact (Spares.exchangeExpected hpath platform expected).meets hw

theorem meets_installAndDrop
    :
    (installAndDrop platform ranges publication).Ensures (locked content) (Sound content)
      (fun _ _ => True) w := by
  refine Ensures.bind ((meets_install platform hw hprepared hstandby).mono ?_)
  rintro ⟨r, publication⟩ w hw -
  refine Ensures.bind ((Spares.drop.meets hw).mono ?_)
  intro _ w hw _
  exact ensures_end hw trivial

end

/-- **A link keeps the invariant**, also when it crashes. -/
theorem ensures_directlyPatchedLink (link : Link) (hw : Sound content w) :
    (directlyPatchedLink link).Ensures (locked content) (Sound content) (fun _ _ => True) w := by
  refine Ensures.bind ((meets_new hw).mono ?_)
  rintro ⟨r, s⟩ w hw hr
  cases r with
  | error e => exact ensures_end hw trivial
  | ok publication =>
    have hprepared : Prepared publication w := hr publication rfl
    refine Ensures.bind ((meets_patchOutput link hw hprepared).mono ?_)
    rintro ⟨r, s⟩ w' hw' hpatched
    cases r with
    | error e =>
      refine Ensures.bind ((Spares.drop.meets hw').mono ?_)
      intro _ w hw _
      exact ensures_end hw trivial
    | ok u => exact meets_installAndDrop link.platform hw' hprepared fun _ h => hpatched u rfl _ h

/-! ## 5. Any sequence of links -/

theorem Spares.removeIfPresent (p : Path) : Spares (removeIfPresent p : Step σ Unit) := by
  refine (remove p).attempt.bind fun r => ?_
  cases r with
  | ok _ => exact pure ()
  | error e => exact ite (pure ()) (fail _)

theorem Spares.invalidate : Spares (invalidateDirectlyPatchedOutputStandby : Step σ Unit) :=
  (removeIfPresent _).bind fun _ => removeIfPresent _

/-- What links, relinks and crashes can leave.  A run that does not complete is a crash; what a
relink writes is any change of a file that is not the state file, at each of its steps. -/
inductive Reachable (content : FileIdentity → List UInt8) : Disk → Prop
  | start {w : Disk} (hhonest : ∀ p f, w.files p = some f → Honest content f)
      (hstate : w.files .standbyStateFile = none) : Reachable content w
  | link {w w' : Disk} {o : Option (Except Failure (Option FileIdentity))} (link : Link)
      (h : Reachable content w)
      (hrun : Run (locked content) (directlyPatchedLink link) w o w') : Reachable content w'
  | invalidate {w w' : Disk} {o : Option (Except Failure Unit × Unit)}
      (h : Reachable content w)
      (hrun : Run (locked content)
        ((invalidateDirectlyPatchedOutputStandby : Step Unit Unit) ()) w o w') :
      Reachable content w'
  | relink {w : Disk} {p : Path} {f : Option File} (h : Reachable content w)
      (hp : p ≠ .standbyStateFile) (hf : ∀ g, f = some g → Honest content g) :
      Reachable content (w.put p f)

/-- **Every reachable state is sound.** -/
theorem Reachable.sound (h : Reachable content w) : Sound content w := by
  induction h with
  | start hhonest hstate => exact ⟨hhonest, fun f hf => absurd (hstate.symm.trans hf) nofun⟩
  | link link _ hrun ih => exact ((ensures_directlyPatchedLink link ih).run hrun).1
  | invalidate _ hrun ih => exact ((Spares.invalidate.meets ih).run hrun).1
  | @relink w p f _ hp hf ih =>
    refine ⟨fun q g hg => ?_, fun g hg => ?_⟩
    · by_cases hq : q = p
      · subst hq
        exact hf g (by simpa using hg)
      · exact ih.honest q g (by simpa [hq] using hg)
    · exact ih.state g (by simpa [hp.symm] using hg)

/-- **A generation with a standby has the bytes of the output**, whether it was cloned or caught
up: after any sequence of links, relinks and crashes, and with any file system that gives files of
different contents different identities. -/
theorem standby_generation_eq_output {shouldReplace : Bool} {retained : Option Path}
    {live : Option FileIdentity} {publication : DirectlyPatchedOutput} (h : Reachable content w)
    (hrun : Run (locked content) ((DirectlyPatchedOutput.new .outputFile shouldReplace retained
      live : Step Unit DirectlyPatchedOutput) ()) w (some (.ok publication, ())) w')
    (hstandby : publication.standbyStatePath.isSome) :
    publication.publishedPath = some .outputFile ∧ ∃ f g, w'.files .outputFile = some f ∧
      w'.files publication.path = some g ∧ g.bytes = f.bytes := by
  have hprepared : Prepared publication w' :=
    ((meets_new h.sound).run hrun).2 _ rfl publication rfl
  cases hprepared with
  | inPlace => exact absurd hstandby nofun
  | snapshot _ hsnapshot => exact absurd (hsnapshot.standby ▸ hstandby) nofun
  | standby hbeside =>
    obtain ⟨f, g, hf, hg, hagree⟩ := hbeside
    exact ⟨rfl, f, g, hf, hg, hagree.eq fun _ => id⟩

/-- A disk with an output only. -/
def firstDisk : Disk where
  files := Function.update (fun _ => none) .outputFile (some ⟨0, ⟨1, 1, 10, 5, 0, 5, 0⟩, [7]⟩)
  next := 1
  published := []
  foreign := []

def firstStandby : FileIdentity := ⟨1, 1, 11, 6, 0, 6, 0⟩

/-- The first standby is a clone. -/
theorem firstDisk_run : Run (locked fun _ => [7]) ((DirectlyPatchedOutput.new .outputFile true none
    none : Step Unit DirectlyPatchedOutput) ()) firstDisk
    (some (.ok (standbyPublication ⟨1, 1, 10, 5, 0, 5, 0⟩), ()))
    (firstDisk.create .standbyFile firstStandby [7]) := by
  have hok : ∀ {op : Operation} {a : Value op} {w w' w'' : Disk}
      {o : Option (Except Failure DirectlyPatchedOutput × Unit)} {next},
      Succeeds (Honest fun _ => [7]) op w a w' → Run (locked fun _ => [7]) (next (.ok a)) w' o w'' →
        Run (locked fun _ => [7]) (.call op next) w o w'' :=
    fun {op a w w' w'' o next} h hrun =>
      have heffect : (locked fun _ => [7]).effect op w (.ok a) w' := h
      .call heffect hrun
  have herror : ∀ {op : Operation} {w w'' : Disk}
      {o : Option (Except Failure DirectlyPatchedOutput × Unit)} {next},
      Fails (Honest fun _ => [7]) op w w →
        Run (locked fun _ => [7]) (next (.error ⟨.other, "", []⟩)) w o w'' →
        Run (locked fun _ => [7]) (.call op next) w o w'' :=
    fun {op w w'' o next} h hrun =>
      have heffect : (locked fun _ => [7]).effect op w (.error ⟨.other, "", []⟩) w := ⟨h, nofun⟩
      .call heffect hrun
  let found : Value (.tryExists .outputFile) := true
  let seen : Value (.metadata .outputFile) :=
    (⟨1, some ⟨1, 1, 10, 5, 0, 5, 0⟩⟩ : Metadata)
  let cloned : Value (.cloneBytes .outputFile .standbyFile) := ()
  refine hok (a := found) ⟨rfl, rfl⟩ ?_
  refine hok (a := seen) ⟨rfl, _, rfl, rfl, .inl rfl⟩ ?_
  refine herror rfl ?_
  refine herror rfl ?_
  refine hok (a := cloned) ⟨_, rfl, firstStandby, rfl, rfl, rfl⟩ ?_
  refine hok (a := seen) ⟨rfl, _, rfl, rfl, .inl rfl⟩ ?_
  exact .done _ _

theorem firstDisk_reachable : Reachable (fun _ => [7]) firstDisk := by
  refine .start (fun p f hf => ?_) rfl
  by_cases hp : p = .outputFile
  · subst hp
    obtain rfl : (⟨0, ⟨1, 1, 10, 5, 0, 5, 0⟩, [7]⟩ : File) = f := some.inj hf
    rfl
  · exact absurd hf (by simp [firstDisk, hp])

theorem standby_generation_eq_output_first :
    ∃ f g, (firstDisk.create .standbyFile firstStandby [7]).files .outputFile = some f ∧
      (firstDisk.create .standbyFile firstStandby [7]).files .standbyFile = some g ∧
      g.bytes = f.bytes :=
  (standby_generation_eq_output firstDisk_reachable firstDisk_run rfl).2

end Srs.Publication
