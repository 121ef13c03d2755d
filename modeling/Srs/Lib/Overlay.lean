/-
# Owned records, overrides and partial reads

A store holds records; every record has one owner, and some records point at an owner.  An
OVERRIDE replaces all records of some owners at once.  Two facts about this are all a file
format with an immutable base needs:

* the base never has to be rewritten: a base, a set of overridden owners and the records that
  replace theirs (`overlay`) absorb any further override (`override_overlay`);
* a partial read of the base is enough to answer a question about some owners and what points
  at them, even though the overrides are applied only after the base was read
  (`partial_read`).

The second is where records could be lost or come back.  An owner found through the base may
have been overridden since, so its base records must not be trusted; and an overridden owner
may point at a wanted one although the base says nothing of it.
-/
import Mathlib.Data.UInt

namespace Srs.Overlay

variable {ρ κ : Type} (owner : ρ → κ) (target : ρ → Option κ)

/-- The store after all records of the owners in `changed` were replaced by those of `new`. -/
def override (store : Set ρ) (changed : Set κ) (new : Set ρ) : Set ρ :=
  {r | r ∈ store ∧ owner r ∉ changed} ∪ {r | r ∈ new ∧ owner r ∈ changed}

/-- A base whose records of the owners in `overridden` are replaced by `replacement`. -/
def overlay (base : Set ρ) (overridden : Set κ) (replacement : Set ρ) : Set ρ :=
  {r | r ∈ base ∧ owner r ∉ overridden} ∪ replacement

/-- The records of some owners, and those that point at some owners. -/
def Keeps (owners targets : Set κ) (r : ρ) : Prop :=
  owner r ∈ owners ∨ ∃ t, target r = some t ∧ t ∈ targets

variable {owner target}

theorem mem_overlay {base replacement : Set ρ} {overridden : Set κ} {r : ρ} :
    r ∈ overlay owner base overridden replacement ↔
      (r ∈ base ∧ owner r ∉ overridden) ∨ r ∈ replacement := Iff.rfl

@[simp] theorem overlay_empty (base : Set ρ) : overlay owner base ∅ ∅ = base := by
  ext r
  simp [overlay]

/-- **An override of an overlay is an overlay of the same base.** -/
theorem override_overlay (base replacement new : Set ρ) (overridden changed : Set κ) :
    override owner (overlay owner base overridden replacement) changed new
      = overlay owner base (overridden ∪ changed) (override owner replacement changed new) := by
  ext r
  simp only [override, overlay, Set.mem_union, Set.mem_ofPred_eq]
  constructor
  · rintro (⟨⟨hb, ho⟩ | hr, hc⟩ | hn)
    · exact .inl ⟨hb, fun h => h.elim ho hc⟩
    · exact .inr (.inl ⟨hr, hc⟩)
    · exact .inr (.inr hn)
  · rintro (⟨hb, h⟩ | ⟨hr, hc⟩ | hn)
    · exact .inl ⟨.inl ⟨hb, fun ho => h (.inl ho)⟩, fun hc => h (.inr hc)⟩
    · exact .inl ⟨.inr hr, hc⟩
    · exact .inr hn

/-- What a partial read of a base has to deliver to answer for the owners in `wanted`: all that
they own, all that points at them, and everything of the owners in `complete`. -/
structure PartialRead (owner : ρ → κ) (target : ρ → Option κ) (base read : Set ρ)
    (wanted complete : Set κ) : Prop where
  subset : read ⊆ base
  wanted : ∀ r ∈ base, Keeps owner target wanted wanted r → r ∈ read
  complete : ∀ r ∈ base, owner r ∈ complete → r ∈ read

variable {base read : Set ρ} {wanted complete relevant : Set κ}

/-- **A partial read, overlaid and filtered, is the overlay of the base, filtered.**  `relevant`
are the owners of `complete` that are still kept. -/
theorem partial_read (overridden : Set κ) (replacement : Set ρ)
    (h : PartialRead owner target base read wanted complete) (hrel : relevant ⊆ complete) (r : ρ) :
    (r ∈ overlay owner read overridden replacement ∧
        Keeps owner target (wanted ∪ relevant) wanted r) ↔
      (r ∈ overlay owner base overridden replacement ∧
        Keeps owner target (wanted ∪ relevant) wanted r) := by
  refine and_congr_left fun hkeep => ?_
  rw [mem_overlay, mem_overlay]
  refine or_congr_left (and_congr_left fun _ => ?_)
  refine ⟨fun hr => h.subset hr, fun hr => ?_⟩
  rcases hkeep with (hw | hc) | ht
  · exact h.wanted r hr (.inl hw)
  · exact h.complete r hr (hrel hc)
  · exact h.wanted r hr (.inr ht)

/-- A first, coarser filter changes nothing: it keeps everything the second keeps. -/
theorem Keeps.mono {owners owners' targets targets' : Set κ} {r : ρ} (ho : owners ⊆ owners')
    (ht : targets ⊆ targets') (h : Keeps owner target owners targets r) :
    Keeps owner target owners' targets' r := by
  rcases h with h | ⟨t, hr, h⟩
  · exact .inl (ho h)
  · exact .inr ⟨t, hr, ht h⟩

end Srs.Overlay
