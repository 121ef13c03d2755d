/-
# The traversal of dead stripping

In every order of work, what was found out about a piece of work that is done stays true
(`Tracked`, `Settled`): a symbol that was requested is marked, and the relocations of a marked
subsection are done or pending.  When nothing is pending, all of it is done.
-/
import Srs.MachO.DeadStrip

namespace Srs.MachO.DeadStrip

open Cuts List Option State

/-! ## 1. What is known of the work -/

namespace State

/-- The work is pending or done. -/
def Knows (s : State) (work : Work) : Prop := work ∈ s.pending ∨ work ∈ s.done

/-- Nothing that is marked or known is lost. -/
structure Grows (s s' : State) : Prop where
  live : ∀ file sectionIndex index, s.live file sectionIndex index = true →
    s'.live file sectionIndex index = true
  knows : ∀ work, s.Knows work → s'.Knows work

theorem Grows.refl (s : State) : s.Grows s := ⟨fun _ _ _ h => h, fun _ h => h⟩

theorem Grows.trans {s s' s'' : State} (h : s.Grows s') (h' : s'.Grows s'') : s.Grows s'' :=
  ⟨fun file i b hlive => h'.live file i b (h.live file i b hlive),
    fun work hknows => h'.knows work (h.knows work hknows)⟩

theorem Grows.push (s : State) (work : List Work) : s.Grows (s.push work) :=
  ⟨fun _ _ _ h => h, fun _ h => h.imp_left (mem_append_left _)⟩

theorem knows_push {s : State} {work : List Work} {w : Work} (h : w ∈ work) :
    (s.push work).Knows w :=
  .inl (mem_append_right _ h)

theorem knows_push_iff {s : State} {work : List Work} {w : Work} :
    (s.push work).Knows w ↔ s.Knows w ∨ w ∈ work := by
  simp only [Knows, push, mem_append]
  exact or_right_comm

end State

section

variable (link : Link)

/-- The subsection of the symbol is marked, if its section is stripped and it is not empty. -/
def SymbolMarked (s : State) (symbolId : SymbolId) : Prop :=
  ∀ object symbol sectionIndex header offset index,
    link.objects[symbolId.file]? = some object → object.symbols[symbolId.index]? = some symbol →
    symbol.sectionIndex = some sectionIndex → object.sections[sectionIndex]? = some header →
    link.subsectionGcEnabled object header = true →
    Object.symbolOffsetInSection symbol header = some offset →
    markedIndex object header sectionIndex offset = some index →
    s.live symbolId.file sectionIndex index = true

/-- The symbol is in the section. -/
def HasSection (symbolId : SymbolId) (sectionIndex : Nat) : Prop :=
  ∃ object symbol, link.objects[symbolId.file]? = some object ∧
    object.symbols[symbolId.index]? = some symbol ∧ symbol.sectionIndex = some sectionIndex

/-- The object keeps its own subsection for the symbol. -/
def KeepsOwn (symbol : Symbol) (symbolId : SymbolId) : Prop :=
  symbol.isLocal = true ∨ symbol.isHidden = true ∨ link.definition symbolId = symbolId

/-- What follows from a relocation with a symbol. -/
structure Followed (s : State) (file : Nat) (rel : Relocation) : Prop where
  resolves : s.Knows (.resolveRelocation file rel)
  ownSymbol : ∀ object symbol sectionIndex header, link.objects[file]? = some object →
    object.symbols[rel.rSymbolnum]? = some symbol → symbol.sectionIndex = some sectionIndex →
    object.sections[sectionIndex]? = some header → link.subsectionGcEnabled object header = true →
    KeepsOwn link symbol ⟨file, rel.rSymbolnum⟩ → SymbolMarked link s ⟨file, rel.rSymbolnum⟩ ∨
      s.Knows (.loadSubsectionSymbol ⟨file, rel.rSymbolnum⟩ sectionIndex)

/-- What holds once a piece of work is done. -/
def Settled (s : State) : Work → Prop
  | .loadSymbol symbolId => SymbolMarked link s symbolId
  | .loadSection .. => True
  | .loadSubsectionSymbol symbolId _ => SymbolMarked link s symbolId
  | .processRelocation file _ rel =>
    rel.rType = .other → rel.rExtern = true → Followed link s file rel
  | .resolveRelocation file rel => s.Knows (.loadSymbol (link.definition ⟨file, rel.rSymbolnum⟩))

/-- What the marks and flags say is known. -/
structure Tracked (s : State) : Prop where
  targets : ∀ symbolId sectionIndex, s.Knows (.loadSubsectionSymbol symbolId sectionIndex) →
    HasSection link symbolId sectionIndex
  live : ∀ file sectionIndex index object header, link.objects[file]? = some object →
    object.sections[sectionIndex]? = some header → s.live file sectionIndex index = true →
    ∀ rel ∈ object.subsectionRelocations sectionIndex header index,
      s.Knows (.processRelocation file sectionIndex rel)
  visited : ∀ symbolId, s.visited symbolId = true → SymbolMarked link s symbolId
  resolved : ∀ symbolId, s.resolved symbolId = true → s.Knows (.loadSymbol symbolId)
  loaded : ∀ file sectionIndex object header, link.objects[file]? = some object →
    object.sections[sectionIndex]? = some header → link.subsectionGcEnabled object header = true →
    s.loaded file sectionIndex = true → ∀ symbol index, object.symbols[index]? = some symbol →
    symbol.altEntry = false → symbol.noDeadStrip = true →
    symbol.sectionIndex = some sectionIndex →
      s.Knows (.loadSubsectionSymbol ⟨file, index⟩ sectionIndex)

end

variable {link : Link} {s s' : State}

variable {symbolId : SymbolId} {work : List Work} {sectionIndex : Nat} {unwind : List Work}
  {file : Nat}

theorem SymbolMarked.mono (h : SymbolMarked link s symbolId)
    (hgrows : s.Grows s') : SymbolMarked link s' symbolId :=
  fun object symbol i header offset index ho hs hi hh hg hoff hm =>
    hgrows.live _ _ _ (h object symbol i header offset index ho hs hi hh hg hoff hm)

theorem Settled.mono {work : Work} (h : Settled link s work) (hgrows : s.Grows s') :
    Settled link s' work := by
  cases work with
  | loadSymbol symbolId => exact SymbolMarked.mono h hgrows
  | loadSection => trivial
  | loadSubsectionSymbol symbolId sectionIndex => exact SymbolMarked.mono h hgrows
  | processRelocation file sectionIndex rel =>
    intro hother hsymbolic
    obtain ⟨hresolves, hown⟩ := h hother hsymbolic
    refine ⟨hgrows.knows _ hresolves, fun object symbol i header ho hs hi hh hg hk => ?_⟩
    exact (hown object symbol i header ho hs hi hh hg hk).imp (fun hm => hm.mono hgrows)
      (hgrows.knows _)
  | resolveRelocation file rel => exact hgrows.knows _ h

/-! ## 2. One piece of work -/

theorem Tracked.push (h : Tracked link s)
    (htargets : ∀ symbolId sectionIndex, .loadSubsectionSymbol symbolId sectionIndex ∈ work →
      HasSection link symbolId sectionIndex) : Tracked link (s.push work) where
  targets symbolId i hknows := by
    rcases knows_push_iff.mp hknows with hold | hnew
    · exact h.targets symbolId i hold
    · exact htargets symbolId i hnew
  live file i index object header ho hh hlive rel hrel :=
    (Grows.push s work).knows _ (h.live file i index object header ho hh hlive rel hrel)
  visited symbolId hvisited := (h.visited symbolId hvisited).mono (Grows.push s work)
  resolved symbolId hresolved :=
    (Grows.push s work).knows _ (h.resolved symbolId hresolved)
  loaded file i object header ho hh hg hloaded symbol index hs ha hn hi :=
    (Grows.push s work).knows _
      (h.loaded file i object header ho hh hg hloaded symbol index hs ha hn hi)

/-- Work without calls for symbols of subsections. -/
theorem Tracked.push_of_ne (h : Tracked link s)
    (hne : ∀ w ∈ work, ∀ symbolId sectionIndex, w ≠ .loadSubsectionSymbol symbolId sectionIndex) :
    Tracked link (s.push work) :=
  h.push fun symbolId i hmem => absurd rfl (hne _ hmem symbolId i)

theorem Tracked.resolve (h : Tracked link s) {symbolId : SymbolId} (adds : Bool)
    (hknows : s.Knows (.loadSymbol symbolId)) : Tracked link (s.resolve symbolId adds) where
  targets := h.targets
  live := h.live
  visited := h.visited
  resolved id hresolved := by
    dsimp only [State.resolve] at hresolved
    split at hresolved
    · rename_i heq
      rw [heq]
      exact hknows
    · exact h.resolved id hresolved
  loaded := h.loaded

/-- What a call does: it keeps track, loses nothing, does no other work and settles its own. -/
structure Does (link : Link) (s s' : State) (work : Work) : Prop where
  tracked : Tracked link s'
  grows : s.Grows s'
  done : s'.done = s.done
  settled : Settled link s' work

/-- The state in which a symbol is marked, and what follows is pending. -/
def State.mark (s : State) (symbolId : SymbolId) (sectionIndex index : Nat) (work : List Work) :
    State :=
  ((s.setLive symbolId.file sectionIndex index).setVisited symbolId).push work

theorem State.live_mark (s : State) (symbolId : SymbolId) (sectionIndex index : Nat)
    (work : List Work) :
    (s.mark symbolId sectionIndex index work).live symbolId.file sectionIndex index = true :=
  if_pos ⟨rfl, rfl, rfl⟩

theorem State.Grows.mark (s : State) (symbolId : SymbolId) (sectionIndex index : Nat)
    (work : List Work) : s.Grows (s.mark symbolId sectionIndex index work) where
  live file i b h := by
    dsimp only [State.mark, State.push, State.setVisited, State.setLive]
    split
    · rfl
    · exact h
  knows _ h := h.imp_left (mem_append_left _)

section

variable (h : Tracked link s)
include h

theorem Tracked.mark {index : Nat}
    (hne : ∀ w ∈ work, ∀ id i, w ≠ .loadSubsectionSymbol id i)
    (hmarked : SymbolMarked link (s.mark symbolId sectionIndex index work) symbolId)
    (hrelocations : s.live symbolId.file sectionIndex index = false → ∀ object header,
      link.objects[symbolId.file]? = some object → object.sections[sectionIndex]? = some header →
      ∀ rel ∈ object.subsectionRelocations sectionIndex header index,
        .processRelocation symbolId.file sectionIndex rel ∈ work) :
    Tracked link (s.mark symbolId sectionIndex index work) := by
  have hgrows := Grows.mark s symbolId sectionIndex index work
  refine ⟨?_, ?_, ?_, ?_, ?_⟩
  · intro id i hknows
    rcases knows_push_iff.mp hknows with hold | hnew
    · exact h.targets id i hold
    · exact absurd rfl (hne _ hnew id i)
  · intro file i b object header ho hh hlive rel hrel
    cases hold : s.live file i b with
    | true => exact hgrows.knows _ (h.live file i b object header ho hh hold rel hrel)
    | false =>
      dsimp only [State.mark, State.push, State.setVisited, State.setLive] at hlive
      split at hlive
      · rename_i hsame
        obtain ⟨rfl, rfl, rfl⟩ := hsame
        exact knows_push (hrelocations hold object header ho hh rel hrel)
      · rw [hold] at hlive
        cases hlive
  · intro id hvisited
    dsimp only [State.mark, State.push, State.setVisited, State.setLive] at hvisited
    split at hvisited
    · rename_i heq
      rw [heq]
      exact hmarked
    · exact (h.visited id hvisited).mono hgrows
  · intro id hresolved
    exact hgrows.knows _ (h.resolved id hresolved)
  · intro file i object header ho hh hg hloaded symbol j hs ha hn hi
    exact hgrows.knows _ (h.loaded file i object header ho hh hg hloaded symbol j hs ha hn hi)

/-- The call for the symbol of a subsection. -/
theorem loadMachoSubsectionSymbol_does {handled : Bool}
    (hsection : HasSection link symbolId sectionIndex) (hunwind : ∀ w ∈ unwind, IsRelocation w)
    (hcall : loadMachoSubsectionSymbol link s symbolId sectionIndex unwind = some (s', handled)) :
    Tracked link s' ∧ s.Grows s' ∧ s'.done = s.done ∧ SymbolMarked link s' symbolId := by
  obtain ⟨object, symbol, hobject, hsymbol, hindex⟩ := hsection
  rw [loadMachoSubsectionSymbol, hobject, bind_eq_bind, bind_some] at hcall
  split at hcall
  · rename_i hvisited
    cases hcall
    exact ⟨h, Grows.refl s, rfl, h.visited symbolId hvisited⟩
  · rw [hsymbol, bind_eq_bind, bind_some] at hcall
    obtain ⟨header, hheader, hcall⟩ := bind_eq_some_iff.mp hcall
    obtain ⟨offset, hoffset, hcall⟩ := bind_eq_some_iff.mp hcall
    -- the symbol, its section and its offset are those of any reader of the marks
    have hmarked : ∀ s'' : State, (∀ index, markedIndex object header sectionIndex offset
        = some index → s''.live symbolId.file sectionIndex index = true) →
        SymbolMarked link s'' symbolId := by
      intro s'' hlive object' symbol' i' header' offset' index ho hs hi hh hg hoff hm
      cases hobject.symm.trans ho
      cases hsymbol.symm.trans hs
      cases hindex.symm.trans hi
      cases hheader.symm.trans hh
      rw [hoffset] at hoff
      cases hoff
      exact hlive index hm
    split at hcall
    · rename_i hnone
      cases hcall
      refine ⟨h, Grows.refl s, rfl, hmarked s fun index hm => ?_⟩
      rw [hnone] at hm
      cases hm
    · rename_i index hsome
      cases hcall
      have hmarked' : ∀ work,
          SymbolMarked link (s.mark symbolId sectionIndex index work) symbolId := by
        refine fun work => hmarked _ fun index' hm => ?_
        cases hsome.symm.trans hm
        exact live_mark s symbolId sectionIndex index work
      refine ⟨h.mark ?_ (hmarked' _) ?_, Grows.mark s symbolId sectionIndex index _, rfl,
        hmarked' _⟩
      · intro w hw id i
        rcases mem_cons.mp hw with rfl | hw
        · exact fun heq => by cases heq
        · rcases mem_append.mp hw with hw | hw
          · split at hw
            · obtain ⟨rel, -, rfl⟩ := mem_map.mp hw
              exact fun heq => by cases heq
            · cases hw
          · split at hw
            · rintro rfl
              exact hunwind _ hw
            · cases hw
      · intro hdead object' header' ho hh rel hrel
        cases hobject.symm.trans ho
        cases hheader.symm.trans hh
        refine mem_cons_of_mem _ (mem_append_left _ ?_)
        rw [hdead, Bool.not_false, if_pos rfl]
        exact List.mem_map_of_mem hrel

/-! ## 3. Every piece of work -/

theorem Tracked.setLoaded {object : Object}
    {header : SectionHeader} (hobject : link.objects[file]? = some object)
    (hheader : object.sections[sectionIndex]? = some header) :
    Tracked link ((s.setLoaded file sectionIndex).push
      (sectionWork link object header file sectionIndex)) := by
  have hgrows : s.Grows ((s.setLoaded file sectionIndex).push
      (sectionWork link object header file sectionIndex)) :=
    ⟨fun _ _ _ h => h, fun _ h => h.imp_left (mem_append_left _)⟩
  refine ⟨?_, ?_, ?_, ?_, ?_⟩
  · intro id i hknows
    rcases knows_push_iff.mp hknows with hold | hnew
    · exact h.targets id i hold
    · rw [sectionWork] at hnew
      split at hnew
      · obtain ⟨⟨symbol, index⟩, hmem, heq⟩ := mem_map.mp hnew
        obtain ⟨rfl, rfl⟩ := Work.loadSubsectionSymbol.inj heq
        obtain ⟨hzip, hsymbol⟩ := mem_filter.mp hmem
        exact ⟨object, symbol, hobject, mk_mem_zipIdx_iff_getElem?.mp hzip,
          (of_decide_eq_true hsymbol).2.2⟩
      · split at hnew
        · cases hnew
        · obtain ⟨rel, -, heq⟩ := mem_map.mp hnew
          cases heq
  · intro f i b object' header' ho hh hlive rel hrel
    exact hgrows.knows _ (h.live f i b object' header' ho hh hlive rel hrel)
  · intro id hvisited
    exact (h.visited id hvisited).mono hgrows
  · intro id hresolved
    exact hgrows.knows _ (h.resolved id hresolved)
  · intro f i object' header' ho hh hg hloaded symbol j hs ha hn hi
    by_cases hsame : f = file ∧ i = sectionIndex
    · obtain ⟨rfl, rfl⟩ := hsame
      cases hobject.symm.trans ho
      cases hheader.symm.trans hh
      refine knows_push ?_
      rw [sectionWork, if_pos hg]
      refine mem_map.mpr ⟨(symbol, j), mem_filter.mpr ⟨?_, ?_⟩, rfl⟩
      · exact mk_mem_zipIdx_iff_getElem?.mpr hs
      · exact decide_eq_true ⟨ha, hn, hi⟩
    · have hold : s.loaded f i = true := by
        dsimp only [State.push, State.setLoaded] at hloaded
        rwa [if_neg hsame] at hloaded
      exact hgrows.knows _ (h.loaded f i object' header' ho hh hg hold symbol j hs ha hn hi)

theorem loadSection_does
    (hcall : loadSection link s file sectionIndex = some s') :
    Does link s s' (.loadSection file sectionIndex) := by
  obtain ⟨object, hobject, hcall⟩ := bind_eq_some_iff.mp hcall
  obtain ⟨header, hheader, hcall⟩ := bind_eq_some_iff.mp hcall
  split at hcall
  · cases hcall
  · cases hcall
    exact ⟨h, Grows.refl s, rfl, trivial⟩
  · split at hcall
    · cases hcall
      exact ⟨h, Grows.refl s, rfl, trivial⟩
    · cases hcall
      exact ⟨h.setLoaded hobject hheader,
        ⟨fun _ _ _ h => h, fun _ h => h.imp_left (mem_append_left _)⟩, rfl, trivial⟩

theorem loadSymbol_does
    (hunwind : ∀ w ∈ unwind, IsRelocation w) (hcall : loadSymbol link s symbolId unwind = some s') :
    Does link s s' (.loadSymbol symbolId) := by
  rw [loadSymbol] at hcall
  cases hobject : link.objects[symbolId.file]? with
  | none =>
    rw [hobject] at hcall
    cases hcall
    refine ⟨h, Grows.refl s, rfl, fun object symbol i header offset index ho => ?_⟩
    rw [hobject] at ho
    cases ho
  | some object =>
    rw [hobject] at hcall
    obtain ⟨symbol, hsymbol, hcall⟩ := bind_eq_some_iff.mp hcall
    cases hindex : symbol.sectionIndex with
    | none =>
      rw [hindex] at hcall
      cases hcall
      refine ⟨h, Grows.refl s, rfl, fun object' symbol' i header offset index ho hs hi => ?_⟩
      cases hobject.symm.trans ho
      cases hsymbol.symm.trans hs
      rw [hindex] at hi
      cases hi
    | some sectionIndex =>
      rw [hindex] at hcall
      obtain ⟨header, hheader, hcall⟩ := bind_eq_some_iff.mp hcall
      split at hcall
      · obtain ⟨⟨t, handled⟩, hmark, hcall⟩ := bind_eq_some_iff.mp hcall
        cases hcall
        obtain ⟨htracked, hgrows, hdone, hmarked⟩ :=
          loadMachoSubsectionSymbol_does h ⟨object, symbol, hobject, hsymbol, hindex⟩ hunwind hmark
        split
        · exact ⟨htracked, hgrows, hdone, hmarked⟩
        · refine ⟨htracked.push_of_ne fun w hw id i heq => ?_,
            hgrows.trans (Grows.push t _), hdone, hmarked.mono (Grows.push t _)⟩
          obtain rfl := mem_singleton.mp hw
          cases heq
      · rename_i hgc
        cases hcall
        refine ⟨h.push_of_ne fun w hw id i heq => ?_, Grows.push s _, rfl, ?_⟩
        · obtain rfl := mem_singleton.mp hw
          cases heq
        · intro object' symbol' i header' offset index ho hs hi hh hg
          cases hobject.symm.trans ho
          cases hsymbol.symm.trans hs
          cases hindex.symm.trans hi
          cases hheader.symm.trans hh
          exact absurd hg hgc

theorem resolveRelocation_does (file : Nat) (rel : Relocation) :
    Does link s (resolveRelocation link s file rel) (.resolveRelocation file rel) := by
  rw [resolveRelocation]
  split
  · rename_i hresolved
    have hknows := h.resolved _ hresolved
    exact ⟨h.resolve _ hknows, ⟨fun _ _ _ h => h, fun _ h => h⟩, rfl, hknows⟩
  · have hknows := @State.knows_push s [.loadSymbol (link.definition ⟨file, rel.rSymbolnum⟩)] _
      (mem_singleton_self _)
    refine ⟨(h.push_of_ne fun w hw id i heq => ?_).resolve _ hknows,
      ⟨fun _ _ _ h => h, fun _ h => h.imp_left (mem_append_left _)⟩, rfl, hknows⟩
    obtain rfl := mem_singleton.mp hw
    cases heq

end

/-- Work that asks for a section or for the second half of the call. -/
theorem not_loadSubsectionSymbol_of_mem (h : ∀ w ∈ work, (∃ file i, w = .loadSection file i) ∨
      ∃ file rel, w = .resolveRelocation file rel) :
    ∀ w ∈ work, ∀ id i, w ≠ .loadSubsectionSymbol id i := by
  rintro w hw id i rfl
  rcases h _ hw with ⟨file, j, heq⟩ | ⟨file, rel, heq⟩
  · cases heq
  · cases heq

theorem processRelocation_does (h : Tracked link s) {rel : Relocation}
    (hcall : processRelocation link s file rel = some s') :
    Does link s s' (.processRelocation file sectionIndex rel) := by
  obtain ⟨object, hobject, hcall⟩ := bind_eq_some_iff.mp hcall
  -- the cases without a follow-up push requests of sections at most
  have hpush : ∀ work : List Work, (∀ w ∈ work, ∃ file i, w = .loadSection file i) →
      (rel.rType ≠ .other ∨ rel.rExtern = false) →
      Does link s (s.push work) (.processRelocation file sectionIndex rel) := by
    intro work hwork hkind
    refine ⟨h.push_of_ne (not_loadSubsectionSymbol_of_mem fun w hw => .inl (hwork w hw)),
      Grows.push s work, rfl, fun hother hsymbolic => ?_⟩
    rcases hkind with hne | hlocal
    · exact absurd hother hne
    · rw [hlocal] at hsymbolic
      cases hsymbolic
  split at hcall
  · rename_i htype
    cases hcall
    exact ⟨h, Grows.refl s, rfl, fun hother => by rw [htype] at hother; cases hother⟩
  · rename_i htype hsymbolic
    obtain ⟨symbol, -, hcall⟩ := bind_eq_some_iff.mp hcall
    cases hcall
    refine hpush _ (fun w hw => ?_) (.inl (by rw [htype]; decide))
    obtain ⟨i, -, rfl⟩ := mem_map.mp hw
    exact ⟨file, i, rfl⟩
  · rename_i htype hsymbolic
    obtain ⟨symbol, hsymbol, hcall⟩ := bind_eq_some_iff.mp hcall
    have hcontinued : Tracked link (s.push [.resolveRelocation file rel]) :=
      h.push_of_ne (not_loadSubsectionSymbol_of_mem fun w hw =>
        .inr ⟨file, rel, mem_singleton.mp hw⟩)
    have hgrows := Grows.push s [.resolveRelocation file rel]
    have hknows := @State.knows_push s [.resolveRelocation file rel] _ (mem_singleton_self _)
    cases hindex : symbol.sectionIndex with
    | none =>
      rw [hindex] at hcall
      cases hcall
      refine ⟨hcontinued, hgrows, rfl, fun _ _ => ⟨hknows, ?_⟩⟩
      intro object' symbol' i header ho hs hi
      cases hobject.symm.trans ho
      cases hsymbol.symm.trans hs
      rw [hindex] at hi
      cases hi
    | some symbolSection =>
      rw [hindex] at hcall
      dsimp only at hcall
      -- a follow-up in a state that grew from the one with the second half pending
      have hfollowed : ∀ t : State, (s.push [.resolveRelocation file rel]).Grows t →
          (∀ header, object.sections[symbolSection]? = some header →
            link.subsectionGcEnabled object header = true →
            KeepsOwn link symbol ⟨file, rel.rSymbolnum⟩ →
            SymbolMarked link t ⟨file, rel.rSymbolnum⟩ ∨
              t.Knows (.loadSubsectionSymbol ⟨file, rel.rSymbolnum⟩ symbolSection)) →
          Settled link t (.processRelocation file sectionIndex rel) := by
        intro t ht hown _ _
        refine ⟨ht.knows _ hknows, ?_⟩
        intro object' symbol' i header ho hs hi hh hg hk
        cases hobject.symm.trans ho
        cases hsymbol.symm.trans hs
        cases hindex.symm.trans hi
        exact hown header hh hg hk
      split at hcall
      · rename_i hkeeps
        cases hcall
        refine ⟨hcontinued, hgrows, rfl, hfollowed _ (Grows.refl _) ?_⟩
        intro header hh hg hk
        exact .inl (hcontinued.visited _ ((Bool.and_eq_true _ _).mp hkeeps).2)
      · obtain ⟨header, hheader, hcall⟩ := bind_eq_some_iff.mp hcall
        split at hcall
        · cases hcall
          refine ⟨hcontinued.push fun id i hmem => ?_,
            hgrows.trans (Grows.push _ _), rfl, hfollowed _ (Grows.push _ _) ?_⟩
          · obtain ⟨rfl, rfl⟩ := Work.loadSubsectionSymbol.inj (mem_singleton.mp hmem)
            exact ⟨object, symbol, hobject, hsymbol, hindex⟩
          · intro header' hh hg hk
            exact .inr (knows_push (mem_singleton_self _))
        · rename_i hgc
          -- the section is not stripped, or the definition is elsewhere
          have hnone : ∀ t : State, ∀ header', object.sections[symbolSection]? = some header' →
              link.subsectionGcEnabled object header' = true →
              KeepsOwn link symbol ⟨file, rel.rSymbolnum⟩ →
              SymbolMarked link t ⟨file, rel.rSymbolnum⟩ ∨
                t.Knows (.loadSubsectionSymbol ⟨file, rel.rSymbolnum⟩ symbolSection) := by
            intro t header' hh hg hk
            cases hheader.symm.trans hh
            refine absurd ?_ hgc
            rw [hg, Bool.and_true, Bool.or_eq_true, Bool.or_eq_true, decide_eq_true_iff]
            exact or_assoc.mpr hk
          split at hcall
          · cases hcall
            refine ⟨hcontinued.push_of_ne (not_loadSubsectionSymbol_of_mem fun w hw =>
                .inl ⟨file, symbolSection, mem_singleton.mp hw⟩),
              hgrows.trans (Grows.push _ _), rfl,
              hfollowed _ (Grows.push _ _) (hnone _)⟩
          · cases hcall
            exact ⟨hcontinued, hgrows, rfl, hfollowed _ (Grows.refl _) (hnone _)⟩
  · rename_i hsymbolic _
    split at hcall
    · cases hcall
      exact ⟨h, Grows.refl s, rfl, fun _ hx => by rw [hsymbolic] at hx; cases hx⟩
    · obtain ⟨i, -, rfl⟩ := map_eq_some_iff.mp hcall
      refine hpush _ (fun w hw => ⟨file, i, mem_singleton.mp hw⟩) (.inr hsymbolic)

/-- **Every piece of work** keeps track and settles what it is for. -/
theorem exec_does (h : Tracked link s) {work : Work}
    (hunwind : ∀ w ∈ unwind, IsRelocation w) (hknows : s.Knows work)
    (hexec : exec link s unwind work = some s') : Does link s s' work := by
  cases work with
  | loadSymbol symbolId => exact loadSymbol_does h hunwind hexec
  | loadSection file sectionIndex => exact loadSection_does h hexec
  | loadSubsectionSymbol symbolId sectionIndex =>
    obtain ⟨⟨t, handled⟩, hcall, rfl⟩ := map_eq_some_iff.mp hexec
    obtain ⟨htracked, hgrows, hdone, hmarked⟩ :=
      loadMachoSubsectionSymbol_does h (h.targets symbolId sectionIndex hknows) hunwind hcall
    exact ⟨htracked, hgrows, hdone, hmarked⟩
  | processRelocation file sectionIndex rel => exact processRelocation_does h hexec
  | resolveRelocation file rel =>
    cases hexec
    exact resolveRelocation_does h file rel

/-! ## 4. Every order of work -/

/-- The state keeps track, and what is done is settled. -/
structure Invariant (link : Link) (s : State) : Prop where
  tracked : Tracked link s
  settled : ∀ work ∈ s.done, Settled link s work

theorem Tracked.congr {t : State} (h : Tracked link s) (hlive : t.live = s.live)
    (hvisited : t.visited = s.visited) (hloaded : t.loaded = s.loaded)
    (hresolved : t.resolved = s.resolved) (hknows : ∀ work, t.Knows work ↔ s.Knows work) :
    Tracked link t where
  targets id i hk := h.targets id i ((hknows _).mp hk)
  live file i b object header ho hh hl rel hrel := by
    rw [hlive] at hl
    exact (hknows _).mpr (h.live file i b object header ho hh hl rel hrel)
  visited id hv := by
    rw [hvisited] at hv
    exact (h.visited id hv).mono
      ⟨fun file i b hl => by rw [hlive]; exact hl, fun work hk => (hknows work).mpr hk⟩
  resolved id hr := by
    rw [hresolved] at hr
    exact (hknows _).mpr (h.resolved id hr)
  loaded file i object header ho hh hg hl symbol j hs ha hn hi := by
    rw [hloaded] at hl
    exact (hknows _).mpr (h.loaded file i object header ho hh hg hl symbol j hs ha hn hi)

theorem Invariant.of_request (h : Invariant link s) {t : State} (htracked : Tracked link t)
    (hgrows : s.Grows t) (hdone : t.done = s.done) : Invariant link t where
  tracked := htracked
  settled work hwork := by
    rw [hdone] at hwork
    exact (h.settled work hwork).mono hgrows

theorem Invariant.step (h : Invariant link s) (hstep : Step link s s') : Invariant link s' := by
  cases hstep with
  | @work _ front back unwind work hpending hunwind hexec =>
    have hknows : ∀ w, Knows { s with pending := front ++ back, done := work :: s.done } w
        ↔ s.Knows w := by
      intro w
      simp only [Knows, hpending, mem_append, mem_cons]
      tauto
    have htracked :
        Tracked link { s with pending := front ++ back, done := work :: s.done } :=
      h.tracked.congr rfl rfl rfl rfl hknows
    have hmem : Knows { s with pending := front ++ back, done := work :: s.done } work :=
      .inr mem_cons_self
    obtain ⟨htracked', hgrows, hdone, hsettled⟩ := exec_does htracked hunwind hmem hexec
    refine ⟨htracked', fun w hw => ?_⟩
    rw [hdone] at hw
    rcases mem_cons.mp hw with rfl | hw
    · exact hsettled
    · have hsame : s.Grows { s with pending := front ++ back, done := work :: s.done } :=
        ⟨fun _ _ _ hl => hl, fun w' hk => (hknows w').mpr hk⟩
      exact (h.settled w hw).mono (hsame.trans hgrows)
  | requestSymbol symbolId =>
    have hknows := @State.knows_push s [.loadSymbol symbolId] _ (mem_singleton_self _)
    refine h.of_request ((h.tracked.push_of_ne fun w hw id i heq => ?_).resolve true hknows)
      ⟨fun _ _ _ hl => hl, fun _ hk => hk.imp_left (mem_append_left _)⟩ rfl
    obtain rfl := mem_singleton.mp hw
    cases heq
  | requestSection file sectionIndex =>
    refine h.of_request (h.tracked.push_of_ne fun w hw id i heq => ?_) (Grows.push s _) rfl
    obtain rfl := mem_singleton.mp hw
    cases heq

/-- **The invariant of every order of work.** -/
theorem Reachable.invariant (h : Reachable link s) : Invariant link s := by
  induction h with
  | initial =>
    have hnone : ∀ work, ¬ DeadStrip.initial.Knows work := by
      rintro work (h | h)
      · cases h
      · cases h
    refine ⟨⟨fun id i hk => absurd hk (hnone _), fun file i b object header ho hh hl => ?_,
      fun id hv => ?_, fun id hr => ?_, fun file i object header ho hh hg hl => ?_⟩,
      fun work hw => absurd hw not_mem_nil⟩
    · cases hl
    · cases hv
    · cases hr
    · cases hl
  | step _ hstep ih => exact ih.step hstep

/-- When nothing is pending, what is known is done. -/
theorem mem_done_of_knows (hdone : s.pending = []) {work : Work} (h : s.Knows work) :
    work ∈ s.done := by
  rcases h with h | h
  · rw [hdone] at h
    cases h
  · exact h

end Srs.MachO.DeadStrip
