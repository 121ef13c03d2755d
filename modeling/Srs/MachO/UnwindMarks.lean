/-
# What a piece of work marks

The traversal of `DeadStrip` marks subsections and symbols in one place only, and a call there marks
one new symbol with its subsection or nothing (`exec_marks`).  It gets to the unwind metadata of the
symbol if the section is executable.
-/
import Srs.MachO.UnwindCompaction

namespace Srs.MachO.UnwindMetadata

open Buffers Cuts DeadStrip Option

/-! ## 1. Calls and marks -/

/-- The symbol lies in the subsection, which is not empty. -/
structure LiesIn (link : Link) (symbolId : SymbolId) (object : Object) (header : SectionHeader)
    (sectionIndex index : Nat) : Prop where
  hasObject : link.objects[symbolId.file]? = some object
  hasHeader : object.sections[sectionIndex]? = some header
  hasSymbol : ∃ symbol offset, object.symbols[symbolId.index]? = some symbol ∧
    symbol.sectionIndex = some sectionIndex ∧
    Object.symbolOffsetInSection symbol header = some offset ∧
    markedIndex object header sectionIndex offset = some index

theorem LiesIn.unique {link : Link} {symbolId : SymbolId} {object object' : Object}
    {header header' : SectionHeader} {sectionIndex sectionIndex' index index' : Nat}
    (h : LiesIn link symbolId object header sectionIndex index)
    (h' : LiesIn link symbolId object' header' sectionIndex' index') :
    object' = object ∧ header' = header ∧ sectionIndex' = sectionIndex ∧ index' = index := by
  obtain ⟨hobject, hheader, symbol, offset, hsymbol, hsection, hoffset, hindex⟩ := h
  obtain ⟨hobject', hheader', symbol', offset', hsymbol', hsection', hoffset', hindex'⟩ := h'
  cases hobject.symm.trans hobject'
  cases hsymbol.symm.trans hsymbol'
  cases hsection.symm.trans hsection'
  cases hheader.symm.trans hheader'
  cases hoffset.symm.trans hoffset'
  cases hindex.symm.trans hindex'
  exact ⟨rfl, rfl, rfl, rfl⟩

/-- The work calls `load_macho_subsection_symbol` for the symbol. -/
def CallsFor (link : Link) (symbolId : SymbolId) : Work → Prop
  | .loadSymbol id => id = symbolId ∧ ∃ object symbol sectionIndex header,
      link.objects[symbolId.file]? = some object ∧
      object.symbols[symbolId.index]? = some symbol ∧ symbol.sectionIndex = some sectionIndex ∧
      object.sections[sectionIndex]? = some header ∧ link.subsectionGcEnabled object header = true
  | .loadSubsectionSymbol id _ => id = symbolId
  | _ => False

theorem CallsFor.unique {link : Link} {a b : SymbolId} {work : Work} (ha : CallsFor link a work)
    (hb : CallsFor link b work) : b = a := by
  cases work with
  | loadSymbol id => exact hb.1.symm.trans ha.1
  | loadSubsectionSymbol id i => exact Eq.trans (Eq.symm hb) ha
  | loadSection => cases ha
  | processRelocation => cases ha
  | resolveRelocation => cases ha

/-- What a piece of work does to the marks: nothing, or it marks a new symbol and its subsection. -/
inductive Marks (link : Link) (s s' : State) (work : Work) : Prop
  | nothing (hlive : s'.live = s.live) (hvisited : s'.visited = s.visited)
      (hunwind : unwindSymbol? link s work = none)
      (hcalls : ∀ symbolId, CallsFor link symbolId work → s.visited symbolId = true ∨
        ∀ object header i b, ¬ LiesIn link symbolId object header i b)
  | symbol (symbolId : SymbolId) (object : Object) (header : SectionHeader)
      (sectionIndex index : Nat)
      (hlies : LiesIn link symbolId object header sectionIndex index)
      (hnew : s.visited symbolId = false) (hcalls : CallsFor link symbolId work)
      (hlive : s'.live = (s.setLive symbolId.file sectionIndex index).live)
      (hvisited : s'.visited = (s.setVisited symbolId).visited)
      (hunwind : unwindSymbol? link s work = if header.isExecutable then some symbolId else none)

section

variable {link : Link} {s s' : State}

variable {symbolId : SymbolId} {sectionIndex : Nat} {unwind : List Work}

theorem reachesUnwind_of_visited
    (h : s.visited symbolId = true) : reachesUnwind link s symbolId sectionIndex = false := by
  rw [reachesUnwind, h]
  rfl

theorem reachesUnwind_of_new {object : Object} {header : SectionHeader}
    {symbol : Symbol} {offset : Nat} (hnew : s.visited symbolId = false)
    (hobject : link.objects[symbolId.file]? = some object)
    (hsymbol : object.symbols[symbolId.index]? = some symbol)
    (hheader : object.sections[sectionIndex]? = some header)
    (hoffset : Object.symbolOffsetInSection symbol header = some offset) :
    reachesUnwind link s symbolId sectionIndex
      = ((markedIndex object header sectionIndex offset).isSome && header.isExecutable) := by
  rw [reachesUnwind, hnew, hobject, bind_eq_bind, bind_some, hsymbol,
    bind_eq_bind, bind_some, hheader, bind_eq_bind, bind_some, hoffset,
    bind_eq_bind, bind_some]
  cases markedIndex object header sectionIndex offset with
  | none => rfl
  | some index => rfl

/-- The call, with a symbol of the section. -/
theorem loadMachoSubsectionSymbol_marks {handled : Bool}
    (hsection : HasSection link symbolId sectionIndex)
    (hcall : loadMachoSubsectionSymbol link s symbolId sectionIndex unwind = some (s', handled)) :
    (s'.live = s.live ∧ s'.visited = s.visited ∧
      reachesUnwind link s symbolId sectionIndex = false ∧ (s.visited symbolId = true ∨
        ∀ object header i b, ¬ LiesIn link symbolId object header i b)) ∨
    ∃ object header index, LiesIn link symbolId object header sectionIndex index ∧
      s.visited symbolId = false ∧ s'.live = (s.setLive symbolId.file sectionIndex index).live ∧
      s'.visited = (s.setVisited symbolId).visited ∧
      reachesUnwind link s symbolId sectionIndex = header.isExecutable := by
  obtain ⟨object, symbol, hobject, hsymbol, hindex⟩ := hsection
  rw [loadMachoSubsectionSymbol, hobject, bind_eq_bind, bind_some] at hcall
  split at hcall
  · rename_i hvisited
    cases hcall
    exact .inl ⟨rfl, rfl, reachesUnwind_of_visited hvisited, .inl hvisited⟩
  · rename_i hvisited
    have hnew := Bool.eq_false_iff.mpr hvisited
    rw [hsymbol, bind_eq_bind, bind_some] at hcall
    obtain ⟨header, hheader, hcall⟩ := bind_eq_some_iff.mp hcall
    obtain ⟨offset, hoffset, hcall⟩ := bind_eq_some_iff.mp hcall
    have hreaches := reachesUnwind_of_new hnew hobject hsymbol hheader hoffset
    split at hcall
    · rename_i hnone
      cases hcall
      rw [hnone, isSome_none, Bool.false_and] at hreaches
      refine .inl ⟨rfl, rfl, hreaches, .inr ?_⟩
      rintro object' header' i b ⟨ho, hh, symbol', offset', hs, hi, hoff, hb⟩
      cases hobject.symm.trans ho
      cases hsymbol.symm.trans hs
      cases hindex.symm.trans hi
      cases hheader.symm.trans hh
      cases hoffset.symm.trans hoff
      rw [hnone] at hb
      cases hb
    · rename_i index hsome
      cases hcall
      rw [hsome, isSome_some, Bool.true_and] at hreaches
      exact .inr ⟨object, header, index, ⟨hobject, hheader, symbol, offset, hsymbol, hindex,
        hoffset, hsome⟩, hnew, rfl, rfl, hreaches⟩

theorem loadSymbol_marks (hcall : loadSymbol link s symbolId unwind = some s') :
    Marks link s s' (.loadSymbol symbolId) := by
  rw [loadSymbol] at hcall
  cases hobject : link.objects[symbolId.file]? with
  | none =>
    rw [hobject] at hcall
    cases hcall
    refine .nothing rfl rfl ?_ ?_
    · rw [unwindSymbol?, hobject]
      rfl
    · rintro id ⟨rfl, object, symbol, i, header, ho, -⟩
      rw [hobject] at ho
      cases ho
  | some object =>
    rw [hobject] at hcall
    obtain ⟨symbol, hsymbol, hcall⟩ := bind_eq_some_iff.mp hcall
    cases hindex : symbol.sectionIndex with
    | none =>
      rw [hindex] at hcall
      cases hcall
      refine .nothing rfl rfl ?_ ?_
      · rw [unwindSymbol?, hobject, bind_eq_bind, bind_some, hsymbol,
          bind_eq_bind, bind_some, hindex]
        rfl
      · rintro id ⟨rfl, object', symbol', i, header, ho, hs, hi, -⟩
        cases hobject.symm.trans ho
        cases hsymbol.symm.trans hs
        rw [hindex] at hi
        cases hi
    | some sectionIndex =>
      rw [hindex] at hcall
      obtain ⟨header, hheader, hcall⟩ := bind_eq_some_iff.mp hcall
      have hunwind : unwindSymbol? link s (.loadSymbol symbolId) =
          if link.subsectionGcEnabled object header = true ∧
            reachesUnwind link s symbolId sectionIndex then some symbolId else none := by
        rw [unwindSymbol?, hobject, bind_eq_bind, bind_some, hsymbol,
          bind_eq_bind, bind_some, hindex, bind_eq_bind, bind_some,
          hheader, bind_eq_bind, bind_some]
      split at hcall
      · rename_i hgc
        obtain ⟨⟨t, handled⟩, hmark, hcall⟩ := bind_eq_some_iff.mp hcall
        cases hcall
        have hfields : ∀ r : State, r = (if handled = true then t
            else t.push [.loadSection symbolId.file sectionIndex]) →
            r.live = t.live ∧ r.visited = t.visited := by
          rintro r rfl
          cases handled with
          | true => exact ⟨rfl, rfl⟩
          | false => exact ⟨rfl, rfl⟩
        obtain ⟨hlive, hvisited⟩ := hfields _ rfl
        rcases loadMachoSubsectionSymbol_marks ⟨object, symbol, hobject, hsymbol, hindex⟩ hmark with
          ⟨hl, hv, hr, hold⟩ | ⟨object', header', index, hlies, hnew, hl, hv, hr⟩
        · refine .nothing (hlive.trans hl) (hvisited.trans hv) ?_ ?_
          · rw [hunwind, if_neg fun h => by rw [hr] at h; exact Bool.false_ne_true h.2]
          · rintro id ⟨rfl, -⟩
            exact hold
        · have hsame := hlies
          obtain ⟨ho, hh, -⟩ := hsame
          cases hobject.symm.trans ho
          cases hheader.symm.trans hh
          refine .symbol symbolId object header sectionIndex index hlies hnew
            ⟨rfl, object, symbol, sectionIndex, header, hobject, hsymbol, hindex, hheader, hgc⟩
            (hlive.trans hl) (hvisited.trans hv) ?_
          rw [hunwind, hr]
          simp only [hgc, true_and]
      · rename_i hgc
        cases hcall
        refine .nothing rfl rfl ?_ ?_
        · rw [hunwind, if_neg fun h => hgc h.1]
        · rintro id ⟨rfl, object', symbol', i, header', ho, hs, hi, hh, hg⟩
          cases hobject.symm.trans ho
          cases hsymbol.symm.trans hs
          cases hindex.symm.trans hi
          cases hheader.symm.trans hh
          exact absurd hg hgc

variable {file : Nat}

/-- A call for a section marks nothing, -/
theorem loadSection_marks (hcall : loadSection link s file sectionIndex = some s') :
    s'.live = s.live ∧ s'.visited = s.visited := by
  obtain ⟨object, -, hcall⟩ := bind_eq_some_iff.mp hcall
  obtain ⟨header, -, hcall⟩ := bind_eq_some_iff.mp hcall
  split at hcall
  · cases hcall
  · cases hcall
    exact ⟨rfl, rfl⟩
  · split at hcall
    · cases hcall
      exact ⟨rfl, rfl⟩
    · cases hcall
      exact ⟨rfl, rfl⟩

/-- and neither does a relocation by itself. -/
theorem processRelocation_marks {rel : Relocation}
    (hcall : processRelocation link s file rel = some s') :
    s'.live = s.live ∧ s'.visited = s.visited := by
  obtain ⟨object, -, hcall⟩ := bind_eq_some_iff.mp hcall
  split at hcall
  · cases hcall
    exact ⟨rfl, rfl⟩
  · obtain ⟨symbol, -, hcall⟩ := bind_eq_some_iff.mp hcall
    cases hcall
    exact ⟨rfl, rfl⟩
  · obtain ⟨symbol, -, hcall⟩ := bind_eq_some_iff.mp hcall
    dsimp only at hcall
    split at hcall
    · cases hcall
      exact ⟨rfl, rfl⟩
    · split at hcall
      · cases hcall
        exact ⟨rfl, rfl⟩
      · obtain ⟨header, -, hcall⟩ := bind_eq_some_iff.mp hcall
        split at hcall
        · cases hcall
          exact ⟨rfl, rfl⟩
        · split at hcall
          · cases hcall
            exact ⟨rfl, rfl⟩
          · cases hcall
            exact ⟨rfl, rfl⟩
  · split at hcall
    · cases hcall
      exact ⟨rfl, rfl⟩
    · obtain ⟨i, -, rfl⟩ := map_eq_some_iff.mp hcall
      exact ⟨rfl, rfl⟩

/-- **What every piece of work marks.** -/
theorem exec_marks {work : Work}
    (htargets : ∀ symbolId sectionIndex, work = .loadSubsectionSymbol symbolId sectionIndex →
      HasSection link symbolId sectionIndex)
    (hexec : DeadStrip.exec link s unwind work = some s') : Marks link s s' work := by
  cases work with
  | loadSymbol symbolId => exact loadSymbol_marks hexec
  | loadSection file sectionIndex =>
    obtain ⟨hlive, hvisited⟩ := loadSection_marks hexec
    exact .nothing hlive hvisited rfl fun _ h => False.elim h
  | loadSubsectionSymbol symbolId sectionIndex =>
    obtain ⟨⟨t, handled⟩, hcall, rfl⟩ := map_eq_some_iff.mp hexec
    rcases loadMachoSubsectionSymbol_marks (htargets _ _ rfl) hcall with
      ⟨hl, hv, hr, hold⟩ | ⟨object, header, index, hlies, hnew, hl, hv, hr⟩
    · refine .nothing hl hv ?_ ?_
      · rw [unwindSymbol?, hr, if_neg Bool.false_ne_true]
      · rintro id rfl
        exact hold
    · exact .symbol symbolId object header sectionIndex index hlies hnew rfl hl hv
        (by rw [unwindSymbol?, hr])
  | processRelocation file sectionIndex rel =>
    obtain ⟨hlive, hvisited⟩ := processRelocation_marks hexec
    exact .nothing hlive hvisited rfl fun _ h => False.elim h
  | resolveRelocation file rel =>
    cases hexec
    have hfields : (resolveRelocation link s file rel).live = s.live ∧
        (resolveRelocation link s file rel).visited = s.visited := by
      rw [resolveRelocation]
      split
      · exact ⟨rfl, rfl⟩
      · exact ⟨rfl, rfl⟩
    exact .nothing hfields.1 hfields.2 rfl fun _ h => False.elim h

end

end Srs.MachO.UnwindMetadata
