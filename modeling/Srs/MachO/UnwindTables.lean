/-
# What the tables of the unwind metadata say

An entry of `__compact_unwind` is found under the one symbol that its relocation names, or under all
symbols of the subsection where the value that it stores lies (`mem_compact_lookup`).  That value is
an address, and it is looked up as an offset.  An FDE is found under the symbols that relocations of
its start name, and under no other (`mem_eh_frame_lookup`).
-/
import Srs.Lib.Records
import Srs.MachO.DeadStripKeeps
import Srs.MachO.UnwindMetadata

namespace Srs.MachO.UnwindMetadata

open Buffers Cuts DeadStrip Records List Option Except

/-! ## 1. The symbols of a subsection -/

/-- The symbol lies in the subsection in which the offset lies. -/
def SameSubsection (object : Object) (sectionIndex symbol offset : Nat) : Prop :=
  ∃ entry header symbolOffset, object.symbols[symbol]? = some entry ∧
    entry.sectionIndex = some sectionIndex ∧ object.sections[sectionIndex]? = some header ∧
    Object.symbolOffsetInSection entry header = some symbolOffset ∧
    cutsUpTo (object.boundaries sectionIndex header) symbolOffset
      = cutsUpTo (object.boundaries sectionIndex header) offset

theorem subsectionBoundaries_eq (object : Object) (sectionIndex : Nat) (header : SectionHeader) :
    subsectionBoundaries header (symbolsOfSection object sectionIndex header)
      = object.boundaries sectionIndex header := by
  have hsymbols : object.symbols = object.symbols.zipIdx.map Prod.fst := by
    rw [zipIdx_map_fst]
  rw [subsectionBoundaries, symbolsOfSection, Object.boundaries, Object.ordinaryOffsets]
  congr 2
  conv_rhs =>
    rw [hsymbols, ← filterMap_eq_filter, filterMap_map, filterMap_filterMap]
  rw [filterMap_filterMap]
  refine filterMap_congr ?_
  rintro ⟨symbol, index⟩ -
  by_cases hsection : symbol.sectionIndex = some sectionIndex
  · by_cases halt : symbol.altEntry = false
    · simp only [hsection, halt, if_true, Function.comp_apply, and_self]
      cases Object.symbolOffsetInSection symbol header with
      | none => rfl
      | some offset => simp [Option.guard]
    · simp [hsection, halt]
  · simp [hsection]

variable {object : Object} {offset : Nat} {data : Bytes}

theorem mem_symbolsOfSection {sectionIndex index : Nat} {isAlt : Bool}
    {header : SectionHeader} :
    (offset, index, isAlt) ∈ symbolsOfSection object sectionIndex header ↔
      ∃ symbol, object.symbols[index]? = some symbol ∧ symbol.sectionIndex = some sectionIndex ∧
        Object.symbolOffsetInSection symbol header = some offset ∧ symbol.altEntry = isAlt := by
  rw [symbolsOfSection, mem_filterMap]
  constructor
  · rintro ⟨⟨symbol, i⟩, hmem, heq⟩
    dsimp only at heq
    split at heq
    · rename_i hsection
      obtain ⟨o, hoffset, heq⟩ := map_eq_some_iff.mp heq
      obtain ⟨rfl, rfl, rfl⟩ := Prod.mk.injEq .. ▸ heq
      exact ⟨symbol, mk_mem_zipIdx_iff_getElem?.mp hmem, hsection, hoffset, rfl⟩
    · cases heq
  · rintro ⟨symbol, hsymbol, hsection, hoffset, rfl⟩
    refine ⟨(symbol, index), mk_mem_zipIdx_iff_getElem?.mpr hsymbol, ?_⟩
    dsimp only
    rw [if_pos hsection, hoffset, map_some]

/-- Every offset is behind the first boundary, and finds the start of a subsection. -/
theorem exists_boundary (object : Object) (sectionIndex : Nat) (header : SectionHeader)
    (offset : Nat) : ∃ index start, cutsUpTo (object.boundaries sectionIndex header) offset = index + 1 ∧
      (object.boundaries sectionIndex header)[index]? = some start := by
  have hzero : 0 ∈ object.boundaries sectionIndex header := mem_boundaries.mpr (.inl rfl)
  obtain ⟨index, hi, hcount, -⟩ := exists_piece (boundaries_pairwise object sectionIndex header)
    hzero (Nat.zero_le offset) (Nat.lt_succ_self offset)
  exact ⟨index, _, hcount, getElem?_eq_getElem hi⟩

/-- **The symbols of the subsection of an offset.** -/
theorem mem_symbolsAt {sectionIndex symbol : Nat} :
    symbol ∈ symbolsAt object sectionIndex offset ↔
      SameSubsection object sectionIndex symbol offset := by
  rw [symbolsAt]
  cases hheader : object.sections[sectionIndex]? with
  | none =>
    refine iff_of_false not_mem_nil ?_
    rintro ⟨entry, header, o, -, -, hsome, -⟩
    rw [hheader] at hsome
    cases hsome
  | some header =>
    obtain ⟨index, start, hcount, hstart⟩ := exists_boundary object sectionIndex header offset
    obtain ⟨hi, hget⟩ := List.getElem?_eq_some_iff.mp hstart
    have hsub : symbol ∈ symbolsOfSubsection (object.boundaries sectionIndex header)
        (symbolsOfSection object sectionIndex header) start ↔
          SameSubsection object sectionIndex symbol offset := by
      rw [symbolsOfSubsection, List.mem_map]
      constructor
      · rintro ⟨⟨o, i, isAlt⟩, hmem, rfl⟩
        obtain ⟨hmem, hat⟩ := mem_filter.mp hmem
        obtain ⟨entry, hentry, hsection, hoffset, -⟩ := mem_symbolsOfSection.mp hmem
        refine ⟨entry, header, o, hentry, hsection, hheader, hoffset, ?_⟩
        obtain ⟨j, start', hcount', hstart'⟩ := exists_boundary object sectionIndex header o
        dsimp only at hat
        rw [hcount'] at hat
        have hsame : (object.boundaries sectionIndex header)[j]? = some start := of_decide_eq_true hat
        obtain ⟨hj, hget'⟩ := List.getElem?_eq_some_iff.mp hsame
        have hcuts := boundaries_pairwise object sectionIndex header
        rw [hcount', hcount, ← cutsUpTo_getElem hcuts hi, ← cutsUpTo_getElem hcuts hj, hget, hget']
      · rintro ⟨entry, header', o, hentry, hsection, hheader', hoffset, hcuts⟩
        cases hheader.symm.trans hheader'
        refine ⟨(o, symbol, entry.altEntry), mem_filter.mpr
          ⟨mem_symbolsOfSection.mpr ⟨entry, hentry, hsection, hoffset, rfl⟩, ?_⟩, rfl⟩
        dsimp only
        rw [hcuts, hcount]
        exact decide_eq_true hstart
    dsimp only
    split
    · rename_i hempty
      refine iff_of_false not_mem_nil ?_
      rintro ⟨entry, header', o, hentry, hsection, hheader', hoffset, -⟩
      cases hheader.symm.trans hheader'
      have hmem := mem_symbolsOfSection.mpr ⟨entry, hentry, hsection, hoffset, rfl⟩
      rw [List.isEmpty_iff.mp hempty] at hmem
      cases hmem
    · rw [subsectionBoundaries_eq, hcount]
      dsimp only
      rw [hstart]
      exact hsub

/-! ## 2. The table of `__compact_unwind` -/

/-- A relocation at the start of an entry names the symbol: as its symbol, or as one of the
subsection in which the stored value would lie if it were an offset. -/
def NamesCompact (object : Object) (data : Bytes) (rel : Relocation) (symbol : Nat) : Prop :=
  rel.rExtern = true ∧ rel.rSymbolnum = symbol ∨
    rel.rExtern = false ∧ 0 < rel.rSymbolnum ∧ ∃ stored, readLe 8 data rel.rAddress = some stored ∧
      SameSubsection object (rel.rSymbolnum - 1) symbol stored

/-- The entry of `__compact_unwind` is found under the symbol. -/
def FindsCompact (object : Object) (rawSectionData : Nat → Option Bytes)
    (sectionIndex symbol start : Nat) : Prop :=
  ∃ header data rel, sectionByName object "__compact_unwind".toList = some (sectionIndex, header) ∧
    rawSectionData sectionIndex = some data ∧ rel ∈ header.relocations ∧ rel.rType ≠ .addend ∧
    rel.rAddress = start ∧ start % MACHO_COMPACT_UNWIND_ENTRY_SIZE = 0 ∧
    NamesCompact object data rel symbol

theorem mem_entryStartsBySymbol {rel : Relocation}
    {starts : List (Nat × Nat)} (h : entryStartsBySymbol object data rel = .ok starts)
    {symbol start : Nat} : (symbol, start) ∈ starts ↔ rel.rAddress = start ∧
      start % MACHO_COMPACT_UNWIND_ENTRY_SIZE = 0 ∧ NamesCompact object data rel symbol := by
  obtain ⟨_, -, h⟩ := bind_eq_ok.mp h
  obtain ⟨_, -, h⟩ := bind_eq_ok.mp h
  split at h
  · rename_i hsymbolic
    cases h
    rw [hsymbolic.1, Nat.sub_zero, mem_singleton, Prod.mk.injEq]
    constructor
    · rintro ⟨rfl, rfl⟩
      exact ⟨rfl, hsymbolic.1, .inl ⟨hsymbolic.2, rfl⟩⟩
    · rintro ⟨rfl, -, ⟨-, rfl⟩ | ⟨hfalse, -⟩⟩
      · exact ⟨rfl, rfl⟩
      · rw [hsymbolic.2] at hfalse
        cases hfalse
  · rename_i hne
    split at h
    · rename_i hlocal
      have hfalse : rel.rExtern = false :=
        Bool.eq_false_iff.mpr fun htrue => hne ⟨hlocal.1, htrue⟩
      obtain ⟨_, -, h⟩ := bind_eq_ok.mp h
      obtain ⟨stored, hstored, h⟩ := bind_eq_ok.mp h
      cases h
      have hread : readLe 8 data rel.rAddress = some stored := okOr_eq_ok.mp hstored
      rw [hlocal.1, Nat.sub_zero, List.mem_map]
      constructor
      · rintro ⟨symbol', hmem, heq⟩
        cases heq
        exact ⟨rfl, hlocal.1, .inr ⟨hfalse, hlocal.2, stored, hread, mem_symbolsAt.mp hmem⟩⟩
      · rintro ⟨rfl, -, ⟨htrue, -⟩ | ⟨-, -, stored', hread', hsame⟩⟩
        · rw [hfalse] at htrue
          cases htrue
        · cases hread.symm.trans hread'
          exact ⟨symbol, mem_symbolsAt.mpr hsame, rfl⟩
    · rename_i hnone
      cases h
      refine iff_of_false not_mem_nil ?_
      rintro ⟨rfl, hstart, ⟨htrue, -⟩ | ⟨-, hpos, -⟩⟩
      · exact hne ⟨hstart, htrue⟩
      · exact hnone ⟨hstart, hpos⟩

/-- **What the table of `__compact_unwind` has under a symbol.** -/
theorem mem_compact_lookup {object : Object} {rawSectionData : Nat → Option Bytes}
    {lookup : Option CompactUnwindLookup}
    (h : ensureCompactUnwindLookup object rawSectionData = .ok lookup)
    {sectionIndex symbol start : Nat} :
    (∃ table, lookup = some table ∧ table.sectionIndex = sectionIndex ∧
      ∃ entry ∈ entriesOf table.entriesBySymbol symbol, entry.entryStart = start) ↔
      FindsCompact object rawSectionData sectionIndex symbol start := by
  rw [ensureCompactUnwindLookup] at h
  cases hsection : sectionByName object "__compact_unwind".toList with
  | none =>
    rw [hsection] at h
    cases h
    refine iff_of_false (fun ⟨table, hnone, _⟩ => by cases hnone) ?_
    rintro ⟨header, data, rel, hsome, -⟩
    rw [hsection] at hsome
    cases hsome
  | some found =>
    obtain ⟨index, header⟩ := found
    rw [hsection] at h
    obtain ⟨data, hdata, h⟩ := bind_eq_ok.mp h
    obtain ⟨_, -, h⟩ := bind_eq_ok.mp h
    obtain ⟨starts, hstarts, h⟩ := bind_eq_ok.mp h
    cases h
    have hraw : rawSectionData index = some data := okOr_eq_ok.mp hdata
    have hmem := mem_of_mapM_eq_ok hstarts
    constructor
    · rintro ⟨table, heq, rfl, entry, hentry, rfl⟩
      cases heq
      obtain ⟨⟨symbol', entry'⟩, hunder, rfl⟩ := mem_map.mp hentry
      obtain ⟨hkey, hsymbol⟩ := mem_filter.mp hunder
      obtain rfl : symbol' = symbol := of_decide_eq_true hsymbol
      obtain ⟨⟨symbol, start⟩, hpair, heq⟩ := mem_map.mp hkey
      cases heq
      obtain ⟨found, hfound, hpair⟩ := mem_flatten.mp hpair
      obtain ⟨rel, hrel, hcall⟩ := (hmem found).mp hfound
      obtain ⟨hrel, htype⟩ := mem_filter.mp hrel
      obtain ⟨haddress, hstart, hnames⟩ := (mem_entryStartsBySymbol hcall).mp hpair
      exact ⟨header, data, rel, hsection, hraw, hrel, of_decide_eq_true htype, haddress, hstart, hnames⟩
    · rintro ⟨header', data', rel, hsome, hraw', hrel, htype, haddress, hstart, hnames⟩
      cases hsection.symm.trans hsome
      cases hraw.symm.trans hraw'
      have hfilter : rel ∈ header.relocations.filter (·.rType ≠ .addend) :=
        mem_filter.mpr ⟨hrel, decide_eq_true htype⟩
      obtain ⟨found, hfound⟩ := exists_of_mapM_eq_ok hstarts hfilter
      have hpair := (mem_entryStartsBySymbol hfound).mpr ⟨haddress, hstart, hnames⟩
      refine ⟨_, rfl, rfl, _, List.mem_map_of_mem (mem_filter.mpr
        ⟨List.mem_map_of_mem (mem_flatten.mpr
          ⟨found, (hmem found).mpr ⟨rel, hfilter, hfound⟩, hpair⟩), decide_eq_true rfl⟩), rfl⟩

/-! ## 3. The entries of `__eh_frame` -/

/-- The entry at an offset, and what the loop does from it on. -/
theorem entryBounds_cases {entries : List EhFrameEntryBounds}
    (h : entryBounds data offset = .ok entries) :
    (entries = [] ∧ (offset + 4 ≤ data.length → readLe 4 data offset = some 0)) ∨
    ∃ length ciePointer rest, offset + 4 ≤ data.length ∧ readLe 4 data offset = some length ∧
      length ≠ 0 ∧ length ≠ 0xffff_ffff ∧ offset + 4 + length ≤ data.length ∧
      readLe 4 data (offset + 4) = some ciePointer ∧
      entryBounds data (offset + 4 + length) = .ok rest ∧
      entries = ⟨offset, offset + 4 + length, ciePointer⟩ :: rest := by
  rw [entryBounds] at h
  split at h
  · rename_i hfit
    obtain ⟨length, hlength, h⟩ := bind_eq_ok.mp h
    have hread : readLe 4 data offset = some length := okOr_eq_ok.mp hlength
    split at h
    · rename_i hzero
      cases h
      exact .inl ⟨rfl, fun _ => hzero ▸ hread⟩
    · rename_i hne
      obtain ⟨_, hlong, h⟩ := bind_eq_ok.mp h
      split at h
      · rename_i hstop
        obtain ⟨ciePointer, hpointer, h⟩ := bind_eq_ok.mp h
        obtain ⟨rest, hrest, h⟩ := bind_eq_ok.mp h
        cases h
        exact .inr ⟨length, ciePointer, rest, hfit, hread, hne, ensure_eq_ok.mp hlong, hstop,
          okOr_eq_ok.mp hpointer, hrest, rfl⟩
      · cases h
  · rename_i hfit
    cases h
    exact .inl ⟨rfl, fun hle => absurd hle hfit⟩

/-- Where the entries end. -/
def entriesEnd (offset : Nat) (entries : List EhFrameEntryBounds) : Nat :=
  (entries.getLast?.map (·.stop)).getD offset

theorem entriesEnd_cons (offset : Nat) (bounds : EhFrameEntryBounds)
    (rest : List EhFrameEntryBounds) :
    entriesEnd offset (bounds :: rest) = entriesEnd bounds.stop rest := by
  cases rest with
  | nil => rfl
  | cons next rest =>
    rw [entriesEnd, getLast?_cons_cons]
    rfl

/-- The entries lie one behind the other from the offset to their end, and none is empty. -/
theorem entryBounds_spec : ∀ {entries : List EhFrameEntryBounds} {offset : Nat},
    entryBounds data offset = .ok entries →
      (∀ bounds ∈ entries, offset ≤ bounds.start ∧ bounds.start < bounds.stop ∧
        bounds.stop ≤ entriesEnd offset entries) ∧
      entries.Pairwise (fun a b => a.stop ≤ b.start) ∧ offset ≤ entriesEnd offset entries
  | [], offset, _ => ⟨fun _ hb => absurd hb not_mem_nil, List.Pairwise.nil, Nat.le_refl _⟩
  | bounds :: entries, offset, h => by
    rcases entryBounds_cases h with ⟨hnil, -⟩ | ⟨length, ciePointer, rest, -, -, hne, -, -, -, hrest,
      heq⟩
    · cases hnil
    · cases heq
      obtain ⟨hmem, hpairwise, hend⟩ := entryBounds_spec hrest
      rw [entriesEnd_cons]
      refine ⟨fun b hb => ?_, pairwise_cons.mpr ⟨fun b hb => (hmem b hb).1, hpairwise⟩, ?_⟩
      · rcases mem_cons.mp hb with rfl | hb
        · dsimp only
          exact ⟨Nat.le_refl _, by omega, hend⟩
        · obtain ⟨hstart, hlt, hstop⟩ := hmem b hb
          exact ⟨by omega, hlt, hstop⟩
      · dsimp only at hend ⊢
        omega

/-! ## 4. The table of `__eh_frame` -/

theorem mem_relocationsByEntry : ∀ {entries : List EhFrameEntryBounds} {order : List Relocation},
    entries.Pairwise (fun a b => a.stop ≤ b.start) →
    order.Pairwise (fun a b => a.rAddress ≤ b.rAddress) → (∀ bounds ∈ entries,
      bounds.start < bounds.stop) → ∀ bounds ∈ entries,
      relocationsAt (relocationsByEntry entries order) bounds.start
        = (order.filter fun rel => bounds.start ≤ rel.rAddress).filter
          fun rel => rel.rAddress < bounds.stop
  | [], _, _, _, _, _, hb => absurd hb not_mem_nil
  | first :: rest, order, hentries, horder, hlt, bounds, hb => by
    obtain ⟨hfirst, hrest⟩ := pairwise_cons.mp hentries
    rw [relocationsByEntry, dropWhile_of_sorted _ horder,
      takeWhile_of_sorted _ (horder.filter _), dropWhile_of_sorted _ (horder.filter _)]
    rcases mem_cons.mp hb with rfl | hb
    · rw [relocationsAt, find?_cons_of_pos (by simp)]
      rfl
    · have hbefore := hfirst bounds hb
      have hstart := hlt first mem_cons_self
      have hne : first.start ≠ bounds.start := by omega
      rw [relocationsAt, find?_cons_of_neg (by simpa using hne), ← relocationsAt,
        mem_relocationsByEntry hrest ((horder.filter _).filter _)
          (fun b hb => hlt b (mem_cons_of_mem _ hb)) bounds hb]
      -- what was dropped for the first entry is in front of this one
      simp only [List.filter_filter]
      refine filter_congr fun rel _ => ?_
      rw [Bool.eq_iff_iff]
      simp only [Bool.and_eq_true, decide_eq_true_eq]
      omega

/-- The FDE is found under the symbol. -/
def FindsFde (object : Object) (rawSectionData : Nat → Option Bytes)
    (sectionIndex symbol start : Nat) : Prop :=
  ∃ header data entries bounds rel,
    sectionByName object "__eh_frame".toList = some (sectionIndex, header) ∧
    rawSectionData sectionIndex = some data ∧ entryBounds data 0 = .ok entries ∧
    bounds ∈ entries ∧ bounds.ciePointer ≠ 0 ∧ bounds.start = start ∧ start + 8 < bounds.stop ∧
    rel ∈ header.relocations ∧ rel.rType ≠ .addend ∧ rel.rAddress = start + 8 ∧
    rel.rExtern = true ∧ rel.rSymbolnum = symbol

/-- **What the table of `__eh_frame` has under a symbol.** -/
theorem mem_eh_frame_lookup {object : Object} {rawSectionData : Nat → Option Bytes}
    {lookup : Option EhFrameLookup} (h : ensureEhFrameLookup object rawSectionData = .ok lookup)
    {sectionIndex symbol start : Nat} :
    (∃ table, lookup = some table ∧ table.sectionIndex = sectionIndex ∧
      ∃ entry ∈ entriesOf table.entriesBySymbol symbol, entry.fdeStart = start) ↔
      FindsFde object rawSectionData sectionIndex symbol start := by
  rw [ensureEhFrameLookup] at h
  cases hsection : sectionByName object "__eh_frame".toList with
  | none =>
    rw [hsection] at h
    cases h
    refine iff_of_false (fun ⟨table, hnone, _⟩ => by cases hnone) ?_
    rintro ⟨header, data, entries, bounds, rel, hsome, -⟩
    rw [hsection] at hsome
    cases hsome
  | some found =>
    obtain ⟨index, header⟩ := found
    rw [hsection] at h
    obtain ⟨data, hdata, h⟩ := bind_eq_ok.mp h
    obtain ⟨entries, hentries, h⟩ := bind_eq_ok.mp h
    obtain ⟨lookups, hlookups, h⟩ := bind_eq_ok.mp h
    cases h
    have hraw : rawSectionData index = some data := okOr_eq_ok.mp hdata
    obtain ⟨hbounds, hpairwise, -⟩ := entryBounds_spec hentries
    -- the relocations of an entry are those inside it
    have hrelocations := mem_relocationsByEntry hpairwise
      (sortedByKey_pairwise (·.rAddress) (header.relocations.filter (·.rType ≠ .addend)))
      fun b hb => (hbounds b hb).2.1
    have hsorted := fun rel => (sortedByKey_perm (fun rel : Relocation => rel.rAddress)
      (header.relocations.filter (·.rType ≠ .addend))).mem_iff (a := rel)
    have hmem := mem_of_mapM_eq_ok hlookups
    constructor
    · rintro ⟨table, heq, rfl, entry, hentry, rfl⟩
      cases heq
      obtain ⟨⟨symbol', entry'⟩, hunder, rfl⟩ := mem_map.mp hentry
      obtain ⟨hkey, hsymbol⟩ := mem_filter.mp hunder
      obtain rfl : symbol' = symbol := of_decide_eq_true hsymbol
      obtain ⟨found, hfound, hkey⟩ := mem_flatten.mp hkey
      obtain ⟨bounds, hb, hcall⟩ := (hmem found).mp hfound
      obtain ⟨hb, hpointer⟩ := mem_filter.mp hb
      obtain ⟨cie, -, hcall⟩ := bind_eq_ok.mp hcall
      cases hcall
      obtain ⟨symbol, hnamed, heq⟩ := mem_map.mp hkey
      cases heq
      obtain ⟨rel, hrel, hsome⟩ := mem_filterMap.mp hnamed
      rw [hrelocations bounds hb] at hrel
      obtain ⟨hrel, hstop⟩ := mem_filter.mp hrel
      obtain ⟨hrel, -⟩ := mem_filter.mp hrel
      obtain ⟨hrel, htype⟩ := mem_filter.mp ((hsorted rel).mp hrel)
      split at hsome
      · rename_i hat
        refine ⟨header, data, entries, bounds, rel, hsection, hraw, hentries, hb,
          of_decide_eq_true hpointer, rfl, ?_, hrel, of_decide_eq_true htype, hat.1, hat.2,
          some.inj hsome⟩
        rw [← hat.1]
        exact of_decide_eq_true hstop
      · cases hsome
    · rintro ⟨header', data', entries', bounds, rel, hsome, hraw', hentries', hb, hpointer, rfl,
        hstop, hrel, htype, haddress, hsymbolic, rfl⟩
      cases hsection.symm.trans hsome
      cases hraw.symm.trans hraw'
      cases hentries.symm.trans hentries'
      have hfilter : bounds ∈ entries.filter (·.ciePointer ≠ 0) :=
        mem_filter.mpr ⟨hb, decide_eq_true hpointer⟩
      obtain ⟨found, hcall⟩ := exists_of_mapM_eq_ok hlookups hfilter
      have hfound := (hmem found).mpr ⟨bounds, hfilter, hcall⟩
      obtain ⟨cie, -, hcall⟩ := bind_eq_ok.mp hcall
      cases hcall
      have hnamed : rel ∈ relocationsAt (relocationsByEntry entries (sortedByKey (·.rAddress)
          (header.relocations.filter (·.rType ≠ .addend)))) bounds.start := by
        rw [hrelocations bounds hb]
        refine mem_filter.mpr ⟨mem_filter.mpr ⟨(hsorted rel).mpr
          (mem_filter.mpr ⟨hrel, decide_eq_true htype⟩), decide_eq_true ?_⟩,
          decide_eq_true ?_⟩
        · omega
        · omega
      refine ⟨_, rfl, rfl, _, List.mem_map_of_mem (mem_filter.mpr
        ⟨mem_flatten.mpr ⟨_, hfound, List.mem_map_of_mem (mem_filterMap.mpr
          ⟨rel, hnamed, if_pos ⟨haddress, hsymbolic⟩⟩)⟩, decide_eq_true rfl⟩), rfl⟩

end Srs.MachO.UnwindMetadata
