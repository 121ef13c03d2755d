/-
# Which unwind metadata comes alive

Calls for symbols mark subsections, and a call that marks a new symbol of executable code loads what
the tables have under that symbol, and nothing under the other symbols of the subsection.  So an
entry of a subsection that is marked is alive if and only if one of the calls was for a symbol under
which the entry is found (`keepsUnwind_iff`).  An alias of a function, or the address of a section
that is not zero, is enough to lose one (`not_keepsUnwind`).
-/
import Srs.MachO.UnwindMarks

namespace Srs.MachO.UnwindMetadata

open Buffers Cuts DeadStrip List

/-! ## 1. What the metadata of a symbol adds -/

variable {file sectionIndex : Nat}

theorem insert_eq_true {live : Nat → Nat → Nat → Bool} {start f i e : Nat} :
    insert live file sectionIndex start f i e = true ↔
      live f i e = true ∨ f = file ∧ i = sectionIndex ∧ e = start := by
  rw [insert]
  split
  · rename_i hsame
    exact iff_of_true rfl (.inr hsame)
  · rename_i hne
    exact ⟨.inl, fun h => h.resolve_right hne⟩

theorem isRelocation_map (relocations : List Relocation) :
    ∀ w ∈ relocations.map (Work.processRelocation file sectionIndex), IsRelocation w := by
  intro w hw
  obtain ⟨rel, -, rfl⟩ := mem_map.mp hw
  trivial

theorem loadCompactUnwindEntries_spec :
    ∀ {entries : List CompactUnwindEntryLookup} {u u' : UnwindState} {work : List Work},
    loadCompactUnwindEntries file sectionIndex u entries = (u', work) →
      (∀ w ∈ work, IsRelocation w) ∧ u'.liveEhFrameFdes = u.liveEhFrameFdes ∧
      ∀ f i e, u'.liveCompactUnwindEntries f i e = true ↔ u.liveCompactUnwindEntries f i e = true ∨
        f = file ∧ i = sectionIndex ∧ ∃ entry ∈ entries, entry.entryStart = e
  | [], u, u', work, h => by
    cases h
    exact ⟨fun w hw => absurd hw not_mem_nil, rfl, fun f i e => by simp⟩
  | entry :: rest, u, u', work, h => by
    rw [loadCompactUnwindEntries] at h
    split at h
    · rename_i halive
      obtain ⟨hwork, hfdes, hlive⟩ := loadCompactUnwindEntries_spec h
      refine ⟨hwork, hfdes, fun f i e => ?_⟩
      rw [hlive, exists_mem_cons_iff]
      constructor
      · exact fun h => h.imp_right fun ⟨hf, hi, he⟩ => ⟨hf, hi, .inr he⟩
      · rintro (hold | ⟨rfl, rfl, rfl | hrest⟩)
        · exact .inl hold
        · exact .inl halive
        · exact .inr ⟨rfl, rfl, hrest⟩
    · cases h
      obtain ⟨hwork, hfdes, hlive⟩ := loadCompactUnwindEntries_spec (Prod.mk.eta (p :=
        loadCompactUnwindEntries file sectionIndex _ rest)).symm
      refine ⟨fun w hw => ?_, hfdes, fun f i e => ?_⟩
      · rcases mem_append.mp hw with hw | hw
        · exact isRelocation_map entry.relocations w hw
        · exact hwork w hw
      · rw [hlive, insert_eq_true, exists_mem_cons_iff, or_assoc, ← and_or_left, ← and_or_left,
          @eq_comm _ e]

theorem loadEhFrameEntries_spec :
    ∀ {entries : List EhFrameEntryLookup} {u u' : UnwindState} {work : List Work},
    loadEhFrameEntries file sectionIndex u entries = (u', work) →
      (∀ w ∈ work, IsRelocation w) ∧ u'.liveCompactUnwindEntries = u.liveCompactUnwindEntries ∧
      ∀ f i e, u'.liveEhFrameFdes f i e = true ↔ u.liveEhFrameFdes f i e = true ∨
        f = file ∧ i = sectionIndex ∧ ∃ entry ∈ entries, entry.fdeStart = e
  | [], u, u', work, h => by
    cases h
    exact ⟨fun w hw => absurd hw not_mem_nil, rfl, fun f i e => by simp⟩
  | entry :: rest, u, u', work, h => by
    cases h
    obtain ⟨hwork, hcompact, hlive⟩ := loadEhFrameEntries_spec (Prod.mk.eta (p :=
      loadEhFrameEntries file sectionIndex _ rest)).symm
    refine ⟨fun w hw => ?_, hcompact, fun f i e => ?_⟩
    · have hown : ∀ (alive : Bool) (relocations : List Relocation), ∀ w ∈ (if alive = true then []
          else relocations.map (Work.processRelocation file sectionIndex)), IsRelocation w := by
        intro alive relocations w hw
        split at hw
        · cases hw
        · exact isRelocation_map relocations w hw
      rcases mem_append.mp hw with hw | hw
      · rcases mem_append.mp hw with hw | hw
        · exact hown _ _ w hw
        · exact hown _ _ w hw
      · exact hwork w hw
    · rw [hlive, insert_eq_true, exists_mem_cons_iff, or_assoc, ← and_or_left, ← and_or_left,
        @eq_comm _ e]

section

variable {link : Link} {rawSectionData : Nat → Nat → Option Bytes} {u u' : UnwindState}

variable {symbolId : SymbolId} {work : Work} {s : State}

variable {unwind : List Work} {object : Object}

/-- **The metadata of a symbol**: what is found under it comes alive, and nothing else. -/
theorem loadMachoUnwindMetadataForSymbol_spec (h : loadMachoUnwindMetadataForSymbol link rawSectionData u object symbolId
      = .ok (u', unwind)) :
    (∀ w ∈ unwind, IsRelocation w) ∧
    (∀ f i e, u'.liveCompactUnwindEntries f i e = true ↔ u.liveCompactUnwindEntries f i e = true ∨
      link.stripsAtoms object = true ∧ f = symbolId.file ∧
        FindsCompact object (rawSectionData f) i symbolId.index e) ∧
    ∀ f i e, u'.liveEhFrameFdes f i e = true ↔ u.liveEhFrameFdes f i e = true ∨
      link.stripsAtoms object = true ∧ f = symbolId.file ∧
        FindsFde object (rawSectionData f) i symbolId.index e := by
  rw [loadMachoUnwindMetadataForSymbol] at h
  split at h
  · rename_i hstrips
    obtain ⟨⟨t, compact⟩, hcompact, h⟩ := bind_eq_ok.mp h
    obtain ⟨⟨t', frames⟩, hframes, h⟩ := bind_eq_ok.mp h
    obtain ⟨rfl, rfl⟩ := Prod.mk.inj (Except.ok.inj h)
    obtain ⟨table, htable, hcompact⟩ := bind_eq_ok.mp hcompact
    obtain ⟨frameTable, hframeTable, hframes⟩ := bind_eq_ok.mp hframes
    -- what either half does, whether there is such a section or not
    have hfirst : (∀ w ∈ compact, IsRelocation w) ∧ t.liveEhFrameFdes = u.liveEhFrameFdes ∧
        ∀ f i e, t.liveCompactUnwindEntries f i e = true ↔
          u.liveCompactUnwindEntries f i e = true ∨ f = symbolId.file ∧
            FindsCompact object (rawSectionData f) i symbolId.index e := by
      have hfinds := @mem_compact_lookup object _ _ htable
      cases table with
      | none =>
        obtain ⟨rfl, rfl⟩ := Prod.mk.inj (Except.ok.inj hcompact)
        refine ⟨fun w hw => absurd hw not_mem_nil, rfl, fun f i e => (or_iff_left ?_).symm⟩
        rintro ⟨rfl, hfound⟩
        obtain ⟨_, hnone, -⟩ := hfinds.mpr hfound
        cases hnone
      | some table =>
        obtain ⟨hwork, hfdes, hlive⟩ := loadCompactUnwindEntries_spec (Except.ok.inj hcompact)
        refine ⟨hwork, hfdes, fun f i e =>
          (hlive f i e).trans (or_congr_right (and_congr_right ?_))⟩
        rintro rfl
        simp only [← hfinds, Option.some.injEq, exists_eq_left', eq_comm]
    have hsecond : (∀ w ∈ frames, IsRelocation w) ∧
        t'.liveCompactUnwindEntries = t.liveCompactUnwindEntries ∧
        ∀ f i e, t'.liveEhFrameFdes f i e = true ↔
          t.liveEhFrameFdes f i e = true ∨ f = symbolId.file ∧
            FindsFde object (rawSectionData f) i symbolId.index e := by
      have hfinds := @mem_eh_frame_lookup object _ _ hframeTable
      cases frameTable with
      | none =>
        obtain ⟨rfl, rfl⟩ := Prod.mk.inj (Except.ok.inj hframes)
        refine ⟨fun w hw => absurd hw not_mem_nil, rfl, fun f i e => (or_iff_left ?_).symm⟩
        rintro ⟨rfl, hfound⟩
        obtain ⟨_, hnone, -⟩ := hfinds.mpr hfound
        cases hnone
      | some table =>
        obtain ⟨hwork, hcompact', hlive⟩ := loadEhFrameEntries_spec (Except.ok.inj hframes)
        refine ⟨hwork, hcompact', fun f i e =>
          (hlive f i e).trans (or_congr_right (and_congr_right ?_))⟩
        rintro rfl
        simp only [← hfinds, Option.some.injEq, exists_eq_left', eq_comm]
    obtain ⟨hwork, hfdes, hcompactLive⟩ := hfirst
    obtain ⟨hwork', hsame, hfdesLive⟩ := hsecond
    refine ⟨fun w hw => (mem_append.mp hw).elim (hwork w) (hwork' w), fun f i e => ?_,
      fun f i e => ?_⟩
    · rw [hsame, hcompactLive, hstrips]
      simp only [true_and]
    · rw [hfdesLive, hfdes, hstrips]
      simp only [true_and]
  · rename_i hstrips
    cases h
    exact ⟨fun w hw => absurd hw not_mem_nil, fun f i e => by simp [hstrips],
      fun f i e => by simp [hstrips]⟩

/-! ## 2. Every run -/

theorem exec_cases (h : exec link rawSectionData u work = some u') :
    ∃ loaded unwind base, DeadStrip.exec link u.base unwind work = some base ∧
      u' = { loaded with base := base } ∧
      (unwindSymbol? link u.base work = none ∧ loaded = u ∧ unwind = [] ∨
        ∃ symbolId object, unwindSymbol? link u.base work = some symbolId ∧
          link.objects[symbolId.file]? = some object ∧
          loadMachoUnwindMetadataForSymbol link rawSectionData u object symbolId
            = .ok (loaded, unwind)) := by
  obtain ⟨⟨loaded, unwind⟩, hloaded, h⟩ := Option.bind_eq_some_iff.mp h
  obtain ⟨base, hbase, h⟩ := Option.bind_eq_some_iff.mp h
  cases h
  refine ⟨loaded, unwind, base, hbase, rfl, ?_⟩
  rw [loadUnwind] at hloaded
  cases hsymbol : unwindSymbol? link u.base work with
  | none =>
    rw [hsymbol] at hloaded
    cases hloaded
    exact .inl ⟨rfl, rfl, rfl⟩
  | some symbolId =>
    rw [hsymbol] at hloaded
    obtain ⟨object, hobject, hloaded⟩ := Option.bind_eq_some_iff.mp hloaded
    refine .inr ⟨symbolId, object, rfl, hobject, ?_⟩
    cases hcall : loadMachoUnwindMetadataForSymbol link rawSectionData u object symbolId with
    | error failure =>
      rw [hcall] at hloaded
      cases hloaded
    | ok pair =>
      rw [hcall] at hloaded
      exact congrArg Except.ok (Option.some.inj hloaded)

theorem exec_isRelocation {loaded : UnwindState}
    (h : unwindSymbol? link u.base work = none ∧ loaded = u ∧ unwind = [] ∨
      ∃ symbolId object, unwindSymbol? link u.base work = some symbolId ∧
        link.objects[symbolId.file]? = some object ∧
        loadMachoUnwindMetadataForSymbol link rawSectionData u object symbolId
          = .ok (loaded, unwind)) : ∀ w ∈ unwind, IsRelocation w := by
  rcases h with ⟨-, -, rfl⟩ | ⟨symbolId, object, -, -, hload⟩
  · exact fun w hw => absurd hw not_mem_nil
  · exact (loadMachoUnwindMetadataForSymbol_spec hload).1

/-- **A run with the live sets is one of the traversal.** -/
theorem Step.base (h : Step link rawSectionData u u') : DeadStrip.Step link u.base u'.base := by
  cases h with
  | work hpending hexec =>
    obtain ⟨loaded, unwind, base, hbase, rfl, hload⟩ := exec_cases hexec
    exact DeadStrip.Step.work hpending (exec_isRelocation hload) hbase
  | requestSymbol symbolId => exact DeadStrip.Step.requestSymbol symbolId
  | requestSection file sectionIndex => exact DeadStrip.Step.requestSection file sectionIndex

theorem Reachable.base (h : Reachable link rawSectionData u) : DeadStrip.Reachable link u.base := by
  induction h with
  | initial => exact DeadStrip.Reachable.initial
  | step _ hstep ih => exact ih.step hstep.base

/-- One of the calls that were made was for the symbol. -/
def Called (link : Link) (s : State) (symbolId : SymbolId) : Prop :=
  ∃ work ∈ s.done, CallsFor link symbolId work

/-- A visited symbol of executable code, of the file, has what `finds` says. -/
def FoundByVisited (link : Link) (s : State) (finds : Object → Nat → Prop) (file : Nat) : Prop :=
  ∃ symbolId object header sectionIndex index,
    LiesIn link symbolId object header sectionIndex index ∧ s.visited symbolId = true ∧
    header.isExecutable = true ∧ link.stripsAtoms object = true ∧ file = symbolId.file ∧
    finds object symbolId.index

/-- What the marks and the live sets say about the calls. -/
structure Agrees (link : Link) (rawSectionData : Nat → Nat → Option Bytes) (u : UnwindState) :
    Prop where
  live : ∀ file sectionIndex index, u.base.live file sectionIndex index = true ↔
    ∃ symbolId object header, LiesIn link symbolId object header sectionIndex index ∧
      u.base.visited symbolId = true ∧ file = symbolId.file
  visited : ∀ symbolId, u.base.visited symbolId = true ↔ Called link u.base symbolId ∧
    ∃ object header sectionIndex index, LiesIn link symbolId object header sectionIndex index
  compact : ∀ file sectionIndex start, u.liveCompactUnwindEntries file sectionIndex start = true ↔
    FoundByVisited link u.base (fun object symbol =>
      FindsCompact object (rawSectionData file) sectionIndex symbol start) file
  fdes : ∀ file sectionIndex start, u.liveEhFrameFdes file sectionIndex start = true ↔
    FoundByVisited link u.base (fun object symbol =>
      FindsFde object (rawSectionData file) sectionIndex symbol start) file

theorem agrees_initial : Agrees link rawSectionData initial where
  live file i b := by
    refine iff_of_false Bool.false_ne_true ?_
    rintro ⟨symbolId, object, header, -, hvisited, -⟩
    exact Bool.false_ne_true hvisited
  visited symbolId := by
    refine iff_of_false Bool.false_ne_true ?_
    rintro ⟨⟨work, hwork, -⟩, -⟩
    cases hwork
  compact file i start := by
    refine iff_of_false Bool.false_ne_true ?_
    rintro ⟨symbolId, object, header, j, b, -, hvisited, -⟩
    exact Bool.false_ne_true hvisited
  fdes file i start := by
    refine iff_of_false Bool.false_ne_true ?_
    rintro ⟨symbolId, object, header, j, b, -, hvisited, -⟩
    exact Bool.false_ne_true hvisited

/-- A state with the same marks, calls and live sets. -/
theorem Agrees.congr (h : Agrees link rawSectionData u) (hlive : u'.base.live = u.base.live)
    (hvisited : u'.base.visited = u.base.visited)
    (hcalled : ∀ symbolId, Called link u.base symbolId → Called link u'.base symbolId)
    (hback : ∀ symbolId object header i b, LiesIn link symbolId object header i b →
      Called link u'.base symbolId → Called link u.base symbolId ∨ u.base.visited symbolId = true)
    (hcompact : u'.liveCompactUnwindEntries = u.liveCompactUnwindEntries)
    (hfdes : u'.liveEhFrameFdes = u.liveEhFrameFdes) : Agrees link rawSectionData u' where
  live file i b := by
    rw [hlive, hvisited]
    exact h.live file i b
  visited symbolId := by
    rw [hvisited]
    constructor
    · intro hv
      obtain ⟨hcall, hlies⟩ := (h.visited symbolId).mp hv
      exact ⟨hcalled symbolId hcall, hlies⟩
    · rintro ⟨hcall, object, header, i, b, hlies⟩
      rcases hback symbolId object header i b hlies hcall with hold | hv
      · exact (h.visited symbolId).mpr ⟨hold, object, header, i, b, hlies⟩
      · exact hv
  compact file i start := by
    rw [hcompact, FoundByVisited, hvisited]
    exact h.compact file i start
  fdes file i start := by
    rw [hfdes, FoundByVisited, hvisited]
    exact h.fdes file i start

theorem visited_setVisited {a b : SymbolId} :
    (s.setVisited a).visited b = true ↔ b = a ∨ s.visited b = true := by
  dsimp only [State.setVisited]
  split
  · rename_i heq
    exact iff_of_true rfl (.inl heq)
  · rename_i hne
    exact ⟨.inr, fun h => h.resolve_left hne⟩

theorem live_setLive {file sectionIndex index f i b : Nat} :
    (s.setLive file sectionIndex index).live f i b = true ↔
      (f = file ∧ i = sectionIndex ∧ b = index) ∨ s.live f i b = true := by
  dsimp only [State.setLive]
  split
  · rename_i heq
    exact iff_of_true rfl (.inl heq)
  · rename_i hne
    exact ⟨.inr, fun h => h.resolve_left hne⟩

variable {header : SectionHeader} {s' : State}

/-- What a new symbol adds to what is found. -/
theorem foundByVisited_iff {sectionIndex index : Nat}
    (hlies : LiesIn link symbolId object header sectionIndex index)
    (hvisited : s'.visited = (s.setVisited symbolId).visited) (finds : Object → Nat → Prop)
    (file : Nat) : FoundByVisited link s' finds file ↔ FoundByVisited link s finds file ∨
      header.isExecutable = true ∧ link.stripsAtoms object = true ∧ file = symbolId.file ∧
        finds object symbolId.index := by
  constructor
  · rintro ⟨id, object', header', i, b, hlies', hv, hrest⟩
    rw [hvisited, visited_setVisited] at hv
    rcases hv with rfl | hv
    · obtain ⟨rfl, rfl, rfl, rfl⟩ := hlies.unique hlies'
      exact .inr hrest
    · exact .inl ⟨id, object', header', i, b, hlies', hv, hrest⟩
  · rintro (⟨id, object', header', i, b, hlies', hv, hrest⟩ | hrest)
    · refine ⟨id, object', header', i, b, hlies', ?_, hrest⟩
      rw [hvisited, visited_setVisited]
      exact .inr hv
    · refine ⟨symbolId, object, header, sectionIndex, index, hlies, ?_, hrest⟩
      rw [hvisited, visited_setVisited]
      exact .inl rfl

/-- The calls after a piece of work. -/
theorem called_iff (hdone : s'.done = work :: s.done) :
    Called link s' symbolId ↔ CallsFor link symbolId work ∨ Called link s symbolId := by
  rw [Called, hdone, exists_mem_cons_iff]
  rfl

theorem Agrees.exec (h : Agrees link rawSectionData u) (hreachable : DeadStrip.Reachable link u.base)
    {front back : List Work} (hpending : u.base.pending = front ++ work :: back)
    (hexec : exec link rawSectionData (u.take front back work) work = some u') :
    Agrees link rawSectionData u' := by
  obtain ⟨loaded, unwind, base, hbase, rfl, hload⟩ := exec_cases hexec
  have hinv := hreachable.invariant
  have hknows : ∀ w, (u.take front back work).base.Knows w ↔ u.base.Knows w := by
    intro w
    simp only [State.Knows, UnwindState.take, hpending, mem_append, mem_cons]
    tauto
  have htracked : Tracked link (u.take front back work).base :=
    hinv.tracked.congr rfl rfl rfl rfl hknows
  have hdone : base.done = work :: u.base.done :=
    (exec_does htracked (exec_isRelocation hload) (.inr mem_cons_self) hbase).done
  have hmarks := exec_marks (fun symbolId i heq => hinv.tracked.targets symbolId i (.inl (by
    rw [hpending, heq]
    exact mem_append_right _ mem_cons_self))) hbase
  cases hmarks with
  | nothing hlive hvisited hunwind hcalls =>
    rcases hload with ⟨-, rfl, -⟩ | ⟨symbolId, object, hsome, -⟩
    · refine h.congr hlive hvisited (fun symbolId hc => (called_iff hdone).mpr (.inr hc))
        (fun symbolId object header i b hlies hc => ?_) rfl rfl
      rcases (called_iff hdone).mp hc with hnew | hold
      · exact .inr ((hcalls symbolId hnew).resolve_right
          fun hnot => hnot object header i b hlies)
      · exact .inl hold
    · rw [hunwind] at hsome
      cases hsome
  | symbol symbolId object header sectionIndex index hlies hnew hcalls hlive hvisited hunwind =>
    have hvisited' : base.visited = (u.base.setVisited symbolId).visited := hvisited
    have hv : ∀ id, base.visited id = true ↔ id = symbolId ∨ u.base.visited id = true := by
      intro id
      rw [hvisited]
      exact visited_setVisited
    -- what comes alive is what is found under the symbol, if the code is executable
    have hsets : (∀ f i e, loaded.liveCompactUnwindEntries f i e = true ↔
          u.liveCompactUnwindEntries f i e = true ∨ header.isExecutable = true ∧
            link.stripsAtoms object = true ∧ f = symbolId.file ∧
            FindsCompact object (rawSectionData f) i symbolId.index e) ∧
        ∀ f i e, loaded.liveEhFrameFdes f i e = true ↔ u.liveEhFrameFdes f i e = true ∨
          header.isExecutable = true ∧ link.stripsAtoms object = true ∧ f = symbolId.file ∧
            FindsFde object (rawSectionData f) i symbolId.index e := by
      rcases hload with ⟨hnone, rfl, -⟩ | ⟨id, object', hsome, hobject, hcall⟩
      · have hnot : ¬ header.isExecutable = true := by
          intro hexecutable
          rw [hunwind, if_pos hexecutable] at hnone
          cases hnone
        exact ⟨fun f i e => ⟨.inl, fun h => h.resolve_right fun h => hnot h.1⟩,
          fun f i e => ⟨.inl, fun h => h.resolve_right fun h => hnot h.1⟩⟩
      · rw [hunwind] at hsome
        split at hsome
        · rename_i hexecutable
          cases hsome
          cases hlies.hasObject.symm.trans hobject
          obtain ⟨-, hcompact, hfdes⟩ := loadMachoUnwindMetadataForSymbol_spec hcall
          refine ⟨fun f i e => (hcompact f i e).trans (or_congr_right ?_),
            fun f i e => (hfdes f i e).trans (or_congr_right ?_)⟩
          · exact ⟨fun h => ⟨hexecutable, h⟩, fun h => h.2⟩
          · exact ⟨fun h => ⟨hexecutable, h⟩, fun h => h.2⟩
        · cases hsome
    refine ⟨fun file i b => ?_, fun id => ?_, fun file i start => ?_, fun file i start => ?_⟩
    · dsimp only
      rw [hlive, live_setLive]
      constructor
      · rintro (⟨rfl, rfl, rfl⟩ | hold)
        · exact ⟨symbolId, object, header, hlies, (hv symbolId).mpr (.inl rfl), rfl⟩
        · obtain ⟨id, object', header', hlies', hold, hfile⟩ := (h.live file i b).mp hold
          exact ⟨id, object', header', hlies', (hv id).mpr (.inr hold), hfile⟩
      · rintro ⟨id, object', header', hlies', hvisited', rfl⟩
        rcases (hv id).mp hvisited' with rfl | hold
        · obtain ⟨-, -, rfl, rfl⟩ := hlies.unique hlies'
          exact .inl ⟨rfl, rfl, rfl⟩
        · exact .inr ((h.live id.file i b).mpr ⟨id, object', header', hlies', hold, rfl⟩)
    · dsimp only
      rw [hv, called_iff hdone, h.visited]
      constructor
      · rintro (rfl | ⟨hcalled, hlies'⟩)
        · exact ⟨.inl hcalls, object, header, sectionIndex, index, hlies⟩
        · exact ⟨.inr hcalled, hlies'⟩
      · rintro ⟨hcall | hcalled, hlies'⟩
        · exact .inl (hcalls.unique hcall)
        · exact .inr ⟨hcalled, hlies'⟩
    · exact ((hsets.1 file i start).trans (or_congr_left (h.compact file i start))).trans
        (foundByVisited_iff hlies hvisited' _ file).symm
    · exact ((hsets.2 file i start).trans (or_congr_left (h.fdes file i start))).trans
        (foundByVisited_iff hlies hvisited' _ file).symm

/-- **In every run**, the marks and the live sets agree with the calls. -/
theorem Reachable.agrees (h : Reachable link rawSectionData u) : Agrees link rawSectionData u := by
  induction h with
  | initial => exact agrees_initial
  | step hreachable hstep ih =>
    cases hstep with
    | work hpending hexec => exact ih.exec hreachable.base hpending hexec
    | requestSymbol symbolId =>
      exact ih.congr rfl rfl (fun _ hc => hc) (fun _ _ _ _ _ _ hc => .inl hc) rfl rfl
    | requestSection file sectionIndex =>
      exact ih.congr rfl rfl (fun _ hc => hc) (fun _ _ _ _ _ _ hc => .inl hc) rfl rfl

/-! ## 3. The entries of live functions -/

/-- Where the function of an entry of `__compact_unwind` starts, by section and offset: what is
stored is added to the symbol, or is the address. -/
def compactFunctionStart (object : Object) (data : Bytes) (rel : Relocation) :
    Option (Nat × Nat) := do
  let stored ← readLe 8 data rel.rAddress
  if rel.rExtern then
    let symbol ← object.symbols[rel.rSymbolnum]?
    let sectionIndex ← symbol.sectionIndex
    let header ← object.sections[sectionIndex]?
    let offset ← Object.symbolOffsetInSection symbol header
    some (sectionIndex, (offset + stored) % 2 ^ 64)
  else if 0 < rel.rSymbolnum then
    let sectionIndex ← sectionOfOrdinal object rel
    let header ← object.sections[sectionIndex]?
    if header.addr ≤ stored then some (sectionIndex, stored - header.addr) else none
  else none

/-- Where the function of an FDE starts: at the symbol, or where the relocation means. -/
def fdeFunctionStart (object : Object) (rel : Relocation) : Option (Nat × Nat) :=
  if rel.rExtern then do
    let symbol ← object.symbols[rel.rSymbolnum]?
    let sectionIndex ← symbol.sectionIndex
    let header ← object.sections[sectionIndex]?
    let offset ← Object.symbolOffsetInSection symbol header
    some (sectionIndex, offset)
  else if 0 < rel.rSymbolnum then
    (sectionOfOrdinal object rel).map fun sectionIndex => (sectionIndex, rel.designated)
  else none

/-- The entry of a `__compact_unwind` is for the function that starts at an offset of a section. -/
def IsCompactFunction (object : Object) (rawSectionData : Nat → Option Bytes)
    (tableIndex start sectionIndex offset : Nat) : Prop :=
  ∃ header data rel, object.sections[tableIndex]? = some header ∧
    header.name = "__compact_unwind".toList ∧ rawSectionData tableIndex = some data ∧
    rel ∈ header.relocations ∧ rel.rType = .other ∧ rel.rAddress = start ∧
    start % MACHO_COMPACT_UNWIND_ENTRY_SIZE = 0 ∧
    compactFunctionStart object data rel = some (sectionIndex, offset)

/-- The FDE of an `__eh_frame` is for the function. -/
def IsFdeFunction (object : Object) (rawSectionData : Nat → Option Bytes)
    (tableIndex start sectionIndex offset : Nat) : Prop :=
  ∃ header data entries bounds rel, object.sections[tableIndex]? = some header ∧
    header.name = "__eh_frame".toList ∧ rawSectionData tableIndex = some data ∧
    entryBounds data 0 = .ok entries ∧ bounds ∈ entries ∧ bounds.ciePointer ≠ 0 ∧
    bounds.start = start ∧ start + 8 < bounds.stop ∧ rel ∈ header.relocations ∧
    rel.rType = .other ∧ rel.rAddress = start + 8 ∧
    fdeFunctionStart object rel = some (sectionIndex, offset)

/-- An entry of the file is for a function in a subsection of executable code. -/
structure IsEntryOf (link : Link)
    (isFunction : Object → (Nat → Option Bytes) → Nat → Nat → Nat → Nat → Prop)
    (rawSectionData : Nat → Nat → Option Bytes) (file tableIndex start : Nat) (object : Object)
    (header : SectionHeader) (sectionIndex index : Nat) : Prop where
  hasObject : link.objects[file]? = some object
  strips : link.stripsAtoms object = true
  hasHeader : object.sections[sectionIndex]? = some header
  executable : header.isExecutable = true
  function : ∃ offset, isFunction object (rawSectionData file) tableIndex start sectionIndex offset ∧
    InSubsection object header sectionIndex index offset

variable (link rawSectionData u)

/-- Every entry of a live subsection is alive. -/
def KeepsEntries (isFunction : Object → (Nat → Option Bytes) → Nat → Nat → Nat → Nat → Prop)
    (live : Nat → Nat → Nat → Bool) : Prop :=
  ∀ file tableIndex start object header sectionIndex index,
    IsEntryOf link isFunction rawSectionData file tableIndex start object header sectionIndex index →
    u.base.live file sectionIndex index = true → live file tableIndex start = true

/-- Every entry of a live subsection is alive, and what is kept of `__eh_frame` is what is alive. -/
structure KeepsUnwind : Prop where
  compact : KeepsEntries link rawSectionData u IsCompactFunction u.liveCompactUnwindEntries
  fdes : KeepsEntries link rawSectionData u IsFdeFunction u.liveEhFrameFdes
  frames : ∀ file object sectionIndex header data entries, link.objects[file]? = some object →
    link.stripsAtoms object = true →
    sectionByName object "__eh_frame".toList = some (sectionIndex, header) →
    u.base.loaded file sectionIndex = true → rawSectionData file sectionIndex = some data →
    entryBounds data 0 = .ok entries → CiesFound entries →
    KeepsExactly (compactMachoEhFrame link rawSectionData u object file) data entries
      (u.liveEhFrameFdes file sectionIndex)

/-- Where a call was for a symbol of a subsection, some call was for a symbol of executable code
under which the entry is found. -/
def CallsFind (isFunction : Object → (Nat → Option Bytes) → Nat → Nat → Nat → Nat → Prop)
    (finds : Object → (Nat → Option Bytes) → Nat → Nat → Nat → Prop) : Prop :=
  ∀ file tableIndex start object header sectionIndex index,
    IsEntryOf link isFunction rawSectionData file tableIndex start object header sectionIndex index →
    (∃ symbolId, Called link u.base symbolId ∧ file = symbolId.file ∧
      LiesIn link symbolId object header sectionIndex index) →
    ∃ symbolId header' sectionIndex' index', Called link u.base symbolId ∧ file = symbolId.file ∧
      LiesIn link symbolId object header' sectionIndex' index' ∧ header'.isExecutable = true ∧
      finds object (rawSectionData file) tableIndex symbolId.index start

/-- The calls were for symbols under which the entries are found, and the deletions fit. -/
structure FindsUnwind : Prop where
  compact : CallsFind link rawSectionData u IsCompactFunction FindsCompact
  fdes : CallsFind link rawSectionData u IsFdeFunction FindsFde
  frames : ∀ file object sectionIndex header data entries, link.objects[file]? = some object →
    link.stripsAtoms object = true →
    sectionByName object "__eh_frame".toList = some (sectionIndex, header) →
    u.base.loaded file sectionIndex = true → rawSectionData file sectionIndex = some data →
    entryBounds data 0 = .ok entries → CiesFound entries →
    DeletionsFit data entries (u.liveEhFrameFdes file sectionIndex)

variable {link rawSectionData u}

theorem keepsEntries_iff (h : Agrees link rawSectionData u)
    {isFunction : Object → (Nat → Option Bytes) → Nat → Nat → Nat → Nat → Prop}
    {finds : Object → (Nat → Option Bytes) → Nat → Nat → Nat → Prop}
    {live : Nat → Nat → Nat → Bool} (hlive : ∀ file tableIndex start,
      live file tableIndex start = true ↔ FoundByVisited link u.base (fun object symbol =>
        finds object (rawSectionData file) tableIndex symbol start) file) :
    KeepsEntries link rawSectionData u isFunction live ↔
      CallsFind link rawSectionData u isFunction finds := by
  have hsubsection : ∀ {file tableIndex start object header i b},
      IsEntryOf link isFunction rawSectionData file tableIndex start object header i b →
      (u.base.live file i b = true ↔ ∃ symbolId, Called link u.base symbolId ∧
        file = symbolId.file ∧ LiesIn link symbolId object header i b) := by
    intro file tableIndex start object header i b hentry
    rw [h.live]
    constructor
    · rintro ⟨symbolId, object', header', hlies, hvisited, rfl⟩
      cases hentry.hasObject.symm.trans hlies.hasObject
      cases hentry.hasHeader.symm.trans hlies.hasHeader
      exact ⟨symbolId, ((h.visited symbolId).mp hvisited).1, rfl, hlies⟩
    · rintro ⟨symbolId, hcalled, rfl, hlies⟩
      exact ⟨symbolId, object, header, hlies,
        (h.visited symbolId).mpr ⟨hcalled, object, header, i, b, hlies⟩, rfl⟩
  have hfound : ∀ {file tableIndex start object}, link.objects[file]? = some object →
      link.stripsAtoms object = true → (live file tableIndex start = true ↔
        ∃ symbolId header' sectionIndex' index', Called link u.base symbolId ∧
          file = symbolId.file ∧ LiesIn link symbolId object header' sectionIndex' index' ∧
          header'.isExecutable = true ∧
          finds object (rawSectionData file) tableIndex symbolId.index start) := by
    intro file tableIndex start object hobject hstrips
    rw [hlive]
    constructor
    · rintro ⟨symbolId, object', header', i, b, hlies, hvisited, hexecutable, -, rfl, hfinds⟩
      cases hobject.symm.trans hlies.hasObject
      exact ⟨symbolId, header', i, b, ((h.visited symbolId).mp hvisited).1, rfl, hlies,
        hexecutable, hfinds⟩
    · rintro ⟨symbolId, header', i, b, hcalled, rfl, hlies, hexecutable, hfinds⟩
      exact ⟨symbolId, object, header', i, b, hlies,
        (h.visited symbolId).mpr ⟨hcalled, object, header', i, b, hlies⟩, hexecutable, hstrips,
        rfl, hfinds⟩
  constructor
  · intro hkeeps file tableIndex start object header i b hentry hcalled
    exact (hfound hentry.hasObject hentry.strips).mp
      (hkeeps file tableIndex start object header i b hentry ((hsubsection hentry).mpr hcalled))
  · intro hcalls file tableIndex start object header i b hentry hlive'
    exact (hfound hentry.hasObject hentry.strips).mpr
      (hcalls file tableIndex start object header i b hentry ((hsubsection hentry).mp hlive'))

/-- **Which unwind metadata is kept.**  In every state of every run, finished or not, the entries of
live subsections are alive and `__eh_frame` is compacted to what is alive, if and only if the calls
that were made find the entries, and the deletions fit. -/
theorem keepsUnwind_iff (h : Reachable link rawSectionData u) :
    KeepsUnwind link rawSectionData u ↔ FindsUnwind link rawSectionData u := by
  have hagrees := h.agrees
  have hcompact := @keepsEntries_iff link rawSectionData u hagrees IsCompactFunction FindsCompact
    u.liveCompactUnwindEntries hagrees.compact
  have hfdes := @keepsEntries_iff link rawSectionData u hagrees IsFdeFunction FindsFde
    u.liveEhFrameFdes hagrees.fdes
  constructor
  · rintro ⟨hc, hf, hframes⟩
    refine ⟨hcompact.mp hc, hfdes.mp hf, ?_⟩
    intro file object i header data entries hobject hstrips hsection hloaded hdata hentries hcies
    exact (keepsExactly_iff hstrips hsection hloaded hdata hentries hcies).mp
      (hframes file object i header data entries hobject hstrips hsection hloaded hdata hentries
        hcies)
  · rintro ⟨hc, hf, hframes⟩
    refine ⟨hcompact.mpr hc, hfdes.mpr hf, ?_⟩
    intro file object i header data entries hobject hstrips hsection hloaded hdata hentries hcies
    exact (keepsExactly_iff hstrips hsection hloaded hdata hentries hcies).mpr
      (hframes file object i header data entries hobject hstrips hsection hloaded hdata hentries
        hcies)

/-! ## 4. Runs -/

variable (link rawSectionData)

/-- The run that does the first work that is pending. -/
def runFirst : Nat → UnwindState → Option UnwindState
  | 0, u => some u
  | n + 1, u =>
    match u.base.pending with
    | [] => some u
    | work :: rest => (exec link rawSectionData (u.take [] rest work) work).bind (runFirst n)

/-- A request for the section of the frames and one for a symbol. -/
def requested (symbolId : SymbolId) : UnwindState where
  base := ((DeadStrip.initial.push [.loadSection symbolId.file 2]).push
    [.loadSymbol symbolId]).resolve symbolId true
  liveCompactUnwindEntries := initial.liveCompactUnwindEntries
  liveEhFrameFdes := initial.liveEhFrameFdes
  liveEhFrameCies := initial.liveEhFrameCies

/-- The run that starts with them. -/
def request (symbolId : SymbolId) : Option UnwindState :=
  runFirst link rawSectionData 30 (requested symbolId)

variable {link rawSectionData}

theorem Reachable.runFirst : ∀ {n : Nat} {u u' : UnwindState}, Reachable link rawSectionData u →
    runFirst link rawSectionData n u = some u' → Reachable link rawSectionData u'
  | 0, u, u', h, hrun => by
    cases hrun
    exact h
  | n + 1, u, u', h, hrun => by
    rw [UnwindMetadata.runFirst] at hrun
    split at hrun
    · cases hrun
      exact h
    · rename_i work rest hpending
      obtain ⟨next, hexec, hrun⟩ := Option.bind_eq_some_iff.mp hrun
      exact Reachable.runFirst (h.step (@Step.work _ _ u next [] rest work hpending hexec)) hrun

theorem reached_of_any {symbolId : SymbolId} {test : UnwindState → Bool}
    (h : (request link rawSectionData symbolId).any
      (fun u => u.base.pending.isEmpty && test u) = true) :
    ∃ u, Reachable link rawSectionData u ∧ u.base.pending = [] ∧ test u = true := by
  obtain ⟨u, hu, htest⟩ := (Option.any_eq_true _ _).mp h
  rw [Bool.and_eq_true] at htest
  have hstart : Reachable link rawSectionData (requested symbolId) :=
    (Reachable.initial.step (Step.requestSection symbolId.file 2)).step
      (Step.requestSymbol symbolId)
  exact ⟨u, Reachable.runFirst hstart hu, List.isEmpty_iff.mp htest.1, htest.2⟩

/-- An entry of `__compact_unwind`, with what is stored for its function. -/
def compactData (stored : UInt8) : Bytes := stored :: replicate 31 0

/-- A CIE at 0, an FDE at 8 with its function at 16, and a terminator. -/
def frameData : Bytes :=
  [4, 0, 0, 0, 0, 0, 0, 0, 12, 0, 0, 0, 12, 0, 0, 0, 0, 0, 0, 0, 0, 0, 0, 0, 0, 0, 0, 0]

def exampleData (stored : UInt8) (_file sectionIndex : Nat) : Option Bytes :=
  if sectionIndex = 1 then some (compactData stored)
  else if sectionIndex = 2 then some frameData
  else none

/-- Code at an address, with the metadata of a function there. -/
def exampleObject (addr size : Nat) (symbols : List Symbol) (rExtern : Bool) (rSymbolnum : Nat) :
    Object where
  subsectionsViaSymbols := true
  sections := [{ soleSection "__text" size [] with addr := addr },
    { soleSection "__compact_unwind" 32 [⟨0, rSymbolnum, rExtern, .other, 0⟩] with slot := .other },
    soleSection "__eh_frame" 28 [⟨16, rSymbolnum, rExtern, .other, 0⟩]]
  symbols := symbols

/-- A function and an alias of it.  The metadata refers to the function. -/
def aliased : Object :=
  exampleObject 0 4 [soleSymbol 0 false, soleSymbol 0 false] true 0

/-- Two functions at 16 and 20.  The metadata refers to the first by its section and address. -/
def elsewhere : Object :=
  exampleObject 16 8 [soleSymbol 16 false, soleSymbol 20 false] false 1

theorem frames_of_example : entryBounds frameData 0 = .ok [⟨0, 8, 0⟩, ⟨8, 24, 12⟩] := by
  decide +kernel

/-- **What is lost.**  A function that is live by its alias loses its entries, and one in a section
that does not start at address zero, with relocations for the section, does so by its own symbol. -/
theorem not_keepsUnwind :
    (∃ u, Reachable (soleLink aliased) (exampleData 0) u ∧ u.base.pending = [] ∧
      ¬ KeepsEntries (soleLink aliased) (exampleData 0) u IsCompactFunction
        u.liveCompactUnwindEntries ∧
      ¬ KeepsEntries (soleLink aliased) (exampleData 0) u IsFdeFunction u.liveEhFrameFdes) ∧
    ∃ u, Reachable (soleLink elsewhere) (exampleData 16) u ∧ u.base.pending = [] ∧
      ¬ KeepsEntries (soleLink elsewhere) (exampleData 16) u IsCompactFunction
        u.liveCompactUnwindEntries ∧
      ¬ KeepsEntries (soleLink elsewhere) (exampleData 16) u IsFdeFunction u.liveEhFrameFdes := by
  have hlost : ∀ (object : Object) (stored : UInt8) (symbolId : SymbolId) header,
      (request (soleLink object) (exampleData stored) symbolId).any (fun u =>
        u.base.pending.isEmpty && (u.base.live 0 0 0 && !u.liveCompactUnwindEntries 0 1 0 &&
          !u.liveEhFrameFdes 0 2 8)) = true →
      IsEntryOf (soleLink object) IsCompactFunction (exampleData stored) 0 1 0 object header 0 0 →
      IsEntryOf (soleLink object) IsFdeFunction (exampleData stored) 0 2 8 object header 0 0 →
      ∃ u, Reachable (soleLink object) (exampleData stored) u ∧ u.base.pending = [] ∧
        ¬ KeepsEntries (soleLink object) (exampleData stored) u IsCompactFunction
          u.liveCompactUnwindEntries ∧
        ¬ KeepsEntries (soleLink object) (exampleData stored) u IsFdeFunction
          u.liveEhFrameFdes := by
    intro object stored symbolId header hrun hcompact hfde
    obtain ⟨u, hu, hdone, htest⟩ := reached_of_any hrun
    rw [Bool.and_eq_true, Bool.and_eq_true, Bool.not_eq_true', Bool.not_eq_true'] at htest
    obtain ⟨⟨hlive, hdead⟩, hdeadFde⟩ := htest
    refine ⟨u, hu, hdone, fun hkeeps => ?_, fun hkeeps => ?_⟩
    · rw [hkeeps 0 1 0 object header 0 0 hcompact hlive] at hdead
      cases hdead
    · rw [hkeeps 0 2 8 object header 0 0 hfde hlive] at hdeadFde
      cases hdeadFde
  constructor
  · refine hlost aliased 0 ⟨0, 1⟩ _ (by decide +kernel) ⟨rfl, rfl, rfl, rfl, 0, ?_, ?_⟩
      ⟨rfl, rfl, rfl, rfl, 0, ?_, ?_⟩
    · exact ⟨_, compactData 0, _, rfl, rfl, rfl, List.mem_singleton_self _, rfl, rfl, rfl,
        by decide +kernel⟩
    · exact ⟨⟨0, by decide +kernel, Nat.le_refl 0⟩, by decide +kernel⟩
    · exact ⟨_, frameData, _, ⟨8, 24, 12⟩, _, rfl, rfl, rfl, frames_of_example, by decide,
        by decide, rfl, by decide, List.mem_singleton_self _, rfl, rfl, by decide +kernel⟩
    · exact ⟨⟨0, by decide +kernel, Nat.le_refl 0⟩, by decide +kernel⟩
  · refine hlost elsewhere 16 ⟨0, 0⟩ _ (by decide +kernel) ⟨rfl, rfl, rfl, rfl, 0, ?_, ?_⟩
      ⟨rfl, rfl, rfl, rfl, 0, ?_, ?_⟩
    · exact ⟨_, compactData 16, _, rfl, rfl, rfl, List.mem_singleton_self _, rfl, rfl, rfl,
        by decide +kernel⟩
    · exact ⟨⟨0, by decide +kernel, Nat.le_refl 0⟩, by decide +kernel⟩
    · exact ⟨_, frameData, _, ⟨8, 24, 12⟩, _, rfl, rfl, rfl, frames_of_example, by decide,
        by decide, rfl, by decide, List.mem_singleton_self _, rfl, rfl, by decide +kernel⟩
    · exact ⟨⟨0, by decide +kernel, Nat.le_refl 0⟩, by decide +kernel⟩

/-- The sections of an example by their names. -/
theorem section_of_example {addr size tableIndex rSymbolnum : Nat} {symbols : List Symbol}
    {rExtern : Bool} {name : String}
    (h : (exampleObject addr size symbols rExtern rSymbolnum).sections[tableIndex]? = some header)
    (hname : header.name = name.toList) (hne : name ≠ "__text") :
    (tableIndex = 1 ∧ name = "__compact_unwind" ∧
      header.relocations = [⟨0, rSymbolnum, rExtern, .other, 0⟩]) ∨
    (tableIndex = 2 ∧ name = "__eh_frame" ∧
      header.relocations = [⟨16, rSymbolnum, rExtern, .other, 0⟩]) := by
  have hinj : ∀ other : String, other.toList = name.toList → name = other := fun other heq =>
    String.toList_injective heq.symm
  match tableIndex, h with
  | 0, h =>
    cases h
    exact absurd (hinj "__text" hname) hne
  | 1, h =>
    cases h
    exact .inl ⟨rfl, hinj "__compact_unwind" hname, rfl⟩
  | 2, h =>
    cases h
    exact .inr ⟨rfl, hinj "__eh_frame" hname, rfl⟩
  | n + 3, h => cases h

/-- The function is live by its own symbol, and so is its metadata. -/
theorem keepsUnwind_aliased : ∃ u, Reachable (soleLink aliased) (exampleData 0) u ∧
    u.base.pending = [] ∧ u.base.live 0 0 0 = true ∧ u.base.loaded 0 2 = true ∧
    KeepsUnwind (soleLink aliased) (exampleData 0) u := by
  obtain ⟨u, hu, hdone, htest⟩ := @reached_of_any (soleLink aliased) (exampleData 0) ⟨0, 0⟩
    (fun u => u.base.live 0 0 0 && u.base.loaded 0 2 &&
      decide (Work.loadSymbol ⟨0, 0⟩ ∈ u.base.done)) (by decide +kernel)
  rw [Bool.and_eq_true, Bool.and_eq_true] at htest
  obtain ⟨⟨hlive, hloaded⟩, hcall⟩ := htest
  have hlies : LiesIn (soleLink aliased) ⟨0, 0⟩ aliased { soleSection "__text" 4 [] with addr := 0 }
      0 0 :=
    ⟨rfl, rfl, soleSymbol 0 false, 0, rfl, rfl, by decide +kernel, by decide +kernel⟩
  have hcalled : Called (soleLink aliased) u.base ⟨0, 0⟩ :=
    ⟨_, of_decide_eq_true hcall, rfl, aliased, soleSymbol 0 false, 0, _, rfl, rfl, rfl, rfl,
      by decide +kernel⟩
  have hsole : ∀ {file : Nat} {object : Object}, (soleLink aliased).objects[file]? = some object →
      file = 0 ∧ object = aliased := by
    intro file object hobject
    match file, hobject with
    | 0, hobject => exact ⟨rfl, (Option.some.inj hobject).symm⟩
    | n + 1, hobject => cases hobject
  refine ⟨u, hu, hdone, hlive, hloaded, (keepsUnwind_iff hu).mpr ⟨?_, ?_, ?_⟩⟩
  · intro file tableIndex start object header i b hentry _
    obtain ⟨rfl, rfl⟩ := hsole hentry.hasObject
    obtain ⟨offset, ⟨table, data, rel, htable, hname, hdata, hrel, htype, hat, hstart, -⟩, -⟩ :=
      hentry.function
    rcases section_of_example htable hname (by decide) with ⟨rfl, -, hrels⟩ | ⟨-, hne, -⟩
    · rw [hrels] at hrel
      obtain rfl := mem_singleton.mp hrel
      refine ⟨⟨0, 0⟩, _, 0, 0, hcalled, rfl, hlies, rfl, table, data, _, ?_, hdata,
        hrels ▸ mem_singleton_self _, by decide, hat, hstart, .inl ⟨rfl, rfl⟩⟩
      cases htable
      rfl
    · exact absurd hne (by decide)
  · intro file tableIndex start object header i b hentry _
    obtain ⟨rfl, rfl⟩ := hsole hentry.hasObject
    obtain ⟨offset, ⟨table, data, entries, bounds, rel, htable, hname, hdata, hentries, hbounds,
      hpointer, hstart, hstop, hrel, htype, hat, -⟩, -⟩ := hentry.function
    rcases section_of_example htable hname (by decide) with ⟨-, hne, -⟩ | ⟨rfl, -, hrels⟩
    · exact absurd hne (by decide)
    · rw [hrels] at hrel
      obtain rfl := mem_singleton.mp hrel
      refine ⟨⟨0, 0⟩, _, 0, 0, hcalled, rfl, hlies, rfl, table, data, entries, bounds, _, ?_, hdata,
        hentries, hbounds, hpointer, hstart, hstop, hrels ▸ mem_singleton_self _, by decide,
        hat, rfl, rfl⟩
      cases htable
      rfl
  · intro file object i header data entries hobject _ hsection _ hdata hentries _
    obtain ⟨rfl, rfl⟩ := hsole hobject
    have hsecond : sectionByName aliased "__eh_frame".toList = some (2,
        soleSection "__eh_frame" 28 [⟨16, 0, true, .other, 0⟩]) := rfl
    cases hsecond.symm.trans hsection
    obtain rfl : frameData = data := Option.some.inj hdata
    cases frames_of_example.symm.trans hentries
    refine ⟨fun bounds hbounds _ => ?_, fun _ => by decide⟩
    simp only [mem_cons, not_mem_nil, or_false] at hbounds
    rcases hbounds with rfl | rfl
    · decide
    · decide

end

end Srs.MachO.UnwindMetadata
