/-
# Reading back the state of Mach-O archive members

Every field of a state is a text of its own codec, wrapped in hexadecimal, so the states read
back as soon as each field does: the round trips of the sections, the record block, the
resolution tables, the output patches and the unwind versions are used here field by field
(`parseMachoArchiveMemberState_fields`).  What is left is the reader's own checks.  `Accepted`
collects them, on one state and across the states, and `parseStates_render` says that they are
all there is, as long as the texts inside a state fit their codecs (`Plain`).
-/
import Srs.Incremental.MachOArchiveState

namespace Srs.Incremental

open Text Bytes List Option ParsedStates

/-! ## 1. Fields -/

@[simp] theorem decodeField_hexField (t : Text) (invalid invalidUtf8 : String) :
    decodeField (hexField t) invalid invalidUtf8 = .ok t := by
  simp [decodeField, hexField]

variable {c : Char} {members : List MachOArchiveMemberIdentity} {inputFile : Text}

theorem not_mem_hexField (h : ¬ IsHex c) (t : Text) : c ∉ hexField t :=
  not_mem_hexEncode h _

/-- A digest contains no separator. -/
theorem not_mem_of_isBlake3HexDigest {digest : Text}
    (h : isBlake3HexDigest digest = true) (hc : ¬ IsHex c) : c ∉ digest := by
  intro hmem
  rw [isBlake3HexDigest, decide_eq_true_iff] at h
  exact hc (h.2 c hmem)

/-! ## 2. Output patches -/

theorem parseStoredOutputPatch_render {patch : StoredOutputPatch} (h : patch.data ≠ []) :
    parseStoredOutputPatch (renderStoredOutputPatch patch) = .ok patch := by
  rw [parseStoredOutputPatch, renderStoredOutputPatch,
    splitOnce_join (Decimal.colon_not_mem patch.outputOffset)]
  simp [h]

/-- A loop that reads back what a list was written as. -/
theorem mapM_map_ok {α : Type} {read : Text → Result α} {render : α → Text} :
    ∀ {l : List α}, (∀ a ∈ l, read (render a) = .ok a) → (l.map render).mapM read = .ok l := by
  intro l
  induction l with
  | nil =>
    intro _
    rfl
  | cons a rest ih =>
    intro h
    simp [h a (by simp), ih fun x hx => h x (mem_cons_of_mem _ hx)]

theorem parseStoredOutputPatches_render {patches : List StoredOutputPatch}
    (h : ∀ patch ∈ patches, patch.data ≠ []) :
    parseStoredOutputPatches (renderStoredOutputPatches patches) = .ok patches := by
  cases hp : patches with
  | nil => rfl
  | cons first rest =>
    rw [← hp]
    have hne : renderStoredOutputPatches patches ≠ [] := by
      refine join_ne_nil (by simp [hp]) ?_
      intro p hmem
      obtain ⟨patch, -, rfl⟩ := mem_map.mp hmem
      simp [renderStoredOutputPatch, join_cons_cons]
    have hcomma : ∀ p ∈ patches.map renderStoredOutputPatch, ',' ∉ p := by
      intro p hmem
      obtain ⟨patch, -, rfl⟩ := mem_map.mp hmem
      refine not_mem_join (by decide) ?_
      intro t ht
      simp only [mem_cons, not_mem_nil, or_false] at ht
      rcases ht with rfl | rfl
      · exact Decimal.comma_not_mem _
      · exact not_mem_hexEncode (by decide) _
    rw [parseStoredOutputPatches, if_neg hne, renderStoredOutputPatches,
      split_join (by simp [hp]) hcomma]
    exact mapM_map_ok fun patch hpatch => parseStoredOutputPatch_render (h patch hpatch)

/-! ## 3. Members -/

/-- What the reader asks of a member. -/
def MemberValid (member : MachOArchiveMemberIdentity) : Prop :=
  member.normalizedIdentifier ≠ [] ∧ isBlake3HexDigest member.objectHash = true

instance (member : MachOArchiveMemberIdentity) : Decidable (MemberValid member) :=
  inferInstanceAs (Decidable (_ ∧ _))

variable {member : MachOArchiveMemberIdentity}

theorem not_mem_renderMemberIdentity
    (h : MemberValid member) (hc : ¬ IsHex c) (heq : c ≠ '=') :
    c ∉ renderMemberIdentity member := by
  refine not_mem_join heq ?_
  intro p hp
  simp only [mem_cons, not_mem_nil, or_false] at hp
  rcases hp with rfl | rfl
  · exact not_mem_hexEncode hc _
  · exact not_mem_of_isBlake3HexDigest h.2 hc

theorem splitOnce_renderMemberIdentity (member : MachOArchiveMemberIdentity) :
    splitOnce '=' (renderMemberIdentity member)
      = some (hexEncode member.normalizedIdentifier, member.objectHash) := by
  rw [renderMemberIdentity, splitOnce_join (not_mem_hexEncode (by decide) _), join_singleton]

theorem parseUnwindMember_render (h : MemberValid member) :
    parseUnwindMember (renderMemberIdentity member) = .ok member := by
  simp [parseUnwindMember, splitOnce_renderMemberIdentity, h.1, h.2]

/-- The identifiers of a list of members. -/
def identifiersOf (members : List MachOArchiveMemberIdentity) : List Bytes :=
  members.map (·.normalizedIdentifier)

/-- Members with new and distinct identifiers read back, and take them. -/
theorem parseMemberIdentities_render :
    ∀ {members : List MachOArchiveMemberIdentity} (taken : List Bytes),
      (∀ member ∈ members, MemberValid member) → (identifiersOf members).Nodup →
        (∀ identifier ∈ identifiersOf members, identifier ∉ taken) →
          parseMemberIdentities (members.map renderMemberIdentity) taken
            = .ok (members, (identifiersOf members).reverse ++ taken) := by
  intro members
  induction members with
  | nil =>
    intro taken _ _ _
    rfl
  | cons member rest ih =>
    intro taken hvalid hnodup hfree
    have hmember : MemberValid member := hvalid member (by simp)
    have hnew : member.normalizedIdentifier ∉ taken := hfree _ (by simp [identifiersOf])
    rw [identifiersOf, map_cons, nodup_cons] at hnodup
    have hrest := ih (member.normalizedIdentifier :: taken)
      (fun m hm => hvalid m (mem_cons_of_mem _ hm)) hnodup.2 ?_
    · rw [map_cons, parseMemberIdentities, splitOnce_renderMemberIdentity]
      simp [hmember.1, hmember.2, hnew, hrest, identifiersOf]
    · intro identifier hidentifier hmem
      rcases mem_cons.mp hmem with rfl | hmem
      · exact hnodup.1 hidentifier
      · exact hfree identifier (by simp [identifiersOf] at hidentifier ⊢; exact .inr hidentifier)
          hmem

theorem split_renderMembers (hne : members ≠ []) (h : ∀ member ∈ members, MemberValid member) :
    split ',' (join ',' (members.map renderMemberIdentity))
      = members.map renderMemberIdentity := by
  refine split_join (by simpa using hne) ?_
  intro p hp
  obtain ⟨member, hmember, rfl⟩ := mem_map.mp hp
  exact not_mem_renderMemberIdentity (h member hmember) (by decide) (by decide)

/-- The kind in front of the members is cut off at the first bar. -/
theorem parseKind_renderMembers (kind : MachOArchiveActivationKind)
    (members : List MachOArchiveMemberIdentity) :
    parseKind (renderMembers kind members)
      = .ok (kind, join ',' (members.map renderMemberIdentity)) := by
  have hbar : '|' ∉ renderKind kind := by cases kind <;> decide
  rw [parseKind, renderMembers, splitOnce_join hbar, join_singleton]
  cases kind with
  | addedMembers => rfl
  | changedDefinitions => rfl
  | changedDefinitionsWithUnwind => rfl

/-! ## 4. Unwind versions -/

/-- What the reader asks of one unwind version. -/
structure UnwindVersionValid (version : MachOArchiveUnwindVersionState) : Prop where
  members : ∀ member ∈ version.commonMembers, MemberValid member
  sorted : MembersSorted version.commonMembers
  reserve : ReserveAligned version.ehFrameReserve

theorem parseUnwindMembers_render (h : ∀ member ∈ members, MemberValid member) :
    parseUnwindMembers (join ',' (members.map renderMemberIdentity)) = .ok members := by
  cases hm : members with
  | nil => rfl
  | cons first rest =>
    rw [← hm]
    have hne : join ',' (members.map renderMemberIdentity) ≠ [] := by
      refine join_ne_nil (by simp [hm]) ?_
      intro p hp
      obtain ⟨member, -, rfl⟩ := mem_map.mp hp
      simp [renderMemberIdentity, join_cons_cons]
    rw [parseUnwindMembers, if_neg hne, split_renderMembers (by simp [hm]) h]
    exact mapM_map_ok fun member hmember => parseUnwindMember_render (h member hmember)

/-- An unsigned number is printed without a sign. -/
theorem dash_not_mem_render (n : UInt64) : '-' ∉ (Decimal.render n : Text) := by
  intro h
  have : ('-').isDigit = true := isDigit_of_mem_digits h
  exact absurd this (by decide)

variable {version : MachOArchiveUnwindVersionState}

theorem parseMachoArchiveUnwindVersionState_render
    (h : UnwindVersionValid version) :
    parseMachoArchiveUnwindVersionState (renderMachoArchiveUnwindVersionState version)
      = .ok version := by
  have hbar : '|' ∉ join ',' (version.commonMembers.map renderMemberIdentity) := by
    refine not_mem_join (by decide) ?_
    intro p hp
    obtain ⟨member, hmember, rfl⟩ := mem_map.mp hp
    exact not_mem_renderMemberIdentity (h.members member hmember) (by decide) (by decide)
  rw [parseMachoArchiveUnwindVersionState, renderMachoArchiveUnwindVersionState,
    splitOnce_join hbar]
  simp only [join_singleton, context_some, ok_bind, parseUnwindMembers_render h.members]
  rw [failIf_neg _ (not_not.mpr h.sorted), ok_bind, splitOnce_join (dash_not_mem_render _)]
  simp only [join_singleton, context_some, ok_bind, parseNumber_render]
  rw [failIf_neg _ (not_not.mpr h.reserve)]
  rfl

theorem semicolon_not_mem_unwindVersion
    (h : UnwindVersionValid version) :
    ';' ∉ renderMachoArchiveUnwindVersionState version := by
  refine not_mem_join (by decide) ?_
  intro p hp
  simp only [mem_cons, not_mem_nil, or_false] at hp
  rcases hp with rfl | rfl
  · refine not_mem_join (by decide) ?_
    intro p hp
    obtain ⟨member, hmember, rfl⟩ := mem_map.mp hp
    exact not_mem_renderMemberIdentity (h.members member hmember) (by decide) (by decide)
  · refine not_mem_join (by decide) ?_
    intro p hp
    simp only [mem_cons, not_mem_nil, or_false] at hp
    rcases hp with rfl | rfl
    · exact Decimal.not_mem_render (by decide) (by decide) _
    · exact Decimal.not_mem_render (by decide) (by decide) _

/-- **An unwind transaction reads back, present or absent.** -/
theorem parseMachoArchiveUnwindTransactionState_render
    {transaction : Option MachOArchiveUnwindTransactionState}
    (h : ∀ t ∈ transaction, UnwindVersionValid t.forward ∧ UnwindVersionValid t.rollback) :
    parseMachoArchiveUnwindTransactionState
        ((transaction.map renderMachoArchiveUnwindTransactionState).getD [])
      = .ok transaction := by
  cases transaction with
  | none => rfl
  | some t =>
    obtain ⟨hforward, hrollback⟩ := h t rfl
    have hne : renderMachoArchiveUnwindTransactionState t ≠ [] := by
      simp [renderMachoArchiveUnwindTransactionState, join_cons_cons]
    rw [map_some, getD_some, parseMachoArchiveUnwindTransactionState, if_neg hne,
      renderMachoArchiveUnwindTransactionState,
      splitOnce_join (semicolon_not_mem_unwindVersion hforward)]
    simp [parseMachoArchiveUnwindVersionState_render hforward,
      parseMachoArchiveUnwindVersionState_render hrollback]

/-! ## 5. One state -/

/-- The texts inside a state fit the codecs of their fields. -/
structure MachOArchiveActivationState.Plain (state : MachOArchiveActivationState) : Prop where
  sections : ∀ s ∈ state.sections,
    (∀ hash ∈ s.dataHash, FieldText hash ∧ hash ≠ absentField)
      ∧ ∀ hash ∈ s.cstringNulBoundariesHash, FieldText hash ∧ hash ≠ absentField
  relocations : ∀ r ∈ state.relocations, r.Plain ∧ ∀ key ∈ r.keys, EndsPlain key.2
  resolutions : ∀ r ∈ state.symbolResolutions ++ state.rollbackSymbolResolutions
      ++ state.indirectDependencies,
    r.Plain ∧ ∀ target ∈ r.target, EndsPlain target.input

/-- The checks of the reader that concern one state. -/
structure MachOArchiveActivationState.Accepted (inputFile : Text)
    (state : MachOArchiveActivationState) : Prop where
  members_ne_nil : state.members ≠ []
  members : ∀ member ∈ state.members, MemberValid member
  members_nodup : (identifiersOf state.members).Nodup
  sections : ¬ SectionsInvalid inputFile state.kind state.members state.sections
  dormant : ¬ HasDormantRecords state.kind state.active state.sections state.relocations
    state.symbolResolutions
  unwind : ∀ t ∈ state.unwindTransaction,
    UnwindVersionValid t.forward ∧ UnwindVersionValid t.rollback ∧ ¬ UnwindVersionsDiffer t
  indirect : ¬ IndirectDependenciesInvalid state.symbolResolutions
    state.rollbackSymbolResolutions state.indirectDependencies
  changed : ¬ ChangedDefinitionInvalid state.kind state.members state.relocations
    state.symbolResolutions state.rollbackSymbolResolutions state.indirectDependencies
  patches : ∀ patch ∈ state.forwardPatches ++ state.rollbackPatches, patch.data ≠ []
  complete : ¬ TransactionIncomplete state.forwardPatches state.rollbackPatches

/-- Whatever is decoded from hexadecimal has no separator in it. -/
theorem not_mem_of_hexDecode (hc : hexValue c = none) :
    ∀ {t : Text} {bytes : Bytes}, hexDecode t = some bytes → c ∉ t
  | [], _, _ => by simp
  | [_], _, h => by simp [hexDecode] at h
  | high :: low :: rest, bytes, h => by
    simp only [hexDecode, bind_eq_bind, bind_eq_some_iff] at h
    obtain ⟨a, ha, b, hb, more, hmore, -⟩ := h
    have hrest := not_mem_of_hexDecode hc hmore
    intro hmem
    rcases mem_cons.mp hmem with rfl | hmem
    · rw [hc] at ha
      exact absurd ha (by simp)
    · rcases mem_cons.mp hmem with rfl | hmem
      · rw [hc] at hb
        exact absurd hb (by simp)
      · exact hrest hmem

/-- A section of a listed member names its input in hexadecimal. -/
theorem fieldText_input_of_not_foreign {s : FilePatchSectionState}
    (h : sectionIsForeign inputFile members s ≠ true) : FieldText s.input := by
  unfold sectionIsForeign at h
  split at h
  · rename_i input hparse
    simp only [parsePatchInputRef, bind_eq_ok, context_eq_ok] at hparse
    obtain ⟨_, -, _, hdecode, -⟩ := hparse
    exact ⟨not_mem_of_hexDecode (by decide) hdecode, not_mem_of_hexDecode (by decide) hdecode⟩
  · exact absurd rfl h

variable {state : MachOArchiveActivationState}

theorem plain_sections
    (hplain : state.Plain) (haccepted : state.Accepted inputFile) :
    ∀ s ∈ state.sections, s.Plain := by
  intro s hs
  obtain ⟨hdata, hcstring⟩ := hplain.sections s hs
  have hown : sectionIsForeign inputFile state.members s ≠ true :=
    fun hforeign => haccepted.sections (.inr ⟨s, hs, hforeign⟩)
  exact ⟨fieldText_input_of_not_foreign hown, hdata, hcstring⟩

/-- A table of resolutions reads back from its text. -/
theorem parseResolutions_render {resolutions : List MachOSymbolResolutionRecord}
    (h : ∀ r ∈ resolutions, r.Plain ∧ ∀ target ∈ r.target, EndsPlain target.input) :
    parseMachoSymbolResolutions (lines (renderResolutions resolutions)) = .ok resolutions := by
  have hplain : ∀ r ∈ resolutions, r.Plain := fun r hr => (h r hr).1
  have hlines : ∀ l ∈ writeRenderedMachoSymbolResolutionRefs resolutions, IsLine l := by
    refine isLine_machoResolution hplain ?_
    intro key hkey
    simp only [machoResolutionKeys, mem_flatMap, mem_toList,
      map_eq_some_iff] at hkey
    obtain ⟨r, hr, target, htarget, rfl⟩ := hkey
    exact (h r hr).2 target htarget
  rw [renderResolutions, lines_unlines hlines, parseMachoSymbolResolutions_write hplain]

/-- The block of the dormant relocations reads back from its text. -/
theorem parseRelocations_render {relocations : List RelocationRecord}
    (h : ∀ r ∈ relocations, r.Plain ∧ ∀ key ∈ r.keys, EndsPlain key.2) :
    parseCompactRecordsBlock (lines (unlines (writeRenderedRecords [] relocations [] [])))
      = .ok { sections := [], relocations, machoSymbolResolutions := []
              machoSymbolResolutionsComplete := false, fdes := [], dynamicRelocations := [] } := by
  have hplain : PlainRecords [] relocations [] [] :=
    ⟨by simp, fun r hr => (h r hr).1, by simp, by simp⟩
  have hend : ∀ key ∈ recordKeys [] relocations [] [], EndsPlain key.2 := by
    intro key hkey
    simp only [recordKeys, map_nil, nil_append, append_nil, mem_flatMap]
      at hkey
    obtain ⟨r, hr, hkey⟩ := hkey
    exact (h r hr).2 key hkey
  have hblock := @parseCompactRecordsBlock_write [] relocations [] [] none hplain (by simp)
  rw [lines_unlines (isLine_writeRenderedRecords hplain hend)]
  simpa [resolutionLines] using hblock

/-- The identifiers taken by one class of states: changes of definitions, or added members. -/
def ParsedStates.taken (parsed : ParsedStates) (changed : Bool) : List Bytes :=
  if changed then parsed.definitionIdentifiers else parsed.memberIdentifiers

@[simp] theorem ParsedStates.identifiers_eq (parsed : ParsedStates)
    (kind : MachOArchiveActivationKind) :
    parsed.identifiers kind = parsed.taken kind.isChangedDefinitions := rfl

/-- The fields of a state, and what each of them holds. -/
theorem length_machoArchiveMemberStateFields (state : MachOArchiveActivationState) :
    (machoArchiveMemberStateFields state).length = 10 := rfl

theorem parseActivity_render (active : Bool) :
    parseActivity (if active then ['1'] else ['0']) = .ok active := by
  cases active <;> rfl

/-- **A state reads back from its fields** when the reader accepts it and none of its identifiers
is taken. -/
theorem parseMachoArchiveMemberState_fields (hplain : state.Plain)
    (haccepted : state.Accepted inputFile) (parsed : ParsedStates)
    (hfree : ∀ identifier ∈ identifiersOf state.members,
      identifier ∉ parsed.taken state.kind.isChangedDefinitions) :
    parseMachoArchiveMemberState inputFile parsed (machoArchiveMemberStateFields state)
      = .ok (parsed.push state ((identifiersOf state.members).reverse
        ++ parsed.taken state.kind.isChangedDefinitions)) := by
  have hresolutions : ∀ r ∈ state.symbolResolutions, r.Plain ∧ ∀ t ∈ r.target, EndsPlain t.input :=
    fun r hr => hplain.resolutions r (by simp [hr])
  have hrollback : ∀ r ∈ state.rollbackSymbolResolutions,
      r.Plain ∧ ∀ t ∈ r.target, EndsPlain t.input :=
    fun r hr => hplain.resolutions r (by simp [hr])
  have hindirect : ∀ r ∈ state.indirectDependencies,
      r.Plain ∧ ∀ t ∈ r.target, EndsPlain t.input :=
    fun r hr => hplain.resolutions r (by simp [hr])
  have hunwind := parseMachoArchiveUnwindTransactionState_render
    fun t ht => ⟨(haccepted.unwind t ht).1, (haccepted.unwind t ht).2.1⟩
  have hversions : ¬ state.unwindTransaction.any
      (fun transaction => UnwindVersionsDiffer transaction) = true := by
    cases ht : state.unwindTransaction with
    | none => simp
    | some t => simpa using (haccepted.unwind t ht).2.2
  have hforward := @parseStoredOutputPatches_render state.forwardPatches
    fun patch hpatch => haccepted.patches patch (mem_append_left _ hpatch)
  have hback := @parseStoredOutputPatches_render state.rollbackPatches
    fun patch hpatch => haccepted.patches patch (mem_append_right _ hpatch)
  simp only [parseMachoArchiveMemberState, machoArchiveMemberStateFields, column,
    getD_cons_zero, getD_cons_succ, parseActivity_render, decodeField_hexField, ok_bind,
    parseKind_renderMembers, identifiers_eq,
    split_renderMembers haccepted.members_ne_nil haccepted.members,
    parseMemberIdentities_render _ haccepted.members haccepted.members_nodup hfree,
    failIf_neg _ haccepted.members_ne_nil,
    parsePatchSections_render inputFile (plain_sections hplain haccepted),
    failIf_neg _ haccepted.sections, parseRelocations_render hplain.relocations,
    parseResolutions_render hresolutions, failIf_neg _ haccepted.dormant,
    parseResolutions_render hrollback]
  rw [failIf_neg _ (by simp)]
  simp only [ok_bind, getElem?_cons_succ, getElem?_cons_zero, parseIndirectDependencies,
    parseUnwindTransaction, decodeField_hexField, parseResolutions_render hindirect, hunwind,
    failIf_neg _ hversions, failIf_neg _ haccepted.indirect, failIf_neg _ haccepted.changed,
    hforward, hback, failIf_neg _ haccepted.complete]
  rfl

/-! ## 6. All states -/

/-- The identifiers that the states of one class claim. -/
def claimedIdentifiers (changed : Bool) (states : List MachOArchiveActivationState) :
    List Bytes :=
  (states.filter fun state => state.kind.isChangedDefinitions = changed).flatMap
    fun state => identifiersOf state.members

theorem claimedIdentifiers_cons (changed : Bool) (state : MachOArchiveActivationState)
    (rest : List MachOArchiveActivationState) :
    claimedIdentifiers changed (state :: rest)
      = (if state.kind.isChangedDefinitions = changed then identifiersOf state.members else [])
        ++ claimedIdentifiers changed rest := by
  unfold claimedIdentifiers
  by_cases h : state.kind.isChangedDefinitions = changed <;> simp [h]

/-- A state leaves the identifiers of the other class alone. -/
theorem ParsedStates.taken_push (parsed : ParsedStates) (state : MachOArchiveActivationState)
    (identifiers : List Bytes) (changed : Bool) :
    (parsed.push state identifiers).taken changed
      = if state.kind.isChangedDefinitions = changed then identifiers
        else parsed.taken changed := by
  unfold push taken
  cases state.kind.isChangedDefinitions <;> cases changed <;> rfl

@[simp] theorem ParsedStates.states_push (parsed : ParsedStates)
    (state : MachOArchiveActivationState) (identifiers : List Bytes) :
    (parsed.push state identifiers).states = parsed.states ++ [state] := by
  unfold push
  split <;> rfl

theorem split_machoArchiveMemberStateFields (state : MachOArchiveActivationState) :
    split ':' (join ':' (machoArchiveMemberStateFields state))
      = machoArchiveMemberStateFields state := by
  refine split_join (by simp [machoArchiveMemberStateFields]) ?_
  have hhex : ∀ t, ':' ∉ hexField t := fun t => not_mem_hexField (by decide) t
  cases hactive : state.active <;> simp [machoArchiveMemberStateFields, hactive, hhex]

/-- A state of ten fields goes to the current reader. -/
theorem parseEncodedState_fields
    (parseLegacy : Text → Result (List MachOArchiveActivationState)) (inputFile : Text)
    (parsed : ParsedStates) (state : MachOArchiveActivationState) :
    parseEncodedState parseLegacy inputFile parsed
        (join ':' (machoArchiveMemberStateFields state))
      = parseMachoArchiveMemberState inputFile parsed (machoArchiveMemberStateFields state) := by
  simp only [parseEncodedState, split_machoArchiveMemberStateFields,
    length_machoArchiveMemberStateFields]
  rfl

/-- **The loop over the states**: each is read and claims its identifiers. -/
theorem foldlM_parseEncodedState (parseLegacy : Text → Result (List MachOArchiveActivationState)) :
    ∀ {states : List MachOArchiveActivationState} (parsed : ParsedStates),
      (∀ state ∈ states, state.Plain ∧ state.Accepted inputFile) →
      (∀ changed, (claimedIdentifiers changed states).Nodup) →
      (∀ changed, ∀ identifier ∈ claimedIdentifiers changed states,
        identifier ∉ parsed.taken changed) →
      ∃ parsed', (states.map fun state => join ':' (machoArchiveMemberStateFields state)).foldlM
          (parseEncodedState parseLegacy inputFile) parsed = .ok parsed'
        ∧ parsed'.states = parsed.states ++ states := by
  intro states
  induction states with
  | nil =>
    intro parsed _ _ _
    exact ⟨parsed, rfl, by simp⟩
  | cons state rest ih =>
    intro parsed haccepted hnodup hfree
    obtain ⟨hplain, hstate⟩ := haccepted state (by simp)
    have hown : ∀ identifier ∈ identifiersOf state.members,
        identifier ∉ parsed.taken state.kind.isChangedDefinitions := by
      intro identifier hidentifier
      refine hfree _ identifier ?_
      rw [claimedIdentifiers_cons, if_pos rfl]
      exact mem_append_left _ hidentifier
    have hrest : ∀ changed, ∀ identifier ∈ claimedIdentifiers changed rest,
        identifier ∈ claimedIdentifiers changed (state :: rest) := by
      intro changed identifier hidentifier
      rw [claimedIdentifiers_cons]
      exact mem_append_right _ hidentifier
    have hnodup' : ∀ changed, (claimedIdentifiers changed rest).Nodup := by
      intro changed
      have hall := hnodup changed
      rw [claimedIdentifiers_cons] at hall
      exact hall.of_append_right
    have hfree' : ∀ changed, ∀ identifier ∈ claimedIdentifiers changed rest,
        identifier ∉ (parsed.push state ((identifiersOf state.members).reverse
          ++ parsed.taken state.kind.isChangedDefinitions)).taken changed := by
      intro changed identifier hidentifier hmem
      have hall := hnodup changed
      rw [claimedIdentifiers_cons] at hall
      rw [taken_push] at hmem
      split at hmem
      · -- taken by this state, or before it
        rename_i hclass
        rw [if_pos hclass] at hall
        rcases mem_append.mp hmem with hmem | hmem
        · exact (disjoint_of_nodup_append hall) (mem_reverse.mp hmem) hidentifier
        · rw [hclass] at hmem
          exact hfree changed identifier (hrest changed identifier hidentifier) hmem
      · exact hfree changed identifier (hrest changed identifier hidentifier) hmem
    obtain ⟨parsed', hparsed', hstates⟩ := ih _
      (fun s hs => haccepted s (mem_cons_of_mem _ hs)) hnodup' hfree'
    refine ⟨parsed', ?_, by simp [hstates]⟩
    rw [map_cons, foldlM_cons, parseEncodedState_fields,
      parseMachoArchiveMemberState_fields hplain hstate parsed hown]
    exact hparsed'

/-- The checks of the reader on a list of states. -/
structure StatesAccepted (inputFile : Text) (states : List MachOArchiveActivationState) :
    Prop where
  each : ∀ state ∈ states, state.Accepted inputFile
  unique : ∀ changed, (claimedIdentifiers changed states).Nodup
  symbolOnly : ∀ state ∈ states, checkSymbolOnly inputFile states state = .ok ()

theorem forM_ok {α : Type} {check : α → Result Unit} : ∀ {l : List α},
    (∀ a ∈ l, check a = .ok ()) → l.forM check = .ok ()
  | [], _ => rfl
  | a :: rest, h => by
    have hrest : rest.forM check = .ok () := forM_ok fun x hx => h x (mem_cons_of_mem _ hx)
    change (check a >>= fun _ => rest.forM check) = .ok ()
    rw [h a (by simp), ok_bind, hrest]

/-- The states read back from the column they are written as. -/
theorem parseMachoArchiveMemberStates_render
    {states : List MachOArchiveActivationState} (hne : states ≠ [])
    (hplain : ∀ state ∈ states, state.Plain) (haccepted : StatesAccepted inputFile states) :
    parseMachoArchiveMemberStates inputFile (renderMachoArchiveMemberStates states)
      = .ok states := by
  have hpieces : ∀ p ∈ states.map fun state => join ':' (machoArchiveMemberStateFields state),
      ';' ∉ p ∧ p ≠ [] := by
    intro p hp
    obtain ⟨state, -, rfl⟩ := mem_map.mp hp
    have hhex : ∀ t, ';' ∉ hexField t := fun t => not_mem_hexField (by decide) t
    refine ⟨not_mem_join (by decide) ?_, by simp [machoArchiveMemberStateFields, join_cons_cons]⟩
    cases hactive : state.active <;> simp [machoArchiveMemberStateFields, hactive, hhex]
  have hmap : (states.map fun state => join ':' (machoArchiveMemberStateFields state)) ≠ [] := by
    simpa using hne
  have hcolumn : renderMachoArchiveMemberStates states ≠ [] :=
    join_ne_nil hmap fun p hp => (hpieces p hp).2
  obtain ⟨parsed, hparsed, hstates⟩ := foldlM_parseEncodedState
    (parseStatesWith (fun _ => .error "unreachable") inputFile) ⟨[], [], []⟩
    (fun state hs => ⟨hplain state hs, haccepted.each state hs⟩) haccepted.unique
    (by intro changed identifier _; cases changed <;> simp [taken])
  rw [nil_append] at hstates
  rw [parseMachoArchiveMemberStates, parseStatesWith, if_neg hcolumn,
    renderMachoArchiveMemberStates, split_join hmap fun p hp => (hpieces p hp).1, hparsed, ok_bind,
    hstates, forM_ok haccepted.symbolOnly]
  rfl

/-! ## 7. The codec -/

/-- **The states of Mach-O archive members read back**: any list of states that the reader's own
checks accept and whose texts fit the codecs of their fields is read from its column as it was
written. -/
theorem macho_archive_states_round_trip (inputFile : Text)
    (states : List MachOArchiveActivationState) (hne : states ≠ [])
    (haccepted : StatesAccepted inputFile states) (hplain : ∀ state ∈ states, state.Plain) :
    parseMachoArchiveMemberStates inputFile (renderMachoArchiveMemberStates states)
      = .ok states :=
  parseMachoArchiveMemberStates_render hne hplain haccepted

/-- The path `a.a` in hexadecimal, and the reference to its member `b.o` at 8 to 12. -/
def exampleArchive : Text := hexEncode (utf8 "a.a".toList)

def exampleMember : Text :=
  hexEncode (utf8 "a.a".toList ++ 0 :: (utf8 "b.o".toList ++ 0 :: utf8 "8:12".toList))

theorem parsePatchInputRef_exampleMember :
    parsePatchInputRef exampleArchive exampleMember
      = .ok (some ⟨utf8 "b.o".toList, 8, 12⟩) := by
  have hrange : parseArchiveMemberRange (utf8 "b.o".toList) (utf8 "8:12".toList)
      = .ok ⟨utf8 "b.o".toList, 8, 12⟩ := by
    rw [parseArchiveMemberRange, fromUtf8_utf8]
    decide
  rw [parsePatchInputRef, exampleArchive, exampleMember, hexDecode_hexEncode, hexDecode_hexEncode,
    context_some, ok_bind, context_some, ok_bind, if_neg (by decide), if_pos (by decide),
    show splitByte 0 ((utf8 "a.a".toList ++ 0 :: (utf8 "b.o".toList
      ++ 0 :: utf8 "8:12".toList)).drop ((utf8 "a.a".toList).length + 1))
      = some (utf8 "b.o".toList, utf8 "8:12".toList) by decide]
  simp only [hrange]
  rfl

theorem archiveMemberPatchIdentifier_example :
    archiveMemberPatchIdentifier (utf8 "b.o".toList) = utf8 "b.o".toList := by
  rw [archiveMemberPatchIdentifier, fromUtf8_utf8]
  decide

def exampleDigest : Text := replicate 64 '0'

/-- An inactive state of the member, with one section and both versions of everything else. -/
def exampleState (dataHash : Option Text) : MachOArchiveActivationState where
  kind := .addedMembers
  members := [⟨utf8 "b.o".toList, exampleDigest⟩]
  active := false
  sections := [⟨exampleMember, 1, some "__text".toList, 4, 4096, 8, dataHash, none⟩]
  relocations := [⟨7, some 4096, 4112, none, some "5f6d".toList, none, exampleArchive,
    exampleMember, 1, 0, 4096, 4, 2, -4⟩]
  symbolResolutions := [⟨"5f66".toList, some 4096, none, none, [],
    some ⟨exampleArchive, exampleMember, 1, 0⟩⟩]
  indirectDependencies := [⟨"5f67".toList, none, some 8192, none, [], none⟩]
  rollbackSymbolResolutions := []
  forwardPatches := [⟨4096, [1, 2, 3, 4]⟩]
  rollbackPatches := [⟨4096, [0, 0, 0, 0]⟩]
  unwindTransaction := some
    ⟨⟨[⟨utf8 "c.o".toList, exampleDigest⟩], ⟨16, 64⟩⟩, ⟨[⟨utf8 "c.o".toList, exampleDigest⟩], ⟨24, 64⟩⟩⟩

/-- The reader accepts the state whatever the hash of its section is. -/
theorem statesAccepted_example (dataHash : Option Text) :
    StatesAccepted exampleArchive [exampleState dataHash] := by
  have hown : ∀ s ∈ (exampleState dataHash).sections,
      sectionIsForeign exampleArchive (exampleState none).members s = false := by
    intro s hs
    obtain rfl := mem_singleton.mp hs
    simp only [sectionIsForeign, parsePatchInputRef_exampleMember,
      archiveMemberPatchIdentifier_example]
    decide
  have hkind : (exampleState none).kind.isChangedDefinitions = false := by decide
  refine ⟨?_, ?_, ?_⟩
  · intro state hstate
    obtain rfl := mem_singleton.mp hstate
    refine ⟨(by decide : (exampleState none).members ≠ []),
      (by decide : ∀ member ∈ (exampleState none).members, MemberValid member),
      (by decide : (identifiersOf (exampleState none).members).Nodup), ?_, ?_, ?_,
      (by decide : ¬ IndirectDependenciesInvalid (exampleState none).symbolResolutions
        (exampleState none).rollbackSymbolResolutions (exampleState none).indirectDependencies),
      ?_, (by decide : ∀ patch ∈ (exampleState none).forwardPatches
        ++ (exampleState none).rollbackPatches, patch.data ≠ []),
      (by decide : ¬ TransactionIncomplete (exampleState none).forwardPatches
        (exampleState none).rollbackPatches)⟩
    · rintro (⟨hchanged, -⟩ | ⟨s, hs, hforeign⟩)
      · exact absurd (hkind.symm.trans hchanged) (by decide)
      · exact absurd ((hown s hs).symm.trans hforeign) (by decide)
    · exact fun h => absurd h.2.1 Bool.false_ne_true
    · intro t ht
      cases ht
      exact ⟨⟨by decide, by decide, by decide⟩, ⟨by decide, by decide, by decide⟩, by decide⟩
    · exact fun h => absurd (hkind.symm.trans h.1) (by decide)
  · intro changed
    cases changed with
    | false => exact (by decide : (claimedIdentifiers false [exampleState none]).Nodup)
    | true => exact (by decide : (claimedIdentifiers true [exampleState none]).Nodup)
  · intro state hstate
    obtain rfl := mem_singleton.mp hstate
    rfl

/-- Its texts fit when the hash does. -/
theorem plain_exampleState {dataHash : Option Text}
    (h : ∀ hash ∈ dataHash, FieldText hash ∧ hash ≠ absentField) :
    (exampleState dataHash).Plain := by
  have harchive : PlainText exampleArchive ∧ PlainText exampleMember := by
    refine ⟨⟨?_, ?_⟩, ?_, ?_⟩
    all_goals exact not_mem_hexEncode (by decide) _
  have hend : EndsPlain exampleMember :=
    endsPlain_of_not_mem (not_mem_hexEncode (by decide) _)
  refine ⟨?_, ?_, ?_⟩
  · intro s hs
    obtain rfl := mem_singleton.mp hs
    exact ⟨h, by simp⟩
  · intro r hr
    obtain rfl := mem_singleton.mp hr
    refine ⟨⟨harchive.1, harchive.2, ?_, by simp⟩, ?_⟩
    · intro name hname
      cases hname
      exact ⟨by decide, by decide⟩
    · intro key hkey
      obtain rfl := mem_singleton.mp hkey
      exact hend
  · intro r hr
    have hmem : r = (exampleState none).symbolResolutions.head (by decide)
        ∨ r = (exampleState none).indirectDependencies.head (by decide) := by
      simpa [exampleState] using hr
    rcases hmem with rfl | rfl
    · refine ⟨⟨by decide, ?_⟩, ?_⟩
      · intro t ht
        cases ht
        exact harchive
      · intro t ht
        cases ht
        exact hend
    · exact ⟨⟨by decide, by simp [exampleState]⟩, by simp [exampleState]⟩

/-- One inactive state with a section, a relocation, resolutions, patches and unwind versions. -/
theorem macho_archive_states_round_trip_one_member :
    parseMachoArchiveMemberStates exampleArchive
        (renderMachoArchiveMemberStates [exampleState (some exampleDigest)])
      = .ok [exampleState (some exampleDigest)] := by
  refine macho_archive_states_round_trip exampleArchive _ (by simp) (statesAccepted_example _) ?_
  intro state hstate
  obtain rfl := mem_singleton.mp hstate
  refine plain_exampleState ?_
  intro hash hhash
  cases hhash
  exact ⟨by decide, by decide⟩

/-- A section hash that is spelled like an absent one passes every check and is read back as
absent. -/
theorem dash_hash_is_read_as_absent :
    StatesAccepted exampleArchive [exampleState (some absentField)]
      ∧ parseMachoArchiveMemberStates exampleArchive
          (renderMachoArchiveMemberStates [exampleState (some absentField)])
        = .ok [exampleState none]
      ∧ [exampleState none] ≠ [exampleState (some absentField)] := by
  refine ⟨statesAccepted_example _, ?_, ?_⟩
  · -- the two states are written as the same text
    have hsame : renderMachoArchiveMemberStates [exampleState (some absentField)]
        = renderMachoArchiveMemberStates [exampleState none] := rfl
    rw [hsame]
    refine parseMachoArchiveMemberStates_render (by simp) ?_ (statesAccepted_example none)
    intro state hstate
    obtain rfl := mem_singleton.mp hstate
    exact plain_exampleState (by simp)
  · intro h
    have hsections := congrArg (fun states => states.flatMap fun state =>
      state.sections.map (·.dataHash)) h
    exact absurd hsections (by decide)

end Srs.Incremental
