/-
# What the writer does with exception frames

A run over an `.eh_frame` section takes room for every CIE, for the bytes behind the last entry, and
for the FDEs it keeps (`writeEhFrameRelocations_spec`).  The pointer of every FDE in the output leads
to the copy of its CIE: the output never grows apart faster than the input, so the distance still
fits 32 bits, and among the CIEs before an FDE only one is where its pointer says, even if positions
wrap (`lookup_done`).
-/
import Srs.EhFrame.Allocation
import Srs.EhFrame.Writer

namespace Srs.EhFrame

open LeBytes Records List Option Except Fde

/-! ## 1. The FDEs that are kept -/

/-- For the writer, the section of an FDE is that of its first relocation, if it is at
`pc_begin`. -/
def writerSection (file : File) (rels : List Rel) (r : Record) : Option Nat :=
  ((relsIn rels r).head?.filter fun rel => rel.offset - r.start == fdePcBeginOffset).bind
    (symbolSection file)

/-- A section with an address and a size in its header. -/
def WriterEnv.placed (env : WriterEnv) (j : Nat) : Bool :=
  match env.sectionAddress j, env.file.sectionHeader j with
  | .ok (some _), some header => header.shSize != 0
  | _, _ => false

/-- Whether there is a section that the writer takes the FDE to be for, and it is in the output. -/
def Fde.kept (env : WriterEnv) (fde : Fde) : Bool :=
  match writerSection env.file (fde.rels env.file) fde.record with
  | some j => env.placed j
  | none => false

theorem head?_relsIn {rels : List Rel} (hsorted : rels.Pairwise fun a b => a.offset ≤ b.offset)
    (r : Record) :
    (relsIn rels r).head? = (relsFrom rels r.start).head?.filter fun rel => rel.offset < r.stop := by
  rw [← takeWhile_relsFrom hsorted]
  cases relsFrom rels r.start with
  | nil => rfl
  | cons rel l =>
    by_cases hlt : rel.offset < r.stop
    · rw [takeWhile_cons_of_pos (by simpa using hlt), head?_cons, head?_cons,
        filter_some_pos (by simpa using hlt)]
    · rw [takeWhile_cons_of_neg (by simpa using hlt), head?_cons,
        filter_some_neg (by simpa using hlt)]
      rfl

section

variable {env : WriterEnv} {i : Nat}

variable {target : Option FdeTarget}

theorem symbolTarget_eq_ok {rel : Rel} {symbol : Symbol}
    (h : symbolTarget env rel symbol = .ok target) :
    ∃ j, symbol.sectionIndex = some j ∧
      target.map FdeTarget.sectionIndex = if env.placed j then some j else none := by
  unfold symbolTarget at h
  cases hsection : symbol.sectionIndex with
  | none => simp [hsection] at h
  | some j =>
    simp only [hsection] at h
    obtain ⟨address, haddress, h⟩ := bind_ok_iff.mp h
    refine ⟨j, rfl, ?_⟩
    unfold WriterEnv.placed
    cases address with
    | none =>
      rw [← ok.inj h, haddress]
      simp
    | some address =>
      cases hheader : env.file.sectionHeader j with
      | none => simp [hheader] at h
      | some header =>
        simp only [hheader] at h
        rw [← ok.inj h, haddress]
        by_cases hsize : header.shSize = 0 <;> simp [hsize]

/-- **The writer's decision**: an FDE is kept for the section of its first relocation. -/
theorem fdeTarget_spec {rels : List Rel} {r : Record}
    (hrels : (env.file.relocations i).rels = rels)
    (hsorted : rels.Pairwise fun a b => a.offset ≤ b.offset)
    (h : fdeTarget env r (relsFrom rels r.start) = .ok target) :
    target.map FdeTarget.sectionIndex = (if kept env ⟨i, r⟩ then
      writerSection env.file rels r else none) ∧
      (target.isSome = true → r.start + 8 < r.stop) := by
  have hhead := head?_relsIn hsorted r
  have hkept : kept env ⟨i, r⟩ = match writerSection env.file rels r with
      | some j => env.placed j
      | none => false := by
    simp only [Fde.kept, Fde.rels, hrels]
  -- where no relocation is at `pc_begin`, the FDE has no section
  have hnone : writerSection env.file rels r = none → fdeTarget env r (relsFrom rels r.start)
      = .ok none → target.map FdeTarget.sectionIndex = (if kept env ⟨i, r⟩ then
      writerSection env.file rels r else none) ∧
      (target.isSome = true → r.start + 8 < r.stop) := by
    intro hsection htarget
    rw [htarget] at h
    rw [← ok.inj h, hsection, ite_self]
    exact ⟨rfl, fun hsome => by cases hsome⟩
  cases hpending : relsFrom rels r.start with
  | nil =>
    rw [hpending] at hhead
    refine hnone ?_ (by rw [hpending]; rfl)
    rw [writerSection, hhead]
    rfl
  | cons rel l =>
    rw [hpending] at hhead h
    rw [head?_cons] at hhead
    by_cases hlt : rel.offset < r.stop
    · rw [filter_some_pos (by simpa using hlt)] at hhead
      by_cases hpc : rel.offset - r.start = fdePcBeginOffset
      · have hsection : writerSection env.file rels r = symbolSection env.file rel := by
          rw [writerSection, hhead, filter_some_pos (by simpa using hpc), bind_some]
        rw [fdeTarget, if_pos hlt, if_pos (by simpa using hpc)] at h
        cases hsym : rel.symbol with
        | none => simp [hsym] at h
        | some index =>
          cases hsymbol : env.file.symbol index with
          | none => simp [hsym, hsymbol] at h
          | some symbol =>
            simp only [hsym, hsymbol] at h
            obtain ⟨j, hj, htarget⟩ := symbolTarget_eq_ok h
            have hwriter : writerSection env.file rels r = some j := by
              rw [hsection, symbolSection, hsym, bind_some, hsymbol, bind_some, hj]
            refine ⟨?_, fun _ => ?_⟩
            · rw [htarget, hkept, hwriter]
            · simp only [fdePcBeginOffset] at hpc
              omega
      · refine hnone ?_ ?_
        · rw [writerSection, hhead, filter_some_neg (by simpa using hpc), bind_none]
        · rw [hpending, fdeTarget, if_pos hlt, if_neg (by simpa using hpc)]
    · rw [filter_some_neg (by simpa using hlt)] at hhead
      refine hnone ?_ ?_
      · rw [writerSection, hhead]
        rfl
      · rw [hpending, fdeTarget, if_neg hlt]

end

/-! ## 2. Pointers from FDEs to CIEs -/

/-- The copy of a CIE at an address in the output. -/
def CieCopy (data : Bytes) (log : List WrittenEntry) (i : Nat) (r : Record) (address : Nat) :
    Prop :=
  ∃ w ∈ log, w.ehFrameSectionIndex = i ∧ w.inputPos = r.start ∧ w.address = address ∧
    w.bytes = (data.take r.stop).drop r.start ∧ w.targetSectionIndex = none

/-- The pointer in the output. -/
def WrittenEntry.ciePointer (w : WrittenEntry) : Nat := wordOf 4 (w.bytes.drop 4)

/-- Following the pointer of an FDE in the output leads to the copy of the CIE that the input
pointer leads to; and it leads to one, unless the section is so large that positions wrap. -/
structure PointsToCie (data : Bytes) (log : List WrittenEntry) (w : WrittenEntry) : Prop where
  copy : ∀ r ∈ entries data, isCie data r = true →
    r.start + (prefixAt data w.inputPos).cieId = w.inputPos + 4 →
      ∃ address, CieCopy data log w.ehFrameSectionIndex r address ∧
        address + w.ciePointer = w.address + 4
  exists_cie : w.inputPos + 4 < 2 ^ 32 → ∃ r ∈ entries data, isCie data r = true ∧
    r.start + (prefixAt data w.inputPos).cieId = w.inputPos + 4

theorem PointsToCie.append {data : Bytes} {log : List WrittenEntry} {w : WrittenEntry}
    (h : PointsToCie data log w) (more : List WrittenEntry) : PointsToCie data (log ++ more) w := by
  refine ⟨fun r hr hcie heq => ?_, h.exists_cie⟩
  obtain ⟨address, ⟨v, hv, hcopy⟩, hpointer⟩ := h.copy r hr hcie heq
  exact ⟨address, ⟨v, mem_append_left more hv, hcopy⟩, hpointer⟩

/-- `cies_offset_conversion`, as `u32`s, from the CIEs that are done, the last one first. -/
def offsetConversion (done : List (Nat × Nat)) : List (Nat × Nat) :=
  done.map fun p => (p.1 % 2 ^ 32, p.2 % 2 ^ 32)

theorem lookup_cons_self {k v : Nat} {l : List (Nat × Nat)} :
    List.lookup k ((k, v) :: l) = some v := by
  rw [lookup_cons, beq_self_eq_true]

/-- **Positions that wrap do not collide**: the CIEs after this one are less than `2 ^ 32` bytes
away. -/
theorem lookup_done {done : List (Nat × Nat)} (hsorted : done.Pairwise fun a b => b.1 < a.1)
    {p : Nat × Nat} (hp : p ∈ done) (hnear : ∀ a ∈ done, a.1 < p.1 + 2 ^ 32) :
    (offsetConversion done).lookup (p.1 % 2 ^ 32) = some (p.2 % 2 ^ 32) := by
  induction done with
  | nil => cases hp
  | cons a done ih =>
    obtain ⟨hafter, hrest⟩ := pairwise_cons.mp hsorted
    rcases mem_cons.mp hp with rfl | hmem
    · exact lookup_cons_self
    · have hlt := hafter p hmem
      have hne : (p.1 % 2 ^ 32 == a.1 % 2 ^ 32) = false := by
        have := hnear a mem_cons_self
        rw [beq_eq_false_iff_ne]
        omega
      rw [offsetConversion, map_cons, lookup_cons, hne]
      exact ih hrest hmem fun b hb => hnear b (mem_cons_of_mem a hb)

/-- The other way round, what is found is a CIE at that position, up to wrapping. -/
theorem mem_of_lookup {done : List (Nat × Nat)} {k v : Nat}
    (h : (offsetConversion done).lookup k = some v) : ∃ p ∈ done, p.1 % 2 ^ 32 = k := by
  induction done with
  | nil => cases h
  | cons a done ih =>
    rw [offsetConversion, map_cons, lookup_cons] at h
    cases heq : k == a.1 % 2 ^ 32 with
    | true => exact ⟨a, mem_cons_self, (beq_iff_eq.mp heq).symm⟩
    | false =>
      rw [heq] at h
      obtain ⟨p, hp, hk⟩ := ih h
      exact ⟨p, mem_cons_of_mem a hp, hk⟩

/-- What is known of the CIEs before a position. -/
structure CieMap (data : Bytes) (i base : Nat) (log : List WrittenEntry) (before : List Record)
    (done : List (Nat × Nat)) (o outputPos : Nat) : Prop where
  sorted : done.Pairwise fun a b => b.1 < a.1
  positions : ∀ p ∈ done, p.1 < o ∧ p.2 ≤ outputPos ∧ outputPos + p.1 ≤ o + p.2
  copies : ∀ p ∈ done, ∃ r ∈ entries data, isCie data r = true ∧ r.start = p.1 ∧
    CieCopy data log i r (base + p.2)
  complete : ∀ r ∈ before, isCie data r = true → ∃ p ∈ done, p.1 = r.start

section

variable {data : Bytes} {i base : Nat} {log : List WrittenEntry} {before : List Record}
  {done : List (Nat × Nat)} {o outputPos : Nat}

variable {r : Record}

theorem length_slice (hstop : r.stop ≤ data.length) :
    ((data.take r.stop).drop r.start).length = r.size := by
  rw [length_drop, length_take, Nat.min_eq_left hstop]
  rfl

/-- The pointer that is written into the copy of an FDE. -/
theorem ciePointer_entryOut (hstop : r.stop ≤ data.length) (hsize : 4 ≤ r.size)
    {offset : Nat} (hoffset : offset < 2 ^ 32) :
    wordOf 4 ((entryOut data r (some offset)).drop 4) = offset := by
  have hlength : (((data.take r.stop).drop r.start).take 4).length = 4 := by
    rw [length_take, length_slice hstop]
    omega
  unfold entryOut
  simp only
  rw [List.append_assoc, drop_append_of_le_length (Nat.le_of_eq hlength.symm),
    drop_of_length_le (Nat.le_of_eq hlength), nil_append, wordOf,
    take_append_of_le_length (by rw [length_leBytes]), take_of_length_le
      (by rw [length_leBytes]), leValue_leBytes]
  exact Nat.mod_eq_of_lt hoffset

theorem inputCiePos_eq {p : Nat} (h : inputCiePos data r = .ok p) :
    (prefixAt data r.start).cieId ≤ (r.start + 4) % 2 ^ 32 ∧
      p = (r.start + 4) % 2 ^ 32 - (prefixAt data r.start).cieId := by
  unfold inputCiePos at h
  simp only at h
  split at h
  · cases h
  · next hle => exact ⟨Nat.le_of_not_lt hle, (ok.inj h).symm⟩

/-- **The rewritten pointer leads to the copy of the CIE.** -/
theorem CieMap.pointsToCie (hmap : CieMap data i base log before done o outputPos)
    (hentries : entries data = before ++ records (entryFormat data) data.length o)
    (hfits : o + prefixLen ≤ data.length ∧ o + (entryFormat data).sizeAt o ≤ data.length)
    (hfde : isCie data ((entryFormat data).recordAt o) = false) {inputPos offset : Nat}
    (hinput : inputCiePos data ((entryFormat data).recordAt o) = .ok inputPos)
    (hoffset : outputCieOffset (offsetConversion done) inputPos outputPos = .ok offset)
    (target : Option Nat) :
    PointsToCie data log ⟨i, o, base + outputPos,
      entryOut data ((entryFormat data).recordAt o) (some offset), target⟩ := by
  have hcieId : (prefixAt data o).cieId < 2 ^ 32 := wordOf_lt 4 _
  have hcieId' : (prefixAt data o).cieId ≠ 0 := by
    intro hzero
    rw [isCie, Format.recordAt_start, hzero] at hfde
    cases hfde
  obtain ⟨hle, hinputPos⟩ := inputCiePos_eq hinput
  rw [Format.recordAt_start] at hle hinputPos
  have hsize : 4 ≤ (entryFormat data).sizeAt o := Nat.le_add_right 4 _
  refine ⟨fun r hr hcie heq => ?_, fun hsmall => ?_⟩
  · simp only at heq
    -- the CIE is before the FDE
    have hbefore : r ∈ before := by
      rw [hentries, mem_append, records_of_fits hfits, mem_cons] at hr
      rcases hr with hr | rfl | hr
      · exact hr
      · rw [hcie] at hfde
        cases hfde
      · have hstart := (eq_recordAt_of_mem hr).2.1
        omega
    obtain ⟨p, hp, hstart⟩ := hmap.complete r hbefore hcie
    obtain ⟨hlt, hout, hshrink⟩ := hmap.positions p hp
    have hlookup : (offsetConversion done).lookup inputPos = some (p.2 % 2 ^ 32) := by
      have hpos : inputPos = p.1 % 2 ^ 32 := by omega
      rw [hpos]
      refine lookup_done hmap.sorted hp fun a ha => ?_
      have := (hmap.positions a ha).1
      omega
    have hoffset' : offset = outputPos + 4 - p.2 := by
      rw [outputCieOffset, hlookup] at hoffset
      have := ok.inj hoffset
      omega
    obtain ⟨r', hr', -, hstart', hcopy⟩ := hmap.copies p hp
    have hsame : r' = r := by
      rw [(eq_recordAt_of_mem hr').1, (eq_recordAt_of_mem hr).1, hstart', hstart]
    rw [hsame] at hcopy
    refine ⟨base + p.2, hcopy, ?_⟩
    have hpointer := ciePointer_entryOut (r := (entryFormat data).recordAt o) hfits.2
      (by rw [Format.recordAt_size]; exact hsize) (show offset < 2 ^ 32 by omega)
    rw [WrittenEntry.ciePointer, hpointer]
    simp only
    omega
  · simp only at hsmall ⊢
    cases hlookup : (offsetConversion done).lookup inputPos with
    | none => simp [outputCieOffset, hlookup] at hoffset
    | some v =>
      obtain ⟨p, hp, hk⟩ := mem_of_lookup hlookup
      obtain ⟨r, hr, hcie, hstart, -⟩ := hmap.copies p hp
      have hlt := (hmap.positions p hp).1
      exact ⟨r, hr, hcie, by omega⟩

end

/-! ## 3. The entries that are written -/

/-- The FDEs that are kept among some entries. -/
def keptIn (env : WriterEnv) (i : Nat) (l : List Record) : List Record :=
  l.filter fun r => !isCie (env.file.data i) r && kept env ⟨i, r⟩

/-- What the log says of the entries of a section: where they go, and which FDEs are there. -/
structure Logged (env : WriterEnv) (i : Nat) (log : List WrittenEntry) (before : List Record) :
    Prop where
  index : ∀ w ∈ log, w.ehFrameSectionIndex = i
  pointers : ∀ w ∈ log, w.targetSectionIndex ≠ none → PointsToCie (env.file.data i) log w
  targets : ∀ w ∈ log, ∀ j, w.targetSectionIndex = some j → ∃ r ∈ keptIn env i before,
    writerSection env.file (env.file.relocations i).rels r = some j
  kept : ∀ r ∈ keptIn env i before, ∃ w ∈ log,
    w.targetSectionIndex = writerSection env.file (env.file.relocations i).rels r

section

variable {env : WriterEnv} {i base : Nat} {log : List WrittenEntry} {before : List Record}
  {done : List (Nat × Nat)} {o outputPos : Nat} {r : Record}

theorem keptIn_append (l₁ l₂ : List Record) :
    keptIn env i (l₁ ++ l₂) = keptIn env i l₁ ++ keptIn env i l₂ := filter_append l₁ l₂

theorem keptIn_singleton_cie (h : isCie (env.file.data i) r = true) : keptIn env i [r] = [] :=
  filter_cons_of_neg (by simp [h])

theorem keptIn_singleton (h : isCie (env.file.data i) r = false) :
    keptIn env i [r] = if kept env ⟨i, r⟩ then [r] else [] := by
  unfold keptIn
  cases hkept : kept env ⟨i, r⟩ with
  | true => exact filter_cons_of_pos (by simp [h, hkept])
  | false => exact filter_cons_of_neg (by simp [hkept])

/-- An entry that adds no FDE to the output. -/
theorem Logged.skip (h : Logged env i log before) (hr : keptIn env i [r] = []) :
    Logged env i log (before ++ [r]) := by
  refine ⟨h.index, h.pointers, fun w hw j hj => ?_, fun r' hr' => h.kept r' ?_⟩
  · rw [keptIn_append, hr, append_nil]
    exact h.targets w hw j hj
  · rw [keptIn_append, hr, append_nil] at hr'
    exact hr'

variable {w : WrittenEntry}

theorem Logged.cie (h : Logged env i log before) (hr : isCie (env.file.data i) r = true) (hi : w.ehFrameSectionIndex = i) (hw : w.targetSectionIndex = none) :
    Logged env i (log ++ [w]) (before ++ [r]) := by
  have hskip := h.skip (keptIn_singleton_cie hr)
  refine ⟨fun v hv => ?_, fun v hv hne => ?_, fun v hv j hj => ?_, fun r' hr' => ?_⟩
  · rcases mem_append.mp hv with hv | hv
    · exact h.index v hv
    · rw [mem_singleton.mp hv]
      exact hi
  · rcases mem_append.mp hv with hv | hv
    · exact (h.pointers v hv hne).append _
    · rw [mem_singleton.mp hv] at hne
      exact absurd hw hne
  · rcases mem_append.mp hv with hv | hv
    · exact hskip.targets v hv j hj
    · rw [mem_singleton.mp hv, hw] at hj
      cases hj
  · obtain ⟨v, hv, htarget⟩ := hskip.kept r' hr'
    exact ⟨v, mem_append_left _ hv, htarget⟩

theorem Logged.fde (h : Logged env i log before) (hr : isCie (env.file.data i) r = false)
    (hkept : Fde.kept env ⟨i, r⟩ = true) (hi : w.ehFrameSectionIndex = i)
    (hw : w.targetSectionIndex = writerSection env.file (env.file.relocations i).rels r)
    (hpointer : PointsToCie (env.file.data i) log w) :
    Logged env i (log ++ [w]) (before ++ [r]) := by
  have hnew : keptIn env i (before ++ [r]) = keptIn env i before ++ [r] := by
    rw [keptIn_append, keptIn_singleton hr, if_pos hkept]
  refine ⟨fun v hv => ?_, fun v hv hne => ?_, fun v hv j hj => ?_, fun r' hr' => ?_⟩
  · rcases mem_append.mp hv with hv | hv
    · exact h.index v hv
    · rw [mem_singleton.mp hv]
      exact hi
  · rcases mem_append.mp hv with hv | hv
    · exact (h.pointers v hv hne).append _
    · rw [mem_singleton.mp hv]
      exact hpointer.append _
  · rw [hnew]
    rcases mem_append.mp hv with hv | hv
    · obtain ⟨r', hr', htarget⟩ := h.targets v hv j hj
      exact ⟨r', mem_append_left _ hr', htarget⟩
    · rw [mem_singleton.mp hv, hw] at hj
      exact ⟨r, mem_append_right _ (mem_singleton.mpr rfl), hj⟩
  · rw [hnew] at hr'
    rcases mem_append.mp hr' with hr' | hr'
    · obtain ⟨v, hv, htarget⟩ := h.kept r' hr'
      exact ⟨v, mem_append_left _ hv, htarget⟩
    · rw [mem_singleton.mp hr']
      exact ⟨w, mem_append_right _ (mem_singleton.mpr rfl), hw⟩

end

section

variable {data : Bytes} {i base : Nat} {log : List WrittenEntry} {before : List Record}
  {done : List (Nat × Nat)} {o outputPos : Nat}

variable {r : Record}

/-- An FDE, which may be written or not. -/
theorem CieMap.fde (h : CieMap data i base log before done o outputPos)
    (hr : isCie data r = false) {size outSize : Nat} (hle : outSize ≤ size)
    (more : List WrittenEntry) :
    CieMap data i base (log ++ more) (before ++ [r]) done (o + size) (outputPos + outSize) := by
  refine ⟨h.sorted, fun p hp => ?_, fun p hp => ?_, fun r' hr' hcie => ?_⟩
  · have := h.positions p hp
    omega
  · obtain ⟨r', hr', hcie, hstart, w, hw, hcopy⟩ := h.copies p hp
    exact ⟨r', hr', hcie, hstart, w, mem_append_left more hw, hcopy⟩
  · rcases mem_append.mp hr' with hr' | hr'
    · exact h.complete r' hr' hcie
    · rw [mem_singleton.mp hr', hr] at hcie
      cases hcie

theorem CieMap.cie (h : CieMap data i base log before done o outputPos)
    (hmem : r ∈ entries data) (hr : isCie data r = true) (hstart : r.start = o) {size : Nat}
    (hsize : 0 < size) :
    CieMap data i base
      (log ++ [⟨i, r.start, base + outputPos, (data.take r.stop).drop r.start, none⟩])
      (before ++ [r]) ((o, outputPos) :: done) (o + size) (outputPos + size) := by
  refine ⟨?_, fun p hp => ?_, fun p hp => ?_, fun r' hr' hcie => ?_⟩
  · exact pairwise_cons.mpr ⟨fun p hp => (h.positions p hp).1, h.sorted⟩
  · rcases mem_cons.mp hp with rfl | hp
    · simp only
      omega
    · have := h.positions p hp
      omega
  · rcases mem_cons.mp hp with rfl | hp
    · exact ⟨r, hmem, hr, hstart, _, mem_append_right _ (mem_singleton.mpr rfl),
        rfl, rfl, rfl, rfl, rfl⟩
    · obtain ⟨r', hr', hcie, hstart', w, hw, hcopy⟩ := h.copies p hp
      exact ⟨r', hr', hcie, hstart', w, mem_append_left _ hw, hcopy⟩
  · rcases mem_append.mp hr' with hr' | hr'
    · obtain ⟨p, hp, hstart'⟩ := h.complete r' hr' hcie
      exact ⟨p, mem_cons_of_mem _ hp, hstart'⟩
    · rw [mem_singleton.mp hr']
      exact ⟨(o, outputPos), mem_cons_self, hstart.symm⟩

end

/-! ## 4. A run over a section -/

theorem takeEhFrameData_eq {tw tw' : TableWriter} {size : Nat}
    (h : tw.takeEhFrameData size = .ok tw') :
    size ≤ tw.ehFrame ∧ tw' = { tw with ehFrame := tw.ehFrame - size } := by
  unfold TableWriter.takeEhFrameData at h
  split at h
  · cases h
  · next hle => exact ⟨Nat.le_of_not_lt hle, (ok.inj h).symm⟩

theorem writeRemaining_eq {remaining : Nat} {s : WriteState} {tw : TableWriter}
    (h : writeRemaining remaining s = .ok tw) :
    s.table.ehFrame = tw.ehFrame + remaining ∧ tw.ehFrameHdr = s.table.ehFrameHdr ∧
      tw.written = s.table.written := by
  unfold writeRemaining at h
  split at h
  · obtain ⟨table, htable, h⟩ := bind_ok_iff.mp h
    obtain ⟨hle, rfl⟩ := takeEhFrameData_eq htable
    rw [← ok.inj h]
    refine ⟨?_, rfl, rfl⟩
    simp only
    omega
  · next hzero =>
    rw [← ok.inj h, Nat.eq_zero_of_not_pos hzero]
    exact ⟨rfl, rfl, rfl⟩

/-- The search table loses the room for an entry, as long as there is any. -/
theorem writeHdrEntry_eq {env : WriterEnv} {target : FdeTarget} {outputPos : Nat}
    {tw tw' : TableWriter} (h : writeHdrEntry env target outputPos tw = .ok tw') :
    tw'.ehFrame = tw.ehFrame ∧ tw'.ehFrameHdr = tw.ehFrameHdr - ehFrameHdrEntrySize ∧
      tw'.ehFrameStartAddress = tw.ehFrameStartAddress ∧ tw'.written = tw.written := by
  unfold writeHdrEntry at h
  obtain ⟨taken, htake, h⟩ := bind_ok_iff.mp h
  unfold TableWriter.takeEhFrameHdrEntry at htake
  split at htake
  · next hzero =>
    rw [← ok.inj htake] at h
    rw [← ok.inj h, hzero]
    exact ⟨rfl, rfl, rfl, rfl⟩
  · split at htake
    · cases htake
    · rw [← ok.inj htake] at h
      obtain ⟨framePtr, -, h⟩ := bind_ok_iff.mp h
      obtain ⟨frameInfoPtr, -, h⟩ := bind_ok_iff.mp h
      rw [← ok.inj h]
      exact ⟨rfl, rfl, rfl, rfl⟩

theorem keepEntry_eq {i : Nat} {data : Bytes} {r : Record} {cieOffset target : Option Nat}
    {s s' : WriteState} (h : keepEntry i data r cieOffset target s = .ok s') :
    r.size ≤ s.table.ehFrame ∧ s' = { s with
      relocations := s.relocations.dropWhile fun rel => rel.offset < r.stop
      outputPos := s.outputPos + r.size
      table := { s.table with
        ehFrame := s.table.ehFrame - r.size
        written := s.table.written ++ [⟨i, r.start, s.table.ehFrameStartAddress + s.outputPos,
          entryOut data r cieOffset, target⟩] } } := by
  unfold keepEntry at h
  obtain ⟨table, htake, h⟩ := bind_ok_iff.mp h
  obtain ⟨hle, rfl⟩ := takeEhFrameData_eq htake
  exact ⟨hle, (ok.inj h).symm⟩

/-- What holds in the middle of a section, after the entries `before`. -/
structure WriteInv (env : WriterEnv) (i : Nat) (tw : TableWriter) (o : Nat) (s : WriteState)
    (before : List Record) (done : List (Nat × Nat)) (log : List WrittenEntry) : Prop where
  entries : EhFrame.entries (env.file.data i) = before
    ++ records (entryFormat (env.file.data i)) (env.file.data i).length o
  relocations : s.relocations = relsFrom (env.file.relocations i).rels o
  cies : s.ciesOffsetConversion = offsetConversion done
  map : CieMap (env.file.data i) i tw.ehFrameStartAddress log before done o s.outputPos
  logged : Logged env i log before
  ehFrame : s.table.ehFrame + s.outputPos = tw.ehFrame
  outputPos : s.outputPos = cieBytes (env.file.data i) before
    + ((keptIn env i before).map Record.size).sum
  ehFrameHdr : s.table.ehFrameHdr
    = tw.ehFrameHdr - ehFrameHdrEntrySize * (keptIn env i before).length
  start : s.table.ehFrameStartAddress = tw.ehFrameStartAddress
  written : s.table.written = tw.written ++ log

theorem cieBytes_append (data : Bytes) (l₁ l₂ : List Record) :
    cieBytes data (l₁ ++ l₂) = cieBytes data l₁ + cieBytes data l₂ := by
  rw [cieBytes, filter_append, map_append, sum_append]
  rfl

section

variable {env : WriterEnv} {i : Nat} {tw : TableWriter} {o : Nat} {s s' : WriteState}
  {before : List Record} {done : List (Nat × Nat)} {log : List WrittenEntry}

theorem writeCie_step
    (hsorted : (env.file.relocations i).rels.Pairwise fun a b => a.offset ≤ b.offset)
    (hfits : o + prefixLen ≤ (env.file.data i).length ∧
      o + (entryFormat (env.file.data i)).sizeAt o ≤ (env.file.data i).length)
    (hcie : isCie (env.file.data i) ((entryFormat (env.file.data i)).recordAt o) = true)
    (hinv : WriteInv env i tw o s before done log)
    (h : writeCie i (env.file.data i) ((entryFormat (env.file.data i)).recordAt o) s = .ok s') :
    ∃ before' done' log', WriteInv env i tw (o + (entryFormat (env.file.data i)).sizeAt o) s'
      before' done' log' := by
  obtain ⟨hroom, hs'⟩ := keepEntry_eq h
  rw [Format.recordAt_size] at hroom hs'
  subst hs'
  simp only at hroom
  have hmem : (entryFormat (env.file.data i)).recordAt o ∈ entries (env.file.data i) := by
    rw [hinv.entries, records_of_fits hfits]
    exact mem_append_right _ mem_cons_self
  have hkept : keptIn env i (before ++ [(entryFormat (env.file.data i)).recordAt o]) = _ :=
    keptIn_append before _
  rw [keptIn_singleton_cie hcie, append_nil] at hkept
  have hbytes : cieBytes (env.file.data i) (before ++ [(entryFormat (env.file.data i)).recordAt o])
      = cieBytes (env.file.data i) before + (entryFormat (env.file.data i)).sizeAt o := by
    rw [cieBytes_append, cieBytes, cieBytes, filter_cons_of_pos hcie]
    simp
  have hmap := hinv.map.cie hmem hcie rfl ((entryFormat (env.file.data i)).pos o)
  have hlogged := hinv.logged.cie hcie (w := ⟨i, o, tw.ehFrameStartAddress + s.outputPos,
    entryOut (env.file.data i) ((entryFormat (env.file.data i)).recordAt o) none, none⟩) rfl rfl
  refine ⟨_, _, _, ⟨?_, ?_, ?_, hmap, hlogged, ?_, ?_, ?_, hinv.start, ?_⟩⟩
  · rw [hinv.entries, records_of_fits hfits, List.append_assoc]
    rfl
  · simp only [hinv.relocations]
    exact dropWhile_relsFrom hsorted (Nat.le_add_right o _)
  · simp only [hinv.cies]
    rfl
  · have := hinv.ehFrame
    simp only
    omega
  · have := hinv.outputPos
    simp only [hkept, hbytes]
    omega
  · rw [hkept]
    exact hinv.ehFrameHdr
  · simp only [hinv.written, hinv.start, List.append_assoc]
    rfl

theorem writeFde_step
    (hsorted : (env.file.relocations i).rels.Pairwise fun a b => a.offset ≤ b.offset)
    (hfits : o + prefixLen ≤ (env.file.data i).length ∧
      o + (entryFormat (env.file.data i)).sizeAt o ≤ (env.file.data i).length)
    (hfde : isCie (env.file.data i) ((entryFormat (env.file.data i)).recordAt o) = false)
    (hinv : WriteInv env i tw o s before done log)
    (h : writeFde env i (env.file.data i) ((entryFormat (env.file.data i)).recordAt o) s
      = .ok s') :
    ∃ before' done' log', WriteInv env i tw (o + (entryFormat (env.file.data i)).sizeAt o) s'
      before' done' log' := by
  unfold writeFde at h
  obtain ⟨target, htarget, h⟩ := bind_ok_iff.mp h
  rw [hinv.relocations] at htarget
  have hspec := (fdeTarget_spec rfl hsorted htarget).1
  have hentries : entries (env.file.data i)
      = before ++ [(entryFormat (env.file.data i)).recordAt o]
        ++ records (entryFormat (env.file.data i)) (env.file.data i).length
          (o + (entryFormat (env.file.data i)).sizeAt o) := by
    rw [hinv.entries, records_of_fits hfits, List.append_assoc]
    rfl
  have hrelocations := dropWhile_relsFrom hsorted
    (Nat.le_add_right o ((entryFormat (env.file.data i)).sizeAt o))
  have hbytes : cieBytes (env.file.data i) (before ++ [(entryFormat (env.file.data i)).recordAt o])
      = cieBytes (env.file.data i) before := by
    rw [cieBytes_append, cieBytes, cieBytes, filter_cons_of_neg (by simp [hfde])]
    rfl
  have hkept : keptIn env i (before ++ [(entryFormat (env.file.data i)).recordAt o]) = _ :=
    keptIn_append before _
  rw [keptIn_singleton hfde] at hkept
  cases target with
  | none =>
    have hnot : kept env ⟨i, (entryFormat (env.file.data i)).recordAt o⟩ = false := by
      cases hk : kept env ⟨i, (entryFormat (env.file.data i)).recordAt o⟩ with
      | false => rfl
      | true =>
        rw [hk, if_pos rfl] at hspec
        rw [kept, rels, ← hspec] at hk
        cases hk
    rw [hnot, if_neg Bool.false_ne_true, append_nil] at hkept
    have hmap := hinv.map.fde hfde (Nat.zero_le ((entryFormat (env.file.data i)).sizeAt o)) []
    rw [append_nil] at hmap
    have hlogged := hinv.logged.skip (r := (entryFormat (env.file.data i)).recordAt o)
      (by rw [keptIn_singleton hfde, hnot, if_neg Bool.false_ne_true])
    rw [← ok.inj h]
    refine ⟨_, _, _, ⟨hentries, ?_, hinv.cies, hmap, hlogged, hinv.ehFrame, ?_, ?_, hinv.start,
      hinv.written⟩⟩
    · rw [← hrelocations, ← hinv.relocations]
      rfl
    · rw [hbytes, hkept]
      exact hinv.outputPos
    · rw [hkept]
      exact hinv.ehFrameHdr
  | some target =>
    obtain ⟨inputPos, hinputPos, h⟩ := bind_ok_iff.mp h
    obtain ⟨table, htable, h⟩ := bind_ok_iff.mp h
    obtain ⟨cieOffset, hoffset, h⟩ := bind_ok_iff.mp h
    obtain ⟨hehFrame, hehFrameHdr, hstart, hwritten⟩ := writeHdrEntry_eq htable
    obtain ⟨hroom, hs'⟩ := keepEntry_eq h
    rw [Format.recordAt_size] at hroom hs'
    subst hs'
    simp only at hroom
    have hk : kept env ⟨i, (entryFormat (env.file.data i)).recordAt o⟩ = true := by
      cases hk : kept env ⟨i, (entryFormat (env.file.data i)).recordAt o⟩ with
      | true => rfl
      | false =>
        rw [hk, if_neg Bool.false_ne_true] at hspec
        cases hspec
    rw [hk, if_pos rfl] at hspec hkept
    rw [hinv.cies] at hoffset
    have hpointer := hinv.map.pointsToCie hinv.entries hfits hfde hinputPos hoffset
      (some target.sectionIndex)
    have hlogged := hinv.logged.fde hfde hk rfl hspec hpointer
    have hmap := hinv.map.fde hfde (Nat.le_refl ((entryFormat (env.file.data i)).sizeAt o))
      [⟨i, o, tw.ehFrameStartAddress + s.outputPos,
        entryOut (env.file.data i) ((entryFormat (env.file.data i)).recordAt o) (some cieOffset),
        some target.sectionIndex⟩]
    refine ⟨_, _, _, ⟨hentries, ?_, hinv.cies, hmap, hlogged, ?_, ?_, ?_, ?_, ?_⟩⟩
    · rw [← hrelocations, ← hinv.relocations]
      rfl
    · have := hinv.ehFrame
      simp only
      omega
    · have := hinv.outputPos
      rw [hbytes, hkept, map_append, sum_append]
      simp only [map_cons, map_nil, sum_cons, sum_nil, Format.recordAt_size]
      omega
    · have := hinv.ehFrameHdr
      rw [hkept, length_append, length_singleton, Nat.mul_add]
      simp only [hehFrameHdr]
      omega
    · exact hstart.trans hinv.start
    · simp only [hwritten, hinv.written, hstart, hinv.start, List.append_assoc]
      rfl

end

/-- What a run over one or more sections has taken and written: `fixed` bytes and the FDEs `kept`,
and the entries `log`. -/
structure Consumed (tw tw' : TableWriter) (bytes frames : Nat) (log : List WrittenEntry) : Prop where
  ehFrame : tw.ehFrame = tw'.ehFrame + bytes
  ehFrameHdr : tw'.ehFrameHdr = tw.ehFrameHdr - ehFrameHdrEntrySize * frames
  written : tw'.written = tw.written ++ log

/-- The FDEs of a section that are kept. -/
def keptFdes (env : WriterEnv) (i : Nat) : List Fde :=
  (fdesOf env.file i).filter (kept env)

theorem keptFdes_eq (env : WriterEnv) (i : Nat) :
    keptFdes env i = (keptIn env i (entries (env.file.data i))).map (mk i) := by
  rw [keptFdes, fdesOf, List.filter_map, keptIn, List.filter_filter]
  congr 1
  exact filter_congr fun r _ => Bool.and_comm _ _

def keptSizes (fdes : List Fde) : Nat := (fdes.map fun fde => fde.record.size).sum

section

variable {env : WriterEnv} {i : Nat} {tw tw' : TableWriter}

/-- **A section in the output.** -/
theorem writeEhFrameRelocations_spec
    (hsorted : (env.file.relocations i).rels.Pairwise fun a b => a.offset ≤ b.offset)
    (h : writeEhFrameRelocations env i (env.file.data i) (env.file.relocations i).rels tw
      = .ok tw') :
    ∃ log, Consumed tw tw' (fixedBytes env.file i + keptSizes (keptFdes env i))
        (keptFdes env i).length log ∧
      Logged env i log (entries (env.file.data i)) := by
  unfold writeEhFrameRelocations at h
  obtain ⟨⟨inputPos, s⟩, hwalk, h⟩ := bind_ok_iff.mp h
  obtain ⟨hfold, hinputPos, hend⟩ := (walk_eq_ok_iff _ _ _ _ _ _).mp hwalk
  have hfirst : WriteInv env i tw 0 ⟨(env.file.relocations i).rels, 0, [], tw⟩ [] [] [] := by
    refine ⟨rfl, ?_, rfl, ⟨List.Pairwise.nil, ?_, ?_, ?_⟩, ⟨?_, ?_, ?_, ?_⟩, rfl, rfl, rfl, rfl, ?_⟩
    · exact (filter_eq_self.mpr fun rel _ => by simp).symm
    · exact fun p hp => absurd hp not_mem_nil
    · exact fun p hp => absurd hp not_mem_nil
    · exact fun r hr => absurd hr not_mem_nil
    · exact fun w hw => absurd hw not_mem_nil
    · exact fun w hw => absurd hw not_mem_nil
    · exact fun w hw => absurd hw not_mem_nil
    · exact fun r hr => absurd hr not_mem_nil
    · exact (append_nil _).symm
  obtain ⟨before, done, log, hinv⟩ := foldlM_records
    (P := fun o s => ∃ before done log, WriteInv env i tw o s before done log)
    (fun o s s' hheader hsize hP hstep => by
      obtain ⟨before, done, log, hinv⟩ := hP
      unfold writeEntry at hstep
      split at hstep
      · next hcie =>
        exact writeCie_step hsorted ⟨hheader, hsize⟩ (by simpa [isCie] using hcie) hinv hstep
      · next hfde =>
        exact writeFde_step hsorted ⟨hheader, hsize⟩ (by simpa [isCie] using hfde) hinv hstep)
    ⟨[], [], [], hfirst⟩ hfold
  rw [← hinputPos] at hinv
  have hnone : records (entryFormat (env.file.data i)) (env.file.data i).length inputPos = [] := by
    rw [records, dif_neg]
    intro hfits
    exact absurd hfits.1 (Nat.not_le.mpr hend)
  have hall := hinv.entries
  rw [hnone, append_nil] at hall
  have htail : tailBytes (env.file.data i) = (env.file.data i).length - inputPos := by
    rw [tailBytes, hinputPos]
  have hkept := keptFdes_eq env i
  rw [hall] at hkept
  have hsizes : keptSizes (keptFdes env i) = ((keptIn env i before).map Record.size).sum := by
    rw [hkept, keptSizes, List.map_map]
    rfl
  have hlength : (keptFdes env i).length = (keptIn env i before).length := by
    rw [hkept, length_map]
  have hout := hinv.outputPos
  have hroom := hinv.ehFrame
  obtain ⟨hrest, hhdr, hwritten⟩ := writeRemaining_eq h
  refine ⟨log, ⟨?_, ?_, ?_⟩, ?_⟩
  · simp only [fixedBytes, hall, hsizes]
    omega
  · rw [hlength, ← hinv.ehFrameHdr]
    exact hhdr
  · rw [← hinv.written]
    exact hwritten
  · rw [hall]
    exact hinv.logged

end

/-! ## 5. A run over an object -/

section

variable {env : WriterEnv}

theorem Consumed.trans {tw₁ tw₂ tw₃ : TableWriter} {bytes₁ bytes₂ frames₁ frames₂ : Nat}
    {log₁ log₂ : List WrittenEntry} (h₁ : Consumed tw₁ tw₂ bytes₁ frames₁ log₁)
    (h₂ : Consumed tw₂ tw₃ bytes₂ frames₂ log₂) :
    Consumed tw₁ tw₃ (bytes₁ + bytes₂) (frames₁ + frames₂) (log₁ ++ log₂) := by
  refine ⟨?_, ?_, ?_⟩
  · rw [h₁.ehFrame, h₂.ehFrame]
    omega
  · rw [h₂.ehFrameHdr, h₁.ehFrameHdr, Nat.mul_add]
    omega
  · rw [h₂.written, h₁.written, List.append_assoc]

/-- The FDEs in some sections that are kept. -/
theorem filter_flatMap_fdesOf (l : List Nat) :
    (l.flatMap (fdesOf env.file)).filter (kept env) = l.flatMap (keptFdes env) := by
  induction l with
  | nil => rfl
  | cons i l ih =>
    rw [flatMap_cons, filter_append, ih, flatMap_cons]
    rfl

/-- What the log says of several sections. -/
structure ObjectLogged (env : WriterEnv) (l : List Nat) (log : List WrittenEntry) : Prop where
  pointers : ∀ w ∈ log, w.targetSectionIndex ≠ none →
    PointsToCie (env.file.data w.ehFrameSectionIndex) log w
  targets : ∀ w ∈ log, ∀ j, w.targetSectionIndex = some j → ∃ fde ∈ l.flatMap (keptFdes env),
    writerSection env.file (fde.rels env.file) fde.record = some j
  kept : ∀ fde ∈ l.flatMap (keptFdes env), ∃ w ∈ log,
    w.targetSectionIndex = writerSection env.file (fde.rels env.file) fde.record

theorem PointsToCie.append_left {data : Bytes} {log : List WrittenEntry} {w : WrittenEntry}
    (h : PointsToCie data log w) (more : List WrittenEntry) :
    PointsToCie data (more ++ log) w := by
  refine ⟨fun r hr hcie heq => ?_, h.exists_cie⟩
  obtain ⟨address, ⟨v, hv, hcopy⟩, hpointer⟩ := h.copy r hr hcie heq
  exact ⟨address, ⟨v, mem_append_right more hv, hcopy⟩, hpointer⟩

theorem ObjectLogged.cons {i : Nat} {l : List Nat} {log log' : List WrittenEntry}
    (h : Logged env i log (entries (env.file.data i))) (h' : ObjectLogged env l log') :
    ObjectLogged env (i :: l) (log ++ log') := by
  refine ⟨fun w hw hne => ?_, fun w hw j hj => ?_, fun fde hfde => ?_⟩
  · rcases mem_append.mp hw with hw | hw
    · rw [h.index w hw]
      exact (h.pointers w hw hne).append _
    · exact (h'.pointers w hw hne).append_left _
  · rw [flatMap_cons]
    rcases mem_append.mp hw with hw | hw
    · obtain ⟨r, hr, htarget⟩ := h.targets w hw j hj
      refine ⟨⟨i, r⟩, mem_append_left _ ?_, htarget⟩
      rw [keptFdes_eq]
      exact List.mem_map_of_mem hr
    · obtain ⟨fde, hfde, htarget⟩ := h'.targets w hw j hj
      exact ⟨fde, mem_append_right _ hfde, htarget⟩
  · rw [flatMap_cons, mem_append] at hfde
    rcases hfde with hfde | hfde
    · rw [keptFdes_eq] at hfde
      obtain ⟨r, hr, rfl⟩ := mem_map.mp hfde
      obtain ⟨w, hw, htarget⟩ := h.kept r hr
      exact ⟨w, mem_append_left _ hw, htarget⟩
    · obtain ⟨w, hw, htarget⟩ := h'.kept fde hfde
      exact ⟨w, mem_append_right _ hw, htarget⟩

theorem foldlM_writeEhFrameRelocations {l : List Nat}
    (hsorted : ∀ i ∈ l, (env.file.relocations i).rels.Pairwise fun a b => a.offset ≤ b.offset) :
    ∀ {tw tw' : TableWriter},
    l.foldlM (fun tw i => writeEhFrameRelocations env i (env.file.data i)
      (env.file.relocations i).rels tw) tw = .ok tw' →
    ∃ log, Consumed tw tw' ((l.map (fixedBytes env.file)).sum
        + keptSizes (l.flatMap (keptFdes env))) (l.flatMap (keptFdes env)).length log ∧
      ObjectLogged env l log := by
  induction l with
  | nil =>
    intro tw tw' h
    rw [← ok.inj h]
    refine ⟨[], ⟨rfl, rfl, (append_nil _).symm⟩, ?_, ?_, ?_⟩
    · exact fun w hw => absurd hw not_mem_nil
    · exact fun w hw => absurd hw not_mem_nil
    · exact fun fde hfde => absurd hfde not_mem_nil
  | cons i l ih =>
    intro tw tw' h
    rw [foldlM_cons] at h
    obtain ⟨next, hnext, h⟩ := bind_ok_iff.mp h
    obtain ⟨log, hconsumed, hlogged⟩ :=
      writeEhFrameRelocations_spec (hsorted i mem_cons_self) hnext
    obtain ⟨log', hconsumed', hlogged'⟩ := ih (fun j hj => hsorted j (mem_cons_of_mem _ hj)) h
    refine ⟨log ++ log', ?_, ObjectLogged.cons hlogged hlogged'⟩
    have htrans := hconsumed.trans hconsumed'
    rw [map_cons, sum_cons, flatMap_cons, length_append, keptSizes,
      map_append, sum_append]
    refine ⟨?_, htrans.ehFrameHdr, htrans.written⟩
    rw [htrans.ehFrame, keptSizes, keptSizes]
    omega

/-- **An object in the output.** -/
theorem writeObject_spec {tw tw' : TableWriter}
    (hsorted : SortedRelocations env.file env.sections) (h : writeObject env tw = .ok tw') :
    ∃ log, Consumed tw tw' (((frameSections env.sections).map (fixedBytes env.file)).sum
        + keptSizes ((objectFdes env.file env.sections).filter (kept env)))
        ((objectFdes env.file env.sections).filter (kept env)).length log ∧
      ObjectLogged env (frameSections env.sections) log := by
  rw [objectFdes, filter_flatMap_fdesOf]
  exact foldlM_writeEhFrameRelocations hsorted h

end

end Srs.EhFrame
