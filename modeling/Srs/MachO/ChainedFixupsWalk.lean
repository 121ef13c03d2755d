/-
# dyld reaches every chained slot once

A chain is never stored: it is what comes of the page starts in the table and the distances beside
the pointers.  That both sides mean the same slots has three parts.

* A slot is decoded to what was encoded, its distance and its pointer (`encodeChainedRebase_spec`,
  `encodeChainedBind_spec`).
* The distances lead from each slot to the next one of its page and no further
  (`nextStride_spec`), so from any slot on the walk visits the rest of its page
  (`walkChain_slots`).
* The page starts are the first slots of their pages (`foldl_enter_sorted`), so the pages together
  are all slots in order (`walkFixups_slots`).

The last page of a chain is where the two sides could disagree: a distance is cut at the end of a
page of addresses, a page start counts from the start of the segment.  They agree because the
layout starts `__DATA` at a page.  Slots that overlap would write into each other's distances; that
they do not is what the theorem asks of the relocations.
-/
import Srs.Lib.SortedGroups
import Srs.MachO.ChainedFixups

namespace Srs.MachO

open Buffers List Option ChainedRebases Nat Except
open Output (OutputRecordLayout)

/-! ## 1. One slot -/

theorem or_shiftLeft {a b k : Nat} (h : a < 2 ^ k) : a ||| (b <<< k) = a + b * 2 ^ k := by
  rw [Nat.or_comm, ← Nat.shiftLeft_add_eq_or_of_lt h, Nat.shiftLeft_eq, Nat.add_comm]

theorem decodeNext_eq (word : Nat) : decodeNext word = word / 2 ^ 51 % 2 ^ 12 := by
  rw [decodeNext, shiftRight_eq_div_pow]
  exact and_two_pow_sub_one_eq_mod _ 12

theorem decodePointer_eq (word : Nat) : decodePointer word =
    if word / 2 ^ 63 = 1 then .bind (word % 2 ^ 24) (word / 2 ^ 24 % 2 ^ 8)
    else .rebase (word % 2 ^ 36) (word / 2 ^ 36 % 2 ^ 8) := by
  have h24 : word &&& 0xffffff = word % 2 ^ 24 := and_two_pow_sub_one_eq_mod _ 24
  have h36 : word &&& 0xfffffffff = word % 2 ^ 36 := and_two_pow_sub_one_eq_mod _ 36
  have h8 : ∀ n, n &&& 0xff = n % 2 ^ 8 := fun n => and_two_pow_sub_one_eq_mod n 8
  simp only [decodePointer, h24, h36, h8, shiftRight_eq_div_pow]

variable {value stride slot : Nat} {out : Bytes} {base : Nat} {out' : Bytes} {slots : List Nat}

/-- What a rebase slot holds. -/
theorem encodeChainedRebase_spec {word : Nat} (hvalue : value < 2 ^ 64)
    (h : encodeChainedRebase value stride = .ok word) :
    word < 2 ^ 64 ∧ decodeNext word = stride ∧ decodePointer word
      = .rebase (value % 2 ^ 56 - MACHO_START_MEM_ADDRESS) (value / 2 ^ 56) := by
  have hmask : value &&& ((1 <<< 56) - 1) = value % 2 ^ 56 :=
    and_two_pow_sub_one_eq_mod value 56
  rw [encodeChainedRebase, hmask, shiftRight_eq_div_pow] at h
  obtain ⟨-, -, h⟩ := bind_eq_ok.mp h
  obtain ⟨_, hoffset, h⟩ := bind_eq_ok.mp h
  obtain ⟨_, hstride, h⟩ := bind_eq_ok.mp h
  have hoffset := ensure_eq_ok.mp hoffset
  have hstride := ensure_eq_ok.mp hstride
  cases h
  have hhigh : value / 2 ^ 56 < 2 ^ 8 := by omega
  generalize value % 2 ^ 56 - MACHO_START_MEM_ADDRESS = offset at *
  generalize value / 2 ^ 56 = high at *
  have hoffset : offset < 2 ^ 36 := hoffset
  rw [or_shiftLeft hoffset, or_shiftLeft (by omega), decodeNext_eq, decodePointer_eq,
    if_neg (by omega)]
  refine ⟨by omega, by omega, ?_⟩
  rw [ChainedPointer.rebase.injEq]
  omega

/-- What a bind slot holds. -/
theorem encodeChainedBind_spec {importIndex word : Nat}
    (h : encodeChainedBind importIndex stride = .ok word) :
    word < 2 ^ 64 ∧ decodeNext word = stride ∧ decodePointer word = .bind importIndex 0 := by
  rw [encodeChainedBind] at h
  obtain ⟨_, hindex, h⟩ := bind_eq_ok.mp h
  obtain ⟨_, hstride, h⟩ := bind_eq_ok.mp h
  have hindex : importIndex < 2 ^ 24 := ensure_eq_ok.mp hindex
  have hstride := ensure_eq_ok.mp hstride
  cases h
  have hlow : importIndex ||| (stride <<< 51) = importIndex + stride * 2 ^ 51 :=
    or_shiftLeft (by omega)
  rw [hlow, or_shiftLeft (by omega), decodeNext_eq, decodePointer_eq, if_pos (by omega)]
  refine ⟨by omega, by omega, ?_⟩
  rw [ChainedPointer.bind.injEq]
  omega

/-! ## 2. The chain of a page -/

/-- The page of a slot, counted from the start of the segment. -/
def pageOfSlot (dataStart slot : Nat) : Nat := (slot - dataStart) / MACHO_PAGE_SIZE

/-- The slots of a chain that begins a list of slots. -/
def chainOf (dataStart : Nat) : List Nat → List Nat
  | [] => []
  | slot :: rest =>
    slot :: rest.takeWhile fun other => pageOfSlot dataStart other = pageOfSlot dataStart slot

variable {pre rest : List Nat}

theorem findIdx?_append_cons (h : slot ∉ pre) :
    (pre ++ slot :: rest).findIdx? (· = slot) = some pre.length := by
  rw [findIdx?_append, findIdx?_eq_none_iff.mpr, findIdx?_cons]
  · simp
  · intro other hmem
    simpa using fun heq : other = slot => h (heq ▸ hmem)

/-- **The distance leads to the next slot of the page**, and there is none where it is zero.  The
distance is cut at a page of addresses; this is a page of the segment since the segment starts at
one. -/
theorem nextStride_spec {chained : ChainedRebases}
    {dataStart : Nat} (hdvd : MACHO_PAGE_SIZE ∣ dataStart) (hge : dataStart ≤ slot)
    (hslots : chained.slots = pre ++ slot :: rest) (hsorted : chained.slots.Pairwise (· < ·))
    (h : chained.nextStride slot = .ok stride) :
    (stride = 0 ∧ ∀ other ∈ rest.head?, pageOfSlot dataStart other ≠ pageOfSlot dataStart slot) ∨
      ∃ next rest', rest = next :: rest' ∧ pageOfSlot dataStart next = pageOfSlot dataStart slot ∧
        0 < stride ∧ slot + 4 * stride = next := by
  obtain ⟨page, rfl⟩ := hdvd
  rw [hslots, pairwise_append] at hsorted
  obtain ⟨-, hsuffix, hcross⟩ := hsorted
  have hpre : slot ∉ pre := fun hmem => absurd (hcross slot hmem slot (by simp)) (lt_irrefl _)
  have hget : chained.slots[pre.length + 1]? = rest.head? := by
    rw [hslots, getElem?_append_right (Nat.le_add_right _ _), Nat.add_sub_cancel_left,
      getElem?_cons_succ, head?_eq_getElem?]
  rw [nextStride, hslots, findIdx?_append_cons hpre] at h
  dsimp only at h
  rw [← hslots, hget] at h
  cases rest with
  | nil => exact .inl ⟨(ok.inj h).symm, by simp⟩
  | cons next rest =>
    have hlt : slot < next := (pairwise_cons.mp hsuffix).1 next (by simp)
    dsimp only [head?_cons] at h
    split at h
    · rename_i hge
      refine .inl ⟨(ok.inj h).symm, ?_⟩
      rintro other hother
      cases hother
      rw [pageOfSlot, pageOfSlot]
      rw [MACHO_PAGE_SIZE] at *
      omega
    · rename_i hlt'
      obtain ⟨_, haligned, h⟩ := bind_eq_ok.mp h
      obtain ⟨-, -, h⟩ := bind_eq_ok.mp h
      have haligned := ensure_eq_ok.mp haligned
      cases h
      refine .inr ⟨next, rest, rfl, ?_, by omega, by omega⟩
      rw [pageOfSlot, pageOfSlot]
      rw [MACHO_PAGE_SIZE] at *
      omega

/-- What the segment holds at a slot: the distance to the next slot, and a pointer. -/
def Holds (chained : ChainedRebases) (segment : Bytes) (dataStart slot : Nat)
    (pointer : ChainedPointer) : Prop :=
  ∃ word stride, readLe 8 segment (slot - dataStart) = some word ∧
    chained.nextStride slot = .ok stride ∧ decodeNext word = stride ∧ decodePointer word = pointer

/-- **A walk that enters at a slot visits the rest of its page.** -/
theorem walkChain_slots {chained : ChainedRebases} {segment : Bytes} {dataStart : Nat}
    {pointer : Nat → ChainedPointer} (hdvd : MACHO_PAGE_SIZE ∣ dataStart)
    (hsorted : chained.slots.Pairwise (· < ·)) (hstart : ∀ slot ∈ chained.slots, dataStart ≤ slot)
    (hholds : ∀ slot ∈ chained.slots, Holds chained segment dataStart slot (pointer slot)) :
    ∀ {rest pre : List Nat} {slot : Nat}, chained.slots = pre ++ slot :: rest →
      walkChain segment (slot - dataStart) = some
        ((chainOf dataStart (slot :: rest)).map fun other => (other - dataStart, pointer other)) := by
  intro rest
  induction rest with
  | nil =>
    intro pre slot hslots
    obtain ⟨word, stride, hword, hstride, hnext, hpointer⟩ := hholds slot (by simp [hslots])
    obtain ⟨rfl, -⟩ | ⟨next, rest', hrest, -⟩ := nextStride_spec hdvd (hstart slot (by simp [hslots])) hslots hsorted hstride
    · rw [walkChain]
      split
      · rename_i hnone
        cases hword.symm.trans hnone
      · rename_i word' hword'
        cases hword.symm.trans hword'
        rw [dif_pos hnext, hpointer]
        rfl
    · cases hrest
  | cons next rest ih =>
    intro pre slot hslots
    obtain ⟨word, stride, hword, hstride, hnext, hpointer⟩ := hholds slot (by simp [hslots])
    rw [walkChain]
    split
    · rename_i hnone
      cases hword.symm.trans hnone
    rename_i word' hword'
    cases hword.symm.trans hword'
    obtain ⟨rfl, hpage⟩ | ⟨next', rest', hrest, hpage, hpos, hadd⟩ :=
      nextStride_spec hdvd (hstart slot (by simp [hslots])) hslots hsorted hstride
    · have hother : ¬ pageOfSlot dataStart next = pageOfSlot dataStart slot := hpage next rfl
      rw [dif_pos hnext, hpointer, chainOf, takeWhile_cons_of_neg (by simpa using hother)]
      rfl
    · obtain ⟨rfl, rfl⟩ := cons_eq_cons.mp hrest
      have hslots' : chained.slots = (pre ++ [slot]) ++ next :: rest := by
        rw [hslots, append_assoc, singleton_append]
      have hle := hstart slot (by simp [hslots])
      have hoffset : slot - dataStart + 4 * decodeNext word = next - dataStart := by omega
      rw [dif_neg (by omega), hoffset, ih hslots', hpointer, map_some]
      have hchain : chainOf dataStart (slot :: next :: rest)
          = slot :: chainOf dataStart (next :: rest) := by
        rw [chainOf, takeWhile_cons_of_pos (by simpa using hpage), chainOf, hpage]
      rw [hchain, map_cons]

/-! ## 3. Loops that write words -/

theorem writeWord_eq_ok {n : Nat} {bytes : Bytes} {offset : Nat} :
    writeWord n bytes offset value = .ok out ↔ writeLe n bytes offset value = some out :=
  okOr_eq_ok

/-- A loop that writes one value into words of two bytes, one for each number. -/
theorem foldlM_writeWord_spec : ∀ {indices : List Nat} {out out' : Bytes},
    indices.foldlM (fun out index => writeWord 2 out (base + index * 2) value) out = .ok out' →
      indices.Nodup →
        out'.length = out.length ∧
        (∀ index ∈ indices, readLe 2 out' (base + index * 2) = some (value % 2 ^ 16)) ∧
        ∀ n other, (∀ index ∈ indices, other + n ≤ base + index * 2 ∨ base + index * 2 + 2 ≤ other) →
          readLe n out' other = readLe n out other
  | [], out, out', h, _ => by
    cases h
    exact ⟨rfl, by simp, fun _ _ _ => rfl⟩
  | index :: indices, out, out', h, hnodup => by
    rw [foldlM_cons] at h
    obtain ⟨next, hnext, h⟩ := bind_eq_ok.mp h
    have hnext := writeWord_eq_ok.mp hnext
    obtain ⟨hnotin, hnodup⟩ := nodup_cons.mp hnodup
    obtain ⟨hlen, hread, hframe⟩ := foldlM_writeWord_spec h hnodup
    refine ⟨hlen.trans (length_writeLe hnext), ?_, ?_⟩
    · intro other hother
      rcases mem_cons.mp hother with rfl | hother
      · rw [hframe 2 _ fun i hi => ?_, readLe_writeLe hnext]
        have hne : i ≠ other := fun heq => hnotin (heq ▸ hi)
        omega
      · exact hread other hother
    · intro n other hapart
      rw [hframe n other fun i hi => hapart i (mem_cons_of_mem _ hi),
        readLe_of_apart hnext (hapart index (by simp))]

/-- The starts of the pages after a slot was entered. -/
def enter (dataStart : Nat) (starts : Nat → Nat) (slot page : Nat) : Nat :=
  if page = (slot - dataStart) / MACHO_PAGE_SIZE
      ∧ (starts page = DYLD_CHAINED_PTR_START_NONE
        ∨ (slot - dataStart) % MACHO_PAGE_SIZE < starts page)
  then (slot - dataStart) % MACHO_PAGE_SIZE else starts page

theorem enterSlot_spec {dataStart dataFileSize count : Nat} {starts : Nat → Nat}
    (h : enterSlot dataStart dataFileSize base out slot = .ok out')
    (hstarts : ∀ page < count, readLe 2 out (base + page * 2) = some (starts page))
    (hcount : (slot - dataStart) / MACHO_PAGE_SIZE < count) :
    dataStart ≤ slot ∧ slot - dataStart + 8 ≤ dataFileSize ∧ out'.length = out.length ∧
      (∀ page < count, readLe 2 out' (base + page * 2) = some (enter dataStart starts slot page)) ∧
      ∀ n other, other + n ≤ base ∨ base + count * 2 ≤ other →
        readLe n out' other = readLe n out other := by
  rw [enterSlot] at h
  obtain ⟨_, hle, h⟩ := bind_eq_ok.mp h
  obtain ⟨_, hfile, h⟩ := bind_eq_ok.mp h
  obtain ⟨current, hcurrent, h⟩ := bind_eq_ok.mp h
  have hcurrent := (okOr_eq_ok.mp hcurrent).symm.trans (hstarts _ hcount)
  cases hcurrent
  refine ⟨ensure_eq_ok.mp hle, ensure_eq_ok.mp hfile, ?_⟩
  split at h
  · rename_i hsmaller
    have hwrite := writeWord_eq_ok.mp h
    refine ⟨length_writeLe hwrite, ?_, ?_⟩
    · intro page hpage
      by_cases heq : page = (slot - dataStart) / MACHO_PAGE_SIZE
      · rw [heq, readLe_writeLe hwrite, enter, if_pos ⟨rfl, hsmaller⟩]
        have hlt : (slot - dataStart) % MACHO_PAGE_SIZE < MACHO_PAGE_SIZE :=
          mod_lt _ (by decide)
        rw [mod_eq_of_lt (hlt.trans (by decide))]
      · rw [enter, if_neg fun hand => heq hand.1, readLe_of_apart hwrite (by omega)]
        exact hstarts page hpage
    · intro n other hapart
      exact readLe_of_apart hwrite (by omega)
  · rename_i hnot
    cases h
    refine ⟨rfl, fun page hpage => ?_, fun _ _ _ => rfl⟩
    rw [enter, if_neg]
    · exact hstarts page hpage
    · rintro ⟨rfl, hsmaller⟩
      exact hnot hsmaller

theorem foldlM_enterSlot_spec {dataStart dataFileSize count : Nat} :
    ∀ {slots : List Nat} {starts : Nat → Nat} {out out' : Bytes},
      slots.foldlM (enterSlot dataStart dataFileSize base) out = .ok out' →
        (∀ page < count, readLe 2 out (base + page * 2) = some (starts page)) →
          (∀ slot ∈ slots, (slot - dataStart) / MACHO_PAGE_SIZE < count) →
            (∀ slot ∈ slots, dataStart ≤ slot ∧ slot - dataStart + 8 ≤ dataFileSize) ∧
            out'.length = out.length ∧
            (∀ page < count, readLe 2 out' (base + page * 2)
              = some (slots.foldl (enter dataStart) starts page)) ∧
            ∀ n other, other + n ≤ base ∨ base + count * 2 ≤ other →
              readLe n out' other = readLe n out other
  | [], starts, out, out', h, hstarts, _ => by
    cases h
    exact ⟨by simp, rfl, hstarts, fun _ _ _ => rfl⟩
  | slot :: slots, starts, out, out', h, hstarts, hcount => by
    rw [foldlM_cons] at h
    obtain ⟨next, hnext, h⟩ := bind_eq_ok.mp h
    obtain ⟨hle, hfile, hlen, hread, hframe⟩ :=
      enterSlot_spec hnext hstarts (hcount slot (by simp))
    obtain ⟨hrest, hlen', hread', hframe'⟩ :=
      foldlM_enterSlot_spec h hread fun s hs => hcount s (mem_cons_of_mem _ hs)
    refine ⟨forall_mem_cons.mpr ⟨⟨hle, hfile⟩, hrest⟩, hlen'.trans hlen, hread', ?_⟩
    intro n other hapart
    rw [hframe' n other hapart, hframe n other hapart]

/-- The start of a page: the first of its slots, or none. -/
def pageStart (dataStart : Nat) (slots : List Nat) (page : Nat) : Nat :=
  match slots.filter fun slot => (slot - dataStart) / MACHO_PAGE_SIZE = page with
  | [] => DYLD_CHAINED_PTR_START_NONE
  | first :: _ => (first - dataStart) % MACHO_PAGE_SIZE

/-- A start that is not larger than what is still to come stays. -/
theorem foldl_enter_of_le {dataStart page : Nat} : ∀ {slots : List Nat} {starts : Nat → Nat},
    starts page ≠ DYLD_CHAINED_PTR_START_NONE →
      (∀ slot ∈ slots, (slot - dataStart) / MACHO_PAGE_SIZE = page →
        starts page ≤ (slot - dataStart) % MACHO_PAGE_SIZE) →
        slots.foldl (enter dataStart) starts page = starts page
  | [], _, _, _ => rfl
  | slot :: slots, starts, hne, hle => by
    have hsame : enter dataStart starts slot page = starts page := by
      rw [enter, if_neg]
      rintro ⟨hpage, hnone | hlt⟩
      · exact hne hnone
      · exact absurd (hle slot (by simp) hpage.symm) (not_le.mpr hlt)
    rw [foldl_cons, foldl_enter_of_le (hsame ▸ hne), hsame]
    intro s hs hpage
    rw [hsame]
    exact hle s (mem_cons_of_mem _ hs) hpage

/-- **The start of a page is the first of its slots.** -/
theorem foldl_enter_sorted {dataStart page : Nat} : ∀ {slots : List Nat} {starts : Nat → Nat},
    slots.Pairwise (· < ·) → (∀ slot ∈ slots, dataStart ≤ slot) →
      starts page = DYLD_CHAINED_PTR_START_NONE →
        slots.foldl (enter dataStart) starts page = pageStart dataStart slots page
  | [], _, _, _, hnone => hnone
  | slot :: slots, starts, hsorted, hstart, hnone => by
    obtain ⟨hfirst, hrest⟩ := pairwise_cons.mp hsorted
    rw [foldl_cons]
    by_cases hpage : (slot - dataStart) / MACHO_PAGE_SIZE = page
    · have hentered : enter dataStart starts slot page = (slot - dataStart) % MACHO_PAGE_SIZE := by
        rw [enter, if_pos ⟨hpage.symm, .inl hnone⟩]
      have hlt : (slot - dataStart) % MACHO_PAGE_SIZE < MACHO_PAGE_SIZE := mod_lt _ (by decide)
      have hne : enter dataStart starts slot page ≠ DYLD_CHAINED_PTR_START_NONE := by
        rw [hentered]
        exact Nat.ne_of_lt (hlt.trans (by decide))
      rw [foldl_enter_of_le hne, hentered, pageStart, filter_cons_of_pos (by simpa using hpage)]
      intro s hs hs'
      have hlt := hfirst s hs
      have hdiv := div_add_mod (slot - dataStart) MACHO_PAGE_SIZE
      have hdiv' := div_add_mod (s - dataStart) MACHO_PAGE_SIZE
      rw [hpage] at hdiv
      rw [hs'] at hdiv'
      have := hstart slot (by simp)
      omega
    · have hsame : enter dataStart starts slot page = starts page := by
        rw [enter, if_neg fun hand => hpage hand.1.symm]
      rw [foldl_enter_sorted hrest (fun s hs => hstart s (mem_cons_of_mem _ hs))
        (hsame.trans hnone), pageStart, pageStart, filter_cons_of_neg (by simpa using hpage)]

/-! ## 4. The table -/

theorem writeTableHeader_spec {importCount : Nat}
    (h : writeTableHeader out importCount = .ok out') :
    out'.length = out.length ∧ readLe 4 out' 4 = some 32 ∧ readLe 4 out' 44 = some 0 := by
  rw [writeTableHeader] at h
  obtain ⟨out₁, h₁, h⟩ := bind_eq_ok.mp h
  obtain ⟨out₂, h₂, h⟩ := bind_eq_ok.mp h
  obtain ⟨out₃, h₃, h⟩ := bind_eq_ok.mp h
  obtain ⟨out₄, h₄, h⟩ := bind_eq_ok.mp h
  obtain ⟨out₅, h₅, h⟩ := bind_eq_ok.mp h
  obtain ⟨out₆, h₆, h⟩ := bind_eq_ok.mp h
  have hrange : range DEFAULT_SEGMENT_COUNT = [0, 1, 2, 3] := rfl
  rw [hrange] at h
  obtain ⟨out₇, h₇, h⟩ := bind_eq_ok.mp h
  obtain ⟨out₈, h₈, h⟩ := bind_eq_ok.mp h
  obtain ⟨out₉, h₉, h⟩ := bind_eq_ok.mp h
  obtain ⟨out₁₀, h₁₀, h⟩ := bind_eq_ok.mp h
  cases h
  simp only [writeWord_eq_ok, startsOffset] at h₁ h₂ h₃ h₄ h₅ h₆ h₇ h₈ h₉ h₁₀
  refine ⟨?_, ?_, ?_⟩
  · rw [length_writeLe h₁₀, length_writeLe h₉, length_writeLe h₈, length_writeLe h₇,
      length_writeLe h₆, length_writeLe h₅, length_writeLe h₄, length_writeLe h₃,
      length_writeLe h₂, length_writeLe h₁]
  · rw [readLe_of_apart h₁₀ (by omega), readLe_of_apart h₉ (by omega), readLe_of_apart h₈ (by omega),
      readLe_of_apart h₇ (by omega), readLe_of_apart h₆ (by omega), readLe_of_apart h₅ (by omega),
      readLe_of_apart h₄ (by omega), readLe_of_apart h₃ (by omega), readLe_writeLe h₂]
    rfl
  · rw [readLe_of_apart h₁₀ (by omega)]
    exact readLe_writeLe h₉

/-- What the part of the table for `__DATA` says once it is written. -/
structure SegmentInfoReads (table : Bytes) (dataStart : Nat) (slots : List Nat) (pageCount : Nat) :
    Prop where
  starts : readLe 4 table 4 = some 32
  infoOffset : readLe 4 table 44 = some 24
  pageSize : readLe 2 table 60 = some MACHO_PAGE_SIZE
  pageCount_eq : readLe 2 table 76 = some pageCount
  pageStarts : ∀ page < pageCount,
    readLe 2 table (78 + page * 2) = some (pageStart dataStart slots page)

/-- It depends on the first bytes of the table only. -/
theorem SegmentInfoReads.congr {table table' : Bytes} {dataStart pageCount : Nat}
    (h : SegmentInfoReads table dataStart slots pageCount)
    (hsame : ∀ n other, (other + n ≤ 8 ∨ 16 ≤ other) →
      other + n ≤ segmentInfoStart + segmentInfoSize pageCount →
        readLe n table' other = readLe n table other) :
    SegmentInfoReads table' dataStart slots pageCount := by
  have hsize : 22 + 2 * pageCount ≤ segmentInfoSize pageCount := by
    rw [segmentInfoSize, nextMultipleOf]
    omega
  have hstart : segmentInfoStart = 56 := rfl
  refine ⟨?_, ?_, ?_, ?_, fun page hpage => ?_⟩
  · rw [hsame _ _ (by omega) (by omega), h.starts]
  · rw [hsame _ _ (by omega) (by omega), h.infoOffset]
  · rw [hsame _ _ (by omega) (by omega), h.pageSize]
  · rw [hsame _ _ (by omega) (by omega), h.pageCount_eq]
  · rw [hsame _ _ (by omega) (by omega), h.pageStarts page hpage]

variable {lastSlot : Nat}

theorem writeSegmentInfo_spec {data : OutputRecordLayout}
    (h : writeSegmentInfo data slots lastSlot out = .ok out')
    (hstarts : readLe 4 out 4 = some 32) (hsorted : slots.Pairwise (· < ·))
    (hlast : ∀ slot ∈ slots, slot ≤ lastSlot) :
    out'.length = out.length ∧
      (∀ slot ∈ slots, data.memOffset ≤ slot ∧ slot - data.memOffset + 8 ≤ data.fileSize) ∧
      chainedFixupPageCount data.memOffset lastSlot ≤ 0xffff ∧
      SegmentInfoReads out' data.memOffset slots
        (chainedFixupPageCount data.memOffset lastSlot) := by
  rw [writeSegmentInfo] at h
  obtain ⟨_, hprecedes, h⟩ := bind_eq_ok.mp h
  obtain ⟨_, hpages, h⟩ := bind_eq_ok.mp h
  obtain ⟨-, -, h⟩ := bind_eq_ok.mp h
  obtain ⟨out₁, h₁, h⟩ := bind_eq_ok.mp h
  obtain ⟨out₂, h₂, h⟩ := bind_eq_ok.mp h
  obtain ⟨out₃, h₃, h⟩ := bind_eq_ok.mp h
  obtain ⟨out₄, h₄, h⟩ := bind_eq_ok.mp h
  obtain ⟨-, -, h⟩ := bind_eq_ok.mp h
  obtain ⟨out₅, h₅, h⟩ := bind_eq_ok.mp h
  obtain ⟨out₆, h₆, h⟩ := bind_eq_ok.mp h
  obtain ⟨out₇, h₇, h⟩ := bind_eq_ok.mp h
  obtain ⟨out₈, h₈, hslots⟩ := bind_eq_ok.mp h
  have hpages := ensure_eq_ok.mp hpages
  have hprecedes := ensure_eq_ok.mp hprecedes
  generalize hcount : chainedFixupPageCount data.memOffset lastSlot = pageCount at *
  have hstart : segmentInfoStart = 56 := rfl
  rw [hstart] at h₂ h₃ h₄ h₅ h₆ h₇ h₈ hslots
  obtain ⟨hlen₈, hnone, hframe₈⟩ := foldlM_writeWord_spec h₈ nodup_range
  have hlt : ∀ slot ∈ slots, (slot - data.memOffset) / MACHO_PAGE_SIZE < pageCount := by
    intro slot hslot
    have hle := Nat.div_le_div_right (c := MACHO_PAGE_SIZE)
      (Nat.sub_le_sub_right (hlast slot hslot) data.memOffset)
    rw [chainedFixupPageCount] at hcount
    omega
  have hnone' : ∀ page < pageCount, readLe 2 out₈ (78 + page * 2)
      = some ((fun _ => DYLD_CHAINED_PTR_START_NONE) page) :=
    fun page hpage => hnone page (mem_range.mpr hpage)
  obtain ⟨hinside, hlen, hread, hframe⟩ := foldlM_enterSlot_spec hslots hnone' hlt
  simp only [writeWord_eq_ok] at h₁ h₂ h₃ h₄ h₅ h₆ h₇
  have hfinal : ∀ n other, other + n ≤ 78 → readLe n out' other = readLe n out₇ other := by
    intro n other hle
    rw [hframe n other (.inl hle), hframe₈ n other fun i _ => by omega]
  have hoffset : startsOffset + 4 * (DATA_SEGMENT_CHAIN_INDEX + 1) = 44 := rfl
  rw [hoffset] at h₁
  refine ⟨?_, hinside, hpages, ?_, ?_, ?_, ?_, fun page hpage => ?_⟩
  · rw [hlen, hlen₈, length_writeLe h₇, length_writeLe h₆, length_writeLe h₅, length_writeLe h₄,
      length_writeLe h₃, length_writeLe h₂, length_writeLe h₁]
  · rw [hfinal _ _ (by omega), readLe_of_apart h₇ (by omega), readLe_of_apart h₆ (by omega),
      readLe_of_apart h₅ (by omega), readLe_of_apart h₄ (by omega), readLe_of_apart h₃ (by omega),
      readLe_of_apart h₂ (by omega), readLe_of_apart h₁ (by omega), hstarts]
  · rw [hfinal _ _ (by omega), readLe_of_apart h₇ (by omega), readLe_of_apart h₆ (by omega),
      readLe_of_apart h₅ (by omega), readLe_of_apart h₄ (by omega), readLe_of_apart h₃ (by omega),
      readLe_of_apart h₂ (by omega), readLe_writeLe h₁]
    rfl
  · rw [hfinal _ _ (by omega), readLe_of_apart h₇ (by omega), readLe_of_apart h₆ (by omega),
      readLe_of_apart h₅ (by omega), readLe_of_apart h₄ (by omega), readLe_writeLe h₃]
    rfl
  · rw [hfinal _ _ (by omega), readLe_writeLe h₇, mod_eq_of_lt (by omega)]
  · rw [hread page hpage, foldl_enter_sorted hsorted (fun slot hs => (hinside slot hs).1) rfl]

/-- What the table says of an import: its library, and where its name stands. -/
def ImportReads (table : Bytes) (importsOffset symbolsOffset index : Nat)
    (chainedImport : ChainedImport) : Prop :=
  ∃ offset < 2 ^ 23, readLe 4 table (importsOffset + index * 4)
      = some (chainedImport.libOrdinal.toNat + offset * 2 ^ 9) ∧
    (table.drop (symbolsOffset + offset)).take (chainedImport.name.length + 1)
      = chainedImport.name ++ [0]

theorem writeImports_spec {importsOffset symbolsOffset : Nat} :
    ∀ {imports : List ChainedImport} {index stringOffset : Nat} {out out' : Bytes},
      writeImports importsOffset symbolsOffset imports index stringOffset out = .ok out' →
        importsOffset + (index + imports.length) * 4 ≤ symbolsOffset →
          AgreeExcept (fun i => (importsOffset + index * 4 ≤ i
              ∧ i < importsOffset + (index + imports.length) * 4) ∨ symbolsOffset + stringOffset ≤ i)
            out' out ∧
          (imports ≠ [] → stringOffset + imports.length ≤ 2 ^ 23) ∧
          ∀ i chainedImport, imports[i]? = some chainedImport →
            ImportReads out' importsOffset symbolsOffset (index + i) chainedImport
  | [], index, stringOffset, out, out', h, _ => by
    cases h
    exact ⟨AgreeExcept.refl _, by simp, by simp⟩
  | first :: imports, index, stringOffset, out, out', h, hfit => by
    rw [writeImports] at h
    obtain ⟨_, hstring, h⟩ := bind_eq_ok.mp h
    obtain ⟨out₁, h₁, h⟩ := bind_eq_ok.mp h
    obtain ⟨_, hroom, h⟩ := bind_eq_ok.mp h
    have hstring : stringOffset < 2 ^ 23 := ensure_eq_ok.mp hstring
    have hroom := ensure_eq_ok.mp hroom
    rw [writeWord_eq_ok] at h₁
    rw [length_cons] at hfit
    obtain ⟨hframe, hbound, hreads⟩ := writeImports_spec h (by omega)
    have hpiece : (first.name ++ [0]).length = first.name.length + 1 := by simp
    have href : AgreeExcept (fun _ => False) out₁ out₁ := AgreeExcept.refl out₁
    have hsplice : AgreeExcept (fun i => symbolsOffset + stringOffset ≤ i)
        (splice out₁ (symbolsOffset + stringOffset) (first.name ++ [0])) out₁ :=
      (href.splice (by rw [hpiece]; omega)).mono fun i hi => (hi.resolve_left id).1
    have hword := agreeExcept_writeLe h₁
    have hordinal := first.libOrdinal.toNat_lt
    refine ⟨?_, ?_, ?_⟩
    · refine ((hframe.mono fun i hi => ?_).trans (hsplice.mono fun i hi => ?_)).trans
        (hword.mono fun i hi => ?_)
      · rw [length_cons]
        omega
      · exact .inr hi
      · rw [length_cons]
        omega
    · intro _
      rw [length_cons]
      by_cases hnil : imports = []
      · rw [hnil, length_nil]
        omega
      · have := hbound hnil
        omega
    · intro i chainedImport hi
      cases i with
      | zero =>
        obtain rfl : first = chainedImport := by simpa using hi
        refine ⟨stringOffset, hstring, ?_, ?_⟩
        · have hlt : first.libOrdinal.toNat + stringOffset * 2 ^ 9 < 2 ^ (8 * 4) := by omega
          rw [add_zero, hframe.readLe fun i hi hi' => by omega,
            hsplice.readLe fun i hi hi' => by omega, readLe_writeLe h₁,
            or_shiftLeft (by omega), mod_eq_of_lt hlt]
        · rw [hframe.take_drop fun i hi hi' => by omega, drop_splice (by omega),
            take_left' hpiece]
      | succ i =>
        have := hreads i chainedImport (by simpa using hi)
        rw [add_right_comm] at this
        exact this

/-- A name up to its terminator. -/
theorem cString_of_take {bytes name : Bytes} (hname : 0 ∉ name)
    (h : bytes.take (name.length + 1) = name ++ [0]) : cString bytes = name := by
  have hsplit : bytes = name ++ 0 :: bytes.drop (name.length + 1) := by
    rw [← take_append_drop (name.length + 1) bytes, h, append_assoc,
      singleton_append]
    simp
  have hall : ∀ b ∈ name, decide (b ≠ 0) = true :=
    fun b hb => decide_eq_true fun heq => hname (heq ▸ hb)
  rw [hsplit, cString, takeWhile_append_of_pos hall, takeWhile_cons_of_neg (by decide),
    append_nil]

theorem readImport_of_reads {table : Bytes} {importsOffset symbolsOffset index : Nat}
    {chainedImport : ChainedImport} (himports : readLe 4 table 8 = some importsOffset)
    (hsymbols : readLe 4 table 12 = some symbolsOffset)
    (h : ImportReads table importsOffset symbolsOffset index chainedImport) :
    readImport table index = some (chainedImport.libOrdinal.toNat, chainedImport.name) := by
  obtain ⟨offset, -, hentry, hname⟩ := h
  have hordinal := chainedImport.libOrdinal.toNat_lt
  have hlow : (chainedImport.libOrdinal.toNat + offset * 2 ^ 9) &&& 0xff
      = chainedImport.libOrdinal.toNat := by
    have hmask : ∀ n, n &&& 0xff = n % 2 ^ 8 := fun n => and_two_pow_sub_one_eq_mod n 8
    rw [hmask]
    omega
  have hhigh : (chainedImport.libOrdinal.toNat + offset * 2 ^ 9) >>> 9 = offset := by
    rw [shiftRight_eq_div_pow]
    omega
  simp only [readImport, himports, hsymbols, bind_eq_bind, bind_some, hentry, hlow,
    hhigh, cString_of_take chainedImport.name_nonzero hname]

/-- What dyld reads in a table. -/
structure TableReads (table : Bytes) (data : Option OutputRecordLayout) (chained : ChainedRebases) :
    Prop where
  /-- Without slots no segment has chains. -/
  none_of_nil : chained.slots = [] → readLe 4 table 4 = some 32 ∧ readLe 4 table 44 = some 0
  segment : chained.slots ≠ [] → ∃ segment pageCount, data = some segment ∧
    SegmentInfoReads table segment.memOffset chained.slots pageCount ∧
    ∀ slot ∈ chained.slots, segment.memOffset ≤ slot ∧
      slot - segment.memOffset + 8 ≤ segment.fileSize ∧
      (slot - segment.memOffset) / MACHO_PAGE_SIZE < pageCount
  imports : ∀ index chainedImport, chained.imports[index]? = some chainedImport →
    readImport table index = some (chainedImport.libOrdinal.toNat, chainedImport.name)

theorem le_getLast_of_sorted (hsorted : slots.Pairwise (· < ·))
    (hlast : slots.getLast? = some lastSlot) : ∀ slot ∈ slots, slot ≤ lastSlot := by
  obtain ⟨init, rfl⟩ := getLast?_eq_some_iff.mp hlast
  intro slot hslot
  rcases mem_append.mp hslot with hslot | hslot
  · exact le_of_lt ((pairwise_append.mp hsorted).2.2 slot hslot lastSlot (by simp))
  · exact le_of_eq (mem_singleton.mp hslot)

/-- **The table says what it was written for.** -/
theorem writeChainedFixupTable_spec {data : Option OutputRecordLayout} {chained : ChainedRebases}
    {table : Bytes} (hsorted : chained.slots.Pairwise (· < ·))
    (h : writeChainedFixupTable data chained out = .ok table) : TableReads table data chained := by
  rw [writeChainedFixupTable] at h
  obtain ⟨out₁, hheader, h⟩ := bind_eq_ok.mp h
  obtain ⟨out₂, hsegment, h⟩ := bind_eq_ok.mp h
  obtain ⟨-, -, h⟩ := bind_eq_ok.mp h
  obtain ⟨out₃, h₃, h⟩ := bind_eq_ok.mp h
  obtain ⟨out₄, h₄, h⟩ := bind_eq_ok.mp h
  obtain ⟨-, -, himports⟩ := bind_eq_ok.mp h
  rw [writeWord_eq_ok] at h₃ h₄
  obtain ⟨hlen₁, hstarts, hnone⟩ := writeTableHeader_spec hheader
  obtain ⟨hframe, hbound, hreads⟩ := writeImports_spec himports (by omega)
  -- The last three steps leave the table alone in front of the imports, the two offsets apart.
  have hsame : ∀ n other, (other + n ≤ 8 ∨ 16 ≤ other) →
      other + n ≤ importsOffset data chained.slots → readLe n table other = readLe n out₂ other := by
    intro n other hapart hle
    rw [hframe.readLe fun i hi hi' => by omega, readLe_of_apart h₄ (by omega),
      readLe_of_apart h₃ (by omega)]
  have hoffsets : 16 ≤ importsOffset data chained.slots → importsOffset data chained.slots < 2 ^ 20 →
      ∀ index chainedImport, chained.imports[index]? = some chainedImport →
        readImport table index = some (chainedImport.libOrdinal.toNat, chainedImport.name) := by
    intro hge hlt index chainedImport hget
    have hne : chained.imports ≠ [] := fun hnil => by simp [hnil] at hget
    have hmany := hbound hne
    have hread := hreads index chainedImport hget
    rw [zero_add] at hread
    refine readImport_of_reads ?_ ?_ hread
    · rw [hframe.readLe fun i hi hi' => by omega, readLe_of_apart h₄ (by omega),
        readLe_writeLe h₃, mod_eq_of_lt (by omega)]
    · rw [hframe.readLe fun i hi hi' => by omega, readLe_writeLe h₄, mod_eq_of_lt (by omega)]
  cases hlast : chained.slots.getLast? with
  | none =>
    have hnil : chained.slots = [] := getLast?_eq_none_iff.mp hlast
    have hoffset : importsOffset data chained.slots = 52 := by
      unfold importsOffset
      rw [hlast]
      cases data <;> rfl
    rw [writeSegments, hlast] at hsegment
    cases hsegment
    exact ⟨fun _ => ⟨(hsame _ _ (by omega) (by omega)).trans hstarts,
      (hsame _ _ (by omega) (by omega)).trans hnone⟩, fun hne => absurd hnil hne,
      hoffsets (by omega) (by omega)⟩
  | some lastSlot =>
    rw [writeSegments, hlast] at hsegment
    obtain ⟨segment, hdata, hsegment⟩ := bind_eq_ok.mp hsegment
    obtain rfl := okOr_eq_ok.mp hdata
    have hle := le_getLast_of_sorted hsorted hlast
    obtain ⟨-, hinside, hpages, hinfo⟩ := writeSegmentInfo_spec hsegment hstarts hsorted hle
    have hoffset : importsOffset (some segment) chained.slots = segmentInfoStart
        + segmentInfoSize (chainedFixupPageCount segment.memOffset lastSlot) := by
      unfold importsOffset
      rw [hlast]
    have hsmall : segmentInfoSize (chainedFixupPageCount segment.memOffset lastSlot) < 2 ^ 18 := by
      rw [segmentInfoSize, nextMultipleOf]
      omega
    have hstart : segmentInfoStart = 56 := rfl
    refine ⟨fun hnil => by simp [hnil] at hlast, fun _ => ⟨segment, _, rfl,
      hinfo.congr (hoffset ▸ hsame), fun slot hslot => ?_⟩, hoffsets (by omega) (by omega)⟩
    obtain ⟨hge, hfile⟩ := hinside slot hslot
    refine ⟨hge, hfile, Nat.lt_succ_of_le (Nat.div_le_div_right ?_)⟩
    exact Nat.sub_le_sub_right (hle slot hslot) _

/-! ## 5. What the slots hold -/

/-- The pointer that is assigned to a slot. -/
def assignedPointer (value : UInt64) (importIndex : Option Nat) : ChainedPointer :=
  match importIndex with
  | some index => .bind index 0
  | none => .rebase (value.toNat % 2 ^ 56 - MACHO_START_MEM_ADDRESS) (value.toNat / 2 ^ 56)

def DataFixup.pointer (fixup : DataFixup) : ChainedPointer :=
  assignedPointer fixup.value fixup.importIndex

def ChainedGotEntry.pointer (entry : ChainedGotEntry) : ChainedPointer :=
  assignedPointer entry.target entry.importIndex

/-- Slots with what is assigned to them: slots with different addresses do not overlap, and no slot
is assigned two pointers. -/
structure Assigned (data : List DataFixup) (got : List ChainedGotEntry)
    (pointer : Nat → ChainedPointer) : Prop where
  data_eq : ∀ fixup ∈ data, fixup.pointer = pointer fixup.address
  got_eq : ∀ entry ∈ got, entry.pointer = pointer entry.address
  apart : ∀ a ∈ data.map (·.address) ++ got.map (·.address),
    ∀ b ∈ data.map (·.address) ++ got.map (·.address), a = b ∨ a + 8 ≤ b ∨ b + 8 ≤ a

/-- A word for a slot: its distance and its pointer. -/
def Encodes (chained : ChainedRebases) (address word : Nat) (pointer : ChainedPointer) : Prop :=
  word < 2 ^ 64 ∧ ∃ stride, chained.nextStride address = .ok stride ∧ decodeNext word = stride ∧
    decodePointer word = pointer

section

variable {data : List DataFixup} {got : List ChainedGotEntry} {imports : List ChainedImport}
  {pointer : Nat → ChainedPointer} {chained : ChainedRebases}

theorem mem_slots {address : Nat} : address ∈ (ofFixups data got imports).slots ↔
    address ∈ data.map (·.address) ++ got.map (·.address) := mem_sortDedup

theorem encodeGotEntry_spec {entry : ChainedGotEntry} {word : Nat}
    (h : encodeGotEntry chained entry = .ok word) :
    Encodes chained entry.address word entry.pointer := by
  rw [encodeGotEntry] at h
  obtain ⟨stride, hstride, h⟩ := bind_eq_ok.mp h
  rw [ChainedGotEntry.pointer]
  cases hindex : entry.importIndex with
  | some index =>
    rw [hindex] at h
    obtain ⟨hlt, hnext, hpointer⟩ := encodeChainedBind_spec h
    exact ⟨hlt, stride, hstride, hnext, hpointer⟩
  | none =>
    rw [hindex] at h
    obtain ⟨hlt, hnext, hpointer⟩ := encodeChainedRebase_spec entry.target.toNat_lt h
    exact ⟨hlt, stride, hstride, hnext, hpointer⟩

variable {fixup : DataFixup}

/-- The import of an address is that of any relocation there. -/
theorem bindImportIndex_spec (hassigned : Assigned data got pointer)
    (hmem : fixup ∈ data) :
    (ofFixups data got imports).bindImportIndex fixup.address
      = fixup.importIndex := by
  have hbind : ∀ slot, slot ∈ (ofFixups data got imports).bindSlots ↔
      ∃ g ∈ data, ∃ index, g.importIndex = some index ∧ slot = ⟨g.address, index⟩ := by
    intro slot
    rw [ofFixups, (sortedByKey_perm _ _).mem_iff, mem_filterMap]
    simp only [map_eq_some_iff, eq_comm (a := slot)]
  rw [bindImportIndex]
  cases hfind : (ofFixups data got imports).bindSlots.find?
      (·.address = fixup.address) with
  | none =>
    cases hindex : fixup.importIndex with
    | none => rfl
    | some index =>
      have hslot := (hbind ⟨fixup.address, index⟩).mpr ⟨fixup, hmem, index, hindex, rfl⟩
      exact absurd (find?_eq_none.mp hfind _ hslot) (by simp)
  | some slot =>
    obtain ⟨g, hg, index, hindex, rfl⟩ := (hbind slot).mp (mem_of_find?_eq_some hfind)
    have haddress : g.address = fixup.address := by simpa using find?_some hfind
    have hpointer : g.pointer = fixup.pointer := by
      rw [hassigned.data_eq g hg, hassigned.data_eq fixup hmem, haddress]
    rw [DataFixup.pointer, DataFixup.pointer, hindex] at hpointer
    cases hindex' : fixup.importIndex with
    | none =>
      rw [hindex'] at hpointer
      cases hpointer
    | some index' =>
      rw [hindex'] at hpointer
      obtain ⟨rfl, -⟩ := ChainedPointer.bind.inj hpointer
      rfl

theorem encodeDataFixup_spec {word : Nat}
    (hassigned : Assigned data got pointer) (hmem : fixup ∈ data)
    (h : encodeDataFixup (ofFixups data got imports) fixup = .ok word) :
    Encodes (ofFixups data got imports) fixup.address word fixup.pointer := by
  have hcontains : (ofFixups data got imports).contains fixup.address = true :=
    any_eq_true.mpr ⟨fixup.address, mem_slots.mpr (mem_append_left _
      (mem_map_of_mem hmem)), decide_eq_true rfl⟩
  rw [encodeDataFixup, bindImportIndex_spec hassigned hmem, hcontains] at h
  rw [DataFixup.pointer]
  cases hindex : fixup.importIndex with
  | some index =>
    rw [hindex] at h
    obtain ⟨stride, hstride, h⟩ := bind_eq_ok.mp h
    obtain ⟨hlt, hnext, hpointer⟩ := encodeChainedBind_spec h
    exact ⟨hlt, stride, hstride, hnext, hpointer⟩
  | none =>
    rw [hindex] at h
    obtain ⟨stride, hstride, h⟩ := bind_eq_ok.mp h
    obtain ⟨hlt, hnext, hpointer⟩ := encodeChainedRebase_spec fixup.value.toNat_lt h
    exact ⟨hlt, stride, hstride, hnext, hpointer⟩

/-- The word that was encoded. -/
def wordOf : Except Failure Nat → Nat
  | .ok word => word
  | .error _ => 0

variable {gotStart : Nat} {out out' : Bytes}

/-- The loop over the GOT entries writes one word for each. -/
theorem writeGotEntries_spec : ∀ {entries : List ChainedGotEntry}
    {out out' : Bytes}, writeGotEntries chained gotStart entries out = .ok out' →
      writeAllLe 8 (entries.map fun entry =>
        (entry.address - gotStart, wordOf (encodeGotEntry chained entry))) out = some out' ∧
      ∀ entry ∈ entries, encodeGotEntry chained entry
        = .ok (wordOf (encodeGotEntry chained entry))
  | [], out, out', h => ⟨by rw [ok.inj h]; rfl, by simp⟩
  | entry :: rest, out, out', h => by
    rw [writeGotEntries] at h
    obtain ⟨-, -, h⟩ := bind_eq_ok.mp h
    obtain ⟨-, -, h⟩ := bind_eq_ok.mp h
    obtain ⟨value, hvalue, h⟩ := bind_eq_ok.mp h
    obtain ⟨next, hnext, h⟩ := bind_eq_ok.mp h
    obtain ⟨hwords, hall⟩ := writeGotEntries_spec h
    have hword : encodeGotEntry chained entry = .ok (wordOf (encodeGotEntry chained entry)) := by
      rw [hvalue]
      rfl
    refine ⟨bind_eq_some_iff.mpr ⟨next, ?_, hwords⟩, forall_mem_cons.mpr ⟨hword, hall⟩⟩
    rw [hvalue]
    exact writeWord_eq_ok.mp hnext

theorem length_writeGot
    (h : writeGot chained gotStart out = .ok out') : out'.length = out.length := by
  rw [writeGot] at h
  split at h
  · rw [← ok.inj h, length_replicate]
  · rw [length_writeAllLe (writeGotEntries_spec h).1, length_replicate]

variable {dataStart : Nat}

/-- The data relocations write one word each. -/
theorem writeDataFixups_spec : ∀ {fixups : List DataFixup}
    {out out' : Bytes}, writeDataFixups chained dataStart fixups out = .ok out' →
      writeAllLe 8 (fixups.map fun fixup =>
        (fixup.address - dataStart, wordOf (encodeDataFixup chained fixup))) out = some out' ∧
      ∀ fixup ∈ fixups, encodeDataFixup chained fixup
        = .ok (wordOf (encodeDataFixup chained fixup))
  | [], out, out', h => ⟨by rw [ok.inj h]; rfl, by simp⟩
  | fixup :: rest, out, out', h => by
    rw [writeDataFixups] at h
    obtain ⟨value, hvalue, h⟩ := bind_eq_ok.mp h
    obtain ⟨next, hnext, h⟩ := bind_eq_ok.mp h
    obtain ⟨hwords, hall⟩ := writeDataFixups_spec h
    have hword : encodeDataFixup chained fixup
        = .ok (wordOf (encodeDataFixup chained fixup)) := by
      rw [hvalue]
      rfl
    refine ⟨bind_eq_some_iff.mpr ⟨next, ?_, hwords⟩, forall_mem_cons.mpr ⟨hword, hall⟩⟩
    rw [hvalue]
    exact writeWord_eq_ok.mp hnext

variable {α : Type} {items : List α} {address : α → Nat}

variable {word : α → Nat}

/-- **Where a loop wrote a word for a slot, one such word is there.** -/
theorem encodes_of_writeAllLe
    {base slot : Nat}
    (h : writeAllLe 8 (items.map fun item => (address item - base, word item)) out = some out')
    (hbase : ∀ item ∈ items, base ≤ address item) (hslot : base ≤ slot)
    (hapart : ∀ item ∈ items, address item = slot ∨ slot + 8 ≤ address item
      ∨ address item + 8 ≤ slot)
    (hencode : ∀ item ∈ items, address item = slot →
      Encodes chained slot (word item) (pointer slot))
    (hsome : ∃ item ∈ items, address item = slot) :
    ∃ word, readLe 8 out' (slot - base) = some word ∧ Encodes chained slot word (pointer slot) := by
  have hplaces : ∀ w ∈ items.map fun item => (address item - base, word item),
      w.1 = slot - base ∨ slot - base + 8 ≤ w.1 ∨ w.1 + 8 ≤ slot - base := by
    intro w hw
    obtain ⟨item, hitem, rfl⟩ := mem_map.mp hw
    have hge := hbase item hitem
    have := hapart item hitem
    dsimp only
    omega
  obtain ⟨item, hitem, heq⟩ := hsome
  obtain ⟨value, hvalue, hread⟩ := exists_readLe_writeAllLe h hplaces
    ⟨_, mem_map_of_mem hitem, by rw [heq]⟩
  obtain ⟨item', hitem', heq'⟩ := mem_map.mp hvalue
  obtain ⟨hoffset, rfl⟩ := Prod.mk.inj heq'
  have hge := hbase item' hitem'
  have henc := hencode item' hitem' (by omega)
  exact ⟨word item', by rw [hread, mod_eq_of_lt henc.1], henc⟩

/-- A word apart from all that a loop writes is untouched. -/
theorem readLe_of_items_apart
    {base slot : Nat}
    (h : writeAllLe 8 (items.map fun item => (address item - base, word item)) out = some out')
    (hbase : ∀ item ∈ items, base ≤ address item) (hslot : base ≤ slot)
    (hapart : ∀ item ∈ items, slot + 8 ≤ address item ∨ address item + 8 ≤ slot) :
    readLe 8 out' (slot - base) = readLe 8 out (slot - base) := by
  refine readLe_writeAllLe_of_apart h fun w hw => ?_
  obtain ⟨item, hitem, rfl⟩ := mem_map.mp hw
  have hge := hbase item hitem
  have := hapart item hitem
  dsimp only
  omega

/-- **After all loops every slot holds its distance and its pointer**, the GOT in its section and
the data relocations at their places. -/
theorem holds_of_writes {gotOut gotOut' segment segment' : Bytes}
    (hassigned : Assigned data got pointer)
    (hgot : writeGot (ofFixups data got imports) gotStart gotOut = .ok gotOut')
    (hinside : ∀ entry ∈ got, gotStart ≤ entry.address ∧
      entry.address + 8 ≤ gotStart + gotOut.length)
    (hstart : dataStart ≤ gotStart) (hfit : gotStart - dataStart + gotOut.length ≤ segment.length)
    (hdata : writeDataFixups (ofFixups data got imports) dataStart data
      (splice segment (gotStart - dataStart) gotOut') = .ok segment')
    (hge : ∀ slot ∈ (ofFixups data got imports).slots, dataStart ≤ slot) :
    ∀ slot ∈ (ofFixups data got imports).slots,
      Holds (ofFixups data got imports) segment' dataStart slot (pointer slot) := by
  generalize hchained : ofFixups data got imports = chained at *
  intro slot hslot
  have hmem : ∀ {address}, address ∈ chained.slots ↔
      address ∈ data.map (·.address) ++ got.map (·.address) := hchained ▸ mem_slots
  obtain ⟨hwords, hencodes⟩ := writeDataFixups_spec hdata
  have hslotStart := hge slot hslot
  have hdataMem : ∀ fixup ∈ data, fixup.address ∈ data.map (·.address) ++ got.map (·.address) :=
    fun fixup hfixup => mem_append_left _ (mem_map_of_mem hfixup)
  have hgotMem : ∀ entry ∈ got, entry.address ∈ data.map (·.address) ++ got.map (·.address) :=
    fun entry hentry => mem_append_right _ (mem_map_of_mem hentry)
  have hdataStart : ∀ fixup ∈ data, dataStart ≤ fixup.address :=
    fun fixup hfixup => hge _ (hmem.mpr (hdataMem fixup hfixup))
  have hdataApart : ∀ fixup ∈ data, fixup.address = slot ∨ slot + 8 ≤ fixup.address
      ∨ fixup.address + 8 ≤ slot := by
    intro fixup hfixup
    rcases hassigned.apart _ (hdataMem fixup hfixup) slot (hmem.mp hslot) with h | h | h
    · exact .inl h
    · exact .inr (.inr h)
    · exact .inr (.inl h)
  suffices h : ∃ word, readLe 8 segment' (slot - dataStart) = some word ∧
      Encodes chained slot word (pointer slot) by
    obtain ⟨word, hword, -, stride, hstride, hnext, hpointer⟩ := h
    exact ⟨word, stride, hword, hstride, hnext, hpointer⟩
  by_cases hdataSlot : ∃ fixup ∈ data, fixup.address = slot
  · refine encodes_of_writeAllLe hwords hdataStart hslotStart hdataApart ?_ hdataSlot
    rintro fixup hfixup rfl
    have hencode := hencodes fixup hfixup
    subst hchained
    rw [← hassigned.data_eq fixup hfixup]
    exact encodeDataFixup_spec hassigned hfixup hencode
  -- The slot is one of the GOT, and the data relocations leave it alone.
  obtain ⟨entry, hentry, rfl⟩ : ∃ entry ∈ got, entry.address = slot := by
    rcases mem_append.mp (hmem.mp hslot) with hin | hin
    · obtain ⟨fixup, hfixup, heq⟩ := mem_map.mp hin
      exact absurd ⟨fixup, hfixup, heq⟩ hdataSlot
    · exact mem_map.mp hin
  have hentryInside := hinside entry hentry
  have hgotOut : ¬ replicate gotOut.length (0 : UInt8) = [] := by
    intro hnil
    have := congrArg length hnil
    rw [length_replicate, length_nil] at this
    omega
  have hgotLength := length_writeGot hgot
  rw [writeGot, if_neg hgotOut] at hgot
  obtain ⟨hgotWords, hgotEncodes⟩ := writeGotEntries_spec hgot
  have hentries : ∀ {e}, e ∈ chained.gotEntries → e ∈ got := by
    intro e he
    rw [← hchained, ofFixups] at he
    exact (sortedByKey_perm _ _).mem_iff.mp (mem_of_mem_dedupByKey he)
  obtain ⟨kept, hkept, hkeptAddress⟩ : ∃ e ∈ chained.gotEntries, e.address = entry.address := by
    rw [← hchained]
    exact exists_mem_dedupByKey _ ((sortedByKey_perm _ _).mem_iff.mpr hentry)
  rw [readLe_of_items_apart hwords hdataStart hslotStart fun fixup hfixup =>
    (hdataApart fixup hfixup).resolve_left fun heq => hdataSlot ⟨fixup, hfixup, heq⟩,
    readLe_splice (by omega) (by omega) (by omega)]
  have hoffset : entry.address - dataStart - (gotStart - dataStart) = entry.address - gotStart := by
    omega
  rw [hoffset]
  refine encodes_of_writeAllLe hgotWords (fun e he => (hinside e (hentries he)).1) hentryInside.1
    ?_ ?_ ⟨kept, hkept, hkeptAddress⟩
  · intro e he
    rcases hassigned.apart _ (hgotMem e (hentries he)) _ (hgotMem entry hentry) with h | h | h
    · exact .inl h
    · exact .inr (.inr h)
    · exact .inr (.inl h)
  · intro e he heq
    rw [← heq, ← hassigned.got_eq e (hentries he)]
    exact encodeGotEntry_spec (hgotEncodes e he)

end

/-! ## 6. The whole walk -/

theorem mapM_eq_some_map {α β : Type} {f : α → Option β} {g : α → β} : ∀ {l : List α},
    (∀ a ∈ l, f a = some (g a)) → l.mapM f = some (l.map g)
  | [], _ => rfl
  | a :: l, h => by
    rw [mapM_cons, h a (by simp), mapM_eq_some_map fun b hb => h b (mem_cons_of_mem _ hb)]
    rfl

section

variable {chained : ChainedRebases} {table segment : Bytes} {dataStart : Nat}
  {pointer : Nat → ChainedPointer}

/-- **A page is walked from its start on, and all of it.** -/
theorem walkPage_slots {page pageCount : Nat} (hdvd : MACHO_PAGE_SIZE ∣ dataStart)
    (hsorted : chained.slots.Pairwise (· < ·)) (hstart : ∀ slot ∈ chained.slots, dataStart ≤ slot)
    (hholds : ∀ slot ∈ chained.slots, Holds chained segment dataStart slot (pointer slot))
    (hinfo : SegmentInfoReads table dataStart chained.slots pageCount) (hpage : page < pageCount) :
    walkPage table segment 56 MACHO_PAGE_SIZE page = some
      ((chained.slots.filter fun slot => pageOfSlot dataStart slot = page).map
        fun slot => (slot - dataStart, pointer slot)) := by
  have hread := hinfo.pageStarts page hpage
  have hoffset : 56 + 22 + 2 * page = 78 + page * 2 := by omega
  have hkeys : chained.slots.Pairwise fun a b => pageOfSlot dataStart a ≤ pageOfSlot dataStart b :=
    hsorted.imp fun h => Nat.div_le_div_right (Nat.sub_le_sub_right (Nat.le_of_lt h) _)
  rw [walkPage, hoffset, hread, bind_eq_bind, bind_some, pageStart]
  cases hfilter : chained.slots.filter fun slot => pageOfSlot dataStart slot = page with
  | nil =>
    have hnil : (chained.slots.filter fun slot => (slot - dataStart) / MACHO_PAGE_SIZE = page) = [] :=
      hfilter
    rw [hnil]
    rfl
  | cons first group =>
    have hcons : (chained.slots.filter fun slot => (slot - dataStart) / MACHO_PAGE_SIZE = page)
        = first :: group := hfilter
    obtain ⟨pre, rest, hslots, hfirst, rfl⟩ := SortedGroups.exists_split_of_filter hkeys hfilter
    have hlt : (first - dataStart) % MACHO_PAGE_SIZE < MACHO_PAGE_SIZE := mod_lt _ (by decide)
    have hfirstOffset : page * MACHO_PAGE_SIZE + (first - dataStart) % MACHO_PAGE_SIZE
        = first - dataStart := by
      rw [← hfirst, pageOfSlot]
      exact div_add_mod' _ _
    rw [hcons]
    dsimp only
    rw [if_neg (Nat.ne_of_lt (hlt.trans (by decide))), hfirstOffset,
      walkChain_slots hdvd hsorted hstart hholds hslots, chainOf, hfirst]

/-- **dyld visits the slots in order.** -/
theorem walkFixups_slots {data : Option OutputRecordLayout}
    (htable : TableReads table data chained) (hdvd : MACHO_PAGE_SIZE ∣ dataStart)
    (hdata : ∀ record ∈ data, record.memOffset = dataStart)
    (hsorted : chained.slots.Pairwise (· < ·))
    (hholds : ∀ slot ∈ chained.slots, Holds chained segment dataStart slot (pointer slot)) :
    walkFixups table segment
      = some (chained.slots.map fun slot => (slot - dataStart, pointer slot)) := by
  by_cases hnil : chained.slots = []
  · obtain ⟨hstarts, hnone⟩ := htable.none_of_nil hnil
    have hoffset : 32 + 4 * (DATA_SEGMENT_CHAIN_INDEX + 1) = 44 := rfl
    rw [walkFixups, hstarts, bind_eq_bind, bind_some, hoffset, hnone,
      bind_eq_bind, bind_some, hnil]
    rfl
  · obtain ⟨record, pageCount, hrecord, hinfo, hinside⟩ := htable.segment hnil
    obtain rfl := hdata record hrecord
    have hoffset : 32 + 4 * (DATA_SEGMENT_CHAIN_INDEX + 1) = 44 := rfl
    have hpages := mapM_eq_some_map fun page hpage => walkPage_slots hdvd hsorted
      (fun slot hslot => (hinside slot hslot).1) hholds hinfo (mem_range.mp hpage)
    have hkeys : chained.slots.Pairwise fun a b =>
        pageOfSlot record.memOffset a ≤ pageOfSlot record.memOffset b :=
      hsorted.imp fun h => Nat.div_le_div_right (Nat.sub_le_sub_right (Nat.le_of_lt h) _)
    have hflatten := SortedGroups.flatten_groups hkeys fun slot hslot => (hinside slot hslot).2.2
    simp only [walkFixups, hinfo.starts, bind_eq_bind, bind_some, hoffset,
      hinfo.infoOffset, hinfo.pageSize, hinfo.pageCount_eq]
    rw [if_neg (by decide), hpages, bind_some]
    refine congrArg some ?_
    conv_rhs => rw [← hflatten]
    rw [map_flatten, List.map_map]
    rfl

end

/-- **dyld reaches every chained slot once and finds what was assigned to it.**  `segment` is the
file-backed part of `__DATA` before the pointers are written, and `gotOut` the section `__got` in
it. -/
theorem walkFixups_visits_slots {data : List DataFixup} {got : List ChainedGotEntry}
    {imports : List ChainedImport} {pointer : Nat → ChainedPointer} {record : OutputRecordLayout}
    {gotStart : Nat} {out table gotOut gotOut' segment segment' : Bytes}
    (hdvd : MACHO_PAGE_SIZE ∣ record.memOffset) (hsize : record.fileSize = segment.length)
    (hgotStart : record.memOffset ≤ gotStart)
    (hgotFit : gotStart - record.memOffset + gotOut.length ≤ segment.length)
    (hgotInside : ∀ entry ∈ got, gotStart ≤ entry.address ∧
      entry.address + 8 ≤ gotStart + gotOut.length)
    (hassigned : Assigned data got pointer)
    (htable : writeChainedFixupTable (some record) (ChainedRebases.ofFixups data got imports) out
      = .ok table)
    (hgot : writeGot (ChainedRebases.ofFixups data got imports) gotStart gotOut = .ok gotOut')
    (hdata : writeDataFixups (ChainedRebases.ofFixups data got imports) record.memOffset data
      (splice segment (gotStart - record.memOffset) gotOut') = .ok segment') :
    ∃ visited, walkFixups table segment' = some visited ∧
      (visited.map fun slot => record.memOffset + slot.1).Nodup ∧
      (∀ address, address ∈ visited.map (fun slot => record.memOffset + slot.1) ↔
        (∃ fixup ∈ data, fixup.address = address) ∨ ∃ entry ∈ got, entry.address = address) ∧
      (∀ fixup ∈ data, (fixup.address - record.memOffset, fixup.pointer) ∈ visited) ∧
      (∀ entry ∈ got, (entry.address - record.memOffset, entry.pointer) ∈ visited) ∧
      (∀ slot ∈ visited, slot.1 + 8 ≤ segment'.length) ∧
      ∀ index chainedImport, imports[index]? = some chainedImport →
        readImport table index = some (chainedImport.libOrdinal.toNat, chainedImport.name) := by
  have hsorted : (ofFixups data got imports).slots.Pairwise (· < ·) :=
    sortDedup_pairwise _
  have hreads := writeChainedFixupTable_spec hsorted htable
  have hinside : ∀ slot ∈ (ofFixups data got imports).slots,
      record.memOffset ≤ slot ∧ slot - record.memOffset + 8 ≤ record.fileSize := by
    intro slot hslot
    obtain ⟨record', _, hrecord, -, h⟩ :=
      hreads.segment fun hnil => absurd hslot (by rw [hnil]; exact not_mem_nil)
    cases hrecord
    exact ⟨(h slot hslot).1, (h slot hslot).2.1⟩
  have hholds := holds_of_writes hassigned hgot hgotInside hgotStart hgotFit hdata
    fun slot hslot => (hinside slot hslot).1
  have hwalk := walkFixups_slots hreads hdvd (by simp) hsorted hholds
  have hmem : ∀ address, address ∈ (ofFixups data got imports).slots ↔
      (∃ fixup ∈ data, fixup.address = address) ∨ ∃ entry ∈ got, entry.address = address := by
    intro address
    rw [mem_slots, mem_append, List.mem_map, List.mem_map]
  have haddresses : ((ofFixups data got imports).slots.map
      fun slot => (slot - record.memOffset, pointer slot)).map
        (fun slot => record.memOffset + slot.1)
          = (ofFixups data got imports).slots := by
    rw [List.map_map]
    refine (map_congr_left fun slot hslot => ?_).trans (map_id _)
    exact Nat.add_sub_cancel' (hinside slot hslot).1
  refine ⟨_, hwalk, ?_, ?_, ?_, ?_, ?_, hreads.imports⟩
  · rw [haddresses]
    exact hsorted.imp Nat.ne_of_lt
  · rw [haddresses]
    exact hmem
  · intro fixup hfixup
    rw [hassigned.data_eq fixup hfixup]
    exact mem_map_of_mem ((hmem _).mpr (.inl ⟨fixup, hfixup, rfl⟩))
  · intro entry hentry
    rw [hassigned.got_eq entry hentry]
    exact mem_map_of_mem ((hmem _).mpr (.inr ⟨entry, hentry, rfl⟩))
  · intro visited hvisited
    obtain ⟨slot, hslot, rfl⟩ := mem_map.mp hvisited
    have hlen : segment'.length = segment.length := by
      rw [length_writeAllLe (writeDataFixups_spec hdata).1, length_splice]
      rw [length_writeGot hgot]
      exact hgotFit
    rw [hlen, ← hsize]
    exact (hinside slot hslot).2

/-! ## 7. Examples -/

/-- What a function leaves when it succeeds. -/
def okBytes : Except Failure Bytes → Bytes
  | .ok bytes => bytes
  | .error _ => []

def exampleData (fileSize : Nat) : OutputRecordLayout where
  fileSize := fileSize
  memSize := fileSize
  alignment := .machoPage
  fileOffset := 0x4000
  memOffset := 0x1_0000_4000

/-- A rebase behind a bind, collected in the other order. -/
def exampleFixups : List DataFixup :=
  [⟨0x1_0000_4008, 0x1_0000_0010, none⟩, ⟨0x1_0000_4000, 0, some 0⟩]

def exampleGot : List ChainedGotEntry := [⟨0x1_0000_4010, 0x8000_0001_0000_0020, none, "_g"⟩]

def exampleImports : List ChainedImport := [⟨[95, 102], 1, by decide⟩]

def exampleChained : ChainedRebases :=
  ofFixups exampleFixups exampleGot exampleImports

def exampleTable : Bytes :=
  okBytes (writeChainedFixupTable (some (exampleData 24)) exampleChained (replicate 100 0))

def exampleGotSection : Bytes :=
  okBytes (writeGot exampleChained 0x1_0000_4010 (replicate 8 0))

def exampleSegment : Bytes := okBytes (writeDataFixups exampleChained 0x1_0000_4000 exampleFixups
  (splice (replicate 24 0) 16 exampleGotSection))

/-- `walkFixups_visits_slots` for a segment with a rebase, a bind and a GOT entry. -/
theorem walkFixups_visits_slots_example :
    ∃ visited, walkFixups exampleTable exampleSegment = some visited ∧
      (8, .rebase 0x10 0) ∈ visited ∧ (0, .bind 0 0) ∈ visited ∧
        (16, .rebase 0x20 0x80) ∈ visited ∧ readImport exampleTable 0 = some (1, [95, 102]) := by
  have hassigned : Assigned exampleFixups exampleGot fun address =>
      if address = 0x1_0000_4000 then .bind 0 0
      else if address = 0x1_0000_4008 then .rebase 0x10 0 else .rebase 0x20 0x80 :=
    ⟨by decide, by decide, by decide⟩
  have htable : writeChainedFixupTable (some (exampleData 24)) exampleChained
      (replicate 100 0) = .ok exampleTable := by decide +kernel
  have hgot : writeGot exampleChained 0x1_0000_4010 (replicate 8 0)
      = .ok exampleGotSection := by decide +kernel
  have hdata : writeDataFixups exampleChained 0x1_0000_4000 exampleFixups
      (splice (replicate 24 0) 16 exampleGotSection) = .ok exampleSegment := by decide +kernel
  obtain ⟨visited, hwalk, -, -, hfixups, hentries, -, himports⟩ :=
    @walkFixups_visits_slots exampleFixups exampleGot exampleImports _ (exampleData 24)
      0x1_0000_4010 _ _ _ _ (replicate 24 0) _ (by decide) rfl (by decide) (by decide)
      (by decide) hassigned htable hgot hdata
  refine ⟨visited, hwalk, ?_, ?_, ?_, himports 0 _ rfl⟩
  · exact hfixups ⟨0x1_0000_4008, 0x1_0000_0010, none⟩ (by simp [exampleFixups])
  · exact hfixups ⟨0x1_0000_4000, 0, some 0⟩ (by simp [exampleFixups])
  · exact hentries ⟨0x1_0000_4010, 0x8000_0001_0000_0020, none, "_g"⟩ (by simp [exampleGot])

/-- Two slots of which the second begins in the middle of the first. -/
def overlappingFixups : List DataFixup :=
  [⟨0x1_0000_4000, 0x1_0000_0010, none⟩, ⟨0x1_0000_4004, 0x1_0000_4000, none⟩]

def overlappingChained : ChainedRebases := ofFixups overlappingFixups [] []

def overlappingTable : Bytes := okBytes
  (writeChainedFixupTable (some (exampleData 16)) overlappingChained (replicate 100 0))

def overlappingSegment : Bytes := okBytes
  (writeDataFixups overlappingChained 0x1_0000_4000 overlappingFixups (replicate 16 0))

/-- **Slots that overlap are not reached.**  Everything succeeds, but the second pointer is written
over the distance of the first, and the walk ends there. -/
theorem overlapping_slot_is_not_reached :
    writeChainedFixupTable (some (exampleData 16)) overlappingChained (List.replicate 100 0)
        = .ok overlappingTable ∧
      writeGot overlappingChained 0x1_0000_4010 [] = .ok [] ∧
      writeDataFixups overlappingChained 0x1_0000_4000 overlappingFixups (List.replicate 16 0)
        = .ok overlappingSegment ∧
      0x1_0000_4004 ∈ overlappingChained.slots ∧
      walkFixups overlappingTable overlappingSegment = some [(0, .rebase 0x10 0)] := by
  have hword : readLe 8 overlappingSegment 0 = some 0x4000_0000_0010 := by decide +kernel
  have hchain : walkChain overlappingSegment 0 = some [(0, .rebase 0x10 0)] := by
    rw [walkChain]
    split
    · rename_i hnone
      cases hword.symm.trans hnone
    · rename_i word hsome
      cases hword.symm.trans hsome
      rw [dif_pos (by decide)]
      rfl
  have hpage : walkPage overlappingTable overlappingSegment 56 MACHO_PAGE_SIZE 0
      = some [(0, .rebase 0x10 0)] := by
    have hstart : readLe 2 overlappingTable (56 + 22 + 2 * 0) = some 0 := by decide +kernel
    rw [walkPage, hstart]
    exact hchain
  refine ⟨by decide +kernel, by decide +kernel, by decide +kernel, by decide +kernel, ?_⟩
  have hstarts : readLe 4 overlappingTable 4 = some 32 := by decide +kernel
  have hinfo : readLe 4 overlappingTable 44 = some 24 := by decide +kernel
  have hsize : readLe 2 overlappingTable 60 = some MACHO_PAGE_SIZE := by decide +kernel
  have hcount : readLe 2 overlappingTable 76 = some 1 := by decide +kernel
  have hpages : (range 1).mapM (walkPage overlappingTable overlappingSegment 56 MACHO_PAGE_SIZE)
      = some [[(0, .rebase 0x10 0)]] := by
    rw [range_one, mapM_cons, hpage]
    rfl
  have hoffset : 32 + 4 * (DATA_SEGMENT_CHAIN_INDEX + 1) = 44 := rfl
  simp only [walkFixups, hstarts, bind_eq_bind, bind_some, hoffset, hinfo, hsize,
    hcount]
  rw [if_neg (by decide), hpages]
  rfl

end Srs.MachO
