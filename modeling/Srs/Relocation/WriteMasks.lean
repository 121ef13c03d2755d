/-
# The window and the mask of an instruction's immediate

`write_windows_size` says how many bytes a relocation can change, `bit_mask` which bits of a word.
The first is a table.  The second is found by writing all ones into an empty word: where a one
appears is the immediate.  That is right for a format that puts each bit of the value at a place
of its own (`maskExact_of_out`).  It is wrong where a constant is added to the value before it is
cut, since all ones become zero then, and where the opcode is written with the value.
`exact_iff` says for which instructions both are right.
-/
import Srs.Relocation.Formats

namespace Srs.Relocation

open BitFields LeBytes List RelocationInstruction Nat RiscVInstruction

/-! ## 1. Definitions -/

namespace RelocationInstruction

/-- `RelocationInstruction::write_windows_size` -/
def writeWindowsSize : RelocationInstruction → Nat
  | aArch64 _ => 4
  | riscV .uiType => 8
  | riscV _ => 4
  | loongArch64 _ => 4

/-- `RelocationInstruction::bit_mask` of a range of bits. -/
def bitMask (insn : RelocationInstruction) (start stop : Nat) : Bytes :=
  (insn.writeToValue (shl64 1 (stop - start) - 1) false (replicate 4 0)).map (~~~ ·)

/-- The ranges of bits that the relocations of the three architectures use an instruction with. -/
def bitRanges : RelocationInstruction → List (Nat × Nat)
  | aArch64 .adr => [(0, 21), (12, 33)]
  | aArch64 .movkz => [(0, 16), (16, 32), (32, 48), (48, 64)]
  | aArch64 .movnz => [(0, 16), (16, 32), (16, 33), (32, 48), (48, 64)]
  | aArch64 .ldr => [(0, 21), (2, 21)]
  | aArch64 .ldrRegister => [(3, 12)]
  | aArch64 .add => [(0, 12), (12, 24)]
  | aArch64 .ldSt => [(0, 12), (1, 12), (2, 12), (2, 21), (3, 12), (3, 15), (4, 12)]
  | aArch64 .tstBr => [(2, 16)]
  | aArch64 .bcond => [(2, 21)]
  | aArch64 .jumpCall => [(2, 28)]
  | aArch64 .machOLow12 => [(0, 12)]
  | riscV .uiType => [(0, 64)]
  | riscV .cbType => [(0, 16)]
  | riscV .cjType => [(0, 16)]
  | riscV _ => [(0, 32)]
  | loongArch64 .shift5 => [(2, 22), (12, 32), (32, 52)]
  | loongArch64 .shift10 => [(0, 12), (2, 18), (52, 64)]
  | loongArch64 .branch21 => [(2, 23)]
  | loongArch64 .branch26 => [(2, 28)]
  | loongArch64 .call30 => [(2, 19)]
  | loongArch64 .call36 => [(2, 38)]

/-- An immediate in one instruction word. -/
def singleWord : RelocationInstruction → Bool
  | riscV .uiType | loongArch64 .call30 | loongArch64 .call36 => false
  | _ => true

/-- The pairs of LoongArch64, whose second word is not in the window, the formats that add a
constant to the value, and the one that writes its opcode. -/
def exceptional : RelocationInstruction → Bool
  | loongArch64 .call30 | loongArch64 .call36 | riscV .uType | riscV .cluiType
  | aArch64 .movnz => true
  | _ => false

end RelocationInstruction

variable {insn : RelocationInstruction}

/-- No byte behind the window changes. -/
def WindowExact (insn : RelocationInstruction) : Prop :=
  ∀ v negative dest, (insn.writeToValue v negative dest).drop insn.writeWindowsSize
    = dest.drop insn.writeWindowsSize

/-- A bit of the word in the first four bytes. -/
def wordBit (bytes : Bytes) (i : Nat) : Bool := (wordOf 4 bytes).testBit i

/-- Two values of a width, with their signs, that differ in a bit when they are written. -/
def Varies (insn : RelocationInstruction) (width i : Nat) : Prop :=
  ∃ dest : Bytes, dest.length = 4 ∧ ∃ v w negative negative', v < 2 ^ width ∧ w < 2 ^ width ∧
    wordBit (insn.writeToValue v negative dest) i ≠ wordBit (insn.writeToValue w negative' dest) i

/-- The mask has a zero for each bit that varies, and for no other. -/
def MaskExact (insn : RelocationInstruction) (start stop : Nat) : Prop :=
  ∀ i < 32, wordBit (insn.bitMask start stop) i = false ↔ Varies insn (stop - start) i

/-! ## 2. The window -/

theorem drop_putField {n window : Nat} (h : n ≤ window) (keep mask : Nat) (dest : Bytes) :
    (putField n keep mask dest).drop window = dest.drop window := by
  obtain ⟨more, rfl⟩ := Nat.exists_eq_add_of_le h
  have hand := drop_overlay (· &&& ·) (leBytes n keep) dest
  have hor := drop_overlay (· ||| ·) (leBytes n mask) (overlay (· &&& ·) dest (leBytes n keep))
  rw [length_leBytes] at hand hor
  rw [← drop_drop, ← drop_drop, putField, orFromSlice, andFromSlice, hor, hand]

theorem drop_orFromSlice {window : Nat} (h : 4 ≤ window) (mask : Nat) (dest : Bytes) :
    (orFromSlice dest (leBytes 4 mask)).drop window = dest.drop window := by
  obtain ⟨more, rfl⟩ := Nat.exists_eq_add_of_le h
  have hor := drop_overlay (· ||| ·) (leBytes 4 mask) dest
  rw [length_leBytes] at hor
  rw [← drop_drop, ← drop_drop, orFromSlice, hor]

theorem windowExact_aArch64 (insn : AArch64Instruction) : WindowExact (.aArch64 insn) := by
  intro v negative dest
  change (insn.writeToValue v negative dest).drop 4 = dest.drop 4
  cases insn with
  | movnz | machOLow12 => exact drop_putField (le_refl 4) _ _ dest
  | adr | movkz | ldr | ldrRegister | add | ldSt | tstBr | bcond | jumpCall =>
    exact drop_orFromSlice (le_refl 4) _ dest

theorem windowExact_riscV (insn : RiscVInstruction) : WindowExact (.riscV insn) := by
  intro v negative dest
  cases insn with
  | uiType =>
    change (putField 4 _ _ (dest.take 4) ++ putField 4 _ _ (dest.drop 4)).drop 8 = dest.drop 8
    have hfront : (putField 4 utypeImmediateMask
        (mask v .uType) (dest.take 4)).length ≤ 4 := by
      rw [length_putField, length_take]
      omega
    rw [drop_append, drop_of_length_le (by omega), nil_append,
      length_putField, length_take]
    by_cases hshort : dest.length < 4
    · have hrest : dest.drop 4 = [] := drop_of_length_le (by omega)
      have hempty : putField 4 itypeImmediateMask
          (mask v .iType) (dest.drop 4) = [] := by
        rw [← length_eq_zero_iff, length_putField, hrest, length_nil]
      rw [hempty, drop_nil, drop_of_length_le (by omega)]
    · rw [show 8 - min 4 dest.length = 4 by omega, drop_putField (le_refl 4),
        drop_drop]
  | uType | iType | sType | bType | jType => exact drop_putField (le_refl 4) _ _ dest
  | cbType | cjType | cluiType => exact drop_putField (by decide) _ _ dest

theorem windowExact_loongArch64 {insn : LoongArch64Instruction} (h : insn.plain = true) :
    WindowExact (.loongArch64 insn) := by
  intro v negative dest
  cases insn with
  | call30 | call36 => cases h
  | shift5 | shift10 | branch21 | branch26 => exact drop_putField (le_refl 4) _ _ dest

/-- The second word of a pair is written. -/
theorem not_windowExact_call30 : ¬ WindowExact (.loongArch64 .call30) := by
  intro h
  exact absurd (h 1 false (replicate 8 0)) (by decide +kernel)

theorem not_windowExact_call36 : ¬ WindowExact (.loongArch64 .call36) := by
  intro h
  exact absurd (h 1 false (replicate 8 0)) (by decide +kernel)

/-! ## 3. The mask -/

theorem testBit_toNat_not (b : UInt8) {i : Nat} (hi : i < 8) :
    (~~~b).toNat.testBit i = !b.toNat.testBit i := by
  rw [← UInt8.toNat_toBitVec, ← UInt8.toNat_toBitVec, UInt8.toBitVec_not, BitVec.toNat_not,
    Nat.sub_sub, Nat.add_comm 1, Nat.testBit_two_pow_sub_succ b.toBitVec.isLt,
    decide_eq_true hi, Bool.true_and]

theorem testBit_leValue_not : ∀ (bytes : Bytes) {i : Nat}, i < 8 * bytes.length →
    (leValue (bytes.map (~~~ ·))).testBit i = !(leValue bytes).testBit i := by
  intro bytes
  induction bytes with
  | nil => exact fun h => absurd h (not_lt_zero _)
  | cons b bytes ih =>
    intro i hi
    rw [length_cons] at hi
    rw [map_cons, testBit_leValue_cons, testBit_leValue_cons]
    split
    · rename_i hlow
      exact testBit_toNat_not b hlow
    · exact ih (by omega)

/-- A mask is the complement of the word with all ones in it. -/
theorem wordBit_map_not {bytes : Bytes} (hlen : bytes.length = 4) {i : Nat} (hi : i < 32) :
    wordBit (bytes.map (~~~ ·)) i = !wordBit bytes i := by
  rw [wordBit, wordBit, wordOf, wordOf, take_of_length_le (by rw [length_map, hlen]),
    take_of_length_le (by rw [hlen])]
  exact testBit_leValue_not bytes (by omega)

/-- The instruction changes nothing but the places of the segments. -/
def Scatters (insn : RelocationInstruction) (width keep : Nat) (segs : List Segment) : Prop :=
  ∀ v negative, v < 2 ^ width → ∀ dest : Bytes, dest.length = 4 → ∃ v',
    wordOf 4 (insn.writeToValue v negative dest) = wordOf 4 dest &&& keep ||| scatter segs v'

/-- All ones are seen at the places of the segments, and zero is not. -/
def ShowsOnes (insn : RelocationInstruction) (width : Nat) (segs : List Segment) : Prop :=
  (insn.writeToValue (shl64 1 width - 1) false (replicate 4 0)).length = 4 ∧
    ∀ i < 32,
      wordBit (insn.writeToValue (shl64 1 width - 1) false (replicate 4 0)) i
          = holds segs i ∧
        wordBit (insn.writeToValue 0 false (replicate 4 0)) i = false

instance (width : Nat) (segs : List Segment) : Decidable (ShowsOnes insn width segs) :=
  inferInstanceAs (Decidable (_ ∧ _))

/-- **The mask is exact** when the value is put into segments, and all ones show all of them. -/
theorem maskExact_of_scatters {start stop keep : Nat} (hwidth : stop - start < 64)
    {segs : List Segment} (hscatters : Scatters insn (stop - start) keep segs)
    (hones : ShowsOnes insn (stop - start) segs) : MaskExact insn start stop := by
  intro i hi
  obtain ⟨hlength, hshown⟩ := hones
  have hmask : wordBit (insn.bitMask start stop) i = !holds segs i := by
    rw [bitMask, wordBit_map_not hlength hi, (hshown i hi).1]
  rw [hmask, Bool.not_eq_false']
  constructor
  · intro hholds
    have hall : shl64 1 (stop - start) - 1 < 2 ^ (stop - start) := by
      have hone : shl64 1 (stop - start) = 2 ^ (stop - start) := by
        rw [shl64, one_shiftLeft,
          Nat.mod_eq_of_lt (Nat.pow_lt_pow_right (by decide) hwidth)]
      have hpos := Nat.two_pow_pos (stop - start)
      omega
    refine ⟨replicate 4 0, rfl, _, 0, false, false, hall, Nat.two_pow_pos _, ?_⟩
    rw [(hshown i hi).1, (hshown i hi).2, hholds]
    decide
  · rintro ⟨dest, hdest, v, w, negative, negative', hv, hw, hdiffers⟩
    by_contra hout
    rw [Bool.not_eq_true] at hout
    -- outside of the segments both words have what the destination had
    have hkept : ∀ {x sign}, x < 2 ^ (stop - start) →
        wordBit (insn.writeToValue x sign dest) i = (wordOf 4 dest &&& keep).testBit i := by
      intro x sign hx
      obtain ⟨x', hx'⟩ := hscatters x sign hx dest hdest
      rw [wordBit, hx', testBit_or, testBit_scatter_of_not_holds hout, Bool.or_false]
    exact hdiffers ((hkept hv).trans (hkept hw).symm)

/-! ## 4. The three architectures -/

variable {dest : Bytes} {range : Nat × Nat}

theorem wordOf_four (hlen : dest.length = 4) :
    wordOf 4 dest = 2 ^ 16 * wordOf 2 (dest.drop 2) + wordOf 2 dest := by
  match dest, hlen with
  | [a, b, c, d], _ =>
    simp only [wordOf, leValue, take_succ_cons, take_zero, drop_succ_cons,
      List.drop_zero, take_nil]
    omega

/-- A field of the first two bytes leaves the other two. -/
theorem wordOf_putField_two {keep mask : Nat} (hkeep : keep < 2 ^ 16) (hmask : mask < 2 ^ 16) (hlen : dest.length = 4) :
    wordOf 4 (putField 2 keep mask dest)
      = wordOf 4 dest &&& (2 ^ 16 * (2 ^ 16 - 1) + keep) ||| mask := by
  have hlow := wordOf_lt 2 (putField 2 keep mask dest)
  have hdest := wordOf_lt 2 dest
  have hhigh := wordOf_lt 2 (dest.drop 2)
  rw [wordOf_four (by rw [length_putField, hlen]), wordOf_four hlen,
    drop_putField (le_refl 2)]
  refine eq_of_testBit_eq fun i => ?_
  rw [testBit_or, testBit_and, testBit_two_pow_mul_add _ hlow,
    testBit_two_pow_mul_add _ hdest, testBit_two_pow_mul_add _ hkeep]
  split
  · rw [wordOf_putField hkeep hmask (by omega), testBit_or, testBit_and]
  · rename_i hge
    have hzero : mask.testBit i = false :=
      testBit_lt_two_pow (lt_of_lt_of_le hmask
        (Nat.pow_le_pow_right (by decide) (by omega)))
    rw [hzero, Bool.or_false, testBit_two_pow_sub_one]
    by_cases hi : i - 16 < 16
    · rw [decide_eq_true hi, Bool.and_true]
    · rw [testBit_lt_two_pow (lt_of_lt_of_le hhigh
        (Nat.pow_le_pow_right (by decide) (by omega))), Bool.false_and]

theorem scatters_riscV {insn : RiscVInstruction} (h : insn.plain = true) (width : Nat) :
    ∃ keep, Scatters (.riscV insn) width keep insn.format.segments := by
  have hok := format_ok insn
  cases insn with
  | uiType | uType | cluiType => cases h
  | iType | sType | bType | jType =>
    exact ⟨_, fun v _ _ dest hlen => ⟨v, wordOf_writeToValue h v hlen.ge⟩⟩
  | cbType =>
    refine ⟨2 ^ 16 * (2 ^ 16 - 1) + cbtypeImmediateMask,
      fun v _ _ dest hlen => ⟨v, ?_⟩⟩
    have hlt := Format.scatter_lt hok.2.1 v
    rw [← mask_eq_scatter h] at hlt ⊢
    exact wordOf_putField_two hok.2.2.1 hlt hlen
  | cjType =>
    refine ⟨2 ^ 16 * (2 ^ 16 - 1) + cjtypeImmediateMask,
      fun v _ _ dest hlen => ⟨v, ?_⟩⟩
    have hlt := Format.scatter_lt hok.2.1 v
    rw [← mask_eq_scatter h] at hlt ⊢
    exact wordOf_putField_two hok.2.2.1 hlt hlen

theorem maskExact_riscV {insn : RiscVInstruction} (h : insn.plain = true)
    (hmem : range ∈ (riscV insn).bitRanges) :
    MaskExact (.riscV insn) range.1 range.2 := by
  obtain ⟨keep, hscatters⟩ := scatters_riscV h (range.2 - range.1)
  cases insn with
  | uiType | uType | cluiType => cases h
  | iType | sType | bType | jType | cbType | cjType =>
    obtain rfl := mem_singleton.mp hmem
    exact maskExact_of_scatters (by decide) hscatters (by decide +kernel)

/-- A segment that a value of the width fills. -/
theorem scatters_one {insn : AArch64Instruction} {width k : Nat} (hle : width + k ≤ 32)
    (hinsn : ∀ v negative dest, insn.writeToValue v negative dest
      = orFromSlice dest (leBytes 4 (shl32 (asU32 v) k))) :
    Scatters (.aArch64 insn) width (2 ^ 32 - 1) [⟨0, k, width⟩] := by
  intro v negative hv dest hlen
  refine ⟨v, ?_⟩
  have hword : wordOf 4 dest &&& (2 ^ 32 - 1) = wordOf 4 dest := by
    rw [and_two_pow_sub_one_eq_mod, mod_eq_of_lt (wordOf_lt 4 dest)]
  rw [hword]
  change wordOf 4 (insn.writeToValue v negative dest) = _
  rw [hinsn]
  exact AArch64Instruction.wordOf_one hle hv dest hlen.ge

theorem maskExact_one {insn : AArch64Instruction} {k : Nat}
    (hinsn : ∀ v negative dest, insn.writeToValue v negative dest
      = orFromSlice dest (leBytes 4 (shl32 (asU32 v) k)))
    (hranges : ∀ r ∈ (aArch64 insn).bitRanges, r.2 - r.1 + k ≤ 32 ∧
      ShowsOnes (.aArch64 insn) (r.2 - r.1) [⟨0, k, r.2 - r.1⟩])
    (hmem : range ∈ (aArch64 insn).bitRanges) :
    MaskExact (.aArch64 insn) range.1 range.2 := by
  obtain ⟨hle, hones⟩ := hranges range hmem
  exact maskExact_of_scatters (by omega) (scatters_one hle hinsn) hones

theorem scatters_machOLow12 :
    Scatters (.aArch64 .machOLow12) 12 0xffc003ff [⟨0, 10, 12⟩] := by
  intro v negative hv dest hlen
  refine ⟨asU32 v >>> AArch64Instruction.machOScale (u32FromSlice dest), ?_⟩
  have hlow : asU32 v >>> AArch64Instruction.machOScale (u32FromSlice dest) < 2 ^ 12 := by
    rw [asU32, mod_eq_of_lt (lt_trans hv (by decide))]
    exact lt_of_le_of_lt (shiftRight_le _ _) hv
  have hmask := @shl32_asU32 _ 10 12 (by decide) hlow
  rw [asU32, mod_eq_of_lt (lt_trans hlow (by decide))] at hmask
  refine (wordOf_putField (by decide) (mod_lt _ (by decide)) hlen.ge).trans ?_
  exact congrArg (wordOf 4 dest &&& 0xffc003ff ||| ·) (hmask.trans (or_zero _).symm)

/-- The word of a format that has the width of the range. -/
theorem scatters_aArch64 {insn : AArch64Instruction} (h : insn.plain = true) :
    Scatters (.aArch64 insn) insn.format.width (2 ^ 32 - 1) insn.format.segments := by
  intro v negative hv dest hlen
  have hsize : insn.format.size = 4 := by cases insn <;> rfl
  have hword : wordOf 4 dest &&& (2 ^ 32 - 1) = wordOf 4 dest := by
    rw [and_two_pow_sub_one_eq_mod, mod_eq_of_lt (wordOf_lt 4 dest)]
  have hwritten := AArch64Instruction.wordOf_writeToValue h hv negative (hsize.trans hlen.symm).le
  rw [hsize] at hwritten
  exact ⟨v, hwritten.trans (by rw [hword])⟩

theorem maskExact_aArch64 {insn : AArch64Instruction} (h : insn ≠ .movnz)
    (hmem : range ∈ (aArch64 insn).bitRanges) :
    MaskExact (.aArch64 insn) range.1 range.2 := by
  cases insn with
  | movnz => exact absurd rfl h
  | adr =>
    have hscatters := @scatters_aArch64 .adr rfl
    obtain rfl | hmem := mem_cons.mp hmem
    · exact maskExact_of_scatters (by decide) hscatters (by decide +kernel)
    · obtain rfl := mem_singleton.mp hmem
      exact maskExact_of_scatters (by decide) hscatters (by decide +kernel)
  | jumpCall =>
    obtain rfl := mem_singleton.mp hmem
    exact maskExact_of_scatters (by decide) (@scatters_aArch64 .jumpCall rfl) (by decide +kernel)
  | machOLow12 =>
    obtain rfl := mem_singleton.mp hmem
    exact maskExact_of_scatters (by decide) scatters_machOLow12 (by decide +kernel)
  | movkz | ldr | tstBr | bcond =>
    exact maskExact_one (k := 5) (fun _ _ _ => rfl) (by decide +kernel) hmem
  | ldrRegister | add | ldSt =>
    exact maskExact_one (k := 10) (fun _ _ _ => rfl) (by decide +kernel) hmem

theorem scatters_loongArch64 {insn : LoongArch64Instruction} (h : insn.plain = true) :
    Scatters (.loongArch64 insn) insn.format.width insn.format.keep insn.format.segments := by
  intro v negative hv dest hlen
  have hsize : insn.format.size = 4 := by
    cases insn with
    | call30 | call36 => cases h
    | shift5 | shift10 | branch21 | branch26 => rfl
  have hwritten := LoongArch64Instruction.wordOf_writeToValue h hv (hsize.trans hlen.symm).le
  rw [hsize] at hwritten
  exact ⟨v, hwritten⟩

/-- A branch of 16 bits takes four more bits than the immediates of `shift10` do. -/
theorem scatters_shift10_branch16 :
    Scatters (.loongArch64 .shift10) 16 0xffc003ff [⟨0, 10, 16⟩] := by
  intro v negative hv dest hlen
  refine ⟨v, ?_⟩
  have hmask : asU32 (shl64 v 10) = scatter [⟨0, 10, 16⟩] v :=
    (asU32_shl64 (by decide) hv).trans (or_zero _).symm
  refine (wordOf_putField (by decide) (mod_lt _ (by decide)) hlen.ge).trans ?_
  exact congrArg (wordOf 4 dest &&& 0xffc003ff ||| ·) hmask

theorem maskExact_loongArch64 {insn : LoongArch64Instruction}
    (h : insn.plain = true) (hmem : range ∈ (loongArch64 insn).bitRanges) :
    MaskExact (.loongArch64 insn) range.1 range.2 := by
  have hscatters := scatters_loongArch64 h
  cases insn with
  | call30 | call36 => cases h
  | branch21 | branch26 =>
    obtain rfl := mem_singleton.mp hmem
    exact maskExact_of_scatters (by decide) hscatters (by decide +kernel)
  | shift5 =>
    simp only [bitRanges, mem_cons, not_mem_nil, or_false] at hmem
    obtain rfl | rfl | rfl := hmem
    all_goals exact maskExact_of_scatters (by decide) hscatters (by decide +kernel)
  | shift10 =>
    simp only [bitRanges, mem_cons, not_mem_nil, or_false] at hmem
    obtain rfl | rfl | rfl := hmem
    · exact maskExact_of_scatters (by decide) hscatters (by decide +kernel)
    · exact maskExact_of_scatters (by decide) scatters_shift10_branch16 (by decide +kernel)
    · exact maskExact_of_scatters (by decide) hscatters (by decide +kernel)

/-! ## 5. Where it is wrong -/

/-- A bit that the mask keeps and that two values differ in. -/
theorem not_maskExact_of_kept {start stop i : Nat} (hi : i < 32)
    (hkept : wordBit (insn.bitMask start stop) i = true) {v w : Nat}
    (hv : v < 2 ^ (stop - start)) (hw : w < 2 ^ (stop - start))
    (hdiffers : wordBit (insn.writeToValue v false (replicate 4 0)) i
      ≠ wordBit (insn.writeToValue w false (replicate 4 0)) i) :
    ¬ MaskExact insn start stop := by
  intro h
  have hclear := (h i hi).mpr ⟨replicate 4 0, rfl, v, w, false, false, hv, hw, hdiffers⟩
  rw [hkept] at hclear
  cases hclear

/-- All ones and the rounding constant of `lui` and `auipc` are no high part. -/
theorem not_maskExact_uType : ¬ MaskExact (.riscV .uType) 0 32 :=
  @not_maskExact_of_kept _ 0 32 12 (by decide) (by decide +kernel) 0 0x1000 (by decide) (by decide)
    (by decide +kernel)

theorem not_maskExact_cluiType : ¬ MaskExact (.riscV .cluiType) 0 32 :=
  @not_maskExact_of_kept _ 0 32 2 (by decide) (by decide +kernel) 0 0x1000 (by decide) (by decide)
    (by decide +kernel)

/-- The top bit of both opcodes of a move is set. -/
theorem wordBit_movnz (hlen : dest.length = 4) (v : Nat) (negative : Bool) :
    wordBit ((aArch64 .movnz).writeToValue v negative dest) 31 = true := by
  have hword : ∀ opcode imm : Nat, opcode < 2 ^ 32 →
      wordOf 4 (putField 4 0x0060001f (opcode ||| shl32 imm 5) dest)
        = wordOf 4 dest &&& 0x0060001f ||| (opcode ||| shl32 imm 5) := fun opcode imm hopcode =>
    wordOf_putField (by decide) (or_lt_two_pow hopcode (mod_lt _ (by decide))) hlen.ge
  rw [wordBit]
  change (wordOf 4 (putField 4 0x0060001f _ dest)).testBit 31 = true
  cases negative with
  | false =>
    have hset : (0xd2800000 : Nat).testBit 31 = true := by decide
    rw [if_neg (by decide), hword _ _ (by decide), testBit_or, testBit_or, hset,
      Bool.true_or, Bool.or_true]
  | true =>
    have hset : (0x92800000 : Nat).testBit 31 = true := by decide
    rw [if_pos rfl, hword _ _ (by decide), testBit_or, testBit_or, hset,
      Bool.true_or, Bool.or_true]

theorem not_maskExact_movnz
    (hmem : range ∈ (aArch64 .movnz).bitRanges) :
    ¬ MaskExact (.aArch64 .movnz) range.1 range.2 := by
  intro h
  have hclear : ∀ r ∈ (aArch64 .movnz).bitRanges,
      wordBit ((aArch64 .movnz).bitMask r.1 r.2) 31 = false := by
    decide +kernel
  obtain ⟨dest, hlen, v, w, negative, negative', -, -, hdiffers⟩ :=
    (h 31 (by decide)).mp (hclear range hmem)
  rw [wordBit_movnz hlen, wordBit_movnz hlen] at hdiffers
  exact hdiffers rfl

/-! ## 6. All instructions -/

/-- **The window and the mask are right for the formats without an exception, and for no other.** -/
theorem exact_iff {range : Nat × Nat} (hmem : range ∈ insn.bitRanges) :
    (WindowExact insn ∧ (insn.singleWord = true → MaskExact insn range.1 range.2))
      ↔ insn.exceptional = false := by
  cases insn with
  | aArch64 insn =>
    by_cases hmovnz : insn = .movnz
    · subst hmovnz
      exact iff_of_false (fun h => not_maskExact_movnz hmem (h.2 rfl)) (by decide)
    · refine iff_of_true ⟨windowExact_aArch64 insn, fun _ => maskExact_aArch64 hmovnz hmem⟩ ?_
      cases insn with
      | movnz => exact absurd rfl hmovnz
      | adr | movkz | ldr | ldrRegister | add | ldSt | tstBr | bcond | jumpCall | machOLow12 => rfl
  | riscV insn =>
    have hwindow := windowExact_riscV insn
    cases insn with
    | uiType => exact iff_of_true ⟨hwindow, fun h => by cases h⟩ rfl
    | uType =>
      obtain rfl := mem_singleton.mp hmem
      exact iff_of_false (fun h => not_maskExact_uType (h.2 rfl)) (by decide)
    | cluiType =>
      obtain rfl := mem_singleton.mp hmem
      exact iff_of_false (fun h => not_maskExact_cluiType (h.2 rfl)) (by decide)
    | iType | sType | bType | jType | cbType | cjType =>
      exact iff_of_true ⟨hwindow, fun _ => maskExact_riscV rfl hmem⟩ rfl
  | loongArch64 insn =>
    cases insn with
    | call30 => exact iff_of_false (fun h => not_windowExact_call30 h.1) (by decide)
    | call36 => exact iff_of_false (fun h => not_windowExact_call36 h.1) (by decide)
    | shift5 | shift10 | branch21 | branch26 =>
      exact iff_of_true ⟨windowExact_loongArch64 rfl, fun _ => maskExact_loongArch64 rfl hmem⟩ rfl

/-- A store, and the load of a high part. -/
theorem exact_iff_sType_uType :
    MaskExact (.riscV .sType) 0 32 ∧ ¬ MaskExact (.riscV .uType) 0 32 :=
  ⟨((@exact_iff (.riscV .sType) (0, 32) (mem_singleton.mpr rfl)).mpr rfl).2 rfl, fun h =>
    absurd ((@exact_iff (.riscV .uType) (0, 32) (mem_singleton.mpr rfl)).mp
      ⟨windowExact_riscV .uType, fun _ => h⟩) (by decide)⟩

/-- The second word of a `call36` is behind the window, and bit 12 of an `auipc` is kept by the
mask. -/
theorem not_exact : ¬ WindowExact (.loongArch64 .call36) ∧ ¬ MaskExact (.riscV .uType) 0 32 :=
  ⟨not_windowExact_call36, not_maskExact_uType⟩

end Srs.Relocation
