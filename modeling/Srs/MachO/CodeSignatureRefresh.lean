/-
# A refreshed code signature is the signature of the patched output

`refresh_code_signature` rewrites the hashes of the pages that the changed ranges touch.  Three
facts make that enough:

* what `write_code_signature` wrote passes every check of the refresh, since the headers do not
  depend on the content (`hashesRange_signature`);
* the signature of the patched content differs from the one in the output at most in the slots of
  changed pages, and each slot that is written is a piece of the new signature, so no difference is
  left at the end (`AgreeExcept.copy`);
* after the checks nothing can fail any more: every slot lies inside the signature
  (`RefreshPlan.Fits`), so an error leaves the output as it was.

The load commands are part of the patched bytes.  The first fact therefore needs that they can
still be walked and that the walk finds the command of the signature and no second one.
-/
import Srs.MachO.CodeSignature

namespace Srs.MachO

open Buffers BeWords List Option CodeSignatureBlobIndex Except
open Output (OutputRecordLayout OutputSectionId)

/-! ## 1. The buffer of a section -/

/-- The sections lie one after the other in a file of this length. -/
def SectionsFit (length : Nat) : Nat → List SectionAllocation → Prop
  | _, [] => True
  | offset, a :: rest =>
    offset ≤ a.offset ∧ a.offset + a.size ≤ length ∧ SectionsFit length (a.offset + a.size) rest

variable {a : SectionAllocation} {length : Nat}

theorem SectionsFit.of_mem : ∀ {as : List SectionAllocation}
    {offset : Nat}, SectionsFit length offset as → a ∈ as → a.offset + a.size ≤ length
  | b :: as, _, h, hmem => by
    rcases mem_cons.mp hmem with rfl | hmem
    · exact h.2.1
    · exact of_mem h.2.2 hmem

/-- Whether the split succeeds depends on the length of the output only, and each section gets its
range. -/
theorem splitSections_eq_ok {out : Bytes} : ∀ {as : List SectionAllocation} {offset : Nat}
    {buffers : List (OutputSectionId × Bytes)}, offset ≤ out.length →
      (splitSections offset (out.drop offset) as = .ok buffers ↔
        SectionsFit out.length offset as ∧
          buffers = as.map fun a => (a.id, (out.drop a.offset).take a.size))
  | [], offset, buffers, _ => by
    simp [splitSections, SectionsFit, eq_comm]
  | a :: rest, offset, buffers, hoffset => by
    have hdrop : offset ≤ a.offset →
        (out.drop offset).drop (a.offset - offset) = out.drop a.offset := by
      intro h
      rw [drop_drop]
      congr 1
      omega
    constructor
    · intro h
      rw [splitSections] at h
      obtain ⟨_, hle, h⟩ := bind_eq_ok.mp h
      have hle := orPanic_eq_ok.mp hle
      obtain ⟨⟨padding, data⟩, hdata, h⟩ := bind_eq_ok.mp h
      obtain ⟨hpadding, -, rfl⟩ := splitOff_eq_ok.mp hdata
      rw [hdrop hle] at h
      obtain ⟨⟨buffer, data⟩, hbuffer, h⟩ := bind_eq_ok.mp h
      obtain ⟨hsize, rfl, rfl⟩ := splitOff_eq_ok.mp hbuffer
      rw [length_drop] at hpadding hsize
      rw [drop_drop] at h
      obtain ⟨rest', hrest, h⟩ := bind_eq_ok.mp h
      obtain ⟨hfit, rfl⟩ := (splitSections_eq_ok (by omega)).mp hrest
      cases h
      exact ⟨⟨hle, by omega, hfit⟩, rfl⟩
    · rintro ⟨⟨hle, hsize, hfit⟩, rfl⟩
      have hrest := (splitSections_eq_ok hsize).mpr ⟨hfit, rfl⟩
      rw [splitSections]
      refine bind_eq_ok.mpr ⟨(), orPanic_eq_ok.mpr hle, ?_⟩
      refine bind_eq_ok.mpr ⟨(_, out.drop a.offset), splitOff_eq_ok.mpr
        ⟨by rw [length_drop]; omega, rfl, (hdrop hle).symm⟩, ?_⟩
      refine bind_eq_ok.mpr ⟨(_, out.drop (a.offset + a.size)), splitOff_eq_ok.mpr
        ⟨by rw [length_drop]; omega, rfl, by rw [drop_drop]⟩, ?_⟩
      exact bind_eq_ok.mpr ⟨_, hrest, rfl⟩

theorem mem_sectionAllocations {layout : MachOLayout} :
    a ∈ sectionAllocations layout ↔ ∃ r, layout.sectionLayouts[a.id]? = some r ∧
      a = ⟨a.id, r.fileOffset, r.fileSize⟩ := by
  rw [sectionAllocations, mem_mergeSort, List.mem_map]
  constructor
  · rintro ⟨⟨r, id⟩, hmem, rfl⟩
    exact ⟨r, mem_zipIdx_iff_getElem?.mp hmem, rfl⟩
  · rintro ⟨r, hr, ha⟩
    exact ⟨(r, a.id), mem_zipIdx_iff_getElem?.mpr hr, ha.symm⟩

/-- A section gets the bytes at its place. -/
theorem sectionBuffer_eq_ok {layout : MachOLayout} {out buffer : Bytes} {id : OutputSectionId}
    {r : OutputRecordLayout} (hr : layout.sectionLayouts[id]? = some r) :
    sectionBuffer layout out id = .ok buffer ↔
      SectionsFit out.length 0 (sectionAllocations layout) ∧
        buffer = (out.drop r.fileOffset).take r.fileSize := by
  have hsplit := @splitSections_eq_ok out (sectionAllocations layout) 0
  have hfind : (((sectionAllocations layout).map fun a =>
      (a.id, (out.drop a.offset).take a.size)).find? fun b => b.1 = id).map Prod.snd
        = some ((out.drop r.fileOffset).take r.fileSize) := by
    obtain ⟨b, hb⟩ : ∃ b, ((sectionAllocations layout).map fun a =>
        (a.id, (out.drop a.offset).take a.size)).find? (fun b => b.1 = id) = some b := by
      refine isSome_iff_exists.mp (find?_isSome.mpr
        ⟨(id, (out.drop r.fileOffset).take r.fileSize), mem_map.mpr
          ⟨⟨id, r.fileOffset, r.fileSize⟩, mem_sectionAllocations.mpr ⟨r, hr, rfl⟩, rfl⟩, ?_⟩)
      exact decide_eq_true rfl
    obtain ⟨a, ha, rfl⟩ := mem_map.mp (mem_of_find?_eq_some hb)
    have hid : a.id = id := by simpa using find?_some hb
    obtain ⟨r', hr', ha'⟩ := mem_sectionAllocations.mp ha
    obtain rfl : r' = r := some.inj (hr'.symm.trans (hid ▸ hr))
    rw [hb, map_some, ha']
  rw [sectionBuffer, bind_eq_ok]
  constructor
  · rintro ⟨buffers, hbuffers, h⟩
    obtain ⟨hfit, rfl⟩ := (hsplit (Nat.zero_le _)).mp hbuffers
    rw [hfind] at h
    exact ⟨hfit, (ok.inj h).symm⟩
  · rintro ⟨hfit, rfl⟩
    exact ⟨_, (hsplit (Nat.zero_le _)).mpr ⟨hfit, rfl⟩, by rw [hfind]; rfl⟩

/-! ## 2. What is signed -/

/-- The layouts and output lengths for which an output can be signed. -/
structure Signable (layout : MachOLayout) (signature text : OutputRecordLayout) (length : Nat) :
    Prop where
  signature_eq : layout.sectionLayouts[layout.codeSignature]? = some signature
  text_eq : layout.textSegmentSize = some text
  fit : SectionsFit length 0 (sectionAllocations layout)
  /-- Headers, identifier and one hash for each page. -/
  size_eq : signature.fileSize = 128 + divCeil signature.fileOffset CS_BLOCK_SIZE * CS_HASH_SIZE

theorem Signable.le_length {layout : MachOLayout} {signature text : OutputRecordLayout} (h : Signable layout signature text length) :
    signature.fileOffset + signature.fileSize ≤ length :=
  h.fit.of_mem (a := ⟨layout.codeSignature, signature.fileOffset, signature.fileSize⟩)
    (mem_sectionAllocations.mpr ⟨signature, h.signature_eq, rfl⟩)

theorem length_signatureHeaders (signature text : OutputRecordLayout) :
    (signatureHeaders signature text).length = 128 := by
  simp [signatureHeaders, identifier, CS_PADDED_FILENAME_SIZE, CS_IDENTIFIER_STRING, divCeil,
    CodeSignatureSuperBlob.size, size, CodeSignatureCodeDirectory.size]

section

variable (digest : Bytes → Digest)

theorem length_calculatedHashes (content : Bytes) : (calculatedHashes digest content).length
    = divCeil content.length CS_BLOCK_SIZE * CS_HASH_SIZE := by
  rw [calculatedHashes, length_flatMap_pieces fun page => (digest page).property, pages,
    length_map, length_range]

/-- What `write_code_signature` leaves in an output. -/
def signed (signature text : OutputRecordLayout) (out : Bytes) : Bytes :=
  splice out signature.fileOffset
    (signatureHeaders signature text ++ calculatedHashes digest (out.take signature.fileOffset))

/-- **When `write_code_signature` succeeds, and what it leaves.** -/
theorem writeCodeSignature_eq_ok {layout : MachOLayout} {out out' : Bytes} :
    writeCodeSignature digest layout out = .ok out' ↔
      ∃ signature text, Signable layout signature text out.length ∧
        out' = signed digest signature text out := by
  have hheaders : CS_BLOB_HEADERS_SIZE + CodeSignatureCodeDirectory.size + CS_PADDED_FILENAME_SIZE
      = 128 := rfl
  constructor
  · intro h
    rw [writeCodeSignature] at h
    obtain ⟨signature, hsignature, h⟩ := bind_eq_ok.mp h
    have hsig := okOr_eq_ok.mp hsignature
    obtain ⟨content, hcontent, h⟩ := bind_eq_ok.mp h
    obtain ⟨-, hoffset, hcontent⟩ := slice_eq_some.mp (okOr_eq_ok.mp hcontent)
    rw [List.drop_zero, Nat.sub_zero] at hcontent
    obtain ⟨buffer, hbuffer, h⟩ := bind_eq_ok.mp h
    obtain ⟨hfit, hbuffer⟩ := (sectionBuffer_eq_ok hsig).mp hbuffer
    obtain ⟨-, -, h⟩ := bind_eq_ok.mp h
    obtain ⟨-, -, h⟩ := bind_eq_ok.mp h
    obtain ⟨-, -, h⟩ := bind_eq_ok.mp h
    rw [hheaders] at h
    obtain ⟨_, hlong, h⟩ := bind_eq_ok.mp h
    obtain ⟨text, htext, h⟩ := bind_eq_ok.mp h
    obtain ⟨_, hhashes, h⟩ := bind_eq_ok.mp h
    have hlong := orPanic_eq_ok.mp hlong
    have hhashes := orPanic_eq_ok.mp hhashes
    have hle := hfit.of_mem (a := ⟨layout.codeSignature, signature.fileOffset, signature.fileSize⟩)
      (mem_sectionAllocations.mpr ⟨signature, hsig, rfl⟩)
    have hbuflen : buffer.length = signature.fileSize := by
      rw [hbuffer, length_take, length_drop]
      dsimp only at hle
      omega
    have hcontentlen : content.length = signature.fileOffset := by
      rw [hcontent, length_take]
      omega
    rw [length_calculatedHashes, hcontentlen, hbuflen] at hhashes
    rw [hbuflen] at hlong
    refine ⟨signature, text, ⟨hsig, okOr_eq_ok.mp htext, hfit, by omega⟩, ?_⟩
    rw [signed, ← hcontent]
    exact (ok.inj h).symm
  · rintro ⟨signature, text, h, rfl⟩
    have hle := h.le_length
    have hsize := h.size_eq
    have hbuflen : ((out.drop signature.fileOffset).take signature.fileSize).length
        = signature.fileSize := by
      rw [length_take, length_drop]
      omega
    have hcontentlen : (out.take signature.fileOffset).length = signature.fileOffset := by
      rw [length_take]
      omega
    have hcontent : slice out 0 signature.fileOffset = some (out.take signature.fileOffset) :=
      slice_eq_some.mpr ⟨Nat.zero_le _, by omega, by rw [List.drop_zero, Nat.sub_zero]⟩
    rw [writeCodeSignature]
    refine bind_eq_ok.mpr ⟨signature, okOr_eq_ok.mpr h.signature_eq, ?_⟩
    refine bind_eq_ok.mpr ⟨_, okOr_eq_ok.mpr hcontent, ?_⟩
    refine bind_eq_ok.mpr ⟨_, (sectionBuffer_eq_ok h.signature_eq).mpr ⟨h.fit, rfl⟩, ?_⟩
    rw [hheaders, hbuflen]
    refine bind_eq_ok.mpr ⟨(), ensure_eq_ok.mpr ?_, bind_eq_ok.mpr ⟨(), ensure_eq_ok.mpr ?_,
      bind_eq_ok.mpr ⟨(), ensure_eq_ok.mpr ?_, bind_eq_ok.mpr ⟨(), orPanic_eq_ok.mpr ?_,
        bind_eq_ok.mpr ⟨text, okOr_eq_ok.mpr h.text_eq, bind_eq_ok.mpr
          ⟨(), orPanic_eq_ok.mpr ?_, rfl⟩⟩⟩⟩⟩⟩
    · rw [CodeSignatureSuperBlob.size]
      omega
    · rw [CS_BLOB_HEADERS_SIZE, CodeSignatureSuperBlob.size, size]
      omega
    · rw [CS_BLOB_HEADERS_SIZE, CodeSignatureSuperBlob.size, size,
        CodeSignatureCodeDirectory.size]
      omega
    · omega
    · rw [length_calculatedHashes, hcontentlen]
      omega

end

/-! ## 3. The checks on a signature that was written here -/

theorem CodeSignatureSuperBlob.fromPrefix_toBytes (blob : CodeSignatureSuperBlob) (rest : Bytes) :
    fromPrefix (blob.toBytes ++ rest) = some blob := by
  have hlen : ¬ (blob.toBytes ++ rest).length < size := by
    rw [length_append, length_toBytes]
    omega
  rw [fromPrefix, if_neg hlen]
  simp [toBytes, be32At_step]

theorem CodeSignatureBlobIndex.fromPrefix_toBytes (blob : CodeSignatureBlobIndex) (rest : Bytes) :
    fromPrefix (blob.toBytes ++ rest) = some blob := by
  have hlen : ¬ (blob.toBytes ++ rest).length < size := by
    rw [length_append, length_toBytes]
    omega
  rw [fromPrefix, if_neg hlen]
  simp [toBytes, be32At_step]

theorem CodeSignatureCodeDirectory.fromPrefix_toBytes (dir : CodeSignatureCodeDirectory)
    (rest : Bytes) : fromPrefix (dir.toBytes ++ rest) = some
      { magic := dir.magic
        hashOffset := dir.hashOffset
        nCodeSlots := dir.nCodeSlots
        codeLimit := dir.codeLimit
        hashSize := dir.hashSize
        hashType := dir.hashType
        pageSize := dir.pageSize } := by
  have hlen : ¬ (dir.toBytes ++ rest).length < size := by
    rw [length_append, length_toBytes]
    omega
  rw [fromPrefix, if_neg hlen]
  simp [toBytes, be32At_step, getElem?_append]

/-- **A signature passes the checks whatever content it was made for**, as long as the content has
the same length. -/
theorem hashesRange_signature {signature text : OutputRecordLayout} {hashes : Bytes}
    (hoffset : signature.fileOffset < 2 ^ 32)
    (hhashes : hashes.length = divCeil signature.fileOffset CS_BLOCK_SIZE * CS_HASH_SIZE)
    (hsize : signature.fileSize = 128 + hashes.length) :
    hashesRange (signatureHeaders signature text ++ hashes) signature.fileOffset
      = .ok ⟨128, 128 + hashes.length⟩ := by
  have hpages : divCeil signature.fileOffset CS_BLOCK_SIZE ≤ 2 ^ 20 := by
    rw [divCeil, CS_BLOCK_SIZE]
    omega
  have hlen : (signatureHeaders signature text ++ hashes).length = 128 + hashes.length := by
    rw [length_append, length_signatureHeaders]
  have hindex : (signatureHeaders signature text ++ hashes).drop CodeSignatureSuperBlob.size
      = blobIndex.toBytes ++
        ((codeDirectory signature text).toBytes ++ (identifier ++ hashes)) := by
    rw [signatureHeaders, List.append_assoc, List.append_assoc, List.append_assoc,
      drop_left' (CodeSignatureSuperBlob.length_toBytes _)]
  have hdirectory : slice (signatureHeaders signature text ++ hashes) blobIndex.offset.toNat
      (128 + hashes.length)
        = some ((codeDirectory signature text).toBytes ++ (identifier ++ hashes)) := by
    have hoff :
        blobIndex.offset.toNat = CodeSignatureSuperBlob.size + size :=
      rfl
    refine slice_eq_some.mpr ⟨?_, hlen.ge, ?_⟩
    · rw [hoff, CodeSignatureSuperBlob.size, size]
      omega
    · rw [hoff, ← drop_drop, hindex, drop_left' (length_toBytes _),
        take_of_length_le]
      simp only [length_append, CodeSignatureCodeDirectory.length_toBytes]
      simp only [identifier, length_append, length_replicate, CodeSignatureSuperBlob.size,
        size, CodeSignatureCodeDirectory.size, CS_IDENTIFIER_STRING,
        CS_PADDED_FILENAME_SIZE, divCeil]
      simp only [length_cons, length_nil]
      omega
  rw [CS_HASH_SIZE] at hhashes
  rw [hashesRange]
  refine bind_eq_ok.mpr ⟨superBlob signature, okOr_eq_ok.mpr ?_, ?_⟩
  · rw [signatureHeaders, List.append_assoc]
    exact CodeSignatureSuperBlob.fromPrefix_toBytes _ _
  refine bind_eq_ok.mpr ⟨(), ensure_eq_ok.mpr rfl, bind_eq_ok.mpr ⟨(), ensure_eq_ok.mpr ?_,
    bind_eq_ok.mpr ⟨(), ensure_eq_ok.mpr rfl, bind_eq_ok.mpr ⟨blobIndex, okOr_eq_ok.mpr ?_,
      bind_eq_ok.mpr ⟨(), ensure_eq_ok.mpr rfl, ?_⟩⟩⟩⟩⟩
  · rw [hlen, ← hsize]
    exact Nat.mod_eq_of_lt (by omega)
  · rw [hindex]
    exact fromPrefix_toBytes _ _
  refine bind_eq_ok.mpr ⟨_, okOr_eq_ok.mpr (hlen ▸ hdirectory), ?_⟩
  refine bind_eq_ok.mpr ⟨_, okOr_eq_ok.mpr (CodeSignatureCodeDirectory.fromPrefix_toBytes _ _), ?_⟩
  refine bind_eq_ok.mpr ⟨(), ensure_eq_ok.mpr rfl, bind_eq_ok.mpr ⟨(), ensure_eq_ok.mpr
    ⟨rfl, rfl, rfl⟩, bind_eq_ok.mpr ⟨(), ensure_eq_ok.mpr ⟨?_, ?_⟩, ?_⟩⟩⟩
  · exact Nat.mod_eq_of_lt hoffset
  · exact Nat.mod_eq_of_lt (by omega)
  have hstart :
      blobIndex.offset.toNat + (codeDirectory signature text).hashOffset.toNat = 128 := rfl
  refine bind_eq_ok.mpr ⟨128, checkedAdd_eq_ok.mpr ⟨by rw [hstart]; omega, hstart.symm⟩, ?_⟩
  refine bind_eq_ok.mpr ⟨hashes.length, checkedMul_eq_ok.mpr ⟨?_, hhashes⟩, ?_⟩
  · rw [CS_HASH_SIZE]
    omega
  refine bind_eq_ok.mpr ⟨128 + hashes.length, checkedAdd_eq_ok.mpr ⟨by omega, rfl⟩, ?_⟩
  exact bind_eq_ok.mpr ⟨(), ensure_eq_ok.mpr ⟨Nat.le_add_right _ _, hlen.ge⟩, rfl⟩

/-! ## 4. The loop that writes -/

/-- The place of a page's hash in the output. -/
def hashSlot (slots : Interval) (pageIndex : Nat) : Interval :=
  ⟨slots.start + pageIndex * CS_HASH_SIZE, slots.start + (pageIndex * CS_HASH_SIZE + CS_HASH_SIZE)⟩

/-- The output after a page's hash was put into its slot. -/
def putHash (slots : Interval) (output : Bytes) (hash : Nat × Digest) : Bytes :=
  splice output (hashSlot slots hash.1).start hash.2

/-- The slots lie in the output, and every hash has one. -/
structure RefreshPlan.Fits (plan : RefreshPlan) (outputLength : Nat) : Prop where
  start_le : plan.slots.start ≤ plan.slots.stop
  stop_le : plan.slots.stop ≤ outputLength
  stop_lt : plan.slots.stop < 2 ^ 64
  slot : ∀ hash ∈ plan.hashes, (hashSlot plan.slots hash.1).stop ≤ plan.slots.stop

variable {hashes : List (Nat × Digest)} {slots range : Interval} {limit : Nat}
  {ranges : List Interval}

/-- **Once the hashes fit, nothing fails any more.** -/
theorem on_writeHashes (hle : slots.start ≤ slots.stop) (hlt : slots.stop < 2 ^ 64)
    (hslot : ∀ hash ∈ hashes, (hashSlot slots hash.1).stop ≤ slots.stop) : ∀ output : Bytes,
      (writeHashes slots hashes).on output =
        (.ok (hashes.map fun hash => hashSlot slots hash.1),
          hashes.foldl (putHash slots) output) := by
  induction hashes with
  | nil => exact fun _ => rfl
  | cons hash hashes ih =>
    intro output
    have hfit : slots.start + (hash.1 * CS_HASH_SIZE + CS_HASH_SIZE) ≤ slots.stop :=
      hslot hash (by simp)
    have hrest := ih (fun h hmem => hslot h (mem_cons_of_mem _ hmem))
      (putHash slots output hash)
    have hpanic : orPanic (hash.1 * CS_HASH_SIZE + CS_HASH_SIZE ≤ slots.stop - slots.start)
        = .ok () := orPanic_eq_ok.mpr (by omega)
    have hstart : checkedAdd slots.start (hash.1 * CS_HASH_SIZE)
        "Mach-O code signature hash range overflow" = .ok (hashSlot slots hash.1).start :=
      checkedAdd_eq_ok.mpr ⟨by omega, rfl⟩
    have hstop : checkedAdd slots.start (hash.1 * CS_HASH_SIZE + CS_HASH_SIZE)
        "Mach-O code signature hash range overflow" = .ok (hashSlot slots hash.1).stop :=
      checkedAdd_eq_ok.mpr ⟨by omega, rfl⟩
    rw [writeHashes, on_bind_of_ok (on_liftM_of_ok hpanic output), on_bind_of_ok (on_modify _ _),
      on_bind_of_ok (on_liftM_of_ok hstart _), on_bind_of_ok (on_liftM_of_ok hstop _)]
    exact on_bind_of_ok hrest

/-- What the loop leaves differs from the output in the slots only. -/
theorem agreeExcept_foldl_putHash :
    ∀ {output : Bytes}, slots.stop ≤ output.length →
      (∀ hash ∈ hashes, (hashSlot slots hash.1).stop ≤ slots.stop) →
        AgreeExcept (fun i => ∃ hash ∈ hashes, (hashSlot slots hash.1).Contains i)
          (hashes.foldl (putHash slots) output) output := by
  induction hashes with
  | nil => exact fun _ _ => AgreeExcept.refl _
  | cons hash hashes ih =>
    intro output hlen hslot
    have hfit := hslot hash (by simp)
    have hput : (hashSlot slots hash.1).start + hash.2.val.length ≤ output.length := by
      rw [hash.2.property]
      exact (hfit.trans hlen)
    have href : AgreeExcept (fun _ => False) output output := AgreeExcept.refl output
    have hfirst : AgreeExcept (fun i => (hashSlot slots hash.1).Contains i)
        (putHash slots output hash) output := by
      refine (href.splice hput).mono fun i hi => ?_
      rw [hash.2.property, hashSlot, Nat.add_assoc] at hi
      exact hi.resolve_left id
    refine ((ih (hfirst.length_eq.symm ▸ hlen) fun h hmem =>
      hslot h (mem_cons_of_mem _ hmem)).mono ?_).trans (hfirst.mono ?_)
    · rintro i ⟨h, hmem, hi⟩
      exact ⟨h, mem_cons_of_mem _ hmem, hi⟩
    · exact fun i hi => ⟨hash, by simp, hi⟩

/-- **Hashes that are pieces of `target` bring the output nearer to it.** -/
theorem agreeExcept_foldl_target {target : Bytes} (hlen : slots.stop ≤ target.length)
    (hslot : ∀ hash ∈ hashes, (hashSlot slots hash.1).stop ≤ slots.stop) (hpiece : ∀ hash ∈ hashes,
      hash.2.val = (target.drop (hashSlot slots hash.1).start).take CS_HASH_SIZE) :
    ∀ {differs : Nat → Prop} {output : Bytes}, AgreeExcept differs output target →
      AgreeExcept (fun i => differs i ∧ ∀ hash ∈ hashes, ¬ (hashSlot slots hash.1).Contains i)
        (hashes.foldl (putHash slots) output) target := by
  induction hashes with
  | nil => exact fun h => h.mono fun i hi => ⟨hi, by simp⟩
  | cons hash hashes ih =>
    intro differs output h
    have hfit : slots.start + (hash.1 * CS_HASH_SIZE + CS_HASH_SIZE) ≤ slots.stop :=
      hslot hash (by simp)
    have hfirst := h.copy (hpiece hash (by simp)) (by rw [hashSlot, Nat.add_assoc]; omega)
    refine (ih (fun h hmem => hslot h (mem_cons_of_mem _ hmem))
      (fun h hmem => hpiece h (mem_cons_of_mem _ hmem)) hfirst).mono ?_
    rintro i ⟨⟨hd, hi⟩, hrest⟩
    refine ⟨hd, fun h hmem => ?_⟩
    rcases mem_cons.mp hmem with rfl | hmem
    · rw [hashSlot, Nat.add_assoc] at hi
      exact hi
    · exact hrest h hmem

/-! ## 5. The plan -/

theorem mem_pagesOf {k : Nat} :
    k ∈ pagesOf range ↔ range.start < range.stop ∧ range.start / CS_BLOCK_SIZE ≤ k ∧
      k * CS_BLOCK_SIZE < range.stop := by
  rw [← lt_divCeil_iff (show 0 < CS_BLOCK_SIZE by decide), pagesOf]
  split
  · rename_i hlt
    rw [mem_range'_1]
    omega
  · rename_i hle
    simp [hle]

theorem rangePages_eq_ok : ∀ {ranges : List Interval} {pages : List Nat},
    rangePages limit ranges = .ok pages ↔
      (∀ range ∈ ranges, range.start ≤ range.stop ∧ range.stop ≤ limit) ∧
        pages = ranges.flatMap pagesOf
  | [], pages => by simp [rangePages, eq_comm]
  | range :: ranges, pages => by
    rw [rangePages, bind_eq_ok]
    constructor
    · rintro ⟨_, hinside, h⟩
      obtain ⟨rest, hrest, h⟩ := bind_eq_ok.mp h
      obtain ⟨hranges, rfl⟩ := rangePages_eq_ok.mp hrest
      exact ⟨List.forall_mem_cons.mpr ⟨ensure_eq_ok.mp hinside, hranges⟩, (ok.inj h).symm⟩
    · rintro ⟨hranges, rfl⟩
      obtain ⟨hinside, hranges⟩ := List.forall_mem_cons.mp hranges
      exact ⟨(), ensure_eq_ok.mpr hinside,
        bind_eq_ok.mpr ⟨_, rangePages_eq_ok.mpr ⟨hranges, rfl⟩, rfl⟩⟩

/-- The pages of ranges that lie inside the signed content begin inside it. -/
theorem lt_of_mem_flatMap_pagesOf {k : Nat}
    (hranges : ∀ range ∈ ranges, range.start ≤ range.stop ∧ range.stop ≤ limit)
    (hk : k ∈ ranges.flatMap pagesOf) : k * CS_BLOCK_SIZE < limit := by
  obtain ⟨range, hmem, hk⟩ := mem_flatMap.mp hk
  exact (mem_pagesOf.mp hk).2.2.trans_le (hranges range hmem).2

/-- A page of the content. -/
def pageOf (content : Bytes) (k : Nat) : Bytes :=
  (content.drop (k * CS_BLOCK_SIZE)).take CS_BLOCK_SIZE

theorem calculateHashes_eq {digest : Bytes → Digest} {output : Bytes}
    (hlimit : limit ≤ output.length) {changed : List Nat}
    (hchanged : ∀ k ∈ changed, k * CS_BLOCK_SIZE < limit) :
    calculateHashes digest output limit changed
      = .ok (changed.map fun k => (k, digest (pageOf (output.take limit) k))) := by
  induction changed with
  | nil => rfl
  | cons k changed ih =>
    have hk := hchanged k (by simp)
    have hpage : slice output (k * CS_BLOCK_SIZE) (min (k * CS_BLOCK_SIZE + CS_BLOCK_SIZE) limit)
        = some (pageOf (output.take limit) k) := by
      refine slice_eq_some.mpr ⟨by omega, by omega, ?_⟩
      rw [pageOf, drop_take, take_take]
      congr 1
      omega
    rw [calculateHashes]
    exact bind_eq_ok.mpr ⟨_, okOr_eq_ok.mpr hpage,
      bind_eq_ok.mpr ⟨_, ih fun k hk => hchanged k (mem_cons_of_mem _ hk), rfl⟩⟩

/-- What the load commands say of the signature, whatever they are: it lies in the output, and its
offset and size have 32 bits. -/
structure SignatureRange (outputLength : Nat) (range : Interval) : Prop where
  start_le : range.start ≤ range.stop
  stop_le : range.stop ≤ outputLength
  start_lt : range.start < 2 ^ 32
  stop_lt : range.stop < 2 ^ 33

variable {outputLength : Nat}

theorem signatureRange_of_findCodeSignature :
    ∀ {commands : List (Except Failure LoadCommand)} {found : Option Interval},
      (∀ r ∈ found, SignatureRange outputLength r) →
        findCodeSignature outputLength found commands = .ok (some range) →
          SignatureRange outputLength range
  | [], found, hfound, h => hfound range (ok.inj h)
  | next :: rest, found, hfound, h => by
    rw [findCodeSignature] at h
    obtain ⟨command, -, h⟩ := bind_eq_ok.mp h
    split at h
    · obtain ⟨-, -, h⟩ := bind_eq_ok.mp h
      obtain ⟨data, -, h⟩ := bind_eq_ok.mp h
      obtain ⟨stop, hstop, h⟩ := bind_eq_ok.mp h
      obtain ⟨_, hle, h⟩ := bind_eq_ok.mp h
      obtain ⟨-, rfl⟩ := checkedAdd_eq_ok.mp hstop
      have hoff := data.dataoff.toNat_lt
      have hsize := data.datasize.toNat_lt
      refine signatureRange_of_findCodeSignature ?_ h
      rintro r hr
      cases hr
      exact ⟨Nat.le_add_right _ _, ensure_eq_ok.mp hle, hoff, by dsimp only; omega⟩
    · exact signatureRange_of_findCodeSignature hfound h

theorem signatureRange_of_codeSignatureRange {loadCommands : LoadCommands} {output : Bytes}
    (h : codeSignatureRange loadCommands output = .ok range) :
    SignatureRange output.length range := by
  obtain ⟨commands, -, h⟩ := bind_eq_ok.mp h
  obtain ⟨found, hfound, h⟩ := bind_eq_ok.mp h
  rw [okOr_eq_ok.mp h] at hfound
  exact signatureRange_of_findCodeSignature (by simp) hfound

/-- The hashes lie in the signature, one slot for each page. -/
theorem hashesRange_spec {codeSignature : Bytes} {signedLength : Nat}
    (h : hashesRange codeSignature signedLength = .ok range) :
    range.stop = range.start + divCeil signedLength CS_BLOCK_SIZE * CS_HASH_SIZE ∧
      range.stop ≤ codeSignature.length := by
  rw [hashesRange] at h
  obtain ⟨superBlob, -, h⟩ := bind_eq_ok.mp h
  obtain ⟨-, -, h⟩ := bind_eq_ok.mp h
  obtain ⟨-, -, h⟩ := bind_eq_ok.mp h
  obtain ⟨-, -, h⟩ := bind_eq_ok.mp h
  obtain ⟨blobIndex, -, h⟩ := bind_eq_ok.mp h
  obtain ⟨-, -, h⟩ := bind_eq_ok.mp h
  obtain ⟨bytes, -, h⟩ := bind_eq_ok.mp h
  obtain ⟨directory, -, h⟩ := bind_eq_ok.mp h
  obtain ⟨-, -, h⟩ := bind_eq_ok.mp h
  obtain ⟨-, -, h⟩ := bind_eq_ok.mp h
  obtain ⟨-, -, h⟩ := bind_eq_ok.mp h
  obtain ⟨start, -, h⟩ := bind_eq_ok.mp h
  obtain ⟨length, hlength, h⟩ := bind_eq_ok.mp h
  obtain ⟨stop, hstop, h⟩ := bind_eq_ok.mp h
  obtain ⟨_, hinside, h⟩ := bind_eq_ok.mp h
  cases h
  obtain ⟨-, rfl⟩ := checkedMul_eq_ok.mp hlength
  exact ⟨(checkedAdd_eq_ok.mp hstop).2, (ensure_eq_ok.mp hinside).2⟩

variable {plan : RefreshPlan}

/-- **A plan fits**: the checks leave nothing for the loop to fail at. -/
theorem fits_of_refreshPlan {loadCommands : LoadCommands} {digest : Bytes → Digest}
    {output : Bytes}
    (h : refreshPlan loadCommands digest output ranges = .ok plan) : plan.Fits output.length := by
  rw [refreshPlan] at h
  obtain ⟨range, hrange, h⟩ := bind_eq_ok.mp h
  obtain ⟨changed, hchanged, h⟩ := bind_eq_ok.mp h
  obtain ⟨hashes, hhashes, h⟩ := bind_eq_ok.mp h
  obtain ⟨codeSignature, hsignature, h⟩ := bind_eq_ok.mp h
  obtain ⟨slots, hslots, h⟩ := bind_eq_ok.mp h
  obtain ⟨start, hstart, h⟩ := bind_eq_ok.mp h
  cases h
  have hr := signatureRange_of_codeSignatureRange hrange
  obtain ⟨hinside, rfl⟩ := rangePages_eq_ok.mp hchanged
  have hk : ∀ k ∈ sortDedup (ranges.flatMap pagesOf), k * CS_BLOCK_SIZE < range.start :=
    fun k hk => lt_of_mem_flatMap_pagesOf hinside (mem_sortDedup.mp hk)
  rw [calculateHashes_eq (hr.start_le.trans hr.stop_le) hk] at hhashes
  cases hhashes
  obtain ⟨-, rfl⟩ := checkedAdd_eq_ok.mp hstart
  obtain ⟨hstop, hle⟩ := hashesRange_spec hslots
  rw [length_slice (okOr_eq_ok.mp hsignature)] at hle
  have hrle := hr.start_le
  have hrstop := hr.stop_le
  have hrlt := hr.stop_lt
  refine ⟨Nat.le_add_right _ _, by dsimp only; omega, by dsimp only; omega, ?_⟩
  intro hash hmem
  obtain ⟨k, hchanged, rfl⟩ := mem_map.mp hmem
  have hpage := (lt_divCeil_iff (show 0 < CS_BLOCK_SIZE by decide)).mpr (hk k hchanged)
  have hmul : (k + 1) * CS_HASH_SIZE ≤ divCeil range.start CS_BLOCK_SIZE * CS_HASH_SIZE :=
    Nat.mul_le_mul_right _ hpage
  rw [Nat.succ_mul] at hmul
  dsimp only [hashSlot]
  omega

/-! ## 6. Refreshing -/

variable {loadCommands : LoadCommands} {digest : Bytes → Digest}

theorem on_refreshCodeSignature_of_ok {output : Bytes}
    (h : refreshPlan loadCommands digest output ranges = .ok plan) :
    (refreshCodeSignature loadCommands digest ranges).on output =
      (.ok (plan.hashes.map fun hash => hashSlot plan.slots hash.1),
        plan.hashes.foldl (putHash plan.slots) output) := by
  have hfits := fits_of_refreshPlan h
  rw [refreshCodeSignature, on_bind_of_ok (on_get output), on_bind_of_ok (on_liftM_of_ok h output)]
  exact on_writeHashes hfits.start_le hfits.stop_lt hfits.slot output

/-- **An error leaves the output as it was.** -/
theorem refreshCodeSignature_error {output : Bytes} {e : Failure}
    (h : ((refreshCodeSignature loadCommands digest ranges).on output).1 = .error e) :
    ((refreshCodeSignature loadCommands digest ranges).on output).2 = output := by
  cases hplan : refreshPlan loadCommands digest output ranges with
  | ok plan =>
    rw [on_refreshCodeSignature_of_ok hplan] at h
    cases h
  | error e =>
    rw [refreshCodeSignature, on_bind_of_ok (on_get output),
      on_bind_of_error (on_liftM_of_error hplan output)]

/-- **Only the returned ranges are written.** -/
theorem refreshCodeSignature_writes {output : Bytes} {written : List Interval}
    (h : ((refreshCodeSignature loadCommands digest ranges).on output).1 = .ok written) :
    AgreeExcept (fun i => ∃ range ∈ written, range.Contains i)
      ((refreshCodeSignature loadCommands digest ranges).on output).2 output := by
  cases hplan : refreshPlan loadCommands digest output ranges with
  | ok plan =>
    rw [on_refreshCodeSignature_of_ok hplan] at h ⊢
    cases h
    have hfits := fits_of_refreshPlan hplan
    refine (agreeExcept_foldl_putHash hfits.stop_le hfits.slot).mono ?_
    rintro i ⟨hash, hmem, hi⟩
    exact ⟨_, mem_map.mpr ⟨hash, hmem, rfl⟩, hi⟩
  | error e =>
    rw [refreshCodeSignature, on_bind_of_ok (on_get output),
      on_bind_of_error (on_liftM_of_error hplan output)] at h
    cases h

/-! ## 7. A patched output is signed again -/

/-- Where the hashes of a signed output lie. -/
def signatureSlots (signature : OutputRecordLayout) : Interval :=
  ⟨signature.fileOffset + 128,
    signature.fileOffset + (128 + divCeil signature.fileOffset CS_BLOCK_SIZE * CS_HASH_SIZE)⟩

section

variable {layout : MachOLayout} {signature text : OutputRecordLayout} {content output : Bytes}

theorem length_signature (h : signature.fileOffset ≤ output.length) :
    (signatureHeaders signature text ++
      calculatedHashes digest (output.take signature.fileOffset)).length
        = 128 + divCeil signature.fileOffset CS_BLOCK_SIZE * CS_HASH_SIZE := by
  rw [length_append, length_signatureHeaders, length_calculatedHashes, length_take,
    Nat.min_eq_left h]

variable {k : Nat}

/-- The hash of a page stands in its slot. -/
theorem take_drop_calculatedHashes (hk : k * CS_BLOCK_SIZE < content.length) :
    ((calculatedHashes digest content).drop (k * CS_HASH_SIZE)).take CS_HASH_SIZE
      = digest (pageOf content k) := by
  refine take_drop_flatMap (fun page => (digest page).property) ?_
  have hlt := (lt_divCeil_iff (show 0 < CS_BLOCK_SIZE by decide)).mpr hk
  rw [pages, getElem?_map, getElem?_range hlt, map_some, pageOf]

theorem take_drop_signed (h : Signable layout signature text output.length)
    (hk : k * CS_BLOCK_SIZE < signature.fileOffset) :
    ((signed digest signature text output).drop
        (hashSlot (signatureSlots signature) k).start).take CS_HASH_SIZE
      = digest (pageOf (output.take signature.fileOffset) k) := by
  have hle := h.le_length
  have hcontent : (output.take signature.fileOffset).length = signature.fileOffset := by
    rw [length_take]
    omega
  have hslot : (k + 1) * CS_HASH_SIZE ≤
      (calculatedHashes digest (output.take signature.fileOffset)).length := by
    rw [length_calculatedHashes, hcontent]
    exact Nat.mul_le_mul_right _ ((lt_divCeil_iff (show 0 < CS_BLOCK_SIZE by decide)).mpr hk)
  rw [Nat.succ_mul] at hslot
  rw [hashSlot, signatureSlots, signed, Nat.add_assoc, ← drop_drop, drop_splice (by omega),
    List.append_assoc, ← drop_drop, drop_left' (length_signatureHeaders _ _),
    drop_append_of_le_length (by omega),
    take_append_of_le_length (by rw [length_drop]; omega),
    take_drop_calculatedHashes (by rw [hcontent]; exact hk)]

/-- Before and after the signature, signing changes nothing. -/
theorem getElem?_signed_of_not (h : Signable layout signature text output.length) {i : Nat}
    (hi : i < signature.fileOffset ∨ signature.fileOffset + signature.fileSize ≤ i) :
    (signed digest signature text output)[i]? = output[i]? := by
  have hle := h.le_length
  have hsize := h.size_eq
  have hlen := @length_signature digest signature text output (by omega)
  rw [signed, getElem?_splice (by rw [hlen]; omega), if_neg (by rw [hlen]; omega)]

/-- A page depends on the content in it only. -/
theorem pageOf_congr {limit : Nat} (h : ∀ i < limit, i / CS_BLOCK_SIZE = k →
    output[i]? = content[i]?) : pageOf (output.take limit) k = pageOf (content.take limit) k := by
  refine ext_getElem? fun i => ?_
  rcases Nat.lt_or_ge i CS_BLOCK_SIZE with hi | hi
  · rw [pageOf, pageOf, getElem?_take_drop hi, getElem?_take_drop hi]
    rcases Nat.lt_or_ge (k * CS_BLOCK_SIZE + i) limit with hlt | hge
    · rw [getElem?_take_of_lt hlt, getElem?_take_of_lt hlt]
      refine h _ hlt ?_
      rw [Nat.add_comm, Nat.add_mul_div_right _ _ (by decide), Nat.div_eq_of_lt hi, Nat.zero_add]
    · rw [getElem?_take_eq_none hge, getElem?_take_eq_none hge]
  · rw [pageOf, pageOf, getElem?_take_eq_none hi, getElem?_take_eq_none hi]

/-- **A patched output differs from its new signature at most in the slots of changed pages.** -/
theorem agreeExcept_signed (h : Signable layout signature text content.length)
    (hlen : output.length = content.length) (hafter : ∀ i, signature.fileOffset ≤ i →
      output[i]? = (signed digest signature text content)[i]?)
    (changed : Nat → Prop)
    (hbefore : ∀ i < signature.fileOffset, ¬ changed (i / CS_BLOCK_SIZE) →
      output[i]? = (signed digest signature text content)[i]?) :
    AgreeExcept (fun i => ∃ k, changed k ∧ k * CS_BLOCK_SIZE < signature.fileOffset ∧
        (hashSlot (signatureSlots signature) k).Contains i)
      output (signed digest signature text output) := by
  have hle := h.le_length
  have hsize := h.size_eq
  have hcontent := @length_signature digest signature text content (by omega)
  have houtput := @length_signature digest signature text output (by omega)
  have hlenTake : ∀ {bytes : Bytes}, bytes.length = content.length →
      (bytes.take signature.fileOffset).length = signature.fileOffset := by
    intro bytes hbytes
    rw [length_take]
    omega
  refine ⟨(length_splice (by rw [houtput]; omega)).symm, fun i hi => ?_⟩
  by_cases hin : signature.fileOffset ≤ i ∧ i < signature.fileOffset + signature.fileSize
  swap
  · exact (getElem?_signed_of_not (hlen ▸ h) (by omega)).symm
  rw [hafter i hin.1, signed, signed, getElem?_splice (by rw [hcontent]; omega),
    getElem?_splice (by rw [houtput]; omega), if_pos (by rw [hcontent]; omega),
    if_pos (by rw [houtput]; omega)]
  rcases Nat.lt_or_ge (i - signature.fileOffset) 128 with hhead | hhash
  · rw [getElem?_append_left (by rw [length_signatureHeaders]; exact hhead),
      getElem?_append_left (by rw [length_signatureHeaders]; exact hhead)]
  rw [getElem?_append_right (by rw [length_signatureHeaders]; exact hhash),
    getElem?_append_right (by rw [length_signatureHeaders]; exact hhash),
    length_signatureHeaders]
  -- The byte belongs to the hash of page `k`, which is not a changed one.
  obtain ⟨k, r, hr, hj⟩ : ∃ k r, r < CS_HASH_SIZE ∧
      i - signature.fileOffset - 128 = k * CS_HASH_SIZE + r :=
    ⟨_, _, Nat.mod_lt _ (by decide), (Nat.div_add_mod' _ _).symm⟩
  have hk : k * CS_BLOCK_SIZE < signature.fileOffset := by
    rw [← lt_divCeil_iff (show 0 < CS_BLOCK_SIZE by decide)]
    refine Nat.lt_of_mul_lt_mul_right (a := CS_HASH_SIZE) ?_
    omega
  have hunchanged : ¬ changed k := by
    refine fun hc => hi ⟨k, hc, hk, ?_, ?_⟩ <;>
    · dsimp only [hashSlot, signatureSlots]
      omega
  have hpage : pageOf (content.take signature.fileOffset) k
      = pageOf (output.take signature.fileOffset) k := by
    refine pageOf_congr fun j hj hdiv => ?_
    rw [hbefore j hj (hdiv ▸ hunchanged), getElem?_signed_of_not h (Or.inl hj)]
  rw [hj, ← getElem?_take_drop hr, ← getElem?_take_drop hr,
    take_drop_calculatedHashes (by rw [hlenTake rfl]; exact hk),
    take_drop_calculatedHashes (by rw [hlenTake hlen]; exact hk), hpage]

end

/-! ## 8. The load commands -/

theorem findCodeSignature_of_nil {found : Option Interval} :
    ∀ {commands : List LoadCommand},
      commands.filter (fun command => command.cmd = LC_CODE_SIGNATURE) = [] →
        findCodeSignature outputLength found (commands.map .ok) = .ok found
  | [], _ => rfl
  | command :: rest, h => by
    have hcmd : ¬ command.cmd = LC_CODE_SIGNATURE := by
      simpa using filter_eq_nil_iff.mp h command (by simp)
    rw [filter_cons_of_neg (by simpa using hcmd)] at h
    rw [map_cons, findCodeSignature, ok_bind, if_neg hcmd, findCodeSignature_of_nil h]

/-- The walk finds a command of the signature that is the only one. -/
theorem findCodeSignature_of_single {outputLength : Nat} {command : LoadCommand}
    {data : CodeSignatureCommand} (hdata : command.data = .ok data)
    (hfit : data.dataoff.toNat + data.datasize.toNat ≤ outputLength) :
    ∀ {commands : List LoadCommand},
      commands.filter (fun command => command.cmd = LC_CODE_SIGNATURE) = [command] →
        findCodeSignature outputLength none (commands.map .ok)
          = .ok (some ⟨data.dataoff.toNat, data.dataoff.toNat + data.datasize.toNat⟩)
  | [], h => absurd h (by simp)
  | first :: rest, h => by
    rw [map_cons, findCodeSignature, ok_bind]
    by_cases hcmd : first.cmd = LC_CODE_SIGNATURE
    · rw [filter_cons_of_pos (by simpa using hcmd)] at h
      obtain ⟨rfl, hrest⟩ := cons_eq_cons.mp h
      have hoff := data.dataoff.toNat_lt
      have hsize := data.datasize.toNat_lt
      rw [if_pos hcmd]
      exact bind_eq_ok.mpr ⟨(), ensure_eq_ok.mpr rfl, bind_eq_ok.mpr ⟨data, hdata, bind_eq_ok.mpr
        ⟨_, checkedAdd_eq_ok.mpr ⟨by omega, rfl⟩, bind_eq_ok.mpr ⟨(), ensure_eq_ok.mpr hfit,
          findCodeSignature_of_nil hrest⟩⟩⟩⟩
    · rw [filter_cons_of_neg (by simpa using hcmd)] at h
      rw [if_neg hcmd]
      exact findCodeSignature_of_single hdata hfit h

/-- The load commands of `output` can be walked to the end, and of the commands of a code
signature there is one, the one that was written for `signature`. -/
def NamesSignature (loadCommands : LoadCommands) (output : Bytes) (signature : OutputRecordLayout) :
    Prop :=
  ∃ commands : List LoadCommand, loadCommands output = .ok (commands.map .ok) ∧
    commands.filter (fun command => command.cmd = LC_CODE_SIGNATURE)
      = [⟨LC_CODE_SIGNATURE, .ok (writeCodeSignatureCommand signature)⟩]

theorem codeSignatureRange_of_names {output : Bytes} {signature : OutputRecordLayout}
    (hnames : NamesSignature loadCommands output signature)
    (hoffset : signature.fileOffset < 2 ^ 32) (hsize : signature.fileSize < 2 ^ 32)
    (hfit : signature.fileOffset + signature.fileSize ≤ output.length) :
    codeSignatureRange loadCommands output
      = .ok ⟨signature.fileOffset, signature.fileOffset + signature.fileSize⟩ := by
  obtain ⟨commands, hcommands, hsingle⟩ := hnames
  have hdataoff : (writeCodeSignatureCommand signature).dataoff.toNat = signature.fileOffset :=
    Nat.mod_eq_of_lt hoffset
  have hdatasize : (writeCodeSignatureCommand signature).datasize.toNat = signature.fileSize :=
    Nat.mod_eq_of_lt hsize
  refine bind_eq_ok.mpr ⟨_, hcommands, bind_eq_ok.mpr ⟨_, findCodeSignature_of_single rfl
    (by rw [hdataoff, hdatasize]; exact hfit) hsingle, ?_⟩⟩
  rw [hdataoff, hdatasize]
  rfl

/-- The plan for an output that was signed and patched since. -/
theorem refreshPlan_signed {layout : MachOLayout} {signature text : OutputRecordLayout}
    {content output : Bytes} {ranges : List Interval}
    (h : Signable layout signature text content.length) (hlen : output.length = content.length)
    (hafter : ∀ i, signature.fileOffset ≤ i →
      output[i]? = (signed digest signature text content)[i]?)
    (hinside : ∀ range ∈ ranges, range.start ≤ range.stop ∧ range.stop ≤ signature.fileOffset)
    (hoffset : signature.fileOffset < 2 ^ 32)
    (hnames : NamesSignature loadCommands output signature) :
    refreshPlan loadCommands digest output ranges = .ok
      ⟨(sortDedup (ranges.flatMap pagesOf)).map fun k =>
          (k, digest (pageOf (output.take signature.fileOffset) k)), signatureSlots signature⟩ := by
  have hle := h.le_length
  have hsize := h.size_eq
  have hpages : divCeil signature.fileOffset CS_BLOCK_SIZE ≤ 2 ^ 20 := by
    rw [divCeil, CS_BLOCK_SIZE]
    omega
  have hhashes := @length_signature digest signature text content (by omega)
  have hk : ∀ k ∈ sortDedup (ranges.flatMap pagesOf), k * CS_BLOCK_SIZE < signature.fileOffset :=
    fun k hk => lt_of_mem_flatMap_pagesOf hinside (mem_sortDedup.mp hk)
  have hsignature : slice output signature.fileOffset (signature.fileOffset + signature.fileSize)
      = some (signatureHeaders signature text ++
          calculatedHashes digest (content.take signature.fileOffset)) := by
    refine slice_eq_some.mpr ⟨Nat.le_add_right _ _, hlen ▸ hle, ?_⟩
    have hdrop : output.drop signature.fileOffset
        = (signed digest signature text content).drop signature.fileOffset := by
      refine ext_getElem? fun i => ?_
      rw [getElem?_drop, getElem?_drop, hafter _ (Nat.le_add_right _ _)]
    rw [hdrop, signed, drop_splice (by omega), take_left' (by rw [hhashes]; omega)]
  have hhashes' : (calculatedHashes digest (content.take signature.fileOffset)).length
      = divCeil signature.fileOffset CS_BLOCK_SIZE * CS_HASH_SIZE := by
    rw [length_append, length_signatureHeaders] at hhashes
    omega
  rw [CS_HASH_SIZE] at hsize
  rw [refreshPlan]
  refine bind_eq_ok.mpr ⟨_, codeSignatureRange_of_names hnames hoffset (by omega) (hlen ▸ hle), ?_⟩
  refine bind_eq_ok.mpr ⟨_, rangePages_eq_ok.mpr ⟨hinside, rfl⟩, ?_⟩
  refine bind_eq_ok.mpr ⟨_, calculateHashes_eq (by dsimp only; omega) hk, ?_⟩
  refine bind_eq_ok.mpr ⟨_, okOr_eq_ok.mpr hsignature, ?_⟩
  refine bind_eq_ok.mpr ⟨_, hashesRange_signature hoffset hhashes'
    (by rw [hhashes', CS_HASH_SIZE]; omega), ?_⟩
  refine bind_eq_ok.mpr ⟨_, checkedAdd_eq_ok.mpr ⟨by dsimp only; omega, rfl⟩, ?_⟩
  rw [hhashes']
  refine congrArg ok (congrArg (RefreshPlan.mk _) ?_)
  rw [signatureSlots, Nat.add_sub_cancel_left, Nat.add_assoc]

/-- **Refreshing is signing again.**  `output` is what a signed output was patched to: nothing
changed from the signature on, and the ranges cover what changed before it. -/
theorem refreshCodeSignature_signed {layout : MachOLayout} {signature text : OutputRecordLayout}
    {content output : Bytes}
    (h : Signable layout signature text content.length) (hlen : output.length = content.length)
    (hafter : ∀ i, signature.fileOffset ≤ i →
      output[i]? = (signed digest signature text content)[i]?)
    (hcover : ∀ i, output[i]? ≠ (signed digest signature text content)[i]? →
      ∃ range ∈ ranges, range.Contains i)
    (hinside : ∀ range ∈ ranges, range.start ≤ range.stop ∧ range.stop ≤ signature.fileOffset)
    (hoffset : signature.fileOffset < 2 ^ 32)
    (hnames : NamesSignature loadCommands output signature) :
    ∃ written, (refreshCodeSignature loadCommands digest ranges).on output
      = (.ok written, signed digest signature text output) := by
  have hplan := @refreshPlan_signed loadCommands digest layout signature text content output ranges
    h hlen hafter hinside hoffset hnames
  have hfits := fits_of_refreshPlan hplan
  refine ⟨_, (on_refreshCodeSignature_of_ok hplan).trans (Prod.ext rfl ?_)⟩
  have hchanged : ∀ k, k ∈ sortDedup (ranges.flatMap pagesOf) ↔ k ∈ ranges.flatMap pagesOf :=
    fun k => mem_sortDedup
  have hbefore : ∀ i < signature.fileOffset, ¬ i / CS_BLOCK_SIZE ∈ ranges.flatMap pagesOf →
      output[i]? = (signed digest signature text content)[i]? := by
    intro i hi hunchanged
    by_contra hne
    obtain ⟨range, hmem, hstart, hstop⟩ := hcover i hne
    exact hunchanged (mem_flatMap.mpr ⟨range, hmem, mem_pagesOf.mpr ⟨by omega,
      Nat.div_le_div_right hstart, (Nat.div_mul_le_self _ _).trans_lt hstop⟩⟩)
  have hagree := agreeExcept_signed h hlen hafter (· ∈ ranges.flatMap pagesOf) hbefore
  have hlenSigned : (signed digest signature text output).length = output.length :=
    hagree.length_eq.symm
  refine (agreeExcept_foldl_target (hlenSigned ▸ hfits.stop_le) hfits.slot ?_ hagree).eq ?_
  · intro hash hmem
    obtain ⟨k, hk, rfl⟩ := mem_map.mp hmem
    exact (take_drop_signed (hlen ▸ h)
      (lt_of_mem_flatMap_pagesOf hinside ((hchanged k).mp hk))).symm
  · rintro i ⟨⟨k, hk, -, hi⟩, hnone⟩
    exact hnone _ (mem_map.mpr ⟨k, (hchanged k).mpr hk, rfl⟩) hi

/-- **Refreshing a signature equals signing again**, all bytes that it modifies lie in the ranges
that it returns, and an error changes nothing. -/
theorem refreshCodeSignature_eq_writeCodeSignature (loadCommands : LoadCommands)
    (digest : Bytes → Digest) :
    (∀ (layout : MachOLayout) (signature : OutputRecordLayout)
      (content signedOutput output : Bytes) (ranges : List Interval),
      writeCodeSignature digest layout content = .ok signedOutput →
        layout.codeSignatureSection = .ok signature → output.length = signedOutput.length →
          (∀ i, signature.fileOffset ≤ i → output[i]? = signedOutput[i]?) →
            (∀ i, output[i]? ≠ signedOutput[i]? → ∃ range ∈ ranges, range.Contains i) →
              (∀ range ∈ ranges, range.start ≤ range.stop ∧ range.stop ≤ signature.fileOffset) →
                signature.fileOffset < 2 ^ 32 → NamesSignature loadCommands output signature →
                  ∃ written refreshed,
                    (refreshCodeSignature loadCommands digest ranges).on output
                        = (.ok written, refreshed)
                      ∧ writeCodeSignature digest layout output = .ok refreshed) ∧
    (∀ (output : Bytes) (ranges written : List Interval),
      ((refreshCodeSignature loadCommands digest ranges).on output).1 = .ok written →
        AgreeExcept (fun i => ∃ range ∈ written, range.Contains i)
          ((refreshCodeSignature loadCommands digest ranges).on output).2 output) ∧
    ∀ (output : Bytes) (ranges : List Interval) (e : Failure),
      ((refreshCodeSignature loadCommands digest ranges).on output).1 = .error e →
        ((refreshCodeSignature loadCommands digest ranges).on output).2 = output := by
  refine ⟨?_, fun _ _ _ h => refreshCodeSignature_writes h,
    fun _ _ _ h => refreshCodeSignature_error h⟩
  intro layout signature content signedOutput output ranges hwrite hsection hlen hafter hcover
    hinside hoffset hnames
  obtain ⟨signature', text, h, rfl⟩ := (writeCodeSignature_eq_ok digest).mp hwrite
  obtain rfl : signature' = signature :=
    some.inj (h.signature_eq.symm.trans (okOr_eq_ok.mp hsection))
  have hle := h.le_length
  have hsize := h.size_eq
  have hlenContent : output.length = content.length := by
    rw [hlen, signed, length_splice]
    rw [length_signature (by omega)]
    omega
  obtain ⟨written, hrefresh⟩ :=
    refreshCodeSignature_signed h hlenContent hafter hcover hinside hoffset hnames
  exact ⟨written, _, hrefresh,
    (writeCodeSignature_eq_ok digest).mpr ⟨signature', text, hlenContent ▸ h, rfl⟩⟩

/-! ## 9. Outputs that cannot be refreshed -/

section

open LeBytes

/-- The little-endian word at `offset`. -/
def le32At (bytes : Bytes) (offset : Nat) : UInt32 :=
  UInt32.ofNat (leValue ((bytes.drop offset).take 4))

/-- The commands of an output that has as many as its header says. -/
def walkCommands (bytes : Bytes) : Nat → Nat → List (Except Failure LoadCommand)
  | 0, _ => []
  | count + 1, offset =>
    .ok ⟨le32At bytes offset, .ok ⟨le32At bytes offset, le32At bytes (offset + 4),
        le32At bytes (offset + 8), le32At bytes (offset + 12)⟩⟩
      :: walkCommands bytes count (offset + (le32At bytes (offset + 4)).toNat)

def MH_MAGIC_64 : UInt32 := 0xfeedfacf

/-- The walk over load commands where all of them lie in the output: the magic first, the
number of commands at 16, the commands from 32 on. -/
def exampleLoadCommands : LoadCommands := fun bytes =>
  if le32At bytes 0 = MH_MAGIC_64 then .ok (walkCommands bytes (le32At bytes 16).toNat 32)
  else .error (.error "Unsupported Mach-O header")

/-- A digest that is not SHA-256. -/
def exampleDigest (page : Bytes) : Digest :=
  ⟨replicate CS_HASH_SIZE (page.foldl (· + ·) 0), length_replicate⟩

/-- A signature section from `fileOffset` on. -/
def exampleSignature (fileOffset : Nat) : OutputRecordLayout where
  fileSize := 128 + divCeil fileOffset CS_BLOCK_SIZE * CS_HASH_SIZE
  memSize := 0
  alignment := ⟨4, by decide⟩
  fileOffset := fileOffset
  memOffset := 0

def exampleText : OutputRecordLayout where
  fileSize := 16
  memSize := 16
  alignment := .minimal
  fileOffset := 48
  memOffset := 0

def exampleLayout (fileOffset : Nat) : MachOLayout where
  sectionLayouts := [exampleSignature fileOffset]
  codeSignature := 0
  textSegmentSize := some exampleText

/-- A header with one load command, the one of the signature, in words. -/
def exampleHeader (fileOffset : Nat) : List UInt32 :=
  let command := writeCodeSignatureCommand (exampleSignature fileOffset)
  [MH_MAGIC_64, 0, 0, 0, 1, 16, 0, 0, command.cmd, command.cmdsize, command.dataoff,
    command.datasize]

def le32 (word : UInt32) : Bytes := leBytes 4 word.toNat

def exampleContent (fileOffset : Nat) : Bytes :=
  (exampleHeader fileOffset).flatMap le32
    ++ replicate (fileOffset - 48 + (exampleSignature fileOffset).fileSize) 0

/-- The example output, signed. -/
def exampleSigned (fileOffset : Nat) : Bytes :=
  signed exampleDigest (exampleSignature fileOffset) exampleText (exampleContent fileOffset)

theorem le32At_words {words : List UInt32} {k : Nat} {word : UInt32} (h : words[k]? = some word)
    (rest : Bytes) : le32At (words.flatMap le32 ++ rest) (k * 4) = word := by
  have hlen : ∀ w : UInt32, (le32 w).length = 4 := fun w => length_leBytes 4 _
  have hword := take_drop_flatMap hlen h
  have hk : (k + 1) * 4 ≤ (words.flatMap le32).length := by
    rw [length_flatMap_pieces hlen]
    exact Nat.mul_le_mul_right 4 (List.getElem?_eq_some_iff.mp h).1
  have hlt : word.toNat < 2 ^ (8 * 4) := word.toNat_lt
  rw [le32At, drop_append_of_le_length (by omega),
    take_append_of_le_length (by rw [length_drop]; omega), hword, le32, leValue_leBytes,
    Nat.mod_eq_of_lt hlt, UInt32.ofNat_toNat]

theorem exampleLoadCommands_header (fileOffset : Nat) (rest : Bytes) :
    exampleLoadCommands ((exampleHeader fileOffset).flatMap le32 ++ rest)
      = .ok [.ok ⟨LC_CODE_SIGNATURE,
          .ok (writeCodeSignatureCommand (exampleSignature fileOffset))⟩] := by
  have hword : ∀ {k : Nat} {word : UInt32}, (exampleHeader fileOffset)[k]? = some word →
      le32At ((exampleHeader fileOffset).flatMap le32 ++ rest) (k * 4) = word :=
    fun h => le32At_words h rest
  have hmagic := hword (k := 0) rfl
  have hcount := hword (k := 4) rfl
  have hcmd := hword (k := 8) rfl
  have hcmdsize := hword (k := 9) rfl
  have hdataoff := hword (k := 10) rfl
  have hdatasize := hword (k := 11) rfl
  rw [exampleLoadCommands, if_pos hmagic, hcount]
  exact congrArg ok (congrArg (fun command => [ok command])
    (by rw [hcmd, hcmdsize, hdataoff, hdatasize]; rfl))

theorem length_exampleHeader (fileOffset : Nat) :
    ((exampleHeader fileOffset).flatMap le32).length = 48 :=
  length_flatMap_pieces (fun _ => length_leBytes 4 _) _

variable {fileOffset : Nat}

theorem signable_example (h : 48 ≤ fileOffset) : Signable (exampleLayout fileOffset)
    (exampleSignature fileOffset) exampleText (exampleContent fileOffset).length where
  signature_eq := rfl
  text_eq := rfl
  fit := by
    have hlen : (exampleContent fileOffset).length
        = fileOffset + (exampleSignature fileOffset).fileSize := by
      rw [exampleContent, length_append, length_exampleHeader, length_replicate]
      omega
    have hallocations : sectionAllocations (exampleLayout fileOffset)
        = [⟨0, fileOffset, (exampleSignature fileOffset).fileSize⟩] := by
      simp [sectionAllocations, exampleLayout, exampleSignature]
    rw [hallocations, hlen]
    exact ⟨Nat.zero_le _, Nat.le_refl _, trivial⟩
  size_eq := rfl

theorem writeCodeSignature_example (h : 48 ≤ fileOffset) :
    writeCodeSignature exampleDigest (exampleLayout fileOffset) (exampleContent fileOffset)
      = .ok (exampleSigned fileOffset) :=
  (writeCodeSignature_eq_ok exampleDigest).mpr ⟨_, _, signable_example h, rfl⟩

theorem take_exampleSigned (h : 48 ≤ fileOffset) :
    (exampleSigned fileOffset).take 48 = (exampleHeader fileOffset).flatMap le32 := by
  have hle := (signable_example h).le_length
  have hoffset : (exampleSignature fileOffset).fileOffset = fileOffset := rfl
  rw [exampleSigned, signed, take_splice_of_le (by omega) (by omega), exampleContent,
    take_left' (length_exampleHeader fileOffset)]

theorem exampleLoadCommands_of_take {bytes : Bytes}
    (h : bytes.take 48 = (exampleHeader fileOffset).flatMap le32) :
    exampleLoadCommands bytes = .ok [.ok ⟨LC_CODE_SIGNATURE,
      .ok (writeCodeSignatureCommand (exampleSignature fileOffset))⟩] := by
  rw [← take_append_drop 48 bytes, h]
  exact exampleLoadCommands_header fileOffset _

/-- The first part of `refreshCodeSignature_eq_writeCodeSignature`, where one byte of 64 was
changed. -/
theorem refreshCodeSignature_eq_writeCodeSignature_example :
    ∃ written refreshed,
      (refreshCodeSignature exampleLoadCommands exampleDigest [⟨50, 51⟩]).on
          (splice (exampleSigned 64) 50 [1]) = (.ok written, refreshed)
        ∧ writeCodeSignature exampleDigest (exampleLayout 64) (splice (exampleSigned 64) 50 [1])
          = .ok refreshed := by
  have hlen : (exampleSigned 64).length = 224 := by decide +kernel
  have hfit : 50 + [(1 : UInt8)].length ≤ (exampleSigned 64).length := by
    rw [hlen]
    decide
  have hput := @getElem?_splice UInt8 (exampleSigned 64) [1] 50 hfit
  have hnames : NamesSignature exampleLoadCommands (splice (exampleSigned 64) 50 [1])
      (exampleSignature 64) := by
    refine ⟨[⟨LC_CODE_SIGNATURE, .ok (writeCodeSignatureCommand (exampleSignature 64))⟩],
      exampleLoadCommands_of_take ?_, rfl⟩
    rw [take_splice_of_le (by decide) (by omega), take_exampleSigned (by decide)]
  refine (refreshCodeSignature_eq_writeCodeSignature exampleLoadCommands exampleDigest).1
    (exampleLayout 64) (exampleSignature 64) (exampleContent 64) (exampleSigned 64) _ _
    (writeCodeSignature_example (by decide)) rfl (length_splice hfit) ?_ ?_ ?_ (by decide) hnames
  · intro i hi
    have hi : 64 ≤ i := hi
    rw [hput, if_neg (by rw [length_singleton]; omega)]
  · intro i hne
    refine ⟨⟨50, 51⟩, by simp, ?_⟩
    by_contra hnot
    exact hne ((hput i).trans (if_neg hnot))
  · intro range hmem
    obtain rfl := mem_singleton.mp hmem
    decide

/-- **A refresh can fail on a patched output.**  The header is part of what may change, and with
its magic gone there are no load commands; and the offset of a signature that starts at 4 GiB does
not fit into its load command, so that no byte of the output counts as signed. -/
theorem refreshCodeSignature_fails :
    (writeCodeSignature exampleDigest (exampleLayout 64) (exampleContent 64)
        = .ok (exampleSigned 64)
      ∧ (refreshCodeSignature exampleLoadCommands exampleDigest [⟨0, 1⟩]).on
          (splice (exampleSigned 64) 0 [0])
        = (.error (.error "Unsupported Mach-O header"), splice (exampleSigned 64) 0 [0])) ∧
    (writeCodeSignature exampleDigest (exampleLayout (2 ^ 32)) (exampleContent (2 ^ 32))
        = .ok (exampleSigned (2 ^ 32))
      ∧ (refreshCodeSignature exampleLoadCommands exampleDigest [⟨48, 49⟩]).on
          (exampleSigned (2 ^ 32))
        = (.error (.error "Mach-O patched range lies outside signed content"),
            exampleSigned (2 ^ 32))) := by
  refine ⟨⟨writeCodeSignature_example (by decide), ?_⟩,
    writeCodeSignature_example (by decide), ?_⟩
  · have hplan : refreshPlan exampleLoadCommands exampleDigest (splice (exampleSigned 64) 0 [0])
        [⟨0, 1⟩] = .error (.error "Unsupported Mach-O header") := by
      have hload : exampleLoadCommands (splice (exampleSigned 64) 0 [0])
          = .error (.error "Unsupported Mach-O header") := by
        rw [exampleLoadCommands, if_neg (by decide +kernel)]
      rw [refreshPlan, codeSignatureRange, hload]
      rfl
    rw [refreshCodeSignature, on_bind_of_ok (on_get _),
      on_bind_of_error (on_liftM_of_error hplan _)]
  · have hload := exampleLoadCommands_of_take (@take_exampleSigned (2 ^ 32) (by decide))
    have hdataoff : (writeCodeSignatureCommand (exampleSignature (2 ^ 32))).dataoff.toNat = 0 := by
      decide
    have hdatasize : (writeCodeSignatureCommand (exampleSignature (2 ^ 32))).datasize.toNat
        = 33554560 := by decide
    have hlen : 33554560 ≤ (exampleSigned (2 ^ 32)).length := by
      have hle := (@signable_example (2 ^ 32) (by decide)).le_length
      have hsize : (exampleSignature (2 ^ 32)).fileSize = 33554560 := by decide
      rw [exampleSigned, signed, length_splice]
      · omega
      · rw [length_signature (by omega)]
        exact hle
    have hrange : codeSignatureRange exampleLoadCommands (exampleSigned (2 ^ 32))
        = .ok ⟨0, 33554560⟩ := by
      have hfind := @findCodeSignature_of_single (exampleSigned (2 ^ 32)).length
        ⟨LC_CODE_SIGNATURE, .ok (writeCodeSignatureCommand (exampleSignature (2 ^ 32)))⟩ _ rfl
        (by rw [hdataoff, hdatasize]; omega)
        [⟨LC_CODE_SIGNATURE, .ok (writeCodeSignatureCommand (exampleSignature (2 ^ 32)))⟩] rfl
      rw [hdataoff, hdatasize] at hfind
      rw [codeSignatureRange, hload, ok_bind]
      exact bind_eq_ok.mpr ⟨_, hfind, rfl⟩
    have hplan : refreshPlan exampleLoadCommands exampleDigest (exampleSigned (2 ^ 32))
        [⟨48, 49⟩] = .error (.error "Mach-O patched range lies outside signed content") := by
      rw [refreshPlan, hrange, ok_bind]
      rfl
    rw [refreshCodeSignature, on_bind_of_ok (on_get _),
      on_bind_of_error (on_liftM_of_error hplan _)]

end

end Srs.MachO
