/-
# The link metadata is read back

The trailers are found from the end of the data, so every argument is about what the data ends
with.  The list of names ends with a byte that is no digit and, as the highest byte of a length, is
too large; a length of less than `2 ^ 48` ends with a zero.  So no trailer is found where none was
written.
-/
import Srs.Lib.HexText
import Srs.Rlib.RmetaLink

namespace Srs.Rlib

open Bytes LeBytes Leb128 Trailers List Option
open Incremental (isBlake3HexDigest RustcRlibRawObjectDigest u64LeBytes)

/-! ## 1. Steps -/

section

variable {α β : Type}

theorem bind_eq_ok {x : Decoded α} {f : α → Decoded β} {b : β} :
    (x >>= f) = .ok b ↔ ∃ a, x = .ok a ∧ f a = .ok b := by
  cases x <;> simp [bind, Except.bind]

@[simp] theorem ok_bind (a : α) (f : α → Decoded β) : ((Except.ok a : Decoded α) >>= f) = f a :=
  rfl

@[simp] theorem error_bind (stop : Stop) (f : α → Decoded β) :
    ((Except.error stop : Decoded α) >>= f) = .error stop := rfl

@[simp] theorem orAbsent_some (a : α) : orAbsent (some a) = .ok a := rfl

@[simp] theorem orAbsent_none : orAbsent (none : Option α) = .error .absent := rfl

theorem orAbsent_eq_ok {x : Option α} {a : α} : orAbsent x = .ok a ↔ x = some a := by
  cases x <;> simp [orAbsent]

theorem require_eq_ok {p : Prop} [Decidable p] {u : Unit} : require p = .ok u ↔ p := by
  unfold require
  split <;> simp_all

theorem require_of {p : Prop} [Decidable p] (h : p) : require p = .ok () := if_pos h

end

/-! ## 2. The list of names -/

theorem readStr_emitStr {s : Bytes} (h : s.length + 1 < 2 ^ 64) (rest : Bytes) :
    readStr (emitStr s ++ rest) = .ok (s, rest) := by
  have hsplit : emitStr s ++ rest = writeLeb s.length ++ ((s ++ [STR_SENTINEL]) ++ rest) := by
    simp [emitStr, List.append_assoc]
  have htake : takeExact (s.length + 1) ((s ++ [STR_SENTINEL]) ++ rest)
      = some (s ++ [STR_SENTINEL], rest) := takeExact_append _ _ (by simp)
  have hlast : (s ++ [STR_SENTINEL])[s.length]? = some STR_SENTINEL := by simp
  rw [readStr, hsplit, readLeb_writeLeb (by omega), orExhausted, ok_bind]
  simp only [Nat.mod_eq_of_lt h, htake, orExhausted, ok_bind, hlast, if_true, take_left]

theorem decodeStringsFrom_emitted : ∀ {strings : List Bytes},
    (∀ s ∈ strings, s.length + 1 < 2 ^ 64) → ∀ rest,
      decodeStringsFrom strings.length (strings.flatMap emitStr ++ rest) = .ok (strings, rest)
  | [], _, rest => rfl
  | s :: strings, h, rest => by
    have hrest := decodeStringsFrom_emitted (fun s' hs' => h s' (mem_cons_of_mem _ hs')) rest
    rw [length_cons, decodeStringsFrom, flatMap_cons, List.append_assoc,
      readStr_emitStr (h s (by simp)), ok_bind]
    simp only [hrest, ok_bind]

variable {strings : List Bytes}

/-- **The names are read back**, whatever follows them. -/
theorem decodeStrings_encodeStrings (hcount : strings.length < 2 ^ 64)
    (h : ∀ s ∈ strings, s.length + 1 < 2 ^ 64) (rest : Bytes) :
    decodeStrings (encodeStrings strings ++ rest) = .ok strings := by
  rw [decodeStrings, encodeStrings, List.append_assoc, readLeb_writeLeb hcount, orExhausted,
    ok_bind]
  simp only [decodeStringsFrom_emitted h rest, ok_bind]

theorem length_le_flatMap_emitStr {s : Bytes} : ∀ {strings : List Bytes}, s ∈ strings →
    s.length + 1 ≤ (strings.flatMap emitStr).length
  | c :: strings, hmem => by
    rw [flatMap_cons, length_append]
    rcases mem_cons.mp hmem with rfl | hmem
    · simp only [emitStr, length_append, length_singleton]
      omega
    · have := length_le_flatMap_emitStr hmem
      omega

theorem length_le_encodeStrings (strings : List Bytes) :
    strings.length ≤ (encodeStrings strings).length ∧
      ∀ s ∈ strings, s.length + 1 ≤ (encodeStrings strings).length := by
  constructor
  · rw [encodeStrings, length_append]
    have hcount : strings.length ≤ (strings.flatMap emitStr).length := by
      induction strings with
      | nil => exact Nat.le_refl _
      | cons c strings ih =>
        rw [flatMap_cons, length_append, length_cons]
        simp only [emitStr, length_append, length_singleton]
        omega
    omega
  · intro s hs
    have := length_le_flatMap_emitStr hs
    rw [encodeStrings, length_append]
    omega

/-- The names end with the sentinel, and without names there is one byte. -/
theorem encodeStrings_ends (strings : List Bytes) :
    encodeStrings strings = [0] ∨ ∃ front, encodeStrings strings = front ++ [STR_SENTINEL] := by
  rcases eq_nil_or_concat strings with rfl | ⟨front, last, rfl⟩
  · left
    rw [encodeStrings, length_nil, writeLeb]
    rfl
  · right
    refine ⟨writeLeb (front ++ [last]).length ++ (front.flatMap emitStr
      ++ (writeLeb last.length ++ last)), ?_⟩
    simp [encodeStrings, emitStr, List.append_assoc]

/-! ## 3. Digests -/

variable {digest : Text} {start : Nat} {data : Bytes} {n : Nat}

theorem length_digest (h : isBlake3HexDigest digest = true) :
    (utf8 digest).length = 64 ∧ ∀ b ∈ utf8 digest, IsHexByte b := by
  have hdigest : digest.length = 64 ∧ ∀ c ∈ digest, IsHex c := by
    simpa [isBlake3HexDigest] using h
  obtain ⟨hlen, hall⟩ := length_utf8_of_isHex hdigest.2
  exact ⟨hlen.trans hdigest.1, hall⟩

theorem readDigest_utf8 (h : isBlake3HexDigest digest = true) :
    readDigest (utf8 digest) = .ok digest := by
  rw [readDigest, fromUtf8_utf8, orAbsent_some, ok_bind, require_of h, ok_bind]

theorem readDigest_eq_ok {bytes : Bytes} (h : readDigest bytes = .ok digest) :
    utf8 digest = bytes ∧ isBlake3HexDigest digest = true := by
  obtain ⟨text, htext, h⟩ := bind_eq_ok.mp h
  obtain ⟨_, hvalid, h⟩ := bind_eq_ok.mp h
  cases h
  exact ⟨utf8_fromUtf8 (orAbsent_eq_ok.mp htext), require_eq_ok.mp hvalid⟩

/-- The last `n` bytes of data. -/
theorem getRange_end {α : Type} (a b : List α) :
    getRange (a ++ b) a.length (a ++ b).length = some b := by
  have h := getRange_append a b []
  rwa [append_nil, ← length_append] at h

theorem getRange_end_eq_some {α : Type} {l suffix : List α}
    (h : getRange l start l.length = some suffix) : l = l.take start ++ suffix := by
  unfold getRange at h
  split at h
  · rw [take_length] at h
    rw [← some.inj h, take_append_drop]
  · cases h

/-- Data whose last byte is no hexadecimal digit. -/
def EndsPlain (data : Bytes) : Prop := ∀ b, data.getLast? = some b → ¬ IsHexByte b

/-- Such data does not end with a digest. -/
theorem not_ends_digest {front : Bytes} (h : EndsPlain data)
    (hvalid : isBlake3HexDigest digest = true) : data ≠ front ++ utf8 digest := by
  rintro rfl
  obtain ⟨hlen, hall⟩ := length_digest hvalid
  have hne : utf8 digest ≠ [] := fun heq => by
    rw [heq] at hlen
    exact absurd hlen (by decide)
  have hlast : (front ++ utf8 digest).getLast? = some ((utf8 digest).getLast hne) := by
    rw [getLast?_append, getLast?_eq_some_getLast hne, some_or]
  exact h _ hlast (hall _ (getLast_mem hne))

theorem encodeStrings_endsPlain (strings : List Bytes) : EndsPlain (encodeStrings strings) := by
  intro b hb hhex
  rcases encodeStrings_ends strings with heq | ⟨front, heq⟩
  · rw [heq, getLast?_singleton, some.injEq] at hb
    subst hb
    exact absurd hhex.1 (by decide)
  · rw [heq, getLast?_concat, some.injEq] at hb
    subst hb
    exact absurd hhex.2 (by decide)

/-! ## 4. Where a reader stops -/

/-- A reader that finds something or nothing. -/
def OnlyAbsent {α : Type} (x : Decoded α) : Prop := ∀ stop, x = .error stop → stop = .absent

section

variable {α β : Type}

theorem onlyAbsent_ok (a : α) : OnlyAbsent (.ok a : Decoded α) := fun _ h => nomatch h

theorem onlyAbsent_orAbsent (x : Option α) : OnlyAbsent (orAbsent x) := by
  intro stop h
  cases x with
  | none => exact (Except.error.inj h).symm
  | some a => cases h

theorem onlyAbsent_require (p : Prop) [Decidable p] : OnlyAbsent (require p) := by
  intro stop h
  unfold require at h
  split at h
  · cases h
  · exact (Except.error.inj h).symm

variable {x : Decoded α}

theorem OnlyAbsent.bind {f : α → Decoded β} (hx : OnlyAbsent x)
    (hf : ∀ a, x = .ok a → OnlyAbsent (f a)) : OnlyAbsent (x >>= f) := by
  intro stop h
  cases x with
  | ok a => exact hf a rfl stop h
  | error stop' => exact hx stop (congrArg Except.error (Except.error.inj h))

theorem OnlyAbsent.eq_absent (hx : OnlyAbsent x) (h : ∀ a, x ≠ .ok a) :
    x = .error .absent := by
  cases x with
  | ok a => exact absurd rfl (h a)
  | error stop => rw [hx stop rfl]

end

theorem onlyAbsent_readDigest (bytes : Bytes) : OnlyAbsent (readDigest bytes) :=
  (onlyAbsent_orAbsent _).bind fun _ _ => (onlyAbsent_require _).bind fun _ _ => onlyAbsent_ok _

theorem onlyAbsent_decodeLinkContentDigest (data : Bytes) :
    OnlyAbsent (decodeLinkContentDigest data) :=
  (onlyAbsent_orAbsent _).bind fun _ _ => (onlyAbsent_orAbsent _).bind fun _ _ =>
    (onlyAbsent_orAbsent _).bind fun _ _ => (onlyAbsent_orAbsent _).bind fun _ _ =>
      onlyAbsent_readDigest _

theorem onlyAbsent_takeU64 (payload : Bytes) : OnlyAbsent (takeU64 payload) :=
  (onlyAbsent_orAbsent _).bind fun _ _ => (onlyAbsent_orAbsent _).bind fun _ _ => onlyAbsent_ok _

theorem onlyAbsent_decodeRawObjects : ∀ (count : Nat) (payload : Bytes),
    OnlyAbsent (decodeRawObjects count payload)
  | 0, _ => onlyAbsent_ok _
  | count + 1, payload => by
    refine (onlyAbsent_takeU64 payload).bind fun len _ => ?_
    refine (onlyAbsent_orAbsent _).bind fun name _ => (onlyAbsent_orAbsent _).bind fun text _ => ?_
    refine (onlyAbsent_orAbsent _).bind fun bytes _ => ?_
    refine (onlyAbsent_orAbsent _).bind fun digest _ => ?_
    refine (onlyAbsent_require _).bind fun _ _ => ?_
    exact (onlyAbsent_decodeRawObjects count _).bind fun _ _ => onlyAbsent_ok _

theorem onlyAbsent_rawObjectPayload (data : Bytes) : OnlyAbsent (rawObjectPayload data) :=
  (onlyAbsent_orAbsent _).bind fun _ _ => (onlyAbsent_orAbsent _).bind fun _ _ =>
    (onlyAbsent_orAbsent _).bind fun _ _ => (onlyAbsent_orAbsent _).bind fun _ _ =>
      (onlyAbsent_orAbsent _).bind fun _ _ => (onlyAbsent_orAbsent _).bind fun _ _ =>
        (onlyAbsent_require _).bind fun _ _ => onlyAbsent_orAbsent _

/-- The trailer starts inside the data. -/
theorem sliceTo_of_checkedSub
    (h : checkedSub data.length n = some start) : sliceTo data start = .ok (data.take start) := by
  have hsub := checkedSub_eq_some.mp h
  exact if_pos (by omega)

theorem onlyAbsent_stripLinkContentDigestSuffix (data : Bytes) :
    OnlyAbsent (stripLinkContentDigestSuffix data) := by
  unfold stripLinkContentDigestSuffix
  split
  · exact onlyAbsent_ok _
  · rename_i start hstart
    split
    · rw [sliceTo_of_checkedSub hstart]
      exact onlyAbsent_ok _
    · exact onlyAbsent_ok _

theorem onlyAbsent_decodeRawObjectDigests (data : Bytes) :
    OnlyAbsent (decodeRawObjectDigests data) := by
  refine (onlyAbsent_orAbsent _).bind fun _ _ => ?_
  refine (onlyAbsent_stripLinkContentDigestSuffix _).bind fun _ _ => ?_
  refine (onlyAbsent_rawObjectPayload _).bind fun _ _ => (onlyAbsent_takeU64 _).bind fun _ _ => ?_
  refine (onlyAbsent_require _).bind fun _ _ => ?_
  exact (onlyAbsent_decodeRawObjects _ _).bind fun _ _ => (onlyAbsent_require _).bind fun _ _ =>
    onlyAbsent_ok _

/-! ## 5. The digest of what is linked -/

theorem hasLinkContentDigest_iff :
    hasLinkContentDigest data start = true ↔
      ∃ digest, isBlake3HexDigest digest = true ∧
        getRange data start data.length = some (LINK_CONTENT_DIGEST_PREFIX ++ utf8 digest) := by
  constructor
  · intro h
    unfold hasLinkContentDigest at h
    split at h
    · cases h
    · rename_i bytes hbytes
      split at h
      · cases h
      · rename_i digest hdigest
        obtain ⟨suffix, hsuffix, hstrip⟩ := bind_eq_some_iff.mp hbytes
        refine ⟨digest, h, ?_⟩
        rw [utf8_fromUtf8 hdigest, ← stripPrefix_eq_some.mp hstrip, hsuffix]
  · rintro ⟨digest, hvalid, hrange⟩
    unfold hasLinkContentDigest
    rw [hrange, bind_some, stripPrefix_append]
    simp only [fromUtf8_utf8, hvalid]

theorem checkedSub_digest (body : Bytes) {d : Text} (hvalid : isBlake3HexDigest d = true) :
    checkedSub (body ++ (LINK_CONTENT_DIGEST_PREFIX ++ utf8 d)).length
      (LINK_CONTENT_DIGEST_PREFIX.length + BLAKE3_HEX_DIGEST_LEN) = some body.length := by
  have hlen : (LINK_CONTENT_DIGEST_PREFIX ++ utf8 d).length
      = LINK_CONTENT_DIGEST_PREFIX.length + BLAKE3_HEX_DIGEST_LEN := by
    rw [length_append, (length_digest hvalid).1]
    rfl
  rw [length_append, hlen]
  exact checkedSub_add _ _

variable {body : Bytes}

/-- **The trailer is taken off, and nothing else.** -/
theorem strip_linkContentTrailer (h : EndsPlain body) (digest : Option Text) :
    stripLinkContentDigestSuffix (body ++ linkContentTrailer digest) = .ok body := by
  unfold linkContentTrailer
  cases hfilter : digest.filter isBlake3HexDigest with
  | none =>
    rw [append_nil, stripLinkContentDigestSuffix]
    split
    · rfl
    · rename_i start hstart
      have hnot : hasLinkContentDigest body start ≠ true := by
        intro hhas
        obtain ⟨digest, hvalid, hrange⟩ := hasLinkContentDigest_iff.mp hhas
        have hbody := getRange_end_eq_some hrange
        rw [← List.append_assoc] at hbody
        exact not_ends_digest h hvalid hbody
      rw [if_neg hnot]
  | some d =>
    have hvalid : isBlake3HexDigest d = true := (filter_eq_some_iff.mp hfilter).2
    have hstart := checkedSub_digest body hvalid
    have hhas : hasLinkContentDigest (body ++ (LINK_CONTENT_DIGEST_PREFIX ++ utf8 d)) body.length
        = true := hasLinkContentDigest_iff.mpr ⟨d, hvalid, getRange_end _ _⟩
    simp only [stripLinkContentDigestSuffix, hstart, hhas, if_true]
    rw [sliceTo_of_checkedSub hstart, take_left]

/-- The digest that is found. -/
theorem decodeLinkContentDigest_written (h : EndsPlain body) (digest : Option Text) :
    decodeLinkContentDigest (body ++ linkContentTrailer digest ++ MAGIC_END_BYTES)
      = orAbsent (digest.filter isBlake3HexDigest) := by
  unfold linkContentTrailer
  cases hfilter : digest.filter isBlake3HexDigest with
  | none =>
    rw [append_nil]
    refine (onlyAbsent_decodeLinkContentDigest _).eq_absent fun d hd => ?_
    rw [decodeLinkContentDigest, stripSuffix_append, orAbsent_some, ok_bind] at hd
    obtain ⟨start, _, hd⟩ := bind_eq_ok.mp hd
    obtain ⟨suffix, hsuffix, hd⟩ := bind_eq_ok.mp hd
    obtain ⟨bytes, hbytes, hd⟩ := bind_eq_ok.mp hd
    obtain ⟨hutf8, hvalid⟩ := readDigest_eq_ok hd
    have hbody := getRange_end_eq_some (orAbsent_eq_ok.mp hsuffix)
    rw [stripPrefix_eq_some.mp (orAbsent_eq_ok.mp hbytes), ← hutf8, ← List.append_assoc] at hbody
    exact not_ends_digest h hvalid hbody
  | some d =>
    have hvalid : isBlake3HexDigest d = true := (filter_eq_some_iff.mp hfilter).2
    have hstart := checkedSub_digest body hvalid
    simp only [decodeLinkContentDigest, stripSuffix_append, orAbsent_some, ok_bind, hstart,
      getRange_end, stripPrefix_append]
    exact readDigest_utf8 hvalid

/-! ## 6. The digests of the raw objects -/

theorem leValue_append (a b : Bytes) :
    leValue (a ++ b) = leValue a + 2 ^ (8 * a.length) * leValue b := by
  induction a with
  | nil => simp [leValue]
  | cons x a ih =>
    have hpow : 2 ^ (8 * (a.length + 1)) = 256 * 2 ^ (8 * a.length) := by
      rw [Nat.mul_add, Nat.pow_add, Nat.mul_comm]
    rw [cons_append, leValue, leValue, ih, length_cons, hpow, Nat.mul_add, Nat.mul_assoc,
      Nat.add_assoc]

theorem decodeU64_leBytes (h : n < 2 ^ 64) : decodeU64 (leBytes 8 n) = some n := by
  rw [decodeU64, if_pos (length_leBytes 8 n), leValue_leBytes]
  exact congrArg some (Nat.mod_eq_of_lt h)

theorem takeU64_leBytes (h : n < 2 ^ 64) (rest : Bytes) :
    takeU64 (leBytes 8 n ++ rest) = .ok (n, rest) := by
  rw [takeU64, takeExact_append _ _ (length_leBytes 8 n), orAbsent_some, ok_bind]
  simp only [decodeU64_leBytes h, orAbsent_some, ok_bind]

/-- **The payload is found** behind whatever stands in front of the trailer. -/
theorem rawObjectPayload_written {front payload : Bytes} (h : payload.length < 2 ^ 64) :
    rawObjectPayload (front ++ (RAW_OBJECT_DIGESTS_PREFIX ++ payload ++ leBytes 8 payload.length))
      = .ok payload := by
  have hword : (leBytes 8 payload.length).length = 8 := length_leBytes 8 _
  have hsplit : front ++ (RAW_OBJECT_DIGESTS_PREFIX ++ payload ++ leBytes 8 payload.length)
      = (front ++ RAW_OBJECT_DIGESTS_PREFIX ++ payload) ++ leBytes 8 payload.length := by
    simp [List.append_assoc]
  have hsub : checkedSub
      ((front ++ RAW_OBJECT_DIGESTS_PREFIX ++ payload) ++ leBytes 8 payload.length).length 8
        = some (front ++ RAW_OBJECT_DIGESTS_PREFIX ++ payload).length := by
    rw [length_append, hword]
    exact checkedSub_add _ _
  have hoffset : checkedSub (front ++ RAW_OBJECT_DIGESTS_PREFIX ++ payload).length payload.length
      = some (front ++ RAW_OBJECT_DIGESTS_PREFIX).length := by
    rw [length_append]
    exact checkedSub_add _ _
  have hpre : checkedSub (front ++ RAW_OBJECT_DIGESTS_PREFIX).length
      RAW_OBJECT_DIGESTS_PREFIX.length = some front.length := by
    rw [length_append]
    exact checkedSub_add _ _
  have hstart : getRange ((front ++ RAW_OBJECT_DIGESTS_PREFIX ++ payload)
      ++ leBytes 8 payload.length) front.length (front.length + RAW_OBJECT_DIGESTS_PREFIX.length)
        = some RAW_OBJECT_DIGESTS_PREFIX := by
    have := getRange_append front RAW_OBJECT_DIGESTS_PREFIX (payload ++ leBytes 8 payload.length)
    simpa [List.append_assoc] using this
  have hpayload : getRange ((front ++ RAW_OBJECT_DIGESTS_PREFIX ++ payload)
      ++ leBytes 8 payload.length) (front.length + RAW_OBJECT_DIGESTS_PREFIX.length)
        (front ++ RAW_OBJECT_DIGESTS_PREFIX ++ payload).length = some payload := by
    have := getRange_append (front ++ RAW_OBJECT_DIGESTS_PREFIX) payload (leBytes 8 payload.length)
    simpa [List.append_assoc, Nat.add_assoc] using this
  rw [hsplit, rawObjectPayload]
  simp only [hsub, orAbsent_some, ok_bind, getRange_end, decodeU64_leBytes h, hoffset, hpre,
    hstart, require_of, hpayload]

/-- **Without a trailer nothing is found**: the list of names ends with a byte that is too large
for the highest byte of a length. -/
theorem rawObjectPayload_encodeStrings
    (h : (encodeStrings strings).length < 2 ^ 48) :
    rawObjectPayload (encodeStrings strings) = .error .absent := by
  refine (onlyAbsent_rawObjectPayload _).eq_absent fun payload hok => ?_
  obtain ⟨lenOffset, hlen, hok⟩ := bind_eq_ok.mp hok
  obtain ⟨word, hword, hok⟩ := bind_eq_ok.mp hok
  obtain ⟨len, hvalue, hok⟩ := bind_eq_ok.mp hok
  obtain ⟨start, hstart, -⟩ := bind_eq_ok.mp hok
  have hlen := checkedSub_eq_some.mp (orAbsent_eq_ok.mp hlen)
  have hstart := checkedSub_eq_some.mp (orAbsent_eq_ok.mp hstart)
  have hsplit := getRange_end_eq_some (orAbsent_eq_ok.mp hword)
  have hvalue := orAbsent_eq_ok.mp hvalue
  unfold decodeU64 at hvalue
  split at hvalue
  · rename_i hword8
    have hvalue : leValue word = len := some.inj hvalue
    rcases encodeStrings_ends strings with heq | ⟨front, heq⟩
    · rw [heq] at hlen
      simp only [length_singleton] at hlen
      omega
    · have hne : word ≠ [] := fun hnil => by
        rw [hnil] at hword8
        exact absurd hword8 (by decide)
      obtain ⟨init, last, rfl⟩ : ∃ init last, word = init ++ [last] :=
        ⟨word.dropLast, word.getLast hne, (dropLast_append_getLast hne).symm⟩
      have hlast : last = STR_SENTINEL := by
        rw [heq, ← List.append_assoc] at hsplit
        exact (append_inj' hsplit.symm rfl).2 |> singleton_inj.mp
      have hinit : init.length = 7 := by
        rw [length_append, length_singleton] at hword8
        omega
      have hlarge : 2 ^ 56 ≤ leValue (init ++ [last]) := by
        rw [leValue_append, hinit, hlast]
        have : leValue [STR_SENTINEL] = 193 := rfl
        omega
      omega
  · cases hvalue

theorem decodeRawObjects_encoded : ∀ {objects : List RawObjectDigest},
    (∀ object ∈ objects, object.valid = true ∧ (utf8 object.memberName).length < 2 ^ 64) →
      ∀ rest, decodeRawObjects objects.length (objects.flatMap encodeRawObject ++ rest)
        = .ok (objects, rest)
  | [], _, _ => rfl
  | object :: objects, h, rest => by
    obtain ⟨hvalid, hsize⟩ := h object (by simp)
    have hvalid : object.memberName ≠ [] ∧ isBlake3HexDigest object.digest = true := by
      simpa [RawObjectDigest.valid] using hvalid
    have hrest := decodeRawObjects_encoded
      (fun object' ho => h object' (mem_cons_of_mem _ ho)) rest
    have hsplit : (object :: objects).flatMap encodeRawObject ++ rest
        = leBytes 8 (utf8 object.memberName).length ++ (utf8 object.memberName
          ++ (utf8 object.digest ++ (objects.flatMap encodeRawObject ++ rest))) := by
      simp [encodeRawObject, List.append_assoc]
    have hdigest : (utf8 object.digest).length = BLAKE3_HEX_DIGEST_LEN :=
      (length_digest hvalid.2).1
    rw [length_cons, decodeRawObjects, hsplit, takeU64_leBytes hsize, ok_bind]
    simp only [takeExact_append _ _ rfl, orAbsent_some, ok_bind, fromUtf8_utf8,
      takeExact_append _ _ hdigest, require_of hvalid, hrest]

theorem length_encodeRawObject {object : RawObjectDigest} (h : object.valid = true) :
    (encodeRawObject object).length = 8 + 64 + (utf8 object.memberName).length := by
  have hvalid : object.memberName ≠ [] ∧ isBlake3HexDigest object.digest = true := by
    simpa [RawObjectDigest.valid] using h
  rw [encodeRawObject, length_append, length_append, length_leBytes,
    (length_digest hvalid.2).1]
  omega

theorem length_encodedObjects : ∀ {objects : List RawObjectDigest},
    (∀ object ∈ objects, object.valid = true) →
      objects.length * 72 ≤ (objects.flatMap encodeRawObject).length ∧
        ∀ object ∈ objects,
          (utf8 object.memberName).length ≤ (objects.flatMap encodeRawObject).length
  | [], _ => ⟨Nat.le_refl _, by simp⟩
  | object :: objects, h => by
    have hlen := length_encodeRawObject (h object (by simp))
    obtain ⟨hcount, hnames⟩ := length_encodedObjects
      fun object' ho => h object' (mem_cons_of_mem _ ho)
    rw [flatMap_cons, length_append, length_cons]
    refine ⟨by omega, fun object' ho => ?_⟩
    rcases mem_cons.mp ho with rfl | ho
    · omega
    · have := hnames object' ho
      omega

/-- The objects of a payload. -/
theorem decode_payload {objects : List RawObjectDigest} {payload : Bytes}
    (h : encodeRawObjectDigests objects = some payload) (hsize : payload.length < 2 ^ 64) :
    (∀ object ∈ objects, object.valid = true) ∧
      payload = leBytes 8 objects.length ++ objects.flatMap encodeRawObject ∧
      takeU64 payload = .ok (objects.length, objects.flatMap encodeRawObject) ∧
      objects.length ≤ (objects.flatMap encodeRawObject).length / 72 ∧
      decodeRawObjects objects.length (objects.flatMap encodeRawObject) = .ok (objects, []) := by
  unfold encodeRawObjectDigests at h
  split at h
  · cases h
  · rename_i hvalid
    have hvalid : ∀ object ∈ objects, object.valid = true := by simpa using hvalid
    have hpayload := (some.inj h).symm
    obtain ⟨hcount, hnames⟩ := length_encodedObjects hvalid
    have hlen : (objects.flatMap encodeRawObject).length < 2 ^ 64 := by
      rw [hpayload, length_append] at hsize
      omega
    have hdecode := @decodeRawObjects_encoded objects
      (fun object ho => ⟨hvalid object ho, Nat.lt_of_le_of_lt (hnames object ho) hlen⟩) []
    rw [append_nil] at hdecode
    refine ⟨hvalid, hpayload, ?_, ?_, hdecode⟩
    · rw [hpayload, takeU64_leBytes (by omega)]
    · rw [Nat.le_div_iff_mul_le (by decide)]
      exact hcount

end Srs.Rlib
