/-
# Copy relocations and the order of requests

Which symbol an address is copied for depends on the requests and the symbol table only up to a
choice (`candidates`): with several non-weak symbols requested it is the one whose request came
last, with weak ones only it is the first non-weak symbol of the table or else the one that was
requested first.  The size, the alignment and the place among the copies are those of the chosen
symbol.

So copies come out right for every order of requests exactly when the candidates of an address agree
in what is allocated for them, this is enough for every symbol requested there, and no two addresses
can change places (`Settled`).  Whatever the order, symbols at one address share one copy and the
copies of different addresses are disjoint.
-/
import Srs.Dynamic.CopyRelocations

namespace Srs.Dynamic

open List Option CopyRelocations DynamicSymbol CopyRelocationInfo

/-! ## 1. Entries by address -/

namespace CopyRelocations

variable {n : Nat}

theorem lookup_append (map rest : CopyRelocations n) (a : Nat) :
    (map ++ rest).lookup a = (map.lookup a).or (rest.lookup a) := by
  induction map with
  | nil => simp
  | cons entry map ih =>
    obtain ⟨k, info⟩ := entry
    rcases eq_or_ne a k with rfl | hne
    · simp
    · simp [lookup_cons, beq_false_of_ne hne, ih]

theorem lookup_orInsert (map : CopyRelocations n) (k : Nat) (info : CopyRelocationInfo n)
    (a : Nat) : (map.orInsert k info).lookup a =
      if a = k then some ((map.lookup k).getD info) else map.lookup a := by
  unfold orInsert
  split
  · rename_i h
    obtain ⟨i, hi⟩ := isSome_iff_exists.mp h
    rcases eq_or_ne a k with rfl | hne
    · simp [hi]
    · simp [hne]
  · rename_i h
    have hnone : map.lookup k = none := not_isSome_iff_eq_none.mp h
    rcases eq_or_ne a k with rfl | hne
    · simp [lookup_append, hnone]
    · simp [lookup_append, hne, lookup_cons, beq_false_of_ne hne]

theorem lookup_modify (map : CopyRelocations n) (k : Nat)
    (f : CopyRelocationInfo n → CopyRelocationInfo n) (a : Nat) :
    (map.modify k f).lookup a = if a = k then (map.lookup k).map f else map.lookup a := by
  induction map with
  | nil => simp [modify]
  | cons entry map ih =>
    obtain ⟨j, info⟩ := entry
    simp only [modify, map_cons] at ih ⊢
    rcases eq_or_ne j k with rfl | hjk
    · rcases eq_or_ne a j with rfl | haj
      · simp
      · simp [haj, lookup_cons, beq_false_of_ne haj, ih]
    · rcases eq_or_ne a j with rfl | haj
      · simp [hjk]
      · rcases eq_or_ne a k with rfl | hak
        · simp [hjk, lookup_cons, beq_false_of_ne haj, ih]
        · simp [hjk, hak, lookup_cons, beq_false_of_ne haj, ih]

/-- The addresses with an entry. -/
def keys (map : CopyRelocations n) : List Nat := map.map (·.1)

@[simp] theorem keys_modify (map : CopyRelocations n) (k : Nat)
    (f : CopyRelocationInfo n → CopyRelocationInfo n) : (map.modify k f).keys = map.keys := by
  simp only [keys, modify, List.map_map]
  refine map_congr_left fun entry _ => ?_
  simp only [Function.comp_apply]
  split <;> rfl

variable {map : CopyRelocations n}

theorem mem_keys_iff {a : Nat} :
    a ∈ map.keys ↔ (map.lookup a).isSome := by
  induction map with
  | nil => simp [keys]
  | cons entry map ih =>
    obtain ⟨k, info⟩ := entry
    rcases eq_or_ne a k with rfl | hne
    · simp [keys]
    · have hih : a ∈ map.map (·.1) ↔ (map.lookup a).isSome = true := ih
      simp only [keys, map_cons, mem_cons, hne, false_or, hih, lookup_cons,
        beq_false_of_ne hne]

theorem nodup_orInsert (h : map.keys.Nodup) (k : Nat)
    (info : CopyRelocationInfo n) : (map.orInsert k info).keys.Nodup := by
  unfold orInsert
  split
  · exact h
  · rename_i hnone
    have hk : k ∉ map.keys := fun hmem => hnone (mem_keys_iff.mp hmem)
    simp only [keys, map_append, map_cons, map_nil]
    exact nodup_append.mpr ⟨h, nodup_singleton k, by
      rintro a ha b hb rfl
      rw [mem_singleton.mp hb] at ha
      exact hk ha⟩

/-- With its keys distinct a map holds what is looked up. -/
theorem mem_iff_lookup (h : map.keys.Nodup) {a : Nat}
    {info : CopyRelocationInfo n} : (a, info) ∈ map ↔ map.lookup a = some info := by
  induction map with
  | nil => simp
  | cons entry map ih =>
    obtain ⟨k, i⟩ := entry
    have hcons : k ∉ keys map ∧ (keys map).Nodup := nodup_cons.mp h
    rcases eq_or_ne a k with rfl | hne
    · have hout : (a, info) ∉ map := fun hmem => hcons.1 (List.mem_map_of_mem hmem)
      simp [hout, eq_comm]
    · simp [hne, lookup_cons, beq_false_of_ne hne, ih hcons.2]

/-- A sum over the entries is one over the keys. -/
theorem sum_map_entries (h : map.keys.Nodup) (f : Fin n → Nat) :
    (map.map fun entry => f entry.2.symbolId).sum =
      (map.keys.map fun a => ((map.lookup a).map fun info => f info.symbolId).getD 0).sum := by
  have hterm : ∀ entry ∈ map, f entry.2.symbolId =
      ((map.lookup entry.1).map fun info => f info.symbolId).getD 0 := by
    rintro ⟨a, info⟩ hmem
    simp [(mem_iff_lookup h).mp hmem]
  rw [keys, List.map_map]
  exact congrArg sum (map_congr_left hterm)

end CopyRelocations

variable {n : Nat} (symbols : Fin n → DynamicSymbol)

/-! ## 2. Which symbol is chosen -/

/-- The addresses that copies are requested at. -/
def requestedAddresses (requests : List (Fin n)) : List Nat :=
  (requests.map fun c => (symbols c).value).dedup

def requestedAt (requests : List (Fin n)) (a : Nat) : List (Fin n) :=
  requests.filter fun c => (symbols c).value = a

def strongAt (requests : List (Fin n)) (a : Nat) : List (Fin n) :=
  (requestedAt symbols requests a).filter fun c => !(symbols c).isWeak

/-- The first non-weak symbol of the table at an address that is the definition of its name. -/
def alternativeAt (a : Nat) : Option (Fin n) :=
  (finRange n).find? fun c =>
    (symbols c).value = a && (symbols c).isCanonical && !(symbols c).isWeak

/-- What the requests leave at an address. -/
def requestedInfo (requests : List (Fin n)) (a : Nat) : Option (CopyRelocationInfo n) :=
  match (strongAt symbols requests a).getLast? with
  | some c => some ⟨c, false⟩
  | none => (requestedAt symbols requests a).head?.map fun c => ⟨c, true⟩

/-- What is there in the end. -/
def selectedInfo (requests : List (Fin n)) (a : Nat) : Option (CopyRelocationInfo n) :=
  (requestedInfo symbols requests a).map fun info =>
    if info.isWeak then
      match alternativeAt symbols a with
      | some c => ⟨c, false⟩
      | none => info
    else info

variable {symbols}

theorem requestedAt_append (requests : List (Fin n)) (c : Fin n) (a : Nat) :
    requestedAt symbols (requests ++ [c]) a =
      requestedAt symbols requests a ++ if (symbols c).value = a then [c] else [] := by
  rw [requestedAt, requestedAt, filter_append]
  congr 1
  by_cases h : (symbols c).value = a <;> simp [h]

theorem strongAt_append (requests : List (Fin n)) (c : Fin n) (a : Nat) :
    strongAt symbols (requests ++ [c]) a = strongAt symbols requests a ++
      if (symbols c).value = a ∧ (symbols c).isWeak = false then [c] else [] := by
  rw [strongAt, requestedAt_append, filter_append]
  congr 1
  by_cases h : (symbols c).value = a <;> cases hw : (symbols c).isWeak <;> simp [h, hw]

variable {requests : List (Fin n)} {a : Nat} {c : Fin n} {memoryOffsets : Alignment → Nat}

theorem mem_requestedAt :
    c ∈ requestedAt symbols requests a ↔ c ∈ requests ∧ (symbols c).value = a := by
  simp [requestedAt]

theorem mem_strongAt :
    c ∈ strongAt symbols requests a ↔
      (c ∈ requests ∧ (symbols c).value = a) ∧ (symbols c).isWeak = false := by
  simp [strongAt, mem_requestedAt]

variable {info : CopyRelocationInfo n}

/-- What is requested is weak exactly if the entry says so. -/
theorem requestedInfo_spec
    (h : requestedInfo symbols requests a = some info) :
    (info.symbolId ∈ requests ∧ (symbols info.symbolId).value = a) ∧
      info.isWeak = (symbols info.symbolId).isWeak := by
  unfold requestedInfo at h
  split at h
  · rename_i c hlast
    cases h
    have hc := mem_strongAt.mp (mem_of_mem_getLast? hlast)
    exact ⟨hc.1, hc.2.symm⟩
  · rename_i hnone
    obtain ⟨c, hc, rfl⟩ := map_eq_some_iff.mp h
    have hmem := mem_of_mem_head? hc
    refine ⟨mem_requestedAt.mp hmem, ?_⟩
    have hempty : strongAt symbols requests a = [] := getLast?_eq_none_iff.mp hnone
    cases hw : (symbols c).isWeak with
    | true => rfl
    | false =>
      have hstrong : c ∈ strongAt symbols requests a :=
        mem_strongAt.mpr ⟨mem_requestedAt.mp hmem, hw⟩
      rw [hempty] at hstrong
      exact absurd hstrong not_mem_nil

/-- **The requests**: the last non-weak symbol, or else the first weak one. -/
theorem lookup_copyRelocateSymbols (requests : List (Fin n)) (a : Nat) :
    (copyRelocateSymbols symbols requests).lookup a = requestedInfo symbols requests a := by
  induction requests using reverseRecOn with
  | nil => simp [copyRelocateSymbols, requestedInfo, requestedAt, strongAt]
  | append_singleton requests c ih =>
    have hstep : copyRelocateSymbols symbols (requests ++ [c]) =
        copyRelocateSymbol symbols (copyRelocateSymbols symbols requests) c := by
      simp [copyRelocateSymbols]
    rw [hstep, copyRelocateSymbol, lookup_modify]
    rcases eq_or_ne a (symbols c).value with rfl | hne
    · rw [if_pos rfl, lookup_orInsert, if_pos rfl, ih]
      unfold requestedInfo
      rw [strongAt_append, requestedAt_append]
      cases hw : (symbols c).isWeak with
      | true =>
        cases hstrong : (strongAt symbols requests (symbols c).value).getLast? with
        | some d => simp [hstrong, addSymbol]
        | none =>
          cases hfirst : (requestedAt symbols requests (symbols c).value).head? with
          | some d => simp [hstrong, hfirst, addSymbol]
          | none => simp [hstrong, hfirst, addSymbol]
      | false =>
        -- a weak entry is not that of `c`
        have hadd : ∀ info, requestedInfo symbols requests (symbols c).value = some info →
            info.addSymbol c false = ⟨c, false⟩ := by
          intro info hinfo
          have hweak := (requestedInfo_spec hinfo).2
          obtain ⟨d, weak⟩ := info
          by_cases hd : d = c
          · subst hd
            simp only [hw] at hweak
            simp [addSymbol, hweak]
          · simp [addSymbol, hd]
        cases hinfo : requestedInfo symbols requests (symbols c).value with
        | some info =>
          have hfold := hadd info hinfo
          rw [requestedInfo] at hinfo
          simp [hinfo, hfold]
        | none =>
          rw [requestedInfo] at hinfo
          simp [hinfo, addSymbol]
    · rw [if_neg hne, lookup_orInsert, if_neg hne, ih]
      simp [requestedInfo, strongAt_append, requestedAt_append, Ne.symm hne]

/-- One turn over the symbol table: a weak entry takes the symbol if it is fit to be one. -/
theorem lookup_selectCopyRelocationAlternative (map : CopyRelocations n) (c : Fin n) (a : Nat)
    (hweak : ∀ info, map.lookup a = some info → info.isWeak = (symbols info.symbolId).isWeak) :
    (selectCopyRelocationAlternative symbols map c).lookup a = (map.lookup a).map fun info =>
      if info.isWeak ∧ (symbols c).value = a ∧ (symbols c).isCanonical ∧ !(symbols c).isWeak then
        ⟨c, false⟩ else info := by
  rw [selectCopyRelocationAlternative, lookup_modify]
  rcases eq_or_ne a (symbols c).value with rfl | hne
  · rw [if_pos rfl]
    cases hinfo : map.lookup (symbols c).value with
    | none => rfl
    | some info =>
      have hw := hweak info hinfo
      obtain ⟨d, weak⟩ := info
      simp only [map_some, some.injEq]
      cases hcanonical : (symbols c).isCanonical with
      | false => simp
      | true =>
        cases hcweak : (symbols c).isWeak with
        | true => simp
        | false =>
          cases weak with
          | false => simp
          | true =>
            have hd : d ≠ c := by
              rintro rfl
              simp [hcweak] at hw
            simp [hd]
  · simp [hne, Ne.symm hne]

theorem lookup_foldl_alternatives (ids : List (Fin n)) (a : Nat) (map : CopyRelocations n)
    (hweak : ∀ info, map.lookup a = some info → info.isWeak = (symbols info.symbolId).isWeak) :
    (ids.foldl (selectCopyRelocationAlternative symbols) map).lookup a =
      (map.lookup a).map fun info =>
        if info.isWeak then
          match ids.find? fun c => (symbols c).value = a && (symbols c).isCanonical &&
              !(symbols c).isWeak with
          | some c => ⟨c, false⟩
          | none => info
        else info := by
  induction ids generalizing map with
  | nil => simp
  | cons c ids ih =>
    have hstep := lookup_selectCopyRelocationAlternative map c a hweak
    rw [foldl_cons, ih]
    · rw [hstep, Option.map_map]
      cases hinfo : map.lookup a with
      | none => rfl
      | some info =>
        simp only [map_some, Function.comp_apply, some.injEq]
        by_cases hfit : (symbols c).value = a ∧ (symbols c).isCanonical = true ∧
            (symbols c).isWeak = false
        · obtain ⟨hvalue, hcanonical, hcweak⟩ := hfit
          cases hw : info.isWeak <;> simp [hvalue, hcanonical, hcweak, hw]
        · have hskip : ((symbols c).value = a && (symbols c).isCanonical &&
              !(symbols c).isWeak) = false := by
            rw [← Bool.not_eq_true]
            simpa [and_assoc] using hfit
          have hno : ¬ (info.isWeak = true ∧ (symbols c).value = a ∧
              (symbols c).isCanonical = true ∧ (!(symbols c).isWeak) = true) := by
            rintro ⟨-, hv, hc, hw⟩
            exact hfit ⟨hv, hc, by simpa using hw⟩
          rw [if_neg hno, find?_cons, hskip]
    · intro info hinfo
      rw [hstep] at hinfo
      obtain ⟨old, hold, rfl⟩ := map_eq_some_iff.mp hinfo
      split
      · rename_i hfit
        simpa using hfit.2.2.2
      · exact hweak old hold

/-- **The choice**, after the loop over the symbol table. -/
theorem lookup_copyRelocations (requests : List (Fin n)) (a : Nat) :
    (copyRelocations symbols requests).lookup a = selectedInfo symbols requests a := by
  have hrequests := @lookup_copyRelocateSymbols n symbols requests a
  have hfold := lookup_foldl_alternatives (finRange n) a (copyRelocateSymbols symbols requests)
    fun info hinfo => (requestedInfo_spec (hrequests ▸ hinfo)).2
  rw [copyRelocations, selectCopyRelocationAlternatives, hfold, hrequests]
  rfl

theorem nodup_keys_copyRelocations (requests : List (Fin n)) :
    (copyRelocations symbols requests).keys.Nodup := by
  have hrequests : (copyRelocateSymbols symbols requests).keys.Nodup := by
    induction requests using reverseRecOn with
    | nil => exact nodup_nil
    | append_singleton requests c ih =>
      simp only [copyRelocateSymbols, foldl_append, foldl_cons, foldl_nil,
        copyRelocateSymbol, keys_modify] at ih ⊢
      exact nodup_orInsert ih _ _
  have hloop : ∀ (ids : List (Fin n)) (map : CopyRelocations n),
      (ids.foldl (selectCopyRelocationAlternative symbols) map).keys = map.keys := by
    intro ids
    induction ids with
    | nil => exact fun map => rfl
    | cons c ids ih =>
      intro map
      rw [foldl_cons, ih, selectCopyRelocationAlternative, keys_modify]
  rw [copyRelocations, selectCopyRelocationAlternatives, hloop]
  exact hrequests

theorem mem_requestedAddresses :
    a ∈ requestedAddresses symbols requests ↔ ∃ c ∈ requests, (symbols c).value = a := by
  simp [requestedAddresses]

theorem selectedInfo_isSome_iff :
    (selectedInfo symbols requests a).isSome ↔ a ∈ requestedAddresses symbols requests := by
  rw [mem_requestedAddresses, selectedInfo, isSome_map]
  constructor
  · intro h
    obtain ⟨info, hinfo⟩ := isSome_iff_exists.mp h
    exact ⟨info.symbolId, (requestedInfo_spec hinfo).1⟩
  · rintro ⟨c, hc⟩
    unfold requestedInfo
    split
    · rfl
    · rw [isSome_map, isSome_head?]
      exact ne_nil_of_mem (mem_requestedAt.mpr hc)

/-- The addresses with a copy are those requested. -/
theorem keys_copyRelocations_perm (requests : List (Fin n)) :
    (copyRelocations symbols requests).keys.Perm (requestedAddresses symbols requests) := by
  refine (perm_ext_iff_of_nodup (nodup_keys_copyRelocations requests)
    (nodup_dedup _)).mpr fun a => ?_
  rw [mem_keys_iff, lookup_copyRelocations, selectedInfo_isSome_iff]
  rfl

/-! ## 3. Candidates -/

variable (symbols) in
/-- **The symbols that an address can be copied for**, depending on the order of the requests. -/
def candidates (requests : List (Fin n)) (a : Nat) : List (Fin n) :=
  if strongAt symbols requests a ≠ [] then strongAt symbols requests a
  else
    match alternativeAt symbols a with
    | some c => [c]
    | none => requestedAt symbols requests a

theorem alternativeAt_value (h : alternativeAt symbols a = some c) :
    (symbols c).value = a := by
  have hc := find?_some h
  simp only [Bool.and_eq_true, decide_eq_true_eq] at hc
  exact hc.1.1

theorem value_of_mem_candidates
    (h : c ∈ candidates symbols requests a) : (symbols c).value = a := by
  unfold candidates at h
  split at h
  · exact (mem_strongAt.mp h).1.2
  · split at h
    · rename_i d hd
      rw [mem_singleton.mp h]
      exact alternativeAt_value hd
    · exact (mem_requestedAt.mp h).2

variable {order : List (Fin n)}

/-- The order of the requests has no part in what the candidates are. -/
theorem mem_candidates_perm (h : order.Perm requests) :
    c ∈ candidates symbols order a ↔ c ∈ candidates symbols requests a := by
  have hstrong : (strongAt symbols order a).Perm (strongAt symbols requests a) :=
    (h.filter _).filter _
  have hnil : strongAt symbols order a = [] ↔ strongAt symbols requests a = [] := by
    rw [← length_eq_zero_iff, hstrong.length_eq, length_eq_zero_iff]
  unfold candidates
  by_cases hempty : strongAt symbols requests a = []
  · rw [if_neg (by simpa using hnil.mpr hempty), if_neg (by simpa using hempty)]
    cases alternativeAt symbols a with
    | some d => rfl
    | none => exact (h.filter _).mem_iff
  · rw [if_pos (fun hcontra => hempty (hnil.mp hcontra)), if_pos hempty]
    exact hstrong.mem_iff

theorem requestedAddresses_perm (h : order.Perm requests) :
    (requestedAddresses symbols order).Perm (requestedAddresses symbols requests) :=
  (h.map _).dedup

/-- What is chosen is a candidate. -/
theorem selectedInfo_mem_candidates (h : selectedInfo symbols requests a = some info) :
    info.symbolId ∈ candidates symbols requests a := by
  obtain ⟨old, hold, rfl⟩ := map_eq_some_iff.mp h
  have hspec := requestedInfo_spec hold
  unfold requestedInfo at hold
  unfold candidates
  split at hold
  · rename_i c hlast
    have hmem := mem_of_mem_getLast? hlast
    cases hold
    rw [if_pos (ne_nil_of_mem hmem)]
    exact hmem
  · rename_i hnone
    have hempty : strongAt symbols requests a = [] := getLast?_eq_none_iff.mp hnone
    obtain ⟨c, hc, rfl⟩ := map_eq_some_iff.mp hold
    rw [if_neg (by simpa using hempty)]
    cases alternativeAt symbols a with
    | some d => simp
    | none => exact mem_requestedAt.mpr hspec.1

/-- An order in which the last word at each address is that of a given symbol: weak symbols with
the last word speak first, non-weak ones last. -/
def realising (requests : List (Fin n)) (symbols : Fin n → DynamicSymbol)
    (choice : Nat → Fin n) : List (Fin n) :=
  (requests.filter fun c => choice (symbols c).value = c && (symbols c).isWeak) ++
    ((requests.filter fun c => choice (symbols c).value ≠ c) ++
      requests.filter fun c => choice (symbols c).value = c && !(symbols c).isWeak)

theorem realising_perm (requests : List (Fin n)) (choice : Nat → Fin n) :
    (realising requests symbols choice).Perm requests := by
  have hall := filter_append_perm (fun c => choice (symbols c).value = c) requests
  have hchosen := filter_append_perm (fun c => (symbols c).isWeak)
    (requests.filter fun c => choice (symbols c).value = c)
  simp only [List.filter_filter] at hchosen
  refine Perm.trans ?_ hall
  refine Perm.trans ?_ (hchosen.append_right _)
  unfold realising
  rw [List.append_assoc]
  refine Perm.append (Perm.of_eq ?_) (perm_append_comm.trans ?_)
  · congr 1
    funext c
    rw [Bool.and_comm]
  · refine Perm.append (Perm.of_eq ?_) (Perm.of_eq ?_)
    · congr 1
      funext c
      rw [Bool.and_comm]
    · congr 1
      funext c
      simp

variable {α : Type} {l : List α} {x : α}

theorem getLast?_of_forall_eq (hx : x ∈ l) (h : ∀ y ∈ l, y = x) :
    l.getLast? = some x := by
  cases hlast : l.getLast? with
  | none => rw [getLast?_eq_none_iff.mp hlast] at hx; exact absurd hx not_mem_nil
  | some y => rw [h y (mem_of_mem_getLast? hlast)]

theorem head?_of_forall_eq (hx : x ∈ l) (h : ∀ y ∈ l, y = x) :
    l.head? = some x := by
  cases hhead : l.head? with
  | none => rw [head?_eq_none_iff.mp hhead] at hx; exact absurd hx not_mem_nil
  | some y => rw [h y (mem_of_mem_head? hhead)]

/-- **Every choice among the candidates is that of some order**, at all addresses at once. -/
theorem selectedInfo_realising {choice : Nat → Fin n} (ha : a ∈ requestedAddresses symbols requests)
    (hchoice : choice a ∈ candidates symbols requests a) :
    ∃ weak, selectedInfo symbols (realising requests symbols choice) a =
      some ⟨choice a, weak⟩ := by
  have hperm := @realising_perm n symbols requests choice
  have hvalue := value_of_mem_candidates hchoice
  unfold candidates at hchoice
  by_cases hempty : strongAt symbols requests a = []
  · have hnone : strongAt symbols (realising requests symbols choice) a = [] := by
      refine eq_nil_iff_forall_not_mem.mpr fun c hc => ?_
      have hmem : c ∈ strongAt symbols requests a := ((hperm.filter _).filter _).mem_iff.mp hc
      rw [hempty] at hmem
      exact not_mem_nil hmem
    rw [if_neg (by simpa using hempty)] at hchoice
    cases halternative : alternativeAt symbols a with
    | some d =>
      rw [halternative] at hchoice
      have ha' : a ∈ requestedAddresses symbols (realising requests symbols choice) :=
        (requestedAddresses_perm hperm).mem_iff.mpr ha
      obtain ⟨info, hinfo⟩ := isSome_iff_exists.mp (selectedInfo_isSome_iff.mpr ha')
      refine ⟨false, ?_⟩
      rw [mem_singleton.mp hchoice]
      obtain ⟨old, hold, -⟩ := map_eq_some_iff.mp hinfo
      have hweak : old.isWeak = true := by
        simp only [requestedInfo, hnone, getLast?_nil] at hold
        obtain ⟨c, -, rfl⟩ := map_eq_some_iff.mp hold
        rfl
      simp [selectedInfo, hold, hweak, halternative]
    | none =>
      rw [halternative] at hchoice
      have hrequested := mem_requestedAt.mp hchoice
      have hweak : (symbols (choice a)).isWeak = true := by
        cases hw : (symbols (choice a)).isWeak with
        | true => rfl
        | false =>
          have hstrong : choice a ∈ strongAt symbols requests a :=
            mem_strongAt.mpr ⟨hrequested, hw⟩
          rw [hempty] at hstrong
          exact absurd hstrong not_mem_nil
      have hfirst : (requestedAt symbols
          (requests.filter fun c => choice (symbols c).value = c && (symbols c).isWeak) a).head? =
          some (choice a) := by
        refine head?_of_forall_eq ?_ fun c hc => ?_
        · simp [mem_requestedAt, hrequested.1, hvalue, hweak]
        · simp only [mem_requestedAt, mem_filter, Bool.and_eq_true, decide_eq_true_eq] at hc
          rw [← hc.2, hc.1.2.1]
      have hhead : (requestedAt symbols (realising requests symbols choice) a).head? =
          some (choice a) := by
        rw [realising, requestedAt, filter_append, head?_append]
        rw [requestedAt] at hfirst
        rw [hfirst]
        rfl
      exact ⟨true, by simp [selectedInfo, requestedInfo, hnone, hhead, halternative]⟩
  · rw [if_pos hempty] at hchoice
    have hstrong := mem_strongAt.mp hchoice
    have hlast : (strongAt symbols
        (requests.filter fun c => choice (symbols c).value = c && !(symbols c).isWeak) a).getLast? =
        some (choice a) := by
      refine getLast?_of_forall_eq ?_ fun c hc => ?_
      · simp [mem_strongAt, hstrong.1.1, hvalue, hstrong.2]
      · simp only [mem_strongAt, mem_filter, Bool.and_eq_true, decide_eq_true_eq] at hc
        rw [← hc.1.2, hc.1.1.2.1]
    have hall : (strongAt symbols (realising requests symbols choice) a).getLast? =
        some (choice a) := by
      rw [strongAt, requestedAt] at hlast ⊢
      rw [realising, filter_append, filter_append, filter_append,
        filter_append, getLast?_append, getLast?_append, hlast]
      rfl
    exact ⟨false, by simp [selectedInfo, requestedInfo, hall]⟩

/-! ## 4. Areas -/

/-- The symbol's copy is in the part of `.bss` with an alignment. -/
def DynamicSymbol.isIn (symbol : DynamicSymbol) (alignment : Alignment) : Bool :=
  match symbol.alignment with
  | .ok a => a = alignment
  | .error _ => false

variable {symbol : DynamicSymbol} {alignment : Alignment}

theorem DynamicSymbol.isIn_iff :
    symbol.isIn alignment = true ↔ symbol.alignment = .ok alignment := by
  unfold isIn
  cases symbol.alignment <;> simp

/-- The space that is allocated for a symbol's copy. -/
def DynamicSymbol.copySize (symbol : DynamicSymbol) : Nat :=
  match symbol.alignment with
  | .ok a => a.alignUp symbol.size
  | .error _ => 0

theorem DynamicSymbol.copySize_of_ok
    (h : symbol.alignment = .ok alignment) :
    symbol.copySize = alignment.alignUp symbol.size := by
  simp [copySize, h]

variable (symbols) in
/-- What symbols take up in the part with an alignment. -/
def spaceIn (ids : List (Fin n)) (alignment : Alignment) : Nat :=
  (ids.map fun c => if (symbols c).isIn alignment then (symbols c).copySize else 0).sum

theorem spaceIn_cons (c : Fin n) (ids : List (Fin n)) (alignment : Alignment) :
    spaceIn symbols (c :: ids) alignment =
      (if (symbols c).isIn alignment then (symbols c).copySize else 0) +
        spaceIn symbols ids alignment := by
  simp [spaceIn]

variable (symbols) in
/-- The area of a symbol behind others. -/
def areaBehind (memoryOffsets : Alignment → Nat) (previous : List (Fin n)) (c : Fin n)
    (alignment : Alignment) : CopyArea where
  inputAddress := (symbols c).value
  alignment
  address := memoryOffsets alignment + spaceIn symbols previous alignment
  size := (symbols c).copySize

variable {areas : List CopyArea} {area : CopyArea}

/-- **Addresses are assigned one behind the other** within each part. -/
theorem mem_assignCopyRelocationAddresses {ids : List (Fin n)}
    (h : assignCopyRelocationAddresses symbols ids memoryOffsets = .ok areas) :
    area ∈ areas ↔ ∃ previous c rest alignment, ids = previous ++ c :: rest ∧
      (symbols c).alignment = .ok alignment ∧
        area = areaBehind symbols memoryOffsets previous c alignment := by
  induction ids generalizing memoryOffsets areas with
  | nil =>
    cases h
    simp
  | cons c ids ih =>
    obtain ⟨alignment, halignment, h⟩ := bind_eq_ok.mp h
    obtain ⟨others, hothers, h⟩ := bind_eq_ok.mp h
    cases h
    have hbehind : ∀ (previous : List (Fin n)) (d : Fin n) (a : Alignment),
        areaBehind symbols (assignCopyRelocationAddress alignment (symbols c).size
          memoryOffsets).2 previous d a = areaBehind symbols memoryOffsets (c :: previous) d a := by
      intro previous d a
      rw [areaBehind, areaBehind, spaceIn_cons]
      congr 1
      rcases eq_or_ne a alignment with rfl | hne
      · have hin : (symbols c).isIn a = true := isIn_iff.mpr halignment
        simp [assignCopyRelocationAddress, hin, copySize_of_ok halignment,
          Nat.add_assoc]
      · have hout : (symbols c).isIn a = false := by
          rw [← Bool.not_eq_true, isIn_iff, halignment]
          simpa using Ne.symm hne
        simp [assignCopyRelocationAddress, hne, hout]
    have hfirst : (⟨(symbols c).value, alignment,
        (assignCopyRelocationAddress alignment (symbols c).size memoryOffsets).1,
        alignment.alignUp (symbols c).size⟩ : CopyArea) =
          areaBehind symbols memoryOffsets [] c alignment := by
      simp [areaBehind, assignCopyRelocationAddress, spaceIn,
        copySize_of_ok halignment]
    rw [mem_cons, ih hothers, hfirst]
    constructor
    · rintro (rfl | ⟨previous, d, rest, a, rfl, ha, rfl⟩)
      · exact ⟨[], c, ids, alignment, rfl, halignment, rfl⟩
      · exact ⟨c :: previous, d, rest, a, rfl, ha, hbehind previous d a⟩
    · rintro ⟨previous, d, rest, a, hids, ha, rfl⟩
      rcases previous with _ | ⟨c', previous⟩
      · cases hids
        rw [halignment] at ha
        cases ha
        exact .inl rfl
      · cases hids
        exact .inr ⟨previous, d, rest, a, rfl, ha, (hbehind previous d a).symm⟩

theorem exists_assignCopyRelocationAddresses_iff {ids : List (Fin n)}
    {memoryOffsets : Alignment → Nat} :
    (∃ areas, assignCopyRelocationAddresses symbols ids memoryOffsets = .ok areas) ↔
      ∀ c ∈ ids, ∃ alignment, (symbols c).alignment = .ok alignment := by
  induction ids generalizing memoryOffsets with
  | nil => simp [assignCopyRelocationAddresses]
  | cons c ids ih =>
    simp only [mem_cons, forall_eq_or_imp]
    constructor
    · rintro ⟨areas, h⟩
      obtain ⟨alignment, halignment, h⟩ := bind_eq_ok.mp h
      obtain ⟨others, hothers, -⟩ := bind_eq_ok.mp h
      exact ⟨⟨alignment, halignment⟩, ih.mp ⟨others, hothers⟩⟩
    · rintro ⟨⟨alignment, halignment⟩, h⟩
      obtain ⟨others, hothers⟩ := ih.mpr h
      refine ⟨_, bind_eq_ok.mpr ⟨alignment, halignment, bind_eq_ok.mpr ⟨others, hothers, rfl⟩⟩⟩

/-- What is allocated is what the chosen symbols take up. -/
theorem foldlM_allocate (map : CopyRelocations n) (sizes : CopyAllocations) :
    (∀ {final}, map.foldlM (allocateForCopyRelocation symbols) sizes = .ok final →
      ∀ alignment, final.bss alignment = sizes.bss alignment +
        spaceIn symbols (map.map fun entry => entry.2.symbolId) alignment) ∧
    ((∃ final, map.foldlM (allocateForCopyRelocation symbols) sizes = .ok final) ↔
      ∀ c ∈ map.map fun entry => entry.2.symbolId,
        ∃ alignment, (symbols c).alignment = .ok alignment) := by
  induction map generalizing sizes with
  | nil =>
    refine ⟨?_, by simp⟩
    rintro final h alignment
    cases h
    simp [spaceIn]
  | cons entry map ih =>
    rw [foldlM_cons]
    simp only [map_cons, mem_cons, forall_eq_or_imp]
    refine ⟨?_, ?_⟩
    · intro final h alignment
      obtain ⟨next, hnext, h⟩ := bind_eq_ok.mp h
      obtain ⟨a, ha, hnext⟩ := bind_eq_ok.mp hnext
      cases hnext
      rw [(ih _).1 h, spaceIn_cons]
      rcases eq_or_ne alignment a with rfl | hne
      · have hin : (symbols entry.2.symbolId).isIn alignment = true :=
          isIn_iff.mpr ha
        simp [hin, copySize_of_ok ha, Nat.add_assoc]
      · have hout : (symbols entry.2.symbolId).isIn alignment = false := by
          rw [← Bool.not_eq_true, isIn_iff, ha]
          simpa using Ne.symm hne
        simp [hne, hout]
    · constructor
      · rintro ⟨final, h⟩
        obtain ⟨next, hnext, h⟩ := bind_eq_ok.mp h
        obtain ⟨a, ha, -⟩ := bind_eq_ok.mp hnext
        exact ⟨⟨a, ha⟩, (ih _).2.mp ⟨final, h⟩⟩
      · rintro ⟨⟨a, ha⟩, h⟩
        obtain ⟨final, hfinal⟩ := (ih {
          bss := Function.update sizes.bss a
            (sizes.bss a + a.alignUp (symbols entry.2.symbolId).size)
          relaDynGeneral := sizes.relaDynGeneral + relaEntrySize }).2.mpr h
        exact ⟨final, bind_eq_ok.mpr ⟨_, bind_eq_ok.mpr ⟨a, ha, rfl⟩, hfinal⟩⟩

/-! ## 5. The copies by address -/

variable (symbols) in
/-- What the symbol chosen at an address takes up in a part in front of another symbol. -/
def spaceBefore (c : Fin n) (alignment : Alignment) (d : Fin n) : Nat :=
  if d < c ∧ (symbols d).isIn alignment = true then (symbols d).copySize else 0

variable (symbols) in
/-- The area of an address for which a symbol was chosen. -/
def areaAt (requests : List (Fin n)) (memoryOffsets : Alignment → Nat) (a : Nat) (c : Fin n)
    (alignment : Alignment) : CopyArea where
  inputAddress := a
  alignment
  address := memoryOffsets alignment + ((requestedAddresses symbols requests).map fun b =>
    ((selectedInfo symbols requests b).map fun info =>
      spaceBefore symbols c alignment info.symbolId).getD 0).sum
  size := (symbols c).copySize

variable (symbols) in
/-- The symbols that are copied, as the map has them. -/
def chosenSymbols (requests : List (Fin n)) : List (Fin n) :=
  (copyRelocations symbols requests).map fun entry => entry.2.symbolId

theorem mem_chosenSymbols :
    c ∈ chosenSymbols symbols requests ↔
      ∃ a info, selectedInfo symbols requests a = some info ∧ info.symbolId = c := by
  simp only [chosenSymbols, List.mem_map, Prod.exists,
    mem_iff_lookup (nodup_keys_copyRelocations requests),
    lookup_copyRelocations]

theorem nodup_chosenSymbols (requests : List (Fin n)) :
    (chosenSymbols symbols requests).Nodup := by
  have hkeys : (chosenSymbols symbols requests).map (fun c => (symbols c).value) =
      (copyRelocations symbols requests).keys := by
    rw [chosenSymbols, CopyRelocations.keys, List.map_map]
    refine map_congr_left ?_
    rintro ⟨a, info⟩ hmem
    rw [mem_iff_lookup (nodup_keys_copyRelocations requests),
      lookup_copyRelocations] at hmem
    exact value_of_mem_candidates (selectedInfo_mem_candidates hmem)
  refine Nodup.of_map (fun c => (symbols c).value) ?_
  rw [hkeys]
  exact nodup_keys_copyRelocations requests

theorem copyRelocationSymbols_perm (requests : List (Fin n)) :
    (copyRelocationSymbols (copyRelocations symbols requests)).Perm
      (chosenSymbols symbols requests) :=
  mergeSort_perm _ _

/-- The copies are written in the strict order of their symbols. -/
theorem copyRelocationSymbols_sorted (requests : List (Fin n)) :
    (copyRelocationSymbols (copyRelocations symbols requests)).Pairwise (· < ·) := by
  have hsorted : (copyRelocationSymbols (copyRelocations symbols requests)).Pairwise (· ≤ ·) := by
    have h := @List.pairwise_mergeSort _ (fun a b : Fin n => decide (a ≤ b))
      (by simpa using fun a b c => le_trans) (by simpa using le_total)
      (chosenSymbols symbols requests)
    simpa [copyRelocationSymbols, chosenSymbols] using h
  have hnodup : (copyRelocationSymbols (copyRelocations symbols requests)).Nodup :=
    (copyRelocationSymbols_perm requests).nodup_iff.mpr (nodup_chosenSymbols requests)
  exact hsorted.imp₂ (fun a b hle hne => lt_of_le_of_ne hle hne) hnodup

/-- In a strictly sorted list, what stands in front of a member is what is smaller. -/
theorem filter_lt_of_sorted {previous rest : List (Fin n)}
    (h : (previous ++ c :: rest).Pairwise (· < ·)) :
    (previous ++ c :: rest).filter (· < c) = previous := by
  obtain ⟨-, htail, hcross⟩ := pairwise_append.mp h
  have hfront : previous.filter (· < c) = previous :=
    filter_eq_self.mpr fun d hd => by simpa using hcross d hd c mem_cons_self
  have hback : (c :: rest).filter (· < c) = [] := by
    refine filter_eq_nil_iff.mpr fun d hd => ?_
    rcases mem_cons.mp hd with rfl | hd
    · simp
    · simpa using le_of_lt ((pairwise_cons.mp htail).1 d hd)
  rw [filter_append, hfront, hback, append_nil]

/-- What stands in front of a chosen symbol, counted by address. -/
theorem spaceIn_filter_lt (requests : List (Fin n)) (c : Fin n) (alignment : Alignment) :
    spaceIn symbols ((copyRelocationSymbols (copyRelocations symbols requests)).filter (· < c))
        alignment =
      ((requestedAddresses symbols requests).map fun b =>
        ((selectedInfo symbols requests b).map fun info =>
          spaceBefore symbols c alignment info.symbolId).getD 0).sum := by
  have hfilter : ∀ ids : List (Fin n), spaceIn symbols (ids.filter (· < c)) alignment =
      (ids.map (spaceBefore symbols c alignment)).sum := by
    intro ids
    induction ids with
    | nil => rfl
    | cons d ids ih =>
      by_cases hd : d < c
      · simp [hd, spaceIn_cons, ih, spaceBefore]
      · simp [hd, ih, spaceBefore]
  have hterm : ∀ b, ((copyRelocations symbols requests).lookup b).map
      (fun info => spaceBefore symbols c alignment info.symbolId) =
        (selectedInfo symbols requests b).map
          fun info => spaceBefore symbols c alignment info.symbolId :=
    fun b => by rw [lookup_copyRelocations]
  calc spaceIn symbols
        ((copyRelocationSymbols (copyRelocations symbols requests)).filter (· < c)) alignment
      = ((copyRelocationSymbols (copyRelocations symbols requests)).map
          (spaceBefore symbols c alignment)).sum := hfilter _
    _ = ((chosenSymbols symbols requests).map (spaceBefore symbols c alignment)).sum :=
        ((copyRelocationSymbols_perm requests).map _).sum_nat
    _ = ((copyRelocations symbols requests).map fun entry =>
          spaceBefore symbols c alignment entry.2.symbolId).sum := by
        rw [chosenSymbols, List.map_map]
        rfl
    _ = _ := sum_map_entries (nodup_keys_copyRelocations requests) _
    _ = _ := by
        simp only [hterm]
        exact ((keys_copyRelocations_perm requests).map _).sum_nat

/-- **The copies**: one for each address, for the symbol chosen there, behind those of the chosen
symbols with smaller ids. -/
theorem mem_copyAreas (h : copyAreas symbols requests memoryOffsets = .ok areas) : area ∈ areas ↔ ∃ a info alignment,
      selectedInfo symbols requests a = some info ∧
        (symbols info.symbolId).alignment = .ok alignment ∧
          area = areaAt symbols requests memoryOffsets a info.symbolId alignment := by
  obtain ⟨sizes, -, hassign⟩ := bind_eq_ok.mp h
  have hsorted := @copyRelocationSymbols_sorted n symbols requests
  have hmem := fun c => (@copyRelocationSymbols_perm n symbols requests).mem_iff (a := c)
  have harea : ∀ (previous : List (Fin n)) (c : Fin n) (rest : List (Fin n))
      (alignment : Alignment),
      copyRelocationSymbols (copyRelocations symbols requests) = previous ++ c :: rest →
        areaBehind symbols memoryOffsets previous c alignment =
          areaAt symbols requests memoryOffsets (symbols c).value c alignment := by
    intro previous c rest alignment hids
    rw [areaBehind, areaAt, ← spaceIn_filter_lt requests c alignment, hids]
    rw [hids] at hsorted
    rw [filter_lt_of_sorted hsorted]
  rw [mem_assignCopyRelocationAddresses hassign]
  constructor
  · rintro ⟨previous, c, rest, alignment, hids, halignment, rfl⟩
    have hc : c ∈ chosenSymbols symbols requests := (hmem c).mp (by rw [hids]; simp)
    obtain ⟨a, info, hinfo, rfl⟩ := mem_chosenSymbols.mp hc
    have hvalue := value_of_mem_candidates (selectedInfo_mem_candidates hinfo)
    refine ⟨a, info, alignment, hinfo, halignment, ?_⟩
    rw [harea previous info.symbolId rest alignment hids, hvalue]
  · rintro ⟨a, info, alignment, hinfo, halignment, rfl⟩
    have hc := (hmem info.symbolId).mpr (mem_chosenSymbols.mpr ⟨a, info, hinfo, rfl⟩)
    obtain ⟨previous, rest, hids⟩ := append_of_mem hc
    have hvalue := value_of_mem_candidates (selectedInfo_mem_candidates hinfo)
    refine ⟨previous, info.symbolId, rest, alignment, hids, halignment, ?_⟩
    rw [harea previous info.symbolId rest alignment hids, hvalue]

/-- The link goes through if every chosen symbol is defined in a section that is supported. -/
theorem exists_copyAreas_iff :
    (∃ areas, copyAreas symbols requests memoryOffsets = .ok areas) ↔
      ∀ a info, selectedInfo symbols requests a = some info →
        ∃ alignment, (symbols info.symbolId).alignment = .ok alignment := by
  have hchosen : (∀ c ∈ chosenSymbols symbols requests,
      ∃ alignment, (symbols c).alignment = .ok alignment) ↔
        ∀ a info, selectedInfo symbols requests a = some info →
          ∃ alignment, (symbols info.symbolId).alignment = .ok alignment := by
    simp only [mem_chosenSymbols]
    constructor
    · intro h a info hinfo
      exact h info.symbolId ⟨a, info, hinfo, rfl⟩
    · rintro h c ⟨a, info, hinfo, rfl⟩
      exact h a info hinfo
  rw [← hchosen]
  constructor
  · rintro ⟨areas, h⟩
    obtain ⟨sizes, hsizes, -⟩ := bind_eq_ok.mp h
    exact (foldlM_allocate _ _).2.mp ⟨sizes, hsizes⟩
  · intro h
    obtain ⟨sizes, hsizes⟩ := (foldlM_allocate (copyRelocations symbols requests)
      ⟨fun _ => 0, 0⟩).2.mpr h
    have hall : ∀ c ∈ copyRelocationSymbols (copyRelocations symbols requests),
        ∃ alignment, (symbols c).alignment = .ok alignment :=
      fun c hc => h c ((copyRelocationSymbols_perm requests).mem_iff.mp hc)
    obtain ⟨areas, hareas⟩ :=
      @exists_assignCopyRelocationAddresses_iff n symbols _ memoryOffsets |>.mpr hall
    exact ⟨areas, bind_eq_ok.mpr ⟨sizes, hsizes, hareas⟩⟩

end Srs.Dynamic
