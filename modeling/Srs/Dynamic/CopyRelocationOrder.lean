/-
# Copy relocations in every order of requests

Some of what copies have to be holds in any order: symbols at one address share one copy, copies
are aligned as their part of `.bss` and the copies of different addresses are disjoint.  That the
order of the requests makes no difference, and that a copy is enough for every symbol requested at
its address, depends on the candidates (`Settled`): `copiesSound_iff` says that the copies are right
in every order of the requests exactly if the candidates are settled, or no link can go through.

**The order does make a difference**: two non-weak symbols of one address with different sizes, and
the one requested last decides how much is copied (`copies_depend_on_order`).
-/
import Mathlib.Algebra.BigOperators.Ring.List
import Mathlib.Algebra.Order.BigOperators.Group.List
import Mathlib.Algebra.Order.Ring.Nat
import Srs.Dynamic.CopyRelocationsCorrect

namespace Srs.Dynamic

open List Option Function DynamicSymbol

variable {n : Nat} (symbols : Fin n → DynamicSymbol)

/-! ## 1. What copies have to be -/

/-- The same copies, in whatever order, or no link at all. -/
def SameAreas : Result (List CopyArea) → Result (List CopyArea) → Prop
  | .ok areas, .ok areas' => ∀ area, area ∈ areas ↔ area ∈ areas'
  | .error _, .error _ => True
  | _, _ => False

/-- The shared object's shares of two parts of `.bss` do not overlap. -/
def SharesApart (memoryOffsets sizes : Alignment → Nat) : Prop :=
  ∀ a b, a ≠ b →
    memoryOffsets a + sizes a ≤ memoryOffsets b ∨ memoryOffsets b + sizes b ≤ memoryOffsets a

/-- **The copies are right** for what was requested. -/
structure AreasRight (requests : List (Fin n)) (memoryOffsets : Alignment → Nat)
    (areas : List CopyArea) : Prop where
  /-- Symbols with the same address get the same output address. -/
  shared : ∀ c d, (symbols c).value = (symbols d).value →
    needsCopyRelocation symbols requests c → needsCopyRelocation symbols requests d →
      ∃ address, copyAddress symbols areas c = some address ∧
        copyAddress symbols areas d = some address
  /-- A copy is as large and as aligned as the requested symbols at its address require. -/
  covering : ∀ c ∈ requests, ∃ area ∈ areas, area.inputAddress = (symbols c).value ∧
    copyAddress symbols areas c = some area.address ∧ (symbols c).size ≤ area.size ∧
      ∀ alignment, (symbols c).alignment = .ok alignment →
        alignment.exponent ≤ area.alignment.exponent
  aligned : (∀ alignment : Alignment, alignment.bytes ∣ memoryOffsets alignment) →
    ∀ area ∈ areas, area.alignment.bytes ∣ area.address
  /-- The copies of different addresses are disjoint. -/
  disjoint : ∀ sizes, allocateForCopyRelocations symbols (copyRelocations symbols requests) =
      .ok sizes → SharesApart memoryOffsets sizes.bss → ∀ x ∈ areas, ∀ y ∈ areas,
        x.inputAddress ≠ y.inputAddress →
          x.address + x.size ≤ y.address ∨ y.address + y.size ≤ x.address

/-- **The copies are right in every order of the requests**, and the same. -/
def CopiesSound (requests : List (Fin n)) : Prop :=
  ∀ order, order.Perm requests → ∀ memoryOffsets,
    SameAreas (copyAreas symbols order memoryOffsets)
      (copyAreas symbols requests memoryOffsets) ∧
    ∀ areas, copyAreas symbols order memoryOffsets = .ok areas →
      AreasRight symbols order memoryOffsets areas

/-- **The candidates leave nothing open.** -/
structure Settled (requests : List (Fin n)) : Prop where
  /-- Every candidate is defined in a section that is supported. -/
  placed : ∀ a ∈ requestedAddresses symbols requests, ∀ c ∈ candidates symbols requests a,
    ∃ alignment, (symbols c).alignment = .ok alignment
  /-- The candidates of an address agree in what is allocated for them. -/
  alike : ∀ a ∈ requestedAddresses symbols requests, ∀ c ∈ candidates symbols requests a,
    ∀ d ∈ candidates symbols requests a, (symbols c).alignment = (symbols d).alignment ∧
      (symbols c).copySize = (symbols d).copySize
  /-- This is enough for every symbol requested at the address. -/
  covering : ∀ r ∈ requests, ∀ c ∈ candidates symbols requests (symbols r).value,
    (symbols r).size ≤ (symbols c).copySize ∧
      ∀ alignment alignment', (symbols r).alignment = .ok alignment →
        (symbols c).alignment = .ok alignment' → alignment.exponent ≤ alignment'.exponent
  /-- Two addresses of one part cannot change places, unless neither takes any space. -/
  ordered : ∀ a ∈ requestedAddresses symbols requests,
    ∀ b ∈ requestedAddresses symbols requests, a ≠ b →
      ∀ c ∈ candidates symbols requests a, ∀ c' ∈ candidates symbols requests a,
      ∀ d ∈ candidates symbols requests b, ∀ d' ∈ candidates symbols requests b,
        (symbols c).alignment = (symbols d).alignment →
          (symbols c).copySize ≠ 0 ∨ (symbols d).copySize ≠ 0 → c < d → c' < d'

/-- No link can go through: at some address there is no candidate with a place. -/
def NoLink (requests : List (Fin n)) : Prop :=
  ∃ a ∈ requestedAddresses symbols requests, ∀ c ∈ candidates symbols requests a,
    ∀ alignment, (symbols c).alignment ≠ .ok alignment

/-! ## 2. What holds in any order -/

variable {symbols}

/-- Of two sums over a list, the one with the larger terms and more than that at one place. -/
theorem sum_map_add_le {α : Type} {l : List α} {f g : α → Nat} {a : α} {k : Nat}
    (hle : ∀ x ∈ l, f x ≤ g x) (ha : a ∈ l) (hk : f a + k ≤ g a) :
    (l.map f).sum + k ≤ (l.map g).sum := by
  induction l with
  | nil => exact absurd ha not_mem_nil
  | cons x l ih =>
    have hx := hle x mem_cons_self
    have hrest : ∀ y ∈ l, f y ≤ g y := fun y hy => hle y (mem_cons_of_mem _ hy)
    simp only [map_cons, sum_cons]
    rcases mem_cons.mp ha with rfl | hmem
    · have hsum : (l.map f).sum ≤ (l.map g).sum := sum_le_sum hrest
      omega
    · have := ih hrest hmem
      omega

variable {requests : List (Fin n)} {a : Nat} {info : CopyRelocationInfo n}
  {memoryOffsets : Alignment → Nat} {areas : List CopyArea} {c : Fin n} {alignment : Alignment}
  {choice : Nat → Fin n}

theorem mem_addresses_of_selectedInfo (h : selectedInfo symbols requests a = some info) :
    a ∈ requestedAddresses symbols requests :=
  selectedInfo_isSome_iff.mp (by rw [h]; rfl)

section

variable (h : copyAreas symbols requests memoryOffsets = .ok areas)
include h

/-- An address has one copy. -/
theorem copyAreas_inj
    {x y : CopyArea} (hx : x ∈ areas) (hy : y ∈ areas)
    (haddress : x.inputAddress = y.inputAddress) : x = y := by
  obtain ⟨a, info, alignment, hinfo, halignment, rfl⟩ := (mem_copyAreas h).mp hx
  obtain ⟨b, info', alignment', hinfo', halignment', rfl⟩ := (mem_copyAreas h).mp hy
  obtain rfl : a = b := haddress
  rw [hinfo] at hinfo'
  cases hinfo'
  rw [halignment] at halignment'
  cases halignment'
  rfl

variable {area : CopyArea}

/-- The copy that is looked up is the one of the address. -/
theorem copyAddress_eq (hmem : area ∈ areas) (hvalue : area.inputAddress = (symbols c).value) :
    copyAddress symbols areas c = some area.address := by
  rw [copyAddress, map_eq_some_iff]
  cases hfind : areas.find? fun x => x.inputAddress = (symbols c).value with
  | none =>
    have hno := find?_eq_none.mp hfind area hmem
    simp [hvalue] at hno
  | some x =>
    have hx := find?_some hfind
    have hsame : x = area := copyAreas_inj h (mem_of_find?_eq_some hfind) hmem
      (by simpa [hvalue] using hx)
    exact ⟨x, rfl, by rw [hsame]⟩

theorem exists_area
    (ha : a ∈ requestedAddresses symbols requests) : ∃ area ∈ areas, area.inputAddress = a := by
  obtain ⟨info, hinfo⟩ := isSome_iff_exists.mp (selectedInfo_isSome_iff.mpr ha)
  obtain ⟨alignment, halignment⟩ := exists_copyAreas_iff.mp ⟨areas, h⟩ a info hinfo
  exact ⟨_, (mem_copyAreas h).mpr ⟨a, info, alignment, hinfo, halignment, rfl⟩, rfl⟩

theorem areas_shared
    {d : Fin n} (hvalue : (symbols c).value = (symbols d).value)
    (hc : needsCopyRelocation symbols requests c) :
    ∃ address, copyAddress symbols areas c = some address ∧
      copyAddress symbols areas d = some address := by
  have ha : (symbols c).value ∈ requestedAddresses symbols requests := by
    simp only [needsCopyRelocation, Bool.or_eq_true, contains_iff_mem,
      Bool.and_eq_true] at hc
    rcases hc with hc | ⟨-, hc⟩
    · exact mem_requestedAddresses.mpr ⟨c, hc, rfl⟩
    · rw [lookup_copyRelocateSymbols] at hc
      refine selectedInfo_isSome_iff.mp ?_
      rwa [selectedInfo, isSome_map]
  obtain ⟨area, hmem, harea⟩ := exists_area h ha
  exact ⟨area.address, copyAddress_eq h hmem harea, copyAddress_eq h hmem (harea.trans hvalue)⟩

theorem areas_aligned
    (haligned : ∀ alignment : Alignment, alignment.bytes ∣ memoryOffsets alignment) (hmem : area ∈ areas) : area.alignment.bytes ∣ area.address := by
  obtain ⟨a, info, alignment, -, -, rfl⟩ := (mem_copyAreas h).mp hmem
  refine Nat.dvd_add (haligned alignment) (dvd_sum fun x hx => ?_)
  obtain ⟨b, -, rfl⟩ := mem_map.mp hx
  cases selectedInfo symbols requests b with
  | none => exact Nat.dvd_zero _
  | some other =>
    simp only [map_some, getD_some, spaceBefore]
    split
    · rename_i hbefore
      rw [copySize_of_ok (isIn_iff.mp hbefore.2)]
      exact dvd_roundUp _ _
    · exact Nat.dvd_zero _

end

variable {sizes : CopyAllocations}

/-- The share of a part that a shared object's copies need is allocated. -/
theorem area_le_share (memoryOffsets)
    (h : allocateForCopyRelocations symbols (copyRelocations symbols requests) = .ok sizes)
    (hinfo : selectedInfo symbols requests a = some info)
    (halignment : (symbols info.symbolId).alignment = .ok alignment) :
    (areaAt symbols requests memoryOffsets a info.symbolId alignment).address +
        (symbols info.symbolId).copySize ≤
      memoryOffsets alignment + sizes.bss alignment := by
  have hbss := (foldlM_allocate (copyRelocations symbols requests) ⟨fun _ => 0, 0⟩).1 h alignment
  have htotal : sizes.bss alignment = ((requestedAddresses symbols requests).map fun b =>
      ((selectedInfo symbols requests b).map fun other =>
        if (symbols other.symbolId).isIn alignment then (symbols other.symbolId).copySize
        else 0).getD 0).sum := by
    rw [hbss, Nat.zero_add, spaceIn, List.map_map]
    have hkeys : (copyRelocations symbols requests).keys.Nodup := nodup_keys_copyRelocations _
    have hsum := CopyRelocations.sum_map_entries hkeys
      (fun c => if (symbols c).isIn alignment then (symbols c).copySize else 0)
    simp only [lookup_copyRelocations] at hsum
    exact hsum.trans ((keys_copyRelocations_perm requests).map _).sum_nat
  have hle := @sum_map_add_le Nat (requestedAddresses symbols requests)
    (fun b => ((selectedInfo symbols requests b).map fun other =>
      spaceBefore symbols info.symbolId alignment other.symbolId).getD 0)
    (fun b => ((selectedInfo symbols requests b).map fun other =>
      if (symbols other.symbolId).isIn alignment then (symbols other.symbolId).copySize
      else 0).getD 0) a (symbols info.symbolId).copySize
    (by
      intro b _
      cases selectedInfo symbols requests b with
      | none => exact Nat.le_refl _
      | some other =>
        simp only [map_some, getD_some, spaceBefore]
        split
        · rename_i hbefore
          rw [if_pos hbefore.2]
        · exact Nat.zero_le _)
    (mem_addresses_of_selectedInfo hinfo)
    (by
      have hin : (symbols info.symbolId).isIn alignment = true :=
        isIn_iff.mpr halignment
      simp [hinfo, spaceBefore, hin])
  rw [htotal]
  simp only [areaAt]
  omega

variable {info' : CopyRelocationInfo n}

/-- Of two chosen symbols of one part, the copy of the smaller id ends where the other's starts, or
before. -/
theorem area_end_le (memoryOffsets : Alignment → Nat) {b : Nat}
    (hinfo : selectedInfo symbols requests a = some info)
    (halignment : (symbols info.symbolId).alignment = .ok alignment)
    (hlt : info.symbolId < info'.symbolId) :
    (areaAt symbols requests memoryOffsets a info.symbolId alignment).address +
        (symbols info.symbolId).copySize ≤
      (areaAt symbols requests memoryOffsets b info'.symbolId alignment).address := by
  have hle := @sum_map_add_le Nat (requestedAddresses symbols requests)
    (fun x => ((selectedInfo symbols requests x).map fun other =>
      spaceBefore symbols info.symbolId alignment other.symbolId).getD 0)
    (fun x => ((selectedInfo symbols requests x).map fun other =>
      spaceBefore symbols info'.symbolId alignment other.symbolId).getD 0)
    a (symbols info.symbolId).copySize
    (by
      intro x _
      cases selectedInfo symbols requests x with
      | none => exact Nat.le_refl _
      | some other =>
        simp only [map_some, getD_some, spaceBefore]
        split
        · rename_i hbefore
          rw [if_pos ⟨hbefore.1.trans hlt, hbefore.2⟩]
        · exact Nat.zero_le _)
    (mem_addresses_of_selectedInfo hinfo)
    (by
      have hin : (symbols info.symbolId).isIn alignment = true :=
        isIn_iff.mpr halignment
      simp [hinfo, spaceBefore, hin, hlt])
  simp only [areaAt]
  omega

theorem areas_disjoint (h : copyAreas symbols requests memoryOffsets = .ok areas)
    (hsizes : allocateForCopyRelocations symbols (copyRelocations symbols requests) = .ok sizes)
    (hapart : SharesApart memoryOffsets sizes.bss) {x y : CopyArea} (hx : x ∈ areas)
    (hy : y ∈ areas) (hne : x.inputAddress ≠ y.inputAddress) :
    x.address + x.size ≤ y.address ∨ y.address + y.size ≤ x.address := by
  obtain ⟨a, info, alignment, hinfo, halignment, rfl⟩ := (mem_copyAreas h).mp hx
  obtain ⟨b, info', alignment', hinfo', halignment', rfl⟩ := (mem_copyAreas h).mp hy
  rcases eq_or_ne alignment alignment' with rfl | hparts
  · have hids : info.symbolId ≠ info'.symbolId := by
      intro heq
      have ha := value_of_mem_candidates (selectedInfo_mem_candidates hinfo)
      have hb := value_of_mem_candidates (selectedInfo_mem_candidates hinfo')
      rw [heq] at ha
      exact hne (ha.symm.trans hb)
    rcases lt_or_gt_of_ne hids with hlt | hgt
    · exact .inl (area_end_le memoryOffsets hinfo halignment hlt)
    · exact .inr (area_end_le memoryOffsets hinfo' halignment' hgt)
  · have hshare := area_le_share memoryOffsets hsizes hinfo halignment
    have hshare' := area_le_share memoryOffsets hsizes hinfo' halignment'
    simp only [areaAt] at hshare hshare' ⊢
    rcases hapart alignment alignment' hparts with hle | hle
    · exact .inl (by omega)
    · exact .inr (by omega)

/-! ## 3. Settled candidates -/

theorem sameAreas_of_forall {order : List (Fin n)}
    {areas' : List CopyArea} (h : copyAreas symbols order memoryOffsets = .ok areas)
    (h' : copyAreas symbols requests memoryOffsets = .ok areas')
    (hsame : ∀ area, area ∈ areas ↔ area ∈ areas') :
    SameAreas (copyAreas symbols order memoryOffsets)
      (copyAreas symbols requests memoryOffsets) := by
  rw [h, h']
  exact hsame

/-- With settled candidates it makes no difference to an area which of them is chosen. -/
theorem areaAt_eq_of_settled {order order' : List (Fin n)}
    (hsettled : Settled symbols requests) (horder : order.Perm requests)
    (horder' : order'.Perm requests) (memoryOffsets : Alignment → Nat) (hinfo : selectedInfo symbols order a = some info)
    (hinfo' : selectedInfo symbols order' a = some info')
    (halignment : (symbols info.symbolId).alignment = .ok alignment) :
    areaAt symbols order memoryOffsets a info.symbolId alignment =
      areaAt symbols order' memoryOffsets a info'.symbolId alignment := by
  have hcandidate : ∀ {o : List (Fin n)}, o.Perm requests → ∀ {b : Nat}
      {i : CopyRelocationInfo n}, selectedInfo symbols o b = some i →
        i.symbolId ∈ candidates symbols requests b ∧ b ∈ requestedAddresses symbols requests :=
    fun ho _ _ hi => ⟨(mem_candidates_perm ho).mp (selectedInfo_mem_candidates hi),
      (requestedAddresses_perm ho).mem_iff.mp (mem_addresses_of_selectedInfo hi)⟩
  obtain ⟨hc, ha⟩ := hcandidate horder hinfo
  obtain ⟨hc', -⟩ := hcandidate horder' hinfo'
  have hsize := (hsettled.alike a ha _ hc _ hc').2
  have hterm : ∀ b, ((selectedInfo symbols order b).map fun other =>
      spaceBefore symbols info.symbolId alignment other.symbolId).getD 0 =
        ((selectedInfo symbols order' b).map fun other =>
          spaceBefore symbols info'.symbolId alignment other.symbolId).getD 0 := by
    intro b
    cases hother : selectedInfo symbols order b with
    | none =>
      have hnone : selectedInfo symbols order' b = none := by
        rw [← not_isSome_iff_eq_none, selectedInfo_isSome_iff,
          (requestedAddresses_perm (horder'.trans horder.symm)).mem_iff,
          ← selectedInfo_isSome_iff, hother]
        exact Bool.false_ne_true
      rw [hnone]
      rfl
    | some other =>
      obtain ⟨hd, hb⟩ := hcandidate horder hother
      obtain ⟨other', hother'⟩ : ∃ i, selectedInfo symbols order' b = some i := by
        refine isSome_iff_exists.mp (selectedInfo_isSome_iff.mpr ?_)
        exact (requestedAddresses_perm horder').mem_iff.mpr hb
      obtain ⟨hd', -⟩ := hcandidate horder' hother'
      have hlike := hsettled.alike b hb _ hd _ hd'
      have hin : (symbols other.symbolId).isIn alignment =
          (symbols other'.symbolId).isIn alignment := by
        unfold isIn
        rw [hlike.1]
      rw [hother']
      simp only [map_some, getD_some, spaceBefore, hin, hlike.2]
      rcases eq_or_ne b a with rfl | hba
      · rw [hinfo] at hother
        cases hother
        rw [hinfo'] at hother'
        cases hother'
        simp
      · by_cases hpart : (symbols other'.symbolId).isIn alignment = true ∧
            (symbols other'.symbolId).copySize ≠ 0
        · have hsame : (symbols other.symbolId).alignment = (symbols info.symbolId).alignment := by
            rw [halignment, hlike.1, isIn_iff.mp hpart.1]
          have hsame' : (symbols other'.symbolId).alignment =
              (symbols info'.symbolId).alignment := by
            rw [← hlike.1, hsame, (hsettled.alike a ha _ hc _ hc').1]
          have hiff : other.symbolId < info.symbolId ↔ other'.symbolId < info'.symbolId :=
            ⟨hsettled.ordered b hb a ha hba _ hd _ hd' _ hc _ hc' hsame
                (.inl (by rw [hlike.2]; exact hpart.2)),
              hsettled.ordered b hb a ha hba _ hd' _ hd _ hc' _ hc hsame' (.inl hpart.2)⟩
          simp only [hiff]
        · rcases not_and_or.mp hpart with hout | hzero
          · simp [hout]
          · simp only [ne_eq, not_not] at hzero
            simp [hzero]
  have hsum : ((requestedAddresses symbols order).map fun b =>
      ((selectedInfo symbols order b).map fun other =>
        spaceBefore symbols info.symbolId alignment other.symbolId).getD 0).sum =
        ((requestedAddresses symbols order').map fun b =>
          ((selectedInfo symbols order' b).map fun other =>
            spaceBefore symbols info'.symbolId alignment other.symbolId).getD 0).sum := by
    simp only [hterm]
    exact ((requestedAddresses_perm (horder.trans horder'.symm)).map _).sum_nat
  simp only [areaAt, hsum, hsize]

/-- **With settled candidates the copies are right in every order.** -/
theorem Settled.copiesSound (hsettled : Settled symbols requests) :
    CopiesSound symbols requests := by
  have hok : ∀ order : List (Fin n), order.Perm requests → ∀ memoryOffsets,
      ∃ areas, copyAreas symbols order memoryOffsets = .ok areas := by
    intro order horder memoryOffsets
    refine exists_copyAreas_iff.mpr fun a info hinfo => ?_
    exact hsettled.placed a
      ((requestedAddresses_perm horder).mem_iff.mp (mem_addresses_of_selectedInfo hinfo)) _
      ((mem_candidates_perm horder).mp (selectedInfo_mem_candidates hinfo))
  have hhalf : ∀ {order order' : List (Fin n)}, order.Perm requests → order'.Perm requests →
      ∀ {memoryOffsets : Alignment → Nat} {areas areas' : List CopyArea},
        copyAreas symbols order memoryOffsets = .ok areas →
          copyAreas symbols order' memoryOffsets = .ok areas' →
            ∀ area ∈ areas, area ∈ areas' := by
    intro order order' horder horder' memoryOffsets areas areas' hareas hareas' area hmem
    obtain ⟨a, info, alignment, hinfo, halignment, rfl⟩ := (mem_copyAreas hareas).mp hmem
    have ha := (requestedAddresses_perm horder).mem_iff.mp (mem_addresses_of_selectedInfo hinfo)
    obtain ⟨info', hinfo'⟩ := isSome_iff_exists.mp (selectedInfo_isSome_iff.mpr
      ((requestedAddresses_perm horder').mem_iff.mpr ha))
    have hlike := (hsettled.alike a ha _
      ((mem_candidates_perm horder).mp (selectedInfo_mem_candidates hinfo)) _
      ((mem_candidates_perm horder').mp (selectedInfo_mem_candidates hinfo'))).1
    refine (mem_copyAreas hareas').mpr ⟨a, info', alignment, hinfo', ?_, ?_⟩
    · rw [← hlike, halignment]
    · exact areaAt_eq_of_settled hsettled horder horder' memoryOffsets hinfo hinfo' halignment
  intro order horder memoryOffsets
  obtain ⟨areas, hareas⟩ := hok order horder memoryOffsets
  obtain ⟨areas', hareas'⟩ := hok requests (Perm.refl _) memoryOffsets
  refine ⟨sameAreas_of_forall hareas hareas' fun area =>
    ⟨hhalf horder (Perm.refl _) hareas hareas' area,
      hhalf (Perm.refl _) horder hareas' hareas area⟩, fun found hfound => ?_⟩
  refine
    { shared := fun c d hvalue hc _ => areas_shared hfound hvalue hc
      covering := fun r hr => ?_
      aligned := fun haligned area hmem => areas_aligned hfound haligned hmem
      disjoint := fun sizes hsizes hapart x hx y hy hne =>
        areas_disjoint hfound hsizes hapart hx hy hne }
  have hr' : r ∈ requests := horder.mem_iff.mp hr
  obtain ⟨area, hmem, harea⟩ := exists_area hfound (mem_requestedAddresses.mpr ⟨r, hr, rfl⟩)
  refine ⟨area, hmem, harea, copyAddress_eq hfound hmem harea, ?_⟩
  obtain ⟨a, info, alignment, hinfo, halignment, rfl⟩ := (mem_copyAreas hfound).mp hmem
  obtain rfl : a = (symbols r).value := harea
  have hcover := hsettled.covering r hr' _
    ((mem_candidates_perm horder).mp (selectedInfo_mem_candidates hinfo))
  exact ⟨hcover.1, fun required hrequired => hcover.2 required alignment hrequired halignment⟩

/-! ## 4. Every choice is made by some order -/

/-- A choice among the candidates of the requested addresses. -/
def IsChoice (symbols : Fin n → DynamicSymbol) (requests : List (Fin n))
    (choice : Nat → Fin n) : Prop :=
  ∀ a ∈ requestedAddresses symbols requests, choice a ∈ candidates symbols requests a

/-- What the choice takes up in front of the symbol chosen at an address. -/
def spaceOfChoice (symbols : Fin n → DynamicSymbol) (requests : List (Fin n))
    (choice : Nat → Fin n) (a : Nat) (alignment : Alignment) : Nat :=
  ((requestedAddresses symbols requests).map fun b =>
    spaceBefore symbols (choice a) alignment (choice b)).sum

theorem IsChoice.update (h : IsChoice symbols requests choice)
    (hc : c ∈ candidates symbols requests a) :
    IsChoice symbols requests (update choice a c) := by
  intro b hb
  rcases eq_or_ne b a with rfl | hne
  · rwa [update_self]
  · rw [update_of_ne hne]
    exact h b hb

/-- The copies when the requests come in the order that makes the choice. -/
theorem mem_areas_of_choice (hchoice : IsChoice symbols requests choice)
    (h : copyAreas symbols (realising requests symbols choice) (fun _ => 0) = .ok areas)
    (ha : a ∈ requestedAddresses symbols requests) :
    ∃ alignment, (symbols (choice a)).alignment = .ok alignment ∧
      (⟨a, alignment, spaceOfChoice symbols requests choice a alignment,
        (symbols (choice a)).copySize⟩ : CopyArea) ∈ areas := by
  have hperm := @realising_perm n symbols requests choice
  obtain ⟨weak, hinfo⟩ := selectedInfo_realising ha (hchoice a ha)
  obtain ⟨alignment, halignment⟩ := exists_copyAreas_iff.mp ⟨areas, h⟩ a _ hinfo
  refine ⟨alignment, halignment, (mem_copyAreas h).mpr ⟨a, _, alignment, hinfo, halignment, ?_⟩⟩
  have hterm : ∀ b ∈ requestedAddresses symbols requests,
      ((selectedInfo symbols (realising requests symbols choice) b).map fun other =>
        spaceBefore symbols (choice a) alignment other.symbolId).getD 0 =
          spaceBefore symbols (choice a) alignment (choice b) := by
    intro b hb
    obtain ⟨weak', hother⟩ := selectedInfo_realising hb (hchoice b hb)
    simp [hother]
  have haddresses : (requestedAddresses symbols (realising requests symbols choice)).Perm
      (requestedAddresses symbols requests) := requestedAddresses_perm hperm
  have hsum := (haddresses.map fun b =>
    ((selectedInfo symbols (realising requests symbols choice) b).map fun other =>
      spaceBefore symbols (choice a) alignment other.symbolId).getD 0).sum_nat
  rw [map_congr_left hterm] at hsum
  simp only [areaAt, hsum, spaceOfChoice, Nat.zero_add]

/-- **Copies that are the same in every order do not depend on the choice**; and if one choice has a
place for every address, every choice has. -/
theorem CopiesSound.choice_eq (hsound : CopiesSound symbols requests)
    {choice' : Nat → Fin n} (hchoice : IsChoice symbols requests choice)
    (hchoice' : IsChoice symbols requests choice')
    (hplaced : ∀ a ∈ requestedAddresses symbols requests,
      ∃ alignment, (symbols (choice a)).alignment = .ok alignment)
    (ha : a ∈ requestedAddresses symbols requests) :
    ∃ alignment, (symbols (choice a)).alignment = .ok alignment ∧
      (symbols (choice' a)).alignment = .ok alignment ∧
      (symbols (choice a)).copySize = (symbols (choice' a)).copySize ∧
      spaceOfChoice symbols requests choice a alignment =
        spaceOfChoice symbols requests choice' a alignment := by
  have hperm := @realising_perm n symbols requests choice
  have hperm' := @realising_perm n symbols requests choice'
  obtain ⟨areas, hareas⟩ : ∃ areas, copyAreas symbols (realising requests symbols choice)
      (fun _ => 0) = .ok areas := by
    refine exists_copyAreas_iff.mpr fun b info hinfo => ?_
    have hb := (requestedAddresses_perm hperm).mem_iff.mp (mem_addresses_of_selectedInfo hinfo)
    obtain ⟨weak, hchosen⟩ := selectedInfo_realising hb (hchoice b hb)
    rw [hinfo] at hchosen
    cases hchosen
    exact hplaced b hb
  have hsame := (hsound _ hperm fun _ => 0).1
  have hsame' := (hsound _ hperm' fun _ => 0).1
  rw [hareas] at hsame
  cases hrequests : copyAreas symbols requests (fun _ => 0) with
  | error message =>
    rw [hrequests] at hsame
    exact hsame.elim
  | ok found =>
    rw [hrequests] at hsame hsame'
    cases hareas' : copyAreas symbols (realising requests symbols choice') (fun _ => 0) with
    | error message =>
      rw [hareas'] at hsame'
      exact hsame'.elim
    | ok areas' =>
      rw [hareas'] at hsame'
      obtain ⟨alignment, halignment, hmem⟩ := mem_areas_of_choice hchoice hareas ha
      obtain ⟨alignment', halignment', hmem'⟩ := mem_areas_of_choice hchoice' hareas' ha
      have heq := copyAreas_inj hrequests ((hsame _).mp hmem) ((hsame' _).mp hmem') rfl
      simp only [CopyArea.mk.injEq, true_and] at heq
      obtain ⟨rfl, hspace, hsize⟩ := heq
      exact ⟨alignment, halignment, halignment', hsize, hspace⟩

/-- Two choices that differ at two addresses only, and a symbol that comes to stand in front of
another that does not go back: more space in front. -/
theorem spaceOfChoice_lt {requests : List (Fin n)} {choice choice' : Nat → Fin n} {z y : Nat}
    {alignment : Alignment} (hy : y ∈ requestedAddresses symbols requests)
    (hother : ∀ b, b ≠ z → b ≠ y → choice b = choice' b) (hz : choice z ≤ choice' z)
    (hbehind : ¬ choice y < choice z) (hfront : choice' y < choice' z)
    (halignment : (symbols (choice' y)).alignment = .ok alignment)
    (hsize : (symbols (choice' y)).copySize ≠ 0) :
    spaceOfChoice symbols requests choice z alignment <
      spaceOfChoice symbols requests choice' z alignment := by
  have hin : (symbols (choice' y)).isIn alignment = true := isIn_iff.mpr halignment
  have hle := @sum_map_add_le Nat (requestedAddresses symbols requests)
    (fun b => spaceBefore symbols (choice z) alignment (choice b))
    (fun b => spaceBefore symbols (choice' z) alignment (choice' b))
    y (symbols (choice' y)).copySize
    (by
      intro b _
      rcases eq_or_ne b z with rfl | hbz
      · simp [spaceBefore]
      · rcases eq_or_ne b y with rfl | hby
        · simp [spaceBefore, hbehind]
        · rw [hother b hbz hby]
          simp only [spaceBefore]
          split
          · rename_i hbefore
            rw [if_pos ⟨lt_of_lt_of_le hbefore.1 hz, hbefore.2⟩]
          · exact Nat.zero_le _)
    hy
    (by simp [spaceBefore, hbehind, hfront, hin])
  unfold spaceOfChoice
  omega

/-! ## 5. Right in every order -/

/-- What is right in every order leaves nothing open, once some order links. -/
theorem CopiesSound.settled (hsound : CopiesSound symbols requests)
    {base : Nat → Fin n} (hbase : IsChoice symbols requests base)
    (hplaced : ∀ a ∈ requestedAddresses symbols requests,
      ∃ alignment, (symbols (base a)).alignment = .ok alignment) : Settled symbols requests := by
  have hall : ∀ {choice : Nat → Fin n}, IsChoice symbols requests choice →
      ∀ a ∈ requestedAddresses symbols requests,
        ∃ alignment, (symbols (choice a)).alignment = .ok alignment := by
    intro choice hchoice a ha
    obtain ⟨alignment, -, halignment, -⟩ := hsound.choice_eq hbase hchoice hplaced ha
    exact ⟨alignment, halignment⟩
  have halike : ∀ a ∈ requestedAddresses symbols requests,
      ∀ c ∈ candidates symbols requests a, ∀ d ∈ candidates symbols requests a,
        (symbols c).alignment = (symbols d).alignment ∧
          (symbols c).copySize = (symbols d).copySize := by
    intro a ha c hc d hd
    obtain ⟨alignment, hal, hal', hsize, -⟩ :=
      hsound.choice_eq (hbase.update hc) (hbase.update hd) (hall (hbase.update hc)) ha
    rw [update_self] at hal hal' hsize
    rw [update_self] at hsize
    exact ⟨hal.trans hal'.symm, hsize⟩
  have hplace : ∀ a ∈ requestedAddresses symbols requests,
      ∀ c ∈ candidates symbols requests a, ∃ alignment, (symbols c).alignment = .ok alignment := by
    intro a ha c hc
    have hsome := hall (hbase.update hc) a ha
    rwa [update_self] at hsome
  refine ⟨hplace, halike, ?_, ?_⟩
  · intro r hr c hc
    have ha : (symbols r).value ∈ requestedAddresses symbols requests :=
      mem_requestedAddresses.mpr ⟨r, hr, rfl⟩
    have hchoice := hbase.update hc
    have hperm := @realising_perm n symbols requests
      (update base (symbols r).value c)
    obtain ⟨areas, hareas⟩ : ∃ areas, copyAreas symbols
        (realising requests symbols (update base (symbols r).value c))
        (fun _ => 0) = .ok areas := by
      refine exists_copyAreas_iff.mpr fun b info hinfo => ?_
      exact hplace b
        ((requestedAddresses_perm hperm).mem_iff.mp (mem_addresses_of_selectedInfo hinfo)) _
        ((mem_candidates_perm hperm).mp (selectedInfo_mem_candidates hinfo))
    have hright := (hsound _ hperm fun _ => 0).2 areas hareas
    obtain ⟨area, hmem, haddress, -, hsize, hrequired⟩ :=
      hright.covering r (hperm.mem_iff.mpr hr)
    obtain ⟨alignment, halignment, hmem'⟩ := mem_areas_of_choice hchoice hareas ha
    have heq := copyAreas_inj hareas hmem hmem' haddress
    rw [heq] at hsize hrequired
    rw [update_self] at halignment
    simp only [update_self] at hsize
    refine ⟨hsize, fun required found hr' hfound => ?_⟩
    rw [halignment] at hfound
    cases hfound
    exact hrequired required hr'
  · intro a ha b hb hab c hc c' hc' d hd d' hd' hpart hsize hlt
    obtain ⟨alignment, hcal⟩ := hplace a ha c hc
    have hdal : (symbols d).alignment = .ok alignment := hpart.symm.trans hcal
    have hpair : ∀ {x y : Fin n}, x ∈ candidates symbols requests a →
        y ∈ candidates symbols requests b →
          IsChoice symbols requests (update (update base a x) b y) :=
      fun hx hy => (hbase.update hx).update hy
    have hata : ∀ x y : Fin n, update (update base a x) b y a = x :=
      fun x y => by rw [update_of_ne hab, update_self]
    have hatb : ∀ x y : Fin n, update (update base a x) b y b = y :=
      fun x y => update_self _ _ _
    have hoff : ∀ x y x' y' e, e ≠ a → e ≠ b →
        update (update base a x) b y e =
          update (update base a x') b y' e := by
      intro x y x' y' e hea heb
      simp [hea, heb]
    -- the space in front of `a`, and in front of `b`, is the same for all pairs
    have hfronta : ∀ {x y x' y' : Fin n}, x ∈ candidates symbols requests a →
        y ∈ candidates symbols requests b → x' ∈ candidates symbols requests a →
          y' ∈ candidates symbols requests b →
            spaceOfChoice symbols requests (update (update base a x) b y) a
              alignment =
            spaceOfChoice symbols requests (update (update base a x') b y') a
              alignment := by
      intro x y x' y' hx hy hx' hy'
      obtain ⟨found, hfound, -, -, hspace⟩ :=
        hsound.choice_eq (hpair hx hy) (hpair hx' hy') (hall (hpair hx hy)) ha
      rw [hata, (halike a ha x hx c hc).1, hcal] at hfound
      cases hfound
      exact hspace
    have hfrontb : ∀ {x y x' y' : Fin n}, x ∈ candidates symbols requests a →
        y ∈ candidates symbols requests b → x' ∈ candidates symbols requests a →
          y' ∈ candidates symbols requests b →
            spaceOfChoice symbols requests (update (update base a x) b y) b
              alignment =
            spaceOfChoice symbols requests (update (update base a x') b y') b
              alignment := by
      intro x y x' y' hx hy hx' hy'
      obtain ⟨found, hfound, -, -, hspace⟩ :=
        hsound.choice_eq (hpair hx hy) (hpair hx' hy') (hall (hpair hx hy)) hb
      rw [hatb, (halike b hb y hy d hd).1, hdal] at hfound
      cases hfound
      exact hspace
    by_contra hnot
    have hne : c' ≠ d' := by
      rintro rfl
      exact hab ((value_of_mem_candidates hc').symm.trans (value_of_mem_candidates hd'))
    have hgt : d' < c' := lt_of_le_of_ne (not_lt.mp hnot) (Ne.symm hne)
    rcases hsize with hsize | hsize
    · -- `a` takes space: it comes to stand in front of `b`
      rcases le_or_gt d' d with hle | hgt'
      · refine absurd (hfrontb hc' hd' hc hd) (Nat.ne_of_lt
          (@spaceOfChoice_lt n symbols requests _ _ b a alignment ha ?_ ?_ ?_ ?_ ?_ ?_))
        · exact fun e heb hea => hoff _ _ _ _ e hea heb
        all_goals simp only [hata, hatb]
        · exact hle
        · exact hnot
        · exact hlt
        · exact hcal
        · exact hsize
      · refine absurd (hfrontb hc' hd' hc hd') (Nat.ne_of_lt
          (@spaceOfChoice_lt n symbols requests _ _ b a alignment ha ?_ ?_ ?_ ?_ ?_ ?_))
        · exact fun e heb hea => hoff _ _ _ _ e hea heb
        all_goals simp only [hata, hatb]
        · exact le_refl _
        · exact hnot
        · exact hlt.trans hgt'
        · exact hcal
        · exact hsize
    · -- `b` takes space: it comes to stand in front of `a`
      have hlike := halike b hb d hd d' hd'
      have hbehind : ¬ d < c := not_lt.mpr (le_of_lt hlt)
      rcases le_or_gt c c' with hle | hgt'
      · refine absurd (hfronta hc hd hc' hd') (Nat.ne_of_lt
          (@spaceOfChoice_lt n symbols requests _ _ a b alignment hb ?_ ?_ ?_ ?_ ?_ ?_))
        · exact fun e hea heb => hoff _ _ _ _ e hea heb
        all_goals simp only [hata, hatb]
        · exact hle
        · exact hbehind
        · exact hgt
        · exact hlike.1.symm.trans hdal
        · rwa [← hlike.2]
      · refine absurd (hfronta hc hd hc hd') (Nat.ne_of_lt
          (@spaceOfChoice_lt n symbols requests _ _ a b alignment hb ?_ ?_ ?_ ?_ ?_ ?_))
        · exact fun e hea heb => hoff _ _ _ _ e hea heb
        all_goals simp only [hata, hatb]
        · exact le_refl _
        · exact hbehind
        · exact hgt.trans hgt'
        · exact hlike.1.symm.trans hdal
        · rwa [← hlike.2]

/-- Where no candidate of some address has a place, no order links. -/
theorem NoLink.copiesSound (h : NoLink symbols requests) :
    CopiesSound symbols requests := by
  obtain ⟨a, ha, hno⟩ := h
  have hfails : ∀ order : List (Fin n), order.Perm requests → ∀ memoryOffsets areas,
      copyAreas symbols order memoryOffsets ≠ .ok areas := by
    intro order horder memoryOffsets areas hareas
    obtain ⟨info, hinfo⟩ := isSome_iff_exists.mp (selectedInfo_isSome_iff.mpr
      ((requestedAddresses_perm horder).mem_iff.mpr ha))
    obtain ⟨alignment, halignment⟩ := exists_copyAreas_iff.mp ⟨areas, hareas⟩ a info hinfo
    exact hno _ ((mem_candidates_perm horder).mp (selectedInfo_mem_candidates hinfo))
      alignment halignment
  intro order horder memoryOffsets
  refine ⟨?_, fun areas hareas => absurd hareas (hfails order horder memoryOffsets areas)⟩
  cases horderResult : copyAreas symbols order memoryOffsets with
  | ok areas => exact absurd horderResult (hfails order horder memoryOffsets areas)
  | error message =>
    cases hresult : copyAreas symbols requests memoryOffsets with
    | ok areas => exact absurd hresult (hfails requests (Perm.refl _) memoryOffsets areas)
    | error message' => trivial

/-- **Copies are right in every order of the requests exactly if the candidates are settled**, or no
order links at all. -/
theorem copiesSound_iff (symbols : Fin n → DynamicSymbol) (requests : List (Fin n)) :
    CopiesSound symbols requests ↔ NoLink symbols requests ∨ Settled symbols requests := by
  constructor
  · intro hsound
    by_cases hno : NoLink symbols requests
    · exact .inl hno
    · refine .inr ?_
      rcases eq_nil_or_concat requests with rfl | ⟨front, last, -⟩
      · exact ⟨by simp [requestedAddresses], by simp [requestedAddresses], by simp,
          by simp [requestedAddresses]⟩
      · have hlink : ∀ a, a ∈ requestedAddresses symbols requests →
            ∃ c ∈ candidates symbols requests a,
              ∃ alignment, (symbols c).alignment = .ok alignment := by
          intro a ha
          by_contra hnone
          refine hno ⟨a, ha, fun c hc alignment halignment => ?_⟩
          exact hnone ⟨c, hc, alignment, halignment⟩
        have hbase : ∀ a, ∃ c : Fin n, a ∈ requestedAddresses symbols requests →
            c ∈ candidates symbols requests a ∧
              ∃ alignment, (symbols c).alignment = .ok alignment := by
          intro a
          by_cases ha : a ∈ requestedAddresses symbols requests
          · obtain ⟨c, hc⟩ := hlink a ha
            exact ⟨c, fun _ => hc⟩
          · exact ⟨last, fun habsurd => absurd habsurd ha⟩
        choose base hspec using hbase
        exact hsound.settled (fun a ha => (hspec a ha).1) fun a ha => (hspec a ha).2
  · rintro (hno | hsettled)
    · exact hno.copiesSound
    · exact hsettled.copiesSound

/-- Two non-weak symbols at one address, of 4 and of 8 bytes. -/
def twoStrongSymbols : Fin 2 → DynamicSymbol
  | 0 => ⟨0x1000, 4, false, true, some (.ok .word)⟩
  | 1 => ⟨0x1000, 8, false, true, some (.ok .word)⟩

/-- **The order makes a difference**: the last request decides how much is copied. -/
theorem copies_depend_on_order : ¬ CopiesSound twoStrongSymbols [0, 1] := by
  intro hsound
  have hsame := (hsound [1, 0] (Perm.swap _ _ _) fun _ => 0).1
  have hfirst : copyAreas twoStrongSymbols [1, 0] (fun _ => 0) =
      .ok [⟨0x1000, .word, 0, 4⟩] := by decide +kernel
  have hsecond : copyAreas twoStrongSymbols [0, 1] (fun _ => 0) =
      .ok [⟨0x1000, .word, 0, 8⟩] := by decide +kernel
  rw [hfirst, hsecond] at hsame
  have hmem := (hsame ⟨0x1000, .word, 0, 4⟩).mp (by simp)
  simp at hmem

end Srs.Dynamic
