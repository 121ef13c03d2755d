/-
# Lists made of terminated pieces

A list that ends in a terminator `z` is a concatenation of pieces, each of which ends in its
only `z`.  `pieces` finds them, `locate` says where each one starts.

A reader that starts at an arbitrary cut, and not at the start of a piece, has to find its own
way to the next piece.  `locate_pieces_of_cut` says that the usual rule is right: if the item
before the cut is a terminator the cut is the start of a piece, and otherwise the next piece
starts after the next terminator.  What is left to read is then exactly the pieces that start
at or after the cut, so readers of neighbouring ranges never share a piece and never lose one.
-/
import Mathlib.Data.List.Pairwise
import Mathlib.Data.UInt

namespace Srs.Terminated

open List

variable {α : Type} [DecidableEq α]

/-! ## 1. Pieces -/

/-- The list cut after each `z`. -/
def pieces (z : α) : List α → List (List α)
  | [] => []
  | a :: l =>
    if a = z then [a] :: pieces z l
    else match pieces z l with
      | [] => [[a]]
      | p :: ps => (a :: p) :: ps

/-- A list that is empty or ends in `z`. -/
def Closed (z : α) (l : List α) : Prop := l = [] ∨ l.getLast? = some z

instance (z : α) (l : List α) : Decidable (Closed z l) :=
  inferInstanceAs (Decidable (l = [] ∨ l.getLast? = some z))

variable {z : α} {body : List α} {β : Type} {x : Nat × List β}

theorem pieces_append (h : z ∉ body) (rest : List α) :
    pieces z (body ++ z :: rest) = (body ++ [z]) :: pieces z rest := by
  induction body with
  | nil => simp [pieces]
  | cons a body ih =>
    have ha : ¬ a = z := fun e => h (e ▸ mem_cons_self)
    have hb : z ∉ body := fun hm => h (mem_cons_of_mem a hm)
    simp [pieces, ha, ih hb]

/-- A closed list that is not empty starts with a piece, and what follows is closed. -/
theorem Closed.exists_append : ∀ {l : List α}, Closed z l → l ≠ [] →
    ∃ body rest, z ∉ body ∧ Closed z rest ∧ l = body ++ z :: rest
  | [], _, hne => absurd rfl hne
  | a :: l, h, _ => by
    have hlast : (a :: l).getLast? = some z := h.resolve_left (cons_ne_nil a l)
    by_cases ha : a = z
    · subst ha
      refine ⟨[], l, not_mem_nil, ?_, rfl⟩
      rcases l with _ | ⟨b, l⟩
      · exact Or.inl rfl
      · exact Or.inr (by rwa [getLast?_cons_cons] at hlast)
    · have hl : l ≠ [] := by
        rintro rfl
        exact ha (by simpa using hlast)
      have hcl : Closed z l := by
        obtain ⟨b, t, rfl⟩ := exists_cons_of_ne_nil hl
        exact Or.inr (by rwa [getLast?_cons_cons] at hlast)
      obtain ⟨body, rest, hb, hr, rfl⟩ := Closed.exists_append hcl hl
      refine ⟨a :: body, rest, ?_, hr, rfl⟩
      intro hm
      rcases mem_cons.mp hm with e | hm
      · exact ha e.symm
      · exact hb hm

/-- Induction over the pieces of a closed list. -/
theorem Closed.induction {P : List α → Prop} (nil : P [])
    (append : ∀ body rest, z ∉ body → Closed z rest → P rest → P (body ++ z :: rest)) :
    ∀ l, Closed z l → P l := by
  intro l
  induction hn : l.length using Nat.strongRecOn generalizing l with
  | _ n ih =>
    intro h
    by_cases hne : l = []
    · subst hne
      exact nil
    · obtain ⟨body, rest, hb, hr, rfl⟩ := h.exists_append hne
      refine append body rest hb hr (ih rest.length ?_ rest rfl hr)
      subst hn
      simp only [length_append, length_cons]
      omega

theorem flatten_pieces (z : α) : ∀ l : List α, (pieces z l).flatten = l
  | [] => rfl
  | a :: l => by
    have ih := flatten_pieces z l
    by_cases ha : a = z
    · simp [pieces, ha, ih]
    · simp only [pieces, if_neg ha]
      cases hp : pieces z l with
      | nil => simp [hp] at ih; simp [← ih]
      | cons p ps => simp [hp] at ih; simp [← ih]

theorem ne_nil_of_mem_pieces : ∀ {l p : List α}, p ∈ pieces z l → p ≠ []
  | a :: l, p, h => by
    have ih : ∀ q ∈ pieces z l, q ≠ [] := fun q => ne_nil_of_mem_pieces
    by_cases ha : a = z
    · simp only [pieces, if_pos ha, mem_cons] at h
      rcases h with rfl | h
      · exact cons_ne_nil a []
      · exact ih p h
    · simp only [pieces, if_neg ha] at h
      split at h
      · simp only [mem_singleton] at h
        subst h
        exact cons_ne_nil a []
      · rename_i q qs hq
        rcases mem_cons.mp h with rfl | h
        · exact cons_ne_nil a q
        · exact ih p (by rw [hq]; exact mem_cons_of_mem q h)

/-! ## 2. Where the pieces start -/

/-- Consecutive pieces with the position each one starts at. -/
def locate {β : Type} (start : Nat) : List (List β) → List (Nat × List β)
  | [] => []
  | p :: ps => (start, p) :: locate (start + p.length) ps

theorem locate_add (n : Nat) : ∀ (start : Nat) (ps : List (List β)),
    locate (n + start) ps = (locate start ps).map fun x => (n + x.1, x.2)
  | _, [] => rfl
  | start, p :: ps => by
    simp only [locate, map_cons]
    rw [Nat.add_assoc, locate_add n (start + p.length) ps]

theorem map_snd_locate : ∀ (start : Nat) (ps : List (List β)),
    (locate start ps).map (·.2) = ps
  | _, [] => rfl
  | start, p :: ps => by rw [locate, map_cons, map_snd_locate]

theorem start_le_of_mem_locate : ∀ {start : Nat}
    {ps : List (List β)}, x ∈ locate start ps → start ≤ x.1
  | start, p :: ps, h => by
    rcases mem_cons.mp h with rfl | h
    · exact Nat.le_refl start
    · have := start_le_of_mem_locate h
      omega

theorem stop_le_of_mem_locate : ∀ {start : Nat}
    {ps : List (List β)}, x ∈ locate start ps → x.1 + x.2.length ≤ start + ps.flatten.length
  | start, p :: ps, h => by
    simp only [flatten_cons, length_append]
    rcases mem_cons.mp h with rfl | h
    · dsimp only
      omega
    · have := stop_le_of_mem_locate h
      omega

/-- Each piece ends before the next one starts. -/
theorem pairwise_locate : ∀ (start : Nat) (ps : List (List β)),
    (locate start ps).Pairwise fun a b => a.1 + a.2.length ≤ b.1
  | _, [] => List.Pairwise.nil
  | _, _ :: ps =>
    List.Pairwise.cons (fun _ hx => start_le_of_mem_locate hx) (pairwise_locate _ ps)

theorem mem_of_mem_locate : ∀ {start : Nat}
    {ps : List (List β)}, x ∈ locate start ps → x.2 ∈ ps
  | _, p :: ps, h => by
    rcases mem_cons.mp h with rfl | h
    · exact mem_cons_self
    · exact mem_cons_of_mem p (mem_of_mem_locate h)

/-! ## 3. Reading from a cut -/

theorem idxOf?_append (h : z ∉ body) (rest : List α) :
    (body ++ z :: rest).idxOf? z = some body.length := by
  induction body with
  | nil => simp [idxOf?_cons]
  | cons a body ih =>
    have ha : ¬ a = z := fun e => h (e ▸ mem_cons_self)
    have hb : z ∉ body := fun hm => h (mem_cons_of_mem a hm)
    simp [idxOf?_cons, ha, ih hb]

omit [DecidableEq α] in
theorem drop_append_piece (z : α) (body rest : List α) (n : Nat) :
    (body ++ z :: rest).drop (body.length + 1 + n) = rest.drop n := by
  have e : body ++ z :: rest = (body ++ [z]) ++ rest := by simp
  have hl : body.length + 1 + n = (body ++ [z]).length + n := by simp
  rw [e, hl, drop_length_add_append]

/-- How far a reader moves whose range starts at `cut`: nowhere after a terminator, else past
the next one. -/
def skip (z : α) (l : List α) (cut : Nat) : Nat :=
  if l[cut - 1]? = some z then cut
  else match (l.drop cut).idxOf? z with
    | some i => cut + i + 1
    | none => l.length

/-- A cut inside the first piece skips to the end of that piece. -/
theorem skip_of_lt (h : z ∉ body) (rest : List α) {cut : Nat}
    (hpos : 0 < cut) (hcut : cut ≤ body.length) :
    skip z (body ++ z :: rest) cut = body.length + 1 := by
  have hget : (body ++ z :: rest)[cut - 1]? = some (body[cut - 1]) := by
    rw [getElem?_append_left (by omega), getElem?_eq_getElem (by omega)]
  have hne : ¬ (body ++ z :: rest)[cut - 1]? = some z := by
    rw [hget]
    intro e
    exact h ((Option.some.inj e) ▸ getElem_mem _)
  have hnot : z ∉ body.drop cut := fun hm => h (mem_of_mem_drop hm)
  rw [skip, if_neg hne, drop_append_of_le_length hcut, idxOf?_append hnot]
  simp only [length_drop]
  omega

/-- A cut right after the first piece is the start of the second. -/
theorem skip_of_eq (body rest : List α) :
    skip z (body ++ z :: rest) (body.length + 1) = body.length + 1 := by
  rw [skip, if_pos (by simp)]

/-- A cut further on skips as it does in what follows the first piece. -/
theorem skip_of_gt (body rest : List α) {cut : Nat} (hpos : 0 < cut) :
    skip z (body ++ z :: rest) (body.length + 1 + cut) = body.length + 1 + skip z rest cut := by
  have hget : (body ++ z :: rest)[body.length + 1 + cut - 1]? = rest[cut - 1]? := by
    rw [getElem?_append_right (by omega)]
    have e : body.length + 1 + cut - 1 - body.length = (cut - 1) + 1 := by omega
    rw [e, getElem?_cons_succ]
  unfold skip
  rw [hget, drop_append_piece]
  split
  · rfl
  · split
    · omega
    · simp only [length_append, length_cons]
      omega

/-- All pieces of a run that starts at or after a bound pass it. -/
theorem filter_locate_of_le {start bound : Nat} (h : bound ≤ start) (ps : List (List β)) :
    (locate start ps).filter (fun x => bound ≤ x.1) = locate start ps := by
  refine filter_eq_self.mpr ?_
  intro x hx
  have := start_le_of_mem_locate hx
  exact decide_eq_true (by omega)

/-- **Reading from a cut.**  After the skip, what is left are the pieces that start at or after
the cut. -/
theorem locate_pieces_of_cut : ∀ l, Closed z l → ∀ start cut, 0 < cut →
    cut ≤ l.length →
    locate (start + skip z l cut) (pieces z (l.drop (skip z l cut)))
      = (locate start (pieces z l)).filter fun x => start + cut ≤ x.1 := by
  refine Closed.induction ?_ ?_
  · intro start cut hpos hcut
    simp only [length_nil] at hcut
    omega
  · intro body rest hb _ ih start cut hpos hcut
    have hfirst : ¬ start + cut ≤ start := by omega
    have hlen : (body ++ [z]).length = body.length + 1 := by simp
    simp only [length_append, length_cons] at hcut
    rw [pieces_append hb, locate, filter_cons_of_neg
      (by exact fun h => hfirst (of_decide_eq_true h)), hlen]
    -- the cut falls in the first piece, right behind it, or further on
    rcases Nat.lt_trichotomy cut (body.length + 1) with hlt | heq | hgt
    · rw [skip_of_lt hb rest hpos (by omega), filter_locate_of_le (by omega)]
      have hd := drop_append_piece z body rest 0
      simp only [Nat.add_zero, List.drop_zero] at hd
      rw [hd]
    · rw [heq, skip_of_eq, filter_locate_of_le (by omega)]
      have hd := drop_append_piece z body rest 0
      simp only [Nat.add_zero, List.drop_zero] at hd
      rw [hd]
    · obtain ⟨c, rfl⟩ : ∃ c, cut = body.length + 1 + c := ⟨cut - (body.length + 1), by omega⟩
      rw [skip_of_gt body rest (by omega), drop_append_piece, ← Nat.add_assoc,
        ih (start + (body.length + 1)) c (by omega) (by omega), Nat.add_assoc]

end Srs.Terminated
