/-
# Tree hashes

A tree hash cuts its input into a left part, the largest power of two of chunks that is shorter
than the input, and the rest, hashes both in the same way and merges the two results.  Inputs of
at most `2 ^ k` chunks are leaves.  `TreeHash` leaves the leaf and merge functions open, so
nothing here depends on what they compute.

`preorder` lists the results of all subtrees, each before those of its two parts; this is how a
tree is kept in a flat array.  Its length is known from the length of the input alone
(`length_preorder`).  A hash with long leaves that are tree hashes themselves is the hash with
short leaves (`subtree_eq_of_leaf`).
-/
import Mathlib.Data.Nat.Log
import Mathlib.Tactic.Ring
import Mathlib.Order.Bounds.Basic
import Mathlib.Data.UInt

namespace Srs

open List Nat

/-- The length of a chunk. -/
def chunkLen : Nat := 1024

/-- The length of the left part of an input of `len` elements, for inputs of more than one
chunk. -/
def leftSubtreeLen (len : Nat) : Nat := chunkLen * 2 ^ log 2 ((len - 1) / chunkLen)

theorem leftSubtreeLen_pos (len : Nat) : 0 < leftSubtreeLen len :=
  Nat.mul_pos (by decide) (Nat.two_pow_pos _)

variable {len k : Nat}

theorem leftSubtreeLen_lt (h : chunkLen < len) : leftSubtreeLen len < len := by
  have hc : 0 < chunkLen := by decide
  have hq : (len - 1) / chunkLen ≠ 0 := by
    have : 1 ≤ (len - 1) / chunkLen := (le_div_iff_mul_le hc).mpr (by omega)
    omega
  have hpow : 2 ^ log 2 ((len - 1) / chunkLen) ≤ (len - 1) / chunkLen :=
    pow_log_le_self 2 hq
  have hmul : chunkLen * 2 ^ log 2 ((len - 1) / chunkLen) ≤ len - 1 :=
    (mul_le_mul_left _ hpow).trans (mul_div_le _ _)
  unfold leftSubtreeLen
  omega

/-- A power of two of chunks that is shorter than the input is at most the left part. -/
theorem le_leftSubtreeLen (h : chunkLen * 2 ^ k < len) :
    chunkLen * 2 ^ k ≤ leftSubtreeLen len := by
  have hc : 0 < chunkLen := by decide
  have hq : 2 ^ k ≤ (len - 1) / chunkLen := by
    rw [le_div_iff_mul_le hc, mul_comm]
    omega
  have hk : k ≤ log 2 ((len - 1) / chunkLen) :=
    le_log_of_pow_le (by decide) hq
  exact Nat.mul_le_mul_left _ (Nat.pow_le_pow_right (by decide) hk)

/-- Leaves of a power of two of chunks are never cut by a split. -/
theorem dvd_leftSubtreeLen (h : chunkLen * 2 ^ k < len) :
    chunkLen * 2 ^ k ∣ leftSubtreeLen len := by
  have hle : 2 ^ k ≤ 2 ^ log 2 ((len - 1) / chunkLen) :=
    le_of_mul_le_mul_left (le_leftSubtreeLen h) (by decide)
  have hk : k ≤ log 2 ((len - 1) / chunkLen) :=
    (Nat.pow_le_pow_iff_right (by decide)).mp hle
  exact mul_dvd_mul_left _ (pow_dvd_pow 2 hk)

/-- Leaves are inputs of at most `2 ^ k` chunks. -/
def leafLen (k : Nat) : Nat := chunkLen * 2 ^ k

theorem chunkLen_le_leafLen (k : Nat) : chunkLen ≤ leafLen k :=
  Nat.le_mul_of_pos_right _ (Nat.two_pow_pos k)

theorem leafLen_pos (k : Nat) : 0 < leafLen k := Nat.mul_pos (by decide) (Nat.two_pow_pos k)

/-- How many results a subtree over `len` elements has. -/
def nodeCount (k len : Nat) : Nat := 2 * ((len + leafLen k - 1) / leafLen k) - 1

theorem nodeCount_leaf (hpos : 0 < len) (h : len ≤ leafLen k) :
    nodeCount k len = 1 := by
  have hk := leafLen_pos k
  have : (len + leafLen k - 1) / leafLen k = 1 := by
    rw [Nat.div_eq_iff hk]
    omega
  rw [nodeCount, this]

/-- A split falls between two leaves, so the leaves of the two parts add up. -/
theorem nodeCount_split (h : leafLen k < len) :
    nodeCount k len = 1 + nodeCount k (leftSubtreeLen len)
      + nodeCount k (len - leftSubtreeLen len) := by
  have hk := leafLen_pos k
  have hlt : leftSubtreeLen len < len := leftSubtreeLen_lt ((chunkLen_le_leafLen k).trans_lt h)
  obtain ⟨c, hc⟩ : leafLen k ∣ leftSubtreeLen len := dvd_leftSubtreeLen h
  have hcpos : 0 < c := by
    have := leftSubtreeLen_pos len
    rw [hc] at this
    exact Nat.pos_of_mul_pos_left this
  have hleft : (leftSubtreeLen len + leafLen k - 1) / leafLen k = c := by
    rw [hc, Nat.add_sub_assoc (by omega), Nat.mul_add_div hk, Nat.div_eq_of_lt (by omega)]
    rfl
  have hwhole : (len + leafLen k - 1) / leafLen k
      = c + (len - leftSubtreeLen len + leafLen k - 1) / leafLen k := by
    rw [← mul_add_div hk, ← hc]
    congr 1
    omega
  have hright : 0 < (len - leftSubtreeLen len + leafLen k - 1) / leafLen k :=
    div_pos (by omega) hk
  simp only [nodeCount, hleft, hwhole]
  omega

/-- How the results of the leaves and of the parts are computed.  A leaf function is told where
its leaf starts; only the merge at the root has results of its own type. -/
structure TreeHash (α ν ρ : Type) where
  leaf : Nat → List α → ν
  merge : ν → ν → ν
  mergeRoot : ν → ν → ρ

namespace TreeHash

variable {α ν ρ : Type}

/-- The result of the subtree over `input`, which starts at `start`. -/
def subtree (T : TreeHash α ν ρ) (k start : Nat) (input : List α) : ν :=
  if input.length ≤ leafLen k then
    T.leaf start input
  else
    T.merge (T.subtree k start (input.take (leftSubtreeLen input.length)))
      (T.subtree k (start + leftSubtreeLen input.length)
        (input.drop (leftSubtreeLen input.length)))
termination_by input.length
decreasing_by
  all_goals
    have hk := chunkLen_le_leafLen k
    have hlt : leftSubtreeLen input.length < input.length := leftSubtreeLen_lt (by omega)
    have hpos := leftSubtreeLen_pos input.length
    simp only [length_take, length_drop]
    omega

variable {k : Nat} {input : List α}

theorem subtree_of_le (T : TreeHash α ν ρ) (start : Nat)
    (h : input.length ≤ leafLen k) : T.subtree k start input = T.leaf start input := by
  rw [subtree, if_pos h]

theorem subtree_of_lt (T : TreeHash α ν ρ) (start : Nat) (h : leafLen k < input.length) :
    T.subtree k start input
      = T.merge (T.subtree k start (input.take (leftSubtreeLen input.length)))
        (T.subtree k (start + leftSubtreeLen input.length)
          (input.drop (leftSubtreeLen input.length))) := by
  rw [subtree, if_neg (by omega)]

/-- The hash of an input that is longer than a leaf. -/
def root (T : TreeHash α ν ρ) (k : Nat) (input : List α) : ρ :=
  T.mergeRoot (T.subtree k 0 (input.take (leftSubtreeLen input.length)))
    (T.subtree k (leftSubtreeLen input.length) (input.drop (leftSubtreeLen input.length)))

/-- The results of all subtrees, each before those of its left and those of its right part. -/
def preorder (T : TreeHash α ν ρ) (k start : Nat) (input : List α) : List ν :=
  if input.length ≤ leafLen k then
    [T.leaf start input]
  else
    T.subtree k start input
      :: (T.preorder k start (input.take (leftSubtreeLen input.length))
        ++ T.preorder k (start + leftSubtreeLen input.length)
          (input.drop (leftSubtreeLen input.length)))
termination_by input.length
decreasing_by
  all_goals
    have hk := chunkLen_le_leafLen k
    have hlt : leftSubtreeLen input.length < input.length := leftSubtreeLen_lt (by omega)
    have hpos := leftSubtreeLen_pos input.length
    simp only [length_take, length_drop]
    omega

theorem preorder_of_le (T : TreeHash α ν ρ) (start : Nat)
    (h : input.length ≤ leafLen k) : T.preorder k start input = [T.leaf start input] := by
  rw [preorder, if_pos h]

theorem preorder_of_lt (T : TreeHash α ν ρ) (start : Nat) (h : leafLen k < input.length) :
    T.preorder k start input
      = T.subtree k start input
        :: (T.preorder k start (input.take (leftSubtreeLen input.length))
          ++ T.preorder k (start + leftSubtreeLen input.length)
            (input.drop (leftSubtreeLen input.length))) := by
  rw [preorder, if_neg (by omega)]

theorem preorder_eq_cons (T : TreeHash α ν ρ) (k start : Nat) (input : List α) :
    ∃ rest, T.preorder k start input = T.subtree k start input :: rest := by
  by_cases h : input.length ≤ leafLen k
  · exact ⟨[], by rw [preorder_of_le T start h, subtree_of_le T start h]⟩
  · exact ⟨_, preorder_of_lt T start (by omega)⟩

theorem length_preorder (T : TreeHash α ν ρ) (k start : Nat) (input : List α)
    (hpos : 0 < input.length) : (T.preorder k start input).length = nodeCount k input.length := by
  induction hn : input.length using Nat.strong_induction_on generalizing start input with
  | _ n ih =>
    subst hn
    by_cases h : input.length ≤ leafLen k
    · rw [preorder_of_le T start h, nodeCount_leaf hpos h]
      rfl
    · have hk := chunkLen_le_leafLen k
      have hlt : leftSubtreeLen input.length < input.length := leftSubtreeLen_lt (by omega)
      have hlpos := leftSubtreeLen_pos input.length
      rw [preorder_of_lt T start (by omega), nodeCount_split (by omega), length_cons,
        length_append,
        ih _ (by simp; omega) _ _ (by simp; omega) rfl,
        ih _ (by simp; omega) _ _ (by simp; omega) rfl, length_take, length_drop,
        min_eq_left hlt.le]
      omega

variable {T T' : TreeHash α ν ρ}

/-- **Long leaves that are tree hashes themselves change nothing**: the subtrees are those of the
hash with short leaves.  Only leaves that start at a multiple of their length occur. -/
theorem subtree_eq_of_leaf (hmerge : T.merge = T'.merge)
    (hleaf : ∀ start input, leafLen k ∣ start → input.length ≤ leafLen k →
      T.leaf start input = T'.subtree 0 start input)
    {start : Nat} (hstart : leafLen k ∣ start) (input : List α) :
    T.subtree k start input = T'.subtree 0 start input := by
  induction hn : input.length using Nat.strong_induction_on generalizing start input with
  | _ n ih =>
    subst hn
    by_cases h : input.length ≤ leafLen k
    · rw [T.subtree_of_le start h, hleaf start input hstart h]
    · have hk := chunkLen_le_leafLen k
      have hlt : leftSubtreeLen input.length < input.length := leftSubtreeLen_lt (by omega)
      have hlpos := leftSubtreeLen_pos input.length
      have h0 : ¬ input.length ≤ leafLen 0 := by
        have : leafLen 0 = chunkLen := mul_one _
        omega
      have hnext : leafLen k ∣ start + leftSubtreeLen input.length :=
        Nat.dvd_add hstart (dvd_leftSubtreeLen (by unfold leafLen at h; omega))
      rw [T.subtree_of_lt start (by omega), T'.subtree_of_lt start (by omega), hmerge,
        ih _ (by simp; omega) hstart _ rfl, ih _ (by simp; omega) hnext _ rfl]

theorem root_eq_of_leaf (hmerge : T.merge = T'.merge)
    (hroot : T.mergeRoot = T'.mergeRoot)
    (hleaf : ∀ start input, leafLen k ∣ start → input.length ≤ leafLen k →
      T.leaf start input = T'.subtree 0 start input) (hlen : leafLen k < input.length) :
    T.root k input = T'.root 0 input := by
  have hnext : leafLen k ∣ leftSubtreeLen input.length := dvd_leftSubtreeLen hlen
  simp only [root, hroot, subtree_eq_of_leaf hmerge hleaf (dvd_zero _),
    subtree_eq_of_leaf hmerge hleaf hnext]

end TreeHash

end Srs
