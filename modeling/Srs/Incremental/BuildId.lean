/-
# The build ID hash tree

The build ID of an output is a hash of the output with the build ID note itself zeroed.  To
follow a small change without hashing the whole output again, `incremental.rs` keeps the results
of all subtrees of the hash, down to groups of 64 chunks, in one flat array, and recomputes the
groups that a patch touched and the nodes above them.

`buildIdSubtreeHash_eq` says what the array holds: the preorder of the tree hash of the zeroed
output.  `updateBuildIdSubtreeHash_spec` is the step of the update, one subtree in the middle of
the array: the nodes of the old output are replaced by those of the new one, and where the
update reports no change there was none to make.

The hash functions of the `blake3` crate are parameters (`BuildIdHasher`); of them only the way
they compose is used.
-/
import Srs.Lib.Bytes
import Srs.Lib.Intervals
import Srs.Lib.SortDedup
import Srs.Lib.Text
import Srs.Lib.TreeHash

namespace Srs.Incremental

open List Option

/-! ## 1. The code -/

def buildIdHashGroupChunks : Nat := 64

def buildIdHashGroupLen : Nat := chunkLen * buildIdHashGroupChunks

structure BuildIdHashState where
  outputLen : Nat
  nodes : Nat
  treeHash : Option Text
  deriving DecidableEq

/-- What the code calls of the `blake3` crate.  `leaf start bytes` is the hasher with its input
offset set to `start`, finalised as a non-root node; `merge` and `mergeRoot` are
`merge_subtrees_non_root` and `merge_subtrees_root`; `zeroNode` is the node a new array is
filled with, `treeHash` the digest of an array of nodes and `asBytes` the bytes of a hash. -/
structure BuildIdHasher (ν ρ : Type) extends TreeHash UInt8 ν ρ where
  zeroNode : ν
  treeHash : List ν → Text
  asBytes : ρ → Bytes

/-- `bytes[range].fill(0)`. -/
def fillZero (bytes : Bytes) (range : Interval) : Bytes :=
  bytes.mapIdx fun i byte => if range.Contains i then 0 else byte

/-- `bytes[start..start + len]`. -/
def slice (bytes : Bytes) (start len : Nat) : Bytes := (bytes.drop start).take len

def intersectRanges (left right : Interval) : Option Interval :=
  let start := max left.start right.start
  let stop := min left.stop right.stop
  if start < stop then some ⟨start, stop⟩ else none

/-- The groups `range` reaches into, `first..=last`. -/
def buildIdGroups (range : Interval) : List Nat :=
  let first := range.start / buildIdHashGroupLen
  let last := (range.stop - 1) / buildIdHashGroupLen
  range' first (last + 1 - first)

/-- The loop of `touched_build_id_chunks`. -/
def collectBuildIdChunks (outputLen : Nat) : List Interval → List Nat → Result (List Nat)
  | [], chunks => .ok chunks
  | range :: rest, chunks => do
    failIf (range.start > range.stop ∨ range.stop > outputLen)
      "Incremental build ID patch range is invalid"
    collectBuildIdChunks outputLen rest
      (if range.start < range.stop then chunks ++ buildIdGroups range else chunks)

def touchedBuildIdChunks (ranges : List Interval) (outputLen : Nat) : Result (List Nat) := do
  let chunks ← collectBuildIdChunks outputLen ranges []
  return sortDedup chunks

def touchedChunksOverlap (chunks : List Nat) (start len : Nat) : Bool :=
  if len = 0 then
    false
  else
    let first := start / buildIdHashGroupLen
    let last := (start + len - 1) / buildIdHashGroupLen
    chunks.any fun chunk => first ≤ chunk ∧ chunk ≤ last

def buildIdSubtreeNodeCount (len : Nat) : Nat :=
  2 * ((len + buildIdHashGroupLen - 1) / buildIdHashGroupLen) - 1

def buildIdHashNodeCount (len : Nat) : Option Nat :=
  if len ≤ buildIdHashGroupLen then
    none
  else
    let leftLen := leftSubtreeLen len
    some (buildIdSubtreeNodeCount leftLen + buildIdSubtreeNodeCount (len - leftLen))

variable {len : Nat} {bytes : Bytes} {start l : Nat}

/-- A split leaves less on both sides, which is why the recursions below end. -/
theorem split_lt (h : ¬ len ≤ buildIdHashGroupLen) :
    leftSubtreeLen len < len ∧ len - leftSubtreeLen len < len := by
  have hk : chunkLen ≤ buildIdHashGroupLen := by decide
  have hlt : leftSubtreeLen len < len := leftSubtreeLen_lt (by omega)
  have hpos := leftSubtreeLen_pos len
  omega

section

variable {ν ρ : Type} (H : BuildIdHasher ν ρ)

def buildIdLeafHash (bytes : Bytes) (start len : Nat) (zeroRange : Interval) : ν :=
  let chunk := slice bytes start len
  match intersectRanges ⟨start, start + len⟩ zeroRange with
  | some overlap => H.leaf start (fillZero chunk ⟨overlap.start - start, overlap.stop - start⟩)
  | none => H.leaf start chunk

/-- `build_id_subtree_hash`, with the slice of the array it fills.  The two parts are hashed in
parallel when they are large, each into its own part of the slice. -/
def buildIdSubtreeHash (bytes : Bytes) (start len : Nat) (zeroRange : Interval)
    (tree : List ν) : ν × List ν :=
  if _h : len ≤ buildIdHashGroupLen then
    let hash := buildIdLeafHash H bytes start len zeroRange
    (hash, tree.set 0 hash)
  else
    let leftLen := leftSubtreeLen len
    let leftNodes := buildIdSubtreeNodeCount leftLen
    let children := tree.drop 1
    let (left, leftTree) :=
      buildIdSubtreeHash bytes start leftLen zeroRange (children.take leftNodes)
    let (right, rightTree) :=
      buildIdSubtreeHash bytes (start + leftLen) (len - leftLen) zeroRange
        (children.drop leftNodes)
    let hash := H.merge left right
    (hash, hash :: (leftTree ++ rightTree))
termination_by len
decreasing_by
  · exact (split_lt _h).1
  · exact (split_lt _h).2

def buildIdHashTree (bytes : Bytes) (zeroRange : Interval) : Option (List ν) := do
  let nodes ← buildIdHashNodeCount bytes.length
  let tree := replicate nodes H.zeroNode
  let leftLen := leftSubtreeLen bytes.length
  let leftNodes := buildIdSubtreeNodeCount leftLen
  let leftTree := (buildIdSubtreeHash H bytes 0 leftLen zeroRange (tree.take leftNodes)).2
  let rightTree := (buildIdSubtreeHash H bytes leftLen (bytes.length - leftLen) zeroRange
    (tree.drop leftNodes)).2
  return leftTree ++ rightTree

/-- `update_build_id_subtree_hash`, with the array it leaves and whether a node was written. -/
def updateBuildIdSubtreeHash (tree : List ν) (index : Nat) (output : Bytes) (start len : Nat)
    (zeroRange : Interval) (changedChunks : List Nat) : List ν × Bool :=
  if touchedChunksOverlap changedChunks start len = false then
    (tree, false)
  else if _h : len ≤ buildIdHashGroupLen then
    (tree.set index (buildIdLeafHash H output start len zeroRange), true)
  else
    let leftLen := leftSubtreeLen len
    let leftIndex := index + 1
    let rightIndex := leftIndex + buildIdSubtreeNodeCount leftLen
    let (tree, leftChanged) :=
      updateBuildIdSubtreeHash tree leftIndex output start leftLen zeroRange changedChunks
    let (tree, rightChanged) :=
      updateBuildIdSubtreeHash tree rightIndex output (start + leftLen) (len - leftLen) zeroRange
        changedChunks
    -- the code indexes the array and would panic outside of it
    (if leftChanged || rightChanged then
      tree.set index (H.merge (tree.getD leftIndex H.zeroNode) (tree.getD rightIndex H.zeroNode))
    else tree, leftChanged || rightChanged)
termination_by len
decreasing_by
  · exact (split_lt _h).1
  · exact (split_lt _h).2

/-- `update_build_id_hash_tree`: the state and the array it leaves, and whether it accepted
them. -/
def updateBuildIdHashTree (state : BuildIdHashState) (tree : List ν) (output : Bytes)
    (zeroRange : Interval) (changedChunks : List Nat) : BuildIdHashState × List ν × Bool :=
  if state.outputLen ≠ output.length then (state, tree, false)
  else if some state.nodes ≠ buildIdHashNodeCount output.length then (state, tree, false)
  else if tree.length ≠ state.nodes then (state, tree, false)
  else if output.length ≤ buildIdHashGroupLen then (state, tree, false)
  else
    let leftLen := leftSubtreeLen output.length
    let left := (updateBuildIdSubtreeHash H tree 0 output 0 leftLen zeroRange changedChunks).1
    let rightIndex := buildIdSubtreeNodeCount leftLen
    let both := (updateBuildIdSubtreeHash H left rightIndex output leftLen
      (output.length - leftLen) zeroRange changedChunks).1
    ({ state with treeHash := some (H.treeHash both) }, both, true)

def buildIdFromHashTree (state : BuildIdHashState) (tree : List ν) : Result ρ := do
  let len := state.outputLen
  failIf (some state.nodes ≠ buildIdHashNodeCount len)
    "Incremental build ID hash state does not match output length"
  failIf (tree.length ≠ state.nodes)
    "Incremental build ID hash tree size does not match state"
  let rightIndex := buildIdSubtreeNodeCount (leftSubtreeLen len)
  return H.mergeRoot (tree.getD 0 H.zeroNode) (tree.getD rightIndex H.zeroNode)

end

/-! ## 2. Slices of the zeroed output -/

@[simp] theorem length_fillZero (bytes : Bytes) (range : Interval) :
    (fillZero bytes range).length = bytes.length := by
  simp [fillZero]

theorem getElem?_fillZero (bytes : Bytes) (range : Interval) (i : Nat) :
    (fillZero bytes range)[i]? = bytes[i]?.map fun byte => if range.Contains i then 0 else byte := by
  simp [fillZero, getElem?_mapIdx]

theorem getElem?_slice {i : Nat} (h : i < len) :
    (slice bytes start len)[i]? = bytes[start + i]? := by
  simp [slice, h]

theorem length_slice (h : start + len ≤ bytes.length) :
    (slice bytes start len).length = len := by
  simp only [slice, length_take, length_drop]
  omega

theorem take_slice (h : l ≤ len) :
    (slice bytes start len).take l = slice bytes start l := by
  simp [slice, take_take, h]

theorem drop_slice :
    (slice bytes start len).drop l = slice bytes (start + l) (len - l) := by
  simp [slice, drop_take]

variable {a b : Bytes}

theorem slice_eq_of_getElem? (h : ∀ i, start ≤ i → i < start + len → a[i]? = b[i]?) :
    slice a start len = slice b start len := by
  apply ext_getElem?
  intro i
  by_cases hi : i < len
  · rw [getElem?_slice hi, getElem?_slice hi]
    exact h (start + i) (by omega) (by omega)
  · simp [slice, hi]

/-- A slice whose two parts are unchanged is unchanged. -/
theorem slice_eq_of_parts (hl : l ≤ len) (hleft : slice a start l = slice b start l)
    (hright : slice a (start + l) (len - l) = slice b (start + l) (len - l)) :
    slice a start len = slice b start len := by
  have split : ∀ c : Bytes, slice c start len = slice c start l ++ slice c (start + l) (len - l) := by
    intro c
    rw [← take_slice hl, ← drop_slice, take_append_drop]
  rw [split a, split b, hleft, hright]

/-- Zeroing the part of the range that falls into a slice is zeroing the range. -/
theorem slice_fillZero_of_some {range overlap : Interval}
    (h : intersectRanges ⟨start, start + len⟩ range = some overlap) :
    slice (fillZero bytes range) start len
      = fillZero (slice bytes start len) ⟨overlap.start - start, overlap.stop - start⟩ := by
  simp only [intersectRanges, ite_none_right_eq_some, some.injEq] at h
  obtain ⟨hlt, rfl⟩ := h
  apply ext_getElem?
  intro i
  rw [getElem?_fillZero]
  by_cases hi : i < len
  · have hiff : range.Contains (start + i) ↔ Interval.Contains
        ⟨max start range.start - start, min (start + len) range.stop - start⟩ i := by
      unfold Interval.Contains
      simp only
      omega
    rw [getElem?_slice hi, getElem?_slice hi, getElem?_fillZero]
    simp only [hiff]
  · simp [slice, hi]

theorem slice_fillZero_of_none {range : Interval}
    (h : intersectRanges ⟨start, start + len⟩ range = none) :
    slice (fillZero bytes range) start len = slice bytes start len := by
  simp only [intersectRanges, ite_eq_right_iff, reduceCtorEq, imp_false, not_lt] at h
  apply slice_eq_of_getElem?
  intro i hlo hhi
  have hnot : ¬ range.Contains i := by
    unfold Interval.Contains
    omega
  simp [getElem?_fillZero, hnot]

/-! ## 3. What the array holds -/

section

variable {ν ρ : Type} (H : BuildIdHasher ν ρ)

/-- A leaf is hashed with the range zeroed. -/
theorem buildIdLeafHash_eq (bytes : Bytes) (start len : Nat) (zeroRange : Interval) :
    buildIdLeafHash H bytes start len zeroRange
      = H.leaf start (slice (fillZero bytes zeroRange) start len) := by
  unfold buildIdLeafHash
  split
  · rename_i overlap hov
    rw [slice_fillZero_of_some hov]
  · rename_i hov
    rw [slice_fillZero_of_none hov]

theorem buildIdSubtreeNodeCount_eq (len : Nat) : buildIdSubtreeNodeCount len = nodeCount 6 len :=
  rfl

/-- The nodes of the subtree over `len` bytes from `start`, of an output that is zeroed
already. -/
def subtreeNodes (zeroed : Bytes) (start len : Nat) : List ν :=
  H.preorder 6 start (slice zeroed start len)

variable {H}

variable {zeroed : Bytes} {start len : Nat} {bytes : Bytes} {zeroRange : Interval} {tree : List ν}
  {chunks : List Nat} {old : Bytes} {ranges : List Interval} {new : Bytes}

theorem length_subtreeNodes (hpos : 0 < len) (h : start + len ≤ zeroed.length) :
    (subtreeNodes H zeroed start len).length = buildIdSubtreeNodeCount len := by
  rw [subtreeNodes, TreeHash.length_preorder _ _ _ _ (by rw [length_slice h]; exact hpos),
    length_slice h, buildIdSubtreeNodeCount_eq]

theorem subtreeNodes_leaf (h : start + len ≤ zeroed.length) (hle : len ≤ buildIdHashGroupLen) :
    subtreeNodes H zeroed start len = [H.leaf start (slice zeroed start len)] :=
  H.preorder_of_le start (by rw [length_slice h]; exact hle)

/-- The nodes of a subtree that is split: its own, those of its left part, those of its right
part. -/
theorem subtreeNodes_split (h : start + len ≤ zeroed.length) (hlt : ¬ len ≤ buildIdHashGroupLen) :
    subtreeNodes H zeroed start len
      = H.subtree 6 start (slice zeroed start len)
        :: (subtreeNodes H zeroed start (leftSubtreeLen len)
          ++ subtreeNodes H zeroed (start + leftSubtreeLen len) (len - leftSubtreeLen len)) := by
  have hle : leafLen 6 < (slice zeroed start len).length := by
    rw [length_slice h]
    exact Nat.lt_of_not_le hlt
  simp only [subtreeNodes]
  rw [H.preorder_of_lt start hle, length_slice h, take_slice (split_lt hlt).1.le, drop_slice]

/-- The hash of a subtree that is split merges those of its parts. -/
theorem subtree_split (h : start + len ≤ zeroed.length) (hlt : ¬ len ≤ buildIdHashGroupLen) :
    H.subtree 6 start (slice zeroed start len)
      = H.merge (H.subtree 6 start (slice zeroed start (leftSubtreeLen len)))
        (H.subtree 6 (start + leftSubtreeLen len)
          (slice zeroed (start + leftSubtreeLen len) (len - leftSubtreeLen len))) := by
  have hle : leafLen 6 < (slice zeroed start len).length := by
    rw [length_slice h]
    exact Nat.lt_of_not_le hlt
  rw [H.subtree_of_lt start hle, length_slice h, take_slice (split_lt hlt).1.le, drop_slice]

/-- **The array of a subtree is its preorder**, whatever the slice held before. -/
theorem buildIdSubtreeHash_eq (hpos : 0 < len) (h : start + len ≤ bytes.length)
    (htree : tree.length = buildIdSubtreeNodeCount len) :
    buildIdSubtreeHash H bytes start len zeroRange tree
      = (H.subtree 6 start (slice (fillZero bytes zeroRange) start len),
        subtreeNodes H (fillZero bytes zeroRange) start len) := by
  have hz : start + len ≤ (fillZero bytes zeroRange).length := by simpa using h
  induction len using Nat.strong_induction_on generalizing start tree with
  | _ len ih =>
    rw [buildIdSubtreeHash]
    by_cases hle : len ≤ buildIdHashGroupLen
    · have hone : tree.length = 1 := by
        rw [htree, buildIdSubtreeNodeCount_eq, nodeCount_leaf (k := 6) hpos hle]
      obtain ⟨node, rfl⟩ := length_eq_one_iff.mp hone
      rw [dif_pos hle, subtreeNodes_leaf hz hle,
        H.subtree_of_le start (by rw [length_slice hz]; exact hle), buildIdLeafHash_eq]
      rfl
    · obtain ⟨hl, hr⟩ := split_lt hle
      have hlpos := leftSubtreeLen_pos len
      have hcount := nodeCount_split (k := 6) (Nat.lt_of_not_le hle)
      rw [buildIdSubtreeNodeCount_eq, hcount] at htree
      rw [dif_neg hle]
      simp only [buildIdSubtreeNodeCount_eq]
      have hroom : nodeCount 6 (leftSubtreeLen len) ≤ tree.length - 1 := by
        rw [htree, Nat.add_assoc, Nat.add_sub_cancel_left]
        exact Nat.le_add_right _ _
      rw [ih _ hl hlpos (by omega) (by
          simp only [length_take, length_drop, buildIdSubtreeNodeCount_eq]
          exact Nat.min_eq_left hroom) (by omega),
        ih _ hr (by omega) (by omega) (by
          simp only [length_drop, buildIdSubtreeNodeCount_eq]
          omega) (by omega)]
      rw [subtreeNodes_split hz hle, subtree_split hz hle]

/-- The array of the whole tree: the nodes of the left part of the output, then those of the
right part. -/
theorem buildIdHashTree_eq (h : buildIdHashGroupLen < bytes.length) :
    buildIdHashTree H bytes zeroRange
      = some (subtreeNodes H (fillZero bytes zeroRange) 0 (leftSubtreeLen bytes.length)
        ++ subtreeNodes H (fillZero bytes zeroRange) (leftSubtreeLen bytes.length)
          (bytes.length - leftSubtreeLen bytes.length)) := by
  have hnot : ¬ bytes.length ≤ buildIdHashGroupLen := by omega
  obtain ⟨hl, hr⟩ := split_lt hnot
  have hlpos := leftSubtreeLen_pos bytes.length
  simp only [buildIdHashTree, buildIdHashNodeCount, if_neg hnot, bind_eq_bind,
    bind_some, Option.pure_def]
  rw [buildIdSubtreeHash_eq hlpos (by omega) (by simp),
    buildIdSubtreeHash_eq (by omega) (by omega) (by simp)]

/-- How many nodes it has. -/
theorem length_buildIdHashTree (h : buildIdHashGroupLen < bytes.length)
    (htree : buildIdHashTree H bytes zeroRange = some tree) :
    some tree.length = buildIdHashNodeCount bytes.length := by
  have hnot : ¬ bytes.length ≤ buildIdHashGroupLen := by omega
  obtain ⟨hl, hr⟩ := split_lt hnot
  have hlpos := leftSubtreeLen_pos bytes.length
  rw [buildIdHashTree_eq h, some.injEq] at htree
  rw [← htree, buildIdHashNodeCount, if_neg hnot, length_append,
    length_subtreeNodes hlpos (by simp; omega), length_subtreeNodes (by omega) (by simp; omega)]

/-! ## 4. Updating a subtree in place -/

/-- No touched group reaches into a subtree that is skipped. -/
theorem not_mem_of_not_overlap {i : Nat}
    (h : touchedChunksOverlap chunks start len = false) (hlo : start ≤ i) (hhi : i < start + len) :
    i / buildIdHashGroupLen ∉ chunks := by
  intro hmem
  rw [touchedChunksOverlap, if_neg (by omega)] at h
  have hany := any_eq_false.mp h _ hmem
  have hfirst : start / buildIdHashGroupLen ≤ i / buildIdHashGroupLen := Nat.div_le_div_right hlo
  have hlast : i / buildIdHashGroupLen ≤ (start + len - 1) / buildIdHashGroupLen :=
    Nat.div_le_div_right (by omega)
  exact hany (by simp [hfirst, hlast])

variable {output : Bytes}

/-- What an update of a subtree that is split does, given what it does to the two parts. -/
theorem updateBuildIdSubtreeHash_split {tree₁ tree₂ : List ν} {index : Nat} {leftChanged rightChanged : Bool}
    (hover : ¬ touchedChunksOverlap chunks start len = false) (hle : ¬ len ≤ buildIdHashGroupLen)
    (hleft : updateBuildIdSubtreeHash H tree (index + 1) output start (leftSubtreeLen len)
      zeroRange chunks = (tree₁, leftChanged))
    (hright : updateBuildIdSubtreeHash H tree₁
      (index + 1 + buildIdSubtreeNodeCount (leftSubtreeLen len)) output
      (start + leftSubtreeLen len) (len - leftSubtreeLen len) zeroRange chunks
        = (tree₂, rightChanged)) :
    updateBuildIdSubtreeHash H tree index output start len zeroRange chunks
      = (if leftChanged || rightChanged then
          tree₂.set index (H.merge (tree₂.getD (index + 1) H.zeroNode)
            (tree₂.getD (index + 1 + buildIdSubtreeNodeCount (leftSubtreeLen len)) H.zeroNode))
        else tree₂, leftChanged || rightChanged) := by
  rw [updateBuildIdSubtreeHash, if_neg hover, dif_neg hle]
  simp only [hleft, hright]

/-- The first node of a subtree is its hash. -/
theorem getD_subtreeNodes (zeroed : Bytes) (start len : Nat) (before after : List ν) (d : ν) :
    (before ++ subtreeNodes H zeroed start len ++ after).getD before.length d
      = H.subtree 6 start (slice zeroed start len) := by
  obtain ⟨rest, hrest⟩ := H.preorder_eq_cons 6 start (slice zeroed start len)
  rw [subtreeNodes, hrest]
  simp

/-- Once both parts hold the new nodes, merging their first nodes completes the subtree,
whatever its own node was. -/
theorem set_merge_eq (hpos : 0 < leftSubtreeLen len)
    (h : start + len ≤ zeroed.length) (hle : ¬ len ≤ buildIdHashGroupLen)
    (before after : List ν) (node : ν) :
    let tree := before ++ [node] ++ subtreeNodes H zeroed start (leftSubtreeLen len)
      ++ subtreeNodes H zeroed (start + leftSubtreeLen len) (len - leftSubtreeLen len) ++ after
    tree.set before.length (H.merge (tree.getD (before.length + 1) H.zeroNode)
        (tree.getD (before.length + 1 + buildIdSubtreeNodeCount (leftSubtreeLen len)) H.zeroNode))
      = before ++ subtreeNodes H zeroed start len ++ after := by
  intro tree
  have hl := (split_lt hle).1
  have hleft : tree.getD (before.length + 1) H.zeroNode
      = H.subtree 6 start (slice zeroed start (leftSubtreeLen len)) := by
    have := getD_subtreeNodes (H := H) zeroed start (leftSubtreeLen len) (before ++ [node])
      (subtreeNodes H zeroed (start + leftSubtreeLen len) (len - leftSubtreeLen len) ++ after)
      H.zeroNode
    rwa [length_append, length_singleton, ← List.append_assoc] at this
  have hright : tree.getD (before.length + 1 + buildIdSubtreeNodeCount (leftSubtreeLen len))
      H.zeroNode = H.subtree 6 (start + leftSubtreeLen len)
        (slice zeroed (start + leftSubtreeLen len) (len - leftSubtreeLen len)) := by
    have := getD_subtreeNodes (H := H) zeroed (start + leftSubtreeLen len)
      (len - leftSubtreeLen len)
      (before ++ [node] ++ subtreeNodes H zeroed start (leftSubtreeLen len)) after H.zeroNode
    rwa [length_append, length_append, length_singleton,
      length_subtreeNodes hpos (by omega)] at this
  rw [hleft, hright, ← subtree_split h hle, subtreeNodes_split h hle]
  simp [tree]

/-- **One subtree of the array is updated.**  Its nodes stand between others; where the two
zeroed outputs differ only in touched groups, the nodes of the old output become those of the
new one, and an update that reports no change had nothing to change. -/
theorem updateBuildIdSubtreeHash_spec (start len : Nat) (hpos : 0 < len)
    (hold : start + len ≤ old.length)
    (hnew : start + len ≤ output.length)
    (hagree : ∀ i, start ≤ i → i < start + len → i / buildIdHashGroupLen ∉ chunks →
      old[i]? = (fillZero output zeroRange)[i]?) (before after : List ν) :
    ∃ changed, updateBuildIdSubtreeHash H (before ++ subtreeNodes H old start len ++ after)
        before.length output start len zeroRange chunks
      = (before ++ subtreeNodes H (fillZero output zeroRange) start len ++ after, changed)
      ∧ (changed = false →
        slice old start len = slice (fillZero output zeroRange) start len) := by
  have hz : start + len ≤ (fillZero output zeroRange).length := by simpa using hnew
  induction len using Nat.strong_induction_on generalizing start before after with
  | _ len ih =>
    by_cases hover : touchedChunksOverlap chunks start len = false
    · -- skipped: no byte of it changed
      have hslice : slice old start len = slice (fillZero output zeroRange) start len :=
        slice_eq_of_getElem? fun i hlo hhi =>
          hagree i hlo hhi (not_mem_of_not_overlap hover hlo hhi)
      refine ⟨false, ?_, fun _ => hslice⟩
      rw [updateBuildIdSubtreeHash, if_pos hover, subtreeNodes, subtreeNodes, hslice]
    by_cases hle : len ≤ buildIdHashGroupLen
    · refine ⟨true, ?_, by simp⟩
      rw [updateBuildIdSubtreeHash, if_neg hover, dif_pos hle, subtreeNodes_leaf hold hle,
        subtreeNodes_leaf hz hle, buildIdLeafHash_eq]
      simp
    obtain ⟨hl, hr⟩ := split_lt hle
    have hlpos := leftSubtreeLen_pos len
    -- the left part stands after the root of the subtree, the right part after the left one
    obtain ⟨leftChanged, hleft, hsameLeft⟩ := ih (leftSubtreeLen len) hl start hlpos (by omega)
      (by omega) (fun i hlo hhi => hagree i hlo (by omega))
      (before ++ [H.subtree 6 start (slice old start len)])
      (subtreeNodes H old (start + leftSubtreeLen len) (len - leftSubtreeLen len) ++ after)
      (by omega)
    obtain ⟨rightChanged, hright, hsameRight⟩ := ih (len - leftSubtreeLen len) hr
      (start + leftSubtreeLen len) (by omega) (by omega) (by omega)
      (fun i hlo hhi => hagree i (by omega) (by omega))
      (before ++ [H.subtree 6 start (slice old start len)]
        ++ subtreeNodes H (fillZero output zeroRange) start (leftSubtreeLen len))
      after (by omega)
    refine ⟨leftChanged || rightChanged, ?_, ?_⟩
    · rw [length_append, length_singleton] at hleft
      rw [length_append, length_append, length_singleton,
        length_subtreeNodes hlpos (by omega), List.append_assoc _ _ after] at hright
      have hnodes : before ++ subtreeNodes H old start len ++ after
          = before ++ [H.subtree 6 start (slice old start len)]
            ++ subtreeNodes H old start (leftSubtreeLen len)
            ++ (subtreeNodes H old (start + leftSubtreeLen len) (len - leftSubtreeLen len)
              ++ after) := by
        rw [subtreeNodes_split hold hle]
        simp
      rw [hnodes, updateBuildIdSubtreeHash_split hover hle hleft hright]
      by_cases hchanged : (leftChanged || rightChanged) = true
      · rw [if_pos hchanged, set_merge_eq hlpos hz hle]
      · -- both parts are as they were, so is the hash above them
        rw [Bool.not_eq_true, Bool.or_eq_false_iff] at hchanged
        have hslice := slice_eq_of_parts hl.le (hsameLeft hchanged.1) (hsameRight hchanged.2)
        rw [hchanged.1, hchanged.2, subtreeNodes_split hz hle, hslice]
        simp
    · intro hfalse
      rw [Bool.or_eq_false_iff] at hfalse
      exact slice_eq_of_parts hl.le (hsameLeft hfalse.1) (hsameRight hfalse.2)

/-! ## 5. Updating the whole array -/

theorem mem_buildIdGroups {range : Interval} {i : Nat} (h : range.Contains i) :
    i / buildIdHashGroupLen ∈ buildIdGroups range := by
  obtain ⟨hlo, hhi⟩ := h
  have hfirst : range.start / buildIdHashGroupLen ≤ i / buildIdHashGroupLen :=
    Nat.div_le_div_right hlo
  have hlast : i / buildIdHashGroupLen ≤ (range.stop - 1) / buildIdHashGroupLen :=
    Nat.div_le_div_right (by omega)
  simp only [buildIdGroups, mem_range'_1]
  omega

variable {outputLen : Nat}

/-- The groups are collected when every range is one of the output, and those of every byte in a
range are among them. -/
theorem collectBuildIdChunks_ok : ∀ {ranges : List Interval},
    (∀ range ∈ ranges, range.start ≤ range.stop ∧ range.stop ≤ outputLen) →
      ∀ before, ∃ chunks, collectBuildIdChunks outputLen ranges before = .ok chunks
        ∧ (∀ chunk ∈ before, chunk ∈ chunks)
        ∧ ∀ range ∈ ranges, ∀ i, range.Contains i → i / buildIdHashGroupLen ∈ chunks := by
  intro ranges
  induction ranges with
  | nil =>
    intro _ before
    exact ⟨before, rfl, fun _ h => h, by simp⟩
  | cons range rest ih =>
    intro hvalid before
    obtain ⟨hle, hstop⟩ := hvalid range (by simp)
    obtain ⟨chunks, hok, hbefore, hrest⟩ := ih (fun r hr => hvalid r (mem_cons_of_mem _ hr))
      (if range.start < range.stop then before ++ buildIdGroups range else before)
    refine ⟨chunks, ?_, ?_, ?_⟩
    · have hinside : ¬ (range.start > range.stop ∨ range.stop > outputLen) := by omega
      rw [collectBuildIdChunks, failIf_neg _ hinside]
      exact hok
    · intro chunk hchunk
      apply hbefore
      split
      · exact mem_append_left _ hchunk
      · exact hchunk
    · intro r hr i hi
      rcases mem_cons.mp hr with rfl | hr
      · have hlt : r.start < r.stop := hi.1.trans_lt hi.2
        apply hbefore
        rw [if_pos hlt]
        exact mem_append_right _ (mem_buildIdGroups hi)
      · exact hrest r hr i hi

theorem touchedBuildIdChunks_ok
    (hvalid : ∀ range ∈ ranges, range.start ≤ range.stop ∧ range.stop ≤ outputLen) :
    ∃ chunks, touchedBuildIdChunks ranges outputLen = .ok chunks
      ∧ ∀ range ∈ ranges, ∀ i, range.Contains i → i / buildIdHashGroupLen ∈ chunks := by
  obtain ⟨chunks, hok, -, hchunks⟩ := collectBuildIdChunks_ok hvalid []
  refine ⟨sortDedup chunks, ?_, ?_⟩
  · rw [touchedBuildIdChunks, hok]
    rfl
  · intro range hrange i hi
    rw [mem_sortDedup]
    exact hchunks range hrange i hi

/-- The update accepts a state made from an output of the same length, and leaves the array of
the new output. -/
theorem updateBuildIdHashTree_eq (treeHash : Option Text) (hlen : buildIdHashGroupLen < old.length)
    (hsame : new.length = old.length) (htree : buildIdHashTree H old zeroRange = some tree)
    (hagree : ∀ i, i / buildIdHashGroupLen ∉ chunks →
      (fillZero old zeroRange)[i]? = (fillZero new zeroRange)[i]?) :
    ∃ tree', buildIdHashTree H new zeroRange = some tree'
      ∧ updateBuildIdHashTree H ⟨old.length, tree.length, treeHash⟩ tree new zeroRange chunks
        = (⟨old.length, tree.length, some (H.treeHash tree')⟩, tree', true) := by
  have hnot : ¬ new.length ≤ buildIdHashGroupLen := by omega
  obtain ⟨hl, hr⟩ := split_lt hnot
  have hlpos := leftSubtreeLen_pos new.length
  refine ⟨_, buildIdHashTree_eq (by omega), ?_⟩
  have hcount : some tree.length = buildIdHashNodeCount new.length := by
    rw [hsame]
    exact length_buildIdHashTree hlen htree
  rw [buildIdHashTree_eq hlen, some.injEq, ← hsame] at htree
  -- the left part stands first in the array, the right part behind it
  obtain ⟨_, hleft, -⟩ : ∃ changed, updateBuildIdSubtreeHash H tree 0 new 0
      (leftSubtreeLen new.length) zeroRange chunks
        = (subtreeNodes H (fillZero new zeroRange) 0 (leftSubtreeLen new.length)
          ++ subtreeNodes H (fillZero old zeroRange) (leftSubtreeLen new.length)
            (new.length - leftSubtreeLen new.length), changed) ∧ _ := by
    rw [← htree]
    exact updateBuildIdSubtreeHash_spec 0 (leftSubtreeLen new.length) hlpos (by simp; omega)
      (by omega) (fun i _ _ => hagree i) [] _
  obtain ⟨_, hright, -⟩ := updateBuildIdSubtreeHash_spec (H := H) (leftSubtreeLen new.length)
    (new.length - leftSubtreeLen new.length) (by omega) (by simp; omega) (by omega)
    (fun i _ _ => hagree i)
    (subtreeNodes H (fillZero new zeroRange) 0 (leftSubtreeLen new.length)) []
  rw [length_subtreeNodes hlpos (by simp; omega), append_nil, append_nil] at hright
  rw [updateBuildIdHashTree, if_neg (by simp [hsame]), if_neg (by simp [hcount]),
    if_neg (by simp), if_neg hnot]
  simp only [hleft, hright]

/-- The ID read off the array is the hash of the zeroed output. -/
theorem buildIdFromHashTree_eq (treeHash : Option Text) (hlen : buildIdHashGroupLen < bytes.length)
    (htree : buildIdHashTree H bytes zeroRange = some tree) :
    buildIdFromHashTree H ⟨bytes.length, tree.length, treeHash⟩ tree
      = .ok (H.root 6 (fillZero bytes zeroRange)) := by
  obtain ⟨hl, hr⟩ := split_lt (Nat.not_le.mpr hlen)
  have hlpos := leftSubtreeLen_pos bytes.length
  have hcount := length_buildIdHashTree hlen htree
  rw [buildIdHashTree_eq hlen, some.injEq] at htree
  have hfirst : tree.getD 0 H.zeroNode
      = H.subtree 6 0 (slice (fillZero bytes zeroRange) 0 (leftSubtreeLen bytes.length)) := by
    rw [← htree]
    exact getD_subtreeNodes _ 0 (leftSubtreeLen bytes.length) [] _ _
  have hsecond : tree.getD (buildIdSubtreeNodeCount (leftSubtreeLen bytes.length)) H.zeroNode
      = H.subtree 6 (leftSubtreeLen bytes.length) (slice (fillZero bytes zeroRange)
        (leftSubtreeLen bytes.length) (bytes.length - leftSubtreeLen bytes.length)) := by
    have := getD_subtreeNodes (H := H) (fillZero bytes zeroRange) (leftSubtreeLen bytes.length)
      (bytes.length - leftSubtreeLen bytes.length)
      (subtreeNodes H (fillZero bytes zeroRange) 0 (leftSubtreeLen bytes.length)) [] H.zeroNode
    rwa [length_subtreeNodes hlpos (by simp; omega), append_nil, htree] at this
  have hroot : H.root 6 (fillZero bytes zeroRange)
      = H.mergeRoot (tree.getD 0 H.zeroNode)
        (tree.getD (buildIdSubtreeNodeCount (leftSubtreeLen bytes.length)) H.zeroNode) := by
    rw [hfirst, hsecond, TreeHash.root, length_fillZero]
    congr 2
    rw [slice, take_of_length_le (by simp)]
  rw [buildIdFromHashTree, failIf_neg _ (by simp [hcount]), ok_bind, failIf_neg _ (by simp),
    ok_bind, hroot]
  rfl

/-- Outputs that differ only inside the ranges agree, once zeroed, outside the touched groups. -/
theorem fillZero_agree (hdiff : ∀ i, old[i]? ≠ new[i]? → ∃ range ∈ ranges, range.Contains i)
    (hchunks : ∀ range ∈ ranges, ∀ i, range.Contains i → i / buildIdHashGroupLen ∈ chunks)
    (i : Nat) (hi : i / buildIdHashGroupLen ∉ chunks) :
    (fillZero old zeroRange)[i]? = (fillZero new zeroRange)[i]? := by
  have hsame : old[i]? = new[i]? := by
    by_contra hne
    obtain ⟨range, hrange, hcontains⟩ := hdiff i hne
    exact hi (hchunks range hrange i hcontains)
  rw [getElem?_fillZero, getElem?_fillZero, hsame]

/-- The state and the array kept for an output. -/
structure Tracks (H : BuildIdHasher ν ρ) (output : Bytes) (zeroRange : Interval)
    (state : BuildIdHashState) (tree : List ν) : Prop where
  outputLen : state.outputLen = output.length
  nodes : state.nodes = tree.length
  tree : buildIdHashTree H output zeroRange = some tree

/-- A new output of the same length that differs only inside the ranges is followed. -/
theorem Tracks.update {state : BuildIdHashState} (htracks : Tracks H old zeroRange state tree)
    (hlen : buildIdHashGroupLen < old.length) (hsame : new.length = old.length)
    (hranges : ∀ range ∈ ranges, range.start ≤ range.stop ∧ range.stop ≤ new.length)
    (hdiff : ∀ i, old[i]? ≠ new[i]? → ∃ range ∈ ranges, range.Contains i) :
    ∃ chunks tree', touchedBuildIdChunks ranges new.length = .ok chunks
      ∧ updateBuildIdHashTree H state tree new zeroRange chunks
        = (⟨new.length, tree'.length, some (H.treeHash tree')⟩, tree', true)
      ∧ Tracks H new zeroRange ⟨new.length, tree'.length, some (H.treeHash tree')⟩ tree'
      ∧ buildIdFromHashTree H ⟨new.length, tree'.length, some (H.treeHash tree')⟩ tree'
        = .ok (H.root 6 (fillZero new zeroRange)) := by
  obtain ⟨outputLen, nodes, treeHash⟩ := state
  obtain ⟨rfl, rfl, htree⟩ := htracks
  obtain ⟨chunks, htouched, hchunks⟩ := touchedBuildIdChunks_ok hranges
  obtain ⟨tree', htree', hupdate⟩ := updateBuildIdHashTree_eq treeHash hlen hsame htree
    (fillZero_agree hdiff hchunks)
  have hlen' : buildIdHashGroupLen < new.length := by omega
  have hnodes : tree.length = tree'.length := by
    have := length_buildIdHashTree hlen htree
    rw [← hsame, ← length_buildIdHashTree hlen' htree'] at this
    exact some.inj this
  rw [← hsame, hnodes] at hupdate
  refine ⟨chunks, tree', htouched, ?_, ⟨rfl, rfl, htree'⟩,
    buildIdFromHashTree_eq (some (H.treeHash tree')) hlen' htree'⟩
  rw [← hsame, hnodes, hupdate]

/-! ## 6. The update as a whole -/

variable (H)

/-- **Updating the tree is computing it again.**  Take an output longer than one group, its
array, and a state made for them; let a new output of the same length differ only inside the
changed ranges or the zeroed one, all of which lie in the output.  Then the touched groups are
found, the update accepts them, the array it leaves is that of the new output, and the ID read
off it is the hash of the new output with the range zeroed: over groups, with any leaf function,
and over single chunks when the leaves are themselves hashed chunk by chunk. -/
theorem updated_tree_is_recomputed {old new : Bytes} {zeroRange : Interval}
    {changedRanges : List Interval} (hlen : buildIdHashGroupLen < old.length)
    (hsame : new.length = old.length) (hranges : ∀ range ∈ changedRanges ++ [zeroRange],
      range.start ≤ range.stop ∧ range.stop ≤ new.length)
    (hdiff : ∀ i, old[i]? ≠ new[i]? → ∃ range ∈ changedRanges ++ [zeroRange], range.Contains i) :
    ∃ tree, buildIdHashTree H old zeroRange = some tree ∧ ∀ treeHash,
      ∃ chunks state tree',
        touchedBuildIdChunks (changedRanges ++ [zeroRange]) new.length = .ok chunks
        ∧ updateBuildIdHashTree H ⟨old.length, tree.length, treeHash⟩ tree new zeroRange chunks
          = (state, tree', true)
        ∧ buildIdHashTree H new zeroRange = some tree'
        ∧ state = ⟨new.length, tree'.length, some (H.treeHash tree')⟩
        ∧ buildIdFromHashTree H state tree' = .ok (H.root 6 (fillZero new zeroRange))
        ∧ ∀ blake3 : TreeHash UInt8 ν ρ, H.merge = blake3.merge → H.mergeRoot = blake3.mergeRoot →
          (∀ start input, buildIdHashGroupLen ∣ start → input.length ≤ buildIdHashGroupLen →
            H.leaf start input = blake3.subtree 0 start input) →
          buildIdFromHashTree H state tree' = .ok (blake3.root 0 (fillZero new zeroRange)) := by
  obtain ⟨tree, htree⟩ : ∃ tree, buildIdHashTree H old zeroRange = some tree :=
    ⟨_, buildIdHashTree_eq hlen⟩
  refine ⟨tree, htree, ?_⟩
  intro treeHash
  obtain ⟨chunks, tree', htouched, hupdate, htracks, hid⟩ :=
    (⟨rfl, rfl, htree⟩ : Tracks H old zeroRange ⟨old.length, tree.length, treeHash⟩ tree).update
      hlen hsame hranges hdiff
  refine ⟨chunks, _, tree', htouched, hupdate, htracks.tree, rfl, hid, ?_⟩
  intro blake3 hmerge hmergeRoot hleaf
  rw [hid, TreeHash.root_eq_of_leaf (k := 6) hmerge hmergeRoot hleaf
    (by rw [length_fillZero, hsame]; exact hlen)]

end

/-- An output of two groups, one byte of which is patched and whose zeroed range reaches over the
end of the first group.  The hash only puts the bytes together again. -/
theorem updated_tree_is_recomputed_two_groups :
    let H : BuildIdHasher Bytes Bytes := ⟨⟨fun _ bytes => bytes, (· ++ ·), (· ++ ·)⟩, [],
      fun _ => [], id⟩
    let old : Bytes := replicate 65600 1
    let new : Bytes := old.set 7 2
    ∃ tree, buildIdHashTree H old ⟨65500, 65548⟩ = some tree ∧ ∀ treeHash,
      ∃ chunks state tree',
        touchedBuildIdChunks [⟨5, 9⟩, ⟨65500, 65548⟩] new.length = .ok chunks
        ∧ updateBuildIdHashTree H ⟨old.length, tree.length, treeHash⟩ tree new ⟨65500, 65548⟩
          chunks = (state, tree', true)
        ∧ buildIdHashTree H new ⟨65500, 65548⟩ = some tree'
        ∧ buildIdFromHashTree H state tree' = .ok (H.root 6 (fillZero new ⟨65500, 65548⟩)) := by
  intro H old new
  have hold : old.length = 65600 := length_replicate
  have hnew : new.length = old.length := length_set
  have hdiff : ∀ i, old[i]? ≠ new[i]? →
      ∃ range ∈ [(⟨5, 9⟩ : Interval)] ++ [⟨65500, 65548⟩], range.Contains i := by
    intro i hne
    by_cases hi : i = 7
    · exact ⟨⟨5, 9⟩, mem_cons_self, by subst hi; decide⟩
    · exact absurd (getElem?_set_ne (Ne.symm hi)).symm hne
  have hranges : ∀ range ∈ [(⟨5, 9⟩ : Interval)] ++ [⟨65500, 65548⟩],
      range.start ≤ range.stop ∧ range.stop ≤ new.length := by
    rw [hnew, hold]
    decide
  obtain ⟨tree, htree, hall⟩ := updated_tree_is_recomputed H (by rw [hold]; decide) hnew hranges
    hdiff
  refine ⟨tree, htree, fun treeHash => ?_⟩
  obtain ⟨chunks, state, tree', htouched, hupdate, htree', -, hid, -⟩ := hall treeHash
  exact ⟨chunks, state, tree', htouched, hupdate, htree', hid⟩

end Srs.Incremental
