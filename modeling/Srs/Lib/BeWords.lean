/-
# Big-endian words at an offset of a buffer

Records of big-endian words are written as the concatenation of their fields and read field by
field, each at its offset.  The lemmas step a read over the words in front of it, so that reading a
field of a record that was just written is a matter of `simp`.
-/
import Srs.Lib.LeBytes

namespace Srs.BeWords

open LeBytes List

def be32 (x : UInt32) : Bytes := (leBytes 4 x.toNat).reverse

def be64 (x : UInt64) : Bytes := (leBytes 8 x.toNat).reverse

/-- The big-endian word of 32 bits at `offset`. -/
def be32At (bytes : Bytes) (offset : Nat) : UInt32 :=
  UInt32.ofNat (leValue ((bytes.drop offset).take 4).reverse)

@[simp] theorem length_be32 (x : UInt32) : (be32 x).length = 4 := by simp [be32]

@[simp] theorem length_be64 (x : UInt64) : (be64 x).length = 8 := by simp [be64]

@[simp] theorem be32At_be32 (x : UInt32) (bytes : Bytes) : be32At (be32 x ++ bytes) 0 = x := by
  have htake : ((be32 x ++ bytes).drop 0).take 4 = be32 x := by
    rw [List.drop_zero, ← length_be32 x, take_left]
  have hlt : x.toNat < 2 ^ (8 * 4) := x.toNat_lt
  rw [be32At, htake, be32, reverse_reverse, leValue_leBytes, Nat.mod_eq_of_lt hlt,
    UInt32.ofNat_toNat]

/-- A read steps over a word in front of it. -/
theorem be32At_step (x : UInt32) (bytes : Bytes) (offset : Nat) :
    be32At (be32 x ++ bytes) (offset + 4) = be32At bytes offset := by
  have hdrop : (be32 x ++ bytes).drop (offset + 4) = bytes.drop offset := by
    rw [← length_be32 x, Nat.add_comm, ← drop_drop, drop_left]
  rw [be32At, hdrop, be32At]

end Srs.BeWords
