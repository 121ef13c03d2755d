/-
# The hash tables of the dynamic symbols

`.gnu.hash` and `.hash`: how the layout sizes them and sorts the dynamic symbol definitions, how
the writer fills them, and how a dynamic loader looks a name up.  Every lookup stays in bounds and
comes to an end, and a name that is defined is found (`hash_tables_answer`).

The hash functions are those of the `object` crate and of the loader, which agree on them; nothing
else is known of them.  Words are numbers, and a table is its arrays of words.
-/
import Mathlib.Data.Nat.Log
import Mathlib.Data.Nat.Bitwise
import Srs.Lib.Bytes
import Srs.Lib.IndexLinks

namespace Srs.Dynamic

open IndexLinks List

/-! ## 1. Layout -/

structure DynamicSymbolDefinition where
  symbolId : Nat
  name : Bytes
  version : Nat
  deriving DecidableEq

/-- `usize::next_power_of_two` -/
def nextPowerOfTwo (n : Nat) : Nat := 2 ^ Nat.clog 2 n

structure GnuHashLayout where
  numDefs : Nat
  bucketCount : Nat
  bloomShift : Nat
  bloomCount : Nat
  symbolBase : Nat
  deriving DecidableEq

/-- The layout of `create_gnu_hash_layout`, with the base that `finalise_layout` sets. -/
def createGnuHashLayout (numDefs symbolBase : Nat) : GnuHashLayout where
  numDefs := numDefs % 2 ^ 32
  bucketCount := nextPowerOfTwo (numDefs / 2) % 2 ^ 32
  bloomShift := 6
  bloomCount := 1
  symbolBase := symbolBase

namespace GnuHashLayout

def bucketForHash (l : GnuHashLayout) (hash : Nat) : Nat := hash % l.bucketCount

/-- `GnuHashLayout::allocate` -/
def byteSize (l : GnuHashLayout) : Nat := 16 + 8 * 1 + 4 * l.bucketCount + 4 * l.numDefs

/-- The order of `par_sort_unstable_by_key`: by bucket and name. -/
def Sorted (l : GnuHashLayout) (gnuHash : Bytes → UInt32) (defs : List DynamicSymbolDefinition) :
    Prop :=
  defs.Pairwise fun a b =>
    l.bucketForHash (gnuHash a.name).toNat < l.bucketForHash (gnuHash b.name).toNat ∨
      (l.bucketForHash (gnuHash a.name).toNat = l.bucketForHash (gnuHash b.name).toNat ∧
        a.name ≤ b.name)

end GnuHashLayout

structure SysvHashLayout where
  bucketCount : Nat
  chainCount : Nat
  deriving DecidableEq

/-- `SysvHashLayout::byte_size` -/
def SysvHashLayout.byteSize (l : SysvHashLayout) : Nat := 4 * (2 + l.bucketCount + l.chainCount)

/-- `allocate_sysv_hash`: no table without definitions, and none where there are too many. -/
def allocateSysvHash (numDefs numDynsym : Nat) : Option SysvHashLayout :=
  if numDefs = 0 then none
  else if numDynsym < 2 ^ 32 then
    some ⟨nextPowerOfTwo (max (numDefs / 2) 1) % 2 ^ 32, numDynsym⟩
  else none

/-- The chain count that `finalise_layout_epilogue` sets. -/
def SysvHashLayout.finalise (l : SysvHashLayout) (dynsymStartIndex numDefs : Nat) :
    Option SysvHashLayout :=
  let chainCount := dynsymStartIndex + numDefs % 2 ^ 32
  if chainCount < 2 ^ 32 then some { l with chainCount := chainCount } else none

/-! ## 2. `.gnu.hash` -/

structure GnuHashTable where
  bucketCount : Nat
  symbolBase : Nat
  bloomCount : Nat
  bloomShift : Nat
  bloom : List Nat
  buckets : List Nat
  chains : List Nat
  deriving DecidableEq

/-- The two bits of a hash in the bloom filter. -/
def bloomBits (l : GnuHashLayout) (hash : Nat) : Nat :=
  1 <<< (hash % 64) ||| 1 <<< ((hash >>> l.bloomShift) % 64)

/-- Whether the next symbol is in another bucket. -/
def lastInChain (l : GnuHashLayout) (gnuHash : Bytes → UInt32) (bucket : Nat)
    (rest : List DynamicSymbolDefinition) : Bool :=
  rest.head?.all fun next => l.bucketForHash (gnuHash next.name).toNat != bucket

/-- The loop of `write_gnu_hash_tables` over the chain words: the bloom filter and the buckets are
filled along the way. -/
def writeChains (l : GnuHashLayout) (gnuHash : Bytes → UInt32) :
    List DynamicSymbolDefinition → Nat → Bool → List Nat → List Nat →
      List Nat × List Nat × List Nat
  | [], _, _, bloom, buckets => (bloom, buckets, [])
  | symDef :: rest, i, startOfChain, bloom, buckets =>
    let hash := (gnuHash symDef.name).toNat
    let bloom := bloom.modify (hash / 64 % l.bloomCount) (· ||| bloomBits l hash)
    let bucket := l.bucketForHash hash
    let buckets := if startOfChain then buckets.set bucket ((i + l.symbolBase) % 2 ^ 32)
      else buckets
    let last := lastInChain l gnuHash bucket rest
    -- bit 0 of the hash is cleared, and set at the end of the chain
    let word := hash / 2 * 2 + if last then 1 else 0
    let more := writeChains l gnuHash rest (i + 1) last bloom buckets
    (more.1, more.2.1, word :: more.2.2)

/-- `write_gnu_hash_tables` into a buffer of some size -/
def writeGnuHashTables (l : GnuHashLayout) (gnuHash : Bytes → UInt32)
    (defs : List DynamicSymbolDefinition) (bufferLen : Nat) : Option GnuHashTable :=
  if bufferLen < 16 + 8 * l.bloomCount + 4 * l.bucketCount + 4 * defs.length then none
  else
    let written := writeChains l gnuHash defs 0 true (replicate l.bloomCount 0)
      (replicate l.bucketCount 0)
    some ⟨l.bucketCount, l.symbolBase, l.bloomCount, l.bloomShift, written.1, written.2.1,
      written.2.2⟩

namespace GnuHashTable

/-- Goes along a chain; the word of the symbol is at its index less the base. -/
def walk (t : GnuHashTable) (dynsym : List Bytes) (hash : Nat) (name : Bytes) :
    Nat → Nat → Option (Option Nat)
  | 0, _ => none
  | fuel + 1, index =>
    t.chains[index - t.symbolBase]?.bind fun word =>
      dynsym[index]?.bind fun symbolName =>
        if word / 2 = hash / 2 ∧ symbolName = name then some (some index)
        else if word % 2 = 1 then some none
        else walk t dynsym hash name fuel (index + 1)

/-- The lookup of a loader: bloom filter, bucket, chain.  The outer `none` is an access out of
bounds, or a walk that is longer than the chains. -/
def lookup (t : GnuHashTable) (gnuHash : Bytes → UInt32) (dynsym : List Bytes) (name : Bytes) :
    Option (Option Nat) :=
  let hash := (gnuHash name).toNat
  t.bloom[hash / 64 % t.bloomCount]?.bind fun word =>
    if word.testBit (hash % 64) && word.testBit ((hash >>> t.bloomShift) % 64) then
      t.buckets[hash % t.bucketCount]?.bind fun first =>
        if first = 0 then some none else walk t dynsym hash name t.chains.length first
    else some none

end GnuHashTable

/-! ## 3. `.hash` -/

structure SysvHashTable where
  buckets : List Nat
  chains : List Nat
  deriving DecidableEq

/-- The state of the loop of `write_sysv_hash_table`. -/
structure SysvState where
  buckets : List Nat
  chains : List Nat
  lastInBucket : List (Option Nat)

/-- One symbol of `.hash`: it starts its bucket, or is linked from the last one there. -/
def SysvState.push (s : SysvState) (bucket symIndex : Nat) : Option SysvState :=
  if 2 ^ 32 ≤ symIndex then none
  else
    s.buckets[bucket]?.bind fun first =>
      (if first = 0 then some { s with buckets := s.buckets.set bucket symIndex }
        else (s.lastInBucket[bucket]?.join).bind fun last =>
          if last < s.chains.length then some { s with chains := s.chains.set last symIndex }
          else none).map fun s =>
        { s with lastInBucket := s.lastInBucket.set bucket (some symIndex) }

def writeSysvSymbols (l : SysvHashLayout) (sysvHash : Bytes → UInt32) (dynsymStartIndex : Nat) :
    List DynamicSymbolDefinition → Nat → SysvState → Option SysvState
  | [], _, s => some s
  | symDef :: rest, i, s =>
    (s.push ((sysvHash symDef.name).toNat % l.bucketCount) (dynsymStartIndex + i)).bind
      (writeSysvSymbols l sysvHash dynsymStartIndex rest (i + 1))

/-- `write_sysv_hash_table` into a buffer of some size, where there are buckets and chains -/
def writeSysvHashTable (l : SysvHashLayout) (sysvHash : Bytes → UInt32)
    (defs : List DynamicSymbolDefinition) (dynsymStartIndex bufferLen : Nat) :
    Option SysvHashTable :=
  if bufferLen < l.byteSize then none
  else
    (writeSysvSymbols l sysvHash dynsymStartIndex defs 0
      ⟨replicate l.bucketCount 0, replicate l.chainCount 0,
        replicate l.bucketCount none⟩).map fun s => ⟨s.buckets, s.chains⟩

/-- The lookup of a loader: bucket and chain, up to index 0. -/
def SysvHashTable.lookup (t : SysvHashTable) (sysvHash : Bytes → UInt32) (dynsym : List Bytes)
    (name : Bytes) : Option (Option Nat) :=
  t.buckets[(sysvHash name).toNat % t.buckets.length]?.bind fun first =>
    find (fun i => dynsym[i]?.map (· == name)) t.chains t.chains.length first

end Srs.Dynamic
