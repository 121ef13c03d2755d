/-
# Lookups in the hash tables

The invariants of the two writers.  In `.hash` the links from a bucket go over the symbols of that
bucket in their order (`SysvState.Inv`); in `.gnu.hash` a bucket has the index of its first symbol
(`writeChains_buckets`), from where the chain goes on to the first symbol of another bucket.
-/
import Srs.Dynamic.HashTables

namespace Srs.Dynamic

open IndexLinks List Option Nat Function SysvState

/-! ## 1. The symbols of a bucket -/

/-- The indices of the symbols in a bucket. -/
def indicesIn (bucketOf : DynamicSymbolDefinition → Nat) (bucket : Nat) :
    List DynamicSymbolDefinition → Nat → List Nat
  | [], _ => []
  | d :: rest, i =>
    if bucketOf d = bucket then i :: indicesIn bucketOf bucket rest (i + 1)
    else indicesIn bucketOf bucket rest (i + 1)

section

variable {bucketOf : DynamicSymbolDefinition → Nat} {bucket : Nat}

theorem mem_indicesIn {defs : List DynamicSymbolDefinition} {start i : Nat} :
    i ∈ indicesIn bucketOf bucket defs start
      ↔ ∃ j d, defs[j]? = some d ∧ bucketOf d = bucket ∧ i = start + j := by
  induction defs generalizing start with
  | nil => simp [indicesIn]
  | cons d rest ih =>
    have hsplit : (∃ j e, (d :: rest)[j]? = some e ∧ bucketOf e = bucket ∧ i = start + j)
        ↔ (bucketOf d = bucket ∧ i = start) ∨
          ∃ j e, rest[j]? = some e ∧ bucketOf e = bucket ∧ i = start + 1 + j := by
      constructor
      · rintro ⟨j, e, he, hb, rfl⟩
        cases j with
        | zero =>
          obtain rfl : d = e := some.inj he
          exact Or.inl ⟨hb, rfl⟩
        | succ j => exact Or.inr ⟨j, e, he, hb, by omega⟩
      · rintro (⟨hb, rfl⟩ | ⟨j, e, he, hb, rfl⟩)
        · exact ⟨0, d, rfl, hb, rfl⟩
        · exact ⟨j + 1, e, he, hb, by omega⟩
    rw [hsplit, ← ih, indicesIn]
    split
    · next hb => simp [hb]
    · next hb => simp [hb]

theorem length_indicesIn_le (bucketOf : DynamicSymbolDefinition → Nat) (bucket : Nat)
    (defs : List DynamicSymbolDefinition) (start : Nat) :
    (indicesIn bucketOf bucket defs start).length ≤ defs.length := by
  induction defs generalizing start with
  | nil => exact le_refl 0
  | cons d rest ih =>
    rw [indicesIn]
    split
    · exact succ_le_succ (ih (start + 1))
    · exact le_succ_of_le (ih (start + 1))

end

/-- The names of the dynamic symbols: the definitions come last. -/
def dynsymNames (before : List Bytes) (defs : List DynamicSymbolDefinition) : List Bytes :=
  before ++ defs.map (·.name)

theorem dynsymNames_add (before : List Bytes) (defs : List DynamicSymbolDefinition) (j : Nat) :
    (dynsymNames before defs)[before.length + j]? = defs[j]?.map (·.name) := by
  rw [dynsymNames, getElem?_append_right (Nat.le_add_right _ j), Nat.add_sub_cancel_left,
    getElem?_map]

/-- A lookup for any name stays in bounds and ends; what it returns has the name, and it returns
something for every name that is defined. -/
def Answers (lookup : Bytes → Option (Option Nat)) (dynsym : List Bytes)
    (defs : List DynamicSymbolDefinition) : Prop :=
  ∀ name, ∃ found, lookup name = some found ∧
    (∀ i, found = some i → dynsym[i]? = some name) ∧
    ((∃ d ∈ defs, d.name = name) → found.isSome)

/-! ## 2. The state of the `.hash` writer -/

/-- The links from each bucket go over the indices that were put there so far. -/
structure SysvState.Inv (s : SysvState) (bucketCount chainCount next : Nat)
    (indices : Nat → List Nat) : Prop where
  buckets_length : s.buckets.length = bucketCount
  last_length : s.lastInBucket.length = bucketCount
  chains_length : s.chains.length = chainCount
  linked : ∀ b x, s.buckets[b]? = some x → Linked s.chains x (indices b)
  last : ∀ b, b < bucketCount → s.lastInBucket[b]? = some (indices b).getLast?
  bound : ∀ b, ∀ i ∈ indices b, 0 < i ∧ i < next
  nodup : ∀ b, (indices b).Nodup
  apart : ∀ b c i, i ∈ indices b → i ∈ indices c → b = c
  unlinked : ∀ i, next ≤ i → i < chainCount → s.chains[i]? = some 0

theorem SysvState.Inv.init (bucketCount chainCount next : Nat) :
    Inv ⟨replicate bucketCount 0, replicate chainCount 0,
      replicate bucketCount none⟩ bucketCount chainCount next (fun _ => []) where
  buckets_length := length_replicate
  last_length := length_replicate
  chains_length := length_replicate
  linked b x hx := eq_of_mem_replicate (mem_of_getElem? hx)
  last b hb := by
    rw [getElem?_replicate, if_pos hb]
    rfl
  bound b i hi := absurd hi not_mem_nil
  nodup b := nodup_nil
  apart b c i hi := absurd hi not_mem_nil
  unlinked i _ hi := by rw [getElem?_replicate, if_pos hi]

section

variable {s : SysvState} {bucketCount chainCount next : Nat} {indices : Nat → List Nat}

/-- What does not depend on how the new symbol is linked. -/
theorem SysvState.Inv.push_of_linked (h : s.Inv bucketCount chainCount next indices) {b : Nat}
    (hb : b < bucketCount) (hpos : 0 < next) {buckets chains : List Nat}
    (hbuckets : buckets.length = bucketCount) (hchains : chains.length = chainCount)
    (hlinked : ∀ c x, buckets[c]? = some x →
      Linked chains x (update indices b (indices b ++ [next]) c))
    (hunlinked : ∀ i, next + 1 ≤ i → i < chainCount → chains[i]? = some 0) :
    Inv ⟨buckets, chains, s.lastInBucket.set b (some next)⟩ bucketCount chainCount
      (next + 1) (update indices b (indices b ++ [next])) := by
  have hold : ∀ c, ∀ i ∈ indices c, i < next := fun c i hi => (h.bound c i hi).2
  -- a new index is the next one
  have hmem : ∀ c i, i ∈ update indices b (indices b ++ [next]) c →
      i ∈ indices c ∨ (c = b ∧ i = next) := by
    intro c i hi
    by_cases hc : c = b
    · subst hc
      rw [update_self, mem_append, mem_singleton] at hi
      exact hi.imp_right fun h => ⟨rfl, h⟩
    · rw [update_of_ne hc] at hi
      exact Or.inl hi
  constructor
  · exact hbuckets
  · rw [length_set]
    exact h.last_length
  · exact hchains
  · exact hlinked
  · intro c hc
    by_cases hcb : c = b
    · subst hcb
      rw [getElem?_set_self (by rw [h.last_length]; exact hc), update_self,
        getLast?_concat]
    · rw [getElem?_set_ne (Ne.symm hcb), update_of_ne hcb]
      exact h.last c hc
  · intro c i hi
    rcases hmem c i hi with hi | ⟨-, rfl⟩
    · have := h.bound c i hi
      omega
    · omega
  · intro c
    by_cases hcb : c = b
    · subst hcb
      rw [update_self]
      refine nodup_append.mpr ⟨h.nodup c, pairwise_singleton _ next, ?_⟩
      intro i hi j hj
      rw [mem_singleton.mp hj]
      exact Nat.ne_of_lt (hold c i hi)
    · rw [update_of_ne hcb]
      exact h.nodup c
  · intro c d i hc hd
    rcases hmem c i hc with hc | ⟨hcb, hi⟩
    · rcases hmem d i hd with hd | ⟨-, hi⟩
      · exact h.apart c d i hc hd
      · exact absurd hi (Nat.ne_of_lt (hold c i hc))
    · rcases hmem d i hd with hd | ⟨hdb, -⟩
      · exact absurd hi (Nat.ne_of_lt (hold d i hd))
      · exact hcb.trans hdb.symm
  · exact hunlinked

/-- **One more symbol** in a bucket. -/
theorem SysvState.Inv.push (h : s.Inv bucketCount chainCount next indices) {b : Nat}
    (hb : b < bucketCount) (hpos : 0 < next) (hlt : next < chainCount) (h32 : next < 2 ^ 32) :
    ∃ s', s.push b next = some s' ∧
      s'.Inv bucketCount chainCount (next + 1)
        (update indices b (indices b ++ [next])) := by
  have hbl : b < s.buckets.length := by rw [h.buckets_length]; exact hb
  have hfirst : s.buckets[b]? = some s.buckets[b] := getElem?_eq_getElem hbl
  have hlinked := h.linked b _ hfirst
  have hend : s.chains[next]? = some 0 := h.unlinked next (le_refl next) hlt
  unfold SysvState.push
  rw [if_neg (not_le.mpr h32), hfirst, bind_some]
  rcases eq_nil_or_concat (indices b) with hempty | ⟨pre, last, hconcat⟩
  · -- the first symbol of its bucket
    rw [hempty] at hlinked
    rw [if_pos (show s.buckets[b] = 0 from hlinked), map_some]
    refine ⟨_, rfl, h.push_of_linked hb hpos ?_ h.chains_length ?_ ?_⟩
    · rw [length_set]
      exact h.buckets_length
    · intro c x hx
      by_cases hcb : c = b
      · subst hcb
        rw [getElem?_set_self hbl] at hx
        cases hx
        rw [update_self, hempty]
        exact ⟨rfl, hpos, 0, hend, rfl⟩
      · rw [getElem?_set_ne (Ne.symm hcb)] at hx
        rw [update_of_ne hcb]
        exact h.linked c x hx
    · exact fun i hi => h.unlinked i (le_of_succ_le hi)
  · -- linked from the last one
    rw [concat_eq_append] at hconcat
    have hmem : last ∈ indices b := by
      rw [hconcat]
      exact mem_append_right pre mem_cons_self
    have hbound := h.bound b last hmem
    have hne : s.buckets[b] ≠ 0 := by
      rw [hconcat] at hlinked
      cases pre with
      | nil => exact hlinked.1 ▸ ne_of_gt hlinked.2.1
      | cons i pre => exact hlinked.1 ▸ ne_of_gt hlinked.2.1
    have hlast := h.last b hb
    rw [hconcat, getLast?_concat] at hlast
    have hlastLt : last < s.chains.length := by
      rw [h.chains_length]
      omega
    rw [if_neg hne, hlast, join_some, bind_some, if_pos hlastLt, map_some]
    refine ⟨_, rfl, h.push_of_linked hb hpos h.buckets_length ?_ ?_ ?_⟩
    · rw [length_set]
      exact h.chains_length
    · intro c x hx
      by_cases hcb : c = b
      · subst hcb
        obtain rfl : s.buckets[c] = x := some.inj (hfirst.symm.trans hx)
        rw [update_self]
        have hnodup := h.nodup c
        rw [hconcat] at hlinked hnodup ⊢
        refine hlinked.concat ?_ hpos (by omega) hend
        exact fun hin => (nodup_append.mp hnodup).2.2 last hin last mem_cons_self rfl
      · rw [update_of_ne hcb]
        exact (h.linked c x hx).set (fun hin => hcb (h.apart c b last hin hmem)) next
    · intro i hi hlt
      rw [getElem?_set_ne (by omega)]
      exact h.unlinked i (by omega) hlt

end

/-- **All the symbols**: each bucket gets the indices of its symbols after those it has. -/
theorem writeSysvSymbols_inv {l : SysvHashLayout} (sysvHash : Bytes → UInt32) {start : Nat}
    (defs : List DynamicSymbolDefinition) {i : Nat} {s : SysvState} {indices : Nat → List Nat}
    (h : s.Inv l.bucketCount l.chainCount (start + i) indices) (hbuckets : 0 < l.bucketCount)
    (hstart : 0 < start) (hcount : start + i + defs.length ≤ l.chainCount)
    (hchains : l.chainCount ≤ 2 ^ 32) :
    ∃ s', writeSysvSymbols l sysvHash start defs i s = some s' ∧
      s'.Inv l.bucketCount l.chainCount (start + i + defs.length) fun b =>
        indices b ++
          indicesIn (fun d => (sysvHash d.name).toNat % l.bucketCount) b defs (start + i) := by
  induction defs generalizing i s indices with
  | nil =>
    refine ⟨s, rfl, ?_⟩
    simpa only [indicesIn, append_nil, length_nil, add_zero] using h
  | cons d rest ih =>
    rw [length_cons] at hcount
    have hbucket : (sysvHash d.name).toNat % l.bucketCount < l.bucketCount :=
      mod_lt _ hbuckets
    obtain ⟨s₁, hpush, hinv⟩ := h.push hbucket (by omega) (by omega) (by omega)
    obtain ⟨s₂, hrest, hinv₂⟩ := ih (i := i + 1) hinv (by omega)
    refine ⟨s₂, ?_, ?_⟩
    · rw [writeSysvSymbols, hpush, bind_some]
      exact hrest
    · rw [length_cons, show start + i + (rest.length + 1) = start + (i + 1) + rest.length by
        omega]
      convert hinv₂ using 1
      funext b
      by_cases hb : (sysvHash d.name).toNat % l.bucketCount = b
      · subst hb
        rw [indicesIn, if_pos rfl, update_self, List.append_assoc]
        rfl
      · rw [indicesIn, if_neg hb, update_of_ne (Ne.symm hb)]
        rfl

theorem writeSysvHashTable_answers {l : SysvHashLayout} (sysvHash : Bytes → UInt32)
    (defs : List DynamicSymbolDefinition) (before : List Bytes) (hbuckets : 0 < l.bucketCount)
    (hbefore : 0 < before.length) (hcount : l.chainCount = before.length + defs.length)
    (hchains : l.chainCount ≤ 2 ^ 32) :
    ∃ t, writeSysvHashTable l sysvHash defs before.length l.byteSize = some t ∧
      Answers (t.lookup sysvHash (dynsymNames before defs)) (dynsymNames before defs) defs := by
  obtain ⟨s, hwritten, hinv⟩ := writeSysvSymbols_inv sysvHash defs
    (Inv.init l.bucketCount l.chainCount (before.length + 0)) hbuckets
    hbefore (by omega) hchains
  refine ⟨⟨s.buckets, s.chains⟩, ?_, ?_⟩
  · rw [writeSysvHashTable, if_neg (lt_irrefl _), hwritten]
    rfl
  · intro name
    have hbucket : (sysvHash name).toNat % s.buckets.length < s.buckets.length := by
      rw [hinv.buckets_length]
      exact mod_lt _ hbuckets
    have hfirst := getElem?_eq_getElem hbucket
    have hlinked := hinv.linked _ _ hfirst
    rw [nil_append, add_zero] at hlinked
    -- the loader's test succeeds on the indices of the symbols with the name
    have htest : ∀ i ∈ indicesIn (fun d => (sysvHash d.name).toNat % l.bucketCount)
        ((sysvHash name).toNat % s.buckets.length) defs before.length,
        (dynsymNames before defs)[i]?.map (· == name)
          = some ((dynsymNames before defs)[i]? == some name) := by
      intro i hi
      obtain ⟨j, d, hd, -, rfl⟩ := mem_indicesIn.mp hi
      rw [dynsymNames_add, hd]
      rfl
    have hfuel : (indicesIn (fun d => (sysvHash d.name).toNat % l.bucketCount)
        ((sysvHash name).toNat % s.buckets.length) defs before.length).length
          ≤ s.chains.length := by
      rw [hinv.chains_length, hcount]
      exact le_trans (length_indicesIn_le _ _ defs before.length) (le_add_left _ _)
    have hfind := find_eq hlinked htest hfuel
    rw [← bind_some (f := find _ _ _), ← hfirst] at hfind
    refine ⟨_, hfind, ?_, ?_⟩
    · intro i hi
      have hname := find?_some hi
      exact beq_iff_eq.mp hname
    · rintro ⟨d, hd, rfl⟩
      obtain ⟨j, hj⟩ := mem_iff_getElem?.mp hd
      rw [find?_isSome]
      refine ⟨before.length + j, mem_indicesIn.mpr ⟨j, d, hj, ?_, rfl⟩, ?_⟩
      · rw [hinv.buckets_length]
      · rw [dynsymNames_add, hj]
        exact beq_self_eq_true _

/-! ## 3. The loop of the `.gnu.hash` writer -/

section

variable {l : GnuHashLayout} {gnuHash : Bytes → UInt32}

/-- The bucket of a symbol. -/
def bucketOfDef (l : GnuHashLayout) (gnuHash : Bytes → UInt32) (d : DynamicSymbolDefinition) :
    Nat :=
  l.bucketForHash (gnuHash d.name).toNat

/-- The symbols of a bucket are next to each other. -/
def Grouped (l : GnuHashLayout) (gnuHash : Bytes → UInt32) (defs : List DynamicSymbolDefinition) :
    Prop :=
  defs.Pairwise fun a b => bucketOfDef l gnuHash a ≤ bucketOfDef l gnuHash b

variable {defs : List DynamicSymbolDefinition} {d : DynamicSymbolDefinition}
  {rest : List DynamicSymbolDefinition} {b i : Nat} {start : Bool} {bloom buckets : List Nat}
  {k : Nat} {t : GnuHashTable} {sorted : List DynamicSymbolDefinition}

theorem GnuHashLayout.Sorted.grouped (h : l.Sorted gnuHash defs) : Grouped l gnuHash defs := by
  refine List.Pairwise.imp ?_ h
  rintro a b (hlt | ⟨heq, -⟩)
  · exact le_of_lt hlt
  · exact le_of_eq heq

/-- After the last symbol of a chain its bucket does not come up again. -/
theorem Grouped.ne_of_last (h : Grouped l gnuHash (d :: rest))
    (hlast : lastInChain l gnuHash (bucketOfDef l gnuHash d) rest = true) :
    ∀ e ∈ rest, bucketOfDef l gnuHash e ≠ bucketOfDef l gnuHash d := by
  intro e he heq
  obtain ⟨hle, hrest⟩ := pairwise_cons.mp h
  cases rest with
  | nil => exact absurd he not_mem_nil
  | cons next rest =>
    have hne : bucketOfDef l gnuHash next ≠ bucketOfDef l gnuHash d := by
      simpa [lastInChain, bucketOfDef] using hlast
    have hnext := hle next mem_cons_self
    rcases mem_cons.mp he with rfl | he
    · exact hne heq
    · have := (pairwise_cons.mp hrest).1 e he
      omega

/-- Otherwise the next symbol is in the same bucket. -/
theorem next_of_not_last (hlast : lastInChain l gnuHash b rest = false) :
    ∃ next more, rest = next :: more ∧ bucketOfDef l gnuHash next = b := by
  cases rest with
  | nil => exact Bool.noConfusion hlast
  | cons next more => exact ⟨next, more, rfl, by simpa [lastInChain, bucketOfDef] using hlast⟩

/-- The words of the chains. -/
def chainWords (l : GnuHashLayout) (gnuHash : Bytes → UInt32) :
    List DynamicSymbolDefinition → List Nat
  | [] => []
  | d :: rest =>
    ((gnuHash d.name).toNat / 2 * 2
      + if lastInChain l gnuHash (bucketOfDef l gnuHash d) rest then 1 else 0)
      :: chainWords l gnuHash rest

theorem length_chainWords (defs : List DynamicSymbolDefinition) :
    (chainWords l gnuHash defs).length = defs.length := by
  induction defs with
  | nil => rfl
  | cons d rest ih => rw [chainWords, length_cons, ih, length_cons]

theorem writeChains_words (defs : List DynamicSymbolDefinition) (i : Nat) (start : Bool)
    (bloom buckets : List Nat) :
    (writeChains l gnuHash defs i start bloom buckets).2.2 = chainWords l gnuHash defs := by
  induction defs generalizing i start bloom buckets with
  | nil => rfl
  | cons d rest ih =>
    rw [writeChains, chainWords, ih]
    rfl

/-! ### The bloom filter -/

theorem writeChains_bloom_length (defs : List DynamicSymbolDefinition) (i : Nat) (start : Bool)
    (bloom buckets : List Nat) :
    (writeChains l gnuHash defs i start bloom buckets).1.length = bloom.length := by
  induction defs generalizing i start bloom buckets with
  | nil => rfl
  | cons d rest ih => rw [writeChains, ih, length_modify]

/-- A bit that is set stays. -/
theorem writeChains_bloom_mono {word bit : Nat} (hword : bloom[k]? = some word)
    (hbit : word.testBit bit = true) :
    ∃ word', (writeChains l gnuHash defs i start bloom buckets).1[k]? = some word' ∧
      word'.testBit bit = true := by
  induction defs generalizing i start bloom buckets word with
  | nil => exact ⟨word, hword, hbit⟩
  | cons d rest ih =>
    rw [writeChains]
    by_cases hk : (gnuHash d.name).toNat / 64 % l.bloomCount = k
    · have hset : (bloom.modify ((gnuHash d.name).toNat / 64 % l.bloomCount)
          (· ||| bloomBits l (gnuHash d.name).toNat))[k]?
            = some (word ||| bloomBits l (gnuHash d.name).toNat) := by
        simp [hk, hword]
      refine ih hset ?_
      rw [testBit_or, hbit, Bool.true_or]
    · refine ih ?_ hbit
      rw [getElem?_modify_ne _ _ hk]
      exact hword

/-- **The bits of every symbol are set.** -/
theorem writeChains_bloom (hpos : 0 < l.bloomCount) (hlen : bloom.length = l.bloomCount)
    (hd : d ∈ defs) {bit : Nat}
    (hbit : (bloomBits l (gnuHash d.name).toNat).testBit bit = true) :
    ∃ word, (writeChains l gnuHash defs i start bloom buckets).1[
        (gnuHash d.name).toNat / 64 % l.bloomCount]? = some word ∧ word.testBit bit = true := by
  induction defs generalizing i start bloom buckets with
  | nil => exact absurd hd not_mem_nil
  | cons e rest ih =>
    rw [writeChains]
    rcases mem_cons.mp hd with rfl | hd
    · have hk : (gnuHash d.name).toNat / 64 % l.bloomCount < bloom.length := by
        rw [hlen]
        exact mod_lt _ hpos
      have hset : (bloom.modify ((gnuHash d.name).toNat / 64 % l.bloomCount)
          (· ||| bloomBits l (gnuHash d.name).toNat))[(gnuHash d.name).toNat / 64 % l.bloomCount]?
            = some (bloom[(gnuHash d.name).toNat / 64 % l.bloomCount]
              ||| bloomBits l (gnuHash d.name).toNat) := by
        simp [getElem?_eq_getElem hk]
      refine writeChains_bloom_mono hset ?_
      rw [testBit_or, hbit, Bool.or_true]
    · exact ih (by rw [length_modify]; exact hlen) hd

theorem testBit_bloomBits_low (hash : Nat) : (bloomBits l hash).testBit (hash % 64) = true := by
  rw [bloomBits, testBit_or, one_shiftLeft, testBit_two_pow_self, Bool.true_or]

theorem testBit_bloomBits_high (hash : Nat) :
    (bloomBits l hash).testBit ((hash >>> l.bloomShift) % 64) = true := by
  rw [bloomBits, testBit_or, one_shiftLeft (_ % 64), one_shiftLeft,
    testBit_two_pow_self, Bool.or_true]

/-! ### The buckets -/

/-- A bucket without symbols is not written. -/
theorem writeChains_buckets_of_ne (h : ∀ d ∈ defs, bucketOfDef l gnuHash d ≠ b) :
    (writeChains l gnuHash defs i start bloom buckets).2.1[b]? = buckets[b]? := by
  induction defs generalizing i start bloom buckets with
  | nil => rfl
  | cons d rest ih =>
    rw [writeChains, ih fun e he => h e (mem_cons_of_mem d he)]
    cases start with
    | false => rfl
    | true =>
      have hne : l.bucketForHash (gnuHash d.name).toNat ≠ b := h d mem_cons_self
      rw [if_pos rfl, getElem?_set_ne hne]

/-- In the middle of a chain its bucket is not written. -/
theorem writeChains_buckets_middle
    (h : Grouped l gnuHash (d :: rest)) (hd : bucketOfDef l gnuHash d = b) :
    (writeChains l gnuHash (d :: rest) i false bloom buckets).2.1[b]? = buckets[b]? := by
  subst hd
  induction rest generalizing d i bloom with
  | nil => rfl
  | cons next rest ih =>
    rw [writeChains]
    cases hlast : lastInChain l gnuHash (bucketOfDef l gnuHash d) (next :: rest) with
    | true => exact writeChains_buckets_of_ne (h.ne_of_last hlast)
    | false =>
      obtain ⟨next', rest', hcons, hbucket⟩ := next_of_not_last hlast
      cases hcons
      change (writeChains l gnuHash (next :: rest) (i + 1)
        (lastInChain l gnuHash (bucketOfDef l gnuHash d) (next :: rest)) _ buckets).2.1[_]? = _
      rw [hlast, ← hbucket]
      exact ih (pairwise_cons.mp h).2

/-- **A bucket has the index of its first symbol.** -/
theorem writeChains_buckets
    {before after : List DynamicSymbolDefinition} (h : Grouped l gnuHash (before ++ d :: after))
    (hbefore : ∀ e ∈ before, bucketOfDef l gnuHash e ≠ bucketOfDef l gnuHash d)
    (hstart : before = [] → start = true) (hlt : bucketOfDef l gnuHash d < buckets.length) :
    (writeChains l gnuHash (before ++ d :: after) i start bloom buckets).2.1[
        bucketOfDef l gnuHash d]?
      = some ((i + before.length + l.symbolBase) % 2 ^ 32) := by
  induction before generalizing i start bloom buckets with
  | nil =>
    rw [hstart rfl, nil_append, writeChains]
    have hset : (buckets.set (bucketOfDef l gnuHash d) ((i + l.symbolBase) % 2 ^ 32))[
        bucketOfDef l gnuHash d]? = some ((i + l.symbolBase) % 2 ^ 32) :=
      getElem?_set_self hlt
    cases hlast : lastInChain l gnuHash (bucketOfDef l gnuHash d) after with
    | true => exact (writeChains_buckets_of_ne (h.ne_of_last hlast)).trans hset
    | false =>
      obtain ⟨next, rest, rfl, hbucket⟩ := next_of_not_last hlast
      refine Eq.trans ?_ hset
      change (writeChains l gnuHash (next :: rest) (i + 1)
        (lastInChain l gnuHash (bucketOfDef l gnuHash d) (next :: rest)) _ _).2.1[_]? = _
      rw [hlast]
      exact writeChains_buckets_middle (pairwise_cons.mp h).2 hbucket
  | cons e before ih =>
    have hne : bucketOfDef l gnuHash e ≠ bucketOfDef l gnuHash d := hbefore e mem_cons_self
    rw [cons_append, writeChains, length_cons,
      show i + (before.length + 1) = i + 1 + before.length by omega]
    refine ih (pairwise_cons.mp h).2 (fun x hx => hbefore x (mem_cons_of_mem e hx)) ?_ ?_
    · -- the first symbol of the bucket comes right after a chain of another one
      rintro rfl
      simpa [lastInChain, bucketOfDef] using hne.symm
    · cases start with
      | false => exact hlt
      | true =>
        rw [if_pos rfl, length_set]
        exact hlt

/-! ## 4. The lookup in `.gnu.hash` -/

/-- The stop bit is apart from the rest of the hash. -/
theorem stopBit_div (hash : Nat) (last : Bool) :
    (hash / 2 * 2 + if last then 1 else 0) / 2 = hash / 2 := by
  cases last with
  | false => exact Nat.mul_div_cancel _ (by decide)
  | true =>
    rw [if_pos rfl, add_comm, add_mul_div_right _ _ (by decide)]
    exact zero_add _

theorem stopBit_mod (hash : Nat) (last : Bool) :
    (hash / 2 * 2 + if last then 1 else 0) % 2 = 1 ↔ last = true := by
  cases last with
  | false => simp
  | true =>
    rw [if_pos rfl, mul_add_mod_self_right]
    exact iff_of_true rfl rfl

variable {dynsym : List Bytes} {name : Bytes} {fuel : Nat}

/-- One step of the walk: the name, the end of the chain, or the next symbol. -/
theorem walk_step
    (hchain : t.chains[k]? = (chainWords l gnuHash (d :: rest)).head?)
    (hname : dynsym[t.symbolBase + k]? = some d.name) :
    t.walk dynsym (gnuHash name).toNat name (fuel + 1) (t.symbolBase + k)
      = if d.name = name then some (some (t.symbolBase + k))
        else if lastInChain l gnuHash (bucketOfDef l gnuHash d) rest then some none
        else t.walk dynsym (gnuHash name).toNat name fuel (t.symbolBase + (k + 1)) := by
  rw [GnuHashTable.walk, Nat.add_sub_cancel_left, hchain, hname, chainWords, head?_cons,
    bind_some, bind_some]
  rw [stopBit_div]
  by_cases h : d.name = name
  · subst h
    rw [if_pos ⟨rfl, rfl⟩, if_pos rfl]
  · rw [if_neg fun hboth => h hboth.2, if_neg h]
    simp only [stopBit_mod, add_assoc]

/-- **The walk along a chain** finds the name, or goes to the end of the chain. -/
theorem walk_answers
    (h : Grouped l gnuHash (d :: rest))
    (hbucket : bucketOfDef l gnuHash d = l.bucketForHash (gnuHash name).toNat)
    (hchains : ∀ j, t.chains[k + j]? = (chainWords l gnuHash (d :: rest))[j]?)
    (hnames : ∀ j, dynsym[t.symbolBase + (k + j)]? = (d :: rest)[j]?.map (·.name))
    (hfuel : (d :: rest).length ≤ fuel) :
    ∃ found, t.walk dynsym (gnuHash name).toNat name fuel (t.symbolBase + k) = some found ∧
      (∀ i, found = some i → dynsym[i]? = some name) ∧
      ((∃ e ∈ d :: rest, e.name = name) → found.isSome) := by
  induction fuel generalizing d rest k with
  | zero => exact absurd hfuel (not_succ_le_zero _)
  | succ fuel ih =>
    have hchain : t.chains[k]? = (chainWords l gnuHash (d :: rest)).head? :=
      (hchains 0).trans head?_eq_getElem?.symm
    have hfirst : dynsym[t.symbolBase + k]? = some d.name := hnames 0
    rw [walk_step hchain hfirst]
    split
    · next hname =>
      refine ⟨some (t.symbolBase + k), rfl, ?_, fun _ => rfl⟩
      rintro i ⟨⟩
      rw [hfirst, hname]
    · next hname =>
      split
      · next hlast =>
        -- the name is in this bucket or nowhere
        refine ⟨none, rfl, nofun, ?_⟩
        rintro ⟨e, he, rfl⟩
        rcases mem_cons.mp he with rfl | he
        · exact absurd rfl hname
        · exact absurd hbucket.symm (h.ne_of_last hlast e he)
      · next hlast =>
        obtain ⟨next, more, rfl, hnext⟩ := next_of_not_last (Bool.eq_false_iff.mpr hlast)
        obtain ⟨found, hwalk, hright, hfound⟩ := ih (k := k + 1)
          (pairwise_cons.mp h).2 (hnext.trans hbucket)
          (fun j => by rw [add_assoc, add_comm 1]; exact hchains (j + 1))
          (fun j => by rw [add_assoc k, add_comm 1]; exact hnames (j + 1))
          (le_of_succ_le_succ hfuel)
        refine ⟨found, hwalk, hright, ?_⟩
        rintro ⟨e, he, rfl⟩
        rcases mem_cons.mp he with rfl | he
        · exact absurd rfl hname
        · exact hfound ⟨e, he, rfl⟩

theorem getElem?_of_suffix {α : Type} (before after : List α) (j : Nat) :
    (before ++ after)[before.length + j]? = after[j]? := by
  rw [getElem?_append_right (Nat.le_add_right _ j), Nat.add_sub_cancel_left]

theorem chainWords_suffix (before after : List DynamicSymbolDefinition) (j : Nat) :
    (chainWords l gnuHash (before ++ after))[before.length + j]?
      = (chainWords l gnuHash after)[j]? := by
  induction before with
  | nil => rw [nil_append, length_nil, zero_add]
  | cons d before ih =>
    rw [cons_append, chainWords, length_cons,
      show before.length + 1 + j = before.length + j + 1 by omega, getElem?_cons_succ]
    exact ih

/-- The first symbol of a bucket. -/
theorem exists_first (h : ∃ d ∈ defs, bucketOfDef l gnuHash d = b) :
    ∃ before d after, defs = before ++ d :: after ∧ bucketOfDef l gnuHash d = b ∧
      ∀ e ∈ before, bucketOfDef l gnuHash e ≠ b := by
  have hsome : (defs.find? fun d => bucketOfDef l gnuHash d == b).isSome := by
    rw [find?_isSome]
    obtain ⟨d, hd, hb⟩ := h
    exact ⟨d, hd, beq_iff_eq.mpr hb⟩
  obtain ⟨d, hfind⟩ := isSome_iff_exists.mp hsome
  obtain ⟨hb, before, after, heq, hbefore⟩ := find?_eq_some_iff_append.mp hfind
  refine ⟨before, d, after, heq, beq_iff_eq.mp hb, ?_⟩
  intro e he hbe
  have hnot := hbefore e he
  rw [hbe, beq_self_eq_true] at hnot
  exact Bool.noConfusion hnot

variable {before : List Bytes}

/-- **From the bucket on**, the lookup answers, whatever the bloom filter says. -/
theorem bucket_answers (hsorted : Grouped l gnuHash sorted)
    (hpos : 0 < l.bucketCount) (hbase : l.symbolBase = before.length) (hbefore : 0 < before.length)
    (hcount : before.length + sorted.length ≤ 2 ^ 32) (htbase : t.symbolBase = before.length)
    (hbuckets : t.buckets
      = (writeChains l gnuHash sorted 0 true bloom (replicate l.bucketCount 0)).2.1)
    (hchains : t.chains = chainWords l gnuHash sorted) (name : Bytes) :
    ∃ found, (t.buckets[l.bucketForHash (gnuHash name).toNat]?.bind fun first =>
        if first = 0 then some none
        else t.walk (dynsymNames before sorted) (gnuHash name).toNat name t.chains.length first)
          = some found ∧
      (∀ i, found = some i → (dynsymNames before sorted)[i]? = some name) ∧
      ((∃ d ∈ sorted, d.name = name) → found.isSome) := by
  have hlt : l.bucketForHash (gnuHash name).toNat < (replicate l.bucketCount 0).length := by
    rw [length_replicate]
    exact mod_lt _ hpos
  by_cases hin : ∃ d ∈ sorted, bucketOfDef l gnuHash d = l.bucketForHash (gnuHash name).toNat
  · obtain ⟨pre, d, post, rfl, hd, hpre⟩ := exists_first hin
    have hfirst : (writeChains l gnuHash (pre ++ d :: post) 0 true bloom
        (replicate l.bucketCount 0)).2.1[bucketOfDef l gnuHash d]?
          = some ((0 + pre.length + l.symbolBase) % 2 ^ 32) :=
      writeChains_buckets hsorted (hd.symm ▸ hpre) (fun _ => rfl) (hd.symm ▸ hlt)
    have hlen : (pre ++ d :: post).length = pre.length + (d :: post).length := length_append
    have hpost : 0 < (d :: post).length := succ_pos _
    have hindex : (0 + pre.length + l.symbolBase) % 2 ^ 32 = t.symbolBase + pre.length := by
      rw [hbase, htbase, zero_add, add_comm]
      exact mod_eq_of_lt (by omega)
    rw [hd, hindex, ← hbuckets] at hfirst
    have hwords : ∀ j, t.chains[pre.length + j]? = (chainWords l gnuHash (d :: post))[j]? := by
      intro j
      rw [hchains, chainWords_suffix]
    have hnames : ∀ j, (dynsymNames before (pre ++ d :: post))[t.symbolBase + (pre.length + j)]?
        = (d :: post)[j]?.map (·.name) := by
      intro j
      rw [htbase, dynsymNames_add, getElem?_of_suffix]
    have hfuel : (d :: post).length ≤ t.chains.length := by
      rw [hchains, length_chainWords, hlen]
      exact le_add_left _ _
    obtain ⟨found, hwalk, hright, hfound⟩ :=
      walk_answers (pairwise_append.mp hsorted).2.1 hd hwords hnames hfuel
    refine ⟨found, ?_, hright, ?_⟩
    · rw [hfirst, bind_some, if_neg (by omega)]
      exact hwalk
    · rintro ⟨e, he, rfl⟩
      rcases mem_append.mp he with he | he
      · exact absurd rfl (hpre e he)
      · exact hfound ⟨e, he, rfl⟩
  · have hempty : t.buckets[l.bucketForHash (gnuHash name).toNat]? = some 0 := by
      rw [hbuckets, writeChains_buckets_of_ne fun d hd hb => hin ⟨d, hd, hb⟩,
        getElem?_replicate]
      exact if_pos (mod_lt _ hpos)
    refine ⟨none, ?_, nofun, ?_⟩
    · rw [hempty]
      rfl
    · rintro ⟨d, hd, rfl⟩
      exact absurd ⟨d, hd, rfl⟩ hin

/-- The words of the bloom filter have the bits of every symbol. -/
theorem bloom_passes (hpos : 0 < l.bloomCount) (hd : d ∈ sorted) {word : Nat}
    (hword : (writeChains l gnuHash sorted 0 true (replicate l.bloomCount 0) buckets).1[
      (gnuHash d.name).toNat / 64 % l.bloomCount]? = some word) :
    (word.testBit ((gnuHash d.name).toNat % 64)
      && word.testBit (((gnuHash d.name).toNat >>> l.bloomShift) % 64)) = true := by
  have hbit : ∀ bit, (bloomBits l (gnuHash d.name).toNat).testBit bit = true →
      word.testBit bit = true := by
    intro bit hbit
    obtain ⟨word', hword', hset⟩ := writeChains_bloom hpos length_replicate hd hbit
    obtain rfl : word = word' := some.inj (hword.symm.trans hword')
    exact hset
  rw [hbit _ (testBit_bloomBits_low _), hbit _ (testBit_bloomBits_high _)]
  rfl

theorem writeGnuHashTables_answers (gnuHash : Bytes → UInt32)
    (hbloom : 0 < l.bloomCount)
    (hbuckets : 0 < l.bucketCount) (hbase : l.symbolBase = before.length)
    (hbefore : 0 < before.length) (hcount : before.length + sorted.length ≤ 2 ^ 32)
    (hsorted : l.Sorted gnuHash sorted) {size : Nat}
    (hsize : 16 + 8 * l.bloomCount + 4 * l.bucketCount + 4 * sorted.length ≤ size) :
    ∃ t, writeGnuHashTables l gnuHash sorted size = some t ∧
      Answers (t.lookup gnuHash (dynsymNames before sorted)) (dynsymNames before sorted)
        sorted := by
  refine ⟨_, if_neg (not_lt.mpr hsize), ?_⟩
  intro name
  obtain ⟨found, hbucket, hright, hfound⟩ := bucket_answers (t := ⟨l.bucketCount, l.symbolBase,
    l.bloomCount, l.bloomShift, _, _, _⟩) hsorted.grouped hbuckets hbase hbefore hcount hbase rfl
    (writeChains_words sorted 0 true (replicate l.bloomCount 0) _) name
  have hlt : (gnuHash name).toNat / 64 % l.bloomCount
      < (writeChains l gnuHash sorted 0 true (replicate l.bloomCount 0)
        (replicate l.bucketCount 0)).1.length := by
    rw [writeChains_bloom_length, length_replicate]
    exact mod_lt _ hbloom
  unfold GnuHashTable.lookup
  simp only [getElem?_eq_getElem hlt, bind_some]
  split
  · exact ⟨found, hbucket, hright, hfound⟩
  · next hmiss =>
    refine ⟨none, rfl, nofun, ?_⟩
    rintro ⟨d, hd, rfl⟩
    exact absurd (bloom_passes hbloom hd (getElem?_eq_getElem hlt)) hmiss

end

/-! ## 5. Both tables -/

theorem nextPowerOfTwo_pos (n : Nat) : 0 < nextPowerOfTwo n := Nat.two_pow_pos _

variable {n : Nat}

theorem nextPowerOfTwo_le {k : Nat} (h : n ≤ 2 ^ k) : nextPowerOfTwo n ≤ 2 ^ k :=
  Nat.pow_le_pow_right (by decide) (Nat.clog_le_of_le_pow h)

/-- The number of buckets is not 0 after it is cut to 32 bits. -/
theorem bucketCount_pos (h : n ≤ 2 ^ 31) : 0 < nextPowerOfTwo n % 2 ^ 32 := by
  have hle : nextPowerOfTwo n ≤ 2 ^ 31 := nextPowerOfTwo_le h
  rw [mod_eq_of_lt (lt_of_le_of_lt hle (by decide))]
  exact nextPowerOfTwo_pos n

/-- The sizes of `.hash` before and after the indices are known. -/
theorem SysvHashLayout.of_allocated {l₀ l : SysvHashLayout} {base : Nat}
    (halloc : allocateSysvHash n (base + n) = some l₀) (hfinal : l₀.finalise base n = some l) :
    l = l₀ ∧ 0 < l.bucketCount ∧ l.chainCount = base + n ∧ base + n < 2 ^ 32 := by
  unfold allocateSysvHash at halloc
  split at halloc
  · exact absurd halloc (by simp)
  · split at halloc
    · next hlt =>
      cases halloc
      have hmod : n % 2 ^ 32 = n := mod_eq_of_lt (lt_of_le_of_lt (le_add_left n base) hlt)
      rw [SysvHashLayout.finalise, hmod, if_pos hlt] at hfinal
      cases hfinal
      refine ⟨rfl, bucketCount_pos ?_, rfl, hlt⟩
      omega
    · exact absurd halloc (by simp)

/-- **The hash tables answer every lookup.**  The dynamic symbols are some earlier ones and the
definitions; they have indices of 32 bits.  In the order of the layout, the writer of `.gnu.hash`
fits into what was allocated, and every lookup in its table stays in bounds, ends, returns a symbol
with the name, and returns one if the name is defined.  So does the writer of `.hash`, in any order,
where that table is allocated. -/
theorem hash_tables_answer (gnuHash sysvHash : Bytes → UInt32) (before : List Bytes)
    (defs : List DynamicSymbolDefinition) (hbefore : 1 ≤ before.length)
    (hcount : before.length + defs.length ≤ 2 ^ 32) :
    (∀ sorted, sorted.Perm defs →
      (createGnuHashLayout defs.length before.length).Sorted gnuHash sorted →
      ∃ t, writeGnuHashTables (createGnuHashLayout defs.length before.length) gnuHash sorted
          (createGnuHashLayout defs.length before.length).byteSize = some t ∧
        Answers (t.lookup gnuHash (dynsymNames before sorted)) (dynsymNames before sorted) defs) ∧
    ∀ l₀ l, allocateSysvHash defs.length (before.length + defs.length) = some l₀ →
      l₀.finalise before.length defs.length = some l →
      ∃ t, writeSysvHashTable l sysvHash defs before.length l₀.byteSize = some t ∧
        Answers (t.lookup sysvHash (dynsymNames before defs)) (dynsymNames before defs) defs := by
  constructor
  · intro sorted hperm hsorted
    have hlen : sorted.length = defs.length := hperm.length_eq
    have hlt : defs.length < 2 ^ 32 := by omega
    have hhalf : defs.length / 2 ≤ 2 ^ 31 := by omega
    have hsize : 16 + 8 * 1 + 4 * (createGnuHashLayout defs.length before.length).bucketCount
        + 4 * sorted.length ≤ (createGnuHashLayout defs.length before.length).byteSize := by
      rw [hlen, GnuHashLayout.byteSize]
      exact le_of_eq (congrArg (_ + 4 * ·) (mod_eq_of_lt hlt).symm)
    obtain ⟨t, hwritten, hanswers⟩ := writeGnuHashTables_answers gnuHash Nat.one_pos
      (bucketCount_pos hhalf) rfl hbefore (hlen.symm ▸ hcount) hsorted hsize
    refine ⟨t, hwritten, ?_⟩
    intro name
    obtain ⟨found, hlookup, hright, hfound⟩ := hanswers name
    refine ⟨found, hlookup, hright, ?_⟩
    rintro ⟨d, hd, hname⟩
    exact hfound ⟨d, hperm.mem_iff.mpr hd, hname⟩
  · intro l₀ l halloc hfinal
    obtain ⟨rfl, hpos, hchains, hlt⟩ := SysvHashLayout.of_allocated halloc hfinal
    exact writeSysvHashTable_answers sysvHash defs before hpos hbefore hchains
      (hchains.symm ▸ le_of_lt hlt)

/-- The GNU hash function, with 32 bits. -/
def djbHash (name : Bytes) : UInt32 := name.foldl (fun h c => h * 33 + c.toUInt32) 5381

/-- The System V hash function. -/
def elfHash (name : Bytes) : UInt32 :=
  name.foldl
    (fun h c =>
      let h := (h <<< 4) + c.toUInt32
      (h ^^^ ((h &&& 0xf0000000) >>> 24)) &&& 0x0fffffff) 0

/-- Two symbols `a` and `b` after the null symbol. -/
theorem two_symbols_found :
    let defs : List DynamicSymbolDefinition := [⟨1, [97], 0⟩, ⟨2, [98], 0⟩]
    (∃ t, writeGnuHashTables (createGnuHashLayout 2 1) djbHash defs
        (createGnuHashLayout 2 1).byteSize = some t ∧
      Answers (t.lookup djbHash [[], [97], [98]]) [[], [97], [98]] defs) ∧
    ∃ t, writeSysvHashTable ⟨1, 3⟩ elfHash defs 1 24 = some t ∧
      Answers (t.lookup elfHash [[], [97], [98]]) [[], [97], [98]] defs := by
  have h := hash_tables_answer djbHash elfHash [[]] [⟨1, [97], 0⟩, ⟨2, [98], 0⟩] (by decide)
    (by decide)
  refine ⟨h.1 _ (Perm.refl _) ?_, h.2 ⟨1, 3⟩ ⟨1, 3⟩ (by decide) (by decide)⟩
  unfold GnuHashLayout.Sorted
  decide

end Srs.Dynamic
