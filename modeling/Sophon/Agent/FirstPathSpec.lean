/-
The agent's first path loses matches when two vector bits share a byte.

`set_bits` assigns `1 << (b & 7)` to the byte of each vector bit, so of two
vector bits in one byte only the later survives in the mask.  `get_table_index`
then packs the key's bits at the surviving mask bits, while
`get_all_table_index` still clears and enumerates index bits by position in
`vector_bits`.  The two numberings of the index bits disagree, and an item can
miss the bucket of a key that matches it.

The run below has three IPv4 items, as three ACLs whose source groups are
`0.0.0.0/9`, `192.128.0.0/9` and `64.0.0.0/2` produce them (every other field
open).  The sort table ranks bits 6, 7 and 15, where the items disagree, first
and bit 0 next (`generateSortTableN_sameByte`), so with vector size 4 the vector
bits are `[0, 6, 7, 15]`, three of them in the first byte; the mask keeps bits
7 and 15 only.  The key `64.128.0.1` matches the third item, gets index 2, and
that item is filed under 0, 1, 8 and 9: the table hands back nothing
(`generateFirstTable_sameByte_misses`).

The general lemmas first: the sort table as buckets (`generateSortTableN_apply`)
and the item table as one pass of back insertions (`generateTableN_eq`).
-/
import Mathlib
import Sophon.Agent.FirstPath
import Sophon.Server.DdbsLookup

namespace Sophon.Agent

variable {N : Nat} {P : Type}

/-- The bucket `generateSortTableN` files bit position `i` under. -/
def sortIndex (items : List (Field N)) (base i : Nat) : Nat :=
  sortTableIndex (items.filter fun v => !v.mask.isBitZero i && v.field.isBitZero i).length
    (items.filter fun v => !v.mask.isBitZero i && !v.field.isBitZero i).length base

theorem generateSortTableN_apply (items : List (Field N)) (base j : Nat) :
    generateSortTableN items base j
      = (List.range ((N * 2 + 10) * 8)).filter fun i => decide (sortIndex items base i = j) :=
  (Buckets.foldl_append (sortIndex items base) id _ (fun _ => []) j).trans (by simp)

/-- The indexes `generate_table4` files an item under. -/
def itemIndexes (v : Vector N) (item : TableItem N P) : List Nat :=
  item.field.getAllTableIndex v.mask v.minBit v.maxBit v.vectorBits

/-- The items of the ACLs, in the order `generate_table4` walks them. -/
def tableItems (links : Acl P → List (Field N)) (acls : List (Acl P)) : List (TableItem N P) :=
  acls.flatMap fun acl => (links acl).map fun item => { field := item, policy := acl.policy }

/-- `generate_table4` is one pass of back insertions over the pairs (index, item). -/
theorem generateTableN_eq (v : Vector N) (links : Acl P → List (Field N)) (acls : List (Acl P)) :
    generateTableN v links acls
      = (Buckets.filed (itemIndexes v) (tableItems links acls)).foldl
          (fun t e => Buckets.append t e.1 e.2) (fun _ => []) := by
  simp only [Buckets.filed, tableItems, List.foldl_flatMap, List.foldl_map]
  rfl

/-- A sorted permutation of a list is what `mergeSort` makes of it. -/
theorem mergeSort_eq_of_perm {l l' : List Nat} (hp : l'.Perm l) (hs : l'.Pairwise (· ≤ ·)) :
    l.mergeSort (fun a b => decide (a ≤ b)) = l' := by
  have hsorted := @List.pairwise_mergeSort Nat (fun a b => decide (a ≤ b))
    (fun a b c hab hbc => by simp at hab hbc ⊢; omega) (fun a b => by simp; omega) l
  refine ((List.mergeSort_perm l _).trans hp.symm).eq_of_pairwise' ?_ hs
  exact hsorted.imp fun h => by simpa using h

/-! ### Two vector bits in one byte -/

/-- An IPv4 field whose source address is `a.b.c.d`, every other byte zero. -/
def ip4 (a b c d : UInt8) : MatchedFieldN 4 :=
  ⟨fun i => [a, b, c, d].getD i 0, fun _ => 0, fun _ => 0⟩

/-- Past the first two bytes of the source address, a field `ip4 a b 0 0` is zero. -/
theorem isBitZero_ip4 (a b : UInt8) {i : Nat} (hi : 16 ≤ i) : (ip4 a b 0 0).isBitZero i = true := by
  have hbyte : ∀ j, 2 ≤ j → [a, b, (0 : UInt8), 0].getD j 0 = 0 := by
    intro j hj
    match j, hj with
    | 2, _ => rfl
    | 3, _ => rfl
    | j + 4, _ => simp
  unfold MatchedFieldN.isBitZero ip4
  dsimp only
  split
  · rw [hbyte _ (by rw [Nat.shiftRight_eq_div_pow]; omega)]
    simp
  · split
    · simp
    · split <;> simp

/-- The three items of the run: `0.0.0.0/9`, `192.128.0.0/9` and `64.0.0.0/2`. -/
def sameByteItems : List (Field 4) :=
  [⟨ip4 0 0 0 0, ip4 0xFF 0x80 0 0⟩, ⟨ip4 192 128 0 0, ip4 0xFF 0x80 0 0⟩,
    ⟨ip4 64 0 0 0, ip4 0xC0 0 0 0⟩]

/-- One ACL per item; the policy of each is its number. -/
def sameByteAcls : List (Acl (List Nat)) :=
  [⟨[], [], [sameByteItems[0]], [], [1]⟩, ⟨[], [], [sameByteItems[1]], [], [2]⟩,
    ⟨[], [], [sameByteItems[2]], [], [3]⟩]

/-- The key `64.128.0.1`: it matches the third item. -/
def sameByteKey : MatchedFieldN 4 := ip4 64 128 0 1

/-- Every bit past the first two bytes is open in all three items, so it goes to the
bucket `base = 3`. -/
theorem sortIndex_sameByte_high {i : Nat} (hi : 16 ≤ i) : sortIndex sameByteItems 3 i = 3 := by
  have h := isBitZero_ip4 (i := i)
  simp [sortIndex, sameByteItems, h _ _ hi, sortTableIndex, calcIndex]

/-- **The sort table ranks the bits 6, 7 and 15 first and bit 0 next.** -/
theorem generateSortTableN_sameByte :
    ((List.range 65535).flatMap (generateSortTableN sameByteItems 3)).take 4 = [6, 7, 15, 0] := by
  have hsplit : List.range ((4 * 2 + 10) * 8) = List.range 16 ++ List.range' 16 128 := by
    rw [List.range_eq_range', List.range_eq_range', List.range'_append_1]
  have hhigh : ∀ j, (List.range' 16 128).filter (fun i => decide (sortIndex sameByteItems 3 i = j))
      = if j = 3 then List.range' 16 128 else [] := by
    intro j
    split
    · rename_i hj
      subst hj
      exact List.filter_eq_self.mpr fun i hi => by
        simp [sortIndex_sameByte_high (List.mem_range'_1.mp hi).1]
    · rename_i hj
      exact List.filter_eq_nil_iff.mpr fun i hi => by
        simp [sortIndex_sameByte_high (List.mem_range'_1.mp hi).1, Ne.symm hj]
  have hbuckets : (List.range' 0 4).flatMap (generateSortTableN sameByteItems 3)
      = [6, 7, 15] ++ ([0, 1, 2, 3, 4, 5, 8, 9, 10, 11, 12, 13, 14] ++ List.range' 16 128) := by
    have hfun : generateSortTableN sameByteItems 3 = fun j =>
        (List.range ((4 * 2 + 10) * 8)).filter fun i => decide (sortIndex sameByteItems 3 i = j) :=
      funext (generateSortTableN_apply sameByteItems 3)
    simp only [hfun, hsplit, List.filter_append, hhigh]
    decide
  rw [List.range_eq_range', show 65535 = 4 + 65531 from rfl, ← List.range'_append_1,
    List.flatMap_append, List.take_append_of_le_length (by rw [hbuckets]; simp), hbuckets]
  rfl

/-- The vector `init` builds from the three items with vector size 4. -/
theorem init_sameByte :
    Vector.init Acl.matchField sameByteAcls 4
      = { minBit := 0, maxBit := 15, mask := MatchedFieldN.setBits [0, 6, 7, 15],
          vectorBits := [0, 6, 7, 15] } := by
  have hitems : sameByteAcls.flatMap Acl.matchField = sameByteItems := rfl
  have hbits : (Server.collectBits (generateSortTableN sameByteItems 3) 4).mergeSort
      (fun a b => decide (a ≤ b)) = [0, 6, 7, 15] := by
    rw [Server.collectBits_eq, generateSortTableN_sameByte]
    exact mergeSort_eq_of_perm (by decide) (by decide)
  simp only [Vector.init, hitems]
  rw [show sameByteItems.length = 3 from rfl, hbits]
  rfl

/-- **The first path misses a match.**  With the three ACLs and vector size 4, the
key `64.128.0.1` matches the third item, whose policy is `[3]`, but the table
lookup merges nothing. -/
theorem generateFirstTable_sameByte_misses :
    (sameByteKey.and sameByteItems[2].mask).beq sameByteItems[2].field = true ∧
      (FirstPath.generateFirstTable sameByteAcls (some 4)).vector4.vectorBits = [0, 6, 7, 15] ∧
      (FirstPath.generateFirstTable sameByteAcls (some 4)).getPolicyFromTable4
        (fun p q (_ : Unit) => p ++ q) sameByteKey () [] = [] := by
  have hv : (FirstPath.generateFirstTable sameByteAcls (some 4)).vector4
      = Vector.init Acl.matchField sameByteAcls 4 := rfl
  refine ⟨by decide, by rw [hv, init_sameByte], ?_⟩
  -- the key's index is 2, and no item is filed under 2
  have hbucket := Buckets.foldl_append Prod.fst Prod.snd
    (Buckets.filed (itemIndexes (Vector.init Acl.matchField sameByteAcls 4))
      (tableItems Acl.matchField sameByteAcls)) (fun _ => []) 2
  simp only [FirstPath.getPolicyFromTable4, FirstPath.generateFirstTable, getPolicyFromTableN]
  rw [generateTableN_eq, init_sameByte, show sameByteKey.getTableIndex
      (MatchedFieldN.setBits [0, 6, 7, 15]) 0 15 = 2 by decide]
  rw [init_sameByte] at hbucket
  rw [hbucket]
  decide

end Sophon.Agent
