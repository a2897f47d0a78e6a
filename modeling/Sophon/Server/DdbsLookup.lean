/-
The DDBS lookup is a scan of every match node.

Two facts remain after `DdbsSpec`.  First, the vectors `generateDdbsTable` builds
are well formed: the sort table files each bit position in exactly one of its
65535 buckets (`sortIndex_lt` is the arithmetic that keeps `getSortTableIndex` in
range), so the first `vectorSize` positions `generateMaskVector` collects are
distinct, and sorted they satisfy `DdbsVector.WF` (`wf_generateMaskVector`).

Second, `generateVectorTable` is a pass of front insertions over the pairs
(index, item) (`generateVectorTableN_eq`), so a bucket is the reversed list of the
items filed under its key, and a lookup that merges only matching items
merges every matching item of the whole walk once, in reverse walk order
(`getPolicyFromTableN_eq_scan`).  `generateDdbsTable_eq_scan` puts the two
together for the IPv4 and IPv6 tables.
-/
import Mathlib
import Sophon.Server.DdbsSpec

namespace Sophon.Server

variable {n : Nat} {P D : Type}

/-! ### The sort table -/

/-- The bucket `generateSortTableN` files bit position `i` under. -/
def sortIndex (links : Acl P → List (MatchNode n)) (acls : List (Acl P)) (i : Nat) : Nat :=
  let nodes := acls.flatMap links
  getSortTableIndex
    (nodes.filter fun item => !item.matchedMask.isBitZero i && item.matched.isBitZero i).length
    (nodes.filter fun item => !item.matchedMask.isBitZero i && !item.matched.isBitZero i).length
    nodes.length

theorem generateSortTableN_apply (bitsLen : Nat) (links : Acl P → List (MatchNode n))
    (acls : List (Acl P)) (j : Nat) :
    generateSortTableN bitsLen links acls j
      = (List.range bitsLen).filter fun i => decide (sortIndex links acls i = j) :=
  (Buckets.foldl_append (sortIndex links acls) id (List.range bitsLen) (fun _ => []) j).trans
    (by simp)

/-- Nodes that fix a bit to 0 and nodes that fix it to 1 are different nodes. -/
theorem length_filter_add_le {α : Type} {p q : α → Bool} (hpq : ∀ x, (p x && q x) = false) :
    ∀ l : List α, (l.filter p).length + (l.filter q).length ≤ l.length := by
  intro l
  induction l with
  | nil => simp
  | cons x l ih =>
      have hx := hpq x
      cases hp : p x <;> cases hq : q x <;> simp_all <;> omega

theorem calcIndex_le {a b base : Nat} (h : a + b ≤ base) : calcIndex a b base ≤ base := by
  unfold calcIndex
  split
  · omega
  · split <;> omega

/-- **Every bit position lands in one of the 65535 buckets**, also after the fold of
large indexes into the upper half. -/
theorem getSortTableIndex_lt {a b base : Nat} (h : a + b ≤ base) :
    getSortTableIndex a b base < 65535 := by
  have hle := calcIndex_le h
  have hq : base >>> 15 = base / 32768 := Nat.shiftRight_eq_div_pow base 15
  unfold getSortTableIndex
  dsimp only
  split
  · -- `index ≤ base < 32768 * (base / 32768 + 1)`, so the quotient stays below 32768
    have hdiv : calcIndex a b base / (base / 32768 + 1) < 32768 :=
      (Nat.div_lt_iff_lt_mul (by omega)).mpr (by omega)
    simp only [hq]
    omega
  · omega

theorem sortIndex_lt (links : Acl P → List (MatchNode n)) (acls : List (Acl P)) (i : Nat) :
    sortIndex links acls i < 65535 := by
  apply getSortTableIndex_lt
  apply length_filter_add_le
  intro item
  cases item.matched.isBitZero i <;> simp

/-! ### Collecting the vector bits -/

theorem appendBits_eq (k : Nat) :
    ∀ (l bits : List Nat), bits.length < k → appendBits k bits l = (bits ++ l).take k := by
  intro l
  induction l with
  | nil => intro bits h; simp [appendBits, List.take_of_length_le (Nat.le_of_lt h)]
  | cons o os ih =>
      intro bits h
      rw [appendBits]
      split
      · rename_i hfull
        have hlen : (bits ++ [o]).length = k := by simp at hfull ⊢; omega
        rw [show bits ++ o :: os = (bits ++ [o]) ++ os by simp, List.take_append_of_le_length
          (by omega), List.take_of_length_le (by omega)]
      · rename_i hroom
        rw [ih _ (by omega), List.append_assoc, List.singleton_append]

/-- Taking `k` of a prefix and then `k` of the whole is taking `k` of the whole. -/
theorem take_take_append (l m : List Nat) (k : Nat) :
    (l.take k ++ m).take k = (l ++ m).take k := by
  rw [List.take_append, List.take_append, List.take_take, List.length_take, Nat.min_self,
    show k - min k l.length = k - l.length by omega]

theorem foldl_collect (table : Nat → List Nat) (k : Nat) :
    ∀ (bs acc : List Nat), acc.length ≤ k →
      bs.foldl (fun bits i => if bits.length < k then appendBits k bits (table i) else bits) acc
        = (acc ++ bs.flatMap table).take k := by
  intro bs
  induction bs with
  | nil => intro acc h; simp [List.take_of_length_le h]
  | cons b bs ih =>
      intro acc h
      rw [List.foldl_cons]
      split
      · rename_i hroom
        rw [appendBits_eq k _ _ hroom, ih _ (by simp), take_take_append, List.flatMap_cons,
          List.append_assoc]
      · rename_i hfull
        have hk : acc.length = k := by omega
        rw [ih _ h, List.take_append_of_le_length (by omega), List.take_of_length_le (by omega),
          List.take_append_of_le_length (by omega), List.take_of_length_le (by omega)]

/-- `generateMaskVector` collects the first `vectorSize` positions of the buckets in order. -/
theorem collectBits_eq (table : Nat → List Nat) (k : Nat) :
    collectBits table k = ((List.range 65535).flatMap table).take k := by
  rw [collectBits, foldl_collect table k _ [] (Nat.zero_le _), List.nil_append]

/-- The positions of the sort table, bucket after bucket. -/
theorem sortTable_flat (bitsLen : Nat) (links : Acl P → List (MatchNode n)) (acls : List (Acl P)) :
    ((List.range 65535).flatMap (generateSortTableN bitsLen links acls)).Nodup ∧
      (∀ i, i ∈ (List.range 65535).flatMap (generateSortTableN bitsLen links acls) ↔ i < bitsLen) := by
  have hfun : generateSortTableN bitsLen links acls
      = fun j => (List.range bitsLen).filter fun i => decide (sortIndex links acls i = j) :=
    funext (generateSortTableN_apply bitsLen links acls)
  rw [hfun]
  refine ⟨Buckets.nodup_flatMap_filter List.nodup_range List.nodup_range, fun i => ⟨?_, ?_⟩⟩
  · intro hi
    obtain ⟨j, -, hj⟩ := List.mem_flatMap.mp hi
    exact List.mem_range.mp (List.mem_filter.mp hj).1
  · intro hi
    exact Buckets.mem_flatMap_filter (List.mem_range.mpr hi)
      (List.mem_range.mpr (sortIndex_lt links acls i))

/-- Sorted, `k` distinct collected positions inside the words make a well-formed vector. -/
theorem wf_generateMaskVector_of {table : Nat → List Nat} {k : Nat} (hk : k ≤ 16)
    (hnd : (collectBits table k).Nodup) (hlen : (collectBits table k).length = k)
    (hlt : ∀ s ∈ collectBits table k, s < 64 * n) :
    (DdbsVector.generateMaskVector k table : DdbsVector n).WF := by
  unfold DdbsVector.generateMaskVector
  dsimp only
  generalize collectBits table k = bits at hnd hlen hlt ⊢
  have hperm := List.mergeSort_perm bits (fun a b => decide (a ≤ b))
  have hsorted : (bits.mergeSort fun a b => decide (a ≤ b)).Pairwise (· < ·) := by
    have hle := @List.pairwise_mergeSort Nat (fun a b => decide (a ≤ b))
      (fun a b c hab hbc => by simp at hab hbc ⊢; omega) (fun a b => by simp; omega) bits
    exact (hle.and (hperm.nodup_iff.mpr hnd)).imp fun ⟨h1, h2⟩ => by simp at h1; omega
  have hmem : ∀ s ∈ bits.mergeSort fun a b => decide (a ≤ b), s ∈ bits :=
    fun s hs => hperm.mem_iff.mp hs
  have hlen' := hperm.length_eq.trans hlen
  generalize bits.mergeSort (fun a b => decide (a ≤ b)) = vb at hsorted hmem hlen' ⊢
  refine ⟨hsorted, hlen'.trans_le hk, fun s hs => hlt s (hmem s hs), ?_,
    fun i => MatchedField.bit_setBits vb i⟩
  -- the least and the greatest of the sorted bits sit at positions `0` and `k - 1`
  intro s hs
  change s ∈ vb at hs
  show vb.getD 0 0 ≤ s ∧ s ≤ vb.getD (k - 1) 0
  obtain ⟨m, hm, rfl⟩ := List.getElem_of_mem hs
  have hpw := List.pairwise_iff_getElem.mp hsorted
  rw [List.getD_eq_getElem vb 0 (show 0 < vb.length by omega),
    List.getD_eq_getElem vb 0 (show k - 1 < vb.length by omega)]
  constructor
  · rcases Nat.eq_zero_or_pos m with h0 | hpos
    · subst h0; exact Nat.le_refl _
    · exact Nat.le_of_lt (hpw 0 m (by omega) hm hpos)
  · rcases Nat.lt_or_ge m (k - 1) with hlt' | hge
    · exact Nat.le_of_lt (hpw m (k - 1) hm (by omega) hlt')
    · have : m = k - 1 := by omega
      subst this; exact Nat.le_refl _

/-- The sort table holds every position below `bitsLen`, so there are `k` to collect. -/
theorem length_collectBits {bitsLen k : Nat} (links : Acl P → List (MatchNode n))
    (acls : List (Acl P)) (hkL : k ≤ bitsLen) :
    (collectBits (generateSortTableN bitsLen links acls) k).length = k := by
  have hmem := (sortTable_flat bitsLen links acls).2
  have hflat : bitsLen ≤ ((List.range 65535).flatMap (generateSortTableN bitsLen links acls)).length := by
    have h := (List.subperm_of_subset List.nodup_range fun i hi =>
      (hmem i).mpr (List.mem_range.mp hi)).length_le
    rwa [List.length_range] at h
  rw [collectBits_eq, List.length_take]
  omega

/-- **The vectors `generateMaskVector` builds from a sort table are well formed.** -/
theorem wf_generateMaskVector {bitsLen k : Nat} (links : Acl P → List (MatchNode n))
    (acls : List (Acl P)) (hk : k ≤ 16) (hkL : k ≤ bitsLen) (hL : bitsLen ≤ 64 * n) :
    (DdbsVector.generateMaskVector k (generateSortTableN bitsLen links acls) : DdbsVector n).WF := by
  obtain ⟨hnodup, hmem⟩ := sortTable_flat bitsLen links acls
  apply wf_generateMaskVector_of hk
  · rw [collectBits_eq]
    exact hnodup.sublist (List.take_sublist _ _)
  · exact length_collectBits links acls hkL
  · intro s hs
    rw [collectBits_eq] at hs
    exact Nat.lt_of_lt_of_le ((hmem s).mp (List.mem_of_mem_take hs)) hL

/-! ### The table -/

/-- The items of the ACLs' nodes, in the order `generateVectorTable` walks them. -/
def tableItems (links : Acl P → List (MatchNode n)) (acls : List (Acl P)) : List (TableItem n P) :=
  acls.flatMap fun acl => (links acl).map fun node =>
    { matched := node.matched, matchedMask := node.matchedMask, policy := acl.policy }

/-- The indexes `generateVectorTable` files an item under. -/
def itemIndexes (v : DdbsVector n) (item : TableItem n P) : List Nat :=
  (MatchNode.mk item.matched item.matchedMask).getAllTableIndex v.maskVector v.maskMinBit
    v.maskMaxBit v.vectorBits

theorem mem_itemIndexes {v : DdbsVector n} (hv : v.WF) {key : MatchedField n} {item : TableItem n P}
    (hmatch : (key.and item.matchedMask).equal item.matched = true) :
    key.getTableIndex v.maskVector v.maskMinBit v.maskMaxBit ∈ itemIndexes v item :=
  mem_getAllTableIndex hv hmatch

theorem nodup_itemIndexes {v : DdbsVector n} (hv : v.WF) (item : TableItem n P) :
    (itemIndexes v item).Nodup :=
  nodup_getAllTableIndex hv _

/-- `generateVectorTable` is one pass of front insertions over the pairs (index, item). -/
theorem generateVectorTableN_eq (v : DdbsVector n) (links : Acl P → List (MatchNode n))
    (acls : List (Acl P)) :
    generateVectorTableN v links acls
      = (Buckets.filed (itemIndexes v) (tableItems links acls)).foldl
          (fun t e => Buckets.push t e.1 e.2) (fun _ => []) := by
  simp only [Buckets.filed, tableItems, List.foldl_flatMap, List.foldl_map]
  rfl

section Lookup

variable (merge : P → P → D → P) (empty : P) (key : MatchedField n) (direction : D)

/-- The bucket loop only acts on the items the key matches. -/
theorem foldl_mergeItem_filter (l : List (TableItem n P)) (portPolicy : Option P) :
    l.foldl (mergeItem merge empty key direction) portPolicy
      = (l.filter fun item => (key.and item.matchedMask).equal item.matched).foldl
          (mergeItem merge empty key direction) portPolicy := by
  rw [List.foldl_filter]
  congr
  funext acc item
  by_cases h : (key.and item.matchedMask).equal item.matched = true
  · simp [h]
  · simp [mergeItem, h]

/-- **A lookup merges the policy of every item the key matches, each once**: the
table answers as the scan of all items from the last to the first. -/
theorem getPolicyFromTableN_eq_scan {v : DdbsVector n} (hv : v.WF)
    (links : Acl P → List (MatchNode n)) (acls : List (Acl P)) (portPolicy : Option P) :
    getPolicyFromTableN merge empty v (generateVectorTableN v links acls) key direction portPolicy
      = (tableItems links acls).reverse.foldl (mergeItem merge empty key direction) portPolicy := by
  have hbucket := Buckets.foldl_push Prod.fst Prod.snd
    (Buckets.filed (itemIndexes v) (tableItems links acls)) (fun _ => [])
    (key.getTableIndex v.maskVector v.maskMinBit v.maskMaxBit)
  simp only [getPolicyFromTableN, generateVectorTableN_eq, hbucket, List.append_nil]
  rw [foldl_mergeItem_filter, List.filter_reverse,
    Buckets.filter_bucket (itemIndexes v)
      (fun item => (key.and item.matchedMask).equal item.matched) (tableItems links acls) _
      (fun item _ => nodup_itemIndexes hv item) (fun item _ h => mem_itemIndexes hv h),
    ← List.filter_reverse, ← foldl_mergeItem_filter]

end Lookup

theorem wf_generateDdbsTable (acls : List (Acl P)) {vectorSize : Option Nat}
    (hsize : ∀ k ∈ vectorSize, k ≤ 16) :
    (Ddbs.generateDdbsTable acls vectorSize).vector.WF ∧
      (Ddbs.generateDdbsTable acls vectorSize).vector6.WF := by
  cases vectorSize with
  | none => exact ⟨DdbsVector.wf_blank, DdbsVector.wf_blank⟩
  | some k =>
      have hk := hsize k rfl
      exact ⟨wf_generateMaskVector _ _ hk (by omega) (by omega),
        wf_generateMaskVector _ _ hk (by omega) (by omega)⟩

/-- **The DDBS tables answer as a scan of all match nodes**, for IPv4 and IPv6 keys,
whatever vector size the memory loop settles on: a key's index is among the indexes
of every node it matches, no node is filed twice under one index, and each lookup
merges the policy of exactly the nodes the key matches, each once. -/
theorem generateDdbsTable_eq_scan (acls : List (Acl P)) (vectorSize : Option Nat)
    (hsize : ∀ k ∈ vectorSize, k ≤ 16) (merge : P → P → D → P) (empty : P) :
    (∀ (key : MatchedField 3) (node : MatchNode 3),
        (key.and node.matchedMask).equal node.matched = true →
        key.getTableIndex (Ddbs.generateDdbsTable acls vectorSize).vector.maskVector
            (Ddbs.generateDdbsTable acls vectorSize).vector.maskMinBit
            (Ddbs.generateDdbsTable acls vectorSize).vector.maskMaxBit
          ∈ node.getAllTableIndex (Ddbs.generateDdbsTable acls vectorSize).vector.maskVector
            (Ddbs.generateDdbsTable acls vectorSize).vector.maskMinBit
            (Ddbs.generateDdbsTable acls vectorSize).vector.maskMaxBit
            (Ddbs.generateDdbsTable acls vectorSize).vector.vectorBits) ∧
    (∀ (key : MatchedField 6) (node : MatchNode 6),
        (key.and node.matchedMask).equal node.matched = true →
        key.getTableIndex (Ddbs.generateDdbsTable acls vectorSize).vector6.maskVector
            (Ddbs.generateDdbsTable acls vectorSize).vector6.maskMinBit
            (Ddbs.generateDdbsTable acls vectorSize).vector6.maskMaxBit
          ∈ node.getAllTableIndex (Ddbs.generateDdbsTable acls vectorSize).vector6.maskVector
            (Ddbs.generateDdbsTable acls vectorSize).vector6.maskMinBit
            (Ddbs.generateDdbsTable acls vectorSize).vector6.maskMaxBit
            (Ddbs.generateDdbsTable acls vectorSize).vector6.vectorBits) ∧
    (∀ node : MatchNode 3,
      (node.getAllTableIndex (Ddbs.generateDdbsTable acls vectorSize).vector.maskVector
        (Ddbs.generateDdbsTable acls vectorSize).vector.maskMinBit
        (Ddbs.generateDdbsTable acls vectorSize).vector.maskMaxBit
        (Ddbs.generateDdbsTable acls vectorSize).vector.vectorBits).Nodup) ∧
    (∀ node : MatchNode 6,
      (node.getAllTableIndex (Ddbs.generateDdbsTable acls vectorSize).vector6.maskVector
        (Ddbs.generateDdbsTable acls vectorSize).vector6.maskMinBit
        (Ddbs.generateDdbsTable acls vectorSize).vector6.maskMaxBit
        (Ddbs.generateDdbsTable acls vectorSize).vector6.vectorBits).Nodup) ∧
    (∀ (key : MatchedField 3) (direction : D) (portPolicy : Option P),
      (Ddbs.generateDdbsTable acls vectorSize).getPolicyFromTable merge empty key direction portPolicy
        = (tableItems Acl.fieldLink acls).reverse.foldl
            (mergeItem merge empty key direction) portPolicy) ∧
    (∀ (key : MatchedField 6) (direction : D) (portPolicy : Option P),
      (Ddbs.generateDdbsTable acls vectorSize).getPolicyFromTable6 merge empty key direction portPolicy
        = (tableItems Acl.field6Link acls).reverse.foldl
            (mergeItem merge empty key direction) portPolicy) := by
  obtain ⟨hv, hv6⟩ := wf_generateDdbsTable acls hsize
  refine ⟨fun key node h => mem_getAllTableIndex hv h, fun key node h => mem_getAllTableIndex hv6 h,
    fun node => nodup_getAllTableIndex hv node, fun node => nodup_getAllTableIndex hv6 node,
    fun key direction portPolicy => ?_, fun key direction portPolicy => ?_⟩
  · exact getPolicyFromTableN_eq_scan merge empty key direction hv Acl.fieldLink acls portPolicy
  · exact getPolicyFromTableN_eq_scan merge empty key direction hv6 Acl.field6Link acls portPolicy

/-- One ACL whose single IPv4 node leaves every bit open: with vector size 4 the
table hands a blank key its policy. -/
theorem generateDdbsTable_eq_scan_wildcard :
    (Ddbs.generateDdbsTable
        [(Acl.mk [] [] [MatchNode.mk MatchedField.blank MatchedField.blank] [] 7 : Acl Nat)]
        (some 4)).getPolicyFromTable
      (fun (a b : Nat) (_ : Unit) => a + b) 0 MatchedField.blank () none = some 7 := by
  rw [(generateDdbsTable_eq_scan _ (some 4) (by simp) (fun (a b : Nat) (_ : Unit) => a + b) 0).2.2.2.2.1]
  decide

end Sophon.Server
