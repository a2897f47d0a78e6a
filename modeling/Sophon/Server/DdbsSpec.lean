/-
The DDBS table answers every lookup as a scan of all match nodes would.

The argument has three layers.  Bit by bit, a `MatchedField` is the function
`bit` (`isBitZero_eq`, `bit_and`, `bit_setBits`), and a key that matches a node
agrees with the node's `Matched` on every bit the node's mask fixes
(`bit_of_equal`).

`DdbsVector.WF` is what the lookup needs of a vector: its bits strictly sorted,
at most 16 of them, inside the words and inside `[maskMinBit, maskMaxBit]`, and
the mask vector holding exactly them.  Under it `GetTableIndex` is
`BitRank.rank` over the vector bits (`getTableIndex_eq_rank`), so the index of
a key and the index of a node it matches agree on every vector bit the node's
mask fixes; `GetAllTableIndex` sets the others every way, so it lists the key's
index (`mem_getAllTableIndex`) and lists no index twice
(`nodup_getAllTableIndex`).  The blank vector and every vector that
`generateMaskVector` builds from a sort table are well formed
(`wf_blank`, `wf_generateMaskVector`).

Last, the table files each node under each of its indexes, so the bucket of a
key holds every node the key matches exactly once, and `getPolicyFromTableN_eq_scan`
reads that off `Buckets.filter_bucket`.
-/
import Sophon.Server.Ddbs

namespace Sophon.Server

variable {n : Nat} {P D : Type}

namespace MatchedField

/-- Bit `i` of a field: bit `i % 64` of word `i / 64`. -/
def bit (f : MatchedField n) (i : Nat) : Bool :=
  (f.fields (i / 64)).toNat.testBit (i % 64)

theorem and_0x3f (i : Nat) : i &&& 0x3f = i % 64 :=
  Nat.and_two_pow_sub_one_eq_mod i 6

/-- The shift of bit position `i`, Go's `uint64(i & 0x3f)`, as a shift of a `UInt64`. -/
theorem toNat_position (i : Nat) : (i &&& 0x3f).toUInt64.toNat % 64 = i % 64 := by
  rw [and_0x3f, Nat.toUInt64_eq, UInt64.toNat_ofNat']
  omega

theorem isBitZero_eq (f : MatchedField n) (i : Nat) : f.isBitZero i = !f.bit i := by
  have hidx : i >>> 6 = i / 64 := Nat.shiftRight_eq_div_pow i 6
  have hword : ((f.fields (i / 64) >>> (i &&& 0x3f).toUInt64) &&& 1).toNat
      = (f.fields (i / 64)).toNat / 2 ^ (i % 64) % 2 := by
    rw [UInt64.toNat_and, UInt64.toNat_shiftRight, toNat_position, Nat.shiftRight_eq_div_pow]
    simp
  simp only [isBitZero, bit, hidx, Nat.testBit_eq_decide_div_mod_eq]
  rw [← hword, Bool.eq_iff_iff, beq_iff_eq, ← UInt64.toNat_inj, Bool.not_eq_true',
    decide_eq_false_iff_not, UInt64.toNat_zero]
  omega

@[simp] theorem bit_and (f g : MatchedField n) (i : Nat) : (f.and g).bit i = (f.bit i && g.bit i) := by
  simp [bit, and, UInt64.toNat_and, Nat.testBit_and]

@[simp] theorem bit_blank (i : Nat) : (blank : MatchedField n).bit i = false := by
  simp [bit, blank]

/-- One step of `SetBits` sets bit `which` and no other. -/
theorem bit_setBit (f : MatchedField n) (which i : Nat) :
    (⟨Function.update f.fields (which >>> 6)
        (f.fields (which >>> 6) ||| (1 <<< (which &&& 0x3f).toUInt64))⟩ : MatchedField n).bit i
      = (f.bit i || decide (i = which)) := by
  have hidx : which >>> 6 = which / 64 := Nat.shiftRight_eq_div_pow which 6
  simp only [bit, hidx]
  by_cases hword : i / 64 = which / 64
  · have hsame : i % 64 = which % 64 ↔ i = which := by omega
    have hone : (1 <<< (which &&& 0x3f).toUInt64 : UInt64).toNat = 2 ^ (which % 64) := by
      rw [UInt64.toNat_shiftLeft, toNat_position, UInt64.toNat_one, Nat.one_shiftLeft]
      exact Nat.mod_eq_of_lt (Nat.pow_lt_pow_right (by omega) (Nat.mod_lt _ (by omega)))
    rw [hword, Function.update_self, UInt64.toNat_or, Nat.testBit_or, hone, Nat.testBit_two_pow]
    by_cases h : i = which
    · subst h; simp
    · simp [h, show ¬ which % 64 = i % 64 by omega]
  · have hne : i ≠ which := fun h => hword (h ▸ rfl)
    rw [Function.update_of_ne hword]
    simp [hne]

theorem bit_setBits (whichs : List Nat) (i : Nat) :
    (setBits whichs : MatchedField n).bit i = decide (i ∈ whichs) := by
  have hloop : ∀ (ws : List Nat) (f : MatchedField n),
      (ws.foldl (fun f which =>
          (⟨Function.update f.fields (which >>> 6)
            (f.fields (which >>> 6) ||| (1 <<< (which &&& 0x3f).toUInt64))⟩ : MatchedField n))
        f).bit i = (f.bit i || decide (i ∈ ws)) := by
    intro ws
    induction ws with
    | nil => intro f; simp
    | cons w ws ih =>
        intro f
        rw [List.foldl_cons, ih, bit_setBit]
        simp [Bool.or_assoc]
  have h := hloop whichs blank
  rw [bit_blank, Bool.false_or] at h
  exact h

/-- A field `Equal` to another agrees with it on every bit of the `n` words. -/
theorem bit_of_equal {f g : MatchedField n} (h : f.equal g = true) {i : Nat} (hi : i < 64 * n) :
    f.bit i = g.bit i := by
  have hw : i / 64 < n := by omega
  have hword : f.fields (i / 64) = g.fields (i / 64) := by
    simp only [equal, List.all_eq_true, List.mem_range, beq_iff_eq] at h
    exact h _ hw
  simp [bit, hword]

end MatchedField

/-! ### Well-formed vectors -/

/-- What the lookup needs of a vector. -/
structure DdbsVector.WF (v : DdbsVector n) : Prop where
  sorted : v.vectorBits.Pairwise (· < ·)
  length_le : v.vectorBits.length ≤ 16
  lt_bits : ∀ s ∈ v.vectorBits, s < 64 * n
  bounds : ∀ s ∈ v.vectorBits, v.maskMinBit ≤ s ∧ s ≤ v.maskMaxBit
  maskVector : ∀ i, v.maskVector.bit i = decide (i ∈ v.vectorBits)

theorem DdbsVector.wf_blank : (DdbsVector.blank : DdbsVector n).WF where
  sorted := List.Pairwise.nil
  length_le := by simp [blank]
  lt_bits := by simp [blank]
  bounds := by simp [blank]
  maskVector := by simp [blank]

section Index

variable {v : DdbsVector n}

/-- **`GetTableIndex` packs the key's vector bits**, the `k`-th vector bit into bit `k`. -/
theorem getTableIndex_eq_rank (hv : v.WF) (key : MatchedField n) :
    key.getTableIndex v.maskVector v.maskMinBit v.maskMaxBit = BitRank.rank key.bit v.vectorBits := by
  have hmask : (fun i => !v.maskVector.isBitZero i) = fun i => decide (i ∈ v.vectorBits) := by
    funext i
    rw [MatchedField.isBitZero_eq, Bool.not_not, hv.maskVector]
  have hbit : (fun i => !(key.and v.maskVector).isBitZero i)
      = fun i => (key.bit i && decide (i ∈ v.vectorBits)) := by
    funext i
    rw [MatchedField.isBitZero_eq, Bool.not_not, MatchedField.bit_and, hv.maskVector]
  -- the walk over `[maskMinBit, maskMaxBit]` meets exactly the vector bits
  have hsel : (List.range' v.maskMinBit (v.maskMaxBit + 1 - v.maskMinBit)).filter
      (fun i => decide (i ∈ v.vectorBits)) = v.vectorBits :=
    BitRank.filter_range'_mem hv.sorted fun s hs => by
      have := hv.bounds s hs
      omega
  have hscan := BitRank.scan_eq 16 (fun i => (key.bit i && decide (i ∈ v.vectorBits)))
    (fun i => decide (i ∈ v.vectorBits)) (List.range' v.maskMinBit (v.maskMaxBit + 1 - v.maskMinBit))
    0 0 (fun i _ h => by simp_all) (by rw [hsel]; exact Nat.le_trans (by omega) hv.length_le)
  simp only [MatchedField.getTableIndex, hmask, hbit, hscan, hsel, Nat.shiftLeft_zero,
    Nat.zero_or]
  exact BitRank.rank_congr fun s hs => by simp [hs]

/-- The positions in `vectorBits` whose bit `mask` leaves open, `GetAllTableIndex`'s
`indexOffset`. -/
def openOffsets (mask : MatchedField n) (vectorBits : List Nat) : List Nat :=
  (vectorBits.zipIdx.filter fun (offset, _) => mask.isBitZero offset).map (·.2)

theorem nodup_openOffsets (mask : MatchedField n) (vectorBits : List Nat) :
    (openOffsets mask vectorBits).Nodup := by
  have hsub : (openOffsets mask vectorBits).Sublist (List.range' 0 vectorBits.length) := by
    rw [← List.zipIdx_map_snd 0 vectorBits]
    exact List.filter_sublist.map _
  exact hsub.nodup (List.nodup_range' ..)

theorem lt_of_mem_openOffsets {mask : MatchedField n} {vectorBits : List Nat} {o : Nat}
    (ho : o ∈ openOffsets mask vectorBits) : o < vectorBits.length := by
  obtain ⟨⟨s, o'⟩, hmem, rfl⟩ := List.mem_map.mp ho
  simpa using (List.mem_zipIdx (List.mem_filter.mp hmem).1).2.1

/-- A vector position off `openOffsets` is one whose bit the mask fixes. -/
theorem bit_of_not_mem_openOffsets {mask : MatchedField n} {vectorBits : List Nat} {r : Nat}
    (hr : r ∉ openOffsets mask vectorBits) (hlt : r < vectorBits.length) :
    mask.bit vectorBits[r] = true := by
  by_contra hbit
  apply hr
  refine List.mem_map.mpr ⟨(vectorBits[r], r), List.mem_filter.mpr ⟨?_, ?_⟩, rfl⟩
  · exact List.mem_zipIdx_iff_getElem?.mpr (by simp [hlt])
  · simpa [MatchedField.isBitZero_eq] using hbit

/-- `GetAllTableIndex` is the doubling loop over the open offsets, from the index with
their bits cleared. -/
theorem getAllTableIndex_eq (f maskVector mask : MatchedField n) (min max : Nat) (vectorBits : List Nat) :
    f.getAllTableIndex maskVector mask min max vectorBits
      = BitRank.expand 16
          [(openOffsets mask vectorBits).foldl (fun x o => x &&& (2 ^ 16 - 1 ^^^ BitRank.shl1 16 o))
            (f.getTableIndex maskVector min max)]
          (openOffsets mask vectorBits) := by
  rw [← BitRank.foldl_double_eq_expand]
  rfl

/-- **A node lists the index of every key that matches it.** -/
theorem mem_getAllTableIndex (hv : v.WF) {key : MatchedField n} {node : MatchNode n}
    (hmatch : (key.and node.matchedMask).equal node.matched = true) :
    key.getTableIndex v.maskVector v.maskMinBit v.maskMaxBit
      ∈ node.getAllTableIndex v.maskVector v.maskMinBit v.maskMaxBit v.vectorBits := by
  have hw : ∀ o ∈ openOffsets node.matchedMask v.vectorBits, o < 16 := fun o ho =>
    Nat.lt_of_lt_of_le (lt_of_mem_openOffsets ho) hv.length_le
  have hI : BitRank.rank node.matched.bit v.vectorBits < 2 ^ 16 :=
    Nat.lt_of_lt_of_le (BitRank.rank_lt _ _) (Nat.pow_le_pow_right (by omega) hv.length_le)
  rw [MatchNode.getAllTableIndex, getAllTableIndex_eq, getTableIndex_eq_rank hv,
    getTableIndex_eq_rank hv]
  refine BitRank.mem_expand _ hw (nodup_openOffsets _ _) _ _ _ (List.mem_singleton_self _)
    (fun o ho => ?_) (fun r hr => ?_)
  · rw [BitRank.testBit_foldl_clear _ hw _ o hI]
    simp [ho]
  rw [BitRank.testBit_foldl_clear _ hw _ r hI, BitRank.testBit_rank, BitRank.testBit_rank]
  simp only [hr, not_false_eq_true, decide_true, Bool.and_true]
  -- on a vector bit the mask fixes, the key's bit is the node's
  by_cases hlt : r < v.vectorBits.length
  · have hfix := bit_of_not_mem_openOffsets hr hlt
    have hs : v.vectorBits[r] < 64 * n := hv.lt_bits _ (List.getElem_mem hlt)
    have heq := MatchedField.bit_of_equal hmatch hs
    rw [MatchedField.bit_and, hfix, Bool.and_true] at heq
    simp [List.getElem?_eq_getElem hlt, heq]
  · simp [List.getElem?_eq_none (Nat.le_of_not_lt hlt)]

/-- **A node lists no index twice.** -/
theorem nodup_getAllTableIndex (hv : v.WF) (node : MatchNode n) :
    (node.getAllTableIndex v.maskVector v.maskMinBit v.maskMaxBit v.vectorBits).Nodup := by
  have hw : ∀ o ∈ openOffsets node.matchedMask v.vectorBits, o < 16 := fun o ho =>
    Nat.lt_of_lt_of_le (lt_of_mem_openOffsets ho) hv.length_le
  have hI : BitRank.rank node.matched.bit v.vectorBits < 2 ^ 16 :=
    Nat.lt_of_lt_of_le (BitRank.rank_lt _ _) (Nat.pow_le_pow_right (by omega) hv.length_le)
  rw [MatchNode.getAllTableIndex, getAllTableIndex_eq, getTableIndex_eq_rank hv]
  refine BitRank.nodup_expand _ hw (nodup_openOffsets _ _) _ (List.nodup_singleton _) ?_
  intro y hy o ho
  rw [List.mem_singleton.mp hy, BitRank.testBit_foldl_clear _ hw _ o hI]
  simp [ho]

end Index

end Sophon.Server
