/-
What the codec writes, and that each read takes back what the matching write put.

The encoder appends, for each field, the bytes of a wire format of `Lib/ByteCoding`:
little-endian words, the base-128 varint of a value or of its zigzag code, and the
prefix varint (`encodeVarint_eq`, `writePrefixU64_eq`, `zigzagU32_toNat`).  For the
prefix varint this rests on the de Bruijn tables counting right on every word the
writer and the reader hand them (`countLeadingZeros64_eq`, `countTrailingZeros32_first`).

Each read is then stated at a decoder whose cursor stands at the start of a field's
bytes, whatever comes before and after them: it returns the value and moves the cursor
to the end of the field, with the error count unchanged.  The varint reader is shown
right on both of its paths, so the result does not depend on how many bytes follow.
-/
import Sophon.Lib.Loop
import Sophon.Server.Codec

namespace Sophon.Server.Codec

open LittleEndian

/-! ### Words -/

theorem uint16_putUint16 (v : UInt16) (rest : List UInt8) : uint16 (putUint16 v ++ rest) = v := by
  unfold uint16 putUint16
  rw [ofLE_take_toLE_append (Nat.le_refl 2), Nat.sub_self, List.take_zero, ofLE_nil, Nat.mul_zero,
    Nat.add_zero, Nat.mod_eq_of_lt (show v.toNat < 256 ^ 2 from v.toNat_lt), Nat.toUInt16_eq, UInt16.ofNat_toNat]

theorem uint32_putUint32 (v : UInt32) (rest : List UInt8) : uint32 (putUint32 v ++ rest) = v := by
  unfold uint32 putUint32
  rw [ofLE_take_toLE_append (Nat.le_refl 4), Nat.sub_self, List.take_zero, ofLE_nil, Nat.mul_zero,
    Nat.add_zero, Nat.mod_eq_of_lt (show v.toNat < 256 ^ 4 from v.toNat_lt), Nat.toUInt32_eq, UInt32.ofNat_toNat]

theorem uint64_putUint64 (v : UInt64) (rest : List UInt8) : uint64 (putUint64 v ++ rest) = v := by
  unfold uint64 putUint64
  rw [ofLE_take_toLE_append (Nat.le_refl 8), Nat.sub_self, List.take_zero, ofLE_nil, Nat.mul_zero,
    Nat.add_zero, Nat.mod_eq_of_lt (show v.toNat < 256 ^ 8 from v.toNat_lt), Nat.toUInt64_eq, UInt64.ofNat_toNat]

@[simp] theorem length_putUint16 (v : UInt16) : (putUint16 v).length = 2 := length_toLE _ _

@[simp] theorem length_putUint32 (v : UInt32) : (putUint32 v).length = 4 := length_toLE _ _

@[simp] theorem length_putUint64 (v : UInt64) : (putUint64 v).length = 8 := length_toLE _ _

/-- `bytesToUint64` reads up to eight bytes as `ofLE` does. -/
theorem bytesToUint64_eq {b : List UInt8} (hb : b.length ≤ 8) : bytesToUint64 b = (ofLE b).toUInt64 := by
  unfold bytesToUint64
  rw [List.range_eq_range']
  have hrun := Loop.foldl_range'_sweep (fun t (r : UInt64) => r.toNat = ofLE (b.take t))
    (fun r i => r ||| shiftLeft64 (b.getD i 0).toUInt64 (8 * i)) 0 b.length 0
    (fun t r _ ht hr => ?_) rfl
  · rw [Nat.zero_add, List.take_length] at hrun
    apply UInt64.toNat_inj.mp
    rw [hrun, Nat.toUInt64_eq, UInt64.toNat_ofNat', Nat.mod_eq_of_lt]
    exact Nat.lt_of_lt_of_le (ofLE_lt b) (Nat.pow_le_pow_right (by decide) hb)
  · have hlt : ofLE (b.take t) < 2 ^ (8 * t) := by
      have := ofLE_lt (b.take t)
      rw [List.length_take, Nat.min_eq_left (by omega)] at this
      rw [Nat.pow_mul]
      exact this
    have hbyte : (b.getD t 0).toNat < 2 ^ 8 := (b.getD t 0).toNat_lt
    have hfit : (b.getD t 0).toNat * 2 ^ (8 * t) < 2 ^ 64 := by
      calc (b.getD t 0).toNat * 2 ^ (8 * t) < 2 ^ 8 * 2 ^ (8 * t) :=
            Nat.mul_lt_mul_of_pos_right hbyte (Nat.two_pow_pos _)
        _ = 2 ^ (8 * (t + 1)) := by rw [← Nat.pow_add]; congr 1; omega
        _ ≤ 2 ^ 64 := Nat.pow_le_pow_right (by decide) (by omega)
    have htake : b.take (t + 1) = b.take t ++ [b.getD t 0] := by
      rw [List.take_add_one, List.getD_eq_getElem?_getD, List.getElem?_eq_getElem (by omega)]
      rfl
    unfold shiftLeft64
    rw [if_pos (by omega), UInt64.toNat_or, UInt64.toNat_shiftLeft, UInt8.toNat_toUInt64, hr, htake,
      ofLE_append, List.length_take, Nat.min_eq_left (by omega), ofLE_cons, ofLE_nil]
    simp only [Nat.toUInt64_eq, UInt64.toNat_ofNat', Nat.mod_eq_of_lt (show 8 * t < 2 ^ 64 by omega),
      Nat.mod_eq_of_lt (show 8 * t < 64 by omega), Nat.shiftLeft_eq, Nat.mod_eq_of_lt hfit]
    have hor : ofLE (b.take t) ||| (b.getD t 0).toNat * 2 ^ (8 * t) =
        ofLE (b.take t) + 256 ^ t * (b.getD t 0).toNat := by
      rw [Nat.or_comm, Nat.mul_comm, ← Nat.two_pow_add_eq_or_of_lt hlt, Nat.pow_mul,
        show (2 : Nat) ^ 8 = 256 by rfl]
      omega
    rw [hor, Nat.mul_zero, Nat.add_zero]

/-! ### The encoder writes the wire formats -/

namespace SimpleEncoder

/-- A byte with the top bit set and the low seven bits of `x`. -/
theorem varintByte_eq (x : UInt64) : (x &&& 0x7f ||| 0x80).toUInt8 = (x.toNat % 128 + 128).toUInt8 := by
  apply UInt8.toNat_inj.mp
  have hlow : x.toNat &&& 127 = x.toNat % 128 := Nat.and_two_pow_sub_one_eq_mod x.toNat 7
  have hor : x.toNat % 128 ||| 128 = x.toNat % 128 + 128 := by
    have h := Nat.two_pow_add_eq_or_of_lt (show x.toNat % 128 < 2 ^ 7 from Nat.mod_lt _ (by decide)) 1
    simp only [Nat.reducePow, Nat.mul_one] at h
    rw [Nat.or_comm, ← h, Nat.add_comm]
  rw [UInt64.toNat_toUInt8, UInt64.toNat_or, UInt64.toNat_and]
  simp only [UInt64.reduceToNat, hlow, hor, Nat.toUInt8_eq, UInt8.toNat_ofNat']

/-- `encodeVarint` appends the varint of `x`. -/
theorem encodeVarint_eq (e : SimpleEncoder) (x : UInt64) :
    e.encodeVarint x = ⟨e.buf ++ Varint.encode x.toNat⟩ := by
  induction hn : x.toNat using Nat.strongRecOn generalizing e x with
  | ind n ih =>
  rw [encodeVarint]
  have h128 : ((1 : UInt64) <<< 7).toNat = 128 := rfl
  by_cases hbig : 128 ≤ n
  · have hshift : (x >>> 7).toNat = n / 128 := by
      rw [UInt64.toNat_shiftRight, hn]
      simp [Nat.shiftRight_eq_div_pow]
    rw [if_pos (by rw [ge_iff_le, UInt64.le_iff_toNat_le, h128]; omega),
      ih (n / 128) (by omega) _ _ hshift, Varint.encode_of_ge hbig, varintByte_eq, hn,
      List.append_assoc, List.singleton_append]
  · have hbyte : x.toUInt8 = n.toUInt8 := by
      apply UInt8.toNat_inj.mp
      rw [UInt64.toNat_toUInt8, hn, Nat.toUInt8_eq, UInt8.toNat_ofNat']
    rw [if_neg (by rw [ge_iff_le, UInt64.le_iff_toNat_le, h128]; omega),
      Varint.encode_of_lt (by omega), hbyte]

/-- The loop of `WritePrefixU64` appends the `n` low bytes of `x`. -/
theorem appendLowBytes_eq (e : SimpleEncoder) (n : Nat) (x : UInt64) :
    appendLowBytes e n x = ⟨e.buf ++ toLE n x.toNat⟩ := by
  induction n generalizing e x with
  | zero => simp [appendLowBytes, toLE]
  | succ n ih =>
    have hbyte : (x &&& 0xff).toUInt8 = (x.toNat % 256).toUInt8 := by
      apply UInt8.toNat_inj.mp
      rw [UInt64.toNat_toUInt8, UInt64.toNat_and]
      simp only [UInt64.reduceToNat, Nat.toUInt8_eq, UInt8.toNat_ofNat']
      rw [show (255 : Nat) = 2 ^ 8 - 1 by rfl, Nat.and_two_pow_sub_one_eq_mod]
    have hshift : (x >>> 8).toNat = x.toNat / 256 := by
      rw [UInt64.toNat_shiftRight]
      simp [Nat.shiftRight_eq_div_pow]
    rw [appendLowBytes, ih, hbyte, hshift, toLE, List.append_assoc, List.singleton_append]

theorem writeU16Slice_eq (e : SimpleEncoder) (vs : List UInt16) :
    e.writeU16Slice vs = ⟨e.buf ++ putUint32 vs.length.toUInt32 ++ vs.flatMap putUint16⟩ := by
  unfold writeU16Slice writeU32
  suffices h : ∀ (e : SimpleEncoder) (vs : List UInt16),
      vs.foldl (fun e v => ⟨e.buf ++ putUint16 v⟩) e = ⟨e.buf ++ vs.flatMap putUint16⟩ from h _ vs
  intro e vs
  induction vs generalizing e with
  | nil => simp
  | cons v vs ih => rw [List.foldl_cons, ih, List.flatMap_cons, List.append_assoc]

theorem writeU32Slice_eq (e : SimpleEncoder) (vs : List UInt32) :
    e.writeU32Slice vs = ⟨e.buf ++ putUint32 vs.length.toUInt32 ++ vs.flatMap putUint32⟩ := by
  unfold writeU32Slice writeU32
  suffices h : ∀ (e : SimpleEncoder) (vs : List UInt32),
      vs.foldl (fun e v => ⟨e.buf ++ putUint32 v⟩) e = ⟨e.buf ++ vs.flatMap putUint32⟩ from h _ vs
  intro e vs
  induction vs generalizing e with
  | nil => simp
  | cons v vs ih => rw [List.foldl_cons, ih, List.flatMap_cons, List.append_assoc]

end SimpleEncoder

/-! ### Bit counts -/

/-- The lookup of `count_leading_zeros_32`, on each of the 32 words it is given. -/
theorem deBruijnLookupLeading_ones : ∀ L, L < 32 →
    deBruijnLookupLeading.getD
      (((((2 ^ (L + 1) - 1 : Nat).toUInt32 * 0x07c4acdd) &&& 0xffffffff) >>> 27).toNat) 0 = 31 - L := by
  decide

theorem toNat_or_shiftRight (x k : UInt32) (hk : k.toNat < 32) :
    (x ||| x >>> k).toNat = x.toNat ||| x.toNat >>> k.toNat := by
  rw [UInt32.toNat_or, UInt32.toNat_shiftRight, Nat.mod_eq_of_lt hk]

/-- `count_leading_zeros_32` of a word that is not zero. -/
theorem countLeadingZeros32_eq {x : UInt32} (hx : x ≠ 0) : countLeadingZeros32 x = 31 - x.toNat.log2 := by
  have hn : x.toNat ≠ 0 := fun h => hx (UInt32.toNat_inj.mp h)
  have hlog : x.toNat.log2 < 32 := (Nat.log2_lt hn).mpr x.toNat_lt
  unfold countLeadingZeros32
  dsimp only
  generalize hx1 : x ||| x >>> 1 = x1
  generalize hx2 : x1 ||| x1 >>> 2 = x2
  generalize hx4 : x2 ||| x2 >>> 4 = x4
  generalize hx8 : x4 ||| x4 >>> 8 = x8
  generalize hx16 : x8 ||| x8 >>> 16 = x16
  -- each or-step doubles how far below the top bit the ones reach
  have h1 : Bits.Smeared x.toNat.log2 1 x1.toNat := by
    rw [← hx1, toNat_or_shiftRight _ _ (by decide)]
    exact (Bits.smeared_log2 hn).or_shiftRight
  have h2 : Bits.Smeared x.toNat.log2 2 x2.toNat := by
    rw [← hx2, toNat_or_shiftRight _ _ (by decide)]
    exact h1.or_shiftRight
  have h4 : Bits.Smeared x.toNat.log2 3 x4.toNat := by
    rw [← hx4, toNat_or_shiftRight _ _ (by decide)]
    exact h2.or_shiftRight
  have h8 : Bits.Smeared x.toNat.log2 4 x8.toNat := by
    rw [← hx8, toNat_or_shiftRight _ _ (by decide)]
    exact h4.or_shiftRight
  have h16 : Bits.Smeared x.toNat.log2 5 x16.toNat := by
    rw [← hx16, toNat_or_shiftRight _ _ (by decide)]
    exact h8.or_shiftRight
  have hones : x16 = (2 ^ (x.toNat.log2 + 1) - 1 : Nat).toUInt32 := by
    apply UInt32.toNat_inj.mp
    have hlt : 2 ^ (x.toNat.log2 + 1) - 1 < 2 ^ 32 := by
      have hle : 2 ^ (x.toNat.log2 + 1) ≤ 2 ^ 32 := Nat.pow_le_pow_right (by decide) (by omega)
      have hpos := Nat.two_pow_pos (x.toNat.log2 + 1)
      omega
    rw [h16.eq hlog, Nat.toUInt32_eq, UInt32.toNat_ofNat', Nat.mod_eq_of_lt hlt]
  rw [hones, deBruijnLookupLeading_ones _ hlog]

theorem log2_div_two_pow {n k : Nat} (h : n / 2 ^ k ≠ 0) : (n / 2 ^ k).log2 + k = n.log2 := by
  have hn : n ≠ 0 := fun h0 => h (by rw [h0, Nat.zero_div])
  have hlo := Nat.log2_self_le h
  have hhi := Nat.lt_log2_self (n := n / 2 ^ k)
  rw [Nat.le_div_iff_mul_le (Nat.two_pow_pos k), ← Nat.pow_add] at hlo
  rw [Nat.div_lt_iff_lt_mul (Nat.two_pow_pos k), ← Nat.pow_add] at hhi
  have h1 := (Nat.le_log2 hn).mpr hlo
  have h2 := (Nat.log2_lt hn).mpr (show n < 2 ^ ((n / 2 ^ k).log2 + k + 1) by
    rw [show (n / 2 ^ k).log2 + k + 1 = (n / 2 ^ k).log2 + 1 + k by omega]; exact hhi)
  omega

/-- `count_leading_zeros_64` of a word that is not zero. -/
theorem countLeadingZeros64_eq {x : UInt64} (hx : x ≠ 0) : countLeadingZeros64 x = 63 - x.toNat.log2 := by
  have hn : x.toNat ≠ 0 := fun h => hx (UInt64.toNat_inj.mp h)
  have hlog : x.toNat.log2 < 64 := (Nat.log2_lt hn).mpr x.toNat_lt
  have hhigh : (x >>> 32).toNat = x.toNat / 2 ^ 32 := by
    rw [UInt64.toNat_shiftRight]
    simp [Nat.shiftRight_eq_div_pow]
  unfold countLeadingZeros64
  split
  · -- the high half is zero: count in the low half
    rename_i h0
    have hsmall : x.toNat < 2 ^ 32 := by
      have := congrArg UInt64.toNat h0
      rw [hhigh, UInt64.toNat_zero, Nat.div_eq_zero_iff_lt (Nat.two_pow_pos _)] at this
      exact this
    have hlow : ((x &&& 0xffffffff).toUInt32).toNat = x.toNat := by
      rw [UInt64.toNat_toUInt32, UInt64.toNat_and]
      simp only [UInt64.reduceToNat]
      rw [show (4294967295 : Nat) = 2 ^ 32 - 1 by rfl, Nat.and_two_pow_sub_one_eq_mod,
        Nat.mod_mod, Nat.mod_eq_of_lt hsmall]
    rw [countLeadingZeros32_eq (fun h => hn (by rw [← hlow, h, UInt32.toNat_zero])), hlow]
    have := (Nat.log2_lt hn).mpr hsmall
    omega
  · -- count in the high half, which holds the top bit
    rename_i h0
    have hpos : x.toNat / 2 ^ 32 ≠ 0 := fun h => h0 (UInt64.toNat_inj.mp (by rw [hhigh, h, UInt64.toNat_zero]))
    have hhigh' : ((x >>> 32).toUInt32).toNat = x.toNat / 2 ^ 32 := by
      rw [UInt64.toNat_toUInt32, hhigh, Nat.mod_eq_of_lt]
      rw [Nat.div_lt_iff_lt_mul (Nat.two_pow_pos _)]
      exact x.toNat_lt
    rw [countLeadingZeros32_eq (fun h => hpos (by rw [← hhigh', h, UInt32.toNat_zero])), hhigh']
    have := log2_div_two_pow hpos
    omega

/-- The lookup of `count_trailing_zeros_32` on a byte over bit 8: the number of zeros
below the lowest one of the byte, when it has one. -/
theorem countTrailingZeros32_byte : ∀ b, b < 256 → ∀ len, len < 9 → 1 ≤ len →
    b % 2 ^ len = 2 ^ (len - 1) → countTrailingZeros32 ((b.toUInt8).toUInt32 ||| 0x100) = len - 1 := by
  decide +kernel

theorem countTrailingZeros32_zero : countTrailingZeros32 ((0 : UInt8).toUInt32 ||| 0x100) = 8 := by
  decide

/-! ### The prefix varint and the zigzag codes -/

namespace SimpleEncoder

/-- The short form's number, computed in `uint64` without overflow. -/
theorem shortValue_toNat {x : UInt64} (h : x.toNat < 2 ^ 56) :
    ((2 * x + 1) <<< (PrefixVarint.length x.toNat - 1).toUInt64).toNat =
      PrefixVarint.shortValue x.toNat := by
  have hlen8 := PrefixVarint.length_le_eight h
  have hodd : (2 * x + 1).toNat = 2 * x.toNat + 1 := by
    rw [UInt64.toNat_add, UInt64.toNat_mul]
    simp only [UInt64.reduceToNat]
    omega
  have hfit : PrefixVarint.shortValue x.toNat < 2 ^ 64 :=
    calc PrefixVarint.shortValue x.toNat < 256 ^ PrefixVarint.length x.toNat :=
          PrefixVarint.shortValue_lt _
      _ ≤ 256 ^ 8 := Nat.pow_le_pow_right (by decide) hlen8
      _ = 2 ^ 64 := by rfl
  rw [UInt64.toNat_shiftLeft, hodd, Nat.toUInt64_eq, UInt64.toNat_ofNat',
    Nat.mod_eq_of_lt (by omega : PrefixVarint.length x.toNat - 1 < 2 ^ 64),
    Nat.mod_eq_of_lt (by omega : PrefixVarint.length x.toNat - 1 < 64), Nat.shiftLeft_eq]
  exact Nat.mod_eq_of_lt hfit

/-- `WritePrefixU64` appends the prefix varint of `x`. -/
theorem writePrefixU64_eq (e : SimpleEncoder) (x : UInt64) :
    e.writePrefixU64 x = ⟨e.buf ++ PrefixVarint.encode x.toNat⟩ := by
  have hor : (x ||| 1).toNat = x.toNat ||| 1 := by
    rw [UInt64.toNat_or]
    rfl
  have hne : x.toNat ||| 1 ≠ 0 := Nat.ne_of_gt (Nat.lt_of_lt_of_le Nat.one_pos Nat.right_le_or)
  have hbits : 64 - countLeadingZeros64 (x ||| 1) = Nat.log2 (x.toNat ||| 1) + 1 := by
    have hlog : Nat.log2 (x.toNat ||| 1) < 64 :=
      (Nat.log2_lt hne).mpr (Nat.or_lt_two_pow x.toNat_lt (by decide))
    rw [countLeadingZeros64_eq (fun h => hne (by rw [← hor, h, UInt64.toNat_zero])), hor]
    omega
  unfold writePrefixU64 PrefixVarint.encode
  dsimp only
  rw [hbits]
  by_cases hsmall : x.toNat < 2 ^ 56
  · have hlog : Nat.log2 (x.toNat ||| 1) < 56 :=
      (Nat.log2_lt hne).mpr (Nat.or_lt_two_pow hsmall (by decide))
    have hlen : 1 + (Nat.log2 (x.toNat ||| 1) + 1 - 1) / 7 = PrefixVarint.length x.toNat := by
      unfold PrefixVarint.length
      omega
    rw [if_neg (by omega), if_pos hsmall, appendLowBytes_eq, hlen, shortValue_toNat hsmall]
  · have hlog : 56 ≤ Nat.log2 (x.toNat ||| 1) :=
      (Nat.le_log2 hne).mpr (Nat.le_trans (by omega) Nat.left_le_or)
    rw [if_pos (by omega), if_neg hsmall, appendLowBytes_eq, List.append_assoc, List.singleton_append]

end SimpleEncoder

/-- `uint32(int32(v) >> 31)`: every bit a copy of the sign bit. -/
theorem signMask32 (v : UInt32) : (v.toInt32 >>> 31).toUInt32 = if v.toNat < 2 ^ 31 then 0 else ~~~0 := by
  apply UInt32.toBitVec_inj.mp
  have h31 : ((31 : Int32).toBitVec.smod 32).toNat = 32 - 1 := by decide
  have hmsb : v.toBitVec.msb = decide (2 ^ 31 ≤ v.toNat) := by
    rw [BitVec.msb_eq_decide, UInt32.toNat_toBitVec]
  rw [Int32.toBitVec_toUInt32, Int32.toBitVec_shiftRight, UInt32.toBitVec_toInt32, BitVec.sshiftRight',
    h31, Zigzag.sshiftRight_sign, hmsb]
  by_cases h : v.toNat < 2 ^ 31
  · rw [if_pos h, decide_eq_false (by omega)]
    rfl
  · rw [if_neg h, decide_eq_true (by omega)]
    rfl

/-- `uint64(int64(v) >> 63)`. -/
theorem signMask64 (v : UInt64) : (v.toInt64 >>> 63).toUInt64 = if v.toNat < 2 ^ 63 then 0 else ~~~0 := by
  apply UInt64.toBitVec_inj.mp
  have h63 : ((63 : Int64).toBitVec.smod 64).toNat = 64 - 1 := by decide
  have hmsb : v.toBitVec.msb = decide (2 ^ 63 ≤ v.toNat) := by
    rw [BitVec.msb_eq_decide, UInt64.toNat_toBitVec]
  rw [Int64.toBitVec_toUInt64, Int64.toBitVec_shiftRight, UInt64.toBitVec_toInt64, BitVec.sshiftRight',
    h63, Zigzag.sshiftRight_sign, hmsb]
  by_cases h : v.toNat < 2 ^ 63
  · rw [if_pos h, decide_eq_false (by omega)]
    rfl
  · rw [if_neg h, decide_eq_true (by omega)]
    rfl

/-- `WriteZigzagU32`'s code is the zigzag code of `v`. -/
theorem zigzagU32_toNat (v : UInt32) :
    ((v <<< 1) ^^^ (v.toInt32 >>> 31).toUInt32).toNat = Zigzag.encode 32 v.toNat := by
  have hshl : (v <<< 1).toNat = 2 * v.toNat % 2 ^ 32 := by
    rw [UInt32.toNat_shiftLeft]
    simp only [UInt32.reduceToNat, Nat.reduceMod, Nat.shiftLeft_eq]
    omega
  have hv := v.toNat_lt
  rw [signMask32]
  unfold Zigzag.encode
  by_cases h : v.toNat < 2 ^ 31
  · rw [if_pos h, if_pos h, UInt32.xor_zero, hshl]
    omega
  · rw [if_neg h, if_neg h, UInt32.xor_not, UInt32.xor_zero, UInt32.toNat_not, hshl]
    simp only [UInt32.size]
    omega

theorem zigzagU64_toNat (v : UInt64) :
    ((v <<< 1) ^^^ (v.toInt64 >>> 63).toUInt64).toNat = Zigzag.encode 64 v.toNat := by
  have hshl : (v <<< 1).toNat = 2 * v.toNat % 2 ^ 64 := by
    rw [UInt64.toNat_shiftLeft]
    simp only [UInt64.reduceToNat, Nat.reduceMod, Nat.shiftLeft_eq]
    omega
  have hv := v.toNat_lt
  rw [signMask64]
  unfold Zigzag.encode
  by_cases h : v.toNat < 2 ^ 63
  · rw [if_pos h, if_pos h, UInt64.xor_zero, hshl]
    omega
  · rw [if_neg h, if_neg h, UInt64.xor_not, UInt64.xor_zero, UInt64.toNat_not, hshl]
    simp only [UInt64.size]
    omega

/-- `ReadZigzagU32` on the varint's value `x`, a 32-bit code. -/
theorem unzigzagU32_toNat (x : UInt64) (hx : x.toNat < 2 ^ 32) :
    ((x.toUInt32 >>> 1) ^^^ (((x &&& 1).toUInt32.toInt32 <<< 31) >>> 31).toUInt32).toNat =
      Zigzag.decode 32 x.toNat := by
  have hhalf : (x.toUInt32 >>> 1).toNat = x.toNat / 2 := by
    rw [UInt32.toNat_shiftRight, UInt64.toNat_toUInt32, Nat.mod_eq_of_lt hx]
    simp [Nat.shiftRight_eq_div_pow]
  have hlow : (x &&& 1).toUInt32 = if x.toNat % 2 = 0 then 0 else 1 := by
    apply UInt32.toNat_inj.mp
    rw [UInt64.toNat_toUInt32, UInt64.toNat_and]
    simp only [UInt64.reduceToNat, Nat.and_one_is_mod]
    split <;> simp_all
  unfold Zigzag.decode
  rw [hlow]
  split
  · rw [show (((0 : UInt32).toInt32 <<< 31) >>> 31).toUInt32 = 0 by decide, UInt32.xor_zero, hhalf]
  · rw [show (((1 : UInt32).toInt32 <<< 31) >>> 31).toUInt32 = ~~~0 by decide, UInt32.xor_not,
      UInt32.xor_zero, UInt32.toNat_not, hhalf, show UInt32.size = 2 ^ 32 from rfl]

theorem unzigzagU64_toNat (x : UInt64) :
    ((x >>> 1) ^^^ (((x &&& 1).toInt64 <<< 63) >>> 63).toUInt64).toNat = Zigzag.decode 64 x.toNat := by
  have hhalf : (x >>> 1).toNat = x.toNat / 2 := by
    rw [UInt64.toNat_shiftRight]
    simp [Nat.shiftRight_eq_div_pow]
  have hlow : x &&& 1 = if x.toNat % 2 = 0 then 0 else 1 := by
    apply UInt64.toNat_inj.mp
    rw [UInt64.toNat_and]
    simp only [UInt64.reduceToNat, Nat.and_one_is_mod]
    split <;> simp_all
  unfold Zigzag.decode
  rw [hlow]
  split
  · rw [show (((0 : UInt64).toInt64 <<< 63) >>> 63).toUInt64 = 0 by decide, UInt64.xor_zero, hhalf]
  · rw [show (((1 : UInt64).toInt64 <<< 63) >>> 63).toUInt64 = ~~~0 by decide, UInt64.xor_not,
      UInt64.xor_zero, UInt64.toNat_not, hhalf, show UInt64.size = 2 ^ 64 from rfl]

/-! ### Reads at the start of a field -/

/-- A length below `2 ^ 32` survives its `uint32`. -/
theorem toNat_length_toUInt32 {n : Nat} (h : n < 2 ^ 32) : n.toUInt32.toNat = n := by
  rw [Nat.toUInt32_eq, UInt32.toNat_ofNat', Nat.mod_eq_of_lt h]

theorem slice_field (pre bs rest : List UInt8) :
    slice (pre ++ bs ++ rest) pre.length (pre.length + bs.length) = bs := by
  rw [slice, List.append_assoc, List.drop_left, Nat.add_sub_cancel_left, List.take_left]

theorem slice_append (pre bs rest : List UInt8) {a b : Nat} (hab : a ≤ b) (hb : b ≤ bs.length) :
    slice (pre ++ bs ++ rest) (pre.length + a) (pre.length + b) = slice bs a b := by
  rw [slice, slice, List.append_assoc, ← List.drop_drop, List.drop_left, List.drop_append,
    List.take_append, List.length_drop, Nat.add_sub_add_left,
    show b - a - (bs.length - a) = 0 by omega, List.take_zero, List.append_nil]

theorem getElem?_field (pre : List UInt8) (b : UInt8) (bs rest : List UInt8) :
    (pre ++ (b :: bs) ++ rest)[pre.length]? = some b := by
  rw [List.append_assoc, List.getElem?_append_right (Nat.le_refl _), Nat.sub_self]
  rfl

namespace SimpleDecoder

variable {d : SimpleDecoder} {pre bs rest : List UInt8}

/-- A read of as many bytes as `bs` has, at its start, stays inside the buffer. -/
theorem readFixed_at {α : Type} {n : Nat} {zero : α} {read : List UInt8 → Nat → α}
    (hbuf : d.buf = pre ++ bs ++ rest) (hoff : d.offset = pre.length) (hn : bs.length = n) :
    d.readFixed n zero read = (read d.buf (d.offset + n), { d with offset := d.offset + n }) := by
  unfold readFixed
  have hlen : d.offset + n ≤ d.buf.length := by
    rw [hbuf, hoff, List.length_append, List.length_append]
    omega
  dsimp only
  rw [if_neg (by omega)]

/-- The field's own bytes, as a read of them slices them out. -/
theorem slice_at {n : Nat} (hbuf : d.buf = pre ++ bs ++ rest) (hoff : d.offset = pre.length)
    (hn : bs.length = n) : slice d.buf (d.offset + n - n) (d.offset + n) = bs := by
  rw [Nat.add_sub_cancel, hbuf, hoff, ← hn, slice_field]

theorem readU8_at {v : UInt8} (hbuf : d.buf = pre ++ [v] ++ rest) (hoff : d.offset = pre.length) :
    d.readU8 = (v, { d with offset := d.offset + 1 }) := by
  unfold readU8
  rw [readFixed_at (n := 1) hbuf hoff rfl, Nat.add_sub_cancel, hbuf, hoff, List.getD_eq_getElem?_getD,
    getElem?_field]
  rfl

theorem readBool_at {v : Bool} (hbuf : d.buf = pre ++ [if v then 1 else 0] ++ rest)
    (hoff : d.offset = pre.length) : d.readBool = (v, { d with offset := d.offset + 1 }) := by
  unfold readBool
  rw [readFixed_at (n := 1) hbuf hoff rfl, Nat.add_sub_cancel, hbuf, hoff, List.getD_eq_getElem?_getD,
    getElem?_field]
  cases v <;> rfl

theorem readU16_at {v : UInt16} (hbuf : d.buf = pre ++ putUint16 v ++ rest) (hoff : d.offset = pre.length) :
    d.readU16 = (v, { d with offset := d.offset + 2 }) := by
  unfold readU16
  rw [readFixed_at hbuf hoff (length_putUint16 v), slice_at hbuf hoff (length_putUint16 v),
    ← List.append_nil (putUint16 v), uint16_putUint16]

theorem readU32_at {v : UInt32} (hbuf : d.buf = pre ++ putUint32 v ++ rest) (hoff : d.offset = pre.length) :
    d.readU32 = (v, { d with offset := d.offset + 4 }) := by
  unfold readU32
  rw [readFixed_at hbuf hoff (length_putUint32 v), slice_at hbuf hoff (length_putUint32 v),
    ← List.append_nil (putUint32 v), uint32_putUint32]

theorem readU64_at {v : UInt64} (hbuf : d.buf = pre ++ putUint64 v ++ rest) (hoff : d.offset = pre.length) :
    d.readU64 = (v, { d with offset := d.offset + 8 }) := by
  unfold readU64
  rw [readFixed_at hbuf hoff (length_putUint64 v), slice_at hbuf hoff (length_putUint64 v),
    ← List.append_nil (putUint64 v), uint64_putUint64]

theorem readIPv6_at {v0 v : List UInt8} (hv0 : v0.length = 16) (hv : v.length = 16)
    (hbuf : d.buf = pre ++ v ++ rest) (hoff : d.offset = pre.length) :
    d.readIPv6 v0 = some (v, { d with offset := d.offset + 16 }) := by
  unfold readIPv6
  rw [if_neg (by omega), readFixed_at hbuf hoff hv, slice_at hbuf hoff hv]

theorem readString255_at {l : Nat} (hl : l < 256) (hbs : bs.length = l)
    (hbuf : d.buf = pre ++ (l.toUInt8 :: bs) ++ rest) (hoff : d.offset = pre.length) :
    d.readString255 = (bs, { d with offset := d.offset + 1 + l }) := by
  have hcount : d.buf = pre ++ [l.toUInt8] ++ (bs ++ rest) := by simp [hbuf]
  have hbuf' : d.buf = (pre ++ [l.toUInt8]) ++ bs ++ rest := by simp [hbuf]
  have hoff' : d.offset + 1 = (pre ++ [l.toUInt8]).length := by simp [hoff]
  unfold readString255
  rw [readU8_at hcount hoff]
  dsimp only
  rw [Varint.toNat_toUInt8 (by omega), readFixed_at (d := { d with offset := d.offset + 1 }) hbuf' hoff' hbs,
    slice_at (d := { d with offset := d.offset + 1 }) hbuf' hoff' hbs]

/-- `ReadBytes` at the start of what `WriteBytes` wrote takes back as many bytes as the
count's low 32 bits say: all of them for a length below `2 ^ 32`, fewer past it. -/
theorem readBytes_wrap (hbuf : d.buf = pre ++ (putUint32 bs.length.toUInt32 ++ bs) ++ rest)
    (hoff : d.offset = pre.length) :
    d.readBytes = (bs.take (bs.length % 2 ^ 32), { d with offset := d.offset + 4 + bs.length % 2 ^ 32 }) := by
  have hcount : d.buf = pre ++ putUint32 bs.length.toUInt32 ++ (bs ++ rest) := by simp [hbuf]
  -- the reader's field ends where the count's low bits say, inside the written bytes
  have hbuf' : d.buf = (pre ++ putUint32 bs.length.toUInt32) ++ bs.take (bs.length % 2 ^ 32) ++
      (bs.drop (bs.length % 2 ^ 32) ++ rest) := by
    rw [List.append_assoc _ (bs.take _), ← List.append_assoc (bs.take _), List.take_append_drop]
    simp [hbuf]
  have hoff' : d.offset + 4 = (pre ++ putUint32 bs.length.toUInt32).length := by simp [hoff]
  have htake : (bs.take (bs.length % 2 ^ 32)).length = bs.length % 2 ^ 32 := by
    rw [List.length_take]
    omega
  have hlen' : (bs.length.toUInt32).toNat = bs.length % 2 ^ 32 := by
    rw [Nat.toUInt32_eq, UInt32.toNat_ofNat']
  unfold readBytes
  rw [readU32_at hcount hoff]
  dsimp only
  rw [hlen', readFixed_at (d := { d with offset := d.offset + 4 }) hbuf' hoff' htake,
    slice_at (d := { d with offset := d.offset + 4 }) hbuf' hoff' htake]

theorem readBytes_at (hlen : bs.length < 2 ^ 32)
    (hbuf : d.buf = pre ++ (putUint32 bs.length.toUInt32 ++ bs) ++ rest) (hoff : d.offset = pre.length) :
    d.readBytes = (bs, { d with offset := d.offset + 4 + bs.length }) := by
  rw [readBytes_wrap hbuf hoff, Nat.mod_eq_of_lt hlen, List.take_length]

/-- The loop of `ReadU16Slice` and `ReadU32Slice`: word `i` from the end of the slice is
word `len - i` of the list. -/
theorem map_range'_words {α : Type} {put : α → List UInt8} {get : List UInt8 → α} {w : Nat}
    (hput : ∀ v, (put v).length = w) (hget : ∀ v, get (put v) = v) (vs : List α) :
    (List.range' 1 vs.length).reverse.map (fun i => get (slice (pre ++ vs.flatMap put ++ rest)
      (pre.length + vs.length * w - w * i) (pre.length + vs.length * w - w * i + w))) = vs := by
  have hflat := length_flatMap_const hput vs
  apply List.ext_getElem (by simp)
  intro j hj hj'
  have hjl : j < vs.length := hj'
  rw [List.getElem_map, List.getElem_reverse, List.getElem_range', List.length_range']
  have hpos : pre.length + vs.length * w - w * (1 + 1 * (vs.length - 1 - j)) = pre.length + w * j := by
    rw [Nat.one_mul, Nat.mul_comm vs.length w]
    have : w * (1 + (vs.length - 1 - j)) + w * j = w * vs.length := by
      rw [← Nat.mul_add]
      congr 1
      omega
    omega
  have hend : w * j + w ≤ (vs.flatMap put).length := by
    rw [hflat, Nat.mul_comm vs.length w, ← Nat.mul_succ]
    exact Nat.mul_le_mul_left w hjl
  rw [hpos, Nat.add_assoc, slice_append pre _ rest (Nat.le_add_right _ _) hend, slice,
    Nat.add_sub_cancel_left, take_drop_flatMap hput vs j hjl, hget]

theorem readU16Slice_at {vs : List UInt16} (hlen : vs.length < 2 ^ 32)
    (hbuf : d.buf = pre ++ (putUint32 vs.length.toUInt32 ++ vs.flatMap putUint16) ++ rest)
    (hoff : d.offset = pre.length) :
    d.readU16Slice = (vs, { d with offset := d.offset + 4 + vs.length * 2 }) := by
  have hcount : d.buf = pre ++ putUint32 vs.length.toUInt32 ++ (vs.flatMap putUint16 ++ rest) := by
    simp [hbuf]
  have hbuf' : d.buf = (pre ++ putUint32 vs.length.toUInt32) ++ vs.flatMap putUint16 ++ rest := by
    simp [hbuf]
  have hoff' : d.offset + 4 = (pre ++ putUint32 vs.length.toUInt32).length := by simp [hoff]
  have hlen' : (vs.length.toUInt32).toNat = vs.length := toNat_length_toUInt32 hlen
  have hflat := length_flatMap_const length_putUint16 vs
  unfold readU16Slice
  rw [readU32_at hcount hoff]
  dsimp only
  rw [hlen']
  split
  · -- an empty slice: the count alone
    rename_i h0
    rw [h0, Nat.zero_mul, Nat.add_zero, List.eq_nil_of_length_eq_zero h0]
  · rw [readFixed_at (d := { d with offset := d.offset + 4 }) hbuf' hoff' hflat]
    dsimp only
    rw [hbuf', hoff', map_range'_words length_putUint16 (fun v => by
      rw [← List.append_nil (putUint16 v), uint16_putUint16])]

theorem readU32Slice_at {vs : List UInt32} (hlen : vs.length < 2 ^ 32)
    (hbuf : d.buf = pre ++ (putUint32 vs.length.toUInt32 ++ vs.flatMap putUint32) ++ rest)
    (hoff : d.offset = pre.length) :
    d.readU32Slice = (vs, { d with offset := d.offset + 4 + vs.length * 4 }) := by
  have hcount : d.buf = pre ++ putUint32 vs.length.toUInt32 ++ (vs.flatMap putUint32 ++ rest) := by
    simp [hbuf]
  have hbuf' : d.buf = (pre ++ putUint32 vs.length.toUInt32) ++ vs.flatMap putUint32 ++ rest := by
    simp [hbuf]
  have hoff' : d.offset + 4 = (pre ++ putUint32 vs.length.toUInt32).length := by simp [hoff]
  have hlen' : (vs.length.toUInt32).toNat = vs.length := toNat_length_toUInt32 hlen
  have hflat := length_flatMap_const length_putUint32 vs
  unfold readU32Slice
  rw [readU32_at hcount hoff]
  dsimp only
  rw [hlen']
  split
  · rename_i h0
    rw [h0, Nat.zero_mul, Nat.add_zero, List.eq_nil_of_length_eq_zero h0]
  · rw [readFixed_at (d := { d with offset := d.offset + 4 }) hbuf' hoff' hflat]
    dsimp only
    rw [hbuf', hoff', map_range'_words length_putUint32 (fun v => by
      rw [← List.append_nil (putUint32 v), uint32_putUint32])]

end SimpleDecoder

/-! ### The varint reader

Both loops read the digits of a number `V < 2 ^ 64` from shift `7 k` on, holding
`V % 2 ^ (7 k)`.  A digit with the top bit set adds its payload at the shift and goes
on (`*_digit`); the last digit completes `V` (`*_last`).  The slow loop ors the payload
in, the fast path adds the byte and takes the top bit back out, in wrapping `uint64`. -/

/-- The digits of `V` from shift `7 k` on: one byte more when they need more than seven bits. -/
theorem encode_digits {V k : Nat} (h : 128 ≤ V / 2 ^ (7 * k)) :
    Varint.encode (V / 2 ^ (7 * k)) =
      (V / 2 ^ (7 * k) % 128 + 128).toUInt8 :: Varint.encode (V / 2 ^ (7 * (k + 1))) := by
  have h7 : 2 ^ (7 * (k + 1)) = 2 ^ (7 * k) * 128 := by
    rw [show 7 * (k + 1) = 7 * k + 7 by omega, Nat.pow_add]
  rw [Varint.encode_of_ge h, Nat.div_div_eq_div_mul, ← h7]

/-- A number below `2 ^ 64` has no digit past shift 63. -/
theorem digit_last {V : Nat} (hV : V < 2 ^ 64) : V / 2 ^ (7 * 9) < 128 := by
  rw [Nat.div_lt_iff_lt_mul (Nat.two_pow_pos _)]
  exact Nat.lt_of_lt_of_le hV (by decide)

theorem toNat_toUInt64_of_lt {n : Nat} (h : n < 2 ^ 64) : n.toUInt64.toNat = n := by
  rw [Nat.toUInt64_eq, UInt64.toNat_ofNat', Nat.mod_eq_of_lt h]

theorem or_payload_toNat {x : UInt64} {b : UInt8} {s : Nat} (hs : s < 64) (hx : x.toNat < 2 ^ s)
    (hfit : b.toNat % 128 * 2 ^ s < 2 ^ 64) :
    (x ||| ((b.toUInt64 &&& 0x7F) <<< s.toUInt64)).toNat = x.toNat + b.toNat % 128 * 2 ^ s := by
  rw [UInt64.toNat_or, UInt64.toNat_shiftLeft, UInt64.toNat_and, UInt8.toNat_toUInt64,
    toNat_toUInt64_of_lt (by omega), Nat.mod_eq_of_lt hs]
  simp only [UInt64.reduceToNat]
  rw [show (127 : Nat) = 2 ^ 7 - 1 by rfl, Nat.and_two_pow_sub_one_eq_mod, Nat.shiftLeft_eq,
    Nat.mod_eq_of_lt hfit, Nat.or_comm, Nat.mul_comm, ← Nat.two_pow_add_eq_or_of_lt hx]
  omega

/-- The slow loop's step for any byte: the payload's bits past bit 63 drop out. -/
theorem or_payload_toNat_mod {x : UInt64} {b : UInt8} {s : Nat} (hs : s < 64) (hx : x.toNat < 2 ^ s) :
    (x ||| ((b.toUInt64 &&& 0x7F) <<< s.toUInt64)).toNat = (x.toNat + b.toNat % 128 * 2 ^ s) % 2 ^ 64 := by
  have hsplit : 2 ^ 64 = 2 ^ s * 2 ^ (64 - s) := by
    rw [← Nat.pow_add]
    congr 1
    omega
  have hpay : b.toNat % 128 * 2 ^ s % 2 ^ 64 = 2 ^ s * (b.toNat % 128 % 2 ^ (64 - s)) := by
    rw [hsplit, Nat.mul_comm, Nat.mul_mod_mul_left]
  have hfit : 2 ^ s * (b.toNat % 128 % 2 ^ (64 - s)) + 2 ^ s ≤ 2 ^ 64 := by
    rw [hsplit, ← Nat.mul_succ]
    exact Nat.mul_le_mul_left _ (Nat.mod_lt _ (Nat.two_pow_pos _))
  have hx64 : x.toNat < 2 ^ 64 := x.toNat_lt
  have hsum : x.toNat + 2 ^ s * (b.toNat % 128 % 2 ^ (64 - s)) < 2 ^ 64 := by omega
  rw [UInt64.toNat_or, UInt64.toNat_shiftLeft, UInt64.toNat_and, UInt8.toNat_toUInt64,
    toNat_toUInt64_of_lt (by omega), Nat.mod_eq_of_lt hs]
  simp only [UInt64.reduceToNat]
  rw [show (127 : Nat) = 2 ^ 7 - 1 by rfl, Nat.and_two_pow_sub_one_eq_mod, Nat.shiftLeft_eq, hpay,
    Nat.or_comm, ← Nat.two_pow_add_eq_or_of_lt hx, Nat.add_mod, Nat.mod_eq_of_lt hx64, hpay,
    Nat.mod_eq_of_lt hsum, Nat.add_comm]

/-- After a byte at shift `s`, the value has no bits from `s + 7` on. -/
theorem or_payload_lt {x : UInt64} {b : UInt8} {s : Nat} (hs : s < 64) (hx : x.toNat < 2 ^ s) :
    (x ||| ((b.toUInt64 &&& 0x7F) <<< s.toUInt64)).toNat < 2 ^ (s + 7) := by
  have hm : b.toNat % 128 * 2 ^ s ≤ 127 * 2 ^ s := Nat.mul_le_mul_right _ (by omega)
  have h7 : 2 ^ (s + 7) = 128 * 2 ^ s := by rw [Nat.pow_add, Nat.mul_comm]
  rw [or_payload_toNat_mod hs hx, h7]
  exact Nat.lt_of_le_of_lt (Nat.mod_le _ _) (by omega)

theorem add_shift_toNat (x : UInt64) (b : UInt8) {s : Nat} (hs : s < 64) :
    (x + (b.toUInt64 <<< s.toUInt64)).toNat = (x.toNat + b.toNat * 2 ^ s) % 2 ^ 64 := by
  rw [UInt64.toNat_add, UInt64.toNat_shiftLeft, UInt8.toNat_toUInt64, toNat_toUInt64_of_lt (by omega),
    Nat.mod_eq_of_lt hs, Nat.shiftLeft_eq, Nat.add_mod_mod]

theorem add_shift_sub_toNat (x : UInt64) (b : UInt8) {s : Nat} (hs : s < 64) (hb : 128 ≤ b.toNat) :
    (x + (b.toUInt64 <<< s.toUInt64) - (0x80 <<< s.toUInt64)).toNat =
      (x.toNat + (b.toNat - 128) * 2 ^ s) % 2 ^ 64 := by
  have hsplit : b.toNat * 2 ^ s = (b.toNat - 128) * 2 ^ s + 128 * 2 ^ s := by
    rw [← Nat.add_mul, Nat.sub_add_cancel hb]
  have hmark : ((0x80 : UInt64) <<< s.toUInt64).toNat = 128 * 2 ^ s % 2 ^ 64 := by
    rw [UInt64.toNat_shiftLeft, toNat_toUInt64_of_lt (by omega), Nat.mod_eq_of_lt hs, Nat.shiftLeft_eq]
    rfl
  rw [UInt64.toNat_sub, add_shift_toNat x b hs, hmark]
  omega

/-- The top bit of a byte, as the fast path tests it. -/
theorem and_0x80_eq_zero (b : UInt8) : (b.toUInt64 &&& 0x80 = 0) ↔ b.toNat < 128 := by
  have h : ∀ n, n < 256 → ((n.toUInt8.toUInt64 &&& 0x80 = 0) ↔ n < 128) := by decide +kernel
  have := h b.toNat b.toNat_lt
  rwa [Nat.toUInt8_eq, UInt8.ofNat_toNat] at this

section Digits

variable {V k : Nat} {x : UInt64}

theorem slow_last (hV : V < 2 ^ 64) (hk : k < 10) (hx : x.toNat = V % 2 ^ (7 * k))
    (hW : V / 2 ^ (7 * k) < 128) :
    x ||| (((V / 2 ^ (7 * k)).toUInt8.toUInt64 &&& 0x7F) <<< (7 * k).toUInt64) = V.toUInt64 := by
  have hb : (V / 2 ^ (7 * k)).toUInt8.toNat = V / 2 ^ (7 * k) := Varint.toNat_toUInt8 (by omega)
  have hle : V / 2 ^ (7 * k) * 2 ^ (7 * k) ≤ V := Nat.div_mul_le_self _ _
  have hdm := Nat.mod_add_div' V (2 ^ (7 * k))
  apply UInt64.toNat_inj.mp
  rw [or_payload_toNat (by omega) (by rw [hx]; exact Nat.mod_lt _ (Nat.two_pow_pos _))
      (by rw [hb, Nat.mod_eq_of_lt hW]; omega), hx, hb, Nat.mod_eq_of_lt hW,
    toNat_toUInt64_of_lt hV]
  omega

theorem slow_digit (hV : V < 2 ^ 64) (hk : k < 10) (hx : x.toNat = V % 2 ^ (7 * k))
    (hW : 128 ≤ V / 2 ^ (7 * k)) :
    (x ||| (((V / 2 ^ (7 * k) % 128 + 128).toUInt8.toUInt64 &&& 0x7F) <<< (7 * k).toUInt64)).toNat =
      V % 2 ^ (7 * (k + 1)) := by
  have hk9 : k ≠ 9 := fun h => by have := digit_last hV; subst h; omega
  have hb : (V / 2 ^ (7 * k) % 128 + 128).toUInt8.toNat % 128 = V / 2 ^ (7 * k) % 128 := by
    rw [Varint.toNat_toUInt8 (by omega)]
    omega
  have hfit : V / 2 ^ (7 * k) % 128 * 2 ^ (7 * k) < 2 ^ 64 :=
    calc V / 2 ^ (7 * k) % 128 * 2 ^ (7 * k) < 2 ^ 7 * 2 ^ (7 * k) :=
          Nat.mul_lt_mul_of_pos_right (Nat.mod_lt _ (by decide)) (Nat.two_pow_pos _)
      _ = 2 ^ (7 * k + 7) := by rw [← Nat.pow_add, Nat.add_comm]
      _ ≤ 2 ^ 64 := Nat.pow_le_pow_right (by decide) (by omega)
  rw [or_payload_toNat (by omega) (by rw [hx]; exact Nat.mod_lt _ (Nat.two_pow_pos _)) (by rw [hb]; exact hfit),
    hx, hb, Varint.mod_add_digit, Nat.mul_succ]

theorem fast_last (hV : V < 2 ^ 64) (hk : k < 10) (hx : x.toNat = V % 2 ^ (7 * k))
    (hW : V / 2 ^ (7 * k) < 128) :
    x + ((V / 2 ^ (7 * k)).toUInt8.toUInt64 <<< (7 * k).toUInt64) = V.toUInt64 := by
  have hb : (V / 2 ^ (7 * k)).toUInt8.toNat = V / 2 ^ (7 * k) := Varint.toNat_toUInt8 (by omega)
  have hdm := Nat.mod_add_div' V (2 ^ (7 * k))
  apply UInt64.toNat_inj.mp
  rw [add_shift_toNat _ _ (by omega), hx, hb, toNat_toUInt64_of_lt hV, hdm, Nat.mod_eq_of_lt hV]

theorem fast_digit (hV : V < 2 ^ 64) (hk : k < 10) (hx : x.toNat = V % 2 ^ (7 * k))
    (hW : 128 ≤ V / 2 ^ (7 * k)) :
    (x + ((V / 2 ^ (7 * k) % 128 + 128).toUInt8.toUInt64 <<< (7 * k).toUInt64) -
      (0x80 <<< (7 * k).toUInt64)).toNat = V % 2 ^ (7 * (k + 1)) := by
  have hk9 : k ≠ 9 := fun h => by have := digit_last hV; subst h; omega
  have hb : (V / 2 ^ (7 * k) % 128 + 128).toUInt8.toNat = V / 2 ^ (7 * k) % 128 + 128 :=
    Varint.toNat_toUInt8 (by omega)
  have hlt : V % 2 ^ (7 * k + 7) < 2 ^ 64 :=
    Nat.lt_of_lt_of_le (Nat.mod_lt _ (Nat.two_pow_pos _)) (Nat.pow_le_pow_right (by decide) (by omega))
  rw [add_shift_sub_toNat _ _ (by omega) (by omega), hx, hb, Nat.add_sub_cancel, Varint.mod_add_digit,
    Nat.mod_eq_of_lt hlt, Nat.mul_succ]

end Digits

theorem getD_field (pre : List UInt8) (b : UInt8) (bs rest : List UInt8) :
    (pre ++ (b :: bs) ++ rest).getD pre.length 0 = b := by
  rw [List.getD_eq_getElem?_getD, getElem?_field]
  rfl

/-- The slow loop reads the digits of `V` from shift `7 k` on. -/
theorem decodeVarintSlowLoop_encode {V : Nat} (hV : V < 2 ^ 64) {buf rest : List UInt8} :
    ∀ (n k : Nat) (pre : List UInt8) (x : UInt64), k + n = 10 → k < 10 →
      buf = pre ++ Varint.encode (V / 2 ^ (7 * k)) ++ rest → x.toNat = V % 2 ^ (7 * k) →
      decodeVarintSlowLoop buf ((List.range' k n).map (7 * ·)) pre.length x =
        (V.toUInt64, .ok (pre.length + (Varint.encode (V / 2 ^ (7 * k))).length))
  | 0, _, _, _, hkn, hk, _, _ => absurd hkn (by omega)
  | n + 1, k, pre, x, hkn, hk, hbuf, hx => by
    have hlen : pre.length < buf.length := by
      have := List.length_pos_of_ne_nil (Varint.encode_ne_nil (V / 2 ^ (7 * k)))
      rw [hbuf, List.length_append, List.length_append]
      omega
    rw [List.range'_succ, List.map_cons, decodeVarintSlowLoop, if_neg (by omega)]
    dsimp only
    by_cases hW : V / 2 ^ (7 * k) < 128
    · have hb : buf.getD pre.length 0 = (V / 2 ^ (7 * k)).toUInt8 := by
        rw [hbuf, Varint.encode_of_lt hW, getD_field]
      rw [hb, if_pos (by rw [UInt8.lt_iff_toNat_lt, Varint.toNat_toUInt8 (by omega)]; exact hW),
        slow_last hV hk hx hW, Varint.encode_of_lt hW]
      rfl
    · have hW' : 128 ≤ V / 2 ^ (7 * k) := by omega
      have hk9 : k ≠ 9 := fun h => by have := digit_last hV; subst h; omega
      have hb : buf.getD pre.length 0 = (V / 2 ^ (7 * k) % 128 + 128).toUInt8 := by
        rw [hbuf, encode_digits hW', getD_field]
      have hbuf' : buf = (pre ++ [(V / 2 ^ (7 * k) % 128 + 128).toUInt8]) ++
          Varint.encode (V / 2 ^ (7 * (k + 1))) ++ rest := by
        rw [hbuf, encode_digits hW']
        simp
      have hmore : ¬ (V / 2 ^ (7 * k) % 128 + 128).toUInt8 < 0x80 := by
        rw [UInt8.lt_iff_toNat_lt, Varint.toNat_toUInt8 (by omega)]
        show ¬ V / 2 ^ (7 * k) % 128 + 128 < 128
        omega
      rw [hb, if_neg hmore]
      have hrest := decodeVarintSlowLoop_encode hV n (k + 1) _ _ (by omega) (by omega) hbuf'
        (slow_digit hV hk hx hW')
      rw [List.length_append, List.length_singleton] at hrest
      rw [hrest, encode_digits hW', List.length_cons, Nat.add_assoc, Nat.add_comm 1]

/-- The fast path reads the digits of `V` from shift `7 k` on, `k ≥ 1`. -/
theorem decodeVarintFast_encode {V : Nat} (hV : V < 2 ^ 64) {buf rest : List UInt8} :
    ∀ (n k : Nat) (pre : List UInt8) (x : UInt64), k + n = 10 → k < 10 →
      buf = pre ++ Varint.encode (V / 2 ^ (7 * k)) ++ rest → x.toNat = V % 2 ^ (7 * k) →
      decodeVarintFast buf ((List.range' k n).map (7 * ·)) pre.length x =
        some (V.toUInt64, pre.length + (Varint.encode (V / 2 ^ (7 * k))).length)
  | 0, _, _, _, hkn, hk, _, _ => absurd hkn (by omega)
  | n + 1, k, pre, x, hkn, hk, hbuf, hx => by
    rw [List.range'_succ, List.map_cons, decodeVarintFast]
    by_cases hW : V / 2 ^ (7 * k) < 128
    · have hb : buf.getD pre.length 0 = (V / 2 ^ (7 * k)).toUInt8 := by
        rw [hbuf, Varint.encode_of_lt hW, getD_field]
      have hlast : ((V / 2 ^ (7 * k)).toUInt8.toUInt64 &&& 0x80 = 0) :=
        (and_0x80_eq_zero _).mpr (by rw [Varint.toNat_toUInt8 (by omega)]; exact hW)
      rw [hb, if_pos hlast, fast_last hV hk hx hW, Varint.encode_of_lt hW]
      rfl
    · have hW' : 128 ≤ V / 2 ^ (7 * k) := by omega
      have hk9 : k ≠ 9 := fun h => by have := digit_last hV; subst h; omega
      have hb : buf.getD pre.length 0 = (V / 2 ^ (7 * k) % 128 + 128).toUInt8 := by
        rw [hbuf, encode_digits hW', getD_field]
      have hbuf' : buf = (pre ++ [(V / 2 ^ (7 * k) % 128 + 128).toUInt8]) ++
          Varint.encode (V / 2 ^ (7 * (k + 1))) ++ rest := by
        rw [hbuf, encode_digits hW']
        simp
      have hmore : ¬ ((V / 2 ^ (7 * k) % 128 + 128).toUInt8.toUInt64 &&& 0x80 = 0) := by
        rw [and_0x80_eq_zero, Varint.toNat_toUInt8 (by omega)]
        omega
      rw [hb, if_neg hmore]
      have hrest := decodeVarintFast_encode hV n (k + 1) _ _ (by omega) (by omega) hbuf'
        (fast_digit hV hk hx hW')
      rw [List.length_append, List.length_singleton] at hrest
      rw [hrest, encode_digits hW', List.length_cons, Nat.add_assoc, Nat.add_comm 1]

/-! ### The fast path against the slow loop, on any bytes

From the same shift and value, the unrolled loop stops where the slow loop stops, with
the same value, and fails where it fails.  A byte with the top bit set adds its payload
to both: the slow loop by `or`, the fast path by adding the byte and taking the bit
back out, which agree while the value has no bits at or above the shift. -/

/-- The step of both loops on a byte that ends the number. -/
theorem fast_last_eq_slow (x : UInt64) (b : UInt8) {s : Nat} (hs : s < 64) (hx : x.toNat < 2 ^ s)
    (hb : b.toNat < 128) :
    x + (b.toUInt64 <<< s.toUInt64) = x ||| ((b.toUInt64 &&& 0x7F) <<< s.toUInt64) := by
  apply UInt64.toNat_inj.mp
  rw [add_shift_toNat x b hs, or_payload_toNat_mod hs hx, Nat.mod_eq_of_lt hb]

/-- The step of both loops on a byte with the top bit set. -/
theorem fast_digit_eq_slow (x : UInt64) (b : UInt8) {s : Nat} (hs : s < 64) (hx : x.toNat < 2 ^ s)
    (hb : 128 ≤ b.toNat) :
    x + (b.toUInt64 <<< s.toUInt64) - (0x80 <<< s.toUInt64) =
      x ||| ((b.toUInt64 &&& 0x7F) <<< s.toUInt64) := by
  have hlt := b.toNat_lt
  apply UInt64.toNat_inj.mp
  rw [add_shift_sub_toNat x b hs hb, or_payload_toNat_mod hs hx, show b.toNat % 128 = b.toNat - 128 by omega]

/-- **The two loops agree** from shift `7 k` on, when the bytes they may read are in the
buffer: the fast path returns what the slow loop stops with, and fails where it fails. -/
theorem decodeVarintFast_eq_slowLoop (buf : List UInt8) :
    ∀ (n k i : Nat) (x : UInt64), k + n = 10 → i + n ≤ buf.length → x.toNat < 2 ^ (7 * k) →
      decodeVarintFast buf ((List.range' k n).map (7 * ·)) i x =
        (decodeVarintSlowLoop buf ((List.range' k n).map (7 * ·)) i x).2.toOption.map
          fun j => ((decodeVarintSlowLoop buf ((List.range' k n).map (7 * ·)) i x).1, j)
  | 0, _, _, _, _, _, _ => rfl
  | n + 1, k, i, x, hkn, hlen, hx => by
    have hs : 7 * k < 64 := by omega
    rw [List.range'_succ, List.map_cons, decodeVarintFast, decodeVarintSlowLoop,
      if_neg (show ¬i ≥ buf.length by omega)]
    dsimp only
    by_cases hb : (buf.getD i 0).toNat < 128
    · -- the byte ends the number in both loops
      rw [if_pos ((and_0x80_eq_zero _).2 hb), if_pos (UInt8.lt_iff_toNat_lt.2 hb),
        fast_last_eq_slow x _ hs hx hb]
      rfl
    · -- both go on to the next shift with the payload added
      have hb' : 128 ≤ (buf.getD i 0).toNat := by omega
      rw [if_neg (by rw [and_0x80_eq_zero]; exact hb), if_neg (by rw [UInt8.lt_iff_toNat_lt]; exact hb),
        fast_digit_eq_slow x _ hs hx hb']
      refine decodeVarintFast_eq_slowLoop buf n (k + 1) (i + 1) _ (by omega) (by omega) ?_
      rw [show 7 * (k + 1) = 7 * k + 7 by omega]
      exact or_payload_lt hs hx

/-- With its bytes in the buffer, the slow loop fails exactly when every byte it reads
has the top bit set. -/
theorem decodeVarintSlowLoop_fails_iff (buf : List UInt8) :
    ∀ (shifts : List Nat) (i : Nat) (x : UInt64), i + shifts.length ≤ buf.length →
      ((decodeVarintSlowLoop buf shifts i x).2.toOption = none ↔
        ∀ j < shifts.length, 0x80 ≤ buf.getD (i + j) 0)
  | [], _, _, _ => by simp [decodeVarintSlowLoop, Except.toOption]
  | s :: shifts, i, x, hlen => by
    rw [List.length_cons] at hlen
    rw [decodeVarintSlowLoop, if_neg (show ¬i ≥ buf.length by omega)]
    dsimp only
    by_cases hb : buf.getD i 0 < 0x80
    · -- a last byte: the loop stops, and the first byte read lacks the top bit
      rw [if_pos hb]
      simp only [Except.toOption, reduceCtorEq, false_iff, not_forall]
      exact ⟨0, by simp, by simpa using hb⟩
    · rw [if_neg hb, decodeVarintSlowLoop_fails_iff buf shifts (i + 1) _ (by omega)]
      constructor
      · intro h j hj
        cases j with
        | zero => simpa using hb
        | succ j => simpa [Nat.add_right_comm, Nat.add_assoc] using h j (by simpa using hj)
      · intro h j hj
        simpa [Nat.add_right_comm, Nat.add_assoc] using h (j + 1) (by simpa using hj)

namespace SimpleDecoder

variable {d : SimpleDecoder} {pre bs rest : List UInt8}

/-- `DecodeVarint` reads the varint of `V` at the cursor, on whichever path the bytes
left send it. -/
theorem decodeVarint_at {V : Nat} (hV : V < 2 ^ 64) (hbuf : d.buf = pre ++ Varint.encode V ++ rest)
    (hoff : d.offset = pre.length) :
    d.decodeVarint = (V.toUInt64, { d with offset := d.offset + (Varint.encode V).length }) := by
  have hlen : d.offset < d.buf.length := by
    have := List.length_pos_of_ne_nil (Varint.encode_ne_nil V)
    rw [hbuf, hoff, List.length_append, List.length_append]
    omega
  unfold decodeVarint
  dsimp only
  rw [if_neg (by omega)]
  by_cases hsmall : V < 128
  · have hb : d.buf.getD d.offset 0 = V.toUInt8 := by
      rw [hbuf, hoff, Varint.encode_of_lt hsmall, getD_field]
    have hval : V.toUInt8.toUInt64 = V.toUInt64 := by
      apply UInt64.toNat_inj.mp
      rw [UInt8.toNat_toUInt64, Varint.toNat_toUInt8 (by omega), toNat_toUInt64_of_lt hV]
    rw [hb, if_pos (by rw [UInt8.lt_iff_toNat_lt, Varint.toNat_toUInt8 (by omega)]; exact hsmall), hval,
      Varint.encode_of_lt hsmall]
    rfl
  · -- a first byte with the top bit set, then the slow loop or the fast path
    have hbig : 128 ≤ V := by omega
    have hb : d.buf.getD d.offset 0 = (V % 128 + 128).toUInt8 := by
      rw [hbuf, hoff, Varint.encode_of_ge hbig, getD_field]
    have hmore : ¬ (V % 128 + 128).toUInt8 < 0x80 := by
      rw [UInt8.lt_iff_toNat_lt, Varint.toNat_toUInt8 (by omega)]
      show ¬ V % 128 + 128 < 128
      omega
    rw [hb, if_neg hmore]
    split
    · have hslow := decodeVarintSlowLoop_encode hV 10 0 pre 0 rfl (by decide) (by simpa using hbuf)
        (by rw [Nat.mul_zero, Nat.pow_zero, Nat.mod_one]; rfl)
      simp only [Nat.mul_zero, Nat.pow_zero, Nat.div_one] at hslow
      unfold decodeVarintSlow
      rw [List.range_eq_range', hoff, hslow]
    · have hbuf' : d.buf = (pre ++ [(V % 128 + 128).toUInt8]) ++ Varint.encode (V / 2 ^ (7 * 1)) ++ rest := by
        rw [hbuf, Varint.encode_of_ge hbig]
        simp
      have hfirst : ((V % 128 + 128).toUInt8.toUInt64 - 0x80).toNat = V % 2 ^ (7 * 1) := by
        rw [UInt64.toNat_sub, UInt8.toNat_toUInt64, Varint.toNat_toUInt8 (by omega)]
        simp only [UInt64.reduceToNat]
        omega
      have hfast := decodeVarintFast_encode hV 9 1 _ _ rfl (by decide) hbuf' hfirst
      rw [List.length_append, List.length_singleton, ← hoff] at hfast
      rw [hfast, Varint.encode_of_ge hbig, List.length_cons, Nat.add_assoc, Nat.add_comm 1,
        show V / 2 ^ (7 * 1) = V / 128 by simp only [Nat.reduceMul, Nat.reducePow]]

/-- The first byte of the fast path, as the slow loop's first turn leaves it. -/
theorem slowLoop_first (d : SimpleDecoder) (hlen : d.offset < d.buf.length)
    (hfirst : 128 ≤ (d.buf.getD d.offset 0).toNat) :
    decodeVarintSlowLoop d.buf ((List.range 10).map (7 * ·)) d.offset 0 =
      decodeVarintSlowLoop d.buf ((List.range' 1 9).map (7 * ·)) (d.offset + 1)
        ((d.buf.getD d.offset 0).toUInt64 - 0x80) := by
  rw [List.range_eq_range', show List.range' 0 10 = 0 :: List.range' 1 9 from rfl, List.map_cons,
    decodeVarintSlowLoop, if_neg (show ¬d.offset ≥ d.buf.length by omega)]
  dsimp only
  rw [if_neg (by rw [UInt8.lt_iff_toNat_lt]; exact Nat.not_lt.2 hfirst),
    ← fast_digit_eq_slow 0 _ (by decide) (by decide) hfirst]
  congr 1
  simp

theorem decodeVarint_fast_eq_slow (d : SimpleDecoder) (hlen : 10 ≤ d.buf.length - d.offset)
    (hfirst : 0x80 ≤ d.buf.getD d.offset 0) :
    d.decodeVarint.2 = d.decodeVarintSlow.2 ∧
      d.decodeVarint.2.err =
        (if ∀ j < 10, 0x80 ≤ d.buf.getD (d.offset + j) 0 then d.err + 1 else d.err) ∧
      ((¬∀ j < 10, 0x80 ≤ d.buf.getD (d.offset + j) 0) → d.decodeVarint.1 = d.decodeVarintSlow.1.1) ∧
      ((∀ j < 10, 0x80 ≤ d.buf.getD (d.offset + j) 0) → d.decodeVarint.1 = 0) ∧
      ∀ (e : SimpleEncoder) (x : UInt64) (rest : List UInt8),
        (SimpleDecoder.mk ((e.encodeVarint x).buf ++ rest) e.buf.length d.err).decodeVarint =
          (x, ⟨(e.encodeVarint x).buf ++ rest, (e.encodeVarint x).buf.length, d.err⟩) := by
  have hfirst' : 128 ≤ (d.buf.getD d.offset 0).toNat := UInt8.le_iff_toNat_le.1 hfirst
  have hlt := (d.buf.getD d.offset 0).toNat_lt
  have hfast := decodeVarintFast_eq_slowLoop d.buf 9 1 (d.offset + 1)
    ((d.buf.getD d.offset 0).toUInt64 - 0x80) rfl (by omega) (by
      rw [UInt64.toNat_sub, UInt8.toNat_toUInt64]
      simp only [UInt64.reduceToNat]
      omega)
  have hfails := decodeVarintSlowLoop_fails_iff d.buf ((List.range 10).map (7 * ·)) d.offset 0
    (by simp only [List.length_map, List.length_range]; omega)
  simp only [List.length_map, List.length_range] at hfails
  rw [slowLoop_first d (by omega) hfirst'] at hfails
  -- the fast path is taken, and both loops run from the second byte
  have hpath : d.decodeVarint =
      (decodeVarintFast d.buf ((List.range' 1 9).map (7 * ·)) (d.offset + 1)
          ((d.buf.getD d.offset 0).toUInt64 - 0x80)).elim (0, { d with err := d.err + 1 })
        fun p => (p.1, { d with offset := p.2 }) := by
    unfold decodeVarint
    dsimp only
    rw [if_neg (by omega), if_neg (by rw [UInt8.lt_iff_toNat_lt]; exact Nat.not_lt.2 hfirst'),
      if_neg (by omega)]
    split
    · rename_i heq
      rw [heq]
      rfl
    · rename_i heq
      rw [heq]
      rfl
  have hslow := slowLoop_first d (by omega) hfirst'
  have hround : ∀ (e : SimpleEncoder) (x : UInt64) (rest : List UInt8),
      (SimpleDecoder.mk ((e.encodeVarint x).buf ++ rest) e.buf.length d.err).decodeVarint =
        (x, ⟨(e.encodeVarint x).buf ++ rest, (e.encodeVarint x).buf.length, d.err⟩) := by
    intro e x rest
    have hbuf : (SimpleDecoder.mk ((e.encodeVarint x).buf ++ rest) e.buf.length d.err).buf =
        e.buf ++ Varint.encode x.toNat ++ rest := by
      rw [SimpleEncoder.encodeVarint_eq]
    rw [decodeVarint_at x.toNat_lt hbuf rfl, Nat.toUInt64_eq, UInt64.ofNat_toNat,
      SimpleEncoder.encodeVarint_eq, List.length_append]
  generalize decodeVarintSlowLoop d.buf ((List.range' 1 9).map (7 * ·)) (d.offset + 1)
    ((d.buf.getD d.offset 0).toUInt64 - 0x80) = r at hfast hfails hslow
  obtain ⟨v, res⟩ := r
  cases res with
  | error err =>
    -- all ten bytes carry the top bit: both count an error, and the fast path returns 0
    have hall : ∀ j < 10, 0x80 ≤ d.buf.getD (d.offset + j) 0 := hfails.1 rfl
    have hd : d.decodeVarint = (0, { d with err := d.err + 1 }) := by
      rw [hpath, hfast]
      rfl
    refine ⟨by rw [hd, decodeVarintSlow, hslow], by rw [hd, if_pos hall], fun h => absurd hall h,
      fun _ => by rw [hd], hround⟩
  | ok i =>
    have hnot : ¬∀ j < 10, 0x80 ≤ d.buf.getD (d.offset + j) 0 := fun h => by
      simpa [Except.toOption] using hfails.2 h
    have hd : d.decodeVarint = (v, { d with offset := i }) := by
      rw [hpath, hfast]
      rfl
    refine ⟨by rw [hd, decodeVarintSlow, hslow], by rw [hd, if_neg hnot],
      fun _ => by rw [hd, decodeVarintSlow, hslow], fun h => absurd h hnot, hround⟩

/-- Ten bytes with the top bit set: both paths count one error, but the fast path
returns 0 and `decodeVarintSlow` the bits it gathered. -/
theorem decodeVarint_overflow_differs :
    (SimpleDecoder.init (0x81 :: List.replicate 9 0x80)).decodeVarint.1 = 0 ∧
      (SimpleDecoder.init (0x81 :: List.replicate 9 0x80)).decodeVarintSlow.1.1 = 1 := by
  decide

/-- The varint of `2 ^ 63` takes the fast path. -/
theorem decodeVarint_fast_eq_slow_top :
    ∃ d : SimpleDecoder, d = SimpleDecoder.init (List.replicate 9 0x80 ++ [1]) ∧
      10 ≤ d.buf.length - d.offset ∧ 0x80 ≤ d.buf.getD d.offset 0 ∧
      d.decodeVarint.2 = d.decodeVarintSlow.2 ∧
      d.decodeVarint.2.err =
        (if ∀ j < 10, 0x80 ≤ d.buf.getD (d.offset + j) 0 then d.err + 1 else d.err) ∧
      ((¬∀ j < 10, 0x80 ≤ d.buf.getD (d.offset + j) 0) → d.decodeVarint.1 = d.decodeVarintSlow.1.1) ∧
      ((∀ j < 10, 0x80 ≤ d.buf.getD (d.offset + j) 0) → d.decodeVarint.1 = 0) ∧
      ∀ (e : SimpleEncoder) (x : UInt64) (rest : List UInt8),
        (SimpleDecoder.mk ((e.encodeVarint x).buf ++ rest) e.buf.length d.err).decodeVarint =
          (x, ⟨(e.encodeVarint x).buf ++ rest, (e.encodeVarint x).buf.length, d.err⟩) :=
  ⟨_, rfl, by decide, by decide, decodeVarint_fast_eq_slow _ (by decide) (by decide)⟩

theorem readVarintU64_at {v : UInt64} (hbuf : d.buf = pre ++ Varint.encode v.toNat ++ rest)
    (hoff : d.offset = pre.length) :
    d.readVarintU64 = (v, { d with offset := d.offset + (Varint.encode v.toNat).length }) := by
  unfold readVarintU64
  rw [decodeVarint_at v.toNat_lt hbuf hoff, Nat.toUInt64_eq, UInt64.ofNat_toNat]

theorem readVarintU32_at {v : UInt32} (hbuf : d.buf = pre ++ Varint.encode v.toNat ++ rest)
    (hoff : d.offset = pre.length) :
    d.readVarintU32 = (v, { d with offset := d.offset + (Varint.encode v.toNat).length }) := by
  have hv : v.toNat < 2 ^ 64 := Nat.lt_trans v.toNat_lt (by decide)
  unfold readVarintU32
  rw [decodeVarint_at hv hbuf hoff]
  dsimp only
  congr 1
  apply UInt32.toNat_inj.mp
  rw [UInt64.toNat_toUInt32, toNat_toUInt64_of_lt hv, Nat.mod_eq_of_lt v.toNat_lt]

theorem readZigzagU32_at {v : UInt32} (hbuf : d.buf = pre ++ Varint.encode (Zigzag.encode 32 v.toNat) ++ rest)
    (hoff : d.offset = pre.length) :
    d.readZigzagU32 = (v, { d with offset := d.offset + (Varint.encode (Zigzag.encode 32 v.toNat)).length }) := by
  have hcode : Zigzag.encode 32 v.toNat < 2 ^ 32 := Zigzag.encode_lt (by decide) v.toNat_lt
  have hcode' : Zigzag.encode 32 v.toNat < 2 ^ 64 := Nat.lt_trans hcode (by decide)
  unfold readZigzagU32
  rw [decodeVarint_at hcode' hbuf hoff]
  dsimp only
  congr 1
  apply UInt32.toNat_inj.mp
  rw [unzigzagU32_toNat _ (by rw [toNat_toUInt64_of_lt hcode']; exact hcode), toNat_toUInt64_of_lt hcode',
    Zigzag.decode_encode (by decide) v.toNat_lt]

theorem readZigzagU64_at {v : UInt64} (hbuf : d.buf = pre ++ Varint.encode (Zigzag.encode 64 v.toNat) ++ rest)
    (hoff : d.offset = pre.length) :
    d.readZigzagU64 = (v, { d with offset := d.offset + (Varint.encode (Zigzag.encode 64 v.toNat)).length }) := by
  have hcode : Zigzag.encode 64 v.toNat < 2 ^ 64 := Zigzag.encode_lt (by decide) v.toNat_lt
  unfold readZigzagU64
  rw [decodeVarint_at hcode hbuf hoff]
  dsimp only
  congr 1
  apply UInt64.toNat_inj.mp
  rw [unzigzagU64_toNat, toNat_toUInt64_of_lt hcode, Zigzag.decode_encode (by decide) v.toNat_lt]

theorem readBytesWithVarintLen_at (hlen : bs.length < 2 ^ 32)
    (hbuf : d.buf = pre ++ (Varint.encode bs.length ++ bs) ++ rest) (hoff : d.offset = pre.length) :
    d.readBytesWithVarintLen =
      (bs, { d with offset := d.offset + (Varint.encode bs.length).length + bs.length }) := by
  have hcount : d.buf = pre ++ Varint.encode (bs.length.toUInt32).toNat ++ (bs ++ rest) := by
    rw [hbuf, toNat_length_toUInt32 hlen]
    simp
  have hlen' : (bs.length.toUInt32).toNat = bs.length := toNat_length_toUInt32 hlen
  have hbuf' : d.buf = (pre ++ Varint.encode bs.length) ++ bs ++ rest := by simp [hbuf]
  have hoff' : d.offset + (Varint.encode bs.length).length = (pre ++ Varint.encode bs.length).length := by
    simp [hoff]
  unfold readBytesWithVarintLen
  rw [readVarintU32_at hcount hoff]
  dsimp only
  rw [hlen', readFixed_at (d := { d with offset := d.offset + (Varint.encode bs.length).length }) hbuf' hoff' rfl,
    slice_at (d := { d with offset := d.offset + (Varint.encode bs.length).length }) hbuf' hoff' rfl]

end SimpleDecoder

/-! ### The prefix varint reader -/

/-- The short form's first byte gives its length. -/
theorem countTrailingZeros32_first {x : Nat} (h : x < 2 ^ 56) :
    1 + countTrailingZeros32 (((PrefixVarint.shortValue x % 256).toUInt8).toUInt32 ||| 0x100) =
      PrefixVarint.length x := by
  have h1 := PrefixVarint.one_le_length x
  have h8 := PrefixVarint.length_le_eight h
  have hdvd : 2 ^ PrefixVarint.length x ∣ 256 :=
    (Nat.pow_dvd_pow_iff_le_right (by decide)).mpr h8
  have hlow : PrefixVarint.shortValue x % 256 % 2 ^ PrefixVarint.length x =
      2 ^ (PrefixVarint.length x - 1) := by
    rw [Nat.mod_mod_of_dvd _ hdvd, PrefixVarint.shortValue_mod]
  rw [countTrailingZeros32_byte _ (Nat.mod_lt _ (by decide)) _ (by omega) h1 hlow]
  omega

/-- Shifting the eight bytes read at the start of the short form left past its bytes and
back right past its length bits leaves `x`. -/
theorem window_toNat {len sv R : Nat} (h1 : 1 ≤ len) (h8 : len ≤ 8) (hsv : sv < 256 ^ len)
    (hR : R < 256 ^ (8 - len)) :
    ((sv + 256 ^ len * R).toUInt64 <<< (64 - 8 * len).toUInt64 >>> (64 - 8 * len + len).toUInt64).toNat =
      sv / 2 ^ len := by
  have h256 : 256 ^ len = 2 ^ (8 * len) := by
    rw [Nat.pow_mul]
  have hsplit : 2 ^ (8 * len) * 2 ^ (64 - 8 * len) = 2 ^ 64 := by
    rw [← Nat.pow_add]
    congr 1
    omega
  have hA : sv + 256 ^ len * R < 2 ^ 64 :=
    calc sv + 256 ^ len * R < 256 ^ len * (R + 1) := by rw [Nat.mul_succ]; omega
      _ ≤ 256 ^ len * 256 ^ (8 - len) := Nat.mul_le_mul_left _ hR
      _ = 256 ^ 8 := by rw [← Nat.pow_add, show len + (8 - len) = 8 by omega]
      _ = 2 ^ 64 := by decide
  have hlow : sv * 2 ^ (64 - 8 * len) < 2 ^ 64 := by
    rw [← hsplit]
    exact Nat.mul_lt_mul_of_pos_right (h256 ▸ hsv) (Nat.two_pow_pos _)
  have hexp : (sv + 256 ^ len * R) * 2 ^ (64 - 8 * len) = sv * 2 ^ (64 - 8 * len) + 2 ^ 64 * R := by
    rw [Nat.add_mul, h256, Nat.mul_right_comm, hsplit]
  rw [UInt64.toNat_shiftRight, UInt64.toNat_shiftLeft, toNat_toUInt64_of_lt hA,
    toNat_toUInt64_of_lt (by omega), toNat_toUInt64_of_lt (by omega), Nat.mod_eq_of_lt (by omega : 64 - 8 * len < 64),
    Nat.mod_eq_of_lt (by omega : 64 - 8 * len + len < 64), Nat.shiftLeft_eq, Nat.shiftRight_eq_div_pow, hexp,
    Nat.add_mul_mod_self_left, Nat.mod_eq_of_lt hlow, Nat.pow_add, ← Nat.div_div_eq_div_mul,
    Nat.mul_div_cancel _ (Nat.two_pow_pos _)]

theorem prefix_window {x : UInt64} (h : x.toNat < 2 ^ 56) {R : Nat}
    (hR : R < 256 ^ (8 - PrefixVarint.length x.toNat)) :
    (PrefixVarint.shortValue x.toNat + 256 ^ PrefixVarint.length x.toNat * R).toUInt64 <<<
      (64 - 8 * PrefixVarint.length x.toNat).toUInt64 >>>
        (64 - 8 * PrefixVarint.length x.toNat + PrefixVarint.length x.toNat).toUInt64 = x := by
  apply UInt64.toNat_inj.mp
  rw [window_toNat (PrefixVarint.one_le_length _) (PrefixVarint.length_le_eight h)
    (PrefixVarint.shortValue_lt _) hR, PrefixVarint.shortValue_div]

namespace SimpleDecoder

variable {d : SimpleDecoder} {pre bs rest : List UInt8}

theorem readPrefixU64_at {x : UInt64} (hbuf : d.buf = pre ++ PrefixVarint.encode x.toNat ++ rest)
    (hoff : d.offset = pre.length) :
    d.readPrefixU64 = some (x, { d with offset := d.offset + (PrefixVarint.encode x.toNat).length }) := by
  unfold readPrefixU64
  by_cases hsmall : x.toNat < 2 ^ 56
  · have h1 := PrefixVarint.one_le_length x.toNat
    have h8 := PrefixVarint.length_le_eight hsmall
    have henc : PrefixVarint.encode x.toNat =
        toLE (PrefixVarint.length x.toNat) (PrefixVarint.shortValue x.toNat) := by
      rw [PrefixVarint.encode, if_pos hsmall]
    have hn : (PrefixVarint.encode x.toNat).length = PrefixVarint.length x.toNat := by
      rw [henc, length_toLE]
    have hfirst : d.buf[d.offset]? = some ((PrefixVarint.shortValue x.toNat % 256).toUInt8) := by
      obtain ⟨m, hm⟩ : ∃ m, PrefixVarint.length x.toNat = m + 1 := ⟨_, (Nat.sub_add_cancel h1).symm⟩
      rw [hbuf, hoff, henc, hm, toLE, getElem?_field]
    rw [hfirst]
    dsimp only
    rw [countTrailingZeros32_first hsmall, if_pos (by omega), hn]
    split
    · -- eight bytes or more from the field's start: one `Uint64` over them
      have hread : uint64 (d.buf.drop (d.offset + PrefixVarint.length x.toNat - PrefixVarint.length x.toNat)) =
          (PrefixVarint.shortValue x.toNat +
            256 ^ PrefixVarint.length x.toNat * ofLE (rest.take (8 - PrefixVarint.length x.toNat))).toUInt64 := by
        rw [Nat.add_sub_cancel, hbuf, hoff, List.append_assoc, List.drop_left, henc, uint64,
          ofLE_take_toLE_append h8,
          Nat.mod_eq_of_lt (PrefixVarint.shortValue_lt _)]
      have hR : ofLE (rest.take (8 - PrefixVarint.length x.toNat)) < 256 ^ (8 - PrefixVarint.length x.toNat) :=
        Nat.lt_of_lt_of_le (ofLE_lt _) (Nat.pow_le_pow_right (by decide) (List.length_take_le _ _))
      rw [hread, prefix_window hsmall hR]
    · -- fewer: `bytesToUint64` over the field alone
      have hend : d.offset + PrefixVarint.length x.toNat ≤ d.buf.length := by
        rw [hbuf, hoff, List.length_append, List.length_append, ← hn]
        omega
      have hread : bytesToUint64 (slice d.buf (d.offset + PrefixVarint.length x.toNat - PrefixVarint.length x.toNat)
          (d.offset + PrefixVarint.length x.toNat)) =
          (PrefixVarint.shortValue x.toNat + 256 ^ PrefixVarint.length x.toNat * 0).toUInt64 := by
        rw [slice_at hbuf hoff hn, bytesToUint64_eq (by omega), henc, ofLE_toLE_of_lt (PrefixVarint.shortValue_lt _),
          Nat.mul_zero, Nat.add_zero]
      rw [if_pos hend, hread, prefix_window hsmall (Nat.pow_pos (by decide))]
  · -- the long form: a zero byte, then the eight bytes of `x`
    have henc : PrefixVarint.encode x.toNat = 0 :: putUint64 x := by
      rw [PrefixVarint.encode, if_neg hsmall]
      rfl
    have hfirst : d.buf[d.offset]? = some 0 := by
      rw [hbuf, hoff, henc, getElem?_field]
    rw [hfirst]
    dsimp only
    have hlen : 1 + countTrailingZeros32 ((0 : UInt8).toUInt32 ||| 0x100) = 9 := by
      rw [countTrailingZeros32_zero]
    have hend : d.offset + 9 ≤ d.buf.length := by
      rw [hbuf, hoff, henc, List.length_append, List.length_append, List.length_cons, length_putUint64]
      omega
    have hbody : slice d.buf (d.offset + 9 - 9 + 1) (d.offset + 9) = putUint64 x := by
      rw [hbuf, hoff, henc, Nat.add_sub_cancel, slice_append _ _ _ (by omega) (by simp), slice,
        List.drop_one, List.tail_cons, List.take_of_length_le (by simp)]
    rw [hlen, if_neg (by omega), if_pos hend, hbody, ← List.append_nil (putUint64 x), uint64_putUint64,
      henc, List.length_cons, length_putUint64]

end SimpleDecoder

end Sophon.Server.Codec
