/-
Byte encodings of integers, as wire formats lay them out.

* `LittleEndian.toLE w n` is the `w` low bytes of `n`, lowest first, and `ofLE` reads
  bytes back into a number.  `ofLE_toLE` is the round trip and `ofLE_append` reads a
  concatenation piece by piece, which is how a reader that shares one cursor among
  many fields sees its buffer.
* `Varint.encode n` writes `n` in base 128, lowest digit first, with the top bit of
  every byte but the last set.  A decoder adds the payload of the byte at shift `7k`
  to what it has; `Varint.mod_add_digit` is the one fact each of its turns uses.
* `Zigzag.encode w v` folds the `w`-bit two's complement number `v` onto the
  naturals, `0, -1, 1, -2, …` to `0, 1, 2, 3, …`, and `Zigzag.decode` unfolds it.
  `sshiftRight_sign` is the sign mask both directions are computed with.
* `PrefixVarint.encode x` writes the length of its encoding in unary, in the low bits
  of the first byte: `length x` bytes of seven payload bits each below `2 ^ 56`, and
  above that a zero byte and the eight bytes of `x`.
* `Smeared` says what or-ing a number with its shifts by `1, 2, 4, …` leaves: every
  bit from the top one down, as far as the shifts reach (`Smeared.or_shiftRight`).
-/
import Mathlib

namespace Sophon

namespace LittleEndian

/-- The `w` low bytes of `n`, lowest first. -/
def toLE : Nat → Nat → List UInt8
  | 0, _ => []
  | w + 1, n => (n % 256).toUInt8 :: toLE w (n / 256)

/-- The number whose bytes, lowest first, are `bs`. -/
def ofLE : List UInt8 → Nat
  | [] => 0
  | b :: bs => b.toNat + 256 * ofLE bs

@[simp] theorem length_toLE (w n : Nat) : (toLE w n).length = w := by
  induction w generalizing n with
  | zero => rfl
  | succ w ih => simp only [toLE, List.length_cons, ih]

@[simp] theorem ofLE_nil : ofLE [] = 0 := rfl

@[simp] theorem ofLE_cons (b : UInt8) (bs : List UInt8) : ofLE (b :: bs) = b.toNat + 256 * ofLE bs :=
  rfl

theorem ofLE_toLE (w n : Nat) : ofLE (toLE w n) = n % 256 ^ w := by
  induction w generalizing n with
  | zero => simp only [toLE, ofLE_nil, Nat.pow_zero, Nat.mod_one]
  | succ w ih =>
    have hbyte : ((n % 256).toUInt8).toNat = n % 256 := by
      simp only [Nat.toUInt8_eq, UInt8.toNat_ofNat', Nat.reducePow]
      omega
    rw [toLE, ofLE_cons, ih, hbyte, Nat.pow_succ', Nat.mod_mul]

theorem ofLE_toLE_of_lt {w n : Nat} (h : n < 256 ^ w) : ofLE (toLE w n) = n := by
  rw [ofLE_toLE, Nat.mod_eq_of_lt h]

theorem ofLE_lt (bs : List UInt8) : ofLE bs < 256 ^ bs.length := by
  induction bs with
  | nil => simp
  | cons b bs ih =>
    have hb : b.toNat < 256 := b.toNat_lt
    rw [ofLE_cons, List.length_cons, Nat.pow_succ']
    omega

theorem ofLE_append (l₁ l₂ : List UInt8) :
    ofLE (l₁ ++ l₂) = ofLE l₁ + 256 ^ l₁.length * ofLE l₂ := by
  induction l₁ with
  | nil => simp
  | cons b bs ih =>
    rw [List.cons_append, ofLE_cons, ofLE_cons, ih, List.length_cons, Nat.pow_succ']
    rw [Nat.mul_add, Nat.mul_assoc]
    omega

/-- The first `w` bytes of `n`'s encoding in `w` bytes or more followed by anything. -/
theorem ofLE_take_toLE_append {w k n : Nat} (hk : w ≤ k) (rest : List UInt8) :
    ofLE ((toLE w n ++ rest).take k) = n % 256 ^ w + 256 ^ w * ofLE (rest.take (k - w)) := by
  rw [List.take_append, List.take_of_length_le (by simp [hk]), length_toLE, ofLE_append,
    length_toLE, ofLE_toLE]

/-- Blocks of one length `k`, laid end to end: block `j` starts at `k * j`. -/
theorem take_drop_flatMap {α : Type} {f : α → List UInt8} {k : Nat} (hf : ∀ a, (f a).length = k) :
    ∀ (xs : List α) (j : Nat) (hj : j < xs.length), ((xs.flatMap f).drop (k * j)).take k = f xs[j]
  | x :: xs, 0, _ => by
    rw [List.flatMap_cons, Nat.mul_zero, List.drop_zero, List.take_append,
      List.take_of_length_le (Nat.le_of_eq (hf x)), hf, Nat.sub_self, List.take_zero, List.append_nil]
    rfl
  | x :: xs, j + 1, hj => by
    rw [List.flatMap_cons, Nat.mul_succ, Nat.add_comm, ← List.drop_drop, List.drop_left' (hf x)]
    exact take_drop_flatMap hf xs j (by simpa using hj)

theorem length_flatMap_const {α : Type} {f : α → List UInt8} {k : Nat} (hf : ∀ a, (f a).length = k)
    (xs : List α) : (xs.flatMap f).length = xs.length * k := by
  induction xs with
  | nil => simp
  | cons x xs ih => rw [List.flatMap_cons, List.length_append, ih, hf, List.length_cons, Nat.succ_mul,
      Nat.add_comm]

end LittleEndian

namespace Varint

/-- `n` in base 128, lowest digit first, every byte but the last with its top bit set. -/
def encode (n : Nat) : List UInt8 :=
  if n < 128 then [n.toUInt8] else (n % 128 + 128).toUInt8 :: encode (n / 128)
termination_by n
decreasing_by omega

theorem encode_of_lt {n : Nat} (h : n < 128) : encode n = [n.toUInt8] := by
  rw [encode, if_pos h]

theorem encode_of_ge {n : Nat} (h : 128 ≤ n) :
    encode n = (n % 128 + 128).toUInt8 :: encode (n / 128) := by
  rw [encode, if_neg (by omega)]

theorem encode_ne_nil (n : Nat) : encode n ≠ [] := by
  rw [encode]
  split <;> simp

theorem toNat_toUInt8 {n : Nat} (h : n < 256) : n.toUInt8.toNat = n := by
  simp only [Nat.toUInt8_eq, UInt8.toNat_ofNat', Nat.reducePow]
  omega

/-- The digit at shift `s` completes the number below `2 ^ (s + 7)`. -/
theorem mod_add_digit (V s : Nat) :
    V % 2 ^ s + V / 2 ^ s % 128 * 2 ^ s = V % 2 ^ (s + 7) := by
  rw [Nat.pow_add, Nat.mod_mul]
  simp only [Nat.reducePow]
  rw [Nat.mul_comm]

end Varint

namespace Zigzag

/-- The `w`-bit two's complement number `v` folded onto the naturals: a number that is
not negative goes to twice itself, a negative one `v - 2 ^ w` to `2 ^ w - 2 v' - 1`. -/
def encode (w v : Nat) : Nat := if v < 2 ^ (w - 1) then 2 * v else 2 ^ (w + 1) - 1 - 2 * v

/-- The inverse: even numbers are the non-negative ones. -/
def decode (w z : Nat) : Nat := if z % 2 = 0 then z / 2 else 2 ^ w - 1 - z / 2

section

variable {w v : Nat}

theorem two_pow_eq (hw : 0 < w) : 2 ^ w = 2 * 2 ^ (w - 1) := by
  rw [← Nat.pow_succ']
  congr 1
  omega

theorem encode_lt (hw : 0 < w) (hv : v < 2 ^ w) : encode w v < 2 ^ w := by
  have h := two_pow_eq hw
  have h' : 2 ^ (w + 1) = 2 * 2 ^ w := Nat.pow_succ'
  unfold encode
  split <;> omega

theorem decode_encode (hw : 0 < w) (hv : v < 2 ^ w) : decode w (encode w v) = v := by
  have h := two_pow_eq hw
  have h' : 2 ^ (w + 1) = 2 * 2 ^ w := Nat.pow_succ'
  unfold encode decode
  split
  · -- not negative: an even code
    rw [if_pos (by omega)]
    omega
  · -- negative: an odd code
    rw [if_neg (by omega)]
    omega

end

/-- An arithmetic shift by one less than the width copies the sign bit into every bit. -/
theorem sshiftRight_sign {w : Nat} (x : BitVec w) :
    x.sshiftRight (w - 1) = if x.msb then BitVec.allOnes w else 0 := by
  apply BitVec.eq_of_getLsbD_eq
  intro i hi
  rw [BitVec.getLsbD_sshiftRight, decide_eq_false (by omega : ¬ w ≤ i), Bool.not_false,
    Bool.true_and]
  have hsign : (if w - 1 + i < w then x.getLsbD (w - 1 + i) else x.msb) = x.msb := by
    split
    · rw [show w - 1 + i = w - 1 by omega, BitVec.msb_eq_getLsbD_last]
    · rfl
  rw [hsign]
  split
  · rename_i hm
    rw [hm, BitVec.getLsbD_allOnes, decide_eq_true hi]
  · rename_i hm
    rw [Bool.eq_false_iff.mpr hm]
    simp

end Zigzag

namespace Bits

/-- The bits of `m` from `top` down to `2 ^ k - 1` below it are set, and none above `top`. -/
def Smeared (top k m : Nat) : Prop :=
  (∀ i, top < i → m.testBit i = false) ∧ ∀ i ≤ top, top - i < 2 ^ k → m.testBit i = true

/-- A number is smeared from its top bit, as far as the top bit itself. -/
theorem smeared_log2 {n : Nat} (h : n ≠ 0) : Smeared n.log2 0 n := by
  refine ⟨fun i hi => Nat.testBit_lt_two_pow ?_, fun i hi hk => ?_⟩
  · exact Nat.lt_of_lt_of_le Nat.lt_log2_self (Nat.pow_le_pow_right (by decide) hi)
  · rw [show i = n.log2 by simp at hk; omega]
    exact Nat.testBit_log2 h

/-- Or-ing with the shift by `2 ^ k` doubles the reach. -/
theorem Smeared.or_shiftRight {top k m : Nat} (h : Smeared top k m) :
    Smeared top (k + 1) (m ||| m >>> 2 ^ k) := by
  obtain ⟨habove, hbelow⟩ := h
  refine ⟨fun i hi => ?_, fun i hi hk => ?_⟩
  · have hpos := Nat.two_pow_pos k
    rw [Nat.testBit_or, Nat.testBit_shiftRight, habove i hi, habove _ (by omega), Bool.or_false]
  · rw [Nat.testBit_or, Nat.testBit_shiftRight]
    by_cases hnear : top - i < 2 ^ k
    · rw [hbelow i hi hnear, Bool.true_or]
    · -- the bit `2 ^ k` above is within the old reach
      have h2 : 2 ^ (k + 1) = 2 * 2 ^ k := Nat.pow_succ'
      rw [hbelow (2 ^ k + i) (by omega) (by omega), Bool.or_true]

/-- Smeared all the way down: the ones below `top + 1`. -/
theorem Smeared.eq {top k m : Nat} (h : Smeared top k m) (hk : top < 2 ^ k) :
    m = 2 ^ (top + 1) - 1 := by
  apply Nat.eq_of_testBit_eq
  intro i
  rw [Nat.testBit_two_pow_sub_one]
  by_cases hi : i ≤ top
  · rw [h.2 i hi (by omega), decide_eq_true (by omega)]
  · rw [h.1 i (by omega), decide_eq_false (by omega)]

end Bits

namespace PrefixVarint

/-- The bytes of the short form of `x`: seven payload bits each, for the bit length of
`x ||| 1`. -/
def length (x : Nat) : Nat := 1 + Nat.log2 (x ||| 1) / 7

/-- The short form's number: `x` above a one bit, above `length x - 1` zero bits. -/
def shortValue (x : Nat) : Nat := (2 * x + 1) * 2 ^ (length x - 1)

/-- The short form below `2 ^ 56`, in `length x` bytes; the long form above, a zero byte
and the eight bytes of `x`. -/
def encode (x : Nat) : List UInt8 :=
  if x < 2 ^ 56 then LittleEndian.toLE (length x) (shortValue x) else 0 :: LittleEndian.toLE 8 x

section

variable {x : Nat}

theorem one_le_length (x : Nat) : 1 ≤ length x := by
  unfold length
  omega

theorem length_le_eight (h : x < 2 ^ 56) : length x ≤ 8 := by
  have hor : x ||| 1 < 2 ^ 56 := Nat.or_lt_two_pow h (by decide)
  have hlog : Nat.log2 (x ||| 1) < 56 := (Nat.log2_lt (by simp)).mpr hor
  unfold length
  omega

/-- The payload bits hold `x`. -/
theorem lt_two_pow_length (x : Nat) : x < 2 ^ (7 * length x) := by
  have hle : x ≤ x ||| 1 := Nat.left_le_or
  have hlt : x ||| 1 < 2 ^ (Nat.log2 (x ||| 1) + 1) := Nat.lt_log2_self
  have hbits : Nat.log2 (x ||| 1) + 1 ≤ 7 * length x := by
    unfold length
    omega
  exact Nat.lt_of_lt_of_le (Nat.lt_of_le_of_lt hle hlt) (Nat.pow_le_pow_right (by decide) hbits)

theorem shortValue_lt (x : Nat) : shortValue x < 256 ^ length x := by
  have h7 := lt_two_pow_length x
  have hlen := one_le_length x
  have hsplit : 256 ^ length x = 2 ^ (7 * length x) * 2 * 2 ^ (length x - 1) := by
    rw [show (256 : Nat) = 2 ^ 8 by rfl, ← Nat.pow_mul, ← Nat.pow_succ, ← Nat.pow_add]
    congr 1
    omega
  rw [hsplit, shortValue]
  apply Nat.mul_lt_mul_of_pos_right _ (Nat.two_pow_pos _)
  omega

/-- The low `length x` bits of the short form: a one above `length x - 1` zeros. -/
theorem shortValue_mod (x : Nat) : shortValue x % 2 ^ length x = 2 ^ (length x - 1) := by
  have hlen := one_le_length x
  have hsplit : 2 ^ length x = 2 * 2 ^ (length x - 1) := by
    rw [← Nat.pow_succ']
    congr 1
    omega
  have hodd : (2 * x + 1) % 2 = 1 := by omega
  rw [hsplit, shortValue, Nat.mul_mod_mul_right, hodd, Nat.one_mul]

theorem shortValue_div (x : Nat) : shortValue x / 2 ^ length x = x := by
  have hlen := one_le_length x
  have hsplit : 2 ^ length x = 2 ^ (length x - 1) * 2 := by
    rw [← Nat.pow_succ]
    congr 1
    omega
  rw [hsplit, shortValue, ← Nat.div_div_eq_div_mul, Nat.mul_div_cancel _ (Nat.two_pow_pos _)]
  omega

end

end PrefixVarint

end Sophon
