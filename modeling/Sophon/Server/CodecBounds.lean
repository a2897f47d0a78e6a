/-
The decoder never reads outside its buffer while the cursor stays within `int`.

`CodecGo` runs the decoder with Go's 64-bit cursor and error count and with every
index and slice checked.  Every read method follows one pattern: move the cursor
first, then count an error if it is past the end, and only otherwise read the bytes
just before it.  So what a call can do is said once, by `Moves` (the cursor moves
forward by at most the call's `maxAdvance`, the count grows by at most two), and by
`SafeRead`, which adds that the call returns at all and that a call leaving the
cursor past the end has counted an error and returns the zero value of its kind.
The fixed-width reads have it from `readFixed_safe`, the length-prefixed ones by
composing two reads (`SafeRead.bind`), and a run of calls has it by induction over
the calls (`run_moves`), for as long as the advances add up to less than `2 ^ 63`,
so that no sum on the cursor wraps (`Room`).

The bound is needed: `ReadBytesN(n)` with a large `n` fails and leaves the cursor at
`n`, and the next read wraps it to a negative value that passes the guard
`d.offset > len(d.buf)`, so that read indexes the buffer at a negative position and
panics (`run_offset_wraps`).
-/
import Sophon.Server.CodecGo

namespace Sophon.Server.Codec

/-! ### Go's `int` and checked access -/

theorem wrapInt_of_lt {x : Int} (h0 : -2 ^ 63 ≤ x) (h1 : x < 2 ^ 63) : wrapInt x = x := by
  unfold wrapInt
  omega

/-- `buf[i]` inside the buffer does not panic. -/
theorem byteAt_of_lt (buf : List UInt8) {i : Int} (h0 : 0 ≤ i) (h : i < buf.length) :
    ∃ b, byteAt buf i = some b := by
  unfold byteAt
  rw [if_pos h0]
  exact ⟨_, List.getElem?_eq_getElem (by omega)⟩

/-- The `k` bytes before a cursor `o + k` that passed the guard: `buf[o+k-k : o+k]`. -/
theorem sliceAt_back {buf : List UInt8} {o k : Int} (h0 : 0 ≤ o) (h1 : o < 2 ^ 63) (hk0 : 0 ≤ k)
    (hk : o + k ≤ buf.length) : ∃ v, sliceAt buf (wrapInt (o + k - k)) (o + k) = some v := by
  have hwrap : wrapInt (o + k - k) = o := by
    rw [Int.add_sub_cancel]
    exact wrapInt_of_lt (by omega) h1
  unfold sliceAt
  rw [hwrap, if_pos ⟨h0, by omega, hk⟩]
  exact ⟨_, rfl⟩

/-- An `Option` `mapM` returns when each of its calls does. -/
theorem mapM_some_of_forall {α β : Type} {f : α → Option β} :
    ∀ {xs : List α}, (∀ x ∈ xs, ∃ y, f x = some y) → ∃ ys, xs.mapM f = some ys
  | [], _ => ⟨[], rfl⟩
  | x :: xs, h => by
    obtain ⟨y, hy⟩ := h x List.mem_cons_self
    obtain ⟨ys, hys⟩ := mapM_some_of_forall fun z hz => h z (List.mem_cons_of_mem x hz)
    exact ⟨y :: ys, by simp [List.mapM_cons, hy, hys]⟩

/-- The loop of `ReadU16Slice` and `ReadU32Slice` slices inside the buffer when the
cursor `o` that passed the guard is at least `w * l` bytes in. -/
theorem readWords_some {α : Type} (buf : List UInt8) (o : Int) (w l : Nat)
    (get : List UInt8 → α) (hstart : 0 ≤ o - w * l) (hend : o ≤ buf.length) (h1 : o < 2 ^ 63) :
    ∃ vs, GoDecoder.readWords buf o w l get = some vs := by
  apply mapM_some_of_forall
  intro i hi
  have hi' : 1 ≤ i ∧ i ≤ l := by
    rw [List.mem_reverse, List.mem_range'_1] at hi
    omega
  have hw : (w : Int) * 1 ≤ w * i ∧ (w : Int) * i ≤ w * l :=
    ⟨Int.mul_le_mul_of_nonneg_left (by exact_mod_cast hi'.1) (by omega),
      Int.mul_le_mul_of_nonneg_left (by exact_mod_cast hi'.2) (by omega)⟩
  have ha : wrapInt (o - w * i) = o - w * i := wrapInt_of_lt (by omega) (by omega)
  have hb : wrapInt (o - w * i + w) = o - w * i + w := wrapInt_of_lt (by omega) (by omega)
  unfold sliceAt
  rw [ha, hb, if_pos ⟨by omega, by omega, by omega⟩]
  exact ⟨_, rfl⟩

/-! ### What one call does -/

/-- The cursor moves forward by at most `k` and the error count grows by at most `e`;
the buffer is never written. -/
structure Moves (d d' : GoDecoder) (k e : Nat) : Prop where
  buf_eq : d'.buf = d.buf
  offset_le : d.offset ≤ d'.offset
  offset_le_add : d'.offset ≤ d.offset + k
  err_le : d.err ≤ d'.err
  err_le_add : d'.err ≤ d.err + e

theorem Moves.refl (d : GoDecoder) (k e : Nat) : Moves d d k e :=
  ⟨rfl, Int.le_refl _, by omega, Int.le_refl _, by omega⟩

theorem Moves.trans {d d₁ d₂ : GoDecoder} {k₁ e₁ k₂ e₂ : Nat} (h₁ : Moves d d₁ k₁ e₁)
    (h₂ : Moves d₁ d₂ k₂ e₂) : Moves d d₂ (k₁ + k₂) (e₁ + e₂) where
  buf_eq := h₂.buf_eq.trans h₁.buf_eq
  offset_le := Int.le_trans h₁.offset_le h₂.offset_le
  offset_le_add := by have := h₁.offset_le_add; have := h₂.offset_le_add; push_cast; omega
  err_le := Int.le_trans h₁.err_le h₂.err_le
  err_le_add := by have := h₁.err_le_add; have := h₂.err_le_add; push_cast; omega

theorem Moves.mono {d d' : GoDecoder} {k e k' e' : Nat} (h : Moves d d' k e) (hk : k ≤ k')
    (he : e ≤ e') : Moves d d' k' e' where
  buf_eq := h.buf_eq
  offset_le := h.offset_le
  offset_le_add := by have := h.offset_le_add; omega
  err_le := h.err_le
  err_le_add := by have := h.err_le_add; omega

/-- A decoder whose cursor can still move by `k`, and whose count grow by `e`, with no
sum leaving `int`. -/
structure Room (d : GoDecoder) (k e : Nat) : Prop where
  offset_nonneg : 0 ≤ d.offset
  offset_lt : d.offset + k < 2 ^ 63
  err_nonneg : 0 ≤ d.err
  err_lt : d.err + e < 2 ^ 63

theorem Room.mono {d : GoDecoder} {k e k' e' : Nat} (h : Room d k e) (hk : k' ≤ k)
    (he : e' ≤ e) : Room d k' e' :=
  ⟨h.offset_nonneg, by have := h.offset_lt; omega, h.err_nonneg, by have := h.err_lt; omega⟩

/-- What is left after a call that moved as `Moves` allows. -/
theorem Room.of_moves {d d' : GoDecoder} {k e k' e' : Nat} (h : Room d (k + k') (e + e'))
    (hm : Moves d d' k e) : Room d' k' e' where
  offset_nonneg := Int.le_trans h.offset_nonneg hm.offset_le
  offset_lt := by have := h.offset_lt; have := hm.offset_le_add; push_cast at *; omega
  err_nonneg := Int.le_trans h.err_nonneg hm.err_le
  err_lt := by have := h.err_lt; have := hm.err_le_add; push_cast at *; omega

/-- A read that cannot panic: it returns, it moves as `Moves` says, and when it leaves
the cursor past the end it has counted an error and returns `zero`. -/
def SafeRead {α : Type} (d : GoDecoder) (x : Option (α × GoDecoder)) (k e : Nat) (zero : α) :
    Prop :=
  ∃ v d', x = some (v, d') ∧ Moves d d' k e ∧
    ((d.buf.length : Int) < d'.offset → d.err < d'.err ∧ v = zero)

section SafeRead

variable {α β : Type} {d : GoDecoder} {k e : Nat}

theorem SafeRead.mono {x : Option (α × GoDecoder)} {z : α} {k' e' : Nat}
    (h : SafeRead d x k e z) (hk : k ≤ k') (he : e ≤ e') : SafeRead d x k' e' z := by
  obtain ⟨v, d', hx, hm, hpast⟩ := h
  exact ⟨v, d', hx, hm.mono hk he, hpast⟩

/-- Wrapping the value, as `GoDecoder.call` does, keeps the contract. -/
theorem SafeRead.map {x : Option (α × GoDecoder)} {z : α} {z' : β} {f : α → β}
    {g : α × GoDecoder → β × GoDecoder} (hg : ∀ v d', g (v, d') = (f v, d')) (hz : f z = z')
    (h : SafeRead d x k e z) : SafeRead d (x.map g) k e z' := by
  obtain ⟨v, d', hx, hm, hpast⟩ := h
  refine ⟨f v, d', by rw [hx, Option.map_some, hg], hm, fun hp => ?_⟩
  obtain ⟨herr, rfl⟩ := hpast hp
  exact ⟨herr, hz⟩

/-- A read whose length comes from an earlier one: the two contracts compose, the
second being the one that sees the cursor past the end. -/
theorem SafeRead.bind {x : Option (α × GoDecoder)} {z : α} {g : α × GoDecoder → Option (β × GoDecoder)}
    {k' e' : Nat} {z' : β} (h : SafeRead d x k e z)
    (hg : ∀ v d₁, Moves d d₁ k e → SafeRead d₁ (g (v, d₁)) k' e' z') :
    SafeRead d (x >>= g) (k + k') (e + e') z' := by
  obtain ⟨v, d₁, hx, hm, -⟩ := h
  obtain ⟨w, d₂, hy, hm', hpast⟩ := hg v d₁ hm
  refine ⟨w, d₂, by rw [hx]; exact hy, hm.trans hm', fun hp => ?_⟩
  rw [← hm.buf_eq] at hp
  obtain ⟨herr, hz⟩ := hpast hp
  exact ⟨Int.lt_of_le_of_lt hm.err_le herr, hz⟩

end SafeRead

/-! ### The reads -/

namespace GoDecoder

theorem fail_err (d : GoDecoder) (h0 : 0 ≤ d.err) (h1 : d.err + 1 < 2 ^ 63) :
    d.fail.err = d.err + 1 :=
  wrapInt_of_lt (by omega) h1

/-- Every fixed-width read: `n` bytes ahead, and a read that succeeds wherever the new
cursor passed the guard.  It counts at most one error, so any `e ≥ 1` bounds it. -/
theorem readFixed_safe {α : Type} {e : Nat} (d : GoDecoder) (n : Nat) (zero : α)
    (read : List UInt8 → Int → Option α) (hroom : Room d n e) (he : 1 ≤ e)
    (hread : d.offset + n ≤ d.buf.length → ∃ v, read d.buf (d.offset + n) = some v) :
    SafeRead d (d.readFixed n zero read) n e zero := by
  have h0 := hroom.offset_nonneg
  have h1 := hroom.err_lt
  have hwrap : wrapInt (d.offset + n) = d.offset + n :=
    wrapInt_of_lt (by omega) hroom.offset_lt
  unfold readFixed
  dsimp only
  rw [hwrap]
  by_cases hpast : d.offset + n > d.buf.length
  · -- past the end: `d.err++` and the zero value
    rw [if_pos hpast]
    have herr := fail_err { d with offset := d.offset + n } hroom.err_nonneg
      (show d.err + 1 < 2 ^ 63 by omega)
    refine ⟨zero, _, rfl, ⟨rfl, ?_, ?_, ?_, ?_⟩, fun _ => ⟨?_, rfl⟩⟩ <;>
      simp only [fail_offset, herr] <;> omega
  · rw [if_neg hpast]
    obtain ⟨v, hv⟩ := hread (by omega)
    rw [hv]
    refine ⟨v, _, rfl, ⟨rfl, ?_, ?_, Int.le_refl _, ?_⟩, fun hp => absurd hp hpast⟩ <;>
      dsimp only <;> omega

/-- `buf[d.offset-1]` after `d.offset++` passed the guard. -/
theorem byteAt_back {e : Nat} (d : GoDecoder) (hroom : Room d 1 e)
    (hle : d.offset + 1 ≤ d.buf.length) : ∃ b, byteAt d.buf (wrapInt (d.offset + 1 - 1)) = some b := by
  have h0 := hroom.offset_nonneg
  have h1 := hroom.offset_lt
  have hwrap : wrapInt (d.offset + 1 - 1) = d.offset := by
    rw [Int.add_sub_cancel]
    exact wrapInt_of_lt (by omega) (by omega)
  rw [hwrap]
  exact byteAt_of_lt d.buf h0 (by omega)

theorem readU8_safe {e : Nat} (d : GoDecoder) (hroom : Room d 1 e) (he : 1 ≤ e) :
    SafeRead d d.readU8 1 e 0 :=
  readFixed_safe d 1 0 _ hroom he fun hle => byteAt_back d hroom hle

theorem readBool_safe {e : Nat} (d : GoDecoder) (hroom : Room d 1 e) (he : 1 ≤ e) :
    SafeRead d d.readBool 1 e false :=
  readFixed_safe d 1 false _ hroom he fun hle => by
    obtain ⟨b, hb⟩ := byteAt_back d hroom hle
    exact ⟨_, by show (byteAt d.buf (wrapInt (d.offset + 1 - 1))).map (· == 1) = _; rw [hb]; rfl⟩

/-- `ReadU16`, `ReadU32` and `ReadU64`: the bytes before the cursor, decoded. -/
theorem readUint_safe {α : Type} {e : Nat} (d : GoDecoder) (n : Nat) (zero : α)
    (get : List UInt8 → α) (hroom : Room d n e) (he : 1 ≤ e) :
    SafeRead d (d.readFixed n zero fun buf offset => (sliceAt buf (wrapInt (offset - n)) offset).map get)
      n e zero :=
  readFixed_safe d n zero _ hroom he fun hle => by
    obtain ⟨v, hv⟩ := sliceAt_back hroom.offset_nonneg (by have := hroom.offset_lt; omega)
      (Int.natCast_nonneg n) hle
    exact ⟨get v, by rw [hv, Option.map_some]⟩

/-- `ReadBytesN`, and `ReadIPv4` and `ReadIPv6` once their destination has the right
length: the bytes before the cursor, as they are. -/
theorem readBytesBack_safe {e : Nat} (d : GoDecoder) (n : Nat) (zero : List UInt8)
    (hroom : Room d n e) (he : 1 ≤ e) :
    SafeRead d (d.readFixed n zero fun buf offset => sliceAt buf (wrapInt (offset - n)) offset)
      n e zero :=
  readFixed_safe d n zero _ hroom he fun hle =>
    sliceAt_back hroom.offset_nonneg (by have := hroom.offset_lt; omega) (Int.natCast_nonneg n) hle

theorem readU32_safe {e : Nat} (d : GoDecoder) (hroom : Room d 4 e) (he : 1 ≤ e) :
    SafeRead d d.readU32 4 e 0 :=
  readUint_safe d 4 0 uint32 hroom he

theorem readBytesN_safe {e : Nat} (d : GoDecoder) (n : Nat) (hroom : Room d n e) (he : 1 ≤ e) :
    SafeRead d (d.readBytesN n) n e [] :=
  readBytesBack_safe d n [] hroom he

/-- A read that only counts an error, leaving the cursor where it was. -/
theorem fail_safe {α : Type} {e : Nat} (d : GoDecoder) (v zero : α) (k : Nat) (hroom : Room d 0 e)
    (he : 1 ≤ e) (hv : (d.buf.length : Int) < d.offset → v = zero) :
    SafeRead d (some (v, d.fail)) k e zero := by
  have herr := fail_err d hroom.err_nonneg (by have := hroom.err_lt; omega)
  refine ⟨v, d.fail, rfl, ⟨rfl, ?_, ?_, ?_, ?_⟩, fun hp => ⟨?_, hv hp⟩⟩ <;>
    simp only [fail_offset, herr] <;> omega

/-! ### Varints -/

/-- `decodeVarintSlow`'s loop checks `i >= l` before every `d.buf[i]`, so from a
cursor that is not negative it never panics, and it stops inside the buffer. -/
theorem decodeVarintSlowLoop_some (buf : List UInt8) :
    ∀ (shifts : List Nat) (i : Int) (x : UInt64), 0 ≤ i →
      ∃ x' r, decodeVarintSlowLoop buf shifts i x = some (x', r) ∧
        ∀ j, r = .ok j → i < j ∧ j ≤ buf.length
  | [], _, x, _ => ⟨x, _, rfl, fun _ h => by cases h⟩
  | shift :: shifts, i, x, h0 => by
    unfold decodeVarintSlowLoop
    by_cases hend : i ≥ buf.length
    · rw [if_pos hend]
      exact ⟨x, _, rfl, fun _ h => by cases h⟩
    · rw [if_neg hend]
      obtain ⟨b, hb⟩ := byteAt_of_lt buf h0 (by omega)
      simp only [hb, Option.bind_eq_bind, Option.bind_some]
      split
      · exact ⟨_, _, rfl, fun j h => by cases h; omega⟩
      · obtain ⟨x', r, hr, hj⟩ := decodeVarintSlowLoop_some buf shifts (i + 1) _ (by omega)
        exact ⟨x', r, hr, fun j h => by have := hj j h; omega⟩

/-- The unrolled loop reads `buf[i]` for one byte per shift; with that many bytes left
it never panics, and it stops at most that many bytes on. -/
theorem decodeVarintFast_some (buf : List UInt8) :
    ∀ (shifts : List Nat) (i : Int) (x : UInt64), 0 ≤ i → i + shifts.length ≤ buf.length →
      ∃ r, decodeVarintFast buf shifts i x = some r ∧
        ∀ x' j, r = some (x', j) → i < j ∧ j ≤ i + shifts.length
  | [], _, _, _, _ => ⟨none, rfl, fun _ _ h => by cases h⟩
  | shift :: shifts, i, x, h0, hlen => by
    simp only [List.length_cons] at hlen
    obtain ⟨b, hb⟩ := byteAt_of_lt buf h0 (by omega)
    unfold decodeVarintFast
    simp only [hb, Option.bind_eq_bind, Option.bind_some]
    split
    · exact ⟨_, rfl, fun x' j h => by cases h; simp only [List.length_cons]; omega⟩
    · obtain ⟨r, hr, hj⟩ := decodeVarintFast_some buf shifts (i + 1) _ (by omega) (by omega)
      exact ⟨r, hr, fun x' j h => by have := hj x' j h; simp only [List.length_cons]; omega⟩

/-- `DecodeVarint` reads at most ten bytes and never panics from a cursor that is not
negative: past the end it counts an error and returns `0`; otherwise it stops inside
the buffer, or counts an error and leaves the cursor where it was. -/
theorem decodeVarint_safe {e : Nat} (d : GoDecoder) (hroom : Room d 10 e) (he : 1 ≤ e) :
    SafeRead d d.decodeVarint 10 e 0 := by
  have h0 := hroom.offset_nonneg
  have h1 := hroom.offset_lt
  have hroom0 : Room d 0 e := hroom.mono (by omega) (Nat.le_refl e)
  unfold decodeVarint
  dsimp only
  by_cases hend : d.offset ≥ d.buf.length
  · rw [if_pos hend]
    exact fail_safe d 0 0 10 hroom0 he fun _ => rfl
  rw [if_neg hend]
  obtain ⟨b, hb⟩ := byteAt_of_lt d.buf h0 (by omega)
  simp only [hb, Option.bind_eq_bind, Option.bind_some]
  split
  · have hwrap : wrapInt (d.offset + 1) = d.offset + 1 := wrapInt_of_lt (by omega) (by omega)
    refine ⟨_, _, rfl, ⟨rfl, ?_, ?_, Int.le_refl _, ?_⟩, fun hp => ?_⟩ <;>
      dsimp only at * <;> rw [hwrap] at * <;> omega
  split
  · -- fewer than ten bytes left: `decodeVarintSlow`, which stops inside the buffer
    obtain ⟨x', r, hr, hj⟩ := decodeVarintSlowLoop_some d.buf ((List.range 10).map (7 * ·))
      d.offset 0 h0
    unfold decodeVarintSlow
    rw [hr]
    cases r with
    | ok j =>
      obtain ⟨hlt, hle⟩ := hj j rfl
      refine ⟨_, _, rfl, ⟨rfl, ?_, ?_, Int.le_refl _, ?_⟩, fun hp => ?_⟩ <;>
        dsimp only at * <;> omega
    | error err => exact fail_safe d x' 0 10 hroom0 he fun hp => absurd hp (by omega)
  · obtain ⟨r, hr, hj⟩ := decodeVarintFast_some d.buf ((List.range' 1 9).map (7 * ·))
      (d.offset + 1) (b.toUInt64 - 0x80) (by omega) (by simp only [List.length_map, List.length_range']; omega)
    rw [hr]
    simp only [Option.bind_some]
    cases r with
    | some p =>
      obtain ⟨x', j⟩ := p
      obtain ⟨hlt, hle⟩ := hj x' j rfl
      simp only [List.length_map, List.length_range'] at hle
      refine ⟨_, _, rfl, ⟨rfl, ?_, ?_, Int.le_refl _, ?_⟩, fun hp => ?_⟩ <;>
        dsimp only at * <;> omega
    | none => exact fail_safe d 0 0 10 hroom0 he fun _ => rfl

/-! ### Reads with a length in front -/

/-- `ReadString255`: a `uint8` length, then that many bytes. -/
theorem readString255_safe (d : GoDecoder) (hroom : Room d (1 + 255) (1 + 1)) :
    SafeRead d d.readString255 (1 + 255) (1 + 1) [] :=
  (readU8_safe d (hroom.mono (by omega) (by omega)) (Nat.le_refl 1)).bind fun l _ hm =>
    (readBytesN_safe _ l.toNat ((hroom.of_moves hm).mono (by have := l.toNat_lt; omega)
      (Nat.le_refl 1)) (Nat.le_refl 1)).mono (by have := l.toNat_lt; omega) (Nat.le_refl 1)

/-- `ReadBytes`: a `uint32` length, then that many bytes. -/
theorem readBytes_safe (d : GoDecoder) (hroom : Room d (4 + (2 ^ 32 - 1)) (1 + 1)) :
    SafeRead d d.readBytes (4 + (2 ^ 32 - 1)) (1 + 1) [] :=
  (readU32_safe d (hroom.mono (by omega) (by omega)) (Nat.le_refl 1)).bind fun l _ hm =>
    (readBytesN_safe _ l.toNat ((hroom.of_moves hm).mono (by have := l.toNat_lt; omega)
      (Nat.le_refl 1)) (Nat.le_refl 1)).mono (by have := l.toNat_lt; omega) (Nat.le_refl 1)

/-- `ReadBytesWithVarintLen`: a varint length cut to `uint32`, then that many bytes. -/
theorem readBytesWithVarintLen_safe (d : GoDecoder) (hroom : Room d (10 + (2 ^ 32 - 1)) (1 + 1)) :
    SafeRead d d.readBytesWithVarintLen (10 + (2 ^ 32 - 1)) (1 + 1) [] :=
  ((decodeVarint_safe d (hroom.mono (by omega) (by omega)) (Nat.le_refl 1)).map
    (f := UInt64.toUInt32) (fun _ _ => rfl) rfl).bind fun l _ hm =>
    (readBytesN_safe _ l.toNat ((hroom.of_moves hm).mono (by have := l.toNat_lt; omega)
      (Nat.le_refl 1)) (Nat.le_refl 1)).mono (by have := l.toNat_lt; omega) (Nat.le_refl 1)

/-- `ReadU16Slice` and `ReadU32Slice`: a `uint32` count, then that many words of `w`
bytes.  A count of `0`, which a failed `ReadU32` gives, returns `nil` at once. -/
theorem readWordSlice_safe {α : Type} (d : GoDecoder) (w : Nat) (get : List UInt8 → α)
    (hroom : Room d (4 + (2 ^ 32 - 1) * w) (1 + 1)) :
    SafeRead d (do
        let (l, d) ← d.readU32
        if l = 0 then some ([], d)
        else d.readFixed (l.toNat * w) [] fun buf offset => readWords buf offset w l.toNat get)
      (4 + (2 ^ 32 - 1) * w) (1 + 1) [] := by
  obtain ⟨l, d₁, hx, hm, hpast⟩ := readU32_safe d (hroom.mono (by omega) (by omega)) (Nat.le_refl 1)
  have hroom₁ : Room d₁ ((2 ^ 32 - 1) * w) 1 := hroom.of_moves hm
  rw [hx]
  simp only [Option.bind_eq_bind, Option.bind_some]
  by_cases hl : l = 0
  · -- the count read was `0`: the error, if any, was counted by `ReadU32`
    rw [if_pos hl]
    exact ⟨[], d₁, rfl, hm.mono (by omega) (by omega), fun hp => ⟨(hpast hp).1, rfl⟩⟩
  · rw [if_neg hl]
    have hlw : l.toNat * w ≤ (2 ^ 32 - 1) * w :=
      Nat.mul_le_mul_right w (by have := l.toNat_lt; omega)
    have hroom₂ : Room d₁ (l.toNat * w) 1 := hroom₁.mono hlw (Nat.le_refl 1)
    have hcast : ((l.toNat * w : Nat) : Int) = (l.toNat : Int) * w := Int.natCast_mul _ _
    obtain ⟨v, d₂, hy, hm', hpast'⟩ := readFixed_safe d₁ (l.toNat * w) []
      (fun buf offset => readWords buf offset w l.toNat get) hroom₂ (Nat.le_refl 1) fun hle =>
        readWords_some _ _ _ _ _
          (by have := Int.mul_comm (l.toNat : Int) w; have := hroom₂.offset_nonneg; rw [hcast]; omega)
          hle (by have := hroom₂.offset_lt; omega)
    rw [hcast] at hy
    refine ⟨v, d₂, hy, (hm.trans hm').mono (by omega) (Nat.le_refl 2), fun hp => ?_⟩
    rw [← hm.buf_eq] at hp
    exact ⟨Int.lt_of_le_of_lt hm.err_le (hpast' hp).1, (hpast' hp).2⟩

end GoDecoder

/-! ### Calls -/

namespace Call

/-- How far a call can move the cursor: its width, or the length field's width and the
largest length it can hold (`255`, or `2 ^ 32 - 1` for a `uint32`). -/
def maxAdvance : Call → Nat
  | .readU8 | .readBool => 1
  | .readU16 => 2
  | .readU32 | .readIPv4 => 4
  | .readU64 => 8
  | .readIPv6 => 16
  | .readString255 => 1 + 255
  | .readBytes => 4 + (2 ^ 32 - 1)
  | .readBytesN n => n
  | .readBytesWithVarintLen => 10 + (2 ^ 32 - 1)
  | .readU16Slice => 4 + (2 ^ 32 - 1) * 2
  | .readU32Slice => 4 + (2 ^ 32 - 1) * 4
  | .decodeVarint | .readVarintU32 | .readVarintU64 | .readZigzagU32 | .readZigzagU64 => 10

/-- What a failed call returns: Go's zero value, `nil` or `""`, or the destination of
`ReadIPv4` and `ReadIPv6` as it was handed in. -/
def zero : Call → Reply
  | .readU8 => .u8 0
  | .readBool => .bool false
  | .readU16 => .u16 0
  | .readU32 | .readVarintU32 | .readZigzagU32 => .u32 0
  | .readU64 | .decodeVarint | .readVarintU64 | .readZigzagU64 => .u64 0
  | .readIPv4 => .bytes (List.replicate 4 0)
  | .readIPv6 => .bytes (List.replicate 16 0)
  | .readString255 | .readBytes | .readBytesN _ | .readBytesWithVarintLen => .bytes []
  | .readU16Slice => .u16s []
  | .readU32Slice => .u32s []

end Call

namespace GoDecoder

/-- Every call keeps the contract, whatever the buffer and wherever the cursor, as long
as the call's advance and two more errors fit in `int`. -/
theorem call_safe (d : GoDecoder) (c : Call) (hroom : Room d c.maxAdvance 2) :
    SafeRead d (d.call c) c.maxAdvance 2 c.zero := by
  have he : 1 ≤ 2 := by decide
  cases c with
  | readU8 => exact (readU8_safe d hroom he).map (f := Reply.u8) (fun _ _ => rfl) rfl
  | readBool => exact (readBool_safe d hroom he).map (f := Reply.bool) (fun _ _ => rfl) rfl
  | readU16 => exact (readUint_safe d 2 0 uint16 hroom he).map (f := Reply.u16) (fun _ _ => rfl) rfl
  | readU32 => exact (readU32_safe d hroom he).map (f := Reply.u32) (fun _ _ => rfl) rfl
  | readU64 => exact (readUint_safe d 8 0 uint64 hroom he).map (f := Reply.u64) (fun _ _ => rfl) rfl
  | readIPv4 =>
    have h := readBytesBack_safe d 4 (List.replicate 4 0) hroom he
    exact SafeRead.map (f := Reply.bytes) (fun _ _ => rfl) rfl
      (by unfold readIPv4; rw [if_neg (by decide)]; exact h)
  | readIPv6 =>
    have h := readBytesBack_safe d 16 (List.replicate 16 0) hroom he
    exact SafeRead.map (f := Reply.bytes) (fun _ _ => rfl) rfl
      (by unfold readIPv6; rw [if_neg (by decide)]; exact h)
  | readString255 => exact (readString255_safe d hroom).map (f := Reply.bytes) (fun _ _ => rfl) rfl
  | readBytes => exact (readBytes_safe d hroom).map (f := Reply.bytes) (fun _ _ => rfl) rfl
  | readBytesN n => exact (readBytesN_safe d n hroom he).map (f := Reply.bytes) (fun _ _ => rfl) rfl
  | readBytesWithVarintLen =>
    exact (readBytesWithVarintLen_safe d hroom).map (f := Reply.bytes) (fun _ _ => rfl) rfl
  | readU16Slice =>
    exact (readWordSlice_safe d 2 uint16 hroom).map (f := Reply.u16s) (fun _ _ => rfl) rfl
  | readU32Slice =>
    exact (readWordSlice_safe d 4 uint32 hroom).map (f := Reply.u32s) (fun _ _ => rfl) rfl
  | decodeVarint => exact (decodeVarint_safe d hroom he).map (f := Reply.u64) (fun _ _ => rfl) rfl
  | readVarintU32 =>
    exact ((decodeVarint_safe d hroom he).map (f := UInt64.toUInt32) (fun _ _ => rfl) rfl).map
      (f := Reply.u32) (fun _ _ => rfl) rfl
  | readVarintU64 => exact (decodeVarint_safe d hroom he).map (f := Reply.u64) (fun _ _ => rfl) rfl
  | readZigzagU32 =>
    exact ((decodeVarint_safe d hroom he).map (fun _ _ => rfl) (by decide)).map (f := Reply.u32)
      (fun _ _ => rfl) rfl
  | readZigzagU64 =>
    exact ((decodeVarint_safe d hroom he).map (fun _ _ => rfl) (by decide)).map (f := Reply.u64)
      (fun _ _ => rfl) rfl

/-- A run of calls never panics while their advances add up to less than `2 ^ 63` and two
errors a call still fit; the cursor and the count move as the calls' contracts add up.
By induction over the calls, with the room left after each call. -/
theorem run_moves : ∀ (calls : List Call) (d : GoDecoder),
    Room d (calls.map Call.maxAdvance).sum (2 * calls.length) →
    ∃ rs d', d.run calls = some (rs, d') ∧
      Moves d d' (calls.map Call.maxAdvance).sum (2 * calls.length)
  | [], d, _ => ⟨[], d, rfl, Moves.refl d _ _⟩
  | c :: cs, d, hroom => by
    have hsum : ((c :: cs).map Call.maxAdvance).sum = c.maxAdvance + (cs.map Call.maxAdvance).sum :=
      by simp
    have hlen : 2 * (c :: cs).length = 2 + 2 * cs.length := by simp only [List.length_cons]; omega
    rw [hsum, hlen] at hroom ⊢
    obtain ⟨r, d₁, hc, hm, -⟩ := call_safe d c (hroom.mono (by omega) (by omega))
    obtain ⟨rs, d₂, hrun, hm'⟩ := run_moves cs d₁ (hroom.of_moves hm)
    refine ⟨r :: rs, d₂, ?_, hm.trans hm'⟩
    simp only [run, hc, hrun, Option.bind_eq_bind, Option.bind_some]
    rfl

end GoDecoder

/-- The decoder on any buffer, for any calls whose advances add up to less than `2 ^ 63`
(and fewer than `2 ^ 62` of them, so that the count cannot wrap): the run never panics,
and every call in it, from wherever the calls before it left the decoder, returns
without indexing outside the buffer, keeps the buffer, moves the cursor forward by at
most its advance, never lowers the error count, keeps `Failed()` once it holds, and,
when it leaves the cursor past the end, has counted an error and returns its zero
value. -/
theorem simpleDecoder_bounds_safe (buf : List UInt8) (calls : List Call)
    (hadvance : (calls.map Call.maxAdvance).sum < 2 ^ 63) (hcount : 2 * calls.length < 2 ^ 63) :
    (∃ rs d, (GoDecoder.init buf).run calls = some (rs, d)) ∧
    ∀ pre c post, calls = pre ++ c :: post →
      ∃ rs d r d', (GoDecoder.init buf).run pre = some (rs, d) ∧ d.call c = some (r, d') ∧
        d'.buf = buf ∧ 0 ≤ d.offset ∧ d.offset ≤ d'.offset ∧ d'.offset ≤ d.offset + c.maxAdvance ∧
        d.err ≤ d'.err ∧ (d.failed = true → d'.failed = true) ∧
        ((buf.length : Int) < d'.offset → d.err < d'.err ∧ r = c.zero) := by
  have hroom : Room (GoDecoder.init buf) (calls.map Call.maxAdvance).sum (2 * calls.length) :=
    ⟨Int.le_refl 0, by simp only [GoDecoder.init]; omega, Int.le_refl 0,
      by simp only [GoDecoder.init]; omega⟩
  refine ⟨?_, ?_⟩
  · obtain ⟨rs, d, hrun, -⟩ := GoDecoder.run_moves calls _ hroom
    exact ⟨rs, d, hrun⟩
  · rintro pre c post rfl
    have hsum : ((pre ++ c :: post).map Call.maxAdvance).sum =
        (pre.map Call.maxAdvance).sum + (c.maxAdvance + (post.map Call.maxAdvance).sum) := by simp
    have hlen : 2 * (pre ++ c :: post).length = 2 * pre.length + (2 + 2 * post.length) := by
      simp only [List.length_append, List.length_cons]; omega
    rw [hsum, hlen] at hroom
    obtain ⟨rs, d, hpre, hm⟩ := GoDecoder.run_moves pre _ (hroom.mono (by omega) (by omega))
    have hroom₁ := hroom.of_moves hm
    obtain ⟨r, d', hc, hm', hpast⟩ := GoDecoder.call_safe d c (hroom₁.mono (by omega) (by omega))
    have hbuf : d.buf = buf := hm.buf_eq
    refine ⟨rs, d, r, d', hpre, hc, hm'.buf_eq.trans hbuf, hroom₁.offset_nonneg, hm'.offset_le,
      hm'.offset_le_add, hm'.err_le, fun hf => ?_, fun hp => hpast (hbuf ▸ hp)⟩
    have := hroom₁.err_nonneg
    have := hm'.err_le
    simp only [GoDecoder.failed, bne_iff_ne, ne_eq] at hf ⊢
    omega

theorem simpleDecoder_bounds_safe_sample :
    ([Call.readU8, .readBytes, .decodeVarint].map Call.maxAdvance).sum < 2 ^ 63 ∧
      2 * [Call.readU8, .readBytes, .decodeVarint].length < 2 ^ 63 ∧
      ∃ rs d, (GoDecoder.init [7, 2, 0, 0, 0, 1, 2, 0x96, 1]).run
        [.readU8, .readBytes, .decodeVarint] = some (rs, d) :=
  ⟨by decide, by decide, (simpleDecoder_bounds_safe [7, 2, 0, 0, 0, 1, 2, 0x96, 1]
    [.readU8, .readBytes, .decodeVarint] (by decide) (by decide)).1⟩

/-- `ReadBytesN(2^63 - 1)` then `ReadU8`, whose advances add up to `2 ^ 63`: the first
fails and leaves the cursor at `2 ^ 63 - 1`, the second's `d.offset++` wraps it to
`-2 ^ 63`, which passes the guard, and `d.buf[d.offset-1]` panics. -/
theorem run_offset_wraps :
    (GoDecoder.init [0]).run [.readBytesN (2 ^ 63 - 1), .readU8] = none := by
  rfl

end Sophon.Server.Codec
