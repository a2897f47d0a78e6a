/-
What `decode_name` returns (`DnsLog::decode_name`).

A turn of the loop is read once: `pointerTurn_next` and `labelTurn_next` say what a
turn that goes on has done, and `nameTurn_stop` what a turn that stops returns.  From
them, `NameInv` holds of every state the loop reaches and `nameMeasure` drops at
every turn (`NameInv.next`).  The loop therefore never runs out of its fuel
(`decodeNameLoop_fuel`), never indexes outside the payload, and `decode_name` returns
an error or an offset in `[g_offset + 1, payload.len()]` (`decodeName_result`), even
when its pointers run in a cycle through earlier labels.

The invariant's last field is what keeps the offset inside the payload: `l_offset`
steps one past itself only when a label ends at or before it on a zero byte, and it
can stand on the last byte only while the loop is there, or at the zero that stops it.
-/
import Sophon.Agent.Dns

namespace Sophon.Agent

variable {payload : List UInt8} {gOffset : Nat} {st st' : NameState} {r : NameResult}

/-! ### One turn -/

theorem length_appendLabel_ge (buffer label : List UInt8) :
    buffer.length + label.length ≤ (appendLabel buffer label).length := by
  unfold appendLabel
  split <;> simp


theorem pointerTurn_next (h : pointerTurn payload st = .inr st') :
    st'.index < st.index ∧ st'.lOffset = st.lOffset ∧ st'.buffer = st.buffer ∧
      st.index + 2 ≤ payload.length := by
  unfold pointerTurn at h
  dsimp only at h
  split at h
  · cases h
  · rename_i hlen
    split at h
    · cases h
    · split at h
      · cases h
      · rename_i hptr
        cases h
        exact ⟨by simpa using hptr, rfl, rfl, by omega⟩

theorem pointerTurn_stop (h : pointerTurn payload st = .inl r) : ∃ e, r = some (.error e) := by
  unfold pointerTurn at h
  dsimp only at h
  split at h
  · cases h
    exact ⟨_, rfl⟩
  · rename_i hlen
    split at h
    · rename_i hread
      exact absurd (readU16Be_eq_none.mp hread) (by omega)
    · split at h
      · cases h
        exact ⟨_, rfl⟩
      · cases h

/-- The name only grows at a label, and the loop goes on after it. -/
theorem labelTurn_next {len : Nat} (h : labelTurn payload gOffset st len = .inr st') (hlen : 0 < len) :
    st.buffer.length < st'.buffer.length ∧ st'.buffer.length ≤ DNS_NAME_MAX_SIZE ∧
      st.index < st'.index ∧ st'.index < payload.length ∧
      st'.lOffset = if st'.index > st.lOffset then st'.index
        else if payload.getD st'.index 0 = 0 then st.lOffset + 1 else st.lOffset := by
  unfold labelTurn at h
  dsimp only at h
  split at h
  · cases h
  · rename_i hsize
    split at h
    · cases h
    · split at h
      · cases h
      · split at h
        · cases h
        · rename_i hbuf hend
          cases h
          have hlabel : ((payload.drop (st.index + 1)).take len).length = len := by
            simp only [List.length_take, List.length_drop]
            omega
          have hgrow := length_appendLabel_ge st.buffer ((payload.drop (st.index + 1)).take len)
          dsimp only
          exact ⟨by omega, by omega, by omega, by omega, rfl⟩

theorem labelTurn_stop {len : Nat} (h : labelTurn payload gOffset st len = .inl r) :
    ∃ e, r = some (.error e) := by
  unfold labelTurn at h
  dsimp only at h
  split at h
  · cases h
    exact ⟨_, rfl⟩
  · split at h
    · cases h
      exact ⟨_, rfl⟩
    · split at h
      · cases h
        exact ⟨_, rfl⟩
      · split at h
        · cases h
          exact ⟨_, rfl⟩
        · cases h

/-- A turn that goes on was at a byte other than the final zero, and either followed a
pointer back or read a label that lengthened the name. -/
theorem nameTurn_next (h : nameTurn payload gOffset st = .inr st') :
    payload.getD st.index 0 ≠ 0 ∧
      ((st'.index < st.index ∧ st'.lOffset = st.lOffset ∧ st'.buffer = st.buffer ∧
          st.index + 2 ≤ payload.length) ∨
        (st.buffer.length < st'.buffer.length ∧ st'.buffer.length ≤ DNS_NAME_MAX_SIZE ∧
          st.index < st'.index ∧ st'.index < payload.length ∧
          st'.lOffset = if st'.index > st.lOffset then st'.index
            else if payload.getD st'.index 0 = 0 then st.lOffset + 1 else st.lOffset)) := by
  unfold nameTurn at h
  dsimp only at h
  split at h
  · cases h
  · rename_i b hb
    obtain ⟨-, rfl⟩ := byteAt_eq_some.mp hb
    split at h
    · cases h
    · rename_i htail
      have hne : payload.getD st.index 0 ≠ 0 := fun h0 => htail (by rw [h0]; rfl)
      refine ⟨hne, ?_⟩
      split at h
      · cases h
      · split at h
        · exact .inl (pointerTurn_next h)
        · have hpos : 0 < (payload.getD st.index 0).toNat := by
            simp only [DNS_NAME_TAIL] at htail
            omega
          exact .inr (labelTurn_next h hpos)

/-! ### The loop -/

/-- What holds of every state of `decode_name`'s loop. -/
structure NameInv (payload : List UInt8) (gOffset : Nat) (st : NameState) : Prop where
  buffer_le : st.buffer.length ≤ DNS_NAME_MAX_SIZE
  index_lt : st.index < payload.length
  lOffset_ge : gOffset ≤ st.lOffset
  lOffset_lt : st.lOffset < payload.length
  /-- `l_offset` is at the last byte only with the loop there, or at a zero byte. -/
  lOffset_last : st.lOffset + 1 = payload.length →
    st.index = st.lOffset ∨ payload.getD st.index 0 = 0

theorem NameInv.start (h : gOffset < payload.length) : NameInv payload gOffset ⟨gOffset, gOffset, []⟩ :=
  ⟨by simp, h, Nat.le_refl _, h, fun _ => .inl rfl⟩

/-- A label's measure: the name grew, within 255 bytes, and the new index is inside the
payload. -/
private theorem measure_label_lt {a a' i i' n : Nat} (ha : a < a') (ha' : a' ≤ DNS_NAME_MAX_SIZE)
    (hi' : i' < n) :
    (DNS_NAME_MAX_SIZE + 1 - a') * (n + 1) + i' < (DNS_NAME_MAX_SIZE + 1 - a) * (n + 1) + i := by
  have hroom : DNS_NAME_MAX_SIZE + 1 - a' + 1 ≤ DNS_NAME_MAX_SIZE + 1 - a := by omega
  have hmul := Nat.mul_le_mul_right (n + 1) hroom
  rw [Nat.add_mul, Nat.one_mul] at hmul
  omega

/-- **Step lemma.**  A turn keeps `NameInv` and lowers the measure. -/
theorem NameInv.next (hi : NameInv payload gOffset st) (h : nameTurn payload gOffset st = .inr st') :
    NameInv payload gOffset st' ∧ nameMeasure payload st' < nameMeasure payload st := by
  obtain ⟨hne, ⟨hidx, hl, hbuf, h2⟩ | ⟨hbuf, hbuf', hidx, hidx', hl⟩⟩ := nameTurn_next h
  · -- a pointer: `l_offset` and the name stay, the index goes back
    have hlast : st.lOffset + 1 ≠ payload.length := fun hlast => by
      rcases hi.lOffset_last hlast with heq | h0
      · omega
      · exact hne h0
    refine ⟨⟨hbuf ▸ hi.buffer_le, by omega, hl ▸ hi.lOffset_ge, hl ▸ hi.lOffset_lt, ?_⟩, ?_⟩
    · intro h'
      exact absurd (hl ▸ h') hlast
    · unfold nameMeasure
      rw [hbuf]
      omega
  · -- a label: `l_offset` moves to its end, or one past itself on a zero, or stays
    have hlast : st.lOffset + 1 = payload.length → False := fun hlast => by
      rcases hi.lOffset_last hlast with heq | h0
      · omega
      · exact hne h0
    have hmeasure := measure_label_lt hbuf hbuf' hidx' (i := st.index)
    refine ⟨⟨hbuf', hidx', ?_, ?_, ?_⟩, hmeasure⟩ <;> rw [hl] <;> have := hi.lOffset_ge <;>
      have := hi.lOffset_lt
    · split
      · omega
      · split <;> omega
    · split
      · omega
      · split
        · by_contra hge
          exact hlast (by omega)
        · omega
    · split
      · exact fun _ => .inl rfl
      · split
        · rename_i h0
          exact fun _ => .inr h0
        · intro h'
          exact absurd h' hlast

/-- What a turn stops with, from a state of `NameInv`: an error, or the name with an
offset in `[g_offset + 1, payload.len()]`. -/
theorem nameTurn_stop (hi : NameInv payload gOffset st) (h : nameTurn payload gOffset st = .inl r) :
    (∃ e, r = some (.error e)) ∨
      ∃ name off, r = some (.ok (name, off)) ∧ gOffset + 1 ≤ off ∧ off ≤ payload.length := by
  unfold nameTurn at h
  dsimp only at h
  split at h
  · rename_i hb
    exact absurd (byteAt_eq_none.mp hb) (by have := hi.index_lt; omega)
  · split at h
    · -- the final zero: the offset is one past `l_offset`
      cases h
      have := hi.lOffset_ge
      have := hi.lOffset_lt
      exact .inr ⟨_, _, rfl, by omega, by omega⟩
    · split at h
      · cases h
        exact .inl ⟨_, rfl⟩
      · split at h
        · exact .inl (pointerTurn_stop h)
        · exact .inl (labelTurn_stop h)

/-- **`decode_name` terminates.**  From a state of `NameInv`, every fuel above the
measure gives the same result. -/
theorem decodeNameLoop_fuel {fuel fuel' : Nat} (hi : NameInv payload gOffset st)
    (h : nameMeasure payload st < fuel) (h' : nameMeasure payload st < fuel') :
    decodeNameLoop payload gOffset fuel st = decodeNameLoop payload gOffset fuel' st :=
  Loop.whileFuel_fuel (NameInv payload gOffset) (nameMeasure payload)
    (fun _ _ hs ht => hs.next ht) fuel fuel' st hi h h'

/-- **What `decode_name` returns.**  It never panics: it returns an error, or the name
with an offset in `[g_offset + 1, payload.len()]`. -/
theorem decodeName_result (payload : List UInt8) (gOffset : Nat) :
    (∃ e, decodeName payload gOffset = some (.error e)) ∨
      ∃ name off, decodeName payload gOffset = some (.ok (name, off)) ∧
        gOffset + 1 ≤ off ∧ off ≤ payload.length := by
  unfold decodeName
  split
  · exact .inl ⟨_, rfl⟩
  · rename_i hlen
    split
    · exact .inr ⟨_, _, rfl, Nat.le_refl _, by omega⟩
    · exact Loop.whileFuel_inv (NameInv payload gOffset) (nameMeasure payload)
        (fun r => (∃ e, r = some (.error e)) ∨
          ∃ name off, r = some (.ok (name, off)) ∧ gOffset + 1 ≤ off ∧ off ≤ payload.length)
        (fun _ _ hs ht => nameTurn_stop hs ht) (fun _ _ hs ht => hs.next ht) _ _
        (NameInv.start (by omega)) (Nat.lt_succ_self _)

end Sophon.Agent
