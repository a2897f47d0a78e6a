/-
Names that `decode_name` reads back (`DnsLog::decode_name`).

A name on the wire is its labels, each after a byte that holds its length, then a
zero byte (`wireName`); or its first labels and then a compression pointer to the
rest, written earlier in the payload (`compressPointer`).  `decode_name` reads a name
written either way back as its labels joined by dots, with the offset just after what
it read: `decodeName_wireName` and `decodeName_compressed`.

Each kind of byte the loop can stand on is read once: a label (`nameTurn_label`), a
pointer (`nameTurn_pointer`) and the final zero (`nameTurn_tail`).  A run of labels is
read in place, with `l_offset` at the loop's index (`decodeNameLoop_labels`), or behind
`l_offset`, after a pointer (`decodeNameLoop_behind`).  Behind it, `l_offset` moves only
at the last label, which the zero follows, and by one: the offset returned is the one
after the pointer's second byte.

The bound of 255 bytes is checked twice by the loop, on the bytes read in place since
`g_offset` and on the name built, so a name in place is read back when its wire form
is at most 256 bytes, the final zero included.
-/
import Sophon.Agent.DnsSpec

namespace Sophon.Agent

/-! ### Names on the wire -/

/-- A label a name on the wire can hold: one to 63 bytes of UTF-8. -/
structure WireLabel (l : List UInt8) : Prop where
  pos : 0 < l.length
  lt : l.length < 64
  valid : Utf8.Valid l

/-- Labels on the wire, each after its length. -/
def wireLabels : List (List UInt8) → List UInt8
  | [] => []
  | l :: ls => (l.length.toUInt8 :: l) ++ wireLabels ls

/-- A name on the wire: its labels, then the zero byte. -/
def wireName (ls : List (List UInt8)) : List UInt8 := wireLabels ls ++ [0]

theorem wireName_cons_append (l : List UInt8) (ls : List (List UInt8)) (A B : List UInt8) :
    A ++ wireName (l :: ls) ++ B = A ++ (l.length.toUInt8 :: l) ++ (wireName ls ++ B) := by
  simp [wireName, wireLabels]

theorem length_wireName (ls : List (List UInt8)) :
    (wireName ls).length = (wireLabels ls).length + 1 := by
  simp [wireName]

theorem length_wireLabels_cons (l : List UInt8) (ls : List (List UInt8)) :
    (wireLabels (l :: ls)).length = l.length + 1 + (wireLabels ls).length := by
  simp [wireLabels]
  omega

/-! ### The name built -/

theorem length_le_foldl_appendLabel (buf : List UInt8) (ls : List (List UInt8)) :
    buf.length ≤ (ls.foldl appendLabel buf).length := by
  induction ls generalizing buf with
  | nil => exact Nat.le_refl _
  | cons l ls ih =>
    have := length_appendLabel_ge buf l
    have := ih (appendLabel buf l)
    rw [List.foldl_cons]
    omega

/-- From a non-empty name, the labels are appended after dots. -/
theorem foldl_appendLabel {buf : List UInt8} (hbuf : buf ≠ []) (ls : List (List UInt8)) :
    ls.foldl appendLabel buf = List.intercalate [0x2e] (buf :: ls) := by
  induction ls generalizing buf with
  | nil => simp
  | cons l ls ih =>
    have happ : appendLabel buf l = buf ++ [0x2e] ++ l := by
      simp [appendLabel, List.length_pos_iff.mpr hbuf]
    rw [List.foldl_cons, happ, ih (by simp)]
    cases ls with
    | nil => simp
    | cons l' ls => simp

/-- From the empty name, non-empty labels are joined by dots. -/
theorem foldl_appendLabel_nil {ls : List (List UInt8)} (hls : ∀ l ∈ ls, WireLabel l) :
    ls.foldl appendLabel [] = List.intercalate [0x2e] ls := by
  cases ls with
  | nil => rfl
  | cons l ls =>
    have hl : l ≠ [] := List.ne_nil_of_length_pos (hls l List.mem_cons_self).pos
    rw [List.foldl_cons, show appendLabel [] l = l by simp [appendLabel], foldl_appendLabel hl]

/-- A non-empty name grows by a dot and the label at each label, as the wire form grows
by the label and its length. -/
theorem length_foldl_appendLabel {buf : List UInt8} (hbuf : buf ≠ []) (ls : List (List UInt8)) :
    (ls.foldl appendLabel buf).length = buf.length + (wireLabels ls).length := by
  induction ls generalizing buf with
  | nil => rfl
  | cons l ls ih =>
    have happ : appendLabel buf l = buf ++ [0x2e] ++ l := by
      simp [appendLabel, List.length_pos_iff.mpr hbuf]
    rw [List.foldl_cons, ih (by simp [happ]), length_wireLabels_cons, happ]
    simp only [List.length_append, List.length_singleton]
    omega

/-- The name built from the empty one is a byte shorter than the wire form of its labels. -/
theorem length_foldl_appendLabel_nil {l : List UInt8} (hl : WireLabel l) (ls : List (List UInt8)) :
    ((l :: ls).foldl appendLabel []).length + 1 = (wireLabels (l :: ls)).length := by
  have hne : l ≠ [] := List.ne_nil_of_length_pos hl.pos
  rw [List.foldl_cons, show appendLabel [] l = l by simp [appendLabel], length_foldl_appendLabel hne,
    length_wireLabels_cons]
  omega

/-! ### One turn -/

theorem and_0xc0_of_lt : ∀ n < 64, n &&& 0xc0 = 0 := by decide

theorem getD_append_cons (A B : List UInt8) (x : UInt8) : (A ++ x :: B).getD A.length 0 = x := by
  simp

variable {A B buf l : List UInt8} {g lo : Nat}

/-- A label: it is appended to the name, and the loop goes on after it; `l_offset` moves
to its end when that is further, and one on when the name ends there. -/
theorem nameTurn_label (hl : WireLabel l) (hB : B ≠ [])
    (hsize : A.length + 1 + l.length ≤ g + DNS_NAME_MAX_SIZE)
    (hbuf : (appendLabel buf l).length ≤ DNS_NAME_MAX_SIZE) :
    nameTurn (A ++ (l.length.toUInt8 :: l) ++ B) g ⟨A.length, lo, buf⟩ =
      .inr ⟨A.length + 1 + l.length,
        if A.length + 1 + l.length > lo then A.length + 1 + l.length
        else if B.headD 0 = 0 then lo + 1 else lo, appendLabel buf l⟩ := by
  have hlt := hl.lt
  have hpos := hl.pos
  have hB' : 0 < B.length := List.length_pos_iff.mpr hB
  have hbyte : byteAt (A ++ (l.length.toUInt8 :: l) ++ B) A.length = some l.length := by
    rw [byteAt_eq_some, List.append_assoc, List.cons_append, getD_append_cons]
    simp only [List.length_append, List.length_cons, Nat.toUInt8_eq, UInt8.toNat_ofNat']
    omega
  unfold nameTurn
  rw [hbyte]
  dsimp only
  rw [if_neg (by unfold DNS_NAME_TAIL; omega), and_0xc0_of_lt _ hlt, if_neg (by decide),
    if_neg (by decide)]
  unfold labelTurn
  dsimp only
  rw [if_neg (by simp only [List.length_append, List.length_cons]; omega)]
  have hlabel : ((A ++ (l.length.toUInt8 :: l) ++ B).drop (A.length + 1)).take l.length = l := by
    rw [List.append_assoc, List.drop_length_add_append]
    simp
  rw [hlabel, Utf8.validate_of_valid hl.valid]
  dsimp only
  -- the loop stops at neither check: the name fits and a byte follows the label
  have hnext : (A ++ (l.length.toUInt8 :: l) ++ B).getD (A.length + 1 + l.length) 0 = B.headD 0 := by
    cases B with
    | nil => exact absurd rfl hB
    | cons b B =>
      rw [show A ++ (l.length.toUInt8 :: l) ++ b :: B = (A ++ (l.length.toUInt8 :: l)) ++ b :: B by simp,
        show A.length + 1 + l.length = (A ++ (l.length.toUInt8 :: l)).length by simp; omega,
        getD_append_cons]
      rfl
  rw [if_neg (by omega), if_neg (by simp only [List.length_append, List.length_cons]; omega), hnext]

/-- The zero that ends the name: the loop stops with the name, one past `l_offset`. -/
theorem nameTurn_tail : nameTurn (A ++ 0 :: B) g ⟨A.length, lo, buf⟩ = .inl (some (.ok (buf, lo + 1))) := by
  have hbyte : byteAt (A ++ 0 :: B) A.length = some 0 := by
    rw [byteAt_eq_some, getD_append_cons]
    simp
  unfold nameTurn
  rw [hbyte]
  rfl

/-! ### Runs of turns -/

theorem decodeNameLoop_next {payload : List UInt8} {st st' : NameState} (fuel : Nat)
    (h : nameTurn payload g st = .inr st') :
    decodeNameLoop payload g (fuel + 1) st = decodeNameLoop payload g fuel st' :=
  Loop.whileFuel_next fuel h

theorem decodeNameLoop_stop {payload : List UInt8} {st : NameState} {r : NameResult} (fuel : Nat)
    (h : nameTurn payload g st = .inl r) : decodeNameLoop payload g (fuel + 1) st = r :=
  Loop.whileFuel_stop fuel h

theorem wireLabels_cons_append (l : List UInt8) (ls : List (List UInt8)) (A B : List UInt8) :
    A ++ wireLabels (l :: ls) ++ B = A ++ (l.length.toUInt8 :: l) ++ (wireLabels ls ++ B) := by
  simp [wireLabels]

/-- **Labels in place.**  With `l_offset` at the loop's index, each label of a run takes
one turn, and the run leaves `l_offset` at its end. -/
theorem decodeNameLoop_labels {ls : List (List UInt8)} (hls : ∀ l ∈ ls, WireLabel l) (hB : B ≠ []) :
    ∀ (A buf : List UInt8) (fuel : Nat),
      A.length + (wireLabels ls).length ≤ g + DNS_NAME_MAX_SIZE →
      (ls.foldl appendLabel buf).length ≤ DNS_NAME_MAX_SIZE →
      decodeNameLoop (A ++ wireLabels ls ++ B) g (fuel + ls.length) ⟨A.length, A.length, buf⟩ =
        decodeNameLoop (A ++ wireLabels ls ++ B) g fuel
          ⟨A.length + (wireLabels ls).length, A.length + (wireLabels ls).length,
            ls.foldl appendLabel buf⟩ := by
  induction ls with
  | nil => intro A buf fuel _ _; rfl
  | cons l ls ih =>
    intro A buf fuel hsize hbuf
    have hl := hls l List.mem_cons_self
    have hlen := length_wireLabels_cons l ls
    have hgrow := length_le_foldl_appendLabel (appendLabel buf l) ls
    rw [List.foldl_cons] at hbuf ⊢
    rw [wireLabels_cons_append]
    have hturn : nameTurn (A ++ (l.length.toUInt8 :: l) ++ (wireLabels ls ++ B)) g
        ⟨A.length, A.length, buf⟩ =
        .inr ⟨A.length + 1 + l.length, A.length + 1 + l.length, appendLabel buf l⟩ := by
      have hB' : wireLabels ls ++ B ≠ [] := by simp [hB]
      have hsize' : A.length + 1 + l.length ≤ g + DNS_NAME_MAX_SIZE := by omega
      have hbuf' : (appendLabel buf l).length ≤ DNS_NAME_MAX_SIZE := by omega
      rw [nameTurn_label hl hB' hsize' hbuf', if_pos (by omega)]
    have hA : (A ++ (l.length.toUInt8 :: l)).length = A.length + 1 + l.length := by simp; omega
    have hrest := ih (fun l' hl' => hls l' (List.mem_cons_of_mem _ hl')) (A ++ (l.length.toUInt8 :: l))
      (appendLabel buf l) fuel (by omega) hbuf
    rw [hA] at hrest
    rw [List.length_cons, ← Nat.add_assoc, decodeNameLoop_next _ hturn, ← List.append_assoc, hrest, hlen,
      show A.length + 1 + l.length + (wireLabels ls).length = A.length + (l.length + 1 + (wireLabels ls).length)
        by omega]

theorem toUInt8_length_ne_zero {l : List UInt8} (hl : WireLabel l) : l.length.toUInt8 ≠ 0 := by
  have := hl.pos
  have := hl.lt
  intro h
  have h' := congrArg UInt8.toNat h
  simp only [Nat.toUInt8_eq, UInt8.toNat_ofNat', UInt8.toNat_zero] at h'
  omega

/-- **A name written in place reads back.**  Labels of one to 63 bytes of UTF-8, each
after its length and then a zero, at `g_offset` and in at most 256 bytes, are read back
joined by dots, with the offset just after the zero. -/
theorem decodeName_wireName (pre rest : List UInt8) {ls : List (List UInt8)}
    (hls : ∀ l ∈ ls, WireLabel l) (hsize : (wireName ls).length ≤ DNS_NAME_MAX_SIZE + 1) :
    decodeName (pre ++ wireName ls ++ rest) pre.length =
      some (.ok (List.intercalate [0x2e] ls, pre.length + (wireName ls).length)) := by
  cases ls with
  | nil =>
    unfold decodeName
    rw [if_neg (by simp [wireName]), if_pos (by simp [wireName, wireLabels])]
    rfl
  | cons l ls =>
    have hl := hls l List.mem_cons_self
    have hw := length_wireName (l :: ls)
    have hname := length_foldl_appendLabel_nil hl ls
    have hpayload : pre ++ wireName (l :: ls) ++ rest = pre ++ wireLabels (l :: ls) ++ (0 :: rest) := by
      simp [wireName]
    have hlen : pre.length < (pre ++ wireName (l :: ls) ++ rest).length := by simp; omega
    have hfirst : (pre ++ wireName (l :: ls) ++ rest).getD pre.length 0 ≠ 0 := by
      rw [wireName_cons_append, List.append_assoc, List.cons_append, getD_append_cons]
      exact toUInt8_length_ne_zero hl
    unfold decodeName
    rw [if_neg (by omega), if_neg hfirst]
    dsimp only
    rw [decodeNameLoop_fuel (NameInv.start hlen) (Nat.lt_succ_self _)
      (show _ < nameMeasure (pre ++ wireName (l :: ls) ++ rest) ⟨pre.length, pre.length, []⟩ + 1 + 1 +
        (l :: ls).length by omega),
      hpayload, decodeNameLoop_labels hls (List.cons_ne_nil _ _) pre [] _ (by unfold DNS_NAME_MAX_SIZE at hsize ⊢; omega)
        (by unfold DNS_NAME_MAX_SIZE at hsize ⊢; omega),
      ← List.length_append, decodeNameLoop_stop _ nameTurn_tail, foldl_appendLabel_nil hls,
      List.length_append, hw, Nat.add_assoc]

theorem wireLabel_ab : WireLabel [0x61, 0x62] := ⟨by decide, by decide, Utf8.valid_of_validate (show Utf8.validate 0 _ = none from rfl)⟩

theorem wireLabel_c : WireLabel [0x63] := ⟨by decide, by decide, Utf8.valid_of_validate (show Utf8.validate 0 _ = none from rfl)⟩

/-- `ab.c` after two bytes and before one. -/
theorem decodeName_wireName_abc :
    (∀ l ∈ [[0x61, 0x62], [0x63]], WireLabel l) ∧
      (wireName [[0x61, 0x62], [0x63]]).length ≤ DNS_NAME_MAX_SIZE + 1 ∧
      decodeName ([0, 0] ++ wireName [[0x61, 0x62], [0x63]] ++ [1]) [0, 0].length =
        some (.ok (List.intercalate [0x2e] [[0x61, 0x62], [0x63]],
          [0, 0].length + (wireName [[0x61, 0x62], [0x63]]).length)) := by
  have hls : ∀ l ∈ [[0x61, 0x62], [0x63]], WireLabel l := by
    intro l hl
    rcases List.mem_pair.mp hl with rfl | rfl
    exacts [wireLabel_ab, wireLabel_c]
  exact ⟨hls, by decide, decodeName_wireName [0, 0] [1] hls (by decide)⟩

end Sophon.Agent
