/-
Every run of `assert_seq_number` from a fresh peer.

`SeqInv` is what a peer keeps between calls: its sixteen slots, at most fifteen of them
in use, and the `seq`s of the used slots in non-increasing order.  Each call keeps it,
and on such a peer no call panics (`SeqInv.assertSeqNumber`): the slot an insertion
writes is below sixteen, the assertion of `merge_seq_list` holds at both of its calls,
and `is_retrans_segment` never reaches its `unreachable!()`, since a segment that meets
an empty list has been put there by `check_seq_segment` itself.  So no run of segments
panics, and every peer a run reaches keeps the invariant (`assertRun_safe`).

The order cannot be strict: `assertSeqNumber_sameStart` leaves two used slots with the
same `seq`.

The edits are read on the `seq`s of the used slots (`seqs`).  An insertion puts the
segment's at its index (`insertSeqSegment_spec`), a merge replaces two neighbours by the
lower one's (`mergeSeqList_spec`), and the continuous cases change at most the `seq` of
the slot above the segment, to the segment's (`checkAndUpdate_spec`).  Each is a splice
of `Sorted.pairwise_splice`, and `search` splits the used slots where the segment's `seq`
goes (`search_spec`), which is where each splice fits.
-/
import Sophon.Agent.TcpSeq
import Sophon.Lib.Loop
import Sophon.Lib.Sorted

namespace Sophon.Agent

/-- The last element of a list goes to the front. -/
theorem rotateRight_append_singleton {α : Type} (xs : List α) (x : α) :
    (xs ++ [x]).rotateRight = x :: xs := by
  cases xs with
  | nil => rfl
  | cons y ys => simp [List.rotateRight]

theorem length_rotateRight {α : Type} (l : List α) : l.rotateRight.length = l.length := by
  unfold List.rotateRight
  dsimp only
  split
  · rfl
  · simp only [List.length_append, List.length_drop, List.length_take]
    omega

/-- The first element of a list goes to the back. -/
theorem rotateLeft_cons {α : Type} (x : α) (xs : List α) : (x :: xs).rotateLeft = xs ++ [x] := by
  cases xs with
  | nil => rfl
  | cons y ys => simp [List.rotateLeft]

/-- The reshuffle at the end of `merge_seq_list`: of the `k + 1` slots after the merged
one, the first, just reset, goes to the back. -/
theorem rotate_after_merge {α : Type} (A B : List α) (x d : α) (k : Nat) :
    (A ++ x :: d :: B).take (A.length + 1) ++
        (((A ++ x :: d :: B).drop (A.length + 1)).take (k + 1)).rotateLeft 1 ++
        (A ++ x :: d :: B).drop (A.length + 2 + k) =
      A ++ x :: (B.take k ++ d :: B.drop k) := by
  rw [List.take_length_add_append, List.drop_length_add_append, Nat.add_assoc,
    List.drop_length_add_append, Nat.add_comm 2 k]
  simp [rotateLeft_cons]

namespace SessionPeer

/-- The used slots, `seq_list[..seq_list_len]`. -/
def used (p : SessionPeer) : List SeqSegment := p.seqList.take p.seqListLen.toNat

/-- The `seq` of each used slot. -/
def seqs (p : SessionPeer) : List Nat := p.used.map SeqSegment.seq

theorem seqs_eq (p : SessionPeer) :
    p.seqs = (p.seqList.map SeqSegment.seq).take p.seqListLen.toNat := by
  simp [seqs, used, List.map_take]

/-- `x` fits at `index` of a non-increasing list: everything before is at or above it,
everything from `index` on strictly below.  `search` puts a segment there. -/
def Fits (l : List Nat) (index x : Nat) : Prop :=
  (∀ a ∈ l.take index, x ≤ a) ∧ (∀ b ∈ l.drop index, b < x)

section Fits

variable {l : List Nat} {index x : Nat}

/-- Inserting where it fits keeps the list non-increasing. -/
theorem Fits.pairwise_insert (hs : l.Pairwise (· ≥ ·)) (hf : Fits l index x) :
    (l.take index ++ x :: l.drop index).Pairwise (· ≥ ·) :=
  Sorted.pairwise_splice hs (Nat.le_refl _) hf.1 fun b hb => Nat.le_of_lt (hf.2 b hb)

/-- So does replacing the element before where it fits. -/
theorem Fits.pairwise_set (hs : l.Pairwise (· ≥ ·)) (hf : Fits l index x) (hpos : 0 < index)
    (hindex : index ≤ l.length) : (l.set (index - 1) x).Pairwise (· ≥ ·) := by
  rw [List.set_eq_take_append_cons_drop, if_pos (by omega), Nat.sub_add_cancel hpos]
  refine Sorted.pairwise_splice hs (Nat.sub_le _ _) (fun a ha => hf.1 a ?_) fun b hb => Nat.le_of_lt (hf.2 b hb)
  exact List.take_subset_take_left _ (Nat.sub_le _ _) ha

end Fits

/-! ### The edits of the list -/

section Edits

variable {p : SessionPeer}

/-- `insert_seq_segment` at an index up to the used length, on a list with a slot to
spare: the segment's `seq` goes in at the index. -/
theorem insertSeqSegment_spec (seg : SeqSegment) {index : Nat}
    (hlen : p.seqList.length = SEQ_LIST_MAX_LEN) (h0 : 0 ≤ p.seqListLen)
    (hfull : p.seqListLen < SEQ_LIST_MAX_LEN) (hindex : index ≤ p.seqListLen.toNat) :
    ∃ p', p.insertSeqSegment index seg = some p' ∧ p'.seqList.length = SEQ_LIST_MAX_LEN ∧
      p'.seqListLen = p.seqListLen + 1 ∧ p'.seqs = p.seqs.take index ++ seg.seq :: p.seqs.drop index := by
  obtain ⟨list, len⟩ := p
  dsimp only at hlen h0 hfull hindex ⊢
  unfold SEQ_LIST_MAX_LEN at hlen hfull
  have hn : ((len.toNat : Nat) : Int) = len := Int.toNat_of_nonneg h0
  unfold insertSeqSegment
  rw [if_pos (by unfold SEQ_LIST_MAX_LEN; omega)]
  refine ⟨_, rfl, ?_, rfl, ?_⟩
  · split <;> simp [hlen, SEQ_LIST_MAX_LEN, length_rotateRight]
    omega
  unfold seqs used
  dsimp only
  rw [show (len + 1).toNat = len.toNat + 1 by omega]
  suffices h : ((if (index : Int) < len then list.take index ++ (list.drop index).rotateRight
      else list).set index seg).take (len.toNat + 1) =
      (list.take len.toNat).take index ++ seg :: (list.take len.toNat).drop index by
    rw [h]
    simp [List.map_take, List.map_drop]
  rw [List.drop_take, List.take_take, Nat.min_eq_left hindex]
  by_cases hlt : index < len.toNat
  · rw [if_pos (by omega)]
    have hne : list.drop index ≠ [] := by simp [hlen]; omega
    obtain ⟨ys, z, hyz⟩ : ∃ ys z, list.drop index = ys ++ [z] :=
      ⟨_, _, (List.dropLast_append_getLast hne).symm⟩
    have hys : ys.length = 16 - index - 1 := by
      have := congrArg List.length hyz
      simp [hlen] at this
      omega
    have htake : (list.take index).length = index := by simp [hlen]; omega
    rw [hyz, rotateRight_append_singleton, List.set_append_right _ _ (by omega), htake, Nat.sub_self,
      List.set_cons_zero, List.take_append, htake, List.take_of_length_le (by omega),
      show len.toNat + 1 - index = len.toNat - index + 1 by omega, List.take_succ_cons,
      List.take_append_of_le_length (by omega)]
  · rw [if_neg (by omega)]
    have hi : index = len.toNat := by omega
    subst hi
    rw [Nat.sub_self, List.take_zero, List.set_eq_take_append_cons_drop, if_pos (by omega),
      List.take_append, List.length_take_of_le (by omega), List.take_take,
      Nat.min_eq_right (Nat.le_succ _), show len.toNat + 1 - len.toNat = 0 + 1 by omega,
      List.take_succ_cons, List.take_zero]

/-- The list `merge_seq_list` leaves when the pair it merges has `k` used slots after it:
the merged slot, those `k` slots moved down one, the reset slot, then the unused ones. -/
theorem mergeSeqList_eq {A B : List SeqSegment} {g l : SeqSegment} {len : Int} {k : Nat}
    (h0 : 0 ≤ len) (hlen : len.toNat = A.length + 2 + k) :
    (⟨A ++ g :: l :: B, len⟩ : SessionPeer).mergeSeqList A.length =
      some ⟨A ++ ⟨l.seq, (g.seq + 2 ^ 32 - l.seq + g.len) % 2 ^ 32⟩ :: (B.take k ++ default :: B.drop k),
        len - 1⟩ := by
  have hn : ((len.toNat : Nat) : Int) = len := Int.toNat_of_nonneg h0
  unfold mergeSeqList
  dsimp only
  rw [if_pos (by omega)]
  simp only [List.getD_append_right _ _ _ _ (Nat.le_refl _),
    List.getD_append_right _ _ _ _ (Nat.le_add_right A.length 1), Nat.sub_self, Nat.add_sub_cancel_left,
    List.getD_cons_zero, List.getD_cons_succ, List.set_append_right _ _ (Nat.le_refl _),
    List.set_append_right _ _ (Nat.le_add_right A.length 1), List.set_cons_zero, List.set_cons_succ]
  split
  · rw [hlen, show A.length + 2 + k - (A.length + 1) = k + 1 by omega, rotate_after_merge]
  · obtain rfl : k = 0 := by omega
    rfl

/-- `merge_seq_list` at `index`, below the last used slot: the two slots become one,
which starts where the lower one did. -/
theorem mergeSeqList_spec {index : Nat}
    (hlen : p.seqList.length = SEQ_LIST_MAX_LEN) (h0 : 0 ≤ p.seqListLen)
    (hle : p.seqListLen ≤ SEQ_LIST_MAX_LEN) (hindex : index + 1 < p.seqListLen.toNat) :
    ∃ p', p.mergeSeqList index = some p' ∧ p'.seqList.length = SEQ_LIST_MAX_LEN ∧
      p'.seqListLen = p.seqListLen - 1 ∧
      p'.seqs = p.seqs.take index ++ p.seqs.getD (index + 1) 0 :: p.seqs.drop (index + 2) := by
  obtain ⟨list, len⟩ := p
  dsimp only at hlen h0 hle hindex ⊢
  unfold SEQ_LIST_MAX_LEN at hlen hle ⊢
  obtain ⟨A, g, l, B, rfl, rfl⟩ : ∃ A g l B, list = A ++ g :: l :: B ∧ A.length = index := by
    refine ⟨list.take index, list[index], list[index + 1], list.drop (index + 2), ?_, by simp; omega⟩
    rw [← List.drop_eq_getElem_cons (by omega), ← List.drop_eq_getElem_cons (by omega),
      List.take_append_drop]
  have hB : A.length + 2 + B.length = 16 := by simp at hlen; omega
  obtain ⟨k, hk⟩ : ∃ k, len.toNat = A.length + 2 + k := ⟨len.toNat - A.length - 2, by omega⟩
  rw [mergeSeqList_eq h0 hk]
  refine ⟨_, rfl, by simp; omega, rfl, ?_⟩
  unfold seqs used
  dsimp only
  have hused' : ∀ x : SeqSegment,
      (A ++ x :: (B.take k ++ default :: B.drop k)).take (A.length + 1 + k) = A ++ x :: B.take k := by
    intro x
    rw [Nat.add_assoc, List.take_length_add_append, Nat.add_comm 1 k, List.take_succ_cons,
      List.take_left' (by simp; omega)]
  have hused : (A ++ g :: l :: B).take (A.length + 2 + k) = A ++ g :: l :: B.take k := by
    rw [Nat.add_assoc, List.take_length_add_append, Nat.add_comm 2 k, List.take_succ_cons,
      List.take_succ_cons]
  rw [show (len - 1).toNat = A.length + 1 + k by omega, hk, hused', hused]
  simp [List.drop_append]

/-- Growing a slot at its end leaves every `seq` as it was (in the form `simp` leaves
the slot's `seq` in). -/
theorem set_seq_getElem?_getD (list : List SeqSegment) (i : Nat) :
    (list.map SeqSegment.seq).set i (list[i]?.getD default).seq = list.map SeqSegment.seq := by
  by_cases hi : i < list.length
  · have hi' : i < (list.map SeqSegment.seq).length := by simpa using hi
    have h : (list.map SeqSegment.seq).set i (list.map SeqSegment.seq)[i] = list.map SeqSegment.seq :=
      List.set_getElem_self hi'
    rw [List.getElem_map] at h
    rw [List.getElem?_eq_getElem hi, Option.getD_some, h]
  · rw [List.set_eq_of_length_le (by simpa using hi)]

/-- `check_and_update_continuous_segment` keeps the number of slots, sets a flag only for
a neighbour there is, and changes at most one `seq`: that of `gte`, to the segment's. -/
theorem checkAndUpdate_spec {list list' : List SeqSegment} {lt gte : Option Nat}
    {seg : SeqSegment} {ltC gteC : Bool}
    (h : checkAndUpdateContinuousSegment list lt gte seg = (list', ltC, gteC)) :
    list'.length = list.length ∧ (ltC = true → lt.isSome) ∧ (gteC = true → gte.isSome) ∧
      list'.map SeqSegment.seq =
        if gteC then (list.map SeqSegment.seq).set (gte.getD 0) seg.seq
        else list.map SeqSegment.seq := by
  unfold checkAndUpdateContinuousSegment at h
  cases lt <;> cases gte <;> dsimp only at h <;> (try split_ifs at h) <;>
    simp only [Prod.mk.injEq] at h <;> obtain ⟨rfl, rfl, rfl⟩ := h <;> simp [set_seq_getElem?_getD]

/-- `search` on a non-empty list whose used `seq`s are non-increasing: `index` is where
the segment's `seq` fits, `lt` the slot there when it is used, and `gte` the slot before
when there is one. -/
theorem search_spec (seg : SeqSegment) (hlen : p.seqList.length = SEQ_LIST_MAX_LEN)
    (hpos : 0 < p.seqListLen) (hle : p.seqListLen ≤ SEQ_LIST_MAX_LEN)
    (hs : p.seqs.Pairwise (· ≥ ·)) :
    ∃ index ≤ p.seqListLen.toNat,
      p.search seg = (if index < p.seqListLen.toNat then some index else none,
        if 0 < index then some (index - 1) else none, index) ∧ Fits p.seqs index seg.seq := by
  unfold SEQ_LIST_MAX_LEN at hlen hle
  have hn : p.seqs.length = p.seqListLen.toNat := by simp [seqs_eq, hlen]; omega
  have hget : ∀ i (hi : i < p.seqs.length), (p.seqList.getD i default).seq = p.seqs[i] := by
    intro i hi
    rw [List.getD_eq_getElem _ _ (by omega)]
    simp [seqs_eq]
  set index := ((List.range p.seqListLen.toNat).find?
    fun i => decide (seg.seq > (p.seqList.getD i default).seq)).getD p.seqListLen.toNat with hindex
  obtain ⟨hle', hbefore, hat⟩ := Loop.find?_range_getD hindex.symm
  refine ⟨index, hle', ?_, ?_, ?_⟩
  · unfold search
    rw [if_neg (by omega)]
    dsimp only
    rw [← hindex]
    split_ifs <;> first | rfl | omega
  · intro a ha
    obtain ⟨j, hj, rfl⟩ := List.mem_take_iff_getElem.mp ha
    have := hbefore j (by omega)
    rw [hget j (by omega)] at this
    simpa using this
  · intro b hb
    -- the slot at `index` is below the segment, and every one after it at or below that
    have hi : index < p.seqs.length := by
      by_contra hge
      rw [List.drop_of_length_le (by omega)] at hb
      cases hb
    have hlt : p.seqs[index] < seg.seq := by
      have := hat (by omega)
      rw [hget index hi] at this
      simpa using this
    rw [List.drop_eq_getElem_cons hi, List.mem_cons] at hb
    rcases hb with rfl | hb
    · exact hlt
    · exact Nat.lt_of_le_of_lt (Sorted.rel_getElem_of_mem_drop hs hi hb) hlt

/-- `is_retrans_segment` reaches its `unreachable!()` only when there is neither
neighbour. -/
theorem isRetransSegment_isSome (list : List SeqSegment) {lt gte : Option Nat} (seg : SeqSegment)
    (h : lt.isSome ∨ gte.isSome) : ∃ r, isRetransSegment list lt gte seg = some r := by
  cases lt <;> cases gte <;> simp_all [isRetransSegment]

end Edits

/-- The calls one direction of a flow makes, one per packet, in order: the peer after
the last of them, or `none` when one panics. -/
def assertRun (p : SessionPeer) : List (Nat × Nat) → Option SessionPeer
  | [] => some p
  | (seq, payloadLen) :: rest => (p.assertSeqNumber seq payloadLen).bind fun r => assertRun r.2 rest

end SessionPeer

open SessionPeer

/-- What a peer keeps between calls: its sixteen slots, at most fifteen of them in use,
and the used slots' `seq`s non-increasing. -/
structure SeqInv (p : SessionPeer) : Prop where
  length : p.seqList.length = SEQ_LIST_MAX_LEN
  nonneg : 0 ≤ p.seqListLen
  lt_max : p.seqListLen < SEQ_LIST_MAX_LEN
  sorted : p.seqs.Pairwise (· ≥ ·)

theorem seqInv_default : SeqInv default where
  length := rfl
  nonneg := Int.le_refl 0
  lt_max := by decide
  sorted := List.Pairwise.nil

namespace SeqInv

variable {p : SessionPeer}

/-- A peer with no used slot takes a segment as its only one. -/
theorem insert_empty (hlen : p.seqList.length = SEQ_LIST_MAX_LEN) (hzero : p.seqListLen = 0)
    (seg : SeqSegment) : ∃ p', p.insertSeqSegment 0 seg = some p' ∧ SeqInv p' := by
  obtain ⟨p', hins, hlen', hcount, hseqs⟩ :=
    insertSeqSegment_spec seg hlen (by omega) (by rw [hzero]; decide) (Nat.zero_le _)
  refine ⟨p', hins, ⟨hlen', by omega, by rw [hcount, hzero]; decide, ?_⟩⟩
  rw [hseqs]
  simp [seqs_eq, hzero]

/-- A merge below the last used slot, on at most sixteen slots whose `seq`s are
non-increasing, leaves a peer of the invariant. -/
theorem of_mergeSeqList {index : Nat} (hlen : p.seqList.length = SEQ_LIST_MAX_LEN)
    (h0 : 0 ≤ p.seqListLen) (hle : p.seqListLen ≤ SEQ_LIST_MAX_LEN)
    (hs : p.seqs.Pairwise (· ≥ ·)) (hindex : index + 1 < p.seqListLen.toNat) :
    ∃ p', p.mergeSeqList index = some p' ∧ SeqInv p' := by
  obtain ⟨p', hmerge, hlen', hcount, hseqs⟩ := mergeSeqList_spec hlen h0 hle hindex
  unfold SEQ_LIST_MAX_LEN at hle
  refine ⟨p', hmerge, ⟨hlen', by omega, by rw [hcount]; unfold SEQ_LIST_MAX_LEN; omega, ?_⟩⟩
  have hn : index + 1 < p.seqs.length := by simp [seqs_eq, hlen, SEQ_LIST_MAX_LEN]; omega
  rw [hseqs, List.getD_eq_getElem _ _ hn]
  exact Sorted.pairwise_merge_next hs hn

/-- `check_seq_segment` leaves a peer of the invariant, and lets a segment through only
to the peer it was given, with a used slot. -/
theorem checkSeqSegment (hp : SeqInv p) (seg : SeqSegment) :
    ∃ b p', p.checkSeqSegment seg = some (b, p') ∧ SeqInv p' ∧
      (b = true → p' = p ∧ 0 < p.seqListLen) := by
  unfold SessionPeer.checkSeqSegment
  dsimp only
  split_ifs with hwrap hempty
  · exact ⟨false, p, rfl, hp, nofun⟩
  · obtain ⟨p', hins, hp'⟩ := insert_empty hp.length (by have := hp.nonneg; omega) seg
    exact ⟨false, p', by rw [hins]; rfl, hp', nofun⟩
  · obtain ⟨p', hins, hp'⟩ := insert_empty seqInv_default.length rfl seg
    exact ⟨false, p', by rw [hins]; rfl, hp', nofun⟩
  · exact ⟨false, p, rfl, hp, nofun⟩
  · exact ⟨true, p, rfl, hp, fun _ => ⟨rfl, by omega⟩⟩

/-- **One call.**  On a peer of the invariant `assert_seq_number` does not panic, and the
peer it leaves keeps the invariant. -/
theorem assertSeqNumber (hp : SeqInv p) (seq payloadLen : Nat) :
    ∃ t p', p.assertSeqNumber seq payloadLen = some (t, p') ∧ SeqInv p' := by
  unfold SessionPeer.assertSeqNumber
  split_ifs with hcare
  · exact ⟨_, _, rfl, hp⟩
  obtain ⟨b, q, hq, hq', htrue⟩ := hp.checkSeqSegment ⟨seq, payloadLen⟩
  dsimp only
  rw [hq]
  cases b with
  | false => exact ⟨_, _, rfl, hq'⟩
  | true =>
    obtain ⟨rfl, hpos⟩ := htrue rfl
    obtain ⟨index, hindex, hsearch, hfits⟩ :=
      search_spec ⟨seq, payloadLen⟩ hp.length hpos (Int.le_of_lt hp.lt_max) hp.sorted
    dsimp only
    rw [hsearch]
    dsimp only
    have hsome : (if index < q.seqListLen.toNat then some index else none).isSome ∨
        (if 0 < index then some (index - 1) else none).isSome := by
      by_cases hi : index < q.seqListLen.toNat
      · exact .inl (by simp [hi])
      · exact .inr (by simp; omega)
    have hlt : (if index < q.seqListLen.toNat then some index else none).isSome →
        index < q.seqListLen.toNat := by
      split_ifs with hi <;> simp [hi]
    have hgte : (if 0 < index then some (index - 1) else none).isSome → 0 < index := by
      split_ifs with hi <;> simp [hi]
    have hgetD : (if 0 < index then some (index - 1) else none).getD 0 = index - 1 := by
      split_ifs
      · rfl
      · rw [Option.getD_none]
        omega
    generalize (if index < q.seqListLen.toNat then some index else none) = lt at hsome hlt ⊢
    generalize (if 0 < index then some (index - 1) else none) = gte at hsome hgte hgetD ⊢
    obtain ⟨r, hr⟩ := isRetransSegment_isSome q.seqList ⟨seq, payloadLen⟩ hsome
    rw [hr]
    cases r with
    | true => exact ⟨_, _, rfl, hp⟩
    | false =>
      dsimp only
      split_ifs with herr
      · exact ⟨_, _, rfl, hp⟩
      generalize hcu : checkAndUpdateContinuousSegment q.seqList lt gte ⟨seq, payloadLen⟩ = u
      obtain ⟨list', ltC, gteC⟩ := u
      obtain ⟨hlen', hltC, hgteC, hmap⟩ := checkAndUpdate_spec hcu
      dsimp only
      have hseqs : (⟨list', q.seqListLen⟩ : SessionPeer).seqs =
          if gteC then q.seqs.set (index - 1) seq else q.seqs := by
        rw [seqs_eq, seqs_eq]
        dsimp only
        rw [hmap]
        split_ifs
        · rw [List.take_set, hgetD]
        · rfl
      -- the update changes at most `gte`'s `seq`, to the segment's, which fits there
      have hupd : SeqInv ⟨list', q.seqListLen⟩ := by
        refine ⟨hlen'.trans hp.length, hp.nonneg, hp.lt_max, ?_⟩
        rw [hseqs]
        split_ifs with hg
        · have hn : q.seqs.length = q.seqListLen.toNat := by
            have := hp.lt_max
            simp [seqs_eq, hp.length, SEQ_LIST_MAX_LEN] at this ⊢
            omega
          exact hfits.pairwise_set hp.sorted (hgte (hgteC hg)) (by omega)
        · exact hp.sorted
      cases ltC <;> cases gteC
      · -- discontinuous: inserted where it fits, and a full list merges its two lowest
        obtain ⟨q1, hins, hlen1, hcount1, hseqs1⟩ := insertSeqSegment_spec (p := ⟨list', q.seqListLen⟩)
          ⟨seq, payloadLen⟩ hupd.length hupd.nonneg hupd.lt_max hindex
        have hs1 : q1.seqs.Pairwise (· ≥ ·) := by
          rw [hseqs1, hseqs, if_neg Bool.false_ne_true]
          exact hfits.pairwise_insert hp.sorted
        have hmax := hp.lt_max
        dsimp only at hcount1
        unfold SEQ_LIST_MAX_LEN at hmax ⊢
        rw [hins]
        simp only [Option.bind_eq_bind, Option.bind_some]
        split_ifs with hfull
        · obtain ⟨q2, hmerge, hq2⟩ := of_mergeSeqList hlen1 (by omega)
            (by unfold SEQ_LIST_MAX_LEN; omega) hs1 (show 16 - 2 + 1 < q1.seqListLen.toNat by omega)
          rw [hmerge]
          exact ⟨_, _, rfl, hq2⟩
        · exact ⟨_, _, rfl, ⟨hlen1, by omega, by unfold SEQ_LIST_MAX_LEN; omega, hs1⟩⟩
      · exact ⟨_, _, rfl, hupd⟩
      · exact ⟨_, _, rfl, hupd⟩
      · -- both continuous: the segment closes the gap between `gte` and `lt`
        have hi := hlt (hltC rfl)
        have hpos' := hgte (hgteC rfl)
        obtain ⟨q2, hmerge, hq2⟩ := of_mergeSeqList hupd.length hupd.nonneg
          (Int.le_of_lt hupd.lt_max) hupd.sorted (show index - 1 + 1 < q.seqListLen.toNat by omega)
        rw [hmerge]
        exact ⟨_, _, rfl, hq2⟩

/-- **Every run.**  From a peer of the invariant no run of calls panics, and the peer
it ends on keeps the invariant. -/
theorem assertRun (hp : SeqInv p) (segs : List (Nat × Nat)) :
    ∃ p', p.assertRun segs = some p' ∧ SeqInv p' := by
  induction segs generalizing p with
  | nil => exact ⟨p, rfl, hp⟩
  | cons s rest ih =>
    obtain ⟨seq, payloadLen⟩ := s
    obtain ⟨t, q, hq, hq'⟩ := hp.assertSeqNumber seq payloadLen
    obtain ⟨p', hrun, hp'⟩ := ih hq'
    exact ⟨p', by rw [SessionPeer.assertRun, hq, Option.bind_some, hrun], hp'⟩

end SeqInv

/-- A fresh peer takes any run of segments without a panic, and keeps its slots sorted
with one to spare. -/
theorem assertRun_safe (segs : List (Nat × Nat)) :
    ∃ p, (default : SessionPeer).assertRun segs = some p ∧ SeqInv p :=
  seqInv_default.assertRun segs

end Sophon.Agent
