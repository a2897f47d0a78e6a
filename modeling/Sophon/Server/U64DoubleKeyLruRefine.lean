/-
`U64DoubleKeyLRU` refines the abstract double-key map.

`Inv m entries` says that the map `m` stands for the abstract map `entries`: the
ring segment holds `size ≤ capacity` live cells, the chains of each table hold
exactly the live cells, each on the chain of its key's (or short key's) slot, and
the time list runs through the live cells in the order of `entries`, most recent
first.  Each of `updateNode`, `removeNode` and `newNode` keeps it, with the abstract
edit applied to `entries`.

The walk of `RemoveByShortKey` follows one relation chain while `removeNode` edits
it, so of `removeNode` more is said (`removeNode_spec`): for any lists `C t s` the
chains are, after the call they are the same lists without the removed cell and with
the segment's first cell renamed to the freed one, each cell still holds what its
old cell held, and the call returns the freed cell exactly when the removed node's
next on its relation chain was the segment's first cell.

The proofs follow the Go text, as those of `U64LruRefine` do: each helper call is
replaced by what `U64DoubleKeyLruSpec` says it does to the views, and the list edit
it makes is one of `HashView.Chains` and `TimeView.OK`.
-/
import Sophon.Server.U64DoubleKeyLruSpec
import Sophon.Server.U64LruRefine

namespace Sophon.Server

open LinkList

variable {V : Type}

namespace U64DoubleKeyLRU

variable {m : U64DoubleKeyLRU V} {entries : List (UInt64 × UInt64 × Option V)}

/-- `incIndex` is the next slot of the ring. -/
theorem incIndex_eq (m : U64DoubleKeyLRU V) {i : Nat} (hi : i < m.ringView.slots) :
    m.incIndex i = (i + 1) % m.ringView.slots := by
  simp only [RingView.slots, ringView] at hi ⊢
  unfold incIndex
  dsimp only
  rw [Nat.shiftRight_eq_div_pow]
  by_cases h : i + 1 = m.ringBufferLen * 256
  · rw [if_pos (by omega), h, Nat.mod_self]
  · rw [if_neg (by omega), Nat.mod_eq_of_lt (by omega)]

/-- **The invariant**: `m` stands for the abstract map `entries`. -/
structure Inv (m : U64DoubleKeyLRU V) (entries : List (UInt64 × UInt64 × Option V)) : Prop where
  ring : m.ringView.WF
  chains : ∀ t, (m.chainView t).OK (· ∈ m.ringView.live)
  time : ∃ T, m.timeView.OK T ∧ T.Perm m.ringView.live ∧ T.map m.entry = entries

/-- The abstract map has one entry for each live node. -/
theorem Inv.length_eq (h : Inv m entries) : entries.length = m.size := by
  obtain ⟨-, -, T, -, hperm, rfl⟩ := h
  rw [List.length_map, hperm.length_eq, RingView.length_live]
  rfl

/-- The cells of an abstract map with distinct keys, cut at one: erasing its key
drops exactly its entry. -/
theorem erase_cut {us vs : List Nat} (hent : (us ++ i :: vs).map m.entry = entries)
    (hkeys : (entries.map Prod.fst).Nodup) :
    Lru.erase (m.getNode i).key entries = (us ++ vs).map m.entry := by
  rw [← hent] at hkeys ⊢
  rw [List.map_append, List.map_cons] at hkeys ⊢
  rw [List.map_append]
  exact Lru.erase_eq_of_cut (e := m.entry i) hkeys

/-! ### Writing a value -/

theorem chainView_setValue (m : U64DoubleKeyLRU V) (i : Nat) (v : Option V) (t : HashTable) :
    (m.setNode i { m.getNode i with value := v }).chainView t = m.chainView t := by
  rw [chainView_setNode]
  cases t <;> simp [chainView, HashTable.next, HashTable.prev, HashTable.key]

theorem timeView_setValue (m : U64DoubleKeyLRU V) (i : Nat) (v : Option V) :
    (m.setNode i { m.getNode i with value := v }).timeView = m.timeView := by
  rw [timeView_setNode]
  simp [timeView]

theorem chainView_setKeyValue (m : U64DoubleKeyLRU V) (i : Nat) (k s : UInt64) (v : Option V)
    (t : HashTable) :
    (m.setNode i { m.getNode i with key := k, shortKey := s, value := v }).chainView t =
      { m.chainView t with
        key := Function.update (m.chainView t).key i
          (t.key { m.getNode i with key := k, shortKey := s, value := v }) } := by
  rw [chainView_setNode]
  cases t <;> simp [chainView, HashTable.next, HashTable.prev]

theorem timeView_setKeyValue (m : U64DoubleKeyLRU V) (i : Nat) (k s : UInt64) (v : Option V) :
    (m.setNode i { m.getNode i with key := k, shortKey := s, value := v }).timeView = m.timeView := by
  rw [timeView_setNode]
  simp [timeView]

/-! ### `updateNode` -/

/-- The first step of `updateNode`: the node goes to the front of the time list. -/
theorem touch_spec {us vs : List Nat} {i : Nat} (hT : m.timeView.OK (us ++ i :: vs)) :
    let m' := if (i : Int) ≠ m.timeListHead then
        (m.removeNodeFromTimeList (m.getNode i) (m.getNode i).timeListNext
          (m.getNode i).timeListPrev).pushNodeToTimeList i
      else m
    m'.timeView.OK (i :: (us ++ vs)) ∧ (∀ t, m'.chainView t = m.chainView t) ∧
      m'.ringView = m.ringView ∧ m'.entry = m.entry := by
  have hnd := hT.1.nodup
  have hiuv : i ∉ us ++ vs := fun h' => by
    rw [mem_append_cons_iff hnd] at h'
    exact h'.2 rfl
  obtain ⟨hp, hn⟩ := hT.1.links_ge (List.mem_append_right _ (List.mem_cons_self ..))
  dsimp only
  split_ifs with hhead
  · -- unlink, then push at the front
    have h1 : (m.removeNodeFromTimeList (m.getNode i) (m.getNode i).timeListNext
        (m.getNode i).timeListPrev).timeView.OK (us ++ vs) := by
      rw [timeView_removeNodeFromTimeList m _ _ _ hp hn]
      exact hT.unlink
    have hh1 : -1 ≤ (m.removeNodeFromTimeList (m.getNode i) (m.getNode i).timeListNext
        (m.getNode i).timeListPrev).timeListHead := h1.1.head_ge
    refine ⟨?_, fun t => ?_, ?_, ?_⟩
    · rw [timeView_pushNodeToTimeList _ i hh1]
      exact h1.push hiuv
    · rw [chainView_pushNodeToTimeList _ i hh1, chainView_removeNodeFromTimeList m _ _ _ hp hn]
    · rw [(pushNodeToTimeList_fields _ i).2.1, (removeNodeFromTimeList_fields m _ _ _).2.1]
    · rw [entry_pushNodeToTimeList _ i hh1, entry_removeNodeFromTimeList m _ _ _ hp hn]
  · -- already at the front: nothing stands before it
    have hus : us = [] := by
      cases us with
      | nil => rfl
      | cons a us =>
          have ha : (i : Int) = a := (not_not.mp hhead).trans hT.1.head_eq
          rw [Int.natCast_inj] at ha
          subst ha
          exact absurd (List.mem_cons_self ..) (fun h' => hiuv (List.mem_append_left _ h'))
    subst hus
    exact ⟨hT, fun _ => rfl, rfl, rfl⟩

/-- **`updateNode` moves the entry to the front with its new value**, under the key
and short key it had. -/
theorem Inv.updateNode (h : Inv m entries) (hkeys : (entries.map Prod.fst).Nodup) {i : Nat}
    (hi : i ∈ m.ringView.live) (v : Option V) :
    Inv (m.updateNode i v)
      (((m.getNode i).key, (m.getNode i).shortKey, v) :: Lru.erase (m.getNode i).key entries) := by
  obtain ⟨hring, hchains, T, hT, hperm, hentries⟩ := h
  obtain ⟨us, vs, rfl⟩ := List.append_of_mem (hperm.mem_iff.mpr hi)
  have hiuv : i ∉ us ++ vs := fun h' => by
    rw [mem_append_cons_iff hT.1.nodup] at h'
    exact h'.2 rfl
  have herase := erase_cut hentries hkeys
  obtain ⟨ht', hh', hr', he'⟩ := touch_spec hT
  unfold U64DoubleKeyLRU.updateNode
  dsimp only at ht' hh' hr' he' ⊢
  set m' := (if (i : Int) ≠ m.timeListHead then
        (m.removeNodeFromTimeList (m.getNode i) (m.getNode i).timeListNext
          (m.getNode i).timeListPrev).pushNodeToTimeList i
      else m) with hm'
  have hgi : m'.entry i = m.entry i := congrFun he' i
  refine ⟨?_, fun t => ?_, i :: (us ++ vs), ?_, ?_, ?_⟩
  · rw [ringView_setNode, hr']
    exact hring
  · rw [chainView_setValue, ringView_setNode, hh' t, hr']
    exact hchains t
  · rw [timeView_setValue]
    exact ht'
  · rw [ringView_setNode, hr']
    exact (List.perm_middle.symm).trans hperm
  · rw [entry_setNode, List.map_cons, herase, Function.update_self]
    simp only [entry, Prod.mk.injEq] at hgi
    rw [hgi.1, hgi.2.1]
    refine congrArg _ (List.map_congr_left fun j hj => ?_)
    have hji : j ≠ i := fun h' => hiuv (h' ▸ hj)
    rw [Function.update_of_ne hji, he']

/-! ### `removeNode` -/

section RemoveNode

variable {P : Nat → Prop} {C : HashTable → Nat → List Nat}

/-- The first three steps of `removeNode`: the node leaves its two chains and the
time list. -/
theorem unlink_spec (hC : ∀ t, (m.chainView t).Chains P (C t)) {us vs : List Nat} {i : Nat}
    (hT : m.timeView.OK (us ++ i :: vs)) (hi : P i) :
    let m' := ((m.removeNodeFromHashList (m.getNode i) (m.getNode i).hashListNext
      (m.getNode i).hashListPrev).removeNodeFromRelationHashList (m.getNode i)
      (m.getNode i).relationHashListNext (m.getNode i).relationHashListPrev).removeNodeFromTimeList
      (m.getNode i) (m.getNode i).timeListNext (m.getNode i).timeListPrev
    (∀ t, (m'.chainView t).Chains (fun j => P j ∧ j ≠ i) fun s => (C t s).erase i) ∧
      m'.timeView.OK (us ++ vs) ∧ m'.ringView = m.ringView ∧ m'.entry = m.entry := by
  have hb : ∀ t : HashTable, -1 ≤ t.prev (m.getNode i) ∧ -1 ≤ t.next (m.getNode i) :=
    fun t => (hC t).ok.links_ge hi
  obtain ⟨htp, htn⟩ := hT.1.links_ge (List.mem_append_right _ (List.mem_cons_self ..))
  dsimp only [removeNodeFromHashList, removeNodeFromRelationHashList]
  refine ⟨fun t => ?_, ?_, ?_, ?_⟩
  · -- the table's own helper unlinks the node; the other table's helper leaves its chains
    rw [chainView_removeNodeFromTimeList _ _ _ _ htp htn]
    cases t with
    | hash =>
        rw [chainView_removeNodeFromList_of_ne _ _ _ _ _ (hb .relation).1 (hb .relation).2
          (by decide), chainView_removeNodeFromList _ _ _ _ _ (hb .hash).1 (hb .hash).2]
        exact (hC .hash).unlink hi
    | relation =>
        rw [chainView_removeNodeFromList _ _ _ _ _ (hb .relation).1 (hb .relation).2,
          chainView_removeNodeFromList_of_ne _ _ _ _ _ (hb .hash).1 (hb .hash).2 (by decide)]
        exact (hC .relation).unlink hi
  · rw [timeView_removeNodeFromTimeList _ _ _ _ htp htn,
      timeView_removeNodeFromList _ _ _ _ _ (hb .relation).1 (hb .relation).2,
      timeView_removeNodeFromList _ _ _ _ _ (hb .hash).1 (hb .hash).2]
    exact hT.unlink
  · rw [(removeNodeFromTimeList_fields _ _ _ _).2.1, (removeNodeFromList_fields _ _ _ _ _).2.1,
      (removeNodeFromList_fields _ _ _ _ _).2.1]
  · rw [entry_removeNodeFromTimeList _ _ _ _ htp htn,
      entry_removeNodeFromList _ _ _ _ _ (hb .relation).1 (hb .relation).2,
      entry_removeNodeFromList _ _ _ _ _ (hb .hash).1 (hb .hash).2]

/-- The compaction step of `removeNode`: the segment's first node moves to the free
cell `c`, its neighbours on its three lists now point at `c`, and the first cell is
blanked. -/
theorem move_spec (hC : ∀ t, (m.chainView t).Chains P (C t)) {as bs : List Nat} {c : Nat}
    (hT : m.timeView.OK (as ++ m.bufferStartIndex :: bs)) (hf : P m.bufferStartIndex)
    (hc : ¬ P c) (hcT : c ∉ as ++ m.bufferStartIndex :: bs) :
    let firstNode := m.getNode m.bufferStartIndex
    let m1 := (((m.setNode c firstNode).removeNodeFromHashList firstNode c c
      ).removeNodeFromRelationHashList firstNode c c).removeNodeFromTimeList firstNode c c
    let m' := m1.setNode m1.bufferStartIndex blankU64DoubleKeyLRUNodeForInit
    (∀ t, (m'.chainView t).Chains (fun j => (P j ∧ j ≠ m.bufferStartIndex) ∨ j = c)
        fun s => (C t s).map (rename m.bufferStartIndex c)) ∧
      m'.timeView.OK (as ++ c :: bs) ∧ m'.ringView = m.ringView ∧
      m'.entry = Function.update (Function.update m.entry c (m.entry m.bufferStartIndex))
        m.bufferStartIndex (0, 0, none) := by
  set f := m.bufferStartIndex with hfdef
  have hcf : c ≠ f := fun h' => hc (h' ▸ hf)
  have hb : ∀ t : HashTable, -1 ≤ t.prev (m.getNode f) ∧ -1 ≤ t.next (m.getNode f) :=
    fun t => (hC t).ok.links_ge hf
  obtain ⟨htp, htn⟩ := hT.1.links_ge (List.mem_append_right _ (List.mem_cons_self ..))
  have hfT : f ∉ as ++ c :: bs := by
    have hnd := hT.1.nodup
    rw [List.nodup_append, List.nodup_cons] at hnd
    simp only [List.mem_append, List.mem_cons, not_or]
    exact ⟨fun h' => hnd.2.2 f h' f (List.mem_cons_self ..) rfl, Ne.symm hcf, hnd.2.1.1⟩
  dsimp only [removeNodeFromHashList, removeNodeFromRelationHashList]
  -- the moves keep the ring, so the cell blanked last is still `f`
  have hr1 : (((m.setNode c (m.getNode f)).removeNodeFromList .hash (m.getNode f) c c
      ).removeNodeFromList .relation (m.getNode f) c c |>.removeNodeFromTimeList (m.getNode f) c c
      ).ringView = m.ringView := by
    rw [(removeNodeFromTimeList_fields _ _ _ _).2.1, (removeNodeFromList_fields _ _ _ _ _).2.1,
      (removeNodeFromList_fields _ _ _ _ _).2.1, ringView_setNode]
  have hst : (((m.setNode c (m.getNode f)).removeNodeFromList .hash (m.getNode f) c c
      ).removeNodeFromList .relation (m.getNode f) c c |>.removeNodeFromTimeList (m.getNode f) c c
      ).bufferStartIndex = f := congrArg RingView.start hr1
  rw [hst]
  refine ⟨fun t => ?_, ?_, ?_, ?_⟩
  · rw [chainView_setNode, chainView_removeNodeFromTimeList _ _ _ _ htp htn]
    have hout : ¬ ((P f ∧ f ≠ f) ∨ f = c) := by simp [hcf.symm]
    cases t with
    | hash =>
        rw [chainView_removeNodeFromList_of_ne _ _ _ _ _ (hb .relation).1 (hb .relation).2
          (by decide), chainView_removeNodeFromList _ _ _ _ _ (hb .hash).1 (hb .hash).2,
          chainView_setNode]
        exact ((hC .hash).move hf hc).write_outside hout _ _ _
    | relation =>
        rw [chainView_removeNodeFromList _ _ _ _ _ (hb .relation).1 (hb .relation).2,
          chainView_removeNodeFromList_of_ne _ _ _ _ _ (hb .hash).1 (hb .hash).2 (by decide),
          chainView_setNode]
        exact ((hC .relation).move hf hc).write_outside hout _ _ _
  · rw [timeView_setNode, timeView_removeNodeFromTimeList _ _ _ _ htp htn,
      timeView_removeNodeFromList _ _ _ _ _ (hb .relation).1 (hb .relation).2,
      timeView_removeNodeFromList _ _ _ _ _ (hb .hash).1 (hb .hash).2, timeView_setNode]
    exact (hT.move hcT).write_outside hfT _ _
  · rw [ringView_setNode, hr1]
  · rw [entry_setNode, entry_removeNodeFromTimeList _ _ _ _ htp htn,
      entry_removeNodeFromList _ _ _ _ _ (hb .relation).1 (hb .relation).2,
      entry_removeNodeFromList _ _ _ _ _ (hb .hash).1 (hb .hash).2, entry_setNode]
    rfl

/-- The other branch of `removeNode`: the node was the segment's first, and its cell
is blanked. -/
theorem blank_spec (hC : ∀ t, (m.chainView t).Chains P (C t)) {T : List Nat}
    (ht : m.timeView.OK T) {c : Nat} (hc : ¬ P c) (hcT : c ∉ T) :
    let m' := m.setNode c blankU64DoubleKeyLRUNodeForInit
    (∀ t, (m'.chainView t).Chains P (C t)) ∧ m'.timeView.OK T ∧ m'.ringView = m.ringView ∧
      m'.entry = Function.update m.entry c (0, 0, none) := by
  dsimp only
  refine ⟨fun t => ?_, ?_, ringView_setNode _ _ _, entry_setNode _ _ _⟩
  · rw [chainView_setNode]
    exact (hC t).write_outside hc _ _ _
  · rw [timeView_setNode]
    exact ht.write_outside hcT _ _

/-- The ring after the last step of `removeNode`: one slot later, one slot shorter. -/
theorem ringView_advance (m : U64DoubleKeyLRU V) (hs : m.ringView.start < m.ringView.slots) :
    U64DoubleKeyLRU.ringView { m with
      bufferStartIndex := m.incIndex m.bufferStartIndex
      size := m.size - 1 } =
      { m.ringView with
        start := (m.ringView.start + 1) % m.ringView.slots
        size := m.ringView.size - 1 } := by
  have hinc := incIndex_eq m hs
  simp only [ringView, RingView.mk.injEq, true_and, and_true] at hinc ⊢
  exact hinc

/-- What the last step of `removeNode` leaves: the segment without its first slot,
with the lists the steps before made. -/
theorem advance_spec {m' m'' : U64DoubleKeyLRU V} {r : RingView} (hring : r.WF)
    (hsize : 0 < r.size) (hP : ∀ j, P j ↔ j ∈ r.live ∧ j ≠ r.start)
    (hC : ∀ t, (m'.chainView t).Chains P (C t)) {T : List Nat} (ht : m'.timeView.OK T)
    (hperm : T.Perm (r.live.erase r.start))
    (hr'' : m''.ringView = { r with start := (r.start + 1) % r.slots, size := r.size - 1 })
    (hh'' : ∀ t, m''.chainView t = m'.chainView t) (ht'' : m''.timeView = m'.timeView)
    (he'' : m''.entry = m'.entry) :
    Inv m'' (T.map m'.entry) ∧ ∀ t, (m''.chainView t).Chains (· ∈ m''.ringView.live) (C t) := by
  have hslots : 0 < r.slots := by have := hring.capacity_lt; omega
  have hcons := RingView.live_eq_cons hring.start_lt hsize
  have hnd : r.live.Nodup := RingView.nodup_live (by
    have := hring.size_le; have := hring.capacity_lt; omega)
  have hlive : m''.ringView.live = r.live.erase r.start := by
    rw [hr'', hcons, List.erase_cons_head]
  have hC'' : ∀ t, (m''.chainView t).Chains (· ∈ m''.ringView.live) (C t) := fun t => by
    rw [hlive, hh'' t]
    exact (hC t).of_iff fun j => (hP j).trans (by rw [hnd.mem_erase_iff]; exact and_comm)
  refine ⟨⟨?_, fun t => (hC'' t).ok, T, ?_, ?_, by rw [he'']⟩, hC''⟩
  · rw [hr'']
    refine ⟨hring.capacity_pos, hring.capacity_lt, ?_, Nat.mod_lt _ hslots, ?_⟩
    · have := hring.size_le
      dsimp only
      omega
    · show r.stop = ((r.start + 1) % r.slots + (r.size - 1)) % r.slots
      rw [Nat.mod_add_mod, hring.stop_eq]
      congr 1
      omega
  · rw [ht'']
    exact ht
  · rw [hlive]
    exact hperm

/-- **`removeNode` drops the node's entry**, and of the lists the chains are it
erases the node and renames the segment's first cell to the node's cell, where that
cell's node now is.  It returns the node's cell exactly when the node's next on its
relation chain was the segment's first cell. -/
theorem removeNode_spec (h : Inv m entries) (hkeys : (entries.map Prod.fst).Nodup) {i : Nat}
    (hi : i ∈ m.ringView.live) (hC : ∀ t, (m.chainView t).Chains (· ∈ m.ringView.live) (C t)) :
    Inv (m.removeNode i).2 (Lru.erase (m.getNode i).key entries) ∧
      (∀ t, ((m.removeNode i).2.chainView t).Chains (· ∈ (m.removeNode i).2.ringView.live)
        fun s => ((C t s).erase i).map (rename m.bufferStartIndex i)) ∧
      (∀ j ∈ m.ringView.live, j ≠ i →
        (m.removeNode i).2.entry (rename m.bufferStartIndex i j) = m.entry j) ∧
      (m.removeNode i).1 =
        if (m.getNode i).relationHashListNext = m.bufferStartIndex then (i : Int) else -1 := by
  obtain ⟨hring, -, T, hT, hperm, hentries⟩ := h
  obtain ⟨us, vs, rfl⟩ := List.append_of_mem (hperm.mem_iff.mpr hi)
  have hnd := hT.1.nodup
  have hiuv : i ∉ us ++ vs := fun h' => by
    rw [mem_append_cons_iff hnd] at h'
    exact h'.2 rfl
  have herase := erase_cut hentries hkeys
  have hsize : 0 < m.ringView.size := by
    have := List.length_pos_of_mem hi
    rwa [RingView.length_live] at this
  have hlnd : m.ringView.live.Nodup := RingView.nodup_live (by
    have := hring.size_le; have := hring.capacity_lt; omega)
  have hstart_live : m.ringView.start ∈ m.ringView.live := by
    rw [RingView.live_eq_cons hring.start_lt hsize]
    exact List.mem_cons_self ..
  have hperm1 : (us ++ vs).Perm (m.ringView.live.erase i) := by
    have := hperm.erase i
    rwa [List.erase_append_right _ (fun h' => hiuv (List.mem_append_left _ h')),
      List.erase_cons_head] at this
  obtain ⟨hv2, tv2, r2, e2⟩ := unlink_spec hC hT hi
  unfold U64DoubleKeyLRU.removeNode
  dsimp only at hv2 tv2 r2 e2 ⊢
  generalize ((m.removeNodeFromHashList (m.getNode i) (m.getNode i).hashListNext
    (m.getNode i).hashListPrev).removeNodeFromRelationHashList (m.getNode i)
    (m.getNode i).relationHashListNext (m.getNode i).relationHashListPrev).removeNodeFromTimeList
    (m.getNode i) (m.getNode i).timeListNext (m.getNode i).timeListPrev = m2 at hv2 tv2 r2 e2 ⊢
  have hst : m2.bufferStartIndex = m.ringView.start := congrArg RingView.start r2
  have hst' : m.bufferStartIndex = m2.bufferStartIndex := hst.symm
  rw [herase, hst']
  by_cases hif : i ≠ m2.bufferStartIndex
  · -- another node: the segment's first node moves into the freed cell
    rw [if_pos hif]
    have hfP : m2.bufferStartIndex ∈ m.ringView.live ∧ m2.bufferStartIndex ≠ i :=
      ⟨hst ▸ hstart_live, Ne.symm hif⟩
    have hfT : m2.bufferStartIndex ∈ us ++ vs :=
      hperm1.mem_iff.mpr ((hlnd.mem_erase_iff).mpr ⟨hfP.2, hfP.1⟩)
    obtain ⟨as, bs, hab⟩ := List.append_of_mem hfT
    rw [hab] at tv2
    have hcT : i ∉ as ++ m2.bufferStartIndex :: bs := hab ▸ hiuv
    obtain ⟨hv6, tv6, r6, e6⟩ := move_spec hv2 tv2 hfP (fun h' => h'.2 rfl) hcT
    have hfab : m2.bufferStartIndex ∉ as ++ bs := by
      have hnd' := hperm1.nodup_iff.mpr (hlnd.erase i)
      rw [hab, List.nodup_append, List.nodup_cons] at hnd'
      simp only [List.mem_append, not_or]
      exact ⟨fun h' => hnd'.2.2 _ h' _ (List.mem_cons_self ..) rfl, hnd'.2.1.1⟩
    have hent6 : ∀ j ∈ m.ringView.live, j ≠ i →
        Function.update (Function.update m2.entry i (m2.entry m2.bufferStartIndex))
          m2.bufferStartIndex (0, 0, none) (rename m2.bufferStartIndex i j) = m.entry j := by
      intro j _ hji
      rw [e2]
      unfold rename
      split_ifs with hjf
      · rw [Function.update_of_ne hif, Function.update_self, hjf]
      · rw [Function.update_of_ne hjf, Function.update_of_ne hji]
    have hkeep : ∀ j ∈ us ++ vs, j ≠ m2.bufferStartIndex →
        Function.update (Function.update m2.entry i (m2.entry m2.bufferStartIndex))
          m2.bufferStartIndex (0, 0, none) j = m.entry j := fun j hj hjf => by
      have := hent6 j (List.mem_of_mem_erase (hperm1.mem_iff.mp hj))
        (by rintro rfl; exact hiuv hj)
      rwa [show rename m2.bufferStartIndex i j = j from if_neg hjf] at this
    have hentries' : (as ++ i :: bs).map (Function.update (Function.update m2.entry i
        (m2.entry m2.bufferStartIndex)) m2.bufferStartIndex (0, 0, none)) = (us ++ vs).map m.entry := by
      have hmid := hent6 m2.bufferStartIndex hfP.1 hfP.2
      rw [show rename m2.bufferStartIndex i m2.bufferStartIndex = i from if_pos rfl] at hmid
      rw [hab]
      simp only [List.map_append, List.map_cons]
      rw [hmid]
      congr 1
      · refine List.map_congr_left fun j hj => hkeep j ?_ ?_
        · rw [hab]; exact List.mem_append_left _ hj
        · rintro rfl; exact hfab (List.mem_append_left _ hj)
      · refine congrArg _ (List.map_congr_left fun j hj => hkeep j ?_ ?_)
        · rw [hab]; exact List.mem_append_right _ (List.mem_cons_of_mem _ hj)
        · rintro rfl; exact hfab (List.mem_append_right _ hj)
    have hperm' : (as ++ i :: bs).Perm (m.ringView.live.erase m.ringView.start) := by
      have hT' : (us ++ i :: vs).Perm (m2.bufferStartIndex :: i :: (as ++ bs)) := by
        refine List.perm_middle.trans ((List.Perm.cons i ?_).trans (List.Perm.swap _ _ _))
        rw [hab]
        exact List.perm_middle
      have := (hperm.symm.trans hT').erase m2.bufferStartIndex
      rw [List.erase_cons_head] at this
      rw [← hst]
      exact List.perm_middle.trans this.symm
    have hP : ∀ j, ((j ∈ m.ringView.live ∧ j ≠ i) ∧ j ≠ m2.bufferStartIndex ∨ j = i) ↔
        j ∈ m.ringView.live ∧ j ≠ m.ringView.start := by
      intro j
      rw [← hst]
      constructor
      · rintro (⟨⟨hj, -⟩, hjf⟩ | rfl)
        · exact ⟨hj, hjf⟩
        · exact ⟨hi, hif⟩
      · rintro ⟨hj, hjf⟩
        by_cases hji : j = i
        · exact Or.inr hji
        · exact Or.inl ⟨⟨hj, hji⟩, hjf⟩
    have hadv := advance_spec hring hsize hP hv6 tv6 hperm'
      (ringView_advance _ (by rw [r6, r2]; exact hring.start_lt) |>.trans (by rw [r6, r2]))
      (fun _ => rfl) rfl rfl
    rw [e6, hentries'] at hadv
    rw [← e6] at hent6
    exact ⟨hadv.1, hadv.2, hent6, rfl⟩
  · -- the node was the segment's first: its cell is blanked
    rw [if_neg hif]
    have hi0 : i = m2.bufferStartIndex := not_not.mp hif
    obtain ⟨hv6, tv6, r6, e6⟩ := blank_spec hv2 tv2 (c := i) (fun h' => h'.2 rfl) hiuv
    have hentries' : (us ++ vs).map (Function.update m2.entry i (0, 0, none)) =
        (us ++ vs).map m.entry := by
      rw [e2]
      exact List.map_congr_left fun j hj => Function.update_of_ne (by rintro rfl; exact hiuv hj) _ _
    have hadv := advance_spec hring hsize (fun j => by rw [← hst, ← hi0]) hv6 tv6
      (by rw [← hst, ← hi0]; exact hperm1)
      (ringView_advance _ (by rw [r6, r2]; exact hring.start_lt) |>.trans (by rw [r6, r2]))
      (fun _ => rfl) rfl rfl
    rw [e6, hentries'] at hadv
    refine ⟨hadv.1, ?_, fun j _ hji => ?_, ?_⟩
    · rw [← hi0]
      simpa using hadv.2
    · rw [← hi0, rename, if_neg hji]
      show (m2.setNode i blankU64DoubleKeyLRUNodeForInit).entry j = _
      rw [e6, Function.update_of_ne hji, e2]
    · have hne : (m.getNode i).relationHashListNext ≠ m2.bufferStartIndex := by
        rw [← hi0]
        exact (hC .relation).ok.next_ne hi
      rw [if_neg hne]

end RemoveNode

/-- **`removeNode` drops the node's entry.** -/
theorem Inv.removeNode (h : Inv m entries) (hkeys : (entries.map Prod.fst).Nodup) {i : Nat}
    (hi : i ∈ m.ringView.live) :
    Inv (m.removeNode i).2 (Lru.erase (m.getNode i).key entries) := by
  choose C hC using fun t => (h.chains t).chains
  exact (removeNode_spec h hkeys hi hC).1

/-- `removeNode` keeps the slot functions and the capacity. -/
theorem removeNode_fields (m : U64DoubleKeyLRU V) (i : Nat) :
    (m.removeNode i).2.compress = m.compress ∧ (m.removeNode i).2.capacity = m.capacity := by
  have hkeep : ∀ m' : U64DoubleKeyLRU V, m'.compress = m.compress → m'.ringView = m.ringView →
      ∀ a b, ({ m' with bufferStartIndex := a, size := b } : U64DoubleKeyLRU V).compress = m.compress ∧
        ({ m' with bufferStartIndex := a, size := b } : U64DoubleKeyLRU V).capacity = m.capacity :=
    fun _ h1 h2 _ _ => ⟨h1, congrArg RingView.capacity h2⟩
  unfold U64DoubleKeyLRU.removeNode
  dsimp only [removeNodeFromHashList, removeNodeFromRelationHashList]
  split_ifs <;> refine hkeep _ ?_ ?_ _ _ <;>
    simp only [compress_setNode, ringView_setNode, removeNodeFromList_fields,
      removeNodeFromTimeList_fields]

/-! ### `newNode` -/

/-- The ring after the last step of `newNode`: one slot longer at the end. -/
theorem ringView_extend (m : U64DoubleKeyLRU V) {i : Nat} (hi : i < m.ringView.slots) :
    U64DoubleKeyLRU.ringView { m with bufferEndIndex := m.incIndex i } =
      { m.ringView with stop := (i + 1) % m.ringView.slots } := by
  have hinc := incIndex_eq m hi
  simp only [ringView, RingView.mk.injEq, true_and, and_true] at hinc ⊢
  exact hinc

/-- The steps of `newNode` after the eviction: the new node takes the end of the
segment and the front of its two chains and of the time list. -/
theorem Inv.push (h : Inv m entries) (hlt : m.size < m.capacity) (key shortKey : UInt64)
    (value : Option V) :
    let m1 := { m with size := m.size + 1 }
    let m2 := m1.pushNodeToHashList m.bufferEndIndex (m1.compressHash key)
    let m3 := (m2.pushNodeToRelationHashList m.bufferEndIndex
      (m2.compressRelationHash shortKey)).pushNodeToTimeList m.bufferEndIndex
    let m4 := m3.setNode m.bufferEndIndex
      { m3.getNode m.bufferEndIndex with key := key, shortKey := shortKey, value := value }
    Inv { m4 with bufferEndIndex := m4.incIndex m.bufferEndIndex }
      ((key, shortKey, value) :: entries) := by
  obtain ⟨hring, hchains, T, hT, hperm, hentries⟩ := h
  have heL : m.bufferEndIndex ∉ m.ringView.live :=
    RingView.stop_not_mem_live hring (by have := hring.capacity_lt; exact Nat.lt_trans hlt this)
  have heT : m.bufferEndIndex ∉ T := fun h' => heL (hperm.mem_iff.mp h')
  dsimp only [pushNodeToHashList, pushNodeToRelationHashList]
  set e := m.bufferEndIndex with he
  set m1 : U64DoubleKeyLRU V := { m with size := m.size + 1 } with hm1
  have hh1 : -1 ≤ m1.slotHead .hash (m1.compressHash key) := (hchains .hash).head_ge _
  set m2 := m1.pushNodeToList .hash e (m1.compressHash key) with hm2
  have hh2 : -1 ≤ m2.slotHead .relation (m2.compressRelationHash shortKey) := by
    rw [hm2, slotHead_pushNodeToList, if_neg (by decide)]
    exact (hchains .relation).head_ge _
  set m2r := m2.pushNodeToList .relation e (m2.compressRelationHash shortKey) with hm2r
  have hth : -1 ≤ m2r.timeListHead := by
    rw [hm2r, (pushNodeToList_fields _ _ _ _).2.2.1, hm2, (pushNodeToList_fields _ _ _ _).2.2.1]
    exact hT.1.head_ge
  set m3 := m2r.pushNodeToTimeList e with hm3
  set m4 := m3.setNode e { m3.getNode e with key := key, shortKey := shortKey, value := value }
    with hm4
  have hr4 : m4.ringView = { m.ringView with size := m.size + 1 } := by
    rw [hm4, ringView_setNode, hm3, (pushNodeToTimeList_fields _ _).2.1, hm2r,
      (pushNodeToList_fields _ _ _ _).2.1, hm2, (pushNodeToList_fields _ _ _ _).2.1]
    rfl
  have hestop : e = (m.ringView.start + m.ringView.size) % m.ringView.slots := hring.stop_eq
  have hrf : U64DoubleKeyLRU.ringView { m4 with bufferEndIndex := m4.incIndex e } =
      { m.ringView with stop := (e + 1) % m.ringView.slots, size := m.ringView.size + 1 } := by
    have hslots : 0 < m.ringView.slots := Nat.lt_of_le_of_lt (Nat.zero_le _) hring.capacity_lt
    rw [ringView_extend _ (by rw [hr4, hestop]; exact Nat.mod_lt _ hslots), hr4]
    rfl
  have hlive : RingView.live (U64DoubleKeyLRU.ringView { m4 with bufferEndIndex := m4.incIndex e }) =
      m.ringView.live ++ [e] := by
    rw [hrf, RingView.live_push, hestop]
  refine ⟨?_, fun t => ?_, e :: T, ?_, ?_, ?_⟩
  · rw [hrf]
    refine ⟨hring.capacity_pos, hring.capacity_lt, hlt, hring.start_lt, ?_⟩
    show (e + 1) % m.ringView.slots = (m.ringView.start + (m.ringView.size + 1)) % m.ringView.slots
    rw [hestop, Nat.mod_add_mod, Nat.add_assoc]
  · rw [hlive]
    show (m4.chainView t).OK _
    rw [hm4, chainView_setKeyValue, hm3, chainView_pushNodeToTimeList _ _ hth]
    cases t with
    | hash =>
        rw [hm2r, chainView_pushNodeToList_of_ne _ _ _ _ hh2 (by decide), hm2,
          chainView_pushNodeToList _ _ _ _ hh1]
        exact ((hchains .hash).push heL key).of_iff fun j => by simp
    | relation =>
        rw [hm2r, chainView_pushNodeToList _ _ _ _ hh2, hm2,
          chainView_pushNodeToList_of_ne _ _ _ _ hh1 (by decide)]
        have hslot : (m1.pushNodeToList .hash e (m1.compressHash key)).compressRelationHash shortKey =
            (m.chainView .relation).slot shortKey :=
          congrFun (congrFun (pushNodeToList_fields m1 .hash e _).1 .relation) shortKey
        rw [hslot]
        exact ((hchains .relation).push heL shortKey).of_iff fun j => by simp
  · show m4.timeView.OK _
    rw [hm4, timeView_setKeyValue, hm3, timeView_pushNodeToTimeList _ _ hth, hm2r,
      timeView_pushNodeToList _ _ _ _ hh2, hm2, timeView_pushNodeToList _ _ _ _ hh1]
    exact hT.push heT
  · rw [hlive]
    exact (hperm.cons e).trans (List.perm_append_singleton _ _).symm
  · show (e :: T).map m4.entry = _
    rw [hm4, entry_setNode, hm3, entry_pushNodeToTimeList _ _ hth, hm2r,
      entry_pushNodeToList _ _ _ _ hh2, hm2, entry_pushNodeToList _ _ _ _ hh1, List.map_cons,
      Function.update_self, ← hentries]
    refine congrArg _ (List.map_congr_left fun j hj => ?_)
    exact Function.update_of_ne (by rintro rfl; exact heT hj) _ _

/-- The eviction of `newNode`: the time list's tail is the least recently used
node, and removing it drops the last entry. -/
theorem Inv.evict (h : Inv m entries) (hkeys : (entries.map Prod.fst).Nodup)
    (hfull : m.capacity ≤ m.size) :
    Inv (m.removeNode m.timeListTail.toNat).2 entries.dropLast := by
  obtain ⟨T, hT, hperm, hentries⟩ := h.time
  have hne : T ≠ [] := by
    have hpos : 0 < m.size := Nat.lt_of_lt_of_le h.ring.capacity_pos hfull
    intro hT0
    have := hperm.length_eq
    rw [hT0, RingView.length_live] at this
    exact absurd this.symm (Nat.ne_of_gt hpos)
  obtain ⟨T', i, rfl⟩ : ∃ T' i, T = T' ++ [i] :=
    ⟨T.dropLast, T.getLast hne, (List.dropLast_concat_getLast hne).symm⟩
  have htail : m.timeListTail.toNat = i := by
    have := hT.2
    rw [timeView_tail, lastOr_append] at this
    rw [this]
    rfl
  have hi : i ∈ m.ringView.live :=
    hperm.mem_iff.mp (List.mem_append_right _ (List.mem_singleton_self _))
  have hdrop : Lru.erase (m.getNode i).key entries = entries.dropLast := by
    rw [← hentries] at hkeys ⊢
    rw [List.map_append, List.map_singleton, List.dropLast_concat]
    rw [List.map_append, List.map_singleton] at hkeys
    exact (Lru.erase_eq_of_cut (e := m.entry i) hkeys).trans (List.append_nil _)
  rw [htail, ← hdrop]
  exact h.removeNode hkeys hi

/-- **`newNode` puts the new entry first, after evicting the last when full.** -/
theorem Inv.newNode (h : Inv m entries) (hkeys : (entries.map Prod.fst).Nodup)
    (key shortKey : UInt64) (value : Option V) :
    Inv (m.newNode key shortKey value)
      ((key, shortKey, value) ::
        if entries.length ≥ m.capacity then entries.dropLast else entries) := by
  have hlen := h.length_eq
  unfold U64DoubleKeyLRU.newNode
  dsimp only
  by_cases hfull : m.size ≥ m.capacity
  · rw [if_pos hfull, if_pos (hlen ▸ hfull)]
    have h1 := h.evict hkeys hfull
    refine h1.push ?_ key shortKey value
    rw [(removeNode_fields _ _).2, ← h1.length_eq, List.length_dropLast, hlen]
    have hpos : 0 < m.capacity := h.ring.capacity_pos
    have hle : m.size ≤ m.capacity := h.ring.size_le
    omega
  · rw [if_neg hfull, if_neg (hlen ▸ hfull)]
    exact h.push (Nat.lt_of_not_le hfull) key shortKey value

end U64DoubleKeyLRU

end Sophon.Server
