/-
`U128LRU` refines the abstract LRU map, as `U64LRU` does.

`Inv m entries` has the fields of `U64LRU.Inv` and one more, `slot`: every live
node keeps in `hash` the slot of its two words.  The chains are read through that
field, so the chain `removeNodeFromHashList` unlinks a node from is the chain the
node is on, and the chain `find` walks for a key is the chain of the node that
holds it.  Each operation keeps `Inv` with the abstract operation applied to
`entries`.  `updateNode` also moves the node to the front of its chain, which
leaves the chains holding the same nodes.
-/
import Sophon.Server.U128LruSpec
import Sophon.Server.U64LruRefine

namespace Sophon.Server

open LinkList

variable {V : Type}

namespace U128LRU

variable {m : U128LRU V} {entries : List ((UInt64 × UInt64) × Option V)}

/-- `incIndex` is the next slot of the ring. -/
theorem incIndex_eq (m : U128LRU V) {i : Nat} (hi : i < m.ringView.slots) :
    m.incIndex i = (i + 1) % m.ringView.slots := by
  simp only [RingView.slots, ringView] at hi ⊢
  unfold incIndex
  dsimp only
  rw [Nat.shiftRight_eq_div_pow]
  by_cases h : i + 1 = m.ringBufferLen * 256
  · rw [if_pos (by omega), h, Nat.mod_self]
  · rw [if_neg (by omega), Nat.mod_eq_of_lt (by omega)]

/-- The node in cell `j` keeps the slot of its two words. -/
def SlotOK (m : U128LRU V) (j : Nat) : Prop :=
  m.hashView.key j = m.compressHash (m.entry j).1.1 (m.entry j).1.2

theorem slotOK_congr {m' : U128LRU V} {j j' : Nat} (hk : m'.hashView.key j = m.hashView.key j')
    (he : (m'.entry j).1 = (m.entry j').1) (hc : m'.compressHash = m.compressHash) :
    m'.SlotOK j ↔ m.SlotOK j' := by
  unfold SlotOK
  rw [hk, he, hc]

/-- **The invariant**: `m` stands for the abstract map `entries`. -/
structure Inv (m : U128LRU V) (entries : List ((UInt64 × UInt64) × Option V)) : Prop where
  ring : m.ringView.WF
  hash : m.hashView.OK (· ∈ m.ringView.live)
  slot : ∀ j ∈ m.ringView.live, m.SlotOK j
  time : ∃ T, m.timeView.OK T ∧ T.Perm m.ringView.live ∧ T.map m.entry = entries

/-- The abstract map has one entry for each live node. -/
theorem Inv.length_eq (h : Inv m entries) : entries.length = m.size := by
  obtain ⟨-, -, -, T, -, hperm, rfl⟩ := h
  rw [List.length_map, hperm.length_eq, RingView.length_live]
  rfl

/-- The cells of an abstract map with distinct keys, cut at one: erasing its key
drops exactly its entry. -/
theorem erase_cut {us vs : List Nat} {i : Nat} (hent : (us ++ i :: vs).map m.entry = entries)
    (hkeys : (entries.map Prod.fst).Nodup) :
    Lru.erase (m.entry i).1 entries = (us ++ vs).map m.entry := by
  rw [← hent] at hkeys ⊢
  rw [List.map_append, List.map_cons] at hkeys ⊢
  rw [List.map_append]
  exact Lru.erase_eq_of_cut (e := m.entry i) hkeys

/-! ### Writing a value -/

theorem hashView_setValue (m : U128LRU V) (i : Nat) (v : Option V) :
    (m.setNode i { m.getNode i with value := v }).hashView = m.hashView := by
  rw [hashView_setNode]
  simp [hashView]

theorem timeView_setValue (m : U128LRU V) (i : Nat) (v : Option V) :
    (m.setNode i { m.getNode i with value := v }).timeView = m.timeView := by
  rw [timeView_setNode]
  simp [timeView]

theorem entry_setValue (m : U128LRU V) (i : Nat) (v : Option V) :
    (m.setNode i { m.getNode i with value := v }).entry =
      Function.update m.entry i ((m.entry i).1, v) := by
  rw [entry_setNode]
  rfl

/-! ### `updateNode` -/

/-- The first step of `updateNode`: the node goes to the front of the time list. -/
theorem touch_spec {us vs : List Nat} {i : Nat} (hT : m.timeView.OK (us ++ i :: vs)) :
    let m' := if (i : Int) ≠ m.timeListHead then
        (m.removeNodeFromTimeList (m.getNode i) (m.getNode i).timeListNext
          (m.getNode i).timeListPrev).pushNodeToTimeList i
      else m
    m'.timeView.OK (i :: (us ++ vs)) ∧ m'.hashView = m.hashView ∧ m'.ringView = m.ringView ∧
      m'.entry = m.entry ∧ m'.compressHash = m.compressHash := by
  have hnd := hT.1.nodup
  have hiuv : i ∉ us ++ vs := fun h' => by
    rw [mem_append_cons_iff hnd] at h'
    exact h'.2 rfl
  obtain ⟨hp, hn⟩ := hT.1.links_ge (List.mem_append_right _ (List.mem_cons_self ..))
  dsimp only
  split_ifs with hhead
  · -- unlink, then push at the front
    have h1 : (m.removeNodeFromTimeList (m.getNode i) (m.getNode i).timeListNext
        (m.getNode i).timeListPrev).timeView.OK (us ++ vs) := by
      rw [timeView_removeNodeFromTimeList m _ _ _ hp hn]
      exact hT.unlink
    have hh1 : -1 ≤ (m.removeNodeFromTimeList (m.getNode i) (m.getNode i).timeListNext
        (m.getNode i).timeListPrev).timeListHead := h1.1.head_ge
    refine ⟨?_, ?_, ?_, ?_, compressHash_congr (by simp)⟩
    · rw [timeView_pushNodeToTimeList _ i hh1]
      exact h1.push hiuv
    · rw [hashView_pushNodeToTimeList _ i hh1, hashView_removeNodeFromTimeList m _ _ _ hp hn]
    · rw [ringView_pushNodeToTimeList, ringView_removeNodeFromTimeList]
    · rw [entry_pushNodeToTimeList _ i hh1, entry_removeNodeFromTimeList m _ _ _ hp hn]
  · -- already at the front: nothing stands before it
    have hus : us = [] := by
      cases us with
      | nil => rfl
      | cons a us =>
          have ha : (i : Int) = a := (not_not.mp hhead).trans hT.1.head_eq
          rw [Int.natCast_inj] at ha
          subst ha
          exact absurd (List.mem_cons_self ..) (fun h' => hiuv (List.mem_append_left _ h'))
    subst hus
    exact ⟨hT, rfl, rfl, rfl, rfl⟩

/-- The second step of `updateNode`: the node goes to the front of its chain, which
then holds the same nodes. -/
theorem chainTouch_spec {P : Nat → Prop} (hh : m.hashView.OK P) {i : Nat} (hi : P i) :
    let m' := if (i : Int) ≠ m.hashSlotHead (m.getNode i).hash then
        (m.removeNodeFromHashList (m.getNode i) (m.getNode i).hashListNext
          (m.getNode i).hashListPrev).pushNodeToHashList i (m.getNode i).hash
      else m
    m'.hashView.OK P ∧ m'.hashView.key = m.hashView.key ∧ m'.timeView = m.timeView ∧
      m'.ringView = m.ringView ∧ m'.entry = m.entry ∧ m'.compressHash = m.compressHash := by
  obtain ⟨hp, hn⟩ := hh.links_ge hi
  dsimp only
  split_ifs
  · have h1 : (m.removeNodeFromHashList (m.getNode i) (m.getNode i).hashListNext
        (m.getNode i).hashListPrev).hashView.OK (fun j => P j ∧ j ≠ i) := by
      rw [hashView_removeNodeFromHashList m _ _ _ hp hn]
      exact hh.unlink hi
    have hh1 : -1 ≤ (m.removeNodeFromHashList (m.getNode i) (m.getNode i).hashListNext
        (m.getNode i).hashListPrev).hashSlotHead (m.getNode i).hash := h1.head_ge _
    have hkey : (m.removeNodeFromHashList (m.getNode i) (m.getNode i).hashListNext
        (m.getNode i).hashListPrev).hashView.key = m.hashView.key := by
      rw [hashView_removeNodeFromHashList m _ _ _ hp hn]
    refine ⟨?_, ?_, ?_, ?_, ?_, compressHash_congr (by simp)⟩
    · have h2 := h1.push (e := i) (fun h' => h'.2 rfl) (m.getNode i).hash
      have hk1 : Function.update (m.removeNodeFromHashList (m.getNode i) (m.getNode i).hashListNext
          (m.getNode i).hashListPrev).hashView.key i (m.getNode i).hash =
          (m.removeNodeFromHashList (m.getNode i) (m.getNode i).hashListNext
            (m.getNode i).hashListPrev).hashView.key :=
        Function.update_eq_self_iff.mpr (congrFun hkey i).symm
      rw [hk1] at h2
      rw [hashView_pushNodeToHashList _ i _ hh1]
      refine h2.of_iff fun j => ?_
      by_cases hji : j = i
      · subst hji
        exact ⟨fun _ => hi, fun _ => Or.inr rfl⟩
      · exact ⟨fun h' => h'.elim And.left (fun h'' => absurd h'' hji), fun h' => Or.inl ⟨h', hji⟩⟩
    · rw [hashView_pushNodeToHashList _ i _ hh1, hkey]
    · rw [timeView_pushNodeToHashList _ i _ hh1, timeView_removeNodeFromHashList m _ _ _ hp hn]
    · rw [ringView_pushNodeToHashList, ringView_removeNodeFromHashList]
    · rw [entry_pushNodeToHashList _ i _ hh1, entry_removeNodeFromHashList m _ _ _ hp hn]
  · exact ⟨hh, rfl, rfl, rfl, rfl, rfl⟩

/-- **`updateNode` moves the entry to the front with its new value.** -/
theorem Inv.updateNode (h : Inv m entries) (hkeys : (entries.map Prod.fst).Nodup) {i : Nat}
    (hi : i ∈ m.ringView.live) (v : Option V) :
    Inv (m.updateNode i v) (((m.entry i).1, v) :: Lru.erase (m.entry i).1 entries) := by
  obtain ⟨hring, hhash, hslot, T, hT, hperm, hentries⟩ := h
  obtain ⟨us, vs, rfl⟩ := List.append_of_mem (hperm.mem_iff.mpr hi)
  have hnd := hT.1.nodup
  have hiuv : i ∉ us ++ vs := fun h' => by
    rw [mem_append_cons_iff hnd] at h'
    exact h'.2 rfl
  have herase := erase_cut hentries hkeys
  obtain ⟨ht', hh', hr', he', hc'⟩ := touch_spec hT
  unfold U128LRU.updateNode
  dsimp only at ht' hh' hr' he' hc' ⊢
  set m' := (if (i : Int) ≠ m.timeListHead then
        (m.removeNodeFromTimeList (m.getNode i) (m.getNode i).timeListNext
          (m.getNode i).timeListPrev).pushNodeToTimeList i
      else m) with hm'
  have hhash' : m'.hashView.OK (· ∈ m.ringView.live) := hh' ▸ hhash
  obtain ⟨hh'', hk'', ht'', hr'', he'', hc''⟩ := chainTouch_spec hhash' hi
  set m'' := (if (i : Int) ≠ m'.hashSlotHead (m'.getNode i).hash then
        (m'.removeNodeFromHashList (m'.getNode i) (m'.getNode i).hashListNext
          (m'.getNode i).hashListPrev).pushNodeToHashList i (m'.getNode i).hash
      else m') with hm''
  have hei : m''.entry = m.entry := he''.trans he'
  refine ⟨?_, ?_, fun j hj => ?_, i :: (us ++ vs), ?_, ?_, ?_⟩
  · rw [ringView_setNode, hr'', hr']
    exact hring
  · rw [hashView_setValue, ringView_setNode, hr'', hr']
    exact hh''
  · rw [ringView_setNode, hr'', hr'] at hj
    refine (slotOK_congr ?_ ?_ ?_).mpr (hslot j hj)
    · rw [hashView_setValue, hk'', hh']
    · rw [entry_setValue]
      by_cases hji : j = i
      · subst hji
        rw [Function.update_self, hei]
      · rw [Function.update_of_ne hji, hei]
    · exact (compressHash_congr rfl).trans (hc''.trans hc')
  · rw [timeView_setValue, ht'']
    exact ht'
  · rw [ringView_setNode, hr'', hr']
    exact (List.perm_middle.symm).trans hperm
  · rw [entry_setValue, List.map_cons, herase, Function.update_self, hei]
    refine congrArg _ (List.map_congr_left fun j hj => ?_)
    have hji : j ≠ i := fun h' => hiuv (h' ▸ hj)
    rw [Function.update_of_ne hji]

/-! ### `removeNode` -/

/-- The first two steps of `removeNode`: the node leaves its chain and the time list. -/
theorem unlink_spec {P : Nat → Prop} (hh : m.hashView.OK P) {us vs : List Nat} {i : Nat}
    (hT : m.timeView.OK (us ++ i :: vs)) (hi : P i) :
    let m' := (m.removeNodeFromHashList (m.getNode i) (m.getNode i).hashListNext
      (m.getNode i).hashListPrev).removeNodeFromTimeList (m.getNode i) (m.getNode i).timeListNext
      (m.getNode i).timeListPrev
    m'.hashView.OK (fun j => P j ∧ j ≠ i) ∧ m'.timeView.OK (us ++ vs) ∧
      m'.ringView = m.ringView ∧ m'.entry = m.entry ∧ ∀ j, m'.SlotOK j ↔ m.SlotOK j := by
  obtain ⟨hhp, hhn⟩ := hh.links_ge hi
  obtain ⟨htp, htn⟩ := hT.1.links_ge (List.mem_append_right _ (List.mem_cons_self ..))
  have hkey : ((m.removeNodeFromHashList (m.getNode i) (m.getNode i).hashListNext
      (m.getNode i).hashListPrev).removeNodeFromTimeList (m.getNode i) (m.getNode i).timeListNext
      (m.getNode i).timeListPrev).hashView.key = m.hashView.key := by
    rw [hashView_removeNodeFromTimeList _ _ _ _ htp htn,
      hashView_removeNodeFromHashList _ _ _ _ hhp hhn]
  have he : ((m.removeNodeFromHashList (m.getNode i) (m.getNode i).hashListNext
      (m.getNode i).hashListPrev).removeNodeFromTimeList (m.getNode i) (m.getNode i).timeListNext
      (m.getNode i).timeListPrev).entry = m.entry := by
    rw [entry_removeNodeFromTimeList _ _ _ _ htp htn, entry_removeNodeFromHashList _ _ _ _ hhp hhn]
  dsimp only
  refine ⟨?_, ?_, ?_, he, fun j => slotOK_congr (by rw [hkey]) (by rw [he]) (compressHash_congr (by simp))⟩
  · rw [hashView_removeNodeFromTimeList _ _ _ _ htp htn,
      hashView_removeNodeFromHashList _ _ _ _ hhp hhn]
    exact hh.unlink hi
  · rw [timeView_removeNodeFromTimeList _ _ _ _ htp htn,
      timeView_removeNodeFromHashList _ _ _ _ hhp hhn]
    exact hT.unlink
  · rw [ringView_removeNodeFromTimeList, ringView_removeNodeFromHashList]

/-- The compaction step of `removeNode`: the segment's first node moves to the free
cell `c` with the slot it keeps, its neighbours now point at `c`, and the first
cell is blanked. -/
theorem move_spec {P : Nat → Prop} (hh : m.hashView.OK P) {as bs : List Nat} {c : Nat}
    (hT : m.timeView.OK (as ++ m.bufferStartIndex :: bs)) (hf : P m.bufferStartIndex) (hc : ¬ P c)
    (hcT : c ∉ as ++ m.bufferStartIndex :: bs) (hsl : ∀ j, P j → m.SlotOK j) :
    let firstNode := m.getNode m.bufferStartIndex
    let m1 := ((m.setNode c firstNode).removeNodeFromHashList firstNode c c).removeNodeFromTimeList
      firstNode c c
    let m' := m1.setNode m1.bufferStartIndex blankU128LRUNodeForInit
    m'.hashView.OK (fun j => (P j ∧ j ≠ m.bufferStartIndex) ∨ j = c) ∧
      m'.timeView.OK (as ++ c :: bs) ∧ m'.ringView = m.ringView ∧
      m'.entry = Function.update (Function.update m.entry c (m.entry m.bufferStartIndex))
        m.bufferStartIndex ((0, 0), none) ∧
      ∀ j, (P j ∧ j ≠ m.bufferStartIndex) ∨ j = c → m'.SlotOK j := by
  set f := m.bufferStartIndex with hfdef
  have hcf : c ≠ f := fun h' => hc (h' ▸ hf)
  obtain ⟨hhp, hhn⟩ := hh.links_ge hf
  obtain ⟨htp, htn⟩ := hT.1.links_ge (List.mem_append_right _ (List.mem_cons_self ..))
  have hfT : f ∉ as ++ c :: bs := by
    have hnd := hT.1.nodup
    rw [List.nodup_append, List.nodup_cons] at hnd
    simp only [List.mem_append, List.mem_cons, not_or]
    exact ⟨fun h' => hnd.2.2 f h' f (List.mem_cons_self ..) rfl, Ne.symm hcf, hnd.2.1.1⟩
  dsimp only
  -- the moves keep the ring, so the cell blanked last is still `f`
  have hr1 : (((m.setNode c (m.getNode f)).removeNodeFromHashList (m.getNode f) c c
      ).removeNodeFromTimeList (m.getNode f) c c).ringView = m.ringView := by
    rw [ringView_removeNodeFromTimeList, ringView_removeNodeFromHashList, ringView_setNode]
  have hst : (((m.setNode c (m.getNode f)).removeNodeFromHashList (m.getNode f) c c
      ).removeNodeFromTimeList (m.getNode f) c c).bufferStartIndex = f := congrArg RingView.start hr1
  rw [hst]
  have he : ((((m.setNode c (m.getNode f)).removeNodeFromHashList (m.getNode f) c c
      ).removeNodeFromTimeList (m.getNode f) c c).setNode f blankU128LRUNodeForInit).entry =
      Function.update (Function.update m.entry c (m.entry f)) f ((0, 0), none) := by
    rw [entry_setNode, entry_removeNodeFromTimeList _ _ _ _ htp htn,
      entry_removeNodeFromHashList _ _ _ _ hhp hhn, entry_setNode]
    rfl
  refine ⟨?_, ?_, ?_, he, fun j hj => ?_⟩
  · rw [hashView_setNode, hashView_removeNodeFromTimeList _ _ _ _ htp htn,
      hashView_removeNodeFromHashList _ _ _ _ hhp hhn, hashView_setNode]
    exact (hh.move hf hc).write_outside (c := f) (by simp [hcf.symm]) _ _ _
  · rw [timeView_setNode, timeView_removeNodeFromTimeList _ _ _ _ htp htn,
      timeView_removeNodeFromHashList _ _ _ _ hhp hhn, timeView_setNode]
    exact (hT.move hcT).write_outside hfT _ _
  · rw [ringView_setNode, hr1]
  · -- the moved node keeps `f`'s words and slot; the others are untouched
    have hjf : j ≠ f := by
      rcases hj with ⟨-, hjf⟩ | rfl
      · exact hjf
      · exact hcf
    have hkey : ∀ j', (j = c → j' = f) → (j ≠ c → j' = j) →
        (((((m.setNode c (m.getNode f)).removeNodeFromHashList (m.getNode f) c c
          ).removeNodeFromTimeList (m.getNode f) c c).setNode f blankU128LRUNodeForInit).SlotOK j ↔
          m.SlotOK j') := by
      intro j' hc' hn'
      refine slotOK_congr ?_ ?_ (compressHash_congr (by simp))
      · rw [hashView_setNode, hashView_removeNodeFromTimeList _ _ _ _ htp htn,
          hashView_removeNodeFromHashList _ _ _ _ hhp hhn, hashView_setNode]
        dsimp only
        rw [Function.update_of_ne hjf]
        by_cases hjc : j = c
        · rw [hjc, Function.update_self, hc' hjc]
          rfl
        · rw [Function.update_of_ne hjc, hn' hjc]
      · rw [he, Function.update_of_ne hjf]
        by_cases hjc : j = c
        · rw [hjc, Function.update_self, hc' hjc]
        · rw [Function.update_of_ne hjc, hn' hjc]
    by_cases hjc : j = c
    · exact (hkey f (fun _ => rfl) (fun h' => absurd hjc h')).mpr (hsl f hf)
    · have hPj : P j := hj.elim And.left (fun h' => absurd h' hjc)
      exact (hkey j (fun h' => absurd h' hjc) (fun _ => rfl)).mpr (hsl j hPj)

/-- The other branch of `removeNode`: the node was the segment's first, and its
cell is blanked. -/
theorem blank_spec {P : Nat → Prop} (hh : m.hashView.OK P) {T : List Nat} (ht : m.timeView.OK T)
    {c : Nat} (hc : ¬ P c) (hcT : c ∉ T) (hsl : ∀ j, P j → m.SlotOK j) :
    let m' := m.setNode c blankU128LRUNodeForInit
    m'.hashView.OK P ∧ m'.timeView.OK T ∧ m'.ringView = m.ringView ∧
      m'.entry = Function.update m.entry c ((0, 0), none) ∧ ∀ j, P j → m'.SlotOK j := by
  dsimp only
  refine ⟨?_, ?_, ringView_setNode _ _ _, entry_setNode _ _ _, fun j hj => ?_⟩
  · rw [hashView_setNode]
    exact hh.write_outside hc _ _ _
  · rw [timeView_setNode]
    exact ht.write_outside hcT _ _
  · have hjc : j ≠ c := fun h' => hc (h' ▸ hj)
    have hs := hsl j hj
    refine (slotOK_congr ?_ ?_ ?_).mpr hs
    · rw [hashView_setNode]
      exact Function.update_of_ne hjc _ _
    · rw [entry_setNode, Function.update_of_ne hjc]
    · exact compressHash_congr rfl

/-- The ring after the last step of `removeNode`: one slot later, one slot shorter. -/
theorem ringView_advance (m : U128LRU V) (hs : m.ringView.start < m.ringView.slots) :
    U128LRU.ringView { m with
      bufferStartIndex := m.incIndex m.bufferStartIndex
      size := m.size - 1 } =
      { m.ringView with
        start := (m.ringView.start + 1) % m.ringView.slots
        size := m.ringView.size - 1 } := by
  have hinc := incIndex_eq m hs
  simp only [ringView, RingView.mk.injEq, true_and, and_true] at hinc ⊢
  exact hinc

/-- What the last step of `removeNode` leaves: the segment without its first slot. -/
theorem advance_spec {m' m'' : U128LRU V} {r : RingView} (hring : r.WF)
    (hsize : 0 < r.size) {P : Nat → Prop} (hP : ∀ j, P j ↔ j ∈ r.live ∧ j ≠ r.start)
    (hh : m'.hashView.OK P) (hsl : ∀ j, P j → m'.SlotOK j) {T : List Nat} (ht : m'.timeView.OK T)
    (hperm : T.Perm (r.live.erase r.start))
    (hr'' : m''.ringView = { r with start := (r.start + 1) % r.slots, size := r.size - 1 })
    (hh'' : m''.hashView = m'.hashView) (ht'' : m''.timeView = m'.timeView)
    (he'' : m''.entry = m'.entry) (hc'' : m''.compressHash = m'.compressHash) :
    Inv m'' (T.map m'.entry) := by
  have hslots : 0 < r.slots := by have := hring.capacity_lt; omega
  have hcons := RingView.live_eq_cons hring.start_lt hsize
  have hnd : r.live.Nodup := RingView.nodup_live (by
    have := hring.size_le; have := hring.capacity_lt; omega)
  have hlive : m''.ringView.live = r.live.erase r.start := by
    rw [hr'', hcons, List.erase_cons_head]
  have hPl : ∀ j, P j ↔ j ∈ m''.ringView.live := fun j =>
    (hP j).trans (by rw [hlive, hnd.mem_erase_iff]; exact and_comm)
  refine ⟨?_, ?_, fun j hj => ?_, T, ?_, ?_, by rw [he'']⟩
  · rw [hr'']
    refine ⟨hring.capacity_pos, hring.capacity_lt, ?_, Nat.mod_lt _ hslots, ?_⟩
    · have := hring.size_le
      dsimp only
      omega
    · show r.stop = ((r.start + 1) % r.slots + (r.size - 1)) % r.slots
      rw [Nat.mod_add_mod, hring.stop_eq]
      congr 1
      omega
  · rw [hh'']
    exact hh.of_iff hPl
  · exact (slotOK_congr (by rw [hh'']) (by rw [he'']) hc'').mpr (hsl j ((hPl j).mpr hj))
  · rw [ht'']
    exact ht
  · rw [hlive]
    exact hperm

/-- **`removeNode` drops the node's entry.** -/
theorem Inv.removeNode (h : Inv m entries) (hkeys : (entries.map Prod.fst).Nodup) {i : Nat}
    (hi : i ∈ m.ringView.live) :
    Inv (m.removeNode i) (Lru.erase (m.entry i).1 entries) := by
  obtain ⟨hring, hhash, hslot, T, hT, hperm, hentries⟩ := h
  obtain ⟨us, vs, rfl⟩ := List.append_of_mem (hperm.mem_iff.mpr hi)
  have hnd := hT.1.nodup
  have hiuv : i ∉ us ++ vs := fun h' => by
    rw [mem_append_cons_iff hnd] at h'
    exact h'.2 rfl
  have herase := erase_cut hentries hkeys
  have hsize : 0 < m.ringView.size := by
    have := List.length_pos_of_mem hi
    rwa [RingView.length_live] at this
  have hlnd : m.ringView.live.Nodup := RingView.nodup_live (by
    have := hring.size_le; have := hring.capacity_lt; omega)
  have hstart_live : m.ringView.start ∈ m.ringView.live := by
    rw [RingView.live_eq_cons hring.start_lt hsize]
    exact List.mem_cons_self ..
  have hperm1 : (us ++ vs).Perm (m.ringView.live.erase i) := by
    have := hperm.erase i
    rwa [List.erase_append_right _ (fun h' => hiuv (List.mem_append_left _ h')),
      List.erase_cons_head] at this
  obtain ⟨hv2, tv2, r2, e2, s2⟩ := unlink_spec hhash hT hi
  have hsl2 : ∀ j, (j ∈ m.ringView.live ∧ j ≠ i) → _ := fun j hj => (s2 j).mpr (hslot j hj.1)
  unfold U128LRU.removeNode
  dsimp only at hv2 tv2 r2 e2 s2 hsl2 ⊢
  generalize ((m.removeNodeFromHashList (m.getNode i) (m.getNode i).hashListNext
    (m.getNode i).hashListPrev).removeNodeFromTimeList (m.getNode i) (m.getNode i).timeListNext
    (m.getNode i).timeListPrev) = m2 at hv2 tv2 r2 e2 s2 hsl2 ⊢
  have hst : m2.bufferStartIndex = m.ringView.start := congrArg RingView.start r2
  rw [herase]
  split_ifs with hif
  · -- another node: the segment's first node moves into the freed cell
    have hfP : m2.bufferStartIndex ∈ m.ringView.live ∧ m2.bufferStartIndex ≠ i :=
      ⟨hst ▸ hstart_live, Ne.symm hif⟩
    have hfT : m2.bufferStartIndex ∈ us ++ vs :=
      hperm1.mem_iff.mpr ((hlnd.mem_erase_iff).mpr ⟨hfP.2, hfP.1⟩)
    obtain ⟨as, bs, hab⟩ := List.append_of_mem hfT
    rw [hab] at tv2
    have hcT : i ∉ as ++ m2.bufferStartIndex :: bs := hab ▸ hiuv
    obtain ⟨hv6, tv6, r6, e6, s6⟩ := move_spec hv2 tv2 hfP (fun h' => h'.2 rfl) hcT hsl2
    have hfab : m2.bufferStartIndex ∉ as ++ bs := by
      have hnd' := hperm1.nodup_iff.mpr (hlnd.erase i)
      rw [hab, List.nodup_append, List.nodup_cons] at hnd'
      simp only [List.mem_append, not_or]
      exact ⟨fun h' => hnd'.2.2 _ h' _ (List.mem_cons_self ..) rfl, hnd'.2.1.1⟩
    have hentries' : (as ++ i :: bs).map (Function.update (Function.update m2.entry i
        (m2.entry m2.bufferStartIndex)) m2.bufferStartIndex ((0, 0), none)) =
        (us ++ vs).map m.entry := by
      rw [hab, e2]
      simp only [List.map_append, List.map_cons]
      rw [Function.update_of_ne hif, Function.update_self]
      congr 1
      · refine List.map_congr_left fun j hj => ?_
        have hjuv : j ∈ us ++ vs := by rw [hab]; exact List.mem_append_left _ hj
        rw [Function.update_of_ne (by rintro rfl; exact hfab (List.mem_append_left _ hj)),
          Function.update_of_ne (by rintro rfl; exact hiuv hjuv)]
      · refine congrArg _ (List.map_congr_left fun j hj => ?_)
        have hjuv : j ∈ us ++ vs := by
          rw [hab]; exact List.mem_append_right _ (List.mem_cons_of_mem _ hj)
        rw [Function.update_of_ne (by rintro rfl; exact hfab (List.mem_append_right _ hj)),
          Function.update_of_ne (by rintro rfl; exact hiuv hjuv)]
    have hperm' : (as ++ i :: bs).Perm (m.ringView.live.erase m.ringView.start) := by
      have hT' : (us ++ i :: vs).Perm (m2.bufferStartIndex :: i :: (as ++ bs)) := by
        refine List.perm_middle.trans ((List.Perm.cons i ?_).trans (List.Perm.swap _ _ _))
        rw [hab]
        exact List.perm_middle
      have := (hperm.symm.trans hT').erase m2.bufferStartIndex
      rw [List.erase_cons_head] at this
      rw [← hst]
      exact List.perm_middle.trans this.symm
    have hP : ∀ j, ((j ∈ m.ringView.live ∧ j ≠ i) ∧ j ≠ m2.bufferStartIndex ∨ j = i) ↔
        j ∈ m.ringView.live ∧ j ≠ m.ringView.start := by
      intro j
      rw [hst]
      constructor
      · rintro (⟨⟨hj, -⟩, hjf⟩ | rfl)
        · exact ⟨hj, hjf⟩
        · exact ⟨hi, hst ▸ hif⟩
      · rintro ⟨hj, hjf⟩
        by_cases hji : j = i
        · exact Or.inr hji
        · exact Or.inl ⟨⟨hj, hji⟩, hjf⟩
    rw [← hentries', ← e6]
    refine advance_spec hring hsize hP hv6 s6 tv6 hperm' ?_ rfl rfl rfl rfl
    rw [ringView_advance _ (by rw [r6, r2]; exact hring.start_lt), r6, r2]
  · -- the node was the segment's first: its cell is blanked
    have hi0 : i = m.ringView.start := (not_not.mp hif).trans hst
    obtain ⟨hv6, tv6, r6, e6, s6⟩ := blank_spec hv2 tv2 (c := i) (fun h' => h'.2 rfl) hiuv hsl2
    have hentries' : (us ++ vs).map (Function.update m2.entry i ((0, 0), none)) =
        (us ++ vs).map m.entry := by
      rw [e2]
      exact List.map_congr_left fun j hj => Function.update_of_ne (by rintro rfl; exact hiuv hj) _ _
    rw [← hentries', ← e6]
    refine advance_spec hring hsize (fun j => by rw [hi0]) hv6 s6 tv6 (hi0 ▸ hperm1)
      ?_ rfl rfl rfl rfl
    rw [ringView_advance _ (by rw [r6, r2]; exact hring.start_lt), r6, r2]

theorem capacity_removeNode (m : U128LRU V) (i : Nat) :
    (m.removeNode i).capacity = m.capacity := by
  have hcap : ∀ m' : U128LRU V, m'.ringView = m.ringView → m'.capacity = m.capacity :=
    fun _ h => congrArg RingView.capacity h
  unfold U128LRU.removeNode
  dsimp only
  split_ifs <;> refine hcap _ ?_ <;>
    simp only [ringView_setNode, ringView_removeNodeFromTimeList, ringView_removeNodeFromHashList]

@[simp] theorem hashSlots_removeNode (m : U128LRU V) (i : Nat) :
    (m.removeNode i).hashSlots = m.hashSlots := by
  unfold U128LRU.removeNode
  dsimp only
  split_ifs <;> simp

/-! ### `newNode` -/

theorem hashView_setKeyValue (m : U128LRU V) (i : Nat) (key0 key1 : UInt64) (v : Option V)
    (hash : Nat) :
    (m.setNode i { m.getNode i with key0 := key0, key1 := key1, value := v, hash := hash }).hashView =
      { m.hashView with key := Function.update m.hashView.key i hash } := by
  rw [hashView_setNode]
  simp [hashView]

theorem timeView_setKeyValue (m : U128LRU V) (i : Nat) (key0 key1 : UInt64) (v : Option V)
    (hash : Nat) :
    (m.setNode i { m.getNode i with key0 := key0, key1 := key1, value := v, hash := hash }).timeView =
      m.timeView := by
  rw [timeView_setNode]
  simp [timeView]

/-- The ring after the last step of `newNode`: one slot longer at the end. -/
theorem ringView_extend (m : U128LRU V) {i : Nat} (hi : i < m.ringView.slots) :
    U128LRU.ringView { m with bufferEndIndex := m.incIndex i } =
      { m.ringView with stop := (i + 1) % m.ringView.slots } := by
  have hinc := incIndex_eq m hi
  simp only [ringView, RingView.mk.injEq, true_and, and_true] at hinc ⊢
  exact hinc

/-- The steps of `newNode` after the eviction: the new node takes the end of the
segment, the front of the chain of `hash`, the slot of its words, and the front of
the time list. -/
theorem Inv.push (h : Inv m entries) (hlt : m.size < m.capacity) (key0 key1 : UInt64)
    (value : Option V) {hash : Nat} (hhash : hash = m.compressHash key0 key1) :
    let m1 := { m with size := m.size + 1 }
    let m2 := (m1.pushNodeToHashList m.bufferEndIndex hash).pushNodeToTimeList m.bufferEndIndex
    let m3 := m2.setNode m.bufferEndIndex
      { m2.getNode m.bufferEndIndex with key0 := key0, key1 := key1, value := value, hash := hash }
    Inv { m3 with bufferEndIndex := m3.incIndex m.bufferEndIndex }
      (((key0, key1), value) :: entries) := by
  obtain ⟨hring, hhashOK, hslot, T, hT, hperm, hentries⟩ := h
  have heL : m.bufferEndIndex ∉ m.ringView.live :=
    RingView.stop_not_mem_live hring (by have := hring.capacity_lt; exact Nat.lt_trans hlt this)
  have heT : m.bufferEndIndex ∉ T := fun h' => heL (hperm.mem_iff.mp h')
  dsimp only
  set e := m.bufferEndIndex with he
  set m1 : U128LRU V := { m with size := m.size + 1 } with hm1
  have hhead : -1 ≤ m1.hashSlotHead hash := hhashOK.head_ge _
  set m2 := m1.pushNodeToHashList e hash with hm2
  have hth : -1 ≤ m2.timeListHead := by
    rw [← timeView_head, hm2, timeView_pushNodeToHashList _ _ _ hhead]
    exact hT.1.head_ge
  set m3 := m2.pushNodeToTimeList e with hm3
  set m4 := m3.setNode e
    { m3.getNode e with key0 := key0, key1 := key1, value := value, hash := hash } with hm4
  have hr4 : m4.ringView = { m.ringView with size := m.size + 1 } := by
    rw [hm4, ringView_setNode, hm3, ringView_pushNodeToTimeList, hm2, ringView_pushNodeToHashList]
    rfl
  have hestop : e = (m.ringView.start + m.ringView.size) % m.ringView.slots := hring.stop_eq
  have hrf : U128LRU.ringView { m4 with bufferEndIndex := m4.incIndex e } =
      { m.ringView with stop := (e + 1) % m.ringView.slots, size := m.ringView.size + 1 } := by
    have hslots : 0 < m.ringView.slots := Nat.lt_of_le_of_lt (Nat.zero_le _) hring.capacity_lt
    rw [ringView_extend _ (by rw [hr4, hestop]; exact Nat.mod_lt _ hslots), hr4]
    rfl
  have hlive : RingView.live (U128LRU.ringView { m4 with bufferEndIndex := m4.incIndex e }) =
      m.ringView.live ++ [e] := by
    rw [hrf, RingView.live_push, hestop]
  have hv4 : m4.hashView = { m.hashView with
      next := Function.update m.hashView.next e (m.hashView.head hash)
      prev := relink (Function.update m.hashView.prev e (-1)) (m.hashView.head hash) e
      head := Function.update m.hashView.head hash e
      key := Function.update m.hashView.key e hash } := by
    rw [hm4, hashView_setKeyValue, hm3, hashView_pushNodeToTimeList _ _ hth, hm2,
      hashView_pushNodeToHashList _ _ _ hhead]
    rfl
  have he4 : m4.entry = Function.update m.entry e ((key0, key1), value) := by
    rw [hm4, entry_setNode, hm3, entry_pushNodeToTimeList _ _ hth, hm2,
      entry_pushNodeToHashList _ _ _ hhead]
    rfl
  have hc4 : m4.compressHash = m.compressHash := compressHash_congr (by simp [m4, m3, m2, m1])
  refine ⟨?_, ?_, fun j hj => ?_, e :: T, ?_, ?_, ?_⟩
  · rw [hrf]
    refine ⟨hring.capacity_pos, hring.capacity_lt, hlt, hring.start_lt, ?_⟩
    show (e + 1) % m.ringView.slots = (m.ringView.start + (m.ringView.size + 1)) % m.ringView.slots
    rw [hestop, Nat.mod_add_mod, Nat.add_assoc]
  · rw [hlive]
    show m4.hashView.OK _
    rw [hv4]
    exact (hhashOK.push heL hash).of_iff fun j => by simp
  · -- the new node keeps the slot of its words, the others keep theirs
    rw [hlive, List.mem_append, List.mem_singleton] at hj
    show m4.SlotOK j
    by_cases hje : j = e
    · subst hje
      unfold SlotOK
      rw [hv4, he4, hc4]
      simpa using hhash
    · have hjl : j ∈ m.ringView.live := hj.resolve_right hje
      refine (slotOK_congr ?_ ?_ hc4).mpr (hslot j hjl)
      · rw [hv4]
        exact Function.update_of_ne hje _ _
      · rw [he4, Function.update_of_ne hje]
  · show m4.timeView.OK _
    rw [hm4, timeView_setKeyValue, hm3, timeView_pushNodeToTimeList _ _ hth, hm2,
      timeView_pushNodeToHashList _ _ _ hhead]
    exact hT.push heT
  · rw [hlive]
    exact (hperm.cons e).trans (List.perm_append_singleton _ _).symm
  · show (e :: T).map m4.entry = _
    rw [he4, List.map_cons, Function.update_self, ← hentries]
    refine congrArg _ (List.map_congr_left fun j hj => ?_)
    exact Function.update_of_ne (by rintro rfl; exact heT hj) _ _

/-- The eviction of `newNode`: the time list's tail is the least recently used
node, and removing it drops the last entry. -/
theorem Inv.evict (h : Inv m entries) (hkeys : (entries.map Prod.fst).Nodup)
    (hfull : m.capacity ≤ m.size) :
    Inv (m.removeNode m.timeListTail.toNat) entries.dropLast := by
  obtain ⟨T, hT, hperm, hentries⟩ := h.time
  have hne : T ≠ [] := by
    have hpos : 0 < m.size := Nat.lt_of_lt_of_le h.ring.capacity_pos hfull
    intro hT0
    have := hperm.length_eq
    rw [hT0, RingView.length_live] at this
    exact absurd this.symm (Nat.ne_of_gt hpos)
  obtain ⟨T', i, rfl⟩ : ∃ T' i, T = T' ++ [i] :=
    ⟨T.dropLast, T.getLast hne, (List.dropLast_concat_getLast hne).symm⟩
  have htail : m.timeListTail.toNat = i := by
    have := hT.2
    rw [timeView_tail, lastOr_append] at this
    rw [this]
    rfl
  have hi : i ∈ m.ringView.live :=
    hperm.mem_iff.mp (List.mem_append_right _ (List.mem_singleton_self _))
  have hdrop : Lru.erase (m.entry i).1 entries = entries.dropLast := by
    rw [← hentries] at hkeys ⊢
    rw [List.map_append, List.map_singleton, List.dropLast_concat]
    rw [List.map_append, List.map_singleton] at hkeys
    exact (Lru.erase_eq_of_cut (e := m.entry i) hkeys).trans (List.append_nil _)
  rw [htail, ← hdrop]
  exact h.removeNode hkeys hi

/-- **`newNode` puts the new entry first, after evicting the last when full**, on the
slot `Add` computes before the eviction. -/
theorem Inv.newNode (h : Inv m entries) (hkeys : (entries.map Prod.fst).Nodup)
    (key0 key1 : UInt64) (value : Option V) :
    Inv (m.newNode key0 key1 value (m.compressHash key0 key1))
      (((key0, key1), value) :: if entries.length ≥ m.capacity then entries.dropLast else entries) := by
  have hlen := h.length_eq
  unfold U128LRU.newNode
  dsimp only
  by_cases hfull : m.size ≥ m.capacity
  · rw [if_pos hfull, if_pos (hlen ▸ hfull)]
    have h1 := h.evict hkeys hfull
    refine h1.push ?_ key0 key1 value (congrFun₂ (compressHash_congr (hashSlots_removeNode _ _)) key0 key1).symm
    rw [capacity_removeNode, ← h1.length_eq, List.length_dropLast, hlen]
    have hpos : 0 < m.capacity := h.ring.capacity_pos
    have hle : m.size ≤ m.capacity := h.ring.size_le
    omega
  · rw [if_neg hfull, if_neg (hlen ▸ hfull)]
    exact h.push (Nat.lt_of_not_le hfull) key0 key1 value rfl

end U128LRU

end Sophon.Server
