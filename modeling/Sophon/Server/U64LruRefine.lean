/-
`U64LRU` refines the abstract LRU map.

`Inv m entries` says that the map `m` stands for the abstract map `entries`: the
ring segment holds `size ≤ capacity` live slots, the collision chains hold exactly
the live slots, each on the chain of its key's slot, and the time list runs
through the live slots in the order of `entries`, most recent first.  Each
operation keeps it, with the abstract operation applied to `entries`, so every
map a run of calls reaches refines `Lru.run`.

The proofs of the operations follow their Go text: each helper call is replaced
by what `U64LruSpec` says it does to the views, and the list edit it makes is one
of `HashView.OK` and `TimeView.OK`.
-/
import Mathlib
import Sophon.Server.U64LruSpec

namespace Sophon.Server

open LinkList

variable {V : Type}

namespace RingView

/-- The number of slots of the ring. -/
def slots (r : RingView) : Nat := r.len * 256

/-- The live slots, from the start of the segment. -/
def live (r : RingView) : List Nat := (List.range r.size).map fun j => (r.start + j) % r.slots

/-- The segment fits the ring, and its end is `size` slots past its start. -/
structure WF (r : RingView) : Prop where
  capacity_pos : 0 < r.capacity
  capacity_lt : r.capacity < r.slots
  size_le : r.size ≤ r.capacity
  start_lt : r.start < r.slots
  stop_eq : r.stop = (r.start + r.size) % r.slots

variable {r : RingView}

@[simp] theorem length_live (r : RingView) : r.live.length = r.size := by simp [live]

theorem nodup_live (h : r.size ≤ r.slots) : r.live.Nodup := by
  refine List.Nodup.map_on (fun a ha b hb hab => ?_) List.nodup_range
  rw [List.mem_range] at ha hb
  have hmod : a % r.slots = b % r.slots := Nat.ModEq.add_left_cancel' r.start hab
  rwa [Nat.mod_eq_of_lt (by omega), Nat.mod_eq_of_lt (by omega)] at hmod

/-- The segment starts at `start`; past it is the segment one slot later. -/
theorem live_eq_cons (hs : r.start < r.slots) (h : 0 < r.size) :
    r.live = r.start :: { r with start := (r.start + 1) % r.slots, size := r.size - 1 }.live := by
  obtain ⟨n, hn⟩ : ∃ n, r.size = n + 1 := ⟨r.size - 1, by omega⟩
  simp only [live, slots, hn, List.range_succ_eq_map, List.map_cons, List.map_map,
    Nat.add_sub_cancel]
  refine congrArg₂ _ (Nat.mod_eq_of_lt (by simpa [slots] using hs)) (List.map_congr_left ?_)
  intro j _
  simp only [Function.comp_apply, Nat.mod_add_mod]
  rw [Nat.add_right_comm, Nat.add_assoc]

/-- One more live slot, at the end of the segment. -/
theorem live_push (stop : Nat) :
    { r with stop := stop, size := r.size + 1 }.live = r.live ++ [(r.start + r.size) % r.slots] := by
  simp [live, slots, List.range_succ]

/-- The end of a segment that is not the whole ring is not live. -/
theorem stop_not_mem_live (h : r.WF) (hlt : r.size < r.slots) : r.stop ∉ r.live := by
  rw [h.stop_eq]
  simp only [live, List.mem_map, List.mem_range, not_exists, not_and]
  intro j hj hmod
  have hj' : j ≡ r.size [MOD r.slots] := Nat.ModEq.add_left_cancel' r.start hmod
  rw [Nat.ModEq, Nat.mod_eq_of_lt (by omega), Nat.mod_eq_of_lt hlt] at hj'
  omega

end RingView

namespace U64LRU

variable {m : U64LRU V} {entries : List (UInt64 × Option V)}

/-- `incIndex` is the next slot of the ring. -/
theorem incIndex_eq (m : U64LRU V) {i : Nat} (hi : i < m.ringView.slots) :
    m.incIndex i = (i + 1) % m.ringView.slots := by
  simp only [RingView.slots, ringView] at hi ⊢
  unfold incIndex
  dsimp only
  rw [Nat.shiftRight_eq_div_pow]
  by_cases h : i + 1 = m.ringBufferLen * 256
  · rw [if_pos (by omega), h, Nat.mod_self]
  · rw [if_neg (by omega), Nat.mod_eq_of_lt (by omega)]

/-- **The invariant**: `m` stands for the abstract map `entries`. -/
structure Inv (m : U64LRU V) (entries : List (UInt64 × Option V)) : Prop where
  ring : m.ringView.WF
  hash : m.hashView.OK (· ∈ m.ringView.live)
  time : ∃ T, m.timeView.OK T ∧ T.Perm m.ringView.live ∧ T.map m.entry = entries

/-- The abstract map has one entry for each live node. -/
theorem Inv.length_eq (h : Inv m entries) : entries.length = m.size := by
  obtain ⟨-, -, T, -, hperm, rfl⟩ := h
  rw [List.length_map, hperm.length_eq, RingView.length_live]
  rfl

/-! ### Writing a value -/

theorem hashView_setValue (m : U64LRU V) (i : Nat) (v : Option V) :
    (m.setNode i { m.getNode i with value := v }).hashView = m.hashView := by
  rw [hashView_setNode]
  simp [hashView]

theorem timeView_setValue (m : U64LRU V) (i : Nat) (v : Option V) :
    (m.setNode i { m.getNode i with value := v }).timeView = m.timeView := by
  rw [timeView_setNode]
  simp [timeView]

theorem hashView_setKeyValue (m : U64LRU V) (i : Nat) (k : UInt64) (v : Option V) :
    (m.setNode i { m.getNode i with key := k, value := v }).hashView =
      { m.hashView with key := Function.update m.hashView.key i k } := by
  rw [hashView_setNode]
  simp [hashView]

theorem timeView_setKeyValue (m : U64LRU V) (i : Nat) (k : UInt64) (v : Option V) :
    (m.setNode i { m.getNode i with key := k, value := v }).timeView = m.timeView := by
  rw [timeView_setNode]
  simp [timeView]

/-! ### `updateNode` -/

/-- The first step of `updateNode`: the node goes to the front of the time list. -/
theorem touch_spec {us vs : List Nat} {i : Nat} (hT : m.timeView.OK (us ++ i :: vs)) :
    let m' := if (i : Int) ≠ m.timeListHead then
        (m.removeNodeFromTimeList (m.getNode i) (m.getNode i).timeListNext
          (m.getNode i).timeListPrev).pushNodeToTimeList i
      else m
    m'.timeView.OK (i :: (us ++ vs)) ∧ m'.hashView = m.hashView ∧ m'.ringView = m.ringView ∧
      m'.entry = m.entry := by
  have hnd := hT.1.nodup
  have hiuv : i ∉ us ++ vs := fun h' => by
    rw [mem_append_cons_iff hnd] at h'
    exact h'.2 rfl
  obtain ⟨hp, hn⟩ := hT.1.links_ge (List.mem_append_right _ (List.mem_cons_self ..))
  dsimp only
  split_ifs with hhead
  · -- unlink, then push at the front
    have h1 : (m.removeNodeFromTimeList (m.getNode i) (m.getNode i).timeListNext
        (m.getNode i).timeListPrev).timeView.OK (us ++ vs) := by
      rw [timeView_removeNodeFromTimeList m _ _ _ hp hn]
      exact hT.unlink
    have hh1 : -1 ≤ (m.removeNodeFromTimeList (m.getNode i) (m.getNode i).timeListNext
        (m.getNode i).timeListPrev).timeListHead := h1.1.head_ge
    refine ⟨?_, ?_, ?_, ?_⟩
    · rw [timeView_pushNodeToTimeList _ i hh1]
      exact h1.push hiuv
    · rw [hashView_pushNodeToTimeList _ i hh1, hashView_removeNodeFromTimeList m _ _ _ hp hn]
    · rw [ringView_pushNodeToTimeList, ringView_removeNodeFromTimeList]
    · rw [entry_pushNodeToTimeList _ i hh1, entry_removeNodeFromTimeList m _ _ _ hp hn]
  · -- already at the front: nothing stands before it
    have hus : us = [] := by
      cases us with
      | nil => rfl
      | cons a us =>
          have ha : (i : Int) = a := (not_not.mp hhead).trans hT.1.head_eq
          rw [Int.natCast_inj] at ha
          subst ha
          exact absurd (List.mem_cons_self ..) (fun h' => hiuv (List.mem_append_left _ h'))
    subst hus
    exact ⟨hT, rfl, rfl, rfl⟩

/-- **`updateNode` moves the entry to the front with its new value.** -/
theorem Inv.updateNode (h : Inv m entries) (hkeys : (entries.map Prod.fst).Nodup) {i : Nat}
    (hi : i ∈ m.ringView.live) (v : Option V) :
    Inv (m.updateNode i v) (((m.getNode i).key, v) :: Lru.erase (m.getNode i).key entries) := by
  obtain ⟨hring, hhash, T, hT, hperm, hentries⟩ := h
  obtain ⟨us, vs, rfl⟩ := List.append_of_mem (hperm.mem_iff.mpr hi)
  have hnd := hT.1.nodup
  have hiuv : i ∉ us ++ vs := fun h' => by
    rw [mem_append_cons_iff hnd] at h'
    exact h'.2 rfl
  have herase : Lru.erase (m.getNode i).key entries = (us ++ vs).map m.entry := by
    rw [← hentries] at hkeys ⊢
    rw [List.map_append, List.map_cons] at hkeys ⊢
    rw [List.map_append]
    exact Lru.erase_eq_of_cut (e := m.entry i) hkeys
  obtain ⟨ht', hh', hr', he'⟩ := touch_spec hT
  unfold U64LRU.updateNode
  dsimp only at ht' hh' hr' he' ⊢
  set m' := (if (i : Int) ≠ m.timeListHead then
        (m.removeNodeFromTimeList (m.getNode i) (m.getNode i).timeListNext
          (m.getNode i).timeListPrev).pushNodeToTimeList i
      else m) with hm'
  have hgi : (m'.getNode i).key = (m.getNode i).key := congrArg Prod.fst (congrFun he' i)
  refine ⟨?_, ?_, i :: (us ++ vs), ?_, ?_, ?_⟩
  · rw [ringView_setNode, hr']
    exact hring
  · rw [hashView_setValue, ringView_setNode, hh', hr']
    exact hhash
  · rw [timeView_setValue]
    exact ht'
  · rw [ringView_setNode, hr']
    exact (List.perm_middle.symm).trans hperm
  · rw [entry_setNode, List.map_cons, herase, Function.update_self, hgi]
    refine congrArg _ (List.map_congr_left fun j hj => ?_)
    have hji : j ≠ i := fun h' => hiuv (h' ▸ hj)
    rw [Function.update_of_ne hji, he']

/-! ### `removeNode` -/

/-- The first two steps of `removeNode`: the node leaves its chain and the time list. -/
theorem unlink_spec {P : Nat → Prop} (hh : m.hashView.OK P) {us vs : List Nat} {i : Nat}
    (hT : m.timeView.OK (us ++ i :: vs)) (hi : P i) :
    let m' := (m.removeNodeFromHashList (m.getNode i) (m.getNode i).hashListNext
      (m.getNode i).hashListPrev).removeNodeFromTimeList (m.getNode i) (m.getNode i).timeListNext
      (m.getNode i).timeListPrev
    m'.hashView.OK (fun j => P j ∧ j ≠ i) ∧ m'.timeView.OK (us ++ vs) ∧
      m'.ringView = m.ringView ∧ m'.entry = m.entry := by
  obtain ⟨hhp, hhn⟩ := hh.links_ge hi
  obtain ⟨htp, htn⟩ := hT.1.links_ge (List.mem_append_right _ (List.mem_cons_self ..))
  dsimp only
  refine ⟨?_, ?_, ?_, ?_⟩
  · rw [hashView_removeNodeFromTimeList _ _ _ _ htp htn, hashView_removeNodeFromHashList _ _ _ _ hhp hhn]
    exact hh.unlink hi
  · rw [timeView_removeNodeFromTimeList _ _ _ _ htp htn, timeView_removeNodeFromHashList _ _ _ _ hhp hhn]
    exact hT.unlink
  · rw [ringView_removeNodeFromTimeList, ringView_removeNodeFromHashList]
  · rw [entry_removeNodeFromTimeList _ _ _ _ htp htn, entry_removeNodeFromHashList _ _ _ _ hhp hhn]

/-- The compaction step of `removeNode`: the segment's first node moves to the free
cell `c`, its neighbours now point at `c`, and the first cell is blanked. -/
theorem move_spec {P : Nat → Prop} (hh : m.hashView.OK P) {as bs : List Nat} {c : Nat}
    (hT : m.timeView.OK (as ++ m.bufferStartIndex :: bs)) (hf : P m.bufferStartIndex) (hc : ¬ P c)
    (hcT : c ∉ as ++ m.bufferStartIndex :: bs) :
    let firstNode := m.getNode m.bufferStartIndex
    let m1 := ((m.setNode c firstNode).removeNodeFromHashList firstNode c c).removeNodeFromTimeList
      firstNode c c
    let m' := m1.setNode m1.bufferStartIndex blankU64LRUNodeForInit
    m'.hashView.OK (fun j => (P j ∧ j ≠ m.bufferStartIndex) ∨ j = c) ∧
      m'.timeView.OK (as ++ c :: bs) ∧ m'.ringView = m.ringView ∧
      m'.entry = Function.update (Function.update m.entry c (m.entry m.bufferStartIndex))
        m.bufferStartIndex (0, none) := by
  set f := m.bufferStartIndex with hfdef
  have hcf : c ≠ f := fun h' => hc (h' ▸ hf)
  obtain ⟨hhp, hhn⟩ := hh.links_ge hf
  obtain ⟨htp, htn⟩ := hT.1.links_ge (List.mem_append_right _ (List.mem_cons_self ..))
  have hmoved := hh.move hf hc
  have htmoved := hT.move hcT
  have hfT : f ∉ as ++ c :: bs := by
    have hnd := hT.1.nodup
    rw [List.nodup_append, List.nodup_cons] at hnd
    simp only [List.mem_append, List.mem_cons, not_or]
    exact ⟨fun h' => hnd.2.2 f h' f (List.mem_cons_self ..) rfl, Ne.symm hcf, hnd.2.1.1⟩
  dsimp only
  -- the moves keep the ring, so the cell blanked last is still `f`
  have hr1 : (((m.setNode c (m.getNode f)).removeNodeFromHashList (m.getNode f) c c
      ).removeNodeFromTimeList (m.getNode f) c c).ringView = m.ringView := by
    rw [ringView_removeNodeFromTimeList, ringView_removeNodeFromHashList, ringView_setNode]
  have hst : (((m.setNode c (m.getNode f)).removeNodeFromHashList (m.getNode f) c c
      ).removeNodeFromTimeList (m.getNode f) c c).bufferStartIndex = f := congrArg RingView.start hr1
  rw [hst]
  refine ⟨?_, ?_, ?_, ?_⟩
  · rw [hashView_setNode, hashView_removeNodeFromTimeList _ _ _ _ htp htn,
      hashView_removeNodeFromHashList _ _ _ _ hhp hhn, hashView_setNode]
    exact hmoved.write_outside (c := f) (by simp [hcf.symm]) _ _ _
  · rw [timeView_setNode, timeView_removeNodeFromTimeList _ _ _ _ htp htn,
      timeView_removeNodeFromHashList _ _ _ _ hhp hhn, timeView_setNode]
    exact htmoved.write_outside hfT _ _
  · rw [ringView_setNode, hr1]
  · rw [entry_setNode, entry_removeNodeFromTimeList _ _ _ _ htp htn,
      entry_removeNodeFromHashList _ _ _ _ hhp hhn, entry_setNode]
    rfl

/-- The other branch of `removeNode`: the node was the segment's first, and its
cell is blanked. -/
theorem blank_spec {P : Nat → Prop} (hh : m.hashView.OK P) {T : List Nat} (ht : m.timeView.OK T)
    {c : Nat} (hc : ¬ P c) (hcT : c ∉ T) :
    let m' := m.setNode c blankU64LRUNodeForInit
    m'.hashView.OK P ∧ m'.timeView.OK T ∧ m'.ringView = m.ringView ∧
      m'.entry = Function.update m.entry c (0, none) := by
  dsimp only
  refine ⟨?_, ?_, ringView_setNode _ _ _, entry_setNode _ _ _⟩
  · rw [hashView_setNode]
    exact hh.write_outside hc _ _ _
  · rw [timeView_setNode]
    exact ht.write_outside hcT _ _

/-- The ring after the last step of `removeNode`: one slot later, one slot shorter. -/
theorem ringView_advance (m : U64LRU V) (hs : m.ringView.start < m.ringView.slots) :
    U64LRU.ringView { m with
      bufferStartIndex := m.incIndex m.bufferStartIndex
      size := m.size - 1 } =
      { m.ringView with
        start := (m.ringView.start + 1) % m.ringView.slots
        size := m.ringView.size - 1 } := by
  have hinc := incIndex_eq m hs
  simp only [ringView, RingView.mk.injEq, true_and, and_true] at hinc ⊢
  exact hinc

/-- What the last step of `removeNode` leaves: the segment without its first slot. -/
theorem advance_spec {m' m'' : U64LRU V} {r : RingView} (hring : r.WF)
    (hsize : 0 < r.size) {P : Nat → Prop} (hP : ∀ j, P j ↔ j ∈ r.live ∧ j ≠ r.start)
    (hh : m'.hashView.OK P) {T : List Nat} (ht : m'.timeView.OK T)
    (hperm : T.Perm (r.live.erase r.start))
    (hr'' : m''.ringView = { r with start := (r.start + 1) % r.slots, size := r.size - 1 })
    (hh'' : m''.hashView = m'.hashView) (ht'' : m''.timeView = m'.timeView)
    (he'' : m''.entry = m'.entry) :
    Inv m'' (T.map m'.entry) := by
  have hslots : 0 < r.slots := by have := hring.capacity_lt; omega
  have hcons := RingView.live_eq_cons hring.start_lt hsize
  have hnd : r.live.Nodup := RingView.nodup_live (by
    have := hring.size_le; have := hring.capacity_lt; omega)
  have hlive : m''.ringView.live = r.live.erase r.start := by
    rw [hr'', hcons, List.erase_cons_head]
  refine ⟨?_, ?_, T, ?_, ?_, by rw [he'']⟩
  · rw [hr'']
    refine ⟨hring.capacity_pos, hring.capacity_lt, ?_, Nat.mod_lt _ hslots, ?_⟩
    · have := hring.size_le
      dsimp only
      omega
    · show r.stop = ((r.start + 1) % r.slots + (r.size - 1)) % r.slots
      rw [Nat.mod_add_mod, hring.stop_eq]
      congr 1
      omega
  · rw [hlive, hh'']
    exact hh.of_iff fun j => (hP j).trans (by rw [hnd.mem_erase_iff]; exact and_comm)
  · rw [ht'']
    exact ht
  · rw [hlive]
    exact hperm

/-- **`removeNode` drops the node's entry.** -/
theorem Inv.removeNode (h : Inv m entries) (hkeys : (entries.map Prod.fst).Nodup) {i : Nat}
    (hi : i ∈ m.ringView.live) :
    Inv (m.removeNode i) (Lru.erase (m.getNode i).key entries) := by
  obtain ⟨hring, hhash, T, hT, hperm, hentries⟩ := h
  obtain ⟨us, vs, rfl⟩ := List.append_of_mem (hperm.mem_iff.mpr hi)
  have hnd := hT.1.nodup
  have hiuv : i ∉ us ++ vs := fun h' => by
    rw [mem_append_cons_iff hnd] at h'
    exact h'.2 rfl
  have herase : Lru.erase (m.getNode i).key entries = (us ++ vs).map m.entry := by
    rw [← hentries] at hkeys ⊢
    rw [List.map_append, List.map_cons] at hkeys ⊢
    rw [List.map_append]
    exact Lru.erase_eq_of_cut (e := m.entry i) hkeys
  have hsize : 0 < m.ringView.size := by
    have := List.length_pos_of_mem hi
    rwa [RingView.length_live] at this
  have hlnd : m.ringView.live.Nodup := RingView.nodup_live (by
    have := hring.size_le; have := hring.capacity_lt; omega)
  have hstart_live : m.ringView.start ∈ m.ringView.live := by
    rw [RingView.live_eq_cons hring.start_lt hsize]
    exact List.mem_cons_self ..
  have hperm1 : (us ++ vs).Perm (m.ringView.live.erase i) := by
    have := hperm.erase i
    rwa [List.erase_append_right _ (fun h' => hiuv (List.mem_append_left _ h')),
      List.erase_cons_head] at this
  obtain ⟨hv2, tv2, r2, e2⟩ := unlink_spec hhash hT hi
  unfold U64LRU.removeNode
  dsimp only at hv2 tv2 r2 e2 ⊢
  generalize ((m.removeNodeFromHashList (m.getNode i) (m.getNode i).hashListNext
    (m.getNode i).hashListPrev).removeNodeFromTimeList (m.getNode i) (m.getNode i).timeListNext
    (m.getNode i).timeListPrev) = m2 at hv2 tv2 r2 e2 ⊢
  have hst : m2.bufferStartIndex = m.ringView.start := congrArg RingView.start r2
  rw [herase]
  split_ifs with hif
  · -- another node: the segment's first node moves into the freed cell
    have hfP : m2.bufferStartIndex ∈ m.ringView.live ∧ m2.bufferStartIndex ≠ i :=
      ⟨hst ▸ hstart_live, Ne.symm hif⟩
    have hfT : m2.bufferStartIndex ∈ us ++ vs :=
      hperm1.mem_iff.mpr ((hlnd.mem_erase_iff).mpr ⟨hfP.2, hfP.1⟩)
    obtain ⟨as, bs, hab⟩ := List.append_of_mem hfT
    rw [hab] at tv2
    have hcT : i ∉ as ++ m2.bufferStartIndex :: bs := hab ▸ hiuv
    obtain ⟨hv6, tv6, r6, e6⟩ := move_spec hv2 tv2 hfP (fun h' => h'.2 rfl) hcT
    have hfab : m2.bufferStartIndex ∉ as ++ bs := by
      have hnd' := hperm1.nodup_iff.mpr (hlnd.erase i)
      rw [hab, List.nodup_append, List.nodup_cons] at hnd'
      simp only [List.mem_append, not_or]
      exact ⟨fun h' => hnd'.2.2 _ h' _ (List.mem_cons_self ..) rfl, hnd'.2.1.1⟩
    have hentries' : (as ++ i :: bs).map (Function.update (Function.update m2.entry i
        (m2.entry m2.bufferStartIndex)) m2.bufferStartIndex (0, none)) = (us ++ vs).map m.entry := by
      rw [hab, e2]
      simp only [List.map_append, List.map_cons]
      rw [Function.update_of_ne hif, Function.update_self]
      congr 1
      · refine List.map_congr_left fun j hj => ?_
        have hjuv : j ∈ us ++ vs := by rw [hab]; exact List.mem_append_left _ hj
        rw [Function.update_of_ne (by rintro rfl; exact hfab (List.mem_append_left _ hj)),
          Function.update_of_ne (by rintro rfl; exact hiuv hjuv)]
      · refine congrArg _ (List.map_congr_left fun j hj => ?_)
        have hjuv : j ∈ us ++ vs := by
          rw [hab]; exact List.mem_append_right _ (List.mem_cons_of_mem _ hj)
        rw [Function.update_of_ne (by rintro rfl; exact hfab (List.mem_append_right _ hj)),
          Function.update_of_ne (by rintro rfl; exact hiuv hjuv)]
    have hperm' : (as ++ i :: bs).Perm (m.ringView.live.erase m.ringView.start) := by
      have hT' : (us ++ i :: vs).Perm (m2.bufferStartIndex :: i :: (as ++ bs)) := by
        refine List.perm_middle.trans ((List.Perm.cons i ?_).trans (List.Perm.swap _ _ _))
        rw [hab]
        exact List.perm_middle
      have := (hperm.symm.trans hT').erase m2.bufferStartIndex
      rw [List.erase_cons_head] at this
      rw [← hst]
      exact List.perm_middle.trans this.symm
    rw [← hentries', ← e6]
    refine advance_spec hring hsize (fun j => ?_) hv6 tv6 hperm' ?_ rfl rfl rfl
    · rw [hst]
      constructor
      · rintro (⟨⟨hj, -⟩, hjf⟩ | rfl)
        · exact ⟨hj, hjf⟩
        · exact ⟨hi, hst ▸ hif⟩
      · rintro ⟨hj, hjf⟩
        by_cases hji : j = i
        · exact Or.inr hji
        · exact Or.inl ⟨⟨hj, hji⟩, hjf⟩
    · rw [ringView_advance _ (by rw [r6, r2]; exact hring.start_lt), r6, r2]
  · -- the node was the segment's first: its cell is blanked
    have hi0 : i = m.ringView.start := (not_not.mp hif).trans hst
    obtain ⟨hv6, tv6, r6, e6⟩ := blank_spec hv2 tv2 (c := i) (fun h' => h'.2 rfl) hiuv
    have hentries' : (us ++ vs).map (Function.update m2.entry i (0, none)) =
        (us ++ vs).map m.entry := by
      rw [e2]
      exact List.map_congr_left fun j hj => Function.update_of_ne (by rintro rfl; exact hiuv hj) _ _
    rw [← hentries', ← e6]
    refine advance_spec hring hsize (fun j => by rw [hi0]) hv6 tv6 (hi0 ▸ hperm1)
      ?_ rfl rfl rfl
    rw [ringView_advance _ (by rw [r6, r2]; exact hring.start_lt), r6, r2]

theorem capacity_removeNode (m : U64LRU V) (i : Nat) : (m.removeNode i).capacity = m.capacity := by
  have hcap : ∀ m' : U64LRU V, m'.ringView = m.ringView → m'.capacity = m.capacity :=
    fun _ h => congrArg RingView.capacity h
  unfold U64LRU.removeNode
  dsimp only
  split_ifs <;> refine hcap _ ?_ <;>
    simp only [ringView_setNode, ringView_removeNodeFromTimeList, ringView_removeNodeFromHashList]

/-! ### `newNode` -/

/-- The ring after the last step of `newNode`: one slot longer at the end. -/
theorem ringView_extend (m : U64LRU V) {i : Nat} (hi : i < m.ringView.slots) :
    U64LRU.ringView { m with bufferEndIndex := m.incIndex i } =
      { m.ringView with stop := (i + 1) % m.ringView.slots } := by
  have hinc := incIndex_eq m hi
  simp only [ringView, RingView.mk.injEq, true_and, and_true] at hinc ⊢
  exact hinc

/-- The steps of `newNode` after the eviction: the new node takes the end of the
segment and the front of its chain and of the time list. -/
theorem Inv.push (h : Inv m entries) (hlt : m.size < m.capacity) (key : UInt64)
    (value : Option V) :
    let m1 := { m with size := m.size + 1 }
    let m2 := (m1.pushNodeToHashList m.bufferEndIndex (m1.compressHash key)).pushNodeToTimeList
      m.bufferEndIndex
    let m3 := m2.setNode m.bufferEndIndex
      { m2.getNode m.bufferEndIndex with key := key, value := value }
    Inv { m3 with bufferEndIndex := m3.incIndex m.bufferEndIndex } ((key, value) :: entries) := by
  obtain ⟨hring, hhash, T, hT, hperm, hentries⟩ := h
  have heL : m.bufferEndIndex ∉ m.ringView.live :=
    RingView.stop_not_mem_live hring (by have := hring.capacity_lt; exact Nat.lt_trans hlt this)
  have heT : m.bufferEndIndex ∉ T := fun h' => heL (hperm.mem_iff.mp h')
  dsimp only
  set e := m.bufferEndIndex with he
  set m1 : U64LRU V := { m with size := m.size + 1 } with hm1
  have hhead : -1 ≤ m1.hashSlotHead (m1.compressHash key) := hhash.head_ge _
  set m2 := m1.pushNodeToHashList e (m1.compressHash key) with hm2
  have hth : -1 ≤ m2.timeListHead := by
    rw [← timeView_head, hm2, timeView_pushNodeToHashList _ _ _ hhead]
    exact hT.1.head_ge
  set m3 := m2.pushNodeToTimeList e with hm3
  set m4 := m3.setNode e { m3.getNode e with key := key, value := value } with hm4
  have hr4 : m4.ringView = { m.ringView with size := m.size + 1 } := by
    rw [hm4, ringView_setNode, hm3, ringView_pushNodeToTimeList, hm2, ringView_pushNodeToHashList]
    rfl
  have hestop : e = (m.ringView.start + m.ringView.size) % m.ringView.slots := hring.stop_eq
  have hrf : U64LRU.ringView { m4 with bufferEndIndex := m4.incIndex e } =
      { m.ringView with stop := (e + 1) % m.ringView.slots, size := m.ringView.size + 1 } := by
    have hslots : 0 < m.ringView.slots := Nat.lt_of_le_of_lt (Nat.zero_le _) hring.capacity_lt
    rw [ringView_extend _ (by rw [hr4, hestop]; exact Nat.mod_lt _ hslots), hr4]
    rfl
  have hlive : RingView.live (U64LRU.ringView { m4 with bufferEndIndex := m4.incIndex e }) =
      m.ringView.live ++ [e] := by
    rw [hrf, RingView.live_push, hestop]
  refine ⟨?_, ?_, e :: T, ?_, ?_, ?_⟩
  · rw [hrf]
    refine ⟨hring.capacity_pos, hring.capacity_lt, hlt, hring.start_lt, ?_⟩
    show (e + 1) % m.ringView.slots = (m.ringView.start + (m.ringView.size + 1)) % m.ringView.slots
    rw [hestop, Nat.mod_add_mod, Nat.add_assoc]
  · rw [hlive]
    show m4.hashView.OK _
    rw [hm4, hashView_setKeyValue, hm3, hashView_pushNodeToTimeList _ _ hth, hm2,
      hashView_pushNodeToHashList _ _ _ hhead]
    exact (hhash.push heL key).of_iff fun j => by simp
  · show m4.timeView.OK _
    rw [hm4, timeView_setKeyValue, hm3, timeView_pushNodeToTimeList _ _ hth, hm2,
      timeView_pushNodeToHashList _ _ _ hhead]
    exact hT.push heT
  · rw [hlive]
    exact (hperm.cons e).trans (List.perm_append_singleton _ _).symm
  · show (e :: T).map m4.entry = _
    rw [hm4, entry_setNode, hm3, entry_pushNodeToTimeList _ _ hth, hm2,
      entry_pushNodeToHashList _ _ _ hhead, List.map_cons, Function.update_self, ← hentries]
    refine congrArg _ (List.map_congr_left fun j hj => ?_)
    exact Function.update_of_ne (by rintro rfl; exact heT hj) _ _

/-- The eviction of `newNode`: the time list's tail is the least recently used
node, and removing it drops the last entry. -/
theorem Inv.evict (h : Inv m entries) (hkeys : (entries.map Prod.fst).Nodup)
    (hfull : m.capacity ≤ m.size) :
    Inv (m.removeNode m.timeListTail.toNat) entries.dropLast := by
  obtain ⟨T, hT, hperm, hentries⟩ := h.time
  have hne : T ≠ [] := by
    have hpos : 0 < m.size := Nat.lt_of_lt_of_le h.ring.capacity_pos hfull
    intro hT0
    have := hperm.length_eq
    rw [hT0, RingView.length_live] at this
    exact absurd this.symm (Nat.ne_of_gt hpos)
  obtain ⟨T', i, rfl⟩ : ∃ T' i, T = T' ++ [i] :=
    ⟨T.dropLast, T.getLast hne, (List.dropLast_concat_getLast hne).symm⟩
  have htail : m.timeListTail.toNat = i := by
    have := hT.2
    rw [timeView_tail, lastOr_append] at this
    rw [this]
    rfl
  have hi : i ∈ m.ringView.live := hperm.mem_iff.mp (List.mem_append_right _ (List.mem_singleton_self _))
  have hdrop : Lru.erase (m.getNode i).key entries = entries.dropLast := by
    rw [← hentries] at hkeys ⊢
    rw [List.map_append, List.map_singleton, List.dropLast_concat]
    rw [List.map_append, List.map_singleton] at hkeys
    exact (Lru.erase_eq_of_cut (e := m.entry i) hkeys).trans (List.append_nil _)
  rw [htail, ← hdrop]
  exact h.removeNode hkeys hi

/-- **`newNode` puts the new entry first, after evicting the last when full.** -/
theorem Inv.newNode (h : Inv m entries) (hkeys : (entries.map Prod.fst).Nodup) (key : UInt64)
    (value : Option V) :
    Inv (m.newNode key value)
      ((key, value) :: if entries.length ≥ m.capacity then entries.dropLast else entries) := by
  have hlen := h.length_eq
  unfold U64LRU.newNode
  dsimp only
  by_cases hfull : m.size ≥ m.capacity
  · rw [if_pos hfull, if_pos (hlen ▸ hfull)]
    have h1 := h.evict hkeys hfull
    refine h1.push ?_ key value
    rw [capacity_removeNode, ← h1.length_eq, List.length_dropLast, hlen]
    have hpos : 0 < m.capacity := h.ring.capacity_pos
    have hle : m.size ≤ m.capacity := h.ring.size_le
    omega
  · rw [if_neg hfull, if_neg (hlen ▸ hfull)]
    exact h.push (Nat.lt_of_not_le hfull) key value

end U64LRU

end Sophon.Server
