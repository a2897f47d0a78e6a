/-
What the LRU map's helpers do to its lists.

The collision chains are read from a `HashView` (the hash links, the slot heads,
the keys and the slot function) and the time list from a `TimeView` (the time
links, head and tail).  Each helper of `U64LRU` changes one view as one edit of
`LinkList` says and leaves the other view alone; the lemmas here state that once
per helper, so that the invariant's proofs never unfold a helper again.

A link the helpers follow is `-1` or a cell, never another negative number: the
hypotheses `-1 ≤ x` say so, and the invariant supplies them.
-/
import Sophon.Server.U64Lru

namespace Sophon.Server

open LinkList

variable {V : Type}

/-- What the collision chains are read from; `K` is what a node's slot is computed from. -/
structure HashView (K : Type) where
  next : Nat → Int
  prev : Nat → Int
  head : Nat → Int
  key : Nat → K
  slot : K → Nat

/-- What the time list is read from. -/
structure TimeView where
  next : Nat → Int
  prev : Nat → Int
  head : Int
  tail : Int

/-- The bounds and counts of the ring. -/
structure RingView where
  len : Nat
  start : Nat
  stop : Nat
  capacity : Nat
  size : Nat

/-! ### The lists a view holds -/

/-- The collision chains hold exactly the cells `P` picks, each on the chain of
its key's slot. -/
def HashView.OK {K : Type} (hv : HashView K) (P : Nat → Prop) : Prop :=
  ∀ s, ∃ H, Linked hv.next hv.prev (hv.head s) H ∧ ∀ j, j ∈ H ↔ P j ∧ hv.slot (hv.key j) = s

/-- The time list is `T`, from its head to its tail. -/
def TimeView.OK (tv : TimeView) (T : List Nat) : Prop :=
  Linked tv.next tv.prev tv.head T ∧ tv.tail = lastOr T (-1)

namespace HashView

variable {K : Type} {hv : HashView K} {P : Nat → Prop}

/-- The chain of a cell, cut at the cell. -/
theorem OK.cut (h : hv.OK P) {i : Nat} (hi : P i) :
    ∃ xs ys, Linked hv.next hv.prev (hv.head (hv.slot (hv.key i))) (xs ++ i :: ys) ∧
      ∀ j, j ∈ xs ++ i :: ys ↔ P j ∧ hv.slot (hv.key j) = hv.slot (hv.key i) := by
  obtain ⟨H, hL, hmem⟩ := h (hv.slot (hv.key i))
  obtain ⟨xs, ys, rfl⟩ := List.append_of_mem ((hmem i).mpr ⟨hi, rfl⟩)
  exact ⟨xs, ys, hL, hmem⟩

/-- A cell on another chain is not a neighbour of `i`. -/
theorem OK.ne_links (h : hv.OK P) {i j : Nat} (hi : P i)
    (hs : hv.slot (hv.key j) ≠ hv.slot (hv.key i)) :
    (j : Int) ≠ hv.prev i ∧ (j : Int) ≠ hv.next i := by
  obtain ⟨xs, ys, hL, hmem⟩ := h.cut hi
  obtain ⟨hp, hn⟩ := hL.links
  have hj : j ∉ xs ++ i :: ys := fun hj => hs ((hmem j).mp hj).2
  exact ⟨natCast_ne_of_not_mem (fun h' => hj (List.mem_append_left _ h'))
      (hp ▸ lastOr_eq xs (-1)) rfl,
    natCast_ne_of_not_mem (fun h' => hj (List.mem_append_right _ (List.mem_cons_of_mem i h')))
      (hn ▸ firstOr_eq ys (-1)) rfl⟩

/-- Every head is `-1` or a cell of its chain. -/
theorem OK.head_eq (h : hv.OK P) (s : Nat) :
    hv.head s = -1 ∨ ∃ c : Nat, hv.head s = c ∧ P c ∧ hv.slot (hv.key c) = s := by
  obtain ⟨H, hL, hmem⟩ := h s
  rcases firstOr_eq H (-1) with hh | ⟨c, hc, hh⟩
  · exact Or.inl (hL.head_eq.trans hh)
  · exact Or.inr ⟨c, hL.head_eq.trans hh, (hmem c).mp hc⟩

theorem OK.links_ge (h : hv.OK P) {i : Nat} (hi : P i) : -1 ≤ hv.prev i ∧ -1 ≤ hv.next i := by
  obtain ⟨xs, ys, hL, -⟩ := h.cut hi
  exact hL.links_ge (List.mem_append_right _ (List.mem_cons_self ..))

theorem OK.next_ne (h : hv.OK P) {i : Nat} (hi : P i) : hv.next i ≠ (i : Int) := by
  obtain ⟨xs, ys, hL, -⟩ := h.cut hi
  exact hL.next_ne (List.mem_append_right _ (List.mem_cons_self ..))

theorem OK.head_ge (h : hv.OK P) (s : Nat) : -1 ≤ hv.head s := by
  obtain ⟨H, hL, -⟩ := h s
  exact hL.head_ge

theorem OK.of_iff {Q : Nat → Prop} (h : hv.OK P) (hPQ : ∀ j, P j ↔ Q j) : hv.OK Q := by
  intro s
  obtain ⟨H, hL, hmem⟩ := h s
  exact ⟨H, hL, fun j => (hmem j).trans (and_congr_left' (hPQ j))⟩

/-! ### The chains as lists

`OK` forgets which list each chain is, and a loop that walks one chain while it
edits the chains needs to know.  `Chains P C` names the list `C s` of every slot
`s`, and each edit above is an edit of these lists: unlinking erases the cell, a
move renames it, a push conses it. -/

/-- The chain of each slot `s` is `C s`, and the chains hold exactly the cells `P`
picks. -/
def Chains (hv : HashView K) (P : Nat → Prop) (C : Nat → List Nat) : Prop :=
  ∀ s, Linked hv.next hv.prev (hv.head s) (C s) ∧ ∀ j, j ∈ C s ↔ P j ∧ hv.slot (hv.key j) = s

variable {C : Nat → List Nat}

theorem Chains.ok (h : hv.Chains P C) : hv.OK P := fun s => ⟨C s, h s⟩

theorem OK.chains (h : hv.OK P) : ∃ C, hv.Chains P C :=
  ⟨fun s => Classical.choose (h s), fun s => Classical.choose_spec (h s)⟩

theorem Chains.of_iff {Q : Nat → Prop} (h : hv.Chains P C) (hPQ : ∀ j, P j ↔ Q j) :
    hv.Chains Q C := fun s =>
  ⟨(h s).1, fun j => ((h s).2 j).trans (and_congr_left' (hPQ j))⟩

/-- A cell is on no chain but its own slot's. -/
theorem Chains.not_mem (h : hv.Chains P C) {i : Nat} {s : Nat} (hs : s ≠ hv.slot (hv.key i)) :
    i ∉ C s := fun h' => hs ((h s).2 i |>.mp h').2.symm

theorem Chains.unlink (h : hv.Chains P C) {i : Nat} (hi : P i) :
    HashView.Chains ⟨relink hv.next (hv.prev i) (hv.next i), relink hv.prev (hv.next i) (hv.prev i),
      if hv.prev i = -1 then Function.update hv.head (hv.slot (hv.key i)) (hv.next i) else hv.head,
      hv.key, hv.slot⟩ (fun j => P j ∧ j ≠ i) (fun s => (C s).erase i) := by
  intro s
  dsimp only
  by_cases hs : s = hv.slot (hv.key i)
  · subst hs
    obtain ⟨hL, hmem⟩ := h (hv.slot (hv.key i))
    obtain ⟨xs, ys, hxy⟩ := List.append_of_mem ((hmem i).mpr ⟨hi, rfl⟩)
    rw [hxy] at hL hmem ⊢
    have hix : i ∉ xs := by
      have hnd := hL.nodup
      rw [List.nodup_append] at hnd
      exact fun h' => hnd.2.2 i h' i (List.mem_cons_self ..) rfl
    rw [List.erase_append_right _ hix, List.erase_cons_head]
    refine ⟨?_, fun j => ?_⟩
    · have hu := hL.unlink
      split_ifs at hu ⊢ with hp
      · simpa using hu
      · exact hu
    · rw [mem_append_cons_iff hL.nodup, hmem j]
      tauto
  · obtain ⟨hL, hmem⟩ := h s
    rw [List.erase_of_not_mem (h.not_mem hs)]
    have hhead : (if hv.prev i = -1 then Function.update hv.head (hv.slot (hv.key i)) (hv.next i)
        else hv.head) s = hv.head s := by
      split_ifs <;> simp [hs]
    refine ⟨?_, fun j => ?_⟩
    · rw [hhead]
      refine hL.congr (fun j hj => ?_) (fun j hj => ?_)
      · have hne := h.ok.ne_links hi (((hmem j).mp hj).2 ▸ hs)
        simp [hne.1]
      · have hne := h.ok.ne_links hi (((hmem j).mp hj).2 ▸ hs)
        simp [hne.2]
    · rw [hmem j]
      constructor
      · rintro ⟨hj, hjs⟩
        exact ⟨⟨hj, fun hji => hs (hji ▸ hjs).symm⟩, hjs⟩
      · rintro ⟨⟨hj, -⟩, hjs⟩
        exact ⟨hj, hjs⟩

theorem Chains.move (h : hv.Chains P C) {f c : Nat} (hf : P f) (hc : ¬ P c) :
    HashView.Chains ⟨relink (Function.update hv.next c (hv.next f)) (hv.prev f) c,
      relink (Function.update hv.prev c (hv.prev f)) (hv.next f) c,
      if hv.prev f = -1 then Function.update hv.head (hv.slot (hv.key f)) c else hv.head,
      Function.update hv.key c (hv.key f), hv.slot⟩ (fun j => (P j ∧ j ≠ f) ∨ j = c)
      (fun s => (C s).map (rename f c)) := by
  have hcf : c ≠ f := fun h' => hc (h' ▸ hf)
  intro s
  dsimp only
  by_cases hs : s = hv.slot (hv.key f)
  · subst hs
    obtain ⟨hL, hmem⟩ := h (hv.slot (hv.key f))
    obtain ⟨xs, ys, hxy⟩ := List.append_of_mem ((hmem f).mpr ⟨hf, rfl⟩)
    rw [hxy] at hL hmem ⊢
    have hcL : c ∉ xs ++ f :: ys := fun h' => hc ((hmem c).mp h').1
    rw [map_rename_cut hL.nodup]
    refine ⟨?_, fun j => ?_⟩
    · have hm := hL.move hcL
      split_ifs at hm ⊢ with hp
      · simpa using hm
      · exact hm
    · by_cases hjc : j = c
      · subst hjc
        simp
      · rw [Function.update_of_ne hjc]
        have hiff : j ∈ xs ++ c :: ys ↔ j ∈ xs ++ ys := by simp [hjc]
        rw [hiff, mem_append_cons_iff hL.nodup, hmem j]
        tauto
  · obtain ⟨hL, hmem⟩ := h s
    rw [map_rename_of_not_mem (h.not_mem hs)]
    have hhead : (if hv.prev f = -1 then Function.update hv.head (hv.slot (hv.key f)) c
        else hv.head) s = hv.head s := by
      split_ifs <;> simp [hs]
    have hcH : ∀ j ∈ C s, j ≠ c := fun j hj hjc => hc (hjc ▸ ((hmem j).mp hj).1)
    refine ⟨?_, fun j => ?_⟩
    · rw [hhead]
      refine hL.congr (fun j hj => ?_) (fun j hj => ?_)
      · have hne := h.ok.ne_links hf (((hmem j).mp hj).2 ▸ hs)
        simp [hne.1, hcH j hj]
      · have hne := h.ok.ne_links hf (((hmem j).mp hj).2 ▸ hs)
        simp [hne.2, hcH j hj]
    · by_cases hjc : j = c
      · subst hjc
        simp only [Function.update_self]
        constructor
        · intro hj
          exact absurd rfl (hcH _ hj)
        · rintro ⟨-, hjs⟩
          exact absurd hjs.symm hs
      · rw [Function.update_of_ne hjc, hmem j]
        constructor
        · rintro ⟨hj, hjs⟩
          exact ⟨Or.inl ⟨hj, fun hjf => hs (hjf ▸ hjs).symm⟩, hjs⟩
        · rintro ⟨(⟨hj, -⟩ | hj), hjs⟩
          · exact ⟨hj, hjs⟩
          · exact absurd hj hjc

theorem Chains.write_outside (h : hv.Chains P C) {c : Nat} (hc : ¬ P c) (x y : Int) (k : K) :
    HashView.Chains ⟨Function.update hv.next c x, Function.update hv.prev c y, hv.head,
      Function.update hv.key c k, hv.slot⟩ P C := by
  intro s
  dsimp only
  obtain ⟨hL, hmem⟩ := h s
  have hcH : ∀ j ∈ C s, j ≠ c := fun j hj hjc => hc (hjc ▸ ((hmem j).mp hj).1)
  refine ⟨hL.congr (fun j hj => Function.update_of_ne (hcH j hj) _ _)
    (fun j hj => Function.update_of_ne (hcH j hj) _ _), fun j => ?_⟩
  by_cases hjc : j = c
  · subst hjc
    exact ⟨fun hj => absurd rfl (hcH _ hj), fun hj => absurd hj.1 hc⟩
  · rw [Function.update_of_ne hjc]
    exact hmem j

theorem Chains.push (h : hv.Chains P C) {e : Nat} (he : ¬ P e) (k : K) :
    HashView.Chains ⟨Function.update hv.next e (hv.head (hv.slot k)),
      relink (Function.update hv.prev e (-1)) (hv.head (hv.slot k)) e,
      Function.update hv.head (hv.slot k) e, Function.update hv.key e k, hv.slot⟩
      (fun j => P j ∨ j = e) (fun s => if s = hv.slot k then e :: C s else C s) := by
  intro s
  dsimp only
  obtain ⟨hL, hmem⟩ := h s
  have heH : e ∉ C s := fun h' => he ((hmem e).mp h').1
  by_cases hs : s = hv.slot k
  · subst hs
    rw [if_pos rfl]
    refine ⟨by simpa using hL.push heH, fun j => ?_⟩
    by_cases hje : j = e
    · subst hje
      simp
    · rw [Function.update_of_ne hje, List.mem_cons, hmem j]
      simp [hje]
  · -- another chain: the new cell is not on it, and the pushed head is not one of its cells
    rw [if_neg hs]
    have hhead : ∀ j ∈ C s, (j : Int) ≠ hv.head (hv.slot k) := by
      intro j hj hjh
      rcases h.ok.head_eq (hv.slot k) with h1 | ⟨c, hc, -, hcs⟩
      · omega
      · rw [hc, Int.natCast_inj] at hjh
        subst hjh
        exact hs (((hmem j).mp hj).2.symm.trans hcs)
    have hjne : ∀ j ∈ C s, j ≠ e := fun j hj hje => heH (hje ▸ hj)
    refine ⟨?_, fun j => ?_⟩
    · rw [Function.update_of_ne hs]
      exact hL.congr (fun j hj => Function.update_of_ne (hjne j hj) _ _)
        (fun j hj => by simp [hhead j hj, hjne j hj])
    · by_cases hje : j = e
      · subst hje
        simp only [Function.update_self]
        exact ⟨fun hj => absurd hj heH, fun hj => absurd hj.2.symm hs⟩
      · rw [Function.update_of_ne hje, hmem j]
        simp [hje]

/-- **Unlinking a cell from its chain.** -/
theorem OK.unlink (h : hv.OK P) {i : Nat} (hi : P i) :
    HashView.OK ⟨relink hv.next (hv.prev i) (hv.next i), relink hv.prev (hv.next i) (hv.prev i),
      if hv.prev i = -1 then Function.update hv.head (hv.slot (hv.key i)) (hv.next i) else hv.head,
      hv.key, hv.slot⟩ (fun j => P j ∧ j ≠ i) := by
  obtain ⟨C, hC⟩ := h.chains
  exact (hC.unlink hi).ok

/-- **Moving a cell's node to a free cell `c`** and pointing its neighbours there. -/
theorem OK.move (h : hv.OK P) {f c : Nat} (hf : P f) (hc : ¬ P c) :
    HashView.OK ⟨relink (Function.update hv.next c (hv.next f)) (hv.prev f) c,
      relink (Function.update hv.prev c (hv.prev f)) (hv.next f) c,
      if hv.prev f = -1 then Function.update hv.head (hv.slot (hv.key f)) c else hv.head,
      Function.update hv.key c (hv.key f), hv.slot⟩ (fun j => (P j ∧ j ≠ f) ∨ j = c) := by
  obtain ⟨C, hC⟩ := h.chains
  exact (hC.move hf hc).ok

/-- Writing a node outside every chain changes no chain. -/
theorem OK.write_outside (h : hv.OK P) {c : Nat} (hc : ¬ P c) (x y : Int) (k : K) :
    HashView.OK ⟨Function.update hv.next c x, Function.update hv.prev c y, hv.head,
      Function.update hv.key c k, hv.slot⟩ P := by
  obtain ⟨C, hC⟩ := h.chains
  exact (hC.write_outside hc x y k).ok

/-- **Pushing a new cell `e` with key `k`** at the front of its slot's chain. -/
theorem OK.push (h : hv.OK P) {e : Nat} (he : ¬ P e) (k : K) :
    HashView.OK ⟨Function.update hv.next e (hv.head (hv.slot k)),
      relink (Function.update hv.prev e (-1)) (hv.head (hv.slot k)) e,
      Function.update hv.head (hv.slot k) e, Function.update hv.key e k, hv.slot⟩
      (fun j => P j ∨ j = e) := by
  obtain ⟨C, hC⟩ := h.chains
  exact (hC.push he k).ok

end HashView

namespace TimeView

variable {tv : TimeView}

theorem OK.unlink {us vs : List Nat} {i : Nat} (h : tv.OK (us ++ i :: vs)) :
    TimeView.OK ⟨relink tv.next (tv.prev i) (tv.next i), relink tv.prev (tv.next i) (tv.prev i),
      if tv.prev i = -1 then tv.next i else tv.head,
      if tv.next i = -1 then tv.prev i else tv.tail⟩ (us ++ vs) := by
  refine ⟨h.1.unlink, ?_⟩
  rw [h.1.lastOr_unlink, h.2]

theorem OK.move {us vs : List Nat} {f c : Nat} (h : tv.OK (us ++ f :: vs))
    (hc : c ∉ us ++ f :: vs) :
    TimeView.OK ⟨relink (Function.update tv.next c (tv.next f)) (tv.prev f) c,
      relink (Function.update tv.prev c (tv.prev f)) (tv.next f) c,
      if tv.prev f = -1 then c else tv.head,
      if tv.next f = -1 then c else tv.tail⟩ (us ++ c :: vs) := by
  refine ⟨h.1.move hc, ?_⟩
  rw [h.1.lastOr_move, h.2]

theorem OK.write_outside {T : List Nat} (h : tv.OK T) {c : Nat} (hc : c ∉ T) (x y : Int) :
    TimeView.OK ⟨Function.update tv.next c x, Function.update tv.prev c y, tv.head, tv.tail⟩ T := by
  have hne : ∀ j ∈ T, j ≠ c := fun j hj hjc => hc (hjc ▸ hj)
  exact ⟨h.1.congr (fun j hj => Function.update_of_ne (hne j hj) _ _)
    (fun j hj => Function.update_of_ne (hne j hj) _ _), h.2⟩

theorem OK.push {T : List Nat} (h : tv.OK T) {a : Nat} (ha : a ∉ T) :
    TimeView.OK ⟨Function.update tv.next a tv.head, relink (Function.update tv.prev a (-1)) tv.head a,
      a, if tv.tail = -1 then (a : Int) else tv.tail⟩ (a :: T) := by
  refine ⟨h.1.push ha, ?_⟩
  rw [h.2, lastOr_push]

end TimeView

namespace U64LRU

def ringView (m : U64LRU V) : RingView :=
  ⟨m.ringBufferLen, m.bufferStartIndex, m.bufferEndIndex, m.capacity, m.size⟩

def hashView (m : U64LRU V) : HashView UInt64 :=
  ⟨fun i => (m.getNode i).hashListNext, fun i => (m.getNode i).hashListPrev, m.hashSlotHead,
    fun i => (m.getNode i).key, m.compressHash⟩

def timeView (m : U64LRU V) : TimeView :=
  ⟨fun i => (m.getNode i).timeListNext, fun i => (m.getNode i).timeListPrev, m.timeListHead,
    m.timeListTail⟩

/-- The key and value of each node. -/
def entry (m : U64LRU V) (i : Nat) : UInt64 × Option V := ((m.getNode i).key, (m.getNode i).value)

@[simp] theorem hashView_next (m : U64LRU V) : m.hashView.next = fun i => (m.getNode i).hashListNext :=
  rfl
@[simp] theorem hashView_prev (m : U64LRU V) : m.hashView.prev = fun i => (m.getNode i).hashListPrev :=
  rfl
@[simp] theorem hashView_head (m : U64LRU V) : m.hashView.head = m.hashSlotHead := rfl
@[simp] theorem hashView_key (m : U64LRU V) : m.hashView.key = fun i => (m.getNode i).key := rfl
@[simp] theorem hashView_slot (m : U64LRU V) : m.hashView.slot = m.compressHash := rfl
@[simp] theorem timeView_next (m : U64LRU V) : m.timeView.next = fun i => (m.getNode i).timeListNext :=
  rfl
@[simp] theorem timeView_prev (m : U64LRU V) : m.timeView.prev = fun i => (m.getNode i).timeListPrev :=
  rfl
@[simp] theorem timeView_head (m : U64LRU V) : m.timeView.head = m.timeListHead := rfl
@[simp] theorem timeView_tail (m : U64LRU V) : m.timeView.tail = m.timeListTail := rfl

/-! ### Writing a node -/

@[simp] theorem getNode_setNode (m : U64LRU V) (i : Nat) (n : U64LRUNode V) (j : Nat) :
    (m.setNode i n).getNode j = Function.update m.ringBuffer i n j := rfl

theorem hashView_setNode (m : U64LRU V) (i : Nat) (n : U64LRUNode V) :
    (m.setNode i n).hashView =
      ⟨Function.update m.hashView.next i n.hashListNext,
        Function.update m.hashView.prev i n.hashListPrev, m.hashView.head,
        Function.update m.hashView.key i n.key, m.hashView.slot⟩ := by
  simp only [hashView, HashView.mk.injEq]
  refine ⟨?_, ?_, rfl, ?_, rfl⟩ <;> funext j <;> by_cases h : j = i <;> simp [h, getNode, setNode]

theorem timeView_setNode (m : U64LRU V) (i : Nat) (n : U64LRUNode V) :
    (m.setNode i n).timeView =
      ⟨Function.update m.timeView.next i n.timeListNext,
        Function.update m.timeView.prev i n.timeListPrev, m.timeView.head, m.timeView.tail⟩ := by
  simp only [timeView, TimeView.mk.injEq]
  refine ⟨?_, ?_, rfl, rfl⟩ <;> funext j <;> by_cases h : j = i <;> simp [h, getNode, setNode]

theorem ringView_setNode (m : U64LRU V) (i : Nat) (n : U64LRUNode V) :
    (m.setNode i n).ringView = m.ringView := rfl

theorem entry_setNode (m : U64LRU V) (i : Nat) (n : U64LRUNode V) :
    (m.setNode i n).entry = Function.update m.entry i (n.key, n.value) := by
  funext j
  by_cases h : j = i <;> simp [entry, h, getNode, setNode]

/-! ### The four list helpers -/

section Helpers

variable (m : U64LRU V) (node : U64LRUNode V) (nn np : Int) (a s : Nat)

theorem getNode_removeNodeFromHashList (hp : -1 ≤ node.hashListPrev)
    (hn : -1 ≤ node.hashListNext) (i : Nat) :
    (m.removeNodeFromHashList node nn np).getNode i =
      { m.getNode i with
        hashListNext := if (i : Int) = node.hashListPrev then nn else (m.getNode i).hashListNext
        hashListPrev := if (i : Int) = node.hashListNext then np else (m.getNode i).hashListPrev } := by
  unfold removeNodeFromHashList
  rcases link_cases hp with hp1 | ⟨p, hp1⟩ <;> rcases link_cases hn with hn1 | ⟨n, hn1⟩ <;>
    simp [hp1, hn1, setNode, getNode, Function.update_apply] <;>
    split_ifs <;> simp_all

theorem getNode_removeNodeFromTimeList (hp : -1 ≤ node.timeListPrev)
    (hn : -1 ≤ node.timeListNext) (i : Nat) :
    (m.removeNodeFromTimeList node nn np).getNode i =
      { m.getNode i with
        timeListNext := if (i : Int) = node.timeListPrev then nn else (m.getNode i).timeListNext
        timeListPrev := if (i : Int) = node.timeListNext then np else (m.getNode i).timeListPrev } := by
  unfold removeNodeFromTimeList
  rcases link_cases hp with hp1 | ⟨p, hp1⟩ <;> rcases link_cases hn with hn1 | ⟨n, hn1⟩ <;>
    simp [hp1, hn1, setNode, getNode, Function.update_apply] <;>
    split_ifs <;> simp_all

theorem getNode_pushNodeToHashList (hh : -1 ≤ m.hashSlotHead s) (i : Nat) :
    (m.pushNodeToHashList a s).getNode i =
      { m.getNode i with
        hashListNext := if i = a then m.hashSlotHead s else (m.getNode i).hashListNext
        hashListPrev := if (i : Int) = m.hashSlotHead s then a
          else if i = a then -1 else (m.getNode i).hashListPrev } := by
  unfold pushNodeToHashList
  rcases link_cases hh with hh1 | ⟨h, hh1⟩ <;>
    simp [hh1, setNode, getNode, Function.update_apply] <;>
    split_ifs <;> simp_all

theorem getNode_pushNodeToTimeList (hh : -1 ≤ m.timeListHead) (i : Nat) :
    (m.pushNodeToTimeList a).getNode i =
      { m.getNode i with
        timeListNext := if i = a then m.timeListHead else (m.getNode i).timeListNext
        timeListPrev := if (i : Int) = m.timeListHead then a
          else if i = a then -1 else (m.getNode i).timeListPrev } := by
  unfold pushNodeToTimeList
  rcases link_cases hh with hh1 | ⟨h, hh1⟩ <;>
    simp [hh1, setNode, getNode, Function.update_apply] <;>
    split_ifs <;> simp_all

theorem ringView_removeNodeFromHashList :
    (m.removeNodeFromHashList node nn np).ringView = m.ringView := by
  unfold removeNodeFromHashList
  split_ifs <;> rfl

theorem ringView_removeNodeFromTimeList :
    (m.removeNodeFromTimeList node nn np).ringView = m.ringView := by
  unfold removeNodeFromTimeList
  split_ifs <;> rfl

theorem ringView_pushNodeToHashList : (m.pushNodeToHashList a s).ringView = m.ringView := by
  unfold pushNodeToHashList
  dsimp only
  split_ifs <;> rfl

theorem ringView_pushNodeToTimeList : (m.pushNodeToTimeList a).ringView = m.ringView := by
  unfold pushNodeToTimeList
  dsimp only
  split_ifs <;> rfl

/-! The views after each helper: one list edit, the other views as they were. -/

theorem hashView_removeNodeFromHashList (hp : -1 ≤ node.hashListPrev)
    (hn : -1 ≤ node.hashListNext) :
    (m.removeNodeFromHashList node nn np).hashView =
      ⟨relink m.hashView.next node.hashListPrev nn, relink m.hashView.prev node.hashListNext np,
        if node.hashListPrev = -1 then Function.update m.hashView.head (m.hashView.slot node.key) nn
        else m.hashView.head, m.hashView.key, m.hashView.slot⟩ := by
  have hhead : (m.removeNodeFromHashList node nn np).hashSlotHead =
      if node.hashListPrev = -1 then Function.update m.hashSlotHead (m.compressHash node.key) nn
      else m.hashSlotHead := by
    unfold removeNodeFromHashList
    split_ifs <;> simp_all [setNode]
  have hslot : (m.removeNodeFromHashList node nn np).compressHash = m.compressHash := by
    unfold removeNodeFromHashList
    split_ifs <;> rfl
  simp only [hashView, getNode_removeNodeFromHashList m node nn np hp hn, hhead, hslot]
  rfl

theorem timeView_removeNodeFromHashList (hp : -1 ≤ node.hashListPrev)
    (hn : -1 ≤ node.hashListNext) :
    (m.removeNodeFromHashList node nn np).timeView = m.timeView := by
  have hhead : (m.removeNodeFromHashList node nn np).timeListHead = m.timeListHead := by
    unfold removeNodeFromHashList
    split_ifs <;> rfl
  have htail : (m.removeNodeFromHashList node nn np).timeListTail = m.timeListTail := by
    unfold removeNodeFromHashList
    split_ifs <;> rfl
  simp only [timeView, getNode_removeNodeFromHashList m node nn np hp hn, hhead, htail]

theorem entry_removeNodeFromHashList (hp : -1 ≤ node.hashListPrev)
    (hn : -1 ≤ node.hashListNext) :
    (m.removeNodeFromHashList node nn np).entry = m.entry := by
  funext i
  simp only [entry, getNode_removeNodeFromHashList m node nn np hp hn]

theorem timeView_removeNodeFromTimeList (hp : -1 ≤ node.timeListPrev)
    (hn : -1 ≤ node.timeListNext) :
    (m.removeNodeFromTimeList node nn np).timeView =
      ⟨relink m.timeView.next node.timeListPrev nn, relink m.timeView.prev node.timeListNext np,
        if node.timeListPrev = -1 then nn else m.timeView.head,
        if node.timeListNext = -1 then np else m.timeView.tail⟩ := by
  have hhead : (m.removeNodeFromTimeList node nn np).timeListHead =
      if node.timeListPrev = -1 then nn else m.timeListHead := by
    unfold removeNodeFromTimeList
    split_ifs <;> simp_all [setNode]
  have htail : (m.removeNodeFromTimeList node nn np).timeListTail =
      if node.timeListNext = -1 then np else m.timeListTail := by
    unfold removeNodeFromTimeList
    split_ifs <;> simp_all [setNode]
  simp only [timeView, getNode_removeNodeFromTimeList m node nn np hp hn, hhead, htail]
  rfl

theorem hashView_removeNodeFromTimeList (hp : -1 ≤ node.timeListPrev)
    (hn : -1 ≤ node.timeListNext) :
    (m.removeNodeFromTimeList node nn np).hashView = m.hashView := by
  have hhead : (m.removeNodeFromTimeList node nn np).hashSlotHead = m.hashSlotHead := by
    unfold removeNodeFromTimeList
    split_ifs <;> rfl
  have hslot : (m.removeNodeFromTimeList node nn np).compressHash = m.compressHash := by
    unfold removeNodeFromTimeList
    split_ifs <;> rfl
  simp only [hashView, getNode_removeNodeFromTimeList m node nn np hp hn, hhead, hslot]

theorem entry_removeNodeFromTimeList (hp : -1 ≤ node.timeListPrev)
    (hn : -1 ≤ node.timeListNext) :
    (m.removeNodeFromTimeList node nn np).entry = m.entry := by
  funext i
  simp only [entry, getNode_removeNodeFromTimeList m node nn np hp hn]

theorem hashView_pushNodeToHashList (hh : -1 ≤ m.hashSlotHead s) :
    (m.pushNodeToHashList a s).hashView =
      ⟨Function.update m.hashView.next a (m.hashView.head s),
        relink (Function.update m.hashView.prev a (-1)) (m.hashView.head s) a,
        Function.update m.hashView.head s a, m.hashView.key, m.hashView.slot⟩ := by
  have hhead : (m.pushNodeToHashList a s).hashSlotHead = Function.update m.hashSlotHead s a := by
    unfold pushNodeToHashList
    dsimp only
    split_ifs <;> rfl
  have hslot : (m.pushNodeToHashList a s).compressHash = m.compressHash := by
    unfold pushNodeToHashList
    dsimp only
    split_ifs <;> rfl
  simp only [hashView, getNode_pushNodeToHashList m a s hh, hhead, hslot, HashView.mk.injEq,
    and_true]
  constructor <;> funext i <;> by_cases hi : i = a <;> simp [hi]

theorem timeView_pushNodeToHashList (hh : -1 ≤ m.hashSlotHead s) :
    (m.pushNodeToHashList a s).timeView = m.timeView := by
  have hhead : (m.pushNodeToHashList a s).timeListHead = m.timeListHead := by
    unfold pushNodeToHashList
    dsimp only
    split_ifs <;> rfl
  have htail : (m.pushNodeToHashList a s).timeListTail = m.timeListTail := by
    unfold pushNodeToHashList
    dsimp only
    split_ifs <;> rfl
  simp only [timeView, getNode_pushNodeToHashList m a s hh, hhead, htail]

theorem entry_pushNodeToHashList (hh : -1 ≤ m.hashSlotHead s) :
    (m.pushNodeToHashList a s).entry = m.entry := by
  funext i
  simp only [entry, getNode_pushNodeToHashList m a s hh]

theorem timeView_pushNodeToTimeList (hh : -1 ≤ m.timeListHead) :
    (m.pushNodeToTimeList a).timeView =
      ⟨Function.update m.timeView.next a m.timeView.head,
        relink (Function.update m.timeView.prev a (-1)) m.timeView.head a, a,
        if m.timeView.tail = -1 then (a : Int) else m.timeView.tail⟩ := by
  have hhead : (m.pushNodeToTimeList a).timeListHead = a := by
    unfold pushNodeToTimeList
    dsimp only
    split_ifs <;> rfl
  have htail : (m.pushNodeToTimeList a).timeListTail =
      if m.timeListTail = -1 then (a : Int) else m.timeListTail := by
    unfold pushNodeToTimeList
    dsimp only
    split_ifs <;> simp_all [setNode]
  simp only [timeView, getNode_pushNodeToTimeList m a hh, hhead, htail, TimeView.mk.injEq]
  refine ⟨?_, ?_, trivial, rfl⟩ <;> funext i <;> by_cases hi : i = a <;> simp [hi]

theorem hashView_pushNodeToTimeList (hh : -1 ≤ m.timeListHead) :
    (m.pushNodeToTimeList a).hashView = m.hashView := by
  have hhead : (m.pushNodeToTimeList a).hashSlotHead = m.hashSlotHead := by
    unfold pushNodeToTimeList
    dsimp only
    split_ifs <;> rfl
  have hslot : (m.pushNodeToTimeList a).compressHash = m.compressHash := by
    unfold pushNodeToTimeList
    dsimp only
    split_ifs <;> rfl
  simp only [hashView, getNode_pushNodeToTimeList m a hh, hhead, hslot]

theorem entry_pushNodeToTimeList (hh : -1 ≤ m.timeListHead) :
    (m.pushNodeToTimeList a).entry = m.entry := by
  funext i
  simp only [entry, getNode_pushNodeToTimeList m a hh]

end Helpers

end U64LRU

end Sophon.Server
