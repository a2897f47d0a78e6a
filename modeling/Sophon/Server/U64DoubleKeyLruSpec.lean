/-
What the double-key map's helpers do to its lists.

The chains of the table `t` are read from the `HashView` `chainView t` (the table's
links, slot heads, the key it hashes and its slot function), the time list from
`timeView`, the ring from `ringView`, and what each cell holds from `entry`.  Each
helper changes one view as one edit of `LinkList` says and leaves the others alone;
a helper of one table leaves the other table's chains alone.  The lemmas here state
that once per helper, as `U64LruSpec` does for `U64LRU`, so that the invariant's
proofs never unfold a helper again.

A link the helpers follow is `-1` or a cell: the hypotheses `-1 ≤ x` say so, and
the invariant supplies them.
-/
import Sophon.Server.U64DoubleKeyLru
import Sophon.Server.U64LruSpec

namespace Sophon.Server

open LinkList

variable {V : Type}

/-! ### Writing one table's links of a node -/

namespace HashTable

variable (t t' : HashTable) (n : U64DoubleKeyLRUNode V) (v : Int)

@[simp] theorem next_setNext : t.next (t.setNext n v) = v := by cases t <;> rfl
@[simp] theorem prev_setPrev : t.prev (t.setPrev n v) = v := by cases t <;> rfl
@[simp] theorem prev_setNext : t'.prev (t.setNext n v) = t'.prev n := by cases t <;> cases t' <;> rfl
@[simp] theorem next_setPrev : t'.next (t.setPrev n v) = t'.next n := by cases t <;> cases t' <;> rfl
@[simp] theorem key_setNext : t'.key (t.setNext n v) = t'.key n := by cases t <;> cases t' <;> rfl
@[simp] theorem key_setPrev : t'.key (t.setPrev n v) = t'.key n := by cases t <;> cases t' <;> rfl

theorem next_setNext_of_ne (h : t' ≠ t) : t'.next (t.setNext n v) = t'.next n := by
  cases t <;> cases t' <;> first | rfl | exact absurd rfl h

theorem prev_setPrev_of_ne (h : t' ≠ t) : t'.prev (t.setPrev n v) = t'.prev n := by
  cases t <;> cases t' <;> first | rfl | exact absurd rfl h

/-- The fields no table's links are: what the node holds and its time links. -/
@[simp] theorem setNext_fields :
    (t.setNext n v).key = n.key ∧ (t.setNext n v).shortKey = n.shortKey ∧
      (t.setNext n v).value = n.value ∧ (t.setNext n v).timeListNext = n.timeListNext ∧
      (t.setNext n v).timeListPrev = n.timeListPrev := by
  cases t <;> exact ⟨rfl, rfl, rfl, rfl, rfl⟩

@[simp] theorem setPrev_fields :
    (t.setPrev n v).key = n.key ∧ (t.setPrev n v).shortKey = n.shortKey ∧
      (t.setPrev n v).value = n.value ∧ (t.setPrev n v).timeListNext = n.timeListNext ∧
      (t.setPrev n v).timeListPrev = n.timeListPrev := by
  cases t <;> exact ⟨rfl, rfl, rfl, rfl, rfl⟩

end HashTable

namespace U64DoubleKeyLRU

/-! ### The views -/

def ringView (m : U64DoubleKeyLRU V) : RingView :=
  ⟨m.ringBufferLen, m.bufferStartIndex, m.bufferEndIndex, m.capacity, m.size⟩

/-- The chains of the table `t`. -/
def chainView (m : U64DoubleKeyLRU V) (t : HashTable) : HashView UInt64 :=
  ⟨fun i => t.next (m.getNode i), fun i => t.prev (m.getNode i), m.slotHead t,
    fun i => t.key (m.getNode i), m.compress t⟩

def timeView (m : U64DoubleKeyLRU V) : TimeView :=
  ⟨fun i => (m.getNode i).timeListNext, fun i => (m.getNode i).timeListPrev, m.timeListHead,
    m.timeListTail⟩

/-- The key, short key and value of each node. -/
def entry (m : U64DoubleKeyLRU V) (i : Nat) : UInt64 × UInt64 × Option V :=
  ((m.getNode i).key, (m.getNode i).shortKey, (m.getNode i).value)

@[simp] theorem chainView_next (m : U64DoubleKeyLRU V) (t : HashTable) :
    (m.chainView t).next = fun i => t.next (m.getNode i) := rfl
@[simp] theorem chainView_prev (m : U64DoubleKeyLRU V) (t : HashTable) :
    (m.chainView t).prev = fun i => t.prev (m.getNode i) := rfl
@[simp] theorem chainView_head (m : U64DoubleKeyLRU V) (t : HashTable) :
    (m.chainView t).head = m.slotHead t := rfl
@[simp] theorem chainView_key (m : U64DoubleKeyLRU V) (t : HashTable) :
    (m.chainView t).key = fun i => t.key (m.getNode i) := rfl
@[simp] theorem chainView_slot (m : U64DoubleKeyLRU V) (t : HashTable) :
    (m.chainView t).slot = m.compress t := rfl
@[simp] theorem timeView_next (m : U64DoubleKeyLRU V) :
    m.timeView.next = fun i => (m.getNode i).timeListNext := rfl
@[simp] theorem timeView_prev (m : U64DoubleKeyLRU V) :
    m.timeView.prev = fun i => (m.getNode i).timeListPrev := rfl
@[simp] theorem timeView_head (m : U64DoubleKeyLRU V) : m.timeView.head = m.timeListHead := rfl
@[simp] theorem timeView_tail (m : U64DoubleKeyLRU V) : m.timeView.tail = m.timeListTail := rfl

/-! ### Writing a node or a slot head -/

@[simp] theorem getNode_setNode (m : U64DoubleKeyLRU V) (i : Nat) (n : U64DoubleKeyLRUNode V)
    (j : Nat) : (m.setNode i n).getNode j = Function.update m.ringBuffer i n j := rfl

theorem chainView_setNode (m : U64DoubleKeyLRU V) (i : Nat) (n : U64DoubleKeyLRUNode V)
    (t : HashTable) :
    (m.setNode i n).chainView t =
      ⟨Function.update (m.chainView t).next i (t.next n),
        Function.update (m.chainView t).prev i (t.prev n), (m.chainView t).head,
        Function.update (m.chainView t).key i (t.key n), (m.chainView t).slot⟩ := by
  simp only [chainView, HashView.mk.injEq]
  refine ⟨?_, ?_, rfl, ?_, rfl⟩ <;> funext j <;> by_cases h : j = i <;> simp [h, getNode, setNode]

theorem timeView_setNode (m : U64DoubleKeyLRU V) (i : Nat) (n : U64DoubleKeyLRUNode V) :
    (m.setNode i n).timeView =
      ⟨Function.update m.timeView.next i n.timeListNext,
        Function.update m.timeView.prev i n.timeListPrev, m.timeView.head, m.timeView.tail⟩ := by
  simp only [timeView, TimeView.mk.injEq]
  refine ⟨?_, ?_, rfl, rfl⟩ <;> funext j <;> by_cases h : j = i <;> simp [h, getNode, setNode]

theorem ringView_setNode (m : U64DoubleKeyLRU V) (i : Nat) (n : U64DoubleKeyLRUNode V) :
    (m.setNode i n).ringView = m.ringView := rfl

@[simp] theorem compress_setNode (m : U64DoubleKeyLRU V) (i : Nat) (n : U64DoubleKeyLRUNode V) :
    (m.setNode i n).compress = m.compress := rfl

theorem entry_setNode (m : U64DoubleKeyLRU V) (i : Nat) (n : U64DoubleKeyLRUNode V) :
    (m.setNode i n).entry = Function.update m.entry i (n.key, n.shortKey, n.value) := by
  funext j
  by_cases h : j = i <;> simp [entry, h, getNode, setNode]

@[simp] theorem getNode_setSlotHead (m : U64DoubleKeyLRU V) (t : HashTable) (s : Nat) (v : Int) :
    (m.setSlotHead t s v).getNode = m.getNode := by
  cases t <;> rfl

theorem slotHead_setSlotHead (m : U64DoubleKeyLRU V) (t t' : HashTable) (s : Nat) (v : Int) :
    (m.setSlotHead t s v).slotHead t' =
      if t' = t then Function.update (m.slotHead t) s v else m.slotHead t' := by
  cases t <;> cases t' <;> rfl

/-- The fields no helper writes: the table sizes, the ring's bounds and counts, and
what a slot-head write leaves of the time list. -/
theorem setSlotHead_fields (m : U64DoubleKeyLRU V) (t : HashTable) (s : Nat) (v : Int) :
    (m.setSlotHead t s v).compress = m.compress ∧ (m.setSlotHead t s v).ringView = m.ringView ∧
      (m.setSlotHead t s v).timeListHead = m.timeListHead ∧
      (m.setSlotHead t s v).timeListTail = m.timeListTail := by
  cases t <;> exact ⟨rfl, rfl, rfl, rfl⟩

/-! ### The two chain helpers -/

section ChainHelpers

variable (m : U64DoubleKeyLRU V) (t : HashTable) (node : U64DoubleKeyLRUNode V) (nn np : Int)
  (a s : Nat)

theorem getNode_removeNodeFromList (hp : -1 ≤ t.prev node) (hn : -1 ≤ t.next node) (i : Nat) :
    (m.removeNodeFromList t node nn np).getNode i =
      t.setPrev (t.setNext (m.getNode i) (if (i : Int) = t.prev node then nn else t.next (m.getNode i)))
        (if (i : Int) = t.next node then np else t.prev (m.getNode i)) := by
  unfold removeNodeFromList
  cases t <;>
  rcases link_cases hp with hp1 | ⟨p, hp1⟩ <;> rcases link_cases hn with hn1 | ⟨n, hn1⟩ <;>
    simp_all [setNode, getNode, setSlotHead, Function.update_apply, HashTable.setNext,
      HashTable.setPrev, HashTable.next, HashTable.prev] <;>
    split_ifs <;> simp_all

/-- The fields the chain helpers leave: the sizes, the ring and the time list's ends,
and the other table's slot heads. -/
theorem removeNodeFromList_fields :
    (m.removeNodeFromList t node nn np).compress = m.compress ∧
      (m.removeNodeFromList t node nn np).ringView = m.ringView ∧
      (m.removeNodeFromList t node nn np).timeListHead = m.timeListHead ∧
      (m.removeNodeFromList t node nn np).timeListTail = m.timeListTail := by
  unfold removeNodeFromList
  split_ifs <;> first
    | exact ⟨rfl, rfl, rfl, rfl⟩
    | exact setSlotHead_fields m _ _ _

theorem slotHead_removeNodeFromList (t' : HashTable) :
    (m.removeNodeFromList t node nn np).slotHead t' =
      if t' = t ∧ t.prev node = -1 then
        Function.update (m.slotHead t) (m.compress t (t.key node)) nn
      else m.slotHead t' := by
  have hset : ∀ (m' : U64DoubleKeyLRU V) (i : Nat) (n : U64DoubleKeyLRUNode V),
      (m'.setNode i n).slotHead t' = m'.slotHead t' := fun m' i n => by cases t' <;> rfl
  unfold removeNodeFromList
  by_cases hp : t.prev node = -1
  · simp only [hp, ne_eq, not_true_eq_false, if_false, and_true]
    split_ifs <;> simp only [hset, slotHead_setSlotHead] <;> simp_all
  · simp only [hp, ne_eq, not_false_eq_true, if_true, and_false, if_false]
    split_ifs <;> simp only [hset]

theorem getNode_pushNodeToList (hh : -1 ≤ m.slotHead t s) (i : Nat) :
    (m.pushNodeToList t a s).getNode i =
      t.setPrev (t.setNext (m.getNode i) (if i = a then m.slotHead t s else t.next (m.getNode i)))
        (if (i : Int) = m.slotHead t s then a else if i = a then -1 else t.prev (m.getNode i)) := by
  unfold pushNodeToList
  cases t <;>
  rcases link_cases hh with hh1 | ⟨h, hh1⟩ <;>
    simp_all [setNode, getNode, setSlotHead, Function.update_apply, HashTable.setNext,
      HashTable.setPrev, HashTable.next, HashTable.prev] <;>
    split_ifs <;> simp_all

theorem pushNodeToList_fields :
    (m.pushNodeToList t a s).compress = m.compress ∧ (m.pushNodeToList t a s).ringView = m.ringView ∧
      (m.pushNodeToList t a s).timeListHead = m.timeListHead ∧
      (m.pushNodeToList t a s).timeListTail = m.timeListTail := by
  unfold pushNodeToList
  dsimp only
  split_ifs <;> exact setSlotHead_fields _ _ _ _

theorem slotHead_pushNodeToList (t' : HashTable) :
    (m.pushNodeToList t a s).slotHead t' =
      if t' = t then Function.update (m.slotHead t) s a else m.slotHead t' := by
  have hset : ∀ (m' : U64DoubleKeyLRU V) (i : Nat) (n : U64DoubleKeyLRUNode V) (t'' : HashTable),
      (m'.setNode i n).slotHead t'' = m'.slotHead t'' := fun m' i n t'' => by cases t'' <;> rfl
  unfold pushNodeToList
  dsimp only
  rw [slotHead_setSlotHead]
  split_ifs <;> simp only [hset]

/-! The views after each chain helper: one chain edit, the other views as they were. -/

theorem chainView_removeNodeFromList (hp : -1 ≤ t.prev node) (hn : -1 ≤ t.next node) :
    (m.removeNodeFromList t node nn np).chainView t =
      ⟨relink (m.chainView t).next (t.prev node) nn, relink (m.chainView t).prev (t.next node) np,
        if t.prev node = -1 then
          Function.update (m.chainView t).head ((m.chainView t).slot (t.key node)) nn
        else (m.chainView t).head, (m.chainView t).key, (m.chainView t).slot⟩ := by
  have hf := removeNodeFromList_fields m t node nn np
  simp only [chainView, getNode_removeNodeFromList m t node nn np hp hn, hf.1,
    slotHead_removeNodeFromList, true_and, HashTable.next_setNext, HashTable.prev_setPrev,
    HashTable.next_setPrev, HashTable.key_setNext, HashTable.key_setPrev]
  rfl

theorem chainView_removeNodeFromList_of_ne (hp : -1 ≤ t.prev node) (hn : -1 ≤ t.next node)
    {t' : HashTable} (ht : t' ≠ t) :
    (m.removeNodeFromList t node nn np).chainView t' = m.chainView t' := by
  have hf := removeNodeFromList_fields m t node nn np
  simp only [chainView, getNode_removeNodeFromList m t node nn np hp hn, hf.1,
    slotHead_removeNodeFromList, ht, false_and, if_false, HashTable.next_setPrev,
    HashTable.next_setNext_of_ne _ _ _ _ ht, HashTable.prev_setPrev_of_ne _ _ _ _ ht,
    HashTable.prev_setNext, HashTable.key_setNext, HashTable.key_setPrev]

theorem timeView_removeNodeFromList (hp : -1 ≤ t.prev node) (hn : -1 ≤ t.next node) :
    (m.removeNodeFromList t node nn np).timeView = m.timeView := by
  have hf := removeNodeFromList_fields m t node nn np
  simp only [timeView, getNode_removeNodeFromList m t node nn np hp hn, hf.2.2.1, hf.2.2.2,
    HashTable.setNext_fields, HashTable.setPrev_fields]

theorem entry_removeNodeFromList (hp : -1 ≤ t.prev node) (hn : -1 ≤ t.next node) :
    (m.removeNodeFromList t node nn np).entry = m.entry := by
  funext i
  simp only [entry, getNode_removeNodeFromList m t node nn np hp hn, HashTable.setNext_fields,
    HashTable.setPrev_fields]

theorem chainView_pushNodeToList (hh : -1 ≤ m.slotHead t s) :
    (m.pushNodeToList t a s).chainView t =
      ⟨Function.update (m.chainView t).next a ((m.chainView t).head s),
        relink (Function.update (m.chainView t).prev a (-1)) ((m.chainView t).head s) a,
        Function.update (m.chainView t).head s a, (m.chainView t).key, (m.chainView t).slot⟩ := by
  have hf := pushNodeToList_fields m t a s
  simp only [chainView, getNode_pushNodeToList m t a s hh, hf.1, slotHead_pushNodeToList,
    if_true, HashTable.next_setNext, HashTable.prev_setPrev, HashTable.next_setPrev,
    HashTable.key_setNext, HashTable.key_setPrev, HashView.mk.injEq, and_true]
  constructor <;> funext i <;> by_cases hi : i = a <;> simp [hi]

theorem chainView_pushNodeToList_of_ne (hh : -1 ≤ m.slotHead t s) {t' : HashTable} (ht : t' ≠ t) :
    (m.pushNodeToList t a s).chainView t' = m.chainView t' := by
  have hf := pushNodeToList_fields m t a s
  simp only [chainView, getNode_pushNodeToList m t a s hh, hf.1, slotHead_pushNodeToList, ht,
    if_false, HashTable.next_setPrev, HashTable.next_setNext_of_ne _ _ _ _ ht,
    HashTable.prev_setPrev_of_ne _ _ _ _ ht, HashTable.prev_setNext, HashTable.key_setNext,
    HashTable.key_setPrev]

theorem timeView_pushNodeToList (hh : -1 ≤ m.slotHead t s) :
    (m.pushNodeToList t a s).timeView = m.timeView := by
  have hf := pushNodeToList_fields m t a s
  simp only [timeView, getNode_pushNodeToList m t a s hh, hf.2.2.1, hf.2.2.2,
    HashTable.setNext_fields, HashTable.setPrev_fields]

theorem entry_pushNodeToList (hh : -1 ≤ m.slotHead t s) :
    (m.pushNodeToList t a s).entry = m.entry := by
  funext i
  simp only [entry, getNode_pushNodeToList m t a s hh, HashTable.setNext_fields,
    HashTable.setPrev_fields]

end ChainHelpers

/-! ### The two time-list helpers -/

section TimeHelpers

variable (m : U64DoubleKeyLRU V) (node : U64DoubleKeyLRUNode V) (nn np : Int) (a : Nat)

theorem getNode_removeNodeFromTimeList (hp : -1 ≤ node.timeListPrev)
    (hn : -1 ≤ node.timeListNext) (i : Nat) :
    (m.removeNodeFromTimeList node nn np).getNode i =
      { m.getNode i with
        timeListNext := if (i : Int) = node.timeListPrev then nn else (m.getNode i).timeListNext
        timeListPrev := if (i : Int) = node.timeListNext then np else (m.getNode i).timeListPrev } := by
  unfold removeNodeFromTimeList
  rcases link_cases hp with hp1 | ⟨p, hp1⟩ <;> rcases link_cases hn with hn1 | ⟨n, hn1⟩ <;>
    simp [hp1, hn1, setNode, getNode, Function.update_apply] <;>
    split_ifs <;> simp_all

theorem getNode_pushNodeToTimeList (hh : -1 ≤ m.timeListHead) (i : Nat) :
    (m.pushNodeToTimeList a).getNode i =
      { m.getNode i with
        timeListNext := if i = a then m.timeListHead else (m.getNode i).timeListNext
        timeListPrev := if (i : Int) = m.timeListHead then a
          else if i = a then -1 else (m.getNode i).timeListPrev } := by
  unfold pushNodeToTimeList
  rcases link_cases hh with hh1 | ⟨h, hh1⟩ <;>
    simp [hh1, setNode, getNode, Function.update_apply] <;>
    split_ifs <;> simp_all

/-- The fields the time-list helpers leave: the sizes, the ring and the slot heads. -/
theorem removeNodeFromTimeList_fields :
    (m.removeNodeFromTimeList node nn np).compress = m.compress ∧
      (m.removeNodeFromTimeList node nn np).ringView = m.ringView ∧
      (m.removeNodeFromTimeList node nn np).slotHead = m.slotHead := by
  unfold removeNodeFromTimeList
  split_ifs <;> exact ⟨rfl, rfl, rfl⟩

theorem pushNodeToTimeList_fields :
    (m.pushNodeToTimeList a).compress = m.compress ∧ (m.pushNodeToTimeList a).ringView = m.ringView ∧
      (m.pushNodeToTimeList a).slotHead = m.slotHead := by
  unfold pushNodeToTimeList
  dsimp only
  split_ifs <;> exact ⟨rfl, rfl, rfl⟩

theorem timeView_removeNodeFromTimeList (hp : -1 ≤ node.timeListPrev)
    (hn : -1 ≤ node.timeListNext) :
    (m.removeNodeFromTimeList node nn np).timeView =
      ⟨relink m.timeView.next node.timeListPrev nn, relink m.timeView.prev node.timeListNext np,
        if node.timeListPrev = -1 then nn else m.timeView.head,
        if node.timeListNext = -1 then np else m.timeView.tail⟩ := by
  have hhead : (m.removeNodeFromTimeList node nn np).timeListHead =
      if node.timeListPrev = -1 then nn else m.timeListHead := by
    unfold removeNodeFromTimeList
    split_ifs <;> simp_all [setNode]
  have htail : (m.removeNodeFromTimeList node nn np).timeListTail =
      if node.timeListNext = -1 then np else m.timeListTail := by
    unfold removeNodeFromTimeList
    split_ifs <;> simp_all [setNode]
  simp only [timeView, getNode_removeNodeFromTimeList m node nn np hp hn, hhead, htail]
  rfl

theorem chainView_removeNodeFromTimeList (hp : -1 ≤ node.timeListPrev)
    (hn : -1 ≤ node.timeListNext) (t : HashTable) :
    (m.removeNodeFromTimeList node nn np).chainView t = m.chainView t := by
  have hf := removeNodeFromTimeList_fields m node nn np
  have hnode : ∀ i, (m.removeNodeFromTimeList node nn np).getNode i = _ :=
    getNode_removeNodeFromTimeList m node nn np hp hn
  simp only [chainView, hf.1, hf.2.2, hnode]
  cases t <;> rfl

theorem entry_removeNodeFromTimeList (hp : -1 ≤ node.timeListPrev)
    (hn : -1 ≤ node.timeListNext) :
    (m.removeNodeFromTimeList node nn np).entry = m.entry := by
  funext i
  simp only [entry, getNode_removeNodeFromTimeList m node nn np hp hn]

theorem timeView_pushNodeToTimeList (hh : -1 ≤ m.timeListHead) :
    (m.pushNodeToTimeList a).timeView =
      ⟨Function.update m.timeView.next a m.timeView.head,
        relink (Function.update m.timeView.prev a (-1)) m.timeView.head a, a,
        if m.timeView.tail = -1 then (a : Int) else m.timeView.tail⟩ := by
  have hhead : (m.pushNodeToTimeList a).timeListHead = a := by
    unfold pushNodeToTimeList
    dsimp only
    split_ifs <;> rfl
  have htail : (m.pushNodeToTimeList a).timeListTail =
      if m.timeListTail = -1 then (a : Int) else m.timeListTail := by
    unfold pushNodeToTimeList
    dsimp only
    split_ifs <;> simp_all [setNode]
  simp only [timeView, getNode_pushNodeToTimeList m a hh, hhead, htail, TimeView.mk.injEq]
  refine ⟨?_, ?_, trivial, rfl⟩ <;> funext i <;> by_cases hi : i = a <;> simp [hi]

theorem chainView_pushNodeToTimeList (hh : -1 ≤ m.timeListHead) (t : HashTable) :
    (m.pushNodeToTimeList a).chainView t = m.chainView t := by
  have hf := pushNodeToTimeList_fields m a
  have hnode : ∀ i, (m.pushNodeToTimeList a).getNode i = _ := getNode_pushNodeToTimeList m a hh
  simp only [chainView, hf.1, hf.2.2, hnode]
  cases t <;> rfl

theorem entry_pushNodeToTimeList (hh : -1 ≤ m.timeListHead) :
    (m.pushNodeToTimeList a).entry = m.entry := by
  funext i
  simp only [entry, getNode_pushNodeToTimeList m a hh]

end TimeHelpers

end U64DoubleKeyLRU

end Sophon.Server
