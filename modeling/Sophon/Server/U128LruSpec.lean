/-
What the helpers of `U128LRU` do to its lists.

The views are those of `U64LruSpec`, with one change: the collision chains are
read through the slot each node keeps, so the `HashView` of `U128LRU` has the
nodes' `hash` fields for keys and the identity for its slot function.  That is
the slot `removeNodeFromHashList` writes the head of, and the invariant then
says that it is the slot of the node's keys.  Each helper changes one view as one
edit of `LinkList` says and leaves the other views and the slot count alone.
-/
import Sophon.Server.U128Lru
import Sophon.Server.U64LruSpec

namespace Sophon.Server

open LinkList

variable {V : Type}

namespace U128LRU

def ringView (m : U128LRU V) : RingView :=
  ⟨m.ringBufferLen, m.bufferStartIndex, m.bufferEndIndex, m.capacity, m.size⟩

/-- The chains, each node on the chain of the slot it keeps. -/
def hashView (m : U128LRU V) : HashView Nat :=
  ⟨fun i => (m.getNode i).hashListNext, fun i => (m.getNode i).hashListPrev, m.hashSlotHead,
    fun i => (m.getNode i).hash, id⟩

def timeView (m : U128LRU V) : TimeView :=
  ⟨fun i => (m.getNode i).timeListNext, fun i => (m.getNode i).timeListPrev, m.timeListHead,
    m.timeListTail⟩

/-- The two words and the value of each node. -/
def entry (m : U128LRU V) (i : Nat) : (UInt64 × UInt64) × Option V :=
  (((m.getNode i).key0, (m.getNode i).key1), (m.getNode i).value)

@[simp] theorem hashView_next (m : U128LRU V) :
    m.hashView.next = fun i => (m.getNode i).hashListNext := rfl
@[simp] theorem hashView_prev (m : U128LRU V) :
    m.hashView.prev = fun i => (m.getNode i).hashListPrev := rfl
@[simp] theorem hashView_head (m : U128LRU V) : m.hashView.head = m.hashSlotHead := rfl
@[simp] theorem hashView_key (m : U128LRU V) : m.hashView.key = fun i => (m.getNode i).hash := rfl
@[simp] theorem hashView_slot (m : U128LRU V) : m.hashView.slot = id := rfl
@[simp] theorem timeView_next (m : U128LRU V) :
    m.timeView.next = fun i => (m.getNode i).timeListNext := rfl
@[simp] theorem timeView_prev (m : U128LRU V) :
    m.timeView.prev = fun i => (m.getNode i).timeListPrev := rfl
@[simp] theorem timeView_head (m : U128LRU V) : m.timeView.head = m.timeListHead := rfl
@[simp] theorem timeView_tail (m : U128LRU V) : m.timeView.tail = m.timeListTail := rfl

/-! ### Writing a node -/

@[simp] theorem getNode_setNode (m : U128LRU V) (i : Nat) (n : U128LRUNode V) (j : Nat) :
    (m.setNode i n).getNode j = Function.update m.ringBuffer i n j := rfl

/-- `compressHash` reads the slot count only. -/
theorem compressHash_congr {m m' : U128LRU V} (h : m'.hashSlots = m.hashSlots) :
    m'.compressHash = m.compressHash := by
  unfold compressHash
  rw [h]

@[simp] theorem hashSlots_setNode (m : U128LRU V) (i : Nat) (n : U128LRUNode V) :
    (m.setNode i n).hashSlots = m.hashSlots := rfl

theorem hashView_setNode (m : U128LRU V) (i : Nat) (n : U128LRUNode V) :
    (m.setNode i n).hashView =
      ⟨Function.update m.hashView.next i n.hashListNext,
        Function.update m.hashView.prev i n.hashListPrev, m.hashView.head,
        Function.update m.hashView.key i n.hash, m.hashView.slot⟩ := by
  simp only [hashView, HashView.mk.injEq]
  refine ⟨?_, ?_, rfl, ?_, trivial⟩ <;> funext j <;> by_cases h : j = i <;> simp [h, getNode, setNode]

theorem timeView_setNode (m : U128LRU V) (i : Nat) (n : U128LRUNode V) :
    (m.setNode i n).timeView =
      ⟨Function.update m.timeView.next i n.timeListNext,
        Function.update m.timeView.prev i n.timeListPrev, m.timeView.head, m.timeView.tail⟩ := by
  simp only [timeView, TimeView.mk.injEq]
  refine ⟨?_, ?_, rfl, rfl⟩ <;> funext j <;> by_cases h : j = i <;> simp [h, getNode, setNode]

theorem ringView_setNode (m : U128LRU V) (i : Nat) (n : U128LRUNode V) :
    (m.setNode i n).ringView = m.ringView := rfl

theorem entry_setNode (m : U128LRU V) (i : Nat) (n : U128LRUNode V) :
    (m.setNode i n).entry = Function.update m.entry i ((n.key0, n.key1), n.value) := by
  funext j
  by_cases h : j = i <;> simp [entry, h, getNode, setNode]

/-! ### The four list helpers -/

section Helpers

variable (m : U128LRU V) (node : U128LRUNode V) (nn np : Int) (a s : Nat)

theorem getNode_removeNodeFromHashList (hp : -1 ≤ node.hashListPrev)
    (hn : -1 ≤ node.hashListNext) (i : Nat) :
    (m.removeNodeFromHashList node nn np).getNode i =
      { m.getNode i with
        hashListNext := if (i : Int) = node.hashListPrev then nn else (m.getNode i).hashListNext
        hashListPrev := if (i : Int) = node.hashListNext then np else (m.getNode i).hashListPrev } := by
  unfold removeNodeFromHashList
  rcases link_cases hp with hp1 | ⟨p, hp1⟩ <;> rcases link_cases hn with hn1 | ⟨n, hn1⟩ <;>
    simp [hp1, hn1, setNode, getNode, Function.update_apply] <;>
    split_ifs <;> simp_all

theorem getNode_removeNodeFromTimeList (hp : -1 ≤ node.timeListPrev)
    (hn : -1 ≤ node.timeListNext) (i : Nat) :
    (m.removeNodeFromTimeList node nn np).getNode i =
      { m.getNode i with
        timeListNext := if (i : Int) = node.timeListPrev then nn else (m.getNode i).timeListNext
        timeListPrev := if (i : Int) = node.timeListNext then np else (m.getNode i).timeListPrev } := by
  unfold removeNodeFromTimeList
  rcases link_cases hp with hp1 | ⟨p, hp1⟩ <;> rcases link_cases hn with hn1 | ⟨n, hn1⟩ <;>
    simp [hp1, hn1, setNode, getNode, Function.update_apply] <;>
    split_ifs <;> simp_all

theorem getNode_pushNodeToHashList (hh : -1 ≤ m.hashSlotHead s) (i : Nat) :
    (m.pushNodeToHashList a s).getNode i =
      { m.getNode i with
        hashListNext := if i = a then m.hashSlotHead s else (m.getNode i).hashListNext
        hashListPrev := if (i : Int) = m.hashSlotHead s then a
          else if i = a then -1 else (m.getNode i).hashListPrev } := by
  unfold pushNodeToHashList
  rcases link_cases hh with hh1 | ⟨h, hh1⟩ <;>
    simp [hh1, setNode, getNode, Function.update_apply] <;>
    split_ifs <;> simp_all

theorem getNode_pushNodeToTimeList (hh : -1 ≤ m.timeListHead) (i : Nat) :
    (m.pushNodeToTimeList a).getNode i =
      { m.getNode i with
        timeListNext := if i = a then m.timeListHead else (m.getNode i).timeListNext
        timeListPrev := if (i : Int) = m.timeListHead then a
          else if i = a then -1 else (m.getNode i).timeListPrev } := by
  unfold pushNodeToTimeList
  rcases link_cases hh with hh1 | ⟨h, hh1⟩ <;>
    simp [hh1, setNode, getNode, Function.update_apply] <;>
    split_ifs <;> simp_all

theorem ringView_removeNodeFromHashList :
    (m.removeNodeFromHashList node nn np).ringView = m.ringView := by
  unfold removeNodeFromHashList
  split_ifs <;> rfl

theorem ringView_removeNodeFromTimeList :
    (m.removeNodeFromTimeList node nn np).ringView = m.ringView := by
  unfold removeNodeFromTimeList
  split_ifs <;> rfl

theorem ringView_pushNodeToHashList : (m.pushNodeToHashList a s).ringView = m.ringView := by
  unfold pushNodeToHashList
  dsimp only
  split_ifs <;> rfl

theorem ringView_pushNodeToTimeList : (m.pushNodeToTimeList a).ringView = m.ringView := by
  unfold pushNodeToTimeList
  dsimp only
  split_ifs <;> rfl

@[simp] theorem hashSlots_removeNodeFromHashList : (m.removeNodeFromHashList node nn np).hashSlots = m.hashSlots := by
  unfold removeNodeFromHashList
  split_ifs <;> rfl

@[simp] theorem hashSlots_removeNodeFromTimeList : (m.removeNodeFromTimeList node nn np).hashSlots = m.hashSlots := by
  unfold removeNodeFromTimeList
  split_ifs <;> rfl

@[simp] theorem hashSlots_pushNodeToHashList : (m.pushNodeToHashList a s).hashSlots = m.hashSlots := by
  unfold pushNodeToHashList
  dsimp only
  split_ifs <;> rfl

@[simp] theorem hashSlots_pushNodeToTimeList : (m.pushNodeToTimeList a).hashSlots = m.hashSlots := by
  unfold pushNodeToTimeList
  dsimp only
  split_ifs <;> rfl

/-! The views after each helper: one list edit, the other views as they were. -/

theorem hashView_removeNodeFromHashList (hp : -1 ≤ node.hashListPrev)
    (hn : -1 ≤ node.hashListNext) :
    (m.removeNodeFromHashList node nn np).hashView =
      ⟨relink m.hashView.next node.hashListPrev nn, relink m.hashView.prev node.hashListNext np,
        if node.hashListPrev = -1 then Function.update m.hashView.head node.hash nn
        else m.hashView.head, m.hashView.key, m.hashView.slot⟩ := by
  have hhead : (m.removeNodeFromHashList node nn np).hashSlotHead =
      if node.hashListPrev = -1 then Function.update m.hashSlotHead node.hash nn
      else m.hashSlotHead := by
    unfold removeNodeFromHashList
    split_ifs <;> simp_all [setNode]
  simp only [hashView, getNode_removeNodeFromHashList m node nn np hp hn, hhead]
  rfl

theorem timeView_removeNodeFromHashList (hp : -1 ≤ node.hashListPrev)
    (hn : -1 ≤ node.hashListNext) :
    (m.removeNodeFromHashList node nn np).timeView = m.timeView := by
  have hhead : (m.removeNodeFromHashList node nn np).timeListHead = m.timeListHead := by
    unfold removeNodeFromHashList
    split_ifs <;> rfl
  have htail : (m.removeNodeFromHashList node nn np).timeListTail = m.timeListTail := by
    unfold removeNodeFromHashList
    split_ifs <;> rfl
  simp only [timeView, getNode_removeNodeFromHashList m node nn np hp hn, hhead, htail]

theorem entry_removeNodeFromHashList (hp : -1 ≤ node.hashListPrev)
    (hn : -1 ≤ node.hashListNext) :
    (m.removeNodeFromHashList node nn np).entry = m.entry := by
  funext i
  simp only [entry, getNode_removeNodeFromHashList m node nn np hp hn]

theorem timeView_removeNodeFromTimeList (hp : -1 ≤ node.timeListPrev)
    (hn : -1 ≤ node.timeListNext) :
    (m.removeNodeFromTimeList node nn np).timeView =
      ⟨relink m.timeView.next node.timeListPrev nn, relink m.timeView.prev node.timeListNext np,
        if node.timeListPrev = -1 then nn else m.timeView.head,
        if node.timeListNext = -1 then np else m.timeView.tail⟩ := by
  have hhead : (m.removeNodeFromTimeList node nn np).timeListHead =
      if node.timeListPrev = -1 then nn else m.timeListHead := by
    unfold removeNodeFromTimeList
    split_ifs <;> simp_all [setNode]
  have htail : (m.removeNodeFromTimeList node nn np).timeListTail =
      if node.timeListNext = -1 then np else m.timeListTail := by
    unfold removeNodeFromTimeList
    split_ifs <;> simp_all [setNode]
  simp only [timeView, getNode_removeNodeFromTimeList m node nn np hp hn, hhead, htail]
  rfl

theorem hashView_removeNodeFromTimeList (hp : -1 ≤ node.timeListPrev)
    (hn : -1 ≤ node.timeListNext) :
    (m.removeNodeFromTimeList node nn np).hashView = m.hashView := by
  have hhead : (m.removeNodeFromTimeList node nn np).hashSlotHead = m.hashSlotHead := by
    unfold removeNodeFromTimeList
    split_ifs <;> rfl
  simp only [hashView, getNode_removeNodeFromTimeList m node nn np hp hn, hhead]

theorem entry_removeNodeFromTimeList (hp : -1 ≤ node.timeListPrev)
    (hn : -1 ≤ node.timeListNext) :
    (m.removeNodeFromTimeList node nn np).entry = m.entry := by
  funext i
  simp only [entry, getNode_removeNodeFromTimeList m node nn np hp hn]

theorem hashView_pushNodeToHashList (hh : -1 ≤ m.hashSlotHead s) :
    (m.pushNodeToHashList a s).hashView =
      ⟨Function.update m.hashView.next a (m.hashView.head s),
        relink (Function.update m.hashView.prev a (-1)) (m.hashView.head s) a,
        Function.update m.hashView.head s a, m.hashView.key, m.hashView.slot⟩ := by
  have hhead : (m.pushNodeToHashList a s).hashSlotHead = Function.update m.hashSlotHead s a := by
    unfold pushNodeToHashList
    dsimp only
    split_ifs <;> rfl
  simp only [hashView, getNode_pushNodeToHashList m a s hh, hhead, HashView.mk.injEq, and_true]
  constructor <;> funext i <;> by_cases hi : i = a <;> simp [hi]

theorem timeView_pushNodeToHashList (hh : -1 ≤ m.hashSlotHead s) :
    (m.pushNodeToHashList a s).timeView = m.timeView := by
  have hhead : (m.pushNodeToHashList a s).timeListHead = m.timeListHead := by
    unfold pushNodeToHashList
    dsimp only
    split_ifs <;> rfl
  have htail : (m.pushNodeToHashList a s).timeListTail = m.timeListTail := by
    unfold pushNodeToHashList
    dsimp only
    split_ifs <;> rfl
  simp only [timeView, getNode_pushNodeToHashList m a s hh, hhead, htail]

theorem entry_pushNodeToHashList (hh : -1 ≤ m.hashSlotHead s) :
    (m.pushNodeToHashList a s).entry = m.entry := by
  funext i
  simp only [entry, getNode_pushNodeToHashList m a s hh]

theorem timeView_pushNodeToTimeList (hh : -1 ≤ m.timeListHead) :
    (m.pushNodeToTimeList a).timeView =
      ⟨Function.update m.timeView.next a m.timeView.head,
        relink (Function.update m.timeView.prev a (-1)) m.timeView.head a, a,
        if m.timeView.tail = -1 then (a : Int) else m.timeView.tail⟩ := by
  have hhead : (m.pushNodeToTimeList a).timeListHead = a := by
    unfold pushNodeToTimeList
    dsimp only
    split_ifs <;> rfl
  have htail : (m.pushNodeToTimeList a).timeListTail =
      if m.timeListTail = -1 then (a : Int) else m.timeListTail := by
    unfold pushNodeToTimeList
    dsimp only
    split_ifs <;> simp_all [setNode]
  simp only [timeView, getNode_pushNodeToTimeList m a hh, hhead, htail, TimeView.mk.injEq]
  refine ⟨?_, ?_, trivial, rfl⟩ <;> funext i <;> by_cases hi : i = a <;> simp [hi]

theorem hashView_pushNodeToTimeList (hh : -1 ≤ m.timeListHead) :
    (m.pushNodeToTimeList a).hashView = m.hashView := by
  have hhead : (m.pushNodeToTimeList a).hashSlotHead = m.hashSlotHead := by
    unfold pushNodeToTimeList
    dsimp only
    split_ifs <;> rfl
  simp only [hashView, getNode_pushNodeToTimeList m a hh, hhead]

theorem entry_pushNodeToTimeList (hh : -1 ≤ m.timeListHead) :
    (m.pushNodeToTimeList a).entry = m.entry := by
  funext i
  simp only [entry, getNode_pushNodeToTimeList m a hh]

end Helpers

end U128LRU

end Sophon.Server
