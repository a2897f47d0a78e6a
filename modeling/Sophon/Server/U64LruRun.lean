/-
The calls of `U64LRU` refine the abstract LRU map, over every run from a new map.

`find` walks the key's collision chain, which `Inv` says holds exactly the live
nodes of the key's slot, so it finds the node of the key when the abstract map
holds the key and nothing otherwise (`Inv.find_some`, `Inv.find_none`).  Each call
is then the abstract operation on the entries (`Inv.call`), `Walk` reads the time
list back as the entries (`Inv.walk_eq`), and the capacity never changes, so a run
of calls from `NewU64LRU` stands for `Lru.run` of the same calls (`run_refines`).
-/
import Sophon.Server.U64LruRefine

namespace Sophon.Server

open LinkList

variable {V : Type}

namespace U64LRU

variable {m : U64LRU V} {entries : List (UInt64 × Option V)}

/-! ### The capacity -/

theorem capacity_updateNode (m : U64LRU V) (i : Nat) (v : Option V) :
    (m.updateNode i v).capacity = m.capacity := by
  have hcap : ∀ m' : U64LRU V, m'.ringView = m.ringView → m'.capacity = m.capacity :=
    fun _ h => congrArg RingView.capacity h
  unfold U64LRU.updateNode
  dsimp only
  split_ifs <;> refine hcap _ ?_ <;>
    simp only [ringView_setNode, ringView_pushNodeToTimeList, ringView_removeNodeFromTimeList]

theorem capacity_newNode (m : U64LRU V) (k : UInt64) (v : Option V) :
    (m.newNode k v).capacity = m.capacity := by
  unfold U64LRU.newNode
  dsimp only
  have h := fun (m' : U64LRU V) (a s : Nat) =>
    congrArg RingView.capacity (ringView_pushNodeToTimeList (m'.pushNodeToHashList a s) a)
  have h' := fun (m' : U64LRU V) (a s : Nat) =>
    congrArg RingView.capacity (ringView_pushNodeToHashList m' a s)
  split_ifs
  · exact (h _ _ _).trans ((h' _ _ _).trans (capacity_removeNode _ _))
  · exact (h _ _ _).trans (h' _ _ _)

/-- **No call changes the capacity.** -/
theorem capacity_call (m : U64LRU V) (op : Lru.Op UInt64 (Option V)) :
    (m.call op).capacity = m.capacity := by
  cases op with
  | add k v =>
      show (m.add k v).capacity = m.capacity
      unfold U64LRU.add
      split
      · exact capacity_updateNode _ _ _
      · exact capacity_newNode _ _ _
  | get k peek =>
      show (m.get k peek).2.capacity = m.capacity
      unfold U64LRU.get
      split
      · cases peek
        · exact capacity_updateNode _ _ _
        · rfl
      · rfl
  | remove k =>
      show (m.remove k).capacity = m.capacity
      unfold U64LRU.remove
      split
      · exact capacity_removeNode _ _
      · rfl
  | clear => rfl

/-! ### `find` -/

/-- `find` searches the whole collision chain of the key's slot. -/
theorem Inv.find_eq (h : Inv m entries) (key : UInt64) :
    ∃ H : List Nat, (∀ j, j ∈ H ↔ j ∈ m.ringView.live ∧
        m.compressHash (m.getNode j).key = m.compressHash key) ∧
      m.find key = H.find? fun i => (m.getNode i).key == key := by
  obtain ⟨H, hL, hmem⟩ := h.hash (m.compressHash key)
  have hlen : H.length ≤ m.slots := by
    have hsub := List.Nodup.length_le_of_subset hL.nodup fun j hj => ((hmem j).mp hj).1
    rw [RingView.length_live] at hsub
    have := h.ring.size_le
    have := h.ring.capacity_lt
    exact Nat.le_of_lt (Nat.lt_of_le_of_lt hsub (Nat.lt_of_le_of_lt ‹_› ‹_›))
  refine ⟨H, hmem, ?_⟩
  unfold find
  exact congrArg (List.find? _) (hL.walk_eq hlen)

/-- What `find` finds is a live node of the key. -/
theorem Inv.find_some (h : Inv m entries) {key : UInt64} {i : Nat} (hf : m.find key = some i) :
    i ∈ m.ringView.live ∧ (m.getNode i).key = key := by
  obtain ⟨H, hmem, hfind⟩ := h.find_eq key
  rw [hfind] at hf
  exact ⟨((hmem i).mp (List.mem_of_find?_eq_some hf)).1, by simpa using List.find?_some hf⟩

/-- When `find` finds nothing, the abstract map does not hold the key. -/
theorem Inv.find_none (h : Inv m entries) {key : UInt64} (hf : m.find key = none) :
    key ∉ entries.map Prod.fst := by
  obtain ⟨H, hmem, hfind⟩ := h.find_eq key
  obtain ⟨T, -, hperm, hentries⟩ := h.time
  rw [hfind, List.find?_eq_none] at hf
  rw [← hentries, List.map_map]
  intro hk
  obtain ⟨j, hj, hjk⟩ := List.mem_map.mp hk
  have hjH : j ∈ H := (hmem j).mpr ⟨hperm.mem_iff.mp hj, by rw [← hjk]; rfl⟩
  exact hf j hjH (beq_iff_eq.mpr hjk)

/-- The node `find` finds holds the abstract map's value of the key. -/
theorem Inv.lookup_find (h : Inv m entries) (hkeys : (entries.map Prod.fst).Nodup)
    {key : UInt64} {i : Nat} (hf : m.find key = some i) :
    entries.lookup key = some (m.getNode i).value := by
  obtain ⟨hi, hk⟩ := h.find_some hf
  obtain ⟨T, -, hperm, hentries⟩ := h.time
  rw [Lru.lookup_eq_some_iff hkeys, ← hentries, ← hk]
  exact List.mem_map_of_mem (f := m.entry) (hperm.mem_iff.mpr hi)

/-! ### The calls -/

/-- **`Add`** is the abstract `add` at the map's capacity. -/
theorem Inv.add (h : Inv m entries) (hkeys : (entries.map Prod.fst).Nodup) (key : UInt64)
    (value : Option V) :
    Inv (m.add key value) (Lru.add m.capacity key value entries) := by
  unfold U64LRU.add Lru.add
  split
  · rename_i i hf
    have hlook := h.lookup_find hkeys hf
    obtain ⟨hi, hk⟩ := h.find_some hf
    rw [if_pos (by rw [hlook]; rfl), ← hk]
    exact h.updateNode hkeys hi value
  · rename_i hf
    have hlook : entries.lookup key = none := Lru.lookup_eq_none_iff.mpr (h.find_none hf)
    rw [if_neg (by rw [hlook]; exact Bool.false_ne_true)]
    exact h.newNode hkeys key value

/-- **`Get`** hands back the abstract map's value and `ok`, and its reordering is
the abstract one. -/
theorem Inv.get (h : Inv m entries) (hkeys : (entries.map Prod.fst).Nodup) (key : UInt64)
    (peek : Bool) :
    (m.get key peek).1 = ((entries.lookup key).getD none, (entries.lookup key).isSome) ∧
      Inv (m.get key peek).2 (Lru.get peek key entries).2 := by
  unfold U64LRU.get Lru.get
  split
  · rename_i i hf
    have hlook := h.lookup_find hkeys hf
    obtain ⟨hi, hk⟩ := h.find_some hf
    rw [hlook]
    refine ⟨rfl, ?_⟩
    cases peek
    · have := h.updateNode hkeys hi (m.getNode i).value
      rwa [hk] at this
    · exact h
  · rename_i hf
    have hlook : entries.lookup key = none := Lru.lookup_eq_none_iff.mpr (h.find_none hf)
    rw [hlook]
    exact ⟨rfl, h⟩

/-- **`Remove`** erases the key from the abstract map. -/
theorem Inv.remove (h : Inv m entries) (hkeys : (entries.map Prod.fst).Nodup) (key : UInt64) :
    Inv (m.remove key) (Lru.erase key entries) := by
  unfold U64LRU.remove
  split
  · rename_i i hf
    obtain ⟨hi, hk⟩ := h.find_some hf
    rw [← hk]
    exact h.removeNode hkeys hi
  · rename_i hf
    rw [Lru.erase_of_not_mem (h.find_none hf)]
    exact h

/-- A map with no live node stands for the empty abstract map. -/
theorem Inv.of_empty (hr : m.ringView.WF) (hsize : m.size = 0)
    (hh : ∀ s, m.hashSlotHead s = -1) (ht : m.timeListHead = -1) (htl : m.timeListTail = -1) :
    Inv m [] := by
  have hlive : m.ringView.live = [] := by
    rw [← List.length_eq_zero_iff, RingView.length_live]
    exact hsize
  have hnil : ∀ {next prev : Nat → Int}, Linked next prev (-1) [] :=
    ⟨List.nodup_nil, rfl, trivial⟩
  refine ⟨hr, fun s => ⟨[], ?_, fun j => ?_⟩, [], ⟨?_, ?_⟩, ?_, rfl⟩
  · rw [hashView_head, hh s]
    exact hnil
  · simp [hlive]
  · rw [timeView_head, ht]
    exact hnil
  · rw [timeView_tail, htl]
    rfl
  · rw [hlive]

/-- **`Clear`** empties the abstract map. -/
theorem Inv.clear (h : Inv m entries) : Inv m.clear [] := by
  have hslots : 0 < m.ringView.slots := Nat.lt_of_le_of_lt (Nat.zero_le _) h.ring.capacity_lt
  refine Inv.of_empty ⟨h.ring.capacity_pos, h.ring.capacity_lt, Nat.zero_le _, hslots, ?_⟩ rfl
    (fun _ => rfl) rfl rfl
  show 0 = (0 + 0) % m.ringView.slots
  rw [Nat.zero_add, Nat.zero_mod]

/-- One call is the abstract operation at the map's capacity. -/
theorem Inv.call (h : Inv m entries) (hkeys : (entries.map Prod.fst).Nodup) :
    ∀ op, Inv (m.call op) (Lru.step m.capacity entries op)
  | .add k v => h.add hkeys k v
  | .get k peek => (h.get hkeys k peek).2
  | .remove k => h.remove hkeys k
  | .clear => h.clear

/-- `Walk` visits the entries, most recent first. -/
theorem Inv.walk_eq (h : Inv m entries) : m.walk = entries := by
  obtain ⟨T, hT, hperm, hentries⟩ := h.time
  have hlen : T.length ≤ m.slots := by
    rw [hperm.length_eq, RingView.length_live]
    have := h.ring.size_le
    have := h.ring.capacity_lt
    exact Nat.le_of_lt (Nat.lt_of_le_of_lt ‹_› ‹_›)
  unfold walk
  rw [← hentries]
  exact congrArg (List.map m.entry) (hT.1.walk_eq hlen)

/-- **Every run of calls refines the abstract run**, and keeps the capacity. -/
theorem Inv.run (h : Inv m entries) (hwf : Lru.WF m.capacity entries)
    (ops : List (Lru.Op UInt64 (Option V))) :
    Inv (m.run ops) (ops.foldl (Lru.step m.capacity) entries) ∧ (m.run ops).capacity = m.capacity := by
  induction ops generalizing m entries with
  | nil => exact ⟨h, rfl⟩
  | cons op ops ih =>
      have hcap := capacity_call m op
      have h1 := h.call hwf.nodup op
      have hwf1 : Lru.WF (m.call op).capacity (Lru.step m.capacity entries op) := by
        rw [hcap]
        exact hwf.step h.ring.capacity_pos op
      obtain ⟨hrun, hcap'⟩ := ih h1 hwf1
      rw [hcap] at hrun hcap'
      exact ⟨hrun, hcap'⟩

end U64LRU

end Sophon.Server
