/-
The calls of `U128LRU` refine the abstract LRU map over every run from a new map,
and so do those of `U64LRU`: the two maps of `server/libs/hmap/lru`.

`find` walks the collision chain of the keys' slot, which holds exactly the live
nodes that keep that slot, and `Inv.slot` says that the node holding the keys is
one of them: so `find` finds it when the abstract map holds the keys and nothing
otherwise.  Each call is then the abstract operation on the entries, and `Walk`
reads the time list back as the entries.
-/
import Sophon.Server.U128LruRefine
import Sophon.Server.U64LruRun

namespace Sophon.Server

open LinkList

variable {V : Type}

namespace U128LRU

variable {m : U128LRU V} {entries : List ((UInt64 × UInt64) × Option V)}

/-! ### The capacity -/

theorem capacity_updateNode (m : U128LRU V) (i : Nat) (v : Option V) :
    (m.updateNode i v).capacity = m.capacity := by
  have hcap : ∀ m' : U128LRU V, m'.ringView = m.ringView → m'.capacity = m.capacity :=
    fun _ h => congrArg RingView.capacity h
  unfold U128LRU.updateNode
  dsimp only
  split_ifs <;> refine hcap _ ?_ <;>
    simp only [ringView_setNode, ringView_pushNodeToTimeList, ringView_removeNodeFromTimeList,
      ringView_pushNodeToHashList, ringView_removeNodeFromHashList]

theorem capacity_newNode (m : U128LRU V) (k0 k1 : UInt64) (v : Option V) (hash : Nat) :
    (m.newNode k0 k1 v hash).capacity = m.capacity := by
  unfold U128LRU.newNode
  dsimp only
  have h := fun (m' : U128LRU V) (a s : Nat) =>
    congrArg RingView.capacity (ringView_pushNodeToTimeList (m'.pushNodeToHashList a s) a)
  have h' := fun (m' : U128LRU V) (a s : Nat) =>
    congrArg RingView.capacity (ringView_pushNodeToHashList m' a s)
  split_ifs
  · exact (h _ _ _).trans ((h' _ _ _).trans (capacity_removeNode _ _))
  · exact (h _ _ _).trans (h' _ _ _)

/-- **No call changes the capacity.** -/
theorem capacity_call (m : U128LRU V) (op : Lru.Op (UInt64 × UInt64) (Option V)) :
    (m.call op).capacity = m.capacity := by
  cases op with
  | add k v =>
      show (m.add k.1 k.2 v).capacity = m.capacity
      unfold U128LRU.add
      split
      · exact capacity_updateNode _ _ _
      · exact capacity_newNode _ _ _ _ _
  | get k peek =>
      show (m.get k.1 k.2 peek).2.capacity = m.capacity
      unfold U128LRU.get
      split
      · cases peek
        · exact capacity_updateNode _ _ _
        · rfl
      · rfl
  | remove k =>
      show (m.remove k.1 k.2).capacity = m.capacity
      unfold U128LRU.remove
      split
      · exact capacity_removeNode _ _
      · rfl
  | clear => rfl

/-! ### `find` -/

/-- The keys' `==` is the `=` the abstract map looks keys up with. -/
theorem lookup_pair (entries : List ((UInt64 × UInt64) × Option V)) (k : UInt64 × UInt64) :
    entries.lookup k = @List.lookup _ _ instBEqOfDecidableEq k entries :=
  Lru.lookup_lawfulBEq k entries

/-- `find` searches the whole collision chain of the keys' slot. -/
theorem Inv.find_eq (h : Inv m entries) (key0 key1 : UInt64) :
    ∃ H : List Nat, (∀ j, j ∈ H ↔ j ∈ m.ringView.live ∧
        (m.getNode j).hash = m.compressHash key0 key1) ∧
      m.find key0 key1 = H.find? fun i => (m.getNode i).key0 == key0 && (m.getNode i).key1 == key1 := by
  obtain ⟨H, hL, hmem⟩ := h.hash (m.compressHash key0 key1)
  have hlen : H.length ≤ m.slots := by
    have hsub := List.Nodup.length_le_of_subset hL.nodup fun j hj => ((hmem j).mp hj).1
    rw [RingView.length_live] at hsub
    have := h.ring.size_le
    have := h.ring.capacity_lt
    exact Nat.le_of_lt (Nat.lt_of_le_of_lt hsub (Nat.lt_of_le_of_lt ‹_› ‹_›))
  refine ⟨H, hmem, ?_⟩
  unfold find
  exact congrArg (List.find? _) (hL.walk_eq hlen)

/-- What `find` finds is a live node of the keys. -/
theorem Inv.find_some (h : Inv m entries) {key0 key1 : UInt64} {i : Nat}
    (hf : m.find key0 key1 = some i) :
    i ∈ m.ringView.live ∧ (m.entry i).1 = (key0, key1) := by
  obtain ⟨H, hmem, hfind⟩ := h.find_eq key0 key1
  rw [hfind] at hf
  have hk := List.find?_some hf
  simp only [Bool.and_eq_true, beq_iff_eq] at hk
  exact ⟨((hmem i).mp (List.mem_of_find?_eq_some hf)).1, by rw [entry, hk.1, hk.2]⟩

/-- When `find` finds nothing, the abstract map does not hold the keys. -/
theorem Inv.find_none (h : Inv m entries) {key0 key1 : UInt64}
    (hf : m.find key0 key1 = none) : (key0, key1) ∉ entries.map Prod.fst := by
  obtain ⟨H, hmem, hfind⟩ := h.find_eq key0 key1
  obtain ⟨T, -, hperm, hentries⟩ := h.time
  rw [hfind, List.find?_eq_none] at hf
  rw [← hentries, List.map_map]
  intro hk
  obtain ⟨j, hj, hjk⟩ := List.mem_map.mp hk
  have hjl : j ∈ m.ringView.live := hperm.mem_iff.mp hj
  have hjk' : (m.getNode j).key0 = key0 ∧ (m.getNode j).key1 = key1 := Prod.mk.inj hjk
  -- the node holding the keys keeps their slot, so it is on the chain `find` walks
  have hslot : (m.getNode j).hash = m.compressHash key0 key1 := by
    have := h.slot j hjl
    unfold SlotOK entry at this
    rw [← hjk'.1, ← hjk'.2]
    exact this
  have hjH : j ∈ H := (hmem j).mpr ⟨hjl, hslot⟩
  exact hf j hjH (by simp [hjk'.1, hjk'.2])

/-- The node `find` finds holds the abstract map's value of the keys. -/
theorem Inv.lookup_find (h : Inv m entries) (hkeys : (entries.map Prod.fst).Nodup)
    {key0 key1 : UInt64} {i : Nat} (hf : m.find key0 key1 = some i) :
    entries.lookup (key0, key1) = some (m.getNode i).value := by
  obtain ⟨hi, hk⟩ := h.find_some hf
  obtain ⟨T, -, hperm, hentries⟩ := h.time
  rw [lookup_pair, Lru.lookup_eq_some_iff hkeys, ← hentries, ← hk]
  exact List.mem_map_of_mem (f := m.entry) (hperm.mem_iff.mpr hi)

/-! ### The calls -/

/-- **`Add`** is the abstract `add` at the map's capacity. -/
theorem Inv.add (h : Inv m entries) (hkeys : (entries.map Prod.fst).Nodup) (key0 key1 : UInt64)
    (value : Option V) :
    Inv (m.add key0 key1 value) (Lru.add m.capacity (key0, key1) value entries) := by
  unfold U128LRU.add Lru.add
  split
  · rename_i i hf
    have hlook := h.lookup_find hkeys hf
    rw [lookup_pair] at hlook
    obtain ⟨hi, hk⟩ := h.find_some hf
    rw [if_pos (by rw [hlook]; rfl), ← hk]
    exact h.updateNode hkeys hi value
  · rename_i hf
    have hlook := Lru.lookup_eq_none_iff.mpr (h.find_none hf)
    rw [if_neg (by rw [hlook]; exact Bool.false_ne_true)]
    exact h.newNode hkeys key0 key1 value

/-- **`Get`** hands back the abstract map's value and `ok`, and its reordering is
the abstract one. -/
theorem Inv.get (h : Inv m entries) (hkeys : (entries.map Prod.fst).Nodup) (key0 key1 : UInt64)
    (peek : Bool) :
    (m.get key0 key1 peek).1 =
        ((entries.lookup (key0, key1)).getD none, (entries.lookup (key0, key1)).isSome) ∧
      Inv (m.get key0 key1 peek).2 (Lru.get peek (key0, key1) entries).2 := by
  unfold U128LRU.get Lru.get
  rw [lookup_pair]
  split
  · rename_i i hf
    have hlook := h.lookup_find hkeys hf
    obtain ⟨hi, hk⟩ := h.find_some hf
    rw [lookup_pair] at hlook
    rw [hlook]
    refine ⟨rfl, ?_⟩
    cases peek
    · have := h.updateNode hkeys hi (m.getNode i).value
      rwa [hk] at this
    · exact h
  · rename_i hf
    rw [Lru.lookup_eq_none_iff.mpr (h.find_none hf)]
    exact ⟨rfl, h⟩

/-- **`AddOrGet`** hands back the value a present key holds and touches it as `Get`
does, and adds a missing key as `Add` does. -/
theorem Inv.addOrGet (h : Inv m entries) (hkeys : (entries.map Prod.fst).Nodup)
    (key0 key1 : UInt64) (value : Option V) :
    (m.addOrGet key0 key1 value).1 = entries.lookup (key0, key1) ∧
      Inv (m.addOrGet key0 key1 value).2
        (if (entries.lookup (key0, key1)).isSome then (Lru.get false (key0, key1) entries).2
          else Lru.add m.capacity (key0, key1) value entries) := by
  unfold U128LRU.addOrGet
  rw [lookup_pair]
  split
  · rename_i i hf
    have hlook := h.lookup_find hkeys hf
    obtain ⟨hi, hk⟩ := h.find_some hf
    rw [lookup_pair] at hlook
    refine ⟨hlook.symm, ?_⟩
    rw [hlook, Option.isSome_some, if_pos rfl]
    unfold Lru.get
    rw [hlook]
    have := h.updateNode hkeys hi (m.getNode i).value
    rwa [hk] at this
  · rename_i hf
    have hlook := Lru.lookup_eq_none_iff.mpr (h.find_none hf)
    refine ⟨hlook.symm, ?_⟩
    rw [hlook, Option.isSome_none, if_neg Bool.false_ne_true]
    unfold Lru.add
    rw [hlook, Option.isSome_none, if_neg Bool.false_ne_true]
    exact h.newNode hkeys key0 key1 value

/-- **`Remove`** erases the keys from the abstract map. -/
theorem Inv.remove (h : Inv m entries) (hkeys : (entries.map Prod.fst).Nodup)
    (key0 key1 : UInt64) :
    Inv (m.remove key0 key1) (Lru.erase (key0, key1) entries) := by
  unfold U128LRU.remove
  split
  · rename_i i hf
    obtain ⟨hi, hk⟩ := h.find_some hf
    rw [← hk]
    exact h.removeNode hkeys hi
  · rename_i hf
    rw [Lru.erase_of_not_mem (h.find_none hf)]
    exact h

/-- A map with no live node stands for the empty abstract map. -/
theorem Inv.of_empty (hr : m.ringView.WF) (hsize : m.size = 0)
    (hh : ∀ s, m.hashSlotHead s = -1) (ht : m.timeListHead = -1) (htl : m.timeListTail = -1) :
    Inv m [] := by
  have hlive : m.ringView.live = [] := by
    rw [← List.length_eq_zero_iff, RingView.length_live]
    exact hsize
  have hnil : ∀ {next prev : Nat → Int}, Linked next prev (-1) [] :=
    ⟨List.nodup_nil, rfl, trivial⟩
  refine ⟨hr, fun s => ⟨[], ?_, fun j => ?_⟩, fun j hj => ?_, [], ⟨?_, ?_⟩, ?_, rfl⟩
  · rw [hashView_head, hh s]
    exact hnil
  · simp [hlive]
  · rw [hlive] at hj
    exact absurd hj List.not_mem_nil
  · rw [timeView_head, ht]
    exact hnil
  · rw [timeView_tail, htl]
    rfl
  · rw [hlive]

/-- **`Clear`** empties the abstract map. -/
theorem Inv.clear (h : Inv m entries) : Inv m.clear [] := by
  have hslots : 0 < m.ringView.slots := Nat.lt_of_le_of_lt (Nat.zero_le _) h.ring.capacity_lt
  refine Inv.of_empty ⟨h.ring.capacity_pos, h.ring.capacity_lt, Nat.zero_le _, hslots, ?_⟩ rfl
    (fun _ => rfl) rfl rfl
  show 0 = (0 + 0) % m.ringView.slots
  rw [Nat.zero_add, Nat.zero_mod]

/-- One call is the abstract operation at the map's capacity. -/
theorem Inv.call (h : Inv m entries) (hkeys : (entries.map Prod.fst).Nodup) :
    ∀ op, Inv (m.call op) (Lru.step m.capacity entries op)
  | .add k v => h.add hkeys k.1 k.2 v
  | .get k peek => (h.get hkeys k.1 k.2 peek).2
  | .remove k => h.remove hkeys k.1 k.2
  | .clear => h.clear

/-- `Walk` visits the entries, most recent first. -/
theorem Inv.walk_eq (h : Inv m entries) : m.walk = entries := by
  obtain ⟨T, hT, hperm, hentries⟩ := h.time
  have hlen : T.length ≤ m.slots := by
    rw [hperm.length_eq, RingView.length_live]
    have := h.ring.size_le
    have := h.ring.capacity_lt
    exact Nat.le_of_lt (Nat.lt_of_le_of_lt ‹_› ‹_›)
  unfold walk
  rw [← hentries]
  exact congrArg (List.map m.entry) (hT.1.walk_eq hlen)

/-- **Every run of calls refines the abstract run**, and keeps the capacity. -/
theorem Inv.run (h : Inv m entries) (hwf : Lru.WF m.capacity entries)
    (ops : List (Lru.Op (UInt64 × UInt64) (Option V))) :
    Inv (m.run ops) (ops.foldl (Lru.step m.capacity) entries) ∧
      (m.run ops).capacity = m.capacity := by
  induction ops generalizing m entries with
  | nil => exact ⟨h, rfl⟩
  | cons op ops ih =>
      have hcap := capacity_call m op
      have h1 := h.call hwf.nodup op
      have hwf1 : Lru.WF (m.call op).capacity (Lru.step m.capacity entries op) := by
        rw [hcap]
        exact hwf.step h.ring.capacity_pos op
      obtain ⟨hrun, hcap'⟩ := ih h1 hwf1
      rw [hcap] at hrun hcap'
      exact ⟨hrun, hcap'⟩

end U128LRU

end Sophon.Server
