/-
The calls of `U64DoubleKeyLRU` refine the abstract double-key map, over every run
from a new map.

`find` walks the key's collision chain, which `Inv` says holds exactly the live
nodes of the key's slot (`Inv.find_some`, `Inv.find_none`).  `Add` is the abstract
`add`, which keeps the short key of a key the map holds, and `AddByShortKey` is one
`Add` for each key.  `RemoveByShortKey` walks the relation chain of its short key
while `removeNode` edits that chain: `Sweep` says where the walk stands, one turn
keeps it with less of the chain left (`sweep_next`), and at the end of the chain no
node under the short key is left (`sweep_done`), so the walk removes exactly the
abstract entries under the short key and counts them (`Inv.removeByShortKey`).
`PeekByShortKey` reads the values under a short key in the chain's order, which is
not the recency order: they are a permutation of the abstract ones
(`Inv.peekByShortKey`).  A run of calls from `NewU64DoubleKeyLRU` then stands for
`Lru.DoubleKey.run` of the same calls (`Inv.run`).
-/
import Sophon.Server.U64DoubleKeyLruRefine

namespace Sophon.Server

open LinkList

variable {V : Type}

namespace U64DoubleKeyLRU

/-- The map's entries along the time list, most recent first: what `Walk` visits,
with the short keys. -/
def toList (m : U64DoubleKeyLRU V) : List (UInt64 × UInt64 × Option V) :=
  (LinkList.walk (fun i => (m.getNode i).timeListNext) m.slots m.timeListHead).map m.entry

theorem walk_eq_toList (m : U64DoubleKeyLRU V) : m.walk = m.toList.map fun e => (e.1, e.2.2) := by
  simp only [walk, toList, List.map_map]
  rfl

variable {m : U64DoubleKeyLRU V} {entries : List (UInt64 × UInt64 × Option V)}

/-! ### What the invariant says of the cells -/

/-- A list of distinct live cells is shorter than the ring. -/
theorem Inv.length_lt_slots (h : Inv m entries) {l : List Nat} (hnd : l.Nodup)
    (hl : ∀ j ∈ l, j ∈ m.ringView.live) : l.length < m.slots := by
  have hsub := List.Nodup.length_le_of_subset hnd hl
  rw [RingView.length_live] at hsub
  have := h.ring.size_le
  have := h.ring.capacity_lt
  exact Nat.lt_of_le_of_lt hsub (Nat.lt_of_le_of_lt ‹_› ‹_›)

/-- The entry of a live cell is an entry of the abstract map. -/
theorem Inv.entry_mem (h : Inv m entries) {i : Nat} (hi : i ∈ m.ringView.live) :
    m.entry i ∈ entries := by
  obtain ⟨T, -, hperm, rfl⟩ := h.time
  exact List.mem_map_of_mem (hperm.mem_iff.mpr hi)

/-- Every entry of the abstract map is the entry of a live cell. -/
theorem Inv.exists_of_mem (h : Inv m entries) {e : UInt64 × UInt64 × Option V} (he : e ∈ entries) :
    ∃ i ∈ m.ringView.live, m.entry i = e := by
  obtain ⟨T, -, hperm, rfl⟩ := h.time
  obtain ⟨i, hi, rfl⟩ := List.mem_map.mp he
  exact ⟨i, hperm.mem_iff.mp hi, rfl⟩

theorem capacity_updateNode (m : U64DoubleKeyLRU V) (i : Nat) (v : Option V) :
    (m.updateNode i v).capacity = m.capacity := by
  have hcap : ∀ m' : U64DoubleKeyLRU V, m'.ringView = m.ringView → m'.capacity = m.capacity :=
    fun _ h => congrArg RingView.capacity h
  unfold U64DoubleKeyLRU.updateNode
  dsimp only
  split_ifs <;> refine hcap _ ?_ <;>
    simp only [ringView_setNode, pushNodeToTimeList_fields, removeNodeFromTimeList_fields]

/-- The steps of `newNode` after the eviction keep the capacity. -/
theorem capacity_push (m : U64DoubleKeyLRU V) (key shortKey : UInt64) (value : Option V) :
    let m1 := { m with size := m.size + 1 }
    let m2 := m1.pushNodeToHashList m.bufferEndIndex (m1.compressHash key)
    let m3 := (m2.pushNodeToRelationHashList m.bufferEndIndex
      (m2.compressRelationHash shortKey)).pushNodeToTimeList m.bufferEndIndex
    let m4 := m3.setNode m.bufferEndIndex
      { m3.getNode m.bufferEndIndex with key := key, shortKey := shortKey, value := value }
    ({ m4 with bufferEndIndex := m4.incIndex m.bufferEndIndex } : U64DoubleKeyLRU V).capacity =
      m.capacity := by
  have hcap : ∀ m' : U64DoubleKeyLRU V, m'.capacity = m'.ringView.capacity := fun _ => rfl
  dsimp only [pushNodeToHashList, pushNodeToRelationHashList]
  rw [hcap, ringView_setNode, (pushNodeToTimeList_fields _ _).2.1, (pushNodeToList_fields _ _ _ _).2.1,
    (pushNodeToList_fields _ _ _ _).2.1]
  rfl

theorem capacity_newNode (m : U64DoubleKeyLRU V) (k s : UInt64) (v : Option V) :
    (m.newNode k s v).capacity = m.capacity := by
  unfold U64DoubleKeyLRU.newNode
  dsimp only
  split_ifs
  · exact (capacity_push _ k s v).trans (removeNode_fields _ _).2
  · exact capacity_push m k s v

theorem capacity_add (m : U64DoubleKeyLRU V) (k s : UInt64) (v : Option V) :
    (m.add k s v).capacity = m.capacity := by
  unfold U64DoubleKeyLRU.add
  split
  · exact capacity_updateNode _ _ _
  · exact capacity_newNode _ _ _ _

/-! ### `find` -/

/-- `find` searches the whole collision chain of the key's slot. -/
theorem Inv.find_eq (h : Inv m entries) (key : UInt64) :
    ∃ H : List Nat, (∀ j, j ∈ H ↔ j ∈ m.ringView.live ∧
        m.compressHash (m.getNode j).key = m.compressHash key) ∧
      m.find key = H.find? fun i => (m.getNode i).key == key := by
  obtain ⟨H, hL, hmem⟩ := h.chains .hash (m.compressHash key)
  refine ⟨H, hmem, ?_⟩
  unfold find
  exact congrArg (List.find? _) (hL.walk_eq (Nat.le_of_lt (h.length_lt_slots hL.nodup
    fun j hj => ((hmem j).mp hj).1)))

/-- What `find` finds is a live node of the key. -/
theorem Inv.find_some (h : Inv m entries) {key : UInt64} {i : Nat} (hf : m.find key = some i) :
    i ∈ m.ringView.live ∧ (m.getNode i).key = key := by
  obtain ⟨H, hmem, hfind⟩ := h.find_eq key
  rw [hfind] at hf
  exact ⟨((hmem i).mp (List.mem_of_find?_eq_some hf)).1, by simpa using List.find?_some hf⟩

/-- When `find` finds nothing, the abstract map does not hold the key. -/
theorem Inv.find_none (h : Inv m entries) {key : UInt64} (hf : m.find key = none) :
    key ∉ entries.map Prod.fst := by
  obtain ⟨H, hmem, hfind⟩ := h.find_eq key
  rw [hfind, List.find?_eq_none] at hf
  intro hk
  obtain ⟨e, he, hek⟩ := List.mem_map.mp hk
  obtain ⟨j, hj, rfl⟩ := h.exists_of_mem he
  have hjH : j ∈ H := (hmem j).mpr ⟨hj, by rw [← hek]; rfl⟩
  exact hf j hjH (beq_iff_eq.mpr hek)

/-- The node `find` finds holds the abstract map's short key and value of the key. -/
theorem Inv.lookup_find (h : Inv m entries) (hkeys : (entries.map Prod.fst).Nodup)
    {key : UInt64} {i : Nat} (hf : m.find key = some i) :
    entries.lookup key = some ((m.getNode i).shortKey, (m.getNode i).value) := by
  obtain ⟨hi, hk⟩ := h.find_some hf
  rw [Lru.lookup_eq_some_iff hkeys, ← hk]
  exact h.entry_mem hi

/-! ### `Add`, `AddByShortKey`, `Remove` and `Get` -/

/-- **`Add`** is the abstract `add` at the map's capacity: a key the map holds keeps
its short key. -/
theorem Inv.add (h : Inv m entries) (hkeys : (entries.map Prod.fst).Nodup)
    (key shortKey : UInt64) (value : Option V) :
    Inv (m.add key shortKey value) (Lru.DoubleKey.add m.capacity key shortKey value entries) := by
  unfold U64DoubleKeyLRU.add Lru.DoubleKey.add Lru.add
  split
  · rename_i i hf
    obtain ⟨hi, hk⟩ := h.find_some hf
    rw [h.lookup_find hkeys hf]
    simp only [Option.isSome_some, if_true, Option.map_some, Option.getD_some]
    rw [← hk]
    exact h.updateNode hkeys hi value
  · rename_i hf
    rw [Lru.lookup_eq_none_iff.mpr (h.find_none hf)]
    simp only [Option.isSome_none, Bool.false_eq_true, if_false, Option.map_none, Option.getD_none]
    exact h.newNode hkeys key shortKey value

/-- **`AddByShortKey`** is the abstract `addMany`: one `Add` for each key. -/
theorem Inv.addByShortKey (h : Inv m entries) (hwf : Lru.WF m.capacity entries)
    (keys : List UInt64) (shortKey : UInt64) (values : List (Option V)) :
    Inv (m.addByShortKey keys shortKey values)
        (Lru.DoubleKey.addMany m.capacity keys shortKey values entries) ∧
      (m.addByShortKey keys shortKey values).capacity = m.capacity := by
  unfold U64DoubleKeyLRU.addByShortKey Lru.DoubleKey.addMany
  by_cases hlen : keys.length = values.length
  · rw [if_neg (not_not.mpr hlen), if_pos hlen]
    suffices ∀ (kvs : List (UInt64 × Option V)) (m : U64DoubleKeyLRU V) entries, Inv m entries →
        Lru.WF m.capacity entries →
        Inv (kvs.foldl (fun m kv => m.add kv.1 shortKey kv.2) m)
            (kvs.foldl (fun l kv => Lru.DoubleKey.add m.capacity kv.1 shortKey kv.2 l) entries) ∧
          (kvs.foldl (fun m kv => m.add kv.1 shortKey kv.2) m).capacity = m.capacity from
      this _ m entries h hwf
    intro kvs
    induction kvs with
    | nil => exact fun m _ h _ => ⟨h, rfl⟩
    | cons kv kvs ih =>
        intro m entries h hwf
        have hcap := capacity_add m kv.1 shortKey kv.2
        have h1 := h.add hwf.nodup kv.1 shortKey kv.2
        have hwf1 : Lru.WF (m.add kv.1 shortKey kv.2).capacity
            (Lru.DoubleKey.add m.capacity kv.1 shortKey kv.2 entries) := by
          rw [hcap]
          exact Lru.DoubleKey.wf_add hwf h.ring.capacity_pos kv.1 shortKey kv.2
        obtain ⟨hrun, hcap'⟩ := ih _ _ h1 hwf1
        rw [hcap] at hrun hcap'
        exact ⟨hrun, hcap'⟩
  · rw [if_pos hlen, if_neg hlen]
    exact ⟨h, rfl⟩

/-- **`Remove`** erases the key from the abstract map. -/
theorem Inv.remove (h : Inv m entries) (hkeys : (entries.map Prod.fst).Nodup) (key : UInt64) :
    Inv (m.remove key) (Lru.erase key entries) ∧ (m.remove key).capacity = m.capacity := by
  unfold U64DoubleKeyLRU.remove
  split
  · rename_i i hf
    obtain ⟨hi, hk⟩ := h.find_some hf
    rw [← hk]
    exact ⟨h.removeNode hkeys hi, (removeNode_fields _ _).2⟩
  · rename_i hf
    rw [Lru.erase_of_not_mem (h.find_none hf)]
    exact ⟨h, rfl⟩

/-- **`Get`** hands back the abstract map's value and whether it holds the key, and
its reordering is the abstract one. -/
theorem Inv.get (h : Inv m entries) (hkeys : (entries.map Prod.fst).Nodup) (key : UInt64)
    (peek : Bool) :
    (m.get key peek).1 = (((entries.lookup key).map Prod.snd).getD none, (entries.lookup key).isSome) ∧
      Inv (m.get key peek).2 (Lru.get peek key entries).2 ∧
      (m.get key peek).2.capacity = m.capacity := by
  unfold U64DoubleKeyLRU.get Lru.get
  split
  · rename_i i hf
    have hlook := h.lookup_find hkeys hf
    obtain ⟨hi, hk⟩ := h.find_some hf
    rw [hlook]
    refine ⟨rfl, ?_⟩
    cases peek
    · have := h.updateNode hkeys hi (m.getNode i).value
      rw [hk] at this
      exact ⟨this, capacity_updateNode _ _ _⟩
    · exact ⟨h, rfl⟩
  · rename_i hf
    rw [Lru.lookup_eq_none_iff.mpr (h.find_none hf)]
    exact ⟨rfl, h, rfl⟩

/-! ### `PeekByShortKey` -/

/-- What one turn of `RemoveByShortKey` does. -/
theorem removeByShortKeyTurn_eq (key : UInt64) (r : Int) (delCount : Nat) (m : U64DoubleKeyLRU V) :
    removeByShortKeyTurn key (r, delCount, m) =
      if r = -1 then .inl (some (delCount, m))
      else if (m.getNode r.toNat).shortKey = key then
        .inr (if (m.removeNode r.toNat).1 ≠ -1 then (m.removeNode r.toNat).1
          else (m.getNode r.toNat).relationHashListNext, delCount + 1, (m.removeNode r.toNat).2)
      else .inr ((m.getNode r.toNat).relationHashListNext, delCount, m) := rfl

/-- Where the walk of `RemoveByShortKey key` stands, started on the abstract map `E0`:
the map stands for `E0` without `delCount` of its entries under `key`; the relation
chain of the slot of `key` is `vs ++ rs`, the cells visited and those left; and no
visited cell holds `key`. -/
structure Sweep (key : UInt64) (E0 : List (UInt64 × UInt64 × Option V)) (c : Nat)
    (m : U64DoubleKeyLRU V) (E : List (UInt64 × UInt64 × Option V)) (C : HashTable → Nat → List Nat)
    (vs rs : List Nat) (delCount : Nat) : Prop where
  inv : Inv m E
  keys : (E.map Prod.fst).Nodup
  capacity : m.capacity = c
  chains : ∀ t, (m.chainView t).Chains (· ∈ m.ringView.live) (C t)
  chain : C .relation (m.compress .relation key) = vs ++ rs
  visited : ∀ j ∈ vs, (m.getNode j).shortKey ≠ key
  count : delCount + (Lru.DoubleKey.removeShort key E).1 = (Lru.DoubleKey.removeShort key E0).1
  rest : (Lru.DoubleKey.removeShort key E).2 = (Lru.DoubleKey.removeShort key E0).2

/-- The state of the loop is a `Sweep` with `n` cells left, the walk at the first. -/
def Sweeping (key : UInt64) (E0 : List (UInt64 × UInt64 × Option V)) (c n : Nat) :
    Int × Nat × U64DoubleKeyLRU V → Prop
  | (relationHashListNext, delCount, m) => ∃ E C vs rs, Sweep key E0 c m E C vs rs delCount ∧
      rs.length = n ∧ relationHashListNext = firstOr rs (-1)

section Sweep

variable {key : UInt64} {E0 E : List (UInt64 × UInt64 × Option V)} {c : Nat}
  {C : HashTable → Nat → List Nat} {vs rs : List Nat} {delCount : Nat}

/-- At the end of the chain the loop stops, with every entry under `key` removed. -/
theorem sweep_done {n : Nat} {r : Int} {res : Option (Nat × U64DoubleKeyLRU V)}
    (hs : Sweeping key E0 c n (r, delCount, m))
    (hturn : removeByShortKeyTurn key (r, delCount, m) = .inl res) :
    ∃ m', res = some ((Lru.DoubleKey.removeShort key E0).1, m') ∧
      Inv m' (Lru.DoubleKey.removeShort key E0).2 ∧ m'.capacity = c := by
  obtain ⟨E, C, vs, rs, hw, -, hr⟩ := hs
  rw [removeByShortKeyTurn_eq] at hturn
  split_ifs at hturn with hr1
  · cases hturn
    have hchain : C .relation (m.compress .relation key) = vs := by
      rw [hw.chain, firstOr_eq_neg_one.mp (hr.symm.trans hr1), List.append_nil]
    -- every live node under `key` is on the chain of its slot, which was all visited
    have hnone : ∀ e ∈ E, e.2.1 ≠ key := by
      intro e he hek
      obtain ⟨j, hj, rfl⟩ := hw.inv.exists_of_mem he
      have hjk : (m.getNode j).shortKey = key := hek
      have hjC : j ∈ C .relation (m.compress .relation key) :=
        ((hw.chains .relation) _).2 j |>.mpr ⟨hj, by rw [← hjk]; rfl⟩
      rw [hchain] at hjC
      exact hw.visited j hjC hjk
    have hE := Lru.DoubleKey.removeShort_of_forall hnone
    have hcount := hw.count
    have hrest := hw.rest
    rw [hE] at hcount hrest
    refine ⟨m, by rw [← hcount]; rfl, ?_, hw.capacity⟩
    rw [← hrest]
    exact hw.inv

/-- A turn that goes on keeps the `Sweep`, with one cell fewer left. -/
theorem sweep_next {n : Nat} {r : Int} {st' : Int × Nat × U64DoubleKeyLRU V}
    (hs : Sweeping key E0 c n (r, delCount, m))
    (hturn : removeByShortKeyTurn key (r, delCount, m) = .inr st') :
    ∃ n', n' < n ∧ Sweeping key E0 c n' st' := by
  obtain ⟨E, C, vs, rs, hw, rfl, hr⟩ := hs
  by_cases hr1 : r = -1
  · rw [removeByShortKeyTurn_eq, if_pos hr1] at hturn
    cases hturn
  obtain ⟨a, rs', rfl⟩ : ∃ a rs', rs = a :: rs' := by
    cases rs with
    | nil => exact absurd hr hr1
    | cons a rs' => exact ⟨a, rs', rfl⟩
  have hra : r.toNat = a := by rw [hr]; rfl
  rw [removeByShortKeyTurn_eq, if_neg hr1, hra] at hturn
  obtain ⟨hL, hmem⟩ := (hw.chains .relation) (m.compress .relation key)
  rw [hw.chain] at hL hmem
  have hnext : (m.getNode a).relationHashListNext = firstOr rs' (-1) := hL.links.2
  by_cases hkey : (m.getNode a).shortKey = key
  · -- `a` is under `key`: it is removed
    rw [if_pos hkey] at hturn
    cases hturn
    have ha : a ∈ m.ringView.live :=
      ((hmem a).mp (List.mem_append_right _ (List.mem_cons_self ..))).1
    have hav : a ∉ vs := by
      have hnd := hL.nodup
      rw [List.nodup_append] at hnd
      exact fun h' => hnd.2.2 a h' a (List.mem_cons_self ..) rfl
    obtain ⟨hinv', hchains', hentry', hret⟩ := removeNode_spec hw.inv hw.keys ha hw.chains
    obtain ⟨hcomp, hcap⟩ := removeNode_fields m a
    have hsplit : Lru.DoubleKey.removeShort key E =
        ((Lru.DoubleKey.removeShort key (Lru.erase (m.getNode a).key E)).1 + 1,
          (Lru.DoubleKey.removeShort key (Lru.erase (m.getNode a).key E)).2) :=
      Lru.DoubleKey.removeShort_erase hw.keys (hw.inv.entry_mem ha) hkey
    refine ⟨rs'.length, Nat.lt_succ_self _, Lru.erase (m.getNode a).key E,
      fun t s => ((C t s).erase a).map (rename m.bufferStartIndex a),
      vs.map (rename m.bufferStartIndex a), rs'.map (rename m.bufferStartIndex a),
      ⟨hinv', hw.keys.sublist (Lru.map_fst_erase_sublist _ _), hcap.trans hw.capacity, hchains',
        ?_, ?_, ?_, ?_⟩, List.length_map .., ?_⟩
    · rw [hcomp, hw.chain, List.erase_append_right _ hav, List.erase_cons_head, List.map_append]
    · intro j hj
      obtain ⟨v, hv, rfl⟩ := List.mem_map.mp hj
      have hvlive : v ∈ m.ringView.live := ((hmem v).mp (List.mem_append_left _ hv)).1
      have hsame := congrArg (fun e => e.2.1) (hentry' v hvlive (fun h' => hav (h' ▸ hv)))
      simp only [entry] at hsame
      rw [hsame]
      exact hw.visited v hv
    · have hcount := hw.count
      rw [hsplit] at hcount
      dsimp only at hcount ⊢
      omega
    · rw [← hw.rest, hsplit]
    · -- the walk goes on at `a` when the cell after `a` moved into `a`, else after `a`
      rw [hret, hnext]
      cases rs' with
      | nil =>
          rw [firstOr_nil, if_neg (by omega)]
          rfl
      | cons b rs'' =>
          rw [firstOr_cons, List.map_cons, firstOr_cons]
          by_cases hb : (b : Int) = m.bufferStartIndex
          · rw [if_pos hb, if_pos (by omega), rename, if_pos (by exact_mod_cast hb)]
          · rw [if_neg hb, if_neg (by simp), rename, if_neg (fun h' => hb (by exact_mod_cast h'))]
  · -- a cell not under `key`: it is visited, and the walk goes on after it
    rw [if_neg hkey] at hturn
    cases hturn
    refine ⟨rs'.length, Nat.lt_succ_self _, E, C, vs ++ [a], rs',
      ⟨hw.inv, hw.keys, hw.capacity, hw.chains, ?_, ?_, hw.count, hw.rest⟩, rfl, hnext⟩
    · rw [hw.chain, List.append_assoc, List.singleton_append]
    · intro j hj
      rcases List.mem_append.mp hj with hj | hj
      · exact hw.visited j hj
      · rw [List.mem_singleton.mp hj]
        exact hkey

end Sweep

/-- **`RemoveByShortKey`** removes exactly the abstract entries under the short key,
in the abstract map's order, and returns how many there were. -/
theorem Inv.removeByShortKey (h : Inv m entries) (hkeys : (entries.map Prod.fst).Nodup)
    (key : UInt64) :
    ∃ m', m.removeByShortKey key = some ((Lru.DoubleKey.removeShort key entries).1, m') ∧
      Inv m' (Lru.DoubleKey.removeShort key entries).2 ∧ m'.capacity = m.capacity := by
  choose C hC using fun t => (h.chains t).chains
  obtain ⟨hL, hmem⟩ := hC .relation (m.compress .relation key)
  unfold U64DoubleKeyLRU.removeByShortKey
  refine Loop.whileFuel_indexed (Sweeping key entries m.capacity)
    (fun res => ∃ m', res = some ((Lru.DoubleKey.removeShort key entries).1, m') ∧
      Inv m' (Lru.DoubleKey.removeShort key entries).2 ∧ m'.capacity = m.capacity)
    (fun _ ⟨_, _, _⟩ _ hs hturn => sweep_done hs hturn)
    (fun _ ⟨_, _, _⟩ _ hs hturn => sweep_next hs hturn)
    m.slots (C .relation (m.compress .relation key)).length _ ?_
    (h.length_lt_slots hL.nodup fun j hj => ((hmem j).mp hj).1)
  exact ⟨entries, C, [], C .relation (m.compress .relation key),
    ⟨h, hkeys, rfl, hC, rfl, fun _ hj => absurd hj List.not_mem_nil, Nat.zero_add _, rfl⟩,
    rfl, hL.head_eq⟩

/-! ### `Clear` and the runs -/

/-- A map with no live node stands for the empty abstract map. -/
theorem Inv.of_empty (hr : m.ringView.WF) (hsize : m.size = 0)
    (hh : ∀ s, m.hashSlotHead s = -1) (hrh : ∀ s, m.relationHashSlotHead s = -1)
    (ht : m.timeListHead = -1) (htl : m.timeListTail = -1) : Inv m [] := by
  have hlive : m.ringView.live = [] := by
    rw [← List.length_eq_zero_iff, RingView.length_live]
    exact hsize
  have hnil : ∀ {next prev : Nat → Int}, Linked next prev (-1) [] :=
    ⟨List.nodup_nil, rfl, trivial⟩
  refine ⟨hr, fun t s => ⟨[], ?_, fun j => ?_⟩, [], ⟨?_, ?_⟩, ?_, rfl⟩
  · cases t
    · show Linked _ _ (m.hashSlotHead s) []
      rw [hh s]
      exact hnil
    · show Linked _ _ (m.relationHashSlotHead s) []
      rw [hrh s]
      exact hnil
  · simp [hlive]
  · rw [timeView_head, ht]
    exact hnil
  · rw [timeView_tail, htl]
    rfl
  · rw [hlive]

/-- **`Clear`** empties the abstract map. -/
theorem Inv.clear (h : Inv m entries) : Inv m.clear [] := by
  have hslots : 0 < m.ringView.slots := Nat.lt_of_le_of_lt (Nat.zero_le _) h.ring.capacity_lt
  refine Inv.of_empty ⟨h.ring.capacity_pos, h.ring.capacity_lt, Nat.zero_le _, hslots, ?_⟩ rfl
    (fun _ => rfl) (fun _ => rfl) rfl rfl
  show 0 = (0 + 0) % m.ringView.slots
  rw [Nat.zero_add, Nat.zero_mod]

/-- One call is the abstract operation at the map's capacity, and keeps the capacity. -/
theorem Inv.call (h : Inv m entries) (hwf : Lru.WF m.capacity entries) :
    ∀ op, Inv (m.call op) (Lru.DoubleKey.step m.capacity entries op) ∧
      (m.call op).capacity = m.capacity
  | .add k s v => ⟨h.add hwf.nodup k s v, capacity_add m k s v⟩
  | .addByShortKey ks s vs => h.addByShortKey hwf ks s vs
  | .get k peek => (h.get hwf.nodup k peek).2
  | .remove k => h.remove hwf.nodup k
  | .removeByShortKey s => by
      obtain ⟨m', hm', hinv, hcap⟩ := h.removeByShortKey hwf.nodup s
      show Inv (((m.removeByShortKey s).map Prod.snd).getD m) _ ∧
        (((m.removeByShortKey s).map Prod.snd).getD m).capacity = m.capacity
      rw [hm']
      exact ⟨hinv, hcap⟩
  | .clear => ⟨h.clear, rfl⟩

/-- **Every run of calls refines the abstract run**, and keeps the capacity. -/
theorem Inv.run (h : Inv m entries) (hwf : Lru.WF m.capacity entries)
    (ops : List (Lru.DoubleKey.Op UInt64 UInt64 (Option V))) :
    Inv (m.run ops) (ops.foldl (Lru.DoubleKey.step m.capacity) entries) ∧
      (m.run ops).capacity = m.capacity := by
  induction ops generalizing m entries with
  | nil => exact ⟨h, rfl⟩
  | cons op ops ih =>
      obtain ⟨h1, hcap⟩ := h.call hwf op
      have hwf1 : Lru.WF (m.call op).capacity (Lru.DoubleKey.step m.capacity entries op) := by
        rw [hcap]
        exact Lru.DoubleKey.wf_step hwf h.ring.capacity_pos op
      obtain ⟨hrun, hcap'⟩ := ih h1 hwf1
      rw [hcap] at hrun hcap'
      exact ⟨hrun, hcap'⟩

end U64DoubleKeyLRU

end Sophon.Server
