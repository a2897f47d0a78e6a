/-
A least-recently-used map of bounded capacity: what an LRU cache is for.

The map is the list of its entries, the most recently used first.  Adding a key
puts its entry at the front; an older entry of the key goes, and when the key is
new and the map holds `c` entries, the least recently used entry goes first.
Reading a key hands back its value and, unless the read is a peek, makes its
entry the most recent.  `WF` is what every map these operations build satisfies:
distinct keys and at most `c` entries (`wf_run`).
-/
import Mathlib

namespace Sophon.Lru

variable {K V : Type} [DecidableEq K]

/-- The entries without the key `k`. -/
def erase (k : K) (l : List (K × V)) : List (K × V) := l.filter fun e => e.1 ≠ k

/-- Add `k ↦ v` as the most recent entry. -/
def add (c : Nat) (k : K) (v : V) (l : List (K × V)) : List (K × V) :=
  if (l.lookup k).isSome then (k, v) :: erase k l
  else (k, v) :: (if l.length ≥ c then l.dropLast else l)

/-- Read `k`; unless `peek`, its entry becomes the most recent. -/
def get (peek : Bool) (k : K) (l : List (K × V)) : Option V × List (K × V) :=
  match l.lookup k with
  | some v => (some v, if peek then l else (k, v) :: erase k l)
  | none => (none, l)

/-- The operations on the map. -/
inductive Op (K V : Type) where
  | add (k : K) (v : V)
  | get (k : K) (peek : Bool)
  | remove (k : K)
  | clear

/-- The map after one operation. -/
def step (c : Nat) (l : List (K × V)) : Op K V → List (K × V)
  | .add k v => add c k v l
  | .get k peek => (get peek k l).2
  | .remove k => erase k l
  | .clear => []

/-- The map after a run of operations from the empty one. -/
def run (c : Nat) (ops : List (Op K V)) : List (K × V) := ops.foldl (step c) []

/-- Distinct keys and at most `c` entries. -/
structure WF (c : Nat) (l : List (K × V)) : Prop where
  nodup : (l.map Prod.fst).Nodup
  length_le : l.length ≤ c

/-! ### Looking keys up -/

theorem lookup_eq_some_iff {l : List (K × V)} (hnd : (l.map Prod.fst).Nodup) {k : K} {v : V} :
    l.lookup k = some v ↔ (k, v) ∈ l := by
  induction l with
  | nil => simp
  | cons e l ih =>
      obtain ⟨k', v'⟩ := e
      rw [List.map_cons, List.nodup_cons] at hnd
      by_cases hk : k = k'
      · subst hk
        have hnot : (k, v) ∉ l := fun h => hnd.1 (List.mem_map.mpr ⟨_, h, rfl⟩)
        simp [List.lookup, hnot, eq_comm]
      · have hne : (k == k') = false := by simpa using hk
        simp [List.lookup, hne, ih hnd.2, hk]

theorem lookup_eq_none_iff {l : List (K × V)} {k : K} : l.lookup k = none ↔ k ∉ l.map Prod.fst := by
  induction l with
  | nil => simp
  | cons e l ih =>
      obtain ⟨k', v'⟩ := e
      by_cases hk : k = k'
      · subst hk
        simp [List.lookup]
      · have hne : (k == k') = false := by simpa using hk
        simp [List.lookup, hne, ih, hk]

/-- A lookup through any lawful `==` is the lookup these operations make, through `=`. -/
theorem lookup_lawfulBEq [inst : BEq K] [LawfulBEq K] (k : K) (l : List (K × V)) :
    @List.lookup K V inst k l = @List.lookup K V instBEqOfDecidableEq k l := by
  induction l with
  | nil => rfl
  | cons e l ih =>
      obtain ⟨k', v'⟩ := e
      by_cases hk : k = k'
      · subst hk
        simp [List.lookup]
      · have hne : (k == k') = false := by simpa using hk
        have hne' : @BEq.beq K instBEqOfDecidableEq k k' = false := by simpa using hk
        simp only [List.lookup, hne, hne', ih]

/-- Dropping the entry at a cut of a map with distinct keys is erasing its key. -/
theorem erase_eq_of_cut {l₁ l₂ : List (K × V)} {e : K × V}
    (hnd : ((l₁ ++ e :: l₂).map Prod.fst).Nodup) : erase e.1 (l₁ ++ e :: l₂) = l₁ ++ l₂ := by
  rw [List.map_append, List.map_cons, List.nodup_append, List.nodup_cons] at hnd
  obtain ⟨-, ⟨he, -⟩, hdisj⟩ := hnd
  have h₁ : erase e.1 l₁ = l₁ := List.filter_eq_self.mpr fun x hx => by
    have := hdisj x.1 (List.mem_map_of_mem hx) e.1 (List.mem_cons_self ..)
    simpa using this
  have h₂ : erase e.1 l₂ = l₂ := List.filter_eq_self.mpr fun x hx => by
    have : x.1 ≠ e.1 := fun h => he (h ▸ List.mem_map_of_mem hx)
    simpa using this
  simp only [erase, List.filter_append, List.filter_cons] at h₁ h₂ ⊢
  rw [h₁, h₂]
  simp

/-- Erasing a key the map does not hold changes nothing. -/
theorem erase_of_not_mem {k : K} {l : List (K × V)} (hk : k ∉ l.map Prod.fst) : erase k l = l :=
  List.filter_eq_self.mpr fun e he => by
    have : e.1 ≠ k := fun h => hk (h ▸ List.mem_map_of_mem he)
    simpa using this

/-- A read hands back what the map holds for the key. -/
@[simp] theorem get_fst (peek : Bool) (k : K) (l : List (K × V)) : (get peek k l).1 = l.lookup k := by
  unfold get
  split
  · rename_i v hv
    exact hv.symm
  · rename_i hv
    exact hv.symm

theorem map_fst_erase_sublist (k : K) (l : List (K × V)) :
    List.Sublist ((erase k l).map Prod.fst) (l.map Prod.fst) :=
  (List.filter_sublist).map _

theorem not_mem_erase (k : K) (l : List (K × V)) : k ∉ (erase k l).map Prod.fst := by
  simp [erase]

/-! ### The operations keep the map well formed -/

section WF

variable {c : Nat} {l : List (K × V)}

theorem WF.erase (h : WF c l) (k : K) : WF c (erase k l) :=
  ⟨h.nodup.sublist (map_fst_erase_sublist k l),
    Nat.le_trans List.filter_sublist.length_le h.length_le⟩

/-- Moving a present key to the front, with any value, keeps the map well formed. -/
theorem WF.cons_erase (h : WF c l) {k : K} {v' : V} (hmem : (k, v') ∈ l) (v : V) :
    WF c ((k, v) :: Lru.erase k l) := by
  have he := h.erase k
  -- the key was there, so erasing it made room
  have hlt : (Lru.erase k l).length < l.length :=
    List.length_filter_lt_length_iff_exists.mpr ⟨(k, v'), hmem, by simp⟩
  exact ⟨List.nodup_cons.mpr ⟨not_mem_erase k l, he.nodup⟩,
    Nat.succ_le_of_lt (Nat.lt_of_lt_of_le hlt h.length_le)⟩

theorem WF.add (h : WF c l) (hc : 0 < c) (k : K) (v : V) : WF c (add c k v l) := by
  unfold Lru.add
  split
  · rename_i hk
    obtain ⟨v', hv'⟩ := Option.isSome_iff_exists.mp hk
    exact h.cons_erase ((lookup_eq_some_iff h.nodup).mp hv') v
  · rename_i hk
    have hnot : k ∉ l.map Prod.fst := lookup_eq_none_iff.mp (Option.not_isSome_iff_eq_none.mp hk)
    have hle := h.length_le
    split
    · rename_i hge
      refine ⟨List.nodup_cons.mpr ⟨fun hm => hnot ((List.dropLast_sublist l).map _ |>.subset hm),
        h.nodup.sublist ((List.dropLast_sublist l).map _)⟩, ?_⟩
      simp only [List.length_cons, List.length_dropLast]
      omega
    · refine ⟨List.nodup_cons.mpr ⟨hnot, h.nodup⟩, ?_⟩
      simp only [List.length_cons]
      omega

theorem WF.get (h : WF c l) (peek : Bool) (k : K) : WF c (get peek k l).2 := by
  unfold Lru.get
  split
  · rename_i v hv
    cases peek
    · exact h.cons_erase ((lookup_eq_some_iff h.nodup).mp hv) v
    · exact h
  · exact h

theorem WF.step (h : WF c l) (hc : 0 < c) : ∀ op : Op K V, WF c (step c l op)
  | .add k v => h.add hc k v
  | .get k peek => h.get peek k
  | .remove k => h.erase k
  | .clear => ⟨List.nodup_nil, Nat.zero_le c⟩

end WF

/-! ### What the map holds

Reading and adding only reorder, drop and add entries, so a property of every entry
survives every read and every add of an entry that has it.
-/

section Holds

variable {P : K × V → Prop} {l : List (K × V)}

/-- Every entry has `P`. -/
def Holds (P : K × V → Prop) (l : List (K × V)) : Prop := ∀ e ∈ l, P e

theorem mem_of_lookup_eq_some {k : K} {v : V} (h : l.lookup k = some v) : (k, v) ∈ l := by
  induction l with
  | nil => simp at h
  | cons e l ih =>
      obtain ⟨k', v'⟩ := e
      by_cases hk : k = k'
      · subst hk
        simp only [List.lookup, beq_self_eq_true, Option.some.injEq] at h
        subst h
        exact List.mem_cons_self
      · have hne : (k == k') = false := beq_false_of_ne hk
        simp only [List.lookup, hne] at h
        exact List.mem_cons_of_mem _ (ih h)

/-- What a read hands back is an entry of the map. -/
theorem Holds.get_fst (h : Holds P l) {peek : Bool} {k : K} {v : V} (hv : (get peek k l).1 = some v) :
    P (k, v) := by
  unfold get at hv
  split at hv
  · rename_i v' hl
    cases hv
    exact h _ (mem_of_lookup_eq_some hl)
  · cases hv

theorem Holds.get (h : Holds P l) (peek : Bool) (k : K) : Holds P (get peek k l).2 := by
  unfold Lru.get
  split
  · rename_i v hl
    cases peek
    · intro e he
      rcases List.mem_cons.mp he with rfl | he
      · exact h _ (mem_of_lookup_eq_some hl)
      · exact h e (List.mem_filter.mp he).1
    · exact h
  · exact h

theorem Holds.add (h : Holds P l) {c : Nat} {k : K} {v : V} (hkv : P (k, v)) :
    Holds P (add c k v l) := by
  unfold Lru.add
  intro e he
  split at he <;> rcases List.mem_cons.mp he with rfl | he
  · exact hkv
  · exact h e (List.mem_filter.mp he).1
  · exact hkv
  · split at he
    · exact h e (List.dropLast_subset l he)
    · exact h e he

end Holds

end Sophon.Lru
