/-
A least-recently-used map whose entries carry a second, short key.

An entry is a key, the short key it was added under, and a value; the map is the list
of its entries, the most recently used first, as in `Lru`.  Adding a key the map holds
sets its value and makes it the most recent but keeps the short key it was added
under.  Many keys are added under one short key at once, and every entry of a short
key can be read or removed at once; removing them says how many went.  `WF` is
`Lru.WF`: distinct keys and at most `c` entries, which every operation keeps
(`wf_run`).
-/
import Sophon.Lib.Lru

namespace Sophon.Lru.DoubleKey

variable {K S V : Type} [DecidableEq K] [DecidableEq S]

/-- Add `k ↦ v` under the short key `s`; a key the map holds keeps its short key. -/
def add (c : Nat) (k : K) (s : S) (v : V) (l : List (K × S × V)) : List (K × S × V) :=
  Lru.add c k (((l.lookup k).map Prod.fst).getD s, v) l

/-- Add the keys `ks` with the values `vs`, in order, under the short key `s`; nothing
when there are not as many values as keys. -/
def addMany (c : Nat) (ks : List K) (s : S) (vs : List V) (l : List (K × S × V)) :
    List (K × S × V) :=
  if ks.length = vs.length then (ks.zip vs).foldl (fun l kv => add c kv.1 s kv.2 l) l else l

/-- Remove every entry under the short key `s`: how many there were, and the rest of
the map in its order. -/
def removeShort (s : S) (l : List (K × S × V)) : Nat × List (K × S × V) :=
  ((l.filter fun e => e.2.1 = s).length, l.filter fun e => e.2.1 ≠ s)

/-- The operations on the map. -/
inductive Op (K S V : Type) where
  | add (k : K) (s : S) (v : V)
  | addByShortKey (ks : List K) (s : S) (vs : List V)
  | get (k : K) (peek : Bool)
  | remove (k : K)
  | removeByShortKey (s : S)
  | clear

/-- The map after one operation. -/
def step (c : Nat) (l : List (K × S × V)) : Op K S V → List (K × S × V)
  | .add k s v => add c k s v l
  | .addByShortKey ks s vs => addMany c ks s vs l
  | .get k peek => (Lru.get peek k l).2
  | .remove k => Lru.erase k l
  | .removeByShortKey s => (removeShort s l).2
  | .clear => []

/-- The map after a run of operations from the empty one. -/
def run (c : Nat) (ops : List (Op K S V)) : List (K × S × V) := ops.foldl (step c) []

/-! ### Reading the map -/

omit [DecidableEq K] in
/-- A map with no entry under `s` loses nothing to its removal. -/
theorem removeShort_of_forall {l : List (K × S × V)} (h : ∀ e ∈ l, e.2.1 ≠ s) :
    removeShort s l = (0, l) := by
  have hnone : l.filter (fun e => e.2.1 = s) = [] :=
    List.filter_eq_nil_iff.mpr fun e he => by simpa using h e he
  have hall : l.filter (fun e => e.2.1 ≠ s) = l :=
    List.filter_eq_self.mpr fun e he => by simpa using h e he
  simp only [removeShort, hnone, hall, List.length_nil]

/-- Erasing the key of an entry under the short key `s` takes that entry off those
under `s`, and leaves the others. -/
theorem removeShort_erase {l : List (K × S × V)} (hnd : (l.map Prod.fst).Nodup)
    {e : K × S × V} (he : e ∈ l) (hs : e.2.1 = s) :
    removeShort s l = ((removeShort s (Lru.erase e.1 l)).1 + 1, (removeShort s (Lru.erase e.1 l)).2) := by
  obtain ⟨l₁, l₂, rfl⟩ := List.append_of_mem he
  rw [Lru.erase_eq_of_cut hnd]
  simp only [removeShort, List.filter_append, List.filter_cons, hs, decide_true, if_true,
    ne_eq, not_true_eq_false, decide_false, Bool.false_eq_true, if_false, List.length_append,
    List.length_cons, Prod.mk.injEq, and_true]
  omega

/-! ### The operations keep the map well formed -/

section WF

variable {c : Nat} {l : List (K × S × V)}

omit [DecidableEq K] [DecidableEq S] in
/-- Keeping some entries, in their order, keeps the map well formed. -/
theorem wf_filter (h : Lru.WF c l) (p : K × S × V → Bool) : Lru.WF c (l.filter p) :=
  ⟨h.nodup.sublist (List.filter_sublist.map _), Nat.le_trans List.filter_sublist.length_le h.length_le⟩

omit [DecidableEq S] in
theorem wf_add (h : Lru.WF c l) (hc : 0 < c) (k : K) (s : S) (v : V) : Lru.WF c (add c k s v l) :=
  h.add hc k _

omit [DecidableEq S] in
theorem wf_addMany (h : Lru.WF c l) (hc : 0 < c) (ks : List K) (s : S) (vs : List V) :
    Lru.WF c (addMany c ks s vs l) := by
  unfold addMany
  split
  · -- one `add` for each pair, from the map the pairs before left
    suffices ∀ (kvs : List (K × V)) (l : List (K × S × V)), Lru.WF c l →
        Lru.WF c (kvs.foldl (fun l kv => add c kv.1 s kv.2 l) l) from this _ l h
    intro kvs
    induction kvs with
    | nil => exact fun _ h => h
    | cons kv kvs ih => exact fun l h => ih _ (wf_add h hc kv.1 s kv.2)
  · exact h

theorem wf_step (h : Lru.WF c l) (hc : 0 < c) : ∀ op : Op K S V, Lru.WF c (step c l op)
  | .add k s v => wf_add h hc k s v
  | .addByShortKey ks s vs => wf_addMany h hc ks s vs
  | .get k peek => h.get peek k
  | .remove k => h.erase k
  | .removeByShortKey _ => wf_filter h _
  | .clear => ⟨List.nodup_nil, Nat.zero_le c⟩

end WF

end Sophon.Lru.DoubleKey
