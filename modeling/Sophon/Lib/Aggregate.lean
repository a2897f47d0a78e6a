/-
Values aggregated by key, the way a hash map of running aggregates keeps them.

`inject m k v` is `map.get_mut(&k)` merging `v` into the aggregate it finds, or
`map.insert(k, fresh(v))` when there is none; the map is the list of its entries,
the keys in the order they came.  `collect` injects a list of entries, in order,
into the empty map.

Two facts about `collect`: under each key it holds the aggregate of that key's
values merged in order (`lookup_collect`), and it holds each key once
(`nodup_collect`).
-/
import Mathlib

namespace Sophon.Aggregate

variable {K V A : Type} [DecidableEq K]

/-- One value into an aggregate that may not exist yet. -/
def accum (fresh : V → A) (merge : A → V → A) : Option A → V → Option A
  | none, v => some (fresh v)
  | some a, v => some (merge a v)

/-- Merge `v` into the aggregate of `k`, or add a fresh aggregate for `k` at the end. -/
def inject (fresh : V → A) (merge : A → V → A) : List (K × A) → K → V → List (K × A)
  | [], k, v => [(k, fresh v)]
  | (k', a) :: m, k, v =>
      if k' = k then (k', merge a v) :: m else (k', a) :: inject fresh merge m k v

/-- The map of the entries `l`, injected in order into the empty map. -/
def collect (fresh : V → A) (merge : A → V → A) (l : List (K × V)) : List (K × A) :=
  l.foldl (fun m e => inject fresh merge m e.1 e.2) []

variable {fresh : V → A} {merge : A → V → A}

theorem collect_append (l : List (K × V)) (k : K) (v : V) :
    collect fresh merge (l ++ [(k, v)]) = inject fresh merge (collect fresh merge l) k v := by
  rw [collect, List.foldl_append]
  rfl

/-! ### Looking a key up -/

theorem lookup_inject (m : List (K × A)) (k k' : K) (v : V) :
    (inject fresh merge m k v).lookup k' =
      if k' = k then accum fresh merge (m.lookup k) v else m.lookup k' := by
  induction m with
  | nil =>
      by_cases h : k' = k
      · subst h
        simp [inject, accum]
      · simp [inject, h]
  | cons e m ih =>
      obtain ⟨k'', a⟩ := e
      by_cases he : k'' = k
      · subst he
        by_cases h : k' = k''
        · subst h
          simp [inject, accum, List.lookup_cons_self]
        · simp [inject, List.lookup_cons, h, beq_eq_false_iff_ne.2 h]
      · by_cases h : k' = k''
        · subst h
          simp [inject, he, List.lookup_cons_self]
        · by_cases h2 : k' = k
          · subst h2
            simp [inject, he, List.lookup_cons, beq_eq_false_iff_ne.2 h, ih]
          · simp [inject, he, h2, List.lookup_cons, beq_eq_false_iff_ne.2 h, ih]

/-- **Under each key, the aggregate of that key's values, merged in order.** -/
theorem lookup_collect (l : List (K × V)) (k : K) :
    (collect fresh merge l).lookup k =
      ((l.filter fun e => e.1 = k).map Prod.snd).foldl (accum fresh merge) none := by
  induction l using List.reverseRecOn with
  | nil => rfl
  | append_singleton l e ih =>
      obtain ⟨k', v⟩ := e
      rw [collect_append, lookup_inject, List.filter_append]
      by_cases h : k = k'
      · subst h
        simp [ih]
      · simp [h, Ne.symm h, ih]

/-! ### Each key once -/

theorem map_fst_inject (m : List (K × A)) (k : K) (v : V) :
    (inject fresh merge m k v).map Prod.fst =
      if k ∈ m.map Prod.fst then m.map Prod.fst else m.map Prod.fst ++ [k] := by
  induction m with
  | nil => simp [inject]
  | cons e m ih =>
      obtain ⟨k', a⟩ := e
      by_cases he : k' = k
      · subst he
        simp [inject]
      · simp only [inject, if_neg he, List.map_cons, ih, List.mem_cons, Ne.symm he, false_or]
        split <;> simp

theorem nodup_collect (l : List (K × V)) : ((collect fresh merge l).map Prod.fst).Nodup := by
  induction l using List.reverseRecOn with
  | nil => exact List.nodup_nil
  | append_singleton l e ih =>
      rw [collect_append, map_fst_inject]
      split
      · exact ih
      · rename_i hk
        exact ih.append (List.nodup_singleton _) (List.disjoint_singleton.2 hk)

end Sophon.Aggregate
