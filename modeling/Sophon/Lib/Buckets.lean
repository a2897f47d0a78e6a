/-
Tables of buckets filled in one pass.

A table maps each key to a list, its bucket, and is filled by walking a list of
entries and filing each under its key: at the back of the bucket (`append`) or
at its front, as a head insertion into a linked list does (`push`).  After the
pass a bucket holds the entries with its key in walk order (`foldl_append`), or
in the opposite order (`foldl_push`).

An entry may also be filed under several keys.  `filter_bucket` says what a
lookup that keeps only the entries satisfying `p` sees in one bucket: every
entry of the walk that satisfies `p`, once, provided an entry satisfying `p` is
filed under the looked-up key and under no key twice.
-/
import Mathlib

namespace Sophon.Buckets

variable {κ α β : Type} [DecidableEq κ]

/-- File `x` at the back of bucket `k`. -/
def append (t : κ → List α) (k : κ) (x : α) : κ → List α :=
  Function.update t k (t k ++ [x])

/-- File `x` at the front of bucket `k`. -/
def push (t : κ → List α) (k : κ) (x : α) : κ → List α :=
  Function.update t k (x :: t k)

@[simp] theorem append_apply (t : κ → List α) (k j : κ) (x : α) :
    append t k x j = if j = k then t k ++ [x] else t j := by
  by_cases h : j = k
  · subst h; simp [append]
  · simp [append, h]

@[simp] theorem push_apply (t : κ → List α) (k j : κ) (x : α) :
    push t k x j = if j = k then x :: t k else t j := by
  by_cases h : j = k
  · subst h; simp [push]
  · simp [push, h]

/-- **A pass of back insertions** leaves in each bucket its entries in walk order. -/
theorem foldl_append (key : β → κ) (val : β → α) (l : List β) :
    ∀ (t : κ → List α) (j : κ),
      l.foldl (fun t b => append t (key b) (val b)) t j
        = t j ++ (l.filter (fun b => decide (key b = j))).map val := by
  induction l with
  | nil => intro t j; simp
  | cons b l ih =>
      intro t j
      rw [List.foldl_cons, ih, append_apply]
      by_cases h : key b = j
      · subst h; simp
      · simp [h, Ne.symm h]

/-- **A pass of front insertions** leaves in each bucket its entries in reverse walk order. -/
theorem foldl_push (key : β → κ) (val : β → α) (l : List β) :
    ∀ (t : κ → List α) (j : κ),
      l.foldl (fun t b => push t (key b) (val b)) t j
        = ((l.filter (fun b => decide (key b = j))).map val).reverse ++ t j := by
  induction l with
  | nil => intro t j; simp
  | cons b l ih =>
      intro t j
      rw [List.foldl_cons, ih, push_apply]
      by_cases h : key b = j
      · subst h; simp
      · simp [h, Ne.symm h]

/-! ### Entries filed under several keys -/

/-- The pairs `(key, entry)` of a pass that files each entry under each of its keys. -/
def filed (keys : β → List κ) (l : List β) : List (κ × β) :=
  l.flatMap fun b => (keys b).map (·, b)

/-- One bucket of such a pass holds each entry as often as it lists the key. -/
theorem bucket_filed (keys : β → List κ) (l : List β) (j : κ) :
    ((filed keys l).filter (fun e => decide (e.1 = j))).map Prod.snd
      = l.flatMap fun b => List.replicate ((keys b).count j) b := by
  induction l with
  | nil => rfl
  | cons b l ih =>
      have hone : (((keys b).map (·, b)).filter (fun e => decide (e.1 = j))).map Prod.snd
          = List.replicate ((keys b).count j) b := by
        rw [List.filter_map, List.map_map]
        simp only [Function.comp_def, List.map_const', List.count_eq_length_filter]
        rfl
      simp only [filed, List.flatMap_cons, List.filter_append, List.map_append] at ih ⊢
      rw [hone, ih]

/-- **A lookup sees every entry that satisfies `p`, once**, when each such entry
lists the looked-up key and no entry lists a key twice. -/
theorem filter_bucket (keys : β → List κ) (p : β → Bool) (l : List β) (j : κ)
    (hnd : ∀ b ∈ l, (keys b).Nodup) (hmem : ∀ b ∈ l, p b = true → j ∈ keys b) :
    (((filed keys l).filter (fun e => decide (e.1 = j))).map Prod.snd).filter p
      = l.filter p := by
  rw [bucket_filed]
  induction l with
  | nil => rfl
  | cons b l ih =>
      rw [List.flatMap_cons, List.filter_append,
        ih (fun b' hb' => hnd b' (List.mem_cons_of_mem b hb'))
          (fun b' hb' => hmem b' (List.mem_cons_of_mem b hb'))]
      by_cases hp : p b = true
      · have hcount : (keys b).count j = 1 :=
          List.count_eq_one_of_mem (hnd b (List.mem_cons_self ..))
            (hmem b (List.mem_cons_self ..) hp)
        simp [hcount, hp]
      · have hnil : (List.replicate ((keys b).count j) b).filter p = [] := by
          simp [hp]
        simp [hnil, hp]

/-- The buckets of the keys `js` partition the entries whose key is among `js`:
an entry shows up in the bucket of its key ... -/
theorem mem_flatMap_filter {f : β → κ} {l : List β} {js : List κ} {x : β}
    (hx : x ∈ l) (hj : f x ∈ js) :
    x ∈ js.flatMap fun j => l.filter fun b => decide (f b = j) :=
  List.mem_flatMap.mpr ⟨f x, hj, List.mem_filter.mpr ⟨hx, by simp⟩⟩

/-- ... and in no other. -/
theorem nodup_flatMap_filter {f : β → κ} {l : List β} {js : List κ}
    (hl : l.Nodup) (hjs : js.Nodup) :
    (js.flatMap fun j => l.filter fun b => decide (f b = j)).Nodup := by
  refine List.nodup_flatMap.mpr ⟨fun j _ => hl.filter _, ?_⟩
  refine hjs.imp fun {j j'} hne => ?_
  intro x hx hx'
  simp only [List.mem_filter, decide_eq_true_eq] at hx hx'
  exact hne (hx.2.symm.trans hx'.2)

end Sophon.Buckets
