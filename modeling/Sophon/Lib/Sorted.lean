/-
Reading a sorted list from the front.

A list sorted by a relation `r` (`List.Pairwise r`) is read by two kinds of loop:
one that walks it while a test holds and stops at the first element that fails
(`takeWhile`), and one that takes its last element as the extreme.  When the test is
closed downwards along `r`, the walk collects exactly the elements that pass it
(`mem_takeWhile_iff`); and the last element bounds every other (`mem_last`).

A sorted array edited in place by insertions, replacements and merges of neighbours
stays sorted when the new element fits where it goes: each of these edits replaces a
run `[i, j)` of the list by one element (`pairwise_splice`).
-/
import Mathlib

namespace Sophon.Sorted

variable {α : Type} {r : α → α → Prop}

/-- A test closed downwards along a sorted list: `takeWhile` stops only where no later
element passes it, so it keeps every element that does. -/
theorem mem_takeWhile_iff {p : α → Bool} (hp : ∀ x y, r x y → p y = true → p x = true) :
    ∀ {l : List α}, l.Pairwise r → ∀ x, x ∈ l.takeWhile p ↔ x ∈ l ∧ p x = true
  | [], _, x => by simp
  | a :: l, hl, x => by
    rw [List.pairwise_cons] at hl
    by_cases ha : p a = true
    · rw [List.takeWhile_cons_of_pos ha, List.mem_cons, List.mem_cons,
        mem_takeWhile_iff hp hl.2 x]
      constructor
      · rintro (rfl | h)
        · exact ⟨.inl rfl, ha⟩
        · exact ⟨.inr h.1, h.2⟩
      · rintro ⟨rfl | h, hx⟩
        · exact .inl rfl
        · exact .inr ⟨h, hx⟩
    · -- the walk stops at `a`, and nothing after `a` passes either
      rw [List.takeWhile_cons_of_neg ha]
      simp only [List.not_mem_nil, false_iff, not_and, List.mem_cons]
      rintro (rfl | h) hx
      · exact ha hx
      · exact ha (hp a x (hl.1 x h) hx)

/-- The last element of a sorted list comes after every other one. -/
theorem mem_last {l : List α} {e : α} (hl : l.Pairwise r) (he : l[l.length - 1]? = some e) :
    ∀ y ∈ l, y = e ∨ r y e := by
  have hne : l ≠ [] := by rintro rfl; simp at he
  have hlast : l.getLast hne = e := by
    rw [List.getLast_eq_getElem]
    exact Option.some_inj.mp ((List.getElem?_eq_getElem _).symm.trans he)
  have hsplit := List.dropLast_append_getLast hne
  rw [hlast] at hsplit
  intro y hy
  rw [← hsplit] at hy hl
  rw [List.pairwise_append] at hl
  rcases List.mem_append.mp hy with hy | hy
  · exact .inr (hl.2.2 y hy e (List.mem_singleton_self e))
  · exact .inl (List.mem_singleton.mp hy)

/-! ### Editing a sorted list -/

/-- An element comes after everything before it in a sorted list. -/
theorem rel_getElem_of_mem_take {l : List α} (hl : l.Pairwise r) {m : Nat} (hm : m < l.length)
    {a : α} (ha : a ∈ l.take m) : r a l[m] := by
  have hmem : l[m] ∈ l.drop m := by
    rw [List.drop_eq_getElem_cons hm]
    exact List.mem_cons_self
  exact hl.rel_of_mem_take_of_mem_drop ha hmem

/-- An element comes before everything after it in a sorted list. -/
theorem rel_getElem_of_mem_drop {l : List α} (hl : l.Pairwise r) {m : Nat} (hm : m < l.length)
    {b : α} (hb : b ∈ l.drop (m + 1)) : r l[m] b := by
  have hl' := List.take_append_drop m l ▸ hl
  rw [List.drop_eq_getElem_cons hm, List.pairwise_append, List.pairwise_cons] at hl'
  exact hl'.2.1.1 b hb

/-- **A sorted list with the part `[i, j)` replaced by one element** that comes after the
part before it and before the part after it stays sorted: an insertion (`j = i`), a
replacement (`j = i + 1`) or a merge of two neighbours (`j = i + 2`). -/
theorem pairwise_splice {l : List α} (hl : l.Pairwise r) {i j : Nat} (hij : i ≤ j) {x : α}
    (hbefore : ∀ a ∈ l.take i, r a x) (hafter : ∀ b ∈ l.drop j, r x b) :
    (l.take i ++ x :: l.drop j).Pairwise r := by
  have hsub : List.Sublist (l.drop j) (l.drop i) := List.drop_sublist_drop_left l hij
  rw [List.pairwise_append, List.pairwise_cons]
  refine ⟨hl.sublist (List.take_sublist i l), ⟨hafter, hl.sublist (List.drop_sublist j l)⟩, ?_⟩
  intro a ha b hb
  rcases List.mem_cons.mp hb with rfl | hb
  · exact hbefore a ha
  · exact hl.rel_of_mem_take_of_mem_drop ha (hsub.subset hb)

/-- Two neighbours of a sorted list merged into the later of them leave it sorted. -/
theorem pairwise_merge_next {l : List α} (hl : l.Pairwise r) {m : Nat} (hm : m + 1 < l.length) :
    (l.take m ++ l[m + 1] :: l.drop (m + 2)).Pairwise r := by
  refine pairwise_splice hl (Nat.le_add_right m 2) (fun a ha => ?_) (fun b hb => ?_)
  · have ha' : a ∈ l.take (m + 1) := (List.take_prefix_take_left (Nat.le_succ m)).subset ha
    exact rel_getElem_of_mem_take hl hm ha'
  · exact rel_getElem_of_mem_drop hl hm hb

end Sophon.Sorted
