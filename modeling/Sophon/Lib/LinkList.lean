/-
Doubly linked lists threaded through an indexed store.

Every cell of the store holds a link to the next cell and one to the previous
cell: an index, or `-1` for none.  A list is a run of distinct cells, each linked
forward to the one after it and back to the one before it, with a head link (and
maybe a tail link) at its ends.  `Chain` says that a run of cells is linked so,
between two given end links, and `Linked` that it is a whole list.

An intrusive list is edited in three ways, and each is a theorem here: a cell is
pushed at the front (`Linked.push`), a cell is unlinked by pointing its two
neighbours at each other (`Linked.unlink`), and the contents of a cell are moved
to a free cell with its two neighbours pointed at the new place
(`Linked.move`).  Every edit only ever rewrites a link at one cell, which
`relink` states; `walk` is the loop that follows the next links from a head.

The proofs all cut the list at the edited cell (`chain_append`) and use the two
retargeting lemmas `Chain.setLast` and `Chain.setFirst` on the pieces.
-/
import Mathlib

namespace Sophon.LinkList

variable {next prev next' prev' : Nat → Int}

/-- The link to the first cell of `l`, and `n` when `l` is empty. -/
def firstOr : List Nat → Int → Int
  | [], n => n
  | a :: _, _ => a

/-- The link to the last cell of `l`, and `p` when `l` is empty. -/
def lastOr : List Nat → Int → Int
  | [], p => p
  | a :: l, _ => lastOr l a

/-- The cells of `l` are linked forward and back one after the other, the first
back to `p` and the last forward to `n`. -/
def Chain (next prev : Nat → Int) (p : Int) : List Nat → Int → Prop
  | [], _ => True
  | a :: l, n => prev a = p ∧ next a = firstOr l n ∧ Chain next prev a l n

/-- `l` is the whole list that starts at the link `head`. -/
structure Linked (next prev : Nat → Int) (head : Int) (l : List Nat) : Prop where
  nodup : l.Nodup
  head_eq : head = firstOr l (-1)
  chain : Chain next prev (-1) l (-1)

/-- The links `f` with the link of cell `x` set to `v`; nothing changes when `x`
is `-1`, which names no cell. -/
def relink (f : Nat → Int) (x v : Int) : Nat → Int :=
  fun i => if (i : Int) = x then v else f i

/-- Where a move of the contents of cell `f` to cell `c` puts each cell. -/
def rename (f c : Nat) (j : Nat) : Nat := if j = f then c else j

/-- The cells from the link `i` along `next`, for at most `fuel` of them. -/
def walk (next : Nat → Int) : Nat → Int → List Nat
  | 0, _ => []
  | fuel + 1, i => if i = -1 then [] else i.toNat :: walk next fuel (next i.toNat)

/-! ### The end links -/

@[simp] theorem firstOr_nil (n : Int) : firstOr [] n = n := rfl
@[simp] theorem firstOr_cons (a : Nat) (l : List Nat) (n : Int) : firstOr (a :: l) n = a := rfl
@[simp] theorem lastOr_nil (p : Int) : lastOr [] p = p := rfl
@[simp] theorem lastOr_cons (a : Nat) (l : List Nat) (p : Int) : lastOr (a :: l) p = lastOr l a :=
  rfl

theorem firstOr_append (xs ys : List Nat) (n : Int) :
    firstOr (xs ++ ys) n = firstOr xs (firstOr ys n) := by
  cases xs <;> rfl

theorem lastOr_append (xs ys : List Nat) (p : Int) :
    lastOr (xs ++ ys) p = lastOr ys (lastOr xs p) := by
  induction xs generalizing p with
  | nil => rfl
  | cons a xs ih => exact ih a

/-- The first link of a list is its default or one of its cells. -/
theorem firstOr_eq (l : List Nat) (n : Int) : firstOr l n = n ∨ ∃ c ∈ l, firstOr l n = c := by
  cases l with
  | nil => exact Or.inl rfl
  | cons a l => exact Or.inr ⟨a, List.mem_cons_self .., rfl⟩

/-- The last link of a list is its default or one of its cells. -/
theorem lastOr_eq (l : List Nat) (p : Int) : lastOr l p = p ∨ ∃ c ∈ l, lastOr l p = c := by
  induction l generalizing p with
  | nil => exact Or.inl rfl
  | cons a l ih =>
      rcases ih a with h | ⟨c, hc, h⟩
      · exact Or.inr ⟨a, List.mem_cons_self .., h⟩
      · exact Or.inr ⟨c, List.mem_cons_of_mem a hc, h⟩

theorem firstOr_of_ne_nil {l : List Nat} (h : l ≠ []) (n n' : Int) : firstOr l n = firstOr l n' := by
  cases l with
  | nil => exact absurd rfl h
  | cons a l => rfl

theorem lastOr_of_ne_nil {l : List Nat} (h : l ≠ []) (p p' : Int) : lastOr l p = lastOr l p' := by
  cases l with
  | nil => exact absurd rfl h
  | cons a l => rfl

/-- A list starts at `-1` only when it is empty. -/
theorem firstOr_eq_neg_one {l : List Nat} : firstOr l (-1) = -1 ↔ l = [] := by
  cases l with
  | nil => simp
  | cons a l => simp

/-- A list ends at `-1` only when it is empty. -/
theorem lastOr_eq_neg_one {l : List Nat} : lastOr l (-1) = -1 ↔ l = [] := by
  constructor
  · intro h
    rcases lastOr_eq l (-1) with hl | ⟨c, hc, hl⟩
    · cases l with
      | nil => rfl
      | cons a l =>
          rcases lastOr_eq l a with h' | ⟨c, -, h'⟩ <;> simp only [lastOr_cons, h'] at h <;> omega
    · omega
  · rintro rfl
    rfl

/-- A cell is linked at `x` only when `x` is the link of that cell. -/
theorem natCast_ne_of_not_mem {l : List Nat} {i : Nat} (hi : i ∉ l) {d x : Int}
    (hx : x = d ∨ ∃ c ∈ l, x = c) (hd : d = -1) : (i : Int) ≠ x := by
  rcases hx with hx | ⟨c, hc, hx⟩
  · omega
  · intro h
    rw [hx, Int.natCast_inj] at h
    exact hi (h ▸ hc)

theorem firstOr_ge (l : List Nat) : -1 ≤ firstOr l (-1) := by
  rcases firstOr_eq l (-1) with h | ⟨c, -, h⟩ <;> omega

theorem lastOr_ge (l : List Nat) : -1 ≤ lastOr l (-1) := by
  rcases lastOr_eq l (-1) with h | ⟨c, -, h⟩ <;> omega

/-! ### Chains -/

@[simp] theorem chain_nil (p n : Int) : Chain next prev p [] n := trivial

@[simp] theorem chain_cons (p n : Int) (a : Nat) (l : List Nat) :
    Chain next prev p (a :: l) n ↔ prev a = p ∧ next a = firstOr l n ∧ Chain next prev a l n :=
  Iff.rfl

/-- A chain cut in two is two chains that meet at the cut. -/
theorem chain_append (p n : Int) (xs ys : List Nat) :
    Chain next prev p (xs ++ ys) n ↔
      Chain next prev p xs (firstOr ys n) ∧ Chain next prev (lastOr xs p) ys n := by
  induction xs generalizing p with
  | nil => simp
  | cons a xs ih =>
      simp only [List.cons_append, chain_cons, ih, firstOr_append, lastOr_cons, and_assoc]

/-- A chain reads its links at its own cells only. -/
theorem Chain.congr {p n : Int} {l : List Nat} (h : Chain next prev p l n)
    (hn : ∀ i ∈ l, next' i = next i) (hp : ∀ i ∈ l, prev' i = prev i) :
    Chain next' prev' p l n := by
  induction l generalizing p with
  | nil => trivial
  | cons a l ih =>
      obtain ⟨ha, hna, hl⟩ := h
      refine ⟨?_, ?_, ih hl (fun i hi => hn i (List.mem_cons_of_mem a hi))
        (fun i hi => hp i (List.mem_cons_of_mem a hi))⟩
      · rw [hp a (List.mem_cons_self ..), ha]
      · rw [hn a (List.mem_cons_self ..), hna]

/-- Pointing the last cell of a chain somewhere else ends it there. -/
theorem Chain.setLast {p n n' : Int} {l : List Nat} (h : Chain next prev p l n) (hnd : l.Nodup)
    (hn : ∀ i ∈ l, next' i = if (i : Int) = lastOr l p then n' else next i)
    (hp : ∀ i ∈ l, prev' i = prev i) : Chain next' prev' p l n' := by
  induction l generalizing p with
  | nil => trivial
  | cons a l ih =>
      obtain ⟨ha, hna, hl⟩ := h
      rw [List.nodup_cons] at hnd
      refine ⟨by rw [hp a (List.mem_cons_self ..), ha], ?_,
        ih hl hnd.2 (fun i hi => hn i (List.mem_cons_of_mem a hi))
          (fun i hi => hp i (List.mem_cons_of_mem a hi))⟩
      rw [hn a (List.mem_cons_self ..), lastOr_cons]
      by_cases hne : l = []
      · subst hne
        simp
      -- past the first cell, the last cell of the chain is another one
      · have hlast : (a : Int) ≠ lastOr l a := by
          rw [lastOr_of_ne_nil hne a (-1)]
          rcases lastOr_eq l (-1) with h' | ⟨c, hc, h'⟩
          · exact absurd (lastOr_eq_neg_one.mp h') hne
          · rw [h', Ne, Int.natCast_inj]
            rintro rfl
            exact hnd.1 hc
        rw [if_neg hlast, hna]
        exact firstOr_of_ne_nil hne n n'

/-- Pointing the first cell of a chain back somewhere else starts it there. -/
theorem Chain.setFirst {p p' n : Int} {l : List Nat} (h : Chain next prev p l n) (hnd : l.Nodup)
    (hp : ∀ i ∈ l, prev' i = if (i : Int) = firstOr l n then p' else prev i)
    (hn : ∀ i ∈ l, next' i = next i) : Chain next' prev' p' l n := by
  cases l with
  | nil => trivial
  | cons a l =>
      obtain ⟨-, hna, hl⟩ := h
      rw [List.nodup_cons] at hnd
      refine ⟨by simp [hp a (List.mem_cons_self ..)], by rw [hn a (List.mem_cons_self ..), hna], ?_⟩
      refine hl.congr (fun i hi => hn i (List.mem_cons_of_mem a hi)) (fun i hi => ?_)
      have hia : (i : Int) ≠ firstOr (a :: l) n := by
        rw [firstOr_cons, Ne, Int.natCast_inj]
        rintro rfl
        exact hnd.1 hi
      rw [hp i (List.mem_cons_of_mem a hi), if_neg hia]

/-! ### The three edits -/

@[simp] theorem relink_apply (f : Nat → Int) (x v : Int) (i : Nat) :
    relink f x v i = if (i : Int) = x then v else f i := rfl

@[simp] theorem relink_neg_one (f : Nat → Int) (v : Int) : relink f (-1) v = f := by
  funext j
  rw [relink_apply, if_neg (by omega)]

/-- A link is `-1` or a cell. -/
theorem link_cases {x : Int} (hx : -1 ≤ x) : x = -1 ∨ ∃ c : Nat, x = c := by
  by_cases h : x = -1
  · exact Or.inl h
  · exact Or.inr ⟨x.toNat, by omega⟩

section Edits

variable {head : Int} {xs ys l : List Nat}

theorem Linked.congr (h : Linked next prev head l) (hn : ∀ i ∈ l, next' i = next i)
    (hp : ∀ i ∈ l, prev' i = prev i) : Linked next' prev' head l :=
  ⟨h.nodup, h.head_eq, h.chain.congr hn hp⟩

/-- The links of a cell of a list name its neighbours. -/
theorem Linked.links {a : Nat} (h : Linked next prev head (xs ++ a :: ys)) :
    prev a = lastOr xs (-1) ∧ next a = firstOr ys (-1) := by
  have hchain := h.chain
  rw [chain_append] at hchain
  exact ⟨hchain.2.1, hchain.2.2.1⟩

/-- Every link of a list is `-1` or a cell. -/
theorem Linked.head_ge (h : Linked next prev head l) : -1 ≤ head :=
  h.head_eq ▸ firstOr_ge l

theorem Linked.links_ge {a : Nat} (h : Linked next prev head l) (ha : a ∈ l) :
    -1 ≤ prev a ∧ -1 ≤ next a := by
  obtain ⟨xs, ys, rfl⟩ := List.append_of_mem ha
  obtain ⟨hp, hn⟩ := h.links
  exact ⟨hp ▸ lastOr_ge xs, hn ▸ firstOr_ge ys⟩

/-- No cell of a list is linked forward to itself. -/
theorem Linked.next_ne {a : Nat} (h : Linked next prev head l) (ha : a ∈ l) : next a ≠ (a : Int) := by
  obtain ⟨xs, ys, rfl⟩ := List.append_of_mem ha
  have hay : a ∉ ys := by
    have hnd := h.nodup
    rw [List.nodup_append, List.nodup_cons] at hnd
    exact hnd.2.1.1
  rw [h.links.2]
  exact (natCast_ne_of_not_mem hay (firstOr_eq ys (-1)) rfl).symm

/-- Past its cut cell, a list with distinct cells holds the others. -/
theorem mem_append_cons_iff {a j : Nat} (hnd : (xs ++ a :: ys).Nodup) :
    j ∈ xs ++ ys ↔ j ∈ xs ++ a :: ys ∧ j ≠ a := by
  rw [List.nodup_append, List.nodup_cons] at hnd
  obtain ⟨-, ⟨hay, -⟩, hdisj⟩ := hnd
  simp only [List.mem_append, List.mem_cons]
  constructor
  · rintro (hj | hj)
    · exact ⟨Or.inl hj, fun h => hdisj j hj a (List.mem_cons_self ..) h⟩
    · exact ⟨Or.inr (Or.inr hj), fun h => hay (h ▸ hj)⟩
  · rintro ⟨hj | rfl | hj, hne⟩
    · exact Or.inl hj
    · exact absurd rfl hne
    · exact Or.inr hj

/-- **Unlinking a cell.**  Its neighbours are pointed at each other, and the head
moves on when the cell was first. -/
theorem Linked.unlink {f : Nat} (h : Linked next prev head (xs ++ f :: ys)) :
    Linked (relink next (prev f) (next f)) (relink prev (next f) (prev f))
      (if prev f = -1 then next f else head) (xs ++ ys) := by
  obtain ⟨hnd, hhead, hchain⟩ := h
  rw [chain_append] at hchain
  obtain ⟨hxs, hpf, hnf, hys⟩ := hchain
  rw [firstOr_cons] at hxs
  have hnd' := hnd
  rw [List.nodup_append, List.nodup_cons] at hnd'
  obtain ⟨hndx, ⟨hfy, hndy⟩, hdisj⟩ := hnd'
  have hxy : ∀ i ∈ xs, i ∉ ys := fun i hi hiy => hdisj i hi i (List.mem_cons_of_mem f hiy) rfl
  refine ⟨hnd.sublist ((List.sublist_cons_self f ys).append_left xs),
    ?_, ?_⟩
  · -- the head moves only when nothing stands before the cell
    rw [hpf, firstOr_append]
    by_cases hne : xs = []
    · subst hne
      simp [hnf]
    · have hlast : lastOr xs (-1) ≠ -1 := fun h' => hne (lastOr_eq_neg_one.mp h')
      rw [if_neg hlast, hhead, firstOr_append]
      exact firstOr_of_ne_nil hne _ _
  · rw [chain_append]
    constructor
    · refine hxs.setLast hndx (fun i hi => ?_) (fun i hi => ?_)
      · rw [relink_apply, hpf, hnf]
      · rw [relink_apply, if_neg (natCast_ne_of_not_mem (hxy i hi) (hnf ▸ firstOr_eq ys (-1)) rfl)]
    · refine hys.setFirst hndy (fun i hi => ?_) (fun i hi => ?_)
      · rw [relink_apply, hnf, hpf]
      · rw [relink_apply, if_neg (natCast_ne_of_not_mem (fun hix => hxy i hix hi)
          (hpf ▸ lastOr_eq xs (-1)) rfl)]

/-- The tail after unlinking a cell: it moves back when the cell was last. -/
theorem Linked.lastOr_unlink {f : Nat} (h : Linked next prev head (xs ++ f :: ys)) :
    lastOr (xs ++ ys) (-1) = if next f = -1 then prev f else lastOr (xs ++ f :: ys) (-1) := by
  obtain ⟨-, -, hchain⟩ := h
  rw [chain_append] at hchain
  obtain ⟨-, hpf, hnf, -⟩ := hchain
  rw [lastOr_append, lastOr_append, lastOr_cons]
  by_cases hne : ys = []
  · subst hne
    simp [hnf, hpf]
  · have hfirst : firstOr ys (-1) ≠ -1 := fun h' => hne (firstOr_eq_neg_one.mp h')
    rw [hnf, if_neg hfirst]
    exact lastOr_of_ne_nil hne _ _

/-- **Moving a cell.**  Its contents go to the free cell `c`, and its neighbours
are pointed at `c`. -/
theorem Linked.move {f c : Nat} (h : Linked next prev head (xs ++ f :: ys))
    (hc : c ∉ xs ++ f :: ys) :
    Linked (relink (Function.update next c (next f)) (prev f) c)
      (relink (Function.update prev c (prev f)) (next f) c)
      (if prev f = -1 then c else head) (xs ++ c :: ys) := by
  obtain ⟨hnd, hhead, hchain⟩ := h
  rw [chain_append] at hchain
  obtain ⟨hxs, hpf, hnf, hys⟩ := hchain
  rw [firstOr_cons] at hxs
  have hnd' := hnd
  rw [List.nodup_append, List.nodup_cons] at hnd'
  obtain ⟨hndx, ⟨hfy, hndy⟩, hdisj⟩ := hnd'
  have hxy : ∀ i ∈ xs, i ∉ ys := fun i hi hiy => hdisj i hi i (List.mem_cons_of_mem f hiy) rfl
  have hcx : c ∉ xs := fun h' => hc (List.mem_append_left _ h')
  have hcy : c ∉ ys := fun h' => hc (List.mem_append_right _ (List.mem_cons_of_mem f h'))
  have hcnext : (c : Int) ≠ next f := natCast_ne_of_not_mem hcy (hnf ▸ firstOr_eq ys (-1)) rfl
  have hcprev : (c : Int) ≠ prev f := natCast_ne_of_not_mem hcx (hpf ▸ lastOr_eq xs (-1)) rfl
  refine ⟨?_, ?_, ?_⟩
  · rw [List.nodup_append, List.nodup_cons]
    refine ⟨hndx, ⟨hcy, hndy⟩, fun a ha b hb hab => ?_⟩
    subst hab
    rcases List.mem_cons.mp hb with rfl | hb
    · exact hcx ha
    · exact hxy a ha hb
  · rw [hpf, firstOr_append]
    by_cases hne : xs = []
    · subst hne
      simp
    · have hlast : lastOr xs (-1) ≠ -1 := fun h' => hne (lastOr_eq_neg_one.mp h')
      rw [if_neg hlast, hhead, firstOr_append]
      exact firstOr_of_ne_nil hne _ _
  · rw [chain_append, chain_cons, firstOr_cons]
    refine ⟨?_, ?_, ?_, ?_⟩
    · refine hxs.setLast hndx (fun i hi => ?_) (fun i hi => ?_)
      · have hic : i ≠ c := fun h' => hcx (h' ▸ hi)
        rw [relink_apply, Function.update_of_ne hic, hpf]
      · have hic : i ≠ c := fun h' => hcx (h' ▸ hi)
        rw [relink_apply, Function.update_of_ne hic,
          if_neg (natCast_ne_of_not_mem (hxy i hi) (hnf ▸ firstOr_eq ys (-1)) rfl)]
    · rw [relink_apply, if_neg hcnext, Function.update_self, hpf]
    · rw [relink_apply, if_neg hcprev, Function.update_self, hnf]
    · refine hys.setFirst hndy (fun i hi => ?_) (fun i hi => ?_)
      · have hic : i ≠ c := fun h' => hcy (h' ▸ hi)
        rw [relink_apply, Function.update_of_ne hic, hnf]
      · have hic : i ≠ c := fun h' => hcy (h' ▸ hi)
        rw [relink_apply, Function.update_of_ne hic, if_neg (natCast_ne_of_not_mem
          (fun hix => hxy i hix hi) (hpf ▸ lastOr_eq xs (-1)) rfl)]

/-- The tail after moving a cell: it follows the cell when the cell was last. -/
theorem Linked.lastOr_move {f c : Nat} (h : Linked next prev head (xs ++ f :: ys)) :
    lastOr (xs ++ c :: ys) (-1) = if next f = -1 then (c : Int) else lastOr (xs ++ f :: ys) (-1) := by
  obtain ⟨-, -, hchain⟩ := h
  rw [chain_append] at hchain
  obtain ⟨-, -, hnf, -⟩ := hchain
  rw [lastOr_append, lastOr_append, lastOr_cons, lastOr_cons]
  by_cases hne : ys = []
  · subst hne
    simp [hnf]
  · have hfirst : firstOr ys (-1) ≠ -1 := fun h' => hne (firstOr_eq_neg_one.mp h')
    rw [hnf, if_neg hfirst]
    exact lastOr_of_ne_nil hne _ _

/-- A list without `f` is left as it is by renaming `f`. -/
theorem map_rename_of_not_mem {f c : Nat} {l : List Nat} (hf : f ∉ l) : l.map (rename f c) = l := by
  have hid : ∀ j ∈ l, rename f c j = id j := fun j hj => if_neg fun (h : j = f) => hf (h ▸ hj)
  rw [List.map_congr_left hid, List.map_id]

/-- A move renames the moved cell in the list, in its place. -/
theorem map_rename_cut {f c : Nat} (hnd : (xs ++ f :: ys).Nodup) :
    (xs ++ f :: ys).map (rename f c) = xs ++ c :: ys := by
  rw [List.nodup_append, List.nodup_cons] at hnd
  obtain ⟨-, ⟨hfy, -⟩, hdisj⟩ := hnd
  have hfx : f ∉ xs := fun h => hdisj f h f (List.mem_cons_self ..) rfl
  rw [List.map_append, List.map_cons, map_rename_of_not_mem hfx, map_rename_of_not_mem hfy]
  simp [rename]

/-- A cell moved onto itself renames nothing. -/
@[simp] theorem map_rename_self (f : Nat) (l : List Nat) : l.map (rename f f) = l := by
  have hid : ∀ j ∈ l, rename f f j = id j := fun j _ => by
    unfold rename
    split_ifs with h
    · exact h.symm
    · rfl
  rw [List.map_congr_left hid, List.map_id]

/-- **Pushing a cell at the front.** -/
theorem Linked.push {a : Nat} (h : Linked next prev head l) (ha : a ∉ l) :
    Linked (Function.update next a head) (relink (Function.update prev a (-1)) head a) a (a :: l) := by
  obtain ⟨hnd, hhead, hchain⟩ := h
  have hah : (a : Int) ≠ head := natCast_ne_of_not_mem ha (hhead ▸ firstOr_eq l (-1)) rfl
  refine ⟨List.nodup_cons.mpr ⟨ha, hnd⟩, rfl, ?_, ?_, ?_⟩
  · rw [relink_apply, if_neg hah, Function.update_self]
  · rw [Function.update_self, hhead]
  · refine hchain.setFirst hnd (fun i hi => ?_) (fun i hi => ?_)
    · have hia : i ≠ a := fun h' => ha (h' ▸ hi)
      rw [relink_apply, Function.update_of_ne hia, hhead]
    · have hia : i ≠ a := fun h' => ha (h' ▸ hi)
      rw [Function.update_of_ne hia]

/-- The tail after a push: the pushed cell when the list was empty. -/
theorem lastOr_push (a : Nat) (l : List Nat) :
    lastOr (a :: l) (-1) = if lastOr l (-1) = -1 then (a : Int) else lastOr l (-1) := by
  rw [lastOr_cons]
  by_cases hne : l = []
  · subst hne
    simp
  · rw [if_neg (fun h' => hne (lastOr_eq_neg_one.mp h'))]
    exact lastOr_of_ne_nil hne _ _

end Edits

/-! ### Walking a list -/

/-- Following the next links from the head of a chain gives the chain, given fuel
for every cell. -/
theorem Chain.walk_eq {p : Int} {l : List Nat} (h : Chain next prev p l (-1)) {fuel : Nat}
    (hfuel : l.length ≤ fuel) : walk next fuel (firstOr l (-1)) = l := by
  induction l generalizing p fuel with
  | nil => cases fuel <;> rfl
  | cons a l ih =>
      obtain ⟨-, hna, hl⟩ := h
      obtain ⟨k, rfl⟩ : ∃ k, fuel = k + 1 := ⟨fuel - 1, by simp at hfuel; omega⟩
      simp only [walk, firstOr_cons, Int.toNat_natCast, hna]
      rw [if_neg (by omega), ih hl (by simpa using hfuel)]

theorem Linked.walk_eq {head : Int} {l : List Nat} (h : Linked next prev head l) {fuel : Nat}
    (hfuel : l.length ≤ fuel) : walk next fuel head = l := by
  rw [h.head_eq]
  exact h.chain.walk_eq hfuel

end Sophon.LinkList
