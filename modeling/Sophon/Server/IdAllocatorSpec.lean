/-
The allocator never hands an ID out twice.

`Refresh` leaves the pool a duplicate-free listing of the free IDs, those of
`[min, max]` not in use (`refresh_spec`), and, with `unusedIDFirst`, the IDs beyond
the last in-use one come first; both parts are sorted in the sorter's order
(`Sorter.lt`).  This rests on three facts about the sorters: a sorted listing of a
set is duplicate-free and strictly ordered (`sortSet_pairwise`), the last element of
it is the extreme of the set, and the walk of `generateUsedIDSet` collects exactly
the usable IDs before that extreme (`generateUsedIDSetWith_spec`, from
`Sorted.mem_takeWhile_iff`).

After `Refresh`, the allocator and the IDs it has handed out and not taken back form
a `Pool`.  What a run keeps is `Pool.Inv`: the pool is duplicate-free, holds only
free IDs, and none it has handed out.  `Allocate` either fails and changes nothing or
hands out some of the pool's first IDs and drops them (`allocate_cases`);
`Recycle` appends IDs that were out.  So the invariant holds at every pool a run
reaches (`Reachable.inv`), and an allocation from there hands out free IDs, none
twice and none still out.
-/
import Sophon.Server.IdAllocator
import Sophon.Lib.Sorted

namespace Sophon.Server.IdMng

/-! ### Listings and sorting -/

namespace ToSlice

theorem nodup (ts : ToSlice) (s : Finset Int) : (ts.toSlice s).Nodup := by
  have h := s.nodup
  rw [← ts.listing s] at h
  exact Multiset.coe_nodup.mp h

@[simp] theorem mem_toSlice (ts : ToSlice) (s : Finset Int) (x : Int) :
    x ∈ ts.toSlice s ↔ x ∈ s := by
  rw [← Multiset.mem_coe, ts.listing s]
  rfl

theorem length_toSlice (ts : ToSlice) (s : Finset Int) : (ts.toSlice s).length = s.card := by
  rw [← Multiset.coe_card, ts.listing s]
  rfl

end ToSlice

namespace Sorter

/-- Before, in the sorter's order. -/
def lt : Sorter → Int → Int → Prop
  | .asc, x, y => x < y
  | .desc, x, y => y < x

theorem lt_trans : ∀ (dir : Sorter) {x y z : Int}, dir.lt x y → dir.lt y z → dir.lt x z
  | .asc, _, _, _, h₁, h₂ => Int.lt_trans h₁ h₂
  | .desc, _, _, _, h₁, h₂ => Int.lt_trans h₂ h₁

theorem lt_asymm : ∀ (dir : Sorter) {x y : Int}, dir.lt x y → ¬dir.lt y x
  | .asc, _, _, h => Int.not_lt.mpr (Int.le_of_lt h)
  | .desc, _, _, h => Int.not_lt.mpr (Int.le_of_lt h)

theorem lt_or_lt : ∀ (dir : Sorter) {x y : Int}, x ≠ y → dir.lt x y ∨ dir.lt y x
  | .asc, _, _, h => by simp only [lt]; omega
  | .desc, _, _, h => by simp only [lt]; omega

theorem sort_perm : ∀ (dir : Sorter) (l : List Int), (dir.sort l).Perm l
  | .asc, l => List.mergeSort_perm l _
  | .desc, l => (List.mergeSort_perm _ _).trans (List.mergeSort_perm l _)

/-- Both sorts order a duplicate-free list strictly: sorted by `≤` (or `≥`), and no two
elements equal. -/
theorem sort_pairwise : ∀ (dir : Sorter) {l : List Int}, l.Nodup → (dir.sort l).Pairwise dir.lt
  | .asc, l, h => by
    have hle := List.pairwise_mergeSort' (· ≤ ·) l
    have hne := ((sort_perm .asc l).nodup_iff).mpr h
    exact (hle.and hne).imp fun ⟨h₁, h₂⟩ => lt_of_le_of_ne h₁ h₂
  | .desc, l, h => by
    have hge := List.pairwise_mergeSort' (· ≥ ·) (l.mergeSort (· ≤ ·))
    have hne := ((sort_perm .desc l).nodup_iff).mpr h
    exact (hge.and hne).imp fun ⟨h₁, h₂⟩ => lt_of_le_of_ne h₁ (Ne.symm h₂)

theorem sortSet_eq (ts : ToSlice) : ∀ (dir : Sorter) (s : Finset Int),
    dir.sortSet ts s = dir.sort (ts.toSlice s)
  | .asc, _ => rfl
  | .desc, _ => rfl

theorem sortSet_nodup (ts : ToSlice) (dir : Sorter) (s : Finset Int) :
    (dir.sortSet ts s).Nodup := by
  rw [sortSet_eq]
  exact ((sort_perm dir _).nodup_iff).mpr (ts.nodup s)

@[simp] theorem mem_sortSet (ts : ToSlice) (dir : Sorter) (s : Finset Int) (x : Int) :
    x ∈ dir.sortSet ts s ↔ x ∈ s := by
  rw [sortSet_eq, (sort_perm dir _).mem_iff, ToSlice.mem_toSlice]

theorem length_sortSet (ts : ToSlice) (dir : Sorter) (s : Finset Int) :
    (dir.sortSet ts s).length = s.card := by
  rw [sortSet_eq, (sort_perm dir _).length_eq, ToSlice.length_toSlice]

theorem sortSet_pairwise (ts : ToSlice) (dir : Sorter) (s : Finset Int) :
    (dir.sortSet ts s).Pairwise dir.lt := by
  rw [sortSet_eq]
  exact sort_pairwise dir (ts.nodup s)

end Sorter

/-! ### The used IDs -/

/-- `generateUsedIDSet` for a sorted listing of a non-empty in-use set: its last element
`e` is the extreme of the set, and the walk over a sorted list keeps exactly the
elements before `e`. -/
theorem generateUsedIDSetWith_spec {sortSet : Finset Int → List Int} {before : Int → Int → Bool}
    {r : Int → Int → Prop}
    (hsort : ∀ s, (sortSet s).Pairwise r ∧ (sortSet s).length = s.card ∧ ∀ x, x ∈ sortSet s ↔ x ∈ s)
    (hbefore : ∀ x y, before x y = true ↔ r x y) (htrans : ∀ x y z, r x y → r y z → r x z)
    {l : List Int} (hl : l.Pairwise r) {S : Finset Int} (hS : S.Nonempty) :
    ∃ e ∈ S, (∀ s ∈ S, s = e ∨ r s e) ∧ ∃ used, generateUsedIDSetWith sortSet before l S = some used ∧
      ∀ x, x ∈ used ↔ x ∈ l ∧ r x e := by
  obtain ⟨hpw, hlen, hmem⟩ := hsort S
  have hcard : 0 < S.card := Finset.card_pos.mpr hS
  have hidx : S.card - 1 < (sortSet S).length := by omega
  -- the index `card - 1` is the last of the sorted listing
  obtain ⟨e, he⟩ : ∃ e, (sortSet S)[S.card - 1]? = some e :=
    ⟨_, List.getElem?_eq_getElem hidx⟩
  have heS : e ∈ S := (hmem e).mp (List.mem_of_getElem? he)
  have hlast : ∀ s ∈ S, s = e ∨ r s e := by
    intro s hs
    rw [← hlen] at he
    exact Sorted.mem_last hpw he s ((hmem s).mpr hs)
  refine ⟨e, heS, hlast, _, by rw [generateUsedIDSetWith, he, Option.map_some], fun x => ?_⟩
  rw [List.mem_toFinset, Sorted.mem_takeWhile_iff _ hl x, hbefore]
  intro y z hyz hz
  exact (hbefore y e).mpr (htrans y z e hyz ((hbefore z e).mp hz))

theorem Sorter.generateUsedIDSet_spec (ts : ToSlice) (dir : Sorter) {l : List Int}
    (hl : l.Pairwise dir.lt) {S : Finset Int} (hS : S.Nonempty) :
    ∃ e ∈ S, (∀ s ∈ S, s = e ∨ dir.lt s e) ∧ ∃ used, dir.generateUsedIDSet ts l S = some used ∧
      ∀ x, x ∈ used ↔ x ∈ l ∧ dir.lt x e := by
  have hsort : ∀ s, (dir.sortSet ts s).Pairwise dir.lt ∧ (dir.sortSet ts s).length = s.card ∧
      ∀ x, x ∈ dir.sortSet ts s ↔ x ∈ s :=
    fun s => ⟨sortSet_pairwise ts dir s, length_sortSet ts dir s, mem_sortSet ts dir s⟩
  have htrans : ∀ x y z, dir.lt x y → dir.lt y z → dir.lt x z := fun _ _ _ => dir.lt_trans
  cases dir with
  | asc =>
    exact generateUsedIDSetWith_spec hsort
      (fun x y => show decide (x < y) = true ↔ x < y from decide_eq_true_iff) htrans hl hS
  | desc =>
    exact generateUsedIDSetWith_spec hsort
      (fun x y => show decide (x > y) = true ↔ y < x from decide_eq_true_iff) htrans hl hS

/-! ### `Refresh` -/

namespace Allocator

/-- An ID of the range that was not in use at `Refresh`. -/
def Free (a : Allocator) (S : Finset Int) (x : Int) : Prop := a.min ≤ x ∧ x ≤ a.max ∧ x ∉ S

@[simp] theorem mem_generateAllIDSet (a : Allocator) (x : Int) :
    x ∈ a.generateAllIDSet ↔ a.min ≤ x ∧ x ≤ a.max := by
  simp only [generateAllIDSet, List.mem_toFinset, List.mem_map, List.mem_range]
  constructor
  · rintro ⟨i, hi, rfl⟩
    omega
  · intro h
    exact ⟨(x - a.min).toNat, by omega, by omega⟩

/-- How `Refresh` lays the pool out: with `unusedIDFirst` and IDs in use, first those
beyond every in-use ID, then the others, each part in the sorter's order; otherwise
all of it in that order. -/
def Layout (dir : Sorter) (unusedIDFirst : Bool) (S : Finset Int) (ids : List Int) : Prop :=
  if unusedIDFirst = true ∧ S.Nonempty then
    ∃ unused used, ids = unused ++ used ∧ (∀ x ∈ unused, ∀ s ∈ S, dir.lt s x) ∧
      (∀ x ∈ used, ∃ s ∈ S, ¬dir.lt s x) ∧ unused.Pairwise dir.lt ∧ used.Pairwise dir.lt
  else ids.Pairwise dir.lt

/-- The two parts of the pool with `unusedIDFirst`: the usable IDs not before the last
in-use ID `e` are beyond every in-use one; the others are not. -/
theorem layout_split (ts : ToSlice) (a : Allocator) {S usable used : Finset Int} {e : Int}
    (heS : e ∈ S) (hlast : ∀ s ∈ S, s = e ∨ a.sorter.lt s e) (hdisj : ∀ x ∈ usable, x ∉ S)
    (hused : ∀ x, x ∈ used ↔ x ∈ usable ∧ a.sorter.lt x e) :
    Layout a.sorter true S (a.sorter.sortSet ts (usable \ used) ++ a.sorter.sortSet ts used) := by
  rw [Layout, if_pos ⟨rfl, ⟨e, heS⟩⟩]
  refine ⟨_, _, rfl, fun x hx s hs => ?_, fun x hx => ?_, Sorter.sortSet_pairwise ts _ _,
    Sorter.sortSet_pairwise ts _ _⟩
  · -- not before `e`, and not `e` itself, which is in use: after `e`, so after all of `S`
    rw [Sorter.mem_sortSet, Finset.mem_sdiff, hused] at hx
    have hne : x ≠ e := fun h => hdisj x hx.1 (h ▸ heS)
    have hex : a.sorter.lt e x :=
      (a.sorter.lt_or_lt hne).resolve_left fun h => hx.2 ⟨hx.1, h⟩
    rcases hlast s hs with rfl | hse
    · exact hex
    · exact a.sorter.lt_trans hse hex
  · rw [Sorter.mem_sortSet, hused] at hx
    exact ⟨e, heS, a.sorter.lt_asymm hx.2⟩

/-- `Refresh` with the in-use set `S`: it does not panic, and the pool it leaves lists
the free IDs once each, laid out as `Layout` says. -/
theorem refresh_spec (ts : ToSlice) (a : Allocator) (S : Finset Int) :
    ∃ ids, a.refresh ts (.ok S) = some (.ok { a with usableIDs := ids }) ∧ ids.Nodup ∧
      (∀ x, x ∈ ids ↔ a.Free S x) ∧ Layout a.sorter a.unusedIDFirst S ids := by
  simp only [refresh, generateSortedUsableIDs]
  by_cases hcard : S.card = 0
  · -- nothing in use: the whole range, sorted
    rw [if_pos hcard]
    have hS : S = ∅ := Finset.card_eq_zero.mp hcard
    refine ⟨_, rfl, Sorter.sortSet_nodup ts _ _, fun x => ?_, ?_⟩
    · simp [Free, hS]
    · rw [Layout, if_neg (by simp [hS])]
      exact Sorter.sortSet_pairwise ts _ _
  rw [if_neg hcard]
  have hfree : ∀ x, x ∈ a.generateAllIDSet \ S ↔ a.Free S x := by
    intro x
    simp [Free, and_assoc]
  cases hfirst : a.unusedIDFirst
  · -- the usable IDs, sorted
    refine ⟨_, rfl, Sorter.sortSet_nodup ts _ _, fun x => ?_, ?_⟩
    · rw [Sorter.mem_sortSet, hfree]
    · rw [Layout, if_neg (by simp)]
      exact Sorter.sortSet_pairwise ts _ _
  have hS : S.Nonempty := Finset.card_pos.mp (Nat.pos_of_ne_zero hcard)
  obtain ⟨e, heS, hlast, used, hgen, hused⟩ :=
    a.sorter.generateUsedIDSet_spec ts (Sorter.sortSet_pairwise ts _ (a.generateAllIDSet \ S)) hS
  simp only [Sorter.mem_sortSet] at hused
  simp only [if_true, hgen, Option.map_some]
  refine ⟨_, rfl, ?_, fun x => ?_, layout_split ts a heS hlast (fun x hx => (Finset.mem_sdiff.mp hx).2) hused⟩
  · -- the two parts are disjoint
    rw [List.nodup_append]
    refine ⟨Sorter.sortSet_nodup ts _ _, Sorter.sortSet_nodup ts _ _, fun x hx y hy hxy => ?_⟩
    rw [Sorter.mem_sortSet, Finset.mem_sdiff] at hx
    rw [Sorter.mem_sortSet] at hy
    exact hx.2 (hxy ▸ hy)
  · -- together they are the usable IDs
    rw [List.mem_append, Sorter.mem_sortSet, Sorter.mem_sortSet, Finset.mem_sdiff, ← hfree]
    constructor
    · rintro (h | h)
      · exact h.1
      · exact ((hused x).mp h).1
    · intro h
      by_cases hx : x ∈ used
      · exact .inr hx
      · exact .inl ⟨h, hx⟩

/-! ### `Allocate` and `Recycle` -/

/-- What `Allocate` can do, from `make([]int, trueCount)` on: fail and change nothing,
or hand out some of the first `trueCount` IDs of the pool, each once, and drop those
`trueCount` from the pool. -/
theorem allocateFirst_cases {ts : ToSlice} {a a' : Allocator} {k : Int}
    {check : List Int → Except String (List Int)} {ids : List Int} {err : Option AllocateError}
    (h : a.allocateFirst ts k check = some ((ids, err), a')) :
    (err ≠ none ∧ a' = a) ∨
      (err = none ∧ a' = { a with usableIDs := a.usableIDs.drop k.toNat } ∧
        (∀ x ∈ ids, x ∈ a.usableIDs.take k.toNat) ∧ (a.usableIDs.Nodup → ids.Nodup)) := by
  unfold allocateFirst at h
  by_cases hk : k < 0
  · rw [if_pos hk] at h
    cases h
  rw [if_neg hk] at h
  dsimp only at h
  cases hc : check (a.usableIDs.take k.toNat) with
  | error e =>
    rw [hc] at h
    cases h
    exact .inl ⟨by simp, rfl⟩
  | ok inUseIDs =>
    rw [hc] at h
    dsimp only at h
    by_cases hin : inUseIDs.length ≠ 0
    · rw [if_pos hin] at h
      cases hs : a.allocationCountStrict
      · -- the first IDs less those in use, listed by `ToSlice`
        rw [hs] at h
        cases h
        refine .inr ⟨rfl, rfl, fun x hx => ?_, fun _ => ts.nodup _⟩
        rw [ToSlice.mem_toSlice, Finset.mem_sdiff, List.mem_toFinset] at hx
        exact hx.1
      · rw [hs] at h
        cases h
        exact .inl ⟨by simp, rfl⟩
    · rw [if_neg hin] at h
      cases h
      exact .inr ⟨rfl, rfl, fun x hx => hx, fun hnd => hnd.sublist (List.take_sublist _ _)⟩

theorem allocate_cases {ts : ToSlice} {a a' : Allocator} {count : Int}
    {check : List Int → Except String (List Int)} {ids : List Int} {err : Option AllocateError}
    (h : a.allocate ts count check = some ((ids, err), a')) :
    (err ≠ none ∧ a' = a) ∨
      ∃ k : Nat, err = none ∧ a' = { a with usableIDs := a.usableIDs.drop k } ∧
        (∀ x ∈ ids, x ∈ a.usableIDs.take k) ∧ (a.usableIDs.Nodup → ids.Nodup) := by
  unfold allocate at h
  split at h
  · cases h
    exact .inl ⟨by simp, rfl⟩
  split at h
  · split at h
    · cases h
      exact .inl ⟨by simp, rfl⟩
    · rcases allocateFirst_cases h with h' | ⟨h₁, h₂, h₃, h₄⟩
      · exact .inl h'
      · exact .inr ⟨_, h₁, h₂, h₃, h₄⟩
  · rcases allocateFirst_cases h with h' | ⟨h₁, h₂, h₃, h₄⟩
    · exact .inl h'
    · exact .inr ⟨_, h₁, h₂, h₃, h₄⟩

/-- `Allocate` with a count that is not negative does not panic. -/
theorem allocate_isSome (ts : ToSlice) (a : Allocator) {count : Int} (hcount : 0 ≤ count)
    (check : List Int → Except String (List Int)) : ∃ r, a.allocate ts count check = some r := by
  have hfirst : ∀ k : Int, 0 ≤ k → ∃ r, a.allocateFirst ts k check = some r := by
    intro k hk
    unfold allocateFirst
    rw [if_neg (by omega)]
    dsimp only
    cases check (a.usableIDs.take k.toNat) with
    | error e => exact ⟨_, rfl⟩
    | ok inUseIDs =>
      dsimp only
      by_cases hin : inUseIDs.length ≠ 0
      · rw [if_pos hin]
        cases a.allocationCountStrict
        · exact ⟨_, rfl⟩
        · exact ⟨_, rfl⟩
      · rw [if_neg hin]
        exact ⟨_, rfl⟩
  unfold allocate
  split
  · exact ⟨_, rfl⟩
  split
  · split
    · exact ⟨_, rfl⟩
    · exact hfirst _ (by omega)
  · exact hfirst _ hcount

end Allocator

/-! ### Runs -/

/-- The allocator with the IDs it has handed out and not taken back. -/
structure Pool where
  alloc : Allocator
  outstanding : Finset Int

/-- What a run keeps, for an allocator refreshed from `a` with the in-use set `S`: the
pool lists free IDs, each once, none of them out. -/
structure Pool.Inv (a : Allocator) (S : Finset Int) (p : Pool) : Prop where
  nodup : p.alloc.usableIDs.Nodup
  usable_free : ∀ x ∈ p.alloc.usableIDs, a.Free S x
  outstanding_free : ∀ x ∈ p.outstanding, a.Free S x
  disjoint : ∀ x ∈ p.alloc.usableIDs, x ∉ p.outstanding

namespace Pool.Inv

variable {a : Allocator} {S : Finset Int} {p : Pool}

/-- An allocation hands out free IDs, each once and none already out, and keeps the
invariant with them out. -/
theorem allocate (hinv : p.Inv a S) {ts : ToSlice} {count : Int}
    {check : List Int → Except String (List Int)} {ids : List Int} {err : Option AllocateError}
    {a' : Allocator} (h : p.alloc.allocate ts count check = some ((ids, err), a')) :
    (err = none → ids.Nodup ∧ (∀ x ∈ ids, a.Free S x) ∧ ∀ x ∈ ids, x ∉ p.outstanding) ∧
      Pool.Inv a S ⟨a', if err = none then p.outstanding ∪ ids.toFinset else p.outstanding⟩ := by
  rcases Allocator.allocate_cases h with ⟨herr, rfl⟩ | ⟨k, rfl, rfl, htake, hnd⟩
  · exact ⟨fun h => absurd h herr, by simpa only [herr, if_false] using hinv⟩
  have hids : ∀ x ∈ ids, x ∈ p.alloc.usableIDs := fun x hx =>
    List.mem_of_mem_take (htake x hx)
  refine ⟨fun _ => ⟨hnd hinv.nodup, fun x hx => hinv.usable_free x (hids x hx),
    fun x hx => hinv.disjoint x (hids x hx)⟩, ?_⟩
  simp only [if_true]
  refine ⟨hinv.nodup.sublist (List.drop_sublist _ _),
    fun x hx => hinv.usable_free x (List.mem_of_mem_drop hx), fun x hx => ?_, fun x hx => ?_⟩
  · rcases Finset.mem_union.mp hx with hx | hx
    · exact hinv.outstanding_free x hx
    · exact hinv.usable_free x (hids x (List.mem_toFinset.mp hx))
  · -- what stays in the pool was not out, and was not among the first `k`
    rw [Finset.mem_union, List.mem_toFinset, not_or]
    refine ⟨hinv.disjoint x (List.mem_of_mem_drop hx), fun hx' => ?_⟩
    exact List.disjoint_take_drop hinv.nodup (Nat.le_refl k) (htake x hx') hx

/-- Recycling IDs that are out, each once, keeps the invariant with them back. -/
theorem recycle (hinv : p.Inv a S) {ids : List Int} (hnd : ids.Nodup)
    (hout : ∀ x ∈ ids, x ∈ p.outstanding) :
    Pool.Inv a S ⟨p.alloc.recycle ids, p.outstanding \ ids.toFinset⟩ := by
  have hsorted : ∀ x, x ∈ p.alloc.sorter.sort ids ↔ x ∈ ids :=
    fun x => (Sorter.sort_perm _ ids).mem_iff
  refine ⟨?_, fun x hx => ?_, fun x hx => hinv.outstanding_free x (Finset.mem_sdiff.mp hx).1,
    fun x hx => ?_⟩
  · rw [Allocator.recycle, List.nodup_append]
    refine ⟨hinv.nodup, (Sorter.sort_perm _ ids).nodup_iff.mpr hnd, fun x hx y hy hxy => ?_⟩
    exact hinv.disjoint x hx (hxy ▸ hout y ((hsorted y).mp hy))
  · rcases List.mem_append.mp hx with hx | hx
    · exact hinv.usable_free x hx
    · exact hinv.outstanding_free x (hout x ((hsorted x).mp hx))
  · rw [Finset.mem_sdiff, List.mem_toFinset, not_and_or, not_not]
    rcases List.mem_append.mp hx with hx | hx
    · exact .inl (hinv.disjoint x hx)
    · exact .inr ((hsorted x).mp hx)

end Pool.Inv

/-- The pools a run reaches after `Refresh` loaded the in-use set `S`: any `Allocate`,
which puts what it hands out out, and any `Recycle` of IDs that are out, each once. -/
inductive Reachable (a : Allocator) (S : Finset Int) : Pool → Prop
  | refresh {ts : ToSlice} {a' : Allocator} :
      a.refresh ts (.ok S) = some (.ok a') → Reachable a S ⟨a', ∅⟩
  | allocate {p : Pool} {ts : ToSlice} {count : Int} {check : List Int → Except String (List Int)}
      {ids : List Int} {err : Option AllocateError} {a' : Allocator} :
      Reachable a S p → p.alloc.allocate ts count check = some ((ids, err), a') →
      Reachable a S ⟨a', if err = none then p.outstanding ∪ ids.toFinset else p.outstanding⟩
  | recycle {p : Pool} {ids : List Int} :
      Reachable a S p → ids.Nodup → (∀ x ∈ ids, x ∈ p.outstanding) →
      Reachable a S ⟨p.alloc.recycle ids, p.outstanding \ ids.toFinset⟩

/-- The invariant holds at every pool a run reaches, by induction on the run. -/
theorem Reachable.inv {a : Allocator} {S : Finset Int} {p : Pool} (h : Reachable a S p) :
    p.Inv a S := by
  induction h with
  | refresh hr =>
    obtain ⟨ids, hids, hnd, hmem, -⟩ := a.refresh_spec _ S
    rw [hr] at hids
    cases hids
    exact ⟨hnd, fun x hx => (hmem x).mp hx, fun x hx => absurd hx (Finset.notMem_empty x),
      fun x _ => Finset.notMem_empty x⟩
  | allocate _ hstep ih => exact (ih.allocate hstep).2
  | recycle _ hnd hout ih => exact ih.recycle hnd hout

/-- Why a run recycles each ID once: `Recycle` keeps every copy it is given, so an ID
listed twice sits in the pool twice, and an `Allocate` of the whole pool that `check`
clears hands it out twice. -/
theorem recycle_duplicate_reissued (ts : ToSlice) (a : Allocator) {ids : List Int}
    (hdup : ¬ids.Nodup) :
    ∃ out a', (a.recycle ids).allocate ts (a.recycle ids).usableIDs.length (fun _ => .ok []) =
      some ((out, none), a') ∧ ¬out.Nodup := by
  have hsort : ¬(a.sorter.sort ids).Nodup := fun h => hdup ((Sorter.sort_perm _ ids).nodup_iff.mp h)
  have hpool : ¬(a.recycle ids).usableIDs.Nodup := fun h =>
    hsort (List.Nodup.of_append_right (by simpa only [Allocator.recycle] using h))
  have hne : (a.recycle ids).usableIDs.length ≠ 0 := fun h => hpool (by
    rw [List.length_eq_zero_iff.mp h]
    exact List.nodup_nil)
  -- the whole pool is taken, and `check` finds none of it in use
  refine ⟨(a.recycle ids).usableIDs, { a.recycle ids with usableIDs := [] }, ?_, hpool⟩
  rw [Allocator.allocate, if_neg hne, if_neg (Int.lt_irrefl _), Allocator.allocateFirst,
    if_neg (by omega)]
  simp

/-- Both sorters, either `unusedIDFirst`, any range and any in-use set `S`: `Refresh`
leaves a pool listing each ID of `[min, max]` not in `S` once, with, when
`unusedIDFirst` is set and `S` is not empty, the IDs beyond every in-use one first and
both parts in the sorter's order.  After it, along any run of `Allocate` and of
`Recycle` that returns IDs that are out, each once, the pool stays duplicate-free, free
and disjoint from the IDs out, and an `Allocate` with a count that is not negative
does not panic and, when it succeeds, hands out free IDs, each once and none already
out. -/
theorem idAllocator_never_reissues (ts : ToSlice) (a : Allocator) (S : Finset Int) :
    (∃ ids, a.refresh ts (.ok S) = some (.ok { a with usableIDs := ids }) ∧ ids.Nodup ∧
      (∀ x, x ∈ ids ↔ a.min ≤ x ∧ x ≤ a.max ∧ x ∉ S) ∧
      (a.unusedIDFirst = true → S.Nonempty → ∃ unused used, ids = unused ++ used ∧
        (∀ x ∈ unused, ∀ s ∈ S, a.sorter.lt s x) ∧ (∀ x ∈ used, ∃ s ∈ S, ¬a.sorter.lt s x) ∧
        unused.Pairwise a.sorter.lt ∧ used.Pairwise a.sorter.lt)) ∧
    ∀ p, Reachable a S p →
      p.alloc.usableIDs.Nodup ∧ (∀ x ∈ p.alloc.usableIDs, a.Free S x ∧ x ∉ p.outstanding) ∧
      ∀ (ts' : ToSlice) (count : Int) (check : List Int → Except String (List Int)), 0 ≤ count →
        ∃ r, p.alloc.allocate ts' count check = some r ∧
          ∀ ids a', r = ((ids, none), a') →
            ids.Nodup ∧ (∀ x ∈ ids, a.Free S x) ∧ ∀ x ∈ ids, x ∉ p.outstanding := by
  refine ⟨?_, fun p hp => ?_⟩
  · obtain ⟨ids, hr, hnd, hmem, hlayout⟩ := a.refresh_spec ts S
    refine ⟨ids, hr, hnd, hmem, fun hfirst hS => ?_⟩
    rw [Allocator.Layout, if_pos ⟨hfirst, hS⟩] at hlayout
    exact hlayout
  have hinv := hp.inv
  refine ⟨hinv.nodup, fun x hx => ⟨hinv.usable_free x hx, hinv.disjoint x hx⟩,
    fun ts' count check hcount => ?_⟩
  obtain ⟨r, hr⟩ := p.alloc.allocate_isSome ts' hcount check
  refine ⟨r, hr, fun ids a' hids => ?_⟩
  rw [hids] at hr
  exact (hinv.allocate hr).1 rfl

/-- `[1, 3]` with 2 in use, ascending: `Refresh` pools 3, the ID beyond every in-use
one, before 1, and after an `Allocate` of one ID the next `Allocate` hands out free
IDs, none of them the one out. -/
theorem idAllocator_never_reissues_refreshed :
    ∃ ids, (newAscIDAllocator "vtap" 1 3).refresh .ascending (.ok {2}) =
        some (.ok { newAscIDAllocator "vtap" 1 3 with usableIDs := ids }) ∧
      (∃ unused used, ids = unused ++ used ∧ (∀ x ∈ unused, ∀ s ∈ ({2} : Finset Int), s < x) ∧
        ∀ x ∈ used, ∃ s ∈ ({2} : Finset Int), ¬ s < x) ∧
      Reachable (newAscIDAllocator "vtap" 1 3) {2}
        ⟨{ newAscIDAllocator "vtap" 1 3 with usableIDs := ids.drop 1 }, (ids.take 1).toFinset⟩ ∧
      ∃ r, ({ newAscIDAllocator "vtap" 1 3 with usableIDs := ids.drop 1 } : Allocator).allocate
          .ascending 1 (fun _ => .ok []) = some r ∧
        ∀ ids' a', r = ((ids', none), a') → ids'.Nodup ∧
          (∀ x ∈ ids', (newAscIDAllocator "vtap" 1 3).Free {2} x) ∧
          ∀ x ∈ ids', x ∉ (ids.take 1).toFinset := by
  obtain ⟨⟨ids, hr, -, hmem, hlay⟩, hrun⟩ :=
    idAllocator_never_reissues .ascending (newAscIDAllocator "vtap" 1 3) {2}
  obtain ⟨unused, used, hsplit, hunused, hused, -⟩ := hlay rfl ⟨2, Finset.mem_singleton_self 2⟩
  -- 3 is in the pool, so the first `Allocate` of one ID takes the pool's first
  have hne : ids.length ≠ 0 :=
    (List.length_pos_iff.mpr (List.ne_nil_of_mem ((hmem 3).mpr ⟨by decide, by decide, by decide⟩))).ne'
  have hstep : ({ newAscIDAllocator "vtap" 1 3 with usableIDs := ids } : Allocator).allocate
      .ascending 1 (fun _ => .ok []) =
      some ((ids.take 1, none), { newAscIDAllocator "vtap" 1 3 with usableIDs := ids.drop 1 }) := by
    unfold Allocator.allocate Allocator.allocateFirst
    dsimp only
    rw [if_neg hne, if_neg (by omega), if_neg (by omega)]
    rfl
  have hreach := (Reachable.refresh hr).allocate hstep
  rw [if_pos rfl, Finset.empty_union] at hreach
  exact ⟨ids, hr, ⟨unused, used, hsplit, hunused, hused⟩, hreach,
    (hrun _ hreach).2.2 .ascending 1 (fun _ => .ok []) (by decide)⟩

end Sophon.Server.IdMng
