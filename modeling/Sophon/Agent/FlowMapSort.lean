/-
`sort_nodes_by_timeout` partitions the vector.

The loop keeps two cursors: every node left of `left` stays, every node right of
`right` times out, and the vector is a permutation of the one it started from.
When the node at `left` times out, the inner loop moves `right` past nodes that
time out, onto a node that stays or below `left`, and the two are swapped.  The
measure `right + 1 - left` falls at every turn, so the fuel of one more than the
length suffices, and at the end `left` is the first index of the nodes that time
out (`sortNodesByTimeout_spec`).  What `flushKey` keeps is then exactly the nodes
that stay (`mem_take_sortNodesByTimeout`).
-/
import Mathlib
import Sophon.Agent.FlowMap

namespace Sophon.Agent

/-! ### `Vec::swap` -/

section Swap

variable {α : Type} [Inhabited α]

theorem getD_mem_of_lt {l : List α} {i : Nat} (hi : i < l.length) : l.getD i default ∈ l := by
  rw [List.getD_eq_getElem _ _ hi]
  exact List.getElem_mem hi

@[simp] theorem length_vecSwap (l : List α) (i j : Nat) : (vecSwap l i j).length = l.length := by
  simp [vecSwap]

theorem vecSwap_perm {l : List α} {i j : Nat} (hi : i < l.length) (hj : j < l.length) :
    (vecSwap l i j).Perm l := by
  unfold vecSwap
  rw [List.getD_eq_getElem _ _ hj, List.getD_eq_getElem _ _ hi]
  exact List.set_set_perm hi hj

theorem getD_vecSwap {l : List α} {i j : Nat} (hi : i < l.length) (hj : j < l.length) (k : Nat) :
    (vecSwap l i j).getD k default =
      if k = j then l.getD i default else if k = i then l.getD j default else l.getD k default := by
  unfold vecSwap
  simp only [List.getD_eq_getElem?_getD, List.getElem?_set, List.length_set]
  by_cases hkj : k = j
  · subst hkj
    simp [hj]
  · by_cases hki : k = i
    · subst hki
      simp [hi, Ne.symm hkj, hkj]
    · simp [Ne.symm hkj, Ne.symm hki, hkj, hki]

end Swap

namespace FlowMap

section SortLoop

variable {timestamp timeInUnit : Nat}

/-- The cursors of `sort_nodes_by_timeout`: the nodes left of `left` stay, those right
of `right` time out, and `left` is at most one past `right`. -/
structure Parted (timestamp timeInUnit : Nat) (nodes : List FlowNode) (left right : Int) :
    Prop where
  left_nonneg : 0 ≤ left
  left_le : left ≤ right + 1
  right_lt : right < nodes.length
  stay : ∀ j : Nat, (j : Int) < left → stays timestamp timeInUnit (nodes.getD j default) = true
  go : ∀ j : Nat, right < j → j < nodes.length →
    stays timestamp timeInUnit (nodes.getD j default) = false

/-- The inner loop stops on the last node at most `right` that stays, or just below
`left`, having passed only nodes that time out. -/
theorem findStaying_spec (timestamp timeInUnit : Nat) (nodes : List FlowNode) (left : Int) :
    ∀ (fuel : Nat) (right : Int), left ≤ right + 1 → right + 1 - left ≤ fuel →
      let r := findStaying nodes timestamp timeInUnit left fuel right
      left - 1 ≤ r ∧ r ≤ right ∧
        (left ≤ r → stays timestamp timeInUnit (nodes.getD r.toNat default) = true) ∧
        ∀ j : Nat, r < j → (j : Int) ≤ right →
          stays timestamp timeInUnit (nodes.getD j default) = false
  | 0, right, hl, hf => by
      simp only [findStaying]
      refine ⟨by omega, Int.le_refl _, fun h => by omega, fun j h1 h2 => by omega⟩
  | fuel + 1, right, hl, hf => by
      simp only [findStaying]
      by_cases hlr : left ≤ right
      · rw [if_pos hlr]
        by_cases hs : stays timestamp timeInUnit (nodes.getD right.toNat default) = true
        · rw [if_pos hs]
          exact ⟨by omega, Int.le_refl _, fun _ => hs, fun j h1 h2 => by omega⟩
        · rw [if_neg hs]
          obtain ⟨hlo, hhi, hat, hgo⟩ :=
            findStaying_spec timestamp timeInUnit nodes left fuel (right - 1) (by omega) (by omega)
          refine ⟨hlo, by omega, hat, fun j h1 h2 => ?_⟩
          -- the node at `right` itself was passed in this turn
          by_cases hj : (j : Int) = right
          · have hj' : j = right.toNat := by omega
            rw [hj']
            simpa using hs
          · exact hgo j h1 (by omega)
      · rw [if_neg hlr]
        exact ⟨by omega, Int.le_refl _, fun h => by omega, fun j h1 h2 => by omega⟩

theorem Parted.advance {nodes : List FlowNode} {left right : Int}
    (hp : Parted timestamp timeInUnit nodes left right) (hlr : left ≤ right)
    (hs : stays timestamp timeInUnit (nodes.getD left.toNat default) = true) :
    Parted timestamp timeInUnit nodes (left + 1) right := by
  refine ⟨by have := hp.left_nonneg; omega, by omega, hp.right_lt, fun j hj => ?_, hp.go⟩
  by_cases hjl : (j : Int) < left
  · exact hp.stay j hjl
  · have hj' : j = left.toNat := by omega
    rw [hj']
    exact hs

/-- `right` fell below `left`: every node from `left` on times out. -/
theorem Parted.retreat {nodes : List FlowNode} {left right : Int}
    (hp : Parted timestamp timeInUnit nodes left right) (hlr : left ≤ right)
    (hgo : ∀ j : Nat, left - 1 < j → (j : Int) ≤ right →
      stays timestamp timeInUnit (nodes.getD j default) = false) :
    Parted timestamp timeInUnit nodes left (left - 1) := by
  have hlt := hp.right_lt
  refine ⟨hp.left_nonneg, by omega, by omega, hp.stay, fun j h1 h2 => ?_⟩
  by_cases hjr : (j : Int) ≤ right
  · exact hgo j h1 hjr
  · exact hp.go j (by omega) h2

/-- The swap puts the node that stays at `left` and the one that times out at `r`. -/
theorem Parted.swap {nodes : List FlowNode} {left right r : Int}
    (hp : Parted timestamp timeInUnit nodes left right)
    (hns : stays timestamp timeInUnit (nodes.getD left.toNat default) = false)
    (hlt : left < r) (hr : r ≤ right)
    (hat : stays timestamp timeInUnit (nodes.getD r.toNat default) = true)
    (hgo : ∀ j : Nat, r < j → (j : Int) ≤ right →
      stays timestamp timeInUnit (nodes.getD j default) = false) :
    Parted timestamp timeInUnit (vecSwap nodes left.toNat r.toNat) (left + 1) (r - 1) := by
  have h0 := hp.left_nonneg
  have hlen := hp.right_lt
  have hi : left.toNat < nodes.length := by omega
  have hj : r.toNat < nodes.length := by omega
  refine ⟨by omega, by omega, by rw [length_vecSwap]; omega, fun j hjl => ?_, fun j h1 h2 => ?_⟩
  · rw [getD_vecSwap hi hj]
    by_cases hjr : j = r.toNat
    · omega
    · by_cases hjl' : j = left.toNat
      · rw [if_neg hjr, if_pos hjl']
        exact hat
      · rw [if_neg hjr, if_neg hjl']
        exact hp.stay j (by omega)
  · rw [length_vecSwap] at h2
    rw [getD_vecSwap hi hj]
    by_cases hjr : j = r.toNat
    · rw [if_pos hjr]
      exact hns
    · rw [if_neg hjr, if_neg (by omega)]
      by_cases hjle : (j : Int) ≤ right
      · exact hgo j (by omega) hjle
      · exact hp.go j (by omega) h2

/-! ### One turn of the loop

Every turn of the outer loop either moves `left` past a node that stays, swaps a node
that times out with one that stays, or lets `right` fall below `left`.  Each keeps
`Parted` and lowers the measure `right + 1 - left`, and each reads only indices between
the cursors, which `Parted` keeps inside the vector. -/

theorem nodeAt_of_lt {nodes : List FlowNode} {i : Int} (h0 : 0 ≤ i) (hi : i < nodes.length) :
    nodeAt nodes i = some (nodes.getD i.toNat default) := by
  rw [nodeAt, if_pos h0, List.getD_eq_getElem _ _ (by omega), List.getElem?_eq_getElem (by omega)]

/-- The inner loop reads only indices from `left` to `right`, all inside the vector. -/
theorem findStayingChecked_eq (nodes : List FlowNode) {left : Int} (hl : 0 ≤ left) :
    ∀ (fuel : Nat) (right : Int), right < nodes.length →
      findStayingChecked nodes timestamp timeInUnit left fuel right =
        some (findStaying nodes timestamp timeInUnit left fuel right)
  | 0, right, _ => rfl
  | fuel + 1, right, hr => by
      simp only [findStayingChecked, findStaying]
      by_cases hlr : left ≤ right
      · rw [if_pos hlr, if_pos hlr, nodeAt_of_lt (by omega) hr, Option.bind_eq_bind, Option.bind_some]
        split
        · rfl
        · exact findStayingChecked_eq nodes hl fuel (right - 1) (by omega)
      · rw [if_neg hlr, if_neg hlr]

theorem sortLoop_exit {nodes : List FlowNode} {left right : Int} (h : ¬left ≤ right) :
    ∀ fuel, sortLoop timestamp timeInUnit fuel nodes left right = (nodes, left)
  | 0 => rfl
  | _ + 1 => by rw [sortLoop, if_neg h]

theorem sortLoopChecked_exit {nodes : List FlowNode} {left right : Int} (h : ¬left ≤ right) :
    ∀ fuel, sortLoopChecked timestamp timeInUnit fuel nodes left right = some (nodes, left)
  | 0 => rfl
  | _ + 1 => by rw [sortLoopChecked, if_neg h]

/-- **One turn**, in both the model and the bounds-checked loop: the cursors stay
`Parted`, the vector is permuted and the measure falls. -/
theorem sortLoop_turn {nodes : List FlowNode} {left right : Int}
    (hp : Parted timestamp timeInUnit nodes left right) (hlr : left ≤ right) :
    ∃ nodes' left' right', Parted timestamp timeInUnit nodes' left' right' ∧ nodes'.Perm nodes ∧
      right' + 1 - left' < right + 1 - left ∧
      (∀ fuel, sortLoop timestamp timeInUnit (fuel + 1) nodes left right =
        sortLoop timestamp timeInUnit fuel nodes' left' right') ∧
      ∀ fuel, sortLoopChecked timestamp timeInUnit (fuel + 1) nodes left right =
        sortLoopChecked timestamp timeInUnit fuel nodes' left' right' := by
  have h0 := hp.left_nonneg
  have hlen := hp.right_lt
  have hleft : nodeAt nodes left = some (nodes.getD left.toNat default) := nodeAt_of_lt h0 (by omega)
  by_cases hs : stays timestamp timeInUnit (nodes.getD left.toNat default) = true
  · -- the node at `left` stays
    refine ⟨nodes, left + 1, right, hp.advance hlr hs, List.Perm.refl _, by omega,
      fun fuel => ?_, fun fuel => ?_⟩
    · rw [sortLoop, if_pos hlr, if_pos hs]
    · rw [sortLoopChecked, if_pos hlr, hleft, Option.bind_eq_bind, Option.bind_some, if_pos hs]
  · obtain ⟨hlo, hhi, hat, hgo⟩ :=
      findStaying_spec timestamp timeInUnit nodes left nodes.length right (by omega) (by omega)
    have hfind : findStayingChecked nodes timestamp timeInUnit left nodes.length right =
        some (findStaying nodes timestamp timeInUnit left nodes.length right) :=
      findStayingChecked_eq nodes h0 nodes.length right hlen
    generalize hr : findStaying nodes timestamp timeInUnit left nodes.length right = r at *
    by_cases hlt : left < r
    · -- a node that stays at `r`: the two are swapped
      have hi : left.toNat < nodes.length := by omega
      have hj : r.toNat < nodes.length := by omega
      refine ⟨vecSwap nodes left.toNat r.toNat, left + 1, r - 1,
        hp.swap (by simpa using hs) hlt hhi (hat (by omega)) hgo, vecSwap_perm hi hj, by omega,
        fun fuel => ?_, fun fuel => ?_⟩
      · rw [sortLoop, if_pos hlr, if_neg hs]
        dsimp only
        rw [hr, if_pos hlt]
      · rw [sortLoopChecked, if_pos hlr, hleft, Option.bind_eq_bind, Option.bind_some, if_neg hs]
        rw [hfind, Option.bind_eq_bind, Option.bind_some, if_pos hlt, Option.bind_some,
          nodeAt_of_lt (by omega) (by omega), Option.bind_some]
    · -- the node at `left` times out, so `right` went below it
      have hr : r = left - 1 := by
        by_contra hne
        have hrl : r = left := by omega
        rw [hrl] at hat
        exact hs (hat (Int.le_refl _))
      subst hr
      refine ⟨nodes, left, left - 1, hp.retreat hlr hgo, List.Perm.refl _, by omega,
        fun fuel => ?_, fun fuel => ?_⟩
      · rw [sortLoop, if_pos hlr, if_neg hs]
        dsimp only
        rw [hr, if_neg hlt]
      · rw [sortLoopChecked, if_pos hlr, hleft, Option.bind_eq_bind, Option.bind_some, if_neg hs,
          hfind, Option.bind_eq_bind, Option.bind_some, if_neg hlt]

/-! ### The whole loop -/

/-- The cursors as the loop starts: `left` at the front, `right` at the back, which is
`-1` for an empty vector. -/
theorem Parted.start (nodes : List FlowNode) :
    Parted timestamp timeInUnit nodes 0 ((nodes.length : Int) - 1) :=
  ⟨Int.le_refl 0, by omega, by omega, fun j hj => by omega, fun j h1 h2 => by omega⟩

/-- The whole loop, on the measure `right + 1 - left`: a permutation, with the cursors
met at the first node that times out. -/
theorem sortLoop_spec : ∀ (fuel : Nat) (nodes : List FlowNode) (left right : Int),
    Parted timestamp timeInUnit nodes left right → right + 1 - left < fuel →
      (sortLoop timestamp timeInUnit fuel nodes left right).1.Perm nodes ∧
        Parted timestamp timeInUnit (sortLoop timestamp timeInUnit fuel nodes left right).1
          (sortLoop timestamp timeInUnit fuel nodes left right).2
          ((sortLoop timestamp timeInUnit fuel nodes left right).2 - 1)
  | 0, nodes, left, right, hp, hf => by
      have := hp.left_le
      omega
  | fuel + 1, nodes, left, right, hp, hf => by
      by_cases hlr : left ≤ right
      · obtain ⟨nodes', left', right', hp', hperm, hdec, hturn, -⟩ := sortLoop_turn hp hlr
        rw [hturn]
        have ih := sortLoop_spec fuel nodes' left' right' hp' (by omega)
        exact ⟨ih.1.trans hperm, ih.2⟩
      · rw [sortLoop_exit hlr]
        have hl : left - 1 = right := by have := hp.left_le; omega
        rw [hl]
        exact ⟨List.Perm.refl _, hp⟩

/-- The bounds-checked loop never panics and computes the model's result. -/
theorem sortLoopChecked_eq : ∀ (fuel : Nat) (nodes : List FlowNode) (left right : Int),
    Parted timestamp timeInUnit nodes left right →
      sortLoopChecked timestamp timeInUnit fuel nodes left right =
        some (sortLoop timestamp timeInUnit fuel nodes left right)
  | 0, _, _, _, _ => rfl
  | fuel + 1, nodes, left, right, hp => by
      by_cases hlr : left ≤ right
      · obtain ⟨nodes', left', right', hp', -, -, hturn, hturnc⟩ := sortLoop_turn hp hlr
        rw [hturn, hturnc]
        exact sortLoopChecked_eq fuel nodes' left' right' hp'
      · rw [sortLoop_exit hlr, sortLoopChecked_exit hlr]

/-- Fuel past the measure changes nothing: the loop has stopped. -/
theorem sortLoop_add_fuel : ∀ (fuel k : Nat) (nodes : List FlowNode) (left right : Int),
    Parted timestamp timeInUnit nodes left right → right + 1 - left < fuel →
      sortLoop timestamp timeInUnit (fuel + k) nodes left right =
        sortLoop timestamp timeInUnit fuel nodes left right
  | 0, _, _, left, right, hp, hf => by
      have := hp.left_le
      omega
  | fuel + 1, k, nodes, left, right, hp, hf => by
      by_cases hlr : left ≤ right
      · obtain ⟨nodes', left', right', hp', -, hdec, hturn, -⟩ := sortLoop_turn hp hlr
        rw [Nat.add_right_comm, hturn, hturn]
        exact sortLoop_add_fuel fuel k nodes' left' right' hp' (by omega)
      · rw [sortLoop_exit hlr, sortLoop_exit hlr]

/-- **`sort_nodes_by_timeout` partitions the vector**: it returns a permutation of the
nodes whose first `index` nodes stay and whose others time out. -/
theorem sortNodesByTimeout_spec (nodes : List FlowNode) (timestamp timeInUnit : Nat) :
    let s := sortNodesByTimeout nodes timestamp timeInUnit
    s.1.Perm nodes ∧ s.2 ≤ nodes.length ∧
      (∀ j < s.2, stays timestamp timeInUnit (s.1.getD j default) = true) ∧
      ∀ j, s.2 ≤ j → j < nodes.length → stays timestamp timeInUnit (s.1.getD j default) = false := by
  obtain ⟨hperm, hq⟩ := sortLoop_spec (nodes.length + 1) nodes 0 _ (Parted.start nodes) (by omega)
  simp only [sortNodesByTimeout]
  generalize sortLoop timestamp timeInUnit (nodes.length + 1) nodes 0 ((nodes.length : Int) - 1) = r
    at *
  have hlen := hperm.length_eq
  have hr := hq.right_lt
  have h0 := hq.left_nonneg
  refine ⟨hperm, by omega, fun j hj => hq.stay j (by omega),
    fun j h1 h2 => hq.go j (by omega) (by omega)⟩

theorem sortNodesByTimeout_exact (nodes : List FlowNode) (timestamp timeInUnit : Nat) :
    sortNodesByTimeoutChecked nodes timestamp timeInUnit =
        some (sortNodesByTimeout nodes timestamp timeInUnit) ∧
      (∀ fuel, nodes.length < fuel →
        sortLoop timestamp timeInUnit fuel nodes 0 ((nodes.length : Int) - 1) =
          sortLoop timestamp timeInUnit (nodes.length + 1) nodes 0 ((nodes.length : Int) - 1)) ∧
      (sortNodesByTimeout nodes timestamp timeInUnit).1.Perm nodes ∧
      (sortNodesByTimeout nodes timestamp timeInUnit).2 ≤ nodes.length ∧
      (∀ j < (sortNodesByTimeout nodes timestamp timeInUnit).2,
        stays timestamp timeInUnit ((sortNodesByTimeout nodes timestamp timeInUnit).1.getD j default) = true) ∧
      ∀ j, (sortNodesByTimeout nodes timestamp timeInUnit).2 ≤ j → j < nodes.length →
        stays timestamp timeInUnit ((sortNodesByTimeout nodes timestamp timeInUnit).1.getD j default) = false := by
  refine ⟨?_, fun fuel hf => ?_, sortNodesByTimeout_spec nodes timestamp timeInUnit⟩
  · rw [sortNodesByTimeoutChecked, sortLoopChecked_eq _ _ _ _ (Parted.start nodes), Option.map_some]
    rfl
  · -- any fuel past the length is the model's fuel and some more
    obtain ⟨k, rfl⟩ : ∃ k, fuel = nodes.length + 1 + k := ⟨fuel - (nodes.length + 1), by omega⟩
    exact sortLoop_add_fuel _ k _ _ _ (Parted.start nodes) (by omega)

/-- What `flush` keeps of a key's nodes is exactly the nodes that stay. -/
theorem mem_take_sortNodesByTimeout {nodes : List FlowNode} {timestamp timeInUnit : Nat}
    {n : FlowNode} :
    n ∈ (sortNodesByTimeout nodes timestamp timeInUnit).1.take
        (sortNodesByTimeout nodes timestamp timeInUnit).2 ↔
      n ∈ nodes ∧ stays timestamp timeInUnit n = true := by
  obtain ⟨hperm, hle, hstay, hgo⟩ := sortNodesByTimeout_spec nodes timestamp timeInUnit
  generalize sortNodesByTimeout nodes timestamp timeInUnit = s at *
  obtain ⟨l, index⟩ := s
  dsimp only at *
  have hlen : l.length = nodes.length := hperm.length_eq
  constructor
  · intro hn
    obtain ⟨j, hj, rfl⟩ := List.mem_iff_getElem.1 hn
    rw [List.length_take] at hj
    have hjl : j < l.length := by omega
    refine ⟨hperm.subset (List.mem_of_mem_take hn), ?_⟩
    rw [List.getElem_take, ← List.getD_eq_getElem _ default hjl]
    exact hstay j (by omega)
  · rintro ⟨hn, hs⟩
    obtain ⟨j, hj, rfl⟩ := List.mem_iff_getElem.1 (hperm.symm.subset hn)
    have hji : j < index := by
      by_contra hge
      have := hgo j (by omega) (by omega)
      rw [List.getD_eq_getElem _ default hj] at this
      rw [this] at hs
      exact Bool.false_ne_true hs
    exact List.mem_iff_getElem.2 ⟨j, by rw [List.length_take]; omega, List.getElem_take⟩

end SortLoop

end FlowMap

end Sophon.Agent
