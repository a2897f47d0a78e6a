/-
The flush of `inject_flush_ticker` keeps every node in the wheel.

The flush walks the seconds `t` from the old window start `S0` towards `next`, at
most a wheel's worth of them.  At each it drains the slot of `t`; a node whose
second is `t` and that stays moves to the second its timeout ends in, and its key
goes into that second's slot once the drain is over.  A node is never left behind
because of two facts about the wheel of `W` slots, a power of two:

* at second `t` every node sits in `[t, t + W)`, so the slot of `t` holds exactly
  the keys of the nodes due now (`Ring.mod_ne_of_lt`), and
* a node that moves goes to a second from `next` on, and no further than `S0 + W`:
  that is what `Q` asks of every node's times, and the timer's settings give it.

`Draining` is where a node is during the drain of one slot (due with its key still
to come, elsewhere in the wheel, or moved and recorded), and `Swept` is the
invariant between two seconds.  `swept_flushSlot` is the step and `swept_sweep`
the whole flush, both by the rules of `Loop`.
-/
import Sophon.Lib.Loop
import Sophon.Lib.Ring
import Sophon.Agent.FlowMapSort

namespace Sophon.Agent

namespace FlowMap

variable {K : Type} [DecidableEq K]

/-! ### Slots -/

/-- The mask of a wheel whose size is a power of two is the remainder. -/
theorem slot_eq_mod {W : Nat} (hW : ∃ j, W = 2 ^ j) (t : Nat) : t &&& (W - 1) = t % W := by
  obtain ⟨j, rfl⟩ := hW
  exact Nat.and_two_pow_sub_one_eq_mod t j

theorem mem_insertKey {ts : Nat → List K} {slot s : Nat} {key k : K} :
    k ∈ insertKey ts slot key s ↔ k ∈ ts s ∨ (s = slot ∧ k = key) := by
  unfold insertKey
  split
  · rename_i hkey
    constructor
    · exact Or.inl
    · rintro (h | ⟨rfl, rfl⟩)
      · exact h
      · exact hkey
  · by_cases hs : s = slot
    · subst hs
      simp
    · simp [hs]

/-- The moved keys land in the slots of their new seconds, and nothing leaves a slot. -/
theorem mem_foldl_insertKey (W : Nat) (moved : List (Nat × K)) (ts : Nat → List K) {k : K}
    {s : Nat} :
    k ∈ moved.foldl (fun ts key => insertKey ts (key.1 &&& (W - 1)) key.2) ts s ↔
      k ∈ ts s ∨ ∃ tk, (tk, k) ∈ moved ∧ tk &&& (W - 1) = s := by
  induction moved generalizing ts with
  | nil => simp
  | cons key moved ih =>
      rw [List.foldl_cons, ih, mem_insertKey]
      constructor
      · rintro ((h | ⟨rfl, rfl⟩) | ⟨tk, hm, hs⟩)
        · exact Or.inl h
        · exact Or.inr ⟨key.1, by simp, rfl⟩
        · exact Or.inr ⟨tk, List.mem_cons_of_mem _ hm, hs⟩
      · rintro (h | ⟨tk, hm, hs⟩)
        · exact Or.inl (Or.inl h)
        · rcases List.mem_cons.1 hm with heq | hm
          · subst heq
            exact Or.inl (Or.inr ⟨hs.symm, rfl⟩)
          · exact Or.inr ⟨tk, hm, hs⟩

/-! ### One key -/

/-- What the flush at second `t`, with the time `stamp`, keeps of a key's nodes. -/
def keptNodes (stamp t : Nat) (nodes : List FlowNode) : List FlowNode :=
  (sortNodesByTimeout nodes stamp t).1.take (sortNodesByTimeout nodes stamp t).2

theorem mem_keptNodes {stamp t : Nat} {nodes : List FlowNode} {n : FlowNode} :
    n ∈ keptNodes stamp t nodes ↔ n ∈ nodes ∧ stays stamp t n = true :=
  mem_take_sortNodesByTimeout

/-- The drain of one key, in one piece: the nodes it keeps, re-keyed, and the keys they
move to.  An absent key and a key whose nodes all time out are the cases where
nothing is kept. -/
theorem flushKey_eq (stamp t : Nat) (nm : K → List FlowNode) (moved : List (Nat × K)) (k0 : K) :
    flushKey stamp t (nm, moved) k0 =
      (Function.update nm k0 ((keptNodes stamp t (nm k0)).map fun n => (rekey t k0 n).1),
        moved ++ (keptNodes stamp t (nm k0)).filterMap fun n => (rekey t k0 n).2) := by
  simp only [flushKey, keptNodes]
  split
  · -- an absent key: the sort of no nodes keeps none
    rename_i hnil
    have hsort : sortNodesByTimeout ([] : List FlowNode) stamp t = ([], 0) := rfl
    rw [hnil, hsort]
    simp only [List.take_nil, List.map_nil, List.filterMap_nil, List.append_nil]
    rw [← hnil, Function.update_eq_self]
  · split
    · rename_i hkept
      rw [hkept, List.map_nil, List.filterMap_nil, List.append_nil]
    · simp only [List.map_map, List.filterMap_map]
      rfl

theorem stays_eq_true {stamp t : Nat} {n : FlowNode} :
    stays stamp t n = true ↔ t < n.timestampKey ∨ stamp < n.recentTime + n.timeout := by
  simp [stays]

omit [DecidableEq K] in
theorem rekey_of_lt {t : Nat} {k : K} {n : FlowNode} (h : t < n.timestampKey) :
    rekey t k n = (n, none) := by
  simp [rekey, h]

omit [DecidableEq K] in
/-- A node of this second whose timeout ends in a later second moves to that second. -/
theorem rekey_due {t : Nat} {k : K} {n : FlowNode} (h : n.timestampKey ≤ t)
    (ht : t < (n.recentTime + n.timeout) / TIME_UNIT) :
    rekey t k n = ({ n with timestampKey := (n.recentTime + n.timeout) / TIME_UNIT },
      some ((n.recentTime + n.timeout) / TIME_UNIT, k)) := by
  have hne : n.timestampKey ≠ (n.recentTime + n.timeout) / TIME_UNIT := by omega
  simp [rekey, Nat.not_lt.2 h, hne]

/-! ### The invariants of the flush -/

section Flush

variable (W S0 next : Nat) (Q : Nat → Nat → Prop)

/-- What the flush keeps of every node: times that `Q` admits, and a second in the old
window or from `next` on. -/
def Kept (n : FlowNode) : Prop :=
  Q n.recentTime n.timeout ∧ (n.timestampKey < S0 + W ∨ next ≤ n.timestampKey)

/-- Where a node of key `k` is while the slot of second `t` drains, `rest` being the keys
still to drain and `moved` the keys moved so far: due now with its key still to come,
in a later second of the wheel `ts` as it was, or moved and recorded. -/
def Draining (t : Nat) (ts : Nat → List K) (rest : List K) (moved : List (Nat × K)) (k : K)
    (n : FlowNode) : Prop :=
  (n.timestampKey = t ∧ k ∈ rest) ∨
    (t < n.timestampKey ∧ n.timestampKey < t + W ∧ k ∈ ts (n.timestampKey % W)) ∨
    (next ≤ n.timestampKey ∧ n.timestampKey ≤ t + W ∧ (n.timestampKey, k) ∈ moved)

/-- The invariant of the drain of the slot of `t`. -/
def DrainInv (t : Nat) (ts : Nat → List K) (rest : List K)
    (acc : (K → List FlowNode) × List (Nat × K)) : Prop :=
  ∀ k, ∀ n ∈ acc.1 k, Kept W S0 next Q n ∧ Draining W next t ts rest acc.2 k n

/-- The invariant between two seconds of the flush: every node sits in `[t, t + W)` and
its key is in its second's slot. -/
def Swept (t : Nat) (acc : (K → List FlowNode) × (Nat → List K)) : Prop :=
  ∀ k, ∀ n ∈ acc.1 k, Kept W S0 next Q n ∧ t ≤ n.timestampKey ∧ n.timestampKey < t + W ∧
    k ∈ acc.2 (n.timestampKey % W)

variable {W S0 next Q}

omit [DecidableEq K] in
/-- Draining a key that is not `k0` only lengthens the moved list. -/
theorem Draining.of_ne {t : Nat} {ts : Nat → List K} {k0 k : K} {rest : List K}
    {moved moved' : List (Nat × K)} {n : FlowNode} (hk : k ≠ k0) (hm : moved ⊆ moved')
    (h : Draining W next t ts (k0 :: rest) moved k n) : Draining W next t ts rest moved' k n := by
  rcases h with ⟨hdue, hrest⟩ | hplaced | ⟨h1, h2, hmem⟩
  · exact Or.inl ⟨hdue, (List.mem_cons.1 hrest).resolve_left hk⟩
  · exact Or.inr (Or.inl hplaced)
  · exact Or.inr (Or.inr ⟨h1, h2, hm hmem⟩)

/-- **One key drained.**  Every node that the key keeps was either placed already, and is
left as it is, or due now, and then its timeout ends from `next` on and it moves. -/
theorem drainInv_flushKey (hQ : ∀ r o, Q r o → (r + o) / TIME_UNIT ≤ S0 + W) {t : Nat}
    (hS0 : S0 ≤ t) (hnext : t < next) {ts : Nat → List K} {k0 : K} {rest : List K}
    {acc : (K → List FlowNode) × List (Nat × K)}
    (h : DrainInv W S0 next Q t ts (k0 :: rest) acc) :
    DrainInv W S0 next Q t ts rest (flushKey (next * TIME_UNIT - 1) t acc k0) := by
  obtain ⟨nm, moved⟩ := acc
  rw [flushKey_eq]
  intro k n' hn'
  dsimp only at hn' ⊢
  by_cases hk : k = k0
  · subst hk
    rw [Function.update_self] at hn'
    obtain ⟨n, hkept, rfl⟩ := List.mem_map.1 hn'
    obtain ⟨hn, hstays⟩ := mem_keptNodes.1 hkept
    obtain ⟨⟨hq, hwin⟩, hdr⟩ := h k n hn
    by_cases hlt : t < n.timestampKey
    · -- a node of a later second is left as it is
      rw [rekey_of_lt hlt]
      refine ⟨⟨hq, hwin⟩, ?_⟩
      rcases hdr with ⟨hdue, _⟩ | hplaced | ⟨h1, h2, hmem⟩
      · omega
      · exact Or.inr (Or.inl hplaced)
      · exact Or.inr (Or.inr ⟨h1, h2, List.mem_append_left _ hmem⟩)
    · -- a node due now stays only if its timeout ends from `next` on
      have hdue : n.timestampKey ≤ t := Nat.le_of_not_lt hlt
      have hend : next * TIME_UNIT ≤ n.recentTime + n.timeout := by
        have := (stays_eq_true.1 hstays).resolve_left hlt
        have hU : 0 < TIME_UNIT := by decide
        have : 0 < next * TIME_UNIT := Nat.mul_pos (by omega) hU
        omega
      have hge : next ≤ (n.recentTime + n.timeout) / TIME_UNIT :=
        (Nat.le_div_iff_mul_le (by decide)).2 hend
      have hle : (n.recentTime + n.timeout) / TIME_UNIT ≤ t + W := by
        have := hQ _ _ hq
        omega
      have hrk := rekey_due (k := k) hdue (by omega)
      rw [hrk]
      refine ⟨⟨hq, Or.inr hge⟩, Or.inr (Or.inr ⟨hge, hle, ?_⟩)⟩
      exact List.mem_append_right _ (List.mem_filterMap.2 ⟨n, hkept, by rw [hrk]⟩)
  · rw [Function.update_of_ne hk] at hn'
    obtain ⟨hkn, hdr⟩ := h k n' hn'
    exact ⟨hkn, hdr.of_ne hk (List.subset_append_left _ _)⟩

/-- **One second of the flush.**  The drain finds every node due now in the slot being
drained; afterwards the slot holds only the keys moved into it. -/
theorem swept_flushSlot (hW : ∃ j, W = 2 ^ j) (hQ : ∀ r o, Q r o → (r + o) / TIME_UNIT ≤ S0 + W)
    {t : Nat} (hS0 : S0 ≤ t) (hnext : t < next) {acc : (K → List FlowNode) × (Nat → List K)}
    (h : Swept W S0 next Q t acc) :
    Swept W S0 next Q (t + 1) (flushSlot W (next * TIME_UNIT - 1) acc t) := by
  obtain ⟨nm, ts⟩ := acc
  -- every node due now has its key in the slot of `t`, the list the drain walks
  have h0 : DrainInv W S0 next Q t ts (ts (t % W)) (nm, []) := by
    intro k n hn
    obtain ⟨hkept, hlo, hhi, hmem⟩ := h k n hn
    refine ⟨hkept, ?_⟩
    by_cases heq : n.timestampKey = t
    · exact Or.inl ⟨heq, heq ▸ hmem⟩
    · exact Or.inr (Or.inl ⟨by omega, hhi, hmem⟩)
  have hdrain := Loop.foldl_drain (DrainInv W S0 next Q t ts) (flushKey (next * TIME_UNIT - 1) t)
    (fun _ _ _ hd => drainInv_flushKey hQ hS0 hnext hd) (ts (t % W)) (nm, []) h0
  simp only [flushSlot, slot_eq_mod hW t]
  generalize (ts (t % W)).foldl (flushKey (next * TIME_UNIT - 1) t) (nm, []) = r at hdrain ⊢
  obtain ⟨nm', moved⟩ := r
  intro k n hn
  obtain ⟨hkept, hdue | ⟨hlt, hhi, hmem⟩ | ⟨hge, hle, hmoved⟩⟩ := hdrain k n hn
  · exact absurd hdue.2 List.not_mem_nil
  · -- a node of a later second: its slot is not the one cleared
    have hne : n.timestampKey % W ≠ t % W := (Ring.mod_ne_of_lt hlt hhi).symm
    refine ⟨hkept, by omega, by omega, (mem_foldl_insertKey W moved _).2 (Or.inl ?_)⟩
    rw [Function.update_of_ne hne]
    exact hmem
  · -- a moved node: its key was inserted once the drain was over
    refine ⟨hkept, by omega, by omega, (mem_foldl_insertKey W moved _).2 (Or.inr ?_)⟩
    exact ⟨n.timestampKey, hmoved, slot_eq_mod hW _⟩

/-- **The whole flush**, from `S0` to `min next (S0 + W)`. -/
theorem swept_sweep (hW : ∃ j, W = 2 ^ j) (hQ : ∀ r o, Q r o → (r + o) / TIME_UNIT ≤ S0 + W)
    (hnext : S0 ≤ next) {acc : (K → List FlowNode) × (Nat → List K)} (h : Swept W S0 next Q S0 acc) :
    Swept W S0 next Q (min next (S0 + W))
      ((List.range' S0 (min next (S0 + W) - S0)).foldl (flushSlot W (next * TIME_UNIT - 1)) acc) := by
  have hend : min next (S0 + W) = S0 + (min next (S0 + W) - S0) := by omega
  have := Loop.foldl_range'_sweep (Swept W S0 next Q) (flushSlot W (next * TIME_UNIT - 1)) S0
    (min next (S0 + W) - S0) acc
    (fun t _ h1 h2 ht => swept_flushSlot hW hQ h1 (show t < next by omega) ht) h
  rw [← hend] at this
  exact this

end Flush

end FlowMap

end Sophon.Agent
