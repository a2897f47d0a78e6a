/-
A window of time slots that moves on as late items come.

The window holds `count` slots of `interval` time units each, from its `start` on, and
is open until `delay` units past its start.  An item whose time is before the start is
turned down.  An item whose time is `delay` units or more past the start first moves
the window on by whole slots, as few as leave the item less than `delay` past the new
start; the slots moved past are emitted, each with the items it held in the order they
came, and then the item joins the window.  A tick at a time moves the window the same
way and adds nothing.

What the window is for: every item it takes is emitted exactly once, with the other
items of its slot, or is still held (`run_perm`).  The start never goes back
(`start_le_run`), stays a whole number of slots (`Inv.dvd`), and after an event is
less than `delay` before the event's time (`lt_step_start`); every item held lies in
the window (`Inv`), and so in one of its slots (`Inv.slot_lt`).
-/
import Mathlib

namespace Sophon.SlotWindow

/-- The shape of the window: `count` slots of `interval` units, open `delay` units past
its start.  The delay is a slot at least, so that an item that moves the window lands in
it, and at most the whole window, so that it lands in one of its slots. -/
structure Slots where
  interval : Nat
  count : Nat
  delay : Nat
  interval_pos : 0 < interval
  interval_le_delay : interval ≤ delay
  delay_le : delay ≤ count * interval

/-- The start of the window and the items it holds, in the order they came. -/
structure State (α : Type) where
  start : Nat
  pending : List α

/-- What happens to the window: an item comes, or time passes. -/
inductive Event (α : Type) where
  | arrive (a : α)
  | tick (t : Nat)

variable {α : Type} (clock : α → Nat)

/-- The time of an event, `clock` giving the time of an item. -/
def Event.time : Event α → Nat
  | .arrive a => clock a
  | .tick t => t

namespace Slots

variable (W : Slots)

/-- The slot of the time `t` in a window from `start`. -/
def slot (start t : Nat) : Nat := (t - start) / W.interval

/-- How many slots a window from `start` moves on for the time `t`: none while `t` is
less than `delay` past the start, else as few as make it so. -/
def shift (start t : Nat) : Nat :=
  if start + W.delay ≤ t then (t - start - W.delay) / W.interval + 1 else 0

/-- The items of slot `i`. -/
def slotItems (s : State α) (i : Nat) : List α :=
  s.pending.filter fun a => W.slot s.start (clock a) = i

/-- The window moved on for the time `t`, and the slots it moved past. -/
def move (s : State α) (t : Nat) : State α × List (List α) :=
  let k := W.shift s.start t
  (⟨s.start + W.interval * k, s.pending.filter fun a => k ≤ W.slot s.start (clock a)⟩,
    (List.range (min k W.count)).map (W.slotItems clock s))

/-- One event: the window afterwards, the slots emitted, and the item taken in, if any. -/
def step (s : State α) : Event α → State α × List (List α) × List α
  | .arrive a =>
      if clock a < s.start then (s, [], [])
      else
        let r := W.move clock s (clock a)
        (⟨r.1.start, r.1.pending ++ [a]⟩, r.2, [a])
  | .tick t =>
      if t < s.start then (s, [], [])
      else
        let r := W.move clock s t
        (r.1, r.2, [])

/-- A run of events: the window afterwards, every slot emitted and every item taken in,
in order. -/
def run (s : State α) : List (Event α) → State α × List (List α) × List α
  | [] => (s, [], [])
  | e :: es =>
      let r := W.step clock s e
      let r' := run r.1 es
      (r'.1, r.2.1 ++ r'.2.1, r.2.2 ++ r'.2.2)

@[simp] theorem move_start (s : State α) (t : Nat) :
    (W.move clock s t).1.start = s.start + W.interval * W.shift s.start t := rfl

@[simp] theorem move_pending (s : State α) (t : Nat) :
    (W.move clock s t).1.pending = s.pending.filter fun a => W.shift s.start t ≤ W.slot s.start (clock a) :=
  rfl

@[simp] theorem move_emitted (s : State α) (t : Nat) :
    (W.move clock s t).2 = (List.range (min (W.shift s.start t) W.count)).map (W.slotItems clock s) :=
  rfl

variable {W clock} {s : State α}

/-- An item before the start is turned down. -/
theorem step_arrive_reject {a : α} (h : clock a < s.start) : W.step clock s (.arrive a) = (s, [], []) := by
  rw [step, if_pos h]

/-- An item at or past the start moves the window for its time, then joins it. -/
theorem step_arrive {a : α} (h : s.start ≤ clock a) :
    W.step clock s (.arrive a) =
      (⟨(W.move clock s (clock a)).1.start, (W.move clock s (clock a)).1.pending ++ [a]⟩,
        (W.move clock s (clock a)).2, [a]) := by
  rw [step, if_neg (Nat.not_lt.mpr h)]

theorem step_tick_reject {t : Nat} (h : t < s.start) : W.step clock s (.tick t) = (s, [], []) := by
  rw [step, if_pos h]

theorem step_tick {t : Nat} (h : s.start ≤ t) :
    W.step clock s (.tick t) = ((W.move clock s t).1, (W.move clock s t).2, []) := by
  rw [step, if_neg (Nat.not_lt.mpr h)]

theorem run_cons (s : State α) (e : Event α) (es : List (Event α)) :
    W.run clock s (e :: es) =
      ((W.run clock (W.step clock s e).1 es).1,
        (W.step clock s e).2.1 ++ (W.run clock (W.step clock s e).1 es).2.1,
        (W.step clock s e).2.2 ++ (W.run clock (W.step clock s e).1 es).2.2) := rfl

/-! ### How far the window moves -/

/-- After the move the time is less than `delay` past the start. -/
theorem lt_shift (start t : Nat) : t < start + W.interval * W.shift start t + W.delay := by
  unfold shift
  split
  · have h := Nat.lt_mul_div_succ (t - start - W.delay) W.interval_pos
    omega
  · omega

/-- A time at or past the start stays at or past it after the move: the window moves
by less than the time is past its delay, plus a slot, which the delay covers. -/
theorem shift_le {start t : Nat} (h : start ≤ t) : start + W.interval * W.shift start t ≤ t := by
  unfold shift
  split
  · have hdiv := Nat.mul_div_le (t - start - W.delay) W.interval
    have hI := W.interval_le_delay
    rw [Nat.mul_add, Nat.mul_one]
    omega
  · omega

/-- Seen from a window moved on by `k` slots, a time is `k` slots earlier, or in the
first slot. -/
theorem slot_add (start t k : Nat) :
    W.slot (start + W.interval * k) t = W.slot start t - k := by
  unfold slot
  rw [show t - (start + W.interval * k) = t - start - W.interval * k by omega, Nat.sub_mul_div]

theorem le_slot_iff {start t k : Nat} (h : start ≤ t) :
    k ≤ W.slot start t ↔ start + W.interval * k ≤ t := by
  unfold slot
  rw [Nat.le_div_iff_mul_le W.interval_pos, Nat.mul_comm]
  omega

/-! ### The invariant -/

variable (clock) in
/-- The start is a whole number of slots, and every item held lies in the window. -/
structure Inv (W : Slots) (s : State α) : Prop where
  dvd : W.interval ∣ s.start
  window : ∀ a ∈ s.pending, s.start ≤ clock a ∧ clock a < s.start + W.delay

/-- An item held lies in one of the slots. -/
theorem Inv.slot_lt (h : W.Inv clock s) {a : α} (ha : a ∈ s.pending) :
    W.slot s.start (clock a) < W.count := by
  have hw := h.window a ha
  unfold slot
  rw [Nat.div_lt_iff_lt_mul W.interval_pos]
  have := W.delay_le
  omega

/-- A slot past the window holds nothing. -/
theorem Inv.slotItems_eq_nil (h : W.Inv clock s) {i : Nat} (hi : W.count ≤ i) :
    W.slotItems clock s i = [] := by
  refine List.filter_eq_nil_iff.mpr fun a ha => ?_
  have := h.slot_lt ha
  simp only [decide_eq_true_eq]
  omega

/-- Slot `j` of the moved window is slot `j + k` of the window before, `k` the slots it
moved. -/
theorem slotItems_move (s : State α) (t j : Nat) :
    W.slotItems clock (W.move clock s t).1 j = W.slotItems clock s (j + W.shift s.start t) := by
  simp only [slotItems, move_start, move_pending, List.filter_filter]
  refine List.filter_congr fun a _ => ?_
  by_cases hk : W.shift s.start t ≤ W.slot s.start (clock a)
  · simp only [slot_add, hk, decide_true, Bool.and_true,
      decide_eq_decide]
    omega
  · simp only [hk, decide_false, Bool.and_false, Bool.false_eq, decide_eq_false_iff_not]
    omega

/-- An item that joins the window joins the items of its slot, at the end. -/
theorem slotItems_push (s : State α) (a : α) (i : Nat) :
    W.slotItems clock ⟨s.start, s.pending ++ [a]⟩ i =
      W.slotItems clock s i ++ if W.slot s.start (clock a) = i then [a] else [] := by
  simp only [slotItems, List.filter_append, List.filter_cons, List.filter_nil, decide_eq_true_eq]

theorem Inv.move (h : W.Inv clock s) (t : Nat) : W.Inv clock (W.move clock s t).1 where
  dvd := Nat.dvd_add h.dvd (Nat.dvd_mul_right _ _)
  window a ha := by
    simp only [move_pending, List.mem_filter, decide_eq_true_eq] at ha
    have hw := h.window a ha.1
    have hle := (le_slot_iff hw.1).mp ha.2
    simp only [move_start]
    omega

/-- An item taken in lies in the moved window. -/
theorem Inv.push (h : W.Inv clock s) {a : α} (ha : s.start ≤ clock a) :
    W.Inv clock ⟨(W.move clock s (clock a)).1.start, (W.move clock s (clock a)).1.pending ++ [a]⟩ where
  dvd := (h.move (clock a)).dvd
  window b hb := by
    rcases List.mem_append.mp hb with hb | hb
    · exact (h.move (clock a)).window b hb
    · rw [List.mem_singleton.mp hb, move_start]
      exact ⟨shift_le ha, lt_shift s.start (clock a)⟩

theorem Inv.step (h : W.Inv clock s) : ∀ e, W.Inv clock (W.step clock s e).1
  | .arrive a => by
      by_cases ha : clock a < s.start
      · rw [step_arrive_reject ha]
        exact h
      · rw [step_arrive (Nat.le_of_not_lt ha)]
        exact h.push (Nat.le_of_not_lt ha)
  | .tick t => by
      by_cases ht : t < s.start
      · rw [step_tick_reject ht]
        exact h
      · rw [step_tick (Nat.le_of_not_lt ht)]
        exact h.move t

theorem Inv.run (h : W.Inv clock s) (es : List (Event α)) : W.Inv clock (W.run clock s es).1 := by
  induction es generalizing s with
  | nil => exact h
  | cons e es ih => exact ih (h.step e)

/-! ### The start -/

theorem start_le_step (s : State α) : ∀ e, s.start ≤ (W.step clock s e).1.start
  | .arrive a => by
      by_cases ha : clock a < s.start
      · exact Nat.le_of_eq (by rw [step_arrive_reject ha])
      · rw [step_arrive (Nat.le_of_not_lt ha), move_start]
        exact Nat.le_add_right _ _
  | .tick t => by
      by_cases ht : t < s.start
      · exact Nat.le_of_eq (by rw [step_tick_reject ht])
      · rw [step_tick (Nat.le_of_not_lt ht), move_start]
        exact Nat.le_add_right _ _

theorem start_le_run (s : State α) (es : List (Event α)) : s.start ≤ (W.run clock s es).1.start := by
  induction es generalizing s with
  | nil => exact Nat.le_refl _
  | cons e es ih => exact Nat.le_trans (start_le_step s e) (ih _)

/-- After an event its time is less than `delay` past the start. -/
theorem lt_step_start (s : State α) : ∀ e, e.time clock < (W.step clock s e).1.start + W.delay
  | .arrive a => by
      by_cases ha : clock a < s.start
      · rw [step_arrive_reject ha, Event.time]
        dsimp only
        omega
      · rw [step_arrive (Nat.le_of_not_lt ha), move_start, Event.time]
        exact lt_shift s.start (clock a)
  | .tick t => by
      by_cases ht : t < s.start
      · rw [step_tick_reject ht, Event.time]
        dsimp only
        omega
      · rw [step_tick (Nat.le_of_not_lt ht), move_start, Event.time]
        exact lt_shift s.start t

/-! ### Every item once -/

/-- The lists of the items of the values `0` to `m - 1` of `f`, one after the other, are
the items of values below `m`. -/
theorem flatten_map_range_filter (f : α → Nat) (l : List α) (m : Nat) :
    ((List.range m).map fun i => l.filter fun a => f a = i).flatten.Perm
      (l.filter fun a => f a < m) := by
  induction m with
  | zero => simp
  | succ m ih =>
      rw [List.range_succ, List.map_append, List.flatten_append, List.map_singleton,
        List.flatten_singleton]
      have hsplit := List.filter_append_perm (fun a => decide (f a < m)) (l.filter fun a => f a < m + 1)
      rw [List.filter_filter, List.filter_filter] at hsplit
      have hlt : (l.filter fun a => decide (f a < m) && decide (f a < m + 1)) = l.filter fun a => f a < m :=
        List.filter_congr fun a _ => by
          by_cases hm : f a < m
          · simp [hm, Nat.lt_succ_of_lt hm]
          · simp [hm]
      have heq : (l.filter fun a => !decide (f a < m) && decide (f a < m + 1)) = l.filter fun a => f a = m :=
        List.filter_congr fun a _ => by
          by_cases hm : f a < m
          · simp [hm, Nat.ne_of_lt hm]
          · simp only [hm, decide_false, Bool.not_false, Bool.true_and, decide_eq_decide]
            omega
      rw [hlt, heq] at hsplit
      exact (ih.append_right _).trans hsplit

/-- A move emits every item it drops, once. -/
theorem perm_move (h : W.Inv clock s) (t : Nat) :
    ((W.move clock s t).2.flatten ++ (W.move clock s t).1.pending).Perm s.pending := by
  simp only [move_emitted, move_pending]
  have hemit := flatten_map_range_filter (fun a => W.slot s.start (clock a)) s.pending
    (min (W.shift s.start t) W.count)
  -- every item is in a slot below `count`, so the slots below `min k count` are those below `k`
  have hmin : (s.pending.filter fun a => W.slot s.start (clock a) < min (W.shift s.start t) W.count) =
      s.pending.filter fun a => W.slot s.start (clock a) < W.shift s.start t :=
    List.filter_congr fun a ha => by
      have := h.slot_lt ha
      simp only [decide_eq_decide]
      omega
  have hrest : (s.pending.filter fun a => !decide (W.slot s.start (clock a) < W.shift s.start t)) =
      s.pending.filter fun a => W.shift s.start t ≤ W.slot s.start (clock a) :=
    List.filter_congr fun a _ => by
      rw [← decide_not, decide_eq_decide]
      exact Nat.not_lt
  rw [hmin] at hemit
  have hsplit := List.filter_append_perm (fun a => decide (W.slot s.start (clock a) < W.shift s.start t)) s.pending
  rw [hrest] at hsplit
  exact (hemit.append_right _).trans hsplit

/-- An event emits or keeps every item held and the item it takes in, each once. -/
theorem perm_step (h : W.Inv clock s) : ∀ e,
    ((W.step clock s e).2.1.flatten ++ (W.step clock s e).1.pending).Perm (s.pending ++ (W.step clock s e).2.2)
  | .arrive a => by
      by_cases ha : clock a < s.start
      · rw [step_arrive_reject ha]
        simp
      · rw [step_arrive (Nat.le_of_not_lt ha), ← List.append_assoc]
        exact (perm_move h (clock a)).append_right [a]
  | .tick t => by
      by_cases ht : t < s.start
      · rw [step_tick_reject ht]
        simp
      · rw [step_tick (Nat.le_of_not_lt ht), List.append_nil]
        exact perm_move h t

/-- **Every item taken in is emitted exactly once, or is still held.** -/
theorem run_perm (h : W.Inv clock s) (es : List (Event α)) :
    ((W.run clock s es).2.1.flatten ++ (W.run clock s es).1.pending).Perm (s.pending ++ (W.run clock s es).2.2) := by
  induction es generalizing s with
  | nil => simp [run]
  | cons e es ih =>
      simp only [run_cons, List.flatten_append, List.append_assoc]
      have hrest := (ih (h.step e)).append_left (W.step clock s e).2.1.flatten
      have hfirst := (perm_step h e).append_right (W.run clock (W.step clock s e).1 es).2.2
      simp only [List.append_assoc] at hfirst
      exact hrest.trans hfirst

end Slots

end Sophon.SlotWindow
