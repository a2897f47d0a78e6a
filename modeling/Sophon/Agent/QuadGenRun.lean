/-
The quadruple generator's window refines the slotted window.

`Tracks` relates a `SubQuadGen` to a state of `SlotWindow` over the flows it took in:
the same shape, the window start in seconds, in slot `i` the `stashOf` of the window's
slot `i`, and, when connections are counted, a connection for each of two slots at
least.  A call of `handle` keeps it as the window's event for the flow or the tick, and
sends the `flushOut` of the stash of each slot the window emits (`Tracks.handle`); so
does a run of calls (`Tracks.run`), and `QuadrupleGenerator::new` starts it
(`Configured.tracks`).

Two facts of the Rust carry this.  `move_window` shifts by the slots the window moves,
which leaves the time less than the delay past the new start, so that its loop turns
once (`Tracks.moveWindow`).  `flush_flow` of slot `i` leaves an empty stash in the slot
and the other slots as they were, so that flushing the first `k` slots and rotating them
to the back is the window's move (`flushSlots_range`, `shiftWindow_eq`).  The flush
loop with connections counted merges the connection of the slot it flushed into the
next one, which a generator with one slot does not have: the Rust indexes an empty
deque there and panics (`run_oneCountedSlot`).
-/
import Sophon.Agent.QuadGenSpec
import Sophon.Lib.Loop

namespace Sophon.Agent

open SlotWindow

variable {K4 K6 V A C : Type}

/-! ### Seconds -/

theorem asSecs_fromSecs (s : Nat) : asSecs (fromSecs s) = s := by
  unfold asSecs fromSecs
  exact Nat.mul_div_cancel s (by decide)

theorem fromSecs_add (a b : Nat) : fromSecs (a + b) = fromSecs a + fromSecs b := Nat.add_mul a b _

theorem lt_fromSecs_iff (t s : Nat) : t < fromSecs s ↔ asSecs t < s := by
  unfold asSecs fromSecs
  exact (Nat.div_lt_iff_lt_mul (by decide)).symm

theorem asSecs_sub_fromSecs (t s : Nat) : asSecs (t - fromSecs s) = asSecs t - s := by
  unfold asSecs fromSecs
  rw [Nat.mul_comm s, Nat.sub_mul_div]

/-- A time on a whole slot of `interval` seconds is a whole number of seconds, and of
slots. -/
theorem start_of_mod {w interval : Nat} (h : w % fromSecs interval = 0) :
    w = fromSecs (asSecs w) ∧ interval ∣ asSecs w := by
  obtain ⟨q, rfl⟩ := Nat.dvd_of_mod_eq_zero h
  have hq : asSecs (fromSecs interval * q) = interval * q := by
    rw [show fromSecs interval * q = fromSecs (interval * q) by
      unfold fromSecs
      rw [Nat.mul_right_comm]]
    exact asSecs_fromSecs _
  rw [hq]
  exact ⟨by unfold fromSecs; rw [Nat.mul_right_comm], Nat.dvd_mul_right _ _⟩

/-! ### Lists of stashes -/

/-- `push_back` then `swap_remove_back(i)`: the element at `i` and the list with the pushed
element in its place. -/
theorem swapRemoveBack_append {α : Type} [Inhabited α] {l : List α} (x : α) {i : Nat}
    (hi : i < l.length) : swapRemoveBack (l ++ [x]) i = some (l.getD i default, l.set i x) := by
  have hat : (l ++ [x]).getD i default = l.getD i default := by
    simp [List.getD_eq_getElem?_getD, List.getElem?_append_left hi]
  have hlast : (l ++ [x]).getD l.length default = x := by
    simp [List.getD_eq_getElem?_getD]
  rw [swapRemoveBack, if_pos (by simp; omega)]
  simp only [List.length_append, List.length_singleton, Nat.add_sub_cancel, hat, hlast,
    List.set_append_left _ _ hi, List.dropLast_concat]

/-- `rotate_left(n)` of fewer than all elements. -/
theorem rotateLeft_of_lt {α : Type} {l : List α} {n : Nat} (h : n < l.length) :
    l.rotateLeft n = l.drop n ++ l.take n := by
  unfold List.rotateLeft
  dsimp only
  split
  · have hn : n = 0 := by omega
    simp [hn]
  · rw [Nat.mod_eq_of_lt h]

/-- The first `t` slots flushed, the next one flushed. -/
theorem set_replicate_append_drop {α : Type} {l : List α} (x : α) {t : Nat} (ht : t < l.length) :
    (List.replicate t x ++ l.drop t).set t x = List.replicate (t + 1) x ++ l.drop (t + 1) := by
  rw [List.set_append_right _ _ (by simp), List.length_replicate, Nat.sub_self,
    List.drop_eq_getElem_cons ht, List.set_cons_zero, List.replicate_succ', List.append_assoc,
    List.singleton_append]

theorem getD_replicate_append_drop {α : Type} {l : List α} (x d : α) (t : Nat) :
    (List.replicate t x ++ l.drop t).getD t d = l.getD t d := by
  simp [List.getD_eq_getElem?_getD, List.getElem?_append_right]

/-! ### Flushing slots -/

theorem flushFlow_eq (g : SubQuadGen K4 K6 A C) {i : Nat} (hi : i < g.stashs.length) :
    g.flushFlow i =
      some ({ g with stashs := g.stashs.set i QuadrupleStash.new }, flushOut (g.stashs.getD i default)) := by
  rw [SubQuadGen.flushFlow, swapRemoveBack_append _ hi]
  rfl

/-- One turn of the flush loop with connections counted: the slot flushed, and the
connections turned by one, as many as before. -/
theorem flushCounted_eq (ops : QgOps K4 K6 V A C) (t : Nat) (g : SubQuadGen K4 K6 A C)
    (cs : List C) (sent : List (List A)) {i : Nat} (hi : i < g.stashs.length) (hcs : 2 ≤ cs.length) :
    ∃ cs', SubQuadGen.flushCounted ops t (g, cs, sent) i =
        some ({ g with stashs := g.stashs.set i QuadrupleStash.new }, cs',
          sent ++ flushOut (g.stashs.getD i default)) ∧
      cs'.length = cs.length := by
  obtain ⟨c₀, c₁, rest, rfl⟩ : ∃ c₀ c₁ rest, cs = c₀ :: c₁ :: rest := by
    match cs, hcs with
    | c₀ :: c₁ :: rest, _ => exact ⟨c₀, c₁, rest, rfl⟩
  refine ⟨ops.mergeConnection t c₁ c₀ :: rest ++ [ops.clearConnection c₀], ?_, by simp⟩
  simp only [SubQuadGen.flushCounted, flushFlow_eq g hi]
  rfl

/-- The flushes of the first `t` slots, then of slot `t`. -/
theorem flushOut_take_succ {l : List (QuadrupleStash K4 K6 A)} {t : Nat} (ht : t < l.length) :
    ((List.replicate t QuadrupleStash.new ++ l.drop t).set t QuadrupleStash.new,
        (l.take t).flatMap flushOut ++
          flushOut ((List.replicate t QuadrupleStash.new ++ l.drop t).getD t default)) =
      (List.replicate (t + 1) QuadrupleStash.new ++ l.drop (t + 1), (l.take (t + 1)).flatMap flushOut) := by
  rw [set_replicate_append_drop _ ht, getD_replicate_append_drop, List.getD_eq_getElem?_getD,
    List.take_add_one, List.getElem?_eq_getElem ht, Option.getD_some, Option.toList_some,
    List.flatMap_append, List.flatMap_singleton]

/-- The flush loop of `move_window` over the first `m` slots: each holds an empty stash
afterwards and the others what they held, the flushed stashes are sent in order, and
the connections, if counted, are as many as before. -/
theorem flushSlots_range (ops : QgOps K4 K6 V A C) (t : Nat) (g : SubQuadGen K4 K6 A C) {m : Nat}
    (hm : m ≤ g.stashs.length) (hc : ∀ cs ∈ g.connections, 2 ≤ cs.length) :
    ∃ connections, SubQuadGen.flushSlots ops t g (List.range m) =
        some ({ g with stashs := List.replicate m QuadrupleStash.new ++ g.stashs.drop m, connections },
          (g.stashs.take m).flatMap flushOut) ∧
      connections.map List.length = g.connections.map List.length := by
  rw [List.range_eq_range']
  unfold SubQuadGen.flushSlots
  cases hcon : g.connections with
  | none =>
      refine ⟨none, ?_, rfl⟩
      refine Loop.foldlM_range'_closed
        (fun j => ({ g with stashs := List.replicate j QuadrupleStash.new ++ g.stashs.drop j },
          (g.stashs.take j).flatMap flushOut)) _ (fun j _ hj => ?_) (by simp) (by simp [hcon])
      have hj' : j < (List.replicate j QuadrupleStash.new ++ g.stashs.drop j).length := by simp; omega
      have hnext := Prod.mk.inj (flushOut_take_succ (l := g.stashs) (t := j) (by omega))
      rw [flushFlow_eq { g with stashs := List.replicate j QuadrupleStash.new ++ g.stashs.drop j } hj']
      rw [← hnext.1, ← hnext.2]
      rfl
  | some cs =>
      have hcs := hc cs hcon
      let P := fun j (acc : SubQuadGen K4 K6 A C × List C × List (List A)) =>
        acc.1 = { g with connections := none, stashs := List.replicate j QuadrupleStash.new ++ g.stashs.drop j } ∧
          acc.2.1.length = cs.length ∧ acc.2.2 = (g.stashs.take j).flatMap flushOut
      have hstep : ∀ j acc, 0 ≤ j → j < 0 + m → P j acc →
          ∃ acc', SubQuadGen.flushCounted ops t acc j = some acc' ∧ P (j + 1) acc' := by
        rintro j ⟨g', cs', sent'⟩ - hj ⟨rfl, hlen, rfl⟩
        dsimp only at hlen
        have hj' : j < (List.replicate j QuadrupleStash.new ++ g.stashs.drop j).length := by simp; omega
        have hnext := Prod.mk.inj (flushOut_take_succ (l := g.stashs) (t := j) (by omega))
        obtain ⟨cs'', hturn, hlen'⟩ := flushCounted_eq ops t
          { g with connections := none, stashs := List.replicate j QuadrupleStash.new ++ g.stashs.drop j }
          cs' _ hj' (by omega)
        refine ⟨_, hturn, ?_, by rw [hlen', hlen], hnext.2⟩
        dsimp only
        rw [hnext.1]
      obtain ⟨r, hr, hg, hlen, hsent⟩ := Loop.foldlM_range'_sweep P (SubQuadGen.flushCounted ops t) 0 m
        ({ g with connections := none }, cs, []) hstep ⟨by simp, rfl, by simp⟩
      refine ⟨some r.2.1, ?_, by simp [hlen]⟩
      dsimp only
      rw [hr]
      obtain ⟨g', cs', sent'⟩ := r
      dsimp only at hg hsent ⊢
      rw [hg, hsent, Nat.zero_add]
      rfl

/-- The body of the loop of `move_window`: the first `k` slots flushed and rotated to
the back, or every slot flushed in place when `k` reaches past them.  Either way, the
slots past the first `k`, then as many empty ones as were flushed. -/
theorem shiftWindow_eq (ops : QgOps K4 K6 V A C) (t : Nat) (g : SubQuadGen K4 K6 A C) (k : Nat)
    (hlen : g.stashs.length = g.numberOfSlots) (hc : ∀ cs ∈ g.connections, 2 ≤ cs.length) :
    ∃ connections, SubQuadGen.shiftWindow ops t g k =
        some ({ g with
            stashs := g.stashs.drop k ++ List.replicate (min k g.numberOfSlots) QuadrupleStash.new,
            connections },
          (g.stashs.take k).flatMap flushOut) ∧
      connections.map List.length = g.connections.map List.length := by
  unfold SubQuadGen.shiftWindow
  by_cases hk : k ≥ g.numberOfSlots
  · -- every slot flushed in place
    rw [if_pos hk]
    obtain ⟨connections, hflush, hconn⟩ := flushSlots_range ops t g (Nat.le_refl g.stashs.length) hc
    refine ⟨connections, ?_, hconn⟩
    rw [hflush, List.drop_length, List.drop_of_length_le (by omega), List.take_length,
      List.take_of_length_le (by omega), Nat.min_eq_right hk, hlen, List.append_nil, List.nil_append]
  · -- the first `k` flushed, then rotated to the back
    rw [if_neg hk]
    obtain ⟨connections, hflush, hconn⟩ := flushSlots_range ops t g (m := k) (by omega) hc
    refine ⟨connections, ?_, hconn⟩
    have hlen' : (List.replicate k QuadrupleStash.new ++ g.stashs.drop k).length = g.numberOfSlots := by
      simp only [List.length_append, List.length_replicate, List.length_drop]
      omega
    rw [hflush]
    dsimp only [bind, Option.bind]
    rw [if_pos (by rw [hlen']; omega), rotateLeft_of_lt (by rw [hlen']; omega),
      List.drop_left' List.length_replicate, List.take_left' List.length_replicate,
      Nat.min_eq_left (by omega)]
    rfl

/-- The loop of `move_window` stops when the time is less than the delay past the start. -/
theorem windowLoop_stop (ops : QgOps K4 K6 V A C) {t : Nat} {g : SubQuadGen K4 K6 A C}
    (h : asSecs t < asSecs g.windowStart + g.delaySeconds) :
    ∀ fuel, SubQuadGen.windowLoop ops t fuel g = some (g, [])
  | 0 => rfl
  | fuel + 1 => by rw [SubQuadGen.windowLoop, if_neg (Nat.not_le.mpr h)]

/-- A turn of the loop of `move_window` after which the time is less than the delay past
the start is its last. -/
theorem windowLoop_shift (ops : QgOps K4 K6 V A C) {t fuel : Nat} {g g₁ : SubQuadGen K4 K6 A C}
    {sent : List (List A)} (hcond : asSecs g.windowStart + g.delaySeconds ≤ asSecs t)
    (hI : g.slotInterval ≠ 0)
    (hshift : SubQuadGen.shiftWindow ops t g
        ((asSecs t - asSecs g.windowStart - g.delaySeconds) / g.slotInterval + 1) = some (g₁, sent))
    (hstop : asSecs t < asSecs (g₁.windowStart + fromSecs (g.slotInterval *
        ((asSecs t - asSecs g.windowStart - g.delaySeconds) / g.slotInterval + 1))) + g₁.delaySeconds) :
    SubQuadGen.windowLoop ops t (fuel + 1) g =
      some ({ g₁ with windowStart := g₁.windowStart + fromSecs (g.slotInterval *
        ((asSecs t - asSecs g.windowStart - g.delaySeconds) / g.slotInterval + 1)) }, sent) := by
  rw [SubQuadGen.windowLoop, if_pos hcond, if_neg hI]
  dsimp only [bind, Option.bind]
  rw [hshift]
  dsimp only
  rw [windowLoop_stop ops hstop]
  exact congrArg some (Prod.ext rfl (List.append_nil sent))

/-! ### The generator tracks the window -/

variable [DecidableEq K4] [DecidableEq K6]

/-- The stashes a state of the window calls for: in slot `i`, the stash of its flows. -/
def stashesOf (ops : QgOps K4 K6 V A C) (W : Slots) (s : State (Nat × V × QgKey K4 K6)) :
    List (QuadrupleStash K4 K6 A) :=
  (List.range W.count).map fun i => stashOf ops (W.slotItems arrivalSecs s i)

/-- The generator against a state of the window over the flows it took in: the same
shape, the same start, in each slot the stash of the window's slot, and, when
connections are counted, one for each of two slots at least. -/
structure Tracks (ops : QgOps K4 K6 V A C) (W : Slots) (g : SubQuadGen K4 K6 A C)
    (s : State (Nat × V × QgKey K4 K6)) : Prop where
  interval : g.slotInterval = W.interval
  count : g.numberOfSlots = W.count
  delay : g.delaySeconds = W.delay
  start : g.windowStart = fromSecs s.start
  stashs : g.stashs = stashesOf ops W s
  connections : ∀ cs ∈ g.connections, cs.length = W.count ∧ 2 ≤ W.count

variable {ops : QgOps K4 K6 V A C} {W : Slots}

theorem length_stashesOf (s : State (Nat × V × QgKey K4 K6)) : (stashesOf ops W s).length = W.count := by
  simp [stashesOf]

/-- The window's move, on the stashes: the slots past the first `k`, then `k` empty ones,
or all of them when `k` reaches past the window. -/
theorem stashesOf_move {s : State (Nat × V × QgKey K4 K6)} (h : W.Inv arrivalSecs s) (T : Nat) :
    stashesOf ops W (W.move arrivalSecs s T).1 =
      (stashesOf ops W s).drop (W.shift s.start T) ++
        List.replicate (min (W.shift s.start T) W.count) QuadrupleStash.new := by
  apply List.ext_getElem
  · simp only [length_stashesOf, List.length_append, List.length_drop, List.length_replicate]
    omega
  · intro j hj _
    rw [length_stashesOf] at hj
    have hdrop : ((stashesOf ops W s).drop (W.shift s.start T)).length = W.count - W.shift s.start T := by
      rw [List.length_drop, length_stashesOf]
    by_cases hin : j < W.count - W.shift s.start T
    · -- slot `j + k` of the window before
      rw [List.getElem_append_left (by rw [hdrop]; exact hin), List.getElem_drop]
      simp only [stashesOf, List.getElem_map, List.getElem_range, Slots.slotItems_move, Nat.add_comm]
    · -- slot `j + k` is past the window, and holds nothing
      rw [List.getElem_append_right (by rw [hdrop]; omega), List.getElem_replicate]
      simp only [stashesOf, List.getElem_map, List.getElem_range, Slots.slotItems_move]
      rw [h.slotItems_eq_nil (by omega), stashOf_nil]

/-- The stashes a move flushes are those of the slots the window emits. -/
theorem flatMap_take_stashesOf (s : State (Nat × V × QgKey K4 K6)) (k : Nat) :
    ((stashesOf ops W s).take k).flatMap flushOut =
      ((List.range (min k W.count)).map (W.slotItems arrivalSecs s)).flatMap fun l => flushOut (stashOf ops l) := by
  rw [stashesOf, ← List.map_take, List.take_range, List.flatMap_map, List.flatMap_map]

/-- `inject_flow` on the stashes: the flow joins the stash of its slot. -/
theorem stashesOf_push (s : State (Nat × V × QgKey K4 K6)) (t : Nat) (v : V) (key : QgKey K4 K6) :
    (stashesOf ops W s).set (W.slot s.start (asSecs t))
        (((stashesOf ops W s).getD (W.slot s.start (asSecs t)) default).inject ops t v key) =
      stashesOf ops W ⟨s.start, s.pending ++ [(t, v, key)]⟩ := by
  apply List.ext_getElem
  · simp [length_stashesOf]
  · intro i hi _
    rw [List.length_set, length_stashesOf] at hi
    rw [List.getElem_set]
    simp only [stashesOf, List.getElem_map, List.getElem_range, Slots.slotItems_push, arrivalSecs]
    split
    · -- the flow's own slot
      rename_i hslot
      subst hslot
      rw [List.getD_eq_getElem?_getD, List.getElem?_map, List.getElem?_range hi, Option.map_some,
        Option.getD_some, ← stashOf_append]
    · rw [List.append_nil]

/-- Connections that are as many as before keep one to a slot. -/
theorem connections_of_length {cs₀ connections : Option (List C)} {n : Nat}
    (h : ∀ cs ∈ cs₀, cs.length = n ∧ 2 ≤ n)
    (hconn : connections.map List.length = cs₀.map List.length) :
    ∀ cs ∈ connections, cs.length = n ∧ 2 ≤ n := by
  intro cs hcs
  rw [Option.mem_def] at hcs
  subst hcs
  cases cs₀ with
  | none => simp at hconn
  | some cs' =>
      have hlen : cs.length = cs'.length := by simpa using hconn
      rw [hlen]
      exact h cs' rfl

/-! ### One call -/

variable {g : SubQuadGen K4 K6 A C} {s : State (Nat × V × QgKey K4 K6)}

theorem Tracks.length_stashs (h : Tracks ops W g s) : g.stashs.length = g.numberOfSlots := by
  rw [h.stashs, length_stashesOf, h.count]

theorem Tracks.two_le (h : Tracks ops W g s) : ∀ cs ∈ g.connections, 2 ≤ cs.length := fun cs hcs => by
  have := h.connections cs hcs
  omega

/-- The generator moved by the `k` slots the window moves. -/
theorem Tracks.move (h : Tracks ops W g s) (hinv : W.Inv arrivalSecs s) (T : Nat)
    {connections : Option (List C)} (hconn : connections.map List.length = g.connections.map List.length) :
    Tracks ops W { g with
        windowStart := g.windowStart + fromSecs (g.slotInterval * W.shift s.start T),
        stashs := g.stashs.drop (W.shift s.start T) ++
          List.replicate (min (W.shift s.start T) g.numberOfSlots) QuadrupleStash.new,
        connections } (W.move arrivalSecs s T).1 where
  interval := h.interval
  count := h.count
  delay := h.delay
  start := by rw [Slots.move_start, fromSecs_add, h.start, h.interval]
  stashs := by rw [stashesOf_move hinv, h.stashs, h.count]
  connections := connections_of_length h.connections hconn

/-- A time before the window is turned down, and nothing changes. -/
theorem Tracks.moveWindow_reject (h : Tracks ops W g s) {t : Nat} (ht : asSecs t < s.start) :
    g.moveWindow ops t = some (false, g, []) := by
  rw [SubQuadGen.moveWindow, if_pos (by rw [h.start, lt_fromSecs_iff]; exact ht)]

/-- **`move_window` moves the generator as the window moves, and sends the stashes of
the slots it moves past.** -/
theorem Tracks.moveWindow (h : Tracks ops W g s) (hinv : W.Inv arrivalSecs s) {t : Nat}
    (ht : s.start ≤ asSecs t) :
    ∃ g', g.moveWindow ops t =
        some (true, g', (W.move arrivalSecs s (asSecs t)).2.flatMap fun l => flushOut (stashOf ops l)) ∧
      Tracks ops W g' (W.move arrivalSecs s (asSecs t)).1 := by
  have hsecs : asSecs g.windowStart = s.start := by rw [h.start, asSecs_fromSecs]
  rw [SubQuadGen.moveWindow, if_neg (by rw [h.start, lt_fromSecs_iff]; omega)]
  by_cases hk : s.start + W.delay ≤ asSecs t
  · -- the window moves by `k` slots, and the loop turns once
    have hkeq : W.shift s.start (asSecs t) =
        (asSecs t - asSecs g.windowStart - g.delaySeconds) / g.slotInterval + 1 := by
      rw [Slots.shift, if_pos hk, hsecs, h.delay, h.interval]
    obtain ⟨connections, hshift, hconn⟩ :=
      shiftWindow_eq ops t g (W.shift s.start (asSecs t)) h.length_stashs h.two_le
    have hstop : asSecs t < asSecs (g.windowStart + fromSecs (g.slotInterval * W.shift s.start (asSecs t))) +
        g.delaySeconds := by
      rw [h.start, ← fromSecs_add, asSecs_fromSecs, h.interval, h.delay]
      exact Slots.lt_shift s.start (asSecs t)
    have hsent : (g.stashs.take (W.shift s.start (asSecs t))).flatMap flushOut =
        (W.move arrivalSecs s (asSecs t)).2.flatMap fun l => flushOut (stashOf ops l) := by
      rw [h.stashs, flatMap_take_stashesOf, Slots.move_emitted]
    rw [hkeq] at hshift hstop hsent
    rw [windowLoop_shift ops (by rw [hsecs, h.delay]; exact hk)
      (by rw [h.interval]; exact Nat.pos_iff_ne_zero.mp W.interval_pos) hshift hstop, Option.map_some, hsent]
    exact ⟨_, rfl, by rw [← hkeq]; exact h.move hinv (asSecs t) hconn⟩
  · -- the window stays where it is
    have hk0 : W.shift s.start (asSecs t) = 0 := by rw [Slots.shift, if_neg hk]
    rw [windowLoop_stop ops (by rw [hsecs, h.delay]; omega), Option.map_some]
    refine ⟨g, by rw [Slots.move_emitted, hk0]; rfl, ?_⟩
    have hmove := h.move hinv (asSecs t)
      (rfl : g.connections.map List.length = g.connections.map List.length)
    rw [hk0] at hmove
    simpa [fromSecs] using hmove

/-- **`inject_flow` merges the flow into the stash of its slot.** -/
theorem Tracks.injectFlow (h : Tracks ops W g s) {t : Nat} (v : V) (key : QgKey K4 K6)
    (hstart : s.start ≤ asSecs t) (hlt : asSecs t < s.start + W.delay) :
    ∃ g', g.injectFlow ops v t key = some g' ∧ Tracks ops W g' ⟨s.start, s.pending ++ [(t, v, key)]⟩ := by
  have hslot : asSecs (t - g.windowStart) / g.slotInterval = W.slot s.start (asSecs t) := by
    rw [h.start, asSecs_sub_fromSecs, h.interval]
    rfl
  have hin : W.slot s.start (asSecs t) < W.count := by
    unfold Slots.slot
    rw [Nat.div_lt_iff_lt_mul W.interval_pos]
    have := W.delay_le
    omega
  have hnot : ¬ (t < g.windowStart ∨ g.slotInterval = 0) := by
    rw [h.start, lt_fromSecs_iff, h.interval]
    have := W.interval_pos
    omega
  -- the stash of the slot takes the flow, whatever happens to the connections
  have htracks : ∀ connections : Option (List C),
      connections.map List.length = g.connections.map List.length →
      Tracks ops W { g with
        stashs := g.stashs.set (W.slot s.start (asSecs t))
          ((g.stashs.getD (W.slot s.start (asSecs t)) default).inject ops t v key),
        connections } ⟨s.start, s.pending ++ [(t, v, key)]⟩ := fun connections hconn =>
    { interval := h.interval
      count := h.count
      delay := h.delay
      start := h.start
      stashs := by rw [h.stashs]; exact stashesOf_push s t v key
      connections := connections_of_length h.connections hconn }
  rw [SubQuadGen.injectFlow, if_neg hnot]
  dsimp only
  rw [hslot, if_pos (by rw [h.length_stashs, h.count]; exact hin)]
  cases hcon : g.connections with
  | none => exact ⟨_, rfl, htracks none (by rw [hcon])⟩
  | some cs =>
      cases hf : ops.count t v key with
      | none => exact ⟨_, rfl, htracks (some cs) (by rw [hcon])⟩
      | some f =>
          have hj : W.slot s.start (asSecs t) < cs.length := by
            rw [(h.connections cs hcon).1]
            exact hin
          dsimp only
          rw [dif_pos hj]
          exact ⟨_, rfl, htracks _ (by simp [hcon])⟩

omit [DecidableEq K4] [DecidableEq K6] in
theorem arrivalSecs_mk (t : Nat) (v : V) (key : QgKey K4 K6) : arrivalSecs (t, v, key) = asSecs t := rfl

/-- **One call of `handle` is the window's event: the generator tracks the window
afterwards, and sends the flushes of the slots the window emits.** -/
theorem Tracks.handle (h : Tracks ops W g s) (hinv : W.Inv arrivalSecs s) (x : QgInput K4 K6 V) :
    ∃ g', g.handle ops x =
        some (g', (W.step arrivalSecs s (toEvent x)).2.1.flatMap fun l => flushOut (stashOf ops l)) ∧
      Tracks ops W g' (W.step arrivalSecs s (toEvent x)).1 := by
  cases x with
  | tick t =>
      by_cases ht : asSecs t < s.start
      · rw [toEvent, Slots.step_tick_reject ht]
        exact ⟨g, by rw [SubQuadGen.handle, h.moveWindow_reject ht]; rfl, h⟩
      · obtain ⟨g', hmove, htr⟩ := h.moveWindow hinv (Nat.le_of_not_lt ht)
        rw [toEvent, Slots.step_tick (Nat.le_of_not_lt ht)]
        exact ⟨g', by rw [SubQuadGen.handle, hmove]; rfl, htr⟩
  | flow t v key =>
      by_cases ht : asSecs t < s.start
      · rw [toEvent, Slots.step_arrive_reject ht]
        exact ⟨g, by rw [SubQuadGen.handle, h.moveWindow_reject ht]; rfl, h⟩
      · -- the window moves for the flow, which then joins its slot
        have hle := Nat.le_of_not_lt ht
        obtain ⟨g', hmove, htr⟩ := h.moveWindow hinv hle
        obtain ⟨g'', hinject, htr'⟩ := htr.injectFlow v key
          (by rw [Slots.move_start]; exact Slots.shift_le hle) (by rw [Slots.move_start]; exact Slots.lt_shift _ _)
        rw [toEvent, Slots.step_arrive (by rw [arrivalSecs_mk]; exact hle), arrivalSecs_mk]
        refine ⟨g'', ?_, htr'⟩
        rw [SubQuadGen.handle, hmove]
        dsimp only [bind, Option.bind]
        rw [if_pos rfl, hinject]
        rfl

/-- **A run of calls is the window's run of events.** -/
theorem Tracks.run (h : Tracks ops W g s) (hinv : W.Inv arrivalSecs s) (inputs : List (QgInput K4 K6 V)) :
    ∃ g', g.run ops inputs =
        some (g', (W.run arrivalSecs s (inputs.map toEvent)).2.1.flatMap fun l => flushOut (stashOf ops l)) ∧
      Tracks ops W g' (W.run arrivalSecs s (inputs.map toEvent)).1 := by
  induction inputs generalizing g s with
  | nil => exact ⟨g, rfl, h⟩
  | cons x inputs ih =>
      obtain ⟨g₁, hstep, h₁⟩ := h.handle hinv x
      obtain ⟨g₂, hrest, h₂⟩ := ih h₁ (hinv.step (toEvent x))
      refine ⟨g₂, ?_, h₂⟩
      rw [SubQuadGen.run, hstep]
      dsimp only [bind, Option.bind]
      rw [hrest, List.map_cons, Slots.run_cons, List.flatMap_append]
      rfl

/-! ### From `QuadrupleGenerator::new` -/

/-- The start of a window a whole number of slots in. -/
theorem fromSecs_mod_of_dvd {interval start : Nat} (h : interval ∣ start) :
    fromSecs start % fromSecs interval = 0 :=
  Nat.mod_eq_zero_of_dvd (Nat.mul_dvd_mul_right h _)

/-- **`QuadrupleGenerator::new` starts the generator on the empty window.** -/
theorem Configured.tracks (hg : Configured g) (ops : QgOps K4 K6 V A C) :
    Tracks ops hg.slots g ⟨asSecs g.windowStart, []⟩ ∧
      hg.slots.Inv arrivalSecs (⟨asSecs g.windowStart, []⟩ : State (Nat × V × QgKey K4 K6)) := by
  obtain ⟨hstart, hdvd⟩ := start_of_mod hg.start
  refine ⟨⟨rfl, rfl, rfl, hstart, ?_, hg.connections⟩, ⟨hdvd, fun a ha => absurd ha List.not_mem_nil⟩⟩
  rw [hg.stashs, stashesOf]
  simp only [Slots.slotItems, List.filter_nil, stashOf_nil, List.map_const', List.length_range]
  rfl

/-- The run of the window a generator's calls make, from its start with nothing held. -/
def windowOf (W : Slots) (g : SubQuadGen K4 K6 A C) (inputs : List (QgInput K4 K6 V)) :
    State (Nat × V × QgKey K4 K6) × List (List (Nat × V × QgKey K4 K6)) × List (Nat × V × QgKey K4 K6) :=
  W.run arrivalSecs ⟨asSecs g.windowStart, []⟩ (inputs.map toEvent)

/-- **Every run of a configured generator runs, and is the run of its window**: the start
stays on a whole slot, never goes back and after each call is less than the delay before
its time; each stash is the aggregate of the flows the window holds in its slot; the
batches sent are the flushes of the slots the window emits, and every flow the window
took in was emitted once or is still held. -/
theorem window_exact (ops : QgOps K4 K6 V A C) {g₀ : SubQuadGen K4 K6 A C} (hg : Configured g₀)
    (inputs : List (QgInput K4 K6 V)) :
    ∃ g sent, g₀.run ops inputs = some (g, sent) ∧
      g.windowStart = fromSecs (windowOf hg.slots g₀ inputs).1.start ∧
      g.windowStart % fromSecs g.slotInterval = 0 ∧ g₀.windowStart ≤ g.windowStart ∧
      (∀ i (hi : i < g.stashs.length),
        g.stashs[i] = stashOf ops (hg.slots.slotItems arrivalSecs (windowOf hg.slots g₀ inputs).1 i)) ∧
      sent = (windowOf hg.slots g₀ inputs).2.1.flatMap (fun l => flushOut (stashOf ops l)) ∧
      ((windowOf hg.slots g₀ inputs).2.1.flatten ++ (windowOf hg.slots g₀ inputs).1.pending).Perm
        (windowOf hg.slots g₀ inputs).2.2 ∧
      ∀ x, ∃ g' sent', g.handle ops x = some (g', sent') ∧ g.windowStart ≤ g'.windowStart ∧
        asSecs x.timeInSecond < asSecs g'.windowStart + g'.delaySeconds := by
  obtain ⟨h₀, hinv₀⟩ := hg.tracks ops
  obtain ⟨g, hrun, h⟩ := h₀.run hinv₀ inputs
  have hinv := hinv₀.run (inputs.map toEvent)
  refine ⟨g, _, hrun, h.start, ?_, ?_, fun i hi => ?_, rfl, ?_, fun x => ?_⟩
  · -- the start stays on a whole slot
    rw [h.start, h.interval]
    exact fromSecs_mod_of_dvd hinv.dvd
  · -- the start never goes back
    have hle : asSecs g₀.windowStart ≤ (windowOf hg.slots g₀ inputs).1.start :=
      Slots.start_le_run (⟨asSecs g₀.windowStart, []⟩ : State (Nat × V × QgKey K4 K6)) (inputs.map toEvent)
    calc g₀.windowStart = fromSecs (asSecs g₀.windowStart) := (start_of_mod hg.start).1
      _ ≤ fromSecs (windowOf hg.slots g₀ inputs).1.start := Nat.mul_le_mul_right _ hle
      _ = g.windowStart := h.start.symm
  · simp only [h.stashs, stashesOf, List.getElem_map, List.getElem_range]
    rfl
  · -- every flow taken in is sent once, in the flush of its slot, or still held
    simpa [windowOf] using Slots.run_perm hinv₀ (inputs.map toEvent)
  · obtain ⟨g', hstep, h'⟩ := h.handle hinv x
    refine ⟨g', _, hstep, ?_, ?_⟩
    · rw [h.start, h'.start]
      exact Nat.mul_le_mul_right _ (Slots.start_le_step _ _)
    · rw [h'.start, asSecs_fromSecs, h'.delay, ← time_toEvent]
      exact Slots.lt_step_start _ _

/-- Aggregates that are the lists of the flows merged into them. -/
def listOps : QgOps Nat Nat Nat (List Nat) Nat where
  fresh _ v := [v]
  merge a _ v := a ++ [v]
  count _ _ _ := none
  mergeConnection _ a b := a + b
  clearConnection _ := 0

/-- Two flows of one key in the first second of a second generator of two slots that
counts connections, then a flow three seconds on, which moves the window past them. -/
theorem window_exact_second :
    Configured (newSecond 0 2 (some 0) : SubQuadGen Nat Nat (List Nat) Nat) ∧
      ∃ g sent, (newSecond 0 2 (some 0) : SubQuadGen Nat Nat (List Nat) Nat).run listOps
          [.flow 1000000000 10 (.v4 1), .flow 1500000000 20 (.v4 1), .flow 3000000000 30 (.v6 2)] =
          some (g, sent) ∧
        g.windowStart = fromSecs (windowOf
          (Configured.second (by decide) (by decide) (by decide) :
            Configured (newSecond 0 2 (some 0) : SubQuadGen Nat Nat (List Nat) Nat)).slots
          (newSecond 0 2 (some 0) : SubQuadGen Nat Nat (List Nat) Nat)
          [.flow 1000000000 10 (.v4 1), .flow 1500000000 20 (.v4 1), .flow 3000000000 30 (.v6 2)]).1.start ∧
        g.windowStart % fromSecs g.slotInterval = 0 ∧
        (newSecond 0 2 (some 0) : SubQuadGen Nat Nat (List Nat) Nat).windowStart ≤ g.windowStart ∧
        (∀ i (hi : i < g.stashs.length),
          g.stashs[i] = stashOf listOps (Slots.slotItems arrivalSecs
            (Configured.second (by decide) (by decide) (by decide) :
              Configured (newSecond 0 2 (some 0) : SubQuadGen Nat Nat (List Nat) Nat)).slots
            (windowOf
              (Configured.second (by decide) (by decide) (by decide) :
                Configured (newSecond 0 2 (some 0) : SubQuadGen Nat Nat (List Nat) Nat)).slots
              (newSecond 0 2 (some 0) : SubQuadGen Nat Nat (List Nat) Nat)
              [.flow 1000000000 10 (.v4 1), .flow 1500000000 20 (.v4 1), .flow 3000000000 30 (.v6 2)]).1 i)) ∧
        sent = (windowOf
          (Configured.second (by decide) (by decide) (by decide) :
            Configured (newSecond 0 2 (some 0) : SubQuadGen Nat Nat (List Nat) Nat)).slots
          (newSecond 0 2 (some 0) : SubQuadGen Nat Nat (List Nat) Nat)
          [.flow 1000000000 10 (.v4 1), .flow 1500000000 20 (.v4 1), .flow 3000000000 30 (.v6 2)]).2.1.flatMap
            (fun l => flushOut (stashOf listOps l)) ∧
        ((windowOf
          (Configured.second (by decide) (by decide) (by decide) :
            Configured (newSecond 0 2 (some 0) : SubQuadGen Nat Nat (List Nat) Nat)).slots
          (newSecond 0 2 (some 0) : SubQuadGen Nat Nat (List Nat) Nat)
          [.flow 1000000000 10 (.v4 1), .flow 1500000000 20 (.v4 1), .flow 3000000000 30 (.v6 2)]).2.1.flatten ++
          (windowOf
            (Configured.second (by decide) (by decide) (by decide) :
              Configured (newSecond 0 2 (some 0) : SubQuadGen Nat Nat (List Nat) Nat)).slots
            (newSecond 0 2 (some 0) : SubQuadGen Nat Nat (List Nat) Nat)
            [.flow 1000000000 10 (.v4 1), .flow 1500000000 20 (.v4 1), .flow 3000000000 30 (.v6 2)]).1.pending).Perm
          (windowOf
            (Configured.second (by decide) (by decide) (by decide) :
              Configured (newSecond 0 2 (some 0) : SubQuadGen Nat Nat (List Nat) Nat)).slots
            (newSecond 0 2 (some 0) : SubQuadGen Nat Nat (List Nat) Nat)
            [.flow 1000000000 10 (.v4 1), .flow 1500000000 20 (.v4 1), .flow 3000000000 30 (.v6 2)]).2.2 ∧
        ∀ x, ∃ g' sent', g.handle listOps x = some (g', sent') ∧ g.windowStart ≤ g'.windowStart ∧
          asSecs x.timeInSecond < asSecs g'.windowStart + g'.delaySeconds :=
  ⟨Configured.second (by decide) (by decide) (by decide),
    window_exact listOps (Configured.second (by decide) (by decide) (by decide)) _⟩

/-- The second generator of a single slot that counts connections: the first flow a
second past the start flushes the slot, and the Rust then merges the slot's connection
into `current[0]` of the deque it has just emptied, and panics, whatever the flow and the
aggregates. -/
theorem run_none_of_oneCountedSlot (ops : QgOps K4 K6 V A C) (c : C) (v : V) (key : QgKey K4 K6) :
    (newSecond 0 1 (some c) : SubQuadGen K4 K6 A C).run ops [.flow (fromSecs 1) v key] = none := by
  dsimp only [SubQuadGen.run, SubQuadGen.handle, SubQuadGen.moveWindow, newSecond]
  -- the flow is in the window, its delay past the start: the loop shifts by a slot
  rw [if_neg (by decide), asSecs_fromSecs, SubQuadGen.windowLoop]
  dsimp only
  rw [if_pos (by decide), if_neg (by decide)]
  -- the flush pops the only connection, and there is no `current[0]` to merge it into
  rfl

/-- A flow a second past the start of a second generator of one slot that counts
connections. -/
theorem run_oneCountedSlot :
    (newSecond 0 1 (some 0) : SubQuadGen Nat Nat (List Nat) Nat).run listOps
      [.flow (fromSecs 1) 10 (.v4 1)] = none :=
  run_none_of_oneCountedSlot listOps 0 10 (.v4 1)

end Sophon.Agent
