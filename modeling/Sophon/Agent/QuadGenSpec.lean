/-
What the quadruple generator's window computes.

The generator is the slotted window of `SlotWindow`: its items are the flows it takes
in, each with its time and its key, and the window places them by their second
(`arrivalSecs`); a call of `handle` is the window's event for the flow or the tick
(`toEvent`).  A stash is the aggregate, by key, of the flows of its slot: `stashOf`
injects them, in the order they came, into an empty stash, so that it holds each key
once, under it the aggregate of that key's flows merged in order
(`lookup_v4Flows_stashOf`, `nodup_v4Flows_stashOf` and the same for IPv6).  Flushing a
stash hands each of its aggregates to `send_all` once, in batches (`flatten_flushOut`).
`Configured` is how `QuadrupleGenerator::new` sets a generator up, and
`Configured.slots` the shape of window it gives.
-/
import Sophon.Agent.QuadGen
import Sophon.Lib.SlotWindow

namespace Sophon.Agent

open SlotWindow

variable {K4 K6 V A C : Type}

/-! ### The window's items and events -/

/-- The second of a flow the generator takes in, by which the window places it. -/
def arrivalSecs (a : Nat × V × QgKey K4 K6) : Nat := asSecs a.1

/-- The `time_in_second` of a call of `handle`. -/
def QgInput.timeInSecond : QgInput K4 K6 V → Nat
  | .flow t _ _ => t
  | .tick t => t

/-- A call of `handle` as an event of the window. -/
def toEvent : QgInput K4 K6 V → Event (Nat × V × QgKey K4 K6)
  | .flow t flow key => .arrive (t, flow, key)
  | .tick t => .tick (asSecs t)

theorem time_toEvent (x : QgInput K4 K6 V) : (toEvent x).time arrivalSecs = asSecs x.timeInSecond := by
  cases x <;> rfl

/-! ### Stashes -/

/-- The flows of a list whose key `sel` picks, as the stash's map keys them. -/
def keyedEntries {K : Type} (sel : QgKey K4 K6 → Option K) (l : List (Nat × V × QgKey K4 K6)) :
    List (K × (Nat × V)) :=
  l.filterMap fun a => (sel a.2.2).map fun k => (k, (a.1, a.2.1))

/-- The IPv4 key of a key. -/
def QgKey.v4? : QgKey K4 K6 → Option K4
  | .v4 k => some k
  | .v6 _ => none

/-- The IPv6 key of a key. -/
def QgKey.v6? : QgKey K4 K6 → Option K6
  | .v4 _ => none
  | .v6 k => some k

/-- Under a key `k`, the entries are the flows whose key `sel` maps to `k`, in order. -/
theorem map_snd_filter_keyedEntries {K : Type} [DecidableEq K] (sel : QgKey K4 K6 → Option K)
    (l : List (Nat × V × QgKey K4 K6)) (k : K) :
    ((keyedEntries sel l).filter fun e => e.1 = k).map Prod.snd =
      (l.filter fun a => sel a.2.2 = some k).map fun a => (a.1, a.2.1) := by
  induction l with
  | nil => rfl
  | cons a l ih =>
      obtain ⟨t, v, key⟩ := a
      cases hsel : sel key with
      | none => simp [keyedEntries, hsel, ← ih]
      | some k' =>
          by_cases hk : k' = k
          · subst hk
            simp [keyedEntries, hsel, ← ih]
          · simp [keyedEntries, hsel, hk, ← ih]

variable [DecidableEq K4] [DecidableEq K6]

/-- The stash of a list of flows: each injected, in the order they came, into an empty
stash. -/
def stashOf (ops : QgOps K4 K6 V A C) (l : List (Nat × V × QgKey K4 K6)) : QuadrupleStash K4 K6 A :=
  ⟨Aggregate.collect (fun e => ops.fresh e.1 e.2) (fun a e => ops.merge a e.1 e.2) (keyedEntries QgKey.v4? l),
    Aggregate.collect (fun e => ops.fresh e.1 e.2) (fun a e => ops.merge a e.1 e.2) (keyedEntries QgKey.v6? l)⟩

variable (ops : QgOps K4 K6 V A C)

theorem stashOf_nil : stashOf ops ([] : List (Nat × V × QgKey K4 K6)) = QuadrupleStash.new := rfl

/-- `inject_flow` on the stash of a list of flows is the stash of the list with the flow
at its end. -/
theorem stashOf_append (l : List (Nat × V × QgKey K4 K6)) (t : Nat) (v : V) (key : QgKey K4 K6) :
    stashOf ops (l ++ [(t, v, key)]) = (stashOf ops l).inject ops t v key := by
  cases key with
  | v4 k =>
      simp only [stashOf, keyedEntries, List.filterMap_append, List.filterMap_cons, List.filterMap_nil,
        QgKey.v4?, QgKey.v6?, Option.map_some, Option.map_none, List.append_nil, Aggregate.collect_append]
      rfl
  | v6 k =>
      simp only [stashOf, keyedEntries, List.filterMap_append, List.filterMap_cons, List.filterMap_nil,
        QgKey.v4?, QgKey.v6?, Option.map_some, Option.map_none, List.append_nil, Aggregate.collect_append]
      rfl

/-- Under an IPv4 key, a stash holds the aggregate of that key's flows, merged in the
order they came. -/
theorem lookup_v4Flows_stashOf (l : List (Nat × V × QgKey K4 K6)) (k : K4) :
    (stashOf ops l).v4Flows.lookup k =
      ((l.filter fun a => a.2.2.v4? = some k).map fun a => (a.1, a.2.1)).foldl
        (Aggregate.accum (fun e => ops.fresh e.1 e.2) (fun a e => ops.merge a e.1 e.2)) none := by
  rw [stashOf, Aggregate.lookup_collect, map_snd_filter_keyedEntries]

theorem lookup_v6Flows_stashOf (l : List (Nat × V × QgKey K4 K6)) (k : K6) :
    (stashOf ops l).v6Flows.lookup k =
      ((l.filter fun a => a.2.2.v6? = some k).map fun a => (a.1, a.2.1)).foldl
        (Aggregate.accum (fun e => ops.fresh e.1 e.2) (fun a e => ops.merge a e.1 e.2)) none := by
  rw [stashOf, Aggregate.lookup_collect, map_snd_filter_keyedEntries]

/-- A stash holds each IPv4 key once. -/
theorem nodup_v4Flows_stashOf (l : List (Nat × V × QgKey K4 K6)) :
    ((stashOf ops l).v4Flows.map Prod.fst).Nodup :=
  Aggregate.nodup_collect _

theorem nodup_v6Flows_stashOf (l : List (Nat × V × QgKey K4 K6)) :
    ((stashOf ops l).v6Flows.map Prod.fst).Nodup :=
  Aggregate.nodup_collect _

/-! ### Flushing a stash -/

/-- What `flush_flow` hands to `send_all` for a stash: the batches of its IPv4
aggregates, then those of its IPv6 ones. -/
def flushOut (stash : QuadrupleStash K4 K6 A) : List (List A) :=
  sendMap (stash.v4Flows.map (·.2)) ++ sendMap (stash.v6Flows.map (·.2))

/-- The batches the loop of `flush_flow` sends, and the buffer it leaves, are the
buffer it started with and the values, in order. -/
theorem flatten_sendValues (batch vs : List A) :
    (sendValues batch vs).1.flatten ++ (sendValues batch vs).2 = batch ++ vs := by
  induction vs generalizing batch with
  | nil => simp [sendValues]
  | cons v vs ih =>
      rw [sendValues]
      split
      · -- a full buffer is sent, and the loop goes on from an empty one
        simp only [List.flatten_cons, List.append_assoc, ih, List.nil_append]
        simp
      · rw [ih]
        simp

/-- The batches of a map are its values, each once. -/
theorem flatten_sendMap (vs : List A) : (sendMap vs).flatten = vs := by
  have h := flatten_sendValues ([] : List A) vs
  rw [List.nil_append] at h
  unfold sendMap
  by_cases hvs : vs = []
  · rw [if_pos hvs, hvs, List.flatten_nil]
  · rw [if_neg hvs]
    dsimp only
    by_cases hr : (sendValues [] vs).2 = []
    · rw [if_pos hr]
      rwa [hr, List.append_nil] at h
    · rw [if_neg hr, List.flatten_append, List.flatten_singleton, h]

omit [DecidableEq K4] [DecidableEq K6] in
/-- **Flushing a stash sends each of its aggregates once.** -/
theorem flatten_flushOut (stash : QuadrupleStash K4 K6 A) :
    (flushOut stash).flatten = stash.v4Flows.map (·.2) ++ stash.v6Flows.map (·.2) := by
  rw [flushOut, List.flatten_append, flatten_sendMap, flatten_sendMap]

/-! ### `QuadrupleGenerator::new` -/

/-- `reset_delay_seconds` gives a delay of a minute at least and under two. -/
theorem resetDelaySeconds_bounds (delaySeconds : Nat) :
    60 ≤ resetDelaySeconds delaySeconds ∧ resetDelaySeconds delaySeconds < 120 := by
  unfold resetDelaySeconds SECONDS_IN_MINUTE
  split_ifs <;> omega

omit [DecidableEq K4] [DecidableEq K6] in
/-- A generator as `QuadrupleGenerator::new` sets it up, its window starting on a whole
slot: the second generator with a delay of a second at least, and of two seconds at
least when it counts concurrent connections, or the minute generator. -/
inductive Configured : SubQuadGen K4 K6 A C → Prop
  | second {windowStart delay : Nat} {connection : Option C} (hdelay : 1 ≤ delay)
      (hconnection : connection.isSome → 2 ≤ delay) (hstart : windowStart % fromSecs 1 = 0) :
      Configured (newSecond windowStart delay connection)
  | minute {windowStart delay : Nat} {connection : Option C}
      (hstart : windowStart % fromSecs 60 = 0) :
      Configured (newMinute windowStart delay connection)

namespace Configured

variable {g : SubQuadGen K4 K6 A C}

omit [DecidableEq K4] [DecidableEq K6]

theorem interval_pos (hg : Configured g) : 0 < g.slotInterval := by
  cases hg <;> simp [newSecond, newMinute]

theorem interval_le_delay (hg : Configured g) : g.slotInterval ≤ g.delaySeconds := by
  cases hg with
  | second hdelay => exact hdelay
  | minute => exact (resetDelaySeconds_bounds _).1

theorem delay_le (hg : Configured g) : g.delaySeconds ≤ g.numberOfSlots * g.slotInterval := by
  cases hg with
  | second => exact Nat.le_of_eq (Nat.mul_one _).symm
  | @minute _ delay _ _ =>
      have := (resetDelaySeconds_bounds delay).2
      simp only [newMinute]
      omega

/-- The shape of window a configured generator has. -/
def slots (hg : Configured g) : Slots where
  interval := g.slotInterval
  count := g.numberOfSlots
  delay := g.delaySeconds
  interval_pos := hg.interval_pos
  interval_le_delay := hg.interval_le_delay
  delay_le := hg.delay_le

/-- The window starts on a whole slot. -/
theorem start (hg : Configured g) : g.windowStart % fromSecs g.slotInterval = 0 := by
  cases hg with
  | second _ _ hstart => exact hstart
  | minute hstart => exact hstart

/-- Every slot starts with an empty stash. -/
theorem stashs (hg : Configured g) : g.stashs = List.replicate g.numberOfSlots QuadrupleStash.new := by
  cases hg <;> rfl

/-- Counted connections come one to a slot, with two slots at least. -/
theorem connections (hg : Configured g) : ∀ cs ∈ g.connections, cs.length = g.numberOfSlots ∧ 2 ≤ g.numberOfSlots := by
  intro cs hcs
  cases hg with
  | second _ hconnection =>
      obtain ⟨c, hc, rfl⟩ := Option.map_eq_some_iff.mp (Option.mem_def.mp hcs)
      exact ⟨List.length_replicate, hconnection (Option.isSome_iff_exists.mpr ⟨c, hc⟩)⟩
  | minute =>
      obtain ⟨c, -, rfl⟩ := Option.map_eq_some_iff.mp (Option.mem_def.mp hcs)
      exact ⟨List.length_replicate, Nat.le_refl 2⟩

end Configured

end Sophon.Agent
