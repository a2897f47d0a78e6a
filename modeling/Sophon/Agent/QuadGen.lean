/-
The time window of the agent's quadruple generator
(`agent/src/collector/quadruple_generator.rs`), one `SubQuadGen` at a time.

A `SubQuadGen` keeps `number_of_slots` stashes, each the flows of `slot_interval`
seconds from `window_start` on, aggregated by key.  `move_window` takes the time of
a flow: a time before the window is turned down; a time `delay_seconds` or more
past the window start pushes the window on by whole slots, flushing the slots it
passes to the output and rotating the emptied stashes to the back.  `inject_flow`
then merges the flow into the stash of its slot.  With concurrent connections
counted, a deque of `ConcurrentConnection`s turns with the stashes.

The model follows the Rust text.  Times are `Duration`s in nanoseconds as `Nat`; a
`Duration` subtraction below zero, an index out of a deque, an `unwrap` of `None`
and a division by a zero interval panic, and the model returns `none` there.  A
stash's two `HashMap`s are association lists in the order their keys came
(`Aggregate.inject`), and `into_values` reads them in that order.  What the window
does not define is a parameter (`QgOps`): the `FlowMeterWithFlow` a flow starts and
its `merge`, which decision of `inject_flow` adds or deletes a connection, and the
`merge` and `clear` of `ConcurrentConnection`.  `set_connection`, which fills in
fields of the flows being sent, the counters and the system time they read are left
out; a batch handed to `send_all` counts as sent whether the queue takes it or not.
-/
import Sophon.Lib.Aggregate

namespace Sophon.Agent

/-- `Duration::as_secs`, of a duration in nanoseconds. -/
def asSecs (d : Nat) : Nat := d / 1000000000

/-- `Duration::from_secs`, in nanoseconds. -/
def fromSecs (s : Nat) : Nat := s * 1000000000

/-- `SECONDS_IN_MINUTE`. -/
def SECONDS_IN_MINUTE : Nat := 60

/-- `QUEUE_BATCH_SIZE` of the collector. -/
def QUEUE_BATCH_SIZE : Nat := 1024

/-- `QgKey`: the key of an IPv4 or of an IPv6 flow. -/
inductive QgKey (K4 K6 : Type) where
  | v4 (k : K4)
  | v6 (k : K6)
  deriving DecidableEq, Repr

/-- `QuadrupleStash`: the aggregates of one slot, by key. -/
structure QuadrupleStash (K4 K6 A : Type) where
  v4Flows : List (K4 × A)
  v6Flows : List (K6 × A)
  deriving Inhabited

/-- `QuadrupleStash::new`. -/
def QuadrupleStash.new {K4 K6 A : Type} : QuadrupleStash K4 K6 A := ⟨[], []⟩

/-- What the window calls and does not define. -/
structure QgOps (K4 K6 V A C : Type) where
  /-- The `FlowMeterWithFlow` a first flow of a key starts, at its time. -/
  fresh : Nat → V → A
  /-- `acc_flow.merge(time_in_second, flow_meter, id_maps, tagged_flow)`. -/
  merge : A → Nat → V → A
  /-- What `inject_flow` does to its slot's `ConcurrentConnection`, if it counts the flow:
  `add_connection` or `delete_connection`. -/
  count : Nat → V → QgKey K4 K6 → Option (C → C)
  /-- `ConcurrentConnection::merge(time_in_second, other)`. -/
  mergeConnection : Nat → C → C → C
  /-- `ConcurrentConnection::clear`. -/
  clearConnection : C → C

/-- `SubQuadGen`, as far as its window goes. -/
structure SubQuadGen (K4 K6 A C : Type) where
  windowStart : Nat
  slotInterval : Nat
  numberOfSlots : Nat
  delaySeconds : Nat
  stashs : List (QuadrupleStash K4 K6 A)
  connections : Option (List C)

/-- One call of `QuadrupleGenerator::handle` as the generator sees it: a flow at its
`flow_stat_time` with its key, or, when the input queue times out, the system time. -/
inductive QgInput (K4 K6 V : Type) where
  | flow (timeInSecond : Nat) (flow : V) (key : QgKey K4 K6)
  | tick (timeInSecond : Nat)

variable {K4 K6 V A C : Type} [DecidableEq K4] [DecidableEq K6]

/-- The flow merged into its key's aggregate in the stash, `get_mut` then `merge`, or
inserted as a fresh aggregate. -/
def QuadrupleStash.inject (ops : QgOps K4 K6 V A C) (stash : QuadrupleStash K4 K6 A)
    (timeInSecond : Nat) (flow : V) : QgKey K4 K6 → QuadrupleStash K4 K6 A
  | .v6 k =>
      { stash with
        v6Flows := Aggregate.inject (fun e => ops.fresh e.1 e.2) (fun a e => ops.merge a e.1 e.2)
          stash.v6Flows k (timeInSecond, flow) }
  | .v4 k =>
      { stash with
        v4Flows := Aggregate.inject (fun e => ops.fresh e.1 e.2) (fun a e => ops.merge a e.1 e.2)
          stash.v4Flows k (timeInSecond, flow) }

/-- `VecDeque::swap_remove_back(index)`: the element, and the deque with its last
element in the element's place. -/
def swapRemoveBack {α : Type} [Inhabited α] (l : List α) (index : Nat) : Option (α × List α) :=
  if index < l.length then
    some (l.getD index default, (l.set index (l.getD (l.length - 1) default)).dropLast)
  else none

/-- The loop of `flush_flow` over the values of one map: each value joins
`batch_buffer`, and a full buffer goes to `send_all`, which empties it whether it sends
or fails.  The batches passed and the buffer left. -/
def sendValues : List A → List A → List (List A) × List A
  | batch, [] => ([], batch)
  | batch, v :: vs =>
      let batch := batch ++ [v]
      if batch.length ≥ QUEUE_BATCH_SIZE then
        let r := sendValues [] vs
        (batch :: r.1, r.2)
      else sendValues batch vs

/-- One map of a stash flushed: its values in batches, the last one sent short. -/
def sendMap (values : List A) : List (List A) :=
  if values = [] then []
  else
    let r := sendValues [] values
    if r.2 = [] then r.1 else r.1 ++ [r.2]

namespace SubQuadGen

/-- `flush_flow(stash_index, ..)`: an empty stash takes the slot's place, and the slot's
flows go to the output, the IPv4 ones first. -/
def flushFlow (g : SubQuadGen K4 K6 A C) (stashIndex : Nat) :
    Option (SubQuadGen K4 K6 A C × List (List A)) := do
  let (stash, stashs) ← swapRemoveBack (g.stashs ++ [QuadrupleStash.new]) stashIndex
  return ({ g with stashs }, sendMap (stash.v4Flows.map (·.2)) ++ sendMap (stash.v6Flows.map (·.2)))

/-- One turn of a flush loop of `move_window` with connections counted: the front
connection is popped, the slot flushed, and the connection merged into the next one,
cleared and pushed to the back. -/
def flushCounted (ops : QgOps K4 K6 V A C) (timeInSecond : Nat)
    (acc : SubQuadGen K4 K6 A C × List C × List (List A)) (i : Nat) :
    Option (SubQuadGen K4 K6 A C × List C × List (List A)) := do
  let front := acc.2.1.head?
  let current := acc.2.1.tail
  let (g, sent) ← acc.1.flushFlow i
  let front ← front
  let first ← current.head?
  let current := current.set 0 (ops.mergeConnection timeInSecond first front)
  return (g, current ++ [ops.clearConnection front], acc.2.2 ++ sent)

/-- A flush loop of `move_window` over the slots `is`. -/
def flushSlots (ops : QgOps K4 K6 V A C) (timeInSecond : Nat) (g : SubQuadGen K4 K6 A C)
    (is : List Nat) : Option (SubQuadGen K4 K6 A C × List (List A)) :=
  match g.connections with
  | some current => do
      -- `self.connections.take()`, put back after the loop
      let r ← is.foldlM (flushCounted ops timeInSecond) ({ g with connections := none }, current, [])
      return ({ r.1 with connections := some r.2.1 }, r.2.2)
  | none =>
      is.foldlM (fun acc i => do
        let (g, sent) ← acc.1.flushFlow i
        return (g, acc.2 ++ sent)) (g, [])

/-- The body of the loop of `move_window` that shifts the window by `slotsToShift`
slots: a shift past the whole window flushes every slot in place, a shorter one
flushes the first slots and rotates them to the back. -/
def shiftWindow (ops : QgOps K4 K6 V A C) (timeInSecond : Nat) (g : SubQuadGen K4 K6 A C)
    (slotsToShift : Nat) : Option (SubQuadGen K4 K6 A C × List (List A)) :=
  if slotsToShift ≥ g.numberOfSlots then flushSlots ops timeInSecond g (List.range g.stashs.length)
  else do
    let (g, sent) ← flushSlots ops timeInSecond g (List.range slotsToShift)
    -- `rotate_left` panics past the length
    if slotsToShift ≤ g.stashs.length then
      return ({ g with stashs := g.stashs.rotateLeft slotsToShift }, sent)
    else none

/-- The loop of `move_window`.  Each turn moves the window start on by a second at
least and runs only while the start is at most `time_in_second`, so the fuel
`as_secs(time_in_second) + 1` is more than it ever runs. -/
def windowLoop (ops : QgOps K4 K6 V A C) (timeInSecond : Nat) :
    Nat → SubQuadGen K4 K6 A C → Option (SubQuadGen K4 K6 A C × List (List A))
  | 0, g => some (g, [])
  | fuel + 1, g =>
      if asSecs timeInSecond ≥ asSecs g.windowStart + g.delaySeconds then
        -- a zero interval divides by zero
        if g.slotInterval = 0 then none
        else do
          let slotsToShift :=
            (asSecs timeInSecond - asSecs g.windowStart - g.delaySeconds) / g.slotInterval + 1
          let (g', sent) ← shiftWindow ops timeInSecond g slotsToShift
          let g' := { g' with windowStart := g'.windowStart + fromSecs (g.slotInterval * slotsToShift) }
          let (g'', sent') ← windowLoop ops timeInSecond fuel g'
          return (g'', sent ++ sent')
      else some (g, [])

/-- `move_window(time_in_second, ..)`: whether the flow is in the window, the generator
afterwards and the batches sent. -/
def moveWindow (ops : QgOps K4 K6 V A C) (g : SubQuadGen K4 K6 A C) (timeInSecond : Nat) :
    Option (Bool × SubQuadGen K4 K6 A C × List (List A)) :=
  if timeInSecond < g.windowStart then some (false, g, [])
  else (windowLoop ops timeInSecond (asSecs timeInSecond + 1) g).map fun r => (true, r.1, r.2)

/-- `inject_flow(tagged_flow, flow_meter, id_maps, time_in_second, key)`. -/
def injectFlow (ops : QgOps K4 K6 V A C) (g : SubQuadGen K4 K6 A C) (flow : V)
    (timeInSecond : Nat) (key : QgKey K4 K6) : Option (SubQuadGen K4 K6 A C) :=
  -- `time_in_second - self.window_start` panics below the window
  if timeInSecond < g.windowStart ∨ g.slotInterval = 0 then none
  else
    let slot := asSecs (timeInSecond - g.windowStart) / g.slotInterval
    -- `self.stashs[slot]`
    if slot < g.stashs.length then do
      let connections ← match g.connections, ops.count timeInSecond flow key with
        | some current, some f =>
            -- `current[slot]`
            if h : slot < current.length then some (some (current.set slot (f current[slot])))
            else none
        | connections, _ => some connections
      return { g with
        stashs := g.stashs.set slot ((g.stashs.getD slot default).inject ops timeInSecond flow key)
        connections }
    else none

/-- What `handle` does with the generator: `move_window`, then `inject_flow` when the
input is a flow in the window.  The generator afterwards and the batches sent. -/
def handle (ops : QgOps K4 K6 V A C) (g : SubQuadGen K4 K6 A C) :
    QgInput K4 K6 V → Option (SubQuadGen K4 K6 A C × List (List A))
  | .tick timeInSecond => (g.moveWindow ops timeInSecond).map fun r => (r.2.1, r.2.2)
  | .flow timeInSecond flow key => do
      let (inject, g, sent) ← g.moveWindow ops timeInSecond
      if inject then
        let g ← g.injectFlow ops flow timeInSecond key
        return (g, sent)
      else return (g, sent)

/-- A run of calls: the generator afterwards and every batch sent, in order. -/
def run (ops : QgOps K4 K6 V A C) (g : SubQuadGen K4 K6 A C) :
    List (QgInput K4 K6 V) → Option (SubQuadGen K4 K6 A C × List (List A))
  | [] => some (g, [])
  | input :: inputs => do
      let (g, sent) ← g.handle ops input
      let (g, sent') ← run ops g inputs
      return (g, sent ++ sent')

end SubQuadGen

/-! ### `QuadrupleGenerator::new` -/

/-- `reset_delay_seconds`: a delay in `[60, 120)`. -/
def resetDelaySeconds (delaySeconds : Nat) : Nat :=
  if SECONDS_IN_MINUTE ≤ delaySeconds ∧ delaySeconds < SECONDS_IN_MINUTE * 2 then delaySeconds
  else if delaySeconds < SECONDS_IN_MINUTE then SECONDS_IN_MINUTE
  else SECONDS_IN_MINUTE * 2 - 1

/-- `round_to_minute`. -/
def roundToMinute (t : Nat) : Nat := fromSecs (asSecs t / SECONDS_IN_MINUTE * SECONDS_IN_MINUTE)

/-- The window start both generators get: two minutes before the minute of `now`;
`none` where the subtraction panics. -/
def newWindowStart (now : Nat) : Option Nat :=
  if roundToMinute now < fromSecs (2 * SECONDS_IN_MINUTE) then none
  else some (roundToMinute now - fromSecs (2 * SECONDS_IN_MINUTE))

/-- The second generator: one slot a second, as many as the delay.  `connection` is
the `ConcurrentConnection` each slot starts with when concurrent connections are
counted (`npm_metrics_concurrent`). -/
def newSecond (windowStart secondDelaySeconds : Nat) (connection : Option C) :
    SubQuadGen K4 K6 A C :=
  { windowStart
    slotInterval := 1
    numberOfSlots := secondDelaySeconds
    delaySeconds := secondDelaySeconds
    stashs := List.replicate secondDelaySeconds QuadrupleStash.new
    connections := connection.map (List.replicate secondDelaySeconds) }

/-- The minute generator: two slots of a minute, with the delay `reset_delay_seconds`
makes. -/
def newMinute (windowStart minuteDelaySeconds : Nat) (connection : Option C) :
    SubQuadGen K4 K6 A C :=
  { windowStart
    slotInterval := 60
    numberOfSlots := 2
    delaySeconds := resetDelaySeconds minuteDelaySeconds
    stashs := List.replicate 2 QuadrupleStash.new
    connections := connection.map (List.replicate 2) }

end Sophon.Agent
