/-
The timer of the agent's `FlowMap` (`agent/src/flow_generator/flow_map.rs`): the
time wheel `time_set` that says in which second each flow is looked at again.

`node_map` keeps, under each `FlowMapKey`, the vector of flow nodes of that key.
Each node carries a `timestamp_key`, a second, and `time_set` has
`time_window_size` slots, a power of two, of keys: the key of a node is to be in the
slot of its `timestamp_key`.  `inject_flush_ticker` pushes the window start
`start_time_in_unit` forward to `next_start_time_in_unit`; for every second it
passes it drains that second's slot and, for each key drained, sorts the key's
nodes by timeout (`sort_nodes_by_timeout`), removes the timed out ones, and gives
each remaining node of that second the second its timeout ends in as its new
`timestamp_key`, putting the key in the new slot.  `inject_meta_packet` first
offers the packet's time to the ticker, then finds the packet's node, updates it
and puts the key in the slot of the packet's second.

The model keeps what the timer reads and writes.  Times are `Duration`s counted in
nanoseconds as `Nat`; a `Duration` subtraction that underflows panics, and the
model returns `none` there.  `sort_nodes_by_timeout` is modelled twice: reading with
`getD` (`sortNodesByTimeout`), and with the bounds checks of its indexing and of
`Vec::swap` (`sortNodesByTimeoutChecked`), which `FlowMapSort` shows never fail.  A node is its `timestamp_key`, `recent_time` and
`timeout`.  `node_map` is a function from key to vector, the empty vector standing
for an absent key (the code removes a key whose vector empties), and a `HashSet`
slot is a list without repeats; draining a slot visits its keys in list order.
What `match_node`, `new_flow_node` and the `update_*_node` functions decide is an
input of the packet (`Packet`): which node matches, whether a node is created,
the node's new timeout, whether `update_flow` raised `recent_time` to the packet's
time, and whether the flow closed.  The flow statistics, the output queues, the
plugins and the counters are left out.
-/
import Sophon.Agent.OverwriteQueue

namespace Sophon.Agent

/-- `TIME_UNIT`: one second, in nanoseconds. -/
def TIME_UNIT : Nat := 1000000000

/-- The fields of a `FlowNode` that the timer reads and writes. -/
structure FlowNode where
  timestampKey : Nat
  recentTime : Nat
  timeout : Nat
  deriving DecidableEq, Repr, Inhabited

/-- The settings of `FlowConfig` the timer reads: `packet_delay` and `flow_timeout.max`. -/
structure FlowConfig where
  packetDelay : Nat
  maxTimeout : Nat

/-- `FlowMap`, as far as its timer goes. -/
structure FlowMap (K : Type) where
  nodeMap : K → List FlowNode
  timeSet : Nat → List K
  startTime : Nat
  startTimeInUnit : Nat
  timeWindowSize : Nat

/-- `Vec::swap`. -/
def vecSwap {α : Type} [Inhabited α] (l : List α) (i j : Nat) : List α :=
  (l.set i (l.getD j default)).set j (l.getD i default)

/-- `Vec::swap_remove`: the last element takes the place of the removed one. -/
def swapRemove {α : Type} [Inhabited α] (l : List α) (i : Nat) : List α :=
  (l.set i (l.getD (l.length - 1) default)).dropLast

namespace FlowMap

variable {K : Type} [DecidableEq K]

/-- `FlowMap::new` at the system time `systemTime`. -/
def new (config : FlowConfig) (systemTime : Nat) : Option (FlowMap K) :=
  let timeWindowSize :=
    nextPowerOfTwo (config.packetDelay / TIME_UNIT + config.maxTimeout / TIME_UNIT + 1)
  if systemTime < config.packetDelay + TIME_UNIT then none
  else
    let startTime := systemTime - config.packetDelay - TIME_UNIT
    some
      { nodeMap := fun _ => []
        timeSet := fun _ => []
        startTime
        startTimeInUnit := startTime / TIME_UNIT
        timeWindowSize }

/-! ### `sort_nodes_by_timeout` -/

/-- The test `sort_nodes_by_timeout` makes: a node stays when it is not of the second
`timeInUnit` yet or its timeout ends after `timestamp`. -/
def stays (timestamp timeInUnit : Nat) (node : FlowNode) : Bool :=
  decide (node.timestampKey > timeInUnit) || decide (timestamp < node.recentTime + node.timeout)

/-- The inner loop of `sort_nodes_by_timeout`: `right` moves left past the nodes that
time out.  The fuel is the length of the vector, more than the loop ever runs. -/
def findStaying (nodes : List FlowNode) (timestamp timeInUnit : Nat) (left : Int) :
    Nat → Int → Int
  | 0, right => right
  | fuel + 1, right =>
      if left ≤ right then
        if stays timestamp timeInUnit (nodes.getD right.toNat default) then right
        else findStaying nodes timestamp timeInUnit left fuel (right - 1)
      else right

/-- The outer loop of `sort_nodes_by_timeout`, with `left` and `right` as `isize`.
The fuel is one more than the length of the vector, more than the loop ever runs. -/
def sortLoop (timestamp timeInUnit : Nat) :
    Nat → List FlowNode → Int → Int → List FlowNode × Int
  | 0, nodes, left, _ => (nodes, left)
  | fuel + 1, nodes, left, right =>
      if left ≤ right then
        if stays timestamp timeInUnit (nodes.getD left.toNat default) then
          sortLoop timestamp timeInUnit fuel nodes (left + 1) right
        else
          let right := findStaying nodes timestamp timeInUnit left nodes.length right
          if left < right then
            sortLoop timestamp timeInUnit fuel (vecSwap nodes left.toNat right.toNat) (left + 1)
              (right - 1)
          else sortLoop timestamp timeInUnit fuel nodes left right
      else (nodes, left)

/-- `sort_nodes_by_timeout(nodes, timestamp, time_in_unit)`: the rearranged vector and
the index of its first timed out node. -/
def sortNodesByTimeout (nodes : List FlowNode) (timestamp timeInUnit : Nat) :
    List FlowNode × Nat :=
  let r := sortLoop timestamp timeInUnit (nodes.length + 1) nodes 0 ((nodes.length : Int) - 1)
  (r.1, r.2.toNat)

/-- `nodes[i as usize]`: a negative `isize` turns into an index past any vector, and an
index out of the vector panics. -/
def nodeAt (nodes : List FlowNode) (i : Int) : Option FlowNode :=
  if 0 ≤ i then nodes[i.toNat]? else none

/-- `findStaying` with the bounds check of `nodes[right as usize]`. -/
def findStayingChecked (nodes : List FlowNode) (timestamp timeInUnit : Nat) (left : Int) :
    Nat → Int → Option Int
  | 0, right => some right
  | fuel + 1, right =>
      if left ≤ right then do
        let node ← nodeAt nodes right
        if stays timestamp timeInUnit node then some right
        else findStayingChecked nodes timestamp timeInUnit left fuel (right - 1)
      else some right

/-- `sortLoop` with the bounds checks of `nodes[left as usize]` and of `nodes.swap`. -/
def sortLoopChecked (timestamp timeInUnit : Nat) :
    Nat → List FlowNode → Int → Int → Option (List FlowNode × Int)
  | 0, nodes, left, _ => some (nodes, left)
  | fuel + 1, nodes, left, right =>
      if left ≤ right then do
        let node ← nodeAt nodes left
        if stays timestamp timeInUnit node then
          sortLoopChecked timestamp timeInUnit fuel nodes (left + 1) right
        else do
          let right ← findStayingChecked nodes timestamp timeInUnit left nodes.length right
          if left < right then do
            -- `Vec::swap` panics unless both indices are in the vector
            let _ ← nodeAt nodes left
            let _ ← nodeAt nodes right
            sortLoopChecked timestamp timeInUnit fuel (vecSwap nodes left.toNat right.toNat)
              (left + 1) (right - 1)
          else sortLoopChecked timestamp timeInUnit fuel nodes left right
      else some (nodes, left)

/-- `sort_nodes_by_timeout` with its bounds checks: `none` where an index panics. -/
def sortNodesByTimeoutChecked (nodes : List FlowNode) (timestamp timeInUnit : Nat) :
    Option (List FlowNode × Nat) :=
  (sortLoopChecked timestamp timeInUnit (nodes.length + 1) nodes 0 ((nodes.length : Int) - 1)).map
    fun r => (r.1, r.2.toNat)

/-! ### `inject_flush_ticker` -/

/-- `time_set[slot].insert(key)`. -/
def insertKey (timeSet : Nat → List K) (slot : Nat) (key : K) : Nat → List K :=
  if key ∈ timeSet slot then timeSet else Function.update timeSet slot (timeSet slot ++ [key])

/-- The body of the loop over the nodes that stay: a node of the second `timeInUnit`
moves to the second its timeout ends in, and the move is pushed on `moved_key`. -/
def rekey (timeInUnit : Nat) (flowKey : K) (node : FlowNode) : FlowNode × Option (Nat × K) :=
  if node.timestampKey > timeInUnit then (node, none)
  else
    let timeout := node.recentTime + node.timeout
    if node.timestampKey ≠ timeout / TIME_UNIT then
      ({ node with timestampKey := timeout / TIME_UNIT }, some (timeout / TIME_UNIT, flowKey))
    else (node, none)

/-- One key drained from the slot of `timeInUnit`: its timed out nodes go, the others
of this second move on, and the keys they move to are collected. -/
def flushKey (timestamp timeInUnit : Nat) (acc : (K → List FlowNode) × List (Nat × K))
    (flowKey : K) : (K → List FlowNode) × List (Nat × K) :=
  let (nodeMap, movedKey) := acc
  match nodeMap flowKey with
  | [] => (nodeMap, movedKey)
  | nodes =>
      let (nodes, index) := sortNodesByTimeout nodes timestamp timeInUnit
      let nodes := nodes.take index
      if nodes = [] then (Function.update nodeMap flowKey [], movedKey)
      else
        let rest := nodes.map (rekey timeInUnit flowKey)
        (Function.update nodeMap flowKey (rest.map Prod.fst), movedKey ++ rest.filterMap Prod.snd)

/-- The second `timeInUnit` of the flush: drain its slot, then put the moved keys in
their new slots. -/
def flushSlot (timeWindowSize timestamp : Nat) (acc : (K → List FlowNode) × (Nat → List K))
    (timeInUnit : Nat) : (K → List FlowNode) × (Nat → List K) :=
  let (nodeMap, timeSet) := acc
  let slot := timeInUnit &&& (timeWindowSize - 1)
  let (nodeMap, movedKey) := (timeSet slot).foldl (flushKey timestamp timeInUnit) (nodeMap, [])
  let timeSet := Function.update timeSet slot []
  (nodeMap, movedKey.foldl (fun timeSet key =>
    insertKey timeSet (key.1 &&& (timeWindowSize - 1)) key.2) timeSet)

/-- `inject_flush_ticker(config, timestamp)`, `systemTime` being what `get_timestamp`
returns: whether the window takes the timestamp, and the map afterwards. -/
def injectFlushTicker (m : FlowMap K) (config : FlowConfig) (timestamp systemTime : Nat) :
    Option (Bool × FlowMap K) :=
  let isTick := timestamp = 0
  if ¬ isTick ∧ timestamp < m.startTime then some (false, m)
  else
    let timestamp := if isTick then systemTime else timestamp
    if timestamp < config.packetDelay + TIME_UNIT then none
    -- the window cannot be pushed
    else if timestamp - config.packetDelay - TIME_UNIT < m.startTime then some (true, m)
    else
      let nextStartTimeInUnit := (timestamp - config.packetDelay) / TIME_UNIT
      let startTime := nextStartTimeInUnit * TIME_UNIT
      let timestamp := startTime - 1
      -- at most `time_window_size` slots
      let (nodeMap, timeSet) :=
        (List.range' m.startTimeInUnit
          (min nextStartTimeInUnit (m.startTimeInUnit + m.timeWindowSize) - m.startTimeInUnit)).foldl
          (flushSlot m.timeWindowSize timestamp) (m.nodeMap, m.timeSet)
      some (true, { m with nodeMap, timeSet, startTime, startTimeInUnit := nextStartTimeInUnit })

/-! ### `inject_meta_packet` -/

/-- What `inject_meta_packet` needs of a packet, with what `match_node`,
`new_flow_node` and the `update_*_node` functions decide for it. -/
structure Packet (K : Type) where
  key : K
  timestamp : Nat
  /-- `ebpf_type == EbpfType::SocketCloseEvent`. -/
  socketCloseEvent : Bool
  /-- The index `position(match_node)` finds. -/
  matched : Option Nat
  /-- Whether `new_flow_node` returns a node. -/
  created : Bool
  /-- `node.timeout` after `new_flow_node` or the update. -/
  timeout : Nat
  /-- Whether the update ran `update_flow`. -/
  touched : Bool
  /-- What the update returns. -/
  closed : Bool

/-- The node after the `update_*_node` call: `update_flow` raises `recent_time` to the
packet's time. -/
def Packet.update (p : Packet K) (node : FlowNode) : FlowNode :=
  { node with
    recentTime := if p.touched then max node.recentTime p.timestamp else node.recentTime
    timeout := p.timeout }

/-- `inject_meta_packet(config, meta_packet)`: `none` when the ticker panics. -/
def injectMetaPacket (m : FlowMap K) (config : FlowConfig) (p : Packet K) (systemTime : Nat) :
    Option (FlowMap K) := do
  let (ok, m) ← m.injectFlushTicker config p.timestamp systemTime
  -- `lookup_without_flow`
  if ¬ ok then return m
  let pktKey := p.key
  let secs := p.timestamp / TIME_UNIT
  let slot := secs &&& (m.timeWindowSize - 1)
  let nodes := m.nodeMap pktKey
  match p.matched.filter (· < nodes.length) with
  | none =>
      -- no exact match: a new node, unless the packet closes a socket
      if p.socketCloseEvent ∨ ¬ p.created then return m
      return { m with
        nodeMap := Function.update m.nodeMap pktKey
          (nodes ++ [⟨secs, p.timestamp, p.timeout⟩])
        timeSet := insertKey m.timeSet slot pktKey }
  | some index =>
      let node := p.update (nodes.getD index default)
      if p.closed then
        return { m with nodeMap := Function.update m.nodeMap pktKey (swapRemove nodes index) }
      else if node.timestampKey ≠ secs then
        return { m with
          nodeMap := Function.update m.nodeMap pktKey
            (nodes.set index { node with timestampKey := secs })
          timeSet := insertKey m.timeSet slot pktKey }
      else
        return { m with nodeMap := Function.update m.nodeMap pktKey (nodes.set index node) }

/-- The calls the map takes: a flush tick, or a packet; both with the time
`get_timestamp` would return. -/
inductive Input (K : Type) where
  | ticker (timestamp systemTime : Nat)
  | packet (p : Packet K) (systemTime : Nat)

/-- One call. -/
def step (config : FlowConfig) (m : FlowMap K) : Input K → Option (FlowMap K)
  | .ticker timestamp systemTime => (m.injectFlushTicker config timestamp systemTime).map (·.2)
  | .packet p systemTime => m.injectMetaPacket config p systemTime

/-- The maps that runs of calls from `FlowMap::new` reach before any panic, each call
one that `admits` allows. -/
inductive Reachable (config : FlowConfig) (admits : Input K → Prop) : FlowMap K → Prop where
  | new {m : FlowMap K} {systemTime : Nat} : FlowMap.new config systemTime = some m →
      Reachable config admits m
  | step {m m' : FlowMap K} (input : Input K) : Reachable config admits m → admits input →
      step config m input = some m' → Reachable config admits m'

end FlowMap

end Sophon.Agent
