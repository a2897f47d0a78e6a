/-
The time wheel of `FlowMap` loses no flow node when its settings are whole seconds.

`Scheduled` is what the wheel promises: every node's second lies in the window
`[start_time_in_unit, start_time_in_unit + time_window_size)` and the node's key is in
that second's slot, so the flush that reaches the second finds the node.  It is
carried by `Timed`, which adds what the proofs need: the window size the map was
made with, the window start as a second and a time, and bounds on every node's
`recent_time` and `timeout`.

The window has `(packet_delay + flow_timeout.max) / TIME_UNIT + 1` slots, rounded up
to a power of two.  A node that stays after a flush moves to the second its timeout
ends in, at most `packet_delay + flow_timeout.max` plus two seconds after the window
start, and a packet lands at most `packet_delay` plus two seconds after it.  Both fit
the window exactly when the delay and the maximum timeout are whole seconds and
the maximum is one second at least (`FlowConfig.InSeconds`).  With a fraction of a
second in either, or a maximum below a second, the wheel can be one slot short, as
`as_secs` rounds both down: `reachable_unscheduled` is a run of two packets and a tick,
with a delay of 1.5 s, after which a node's key is missing from its slot, and
`reachable_unscheduled_maxZero` a packet past a one-slot window.  A packet with a
zero time is taken for a tick and its node for second 0 (`reachable_zeroTimestamp`).

`Timed.injectFlushTicker` and `Timed.injectMetaPacket` are the two steps; a packet
is admitted with a time (a zero time is a tick) and a timeout of at most
`flow_timeout.max` (`Input.Admissible`).  `Reachable.timed` carries the invariant
along every run.
-/
import Mathlib
import Sophon.Agent.OverwriteQueueSpec
import Sophon.Agent.FlowMapFlush

namespace Sophon.Agent

/-- Settings the wheel is exact for: `packet_delay` and `flow_timeout.max` are whole
seconds, and the maximum timeout is one second at least. -/
structure FlowConfig.InSeconds (config : FlowConfig) : Prop where
  delay_mod : config.packetDelay % TIME_UNIT = 0
  max_mod : config.maxTimeout % TIME_UNIT = 0
  max_ge : TIME_UNIT ≤ config.maxTimeout

namespace FlowMap

variable {K : Type} {config : FlowConfig}

/-- The calls the wheel is exact for: a packet carries a time (zero would make it a
tick) and a timeout of at most `flow_timeout.max`. -/
def Input.Admissible (config : FlowConfig) : Input K → Prop
  | .ticker _ _ => True
  | .packet p _ => 0 < p.timestamp ∧ p.timeout ≤ config.maxTimeout

/-- A packet's timeout is at most `flow_timeout.max`, whatever its time. -/
def Input.Bounded (config : FlowConfig) : Input K → Prop
  | .ticker _ _ => True
  | .packet p _ => p.timeout ≤ config.maxTimeout

/-- Every node's second is in the window and its key in that second's slot. -/
def Scheduled (m : FlowMap K) : Prop :=
  ∀ k, ∀ n ∈ m.nodeMap k, m.startTimeInUnit ≤ n.timestampKey ∧
    n.timestampKey < m.startTimeInUnit + m.timeWindowSize ∧
    k ∈ m.timeSet (n.timestampKey % m.timeWindowSize)

/-- What the wheel keeps of a node of key `k`. -/
structure NodeTimed (config : FlowConfig) (m : FlowMap K) (k : K) (n : FlowNode) : Prop where
  start_le : m.startTimeInUnit ≤ n.timestampKey
  lt_window : n.timestampKey < m.startTimeInUnit + m.timeWindowSize
  mem_slot : k ∈ m.timeSet (n.timestampKey % m.timeWindowSize)
  recent_lt : n.recentTime < m.startTime + config.packetDelay + TIME_UNIT
  timeout_le : n.timeout ≤ config.maxTimeout

/-- The invariant of the wheel. -/
structure Timed (config : FlowConfig) (m : FlowMap K) : Prop where
  window : m.timeWindowSize =
    nextPowerOfTwo (config.packetDelay / TIME_UNIT + config.maxTimeout / TIME_UNIT + 1)
  start_ge : m.startTimeInUnit * TIME_UNIT ≤ m.startTime
  start_lt : m.startTime < m.startTimeInUnit * TIME_UNIT + TIME_UNIT
  node : ∀ k, ∀ n ∈ m.nodeMap k, NodeTimed config m k n

theorem Timed.pow {m : FlowMap K} (ht : Timed config m) : ∃ j, m.timeWindowSize = 2 ^ j := by
  rw [ht.window]
  exact nextPowerOfTwo_pow _

theorem Timed.window_ge {m : FlowMap K} (ht : Timed config m) :
    config.packetDelay / TIME_UNIT + config.maxTimeout / TIME_UNIT + 1 ≤ m.timeWindowSize := by
  rw [ht.window]
  exact le_nextPowerOfTwo _

theorem Timed.scheduled {m : FlowMap K} (ht : Timed config m) : m.Scheduled := fun k n hn =>
  let h := ht.node k n hn
  ⟨h.start_le, h.lt_window, h.mem_slot⟩

/-- A node stays timed in a map with the same window and more keys in each slot. -/
theorem NodeTimed.mono {m m' : FlowMap K} {k : K} {n : FlowNode} (h : NodeTimed config m k n)
    (hs : m'.startTimeInUnit = m.startTimeInUnit) (hst : m'.startTime = m.startTime)
    (hw : m'.timeWindowSize = m.timeWindowSize) (hts : ∀ s, k ∈ m.timeSet s → k ∈ m'.timeSet s) :
    NodeTimed config m' k n := by
  refine ⟨?_, ?_, ?_, ?_, h.timeout_le⟩
  · rw [hs]
    exact h.start_le
  · rw [hs, hw]
    exact h.lt_window
  · rw [hw]
    exact hts _ h.mem_slot
  · rw [hst]
    exact h.recent_lt

/-- The second of a time the window takes is in the window: the window is
`packet_delay` and a second longer than the time it starts at, and the wheel has
room for one second more. -/
theorem Timed.second_mem_window (hc : config.InSeconds) {m : FlowMap K} (ht : Timed config m)
    {time : Nat} (hge : m.startTime ≤ time)
    (hlt : time < m.startTime + config.packetDelay + TIME_UNIT) :
    m.startTimeInUnit ≤ time / TIME_UNIT ∧
      time / TIME_UNIT < m.startTimeInUnit + m.timeWindowSize := by
  have hW := ht.window_ge
  have h1 := ht.start_ge
  have h2 := ht.start_lt
  have h3 := hc.delay_mod
  have h4 := hc.max_ge
  simp only [TIME_UNIT] at *
  omega

variable [DecidableEq K]

/-- Replacing the nodes of one key keeps the invariant when every new node is timed. -/
theorem Timed.replace {m : FlowMap K} (ht : Timed config m) {key : K} {nodes : List FlowNode}
    {ts : Nat → List K} (hts : ∀ s k, k ∈ m.timeSet s → k ∈ ts s)
    (hn : ∀ n ∈ nodes, NodeTimed config { m with timeSet := ts } key n) :
    Timed config { m with nodeMap := Function.update m.nodeMap key nodes, timeSet := ts } := by
  refine ⟨ht.window, ht.start_ge, ht.start_lt, fun k n hnk => ?_⟩
  dsimp only at hnk
  by_cases hk : k = key
  · subst hk
    rw [Function.update_self] at hnk
    exact (hn n hnk).mono rfl rfl rfl fun _ h => h
  · rw [Function.update_of_ne hk] at hnk
    exact (ht.node k n hnk).mono rfl rfl rfl (hts · k)

/-! ### `FlowMap::new` -/

omit [DecidableEq K] in
theorem timed_new {systemTime : Nat} {m : FlowMap K} (h : FlowMap.new config systemTime = some m) :
    Timed config m := by
  unfold FlowMap.new at h
  split at h
  · cases h
  · cases h
    refine ⟨rfl, ?_, ?_, fun _ _ hn => absurd hn List.not_mem_nil⟩ <;>
      simp only [TIME_UNIT] <;> omega

/-! ### `inject_flush_ticker` -/

/-- The map once the flush has pushed the window to the second `next`. -/
def advance (m : FlowMap K) (next : Nat) : FlowMap K :=
  let swept := (List.range' m.startTimeInUnit
      (min next (m.startTimeInUnit + m.timeWindowSize) - m.startTimeInUnit)).foldl
    (flushSlot m.timeWindowSize (next * TIME_UNIT - 1)) (m.nodeMap, m.timeSet)
  { m with
    nodeMap := swept.1
    timeSet := swept.2
    startTime := next * TIME_UNIT
    startTimeInUnit := next }

@[simp] theorem startTime_advance (m : FlowMap K) (next : Nat) :
    (m.advance next).startTime = next * TIME_UNIT := rfl

@[simp] theorem startTimeInUnit_advance (m : FlowMap K) (next : Nat) :
    (m.advance next).startTimeInUnit = next := rfl

@[simp] theorem timeWindowSize_advance (m : FlowMap K) (next : Nat) :
    (m.advance next).timeWindowSize = m.timeWindowSize := rfl

/-- What `inject_flush_ticker` can do with the time `ts` it settles on, the system time
for a tick: turn down a packet's time before the window, take a time without moving
the window, or push the window to the second `(ts - packet_delay) / TIME_UNIT`. -/
theorem injectFlushTicker_cases {m m' : FlowMap K} {timestamp systemTime ts : Nat} {ok : Bool}
    (hts : ts = if timestamp = 0 then systemTime else timestamp)
    (h : m.injectFlushTicker config timestamp systemTime = some (ok, m')) :
    (ok = false ∧ m' = m ∧ timestamp ≠ 0 ∧ timestamp < m.startTime) ∨
      (ok = true ∧ m' = m ∧ ¬ (timestamp ≠ 0 ∧ timestamp < m.startTime) ∧
        config.packetDelay + TIME_UNIT ≤ ts ∧ ts - config.packetDelay - TIME_UNIT < m.startTime) ∨
      (ok = true ∧ config.packetDelay + TIME_UNIT ≤ ts ∧
        m.startTime ≤ ts - config.packetDelay - TIME_UNIT ∧
        m' = m.advance ((ts - config.packetDelay) / TIME_UNIT)) := by
  unfold injectFlushTicker at h
  dsimp only at h
  rw [← hts] at h
  split at h
  · cases h
    exact Or.inl ⟨rfl, rfl, by assumption⟩
  · rename_i hlate
    split at h
    · cases h
    · rename_i hdelay
      split at h
      · cases h
        exact Or.inr (Or.inl ⟨rfl, rfl, hlate, Nat.le_of_not_lt hdelay, by assumption⟩)
      · rename_i hmove
        cases h
        exact Or.inr (Or.inr ⟨rfl, Nat.le_of_not_lt hdelay, Nat.le_of_not_lt hmove, rfl⟩)

/-- **The flush keeps the invariant.**  The flush is `swept_sweep` with the old window's
bounds on the nodes' times, which the settings make fit the wheel. -/
theorem Timed.advance (hc : config.InSeconds) {m : FlowMap K} (ht : Timed config m) {next : Nat}
    (hnext : m.startTimeInUnit < next) : Timed config (m.advance next) := by
  have hW := ht.window_ge
  have h1 := ht.start_ge
  have h2 := ht.start_lt
  have h3 := hc.delay_mod
  have h5 := hc.max_mod
  -- what a node's times are before the flush bounds the second it can move to
  let Q : Nat → Nat → Prop := fun r o =>
    r < m.startTime + config.packetDelay + TIME_UNIT ∧ o ≤ config.maxTimeout
  have hQ : ∀ r o, Q r o → (r + o) / TIME_UNIT ≤ m.startTimeInUnit + m.timeWindowSize := by
    rintro r o ⟨hr, ho⟩
    simp only [TIME_UNIT] at *
    omega
  have h0 : Swept m.timeWindowSize m.startTimeInUnit next Q m.startTimeInUnit
      (m.nodeMap, m.timeSet) := by
    intro k n hn
    have hn := ht.node k n hn
    exact ⟨⟨⟨hn.recent_lt, hn.timeout_le⟩, Or.inl hn.lt_window⟩, hn.start_le, hn.lt_window,
      hn.mem_slot⟩
  have hsw := swept_sweep ht.pow hQ (Nat.le_of_lt hnext) h0
  refine ⟨ht.window, ?_, ?_, fun k n hn => ?_⟩
  · rw [startTime_advance, startTimeInUnit_advance]
  · rw [startTime_advance, startTimeInUnit_advance]
    simp only [TIME_UNIT]
    omega
  · obtain ⟨⟨⟨hr, ho⟩, hwin⟩, hlo, hhi, hmem⟩ := hsw k n hn
    refine ⟨?_, ?_, hmem, ?_, ho⟩
    · rw [startTimeInUnit_advance]
      omega
    · rw [startTimeInUnit_advance, timeWindowSize_advance]
      omega
    · rw [startTime_advance]
      simp only [TIME_UNIT] at *
      omega

theorem Timed.injectFlushTicker (hc : config.InSeconds) {m m' : FlowMap K} (ht : Timed config m)
    {timestamp systemTime : Nat} {ok : Bool}
    (h : m.injectFlushTicker config timestamp systemTime = some (ok, m')) : Timed config m' := by
  rcases injectFlushTicker_cases rfl h with ⟨-, rfl, -⟩ | ⟨-, rfl, -⟩ | ⟨-, hdelay, hstart, rfl⟩
  · exact ht
  · exact ht
  · refine ht.advance hc ?_
    have h1 := ht.start_ge
    simp only [TIME_UNIT] at *
    omega

/-- A packet's time that the ticker takes lies in the window it leaves. -/
theorem Timed.injectFlushTicker_window {m m' : FlowMap K} {timestamp systemTime : Nat}
    (hts : timestamp ≠ 0) (h : m.injectFlushTicker config timestamp systemTime = some (true, m')) :
    m'.startTime ≤ timestamp ∧ timestamp < m'.startTime + config.packetDelay + TIME_UNIT := by
  rcases injectFlushTicker_cases (if_neg hts).symm h with ⟨h, -⟩ | ⟨-, rfl, hlate, hdelay, hmove⟩ |
    ⟨-, hdelay, -, rfl⟩
  · cases h
  · omega
  · rw [startTime_advance]
    simp only [TIME_UNIT] at *
    omega

/-! ### `inject_meta_packet` -/

theorem mem_swapRemove {nodes : List FlowNode} {i : Nat} {n : FlowNode}
    (h : n ∈ swapRemove nodes i) (hi : i < nodes.length) : n ∈ nodes := by
  rcases List.mem_or_eq_of_mem_set (List.mem_of_mem_dropLast h) with hn | rfl
  · exact hn
  · exact getD_mem_of_lt (by omega)

/-- **A packet keeps the invariant.**  Its node, new or updated, takes the packet's
second, which the ticker has just put in the window; a node the packet closes goes. -/
theorem Timed.injectMetaPacket (hc : config.InSeconds) {m m' : FlowMap K} (ht : Timed config m)
    {p : Packet K} {systemTime : Nat} (hp : 0 < p.timestamp) (hto : p.timeout ≤ config.maxTimeout)
    (h : m.injectMetaPacket config p systemTime = some m') : Timed config m' := by
  unfold FlowMap.injectMetaPacket at h
  obtain ⟨⟨ok, m1⟩, hflush, h⟩ := Option.bind_eq_some_iff.1 h
  have ht1 := ht.injectFlushTicker hc hflush
  cases ok with
  | false =>
      cases h
      exact ht1
  | true =>
      obtain ⟨hge, hlt⟩ := Timed.injectFlushTicker_window (Nat.pos_iff_ne_zero.1 hp) hflush
      have hpkt : ∀ n : FlowNode, n.timestampKey = p.timestamp / TIME_UNIT →
          n.recentTime < m1.startTime + config.packetDelay + TIME_UNIT →
          n.timeout ≤ config.maxTimeout →
          NodeTimed config
            { m1 with
              timeSet := insertKey m1.timeSet (p.timestamp / TIME_UNIT &&& (m1.timeWindowSize - 1))
                p.key }
            p.key n := by
        intro n htk hrec hto'
        obtain ⟨hlo, hhi⟩ := ht1.second_mem_window hc hge hlt
        refine ⟨by rw [htk]; exact hlo, by rw [htk]; exact hhi, ?_, hrec, hto'⟩
        show p.key ∈ insertKey m1.timeSet _ p.key (n.timestampKey % m1.timeWindowSize)
        rw [mem_insertKey, htk, slot_eq_mod ht1.pow]
        exact Or.inr ⟨rfl, rfl⟩
      have hsub : ∀ s k, k ∈ m1.timeSet s → k ∈ insertKey m1.timeSet
          (p.timestamp / TIME_UNIT &&& (m1.timeWindowSize - 1)) p.key s :=
        fun _ _ hs => mem_insertKey.2 (Or.inl hs)
      have hold : ∀ n ∈ m1.nodeMap p.key, NodeTimed config m1 p.key n := ht1.node p.key
      simp only [not_true_eq_false, if_false] at h
      split at h
      · split at h
        · -- a close event or no new node: nothing changes
          cases h
          exact ht1
        · -- a new node at the end of the key's vector
          cases h
          refine ht1.replace hsub fun n hn => ?_
          rcases List.mem_append.1 hn with hn | hn
          · exact (hold n hn).mono rfl rfl rfl (hsub · p.key)
          · rw [List.mem_singleton.1 hn]
            exact hpkt _ rfl hlt hto
      · rename_i index hidx
        have hi : index < (m1.nodeMap p.key).length :=
          of_decide_eq_true (Option.filter_eq_some_iff.1 hidx).2
        have hnode := hold _ (getD_mem_of_lt hi)
        -- the updated node keeps the bounds of the node it updates
        have hrec : (p.update ((m1.nodeMap p.key).getD index default)).recentTime <
            m1.startTime + config.packetDelay + TIME_UNIT := by
          have := hnode.recent_lt
          simp only [Packet.update]
          split <;> omega
        split at h
        · -- the flow closed: the node is swap-removed
          cases h
          exact ht1.replace (fun _ _ h => h) fun n hn => hold n (mem_swapRemove hn hi)
        · split at h
          · -- the node moves to the packet's second
            cases h
            refine ht1.replace hsub fun n hn => ?_
            rcases List.mem_or_eq_of_mem_set hn with hn | rfl
            · exact (hold n hn).mono rfl rfl rfl (hsub · p.key)
            · exact hpkt _ rfl hrec hto
          · -- the node already is of the packet's second
            rename_i hsame
            cases h
            refine ht1.replace (fun _ _ h => h) fun n hn => ?_
            rcases List.mem_or_eq_of_mem_set hn with hn | rfl
            · exact hold n hn
            · exact ⟨hnode.start_le, hnode.lt_window, hnode.mem_slot, hrec, hto⟩

/-! ### Runs -/

theorem Timed.step (hc : config.InSeconds) {m m' : FlowMap K} (ht : Timed config m)
    {input : Input K} (ha : input.Admissible config) (h : step config m input = some m') :
    Timed config m' := by
  cases input with
  | ticker timestamp systemTime =>
      obtain ⟨⟨ok, m1⟩, hf, rfl⟩ := Option.map_eq_some_iff.1 h
      exact ht.injectFlushTicker hc hf
  | packet p systemTime => exact ht.injectMetaPacket hc ha.1 ha.2 h

theorem Reachable.timed (hc : config.InSeconds) {m : FlowMap K}
    (hr : Reachable config (Input.Admissible config) m) : Timed config m := by
  induction hr with
  | new h => exact timed_new h
  | step input _ ha h ih => exact ih.step hc ha h

/-- **The wheel loses no node.**  With whole seconds of delay and maximum timeout, the
maximum at least a second, and packets that carry a time and a timeout within the
maximum, every map a run reaches has every node in the window and its key in its
second's slot. -/
theorem reachable_scheduled (hc : config.InSeconds) {m : FlowMap K}
    (hr : Reachable config (Input.Admissible config) m) : m.Scheduled :=
  (hr.timed hc).scheduled

/-- With two seconds of delay the run of `reachable_unscheduled` keeps its node in the
wheel of eight slots. -/
theorem reachable_scheduled_whole :
    (⟨2000000000, 2000000000⟩ : FlowConfig).InSeconds ∧
      ∃ m : FlowMap Unit, Reachable ⟨2000000000, 2000000000⟩
        (Input.Admissible ⟨2000000000, 2000000000⟩) m ∧ m.nodeMap () ≠ [] ∧ m.Scheduled := by
  have hc : (⟨2000000000, 2000000000⟩ : FlowConfig).InSeconds := ⟨by decide, by decide, by decide⟩
  have h0 := @Reachable.new Unit _ ⟨2000000000, 2000000000⟩
    (Input.Admissible ⟨2000000000, 2000000000⟩) _ 13400000000 rfl
  have h1 := h0.step (.packet ⟨(), 13350000000, false, none, true, 1000000000, true, false⟩ 0)
    ⟨by decide, by decide⟩ rfl
  have h2 := h1.step (.packet ⟨(), 10950000000, false, some 0, true, 2000000000, true, false⟩ 0)
    ⟨by decide, by decide⟩ rfl
  have h3 := h2.step (.ticker 14000000000 0) trivial rfl
  exact ⟨hc, _, h3, by decide, reachable_scheduled hc h3⟩

/-- **With a delay of 1.5 s the wheel loses a key.**  The window starts at 10.9 s, second
10, and has four slots.  A packet at 13.35 s makes a node of second 13; a late packet
at 10.95 s moves it back to second 10 with a timeout of 2 s, the maximum, and keeps
its `recent_time`.  A tick at 14 s flushes seconds 10 and 11: at 10 the node moves to
second 15, whose slot is the slot of 11, and the drain of 11 then clears that slot
without putting the key back. -/
theorem reachable_unscheduled :
    ∃ m : FlowMap Unit, Reachable ⟨1500000000, 2000000000⟩
      (Input.Admissible ⟨1500000000, 2000000000⟩) m ∧ ¬ m.Scheduled := by
  have h0 := @Reachable.new Unit _ ⟨1500000000, 2000000000⟩
    (Input.Admissible ⟨1500000000, 2000000000⟩) _ 13400000000 rfl
  have h1 := h0.step (.packet ⟨(), 13350000000, false, none, true, 1000000000, true, false⟩ 0)
    ⟨by decide, by decide⟩ rfl
  have h2 := h1.step (.packet ⟨(), 10950000000, false, some 0, true, 2000000000, true, false⟩ 0)
    ⟨by decide, by decide⟩ rfl
  have h3 := h2.step (.ticker 14000000000 0) trivial rfl
  refine ⟨_, h3, fun h => ?_⟩
  -- the node of second 15 is there, and its key is not in slot 3
  have hslot := (h () ⟨15, 13350000000, 2000000000⟩ (by decide)).2.2
  revert hslot
  decide

/-- **With a maximum timeout below a second the wheel has one slot.**  A map made at
10.5 s with no delay starts at 9.5 s, second 9; a packet at 10.2 s does not push the
window and makes a node of second 10, past the window `[9, 10)`.  The next flush
drains slot 0 at second 9, leaves the node, which is not due, and does not put its
key back. -/
theorem reachable_unscheduled_maxZero :
    ∃ m : FlowMap Unit, Reachable ⟨0, 0⟩ (Input.Admissible ⟨0, 0⟩) m ∧ ¬ m.Scheduled := by
  have h0 := @Reachable.new Unit _ ⟨0, 0⟩ (Input.Admissible ⟨0, 0⟩) _ 10500000000 rfl
  have h1 := h0.step (.packet ⟨(), 10200000000, false, none, true, 0, true, false⟩ 10200000000)
    ⟨by decide, by decide⟩ rfl
  refine ⟨_, h1, fun h => ?_⟩
  have hwin := (h () ⟨10, 10200000000, 0⟩ (by decide)).2.1
  revert hwin
  decide

/-- **A packet with a zero time gets second 0.**  `inject_flush_ticker` takes the zero
time for a tick and pushes the window with the system time, and the packet's node
then has `timestamp_key` 0, before the window start. -/
theorem reachable_zeroTimestamp :
    (⟨1000000000, 2000000000⟩ : FlowConfig).InSeconds ∧
      ∃ m : FlowMap Unit, Reachable ⟨1000000000, 2000000000⟩
        (Input.Bounded ⟨1000000000, 2000000000⟩) m ∧ ¬ m.Scheduled := by
  have hc : (⟨1000000000, 2000000000⟩ : FlowConfig).InSeconds := ⟨by decide, by decide, by decide⟩
  have h0 := @Reachable.new Unit _ ⟨1000000000, 2000000000⟩
    (Input.Bounded ⟨1000000000, 2000000000⟩) _ 13400000000 rfl
  have h1 := h0.step (.packet ⟨(), 0, false, none, true, 1000000000, true, false⟩ 13400000000)
    (show (1000000000 : Nat) ≤ 2000000000 by decide) rfl
  refine ⟨hc, _, h1, fun h => ?_⟩
  have hstart := (h () ⟨0, 0, 1000000000⟩ (by decide)).1
  revert hstart
  decide

end FlowMap

end Sophon.Agent
