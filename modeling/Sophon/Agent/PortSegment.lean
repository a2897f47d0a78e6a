/-
Port ranges as prefix blocks in the agent (`PortSegment` in
`agent/src/common/policy.rs`).

`PortSegment::new` is the agent's copy of the server's `newPortSegments`: from the
cursor `i` it counts the trailing zero bits (`calc_right_zero`), tries block sizes
from the largest aligned one down (`calc_mask`) and takes the first that ends at or
before `max`.  Unlike the Go code it widens: the block end is computed from a `u32`
and the cursor is a `usize`, so it never wraps and the loop ends by passing `max`.
`port + ((1u32 << k) - 1) as u16` is a `u16` addition, which the model wraps as the
release build does.
-/
import Sophon.Server.PortRange

namespace Sophon.Agent

open Server (PortRange)

/-- `PortSegment`. -/
structure PortSegment where
  port : Nat
  mask : Nat
  deriving DecidableEq, Repr

namespace PortSegment

/-- `calc_right_zero`: the number of zero bits below the lowest one bit, 16 for 0. -/
def calcRightZero (port : Nat) : Nat :=
  ((List.range 16).find? fun i => port >>> i &&& 1 ≠ 0).getD 16

/-- `calc_mask`: the first `count - i`, for `i` from 0, whose block from `port` ends at
or before `max_port`, with its mask; `(u16::MAX, 0)` when there is none. -/
def calcMask (port maxPort count : Nat) : Nat × Nat :=
  match (List.range count).find?
      (fun i => decide (maxPort ≥ (port + (2 ^ (count - i) - 1) % 65536) % 65536)) with
  | some i => (65535 * 2 ^ (count - i) % 2 ^ 32 % 65536, count - i)
  | none => (65535, 0)

/-- The loop of `new` from the cursor `i`, with `fuel` turns left. -/
def newLoop (maxPort : Nat) : Nat → Nat → List PortSegment
  | 0, _ => []
  | fuel + 1, i =>
      if i < maxPort + 1 then
        let n := calcRightZero i
        let (mask, n) := calcMask i maxPort n
        let i' := i + 2 ^ n
        { port := i, mask := mask } :: if i' = 0 then [] else newLoop maxPort fuel i'
      else []

/-- `PortSegment::new`. -/
def new (port : PortRange) : List PortSegment :=
  newLoop port.max 65536 port.min

end PortSegment

end Sophon.Agent
