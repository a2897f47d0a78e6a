/-
Port ranges as prefix blocks (`server/libs/policy/port_segment.go`).

`newPortSegments` splits a port range into segments `(port, mask)`, each the set of
ports `p` with `p & mask == port`.  From the cursor `i` it counts the trailing zero
bits of `i` (`calcZeroCount`), then tries block sizes from the largest one aligned at
`i` down (`calcMask`) and takes the first that ends at or before `max`; the cursor
moves past the block.

The arithmetic is Go's `uint16`: `1 << 16` is 0, `0 - 1` is 65535, and the cursor
wraps to 0 after the block that ends at 65535, which is how the loop stops there.
The model computes on `Nat` modulo `2^16`.  The loop runs on fuel; the
specification shows that 65536 turns are more than it takes.
-/
import Sophon.Server.PortRange

namespace Sophon.Server

/-- `uint16` addition. -/
def add16 (a b : Nat) : Nat := (a + b) % 65536

/-- `uint16` subtraction: `0 - 1` is 65535. -/
def sub16 (a b : Nat) : Nat := (a + 65536 - b % 65536) % 65536

/-- `x << s` in `uint16`: the bits shifted past bit 15 are lost, so `1 << 16` is 0. -/
def shl16 (x s : Nat) : Nat := x * 2 ^ s % 65536

/-- `portSegment`. -/
structure PortSegment where
  port : Nat
  mask : Nat
  deriving DecidableEq, Repr

/-- `calcZeroCount`: the number of zero bits below the lowest one bit, 16 for 0. -/
def calcZeroCount (port : Nat) : Nat :=
  ((List.range 16).find? fun i => port >>> i &&& 1 ≠ 0).getD 16

/-- `calcMask`: the first `count - i`, for `i` from 0, whose block from `port` ends at
or before `maxPort`, with its mask; `(MaxUint16, 0)` when there is none. -/
def calcMask (port maxPort count : Nat) : Nat × Nat :=
  match (List.range count).find?
      (fun i => decide (maxPort ≥ sub16 (add16 port (shl16 1 (count - i))) 1)) with
  | some i => (shl16 65535 (count - i), count - i)
  | none => (65535, 0)

/-- The loop of `newPortSegments` from the cursor `i`, with `fuel` turns left. -/
def newPortSegmentsLoop (maxPort : Nat) : Nat → Nat → List PortSegment
  | 0, _ => []
  | fuel + 1, i =>
      if i ≤ maxPort then
        let n := calcZeroCount i
        let (mask, n) := calcMask i maxPort n
        let i' := add16 i (shl16 1 n)
        -- the cursor wraps to 0 after the block that ends at 65535
        { port := i, mask := mask } :: if i' = 0 then [] else newPortSegmentsLoop maxPort fuel i'
      else []

/-- `newPortSegments`. -/
def newPortSegments (port : PortRange) : List PortSegment :=
  newPortSegmentsLoop port.max 65536 port.min

end Sophon.Server
