/-
Port ranges and their split into disjoint segments
(`server/libs/datatype/port_range.go`).

`GetPortRanges` turns the port ranges of all policies into disjoint segments
such that every policy range is a union of segments.  It first marks every
port of a 65536-entry table: the single port of a one-port range is an edge,
the two ends of a longer range are its left and right end (an edge when they
are both), and its inner ports are inside it unless already marked.  Then it
walks the table once, cutting a segment before every left end or edge and after
every right end or edge.

A `PortRange` is a `uint32` holding `min << 16 | max`; the model keeps the two
halves, so that Go's zero value is `⟨0, 0⟩`.  The status table is a function
from port to status.  Indexing the table with `lastPort = -1` panics in Go;
`createPortRangeByTable` returns `none` there.
-/
import Mathlib

namespace Sophon.Server

/-- `PortRange`. -/
structure PortRange where
  min : Nat
  max : Nat
  deriving DecidableEq, Repr

/-- `NewPortRange(min, max)`. -/
def newPortRange (min max : Nat) : PortRange := ⟨min, max⟩

@[simp] theorem newPortRange_min (min max : Nat) : (newPortRange min max).min = min := rfl

@[simp] theorem newPortRange_max (min max : Nat) : (newPortRange min max).max = max := rfl

/-- `PortStatus`. -/
inductive PortStatus where
  | rangeNone
  | rangeIn
  | rangeEdge
  | rangeLeft
  | rangeRight
  deriving DecidableEq, Repr

/-- The body of `createPortStatusTable`'s loop: the marks of one raw range.  The
inner loop counts in `uint16`, from `min + 1` up to `max`. -/
def markRange (table : Nat → PortStatus) (port : PortRange) : Nat → PortStatus :=
  if port.min = port.max then Function.update table port.min .rangeEdge
  else
    let table := Function.update table port.min
      (if table port.min = .rangeRight ∨ table port.min = .rangeEdge then .rangeEdge else .rangeLeft)
    let table := Function.update table port.max
      (if table port.max = .rangeLeft ∨ table port.max = .rangeEdge then .rangeEdge else .rangeRight)
    let first := (port.min + 1) % 65536
    (List.range' first (port.max - first)).foldl
      (fun table i => if table i = .rangeNone then Function.update table i .rangeIn else table) table

def createPortStatusTable (raw : List PortRange) : Nat → PortStatus :=
  raw.foldl markRange fun _ => .rangeNone

/-- One port of `createPortRangeByTable`'s walk; the state is the segments so far and
`lastPort`, the first port of the segment being read (`-1` before the first). -/
def portRangeStep (table : Nat → PortStatus) (st : List PortRange × Int) (port : Nat) :
    Option (List PortRange × Int) :=
  let (portRanges, lastPort) := st
  -- the segment `[lastPort, port - 1]` that a cut before `port` closes
  let before :=
    if lastPort ≥ 0 ∧ lastPort ≠ port ∧ table lastPort.toNat ≠ .rangeNone then
      [newPortRange lastPort.toNat (port - 1)]
    else []
  match table port with
  | .rangeNone | .rangeIn => some st
  | .rangeEdge => some (portRanges ++ before ++ [newPortRange port port], port + 1)
  | .rangeLeft => some (portRanges ++ before, port)
  | .rangeRight =>
      if lastPort < 0 then none
      else if table lastPort.toNat ≠ .rangeNone then
        some (portRanges ++ [newPortRange lastPort.toNat port], port + 1)
      else some (portRanges, port + 1)

def createPortRangeByTable (table : Nat → PortStatus) : Option (List PortRange) :=
  ((List.range 65536).foldlM (portRangeStep table) ([], -1)).map (·.1)

/-- `GetPortRanges`. -/
def getPortRanges (raw : List PortRange) : Option (List PortRange) :=
  if raw = [] then some raw else createPortRangeByTable (createPortStatusTable raw)

end Sophon.Server
