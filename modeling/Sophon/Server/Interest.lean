/-
The server's interest port map (`server/libs/policy/interest.go`).

The fast path keys a packet by representative ports instead of its own:
`generateInterestPortMap` maps every port of a policy segment (from
`GetPortRanges`) to that segment, and every other port to one segment
`[portOther, portOther]` made of the first port no policy names.  A packet's
ports are then rewritten to the `Min` of their entry (`getFastInterestKeys`).

`portOther` is found in the loop over the segments: a gap of more than one port
after a segment makes the port after that segment the candidate, but only once a
candidate exists, so the branch never runs from the first candidate-free pass;
after the loop the port after the last segment is taken when there is room.

The map is a function from port to `PortRange`, the zero value `⟨0, 0⟩` standing
for an unset entry.  The `uint16` sums `lastMax + 1` and `port.Min() - lastMax`
wrap at 65536.
-/
import Sophon.Server.Ddbs

namespace Sophon.Server

variable {P : Type}

/-- The state of `generateInterestPortMap`'s loop over the segments. -/
structure InterestState where
  interestPortMaps : Nat → PortRange
  lastMax : Nat
  portOther : Nat

/-- One segment of that loop, with its position `index` in the list. -/
def interestStep (st : InterestState) (ip : PortRange × Nat) : InterestState :=
  let (port, index) := ip
  let (lastMax, portOther) :=
    if index = 0 then (port.max, st.portOther)
    else if st.portOther ≠ 0 then
      (port.max,
        if (port.min + 65536 - st.lastMax) % 65536 > 1 then (st.lastMax + 1) % 65536
        else st.portOther)
    else (st.lastMax, st.portOther)
  { interestPortMaps := (List.range' port.min (port.max + 1 - port.min)).foldl
      (fun maps i => Function.update maps i port) st.interestPortMaps
    lastMax, portOther }

/-- The last loop: every unset port from 1 on goes to `[portOther, portOther]`. -/
def fillOther (portOther : Nat) (maps : Nat → PortRange) (i : Nat) : Nat → PortRange :=
  if maps i = ⟨0, 0⟩ then Function.update maps i (newPortRange portOther portOther) else maps

/-- `generateInterestPortMap`: `none` where `GetPortRanges` panics. -/
def generateInterestPortMap (acls : List (Acl P)) : Option (Nat → PortRange) := do
  let ports ← getPortRanges (acls.flatMap fun acl => acl.srcPortRange ++ acl.dstPortRange)
  let st := ports.zipIdx.foldl interestStep ⟨fun _ => ⟨0, 0⟩, 0, 0⟩
  let portOther :=
    if st.portOther = 0 ∧ 65535 - st.lastMax > 1 then (st.lastMax + 1) % 65536 else st.portOther
  if portOther ≠ 0 then
    some ((List.range' 1 65535).foldl (fillOther portOther) st.interestPortMaps)
  else some st.interestPortMaps

/-- `getFastInterestKeys`: the packet's source and destination ports afterwards. -/
def getFastInterestKeys (interestPortMaps : Nat → PortRange) (srcPort dstPort : Nat) : Nat × Nat :=
  ((interestPortMaps srcPort).min, (interestPortMaps dstPort).min)

end Sophon.Server
