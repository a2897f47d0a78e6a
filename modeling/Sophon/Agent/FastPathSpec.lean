/-
Where the fast-path port map sends a policy port and a free port to one key.

A segment `[0, 0]` is `PortRange::ZERO`, the value of every entry no segment
writes.  When the first segment is `[0, 0]` and port 1 is free, `port_other`
ends at 0, the last loop does not run, and every free port keeps the entry
`ZERO`, whose `min()` is the policy port 0 (`generateInterestTable_zero`).
-/
import Sophon.Agent.FastPath
import Sophon.Server.InterestSpec

namespace Sophon.Agent

open Server (PortRange PortStatus newPortRange)

/-- One policy whose only port range is the source port 0. -/
def zeroAcl : Acl Unit :=
  { srcPortRanges := [newPortRange 0 0], dstPortRanges := [], matchField := [],
    matchField6 := [], policy := () }

theorem interest_zero : interest [newPortRange 0 0] = some [newPortRange 0 0] := by
  have htable : createTable [newPortRange 0 0] = Function.update (fun _ => .rangeNone) 0 .rangeEdge :=
    rfl
  have hquiet : ∀ p ∈ List.range' 1 65535,
      Function.update (fun _ => PortStatus.rangeNone) 0 .rangeEdge p = .rangeNone ∨
      Function.update (fun _ => PortStatus.rangeNone) 0 .rangeEdge p = .rangeIn := by
    intro p hp
    rw [List.mem_range'_1] at hp
    exact Or.inl (Function.update_of_ne (by omega) _ _)
  have hsplit : List.range 65536 = List.range' 0 1 ++ List.range' 1 65535 := by
    rw [List.range'_append_1, List.range_eq_range']
  rw [interest, if_neg (by simp), htable, Server.createPortRangeByTable, hsplit]
  simp only [List.foldlM_append, Server.foldlM_portRangeStep_quiet _ hquiet]
  rfl

/-- **A free port gets the key of the policy port 0.**  With one policy on source
port 0, a packet from port 1 is keyed as a packet from port 0, though the policy's
range holds 0 and not 1. -/
theorem generateInterestTable_zero :
    ∃ table, generateInterestTable [zeroAcl] = some table ∧
      interestTableMap table 0 1 = (0, 0) ∧
      zeroAcl.srcPortRanges = [newPortRange 0 0] ∧
      (newPortRange 0 0).min ≤ 0 ∧ 0 ≤ (newPortRange 0 0).max ∧
      ¬ ((newPortRange 0 0).min ≤ 1 ∧ 1 ≤ (newPortRange 0 0).max) := by
  have hlist : ([zeroAcl].flatMap fun acl => acl.srcPortRanges ++ acl.dstPortRanges)
      = [newPortRange 0 0] := rfl
  -- the one segment writes `[0, 0]`, which is `ZERO`, and leaves `port_other` at 0
  refine ⟨Function.update (fun _ => ⟨0, 0⟩) 0 (newPortRange 0 0), ?_, by decide, rfl,
    by decide, by decide, by decide⟩
  simp only [generateInterestTable, hlist, interest_zero]
  rfl

end Sophon.Agent
