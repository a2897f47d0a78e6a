/-
The agent's `PortRangeList::interest` computes the server's `GetPortRanges`.

The agent marks its table like the server, except that it counts the inner ports
of a range from `min + 1` in `usize` where the server counts in `uint16`; the two
differ only at `min = 65535`, where a valid range has a single port and no inner
ports.  So the tables agree on valid ranges (`createTable_eq`), the walks are the
same function, and `interest` returns `GetPortRanges`' segments, with every property
`getPortRanges_spec` gives them.
-/
import Sophon.Agent.FastPath
import Sophon.Server.PortRangeSpec

namespace Sophon.Agent

open Server (PortRange newPortRange)

theorem markRange_eq {r : PortRange} (hr : r.Valid) (table : Nat → Server.PortStatus) :
    markRange table r = Server.markRange table r := by
  unfold markRange Server.markRange
  split
  · rfl
  · rename_i hne
    have hfirst : (r.min + 1) % 65536 = r.min + 1 :=
      Nat.mod_eq_of_lt (by have := hr.1; have := hr.2; omega)
    simp only [hfirst]

/-- On valid ranges the agent's table is the server's. -/
theorem createTable_eq {raw : List PortRange} (hv : ∀ r ∈ raw, r.Valid) :
    createTable raw = Server.createPortStatusTable raw := by
  unfold createTable Server.createPortStatusTable
  suffices h : ∀ (rs : List PortRange) (table : Nat → Server.PortStatus), (∀ r ∈ rs, r.Valid) →
      rs.foldl markRange table = rs.foldl Server.markRange table from h raw _ hv
  intro rs
  induction rs with
  | nil => intro _ _; rfl
  | cons r rest ih =>
      intro table hv'
      rw [List.foldl_cons, List.foldl_cons, markRange_eq (hv' r List.mem_cons_self)]
      exact ih _ fun r' hr' => hv' r' (List.mem_cons_of_mem r hr')

theorem interest_eq {raw : List PortRange} (hv : ∀ r ∈ raw, r.Valid) :
    interest raw = Server.getPortRanges raw := by
  unfold interest Server.getPortRanges
  split
  · rename_i hnil
    rw [hnil]
  · rw [createTable_eq hv]

/-- **Port-range partitioning.**  For a non-empty list of 16-bit port ranges with
`min <= max`, the server and the agent return the same segments: non-empty, in
increasing order, pairwise disjoint, holding exactly the ports of the ranges, and
splitting every range into the segments it meets. -/
theorem getPortRanges_partition (raw : List PortRange) (hne : raw ≠ [])
    (hv : ∀ r ∈ raw, r.min ≤ r.max ∧ r.max < 65536) :
    ∃ segs, Server.getPortRanges raw = some segs ∧ interest raw = some segs ∧
      (∀ s ∈ segs, s.min ≤ s.max) ∧
      segs.Pairwise (fun s t => s.min < t.min) ∧
      segs.Pairwise (fun s t => ∀ p, ¬ ((s.min ≤ p ∧ p ≤ s.max) ∧ (t.min ≤ p ∧ p ≤ t.max))) ∧
      (∀ p, (∃ s ∈ segs, s.min ≤ p ∧ p ≤ s.max) ↔ ∃ r ∈ raw, r.min ≤ p ∧ p ≤ r.max) ∧
      ∀ r ∈ raw, ∀ p, (r.min ≤ p ∧ p ≤ r.max) ↔
        ∃ s ∈ segs, (∃ x, s.min ≤ x ∧ x ≤ s.max ∧ r.min ≤ x ∧ x ≤ r.max) ∧ s.min ≤ p ∧ p ≤ s.max := by
  obtain ⟨segs, hgo, hle, hsorted, hcover, hwithin⟩ := Server.getPortRanges_spec hne hv
  refine ⟨segs, hgo, by rw [interest_eq hv, hgo], hle, ?_, ?_, hcover, ?_⟩
  · -- each segment ends before the next starts
    refine List.Pairwise.imp_of_mem ?_ hsorted
    intro s t hs _ hst
    have := hle s hs
    omega
  · refine List.Pairwise.imp_of_mem ?_ hsorted
    intro s t _ ht hst p hp
    have := hle t ht
    omega
  · intro r hr p
    constructor
    · -- a port of the range is held, so some segment holds it, and that segment meets the range
      intro hp
      obtain ⟨s, hs, hsp⟩ := (hcover p).mpr ⟨r, hr, hp⟩
      exact ⟨s, hs, ⟨p, hsp.1, hsp.2, hp⟩, hsp⟩
    · -- a segment that meets the range lies in it
      rintro ⟨s, hs, ⟨x, hsx, hxs, hrx, hxr⟩, hsp⟩
      have := hwithin s hs r hr x hsx hxs hrx hxr
      omega

/-- The ranges `[1, 5]` and `[3, 3]`, the second inside the first. -/
theorem getPortRanges_partition_nested :
    [newPortRange 1 5, newPortRange 3 3] ≠ [] ∧
      (∀ r ∈ [newPortRange 1 5, newPortRange 3 3], r.min ≤ r.max ∧ r.max < 65536) ∧
      ∃ segs, Server.getPortRanges [newPortRange 1 5, newPortRange 3 3] = some segs ∧
        interest [newPortRange 1 5, newPortRange 3 3] = some segs :=
  have h := getPortRanges_partition [newPortRange 1 5, newPortRange 3 3] (by decide) (by decide)
  ⟨by decide, by decide, h.elim fun segs h => ⟨segs, h.1, h.2.1⟩⟩

end Sophon.Agent
