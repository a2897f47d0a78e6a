/-
The agent's `PortSegment::new` against the server's `newPortSegments`.

The agent computes the end of a block from a `u32` and keeps the cursor in a
`usize`, so nothing wraps; its search test says the same as the server's
(`maskFitsRust_iff`), and its loop writes out the same greedy decomposition
(`newLoop_greedy`).  The greedy decomposition of a range is unique, so the two
lists are equal.  `newPortSegments_exact` collects what the two loops do for every
16-bit range: in order, well-formed, disjoint, exactly the range, minimal, ending by
their own tests, and equal.
-/
import Sophon.Agent.PortSegment
import Sophon.Server.PortSegmentSpec

namespace Sophon.Agent

open Sophon.Block

namespace PortSegment

/-- The test of `calc_mask`'s search, for the exponent `e`. -/
def maskFitsRust (port maxPort e : Nat) : Bool := decide (maxPort ≥ (port + (2 ^ e - 1) % 65536) % 65536)

theorem calcMask_eq (port maxPort count : Nat) :
    calcMask port maxPort count =
      (Server.shl16 65535 (topDown (maskFitsRust port maxPort) count),
        topDown (maskFitsRust port maxPort) count) := by
  unfold calcMask topDown maskFitsRust
  -- `(u16::MAX as u32) << k` cut to 16 bits is the `uint16` mask of the server
  have hmask : ∀ k, 65535 * 2 ^ k % 2 ^ 32 % 65536 = Server.shl16 65535 k := fun k =>
    Nat.mod_mod_of_dvd _ (by decide)
  cases (List.range count).find? fun i => decide (maxPort ≥ (port + (2 ^ (count - i) - 1) % 65536) % 65536) with
  | some i =>
      dsimp only
      rw [hmask]
  | none => rfl

theorem maskFitsRust_iff {i maxPort e : Nat} (h : i + 2 ^ e ≤ 65536) :
    maskFitsRust i maxPort e = true ↔ i + 2 ^ e ≤ maxPort + 1 := by
  have := Nat.two_pow_pos e
  simp only [maskFitsRust, decide_eq_true_eq]
  omega

theorem calcMask_isBest {i maxPort : Nat} (hi : i ≤ maxPort) (hmax : maxPort < 65536) :
    IsBest i (maxPort + 1) (topDown (maskFitsRust i maxPort) (calcRightZero i)) := by
  have hi16 : i < 2 ^ 16 := by simp only [Nat.reducePow]; omega
  refine isBest_topDown (by omega) (lowBit_dvd hi16)
    (fun e he heb => le_lowBit he (by simp only [Nat.reducePow]; omega)) (fun e hle => maskFitsRust_iff ?_)
  calc i + 2 ^ e ≤ i + 2 ^ lowBit 16 i := Nat.add_le_add_left (Nat.pow_le_pow_right (by decide) hle) i
    _ ≤ 2 ^ 16 := add_two_pow_lowBit_le hi16

theorem newLoop_succ {maxPort fuel i mask n : Nat} (hle : i < maxPort + 1)
    (hr : calcMask i maxPort (calcRightZero i) = (mask, n)) :
    newLoop maxPort (fuel + 1) i =
      ⟨i, mask⟩ :: if i + 2 ^ n = 0 then [] else newLoop maxPort fuel (i + 2 ^ n) := by
  simp only [newLoop, if_pos hle, hr]

/-- **The agent's loop writes out the greedy decomposition**, with the masks of the
server. -/
theorem newLoop_greedy {maxPort : Nat} (hmax : maxPort < 65536) :
    ∀ fuel i, i ≤ maxPort + 1 → maxPort + 1 - i ≤ fuel →
      ∃ gs, Greedy i (maxPort + 1) gs ∧
        newLoop maxPort fuel i = gs.map fun b => ⟨b.start, Server.shl16 65535 b.exp⟩ := by
  intro fuel
  induction fuel with
  | zero =>
      intro i hi hfuel
      exact ⟨[], Greedy.done (by omega), rfl⟩
  | succ fuel ih =>
      intro i hi hfuel
      by_cases hle : i < maxPort + 1
      · rw [newLoop_succ hle (calcMask_eq i maxPort (calcRightZero i))]
        have hbest := calcMask_isBest (Nat.lt_succ_iff.mp hle) hmax
        set e := topDown (maskFitsRust i maxPort) (calcRightZero i)
        have hend := hbest.le
        have hpos := Nat.two_pow_pos e
        -- the `usize` cursor never wraps: the loop ends by passing `max`
        obtain ⟨gs, hg, heq⟩ := ih (i + 2 ^ e) (by omega) (by omega)
        refine ⟨⟨i, e⟩ :: gs, Greedy.next hle hbest hg, ?_⟩
        rw [if_neg (by omega), heq]
        rfl
      · refine ⟨[], Greedy.done (by omega), ?_⟩
        simp [newLoop, hle]

theorem newLoop_fuel {maxPort fuel fuel' i : Nat} (hmax : maxPort < 65536)
    (hi : i ≤ maxPort + 1) (h : maxPort + 1 - i ≤ fuel) (h' : maxPort + 1 - i ≤ fuel') :
    newLoop maxPort fuel i = newLoop maxPort fuel' i := by
  obtain ⟨gs, hg, heq⟩ := newLoop_greedy hmax fuel i hi h
  obtain ⟨gs', hg', heq'⟩ := newLoop_greedy hmax fuel' i hi h'
  rw [heq, heq', hg.unique hg']

/-- The agent and the server split every 16-bit range into the same segments. -/
theorem new_eq_newPortSegments {min max : Nat} (hle : min ≤ max) (hmax : max < 65536) :
    (new ⟨min, max⟩).map (fun s => (s.port, s.mask)) =
      (Server.newPortSegments ⟨min, max⟩).map (fun s => (s.port, s.mask)) := by
  obtain ⟨gs, hg, heq⟩ := newLoop_greedy hmax 65536 min (by omega) (by omega)
  obtain ⟨gs', hg', heq'⟩ := @Server.newPortSegments_greedy ⟨min, max⟩ hle hmax
  rw [new, heq, heq', ← hg.unique hg', List.map_map, List.map_map]
  rfl

end PortSegment

open Server in
/-- Both loops split a 16-bit range `[min, max]` into prefix segments in increasing
port order, each a port with a mask of the ones from some bit up and no port bit
outside the mask, pairwise disjoint, covering exactly the range, and no more of them
than in any such split; both loops end by their own tests, and they agree. -/
theorem newPortSegments_exact (min max : Nat) (hle : min ≤ max) (hmax : max < 65536) :
    (newPortSegments ⟨min, max⟩).Pairwise (fun s t => s.port < t.port) ∧
    (∀ s ∈ newPortSegments ⟨min, max⟩, s.WellFormed) ∧
    (newPortSegments ⟨min, max⟩).Pairwise (fun s t => ∀ p, ¬ (s.Mem p ∧ t.Mem p)) ∧
    (∀ p, (∃ s ∈ newPortSegments ⟨min, max⟩, s.Mem p) ↔ min ≤ p ∧ p ≤ max) ∧
    (∀ segs' : List Server.PortSegment, (∀ s ∈ segs', s.WellFormed) →
      segs'.Pairwise (fun s t => ∀ p, ¬ (s.Mem p ∧ t.Mem p)) →
      (∀ p, (∃ s ∈ segs', s.Mem p) ↔ min ≤ p ∧ p ≤ max) →
        (newPortSegments ⟨min, max⟩).length ≤ segs'.length) ∧
    (∀ fuel, max + 1 - min ≤ fuel → newPortSegmentsLoop max fuel min = newPortSegments ⟨min, max⟩) ∧
    (∀ fuel, max + 1 - min ≤ fuel → PortSegment.newLoop max fuel min = PortSegment.new ⟨min, max⟩) ∧
    (PortSegment.new ⟨min, max⟩).map (fun s => (s.port, s.mask)) =
      (newPortSegments ⟨min, max⟩).map (fun s => (s.port, s.mask)) := by
  have hle' : (⟨min, max⟩ : Server.PortRange).min ≤ (⟨min, max⟩ : Server.PortRange).max := hle
  refine ⟨?_, fun s hs => (newPortSegments_wellFormed hle' hmax s hs).1,
    newPortSegments_disjoint hle' hmax, newPortSegments_mem_iff hle' hmax,
    newPortSegments_minimal hle' hmax, fun fuel hfuel => ?_, fun fuel hfuel => ?_,
    PortSegment.new_eq_newPortSegments hle hmax⟩
  · refine (newPortSegments_sorted hle' hmax).imp fun {s t} hst => ?_
    simp only [PortSegment.toBlk] at hst
    have := Nat.two_pow_pos (calcZeroCount s.mask)
    omega
  · exact newPortSegmentsLoop_fuel hmax (by omega) hfuel (by omega)
  · exact PortSegment.newLoop_fuel hmax (by omega) hfuel (by omega)

/-- The range `[1, 65535]`, which ends at the port where the server's cursor wraps. -/
theorem newPortSegments_exact_wrap :
    1 ≤ 65535 ∧ 65535 < 65536 ∧
      (Server.newPortSegments ⟨1, 65535⟩).Pairwise (fun s t => s.port < t.port) ∧
      (PortSegment.new ⟨1, 65535⟩).map (fun s => (s.port, s.mask)) =
        (Server.newPortSegments ⟨1, 65535⟩).map (fun s => (s.port, s.mask)) :=
  have h := newPortSegments_exact 1 65535 (by decide) (by decide)
  ⟨by decide, by decide, h.1, h.2.2.2.2.2.2.2⟩

end Sophon.Agent
