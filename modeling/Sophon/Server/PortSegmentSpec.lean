/-
What `newPortSegments` computes: the greedy decomposition of the range into aligned
blocks.

`calcZeroCount` is the lowest one bit of the cursor and `calcMask` the search from
that bound down (`calcMask_eq`).  With Go's `uint16` arithmetic the test of the
search says exactly that the block ends at or before `max`, the block that ends at
65535 included, where `1 << 16` is 0 and `0 - 1` is 65535 (`maskFits_iff`).  So each
turn takes the largest aligned block from the cursor that stays inside the range
(`calcMask_isBest`), and the loop writes out the greedy decomposition of
`[min, max + 1)` (`newPortSegmentsLoop_greedy`) well before its fuel runs out
(`newPortSegmentsLoop_fuel`): the cursor wraps to 0 exactly after the block that ends
at 65535.

The properties of the segments are those of the greedy decomposition read through
the masks: a segment's set `{p | p & mask == port}` is its block
(`PortSegment.WellFormed.mem_iff`), so the segments are in order, disjoint, cover the
range and are as few as any such segments can be.
-/
import Sophon.Lib.Block
import Sophon.Server.PortSegment

namespace Sophon.Server

open Sophon.Block

/-! ### Segments and blocks -/

/-- The ports a segment stands for: the 16-bit `p` with `p & mask == port`. -/
def PortSegment.Mem (s : PortSegment) (p : Nat) : Prop := p < 65536 ∧ p &&& s.mask = s.port

/-- A segment of the shape the code builds: a 16-bit port with no bit outside the mask
(`port &^ mask == 0`), and a mask of the ones from some bit up. -/
structure PortSegment.WellFormed (s : PortSegment) : Prop where
  port_lt : s.port < 65536
  and_not : s.port &&& (65535 ^^^ s.mask) = 0
  mask_eq : ∃ k ≤ 16, s.mask = shl16 65535 k

/-- The segment of a block: its first port, and the mask of the ones from bit `exp` up. -/
def PortSegment.ofBlk (b : Blk) : PortSegment := ⟨b.start, shl16 65535 b.exp⟩

/-- The block of a segment; the size is read off the mask's trailing zeros. -/
def PortSegment.toBlk (s : PortSegment) : Blk := ⟨s.port, calcZeroCount s.mask⟩

theorem calcZeroCount_eq (port : Nat) : calcZeroCount port = lowBit 16 port := rfl

/-- The masks of the ones from bit `k` up, for every `k` of 16 bits. -/
theorem masks (k : Nat) (hk : k ≤ 16) :
    calcZeroCount (shl16 65535 k) = k ∧ 65535 ^^^ shl16 65535 k = 2 ^ k - 1 := by
  have : ∀ k < 17, calcZeroCount (shl16 65535 k) = k ∧ 65535 ^^^ shl16 65535 k = 2 ^ k - 1 := by
    decide
  exact this k (by omega)

theorem shl16_mask_eq (k : Nat) : shl16 65535 k = (2 ^ 16 - 1) * 2 ^ k % 2 ^ 16 := rfl

/-- **A segment stands for its block.** -/
theorem PortSegment.WellFormed.mem_iff {s : PortSegment} (hs : s.WellFormed) (p : Nat) :
    s.Mem p ↔ s.toBlk.Mem p := by
  obtain ⟨k, hk, hmask⟩ := hs.mask_eq
  have hblk : s.toBlk = ⟨s.port, k⟩ := by simp [PortSegment.toBlk, hmask, (masks k hk).1]
  have hdvd : 2 ^ k ∣ s.port := by
    have := hs.and_not
    rw [hmask, (masks k hk).2, Nat.and_two_pow_sub_one_eq_mod] at this
    exact Nat.dvd_of_mod_eq_zero this
  have hend : s.port + 2 ^ k ≤ 2 ^ 16 :=
    add_le_of_dvd_of_lt hdvd (Nat.pow_dvd_pow 2 hk) (by have := hs.port_lt; simpa using this)
  rw [hblk, ← div_mul_eq_iff hdvd, PortSegment.Mem, hmask, shl16_mask_eq]
  constructor
  · rintro ⟨hp, hand⟩
    rwa [and_mask_eq (by simpa using hp)] at hand
  · intro h
    have hp : p < 2 ^ 16 := by
      have : p < s.port + 2 ^ k := ((div_mul_eq_iff hdvd).mp h).2
      omega
    exact ⟨by simpa using hp, by rw [and_mask_eq hp]; exact h⟩

theorem PortSegment.WellFormed.aligned {s : PortSegment} (hs : s.WellFormed) : s.toBlk.Aligned := by
  obtain ⟨k, hk, hmask⟩ := hs.mask_eq
  have := hs.and_not
  rw [hmask, (masks k hk).2, Nat.and_two_pow_sub_one_eq_mod] at this
  simp only [Blk.Aligned, PortSegment.toBlk, hmask, (masks k hk).1]
  exact Nat.dvd_of_mod_eq_zero this

/-- The segment of an aligned block inside 16 bits is well formed and stands for the
block. -/
theorem PortSegment.ofBlk_wellFormed {b : Blk} (hb : b.Aligned) (hend : b.start + 2 ^ b.exp ≤ 65536) :
    (PortSegment.ofBlk b).WellFormed ∧ (PortSegment.ofBlk b).toBlk = b := by
  have hk : b.exp ≤ 16 := by
    have : 2 ^ b.exp ≤ 2 ^ 16 := by simp only [Nat.reducePow]; omega
    exact (Nat.pow_le_pow_iff_right (by decide)).mp this
  refine ⟨⟨by have := Nat.two_pow_pos b.exp; simp only [PortSegment.ofBlk]; omega, ?_, ⟨b.exp, hk, rfl⟩⟩, ?_⟩
  · simp only [PortSegment.ofBlk]
    rw [(masks b.exp hk).2, Nat.and_two_pow_sub_one_eq_mod]
    exact Nat.mod_eq_zero_of_dvd hb
  · simp [PortSegment.ofBlk, PortSegment.toBlk, (masks b.exp hk).1]

/-! ### One turn of the loop -/

/-- The test of `calcMask`'s search, for the exponent `e`. -/
def maskFits (port maxPort e : Nat) : Bool := decide (maxPort ≥ sub16 (add16 port (shl16 1 e)) 1)

theorem calcMask_eq (port maxPort count : Nat) :
    calcMask port maxPort count =
      (shl16 65535 (topDown (maskFits port maxPort) count), topDown (maskFits port maxPort) count) := by
  unfold calcMask topDown maskFits
  cases (List.range count).find? fun i => decide (maxPort ≥ sub16 (add16 port (shl16 1 (count - i))) 1) with
  | some i => rfl
  | none => rfl

/-- The end of a block inside 16 bits in `uint16` arithmetic: the wrap of `1 << 16` to 0
and of `0 - 1` to 65535 cancel for the block of all 65536 ports. -/
theorem sub16_add16_shl16 {i e : Nat} (h : i + 2 ^ e ≤ 65536) :
    sub16 (add16 i (shl16 1 e)) 1 = i + 2 ^ e - 1 := by
  have hpos := Nat.two_pow_pos e
  have hshl : shl16 1 e = 2 ^ e % 65536 := by simp [shl16]
  unfold sub16 add16
  rw [hshl]
  omega

theorem maskFits_iff {i maxPort e : Nat} (h : i + 2 ^ e ≤ 65536) :
    maskFits i maxPort e = true ↔ i + 2 ^ e ≤ maxPort + 1 := by
  have := Nat.two_pow_pos e
  simp only [maskFits, decide_eq_true_eq, sub16_add16_shl16 h]
  omega

/-- **Each turn takes the largest aligned block from the cursor inside the range.** -/
theorem calcMask_isBest {i maxPort : Nat} (hi : i ≤ maxPort) (hmax : maxPort < 65536) :
    IsBest i (maxPort + 1) (topDown (maskFits i maxPort) (calcZeroCount i)) := by
  have hi16 : i < 2 ^ 16 := by simp only [Nat.reducePow]; omega
  rw [calcZeroCount_eq]
  refine isBest_topDown (by omega) (lowBit_dvd hi16)
    (fun e he heb => le_lowBit he (by simp only [Nat.reducePow]; omega)) (fun e hle => maskFits_iff ?_)
  calc i + 2 ^ e ≤ i + 2 ^ lowBit 16 i := Nat.add_le_add_left (Nat.pow_le_pow_right (by decide) hle) i
      _ ≤ 2 ^ 16 := add_two_pow_lowBit_le hi16

theorem newPortSegmentsLoop_succ {maxPort fuel i mask n : Nat} (hle : i ≤ maxPort)
    (hr : calcMask i maxPort (calcZeroCount i) = (mask, n)) :
    newPortSegmentsLoop maxPort (fuel + 1) i =
      ⟨i, mask⟩ :: if add16 i (shl16 1 n) = 0 then []
        else newPortSegmentsLoop maxPort fuel (add16 i (shl16 1 n)) := by
  simp only [newPortSegmentsLoop, if_pos hle, hr]

/-! ### The loop -/

/-- **The loop writes out the greedy decomposition of the rest of the range**, as
long as its fuel covers the ports left. -/
theorem newPortSegmentsLoop_greedy {maxPort : Nat} (hmax : maxPort < 65536) :
    ∀ fuel i, i ≤ maxPort + 1 → maxPort + 1 - i ≤ fuel →
      ∃ gs, Greedy i (maxPort + 1) gs ∧
        newPortSegmentsLoop maxPort fuel i = gs.map PortSegment.ofBlk := by
  intro fuel
  induction fuel with
  | zero =>
      intro i hi hfuel
      exact ⟨[], Greedy.done (by omega), rfl⟩
  | succ fuel ih =>
      intro i hi hfuel
      by_cases hle : i ≤ maxPort
      · -- the turn at `i` takes the greedy block `[i, i + 2^e)`
        rw [newPortSegmentsLoop_succ hle (calcMask_eq i maxPort (calcZeroCount i))]
        have hbest := calcMask_isBest hle hmax
        set e := topDown (maskFits i maxPort) (calcZeroCount i)
        have hend := hbest.le
        have hpos := Nat.two_pow_pos e
        have hnext : add16 i (shl16 1 e) = (i + 2 ^ e) % 65536 := by
          simp only [add16, shl16, Nat.one_mul]
          omega
        rw [hnext]
        by_cases hwrap : i + 2 ^ e = 65536
        · -- the block ends at 65535: the cursor wraps to 0 and the loop stops
          refine ⟨[⟨i, e⟩], Greedy.next (by omega) hbest (Greedy.done (by omega)), ?_⟩
          simp [hwrap, PortSegment.ofBlk]
        · obtain ⟨gs, hg, heq⟩ := ih (i + 2 ^ e) (by omega) (by omega)
          refine ⟨⟨i, e⟩ :: gs, Greedy.next (by omega) hbest hg, ?_⟩
          rw [Nat.mod_eq_of_lt (by omega), if_neg (by omega), heq]
          rfl
      · refine ⟨[], Greedy.done (by omega), ?_⟩
        simp [newPortSegmentsLoop, hle]

/-- The loop ends by its own test: any fuel that covers the ports left gives the same
segments. -/
theorem newPortSegmentsLoop_fuel {maxPort fuel fuel' i : Nat} (hmax : maxPort < 65536)
    (hi : i ≤ maxPort + 1) (h : maxPort + 1 - i ≤ fuel) (h' : maxPort + 1 - i ≤ fuel') :
    newPortSegmentsLoop maxPort fuel i = newPortSegmentsLoop maxPort fuel' i := by
  obtain ⟨gs, hg, heq⟩ := newPortSegmentsLoop_greedy hmax fuel i hi h
  obtain ⟨gs', hg', heq'⟩ := newPortSegmentsLoop_greedy hmax fuel' i hi h'
  rw [heq, heq', hg.unique hg']

theorem newPortSegments_greedy {port : PortRange} (hle : port.min ≤ port.max) (hmax : port.max < 65536) :
    ∃ gs, Greedy port.min (port.max + 1) gs ∧ newPortSegments port = gs.map PortSegment.ofBlk :=
  newPortSegmentsLoop_greedy hmax 65536 port.min (by omega) (by omega)

/-! ### The segments -/

section Segments

variable {port : PortRange} (hle : port.min ≤ port.max) (hmax : port.max < 65536)
include hle hmax

theorem newPortSegments_wellFormed : ∀ s ∈ newPortSegments port, s.WellFormed ∧ s.toBlk.Aligned := by
  obtain ⟨gs, hg, heq⟩ := newPortSegments_greedy hle hmax
  have hp := hg.partition
  intro s hs
  rw [heq, List.mem_map] at hs
  obtain ⟨b, hb, rfl⟩ := hs
  have hend : b.start + 2 ^ b.exp ≤ 65536 := by
    have := (hp.cover _).mpr ⟨b, hb, b.mem_last⟩
    omega
  obtain ⟨hwf, hto⟩ := PortSegment.ofBlk_wellFormed (hp.aligned b hb) hend
  exact ⟨hwf, by rw [hto]; exact hp.aligned b hb⟩

/-- The segments cover exactly the range. -/
theorem newPortSegments_mem_iff (p : Nat) :
    (∃ s ∈ newPortSegments port, s.Mem p) ↔ port.min ≤ p ∧ p ≤ port.max := by
  obtain ⟨gs, hg, heq⟩ := newPortSegments_greedy hle hmax
  have hwf := newPortSegments_wellFormed hle hmax
  have hcover := hg.partition.cover p
  constructor
  · rintro ⟨s, hs, hps⟩
    have hmem := ((hwf s hs).1.mem_iff p).mp hps
    rw [heq, List.mem_map] at hs
    obtain ⟨b, hb, rfl⟩ := hs
    have := hcover.mpr ⟨_, hb, (by rwa [(PortSegment.ofBlk_wellFormed (hg.partition.aligned b hb)
      (by have := (hg.partition.cover _).mpr ⟨b, hb, b.mem_last⟩; omega)).2] at hmem)⟩
    omega
  · intro hp
    obtain ⟨b, hb, hpb⟩ := hcover.mp ⟨hp.1, by omega⟩
    have hend : b.start + 2 ^ b.exp ≤ 65536 := by
      have := (hg.partition.cover _).mpr ⟨b, hb, b.mem_last⟩
      omega
    obtain ⟨hwfb, hto⟩ := PortSegment.ofBlk_wellFormed (hg.partition.aligned b hb) hend
    refine ⟨PortSegment.ofBlk b, by rw [heq]; exact List.mem_map_of_mem hb, ?_⟩
    rw [hwfb.mem_iff, hto]
    exact hpb

/-- The segments are in increasing port order, each ending before the next starts. -/
theorem newPortSegments_sorted :
    (newPortSegments port).Pairwise fun s t => s.toBlk.start + 2 ^ s.toBlk.exp ≤ t.port := by
  obtain ⟨gs, hg, heq⟩ := newPortSegments_greedy hle hmax
  rw [heq, List.pairwise_map]
  refine hg.sorted.imp_of_mem fun {b c} hb _ hbc => ?_
  have hend : b.start + 2 ^ b.exp ≤ 65536 := by
    have := (hg.partition.cover _).mpr ⟨b, hb, b.mem_last⟩
    omega
  rw [(PortSegment.ofBlk_wellFormed (hg.partition.aligned b hb) hend).2]
  exact hbc

/-- The segments share no port. -/
theorem newPortSegments_disjoint :
    (newPortSegments port).Pairwise fun s t => ∀ p, ¬ (s.Mem p ∧ t.Mem p) := by
  have hwf := newPortSegments_wellFormed hle hmax
  refine (newPortSegments_sorted hle hmax).imp_of_mem fun {s t} hs ht hst p hp => ?_
  have h1 := ((hwf s hs).1.mem_iff p).mp hp.1
  have h2 := ((hwf t ht).1.mem_iff p).mp hp.2
  simp only [Blk.Mem, PortSegment.toBlk] at h1 h2 hst
  omega

/-- **No decomposition into such segments is shorter.** -/
theorem newPortSegments_minimal (segs : List PortSegment) (hwf : ∀ s ∈ segs, s.WellFormed)
    (hdisj : segs.Pairwise fun s t => ∀ p, ¬ (s.Mem p ∧ t.Mem p))
    (hcover : ∀ p, (∃ s ∈ segs, s.Mem p) ↔ port.min ≤ p ∧ p ≤ port.max) :
    (newPortSegments port).length ≤ segs.length := by
  obtain ⟨gs, hg, heq⟩ := newPortSegments_greedy hle hmax
  have hpart : Partition port.min (port.max + 1) (segs.map PortSegment.toBlk) := by
    refine ⟨?_, fun x => ?_, ?_⟩
    · intro u hu
      obtain ⟨s, hs, rfl⟩ := List.mem_map.mp hu
      exact (hwf s hs).aligned
    · constructor
      · intro hx
        obtain ⟨s, hs, h⟩ := (hcover x).mpr ⟨hx.1, by omega⟩
        exact ⟨s.toBlk, List.mem_map_of_mem hs, ((hwf s hs).mem_iff x).mp h⟩
      · rintro ⟨u, hu, hxu⟩
        obtain ⟨s, hs, rfl⟩ := List.mem_map.mp hu
        have := (hcover x).mp ⟨s, hs, ((hwf s hs).mem_iff x).mpr hxu⟩
        omega
    · rw [List.pairwise_map]
      refine hdisj.imp_of_mem fun {s t} hs ht hst x hx => hst x ⟨?_, ?_⟩
      · exact ((hwf s hs).mem_iff x).mpr hx.1
      · exact ((hwf t ht).mem_iff x).mpr hx.2
  rw [heq, List.length_map]
  simpa using hg.length_le hpart

end Segments

end Sophon.Server
