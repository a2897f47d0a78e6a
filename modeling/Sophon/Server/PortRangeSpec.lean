/-
`GetPortRanges` splits the ports of its ranges into disjoint segments
(`server/libs/datatype/port_range.go`).

The status table does not depend on the order of the ranges: a port is an edge when
a range starts there and one ends there (a one-port range does both), a left or
right end when only one of these holds, inside when a range holds it, and unmarked
otherwise (`createPortStatusTable_eq`).  The marks are the cuts of `Lib/Cuts`: a left
end cuts before its port, a right end after it.

The walk reads the table port by port and keeps `lastPort` on the last cut it has
passed (`LastCut`).  `WalkInv` says what it has built up to port `q`: segments in
increasing order, each a covered block with no cut inside it, which hold exactly
the covered ports before `lastPort`.  Every port keeps `WalkInv` (`WalkInv.step`),
and at a right end the walk has always passed the left end of that range, so
`lastPort` is never `-1` there and the walk does not panic.  After the last port, the
segments are `GetPortRanges`' result (`getPortRanges_spec`): non-empty, in order and
disjoint, covering exactly the ports of the ranges, and each within every range
they meet.
-/
import Sophon.Server.InterestSpec
import Sophon.Lib.Cuts
import Sophon.Lib.Loop

namespace Sophon.Server

open Cuts

/-- A range of 16-bit ports with `min <= max`. -/
def PortRange.Valid (r : PortRange) : Prop := r.min ≤ r.max ∧ r.max < 65536

/-! ### The status table -/

/-- The status a port ends with: whether a range starts there, whether one ends there,
whether one holds it. -/
def classify : Bool → Bool → Bool → PortStatus
  | true, true, _ => .rangeEdge
  | true, false, _ => .rangeLeft
  | false, true, _ => .rangeRight
  | false, false, true => .rangeIn
  | false, false, false => .rangeNone

/-- Some range starts at `p`. -/
def startsAt (raw : List PortRange) (p : Nat) : Bool := raw.any fun r => r.min = p

/-- Some range ends at `p`. -/
def endsAt (raw : List PortRange) (p : Nat) : Bool := raw.any fun r => r.max = p

/-- Some range holds `p`. -/
def holds (raw : List PortRange) (p : Nat) : Bool := raw.any fun r => r.min ≤ p ∧ p ≤ r.max

/-- The table of the ranges `raw`, port by port. -/
def TableOf (raw : List PortRange) (table : Nat → PortStatus) : Prop :=
  ∀ p, table p = classify (startsAt raw p) (endsAt raw p) (holds raw p)

@[simp] theorem startsAt_append_singleton (raw : List PortRange) (r : PortRange) (p : Nat) :
    startsAt (raw ++ [r]) p = (startsAt raw p || decide (r.min = p)) := by
  simp [startsAt]

@[simp] theorem endsAt_append_singleton (raw : List PortRange) (r : PortRange) (p : Nat) :
    endsAt (raw ++ [r]) p = (endsAt raw p || decide (r.max = p)) := by
  simp [endsAt]

@[simp] theorem holds_append_singleton (raw : List PortRange) (r : PortRange) (p : Nat) :
    holds (raw ++ [r]) p = (holds raw p || decide (r.min ≤ p ∧ p ≤ r.max)) := by
  simp [holds]

/-- The fill loop of a range marks exactly the unmarked ports it passes. -/
theorem foldl_fill (a k : Nat) :
    ∀ (table : Nat → PortStatus) (i : Nat),
      (List.range' a k).foldl
          (fun table i => if table i = .rangeNone then Function.update table i .rangeIn else table)
          table i
        = if a ≤ i ∧ i < a + k ∧ table i = .rangeNone then .rangeIn else table i := by
  induction k generalizing a with
  | zero =>
      intro table i
      rw [List.range'_zero, List.foldl_nil, if_neg (by omega)]
  | succ k ih =>
      intro table i
      rw [List.range'_succ, List.foldl_cons, ih]
      by_cases hi : i = a
      · subst hi
        by_cases h0 : table i = .rangeNone <;> simp [h0]
      · have hstep : (if table a = .rangeNone then Function.update table a .rangeIn else table) i =
            table i := by
          split
          · exact Function.update_of_ne hi _ _
          · rfl
        have hiff : (a + 1 ≤ i ∧ i < a + 1 + k) ↔ (a ≤ i ∧ i < a + (k + 1)) := by omega
        simp only [hstep, ← and_assoc, hiff]

/-- A one-port range makes its port an edge. -/
theorem classify_point {raw : List PortRange} {table : Nat → PortStatus} (h : TableOf raw table)
    (m : Nat) : TableOf (raw ++ [⟨m, m⟩]) (Function.update table m .rangeEdge) := by
  intro p
  by_cases hp : p = m
  · subst hp
    simp [classify]
  · rw [Function.update_of_ne hp, h p]
    have h1 : ¬ (m ≤ p ∧ p ≤ m) := by omega
    simp [Ne.symm hp, h1]

/-- **Step lemma.**  Marking one more range gives the table of one more range. -/
theorem classify_markRange {raw : List PortRange} {table : Nat → PortStatus} (h : TableOf raw table)
    {r : PortRange} (hr : r.Valid) : TableOf (raw ++ [r]) (markRange table r) := by
  obtain ⟨m, M⟩ := r
  obtain ⟨hle, hlt⟩ := hr
  unfold markRange
  split
  · -- a one-port range
    rename_i hmM
    simp only at hmM
    subst hmM
    exact classify_point h m
  · rename_i hmM
    simp only at hmM hle hlt ⊢
    intro p
    -- the fill starts at `m + 1`, which does not wrap below `M`
    rw [show (m + 1) % 65536 = m + 1 from Nat.mod_eq_of_lt (by omega), foldl_fill]
    simp only [startsAt_append_singleton, endsAt_append_singleton, holds_append_singleton]
    by_cases hpm : p = m
    · -- the left end
      rw [hpm, if_neg (by omega), Function.update_of_ne hmM, Function.update_self, h m]
      cases startsAt raw m <;> cases endsAt raw m <;> cases holds raw m <;>
        simp [classify, Ne.symm hmM, hle]
    · by_cases hpM : p = M
      · -- the right end, read after the left end was marked
        rw [hpM, if_neg (by omega), Function.update_self, Function.update_of_ne (Ne.symm hmM), h M]
        cases startsAt raw M <;> cases endsAt raw M <;> cases holds raw M <;>
          simp [classify, hmM, hle]
      · rw [Function.update_of_ne hpM, Function.update_of_ne hpm, h p]
        by_cases hin : m < p ∧ p < M
        · -- a port inside the range: marked inside unless it has a mark already
          have hfill : m + 1 ≤ p ∧ p < m + 1 + (M - (m + 1)) := by omega
          cases startsAt raw p <;> cases endsAt raw p <;> cases holds raw p <;>
            simp [classify, hfill, Ne.symm hpm, Ne.symm hpM, show m ≤ p by omega, show p ≤ M by omega]
        · have hout : ¬ (m ≤ p ∧ p ≤ M) := by omega
          rw [if_neg (by omega)]
          simp [Ne.symm hpm, Ne.symm hpM, hout]

/-- **The table does not depend on the order of the ranges.** -/
theorem createPortStatusTable_eq {raw : List PortRange} (hvalid : ∀ r ∈ raw, r.Valid) :
    TableOf raw (createPortStatusTable raw) := by
  unfold createPortStatusTable
  suffices h : ∀ (rs pre : List PortRange) (table : Nat → PortStatus), (∀ r ∈ rs, r.Valid) →
      TableOf pre table → TableOf (pre ++ rs) (rs.foldl markRange table) by
    exact h raw [] _ hvalid (fun p => by simp [classify, startsAt, endsAt, holds])
  intro rs
  induction rs with
  | nil => intro pre table _ h; simpa using h
  | cons r rest ih =>
      intro pre table hv h
      rw [List.foldl_cons, show pre ++ r :: rest = (pre ++ [r]) ++ rest by simp]
      exact ih _ _ (fun r' hr' => hv r' (List.mem_cons_of_mem r hr'))
        (classify_markRange h (hv r List.mem_cons_self))

/-! ### The walk, one port at a time -/

/-- The segment a cut before `port` closes: from `lastPort` to `port - 1`, when
`lastPort` is a port other than `port` that the table marks. -/
def closeBefore (table : Nat → PortStatus) (lastPort : Int) (port : Nat) : List PortRange :=
  if lastPort ≥ 0 ∧ lastPort ≠ port ∧ table lastPort.toNat ≠ .rangeNone then
    [newPortRange lastPort.toNat (port - 1)]
  else []

section Step

variable {table : Nat → PortStatus} {port : Nat}

theorem portRangeStep_left (h : table port = .rangeLeft) (segs : List PortRange) (lastPort : Int) :
    portRangeStep table (segs, lastPort) port =
      some (segs ++ closeBefore table lastPort port, (port : Int)) := by
  simp only [portRangeStep, h, closeBefore]

theorem portRangeStep_edge (h : table port = .rangeEdge) (segs : List PortRange) (lastPort : Int) :
    portRangeStep table (segs, lastPort) port =
      some (segs ++ closeBefore table lastPort port ++ [newPortRange port port], (port : Int) + 1) := by
  simp only [portRangeStep, h, closeBefore]

theorem portRangeStep_right (h : table port = .rangeRight) (segs : List PortRange) (lastPort : Int) :
    portRangeStep table (segs, lastPort) port =
      if lastPort < 0 then none
      else if table lastPort.toNat ≠ .rangeNone then
        some (segs ++ [newPortRange lastPort.toNat port], (port : Int) + 1)
      else some (segs, (port : Int) + 1) := by
  simp only [portRangeStep, h]

end Step

section Walk

variable {raw : List PortRange} {q : Nat}

/-- A port that some range holds. -/
def Held (raw : List PortRange) (p : Nat) : Prop := Covered PortRange.min PortRange.max raw p

/-- The cuts the walk has passed before port `q`: a left end below `q`, or the port
after a right end below `q`. -/
def CutBelow (raw : List PortRange) (q b : Nat) : Prop :=
  (∃ r ∈ raw, r.min = b ∧ b < q) ∨ (∃ r ∈ raw, r.max + 1 = b ∧ b ≤ q)

theorem CutBelow.le {b : Nat} (h : CutBelow raw q b) : b ≤ q := by
  rcases h with ⟨_, _, _, hb⟩ | ⟨_, _, _, hb⟩ <;> omega

theorem cutBelow_of_isCut {b : Nat} (h : IsCut PortRange.min PortRange.max raw b) (hb : b < q) :
    CutBelow raw q b := by
  rcases h with ⟨r, hr, hrb⟩ | ⟨r, hr, hrb⟩
  · exact .inl ⟨r, hr, hrb, hb⟩
  · exact .inr ⟨r, hr, hrb, by omega⟩

/-- The cuts passed before `q + 1`: those before `q`, and the ones port `q` makes. -/
theorem cutBelow_succ {b : Nat} :
    CutBelow raw (q + 1) b ↔
      CutBelow raw q b ∨ (b = q ∧ startsAt raw q) ∨ (b = q + 1 ∧ endsAt raw q) := by
  simp only [CutBelow, startsAt, endsAt, List.any_eq_true, decide_eq_true_eq]
  constructor
  · rintro (⟨r, hr, hrb, hb⟩ | ⟨r, hr, hrb, hb⟩)
    · by_cases hbq : b < q
      · exact .inl (.inl ⟨r, hr, hrb, hbq⟩)
      · exact .inr (.inl ⟨by omega, r, hr, by omega⟩)
    · by_cases hbq : b ≤ q
      · exact .inl (.inr ⟨r, hr, hrb, hbq⟩)
      · exact .inr (.inr ⟨by omega, r, hr, by omega⟩)
  · rintro ((⟨r, hr, hrb, hb⟩ | ⟨r, hr, hrb, hb⟩) | ⟨rfl, r, hr, hrb⟩ | ⟨rfl, r, hr, hrb⟩)
    · exact .inl ⟨r, hr, hrb, by omega⟩
    · exact .inr ⟨r, hr, hrb, by omega⟩
    · exact .inl ⟨r, hr, hrb, by omega⟩
    · exact .inr ⟨r, hr, by omega, Nat.le_refl _⟩

/-- `lastPort` is the last cut the walk has passed before port `q`, or `-1` when it has
passed none. -/
def LastCut (raw : List PortRange) (q : Nat) (lastPort : Int) : Prop :=
  (lastPort = -1 ∧ ∀ b, ¬ CutBelow raw q b) ∨
    ∃ l : Nat, lastPort = l ∧ CutBelow raw q l ∧ ∀ b, CutBelow raw q b → b ≤ l

/-- A segment the walk may output: non-empty, held, and with no cut inside. -/
structure Piece (raw : List PortRange) (s : PortRange) : Prop where
  le : s.min ≤ s.max
  held : Held raw s.min
  uncut : Uncut PortRange.min PortRange.max raw s.min s.max

/-- `p` lies in one of the segments. -/
def InSegs (segs : List PortRange) (p : Nat) : Prop := ∃ s ∈ segs, s.min ≤ p ∧ p ≤ s.max

/-- What the segments built before `lastPort` are: pieces, in order, that hold exactly
the held ports before `lastPort`. -/
structure Built (raw : List PortRange) (segs : List PortRange) (lastPort : Int) : Prop where
  pieces : ∀ s ∈ segs, Piece raw s ∧ (s.max : Int) < lastPort
  sorted : segs.Pairwise fun s t => s.max < t.min
  cover : ∀ p : Nat, (p : Int) < lastPort → (InSegs segs p ↔ Held raw p)

/-- The invariant of the walk before port `q`. -/
structure WalkInv (raw : List PortRange) (q : Nat) (segs : List PortRange) (lastPort : Int) :
    Prop where
  last : LastCut raw q lastPort
  built : Built raw segs lastPort

theorem WalkInv.start : WalkInv raw 0 [] (-1) :=
  ⟨.inl ⟨rfl, fun b h => by have := h.le; rcases h with ⟨_, _, _, hb⟩ | ⟨_, _, hrb, _⟩ <;> omega⟩,
    ⟨by simp, List.Pairwise.nil, fun p hp => by omega⟩⟩

/-- Before the walk passes a cut, no port is held. -/
theorem not_held_of_none {p : Nat} (h : ∀ b, ¬ CutBelow raw q b) (hp : p < q) : ¬ Held raw p := by
  rintro ⟨r, hr, hlo, -⟩
  exact h r.min (.inl ⟨r, hr, rfl, by omega⟩)

/-- No cut lies between the last cut passed and `q`. -/
theorem uncut_of_last {l p : Nat} (hlast : ∀ b, CutBelow raw q b → b ≤ l) (hp : p < q) :
    Uncut PortRange.min PortRange.max raw l p :=
  fun b hlb hbp hcut => absurd (hlast b (cutBelow_of_isCut hcut (by omega))) (by omega)

@[simp] theorem inSegs_append {a b : List PortRange} {p : Nat} :
    InSegs (a ++ b) p ↔ InSegs a p ∨ InSegs b p := by
  simp only [InSegs, List.mem_append, or_and_right, exists_or]

@[simp] theorem inSegs_singleton {s : PortRange} {p : Nat} :
    InSegs [s] p ↔ s.min ≤ p ∧ p ≤ s.max := by
  simp [InSegs]

@[simp] theorem inSegs_nil {p : Nat} : ¬ InSegs [] p := by
  simp [InSegs]

theorem Built.lt {segs : List PortRange} {lastPort : Int} (hb : Built raw segs lastPort) {p : Nat}
    (hp : InSegs segs p) : (p : Int) < lastPort := by
  obtain ⟨s, hs, -, hps⟩ := hp
  have := (hb.pieces s hs).2
  omega

/-- The table marks exactly the ports the ranges hold. -/
theorem TableOf.ne_none_iff {table : Nat → PortStatus} (ht : TableOf raw table)
    (hv : ∀ r ∈ raw, r.Valid) (p : Nat) : table p ≠ .rangeNone ↔ Held raw p := by
  have hheld : holds raw p = true ↔ Held raw p := by
    simp [holds, Held, Covered]
  have hstart : startsAt raw p = true → holds raw p = true := by
    simp only [startsAt, holds, List.any_eq_true, decide_eq_true_eq]
    rintro ⟨r, hr, rfl⟩
    exact ⟨r, hr, Nat.le_refl _, (hv r hr).1⟩
  have hend : endsAt raw p = true → holds raw p = true := by
    simp only [endsAt, holds, List.any_eq_true, decide_eq_true_eq]
    rintro ⟨r, hr, rfl⟩
    exact ⟨r, hr, (hv r hr).1, Nat.le_refl _⟩
  rw [ht p, ← hheld]
  cases h1 : startsAt raw p <;> cases h2 : endsAt raw p <;> cases h3 : holds raw p <;>
    simp_all [classify]

/-- The segment a cut before `q` closes keeps what is built: it runs from the last cut
passed, where the table is marked, to `q - 1`. -/
theorem Built.close {table : Nat → PortStatus} (hheld : ∀ p, table p ≠ .rangeNone ↔ Held raw p)
    {segs : List PortRange} {lastPort : Int} (hlast : LastCut raw q lastPort)
    (hb : Built raw segs lastPort) : Built raw (segs ++ closeBefore table lastPort q) q := by
  rcases hlast with ⟨rfl, hnone⟩ | ⟨l, rfl, hl, hmax⟩
  · -- no cut passed yet: nothing is built and nothing before `q` is held
    have hnil : segs = [] := List.eq_nil_iff_forall_not_mem.mpr fun s hs => by
      have := (hb.pieces s hs).2
      omega
    subst hnil
    have hclose : closeBefore table (-1) q = [] := by simp [closeBefore]
    rw [hclose]
    exact ⟨by simp, List.Pairwise.nil, fun p hp => by
      simp only [List.append_nil, inSegs_nil, false_iff]
      exact not_held_of_none hnone (by omega)⟩
  · have hlq : l ≤ q := hl.le
    by_cases hnew : l ≠ q ∧ Held raw l
    · -- a new segment `[l, q - 1]`, held throughout
      have hclose : closeBefore table l q = [newPortRange l (q - 1)] := by
        simp only [closeBefore, Int.toNat_natCast]
        rw [if_pos ⟨by omega, by exact_mod_cast hnew.1, (hheld l).mpr hnew.2⟩]
      rw [hclose]
      have hpiece : Piece raw (newPortRange l (q - 1)) :=
        ⟨by simp only [newPortRange_min, newPortRange_max]; omega, hnew.2,
          uncut_of_last (p := q - 1) hmax (by omega)⟩
      refine ⟨?_, ?_, ?_⟩
      · intro s hs
        rcases List.mem_append.mp hs with hs | hs
        · have := (hb.pieces s hs).2
          exact ⟨(hb.pieces s hs).1, by omega⟩
        · rw [List.mem_singleton.mp hs]
          exact ⟨hpiece, by simp only [newPortRange_max]; omega⟩
      · refine List.pairwise_append.mpr ⟨hb.sorted, List.pairwise_singleton _ _, ?_⟩
        intro s hs t ht
        rw [List.mem_singleton.mp ht]
        have := (hb.pieces s hs).2
        simp only [newPortRange_min]
        omega
      · intro p hp
        by_cases hpl : p < l
        · rw [inSegs_append, inSegs_singleton, newPortRange_min, or_iff_left (by omega)]
          exact hb.cover p (by omega)
        · -- from the last cut on, every port is held like the cut's own port
          have hheldp : Held raw p :=
            covered_of_uncut hnew.2 (by omega) (uncut_of_last hmax (by omega))
          simp only [inSegs_append, inSegs_singleton, newPortRange_min, newPortRange_max, hheldp,
            iff_true]
          exact .inr ⟨by omega, by omega⟩
    · -- no new segment: the ports from the last cut on are not held
      have hclose : closeBefore table l q = [] := by
        simp only [closeBefore, Int.toNat_natCast]
        rw [if_neg]
        rintro ⟨-, hne, hmark⟩
        exact hnew ⟨by exact_mod_cast hne, (hheld l).mp hmark⟩
      rw [hclose, List.append_nil]
      refine ⟨fun s hs => ⟨(hb.pieces s hs).1, by have := (hb.pieces s hs).2; omega⟩, hb.sorted, ?_⟩
      intro p hp
      by_cases hpl : (p : Int) < l
      · exact hb.cover p hpl
      · have hnotin : ¬ InSegs segs p := fun hin => by have := hb.lt hin; omega
        have hnotheld : ¬ Held raw p := fun hheldp =>
          hnew ⟨by omega, covered_of_uncut_left hheldp (by omega) (uncut_of_last hmax (by omega))⟩
        exact iff_of_false hnotin hnotheld

/-- A segment from `lastPort` on extends what is built to the port after it. -/
theorem Built.push {segs : List PortRange} {l : Nat} (hb : Built raw segs l) {s : PortRange}
    (hs : Piece raw s) (hmin : s.min = l) : Built raw (segs ++ [s]) (s.max + 1) := by
  have hle := hs.le
  refine ⟨?_, ?_, ?_⟩
  · intro t ht
    rcases List.mem_append.mp ht with ht | ht
    · have := (hb.pieces t ht).2
      exact ⟨(hb.pieces t ht).1, by omega⟩
    · rw [List.mem_singleton.mp ht]
      exact ⟨hs, by omega⟩
  · refine List.pairwise_append.mpr ⟨hb.sorted, List.pairwise_singleton _ _, ?_⟩
    intro t ht u hu
    rw [List.mem_singleton.mp hu]
    have := (hb.pieces t ht).2
    omega
  · intro p hp
    by_cases hpl : p < l
    · rw [inSegs_append, inSegs_singleton, or_iff_left (by omega)]
      exact hb.cover p (by omega)
    · -- the new segment holds `p`, and is held up to its end
      have hheldp : Held raw p :=
        covered_of_uncut hs.held (by omega) (hs.uncut.mono (Nat.le_refl _) (by omega))
      simp only [inSegs_append, inSegs_singleton, hheldp, iff_true]
      exact .inr ⟨by omega, by omega⟩

/-- A port where a range starts or ends is held. -/
theorem held_of_startsAt (hv : ∀ r ∈ raw, r.Valid) {p : Nat} (h : startsAt raw p = true) :
    Held raw p := by
  simp only [startsAt, List.any_eq_true, decide_eq_true_eq] at h
  obtain ⟨r, hr, rfl⟩ := h
  exact ⟨r, hr, Nat.le_refl _, (hv r hr).1⟩

/-- The last cut is `q` once the walk has passed a left end at `q` and no right end. -/
theorem lastCut_left (hs : startsAt raw q = true) (he : endsAt raw q = false)
    {lastPort : Int} (hlast : LastCut raw q lastPort) : LastCut raw (q + 1) q := by
  refine .inr ⟨q, rfl, cutBelow_succ.mpr (.inr (.inl ⟨rfl, hs⟩)), fun b hb => ?_⟩
  rcases cutBelow_succ.mp hb with hb | ⟨rfl, -⟩ | ⟨-, he'⟩
  · exact hb.le
  · exact Nat.le_refl _
  · simp [he] at he'

/-- The last cut is `q + 1` once the walk has passed a right end at `q`. -/
theorem lastCut_right (he : endsAt raw q = true) : LastCut raw (q + 1) ((q : Int) + 1) := by
  refine .inr ⟨q + 1, by push_cast; rfl, cutBelow_succ.mpr (.inr (.inr ⟨rfl, he⟩)), fun b hb => ?_⟩
  have := hb.le
  omega

/-- At a right end that is not a left end, the walk has passed the left end of its
range: `lastPort` is a port no later than `q`, held. -/
theorem lastCut_at_right (hv : ∀ r ∈ raw, r.Valid) (hs : startsAt raw q = false)
    (he : endsAt raw q = true) {lastPort : Int} (hlast : LastCut raw q lastPort) :
    ∃ l : Nat, lastPort = l ∧ l ≤ q ∧ Held raw l ∧ ∀ b, CutBelow raw q b → b ≤ l := by
  simp only [endsAt, List.any_eq_true, decide_eq_true_eq] at he
  obtain ⟨r, hr, rfl⟩ := he
  have hmin : r.min ≠ r.max := fun h => by
    simp only [startsAt, List.any_eq_false, decide_eq_true_eq] at hs
    exact hs r hr h
  have hcut : CutBelow raw r.max r.min := .inl ⟨r, hr, rfl, by have := (hv r hr).1; omega⟩
  rcases hlast with ⟨-, hnone⟩ | ⟨l, rfl, hl, hmax⟩
  · exact absurd hcut (hnone _)
  · have hrl := hmax _ hcut
    exact ⟨l, rfl, hl.le, ⟨r, hr, hrl, hl.le⟩, hmax⟩

/-- **Step lemma.**  Every port keeps the walk's invariant, and the walk does not panic
there. -/
theorem WalkInv.step {table : Nat → PortStatus} (ht : TableOf raw table) (hv : ∀ r ∈ raw, r.Valid)
    {segs : List PortRange} {lastPort : Int} (hw : WalkInv raw q segs lastPort) :
    ∃ st, portRangeStep table (segs, lastPort) q = some st ∧ WalkInv raw (q + 1) st.1 st.2 := by
  have hheld := ht.ne_none_iff hv
  have htq := ht q
  cases hs : startsAt raw q <;> cases he : endsAt raw q <;> rw [hs, he] at htq
  · -- not an end: the walk goes on as it was
    have hquiet : table q = .rangeNone ∨ table q = .rangeIn := by
      cases hh : holds raw q <;> simp [htq, hh, classify]
    refine ⟨(segs, lastPort), portRangeStep_quiet hquiet _, ?_, hw.built⟩
    have hsame : ∀ b, CutBelow raw (q + 1) b ↔ CutBelow raw q b := fun b => by
      rw [cutBelow_succ, hs, he]
      simp
    rcases hw.last with ⟨h1, h2⟩ | ⟨l, h1, h2, h3⟩
    · exact .inl ⟨h1, fun b hb => h2 b ((hsame b).mp hb)⟩
    · exact .inr ⟨l, h1, (hsame l).mpr h2, fun b hb => h3 b ((hsame b).mp hb)⟩
  · -- a right end: the segment from the last cut closes here
    obtain ⟨l, rfl, hlq, hl, hmax⟩ := lastCut_at_right hv hs he hw.last
    have hpiece : Piece raw (newPortRange l q) := by
      refine ⟨hlq, hl, fun b hlb hbq hcut => ?_⟩
      simp only [newPortRange_min, newPortRange_max] at hlb hbq
      by_cases hb : b < q
      · exact absurd (hmax b (cutBelow_of_isCut hcut hb)) (by omega)
      · -- a cut at `q` itself is a left end, which `q` is not, or the end of an
        -- earlier range, which the walk has passed
        rcases hcut with ⟨r, hr, hrb⟩ | ⟨r, hr, hrb⟩
        · simp only [startsAt, List.any_eq_false, decide_eq_true_eq] at hs
          exact hs r hr (by omega)
        · have := hmax b (.inr ⟨r, hr, hrb, by omega⟩)
          omega
    refine ⟨(segs ++ [newPortRange l q], (q : Int) + 1), ?_, lastCut_right he, ?_⟩
    · rw [portRangeStep_right htq, if_neg (by omega), Int.toNat_natCast, if_pos ((hheld l).mpr hl)]
    · exact hw.built.push hpiece rfl
  · -- a left end: the segment before it closes, and a new one starts at `q`
    exact ⟨_, portRangeStep_left htq segs lastPort, lastCut_left hs he hw.last,
      hw.built.close hheld hw.last⟩
  · -- an edge: the segment before it closes, and `[q, q]` is one of its own
    refine ⟨_, portRangeStep_edge htq segs lastPort, lastCut_right he, ?_⟩
    have hpiece : Piece raw (newPortRange q q) :=
      ⟨Nat.le_refl _, held_of_startsAt hv hs, fun b h1 h2 => by
        simp only [newPortRange_min, newPortRange_max] at h1 h2
        omega⟩
    exact (hw.built.close hheld hw.last).push hpiece rfl

/-- **Run lemma.**  The walk over every port does not panic and ends with the
invariant. -/
theorem createPortRangeByTable_walk {table : Nat → PortStatus} (ht : TableOf raw table)
    (hv : ∀ r ∈ raw, r.Valid) :
    ∃ segs lastPort, createPortRangeByTable table = some segs ∧ WalkInv raw 65536 segs lastPort := by
  obtain ⟨st, hrun, hw⟩ := Loop.foldlM_range'_sweep (fun q st => WalkInv raw q st.1 st.2)
    (portRangeStep table) 0 65536 ([], -1) (fun q st _ _ hw => hw.step ht hv) WalkInv.start
  refine ⟨st.1, st.2, ?_, hw⟩
  rw [createPortRangeByTable, List.range_eq_range', hrun, Option.map_some]

/-- After the last port, the segments hold exactly the held ports: a held port lies
below the cut after its range's right end, which the walk has passed. -/
theorem WalkInv.inSegs_iff {segs : List PortRange} {lastPort : Int}
    (hw : WalkInv raw 65536 segs lastPort) (hv : ∀ r ∈ raw, r.Valid) (p : Nat) :
    InSegs segs p ↔ Held raw p := by
  by_cases hp : (p : Int) < lastPort
  · exact hw.built.cover p hp
  · refine iff_of_false (fun hin => hp (hw.built.lt hin)) ?_
    rintro ⟨r, hr, hlo, hhi⟩
    have hcut : CutBelow raw 65536 (r.max + 1) := .inr ⟨r, hr, rfl, by have := (hv r hr).2; omega⟩
    rcases hw.last with ⟨-, hnone⟩ | ⟨l, rfl, -, hmax⟩
    · exact hnone _ hcut
    · have := hmax _ hcut
      omega

end Walk

/-- **`GetPortRanges` splits the ports of its ranges into segments.**  For valid
ranges it does not panic, and its segments are non-empty, in increasing order and
disjoint, hold exactly the ports of the ranges, and each lies within every range it
meets. -/
theorem getPortRanges_spec {raw : List PortRange} (hne : raw ≠ []) (hv : ∀ r ∈ raw, r.Valid) :
    ∃ segs, getPortRanges raw = some segs ∧ (∀ s ∈ segs, s.min ≤ s.max) ∧
      segs.Pairwise (fun s t => s.max < t.min) ∧ (∀ p, InSegs segs p ↔ Held raw p) ∧
      ∀ s ∈ segs, ∀ r ∈ raw, ∀ p, s.min ≤ p → p ≤ s.max → r.min ≤ p → p ≤ r.max →
        r.min ≤ s.min ∧ s.max ≤ r.max := by
  obtain ⟨segs, lastPort, hrun, hw⟩ := createPortRangeByTable_walk (createPortStatusTable_eq hv) hv
  refine ⟨segs, by rw [getPortRanges, if_neg hne, hrun], fun s hs => (hw.built.pieces s hs).1.le,
    hw.built.sorted, hw.inSegs_iff hv, ?_⟩
  intro s hs r hr p hsp hps hrp hpr
  exact sub_of_uncut (hw.built.pieces s hs).1.uncut hr ⟨hrp, hpr⟩ ⟨hsp, hps⟩

end Sophon.Server
