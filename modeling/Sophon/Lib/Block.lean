/-
Aligned blocks of numbers: the sets that a prefix and a mask describe.

A block is `[start, start + 2^exp)` with `2^exp ∣ start`, the numbers that agree with
`start` on every bit from `exp` up.  Port masks and CIDR prefixes name such blocks.

Two facts carry the decompositions of ranges into blocks.  Aligned blocks are
laminar: two that meet are nested (`Blk.subset_of_meet`).  And the greedy
decomposition of an interval, which at each point takes the largest aligned block
that starts there and stays inside (`Greedy`), is a partition of the interval
(`Greedy.partition`), is the only greedy one (`Greedy.unique`), and uses no more
blocks than any partition of the interval into aligned blocks (`Greedy.length_le`).
The last is the exchange argument: the block of any partition that holds the first
number starts there and is no larger than the greedy block, and by laminarity every
block of the partition that meets the greedy block lies inside it.

`topDown` is the search loop that finds the greedy block in the code: the first
exponent from a bound down to 1 that passes a test, and 0 when none does.
-/
import Mathlib

namespace Sophon.Block

/-- A block: its first number and the exponent of its size. -/
structure Blk where
  start : Nat
  exp : Nat
  deriving DecidableEq, Repr

namespace Blk

/-- `x` is one of the `2^exp` numbers from `start`. -/
def Mem (b : Blk) (x : Nat) : Prop := b.start ≤ x ∧ x < b.start + 2 ^ b.exp

instance (b : Blk) (x : Nat) : Decidable (b.Mem x) := inferInstanceAs (Decidable (_ ∧ _))

/-- The block starts at a multiple of its size. -/
def Aligned (b : Blk) : Prop := 2 ^ b.exp ∣ b.start

theorem mem_start (b : Blk) : b.Mem b.start := ⟨Nat.le_refl _, Nat.lt_add_of_pos_right (Nat.two_pow_pos _)⟩

theorem mem_last (b : Blk) : b.Mem (b.start + 2 ^ b.exp - 1) := by
  have := Nat.two_pow_pos b.exp
  constructor <;> omega

end Blk

/-! ### Multiples -/

/-- Two multiples of `d` that are less than `d` apart are in order. -/
theorem le_of_dvd_of_lt_add {d m n : Nat} (hm : d ∣ m) (hn : d ∣ n) (h : m < n + d) : m ≤ n := by
  obtain ⟨i, rfl⟩ := hm
  obtain ⟨j, rfl⟩ := hn
  have hij : i < j + 1 := by
    apply Nat.lt_of_mul_lt_mul_left (a := d)
    rw [Nat.mul_add, Nat.mul_one]
    exact h
  exact Nat.mul_le_mul_left d (Nat.lt_succ_iff.mp hij)

/-- Two different multiples of `d` are at least `d` apart. -/
theorem add_le_of_dvd_of_lt {d m n : Nat} (hm : d ∣ m) (hn : d ∣ n) (h : m < n) : m + d ≤ n := by
  obtain ⟨i, rfl⟩ := hm
  obtain ⟨j, rfl⟩ := hn
  have hij : i + 1 ≤ j := Nat.lt_of_mul_lt_mul_left h
  calc d * i + d = d * (i + 1) := by rw [Nat.mul_add, Nat.mul_one]
    _ ≤ d * j := Nat.mul_le_mul_left d hij

/-! ### Laminarity -/

/-- **Aligned blocks are nested or disjoint**: the smaller of two aligned blocks that
meet lies inside the larger. -/
theorem Blk.subset_of_meet {u v : Blk} (hu : u.Aligned) (hv : v.Aligned) (hle : u.exp ≤ v.exp)
    {x : Nat} (hxu : u.Mem x) (hxv : v.Mem x) : ∀ y, u.Mem y → v.Mem y := by
  have hd : 2 ^ u.exp ∣ 2 ^ v.exp := Nat.pow_dvd_pow 2 hle
  have hvs : 2 ^ u.exp ∣ v.start := Nat.dvd_trans hd hv
  have hve : 2 ^ u.exp ∣ v.start + 2 ^ v.exp := Nat.dvd_add hvs hd
  have hlo : v.start ≤ u.start :=
    le_of_dvd_of_lt_add hvs hu (Nat.lt_of_le_of_lt hxv.1 hxu.2)
  have hhi : u.start + 2 ^ u.exp ≤ v.start + 2 ^ v.exp :=
    add_le_of_dvd_of_lt hu hve (Nat.lt_of_le_of_lt hxu.1 hxv.2)
  intro y hy
  exact ⟨Nat.le_trans hlo hy.1, Nat.lt_of_lt_of_le hy.2 hhi⟩

/-! ### Partitions -/

/-- Two blocks with no number in common. -/
def Disjoint (u v : Blk) : Prop := ∀ x, ¬ (u.Mem x ∧ v.Mem x)

instance : Std.Symm Disjoint where
  symm _ _ h x hx := h x ⟨hx.2, hx.1⟩

/-- `bs` splits `[a, b)` into aligned blocks. -/
structure Partition (a b : Nat) (bs : List Blk) : Prop where
  aligned : ∀ u ∈ bs, u.Aligned
  cover : ∀ x, (a ≤ x ∧ x < b) ↔ ∃ u ∈ bs, u.Mem x
  disjoint : bs.Pairwise Disjoint

theorem Partition.start_ge {a b : Nat} {bs : List Blk} (h : Partition a b bs) {u : Blk}
    (hu : u ∈ bs) : a ≤ u.start :=
  ((h.cover u.start).mpr ⟨u, hu, u.mem_start⟩).1

/-! ### The greedy decomposition -/

/-- `exp` is the largest exponent of an aligned block from `a` inside `[a, b)`. -/
structure IsBest (a b exp : Nat) : Prop where
  dvd : 2 ^ exp ∣ a
  le : a + 2 ^ exp ≤ b
  max : ∀ e, 2 ^ e ∣ a → a + 2 ^ e ≤ b → e ≤ exp

theorem IsBest.unique {a b e e' : Nat} (h : IsBest a b e) (h' : IsBest a b e') : e = e' :=
  Nat.le_antisymm (h'.max e h.dvd h.le) (h.max e' h'.dvd h'.le)

/-- The greedy decomposition of `[a, b)`: the largest aligned block from `a` that
stays inside, then the greedy decomposition of the rest. -/
inductive Greedy : Nat → Nat → List Blk → Prop where
  | done {a b : Nat} : b ≤ a → Greedy a b []
  | next {a b e : Nat} {gs : List Blk} : a < b → IsBest a b e → Greedy (a + 2 ^ e) b gs →
      Greedy a b (⟨a, e⟩ :: gs)

/-- Every block of the greedy decomposition of `[a, b)` starts at `a` or later. -/
theorem Greedy.start_ge {a b : Nat} {gs : List Blk} (h : Greedy a b gs) : ∀ u ∈ gs, a ≤ u.start := by
  induction h with
  | done _ => intro u hu; cases hu
  | @next a b e gs _ _ _ ih =>
      intro u hu
      rcases List.mem_cons.mp hu with rfl | hu
      · exact Nat.le_refl _
      · exact Nat.le_trans (Nat.le_add_right a _) (ih u hu)

/-- **The greedy decomposition is a partition.** -/
theorem Greedy.partition {a b : Nat} {gs : List Blk} (h : Greedy a b gs) : Partition a b gs := by
  induction h with
  | done hba =>
      refine ⟨by simp, fun x => ?_, List.Pairwise.nil⟩
      simp only [List.not_mem_nil, false_and, exists_false, iff_false]
      omega
  | @next a b e gs hab hbest hrest ih =>
      refine ⟨?_, fun x => ?_, ?_⟩
      · intro u hu
        rcases List.mem_cons.mp hu with rfl | hu
        · exact hbest.dvd
        · exact ih.aligned u hu
      · simp only [List.mem_cons, or_and_right, exists_or, exists_eq_left, ← ih.cover x]
        have := hbest.le
        have := Nat.two_pow_pos e
        simp only [Blk.Mem]
        omega
      · refine List.Pairwise.cons (fun v hv x hx => ?_) ih.disjoint
        have := (ih.cover x).mpr ⟨v, hv, hx.2⟩
        exact absurd hx.1.2 (by simp only at this ⊢; omega)

/-- Consecutive blocks of the greedy decomposition follow each other in order. -/
theorem Greedy.sorted {a b : Nat} {gs : List Blk} (h : Greedy a b gs) :
    gs.Pairwise fun u v => u.start + 2 ^ u.exp ≤ v.start := by
  induction h with
  | done _ => exact List.Pairwise.nil
  | @next a b e gs _ _ hrest ih =>
      exact List.Pairwise.cons (fun v hv => hrest.start_ge v hv) ih

/-- The greedy decomposition is determined by the interval. -/
theorem Greedy.unique {a b : Nat} {gs gs' : List Blk} (h : Greedy a b gs) (h' : Greedy a b gs') :
    gs = gs' := by
  induction h generalizing gs' with
  | done hba =>
      cases h' with
      | done _ => rfl
      | next hab _ _ => omega
  | next hab hbest _ ih =>
      cases h' with
      | done hba => omega
      | next _ hbest' hrest' =>
          obtain rfl := hbest.unique hbest'
          rw [ih hrest']

/-- The blocks of a partition of `[a, b)` that lie after the greedy first block
`[a, a + 2^e)` partition the rest of the interval: every block that meets the greedy
block lies inside it. -/
theorem Partition.rest {a b e : Nat} {bs : List Blk} (hp : Partition a b bs)
    (hbest : IsBest a b e) :
    Partition (a + 2 ^ e) b (bs.filter fun u => a + 2 ^ e ≤ u.start) := by
  let g : Blk := ⟨a, e⟩
  have hg : g.Aligned := hbest.dvd
  -- a block of the partition that meets the greedy block lies inside it
  have hinside : ∀ u ∈ bs, u.start < a + 2 ^ e → ∀ y, u.Mem y → g.Mem y := by
    intro u hu hlt
    have hmeet : g.Mem u.start := ⟨hp.start_ge hu, hlt⟩
    rcases Nat.le_total u.exp e with hle | hle
    · exact Blk.subset_of_meet (hp.aligned u hu) hg hle u.mem_start hmeet
    · -- then `u` holds `a`, so it starts at `a` and is no larger than the greedy block
      have ha : u.Mem a := Blk.subset_of_meet hg (hp.aligned u hu) hle hmeet u.mem_start a g.mem_start
      have hstart : u.start = a := Nat.le_antisymm ha.1 (hp.start_ge hu)
      have hend : u.start + 2 ^ u.exp ≤ b := by
        have := (hp.cover _).mpr ⟨u, hu, u.mem_last⟩
        have := Nat.two_pow_pos u.exp
        omega
      have hue : u.exp ≤ e := hbest.max u.exp (hstart ▸ hp.aligned u hu) (hstart ▸ hend)
      exact Blk.subset_of_meet (hp.aligned u hu) hg hue u.mem_start hmeet
  refine ⟨fun u hu => hp.aligned u (List.mem_filter.mp hu).1, fun x => ?_,
    hp.disjoint.sublist List.filter_sublist⟩
  constructor
  · rintro ⟨hx1, hx2⟩
    obtain ⟨u, hu, hxu⟩ := (hp.cover x).mp ⟨Nat.le_trans (Nat.le_add_right a _) hx1, hx2⟩
    refine ⟨u, List.mem_filter.mpr ⟨hu, decide_eq_true ?_⟩, hxu⟩
    by_contra hlt
    have : x < a + 2 ^ e := (hinside u hu (Nat.lt_of_not_le hlt) x hxu).2
    omega
  · rintro ⟨u, hu, hxu⟩
    obtain ⟨hu, hstart⟩ := List.mem_filter.mp hu
    have hx := (hp.cover x).mpr ⟨u, hu, hxu⟩
    exact ⟨Nat.le_trans (of_decide_eq_true hstart) hxu.1, hx.2⟩

/-- **The greedy decomposition has the fewest blocks**: no partition of the interval
into aligned blocks is shorter. -/
theorem Greedy.length_le {a b : Nat} {gs : List Blk} (h : Greedy a b gs) :
    ∀ {bs : List Blk}, Partition a b bs → gs.length ≤ bs.length := by
  induction h with
  | done _ => intro bs _; exact Nat.zero_le _
  | @next a b e gs hab hbest _ ih =>
      intro bs hp
      obtain ⟨u, hu, hau⟩ := (hp.cover a).mp ⟨Nat.le_refl a, hab⟩
      have hlt : (bs.filter fun u => a + 2 ^ e ≤ u.start).length < bs.length := by
        refine List.length_filter_lt_length_iff_exists.mpr ⟨u, hu, ?_⟩
        have := hau.1
        have := Nat.two_pow_pos e
        simp only [decide_eq_true_eq]
        omega
      have := ih (hp.rest hbest)
      simp only [List.length_cons]
      omega

/-! ### The search for the greedy block -/

/-- The first exponent from `n` down to 1 that passes `P`, or 0: the result of a
loop `for i in 0..n { if P(n - i) return n - i }; return 0`. -/
def topDown (P : Nat → Bool) (n : Nat) : Nat :=
  match (List.range n).find? (fun i => P (n - i)) with
  | some i => n - i
  | none => 0

/-- `topDown` finds the largest exponent up to `n` that passes `P`, counting 0 as
passing. -/
theorem topDown_spec (P : Nat → Bool) (n : Nat) :
    topDown P n ≤ n ∧ (topDown P n = 0 ∨ P (topDown P n) = true) ∧
      ∀ e, topDown P n < e → e ≤ n → P e = false := by
  unfold topDown
  split
  · rename_i i hi
    obtain ⟨hp, hmem, hbefore⟩ := List.find?_range_eq_some.mp hi
    refine ⟨Nat.sub_le n i, Or.inr hp, fun e he hen => ?_⟩
    have := hbefore (n - e) (by omega)
    rw [show n - (n - e) = e by omega] at this
    simpa using this
  · rename_i hnone
    refine ⟨Nat.zero_le n, Or.inl rfl, fun e he hen => ?_⟩
    have := List.find?_range_eq_none.mp hnone (n - e) (by omega)
    rw [show n - (n - e) = e by omega] at this
    simpa using this

/-- The greedy block from the search: when the bound `n` is at least every exponent
of an aligned block from `a` inside `[a, b)`, and `P e` says for `e ≤ n` that the
block of `2^e` from `a` stays inside, the search returns the greedy exponent. -/
theorem isBest_topDown {a b n : Nat} {P : Nat → Bool} (hab : a < b) (hn : 2 ^ n ∣ a)
    (hbound : ∀ e, 2 ^ e ∣ a → a + 2 ^ e ≤ b → e ≤ n)
    (hP : ∀ e, e ≤ n → (P e = true ↔ a + 2 ^ e ≤ b)) : IsBest a b (topDown P n) := by
  obtain ⟨hle, hfound, habove⟩ := topDown_spec P n
  refine ⟨Nat.dvd_trans (Nat.pow_dvd_pow 2 hle) hn, ?_, fun e he heb => ?_⟩
  · rcases hfound with h0 | hP'
    · rw [h0, Nat.pow_zero]; exact hab
    · exact (hP _ hle).mp hP'
  · have hen := hbound e he heb
    by_contra hlt
    have := habove e (Nat.lt_of_not_le hlt) hen
    rw [(hP e hen).mpr heb] at this
    cases this

/-! ### Trailing zeros -/

/-- The index of the lowest one bit among the `w` low bits of `x`, or `w` when they
are all zero: the loop `for i in 0..w { if (x >> i) & 1 != 0 { return i } }`. -/
def lowBit (w x : Nat) : Nat := ((List.range w).find? fun i => x >>> i &&& 1 ≠ 0).getD w

/-- A number whose bits below `n` are zero is a multiple of `2^n`. -/
theorem two_pow_dvd_of_testBit {x n : Nat} (h : ∀ j < n, x.testBit j = false) : 2 ^ n ∣ x := by
  apply Nat.dvd_of_mod_eq_zero
  apply Nat.eq_of_testBit_eq
  intro j
  rw [Nat.testBit_mod_two_pow, Nat.zero_testBit]
  by_cases hj : j < n
  · simp [hj, h j hj]
  · simp [hj]

theorem lowBit_le (w x : Nat) : lowBit w x ≤ w := by
  unfold lowBit
  cases hf : (List.range w).find? fun i => x >>> i &&& 1 ≠ 0 with
  | none => simp
  | some i =>
      have := (List.find?_range_eq_some.mp hf).2.1
      simp only [List.mem_range] at this
      simp only [Option.getD_some]
      omega

theorem lowBit_dvd {w x : Nat} (hx : x < 2 ^ w) : 2 ^ lowBit w x ∣ x := by
  unfold lowBit
  cases hf : (List.range w).find? fun i => x >>> i &&& 1 ≠ 0 with
  | some i =>
    obtain ⟨-, -, hbelow⟩ := List.find?_range_eq_some.mp hf
    simp only [Option.getD_some]
    refine two_pow_dvd_of_testBit fun j hj => ?_
    have := hbelow j hj
    simp only [Bool.not_eq_eq_eq_not, Bool.not_true, decide_eq_false_iff_not, not_not] at this
    simpa [Nat.testBit, Nat.and_comm] using this
  | none =>
    have hall := List.find?_range_eq_none.mp hf
    simp only [Option.getD_none]
    refine two_pow_dvd_of_testBit fun j hj => ?_
    by_cases hjw : j < w
    · have := hall j hjw
      simp only [Bool.not_eq_eq_eq_not, Bool.not_true, decide_eq_false_iff_not, not_not] at this
      simpa [Nat.testBit, Nat.and_comm] using this
    · exact Nat.testBit_lt_two_pow (Nat.lt_of_lt_of_le hx (Nat.pow_le_pow_right (by decide) (by omega)))

/-- A block of `2^e` aligned at `x` and ending within `w` bits has `e` at most the
index of the lowest one bit of `x`. -/
theorem le_lowBit {w x e : Nat} (h : 2 ^ e ∣ x) (hb : x + 2 ^ e ≤ 2 ^ w) :
    e ≤ lowBit w x := by
  unfold lowBit
  cases hf : (List.range w).find? fun i => x >>> i &&& 1 ≠ 0 with
  | some i =>
    obtain ⟨hp, -, -⟩ := List.find?_range_eq_some.mp hf
    have hbit : x.testBit i = true := by
      simpa [Nat.testBit, Nat.and_comm] using hp
    simp only [Option.getD_some]
    by_contra hlt
    have hd : 2 ^ (i + 1) ∣ x := Nat.dvd_trans (Nat.pow_dvd_pow 2 (by omega)) h
    have := Nat.testBit_mod_two_pow x (i + 1) i
    rw [Nat.mod_eq_zero_of_dvd hd, Nat.zero_testBit, hbit] at this
    simp at this
  | none =>
    have : 2 ^ e ≤ 2 ^ w := by omega
    simpa using (Nat.pow_le_pow_iff_right (by decide)).mp this

/-- The block of `2^lowBit` from `x` ends within `w` bits. -/
theorem add_two_pow_lowBit_le {w x : Nat} (hx : x < 2 ^ w) : x + 2 ^ lowBit w x ≤ 2 ^ w :=
  add_le_of_dvd_of_lt (lowBit_dvd hx) (Nat.pow_dvd_pow 2 (lowBit_le w x)) hx

/-! ### Masks -/

/-- Masking with the ones from bit `k` to bit `w - 1` rounds a `w`-bit number down to
a multiple of `2^k`. -/
theorem and_mask_eq {w k x : Nat} (hx : x < 2 ^ w) :
    x &&& (2 ^ w - 1) * 2 ^ k % 2 ^ w = x / 2 ^ k * 2 ^ k := by
  apply Nat.eq_of_testBit_eq
  intro i
  rw [Nat.testBit_and, Nat.testBit_mod_two_pow, Nat.testBit_mul_two_pow, Nat.testBit_mul_two_pow,
    Nat.testBit_two_pow_sub_one, Nat.testBit_div_two_pow]
  by_cases hki : k ≤ i
  · by_cases hiw : i < w
    · simp [hki, hiw, Nat.sub_add_cancel hki, show i - k < w by omega]
    · have : x.testBit i = false := Nat.testBit_eq_false_of_lt
        (Nat.lt_of_lt_of_le hx (Nat.pow_le_pow_right (by decide) (by omega)))
      simp [hki, hiw, Nat.sub_add_cancel hki, this]
  · simp [hki]

/-- The numbers a mask of the ones from bit `k` up keeps equal to `p` are the block of
`2^k` from `p`, when `p` is a multiple of `2^k`. -/
theorem div_mul_eq_iff {k x p : Nat} (hp : 2 ^ k ∣ p) :
    x / 2 ^ k * 2 ^ k = p ↔ (⟨p, k⟩ : Blk).Mem x := by
  have hpos := Nat.two_pow_pos k
  constructor
  · rintro rfl
    exact ⟨Nat.div_mul_le_self x _, Nat.lt_div_mul_add hpos⟩
  · rintro ⟨h1, h2⟩
    obtain ⟨c, rfl⟩ := hp
    rw [Nat.div_eq_of_lt_le (by rw [Nat.mul_comm]; exact h1)
      (by rw [Nat.add_mul, Nat.one_mul, Nat.mul_comm]; exact h2), Nat.mul_comm]

end Sophon.Block
