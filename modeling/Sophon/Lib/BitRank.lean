/-
Packing selected bits into a small index, and enumerating wildcard bits.

A decision table indexed by a few chosen bit positions of a wide key needs two
loops.  The first walks the positions of a range in order and, for every position
the mask selects, moves the key's bit there to the next free bit of the index:
the `k`-th selected position becomes bit `k`.  `scan_eq` says that loop computes
`rank`, the index read off the selected positions directly.  The second loop
starts from one index and, for each wildcard bit, doubles the list by adding a
copy with that bit set; `mem_expand` and `nodup_expand` say it lists every way
of setting the wildcard bits, each once.

Both loops run in a fixed-width word, where `1 << k` is zero once `k` reaches the
width; `shl1` is that shift.
-/
import Mathlib

namespace Sophon.BitRank

/-- `1 << k` in a `w`-bit word: zero once the shift reaches the width. -/
def shl1 (w k : Nat) : Nat := if k < w then 2 ^ k else 0

/-- The bits `bit s` of the positions `sel`, packed into the low bits of a word. -/
def rank (bit : Nat → Bool) : List Nat → Nat
  | [] => 0
  | s :: ss => (if bit s then 1 else 0) ||| (rank bit ss <<< 1)

/-- One position of the packing loop: when `bit i`, set the next free bit of the
index; when `mask i`, move on to the next bit. -/
def scanStep (w : Nat) (bit mask : Nat → Bool) (st : Nat × Nat) (i : Nat) : Nat × Nat :=
  (if bit i then st.1 ||| shl1 w st.2 else st.1, if mask i then st.2 + 1 else st.2)

/-- The doubling loop: every way of setting the bits `offs` on top of the words of `base`. -/
def expand (w : Nat) (base : List Nat) : List Nat → List Nat
  | [] => base
  | o :: os => expand w (base ++ base.map (· ||| shl1 w o)) os

/-! ### `rank` -/

theorem testBit_rank (bit : Nat → Bool) (sel : List Nat) (r : Nat) :
    (rank bit sel).testBit r = (sel[r]?.map bit).getD false := by
  induction sel generalizing r with
  | nil => simp [rank]
  | cons s ss ih =>
      cases r with
      | zero => cases h : bit s <;> simp [rank, h]
      | succ r =>
          have h1 : Nat.testBit 1 (r + 1) = false := by simp [Nat.testBit_succ]
          cases h : bit s <;> simp [rank, h, h1, ih]

theorem rank_congr {bit bit' : Nat → Bool} {sel : List Nat} (h : ∀ s ∈ sel, bit s = bit' s) :
    rank bit sel = rank bit' sel := by
  induction sel with
  | nil => rfl
  | cons s ss ih =>
      rw [rank, rank, h s (List.mem_cons_self ..),
        ih (fun s' hs' => h s' (List.mem_cons_of_mem s hs'))]

theorem rank_lt (bit : Nat → Bool) (sel : List Nat) : rank bit sel < 2 ^ sel.length := by
  induction sel with
  | nil => simp [rank]
  | cons s ss ih =>
      have hshift : rank bit ss <<< 1 < 2 ^ (ss.length + 1) := by
        rw [Nat.shiftLeft_eq, Nat.pow_one, Nat.pow_succ]
        omega
      have hb : (if bit s then 1 else 0) < 2 ^ (ss.length + 1) := by
        have := Nat.one_le_two_pow (n := ss.length)
        rw [Nat.pow_succ]
        split <;> omega
      simpa [rank] using Nat.or_lt_two_pow hb hshift

/-! ### The packing loop computes `rank` -/

theorem or_shl1_shift {w off : Nat} (hoff : off < w) (b : Bool) (idx r : Nat) :
    (if b then idx ||| shl1 w off else idx) ||| (r <<< (off + 1))
      = idx ||| (((if b then 1 else 0) ||| (r <<< 1)) <<< off) := by
  rw [Nat.shiftLeft_or_distrib, ← Nat.shiftLeft_add, Nat.add_comm 1 off]
  cases b
  · simp
  · simp only [if_true, shl1, if_pos hoff, Nat.one_shiftLeft, Nat.or_assoc]

/-- **The packing loop over positions `l` packs the bits of the positions the mask
selects**, as long as no bit is set off the mask and the index has room. -/
theorem scan_eq (w : Nat) (bit mask : Nat → Bool) (l : List Nat) :
    ∀ (idx off : Nat), (∀ i ∈ l, bit i = true → mask i = true) →
      off + (l.filter mask).length ≤ w →
      l.foldl (scanStep w bit mask) (idx, off)
        = (idx ||| (rank bit (l.filter mask) <<< off), off + (l.filter mask).length) := by
  induction l with
  | nil => intro idx off _ _; simp [rank]
  | cons i rest ih =>
      intro idx off hsel hroom
      rw [List.foldl_cons]
      by_cases hm : mask i = true
      · rw [List.filter_cons_of_pos hm, List.length_cons] at hroom ⊢
        have hstep : scanStep w bit mask (idx, off) i
            = (if bit i then idx ||| shl1 w off else idx, off + 1) := by
          simp [scanStep, hm]
        rw [hstep, ih _ _ (fun j hj => hsel j (List.mem_cons_of_mem i hj)) (by omega),
          or_shl1_shift (by omega), rank]
        simp only [Prod.mk.injEq, true_and]
        omega
      · have hb : bit i = false := by
          cases h : bit i
          · rfl
          · exact absurd (hsel i (List.mem_cons_self ..) h) hm
        rw [List.filter_cons_of_neg hm] at hroom ⊢
        have hstep : scanStep w bit mask (idx, off) i = (idx, off) := by
          simp [scanStep, hm, hb]
        rw [hstep, ih _ _ (fun j hj => hsel j (List.mem_cons_of_mem i hj)) hroom]

/-- The positions of a range that a strictly increasing list inside it selects are
that list. -/
theorem filter_range'_mem {sel : List Nat} (hsorted : sel.Pairwise (· < ·)) {lo len : Nat}
    (hin : ∀ s ∈ sel, lo ≤ s ∧ s < lo + len) :
    (List.range' lo len).filter (fun i => decide (i ∈ sel)) = sel := by
  refine List.Pairwise.eq_of_mem_iff ((List.pairwise_lt_range' ..).filter _) hsorted fun a => ?_
  simp only [List.mem_filter, List.mem_range'_1, decide_eq_true_eq]
  constructor
  · rintro ⟨-, ha⟩
    exact ha
  · intro ha
    exact ⟨hin a ha, ha⟩

/-! ### The doubling loop -/

theorem testBit_shl1 {w o r : Nat} (ho : o < w) : (shl1 w o).testBit r = decide (o = r) := by
  simp [shl1, ho, Nat.testBit_two_pow]

/-- The doubling loop is `expand`. -/
theorem foldl_double_eq_expand (w : Nat) (offs : List Nat) :
    ∀ base : List Nat,
      offs.foldl (fun base o => base ++ base.map (· ||| shl1 w o)) base = expand w base offs := by
  induction offs with
  | nil => intro base; rfl
  | cons o os ih => intro base; exact ih _

/-- Clearing the bits `offs` of a `w`-bit word, one `x &= ^(1 << o)` at a time. -/
theorem testBit_foldl_clear {w : Nat} (offs : List Nat) (hw : ∀ o ∈ offs, o < w) :
    ∀ (x r : Nat), x < 2 ^ w →
      (offs.foldl (fun x o => x &&& (2 ^ w - 1 ^^^ shl1 w o)) x).testBit r
        = (x.testBit r && decide (r ∉ offs)) := by
  induction offs with
  | nil => intro x r _; simp
  | cons o os ih =>
      intro x r hx
      have ho : o < w := hw o (List.mem_cons_self ..)
      have hx' : x &&& (2 ^ w - 1 ^^^ shl1 w o) < 2 ^ w :=
        Nat.lt_of_le_of_lt Nat.and_le_left hx
      rw [List.foldl_cons, ih (fun o' h => hw o' (List.mem_cons_of_mem o h)) _ r hx',
        Nat.testBit_and, Nat.testBit_xor, Nat.testBit_two_pow_sub_one, testBit_shl1 ho]
      by_cases hr : r < w
      · by_cases hro : o = r
        · subst hro; simp [hr]
        · simp [hr, hro, Ne.symm hro]
      · have : x.testBit r = false := Nat.testBit_lt_two_pow (Nat.lt_of_lt_of_le hx
          (Nat.pow_le_pow_right (by omega) (by omega)))
        simp [this]

/-- **Every way of setting the wildcard bits is listed**: a word that agrees off the
wildcard bits with a base word whose wildcard bits are clear is in the list. -/
theorem mem_expand {w : Nat} (offs : List Nat) (hw : ∀ o ∈ offs, o < w) (hnd : offs.Nodup) :
    ∀ (base : List Nat) (x y : Nat), y ∈ base → (∀ o ∈ offs, y.testBit o = false) →
      (∀ r, r ∉ offs → x.testBit r = y.testBit r) → x ∈ expand w base offs := by
  induction offs with
  | nil =>
      intro base x y hy _ hxy
      have : x = y := Nat.eq_of_testBit_eq fun r => hxy r (List.not_mem_nil)
      exact this ▸ hy
  | cons o os ih =>
      intro base x y hy hclear hxy
      have ho : o < w := hw o (List.mem_cons_self ..)
      obtain ⟨hnotin, hnd'⟩ := List.nodup_cons.mp hnd
      -- Pick the copy of `y` whose bit `o` is the one `x` has.
      set y' := if x.testBit o then y ||| shl1 w o else y with hy'
      have hy'mem : y' ∈ base ++ base.map (· ||| shl1 w o) := by
        rw [hy']
        split
        · exact List.mem_append_right _ (List.mem_map_of_mem hy)
        · exact List.mem_append_left _ hy
      refine ih (fun o' h => hw o' (List.mem_cons_of_mem o h)) hnd' _ x y' hy'mem ?_ ?_
      · intro o' ho'
        have hne : o ≠ o' := fun h => hnotin (h ▸ ho')
        rw [hy']
        split
        · rw [Nat.testBit_or, testBit_shl1 ho, decide_eq_false hne, Bool.or_false]
          exact hclear o' (List.mem_cons_of_mem o ho')
        · exact hclear o' (List.mem_cons_of_mem o ho')
      · intro r hr
        by_cases hro : r = o
        · subst hro
          rw [hy']
          cases hx : x.testBit r
          · simp only [Bool.false_eq_true, if_false]
            rw [hclear r (List.mem_cons_self ..)]
          · simp [testBit_shl1 ho]
        · have hxr := hxy r (by simp [hro, hr])
          rw [hy', hxr]
          split
          · rw [Nat.testBit_or, testBit_shl1 ho, decide_eq_false (Ne.symm hro), Bool.or_false]
          · rfl

/-- **No word is listed twice**, when the base has none twice and its wildcard bits clear. -/
theorem nodup_expand {w : Nat} (offs : List Nat) (hw : ∀ o ∈ offs, o < w) (hnd : offs.Nodup) :
    ∀ (base : List Nat), base.Nodup → (∀ y ∈ base, ∀ o ∈ offs, y.testBit o = false) →
      (expand w base offs).Nodup := by
  induction offs with
  | nil => intro base hb _; exact hb
  | cons o os ih =>
      intro base hb hclear
      have ho : o < w := hw o (List.mem_cons_self ..)
      obtain ⟨hnotin, hnd'⟩ := List.nodup_cons.mp hnd
      have hset : ∀ y, (y ||| shl1 w o).testBit o = true := by
        intro y; simp [testBit_shl1 ho]
      refine ih (fun o' h => hw o' (List.mem_cons_of_mem o h)) hnd' _ ?_ ?_
      · refine List.nodup_append.mpr ⟨hb, ?_, ?_⟩
        · refine List.Nodup.map_on (fun a ha b hb' hab => ?_) hb
          refine Nat.eq_of_testBit_eq fun r => ?_
          have := congrArg (fun z => z.testBit r) hab
          by_cases hro : r = o
          · subst hro
            rw [hclear a ha r (List.mem_cons_self ..), hclear b hb' r (List.mem_cons_self ..)]
          · simpa [Nat.testBit_or, testBit_shl1 ho, Ne.symm hro] using this
        · intro a ha b hb' hab
          obtain ⟨c, hc, rfl⟩ := List.mem_map.mp hb'
          have h1 := hclear a ha o (List.mem_cons_self ..)
          rw [hab, hset] at h1
          exact Bool.noConfusion h1
      · intro y hy o' ho'
        have hne : o ≠ o' := fun h => hnotin (h ▸ ho')
        rcases List.mem_append.mp hy with hy | hy
        · exact hclear y hy o' (List.mem_cons_of_mem o ho')
        · obtain ⟨c, hc, rfl⟩ := List.mem_map.mp hy
          rw [Nat.testBit_or, testBit_shl1 ho, decide_eq_false hne, Bool.or_false]
          exact hclear c hc o' (List.mem_cons_of_mem o ho')

end Sophon.BitRank
