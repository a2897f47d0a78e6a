/-
The cuts a family of closed intervals makes in the natural numbers.

A family of intervals `[lo r, hi r]` cuts the line before each of its left ends and
after each of its right ends.  Between two cuts nothing changes: a block with no cut
inside that meets an interval lies in it (`sub_of_uncut`), so coverage is the same
at both ends of such a block (`covered_of_uncut`, `covered_of_uncut_left`).  A sweep
that splits the line at the cuts and keeps the covered pieces relies on exactly
these facts.
-/
import Mathlib

namespace Sophon.Cuts

variable {ι : Type} (lo hi : ι → Nat) (I : List ι)

/-- Some interval holds `p`. -/
def Covered (p : Nat) : Prop := ∃ r ∈ I, lo r ≤ p ∧ p ≤ hi r

/-- A cut at `b`: an interval starts at `b`, or one ends just before it. -/
def IsCut (b : Nat) : Prop := (∃ r ∈ I, lo r = b) ∨ (∃ r ∈ I, hi r + 1 = b)

/-- No cut in `(x, y]`. -/
def Uncut (x y : Nat) : Prop := ∀ b, x < b → b ≤ y → ¬ IsCut lo hi I b

variable {lo hi I}

theorem Uncut.mono {x y x' y' : Nat} (hu : Uncut lo hi I x y) (hx : x ≤ x') (hy : y' ≤ y) :
    Uncut lo hi I x' y' :=
  fun b hxb hby => hu b (by omega) (by omega)

/-- A block with no cut inside that meets an interval lies in it. -/
theorem sub_of_uncut {u v p : Nat} {r : ι} (hu : Uncut lo hi I u v) (hr : r ∈ I)
    (hpr : lo r ≤ p ∧ p ≤ hi r) (hp : u ≤ p ∧ p ≤ v) : lo r ≤ u ∧ v ≤ hi r := by
  constructor
  · -- a left end inside the block would be a cut
    by_contra hlt
    exact hu (lo r) (by omega) (by omega) (.inl ⟨r, hr, rfl⟩)
  · -- so would the point after a right end
    by_contra hlt
    exact hu (hi r + 1) (by omega) (by omega) (.inr ⟨r, hr, rfl⟩)

theorem covered_of_uncut {x y : Nat} (hx : Covered lo hi I x) (hxy : x ≤ y)
    (hu : Uncut lo hi I x y) : Covered lo hi I y := by
  obtain ⟨r, hr, hxr⟩ := hx
  have := sub_of_uncut hu hr hxr ⟨Nat.le_refl x, hxy⟩
  exact ⟨r, hr, by omega, this.2⟩

theorem covered_of_uncut_left {x y : Nat} (hy : Covered lo hi I y) (hxy : x ≤ y)
    (hu : Uncut lo hi I x y) : Covered lo hi I x := by
  obtain ⟨r, hr, hyr⟩ := hy
  have := sub_of_uncut hu hr hyr ⟨hxy, Nat.le_refl y⟩
  exact ⟨r, hr, this.1, by omega⟩

end Sophon.Cuts
