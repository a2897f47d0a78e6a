/-
Invariant rules for two shapes of loop.

A loop that drains a list it took whole, `for x in list`, is a left fold, and its
invariant usually speaks of the elements still to come: an element not yet reached
is still owed its turn.  `foldl_drain` is the rule for it: an invariant of the
remaining list and the state that one turn carries from `x :: rest` to `rest`
holds of the empty list once the loop is done.

A loop over consecutive numbers, `for t in lo..hi`, is a fold over `range'`, and
its invariant speaks of the number reached.  `foldl_range'_sweep` is that rule;
each turn may use that its number lies in the range.  `foldlM_range'_sweep` is the
same rule for a loop whose turns may fail, as an index out of range does, and
`foldlM_range'_closed` its form for a loop whose state before each turn is known.

A `while` loop whose turn either stops with a result or goes on from a new state is
`whileFuel`, run on a fuel that bounds its turns.  A measure that every turn lowers
makes any fuel above it enough (`whileFuel_fuel`), and an invariant that every turn
keeps, and under which every result the loop stops with is good, makes the result of
a loop with that much fuel good (`whileFuel_inv`); the invariant may also carry the
measure itself, as the work left (`whileFuel_indexed`).

A loop `for i in 0..n { if p(i) { break } }` that leaves `n` when it never breaks is
`((List.range n).find? p).getD n`: it stops at the first `i` where `p` holds, or at `n`
(`find?_range_getD`).
-/
import Mathlib

namespace Sophon.Loop

variable {σ β : Type}

/-- The rule for a loop that drains a list. -/
theorem foldl_drain (P : List β → σ → Prop) (f : σ → β → σ)
    (step : ∀ b rest s, P (b :: rest) s → P rest (f s b)) :
    ∀ (l : List β) (s : σ), P l s → P [] (l.foldl f s)
  | [], _, h => h
  | b :: rest, s, h => foldl_drain P f step rest (f s b) (step b rest s h)

/-- The rule for a loop over the numbers from `lo` to `lo + n`, the last excluded. -/
theorem foldl_range'_sweep (P : Nat → σ → Prop) (f : σ → Nat → σ) :
    ∀ (lo n : Nat) (s : σ), (∀ t s, lo ≤ t → t < lo + n → P t s → P (t + 1) (f s t)) →
      P lo s → P (lo + n) ((List.range' lo n).foldl f s)
  | _, 0, _, _, h => h
  | lo, n + 1, s, step, h => by
      rw [List.range'_succ, List.foldl_cons, show lo + (n + 1) = lo + 1 + n by omega]
      refine foldl_range'_sweep P f (lo + 1) n (f s lo) (fun t s h1 h2 => ?_) ?_
      · exact step t s (by omega) (by omega)
      · exact step lo s (Nat.le_refl lo) (by omega) h

/-- The rule for a loop over the numbers from `lo` to `lo + n` whose turn may fail:
when each turn from a state of the invariant succeeds and keeps it, so does the loop. -/
theorem foldlM_range'_sweep (P : Nat → σ → Prop) (f : σ → Nat → Option σ) :
    ∀ (lo n : Nat) (s : σ),
      (∀ t s, lo ≤ t → t < lo + n → P t s → ∃ s', f s t = some s' ∧ P (t + 1) s') →
      P lo s → ∃ s', (List.range' lo n).foldlM f s = some s' ∧ P (lo + n) s'
  | lo, 0, s, _, h => ⟨s, rfl, h⟩
  | lo, n + 1, s, step, h => by
      obtain ⟨s₁, hs₁, h₁⟩ := step lo s (Nat.le_refl lo) (by omega) h
      rw [List.range'_succ, List.foldlM_cons, hs₁, Option.bind_eq_bind, Option.bind_some,
        show lo + (n + 1) = lo + 1 + n by omega]
      exact foldlM_range'_sweep P f (lo + 1) n s₁
        (fun t s h1 h2 => step t s (by omega) (by omega)) h₁

/-- The same rule when the state before each turn is known, `F t` before the turn of
`t`: the loop ends in `F (lo + n)`. -/
theorem foldlM_range'_closed (F : Nat → σ) (f : σ → Nat → Option σ) {lo n : Nat} {s r : σ}
    (step : ∀ t, lo ≤ t → t < lo + n → f (F t) t = some (F (t + 1)))
    (hs : s = F lo) (hr : r = F (lo + n)) : (List.range' lo n).foldlM f s = some r := by
  obtain ⟨s', hs', hP⟩ := foldlM_range'_sweep (fun t s => s = F t) f lo n s
    (fun t s h1 h2 hst => ⟨F (t + 1), by rw [hst]; exact step t h1 h2, rfl⟩) hs
  rw [hs', hP, hr]

/-- A loop that runs `turn` until it stops with a result, on at most `fuel` turns, and
returns `out` when the fuel runs out. -/
def whileFuel {ρ : Type} (turn : σ → ρ ⊕ σ) (out : ρ) : Nat → σ → ρ
  | 0, _ => out
  | fuel + 1, s =>
      match turn s with
      | .inl r => r
      | .inr s' => whileFuel turn out fuel s'

section WhileFuel

variable {ρ : Type} {turn : σ → ρ ⊕ σ} {out : ρ}

theorem whileFuel_succ (fuel : Nat) (s : σ) :
    whileFuel turn out (fuel + 1) s = match turn s with
      | .inl r => r
      | .inr s' => whileFuel turn out fuel s' := rfl

theorem whileFuel_next {s s' : σ} (fuel : Nat) (h : turn s = .inr s') :
    whileFuel turn out (fuel + 1) s = whileFuel turn out fuel s' := by
  rw [whileFuel_succ, h]

theorem whileFuel_stop {s : σ} {r : ρ} (fuel : Nat) (h : turn s = .inl r) :
    whileFuel turn out (fuel + 1) s = r := by
  rw [whileFuel_succ, h]

/-- **Fuel rule.**  When each turn from a state of `I` goes on to a state of `I` of
lower measure, every fuel above the measure gives the same result. -/
theorem whileFuel_fuel (I : σ → Prop) (μ : σ → Nat)
    (step : ∀ s s', I s → turn s = .inr s' → I s' ∧ μ s' < μ s) :
    ∀ (fuel fuel' : Nat) (s : σ), I s → μ s < fuel → μ s < fuel' →
      whileFuel turn out fuel s = whileFuel turn out fuel' s
  | 0, _, _, _, h, _ => absurd h (Nat.not_lt_zero _)
  | _ + 1, 0, _, _, _, h' => absurd h' (Nat.not_lt_zero _)
  | fuel + 1, fuel' + 1, s, hs, h, h' => by
      rw [whileFuel_succ, whileFuel_succ]
      cases hturn : turn s with
      | inl r => rfl
      | inr s' =>
          obtain ⟨hs', hlt⟩ := step s s' hs hturn
          exact whileFuel_fuel I μ step fuel fuel' s' hs' (by omega) (by omega)

/-- **Invariant rule.**  When each turn from a state of `I` either stops with a result
of `P` or goes on to a state of `I` of lower measure, a loop with fuel above the
measure stops with a result of `P`. -/
theorem whileFuel_inv (I : σ → Prop) (μ : σ → Nat) (P : ρ → Prop)
    (done : ∀ s r, I s → turn s = .inl r → P r)
    (next : ∀ s s', I s → turn s = .inr s' → I s' ∧ μ s' < μ s) :
    ∀ (fuel : Nat) (s : σ), I s → μ s < fuel → P (whileFuel turn out fuel s)
  | 0, _, _, h => absurd h (Nat.not_lt_zero _)
  | fuel + 1, s, hs, h => by
      rw [whileFuel_succ]
      cases hturn : turn s with
      | inl r => exact done s r hs hturn
      | inr s' =>
          obtain ⟨hs', hlt⟩ := next s s' hs hturn
          exact whileFuel_inv I μ P done next fuel s' hs' (by omega)

/-- **Invariant rule, with the measure in the invariant.**  `I n s` says that `s` is
a state of the loop with `n` turns' worth of work left.  When each turn from a state
of `I n` either stops with a result of `P` or goes on to a state of `I n'` for some
`n' < n`, a loop with fuel above `n` stops with a result of `P`. -/
theorem whileFuel_indexed (I : Nat → σ → Prop) (P : ρ → Prop)
    (done : ∀ n s r, I n s → turn s = .inl r → P r)
    (next : ∀ n s s', I n s → turn s = .inr s' → ∃ n', n' < n ∧ I n' s') :
    ∀ (fuel n : Nat) (s : σ), I n s → n < fuel → P (whileFuel turn out fuel s)
  | 0, _, _, _, h => absurd h (Nat.not_lt_zero _)
  | fuel + 1, n, s, hs, h => by
      rw [whileFuel_succ]
      cases hturn : turn s with
      | inl r => exact done n s r hs hturn
      | inr s' =>
          obtain ⟨n', hlt, hs'⟩ := next n s s' hs hturn
          exact whileFuel_indexed I P done next fuel n' s' hs' (by omega)

end WhileFuel

/-- **The first index.**  The loop that breaks at the first `i < n` where `p` holds, and
leaves `n` when there is none, stops at an `i ≤ n` before which `p` fails, and where
it holds unless the loop ran out. -/
theorem find?_range_getD {n i : Nat} {p : Nat → Bool} (h : ((List.range n).find? p).getD n = i) :
    i ≤ n ∧ (∀ j < i, p j = false) ∧ (i < n → p i = true) := by
  cases hf : (List.range n).find? p with
  | none =>
      rw [hf, Option.getD_none] at h
      subst h
      have hall := List.find?_range_eq_none.mp hf
      exact ⟨Nat.le_refl _, fun j hj => by simpa using hall j hj, fun hlt => absurd hlt (Nat.lt_irrefl _)⟩
  | some k =>
      rw [hf, Option.getD_some] at h
      subst h
      obtain ⟨hp, hmem, hbefore⟩ := List.find?_range_eq_some.mp hf
      exact ⟨Nat.le_of_lt (List.mem_range.mp hmem), fun j hj => by simpa using hbefore j hj, fun _ => hp⟩

end Sophon.Loop
