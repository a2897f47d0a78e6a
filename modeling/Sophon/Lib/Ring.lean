/-
Rings of slots read and written at unbounded positions.

A ring buffer keeps its entries in `n` slots and addresses them by a cursor that
wraps around.  Here the cursor is an unbounded position `p`, and slot `p % n` is
where it lands; the queues of the repository keep their cursors reduced modulo
`n` or `2n`, and `view_mod` is what lets them.

`view buf n s len` is what a reader walking `len` slots from position `s` sees,
and `write buf n p xs` stores a batch slot by slot from position `p`.  The one
fact everything rests on is `view_write_end`: writing a batch right after a window
of at most `n` positions extends the window by exactly that batch, because no two
positions of a window shorter than the ring share a slot.  `view_write_overwrite`
is the same fact when the batch runs over the oldest positions of the window, and
it is where a ring buffer meets `Fifo.push`.
-/
import Mathlib
import Sophon.Lib.Fifo

namespace Sophon.Ring

variable {α : Type}

/-- The `len` cells a reader sees walking the ring of `n` slots from position `start`. -/
def view (buf : Nat → α) (n start len : Nat) : List α :=
  (List.range len).map fun i => buf ((start + i) % n)

/-- Store `xs` slot after slot from position `pos` on. -/
def write (buf : Nat → α) (n pos : Nat) : List α → Nat → α
  | [] => buf
  | x :: xs => write (Function.update buf (pos % n) x) n (pos + 1) xs

/-! ### Reading a window -/

@[simp] theorem length_view (buf : Nat → α) (n s len : Nat) :
    (view buf n s len).length = len := by
  simp [view]

@[simp] theorem view_zero (buf : Nat → α) (n s : Nat) : view buf n s 0 = [] := rfl

@[simp] theorem getElem_view (buf : Nat → α) (n s len i : Nat) (h : i < (view buf n s len).length) :
    (view buf n s len)[i] = buf ((s + i) % n) := by
  simp [view]

theorem view_succ (buf : Nat → α) (n s len : Nat) :
    view buf n s (len + 1) = view buf n s len ++ [buf ((s + len) % n)] := by
  simp [view, List.range_succ]

theorem view_add (buf : Nat → α) (n s a b : Nat) :
    view buf n s (a + b) = view buf n s a ++ view buf n (s + a) b := by
  induction b with
  | zero => simp
  | succ b ih =>
      rw [← Nat.add_assoc, view_succ, ih, view_succ, List.append_assoc, Nat.add_assoc s a b]

theorem view_succ_cons (buf : Nat → α) (n s len : Nat) :
    view buf n s (len + 1) = buf (s % n) :: view buf n (s + 1) len := by
  rw [Nat.add_comm len 1, view_add]
  simp [view]

/-- Only the slot a position lands on matters. -/
theorem view_mod (buf : Nat → α) (n s len : Nat) : view buf n (s % n) len = view buf n s len := by
  simp only [view, Nat.mod_add_mod]

theorem view_congr {buf buf' : Nat → α} {n s len : Nat}
    (h : ∀ i, i < len → buf ((s + i) % n) = buf' ((s + i) % n)) :
    view buf n s len = view buf' n s len := by
  refine List.map_congr_left fun i hi => h i ?_
  simpa using hi

theorem drop_view (buf : Nat → α) (n s len k : Nat) :
    (view buf n s len).drop k = view buf n (s + k) (len - k) := by
  rcases Nat.le_total k len with hk | hk
  · obtain ⟨b, rfl⟩ := Nat.exists_eq_add_of_le hk
    rw [view_add, List.drop_left' (length_view _ _ _ _)]
    simp
  · rw [List.drop_eq_nil_of_le (by simpa using hk), Nat.sub_eq_zero_of_le hk, view_zero]

theorem take_view (buf : Nat → α) (n s len k : Nat) (hk : k ≤ len) :
    (view buf n s len).take k = view buf n s k := by
  obtain ⟨b, rfl⟩ := Nat.exists_eq_add_of_le hk
  rw [view_add, List.take_left' (length_view _ _ _ _)]

theorem take_view_min (buf : Nat → α) (n s len k : Nat) :
    (view buf n s len).take k = view buf n s (min len k) := by
  rcases Nat.le_total k len with hk | hk
  · rw [take_view _ _ _ _ _ hk, Nat.min_eq_right hk]
  · rw [List.take_of_length_le (by simpa using hk), Nat.min_eq_left hk]

theorem drop_view_min (buf : Nat → α) (n s len k : Nat) :
    (view buf n s len).drop k = view buf n (s + min len k) (len - min len k) := by
  rcases Nat.le_total k len with hk | hk
  · rw [drop_view, Nat.min_eq_right hk]
  · rw [List.drop_eq_nil_of_le (by simpa using hk), Nat.min_eq_left hk, Nat.sub_self, view_zero]

/-! ### Slots of a short window are distinct -/

/-- Two positions less than `n` apart land on different slots. -/
theorem mod_ne_of_lt {n a b : Nat} (hab : a < b) (hba : b < a + n) : a % n ≠ b % n := by
  intro h
  have hdvd : n ∣ b - a := Nat.dvd_of_mod_eq_zero (Nat.sub_mod_eq_zero_of_mod_eq h.symm)
  have hpos : 0 < b - a := by omega
  have := Nat.le_of_dvd hpos hdvd
  omega

/-- Writing the slot just past a window shorter than the ring extends the window by that cell. -/
theorem view_update_end (buf : Nat → α) {n s len : Nat} (hlen : len < n) (x : α) :
    view (Function.update buf ((s + len) % n) x) n s (len + 1) = view buf n s len ++ [x] := by
  rw [view_succ, Function.update_self]
  congr 1
  refine view_congr fun i hi => ?_
  exact Function.update_of_ne (mod_ne_of_lt (n := n) (a := s + i) (b := s + len) (by omega)
    (by omega)) x buf

/-! ### Writing a batch -/

@[simp] theorem write_nil (buf : Nat → α) (n p : Nat) : write buf n p [] = buf := rfl

theorem write_cons (buf : Nat → α) (n p : Nat) (x : α) (xs : List α) :
    write buf n p (x :: xs) = write (Function.update buf (p % n) x) n (p + 1) xs := rfl

theorem write_append (buf : Nat → α) (n p : Nat) (xs ys : List α) :
    write buf n p (xs ++ ys) = write (write buf n p xs) n (p + xs.length) ys := by
  induction xs generalizing buf p with
  | nil => rfl
  | cons x xs ih =>
      rw [List.cons_append, write_cons, ih, write_cons, List.length_cons, Nat.add_assoc,
        Nat.add_comm 1]

/-- Only the slot the first position lands on matters. -/
theorem write_congr_mod (buf : Nat → α) {n p p' : Nat} (h : p % n = p' % n) (xs : List α) :
    write buf n p xs = write buf n p' xs := by
  induction xs generalizing buf p p' with
  | nil => rfl
  | cons x xs ih =>
      rw [write_cons, write_cons, h]
      exact ih _ (by rw [Nat.add_mod, h, ← Nat.add_mod])

/-- A slot no position of the batch lands on keeps its cell. -/
theorem write_apply_of_ne {buf : Nat → α} {n p k : Nat} {xs : List α}
    (h : ∀ j, j < xs.length → (p + j) % n ≠ k) : write buf n p xs k = buf k := by
  induction xs generalizing buf p with
  | nil => rfl
  | cons x xs ih =>
      rw [write_cons, ih]
      · exact Function.update_of_ne (fun hk => h 0 (by simp) (by simpa using hk.symm)) x buf
      · intro j hj
        have := h (j + 1) (by simp; omega)
        rwa [← Nat.add_assoc, Nat.add_right_comm] at this

/-- **Writing right after a window extends it by the batch**, as long as the whole
window still fits in the ring. -/
theorem view_write_end {n : Nat} (xs : List α) :
    ∀ (s len : Nat) (buf : Nat → α), len + xs.length ≤ n →
      view (write buf n (s + len) xs) n s (len + xs.length) = view buf n s len ++ xs := by
  induction xs with
  | nil => intro s len buf _; simp
  | cons x xs ih =>
      intro s len buf hfit
      simp only [List.length_cons] at hfit
      have hstep := ih s (len + 1) (Function.update buf ((s + len) % n) x) (by omega)
      rw [view_update_end buf (by omega) x] at hstep
      rw [write_cons, List.length_cons, show s + len + 1 = s + (len + 1) by omega,
        show len + (xs.length + 1) = len + 1 + xs.length by omega, hstep, List.append_assoc,
        List.singleton_append]

/-- **A batch written after a full window pushes the oldest cells out**: the `n`
newest positions hold what `Fifo.push` keeps. -/
theorem view_write_overwrite (buf : Nat → α) {n s len : Nat} {xs : List α}
    (hxs : xs.length ≤ n) :
    view (write buf n (s + len) xs) n (s + (len + xs.length - n))
        (len + xs.length - (len + xs.length - n))
      = (Fifo.push n (view buf n s len) xs).1 := by
  set k := len + xs.length - n with hk
  have hkle : k ≤ len := by omega
  have hdrop : (view buf n s len ++ xs).drop k = view buf n (s + k) (len - k) ++ xs := by
    rw [List.drop_append_of_le_length (by simpa using hkle), drop_view]
  have hpos : s + len = (s + k) + (len - k) := by omega
  have hw := view_write_end (n := n) xs (s + k) (len - k) buf (by omega)
  rw [← hpos, show len - k + xs.length = len + xs.length - k by omega] at hw
  simp only [Fifo.push_kept, List.length_append, length_view]
  rw [← hk, hdrop, hw]

/-- The cells a batch overwrites are the oldest ones of the window. -/
theorem view_overwritten (buf : Nat → α) {n s len : Nat} {xs : List α}
    (hxs : xs.length ≤ n) :
    view buf n s (len + xs.length - n) = (Fifo.push n (view buf n s len) xs).2 := by
  rw [Fifo.push_dropped_prefix hxs, length_view, take_view _ _ _ _ _ (by omega)]

end Sophon.Ring
