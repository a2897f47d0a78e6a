/-
What the server's `OverwriteQueue` holds, and that `Put`, `get` and `gets` move it
as the bounded queue `Fifo` does.

A queue holds the `pending` slots from `firstIndex` on.  Measured as a position
that is not reduced, the oldest item is at `writeCursor + size - pending` and the
window ends at `writeCursor + size`, which is the slot `Put` writes first: that is
all `Ring.view_write_overwrite` needs to say a `Put` keeps what `Fifo.push` keeps.

The release range is the one place the queue does its own arithmetic.  It starts
at `firstIndex` and ends at `writeCursor + itemSize`, masked when past `size`;
the number of slots between the two is the number of items the batch overwrites,
except when that number is `size` itself and the masked end comes back round to
`firstIndex`.  `released_eq` is the general case and `released_full_batch` the
exception: a batch of `size` items into a full queue whose cursor is not at slot
0 releases nothing.
-/
import Sophon.Server.OverwriteQueue

namespace Sophon.Server

variable {α : Type}

/-! ### Go's `copy` into a ring -/

/-- A `copy` that starts inside the slice stores the part of the batch that fits. -/
theorem copyTo_eq (size : Nat) (xs : List α) :
    ∀ (off : Nat) (buf : Nat → α), off ≤ size →
      copyTo buf size off xs
        = (Ring.write buf size off (xs.take (size - off)), min (size - off) xs.length) := by
  induction xs with
  | nil => intro off buf _; simp [copyTo]
  | cons x xs ih =>
      intro off buf hoff
      by_cases hlt : off < size
      · have hsub : size - off = (size - (off + 1)) + 1 := by omega
        simp only [copyTo, if_pos hlt]
        rw [ih (off + 1) _ hlt, hsub, List.take_succ_cons, Ring.write_cons, Nat.mod_eq_of_lt hlt]
        simp only [List.length_cons, Prod.mk.injEq, true_and]
        omega
      · have heq : off = size := by omega
        subst heq
        simp [copyTo]

namespace OverwriteQueue

/-! ### The shape every queue keeps -/

/-- What a queue holds, oldest first. -/
def contents (q : OverwriteQueue α) : List (Option α) :=
  Ring.view q.items q.size q.firstIndex q.pending

/-- A power-of-two `size`, the cursor on a slot and no more pending items than slots. -/
structure WF (q : OverwriteQueue α) : Prop where
  pow : ∃ k, q.size = 2 ^ k
  cursor : q.writeCursor < q.size
  pending : q.pending ≤ q.size

theorem mask_eq_mod {size : Nat} (h : ∃ k, size = 2 ^ k) (x : Nat) :
    x &&& (size - 1) = x % size := by
  obtain ⟨k, rfl⟩ := h
  exact Nat.and_two_pow_sub_one_eq_mod x k

theorem WF.size_pos {q : OverwriteQueue α} (h : q.WF) : 0 < q.size := by
  have := h.cursor
  omega

theorem firstIndex_eq {q : OverwriteQueue α} (h : q.WF) :
    q.firstIndex = (q.writeCursor + q.size - q.pending) % q.size :=
  mask_eq_mod h.pow _

theorem firstIndex_lt {q : OverwriteQueue α} (h : q.WF) : q.firstIndex < q.size := by
  rw [firstIndex_eq h]
  exact Nat.mod_lt _ h.size_pos

/-- The window read at the unreduced position of the oldest item. -/
theorem contents_eq {q : OverwriteQueue α} (h : q.WF) :
    q.contents = Ring.view q.items q.size (q.writeCursor + q.size - q.pending) q.pending := by
  rw [contents, firstIndex_eq h, Ring.view_mod]

theorem length_contents (q : OverwriteQueue α) : q.contents.length = q.pending := by
  simp [contents]

/-- `roundSize` gives a power of two whenever the requested size fits below `2^31`. -/
theorem roundSize_pow {size : Nat} (h : size ≤ 2 ^ 31) : ∃ k, roundSize size = 2 ^ k := by
  unfold roundSize
  split
  · exact ⟨_, rfl⟩
  · rename_i hnone
    have := List.find?_eq_none.mp hnone 31 (by simp)
    simp at this
    omega

theorem wf_new {size : Nat} (h : size ≤ 2 ^ 31) (release : Bool) :
    (new size release : OverwriteQueue α).WF := by
  obtain ⟨k, hk⟩ := roundSize_pow h
  refine ⟨⟨k, hk⟩, ?_, Nat.zero_le _⟩
  show 0 < roundSize size
  rw [hk]
  exact Nat.two_pow_pos k

@[simp] theorem contents_new (size : Nat) (release : Bool) :
    (new size release : OverwriteQueue α).contents = [] := rfl

/-! ### `Put` -/

/-- The two `copy` calls store the batch from the cursor on, wrapping once. -/
theorem putItems_eq {q : OverwriteQueue α} (h : q.WF) {xs : List (Option α)}
    (hxs : xs.length ≤ q.size) :
    q.putItems xs = Ring.write q.items q.size q.writeCursor xs := by
  have hc := h.cursor
  unfold putItems
  rw [copyTo_eq _ _ _ _ (Nat.le_of_lt hc)]
  dsimp only
  split
  · -- The batch runs past the end of the slice: the rest goes to the front.
    rename_i hne
    set c := q.size - q.writeCursor with hcdef
    have hcp : min c xs.length = c := by omega
    have htake : (xs.take c).length = c := by simp; omega
    have hwrap : 0 % q.size = (q.writeCursor + (xs.take c).length) % q.size := by
      rw [htake, hcdef, Nat.add_sub_cancel' (Nat.le_of_lt hc), Nat.mod_self, Nat.zero_mod]
    have hrest : (xs.drop c).take q.size = xs.drop c :=
      List.take_of_length_le (by simp; omega)
    rw [hcp, copyTo_eq _ _ 0 _ (Nat.zero_le _), Nat.sub_zero, hrest, Ring.write_congr_mod _ hwrap,
      ← Ring.write_append, List.take_append_drop]
  · rw [List.take_of_length_le (by omega)]

theorem put_ok {q : OverwriteQueue α} {xs : List (Option α)} (hxs : xs.length ≤ q.size) :
    q.put xs = .ok ({ q with
        items := q.putItems xs
        pending := min (q.pending + xs.length) q.size
        writeCursor := (q.writeCursor + xs.length) &&& (q.size - 1) },
      q.released xs.length) := by
  simp [put, Nat.not_lt.mpr hxs]

theorem put_overflow {q : OverwriteQueue α} {xs : List (Option α)} (hxs : q.size < xs.length) :
    q.put xs = .error .overflow := by
  simp [put, hxs]

end OverwriteQueue

/-- Where a `Put` leaves the oldest item: `k` positions on, for the `k` items it
overwrites. -/
theorem put_firstIndex_mod {n W P m : Nat} (hn : 0 < n) (hP : P ≤ n) :
    ((W + m) % n + n - min (P + m) n) % n = ((W + n - P) % n + (P + m - n)) % n := by
  rw [Nat.mod_add_mod]
  obtain ⟨t, ht⟩ : ∃ t, W + m = (W + m) % n + t * n :=
    ⟨(W + m) / n, by rw [Nat.mul_comm]; exact (Nat.mod_add_div (W + m) n).symm⟩
  have hlt : (W + m) % n < n := Nat.mod_lt _ hn
  have key : W + n - P + (P + m - n) = ((W + m) % n + n - min (P + m) n) + t * n := by omega
  rw [key, Nat.add_mul_mod_self_right]

namespace OverwriteQueue

theorem put_eq_ok {q q' : OverwriteQueue α} {xs : List (Option α)} {rel : List α}
    (hput : q.put xs = .ok (q', rel)) :
    xs.length ≤ q.size ∧ rel = q.released xs.length ∧
      q' = { q with
        items := q.putItems xs
        pending := min (q.pending + xs.length) q.size
        writeCursor := (q.writeCursor + xs.length) &&& (q.size - 1) } := by
  by_cases hxs : xs.length ≤ q.size
  · rw [put_ok hxs] at hput
    cases hput
    exact ⟨hxs, rfl, rfl⟩
  · rw [put_overflow (Nat.lt_of_not_le hxs)] at hput
    cases hput

theorem wf_put {q q' : OverwriteQueue α} {xs : List (Option α)} {rel : List α} (h : q.WF)
    (hput : q.put xs = .ok (q', rel)) : q'.WF := by
  obtain ⟨-, -, rfl⟩ := put_eq_ok hput
  refine ⟨h.pow, ?_, Nat.min_le_right _ _⟩
  show (q.writeCursor + xs.length) &&& (q.size - 1) < q.size
  rw [mask_eq_mod h.pow]
  exact Nat.mod_lt _ h.size_pos

/-- **A `Put` keeps what the bounded queue keeps.** -/
theorem contents_put {q q' : OverwriteQueue α} {xs : List (Option α)} {rel : List α}
    (h : q.WF) (hput : q.put xs = .ok (q', rel)) :
    q'.contents = (Fifo.push q.size q.contents xs).1 := by
  obtain ⟨hxs, -, rfl⟩ := put_eq_ok hput
  have hP := h.pending
  have hf : q.firstIndex = (q.writeCursor + q.size - q.pending) % q.size := firstIndex_eq h
  have hend : q.writeCursor % q.size = (q.firstIndex + q.pending) % q.size := by
    rw [hf, Nat.mod_add_mod,
      show q.writeCursor + q.size - q.pending + q.pending = q.writeCursor + 1 * q.size by omega,
      Nat.add_mul_mod_self_right]
  have hstart : ((q.writeCursor + xs.length) % q.size + q.size - min (q.pending + xs.length) q.size)
      % q.size = (q.firstIndex + (q.pending + xs.length - q.size)) % q.size := by
    rw [hf]
    exact put_firstIndex_mod h.size_pos h.pending
  have hfirst : ((((q.writeCursor + xs.length) &&& (q.size - 1)) + q.size
      - min (q.pending + xs.length) q.size) &&& (q.size - 1))
      = ((q.writeCursor + xs.length) % q.size + q.size - min (q.pending + xs.length) q.size)
        % q.size := by
    rw [mask_eq_mod h.pow, mask_eq_mod h.pow]
  have hlen : min (q.pending + xs.length) q.size
      = q.pending + xs.length - (q.pending + xs.length - q.size) := by omega
  show Ring.view (q.putItems xs) q.size
      ((((q.writeCursor + xs.length) &&& (q.size - 1)) + q.size
        - min (q.pending + xs.length) q.size) &&& (q.size - 1))
      (min (q.pending + xs.length) q.size) = _
  calc Ring.view (q.putItems xs) q.size
        ((((q.writeCursor + xs.length) &&& (q.size - 1)) + q.size
          - min (q.pending + xs.length) q.size) &&& (q.size - 1))
        (min (q.pending + xs.length) q.size)
      = Ring.view (Ring.write q.items q.size (q.firstIndex + q.pending) xs) q.size
          (q.firstIndex + (q.pending + xs.length - q.size))
          (q.pending + xs.length - (q.pending + xs.length - q.size)) := by
        rw [putItems_eq h hxs, Ring.write_congr_mod _ hend, hfirst, hstart, Ring.view_mod, hlen]
    _ = (Fifo.push q.size q.contents xs).1 := Ring.view_write_overwrite _ hxs

end OverwriteQueue

/-! ### What `Put` releases -/

/-- `items[lo:hi]` inside the slice is the window of `hi - lo` slots from `lo`. -/
theorem slice_eq_view (items : Nat → α) {n lo hi : Nat} (hhi : hi ≤ n) :
    slice items lo hi = Ring.view items n lo (hi - lo) := by
  unfold slice Ring.view
  refine List.map_congr_left fun i hi' => ?_
  simp only [List.mem_range] at hi'
  rw [Nat.mod_eq_of_lt (by omega)]

/-- The release range counts the overwritten slots: read straight when the masked end
lies after the start, in two pieces when it wrapped, and wrongly only when all `n`
slots are overwritten and the masked end lands back on the start. -/
theorem release_range {n f r k : Nat} (hf : f < n) (hr : r ≤ n) (hk1 : 1 ≤ k) (hkn : k ≤ n)
    (hmod : (f + k) % n = r % n) (hne : ¬ (k = n ∧ r = f)) :
    (f ≤ r ∧ r - f = k) ∨ (r < f ∧ n - f + r = k) := by
  have hfk : (f + k) % n = if f + k < n then f + k else f + k - n := by
    split
    · exact Nat.mod_eq_of_lt ‹_›
    · rw [Nat.mod_eq_sub_mod (by omega), Nat.mod_eq_of_lt (by omega)]
  have hrm : r % n = if r < n then r else 0 := by
    split
    · exact Nat.mod_eq_of_lt ‹_›
    · rw [show r = n by omega, Nat.mod_self]
  rw [hfk, hrm] at hmod
  split at hmod <;> split at hmod <;> omega

namespace OverwriteQueue

theorem releaseOverwritten_append (xs ys : List (Option α)) :
    releaseOverwritten (xs ++ ys) = releaseOverwritten xs ++ releaseOverwritten ys :=
  List.filterMap_append

/-- Outside the one exception, `Put` releases the non-`nil` items among the `k`
oldest ones, `k` being how many the batch overwrites. -/
theorem released_eq {q : OverwriteQueue α} (h : q.WF) {m : Nat} (hm : m ≤ q.size)
    (hfull : ¬ (m = q.size ∧ q.pending = q.size ∧ q.writeCursor ≠ 0)) :
    q.released m = if q.release then
      releaseOverwritten (Ring.view q.items q.size q.firstIndex (q.pending + m - q.size))
    else [] := by
  have hf := firstIndex_lt h
  have hP := h.pending
  have hW := h.cursor
  unfold released
  by_cases hrel : q.release = true
  · by_cases hgt : m > q.size - q.pending
    · simp only [hrel, hgt, decide_true, Bool.and_self, if_true]
      set r := if q.writeCursor + m > q.size then (q.writeCursor + m) &&& (q.size - 1)
        else q.writeCursor + m with hr
      have hrle : r ≤ q.size := by
        rw [hr]; split
        · rw [mask_eq_mod h.pow]; exact Nat.le_of_lt (Nat.mod_lt _ h.size_pos)
        · omega
      have hrmod : r % q.size = (q.writeCursor + m) % q.size := by
        rw [hr]; split
        · rw [mask_eq_mod h.pow, Nat.mod_mod]
        · rfl
      have hmod : (q.firstIndex + (q.pending + m - q.size)) % q.size = r % q.size := by
        rw [hrmod, firstIndex_eq h, Nat.mod_add_mod,
          show q.writeCursor + q.size - q.pending + (q.pending + m - q.size) = q.writeCursor + m
            by omega]
      have hne : ¬ (q.pending + m - q.size = q.size ∧ r = q.firstIndex) := by
        rintro ⟨hk, hrf⟩
        have hmn : m = q.size := by omega
        have hPn : q.pending = q.size := by omega
        have hW0 : q.writeCursor = 0 := by
          by_contra hW0
          exact hfull ⟨hmn, hPn, hW0⟩
        rw [hr, firstIndex_eq h, hW0, hPn, hmn] at hrf
        simp at hrf
        have := h.size_pos
        omega
      rcases release_range hf hrle (by omega) (by omega) hmod hne with ⟨hle, hk⟩ | ⟨hlt, hk⟩
      · rw [if_pos hle, slice_eq_view _ hrle, hk]
      · rw [if_neg (by omega), slice_eq_view _ (Nat.le_refl _), slice_eq_view _ hrle,
          Nat.sub_zero, ← releaseOverwritten_append,
          ← Ring.view_mod q.items q.size 0,
          show 0 % q.size = (q.firstIndex + (q.size - q.firstIndex)) % q.size by
            rw [Nat.add_sub_cancel' (Nat.le_of_lt hf), Nat.mod_self, Nat.zero_mod],
          Ring.view_mod, ← Ring.view_add, hk]
    · have hz : q.pending + m - q.size = 0 := by omega
      simp [hrel, hgt, hz, releaseOverwritten]
  · simp [hrel]

/-- `Put` releases the overwritten items that are not `nil`, the exception aside. -/
theorem released_eq_dropped {q : OverwriteQueue α} (h : q.WF) {xs : List (Option α)}
    (hxs : xs.length ≤ q.size)
    (hfull : ¬ (xs.length = q.size ∧ q.pending = q.size ∧ q.writeCursor ≠ 0)) :
    q.released xs.length =
      if q.release then releaseOverwritten (Fifo.push q.size q.contents xs).2 else [] := by
  rw [released_eq h hxs hfull, contents, ← Ring.view_overwritten _ hxs]

/-- **The exception**: a batch of `size` items into a full queue whose cursor is not at
slot 0 releases nothing, although it overwrites every item. -/
theorem released_full_batch {q : OverwriteQueue α} (h : q.WF) (hP : q.pending = q.size)
    (hW : q.writeCursor ≠ 0) : q.released q.size = [] := by
  have hlt := h.cursor
  have hfirst : q.firstIndex = q.writeCursor := by
    rw [firstIndex_eq h, hP, Nat.add_sub_cancel, Nat.mod_eq_of_lt hlt]
  -- The masked end of the range comes back round to the cursor, which is the start.
  have hend : (if q.writeCursor + q.size > q.size then (q.writeCursor + q.size) &&& (q.size - 1)
      else q.writeCursor + q.size) = q.writeCursor := by
    rw [if_pos (by omega), mask_eq_mod h.pow, Nat.add_mod_right, Nat.mod_eq_of_lt hlt]
  unfold released
  simp only [hP, Nat.sub_self, hfirst, hend]
  split
  · simp [slice, releaseOverwritten]
  · rfl

/-- **A run that reaches the exception.**  A queue of size 2 with a release callback
takes `Put(1)` and then `Put(2, 3)`, which releases 1 and leaves the cursor on slot 1;
`Put(4, 5)` then overwrites 2 and 3, which the bounded queue drops, and releases
nothing. -/
theorem put_full_batch_releases_nothing :
    ∃ q₂ : OverwriteQueue Nat,
      ((new 2 true : OverwriteQueue Nat).put [some 1] >>= fun r => r.1.put [some 2, some 3])
        = .ok (q₂, [1]) ∧
      q₂.writeCursor = 1 ∧ q₂.contents = [some 2, some 3] ∧
      (Fifo.push 2 q₂.contents [some 4, some 5]).2 = [some 2, some 3] ∧
      (q₂.put [some 4, some 5]).map Prod.snd = .ok [] :=
  ⟨_, rfl, by decide, by decide, by decide, by decide⟩

/-- Whatever `Put` releases is among the non-`nil` items it overwrites, in order. -/
theorem released_sublist {q : OverwriteQueue α} (h : q.WF) {xs : List (Option α)}
    (hxs : xs.length ≤ q.size) :
    (q.released xs.length).Sublist (releaseOverwritten (Fifo.push q.size q.contents xs).2) := by
  by_cases hfull : xs.length = q.size ∧ q.pending = q.size ∧ q.writeCursor ≠ 0
  · obtain ⟨hlen, hP, hW⟩ := hfull
    rw [hlen, released_full_batch h hP hW]
    exact List.nil_sublist _
  · rw [released_eq_dropped h hxs hfull]
    split
    · exact List.Sublist.refl _
    · exact List.nil_sublist _

end OverwriteQueue

/-! ### `get` and `gets` -/

namespace OverwriteQueue

theorem firstIndex_after_read {q : OverwriteQueue α} (h : q.WF) {t : Nat} (ht : t ≤ q.pending) :
    (q.writeCursor + q.size - (q.pending - t)) % q.size = (q.firstIndex + t) % q.size := by
  have hP := h.pending
  rw [firstIndex_eq h, Nat.mod_add_mod]
  congr 1
  omega

/-- The slots of a window stay as they were when a batch is written over the `t`
slots just before it, `t` plus the window being at most the ring. -/
theorem view_write_before (buf : Nat → α) {n f t len : Nat} (xs : List α)
    (hxs : xs.length = t) (hfit : t + len ≤ n) :
    Ring.view (Ring.write buf n f xs) n (f + t) len = Ring.view buf n (f + t) len := by
  refine Ring.view_congr fun i hi => Ring.write_apply_of_ne fun j hj => ?_
  exact Ring.mod_ne_of_lt (by omega) (by omega)

/-- **`get` hands out the oldest item** and leaves the rest. -/
theorem get_spec {q : OverwriteQueue α} (h : q.WF) (hP : 0 < q.pending) :
    q.contents = q.get.1 :: q.get.2.contents ∧ q.get.2.WF := by
  have hf := firstIndex_lt h
  refine ⟨?_, ⟨h.pow, h.cursor, by have := h.pending; show q.pending - 1 ≤ q.size; omega⟩⟩
  have hrest : q.get.2.contents
      = Ring.view (Function.update q.items q.firstIndex none) q.size (q.firstIndex + 1)
          (q.pending - 1) := by
    show Ring.view (Function.update q.items q.firstIndex none) q.size
      ((q.writeCursor + q.size - (q.pending - 1)) &&& (q.size - 1)) (q.pending - 1) = _
    rw [mask_eq_mod h.pow, firstIndex_after_read h hP, Ring.view_mod]
  rw [hrest, contents, show q.pending = (q.pending - 1) + 1 by omega, Ring.view_succ_cons,
    Nat.mod_eq_of_lt hf, Nat.add_sub_cancel]
  congr 1
  refine Ring.view_congr fun i hi => ?_
  rw [Function.update_of_ne]
  have := h.pending
  exact fun hc => Ring.mod_ne_of_lt (n := q.size) (a := q.firstIndex)
    (b := q.firstIndex + 1 + i) (by omega) (by omega) (by rw [Nat.mod_eq_of_lt hf]; exact hc.symm)

/-- `gets` copies out the `min n pending` oldest items, wrapping once, and clears them. -/
theorem gets_eq {q : OverwriteQueue α} (h : q.WF) (c : Nat) :
    q.gets c = (Ring.view q.items q.size q.firstIndex (min c q.pending),
      { q with
        items := Ring.write q.items q.size q.firstIndex (List.replicate (min c q.pending) none)
        pending := q.pending - min c q.pending }) := by
  have hf := firstIndex_lt h
  have hP := h.pending
  set t := min c q.pending with ht
  set f := q.firstIndex with hfdef
  set copied := min t (q.size - f) with hcopied
  have hfirst : copyTo q.items q.size f (List.replicate copied none)
      = (Ring.write q.items q.size f (List.replicate copied none), copied) := by
    rw [copyTo_eq _ _ _ _ (Nat.le_of_lt hf), List.take_of_length_le (by simp; omega)]
    simp only [List.length_replicate, Prod.mk.injEq, true_and]
    omega
  have hout : slice q.items f (f + copied) = Ring.view q.items q.size f copied := by
    rw [slice_eq_view (n := q.size) _ (by omega), Nat.add_sub_cancel_left]
  unfold gets
  simp only [← ht, ← hfdef, ← hcopied, hfirst, hout]
  split
  · -- The rest wraps round to the front of the slice.
    rename_i hne
    have hc : copied = q.size - f := by omega
    have hc' : min (t - copied) q.size = t - copied := by omega
    have hwrap : 0 % q.size = (f + copied) % q.size := by
      rw [hc, Nat.add_sub_cancel' (Nat.le_of_lt hf), Nat.mod_self, Nat.zero_mod]
    have hread : slice (Ring.write q.items q.size f (List.replicate copied none)) 0 (t - copied)
        = Ring.view q.items q.size (f + copied) (t - copied) := by
      rw [slice_eq_view (n := q.size) _ (by omega), Nat.sub_zero, ← Ring.view_mod _ _ 0, hwrap,
        Ring.view_mod, view_write_before _ _ (List.length_replicate ..) (by omega)]
    rw [hc', hread, ← Ring.view_add, Nat.add_sub_cancel' (by omega),
      copyTo_eq _ _ _ _ (Nat.zero_le _), List.take_of_length_le (by simp; omega),
      Ring.write_congr_mod _ (show 0 % q.size = (f + (List.replicate copied none).length) % q.size
        by simpa using hwrap), ← Ring.write_append, List.replicate_append_replicate,
      Nat.add_sub_cancel' (by omega)]
  · rename_i heq
    simp only [Decidable.not_not] at heq
    rw [heq]

/-- **`gets` hands out the oldest `n` items**, or all of them, and leaves the rest. -/
theorem gets_spec {q : OverwriteQueue α} (h : q.WF) (c : Nat) :
    (q.gets c).1 = q.contents.take c ∧ (q.gets c).2.contents = q.contents.drop c ∧
      (q.gets c).2.WF := by
  have hP := h.pending
  have hmin : min c q.pending ≤ q.pending := Nat.min_le_right _ _
  rw [gets_eq h]
  refine ⟨?_, ?_, ⟨h.pow, h.cursor, show q.pending - min c q.pending ≤ q.size by omega⟩⟩
  · rw [contents, List.take_eq_take_min, Ring.length_view, Ring.take_view _ _ _ _ _ hmin]
  · show Ring.view (Ring.write q.items q.size q.firstIndex (List.replicate (min c q.pending) none))
      q.size ((q.writeCursor + q.size - (q.pending - min c q.pending)) &&& (q.size - 1))
      (q.pending - min c q.pending) = _
    rw [mask_eq_mod h.pow, firstIndex_after_read h hmin, Ring.view_mod,
      view_write_before _ _ (List.length_replicate ..) (by omega), contents,
      List.drop_eq_drop_min, Ring.length_view, Ring.drop_view]

end OverwriteQueue

end Sophon.Server
