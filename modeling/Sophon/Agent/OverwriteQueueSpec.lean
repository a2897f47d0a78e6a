/-
What the agent's `OverwriteQueue` holds, and that each call moves it as the
bounded queue `Fifo` does.

A queue holds the `pending` slots from `start` on, `pending` being `end - start`
modulo `2 * size`.  Unwrapped, `end` is `start + pending`, the position `raw_send`
writes first, and `start` moves past the `pending + count - size` oldest
messages: `Ring.view_write_overwrite` and `Ring.view_overwritten` then say that a
send keeps what `Fifo.push` keeps and drops what it drops.  A receive copies out
from `start` and moves it on, which is `Fifo.pop`.  Both are computed in closed
form first (`rawSend_eq`, `rawRecvTimeout_eq`), with the two-piece copies read as
one write or one read of the ring (`copyIn_eq`, `copyOut_eq`).
-/
import Sophon.Agent.OverwriteQueue

namespace Sophon.Agent

variable {α : Type}

theorem nextPowerOfTwo_pow (n : Nat) : ∃ k, nextPowerOfTwo n = 2 ^ k := by
  unfold nextPowerOfTwo
  split
  · exact ⟨0, rfl⟩
  · exact ⟨_, rfl⟩

/-- The size is rounded up. -/
theorem le_nextPowerOfTwo (n : Nat) : n ≤ nextPowerOfTwo n := by
  unfold nextPowerOfTwo
  split
  · omega
  · have := Nat.lt_log2_self (n := n - 1)
    omega

namespace OverwriteQueue

/-! ### The copies -/

/-- A copy that stays inside the buffer is a write of the ring. -/
theorem copyFromNonoverlapping_eq {n : Nat} (xs : List α) :
    ∀ (buf : Nat → Option α) (off : Nat), off + xs.length ≤ n →
      copyFromNonoverlapping buf off xs = Ring.write buf n off (xs.map some) := by
  induction xs with
  | nil => intro buf off _; rfl
  | cons x xs ih =>
      intro buf off hfit
      simp only [List.length_cons] at hfit
      rw [copyFromNonoverlapping, ih _ _ (by omega), List.map_cons, Ring.write_cons,
        Nat.mod_eq_of_lt (by omega)]

/-- `raw_send`'s copy: the batch from slot `off` on, wrapping to slot 0 once. -/
theorem copyIn_eq (buf : Nat → Option α) {n off : Nat} (hoff : off < n) {xs : List α}
    (hxs : xs.length ≤ n) :
    (if n - off ≥ xs.length then copyFromNonoverlapping buf off xs
      else copyFromNonoverlapping (copyFromNonoverlapping buf off (xs.take (n - off))) 0
        (xs.drop (n - off))) = Ring.write buf n off (xs.map some) := by
  split
  · exact copyFromNonoverlapping_eq xs buf off (by omega)
  · -- the batch runs past the last slot: the rest goes to the front
    rename_i hlt
    have htake : ((xs.take (n - off)).map some).length = n - off := by simp; omega
    have hwrap : 0 % n = (off + ((xs.take (n - off)).map some).length) % n := by
      rw [htake, Nat.add_sub_cancel' (Nat.le_of_lt hoff), Nat.mod_self, Nat.zero_mod]
    rw [copyFromNonoverlapping_eq (n := n) _ buf off (by simp; omega),
      copyFromNonoverlapping_eq (n := n) _ _ 0 (by simp; omega), Ring.write_congr_mod _ hwrap,
      ← Ring.write_append, ← List.map_append, List.take_append_drop]

/-- A copy out that stays inside the buffer is a read of the ring. -/
theorem copyToNonoverlapping_eq (buf : Nat → Option α) {n off r : Nat} (h : off + r ≤ n) :
    copyToNonoverlapping buf off r = Ring.view buf n off r := by
  refine List.map_congr_left fun i hi => ?_
  rw [List.mem_range] at hi
  rw [Nat.mod_eq_of_lt (by omega)]

/-- `raw_recv_timeout`'s copy: `r` cells from slot `off` on, wrapping to slot 0 once. -/
theorem copyOut_eq (buf : Nat → Option α) {n off r : Nat} (hoff : off < n) (hr : r ≤ n) :
    (if n - off ≥ r then copyToNonoverlapping buf off r
      else copyToNonoverlapping buf off (n - off) ++ copyToNonoverlapping buf 0 (r - (n - off)))
      = Ring.view buf n off r := by
  split
  · exact copyToNonoverlapping_eq buf (by omega)
  · rename_i hlt
    have h0 : Ring.view buf n 0 (r - (n - off)) = Ring.view buf n (off + (n - off)) (r - (n - off)) := by
      rw [← Ring.view_mod buf n (off + (n - off)), Nat.add_sub_cancel' (Nat.le_of_lt hoff),
        Nat.mod_self]
    rw [copyToNonoverlapping_eq buf (n := n) (by omega), copyToNonoverlapping_eq buf (n := n) (by omega),
      h0, ← Ring.view_add, Nat.add_sub_cancel' (by omega)]

/-- The overwrite step of `raw_send`, for `pending = p` and a batch of `c`: the new
`start` and the cells dropped. -/
theorem overwrite_eq (buf : Nat → Option α) {N s p c : Nat} (hpow : ∃ k, N = 2 ^ k)
    (hs : s < 2 * N) (hp : p ≤ N) (hc : c ≤ N) :
    (if p + c > N then
        if N - p < c then
          ((s + (c - (N - p))) &&& (2 * N - 1),
            (List.range (c - (N - p))).map fun i => buf ((s + i) &&& (N - 1)))
        else (s, [])
      else (s, [])) = ((s + (p + c - N)) % (2 * N), Ring.view buf N s (p + c - N)) := by
  obtain ⟨k, rfl⟩ := hpow
  have hmask : ∀ x, x &&& (2 * 2 ^ k - 1) = x % (2 * 2 ^ k) := fun x => by
    rw [← Nat.pow_succ']
    exact Nat.and_two_pow_sub_one_eq_mod x (k + 1)
  split_ifs with hfull hfree
  · rw [hmask, show c - (2 ^ k - p) = p + c - 2 ^ k by omega]
    simp only [Nat.and_two_pow_sub_one_eq_mod, Ring.view]
  · omega
  · rw [show p + c - 2 ^ k = 0 by omega, Nat.add_zero, Nat.mod_eq_of_lt hs, Ring.view_zero]

/-! ### The shape every queue keeps -/

/-- The number of messages between the cursors: `end - start` modulo `2 * size`. -/
def pending (q : OverwriteQueue α) : Nat := (q.«end» + 2 * q.size - q.start) % (2 * q.size)

/-- What a queue holds, oldest first. -/
def contents (q : OverwriteQueue α) : List (Option α) :=
  Ring.view q.buffer q.size q.start q.pending

/-- A power-of-two `size`, both cursors below `2 * size` and at most `size` messages
between them, on a queue that is not terminated. -/
structure WF (q : OverwriteQueue α) : Prop where
  pow : ∃ k, q.size = 2 ^ k
  start_lt : q.start < 2 * q.size
  end_lt : q.«end» < 2 * q.size
  pending_le : q.pending ≤ q.size
  live : q.terminated = false

variable {q : OverwriteQueue α}

@[simp] theorem length_contents (q : OverwriteQueue α) : q.contents.length = q.pending := by
  simp [contents]

theorem WF.size_pos (h : q.WF) : 0 < q.size := by
  obtain ⟨k, hk⟩ := h.pow
  rw [hk]
  exact Nat.two_pow_pos k

theorem WF.mask (h : q.WF) (x : Nat) : x &&& (q.size - 1) = x % q.size := by
  obtain ⟨k, hk⟩ := h.pow
  rw [hk]
  exact Nat.and_two_pow_sub_one_eq_mod x k

theorem WF.mask2 (h : q.WF) (x : Nat) : x &&& (2 * q.size - 1) = x % (2 * q.size) := by
  obtain ⟨k, hk⟩ := h.pow
  rw [hk, ← Nat.pow_succ']
  exact Nat.and_two_pow_sub_one_eq_mod x (k + 1)

/-- Unwrapped, `end` is `pending` slots past `start`. -/
theorem WF.unwrap_eq (h : q.WF) : q.unwrap q.start q.«end» = q.start + q.pending := by
  have hs := h.start_lt
  have he := h.end_lt
  unfold unwrap pending
  split
  · rw [Nat.mod_eq_of_lt (by omega)]
    omega
  · rw [show q.«end» + 2 * q.size - q.start = q.«end» - q.start + 2 * q.size by omega,
      Nat.add_mod_right, Nat.mod_eq_of_lt (by omega)]
    omega

/-- The stored `end` is the unwrapped one modulo `2 * size`. -/
theorem WF.end_eq (h : q.WF) : q.«end» = (q.start + q.pending) % (2 * q.size) := by
  rw [← h.unwrap_eq]
  unfold unwrap
  split
  · rw [Nat.add_mod_right, Nat.mod_eq_of_lt h.end_lt]
  · rw [Nat.mod_eq_of_lt h.end_lt]

/-- Cursors `d` apart are still `d` apart when both are reduced modulo `M`. -/
theorem sub_mod_of_mod {M a b d : Nat} (hb : b < M) (hd : d < M) (h : a = (b + d) % M) :
    (a + M - b) % M = d := by
  rcases Nat.lt_or_ge (b + d) M with hlt | hge
  · rw [h, Nat.mod_eq_of_lt hlt, show b + d + M - b = d + M by omega, Nat.add_mod_right,
      Nat.mod_eq_of_lt hd]
  · have h1 : (b + d) % M = b + d - M := by
      rw [Nat.mod_eq_sub_mod hge, Nat.mod_eq_of_lt (by omega)]
    rw [h, h1, show b + d - M + M - b = d by omega, Nat.mod_eq_of_lt hd]

/-- A reader starting at a cursor reduced modulo `2 * size` sees the same cells. -/
theorem view_mod_two (buf : Nat → Option α) (N x len : Nat) :
    Ring.view buf N (x % (2 * N)) len = Ring.view buf N x len := by
  rw [← Ring.view_mod, Nat.mod_mod_of_dvd _ (Nat.dvd_mul_left N 2), Ring.view_mod]

/-! ### `raw_send` -/

/-- What `raw_send` computes for a batch no larger than the queue. -/
theorem rawSend_eq (h : q.WF) {msgs : List α} (hc : msgs.length ≤ q.size) :
    q.rawSend msgs = .ok ({ q with
        buffer := Ring.write q.buffer q.size (q.start + q.pending) (msgs.map some)
        start := (q.start + (q.pending + msgs.length - q.size)) % (2 * q.size)
        «end» := (q.start + q.pending + msgs.length) % (2 * q.size) },
      Ring.view q.buffer q.size q.start (q.pending + msgs.length - q.size)) := by
  have hoff : q.«end» &&& (q.size - 1) < q.size := by
    rw [h.mask]
    exact Nat.mod_lt _ h.size_pos
  have hslot : (q.«end» &&& (q.size - 1)) % q.size = (q.start + q.pending) % q.size := by
    rw [h.mask, Nat.mod_mod, h.end_eq, Nat.mod_mod_of_dvd _ (Nat.dvd_mul_left _ 2)]
  have hend : (q.«end» + msgs.length) % (2 * q.size) =
      (q.start + q.pending + msgs.length) % (2 * q.size) := by
    rw [h.end_eq, Nat.mod_add_mod]
  unfold rawSend
  simp only [h.live, Bool.false_eq_true, if_false, if_neg (Nat.not_lt.mpr hc), h.unwrap_eq,
    Nat.add_sub_cancel_left, h.pending_le, not_true_eq_false]
  rw [overwrite_eq q.buffer h.pow h.start_lt h.pending_le hc, copyIn_eq q.buffer hoff hc,
    Ring.write_congr_mod _ hslot, h.mask2, hend]

theorem rawSend_batchTooLarge (h : q.WF) {msgs : List α} (hc : q.size < msgs.length) :
    q.rawSend msgs = .error .batchTooLarge := by
  unfold rawSend
  simp only [h.live, Bool.false_eq_true, if_false, if_pos hc]

/-- **A send is `Fifo.push`**: the queue keeps what the bounded queue keeps and drops
what it drops. -/
theorem rawSend_spec (h : q.WF) {msgs : List α} (hc : msgs.length ≤ q.size) :
    ∃ q', q.rawSend msgs = .ok (q', (Fifo.push q.size q.contents (msgs.map some)).2) ∧
      q'.WF ∧ q'.size = q.size ∧ q'.contents = (Fifo.push q.size q.contents (msgs.map some)).1 := by
  have hp := h.pending_le
  have hM : 0 < 2 * q.size := by have := h.size_pos; omega
  set t := q.pending + msgs.length - q.size with ht
  have hpend : ((q.start + q.pending + msgs.length) % (2 * q.size) + 2 * q.size -
      (q.start + t) % (2 * q.size)) % (2 * q.size) = q.pending + msgs.length - t := by
    refine sub_mod_of_mod (Nat.mod_lt _ hM) (by omega) ?_
    rw [Nat.mod_add_mod]
    congr 1
    omega
  have hdropped : Ring.view q.buffer q.size q.start t =
      (Fifo.push q.size q.contents (msgs.map some)).2 := by
    rw [contents, ← Ring.view_overwritten _ (by simpa using hc), List.length_map]
  refine ⟨{ q with
      buffer := Ring.write q.buffer q.size (q.start + q.pending) (msgs.map some)
      start := (q.start + t) % (2 * q.size)
      «end» := (q.start + q.pending + msgs.length) % (2 * q.size) }, ?_,
    ⟨h.pow, Nat.mod_lt _ hM, Nat.mod_lt _ hM, ?_, h.live⟩, rfl, ?_⟩
  · rw [rawSend_eq h hc, hdropped]
  · show ((q.start + q.pending + msgs.length) % (2 * q.size) + 2 * q.size -
      (q.start + t) % (2 * q.size)) % (2 * q.size) ≤ q.size
    rw [hpend]
    omega
  · show Ring.view (Ring.write q.buffer q.size (q.start + q.pending) (msgs.map some)) q.size
      ((q.start + t) % (2 * q.size))
      (((q.start + q.pending + msgs.length) % (2 * q.size) + 2 * q.size -
        (q.start + t) % (2 * q.size)) % (2 * q.size)) = _
    rw [hpend, view_mod_two, contents, ← Ring.view_write_overwrite _ (by simpa using hc)]
    simp [ht]

/-! ### `raw_recv_timeout` -/

/-- What `raw_recv_timeout` computes on a queue that holds something. -/
theorem rawRecvTimeout_eq (h : q.WF) (hne : q.pending ≠ 0) (n : Nat) :
    q.rawRecvTimeout n = .ok (Ring.view q.buffer q.size q.start (min q.pending n),
      { q with start := (q.start + min q.pending n) % (2 * q.size) }) := by
  have hse : q.start ≠ q.«end» := by
    intro hse
    have := h.unwrap_eq
    unfold unwrap at this
    rw [if_neg (by omega), ← hse] at this
    omega
  have hoff : q.start &&& (q.size - 1) < q.size := by
    rw [h.mask]
    exact Nat.mod_lt _ h.size_pos
  have hr : min q.pending n ≤ q.size := Nat.le_trans (Nat.min_le_left _ _) h.pending_le
  unfold rawRecvTimeout
  simp only [if_neg hse, h.unwrap_eq, Nat.add_sub_cancel_left, h.pending_le, not_true_eq_false,
    if_false]
  rw [copyOut_eq q.buffer hoff hr, h.mask, Ring.view_mod, h.mask2]

theorem rawRecvTimeout_empty (h : q.WF) (he : q.pending = 0) (n : Nat) :
    q.rawRecvTimeout n = .error .timeout := by
  have hse : q.start = q.«end» := by
    have := h.end_eq
    rw [he, Nat.add_zero, Nat.mod_eq_of_lt h.start_lt] at this
    exact this.symm
  unfold rawRecvTimeout
  simp only [if_pos hse, h.live, Bool.false_eq_true, if_false]

/-- **A receive is `Fifo.pop`**, and on an empty queue it reads nothing. -/
theorem rawRecvTimeout_spec (h : q.WF) (hne : q.pending ≠ 0) (n : Nat) :
    ∃ q', q.rawRecvTimeout n = .ok ((Fifo.pop n q.contents).1, q') ∧
      q'.WF ∧ q'.size = q.size ∧ q'.contents = (Fifo.pop n q.contents).2 := by
  have hp := h.pending_le
  have hM : 0 < 2 * q.size := by have := h.size_pos; omega
  set r := min q.pending n with hr
  have hpend : (q.«end» + 2 * q.size - (q.start + r) % (2 * q.size)) % (2 * q.size) =
      q.pending - r := by
    refine sub_mod_of_mod (Nat.mod_lt _ hM) (by omega) ?_
    rw [Nat.mod_add_mod, h.end_eq]
    congr 1
    omega
  have hread : (Fifo.pop n q.contents).1 = Ring.view q.buffer q.size q.start r := by
    rw [Fifo.pop_read, contents, Ring.take_view_min]
  have hrest : (Fifo.pop n q.contents).2 =
      Ring.view q.buffer q.size (q.start + r) (q.pending - r) := by
    rw [Fifo.pop_rest, contents, Ring.drop_view_min]
  refine ⟨{ q with start := (q.start + r) % (2 * q.size) }, hread ▸ rawRecvTimeout_eq h hne n,
    ⟨h.pow, Nat.mod_lt _ hM, h.end_lt, ?_, h.live⟩, rfl, ?_⟩
  · show (q.«end» + 2 * q.size - (q.start + r) % (2 * q.size)) % (2 * q.size) ≤ q.size
    rw [hpend]
    omega
  · show Ring.view q.buffer q.size ((q.start + r) % (2 * q.size))
      ((q.«end» + 2 * q.size - (q.start + r) % (2 * q.size)) % (2 * q.size)) = _
    rw [hpend, view_mod_two, hrest]

end OverwriteQueue

end Sophon.Agent
