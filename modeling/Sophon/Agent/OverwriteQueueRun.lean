/-
Runs of the agent's `OverwriteQueue` against the bounded queue.

A sequential client sends messages, one or a batch at a time, and receives them
one, `n` or a vector's capacity at a time.  The abstract side is `Fifo`: a send
appends the batch and drops the oldest messages beyond `size`, a receive takes
messages from the front.  `Moves` is what one call must do against the bounded
queue's answer: keep the queue well formed, hold and read what the bounded queue
holds and reads, and account for every message, which is received, dropped or
still held, once.  `call_moves` is the step; `run_spec` carries it along a run,
and `withCapacity_run` starts from a new queue and ends with its `Drop`.
-/
import Sophon.Agent.OverwriteQueueSpec

namespace Sophon.Agent

variable {α : Type}

namespace Call

/-- The bounded queue's answer to one call: the queue afterwards and the messages read. -/
def fifo (cap : Nat) (Q : List α) : Call α → List α × List α
  | .send msg => ((Fifo.push cap Q [msg]).1, [])
  | .sendAll msgs => if msgs.length ≤ cap then ((Fifo.push cap Q msgs).1, []) else (Q, [])
  | .recv => ((Fifo.pop 1 Q).2, (Fifo.pop 1 Q).1)
  | .recvN n => ((Fifo.pop n Q).2, (Fifo.pop n Q).1)
  | .recvAll capacity => ((Fifo.pop capacity Q).2, (Fifo.pop capacity Q).1)

/-- The messages the bounded queue reads along a run of calls. -/
def fifoReads (cap : Nat) (Q : List α) : List (Call α) → List α
  | [] => []
  | c :: cs => (fifo cap Q c).2 ++ fifoReads cap (fifo cap Q c).1 cs

end Call

namespace OverwriteQueue

/-- A call that left `t` did what the bounded queue does when it goes to `Q'` and
reads `read`, and lost or made up no message. -/
structure Moves (q : OverwriteQueue α) (t : Trace α) (Q' read : List α) : Prop where
  wf : t.queue.WF
  size_eq : t.queue.size = q.size
  contents_eq : t.queue.contents = Q'.map some
  received_eq : t.received = read.map some
  conserve : t.received ++ t.dropped ++ t.queue.contents = q.contents ++ t.movedIn.map some

section Calls

variable {q : OverwriteQueue α} {Q : List α}

/-- A call that fails changes nothing. -/
theorem moves_unchanged (h : q.WF) (hQ : q.contents = Q.map some) : Moves q ⟨q, [], [], []⟩ Q [] :=
  ⟨h, rfl, hQ, rfl, by simp⟩

theorem sent_ok (h : q.WF) (hQ : q.contents = Q.map some) {msgs : List α}
    (hc : msgs.length ≤ q.size) :
    Moves q (q.sent msgs (q.rawSend msgs)) (Fifo.push q.size Q msgs).1 [] := by
  obtain ⟨q', hsend, hwf, hsize, hcont⟩ := rawSend_spec h hc
  rw [hsend]
  refine ⟨hwf, hsize, ?_, rfl, ?_⟩
  · show q'.contents = _
    rw [hcont, hQ, Fifo.push_map]
  · show [] ++ (Fifo.push q.size q.contents (msgs.map some)).2 ++ q'.contents =
      q.contents ++ msgs.map some
    rw [List.nil_append, hcont, Fifo.push_conserve]

theorem received_ok (h : q.WF) (hQ : q.contents = Q.map some) (n : Nat) :
    Moves q (q.received (q.rawRecvTimeout n)) (Fifo.pop n Q).2 (Fifo.pop n Q).1 := by
  by_cases hp : q.pending = 0
  · -- an empty queue: the wait times out
    have hQ0 : Q = [] := by
      have := congrArg List.length hQ
      rw [length_contents, hp, List.length_map] at this
      exact List.eq_nil_of_length_eq_zero this.symm
    have hpop : Fifo.pop n ([] : List α) = ([], []) := by simp [Fifo.pop]
    rw [rawRecvTimeout_empty h hp, hQ0, hpop]
    exact moves_unchanged h (hQ0 ▸ hQ)
  · obtain ⟨q', hrecv, hwf, hsize, hcont⟩ := rawRecvTimeout_spec h hp n
    have hpop := Fifo.pop_map some n Q
    rw [← hQ] at hpop
    rw [hrecv]
    refine ⟨hwf, hsize, ?_, ?_, ?_⟩
    · show q'.contents = _
      rw [hcont, hpop]
    · show (Fifo.pop n q.contents).1 = _
      rw [hpop]
    · show (Fifo.pop n q.contents).1 ++ [] ++ q'.contents = q.contents ++ []
      rw [List.append_nil, List.append_nil, hcont, Fifo.pop_conserve]

/-- **One call moves the queue as the bounded queue moves.** -/
theorem call_moves (h : q.WF) (hQ : q.contents = Q.map some) :
    ∀ c : Call α, Moves q (q.call c) (Call.fifo q.size Q c).1 (Call.fifo q.size Q c).2
  | .send msg => sent_ok h hQ (Nat.succ_le_of_lt h.size_pos)
  | .sendAll msgs => by
      show Moves q (q.sent msgs (q.rawSend msgs)) _ _
      by_cases hc : msgs.length ≤ q.size
      · simp only [Call.fifo, if_pos hc]
        exact sent_ok h hQ hc
      · -- a batch larger than the queue is left with the caller
        simp only [Call.fifo, if_neg hc]
        rw [rawSend_batchTooLarge h (Nat.lt_of_not_le hc)]
        exact moves_unchanged h hQ
  | .recv => received_ok h hQ 1
  | .recvN n => by
      show Moves q (q.received (q.recvN n)) _ _
      unfold recvN
      split
      · exact received_ok h hQ n
      · -- `recv_n(0)` fails its assertion, and reading nothing is what `pop 0` does
        rename_i hn
        rw [show n = 0 by omega]
        exact moves_unchanged h hQ
  | .recvAll capacity => received_ok h hQ capacity

end Calls

/-- `Drop` drops exactly what the queue holds. -/
theorem drop_eq {q : OverwriteQueue α} (h : q.WF) : q.drop = .ok q.contents := by
  unfold drop
  simp only [h.unwrap_eq, Nat.add_sub_cancel_left, h.pending_le, not_true_eq_false, if_false]
  rw [contents, Ring.view, List.range'_eq_map_range, List.map_map]
  refine congrArg _ (List.map_congr_left fun i _ => ?_)
  simp only [Function.comp_apply, h.mask]

/-- **Along every run the queue reads what the bounded queue reads**, and every
message moved in is received, dropped or still held, once. -/
theorem run_spec {q : OverwriteQueue α} (h : q.WF) {Q : List α} (hQ : q.contents = Q.map some)
    (cs : List (Call α)) :
    (q.run cs).queue.WF ∧ (q.run cs).queue.size = q.size ∧
      (q.run cs).received = (Call.fifoReads q.size Q cs).map some ∧
      ((q.run cs).received ++ (q.run cs).dropped ++ (q.run cs).queue.contents).Perm
        (q.contents ++ (q.run cs).movedIn.map some) := by
  induction cs generalizing q Q with
  | nil => exact ⟨h, rfl, rfl, by simp [run]⟩
  | cons c cs ih =>
      have hc := call_moves h hQ c
      obtain ⟨hwf, hsize, hread, hperm⟩ := ih hc.wf hc.contents_eq
      refine ⟨hwf, hsize.trans hc.size_eq, ?_, ?_⟩
      · show (q.call c).received ++ (run (q.call c).queue cs).received = _
        rw [hread, hc.received_eq, hc.size_eq, Call.fifoReads, List.map_append]
      · show (((q.call c).received ++ (run (q.call c).queue cs).received) ++
          ((q.call c).dropped ++ (run (q.call c).queue cs).dropped) ++
            (run (q.call c).queue cs).queue.contents).Perm
          (q.contents ++ ((q.call c).movedIn ++ (run (q.call c).queue cs).movedIn).map some)
        set A := (q.call c).received
        set C := (q.call c).dropped
        set R := run (q.call c).queue cs
        calc (A ++ R.received) ++ (C ++ R.dropped) ++ R.queue.contents
            = A ++ (R.received ++ C) ++ (R.dropped ++ R.queue.contents) := by
              simp only [List.append_assoc]
          List.Perm _ (A ++ (C ++ R.received) ++ (R.dropped ++ R.queue.contents)) :=
              (List.perm_append_comm.append_left A).append_right _
          _ = A ++ C ++ (R.received ++ R.dropped ++ R.queue.contents) := by
              simp only [List.append_assoc]
          List.Perm _ (A ++ C ++ ((q.call c).queue.contents ++ R.movedIn.map some)) :=
              hperm.append_left _
          _ = q.contents ++ ((q.call c).movedIn ++ R.movedIn).map some := by
              rw [← List.append_assoc, hc.conserve, List.map_append, List.append_assoc]

theorem wf_withCapacity (size : Nat) : (OverwriteQueue.withCapacity size : OverwriteQueue α).WF := by
  obtain ⟨k, hk⟩ := nextPowerOfTwo_pow size
  have hpos : 0 < nextPowerOfTwo size := by rw [hk]; exact Nat.two_pow_pos k
  refine ⟨⟨k, hk⟩, ?_, ?_, ?_, rfl⟩
  · show 0 < 2 * nextPowerOfTwo size
    omega
  · show 0 < 2 * nextPowerOfTwo size
    omega
  · show (0 + 2 * nextPowerOfTwo size - 0) % (2 * nextPowerOfTwo size) ≤ nextPowerOfTwo size
    rw [Nat.zero_add, Nat.sub_zero, Nat.mod_self]
    exact Nat.zero_le _

@[simp] theorem contents_withCapacity (size : Nat) :
    (OverwriteQueue.withCapacity size : OverwriteQueue α).contents = [] := by
  simp [contents, pending, withCapacity]

end OverwriteQueue

/-- **A queue of `size.next_power_of_two()` slots is the bounded queue of that
capacity, and loses and duplicates no message.**  Along any run of sends and
receives from a new queue, the messages received are those the bounded queue
reads, the cursors stay below `2 * size` with at most `size` messages between them,
and `Drop` then drops a list such that the received, the overwritten and the
dropped messages are, together, the messages moved in, each once. -/
theorem withCapacity_run (size : Nat) (cs : List (Call α)) :
    let t := (OverwriteQueue.withCapacity size : OverwriteQueue α).run cs
    t.received = (Call.fifoReads (nextPowerOfTwo size) [] cs).map some ∧
      t.queue.size = nextPowerOfTwo size ∧
      t.queue.start < 2 * t.queue.size ∧ t.queue.«end» < 2 * t.queue.size ∧
      t.queue.pending ≤ t.queue.size ∧
      ∃ left, t.queue.drop = .ok left ∧
        (t.received ++ t.dropped ++ left).Perm (t.movedIn.map some) := by
  intro t
  obtain ⟨hwf, hsize, hread, hperm⟩ :=
    OverwriteQueue.run_spec (OverwriteQueue.wf_withCapacity size) (Q := [])
      (OverwriteQueue.contents_withCapacity size) cs
  refine ⟨hread, hsize, hwf.start_lt, hwf.end_lt, hwf.pending_le, _,
    OverwriteQueue.drop_eq hwf, ?_⟩
  rw [OverwriteQueue.contents_withCapacity, List.nil_append] at hperm
  exact hperm

end Sophon.Agent
