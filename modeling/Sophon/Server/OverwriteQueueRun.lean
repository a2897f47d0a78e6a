/-
Runs of the server's `OverwriteQueue` against the bounded queue.

A sequential client makes `Put`, `Get` and `Gets` calls; `Get` and `Gets` do not
block when the queue holds something, and the client only calls `Get` then.  The
abstract side is `Fifo`: a batch is appended and the oldest entries beyond `size`
dropped, a read takes entries from the front.

`run_reads` is the refinement: along every such run the queue hands out exactly
what the bounded queue hands out (`Call.fifo`).  The invariant carried by the induction is
`WF` together with `contents` being the abstract queue; `call_spec` is the step.

What `Put` releases follows the dropped entries call by call
(`OverwriteQueue.released_eq_dropped`), with one exception, and
`put_full_batch_releases_nothing` is a run that reaches it.  `run_released` carries
this over a run: the items released are always among the dropped ones, and are all of
their non-`nil` ones along a run without that exception (`NoFullBatch`).
-/
import Sophon.Server.OverwriteQueueSpec

namespace Sophon.Server

variable {α : Type}

/-- One call of a sequential client. -/
inductive Call (α : Type) where
  | put (items : List (Option α))
  | get
  | gets (n : Nat)

namespace OverwriteQueue

/-- One call: the queue afterwards, the items read and the items released.  A
rejected `Put` leaves the queue as it was. -/
def call (q : OverwriteQueue α) : Call α → OverwriteQueue α × List (Option α) × List α
  | .put xs =>
      match q.put xs with
      | .ok (q', rel) => (q', [], rel)
      | .error _ => (q, [], [])
  | .get => (q.get.2, [q.get.1], [])
  | .gets n => ((q.gets n).2, (q.gets n).1, [])

/-- The items read along a run of calls. -/
def runReads (q : OverwriteQueue α) : List (Call α) → List (Option α)
  | [] => []
  | c :: cs => (q.call c).2.1 ++ runReads (q.call c).1 cs

/-- The items released along a run of calls. -/
def runReleased (q : OverwriteQueue α) : List (Call α) → List α
  | [] => []
  | c :: cs => (q.call c).2.2 ++ runReleased (q.call c).1 cs

end OverwriteQueue

namespace Call

/-- The bounded queue's answer to one call: the queue afterwards and the entries read. -/
def fifo (cap : Nat) (q : List (Option α)) : Call α → List (Option α) × List (Option α)
  | .put xs => if xs.length ≤ cap then ((Fifo.push cap q xs).1, []) else (q, [])
  | .get => ((Fifo.pop 1 q).2, (Fifo.pop 1 q).1)
  | .gets n => ((Fifo.pop n q).2, (Fifo.pop n q).1)

/-- The entries the bounded queue reads along a run of calls. -/
def fifoReads (cap : Nat) (q : List (Option α)) : List (Call α) → List (Option α)
  | [] => []
  | c :: cs => (fifo cap q c).2 ++ fifoReads cap (fifo cap q c).1 cs

/-- The entries a call makes the bounded queue drop: the oldest ones, for a batch
that fits. -/
def dropped (cap : Nat) (q : List (Option α)) : Call α → List (Option α)
  | .put xs => if xs.length ≤ cap then (Fifo.push cap q xs).2 else []
  | _ => []

/-- The entries the bounded queue drops along a run of calls. -/
def fifoDropped (cap : Nat) (q : List (Option α)) : List (Call α) → List (Option α)
  | [] => []
  | c :: cs => dropped cap q c ++ fifoDropped cap (fifo cap q c).1 cs

/-- A `Put` of `cap` entries into a full queue, the one call that may release less
than it overwrites. -/
def FullBatch (cap : Nat) (q : List (Option α)) : Call α → Prop
  | .put xs => xs.length = cap ∧ q.length = cap
  | _ => False

/-- A run without a `FullBatch` call. -/
def NoFullBatch (cap : Nat) : List (Option α) → List (Call α) → Prop
  | _, [] => True
  | q, c :: cs => ¬ FullBatch cap q c ∧ NoFullBatch cap (fifo cap q c).1 cs

/-- A run in which `Get` is only called on a queue that holds something. -/
def GetOnlyNonempty (cap : Nat) : List (Option α) → List (Call α) → Prop
  | _, [] => True
  | q, c :: cs =>
      (match c with
        | .get => q ≠ []
        | _ => True) ∧ GetOnlyNonempty cap (fifo cap q c).1 cs

end Call

namespace OverwriteQueue

/-- **One call moves the queue as the bounded queue moves, and reads the same.** -/
theorem call_spec {q : OverwriteQueue α} (h : q.WF) (c : Call α)
    (hget : c = .get → q.contents ≠ []) :
    (q.call c).1.WF ∧ (q.call c).1.contents = (Call.fifo q.size q.contents c).1 ∧
      (q.call c).2.1 = (Call.fifo q.size q.contents c).2 := by
  cases c with
  | put xs =>
      by_cases hxs : xs.length ≤ q.size
      · have hput := put_ok (q := q) hxs
        simp only [call, hput, Call.fifo, if_pos hxs]
        exact ⟨wf_put h hput, contents_put h hput, trivial⟩
      · simp only [call, put_overflow (Nat.lt_of_not_le hxs), Call.fifo, if_neg hxs]
        exact ⟨h, trivial, trivial⟩
  | get =>
      have hP : 0 < q.pending := by
        rw [← length_contents]
        exact List.length_pos_iff.mpr (hget rfl)
      obtain ⟨hc, hwf⟩ := get_spec h hP
      simp only [call, Call.fifo, Fifo.pop_rest, Fifo.pop_read]
      rw [hc, List.drop_succ_cons, List.drop_zero, List.take_succ_cons, List.take_zero]
      exact ⟨hwf, rfl, rfl⟩
  | gets n =>
      obtain ⟨hread, hrest, hwf⟩ := gets_spec h n
      simp only [call, Call.fifo, Fifo.pop_rest, Fifo.pop_read]
      exact ⟨hwf, hrest, hread⟩

/-- A call keeps the queue's size and whether it has a release callback. -/
theorem call_keeps (q : OverwriteQueue α) (c : Call α) :
    (q.call c).1.size = q.size ∧ (q.call c).1.release = q.release := by
  cases c with
  | put xs =>
      simp only [call]
      split
      · rename_i q' rel hput
        obtain ⟨-, -, rfl⟩ := put_eq_ok hput
        exact ⟨rfl, rfl⟩
      · exact ⟨rfl, rfl⟩
  | get => exact ⟨rfl, rfl⟩
  | gets n => exact ⟨rfl, rfl⟩

/-- The first call of a legal run moves the queue as the bounded queue moves, and the
rest of the run is legal from the queue it leaves. -/
theorem legal_step {q : OverwriteQueue α} (h : q.WF) {c : Call α} {cs : List (Call α)}
    (hlegal : Call.GetOnlyNonempty q.size q.contents (c :: cs)) :
    (q.call c).1.WF ∧ (q.call c).1.contents = (Call.fifo q.size q.contents c).1 ∧
      (q.call c).2.1 = (Call.fifo q.size q.contents c).2 ∧
      Call.GetOnlyNonempty (q.call c).1.size (q.call c).1.contents cs := by
  obtain ⟨hc, hrest⟩ := hlegal
  have hget : c = .get → q.contents ≠ [] := by
    rintro rfl
    exact hc
  obtain ⟨hwf, hcont, hread⟩ := call_spec h c hget
  refine ⟨hwf, hcont, hread, ?_⟩
  rw [(call_keeps q c).1, hcont]
  exact hrest

/-- **One call releases among what the bounded queue drops**, and all of its non-`nil`
entries when there is a callback and the call is no `FullBatch`. -/
theorem call_released {q : OverwriteQueue α} (h : q.WF) (c : Call α) :
    (q.call c).2.2.Sublist (releaseOverwritten (Call.dropped q.size q.contents c)) ∧
      (q.release = true → ¬ Call.FullBatch q.size q.contents c →
        (q.call c).2.2 = releaseOverwritten (Call.dropped q.size q.contents c)) := by
  cases c with
  | put xs =>
      by_cases hxs : xs.length ≤ q.size
      · have hput := put_ok (q := q) hxs
        simp only [call, hput, Call.dropped, if_pos hxs]
        refine ⟨released_sublist h hxs, fun hrel hnf => ?_⟩
        have hfull : ¬ (xs.length = q.size ∧ q.pending = q.size ∧ q.writeCursor ≠ 0) :=
          fun ⟨hlen, hP, _⟩ => hnf ⟨hlen, by rw [length_contents, hP]⟩
        rw [released_eq_dropped h hxs hfull, if_pos hrel]
      · simp only [call, put_overflow (Nat.lt_of_not_le hxs), Call.dropped, if_neg hxs]
        exact ⟨List.nil_sublist _, fun _ _ => rfl⟩
  | get => exact ⟨List.nil_sublist _, fun _ _ => rfl⟩
  | gets n => exact ⟨List.nil_sublist _, fun _ _ => rfl⟩

/-- **Along every run the queue reads what the bounded queue reads.** -/
theorem run_reads {q : OverwriteQueue α} (h : q.WF) (cs : List (Call α))
    (hlegal : Call.GetOnlyNonempty q.size q.contents cs) :
    q.runReads cs = Call.fifoReads q.size q.contents cs := by
  induction cs generalizing q with
  | nil => rfl
  | cons c cs ih =>
      obtain ⟨hwf, hcont, hread, hrest⟩ := legal_step h hlegal
      rw [runReads, Call.fifoReads, hread, ← hcont, ih hwf hrest, (call_keeps q c).1]

/-- **Along every run the queue releases only what the bounded queue drops**, each item
once and in order, and with a callback every non-`nil` dropped item unless the run
makes a `FullBatch` call. -/
theorem run_released {q : OverwriteQueue α} (h : q.WF) (cs : List (Call α))
    (hlegal : Call.GetOnlyNonempty q.size q.contents cs) :
    (q.runReleased cs).Sublist (releaseOverwritten (Call.fifoDropped q.size q.contents cs)) ∧
      (q.release = true → Call.NoFullBatch q.size q.contents cs →
        q.runReleased cs = releaseOverwritten (Call.fifoDropped q.size q.contents cs)) := by
  induction cs generalizing q with
  | nil => exact ⟨List.nil_sublist _, fun _ _ => rfl⟩
  | cons c cs ih =>
      obtain ⟨hwf, hcont, -, hrest⟩ := legal_step h hlegal
      obtain ⟨hsub, heq⟩ := call_released h c
      obtain ⟨hsize, hkeep⟩ := call_keeps q c
      obtain ⟨ihsub, iheq⟩ := ih hwf hrest
      rw [hsize, hcont] at ihsub iheq
      rw [runReleased, Call.fifoDropped, releaseOverwritten_append]
      refine ⟨hsub.append ihsub, fun hrel ⟨hnf, hnf'⟩ => ?_⟩
      rw [heq hrel hnf, iheq (hkeep.trans hrel) hnf']

/-- **From a new queue, every run reads and releases as the bounded queue does.**  For
a client that calls `Get` only on a non-empty queue, the queue reads what the bounded
queue of the rounded size reads, and releases only items that queue drops, each once
and in order.  With `OptionRelease` it releases every non-`nil` dropped item unless a
`Put` of `size` items meets a full queue. -/
theorem new_run_fifo {size : Nat} (hsize : size ≤ 2 ^ 31) (release : Bool) (cs : List (Call α))
    (hlegal : Call.GetOnlyNonempty (roundSize size) [] cs) :
    (new size release : OverwriteQueue α).runReads cs = Call.fifoReads (roundSize size) [] cs ∧
      ((new size release : OverwriteQueue α).runReleased cs).Sublist
        (releaseOverwritten (Call.fifoDropped (roundSize size) [] cs)) ∧
      (release = true → Call.NoFullBatch (roundSize size) [] cs →
        (new size release : OverwriteQueue α).runReleased cs =
          releaseOverwritten (Call.fifoDropped (roundSize size) [] cs)) :=
  ⟨run_reads (wf_new hsize release) cs hlegal, run_released (wf_new hsize release) cs hlegal⟩

/-- A queue of size 2 with a callback takes `Put(1, 2)`, `Put(3)` and a `Get`: it
releases 1, which the bounded queue drops, and reads 2. -/
theorem new_run_fifo_sample :
    (2 ≤ 2 ^ 31 ∧
        Call.GetOnlyNonempty (roundSize 2) [] [.put [some 1, some 2], .put [some 3], .get] ∧
        Call.NoFullBatch (roundSize 2) [] [.put [some 1, some 2], .put [some 3], .get]) ∧
      (new 2 true : OverwriteQueue Nat).runReleased
          [.put [some 1, some 2], .put [some 3], .get] =
        releaseOverwritten
          (Call.fifoDropped (roundSize 2) [] [.put [some 1, some 2], .put [some 3], .get]) := by
  have h2 : roundSize 2 = 2 := by decide
  have hlegal : Call.GetOnlyNonempty (roundSize 2) []
      [.put [some 1, some 2], .put [some 3], (.get : Call Nat)] := by
    simp [h2, Call.GetOnlyNonempty, Call.fifo, Fifo.push]
  have hnf : Call.NoFullBatch (roundSize 2) []
      [.put [some 1, some 2], .put [some 3], (.get : Call Nat)] := by
    simp [h2, Call.NoFullBatch, Call.FullBatch, Call.fifo, Fifo.push]
  exact ⟨⟨by decide, hlegal, hnf⟩, (new_run_fifo (by decide) true _ hlegal).2.2 rfl hnf⟩

end OverwriteQueue

end Sophon.Server
