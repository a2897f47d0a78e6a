/-
The agent's `OverwriteQueue` (`agent/crates/public/src/queue/overwrite_queue.rs`),
one call at a time.

The queue keeps `size` slots, a power of two, and two cursors `start` and `end`
that count modulo `2 * size`, so that a full queue (`end - start = size`) and an
empty one (`end = start`) differ.  `raw_send` copies a batch at `end` in at most
two pieces, and when the batch does not fit it first drops the oldest messages in
place and moves `start` past them; `raw_recv_timeout` copies up to `buf_size`
messages out from `start` on; `Drop` drops the messages from `start` to `end`.

The model follows the Rust text: `usize` arithmetic is `Nat` (no value gets near
`2^64`), masks are `&&&`, and the buffer is a function from slot to cell, `none`
for a cell never written.  Each `copy_from_nonoverlapping` and
`copy_to_nonoverlapping` is a copy between the buffer and a list, at an offset
that is not reduced.  A message moved out, by a receive or by a drop, stays in
its cell, as its bytes do.  The locks, the condition variable and the counters
are left out: with one caller at a time nothing reads them back, `start` read
again under the reader lock is the `start` read before, and a receive on an empty
queue returns at once, since nothing can arrive while it waits.  An `assert!`
that fails is an error of its own.  No modelled call sets `terminated` (only
`close` does, when the last sender or the receiver goes); the checks that read it
are kept.
-/
import Sophon.Lib.Ring

namespace Sophon.Agent

variable {α : Type}

/-- `usize::next_power_of_two`. -/
def nextPowerOfTwo (n : Nat) : Nat := if n ≤ 1 then 1 else 2 ^ ((n - 1).log2 + 1)

/-- `queue::Error`, without the messages it hands back, and a failed `assert!`. -/
inductive Error where
  | timeout
  | terminated
  | batchTooLarge
  | assertFailed
  deriving DecidableEq, Repr

/-- `OverwriteQueue<T>` without its locks and counters. -/
structure OverwriteQueue (α : Type) where
  size : Nat
  buffer : Nat → Option α
  start : Nat
  «end» : Nat
  terminated : Bool

namespace OverwriteQueue

/-- `with_capacity(size)`: an uninitialised buffer of `size.next_power_of_two()` slots. -/
def withCapacity (size : Nat) : OverwriteQueue α :=
  { size := nextPowerOfTwo size, buffer := fun _ => none, start := 0, «end» := 0,
    terminated := false }

/-- `buffer.add(off).copy_from_nonoverlapping(msgs, msgs.len())`. -/
def copyFromNonoverlapping (buf : Nat → Option α) (off : Nat) : List α → Nat → Option α
  | [] => buf
  | x :: xs => copyFromNonoverlapping (Function.update buf off (some x)) (off + 1) xs

/-- `buffer.add(off).copy_to_nonoverlapping(dst, count)`: the cells copied out. -/
def copyToNonoverlapping (buf : Nat → Option α) (off count : Nat) : List (Option α) :=
  (List.range count).map fun i => buf (off + i)

/-- `end` unwrapped: the value of end will be less than start if it was wrapped. -/
def unwrap (q : OverwriteQueue α) (start rawEnd : Nat) : Nat :=
  if rawEnd < start then rawEnd + 2 * q.size else rawEnd

/-- `raw_send(msgs, count)`: the queue afterwards and the cells the overwrite loop
drops, oldest first. -/
def rawSend (q : OverwriteQueue α) (msgs : List α) :
    Except Error (OverwriteQueue α × List (Option α)) :=
  let count := msgs.length
  if q.terminated then .error .terminated
  else if count > q.size then .error .batchTooLarge
  else
    let start := q.start
    let rawEnd := q.«end»
    let «end» := q.unwrap start rawEnd
    if ¬ «end» - start ≤ q.size then .error .assertFailed
    else
      let (start, dropped) :=
        if «end» - start + count > q.size then
          let freeSpace := q.size - («end» - start)
          if freeSpace < count then
            let toOverwrite := count - freeSpace
            ((start + toOverwrite) &&& (2 * q.size - 1),
              (List.range toOverwrite).map fun i => q.buffer ((start + i) &&& (q.size - 1)))
          else (start, [])
        else (start, [])
      let freeAfterEnd := q.size - (rawEnd &&& (q.size - 1))
      let buffer :=
        if freeAfterEnd ≥ count then
          copyFromNonoverlapping q.buffer (rawEnd &&& (q.size - 1)) msgs
        else
          copyFromNonoverlapping
            (copyFromNonoverlapping q.buffer (rawEnd &&& (q.size - 1)) (msgs.take freeAfterEnd))
            0 (msgs.drop freeAfterEnd)
      .ok ({ q with buffer, start, «end» := (rawEnd + count) &&& (2 * q.size - 1) }, dropped)

/-- `raw_recv_timeout(timeout, buffer, buf_size)`: the cells copied out and the queue
afterwards. -/
def rawRecvTimeout (q : OverwriteQueue α) (bufSize : Nat) :
    Except Error (List (Option α) × OverwriteQueue α) :=
  let start := q.start
  let «end» := q.«end»
  if start = «end» then
    if q.terminated then .error .terminated else .error .timeout
  else
    let «end» := q.unwrap start «end»
    if ¬ «end» - start ≤ q.size then .error .assertFailed
    else
      let pending := «end» - start
      let recvCount := min pending bufSize
      let countToEnd := q.size - (start &&& (q.size - 1))
      let out :=
        if countToEnd ≥ recvCount then
          copyToNonoverlapping q.buffer (start &&& (q.size - 1)) recvCount
        else
          copyToNonoverlapping q.buffer (start &&& (q.size - 1)) countToEnd ++
            copyToNonoverlapping q.buffer 0 (recvCount - countToEnd)
      .ok (out, { q with start := (start + recvCount) &&& (2 * q.size - 1) })

/-- `Drop for OverwriteQueue`: the cells it drops, from `start` to `end`. -/
def drop (q : OverwriteQueue α) : Except Error (List (Option α)) :=
  let start := q.start
  let «end» := q.unwrap start q.«end»
  if ¬ «end» - start ≤ q.size then .error .assertFailed
  else .ok ((List.range' start («end» - start)).map fun i => q.buffer (i &&& (q.size - 1)))

/-- `Sender::send`: one message. -/
def send (q : OverwriteQueue α) (msg : α) : Except Error (OverwriteQueue α × List (Option α)) :=
  q.rawSend [msg]

/-- `Sender::send_all`: the whole vector, which is left with the caller on an error. -/
def sendAll (q : OverwriteQueue α) (msgs : List α) :
    Except Error (OverwriteQueue α × List (Option α)) :=
  q.rawSend msgs

/-- `Receiver::recv`: one message. -/
def recv (q : OverwriteQueue α) : Except Error (List (Option α) × OverwriteQueue α) :=
  q.rawRecvTimeout 1

/-- `Receiver::recv_n`, which asserts `n > 0`. -/
def recvN (q : OverwriteQueue α) (n : Nat) : Except Error (List (Option α) × OverwriteQueue α) :=
  if n > 0 then q.rawRecvTimeout n else .error .assertFailed

/-- `Receiver::recv_all` into a vector of this capacity. -/
def recvAll (q : OverwriteQueue α) (capacity : Nat) :
    Except Error (List (Option α) × OverwriteQueue α) :=
  q.rawRecvTimeout capacity

end OverwriteQueue

/-- One call of a sender or of the receiver. -/
inductive Call (α : Type) where
  | send (msg : α)
  | sendAll (msgs : List α)
  | recv
  | recvN (n : Nat)
  | recvAll (capacity : Nat)

/-- What calls did: the queue afterwards, and the messages moved into the queue,
received from it and dropped by it, in order. -/
structure Trace (α : Type) where
  queue : OverwriteQueue α
  movedIn : List α
  received : List (Option α)
  dropped : List (Option α)

namespace OverwriteQueue

/-- A send: a message moves in only when the call succeeds. -/
def sent (q : OverwriteQueue α) (msgs : List α) :
    Except Error (OverwriteQueue α × List (Option α)) → Trace α
  | .ok (q', dropped) => ⟨q', msgs, [], dropped⟩
  | .error _ => ⟨q, [], [], []⟩

/-- A receive: the queue is left as it was on an error. -/
def received (q : OverwriteQueue α) :
    Except Error (List (Option α) × OverwriteQueue α) → Trace α
  | .ok (out, q') => ⟨q', [], out, []⟩
  | .error _ => ⟨q, [], [], []⟩

def call (q : OverwriteQueue α) : Call α → Trace α
  | .send msg => q.sent [msg] (q.send msg)
  | .sendAll msgs => q.sent msgs (q.sendAll msgs)
  | .recv => q.received q.recv
  | .recvN n => q.received (q.recvN n)
  | .recvAll capacity => q.received (q.recvAll capacity)

/-- A run of calls, one at a time. -/
def run (q : OverwriteQueue α) : List (Call α) → Trace α
  | [] => ⟨q, [], [], []⟩
  | c :: cs =>
      let t := q.call c
      let r := run t.queue cs
      ⟨r.queue, t.movedIn ++ r.movedIn, t.received ++ r.received, t.dropped ++ r.dropped⟩

end OverwriteQueue

end Sophon.Agent
