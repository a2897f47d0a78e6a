/-
The server's `OverwriteQueue` (`server/libs/queue/queue.go`), one call at a time.

The queue keeps `size` slots, a power of two, a `writeCursor` where the next batch
goes and a `pending` count; the oldest pending item sits at `firstIndex`, `pending`
slots behind the cursor.  `Put` copies a batch at the cursor in at most two `copy`
calls, wrapping once, and when the batch does not fit in the free slots it first
hands the items it is about to overwrite to the `release` callback.  Those are
read from the slots `[firstIndex, writeCursor + itemSize)`, with the end masked
only when it passes `size`.

The model follows the Go text: `uint` arithmetic is `Nat` (no value gets near
`2^64`), masks are `&&&`, the slice `items` is a function from index to cell, an
`interface{}` cell is an `Option` with `none` for Go's `nil`, and each Go `copy`
is `copyTo`, which stops at the end of the slice.  The locks, the reader
`WaitGroup` and the counters are left out: with one caller at a time nothing
reads them back.  `Get` and `Gets` block on an empty queue; the model has only
their non-blocking bodies `get` and `gets`.
-/
import Sophon.Lib.Ring

namespace Sophon.Server

variable {α : Type}

/-- Go's `copy(dst[off:], src)` on a slice of `size` cells: the slice afterwards and
how many cells were copied. -/
def copyTo (buf : Nat → α) (size : Nat) : Nat → List α → (Nat → α) × Nat
  | _, [] => (buf, 0)
  | off, x :: xs =>
      if off < size then
        let r := copyTo (Function.update buf off x) size (off + 1) xs
        (r.1, r.2 + 1)
      else (buf, 0)

/-- The cells `items[lo:hi]`. -/
def slice (items : Nat → α) (lo hi : Nat) : List α :=
  (List.range (hi - lo)).map fun i => items (lo + i)

/-- `OverwriteQueue` as far as `Put`, `Get` and `Gets` use it. -/
structure OverwriteQueue (α : Type) where
  items : Nat → Option α
  size : Nat
  writeCursor : Nat
  pending : Nat
  /-- Whether a release callback was given (`OptionRelease`). -/
  release : Bool

/-- The only failure of `Put`: `OverflowError`, for a batch larger than the queue. -/
inductive PutError where
  | overflow
  deriving DecidableEq, Repr

namespace OverwriteQueue

/-- `Init`: the requested size rounded up to a power of two below `2^32`. -/
def roundSize (size : Nat) : Nat :=
  match (List.range 32).find? (fun i => size ≤ 2 ^ i) with
  | some i => 2 ^ i
  | none => size

/-- `NewOverwriteQueue(name, size, options...)`, with or without `OptionRelease`. -/
def new (size : Nat) (release : Bool) : OverwriteQueue α :=
  { items := fun _ => none, size := roundSize size, writeCursor := 0, pending := 0, release }

def firstIndex (q : OverwriteQueue α) : Nat :=
  (q.writeCursor + q.size - q.pending) &&& (q.size - 1)

/-- `Len()`. -/
def len (q : OverwriteQueue α) : Nat := q.pending

/-- `releaseOverwritten`: the callback is called on every non-`nil` item, in order. -/
def releaseOverwritten (overwritten : List (Option α)) : List α :=
  overwritten.filterMap id

/-- The items `Put` hands to `release` before it overwrites them. -/
def released (q : OverwriteQueue α) (itemSize : Nat) : List α :=
  let freeSize := q.size - q.pending
  if q.release && decide (itemSize > freeSize) then
    let releaseFrom := q.firstIndex
    let releaseTo := q.writeCursor + itemSize
    let releaseTo := if releaseTo > q.size then releaseTo &&& (q.size - 1) else releaseTo
    if releaseFrom ≤ releaseTo then
      releaseOverwritten (slice q.items releaseFrom releaseTo)
    else
      releaseOverwritten (slice q.items releaseFrom q.size) ++
        releaseOverwritten (slice q.items 0 releaseTo)
  else []

/-- The slots after `Put`'s two `copy` calls. -/
def putItems (q : OverwriteQueue α) (items : List (Option α)) : Nat → Option α :=
  let (buf, copied) := copyTo q.items q.size q.writeCursor items
  if copied ≠ items.length then (copyTo buf q.size 0 (items.drop copied)).1 else buf

/-- `Put(items...)`: the queue afterwards and, in order, the items passed to `release`. -/
def put (q : OverwriteQueue α) (items : List (Option α)) :
    Except PutError (OverwriteQueue α × List α) :=
  let itemSize := items.length
  if itemSize > q.size then .error .overflow
  else
    .ok ({ q with
        items := q.putItems items
        pending := min (q.pending + itemSize) q.size
        writeCursor := (q.writeCursor + itemSize) &&& (q.size - 1) },
      q.released itemSize)

/-- `get`: take the oldest item and clear its slot. -/
def get (q : OverwriteQueue α) : Option α × OverwriteQueue α :=
  let first := q.firstIndex
  (q.items first,
    { q with items := Function.update q.items first none, pending := q.pending - 1 })

/-- `gets(output)` for an `output` of length `n`: copy out up to `n` items from
`firstIndex` on, wrapping once, and clear their slots with `nilArrayForInit`. -/
def gets (q : OverwriteQueue α) (n : Nat) : List (Option α) × OverwriteQueue α :=
  let size := min n q.pending
  let first := q.firstIndex
  let copied := min size (q.size - first)
  let out := slice q.items first (first + copied)
  let buf := (copyTo q.items q.size first (List.replicate copied none)).1
  let (out, buf) :=
    if copied ≠ size then
      let copied' := min (size - copied) q.size
      (out ++ slice buf 0 copied', (copyTo buf q.size 0 (List.replicate copied' none)).1)
    else (out, buf)
  (out, { q with items := buf, pending := q.pending - size })

end OverwriteQueue

end Sophon.Server
