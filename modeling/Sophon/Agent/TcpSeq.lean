/-
The TCP sequence-segment list of a session peer
(`SessionPeer` in `agent/src/flow_generator/perf/tcp.rs`).

A peer keeps up to 15 received sequence ranges in a fixed array of 16 slots, in
descending order of `seq`, with `seq_list_len` of them in use.  `assert_seq_number`
classifies a segment: it is ignored when it wraps or jumps between the low and high
quarters of the sequence space (`check_seq_segment`), then `search` finds its place,
its neighbour below (`lt`) and the neighbour at or above (`gte`).  A segment inside
`lt` (or, when there is no `lt`, inside `gte`) is a retransmission; one that overlaps a
neighbour is an error; one that touches a neighbour extends it, and one that touches
both merges them; any other is inserted, and a full list merges its two lowest
segments.

`u32` additions wrap (release build); `isize` and slot indices are `Int` and `Nat`.
A panic (the assertion of `merge_seq_list`, a slot index of 16, `unreachable!()`) is
`none`.  Only the fields these functions use are kept.

`search` splits at the first segment strictly below `seg.seq`, so a segment that
starts exactly at a recorded one has that one as `gte` and the one below as `lt`,
and only `lt` is tested for retransmission: `assertSeqNumber_sameStart` records
`[200, 210)` and `[100, 110)`, and then takes `[200, 205)`, which lies inside the
first, as a new discontinuous segment, leaving two entries with `seq = 200`.
-/
import Mathlib

namespace Sophon.Agent

/-- `SeqSegment`. -/
structure SeqSegment where
  seq : Nat
  len : Nat
  deriving DecidableEq, Repr, Inhabited

/-- `PacketSeqType`. -/
inductive PacketSeqType where
  | error
  | retrans
  | notCare
  | merge
  | discontinuous
  | continuous
  | bothContinuous
  deriving DecidableEq, Repr

/-- `SEQ_LIST_MAX_LEN`. -/
def SEQ_LIST_MAX_LEN : Nat := 16

/-- `SEQ_NUMBER_LOW_THRESHOLD`. -/
def SEQ_NUMBER_LOW_THRESHOLD : Nat := 0x40000000

/-- `SEQ_NUMBER_HIGH_THRESHOLD`. -/
def SEQ_NUMBER_HIGH_THRESHOLD : Nat := 0xc0000000

/-- `u32` addition in a release build. -/
def add32 (a b : Nat) : Nat := (a + b) % 2 ^ 32

/-- `SessionPeer`, with the sequence list. -/
structure SessionPeer where
  seqList : List SeqSegment
  seqListLen : Int
  deriving DecidableEq, Repr

/-- `SessionPeer::default()`: sixteen empty slots. -/
instance : Inhabited SessionPeer := ⟨⟨List.replicate SEQ_LIST_MAX_LEN default, 0⟩⟩

namespace SessionPeer

/-- `merge_seq_list`: slot `index + 1` is merged into slot `index`, reset, and rotated
to the end of the used part. -/
def mergeSeqList (p : SessionPeer) (index : Nat) : Option SessionPeer :=
  if (index : Int) + 1 < p.seqListLen then
    let gte := p.seqList.getD index default
    let lt := p.seqList.getD (index + 1) default
    let gte : SeqSegment := ⟨lt.seq, (gte.seq + 2 ^ 32 - lt.seq + gte.len) % 2 ^ 32⟩
    let list := (p.seqList.set index gte).set (index + 1) default
    let len := p.seqListLen.toNat
    let list :=
      if (index : Int) < p.seqListLen - 2 then
        list.take (index + 1) ++ ((list.drop (index + 1)).take (len - (index + 1))).rotateLeft 1 ++
          list.drop len
      else list
    some ⟨list, p.seqListLen - 1⟩
  else none

/-- `insert_seq_segment`: the slots from `index` on move one place up, the last one
dropping off. -/
def insertSeqSegment (p : SessionPeer) (index : Nat) (seg : SeqSegment) : Option SessionPeer :=
  if index < SEQ_LIST_MAX_LEN then
    let list :=
      if (index : Int) < p.seqListLen then p.seqList.take index ++ (p.seqList.drop index).rotateRight 1
      else p.seqList
    some ⟨list.set index seg, p.seqListLen + 1⟩
  else none

/-- `check_seq_segment`: whether the segment is to be classified, and the list after
the resets it makes. -/
def checkSeqSegment (p : SessionPeer) (seg : SeqSegment) : Option (Bool × SessionPeer) :=
  -- a segment that wraps past `2^32` is ignored
  if add32 seg.seq seg.len < seg.seq then some (false, p)
  else if p.seqListLen ≤ 0 then (p.insertSeqSegment 0 seg).map (false, ·)
  else
    let last := p.seqList.getD 0 default
    -- the sequence numbers wrapped: the list starts again from this segment
    if seg.seq < SEQ_NUMBER_LOW_THRESHOLD ∧ add32 last.seq last.len > SEQ_NUMBER_HIGH_THRESHOLD then
      ((default : SessionPeer).insertSeqSegment 0 seg).map (false, ·)
    -- an old segment from before the wrap
    else if seg.seq > SEQ_NUMBER_HIGH_THRESHOLD ∧ add32 last.seq last.len < SEQ_NUMBER_LOW_THRESHOLD then
      some (false, p)
    else some (true, p)

/-- `search`: the slot of the first segment strictly below `seg.seq` (`lt`), the slot
before it (`gte`), and the index where `seg` would go. -/
def search (p : SessionPeer) (seg : SeqSegment) : Option Nat × Option Nat × Nat :=
  if p.seqListLen = 0 then (none, none, 0)
  else
    let len := p.seqListLen.toNat
    let index := ((List.range len).find? fun i => decide (seg.seq > (p.seqList.getD i default).seq)).getD len
    if index = 0 then (some index, none, index)
    else if index = len then (none, some (index - 1), index)
    else (some index, some (index - 1), index)

/-- `check_and_update_continuous_segment`: `lt` grows by a segment that starts at its
end, `gte` by one that ends at its start; the two flags say which did. -/
def checkAndUpdateContinuousSegment (list : List SeqSegment) (lt gte : Option Nat)
    (seg : SeqSegment) : List SeqSegment × Bool × Bool :=
  let (list, ltContinuous) := match lt with
    | some i =>
        let s := list.getD i default
        if add32 s.seq s.len = seg.seq then (list.set i ⟨s.seq, add32 s.len seg.len⟩, true)
        else (list, false)
    | none => (list, false)
  let (list, gteContinuous) := match gte with
    | some j =>
        let s := list.getD j default
        if add32 seg.seq seg.len = s.seq then (list.set j ⟨seg.seq, add32 s.len seg.len⟩, true)
        else (list, false)
    | none => (list, false)
  (list, ltContinuous, gteContinuous)

/-- `check_retrans`: `seg` lies inside `base`. -/
def checkRetrans (base seg : SeqSegment) : Bool :=
  seg.seq ≥ base.seq ∧ add32 base.seq base.len ≥ add32 seg.seq seg.len

/-- `is_retrans_segment`: tested against `lt` when there is one, else against `gte`. -/
def isRetransSegment (list : List SeqSegment) (lt gte : Option Nat) (seg : SeqSegment) : Option Bool :=
  match lt, gte with
  | some i, _ => some (checkRetrans (list.getD i default) seg)
  | none, some j => some (checkRetrans (list.getD j default) seg)
  | none, none => none

/-- `is_error_segment`: `seg` overlaps `gte` or `lt`. -/
def isErrorSegment (list : List SeqSegment) (lt gte : Option Nat) (seg : SeqSegment) : Bool :=
  let gteError := match gte with
    | some j =>
        let g := list.getD j default
        (seg.seq < g.seq ∧ add32 seg.seq seg.len > g.seq) ∨ add32 seg.seq seg.len > add32 g.seq g.len
    | none => false
  let ltError := match lt with
    | some i => let l := list.getD i default; add32 l.seq l.len > seg.seq
    | none => false
  gteError || ltError

/-- `assert_seq_number`. -/
def assertSeqNumber (p : SessionPeer) (seq payloadLen : Nat) : Option (PacketSeqType × SessionPeer) :=
  if payloadLen = 0 ∨ seq = 0 then some (.notCare, p)
  else
    let seg : SeqSegment := ⟨seq, payloadLen⟩
    match p.checkSeqSegment seg with
    | none => none
    | some (false, p) => some (.notCare, p)
    | some (true, p) =>
        let (lt, gte, index) := p.search seg
        match isRetransSegment p.seqList lt gte seg with
        | none => none
        | some true => some (.retrans, p)
        | some false =>
            if isErrorSegment p.seqList lt gte seg then some (.error, p)
            else
              let (list, ltContinuous, gteContinuous) := checkAndUpdateContinuousSegment p.seqList lt gte seg
              let p : SessionPeer := { p with seqList := list }
              match ltContinuous, gteContinuous with
              | false, false => do
                  let p ← p.insertSeqSegment index seg
                  if p.seqListLen.toNat ≥ SEQ_LIST_MAX_LEN then
                    let p ← p.mergeSeqList (SEQ_LIST_MAX_LEN - 2)
                    pure (.merge, p)
                  else pure (.discontinuous, p)
              | true, true => do
                  let p ← p.mergeSeqList (index - 1)
                  pure (.bothContinuous, p)
              | _, _ => some (.continuous, p)

end SessionPeer

/-- **A retransmission from the start of a recorded segment is not recognised.**  A
fresh peer records `[100, 110)` and `[200, 210)`; the segment `[200, 205)`, inside
the second, is classified as discontinuous and inserted, and the list then holds two
segments that start at 200. -/
theorem assertSeqNumber_sameStart :
    ∃ p₁ p₂ p₃ : SessionPeer,
      (default : SessionPeer).assertSeqNumber 100 10 = some (.notCare, p₁) ∧
      p₁.assertSeqNumber 200 10 = some (.discontinuous, p₂) ∧
      p₂.assertSeqNumber 200 5 = some (.discontinuous, p₃) ∧
      p₃.seqListLen = 3 ∧ p₃.seqList.take 3 = [⟨200, 10⟩, ⟨200, 5⟩, ⟨100, 10⟩] :=
  ⟨_, _, _, rfl, rfl, rfl, rfl, rfl⟩

end Sophon.Agent
