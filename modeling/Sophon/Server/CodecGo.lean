/-
The decoder once more, with Go's integers and Go's bounds checks.

`Codec` counts the cursor and the errors in `Nat`, reads with `getD` and slices with
`drop` and `take`; that is what the readers compute while nothing overflows and no
index leaves the buffer, and it cannot say when one does.  Here the cursor and the
error count are Go `int`s, 64 bits that wrap (`wrapInt`), and every `buf[i]` and
`buf[a:b]` is checked: one outside the buffer panics, and the reader returns `none`
(`byteAt`, `sliceAt`; a slice is checked against the length, the capacity of a buffer
the decoder was handed being unknown).  Every sum and difference on the cursor wraps
as Go's does, except the index `i` of the varint loops and `len(buf) - i`, which are
taken only once `buf[i]` has been read, so with `0 ≤ i < len(buf)`.  `ReadIPv4` and
`ReadIPv6` panic on a destination of the wrong length; a `Call` hands them one of the
right length.
-/
import Sophon.Server.Codec

namespace Sophon.Server.Codec

/-- Go's `int`: a sum outside `[-2 ^ 63, 2 ^ 63)` wraps around. -/
def wrapInt (x : Int) : Int := (x + 2 ^ 63) % 2 ^ 64 - 2 ^ 63

/-- `buf[i]`, which panics outside the buffer. -/
def byteAt (buf : List UInt8) (i : Int) : Option UInt8 :=
  if 0 ≤ i then buf[i.toNat]? else none

/-- `buf[a:b]`, which panics unless `0 ≤ a ≤ b ≤ len(buf)`. -/
def sliceAt (buf : List UInt8) (a b : Int) : Option (List UInt8) :=
  if 0 ≤ a ∧ a ≤ b ∧ b ≤ buf.length then some (slice buf a.toNat b.toNat) else none

/-- `SimpleDecoder` with its `int` fields. -/
structure GoDecoder where
  buf : List UInt8
  offset : Int
  err : Int

namespace GoDecoder

def init (buf : List UInt8) : GoDecoder := ⟨buf, 0, 0⟩

/-- `d.err++`. -/
def fail (d : GoDecoder) : GoDecoder := { d with err := wrapInt (d.err + 1) }

@[simp] theorem fail_buf (d : GoDecoder) : d.fail.buf = d.buf := rfl
@[simp] theorem fail_offset (d : GoDecoder) : d.fail.offset = d.offset := rfl

/-- The shape of every fixed-size read: `d.offset += n`; past the end `d.err++` and the
zero value, else the read at the new cursor. -/
def readFixed {α : Type} (d : GoDecoder) (n : Int) (zero : α) (read : List UInt8 → Int → Option α) :
    Option (α × GoDecoder) :=
  let d := { d with offset := wrapInt (d.offset + n) }
  if d.offset > d.buf.length then some (zero, d.fail)
  else (read d.buf d.offset).map fun v => (v, d)

def readU8 (d : GoDecoder) : Option (UInt8 × GoDecoder) :=
  d.readFixed 1 0 fun buf offset => byteAt buf (wrapInt (offset - 1))

def readBool (d : GoDecoder) : Option (Bool × GoDecoder) :=
  d.readFixed 1 false fun buf offset => (byteAt buf (wrapInt (offset - 1))).map (· == 1)

def readU16 (d : GoDecoder) : Option (UInt16 × GoDecoder) :=
  d.readFixed 2 0 fun buf offset => (sliceAt buf (wrapInt (offset - 2)) offset).map uint16

def readU32 (d : GoDecoder) : Option (UInt32 × GoDecoder) :=
  d.readFixed 4 0 fun buf offset => (sliceAt buf (wrapInt (offset - 4)) offset).map uint32

def readU64 (d : GoDecoder) : Option (UInt64 × GoDecoder) :=
  d.readFixed 8 0 fun buf offset => (sliceAt buf (wrapInt (offset - 8)) offset).map uint64

/-- `ReadIPv4(v)`: `copy(v, ...)`, leaving `v` as it was when the read fails. -/
def readIPv4 (d : GoDecoder) (v : List UInt8) : Option (List UInt8 × GoDecoder) :=
  if v.length ≠ 4 then none
  else d.readFixed 4 v fun buf offset => sliceAt buf (wrapInt (offset - 4)) offset

def readIPv6 (d : GoDecoder) (v : List UInt8) : Option (List UInt8 × GoDecoder) :=
  if v.length ≠ 16 then none
  else d.readFixed 16 v fun buf offset => sliceAt buf (wrapInt (offset - 16)) offset

/-- `ReadBytesN(n)`: `nil` is the empty list. -/
def readBytesN (d : GoDecoder) (n : Int) : Option (List UInt8 × GoDecoder) :=
  d.readFixed n [] fun buf offset => sliceAt buf (wrapInt (offset - n)) offset

def readString255 (d : GoDecoder) : Option (List UInt8 × GoDecoder) := do
  let (l, d) ← d.readU8
  d.readBytesN l.toNat

def readBytes (d : GoDecoder) : Option (List UInt8 × GoDecoder) := do
  let (l, d) ← d.readU32
  d.readBytesN l.toNat

/-- The loop of `ReadU16Slice` and `ReadU32Slice`: word `i` from the end, `i = l, …, 1`. -/
def readWords {α : Type} (buf : List UInt8) (offset : Int) (w l : Nat) (get : List UInt8 → α) :
    Option (List α) :=
  (List.range' 1 l).reverse.mapM fun (i : Nat) =>
    (sliceAt buf (wrapInt (offset - w * i)) (wrapInt (offset - w * i + w))).map get

def readU16Slice (d : GoDecoder) : Option (List UInt16 × GoDecoder) := do
  let (l, d) ← d.readU32
  if l = 0 then some ([], d)
  else d.readFixed (l.toNat * 2) [] fun buf offset => readWords buf offset 2 l.toNat uint16

def readU32Slice (d : GoDecoder) : Option (List UInt32 × GoDecoder) := do
  let (l, d) ← d.readU32
  if l = 0 then some ([], d)
  else d.readFixed (l.toNat * 4) [] fun buf offset => readWords buf offset 4 l.toNat uint32

/-- The loop of `decodeVarintSlow`, reading `d.buf[i]` after the check `i >= l`. -/
def decodeVarintSlowLoop (buf : List UInt8) :
    List Nat → Int → UInt64 → Option (UInt64 × Except VarintError Int)
  | [], _, x => some (x, .error .overflow)
  | shift :: shifts, i, x =>
    if i ≥ buf.length then some (x, .error .unexpectedEOF)
    else do
      let b ← byteAt buf i
      let x := x ||| ((b.toUInt64 &&& 0x7F) <<< shift.toUInt64)
      if b < 0x80 then some (x, .ok (i + 1)) else decodeVarintSlowLoop buf shifts (i + 1) x

def decodeVarintSlow (d : GoDecoder) : Option ((UInt64 × Option VarintError) × GoDecoder) :=
  (decodeVarintSlowLoop d.buf ((List.range 10).map (7 * ·)) d.offset 0).map fun
    | (x, .ok i) => ((x, none), { d with offset := i })
    | (x, .error err) => ((x, some err), d.fail)

/-- The unrolled fast path, reading `buf[i]` at each shift: `none` when it panics,
`some none` when a tenth byte has the top bit set. -/
def decodeVarintFast (buf : List UInt8) :
    List Nat → Int → UInt64 → Option (Option (UInt64 × Int))
  | [], _, _ => some none
  | shift :: shifts, i, x => do
    let b ← byteAt buf i
    let b := b.toUInt64
    let x := x + (b <<< shift.toUInt64)
    if b &&& 0x80 = 0 then some (some (x, i + 1))
    else decodeVarintFast buf shifts (i + 1) (x - (0x80 <<< shift.toUInt64))

def decodeVarint (d : GoDecoder) : Option (UInt64 × GoDecoder) :=
  let i := d.offset
  if i ≥ d.buf.length then some (0, d.fail)
  else do
    let b ← byteAt d.buf i
    if b < 0x80 then some (b.toUInt64, { d with offset := wrapInt (d.offset + 1) })
    else if (d.buf.length : Int) - i < 10 then
      (d.decodeVarintSlow).map fun ((v, _), d) => (v, d)
    else do
      let r ← decodeVarintFast d.buf ((List.range' 1 9).map (7 * ·)) (i + 1) (b.toUInt64 - 0x80)
      match r with
      | some (x, i) => some (x, { d with offset := i })
      | none => some (0, d.fail)

def readVarintU32 (d : GoDecoder) : Option (UInt32 × GoDecoder) :=
  (d.decodeVarint).map fun (x, d) => (x.toUInt32, d)

def readVarintU64 (d : GoDecoder) : Option (UInt64 × GoDecoder) := d.decodeVarint

def readZigzagU32 (d : GoDecoder) : Option (UInt32 × GoDecoder) :=
  (d.decodeVarint).map fun (x, d) =>
    ((x.toUInt32 >>> 1) ^^^ (((x &&& 1).toUInt32.toInt32 <<< 31) >>> 31).toUInt32, d)

def readZigzagU64 (d : GoDecoder) : Option (UInt64 × GoDecoder) :=
  (d.decodeVarint).map fun (x, d) => ((x >>> 1) ^^^ (((x &&& 1).toInt64 <<< 63) >>> 63).toUInt64, d)

def readBytesWithVarintLen (d : GoDecoder) : Option (List UInt8 × GoDecoder) := do
  let (l, d) ← d.readVarintU32
  d.readBytesN l.toNat

end GoDecoder

/-! ### Calls -/

/-- A call of one of the decoder's read methods. -/
inductive Call
  | readU8 | readBool | readU16 | readU32 | readU64 | readIPv4 | readIPv6 | readString255
  | readBytes | readBytesN (n : Nat) | readBytesWithVarintLen | readU16Slice | readU32Slice
  | decodeVarint | readVarintU32 | readVarintU64 | readZigzagU32 | readZigzagU64
  deriving DecidableEq, Repr

/-- What a read method returns. -/
inductive Reply
  | u8 (v : UInt8)
  | bool (v : Bool)
  | u16 (v : UInt16)
  | u32 (v : UInt32)
  | u64 (v : UInt64)
  | bytes (v : List UInt8)
  | u16s (vs : List UInt16)
  | u32s (vs : List UInt32)
  deriving DecidableEq, Repr

namespace GoDecoder

/-- One call; `ReadIPv4` and `ReadIPv6` are handed a zeroed buffer of the right length. -/
def call (d : GoDecoder) : Call → Option (Reply × GoDecoder)
  | .readU8 => d.readU8.map fun (v, d) => (.u8 v, d)
  | .readBool => d.readBool.map fun (v, d) => (.bool v, d)
  | .readU16 => d.readU16.map fun (v, d) => (.u16 v, d)
  | .readU32 => d.readU32.map fun (v, d) => (.u32 v, d)
  | .readU64 => d.readU64.map fun (v, d) => (.u64 v, d)
  | .readIPv4 => (d.readIPv4 (List.replicate 4 0)).map fun (v, d) => (.bytes v, d)
  | .readIPv6 => (d.readIPv6 (List.replicate 16 0)).map fun (v, d) => (.bytes v, d)
  | .readString255 => d.readString255.map fun (v, d) => (.bytes v, d)
  | .readBytes => d.readBytes.map fun (v, d) => (.bytes v, d)
  | .readBytesN n => (d.readBytesN n).map fun (v, d) => (.bytes v, d)
  | .readBytesWithVarintLen => d.readBytesWithVarintLen.map fun (v, d) => (.bytes v, d)
  | .readU16Slice => d.readU16Slice.map fun (vs, d) => (.u16s vs, d)
  | .readU32Slice => d.readU32Slice.map fun (vs, d) => (.u32s vs, d)
  | .decodeVarint => d.decodeVarint.map fun (v, d) => (.u64 v, d)
  | .readVarintU32 => d.readVarintU32.map fun (v, d) => (.u32 v, d)
  | .readVarintU64 => d.readVarintU64.map fun (v, d) => (.u64 v, d)
  | .readZigzagU32 => d.readZigzagU32.map fun (v, d) => (.u32 v, d)
  | .readZigzagU64 => d.readZigzagU64.map fun (v, d) => (.u64 v, d)

/-- A sequence of calls: the replies in order and the decoder afterwards. -/
def run (d : GoDecoder) : List Call → Option (List Reply × GoDecoder)
  | [] => some ([], d)
  | c :: cs => do
    let (r, d) ← d.call c
    let (rs, d) ← run d cs
    pure (r :: rs, d)

/-- `Failed()`. -/
def failed (d : GoDecoder) : Bool := d.err != 0

end GoDecoder

end Sophon.Server.Codec
