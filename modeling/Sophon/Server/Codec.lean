/-
The server's binary codec (`server/libs/codec`): `SimpleEncoder` appends typed fields
to a byte buffer, and `SimpleDecoder` reads them back in the same order with one
cursor that every read moves.

The encoder is its buffer; the decoder is the buffer, the cursor `offset` and the
count `err` of reads that ran past the end.  Every fixed-size read has one shape,
`readFixed`: move the cursor past the field, and if that passes the end, count an
error and return the zero value.  The varint reader has a fast path for a buffer
with ten bytes or more left and a slow loop for the rest (`decodeVarintFast`,
`decodeVarintSlowLoop`); the prefix varint is sized by de Bruijn tables.

Go's `int` and `uint32` are `Nat` and `UInt32` here; `uint32(len(v))` is
`v.length.toUInt32`, which drops the bits of the length above 32.  An index or a slice
outside the buffer panics in Go; the only read that can reach one is `ReadPrefixU64`,
which returns `none` for it.
-/
import Sophon.Lib.ByteCoding

namespace Sophon.Server.Codec

open LittleEndian

/-! ### `encoding/binary` -/

/-- `binary.LittleEndian.PutUint16`. -/
def putUint16 (v : UInt16) : List UInt8 := toLE 2 v.toNat

/-- `binary.LittleEndian.PutUint32`. -/
def putUint32 (v : UInt32) : List UInt8 := toLE 4 v.toNat

/-- `binary.LittleEndian.PutUint64`. -/
def putUint64 (v : UInt64) : List UInt8 := toLE 8 v.toNat

/-- `binary.LittleEndian.Uint16`: the first two bytes (Go panics on fewer; no caller
passes fewer). -/
def uint16 (b : List UInt8) : UInt16 := (ofLE (b.take 2)).toUInt16

/-- `binary.LittleEndian.Uint32`. -/
def uint32 (b : List UInt8) : UInt32 := (ofLE (b.take 4)).toUInt32

/-- `binary.LittleEndian.Uint64`. -/
def uint64 (b : List UInt8) : UInt64 := (ofLE (b.take 8)).toUInt64

/-- Go's `buf[a:b]`, where the caller has checked `b <= len(buf)`. -/
def slice (buf : List UInt8) (a b : Nat) : List UInt8 := (buf.drop a).take (b - a)

/-- Go's `x << s` on a `uint64`: a shift by 64 or more clears every bit. -/
def shiftLeft64 (x : UInt64) (s : Nat) : UInt64 := if s < 64 then x <<< s.toUInt64 else 0

/-! ### The prefix varint's bit counts -/

/-- `de_Bruijn_lookup_trailing`. -/
def deBruijnLookupTrailing : List Nat :=
  [0, 1, 28, 2, 29, 14, 24, 3, 30, 22, 20, 15, 25, 17, 4, 8, 31, 27, 13, 23, 21, 19, 16, 7, 26,
    12, 18, 6, 11, 5, 10, 9]

/-- `de_Bruijn_lookup_leading`. -/
def deBruijnLookupLeading : List Nat :=
  [31, 22, 30, 21, 18, 10, 29, 2, 20, 17, 15, 13, 9, 6, 28, 1, 23, 19, 11, 3, 16, 14, 7, 24, 12,
    4, 8, 25, 5, 26, 27, 0]

/-- `count_trailing_zeros_32`: the lowest set bit times the de Bruijn constant, whose top
five bits then name the bit. -/
def countTrailingZeros32 (x : UInt32) : Nat :=
  deBruijnLookupTrailing.getD ((((x &&& -x) * 0x077cb531) &&& 0xffffffff) >>> 27).toNat 0

/-- `count_leading_zeros_32`: every bit below the top one set, then the same lookup. -/
def countLeadingZeros32 (x : UInt32) : Nat :=
  let x := x ||| x >>> 1
  let x := x ||| x >>> 2
  let x := x ||| x >>> 4
  let x := x ||| x >>> 8
  let x := x ||| x >>> 16
  deBruijnLookupLeading.getD (((x * 0x07c4acdd) &&& 0xffffffff) >>> 27).toNat 0

/-- `count_leading_zeros_64`. -/
def countLeadingZeros64 (x : UInt64) : Nat :=
  if x >>> 32 = 0 then 32 + countLeadingZeros32 (x &&& 0xffffffff).toUInt32
  else countLeadingZeros32 (x >>> 32).toUInt32

/-- `bytesToUint64`. -/
def bytesToUint64 (b : List UInt8) : UInt64 :=
  (List.range b.length).foldl (fun r i => r ||| shiftLeft64 (b.getD i 0).toUInt64 (8 * i)) 0

/-! ### The encoder -/

/-- `SimpleEncoder`; its reference count only serves the pool. -/
structure SimpleEncoder where
  buf : List UInt8

namespace SimpleEncoder

def writeBool (e : SimpleEncoder) (v : Bool) : SimpleEncoder :=
  if v then ⟨e.buf ++ [1]⟩ else ⟨e.buf ++ [0]⟩

def writeU8 (e : SimpleEncoder) (v : UInt8) : SimpleEncoder := ⟨e.buf ++ [v]⟩

def writeU16 (e : SimpleEncoder) (v : UInt16) : SimpleEncoder := ⟨e.buf ++ putUint16 v⟩

def writeU32 (e : SimpleEncoder) (v : UInt32) : SimpleEncoder := ⟨e.buf ++ putUint32 v⟩

def writeU64 (e : SimpleEncoder) (v : UInt64) : SimpleEncoder := ⟨e.buf ++ putUint64 v⟩

def writeU16Slice (e : SimpleEncoder) (vs : List UInt16) : SimpleEncoder :=
  vs.foldl (fun e v => ⟨e.buf ++ putUint16 v⟩) (e.writeU32 vs.length.toUInt32)

def writeU32Slice (e : SimpleEncoder) (vs : List UInt32) : SimpleEncoder :=
  vs.foldl (fun e v => ⟨e.buf ++ putUint32 v⟩) (e.writeU32 vs.length.toUInt32)

/-- `WriteIPv6` panics unless the address has 16 bytes. -/
def writeIPv6 (e : SimpleEncoder) (v : List UInt8) : Option SimpleEncoder :=
  if v.length ≠ 16 then none else some ⟨e.buf ++ v⟩

/-- `WriteString255`: the length in one byte, and no more than 255 bytes of the text. -/
def writeString255 (e : SimpleEncoder) (v : List UInt8) : SimpleEncoder :=
  let length := if v.length > 255 then 255 else v.length
  let e : SimpleEncoder := ⟨e.buf ++ [length.toUInt8]⟩
  ⟨e.buf ++ v.take length⟩

def writeBytes (e : SimpleEncoder) (v : List UInt8) : SimpleEncoder :=
  let e := e.writeU32 v.length.toUInt32
  ⟨e.buf ++ v⟩

/-- `encodeVarint`: seven bits a byte while more than seven are left, the top bit set on
all but the last byte. -/
def encodeVarint (e : SimpleEncoder) (x : UInt64) : SimpleEncoder :=
  if x ≥ ((1 : UInt64) <<< 7) then encodeVarint ⟨e.buf ++ [(x &&& 0x7f ||| 0x80).toUInt8]⟩ (x >>> 7)
  else ⟨e.buf ++ [x.toUInt8]⟩
termination_by x.toNat
decreasing_by
  rename_i hx
  have h : ((1 : UInt64) <<< 7).toNat = 128 := rfl
  rw [ge_iff_le, UInt64.le_iff_toNat_le, h] at hx
  rw [UInt64.toNat_shiftRight]
  simp only [UInt64.reduceToNat, Nat.reduceMod, Nat.shiftRight_eq_div_pow]
  omega

def writeZigzagU32 (e : SimpleEncoder) (v : UInt32) : SimpleEncoder :=
  e.encodeVarint ((v <<< 1) ^^^ (v.toInt32 >>> 31).toUInt32).toUInt64

def writeZigzagU64 (e : SimpleEncoder) (v : UInt64) : SimpleEncoder :=
  e.encodeVarint ((v <<< 1) ^^^ (v.toInt64 >>> 63).toUInt64)

def writeVarintU32 (e : SimpleEncoder) (v : UInt32) : SimpleEncoder := e.encodeVarint v.toUInt64

def writeVarintU64 (e : SimpleEncoder) (v : UInt64) : SimpleEncoder := e.encodeVarint v

def writeBytesWithVarintLen (e : SimpleEncoder) (v : List UInt8) : SimpleEncoder :=
  let e := e.writeVarintU32 v.length.toUInt32
  ⟨e.buf ++ v⟩

/-- The loop of `WritePrefixU64`: `n` times, append the low byte of `x` and shift it out. -/
def appendLowBytes (e : SimpleEncoder) : Nat → UInt64 → SimpleEncoder
  | 0, _ => e
  | n + 1, x => appendLowBytes ⟨e.buf ++ [(x &&& 0xff).toUInt8]⟩ n (x >>> 8)

/-- `WritePrefixU64`: `bytes` bytes of seven payload bits, the count in unary below them;
past 56 bits, a zero byte and the eight bytes of `x`. -/
def writePrefixU64 (e : SimpleEncoder) (x : UInt64) : SimpleEncoder :=
  let bits := 64 - countLeadingZeros64 (x ||| 1)
  let bytes := 1 + (bits - 1) / 7
  if bits > 56 then appendLowBytes ⟨e.buf ++ [0]⟩ 8 x
  else appendLowBytes e bytes ((2 * x + 1) <<< (bytes - 1).toUInt64)

end SimpleEncoder

/-! ### The decoder -/

/-- `SimpleDecoder`. -/
structure SimpleDecoder where
  buf : List UInt8
  offset : Nat
  err : Nat

/-- What `decodeVarintSlow` fails with: `io.ErrUnexpectedEOF`, or
`"decode: integer overflow"` after ten bytes with the top bit set. -/
inductive VarintError
  | unexpectedEOF
  | overflow
  deriving DecidableEq, Repr

/-- The loop of `decodeVarintSlow`, over the shifts `0, 7, …, 63`: or the payload of the
byte at `i` in at the shift, and stop at a byte without the top bit.  It returns the
value so far, and where it stopped or why it failed. -/
def decodeVarintSlowLoop (buf : List UInt8) : List Nat → Nat → UInt64 → UInt64 × Except VarintError Nat
  | [], _, x => (x, .error .overflow)
  | shift :: shifts, i, x =>
    if i ≥ buf.length then (x, .error .unexpectedEOF)
    else
      let b := buf.getD i 0
      let x := x ||| ((b.toUInt64 &&& 0x7F) <<< shift.toUInt64)
      if b < 0x80 then (x, .ok (i + 1)) else decodeVarintSlowLoop buf shifts (i + 1) x

/-- The unrolled fast path of `DecodeVarint`, one turn per shift `7, 14, …, 63`: add the
byte at the shift, and if its top bit is set take the bit back out and go on.  Ten bytes
are left, so every byte read is in the buffer.  The source skips the subtraction at the
last shift, where it is zero, and fails. -/
def decodeVarintFast (buf : List UInt8) : List Nat → Nat → UInt64 → Option (UInt64 × Nat)
  | [], _, _ => none
  | shift :: shifts, i, x =>
    let b := (buf.getD i 0).toUInt64
    let x := x + (b <<< shift.toUInt64)
    if b &&& 0x80 = 0 then some (x, i + 1)
    else decodeVarintFast buf shifts (i + 1) (x - (0x80 <<< shift.toUInt64))

namespace SimpleDecoder

def init (buf : List UInt8) : SimpleDecoder := ⟨buf, 0, 0⟩

/-- The shape of every fixed-size read: move the cursor past `n` bytes; past the end,
count an error and return `zero`, else read the value from the buffer and the new
cursor. -/
def readFixed {α : Type} (d : SimpleDecoder) (n : Nat) (zero : α) (read : List UInt8 → Nat → α) :
    α × SimpleDecoder :=
  let d := { d with offset := d.offset + n }
  if d.offset > d.buf.length then (zero, { d with err := d.err + 1 })
  else (read d.buf d.offset, d)

def readU8 (d : SimpleDecoder) : UInt8 × SimpleDecoder :=
  d.readFixed 1 0 fun buf offset => buf.getD (offset - 1) 0

def readBool (d : SimpleDecoder) : Bool × SimpleDecoder :=
  d.readFixed 1 false fun buf offset => buf.getD (offset - 1) 0 == 1

def readU16 (d : SimpleDecoder) : UInt16 × SimpleDecoder :=
  d.readFixed 2 0 fun buf offset => uint16 (slice buf (offset - 2) offset)

def readU32 (d : SimpleDecoder) : UInt32 × SimpleDecoder :=
  d.readFixed 4 0 fun buf offset => uint32 (slice buf (offset - 4) offset)

def readU64 (d : SimpleDecoder) : UInt64 × SimpleDecoder :=
  d.readFixed 8 0 fun buf offset => uint64 (slice buf (offset - 8) offset)

/-- `ReadU16Slice`: the count, then that many `uint16`s; `nil` for none. -/
def readU16Slice (d : SimpleDecoder) : List UInt16 × SimpleDecoder :=
  let (l, d) := d.readU32
  let l := l.toNat
  if l = 0 then ([], d)
  else d.readFixed (l * 2) [] fun buf offset =>
    (List.range' 1 l).reverse.map fun i => uint16 (slice buf (offset - 2 * i) (offset - 2 * i + 2))

def readU32Slice (d : SimpleDecoder) : List UInt32 × SimpleDecoder :=
  let (l, d) := d.readU32
  let l := l.toNat
  if l = 0 then ([], d)
  else d.readFixed (l * 4) [] fun buf offset =>
    (List.range' 1 l).reverse.map fun i => uint32 (slice buf (offset - 4 * i) (offset - 4 * i + 4))

/-- `ReadIPv6` copies the address into `v`, which must have 16 bytes, and leaves `v` as it
was when the buffer ends first. -/
def readIPv6 (d : SimpleDecoder) (v : List UInt8) : Option (List UInt8 × SimpleDecoder) :=
  if v.length ≠ 16 then none
  else some (d.readFixed 16 v fun buf offset => slice buf (offset - 16) offset)

def readString255 (d : SimpleDecoder) : List UInt8 × SimpleDecoder :=
  let (l, d) := d.readU8
  d.readFixed l.toNat [] fun buf offset => slice buf (offset - l.toNat) offset

def readBytes (d : SimpleDecoder) : List UInt8 × SimpleDecoder :=
  let (l, d) := d.readU32
  d.readFixed l.toNat [] fun buf offset => slice buf (offset - l.toNat) offset

def readBytesN (d : SimpleDecoder) (n : Nat) : List UInt8 × SimpleDecoder :=
  d.readFixed n [] fun buf offset => slice buf (offset - n) offset

/-- `decodeVarintSlow`. -/
def decodeVarintSlow (d : SimpleDecoder) : (UInt64 × Option VarintError) × SimpleDecoder :=
  match decodeVarintSlowLoop d.buf ((List.range 10).map (7 * ·)) d.offset 0 with
  | (x, .ok i) => ((x, none), { d with offset := i })
  | (x, .error err) => ((x, some err), { d with err := d.err + 1 })

/-- `DecodeVarint`: a byte without the top bit on its own, the slow loop when fewer than
ten bytes are left, the unrolled fast path otherwise. -/
def decodeVarint (d : SimpleDecoder) : UInt64 × SimpleDecoder :=
  let i := d.offset
  let buf := d.buf
  if i ≥ buf.length then (0, { d with err := d.err + 1 })
  else if buf.getD i 0 < 0x80 then ((buf.getD i 0).toUInt64, { d with offset := d.offset + 1 })
  else if buf.length - i < 10 then
    let ((v, _), d) := d.decodeVarintSlow
    (v, d)
  else
    match decodeVarintFast buf ((List.range' 1 9).map (7 * ·)) (i + 1) ((buf.getD i 0).toUInt64 - 0x80) with
    | some (x, i) => (x, { d with offset := i })
    | none => (0, { d with err := d.err + 1 })

def readZigzagU32 (d : SimpleDecoder) : UInt32 × SimpleDecoder :=
  let (x, d) := d.decodeVarint
  ((x.toUInt32 >>> 1) ^^^ (((x &&& 1).toUInt32.toInt32 <<< 31) >>> 31).toUInt32, d)

def readZigzagU64 (d : SimpleDecoder) : UInt64 × SimpleDecoder :=
  let (x, d) := d.decodeVarint
  ((x >>> 1) ^^^ (((x &&& 1).toInt64 <<< 63) >>> 63).toUInt64, d)

def readVarintU32 (d : SimpleDecoder) : UInt32 × SimpleDecoder :=
  let (x, d) := d.decodeVarint
  (x.toUInt32, d)

def readVarintU64 (d : SimpleDecoder) : UInt64 × SimpleDecoder := d.decodeVarint

def readBytesWithVarintLen (d : SimpleDecoder) : List UInt8 × SimpleDecoder :=
  let (l, d) := d.readVarintU32
  d.readFixed l.toNat [] fun buf offset => slice buf (offset - l.toNat) offset

/-- `ReadPrefixU64`: the length from the trailing zeros of the first byte.  It checks no
bound: a first byte past the end, or a field that runs past it, panics. -/
def readPrefixU64 (d : SimpleDecoder) : Option (UInt64 × SimpleDecoder) :=
  match d.buf[d.offset]? with
  | none => none
  | some first =>
    let length := 1 + countTrailingZeros32 (first.toUInt32 ||| 0x100)
    if length < 9 then
      let unused := 64 - 8 * length
      let d := { d with offset := d.offset + length }
      if (d.buf.length : Int) - d.offset + length > 7 then
        some (uint64 (d.buf.drop (d.offset - length)) <<< unused.toUInt64 >>>
          (unused + length).toUInt64, d)
      else if d.offset ≤ d.buf.length then
        some (bytesToUint64 (slice d.buf (d.offset - length) d.offset) <<< unused.toUInt64 >>>
          (unused + length).toUInt64, d)
      else none
    else
      let d := { d with offset := d.offset + length }
      if d.offset ≤ d.buf.length then some (uint64 (slice d.buf (d.offset - length + 1) d.offset), d)
      else none

def failed (d : SimpleDecoder) : Bool := d.err != 0

def isEnd (d : SimpleDecoder) : Bool := decide (d.offset ≥ d.buf.length)

end SimpleDecoder

end Sophon.Server.Codec
