/-
A message of typed fields survives the codec.

A message is a list of fields, each of one of the kinds the codec has a `Write*` and a
`Read*` method for.  The encoder writes them in order with one method each
(`writeFields`); a decoder on the encoder's bytes reads them back in the same order,
choosing the method by the field's kind alone (`readFields`).  Each write appends the
bytes `Field.wire` (`writeField_eq`), each read at the start of those bytes takes the
field back and moves the cursor past them (`readField_at`), so a message reads back
field by field by induction on it.

Two limits come from the code.  `WriteString255` keeps at most 255 bytes of the text,
so a read gives back that much (`Field.expected`).  The length of `Bytes`,
`BytesWithVarintLen` and the slices is written as a `uint32`: a length of `2 ^ 32` or
more is cut to its low 32 bits, the reader takes fewer bytes than were written, and
every later field is read from the wrong place (`simpleCodec_bytes_wrap`).  A field the
codec takes back whole is one within both limits (`Field.Fits`).
-/
import Sophon.Server.CodecSpec

namespace Sophon.Server.Codec

open LittleEndian

/-- A field of a message, with its value. -/
inductive Field
  | u8 (v : UInt8)
  | bool (v : Bool)
  | u16 (v : UInt16)
  | u32 (v : UInt32)
  | u64 (v : UInt64)
  | ipv6 (v : List UInt8)
  | string255 (v : List UInt8)
  | bytes (v : List UInt8)
  | bytesWithVarintLen (v : List UInt8)
  | u16Slice (vs : List UInt16)
  | u32Slice (vs : List UInt32)
  | varintU32 (v : UInt32)
  | varintU64 (v : UInt64)
  | zigzagU32 (v : UInt32)
  | zigzagU64 (v : UInt64)
  | prefixU64 (v : UInt64)
  deriving DecidableEq, Repr

/-- The kind of a field: which `Read*` method takes it back. -/
inductive Kind
  | u8 | bool | u16 | u32 | u64 | ipv6 | string255 | bytes | bytesWithVarintLen
  | u16Slice | u32Slice | varintU32 | varintU64 | zigzagU32 | zigzagU64 | prefixU64
  deriving DecidableEq, Repr

namespace Field

def kind : Field → Kind
  | .u8 _ => .u8
  | .bool _ => .bool
  | .u16 _ => .u16
  | .u32 _ => .u32
  | .u64 _ => .u64
  | .ipv6 _ => .ipv6
  | .string255 _ => .string255
  | .bytes _ => .bytes
  | .bytesWithVarintLen _ => .bytesWithVarintLen
  | .u16Slice _ => .u16Slice
  | .u32Slice _ => .u32Slice
  | .varintU32 _ => .varintU32
  | .varintU64 _ => .varintU64
  | .zigzagU32 _ => .zigzagU32
  | .zigzagU64 _ => .zigzagU64
  | .prefixU64 _ => .prefixU64

/-- What a read gives back: the text of a `String255` cut at 255 bytes. -/
def expected : Field → Field
  | .string255 v => .string255 (v.take 255)
  | f => f

/-- A field within the codec's limits: an address of 16 bytes, and lengths below
`2 ^ 32`, which their `uint32` holds. -/
def Fits : Field → Prop
  | .ipv6 v => v.length = 16
  | .bytes v => v.length < 2 ^ 32
  | .bytesWithVarintLen v => v.length < 2 ^ 32
  | .u16Slice vs => vs.length < 2 ^ 32
  | .u32Slice vs => vs.length < 2 ^ 32
  | _ => True

instance (f : Field) : Decidable f.Fits :=
  match f with
  | .u8 _ | .bool _ | .u16 _ | .u32 _ | .u64 _ | .string255 _ | .varintU32 _ | .varintU64 _
  | .zigzagU32 _ | .zigzagU64 _ | .prefixU64 _ => isTrue trivial
  | .ipv6 v => inferInstanceAs (Decidable (v.length = 16))
  | .bytes v => inferInstanceAs (Decidable (v.length < 2 ^ 32))
  | .bytesWithVarintLen v => inferInstanceAs (Decidable (v.length < 2 ^ 32))
  | .u16Slice vs => inferInstanceAs (Decidable (vs.length < 2 ^ 32))
  | .u32Slice vs => inferInstanceAs (Decidable (vs.length < 2 ^ 32))

/-- The bytes the matching `Write*` method appends for a field within the limits. -/
def wire : Field → List UInt8
  | .u8 v => [v]
  | .bool v => [if v then 1 else 0]
  | .u16 v => putUint16 v
  | .u32 v => putUint32 v
  | .u64 v => putUint64 v
  | .ipv6 v => v
  | .string255 v => (if v.length > 255 then 255 else v.length).toUInt8 :: v.take 255
  | .bytes v => putUint32 v.length.toUInt32 ++ v
  | .bytesWithVarintLen v => Varint.encode v.length ++ v
  | .u16Slice vs => putUint32 vs.length.toUInt32 ++ vs.flatMap putUint16
  | .u32Slice vs => putUint32 vs.length.toUInt32 ++ vs.flatMap putUint32
  | .varintU32 v => Varint.encode v.toNat
  | .varintU64 v => Varint.encode v.toNat
  | .zigzagU32 v => Varint.encode (Zigzag.encode 32 v.toNat)
  | .zigzagU64 v => Varint.encode (Zigzag.encode 64 v.toNat)
  | .prefixU64 v => PrefixVarint.encode v.toNat

end Field

/-- The matching `Write*` call. -/
def SimpleEncoder.writeField (e : SimpleEncoder) : Field → Option SimpleEncoder
  | .u8 v => some (e.writeU8 v)
  | .bool v => some (e.writeBool v)
  | .u16 v => some (e.writeU16 v)
  | .u32 v => some (e.writeU32 v)
  | .u64 v => some (e.writeU64 v)
  | .ipv6 v => e.writeIPv6 v
  | .string255 v => some (e.writeString255 v)
  | .bytes v => some (e.writeBytes v)
  | .bytesWithVarintLen v => some (e.writeBytesWithVarintLen v)
  | .u16Slice vs => some (e.writeU16Slice vs)
  | .u32Slice vs => some (e.writeU32Slice vs)
  | .varintU32 v => some (e.writeVarintU32 v)
  | .varintU64 v => some (e.writeVarintU64 v)
  | .zigzagU32 v => some (e.writeZigzagU32 v)
  | .zigzagU64 v => some (e.writeZigzagU64 v)
  | .prefixU64 v => some (e.writePrefixU64 v)

/-- The fields of a message, written in order. -/
def SimpleEncoder.writeFields (e : SimpleEncoder) (fs : List Field) : Option SimpleEncoder :=
  fs.foldlM SimpleEncoder.writeField e

/-- The matching `Read*` call; `ReadIPv6` is handed a 16-byte buffer. -/
def SimpleDecoder.readField (d : SimpleDecoder) : Kind → Option (Field × SimpleDecoder)
  | .u8 => let (v, d) := d.readU8; some (.u8 v, d)
  | .bool => let (v, d) := d.readBool; some (.bool v, d)
  | .u16 => let (v, d) := d.readU16; some (.u16 v, d)
  | .u32 => let (v, d) := d.readU32; some (.u32 v, d)
  | .u64 => let (v, d) := d.readU64; some (.u64 v, d)
  | .ipv6 => (d.readIPv6 (List.replicate 16 0)).map fun (v, d) => (.ipv6 v, d)
  | .string255 => let (v, d) := d.readString255; some (.string255 v, d)
  | .bytes => let (v, d) := d.readBytes; some (.bytes v, d)
  | .bytesWithVarintLen => let (v, d) := d.readBytesWithVarintLen; some (.bytesWithVarintLen v, d)
  | .u16Slice => let (vs, d) := d.readU16Slice; some (.u16Slice vs, d)
  | .u32Slice => let (vs, d) := d.readU32Slice; some (.u32Slice vs, d)
  | .varintU32 => let (v, d) := d.readVarintU32; some (.varintU32 v, d)
  | .varintU64 => let (v, d) := d.readVarintU64; some (.varintU64 v, d)
  | .zigzagU32 => let (v, d) := d.readZigzagU32; some (.zigzagU32 v, d)
  | .zigzagU64 => let (v, d) := d.readZigzagU64; some (.zigzagU64 v, d)
  | .prefixU64 => d.readPrefixU64.map fun (v, d) => (.prefixU64 v, d)

/-- The fields of the given kinds, read in order. -/
def SimpleDecoder.readFields (d : SimpleDecoder) : List Kind → Option (List Field × SimpleDecoder)
  | [] => some ([], d)
  | k :: ks => do
    let (f, d) ← d.readField k
    let (fs, d) ← d.readFields ks
    pure (f :: fs, d)

/-! ### One field -/

/-- Each `Write*` appends the field's wire bytes. -/
theorem writeField_eq (e : SimpleEncoder) {f : Field} (hf : f.Fits) :
    e.writeField f = some ⟨e.buf ++ f.wire⟩ := by
  cases f with
  | ipv6 v =>
    simp only [SimpleEncoder.writeField, SimpleEncoder.writeIPv6, Field.wire]
    rw [if_neg (by simpa [Field.Fits] using hf)]
  | string255 v =>
    simp only [SimpleEncoder.writeField, SimpleEncoder.writeString255, Field.wire]
    have htake : v.take (if v.length > 255 then 255 else v.length) = v.take 255 := by
      split
      · rfl
      · rw [List.take_of_length_le (Nat.le_refl _), List.take_of_length_le (by omega)]
    rw [htake, List.append_assoc, List.singleton_append]
  | bytes v =>
    simp only [SimpleEncoder.writeField, SimpleEncoder.writeBytes, SimpleEncoder.writeU32, Field.wire,
      List.append_assoc]
  | bytesWithVarintLen v =>
    have hlen : v.length < 2 ^ 32 := hf
    simp only [SimpleEncoder.writeField, SimpleEncoder.writeBytesWithVarintLen,
      SimpleEncoder.writeVarintU32, SimpleEncoder.encodeVarint_eq, UInt32.toNat_toUInt64,
      toNat_length_toUInt32 hlen, Field.wire, List.append_assoc]
  | u16Slice vs => simp only [SimpleEncoder.writeField, SimpleEncoder.writeU16Slice_eq, Field.wire,
      List.append_assoc]
  | u32Slice vs => simp only [SimpleEncoder.writeField, SimpleEncoder.writeU32Slice_eq, Field.wire,
      List.append_assoc]
  | varintU32 v => simp only [SimpleEncoder.writeField, SimpleEncoder.writeVarintU32,
      SimpleEncoder.encodeVarint_eq, UInt32.toNat_toUInt64, Field.wire]
  | varintU64 v => simp only [SimpleEncoder.writeField, SimpleEncoder.writeVarintU64,
      SimpleEncoder.encodeVarint_eq, Field.wire]
  | zigzagU32 v => simp only [SimpleEncoder.writeField, SimpleEncoder.writeZigzagU32,
      SimpleEncoder.encodeVarint_eq, UInt32.toNat_toUInt64, zigzagU32_toNat, Field.wire]
  | zigzagU64 v => simp only [SimpleEncoder.writeField, SimpleEncoder.writeZigzagU64,
      SimpleEncoder.encodeVarint_eq, zigzagU64_toNat, Field.wire]
  | prefixU64 v => simp only [SimpleEncoder.writeField, SimpleEncoder.writePrefixU64_eq, Field.wire]
  | bool v => cases v <;> rfl
  | u8 v | u16 v | u32 v | u64 v => rfl

/-- Each `Read*` at the start of a field's wire bytes takes the field back, as far as
the writer kept it, and moves the cursor past them. -/
theorem readField_at {d : SimpleDecoder} {pre rest : List UInt8} {f : Field} (hf : f.Fits)
    (hbuf : d.buf = pre ++ f.wire ++ rest) (hoff : d.offset = pre.length) :
    d.readField f.kind = some (f.expected, { d with offset := d.offset + f.wire.length }) := by
  cases f with
  | u8 v => simp only [Field.kind, SimpleDecoder.readField, SimpleDecoder.readU8_at hbuf hoff]; rfl
  | bool v => simp only [Field.kind, SimpleDecoder.readField, SimpleDecoder.readBool_at hbuf hoff]; rfl
  | u16 v => simp only [Field.kind, SimpleDecoder.readField, SimpleDecoder.readU16_at hbuf hoff]; rfl
  | u32 v => simp only [Field.kind, SimpleDecoder.readField, SimpleDecoder.readU32_at hbuf hoff]; rfl
  | u64 v => simp only [Field.kind, SimpleDecoder.readField, SimpleDecoder.readU64_at hbuf hoff]; rfl
  | ipv6 v =>
    have hv : v.length = 16 := hf
    simp only [Field.kind, SimpleDecoder.readField,
      SimpleDecoder.readIPv6_at List.length_replicate hv hbuf hoff, Option.map_some, Field.expected,
      Field.wire, hv]
  | string255 v =>
    have hl : (if v.length > 255 then 255 else v.length) < 256 := by split <;> omega
    have hbs : (v.take 255).length = if v.length > 255 then 255 else v.length := by
      rw [List.length_take]
      split <;> omega
    simp only [Field.kind, SimpleDecoder.readField, SimpleDecoder.readString255_at hl hbs hbuf hoff,
      Field.expected, Field.wire, List.length_cons, hbs]
    rw [Nat.add_assoc, Nat.add_comm 1]
  | bytes v =>
    simp only [Field.kind, SimpleDecoder.readField, SimpleDecoder.readBytes_at hf hbuf hoff,
      Field.expected, Field.wire, List.length_append, length_putUint32, Nat.add_assoc]
  | bytesWithVarintLen v =>
    simp only [Field.kind, SimpleDecoder.readField, SimpleDecoder.readBytesWithVarintLen_at hf hbuf hoff,
      Field.expected, Field.wire, List.length_append, Nat.add_assoc]
  | u16Slice vs =>
    simp only [Field.kind, SimpleDecoder.readField, SimpleDecoder.readU16Slice_at hf hbuf hoff,
      Field.expected, Field.wire, List.length_append, length_putUint32,
      length_flatMap_const length_putUint16 vs, Nat.add_assoc]
  | u32Slice vs =>
    simp only [Field.kind, SimpleDecoder.readField, SimpleDecoder.readU32Slice_at hf hbuf hoff,
      Field.expected, Field.wire, List.length_append, length_putUint32,
      length_flatMap_const length_putUint32 vs, Nat.add_assoc]
  | varintU32 v =>
    simp only [Field.kind, SimpleDecoder.readField, SimpleDecoder.readVarintU32_at hbuf hoff]; rfl
  | varintU64 v =>
    simp only [Field.kind, SimpleDecoder.readField, SimpleDecoder.readVarintU64_at hbuf hoff]; rfl
  | zigzagU32 v =>
    simp only [Field.kind, SimpleDecoder.readField, SimpleDecoder.readZigzagU32_at hbuf hoff]; rfl
  | zigzagU64 v =>
    simp only [Field.kind, SimpleDecoder.readField, SimpleDecoder.readZigzagU64_at hbuf hoff]; rfl
  | prefixU64 v =>
    simp only [Field.kind, SimpleDecoder.readField, SimpleDecoder.readPrefixU64_at hbuf hoff,
      Option.map_some]
    rfl

/-! ### A message -/

/-- The encoder appends the message's wire bytes, field after field. -/
theorem writeFields_eq (e : SimpleEncoder) {fs : List Field} (hfits : ∀ f ∈ fs, f.Fits) :
    e.writeFields fs = some ⟨e.buf ++ fs.flatMap Field.wire⟩ := by
  induction fs generalizing e with
  | nil => simp [SimpleEncoder.writeFields]
  | cons f fs ih =>
    have hrest := ih ⟨e.buf ++ f.wire⟩ fun g hg => hfits g (List.mem_cons_of_mem f hg)
    unfold SimpleEncoder.writeFields at hrest ⊢
    rw [List.foldlM_cons, writeField_eq e (hfits f List.mem_cons_self), Option.bind_eq_bind,
      Option.bind_some, hrest, List.flatMap_cons, List.append_assoc]

/-- A decoder at the start of a message's bytes reads it back, field after field, and
stops at its end; the error count does not move. -/
theorem readFields_at {fs : List Field} (hfits : ∀ f ∈ fs, f.Fits) :
    ∀ {d : SimpleDecoder} {pre rest : List UInt8}, d.buf = pre ++ fs.flatMap Field.wire ++ rest →
      d.offset = pre.length →
      d.readFields (fs.map Field.kind) =
        some (fs.map Field.expected, { d with offset := d.offset + (fs.flatMap Field.wire).length }) := by
  induction fs with
  | nil => intro d _ _ _ _; simp [SimpleDecoder.readFields]
  | cons f fs ih =>
    intro d pre rest hbuf hoff
    have hhead : d.buf = pre ++ f.wire ++ (fs.flatMap Field.wire ++ rest) := by
      rw [hbuf, List.flatMap_cons]
      simp
    have hbuf' : d.buf = (pre ++ f.wire) ++ fs.flatMap Field.wire ++ rest := by
      rw [hbuf, List.flatMap_cons]
      simp
    have hoff' : d.offset + f.wire.length = (pre ++ f.wire).length := by simp [hoff]
    have htail := ih (fun g hg => hfits g (List.mem_cons_of_mem f hg))
      (d := { d with offset := d.offset + f.wire.length }) hbuf' hoff'
    simp only [List.map_cons, SimpleDecoder.readFields, readField_at (hfits f List.mem_cons_self) hhead hoff,
      htail, Option.bind_eq_bind, Option.bind_some, List.flatMap_cons, List.length_append, Nat.add_assoc]
    rfl

/-- **Round trip.**  A message whose fields are within the codec's limits, written from
an empty encoder and read back by a decoder on its bytes with the methods of its kinds,
comes back field for field (a `String255` cut at 255 bytes), with no failed read and the
cursor at the end of the bytes. -/
theorem simpleCodec_roundTrip (fs : List Field) (hfits : ∀ f ∈ fs, f.Fits) :
    ∃ e, SimpleEncoder.writeFields ⟨[]⟩ fs = some e ∧
      ∃ d, (SimpleDecoder.init e.buf).readFields (fs.map Field.kind) = some (fs.map Field.expected, d) ∧
        d.failed = false ∧ d.offset = e.buf.length ∧ d.isEnd = true := by
  have hbuf : (SimpleDecoder.init ([] ++ fs.flatMap Field.wire)).buf = [] ++ fs.flatMap Field.wire ++ [] := by
    simp [SimpleDecoder.init]
  refine ⟨_, writeFields_eq _ hfits, _, readFields_at hfits hbuf rfl, rfl, by simp [SimpleDecoder.init], ?_⟩
  simp [SimpleDecoder.isEnd, SimpleDecoder.init]

theorem simpleCodec_roundTrip_mixed :
    (∀ f ∈ [Field.u8 7, .bool true, .ipv6 (List.replicate 16 1), .string255 [104, 105],
      .u16Slice [], .zigzagU32 0xffffffff, .prefixU64 300], f.Fits) ∧
    ∃ e, SimpleEncoder.writeFields ⟨[]⟩ [Field.u8 7, .bool true, .ipv6 (List.replicate 16 1),
      .string255 [104, 105], .u16Slice [], .zigzagU32 0xffffffff, .prefixU64 300] = some e ∧
      ∃ d, (SimpleDecoder.init e.buf).readFields
          ([Field.u8 7, .bool true, .ipv6 (List.replicate 16 1), .string255 [104, 105],
            .u16Slice [], .zigzagU32 0xffffffff, .prefixU64 300].map Field.kind) =
          some ([Field.u8 7, .bool true, .ipv6 (List.replicate 16 1), .string255 [104, 105],
            .u16Slice [], .zigzagU32 0xffffffff, .prefixU64 300].map Field.expected, d) ∧
        d.failed = false ∧ d.offset = e.buf.length ∧ d.isEnd = true :=
  ⟨by decide, simpleCodec_roundTrip _ (by decide)⟩

/-- A `Bytes` field of `2 ^ 32` bytes: its length is written as the `uint32` zero, so the
reader takes an empty field and stops four bytes in, short of the end. -/
theorem simpleCodec_bytes_wrap :
    ∃ e, SimpleEncoder.writeFields ⟨[]⟩ [Field.bytes (List.replicate (2 ^ 32) 0)] = some e ∧
      ∃ d, (SimpleDecoder.init e.buf).readFields [Kind.bytes] = some ([Field.bytes []], d) ∧
        d.offset = 4 ∧ d.isEnd = false := by
  -- the field's bytes stay symbolic: only their length matters
  generalize hz : List.replicate (2 ^ 32) (0 : UInt8) = z
  have hlen : z.length = 2 ^ 32 := by rw [← hz, List.length_replicate]
  have hbuf : (SimpleDecoder.init (putUint32 z.length.toUInt32 ++ z)).buf =
      [] ++ (putUint32 z.length.toUInt32 ++ z) ++ [] := by
    rw [List.nil_append, List.append_nil]
    rfl
  have hread := SimpleDecoder.readBytes_wrap hbuf rfl
  have hnone : z.length % 2 ^ 32 = 0 := by rw [hlen, Nat.mod_self]
  rw [hnone, List.take_zero] at hread
  refine ⟨⟨putUint32 z.length.toUInt32 ++ z⟩, rfl, ?_⟩
  rw [SimpleDecoder.readFields, SimpleDecoder.readField,
    show (SimpleDecoder.init ({ buf := putUint32 z.length.toUInt32 ++ z } : SimpleEncoder).buf).readBytes = _
      from hread]
  refine ⟨_, rfl, rfl, ?_⟩
  simp only [SimpleDecoder.isEnd, SimpleDecoder.init, List.length_append, length_putUint32, hlen]
  decide

end Sophon.Server.Codec
