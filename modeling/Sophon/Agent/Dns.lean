/-
The DNS log parser (`DnsLog::parse` and the decoders under it in
`agent/src/flow_generator/protocol_logs/dns.rs`).

`decode_payload` reads the 12-byte header, then `qd_count` questions and, in a
response, `an_count` answers and `ns_count` authority records.  Each record starts with
a name, which `decode_name` reads label by label, following compression pointers that
must point backwards; it returns the name and the offset after it.  `decode_rdata`
appends the record's data to `info.answers`, separated by `;`.  Over TCP, a payload
that starts with its own length is decoded after the length, and again from the start
when that fails.

The parser writes `&mut DnsInfo` and returns a `Result`, so it is modelled in
`DnsM`: the info is state, an `Err` is an `Except` error with its message, and a panic
is `none`.  The info keeps the state an error leaves it in, as the TCP retry sees it.
Strings are their UTF-8 bytes; `from_utf8` is `Utf8.validate` and slicing a `str` checks
`Utf8.isCharBoundary`.  The nxdomain trie of the parser's configuration is given as the
predicate it decides on the answers.

`decode_name`'s loop stops because every label makes the name longer, and the name may
not pass 255 bytes, while every pointer goes back: `decodeNameLoop` runs `nameTurn` on a
fuel that this measure bounds (`decodeNameLoop_fuel`).

`decode_rdata` looks at the last byte of `answers` through the slice
`&answers[len - 1..]`, which panics when that byte ends a multi-byte character: a name
server record whose name is `é` followed by any other record with data makes
`parse` panic (`parse_nonAsciiAnswer`).
-/
import Sophon.Lib.Utf8
import Sophon.Lib.Loop
import Sophon.Agent.Bytes
import Sophon.Agent.Cidr

namespace Sophon.Agent

/-! ### Constants and the log record -/

def DNS_TCP_PAYLOAD_OFFSET : Nat := 2
def DNS_HEADER_SIZE : Nat := 12
def DNS_HEADER_FLAGS_OFFSET : Nat := 2
def DNS_HEADER_QDCOUNT_OFFSET : Nat := 4
def DNS_HEADER_ANCOUNT_OFFSET : Nat := 6
def DNS_HEADER_NSCOUNT_OFFSET : Nat := 8
def DNS_REQUEST : Nat := 0x00
def DNS_RESPONSE : Nat := 0x80
def DNS_NAME_COMPRESS_POINTER : Nat := 0xc0
def DNS_NAME_TAIL : Nat := 0x00
def DNS_NAME_RESERVERD_40 : Nat := 0x40
def DNS_NAME_RESERVERD_80 : Nat := 0x80
def DNS_NAME_MAX_SIZE : Nat := 255
def QUESTION_CLASS_TYPE_SIZE : Nat := 4
def RR_DATALENGTH_OFFSET : Nat := 8
def RR_RDATA_OFFSET : Nat := 10
def DNS_TYPE_A : Nat := 1
def DNS_TYPE_NS : Nat := 2
def DNS_TYPE_CNAME : Nat := 5
def DNS_TYPE_SOA : Nat := 6
def DNS_TYPE_WKS : Nat := 11
def DNS_TYPE_PTR : Nat := 12
def DNS_TYPE_AAAA : Nat := 28
def DNS_TYPE_DNAME : Nat := 39
def DNS_TYPE_WKS_LENGTH : Nat := 5
def DNS_TYPE_PTR_LENGTH : Nat := 2
def IPV4_ADDR_LEN : Nat := 4
def IPV6_ADDR_LEN : Nat := 16

/-- `DOMAIN_NAME_SPLIT`, the byte of `';'`. -/
def DOMAIN_NAME_SPLIT : UInt8 := 0x3b

/-- `L7ResponseStatus`. -/
inductive L7ResponseStatus where
  | ok
  | notExist
  | serverError
  | clientError
  deriving DecidableEq, Repr

/-- `LogMessageType`. -/
inductive LogMessageType where
  | request
  | response
  | session
  | other
  | max
  deriving DecidableEq, Repr

/-- `DnsInfo`, with the fields the decoders write. -/
structure DnsInfo where
  transId : Nat
  queryType : Nat
  domainType : Nat
  queryName : List UInt8
  answers : List UInt8
  status : L7ResponseStatus
  statusCode : Option Int
  msgType : LogMessageType
  deriving DecidableEq, Repr

instance : Inhabited DnsInfo := ⟨⟨0, 0, 0, [], [], .ok, none, .other⟩⟩

/-! ### Addresses as text -/

/-- `Display for Ipv4Addr`: the four octets in decimal, with dots. -/
def ipv4Text (ip : Nat) : List UInt8 :=
  List.intercalate [0x2e] ([ip / 2 ^ 24 % 256, ip / 2 ^ 16 % 256, ip / 2 ^ 8 % 256, ip % 256].map
    fun o => asciiBytes (Nat.toDigits 10 o))

/-- The longest run of zero segments, the first of the longest: its start and length. -/
def zeroesSpan (segments : List Nat) : Nat × Nat :=
  ((List.range segments.length).foldl (fun (st : (Nat × Nat) × (Nat × Nat)) i =>
    let (longest, current) := st
    if segments.getD i 0 = 0 then
      let current := (if current.2 = 0 then i else current.1, current.2 + 1)
      (if current.2 > longest.2 then current else longest, current)
    else (longest, (0, 0))) ((0, 0), (0, 0))).1

/-- Segments in hexadecimal, separated by colons. -/
def fmtSubslice (chunk : List Nat) : List UInt8 :=
  List.intercalate [0x3a] (chunk.map fun s => asciiBytes (Nat.toDigits 16 s))

/-- `Display for Ipv6Addr`: an IPv4-mapped address as `::ffff:a.b.c.d`, and otherwise
the segments in hexadecimal with the longest run of at least two zero segments as
`::`. -/
def ipv6Text (ip : Nat) : List UInt8 :=
  let octets := (List.range 16).map fun i => ip / 2 ^ (8 * (15 - i)) % 256
  if octets.take 12 = [0, 0, 0, 0, 0, 0, 0, 0, 0, 0, 0xff, 0xff] then
    asciiBytes "::ffff:".toList ++ ipv4Text (ip % 2 ^ 32)
  else
    let segments := (List.range 8).map fun i => ip / 2 ^ (16 * (7 - i)) % 65536
    let (start, len) := zeroesSpan segments
    if len > 1 then fmtSubslice (segments.take start) ++ [0x3a, 0x3a] ++ fmtSubslice (segments.drop (start + len))
    else fmtSubslice segments

/-- `ip.to_string()`. -/
def IpAddr.text : IpAddr → List UInt8
  | .v4 ip => ipv4Text ip
  | .v6 ip => ipv6Text ip

/-- The number a list of bytes spells in big-endian order. -/
def bigEndian (bs : List UInt8) : Nat := bs.foldl (fun acc b => acc * 256 + b.toNat) 0

/-- `parse_ip_slice`: four bytes are an IPv4 address, sixteen an IPv6 one. -/
def parseIpSlice (bs : List UInt8) : Option IpAddr :=
  if bs.length = 4 then some (.v4 (bigEndian bs))
  else if bs.length = 16 then some (.v6 (bigEndian bs))
  else none

/-! ### Names -/

/-- A result of `decode_name`: none for a panic, else the `Result`. -/
abbrev NameResult := Option (Except String (List UInt8 × Nat))

/-- The state of `decode_name`'s loop: the byte it is at, `l_offset`, and the name read
so far. -/
structure NameState where
  index : Nat
  lOffset : Nat
  buffer : List UInt8
  deriving DecidableEq, Repr

/-- A compression pointer at `st.index`: the loop goes on at the earlier byte it points
to. -/
def pointerTurn (payload : List UInt8) (st : NameState) : NameResult ⊕ NameState :=
  if st.index + 2 > payload.length then
    .inl (some (.error ("dns name invalid index: " ++ Nat.repr st.index)))
  else
    match readU16Be payload st.index with
    | none => .inl none
    | some ptr =>
        let indexPtr := ptr &&& 0x3fff
        if indexPtr ≥ st.index then
          .inl (some (.error ("dns name compress pointer invalid: " ++ Nat.repr indexPtr)))
        else .inr { st with index := indexPtr }

/-- The name with a label appended, after a dot unless the name is empty. -/
def appendLabel (buffer label : List UInt8) : List UInt8 :=
  (if buffer.length > 0 then buffer ++ [0x2e] else buffer) ++ label

/-- A label of `len` bytes at `st.index`: it is appended to the name, after a dot, and
the loop goes on after it. -/
def labelTurn (payload : List UInt8) (gOffset : Nat) (st : NameState) (len : Nat) :
    NameResult ⊕ NameState :=
  let size := st.index + 1 + len
  if size > payload.length ∨ (size > gOffset ∧ size - gOffset > DNS_NAME_MAX_SIZE) then
    .inl (some (.error ("dns name invalid index: " ++ Nat.repr size)))
  else
    let label := (payload.drop (st.index + 1)).take len
    match Utf8.validate 0 label with
    | some e => .inl (some (.error ("decode name error " ++ e.toString)))
    | none =>
        let buffer := appendLabel st.buffer label
        if buffer.length > DNS_NAME_MAX_SIZE then
          .inl (some (.error ("dns name invalid length:" ++ Nat.repr buffer.length)))
        else if size ≥ payload.length then
          .inl (some (.error ("dns name invalid index: " ++ Nat.repr size)))
        else
          -- `l_offset` follows the labels read in place, and steps over the second
          -- byte of a pointer when the name ends at or before it
          let lOffset :=
            if size > st.lOffset then size
            else if payload.getD size 0 = 0 then st.lOffset + 1
            else st.lOffset
          .inr ⟨size, lOffset, buffer⟩

/-- One turn of `decode_name`'s loop: the result it stops with, or the state it goes on
from.  The loop stops at the zero byte that ends the name. -/
def nameTurn (payload : List UInt8) (gOffset : Nat) (st : NameState) : NameResult ⊕ NameState :=
  match byteAt payload st.index with
  | none => .inl none
  | some b =>
      if b = DNS_NAME_TAIL then .inl (some (.ok (st.buffer, st.lOffset + 1)))
      else
        let nameType := b &&& 0xc0
        if nameType = DNS_NAME_RESERVERD_40 ∨ nameType = DNS_NAME_RESERVERD_80 then
          .inl (some (.error ("dns name label type error: " ++ Nat.repr b)))
        else if nameType = DNS_NAME_COMPRESS_POINTER then pointerTurn payload st
        else labelTurn payload gOffset st b

/-- `decode_name`'s loop, on `fuel` turns. -/
def decodeNameLoop (payload : List UInt8) (gOffset fuel : Nat) (st : NameState) : NameResult :=
  Loop.whileFuel (nameTurn payload gOffset) none fuel st

/-- The measure of `decode_name`'s loop: the room left in the name, then the index.
Each label lengthens the name and each pointer goes back, so the fuel of
`decodeName` never runs out (`decodeNameLoop_fuel`). -/
def nameMeasure (payload : List UInt8) (st : NameState) : Nat :=
  (DNS_NAME_MAX_SIZE + 1 - st.buffer.length) * (payload.length + 1) + st.index

/-- `DnsLog::decode_name`. -/
def decodeName (payload : List UInt8) (gOffset : Nat) : NameResult :=
  if payload.length ≤ gOffset then some (.error ("payload too short: " ++ Nat.repr payload.length))
  else if payload.getD gOffset 0 = 0 then some (.ok ([], gOffset + 1))
  else
    let st : NameState := ⟨gOffset, gOffset, []⟩
    decodeNameLoop payload gOffset (nameMeasure payload st + 1) st

/-! ### Records -/

/-- The parser's computations: the info as state, a `Result` error as `Except`, a panic
as `none`. -/
abbrev DnsM := ExceptT String (StateT DnsInfo Option)

/-- A panic. -/
def abort {α : Type} : DnsM α := ExceptT.mk fun _ => none

/-- An index or slice that panics when it is `none`. -/
def liftOpt {α : Type} (o : Option α) : DnsM α :=
  match o with
  | some a => pure a
  | none => abort

/-- A `decode_name` call, with its `?`. -/
def liftName (r : NameResult) : DnsM (List UInt8 × Nat) :=
  match r with
  | some (.ok a) => pure a
  | some (.error e) => throw e
  | none => abort

/-- `DnsLog::decode_question`. -/
def decodeQuestion (payload : List UInt8) (gOffset : Nat) : DnsM Nat := do
  let (name, offset) ← liftName (decodeName payload gOffset)
  let rest ← liftOpt (sliceFrom payload offset)
  if rest.length < QUESTION_CLASS_TYPE_SIZE then
    throw ("question length error: " ++ Nat.repr rest.length)
  modify fun info => { info with
    queryName := (if info.queryName.length > 0 then info.queryName ++ [DOMAIN_NAME_SPLIT]
      else info.queryName) ++ name }
  if (← get).queryType = DNS_REQUEST then
    let domainType ← liftOpt (readU16Be payload offset)
    modify fun info => { info with domainType := domainType, msgType := .request }
  pure (offset + QUESTION_CLASS_TYPE_SIZE)

/-- `DnsLog::decode_rdata`. -/
def decodeRdata (payload : List UInt8) (gOffset dataLength : Nat) : DnsM Unit := do
  if payload.length < gOffset + dataLength then
    throw "invalid data: payload.len() < g_offset + data_length"
  let info ← get
  let answerNameLen := info.answers.length
  if answerNameLen > 0 then
    -- `&info.answers[answer_name_len - 1..]` panics off a character boundary
    if !Utf8.isCharBoundary info.answers (answerNameLen - 1) then abort
    if info.answers.drop (answerNameLen - 1) ≠ [DOMAIN_NAME_SPLIT] then
      set { info with answers := info.answers ++ [DOMAIN_NAME_SPLIT] }
  let info ← get
  let rdata := (payload.drop gOffset).take dataLength
  let invalid := "domain type " ++ Nat.repr info.domainType ++ " data length " ++ Nat.repr dataLength ++
    " invalid"
  let pushIp : DnsM Unit := match parseIpSlice rdata with
    | some ip => set { info with answers := info.answers ++ ip.text }
    | none => pure ()
  if info.domainType = DNS_TYPE_A ∨ info.domainType = DNS_TYPE_AAAA then
    if dataLength = IPV4_ADDR_LEN ∨ dataLength = IPV6_ADDR_LEN then pushIp else throw invalid
  else if info.domainType = DNS_TYPE_NS ∨ info.domainType = DNS_TYPE_DNAME ∨
      info.domainType = DNS_TYPE_SOA then
    if dataLength > DNS_NAME_MAX_SIZE then throw invalid
    let (name, _) ← liftName (decodeName payload gOffset)
    set { info with answers := info.answers ++ name }
  else if info.domainType = DNS_TYPE_WKS then
    if dataLength < DNS_TYPE_WKS_LENGTH then throw invalid
    pushIp
  else if info.domainType = DNS_TYPE_PTR then
    if dataLength ≠ DNS_TYPE_PTR_LENGTH then throw invalid
  else if info.domainType = DNS_TYPE_CNAME then pure ()
  else
    throw ("other domain type " ++ Nat.repr info.domainType ++ " data length " ++ Nat.repr dataLength ++
      " invalid")

/-- `DnsLog::decode_resource_record`. -/
def decodeResourceRecord (payload : List UInt8) (gOffset : Nat) : DnsM Nat := do
  let (_, offset) ← liftName (decodeName payload gOffset)
  if payload.length ≤ offset then throw ("payload length error: " ++ Nat.repr payload.length)
  let resourceLen := payload.length - offset
  if resourceLen < RR_RDATA_OFFSET then
    throw ("resource record length error: " ++ Nat.repr resourceLen)
  let domainType ← liftOpt (readU16Be payload offset)
  modify fun info => { info with domainType := domainType }
  let dataLength ← liftOpt (readU16Be payload (offset + RR_DATALENGTH_OFFSET))
  if dataLength ≠ 0 then decodeRdata payload (offset + RR_RDATA_OFFSET) dataLength
  pure (offset + RR_RDATA_OFFSET + dataLength)

/-- `DnsLog::set_status`. -/
def setStatus (code : Nat) (info : DnsInfo) : DnsInfo :=
  { info with
    status := if code = 0 then .ok else if code = 1 ∨ code = 3 then .clientError else .serverError }

/-- `DnsLog::decode_payload`; `unconcerned` is the configuration's nxdomain trie, if
there is a configuration. -/
def decodePayload (unconcerned : Option (List UInt8 → Bool)) (payload : List UInt8) : DnsM Unit := do
  if payload.length ≤ DNS_HEADER_SIZE then
    throw ("dns payload length too short:" ++ Nat.repr payload.length)
  let transId ← liftOpt (readU16Be payload 0)
  let flags ← liftOpt (byteAt payload DNS_HEADER_FLAGS_OFFSET)
  let code := (← liftOpt (byteAt payload (DNS_HEADER_FLAGS_OFFSET + 1))) &&& 0xf
  modify fun info => { info with transId := transId, queryType := flags &&& 0x80, statusCode := some code }
  let qdCount ← liftOpt (readU16Be payload DNS_HEADER_QDCOUNT_OFFSET)
  let anCount ← liftOpt (readU16Be payload DNS_HEADER_ANCOUNT_OFFSET)
  let nsCount ← liftOpt (readU16Be payload DNS_HEADER_NSCOUNT_OFFSET)
  let gOffset ← (List.range qdCount).foldlM (fun g _ => decodeQuestion payload g) DNS_HEADER_SIZE
  if (← get).queryType = DNS_RESPONSE then
    modify fun info => { info with queryType := 1 }
    let gOffset ← (List.range anCount).foldlM (fun g _ => decodeResourceRecord payload g) gOffset
    let _ ← (List.range nsCount).foldlM (fun g _ => decodeResourceRecord payload g) gOffset
    let info ← get
    let isUnconcerned := match unconcerned with
      | some trie => trie info.answers
      | none => false
    if !isUnconcerned then set (setStatus code info)
    modify fun info => { info with msgType := .response }

/-- `DnsLog::parse` over the transport `l4Protocol` (6 for TCP, 17 for UDP). -/
def parse (unconcerned : Option (List UInt8 → Bool)) (l4Protocol : Nat) (payload : List UInt8) :
    DnsM Unit :=
  if l4Protocol = 17 then decodePayload unconcerned payload
  else if l4Protocol = 6 then do
    if payload.length ≤ DNS_TCP_PAYLOAD_OFFSET then
      throw ("dns payload length error:" ++ Nat.repr payload.length)
    let size ← liftOpt (readU16Be payload 0)
    if size ≠ payload.length - DNS_TCP_PAYLOAD_OFFSET then decodePayload unconcerned payload
    else
      -- the retry starts from the info the first attempt left
      tryCatch (decodePayload unconcerned (payload.drop DNS_TCP_PAYLOAD_OFFSET)) fun _ =>
        decodePayload unconcerned payload
  else throw ("dns payload length error:" ++ Nat.repr payload.length)

/-- A response over UDP with two answers: a name server record whose name is the one
label `é` (`c3 a9`), then a `CNAME` record with one byte of data. -/
def nsThenCname : List UInt8 :=
  [0, 1, 0x81, 0x80, 0, 0, 0, 2, 0, 0, 0, 0] ++
    [0, 0, 2, 0, 1, 0, 0, 0, 0, 0, 4, 2, 0xc3, 0xa9, 0] ++
    [0, 0, 5, 0, 1, 0, 0, 0, 0, 0, 1, 0]

/-- **A non-ASCII name in the answers makes the parser panic.**  The first record's
data is the name `é`, which `answers` now ends with; at the second record
`decode_rdata` slices `answers` from its last byte, which is inside `é`, and panics. -/
theorem parse_nonAsciiAnswer :
    ((parse none 17 nsThenCname).run.run default) = none := by
  decide

end Sophon.Agent
