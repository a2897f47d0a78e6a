/-
A response reads back (`DnsLog::parse` on a response with address records).

A response on the wire is a header with the response bit set, the questions, the
answers and the authority records (`wireResponse`).  Here every record is an address
record (`WireRecord`): an owner name, the type `A` or `AAAA`, a class, a time to live and
four or sixteen bytes of address.  `decode_resource_record` reads the name and the
type, and `decode_rdata` appends the address, as text, to `answers`, after a `;` unless
`answers` is empty.  Parsed from a fresh log, over UDP or over TCP, a response gives the
log its id and code, the questions' names, the addresses of all its records in order
joined by `;`, the last record's type, the response message type, and the status of its
code unless the nxdomain trie takes the answers (`responseLog`, `parse_wireResponse`).

Before it appends, `decode_rdata` slices `answers` at its last byte, which panics when
that byte is inside a character (`parse_nonAsciiAnswer`).  An address as text is ASCII,
has no `;` and is never empty (`IpAddr.textByte_text`, `IpAddr.text_ne_nil`), so after
each address record `answers` ends with such a byte (`AnswersEnd`): the slice is at a
boundary and the separator is always added.  The records of a section are read by
induction on them (`run_records`), each from where the one before ends
(`decodeResourceRecord_bytes`).
-/
import Sophon.Agent.DnsQuery

namespace Sophon.Agent

/-! ### Addresses as text -/

/-- A byte of an address written as text: ASCII, and not the `;` that separates
answers. -/
def TextByte (b : UInt8) : Prop := b < 0x80 ∧ b ≠ DOMAIN_NAME_SPLIT

theorem textByte_of_char {c : Char} (h : c.toNat < 0x80) (h' : c.toNat ≠ 0x3b) :
    TextByte c.toNat.toUInt8 := by
  have hc : c.toNat.toUInt8.toNat = c.toNat := by
    rw [Nat.toUInt8_eq, UInt8.toNat_ofNat']
    omega
  constructor
  · rw [UInt8.lt_iff_toNat_lt, hc]
    exact h
  · intro heq
    have := congrArg UInt8.toNat heq
    rw [hc] at this
    exact h' this

theorem textByte_digitChar (d : Nat) : TextByte (Nat.digitChar d).toNat.toUInt8 := by
  by_cases hd : d < 16
  · have hdigits : ∀ d < 16, (Nat.digitChar d).toNat < 0x80 ∧ (Nat.digitChar d).toNat ≠ 0x3b := by
      decide
    exact textByte_of_char (hdigits d hd).1 (hdigits d hd).2
  · -- a digit of 16 or more is written `*`
    rw [Nat.digitChar_eq_star.mpr (by omega)]
    exact textByte_of_char (by decide) (by decide)

theorem mem_toDigitsCore {b : Nat} {c : Char} :
    ∀ {fuel n : Nat} {cs : List Char}, c ∈ Nat.toDigitsCore b fuel n cs →
      c ∈ cs ∨ ∃ d, c = Nat.digitChar d
  | 0, _, _, h => .inl h
  | fuel + 1, n, cs, h => by
    unfold Nat.toDigitsCore at h
    dsimp only at h
    split at h
    · rcases List.mem_cons.mp h with rfl | h
      exacts [.inr ⟨_, rfl⟩, .inl h]
    · rcases mem_toDigitsCore h with h | h
      · rcases List.mem_cons.mp h with rfl | h
        exacts [.inr ⟨_, rfl⟩, .inl h]
      · exact .inr h

theorem textByte_toDigits (b n : Nat) : ∀ x ∈ asciiBytes (Nat.toDigits b n), TextByte x := by
  intro x hx
  obtain ⟨c, hc, rfl⟩ := List.mem_map.mp hx
  rcases mem_toDigitsCore hc with h | ⟨d, rfl⟩
  · simp at h
  · exact textByte_digitChar d

theorem forall_mem_intercalate {α : Type} {p : α → Prop} {sep : List α} (hsep : ∀ x ∈ sep, p x) :
    ∀ {xs : List (List α)}, (∀ l ∈ xs, ∀ x ∈ l, p x) → ∀ x ∈ List.intercalate sep xs, p x
  | [], _ => by simp
  | [l], h => by simpa using h l List.mem_cons_self
  | l :: l' :: ls, h => by
    rw [List.intercalate_cons_cons]
    intro x hx
    rcases List.mem_append.mp hx with hx | hx
    · rcases List.mem_append.mp hx with hx | hx
      exacts [h l List.mem_cons_self x hx, hsep x hx]
    · exact forall_mem_intercalate hsep (fun l hl => h l (List.mem_cons_of_mem _ hl)) x hx

theorem textByte_ipv4Text (ip : Nat) : ∀ x ∈ ipv4Text ip, TextByte x := by
  unfold ipv4Text
  refine forall_mem_intercalate (by simp [TextByte, DOMAIN_NAME_SPLIT]) ?_
  intro l hl
  obtain ⟨o, -, rfl⟩ := List.mem_map.mp hl
  exact textByte_toDigits 10 o

theorem textByte_fmtSubslice (chunk : List Nat) : ∀ x ∈ fmtSubslice chunk, TextByte x := by
  unfold fmtSubslice
  refine forall_mem_intercalate (by simp [TextByte, DOMAIN_NAME_SPLIT]) ?_
  intro l hl
  obtain ⟨s, -, rfl⟩ := List.mem_map.mp hl
  exact textByte_toDigits 16 s

theorem textByte_ipv6Text (ip : Nat) : ∀ x ∈ ipv6Text ip, TextByte x := by
  unfold ipv6Text
  dsimp only
  split_ifs
  · -- an IPv4-mapped address
    have hmapped : ∀ x ∈ asciiBytes "::ffff:".toList, TextByte x := by
      simp [asciiBytes, TextByte, DOMAIN_NAME_SPLIT]
    intro x hx
    rcases List.mem_append.mp hx with hx | hx
    exacts [hmapped x hx, textByte_ipv4Text _ x hx]
  · -- the longest run of zeros written `::`
    intro x hx
    simp only [List.mem_append] at hx
    rcases hx with (hx | hx) | hx
    · exact textByte_fmtSubslice _ x hx
    · have hcolons : ∀ x ∈ ([0x3a, 0x3a] : List UInt8), TextByte x := by
        simp [TextByte, DOMAIN_NAME_SPLIT]
      exact hcolons x hx
    · exact textByte_fmtSubslice _ x hx
  · exact textByte_fmtSubslice _

theorem IpAddr.textByte_text : ∀ (ip : IpAddr), ∀ x ∈ ip.text, TextByte x
  | .v4 ip => textByte_ipv4Text ip
  | .v6 ip => textByte_ipv6Text ip

theorem ipv4Text_ne_nil (ip : Nat) : ipv4Text ip ≠ [] := by
  simp [ipv4Text, asciiBytes, List.intercalate_cons_cons]

theorem ipv6Text_ne_nil (ip : Nat) : ipv6Text ip ≠ [] := by
  unfold ipv6Text
  dsimp only
  split_ifs
  · simp [asciiBytes]
  · simp
  · simp [fmtSubslice, List.range_succ, asciiBytes, List.intercalate_cons_cons]

theorem IpAddr.text_ne_nil : ∀ (ip : IpAddr), ip.text ≠ []
  | .v4 ip => ipv4Text_ne_nil ip
  | .v6 ip => ipv6Text_ne_nil ip

/-! ### Answers -/

/-- `answers` after `decode_rdata` appends an address written `text`: a `;` first,
unless `answers` is empty. -/
def joinAnswer (answers text : List UInt8) : List UInt8 :=
  (if answers = [] then [] else answers ++ [DOMAIN_NAME_SPLIT]) ++ text

/-- `answers` is empty or ends with a byte of an address text. -/
def AnswersEnd (answers : List UInt8) : Prop := ∀ b ∈ answers.getLast?, TextByte b

theorem answersEnd_nil : AnswersEnd [] := by
  simp [AnswersEnd]

theorem answersEnd_joinAnswer (answers : List UInt8) (ip : IpAddr) :
    AnswersEnd (joinAnswer answers ip.text) := by
  intro b hb
  rw [joinAnswer, List.getLast?_append, List.getLast?_eq_some_getLast ip.text_ne_nil, Option.some_or,
    Option.mem_some_iff] at hb
  rw [← hb]
  exact ip.textByte_text _ (List.getLast_mem _)

section AnswersEnd

variable {answers : List UInt8} (h : AnswersEnd answers) (hne : answers ≠ [])
include h hne

theorem AnswersEnd.textByte_getLast : TextByte (answers.getLast hne) :=
  h _ (List.getLast?_eq_some_getLast hne)

/-- The slice of `decode_rdata` at the last byte is at a character boundary. -/
theorem AnswersEnd.isCharBoundary : Utf8.isCharBoundary answers (answers.length - 1) = true := by
  have hlast : answers[answers.length - 1]? = some (answers.getLast hne) := by
    rw [← List.getLast?_eq_getElem?, List.getLast?_eq_some_getLast hne]
  unfold Utf8.isCharBoundary
  rw [hlast]
  simp [Utf8.not_isCont_of_lt (h.textByte_getLast hne).1]

/-- `answers` does not end with the separator, so `decode_rdata` adds one. -/
theorem AnswersEnd.drop_ne : answers.drop (answers.length - 1) ≠ [DOMAIN_NAME_SPLIT] := by
  rw [List.drop_length_sub_one hne]
  intro heq
  exact (h.textByte_getLast hne).2 (List.singleton_inj.mp heq)

end AnswersEnd

theorem length_of_parseIpSlice {bs : List UInt8} {ip : IpAddr} (h : parseIpSlice bs = some ip) :
    bs.length = IPV4_ADDR_LEN ∨ bs.length = IPV6_ADDR_LEN := by
  unfold parseIpSlice at h
  split_ifs at h with h4 h16
  exacts [.inl h4, .inr h16]

open DnsM in
theorem decodeRdata_address (pre rest : List UInt8) {rdata : List UInt8} {ip : IpAddr}
    (hip : parseIpSlice rdata = some ip) (info : DnsInfo)
    (htype : info.domainType = DNS_TYPE_A ∨ info.domainType = DNS_TYPE_AAAA)
    (ha : AnswersEnd info.answers) :
    (decodeRdata (pre ++ rdata ++ rest) pre.length rdata.length).run.run info =
      some (.ok (), { info with answers := joinAnswer info.answers ip.text }) := by
  have hrdata : ((pre ++ rdata ++ rest).drop pre.length).take rdata.length = rdata := by simp
  unfold decodeRdata
  rw [if_neg (by simp)]
  dsimp only
  rw [run_bind_ok (run_get _)]
  by_cases hnil : info.answers = []
  · rw [if_neg (by simp [hnil]), run_bind_ok (run_get _)]
    rw [hrdata, if_pos htype, if_pos (length_of_parseIpSlice hip), hip]
    simp only [joinAnswer, hnil, List.nil_append]
    rfl
  · -- `answers` ends with a byte of an address: the separator is added
    rw [if_pos (List.length_pos_iff.mpr hnil), if_neg (by simp [ha.isCharBoundary hnil]),
      if_pos (ha.drop_ne hnil), run_bind_ok (run_set _ _), run_bind_ok (run_get _)]
    rw [hrdata, if_pos htype, if_pos (length_of_parseIpSlice hip), hip]
    simp only [joinAnswer, if_neg hnil]
    rfl

/-! ### Address records -/

/-- An address record of a response: the labels of its owner name, its type, class and
time to live, and its data. -/
structure WireRecord where
  labels : List (List UInt8)
  rtype : Nat
  rclass : Nat
  ttl : Nat
  rdata : List UInt8

namespace WireRecord

/-- The fields after the name: the type and the class in two bytes each and the time
to live in four, high byte first. -/
def fields (r : WireRecord) : List UInt8 :=
  [(r.rtype / 256).toUInt8, (r.rtype % 256).toUInt8, (r.rclass / 256).toUInt8, (r.rclass % 256).toUInt8,
    (r.ttl / 2 ^ 24).toUInt8, (r.ttl / 2 ^ 16).toUInt8, (r.ttl / 2 ^ 8).toUInt8, r.ttl.toUInt8]

/-- The record on the wire: the name, the fields, the length of the data in two bytes
and the data. -/
def bytes (r : WireRecord) : List UInt8 :=
  wireName r.labels ++ r.fields ++ [(r.rdata.length / 256).toUInt8, (r.rdata.length % 256).toUInt8] ++ r.rdata

/-- The address the record carries: its data as a big-endian number, an IPv4 address
when it is four bytes long and an IPv6 one otherwise. -/
def address (r : WireRecord) : IpAddr :=
  if r.rdata.length = IPV4_ADDR_LEN then .v4 (bigEndian r.rdata) else .v6 (bigEndian r.rdata)

/-- An address record `decode_resource_record` reads back: an owner name as a
question's, the type `A` or `AAAA`, and four or sixteen bytes of data. -/
structure Valid (r : WireRecord) : Prop where
  labels : ∀ l ∈ r.labels, WireLabel l
  size : (wireName r.labels).length ≤ DNS_NAME_MAX_SIZE + 1
  rtype : r.rtype = DNS_TYPE_A ∨ r.rtype = DNS_TYPE_AAAA
  rdata : r.rdata.length = IPV4_ADDR_LEN ∨ r.rdata.length = IPV6_ADDR_LEN

theorem Valid.parseIpSlice {r : WireRecord} (hr : r.Valid) : parseIpSlice r.rdata = some r.address := by
  unfold Sophon.Agent.parseIpSlice address
  rcases hr.rdata with h | h <;> simp [h, IPV4_ADDR_LEN, IPV6_ADDR_LEN]

end WireRecord

/-- The info after a record: its type recorded and its address joined to the
answers. -/
def recordInfo (info : DnsInfo) (r : WireRecord) : DnsInfo :=
  { info with answers := joinAnswer info.answers r.address.text, domainType := r.rtype }

open DnsM in
/-- One address record: its type is recorded and its address appended to the
answers. -/
theorem decodeResourceRecord_bytes (pre rest : List UInt8) {r : WireRecord} (hr : r.Valid) {info : DnsInfo}
    (ha : AnswersEnd info.answers) :
    (decodeResourceRecord (pre ++ r.bytes ++ rest) pre.length).run.run info =
      some (.ok (pre.length + r.bytes.length), recordInfo info r) := by
  have hrtype : r.rtype < 65536 := by
    rcases hr.rtype with h | h <;> rw [h] <;> decide
  have hrdata : r.rdata.length < 65536 := by
    rcases hr.rdata with h | h <;> rw [h] <;> decide
  have hname := decodeName_wireName pre
    (r.fields ++ (r.rdata.length / 256).toUInt8 :: (r.rdata.length % 256).toUInt8 :: (r.rdata ++ rest))
    hr.labels hr.size
  have hatName : pre ++ r.bytes ++ rest = pre ++ wireName r.labels ++ (r.fields ++
      (r.rdata.length / 256).toUInt8 :: (r.rdata.length % 256).toUInt8 :: (r.rdata ++ rest)) := by
    simp [WireRecord.bytes]
  have hatType : pre ++ r.bytes ++ rest = pre ++ wireName r.labels ++ (r.rtype / 256).toUInt8 ::
      (r.rtype % 256).toUInt8 :: (r.fields.drop 2 ++ (r.rdata.length / 256).toUInt8 ::
        (r.rdata.length % 256).toUInt8 :: (r.rdata ++ rest)) := by
    simp [WireRecord.bytes, WireRecord.fields]
  have hatLength : pre ++ r.bytes ++ rest = pre ++ wireName r.labels ++ r.fields ++
      (r.rdata.length / 256).toUInt8 :: (r.rdata.length % 256).toUInt8 :: (r.rdata ++ rest) := by
    simp [WireRecord.bytes]
  have hatData : pre ++ r.bytes ++ rest = pre ++ wireName r.labels ++ r.fields ++
      [(r.rdata.length / 256).toUInt8, (r.rdata.length % 256).toUInt8] ++ r.rdata ++ rest := by
    simp [WireRecord.bytes]
  have hfields : r.fields.length = RR_DATALENGTH_OFFSET := rfl
  rw [← hatName] at hname
  have ht := readU16Be_append_cons (pre ++ wireName r.labels) (r.fields.drop 2 ++
    (r.rdata.length / 256).toUInt8 :: (r.rdata.length % 256).toUInt8 :: (r.rdata ++ rest)) hrtype
  rw [← hatType, List.length_append] at ht
  have hd := readU16Be_append_cons (pre ++ wireName r.labels ++ r.fields) (r.rdata ++ rest) hrdata
  rw [← hatLength, List.length_append, List.length_append, hfields] at hd
  have hdata := decodeRdata_address (pre ++ wireName r.labels ++ r.fields ++
      [(r.rdata.length / 256).toUInt8, (r.rdata.length % 256).toUInt8]) rest hr.parseIpSlice
    { info with domainType := r.rtype } hr.rtype ha
  have hoff : (pre ++ wireName r.labels ++ r.fields ++
      [(r.rdata.length / 256).toUInt8, (r.rdata.length % 256).toUInt8]).length =
      pre.length + (wireName r.labels).length + RR_RDATA_OFFSET := by
    simp [WireRecord.fields, RR_RDATA_OFFSET]
    omega
  rw [← hatData, hoff] at hdata
  have hbytes : r.bytes.length = (wireName r.labels).length + RR_RDATA_OFFSET + r.rdata.length := by
    simp [WireRecord.bytes, WireRecord.fields, RR_RDATA_OFFSET]
    omega
  have hlen : (pre ++ r.bytes ++ rest).length =
      pre.length + (wireName r.labels).length + RR_RDATA_OFFSET + r.rdata.length + rest.length := by
    simp only [List.length_append, hbytes]
    omega
  have hpos : r.rdata.length ≠ 0 := by
    rcases hr.rdata with h | h <;> rw [h] <;> decide
  unfold decodeResourceRecord
  rw [hname, run_bind_ok (run_liftName _ _)]
  dsimp only
  rw [if_neg (by omega), if_neg (by omega), ht, run_bind_ok (run_liftOpt _ _), run_bind_ok (run_modify _ _),
    hd, run_bind_ok (run_liftOpt _ _), if_pos hpos, run_bind_ok hdata, run_pure, hbytes]
  simp only [Nat.add_assoc]
  rfl

/-- Records on the wire, one after the other. -/
def wireRecords (rs : List WireRecord) : List UInt8 := rs.flatMap WireRecord.bytes

open DnsM in
/-- **All the records of a section.**  Records are read one after another, each from
where the one before ends. -/
theorem run_records (rs : List WireRecord) (hrs : ∀ r ∈ rs, r.Valid) :
    ∀ (pre rest : List UInt8) (info : DnsInfo), AnswersEnd info.answers →
      ((List.range rs.length).foldlM
          (fun g _ => decodeResourceRecord (pre ++ wireRecords rs ++ rest) g) pre.length).run.run info =
        some (.ok (pre.length + (wireRecords rs).length), rs.foldl recordInfo info) := by
  induction rs with
  | nil =>
    intro pre rest info _
    simp [wireRecords]
  | cons r rs ih =>
    intro pre rest info ha
    have hr := hrs r List.mem_cons_self
    have hstep := decodeResourceRecord_bytes pre (wireRecords rs ++ rest) hr ha
    rw [← List.append_assoc] at hstep
    have hpayload : pre ++ wireRecords (r :: rs) ++ rest = pre ++ r.bytes ++ wireRecords rs ++ rest := by
      simp [wireRecords]
    have hrest := ih (fun r' h => hrs r' (List.mem_cons_of_mem _ h)) (pre ++ r.bytes) rest (recordInfo info r)
      (answersEnd_joinAnswer _ _)
    rw [List.length_cons, List.range_succ_eq_map, List.foldlM_cons, hpayload, run_bind_ok hstep,
      List.foldlM_map, ← List.length_append, hrest, List.foldl_cons]
    simp [wireRecords, Nat.add_assoc]

theorem answersEnd_foldl_recordInfo (rs : List WireRecord) {info : DnsInfo} (h : AnswersEnd info.answers) :
    AnswersEnd (rs.foldl recordInfo info).answers := by
  induction rs generalizing info with
  | nil => exact h
  | cons r rs ih => exact ih (answersEnd_joinAnswer _ _)

theorem foldl_recordInfo (rs : List WireRecord) (info : DnsInfo) :
    rs.foldl recordInfo info = { info with
      answers := (rs.map fun r => r.address.text).foldl joinAnswer info.answers,
      domainType := (rs.getLast?.map WireRecord.rtype).getD info.domainType } := by
  induction rs generalizing info with
  | nil => rfl
  | cons r rs ih =>
    rw [List.foldl_cons, ih]
    cases rs with
    | nil => rfl
    | cons r' rs => simp [recordInfo, List.getLast?_eq_some_getLast (List.cons_ne_nil r' rs)]

theorem intercalate_ne_nil {α : Type} (sep : List α) {ts : List (List α)} (hts : ∀ t ∈ ts, t ≠ [])
    (hne : ts ≠ []) : List.intercalate sep ts ≠ [] := by
  obtain ⟨t, ts', rfl⟩ := List.exists_cons_of_ne_nil hne
  obtain ⟨x, t', rfl⟩ := List.exists_cons_of_ne_nil (hts t List.mem_cons_self)
  rw [List.intercalate_cons_cons_left]
  exact List.cons_ne_nil _ _

/-- Answers joined one at a time are the answers joined by `;`. -/
theorem foldl_joinAnswer (ts : List (List UInt8)) (hts : ∀ t ∈ ts, t ≠ []) :
    ts.foldl joinAnswer [] = List.intercalate [DOMAIN_NAME_SPLIT] ts := by
  induction ts using List.reverseRecOn with
  | nil => rfl
  | append_singleton ts t ih =>
    have hts' : ∀ t' ∈ ts, t' ≠ [] := fun t' h => hts t' (List.mem_append_left _ h)
    rw [List.foldl_append, List.foldl_cons, List.foldl_nil, ih hts']
    by_cases hnil : ts = []
    · simp [hnil, joinAnswer]
    · rw [joinAnswer, if_neg (intercalate_ne_nil _ hts' hnil), intercalate_append_singleton _ hnil]

theorem length_le_wireRecords (rs : List WireRecord) : rs.length ≤ (wireRecords rs).length := by
  induction rs with
  | nil => simp [wireRecords]
  | cons r rs ih =>
    simp only [wireRecords, List.flatMap_cons, List.length_append, List.length_cons] at ih ⊢
    simp only [WireRecord.bytes, List.length_append, List.length_cons]
    omega

/-! ### Responses read back -/

theorem and_0x80_of_ge {x : Nat} (h1 : 0x80 ≤ x) (h2 : x < 256) : x &&& 0x80 = 0x80 := by
  have hbit : x.testBit 7 = true := by
    rw [Nat.testBit_eq_decide_div_mod_eq, decide_eq_true_eq]
    omega
  rw [show (0x80 : Nat) = 2 ^ 7 from rfl, Nat.and_two_pow, hbit]
  rfl

/-- A response on the wire: the header (the id, the flags and code bytes, the numbers of
questions, answers and authority records, and no additional records), then the
questions, the answers and the authority records. -/
def wireResponse (id : Nat) (flags code : UInt8) (qs : List WireQuestion) (ans auth : List WireRecord) :
    List UInt8 :=
  [(id / 256).toUInt8, (id % 256).toUInt8, flags, code, (qs.length / 256).toUInt8, (qs.length % 256).toUInt8,
    (ans.length / 256).toUInt8, (ans.length % 256).toUInt8, (auth.length / 256).toUInt8,
    (auth.length % 256).toUInt8, 0, 0] ++ wireQuestions qs ++ wireRecords ans ++ wireRecords auth

/-- The log a response with the records `rs` leaves: its id and code; the questions'
names and the records' addresses, each joined by `;`; the last record's type; the
response message type; and the status the code gives, unless the nxdomain trie
`unconcerned` takes the answers. -/
def responseLog (unconcerned : Option (List UInt8 → Bool)) (id : Nat) (code : UInt8)
    (qs : List WireQuestion) (rs : List WireRecord) : DnsInfo :=
  let info : DnsInfo := { (default : DnsInfo) with
    transId := id, queryType := 1, statusCode := some ((code.toNat &&& 0xf : Nat) : Int),
    queryName := List.intercalate [0x3b] (qs.map WireQuestion.name),
    answers := List.intercalate [0x3b] (rs.map fun r => r.address.text),
    domainType := (rs.getLast?.map WireRecord.rtype).getD 0, msgType := .response }
  if (unconcerned.map fun trie => trie info.answers).getD false then info
  else setStatus (code.toNat &&& 0xf) info

open DnsM in
/-- `decode_payload` on a response from a fresh log. -/
theorem decodePayload_wireResponse (unconcerned : Option (List UInt8 → Bool)) {id : Nat}
    {flags code : UInt8} {qs : List WireQuestion} {ans auth : List WireRecord} (hid : id < 65536)
    (hflags : 0x80 ≤ flags)
    (hqs : qs ≠ []) (hcount : qs.length < 65536) (hans : ans.length < 65536) (hauth : auth.length < 65536)
    (hvalid : ∀ q ∈ qs, q.Valid) (hrecords : ∀ r ∈ ans ++ auth, r.Valid) :
    (decodePayload unconcerned (wireResponse id flags code qs ans auth)).run.run default =
      some (.ok (), responseLog unconcerned id code qs (ans ++ auth)) := by
  obtain ⟨qs', q, rfl⟩ : ∃ qs' q, qs = qs' ++ [q] :=
    ⟨qs.dropLast, qs.getLast hqs, (List.dropLast_append_getLast hqs).symm⟩
  have hlen : DNS_HEADER_SIZE < (wireResponse id flags code (qs' ++ [q]) ans auth).length := by
    simp [wireResponse, wireQuestions, WireQuestion.bytes, DNS_HEADER_SIZE]
  have hid' : readU16Be (wireResponse id flags code (qs' ++ [q]) ans auth) 0 = some id := by
    simp [readU16Be, wireResponse]
    omega
  have hflags' : byteAt (wireResponse id flags code (qs' ++ [q]) ans auth) DNS_HEADER_FLAGS_OFFSET =
      some flags.toNat := by
    simp [byteAt, wireResponse, DNS_HEADER_FLAGS_OFFSET]
  have hcode' : byteAt (wireResponse id flags code (qs' ++ [q]) ans auth) (DNS_HEADER_FLAGS_OFFSET + 1) =
      some code.toNat := by
    simp [byteAt, wireResponse, DNS_HEADER_FLAGS_OFFSET]
  have hqd : readU16Be (wireResponse id flags code (qs' ++ [q]) ans auth) DNS_HEADER_QDCOUNT_OFFSET =
      some (qs' ++ [q]).length := by
    have hcount' : qs'.length + 1 < 65536 := by simpa using hcount
    simp [readU16Be, wireResponse, DNS_HEADER_QDCOUNT_OFFSET]
    omega
  have han : readU16Be (wireResponse id flags code (qs' ++ [q]) ans auth) DNS_HEADER_ANCOUNT_OFFSET =
      some ans.length := by
    simp [readU16Be, wireResponse, DNS_HEADER_ANCOUNT_OFFSET]
    omega
  have hns : readU16Be (wireResponse id flags code (qs' ++ [q]) ans auth) DNS_HEADER_NSCOUNT_OFFSET =
      some auth.length := by
    simp [readU16Be, wireResponse, DNS_HEADER_NSCOUNT_OFFSET]
    omega
  unfold decodePayload
  rw [if_neg (by omega)]
  dsimp only
  rw [hid', run_bind_ok (run_liftOpt _ _), hflags', run_bind_ok (run_liftOpt _ _), hcode',
    run_bind_ok (run_liftOpt _ _), run_bind_ok (run_modify _ _), hqd, run_bind_ok (run_liftOpt _ _), han,
    run_bind_ok (run_liftOpt _ _), hns, run_bind_ok (run_liftOpt _ _)]
  have hmsg : wireResponse id flags code (qs' ++ [q]) ans auth =
      [(id / 256).toUInt8, (id % 256).toUInt8, flags, code, ((qs' ++ [q]).length / 256).toUInt8,
        ((qs' ++ [q]).length % 256).toUInt8, (ans.length / 256).toUInt8, (ans.length % 256).toUInt8,
        (auth.length / 256).toUInt8, (auth.length % 256).toUInt8, 0, 0] ++ wireQuestions (qs' ++ [q]) ++
        (wireRecords ans ++ wireRecords auth) := by
    simp [wireResponse]
  have hresp : flags.toNat &&& 0x80 = DNS_RESPONSE := and_0x80_of_ge hflags (UInt8.toNat_lt flags)
  rw [hmsg, show DNS_HEADER_SIZE = ([(id / 256).toUInt8, (id % 256).toUInt8, flags, code,
      ((qs' ++ [q]).length / 256).toUInt8, ((qs' ++ [q]).length % 256).toUInt8, (ans.length / 256).toUInt8,
      (ans.length % 256).toUInt8, (auth.length / 256).toUInt8, (auth.length % 256).toUInt8, 0, 0] :
        List UInt8).length from rfl,
    run_bind_ok (run_questions _ rfl qs' q _ hvalid), run_bind_ok (run_get _)]
  dsimp only
  rw [hresp, if_pos rfl, run_bind_ok (run_modify _ _)]
  have hatAnswers : wireResponse id flags code (qs' ++ [q]) ans auth =
      [(id / 256).toUInt8, (id % 256).toUInt8, flags, code, ((qs' ++ [q]).length / 256).toUInt8,
        ((qs' ++ [q]).length % 256).toUInt8, (ans.length / 256).toUInt8, (ans.length % 256).toUInt8,
        (auth.length / 256).toUInt8, (auth.length % 256).toUInt8, 0, 0] ++ wireQuestions (qs' ++ [q]) ++
        wireRecords ans ++ wireRecords auth := rfl
  rw [← hmsg, hatAnswers, ← List.length_append,
    run_bind_ok (run_records ans (fun r h => hrecords r (List.mem_append_left _ h)) _ _ _ answersEnd_nil),
    ← List.length_append, ← List.append_nil (wireRecords auth),
    ← List.append_assoc _ (wireRecords auth),
    run_bind_ok (run_records auth (fun r h => hrecords r (List.mem_append_right _ h)) _ _ _ ?_)]
  · have htexts : ∀ t ∈ (ans ++ auth).map (fun r => r.address.text), t ≠ [] := by
      intro t ht
      obtain ⟨r, -, rfl⟩ := List.mem_map.mp ht
      exact r.address.text_ne_nil
    rw [← List.foldl_append, foldl_recordInfo, run_bind_ok (run_get _)]
    dsimp only
    rw [show (default : DnsInfo).answers = [] from rfl, foldl_joinAnswer _ htexts,
      show ([DOMAIN_NAME_SPLIT] : List UInt8) = [0x3b] from rfl]
    -- the status is set unless the trie takes the answers
    cases unconcerned with
    | none =>
      rw [if_pos (by rfl), run_bind_ok (run_set _ _), run_modify]
      rfl
    | some trie =>
      dsimp only [responseLog, Option.map_some, Option.getD_some]
      by_cases htrie : trie (List.intercalate [0x3b] ((ans ++ auth).map fun r => r.address.text)) = true
      · rw [if_neg (by rw [htrie]; decide), if_pos htrie, run_modify]
        rfl
      · rw [if_pos (by simpa using htrie), if_neg htrie, run_bind_ok (run_set _ _), run_modify]
        rfl
  · exact answersEnd_foldl_recordInfo _ answersEnd_nil

/-- **A response reads back.**  Parsed from a fresh log, over UDP or over TCP behind
its length, a response whose questions and address records read back gives the log its
transaction id and code, the questions' names joined by `;`, the addresses of the
answers and then of the authority records, joined by `;`, the last record's type, the
response message type, and the status its code gives unless the nxdomain trie takes the
answers. -/
theorem parse_wireResponse (unconcerned : Option (List UInt8 → Bool)) {id : Nat} {flags code : UInt8}
    {qs : List WireQuestion} {ans auth : List WireRecord} (hid : id < 65536) (hflags : 0x80 ≤ flags)
    (hqs : qs ≠ []) (hvalid : ∀ q ∈ qs, q.Valid) (hrecords : ∀ r ∈ ans ++ auth, r.Valid)
    (hsize : (wireResponse id flags code qs ans auth).length < 65536) :
    (parse unconcerned 17 (wireResponse id flags code qs ans auth)).run.run default =
        some (.ok (), responseLog unconcerned id code qs (ans ++ auth)) ∧
      (parse unconcerned 6 (tcpMessage (wireResponse id flags code qs ans auth))).run.run default =
        some (.ok (), responseLog unconcerned id code qs (ans ++ auth)) := by
  -- each question and record takes at least a byte, so their counts fit in the header
  have hcounts : qs.length < 65536 ∧ ans.length < 65536 ∧ auth.length < 65536 := by
    have := length_le_wireQuestions qs
    have := length_le_wireRecords ans
    have := length_le_wireRecords auth
    simp [wireResponse] at hsize
    omega
  have hudp : (decodePayload unconcerned (wireResponse id flags code qs ans auth)).run.run default =
      some (.ok (), responseLog unconcerned id code qs (ans ++ auth)) :=
    decodePayload_wireResponse unconcerned hid hflags hqs hcounts.1 hcounts.2.1 hcounts.2.2 hvalid hrecords
  exact ⟨by unfold parse; rw [if_pos rfl]; exact hudp,
    parse_tcpMessage unconcerned hsize (by simp [wireResponse]) hudp⟩

/-- The records of a response to the query for `ab.c`: the answer `10.0.0.1` for
`ab.c`, and an authority record with an IPv6 address for `c`. -/
theorem valid_abc_records :
    ∀ r ∈ [(⟨[[0x61, 0x62], [0x63]], 1, 1, 300, [10, 0, 0, 1]⟩ : WireRecord)] ++
      [⟨[[0x63]], 28, 1, 60, [0x20, 1, 0x0d, 0xb8, 0, 0, 0, 0, 0, 0, 0, 0, 0, 0, 0, 1]⟩], r.Valid := by
  intro r hr
  rcases List.mem_pair.mp hr with rfl | rfl
  · refine ⟨?_, by decide, by decide, by decide⟩
    intro l hl
    rcases List.mem_pair.mp hl with rfl | rfl
    exacts [wireLabel_ab, wireLabel_c]
  · refine ⟨?_, by decide, by decide, by decide⟩
    intro l hl
    rw [List.mem_singleton.mp hl]
    exact wireLabel_c

/-- A response to the query for `ab.c`, with one answer and one authority record. -/
theorem parse_wireResponse_abc :
    (0x1234 < 65536 ∧ 0x80 ≤ (0x81 : UInt8) ∧ [(⟨[[0x61, 0x62], [0x63]], 1, 1⟩ : WireQuestion)] ≠ [] ∧
      (∀ q ∈ [(⟨[[0x61, 0x62], [0x63]], 1, 1⟩ : WireQuestion)], q.Valid) ∧
      (∀ r ∈ [(⟨[[0x61, 0x62], [0x63]], 1, 1, 300, [10, 0, 0, 1]⟩ : WireRecord)] ++
        [⟨[[0x63]], 28, 1, 60, [0x20, 1, 0x0d, 0xb8, 0, 0, 0, 0, 0, 0, 0, 0, 0, 0, 0, 1]⟩], r.Valid) ∧
      (wireResponse 0x1234 0x81 0x80 [⟨[[0x61, 0x62], [0x63]], 1, 1⟩]
        [⟨[[0x61, 0x62], [0x63]], 1, 1, 300, [10, 0, 0, 1]⟩]
        [⟨[[0x63]], 28, 1, 60, [0x20, 1, 0x0d, 0xb8, 0, 0, 0, 0, 0, 0, 0, 0, 0, 0, 0, 1]⟩]).length < 65536) ∧
    ((parse none 17 (wireResponse 0x1234 0x81 0x80 [⟨[[0x61, 0x62], [0x63]], 1, 1⟩]
        [⟨[[0x61, 0x62], [0x63]], 1, 1, 300, [10, 0, 0, 1]⟩]
        [⟨[[0x63]], 28, 1, 60, [0x20, 1, 0x0d, 0xb8, 0, 0, 0, 0, 0, 0, 0, 0, 0, 0, 0, 1]⟩])).run.run default =
        some (.ok (), responseLog none 0x1234 0x80 [⟨[[0x61, 0x62], [0x63]], 1, 1⟩]
          ([⟨[[0x61, 0x62], [0x63]], 1, 1, 300, [10, 0, 0, 1]⟩] ++
            [⟨[[0x63]], 28, 1, 60, [0x20, 1, 0x0d, 0xb8, 0, 0, 0, 0, 0, 0, 0, 0, 0, 0, 0, 1]⟩])) ∧
      (parse none 6 (tcpMessage (wireResponse 0x1234 0x81 0x80 [⟨[[0x61, 0x62], [0x63]], 1, 1⟩]
        [⟨[[0x61, 0x62], [0x63]], 1, 1, 300, [10, 0, 0, 1]⟩]
        [⟨[[0x63]], 28, 1, 60, [0x20, 1, 0x0d, 0xb8, 0, 0, 0, 0, 0, 0, 0, 0, 0, 0, 0, 1]⟩]))).run.run default =
        some (.ok (), responseLog none 0x1234 0x80 [⟨[[0x61, 0x62], [0x63]], 1, 1⟩]
          ([⟨[[0x61, 0x62], [0x63]], 1, 1, 300, [10, 0, 0, 1]⟩] ++
            [⟨[[0x63]], 28, 1, 60, [0x20, 1, 0x0d, 0xb8, 0, 0, 0, 0, 0, 0, 0, 0, 0, 0, 0, 1]⟩]))) :=
  ⟨⟨by decide, by decide, List.cons_ne_nil _ _, valid_abc, valid_abc_records, by decide⟩,
    parse_wireResponse none (by decide) (by decide) (List.cons_ne_nil _ _) valid_abc valid_abc_records
      (by decide)⟩

end Sophon.Agent
