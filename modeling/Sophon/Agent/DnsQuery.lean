/-
A query reads back (`DnsLog::parse` on a query).

A query on the wire is a header, with the transaction id, a flags byte whose response
bit is clear, a code byte, the number of questions and no records, then the questions,
each a name, a type and a class (`wireQuery`).  Parsed from a fresh log, over UDP or
over TCP behind the two bytes of its length (`tcpMessage`), it gives the log the
transaction id, the code, the questions' names, each its labels joined by dots and all
joined by `;`, the last question's type, and the request message type (`queryLog`,
`parse_wireQuery`).  Over TCP the length is right, so the first attempt, on the message
after it, succeeds and the retry from the start is never made.

The parser's steps are peeled off one at a time: a step that succeeds hands its value
and the info it leaves to the next (`DnsM.run_bind_ok`), and each step's result is a
lemma of its own: one question (`decodeQuestion_bytes`), then all of them, by induction
from the last (`run_questions`).
-/
import Sophon.Agent.DnsNames

namespace Sophon.Agent

/-! ### Running the parser -/

namespace DnsM

variable {α β : Type} {x : DnsM α} {f : α → DnsM β} {info info' : DnsInfo} {a : α}

/-- A step that succeeds hands its value and the info it leaves to the next. -/
theorem run_bind_ok (h : x.run.run info = some (.ok a, info')) :
    (x >>= f).run.run info = (f a).run.run info' := by
  simp only [ExceptT.run_bind, StateT.run_bind, h]
  rfl

theorem run_pure (a : α) (info : DnsInfo) : (pure a : DnsM α).run.run info = some (.ok a, info) := rfl

theorem run_modify (g : DnsInfo → DnsInfo) (info : DnsInfo) :
    (modify g : DnsM PUnit).run.run info = some (.ok ⟨⟩, g info) := rfl

theorem run_get (info : DnsInfo) : (get : DnsM DnsInfo).run.run info = some (.ok info, info) := rfl

theorem run_set (s info : DnsInfo) : (set s : DnsM PUnit).run.run info = some (.ok ⟨⟩, s) := rfl

theorem run_liftOpt (a : α) (info : DnsInfo) :
    (liftOpt (some a)).run.run info = some (.ok a, info) := rfl

theorem run_liftName (a : List UInt8 × Nat) (info : DnsInfo) :
    (liftName (some (.ok a))).run.run info = some (.ok a, info) := rfl

/-- A step that succeeds is not retried. -/
theorem run_tryCatch_ok {g : String → DnsM α} (h : x.run.run info = some (.ok a, info')) :
    (tryCatch x g).run.run info = some (.ok a, info') := by
  rw [ExceptT.run_tryCatch, StateT.run_bind, h]
  rfl

end DnsM

open DnsM

/-- `decode_question` at a name that reads back, with its type and class after it: the
name is appended to the query name, after a `;` unless that is empty, and in a request
the type is recorded. -/
theorem decodeQuestion_ok {payload name : List UInt8} {g off t : Nat} {info : DnsInfo}
    (hname : decodeName payload g = some (.ok (name, off)))
    (hrest : off + QUESTION_CLASS_TYPE_SIZE ≤ payload.length) (ht : readU16Be payload off = some t) :
    (decodeQuestion payload g).run.run info = some (.ok (off + QUESTION_CLASS_TYPE_SIZE),
      { info with
        queryName := (if info.queryName.length > 0 then info.queryName ++ [DOMAIN_NAME_SPLIT]
          else info.queryName) ++ name,
        domainType := if info.queryType = DNS_REQUEST then t else info.domainType,
        msgType := if info.queryType = DNS_REQUEST then .request else info.msgType }) := by
  have hslice : sliceFrom payload off = some (payload.drop off) := by
    unfold sliceFrom
    rw [if_pos (by unfold QUESTION_CLASS_TYPE_SIZE at hrest; omega)]
  unfold decodeQuestion
  rw [hname, run_bind_ok (run_liftName _ _)]
  dsimp only
  rw [hslice, run_bind_ok (run_liftOpt _ _),
    if_neg (by rw [List.length_drop]; unfold QUESTION_CLASS_TYPE_SIZE at hrest ⊢; omega),
    run_bind_ok (run_modify _ _), run_bind_ok (run_get _)]
  dsimp only
  by_cases hreq : info.queryType = DNS_REQUEST
  · -- a request records the type
    rw [if_pos hreq, ht, run_bind_ok (run_liftOpt _ _), if_pos hreq, if_pos hreq]
    rfl
  · rw [if_neg hreq, if_neg hreq, if_neg hreq]
    rfl

/-! ### Queries on the wire -/

/-- A question of a query: the labels of its name, its type and its class. -/
structure WireQuestion where
  labels : List (List UInt8)
  qtype : Nat
  qclass : Nat

namespace WireQuestion

/-- The question on the wire: the name, then the type and the class, two bytes each,
high byte first. -/
def bytes (q : WireQuestion) : List UInt8 :=
  wireName q.labels ++
    [(q.qtype / 256).toUInt8, (q.qtype % 256).toUInt8, (q.qclass / 256).toUInt8, (q.qclass % 256).toUInt8]

/-- The name as the log records it: the labels joined by dots. -/
def name (q : WireQuestion) : List UInt8 := List.intercalate [0x2e] q.labels

/-- A question `decode_question` reads back: at least one label, each of the wire's
kind, a name of at most 256 bytes, and a type of two bytes. -/
structure Valid (q : WireQuestion) : Prop where
  labels : ∀ l ∈ q.labels, WireLabel l
  ne_nil : q.labels ≠ []
  size : (wireName q.labels).length ≤ DNS_NAME_MAX_SIZE + 1
  qtype : q.qtype < 65536

theorem Valid.name_ne_nil {q : WireQuestion} (hq : q.Valid) : q.name ≠ [] := by
  obtain ⟨l, ls, hls⟩ := List.exists_cons_of_ne_nil hq.ne_nil
  have hl := hq.labels l (by rw [hls]; exact List.mem_cons_self)
  obtain ⟨x, l', rfl⟩ := List.exists_cons_of_ne_nil (List.ne_nil_of_length_pos hl.pos)
  unfold name
  rw [hls, List.intercalate_cons_cons_left]
  exact List.cons_ne_nil _ _

end WireQuestion

/-- Questions on the wire, one after the other. -/
def wireQuestions (qs : List WireQuestion) : List UInt8 := qs.flatMap WireQuestion.bytes

theorem length_le_wireQuestions (qs : List WireQuestion) : qs.length ≤ (wireQuestions qs).length := by
  induction qs with
  | nil => simp [wireQuestions]
  | cons q qs ih =>
    simp only [wireQuestions, List.flatMap_cons, List.length_append, List.length_cons] at ih ⊢
    simp only [WireQuestion.bytes, List.length_append, List.length_cons]
    omega

/-- A query on the wire: the header (the id, the flags and code bytes, the number of
questions and no records), then the questions. -/
def wireQuery (id : Nat) (flags code : UInt8) (qs : List WireQuestion) : List UInt8 :=
  [(id / 256).toUInt8, (id % 256).toUInt8, flags, code, (qs.length / 256).toUInt8,
    (qs.length % 256).toUInt8, 0, 0, 0, 0, 0, 0] ++ wireQuestions qs

/-- Joining a list that is not empty and one more item. -/
theorem intercalate_append_singleton {α : Type} (sep : List α) {xs : List (List α)} (hxs : xs ≠ [])
    (y : List α) : List.intercalate sep (xs ++ [y]) = List.intercalate sep xs ++ sep ++ y := by
  induction xs with
  | nil => exact absurd rfl hxs
  | cons x xs ih =>
    cases xs with
    | nil => simp
    | cons x' xs =>
      rw [List.cons_append, List.intercalate_cons_of_ne_nil (by simp), ih (List.cons_ne_nil _ _),
        List.intercalate_cons_of_ne_nil (List.cons_ne_nil _ _)]
      simp

/-- Two bytes, high byte first, read back. -/
theorem readU16Be_append_cons (pre rest : List UInt8) {v : Nat} (hv : v < 65536) :
    readU16Be (pre ++ (v / 256).toUInt8 :: (v % 256).toUInt8 :: rest) pre.length = some v := by
  have hsecond : pre ++ (v / 256).toUInt8 :: (v % 256).toUInt8 :: rest =
      (pre ++ [(v / 256).toUInt8]) ++ (v % 256).toUInt8 :: rest := by simp
  unfold readU16Be
  rw [if_pos (by simp), getD_append_cons, hsecond,
    show pre.length + 1 = (pre ++ [(v / 256).toUInt8]).length by simp, getD_append_cons]
  simp only [Nat.toUInt8_eq, UInt8.toNat_ofNat', Option.some_inj]
  omega

/-- One question: its name is read back and appended, and in a request its type is
recorded. -/
theorem decodeQuestion_bytes (pre rest : List UInt8) {q : WireQuestion} (hq : q.Valid) {info : DnsInfo} :
    (decodeQuestion (pre ++ q.bytes ++ rest) pre.length).run.run info =
      some (.ok (pre.length + q.bytes.length), { info with
        queryName := (if info.queryName.length > 0 then info.queryName ++ [DOMAIN_NAME_SPLIT]
          else info.queryName) ++ q.name,
        domainType := if info.queryType = DNS_REQUEST then q.qtype else info.domainType,
        msgType := if info.queryType = DNS_REQUEST then .request else info.msgType }) := by
  have hpayload : pre ++ q.bytes ++ rest = pre ++ wireName q.labels ++
      ((q.qtype / 256).toUInt8 :: (q.qtype % 256).toUInt8 :: (q.qclass / 256).toUInt8 ::
        (q.qclass % 256).toUInt8 :: rest) := by
    simp [WireQuestion.bytes]
  have hlen : q.bytes.length = (wireName q.labels).length + QUESTION_CLASS_TYPE_SIZE := by
    simp [WireQuestion.bytes, QUESTION_CLASS_TYPE_SIZE]
  have ht := readU16Be_append_cons (pre ++ wireName q.labels)
    ((q.qclass / 256).toUInt8 :: (q.qclass % 256).toUInt8 :: rest) hq.qtype
  rw [← hpayload, List.length_append] at ht
  have hname := decodeName_wireName pre ((q.qtype / 256).toUInt8 :: (q.qtype % 256).toUInt8 ::
    (q.qclass / 256).toUInt8 :: (q.qclass % 256).toUInt8 :: rest) hq.labels hq.size
  rw [← hpayload] at hname
  rw [decodeQuestion_ok hname (by simp [hlen]; omega) ht, hlen, Nat.add_assoc]
  rfl

/-- **All the questions.**  From a log with no query name yet, the questions, the last
one `q`, are read one after another: their names are joined by `;`, and in a request
the last type is the one recorded. -/
theorem run_questions (pre : List UInt8) {info : DnsInfo} (hname : info.queryName = []) (qs : List WireQuestion) :
    ∀ (q : WireQuestion) (rest : List UInt8), (∀ q' ∈ qs ++ [q], q'.Valid) →
      ((List.range (qs ++ [q]).length).foldlM
          (fun g _ => decodeQuestion (pre ++ wireQuestions (qs ++ [q]) ++ rest) g) pre.length).run.run info =
        some (.ok (pre.length + (wireQuestions (qs ++ [q])).length), { info with
          queryName := List.intercalate [0x3b] ((qs ++ [q]).map WireQuestion.name),
          domainType := if info.queryType = DNS_REQUEST then q.qtype else info.domainType,
          msgType := if info.queryType = DNS_REQUEST then .request else info.msgType }) := by
  induction qs using List.reverseRecOn with
  | nil =>
    intro q rest hqs
    rw [List.nil_append, List.length_singleton, List.range_one, List.foldlM_cons,
      show wireQuestions [q] = q.bytes by simp [wireQuestions],
      run_bind_ok (decodeQuestion_bytes pre rest (hqs q List.mem_cons_self)), List.foldlM_nil, run_pure, hname]
    simp
  | append_singleton qs q' ih =>
    intro q rest hqs
    have hq := hqs q (List.mem_append_right _ List.mem_cons_self)
    have hprev := ih q' (q.bytes ++ rest) fun q'' h => hqs q'' (List.mem_append_left _ h)
    have hpayload : pre ++ wireQuestions (qs ++ [q'] ++ [q]) ++ rest =
        pre ++ wireQuestions (qs ++ [q']) ++ (q.bytes ++ rest) := by
      simp [wireQuestions]
    have hnames : ((qs ++ [q']).map WireQuestion.name) ≠ [] := by simp
    -- the names so far end with one that is not empty
    have hne : (List.intercalate [0x3b] ((qs ++ [q']).map WireQuestion.name)).length > 0 := by
      have hq'n := (hqs q' (List.mem_append_left _ (List.mem_append_right _ List.mem_cons_self))).name_ne_nil
      rw [List.map_append, List.map_singleton]
      by_cases hqs0 : qs = []
      · simp [hqs0, List.length_pos_iff, hq'n]
      · rw [intercalate_append_singleton _ (by simpa using hqs0)]
        simp [List.length_pos_iff]
    rw [List.length_append, List.length_singleton, List.range_succ, List.foldlM_append, hpayload,
      run_bind_ok hprev, List.foldlM_cons, ← List.append_assoc, ← List.length_append,
      run_bind_ok (decodeQuestion_bytes _ rest hq), List.foldlM_nil, run_pure]
    dsimp only
    rw [if_pos hne, show (qs ++ [q'] ++ [q]).map WireQuestion.name =
      (qs ++ [q']).map WireQuestion.name ++ [q.name] by simp, intercalate_append_singleton _ hnames]
    -- the questions before leave the message type as it was, so the last type is kept
    by_cases hreq : info.queryType = DNS_REQUEST <;> simp [hreq, wireQuestions, Nat.add_assoc, DOMAIN_NAME_SPLIT]

/-! ### Queries read back -/

theorem and_0x80_of_lt : ∀ x < 0x80, x &&& 0x80 = 0 := by decide

/-- The log a query leaves: its id and code, the questions' names joined by `;`, the
last question's type, and the request message type. -/
def queryLog (id : Nat) (code : UInt8) (qs : List WireQuestion) : DnsInfo :=
  { (default : DnsInfo) with
    transId := id, statusCode := some ((code.toNat &&& 0xf : Nat) : Int),
    queryName := List.intercalate [0x3b] (qs.map WireQuestion.name),
    domainType := (qs.getLast?.map WireQuestion.qtype).getD 0, msgType := .request }

/-- A message over TCP: its length in two bytes, then the message. -/
def tcpMessage (msg : List UInt8) : List UInt8 :=
  [(msg.length / 256).toUInt8, (msg.length % 256).toUInt8] ++ msg

/-- Over TCP, a message behind its length is decoded as over UDP when that succeeds:
the length is right, so the message after it is decoded, and no retry is made. -/
theorem parse_tcpMessage (unconcerned : Option (List UInt8 → Bool)) {msg : List UInt8}
    (hsize : msg.length < 65536) (hne : msg ≠ []) {info info' : DnsInfo}
    (h : (decodePayload unconcerned msg).run.run info = some (.ok (), info')) :
    (parse unconcerned 6 (tcpMessage msg)).run.run info = some (.ok (), info') := by
  have hframe : readU16Be (tcpMessage msg) 0 = some msg.length :=
    readU16Be_append_cons [] msg hsize
  unfold parse
  rw [if_neg (by decide), if_pos rfl, if_neg (by simpa [tcpMessage, DNS_TCP_PAYLOAD_OFFSET] using hne)]
  dsimp only
  rw [hframe, run_bind_ok (run_liftOpt _ _), if_neg (by simp [tcpMessage, DNS_TCP_PAYLOAD_OFFSET]),
    show (tcpMessage msg).drop DNS_TCP_PAYLOAD_OFFSET = msg by simp [tcpMessage, DNS_TCP_PAYLOAD_OFFSET],
    run_tryCatch_ok h]

/-- `decode_payload` on a query from a fresh log. -/
theorem decodePayload_wireQuery (unconcerned : Option (List UInt8 → Bool)) {id : Nat} {flags code : UInt8}
    {qs : List WireQuestion} (hid : id < 65536) (hflags : flags < 0x80) (hqs : qs ≠ [])
    (hcount : qs.length < 65536) (hvalid : ∀ q ∈ qs, q.Valid) :
    (decodePayload unconcerned (wireQuery id flags code qs)).run.run default =
      some (.ok (), queryLog id code qs) := by
  obtain ⟨qs', q, rfl⟩ : ∃ qs' q, qs = qs' ++ [q] :=
    ⟨qs.dropLast, qs.getLast hqs, (List.dropLast_append_getLast hqs).symm⟩
  have hlen : DNS_HEADER_SIZE < (wireQuery id flags code (qs' ++ [q])).length := by
    simp [wireQuery, wireQuestions, WireQuestion.bytes, DNS_HEADER_SIZE]
  have hid' : readU16Be (wireQuery id flags code (qs' ++ [q])) 0 = some id := by
    simp [readU16Be, wireQuery]
    omega
  have hflags' : byteAt (wireQuery id flags code (qs' ++ [q])) DNS_HEADER_FLAGS_OFFSET = some flags.toNat := by
    simp [byteAt, wireQuery, DNS_HEADER_FLAGS_OFFSET]
  have hcode' : byteAt (wireQuery id flags code (qs' ++ [q])) (DNS_HEADER_FLAGS_OFFSET + 1) = some code.toNat := by
    simp [byteAt, wireQuery, DNS_HEADER_FLAGS_OFFSET]
  have hqd : readU16Be (wireQuery id flags code (qs' ++ [q])) DNS_HEADER_QDCOUNT_OFFSET =
      some (qs' ++ [q]).length := by
    have hcount' : qs'.length + 1 < 65536 := by simpa using hcount
    simp [readU16Be, wireQuery, DNS_HEADER_QDCOUNT_OFFSET]
    omega
  have han : readU16Be (wireQuery id flags code (qs' ++ [q])) DNS_HEADER_ANCOUNT_OFFSET = some 0 := by
    simp [readU16Be, wireQuery, DNS_HEADER_ANCOUNT_OFFSET]
  have hns : readU16Be (wireQuery id flags code (qs' ++ [q])) DNS_HEADER_NSCOUNT_OFFSET = some 0 := by
    simp [readU16Be, wireQuery, DNS_HEADER_NSCOUNT_OFFSET]
  unfold decodePayload
  rw [if_neg (by omega)]
  dsimp only
  rw [hid', run_bind_ok (run_liftOpt _ _), hflags', run_bind_ok (run_liftOpt _ _), hcode',
    run_bind_ok (run_liftOpt _ _), run_bind_ok (run_modify _ _), hqd, run_bind_ok (run_liftOpt _ _), han,
    run_bind_ok (run_liftOpt _ _), hns, run_bind_ok (run_liftOpt _ _)]
  have hquery : wireQuery id flags code (qs' ++ [q]) =
      [(id / 256).toUInt8, (id % 256).toUInt8, flags, code, ((qs' ++ [q]).length / 256).toUInt8,
        ((qs' ++ [q]).length % 256).toUInt8, 0, 0, 0, 0, 0, 0] ++ wireQuestions (qs' ++ [q]) ++ [] := by
    simp [wireQuery]
  have hreq : flags.toNat &&& 0x80 = DNS_REQUEST := and_0x80_of_lt _ hflags
  rw [hquery, show DNS_HEADER_SIZE = ([(id / 256).toUInt8, (id % 256).toUInt8, flags, code,
      ((qs' ++ [q]).length / 256).toUInt8, ((qs' ++ [q]).length % 256).toUInt8, 0, 0, 0, 0, 0, 0] :
        List UInt8).length from rfl,
    run_bind_ok (run_questions _ rfl qs' q [] hvalid), run_bind_ok (run_get _)]
  dsimp only
  rw [hreq, if_neg (by decide), run_pure]
  simp [queryLog]
  rfl

/-- **A query reads back.**  Parsed from a fresh log, over UDP or over TCP behind its
length, a query whose questions `decode_question` reads back gives the log its
transaction id, its code, the questions' names joined by `;`, the last question's type
and the request message type. -/
theorem parse_wireQuery (unconcerned : Option (List UInt8 → Bool)) {id : Nat} {flags code : UInt8}
    {qs : List WireQuestion} (hid : id < 65536) (hflags : flags < 0x80) (hqs : qs ≠ [])
    (hvalid : ∀ q ∈ qs, q.Valid) (hsize : (wireQuery id flags code qs).length < 65536) :
    (parse unconcerned 17 (wireQuery id flags code qs)).run.run default =
        some (.ok (), queryLog id code qs) ∧
      (parse unconcerned 6 (tcpMessage (wireQuery id flags code qs))).run.run default =
        some (.ok (), queryLog id code qs) := by
  -- each question takes at least a byte, so their count fits in the header
  have hcount : qs.length < 65536 := by
    have := length_le_wireQuestions qs
    simp [wireQuery] at hsize
    omega
  have hudp : (decodePayload unconcerned (wireQuery id flags code qs)).run.run default =
      some (.ok (), queryLog id code qs) :=
    decodePayload_wireQuery unconcerned hid hflags hqs hcount hvalid
  exact ⟨by unfold parse; rw [if_pos rfl]; exact hudp, parse_tcpMessage unconcerned hsize (by simp [wireQuery]) hudp⟩

/-- The one question of a recursive query for the `A` record of `ab.c`. -/
theorem valid_abc : ∀ q ∈ [(⟨[[0x61, 0x62], [0x63]], 1, 1⟩ : WireQuestion)], q.Valid := by
  intro q hq
  rw [List.mem_singleton.mp hq]
  refine ⟨?_, by simp, by decide, by decide⟩
  intro l hl
  rcases List.mem_pair.mp hl with rfl | rfl
  exacts [wireLabel_ab, wireLabel_c]

/-- A recursive query for the `A` record of `ab.c`. -/
theorem parse_wireQuery_abc :
    (0x1234 < 65536 ∧ (1 : UInt8) < 0x80 ∧ [(⟨[[0x61, 0x62], [0x63]], 1, 1⟩ : WireQuestion)] ≠ [] ∧
      (∀ q ∈ [(⟨[[0x61, 0x62], [0x63]], 1, 1⟩ : WireQuestion)], q.Valid) ∧
      (wireQuery 0x1234 1 0 [⟨[[0x61, 0x62], [0x63]], 1, 1⟩]).length < 65536) ∧
    ((parse none 17 (wireQuery 0x1234 1 0 [⟨[[0x61, 0x62], [0x63]], 1, 1⟩])).run.run default =
        some (.ok (), queryLog 0x1234 0 [⟨[[0x61, 0x62], [0x63]], 1, 1⟩]) ∧
      (parse none 6 (tcpMessage (wireQuery 0x1234 1 0 [⟨[[0x61, 0x62], [0x63]], 1, 1⟩]))).run.run default =
        some (.ok (), queryLog 0x1234 0 [⟨[[0x61, 0x62], [0x63]], 1, 1⟩])) :=
  ⟨⟨by decide, by decide, List.cons_ne_nil _ _, valid_abc, by decide⟩,
    parse_wireQuery none (by decide) (by decide) (List.cons_ne_nil _ _) valid_abc (by decide)⟩

end Sophon.Agent
