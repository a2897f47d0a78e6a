/-
What `obfuscate` and `attempt_obfuscation` return.

`lex_token` says once what a token can have read; `onToken_*` what the rest of the body
does with it.  From them, `ObfuscateInv` holds of every state the loop reaches: while
the output has not begun, nothing read so far holds a digit, and every byte written is
ASCII other than a digit, a raw prefix of that digit-free text, or the output of
`replace_digits`.  A second invariant, `Utf8Inv`, keeps the output a valid text followed
by the bytes of a character being copied, when the input is valid UTF-8: tokens start
and end on ASCII bytes, so every slice the loop copies starts and ends at a character.
-/
import Mathlib
import Sophon.Lib.Utf8
import Sophon.Agent.SqlObfuscate

namespace Sophon.Agent.Sql

open Utf8 (Valid StartsChar)

/-- An ASCII byte other than a digit. -/
def Plain (b : UInt8) : Prop := b < 0x80 ∧ isAsciiDigit b = false

instance (b : UInt8) : Decidable (Plain b) := inferInstanceAs (Decidable (_ ∧ _))

/-- Whether a text is plain, checked byte by byte along it (and not over all 256 bytes). -/
instance (l : List UInt8) : Decidable (∀ b ∈ l, Plain b) := List.decidableBAll _ _

/-- The bytes `[a, b)`. -/
def segment (input : List UInt8) (a b : Nat) : List UInt8 := (input.drop a).take (b - a)

/-! ### Bytes -/

theorem plain_of_isWordByte {b : UInt8} (h : isWordByte b = true) : b < 0x80 := by
  simp only [isWordByte, isAsciiAlphanumeric, isAsciiDigit, Bool.or_eq_true, Bool.and_eq_true,
    decide_eq_true_eq, beq_iff_eq] at h
  grind

theorem isWordByte_of_isWordStart {b : UInt8} (h : isWordStart b = true) : isWordByte b = true := by
  simp only [isWordStart, isWordByte, Bool.or_eq_true, beq_iff_eq] at h ⊢
  grind

theorem keyword_plain (k : Keyword) : ∀ b ∈ k.asBytes, Plain b := by
  cases k <;> decide

theorem operator_plain (o : Operator) : ∀ b ∈ o.asBytes, Plain b := by
  cases o <;> decide

/-- A word whose upper case is plain was plain. -/
theorem plain_of_toUppercase {word up : List UInt8} (hup : toUppercase word = some up)
    (h : ∀ b ∈ up, Plain b) : ∀ b ∈ word, Plain b := by
  unfold toUppercase at hup
  split at hup
  · obtain rfl := Option.some.inj hup
    intro b hb
    have hb' := h _ (List.mem_map_of_mem hb)
    split_ifs at hb' with hlower
    · simp only [Plain, isAsciiDigit, Bool.and_eq_false_iff, decide_eq_false_iff_not]
      grind
    · exact hb'
  · cases hup

theorem tryFrom_eq_some {value : List UInt8} {k : Keyword} (h : Keyword.tryFrom value = some k) :
    k.asBytes = value := by
  unfold Keyword.tryFrom at h
  -- the fold keeps the last entry whose bytes match, or what it started with
  suffices ∀ (l : List Keyword) (init : Option Keyword), (∀ k ∈ init, k.asBytes = value) →
      ∀ k ∈ l.foldl (fun found k => if k.asBytes = value then some k else found) init,
        k.asBytes = value from this _ none (by simp) k h
  intro l
  induction l with
  | nil => intro init hinit; exact hinit
  | cons k' rest ih =>
      intro init hinit
      apply ih
      dsimp only
      split_ifs with hk
      · simpa using hk
      · exact hinit

theorem replaceDigitsFrom_noDigit (scanning : Bool) (bs : List UInt8) :
    ∀ b ∈ replaceDigitsFrom scanning bs, isAsciiDigit b = false := by
  induction bs generalizing scanning with
  | nil => simp [replaceDigitsFrom]
  | cons ch rest ih =>
      unfold replaceDigitsFrom
      split_ifs with hd hs
      · exact ih true
      · intro b hb
        rcases List.mem_cons.mp hb with rfl | hb
        · decide
        · exact ih true b hb
      · intro b hb
        rcases List.mem_cons.mp hb with rfl | hb
        · simpa using hd
        · exact ih false b hb

/-- Bytes that are not digits go through as they are. -/
theorem replaceDigitsFrom_append {c : List UInt8} (hc : ∀ b ∈ c, isAsciiDigit b = false) (hne : c ≠ [])
    (scanning : Bool) (rest : List UInt8) :
    replaceDigitsFrom scanning (c ++ rest) = c ++ replaceDigitsFrom false rest := by
  induction c generalizing scanning with
  | nil => exact absurd rfl hne
  | cons b t ih =>
      have hb := hc b List.mem_cons_self
      rw [List.cons_append, replaceDigitsFrom, if_neg (by simp [hb]), List.cons_append]
      cases t with
      | nil => rfl
      | cons _ _ => rw [ih (fun x hx => hc x (List.mem_cons_of_mem b hx)) (by simp)]

theorem isAsciiDigit_of_high {b : UInt8} (h : 0x80 ≤ b) : isAsciiDigit b = false := by
  simp only [isAsciiDigit, Bool.and_eq_false_iff, decide_eq_false_iff_not]
  grind

/-- `replace_digits` keeps a text valid: it only rewrites and drops ASCII digits. -/
theorem replaceDigitsFrom_valid {bs : List UInt8} (h : Valid bs) :
    ∀ scanning, Valid (replaceDigitsFrom scanning bs) := by
  induction h with
  | nil => intro _; exact .nil
  | @cons c rest hc _ ih =>
      intro scanning
      rcases hc.ascii_or_high with ⟨a, rfl, ha⟩ | hhigh
      · -- an ASCII character: dropped, or turned into `?`, or kept
        show Valid (replaceDigitsFrom scanning (a :: rest))
        unfold replaceDigitsFrom
        split_ifs
        · exact ih true
        · exact .cons (c := [QUESTION_MARK]) (show QUESTION_MARK < 0x80 by decide) (ih true)
        · exact .cons (c := [a]) ha (ih false)
      · rw [replaceDigitsFrom_append (fun b hb => isAsciiDigit_of_high (hhigh b hb)) hc.ne_nil]
        exact .cons hc (ih false)

/-! ### The iterator -/

section Iterator

variable {input : List UInt8}

theorem mem_segment_iff {a b : Nat} {x : UInt8} :
    x ∈ segment input a b ↔ ∃ j, a ≤ j ∧ j < b ∧ input[j]? = some x := by
  simp only [segment, List.mem_iff_getElem?, List.getElem?_take, List.getElem?_drop]
  constructor
  · rintro ⟨k, hk⟩
    split_ifs at hk with hlt
    · exact ⟨a + k, by omega, by omega, hk⟩
  · rintro ⟨j, haj, hjb, hj⟩
    refine ⟨j - a, ?_⟩
    rw [if_pos (by omega), Nat.add_sub_cancel' haj]
    exact hj

theorem segment_append_one {a b : Nat} {x : UInt8} (hab : a ≤ b) (hx : input[b]? = some x) :
    segment input a (b + 1) = segment input a b ++ [x] := by
  have hb : b < input.length := (List.getElem?_eq_some_iff.mp hx).1
  simp only [segment, Nat.sub_add_comm hab]
  rw [List.take_add_one, List.getElem?_drop, Nat.add_sub_cancel' hab, hx, Option.toList_some]

theorem segment_zero (b : Nat) : segment input 0 b = input.take b := by
  simp [segment]

theorem forward_of_le {pos n : Nat} (h : pos + n ≤ input.length) : forward input pos n = pos + n :=
  Nat.min_eq_left h

theorem peekIndex_of_le {pos : Nat} (h : pos ≤ input.length) : peekIndex input pos = pos := by
  unfold peekIndex
  split <;> omega

theorem drop_skipWhile (p : UInt8 → Bool) (pos : Nat) :
    input.drop (skipWhile p input pos) = (input.drop pos).dropWhile p := by
  unfold skipWhile
  rw [← List.drop_drop]
  have h := List.takeWhile_append_dropWhile (p := p) (l := input.drop pos)
  calc (input.drop pos).drop ((input.drop pos).takeWhile p).length
      = ((input.drop pos).takeWhile p ++ (input.drop pos).dropWhile p).drop
          ((input.drop pos).takeWhile p).length := by rw [h]
    _ = _ := List.drop_left

theorem segment_skipWhile (p : UInt8 → Bool) (pos : Nat) :
    segment input pos (skipWhile p input pos) = (input.drop pos).takeWhile p := by
  unfold segment skipWhile
  rw [Nat.add_sub_cancel_left]
  have h := List.takeWhile_append_dropWhile (p := p) (l := input.drop pos)
  calc (input.drop pos).take ((input.drop pos).takeWhile p).length
      = ((input.drop pos).takeWhile p ++ (input.drop pos).dropWhile p).take
          ((input.drop pos).takeWhile p).length := by rw [h]
    _ = _ := List.take_left

theorem skipWhile_le (p : UInt8 → Bool) {pos : Nat} (h : pos ≤ input.length) :
    skipWhile p input pos ≤ input.length := by
  have hlen := congrArg List.length (List.takeWhile_append_dropWhile (p := p) (l := input.drop pos))
  simp only [List.length_append, List.length_drop] at hlen
  unfold skipWhile
  omega

/-- Where `skipWhile` stops, the byte fails the test. -/
theorem skipWhile_stop (p : UInt8 → Bool) (pos : Nat) {b : UInt8}
    (h : input[skipWhile p input pos]? = some b) : p b = false := by
  have hd := List.head?_dropWhile_not p (input.drop pos)
  rw [← drop_skipWhile, List.head?_drop, h] at hd
  exact hd

/-- The bytes `skipWhile` passes pass the test. -/
theorem skipWhile_taken (p : UInt8 → Bool) {pos : Nat} {x : UInt8}
    (hx : x ∈ segment input pos (skipWhile p input pos)) : p x = true := by
  rw [segment_skipWhile] at hx
  exact List.mem_takeWhile_imp hx

/-- `skipWhile` passes the byte it starts at when that byte passes. -/
theorem lt_skipWhile (p : UInt8 → Bool) {pos : Nat} {b : UInt8} (hb : input[pos]? = some b)
    (hp : p b = true) : pos < skipWhile p input pos := by
  rcases Nat.lt_or_ge pos (skipWhile p input pos) with h | h
  · exact h
  · have heq : skipWhile p input pos = pos := Nat.le_antisymm h (Nat.le_add_right _ _)
    rw [← heq] at hb
    rw [skipWhile_stop p pos hb] at hp
    cases hp

theorem startsWith_segment {i : Nat} {p : List UInt8} (hi : i ≤ input.length)
    (h : startsWith input i p = true) :
    segment input i (i + p.length) = p ∧ i + p.length ≤ input.length := by
  have hpre := List.isPrefixOf_iff_prefix.mp h
  have hlen := hpre.length_le
  simp only [List.length_drop] at hlen
  refine ⟨?_, by omega⟩
  rw [segment, Nat.add_sub_cancel_left]
  exact (List.prefix_iff_eq_take.mp hpre).symm

end Iterator

/-! ### What a token reads -/

/-- The input ends at `pos`, or an ASCII byte comes just before it. -/
def EndsAscii (input : List UInt8) (pos : Nat) : Prop :=
  pos = input.length ∨ ∃ b, input[pos - 1]? = some b ∧ b < 0x80

/-- What a token read from `i` up to `pos` is made of.  A string ends at its `end`
offset, or one `'\n'` before `pos` for a `--` or `//` comment; every other token is
plain bytes. -/
def Lexed (input : List UInt8) (i pos : Nat) : Token → Prop
  | .String stop => i < stop ∧ (stop = pos ∨ (input[stop]? = some 10 ∧ pos = stop + 1)) ∧
      EndsAscii input pos
  | .Separator s => input[i]? = some s ∧ Plain s ∧ pos = i + 1
  | .Unknown => False
  | _ => ∀ b ∈ segment input i pos, Plain b

section Lex

variable {input : List UInt8} {start i pos : Nat} {ch : UInt8} {t : Token}

theorem endsAscii_of_segment {P : UInt8 → Prop} (hP : ∀ b, P b → b < 0x80) (hi : i < pos)
    (hpos : pos ≤ input.length) (h : ∀ b ∈ segment input i pos, P b) : EndsAscii input pos := by
  obtain ⟨b, hb⟩ : ∃ b, input[pos - 1]? = some b := ⟨_, List.getElem?_eq_getElem (by omega)⟩
  exact .inr ⟨b, hb, hP b (h b (mem_segment_iff.mpr ⟨pos - 1, by omega, by omega, hb⟩))⟩

theorem Lexed.endsAscii (hi : i < pos) (hpos : pos ≤ input.length) (h : Lexed input i pos t) :
    EndsAscii input pos := by
  cases t with
  | String _ => exact h.2.2
  | Separator _ =>
      obtain ⟨hs, hplain, rfl⟩ := h
      exact .inr ⟨_, by simpa using hs, hplain.1⟩
  | Keyword _ | Operator _ => exact endsAscii_of_segment (fun _ hb => hb.1) hi hpos h
  | Unknown => exact h.elim

theorem startsWith_one (hch : input[i]? = some ch) : startsWith input i [ch] = true := by
  have hi : i < input.length := (List.getElem?_eq_some_iff.mp hch).1
  rw [startsWith, List.drop_eq_getElem_cons hi, (List.getElem?_eq_some_iff.mp hch).2]
  simp [List.isPrefixOf]

/-- An operator of the bytes `p`, which the input has at `i`. -/
theorem opToken_lexed {p : List UInt8} {n : Nat} {o : Operator} (hi : i < input.length)
    (hp : startsWith input i p = true) (hn : p.length = n) (h0 : 0 < n) (hplain : ∀ b ∈ p, Plain b)
    (h : opToken input i n o = .token t pos) : i < pos ∧ pos ≤ input.length ∧ Lexed input i pos t := by
  obtain ⟨hseg, hle⟩ := startsWith_segment hi.le hp
  rw [hn] at hseg hle
  obtain ⟨rfl, rfl⟩ := Lexeme.token.inj h
  rw [forward_of_le hle]
  refine ⟨by omega, hle, ?_⟩
  show ∀ b ∈ segment input i (i + n), Plain b
  rwa [hseg]

/-- A one-byte operator. -/
theorem opToken_lexed_one {o : Operator} (hch : input[i]? = some ch) (hplain : Plain ch)
    (h : opToken input i 1 o = .token t pos) : i < pos ∧ pos ≤ input.length ∧ Lexed input i pos t :=
  opToken_lexed (List.getElem?_eq_some_iff.mp hch).1 (startsWith_one hch) rfl Nat.one_pos
    (by simpa using hplain) h

theorem stringToken_lexed {r : Nat × Nat}
    (hr : i < r.2 ∧ r.2 ≤ input.length ∧ Lexed input i r.2 (.String r.1))
    (h : stringToken r = .token t pos) : i < pos ∧ pos ≤ input.length ∧ Lexed input i pos t := by
  obtain ⟨rfl, rfl⟩ := Lexeme.token.inj h
  exact hr

theorem scanQuotedString_lexed (hi : i < input.length) :
    i < (scanQuotedString input i).2 ∧ (scanQuotedString input i).2 ≤ input.length ∧
      Lexed input i (scanQuotedString input i).2 (.String (scanQuotedString input i).1) := by
  have h1 : forward input i 1 = i + 1 := forward_of_le hi
  simp only [scanQuotedString, h1]
  generalize hp2 : skipWhile (fun ch => ch != 34 && ch != 39) input (i + 1) = p2
  have h12 : i + 1 ≤ p2 := hp2 ▸ Nat.le_add_right _ _
  have h2 : p2 ≤ input.length := hp2 ▸ skipWhile_le _ (by omega)
  rcases Nat.lt_or_ge p2 input.length with hlt | hge
  · -- the scan stopped at a quote, which the second `forward` reads
    obtain ⟨b, hb⟩ : ∃ b, input[p2]? = some b := ⟨_, List.getElem?_eq_getElem hlt⟩
    have hq := skipWhile_stop _ _ (hp2 ▸ hb)
    have h3 : forward input p2 1 = p2 + 1 := forward_of_le hlt
    rw [h3, peekIndex_of_le hlt]
    refine ⟨by omega, hlt, by omega, .inl rfl, .inr ⟨b, by simpa using hb, ?_⟩⟩
    simp only [Bool.and_eq_false_iff, bne_eq_false_iff_eq] at hq
    rcases hq with rfl | rfl <;> decide
  · have h3 : forward input p2 1 = input.length := by unfold forward; omega
    rw [h3, peekIndex_of_le le_rfl]
    exact ⟨by omega, le_rfl, by omega, .inl rfl, .inl rfl⟩

theorem scanSingleLineComment_lexed {p : List UInt8} (hi : i < input.length)
    (hp : startsWith input i p = true) (hlen : p.length = 2) :
    i < (scanSingleLineComment input i).2 ∧ (scanSingleLineComment input i).2 ≤ input.length ∧
      Lexed input i (scanSingleLineComment input i).2 (.String (scanSingleLineComment input i).1) := by
  have hle := (startsWith_segment hi.le hp).2
  rw [hlen] at hle
  simp only [scanSingleLineComment, forward_of_le hle]
  generalize hp2 : skipWhile (fun ch => ch != 10) input (i + 2) = p2
  have h12 : i + 2 ≤ p2 := hp2 ▸ Nat.le_add_right _ _
  have h2 : p2 ≤ input.length := hp2 ▸ skipWhile_le _ hle
  rw [peekIndex_of_le h2]
  rcases Nat.lt_or_ge p2 input.length with hlt | hge
  · -- the comment ends at a `'\n'`, which the last `forward` reads
    obtain ⟨b, hb⟩ : ∃ b, input[p2]? = some b := ⟨_, List.getElem?_eq_getElem hlt⟩
    have hstop : (b != 10) = false := skipWhile_stop (fun ch => ch != 10) (i + 2) (hp2 ▸ hb)
    have hnl : b = 10 := bne_eq_false_iff_eq.mp hstop
    subst hnl
    rw [forward_of_le hlt]
    exact ⟨by omega, hlt, by omega, .inr ⟨hb, rfl⟩, .inr ⟨10, by simpa using hb, by decide⟩⟩
  · have h3 : forward input p2 1 = input.length := by unfold forward; omega
    rw [h3]
    exact ⟨by omega, le_rfl, by omega, .inl (by omega), .inl rfl⟩

/-- **A `/*` comment runs to the end of the input.**  The closure of
`scan_multiline_comment` accepts every byte, `*/` included. -/
theorem scanMultilineComment_eq {p : List UInt8} (hi : i < input.length)
    (hp : startsWith input i p = true) (hlen : p.length = 2) :
    scanMultilineComment input i = (input.length, input.length) := by
  have hle := (startsWith_segment hi.le hp).2
  rw [hlen] at hle
  simp only [scanMultilineComment, forward_of_le hle]
  generalize hp2 : skipWhile (fun ch => !(ch == 42) || ch != 47) input (i + 2) = p2
  have h2 : p2 ≤ input.length := hp2 ▸ skipWhile_le _ hle
  have hend : p2 = input.length := by
    by_contra hne
    obtain ⟨b, hb⟩ : ∃ b, input[p2]? = some b := ⟨_, List.getElem?_eq_getElem (by omega)⟩
    have hstop := skipWhile_stop _ _ (hp2 ▸ hb)
    by_cases hstar : b = 42 <;> simp [hstar] at hstop
  have h3 : forward input p2 1 = input.length := by unfold forward; omega
  rw [h3, peekIndex_of_le le_rfl]

theorem scanMultilineComment_lexed {p : List UInt8} (hi : i < input.length)
    (hp : startsWith input i p = true) (hlen : p.length = 2) :
    i < (scanMultilineComment input i).2 ∧ (scanMultilineComment input i).2 ≤ input.length ∧
      Lexed input i (scanMultilineComment input i).2 (.String (scanMultilineComment input i).1) := by
  have hle := (startsWith_segment hi.le hp).2
  rw [scanMultilineComment_eq hi hp hlen]
  exact ⟨by omega, le_rfl, by omega, .inl rfl, .inl rfl⟩

/-- A word: a keyword is plain bytes, and any word ends on an ASCII byte. -/
theorem lexWord_lexed (hch : input[i]? = some ch) (hw : isWordStart ch = true) (hs : start ≤ i)
    (h : lexWord input start i = some (.token t pos)) :
    i < pos ∧ pos ≤ input.length ∧ Lexed input i pos t := by
  have hi : i < input.length := (List.getElem?_eq_some_iff.mp hch).1
  unfold lexWord at h
  dsimp only at h
  generalize hp : skipWhile isWordByte input i = p at h
  have hip : i < p := hp ▸ lt_skipWhile _ hch (isWordByte_of_isWordStart hw)
  have hpl : p ≤ input.length := hp ▸ skipWhile_le _ hi.le
  have hword : ∀ b ∈ segment input i p, isWordByte b = true := fun b hb =>
    skipWhile_taken isWordByte (hp ▸ hb)
  have hends : EndsAscii input p := endsAscii_of_segment (fun _ => plain_of_isWordByte) hip hpl hword
  rw [peekIndex_of_le hpl] at h
  split at h
  · obtain ⟨rfl, rfl⟩ := Lexeme.token.inj (Option.some.inj h)
    exact ⟨hip, hpl, hip, .inl rfl, hends⟩
  · rw [sliceRange_of_le (by omega) hpl, Option.bind_some] at h
    obtain ⟨up, hup, h⟩ := Option.map_eq_some_iff.mp h
    split at h
    · -- a keyword: its upper case is in the table, so it is plain
      rename_i v hv
      obtain ⟨rfl, rfl⟩ := Lexeme.token.inj h
      have hplain := plain_of_toUppercase hup ((tryFrom_eq_some hv) ▸ keyword_plain v)
      refine ⟨hip, hpl, fun b hb => hplain b ?_⟩
      obtain ⟨j, hij, hjp, hj⟩ := mem_segment_iff.mp hb
      exact mem_segment_iff.mpr ⟨j, by omega, hjp, hj⟩
    · obtain ⟨rfl, rfl⟩ := Lexeme.token.inj h
      exact ⟨hip, hpl, hip, .inl rfl, hends⟩

theorem separator_lexed (hch : input[i]? = some ch) (hplain : Plain ch)
    (h : Lexeme.token (.Separator ch) (forward input i 1) = .token t pos) :
    i < pos ∧ pos ≤ input.length ∧ Lexed input i pos t := by
  have hi : i < input.length := (List.getElem?_eq_some_iff.mp hch).1
  obtain ⟨rfl, rfl⟩ := Lexeme.token.inj h
  rw [forward_of_le hi]
  exact ⟨by omega, hi, hch, hplain, rfl⟩

/-- **What a token reads.**  Every arm that makes a token reads at least its first byte,
stays inside the input, and reads what `Lexed` says. -/
theorem lex_token (hch : input[i]? = some ch) (hs : start ≤ i)
    (h : lex input start i ch = some (.token t pos)) :
    i < pos ∧ pos ≤ input.length ∧ Lexed input i pos t := by
  have hi : i < input.length := (List.getElem?_eq_some_iff.mp hch).1
  unfold lex at h
  dsimp only at h
  split at h <;> (repeat' split at h) <;> try simp only [Option.some.injEq, reduceCtorEq] at h
  all_goals first
    | exact opToken_lexed hi ‹_› (by decide) (by decide) (by decide) h
    | exact opToken_lexed_one hch (by decide) h
    | exact separator_lexed hch (by decide) h
    | exact stringToken_lexed (scanQuotedString_lexed hi) h
    | exact stringToken_lexed (scanSingleLineComment_lexed hi ‹_› (by decide)) h
    | exact stringToken_lexed (scanMultilineComment_lexed hi ‹_› (by decide)) h
    | exact lexWord_lexed hch ‹_› hs h

theorem lexWord_token {l : Lexeme} (h : lexWord input start i = some l) : ∃ t pos, l = .token t pos := by
  unfold lexWord at h
  dsimp only at h
  split at h
  · exact ⟨_, _, (Option.some.inj h).symm⟩
  · obtain ⟨word, -, h⟩ := Option.bind_eq_some_iff.mp h
    obtain ⟨up, -, rfl⟩ := Option.map_eq_some_iff.mp h
    split <;> exact ⟨_, _, rfl⟩

/-- A byte from `0x80` on starts no token. -/
theorem lex_of_high (h : 0x80 ≤ ch) : lex input start i ch = some .other := by
  unfold lex
  dsimp only
  split
  all_goals first | exact absurd h (by decide) | skip
  rename_i hw
  rw [if_neg]
  intro hws
  have := plain_of_isWordByte (isWordByte_of_isWordStart hws)
  grind

/-- A digit starts a word. -/
theorem lex_of_digit (hd : isAsciiDigit ch = true) : lex input start i ch = lexWord input start i := by
  unfold lex
  dsimp only
  split
  all_goals first | exact absurd hd (by decide) | skip
  rw [if_pos]
  simp [isWordStart, isAsciiAlphanumeric, hd]

/-- A byte the loop skips or copies alone is not a digit. -/
theorem lex_noDigit {l : Lexeme} (h : lex input start i ch = some l) (hl : ∀ t pos, l ≠ .token t pos) :
    isAsciiDigit ch = false := by
  cases hd : isAsciiDigit ch
  · rfl
  · rw [lex_of_digit hd] at h
    obtain ⟨t, pos, rfl⟩ := lexWord_token h
    exact absurd rfl (hl t pos)

/-- A byte that starts a token, or is skipped as a blank, is ASCII. -/
theorem lex_ascii {l : Lexeme} (h : lex input start i ch = some l) (hl : l ≠ .other) : ch < 0x80 := by
  by_contra hge
  rw [lex_of_high (by grind)] at h
  exact hl (Option.some.inj h).symm

end Lex

/-! ### The loop body -/

section Body

variable {input : List UInt8} {ch b : UInt8} {s st' : ObfuscateState} {t : Token}

@[simp] theorem finish_pos : (finish input t s).pos = s.pos := rfl
@[simp] theorem finish_output : (finish input t s).output = s.output := rfl
@[simp] theorem finish_needObfuscated : (finish input t s).needObfuscated = s.needObfuscated := rfl
@[simp] theorem finish_needMasked : (finish input t s).needMasked = s.needMasked := rfl
@[simp] theorem finish_lastToken : (finish input t s).lastToken = t := rfl
@[simp] theorem finish_start : (finish input t s).start = peekIndex input s.pos := rfl

@[simp] theorem emitSeparator_pos : (emitSeparator ch s b).pos = s.pos := rfl
@[simp] theorem emitSeparator_needObfuscated :
    (emitSeparator ch s b).needObfuscated = s.needObfuscated := rfl

@[simp] theorem emitKeyword_pos {k : Keyword} : (emitKeyword s k).pos = s.pos := by
  unfold emitKeyword
  split_ifs <;> rfl

@[simp] theorem emitKeyword_needObfuscated {k : Keyword} :
    (emitKeyword s k).needObfuscated = s.needObfuscated := by
  unfold emitKeyword
  split_ifs <;> rfl

@[simp] theorem emitOperator_pos {o : Operator} : (emitOperator s o).pos = s.pos := by
  unfold emitOperator
  split <;> rfl

@[simp] theorem emitOperator_needObfuscated {o : Operator} :
    (emitOperator s o).needObfuscated = s.needObfuscated := by
  unfold emitOperator
  split <;> rfl

@[simp] theorem emitOperator_needMasked {o : Operator} : (emitOperator s o).needMasked = s.needMasked := by
  unfold emitOperator
  split <;> rfl

theorem emitSeparator_needMasked : (emitSeparator ch s b).needMasked = true → s.needMasked = true := by
  unfold emitSeparator
  dsimp only
  split <;> simp_all

theorem emitKeyword_needMasked {k : Keyword} : (emitKeyword s k).needMasked = true → s.needMasked = true := by
  unfold emitKeyword
  split_ifs <;> simp

/-- What an arm writes after `out0`: plain bytes, then perhaps `lit`, and nothing while
the output has not begun (`obf` false). -/
def Writes (obf : Bool) (out0 lit out : List UInt8) : Prop :=
  ∃ u v, out = out0 ++ u ++ v ∧ (∀ x ∈ u, Plain x) ∧ (v = [] ∨ v = lit) ∧ (obf = false → u = [] ∧ v = [])

theorem Writes.refl (obf : Bool) (out0 lit : List UInt8) : Writes obf out0 lit out0 :=
  ⟨[], [], by simp, by simp, .inl rfl, fun _ => ⟨rfl, rfl⟩⟩

/-- Plain bytes written under a test that fails while the output has not begun. -/
theorem Writes.push {obf c : Bool} {out0 lit out w : List UInt8} (h : Writes obf out0 [] out)
    (hw : ∀ x ∈ w, Plain x) (hc : obf = false → c = false) :
    Writes obf out0 lit (if c = true then out ++ w else out) := by
  obtain ⟨u, v, rfl, hu, hv, hq⟩ := h
  have hv' : v = [] := by simpa using hv
  subst hv'
  cases c
  · exact ⟨u, [], by simp, hu, .inl rfl, hq⟩
  · refine ⟨u ++ w, [], by simp, fun x hx => ?_, .inl rfl, fun hobf => absurd (hc hobf) (by simp)⟩
    rcases List.mem_append.mp hx with hx | hx
    exacts [hu x hx, hw x hx]

/-- Plain bytes written once the output has begun. -/
theorem Writes.append {obf : Bool} {out0 lit out w : List UInt8} (h : Writes obf out0 [] out)
    (hw : ∀ x ∈ w, Plain x) (hobf : obf = true) : Writes obf out0 lit (out ++ w) := by
  have hpush : Writes obf out0 lit (if true = true then out ++ w else out) :=
    h.push hw (fun hq => by simp [hobf] at hq)
  simpa using hpush

theorem Writes.widen {obf : Bool} {out0 lit out : List UInt8} (h : Writes obf out0 [] out) :
    Writes obf out0 lit out := by
  obtain ⟨u, v, hout, hu, hv, hq⟩ := h
  exact ⟨u, v, hout, hu, .inl (by simpa using hv), hq⟩

theorem emitSeparator_writes (hb : Plain b) :
    Writes s.needObfuscated s.output [] (emitSeparator ch s b).output := by
  unfold emitSeparator
  dsimp only
  refine ((Writes.refl _ _ _).push (w := [BLANK_SPACE]) (by decide) ?_).push (by simpa using hb) ?_ <;>
    intro hq <;> simp [hq]

/-- The keyword arm writes after the flags it sets, which the output does not read. -/
theorem emitKeyword_output {k : Keyword} : (emitKeyword s k).output =
    if s.needObfuscated = true then
      (if (!s.lastToken.isUnknown && s.needObfuscated) = true then s.output ++ [BLANK_SPACE] else s.output)
        ++ k.asBytes
    else (if (!s.lastToken.isUnknown && s.needObfuscated) = true then s.output ++ [BLANK_SPACE]
      else s.output) := by
  unfold emitKeyword
  by_cases hset : k = .Set
  · rw [if_pos hset]
  · rw [if_neg hset]
    by_cases hmask : k ≠ .Values ∧ k ≠ .In ∧ k ≠ .Is ∧ k ≠ .Like ∧ k ≠ .Limit ∧ k ≠ .Offset
    · rw [if_pos hmask]
    · rw [if_neg hmask]

theorem emitKeyword_writes {k : Keyword} :
    Writes s.needObfuscated s.output [] (emitKeyword s k).output := by
  rw [emitKeyword_output]
  refine ((Writes.refl _ _ _).push (w := [BLANK_SPACE]) (by decide) ?_).push (keyword_plain k) ?_ <;>
    intro hq <;> simp [hq]

theorem emitOperator_writes {o : Operator} :
    Writes s.needObfuscated s.output [] (emitOperator s o).output := by
  unfold emitOperator
  split
  · rename_i hobf
    exact ((Writes.refl _ _ _).push (w := [BLANK_SPACE]) (by decide) (by simp [hobf])).append
      (operator_plain o) hobf
  · exact Writes.refl _ _ _

/-- The literal, written last under a test that fails while the output has not begun. -/
theorem Writes.literal {obf c : Bool} {out0 lit out : List UInt8} (h : Writes obf out0 [] out)
    (hc : obf = false → c = false) : Writes obf out0 lit (if c = true then out ++ lit else out) := by
  obtain ⟨u, v, rfl, hu, hv, hq⟩ := h
  have hv' : v = [] := by simpa using hv
  subst hv'
  cases c
  · exact ⟨u, [], by simp, hu, .inl rfl, hq⟩
  · exact ⟨u, lit, by simp, hu, .inr rfl, fun hobf => absurd (hc hobf) (by simp)⟩

theorem sliceRange_eq_some {buf l : List UInt8} {a b' : Nat} (h : sliceRange buf a b' = some l) :
    l = segment buf a b' ∧ a ≤ b' ∧ b' ≤ buf.length := by
  unfold sliceRange at h
  split at h
  · rename_i hab
    exact ⟨(Option.some.inj h).symm, hab⟩
  · cases h

/-- **The string arm.**  It keeps the position, the last token, `start` and the mask,
and either writes plain bytes and perhaps the literal with its digits replaced, or, for
a literal with a digit before the output has begun, begins the output with
`input[..start]` and that literal. -/
theorem emitString_spec {stop : Nat} (h : emitString input s stop = some st') :
    st'.pos = s.pos ∧ st'.lastToken = s.lastToken ∧ st'.start = s.start ∧ st'.needMasked = s.needMasked ∧
      ((st'.needObfuscated = s.needObfuscated ∧
          Writes s.needObfuscated s.output (replaceDigits (segment input s.start stop)) st'.output ∧
          (s.needObfuscated = false → s.needMasked = false →
            hasDigits (segment input s.start stop) = false)) ∨
        (s.needObfuscated = false ∧ st'.needObfuscated = true ∧
          st'.output = s.output ++ input.take s.start ++ replaceDigits (segment input s.start stop))) := by
  unfold emitString at h
  dsimp only at h
  -- the blank before the string, written only once the output has begun
  have hblank : Writes s.needObfuscated s.output []
      (if (!s.lastToken.isUnknown && !s.lastToken.isSeparator && s.needObfuscated) = true then
        s.output ++ [BLANK_SPACE] else s.output) :=
    (Writes.refl _ _ _).push (by decide) (fun hq => by simp [hq])
  split at h
  · -- the first literal of a masked list: one `?`
    rename_i hmask
    cases h
    refine ⟨rfl, rfl, rfl, rfl, .inl ⟨rfl, ?_, fun _ hm => by simp [hm] at hmask⟩⟩
    exact hblank.push (w := [QUESTION_MARK]) (c := s.needObfuscated) (by decide) id
  · split at h
    · -- an unmasked literal: its digits replaced, perhaps after the raw prefix
      rename_i hunmask
      cases hlit : sliceRange input s.start stop with
      | none => simp [hlit] at h
      | some lit =>
          obtain ⟨rfl, -⟩ := sliceRange_eq_some hlit
          simp only [hlit, Option.bind_some] at h
          split at h
          · rename_i hdig
            obtain ⟨pre, hpre, rfl⟩ := Option.map_eq_some_iff.mp h
            obtain ⟨rfl, -⟩ := sliceRange_eq_some hpre
            have hobf : s.needObfuscated = false := by simpa using (Bool.and_eq_true_iff.mp hdig).1
            refine ⟨rfl, rfl, rfl, rfl, .inr ⟨hobf, rfl, ?_⟩⟩
            simp [hobf, segment_zero]
          · rename_i hdig
            cases h
            refine ⟨rfl, rfl, rfl, rfl, .inl ⟨rfl, hblank.literal (c := s.needObfuscated) id, ?_⟩⟩
            intro hobf _
            simpa [hobf] using hdig
    · -- a later literal of a masked list: nothing but the blank
      rename_i hmask hunmask
      cases h
      refine ⟨rfl, rfl, rfl, rfl, .inl ⟨rfl, ?_, fun _ hm => by simp [hm] at hunmask⟩⟩
      exact hblank.widen

/-- What a token's literal becomes once written: a string's text from `start`, with its
digits replaced; nothing for the other tokens. -/
def litOf (input : List UInt8) (s : ObfuscateState) : Token → List UInt8
  | .String stop => replaceDigits (segment input s.start stop)
  | _ => []

/-- **The `match token` arm.**  It keeps the position and records the token; `start`
moves past it except after the name that follows `AS`; the mask is only cleared; and it
either writes plain bytes and perhaps the literal, or begins the output at a string. -/
theorem emit_spec (h : emit input ch s t = some st') (hsep : ∀ b, t = .Separator b → Plain b)
    (hpos : s.pos ≤ input.length) (hAs : s.lastToken = .Keyword .As → s.needObfuscated = true) :
    st'.pos = s.pos ∧ st'.lastToken = t ∧
      (st'.start = s.pos ∨ (st'.start = s.start ∧ s.lastToken = .Keyword .As)) ∧
      (st'.needMasked = true → s.needMasked = true) ∧
      ((st'.needObfuscated = s.needObfuscated ∧ Writes s.needObfuscated s.output (litOf input s t) st'.output ∧
          (s.needObfuscated = false → s.needMasked = false →
            ∀ stop, t = .String stop → hasDigits (segment input s.start stop) = false)) ∨
        (s.needObfuscated = false ∧ st'.needObfuscated = true ∧ ∃ stop, t = .String stop ∧
          st'.output = s.output ++ input.take s.start ++ replaceDigits (segment input s.start stop))) := by
  have hpeek := peekIndex_of_le hpos
  cases t with
  | String stop =>
      simp only [emit] at h
      split at h
      · -- the name after `AS`: dropped
        rename_i has
        cases h
        exact ⟨rfl, rfl, .inr ⟨rfl, has⟩, id, .inl ⟨rfl, Writes.refl _ _ _,
          fun hobf => absurd (hAs has) (by simp [hobf])⟩⟩
      · obtain ⟨st1, h1, rfl⟩ := Option.map_eq_some_iff.mp h
        obtain ⟨hp, -, -, hm, hout⟩ := emitString_spec h1
        refine ⟨hp, rfl, .inl (by simp [hp, hpeek]), fun h' => hm ▸ h', ?_⟩
        rcases hout with ⟨hn, hw, hq⟩ | ⟨hn, hn', ho⟩
        · exact .inl ⟨hn, hw, fun hobf hm' stop' heq => by cases heq; exact hq hobf hm'⟩
        · exact .inr ⟨hn, hn', stop, rfl, ho⟩
  | Separator b =>
      simp only [emit, Option.some.injEq] at h
      subst h
      refine ⟨rfl, rfl, .inl (by simp [hpeek]), emitSeparator_needMasked (b := b), .inl ⟨rfl, ?_, ?_⟩⟩
      · have hw : Writes s.needObfuscated s.output [] (emitSeparator ch s b).output :=
          emitSeparator_writes (hsep b rfl)
        simpa [litOf] using hw
      · intro _ _ stop heq
        cases heq
  | Keyword k =>
      simp only [emit] at h
      split at h
      · cases h
        exact ⟨rfl, rfl, .inl hpeek, id, .inl ⟨rfl, Writes.refl _ _ _, fun _ _ stop heq => by cases heq⟩⟩
      · cases h
        refine ⟨by simp, rfl, .inl (by simp [hpeek]), by simpa using emitKeyword_needMasked, .inl ⟨by simp, ?_, ?_⟩⟩
        · simpa [litOf] using emitKeyword_writes (s := s) (k := k)
        · intro _ _ stop heq
          cases heq
  | Operator o =>
      simp only [emit, Option.some.injEq] at h
      subst h
      refine ⟨by simp, rfl, .inl (by simp [hpeek]), by simp, .inl ⟨by simp, ?_, ?_⟩⟩
      · simpa [litOf] using emitOperator_writes (s := s) (o := o)
      · intro _ _ stop heq
        cases heq
  | Unknown =>
      simp only [emit, Option.some.injEq] at h
      subst h
      exact ⟨rfl, rfl, .inl (by simp [hpeek]), id, .inl ⟨rfl, Writes.refl _ _ _, fun _ _ stop heq => by cases heq⟩⟩

theorem Writes.quiet {out0 lit out : List UInt8} (h : Writes false out0 lit out) : out = out0 := by
  obtain ⟨u, v, rfl, -, -, hq⟩ := h
  obtain ⟨rfl, rfl⟩ := hq rfl
  simp

/-- **The loop body after the match.**  Besides position, last token and `start`, it
does one of three things to the output: nothing, before the output has begun, for a
token that is no operator, no masking keyword, no `AS` and no string with a digit; write
plain bytes and perhaps the token's literal, once the output has begun; or begin the
output with a raw prefix `input[..x]`, which ends at `start` or, for a masking token,
after it, perhaps followed by the literal. -/
theorem onToken_spec (h : onToken input ch s t = some st') (hsep : ∀ b, t = .Separator b → Plain b)
    (hpos : s.pos ≤ input.length) (hAs : s.lastToken = .Keyword .As → s.needObfuscated = true)
    (hmask : s.needMasked = true → s.needObfuscated = true) :
    st'.pos = s.pos ∧ st'.lastToken = t ∧
      (st'.start = s.pos ∨ (st'.start = s.start ∧ s.lastToken = .Keyword .As)) ∧
      (s.needObfuscated = true → st'.needObfuscated = true) ∧
      (t = .Keyword .As → st'.needObfuscated = true) ∧
      (st'.needMasked = true → st'.needObfuscated = true) ∧
      ((s.needObfuscated = false ∧ st'.needObfuscated = false ∧ st'.output = s.output ∧
          t.masks = false ∧ ∀ stop, t = .String stop → hasDigits (segment input s.start stop) = false) ∨
        (s.needObfuscated = true ∧ Writes true s.output (litOf input s t) st'.output) ∨
        (s.needObfuscated = false ∧ st'.needObfuscated = true ∧
          ∃ x v, st'.output = s.output ++ input.take x ++ v ∧ (x = s.start ∨ (x = s.pos ∧ t.masks = true)) ∧
            (v = [] ∨ v = litOf input s t))) := by
  have hpeek := peekIndex_of_le hpos
  unfold onToken at h
  split at h
  · rename_i hmasks
    dsimp only at h
    split at h
    · -- the first masking token: the raw text up to and with it
      rename_i hobf
      obtain ⟨pre, hpre, rfl⟩ := Option.map_eq_some_iff.mp h
      rw [hpeek] at hpre
      obtain ⟨rfl, -⟩ := sliceRange_eq_some hpre
      have hobf' : s.needObfuscated = false := by simpa using hobf
      refine ⟨rfl, rfl, .inl hpeek, fun _ => rfl, fun _ => rfl, fun _ => rfl, .inr (.inr ⟨hobf', rfl,
        s.pos, [], by simp [segment_zero], .inr ⟨rfl, hmasks⟩, .inl rfl⟩)⟩
    · rename_i hobf
      have hobf' : s.needObfuscated = true := by simpa using hobf
      obtain ⟨hp, hl, hst, -, hout⟩ := emit_spec h hsep hpos (fun _ => hobf')
      have hobf'' : st'.needObfuscated = true := by
        rcases hout with ⟨hn, -⟩ | ⟨hn, -⟩
        · exact hn.trans hobf'
        · simp [hobf'] at hn
      refine ⟨hp, hl, hst, fun _ => hobf'', fun _ => hobf'', fun _ => hobf'', .inr (.inl ⟨hobf', ?_⟩)⟩
      rcases hout with ⟨-, hw, -⟩ | ⟨hn, -⟩
      · simpa [hobf', litOf] using hw
      · simp [hobf'] at hn
  · rename_i hmasks
    split at h
    · -- `AS` before the output has begun: the raw text before it
      rename_i has
      obtain ⟨rfl, hobf⟩ := has
      obtain ⟨pre, hpre, rfl⟩ := Option.map_eq_some_iff.mp h
      obtain ⟨rfl, -⟩ := sliceRange_eq_some hpre
      have hobf' : s.needObfuscated = false := by simpa using hobf
      refine ⟨rfl, rfl, .inl hpeek, fun _ => rfl, fun _ => rfl, fun _ => rfl, .inr (.inr ⟨hobf', rfl,
        s.start, [], by simp [segment_zero], .inl rfl, .inl rfl⟩)⟩
    · rename_i has
      obtain ⟨hp, hl, hst, hm, hout⟩ := emit_spec h hsep hpos hAs
      have hmono : s.needObfuscated = true → st'.needObfuscated = true := by
        intro hobf
        rcases hout with ⟨hn, -⟩ | ⟨hn, -⟩
        · exact hn.trans hobf
        · simp [hobf] at hn
      refine ⟨hp, hl, hst, hmono, fun hAs' => hmono ?_, fun hm' => hmono (hmask (hm hm')), ?_⟩
      · -- not the first `AS`, so the output had begun
        cases hobf : s.needObfuscated
        · exact absurd ⟨hAs', by simp [hobf]⟩ has
        · rfl
      · rcases hout with ⟨hn, hw, hq⟩ | ⟨hn, hn', stop, rfl, ho⟩
        · cases hobf : s.needObfuscated
          · rw [hobf] at hw hn hq
            have hm0 : s.needMasked = false := by
              cases hms : s.needMasked
              · rfl
              · simp [hmask hms] at hobf
            exact .inl ⟨rfl, hn, hw.quiet, by simpa using hmasks, hq rfl hm0⟩
          · rw [hobf] at hw
            exact .inr (.inl ⟨rfl, hw⟩)
        · exact .inr (.inr ⟨hn, hn', s.start, _, by rw [ho]; rfl, .inl rfl, .inr rfl⟩)

theorem emitString_isSome {stop : Nat} (hs : s.start ≤ stop) (hstop : stop ≤ input.length) :
    (emitString input s stop).isSome := by
  unfold emitString
  dsimp only
  split
  · rfl
  · split
    · rw [sliceRange_of_le hs hstop, Option.bind_some]
      split
      · rw [sliceRange_zero (by omega)]
        rfl
      · rfl
    · rfl

/-- The body never panics: every slice it takes is inside the input. -/
theorem onToken_isSome (hstart : s.start ≤ s.pos) (hpos : s.pos ≤ input.length)
    (hstop : ∀ stop, t = .String stop → s.start ≤ stop ∧ stop ≤ input.length) :
    (onToken input ch s t).isSome := by
  have hemit : ∀ s' : ObfuscateState, s'.start = s.start → (emit input ch s' t).isSome := by
    intro s' hs'
    cases t with
    | String stop =>
        simp only [emit]
        split
        · rfl
        · obtain ⟨h1, h2⟩ := hstop stop rfl
          rw [Option.isSome_map]
          exact emitString_isSome (hs' ▸ h1) h2
    | Keyword k =>
        simp only [emit]
        split <;> rfl
    | _ => rfl
  unfold onToken
  split
  · dsimp only
    split
    · rw [peekIndex_of_le hpos, sliceRange_zero hpos]
      rfl
    · exact hemit _ rfl
  · split
    · rw [sliceRange_zero (by omega)]
      rfl
    · exact hemit s rfl

end Body

/-! ### The loop -/

section Loop

variable {input : List UInt8} {st st' : ObfuscateState}

theorem segment_append {a b c : Nat} (hab : a ≤ b) (hbc : b ≤ c) :
    segment input a c = segment input a b ++ segment input b c := by
  unfold segment
  rw [show c - a = (b - a) + (c - b) by omega, List.take_add, List.drop_drop,
    Nat.add_sub_cancel' hab]

theorem take_eq_append_segment {i j : Nat} (hij : i ≤ j) :
    input.take j = input.take i ++ segment input i j := by
  rw [← segment_zero, ← segment_zero, segment_append (Nat.zero_le i) hij]

/-- A valid input between two character starts. -/
theorem valid_segment (hv : Valid input) {a b : Nat} (ha : StartsChar (input.drop a))
    (hb : StartsChar (input.drop b)) (hab : a ≤ b) : Valid (segment input a b) := by
  have hdrop := (hv.take_drop ha).2
  have hsplit : input.drop a = segment input a b ++ input.drop b := by
    have h := List.take_append_drop (b - a) (input.drop a)
    rw [List.drop_drop, Nat.add_sub_cancel' hab] at h
    exact h.symm
  rw [hsplit] at hdrop
  exact (hdrop.split hb).1

theorem startsChar_of_endsAscii (hv : Valid input) {pos : Nat} (h0 : 0 < pos) (h : EndsAscii input pos) :
    StartsChar (input.drop pos) := by
  rcases h with rfl | ⟨b, hb, hlt⟩
  · exact Utf8.startsChar_drop_length input
  · have := Utf8.startsChar_of_ascii_before hv hb hlt
    rwa [Nat.sub_add_cancel h0] at this

/-- With a valid input and `start` at a character, the word arm meets no undefined
behaviour: the word ends on an ASCII byte, so the slice it looks up is a valid text. -/
theorem lexWord_isSome (hv : Valid input) {start i : Nat} {ch : UInt8} (hs : start ≤ i)
    (hstart : StartsChar (input.drop start)) (hch : input[i]? = some ch)
    (hw : isWordStart ch = true) : (lexWord input start i).isSome := by
  have hi : i < input.length := (List.getElem?_eq_some_iff.mp hch).1
  unfold lexWord
  dsimp only
  generalize hp : skipWhile isWordByte input i = p
  have hip : i < p := hp ▸ lt_skipWhile _ hch (isWordByte_of_isWordStart hw)
  have hpl : p ≤ input.length := hp ▸ skipWhile_le _ hi.le
  have hends : EndsAscii input p := endsAscii_of_segment (fun _ => plain_of_isWordByte) hip hpl
    fun b hb => skipWhile_taken isWordByte (hp ▸ hb)
  rw [peekIndex_of_le hpl]
  split
  · rfl
  · have hvs : Valid ((input.drop start).take (p - start)) :=
      valid_segment hv hstart (startsChar_of_endsAscii hv (by omega) hends) (by omega)
    rw [sliceRange_of_le (by omega) hpl, Option.bind_some, toUppercase,
      if_pos (Utf8.validate_eq_none_iff.mpr hvs)]
    rfl

/-- With a valid input the match never panics nor meets undefined behaviour, once
`start` is not past the byte and is at the byte or at a character. -/
theorem lex_isSome (hv : Valid input) {start i : Nat} {ch : UInt8} (hs : start ≤ i)
    (hstart : start = i ∨ StartsChar (input.drop start)) (hch : input[i]? = some ch) :
    (lex input start i ch).isSome := by
  unfold lex
  dsimp only
  split <;> (repeat' split) <;> first | rfl | skip
  -- the word arm: its first byte is ASCII, so a character starts at `start`
  rename_i hw
  have hstart' : StartsChar (input.drop start) := by
    rcases hstart with rfl | h
    · exact Utf8.startsChar_drop_of_lt hch (plain_of_isWordByte (isWordByte_of_isWordStart hw))
    · exact h
  exact lexWord_isSome hv hs hstart' hch hw

/-- **What a turn can do.**  With the byte `ch` under the iterator, it skips a blank,
copies a byte of no token, or reads a token and runs the rest of the body on it. -/
theorem obfuscateTurn_next (h : obfuscateTurn input st = .inr st') :
    ∃ ch, input[st.pos]? = some ch ∧
      ((lex input st.start st.pos ch = some .space ∧
          st' = { st with pos := st.pos + 1, start := st.pos + 1 }) ∨
        (lex input st.start st.pos ch = some .other ∧
          st' = { st with output := if st.needObfuscated then st.output ++ [ch] else st.output,
                          pos := st.pos + 1, start := st.pos + 1 }) ∨
        ∃ t pos, lex input st.start st.pos ch = some (.token t pos) ∧
          onToken input ch { st with pos } t = some st') := by
  unfold obfuscateTurn at h
  split at h
  · cases h
  · rename_i ch hch
    have hi : st.pos < input.length := (List.getElem?_eq_some_iff.mp hch).1
    have hnext : forward input st.pos 1 = st.pos + 1 := forward_of_le hi
    have hpeek : peekIndex input (st.pos + 1) = st.pos + 1 := peekIndex_of_le hi
    refine ⟨ch, hch, ?_⟩
    split at h
    · cases h
    · rename_i hlex
      cases h
      exact .inl ⟨hlex, by simp [hnext, hpeek]⟩
    · rename_i hlex
      cases h
      exact .inr (.inl ⟨hlex, by simp [hnext, hpeek]⟩)
    · rename_i t pos hlex
      split at h
      · cases h
      · rename_i st'' hon
        cases h
        exact .inr (.inr ⟨t, pos, hlex, hon⟩)

/-- The bytes of a token other than a string are plain. -/
theorem Lexed.plain {i pos : Nat} {t : Token} (h : Lexed input i pos t) (hstr : ∀ stop, t ≠ .String stop) :
    ∀ b ∈ segment input i pos, Plain b := by
  cases t with
  | String stop => exact absurd rfl (hstr stop)
  | Separator s =>
      obtain ⟨hs, hplain, rfl⟩ := h
      intro b hb
      obtain ⟨j, hij, hji, hj⟩ := mem_segment_iff.mp hb
      obtain rfl : j = i := by omega
      rw [hs] at hj
      exact Option.some.inj hj ▸ hplain
  | Keyword _ | Operator _ => exact h
  | Unknown => exact h.elim

/-- A token that leaves the output unbegun holds no digit: a string without one, up to a
possible `'\n'`, or plain bytes. -/
theorem Lexed.noDigit {i pos : Nat} {t : Token} (h : Lexed input i pos t) (hlt : i < pos)
    (hstr : ∀ stop, t = .String stop → hasDigits (segment input i stop) = false) :
    ∀ b ∈ segment input i pos, isAsciiDigit b = false := by
  cases t with
  | String stop =>
      obtain ⟨histop, hend, -⟩ := h
      have hlit : ∀ b ∈ segment input i stop, isAsciiDigit b = false := by
        simpa [hasDigits] using hstr stop rfl
      rcases hend with rfl | ⟨hnl, rfl⟩
      · exact hlit
      · rw [segment_append histop.le (Nat.le_succ stop)]
        intro b hb
        rcases List.mem_append.mp hb with hb | hb
        · exact hlit b hb
        · obtain ⟨j, hj1, hj2, hj⟩ := mem_segment_iff.mp hb
          obtain rfl : j = stop := by omega
          rw [hnl] at hj
          cases hj
          decide
  | _ => exact fun b hb => (h.plain (by simp) b hb).2

/-- What holds of every state the loop reaches. -/
structure ObfuscateInv (input : List UInt8) (st : ObfuscateState) : Prop where
  start_le : st.start ≤ st.pos
  pos_le : st.pos ≤ input.length
  masked : st.needMasked = true → st.needObfuscated = true
  afterAs : st.lastToken = .Keyword .As → st.needObfuscated = true
  /-- Before the output begins, nothing is written, `start` is at the iterator, and
  nothing read holds a digit. -/
  quiet : st.needObfuscated = false →
    st.output = [] ∧ st.start = st.pos ∧ ∀ b ∈ input.take st.pos, isAsciiDigit b = false
  noDigit : ∀ b ∈ st.output, isAsciiDigit b = false

theorem ObfuscateInv.init (input : List UInt8) : ObfuscateInv input .init :=
  ⟨le_rfl, Nat.zero_le _, by simp [ObfuscateState.init], by simp [ObfuscateState.init],
    fun _ => ⟨rfl, rfl, by simp [ObfuscateState.init]⟩, by simp [ObfuscateState.init]⟩

/-- A blank or a byte of no token: one byte on, written as it is if at all. -/
theorem ObfuscateInv.byte (hi : ObfuscateInv input st) {ch : UInt8} (hch : input[st.pos]? = some ch)
    (hd : isAsciiDigit ch = false) {out : List UInt8}
    (hout : out = st.output ∨ (st.needObfuscated = true ∧ out = st.output ++ [ch])) :
    ObfuscateInv input { st with output := out, pos := st.pos + 1, start := st.pos + 1 } := by
  have hlt : st.pos < input.length := (List.getElem?_eq_some_iff.mp hch).1
  refine ⟨le_rfl, hlt, hi.masked, hi.afterAs, fun hq => ?_, ?_⟩
  · obtain ⟨hnil, -, hread⟩ := hi.quiet hq
    have hq' : st.needObfuscated = false := hq
    refine ⟨by rcases hout with rfl | ⟨hobf, -⟩; exacts [hnil, by simp [hq'] at hobf], rfl, ?_⟩
    rw [List.take_add_one, List.getElem?_eq_getElem hlt]
    intro b hb
    rcases List.mem_append.mp hb with hb | hb
    · exact hread b hb
    · rw [(List.getElem?_eq_some_iff.mp hch).2] at hb
      simp only [Option.toList_some, List.mem_singleton] at hb
      exact hb ▸ hd
  · rcases hout with rfl | ⟨-, rfl⟩
    · exact hi.noDigit
    · intro b hb
      rcases List.mem_append.mp hb with hb | hb
      · exact hi.noDigit b hb
      · exact (List.mem_singleton.mp hb) ▸ hd

/-- A token: the body's writes hold no digit, and before the output begins nothing read
does. -/
theorem ObfuscateInv.token (hi : ObfuscateInv input st) {ch : UInt8} {t : Token} {pos : Nat}
    (hch : input[st.pos]? = some ch) (hlex : lex input st.start st.pos ch = some (.token t pos))
    (hon : onToken input ch { st with pos } t = some st') :
    ObfuscateInv input st' ∧ st.pos < st'.pos := by
  obtain ⟨hlt, hle, hlexed⟩ := lex_token hch hi.start_le hlex
  have hsep : ∀ b, t = .Separator b → Plain b := by
    rintro b rfl
    exact hlexed.2.1
  obtain ⟨hp, hl, hst, hmono, hAs, hmask, hout⟩ :=
    onToken_spec hon hsep hle hi.afterAs hi.masked
  dsimp only at hp hst hout
  have hstart : st'.start ≤ st'.pos := by
    rcases hst with h | ⟨h, -⟩
    · rw [h, hp]
    · rw [h, hp]
      have := hi.start_le
      omega
  refine ⟨⟨hstart, hp ▸ hle, hmask, fun h => hAs (hl ▸ h), ?_, ?_⟩, hp ▸ hlt⟩
  · intro hq
    rcases hout with ⟨hobf, -, hsame, -, hstr⟩ | ⟨hobf, -⟩ | ⟨-, hobf', -⟩
    · obtain ⟨hnil, hsi, hread⟩ := hi.quiet hobf
      refine ⟨hsame.trans hnil, ?_, ?_⟩
      · rcases hst with h | ⟨-, has⟩
        · rw [h, hp]
        · simp [hi.afterAs has] at hobf
      · rw [hp, take_eq_append_segment hlt.le]
        intro b hb
        rcases List.mem_append.mp hb with hb | hb
        · exact hread b hb
        · exact hlexed.noDigit hlt (hsi ▸ hstr) b hb
    · simp [hmono hobf] at hq
    · simp [hobf'] at hq
  · rcases hout with ⟨hobf, -, hsame, -⟩ | ⟨-, u, v, hw, hu, hv, -⟩ | ⟨hobf, -, x, v, hw, hx, hv⟩
    · exact hsame ▸ hi.noDigit
    · -- plain bytes, then perhaps the literal with its digits replaced
      rw [hw]
      intro b hb
      simp only [List.mem_append] at hb
      rcases hb with (hb | hb) | hb
      · exact hi.noDigit b hb
      · exact (hu b hb).2
      · rcases hv with rfl | rfl
        · simp at hb
        · cases t <;> simp only [litOf, List.not_mem_nil] at hb
          exact replaceDigitsFrom_noDigit _ _ b hb
    · -- the raw text read so far, then perhaps the literal
      obtain ⟨hnil, hsi, hread⟩ := hi.quiet hobf
      have hpre : ∀ b ∈ input.take x, isAsciiDigit b = false := by
        rcases hx with rfl | ⟨rfl, hmasks⟩
        · rwa [hsi]
        · rw [take_eq_append_segment hlt.le]
          intro b hb
          rcases List.mem_append.mp hb with hb | hb
          · exact hread b hb
          · refine (hlexed.plain ?_ b hb).2
            rintro stop rfl
            simp [Token.masks] at hmasks
      rw [hw, hnil]
      intro b hb
      simp only [List.nil_append, List.mem_append] at hb
      rcases hb with hb | hb
      · exact hpre b hb
      · rcases hv with rfl | rfl
        · simp at hb
        · cases t <;> simp only [litOf, List.not_mem_nil] at hb
          exact replaceDigitsFrom_noDigit _ _ b hb

/-- **Step lemma.**  A turn keeps `ObfuscateInv` and moves the iterator on. -/
theorem ObfuscateInv.next (hi : ObfuscateInv input st) (h : obfuscateTurn input st = .inr st') :
    ObfuscateInv input st' ∧ st.pos < st'.pos := by
  obtain ⟨ch, hch, ⟨hlex, rfl⟩ | ⟨hlex, rfl⟩ | ⟨t, pos, hlex, hon⟩⟩ := obfuscateTurn_next h
  · exact ⟨hi.byte hch (lex_noDigit hlex (by simp)) (.inl rfl), Nat.lt_succ_self _⟩
  · refine ⟨hi.byte hch (lex_noDigit hlex (by simp)) ?_, Nat.lt_succ_self _⟩
    cases hobf : st.needObfuscated
    · exact .inl (by simp)
    · exact .inr ⟨rfl, by simp⟩
  · exact hi.token hch hlex hon

/-- A turn that stops with an output was at the end of the input. -/
theorem obfuscateTurn_stop (hi : ObfuscateInv input st) {out : List UInt8}
    (h : obfuscateTurn input st = .inl (some out)) : out = st.output ∧ st.pos = input.length := by
  unfold obfuscateTurn at h
  split at h
  · rename_i hnone
    cases h
    have := hi.pos_le
    simp only [List.getElem?_eq_none_iff] at hnone
    exact ⟨rfl, by omega⟩
  · -- every other stop is a panic or undefined behaviour
    split at h
    · cases h
    · cases h
    · cases h
    · split at h <;> cases h

/-! ### Valid text in, valid text out -/

/-- With a valid input: `start` is at the iterator or at a character, and once the
output has begun it is a valid text followed by the bytes from a character start `q` up
to the iterator, those of a character the loop is copying byte by byte. -/
structure Utf8Inv (input : List UInt8) (st : ObfuscateState) : Prop where
  start : st.start = st.pos ∨ StartsChar (input.drop st.start)
  output : st.needObfuscated = true → ∃ o q, q ≤ st.pos ∧ StartsChar (input.drop q) ∧ Valid o ∧
    st.output = o ++ segment input q st.pos

/-- At a character start the output is valid. -/
theorem Utf8Inv.valid (hv : Valid input) (hu : Utf8Inv input st) (hobf : st.needObfuscated = true)
    (hpos : StartsChar (input.drop st.pos)) : Valid st.output := by
  obtain ⟨o, q, hq, hqs, ho, hout⟩ := hu.output hobf
  rw [hout]
  exact ho.append (valid_segment hv hqs hpos hq)

/-- The literal a token writes is valid. -/
theorem litOf_valid (hv : Valid input) {s : ObfuscateState} {i pos : Nat} {t : Token}
    (hlexed : Lexed input i pos t) (hle : pos ≤ input.length) (hsi : s.start ≤ i)
    (hstart : StartsChar (input.drop s.start)) (hend : StartsChar (input.drop pos)) :
    Valid (litOf input s t) := by
  cases t with
  | String stop =>
      obtain ⟨histop, hstop, -⟩ := hlexed
      have hs : StartsChar (input.drop stop) := by
        rcases hstop with rfl | ⟨hnl, -⟩
        · exact hend
        · exact Utf8.startsChar_drop_of_lt hnl (by decide)
      exact replaceDigitsFrom_valid (valid_segment hv hstart hs (by omega)) false
  | _ => exact .nil

/-- **Step lemma.**  With a valid input, a turn keeps `Utf8Inv`. -/
theorem Utf8Inv.next (hv : Valid input) (hi : ObfuscateInv input st) (hu : Utf8Inv input st)
    (h : obfuscateTurn input st = .inr st') : Utf8Inv input st' := by
  obtain ⟨ch, hch, hturn⟩ := obfuscateTurn_next h
  have hlt : st.pos < input.length := (List.getElem?_eq_some_iff.mp hch).1
  rcases hturn with ⟨hlex, rfl⟩ | ⟨hlex, rfl⟩ | ⟨t, pos, hlex, hon⟩
  · -- a blank: the output is valid before it, and a character starts after it
    have hascii := lex_ascii hlex (by simp)
    refine ⟨.inl rfl, fun hobf => ⟨st.output, st.pos + 1, le_rfl,
      Utf8.startsChar_of_ascii_before hv hch hascii, ?_, by simp [segment]⟩⟩
    exact hu.valid hv hobf (Utf8.startsChar_drop_of_lt hch hascii)
  · -- a byte of no token, perhaps the first or a later byte of a character, copied
    refine ⟨.inl rfl, fun hobf => ?_⟩
    obtain ⟨o, q, hq, hqs, ho, hout⟩ := hu.output hobf
    have hobf' : st.needObfuscated = true := hobf
    refine ⟨o, q, by dsimp only; omega, hqs, ho, ?_⟩
    simp only [hobf', if_true, hout, List.append_assoc]
    rw [segment_append_one hq hch]
  · obtain ⟨hlt', hle, hlexed⟩ := lex_token hch hi.start_le hlex
    have hsep : ∀ b, t = .Separator b → Plain b := by
      rintro b rfl
      exact hlexed.2.1
    obtain ⟨hp, -, hst, -, -, -, hout⟩ := onToken_spec hon hsep hle hi.afterAs hi.masked
    dsimp only at hp hst hout
    -- a token starts and ends at a character, and so does what `start` points at
    have hascii := lex_ascii hlex (by simp)
    have hi0 : StartsChar (input.drop st.pos) := Utf8.startsChar_drop_of_lt hch hascii
    have hend : StartsChar (input.drop pos) :=
      startsChar_of_endsAscii hv (by omega) (hlexed.endsAscii hlt' hle)
    have hstart : StartsChar (input.drop st.start) := by
      rcases hu.start with h | h
      · rwa [h]
      · exact h
    have hlit : Valid (litOf input { st with pos } t) :=
      litOf_valid hv hlexed hle hi.start_le hstart hend
    refine ⟨?_, fun hobf' => ⟨st'.output, pos, hp ▸ le_rfl, hend, ?_, by simp [hp, segment]⟩⟩
    · rcases hst with h | ⟨h, -⟩
      · exact .inl (h.trans hp.symm)
      · exact .inr (h ▸ hstart)
    · rcases hout with ⟨-, hobf, -⟩ | ⟨hobf, u, v, hw, hu', hv', -⟩ | ⟨hobf, -, x, v, hw, hx, hv'⟩
      · simp [hobf] at hobf'
      · -- plain bytes and perhaps the literal, after a valid output
        rw [hw]
        refine ((hu.valid hv hobf hi0).append (Valid.of_ascii fun b hb => (hu' b hb).1)).append ?_
        rcases hv' with rfl | rfl
        · exact .nil
        · exact hlit
      · -- the raw text up to a character start, and perhaps the literal
        obtain ⟨hnil, hsi, -⟩ := hi.quiet hobf
        have hx' : StartsChar (input.drop x) := by
          rcases hx with rfl | ⟨rfl, -⟩
          · exact hstart
          · exact hend
        rw [hw, hnil, List.nil_append]
        refine (hv.take_drop hx').1.append ?_
        rcases hv' with rfl | rfl
        · exact .nil
        · exact hlit

/-- With a valid input a turn neither panics nor meets undefined behaviour. -/
theorem obfuscateTurn_ne_none (hv : Valid input) (hi : ObfuscateInv input st)
    (hu : Utf8Inv input st) : obfuscateTurn input st ≠ .inl none := by
  intro h
  unfold obfuscateTurn at h
  split at h
  · cases h
  · rename_i ch hch
    split at h
    · rename_i hlex
      have hsome := lex_isSome hv hi.start_le hu.start hch
      rw [hlex] at hsome
      cases hsome
    · cases h
    · cases h
    · rename_i t pos hlex
      obtain ⟨hlt', hle, hlexed⟩ := lex_token hch hi.start_le hlex
      split at h
      · rename_i hnone
        have hsome : (onToken input ch { st with pos } t).isSome := onToken_isSome
          (by have := hi.start_le; dsimp only; omega) hle (by
            rintro stop rfl
            have := hi.start_le
            have hstop := hlexed.2.1
            dsimp only
            constructor <;> rcases hstop with rfl | ⟨-, rfl⟩ <;> omega)
        rw [hnone] at hsome
        cases hsome
      · cases h

/-- **What `obfuscate` returns holds no digit**, whatever the bytes. -/
theorem obfuscate_noDigit_out {input out : List UInt8} (h : obfuscate input = some out) :
    ∀ b ∈ out, isAsciiDigit b = false := by
  unfold obfuscate at h
  refine Loop.whileFuel_inv (ObfuscateInv input) (fun st => input.length - st.pos)
    (fun r => ∀ out, r = some out → ∀ b ∈ out, isAsciiDigit b = false) ?_ ?_ _ _
    (ObfuscateInv.init input) (by simp [ObfuscateState.init]) out h
  · rintro st r hi hturn out rfl
    obtain ⟨rfl, -⟩ := obfuscateTurn_stop hi hturn
    exact hi.noDigit
  · rintro st st' hi hturn
    obtain ⟨hi', hlt⟩ := hi.next hturn
    exact ⟨hi', by have := hi'.pos_le; omega⟩

/-- **On a valid text `obfuscate` returns a valid text.**  The loop never panics, meets
no undefined behaviour and never runs out of fuel, as every turn reads a byte. -/
theorem obfuscate_valid {input : List UInt8} (hv : Valid input) :
    ∃ out, obfuscate input = some out ∧ Valid out := by
  unfold obfuscate
  refine Loop.whileFuel_inv (fun st => ObfuscateInv input st ∧ Utf8Inv input st)
    (fun st => input.length - st.pos) (fun r => ∃ out, r = some out ∧ Valid out) ?_ ?_ _ _
    ⟨ObfuscateInv.init input, .inl rfl, fun h => by cases h⟩ (by simp [ObfuscateState.init])
  · rintro st r ⟨hi, hu⟩ hturn
    cases r with
    | none => exact absurd hturn (obfuscateTurn_ne_none hv hi hu)
    | some out =>
        obtain ⟨rfl, hend⟩ := obfuscateTurn_stop hi hturn
        refine ⟨st.output, rfl, ?_⟩
        cases hobf : st.needObfuscated
        · rw [(hi.quiet hobf).1]
          exact .nil
        · exact hu.valid hv hobf (hend ▸ Utf8.startsChar_drop_length input)
  · rintro st st' ⟨hi, hu⟩ hturn
    obtain ⟨hi', hlt⟩ := hi.next hturn
    exact ⟨⟨hi', hu.next hv hi hturn⟩, by have := hi'.pos_le; omega⟩

/-- **A quoted name after `AS`, then a word, reaches undefined behaviour.**  On
`AS '\xFF'x` the loop reads `AS`, the blank, and the name `'\xFF'`, which leaves
`start` at the name's quote; the word `x` is then looked up as `input[3..7]`, the bytes
`' \xFF ' x`, which are not UTF-8 and go to `from_utf8_unchecked`. -/
theorem obfuscate_aliasNotUtf8 :
    obfuscateTurn [0x41, 0x53, 0x20, 0x27, 0xFF, 0x27, 0x78] .init =
        .inr { ObfuscateState.init with
          pos := 2, lastToken := .Keyword .As, needObfuscated := true, start := 2 } ∧
      obfuscateTurn [0x41, 0x53, 0x20, 0x27, 0xFF, 0x27, 0x78]
          { ObfuscateState.init with
            pos := 2, lastToken := .Keyword .As, needObfuscated := true, start := 2 } =
        .inr { ObfuscateState.init with
          pos := 3, lastToken := .Keyword .As, needObfuscated := true, start := 3 } ∧
      obfuscateTurn [0x41, 0x53, 0x20, 0x27, 0xFF, 0x27, 0x78]
          { ObfuscateState.init with
            pos := 3, lastToken := .Keyword .As, needObfuscated := true, start := 3 } =
        .inr { ObfuscateState.init with
          pos := 6, lastToken := .String 6, needObfuscated := true, start := 3 } ∧
      obfuscateTurn [0x41, 0x53, 0x20, 0x27, 0xFF, 0x27, 0x78]
          { ObfuscateState.init with
            pos := 6, lastToken := .String 6, needObfuscated := true, start := 3 } = .inl none ∧
      ¬ Valid (segment [0x41, 0x53, 0x20, 0x27, 0xFF, 0x27, 0x78] 3 7) ∧
      obfuscate [0x41, 0x53, 0x20, 0x27, 0xFF, 0x27, 0x78] = none :=
  ⟨by decide, by decide, by decide, by decide,
    fun h => absurd (Utf8.validate_of_valid h 0) (by decide), by decide⟩

end Loop

/-! ### The cache

`attempt_obfuscation` hands back what the cache holds under the statement's hash, so
what it returns is an output of `obfuscate` if every entry of the cache is one.  That
rests on what is assumed of `LruCache`, stated as `ObfuscateCache.Lawful`. -/

section Cache

variable {C : Type}

/-- The laws the cache is assumed to keep, for `Holds P c`, "every entry of `c` satisfies
`P`": a value `get` finds under a key is an entry of that key, and `get` and a `put` of
an entry that satisfies `P` keep `Holds P`. -/
structure ObfuscateCache.Lawful (ops : ObfuscateCache C)
    (Holds : (UInt64 → List UInt8 → Prop) → C → Prop) : Prop where
  mono {P Q : UInt64 → List UInt8 → Prop} {c : C} : (∀ k v, P k v → Q k v) → Holds P c → Holds Q c
  get_found {P : UInt64 → List UInt8 → Prop} {c c' : C} {k : UInt64} {v : List UInt8} :
    Holds P c → ops.get c k = (some v, c') → P k v
  get_holds {P : UInt64 → List UInt8 → Prop} {c : C} {k : UInt64} :
    Holds P c → Holds P (ops.get c k).2
  put_holds {P : UInt64 → List UInt8 → Prop} {c : C} {k : UInt64} {v : List UInt8} :
    Holds P c → P k v → Holds P (ops.put c k v)

/-- The abstract LRU map keeps the laws. -/
theorem lruCache_lawful : lruCache.Lawful fun P cache => Lru.Holds (fun e => P e.1 e.2) cache where
  mono hPQ h e he := hPQ _ _ (h e he)
  get_found h hget := h.get_fst (congrArg Prod.fst hget)
  get_holds h := h.get false _
  put_holds h hkv := h.add hkv

variable {ops : ObfuscateCache C} {Holds : (UInt64 → List UInt8 → Prop) → C → Prop}
  (hash : List UInt8 → UInt64)

/-- Every entry of the cache is the output of `obfuscate` on a statement seen before,
stored under that statement's hash. -/
def Memo (Holds : (UInt64 → List UInt8 → Prop) → C → Prop) (seen : List (List UInt8)) :
    Option C → Prop
  | none => True
  | some cache => Holds (fun key out => ∃ x ∈ seen, hash x = key ∧ obfuscate x = some out) cache

variable {hash}

theorem Memo.cons (hlaw : ops.Lawful Holds) {seen : List (List UInt8)} {cache : C}
    (h : Memo hash Holds seen (some cache)) (input : List UInt8) :
    Memo hash Holds (input :: seen) (some cache) :=
  hlaw.mono (fun _ _ ⟨x, hx, hkey, hout⟩ => ⟨x, List.mem_cons_of_mem input hx, hkey, hout⟩) h

/-- **One call of `attempt_obfuscation`.**  On a valid statement it returns; the cache
keeps holding outputs of `obfuscate`; and what it returns holds no digit, and is valid
UTF-8 when the statement is, unless an earlier statement of the same hash was not. -/
theorem attemptObfuscation_spec (hlaw : ops.Lawful Holds) {seen : List (List UInt8)}
    {cache : Option C} (hmemo : Memo hash Holds seen cache) (input : List UInt8) :
    (Valid input → (attemptObfuscation ops hash cache input).isSome) ∧
      ∀ r cache', attemptObfuscation ops hash cache input = some (r, cache') →
        Memo hash Holds (input :: seen) cache' ∧ ∀ out, r = some out →
          (∀ b ∈ out, isAsciiDigit b = false) ∧
          (Valid input → (∀ x ∈ seen, hash x = hash input → Valid x) → Valid out) := by
  cases cache with
  | none =>
      refine ⟨fun _ => rfl, fun r cache' h => ?_⟩
      cases h
      exact ⟨trivial, fun _ h => by cases h⟩
  | some cache =>
      have hget := hlaw.get_holds (k := hash input) (Memo.cons hlaw hmemo input)
      simp only [attemptObfuscation]
      cases hlook : ops.get cache (hash input) with
      | mk found cache1 =>
          rw [hlook] at hget
          cases found with
          | some s =>
              obtain ⟨x, hx, hkey, hout⟩ := hlaw.get_found hmemo hlook
              refine ⟨fun _ => rfl, fun r cache' h => ?_⟩
              cases h
              refine ⟨hget, fun out hs => ?_⟩
              cases hs
              refine ⟨obfuscate_noDigit_out hout, fun _ hseen => ?_⟩
              obtain ⟨out', hout', hvalid⟩ := obfuscate_valid (hseen x hx hkey)
              rw [hout] at hout'
              cases hout'
              exact hvalid
          | none =>
              refine ⟨fun hv => ?_, fun r cache' h => ?_⟩
              · obtain ⟨out, hout, -⟩ := obfuscate_valid hv
                rw [hout, Option.isSome_map]
                rfl
              · obtain ⟨out, hout, h⟩ := Option.map_eq_some_iff.mp h
                split at h
                · cases h
                  refine ⟨hlaw.put_holds hget ⟨input, List.mem_cons_self, rfl, hout⟩, fun o ho => ?_⟩
                  cases ho
                  refine ⟨obfuscate_noDigit_out hout, fun hv _ => ?_⟩
                  obtain ⟨out', hout', hvalid⟩ := obfuscate_valid hv
                  rw [hout] at hout'
                  cases hout'
                  exact hvalid
                · cases h
                  exact ⟨hget, fun _ h => by cases h⟩

/-- **SQL obfuscation never leaks digits.**  On any bytes, what `obfuscate` returns holds
no ASCII digit, and on a valid UTF-8 statement it returns, with a valid text.  With a
cache that keeps the laws of `ObfuscateCache.Lawful` and holds outputs of `obfuscate`,
`attempt_obfuscation` returns on a valid statement, and what it returns holds no digit. -/
theorem attemptObfuscation_noDigit (hlaw : ops.Lawful Holds) (seen : List (List UInt8))
    (cache : Option C) (hmemo : Memo hash Holds seen cache) (input : List UInt8) :
    (∀ out, obfuscate input = some out → ∀ b ∈ out, isAsciiDigit b = false) ∧
      (Valid input → ∃ out, obfuscate input = some out ∧ Valid out) ∧
      (Valid input → (attemptObfuscation ops hash cache input).isSome) ∧
      ∀ r cache', attemptObfuscation ops hash cache input = some (r, cache') →
        ∀ out, r = some out → ∀ b ∈ out, isAsciiDigit b = false := by
  obtain ⟨hsome, hcall⟩ := attemptObfuscation_spec hlaw hmemo input
  refine ⟨fun _ h => obfuscate_noDigit_out h, fun hv => obfuscate_valid hv, hsome, ?_⟩
  intro r cache' h out hr
  exact ((hcall r cache' h).2 out hr).1

/-- The statement `id = 1`, with a fresh `LruCache`. -/
theorem attemptObfuscation_noDigit_fresh :
    lruCache.Lawful (fun P cache => Lru.Holds (fun e => P e.1 e.2) cache) ∧
      Memo (fun _ => 0) (fun P cache => Lru.Holds (fun e => P e.1 e.2) cache) [] (some []) ∧
      (attemptObfuscation lruCache (fun _ => 0) (some [])
        [0x69, 0x64, 0x20, 0x3D, 0x20, 0x31]).isSome :=
  ⟨lruCache_lawful, fun _ he => absurd he List.not_mem_nil,
    (attemptObfuscation_noDigit lruCache_lawful [] (some [])
      (fun _ he => absurd he List.not_mem_nil) _).2.2.1 (Valid.of_ascii (by simp))⟩

end Cache

end Sophon.Agent.Sql
