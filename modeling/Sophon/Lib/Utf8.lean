/-
UTF-8 as Rust's `core::str` checks it.

`validate` is `run_utf8_validation`: it walks the bytes one character at a time with
the octet classes of RFC 3629 and stops at the first byte that cannot continue a valid
prefix, reporting how long that prefix is (`valid_up_to`) and how many bytes the bad
sequence has (`error_len`, none when the input ends inside a character).
`isCharBoundary` is `str::is_char_boundary`, which slicing a `str` checks.

`Valid` is what the checks are for: a byte list that splits into characters, each a
lead byte followed by the continuation bytes it announces.  `validate` accepts exactly
those (`validate_eq_none_iff`).  The grammar is what a proof about text works with:
valid texts concatenate (`Valid.append`), and a valid text cut where a character starts
gives two valid texts (`Valid.split`).  Such a cut is wherever the next byte is not a
continuation byte, in particular right after an ASCII byte (`startsChar_of_ascii_before`).
-/
import Mathlib

namespace Sophon.Utf8

/-- A continuation byte, `10xxxxxx`: `(b as i8) < -64`. -/
def isCont (b : UInt8) : Bool := 0x80 ≤ b && b < 0xC0

/-- `utf8_char_width`: the length of the character a byte starts, 0 for a byte that
starts none. -/
def charWidth (b : UInt8) : Nat :=
  if b < 0x80 then 1
  else if b < 0xC2 then 0
  else if b < 0xE0 then 2
  else if b < 0xF0 then 3
  else if b < 0xF5 then 4
  else 0

/-- The second byte a three-byte character may have after `first`. -/
def second3 (first c : UInt8) : Bool :=
  (first = 0xE0 && 0xA0 ≤ c && c ≤ 0xBF) || (0xE1 ≤ first && first ≤ 0xEC && isCont c) ||
    (first = 0xED && 0x80 ≤ c && c ≤ 0x9F) || (0xEE ≤ first && first ≤ 0xEF && isCont c)

/-- The second byte a four-byte character may have after `first`. -/
def second4 (first c : UInt8) : Bool :=
  (first = 0xF0 && 0x90 ≤ c && c ≤ 0xBF) || (0xF1 ≤ first && first ≤ 0xF3 && isCont c) ||
    (first = 0xF4 && 0x80 ≤ c && c ≤ 0x8F)

/-- `Utf8Error`. -/
structure Error where
  validUpTo : Nat
  errorLen : Option Nat
  deriving DecidableEq, Repr

/-- How a `Utf8Error` displays. -/
def Error.toString (e : Error) : String :=
  match e.errorLen with
  | some n => "invalid utf-8 sequence of " ++ Nat.repr n ++ " bytes from index " ++ Nat.repr e.validUpTo
  | none => "incomplete utf-8 byte sequence from index " ++ Nat.repr e.validUpTo

/-- `run_utf8_validation` on the bytes after the first `off`, which were valid: none, or
the first error. -/
def validate (off : Nat) : List UInt8 → Option Error
  | [] => none
  | b :: rest =>
      if b < 0x80 then validate (off + 1) rest
      else
        let err (len : Option Nat) : Option Error := some ⟨off, len⟩
        -- `match w`, each arm taking the bytes it reads with `next!`, which stops at the
        -- end of the input
        match charWidth b with
        | 2 =>
            match rest with
            | [] => err none
            | c :: rest => if isCont c then validate (off + 2) rest else err (some 1)
        | 3 =>
            match rest with
            | [] => err none
            | [c] => if second3 b c then err none else err (some 1)
            | c :: d :: rest =>
                if !second3 b c then err (some 1)
                else if !isCont d then err (some 2)
                else validate (off + 3) rest
        | 4 =>
            match rest with
            | [] => err none
            | [c] => if second4 b c then err none else err (some 1)
            | [c, d] =>
                if !second4 b c then err (some 1)
                else if !isCont d then err (some 2)
                else err none
            | c :: d :: e :: rest =>
                if !second4 b c then err (some 1)
                else if !isCont d then err (some 2)
                else if !isCont e then err (some 3)
                else validate (off + 4) rest
        | _ => err (some 1)

/-- `str::is_char_boundary`: index 0, the end, or a byte that is not a continuation. -/
def isCharBoundary (bs : List UInt8) (index : Nat) : Bool :=
  index = 0 ||
    match bs[index]? with
    | none => index = bs.length
    | some b => !isCont b

/-! ### The grammar -/

/-- One character: a lead byte and the continuation bytes its width asks for, with the
narrower second byte after `E0`, `ED`, `F0` and `F4`. -/
def IsChar : List UInt8 → Prop
  | [a] => a < 0x80
  | [a, b] => charWidth a = 2 ∧ isCont b
  | [a, b, c] => charWidth a = 3 ∧ second3 a b ∧ isCont c
  | [a, b, c, d] => charWidth a = 4 ∧ second4 a b ∧ isCont c ∧ isCont d
  | _ => False

/-- Well-formed UTF-8: a sequence of characters. -/
inductive Valid : List UInt8 → Prop
  | nil : Valid []
  | cons {c rest : List UInt8} : IsChar c → Valid rest → Valid (c ++ rest)

/-- A text that starts at a character: it is empty or its first byte is not a
continuation byte. -/
def StartsChar (bs : List UInt8) : Prop := ∀ b ∈ bs.head?, isCont b = false

theorem lead_of_charWidth {a : UInt8} (h : 2 ≤ charWidth a) : 0xC2 ≤ a := by
  unfold charWidth at h
  split_ifs at h <;> first | omega | grind

theorem not_isCont_of_lt {a : UInt8} (h : a < 0x80) : isCont a = false := by
  simp only [isCont, Bool.and_eq_false_iff, decide_eq_false_iff_not]
  grind

theorem not_isCont_of_lead {a : UInt8} (h : 0xC2 ≤ a) : isCont a = false := by
  simp only [isCont, Bool.and_eq_false_iff, decide_eq_false_iff_not]
  grind

theorem isCont_of_second3 {a b : UInt8} (h : second3 a b = true) : isCont b = true := by
  simp only [second3, isCont, Bool.or_eq_true, Bool.and_eq_true, decide_eq_true_eq] at h ⊢
  grind

theorem isCont_of_second4 {a b : UInt8} (h : second4 a b = true) : isCont b = true := by
  simp only [second4, isCont, Bool.or_eq_true, Bool.and_eq_true, decide_eq_true_eq] at h ⊢
  grind

/-- A character's first byte is not a continuation byte, and the rest are. -/
theorem IsChar.cons {a : UInt8} {t : List UInt8} (h : IsChar (a :: t)) :
    isCont a = false ∧ ∀ x ∈ t, isCont x = true := by
  match t, h with
  | [], h => exact ⟨not_isCont_of_lt h, by simp⟩
  | [_], ⟨hw, hb⟩ => exact ⟨not_isCont_of_lead (lead_of_charWidth (by omega)), by simpa using hb⟩
  | [_, _], ⟨hw, hb, hc⟩ =>
      exact ⟨not_isCont_of_lead (lead_of_charWidth (by omega)), by simp [isCont_of_second3 hb, hc]⟩
  | [_, _, _], ⟨hw, hb, hc, hd⟩ =>
      exact ⟨not_isCont_of_lead (lead_of_charWidth (by omega)), by simp [isCont_of_second4 hb, hc, hd]⟩

theorem IsChar.ne_nil {c : List UInt8} (h : IsChar c) : c ≠ [] := by
  rintro rfl
  exact h

/-- An ASCII byte is a character by itself. -/
theorem IsChar.eq_of_lt {a : UInt8} {t : List UInt8} (h : IsChar (a :: t)) (ha : a < 0x80) : t = [] := by
  match t, h with
  | [], _ => rfl
  | [_], ⟨hw, _⟩ | [_, _], ⟨hw, _⟩ | [_, _, _], ⟨hw, _⟩ =>
      have := lead_of_charWidth (a := a) (by omega)
      exact absurd ha (by grind)

/-- A character is one ASCII byte, or bytes that are all at least `0x80`. -/
theorem IsChar.ascii_or_high {c : List UInt8} (h : IsChar c) :
    (∃ a, c = [a] ∧ a < 0x80) ∨ ∀ b ∈ c, 0x80 ≤ b := by
  match c, h with
  | [a], h => exact .inl ⟨a, rfl, h⟩
  | a :: b :: t, h =>
      right
      have hlead : 0x80 ≤ a := by
        have : ¬ a < 0x80 := fun hlt => absurd (h.eq_of_lt hlt) (by simp)
        grind
      intro x hx
      rcases List.mem_cons.mp hx with rfl | hx
      · exact hlead
      · have := h.cons.2 x hx
        simp only [isCont, Bool.and_eq_true, decide_eq_true_eq] at this
        exact this.1

theorem Valid.append {a b : List UInt8} (ha : Valid a) (hb : Valid b) : Valid (a ++ b) := by
  induction ha with
  | nil => exact hb
  | cons hc _ ih =>
      rw [List.append_assoc]
      exact .cons hc ih

theorem Valid.of_ascii {bs : List UInt8} (h : ∀ b ∈ bs, b < 0x80) : Valid bs := by
  induction bs with
  | nil => exact .nil
  | cons b rest ih =>
      exact .cons (c := [b]) (h b List.mem_cons_self) (ih fun x hx => h x (List.mem_cons_of_mem b hx))

theorem Valid.startsChar {bs : List UInt8} (h : Valid bs) : StartsChar bs := by
  cases h with
  | nil => simp [StartsChar]
  | @cons c _ hc _ =>
      cases c with
      | nil => exact absurd rfl hc.ne_nil
      | cons a t => simpa [StartsChar] using hc.cons.1

/-- **Cutting a valid text.**  Where the second part starts at a character, both parts
are valid. -/
theorem Valid.split {a b : List UInt8} (h : Valid (a ++ b)) (hb : StartsChar b) : Valid a ∧ Valid b := by
  generalize hab : a ++ b = l at h
  induction h generalizing a with
  | nil =>
      obtain ⟨rfl, rfl⟩ := List.append_eq_nil_iff.mp hab
      exact ⟨.nil, .nil⟩
  | @cons c rest hc hrest ih =>
      rcases List.append_eq_append_iff.mp hab with ⟨c', rfl, hrest'⟩ | ⟨a', rfl, rfl⟩
      · -- the cut falls inside the first character: only at its start or its end
        cases a with
        | nil => exact ⟨.nil, hrest' ▸ by simpa using Valid.cons hc hrest⟩
        | cons x xs =>
            cases c' with
            | nil => exact ⟨by simpa using Valid.cons hc .nil, by simpa using hrest'.symm ▸ hrest⟩
            | cons y ys =>
                have hy := hc.cons.2 y (by simp)
                have := hb y (by simp [hrest'])
                simp_all
      · obtain ⟨ha', hb'⟩ := ih rfl
        exact ⟨.cons hc ha', hb'⟩

/-- After an ASCII byte a valid text starts a character. -/
theorem Valid.startsChar_after {a b : List UInt8} {x : UInt8} (h : Valid (a ++ x :: b)) (hx : x < 0x80) :
    StartsChar b := by
  generalize hab : a ++ x :: b = l at h
  induction h generalizing a with
  | nil => simp at hab
  | @cons c rest hc hrest ih =>
      rcases List.append_eq_append_iff.mp hab with ⟨a', rfl, hrest'⟩ | ⟨c', rfl, hrest'⟩
      · cases a' with
        | nil => exact ih (a := []) (by simpa using hrest')
        | cons y ys =>
            obtain ⟨rfl, rfl⟩ := List.cons_eq_cons.mp hrest'
            cases a with
            | nil =>
                rw [(show IsChar (x :: ys) by simpa using hc).eq_of_lt hx]
                simpa using hrest.startsChar
            | cons z zs =>
                have := hc.cons.2 x (by simp)
                rw [not_isCont_of_lt hx] at this
                cases this
      · exact ih hrest'.symm

theorem not_lt_of_charWidth {a : UInt8} (h : 2 ≤ charWidth a) : ¬ a < 0x80 := by
  have := lead_of_charWidth h
  grind

/-! ### The validator accepts the grammar -/

theorem validate_of_valid {bs : List UInt8} (h : Valid bs) : ∀ off, validate off bs = none := by
  induction h with
  | nil => intro off; rfl
  | @cons c rest hc _ ih =>
      intro off
      match c, hc with
      | [a], (ha : a < 0x80) => simp [validate, ha, ih]
      | [a, b], ⟨hw, hb⟩ => simp [validate, not_lt_of_charWidth (a := a) (by omega), hw, hb, ih]
      | [a, b, c], ⟨hw, hb, hc⟩ => simp [validate, not_lt_of_charWidth (a := a) (by omega), hw, hb, hc, ih]
      | [a, b, c, d], ⟨hw, hb, hc, hd⟩ =>
          simp [validate, not_lt_of_charWidth (a := a) (by omega), hw, hb, hc, hd, ih]

theorem valid_of_validate {off : Nat} {bs : List UInt8} (h : validate off bs = none) : Valid bs := by
  fun_induction validate off bs with
  | case1 => exact .nil
  | case2 _ b rest hb ih => exact .cons (c := [b]) hb (ih h)
  | case4 _ b _ hw c rest hc ih => exact .cons (c := [b, c]) ⟨hw, hc⟩ (ih h)
  | case11 _ b _ hw c d rest hc hd ih =>
      exact .cons (c := [b, c, d]) ⟨hw, by simpa using hc, by simpa using hd⟩ (ih h)
  | case21 _ b _ hw c d e rest hc hd he ih =>
      exact .cons (c := [b, c, d, e]) ⟨hw, by simpa using hc, by simpa using hd, by simpa using he⟩ (ih h)
  | _ => nomatch h

/-- `str::from_utf8` succeeds exactly on the texts of the grammar. -/
theorem validate_eq_none_iff {off : Nat} {bs : List UInt8} : validate off bs = none ↔ Valid bs :=
  ⟨valid_of_validate, fun h => validate_of_valid h off⟩

/-! ### Where characters start -/

theorem startsChar_drop_of_lt {bs : List UInt8} {i : Nat} {x : UInt8} (hx : bs[i]? = some x) (hlt : x < 0x80) :
    StartsChar (bs.drop i) := by
  intro b hb
  rw [List.head?_drop, hx, Option.mem_some_iff] at hb
  exact hb ▸ not_isCont_of_lt hlt

theorem startsChar_drop_length (bs : List UInt8) : StartsChar (bs.drop bs.length) := by
  simp [StartsChar]

/-- A valid text cut where a character starts. -/
theorem Valid.take_drop {bs : List UInt8} {i : Nat} (h : Valid bs) (hi : StartsChar (bs.drop i)) :
    Valid (bs.take i) ∧ Valid (bs.drop i) :=
  Valid.split (by rwa [List.take_append_drop]) hi

/-- In a valid text, the byte after an ASCII byte starts a character. -/
theorem startsChar_of_ascii_before {bs : List UInt8} {i : Nat} {x : UInt8} (h : Valid bs)
    (hx : bs[i]? = some x) (hlt : x < 0x80) : StartsChar (bs.drop (i + 1)) := by
  have hi : i < bs.length := (List.getElem?_eq_some_iff.mp hx).1
  have hsplit : bs = bs.take i ++ x :: bs.drop (i + 1) := by
    conv_lhs => rw [← List.take_append_drop i bs, List.drop_eq_getElem_cons hi]
    rw [(List.getElem?_eq_some_iff.mp hx).2]
  exact (hsplit ▸ h : Valid _).startsChar_after hlt

end Sophon.Utf8
