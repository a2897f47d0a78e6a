/-
SQL obfuscation of the agent's SQL logs (`flow_generator/protocol_logs/sql/sql_obfuscate.rs`).

`obfuscate` reads a statement once, a token at a time, with a peekable iterator over its
bytes; here the iterator is the index `pos` it stands at.  Until it meets something worth
hiding it writes nothing (`need_obfuscated` false): at the first operator, masking
keyword, `AS` or string with a digit, it copies the raw text read so far,
`input[..start]`, and from then on writes each token itself.  Literals after an operator
or `IN`, `VALUES`, `IS`, `LIKE`, `LIMIT`, `OFFSET` go out as one `?` per list
(`need_masked`, `already_masked`); other strings have their digit runs replaced by `?`;
the name after `AS` is dropped.

A turn of the loop is `obfuscateTurn`: `lex` is the `match ch` that reads one token, and
`onToken` what the rest of the body does with it.  Panics (slicing out of range) are
`none`, and so is the undefined behaviour of `from_utf8_unchecked` on bytes that are not
UTF-8, which the word arm calls on `input[start..end]`.  The loop runs on fuel; one more
than the length is enough, as every turn reads a byte.  `attempt_obfuscation` keeps the
results in an `lru::LruCache` keyed by a 64-bit hash of the statement.  The crate is not
part of the repository: the cache is a parameter (`ObfuscateCache`), of which `Sophon.Lru`
at `OBFUSCATE_CACHE_SIZE` is one instance (`lruCache`); the hash is a parameter too.

The enumerations keep the source's variant names: several of them (`By`, `From`, `In`,
`Show`, `Then`, `Using`, `Where`, `At`) are Lean keywords once written in lower case.
-/
import Sophon.Lib.Loop
import Sophon.Lib.Lru
import Sophon.Lib.Utf8
import Sophon.Agent.Bytes

namespace Sophon.Agent.Sql

/-- `QUESTION_MARK`, `b'?'`. -/
def QUESTION_MARK : UInt8 := 63

/-- `BLANK_SPACE`, `b' '`. -/
def BLANK_SPACE : UInt8 := 32

def MAX_KEYWORD_LENGTH : Nat := 9

/-- `OBFUSCATE_CACHE_SIZE`, the capacity of the cache `FlowMap` creates. -/
def OBFUSCATE_CACHE_SIZE : Nat := 8192

/-! ### Bytes -/

/-- `u8::is_ascii_digit`. -/
def isAsciiDigit (b : UInt8) : Bool := 48 ≤ b && b ≤ 57

/-- `u8::is_ascii_alphanumeric`. -/
def isAsciiAlphanumeric (b : UInt8) : Bool :=
  isAsciiDigit b || (65 ≤ b && b ≤ 90) || (97 ≤ b && b ≤ 122)

/-- The bytes that start a word: `b'a'..=b'z' | b'A'..=b'Z' | b'0'..=b'9' | b'_' | b'$'`. -/
def isWordStart (b : UInt8) : Bool := isAsciiAlphanumeric b || b == 95 || b == 36

/-- The bytes a word goes on with: also `b'.'` and `b'*'`. -/
def isWordByte (b : UInt8) : Bool :=
  isAsciiAlphanumeric b || b == 95 || b == 46 || b == 36 || b == 42

/-- `str::from_utf8_unchecked(bs).to_uppercase()`: undefined behaviour, `none`, on bytes
that are not UTF-8.  Of a valid text the ASCII letters are mapped, and the upper case of
other characters is left out: it decides no keyword, as the word arm looks up ASCII
words, and, right after the name that follows `AS`, texts that begin with that name's
quote or comment mark, which no keyword begins with. -/
def toUppercase (bs : List UInt8) : Option (List UInt8) :=
  if Utf8.validate 0 bs = none then some (bs.map fun b => if 97 ≤ b ∧ b ≤ 122 then b - 32 else b)
  else none

/-- `has_digits`. -/
def hasDigits (buffer : List UInt8) : Bool := buffer.any isAsciiDigit

/-- The loop of `replace_digits` from the state `scanning_digit`: the first digit of a
run becomes `?`, the others go. -/
def replaceDigitsFrom : Bool → List UInt8 → List UInt8
  | _, [] => []
  | scanning, ch :: rest =>
      if isAsciiDigit ch then
        if scanning then replaceDigitsFrom true rest
        else QUESTION_MARK :: replaceDigitsFrom true rest
      else ch :: replaceDigitsFrom false rest

/-- `replace_digits`. -/
def replaceDigits (buffer : List UInt8) : List UInt8 := replaceDigitsFrom false buffer

/-! ### Tokens -/

inductive Operator
  | ColonCast | Ge | Gt | Le | Lt | Ne | Regex
  | At | Caret | Colon | Dash | Dot | Equals | ExclamationMark | LeftCurlyBrace
  | LeftSquareBracket | Percent | Pipe | Plus | PoundSign | RightCurlyBrace
  | RightSquareBracket | Slash | Star | Tilde
  | JsonSelect | JsonSelectText | JsonSelectPath | JsonSelectPathText | JsonContains
  | JsonContainsLeft | JsonKeyExists | JsonAnyKeysExist | JsonAllKeysExist | JsonDelete
  deriving DecidableEq, Repr

/-- `Operator::as_bytes`. -/
def Operator.asBytes : Operator → List UInt8
  | .ColonCast => asciiBytes "::".toList
  | .Ne => asciiBytes "<>".toList
  | .Lt => asciiBytes "<".toList
  | .Gt => asciiBytes ">".toList
  | .Le => asciiBytes "<=".toList
  | .Ge => asciiBytes ">=".toList
  | .Regex => asciiBytes "~*".toList
  | .Dash => asciiBytes "-".toList
  | .ExclamationMark => asciiBytes "!".toList
  | .Plus => asciiBytes "+".toList
  | .PoundSign => asciiBytes "#".toList
  | .Slash => asciiBytes "/".toList
  | .Star => asciiBytes "*".toList
  | .Equals => asciiBytes "=".toList
  | .LeftSquareBracket => asciiBytes "[".toList
  | .RightSquareBracket => asciiBytes "]".toList
  | .Colon => asciiBytes ":".toList
  | .Caret => asciiBytes "^".toList
  | .Percent => asciiBytes "%".toList
  | .Pipe => asciiBytes "|".toList
  | .Tilde => asciiBytes "~".toList
  | .At => asciiBytes "@".toList
  | .LeftCurlyBrace => asciiBytes "\x7b".toList
  | .RightCurlyBrace => asciiBytes "\x7d".toList
  | .Dot => asciiBytes ".".toList
  | .JsonSelect => asciiBytes "->".toList
  | .JsonSelectText => asciiBytes "->>".toList
  | .JsonSelectPath => asciiBytes "#>".toList
  | .JsonSelectPathText => asciiBytes "#>>".toList
  | .JsonContains => asciiBytes "@>".toList
  | .JsonContainsLeft => asciiBytes "<@".toList
  | .JsonKeyExists => asciiBytes "?".toList
  | .JsonAnyKeysExist => asciiBytes "?|".toList
  | .JsonAllKeysExist => asciiBytes "?&".toList
  | .JsonDelete => asciiBytes "#-".toList

inductive Keyword
  | Alter | And | As | Begin | BooleanLiteralFalse | BooleanLiteralTrue | By | Commit
  | Create | Cross | Delete | Drop | False | From | Full | Grant | In | Inner | Insert
  | Into | Is | Join | Left | Like | Limit | Matched | Merge | Not | Offset | On | Or
  | Over | Output | Revoke | Right | Savepoint | Select | Set | Show | Then | Truncate
  | True | Union | Update | Use | Using | Values | Where | When
  deriving DecidableEq, Repr

/-- `Keyword::as_bytes`. -/
def Keyword.asBytes : Keyword → List UInt8
  | .Alter => asciiBytes "ALTER".toList
  | .And => asciiBytes "AND".toList
  | .As => asciiBytes "AS".toList
  | .Begin => asciiBytes "BEGIN".toList
  | .BooleanLiteralFalse => asciiBytes "FALSE".toList
  | .BooleanLiteralTrue => asciiBytes "TRUE".toList
  | .By => asciiBytes "BY".toList
  | .Commit => asciiBytes "COMMIT".toList
  | .Create => asciiBytes "CREATE".toList
  | .Cross => asciiBytes "CROSS".toList
  | .Delete => asciiBytes "DELETE".toList
  | .Drop => asciiBytes "DROP".toList
  | .False => asciiBytes "FALSE".toList
  | .From => asciiBytes "FROM".toList
  | .Full => asciiBytes "FULL".toList
  | .Grant => asciiBytes "GRANT".toList
  | .In => asciiBytes "IN".toList
  | .Inner => asciiBytes "INNER".toList
  | .Insert => asciiBytes "INSERT".toList
  | .Into => asciiBytes "INTO".toList
  | .Is => asciiBytes "IS".toList
  | .Join => asciiBytes "JOIN".toList
  | .Left => asciiBytes "LEFT".toList
  | .Like => asciiBytes "LIKE".toList
  | .Limit => asciiBytes "LIMIT".toList
  | .Matched => asciiBytes "MATCHED".toList
  | .Merge => asciiBytes "MERGE".toList
  | .Not => asciiBytes "NOT".toList
  | .Offset => asciiBytes "OFFSET".toList
  | .On => asciiBytes "ON".toList
  | .Or => asciiBytes "OR".toList
  | .Over => asciiBytes "OVER".toList
  | .Output => asciiBytes "OUTPUT".toList
  | .Revoke => asciiBytes "REVOKE".toList
  | .Right => asciiBytes "RIGHT".toList
  | .Savepoint => asciiBytes "SAVEPOINT".toList
  | .Select => asciiBytes "SELECT".toList
  | .Set => asciiBytes "SET".toList
  | .Show => asciiBytes "SHOW".toList
  | .Then => asciiBytes "THEN".toList
  | .Truncate => asciiBytes "TRUNCATE".toList
  | .True => asciiBytes "TRUE".toList
  | .Union => asciiBytes "UNION".toList
  | .Update => asciiBytes "UPDATE".toList
  | .Use => asciiBytes "USE".toList
  | .Using => asciiBytes "USING".toList
  | .Values => asciiBytes "VALUES".toList
  | .Where => asciiBytes "WHERE".toList
  | .When => asciiBytes "WHEN".toList

/-- The keywords in the order `KEYWORDS` inserts them. -/
def keywordTable : List Keyword :=
  [.Alter, .And, .As, .Begin, .BooleanLiteralFalse, .BooleanLiteralTrue, .By, .Commit, .Create,
    .Cross, .Delete, .Drop, .False, .From, .Full, .Grant, .In, .Inner, .Insert, .Into, .Is,
    .Join, .Left, .Like, .Limit, .Matched, .Merge, .Not, .Offset, .On, .Or, .Over, .Output,
    .Revoke, .Right, .Savepoint, .Select, .Set, .Show, .Then, .Truncate, .True, .Union,
    .Update, .Use, .Using, .Values, .Where, .When]

/-- `Keyword::try_from`: the `KEYWORDS` map, where a later insert of the same bytes
replaces an earlier one (`FALSE` is `False`, `TRUE` is `True`). -/
def Keyword.tryFrom (value : List UInt8) : Option Keyword :=
  keywordTable.foldl (fun found k => if k.asBytes = value then some k else found) none

inductive Token
  | Keyword (k : Keyword)
  /-- A string, a comment or a name, with the offset it ends at. -/
  | String (stop : Nat)
  | Separator (b : UInt8)
  | Operator (o : Operator)
  | Unknown
  deriving DecidableEq, Repr

def Token.isKeyword : Token → Bool
  | .Keyword _ => true
  | _ => false

def Token.isSeparator : Token → Bool
  | .Separator _ => true
  | _ => false

def Token.isOperator : Token → Bool
  | .Operator _ => true
  | _ => false

def Token.isUnknown : Token → Bool
  | .Unknown => true
  | _ => false

/-- The tokens after which literals are masked: every operator, and `IN`, `VALUES`, `IS`,
`LIKE`, `LIMIT` and `OFFSET`. -/
def Token.masks : Token → Bool
  | .Operator _ => true
  | .Keyword k => k == .In || k == .Values || k == .Is || k == .Like || k == .Limit || k == .Offset
  | _ => false

/-! ### The iterator -/

/-- `input[i..].starts_with(p)`. -/
def startsWith (input : List UInt8) (i : Nat) (p : List UInt8) : Bool := p.isPrefixOf (input.drop i)

/-- `forward(iteration, n)`: `n` bytes on, or to the end. -/
def forward (input : List UInt8) (pos n : Nat) : Nat := min (pos + n) input.length

/-- `while let Some(_) = iteration.next_if(p) {}`. -/
def skipWhile (p : UInt8 → Bool) (input : List UInt8) (pos : Nat) : Nat :=
  pos + ((input.drop pos).takeWhile p).length

/-- `iteration.peek().map(|(idx, _)| *idx).unwrap_or(length)`. -/
def peekIndex (input : List UInt8) (pos : Nat) : Nat := if pos < input.length then pos else input.length

/-- `scan_quoted_string`: the end offset and the position after the closing quote. -/
def scanQuotedString (input : List UInt8) (pos : Nat) : Nat × Nat :=
  let pos := forward input pos 1
  let pos := skipWhile (fun ch => ch != 34 && ch != 39) input pos
  let pos := forward input pos 1
  (peekIndex input pos, pos)

/-- `scan_single_line_comment`: the offset of the `'\n'` (or the length), and the
position after it. -/
def scanSingleLineComment (input : List UInt8) (pos : Nat) : Nat × Nat :=
  let pos := forward input pos 2
  let pos := skipWhile (fun ch => ch != 10) input pos
  let off := peekIndex input pos
  (off, forward input pos 1)

/-- `scan_multiline_comment`.  The closure sets `last_char_is_star` from the byte it is
asked about before it tests it, so the test never stops the loop. -/
def scanMultilineComment (input : List UInt8) (pos : Nat) : Nat × Nat :=
  let pos := forward input pos 2
  let pos := skipWhile (fun ch => let lastCharIsStar := ch == 42; !lastCharIsStar || ch != 47) input pos
  let pos := forward input pos 1
  (peekIndex input pos, pos)

/-- What one arm of the `match ch` gives. -/
inductive Lexeme
  /-- `b' '`. -/
  | space
  /-- A byte of no token. -/
  | other
  /-- A token, and where the iterator stands after it. -/
  | token (t : Token) (pos : Nat)
  deriving DecidableEq, Repr

/-- `forward(&mut iteration, n); Token::Operator(o)`. -/
def opToken (input : List UInt8) (i n : Nat) (o : Operator) : Lexeme :=
  .token (.Operator o) (forward input i n)

/-- `Token::String(end)` from a scan. -/
def stringToken (scan : Nat × Nat) : Lexeme := .token (.String scan.1) scan.2

/-- The word arm: a keyword when it is short and in the table, else a string.  The word is
measured and looked up from `start`, which is the word's first byte except right after
the name that follows `AS`. -/
def lexWord (input : List UInt8) (start i : Nat) : Option Lexeme :=
  let pos := skipWhile isWordByte input i
  let stop := peekIndex input pos
  -- `end - start` in `usize`
  if (stop + 2 ^ 64 - start) % 2 ^ 64 > MAX_KEYWORD_LENGTH then some (.token (.String stop) pos)
  else
    (sliceRange input start stop).bind fun word =>
      (toUppercase word).map fun upper =>
        match Keyword.tryFrom upper with
        | some v => .token (.Keyword v) pos
        | none => .token (.String stop) pos

/-- The `match ch` of `obfuscate`, for the byte `ch` at `i`. -/
def lex (input : List UInt8) (start i : Nat) (ch : UInt8) : Option Lexeme :=
  let starts (p : String) := startsWith input i (asciiBytes p.toList)
  match ch with
  | 47 =>  -- b'/'
    if starts "//" then some (stringToken (scanSingleLineComment input i))
    else if starts "/*" then some (stringToken (scanMultilineComment input i))
    else some (opToken input i 1 .Slash)
  | 45 =>  -- b'-'
    if starts "->>" then some (opToken input i 3 .JsonSelectText)
    else if starts "--" then some (stringToken (scanSingleLineComment input i))
    else if starts "->" then some (opToken input i 2 .JsonSelect)
    else some (opToken input i 1 .Dash)
  | 35 =>  -- b'#'
    if starts "#>>" then some (opToken input i 3 .JsonSelectPathText)
    else if starts "#>" then some (opToken input i 2 .JsonSelectPath)
    else if starts "#-" then some (opToken input i 2 .JsonDelete)
    else some (opToken input i 1 .PoundSign)
  | 63 =>  -- b'?'
    if starts "?|" then some (opToken input i 2 .JsonAnyKeysExist)
    else if starts "?&" then some (opToken input i 2 .JsonAllKeysExist)
    else some (opToken input i 1 .JsonKeyExists)
  | 58 =>  -- b':'
    if starts "::" then some (opToken input i 2 .ColonCast)
    else some (opToken input i 1 .Colon)
  | 126 =>  -- b'~'
    if starts "~*" then some (opToken input i 2 .Regex)
    else some (opToken input i 1 .Tilde)
  | 34 | 39 => some (stringToken (scanQuotedString input i))  -- b'"' | b'\''
  | 60 =>  -- b'<'
    if starts "<=" then some (opToken input i 2 .Le)
    else if starts "<>" then some (opToken input i 2 .Ne)
    else if starts "<@" then some (opToken input i 2 .JsonContainsLeft)
    else some (opToken input i 1 .Lt)
  | 33 =>  -- b'!'
    if starts "!~*" then some (opToken input i 3 .Ne)
    else if starts "!=" then some (opToken input i 2 .Ne)
    else some (opToken input i 1 .ExclamationMark)
  | 64 =>  -- b'@'
    if starts "@>" then some (opToken input i 2 .JsonContains)
    else some (opToken input i 1 .At)
  | 62 =>  -- b'>'
    if starts ">=" then some (opToken input i 2 .Ge)
    else some (opToken input i 1 .Gt)
  -- b';' | b',' | b'(' | b')' | b'\n'
  | 59 | 44 | 40 | 41 | 10 => some (.token (.Separator ch) (forward input i 1))
  | 43 => some (opToken input i 1 .Plus)  -- b'+'
  | 42 => some (opToken input i 1 .Star)  -- b'*'
  | 61 => some (opToken input i 1 .Equals)  -- b'='
  | 91 => some (opToken input i 1 .LeftSquareBracket)  -- b'['
  | 93 => some (opToken input i 1 .RightSquareBracket)  -- b']'
  | 94 => some (opToken input i 1 .Caret)  -- b'^'
  | 37 => some (opToken input i 1 .Percent)  -- b'%'
  | 124 => some (opToken input i 1 .Pipe)  -- b'|'
  | 123 => some (opToken input i 1 .LeftCurlyBrace)  -- b'\x7b'
  | 125 => some (opToken input i 1 .RightCurlyBrace)  -- b'\x7d'
  | 46 => some (opToken input i 1 .Dot)  -- b'.'
  | 32 => some .space  -- b' '
  -- b'a'..=b'z' | b'A'..=b'Z' | b'0'..=b'9' | b'_' | b'$', then every other byte
  | _ => if isWordStart ch then lexWord input start i else some .other

/-! ### The loop -/

/-- The locals of `obfuscate`'s loop. -/
structure ObfuscateState where
  /-- Where the iterator stands. -/
  pos : Nat
  output : List UInt8
  lastToken : Token
  lastKeywordIsSet : Bool
  needObfuscated : Bool
  needMasked : Bool
  alreadyMasked : Bool
  start : Nat
  deriving DecidableEq, Repr

/-- The end of the loop body: `last_token = token; start = ...`. -/
def finish (input : List UInt8) (token : Token) (st : ObfuscateState) : ObfuscateState :=
  { st with lastToken := token, start := peekIndex input st.pos }

/-- The `Token::String(end)` arm, but for the name after `AS`. -/
def emitString (input : List UInt8) (st : ObfuscateState) (stop : Nat) : Option ObfuscateState :=
  let output :=
    if !st.lastToken.isUnknown && !st.lastToken.isSeparator && st.needObfuscated then
      st.output ++ [BLANK_SPACE]
    else st.output
  if st.needMasked && !st.alreadyMasked then
    some { st with alreadyMasked := true,
                   output := if st.needObfuscated then output ++ [QUESTION_MARK] else output }
  else if !st.needMasked then
    -- both `has_digits` and `replace_digits` read `input[start..end]`
    (sliceRange input st.start stop).bind fun literal =>
      if !st.needObfuscated && hasDigits literal then
        (sliceRange input 0 st.start).map fun pre =>
          { st with output := output ++ pre ++ replaceDigits literal, needObfuscated := true }
      else
        some { st with output := if st.needObfuscated then output ++ replaceDigits literal else output }
  else some { st with output }

/-- The `Token::Separator(s)` arm; `ch` is the byte the turn peeked. -/
def emitSeparator (ch : UInt8) (st : ObfuscateState) (s : UInt8) : ObfuscateState :=
  let output :=
    if st.lastToken.isKeyword && st.needObfuscated then st.output ++ [BLANK_SPACE] else st.output
  -- `)` and `;` close a masked list, and so does `,` after `SET`
  let unmask := st.needMasked && ((ch == 41 || ch == 59) || (st.lastKeywordIsSet && ch == 44))
  let needMasked := if unmask then false else st.needMasked
  let alreadyMasked := if unmask then false else st.alreadyMasked
  { st with needMasked, alreadyMasked,
            output := if (!needMasked || !alreadyMasked) && st.needObfuscated then output ++ [s]
              else output }

/-- The `Token::Keyword(k)` arm for a keyword other than `AS`. -/
def emitKeyword (st : ObfuscateState) (k : Keyword) : ObfuscateState :=
  let st :=
    if k = .Set then { st with lastKeywordIsSet := true }
    else if k ≠ .Values ∧ k ≠ .In ∧ k ≠ .Is ∧ k ≠ .Like ∧ k ≠ .Limit ∧ k ≠ .Offset then
      { st with needMasked := false, alreadyMasked := false, lastKeywordIsSet := false }
    else { st with lastKeywordIsSet := false }
  let output :=
    if !st.lastToken.isUnknown && st.needObfuscated then st.output ++ [BLANK_SPACE] else st.output
  { st with output := if st.needObfuscated then output ++ k.asBytes else output }

/-- The `Token::Operator(o)` arm. -/
def emitOperator (st : ObfuscateState) (o : Operator) : ObfuscateState :=
  if st.needObfuscated then
    let output :=
      if !st.lastToken.isOperator && !st.lastToken.isSeparator then st.output ++ [BLANK_SPACE]
      else st.output
    { st with output := output ++ o.asBytes }
  else st

/-- The `match token` that ends the loop body. -/
def emit (input : List UInt8) (ch : UInt8) (st : ObfuscateState) (token : Token) :
    Option ObfuscateState :=
  match token with
  | .String stop =>
      -- the name after `AS` is dropped, and `start` stays where it was
      if st.lastToken = .Keyword .As then some { st with lastToken := token }
      else (emitString input st stop).map (finish input token)
  | .Separator s => some (finish input token (emitSeparator ch st s))
  | .Keyword k =>
      if k = .As then some { st with lastToken := token, start := peekIndex input st.pos }
      else some (finish input token (emitKeyword st k))
  | .Operator o => some (finish input token (emitOperator st o))
  | .Unknown => some (finish input token st)

/-- The loop body after the `match ch`, for a token; `st.pos` is already past it. -/
def onToken (input : List UInt8) (ch : UInt8) (st : ObfuscateState) (token : Token) :
    Option ObfuscateState :=
  if token.masks then
    let st := { st with needMasked := true, alreadyMasked := false }
    if !st.needObfuscated then
      let start := peekIndex input st.pos
      (sliceRange input 0 start).map fun pre =>
        { st with start, output := st.output ++ pre, needObfuscated := true, lastToken := token }
    else emit input ch st token
  else if token = .Keyword .As ∧ !st.needObfuscated then
    (sliceRange input 0 st.start).map fun pre =>
      { st with output := st.output ++ pre, needObfuscated := true,
                start := peekIndex input st.pos, lastToken := token }
  else emit input ch st token

/-- One turn of `while let Some(&(i, ch)) = iteration.peek()`: the output when the input
is used up, `none` on a panic, else the next state. -/
def obfuscateTurn (input : List UInt8) (st : ObfuscateState) : Option (List UInt8) ⊕ ObfuscateState :=
  match input[st.pos]? with
  | none => .inl (some st.output)
  | some ch =>
      match lex input st.start st.pos ch with
      | none => .inl none
      | some .space =>
          let pos := forward input st.pos 1
          .inr { st with pos, start := peekIndex input pos }
      | some .other =>
          let pos := forward input st.pos 1
          .inr { st with output := if st.needObfuscated then st.output ++ [ch] else st.output,
                         pos, start := peekIndex input pos }
      | some (.token token pos) =>
          match onToken input ch { st with pos } token with
          | none => .inl none
          | some st => .inr st

/-- The state `obfuscate` starts from. -/
def ObfuscateState.init : ObfuscateState :=
  { pos := 0, output := [], lastToken := .Unknown, lastKeywordIsSet := false,
    needObfuscated := false, needMasked := false, alreadyMasked := false, start := 0 }

/-- `obfuscate`; `none` is a panic or the fuel running out. -/
def obfuscate (input : List UInt8) : Option (List UInt8) :=
  Loop.whileFuel (obfuscateTurn input) none (input.length + 1) .init

/-! ### The cache -/

/-- What `attempt_obfuscation` calls of its `LruCache<u64, Vec<u8>>`, on a cache state
`C`: `get`, which hands back the value of a key and may reorder the entries, and `put`. -/
structure ObfuscateCache (C : Type) where
  get : C → UInt64 → Option (List UInt8) × C
  put : C → UInt64 → List UInt8 → C

/-- `LruCache::new(OBFUSCATE_CACHE_SIZE)` as the abstract LRU map: `get` makes the key
the most recent, `put` adds it, dropping the least recent entry when full. -/
def lruCache : ObfuscateCache (List (UInt64 × List UInt8)) :=
  ⟨fun cache key => Lru.get false key cache, fun cache key value => Lru.add OBFUSCATE_CACHE_SIZE key value cache⟩

/-- `attempt_obfuscation`: the result, or `none` without a cache or for an empty output,
with the cache after the call.  The outer `none` is a panic or undefined behaviour. -/
def attemptObfuscation {C : Type} (ops : ObfuscateCache C) (hash : List UInt8 → UInt64)
    (obfuscateCache : Option C) (input : List UInt8) : Option (Option (List UInt8) × Option C) :=
  match obfuscateCache with
  | none => some (none, none)
  | some cache =>
      let key := hash input
      match ops.get cache key with
      | (some s, cache) => some (some s, some cache)
      | (none, cache) =>
          (obfuscate input).map fun output =>
            if !output.isEmpty then (some output, some (ops.put cache key output))
            else (none, some cache)

end Sophon.Agent.Sql
