import PureCOS.Lib.Code

/-!
# PureL: texts and tokens

`lang/src/lexer.rs`.  A source text is the UTF-8 encoding of its characters; tokens are given by
byte offsets.  Rust refuses to cut a string where a byte continues a character.
-/

namespace PureCOS.PureL

/-- The bytes of a text. -/
def encode (text : List Char) : List UInt8 := text.flatMap String.utf8EncodeChar

/-- A byte that continues a character. -/
def isContinuation (b : UInt8) : Bool := 0x80 ≤ b && b < 0xC0

/-- `str::is_char_boundary` -/
def isCharBoundary (s : List UInt8) (i : Nat) : Bool :=
  match s[i]? with
  | some b => i == 0 || !isContinuation b
  | none => i == s.length

/-- `&s[start..end]` does not panic. -/
def sliceable (s : List UInt8) (start stop : Nat) : Bool :=
  start ≤ stop && stop ≤ s.length && isCharBoundary s start && isCharBoundary s stop

/-- The bytes from `start` up to `stop`. -/
def cut (s : List UInt8) (start stop : Nat) : List UInt8 := (s.drop start).take (stop - start)

inductive TokenKind where
  | eof
  | number
  | string
  | ident
  | «let»
  | «if»
  | «else»
  | «while»
  | «fun»
  | «return»
  | «true»
  | «false»
  | nil
  | print
  | and
  | or
  | not
  | «end»
  | «then»
  | «do»
  | plus
  | minus
  | star
  | slash
  | percent
  | eqEq
  | bangEq
  | lt
  | ltEq
  | gt
  | gtEq
  | assign
  | lParen
  | rParen
  | comma
  | newline
deriving DecidableEq

structure Token where
  kind : TokenKind
  start : Nat
  len : Nat

/-! ## Loops of the lexer -/

/-- `skip_spaces`: how many bytes are skipped; in a comment, everything up to a newline is. -/
def spaces : Bool → List UInt8 → Nat
  | _, [] => 0
  | false, c :: rest =>
    if c = ' '.toUInt8 ∨ c = '\t'.toUInt8 ∨ c = '\r'.toUInt8 then 1 + spaces false rest
    else if c = '#'.toUInt8 then 1 + spaces true rest
    else 0
  | true, c :: rest => if c = '\n'.toUInt8 then 0 else 1 + spaces true rest

def isDigit (c : UInt8) : Bool := '0'.toUInt8 ≤ c && c ≤ '9'.toUInt8

def isIdentStart (c : UInt8) : Bool :=
  'a'.toUInt8 ≤ c && c ≤ 'z'.toUInt8 || 'A'.toUInt8 ≤ c && c ≤ 'Z'.toUInt8 || c == '_'.toUInt8

def isIdentPart (c : UInt8) : Bool := isIdentStart c || isDigit c

/-- `string`: the length of the rest of a string behind its first quote. -/
def stringRest : List UInt8 → Nat
  | [] => 0
  | [_] => 1
  | c :: d :: rest =>
    if c = '"'.toUInt8 then 1
    else if c = '\\'.toUInt8 then 2 + stringRest rest
    else 1 + stringRest (d :: rest)

/-- The keywords of `ident`. -/
def keywords : List (String × TokenKind) :=
  [("let", .let), ("if", .if), ("else", .else), ("while", .while), ("fun", .fun),
    ("return", .return), ("true", .true), ("false", .false), ("nil", .nil), ("print", .print),
    ("and", .and), ("or", .or), ("not", .not), ("end", .end), ("then", .then), ("do", .do)]

/-- The kind of a word. -/
def wordKind (word : List UInt8) : TokenKind :=
  match keywords.find? fun k => encode k.1.toList == word with
  | some k => k.2
  | none => .ident

/-! ## Tokens -/

/-- Tokens that are longer if `=` follows. -/
def withEq (rest : List UInt8) (start : Nat) (longer shorter : TokenKind) : Token × Nat :=
  if rest.head? = some '='.toUInt8 then (⟨longer, start, 2⟩, start + 2)
    else (⟨shorter, start, 1⟩, start + 1)

/-- Tokens of one byte. -/
def single (c : UInt8) : Option TokenKind :=
  if c = '\n'.toUInt8 then some .newline
  else if c = '+'.toUInt8 then some .plus
  else if c = '-'.toUInt8 then some .minus
  else if c = '*'.toUInt8 then some .star
  else if c = '/'.toUInt8 then some .slash
  else if c = '%'.toUInt8 then some .percent
  else if c = '('.toUInt8 then some .lParen
  else if c = ')'.toUInt8 then some .rParen
  else if c = ','.toUInt8 then some .comma
  else none

/-- The token that starts with byte `c` at `start`, with the position behind it; `rest` follows. -/
def tokenFrom (c : UInt8) (rest : List UInt8) (start : Nat) : Token × Nat :=
  match single c with
  | some kind => (⟨kind, start, 1⟩, start + 1)
  | none =>
    if c = '='.toUInt8 then withEq rest start .eqEq .assign
    else if c = '!'.toUInt8 then withEq rest start .bangEq .not
    else if c = '<'.toUInt8 then withEq rest start .ltEq .lt
    else if c = '>'.toUInt8 then withEq rest start .gtEq .gt
    else if c = '"'.toUInt8 then
      let len := 1 + stringRest rest
      (⟨.string, start, len⟩, start + len)
    else if isDigit c then
      let len := 1 + (rest.takeWhile isDigit).length
      (⟨.number, start, len⟩, start + len)
    else if isIdentStart c then
      let len := 1 + (rest.takeWhile isIdentPart).length
      (⟨wordKind ((c :: rest).take len), start, len⟩, start + len)
    else
      (⟨.eof, start, 0⟩, start + 1)

/-- `next_token` at a position, with the position behind the token. -/
def nextToken (src : List UInt8) (pos : Nat) : Token × Nat :=
  let start := pos + spaces false (src.drop pos)
  match src.drop start with
  | [] => (⟨.eof, start, 0⟩, start)
  | c :: rest => tokenFrom c rest start

end PureCOS.PureL
