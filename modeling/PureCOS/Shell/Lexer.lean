import PureCOS.Lib.Bytes

/-!
# The lexer of the shell

`lex_next` of `programs/sh/main.c`.  A text is the bytes before its terminating zero, and a position
in it is the rest of the text from there on.  Words keep their quotes; they are taken away by the
expansion.

Loops over the text run on a counter that starts at its length, and every round consumes at least
one byte.
-/

namespace PureCOS.Shell

/-- A character of the source as a byte. -/
abbrev byte (c : Char) : Byte := BitVec.ofNat 8 c.toNat

def squote : Byte := 0x27
def dquote : Byte := 0x22
def backslash : Byte := 0x5C
def backquote : Byte := 0x60
def newline : Byte := 0x0A
def tab : Byte := 0x09

def isAlpha (c : Byte) : Bool :=
  decide (0x61 ≤ c.toNat ∧ c.toNat ≤ 0x7A ∨ 0x41 ≤ c.toNat ∧ c.toNat ≤ 0x5A)

def isAlnum (c : Byte) : Bool := isAlpha c || isDigit c

inductive TokenType
  | eof | word | newline | pipe | or | and | semi | dsemi | amp | lparen | rparen | less | great
  | dgreat | dless | lessand | greatand | lessgreat | ionumber
deriving DecidableEq

structure Token where
  type : TokenType
  text : Option (List Byte)
deriving DecidableEq

/-- `struct heredoc_wait`; `redirect` numbers the redirection whose body is read. -/
structure HeredocWait where
  redirect : Nat
  delimiter : List Byte
  stripTabs : Bool

/-- `struct lexer`, without the token that `peek` keeps. -/
structure Lexer where
  /-- The input from `position` on. -/
  rest : List Byte
  heredocs : List HeredocWait
  /-- The bodies given to redirections. -/
  bodies : List (Nat × List Byte)
  error : Option String

/-- `lex_error`: the first error is kept. -/
def lexError (lx : Lexer) (message : String) : Lexer :=
  match lx.error with
  | none => { lx with error := some message }
  | some _ => lx

/-! ## Here documents -/

/-- The lines of one body up to its delimiter, and the rest of the input. -/
def heredocBody (w : HeredocWait) : Nat → List Byte → List Byte → List Byte × List Byte
  | 0, s, body => (body, s)
  | _ + 1, [], body => (body, [])
  | n + 1, c :: s, body =>
    let line := (c :: s).takeWhile (· != newline)
    let after := ((c :: s).dropWhile (· != newline)).drop 1
    let line := if w.stripTabs then line.dropWhile (· == tab) else line
    if line = w.delimiter then (body, after) else heredocBody w n after (body ++ line ++ [newline])

/-- `read_heredoc_bodies`; the waiting list has the last one first. -/
def readHeredocBodies (lx : Lexer) : Lexer :=
  lx.heredocs.reverse.foldl
    (fun lx w =>
      match heredocBody w lx.rest.length lx.rest [] with
      | (body, rest) => { lx with rest := rest, bodies := lx.bodies ++ [(w.redirect, body)] })
    { lx with heredocs := [] }

/-! ## Words -/

def isOperatorStart (c : Byte) : Bool :=
  [byte '|', byte '&', byte ';', byte '(', byte ')', byte '<', byte '>'].contains c

/-- Characters that end a word. -/
def endsWord (c : Byte) : Bool := c == byte ' ' || c == tab || c == newline || isOperatorStart c

/-- Up to `stop`, which a backslash protects. -/
def escapedSpan (stop : Byte) : List Byte → List Byte × List Byte
  | [] => ([], [])
  | [c] => if c = stop then ([], [c]) else ([c], [])
  | c :: d :: s =>
    if c = stop then
      ([], c :: d :: s)
    else if c = backslash then
      match escapedSpan stop s with
      | (text, rest) => (c :: d :: text, rest)
    else
      match escapedSpan stop (d :: s) with
      | (text, rest) => (c :: text, rest)

/-- Loop of `lex_copy_dollar_paren`. -/
def dollarParenLoop : Nat → Int → List Byte → List Byte → List Byte × List Byte
  | 0, _, s, word => (word, s)
  | _ + 1, _, [], word => (word, [])
  | n + 1, depth, d :: s, word =>
    if d = squote then
      let inner := s.takeWhile (· != squote)
      match s.dropWhile (· != squote) with
      | [] => (word ++ d :: inner, [])
      | q :: s => dollarParenLoop n depth s (word ++ d :: inner ++ [q])
    else if d = dquote then
      match escapedSpan dquote s with
      | (inner, []) => (word ++ d :: inner, [])
      | (inner, q :: s) => dollarParenLoop n depth s (word ++ d :: inner ++ [q])
    else if d = backslash ∧ s ≠ [] then
      dollarParenLoop n depth s.tail (word ++ d :: s.take 1)
    else
      let depth := if d = byte '(' then depth + 1 else if d = byte ')' then depth - 1 else depth
      if depth = 0 then (word ++ [d], s) else dollarParenLoop n depth s (word ++ [d])

/-- `lex_copy_dollar_paren`; the text starts with the dollar sign. -/
def lexCopyDollarParen (s word : List Byte) : List Byte × List Byte :=
  dollarParenLoop s.length 0 s.tail (word ++ s.take 1)

/-- The loop of `lex_next` inside double quotes, up to the closing one. -/
def doubleQuoted : Nat → List Byte → List Byte → List Byte × List Byte
  | 0, s, word => (word, s)
  | _ + 1, [], word => (word, [])
  | n + 1, c :: s, word =>
    if c = dquote then
      (word, c :: s)
    else if c = backslash ∧ s ≠ [] then
      doubleQuoted n s.tail (word ++ c :: s.take 1)
    else if c = byte '$' ∧ s.head? = some (byte '(') then
      match lexCopyDollarParen (c :: s) word with
      | (word, s) => doubleQuoted n s word
    else if c = backquote then
      match escapedSpan backquote s with
      | (inner, s) => doubleQuoted n (s.drop 1) (word ++ c :: inner ++ s.take 1)
    else
      doubleQuoted n s (word ++ [c])

/-- What the word loop of `lex_next` ends with. -/
structure WordRun where
  text : List Byte
  allDigits : Bool
  rest : List Byte
  error : Option String

/-- The word loop of `lex_next`. -/
def lexWord : Nat → List Byte → List Byte → Bool → WordRun
  | 0, s, word, allDigits => ⟨word, allDigits, s, none⟩
  | _ + 1, [], word, allDigits => ⟨word, allDigits, [], none⟩
  | n + 1, c :: s, word, allDigits =>
    if endsWord c then
      ⟨word, allDigits, c :: s, none⟩
    else if c = backslash then
      if s.head? = some newline then
        lexWord n s.tail word false
      else
        lexWord n s.tail (word ++ c :: s.take 1) false
    else if c = squote then
      let inner := s.takeWhile (· != squote)
      match s.dropWhile (· != squote) with
      | [] => ⟨word ++ c :: inner, false, [], some "unterminated quote"⟩
      | q :: s => lexWord n s (word ++ c :: inner ++ [q]) false
    else if c = dquote then
      match doubleQuoted s.length s (word ++ [c]) with
      | (word, []) => ⟨word, false, [], some "unterminated quote"⟩
      | (word, q :: s) => lexWord n s (word ++ [q]) false
    else if c = backquote then
      match escapedSpan backquote s with
      | (inner, []) => ⟨word ++ c :: inner, false, [], some "unterminated backquote"⟩
      | (inner, q :: s) => lexWord n s (word ++ c :: inner ++ [q]) false
    else if c = byte '$' ∧ s.head? = some (byte '(') then
      match lexCopyDollarParen (c :: s) word with
      | (word, s) => lexWord n s word false
    else if c = byte '$' ∧ s.head? = some (byte '\x7b') then
      let inner := (c :: s).takeWhile (· != byte '\x7d')
      let after := (c :: s).dropWhile (· != byte '\x7d')
      lexWord n (after.drop 1) (word ++ inner ++ after.take 1) false
    else
      lexWord n s (word ++ [c]) (allDigits && isDigit c)

/-! ## Tokens -/

/-- Blanks, joined lines and comments before a token. -/
def skipBlanks : Nat → List Byte → List Byte
  | 0, s => s
  | _ + 1, [] => []
  | n + 1, c :: s =>
    if c = byte ' ' ∨ c = tab then
      skipBlanks n s
    else if c = backslash ∧ s.head? = some newline then
      skipBlanks n s.tail
    else if c = byte '#' then
      skipBlanks n (s.dropWhile (· != newline))
    else
      c :: s

/-- The operator that starts with `c` and its length, when `n` comes next. -/
def operatorToken (c : Byte) (n : Option Byte) : TokenType × Nat :=
  if c = byte '|' then
    if n = some (byte '|') then (.or, 2) else (.pipe, 1)
  else if c = byte '&' then
    if n = some (byte '&') then (.and, 2) else (.amp, 1)
  else if c = byte ';' then
    if n = some (byte ';') then (.dsemi, 2) else (.semi, 1)
  else if c = byte '(' then
    (.lparen, 1)
  else if c = byte ')' then
    (.rparen, 1)
  else if c = byte '<' then
    if n = some (byte '<') then (.dless, 2)
    else if n = some (byte '&') then (.lessand, 2)
    else if n = some (byte '>') then (.lessgreat, 2)
    else (.less, 1)
  else
    if n = some (byte '>') then (.dgreat, 2)
    else if n = some (byte '&') then (.greatand, 2)
    else (.great, 1)

def lexNext (lx : Lexer) : Lexer × Token :=
  match skipBlanks lx.rest.length lx.rest with
  | [] => ({ lx with rest := [] }, ⟨.eof, none⟩)
  | c :: s =>
    if c = newline then
      (readHeredocBodies { lx with rest := s }, ⟨.newline, none⟩)
    else if isOperatorStart c then
      match operatorToken c s.head? with
      | (type, length) => ({ lx with rest := (c :: s).drop length }, ⟨type, none⟩)
    else
      let run := lexWord (c :: s).length (c :: s) [] true
      let lx := { lx with rest := run.rest }
      let lx := match run.error with
        | none => lx
        | some message => lexError lx message
      let number :=
        run.allDigits && (run.rest.head? == some (byte '<') || run.rest.head? == some (byte '>'))
      (lx, ⟨if number then .ionumber else .word, some run.text⟩)

end PureCOS.Shell
