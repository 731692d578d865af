import Mathlib.Algebra.Group.Int.Defs
import Mathlib.Algebra.Group.Nat.Defs
import PureCOS.PureL.Ast

/-!
# PureL: the parser

`lang/src/parser.rs`: recursive descent with one token of lookahead.  The parser keeps on after an
error in many places; the first error is the one that is reported.

`steps` is a record of what matters for whether the parser returns: the token at the start of each
round of the statement loop, and the string literals that it cuts.
-/

namespace PureCOS.PureL

open Code

/-- What the parser does that may go wrong. -/
inductive ParseStep where
  | round (kind : TokenKind)
  | literal (raw : List UInt8)
deriving DecidableEq

/-- `Parser`; `pos` is the position of its lexer. -/
structure Parser where
  pos : Nat
  cur : Token
  arena : Arena
  strings : Pool
  error : Option String
  steps : List ParseStep

/-- Code of the parser. -/
abbrev Parse := Code Parser

namespace Parser

/-- `Parser::new` -/
def new (src : List UInt8) : Parser where
  pos := (nextToken src 0).2
  cur := (nextToken src 0).1
  arena := []
  strings := []
  error := none
  steps := []

/-! ## Small steps -/

section Steps

variable (src : List UInt8)

def bump : Parse Unit :=
  modify fun p => { p with cur := (nextToken src p.pos).1, pos := (nextToken src p.pos).2 }

/-- The kind of the current token. -/
def kind : Parse TokenKind := do
  let p ← get
  pure p.cur.kind

def record (step : ParseStep) : Parse Unit := modify fun p => { p with steps := p.steps ++ [step] }

def fail (msg : String) : Parse NodeId := do
  modify fun p => { p with error := p.error <|> some msg }
  pure NIL

def expect (expected : TokenKind) (msg : String) : Parse Bool := do
  if (← kind) = expected then
    bump src
    pure true
  else
    let _ ← fail msg
    pure false

/-- `Token::slice` -/
def slice (token : Token) : Parse (List UInt8) := do
  require (sliceable src token.start (token.start + token.len))
  pure (cut src token.start (token.start + token.len))

def alloc (node : Node) : Parse (Option NodeId) :=
  zoom Parser.arena (fun arena p => { p with arena := arena }) (Arena.alloc node)

def getNode (id : NodeId) : Parse (Option Node) :=
  zoom Parser.arena (fun arena p => { p with arena := arena }) (Arena.get id)

def setListNext (id next : NodeId) : Parse Unit :=
  zoom Parser.arena (fun arena p => { p with arena := arena }) (Arena.setListNext id next)

def intern (s : List UInt8) : Parse (Option Nat) :=
  zoom Parser.strings (fun strings p => { p with strings := strings }) (Pool.intern s)

/-- `match self.arena.alloc(node) { Some(id) => id, None => self.fail("out of nodes") }` -/
def allocOrFail (node : Node) : Parse NodeId := do
  match ← alloc node with
  | some id => pure id
  | none => fail "out of nodes"

def internCur : Parse (Option Nat) := do
  let p ← get
  let text ← slice src p.cur
  intern text

def binopOf : TokenKind → Option (BinOp × Nat × Nat)
  | .or => some (.or, 1, 2)
  | .and => some (.and, 3, 4)
  | .eqEq => some (.eq, 5, 6)
  | .bangEq => some (.ne, 5, 6)
  | .lt => some (.lt, 7, 8)
  | .ltEq => some (.le, 7, 8)
  | .gt => some (.gt, 7, 8)
  | .gtEq => some (.ge, 7, 8)
  | .plus => some (.add, 9, 10)
  | .minus => some (.sub, 9, 10)
  | .star => some (.mul, 11, 12)
  | .slash => some (.div, 11, 12)
  | .percent => some (.mod, 11, 12)
  | _ => none

end Steps

/-! ## Arithmetic of `i64` -/

def i64Max : Int := 2 ^ 63 - 1
def i64Min : Int := -2 ^ 63

/-- The nearest `i64`. -/
def saturate (n : Int) : Int := max i64Min (min i64Max n)

/-- The loop over the digits of a number. -/
def digits : Int → List UInt8 → Parse Int
  | n, [] => pure n
  | n, b :: rest => do
    require ('0'.toUInt8 ≤ b)
    digits (saturate (saturate (n * 10) + (b - '0'.toUInt8).toNat)) rest

/-! ## Functions that call each other -/

/-- The functions and loops of the parser that call each other. -/
structure Calls where
  skipNl : Parse Unit
  stmt : Parse NodeId
  exprBp : Nat → Parse NodeId
  exprContinue : NodeId → Nat → Parse NodeId
  operand : Parse NodeId
  blockLoop : List TokenKind → NodeId → NodeId → Parse NodeId
  argLoop : NodeId → NodeId → Parse (Option NodeId)
  paramLoop : NodeId → NodeId → Parse (Option NodeId)
  programLoop : NodeId → NodeId → Parse NodeId

/-- No rounds are left. -/
def Calls.none : Calls where
  skipNl := pending
  stmt := pending
  exprBp := fun _ => pending
  exprContinue := fun _ _ => pending
  operand := pending
  blockLoop := fun _ _ _ => pending
  argLoop := fun _ _ => pending
  paramLoop := fun _ _ => pending
  programLoop := fun _ _ => pending

section Functions

variable (src : List UInt8) (calls : Calls)

def skipNl : Parse Unit := do
  if (← kind) = .newline then
    bump src
    calls.skipNl

/-- Appending a cell to a list of which `head` and `tail` are kept. -/
def link (head tail cell : NodeId) : Parse NodeId := do
  if head = NIL then
    pure cell
  else
    setListNext tail cell
    pure head

def parseExpr : Parse NodeId := calls.exprBp 0

/-- The loop of `parse_arg_list`; nothing if the function returns from it. -/
def argLoop (head tail : NodeId) : Parse (Option NodeId) := do
  let expr ← parseExpr calls
  match ← alloc (.list expr NIL) with
  | none =>
    let _ ← fail "out of nodes"
    pure none
  | some cell =>
    let head ← link head tail cell
    if (← kind) = .comma then
      bump src
      calls.argLoop head cell
    else
      pure (some head)

/-- The tokens before which an argument list is empty. -/
def endsArgs (kind : TokenKind) : Bool :=
  kind == .rParen || kind == .newline || kind == .eof || kind == .end || kind == .else

/-- `parse_arg_list` from behind the parenthesis on. -/
def argsFrom (hasParen : Bool) : Parse NodeId := do
  let head ← if endsArgs (← kind) then pure (some NIL) else calls.argLoop NIL NIL
  match head with
  | none => pure NIL
  | some head =>
    if hasParen then
      let _ ← expect src .rParen "expected ')'"
      pure head
    else
      pure head

def parseArgList (requireParen : Bool) : Parse NodeId := do
  if (← kind) = .lParen then
    bump src
    argsFrom src calls true
  else if requireParen then
    fail "expected '('"
  else
    argsFrom src calls false

def parseCallTail (name : Nat) : Parse NodeId := do
  let args ← parseArgList src calls true
  allocOrFail (.call name args)

def parseExprContinue (left : NodeId) (minBp : Nat) : Parse NodeId := do
  match binopOf (← kind) with
  | none => pure left
  | some (op, lBp, rBp) =>
    if lBp < minBp then
      pure left
    else
      bump src
      let right ← calls.exprBp rBp
      match ← alloc (.binary op left right) with
      | none => fail "out of nodes"
      | some left => calls.exprContinue left minBp

def parseExprBp (minBp : Nat) : Parse NodeId := do
  let left ← calls.operand
  if left = NIL then
    pure NIL
  else
    calls.exprContinue left minBp

/-- The branch of `parse_prefix` for string literals. -/
def parseLiteral : Parse NodeId := do
  let p ← get
  let raw ← slice src p.cur
  record (.literal raw)
  if 2 ≤ raw.length then
    require (sliceable raw 1 (raw.length - 1))
  let inner := if 2 ≤ raw.length then cut raw 1 (raw.length - 1) else []
  match ← intern inner with
  | none => fail "string pool full"
  | some id =>
    bump src
    allocOrFail (.string id)

/-- `parse_prefix` -/
def parseOperand : Parse NodeId := do
  match ← kind with
  | .number =>
    let p ← get
    let text ← slice src p.cur
    let n ← digits 0 text
    bump src
    allocOrFail (.number n)
  | .string => parseLiteral src
  | .true =>
    bump src
    allocOrFail (.bool true)
  | .false =>
    bump src
    allocOrFail (.bool false)
  | .nil =>
    bump src
    allocOrFail .nil
  | .ident =>
    match ← internCur src with
    | none => fail "string pool full"
    | some name =>
      bump src
      if (← kind) = .lParen then parseCallTail src calls name else allocOrFail (.var name)
  | .minus =>
    bump src
    let expr ← calls.operand
    allocOrFail (.unary .neg expr)
  | .not =>
    bump src
    let expr ← calls.operand
    allocOrFail (.unary .not expr)
  | .lParen =>
    bump src
    let e ← parseExpr calls
    let _ ← expect src .rParen "expected ')'"
    pure e
  | _ => fail "unexpected token in expression"

/-- The loop of `parse_block_until` and what follows it. -/
def blockLoop (stops : List TokenKind) (head tail : NodeId) : Parse NodeId := do
  calls.skipNl
  let k ← kind
  if k = .eof ∨ k ∈ stops then
    allocOrFail (.block head)
  else
    let stmt ← calls.stmt
    if stmt = NIL then
      allocOrFail (.block head)
    else
      match ← alloc (.list stmt NIL) with
      | none => fail "out of nodes"
      | some cell =>
        let head ← link head tail cell
        calls.blockLoop stops head cell

def parseBlockUntil (stops : List TokenKind) : Parse NodeId := calls.blockLoop stops NIL NIL

def parseLet : Parse NodeId := do
  bump src
  if (← kind) ≠ .ident then
    fail "expected name after let"
  else
    match ← internCur src with
    | none => fail "string pool full"
    | some name =>
      bump src
      if ← expect src .assign "expected '=' after let name" then
        let value ← parseExpr calls
        allocOrFail (.let name value)
      else
        pure NIL

def parsePrint : Parse NodeId := do
  bump src
  let args ← parseArgList src calls false
  allocOrFail (.print args)

def parseIf : Parse NodeId := do
  bump src
  let cond ← parseExpr calls
  let _ ← expect src .then "expected 'then'"
  calls.skipNl
  let thenBody ← parseBlockUntil calls [.else, .end]
  let elseBody ←
    if (← kind) = .else then do
      bump src
      calls.skipNl
      parseBlockUntil calls [.end]
    else
      pure NIL
  let _ ← expect src .end "expected 'end'"
  allocOrFail (.if cond thenBody elseBody)

def parseWhile : Parse NodeId := do
  bump src
  let cond ← parseExpr calls
  let _ ← expect src .do "expected 'do'"
  calls.skipNl
  let body ← parseBlockUntil calls [.end]
  let _ ← expect src .end "expected 'end'"
  allocOrFail (.while cond body)

/-- The loop over the parameters in `parse_fun`; nothing if the function returns from it. -/
def paramLoop (params tail : NodeId) : Parse (Option NodeId) := do
  if (← kind) ≠ .ident then
    let _ ← fail "expected parameter"
    pure none
  else
    match ← internCur src with
    | none =>
      let _ ← fail "string pool full"
      pure none
    | some pname =>
      bump src
      match ← alloc (.param pname) with
      | none =>
        let _ ← fail "out of nodes"
        pure none
      | some pnode =>
        match ← alloc (.list pnode NIL) with
        | none =>
          let _ ← fail "out of nodes"
          pure none
        | some cell =>
          let params ← link params tail cell
          if (← kind) = .comma then
            bump src
            calls.paramLoop params cell
          else
            pure (some params)

def parseFun : Parse NodeId := do
  bump src
  if (← kind) ≠ .ident then
    fail "expected function name"
  else
    match ← internCur src with
    | none => fail "string pool full"
    | some name =>
      bump src
      if ← expect src .lParen "expected '('" then
        let params ← if (← kind) ≠ .rParen then calls.paramLoop NIL NIL else pure (some NIL)
        match params with
        | none => pure NIL
        | some params =>
          if ← expect src .rParen "expected ')'" then
            calls.skipNl
            let body ← parseBlockUntil calls [.end]
            let _ ← expect src .end "expected 'end'"
            allocOrFail (.fun name params body)
          else
            pure NIL
      else
        pure NIL

/-- The tokens before which `return` has no value. -/
def endsReturn (kind : TokenKind) : Bool :=
  kind == .newline || kind == .eof || kind == .end || kind == .else

/-- The branch of `parse_stmt` for `return`. -/
def parseReturn : Parse NodeId := do
  bump src
  if endsReturn (← kind) then
    match ← alloc .nil with
    | none => fail "out of nodes"
    | some value => allocOrFail (.return value)
  else
    let value ← parseExpr calls
    allocOrFail (.return value)

/-- The branch of `parse_stmt` for names. -/
def parseNamed : Parse NodeId := do
  let p ← get
  bump src
  if (← kind) = .assign then
    bump src
    let text ← slice src p.cur
    match ← intern text with
    | none => fail "string pool full"
    | some name =>
      let value ← parseExpr calls
      allocOrFail (.assign name value)
  else
    let text ← slice src p.cur
    match ← intern text with
    | none => fail "string pool full"
    | some name =>
      match ← alloc (.var name) with
      | none => fail "out of nodes"
      | some var =>
        if (← kind) = .lParen then parseCallTail src calls name else calls.exprContinue var 0

def parseStmt : Parse NodeId := do
  calls.skipNl
  match ← kind with
  | .let => parseLet src calls
  | .if => parseIf src calls
  | .while => parseWhile src calls
  | .fun => parseFun src calls
  | .return => parseReturn src calls
  | .print => parsePrint src calls
  | .ident => parseNamed src calls
  | .eof => pure NIL
  | .end => pure NIL
  | .else => pure NIL
  | _ => parseExpr calls

/-- The loop of `parse_program` and what follows it. -/
def programLoop (head tail : NodeId) : Parse NodeId := do
  let p ← get
  if p.cur.kind ≠ .eof ∧ p.error = none then
    record (.round p.cur.kind)
    let stmt ← calls.stmt
    let p ← get
    if stmt = NIL ∧ p.error.isSome then
      allocOrFail (.block head)
    else if stmt = NIL then
      calls.skipNl
      calls.programLoop head tail
    else
      match ← alloc (.list stmt NIL) with
      | none => fail "out of nodes"
      | some cell =>
        let head ←
          if head = NIL then
            pure cell
          else do
            match ← getNode tail with
            | some (.list _ _) => setListNext tail cell
            | _ => pure ()
            pure head
        calls.skipNl
        calls.programLoop head cell
  else
    allocOrFail (.block head)

def parseProgram : Parse NodeId := do
  calls.skipNl
  calls.programLoop NIL NIL

end Functions

/-- One more round. -/
def Calls.next (src : List UInt8) (calls : Calls) : Calls where
  skipNl := Parser.skipNl src calls
  stmt := parseStmt src calls
  exprBp := parseExprBp calls
  exprContinue := parseExprContinue src calls
  operand := parseOperand src calls
  blockLoop := Parser.blockLoop calls
  argLoop := Parser.argLoop src calls
  paramLoop := Parser.paramLoop src calls
  programLoop := Parser.programLoop calls

/-- The functions with this many rounds. -/
def Calls.after (src : List UInt8) : Nat → Calls
  | 0 => .none
  | rounds + 1 => .next src (.after src rounds)

end Parser

/-- `Parser::new` and `parse_program` on a text. -/
def parse (text : List Char) (rounds : Nat) : Parser × Ending NodeId :=
  Parser.parseProgram (.after (encode text) rounds) (Parser.new (encode text))

end PureCOS.PureL
