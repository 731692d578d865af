import PureCOS.Shell.Lexer

/-!
# Word expansion of the shell

`expand_word` of `programs/sh/main.c`: a raw word becomes a list of cells, each a character with a
mark that says how it came about, and the cells are split into fields, which may be patterns for
file names.

The functions that call each other run on a counter; each call is on a shorter text than the one
before.  Commands, arithmetic and the file system are those of a host.
-/

namespace PureCOS.Shell

structure Variable where
  name : List Byte
  value : List Byte
  exported : Bool
  readonly : Bool

/-- The state of the shell that expansion reads and writes. -/
structure State where
  vars : List Variable
  lastStatus : Int
  lastBackground : Int
  shellPid : Int
  shellName : List Byte
  positional : List (List Byte)
  optErrexit : Bool
  optXtrace : Bool
  optNoglob : Bool
  optNounset : Bool
  interactive : Bool

/-- Ways in which an expansion does not return. -/
inductive Stop
  /-- `_exit` -/
  | exit (status : Nat)
  /-- A read behind the end of a text. -/
  | beyond
  /-- The counter has run out. -/
  | rounds

/-- A computation of the shell. -/
abbrev Run := ExceptT Stop (StateM State)

/-- What the expansion uses of the rest of the shell and of the system. -/
structure Host where
  /-- `command_substitute` -/
  commandSubstitute : List Byte → Run (List Byte)
  /-- `arith_eval` -/
  arithEval : State → List Byte → Int
  /-- `glob_walk` for a pattern, its results sorted -/
  glob : List Byte → List (List Byte)

/-! ## Parameters -/

/-- `%d` -/
def decimal (n : Int) : List Byte := (toString n).toList.map byte

def varGet (s : State) (name : List Byte) : Option (List Byte) :=
  (s.vars.find? fun v => v.name == name).map Variable.value

/-- `var_set` without export; a readonly variable stays. -/
def varSet (name value : List Byte) (s : State) : State :=
  match s.vars.findIdx? fun v => v.name == name with
  | some i =>
    { s with vars := s.vars.modify i fun v => if v.readonly then v else { v with value := value } }
  | none => { s with vars := s.vars ++ [⟨name, value, false, false⟩] }

def ifsName : List Byte := [byte 'I', byte 'F', byte 'S']

def homeName : List Byte := [byte 'H', byte 'O', byte 'M', byte 'E']

def specialParam (s : State) (name : Byte) : Option (List Byte) :=
  if name = byte '?' then some (decimal s.lastStatus)
  else if name = byte '$' then some (decimal s.shellPid)
  else if name = byte '!' then some (decimal s.lastBackground)
  else if name = byte '#' then some (decimal s.positional.length)
  else if name = byte '-' then
    some ((if s.optErrexit then [byte 'e'] else []) ++ (if s.optXtrace then [byte 'x'] else []) ++
      (if s.optNoglob then [byte 'f'] else []) ++ (if s.optNounset then [byte 'u'] else []) ++
      (if s.interactive then [byte 'i'] else []))
  else if name = byte '0' then some s.shellName
  else none

/-- `atoi` of a text that starts with a digit -/
def atoi (name : List Byte) : Int :=
  let value := (name.takeWhile isDigit).foldl (fun (v : Nat) c => v * 10 + (c.toNat - 0x30)) 0
  Int.bmod (min value (2 ^ 63 - 1) : Nat) (2 ^ 32)

def lookupParam (name : List Byte) : Run (Option (List Byte)) := do
  let s ← get
  let special := match name with
    | [c] => specialParam s c
    | _ => none
  match special with
  | some value => pure (some value)
  | none =>
    if (name.head?.map isDigit).getD false then
      let index := atoi name
      if index = 0 then pure (some s.shellName)
      else if index < 0 then throw .beyond
      else pure s.positional[(index - 1).toNat]?
    else
      pure (varGet s name)

/-! ## Patterns -/

/--
The list in `match_bracket`: what follows it, and whether `c` is in it.  `first` is true at its
first element.
-/
def bracketLoop (c : Byte) : Nat → List Byte → Bool → Bool → Option (List Byte × Bool)
  | 0, _, _, _ => none
  | _ + 1, [], _, _ => none
  | n + 1, p :: rest, first, matched =>
    if p = byte ']' ∧ !first then
      some (rest, matched)
    else
      let (lo, rest) := match rest with
        | q :: rest' => if p = backslash then (q, rest') else (p, rest)
        | [] => (p, rest)
      match rest with
      | dash :: hi :: rest' =>
        if dash = byte '-' ∧ hi ≠ byte ']' then
          bracketLoop c n rest' false (matched || (lo.toNat ≤ c.toNat && c.toNat ≤ hi.toNat))
        else
          bracketLoop c n rest false (matched || c == lo)
      | _ => bracketLoop c n rest false (matched || c == lo)

/-- `match_bracket` on the text behind the bracket -/
def matchBracket (pattern : List Byte) (c : Byte) : Option (List Byte × Bool) :=
  match pattern with
  | [] => none
  | p :: rest =>
    if p = byte '!' ∨ p = byte '^' then
      (bracketLoop c pattern.length rest true false).map fun r => (r.1, !r.2)
    else
      bracketLoop c pattern.length pattern true false

def matchPattern : Nat → List Byte → List Byte → Bool → Bool
  | 0, _, _, _ => false
  | _ + 1, [], text, _ => text == []
  | n + 1, p :: pattern, text, dotGuard =>
    if p = byte '*' then
      let pattern := pattern.dropWhile (· == byte '*')
      if dotGuard && text.head? == some (byte '.') then false
      else if pattern == [] then true
      else text.tails.any fun t => matchPattern n pattern t false
    else
      match text with
      | [] => false
      | t :: text =>
        if p = byte '?' then
          !(dotGuard && t == byte '.') && matchPattern n pattern text false
        else if p = byte '[' then
          match matchBracket pattern t with
          | none => t == byte '[' && matchPattern n pattern text false
          | some (after, hit) =>
            hit && !(dotGuard && t == byte '.') && matchPattern n after text false
        else if p = backslash ∧ pattern ≠ [] then
          pattern.head? == some t && matchPattern n pattern.tail text false
        else
          p == t && matchPattern n pattern text false

def stripAffix (value pattern : List Byte) (suffix longest : Bool) : List Byte :=
  let lengths := List.range (value.length + 1)
  let fits := fun text => matchPattern (pattern.length + 1) pattern text false
  if !suffix then
    match (if longest then lengths.reverse else lengths).find? fun i => fits (value.take i) with
    | some i => value.drop i
    | none => value
  else
    match (if longest then lengths else lengths.reverse).find? fun i => fits (value.drop i) with
    | some i => value.take i
    | none => value

/-! ## Cells -/

/-- The flags of a cell; at most one is ever set. -/
inductive CellFlag
  | plain | quoted | expanded | fieldBreak
deriving DecidableEq

structure Cell where
  c : Byte
  flag : CellFlag
deriving DecidableEq

def cellsPuts (out : List Cell) (text : List Byte) (flag : CellFlag) : List Cell :=
  out ++ text.map fun c => ⟨c, flag⟩

/-- `if (value) cells_puts(...)` -/
def cellsPutsValue (out : List Cell) (value : Option (List Byte)) (flag : CellFlag) : List Cell :=
  cellsPuts out (value.getD []) flag

/--
A text up to the end of a group that is `depth` levels open, what follows it, and how many levels
are left open.
-/
def groupSpan (opening closing : Byte) : Nat → List Byte → List Byte × List Byte × Nat
  | 0, s => ([], s, 0)
  | depth + 1, [] => ([], [], depth + 1)
  | depth + 1, c :: s =>
    match groupSpan opening closing (if c = opening then depth + 2 else if c = closing then depth
      else depth + 1) s with
    | (text, rest, left) => (c :: text, rest, left)

/-- The text inside a group that has been opened, and what follows it. -/
def groupText (opening closing : Byte) (s : List Byte) : List Byte × List Byte :=
  match groupSpan opening closing 1 s with
  | (text, rest, left) => (if left = 0 then text.dropLast else text, rest)

/-- `arith_group_end` and the text it delimits -/
def arithText (s : List Byte) : List Byte × List Byte :=
  match groupSpan (byte '(') (byte ')') 2 s with
  | (text, rest, _) => (text.take (text.length - 2), rest)

/-- The characters of a name, at most 127. -/
def nameSpan (s : List Byte) : List Byte :=
  (s.takeWhile fun c => isAlnum c || c == byte '_').take 127

/-- `strchr("?$!#-", c)`, which also finds the end of the text. -/
def isSpecial (c : Option Byte) : Bool :=
  match c with
  | none => true
  | some c => [byte '?', byte '$', byte '!', byte '#', byte '-'].contains c

/-- `c` starts a name. -/
def startsName (c : Option Byte) : Bool := (c.map fun c => isAlpha c || c == byte '_').getD false

/-- A parameter that is not set is an error under `set -u`. -/
def checkSet (value : Option (List Byte)) : Run Unit :=
  modify fun s => if value = none ∧ s.optNounset then { s with lastStatus := 1 } else s

/-- `$name` at the start of the text behind the dollar sign: its value, and the rest. -/
def namedParam (s : List Byte) : Run (Option (List Byte) × List Byte) := do
  let value ← lookupParam (nameSpan s)
  checkSet value
  pure (value, s.drop (nameSpan s).length)

/--
`$1` or `$?`: its value, and the rest.  At the end of a text the position moves behind the end.
-/
def specialParamAt (s : List Byte) : Run (Option (List Byte) × List Byte) :=
  match s with
  | [] => throw .beyond
  | c :: s => do
    let value ← lookupParam [c]
    pure (value, s)

/-- The cells of the positional parameters inside double quotes. -/
def quotedPositional (sign : Byte) (ifs : Option (List Byte)) : List (List Byte) → List Cell
  | [] => []
  | first :: others =>
    first.map (fun c => ⟨c, .quoted⟩) ++
      others.flatMap fun parameter =>
        (if sign = byte '@' then [⟨0, .fieldBreak⟩]
          else match ifs with
            | none => [⟨byte ' ', .quoted⟩]
            | some ifs => (ifs.take 1).map fun c => ⟨c, .quoted⟩) ++
        parameter.map fun c => ⟨c, .quoted⟩

/-- The cells of the positional parameters outside quotes. -/
def plainPositional (flag : CellFlag) : List (List Byte) → List Cell
  | [] => []
  | first :: others =>
    first.map (fun c => ⟨c, flag⟩) ++
      others.flatMap fun parameter => ⟨byte ' ', flag⟩ :: parameter.map fun c => ⟨c, flag⟩

/-! ## Expansion -/

mutual

def expandScalar (host : Host) : Nat → List Byte → Run (List Byte)
  | 0, _ => throw .rounds
  | n + 1, raw => do
    let (cells, _) ← expandWordCells host n true raw true [] false
    pure (cells.map fun cell => if cell.flag = .fieldBreak then byte ' ' else cell.c)

def expandBraced (host : Host) : Nat → List Byte → List Cell → CellFlag → Run (List Cell)
  | 0, _, _, _ => throw .rounds
  | n + 1, body, out, flag => do
    let lengthOp := body.head? = some (byte '#') ∧ 1 < body.length
    let p := if lengthOp then body.tail else body
    let name ← match p with
      | [] => throw .beyond
      | c :: _ =>
        if isDigit c then pure ((p.takeWhile isDigit).take 127)
        else if isSpecial (some c) || c == byte '@' || c == byte '*' then pure [c]
        else pure (nameSpan p)
    let p := p.drop name.length
    let value ← lookupParam name
    if lengthOp then
      pure (cellsPuts out (decimal ((value.map List.length).getD 0)) flag)
    else if p = [] then do
      checkSet value
      pure (cellsPutsValue out value flag)
    else
      let colon := p.head? == some (byte ':')
      let p := if colon then p.tail else p
      let op := p.head?
      if op = some (byte '-') ∨ op = some (byte '=') ∨ op = some (byte '+') ∨
        op = some (byte '?') then do
        let word ← expandScalar host n p.tail
        let unset := value = none ∨ (colon ∧ value = some [])
        if op = some (byte '-') then
          pure (cellsPuts out (if unset then word else value.getD []) flag)
        else if op = some (byte '+') then
          pure (if unset then out else cellsPuts out word flag)
        else if op = some (byte '=') then
          if unset then do
            modify (varSet name word)
            pure (cellsPuts out word flag)
          else
            pure (cellsPutsValue out value flag)
        else if unset then do
          modify fun s => { s with lastStatus := 1 }
          if (← get).interactive then pure out else throw (.exit 1)
        else
          pure (cellsPutsValue out value flag)
      else if op = some (byte '%') ∨ op = some (byte '#') then do
        let longest := p.tail.head? == op
        let pattern ← expandScalar host n (p.drop (if longest then 2 else 1))
        pure (cellsPuts out
          (stripAffix (value.getD []) pattern (op == some (byte '%')) longest) flag)
      else
        pure (cellsPutsValue out value flag)

/-- The loop of `expand_word_cells` inside double quotes, with the text behind the closing one. -/
def expandQuoted (host : Host) : Nat → List Byte → List Cell → Run (List Cell × List Byte)
  | 0, _, _ => throw .rounds
  | _ + 1, [], out => pure (out, [])
  | n + 1, c :: s, out =>
    let next := s.head?
    if c = dquote then
      pure (out, s)
    else if c = backslash ∧ (next = some (byte '$') ∨ next = some backquote ∨ next = some dquote ∨
      next = some backslash) then
      expandQuoted host n s.tail (cellsPuts out (s.take 1) .quoted)
    else if c = byte '$' ∧ next = some (byte '(') ∧ s.tail.head? = some (byte '(') then do
      let (expr, rest) := arithText (s.drop 2)
      let expanded ← expandScalar host n expr
      expandQuoted host n rest (cellsPuts out (decimal (host.arithEval (← get) expanded)) .quoted)
    else if c = byte '$' ∧ next = some (byte '(') then do
      let (command, rest) := groupText (byte '(') (byte ')') s.tail
      let output ← host.commandSubstitute command
      expandQuoted host n rest (cellsPuts out output .quoted)
    else if c = backquote then do
      let output ← host.commandSubstitute (s.takeWhile (· != backquote))
      expandQuoted host n ((s.dropWhile (· != backquote)).drop 1) (cellsPuts out output .quoted)
    else if c = byte '$' ∧ next = some (byte '\x7b') then do
      let (body, rest) := groupText (byte '\x7b') (byte '\x7d') s.tail
      let out ← expandBraced host n body out .quoted
      expandQuoted host n rest out
    else if c = byte '$' ∧ (next = some (byte '@') ∨ next = some (byte '*')) then do
      let sh ← get
      expandQuoted host n s.tail
        (out ++ quotedPositional (next.getD 0) (varGet sh ifsName) sh.positional)
    else if c = byte '$' ∧ startsName next then do
      let (value, rest) ← namedParam s
      expandQuoted host n rest (cellsPutsValue out value .quoted)
    else if c = byte '$' ∧ ((next.map isDigit).getD false ∨ isSpecial next) then do
      let (value, rest) ← specialParamAt s
      expandQuoted host n rest (cellsPutsValue out value .quoted)
    else
      expandQuoted host n s (cellsPuts out [c] .quoted)

/-- `expand_word_cells`: the cells, and whether there were quotes. -/
def expandWordCells (host : Host) :
    Nat → Bool → List Byte → Bool → List Cell → Bool → Run (List Cell × Bool)
  | 0, _, _, _, _, _ => throw .rounds
  | _ + 1, _, [], _, out, hadQuotes => pure (out, hadQuotes)
  | n + 1, noSplit, c :: s, atStart, out, hadQuotes =>
    let next := s.head?
    let flag : CellFlag := if noSplit then .quoted else .expanded
    if c = backslash ∧ s ≠ [] then
      expandWordCells host n noSplit s.tail false (cellsPuts out (s.take 1) .quoted) true
    else if c = squote then
      expandWordCells host n noSplit ((s.dropWhile (· != squote)).drop 1) false
        (cellsPuts out (s.takeWhile (· != squote)) .quoted) true
    else if c = dquote then do
      let (out, rest) ← expandQuoted host n s out
      expandWordCells host n noSplit rest false out true
    else if c = byte '$' ∧ next = some (byte '(') ∧ s.tail.head? = some (byte '(') then do
      let (expr, rest) := arithText (s.drop 2)
      let expanded ← expandScalar host n expr
      expandWordCells host n noSplit rest false
        (cellsPuts out (decimal (host.arithEval (← get) expanded)) flag) hadQuotes
    else if c = byte '$' ∧ next = some (byte '(') then do
      let (command, rest) := groupText (byte '(') (byte ')') s.tail
      let output ← host.commandSubstitute command
      expandWordCells host n noSplit rest false (cellsPuts out output flag) hadQuotes
    else if c = backquote then do
      let output ← host.commandSubstitute (s.takeWhile (· != backquote))
      expandWordCells host n noSplit ((s.dropWhile (· != backquote)).drop 1) false
        (cellsPuts out output flag) hadQuotes
    else if c = byte '$' ∧ next = some (byte '\x7b') then do
      let (body, rest) := groupText (byte '\x7b') (byte '\x7d') s.tail
      let out ← expandBraced host n body out flag
      expandWordCells host n noSplit rest false out hadQuotes
    else if c = byte '$' ∧ (next = some (byte '@') ∨ next = some (byte '*')) then do
      expandWordCells host n noSplit s.tail false
        (out ++ plainPositional flag (← get).positional) hadQuotes
    else if c = byte '$' ∧ startsName next then do
      let (value, rest) ← namedParam s
      expandWordCells host n noSplit rest false (cellsPutsValue out value flag) hadQuotes
    else if c = byte '$' ∧ ((next.map isDigit).getD false ∨ isSpecial next) then do
      let (value, rest) ← specialParamAt s
      expandWordCells host n noSplit rest false (cellsPutsValue out value flag) hadQuotes
    else if c = byte '~' ∧ atStart then do
      let rest := s.dropWhile fun d => d != byte '/' && d != byte ':'
      if rest.length = s.length then
        let home := (varGet (← get) homeName).getD [byte '/']
        expandWordCells host n noSplit s false (cellsPuts out home .quoted) hadQuotes
      else
        expandWordCells host n noSplit s false (cellsPuts out [c] .plain) hadQuotes
    else
      expandWordCells host n noSplit s false (cellsPuts out [c] .plain) hadQuotes

end

/-! ## Fields -/

def hasGlobChars (cells : List Cell) : Bool :=
  cells.any fun cell => cell.flag != .quoted && [byte '*', byte '?', byte '['].contains cell.c

/-- The text of a cell in a pattern. -/
def patternText (cell : Cell) : List Byte :=
  if cell.flag = .quoted ∧ [byte '*', byte '?', byte '[', byte ']', backslash].contains cell.c then
    [backslash, cell.c] else [cell.c]

/-- `emit_field`: the fields it adds -/
def emitField (host : Host) (noglob : Bool) (cells : List Cell) (force : Bool) : List (List Byte) :=
  if cells = [] ∧ !force then
    []
  else
    let matched :=
      if !noglob && hasGlobChars cells then host.glob (cells.flatMap patternText) else []
    if matched ≠ [] then matched else [cells.map Cell.c]

/--
The state of the loop in `expand_word`; the cells since `field_start` are kept, which are none
outside a field.
-/
structure Splitter where
  fields : List (List Byte)
  any : Bool
  inField : Bool
  field : List Cell

/-- The loop of `expand_word` -/
def splitCell (host : Host) (noglob hadQuotes : Bool) (ifs : List Byte) (w : Splitter)
    (cell : Cell) : Splitter :=
  if cell.flag = .fieldBreak then
    { fields := w.fields ++
        (if w.inField || hadQuotes then emitField host noglob w.field true else [])
      any := true, inField := false, field := [] }
  else if cell.flag = .expanded ∧ ifs.contains cell.c then
    { fields := w.fields ++ (if w.inField then emitField host noglob w.field false else [])
      any := w.any || w.inField, inField := false, field := [] }
  else
    { w with inField := true, field := w.field ++ [cell] }

/-- The end of `expand_word` -/
def splitEnd (host : Host) (noglob hadQuotes : Bool) (w : Splitter) : List (List Byte) :=
  if w.inField then w.fields ++ emitField host noglob w.field false
  else if hadQuotes ∧ !w.any then w.fields ++ [[]]
  else w.fields

/-- The fields of the cells of a word. -/
def splitFields (host : Host) (s : State) (cells : List Cell) (hadQuotes : Bool) :
    List (List Byte) :=
  let ifs := (varGet s ifsName).getD [byte ' ', tab, newline]
  splitEnd host s.optNoglob hadQuotes
    (cells.foldl (splitCell host s.optNoglob hadQuotes ifs) ⟨[], false, false, []⟩)

/-- `expand_word`: the fields it adds -/
def expandWord (host : Host) (raw : List Byte) : Run (List (List Byte)) := do
  let (cells, hadQuotes) ← expandWordCells host (raw.length + 1) false raw true [] false
  pure (splitFields host (← get) cells hadQuotes)

end PureCOS.Shell
