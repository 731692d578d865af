import PureCOS.PureL.Parser

/-!
# PureL: the interpreter

`lang/src/interp.rs` walks over the nodes.  Variables are in one array for all scopes: a call notes
how many there are and removes those above when it returns.  `set_var` and `get_var` look through
all of the array from its end.

`steps` is a record of the arithmetic that may overflow and of what is written to variables, by
assignments and by the binding of arguments.
-/

namespace PureCOS.PureL

open Code

def maxVars : Nat := 64
def maxFuncs : Nat := 16
def maxCallDepth : Nat := 32
def strCap : Nat := 48

/-- The room for arguments in `call`. -/
def maxArgs : Nat := 8

/-- `Value`; strings are indices into the string pool. -/
inductive Value where
  | nil
  | bool (b : Bool)
  | int (n : Int)
  | str (id : Nat)
deriving DecidableEq

def Value.isTruthy : Value → Bool
  | .nil => false
  | .bool b => b
  | .int n => n ≠ 0
  | .str _ => true

def Value.asInt : Value → Option Int
  | .int n => some n
  | .bool true => some 1
  | .bool false => some 0
  | .nil => some 0
  | .str _ => none

structure VarSlot where
  name : Nat
  value : Value
  used : Bool

structure FuncSlot where
  name : Nat
  params : NodeId
  body : NodeId
  used : Bool

/-- Whether the slot is that of a variable. -/
def VarSlot.isFor (slot : VarSlot) (name : Nat) : Bool := slot.used && slot.name == name

/-- Whether the slot is that of a function. -/
def FuncSlot.isFor (slot : FuncSlot) (name : Nat) : Bool := slot.used && slot.name == name

/-- The value of a variable: that of the last slot for it. -/
def visible (vars : List VarSlot) (name : Nat) : Option Value :=
  (vars.reverse.find? fun slot => slot.isFor name).map VarSlot.value

/--
What the interpreter does to numbers and variables; for the binding of an argument, with the value
that the name has before.
-/
inductive ExecStep where
  | divide (a b : Int)
  | negate (n : Int)
  | assign (name : Nat)
  | bind (name : Nat) (before : Option Value) (value : Value)
deriving DecidableEq

/-- `Vm`; `vars` are the slots below `var_len`, `frames` the markers of the frames in use. -/
structure Vm where
  arena : Arena
  strings : Pool
  vars : List VarSlot
  funcs : List FuncSlot
  frames : List Nat
  error : Option String
  returning : Option Value
  out : List UInt8
  steps : List ExecStep

/-- Code of the interpreter. -/
abbrev Exec := Code Vm

namespace Vm

/-- `Vm::new` -/
def new (arena : Arena) (strings : Pool) : Vm where
  arena := arena
  strings := strings
  vars := []
  funcs := List.replicate maxFuncs ⟨0, NIL, NIL, false⟩
  frames := []
  error := none
  returning := none
  out := []
  steps := []

/-! ## Small steps -/

def record (step : ExecStep) : Exec Unit := modify fun vm => { vm with steps := vm.steps ++ [step] }

def fail (msg : String) : Exec Value := do
  modify fun vm => { vm with error := vm.error <|> some msg }
  pure .nil

/-- `purec::write` -/
def write (text : List UInt8) : Exec Unit := modify fun vm => { vm with out := vm.out ++ text }

def getNode (id : NodeId) : Exec (Option Node) :=
  zoom Vm.arena (fun arena vm => { vm with arena := arena }) (Arena.get id)

def getString (id : Nat) : Exec (List UInt8) :=
  zoom Vm.strings (fun strings vm => { vm with strings := strings }) (Pool.get id)

def intern (s : List UInt8) : Exec (Option Nat) :=
  zoom Vm.strings (fun strings vm => { vm with strings := strings }) (Pool.intern s)

/-! ## Variables -/

def pushFrame : Exec Bool := do
  let vm ← get
  if maxCallDepth ≤ vm.frames.length then
    pure false
  else
    require (vm.frames.length < maxCallDepth)
    modify fun vm => { vm with frames := vm.frames ++ [vm.vars.length] }
    pure true

/-- The loop of `pop_frame`: this many variables are removed. -/
def dropVars : Nat → Exec Unit
  | 0 => pure ()
  | count + 1 => do
    let vm ← get
    require (vm.vars.length - 1 < maxVars)
    modify fun vm => { vm with vars := vm.vars.dropLast }
    dropVars count

def popFrame : Exec Unit := do
  let vm ← get
  match vm.frames.getLast? with
  | none => pure ()
  | some marker =>
    require (vm.frames.length - 1 < maxCallDepth)
    modify fun vm => { vm with frames := vm.frames.dropLast }
    dropVars (vm.vars.length - marker)

/-- The last slot for a variable among `count` slots from `start` on. -/
def search (name start : Nat) : Nat → Exec (Option Nat)
  | 0 => pure none
  | count + 1 => do
    require (start + count < maxVars)
    let vm ← get
    if (vm.vars[start + count]?).any fun slot => slot.isFor name then
      pure (some (start + count))
    else
      search name start count

/-- `self.vars[i].value = value` -/
def setValue (i : Nat) (value : Value) : Exec Unit :=
  modify fun vm => { vm with vars := vm.vars.modify i fun slot => { slot with value := value } }

/-- The marker of the current frame. -/
def frameStart : Exec Nat := do
  let vm ← get
  match vm.frames.getLast? with
  | none => pure 0
  | some marker =>
    require (vm.frames.length - 1 < maxCallDepth)
    pure marker

def setVar (name : Nat) (value : Value) : Exec Bool := do
  let start ← frameStart
  let vm ← get
  match ← search name start (vm.vars.length - start) with
  | some i =>
    setValue i value
    pure true
  | none =>
    match ← search name 0 start with
    | some i =>
      setValue i value
      pure true
    | none =>
      if maxVars ≤ vm.vars.length then
        pure false
      else
        require (vm.vars.length < maxVars)
        modify fun vm => { vm with vars := vm.vars ++ [⟨name, value, true⟩] }
        pure true

def getVar (name : Nat) : Exec (Option Value) := do
  let vm ← get
  match ← search name 0 vm.vars.length with
  | some i => pure (vm.vars[i]?.map VarSlot.value)
  | none => pure none

/-! ## Functions -/

def defineFun (name : Nat) (params body : NodeId) : Exec Bool := do
  let vm ← get
  match vm.funcs.findIdx? fun slot => slot.isFor name with
  | some i =>
    modify fun vm => { vm with
      funcs := vm.funcs.modify i fun slot => { slot with params := params, body := body } }
    pure true
  | none =>
    match vm.funcs.findIdx? fun slot => !slot.used with
    | some i =>
      modify fun vm => { vm with funcs := vm.funcs.set i ⟨name, params, body, true⟩ }
      pure true
    | none => pure false

def findFun (name : Nat) : Exec (Option (NodeId × NodeId)) := do
  let vm ← get
  pure ((vm.funcs.find? fun slot => slot.isFor name).map fun slot => (slot.params, slot.body))

/-! ## Numbers and strings -/

section Operations

variable (checks : Bool)

/-- `-n`: with overflow checks it panics at the least number, without them it wraps. -/
def negate (n : Int) : Exec Int := do
  record (.negate n)
  require (!(checks && n == Parser.i64Min))
  pure (if n = Parser.i64Min then Parser.i64Min else -n)

/-- `a / b` and `a % b` -/
def divide (op : Int → Int → Int) (a b : Int) : Exec Int := do
  record (.divide a b)
  require (b != 0 && !(a == Parser.i64Min && b == -1))
  pure (op a b)

def printValue : Value → Exec Unit
  | .nil => write (encode "nil".toList)
  | .bool true => write (encode "true".toList)
  | .bool false => write (encode "false".toList)
  | .int n =>
    if n < 0 then do
      write (encode ['-'])
      let m ← negate checks n
      write (encode (Nat.repr (m % 2 ^ 64).toNat).toList)
    else
      write (encode (Nat.repr n.toNat).toList)
  | .str id => do
    let text ← getString id
    write text

def valuesEq : Value → Value → Exec Bool
  | .nil, .nil => pure true
  | .bool x, .bool y => pure (x == y)
  | .int x, .int y => pure (x == y)
  | .str x, .str y => do
    let sx ← getString x
    let sy ← getString y
    pure (sx == sy)
  | _, _ => pure false

/-- A loop of `concat_str`: bytes are copied while there is room. -/
def copyBytes (buf : List UInt8) : List UInt8 → Exec (List UInt8)
  | [] => pure buf
  | c :: rest =>
    if strCap - 1 ≤ buf.length then
      pure buf
    else do
      require (buf.length < strCap)
      copyBytes (buf ++ [c]) rest

def concatStr (a b : Nat) : Exec Value := do
  let sa ← getString a
  let sb ← getString b
  let buf ← copyBytes [] sa
  let buf ← copyBytes buf sb
  require (buf.length ≤ strCap)
  match ← intern (Pool.fromUtf8 buf) with
  | some id => pure (.str id)
  | none => fail "string pool full"

/-- The inner `match` of `eval_bin`. -/
def arithmetic (op : BinOp) (a b : Int) : Exec Value :=
  match op with
  | .add => pure (.int (Parser.saturate (a + b)))
  | .sub => pure (.int (Parser.saturate (a - b)))
  | .mul => pure (.int (Parser.saturate (a * b)))
  | .div =>
    if b = 0 then
      fail "division by zero"
    else do
      let n ← divide Int.tdiv a b
      pure (.int n)
  | .mod =>
    if b = 0 then
      fail "modulo by zero"
    else do
      let n ← divide Int.tmod a b
      pure (.int n)
  | .lt => pure (.bool (a < b))
  | .le => pure (.bool (a ≤ b))
  | .gt => pure (.bool (a > b))
  | .ge => pure (.bool (a ≥ b))
  | _ => pure .nil

/-- `eval_bin` on the values of both sides. -/
def binary (op : BinOp) (l r : Value) : Exec Value :=
  match op, l, r with
  | .add, .str a, .str b => concatStr a b
  | .eq, l, r => do
    let same ← valuesEq l r
    pure (.bool same)
  | .ne, l, r => do
    let same ← valuesEq l r
    pure (.bool !same)
  | op, l, r =>
    match l.asInt, r.asInt with
    | some a, some b => arithmetic op a b
    | _, _ => fail "binary op expects numbers"

/-- The branch of `eval` for unary operators. -/
def unary (op : UnOp) (v : Value) : Exec Value :=
  match op with
  | .neg =>
    match v.asInt with
    | some n => do
      let m ← negate checks n
      pure (.int m)
    | none => fail "unary - expects number"
  | .not => pure (.bool !v.isTruthy)

end Operations

/-! ## Functions that call each other -/

/-- The functions and loops of the interpreter that call each other. -/
structure Calls where
  eval : NodeId → Exec Value
  evalList : NodeId → Value → Exec Value
  printList : NodeId → Bool → Exec Unit
  whileLoop : NodeId → NodeId → Value → Nat → Exec Value
  argLoop : NodeId → List Value → Exec (List Value)
  bindLoop : NodeId → Nat → List Value → Exec Bool

/-- No rounds are left. -/
def Calls.none : Calls where
  eval := fun _ => pending
  evalList := fun _ _ => pending
  printList := fun _ _ => pending
  whileLoop := fun _ _ _ _ => pending
  argLoop := fun _ _ => pending
  bindLoop := fun _ _ _ => pending

section Functions

variable (checks : Bool) (calls : Calls)

/-- The loop of `eval_list`. -/
def evalList (cell : NodeId) (last : Value) : Exec Value := do
  if cell = NIL then
    pure last
  else
    match ← getNode cell with
    | some (.list head next) =>
      let last ← calls.eval head
      let vm ← get
      if vm.returning.isSome ∨ vm.error.isSome then
        pure last
      else
        calls.evalList next last
    | _ => pure last

/-- The loop of `print_list`. -/
def printList (cell : NodeId) (first : Bool) : Exec Unit := do
  if cell = NIL then
    pure ()
  else
    match ← getNode cell with
    | some (.list head next) =>
      if !first then write (encode [' '])
      let v ← calls.eval head
      printValue checks v
      calls.printList next false
    | _ => pure ()

/-- The loop of `eval` for `while`; `guard` is a 32-bit counter. -/
def whileLoop (cond body : NodeId) (last : Value) (guard : Nat) : Exec Value := do
  let c ← calls.eval cond
  if c.isTruthy then
    let last ← calls.eval body
    let vm ← get
    if vm.returning.isSome ∨ vm.error.isSome then
      pure last
    else
      require (guard + 1 < 2 ^ 32)
      if 100000 < guard + 1 then
        fail "while: iteration limit"
      else
        calls.whileLoop cond body last (guard + 1)
  else
    pure last

def evalBin (op : BinOp) (left right : NodeId) : Exec Value := do
  let l ← calls.eval left
  if op = .and ∧ l.isTruthy = false ∨ op = .or ∧ l.isTruthy = true then
    pure l
  else
    let r ← calls.eval right
    if op = .and ∨ op = .or then
      pure r
    else
      binary op l r

/-- The loop of `call` over the arguments. -/
def argLoop (cell : NodeId) (vals : List Value) : Exec (List Value) := do
  if cell ≠ NIL ∧ vals.length < maxArgs then
    match ← getNode cell with
    | some (.list head next) =>
      let v ← calls.eval head
      require (vals.length < maxArgs)
      calls.argLoop next (vals ++ [v])
    | _ => pure vals
  else
    pure vals

/-- Binding of an argument: `set_var`, as for an assignment. -/
def bindParam (name : Nat) (value : Value) : Exec Bool := do
  let vm ← get
  record (.bind name (visible vm.vars name) value)
  setVar name value

/-- The loop of `call` over the parameters. -/
def bindLoop (pcell : NodeId) (i : Nat) (vals : List Value) : Exec Bool := do
  if pcell = NIL then
    pure true
  else
    match ← getNode pcell with
    | some (.list head next) =>
      match ← getNode head with
      | some (.param pname) =>
        require (vals.length ≤ i || i < maxArgs)
        if ← bindParam pname (vals.getD i .nil) then
          calls.bindLoop next (i + 1) vals
        else
          pure false
      | _ => calls.bindLoop next (i + 1) vals
    | _ => pure true

/-- `self.returning.take().unwrap_or(Value::Nil)` -/
def takeReturning : Exec Value := do
  let vm ← get
  modify fun vm => { vm with returning := none }
  pure (vm.returning.getD .nil)

/-- `call` from the pushed frame on. -/
def callBody (params body : NodeId) (vals : List Value) : Exec Value := do
  if ← calls.bindLoop params 0 vals then
    let _ ← calls.eval body
    let result ← takeReturning
    popFrame
    pure result
  else
    popFrame
    fail "too many variables"

def call (name : Nat) (args : NodeId) : Exec Value := do
  match ← findFun name with
  | none => fail "undefined function"
  | some (params, body) =>
    let vals ← calls.argLoop args []
    if ← pushFrame then
      callBody calls params body vals
    else
      fail "call stack overflow"

/-- The branch of `eval` for `let` and for assignments. -/
def assign (name : Nat) (value : NodeId) : Exec Value := do
  let v ← calls.eval value
  record (.assign name)
  if ← setVar name v then
    pure v
  else
    fail "too many variables"

/-- The `match` of `eval`. -/
def evalNode : Node → Exec Value
  | .number n => pure (.int n)
  | .string s => pure (.str s)
  | .bool b => pure (.bool b)
  | .nil => pure .nil
  | .var name => do
    let v ← getVar name
    pure (v.getD .nil)
  | .let name value => assign calls name value
  | .assign name value => assign calls name value
  | .unary op expr => do
    let v ← calls.eval expr
    unary checks op v
  | .binary op left right => evalBin calls op left right
  | .print args => do
    calls.printList args true
    write (encode ['\n'])
    pure .nil
  | .if cond thenBody elseBody => do
    let c ← calls.eval cond
    if c.isTruthy then
      calls.eval thenBody
    else if elseBody ≠ NIL then
      calls.eval elseBody
    else
      pure .nil
  | .while cond body => calls.whileLoop cond body .nil 0
  | .fun name params body => do
    if ← defineFun name params body then
      pure .nil
    else
      fail "too many functions"
  | .return value => do
    let v ← calls.eval value
    modify fun vm => { vm with returning := some v }
    pure v
  | .block stmts => calls.evalList stmts .nil
  | .call name args => call calls name args
  | .list _ _ => pure .nil
  | .param _ => pure .nil

def eval (id : NodeId) : Exec Value := do
  let vm ← get
  if id = NIL ∨ vm.error.isSome ∨ vm.returning.isSome then
    pure .nil
  else
    match ← getNode id with
    | none => fail "bad node"
    | some node => evalNode checks calls node

end Functions

/-- One more round. -/
def Calls.next (checks : Bool) (calls : Calls) : Calls where
  eval := Vm.eval checks calls
  evalList := Vm.evalList calls
  printList := Vm.printList checks calls
  whileLoop := Vm.whileLoop calls
  argLoop := Vm.argLoop calls
  bindLoop := Vm.bindLoop calls

/-- The functions with this many rounds. -/
def Calls.after (checks : Bool) : Nat → Calls
  | 0 => .none
  | rounds + 1 => .next checks (.after checks rounds)

def exec (checks : Bool) (rounds : Nat) (root : NodeId) : Exec Value :=
  (Calls.after checks rounds).eval root

end Vm

/-- What `run_source` leaves: a text that does not parse is not executed. -/
structure SourceRun where
  parser : Parser
  vm : Option Vm
  ending : Ending Unit

def runSource (checks : Bool) (rounds : Nat) (text : List Char) : SourceRun :=
  match parse text rounds with
  | (p, .done root) =>
    if p.error.isSome then
      ⟨p, none, .done ()⟩
    else
      match Vm.exec checks rounds root (Vm.new p.arena p.strings) with
      | (vm, .done _) => ⟨p, some vm, .done ()⟩
      | (vm, .panic) => ⟨p, some vm, .panic⟩
      | (vm, .pending) => ⟨p, some vm, .pending⟩
  | (p, .panic) => ⟨p, none, .panic⟩
  | (p, .pending) => ⟨p, none, .pending⟩

end PureCOS.PureL
