import PureCOS.PureL.Lexer

/-!
# PureL: nodes and strings

`lang/src/ast.rs`: nodes in an array of 512 that refer to each other by index, and a pool of 128
strings of at most 47 bytes.  An array is the list of its elements in use; each access says what
index has to be in range.
-/

namespace PureCOS.PureL

open Code

def maxNodes : Nat := 512
def maxStrings : Nat := 128
def maxStrBytes : Nat := 48

abbrev NodeId := Nat

def NIL : NodeId := 65535

inductive BinOp where
  | add
  | sub
  | mul
  | div
  | mod
  | eq
  | ne
  | lt
  | le
  | gt
  | ge
  | and
  | or
deriving DecidableEq

inductive UnOp where
  | neg
  | not

/-- `Node`; names are indices into the string pool. -/
inductive Node where
  | number (n : Int)
  | string (s : Nat)
  | bool (b : Bool)
  | nil
  | var (name : Nat)
  | assign (name : Nat) (value : NodeId)
  | «let» (name : Nat) (value : NodeId)
  | unary (op : UnOp) (expr : NodeId)
  | binary (op : BinOp) (left right : NodeId)
  | call (name : Nat) (args : NodeId)
  | list (head next : NodeId)
  | print (args : NodeId)
  | «if» (cond thenBody elseBody : NodeId)
  | «while» (cond body : NodeId)
  | «fun» (name : Nat) (params body : NodeId)
  | «return» (value : NodeId)
  | block (stmts : NodeId)
  | param (name : Nat)

abbrev Arena := List Node

/-- `StringPool`: the strings that are in use. -/
abbrev Pool := List (List UInt8)

namespace Arena

/-- `Arena::alloc` -/
def alloc (node : Node) : Code Arena (Option NodeId) := do
  let arena ← get
  if maxNodes ≤ arena.length then
    pure none
  else
    require (arena.length < maxNodes)
    modify (· ++ [node])
    pure (some arena.length)

/-- `Arena::get` -/
def get (id : NodeId) : Code Arena (Option Node) := do
  let arena ← Code.get
  if id = NIL ∨ arena.length ≤ id then
    pure none
  else
    require (id < maxNodes)
    pure arena[id]?

def setListNext (id next : NodeId) : Code Arena Unit := do
  let arena ← Code.get
  if id = NIL ∨ arena.length ≤ id then
    pure ()
  else
    require (id < maxNodes)
    match arena[id]? with
    | some (.list head _) => Code.modify fun arena => arena.set id (.list head next)
    | _ => pure ()

end Arena

namespace Pool

/-- The loop of `intern` from string `i` on. -/
def find (s : List UInt8) : Nat → List (List UInt8) → Code Pool (Option Nat)
  | _, [] => pure none
  | i, t :: rest => do
    require (i < maxStrings)
    if t.length = s.length then
      require (t.length ≤ maxStrBytes)
      if t = s then pure (some i) else find s (i + 1) rest
    else
      find s (i + 1) rest

/-- `StringPool::intern` -/
def intern (s : List UInt8) : Code Pool (Option Nat) := do
  if maxStrBytes ≤ s.length then
    pure none
  else
    let pool ← get
    match ← find s 0 pool with
    | some i => pure (some i)
    | none =>
      if maxStrings ≤ pool.length then
        pure none
      else
        require (pool.length < maxStrings && s.length ≤ maxStrBytes)
        modify (· ++ [s])
        pure (some pool.length)

/-- `core::str::from_utf8(s).unwrap_or("")` -/
def fromUtf8 (s : List UInt8) : List UInt8 := if s.toByteArray.validateUTF8 then s else []

/-- `StringPool::get` -/
def get (id : Nat) : Code Pool (List UInt8) := do
  let pool ← Code.get
  match pool[id]? with
  | none => pure []
  | some s =>
    require (id < maxStrings && s.length ≤ maxStrBytes)
    pure (fromUtf8 s)

end Pool

end PureCOS.PureL
