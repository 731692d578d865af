import PureCOS.PureL.Interp

/-!
# PureL: what the interpreter respects

A frame that the small steps of the interpreter respect is one that all of its functions respect.
The binding of arguments may break the frame, as long as a whole call, which removes what it has
bound, does not: `binding` is the frame for the part in between.
-/

namespace PureCOS.PureL
namespace Vm

open Code List

/-- What a call does when it has its arguments. -/
def enter (calls : Calls) (params body : NodeId) (vals : List Value) : Exec Value := do
  if ← pushFrame then
    callBody calls params body vals
  else
    fail "call stack overflow"

/-- What an assignment does when it has its value. -/
def assignVar (name : Nat) (v : Value) : Exec Bool := do
  record (.assign name)
  setVar name v

/-- The steps respect `fr`, and those that bind arguments `binding`. -/
structure StepsRespect (checks : Bool) (fr binding : Frame Vm) : Prop where
  fail : ∀ msg, fr.Allows (fail msg)
  write : ∀ text, fr.Allows (write text)
  getNode : ∀ id, fr.Allows (getNode id)
  getString : ∀ id, fr.Allows (getString id)
  intern : ∀ s, fr.Allows (intern s)
  getVar : ∀ name, fr.Allows (getVar name)
  defineFun : ∀ name params body, fr.Allows (defineFun name params body)
  negate : ∀ n, fr.Allows (negate checks n)
  divide : ∀ op a b, b ≠ 0 → fr.Allows (divide op a b)
  setReturning : ∀ v, fr.Allows (modify fun vm : Vm => { vm with returning := some v })
  assignVar : ∀ name v, fr.Allows (assignVar name v)
  bindNode : ∀ id, binding.Allows (Vm.getNode id)
  bindParam : ∀ name v, binding.Allows (bindParam name v)
  enter : ∀ calls params body vals, binding.Allows (calls.bindLoop params 0 vals) →
    fr.Allows (calls.eval body) → fr.Allows (enter calls params body vals)

/-- The functions respect the frames. -/
structure CallsRespect (fr binding : Frame Vm) (calls : Calls) : Prop where
  eval : ∀ id, fr.Allows (calls.eval id)
  evalList : ∀ cell last, fr.Allows (calls.evalList cell last)
  printList : ∀ cell first, fr.Allows (calls.printList cell first)
  whileLoop : ∀ cond body last guard, guard ≤ 100000 →
    fr.Allows (calls.whileLoop cond body last guard)
  argLoop : ∀ cell vals, vals.length ≤ maxArgs →
    Respects fr (fun vals' : List Value => vals'.length ≤ maxArgs) (calls.argLoop cell vals)
  bindLoop : ∀ pcell i vals, vals.length ≤ maxArgs →
    binding.Allows (calls.bindLoop pcell i vals)

variable {checks : Bool} {fr binding : Frame Vm} {calls : Calls}

section Operations

variable (h : StepsRespect checks fr binding)

include h

theorem printValue_respects (v : Value) : fr.Allows (printValue checks v) := by
  cases v with
  | nil => exact h.write _
  | bool b => cases b <;> exact h.write _
  | int n =>
    refine .ite (fun _ => ?_) fun _ => h.write _
    exact .bind (h.write _) fun _ _ => .bind (h.negate n) fun _ _ => h.write _
  | str id => exact .bind (h.getString id) fun _ _ => h.write _

theorem valuesEq_respects (l r : Value) : fr.Allows (valuesEq l r) := by
  unfold valuesEq
  split
  · exact .pure trivial
  · exact .pure trivial
  · exact .pure trivial
  · exact .bind (h.getString _) fun _ _ => .bind (h.getString _) fun _ _ => .pure trivial
  · exact .pure trivial

omit h in
theorem copyBytes_respects (bytes : List UInt8) {buf : List UInt8} (hbuf : buf.length < strCap) :
    Respects fr (fun buf' : List UInt8 => buf'.length < strCap) (copyBytes buf bytes) := by
  induction bytes generalizing buf with
  | nil => exact .pure hbuf
  | cons c rest ih =>
    refine .ite (fun _ => .pure hbuf) fun hroom => ?_
    refine .bind (.require (decide_eq_true hbuf)) fun _ _ => ih ?_
    rw [length_append, length_singleton]
    omega

theorem concatStr_respects (a b : Nat) : fr.Allows (concatStr a b) := by
  refine .bind (h.getString a) fun sa _ => .bind (h.getString b) fun sb _ => ?_
  refine .bind (copyBytes_respects sa (Nat.succ_pos 47)) fun buf hbuf => ?_
  refine .bind (copyBytes_respects sb hbuf) fun buf' hbuf' => ?_
  refine .bind (.require (decide_eq_true (Nat.le_of_lt hbuf'))) fun _ _ => ?_
  refine .bind (h.intern _) fun r _ => ?_
  cases r with
  | some id => exact .pure trivial
  | none => exact h.fail _

theorem arithmetic_respects (op : BinOp) (a b : Int) : fr.Allows (arithmetic op a b) := by
  cases op with
  | div =>
    exact .ite (fun _ => h.fail _) fun hb => .bind (h.divide _ a b hb) fun _ _ => .pure trivial
  | mod =>
    exact .ite (fun _ => h.fail _) fun hb => .bind (h.divide _ a b hb) fun _ _ => .pure trivial
  | _ => exact .pure trivial

theorem binary_respects (op : BinOp) (l r : Value) : fr.Allows (binary op l r) := by
  unfold binary
  split
  · exact concatStr_respects h _ _
  · exact .bind (valuesEq_respects h l r) fun _ _ => .pure trivial
  · exact .bind (valuesEq_respects h l r) fun _ _ => .pure trivial
  · split
    · exact arithmetic_respects h op _ _
    · exact h.fail _

theorem unary_respects (op : UnOp) (v : Value) : fr.Allows (unary checks op v) := by
  cases op with
  | not => exact .pure trivial
  | neg =>
    unfold unary
    cases hint : v.asInt with
    | some n => exact .bind (h.negate n) fun _ _ => .pure trivial
    | none => exact h.fail _

end Operations

section Functions

variable (h : StepsRespect checks fr binding) (hcalls : CallsRespect fr binding calls)

include h hcalls

theorem evalList_respects (cell : NodeId) (last : Value) :
    fr.Allows (evalList calls cell last) := by
  refine .ite (fun _ => .pure trivial) fun _ => .bind (h.getNode cell) fun node _ => ?_
  split
  · refine .bind (hcalls.eval _) fun v _ => .bind .get fun vm _ => ?_
    exact .ite (fun _ => .pure trivial) fun _ => hcalls.evalList _ v
  · exact .pure trivial

theorem printList_respects (cell : NodeId) (first : Bool) :
    fr.Allows (printList checks calls cell first) := by
  refine .ite (fun _ => .pure trivial) fun _ => .bind (h.getNode cell) fun node _ => ?_
  split
  · have hrest : ∀ head next, fr.Allows (do
        let v ← calls.eval head
        printValue checks v
        calls.printList next false) := fun head next =>
      .bind (hcalls.eval head) fun v _ => .bind (printValue_respects h v) fun _ _ =>
        hcalls.printList next false
    exact .ite (fun _ => .bind (h.write _) fun _ _ => hrest _ _) fun _ => hrest _ _
  · exact .pure trivial

theorem whileLoop_respects (cond body : NodeId) (last : Value) {guard : Nat}
    (hguard : guard ≤ 100000) : fr.Allows (whileLoop calls cond body last guard) := by
  refine .bind (hcalls.eval cond) fun c _ => .ite (fun _ => ?_) fun _ => .pure trivial
  refine .bind (hcalls.eval body) fun v _ => .bind .get fun vm _ =>
    .ite (fun _ => .pure trivial) fun _ => ?_
  refine .bind (.require (decide_eq_true (by omega))) fun _ _ =>
    .ite (fun _ => h.fail _) fun hlimit => ?_
  exact hcalls.whileLoop cond body v (guard + 1) (Nat.not_lt.mp hlimit)

theorem evalBin_respects (op : BinOp) (left right : NodeId) :
    fr.Allows (evalBin calls op left right) := by
  refine .bind (hcalls.eval left) fun l _ => .ite (fun _ => .pure trivial) fun _ => ?_
  exact .bind (hcalls.eval right) fun r _ => .ite (fun _ => .pure trivial) fun _ =>
    binary_respects h op l r

theorem argLoop_respects (cell : NodeId) {vals : List Value} (hvals : vals.length ≤ maxArgs) :
    Respects fr (fun vals' : List Value => vals'.length ≤ maxArgs) (argLoop calls cell vals) := by
  refine .ite (fun hgo => .bind (h.getNode cell) fun node _ => ?_) fun _ => .pure hvals
  split
  · refine .bind (hcalls.eval _) fun v _ => .bind (.require (decide_eq_true hgo.2)) fun _ _ => ?_
    refine hcalls.argLoop _ _ ?_
    rw [length_append, length_singleton]
    exact hgo.2
  · exact .pure hvals

theorem bindLoop_respects (pcell : NodeId) (i : Nat) {vals : List Value}
    (hvals : vals.length ≤ maxArgs) : binding.Allows (bindLoop calls pcell i vals) := by
  refine .ite (fun _ => .pure trivial) fun _ => .bind (h.bindNode pcell) fun node _ => ?_
  split
  · refine .bind (h.bindNode _) fun node' _ => ?_
    split
    · have hroom : (decide (vals.length ≤ i) || decide (i < maxArgs)) = true := by
        rw [Bool.or_eq_true, decide_eq_true_iff, decide_eq_true_iff]
        omega
      refine .bind (.require hroom) fun _ _ => .bind (h.bindParam _ _) fun ok _ => ?_
      exact .ite (fun _ => hcalls.bindLoop _ (i + 1) vals hvals) fun _ => .pure trivial
    · exact hcalls.bindLoop _ (i + 1) vals hvals
  · exact .pure trivial

theorem call_respects (name : Nat) (args : NodeId) : fr.Allows (call calls name args) := by
  have hfind : fr.Allows (findFun name) := .bind .get fun vm _ => .pure trivial
  refine .bind hfind fun f _ => ?_
  cases f with
  | none => exact h.fail _
  | some f =>
    refine .bind (hcalls.argLoop args [] (Nat.zero_le _)) fun vals hvals => ?_
    exact h.enter calls f.1 f.2 vals (hcalls.bindLoop f.1 0 vals hvals) (hcalls.eval f.2)

theorem assign_respects (name : Nat) (value : NodeId) : fr.Allows (assign calls name value) := by
  refine .bind (hcalls.eval value) fun v _ => ?_
  have hassign : fr.Allows (do
      let ok ← assignVar name v
      if ok then pure v else fail "too many variables") :=
    .bind (h.assignVar name v) fun ok _ => .ite (fun _ => .pure trivial) fun _ => h.fail _
  intro vm
  have hvm := hassign vm
  exact hvm

theorem evalNode_respects (node : Node) : fr.Allows (evalNode checks calls node) := by
  cases node with
  | number n => exact .pure trivial
  | string s => exact .pure trivial
  | bool b => exact .pure trivial
  | nil => exact .pure trivial
  | var name => exact .bind (h.getVar name) fun v _ => .pure trivial
  | «let» name value => exact assign_respects h hcalls name value
  | assign name value => exact assign_respects h hcalls name value
  | unary op expr => exact .bind (hcalls.eval expr) fun v _ => unary_respects h op v
  | binary op left right => exact evalBin_respects h hcalls op left right
  | print args =>
    exact .bind (hcalls.printList args true) fun _ _ => .bind (h.write _) fun _ _ => .pure trivial
  | «if» cond thenBody elseBody =>
    refine .bind (hcalls.eval cond) fun c _ => .ite (fun _ => hcalls.eval thenBody) fun _ => ?_
    exact .ite (fun _ => hcalls.eval elseBody) fun _ => .pure trivial
  | «while» cond body => exact hcalls.whileLoop cond body .nil 0 (Nat.zero_le _)
  | «fun» name params body =>
    exact .bind (h.defineFun name params body) fun ok _ => .ite (fun _ => .pure trivial)
      fun _ => h.fail _
  | «return» value =>
    exact .bind (hcalls.eval value) fun v _ => .bind (h.setReturning v) fun _ _ => .pure trivial
  | block stmts => exact hcalls.evalList stmts .nil
  | call name args => exact call_respects h hcalls name args
  | list head next => exact .pure trivial
  | param name => exact .pure trivial

theorem eval_respects (id : NodeId) : fr.Allows (eval checks calls id) := by
  refine .bind .get fun vm _ => .ite (fun _ => .pure trivial) fun _ =>
    .bind (h.getNode id) fun node _ => ?_
  cases node with
  | none => exact h.fail _
  | some node => exact evalNode_respects h hcalls node

end Functions

/-- Whatever the number of rounds, the interpreter respects what its steps respect. -/
theorem respects_after (h : StepsRespect checks fr binding) (rounds : Nat) :
    CallsRespect fr binding (.after checks rounds) := by
  induction rounds with
  | zero =>
    exact ⟨fun _ => .pending, fun _ _ => .pending, fun _ _ => .pending, fun _ _ _ _ _ => .pending,
      fun _ _ _ => .pending, fun _ _ _ _ => .pending⟩
  | succ n ih =>
    exact ⟨eval_respects h ih, evalList_respects h ih, printList_respects h ih,
      fun cond body last guard hguard => whileLoop_respects h ih cond body last hguard,
      fun cell vals hvals => argLoop_respects h ih cell hvals,
      fun pcell i vals hvals => bindLoop_respects h ih pcell i hvals⟩

end Vm
end PureCOS.PureL
