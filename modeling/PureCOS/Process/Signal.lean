import PureCOS.Lib.Bytes

/-!
# Signals

Signal delivery and return.  A signal with a handler interrupts the user code: the kernel
stores the registers and the blocked mask in a frame on the user stack, below the red
zone, and lets the process run the handler.  The handler returns into the restorer, whose
`sigreturn` system call reads the frame back.

A task is one process with its user memory.  Between two entries into the kernel its code
is arbitrary, so a run is a sequence of events: what user code did, signals becoming
pending, timer interrupts, faults and system calls.

The registers come back as they were exactly if the instruction and stack pointer are user
addresses and `rax` fits the 32-bit result of `signal_return` (`signal_transparent`).
-/

namespace PureCOS.Process
namespace Signal

open Buffer

/-- A 64-bit register. -/
abbrev U64 := BitVec 64

/-- `struct syscall_regs` -/
structure Regs where
  r15 : U64
  r14 : U64
  r13 : U64
  r12 : U64
  r11 : U64
  r10 : U64
  r9 : U64
  r8 : U64
  rbp : U64
  rdi : U64
  rsi : U64
  rdx : U64
  rcx : U64
  rbx : U64
  rax : U64
  vector : U64
  err : U64
  rip : U64
  cs : U64
  rflags : U64
  rsp : U64
  ss : U64

structure Ksigaction where
  handler : U64
  mask : U64
  restorer : U64
  flags : BitVec 32

/-- The action of a zeroed table slot. -/
def Ksigaction.zero : Ksigaction := ⟨0, 0, 0, 0⟩

def sigkill : Nat := 9
def sigsegv : Nat := 11
def sigchld : Nat := 17
def sigcont : Nat := 18
def sigstop : Nat := 19
def sigtstp : Nat := 20
def sigttin : Nat := 21
def sigttou : Nat := 22
def signalCount : Nat := 32

def sigBit (sig : Nat) : U64 := 1#64 <<< (sig - 1)

def sigUnblockable : U64 := sigBit sigkill ||| sigBit sigstop

def sigDefaultIgnored : U64 :=
  sigBit sigchld ||| sigBit sigcont ||| sigBit sigstop ||| sigBit sigtstp ||| sigBit sigttin |||
    sigBit sigttou

def signalActionDefault : U64 := 0

def signalActionIgnore : U64 := 1

def signalFlagNodefer : BitVec 32 := 0x40000000
def signalFlagResethand : BitVec 32 := 0x80000000

def userCodeSelector : U64 := 0x1B

def userDataSelector : U64 := 0x23

def userFlagsMask : U64 := 0xCD5

def userRedZone : U64 := 128

def userTopAddress : Nat := 0x0000800000000000
def userStackTop : Nat := 0x00007FFFFFF00000
def kerrInval : Int := 22
def kerrNomem : Int := 12

/-! ## The task -/

/-- What user code may do with a page; `none` is a page mapped without user access. -/
inductive Access
  | absent
  | none
  | read
  | write
deriving DecidableEq

/-- The page is accessible to the user, for writing if asked. -/
def Access.allows (a : Access) (writable : Bool) : Bool :=
  match a with
  | .write => true
  | .read => !writable
  | _ => false

/--
A process in user mode.  The blocked mask never holds `SIGKILL` or `SIGSTOP`.  `grown n`
is the number of pages the kernel finds for the `n`-th growth of the stack.
-/
structure Task where
  regs : Regs
  mem : Buffer
  access : Nat → Access
  stackLimit : Nat
  stackLow : Nat
  grown : Nat → Nat
  growths : Nat
  signals : Option (Nat → Ksigaction)
  sigPending : U64
  sigBlocked : U64
  unblockable : sigBlocked &&& sigUnblockable = 0

/-- The task runs on, or it was ended by a signal. -/
inductive Outcome
  | running (t : Task)
  | exited (sig : Nat)

/-- What `signal_deliver` does: nothing the user sees, enter a handler, or end the process. -/
inductive Delivery
  | resumed (t : Task)
  | handler (t : Task) (sp : Nat)
  | exited (sig : Nat)

def Delivery.outcome : Delivery → Outcome
  | .resumed t => .running t
  | .handler t _ => .running t
  | .exited sig => .exited sig

theorem and_not_unblockable (mask : U64) : (mask &&& ~~~sigUnblockable) &&& sigUnblockable = 0 := by
  rw [BitVec.and_assoc]
  simp

variable (t : Task)

/-- Store a mask without the signals that cannot be blocked. -/
def Task.setBlocked (mask : U64) : Task :=
  { t with sigBlocked := mask &&& ~~~sigUnblockable, unblockable := and_not_unblockable mask }

def Task.setRax (value : U64) : Task := { t with regs := { t.regs with rax := value } }

/-- Slot `sig` of the action table; without a table every action is the default. -/
def Task.action (sig : Nat) : Ksigaction :=
  match t.signals with
  | some actions => actions sig
  | none => Ksigaction.zero

def actionIgnored (sig : Nat) : Bool :=
  let handler := (t.action sig).handler
  if t.signals.isSome && handler == signalActionIgnore then true
  else if t.signals.isSome && handler != signalActionDefault then false
  else sigDefaultIgnored &&& sigBit sig != 0

/-! ## Delivery -/

/-- `process_user_buffer`, for the pages that hold the range -/
def userBuffer (address size : Nat) (writable : Bool) : Bool :=
  size == 0 || (address != 0 && decide (address < userTopAddress) && decide (size ≤ userTopAddress -
    address) && (List.range ((address + size - 1) / 4096 - address / 4096 + 1)).all fun i =>
        (t.access (address / 4096 + i)).allows writable)

/-- The pages `[first, first + count)` become zero pages of the stack. -/
def Task.mapZero (first count : Nat) : Task :=
  { t with
    mem := fun a => if first ≤ a / 4096 ∧ a / 4096 < first + count then 0 else t.mem a
    access := fun p => if first ≤ p ∧ p < first + count then .write else t.access p }

/--
`process_handle_stack_fault`.  Mapping stops at a page that is there already or when no
more memory is found; what it mapped until then stays.
-/
def handleStackFault (address : Nat) : Task :=
  if t.stackLimit = 0 ∨ address ≥ userStackTop ∨ address < t.stackLimit then t
  else
    let first := address / 4096
    if first * 4096 ≥ t.stackLow then t
    else
      let pages := (t.stackLow - first * 4096) / 4096
      let vacant := ((List.range pages).takeWhile fun i => t.access (first + i) == .absent).length
      let got := min vacant (t.grown t.growths)
      let mapped := { t.mapZero first got with growths := t.growths + 1 }
      if got = pages then { mapped with stackLow := first * 4096 } else mapped

def frameWritable (address size : Nat) : Task × Bool :=
  if address ≥ userTopAddress ∨ size > userTopAddress - address then (t, false)
  else
    let t := (List.range ((address + size - 1) / 4096 - address / 4096 + 1)).foldl
      (fun t i => handleStackFault t ((address / 4096 + i) * 4096)) t
    (t, userBuffer t address size true)

structure SignalFrame where
  returnAddress : U64
  signo : U64
  savedMask : U64
  regs : Regs

/-- The frame as it lies in memory. -/
def SignalFrame.words (f : SignalFrame) : List U64 :=
  [f.returnAddress, f.signo, f.savedMask, f.regs.r15, f.regs.r14, f.regs.r13, f.regs.r12,
    f.regs.r11, f.regs.r10, f.regs.r9, f.regs.r8, f.regs.rbp, f.regs.rdi, f.regs.rsi, f.regs.rdx,
    f.regs.rcx, f.regs.rbx, f.regs.rax, f.regs.vector, f.regs.err, f.regs.rip, f.regs.cs,
    f.regs.rflags, f.regs.rsp, f.regs.ss]

def SignalFrame.ofWords (l : List U64) : SignalFrame where
  returnAddress := l.getD 0 0
  signo := l.getD 1 0
  savedMask := l.getD 2 0
  regs :=
    { r15 := l.getD 3 0, r14 := l.getD 4 0, r13 := l.getD 5 0, r12 := l.getD 6 0
      r11 := l.getD 7 0, r10 := l.getD 8 0, r9 := l.getD 9 0, r8 := l.getD 10 0
      rbp := l.getD 11 0, rdi := l.getD 12 0, rsi := l.getD 13 0, rdx := l.getD 14 0
      rcx := l.getD 15 0, rbx := l.getD 16 0, rax := l.getD 17 0, vector := l.getD 18 0
      err := l.getD 19 0, rip := l.getD 20 0, cs := l.getD 21 0, rflags := l.getD 22 0
      rsp := l.getD 23 0, ss := l.getD 24 0 }

/-- `sizeof(struct signal_frame)` -/
def frameBytes : Nat := 200

/-- Where the frame for a stack pointer lies. -/
def frameBase (rsp : U64) : U64 :=
  let frameSize : U64 := (BitVec.ofNat 64 frameBytes + 15) &&& ~~~15
  let top := (rsp - userRedZone) &&& ~~~15
  top - frameSize - 8

/-- The mask while the handler runs, before the signals that cannot be blocked are taken out. -/
def handlerMask (sig : Nat) (action : Ksigaction) : U64 :=
  let blocked := t.sigBlocked ||| action.mask
  if action.flags &&& signalFlagNodefer = 0 then blocked ||| sigBit sig else blocked

/-- The table after delivery: `SIGNAL_FLAG_RESETHAND` puts the default back. -/
def resetHandler (sig : Nat) (action : Ksigaction) : Option (Nat → Ksigaction) :=
  if action.flags &&& signalFlagResethand = 0 then t.signals
  else t.signals.map fun actions => Function.update actions sig Ksigaction.zero

def deliverHandler (sig : Nat) (action : Ksigaction) : Delivery :=
  let sp := frameBase t.regs.rsp
  match frameWritable t sp.toNat frameBytes with
  | (t, writable) =>
    if !writable || decide (action.restorer.toNat ≥ userTopAddress) || action.restorer == 0 then
      .exited sigsegv
    else
      let frame : SignalFrame :=
        { returnAddress := action.restorer
          signo := BitVec.ofNat 64 sig
          savedMask := t.sigBlocked
          regs := t.regs }
      .handler
        { t.setBlocked (handlerMask t sig action) with
          mem := writeWords t.mem sp.toNat frame.words
          signals := resetHandler t sig action
          regs :=
            { t.regs with
              rip := action.handler
              rsp := sp
              rdi := BitVec.ofNat 64 sig
              rsi := 0
              rdx := 0
              rax := 0 } }
        sp.toNat

def deliverable : U64 := t.sigPending &&& (~~~t.sigBlocked ||| sigUnblockable)

/-- The lowest deliverable signal. -/
def nextSignal (ready : U64) : Option Nat :=
  ((List.range signalCount).map (· + 1)).find? fun sig => ready &&& sigBit sig != 0

/--
The loop of `signal_deliver`.  A round that goes on has cleared one of the 32 pending
bits, so 33 rounds are enough.
-/
def deliverLoop : Nat → Task → Delivery
  | 0, t => .resumed t
  | rounds + 1, t =>
    match nextSignal (deliverable t) with
    | none => .resumed t
    | some sig =>
      let t := { t with sigPending := t.sigPending &&& ~~~sigBit sig }
      let action := t.action sig
      if sig = sigkill then .exited sigkill
      else if action.handler = signalActionIgnore then deliverLoop rounds t
      else if action.handler = signalActionDefault then
        if sigDefaultIgnored &&& sigBit sig ≠ 0 then deliverLoop rounds t else .exited sig
      else if action.handler.toNat ≥ userTopAddress then .exited sigsegv
      else deliverHandler t sig action

def signalDeliver : Delivery := deliverLoop (signalCount + 1) t

/-- `signal_fault`, up to the delivery; `none` ends the process. -/
def signalFault (sig : Nat) : Option Task :=
  if t.signals.isSome && decide ((t.action sig).handler.toNat > signalActionIgnore.toNat) &&
      t.sigBlocked &&& sigBit sig == 0 then
    some { t with sigPending := t.sigPending ||| sigBit sig }
  else
    none

/-- `signal_send` and `signal_raise_current`, for the process the signal goes to -/
def signalRaise (sig : Nat) : Task :=
  if sig == sigkill || !actionIgnored t sig then
    { t with sigPending := t.sigPending ||| sigBit sig }
  else
    t

/-! ## System calls -/

/-- The task with the mask and registers of a frame. -/
def restoreFrame (frame : SignalFrame) : Task :=
  { t.setBlocked frame.savedMask with
    regs :=
      { frame.regs with
        cs := userCodeSelector
        ss := userDataSelector
        rflags := (frame.regs.rflags &&& userFlagsMask) ||| 0x202 } }

/-- `signal_return` with its 32-bit result; `none` ends the process with `SIGSEGV`. -/
def signalReturn : Option (Task × BitVec 32) :=
  let base := t.regs.rsp - 8
  if base.toNat ≥ userTopAddress ∨ userBuffer t base.toNat frameBytes false = false then none
  else
    let frame := SignalFrame.ofWords (readWords t.mem base.toNat 25)
    if frame.regs.rip.toNat ≥ userTopAddress ∨ frame.regs.rsp.toNat ≥ userTopAddress then none
    else some (restoreFrame t frame, frame.regs.rax.setWidth 32)

/-- `signal_action_set`; `tableOk` says whether a table can be allocated. -/
def signalActionSet (sig : Nat) (action : Option Ksigaction) (tableOk : Bool) : Task × Int :=
  if sig < 1 ∨ sig > signalCount then (t, -kerrInval)
  else if action.isSome ∧ (sig = sigkill ∨ sig = sigstop) then (t, -kerrInval)
  else if t.signals.isNone ∧ tableOk = false then (t, -kerrNomem)
  else
    let actions := t.signals.getD fun _ => Ksigaction.zero
    match action with
    | none => ({ t with signals := some actions }, 0)
    | some action =>
      ({ t with
          signals := some (Function.update actions sig action)
          sigPending :=
            if action.handler = signalActionIgnore then t.sigPending &&& ~~~sigBit sig
            else t.sigPending },
        0)

/-- Argument `how` of `signal_mask_change`. -/
inductive MaskChange
  | block
  | unblock
  | setmask
  | invalid

/--
`signal_mask_change`.  The masks it combines hold no unblockable signal, so the filter of
`setBlocked` changes nothing here.
-/
def signalMaskChange (how : MaskChange) (set : Option U64) : Task × Int :=
  match set with
  | none => (t, 0)
  | some set =>
    let value := set &&& ~~~sigUnblockable
    match how with
    | .block => (t.setBlocked (t.sigBlocked ||| value), 0)
    | .unblock => (t.setBlocked (t.sigBlocked &&& ~~~value), 0)
    | .setmask => (t.setBlocked value, 0)
    | .invalid => (t, -kerrInval)

/--
A system call, told apart by what it does to the signal state.  Buffers in user memory a
call fills are part of what the user code did.
-/
inductive Call
  | sigreturn
  | sigaction (sig : Nat) (action : Option Ksigaction) (tableOk : Bool)
  | sigprocmask (how : MaskChange) (set : Option U64)
  | other (result : U64)

/-- `syscall_handler`, with its 64-bit result stored in `rax` -/
def syscall : Call → Outcome
  | .sigreturn =>
    match signalReturn t with
    | none => .exited sigsegv
    | some (t, result) => .running (t.setRax (result.signExtend 64))
  | .sigaction sig action tableOk =>
    let (t, result) := signalActionSet t sig action tableOk
    .running (t.setRax (BitVec.ofInt 64 result))
  | .sigprocmask how set =>
    let (t, result) := signalMaskChange t how set
    .running (t.setRax (BitVec.ofInt 64 result))
  | .other result => .running (t.setRax result)

/-! ## Runs -/

/-- What can happen to a task. -/
inductive Event
  /-- User instructions, with the registers, memory and mappings they lead to. -/
  | user (regs : Regs) (mem : Buffer) (access : Nat → Access)
  | raise (sig : Nat)
  | timer
  | fault (sig : Nat)
  | syscall (call : Call)

/-- The interrupted code runs in ring 3. -/
def userMode : Bool := t.regs.cs &&& 3 == 3

/-- `isr_handler` up to its call of `signal_deliver`, and whether it makes that call -/
def enter : Event → Outcome × Bool
  | .user regs mem access =>
    (.running
      { t with
        regs := { regs with cs := t.regs.cs, ss := t.regs.ss }
        mem := mem
        access := access },
      false)
  | .raise sig => (.running (signalRaise t sig), false)
  | .timer => (.running t, userMode t && t.sigPending &&& ~~~t.sigBlocked != 0)
  | .fault sig =>
    match signalFault t sig with
    | none => (.exited sig, false)
    | some t => (.running t, true)
  | .syscall call =>
    match syscall t call with
    | .running t => (.running t, userMode t)
    | .exited sig => (.exited sig, false)

/-- One event. -/
def step (e : Event) : Outcome :=
  match enter t e with
  | (.running t, true) => (signalDeliver t).outcome
  | (o, _) => o

/-- A run; it stops when the process ends. -/
def run : Task → List Event → Outcome
  | t, [] => .running t
  | t, e :: es =>
    match step t e with
    | .running t => run t es
    | .exited sig => .exited sig

end Signal
end PureCOS.Process
