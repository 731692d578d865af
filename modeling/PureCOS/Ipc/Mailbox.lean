import PureCOS.Lib.Run
import PureCOS.Mm.OomSlab

/-!
# Mailboxes

`kernel/ipc/ipc.c`.  Mailboxes and messages are objects in slab memory: a mailbox has the address of
its first and of its last message and their number, a message has the address of the next one, its
sender, its size and its bytes.

`ipc_lock` is held by one thread at a time, and `holder` says what that thread has still to do.
Between two of its steps other threads use the slab: threads and signals get and free objects of
their own, and `ipc_cleanup` frees messages after it has let go of the lock.  A sender holds
`process_mutex` too, so no process exits and none is cleaned up meanwhile.

A process here is one descriptor, from `process_spawn` to `process_node_free`; process ids may come
back, descriptors do not.  What `process_lookup_by_pid` finds is part of the environment.  The loop
of `ipc_recv_any` is any number of passes.
-/

namespace PureCOS.Mailboxes

open Buffer Mm Function

def ipcMaxPayload : Nat := 2048
def ipcMaxDepth : Nat := 64
def ipcErrInvalid : Int := -1
def ipcErrNoProcess : Int := -2
def ipcErrEmpty : Int := -2
def ipcErrFull : Int := -3
def ipcErrTooBig : Int := -4
def ipcErrTooSmall : Int := -3

/-! ## Objects -/

/-- `sizeof(struct ipc_msg)` -/
def msgHeader : Nat := 16

/-- `sizeof(struct ipc_mbox)` -/
def mboxSize : Nat := 24

/-- A message: its sender and its bytes. -/
structure Message where
  source : BitVec 32
  data : List Byte
deriving DecidableEq

variable (m : Buffer) (box msg : Nat)

/-- `msg->from` -/
def msgFrom : BitVec 32 := BitVec.ofNat 32 (m.readU32 (msg + 8))

/-- `msg->size` -/
def msgSize : Nat := m.readU32 (msg + 12)

/-- `msg->data` -/
def msgData : List Byte := (List.range (msgSize m msg)).map fun i => m (msg + msgHeader + i)

/-- `box->head` -/
def boxHead : Nat := (m.readU64 box).toNat

/-- `box->tail` -/
def boxTail : Nat := (m.readU64 (box + 8)).toNat

/-- `box->count` -/
def boxCount : Nat := m.readU32 (box + 16)

def setBox (head tail count : Nat) : Buffer :=
  ((m.writeU64 box (BitVec.ofNat 64 head)).writeU64 (box + 8) (BitVec.ofNat 64 tail)).writeU32
    (box + 16) count

/-- A message is filled in. -/
def fillMsg (message : Message) : Buffer :=
  let m := setLinkNext m msg 0
  let m := m.writeU32 (msg + 8) message.source.toNat
  let m := m.writeU32 (msg + 12) message.data.length
  m.splice (msg + msgHeader) message.data.length fun i => message.data.getD i 0

/-! ## State -/

/-- What the thread that holds `ipc_lock` has still to do. -/
inductive Holder where
  | nobody
  /-- `ipc_send` before `mbox_get` -/
  | sending (target : Nat) (message : Message)
  /-- `ipc_send` with a mailbox -/
  | boxed (target : Nat) (message : Message)
  /-- `ipc_send` with an object for the message -/
  | filling (target : Nat) (message : Message) (msg : Nat)
  /-- `recv_locked` before `oom_slab_free` -/
  | receiving (msg : Nat)
deriving DecidableEq

/--
The slab, `process->ipc_mailbox` and `process->state` of every process, the holder of the lock, what
`ipc_cleanup` has still to free, and the objects that the other users of the slab have.
-/
structure Kernel where
  slab : Slab
  mailbox : Nat → Nat
  exited : Nat → Bool
  holder : Holder
  cleaning : Nat → Option (Nat × Nat)
  others : Nat → Option Nat

inductive Event where
  /--
  `ipc_send` up to the lock: what the process table has for `dest_pid`, data and size, a capability
  -/
  | send (destPid : Nat) (target : Option Nat) (source : BitVec 32) (data : Option (List Byte))
    (size : Nat)
      (capable : Bool)
  | getBox (page : Option Nat)
  | getMsg (page : Option Nat)
  | link
  /-- a pass of `ipc_recv_any` -/
  | recv (self : Option Nat) (buffer : Bool) (capacity : Nat) (capable : Bool)
  | release
  | exit (process : Nat)
  /-- `ipc_cleanup` up to the end of its lock section -/
  | cleanup (process : Nat)
  /-- one more object that `ipc_cleanup` frees -/
  | dispose (process : Nat)
  | otherAlloc (size : Nat) (page : Option Nat)
  | otherFree (ptr : Nat)
  | otherWrite (ptr i : Nat) (v : Byte)

/-- What threads see. -/
inductive Shown where
  | sent (target : Nat) (message : Message)
  | received (self : Nat) (message : Message)
  | failed (status : Int)
deriving DecidableEq

/-- A sender is at work, so `process_mutex` is held. -/
def Holder.Sends : Holder → Bool
  | .nobody => false
  | .receiving _ => false
  | _ => true

/-- `recv_locked` up to `oom_slab_free`; `none` if there is nothing to be freed. -/
def recvLocked (capacity : Nat) : Buffer × Option (Nat × Message) × Int :=
  if box = 0 ∨ boxHead m box = 0 then
    (m, none, ipcErrEmpty)
  else
    let msg := boxHead m box
    if capacity < msgSize m msg then
      (m, none, ipcErrTooSmall)
    else
      let head := linkNext m msg
      let tail := if head = 0 then 0 else boxTail m box
      (setBox m box head tail (boxCount m box + (2 ^ 32 - 1)),
        some (msg, ⟨msgFrom m msg, msgData m msg⟩), msgSize m msg)

/-- The link step of `ipc_send`: the message is filled in and becomes the last one. -/
def linkMsg (message : Message) : Buffer :=
  let m := fillMsg m msg message
  if boxTail m box = 0 then
    setBox m box msg msg (boxCount m box + 1)
  else
    let m := setLinkNext m (boxTail m box) msg
    setBox m box (boxHead m box) msg (boxCount m box + 1)

/-- The checks of `ipc_send` up to the lock. -/
def sendChecks (k : Kernel) (destPid : Nat) (target : Option Nat) (source : BitVec 32)
    (data : Option (List Byte)) (size : Nat) (capable : Bool) : Except Int (Nat × Message) :=
  if size > ipcMaxPayload then
    .error ipcErrTooBig
  else if destPid = 0 ∨ size = 0 ∨ capable = false then
    .error ipcErrInvalid
  else
    match data, target with
    | none, _ => .error ipcErrInvalid
    | some _, none => .error ipcErrNoProcess
    | some bytes, some p =>
      if k.exited p then .error ipcErrNoProcess
        else .ok (p, ⟨source, (List.range size).map (bytes.getD · 0)⟩)

/--
A step that cannot be made, because a lock is held or nothing is there to be done, changes nothing.
-/
def Kernel.step (k : Kernel) : Event → Kernel × List Shown
  | .send destPid target source data size capable =>
    if k.holder = .nobody then
      match sendChecks k destPid target source data size capable with
      | .error status => (k, [.failed status])
      | .ok (p, message) => ({ k with holder := .sending p message }, [])
    else (k, [])
  | .getBox page =>
    match k.holder with
    | .sending p message =>
      if k.mailbox p ≠ 0 then
        ({ k with holder := .boxed p message }, [])
      else
        let r := k.slab.alloc mboxSize page
        if r.2 = 0 then
          ({ k with holder := .nobody }, [.failed ipcErrNoProcess])
        else
          ({ k with
            slab := { r.1 with mem := r.1.mem.splice r.2 mboxSize zero }
            mailbox := update k.mailbox p r.2
            holder := .boxed p message }, [])
    | _ => (k, [])
  | .getMsg page =>
    match k.holder with
    | .boxed p message =>
      if ipcMaxDepth ≤ boxCount k.slab.mem (k.mailbox p) then
        ({ k with holder := .nobody }, [.failed ipcErrFull])
      else
        let r := k.slab.alloc (msgHeader + message.data.length) page
        if r.2 = 0 then
          ({ k with holder := .nobody }, [.failed ipcErrFull])
        else
          ({ k with slab := r.1, holder := .filling p message r.2 }, [])
    | _ => (k, [])
  | .link =>
    match k.holder with
    | .filling p message msg =>
      ({ k with
        slab := { k.slab with mem := linkMsg k.slab.mem (k.mailbox p) msg message }
        holder := .nobody }, [.sent p message])
    | _ => (k, [])
  | .recv self buffer capacity capable =>
    if buffer = false ∨ capacity = 0 ∨ capable = false then
      (k, [.failed ipcErrInvalid])
    else
      match self with
      | none => (k, [.failed ipcErrInvalid])
      | some p =>
        if k.holder = .nobody ∧ k.exited p = false then
          let r := recvLocked k.slab.mem (k.mailbox p) capacity
          match r.2.1 with
          | none => (k, [.failed r.2.2])
          | some (msg, message) =>
            ({ k with slab := { k.slab with mem := r.1 }, holder := .receiving msg },
              [.received p message])
        else (k, [])
  | .release =>
    match k.holder with
    | .receiving msg =>
      ({ k with slab := k.slab.free msg (msgHeader + msgSize k.slab.mem msg), holder := .nobody },
        [])
    | _ => (k, [])
  | .exit p => if k.holder.Sends then (k, []) else ({ k with exited := update k.exited p true }, [])
  | .cleanup p =>
    if k.holder = .nobody ∧ k.exited p = true ∧ k.mailbox p ≠ 0 then
      let box := k.mailbox p
      ({ k with
        slab := { k.slab with mem := setBox k.slab.mem box 0 0 0 }
        mailbox := update k.mailbox p 0
        cleaning := update k.cleaning p (some (boxHead k.slab.mem box, box)) }, [])
    else (k, [])
  | .dispose p =>
    match k.cleaning p with
    | none => (k, [])
    | some (msg, box) =>
      if msg = 0 then
        ({ k with slab := k.slab.free box mboxSize, cleaning := update k.cleaning p none }, [])
      else
        ({ k with
          slab := k.slab.free msg (msgHeader + msgSize k.slab.mem msg)
          cleaning := update k.cleaning p (some (linkNext k.slab.mem msg, box)) }, [])
  | .otherAlloc size page =>
    let r := k.slab.alloc size page
    if r.2 = 0 then (k, [])
      else ({ k with slab := r.1, others := update k.others r.2 (some size) }, [])
  | .otherFree ptr =>
    match k.others ptr with
    | none => (k, [])
    | some size => ({ k with slab := k.slab.free ptr size, others := update k.others ptr none }, [])
  | .otherWrite ptr i v =>
    match k.others ptr with
    | none => (k, [])
    | some size =>
      if i < size then
        ({ k with slab := { k.slab with mem := k.slab.mem.splice (ptr + i) 1 fun _ => v } }, [])
      else (k, [])

/-- `pmm_allocate_page` returns pages that the slab does not have. -/
def Kernel.Allowed (k : Kernel) : Event → Prop
  | .getBox page => k.slab.Fresh page
  | .getMsg page => k.slab.Fresh page
  | .otherAlloc _ page => k.slab.Fresh page
  | _ => True

instance (k : Kernel) : (e : Event) → Decidable (k.Allowed e)
  | .getBox page => inferInstanceAs (Decidable (k.slab.Fresh page))
  | .getMsg page => inferInstanceAs (Decidable (k.slab.Fresh page))
  | .otherAlloc _ page => inferInstanceAs (Decidable (k.slab.Fresh page))
  | .send .. => isTrue trivial
  | .link => isTrue trivial
  | .recv .. => isTrue trivial
  | .release => isTrue trivial
  | .exit _ => isTrue trivial
  | .cleanup _ => isTrue trivial
  | .dispose _ => isTrue trivial
  | .otherFree _ => isTrue trivial
  | .otherWrite .. => isTrue trivial

/-- The kernel at boot; memory may have any contents. -/
def Kernel.boot : Kernel where
  slab := ⟨m, fun _ => 0, fun _ => 0, 0, []⟩
  mailbox _ := 0
  exited _ := false
  holder := .nobody
  cleaning _ := none
  others _ := none

/-! ## What is proved -/

/-- The messages that were sent to a process, in the order of the lock. -/
def sentTo (p : Nat) (trace : List Shown) : List Message :=
  trace.filterMap fun
    | .sent target message => if target = p then some message else none
    | _ => none

/-- The messages that a process has received. -/
def receivedBy (p : Nat) (trace : List Shown) : List Message :=
  trace.filterMap fun
    | .received self message => if self = p then some message else none
    | _ => none

/-- A message in memory. -/
structure Cell where
  addr : Nat
  message : Message

/-- How messages lie in memory. -/
def msgCells : Cells Buffer Cell where
  addr := Cell.addr
  holds m cell := msgFrom m cell.addr = cell.message.source ∧
    msgData m cell.addr = cell.message.data
  next := linkNext

/-- Head, tail and number of the messages of a mailbox are right. -/
structure Mailbox (m : Buffer) (box : Nat) (queue : List Cell) : Prop where
  list : msgCells.Linked m (boxHead m box) queue 0
  tail : boxTail m box = (queue.getLast?.map Cell.addr).getD 0
  count : boxCount m box = queue.length
  depth : queue.length ≤ ipcMaxDepth

/-- What was received is in order, and a mailbox has the rest. -/
structure Kernel.Orderly (k : Kernel) (trace : List Shown) (p : Nat) : Prop where
  inOrder : receivedBy p trace <+: sentTo p trace
  rest : k.mailbox p ≠ 0 → ∃ queue, Mailbox k.slab.mem (k.mailbox p) queue ∧
    sentTo p trace = receivedBy p trace ++ queue.map Cell.message

/-- A pass with a buffer that is too small for the first message. -/
def Kernel.TooSmall (k : Kernel) (e : Event) : Prop :=
  ∃ p capacity, e = .recv (some p) true capacity true ∧ k.mailbox p ≠ 0 ∧ boxHead k.slab.mem
    (k.mailbox p) ≠ 0 ∧ capacity < msgSize k.slab.mem (boxHead k.slab.mem (k.mailbox p))

end PureCOS.Mailboxes
