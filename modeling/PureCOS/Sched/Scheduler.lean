import Mathlib.Algebra.Group.Nat.Defs
import PureCOS.Lib.Run

/-!
# The thread scheduler

All scheduler state is protected by `runqueue_lock`.  A critical section that switches to
another thread does not release the lock itself: it leaves the CPU in the middle of a
switch, and `finish_switch`, running on the stack of the new thread, completes it.  So a
step is one critical section up to a possible switch, or the completion of a switch.

Threads live in memory nodes, numbered by `Nat`.  Node `c` below the number of CPUs is the
static idle thread of CPU `c`; the others come from the allocator.  A node that has been
taken out of the list is freed after the lock is released, which is a step of its own.

What a step shows to the outside, that a call of `scheduler_block` returned or that a
wake-up took effect, is recorded as an observation.
-/

namespace PureCOS.Sched

open Function

inductive ThreadState
  | free
  | ready
  | running
  | blocked
  | terminated
deriving DecidableEq

/-- The scheduler call in which a thread gave up its CPU. -/
inductive Call
  | yield
  | sleep
  | block
  | exit
deriving DecidableEq

/--
`struct thread`, as far as scheduling reads it.  `suspended` is what the saved kernel stack
holds: the call the thread is in while it does not run, `none` before its first run.
-/
structure Thread where
  id : Nat
  state : ThreadState
  qos : Nat
  affinity : Option Nat
  affinityAuto : Bool
  ticksRemaining : Nat
  virtualRuntime : Nat
  virtualDeadline : Nat
  wakeTick : Nat
  userMode : Bool
  idle : Bool
  kernelOnly : Bool
  wakePending : Bool
  runningCpu : Option Nat
  preemptSaved : Nat
  suspended : Option Call

/-- `struct scheduler_cpu` -/
structure Cpu where
  current : Nat
  previous : Option Nat
  started : Bool
  lastTick : Nat
  preemptDepth : Nat
  reschedulePending : Bool

/-- The scheduler's state.  `doomed` are the unlinked nodes that are still to be freed. -/
structure State where
  cpuCount : Nat
  cpus : Nat → Cpu
  threads : Nat → Thread
  threadList : List Nat
  buckets : Nat → List Nat
  lock : Option Nat
  nextId : Nat
  minVruntime : Nat
  now : Nat
  allocated : Nat → Bool
  doomed : List Nat

/-- What becomes visible: thread events, by node. -/
inductive Obs
  | created (t : Nat)
  | slept (t : Nat)
  | unblocked (t : Nat)
  /-- A call of `scheduler_block` returned. -/
  | returned (t : Nat)
deriving DecidableEq

def uint64Max : Nat := 2 ^ 64 - 1

/-- `SCHEDULER_TARGET_LATENCY_MS` -/
def targetLatencyMs : Nat := 20

/-- `SCHEDULER_NICE_0_WEIGHT` -/
def nice0Weight : Nat := 1024

def qosDefault : Nat := 3
def qosUserInteractive : Nat := 5

def schedulerWeight (qos : Nat) : Nat :=
  [256, 512, 768, 1024, 1536, 2048].getD qos 1024

namespace State

/-- Change the thread in node `t`. -/
def modify (s : State) (t : Nat) (f : Thread → Thread) : State :=
  { s with threads := update s.threads t (f (s.threads t)) }

/-- Change the record of CPU `c`. -/
def modifyCpu (s : State) (c : Nat) (f : Cpu → Cpu) : State :=
  { s with cpus := update s.cpus c (f (s.cpus c)) }

def unlock (s : State) : State := { s with lock := none }

def setLock (s : State) (c : Nat) : State := { s with lock := some c }

variable {s : State} {t u c d : Nat} {f : Thread → Thread} {g : Cpu → Cpu}

@[simp] theorem modify_cpus : (s.modify t f).cpus = s.cpus := rfl

@[simp] theorem modify_self : (s.modify t f).threads t = f (s.threads t) :=
  update_self ..

theorem modify_of_ne (h : u ≠ t) : (s.modify t f).threads u = s.threads u :=
  update_of_ne h ..

@[simp] theorem modifyCpu_threads : (s.modifyCpu c g).threads = s.threads := rfl

@[simp] theorem modifyCpu_self : (s.modifyCpu c g).cpus c = g (s.cpus c) :=
  update_self ..

theorem modifyCpu_of_ne (h : d ≠ c) : (s.modifyCpu c g).cpus d = s.cpus d :=
  update_of_ne h ..

end State

/-! ## Threads by id -/

def thashIdx (tid : Nat) : Nat := (tid ^^^ (tid >>> 8)) % 256

variable (s : State)

def thashInsert (t : Nat) : State :=
  let i := thashIdx (s.threads t).id
  { s with buckets := update s.buckets i (t :: s.buckets i) }

def thashRemove (t : Nat) : State :=
  let i := thashIdx (s.threads t).id
  { s with buckets := update s.buckets i ((s.buckets i).erase t) }

def thashFind (tid : Nat) : Option Nat :=
  if tid = 0 then none
  else
    (s.buckets (thashIdx tid)).find? fun t =>
      decide ((s.threads t).id = tid) && decide ((s.threads t).state ≠ .free)

/-- The thread of an `int` id; ids from `2 ^ 31` on are negative there and find nothing. -/
def findThread (tid : BitVec 32) : Option Nat :=
  if 0 ≤ tid.toInt then thashFind s tid.toNat else none

/-! ## Fair shares -/

def threadOnRunqueue (t : Thread) : Bool :=
  !t.idle && (decide (t.state = .ready) || decide (t.state = .running))

def fairSliceMs (t : Nat) : Nat :=
  let totalWeight := s.threadList.foldl (fun total candidate =>
    if threadOnRunqueue (s.threads candidate) then
      total + schedulerWeight (s.threads candidate).qos
    else total) 0
  if totalWeight = 0 then targetLatencyMs
  else
    let slice := targetLatencyMs * schedulerWeight (s.threads t).qos / totalWeight
    let slice := if slice = 0 then 1 else slice
    if slice > targetLatencyMs then targetLatencyMs else slice

/-- A sum that stays at the largest value instead of wrapping. -/
def saturate (value delta : Nat) : Nat :=
  if uint64Max - value < delta then uint64Max else value + delta

def virtualDeadlineAfter (t : Thread) (sliceMs : Nat) : Nat :=
  let delta := sliceMs * nice0Weight / schedulerWeight t.qos
  saturate t.virtualRuntime (if delta = 0 then 1 else delta)

def ensureFairRequest (t : Nat) : State :=
  if (s.threads t).idle || decide ((s.threads t).ticksRemaining ≠ 0) then s
  else
    let slice := fairSliceMs s t
    s.modify t fun thread =>
      { thread with
        ticksRemaining := slice
        virtualDeadline := virtualDeadlineAfter thread slice }

def eligible (t : Thread) (c : Nat) : Bool :=
  if t.kernelOnly then decide (c = 0)
  else
    match t.affinity with
    | none => true
    | some core => decide (core = c)

def updateMinVruntime : State :=
  let minimum := s.threadList.foldl (fun minimum t =>
    if threadOnRunqueue (s.threads t) && decide ((s.threads t).virtualRuntime < minimum) then
      (s.threads t).virtualRuntime
    else minimum) uint64Max
  if minimum ≠ uint64Max ∧ minimum > s.minVruntime then { s with minVruntime := minimum } else s

def runqueueAvgVruntime : Nat :=
  let (totalWeight, weightedDelta) := s.threadList.foldl (fun (total, weighted) t =>
    let thread := s.threads t
    if threadOnRunqueue thread then
      let weight := schedulerWeight thread.qos
      let delta := thread.virtualRuntime - s.minVruntime
      let weighted :=
        if delta ≠ 0 ∧ weight > (uint64Max - weighted) / delta then uint64Max
        else if weighted ≠ uint64Max then weighted + delta * weight
        else weighted
      (total + weight, weighted)
    else (total, weighted)) (0, 0)
  if totalWeight = 0 then s.minVruntime
  else saturate s.minVruntime (weightedDelta / totalWeight)

def enqueueWokenThread (t : Nat) : State :=
  s.modify t fun thread =>
    { thread with
      virtualRuntime := max thread.virtualRuntime s.minVruntime
      ticksRemaining := 0
      virtualDeadline := 0
      wakeTick := 0
      state := .ready }

/-- Loop body of `wake_sleeping_threads`. -/
def wakeIfDue (t : Nat) : State :=
  let thread := s.threads t
  if thread.state = .blocked ∧ thread.wakeTick ≠ 0 ∧ s.now ≥ thread.wakeTick then
    enqueueWokenThread s t
  else s

def wakeSleepingThreads : State := s.threadList.foldl wakeIfDue s

/-! ## Selection and switch -/

/-- A thread CPU `c` may take: ready and on no stack in use, or its own current one. -/
def selectable (c t : Nat) : Bool :=
  let thread := s.threads t
  (decide (thread.state = .ready) && decide (thread.runningCpu = none)) ||
    (decide (t = (s.cpus c).current) &&
      (decide (thread.state = .ready) || decide (thread.state = .running)))

/-- The candidates `pick_next` has seen so far. -/
structure Best where
  eligible : Option Nat
  fallback : Option Nat

/-- `t` is better than the fallback candidate: it has run less, or its deadline is earlier. -/
def betterFallback (best : Option Nat) (t : Nat) : Bool :=
  match best with
  | none => true
  | some b =>
    decide ((s.threads t).virtualRuntime < (s.threads b).virtualRuntime) ||
      (decide ((s.threads t).virtualRuntime = (s.threads b).virtualRuntime) &&
        decide ((s.threads t).virtualDeadline < (s.threads b).virtualDeadline))

def betterEligible (best : Option Nat) (t : Nat) : Bool :=
  match best with
  | none => true
  | some b => decide ((s.threads t).virtualDeadline < (s.threads b).virtualDeadline)

/-- Loop body of `pick_next`. -/
def consider (c average : Nat) : State × Best → Nat → State × Best
  | (s, best), t =>
    if selectable s c t && eligible (s.threads t) c then
      let s := ensureFairRequest s t
      (s,
        { fallback := if betterFallback s best.fallback t then some t else best.fallback
          eligible :=
            if decide ((s.threads t).virtualRuntime ≤ average) &&
              betterEligible s best.eligible t then
              some t
            else best.eligible })
    else (s, best)

/-- `pick_next`; the idle thread of CPU `c` is node `c`. -/
def pickNext (c : Nat) : State × Nat :=
  let s := updateMinVruntime (wakeSleepingThreads (updateMinVruntime s))
  let (s, best) := s.threadList.foldl (consider c (runqueueAvgVruntime s)) (s, ⟨none, none⟩)
  (s, (best.eligible.orElse fun _ => best.fallback).getD c)

def accountCurrent (c : Nat) : State :=
  let cpu := s.cpus c
  if !cpu.started then s
  else
    let elapsed := s.now - cpu.lastTick
    let s := s.modifyCpu c fun cpu => { cpu with lastTick := s.now }
    if elapsed = 0 then s
    else
      let thread := s.threads cpu.current
      if thread.idle then s
      else
        let delta :=
          if elapsed > uint64Max / nice0Weight then uint64Max
          else elapsed * nice0Weight / schedulerWeight thread.qos
        let delta := if delta = 0 then 1 else delta
        s.modify cpu.current fun thread =>
          { thread with
            virtualRuntime := saturate thread.virtualRuntime delta
            ticksRemaining :=
              if elapsed ≥ thread.ticksRemaining then 0 else thread.ticksRemaining - elapsed }

/-- What a thread shows when its call of the scheduler returns. -/
def returnObs (t : Nat) : Option Call → List Obs
  | some .block => [.returned t]
  | _ => []

/-- The switch of `schedule_locked` to another thread, up to the change of stacks. -/
def switchTo (c next : Nat) (call : Call) : State :=
  let cpu := s.cpus c
  let s := s.modify cpu.current fun prev =>
    { prev with
      state := if prev.state = .running then .ready else prev.state
      preemptSaved := cpu.preemptDepth
      suspended := some call }
  let s := s.modify next fun next => { next with state := .running, runningCpu := some c }
  s.modifyCpu c fun cpu =>
    { cpu with
      previous := some cpu.current
      current := next
      preemptDepth := (s.threads next).preemptSaved }

/-- `schedule_locked`, called with the lock held on behalf of `call` -/
def scheduleLocked (c : Nat) (call : Call) : State × List Obs :=
  let prev := (s.cpus c).current
  let (s, next) := pickNext s c
  if next = prev then
    ((s.modify prev fun thread => { thread with state := .running }).unlock,
      returnObs prev (some call))
  else
    (switchTo (s.setLock c) c next call, [])

/-- Unlink a terminated thread from list and hash; its node is freed later. -/
def unlinkThread (t : Nat) : State :=
  if t ∈ s.threadList then
    let s := thashRemove s t
    { s with threadList := s.threadList.erase t, doomed := t :: s.doomed }
  else s

/-- `finish_switch`, after which the new thread is back in the call it was suspended in -/
def finishSwitch (c : Nat) : State × List Obs :=
  let current := (s.cpus c).current
  let obs := returnObs current (s.threads current).suspended
  let s := s.modify current fun thread => { thread with suspended := none }
  match (s.cpus c).previous with
  | none => (s.unlock, obs)
  | some previous =>
    let s := s.modify previous fun thread => { thread with runningCpu := none }
    let s :=
      if (s.threads previous).state = .terminated ∧ (s.threads previous).idle = false then
        unlinkThread s previous
      else s
    ((s.modifyCpu c fun cpu => { cpu with previous := none }).unlock, obs)

/-! ## The calls -/

/-- `scheduler_yield`, which is also what a reschedule interrupt does on a started CPU -/
def schedulerYield (c : Nat) : State × List Obs :=
  if (s.cpus c).preemptDepth ≠ 0 then
    (s.modifyCpu c fun cpu => { cpu with reschedulePending := true }, [])
  else scheduleLocked (accountCurrent s c) c .yield

/-- `scheduler_sleep` for a nonzero time -/
def schedulerSleep (c milliseconds : Nat) : State × List Obs :=
  let t := (s.cpus c).current
  if (s.threads t).idle then (s, [])
  else
    let s := accountCurrent s c
    let s := s.modify t fun thread =>
      { thread with
        wakeTick := saturate s.now milliseconds
        state := .blocked
        wakePending := false }
    let (s, obs) := scheduleLocked s c .sleep
    (s, .slept t :: obs)

def schedulerBlock (c : Nat) : State × List Obs :=
  let t := (s.cpus c).current
  if (s.threads t).idle || (s.threads t).wakePending then
    (s.modify t fun thread => { thread with wakePending := false }, [.returned t])
  else
    let s := accountCurrent s c
    scheduleLocked (s.modify t fun thread => { thread with state := .blocked }) c .block

def schedulerUnblock (tid : BitVec 32) : State × List Obs :=
  match findThread s tid with
  | none => (s, [])
  | some t =>
    match (s.threads t).state with
    | .blocked => (enqueueWokenThread (updateMinVruntime s) t, [.unblocked t])
    | .running | .ready =>
      (s.modify t fun thread => { thread with wakePending := true }, [.unblocked t])
    | .free | .terminated => (s, [])

/-- `scheduler_exit`; an idle thread that exits is a panic, so nothing follows. -/
def schedulerExit (c : Nat) : State × List Obs :=
  let t := (s.cpus c).current
  if (s.threads t).idle then (s, [])
  else
    let s := accountCurrent s c
    scheduleLocked (s.modify t fun thread => { thread with state := .terminated }) c .exit

def schedulerOnTimerInterrupt (c : Nat) : State × List Obs :=
  if !(s.cpus c).started then (s, [])
  else
    let s := accountCurrent s c
    let current := s.threads (s.cpus c).current
    if current.ticksRemaining = 0 ∨ current.idle = true then
      if (s.cpus c).preemptDepth ≠ 0 then
        (s.modifyCpu c fun cpu => { cpu with reschedulePending := true }, [])
      else scheduleLocked
        (s.modifyCpu c fun cpu => { cpu with reschedulePending := false }) c .yield
    else (s, [])

/-- What the creator of a thread chooses. -/
structure Request where
  affinity : Option Nat
  userMode : Bool
deriving DecidableEq

/--
The search for an unused id in `create_thread`.  The ids tried are all different as long as
there are fewer than 2³¹ threads, so one more try than there are threads is enough.
-/
def searchId (s : State) : Nat → Nat → Nat → Option (Nat × Nat)
  | 0, _, _ => none
  | fuel + 1, id, next =>
    if (thashFind s id).isNone then some (id, next)
    else
      let next := if (next + 1) % 2 ^ 32 = 0 then 1 else next + 1
      searchId s fuel next ((next + 1) % 2 ^ 32)

/-- The id of a new thread, and the counter after it. -/
def takeId : Option (Nat × Nat) :=
  let (id, next) := (s.nextId, (s.nextId + 1) % 2 ^ 32)
  let (id, next) := if id = 0 then (next, (next + 1) % 2 ^ 32) else (id, next)
  searchId s (s.threadList.length + 1) id next

/-- `alloc_thread`; `fresh` is what the allocator would return. -/
def allocThread (fresh : Option Nat) : State × Option Nat :=
  match s.threadList.find? fun t =>
      (decide ((s.threads t).state = .free) || decide ((s.threads t).state = .terminated)) &&
        decide ((s.threads t).runningCpu = none) with
  | some t => (s, some t)
  | none =>
    match fresh with
    | none => (s, none)
    | some t =>
      -- the allocator never returns a node that is in use
      if s.cpuCount ≤ t ∧ s.allocated t = false then
        ({ s with
            threadList := t :: s.threadList
            allocated := update s.allocated t true },
          some t)
      else (s, none)

/-- The thread `create_thread` sets up. -/
def newThread (id minVruntime : Nat) (request : Request) : Thread where
  id := id
  state := .ready
  qos := qosDefault
  affinity := request.affinity
  affinityAuto := false
  ticksRemaining := 0
  virtualRuntime := minVruntime
  virtualDeadline := 0
  wakeTick := 0
  userMode := request.userMode
  idle := false
  kernelOnly := request.userMode
  wakePending := false
  runningCpu := none
  preemptSaved := 0
  suspended := none

/-- `create_thread` for a valid affinity -/
def createThread (fresh : Option Nat) (request : Request) : State × List Obs :=
  match allocThread s fresh with
  | (s, none) => (s, [])
  | (linked, some t) =>
    let removed := thashRemove linked t
    match takeId removed with
    -- the search does not end, and nothing is created
    | none => (s, [])
    | some (id, nextId) =>
      let filled := removed.modify t fun _ => newThread id removed.minVruntime request
      (thashInsert { filled with nextId := nextId } t, [.created t])

/-- `scheduler_free_thread_by_id` up to the release of the lock -/
def schedulerFreeThreadById (tid : BitVec 32) : State :=
  match findThread s tid with
  | none => s
  | some t =>
    if (s.threads t).state = .terminated ∧ (s.threads t).runningCpu = none ∧
        (s.threads t).idle = false then
      unlinkThread s t
    else s

/-- `thread_node_free` of a node that was unlinked before -/
def threadNodeFree (t : Nat) : State :=
  if t ∈ s.doomed then
    { s with doomed := s.doomed.erase t, allocated := update s.allocated t false }
  else s

def schedulerPreemptDisable (c : Nat) : State :=
  if (s.cpus c).started then
    s.modifyCpu c fun cpu => { cpu with preemptDepth := cpu.preemptDepth + 1 }
  else s

/--
`scheduler_preempt_enable` up to the call of `scheduler_yield` it may end with, which is a
step of its own; an unbalanced call is a panic.
-/
def schedulerPreemptEnable (c : Nat) : State :=
  s.modifyCpu c fun cpu =>
    { cpu with
      preemptDepth := cpu.preemptDepth - 1
      reschedulePending :=
        if cpu.preemptDepth = 1 ∧ cpu.reschedulePending = true ∧ cpu.started = true then false
        else cpu.reschedulePending }

def schedulerSetQos (tid : BitVec 32) (qos : Nat) : State :=
  if qos > qosUserInteractive then s
  else
    match findThread s tid with
    | none => s
    | some t =>
      s.modify t fun thread =>
        { thread with qos := qos, ticksRemaining := 0, virtualDeadline := 0 }

/-- `scheduler_set_affinity` for a valid core -/
def schedulerSetAffinity (tid : BitVec 32) (core : Option Nat) : State :=
  match findThread s tid with
  | none => s
  | some t => s.modify t fun thread => { thread with affinity := core, affinityAuto := false }

/-- `scheduler_start` up to its call of `scheduler_yield` -/
def schedulerStart (c : Nat) : State :=
  s.modifyCpu c fun cpu => { cpu with started := true, lastTick := s.now }

/-- `scheduler_enter_kernel` up to the call of `scheduler_yield` it may end with -/
def schedulerEnterKernel (c : Nat) : State :=
  let t := (s.cpus c).current
  if (s.threads t).userMode then s.modify t fun thread => { thread with kernelOnly := true } else s

/-- The started CPU with the least load that satisfies `ok`, among the first `n`. -/
def leastLoaded (loads : Nat → Nat) (ok : Nat → Bool) (n : Nat) : Option Nat :=
  (List.range n).foldl (fun best c =>
    if (s.cpus c).started && ok c then
      match best with
      | none => some c
      | some b => if loads c < loads b then some c else best
    else best) none

def calculateCpuLoads (moving : Nat) : Nat → Nat :=
  let base : Nat → Nat := fun c =>
    let current := (s.cpus c).current
    if c < s.cpuCount ∧ (s.cpus c).started = true ∧ (s.threads current).idle = false ∧
        current ≠ moving then
      schedulerWeight (s.threads current).qos
    else 0
  s.threadList.foldl (fun loads t =>
    let thread := s.threads t
    if t = moving ∨ thread.state ≠ .ready ∨ thread.runningCpu ≠ none then loads
    else
      match leastLoaded s loads (eligible thread) s.cpuCount with
      | none => loads
      | some least => update loads least (loads least + schedulerWeight thread.qos)) base

/-- `scheduler_leave_kernel` up to the call of `scheduler_yield` it may end with -/
def schedulerLeaveKernel (c : Nat) : State :=
  let t := (s.cpus c).current
  let thread := s.threads t
  if !thread.userMode then s
  else
    let s := s.modify t fun thread => { thread with kernelOnly := false }
    if thread.affinity = none ∨ thread.affinityAuto = true then
      let loads := calculateCpuLoads s t
      let localLoad := loads c + schedulerWeight thread.qos
      -- another CPU is a target only if its load is below the load here with this thread
      match leastLoaded s loads (fun d => decide (d ≠ c) && decide (loads d < localLoad))
        s.cpuCount with
      | some target =>
        s.modify t fun thread => { thread with affinity := some target, affinityAuto := true }
      | none => s.modify t fun thread => { thread with affinity := none, affinityAuto := false }
    else s

/-! ## Runs -/

/-- What can happen. -/
inductive Event
  | tick
  | yield (c : Nat)
  | sleep (c milliseconds : Nat)
  | block (c : Nat)
  | unblock (tid : BitVec 32)
  | exit (c : Nat)
  | timer (c : Nat)
  | create (fresh : Option Nat) (request : Request)
  | freeThread (tid : BitVec 32)
  | finish (c : Nat)
  | nodeFree (t : Nat)
  | preemptDisable (c : Nat)
  | preemptEnable (c : Nat)
  | setQos (tid : BitVec 32) (qos : Nat)
  | setAffinity (tid : BitVec 32) (core : Option Nat)
  | start (c : Nat)
  | enterKernel (c : Nat)
  | leaveKernel (c : Nat)
deriving DecidableEq

/-- The CPU an event happens on, if it matters. -/
def Event.cpu : Event → Option Nat
  | .yield c | .sleep c _ | .block c | .exit c | .timer c | .finish c | .preemptDisable c
  | .preemptEnable c | .start c | .enterKernel c | .leaveKernel c => some c
  | _ => none

/--
Whether an event can happen now.  Critical sections wait for the lock; a switch is
completed by the CPU that holds it; nodes are freed outside of the lock, and what only
concerns a CPU's own record happens whenever that CPU is not in a critical section.
-/
def enabled (e : Event) : Bool :=
  (match e.cpu with
    | some c => decide (c < s.cpuCount)
    | none => true) &&
  match e with
  | .finish c => decide (s.lock = some c)
  | .tick | .nodeFree _ => true
  | .preemptDisable c | .preemptEnable c => decide (s.lock ≠ some c)
  | .yield c =>
    decide (s.lock = none) || (decide (s.lock ≠ some c) && decide ((s.cpus c).preemptDepth ≠ 0))
  | _ => decide (s.lock = none)

/-- The effect of an event. -/
def exec (s : State) : Event → State × List Obs
  | .tick => ({ s with now := s.now + 1 }, [])
  | .yield c => schedulerYield s c
  | .sleep c milliseconds =>
    if milliseconds = 0 then schedulerYield s c else schedulerSleep s c milliseconds
  | .block c => schedulerBlock s c
  | .unblock tid => schedulerUnblock s tid
  | .exit c => schedulerExit s c
  | .timer c => schedulerOnTimerInterrupt s c
  | .create fresh request => createThread s fresh request
  | .freeThread tid => (schedulerFreeThreadById s tid, [])
  | .finish c => finishSwitch s c
  | .nodeFree t => (threadNodeFree s t, [])
  | .preemptDisable c => (schedulerPreemptDisable s c, [])
  | .preemptEnable c => (schedulerPreemptEnable s c, [])
  | .setQos tid qos => (schedulerSetQos s tid qos, [])
  | .setAffinity tid core => (schedulerSetAffinity s tid core, [])
  | .start c => (schedulerStart s c, [])
  | .enterKernel c => (schedulerEnterKernel s c, [])
  | .leaveKernel c => (schedulerLeaveKernel s c, [])

/-- One step. -/
def step (e : Event) : State × List Obs := if enabled s e then exec s e else (s, [])

/-- A run, with what it shows. -/
def run (s : State) (es : List Event) : State × List Obs := Run.run step s es

/-- The idle thread of CPU `c` at boot. -/
def idleThread (c : Nat) : Thread where
  id := 0
  state := .running
  qos := 0
  affinity := some c
  affinityAuto := false
  ticksRemaining := 0
  virtualRuntime := 0
  virtualDeadline := 0
  wakeTick := 0
  userMode := false
  idle := true
  kernelOnly := false
  wakePending := false
  runningCpu := some c
  preemptSaved := 0
  suspended := none

/-- `scheduler_init` and `scheduler_init_cpu` on every CPU: each runs its idle thread. -/
def boot (cpuCount : Nat) : State where
  cpuCount := cpuCount
  cpus := fun c =>
    { current := c
      previous := none
      started := false
      lastTick := 0
      preemptDepth := 0
      reschedulePending := false }
  threads := idleThread
  threadList := []
  buckets := fun _ => []
  lock := none
  nextId := 1
  minVruntime := 0
  now := 0
  allocated := fun _ => false
  doomed := []

end PureCOS.Sched
