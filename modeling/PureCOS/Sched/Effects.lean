import PureCOS.Sched.Policy

/-!
# What a step of the scheduler does

Every step is one of a few effects.  Most calls only tune scheduling parameters; the others
schedule on behalf of a call, complete a switch, wake a thread, or create, unlink or free
a node.  Invariants are proved from this list and never look into the calls again.
-/

namespace PureCOS.Sched

open Tuned

/-- The running thread of CPU `c` after `f`, ready to be scheduled away. -/
def State.modifyCurrent (s : State) (c : Nat) (f : Thread → Thread) : State :=
  s.modify (s.cpus c).current f

/-- Thread `t` comes into being in a linked node nobody runs on, or in a fresh one. -/
structure Creates (s : State) (t : Nat) (s' : State) : Prop where
  cpuCount : s'.cpuCount = s.cpuCount
  cpus : s'.cpus = s.cpus
  lock : s'.lock = s.lock
  doomed : s'.doomed = s.doomed
  other : ∀ u, u ≠ t → s'.threads u = s.threads u
  state : (s'.threads t).state = .ready
  runningCpu : (s'.threads t).runningCpu = none
  suspended : (s'.threads t).suspended = none
  id_ne_zero : (s'.threads t).id ≠ 0
  unused : thashFind (thashRemove s t) (s'.threads t).id = none
  buckets : s'.buckets = (thashInsert { thashRemove s t with threads := s'.threads } t).buckets
  node :
    (t ∈ s.threadList ∧ (s.threads t).runningCpu = none ∧ s'.threadList = s.threadList ∧
      s'.allocated = s.allocated) ∨
    (s.cpuCount ≤ t ∧ s.allocated t = false ∧ s'.threadList = t :: s.threadList ∧
      s'.allocated = Function.update s.allocated t true)

/-- The effects of steps in state `s`. -/
inductive Effect (s : State) : State × List Obs → Prop
  | tuned {s' : State} (h : Tuned False s s') : Effect s (s', [])
  | yield {s₁ : State} (c : Nat) (hc : c < s.cpuCount) (hlock : s.lock = none)
      (h : Tuned False s s₁) : Effect s (scheduleLocked s₁ c .yield)
  | sleep {s₁ : State} (c : Nat) (f : Thread → Thread) (hc : c < s.cpuCount) (hlock : s.lock = none)
      (h : Tuned False s s₁)
      (hf : ∀ x, (f x).runningCpu = x.runningCpu ∧ (f x).suspended = x.suspended ∧
        (f x).id = x.id ∧ (f x).state = .blocked) :
      Effect s
        ((scheduleLocked (s₁.modifyCurrent c f) c .sleep).1,
          .slept (s.cpus c).current :: (scheduleLocked (s₁.modifyCurrent c f) c .sleep).2)
  | token (c : Nat) (hc : c < s.cpuCount) (hlock : s.lock = none) :
      Effect s
        (s.modifyCurrent c fun thread => { thread with wakePending := false },
          [.returned (s.cpus c).current])
  | block {s₁ : State} (c : Nat) (hc : c < s.cpuCount) (hlock : s.lock = none)
      (h : Tuned False s s₁) (hpending : (s.threads (s.cpus c).current).wakePending = false) :
      Effect s (scheduleLocked
        (s₁.modifyCurrent c fun thread => { thread with state := .blocked }) c .block)
  | exit {s₁ : State} (c : Nat) (hc : c < s.cpuCount) (hlock : s.lock = none)
      (h : Tuned False s s₁) :
      Effect s (scheduleLocked
        (s₁.modifyCurrent c fun thread => { thread with state := .terminated }) c .exit)
  | finish (c : Nat) (hc : c < s.cpuCount) (hlock : s.lock = some c) : Effect s (finishSwitch s c)
  | wake {s₁ : State} (t : Nat) (hlock : s.lock = none) (h : Tuned False s s₁)
      (hblocked : (s.threads t).state = .blocked) :
      Effect s (enqueueWokenThread s₁ t, [.unblocked t])
  | arm (t : Nat) (hlock : s.lock = none) (hstate : (s.threads t).state ≠ .blocked) :
      Effect s (s.modify t fun thread => { thread with wakePending := true }, [.unblocked t])
  | create {s' : State} (t : Nat) (hlock : s.lock = none) (h : Creates s t s') :
      Effect s (s', [.created t])
  | unlink (t : Nat) (hoff : (s.threads t).runningCpu = none) : Effect s (unlinkThread s t, [])
  | free (t : Nat) (hdoomed : t ∈ s.doomed) : Effect s (threadNodeFree s t, [])

variable {s s' : State} {c t : Nat}

theorem Effect.stay (s : State) : Effect s (s, []) := .tuned (.refl s)

/-- A node given to a new thread is linked and off, or fresh from the allocator. -/
theorem allocThread_cases {fresh : Option Nat} (h : allocThread s fresh = (s', some t)) :
    (s' = s ∧ t ∈ s.threadList ∧ (s.threads t).runningCpu = none) ∨
    (s.cpuCount ≤ t ∧ s.allocated t = false ∧
      s' = { s with
        threadList := t :: s.threadList
        allocated := Function.update s.allocated t true }) := by
  unfold allocThread at h
  split at h
  next u hfind =>
    cases h
    have hu := List.find?_some hfind
    simp only [Bool.and_eq_true, decide_eq_true_eq] at hu
    exact .inl ⟨rfl, List.mem_of_find?_eq_some hfind, hu.2⟩
  · split at h
    · cases h
    split at h
    next hok =>
      cases h
      exact .inr ⟨hok.1, hok.2, rfl⟩
    · cases h

theorem allocThread_none {fresh : Option Nat} (h : allocThread s fresh = (s', none)) : s' = s := by
  unfold allocThread at h
  split at h
  · cases h
  split at h
  · cases h
    rfl
  · split at h <;> cases h
    rfl

/-- The search only stops at an id that is not in use; it never tries 0. -/
theorem searchId_spec {fuel id next id' next' : Nat} (hid : id ≠ 0)
    (h : searchId s fuel id next = some (id', next')) : id' ≠ 0 ∧ thashFind s id' = none := by
  induction fuel generalizing id next with
  | zero => cases h
  | succ fuel ih =>
    unfold searchId at h
    split at h
    next hnone =>
      cases h
      exact ⟨hid, Option.isNone_iff_eq_none.mp hnone⟩
    · refine ih ?_ h
      split <;> omega

theorem takeId_spec {id next : Nat} (h : takeId s = some (id, next)) :
    id ≠ 0 ∧ thashFind s id = none := by
  unfold takeId at h
  dsimp only at h
  split at h
  next hzero =>
    rw [hzero] at h
    exact searchId_spec (by decide) h
  next hid => exact searchId_spec hid h

theorem createThread_effect (hlock : s.lock = none) (fresh : Option Nat) (request : Request) :
    Effect s (createThread s fresh request) := by
  unfold createThread
  match ha : allocThread s fresh with
  | (s', none) =>
    rw [allocThread_none ha]
    exact .stay s
  | (s', some t) =>
    dsimp only
    split
    · exact .stay s
    next id nextId hid =>
    obtain ⟨hne, hunused⟩ := takeId_spec hid
    have hother : ∀ u, u ≠ t → ((thashRemove s' t).modify t fun _ =>
        newThread id (thashRemove s' t).minVruntime request).threads u = s'.threads u :=
      fun u hu => State.modify_of_ne hu
    have hself : ((thashRemove s' t).modify t fun _ =>
        newThread id (thashRemove s' t).minVruntime request).threads t =
          newThread id s'.minVruntime request := State.modify_self
    have hid' : (((thashRemove s' t).modify t fun _ =>
        newThread id (thashRemove s' t).minVruntime request).threads t).id = id :=
      congrArg Thread.id hself
    refine .create t hlock ?_
    rcases allocThread_cases ha with ⟨rfl, hmem, hoff⟩ | ⟨hheap, hfree, rfl⟩ <;>
      refine ⟨rfl, rfl, rfl, rfl, hother, congrArg Thread.state hself,
        congrArg Thread.runningCpu hself, congrArg Thread.suspended hself, hid'.trans_ne hne,
        (congrArg _ hid').trans hunused, rfl, ?_⟩
    · exact .inl ⟨hmem, hoff, rfl, rfl⟩
    · exact .inr ⟨hheap, hfree, rfl, rfl⟩

theorem schedulerYield_effect (hc : c < s.cpuCount)
    (hfree : s.lock = none ∨ (s.cpus c).preemptDepth ≠ 0) : Effect s (schedulerYield s c) := by
  unfold schedulerYield
  split
  · exact .tuned (modifyCpu rfl rfl)
  next hdepth => exact .yield c hc (hfree.resolve_right hdepth) (tuned_accountCurrent s c)

section Calls

variable (hc : c < s.cpuCount) (hlock : s.lock = none)

include hc hlock

theorem schedulerSleep_effect (milliseconds : Nat) :
    Effect s (schedulerSleep s c milliseconds) := by
  have htuned : Tuned False s (accountCurrent s c) := tuned_accountCurrent s c
  have hsleep := Effect.sleep c (fun thread =>
    { thread with
      wakeTick := saturate (accountCurrent s c).now milliseconds
      state := .blocked
      wakePending := false }) hc hlock htuned fun _ => ⟨rfl, rfl, rfl, rfl⟩
  rw [State.modifyCurrent, htuned.current] at hsleep
  unfold schedulerSleep
  dsimp only
  split
  · exact .stay s
  · exact hsleep

theorem schedulerBlock_effect : Effect s (schedulerBlock s c) := by
  have htuned : Tuned False s (accountCurrent s c) := tuned_accountCurrent s c
  unfold schedulerBlock
  dsimp only
  split
  · exact .token c hc hlock
  next hpending =>
    simp only [Bool.or_eq_true, not_or, Bool.not_eq_true] at hpending
    have hblock := Effect.block c hc hlock htuned hpending.2
    rw [State.modifyCurrent, htuned.current] at hblock
    exact hblock

theorem schedulerExit_effect : Effect s (schedulerExit s c) := by
  have htuned : Tuned False s (accountCurrent s c) := tuned_accountCurrent s c
  have hexit := Effect.exit c hc hlock htuned
  rw [State.modifyCurrent, htuned.current] at hexit
  unfold schedulerExit
  dsimp only
  split
  · exact .stay s
  · exact hexit

theorem schedulerOnTimerInterrupt_effect : Effect s (schedulerOnTimerInterrupt s c) := by
  have htuned : Tuned False s (accountCurrent s c) := tuned_accountCurrent s c
  have hflag : ∀ pending, Tuned False (accountCurrent s c)
      ((accountCurrent s c).modifyCpu c fun cpu => { cpu with reschedulePending := pending }) :=
    fun _ => modifyCpu rfl rfl
  unfold schedulerOnTimerInterrupt
  dsimp only
  split
  · exact .stay s
  split
  · split
    · exact .tuned (htuned.trans (hflag true))
    · exact .yield c hc hlock (htuned.trans (hflag false))
  · exact .tuned htuned

end Calls

theorem schedulerUnblock_effect (hlock : s.lock = none) (tid : BitVec 32) :
    Effect s (schedulerUnblock s tid) := by
  unfold schedulerUnblock
  split
  · exact .stay s
  split
  next hblocked => exact .wake _ hlock (tuned_updateMinVruntime s) hblocked
  next hrunning => exact .arm _ hlock (by simp [hrunning])
  next hready => exact .arm _ hlock (by simp [hready])
  · exact .stay s
  · exact .stay s

theorem schedulerLeaveKernel_tuned (s : State) (c : Nat) :
    Tuned False s (schedulerLeaveKernel s c) := by
  unfold schedulerLeaveKernel
  dsimp only
  have hflag : Tuned False s
      (s.modify (s.cpus c).current fun thread => { thread with kernelOnly := false }) :=
    modify ⟨rfl, rfl, rfl, rfl, rfl, .inl rfl⟩
  split
  · exact refl s
  split
  · split
    · exact hflag.trans (modify ⟨rfl, rfl, rfl, rfl, rfl, .inl rfl⟩)
    · exact hflag.trans (modify ⟨rfl, rfl, rfl, rfl, rfl, .inl rfl⟩)
  · exact hflag

/-- Every step has one of the effects. -/
theorem step_effect (s : State) (e : Event) : Effect s (step s e) := by
  unfold step
  split
  next hen =>
    simp only [enabled, Bool.and_eq_true] at hen
    cases e with
    | tick =>
      exact .tuned ⟨rfl, rfl, rfl, rfl, rfl, rfl, fun _ => rfl, fun _ => rfl, fun _ => .refl _⟩
    | yield c =>
      simp only [Event.cpu, decide_eq_true_eq, Bool.or_eq_true, Bool.and_eq_true] at hen
      exact schedulerYield_effect hen.1 (hen.2.imp id And.right)
    | sleep c milliseconds =>
      simp only [Event.cpu, decide_eq_true_eq] at hen
      simp only [exec]
      split
      · exact schedulerYield_effect hen.1 (.inl hen.2)
      · exact schedulerSleep_effect hen.1 hen.2 milliseconds
    | block c =>
      simp only [Event.cpu, decide_eq_true_eq] at hen
      exact schedulerBlock_effect hen.1 hen.2
    | unblock tid =>
      simp only [decide_eq_true_eq] at hen
      exact schedulerUnblock_effect hen.2 tid
    | exit c =>
      simp only [Event.cpu, decide_eq_true_eq] at hen
      exact schedulerExit_effect hen.1 hen.2
    | timer c =>
      simp only [Event.cpu, decide_eq_true_eq] at hen
      exact schedulerOnTimerInterrupt_effect hen.1 hen.2
    | create fresh request =>
      simp only [decide_eq_true_eq] at hen
      exact createThread_effect hen.2 fresh request
    | freeThread tid =>
      simp only [exec]
      unfold schedulerFreeThreadById
      split
      · exact .stay s
      · split
        next hok => exact .unlink _ hok.2.1
        · exact .stay s
    | finish c =>
      simp only [Event.cpu, decide_eq_true_eq] at hen
      exact .finish c hen.1 hen.2
    | nodeFree t =>
      by_cases hmem : t ∈ s.doomed
      · exact .free t hmem
      · simp only [exec, threadNodeFree, if_neg hmem]
        exact .stay s
    | preemptDisable c =>
      simp only [exec]
      unfold schedulerPreemptDisable
      split
      · exact .tuned (modifyCpu rfl rfl)
      · exact .stay s
    | preemptEnable c => exact .tuned (modifyCpu rfl rfl)
    | setQos tid qos =>
      simp only [exec]
      unfold schedulerSetQos
      split
      · exact .stay s
      · split
        · exact .stay s
        · exact .tuned (modify ⟨rfl, rfl, rfl, rfl, rfl, .inl rfl⟩)
    | setAffinity tid core =>
      simp only [exec]
      unfold schedulerSetAffinity
      split
      · exact .stay s
      · exact .tuned (modify ⟨rfl, rfl, rfl, rfl, rfl, .inl rfl⟩)
    | start c => exact .tuned (modifyCpu rfl rfl)
    | enterKernel c =>
      simp only [exec]
      unfold schedulerEnterKernel
      dsimp only
      split
      · exact .tuned (modify ⟨rfl, rfl, rfl, rfl, rfl, .inl rfl⟩)
      · exact .stay s
    | leaveKernel c => exact .tuned (schedulerLeaveKernel_tuned s c)
  · exact .stay s

end PureCOS.Sched
