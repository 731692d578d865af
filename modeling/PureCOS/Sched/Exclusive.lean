import PureCOS.Sched.Effects
import PureCOS.Sched.Placement

/-!
# A thread runs on at most one CPU

The scheduler refines the abstract machine of `PureCOS.Sched.Placement`: each of its
steps is one of the moves there.  So in every reachable state, for any number of CPUs, no
stack is in use on two CPUs, a CPU never changes over to a thread another CPU is still
executing on, and nodes are freed or reused only when no CPU runs on them.
-/

namespace PureCOS.Sched

open Placement Function List State

/-- What the abstract machine sees of the scheduler. -/
def placement (s : State) : Placement where
  cpuCount := s.cpuCount
  current := fun c => (s.cpus c).current
  previous := fun c => (s.cpus c).previous
  runningCpu := fun t => (s.threads t).runningCpu
  listed := s.threadList
  allocated := s.allocated
  doomed := s.doomed
  lock := s.lock

variable {wake : Prop} {s s' : State} {c t : Nat}

/-! ## Changes the abstract machine does not see -/

theorem placement_tuned (h : Tuned wake s s') : placement s' = placement s := by
  simp only [placement, h.cpuCount, h.current, h.previous, (h.thread _).runningCpu, h.threadList,
    h.allocated, h.doomed, h.lock]

theorem placement_modify {f : Thread → Thread}
    (hf : (f (s.threads t)).runningCpu = (s.threads t).runningCpu) :
    placement (s.modify t f) = placement s := by
  have hrun : ∀ u, ((s.modify t f).threads u).runningCpu = (s.threads u).runningCpu := by
    intro u
    by_cases hu : u = t
    · subst hu
      rw [modify_self, hf]
    · rw [modify_of_ne hu]
  simp only [placement, hrun]
  rfl

/-! ## Switches -/

theorem placement_switchTo (s : State) (c next : Nat) (call : Call) :
    placement (switchTo (s.setLock c) c next call) = (placement s).select c next := by
  have hthreads : ∀ u, ((switchTo (s.setLock c) c next call).threads u).runningCpu =
      update (fun t => (s.threads t).runningCpu) next (some c) u := by
    intro u
    simp only [switchTo, setLock, modifyCpu_threads]
    by_cases hu : u = next
    · subst hu
      rw [modify_self, update_self]
    · rw [modify_of_ne hu, update_of_ne hu]
      exact congrFun (congrArg Placement.runningCpu (placement_modify rfl)) u
  have hcpus : ∀ d, ((switchTo (s.setLock c) c next call).cpus d).current =
        update (fun d => (s.cpus d).current) c next d ∧
      ((switchTo (s.setLock c) c next call).cpus d).previous =
        update (fun d => (s.cpus d).previous) c (some (s.cpus c).current) d := by
    intro d
    simp only [switchTo, setLock]
    by_cases hd : d = c
    · subst hd
      rw [modifyCpu_self, update_self, update_self]
      exact ⟨rfl, rfl⟩
    · rw [modifyCpu_of_ne hd, update_of_ne hd, update_of_ne hd]
      exact ⟨rfl, rfl⟩
  simp only [placement, Placement.select, hthreads, hcpus]
  rfl

/-- `schedule_locked` stays with the current thread or selects one that is on no other CPU. -/
theorem scheduleLocked_move (hc : c < s.cpuCount) (hlock : s.lock = none) (call : Call) :
    Move (placement s) (placement (scheduleLocked s c call).1) := by
  obtain ⟨htuned, hnext⟩ := pickNext_spec s c
  have hplace := placement_tuned htuned
  unfold scheduleLocked
  dsimp only
  generalize pickNext s c = r at htuned hnext hplace
  split
  · have hsame : placement ((r.1.modify (s.cpus c).current fun thread =>
        { thread with state := .running }).unlock) = placement s := by
      have hmod := placement_modify (s := r.1) (t := (s.cpus c).current)
        (f := fun thread => { thread with state := .running }) rfl
      rw [← hplace, ← hmod]
      simp only [placement, unlock]
      exact congrArg _ ((htuned.lock.trans hlock).symm)
    rw [hsame]
    exact .stay
  next hne =>
  rw [placement_switchTo, hplace]
  refine .select c r.2 hc hlock hne ?_
  refine hnext.imp id fun ⟨hmem, hsel⟩ => ⟨hmem, ?_⟩
  -- the current thread was excluded, so the thread was chosen as ready and off
  simp only [selectable, htuned.current, hne, decide_false, Bool.false_and, Bool.or_false,
    Bool.and_eq_true, decide_eq_true_eq] at hsel
  exact (htuned.thread r.2).runningCpu.symm.trans hsel.2

theorem placement_unlinkThread (hmem : t ∈ s.threadList) :
    placement (unlinkThread s t) = (placement s).retire t := by
  unfold unlinkThread
  rw [if_pos hmem]
  rfl

/-- `finish_switch` gives up the old stack, and unlinks its thread if that has ended. -/
theorem finishSwitch_cases {prev : Nat} (hprev : (s.cpus c).previous = some prev) :
    placement (finishSwitch s c).1 = (placement s).finish c prev ∨
      (prev ∈ s.threadList ∧
        placement (finishSwitch s c).1 = ((placement s).finish c prev).retire prev) := by
  -- the state in which the previous thread has left its stack
  let left : State :=
    ((s.modify (s.cpus c).current fun thread => { thread with suspended := none }).modify prev
      fun thread => { thread with runningCpu := none })
  have hleft : ∀ u : State, placement u = placement left →
      placement ((u.modifyCpu c fun cpu => { cpu with previous := none }).unlock) =
        (placement s).finish c prev := by
    intro u hu
    have hrun : ∀ t, (u.threads t).runningCpu =
        update (fun t => (s.threads t).runningCpu) prev none t := by
      intro t
      refine (congrFun (congrArg Placement.runningCpu hu) t).trans ?_
      by_cases ht : t = prev
      · subst ht
        simp only [left, placement, modify_self, update_self]
      · simp only [left, placement, modify_of_ne ht, update_of_ne ht]
        exact congrFun (congrArg Placement.runningCpu (placement_modify rfl)) t
    have hcur : ∀ d, (u.cpus d).current = (s.cpus d).current :=
      fun d => congrFun (congrArg Placement.current hu) d
    have hpre : ∀ d, (u.cpus d).previous = (s.cpus d).previous :=
      fun d => congrFun (congrArg Placement.previous hu) d
    have hcpus : ∀ d,
        ((u.modifyCpu c fun cpu => { cpu with previous := none }).cpus d).current =
          (s.cpus d).current ∧
        ((u.modifyCpu c fun cpu => { cpu with previous := none }).cpus d).previous =
          update (fun d => (s.cpus d).previous) c none d := by
      intro d
      by_cases hd : d = c
      · subst hd
        rw [modifyCpu_self, update_self]
        exact ⟨hcur d, rfl⟩
      · rw [modifyCpu_of_ne hd, update_of_ne hd]
        exact ⟨hcur d, hpre d⟩
    have hlisted := congrArg Placement.listed hu
    have hall := congrArg Placement.allocated hu
    have hdoom := congrArg Placement.doomed hu
    have hcount := congrArg Placement.cpuCount hu
    simp only [placement, unlock, hcpus, Placement.finish, modifyCpu_threads, hrun]
    simp only [placement] at hlisted hall hdoom hcount
    simp only [modifyCpu, hlisted, hall, hdoom, hcount]
    rfl
  unfold finishSwitch
  dsimp only
  rw [modify_cpus, hprev]
  dsimp only
  split
  · by_cases hmem : prev ∈ s.threadList
    · -- unlinking commutes with clearing the CPU's record
      have hret : placement (((unlinkThread left prev).modifyCpu c fun cpu =>
          { cpu with previous := none }).unlock) = ((placement s).finish c prev).retire prev := by
        rw [← hleft left rfl]
        unfold unlinkThread
        rw [if_pos (show prev ∈ left.threadList from hmem)]
        rfl
      exact .inr ⟨hmem, hret⟩
    · have hkeep : unlinkThread left prev = left := if_neg hmem
      exact .inl (hkeep.symm ▸ hleft left rfl)
  · exact .inl (hleft left rfl)

theorem finishSwitch_move (h : Inv (placement s)) (hc : c < s.cpuCount) (hlock : s.lock = some c) :
    Move (placement s) (placement (finishSwitch s c).1) := by
  obtain ⟨-, prev, hprev⟩ := h.locked c hlock
  rcases finishSwitch_cases hprev with heq | ⟨hmem, heq⟩
  · exact heq ▸ .finish c prev hc hlock hprev
  · exact heq ▸ .finishRetire c prev hc hlock hprev hmem

/-! ## The other effects -/

theorem unlinkThread_move (hoff : (s.threads t).runningCpu = none) :
    Move (placement s) (placement (unlinkThread s t)) := by
  by_cases hmem : t ∈ s.threadList
  · rw [placement_unlinkThread hmem]
    exact .retire t hmem hoff
  · unfold unlinkThread
    rw [if_neg hmem]
    exact .stay

theorem Creates.move (h : Creates s t s') : Move (placement s) (placement s') := by
  have hrun : ∀ u, (s'.threads u).runningCpu =
      update (fun u => (s.threads u).runningCpu) t none u := by
    intro u
    by_cases hu : u = t
    · subst hu
      rw [h.runningCpu, update_self]
    · rw [h.other u hu, update_of_ne hu]
  rcases h.node with ⟨-, hoff, hlist, hall⟩ | ⟨hheap, hfree, hlist, hall⟩
  · have hsame : placement s' = placement s := by
      simp only [placement, h.cpuCount, h.cpus, h.lock, h.doomed, hlist, hall, hrun]
      rw [← hoff, update_eq_self]
    rw [hsame]
    exact .stay
  · have hadopt : placement s' = (placement s).adopt t := by
      simp only [placement, Placement.adopt, h.cpuCount, h.cpus, h.lock, h.doomed,
        hlist, hall, hrun]
    rw [hadopt]
    exact .adopt t hheap hfree

theorem Creates.off (hinv : Inv (placement s)) (h : Creates s t s') {d : Nat}
    (hd : d < s.cpuCount) : t ∉ (placement s).onStacks d := by
  rcases h.node with ⟨-, hoff, -⟩ | ⟨hheap, hfree, -⟩
  · exact hinv.not_mem_onStacks hoff hd
  · exact fun hmem => hinv.not_known hheap hfree (hinv.running hd hmem).2

/-- A call that changes its own thread and then schedules. -/
theorem call_move {s₁ : State} {f : Thread → Thread} (hc : c < s.cpuCount) (hlock : s.lock = none)
    (h : Tuned False s s₁) (hf : ∀ x, (f x).runningCpu = x.runningCpu) (call : Call) :
    Move (placement s) (placement (scheduleLocked (s₁.modifyCurrent c f) c call).1) := by
  have hplace : placement (s₁.modifyCurrent c f) = placement s :=
    (placement_modify (hf _)).trans (placement_tuned h)
  rw [← hplace]
  exact scheduleLocked_move (s := s₁.modifyCurrent c f) (h.cpuCount ▸ hc) (h.lock.trans hlock) call

/-- Every effect is a move of the abstract machine. -/
theorem Effect.move {r : State × List Obs} (he : Effect s r) (h : Inv (placement s)) :
    Move (placement s) (placement r.1) := by
  cases he with
  | tuned ht => exact placement_tuned ht ▸ .stay
  | yield c hc hlock ht =>
    rw [← placement_tuned ht]
    exact scheduleLocked_move (ht.cpuCount ▸ hc) (ht.lock.trans hlock) .yield
  | sleep c f hc hlock ht hf => exact call_move hc hlock ht (fun x => (hf x).1) .sleep
  | token c hc hlock =>
    rw [modifyCurrent, placement_modify rfl]
    exact .stay
  | block c hc hlock ht _ =>
    refine call_move hc hlock ht ?_ .block
    exact fun _ => rfl
  | exit c hc hlock ht =>
    refine call_move hc hlock ht ?_ .exit
    exact fun _ => rfl
  | finish c hc hlock => exact finishSwitch_move h hc hlock
  | wake t hlock ht hblocked =>
    rw [placement_tuned (tuned_enqueueWokenThread ((ht.state_eq t).trans hblocked)),
      placement_tuned ht]
    exact .stay
  | arm t hlock hstate =>
    rw [placement_modify rfl]
    exact .stay
  | create t hlock hcr => exact hcr.move
  | unlink t hoff => exact unlinkThread_move hoff
  | free t hdoomed =>
    unfold threadNodeFree
    rw [if_pos hdoomed]
    exact .release t hdoomed

/-- Every step of the scheduler is a move of the abstract machine. -/
theorem step_move (h : Inv (placement s)) (e : Event) :
    Move (placement s) (placement (step s e).1) :=
  (step_effect s e).move h

theorem boot_inv (n : Nat) : Inv (placement (boot n)) := by
  refine ⟨fun c hc => ⟨rfl, .inl hc⟩, fun c _ t ht => ?_, fun c _ => .inr rfl, fun c hc => ?_,
    fun t ht => ?_, nodup_nil, fun t ht => ?_, nodup_nil⟩
  · cases ht
  · cases hc
  · cases ht
  · cases ht

theorem run_inv (n : Nat) (es : List Event) : Inv (placement (run (boot n) es).1) :=
  Run.run_induction step (fun _ s => Inv (placement s)) (fun _ _ e h => (step_move h e).inv h)
    (boot_inv n) es

/-- The number of CPUs never changes. -/
theorem Placement.Move.cpuCount_eq {p q : Placement} (hm : Move p q) : q.cpuCount = p.cpuCount := by
  cases hm <;> rfl

theorem run_cpuCount (n : Nat) (es : List Event) : (run (boot n) es).1.cpuCount = n :=
  (Run.run_induction step (fun _ s => Inv (placement s) ∧ s.cpuCount = n)
    (fun _ _ e h => ⟨(step_move h.1 e).inv h.1, (step_move h.1 e).cpuCount_eq.trans h.2⟩)
    ⟨boot_inv n, rfl⟩ es).2

theorem created_notMem_returnObs (u : Nat) (call : Option Call) :
    Obs.created t ∉ returnObs u call := by
  unfold returnObs
  split <;> simp

theorem created_notMem_scheduleLocked (s : State) (c : Nat) (call : Call) :
    Obs.created t ∉ (scheduleLocked s c call).2 := by
  unfold scheduleLocked
  dsimp only
  split
  · exact created_notMem_returnObs _ _
  · simp

/-- A node on which a thread is created is in use on no CPU. -/
theorem Effect.created_off {r : State × List Obs} (he : Effect s r) (h : Inv (placement s))
    (hobs : Obs.created t ∈ r.2) {d : Nat} (hd : d < s.cpuCount) :
    t ∉ (placement s).onStacks d := by
  cases he with
  | create u hlock hcr =>
    simp only [mem_singleton, Obs.created.injEq] at hobs
    exact hobs ▸ hcr.off h hd
  | yield c hc hlock ht => exact absurd hobs (created_notMem_scheduleLocked _ _ _)
  | sleep c f hc hlock ht hf =>
    rcases mem_cons.mp hobs with heq | hmem
    · cases heq
    · exact absurd hmem (created_notMem_scheduleLocked _ _ _)
  | block c hc hlock ht _ => exact absurd hobs (created_notMem_scheduleLocked _ _ _)
  | exit c hc hlock ht => exact absurd hobs (created_notMem_scheduleLocked _ _ _)
  | finish c hc hlock =>
    unfold finishSwitch at hobs
    dsimp only at hobs
    split at hobs <;> exact absurd hobs (created_notMem_returnObs _ _)
  | tuned _ => simp at hobs
  | token c hc hlock => simp at hobs
  | wake u hlock ht hblocked => simp at hobs
  | arm u hlock hstate => simp at hobs
  | unlink u hoff => simp at hobs
  | free u hdoomed => simp at hobs

/--
A thread runs on at most one CPU.  In every state reachable from boot, with any number of
CPUs: no thread is current on two CPUs; every stack in use is an idle thread's or
allocated; and in the next step a CPU changes over only to a thread no other CPU is
executing on, and a node is freed or given to a new thread only when no CPU runs on it.
-/
theorem thread_exclusive (n : Nat) (es : List Event) (e : Event) :
    let s := (run (boot n) es).1
    let s' := (step s e).1
    (∀ c < n, ∀ d < n, c ≠ d → (s.cpus c).current ≠ (s.cpus d).current) ∧
    (∀ c < n, ∀ t ∈ (placement s).onStacks c, t < n ∨ s.allocated t = true) ∧
    (∀ c < n, (s'.cpus c).current ≠ (s.cpus c).current →
      ∀ d < n, d ≠ c → (s'.cpus c).current ∉ (placement s).onStacks d) ∧
    (∀ t, s.allocated t = true → s'.allocated t = false → ∀ d < n, t ∉ (placement s).onStacks d) ∧
    (∀ t, Obs.created t ∈ (step s e).2 → ∀ d < n, t ∉ (placement s).onStacks d) := by
  intro s s'
  have h : Inv (placement s) := run_inv n es
  have hn : s.cpuCount = n := run_cpuCount n es
  have hmove : Move (placement s) (placement s') := step_move h e
  have hlt : ∀ {c}, c < n → c < (placement s).cpuCount := fun hc => Nat.lt_of_lt_of_eq hc hn.symm
  refine ⟨fun c hc d hd hne => h.current_ne (hlt hc) (hlt hd) hne, fun c hc t ht => ?_,
    fun c hc hnew d hd hne => ?_, fun t hall hfreed d hd => ?_, fun t hobs d hd => ?_⟩
  · rcases (h.running (hlt hc) ht).2 with hidle | hlisted
    · exact .inl (hn ▸ hidle)
    · exact .inr (h.listed t hlisted).2
  · exact hmove.selected_off h (hlt hc) hnew (hlt hd) hne
  · exact hmove.freed_off h hall hfreed (hlt hd)
  · exact (step_effect s e).created_off h hobs (hlt hd)

/-- A thread is created in node 5, runs on CPU 1 and ends there; its node is then doomed. -/
example :
    ((run (boot 2) [.create (some 5) ⟨none, false⟩, .yield 1, .finish 1]).1.cpus 1).current = 5 ∧
      (run (boot 2)
        [.create (some 5) ⟨none, false⟩, .yield 1, .finish 1, .exit 1, .finish 1]).1.doomed =
      [5] := by
  decide

end PureCOS.Sched
