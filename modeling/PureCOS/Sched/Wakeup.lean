import PureCOS.Sched.ThreadTable

/-!
# No wake-up is lost

A wake-up of a thread that is not blocked leaves the token `wake_pending`, which the next
`scheduler_block` of that thread consumes by returning at once.  A wake-up of a blocked
thread makes it ready, and it returns from `scheduler_block` when it runs again.  So a
thread that is blocked has not been woken since it last returned from `scheduler_block`,
unless it called `scheduler_sleep`, which drops the token.

Every linked thread that has not ended can be woken by its id, as long as the id is not
negative as an `int`.
-/

namespace PureCOS.Sched

open Placement List State

/-- What the trace shows since thread `t` was created or last returned from `scheduler_block`. -/
def sinceReturn (t : Nat) (trace : List Obs) : List Obs :=
  trace.foldl (fun acc o => if o = .returned t ∨ o = .created t then [] else acc ++ [o]) []

/-- A wake-up of `t` took effect since then. -/
def Woken (t : Nat) (trace : List Obs) : Prop := Obs.unblocked t ∈ sinceReturn t trace

/-- `t` called `scheduler_sleep` since then. -/
def Slept (t : Nat) (trace : List Obs) : Prop := Obs.slept t ∈ sinceReturn t trace

variable {s s' : State} {trace : List Obs} {t u c : Nat}

theorem sinceReturn_snoc (o : Obs) :
    sinceReturn t (trace ++ [o]) =
      if o = .returned t ∨ o = .created t then [] else sinceReturn t trace ++ [o] := by
  simp [sinceReturn]

theorem mem_sinceReturn_snoc {x : Obs} (hx : ¬(x = .returned t ∨ x = .created t)) (o : Obs) :
    x ∈ sinceReturn t (trace ++ [o]) ↔
      o = x ∨ (x ∈ sinceReturn t trace ∧ o ≠ .returned t ∧ o ≠ .created t) := by
  rw [sinceReturn_snoc, ← not_or]
  split
  next h =>
    have hne : o ≠ x := fun heq => hx (heq ▸ h)
    simp [h, hne]
  next h => simp [h, or_comm, eq_comm]

theorem woken_snoc (o : Obs) :
    Woken t (trace ++ [o]) ↔
      o = .unblocked t ∨ (Woken t trace ∧ o ≠ .returned t ∧ o ≠ .created t) :=
  mem_sinceReturn_snoc (by simp) o

theorem slept_snoc (o : Obs) :
    Slept t (trace ++ [o]) ↔
      o = .slept t ∨ (Slept t trace ∧ o ≠ .returned t ∧ o ≠ .created t) :=
  mem_sinceReturn_snoc (by simp) o

/-! ## The invariant -/

/-- Thread `t` has no wake-up it could miss. -/
structure Safe (trace : List Obs) (t : Nat) (thread : Thread) : Prop where
  woken : Woken t trace → ¬ Slept t trace →
    thread.state ≠ .blocked ∧ (thread.wakePending = true ∨ thread.suspended = some .block)
  blocked : ¬ Slept t trace → thread.state = .blocked → thread.suspended = some .block

/-- Every thread is safe, and outside of a switch the thread a CPU runs is in no call. -/
structure Armed (trace : List Obs) (s : State) : Prop where
  safe : ∀ t, Safe trace t (s.threads t)
  running : ∀ c < s.cpuCount, (s.threads (s.cpus c).current).state = .running
  current : ∀ c < s.cpuCount, s.lock ≠ some c → (s.threads (s.cpus c).current).suspended = none

theorem Thread.Kept.blocked {a b : Thread} (hk : a.Kept True b) (hb : b.state = .blocked) :
    a.state = .blocked := by
  rcases hk.state with he | ⟨-, hblocked, -⟩
  · exact he ▸ hb
  · exact hblocked

theorem Safe.kept {a b : Thread} (h : Safe trace t a) (hk : a.Kept True b) : Safe trace t b := by
  refine ⟨fun hw hs => ?_, fun hs hb => hk.suspended.trans (h.blocked hs (hk.blocked hb))⟩
  obtain ⟨h₁, h₂⟩ := h.woken hw hs
  rw [hk.wakePending, hk.suspended]
  exact ⟨fun hb => h₁ (hk.blocked hb), h₂⟩

theorem Armed.tuned (h : Armed trace s) (ht : Tuned True s s') : Armed trace s' := by
  refine ⟨fun t => (h.safe t).kept (ht.thread t), fun c hc => ?_, fun c hc hl => ?_⟩
  · rw [ht.current]
    have hrun := h.running c (ht.cpuCount ▸ hc)
    rcases (ht.thread (s.cpus c).current).state with he | ⟨-, hb, -⟩
    · exact he.trans hrun
    · cases hrun.symm.trans hb
  · rw [ht.current, (ht.thread _).suspended]
    exact h.current c (ht.cpuCount ▸ hc) (ht.lock ▸ hl)

/-- What becomes visible about other threads does not matter to `t`. -/
theorem Safe.snoc_of_other {o : Obs} {thread : Thread} (h : Safe trace t thread)
    (ho : o ≠ .unblocked t ∧ o ≠ .slept t ∧ o ≠ .returned t ∧ o ≠ .created t) :
    Safe (trace ++ [o]) t thread := by
  obtain ⟨h₁, h₂, h₃, h₄⟩ := ho
  refine ⟨fun hw hs => ?_, fun hs => ?_⟩
  · rw [woken_snoc] at hw
    rw [slept_snoc] at hs
    exact h.woken ((hw.resolve_left h₁).1) fun hsl => hs (.inr ⟨hsl, h₃, h₄⟩)
  · rw [slept_snoc] at hs
    exact h.blocked fun hsl => hs (.inr ⟨hsl, h₃, h₄⟩)

/-- After its return nothing about a thread is pending; it only must not be blocked. -/
theorem Safe.of_reset {o : Obs} {thread : Thread} (ho : o = .returned t ∨ o = .created t)
    (hstate : thread.state ≠ .blocked) : Safe (trace ++ [o]) t thread := by
  refine ⟨fun hw _ => ?_, fun _ hb => absurd hb hstate⟩
  rw [woken_snoc] at hw
  rcases ho with rfl | rfl <;> simp at hw

/-! ## Switches -/

/-- What the caller of `schedule_locked` has to see to for its own thread. -/
structure Ready (trace : List Obs) (call : Call) (t : Nat) (thread : Thread) : Prop where
  woken : Woken t trace → ¬ Slept t trace → thread.state ≠ .blocked ∧ thread.wakePending = true
  blocked : ¬ Slept t trace → thread.state = .blocked → call = .block

theorem Ready.kept {call : Call} {a b : Thread} (h : Ready trace call t a) (hk : a.Kept True b) :
    Ready trace call t b := by
  refine ⟨fun hw hs => ?_, fun hs hb => h.blocked hs (hk.blocked hb)⟩
  obtain ⟨h₁, h₂⟩ := h.woken hw hs
  exact ⟨fun hb => h₁ (hk.blocked hb), hk.wakePending.trans h₂⟩

/-- A running thread is ready to yield or exit. -/
theorem Safe.ready {call : Call} {thread : Thread} (h : Safe trace t thread)
    (hrun : thread.suspended = none) : Ready trace call t thread := by
  refine ⟨fun hw hs => ?_, fun hs hb => ?_⟩
  · obtain ⟨h₁, h₂⟩ := h.woken hw hs
    exact ⟨h₁, h₂.resolve_right (by simp [hrun])⟩
  · cases (h.blocked hs hb).symm.trans hrun

theorem armed_scheduleLocked (hinv : Inv (placement s)) (hc : c < s.cpuCount) {call : Call}
    (hown : Ready trace call (s.cpus c).current (s.threads (s.cpus c).current))
    (hother : ∀ t, t ≠ (s.cpus c).current → Safe trace t (s.threads t))
    (hrunning : ∀ d < s.cpuCount, d ≠ c → (s.threads (s.cpus d).current).state = .running)
    (hcur : ∀ d < s.cpuCount, (s.threads (s.cpus d).current).suspended = none) :
    Armed (trace ++ (scheduleLocked s c call).2) (scheduleLocked s c call).1 := by
  obtain ⟨htuned, -⟩ := pickNext_spec s c
  unfold scheduleLocked
  dsimp only
  generalize pickNext s c = r at htuned
  have hown' := hown.kept (htuned.thread _)
  have hother' : ∀ t, t ≠ (s.cpus c).current → Safe trace t (r.1.threads t) :=
    fun t ht => (hother t ht).kept (htuned.thread t)
  have hsusp : ∀ d < s.cpuCount, (r.1.threads (s.cpus d).current).suspended = none :=
    fun d hd => (htuned.thread _).suspended.trans (hcur d hd)
  have hruns : ∀ d < s.cpuCount, d ≠ c → (r.1.threads (s.cpus d).current).state = .running := by
    intro d hd hdc
    rcases (htuned.thread (s.cpus d).current).state with he | ⟨-, hb, -⟩
    · exact he.trans (hrunning d hd hdc)
    · cases (hrunning d hd hdc).symm.trans hb
  have hapart : ∀ d < s.cpuCount, d ≠ c → (s.cpus d).current ≠ (s.cpus c).current :=
    fun d hd hdc => hinv.current_ne hd hc hdc
  generalize hp : (s.cpus c).current = prev at hown' hother' hapart
  split
  · -- the thread goes on: its call returns
    refine ⟨fun t => ?_, fun d hd => ?_, fun d hd _ => ?_⟩
    · by_cases htp : t = prev
      · subst htp
        simp only [unlock, modify_self]
        by_cases hcall : call = .block
        · subst hcall
          exact Safe.of_reset (.inl rfl) (by simp)
        · have hobs : returnObs t (some call) = [] := by cases call <;> simp_all [returnObs]
          rw [hobs, append_nil]
          exact ⟨fun hw hs => ⟨by simp, .inl (hown'.woken hw hs).2⟩, fun _ hb => by cases hb⟩
      · simp only [unlock, modify_of_ne htp]
        cases call with
        | block => exact (hother' t htp).snoc_of_other (by simp [Ne.symm htp])
        | _ => simpa [returnObs] using hother' t htp
    · simp only [unlock, modify_cpus, htuned.current]
      by_cases hdc : d = c
      · rw [hdc, hp, modify_self]
      · have hd' : d < s.cpuCount := htuned.cpuCount ▸ hd
        rw [modify_of_ne (hapart d hd' hdc)]
        exact hruns d hd' hdc
    · simp only [unlock, modify_cpus, htuned.current]
      by_cases hdp : (s.cpus d).current = prev
      · rw [hdp, modify_self]
        exact hdp ▸ hsusp d (htuned.cpuCount ▸ hd)
      · rw [modify_of_ne hdp]
        exact hsusp d (htuned.cpuCount ▸ hd)
  next hne =>
  have hprev : ((r.1.setLock c).cpus c).current = prev := (htuned.current c).trans hp
  rw [append_nil]
  -- the new thread only starts to run, the old one is now in its call
  have hnext : (switchTo (r.1.setLock c) c r.2 call).threads r.2 =
      { r.1.threads r.2 with state := .running, runningCpu := some c } := by
    simp only [switchTo, hprev, modifyCpu_threads, modify_self]
    rw [modify_of_ne hne]
    rfl
  have hold : (switchTo (r.1.setLock c) c r.2 call).threads prev =
      { r.1.threads prev with
        state := if (r.1.threads prev).state = .running then .ready else (r.1.threads prev).state
        preemptSaved := (r.1.cpus c).preemptDepth
        suspended := some call } := by
    simp only [switchTo, hprev, modifyCpu_threads]
    rw [modify_of_ne (Ne.symm hne), modify_self]
    rfl
  have hrest : ∀ t, t ≠ r.2 → t ≠ prev →
      (switchTo (r.1.setLock c) c r.2 call).threads t = r.1.threads t := by
    intro t h₁ h₂
    simp only [switchTo, hprev, modifyCpu_threads]
    rw [modify_of_ne h₁, modify_of_ne h₂]
    rfl
  have hcurc : ((switchTo (r.1.setLock c) c r.2 call).cpus c).current = r.2 := by
    simp only [switchTo]
    rw [modifyCpu_self]
  have hcurd : ∀ d, d ≠ c →
      ((switchTo (r.1.setLock c) c r.2 call).cpus d).current = (s.cpus d).current := by
    intro d hdc
    simp only [switchTo]
    rw [modifyCpu_of_ne hdc]
    exact htuned.current d
  refine ⟨fun t => ?_, fun d hd => ?_, fun d hd hl => ?_⟩
  · by_cases htn : t = r.2
    · subst htn
      rw [hnext]
      exact ⟨fun hw hs => ⟨by simp, ((hother' _ hne).woken hw hs).2⟩, fun _ hb => by cases hb⟩
    by_cases htp : t = prev
    · subst htp
      rw [hold]
      refine ⟨fun hw hs => ?_, fun hs hb => ?_⟩
      · obtain ⟨h₁, h₂⟩ := hown'.woken hw hs
        refine ⟨?_, .inl h₂⟩
        split
        · simp
        · exact h₁
      · dsimp only at hb ⊢
        split at hb
        · cases hb
        · rw [hown'.blocked hs hb]
    · rw [hrest t htn htp]
      exact hother' t htp
  · have hd' : d < s.cpuCount := htuned.cpuCount ▸ hd
    by_cases hdc : d = c
    · rw [hdc, hcurc, hnext]
    rw [hcurd d hdc]
    by_cases hdn : (s.cpus d).current = r.2
    · rw [hdn, hnext]
    · rw [hrest _ hdn (hapart d hd' hdc)]
      exact hruns d hd' hdc
  -- another CPU: its thread is neither of the two
  have hdc : d ≠ c := fun e => hl (e ▸ rfl)
  have hd' : d < s.cpuCount := htuned.cpuCount ▸ hd
  rw [hcurd d hdc]
  by_cases hdn : (s.cpus d).current = r.2
  · rw [hdn, hnext]
    exact hdn ▸ hsusp d hd'
  · rw [hrest _ hdn (hapart d hd' hdc)]
    exact hsusp d hd'

theorem armed_finishSwitch (hinv : Inv (placement s)) (hlock : s.lock = some c)
    (h : Armed trace s) : Armed (trace ++ (finishSwitch s c).2) (finishSwitch s c).1 := by
  obtain ⟨hc, prev, hprev⟩ := hinv.locked c hlock
  have hprev' : (s.cpus c).previous = some prev := hprev
  have hrun := h.running c hc
  generalize hcur : (s.cpus c).current = cur at hrun
  -- after the switch only `suspended` and the running CPU of two threads have changed
  have hthreads : ∀ t, ∃ cpu, (finishSwitch s c).1.threads t =
      { s.threads t with
        suspended := if t = cur then none else (s.threads t).suspended
        runningCpu := cpu } := by
    intro t
    have hset : ((s.modify cur fun thread => { thread with suspended := none }).modify prev
        fun thread => { thread with runningCpu := none }).threads t =
        { s.threads t with
          suspended := if t = cur then none else (s.threads t).suspended
          runningCpu := if t = prev then none else (s.threads t).runningCpu } := by
      by_cases htp : t = prev
      · subst htp
        rw [modify_self, if_pos rfl]
        by_cases htc : t = cur
        · subst htc
          rw [modify_self, if_pos rfl]
        · rw [modify_of_ne htc, if_neg htc]
      · rw [modify_of_ne htp, if_neg htp]
        by_cases htc : t = cur
        · subst htc
          rw [modify_self, if_pos rfl]
        · rw [modify_of_ne htc, if_neg htc]
    refine ⟨if t = prev then none else (s.threads t).runningCpu, ?_⟩
    rw [← hset]
    unfold finishSwitch
    dsimp only
    rw [modify_cpus, hprev', hcur]
    dsimp only
    split
    · unfold unlinkThread
      split <;> rfl
    · rfl
  have hobs : (finishSwitch s c).2 = returnObs cur (s.threads cur).suspended := by
    unfold finishSwitch
    dsimp only
    rw [modify_cpus, hprev', hcur]
  obtain ⟨hcur', hcount⟩ :
      (∀ d, ((finishSwitch s c).1.cpus d).current = (s.cpus d).current) ∧
      (finishSwitch s c).1.cpuCount = s.cpuCount := by
    rcases finishSwitch_cases hprev' with heq | ⟨-, heq⟩
    · exact ⟨congrFun (congrArg Placement.current heq), congrArg Placement.cpuCount heq⟩
    · exact ⟨congrFun (congrArg Placement.current heq), congrArg Placement.cpuCount heq⟩
  refine ⟨fun t => ?_, fun d hd => ?_, fun d hd _ => ?_⟩
  · obtain ⟨cpu, hthread⟩ := hthreads t
    rw [hthread, hobs]
    by_cases htc : t = cur
    · subst htc
      by_cases hcall : (s.threads t).suspended = some .block
      · rw [hcall]
        exact Safe.of_reset (.inl rfl) (by simp [hrun])
      have hnone : returnObs t (s.threads t).suspended = [] := by
        unfold returnObs
        split
        next hb => exact absurd hb hcall
        · rfl
      rw [hnone, append_nil]
      refine ⟨fun hw hs => ?_, fun _ hb => ?_⟩
      · obtain ⟨h₁, h₂⟩ := (h.safe t).woken hw hs
        exact ⟨h₁, .inl (h₂.resolve_right hcall)⟩
      · cases hrun.symm.trans hb
    · simp only [if_neg htc]
      have hsame : Safe trace t
          { s.threads t with suspended := (s.threads t).suspended, runningCpu := cpu } :=
        ⟨(h.safe t).woken, (h.safe t).blocked⟩
      unfold returnObs
      split
      · exact hsame.snoc_of_other (by simp [Ne.symm htc])
      · simpa using hsame
  · obtain ⟨cpu, hthread⟩ := hthreads (s.cpus d).current
    rw [hcur', hthread]
    exact h.running d (hcount ▸ hd)
  obtain ⟨cpu, hthread⟩ := hthreads (s.cpus d).current
  rw [hcur', hthread]
  split
  · rfl
  next hne =>
    refine h.current d (hcount ▸ hd) fun hl => hne ?_
    rw [hlock] at hl
    rw [← hcur, Option.some.inj hl]

/-! ## Runs -/

/-- A thread is changed, and the trace grows by something that concerns no other thread. -/
theorem Armed.modify {f : Thread → Thread} {o : Obs} (h : Armed trace s)
    (ho : ∀ u, u ≠ t → o ≠ .unblocked u ∧ o ≠ .slept u ∧ o ≠ .returned u ∧ o ≠ .created u)
    (hself : Safe (trace ++ [o]) t (f (s.threads t)))
    (hstate : (s.threads t).state = .running → (f (s.threads t)).state = .running)
    (hsusp : (f (s.threads t)).suspended = (s.threads t).suspended) :
    Armed (trace ++ [o]) (s.modify t f) := by
  refine ⟨fun u => ?_, fun c hc => ?_, fun c hc hl => ?_⟩
  · by_cases hu : u = t
    · subst hu
      rw [modify_self]
      exact hself
    · rw [modify_of_ne hu]
      exact (h.safe u).snoc_of_other (ho u hu)
  · rw [modify_cpus]
    by_cases hu : (s.cpus c).current = t
    · rw [hu, modify_self]
      exact hstate (hu ▸ h.running c hc)
    · rw [modify_of_ne hu]
      exact h.running c hc
  · rw [modify_cpus]
    by_cases hu : (s.cpus c).current = t
    · rw [hu, modify_self, hsusp]
      exact hu ▸ h.current c hc hl
    · rw [modify_of_ne hu]
      exact h.current c hc hl

/-- Scheduling on behalf of a call, after the calling thread has changed its own record. -/
theorem Armed.call {s₁ : State} {f : Thread → Thread} {trace' : List Obs} (h : Armed trace s)
    (hinv : Inv (placement s)) (hc : c < s.cpuCount) (hlock : s.lock = none) (ht : Tuned False s s₁)
    (hf : ∀ x, (f x).runningCpu = x.runningCpu ∧ (f x).suspended = x.suspended) (call : Call)
    (hown : Ready trace' call (s.cpus c).current (f (s₁.threads (s.cpus c).current)))
    (hother : ∀ u, u ≠ (s.cpus c).current → ∀ thread, Safe trace u thread → Safe trace' u thread) :
    Armed (trace' ++ (scheduleLocked (s₁.modifyCurrent c f) c call).2)
      (scheduleLocked (s₁.modifyCurrent c f) c call).1 := by
  have h₁ := h.tuned ht.weaken
  have hplace : placement (s₁.modifyCurrent c f) = placement s :=
    (placement_modify (hf _).1).trans (placement_tuned ht)
  have hcurrent : ∀ d, ((s₁.modifyCurrent c f).cpus d).current = (s.cpus d).current := ht.current
  have hself : (s₁.modifyCurrent c f).threads (s.cpus c).current =
      f (s₁.threads (s.cpus c).current) := by
    rw [modifyCurrent, ht.current, modify_self]
  have hrest : ∀ u, u ≠ (s.cpus c).current → (s₁.modifyCurrent c f).threads u = s₁.threads u := by
    intro u hu
    rw [modifyCurrent, ht.current, modify_of_ne hu]
  refine armed_scheduleLocked (hplace.symm ▸ hinv) (ht.cpuCount ▸ hc) ?_ (fun u hu => ?_)
    (fun d hd hdc => ?_) (fun d hd => ?_)
  · rw [hcurrent, hself]
    exact hown
  · rw [hcurrent] at hu
    rw [hrest u hu]
    exact hother u hu _ (h₁.safe u)
  · have hd' : d < s.cpuCount := ht.cpuCount ▸ hd
    have hne : (s.cpus d).current ≠ (s.cpus c).current := hinv.current_ne hd' hc hdc
    rw [hcurrent, hrest _ hne, ← ht.current]
    exact h₁.running d hd
  have hsusp := h₁.current d hd (by simp [ht.lock, hlock])
  rw [ht.current] at hsusp
  rw [hcurrent]
  by_cases hdc : (s.cpus d).current = (s.cpus c).current
  · rw [hdc] at hsusp ⊢
    rw [hself, (hf _).2]
    exact hsusp
  · rw [hrest _ hdc]
    exact hsusp

theorem Effect.armed {r : State × List Obs} (he : Effect s r) (hinv : Inv (placement s))
    (h : Armed trace s) : Armed (trace ++ r.2) r.1 := by
  have hready : ∀ {c : Nat} {s₁ : State} (call : Call), c < s.cpuCount → s.lock = none →
      Tuned False s s₁ → Ready trace call (s.cpus c).current (s₁.threads (s.cpus c).current) := by
    intro c s₁ call hc hlock ht
    have hkept : (s.threads (s.cpus c).current).Kept True (s₁.threads (s.cpus c).current) :=
      ht.weaken.thread _
    exact ((h.safe _).ready (h.current c hc (by simp [hlock]))).kept hkept
  cases he with
  | tuned ht =>
    rw [append_nil]
    exact h.tuned ht.weaken
  | yield c hc hlock ht =>
    have hcall := h.call (f := id) hinv hc hlock ht (fun _ => ⟨rfl, rfl⟩) .yield
      (hready .yield hc hlock ht) fun _ _ _ hs => hs
    rwa [State.modifyCurrent, State.modify, id, Function.update_eq_self] at hcall
  | sleep c f hc hlock ht hf =>
    have hslept : Slept (s.cpus c).current (trace ++ [.slept (s.cpus c).current]) :=
      (slept_snoc _).mpr (.inl rfl)
    have hcall := h.call hinv hc hlock ht (fun x => ⟨(hf x).1, (hf x).2.1⟩) .sleep
      ⟨fun _ hs => absurd hslept hs, fun hs => absurd hslept hs⟩
      fun u hu _ hs => hs.snoc_of_other (by simp [Ne.symm hu])
    simpa using hcall
  | token c hc hlock =>
    dsimp only [modifyCurrent]
    refine h.modify ?_ ?_ ?_ ?_
    · exact fun u hu => by simp [Ne.symm hu]
    · exact Safe.of_reset (.inl rfl) (by simp [h.running c hc])
    · exact id
    · rfl
  | block c hc hlock ht hpending =>
    refine h.call hinv hc hlock ht ?_ .block ⟨fun hw hs => ?_, fun _ _ => rfl⟩ fun _ _ _ hs => hs
    · exact fun _ => ⟨rfl, rfl⟩
    · have hp := ((hready .block hc hlock (Tuned.refl s)).woken hw hs).2
      cases hpending.symm.trans hp
  | exit c hc hlock ht =>
    refine h.call hinv hc hlock ht ?_ .exit ⟨fun hw hs => ?_, fun _ hb => by cases hb⟩
      fun _ _ _ hs => hs
    · exact fun _ => ⟨rfl, rfl⟩
    · exact ⟨by simp, ((hready .exit hc hlock ht).woken hw hs).2⟩
  | finish c hc hlock => exact armed_finishSwitch hinv hlock h
  | wake t hlock ht hblocked =>
    dsimp only [enqueueWokenThread]
    refine (h.tuned ht.weaken).modify ?_ ⟨fun _ hs => ?_, ?_⟩ ?_ ?_
    · exact fun u hu => by simp [Ne.symm hu]
    · rw [slept_snoc] at hs
      have hslept : ¬ Slept t trace := fun hsl => hs (.inr ⟨hsl, by simp, by simp⟩)
      have hsusp := (h.safe t).blocked hslept hblocked
      exact ⟨by simp, .inr ((ht.thread t).suspended.trans hsusp)⟩
    · exact fun _ hb => by cases hb
    · intro hrun
      cases ((ht.state_eq t).trans hblocked).symm.trans hrun
    · rfl
  | arm t hlock hstate =>
    dsimp only
    refine h.modify ?_ ⟨?_, ?_⟩ ?_ ?_
    · exact fun u hu => by simp [Ne.symm hu]
    · exact fun _ _ => ⟨hstate, .inl rfl⟩
    · exact fun _ hb => absurd hb hstate
    · exact id
    · rfl
  | create t hlock hcr =>
    have hne : ∀ c < s.cpuCount, (s.cpus c).current ≠ t := fun c hc he =>
      hcr.off hinv hc (mem_onStacks.mpr (.inl he.symm))
    refine ⟨fun u => ?_, fun c hc => ?_, fun c hc hl => ?_⟩
    · by_cases hu : u = t
      · subst hu
        exact Safe.of_reset (.inr rfl) (by simp [hcr.state])
      · rw [hcr.other u hu]
        exact (h.safe u).snoc_of_other (by simp [Ne.symm hu])
    · have hc' : c < s.cpuCount := hcr.cpuCount ▸ hc
      rw [hcr.cpus, hcr.other _ (hne c hc')]
      exact h.running c hc'
    · have hc' : c < s.cpuCount := hcr.cpuCount ▸ hc
      rw [hcr.cpus, hcr.other _ (hne c hc')]
      exact h.current c hc' (hcr.lock ▸ hl)
  | unlink t hoff =>
    rw [append_nil]
    unfold unlinkThread
    split
    · exact ⟨h.safe, h.running, h.current⟩
    · exact h
  | free t hdoomed =>
    rw [append_nil]
    unfold threadNodeFree
    rw [if_pos hdoomed]
    exact ⟨h.safe, h.running, h.current⟩

theorem armed_boot (n : Nat) : Armed [] (boot n) :=
  ⟨fun _ => ⟨fun hw => absurd hw (by simp [Woken, sinceReturn]), fun _ hb => by cases hb⟩,
    fun _ _ => rfl, fun _ _ _ => rfl⟩

theorem run_armed (n : Nat) (es : List Event) :
    Inv (placement (run (boot n) es).1) ∧ Armed (run (boot n) es).2 (run (boot n) es).1 :=
  Run.run_induction step (fun trace s => Inv (placement s) ∧ Armed trace s)
    (fun _ s e h => ⟨(step_move h.1 e).inv h.1, (step_effect s e).armed h.1 h.2⟩)
    ⟨boot_inv n, armed_boot n⟩ es

/-- The id of a linked thread finds it, unless it is negative as an `int`. -/
theorem Hashed.findThread (h : Hashed s) (ht : t ∈ s.threadList)
    (hid : (s.threads t).id < 2 ^ 31) :
    findThread s (BitVec.ofNat 32 (s.threads t).id) = some t := by
  have hnat : (BitVec.ofNat 32 (s.threads t).id).toNat = (s.threads t).id :=
    Nat.mod_eq_of_lt (by omega)
  have hsign : 0 ≤ (BitVec.ofNat 32 (s.threads t).id).toInt := by
    rw [BitVec.toInt_eq_toNat_cond, hnat]
    split <;> omega
  rw [Sched.findThread, if_pos hsign, hnat]
  exact h.find_iff.mpr ⟨ht, rfl⟩

/-- A wake-up makes a blocked thread ready and leaves the token with one that runs or is ready. -/
theorem Hashed.unblock (h : Hashed s) (hlock : s.lock = none) (ht : t ∈ s.threadList)
    (hid : (s.threads t).id < 2 ^ 31) (hstate : (s.threads t).state ≠ .terminated) :
    (step s (.unblock (BitVec.ofNat 32 (s.threads t).id))).2 = [.unblocked t] ∧
    if (s.threads t).state = .blocked then
      ((step s (.unblock (BitVec.ofNat 32 (s.threads t).id))).1.threads t).state = .ready
    else
      (step s (.unblock (BitVec.ofNat 32 (s.threads t).id))).1.threads t =
        { s.threads t with wakePending := true } := by
  have hstep : step s (.unblock (BitVec.ofNat 32 (s.threads t).id)) =
      schedulerUnblock s (BitVec.ofNat 32 (s.threads t).id) :=
    if_pos (by simp [enabled, Event.cpu, hlock])
  have hlive := (h.live t ht).2
  rw [hstep, schedulerUnblock, h.findThread ht hid]
  dsimp only
  split
  next hblocked =>
    rw [if_pos hblocked]
    exact ⟨rfl, by simp [enqueueWokenThread]⟩
  next hrunning =>
    rw [if_neg (by simp [hrunning])]
    exact ⟨rfl, by simp⟩
  next hready =>
    rw [if_neg (by simp [hready])]
    exact ⟨rfl, by simp⟩
  next hfree => exact absurd hfree hlive
  next hended => exact absurd hended hstate

/--
No wake-up is lost.  After every run, a blocked thread that did not call
`scheduler_sleep` has not been woken since it was created or last returned from
`scheduler_block`; a thread that has been woken since then returns at once when it
calls `scheduler_block`; and `scheduler_unblock` with the id of a linked thread that has
not ended does wake it: it becomes ready if it was blocked, and has the token otherwise.
-/
theorem no_lost_wakeup (n : Nat) (es : List Event) :
    let s := (run (boot n) es).1
    let trace := (run (boot n) es).2
    (∀ t, (s.threads t).state = .blocked → ¬ Slept t trace → ¬ Woken t trace) ∧
    (∀ c < n, s.lock = none →
      Woken (s.cpus c).current trace → ¬ Slept (s.cpus c).current trace →
      (step s (.block c)).2 = [.returned (s.cpus c).current] ∧
      ((step s (.block c)).1.threads (s.cpus c).current).state = .running) ∧
    (∀ t ∈ s.threadList, s.lock = none →
      (s.threads t).id < 2 ^ 31 → (s.threads t).state ≠ .terminated →
      let woken := step s (.unblock (BitVec.ofNat 32 (s.threads t).id))
      woken.2 = [.unblocked t] ∧
      if (s.threads t).state = .blocked then (woken.1.threads t).state = .ready
      else woken.1.threads t = { s.threads t with wakePending := true }) := by
  intro s trace
  obtain ⟨-, h⟩ := run_armed n es
  have hhashed : Hashed s := run_hashed n es
  refine ⟨fun t hb hs hw => ((h.safe t).woken hw hs).1 hb, fun c hc hlock hw hs => ?_,
    fun t ht hlock hid hstate => ?_⟩
  · have hc' : c < s.cpuCount := Nat.lt_of_lt_of_eq hc (run_cpuCount n es).symm
    have hsusp : (s.threads (s.cpus c).current).suspended = none :=
      h.current c hc' fun hl => by cases hlock.symm.trans hl
    have hpending : (s.threads (s.cpus c).current).wakePending = true :=
      ((h.safe _).woken hw hs).2.resolve_right fun hb => by cases hsusp.symm.trans hb
    have hstep : step s (.block c) =
        (s.modify (s.cpus c).current fun thread => { thread with wakePending := false },
          [.returned (s.cpus c).current]) := by
      unfold step
      rw [if_pos (by simp [enabled, Event.cpu, hc', hlock])]
      simp [exec, schedulerBlock, hpending]
    rw [hstep]
    exact ⟨rfl, by simpa using h.running c hc'⟩
  · exact hhashed.unblock hlock ht hid hstate

end PureCOS.Sched
