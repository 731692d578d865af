import PureCOS.Sched.Scheduler

/-!
# What the scheduling policy may change

Accounting, virtual runtimes, fair shares and the choice of the next thread only tune
scheduling parameters.  Besides that `pick_next` wakes sleepers whose time has come, and
it returns the CPU's idle thread or a linked thread that CPU may take.
-/

namespace PureCOS.Sched

/-- `b` is `a` up to scheduling parameters; if `wake`, it may have been woken. -/
structure Thread.Kept (wake : Prop) (a b : Thread) : Prop where
  id : b.id = a.id
  idle : b.idle = a.idle
  wakePending : b.wakePending = a.wakePending
  suspended : b.suspended = a.suspended
  runningCpu : b.runningCpu = a.runningCpu
  state : b.state = a.state ∨ (wake ∧ a.state = .blocked ∧ b.state = .ready)

/-- `s'` is `s` up to scheduling parameters and, if `wake`, woken threads. -/
structure Tuned (wake : Prop) (s s' : State) : Prop where
  cpuCount : s'.cpuCount = s.cpuCount
  lock : s'.lock = s.lock
  threadList : s'.threadList = s.threadList
  buckets : s'.buckets = s.buckets
  allocated : s'.allocated = s.allocated
  doomed : s'.doomed = s.doomed
  current : ∀ c, (s'.cpus c).current = (s.cpus c).current
  previous : ∀ c, (s'.cpus c).previous = (s.cpus c).previous
  thread : ∀ t, (s.threads t).Kept wake (s'.threads t)

variable {wake : Prop} {s s' s'' : State} {c t : Nat}

theorem Thread.Kept.refl (a : Thread) : a.Kept wake a := ⟨rfl, rfl, rfl, rfl, rfl, .inl rfl⟩

theorem Thread.Kept.trans {a b d : Thread} (h : a.Kept wake b) (h' : b.Kept wake d) :
    a.Kept wake d := by
  refine ⟨h'.id.trans h.id, h'.idle.trans h.idle, h'.wakePending.trans h.wakePending,
    h'.suspended.trans h.suspended, h'.runningCpu.trans h.runningCpu, ?_⟩
  rcases h.state with h₁ | ⟨hw, h₁, h₁'⟩
  · rcases h'.state with h₂ | ⟨hw, h₂, h₂'⟩
    · exact .inl (h₂.trans h₁)
    · exact .inr ⟨hw, h₁ ▸ h₂, h₂'⟩
  · rcases h'.state with h₂ | ⟨-, h₂, -⟩
    · exact .inr ⟨hw, h₁, h₂.trans h₁'⟩
    · cases h₁'.symm.trans h₂

theorem Tuned.refl (s : State) : Tuned wake s s :=
  ⟨rfl, rfl, rfl, rfl, rfl, rfl, fun _ => rfl, fun _ => rfl, fun _ => .refl _⟩

theorem Tuned.trans (h : Tuned wake s s') (h' : Tuned wake s' s'') : Tuned wake s s'' :=
  ⟨h'.cpuCount.trans h.cpuCount, h'.lock.trans h.lock, h'.threadList.trans h.threadList,
    h'.buckets.trans h.buckets,
    h'.allocated.trans h.allocated, h'.doomed.trans h.doomed,
    fun c => (h'.current c).trans (h.current c), fun c => (h'.previous c).trans (h.previous c),
    fun t => (h.thread t).trans (h'.thread t)⟩

/-- Where nobody is woken, nobody is woken by more either. -/
theorem Tuned.weaken (h : Tuned False s s') : Tuned wake s s' :=
  { h with
    thread := fun t =>
      { h.thread t with state := (h.thread t).state.imp id fun hw => hw.1.elim } }

theorem Tuned.state_eq (h : Tuned False s s') (t : Nat) :
    (s'.threads t).state = (s.threads t).state :=
  (h.thread t).state.elim id fun hw => hw.1.elim

theorem Tuned.modify {f : Thread → Thread} (hf : (s.threads t).Kept wake (f (s.threads t))) :
    Tuned wake s (s.modify t f) := by
  refine ⟨rfl, rfl, rfl, rfl, rfl, rfl, fun _ => rfl, fun _ => rfl, fun u => ?_⟩
  by_cases hu : u = t
  · subst hu
    rw [State.modify_self]
    exact hf
  · rw [State.modify_of_ne hu]
    exact .refl _

theorem Tuned.modifyCpu {g : Cpu → Cpu} (hcur : (g (s.cpus c)).current = (s.cpus c).current)
    (hprev : (g (s.cpus c)).previous = (s.cpus c).previous) : Tuned wake s (s.modifyCpu c g) := by
  refine ⟨rfl, rfl, rfl, rfl, rfl, rfl, fun d => ?_, fun d => ?_, fun _ => .refl _⟩
  · by_cases hd : d = c
    · subst hd
      rw [State.modifyCpu_self, hcur]
    · rw [State.modifyCpu_of_ne hd]
  · by_cases hd : d = c
    · subst hd
      rw [State.modifyCpu_self, hprev]
    · rw [State.modifyCpu_of_ne hd]

/-! ## Wake-ups and shares -/

theorem tuned_updateMinVruntime (s : State) : Tuned wake s (updateMinVruntime s) := by
  unfold updateMinVruntime
  dsimp only
  split
  · exact ⟨rfl, rfl, rfl, rfl, rfl, rfl, fun _ => rfl, fun _ => rfl, fun _ => .refl _⟩
  · exact Tuned.refl s

theorem tuned_enqueueWokenThread (h : (s.threads t).state = .blocked) :
    Tuned True s (enqueueWokenThread s t) :=
  Tuned.modify ⟨rfl, rfl, rfl, rfl, rfl, .inr ⟨trivial, h, rfl⟩⟩

theorem tuned_wakeIfDue (s : State) (t : Nat) : Tuned True s (wakeIfDue s t) := by
  unfold wakeIfDue
  dsimp only
  split
  next h => exact tuned_enqueueWokenThread h.1
  · exact Tuned.refl s

theorem tuned_wakeSleepingThreads (s : State) : Tuned True s (wakeSleepingThreads s) := by
  unfold wakeSleepingThreads
  generalize s.threadList = ts
  induction ts generalizing s with
  | nil => exact Tuned.refl s
  | cons t ts ih => exact (tuned_wakeIfDue s t).trans (ih _)

theorem tuned_ensureFairRequest (s : State) (t : Nat) : Tuned False s (ensureFairRequest s t) := by
  unfold ensureFairRequest
  split
  · exact Tuned.refl s
  · exact Tuned.modify ⟨rfl, rfl, rfl, rfl, rfl, .inl rfl⟩

theorem tuned_accountCurrent (s : State) (c : Nat) : Tuned wake s (accountCurrent s c) := by
  have hclock : Tuned wake s (s.modifyCpu c fun cpu => { cpu with lastTick := s.now }) :=
    Tuned.modifyCpu rfl rfl
  unfold accountCurrent
  dsimp only
  split
  · exact Tuned.refl s
  split
  · exact hclock
  · split
    · exact hclock
    · exact hclock.trans (Tuned.modify ⟨rfl, rfl, rfl, rfl, rfl, .inl rfl⟩)

/-! ## The choice -/

theorem Tuned.selectable_eq (h : Tuned False s s') : selectable s' c t = selectable s c t := by
  unfold selectable
  simp only [h.state_eq, (h.thread t).runningCpu, h.current]

/-- The candidates seen so far are linked threads CPU `c` may take. -/
def Best.Sound (s : State) (c : Nat) (best : Best) : Prop :=
  ∀ t, best.eligible = some t ∨ best.fallback = some t →
    t ∈ s.threadList ∧ selectable s c t = true

theorem consider_spec (average : Nat) {best : Best} (hmem : t ∈ s.threadList)
    (hbest : best.Sound s c) : Tuned False s (consider c average (s, best) t).1 ∧
    (consider c average (s, best) t).2.Sound (consider c average (s, best) t).1 c := by
  simp only [consider]
  split
  next hsel =>
    rw [Bool.and_eq_true] at hsel
    have htuned := tuned_ensureFairRequest s t
    refine ⟨htuned, fun u hu => ?_⟩
    -- a candidate is the thread looked at or one of the old ones
    have hcand : u = t ∨ best.eligible = some u ∨ best.fallback = some u := by
      dsimp only at hu
      rcases hu with hu | hu
      · split at hu
        · exact .inl (Option.some.inj hu).symm
        · exact .inr (.inl hu)
      · split at hu
        · exact .inl (Option.some.inj hu).symm
        · exact .inr (.inr hu)
    rw [htuned.threadList, htuned.selectable_eq]
    rcases hcand with rfl | hold
    · exact ⟨hmem, hsel.1⟩
    · exact hbest u hold
  · exact ⟨Tuned.refl s, hbest⟩

theorem foldl_consider_spec (average : Nat) (ts : List Nat) {best : Best}
    (hts : ∀ t ∈ ts, t ∈ s.threadList) (hbest : best.Sound s c) :
    Tuned False s (ts.foldl (consider c average) (s, best)).1 ∧ (ts.foldl (consider c average)
      (s, best)).2.Sound (ts.foldl (consider c average) (s, best)).1 c := by
  induction ts generalizing s best with
  | nil => exact ⟨Tuned.refl s, hbest⟩
  | cons t ts ih =>
    obtain ⟨htuned, hsound⟩ := consider_spec average (hts t List.mem_cons_self) hbest
    obtain ⟨htuned', hsound'⟩ :=
      ih (fun u hu => htuned.threadList ▸ hts u (List.mem_cons_of_mem t hu)) hsound
    exact ⟨htuned.trans htuned', hsound'⟩

/-- `pick_next` tunes, wakes sleepers, and returns the idle thread or a thread CPU `c` may take. -/
theorem pickNext_spec (s : State) (c : Nat) :
    Tuned True s (pickNext s c).1 ∧ ((pickNext s c).2 = c ∨ (pickNext s c).2 ∈ s.threadList ∧
      selectable (pickNext s c).1 c (pickNext s c).2 = true) := by
  have hwoken : Tuned True s (updateMinVruntime (wakeSleepingThreads (updateMinVruntime s))) :=
    ((tuned_updateMinVruntime s).trans (tuned_wakeSleepingThreads _)).trans
      (tuned_updateMinVruntime _)
  unfold pickNext
  dsimp only
  generalize updateMinVruntime (wakeSleepingThreads (updateMinVruntime s)) = s₁ at hwoken ⊢
  have hnone : (⟨none, none⟩ : Best).Sound s₁ c := fun t ht => by simp at ht
  obtain ⟨htuned, hsound⟩ :=
    foldl_consider_spec (runqueueAvgVruntime s₁) s₁.threadList (fun _ h => h) hnone
  have hall := hwoken.trans htuned.weaken
  generalize s₁.threadList.foldl (consider c (runqueueAvgVruntime s₁)) (s₁, ⟨none, none⟩) = r
    at htuned hsound hall ⊢
  refine ⟨hall, ?_⟩
  cases he : r.2.eligible with
  | some t =>
    have := hsound t (.inl he)
    exact .inr (by simpa [he, ← hall.threadList] using this)
  | none =>
    cases hf : r.2.fallback with
    | some t =>
      have := hsound t (.inr hf)
      exact .inr (by simpa [he, hf, ← hall.threadList] using this)
    | none => exact .inl (by simp)

end PureCOS.Sched
