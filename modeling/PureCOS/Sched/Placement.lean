import PureCOS.Sched.Scheduler

/-!
# Which thread runs where

The abstract machine below knows only who runs on which CPU, which nodes are linked,
allocated or about to be freed, and who holds the lock.  It has seven moves.  Their guards
keep every stack with one CPU, and every step of the scheduler is one of the moves
(`step_move`), whatever the scheduler's policy picks.
-/

namespace PureCOS.Sched

open Function List

/-! ## The abstract machine -/

/-- Who runs where, and which nodes exist. -/
structure Placement where
  cpuCount : Nat
  current : Nat → Nat
  previous : Nat → Option Nat
  runningCpu : Nat → Option Nat
  listed : List Nat
  allocated : Nat → Bool
  doomed : List Nat
  lock : Option Nat

namespace Placement

/-- The threads on whose stacks CPU `c` may be executing. -/
def onStacks (p : Placement) (c : Nat) : List Nat := p.current c :: (p.previous c).toList

/-- CPU `c` takes the lock and picks `next`; it still runs on the old stack. -/
def select (p : Placement) (c next : Nat) : Placement :=
  { p with
    lock := some c
    previous := update p.previous c (some (p.current c))
    current := update p.current c next
    runningCpu := update p.runningCpu next (some c) }

/-- CPU `c` has left the stack of `prev` and releases the lock. -/
def finish (p : Placement) (c prev : Nat) : Placement :=
  { p with
    lock := none
    previous := update p.previous c none
    runningCpu := update p.runningCpu prev none }

/-- Thread `t` is unlinked; its node will be freed. -/
def retire (p : Placement) (t : Nat) : Placement :=
  { p with listed := p.listed.erase t, doomed := t :: p.doomed }

/-- A fresh node `t` is linked. -/
def adopt (p : Placement) (t : Nat) : Placement :=
  { p with
    listed := t :: p.listed
    allocated := update p.allocated t true
    runningCpu := update p.runningCpu t none }

/-- A doomed node is freed. -/
def release (p : Placement) (t : Nat) : Placement :=
  { p with doomed := p.doomed.erase t, allocated := update p.allocated t false }

/-- One step of the abstract machine. -/
inductive Move (p : Placement) : Placement → Prop
  | stay : Move p p
  | select (c next : Nat) (hc : c < p.cpuCount) (hlock : p.lock = none)
      (hne : next ≠ p.current c)
      (hfree : next = c ∨ next ∈ p.listed ∧ p.runningCpu next = none) :
      Move p (p.select c next)
  | finish (c prev : Nat) (hc : c < p.cpuCount) (hlock : p.lock = some c)
      (hprev : p.previous c = some prev) :
      Move p (p.finish c prev)
  | finishRetire (c prev : Nat) (hc : c < p.cpuCount) (hlock : p.lock = some c)
      (hprev : p.previous c = some prev) (hlisted : prev ∈ p.listed) :
      Move p ((p.finish c prev).retire prev)
  | retire (t : Nat) (hlisted : t ∈ p.listed) (hoff : p.runningCpu t = none) : Move p (p.retire t)
  | adopt (t : Nat) (hheap : p.cpuCount ≤ t) (hfree : p.allocated t = false) : Move p (p.adopt t)
  | release (t : Nat) (hdoomed : t ∈ p.doomed) : Move p (p.release t)

/-- The node is an idle thread's or linked. -/
def Known (p : Placement) (t : Nat) : Prop := t < p.cpuCount ∨ t ∈ p.listed

/-- Every stack in use is marked with its CPU, and nodes in use are linked. -/
structure Inv (p : Placement) : Prop where
  current : ∀ c < p.cpuCount, p.runningCpu (p.current c) = some c ∧ p.Known (p.current c)
  previous : ∀ c < p.cpuCount, ∀ t, p.previous c = some t →
    p.runningCpu t = some c ∧ p.Known t ∧ t ≠ p.current c ∧ p.lock = some c
  idle : ∀ c < p.cpuCount, p.runningCpu c = none ∨ p.runningCpu c = some c
  locked : ∀ c, p.lock = some c → c < p.cpuCount ∧ ∃ t, p.previous c = some t
  listed : ∀ t ∈ p.listed, p.cpuCount ≤ t ∧ p.allocated t = true
  listedNodup : p.listed.Nodup
  doomed : ∀ t ∈ p.doomed, p.cpuCount ≤ t ∧ p.allocated t = true ∧ t ∉ p.listed
  doomedNodup : p.doomed.Nodup

variable {p q : Placement} {c d t : Nat}

theorem mem_onStacks : t ∈ p.onStacks c ↔ t = p.current c ∨ p.previous c = some t := by
  unfold onStacks
  cases p.previous c <;> simp [eq_comm]

theorem Inv.running (h : Inv p) (hc : c < p.cpuCount) (ht : t ∈ p.onStacks c) :
    p.runningCpu t = some c ∧ p.Known t := by
  rcases mem_onStacks.mp ht with rfl | hprev
  · exact h.current c hc
  · exact ⟨(h.previous c hc t hprev).1, (h.previous c hc t hprev).2.1⟩

/-- No stack is in use on two CPUs. -/
theorem Inv.onStacks_disjoint
    (h : Inv p) (hc : c < p.cpuCount) (hd : d < p.cpuCount) (hne : c ≠ d) (ht : t ∈ p.onStacks c) :
    t ∉ p.onStacks d := by
  intro ht'
  have hboth := (h.running hc ht).1.symm.trans (h.running hd ht').1
  exact hne (Option.some.inj hboth)

theorem Inv.current_ne (h : Inv p) (hc : c < p.cpuCount) (hd : d < p.cpuCount) (hne : c ≠ d) :
    p.current c ≠ p.current d := fun heq =>
  h.onStacks_disjoint hc hd hne (mem_onStacks.mpr (.inl rfl)) (mem_onStacks.mpr (.inl heq))

/-- A thread that is marked as running nowhere is on no CPU. -/
theorem Inv.not_mem_onStacks (h : Inv p) (hoff : p.runningCpu t = none) (hc : c < p.cpuCount) :
    t ∉ p.onStacks c := fun ht => by
  cases hoff.symm.trans (h.running hc ht).1

theorem Inv.not_known (h : Inv p) (hheap : p.cpuCount ≤ t) (hfree : p.allocated t = false) :
    ¬ p.Known t := by
  rintro (hlt | hmem)
  · omega
  · cases hfree.symm.trans (h.listed t hmem).2

/-- A thread CPU `c` may select is on the stack of no other CPU. -/
theorem Inv.selected_off (h : Inv p) (hfree : t = c ∨ t ∈ p.listed ∧ p.runningCpu t = none)
    (hc : c < p.cpuCount) (hd : d < p.cpuCount) (hne : d ≠ c) : t ∉ p.onStacks d := by
  rcases hfree with rfl | ⟨-, hoff⟩
  · intro ht
    have hrun := (h.running hd ht).1
    rcases h.idle t hc with hidle | hidle
    · cases hidle.symm.trans hrun
    · exact hne (Option.some.inj (hidle.symm.trans hrun)).symm
  · exact h.not_mem_onStacks hoff hd

theorem Inv.select {next : Nat} (h : Inv p) (hc : c < p.cpuCount) (hlock : p.lock = none)
    (hne : next ≠ p.current c) (hfree : next = c ∨ next ∈ p.listed ∧ p.runningCpu next = none) :
    Inv (p.select c next) := by
  have hnone : ∀ d < p.cpuCount, p.previous d = none := by
    intro d hd
    cases hp : p.previous d with
    | none => rfl
    | some t => cases hlock.symm.trans (h.previous d hd t hp).2.2.2
  have hother : ∀ d < p.cpuCount, d ≠ c → p.current d ≠ next := by
    intro d hd hdc heq
    exact h.selected_off hfree hc hd hdc (mem_onStacks.mpr (.inl heq.symm))
  refine ⟨fun d hd => ?_, fun d hd t ht => ?_, fun d hd => ?_, fun d hd => ?_, h.listed,
    h.listedNodup, h.doomed, h.doomedNodup⟩
  · by_cases hdc : d = c
    · subst hdc
      simp only [Placement.select, update_self]
      exact ⟨trivial, hfree.elim (fun e => .inl (e ▸ hd)) fun e => .inr e.1⟩
    · have := h.current d hd
      simp only [Placement.select, update_of_ne hdc, update_of_ne (hother d hd hdc)]
      exact this
  · by_cases hdc : d = c
    · subst hdc
      simp only [Placement.select, update_self, Option.some.injEq] at ht ⊢
      subst ht
      rw [update_of_ne hne.symm]
      exact ⟨(h.current d hd).1, (h.current d hd).2, hne.symm, trivial⟩
    · simp only [Placement.select, update_of_ne hdc] at ht
      cases (hnone d hd).symm.trans ht
  · by_cases hdn : d = next
    · subst hdn
      simp only [Placement.select, update_self]
      rcases hfree with rfl | ⟨hmem, -⟩
      · exact .inr rfl
      · exact absurd (h.listed d hmem).1 (by simpa [Placement.select] using hd)
    · simp only [Placement.select, update_of_ne hdn]
      exact h.idle d hd
  · simp only [Placement.select, Option.some.injEq] at hd
    subst hd
    exact ⟨hc, p.current c, update_self ..⟩

theorem Inv.finish {prev : Nat} (h : Inv p) (hc : c < p.cpuCount) (hlock : p.lock = some c)
    (hprev : p.previous c = some prev) : Inv (p.finish c prev) := by
  obtain ⟨hrun, -, hcur, -⟩ := h.previous c hc prev hprev
  have hother : ∀ d < p.cpuCount, p.current d ≠ prev := by
    intro d hd heq
    by_cases hdc : d = c
    · exact hcur (hdc ▸ heq.symm)
    · exact h.onStacks_disjoint hc hd (Ne.symm hdc) (mem_onStacks.mpr (.inr hprev))
        (mem_onStacks.mpr (.inl heq.symm))
  refine ⟨fun d hd => ?_, fun d hd t ht => ?_, fun d hd => ?_, fun d hd => ?_, h.listed,
    h.listedNodup, h.doomed, h.doomedNodup⟩
  · simp only [Placement.finish, update_of_ne (hother d hd)]
    exact h.current d hd
  · by_cases hdc : d = c
    · subst hdc
      simp [Placement.finish] at ht
    · simp only [Placement.finish, update_of_ne hdc] at ht
      have hl := (h.previous d hd t ht).2.2.2
      exact absurd (Option.some.inj (hl.symm.trans hlock)) hdc
  · by_cases hdp : d = prev
    · simp [Placement.finish, hdp]
    · simp only [Placement.finish, update_of_ne hdp]
      exact h.idle d hd
  · simp [Placement.finish] at hd

theorem Inv.retire (h : Inv p) (hlisted : t ∈ p.listed)
    (hoff : ∀ c < p.cpuCount, t ∉ p.onStacks c) : Inv (p.retire t) := by
  have hknown : ∀ c < p.cpuCount, ∀ u ∈ p.onStacks c, (p.retire t).Known u := by
    intro c hc u hu
    rcases (h.running hc hu).2 with hlt | hmem
    · exact .inl hlt
    · refine .inr ((mem_erase_of_ne ?_).mpr hmem)
      rintro rfl
      exact hoff c hc hu
  refine ⟨fun c hc => ⟨(h.current c hc).1, hknown c hc _ (mem_onStacks.mpr (.inl rfl))⟩,
    fun c hc u hu => ?_, h.idle, h.locked, fun u hu => h.listed u (mem_of_mem_erase hu),
    h.listedNodup.erase t, fun u hu => ?_, ?_⟩
  · obtain ⟨h₁, -, h₃⟩ := h.previous c hc u hu
    exact ⟨h₁, hknown c hc u (mem_onStacks.mpr (.inr hu)), h₃⟩
  · rcases mem_cons.mp hu with rfl | hu
    · exact ⟨(h.listed u hlisted).1, (h.listed u hlisted).2, h.listedNodup.not_mem_erase⟩
    · obtain ⟨h₁, h₂, h₃⟩ := h.doomed u hu
      exact ⟨h₁, h₂, fun hmem => h₃ (mem_of_mem_erase hmem)⟩
  · exact nodup_cons.mpr ⟨fun hmem => (h.doomed t hmem).2.2 hlisted, h.doomedNodup⟩

theorem Inv.adopt (h : Inv p) (hheap : p.cpuCount ≤ t) (hfree : p.allocated t = false) :
    Inv (p.adopt t) := by
  have hnot := h.not_known hheap hfree
  have hne : ∀ {u}, p.Known u → u ≠ t := fun hu e => hnot (e ▸ hu)
  have hkept : ∀ {u}, p.Known u → (p.adopt t).runningCpu u = p.runningCpu u ∧ (p.adopt t).Known u :=
    fun hu => ⟨update_of_ne (hne hu) .., hu.imp id (mem_cons_of_mem t)⟩
  refine ⟨fun c hc => ?_, fun c hc u hu => ?_, fun c hc => ?_, h.locked, fun u hu => ?_, ?_,
    fun u hu => ?_, h.doomedNodup⟩
  · obtain ⟨h₁, h₂⟩ := h.current c hc
    exact ⟨(hkept h₂).1.trans h₁, (hkept h₂).2⟩
  · obtain ⟨h₁, h₂, h₃⟩ := h.previous c hc u hu
    exact ⟨(hkept h₂).1.trans h₁, (hkept h₂).2, h₃⟩
  · rw [(hkept (.inl hc)).1]
    exact h.idle c hc
  · rcases mem_cons.mp hu with rfl | hu
    · exact ⟨hheap, update_self ..⟩
    · exact ⟨(h.listed u hu).1, (update_of_ne (hne (.inr hu)) ..).trans (h.listed u hu).2⟩
  · exact nodup_cons.mpr ⟨fun hmem => hnot (.inr hmem), h.listedNodup⟩
  obtain ⟨h₁, h₂, h₃⟩ := h.doomed u hu
  have hut : u ≠ t := by
    rintro rfl
    cases hfree.symm.trans h₂
  exact ⟨h₁, (update_of_ne hut ..).trans h₂, fun hmem =>
    (mem_cons.mp hmem).elim hut h₃⟩

theorem Inv.release (h : Inv p) (hdoomed : t ∈ p.doomed) : Inv (p.release t) := by
  have hnot := (h.doomed t hdoomed).2.2
  refine ⟨h.current, h.previous, h.idle, h.locked, fun u hu => ?_, h.listedNodup, fun u hu => ?_,
    h.doomedNodup.erase t⟩
  · have hut : u ≠ t := fun e => hnot (e ▸ hu)
    exact ⟨(h.listed u hu).1, (update_of_ne hut ..).trans (h.listed u hu).2⟩
  have hut : u ≠ t := by
    rintro rfl
    exact h.doomedNodup.not_mem_erase hu
  obtain ⟨h₁, h₂, h₃⟩ := h.doomed u (mem_of_mem_erase hu)
  exact ⟨h₁, (update_of_ne hut ..).trans h₂, h₃⟩

/-- Every move keeps every stack with one CPU. -/
theorem Move.inv (hm : Move p q) (h : Inv p) : Inv q := by
  cases hm with
  | stay => exact h
  | select c next hc hlock hne hfree => exact h.select hc hlock hne hfree
  | finish c prev hc hlock hprev => exact h.finish hc hlock hprev
  | finishRetire c prev hc hlock hprev hlisted =>
    have hfin := h.finish hc hlock hprev
    exact hfin.retire hlisted fun d hd => hfin.not_mem_onStacks (update_self ..) hd
  | retire t hlisted hoff => exact h.retire hlisted fun d hd => h.not_mem_onStacks hoff hd
  | adopt t hheap hfree => exact h.adopt hheap hfree
  | release t hdoomed => exact h.release hdoomed

/-- A CPU only changes over to a thread no other CPU is executing on. -/
theorem Move.selected_off (hm : Move p q) (h : Inv p) (hc : c < p.cpuCount)
    (hnew : q.current c ≠ p.current c) (hd : d < p.cpuCount) (hne : d ≠ c) :
    q.current c ∉ p.onStacks d := by
  cases hm with
  | select c' next hc' hlock hne' hfree =>
    by_cases hcc : c = c'
    · subst hcc
      simp only [Placement.select, update_self]
      exact h.selected_off hfree hc hd hne
    · exact absurd (update_of_ne hcc ..) hnew
  | stay => exact absurd rfl hnew
  | finish => exact absurd rfl hnew
  | finishRetire => exact absurd rfl hnew
  | retire => exact absurd rfl hnew
  | adopt => exact absurd rfl hnew
  | release => exact absurd rfl hnew

/-- A node is freed only when no CPU executes on its stack. -/
theorem Move.freed_off (hm : Move p q) (h : Inv p) (hall : p.allocated t = true)
    (hfreed : q.allocated t = false) (hd : d < p.cpuCount) : t ∉ p.onStacks d := by
  have hgone : t ∈ p.doomed := by
    cases hm with
    | release u hdoomed =>
      by_cases htu : t = u
      · exact htu ▸ hdoomed
      · simp only [Placement.release, update_of_ne htu] at hfreed
        cases hall.symm.trans hfreed
    | adopt u hheap hfree =>
      by_cases htu : t = u
      · simp [Placement.adopt, htu] at hfreed
      · simp only [Placement.adopt, update_of_ne htu] at hfreed
        cases hall.symm.trans hfreed
    | stay => cases hall.symm.trans hfreed
    | select => cases hall.symm.trans hfreed
    | finish => cases hall.symm.trans hfreed
    | finishRetire => cases hall.symm.trans hfreed
    | retire => cases hall.symm.trans hfreed
  intro hmem
  obtain ⟨hheap, -, hnot⟩ := h.doomed t hgone
  rcases (h.running hd hmem).2 with hlt | hlisted
  · omega
  · exact hnot hlisted

end Placement

end PureCOS.Sched
