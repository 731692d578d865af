import PureCOS.Lib.Chains
import PureCOS.Sched.Exclusive

/-!
# Threads by id

The hash table holds exactly the linked threads, under distinct ids.  Only the creation and the
unlinking of a thread change it; so in every reachable state the id of a linked thread leads to
that thread.
-/

namespace PureCOS.Sched

open Placement List

variable {wake : Prop} {s s' s'' : State} {c t u : Nat}

/-! ## Changes the table does not see -/

/-- The same threads are linked, under the same ids, and none has become free. -/
structure SameTable (s s' : State) : Prop where
  threadList : s'.threadList = s.threadList
  buckets : s'.buckets = s.buckets
  id : ∀ t, (s'.threads t).id = (s.threads t).id
  state : ∀ t, (s.threads t).state ≠ .free → (s'.threads t).state ≠ .free

theorem SameTable.refl (s : State) : SameTable s s := ⟨rfl, rfl, fun _ => rfl, fun _ h => h⟩

theorem SameTable.trans (h : SameTable s s') (h' : SameTable s' s'') : SameTable s s'' :=
  ⟨h'.threadList.trans h.threadList, h'.buckets.trans h.buckets,
    fun t => (h'.id t).trans (h.id t), fun t ht => h'.state t (h.state t ht)⟩

theorem Tuned.sameTable (h : Tuned wake s s') : SameTable s s' := by
  refine ⟨h.threadList, h.buckets, fun t => (h.thread t).id, fun t ht => ?_⟩
  rcases (h.thread t).state with he | ⟨-, -, he⟩
  · rwa [he]
  · simp [he]

theorem SameTable.modify {f : Thread → Thread} (hid : (f (s.threads t)).id = (s.threads t).id)
    (hstate : (s.threads t).state ≠ .free → (f (s.threads t)).state ≠ .free) :
    SameTable s (s.modify t f) := by
  refine ⟨rfl, rfl, fun u => ?_, fun u hu => ?_⟩
  · by_cases hut : u = t
    · rw [hut, State.modify_self, hid]
    · rw [State.modify_of_ne hut]
  by_cases hut : u = t
  · subst hut
    rw [State.modify_self]
    exact hstate hu
  · rwa [State.modify_of_ne hut]

theorem sameTable_scheduleLocked (s : State) (c : Nat) (call : Call) :
    SameTable s (scheduleLocked s c call).1 := by
  have hpick := (pickNext_spec s c).1.sameTable
  unfold scheduleLocked
  dsimp only
  generalize pickNext s c = r at hpick
  split
  · have hrun := SameTable.modify (s := r.1) (t := (s.cpus c).current)
      (f := fun thread => { thread with state := .running }) rfl (by simp)
    exact hpick.trans ⟨hrun.threadList, hrun.buckets, hrun.id, hrun.state⟩
  -- the old thread is ready or stays as it is, the new one runs
  have hprev := SameTable.modify (s := r.1) (t := (r.1.cpus c).current)
    (f := fun prev =>
      { prev with
        state := if prev.state = .running then .ready else prev.state
        preemptSaved := (r.1.cpus c).preemptDepth
        suspended := some call }) rfl fun h => by
      dsimp only
      split
      · simp
      · exact h
  have hnext := hprev.trans (SameTable.modify (t := r.2)
    (f := fun next => { next with state := .running, runningCpu := some c }) rfl (by simp))
  exact hpick.trans ⟨hnext.threadList, hnext.buckets, hnext.id, hnext.state⟩

/-! ## The table -/

/-- The linked threads are in the table under their ids. -/
structure Hashed (s : State) : Prop where
  table : Chained thashIdx (fun t => (s.threads t).id) s.buckets s.threadList
  live : ∀ t ∈ s.threadList, (s.threads t).id ≠ 0 ∧ (s.threads t).state ≠ .free

theorem Hashed.same (h : Hashed s) (hsame : SameTable s s') : Hashed s' := by
  refine ⟨?_, fun t ht => ?_⟩
  · rw [hsame.buckets, hsame.threadList]
    exact h.table.congr fun t _ => hsame.id t
  · rw [hsame.threadList] at ht
    rw [hsame.id]
    exact ⟨(h.live t ht).1, hsame.state t (h.live t ht).2⟩

theorem Hashed.removed (h : Hashed s) (t : Nat) :
    Hashed { thashRemove s t with threadList := s.threadList.erase t } :=
  ⟨h.table.remove t, fun u hu => h.live u (mem_of_mem_erase hu)⟩

theorem Hashed.find_iff (h : Hashed s) {tid : Nat} :
    thashFind s tid = some t ↔ t ∈ s.threadList ∧ (s.threads t).id = tid := by
  unfold thashFind
  split
  next hzero =>
    refine iff_of_false (Option.some_ne_none t).symm fun ⟨ht, hid⟩ => ?_
    exact (h.live t ht).1 (hid.trans hzero)
  · exact h.table.find_iff fun u hu => by simp [(h.live u hu).2]

theorem Hashed.unlinkThread (h : Hashed s) (t : Nat) : Hashed (unlinkThread s t) := by
  unfold Sched.unlinkThread
  split
  · have hremoved := h.removed t
    exact ⟨hremoved.table, hremoved.live⟩
  · exact h

theorem Hashed.finishSwitch (h : Hashed s) (c : Nat) : Hashed (finishSwitch s c).1 := by
  unfold Sched.finishSwitch
  dsimp only
  have hcur := h.same (SameTable.modify (t := (s.cpus c).current)
    (f := fun thread => { thread with suspended := none }) rfl id)
  generalize s.modify (s.cpus c).current _ = s₁ at hcur
  split
  · exact ⟨hcur.table, hcur.live⟩
  next previous _ =>
  have hprevious := hcur.same (SameTable.modify (t := previous)
    (f := fun thread => { thread with runningCpu := none }) rfl id)
  generalize s₁.modify previous _ = s₂ at hprevious
  split
  · have hunlinked := hprevious.unlinkThread previous
    exact ⟨hunlinked.table, hunlinked.live⟩
  · exact ⟨hprevious.table, hprevious.live⟩

theorem Creates.hashed (hcr : Creates s t s') (hinv : Inv (placement s)) (h : Hashed s) :
    Hashed s' := by
  have hnodup : s.threadList.Nodup := hinv.listedNodup
  have hother : ∀ u ∈ s.threadList.erase t, s'.threads u = s.threads u :=
    fun u hu => hcr.other u (hnodup.mem_erase_iff.mp hu).1
  have hremoved := h.removed t
  have hnew : ∀ u ∈ s.threadList.erase t, (s'.threads u).id ≠ (s'.threads t).id := by
    intro u hu heq
    rw [hother u hu] at heq
    have hfound := hremoved.find_iff.mpr ⟨hu, heq⟩
    cases hcr.unused.symm.trans hfound
  have hrekeyed : Chained thashIdx (fun u => (s'.threads u).id) _ (s.threadList.erase t) :=
    hremoved.table.congr fun u hu => congrArg Thread.id (hother u hu)
  have htable := hrekeyed.insert hnew
  -- the list now holds the thread and those that were there besides it
  have hlist : (t :: s.threadList.erase t).Perm s'.threadList := by
    rcases hcr.node with ⟨hmem, -, heq, -⟩ | ⟨hheap, hfree, heq, -⟩
    · rw [heq]
      exact (perm_cons_erase hmem).symm
    · have hfresh : t ∉ s.threadList := fun hmem => hinv.not_known hheap hfree (.inr hmem)
      rw [heq, erase_of_not_mem hfresh]
  refine ⟨hcr.buckets ▸ htable.perm hlist, fun u hu => ?_⟩
  rcases mem_cons.mp (hlist.mem_iff.mpr hu) with rfl | hold
  · exact ⟨hcr.id_ne_zero, by simp [hcr.state]⟩
  · rw [hother u hold]
    exact hremoved.live u hold

/-! ## Runs -/

theorem Effect.hashed {r : State × List Obs} (he : Effect s r) (hinv : Inv (placement s))
    (h : Hashed s) : Hashed r.1 := by
  have hcall : ∀ {s₁ : State} {f : Thread → Thread} (c : Nat) (call : Call), Tuned False s s₁ →
      (∀ x, (f x).id = x.id ∧ (f x).state ≠ .free) →
      Hashed (scheduleLocked (s₁.modifyCurrent c f) c call).1 := fun c call ht hf =>
    h.same (ht.sameTable.trans ((SameTable.modify (hf _).1 fun _ => (hf _).2).trans
      (sameTable_scheduleLocked _ c call)))
  cases he with
  | tuned ht => exact h.same ht.sameTable
  | yield c _ _ ht => exact h.same (ht.sameTable.trans (sameTable_scheduleLocked _ _ _))
  | sleep c f _ _ ht hf => exact hcall c .sleep ht fun x => ⟨(hf x).2.2.1, by simp [(hf x).2.2.2]⟩
  | token c =>
    dsimp only [State.modifyCurrent]
    exact h.same (SameTable.modify rfl id)
  | block c _ _ ht => exact hcall c .block ht fun _ => ⟨rfl, by simp⟩
  | exit c _ _ ht => exact hcall c .exit ht fun _ => ⟨rfl, by simp⟩
  | finish c => exact h.finishSwitch c
  | wake t _ ht =>
    dsimp only [enqueueWokenThread]
    exact h.same (ht.sameTable.trans (SameTable.modify rfl (by simp)))
  | arm t =>
    dsimp only
    exact h.same (SameTable.modify rfl id)
  | create t _ hcr => exact hcr.hashed hinv h
  | unlink t => exact h.unlinkThread t
  | free t hdoomed =>
    unfold threadNodeFree
    rw [if_pos hdoomed]
    exact ⟨h.table, h.live⟩

theorem boot_hashed (n : Nat) : Hashed (boot n) := ⟨.empty, nofun⟩

theorem run_hashed (n : Nat) (es : List Event) : Hashed (run (boot n) es).1 :=
  (Run.run_induction step (fun _ s => Inv (placement s) ∧ Hashed s)
    (fun _ s e h => ⟨(step_move h.1 e).inv h.1, (step_effect s e).hashed h.1 h.2⟩)
    ⟨boot_inv n, boot_hashed n⟩ es).2

end PureCOS.Sched
