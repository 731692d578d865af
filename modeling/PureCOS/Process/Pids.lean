import Mathlib.Data.Nat.Count
import PureCOS.Lib.Chains
import PureCOS.Lib.Run

/-!
# Process identifiers

`kernel/process/process.c`: a process is in the process list and, by its pid, in one of 256 hash
chains.  It is created and reaped under one mutex, so that a call is one step.  A process is named
by the memory of its record; the list and the chains are lists of such names.
-/

namespace PureCOS.Process

open List Function

inductive ProcessState where
  | free | ready | running | exited | loading
deriving DecidableEq

/-- `pid` and `state` of the records, `process_list`, `phash_buckets` and `next_pid` -/
structure Table where
  pid : Nat → Nat
  state : Nat → ProcessState
  list : List Nat
  buckets : Nat → List Nat
  nextPid : Nat

namespace Table

def init : Table := ⟨fun _ => 0, fun _ => .free, [], fun _ => [], 1⟩

def phashIdx (pid : Nat) : Nat := (pid ^^^ (pid >>> 8)) % 256

def phashInsert (t : Table) (p : Nat) : Table :=
  let i := phashIdx (t.pid p)
  { t with buckets := update t.buckets i (p :: t.buckets i) }

def phashRemove (t : Table) (p : Nat) : Table :=
  let i := phashIdx (t.pid p)
  { t with buckets := update t.buckets i ((t.buckets i).erase p) }

def findByPid (t : Table) (pid : Nat) : Option Nat :=
  if pid = 0 then none
  else (t.buckets (phashIdx pid)).find? fun p => t.state p != .free && t.pid p == pid

/-- `allocate_process` with memory for the record, which is cleared -/
def allocateProcess (t : Table) (p : Nat) : Table :=
  { t with pid := update t.pid p 0, state := update t.state p .loading, list := t.list ++ [p] }

def processNodeFree (t : Table) (p : Nat) : Table := { t with list := t.list.erase p }.phashRemove p

/-- `next_pid++`, and again if that was 0 -/
def newPid (next : Nat) : Nat := if next = 0 then 1 else next

/-- `process->pid = next_pid++` -/
def setPid (t : Table) (p next : Nat) : Table :=
  { t with pid := update t.pid p (newPid next), nextPid := (newPid next + 1) % 2 ^ 32 }

/-- `assign_pid`, for so many rounds -/
def assignPid (t : Table) (p : Nat) : Nat → Nat → Option Table
  | 0, _ => none
  | rounds + 1, next =>
    let t' := t.setPid p next
    match t'.findByPid (t'.pid p) with
    | none => some t'
    | some hit => if hit = p then some t' else assignPid t p rounds t'.nextPid

/--
A process is created.  The call may fail before the process has its pid, and when it is in its
chain.
-/
def create (t : Table) (memory : Option Nat) (built started : Bool) (state : ProcessState) :
    Table :=
  match memory with
  | none => t
  | some p =>
    let t := t.allocateProcess p
    if !built then t.processNodeFree p
    else
      match t.assignPid p t.list.length t.nextPid with
      | none => t
      | some t =>
        let t := t.phashInsert p
        if !started then t.processNodeFree p
        else { t with state := update t.state p state }

/--
`process_spawn_elf`: the image is built in an address space; pages are charged and a thread is made.
-/
def processSpawnElf (t : Table) (memory : Option Nat) (built started : Bool) : Table :=
  t.create memory built started .ready

/--
`process_fork`: the address space is cloned; pages are charged, signals cloned and a thread is made.
-/
def processFork (t : Table) (memory : Option Nat) (cloned started : Bool) : Table :=
  t.create memory cloned started .ready

/-- `process_spawn_service`: a thread is made. -/
def processSpawnService (t : Table) (memory : Option Nat) (started : Bool) : Table :=
  t.create memory true started .running

inductive Event where
  | spawnElf (memory : Option Nat) (built started : Bool)
  | fork (memory : Option Nat) (cloned started : Bool)
  | spawnService (memory : Option Nat) (started : Bool)
  /-- a process starts to run or exits -/
  | enters (p : Nat) (state : ProcessState)
  /-- the end of `process_wait`, `process_reap` and `oom_reap_zombie` -/
  | reap (p : Nat)

def step (t : Table) : Event → Table × List Unit
  | .spawnElf memory built started => (t.processSpawnElf memory built started, [])
  | .fork memory cloned started => (t.processFork memory cloned started, [])
  | .spawnService memory started => (t.processSpawnService memory started, [])
  | .enters p state => ({ t with state := update t.state p state }, [])
  | .reap p => (if p ∈ t.list ∧ t.state p = .exited then t.processNodeFree p else t, [])

/--
New memory is not in use, fewer than 2^32 - 1 processes are alive, and none is marked as free.
-/
def Allowed (t : Table) : Event → Prop
  | .spawnElf memory .. | .fork memory .. | .spawnService memory _ =>
    ∀ p ∈ memory, p ∉ t.list ∧ t.list.length < 2 ^ 32 - 1
  | .enters _ state => state ≠ .free
  | .reap _ => True

instance (t : Table) : DecidablePred t.Allowed
  | .spawnElf .. | .fork .. | .spawnService .. => inferInstanceAs (Decidable (∀ _ ∈ _, _))
  | .enters .. => inferInstanceAs (Decidable (_ ≠ _))
  | .reap _ => .isTrue trivial

/-! ## The invariant -/

/--
The chains hold the processes of `l`, which have pids.  A process that is being created is in the
process list before it is in `l`.
-/
structure Ok (t : Table) (l : List Nat) : Prop where
  table : Chained phashIdx t.pid t.buckets l
  pids : ∀ p ∈ l, t.pid p ≠ 0 ∧ t.state p ≠ .free
  next : t.nextPid < 2 ^ 32

variable {t t' : Table} {l : List Nat} {p pid : Nat}

theorem loading : (t.allocateProcess p).state p ≠ .free := by simp [allocateProcess]

theorem ok_init : Ok init [] := ⟨.empty, nofun, Nat.one_lt_two_pow (by omega)⟩

variable (h : Ok t l)

include h

theorem Ok.congr (hbuckets : t'.buckets = t.buckets)
    (hsame : ∀ q ∈ l, t'.pid q = t.pid q ∧ t'.state q ≠ .free) (hnext : t'.nextPid < 2 ^ 32) :
    Ok t' l := by
  refine ⟨?_, fun q hq => ?_, hnext⟩
  · rw [hbuckets]
    exact h.table.congr fun q hq => (hsame q hq).1
  · exact ⟨(hsame q hq).1 ▸ (h.pids q hq).1, (hsame q hq).2⟩

/-- Lookup finds the process with a pid and no other. -/
theorem Ok.find_iff : t.findByPid pid = some p ↔ p ∈ l ∧ t.pid p = pid := by
  have hpids := h.pids
  unfold findByPid
  split
  · grind
  · exact h.table.find_iff fun q hq => by simp [(hpids q hq).2]

theorem Ok.enters {state : ProcessState} (hstate : state ≠ .free) :
    Ok { t with state := update t.state p state } l := by
  refine h.congr rfl (fun q hq => ⟨rfl, ?_⟩) h.next
  have hold := h.pids q hq
  grind [update_apply]

/-- A record leaves its chain, if it is there. -/
theorem Ok.processNodeFree (p : Nat) : Ok (t.processNodeFree p) (l.erase p) :=
  ⟨h.table.remove p, fun q hq => h.pids q (mem_of_mem_erase hq), h.next⟩

/-! ## Creation -/

/-- The process gets into its chain. -/
theorem Ok.phashInsert (hstate : t.state p ≠ .free) (hpid : t.pid p ≠ 0)
    (hnew : ∀ q ∈ l, t.pid q ≠ t.pid p) : Ok (t.phashInsert p) (l ++ [p]) := by
  refine ⟨(h.table.insert hnew).perm (perm_append_singleton p l).symm, ?_, h.next⟩
  rw [forall_mem_append, forall_mem_singleton]
  exact ⟨h.pids, hpid, hstate⟩

variable (hp : p ∉ l)

include hp

theorem Ok.allocateProcess : Ok (t.allocateProcess p) l := by
  refine h.congr rfl (fun q hq => ?_) h.next
  simpa [Table.allocateProcess, ne_of_mem_of_not_mem hq hp] using (h.pids q hq).2

theorem Ok.setPid (next : Nat) : Ok (t.setPid p next) l :=
  h.congr rfl (fun q hq => ⟨update_of_ne (ne_of_mem_of_not_mem hq hp) _ _, (h.pids q hq).2⟩)
    (Nat.mod_lt _ (by decide))

variable (hstate : t.state p ≠ .free)

include hstate

/--
`assign_pid` returns, or it has met a process in each round, and their pids follow one another.
-/
theorem Ok.assignPid_cases (rounds : Nat) {next : Nat} (hnext : next < 2 ^ 32) :
    (∃ k, t.assignPid p rounds next = some (t.setPid p k) ∧ Ok ((t.setPid p k).phashInsert p) (l ++
      [p])) ∨ ∀ j < rounds, ∃ q ∈ l, t.pid q = (newPid next - 1 + j) % (2 ^ 32 - 1) + 1 := by
  induction rounds generalizing next with
  | zero => exact .inr nofun
  | succ rounds ih =>
    have hpid : (t.setPid p next).pid p = newPid next := update_self ..
    have hnew : newPid next ≠ 0 ∧ newPid next < 2 ^ 32 := by
      unfold newPid
      split <;> omega
    simp only [Table.assignPid, hpid]
    cases hfind : (t.setPid p next).findByPid (newPid next) with
    | none =>
      refine .inl
        ⟨next, rfl, (h.setPid hp next).phashInsert hstate (hpid ▸ hnew.1) fun q hq heq => ?_⟩
      cases hfind.symm.trans ((h.setPid hp next).find_iff.mpr ⟨hq, heq.trans hpid⟩)
    | some hit =>
      obtain ⟨hhit, hsame⟩ := (h.setPid hp next).find_iff.mp hfind
      have hold : (t.setPid p next).pid hit = t.pid hit :=
        update_of_ne (ne_of_mem_of_not_mem hhit hp) _ _
      simp only [if_neg (ne_of_mem_of_not_mem hhit hp)]
      refine (ih (Nat.mod_lt _ (by decide))).imp id fun hmet j hj => ?_
      cases j with
      | zero => exact ⟨hit, hhit, by omega⟩
      | succ j =>
        obtain ⟨q, hq, heq⟩ := hmet j (by omega)
        refine ⟨q, hq, heq.trans ?_⟩
        show (newPid ((newPid next + 1) % 2 ^ 32) - 1 + j) % (2 ^ 32 - 1) + 1 = _
        generalize newPid next = pid at hnew ⊢
        unfold newPid
        split <;> omega

/-- There are more pids than processes, so that `assign_pid` returns. -/
theorem Ok.assignPid (hfew : l.length < 2 ^ 32 - 1) {rounds : Nat} (hrounds : l.length < rounds) :
    ∃ k, t.assignPid p rounds t.nextPid = some (t.setPid p k) ∧
      Ok ((t.setPid p k).phashInsert p) (l ++ [p]) := by
  refine (h.assignPid_cases hp hstate _ h.next).resolve_right fun hmet => ?_
  -- one pid more than there are processes, all different
  have hnodup : ((range (l.length + 1)).map fun j =>
      (newPid t.nextPid - 1 + j) % (2 ^ 32 - 1) + 1).Nodup := by
    refine Nodup.map_on (fun i hi j hj heq => ?_) nodup_range
    rw [mem_range] at hi hj
    omega
  have hsub := (show _ <+~ l.map t.pid from hnodup.subperm fun x hx => ?_).length_le
  · rw [length_map, length_map, length_range] at hsub
    omega
  · obtain ⟨j, hj, rfl⟩ := mem_map.mp hx
    exact mem_map.mpr (hmet j (Nat.lt_of_lt_of_le (mem_range.mp hj) hrounds))

omit h hp hstate

theorem Ok.create (h : Ok t t.list) {memory : Option Nat}
    {built started : Bool} (ha : t.Allowed (.spawnElf memory built started)) {state : ProcessState}
    (hstate : state ≠ .free) :
    Ok (t.create memory built started state) (t.create memory built started state).list := by
  unfold Table.create
  split
  · exact h
  next p =>
  obtain ⟨hp, hfew⟩ := ha p rfl
  have hok := h.allocateProcess hp
  dsimp only
  split
  · have herase : (t.list ++ [p]).erase p = t.list.erase p := by
      simp [erase_append_right, hp, erase_of_not_mem]
    show Ok _ ((t.list ++ [p]).erase p)
    exact herase.symm ▸ hok.processNodeFree p
  obtain ⟨k, hassign, hinsert⟩ :=
    hok.assignPid hp loading hfew (show _ < (t.list ++ [p]).length by simp)
  simp only [show (t.allocateProcess p).assignPid p (t.allocateProcess p).list.length _ =
    _ from hassign]
  split
  · exact hinsert.processNodeFree p
  · exact hinsert.enters hstate

/-! ## Every run -/

theorem ok_step (t : Table) (e : Event) (ha : t.Allowed e) (h : Ok t t.list) :
    Ok (t.step e).1 (t.step e).1.list := by
  cases e with
  | spawnElf | fork | spawnService => exact h.create ha (by decide)
  | enters p state => exact h.enters ha
  | reap p =>
    simp only [step]
    split
    · exact h.processNodeFree p
    · exact h

/-- After any calls the processes have different pids other than 0, a lookup finds exactly them, the
chains hold no other process, and a new process gets a pid. -/
theorem pids_unique_and_found
    (es : List Event)
    (hallowed : Run.Along step Allowed init es) :
    let t := (Run.run step init es).1
    ((t.list.map t.pid).Nodup ∧ ∀ p ∈ t.list, t.pid p ≠ 0) ∧
      (∀ pid p, t.findByPid pid = some p ↔ p ∈ t.list ∧ t.pid p = pid) ∧
      (∀ i, ∀ p ∈ t.buckets i, p ∈ t.list) ∧
      ∀ p, p ∉ t.list → t.list.length < 2 ^ 32 - 1 → ∀ rounds, t.list.length < rounds →
        ((t.allocateProcess p).assignPid p rounds t.nextPid).isSome := by
  intro t
  have h : Ok t t.list :=
    Run.run_induction_of _ _ (fun _ t => Ok t t.list) (fun _ => ok_step) ok_init hallowed
  refine ⟨⟨h.table.nodup, fun p hp => (h.pids p hp).1⟩, fun _ _ => h.find_iff,
    fun _ _ hp => (h.table.mem_chain.mp hp).1, fun p hp hfew rounds hrounds => ?_⟩
  obtain ⟨k, hassign, -⟩ := (h.allocateProcess hp).assignPid hp loading hfew hrounds
  exact Option.isSome_of_eq_some hassign

/-- A service, a fork that exits and is reaped, and a program that gets no thread. -/
theorem pids_unique_and_found_reaped :
    let t := (Run.run step init
      [.spawnService (some 4) true, .fork (some 8) true true, .enters 8 .exited, .reap 8,
        .spawnElf (some 8) true false]).1
    t.list = [4] ∧ ∀ pid p, t.findByPid pid = some p ↔ p ∈ t.list ∧ t.pid p = pid :=
  ⟨by decide, (pids_unique_and_found _ (by decide)).2.1⟩

end Table
end PureCOS.Process
