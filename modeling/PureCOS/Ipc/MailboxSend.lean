import PureCOS.Ipc.MailboxOrder

/-!
# Which messages can be sent

A whole call of `ipc_send`, with any steps of other threads between its own.  The object for a
message is its header and its payload together; the slab has no object over 2048 bytes, because one
of a whole page does not fit beside the header of the page.  So a payload of more than 2032 bytes is
refused, although `IPC_MAX_PAYLOAD` allows it.
-/

namespace PureCOS.Mailboxes

open Buffer Mm List Kernel Run

/-- Steps that a thread in `ipc_send` does not make itself. -/
def Event.Others : Event → Bool
  | .getBox _ => false
  | .getMsg _ => false
  | .link => false
  | _ => true

/-- A call of `ipc_send`, the pages that the allocator has for it, and what others do meanwhile. -/
structure SendCall where
  destPid : Nat
  target : Nat
  source : BitVec 32
  data : List Byte
  boxPage : Nat
  msgPage : Nat
  early : List Event
  middle : List Event
  late : List Event

namespace SendCall

def message (c : SendCall) : Message := ⟨c.source, c.data⟩

def events (c : SendCall) : List Event :=
  .send c.destPid (some c.target) c.source (some c.data) c.data.length true :: (c.early ++ .getBox
    (some c.boxPage) :: (c.middle ++ .getMsg (some c.msgPage) :: (c.late ++ [.link])))

/-- The caller may send, the target is alive, and there is room in its mailbox. -/
structure Permitted (c : SendCall) (k : Kernel) : Prop where
  pid : c.destPid ≠ 0
  payload : 1 ≤ c.data.length ∧ c.data.length ≤ ipcMaxPayload
  idle : k.holder = .nobody
  alive : k.exited c.target = false
  room : k.mailbox c.target ≠ 0 → boxCount k.slab.mem (k.mailbox c.target) < ipcMaxDepth
  others : ∀ e ∈ c.early ++ c.middle ++ c.late, e.Others = true

/-- The call has returned 0 last, and the message is at the end of the mailbox. -/
def Queued (c : SendCall) (r : Kernel × List Shown) : Prop :=
  (∃ shown, r.2 = shown ++ [.sent c.target c.message]) ∧ ∃ queue cell,
    Mailbox r.1.slab.mem (r.1.mailbox c.target) (queue ++ [cell]) ∧ cell.message = c.message

end SendCall

/-! ## Steps of others -/

section Others

variable {k : Kernel} {e : Event} {p : Nat} {trace : List Shown}

/-- Only the thread itself links a message, and gets an object for it. -/
theorem step_others (he : e.Others = true) :
    sentTo p (k.step e).2 = [] ∧ ∀ q message msg, (k.step e).1.holder = .filling q message msg →
      k.holder = .filling q message msg := by
  cases e with
  | getBox => cases he
  | getMsg => cases he
  | link => cases he
  | send =>
    dsimp only [step]
    split
    · split
      · exact ⟨rfl, fun _ _ _ h => h⟩
      · exact ⟨rfl, nofun⟩
    · exact ⟨rfl, fun _ _ _ h => h⟩
  | recv =>
    dsimp only [step]
    split
    · exact ⟨rfl, fun _ _ _ h => h⟩
    split
    · exact ⟨rfl, fun _ _ _ h => h⟩
    split
    · split
      · exact ⟨rfl, fun _ _ _ h => h⟩
      · exact ⟨rfl, nofun⟩
    · exact ⟨rfl, fun _ _ _ h => h⟩
  | release =>
    dsimp only [step]
    split
    · exact ⟨rfl, nofun⟩
    · exact ⟨rfl, fun _ _ _ h => h⟩
  | exit =>
    dsimp only [step]
    split <;> exact ⟨rfl, fun _ _ _ h => h⟩
  | cleanup =>
    dsimp only [step]
    split <;> exact ⟨rfl, fun _ _ _ h => h⟩
  | dispose =>
    dsimp only [step]
    split
    · exact ⟨rfl, fun _ _ _ h => h⟩
    · split <;> exact ⟨rfl, fun _ _ _ h => h⟩
  | otherAlloc =>
    dsimp only [step]
    split <;> exact ⟨rfl, fun _ _ _ h => h⟩
  | otherFree =>
    dsimp only [step]
    split <;> exact ⟨rfl, fun _ _ _ h => h⟩
  | otherWrite =>
    dsimp only [step]
    split
    · exact ⟨rfl, fun _ _ _ h => h⟩
    · split <;> exact ⟨rfl, fun _ _ _ h => h⟩

/-- While a thread is in `ipc_send`, others leave locks, processes and mailboxes alone. -/
structure Meanwhile (k : Kernel) (r : Kernel × List Shown) : Prop where
  holder : r.1.holder = k.holder
  exited : r.1.exited = k.exited
  mailbox : r.1.mailbox = k.mailbox
  sent : ∀ p, sentTo p r.2 = []
  received : ∀ p, receivedBy p r.2 = []

theorem Meanwhile.nothing : Meanwhile k (k, []) := ⟨rfl, rfl, rfl, fun _ => rfl, fun _ => rfl⟩

theorem Meanwhile.failed (status : Int) : Meanwhile k (k, [.failed status]) :=
  ⟨rfl, rfl, rfl, fun _ => rfl, fun _ => rfl⟩

theorem Meanwhile.trans {r r' : Kernel × List Shown} (h : Meanwhile k r) (h' : Meanwhile r.1 r') :
    Meanwhile k (r'.1, r.2 ++ r'.2) := by
  refine ⟨h'.holder.trans h.holder, h'.exited.trans h.exited, h'.mailbox.trans h.mailbox,
    fun p => ?_, fun p => ?_⟩
  · rw [sentTo_append, h.sent p, h'.sent p, append_nil]
  · rw [receivedBy_append, h.received p, h'.received p, append_nil]

theorem step_meanwhile (he : e.Others = true) (hsends : k.holder.Sends = true) :
    Meanwhile k (k.step e) := by
  have hbusy : k.holder ≠ .nobody := by
    intro hnobody
    rw [hnobody] at hsends
    cases hsends
  cases e with
  | getBox => cases he
  | getMsg => cases he
  | link => cases he
  | send =>
    dsimp only [step]
    rw [if_neg hbusy]
    exact .nothing
  | recv =>
    dsimp only [step]
    split
    · exact .failed _
    split
    · exact .failed _
    · rw [if_neg fun h => hbusy h.1]
      exact .nothing
  | release =>
    dsimp only [step]
    split
    next hholder =>
      rw [hholder] at hsends
      cases hsends
    · exact .nothing
  | exit =>
    dsimp only [step]
    rw [if_pos hsends]
    exact .nothing
  | cleanup =>
    dsimp only [step]
    rw [if_neg fun h => hbusy h.1]
    exact .nothing
  | dispose =>
    dsimp only [step]
    split
    · exact .nothing
    · split <;> exact ⟨rfl, rfl, rfl, fun _ => rfl, fun _ => rfl⟩
  | otherAlloc =>
    dsimp only [step]
    split <;> exact ⟨rfl, rfl, rfl, fun _ => rfl, fun _ => rfl⟩
  | otherFree =>
    dsimp only [step]
    split <;> exact ⟨rfl, rfl, rfl, fun _ => rfl, fun _ => rfl⟩
  | otherWrite =>
    dsimp only [step]
    split
    · exact .nothing
    · split <;> exact ⟨rfl, rfl, rfl, fun _ => rfl, fun _ => rfl⟩

theorem run_meanwhile {es : List Event} (hes : ∀ e ∈ es, e.Others = true)
    (hsends : k.holder.Sends = true) : Meanwhile k (run step k es) := by
  induction es generalizing k with
  | nil => exact .nothing
  | cons e es ih =>
    have hstep := step_meanwhile (hes e mem_cons_self) hsends
    have hrest := ih (fun e he => hes e (mem_cons_of_mem _ he)) (hstep.holder ▸ hsends)
    exact hstep.trans hrest

/-- A thread in `ipc_send` that has failed has nothing to link, whatever others do. -/
theorem run_unfilled {es : List Event} (hes : ∀ e ∈ es, e.Others = true)
    (hholder : ∀ q message msg, k.holder ≠ .filling q message msg) :
    sentTo p (run step k (es ++ [.link])).2 = [] := by
  induction es generalizing k with
  | nil =>
    dsimp only [run, step, nil_append]
    split
    next q message msg hfilling => exact absurd hfilling (hholder q message msg)
    · rfl
  | cons e es ih =>
    obtain ⟨hsent, hfilling⟩ := step_others (k := k) (p := p) (hes e mem_cons_self)
    have hrest := ih (fun e he => hes e (mem_cons_of_mem _ he)) fun q message msg h =>
      hholder q message msg (hfilling q message msg h)
    show sentTo p ((k.step e).2 ++ (run step (k.step e).1 (es ++ [.link])).2) = []
    rw [sentTo_append, hsent, hrest]
    rfl

end Others

/-! ## The call -/

section Call

variable {k : Kernel} {p page : Nat} {trace : List Shown} {message : Message}

/-- How many messages wait for a process. -/
def waiting (p : Nat) (trace : List Shown) : Nat :=
  (sentTo p trace).length - (receivedBy p trace).length

theorem waiting_of_meanwhile {r : Kernel × List Shown} (h : Meanwhile k r) :
    waiting p (trace ++ r.2) = waiting p trace := by
  rw [waiting, waiting, sentTo_append, receivedBy_append, h.sent p, h.received p,
    append_nil, append_nil]

/-- A call that may be made gets the lock. -/
theorem step_send {c : SendCall} (h : c.Permitted k) :
    k.step (.send c.destPid (some c.target) c.source (some c.data) c.data.length true) =
      ({ k with holder := .sending c.target c.message }, []) := by
  have hpayload : (range c.data.length).map (c.data.getD · 0) = c.data := by
    refine ext_getElem (by simp) fun i hi hi' => ?_
    simp [getElem?_eq_getElem hi']
  have hchecks : sendChecks k c.destPid (some c.target) c.source (some c.data) c.data.length true =
      .ok (c.target, c.message) := by
    unfold sendChecks
    rw [if_neg (Nat.not_lt.mpr h.payload.2), if_neg]
    · dsimp only
      rw [h.alive, hpayload]
      rfl
    rintro (hpid | hempty | hcapable)
    · exact h.pid hpid
    · have hpos := h.payload.1
      omega
    · cases hcapable
  dsimp only [step]
  rw [if_pos h.idle, hchecks]

variable (h : k.Valid trace)

include h

theorem Kernel.Valid.boxCount_eq (hbox : k.mailbox p ≠ 0) :
    boxCount k.slab.mem (k.mailbox p) = waiting p trace := by
  obtain ⟨L, queue, rest, h⟩ := h
  rw [((h.procs p).box hbox).count, waiting, h.exact p (.inr hbox), length_append, length_map]
  omega

theorem Kernel.Valid.waiting_lt (halive : k.exited p = false)
    (hroom : k.mailbox p ≠ 0 → boxCount k.slab.mem (k.mailbox p) < ipcMaxDepth) :
    waiting p trace < ipcMaxDepth := by
  by_cases hbox : k.mailbox p = 0
  · obtain ⟨L, queue, rest, h⟩ := h
    rw [waiting, h.exact p (.inl halive), (h.procs p).empty hbox, length_append]
    simp [ipcMaxDepth]
  · rw [← h.boxCount_eq hbox]
    exact hroom hbox

/-- `mbox_get` succeeds. -/
theorem step_getBox (hpage : k.slab.Fresh (some page)) (hholder : k.holder = .sending p message) :
    (k.step (.getBox (some page))).1.holder = .boxed p message ∧
      (k.step (.getBox (some page))).2 = [] := by
  obtain ⟨L, queue, rest, h⟩ := h
  have halloc : (k.slab.alloc mboxSize (some page)).2 ≠ 0 :=
    alloc_small h.sound hpage (by decide) (by decide)
  dsimp only [step]
  rw [hholder]
  dsimp only
  by_cases hbox : k.mailbox p ≠ 0
  · rw [if_pos hbox]
    exact ⟨rfl, rfl⟩
  · rw [if_neg hbox, if_neg halloc]
    exact ⟨rfl, rfl⟩

/-- An object for the message is got if it is small enough. -/
theorem step_getMsg (hpage : k.slab.Fresh (some page)) (hholder : k.holder = .boxed p message)
    (hroom : waiting p trace < ipcMaxDepth) :
    if msgHeader + message.data.length ≤ largestObject then
      ∃ msg, (k.step (.getMsg (some page))).1.holder = .filling p message msg ∧
      (k.step (.getMsg (some page))).2 = []
      else k.step (.getMsg (some page)) = ({ k with holder := .nobody }, [.failed ipcErrFull]) := by
  have hcount := h.boxCount_eq (p := p)
  obtain ⟨L, queue, rest, h⟩ := h
  have hbox : k.mailbox p ≠ 0 := by
    have hok := h.holder
    rw [hholder] at hok
    exact hok.2.2
  have hfull : ¬ ipcMaxDepth ≤ boxCount k.slab.mem (k.mailbox p) := by
    rw [hcount hbox]
    omega
  split
  next hsize =>
    have halloc := alloc_small h.sound hpage (by unfold msgHeader; omega) hsize
    dsimp only [step]
    rw [hholder]
    dsimp only
    rw [if_neg hfull, if_neg halloc]
    exact ⟨_, rfl, rfl⟩
  next hsize =>
  have halloc := alloc_large h.sound (Nat.lt_of_not_le hsize) (some page)
  dsimp only [step]
  rw [hholder]
  dsimp only
  rw [if_neg hfull, if_pos (by rw [halloc])]

/-- The invariant along a part of a run. -/
theorem valid_run {es : List Event} (hes : Run.Along step Kernel.Allowed k es) :
    (run step k es).1.Valid (trace ++ (run step k es).2) := by
  induction es generalizing k trace with
  | nil => simpa [run] using h
  | cons e es ih =>
    have hrest := ih (valid_step hes.1 h) hes.2
    rwa [append_assoc] at hrest

/-- The message that is linked is the last one of the mailbox. -/
theorem queued_link {c : SendCall} {msg : Nat} {shown : List Shown}
    (hholder : k.holder = .filling c.target c.message msg) :
    c.Queued ((k.step .link).1, shown ++ (k.step .link).2) := by
  have hnext := valid_step (e := .link) trivial h
  obtain ⟨L, queue, rest, h⟩ := h
  have hok := h.holder
  rw [hholder] at hok
  obtain ⟨halive, -, hbox, -⟩ := hok
  have hstep : (k.step .link).2 = [.sent c.target c.message] ∧
      (k.step .link).1.mailbox = k.mailbox := by
    dsimp only [step]
    rw [hholder]
    exact ⟨rfl, rfl⟩
  rw [hstep.1] at hnext ⊢
  obtain ⟨queue', hmailbox, hqueue⟩ := (hnext.orderly c.target).rest (hstep.2 ▸ hbox)
  rw [sentTo_append, receivedBy_append, sentTo_sent, if_pos rfl, h.exact c.target (.inl halive)]
    at hqueue
  have hmap : queue'.map Cell.message = (queue c.target).map Cell.message ++ [c.message] := by
    have hnone : receivedBy c.target [Shown.sent c.target c.message] = [] := rfl
    rw [hnone, append_nil, append_assoc] at hqueue
    exact (append_cancel_left hqueue).symm
  obtain ⟨before, last, rfl, -, hlast⟩ := map_eq_append_iff.mp hmap
  obtain ⟨cell, rfl, hcell⟩ := map_eq_singleton_iff.mp hlast
  exact ⟨⟨shown, rfl⟩, before, cell, hmailbox, hcell⟩

/-- Others take some steps, and the thread goes on. -/
theorem pass_others {es rest : List Event} (hes : ∀ e ∈ es, e.Others = true)
    (hsends : k.holder.Sends = true) (hallowed : Run.Along step Kernel.Allowed k (es ++ rest)) :
    ∃ k' shown, k'.Valid (trace ++ shown) ∧
      Meanwhile k (k', shown) ∧ Run.Along step Kernel.Allowed k' rest ∧
      run step k (es ++ rest) = ((run step k' rest).1, shown ++ (run step k' rest).2) := by
  obtain ⟨hallowed, hrest⟩ := along_append.mp hallowed
  exact ⟨_, _, valid_run h hallowed, run_meanwhile hes hsends, hrest, run_append ..⟩

/-- The end of a call that has an object for the message. -/
theorem queued_filling {c : SendCall} {msg : Nat} {shown : List Shown}
    (hholder : k.holder = .filling c.target c.message msg) (hlate : ∀ e ∈ c.late, e.Others = true)
    (hallowed : Run.Along step Kernel.Allowed k (c.late ++ [.link])) : c.Queued
    ((run step k (c.late ++ [.link])).1, shown ++ (run step k (c.late ++ [.link])).2) := by
  obtain ⟨k', shown', hvalid, hmean, -, hrun⟩ := pass_others h hlate (by rw [hholder]; rfl) hallowed
  have hlink : run step k' [.link] = ((k'.step .link).1, (k'.step .link).2) := by
    rw [run, run, append_nil]
  rw [hrun, hlink, ← append_assoc]
  exact queued_link hvalid (hmean.holder.trans hholder)

/-- The call, from any state that the invariant allows. -/
theorem queued_iff {c : SendCall} (hperm : c.Permitted k)
    (hallowed : Run.Along step Kernel.Allowed k c.events) :
    c.Queued (run step k c.events) ↔ msgHeader + c.data.length ≤ largestObject := by
  have hroom := h.waiting_lt hperm.alive hperm.room
  have hothers := hperm.others
  simp only [mem_append, or_imp, forall_and] at hothers
  obtain ⟨⟨hearly, hmiddle⟩, hlate⟩ := hothers
  have hsend := step_send hperm
  have hvalid₀ := valid_step hallowed.1 h
  have hallowed₀ := hallowed.2
  unfold SendCall.events
  rw [run]
  rw [hsend] at hvalid₀ hallowed₀ ⊢
  -- up to the mailbox
  obtain ⟨k₁, shown₁, hvalid₁, hmean₁, hallowed₁, hrun₁⟩ := pass_others hvalid₀ hearly rfl hallowed₀
  obtain ⟨hboxed, hshown⟩ := step_getBox hvalid₁ hallowed₁.1 hmean₁.holder
  have hvalid₁' := valid_step hallowed₁.1 hvalid₁
  rw [hrun₁, run]
  rw [hshown] at hvalid₁' ⊢
  -- up to the message
  obtain ⟨k₂, shown₂, hvalid₂, hmean₂, hallowed₂, hrun₂⟩ :=
    pass_others hvalid₁' hmiddle (by rw [hboxed]; rfl) hallowed₁.2
  have hroom₂ : waiting c.target (trace ++ [] ++ shown₁ ++ [] ++ shown₂) < ipcMaxDepth := by
    rw [waiting_of_meanwhile hmean₂, append_nil, waiting_of_meanwhile hmean₁, append_nil]
    exact hroom
  have hmsg := step_getMsg hvalid₂ hallowed₂.1 (hmean₂.holder.trans hboxed) hroom₂
  have hvalid₂' := valid_step hallowed₂.1 hvalid₂
  rw [hrun₂, run]
  simp only [nil_append, ← append_assoc]
  split at hmsg
  next hsize =>
    refine iff_of_true ?_ hsize
    obtain ⟨msg, hfilling, -⟩ := hmsg
    exact queued_filling hvalid₂' hfilling hlate hallowed₂.2
  next hsize =>
  refine iff_of_false ?_ hsize
  rintro ⟨⟨shown, hlast⟩, -⟩
  have hsent := congrArg (sentTo c.target) hlast
  rw [hmsg] at hsent
  have hrest :
      sentTo c.target (run step { k₂ with holder := .nobody } (c.late ++ [.link])).2 = [] :=
    run_unfilled hlate (by simp)
  have hfailed : sentTo c.target [Shown.failed ipcErrFull] = [] := rfl
  rw [sentTo_append, sentTo_append, sentTo_append, hmean₁.sent, hmean₂.sent, hfailed, hrest,
    sentTo_append, sentTo_sent, if_pos rfl] at hsent
  simp at hsent

end Call

/-! ## Whole runs -/

/--
After any run of the system, a call of `ipc_send` that may be made returns 0 and leaves its message
with all of its payload at the end of the mailbox, while there are pages and whatever others do
meanwhile, if and only if the message with its header is not larger than the largest object of the
slab.
-/
theorem ipcSend_queues_iff
    (m : Buffer)
    (before : List Event)
    (c : SendCall)
    (hperm : c.Permitted (run step (boot m) before).1)
    (hallowed : Run.Along step Kernel.Allowed (boot m) (before ++ c.events)) :
    c.Queued (run step (run step (boot m) before).1 c.events) ↔
      msgHeader + c.data.length ≤ largestObject := by
  obtain ⟨hbefore, hcall⟩ := along_append.mp hallowed
  exact queued_iff (valid_run (valid_boot m) hbefore) hperm hcall

/-- A message to a process without a mailbox; another thread gets an object meanwhile. -/
def toNewBox (data : List Byte) : SendCall where
  destPid := 2
  target := 0
  source := 1
  data := data
  boxPage := 4096
  msgPage := 8192
  early := []
  middle := [.otherAlloc 100 (some 12288)]
  late := []

theorem ipcSend_queues_iff_twoBytes :
    (toNewBox [7, 8]).Queued (run step (boot zero) (toNewBox [7, 8]).events) ↔
      msgHeader + 2 ≤ largestObject :=
  ipcSend_queues_iff zero [] (toNewBox [7, 8])
    ⟨by decide, by decide, rfl, rfl, fun h => absurd rfl h, by decide⟩ (by decide +kernel)

/-- A payload of `IPC_MAX_PAYLOAD` bytes is refused, although nothing is in use yet. -/
theorem ipcSend_maxPayload_refused :
    (toNewBox (replicate ipcMaxPayload 0)).Permitted (boot zero) ∧
      Run.Along step Kernel.Allowed (boot zero) (toNewBox (replicate ipcMaxPayload 0)).events ∧
      (run step (boot zero) (toNewBox (replicate ipcMaxPayload 0)).events).2 =
        [.failed ipcErrFull] := by
  refine ⟨⟨by decide, by decide +kernel, rfl, rfl, fun h => absurd rfl h, by decide⟩, ?_, ?_⟩
  · decide +kernel
  · decide +kernel

end PureCOS.Mailboxes
