import PureCOS.Ipc.Mailbox

/-!
# Messages arrive in order

Every object in use has an owner: the mailbox of a process, the messages of a process, the thread
that holds the lock, or someone else.  A step writes to objects of one owner, so all others find
theirs as they were.
-/

namespace PureCOS.Mailboxes

open Buffer Mm Function List Kernel

/-- Who uses an object. -/
inductive Owner where
  | box (p : Nat)
  | message (p : Nat)
  | pending
  | other

abbrev Objects := Layout (Tag Owner) Tag.len

section Cells

variable {L L' : Objects} {m m' : Buffer} {p a head : Nat} {cls : Fin 8} {cell : Cell}
  {cells : List Cell}

theorem length_msgData : (msgData m a).length = msgSize m a := by
  simp [msgData]

/-- What a message is depends on its bytes only. -/
theorem msg_congr (hsame : ∀ k < msgHeader + msgSize m a, m' (a + k) = m (a + k)) :
    linkNext m' a = linkNext m a ∧ msgFrom m' a = msgFrom m a ∧ msgData m' a = msgData m a := by
  unfold msgHeader at hsame
  have hsize : msgSize m' a = msgSize m a := by
    refine readU32_congr fun k hk => ?_
    rw [Nat.add_assoc]
    exact hsame (12 + k) (by omega)
  refine ⟨?_, ?_, ?_⟩
  · unfold linkNext
    rw [readU64_congr fun k hk => hsame k (by omega)]
  · unfold msgFrom
    rw [readU32_congr fun k hk => ?_]
    rw [Nat.add_assoc]
    exact hsame (8 + k) (by omega)
  unfold msgData
  rw [hsize]
  refine map_congr_left fun i hi => ?_
  rw [Nat.add_assoc]
  exact hsame (16 + i) (by have := mem_range.mp hi; omega)

/-- Messages of a process, one after the other. -/
structure Chain (L : Objects) (m : Buffer) (p head : Nat) (cells : List Cell) : Prop where
  linked : msgCells.Linked m head cells 0
  piece : ∀ cell ∈ cells, ∃ cls, L.piece cell.addr = some (.used cls (.message p)) ∧
    oomSlabClass (msgHeader + cell.message.data.length) = some cls
  nodup : (cells.map Cell.addr).Nodup

theorem Chain.nil : Chain L m p 0 [] := ⟨rfl, nofun, nodup_nil⟩

theorem msgSize_of_holds (h : msgCells.holds m cell) :
    msgSize m cell.addr = cell.message.data.length := by
  rw [← h.2, length_msgData]

/-- A message whose object is kept. -/
theorem cell_keeps {P : Nat → Owner → Prop} {o : Owner} (hkeeps : KeepsObjects P L m L' m')
    (hpiece : L.piece cell.addr = some (.used cls o))
    (hclass : oomSlabClass (msgHeader + cell.message.data.length) = some cls) (hP : P cell.addr o)
    (hholds : msgCells.holds m cell) :
    (msgCells.holds m cell → msgCells.holds m' cell) ∧
      msgCells.next m' (msgCells.addr cell) = msgCells.next m (msgCells.addr cell) := by
  obtain ⟨-, hsame⟩ := hkeeps _ _ _ hpiece hP
  have hle := le_of_oomSlabClass hclass
  have hsize := msgSize_of_holds hholds
  obtain ⟨hnext, hfrom, hdata⟩ := msg_congr fun k hk => hsame k (by omega)
  exact ⟨fun hholds => ⟨hfrom.trans hholds.1, hdata.trans hholds.2⟩, hnext⟩

/-- Messages whose objects are kept. -/
theorem Chain.keeps {P : Nat → Owner → Prop} (h : Chain L m p head cells)
    (hkeeps : KeepsObjects P L m L' m') (hP : ∀ cell ∈ cells, P cell.addr (.message p)) :
    Chain L' m' p head cells := by
  refine ⟨h.linked.congr fun cell hcell => ?_, fun cell hcell => ?_, h.nodup⟩
  · obtain ⟨cls, hpiece, hclass⟩ := h.piece cell hcell
    exact cell_keeps hkeeps hpiece hclass (hP cell hcell) (h.linked.holds_of_mem hcell)
  · obtain ⟨cls, hpiece, hclass⟩ := h.piece cell hcell
    exact ⟨cls, (hkeeps _ _ _ hpiece (hP cell hcell)).1, hclass⟩

end Cells

section Invariant

variable {L L' : Objects} {m m' : Buffer} {p mailbox : Nat} {cleaning : Option (Nat × Nat)}
  {queue rest : List Cell}

/-- A mailbox with its messages. -/
structure BoxOk (L : Objects) (m : Buffer) (p mailbox : Nat) (queue : List Cell) : Prop where
  piece : L.piece mailbox = some (.used 0 (.box p))
  chain : Chain L m p (boxHead m mailbox) queue
  tail : boxTail m mailbox = (queue.getLast?.map Cell.addr).getD 0
  count : boxCount m mailbox = queue.length
  depth : queue.length ≤ ipcMaxDepth

/-- What a process has in slab memory. -/
structure ProcOk (L : Objects) (m : Buffer) (p mailbox : Nat) (cleaning : Option (Nat × Nat))
    (queue rest : List Cell) : Prop where
  box : mailbox ≠ 0 → BoxOk L m p mailbox queue
  empty : mailbox = 0 → queue = []
  cleaning : ∀ msg box, cleaning = some (msg, box) →
    mailbox = 0 ∧ L.piece box = some (.used 0 (.box p)) ∧ Chain L m p msg rest

theorem box_congr (hsame : ∀ k < mboxSize, m' (mailbox + k) = m (mailbox + k)) :
    boxHead m' mailbox = boxHead m mailbox ∧ boxTail m' mailbox = boxTail m mailbox ∧
      boxCount m' mailbox = boxCount m mailbox := by
  unfold mboxSize at hsame
  refine ⟨?_, ?_, ?_⟩
  · unfold boxHead
    rw [readU64_congr fun k hk => hsame k (by omega)]
  · unfold boxTail
    rw [readU64_congr fun k hk => ?_]
    rw [Nat.add_assoc]
    exact hsame (8 + k) (by omega)
  · unfold boxCount
    refine readU32_congr fun k hk => ?_
    rw [Nat.add_assoc]
    exact hsame (16 + k) (by omega)

theorem mboxSize_le (cls : Fin 8) : mboxSize ≤ oomSlabSize cls := by
  have hge := oomSlabSize_ge cls
  unfold mboxSize
  omega

theorem BoxOk.keeps {P : Nat → Owner → Prop} (h : BoxOk L m p mailbox queue)
    (hkeeps : KeepsObjects P L m L' m')
    (hP : ∀ a c o, L.piece a = some (.used c o) → o = .box p ∨ o = .message p → P a o) :
    BoxOk L' m' p mailbox queue := by
  obtain ⟨hpiece', hsame⟩ := hkeeps _ _ _ h.piece (hP _ _ _ h.piece (.inl rfl))
  have hle := mboxSize_le 0
  obtain ⟨hhead, htail, hcount⟩ := box_congr fun k hk => hsame k (by omega)
  have hchain : Chain L' m' p (boxHead m mailbox) queue := by
    refine h.chain.keeps hkeeps fun cell hcell => ?_
    obtain ⟨cls, hpiece, -⟩ := h.chain.piece cell hcell
    exact hP _ _ _ hpiece (.inr rfl)
  exact ⟨hpiece', hhead ▸ hchain, htail.trans h.tail, hcount.trans h.count, h.depth⟩

/-- A process whose objects are kept. -/
theorem ProcOk.keeps {P : Nat → Owner → Prop}
    (h : ProcOk L m p mailbox cleaning queue rest) (hkeeps : KeepsObjects P L m L' m')
    (hP : ∀ a c o, L.piece a = some (.used c o) → o = .box p ∨ o = .message p → P a o) :
    ProcOk L' m' p mailbox cleaning queue rest := by
  refine ⟨fun hne => (h.box hne).keeps hkeeps hP, h.empty, fun msg box hcleaning => ?_⟩
  obtain ⟨hzero, hpiece, hchain⟩ := h.cleaning msg box hcleaning
  refine ⟨hzero, (hkeeps _ _ _ hpiece (hP _ _ _ hpiece (.inl rfl))).1,
    hchain.keeps hkeeps fun cell hcell => ?_⟩
  obtain ⟨cls, hpiece, -⟩ := hchain.piece cell hcell
  exact hP _ _ _ hpiece (.inr rfl)

/-- What the holder of the lock has. -/
def HolderOk (L : Objects) (m : Buffer) (k : Kernel) : Holder → Prop
  | .nobody => True
  | .sending p message => k.exited p = false ∧ message.data.length ≤ ipcMaxPayload
  | .boxed p message => k.exited p = false ∧ message.data.length ≤ ipcMaxPayload ∧ k.mailbox p ≠ 0
  | .filling p message msg =>
    k.exited p = false ∧ message.data.length ≤ ipcMaxPayload ∧ k.mailbox p ≠ 0 ∧
      boxCount m (k.mailbox p) < ipcMaxDepth ∧ ∃ cls, L.piece msg = some (.used cls .pending) ∧
      oomSlabClass (msgHeader + message.data.length) = some cls
  | .receiving msg =>
    ∃ cls, L.piece msg = some (.used cls .pending) ∧
      oomSlabClass (msgHeader + msgSize m msg) = some cls

theorem HolderOk.congr {k k' : Kernel} {holder : Holder} (h : HolderOk L m k holder)
    (hexited : k'.exited = k.exited) (hmailbox : k'.mailbox = k.mailbox) :
    HolderOk L m k' holder := by
  cases holder with
  | nobody => trivial
  | sending p message =>
    unfold HolderOk
    rw [hexited]
    exact h
  | boxed p message =>
    unfold HolderOk
    rw [hexited, hmailbox]
    exact h
  | filling p message msg =>
    unfold HolderOk
    rw [hexited, hmailbox]
    exact h
  | receiving msg => exact h

/-- The invariant, with the messages in the mailboxes and those that are being freed. -/
structure Inv (trace : List Shown) (k : Kernel) (L : Objects) (queue rest : Nat → List Cell) :
    Prop where
  sound : k.slab.Sound L
  procs : ∀ p, ProcOk L k.slab.mem p (k.mailbox p) (k.cleaning p) (queue p) (rest p)
  holder : HolderOk L k.slab.mem k k.holder
  exited : ∀ p, k.cleaning p ≠ none → k.exited p = true
  others : ∀ a size, k.others a = some size →
    size ≠ 0 ∧ ∃ cls, L.piece a = some (.used cls .other) ∧ oomSlabClass size = some cls
  order : ∀ p, receivedBy p trace ++ (queue p).map Cell.message <+: sentTo p trace
  exact : ∀ p, k.exited p = false ∨ k.mailbox p ≠ 0 →
    sentTo p trace = receivedBy p trace ++ (queue p).map Cell.message

/-- The invariant for some messages. -/
def Kernel.Valid (trace : List Shown) (k : Kernel) : Prop :=
  ∃ L queue rest, Inv trace k L queue rest

/-- The invariant after a step. -/
def Kernel.ValidAfter (trace : List Shown) (k : Kernel) (e : Event) : Prop :=
  (k.step e).1.Valid (trace ++ (k.step e).2)

end Invariant

/-! ## Fields -/

section Fields

variable {m : Buffer} {a box head tail count : Nat} {message : Message}

theorem box_zero (hzero : ∀ k < mboxSize, m (a + k) = 0) :
    boxHead m a = 0 ∧ boxTail m a = 0 ∧ boxCount m a = 0 := by
  have hsame : ∀ k < mboxSize, m (a + k) = zero (a + k) := hzero
  obtain ⟨hhead, htail, hcount⟩ := box_congr hsame
  refine ⟨hhead.trans ?_, htail.trans ?_, hcount.trans rfl⟩ <;> rfl

theorem within_setBox : m.Within (setBox m box head tail count) box (oomSlabSize 0) := by
  have hend : box + mboxSize = box + 24 := rfl
  have hle := mboxSize_le 0
  exact Within.trans (within_writeU64 (by omega) (by omega))
    (Within.trans (within_writeU64 (by omega) (by omega)) (within_writeU32 (by omega) (by omega)))

theorem boxHead_setBox (h : head < 2 ^ 64) : boxHead (setBox m box head tail count) box = head := by
  have hsame : readU64 (setBox m box head tail count) box =
      readU64 (m.writeU64 box (BitVec.ofNat 64 head)) box := by
    refine readU64_congr fun k hk => ?_
    unfold setBox writeU32
    rw [splice_of_outside (by omega), writeU64_of_outside (by omega)]
  rw [boxHead, hsame, readU64_writeU64, BitVec.toNat_ofNat, Nat.mod_eq_of_lt h]

theorem boxTail_setBox (h : tail < 2 ^ 64) : boxTail (setBox m box head tail count) box = tail := by
  have hsame : readU64 (setBox m box head tail count) (box + 8) = readU64 ((m.writeU64 box
      (BitVec.ofNat 64 head)).writeU64 (box + 8) (BitVec.ofNat 64 tail)) (box + 8) := by
    refine readU64_congr fun k hk => ?_
    unfold setBox writeU32
    rw [splice_of_outside (by omega)]
  rw [boxTail, hsame, readU64_writeU64, BitVec.toNat_ofNat, Nat.mod_eq_of_lt h]

theorem boxCount_setBox : boxCount (setBox m box head tail count) box = count % 2 ^ 32 :=
  readU32_writeU32_mod

theorem within_fillMsg : m.Within (fillMsg m a message) a (msgHeader + message.data.length) := by
  unfold fillMsg msgHeader
  refine Within.trans (within_setLinkNext _ 0 (by omega)) ?_
  refine Within.trans (within_writeU32 ?_ ?_)
    (Within.trans (within_writeU32 ?_ ?_) (within_splice ?_ ?_))
  all_goals omega

theorem linkNext_fillMsg : linkNext (fillMsg m a message) a = 0 := by
  have hsame : readU64 (fillMsg m a message) a = readU64 (setLinkNext m a 0) a := by
    refine readU64_congr fun k hk => ?_
    unfold fillMsg writeU32 msgHeader
    rw [splice_of_outside (by omega), splice_of_outside (by omega), splice_of_outside (by omega)]
  rw [linkNext, hsame]
  exact linkNext_setLinkNext (by decide)

theorem msgFrom_fillMsg : msgFrom (fillMsg m a message) a = message.source := by
  have hsame : readU32 (fillMsg m a message) (a + 8) =
      readU32 ((setLinkNext m a 0).writeU32 (a + 8) message.source.toNat) (a + 8) := by
    refine readU32_congr fun k hk => ?_
    unfold fillMsg msgHeader
    rw [splice_of_outside (by omega)]
    exact splice_of_outside (by omega)
  rw [msgFrom, hsame, readU32_writeU32 message.source.isLt, BitVec.ofNat_toNat, BitVec.setWidth_eq]

theorem msgData_fillMsg (hsize : message.data.length < 2 ^ 32) :
    msgData (fillMsg m a message) a = message.data := by
  have hlen : msgSize (fillMsg m a message) a = message.data.length := by
    unfold msgSize fillMsg msgHeader
    rw [readU32_splice_of_outside (by omega), readU32_writeU32 hsize]
  unfold msgData
  rw [hlen]
  refine ext_getElem (by simp) fun i hi hi' => ?_
  rw [getElem_map, getElem_range]
  unfold fillMsg
  rw [splice_apply hi', getD_eq_getElem?_getD, getElem?_eq_getElem hi', Option.getD_some]

end Fields

/-! ## Traces -/

section Traces

variable {p : Nat} {trace shown : List Shown}

theorem sentTo_append : sentTo p (trace ++ shown) = sentTo p trace ++ sentTo p shown :=
  filterMap_append

theorem receivedBy_append :
    receivedBy p (trace ++ shown) = receivedBy p trace ++ receivedBy p shown :=
  filterMap_append

theorem sentTo_sent {q : Nat} {message : Message} :
    sentTo q [.sent p message] = if p = q then [message] else [] := by
  unfold sentTo
  split <;> simp_all

theorem receivedBy_received {q : Nat} {message : Message} :
    receivedBy q [.received p message] = if p = q then [message] else [] := by
  unfold receivedBy
  split <;> simp_all

end Traces

/-! ## Steps that leave the messages alone -/

section Frame

variable {L L' : Objects} {k : Kernel} {trace : List Shown} {queue rest : Nat → List Cell}
  {slab : Slab} {m' : Buffer} {P : Nat → Owner → Prop} {holder : Holder}
  (h : Inv trace k L queue rest)

include h

/-- A call that fails. -/
theorem Inv.failed (status : Int) : Inv (trace ++ [.failed status]) k L queue rest := by
  refine ⟨h.sound, h.procs, h.holder, h.exited, h.others, fun p => ?_, fun p => ?_⟩
  · rw [sentTo_append, receivedBy_append]
    simpa [sentTo, receivedBy] using h.order p
  · rw [sentTo_append, receivedBy_append]
    simpa [sentTo, receivedBy] using h.exact p

/-- The holder goes on. -/
theorem Inv.hold (hholder : HolderOk L k.slab.mem k holder) :
    Inv trace { k with holder := holder } L queue rest :=
  ⟨h.sound, h.procs, hholder.congr rfl rfl, h.exited, h.others, h.order, h.exact⟩

/-- The lock is let go. -/
theorem Inv.unlock : Inv trace { k with holder := .nobody } L queue rest :=
  h.hold trivial

/-- Nothing happens. -/
theorem Inv.stay : k.Valid (trace ++ []) := by
  rw [append_nil]
  exact ⟨L, queue, rest, h⟩

/-- What the holder has is kept. -/
theorem Inv.keeps_holder (hkeeps : KeepsObjects P L k.slab.mem L' m')
    (hP : ∀ a c o, L.piece a = some (.used c o) →
      (o = .pending ∨ ∃ q, o = .box q ∧ k.exited q = false) → P a o) :
    HolderOk L' m' k k.holder := by
  have hholder := h.holder
  generalize k.holder = holder at hholder
  cases holder with
  | nobody => trivial
  | sending p message => exact hholder
  | boxed p message => exact hholder
  | filling p message msg =>
    obtain ⟨halive, hsize, hbox, hcount, cls, hpiece, hclass⟩ := hholder
    have hboxPiece := ((h.procs p).box hbox).piece
    obtain ⟨-, hsame⟩ := hkeeps _ _ _ hboxPiece (hP _ _ _ hboxPiece (.inr ⟨p, rfl, halive⟩))
    have hle := mboxSize_le 0
    have hcount' := (box_congr fun j hj => hsame j (by omega)).2.2
    exact ⟨halive, hsize, hbox, hcount' ▸ hcount, cls,
      (hkeeps _ _ _ hpiece (hP _ _ _ hpiece (.inl rfl))).1, hclass⟩
  | receiving msg =>
    obtain ⟨cls, hpiece, hclass⟩ := hholder
    obtain ⟨hpiece', hsame⟩ := hkeeps _ _ _ hpiece (hP _ _ _ hpiece (.inl rfl))
    have hle := le_of_oomSlabClass hclass
    unfold msgHeader at hle
    have hsize : msgSize m' msg = msgSize k.slab.mem msg := by
      refine readU32_congr fun j hj => ?_
      rw [Nat.add_assoc]
      exact hsame (12 + j) (by omega)
    exact ⟨cls, hpiece', hsize ▸ hclass⟩

/-- What the others have is kept. -/
theorem Inv.keeps_others (hkeeps : KeepsObjects P L k.slab.mem L' m')
    (hP : ∀ a c, L.piece a = some (.used c .other) → P a .other) (a size : Nat)
    (ha : k.others a = some size) :
    size ≠ 0 ∧ ∃ cls, L'.piece a = some (.used cls .other) ∧ oomSlabClass size = some cls := by
  obtain ⟨hsize, cls, hpiece, hclass⟩ := h.others a size ha
  exact ⟨hsize, cls, (hkeeps _ _ _ hpiece (hP _ _ hpiece)).1, hclass⟩

/-- All objects are kept. -/
theorem Inv.keeps (hsound : slab.Sound L')
    (hkeeps : KeepsObjects (fun _ _ => True) L k.slab.mem L' slab.mem) :
    Inv trace { k with slab := slab } L' queue rest := by
  have hholder := h.keeps_holder hkeeps fun _ _ _ _ _ => trivial
  exact ⟨hsound, fun p => (h.procs p).keeps hkeeps fun _ _ _ _ _ => trivial, hholder.congr rfl rfl,
    h.exited, h.keeps_others hkeeps fun _ _ _ => trivial, h.order, h.exact⟩

/-- A step changes what one process has; all others find theirs as it was. -/
theorem Inv.change {k' : Kernel} {shown : List Shown} {p : Nat} (cells cells' : List Cell)
    (hsound : k'.slab.Sound L') (hkeeps : KeepsObjects P L k.slab.mem L' k'.slab.mem)
    (hP : ∀ a c o, L.piece a = some (.used c o) → o ≠ .box p → o ≠ .message p → o ≠ .pending →
      P a o) (hsame : ∀ q ≠ p, k'.mailbox q = k.mailbox q ∧ k'.cleaning q = k.cleaning q)
    (hexited : k'.exited = k.exited) (hothers : k'.others = k.others)
    (hshown : ∀ q ≠ p, sentTo q shown = [] ∧ receivedBy q shown = [])
    (hproc : ProcOk L' k'.slab.mem p (k'.mailbox p) (k'.cleaning p) cells cells')
    (hholder : HolderOk L' k'.slab.mem k' k'.holder)
    (hcleaning : k'.cleaning p ≠ none → k.exited p = true)
    (horder : receivedBy p (trace ++ shown) ++ cells.map Cell.message <+: sentTo p (trace ++ shown))
    (hexact : k.exited p = false ∨ k'.mailbox p ≠ 0 →
      sentTo p (trace ++ shown) = receivedBy p (trace ++ shown) ++ cells.map Cell.message) :
    k'.Valid (trace ++ shown) := by
  refine ⟨L', update queue p cells, update rest p cells', hsound, fun q => ?_, hholder,
    fun q hq => ?_, hothers ▸ h.keeps_others hkeeps fun a c ha => hP a c _ ha nofun nofun nofun,
    fun q => ?_, fun q hq => ?_⟩
  · by_cases hqp : q = p
    · subst hqp
      simpa only [update_self] using hproc
    · rw [update_of_ne hqp, update_of_ne hqp, (hsame q hqp).1, (hsame q hqp).2]
      refine (h.procs q).keeps hkeeps fun a c o ha ho => hP a c o ha ?_ ?_ ?_
      all_goals rcases ho with rfl | rfl <;> simp [hqp]
  · rw [hexited]
    by_cases hqp : q = p
    · subst hqp
      exact hcleaning hq
    · exact h.exited q ((hsame q hqp).2 ▸ hq)
  · by_cases hqp : q = p
    · subst hqp
      rwa [update_self]
    · rw [update_of_ne hqp, sentTo_append, receivedBy_append, (hshown q hqp).1, (hshown q hqp).2,
        append_nil, append_nil]
      exact h.order q
  rw [hexited] at hq
  by_cases hqp : q = p
  · subst hqp
    rw [update_self]
    exact hexact hq
  rw [(hsame q hqp).1] at hq
  rw [update_of_ne hqp, sentTo_append, receivedBy_append, (hshown q hqp).1, (hshown q hqp).2,
    append_nil, append_nil]
  exact h.exact q hq

end Frame

section Steps

variable {L : Objects} {k : Kernel} {trace : List Shown} {queue rest : Nat → List Cell}
  {page : Option Nat} {p : Nat}

theorem sendChecks_ok {k : Kernel} {destPid size : Nat} {target : Option Nat} {source : BitVec 32}
    {data : Option (List Byte)} {capable : Bool} {message : Message}
    (h : sendChecks k destPid target source data size capable = .ok (p, message)) :
    k.exited p = false ∧ message.data.length ≤ ipcMaxPayload := by
  unfold sendChecks at h
  split at h
  · cases h
  next hsize =>
  split at h
  · cases h
  cases data with
  | none => cases h
  | some bytes =>
    cases target with
    | none => cases h
    | some q =>
      dsimp only at h
      split at h
      · cases h
      next halive =>
        cases h
        refine ⟨Bool.eq_false_iff.mpr halive, ?_⟩
        rw [length_map, length_range]
        exact Nat.le_of_not_lt hsize

theorem valid_send {destPid size : Nat} {target : Option Nat} {source : BitVec 32}
    {data : Option (List Byte)} {capable : Bool} (h : Inv trace k L queue rest) :
    k.ValidAfter trace (.send destPid target source data size capable) := by
  dsimp only [Kernel.ValidAfter, step]
  split
  · cases hchecks : sendChecks k destPid target source data size capable with
    | error status => exact ⟨L, queue, rest, h.failed status⟩
    | ok r =>
      rw [append_nil]
      exact ⟨L, queue, rest, h.hold (sendChecks_ok hchecks)⟩
  · exact h.stay

theorem valid_getBox (h : Inv trace k L queue rest) (hpage : k.slab.Fresh page) :
    k.ValidAfter trace (.getBox page) := by
  have hholder := h.holder
  dsimp only [Kernel.ValidAfter, step]
  generalize hk : k.holder = holder at hholder
  cases holder with
  | sending p message =>
    obtain ⟨halive, hsize⟩ := hholder
    dsimp only
    by_cases hbox : k.mailbox p ≠ 0
    · rw [if_pos hbox, append_nil]
      exact ⟨L, queue, rest, h.hold ⟨halive, hsize, hbox⟩⟩
    rw [if_neg hbox]
    rcases alloc_spec h.sound hpage mboxSize (.box p) with hnone | ⟨cls, L', hclass, halloc⟩
    · rw [hnone]
      exact ⟨L, queue, rest, h.unlock.failed _⟩
    obtain rfl : cls = 0 := (Option.some.inj hclass).symm
    generalize k.slab.alloc mboxSize page = r at halloc
    have hne : r.2 ≠ 0 := Nat.ne_of_gt (halloc.sound.small _ _ halloc.piece).1
    rw [if_neg hne]
    have hwithin : r.1.mem.Within (r.1.mem.splice r.2 mboxSize zero) r.2 (oomSlabSize 0) :=
      within_splice (Nat.le_refl _) (Nat.add_le_add_left (mboxSize_le 0) _)
    have hkeeps : KeepsObjects (fun _ _ => True) L k.slab.mem L'
        (r.1.mem.splice r.2 mboxSize zero) := by
      intro b c o hb _
      obtain ⟨hb', hsame⟩ := halloc.keeps b c o hb trivial
      have hneq : b ≠ r.2 := by
        rintro rfl
        exact halloc.new c o hb
      exact ⟨hb', fun j hj => (Layout.same_of_within halloc.piece hb' hneq hwithin hj).trans
        (hsame j hj)⟩
    have hsound : Slab.Sound { r.1 with mem := r.1.mem.splice r.2 mboxSize zero } L' :=
      halloc.sound.write halloc.piece hwithin
    have hempty := (h.procs p).empty (Decidable.not_not.mp hbox)
    have hcleaning : k.cleaning p = none := by
      by_contra hsome
      exact Bool.false_ne_true (halive.symm.trans (h.exited p hsome))
    obtain ⟨hhead, htail, hcount⟩ :=
      box_zero (m := r.1.mem.splice r.2 mboxSize zero) (a := r.2) fun j hj => splice_apply hj
    have hupdate : ∀ q ≠ p, update k.mailbox p r.2 q = k.mailbox q := fun q hqp =>
      update_of_ne hqp _ _
    refine h.change [] [] hsound hkeeps (fun _ _ _ _ _ _ _ => trivial) (fun q hqp =>
      ⟨hupdate q hqp, rfl⟩) rfl rfl (fun _ _ => ⟨rfl, rfl⟩) ?_ ?_ (h.exited p) ?_ fun _ => ?_
    · simp only [update_self]
      refine ⟨fun _ => ⟨halloc.piece, ?_, htail, hcount, Nat.zero_le _⟩, fun _ => rfl,
        fun _ _ hsome => ?_⟩
      · rw [hhead]
        exact Chain.nil
      · cases hcleaning.symm.trans hsome
    · refine ⟨halive, hsize, ?_⟩
      simp only [update_self]
      exact hne
    · have horder := h.order p
      rwa [hempty, ← append_nil trace] at horder
    · have hexact := h.exact p (.inl halive)
      rwa [hempty, ← append_nil trace] at hexact
  | _ => exact h.stay

theorem valid_getMsg (h : Inv trace k L queue rest) (hpage : k.slab.Fresh page) :
    k.ValidAfter trace (.getMsg page) := by
  have hholder := h.holder
  dsimp only [Kernel.ValidAfter, step]
  generalize hk : k.holder = holder at hholder
  cases holder with
  | boxed p message =>
    obtain ⟨halive, hsize, hbox⟩ := hholder
    dsimp only
    by_cases hfull : ipcMaxDepth ≤ boxCount k.slab.mem (k.mailbox p)
    · rw [if_pos hfull]
      exact ⟨L, queue, rest, h.unlock.failed _⟩
    rw [if_neg hfull]
    rcases alloc_spec h.sound hpage (msgHeader + message.data.length) .pending with
      hnone | ⟨cls, L', hclass, halloc⟩
    · rw [hnone]
      exact ⟨L, queue, rest, h.unlock.failed _⟩
    generalize k.slab.alloc (msgHeader + message.data.length) page = r at halloc
    rw [if_neg (Nat.ne_of_gt (halloc.sound.small _ _ halloc.piece).1), append_nil]
    have hall := h.keeps halloc.sound halloc.keeps
    refine ⟨L', queue, rest, hall.hold ⟨halive, hsize, hbox, ?_, cls, halloc.piece, hclass⟩⟩
    have hcount := ((h.procs p).box hbox).count
    have hcount' := ((hall.procs p).box hbox).count
    exact Nat.lt_of_not_le fun hle => hfull (hcount ▸ hcount' ▸ hle)
  | _ => exact h.stay

/-- Fields of a message behind its link. -/
theorem msg_setLinkNext {m : Buffer} {a next : Nat} :
    msgFrom (setLinkNext m a next) a = msgFrom m a ∧
      msgData (setLinkNext m a next) a = msgData m a := by
  have hsame : ∀ b, a + 8 ≤ b → setLinkNext m a next b = m b :=
    fun b hb => writeU64_of_outside (by omega)
  have hsize : msgSize (setLinkNext m a next) a = msgSize m a :=
    readU32_congr fun k hk => hsame _ (by omega)
  constructor
  · unfold msgFrom
    rw [readU32_congr fun k hk => hsame _ (by omega)]
  unfold msgData
  rw [hsize]
  refine map_congr_left fun i _ => hsame _ ?_
  unfold msgHeader
  omega

theorem Chain.ne_of_mem {L : Objects} {m : Buffer} {p head a : Nat} {cells : List Cell}
    {cell : Cell} {cls : Fin 8} {o : Owner} (h : Chain L m p head cells) (hcell : cell ∈ cells)
    (ha : L.piece a = some (.used cls o)) (ho : o ≠ .message p) : cell.addr ≠ a := by
  obtain ⟨c, hpiece, -⟩ := h.piece cell hcell
  exact ne_of_owner ha hpiece ho.symm

/-- A message behind those that there are. -/
theorem Chain.snoc {L : Objects} {m : Buffer} {p head msg : Nat}
    {cls : Fin 8} {cells : List Cell} {message : Message} (h : Chain L m p head cells)
    (hpiece : L.piece msg = some (.used cls (.message p))) (hnew : ∀ cell ∈ cells, cell.addr ≠ msg)
    (hclass : oomSlabClass (msgHeader + message.data.length) = some cls) {m' : Buffer} {head' : Nat}
    (hlinked : msgCells.Linked m' head' (cells ++ [⟨msg, message⟩]) 0) :
    Chain L m' p head' (cells ++ [⟨msg, message⟩]) := by
  refine ⟨hlinked, fun cell hcell => ?_, ?_⟩
  · rcases mem_append.mp hcell with hcell | hcell
    · exact h.piece cell hcell
    · rw [mem_singleton.mp hcell]
      exact ⟨cls, hpiece, hclass⟩
  rw [map_append]
  refine nodup_append.mpr ⟨h.nodup, pairwise_singleton _ _, fun a ha b hb => ?_⟩
  obtain ⟨cell, hcell, rfl⟩ := mem_map.mp ha
  rw [mem_singleton.mp hb]
  exact hnew cell hcell

section Link

variable {m : Buffer} {head msg : Nat} {cls : Fin 8} {cells xs : List Cell} {last : Cell}
  {message : Message}

/-- The layout in which a message has been handed over. -/
abbrev handed (L : Objects) (p msg : Nat) (cls : Fin 8)
    (hmsg : L.piece msg = some (.used cls .pending)) : Objects :=
  L.retag msg (.used cls .pending) (.used cls (.message p)) hmsg rfl

/-- What a message is once it is filled in. -/
theorem linked_fillMsg (hne : msg ≠ 0) (hsize : message.data.length < 2 ^ 32) :
    msgCells.Linked (fillMsg m msg message) msg [⟨msg, message⟩] 0 :=
  ⟨rfl, hne, ⟨msgFrom_fillMsg, msgData_fillMsg hsize⟩, linkNext_fillMsg⟩

theorem within_link (c : Fin 8) {a n : Nat} : m.Within (setLinkNext m a n) a (oomSlabSize c) := by
  have hge := oomSlabSize_ge c
  exact within_setLinkNext _ _ (by omega)

variable (hclass : oomSlabClass (msgHeader + message.data.length) = some cls)

include hclass

theorem within_message : m.Within (fillMsg m msg message) msg (oomSlabSize cls) := by
  have hle := le_of_oomSlabClass hclass
  exact fun b hb => within_fillMsg b (by omega)

variable (hmsg : L.piece msg = some (.used cls .pending))

include hmsg

/-- The chain when a message has been filled in. -/
theorem Chain.fill (h : Chain L m p head cells) :
    Chain (handed L p msg cls hmsg) (fillMsg m msg message) p head cells := by
  have hne : ∀ cell ∈ cells, cell.addr ≠ msg := fun cell hcell => h.ne_of_mem hcell hmsg nofun
  exact (h.keeps (keeps_write hmsg (within_message hclass)) hne).keeps (keeps_pass hmsg) hne

variable (hne : msg ≠ 0) (hsize : message.data.length < 2 ^ 32)

include hne hsize

/-- The first message of an empty chain. -/
theorem Chain.link_first (h : Chain L m p head []) :
    Chain (handed L p msg cls hmsg) (fillMsg m msg message) p msg ([] ++ [⟨msg, message⟩]) :=
  (h.fill hclass hmsg).snoc Layout.retag_self nofun hclass (linked_fillMsg hne hsize)

/-- A message behind the last one. -/
theorem Chain.link_last (hsmall : msg < 2 ^ 64) (h : Chain L m p head (xs ++ [last])) :
    Chain (handed L p msg cls hmsg) (setLinkNext (fillMsg m msg message) last.addr msg) p head
      ((xs ++ [last]) ++ [⟨msg, message⟩]) := by
  have hfill := h.fill hclass hmsg
  have hlastMem : last ∈ xs ++ [last] := mem_append_right _ mem_cons_self
  have hneq : last.addr ≠ msg := h.ne_of_mem hlastMem hmsg nofun
  obtain ⟨c, hlast, -⟩ := hfill.piece last hlastMem
  have hkeeps := keeps_write hlast (within_link c (m := fillMsg m msg message) (n := msg))
  have hnodup := hfill.nodup
  rw [map_append, nodup_append] at hnodup
  obtain ⟨-, -, hdist⟩ := hnodup
  -- all messages but the last one are as before, the last one has a new link
  have hrelinked : msgCells.Linked (setLinkNext (fillMsg m msg message) last.addr msg) head
      (xs ++ [last]) msg := by
    refine hfill.linked.relink (fun y hy => ?_) (fun hholds => ?_) (linkNext_setLinkNext hsmall)
    · obtain ⟨c', hpiece, hclass'⟩ := hfill.piece y (mem_append_left _ hy)
      have hyne : y.addr ≠ last.addr := hdist _ (mem_map_of_mem hy) _ mem_cons_self
      exact cell_keeps hkeeps hpiece hclass' hyne (hfill.linked.holds_of_mem (mem_append_left _ hy))
    · exact ⟨msg_setLinkNext.1.trans hholds.1, msg_setLinkNext.2.trans hholds.2⟩
  have hself : (handed L p msg cls hmsg).piece msg = some (.used cls (.message p)) :=
    Layout.retag_self
  have hnew : msgCells.Linked (setLinkNext (fillMsg m msg message) last.addr msg) msg
      [⟨msg, message⟩] 0 := by
    have hfilled : msgCells.Linked (fillMsg m msg message) msg [⟨msg, message⟩] 0 :=
      linked_fillMsg hne hsize
    refine hfilled.congr fun cell hcell => ?_
    rw [mem_singleton.mp hcell]
    exact cell_keeps hkeeps hself hclass hneq.symm (hfilled.holds_of_mem mem_cons_self)
  refine hfill.snoc hself (fun cell hcell => h.ne_of_mem hcell hmsg nofun) hclass ?_
  exact Cells.linked_append.mpr ⟨msg, hrelinked, hnew⟩

/-- What `ipc_send` does to a mailbox before it changes the mailbox itself. -/
theorem linkMsg_spec {box : Nat} (hsmall : msg < 2 ^ 64) (hbox : BoxOk L m p box cells) :
    ∃ m₂ head₂, linkMsg m box msg message = setBox m₂ box head₂ msg (boxCount m box + 1) ∧
      head₂ < 2 ^ 64 ∧ Chain (handed L p msg cls hmsg) m₂ p head₂ (cells ++ [⟨msg, message⟩]) ∧
      KeepsObjects (fun _ o => o ≠ .pending ∧ o ≠ .message p) L m (handed L p msg cls hmsg) m₂ ∧
      SameLinks L m m₂ := by
  have hwithin : m.Within (fillMsg m msg message) msg (oomSlabSize cls) := within_message hclass
  have hfillKeeps : KeepsObjects (fun _ o => o ≠ .pending ∧ o ≠ .message p) L m L
      (fillMsg m msg message) :=
    (keeps_write hmsg hwithin).mono fun _ _ _ hb hP => ne_of_owner hmsg hb hP.1
  have hpass : ∀ {m₂}, KeepsObjects (fun _ o => o ≠ .pending ∧ o ≠ .message p) L m L m₂ →
      KeepsObjects (fun _ o => o ≠ .pending ∧ o ≠ .message p) L m (handed L p msg cls hmsg) m₂ :=
    fun hkeeps =>
    hkeeps.trans ((keeps_pass hmsg).mono fun _ _ _ hb hP => ne_of_owner hmsg hb hP.1)
  have hboxSame : ∀ {m₂}, KeepsObjects (fun _ o => o ≠ .pending ∧ o ≠ .message p) L m L m₂ →
      boxHead m₂ box = boxHead m box ∧ boxTail m₂ box = boxTail m box ∧
      boxCount m₂ box = boxCount m box := by
    intro m₂ hkeeps
    have hle := mboxSize_le 0
    exact box_congr fun j hj => (hkeeps _ _ _ hbox.piece ⟨nofun, nofun⟩).2 j (by omega)
  obtain ⟨-, htail₁, hcount₁⟩ := hboxSame hfillKeeps
  unfold linkMsg
  dsimp only
  rcases eq_nil_or_concat cells with hnil | ⟨xs, last, hlast⟩
  · subst hnil
    rw [htail₁, hbox.tail, hcount₁]
    exact ⟨_, _, if_pos rfl, hsmall, hbox.chain.link_first hclass hmsg hne hsize, hpass hfillKeeps,
      sameLinks_write hmsg hwithin⟩
  rw [concat_eq_append] at hlast
  subst hlast
  have hlastMem : last ∈ xs ++ [last] := mem_append_right _ mem_cons_self
  have hlastNe : last.addr ≠ 0 := hbox.chain.linked.addr_ne_zero hlastMem
  obtain ⟨c, hpiece, -⟩ := hbox.chain.piece last hlastMem
  have htailEq : boxTail (fillMsg m msg message) box = last.addr := by
    rw [htail₁, hbox.tail, getLast?_concat]
    rfl
  have hkeeps₂ : KeepsObjects (fun _ o => o ≠ .pending ∧ o ≠ .message p) L m L
      (setLinkNext (fillMsg m msg message) last.addr msg) :=
    hfillKeeps.trans ((keeps_write hpiece (within_link c)).mono fun _ _ _ hb hP =>
      ne_of_owner hpiece hb hP.2)
  obtain ⟨hhead₂, -, hcount₂⟩ := hboxSame hkeeps₂
  rw [htailEq, if_neg hlastNe, hhead₂, hcount₂]
  exact ⟨_, _, rfl, BitVec.isLt _, hbox.chain.link_last hclass hmsg hne hsize hsmall, hpass hkeeps₂,
    (sameLinks_write hmsg hwithin).trans (sameLinks_write hpiece (within_link c))⟩

end Link

theorem valid_link (h : Inv trace k L queue rest) : k.ValidAfter trace .link := by
  have hholder := h.holder
  dsimp only [Kernel.ValidAfter, step]
  generalize hk : k.holder = holder at hholder
  cases holder with
  | filling p message msg =>
    obtain ⟨halive, hsize, hbox, hroom, cls, hmsg, hclass⟩ := hholder
    dsimp only
    have hboxOk := (h.procs p).box hbox
    have hmsgSmall := h.sound.small msg _ hmsg
    have hmsgLen := (Tag.used cls Owner.pending).len_ge
    unfold ipcMaxPayload at hsize
    obtain ⟨m₂, head₂, heq, hhead, hchain, hkeeps, hlinks⟩ :=
      linkMsg_spec hclass hmsg (by omega) (by omega) (by omega) hboxOk
    rw [heq]
    have hboxPiece : (handed L p msg cls hmsg).piece (k.mailbox p) = some (.used 0 (.box p)) :=
      (Layout.retag_of_ne (ne_of_owner hmsg hboxOk.piece nofun)).trans hboxOk.piece
    have hwithin : m₂.Within (setBox m₂ (k.mailbox p) head₂ msg
        (boxCount k.slab.mem (k.mailbox p) + 1)) (k.mailbox p) (oomSlabSize 0) :=
      within_setBox
    generalize hm₃ : setBox m₂ (k.mailbox p) head₂ msg (boxCount k.slab.mem (k.mailbox p) + 1) =
      m₃ at hwithin
    have hkeepsBox := keeps_write hboxPiece hwithin
    -- objects of other processes, and of others
    have hkeepsAll : KeepsObjects (fun _ o => o ≠ .pending ∧ o ≠ .message p ∧
        o ≠ .box p) L k.slab.mem (handed L p msg cls hmsg) m₃ :=
      (hkeeps.mono fun _ _ _ _ hP => ⟨hP.1, hP.2.1⟩).trans
        (hkeepsBox.mono fun _ _ _ hb hP => ne_of_owner hboxPiece hb hP.2.2)
    have hsound : Slab.Sound { k.slab with mem := m₃ } (handed L p msg cls hmsg) := by
      have hlinks₃ : SameLinks L k.slab.mem m₃ :=
        hlinks.trans (sameLinks_write hboxOk.piece hwithin)
      exact (h.sound.of_sameLinks hlinks₃).pass hmsg (.message p)
    have hcount := hboxOk.count
    unfold ipcMaxDepth at hroom
    have hexact : sentTo p (trace ++ [.sent p message]) = receivedBy p (trace ++
        [.sent p message]) ++ (queue p ++ [(⟨msg, message⟩ : Cell)]).map Cell.message := by
      rw [sentTo_append, receivedBy_append, sentTo_sent, if_pos rfl, show receivedBy p [.sent p
        message] = [] from rfl, append_nil, map_append, h.exact p (.inl halive), append_assoc]
      rfl
    refine h.change (queue p ++ [⟨msg, message⟩]) (rest p) hsound hkeepsAll
      (fun _ _ _ _ hbox hmsg hpending => ⟨hpending, hmsg, hbox⟩) (fun _ _ => ⟨rfl, rfl⟩) rfl rfl
      (fun q hqp => ⟨sentTo_sent.trans (if_neg hqp.symm), rfl⟩) ?_ trivial (h.exited p)
      (hexact ▸ prefix_refl _) fun _ => hexact
    refine ⟨fun _ => ⟨hboxPiece, ?_, ?_, ?_, ?_⟩, fun hzero => absurd hzero hbox,
      fun _ _ hsome => ?_⟩
    · rw [← hm₃, boxHead_setBox hhead, hm₃]
      exact hchain.keeps hkeepsBox fun cell hcell => hchain.ne_of_mem hcell hboxPiece nofun
    · rw [← hm₃, boxTail_setBox (by omega), getLast?_concat]
      rfl
    · rw [← hm₃, boxCount_setBox, length_append, ← hcount, Nat.mod_eq_of_lt (by omega)]
      rfl
    · rw [length_append, length_singleton, ← hcount]
      exact hroom
    · exact absurd (h.exited p fun hnone => nomatch hnone.symm.trans hsome)
        (by rw [halive]; exact nofun)
  | _ => exact h.stay

/-! ## Receiving -/

section Receive

variable {m : Buffer} {box capacity : Nat} {cells : List Cell} {cell : Cell}

/-- The first message goes, and the others stay. -/
theorem BoxOk.unlink (h : BoxOk L m p box (cell :: cells)) {cls : Fin 8}
    (hpiece : L.piece cell.addr = some (.used cls (.message p))) :
    let head := linkNext m cell.addr
    let m' :=
      setBox m box head (if head = 0 then 0 else boxTail m box) (boxCount m box + (2 ^ 32 - 1))
    BoxOk (L.retag cell.addr (.used cls (.message p)) (.used cls .pending) hpiece rfl) m' p box
      cells ∧ KeepsObjects (fun _ o => o ≠ .box p) L m L m' := by
  intro head m'
  have hkeeps := keeps_write h.piece (within_setBox : m.Within m' box (oomSlabSize 0))
  obtain ⟨hfirst, -, -, hlinked⟩ := h.chain.linked
  rw [show boxHead m box = cell.addr from hfirst] at hlinked
  have hlinked : msgCells.Linked m head cells 0 := hlinked
  obtain ⟨hnotin, hnodup⟩ := nodup_cons.mp h.chain.nodup
  have hrest : Chain L m p head cells :=
    ⟨hlinked, fun c hc => h.chain.piece c (mem_cons_of_mem _ hc), hnodup⟩
  have hne : ∀ c ∈ cells, c.addr ≠ cell.addr := fun c hc heq => hnotin (heq ▸ mem_map_of_mem hc)
  have hchain : Chain (L.retag cell.addr (.used cls (.message p)) (.used cls .pending) hpiece rfl)
      m' p head cells :=
    (hrest.keeps hkeeps fun c hc => hrest.ne_of_mem hc h.piece nofun).keeps (keeps_pass hpiece) hne
  have hheadLt : head < 2 ^ 64 := BitVec.isLt _
  have hcount := h.count
  have hdepth := h.depth
  rw [length_cons] at hcount hdepth
  unfold ipcMaxDepth at hdepth
  refine ⟨⟨?_, ?_, ?_, ?_, ?_⟩, hkeeps.mono fun _ _ _ hb hP => ne_of_owner h.piece hb hP⟩
  · exact (Layout.retag_of_ne (ne_of_owner hpiece h.piece nofun)).trans h.piece
  · rw [show boxHead m' box = head from boxHead_setBox hheadLt]
    exact hchain
  · cases cells with
    | nil =>
      have hzero : head = 0 := hlinked
      rw [show boxTail m' box = _ from boxTail_setBox (by rw [if_pos hzero]; decide), if_pos hzero]
      rfl
    | cons c cells =>
      have hnz : head ≠ 0 := hlinked.2.1
      have htail : boxTail m box < 2 ^ 64 := BitVec.isLt _
      rw [show boxTail m' box = _ from boxTail_setBox (by rw [if_neg hnz]; exact htail), if_neg hnz,
        h.tail, getLast?_cons_cons]
  · rw [show boxCount m' box = _ from boxCount_setBox, hcount]
    omega
  · unfold ipcMaxDepth
    omega

/-- What `recv_locked` finds in a mailbox. -/
theorem recvLocked_spec (h : box ≠ 0 → BoxOk L m p box cells) (hempty : box = 0 → cells = []) :
    (∃ status, recvLocked m box capacity = (m, none, status)) ∨
      ∃ cell rest, cells = cell :: rest ∧ box ≠ 0 ∧ recvLocked m box capacity =
        (setBox m box (linkNext m cell.addr)
          (if linkNext m cell.addr = 0 then 0 else boxTail m box) (boxCount m box + (2 ^ 32 - 1)),
          some (cell.addr, cell.message), (msgSize m cell.addr : Int)) := by
  unfold recvLocked
  split
  · exact .inl ⟨_, rfl⟩
  next hsome =>
  obtain ⟨hbox, hhead⟩ := not_or.mp hsome
  have hboxOk := h hbox
  cases cells with
  | nil => exact absurd hboxOk.chain.linked hhead
  | cons cell rest =>
    have hfirst : boxHead m box = cell.addr := hboxOk.chain.linked.1
    have hholds := hboxOk.chain.linked.holds_of_mem mem_cons_self
    dsimp only
    rw [hfirst]
    split
    · exact .inl ⟨_, rfl⟩
    · refine .inr ⟨cell, rest, rfl, hbox, ?_⟩
      rw [hholds.1, hholds.2]

end Receive

theorem valid_recv {self : Option Nat} {buffer capable : Bool} {capacity : Nat}
    (h : Inv trace k L queue rest) : k.ValidAfter trace (.recv self buffer capacity capable) := by
  dsimp only [Kernel.ValidAfter, step]
  split
  · exact ⟨L, queue, rest, h.failed _⟩
  cases self with
  | none => exact ⟨L, queue, rest, h.failed _⟩
  | some p =>
    dsimp only
    split
    next hready =>
      obtain ⟨-, halive⟩ := hready
      rcases recvLocked_spec (h.procs p).box (h.procs p).empty with ⟨status, hnone⟩ |
        ⟨cell, cells, hqueue, hbox, hsome⟩
      · rw [hnone]
        exact ⟨L, queue, rest, h.failed _⟩
      rw [hsome]
      have hboxOk := (h.procs p).box hbox
      rw [hqueue] at hboxOk
      obtain ⟨cls, hpiece, hclass⟩ := hboxOk.chain.piece cell mem_cons_self
      obtain ⟨hboxOk', hkeeps⟩ := hboxOk.unlink hpiece
      have hholds := hboxOk.chain.linked.holds_of_mem mem_cons_self
      generalize hm' : setBox k.slab.mem (k.mailbox p) (linkNext k.slab.mem cell.addr)
        (if linkNext k.slab.mem cell.addr = 0 then 0 else boxTail k.slab.mem (k.mailbox p))
        (boxCount k.slab.mem (k.mailbox p) + (2 ^ 32 - 1)) = m' at hboxOk' hkeeps
      have hwithin : k.slab.mem.Within m' (k.mailbox p) (oomSlabSize 0) := hm' ▸ within_setBox
      have hkeepsAll : KeepsObjects (fun _ o => o ≠ .box p ∧ o ≠ .message p) L k.slab.mem
          (L.retag cell.addr (.used cls (.message p)) (.used cls .pending) hpiece rfl) m' :=
        (hkeeps.mono fun _ _ _ _ hP => hP.1).trans
          ((keeps_pass hpiece).mono fun _ _ _ hb hP => ne_of_owner hpiece hb hP.2)
      have hsound : Slab.Sound { k.slab with mem := m' }
          (L.retag cell.addr (.used cls (.message p)) (.used cls .pending) hpiece rfl) :=
        (h.sound.write hboxOk.piece hwithin).pass hpiece .pending
      have hreceived : receivedBy p (trace ++ [.received p cell.message]) ++
          cells.map Cell.message = receivedBy p trace ++ (queue p).map Cell.message := by
        rw [receivedBy_append, receivedBy_received, if_pos rfl, hqueue, append_assoc]
        rfl
      have hsent : sentTo p (trace ++ [.received p cell.message]) = sentTo p trace := by
        rw [sentTo_append]
        exact append_nil _
      refine h.change cells (rest p) hsound hkeepsAll (fun _ _ _ _ hbox hmsg _ => ⟨hbox, hmsg⟩)
        (fun _ _ => ⟨rfl, rfl⟩)
        rfl rfl (fun q hqp => ⟨rfl, receivedBy_received.trans (if_neg hqp.symm)⟩) ?_
          ⟨cls, Layout.retag_self, ?_⟩
        (h.exited p) ?_ fun hp => ?_
      · refine ⟨fun _ => hboxOk', fun hzero => absurd hzero hbox, fun _ _ hcleaning => ?_⟩
        exact absurd (h.exited p fun hnone => nomatch hnone.symm.trans hcleaning)
          (by rw [halive]; exact nofun)
      · have hkept := (cell_keeps hkeeps hpiece hclass nofun hholds).1 hholds
        rw [msgSize_of_holds hkept]
        exact hclass
      · rw [hreceived, hsent]
        exact h.order p
      · rw [hreceived, hsent]
        exact h.exact p hp
    · exact h.stay

section Release

variable (h : Inv trace k L queue rest)

include h

/-- An object of the holder goes. -/
theorem valid_release : k.ValidAfter trace .release := by
  have hholder := h.holder
  dsimp only [Kernel.ValidAfter, step]
  generalize hk : k.holder = holder at hholder
  cases holder with
  | receiving msg =>
    obtain ⟨cls, hpiece, hclass⟩ := hholder
    rw [append_nil]
    have hne : msgHeader + msgSize k.slab.mem msg ≠ 0 := by
      unfold msgHeader
      omega
    obtain ⟨L', hsound, hkeeps⟩ := free_spec h.sound hpiece hne hclass
    refine ⟨L', queue, rest, hsound, fun p => (h.procs p).keeps hkeeps fun a c o ha ho => ?_,
      trivial, h.exited, h.keeps_others hkeeps fun a c ha => ne_of_owner hpiece ha nofun,
      h.order, h.exact⟩
    rcases ho with rfl | rfl <;> exact ne_of_owner hpiece ha nofun
  | _ => exact h.stay

theorem valid_exit : k.ValidAfter trace (.exit p) := by
  dsimp only [Kernel.ValidAfter, step]
  split
  · exact h.stay
  next hsends =>
  rw [append_nil]
  refine ⟨L, queue, rest, h.sound, h.procs, ?_, fun q hq => ?_, h.others, h.order,
    fun q hq => h.exact q ?_⟩
  · have hholder := h.holder
    generalize k.holder = holder at hholder hsends
    cases holder with
    | nobody => trivial
    | receiving msg => exact hholder
    | sending => exact absurd rfl hsends
    | boxed => exact absurd rfl hsends
    | filling => exact absurd rfl hsends
  · simp only [update_apply]
    split
    · rfl
    · exact h.exited q hq
  refine hq.imp_left fun halive => ?_
  simp only [update_apply] at halive
  split at halive
  · cases halive
  · exact halive

/-! ## Cleaning up -/

theorem valid_cleanup : k.ValidAfter trace (.cleanup p) := by
  dsimp only [Kernel.ValidAfter, step]
  split
  next hready =>
    obtain ⟨hholder, hexited, hbox⟩ := hready
    have hboxOk := (h.procs p).box hbox
    have hwithin : k.slab.mem.Within (setBox k.slab.mem (k.mailbox p) 0 0 0) (k.mailbox p)
        (oomSlabSize 0) :=
      within_setBox
    have hkeeps := keeps_write hboxOk.piece hwithin
    refine h.change [] (queue p) (h.sound.write hboxOk.piece hwithin) hkeeps
      (fun _ _ _ ha hne _ _ => ne_of_owner hboxOk.piece ha hne)
      (fun q hqp => ⟨update_of_ne hqp _ _, update_of_ne hqp _ _⟩) rfl rfl
      (fun _ _ => ⟨rfl, rfl⟩) ?_ ?_ (fun _ => hexited) ?_ fun hp => ?_
    · simp only [update_self]
      refine ⟨fun hne => absurd rfl hne, fun _ => rfl, fun msg box hsome => ?_⟩
      cases hsome
      refine ⟨rfl, hboxOk.piece, hboxOk.chain.keeps hkeeps fun cell hcell => ?_⟩
      exact hboxOk.chain.ne_of_mem hcell hboxOk.piece nofun
    · simp only [hholder]
      trivial
    · rw [map_nil, append_nil, append_nil]
      exact (prefix_append _ _).trans (h.order p)
    simp only [update_self] at hp
    rcases hp with halive | hne
    · exact absurd (halive.symm.trans hexited) Bool.false_ne_true
    · exact absurd rfl hne
  · exact h.stay

/-- An object of a process that is being cleaned up goes. -/
theorem Inv.dispose {a : Nat} {size : Nat} {o : Owner} {cls : Fin 8}
    {cleaning : Option (Nat × Nat)} (cells : List Cell) (hcleaning : k.cleaning p ≠ none)
    (hpiece : L.piece a = some (.used cls o)) (ho : o = .box p ∨ o = .message p)
    (hsize : size ≠ 0) (hclass : oomSlabClass size = some cls) (hmailbox : k.mailbox p = 0)
    (hproc : ∀ L' m', KeepsObjects (fun b _ => b ≠ a) L k.slab.mem L' m' →
      ∀ msg box, cleaning = some (msg, box) →
        L'.piece box = some (.used 0 (.box p)) ∧ Chain L' m' p msg cells) :
    Kernel.Valid trace { k with
      slab := k.slab.free a size
      cleaning := update k.cleaning p cleaning } := by
  obtain ⟨L', hsound, hkeeps⟩ := free_spec h.sound hpiece hsize hclass
  have hexited := h.exited p hcleaning
  rw [← append_nil trace]
  refine h.change (queue p) cells hsound hkeeps (fun b c o' hb hbox hmsg _ =>
    ne_of_owner hpiece hb ?_) (fun q hqp => ⟨rfl, update_of_ne hqp _ _⟩) rfl rfl
    (fun _ _ => ⟨rfl, rfl⟩) ?_ ?_ (fun _ => hexited) ?_ ?_
  · rcases ho with rfl | rfl
    · exact hbox
    · exact hmsg
  · simp only [update_self]
    refine ⟨fun hne => absurd hmailbox hne, (h.procs p).empty, fun msg box hsome => ⟨hmailbox, ?_⟩⟩
    exact hproc L' _ hkeeps msg box hsome
  · refine HolderOk.congr
      (h.keeps_holder hkeeps fun b c o' hb ho' => ne_of_owner hpiece hb ?_) rfl rfl
    rcases ho' with rfl | ⟨q, rfl, halive⟩
    · rcases ho with rfl | rfl <;> exact nofun
    rintro rfl
    rcases ho with heq | heq
    · cases heq
      exact Bool.false_ne_true (halive.symm.trans hexited)
    · cases heq
  · rw [append_nil]
    exact h.order p
  · rw [append_nil]
    exact h.exact p

theorem valid_dispose : k.ValidAfter trace (.dispose p) := by
  dsimp only [Kernel.ValidAfter, step]
  cases hcleaning : k.cleaning p with
  | none => exact h.stay
  | some r =>
    obtain ⟨msg, box⟩ := r
    have hne : k.cleaning p ≠ none := fun hnone => nomatch hnone.symm.trans hcleaning
    obtain ⟨hmailbox, hpiece, hchain⟩ := (h.procs p).cleaning msg box hcleaning
    dsimp only
    split
    · rw [append_nil]
      exact h.dispose [] hne hpiece (.inl rfl) (by decide) rfl hmailbox nofun
    next hmsg =>
    rw [append_nil]
    generalize hcells : rest p = cells at hchain
    cases cells with
    | nil => exact absurd hchain.linked hmsg
    | cons cell cells =>
      obtain ⟨hfirst, -, hholds, hlinked⟩ := hchain.linked
      have hfirst : msg = cell.addr := hfirst
      subst hfirst
      obtain ⟨cls, hcell, hclass⟩ := hchain.piece cell mem_cons_self
      rw [msgSize_of_holds hholds]
      refine h.dispose cells hne hcell (.inr rfl) (by unfold msgHeader; omega) hclass hmailbox ?_
      rintro L' m' hkeeps msg box' hsome
      cases hsome
      obtain ⟨hnotin, hnodup⟩ := nodup_cons.mp hchain.nodup
      have hrest : Chain L k.slab.mem p (linkNext k.slab.mem cell.addr) cells :=
        ⟨hlinked, fun c hc => hchain.piece c (mem_cons_of_mem _ hc), hnodup⟩
      refine ⟨(hkeeps _ _ _ hpiece (ne_of_owner hcell hpiece nofun)).1,
        hrest.keeps hkeeps fun c hc heq => ?_⟩
      exact hnotin (heq ▸ mem_map_of_mem hc)

/-! ## Other users -/

theorem valid_otherAlloc {size : Nat} (hpage : k.slab.Fresh page) :
    k.ValidAfter trace (.otherAlloc size page) := by
  dsimp only [Kernel.ValidAfter, step]
  rcases alloc_spec h.sound hpage size .other with hnone | ⟨cls, L', hclass, halloc⟩
  · rw [hnone]
    exact h.stay
  generalize hr : k.slab.alloc size page = r at halloc
  have hne : r.2 ≠ 0 := Nat.ne_of_gt (halloc.sound.small _ _ halloc.piece).1
  have hsize : size ≠ 0 := by
    rintro rfl
    rw [← hr] at hne
    exact hne rfl
  rw [if_neg hne, append_nil]
  have hall := h.keeps halloc.sound halloc.keeps
  refine ⟨L', queue, rest, hall.sound, hall.procs, hall.holder.congr rfl rfl, hall.exited,
    fun a n ha => ?_, hall.order, hall.exact⟩
  · simp only [update_apply] at ha
    split at ha
    next heq =>
      cases ha
      exact ⟨hsize, cls, heq ▸ halloc.piece, hclass⟩
    · exact hall.others a n ha

theorem valid_otherFree {ptr : Nat} : k.ValidAfter trace (.otherFree ptr) := by
  dsimp only [Kernel.ValidAfter, step]
  cases hptr : k.others ptr with
  | none => exact h.stay
  | some size =>
    rw [append_nil]
    obtain ⟨hsize, cls, hpiece, hclass⟩ := h.others ptr size hptr
    obtain ⟨L', hsound, hkeeps⟩ := free_spec h.sound hpiece hsize hclass
    refine ⟨L', queue, rest, hsound, fun p => (h.procs p).keeps hkeeps fun a c o ha ho => ?_, ?_,
      h.exited, fun a n ha => ?_, h.order, h.exact⟩
    · rcases ho with rfl | rfl <;> exact ne_of_owner hpiece ha nofun
    · have hholder := h.keeps_holder hkeeps fun b c o hb ho => ?_
      · exact hholder.congr rfl rfl
      · rcases ho with rfl | ⟨q, rfl, -⟩ <;> exact ne_of_owner hpiece hb nofun
    simp only [update_apply] at ha
    split at ha
    · cases ha
    next hne =>
      obtain ⟨hn, c, hpiece', hclass'⟩ := h.others a n ha
      exact ⟨hn, c, (hkeeps _ _ _ hpiece' hne).1, hclass'⟩

theorem valid_otherWrite {ptr i : Nat} {v : Byte} : k.ValidAfter trace (.otherWrite ptr i v) := by
  dsimp only [Kernel.ValidAfter, step]
  cases hptr : k.others ptr with
  | none => exact h.stay
  | some size =>
    dsimp only
    split
    next hi =>
      rw [append_nil]
      obtain ⟨-, cls, hpiece, hclass⟩ := h.others ptr size hptr
      have hle := le_of_oomSlabClass hclass
      have hwithin : k.slab.mem.Within (k.slab.mem.splice (ptr + i) 1 fun _ => v) ptr
          (oomSlabSize cls) :=
        within_splice (by omega) (by omega)
      have hkeeps := keeps_write hpiece hwithin
      refine ⟨L, queue, rest, h.sound.write hpiece hwithin, fun p =>
        (h.procs p).keeps hkeeps fun a c o ha ho => ?_, ?_, h.exited, h.others, h.order, h.exact⟩
      · rcases ho with rfl | rfl <;> exact ne_of_owner hpiece ha nofun
      · have hholder := h.keeps_holder hkeeps fun b c o hb ho => ?_
        · exact hholder.congr rfl rfl
        · rcases ho with rfl | ⟨q, rfl, -⟩ <;> exact ne_of_owner hpiece hb nofun
    · exact h.stay

end Release

/-- Every step keeps the invariant. -/
theorem valid_step {e : Event} (he : k.Allowed e) (h : k.Valid trace) :
    (k.step e).1.Valid (trace ++ (k.step e).2) := by
  obtain ⟨L, queue, rest, h⟩ := h
  cases e with
  | send => exact valid_send h
  | getBox page => exact valid_getBox h he
  | getMsg page => exact valid_getMsg h he
  | link => exact valid_link h
  | recv => exact valid_recv h
  | release => exact valid_release h
  | exit => exact valid_exit h
  | cleanup => exact valid_cleanup h
  | dispose => exact valid_dispose h
  | otherAlloc size page => exact valid_otherAlloc h he
  | otherFree => exact valid_otherFree h
  | otherWrite => exact valid_otherWrite h

end Steps

/-! ## Whole runs -/

theorem valid_boot (m : Buffer) : (boot m).Valid [] := by
  refine ⟨Layout.none, fun _ => [], fun _ => [], ⟨fun _ => ⟨[], rfl, nofun, Nat.le_refl _⟩,
    fun _ => ⟨[], rfl, nodup_nil, nofun⟩, nofun, nofun, nofun⟩, fun p => ?_, trivial,
    fun p hp => absurd rfl hp, nofun, fun p => prefix_refl _, fun p _ => rfl⟩
  exact ⟨fun hne => absurd rfl hne, fun _ => rfl, nofun⟩

theorem Kernel.Valid.orderly {k : Kernel} {trace : List Shown} (h : k.Valid trace) (p : Nat) :
    k.Orderly trace p := by
  obtain ⟨L, queue, rest, h⟩ := h
  refine ⟨(prefix_append _ _).trans (h.order p), fun hbox => ⟨queue p, ?_, h.exact p (.inr hbox)⟩⟩
  have hboxOk := (h.procs p).box hbox
  exact ⟨hboxOk.chain.linked, hboxOk.tail, hboxOk.count, hboxOk.depth⟩

theorem step_tooSmall {k : Kernel} {e : Event} (h : k.TooSmall e) : (k.step e).1 = k := by
  obtain ⟨p, capacity, rfl, hbox, hhead, hsmall⟩ := h
  dsimp only [step]
  split
  · rfl
  split
  · have hnone : (recvLocked k.slab.mem (k.mailbox p) capacity).2.1 = none := by
      unfold recvLocked
      rw [if_neg (not_or.mpr ⟨hbox, hhead⟩)]
      rw [if_pos hsmall]
    rw [hnone]
  · rfl

/--
Whatever senders, receivers and processes that exit do, and in whatever order they get the locks, a
process receives the messages that were sent to it in order, once, and as they were sent; a mailbox
has those that are left, with the right number and the right last one; and a buffer that is too
small changes nothing.
-/
theorem mailboxes_in_order (m : Buffer) (events : List Event)
    (hok : Run.Along step Kernel.Allowed (boot m) events) :
    (∀ p, (Run.run step (boot m) events).1.Orderly (Run.run step (boot m) events).2 p) ∧
      Run.Along step (fun k e => k.TooSmall e → (k.step e).1 = k) (boot m) events := by
  constructor
  · have hvalid := Run.run_induction_of step Kernel.Allowed (fun trace k => k.Valid trace)
      (fun _ _ _ he h => valid_step he h) (valid_boot m) hok
    exact hvalid.orderly
  · exact Run.along_induction_of step Kernel.Allowed _ (fun _ => True)
      (fun _ _ _ _ => ⟨step_tooSmall, trivial⟩)
      trivial hok

/-- Two processes send to a third, which receives both messages and exits. -/
def twoMessages : List Event :=
  [.send 2 (some 0) 1 (some [7, 8]) 2 true, .getBox (some 4096), .getMsg (some 8192), .link,
    .send 2 (some 0) 5 (some [9]) 1 true, .getBox none, .getMsg (some 12288), .link,
    .recv (some 0) true 1 true, .recv (some 0) true 16 true, .release,
    .recv (some 0) true 16 true, .release, .exit 0, .cleanup 0, .dispose 0]

theorem mailboxes_in_order_two :
    Run.Along step Kernel.Allowed (boot zero) twoMessages ∧
      (Run.run step (boot zero) twoMessages).2 =
        [.sent 0 ⟨1, [7, 8]⟩, .sent 0 ⟨5, [9]⟩, .failed ipcErrTooSmall, .received 0 ⟨1, [7, 8]⟩,
          .received 0 ⟨5, [9]⟩] ∧
      (∀ p, (Run.run step (boot zero) twoMessages).1.Orderly
        (Run.run step (boot zero) twoMessages).2 p) ∧
      Run.Along step (fun k e => k.TooSmall e → (k.step e).1 = k) (boot zero)
        twoMessages := by
  have hok : Run.Along step Kernel.Allowed (boot zero) twoMessages := by
    decide +kernel
  exact ⟨hok, by decide +kernel, mailboxes_in_order zero twoMessages hok⟩

end PureCOS.Mailboxes
