import Mathlib.Data.List.TakeWhile
import PureCOS.Process.Signal

/-!
# Returning from a signal handler

The frame a delivery builds lies below the red zone of the interrupted code.  As long as
user code leaves its bytes alone and keeps the stack pointer away from it, nothing the
kernel does meanwhile touches it: a nested delivery builds its own frame elsewhere, and
a growing stack only fills pages that were not there.  So `sigreturn` reads back what the
delivery stored.
-/

namespace PureCOS.Process
namespace Signal

open Buffer List

variable {t t' u : Task} {sp : Nat}

/-! ## What delivery leaves alone -/

/-- The page of the address is mapped for the user. -/
def Task.readable (t : Task) (a : Nat) : Prop := (t.access (a / 4096)).allows false = true

/-- `u` is `t` with more pages mapped: what user code could read is as it was. -/
structure Grows (t u : Task) : Prop where
  regs : u.regs = t.regs
  blocked : u.sigBlocked = t.sigBlocked
  kept : ∀ a, t.readable a → u.readable a ∧ u.mem a = t.mem a

theorem Grows.refl (t : Task) : Grows t t := ⟨rfl, rfl, fun _ h => ⟨h, rfl⟩⟩

variable {f : SignalFrame} {v : Task}

theorem Grows.trans (h : Grows t u) (h' : Grows u v) : Grows t v := by
  refine ⟨h'.regs.trans h.regs, h'.blocked.trans h.blocked, fun a ha => ?_⟩
  obtain ⟨hu, hm⟩ := h.kept a ha
  obtain ⟨hv, hm'⟩ := h'.kept a hu
  exact ⟨hv, hm'.trans hm⟩

/-- Mapping pages that were absent hides nothing. -/
theorem Grows.mapZero (first count : Nat)
    (habsent : ∀ p, first ≤ p → p < first + count → t.access p = .absent) :
    Grows t (t.mapZero first count) := by
  refine ⟨rfl, rfl, fun a ha => ?_⟩
  have hout : ¬ (first ≤ a / 4096 ∧ a / 4096 < first + count) := by
    rintro ⟨h₁, h₂⟩
    rw [Task.readable, habsent _ h₁ h₂] at ha
    exact absurd ha (by decide)
  refine ⟨?_, if_neg hout⟩
  simp only [Task.readable, Task.mapZero, if_neg hout]
  exact ha

theorem grows_handleStackFault (t : Task) (address : Nat) :
    Grows t (handleStackFault t address) := by
  unfold handleStackFault
  split
  · exact Grows.refl t
  dsimp only
  split
  · exact Grows.refl t
  -- the pages mapped lie in the vacant run that starts at the faulting page
  have hvacant : ∀ {n k : Nat} {p : Nat → Bool},
      k < ((range n).takeWhile p).length → p k = true := by
    intro n k p hk
    have hpref := ( takeWhile_prefix (l := range n) p).getElem hk
    rw [getElem_range] at hpref
    exact mem_takeWhile_imp (hpref ▸ getElem_mem hk)
  have hgrow := Grows.mapZero (t := t) (address / 4096)
    (min ((range ((t.stackLow - address / 4096 * 4096) / 4096)).takeWhile
      fun i => t.access (address / 4096 + i) == .absent).length (t.grown t.growths))
    fun p h₁ h₂ => by
      have hk := hvacant (k := p - address / 4096) (by omega :
        p - address / 4096 < ((range ((t.stackLow - address / 4096 * 4096) / 4096)).takeWhile
          fun i => t.access (address / 4096 + i) == .absent).length)
      rw [Nat.add_sub_cancel' h₁] at hk
      exact eq_of_beq hk
  split
  · exact ⟨hgrow.regs, hgrow.blocked, hgrow.kept⟩
  · exact ⟨hgrow.regs, hgrow.blocked, hgrow.kept⟩

theorem grows_foldl_handleStackFault (base : Nat) (is : List Nat) (t : Task) :
    Grows t (is.foldl (fun t i => handleStackFault t ((base + i) * 4096)) t) := by
  induction is generalizing t with
  | nil => exact Grows.refl t
  | cons i is ih => exact (grows_handleStackFault t _).trans (ih _)

theorem userBuffer_readable
    {writable : Bool} {address size : Nat} (h : userBuffer t address size writable = true) {k : Nat}
    (hk : k < size) : t.readable (address + k) := by
  simp only [userBuffer, Bool.or_eq_true, beq_iff_eq, Bool.and_eq_true, all_eq_true, mem_range] at h
  rcases h with h | ⟨-, hpages⟩
  · omega
  have hpage := hpages ((address + k) / 4096 - address / 4096) (by omega)
  rw [Nat.add_sub_cancel' (by omega)] at hpage
  unfold Task.readable
  revert hpage
  cases t.access ((address + k) / 4096) <;> simp [Access.allows]

theorem frameWritable_spec {address size : Nat} (h : frameWritable t address size = (u, true)) :
    Grows t u ∧ address + size ≤ userTopAddress ∧ userBuffer u address size true = true := by
  unfold frameWritable at h
  split at h
  · cases h
  next hrange =>
    obtain ⟨rfl, hbuf⟩ := Prod.mk.inj h
    exact ⟨grows_foldl_handleStackFault _ _ _, by omega, hbuf⟩

theorem length_words (f : SignalFrame) : f.words.length = 25 := rfl

theorem ofWords_words (f : SignalFrame) : SignalFrame.ofWords f.words = f := rfl

/-- The bytes of the frame at `sp` and its contents. -/
structure FrameAt (t : Task) (sp : Nat) (f : SignalFrame) : Prop where
  inUser : sp + frameBytes ≤ userTopAddress
  nonzero : sp ≠ 0
  readable : ∀ k < frameBytes, t.readable (sp + k)
  words : readWords t.mem sp 25 = f.words

/-- A delivery stores the interrupted state in a frame, and changes nothing else a reader sees. -/
theorem deliverHandler_spec {sig : Nat} {action : Ksigaction}
    (h : deliverHandler t sig action = .handler u sp) :
    sp = (frameBase t.regs.rsp).toNat ∧ u.regs.rsp = frameBase t.regs.rsp ∧
      (∃ f : SignalFrame, FrameAt u sp f ∧ f.savedMask = t.sigBlocked ∧ f.regs = t.regs) ∧
      ∀ a, t.readable a → a < sp ∨ sp + frameBytes ≤ a → u.readable a ∧ u.mem a = t.mem a := by
  unfold deliverHandler at h
  dsimp only at h
  match hw : frameWritable t (frameBase t.regs.rsp).toNat frameBytes with
  | (v, false) =>
    rw [hw] at h
    simp at h
  | (v, true) =>
    obtain ⟨hgrow, htop, hbuf⟩ := frameWritable_spec hw
    rw [hw] at h
    split at h
    · cases h
    cases h
    refine ⟨rfl, rfl, ⟨⟨action.restorer, BitVec.ofNat 64 sig, v.sigBlocked, v.regs⟩,
      ⟨htop, ?_, fun k hk => userBuffer_readable hbuf hk, ?_⟩, hgrow.blocked, hgrow.regs⟩,
      fun a ha hout => ?_⟩
    · intro h0
      rw [h0] at hbuf
      exact absurd hbuf (by simp [userBuffer, frameBytes])
    · exact readWords_writeWords
    obtain ⟨hr, hm⟩ := hgrow.kept a ha
    refine ⟨hr, (writeWords_of_outside ?_).trans hm⟩
    rw [length_words]
    exact hout

/-- Until a handler is entered, delivery only clears pending bits. -/
theorem deliverLoop_cases (rounds : Nat) (t : Task) :
    (∃ pending, deliverLoop rounds t = .resumed { t with sigPending := pending }) ∨
    (∃ sig, deliverLoop rounds t = .exited sig) ∨
    ∃ pending sig action,
      deliverLoop rounds t = deliverHandler { t with sigPending := pending } sig action := by
  induction rounds generalizing t with
  | zero => exact .inl ⟨t.sigPending, rfl⟩
  | succ rounds ih =>
    unfold deliverLoop
    split
    · exact .inl ⟨t.sigPending, rfl⟩
    next sig _ =>
    dsimp only
    split
    · exact .inr (.inl ⟨_, rfl⟩)
    split
    · exact ih _
    split
    · split
      · exact ih _
      · exact .inr (.inl ⟨_, rfl⟩)
    · split
      · exact .inr (.inl ⟨_, rfl⟩)
      · exact .inr (.inr ⟨_, _, _, rfl⟩)

/-- `deliver_handler` never lets the interrupted code go on. -/
theorem deliverHandler_ne_resumed {sig : Nat} {action : Ksigaction} :
    deliverHandler t sig action ≠ .resumed u := by
  unfold deliverHandler
  dsimp only
  split <;> simp

theorem signalDeliver_resumed (h : signalDeliver t = .resumed u) :
    ∃ pending, u = { t with sigPending := pending } := by
  rcases deliverLoop_cases (signalCount + 1) t with ⟨p, hp⟩ | ⟨sig, hs⟩ | ⟨p, sig, action, hh⟩
  · exact ⟨p, by simpa using (h.symm.trans hp)⟩
  · cases h.symm.trans hs
  · exact absurd (hh.symm.trans h) deliverHandler_ne_resumed

theorem signalDeliver_handler (h : signalDeliver t = .handler u sp) : ∃ pending sig action,
    deliverHandler { t with sigPending := pending } sig action = .handler u sp := by
  rcases deliverLoop_cases (signalCount + 1) t with ⟨p, hp⟩ | ⟨sig, hs⟩ | ⟨p, sig, action, hh⟩
  · cases h.symm.trans hp
  · cases h.symm.trans hs
  · exact ⟨p, sig, action, hh.symm.trans h⟩

/-! ## Frames under later events -/

/-- A delivery at this stack pointer uses no byte of the frame at `sp`. -/
def Clear (sp : Nat) (rsp : U64) : Prop :=
  rsp.toNat ≤ sp + 128 ∨ sp + 560 ≤ rsp.toNat

/-- The frame's bytes and their mapping are as before. -/
def Intact (sp : Nat) (t u : Task) : Prop :=
  ∀ k < frameBytes, u.readable (sp + k) ∧ u.mem (sp + k) = t.mem (sp + k)

theorem Intact.trans (h : Intact sp t u) (h' : Intact sp u v) : Intact sp t v :=
  fun k hk => ⟨(h' k hk).1, (h' k hk).2.trans (h k hk).2⟩

theorem Intact.frameAt (h : Intact sp t u) (hf : FrameAt t sp f) : FrameAt u sp f :=
  ⟨hf.inUser, hf.nonzero, fun k hk => (h k hk).1,
    (readWords_congr fun k hk => (h k hk).2).trans hf.words⟩

/--
User code leaves the frame at `sp` alone: what it does itself changes no byte of it, and
whenever the kernel may deliver a signal the stack pointer is clear of it.
-/
def Undisturbed (sp : Nat) : Task → List Event → Prop
  | _, [] => True
  | t, e :: es =>
    (∀ u deliver, enter t e = (.running u, deliver) →
      Intact sp t u ∧ (deliver = true → Clear sp u.regs.rsp)) ∧
    ∀ u, step t e = .running u → Undisturbed sp u es

/-- Clearing the low four bits rounds down to a multiple of 16. -/
theorem toNat_and_not_fifteen (x : U64) : (x &&& ~~~15#64).toNat = x.toNat / 16 * 16 := by
  have hsplit : x &&& ~~~15#64 = (x >>> 4) <<< 4 := by
    apply BitVec.eq_of_getLsbD_eq
    intro i hi
    rw [BitVec.getLsbD_shiftLeft, BitVec.getLsbD_ushiftRight, BitVec.getLsbD_and,
      BitVec.getLsbD_not]
    by_cases h4 : i < 4
    · have : i = 0 ∨ i = 1 ∨ i = 2 ∨ i = 3 := by omega
      rcases this with rfl | rfl | rfl | rfl <;> simp
    · have h15 : (15#64).getLsbD i = false := BitVec.getLsbD_of_ge (15#4) i (by omega)
      rw [h15, show 4 + (i - 4) = i by omega]
      simp [h4, hi]
  have hlt := x.isLt
  rw [hsplit, BitVec.toNat_shiftLeft, BitVec.toNat_ushiftRight, Nat.shiftLeft_eq,
    Nat.shiftRight_eq_div_pow]
  omega

/-- The frame of a delivery lies inside the 360 bytes below the stack pointer, past the red zone. -/
theorem frameBase_bounds (rsp : U64) (h : (frameBase rsp).toNat + frameBytes ≤ userTopAddress) :
    (frameBase rsp).toNat + frameBytes + 128 ≤ rsp.toNat ∧
      rsp.toNat ≤ (frameBase rsp).toNat + 360 := by
  have hlt := rsp.isLt
  have hsub : (rsp - userRedZone).toNat = (2 ^ 64 - 128 + rsp.toNat) % 2 ^ 64 := by
    rw [BitVec.toNat_sub]
    rfl
  have hbase : (frameBase rsp).toNat =
      (2 ^ 64 - 216 + (rsp - userRedZone).toNat / 16 * 16) % 2 ^ 64 := by
    unfold frameBase
    have hmask : ((rsp - userRedZone) &&& ~~~(15 : U64)).toNat = _ := toNat_and_not_fifteen _
    rw [BitVec.toNat_sub, BitVec.toNat_sub, hmask]
    have h₁ : ((BitVec.ofNat 64 frameBytes + 15 &&& ~~~15 : U64)).toNat = 208 := by decide
    have h₂ : (8 : U64).toNat = 8 := by decide
    rw [h₁, h₂]
    omega
  unfold userTopAddress frameBytes at h
  unfold frameBytes
  omega

/-- A delivery clear of the frame leaves it intact. -/
theorem signalDeliver_intact (hr : ∀ k < frameBytes, t.readable (sp + k))
    (hclear : Clear sp t.regs.rsp) (h : (signalDeliver t).outcome = .running u) :
    Intact sp t u := by
  intro k hk
  match hd : signalDeliver t with
  | .resumed v =>
    obtain ⟨p, hp⟩ := signalDeliver_resumed hd
    rw [hd] at h
    cases h
    rw [hp]
    exact ⟨hr k hk, rfl⟩
  | .exited sig =>
    rw [hd] at h
    cases h
  | .handler v sp' =>
    obtain ⟨p, sig, action, hh⟩ := signalDeliver_handler hd
    obtain ⟨hsp, -, ⟨f, hf, -⟩, hkept⟩ := deliverHandler_spec hh
    rw [hd] at h
    cases h
    have hin := hf.inUser
    rw [hsp] at hin
    obtain ⟨hlow, hhigh⟩ := frameBase_bounds t.regs.rsp hin
    refine hkept _ (hr k hk) ?_
    rw [hsp]
    unfold Clear at hclear
    unfold frameBytes at hk hlow ⊢
    dsimp only
    omega

theorem step_intact
    {e : Event} (hu : ∀ v deliver, enter t e = (.running v, deliver) →
      Intact sp t v ∧ (deliver = true → Clear sp v.regs.rsp))
    (h : step t e = .running u) : Intact sp t u := by
  unfold step at h
  match he : enter t e with
  | (.running v, true) =>
    rw [he] at h
    obtain ⟨hint, hclear⟩ := hu v true he
    exact hint.trans (signalDeliver_intact (fun k hk => (hint k hk).1) (hclear rfl) h)
  | (.running v, false) =>
    rw [he] at h
    cases h
    exact (hu u false he).1
  | (.exited sig, true) =>
    rw [he] at h
    cases h
  | (.exited sig, false) =>
    rw [he] at h
    cases h

/-- The frame is still there at the end of a run that leaves it alone. -/
theorem run_frameAt {es : List Event} (hf : FrameAt t sp f) (hu : Undisturbed sp t es)
    (h : run t es = .running u) : FrameAt u sp f := by
  induction es generalizing t with
  | nil =>
    cases h
    exact hf
  | cons e es ih =>
    unfold run at h
    match hs : step t e with
    | .running v =>
      rw [hs] at h
      exact ih ((step_intact hu.1 hs).frameAt hf) (hu.2 v hs) h
    | .exited sig =>
      rw [hs] at h
      cases h

/-! ## Transparency -/

/-- The code interrupted in `t` goes on in `u` with its registers and mask. -/
structure Resumed (t u : Task) : Prop where
  general :
    u.regs.r15 = t.regs.r15 ∧ u.regs.r14 = t.regs.r14 ∧ u.regs.r13 = t.regs.r13 ∧
    u.regs.r12 = t.regs.r12 ∧ u.regs.r11 = t.regs.r11 ∧ u.regs.r10 = t.regs.r10 ∧
    u.regs.r9 = t.regs.r9 ∧ u.regs.r8 = t.regs.r8 ∧ u.regs.rbp = t.regs.rbp ∧
    u.regs.rdi = t.regs.rdi ∧ u.regs.rsi = t.regs.rsi ∧ u.regs.rdx = t.regs.rdx ∧
    u.regs.rcx = t.regs.rcx ∧ u.regs.rbx = t.regs.rbx ∧ u.regs.rax = t.regs.rax
  rip : u.regs.rip = t.regs.rip
  rsp : u.regs.rsp = t.regs.rsp
  rflags : u.regs.rflags &&& userFlagsMask = t.regs.rflags &&& userFlagsMask
  blocked : u.sigBlocked = t.sigBlocked

/-- Registers that survive a handler. -/
structure Restorable (regs : Regs) : Prop where
  rax : (regs.rax.setWidth 32).signExtend 64 = regs.rax
  rip : regs.rip.toNat < userTopAddress
  rsp : regs.rsp.toNat < userTopAddress

/-- The restorer runs with the stack pointer right behind the return address of the frame. -/
def AtReturn (sp : Nat) (t : Task) : Prop := t.regs.rsp = BitVec.ofNat 64 sp + 8

/--
Code interrupted in `t` goes on in `u`: no handler is entered, or one is entered, leaves
its frame alone and returns, and the same holds for what `signal_deliver` does when
`sigreturn` is about to return.
-/
inductive Resumes : Task → Task → Prop
  | direct {t u : Task} (h : signalDeliver t = .resumed u) : Resumes t u
  | handled {t t₁ t₂ t₃ u : Task} {sp : Nat} {es : List Event}
      (hdeliver : signalDeliver t = .handler t₁ sp)
      (hrun : run t₁ es = .running t₂)
      (hframe : Undisturbed sp t₁ es)
      (hreturn : AtReturn sp t₂)
      (hsys : syscall t₂ .sigreturn = .running t₃)
      (hrest : Resumes t₃ u) : Resumes t u

/--
Signals are transparent to the code interrupted in `t`: a handler that leaves its frame
alone and returns restores the registers and the mask, and after any chain of handlers
the code goes on with them.
-/
def Transparent (t : Task) : Prop :=
  (∀ t₁ sp es t₂, signalDeliver t = .handler t₁ sp → run t₁ es = .running t₂ →
    Undisturbed sp t₁ es → AtReturn sp t₂ →
    ∃ t₃, syscall t₂ .sigreturn = .running t₃ ∧ Resumed t t₃) ∧
  ∀ u, Resumes t u → Resumed t u

theorem signalReturn_frameAt (hf : FrameAt t sp f) (hret : AtReturn sp t) :
    signalReturn t =
      if f.regs.rip.toNat ≥ userTopAddress ∨ f.regs.rsp.toNat ≥ userTopAddress then none
      else some (restoreFrame t f, f.regs.rax.setWidth 32) := by
  have hin := hf.inUser
  unfold frameBytes at hin
  have hbase : (t.regs.rsp - 8).toNat = sp := by
    rw [hret, BitVec.add_sub_cancel, BitVec.toNat_ofNat]
    unfold userTopAddress at hin
    omega
  have hbuf : userBuffer t sp frameBytes false = true := by
    simp only [userBuffer, Bool.or_eq_true, beq_iff_eq, Bool.and_eq_true, all_eq_true,
      mem_range, decide_eq_true_eq, bne_iff_ne]
    have hne := hf.nonzero
    refine .inr ⟨⟨⟨hne, by omega⟩, by unfold frameBytes; omega⟩, fun i hi => ?_⟩
    -- page `i` of the range holds one of the frame's bytes
    have hk := hf.readable (if i = 0 then 0 else (sp / 4096 + i) * 4096 - sp) (by
      unfold frameBytes at hi ⊢
      split <;> omega)
    unfold Task.readable at hk
    convert hk using 3
    split <;> omega
  unfold signalReturn
  dsimp only
  rw [hbase, hbuf, hf.words, ofWords_words]
  simp only [Bool.true_eq_false, or_false]
  rw [if_neg (by unfold frameBytes at *; omega)]

theorem resumed_of_frame (hf : FrameAt u sp f) (hret : AtReturn sp u)
    (hmask : f.savedMask = t.sigBlocked) (hregs : f.regs = t.regs) (hr : Restorable t.regs) :
    ∃ v, syscall u .sigreturn = .running v ∧ Resumed t v := by
  have hnot : ¬ (f.regs.rip.toNat ≥ userTopAddress ∨ f.regs.rsp.toNat ≥ userTopAddress) := by
    rw [hregs]
    have := hr.rip
    have := hr.rsp
    omega
  have hreturn := signalReturn_frameAt hf hret
  rw [if_neg hnot] at hreturn
  refine ⟨(restoreFrame u f).setRax ((f.regs.rax.setWidth 32).signExtend 64),
    by simp only [syscall, hreturn], ?_, ?_, ?_, ?_, ?_⟩
  · have hrax := hr.rax
    simp only [Task.setRax, restoreFrame, hregs, hrax, and_self]
  · simp only [Task.setRax, restoreFrame, hregs]
  · simp only [Task.setRax, restoreFrame, hregs]
  · have h202 : (0x202#64 : U64) &&& userFlagsMask = 0 := by decide
    simp only [Task.setRax, restoreFrame, hregs]
    rw [BitVec.and_or_distrib_right, BitVec.and_assoc, BitVec.and_self]
    exact (congrArg _ h202).trans (BitVec.or_zero)
  have hun := t.unblockable
  simp only [Task.setRax, restoreFrame, Task.setBlocked, hmask]
  apply BitVec.eq_of_getLsbD_eq
  intro i hi
  have hbit := congrArg (fun w => w.getLsbD i) hun
  simp only [BitVec.getLsbD_and] at hbit
  rw [BitVec.getLsbD_and, BitVec.getLsbD_not]
  cases hb : t.sigBlocked.getLsbD i <;> simp_all

/-- Restorable registers are kept by a return, so the next delivery finds them restorable. -/
theorem Resumed.restorable (h : Resumed t u) (hr : Restorable t.regs) : Restorable u.regs := by
  obtain ⟨-, -, -, -, -, -, -, -, -, -, -, -, -, -, hrax⟩ := h.general
  exact ⟨by rw [hrax]; exact hr.rax, by rw [h.rip]; exact hr.rip, by rw [h.rsp]; exact hr.rsp⟩

theorem Resumed.trans (h : Resumed t u) (h' : Resumed u v) : Resumed t v := by
  obtain ⟨a₁, a₂, a₃, a₄, a₅, a₆, a₇, a₈, a₉, a₁₀, a₁₁, a₁₂, a₁₃, a₁₄, a₁₅⟩ := h.general
  obtain ⟨b₁, b₂, b₃, b₄, b₅, b₆, b₇, b₈, b₉, b₁₀, b₁₁, b₁₂, b₁₃, b₁₄, b₁₅⟩ := h'.general
  exact
    ⟨⟨b₁.trans a₁, b₂.trans a₂, b₃.trans a₃, b₄.trans a₄, b₅.trans a₅, b₆.trans a₆, b₇.trans a₇,
      b₈.trans a₈, b₉.trans a₉, b₁₀.trans a₁₀, b₁₁.trans a₁₁, b₁₂.trans a₁₂, b₁₃.trans a₁₃,
      b₁₄.trans a₁₄, b₁₅.trans a₁₅⟩, h'.rip.trans h.rip, h'.rsp.trans h.rsp,
      h'.rflags.trans h.rflags, h'.blocked.trans h.blocked⟩

/-- Delivery, an undisturbed run and `sigreturn` restore the interrupted state. -/
theorem handler_returns {t₁ t₂ : Task} {es : List Event} (hr : Restorable t.regs)
    (hdeliver : signalDeliver t = .handler t₁ sp) (hrun : run t₁ es = .running t₂)
    (hframe : Undisturbed sp t₁ es) (hreturn : AtReturn sp t₂) :
    ∃ t₃, syscall t₂ .sigreturn = .running t₃ ∧ Resumed t t₃ := by
  obtain ⟨p, sig, action, hh⟩ := signalDeliver_handler hdeliver
  obtain ⟨-, -, ⟨f, hf, hmask, hregs⟩, -⟩ := deliverHandler_spec hh
  exact resumed_of_frame (run_frameAt hf hframe hrun) hreturn hmask hregs hr

theorem Resumes.resumed (h : Resumes t u) (hr : Restorable t.regs) : Resumed t u := by
  induction h with
  | direct h =>
    obtain ⟨p, rfl⟩ := signalDeliver_resumed h
    exact ⟨⟨rfl, rfl, rfl, rfl, rfl, rfl, rfl, rfl, rfl, rfl, rfl, rfl, rfl, rfl, rfl⟩,
      rfl, rfl, rfl, rfl⟩
  | handled hdeliver hrun hframe hreturn hsys _ ih =>
    obtain ⟨t₃, hsys', hres⟩ := handler_returns hr hdeliver hrun hframe hreturn
    rw [hsys] at hsys'
    cases hsys'
    exact hres.trans (ih (hres.restorable hr))

/-- The shortest handler: it returns at once. -/
def returnAtOnce (t : Task) (sp : Nat) : List Event :=
  [.user { t.regs with rsp := BitVec.ofNat 64 sp + 8 } t.mem t.access]

/-- A handler that returns at once shows that the registers have to be restorable. -/
theorem restorable_of_returns {t₁ : Task} (hdeliver : signalDeliver t = .handler t₁ sp)
    (h : ∀ es t₂, run t₁ es = .running t₂ → Undisturbed sp t₁ es → AtReturn sp t₂ →
      ∃ t₃, syscall t₂ .sigreturn = .running t₃ ∧ Resumed t t₃) :
    Restorable t.regs := by
  obtain ⟨p, sig, action, hh⟩ := signalDeliver_handler hdeliver
  obtain ⟨-, -, ⟨f, hf, hmask, hregs⟩, -⟩ := deliverHandler_spec hh
  have hframe : Undisturbed sp t₁ (returnAtOnce t₁ sp) := by
    refine ⟨fun u deliver he => ?_, fun _ _ => trivial⟩
    cases he
    exact ⟨fun k hk => ⟨hf.readable k hk, rfl⟩, fun hd => by cases hd⟩
  obtain ⟨t₃, hsys, hres⟩ := h (returnAtOnce t₁ sp) _ rfl hframe rfl
  have hreturn := signalReturn_frameAt (run_frameAt hf hframe rfl) rfl
  simp only [syscall, hreturn] at hsys
  split at hsys
  next hnone =>
    split at hnone
    · cases hsys
    · cases hnone
  next v result hsome =>
  split at hsome
  · cases hsome
  next hin =>
  cases hsome
  cases hsys
  obtain ⟨-, -, -, -, -, -, -, -, -, -, -, -, -, -, hrax⟩ := hres.general
  simp only [Task.setRax, restoreFrame, hregs] at hrax
  rw [hregs] at hin
  push Not at hin
  exact ⟨hrax, hin.1, hin.2⟩

/--
A signal handler is transparent to the code it interrupts exactly if that code's `rax`
is the sign extension of its low 32 bits and its instruction and stack pointers are user
addresses.
-/
theorem signal_transparent {t₁ : Task} (hdeliver : signalDeliver t = .handler t₁ sp) :
    Transparent t ↔ Restorable t.regs := by
  constructor
  · intro h
    exact restorable_of_returns hdeliver fun es t₂ hrun hframe hret =>
      h.1 t₁ sp es t₂ hdeliver hrun hframe hret
  · intro hr
    exact ⟨fun t₁ sp es t₂ hd hrun hframe hret => handler_returns hr hd hrun hframe hret,
      fun u hu => hu.resumed hr⟩

/-- A process with a handler for signal 10 and that signal pending. -/
def interrupted (rax : U64) : Task where
  regs :=
    { r15 := 15, r14 := 14, r13 := 13, r12 := 12, r11 := 11, r10 := 10, r9 := 9, r8 := 8
      rbp := 7, rdi := 6, rsi := 5, rdx := 4, rcx := 3, rbx := 2, rax := rax, vector := 32
      err := 0, rip := 0x401000, cs := 0x1B, rflags := 0x246, rsp := 0x7FFFFFEFF000, ss := 0x23 }
  mem := zero
  access := fun _ => .write
  stackLimit := 0
  stackLow := 0
  grown := fun _ => 0
  growths := 0
  signals := some fun sig => if sig = 10 then ⟨0x402000, 0, 0x403000, 0⟩ else Ksigaction.zero
  sigPending := sigBit 10
  sigBlocked := 0
  unblockable := BitVec.zero_and

/-- A handler was entered. -/
def Delivery.entered : Delivery → Bool
  | .handler _ _ => true
  | _ => false

theorem Delivery.exists_handler {d : Delivery} (h : d.entered = true) :
    ∃ t sp, d = .handler t sp := by
  cases d with
  | handler t sp => exact ⟨t, sp, rfl⟩
  | resumed t => cases h
  | exited sig => cases h

theorem signal_transparent_small : Transparent (interrupted 7) := by
  obtain ⟨t, sp, h⟩ : ∃ t sp, signalDeliver (interrupted 7) = .handler t sp :=
    Delivery.exists_handler (by decide)
  exact (signal_transparent h).mpr ⟨by decide, by decide, by decide⟩

/-- With a `rax` of 2³² the interrupted code goes on with another value. -/
theorem signal_transparent_fails : ¬ Transparent (interrupted 0x100000000) := by
  intro h
  obtain ⟨t, sp, hd⟩ : ∃ t sp, signalDeliver (interrupted 0x100000000) = .handler t sp :=
    Delivery.exists_handler (by decide)
  have hr :=
    restorable_of_returns hd fun es t₂ hrun hframe hret => h.1 t sp es t₂ hd hrun hframe hret
  exact absurd hr.rax (by decide)

end Signal
end PureCOS.Process
