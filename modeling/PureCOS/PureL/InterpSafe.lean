import PureCOS.PureL.InterpFrames
import PureCOS.PureL.ParserEnds

/-!
# PureL: when the interpreter panics

The arrays of the interpreter are used within their bounds.  What is left is arithmetic: the
quotient and remainder of the least number and `-1` panic in every build, the negation of the least
number in builds with overflow checks.
-/

namespace PureCOS.PureL
namespace Vm

open Code List

/-- The arithmetic that panics. -/
def overflows (checks : Bool) : ExecStep → Prop
  | .divide a b => a = Parser.i64Min ∧ b = -1
  | .negate n => checks = true ∧ n = Parser.i64Min
  | .assign _ => False
  | .bind _ _ _ => False

/-- Nothing that panics has been done. -/
def NoOverflow (checks : Bool) (vm : Vm) : Prop := ∀ step ∈ vm.steps, ¬overflows checks step

/-- Something that panics has been done. -/
def HasOverflow (checks : Bool) (vm : Vm) : Prop := ∃ step ∈ vm.steps, overflows checks step

/-- What holds of the interpreter all the time. -/
structure Ok (checks : Bool) (vm : Vm) : Prop where
  arena : vm.arena.length ≤ maxNodes
  strings : PoolOk vm.strings
  vars : vm.vars.length ≤ maxVars
  frames : vm.frames.length ≤ maxCallDepth
  markers : ∀ marker ∈ vm.frames, marker ≤ maxVars
  steps : NoOverflow checks vm

/-- The interpreter stays as it has to be, and panics only at an overflow. -/
def safe (checks : Bool) : Frame Vm where
  kept vm vm' := Ok checks vm → Ok checks vm'
  panicked vm vm' := Ok checks vm → HasOverflow checks vm'
  cutOff vm vm' := Ok checks vm → NoOverflow checks vm'
  refl _ := id
  trans h₁ h₂ := h₂ ∘ h₁
  panicked_trans h₁ h₂ := h₂ ∘ h₁
  cutOff_refl _ := Ok.steps
  cutOff_trans h₁ h₂ := h₂ ∘ h₁

variable {checks : Bool} {vm : Vm} {α : Type}

/-- A rule for steps from states that are as they have to be. -/
theorem safe_of_wp {x : Exec α}
    (h : ∀ vm, Ok checks vm →
      wp (HasOverflow checks) (NoOverflow checks) x (fun _ vm' => Ok checks vm') vm) :
    (safe checks).Allows x :=
  fun vm => wp_mono (wp_imp (h vm)) fun _ _ hok => ⟨hok, trivial⟩

/-! ## Steps -/

theorem noOverflow_append {step : ExecStep} (h : NoOverflow checks vm)
    (hstep : ¬overflows checks step) : ∀ step' ∈ vm.steps ++ [step], ¬overflows checks step' := by
  intro step' hmem
  rcases mem_append.mp hmem with hmem | hmem
  · exact h step' hmem
  · rwa [mem_singleton.mp hmem]

theorem record_safe {step : ExecStep} (hstep : ¬overflows checks step) :
    (safe checks).Allows (record step) :=
  safe_of_wp fun _ h => { h with steps := noOverflow_append h.steps hstep }

/-- Arithmetic is recorded, then checked. -/
theorem checked_safe {step : ExecStep} {c : Bool} {x : Exec α}
    (hc : c = true → ¬overflows checks step) (hpanic : c = false → overflows checks step)
    (hx : (safe checks).Allows x) :
    (safe checks).Allows (do
      record step
      require c
      x) := by
  cases c with
  | true => exact .bind (record_safe (hc rfl)) fun _ _ => .bind (.require rfl) fun _ _ => hx
  | false =>
    refine safe_of_wp fun vm _ => ?_
    simp only [record, wp_bind, wp_modify, wp_require]
    exact ⟨by simp, fun _ => ⟨step, mem_append_right _ mem_cons_self, hpanic rfl⟩⟩

theorem negate_safe (n : Int) : (safe checks).Allows (negate checks n) := by
  refine checked_safe (fun hc => ?_) (fun hc => ?_) (.pure trivial)
  · rintro ⟨hchecks, hn⟩
    simp [hchecks, hn] at hc
  · simpa [overflows] using hc

theorem divide_safe (op : Int → Int → Int) (a : Int) {b : Int} (hb : b ≠ 0) :
    (safe checks).Allows (divide op a b) := by
  refine checked_safe (fun hc => ?_) (fun hc => ?_) (.pure trivial)
  · rintro ⟨ha, hb'⟩
    simp [ha, hb'] at hc
  · simpa [overflows, hb] using hc

theorem fail_safe (msg : String) : (safe checks).Allows (fail msg) :=
  safe_of_wp fun _ h => { h with }

theorem getNode_safe (id : NodeId) : (safe checks).Allows (getNode id) := by
  refine safe_of_wp fun vm h => ?_
  rw [getNode, wp_zoom]
  exact wp_arenaGet h.arena fun _ => { h with }

theorem getString_safe (id : Nat) : (safe checks).Allows (getString id) := by
  refine safe_of_wp fun vm h => ?_
  rw [getString, wp_zoom]
  exact wp_poolGet h.strings fun _ => { h with }

theorem intern_safe (s : List UInt8) : (safe checks).Allows (intern s) := by
  refine safe_of_wp fun vm h => ?_
  rw [intern, wp_zoom]
  exact wp_poolIntern h.strings fun _ _ hpool =>
    ⟨h.arena, hpool, h.vars, h.frames, h.markers, h.steps⟩

theorem defineFun_safe (name : Nat) (params body : NodeId) :
    (safe checks).Allows (defineFun name params body) := by
  refine safe_of_wp fun vm h => ?_
  simp only [defineFun, wp_bind, wp_get]
  split
  · exact { h with }
  · split
    · exact { h with }
    · exact h

/-! ## Variables -/

section Variables

variable {E F : Vm → Prop}

/-- Within the array, a search ends and changes nothing. -/
theorem wp_search {Q : Option Nat → Vm → Prop} {name start count : Nat}
    (hroom : start + count ≤ maxVars) (h : ∀ r, Q r vm) :
    wp E F (search name start count) Q vm := by
  induction count with
  | zero => exact h none
  | succ count ih =>
    simp only [search, wp_bind, wp_require, wp_get, wp_ite, wp_pure]
    refine ⟨fun _ => ⟨fun _ => h _, fun _ => ih (by omega)⟩, fun hout => ?_⟩
    exact absurd (by omega) (of_decide_eq_false hout)

variable (name : Nat) (value : Value)

theorem getVar_safe : (safe checks).Allows (getVar name) := by
  refine safe_of_wp fun vm h => ?_
  simp only [getVar, wp_bind, wp_get]
  refine wp_search (by rw [Nat.zero_add]; exact h.vars) fun r => ?_
  cases r <;> exact h

theorem setValue_ok {i : Nat} {value : Value} (h : Ok checks vm) :
    Ok checks { vm with vars := vm.vars.modify i fun slot => { slot with value := value } } := by
  refine { h with vars := ?_ }
  rw [length_modify]
  exact h.vars

theorem wp_frameStart {Q : Nat → Vm → Prop} (h : Ok checks vm)
    (hQ : ∀ start, start ≤ maxVars → Q start vm) : wp E F frameStart Q vm := by
  simp only [frameStart, wp_bind, wp_get]
  split
  · exact hQ 0 (Nat.zero_le _)
  next marker hmarker =>
  have hmem := mem_of_getLast? hmarker
  have hpos := length_pos_of_mem hmem
  have hframes := h.frames
  simp only [wp_bind, wp_require, wp_pure]
  refine ⟨fun _ => hQ marker (h.markers marker hmem), fun hout => ?_⟩
  exact absurd (by omega) (of_decide_eq_false hout)

theorem setVar_safe : (safe checks).Allows (setVar name value) := by
  refine safe_of_wp fun vm h => ?_
  have hvars := h.vars
  simp only [setVar, wp_bind, wp_get]
  refine wp_frameStart h fun start hstart => wp_search (by omega) fun r => ?_
  cases r with
  | some i => exact setValue_ok h
  | none =>
    simp only [wp_bind]
    refine wp_search (by omega) fun r' => ?_
    cases r' with
    | some i => exact setValue_ok h
    | none =>
      simp only [wp_ite, wp_pure, wp_bind, wp_require, wp_modify]
      refine ⟨fun _ => h, fun hroom => ⟨fun _ => { h with vars := ?_ }, fun hfull => ?_⟩⟩
      · rw [length_append, length_singleton]
        omega
      · exact absurd (Nat.not_le.mp hroom) (of_decide_eq_false hfull)

theorem assignVar_safe : (safe checks).Allows (assignVar name value) :=
  .bind (record_safe id) fun _ _ => setVar_safe name value

theorem bindParam_safe : (safe checks).Allows (bindParam name value) :=
  .bind .get fun _ _ => .bind (record_safe id) fun _ _ => setVar_safe name value

theorem pushFrame_safe : (safe checks).Allows pushFrame := by
  refine safe_of_wp fun vm h => ?_
  simp only [pushFrame, wp_bind, wp_get, wp_ite, wp_pure, wp_require, wp_modify]
  refine ⟨fun _ => h, fun hroom =>
    ⟨fun _ => { h with frames := ?_, markers := fun marker hmem => ?_ }, fun hfull => ?_⟩⟩
  · rw [length_append, length_singleton]
    omega
  · rcases mem_append.mp hmem with hmem | hmem
    · exact h.markers marker hmem
    · rw [mem_singleton.mp hmem]
      exact h.vars
  · exact absurd (Nat.not_le.mp hroom) (of_decide_eq_false hfull)

theorem wp_dropVars {count : Nat} (h : Ok checks vm) :
    wp E F (dropVars count) (fun _ vm' => Ok checks vm') vm := by
  induction count generalizing vm with
  | zero => exact h
  | succ count ih =>
    have hvars := h.vars
    simp only [dropVars, wp_bind, wp_get, wp_require, wp_modify]
    refine ⟨fun _ => ih { h with vars := ?_ }, fun hout => ?_⟩
    · rw [length_dropLast]
      omega
    · refine absurd ?_ (of_decide_eq_false hout)
      unfold maxVars at hvars ⊢
      omega

theorem popFrame_safe : (safe checks).Allows popFrame := by
  refine safe_of_wp fun vm h => ?_
  simp only [popFrame, wp_bind, wp_get]
  split
  · exact h
  next marker hmarker =>
  have hframes := h.frames
  simp only [wp_bind, wp_require, wp_modify]
  refine ⟨fun _ => wp_dropVars { h with frames := ?_, markers := fun marker hmem => ?_ },
    fun hout => ?_⟩
  · rw [length_dropLast]
    omega
  · exact h.markers marker (dropLast_subset _ hmem)
  · refine absurd ?_ (of_decide_eq_false hout)
    unfold maxCallDepth at hframes ⊢
    omega

theorem enter_safe {calls : Calls} {params body : NodeId}
    {vals : List Value} (hbind : (safe checks).Allows (calls.bindLoop params 0 vals))
    (heval : (safe checks).Allows (calls.eval body)) :
    (safe checks).Allows (enter calls params body vals) := by
  refine .bind pushFrame_safe fun pushed _ => .ite (fun _ => ?_) fun _ => fail_safe _
  refine .bind hbind fun bound _ => .ite (fun _ => ?_) fun _ =>
    .bind popFrame_safe fun _ _ => fail_safe _
  have htake : (safe checks).Allows takeReturning :=
    safe_of_wp fun _ h => { h with }
  exact .bind heval fun _ _ => .bind htake fun _ _ => .bind popFrame_safe fun _ _ => .pure trivial

end Variables

theorem steps_safe : StepsRespect checks (safe checks) (safe checks) where
  fail := fail_safe
  write _ := safe_of_wp fun _ h => { h with }
  getNode := getNode_safe
  getString := getString_safe
  intern := intern_safe
  getVar := getVar_safe
  defineFun := defineFun_safe
  negate := negate_safe
  divide op a _ := divide_safe op a
  setReturning _ := safe_of_wp fun _ h => { h with }
  assignVar := assignVar_safe
  bindNode := getNode_safe
  bindParam := bindParam_safe
  enter _ _ _ _ := enter_safe

/-- The interpreter panics exactly at an overflow. -/
theorem wp_exec {rounds : Nat} {root : NodeId} (h : Ok checks vm) : wp (HasOverflow checks)
    (NoOverflow checks) (exec checks rounds root) (fun _ => NoOverflow checks) vm := by
  have hcalls : CallsRespect (safe checks) (safe checks) (.after checks rounds) :=
    respects_after steps_safe rounds
  exact wp_weaken (hcalls.eval root vm) (fun _ hpanic => hpanic h) (fun _ hcut => hcut h)
    fun _ _ hdone => (hdone.1 h).steps

theorem ok_new {p : Parser} {src : List UInt8} (h : Parser.Good src p) :
    Ok checks (new p.arena p.strings) :=
  ⟨h.arena, h.strings, Nat.zero_le _, Nat.zero_le _, nofun, nofun⟩

end Vm

section Run

open Code

end Run

end PureCOS.PureL
