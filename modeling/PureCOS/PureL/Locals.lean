import Mathlib.Data.List.Induction
import PureCOS.PureL.InterpFrames

/-!
# PureL: what a call does to the variables of its caller

The slots of the caller stay where they are; assignments write to them, or put new slots behind
them.  A call removes what is behind.  The binding of an argument is done by `set_var`, so it writes
to a variable of the caller if that has the name of the parameter: a call is only known to leave the
caller's variables alone if no parameter that it binds has the name of a visible variable with
another value.
-/

namespace PureCOS.PureL
namespace Vm

open Code List Option

/-! ## Visible variables -/

section Visible

variable {vars : List VarSlot} {name i : Nat} {slot : VarSlot} {w : Value}

/-- Slot `i` is the last one for the variable. -/
structure LastFor (vars : List VarSlot) (name i : Nat) (slot : VarSlot) : Prop where
  get : vars[i]? = some slot
  isFor : slot.isFor name = true
  last : ∀ (j : Nat) (slot' : VarSlot), i < j → vars[j]? = some slot' → slot'.isFor name = false

theorem visible_append (slot : VarSlot) : visible (vars ++ [slot]) name = if slot.isFor name =
    true then some slot.value else visible vars name := by
  unfold visible
  rw [reverse_append, reverse_singleton, singleton_append, find?_cons]
  cases slot.isFor name <;> rfl

theorem visible_eq_none
    (h : ∀ (j : Nat) (slot' : VarSlot), vars[j]? = some slot' → slot'.isFor name = false) :
    visible vars name = none := by
  unfold visible
  rw [map_eq_none_iff, find?_eq_none]
  intro slot hslot
  obtain ⟨j, hj⟩ := getElem?_of_mem (mem_reverse.mp hslot)
  rw [h j slot hj]
  exact Bool.false_ne_true

theorem LastFor.visible (h : LastFor vars name i slot) : visible vars name = some slot.value := by
  obtain ⟨hlt, hget⟩ := List.getElem?_eq_some_iff.mp h.get
  have hsplit : vars = vars.take i ++ slot :: vars.drop (i + 1) := by
    rw [← hget, getElem_cons_drop, take_append_drop]
  have hback : ∀ slot' ∈ (vars.drop (i + 1)).reverse, ¬slot'.isFor name = true := by
    intro slot' hmem
    obtain ⟨j, hj⟩ := getElem?_of_mem (mem_reverse.mp hmem)
    rw [getElem?_drop] at hj
    rw [h.last _ slot' (by omega) hj]
    exact Bool.false_ne_true
  unfold PureL.visible
  rw [hsplit, reverse_append, reverse_cons, append_assoc, find?_append, find?_eq_none.mpr hback]
  simp [h.isFor]

theorem exists_lastFor (h : visible vars name = some w) :
    ∃ i slot, LastFor vars name i slot ∧ slot.value = w := by
  induction vars using reverseRecOn with
  | nil => cases h
  | append_singleton vars last ih =>
    rw [visible_append] at h
    split at h
    next hlast =>
      refine ⟨vars.length, last,
        ⟨getElem?_concat_length, hlast, fun j slot' hj hget => ?_⟩, some.inj h⟩
      rw [getElem?_eq_none (by rw [length_append, length_singleton]; omega)] at hget
      cases hget
    next hlast =>
    obtain ⟨i, slot, hfor, hvalue⟩ := ih h
    have hi := (List.getElem?_eq_some_iff.mp hfor.get).1
    refine ⟨i, slot, ⟨?_, hfor.isFor, fun j slot' hj hget => ?_⟩, hvalue⟩
    · rw [getElem?_append_left hi]
      exact hfor.get
    by_cases hlt : j < vars.length
    · rw [getElem?_append_left hlt] at hget
      exact hfor.last j slot' hj hget
    · rw [getElem?_append_right (Nat.not_lt.mp hlt)] at hget
      rw [mem_singleton.mp (mem_of_getElem? hget)]
      exact Bool.eq_false_iff.mpr hlast

end Visible

/-! ## What is spared -/

/-- A step that changes no variable that is visible, except by an assignment. -/
def sparesVisible : ExecStep → Prop
  | .bind _ before value => before = none ∨ before = some value
  | _ => True

/-- A slot after some steps: the value is the same unless the variable was assigned. -/
structure SameSlot (more : List ExecStep) (slot slot' : VarSlot) : Prop where
  name : slot'.name = slot.name
  used : slot'.used = slot.used
  value : slot'.value = slot.value ∨ .assign slot.name ∈ more

/--
Slots after some steps: the old ones are there, and behind them are variables that were assigned, or
bound in between.
-/
structure Slots (strict : Bool) (more : List ExecStep) (vars vars' : List VarSlot) : Prop where
  old : ∀ (i : Nat) (slot : VarSlot), vars[i]? = some slot → ∃ slot', vars'[i]? = some slot' ∧
    SameSlot more slot slot'
  new : strict = true → ∀ (i : Nat) (slot' : VarSlot), vars.length ≤ i → vars'[i]? = some slot' →
    .assign slot'.name ∈ more

/-- The frames are the same, and the slots too if the steps in between spare what is visible. -/
structure Spared (strict : Bool) (vm vm' : Vm) : Prop where
  frames : vm'.frames = vm.frames
  slots : ∃ more, vm'.steps = vm.steps ++ more ∧
    ((∀ step ∈ more, sparesVisible step) → Slots strict more vm.vars vm'.vars)

variable {strict : Bool} {vm vm' vm'' : Vm} {more more' : List ExecStep}
  {vars vars' vars'' : List VarSlot}

theorem Slots.refl : Slots strict more vars vars where
  old _ slot hget := ⟨slot, hget, rfl, rfl, .inl rfl⟩
  new _ i slot' hi hget := by
    rw [getElem?_eq_none hi] at hget
    cases hget

variable {α : Type} (name : Nat) {slot : VarSlot} (value : Value)

theorem SameSlot.trans {slot' slot'' : VarSlot} (h : SameSlot more slot slot')
    (h' : SameSlot more' slot' slot'') : SameSlot (more ++ more') slot slot'' := by
  refine ⟨h'.name.trans h.name, h'.used.trans h.used, ?_⟩
  rcases h.value, h'.value with ⟨hv | hv, hv' | hv'⟩
  · exact .inl (hv'.trans hv)
  · exact .inr (mem_append_right _ (h.name ▸ hv'))
  · exact .inr (mem_append_left _ hv)
  · exact .inr (mem_append_left _ hv)

theorem Slots.trans (h : Slots strict more vars vars') (h' : Slots strict more' vars' vars'') :
    Slots strict (more ++ more') vars vars'' := by
  refine ⟨fun i slot hget => ?_, fun hstrict i slot'' hi hget => ?_⟩
  · obtain ⟨slot', hget', hsame⟩ := h.old i slot hget
    obtain ⟨slot'', hget'', hsame'⟩ := h'.old i slot' hget'
    exact ⟨slot'', hget'', hsame.trans hsame'⟩
  by_cases hlt : i < vars'.length
  · obtain ⟨slot₂, hget₂, hsame⟩ := h'.old i _ (getElem?_eq_getElem hlt)
    rw [hget] at hget₂
    rw [some.inj hget₂, hsame.name]
    exact mem_append_left _ (h.new hstrict i _ hi (getElem?_eq_getElem hlt))
  · exact mem_append_right _ (h'.new hstrict i slot'' (Nat.not_lt.mp hlt) hget)

theorem Spared.of_same (hframes : vm'.frames = vm.frames) (hvars : vm'.vars = vm.vars)
    (hsteps : vm'.steps = vm.steps) : Spared strict vm vm' :=
  ⟨hframes, [], by rw [hsteps, append_nil], fun _ => hvars ▸ Slots.refl⟩

theorem Spared.trans (h : Spared strict vm vm') (h' : Spared strict vm' vm'') :
    Spared strict vm vm'' := by
  obtain ⟨more, hsteps, hslots⟩ := h.slots
  obtain ⟨more', hsteps', hslots'⟩ := h'.slots
  refine ⟨h'.frames.trans h.frames, more ++ more', by rw [hsteps', hsteps, append_assoc],
    fun hspares => ?_⟩
  rw [forall_mem_append] at hspares
  exact (hslots hspares.1).trans (hslots' hspares.2)

/-- The frame for `Spared`; nothing is said about computations that do not return. -/
def spared (strict : Bool) : Frame Vm where
  kept := Spared strict
  panicked _ _ := True
  cutOff _ _ := True
  refl _ := .of_same rfl rfl rfl
  trans := Spared.trans
  panicked_trans _ _ := trivial
  cutOff_refl _ := trivial
  cutOff_trans _ _ := trivial

/-! ## Steps -/

/-- Nothing is said about computations that do not return. -/
abbrev IfDone (x : Exec α) (Q : α → Vm → Prop) (vm : Vm) : Prop :=
  wp (fun _ => True) (fun _ => True) x Q vm

theorem spared_of_wp {x : Exec α} (h : ∀ vm, IfDone x (fun _ vm' => Spared strict vm vm') vm) :
    (spared strict).Allows x := fun vm =>
  wp_mono (h vm) fun _ _ hspared => ⟨hspared, trivial⟩

/-- Parts of the state other than variables, frames and the record may change. -/
theorem spared_of_same {x : Exec α}
    (h : ∀ vm, IfDone x
      (fun _ vm' => vm'.frames = vm.frames ∧ vm'.vars = vm.vars ∧ vm'.steps = vm.steps) vm) :
    (spared strict).Allows x :=
  spared_of_wp fun vm => wp_mono (h vm) fun _ _ hsame => .of_same hsame.1 hsame.2.1 hsame.2.2

theorem require_spared (c : Bool) : (spared strict).Allows (require c) := by
  refine spared_of_same fun vm => ?_
  exact wp_require.mpr ⟨fun _ => ⟨rfl, rfl, rfl⟩, fun _ => trivial⟩

theorem record_spared (step : ExecStep) : (spared strict).Allows (record step) :=
  spared_of_wp fun _ => ⟨rfl, [step], rfl, fun _ => .refl⟩

theorem negate_spared (checks : Bool) (n : Int) : (spared strict).Allows (negate checks n) :=
  .bind (record_spared _) fun _ _ => .bind (require_spared _) fun _ _ => .pure trivial

theorem divide_spared (op : Int → Int → Int) (a b : Int) : (spared strict).Allows (divide op a b) :=
  .bind (record_spared _) fun _ _ => .bind (require_spared _) fun _ _ => .pure trivial

theorem fail_spared (msg : String) : (spared strict).Allows (fail msg) :=
  spared_of_same fun _ => ⟨rfl, rfl, rfl⟩

theorem defineFun_spared (params body : NodeId) :
    (spared strict).Allows (defineFun name params body) := by
  refine spared_of_same fun vm => ?_
  simp only [defineFun, wp_bind, wp_get]
  split
  · exact ⟨rfl, rfl, rfl⟩
  · split
    · exact ⟨rfl, rfl, rfl⟩
    · exact ⟨rfl, rfl, rfl⟩

theorem getNode_spared (id : NodeId) : (spared strict).Allows (getNode id) :=
  spared_of_same fun _ => wp_zoom.mpr (wp_any fun _ _ => ⟨rfl, rfl, rfl⟩)

/-! ## Writing to a variable -/

/-- What a search among some slots finds. -/
def Found (vars : List VarSlot) (name start stop : Nat) : Option Nat → Prop
  | none =>
    ∀ (j : Nat) (slot' : VarSlot), start ≤ j → j < stop → vars[j]? = some slot' →
      slot'.isFor name = false
  | some i => ∃ slot, vars[i]? = some slot ∧ slot.isFor name = true ∧
      ∀ (j : Nat) (slot' : VarSlot), i < j → j < stop → vars[j]? = some slot' →
        slot'.isFor name = false

theorem wp_search_found {name start count : Nat} : IfDone (search name start count)
    (fun r vm' => vm' = vm ∧ Found vm.vars name start (start + count) r) vm := by
  -- with the slots from `start + count` up to some `stop` already looked at
  suffices hstop : ∀ stop, (∀ (j : Nat) (slot' : VarSlot), start + count ≤ j →
      j < stop → vm.vars[j]? = some slot' → slot'.isFor name = false) → IfDone
      (search name start count) (fun r vm' => vm' = vm ∧ Found vm.vars name start stop r) vm from
      hstop (start + count) fun j _ hj hj' => absurd hj (Nat.not_le.mpr hj')
  induction count with
  | zero => exact fun stop hstop => ⟨rfl, hstop⟩
  | succ count ih =>
    intro stop hstop
    simp only [search, wp_bind, wp_require, wp_get, wp_ite, wp_pure]
    refine ⟨fun _ => ⟨fun hfound => ⟨trivial, ?_⟩, fun hmiss => ih stop fun j slot' hj hj' hget =>
      ?_⟩, fun _ => trivial⟩
    · obtain ⟨slot, hget, hslot⟩ := (any_eq_true _ _).mp hfound
      exact ⟨slot, hget, hslot, fun j slot' hj => hstop j slot' hj⟩
    rcases Nat.eq_or_lt_of_le hj with rfl | hlt
    · rw [hget] at hmiss
      exact Bool.eq_false_iff.mpr hmiss
    · exact hstop j slot' hlt hj' hget

theorem getVar_spared : (spared strict).Allows (getVar name) := by
  refine spared_of_same fun vm => ?_
  simp only [getVar, wp_bind, wp_get]
  refine wp_mono wp_search_found fun r vm' hfound => ?_
  rw [hfound.1]
  cases r <;> exact ⟨rfl, rfl, rfl⟩

/-- What `set_var` does. -/
inductive VarSet (vars : List VarSlot) (name : Nat) (value : Value) : Bool → List VarSlot → Prop
  | written {i : Nat} {slot : VarSlot} (h : LastFor vars name i slot) :
      VarSet vars name value true (vars.modify i fun slot => { slot with value := value })
  | added (h : visible vars name = none) :
    VarSet vars name value true (vars ++ [⟨name, value, true⟩])
  | full (h : visible vars name = none) : VarSet vars name value false vars

theorem wp_frameStart_any {Q : Nat → Vm → Prop} (h : ∀ start, Q start vm) :
    IfDone frameStart Q vm := by
  simp only [frameStart, wp_bind, wp_get]
  split
  · exact h 0
  · simp only [wp_bind, wp_require, wp_pure]
    exact ⟨fun _ => h _, fun _ => trivial⟩

theorem wp_setVar :
    IfDone (setVar name value) (fun ok vm' => ∃ vars', vm' = { vm with vars := vars' } ∧
      VarSet vm.vars name value ok vars') vm := by
  simp only [setVar, wp_bind, wp_get]
  refine wp_frameStart_any fun start => wp_mono wp_search_found fun r vm₁ hfound => ?_
  obtain ⟨rfl, hfound⟩ := hfound
  cases r with
  | some i =>
    obtain ⟨slot, hget, hslot, hlast⟩ := hfound
    refine ⟨_, rfl, .written ⟨hget, hslot, fun j slot' hj hget' => hlast j slot' hj ?_ hget'⟩⟩
    have hlt := (List.getElem?_eq_some_iff.mp hget').1
    omega
  | none =>
    simp only [wp_bind]
    refine wp_mono wp_search_found fun r' vm₂ hfound' => ?_
    obtain ⟨rfl, hfound'⟩ := hfound'
    have habove : ∀ (j : Nat) (slot' : VarSlot), start ≤ j → vm₂.vars[j]? = some slot' →
        slot'.isFor name = false := by
      intro j slot' hj hget
      have hlt := (List.getElem?_eq_some_iff.mp hget).1
      exact hfound j slot' hj (by omega) hget
    cases r' with
    | some i =>
      obtain ⟨slot, hget, hslot, hlast⟩ := hfound'
      refine ⟨_, rfl, .written ⟨hget, hslot, fun j slot' hj hget' => ?_⟩⟩
      by_cases hbelow : j < start
      · exact hlast j slot' hj (by omega) hget'
      · exact habove j slot' (Nat.not_lt.mp hbelow) hget'
    | none =>
      have hnone : visible vm₂.vars name = none := visible_eq_none fun j slot' hget => by
        by_cases hbelow : j < start
        · exact hfound' j slot' (Nat.zero_le _) (by omega) hget
        · exact habove j slot' (Nat.not_lt.mp hbelow) hget
      simp only [wp_ite, wp_pure, wp_bind, wp_require, wp_modify]
      exact ⟨fun _ => ⟨_, rfl, .full hnone⟩,
        fun _ => ⟨fun _ => ⟨_, rfl, .added hnone⟩, fun _ => trivial⟩⟩

theorem slots_modify {i : Nat} {value : Value} (hget : vars[i]? = some slot)
    (hvalue : value = slot.value ∨ .assign slot.name ∈ more) :
    Slots strict more vars (vars.modify i fun slot => { slot with value := value }) := by
  refine ⟨fun j slot' hget' => ?_, fun _ j slot' hj hget' => ?_⟩
  · rw [getElem?_modify, hget']
    by_cases hij : i = j
    · subst hij
      rw [hget] at hget'
      cases hget'
      exact ⟨_, rfl, by simp, by simp, by simpa using hvalue⟩
    · exact ⟨_, rfl, by simp [hij], by simp [hij], .inl (by simp [hij])⟩
  · rw [getElem?_eq_none (by rwa [length_modify])] at hget'
    cases hget'

theorem slots_append (hslot : strict = true → .assign slot.name ∈ more) :
    Slots strict more vars (vars ++ [slot]) := by
  refine ⟨fun j slot' hget => ⟨slot', ?_, rfl, rfl, .inl rfl⟩, fun hstrict j slot' hj hget => ?_⟩
  · rw [List.getElem?_append_left (List.getElem?_eq_some_iff.mp hget).1]
    exact hget
  · rw [getElem?_append_right hj] at hget
    rw [mem_singleton.mp (mem_of_getElem? hget)]
    exact hslot hstrict

theorem LastFor.name_eq {name i : Nat} (h : LastFor vars name i slot) : slot.name = name := by
  have hfor := h.isFor
  rw [VarSlot.isFor, Bool.and_eq_true, beq_iff_eq] at hfor
  exact hfor.2

theorem assignVar_spared : (spared strict).Allows (assignVar name value) := by
  refine spared_of_wp fun vm => ?_
  refine wp_mono (wp_setVar name value) fun ok vm' hset => ?_
  obtain ⟨vars', rfl, hset⟩ := hset
  refine ⟨rfl, [.assign name], rfl, fun _ => ?_⟩
  cases hset with
  | written hlast => exact slots_modify hlast.get (.inr (hlast.name_eq ▸ mem_cons_self))
  | added _ => exact slots_append fun _ => mem_cons_self
  | full _ => exact .refl

theorem bindParam_spared : (spared false).Allows (bindParam name value) := by
  refine spared_of_wp fun vm => ?_
  refine wp_mono (wp_setVar name value) fun ok vm' hset => ?_
  obtain ⟨vars', rfl, hset⟩ := hset
  refine ⟨rfl, [.bind name (visible vm.vars name) value], rfl, fun hspares => ?_⟩
  have hspare : visible vm.vars name = none ∨ visible vm.vars name = some value :=
    hspares _ mem_cons_self
  cases hset with
  | written hlast =>
    rw [hlast.visible] at hspare
    exact slots_modify hlast.get (.inl (some.inj (hspare.resolve_left (by simp))).symm)
  | added _ => exact slots_append (by simp)
  | full _ => exact .refl

/-! ## A call -/

theorem wp_dropVars_take {count : Nat} : IfDone (dropVars count)
    (fun _ vm' => vm' = { vm with vars := vm.vars.take (vm.vars.length - count) }) vm := by
  induction count generalizing vm with
  | zero =>
    show vm = _
    rw [Nat.sub_zero, take_length]
  | succ count ih =>
    simp only [dropVars, wp_bind, wp_get, wp_require, wp_modify]
    refine ⟨fun _ => wp_mono ih fun _ vm' hvm => ?_, fun _ => trivial⟩
    rw [hvm]
    simp only [dropLast_eq_take, take_take, length_take]
    congr 2
    omega

/-- A frame that was pushed is popped. -/
theorem wp_popFrame {frames : List Nat} {marker : Nat} (hframes : vm.frames = frames ++ [marker]) :
    IfDone popFrame
      (fun _ vm' => vm' = { vm with frames := frames, vars := vm.vars.take marker }) vm := by
  simp only [popFrame, wp_bind, wp_get]
  rw [hframes, getLast?_concat]
  simp only [wp_bind, wp_require, wp_modify]
  refine ⟨fun _ => wp_mono wp_dropVars_take fun _ vm' hvm => ?_, fun _ => trivial⟩
  rw [hvm, hframes, dropLast_concat]
  congr 1
  rcases Nat.le_total marker vm.vars.length with hle | hle
  · rw [Nat.sub_sub_self hle]
  · rw [take_of_length_le hle, Nat.sub_eq_zero_of_le hle, Nat.sub_zero, take_length]

theorem Slots.take (h : Slots strict more vars vars') :
    Slots true more vars (vars'.take vars.length) := by
  refine ⟨fun i slot hget => ?_, fun _ i slot' hi hget => ?_⟩
  · rw [List.getElem?_take_of_lt (List.getElem?_eq_some_iff.mp hget).1]
    exact h.old i slot hget
  · rw [getElem?_eq_none (Nat.le_trans (length_take_le _ _) hi)] at hget
    cases hget

theorem Slots.weaken (h : Slots strict more vars vars') : Slots false more vars vars' :=
  ⟨h.old, nofun⟩

theorem Spared.weaken (h : Spared strict vm vm') : Spared false vm vm' := by
  obtain ⟨more, hsteps, hslots⟩ := h.slots
  exact ⟨h.frames, more, hsteps, fun hspares => (hslots hspares).weaken⟩

/-- From a pushed frame on, the frame is left and what is behind the caller's variables removed. -/
theorem wp_leave {vm₁ : Vm}
    (h : Spared false { vm with frames := vm.frames ++ [vm.vars.length] } vm₁) :
    IfDone popFrame (fun _ vm' => Spared true vm vm') vm₁ := by
  obtain ⟨more, hsteps, hslots⟩ := h.slots
  refine wp_mono (wp_popFrame h.frames) fun _ vm' hvm => ?_
  rw [hvm]
  exact ⟨rfl, more, hsteps, fun hspares => (hslots hspares).take⟩

theorem enter_spared {calls : Calls} {params body : NodeId} {vals : List Value}
    (hbind : (spared false).Allows (calls.bindLoop params 0 vals))
    (heval : (spared true).Allows (calls.eval body)) :
    (spared true).Allows (enter calls params body vals) := by
  refine spared_of_wp fun vm => ?_
  simp only [enter, pushFrame, callBody, takeReturning, wp_bind, wp_get, wp_ite, wp_pure,
    wp_require, wp_modify]
  refine ⟨fun _ => ⟨by simp, fun _ => ?_⟩,
    fun _ => ⟨fun _ => ⟨fun _ => ?_, fun hne => absurd trivial hne⟩, fun _ => trivial⟩⟩
  · exact wp_mono (fail_spared _ vm) fun _ _ h => h.1
  refine wp_mono (hbind _) fun bound vm₂ hbound => ⟨fun _ => ?_, fun _ => ?_⟩
  · refine wp_mono (heval vm₂) fun _ vm₃ heval => ?_
    refine wp_leave ((hbound.1.trans heval.1.weaken).trans ?_)
    exact .of_same rfl rfl rfl
  · refine wp_mono (wp_leave hbound.1) fun _ vm₃ hleft => ?_
    exact wp_mono (fail_spared _ vm₃) fun _ _ h => hleft.trans h.1

theorem steps_spared (checks : Bool) : StepsRespect checks (spared true) (spared false) where
  fail := fail_spared
  write _ := spared_of_same fun _ => ⟨rfl, rfl, rfl⟩
  getNode := getNode_spared
  getString _ := spared_of_same fun _ => wp_zoom.mpr (wp_any fun _ _ => ⟨rfl, rfl, rfl⟩)
  intern _ := spared_of_same fun _ => wp_zoom.mpr (wp_any fun _ _ => ⟨rfl, rfl, rfl⟩)
  getVar := getVar_spared
  defineFun := defineFun_spared
  negate := negate_spared checks
  divide op a b _ := divide_spared op a b
  setReturning _ := spared_of_same fun _ => ⟨rfl, rfl, rfl⟩
  assignVar := assignVar_spared
  bindNode := getNode_spared
  bindParam := bindParam_spared
  enter _ _ _ _ := enter_spared

/-! ## Results -/

theorem Slots.visible_eq {x : Nat} {w : Value} (h : Slots true more vars vars')
    (hx : .assign x ∉ more) (hv : visible vars x = some w) : visible vars' x = some w := by
  obtain ⟨i, slot, hlast, hvalue⟩ := exists_lastFor hv
  obtain ⟨slot', hget', hsame⟩ := h.old i slot hlast.get
  have hkept := hsame.value.resolve_right (hlast.name_eq ▸ hx)
  have hisFor : ∀ {a b : VarSlot}, SameSlot more a b → b.isFor x = a.isFor x := fun hab => by
    rw [VarSlot.isFor, VarSlot.isFor, hab.name, hab.used]
  have hlast' : LastFor vars' x i slot' := by
    refine ⟨hget', (hisFor hsame).trans hlast.isFor, fun j other hj hget => ?_⟩
    by_cases hlt : j < vars.length
    · obtain ⟨other', hother', hsame'⟩ := h.old j _ (getElem?_eq_getElem hlt)
      rw [hget] at hother'
      rw [some.inj hother', hisFor hsame']
      exact hlast.last j _ hj (getElem?_eq_getElem hlt)
    · have hassigned := h.new rfl j other (Nat.not_lt.mp hlt) hget
      rw [Bool.eq_false_iff, VarSlot.isFor, Ne, Bool.and_eq_true, beq_iff_eq]
      exact fun hother => hx (hother.2 ▸ hassigned)
  rw [hlast'.visible, hkept, hvalue]

/--
Binding an argument keeps what is visible exactly if the name is new or has the value already.
-/
theorem VarSet.visible_kept_iff {name : Nat} {value : Value} {ok : Bool}
    (h : VarSet vars name value ok vars') :
    (∀ x w, visible vars x = some w → visible vars' x = some w) ↔ visible vars name = none ∨
      visible vars name = some value := by
  cases h with
  | full hnone => exact ⟨fun _ => .inl hnone, fun _ _ _ => id⟩
  | added hnone =>
    refine ⟨fun _ => .inl hnone, fun _ x w hx => ?_⟩
    have hslots : Slots true [.assign name] vars (vars ++ [⟨name, value, true⟩]) :=
      slots_append fun _ => mem_cons_self
    refine hslots.visible_eq (fun hmem => ?_) hx
    cases mem_singleton.mp hmem
    rw [hnone] at hx
    cases hx
  | @written i slot hlast =>
    constructor
    · intro hkept
      have hafter : LastFor (vars.modify i fun slot => { slot with value := value }) name i
          { slot with value := value } := by
        refine ⟨?_, hlast.isFor, fun j slot' hj hget => ?_⟩
        · rw [getElem?_modify, hlast.get]
          simp
        rw [getElem?_modify] at hget
        obtain ⟨other, hother, hsame⟩ := map_eq_some_iff.mp hget
        rw [if_neg (Nat.ne_of_lt hj)] at hsame
        exact hsame ▸ hlast.last j other hj hother
      have hsame := hkept name slot.value hlast.visible
      rw [hafter.visible] at hsame
      exact .inr (hlast.visible.trans hsame.symm)
    · rintro (hnone | hsame) x w hx
      · rw [hlast.visible] at hnone
        cases hnone
      rw [hlast.visible] at hsame
      have hslots : Slots true [] vars (vars.modify i fun slot => { slot with value := value }) :=
        slots_modify hlast.get (.inl (some.inj hsame).symm)
      exact hslots.visible_eq not_mem_nil hx

/--
A call whose bindings spare what is visible changes no variable of its caller but by assignments; a
binding spares what is visible exactly if the name is not that of a visible variable with another
value.
-/
theorem call_keeps_visible (checks : Bool) (rounds name : Nat) (args : NodeId) (vm vm' : Vm)
    (value : Value) (h : call (Calls.after checks rounds) name args vm = (vm', .done value)) :
    (∃ more, vm'.steps = vm.steps ++ more ∧ ((∀ step ∈ more, sparesVisible step) →
      ∀ x w, visible vm.vars x = some w → .assign x ∉ more → visible vm'.vars x = some w)) ∧
    ∀ param v vm₁ vm₂ ok, bindParam param v vm₁ = (vm₂, .done ok) →
      ((∀ x w, visible vm₁.vars x = some w → visible vm₂.vars x = some w) ↔
        sparesVisible (.bind param (visible vm₁.vars param) v)) := by
  constructor
  · have hcall :=
      call_respects (steps_spared checks) (respects_after (steps_spared checks) rounds) name args vm
    obtain ⟨more, hsteps, hslots⟩ := (wp_done hcall h).1.slots
    exact ⟨more, hsteps, fun hspares x w hx hassign => (hslots hspares).visible_eq hassign hx⟩
  intro param v vm₁ vm₂ ok hbind
  have hset :
      IfDone (bindParam param v) (fun ok vm' => VarSet vm₁.vars param v ok vm'.vars) vm₁ := by
    refine wp_mono (wp_setVar param v) fun ok vm' hset => ?_
    obtain ⟨vars', rfl, hset⟩ := hset
    exact hset
  exact (wp_done hset hbind).visible_kept_iff

/--
`let n = 1` and a function `f` have been executed; a call `f(2)`, with its arguments at node 10, is
next.
-/
def beforeCall (text : List Char) : Vm :=
  ((do
    let _ ← (Calls.after false 9).eval 1
    (Calls.after false 9).eval 6 : Exec Value)
      (new (parse text 60).1.arena (parse text 60).1.strings)).1

/-- The variable of the caller is `n`, the parameter `m`. -/
def otherName : List Char := "let n = 1\nfun f(m)\nend\nf(2)".toList

/-- The variable of the caller and the parameter are both `n`. -/
def sameName : List Char := "let n = 1\nfun f(n)\nend\nf(2)".toList

theorem call_keeps_visible_otherName :
    visible (call (Calls.after false 9) 1 10 (beforeCall otherName)).1.vars 0 = some (.int 1) := by
  have hdone : (call (Calls.after false 9) 1 10 (beforeCall otherName)).2 = .done .nil := by
    decide +kernel
  obtain ⟨⟨more, hsteps, hkept⟩, -⟩ :=
    call_keeps_visible false 9 1 10 (beforeCall otherName) _ .nil (eq_done hdone)
  have hrun : (call (Calls.after false 9) 1 10 (beforeCall otherName)).1.steps =
      (beforeCall otherName).steps ++ [.bind 2 none (.int 2)] := by decide +kernel
  have hmore := append_cancel_left (hrun.symm.trans hsteps)
  subst hmore
  refine hkept (fun step hstep => ?_) 0 (.int 1) (by decide +kernel) (by decide)
  rw [mem_singleton.mp hstep]
  exact .inl rfl

/-- Nothing is assigned in the call, and the caller's `n` is 1 before and 2 after. -/
theorem binding_overwrites_caller :
    ∃ more, (call (Calls.after false 9) 1 10 (beforeCall sameName)).2 = .done .nil ∧
      (call (Calls.after false 9) 1 10 (beforeCall sameName)).1.error = none ∧
      (call (Calls.after false 9) 1 10 (beforeCall sameName)).1.steps =
        (beforeCall sameName).steps ++ more ∧
      (∀ x, .assign x ∉ more) ∧ visible (beforeCall sameName).vars 0 = some (.int 1) ∧
      visible (call (Calls.after false 9) 1 10 (beforeCall sameName)).1.vars 0 = some (.int 2) := by
  refine ⟨[.bind 0 (some (.int 1)) (.int 2)], by decide +kernel, by decide +kernel,
    by decide +kernel, fun x hx => ?_, by decide +kernel, by decide +kernel⟩
  cases mem_singleton.mp hx

end Vm
end PureCOS.PureL
