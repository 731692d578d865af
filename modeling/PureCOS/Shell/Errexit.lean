import PureCOS.Lib.Code

/-!
# The option `-e`

`run_node` of `programs/sh/main.c` looks at `opt_errexit` after each simple command, and the
conditions of `if`, `while` and `until` run with it switched off.  The standard also spares what
stands under `!` and before `&&` and `||`, and `run_pipeline` does not look at the option after a
stage that is a simple command.  The commands are those of a host; `set` changes the option, and
what it does in a condition is undone at its end.
-/

namespace PureCOS.Shell

/-- `struct node`, with words and redirections in `ω` -/
inductive Node (ω : Type)
  | null
  | simple (words : ω)
  | pipeline (stages : List (Node ω))
  | not (left : Node ω)
  | and (left right : Node ω)
  | or (left right : Node ω)
  | list (left right : Node ω)
  | background (left : Node ω)
  | subshell (redirects : ω) (left : Node ω)
  | group (redirects : ω) (left : Node ω)
  | if (redirects : ω) (left right third : Node ω)
  | while (isUntil : Bool) (redirects : ω) (left right : Node ω)
  | for (words redirects : ω) (left : Node ω)
  | case (words : ω) (bodies : List (Node ω))
  | function (words : ω) (left : Node ω)

/-- What the commands do to the rest of the shell, `σ`. -/
structure Commands (σ ω : Type) where
  /-- A command that is no function, given the option: what it sets the option to, if it does,
  its status, and whether it ends the shell. -/
  simple : ω → Bool → σ → σ × Option Bool × Int × Bool
  /-- The function of that name, and the state its body runs in. -/
  call : ω → σ → Option (Node ω × σ)
  /-- The state before a call, the one after it, and the status of the body. -/
  back : σ → σ → Int → σ × Int
  /-- Whether it worked; if not, it is undone. -/
  redirect : ω → σ → σ × Bool
  restore : σ → σ → σ
  /-- `last_status` -/
  record : Int → σ → σ
  /-- `break`, `continue` or `return` is on its way. -/
  leaving : σ → Bool
  /-- After a turn of a loop: whether there is another. -/
  again : σ → σ × Bool
  /-- The items of `for`. -/
  items : ω → σ → σ × List ω
  /-- Its variable gets an item. -/
  assign : ω → ω → σ → σ
  /-- The item of `case` that matches. -/
  select : ω → σ → σ × Nat
  define : ω → Node ω → σ → σ
  /-- The shell after a child with its own state has ended. -/
  reap : σ → σ → σ

/--
Where a command stands: in a condition, under `!` or before `&&` or `||`, and as a stage of a
pipeline.
-/
structure Place where
  condition : Bool
  operand : Bool
  stage : Bool

/-- What commands have set the option to. -/
structure Settings where
  /-- The last time. -/
  wanted : Bool
  /-- The last time since the innermost condition began, apart from conditions that have ended. -/
  last : Option Bool

/-- The option that follows from what has been set. -/
def Settings.option (s : Settings) (condition : Bool) : Bool := s.last.getD (!condition)

/--
A simple command that has failed: after which settings, and whether the shell was left for it.
-/
structure Failure where
  place : Place
  settings : Settings
  leaves : Bool

structure World (σ : Type) where
  optErrexit : Bool
  /-- The status the shell exits with. -/
  status : Int
  rest : σ
  settings : Settings
  failures : List Failure

/-- Something the shell does. -/
abbrev Action (σ : Type) := Code (World σ)

namespace World

variable {σ ω : Type} (h : Commands σ ω)

def onRest {α : Type} (f : σ → σ × α) : Action σ α := fun w =>
  ({ w with rest := (f w.rest).1 }, .done (f w.rest).2)

def setRest (f : σ → σ) : Action σ Unit := onRest fun rest => (f rest, ())

def exit (status : Int) : Action σ Int := fun w => ({ w with status := status }, .panic)

/-- `fork`, a run that ends with `_exit`, and `wait_for` -/
def child (x : Action σ Int) : Action σ Int := fun w =>
  match x w with
  | (w', .pending) => (w', .pending)
  | (w', .done status) =>
    ({ w with rest := h.reap w.rest w'.rest, failures := w'.failures }, .done (status % 256))
  | (w', .panic) =>
    ({ w with rest := h.reap w.rest w'.rest, failures := w'.failures }, .done (w'.status % 256))

/-- A condition runs with the option switched off. -/
def condition (x : Action σ Int) : Action σ Int := do
  let saved ← Code.get
  Code.modify fun w =>
    { w with optErrexit := false, settings := { w.settings with last := none } }
  let status ← x
  Code.modify fun w =>
    { w with
      optErrexit := saved.optErrexit
      settings := { w.settings with last := saved.settings.last } }
  pure status

def recorded (x : Action σ Int) : Action σ Int := do
  let status ← x
  setRest (h.record status)
  pure status

/-- `apply_redirects`; `x` gets the state before. -/
def opened (redirects : ω) (x : σ → Action σ Int) : Action σ Int := do
  let saved ← Code.get
  if ← onRest (h.redirect redirects) then x saved.rest else pure 1

def redirected (redirects : ω) (x : Action σ Int) : Action σ Int :=
  opened h redirects fun saved => recorded h do
    let status ← x
    setRest (h.restore saved)
    pure status

/-- A loop, whose status is that of the last turn. -/
def loop (isUntil : Bool) (test body : Action σ Int) : Nat → Int → Action σ Int
  | 0, _ => Code.pending
  | n + 1, status => do
    let tested ← test
    if (!isUntil) != (tested == 0) then
      pure status
    else
      let status ← body
      if ← onRest h.again then loop isUntil test body n status else pure status

/-- The turns of `for` -/
def each (words : ω) (body : Action σ Int) : List ω → Int → Action σ Int
  | [], status => pure status
  | item :: items, _ => do
    setRest (h.assign words item)
    let status ← body
    if ← onRest h.again then each words body items status else pure status

/-- `set` with `e` among its options, and any other command -/
def setOption : Option Bool → Action σ Unit
  | none => pure ()
  | some on => Code.modify fun w => { w with optErrexit := on, settings := ⟨on, some on⟩ }

def runSimple (run : Node ω → Action σ Int) (words : ω) : Action σ Int := do
  let before ← Code.get
  match h.call words before.rest with
  | some (body, rest) =>
    setRest fun _ => rest
    let status ← run body
    onRest fun after => h.back before.rest after status
  | none =>
    let (option, status, ends) ← onRest (h.simple words before.optErrexit)
    setOption option
    if ends then exit status else pure status

/-- The end of `run_node` for a simple command; nothing is tested for a stage. -/
def checkErrexit (place : Place) (status : Int) : Action σ Int := do
  if status = 0 then
    pure 0
  else
    let w ← Code.get
    let leaves := !place.stage && w.optErrexit
    Code.modify fun w => { w with failures := w.failures ++ [⟨place, w.settings, leaves⟩] }
    if leaves then exit status else pure status

def runNode : Nat → Place → Node ω → Action σ Int
  | 0, _, _ => Code.pending
  | n + 1, place, node =>
    let operand := { place with operand := true }
    let tested := { place with condition := true }
    match node with
    | .null => pure 0
    | .simple words => do
      let status ← recorded h (runSimple h (runNode n place) words)
      checkErrexit place status
    | .pipeline stages => recorded h (stages.foldlM (fun _ stage => child h (match stage with
        | .simple words =>
          runSimple h (runNode n place) words >>= checkErrexit { place with stage := true }
        | stage => runNode n place stage)) 0)
    | .not left => recorded h do
        let status ← runNode n operand left
        pure (if status = 0 then 1 else 0)
    | .and left right => recorded h do
        let status ← runNode n operand left
        let w ← Code.get
        if status = 0 ∧ !h.leaving w.rest then runNode n place right else pure status
    | .or left right => recorded h do
        let status ← runNode n operand left
        let w ← Code.get
        if status ≠ 0 ∧ !h.leaving w.rest then runNode n place right else pure status
    | .list left right => recorded h do
        let status ← recorded h (runNode n place left)
        let w ← Code.get
        if !h.leaving w.rest then runNode n place right else pure status
    | .background left => recorded h do
        let _ ← child h (runNode n place left)
        pure 0
    | .subshell redirects left =>
      recorded h (child h (opened h redirects fun _ => runNode n place left))
    | .group redirects left => redirected h redirects (runNode n place left)
    | .if redirects left right third => redirected h redirects do
        let status ← condition (runNode n tested left)
        if status = 0 then runNode n place right else runNode n place third
    | .while isUntil redirects left right =>
      redirected h redirects
        (loop h isUntil (condition (runNode n tested left)) (runNode n place right) n 0)
    | .for words redirects left => redirected h redirects do
        let items ← onRest (h.items words)
        each h words (runNode n place left) items 0
    | .case words bodies => recorded h do
        let item ← onRest (h.select words)
        runNode n place (bodies[item]?.getD .null)
    | .function words left => recorded h do
        setRest (h.define words left)
        pure 0

/-! ## The option is as it was last set, and off in a condition that has not set it -/

/-- Each command that has failed has ended the shell if the option was on, unless it is a stage. -/
def Known (w : World σ) : Prop :=
  ∀ f ∈ w.failures, f.leaves = (!f.place.stage && f.settings.option f.place.condition)

/-- What holds of the shell in a condition, or outside. -/
def Right (c : Bool) (w : World σ) : Prop := w.optErrexit = w.settings.option c ∧ w.Known

def frame (σ : Type) (c : Bool) : Code.Frame (World σ) where
  kept s t := s.Right c → t.Right c
  panicked s t := s.Right c → t.Known
  cutOff s t := s.Right c → t.Known
  refl _ := id
  trans h₁ h₂ := h₂ ∘ h₁
  panicked_trans h₁ h₂ := h₂ ∘ h₁
  cutOff_refl _ := And.right
  cutOff_trans h₁ h₂ := h₂ ∘ h₁

open Code

section Keeps

variable {h : Commands σ ω} {c : Bool} {x : Action σ Int}

/-- `x` ends as it should from every state. -/
abbrev Keeps {α : Type} (c : Bool) (x : Action σ α) : Prop := Respects (frame σ c) anything x

theorem keeps_onRest {α : Type} (f : σ → σ × α) : Keeps c (onRest f) := fun _ => ⟨id, trivial⟩

theorem keeps_setOption (option : Option Bool) : Keeps (σ := σ) c (setOption option) := by
  cases option with
  | none => exact .pure trivial
  | some on => exact fun _ => ⟨fun hw => ⟨rfl, hw.2⟩, trivial⟩

theorem keeps_exit (status : Int) : Keeps (σ := σ) c (exit status) := fun _ => And.right

theorem keeps_child (hx : Keeps c x) : Keeps c (child h x) := by
  intro w
  have hw := hx w
  unfold wp at hw ⊢
  unfold child
  generalize x w = ended at hw
  rcases ended with ⟨w', status | _ | _⟩
  · exact ⟨fun hright => ⟨hright.1, (hw.1 hright).2⟩, trivial⟩
  · exact ⟨fun hright => ⟨hright.1, hw hright⟩, trivial⟩
  · exact hw

theorem keeps_condition (hx : Keeps true x) : Keeps c (condition x) := by
  intro w
  have hright : w.Right c → World.Right true
      { w with optErrexit := false, settings := { w.settings with last := none } } :=
    fun hw => ⟨rfl, hw.2⟩
  simp only [condition, wp_bind, wp_get, wp_modify, wp_pure]
  exact wp_weaken (hx _) (fun _ hknown hw => hknown (hright hw))
    (fun _ hknown hw => hknown (hright hw))
    fun _ _ hafter => ⟨fun hw => ⟨hw.1, (hafter.1 (hright hw)).2⟩, trivial⟩

theorem keeps_recorded (hx : Keeps c x) : Keeps c (recorded h x) :=
  .bind hx fun _ _ => .bind (keeps_onRest _) fun _ _ => .pure trivial

theorem keeps_opened {x : σ → Action σ Int} (redirects : ω) (hx : ∀ saved, Keeps c (x saved)) :
    Keeps c (opened h redirects x) :=
  .bind .get fun saved _ => .bind (keeps_onRest _) fun _ _ =>
    .ite (fun _ => hx saved.rest) fun _ => .pure trivial

theorem keeps_redirected (redirects : ω) (hx : Keeps c x) : Keeps c (redirected h redirects x) :=
  keeps_opened redirects fun _ =>
    keeps_recorded (.bind hx fun _ _ => .bind (keeps_onRest _) fun _ _ => .pure trivial)

theorem keeps_loop (isUntil : Bool) {test : Action σ Int} (htest : Keeps c test) (hx : Keeps c x)
    (n : Nat) (status : Int) : Keeps c (loop h isUntil test x n status) := by
  induction n generalizing status with
  | zero => exact .pending
  | succ n ih =>
    refine .bind htest fun _ _ => .ite (fun _ => .pure trivial) fun _ => .bind hx fun status _ => ?_
    exact .bind (keeps_onRest _) fun _ _ => .ite (fun _ => ih status) fun _ => .pure trivial

theorem keeps_each (words : ω) (hx : Keeps c x) (items : List ω) (status : Int) :
    Keeps c (each h words x items status) := by
  induction items generalizing status with
  | nil => exact .pure trivial
  | cons item items ih =>
    refine .bind (keeps_onRest _) fun _ _ => .bind hx fun status _ => ?_
    exact .bind (keeps_onRest _) fun _ _ => .ite (fun _ => ih status) fun _ => .pure trivial

theorem keeps_runSimple {run : Node ω → Action σ Int} (hrun : ∀ node, Keeps c (run node))
    (words : ω) : Keeps c (runSimple h run words) := by
  refine .bind .get fun before _ => ?_
  rcases h.call words before.rest with _ | ⟨body, rest⟩
  · refine .bind (keeps_onRest _) fun result _ => .bind (keeps_setOption _) fun _ _ => ?_
    exact .ite (fun _ => keeps_exit _) fun _ => .pure trivial
  · exact .bind (keeps_onRest _) fun _ _ => .bind (hrun body) fun _ _ => keeps_onRest _

theorem keeps_checkErrexit {place : Place} (status : Int) :
    Keeps (σ := σ) place.condition (checkErrexit place status) := by
  intro w
  have hknown : w.Right place.condition → Known { w with
      failures := w.failures ++ [⟨place, w.settings, !place.stage && w.optErrexit⟩] } := by
    rintro ⟨hoption, hfailures⟩ f hf
    rcases List.mem_append.mp hf with hf | hf
    · exact hfailures f hf
    · rw [List.mem_singleton.mp hf, hoption]
  simp only [checkErrexit, wp_bind, wp_ite, wp_get, wp_modify, wp_pure]
  exact ⟨fun _ => ⟨id, trivial⟩,
    fun _ => ⟨fun _ => hknown, fun _ => ⟨fun hw => ⟨hw.1, hknown hw⟩, trivial⟩⟩⟩

theorem keeps_foldlM {α : Type} {f : Int → α → Action σ Int} (hf : ∀ status a, Keeps c (f status a))
    (l : List α) (status : Int) : Keeps c (l.foldlM f status) := by
  induction l generalizing status with
  | nil => exact .pure trivial
  | cons a l ih => exact .bind (hf status a) fun status _ => ih status

theorem keeps_runNode (n : Nat) (place : Place) (node : Node ω) :
    Keeps place.condition (runNode h n place node) := by
  induction n generalizing place node with
  | zero => exact .pending
  | succ n ih =>
    cases node with
    | null => exact .pure trivial
    | simple words =>
      exact .bind (keeps_recorded (keeps_runSimple (ih place) words)) fun status _ =>
        keeps_checkErrexit status
    | pipeline stages =>
      refine keeps_recorded (keeps_foldlM (fun _ stage => keeps_child ?_) stages 0)
      split
      · exact .bind (keeps_runSimple (ih place) _) fun status _ => keeps_checkErrexit status
      · exact ih place _
    | not left => exact keeps_recorded (.bind (ih _ left) fun _ _ => .pure trivial)
    | and left right | or left right =>
      refine keeps_recorded (.bind (ih _ left) fun _ _ => .bind .get fun _ _ => ?_)
      exact .ite (fun _ => ih place right) fun _ => .pure trivial
    | list left right =>
      refine keeps_recorded
        (.bind (keeps_recorded (ih place left)) fun _ _ => .bind .get fun _ _ => ?_)
      exact .ite (fun _ => ih place right) fun _ => .pure trivial
    | background left =>
      exact keeps_recorded (.bind (keeps_child (ih place left)) fun _ _ => .pure trivial)
    | subshell redirects left =>
      exact keeps_recorded (keeps_child (keeps_opened redirects fun _ => ih place left))
    | group redirects left => exact keeps_redirected redirects (ih place left)
    | «if» redirects left right third =>
      refine keeps_redirected redirects (.bind (keeps_condition (ih _ left)) fun _ _ => ?_)
      exact .ite (fun _ => ih place right) fun _ => ih place third
    | «while» isUntil redirects left right =>
      exact keeps_redirected redirects
        (keeps_loop isUntil (keeps_condition (ih _ left)) (ih place right) n 0)
    | «for» words redirects left =>
      exact keeps_redirected redirects
        (.bind (keeps_onRest _) fun items _ => keeps_each words (ih place left) items 0)
    | case words bodies => exact keeps_recorded (.bind (keeps_onRest _) fun _ _ => ih place _)
    | function words left => exact keeps_recorded (.bind (keeps_onRest _) fun _ _ => .pure trivial)

end Keeps

/-- The simple commands that have failed when the tree has run with the option on. -/
def failuresOf (n : Nat) (node : Node ω) (rest : σ) : List Failure :=
  (runNode h n ⟨false, false, false⟩ node ⟨true, 0, rest, ⟨true, none⟩, []⟩).1.failures

/-- Commands that may set the option and have a status. -/
def statusOnly : Commands Unit (Option Bool × Int) where
  simple words _ _ := ((), words.1, words.2, false)
  call _ _ := none
  back _ _ status := ((), status)
  redirect _ _ := ((), true)
  restore _ _ := ()
  record _ _ := ()
  leaving _ := false
  again _ := ((), true)
  items _ _ := ((), [])
  assign _ _ _ := ()
  select _ _ := ((), 0)
  define _ _ _ := ()
  reap _ _ := ()

end World

end PureCOS.Shell
