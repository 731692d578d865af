import PureCOS.Shell.Lexer
import Mathlib.Data.List.AList
import Mathlib.Data.List.TakeWhile

/-!
# Assignments before a command

`NAME=value … command` sets variables for one command: `apply_assignments` saves the old values and
sets the new ones for export, `restore_assignments` goes back through them.  What is saved is the
value alone, and `var_set` never takes an export mark away.  The expansion of `${name:=word}` sets a
variable too, and nobody takes that back.

The variables are a list in which no name stands twice; nothing here depends on their order.  The
command has no redirections.
-/

namespace PureCOS.Shell

open List

/-- `struct variable` without its name -/
structure Entry where
  value : List Byte
  exported : Bool
  readonly : Bool

abbrev Vars := AList fun _ : List Byte => Entry

/-- What `var_set` makes of the variable it finds. -/
def assign (value : List Byte) (exportIt : Bool) : Option Entry → Entry
  | some v =>
    if v.readonly then v else { v with value := value, exported := v.exported || exportIt }
  | none => ⟨value, exportIt, false⟩

/-- `var_set` -/
def varAssign (name value : List Byte) (exportIt : Bool) (vars : Vars) : Vars :=
  vars.insert name (assign value exportIt (vars.lookup name))

def varUnset (name : List Byte) (vars : Vars) : Vars :=
  if (vars.lookup name).any Entry.readonly then vars else vars.erase name

/-- `build_environment`, each entry a name and a value -/
def buildEnvironment (vars : Vars) : List (List Byte × List Byte) :=
  (vars.entries.filter fun v => v.2.exported).map fun v => (v.1, v.2.value)

/-- The assignment a word is, its value not yet expanded. -/
def assignment (word : List Byte) : Option (List Byte × List Byte) :=
  let name := word.takeWhile (· != byte '=')
  if name ≠ [] ∧ name.length < word.length ∧ name.all (fun c => isAlnum c || c == byte '_') ∧
      !(name.head?.map isDigit).getD false ∧ name.length < 128 then
    some (name, word.drop (name.length + 1))
  else
    none

/-- A call of `var_set`. -/
structure Call where
  name : List Byte
  value : List Byte
  exportIt : Bool

def Call.set (vars : Vars) (c : Call) : Vars := varAssign c.name c.value c.exportIt vars

/--
How words are expanded, given the variables: the text or the fields, and the variables that
`${name:=word}` sets on the way.
-/
structure Expander where
  /-- `expand_scalar` -/
  scalar : Vars → List Byte → List Byte × List (List Byte × List Byte)
  /-- `expand_word` -/
  word : Vars → List Byte → List (List Byte) × List (List Byte × List Byte)

/-- The calls of `var_set` in `expand_braced`. -/
def defaults (sets : List (List Byte × List Byte)) : List Call :=
  sets.map fun d => ⟨d.1, d.2, false⟩

/-- What `apply_assignments` leaves behind for a temporary assignment. -/
structure Applied where
  vars : Vars
  /-- `saved_names` and `saved_values` -/
  saved : List (List Byte × Option (List Byte))
  /-- The words from `first_word_index` on. -/
  rest : List (List Byte)

/-- `apply_assignments` with `temporary` -/
def applyAssignments (expand : Expander) (vars : Vars) : List (List Byte) → Applied
  | [] => ⟨vars, [], []⟩
  | word :: words =>
    match assignment word with
    | none => ⟨vars, [], word :: words⟩
    | some (name, raw) =>
      let (value, sets) := expand.scalar vars raw
      let vars := (defaults sets).foldl Call.set vars
      let after := applyAssignments expand (varAssign name value true vars) words
      { after with saved := (name, (vars.lookup name).map Entry.value) :: after.saved }

/-- `expand_word` for each word: the fields, and the variables then. -/
def expandWords (expand : Expander) (vars : Vars) : List (List Byte) → List (List Byte) × Vars
  | [] => ([], vars)
  | word :: words =>
    let (fields, sets) := expand.word vars word
    let after := expandWords expand ((defaults sets).foldl Call.set vars) words
    (fields ++ after.1, after.2)

/-- One turn of `restore_assignments` -/
def restoreAssignment : List Byte × Option (List Byte) → Vars → Vars
  | (name, some value), vars => varAssign name value false vars
  | (name, none), vars => varUnset name vars

/-- `restore_assignments`, from the last to the first -/
def restoreAssignments (saved : List (List Byte × Option (List Byte))) (vars : Vars) : Vars :=
  saved.foldr restoreAssignment vars

/-- A run of an external program: its arguments and environment, and the variables afterwards. -/
structure Ran where
  arguments : List (List Byte)
  environment : List (List Byte × List Byte)
  vars : Vars

/-- `run_simple` on words that have a command, whose fields name an external program -/
def runExternal (expand : Expander) (vars : Vars) (words : List (List Byte)) : Ran :=
  let applied := applyAssignments expand vars words
  let expanded := expandWords expand applied.vars applied.rest
  ⟨expanded.1, buildEnvironment expanded.2, restoreAssignments applied.saved expanded.2⟩

/-! ## What is asked -/

/-- The calls of `var_set` while words are expanded to fields. -/
def fieldCalls (expand : Expander) (vars : Vars) : List (List Byte) → List Call
  | [] => []
  | word :: words =>
    let made := defaults (expand.word vars word).2
    made ++ fieldCalls expand (made.foldl Call.set vars) words

/-- The calls of `var_set` before the program runs: assignments are for export, defaults are not. -/
def calls (expand : Expander) (vars : Vars) : List (List Byte) → List Call
  | [] => []
  | word :: words =>
    match assignment word with
    | none => fieldCalls expand vars (word :: words)
    | some (name, raw) =>
      let (value, sets) := expand.scalar vars raw
      let made := defaults sets ++ [⟨name, value, true⟩]
      made ++ calls expand (made.foldl Call.set vars) words

def callsFor (made : List Call) (name : List Byte) : List Call := made.filter (·.name == name)

/-- The value of the last assignment. -/
def assigned (own : List Call) : Option (List Byte) :=
  (own.filter Call.exportIt).getLast?.map Call.value

/--
The program sees the assignments over the exported variables, and the variables are then as before.
-/
structure Traceless (expand : Expander) (vars : Vars) (words : List (List Byte)) : Prop where
  environment : ∀ name value, (name, value) ∈ (runExternal expand vars words).environment ↔
    assigned (callsFor (calls expand vars words) name) = some value ∨
      assigned (callsFor (calls expand vars words) name) = none ∧
        (name, value) ∈ buildEnvironment vars
  restored : ∀ name, (runExternal expand vars words).vars.lookup name = vars.lookup name

/--
What the calls for a name may be, given the variable before: no default outlives the command, none
covers an assigned value, and a variable that is assigned was exported already.
-/
def Harmless (own : List Call) : Option Entry → Prop
  | none =>
    (∀ c ∈ own.head?, c.exportIt = true) ∧
      ∀ value ∈ assigned own, ∃ c ∈ own.getLast?, c.value = value
  | some v =>
    if v.readonly then
      ∀ value ∈ assigned own, v.exported = true ∧ v.value = value
    else
      (∀ c ∈ (own.takeWhile (!·.exportIt)).getLast?, c.value = v.value) ∧
        ∀ value ∈ assigned own, v.exported = true ∧ ∃ c ∈ own.getLast?, c.value = value

/-! ## One name -/

/-- What a name stands for after its calls. -/
def settled : List Call → Option Entry → Option Entry
  | [], e => e
  | c :: own, e => settled own (some (assign c.value c.exportIt e))

/-- `restoreAssignment` at the name, which stood for `old`. -/
def undo (old e : Option Entry) : Option Entry :=
  match old with
  | some v => some (assign v.value false e)
  | none => e.filter Entry.readonly

/-- What a name stands for when its calls have been made and the assignments been restored. -/
def restored : List Call → Option Entry → Option Entry
  | [], e => e
  | c :: own, e =>
    let e' := restored own (some (assign c.value c.exportIt e))
    if c.exportIt then undo e e' else e'

def lastValue (own : List Call) (value : List Byte) : List Byte :=
  (own.getLast?.map Call.value).getD value

/-- The name is exported with this value. -/
def Shows (e : Option Entry) (value : List Byte) : Prop :=
  ∃ v, e = some v ∧ v.exported = true ∧ v.value = value

/-- What is asked for one name. -/
def TracelessAt (own : List Call) (e : Option Entry) : Prop :=
  (∀ value, Shows (settled own e) value ↔
    assigned own = some value ∨ assigned own = none ∧ Shows e value) ∧ restored own e = e

section Name

variable (own : List Call)

@[simp]
theorem lastValue_cons (c : Call) (value : List Byte) :
    lastValue (c :: own) value = lastValue own c.value := by
  cases h : own.getLast? <;> simp [lastValue, getLast?_cons, h]

variable (value : List Byte) (exported : Bool)

theorem settled_readonly :
    settled own (some ⟨value, exported, true⟩) = some ⟨value, exported, true⟩ := by
  induction own with
  | nil => rfl
  | cons c own ih => simp [settled, assign, ih]

theorem restored_readonly :
    restored own (some ⟨value, exported, true⟩) = some ⟨value, exported, true⟩ := by
  induction own with
  | nil => rfl
  | cons c own ih => simp [restored, assign, undo, ih]

theorem settled_plain :
    settled own (some ⟨value, exported, false⟩) =
      some ⟨lastValue own value, exported || own.any Call.exportIt, false⟩ := by
  induction own generalizing value exported with
  | nil => simp [settled, lastValue]
  | cons c own ih => simp [settled, assign, ih, Bool.or_assoc]

/-- A variable comes back with the value it had at its first assignment, and exported. -/
theorem restored_plain :
    restored own (some ⟨value, exported, false⟩) =
      some ⟨lastValue (own.takeWhile (!·.exportIt)) value,
        exported || own.any Call.exportIt, false⟩ := by
  induction own generalizing value exported with
  | nil => simp [restored, lastValue]
  | cons c own ih =>
    by_cases hexport : c.exportIt
    · simp [restored, assign, ih, hexport, undo, lastValue]
    · simp [restored, assign, ih, hexport]

/-- Where nothing is assigned, all calls are defaults. -/
theorem takeWhile_of_unassigned (hnone : assigned own = none) :
    own.takeWhile (!·.exportIt) = own ∧ own.any Call.exportIt = false := by
  have hall : ∀ c ∈ own, c.exportIt = false := by simpa [assigned] using hnone
  exact ⟨takeWhile_eq_self_iff.mpr fun c hc => by simp [hall c hc], by simpa using hall⟩

theorem any_of_assigned {value : List Byte} (hsome : assigned own = some value) :
    own.any Call.exportIt = true := by
  by_contra hnot
  have hnone : assigned own = none := by simpa [assigned] using hnot
  simp [hnone] at hsome

theorem lastValue_eq_iff {a : List Byte} (hsome : assigned own = some a) (value : List Byte) :
    lastValue own value = a ↔ ∃ c, own.getLast? = some c ∧ c.value = a := by
  cases hlast : own.getLast? with
  | none => simp [getLast?_eq_none_iff.mp hlast, assigned] at hsome
  | some c => simp [lastValue, hlast]

theorem lastValue_eq_self :
    lastValue own value = value ↔ ∀ c, own.getLast? = some c → c.value = value := by
  cases hlast : own.getLast? <;> simp [lastValue, hlast]

theorem tracelessAt_none : TracelessAt own none ↔ Harmless own none := by
  obtain _ | ⟨c, own⟩ := own
  · simp [TracelessAt, settled, restored, assigned, Harmless, Shows]
  by_cases hexport : c.exportIt
  · obtain ⟨a, ha⟩ : ∃ a, assigned (c :: own) = some a := by
      simp [assigned, hexport, getLast?_cons]
    have hlast := lastValue_eq_iff (c :: own) ha []
    simpa [TracelessAt, Harmless, Shows, settled, restored, undo, assign, settled_plain,
      restored_plain, ha, hexport] using hlast
  · simp [TracelessAt, Harmless, restored, assign, restored_plain, hexport]

theorem tracelessAt_some (v : Entry) : TracelessAt own (some v) ↔ Harmless own (some v) := by
  obtain ⟨value, exported, _ | _⟩ := v
  · simp only [TracelessAt, Harmless, Shows, settled_plain, restored_plain]
    cases ha : assigned own with
    | none =>
      obtain ⟨hall, hany⟩ := takeWhile_of_unassigned own ha
      simp [hall, hany, ← lastValue_eq_self]
      intro hsame
      simp [hsame]
    | some a =>
      simp [any_of_assigned own ha, ← lastValue_eq_iff own ha value, ← lastValue_eq_self]
      tauto
  · cases ha : assigned own with
    | none => simp [TracelessAt, Harmless, settled_readonly, restored_readonly, ha]
    | some a =>
      cases exported <;>
        simp [TracelessAt, Harmless, Shows, settled_readonly, restored_readonly, ha]

theorem tracelessAt_iff : ∀ e, TracelessAt own e ↔ Harmless own e
  | none => tracelessAt_none own
  | some v => tracelessAt_some own v

end Name

/-! ## All names -/

/-- `saved_names` and `saved_values` for the assignments among the calls. -/
def savedBy (vars : Vars) : List Call → List (List Byte × Option (List Byte))
  | [] => []
  | c :: cs =>
    if c.exportIt then (c.name, (vars.lookup c.name).map Entry.value) :: savedBy (c.set vars) cs
    else savedBy (c.set vars) cs

section Command

variable (expand : Expander) (vars : Vars) (words : List (List Byte))
variable (made : List Call) (name : List Byte)

theorem lookup_varAssign (value : List Byte) (exportIt : Bool) (other : List Byte) :
    (varAssign name value exportIt vars).lookup other =
      if name = other then some (assign value exportIt (vars.lookup other))
      else vars.lookup other := by
  split
  next hother => rw [hother, varAssign, AList.lookup_insert]
  next hother => exact AList.lookup_insert_ne (Ne.symm hother)

theorem lookup_varUnset (other : List Byte) :
    (varUnset name vars).lookup other =
      if name = other then (vars.lookup other).filter Entry.readonly else vars.lookup other := by
  unfold varUnset
  by_cases hother : name = other
  · subst hother
    cases hfound : vars.lookup name with
    | none => simp
    | some v => by_cases hreadonly : v.readonly <;> simp [Option.filter, hreadonly, hfound]
  · rw [if_neg hother]
    split
    · rfl
    · exact AList.lookup_erase_ne (Ne.symm hother)

theorem lookup_restoreAssignment (old : Option Entry) (other : List Byte) :
    (restoreAssignment (name, old.map Entry.value) vars).lookup other =
      if name = other then undo old (vars.lookup other) else vars.lookup other := by
  cases old with
  | none => exact lookup_varUnset vars name other
  | some v => exact lookup_varAssign vars name v.value false other

theorem mem_buildEnvironment (value : List Byte) :
    (name, value) ∈ buildEnvironment vars ↔ Shows (vars.lookup name) value := by
  simp only [buildEnvironment, mem_map, mem_filter, Prod.mk.injEq]
  constructor
  · rintro ⟨⟨key, v⟩, ⟨hv, hexp⟩, rfl, rfl⟩
    exact ⟨v, AList.mem_lookup_iff.mpr hv, hexp, rfl⟩
  · rintro ⟨v, hv, hexp, rfl⟩
    exact ⟨⟨name, v⟩, ⟨AList.mem_lookup_iff.mp hv, hexp⟩, rfl, rfl⟩

/-- A name stands for what its own calls make of it. -/
theorem lookup_settled :
    (made.foldl Call.set vars).lookup name = settled (callsFor made name) (vars.lookup name) := by
  induction made generalizing vars with
  | nil => rfl
  | cons c made ih =>
    by_cases hname : c.name = name <;>
      simp [callsFor, ih, Call.set, lookup_varAssign, hname, settled]

theorem lookup_restored :
    (restoreAssignments (savedBy vars made) (made.foldl Call.set vars)).lookup name =
      restored (callsFor made name) (vars.lookup name) := by
  induction made generalizing vars with
  | nil => rfl
  | cons c made ih =>
    have hset := ih (c.set vars)
    rw [Call.set, lookup_varAssign, ← Call.set] at hset
    by_cases hexport : c.exportIt
    · simp only [savedBy, hexport, if_true, restoreAssignments, foldr_cons, foldl_cons] at hset ⊢
      rw [lookup_restoreAssignment, hset]
      by_cases hname : c.name = name
      · subst hname
        simp [callsFor, restored, hexport]
      · simp [callsFor, hname]
    · by_cases hname : c.name = name <;>
        simpa [savedBy, hexport, callsFor, hname, restored] using hset

theorem savedBy_append (more : List Call) :
    savedBy vars (made ++ more) = savedBy vars made ++ savedBy (made.foldl Call.set vars) more := by
  induction made generalizing vars with
  | nil => rfl
  | cons c made ih => by_cases hexport : c.exportIt <;> simp [savedBy, hexport, ih]

@[simp]
theorem savedBy_defaults (sets : List (List Byte × List Byte)) :
    savedBy vars (defaults sets) = [] := by
  induction sets generalizing vars with
  | nil => rfl
  | cons d sets ih => exact ih _

theorem fieldCalls_spec :
    (expandWords expand vars words).2 = (fieldCalls expand vars words).foldl Call.set vars ∧
      savedBy vars (fieldCalls expand vars words) = [] := by
  induction words generalizing vars with
  | nil => exact ⟨rfl, rfl⟩
  | cons word words ih =>
    obtain ⟨hvars, hsaved⟩ := ih ((defaults (expand.word vars word).2).foldl Call.set vars)
    simp [expandWords, fieldCalls, hvars, savedBy_append, hsaved]

/-- `apply_assignments` and the expansion of the other words make these calls. -/
theorem calls_spec :
    (expandWords expand (applyAssignments expand vars words).vars
          (applyAssignments expand vars words).rest).2 =
        (calls expand vars words).foldl Call.set vars ∧
      (applyAssignments expand vars words).saved = savedBy vars (calls expand vars words) := by
  induction words generalizing vars with
  | nil => exact ⟨rfl, rfl⟩
  | cons word words ih =>
    rw [applyAssignments, calls]
    split
    · exact (fieldCalls_spec expand vars (word :: words)).imp id Eq.symm
    next name raw _ =>
      obtain ⟨hvars, hsaved⟩ :=
        ih (varAssign name (expand.scalar vars raw).1 true
          ((defaults (expand.scalar vars raw).2).foldl Call.set vars))
      simp [hvars, hsaved, savedBy_append, savedBy, Call.set]

theorem mem_environment_iff (value : List Byte) :
    (name, value) ∈ (runExternal expand vars words).environment ↔
      Shows (settled (callsFor (calls expand vars words) name) (vars.lookup name)) value := by
  rw [runExternal, mem_buildEnvironment, (calls_spec expand vars words).1, lookup_settled]

theorem lookup_vars :
    (runExternal expand vars words).vars.lookup name =
      restored (callsFor (calls expand vars words) name) (vars.lookup name) := by
  rw [runExternal, (calls_spec expand vars words).1, (calls_spec expand vars words).2,
    lookup_restored]

end Command

/--
The assignments leave no trace exactly if the calls of `var_set` for each name are harmless to the
variable of that name.
-/
theorem assignments_traceless_iff
    (expand : Expander)
    (vars : Vars)
    (words : List (List Byte)) :
    Traceless expand vars words ↔
      ∀ name, Harmless (callsFor (calls expand vars words) name) (vars.lookup name) := by
  simp only [← tracelessAt_iff, TracelessAt, ← mem_environment_iff, ← lookup_vars,
    ← mem_buildEnvironment]
  exact ⟨fun h name => ⟨h.environment name, h.restored name⟩,
    fun h => ⟨fun name => (h name).1, fun name => (h name).2⟩⟩

/-- Words that stand for themselves. -/
def literal : Expander := ⟨fun _ raw => (raw, []), fun _ word => ([word], [])⟩

/-- `X=1 cmd` where `X` is not exported: afterwards it is. -/
theorem assignments_leave_export :
    ¬Traceless literal (AList.singleton [byte 'X'] ⟨[], false, false⟩)
      [[byte 'X', byte '=', byte '1'], [byte 'c', byte 'm', byte 'd']] := by
  intro htraceless
  have hexp := congrArg (Option.map Entry.exported) (htraceless.restored [byte 'X'])
  revert hexp
  decide

end PureCOS.Shell
