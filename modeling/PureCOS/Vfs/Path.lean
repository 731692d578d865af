import Mathlib.Algebra.Group.Int.Defs
import Mathlib.Algebra.Group.Nat.Defs
import PureCOS.Lib.Segments

/-!
# Paths

`fs/vfs_path.c`.  `vfs_path_normalize` goes over a path once and writes its result as it goes;
for `..` it looks backwards in what it has written.  `lexical` says what the result means: a
stack of names that `..` pops.

A path is the list of its characters without the terminator; a buffer is a function from
offsets to characters, so that what is not written can be said to keep its value.
-/

namespace PureCOS.Vfs

open Segments List Option

def vfsPathMax : Nat := 512
def vfsNameMax : Nat := 255

/-- `PATH_INVALID`, which is also `PATH_TOO_LONG` -/
def pathInvalid : Int := -3

/-- Conversion of a `uint32_t` to `int32_t`. -/
def toInt32 (n : Nat) : Int := if n < 2 ^ 31 then n else n - 2 ^ 32

/-- A character buffer. -/
abbrev Chars := Nat → Char

/-- The first `n` characters of a buffer. -/
def text (out : Chars) (n : Nat) : List Char := (range n).map out

/-- Characters stored one behind the other from `length` on. -/
def putChars : Chars → Nat → List Char → Chars
  | out, _, [] => out
  | out, length, c :: cs => putChars (fun i => if i = length then c else out i) (length + 1) cs

/-- The inner loop for `..`: back to the last separator. -/
def scanBack (out : Chars) : Nat → Nat
  | 0 => 0
  | 1 => 1
  | n + 2 => if out (n + 1) = '/' then n + 2 else scanBack out (n + 1)

/-- The branch for `..`: the length without the last name. -/
def popName (out : Chars) (length : Nat) : Nat :=
  if 1 < length then
    let length := scanBack out (length - 1)
    if 1 < length then length - 1 else length
  else
    length

/-- The outer loop of `vfs_path_normalize`; every round but the last consumes a name. -/
def normalizeLoop (capacity : Nat) : Nat → List Char → Chars → Nat → Chars × Option Nat
  | 0, _, out, length => (out, some length)
  | rounds + 1, path, out, length =>
    if path = [] then
      (out, some length)
    else
      let start := path.dropWhile (· == '/')
      let name := start.takeWhile (· != '/')
      let rest := start.dropWhile (· != '/')
      if name = [] then
        (out, some length)
      else if name = ['.'] then
        normalizeLoop capacity rounds rest out length
      else if name = ['.', '.'] then
        normalizeLoop capacity rounds rest out (popName out length)
      else if vfsNameMax < name.length then
        (out, none)
      else
        let separator := if 1 < length then ['/'] else []
        if capacity < (length + separator.length + name.length + 1) % 2 ^ 32 then
          (out, none)
        else
          normalizeLoop capacity rounds rest (putChars out length (separator ++ name))
            (length + separator.length + name.length)

def vfsPathNormalize (path : List Char) (out : Chars) (capacity : Nat) : Chars × Int :=
  if capacity < 2 ∨ path.head? ≠ some '/' then
    (out, pathInvalid)
  else
    match normalizeLoop capacity path.length path (putChars out 0 ['/']) 1 with
    | (out, none) => (out, pathInvalid)
    | (out, some length) => (putChars out length ['\x00'], toInt32 length)

def vfsPathHasPrefix (path pre : List Char) : Bool :=
  if pre = ['/'] then
    path.head? == some '/'
  else
    pre.isPrefixOf path &&
      ((path.drop pre.length).head? == none || (path.drop pre.length).head? == some '/')

/-- What a successful call leaves in the buffer. -/
def normalized (path : List Char) (capacity : Nat) : Option (List Char) :=
  match vfsPathNormalize path (fun _ => '\x00') capacity with
  | (out, length) => if length < 0 then none else some (text out length.toNat)

/-! ## Lexical resolution -/

/-- One component on the stack. -/
def push (stack : List (List Char)) (name : List Char) : List (List Char) :=
  if name = [] ∨ name = ['.'] then stack
  else if name = ['.', '.'] then stack.dropLast
  else stack ++ [name]

/-- The names a path resolves to. -/
def lexical (path : List Char) : List (List Char) := (path.splitOn '/').foldl push []

/-- A name that is not resolved away. -/
def Ordinary (name : List Char) : Prop :=
  name ≠ [] ∧ '/' ∉ name ∧ name ≠ ['.'] ∧ name ≠ ['.', '.'] ∧ name.length ≤ vfsNameMax

instance (name : List Char) : Decidable (Ordinary name) := inferInstanceAs (Decidable (_ ∧ _))

/-- The path with these names. -/
def pathOf (names : List (List Char)) : List Char := absolute '/' names

theorem pathOf_concat (names : List (List Char)) (name : List Char) :
    pathOf (names ++ [name]) = rooted '/' names ++ '/' :: name :=
  absolute_concat names name

theorem pathOf_cons (name : List Char) (names : List (List Char)) :
    pathOf (name :: names) = rooted '/' (name :: names) :=
  absolute_cons name names

theorem plain_of_ordinary {names : List (List Char)} (h : ∀ n ∈ names, Ordinary n) :
    Plain '/' names := fun n hn => ⟨(h n hn).1, (h n hn).2.1⟩

/-! ## The buffer -/

section Buffer

variable {out : Chars} {n i : Nat} {cs : List Char}

@[simp] theorem text_length (out : Chars) (n : Nat) : (text out n).length = n := by simp [text]

theorem text_succ (out : Chars) (n : Nat) : text out (n + 1) = text out n ++ [out n] := by
  simp [text, range_succ]

theorem text_take {k : Nat} (hk : k ≤ n) : (text out n).take k = text out k := by
  rw [text, ← map_take, take_range, Nat.min_eq_left hk, text]

theorem text_congr {out' : Chars} (h : ∀ i < n, out' i = out i) : text out' n = text out n :=
  map_congr_left fun i hi => h i (mem_range.mp hi)

theorem putChars_of_lt (hi : i < n) : putChars out n cs i = out i := by
  induction cs generalizing out n with
  | nil => rfl
  | cons c cs ih => rw [putChars, ih (by omega), if_neg (by omega)]

theorem putChars_of_ge (hi : n + cs.length ≤ i) : putChars out n cs i = out i := by
  induction cs generalizing out n with
  | nil => rfl
  | cons c cs ih =>
    rw [length_cons] at hi
    rw [putChars, ih (by omega), if_neg (by omega)]

/-- What is written stands behind what was there. -/
theorem text_putChars (out : Chars) (n : Nat) (cs : List Char) :
    text (putChars out n cs) (n + cs.length) = text out n ++ cs := by
  induction cs generalizing out n with
  | nil => simp [putChars]
  | cons c cs ih =>
    have hsum : n + (c :: cs).length = n + 1 + cs.length := by
      rw [length_cons]
      omega
    have hfirst : text (fun i => if i = n then c else out i) (n + 1) = text out n ++ [c] := by
      rw [text_succ, if_pos rfl]
      congr 1
      exact text_congr fun i hi => if_neg (by omega)
    rw [hsum, putChars, ih, hfirst, append_assoc]
    rfl

/-- Back over a name without separators. -/
theorem scanBack_eq {t name : List Char} (hname : '/' ∉ name)
    (h : text out n = t ++ '/' :: name) : scanBack out n = t.length + 1 := by
  induction n generalizing name with
  | zero =>
    have hlen := congrArg length h
    simp at hlen
  | succ n ih =>
    have hn : n + 1 = t.length + (name.length + 1) := by
      have hlen := congrArg length h
      simpa using hlen
    rw [text_succ] at h
    cases n with
    | zero =>
      show 1 = _
      omega
    | succ n =>
      rcases eq_nil_or_concat name with rfl | ⟨init, c, rfl⟩
      · have hlast := (append_inj' h rfl).2
        rw [scanBack, if_pos (by simpa using hlast), hn]
        rfl
      rw [concat_eq_append] at h hname
      rw [← cons_append, ← append_assoc] at h
      obtain ⟨hinit, hlast⟩ := append_inj' h rfl
      have hc : out (n + 1) ≠ '/' := by
        intro heq
        obtain rfl : c = '/' := by simpa [heq, eq_comm] using hlast
        exact hname (by simp)
      rw [scanBack, if_neg hc]
      exact ih (fun hin => hname (mem_append_left _ hin)) hinit

end Buffer

theorem scanBack_le (out : Chars) (n : Nat) : scanBack out n ≤ n := by
  fun_induction scanBack out n with
  | case1 => exact Nat.le_refl _
  | case2 => exact Nat.le_refl _
  | case3 n h => exact Nat.le_refl _
  | case4 n h ih => omega

theorem popName_le (out : Chars) (n : Nat) : popName out n ≤ n := by
  have hle := scanBack_le out (n - 1)
  unfold popName
  simp only
  split
  · split <;> omega
  · exact Nat.le_refl _

/-! ## The loop -/

/-- The buffer holds the path of these names, with room for a terminator. -/
structure HoldsPath (capacity : Nat) (out : Chars) (n : Nat) (names : List (List Char)) : Prop where
  ordinary : ∀ name ∈ names, Ordinary name
  text : text out n = pathOf names
  room : n + 1 ≤ capacity

/-- The names after the rest of a path. -/
def resolveFrom (names : List (List Char)) (rest : List Char) : List (List Char) :=
  (rest.splitOn '/').foldl push names

section Splitting

variable {names : List (List Char)} {name rest : List Char}

@[simp] theorem push_nil (names : List (List Char)) : push names [] = names := by simp [push]

@[simp] theorem resolveFrom_nil (names : List (List Char)) : resolveFrom names [] = names := by
  simp [resolveFrom]

theorem resolveFrom_slash (names : List (List Char)) (rest : List Char) :
    resolveFrom names ('/' :: rest) = resolveFrom names rest := by
  have hsplit : ([] ++ '/' :: rest).splitOn '/' = [] :: rest.splitOn '/' :=
    splitOnP_append_cons_of_forall_mem (by simp) '/' (by simp) rest
  rw [nil_append] at hsplit
  rw [resolveFrom, hsplit, foldl_cons, push_nil, resolveFrom]

theorem resolveFrom_dropWhile (names : List (List Char)) (rest : List Char) :
    resolveFrom names (rest.dropWhile (· == '/')) = resolveFrom names rest := by
  induction rest with
  | nil => rfl
  | cons c rest ih =>
    by_cases hc : c = '/'
    · subst hc
      rw [resolveFrom_slash, ← ih]
      rfl
    · rw [dropWhile_cons, if_neg (by simpa using hc)]

/-- A name up to the next separator. -/
theorem resolveFrom_append (hname : '/' ∉ name) (hrest : Boundary '/' rest) :
    resolveFrom names (name ++ rest) = resolveFrom (push names name) rest := by
  have hplain : ∀ x ∈ name, (x == '/') = false := by
    intro x hx
    refine beq_eq_false_iff_ne.mpr ?_
    rintro rfl
    exact hname hx
  rcases hrest with rfl | hrest
  · have hsplit : name.splitOn '/' = [name] := splitOnP_eq_singleton hplain
    rw [append_nil, resolveFrom_nil, resolveFrom, hsplit]
    rfl
  obtain ⟨rest, rfl⟩ : ∃ r, rest = '/' :: r := by
    cases rest with
    | nil => cases hrest
    | cons c r =>
      obtain rfl := some.inj hrest
      exact ⟨r, rfl⟩
  have hsplit : (name ++ '/' :: rest).splitOn '/' = name :: rest.splitOn '/' :=
    splitOnP_append_cons_of_forall_mem hplain '/' (by simp) rest
  rw [resolveFrom, hsplit, foldl_cons, resolveFrom_slash, resolveFrom]

/-- What the scan for the next separator leaves. -/
theorem boundary_dropWhile (path : List Char) : Boundary '/' (path.dropWhile (· != '/')) := by
  induction path with
  | nil => exact .inl rfl
  | cons c path ih =>
    by_cases hc : c = '/'
    · subst hc
      exact .inr rfl
    · rw [dropWhile_cons, if_pos (by simpa using hc)]
      exact ih

theorem not_mem_takeWhile (path : List Char) : '/' ∉ path.takeWhile (· != '/') := by
  induction path with
  | nil => simp
  | cons c path ih =>
    by_cases hc : c = '/'
    · simp [hc]
    · rw [takeWhile_cons, if_pos (by simpa using hc), mem_cons, not_or]
      exact ⟨fun heq => hc heq.symm, ih⟩

end Splitting

section Loop

variable {capacity n : Nat} {out : Chars} {names : List (List Char)} {name : List Char}

theorem HoldsPath.length (h : HoldsPath capacity out n names) : n = (pathOf names).length := by
  rw [← h.text, text_length]

/-- The separator is needed for all names but the first. -/
theorem HoldsPath.one_lt_iff (h : HoldsPath capacity out n names) : 1 < n ↔ names ≠ [] := by
  rw [h.length]
  constructor
  · rintro hlt rfl
    exact absurd hlt (by decide)
  intro hne
  obtain ⟨c, tail, rfl⟩ := exists_cons_of_ne_nil hne
  have hc := length_pos_iff.mpr (h.ordinary c mem_cons_self).1
  rw [pathOf_cons, rooted_cons]
  simp only [length_cons, length_append]
  omega

theorem HoldsPath.pop (h : HoldsPath capacity out n names) :
    HoldsPath capacity out (popName out n) names.dropLast := by
  rcases List.eq_nil_or_concat names with rfl | ⟨init, last, rfl⟩
  · have hn : n = 1 := h.length
    subst hn
    exact h
  rw [concat_eq_append] at h ⊢
  rw [dropLast_concat]
  have hlast := h.ordinary last (by simp)
  have htext := h.text
  rw [pathOf_concat] at htext
  have hlen := congrArg List.length htext
  rw [text_length, List.length_append, List.length_cons] at hlen
  have hpos := length_pos_iff.mpr hlast.1
  obtain ⟨k, rfl⟩ : ∃ k, n = k + 1 := ⟨n - 1, by omega⟩
  obtain ⟨front, c, rfl⟩ : ∃ front c, last = front ++ [c] :=
    ⟨last.dropLast, last.getLast hlast.1, (dropLast_append_getLast hlast.1).symm⟩
  rw [text_succ, ← cons_append, ← append_assoc] at htext
  have hinit := (append_inj' htext rfl).1
  have hscan := scanBack_eq (fun hin => hlast.2.1 (mem_append_left _ hin)) hinit
  have hpop : popName out (k + 1) = (pathOf init).length := by
    unfold popName
    rw [if_pos (by omega), Nat.add_sub_cancel, hscan]
    cases init with
    | nil => rfl
    | cons d init =>
      have hroot : 0 < (rooted '/' (d :: init)).length := by simp
      rw [pathOf_cons, if_pos (by omega), Nat.add_sub_cancel]
  have hle : (pathOf init).length ≤ k + 1 := by
    cases init with
    | nil =>
      show 1 ≤ k + 1
      omega
    | cons d init =>
      rw [pathOf_cons]
      omega
  rw [hpop]
  refine ⟨fun name hn => h.ordinary name (mem_append_left _ hn), ?_, ?_⟩
  · rw [← text_take hle, h.text, pathOf_concat]
    cases init with
    | nil => rfl
    | cons d init => rw [pathOf_cons, take_left]
  · have hroom := h.room
    omega

/-- Room for a name, with the separator it needs. -/
theorem HoldsPath.put (h : HoldsPath capacity out n names) (hname : Ordinary name)
    (hroom : n + (if 1 < n then ['/'] else []).length + name.length + 1 ≤ capacity) :
    HoldsPath capacity (putChars out n ((if 1 < n then ['/'] else []) ++ name))
      (n + (if 1 < n then ['/'] else []).length + name.length) (names ++ [name]) := by
  refine ⟨fun c hc => ?_, ?_, hroom⟩
  · rcases mem_append.mp hc with hc | hc
    · exact h.ordinary c hc
    · rw [mem_singleton.mp hc]
      exact hname
  rw [Nat.add_assoc, ← length_append, text_putChars, h.text, pathOf_concat]
  by_cases hne : names = []
  · rw [if_neg (fun hlt => h.one_lt_iff.mp hlt hne), hne]
    rfl
  · obtain ⟨c, tail, rfl⟩ := exists_cons_of_ne_nil hne
    rw [if_pos (h.one_lt_iff.mpr hne), pathOf_cons]
    rfl

/-- One round reads separators and a name. -/
theorem next_name (names : List (List Char))
    {rest : List Char} (hb : Boundary '/' rest) (hne : rest ≠ []) {name rest' : List Char}
    (hname : (rest.dropWhile (· == '/')).takeWhile (· != '/') = name)
    (hrest : (rest.dropWhile (· == '/')).dropWhile (· != '/') = rest') :
    '/' ∉ name ∧ Boundary '/' rest' ∧ name.length + rest'.length + 1 ≤ rest.length ∧
      (name = [] → rest' = []) ∧ resolveFrom names rest = resolveFrom (push names name) rest' := by
  have hstart : rest.dropWhile (· == '/') = name ++ rest' := by
    rw [← hname, ← hrest, takeWhile_append_dropWhile]
  have hno : '/' ∉ name := hname ▸ not_mem_takeWhile _
  have hbound : Boundary '/' rest' := hrest ▸ boundary_dropWhile _
  refine ⟨hno, hbound, ?_, ?_, ?_⟩
  · obtain ⟨r, rfl⟩ : ∃ r, rest = '/' :: r := by
      rcases hb with rfl | hb
      · exact absurd rfl hne
      cases rest with
      | nil => cases hb
      | cons c r =>
        obtain rfl := some.inj hb
        exact ⟨r, rfl⟩
    have hle := (dropWhile_sublist (l := r) (· == '/')).length_le
    rw [dropWhile_cons, if_pos (by rfl)] at hstart
    rw [hstart, length_append] at hle
    rw [length_cons]
    omega
  · rintro rfl
    rcases hbound with h | h
    · exact h
    rw [nil_append] at hstart
    have hhead := head?_dropWhile_not (· == '/') rest
    rw [hstart, h] at hhead
    simp at hhead
  · rw [← resolveFrom_dropWhile, hstart, resolveFrom_append hno hbound]

/-- The sums in the test for room stay below `2 ^ 32`. -/
def NoWrap (capacity n : Nat) (rest : List Char) : Prop :=
  capacity + 257 ≤ 2 ^ 32 ∨ n + rest.length + (if 1 < n then 1 else 0) < 2 ^ 32

theorem length_separator (n : Nat) :
    (if 1 < n then ['/'] else []).length = if 1 < n then 1 else 0 := by
  split <;> rfl

/-- The sum in the test for a name is what it means. -/
theorem NoWrap.mod {rest name : List Char} (h : NoWrap capacity n rest) (hroom : n + 1 ≤ capacity)
    (hmax : name.length ≤ vfsNameMax) (hlen : name.length + 1 ≤ rest.length) :
    (n + (if 1 < n then ['/'] else []).length + name.length + 1) % 2 ^ 32 =
      n + (if 1 < n then ['/'] else []).length + name.length + 1 := by
  have hone : (if 1 < n then 1 else 0) ≤ 1 := by split <;> omega
  refine Nat.mod_eq_of_lt ?_
  rw [length_separator]
  unfold NoWrap at h
  unfold vfsNameMax at hmax
  omega

/-- A round takes at least as much from the path as it writes. -/
theorem NoWrap.next {n' : Nat} {rest rest' : List Char} (h : NoWrap capacity n rest)
    (hle : n' + rest'.length + 1 ≤ n + rest.length + if 1 < n then 1 else 0) :
    NoWrap capacity n' rest' := by
  rcases h with h | h
  · exact .inl h
  · right
    have hsep : (if 1 < n' then 1 else 0) ≤ 1 := by split <;> omega
    omega

/-- The loop resolves the rest of the path, or fails; it never writes past the capacity. -/
theorem normalizeLoop_spec {rounds : Nat} {rest : List Char} {out' : Chars} {r : Option Nat}
    (h : HoldsPath capacity out n names) (hb : Boundary '/' rest) (hwrap : NoWrap capacity n rest)
    (hr : rest.length ≤ rounds) (hl : normalizeLoop capacity rounds rest out n = (out', r)) :
    (∀ i, capacity ≤ i → out' i = out i) ∧
      ∀ len, r = some len → HoldsPath capacity out' len (resolveFrom names rest) := by
  induction rounds generalizing rest out n names with
  | zero =>
    obtain rfl := length_eq_zero_iff.mp (Nat.le_zero.mp hr)
    obtain ⟨rfl, rfl⟩ := Prod.mk.inj hl
    refine ⟨fun _ _ => rfl, fun len hlen => ?_⟩
    obtain rfl := some.inj hlen
    rwa [resolveFrom_nil]
  | succ rounds ih =>
    unfold normalizeLoop at hl
    split at hl
    next hnil =>
      subst hnil
      obtain ⟨rfl, rfl⟩ := Prod.mk.inj hl
      refine ⟨fun _ _ => rfl, fun len hlen => ?_⟩
      obtain rfl := some.inj hlen
      rwa [resolveFrom_nil]
    next hne =>
    simp only at hl
    generalize hname : (rest.dropWhile (· == '/')).takeWhile (· != '/') = name at hl
    generalize hrest : (rest.dropWhile (· == '/')).dropWhile (· != '/') = rest' at hl
    obtain ⟨hno, hbound, hlen, hend, hres⟩ := next_name names hb hne hname hrest
    rw [hres]
    split at hl
    next hempty =>
      obtain ⟨rfl, rfl⟩ := Prod.mk.inj hl
      refine ⟨fun _ _ => rfl, fun len hlen => ?_⟩
      obtain rfl := some.inj hlen
      rwa [hempty, push_nil, hend hempty, resolveFrom_nil]
    next hname0 =>
    split at hl
    next hdot =>
      have hpush : push names name = names := by simp [push, hdot]
      rw [hpush]
      exact ih h hbound (hwrap.next (by omega)) (by omega) hl
    next hdot =>
    split at hl
    next hdots =>
      have hpush : push names name = names.dropLast := by simp [push, hdots]
      rw [hpush]
      have hle := popName_le out n
      exact ih h.pop hbound (hwrap.next (by omega)) (by omega) hl
    next hdots =>
    split at hl
    · obtain ⟨rfl, rfl⟩ := Prod.mk.inj hl
      exact ⟨fun _ _ => rfl, by simp⟩
    next hmax =>
    have hord : Ordinary name := ⟨hname0, hno, hdot, hdots, Nat.not_lt.mp hmax⟩
    have hpush : push names name = names ++ [name] := by
      simp [push, hname0, hdot, hdots]
    have hsep := length_separator n
    rw [hwrap.mod h.room (Nat.not_lt.mp hmax) (by omega)] at hl
    by_cases hcap :
        capacity < n + (if 1 < n then ['/'] else []).length + name.length + 1
    · rw [if_pos hcap] at hl
      obtain ⟨rfl, rfl⟩ := Prod.mk.inj hl
      exact ⟨fun _ _ => rfl, by simp⟩
    rw [if_neg hcap] at hl
    have hput := h.put hord (Nat.not_lt.mp hcap)
    obtain ⟨hbeyond, hdone⟩ := ih hput hbound (hwrap.next (by omega)) (by omega) hl
    rw [hpush]
    refine ⟨fun i hi => ?_, hdone⟩
    rw [hbeyond i hi, putChars_of_ge]
    rw [length_append]
    omega

/-- Names that fit are written. -/
theorem normalizeLoop_rooted {rounds : Nat} {tail : List (List Char)}
    (h : HoldsPath capacity out n names) (htail : ∀ c ∈ tail, Ordinary c)
    (hwrap : NoWrap capacity n (rooted '/' tail)) (hr : (rooted '/' tail).length ≤ rounds)
    (hfits : (pathOf (names ++ tail)).length + 1 ≤ capacity) :
    ∃ len, (normalizeLoop capacity rounds (rooted '/' tail) out n).2 = some len := by
  induction tail generalizing rounds out n names with
  | nil =>
    cases rounds with
    | zero => exact ⟨n, rfl⟩
    | succ rounds => exact ⟨n, rfl⟩
  | cons c tail ih =>
    cases rounds with
    | zero => simp at hr
    | succ rounds =>
      obtain ⟨hne, hno, hdot, hdots, hmax⟩ := htail c mem_cons_self
      obtain ⟨x, c', rfl⟩ := exists_cons_of_ne_nil hne
      have hx : x ≠ '/' := fun heq => hno (heq ▸ mem_cons_self)
      have hstart : (rooted '/' ((x :: c') :: tail)).dropWhile (· == '/') =
          (x :: c') ++ rooted '/' tail := by
        rw [rooted_cons, dropWhile_cons, if_pos (by rfl), cons_append,
          dropWhile_cons, if_neg (by simpa using hx)]
      have hnot : ∀ y ∈ x :: c', (y != '/') = true := by
        intro y hy
        refine bne_iff_ne.mpr ?_
        rintro rfl
        exact hno hy
      have hboundary : (rooted '/' tail).takeWhile (· != '/') = [] ∧
          (rooted '/' tail).dropWhile (· != '/') = rooted '/' tail := by
        cases tail with
        | nil => exact ⟨rfl, rfl⟩
        | cons d tail => exact ⟨rfl, rfl⟩
      have hname : ((x :: c') ++ rooted '/' tail).takeWhile (· != '/') = x :: c' := by
        rw [takeWhile_append_of_pos hnot, hboundary.1, append_nil]
      have hrest : ((x :: c') ++ rooted '/' tail).dropWhile (· != '/') = rooted '/' tail := by
        rw [dropWhile_append_of_pos hnot, hboundary.2]
      have hsep := length_separator n
      -- the path with the name is a part of the path with all names
      have hput : n + (if 1 < n then ['/'] else []).length + (x :: c').length + 1 ≤ capacity := by
        have hlen : (pathOf (names ++ [x :: c'])).length ≤
            (pathOf (names ++ (x :: c') :: tail)).length := by
          unfold pathOf
          rw [absolute_eq_rooted (by simp), absolute_eq_rooted (by simp),
            append_cons names (x :: c') tail, rooted_append (names ++ [x :: c']), length_append]
          omega
        have hnew : (pathOf (names ++ [x :: c'])).length =
            n + (if 1 < n then ['/'] else []).length + (x :: c').length := by
          rw [pathOf_concat, hsep, length_append, length_cons]
          by_cases hnil : names = []
          · subst hnil
            have hn : n = 1 := h.length
            subst hn
            rw [if_neg (by omega)]
            simp only [rooted_nil, length_nil, length_cons]
            omega
          · obtain ⟨d, tl, rfl⟩ := exists_cons_of_ne_nil hnil
            rw [if_pos (h.one_lt_iff.mpr hnil), h.length, pathOf_cons]
            omega
        omega
      have hlen : (rooted '/' ((x :: c') :: tail)).length =
          1 + (x :: c').length + (rooted '/' tail).length := by
        rw [rooted_cons, length_cons, length_append]
        omega
      unfold normalizeLoop
      rw [if_neg (by simp)]
      simp only [hstart, hname, hrest]
      rw [if_neg hne, if_neg hdot, if_neg hdots, if_neg (Nat.not_lt.mpr hmax),
        hwrap.mod h.room hmax (by omega), if_neg (Nat.not_lt.mpr hput)]
      refine ih (h.put ⟨hne, hno, hdot, hdots, hmax⟩ hput)
        (fun d hd => htail d (mem_cons_of_mem _ hd)) (hwrap.next (by omega)) (by omega) ?_
      rwa [append_assoc, singleton_append]

end Loop

/-! ## The function -/

section Function

variable {capacity : Nat} {path : List Char} {out out' : Chars} {status : Int}
  {names : List (List Char)}

/-- The separator that every result starts with. -/
theorem holdsPath_root (out : Chars) (hcap : 2 ≤ capacity) :
    HoldsPath capacity (putChars out 0 ['/']) 1 [] :=
  ⟨by simp, by simp [text, putChars, pathOf], hcap⟩

/-- The capacity is a `uint32_t`, and so are the sums of the test for room. -/
structure Short (path : List Char) (capacity : Nat) : Prop where
  lt : capacity < 2 ^ 32
  sums : capacity + 257 ≤ 2 ^ 32 ∨ path.length + 1 < 2 ^ 32

theorem Short.noWrap (h : Short path capacity) : NoWrap capacity 1 path := by
  have hsums := h.sums
  unfold NoWrap
  rw [if_neg (by omega)]
  omega

theorem short_pathMax (path : List Char) : Short path vfsPathMax := ⟨by decide, .inl (by decide)⟩

/-- What a call leaves. -/
theorem vfsPathNormalize_spec (hshort : Short path capacity)
    (h : vfsPathNormalize path out capacity = (out', status)) :
    (∀ i, capacity ≤ i → out' i = out i) ∧ (status < 0 ∨ status = (pathOf (lexical path)).length ∧
      (∀ name ∈ lexical path, Ordinary name) ∧ text out' (pathOf (lexical path)).length =
      pathOf (lexical path) ∧ out' (pathOf (lexical path)).length = '\x00' ∧
      (pathOf (lexical path)).length + 1 ≤ capacity ∧ (pathOf (lexical path)).length < 2 ^ 31) := by
  unfold vfsPathNormalize at h
  split at h
  · obtain ⟨rfl, rfl⟩ := Prod.mk.inj h
    exact ⟨fun _ _ => rfl, .inl (by decide)⟩
  next hok =>
  obtain ⟨hcap, hhead⟩ := not_or.mp hok
  have hcap : 2 ≤ capacity := Nat.not_lt.mp hcap
  have hb : Boundary '/' path := .inr (not_not.mp hhead)
  rcases hl : normalizeLoop capacity path.length path (putChars out 0 ['/']) 1 with ⟨out₁, r⟩
  rw [hl] at h
  obtain ⟨hbeyond, hdone⟩ := normalizeLoop_spec (holdsPath_root out hcap) hb hshort.noWrap
    (Nat.le_refl _) hl
  have hfirst : ∀ i, capacity ≤ i → out₁ i = out i := by
    intro i hi
    rw [hbeyond i hi, putChars_of_ge (by simp; omega)]
  cases r with
  | none =>
    obtain ⟨rfl, rfl⟩ := Prod.mk.inj h
    exact ⟨hfirst, .inl (by decide)⟩
  | some len =>
    obtain ⟨rfl, rfl⟩ := Prod.mk.inj h
    have hres := hdone len rfl
    have hlen : len = (pathOf (lexical path)).length := hres.length
    have hroom := hres.room
    refine ⟨fun i hi => ?_, ?_⟩
    · rw [putChars_of_ge (by simp; omega), hfirst i hi]
    unfold toInt32
    split
    · right
      refine ⟨by rw [hlen], hres.ordinary, ?_, ?_, by omega, by omega⟩
      · rw [← hlen]
        refine Eq.trans (text_congr fun i hi => putChars_of_lt hi) hres.text
      · rw [← hlen]
        simp [putChars]
    · left
      have hlt := hshort.lt
      omega

theorem push_ordinary {name : List Char} (h : Ordinary name) :
    push names name = names ++ [name] := by
  obtain ⟨hne, -, hdot, hdots, -⟩ := h
  simp [push, hne, hdot, hdots]

/-- Ordinary names are kept. -/
theorem resolveFrom_rooted {tail : List (List Char)} (htail : ∀ c ∈ tail, Ordinary c) :
    resolveFrom names (rooted '/' tail) = names ++ tail := by
  induction tail generalizing names with
  | nil => simp
  | cons c tail ih =>
    have hc := htail c mem_cons_self
    rw [rooted_cons, resolveFrom_slash, resolveFrom_append hc.2.1 (boundary_rooted tail),
      push_ordinary hc, ih fun d hd => htail d (mem_cons_of_mem _ hd), append_assoc]
    rfl

theorem lexical_pathOf (h : ∀ c ∈ names, Ordinary c) : lexical (pathOf names) = names := by
  cases names with
  | nil => decide
  | cons c names =>
    rw [pathOf_cons]
    exact resolveFrom_rooted h

/-- A normalised path is normalised to itself. -/
theorem vfsPathNormalize_pathOf (out : Chars) (hshort : Short (pathOf names) capacity)
    (h : ∀ c ∈ names, Ordinary c) (hfits : (pathOf names).length + 1 ≤ capacity)
    (hlen : (pathOf names).length < 2 ^ 31) :
    (vfsPathNormalize (pathOf names) out capacity).2 = (pathOf names).length ∧
      text (vfsPathNormalize (pathOf names) out capacity).1 (pathOf names).length =
        pathOf names := by
  have hpos : 1 ≤ (pathOf names).length := Nat.succ_le_succ (Nat.zero_le _)
  have hcap : 2 ≤ capacity := by omega
  have hroot := holdsPath_root out hcap
  have hloop : ∃ len, (normalizeLoop capacity (pathOf names).length (pathOf names)
      (putChars out 0 ['/']) 1).2 = some len := by
    cases names with
    | nil => exact ⟨1, rfl⟩
    | cons c names =>
      have hwrap := hshort.noWrap
      rw [pathOf_cons] at hwrap ⊢
      exact normalizeLoop_rooted hroot h hwrap (Nat.le_refl _) hfits
  rcases hl : normalizeLoop capacity (pathOf names).length (pathOf names) (putChars out 0 ['/']) 1
    with ⟨out', r⟩
  rw [hl] at hloop
  obtain ⟨len, rfl⟩ := hloop
  have hb : Boundary '/' (pathOf names) := .inr rfl
  obtain ⟨-, hdone⟩ := normalizeLoop_spec hroot hb hshort.noWrap (Nat.le_refl _) hl
  have hres := hdone len rfl
  have hlex : resolveFrom [] (pathOf names) = names := lexical_pathOf h
  rw [hlex] at hres
  obtain rfl := hres.length
  have hguard : ¬(capacity < 2 ∨ (pathOf names).head? ≠ some '/') := by
    rintro (hlt | hhead)
    · omega
    · exact hhead rfl
  unfold vfsPathNormalize
  rw [if_neg hguard, hl]
  refine ⟨?_, Eq.trans (text_congr fun i hi => putChars_of_lt hi) hres.text⟩
  simp only [toInt32, hlen, if_true]

/-- A call that succeeds in a buffer of `VFS_PATH_MAX` characters. -/
theorem normalized_some {result : List Char} (h : normalized path vfsPathMax = some result) :
    result = pathOf (lexical path) ∧ (∀ name ∈ lexical path, Ordinary name) ∧
      result.length + 1 ≤ vfsPathMax := by
  unfold normalized at h
  rcases hc : vfsPathNormalize path (fun _ => '\x00') vfsPathMax with ⟨out, status⟩
  rw [hc] at h
  simp only at h
  split at h
  · cases h
  next hneg =>
  obtain rfl := some.inj h
  rcases (vfsPathNormalize_spec (short_pathMax path) hc).2 with
    hlt | ⟨rfl, hord, htext, -, hroom, -⟩
  · exact absurd hlt hneg
  · rw [Int.toNat_natCast, htext]
    exact ⟨rfl, hord, hroom⟩

theorem normalized_pathOf (h : ∀ c ∈ names, Ordinary c)
    (hfits : (pathOf names).length + 1 ≤ vfsPathMax) :
    normalized (pathOf names) vfsPathMax = some (pathOf names) := by
  have hlen : (pathOf names).length < 2 ^ 31 := by
    unfold vfsPathMax at hfits
    omega
  obtain ⟨hstatus, htext⟩ :=
    vfsPathNormalize_pathOf (fun _ => '\x00') (short_pathMax _) h hfits hlen
  unfold normalized
  simp only
  rw [hstatus, if_neg (by omega), Int.toNat_natCast, htext]

/-- A path as the function gets it: its size with the terminator is a `uint32_t`. -/
structure PathArgument where
  chars : List Char
  fits : chars.length + 1 < 2 ^ 32

/--
`vfs_path_normalize` resolves lexically.  It keeps to the capacity, and unless it reports an
error the buffer holds the names that remain, joined with single separators and terminated;
doing it again changes nothing.
-/
theorem normalize_lexical (path : PathArgument) (capacity : UInt32) (out : Chars) :
    let r := vfsPathNormalize path.chars out capacity.toNat
    let result := '/' :: ['/'].intercalate (lexical path.chars)
    (∀ i, capacity.toNat ≤ i → r.1 i = out i) ∧
    (r.2 < 0 ∨
      r.2 = result.length ∧ text r.1 result.length = result ∧ r.1 result.length = '\x00' ∧
      (∀ name ∈ lexical path.chars,
        name ≠ [] ∧ '/' ∉ name ∧ name ≠ ['.'] ∧ name ≠ ['.', '.']) ∧
      (result = ['/'] ∨ result.getLast? ≠ some '/') ∧
      ∀ out₂, let again := vfsPathNormalize result out₂ capacity.toNat
        again.2 = result.length ∧ text again.1 result.length = result) := by
  intro r result
  have hshort : Short path.chars capacity.toNat := ⟨capacity.toNat_lt, .inr path.fits⟩
  have hcall : vfsPathNormalize path.chars out capacity.toNat = (r.1, r.2) := rfl
  obtain ⟨hbeyond, hstatus⟩ := vfsPathNormalize_spec hshort hcall
  refine ⟨hbeyond, ?_⟩
  rcases hstatus with hneg | ⟨hlen, hord, htext, hzero, hroom, hsmall⟩
  · exact .inl hneg
  right
  refine ⟨hlen, htext, hzero, fun name hn => ?_, ?_, fun out₂ => ?_⟩
  · obtain ⟨h₁, h₂, h₃, h₄, -⟩ := hord name hn
    exact ⟨h₁, h₂, h₃, h₄⟩
  · rcases eq_nil_or_concat (lexical path.chars) with hnil | ⟨init, last, hlast⟩
    · left
      show pathOf (lexical path.chars) = ['/']
      rw [hnil]
      rfl
    right
    rw [concat_eq_append] at hlast
    obtain ⟨hne, hno, -⟩ := hord last (by rw [hlast]; simp)
    show (pathOf (lexical path.chars)).getLast? ≠ some '/'
    rw [hlast, pathOf_concat, getLast?_append_of_ne_nil _ (by simp), getLast?_cons_of_ne_nil hne]
    intro hslash
    exact hno (mem_of_getLast? hslash)
  · refine vfsPathNormalize_pathOf out₂ ⟨capacity.toNat_lt, .inr ?_⟩ hord hroom hsmall
    omega

end Function

/-! ## Prefixes -/

section Prefixes

variable {ps qs : List (List Char)}

theorem pathOf_ne_root (hp : Plain '/' ps) (hne : ps ≠ []) : pathOf ps ≠ ['/'] := by
  intro h
  exact hne (absolute_injective hp Plain.nil h)

theorem pathOf_startsWith (h : ps <+: qs) : pathOf ps <+: pathOf qs := by
  obtain ⟨tail, rfl⟩ := h
  by_cases hnil : ps = []
  · subst hnil
    exact ⟨['/'].intercalate tail, rfl⟩
  · unfold pathOf
    rw [absolute_eq_rooted hnil, absolute_eq_rooted (by simp [hnil]), rooted_append]
    exact prefix_append _ _

/-- `vfs_path_has_prefix` compares whole names. -/
theorem vfsPathHasPrefix_iff (hp : Plain '/' ps) (hq : Plain '/' qs) :
    vfsPathHasPrefix (pathOf qs) (pathOf ps) = true ↔ ps <+: qs := by
  unfold vfsPathHasPrefix
  by_cases hnil : ps = []
  · subst hnil
    rw [if_pos (by rfl)]
    exact ⟨fun _ => nil_prefix, fun _ => by rfl⟩
  rw [if_neg (pathOf_ne_root hp hnil)]
  have hroot : pathOf ps = rooted '/' ps := absolute_eq_rooted hnil
  simp only [Bool.and_eq_true, Bool.or_eq_true, beq_iff_eq, isPrefixOf_iff_prefix]
  constructor
  · rintro ⟨⟨rest, hrest⟩, hend⟩
    rw [← hrest, drop_left] at hend
    have hqne : qs ≠ [] := by
      rintro rfl
      have hlen := congrArg length hrest
      obtain ⟨c, tail, rfl⟩ := exists_cons_of_ne_nil hnil
      have hc := length_pos_iff.mpr hp.of_cons.1.1
      rw [hroot] at hlen
      simp only [rooted_cons, length_append, length_cons, pathOf, absolute_nil, length_nil] at hlen
      omega
    have hb : Boundary '/' rest := by
      rcases hend with hend | hend
      · exact .inl (head?_eq_none_iff.mp hend)
      · exact .inr hend
    rw [hroot, pathOf, absolute_eq_rooted hqne] at hrest
    obtain ⟨tail, rfl, -⟩ := eq_append_of_rooted hp hq hb hrest.symm
    exact prefix_append _ _
  · rintro ⟨tail, rfl⟩
    have hsplit : pathOf (ps ++ tail) = pathOf ps ++ rooted '/' tail := by
      rw [hroot, pathOf, absolute_eq_rooted (by simp [hnil]), rooted_append]
    rw [hsplit, drop_left]
    refine ⟨prefix_append _ _, ?_⟩
    have hb : Boundary '/' (rooted '/' tail) := boundary_rooted tail
    rcases hb with h | h
    · exact .inl (by rw [h]; rfl)
    · exact .inr h

end Prefixes

end PureCOS.Vfs
