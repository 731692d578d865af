import Mathlib.Algebra.Group.Nat.Defs
import Mathlib.Data.List.TakeWhile
import PureCOS.Lib.Lines

/-!
# The accounts of an installed system

`fs/install_accounts.c` checks a request for accounts and renders the files `passwd` and `shadow`
from it. `fs/vfs_perm.c` and `programs/accounts/accounts_core.c` read them back, with parsers of
their own.

A text is the list of its characters before the NUL; a `char` array of a request is the list of all
that is in it, and its text ends at the first NUL.
-/

namespace PureCOS.Accounts

open Lines List

/-! ## The request -/

def installHostnameMax : Nat := 64
def installUserMax : Nat := 32
def installGecosMax : Nat := 64
def installHashMax : Nat := 128
def installFirstUid : Nat := 1000
def installUsersGid : Nat := 100
def installShellDefault : List Char := "/usr/bin/terminal".toList

def nul : Char := Char.ofNat 0

/-- The text in an array. -/
def text (array : List Char) : List Char := array.takeWhile fun c => c != nul

def bounded (array : List Char) (capacity : Nat) : Bool :=
  (array.take capacity).any fun c => c == nul

def installAccountNameValid (name : List Char) : Bool :=
  bounded name installUserMax &&
    match text name with
    | [] => false
    | c :: rest =>
      (c.isLower || c == '_') && rest.all fun c => c.isLower || c.isDigit || c == '_' || c == '-'

def installAccountHostnameValid (name : List Char) : Bool :=
  bounded name installHostnameMax && text name != [] && (text name).head? != some '-' &&
    (text name).getLast? != some '-' &&
    (text name).all fun c => c.isLower || c.isDigit || c == '-' || c == '.'

def installAccountHashValid (hash : List Char) : Bool :=
  bounded hash installHashMax && decide (12 ≤ (text hash).length) && (text hash).take 3 ==
    ['$', '6', '$'] && (text hash).all fun c => c != ':' && c != '\n' && c != '\r' && c != ' '

def installAccountGecosValid (gecos : List Char) : Bool :=
  bounded gecos installGecosMax &&
    (text gecos).all fun c => c != ':' && c != '\n' && c != '\r' && decide (0x20 ≤ c.toNat)

/-- `struct install_account_request` -/
structure Request where
  present : Bool
  userUid : Nat
  hostname : List Char
  rootHash : List Char
  userName : List Char
  userGecos : List Char
  userHash : List Char

variable (request : Request)

def installAccountsValid : Bool :=
  request.present && installAccountHostnameValid request.hostname &&
    installAccountHashValid request.rootHash && installAccountNameValid request.userName &&
    (text request.userName).head? != some '_' && text request.userName != "root".toList &&
    installAccountGecosValid request.userGecos && installAccountHashValid request.userHash &&
    decide (installFirstUid ≤ request.userUid ∧ request.userUid < 60000)

/-! ## Rendering -/

structure Writer where
  capacity : Nat
  buffer : List Char
  failed : Bool

def start (capacity : Nat) : Writer := ⟨capacity, [], false⟩

def putText (w : Writer) : List Char → Writer
  | [] => w
  | c :: text =>
    if w.capacity ≤ w.buffer.length + 1 then { w with failed := true }
    else putText { w with buffer := w.buffer ++ [c] } text

/-- The loop of `put_number`, least digit first; the array has room for twelve. -/
def digitsLoop : Nat → Nat → List Char
  | 0, _ => []
  | rounds + 1, value =>
    Char.ofNat ('0'.toNat + value % 10) :: if value / 10 = 0 then []
      else digitsLoop rounds (value / 10)

/-- The text that `put_number` puts. -/
def numberText (value : Nat) : List Char := (digitsLoop 12 value).reverse

/-- The calls of `put_text` and `put_number` on a new writer, in their order. -/
def putTexts (capacity : Nat) (texts : List (List Char)) : Writer :=
  texts.foldl putText (start capacity)

/-- `struct install_account_files` -/
structure Files where
  passwd : List Char
  shadow : List Char
  group : List Char
  hostname : List Char
  home : List Char

def fsErrorInvalid : Int := -3
def fsErrorNoSpace : Int := -4

def renderPasswd : Writer :=
  putTexts 1024 ["root:x:0:0:root:/root:".toList ++ installShellDefault ++ ['\n'],
    text request.userName, ":x:".toList, numberText request.userUid, ":".toList,
    numberText installUsersGid, ":".toList, text request.userGecos, ":/home/".toList,
    text request.userName, ":".toList ++ installShellDefault ++ ['\n']]

def renderShadow : Writer :=
  putTexts 1024 ["root:".toList, text request.rootHash, ":::::::\n".toList, text request.userName,
    ":".toList, text request.userHash, ":::::::\n".toList]

def renderGroup : Writer :=
  putTexts 1024 ["root:x:0:\nusers:x:".toList, numberText installUsersGid, ":".toList,
    text request.userName, ['\n']]

def renderHostname : Writer := putTexts (installHostnameMax + 2) [text request.hostname, ['\n']]

def renderHome : Writer := putTexts (installUserMax + 8) ["/home/".toList, text request.userName]

def installAccountsRender : Except Int Files :=
  if installAccountsValid request = false then .error fsErrorInvalid
  else if (renderPasswd request).failed then .error fsErrorNoSpace
  else if (renderShadow request).failed then .error fsErrorNoSpace
  else if (renderGroup request).failed then .error fsErrorNoSpace
  else if (renderHostname request).failed then .error fsErrorNoSpace
  else if (renderHome request).failed then .error fsErrorNoSpace
  else .ok ⟨(renderPasswd request).buffer, (renderShadow request).buffer,
    (renderGroup request).buffer, (renderHostname request).buffer, (renderHome request).buffer⟩

/-! ## Reading `passwd` -/

def isStop (c : Char) : Bool := c == ':' || c == '\n' || c == '\r'

/--
`next_field` from character `length` of the field on: the rest of the field, and what follows.
-/
def nextFieldLoop (capacity : Nat) : Nat → List Char → Option (List Char × List Char)
  | _, [] => some ([], [])
  | length, c :: p =>
    if isStop c then some ([], c :: p)
    else if capacity ≤ length + 1 then none
    else (nextFieldLoop capacity (length + 1) p).map fun r => (c :: r.1, r.2)

def nextField (capacity : Nat) (p : List Char) : Option (List Char × List Char) :=
  nextFieldLoop capacity 0 p

def skipColon : List Char → Option (List Char)
  | ':' :: p => some p
  | _ => none

def userIdNone : Nat := 0xFFFFFFFF

/-- The loop of `parse_number` -/
def parseNumberLoop : Nat → List Char → Option Nat
  | result, [] => some result
  | result, c :: text =>
    if c.isDigit = false then none
    else if userIdNone ≤ result * 10 + (c.toNat - '0'.toNat) then none
    else parseNumberLoop (result * 10 + (c.toNat - '0'.toNat)) text

def parseNumber (text : List Char) : Option Nat :=
  if text = [] then none else parseNumberLoop 0 text

structure UserEntry where
  name : List Char
  uid : Nat
  gid : Nat
  gecos : List Char
  home : List Char
  shell : List Char

def userParseLine (line : List Char) : Option UserEntry :=
  if line = [] ∨ line.head? = some '#' then none
  else do
    let (name, p) ← nextField 32 line
    if name = [] then none
    let (_, p) ← (skipColon p).bind (nextField 8)
    let (number, p) ← (skipColon p).bind (nextField 16)
    let uid ← parseNumber number
    let (number, p) ← (skipColon p).bind (nextField 16)
    let gid ← parseNumber number
    let (gecos, p) ← (skipColon p).bind (nextField 64)
    let (home, p) ← (skipColon p).bind (nextField 64)
    let (shell, _) ← (skipColon p).bind (nextField 64)
    some ⟨name, uid, gid, gecos, home, shell⟩

def scanUsers (passwd : List Char) (matched : UserEntry → Bool) : Option UserEntry :=
  firstLine (fun line => (userParseLine line).filter matched) passwd

def userLookupName (passwd name : List Char) : Option UserEntry :=
  scanUsers passwd fun entry => entry.name == name

def userLookupUid (passwd : List Char) (uid : Nat) : Option UserEntry :=
  scanUsers passwd fun entry => entry.uid == uid

/-! ## Reading `shadow` -/

def fieldEquals : List Char → List Char → Bool
  | line, [] => line.head? == some ':'
  | [], _ :: _ => false
  | l :: line, n :: name => l == n && fieldEquals line name

/-- The hash behind the first colon of a line; the loop that copies it is that of `next_field`. -/
def lineHash (capacity : Nat) (line : List Char) : Option (List Char) := do
  let p ← skipColon (line.dropWhile fun c => c != ':' && c != '\n')
  let (hash, _) ← nextField capacity p
  if hash = [] then none else some hash

def shadowHashFor (shadow name : List Char) (capacity : Nat) : Option (List Char) :=
  if name = [] ∨ capacity = 0 then none
  else
    (firstLine (fun line =>
      if line.head? ≠ some '#' ∧ fieldEquals line name then some (lineHash capacity line)
        else none) shadow).join

/-! ## Arrays -/

section Arrays

variable {array name hash gecos : List Char} {capacity : Nat} {c : Char}

theorem length_text_lt (h : bounded array capacity = true) : (text array).length < capacity := by
  obtain ⟨c, hc, hnul⟩ := any_eq_true.mp h
  obtain ⟨i, hi, rfl⟩ := mem_iff_getElem.mp hc
  rw [length_take] at hi
  rw [getElem_take] at hnul
  by_contra hlong
  have hlt : i < (text array).length := by omega
  have hmem := mem_takeWhile_imp (getElem_mem hlt)
  have hfront : (text array)[i] = array[i] := List.IsPrefix.getElem ( takeWhile_prefix _) hlt
  rw [hfront] at hmem
  simp at hmem hnul
  exact hmem hnul

/-- No character that ends a field. -/
def Plain (field : List Char) : Prop := ∀ c ∈ field, isStop c = false

theorem plain_of_all {field : List Char} (h : (field.all fun c => !isStop c) = true) :
    Plain field := by
  intro c hc
  simpa using all_eq_true.mp h c hc

theorem Plain.append {left right : List Char} (hleft : Plain left) (hright : Plain right) :
    Plain (left ++ right) := by
  intro c hc
  rcases mem_append.mp hc with hc | hc
  · exact hleft c hc
  · exact hright c hc

theorem Plain.not_mem {field : List Char} (h : Plain field) (hstop : isStop c = true) :
    c ∉ field := by
  intro hc
  rw [h c hc] at hstop
  cases hstop

theorem isStop_eq_false_of (hcolon : c ≠ ':') (hfeed : c ≠ '\n') (hret : c ≠ '\r') :
    isStop c = false := by
  simp [isStop, hcolon, hfeed, hret]

/-- What is known of a valid name. -/
theorem plain_name (h : installAccountNameValid name = true) : Plain (text name) ∧ text name ≠ [] ∧
    (text name).head? ≠ some '#' ∧ (text name).length < 32 := by
  unfold installAccountNameValid at h
  rw [Bool.and_eq_true] at h
  obtain ⟨hbound, hchars⟩ := h
  have hlen := length_text_lt hbound
  have hletter : ∀ c, (c.isLower || c.isDigit || c == '_' || c == '-') = true → isStop c = false ∧
      c ≠ '#' := by
    intro c hc
    have hne : ∀ d : Char, (d.isLower || d.isDigit || d == '_' || d == '-') = false → c ≠ d := by
      rintro d hd rfl
      rw [hd] at hc
      cases hc
    exact ⟨isStop_eq_false_of (hne ':' (by decide)) (hne '\n' (by decide)) (hne '\r' (by decide)),
      hne '#' (by decide)⟩
  cases htext : text name with
  | nil =>
    rw [htext] at hchars
    cases hchars
  | cons c rest =>
    rw [htext] at hchars hlen
    simp only [Bool.and_eq_true, all_eq_true] at hchars
    have hfirst : (c.isLower || c.isDigit || c == '_' || c == '-') = true := by
      rcases Bool.or_eq_true _ _ ▸ hchars.1 with h | h
      · simp [h]
      · simp [h]
    refine ⟨?_, cons_ne_nil _ _, ?_, hlen⟩
    · intro d hd
      rcases mem_cons.mp hd with rfl | hd
      · exact (hletter _ hfirst).1
      · exact (hletter _ (hchars.2 d hd)).1
    · simpa using (hletter c hfirst).2

theorem plain_hash (h : installAccountHashValid hash = true) :
    Plain (text hash) ∧ text hash ≠ [] ∧ (text hash).length < 128 := by
  unfold installAccountHashValid at h
  simp only [Bool.and_eq_true, all_eq_true, decide_eq_true_eq, bne_iff_ne] at h
  obtain ⟨⟨⟨hbound, hlong⟩, -⟩, hchars⟩ := h
  refine ⟨fun c hc => ?_, ?_, length_text_lt hbound⟩
  · obtain ⟨⟨⟨hcolon, hfeed⟩, hret⟩, -⟩ := hchars c hc
    exact isStop_eq_false_of hcolon hfeed hret
  · intro hempty
    rw [hempty] at hlong
    cases hlong

theorem plain_gecos (h : installAccountGecosValid gecos = true) :
    Plain (text gecos) ∧ (text gecos).length < 64 := by
  unfold installAccountGecosValid at h
  simp only [Bool.and_eq_true, all_eq_true, decide_eq_true_eq, bne_iff_ne] at h
  refine ⟨fun c hc => ?_, length_text_lt h.1⟩
  obtain ⟨⟨⟨hcolon, hfeed⟩, hret⟩, -⟩ := h.2 c hc
  exact isStop_eq_false_of hcolon hfeed hret

end Arrays

/-! ## Numbers -/

section Numbers

variable {value rounds : Nat} {c : Char} {tail : List Char}

theorem toNat_digit (value : Nat) :
    (Char.ofNat ('0'.toNat + value % 10)).toNat = 48 + value % 10 := by
  have hall : ∀ d < 10, (Char.ofNat ('0'.toNat + d)).toNat = 48 + d := by decide
  exact hall (value % 10) (Nat.mod_lt _ (by decide))

theorem isDigit_digit (value : Nat) : (Char.ofNat ('0'.toNat + value % 10)).isDigit = true := by
  have hall : ∀ d < 10, (Char.ofNat ('0'.toNat + d)).isDigit = true := by decide
  exact hall (value % 10) (Nat.mod_lt _ (by decide))

/-- A number that was written is read, together with the digits that follow. -/
theorem parseNumberLoop_digits (hrounds : value < 10 ^ rounds) (hpos : 0 < rounds)
    (hvalue : value < userIdNone) :
    parseNumberLoop 0 ((digitsLoop rounds value).reverse ++ tail) = parseNumberLoop value tail := by
  induction rounds generalizing value tail with
  | zero => cases hpos
  | succ rounds ih =>
    have hstep : parseNumberLoop (value / 10) (Char.ofNat ('0'.toNat + value % 10) :: tail) =
        parseNumberLoop value tail := by
      have hsplit : value / 10 * 10 + (48 + value % 10 - '0'.toNat) = value := by
        show value / 10 * 10 + (48 + value % 10 - 48) = value
        omega
      rw [parseNumberLoop, isDigit_digit, toNat_digit, hsplit]
      simp [Nat.not_le.mpr hvalue]
    rw [digitsLoop, reverse_cons, append_assoc, singleton_append]
    by_cases hlast : value / 10 = 0
    · rw [if_pos hlast, reverse_nil, nil_append, ← hstep, hlast]
    have hrest : value / 10 < 10 ^ rounds := by
      rw [Nat.pow_succ] at hrounds
      exact Nat.div_lt_of_lt_mul (by omega)
    have hmore : 0 < rounds := by
      rcases Nat.eq_zero_or_pos rounds with rfl | hpos
      · simp at hrest
        omega
      · exact hpos
    rw [if_neg hlast, ih hrest hmore (by omega), hstep]

theorem isDigit_of_mem_digitsLoop (h : c ∈ digitsLoop rounds value) : c.isDigit = true := by
  induction rounds generalizing value with
  | zero => cases h
  | succ rounds ih =>
    rw [digitsLoop] at h
    rcases mem_cons.mp h with rfl | h
    · exact isDigit_digit value
    · split at h
      · cases h
      · exact ih h

theorem length_digitsLoop_le : (digitsLoop rounds value).length ≤ rounds := by
  induction rounds generalizing value with
  | zero => exact Nat.le_refl _
  | succ rounds ih =>
    rw [digitsLoop, length_cons]
    split
    · simp
    · exact Nat.succ_le_succ ih

/-- A field with a number. -/
theorem parseNumber_numberText (hvalue : value < userIdNone) :
    parseNumber (numberText value) = some value := by
  have hne : numberText value ≠ [] := by simp [numberText, digitsLoop]
  have hlarge : value < 10 ^ 12 := Nat.lt_trans hvalue (by decide)
  have hread : parseNumberLoop 0 ((digitsLoop 12 value).reverse ++ []) = parseNumberLoop value [] :=
    parseNumberLoop_digits hlarge (by decide) hvalue
  rw [append_nil] at hread
  rw [parseNumber, if_neg hne, numberText, hread, parseNumberLoop]

theorem plain_numberText (value : Nat) :
    Plain (numberText value) ∧ (numberText value).length < 16 := by
  constructor
  · intro c hc
    have hdigit := isDigit_of_mem_digitsLoop (mem_reverse.mp hc)
    have hne : ∀ d : Char, d.isDigit = false → c ≠ d := by
      rintro d hd rfl
      rw [hd] at hdigit
      cases hdigit
    exact isStop_eq_false_of (hne ':' (by decide)) (hne '\n' (by decide)) (hne '\r' (by decide))
  · rw [numberText, length_reverse]
    exact Nat.lt_of_le_of_lt length_digitsLoop_le (by decide)

end Numbers

/-! ## What is rendered -/

section Render

variable {w : Writer} {request : Request}

/-- A text that was put without failure is there. -/
theorem putText_done {text : List Char} (h : (putText w text).failed = false) :
    w.failed = false ∧ (putText w text).buffer = w.buffer ++ text := by
  induction text generalizing w with
  | nil => exact ⟨h, (append_nil _).symm⟩
  | cons c text ih =>
    rw [putText] at h ⊢
    split at h
    · cases h
    rename_i hroom
    rw [if_neg hroom]
    obtain ⟨hfailed, hbuffer⟩ := ih h
    refine ⟨hfailed, ?_⟩
    rw [hbuffer, append_assoc, singleton_append]

theorem foldl_putText_done {texts : List (List Char)} (h : (texts.foldl putText w).failed = false) :
    w.failed = false ∧ (texts.foldl putText w).buffer = w.buffer ++ texts.flatten := by
  induction texts generalizing w with
  | nil => exact ⟨h, (append_nil _).symm⟩
  | cons text texts ih =>
    obtain ⟨hfirst, hbuffer⟩ := ih h
    obtain ⟨hfailed, htext⟩ := putText_done hfirst
    refine ⟨hfailed, ?_⟩
    rw [foldl_cons, hbuffer, htext, append_assoc, flatten_cons]

theorem buffer_putTexts {capacity : Nat} {texts : List (List Char)}
    (h : (putTexts capacity texts).failed = false) :
    (putTexts capacity texts).buffer = texts.flatten :=
  (foldl_putText_done h).2

/-- The text of an entry, up to the end of the line. -/
def UserEntry.line (entry : UserEntry) (uid gid : List Char) : List Char :=
  entry.name ++ ':' :: 'x' :: ':' ::
    (uid ++ ':' :: (gid ++ ':' :: (entry.gecos ++ ':' :: (entry.home ++ ':' :: entry.shell))))

def rootEntry : UserEntry :=
  ⟨"root".toList, 0, 0, "root".toList, "/root".toList, installShellDefault⟩

def userEntry (request : Request) : UserEntry :=
  ⟨text request.userName, request.userUid, installUsersGid, text request.userGecos,
    "/home/".toList ++ text request.userName, installShellDefault⟩

theorem passwd_eq (h : (renderPasswd request).failed = false) :
    (renderPasswd request).buffer = rootEntry.line ['0'] ['0'] ++ '\n' :: ((userEntry request).line
      (numberText request.userUid) (numberText installUsersGid) ++ '\n' :: []) := by
  rw [renderPasswd, buffer_putTexts h]
  simp [UserEntry.line, rootEntry, userEntry]

theorem shadow_eq (h : (renderShadow request).failed = false) :
    (renderShadow request).buffer =
      "root".toList ++ ':' :: (text request.rootHash ++ ":::::::".toList) ++ '\n' ::
      (text request.userName ++ ':' :: (text request.userHash ++ ":::::::".toList) ++
        '\n' :: []) := by
  rw [renderShadow, buffer_putTexts h]
  simp

theorem installAccountsRender_ok {files : Files} (h : installAccountsRender request = .ok files) :
    installAccountsValid request = true ∧ (renderPasswd request).failed = false ∧
      (renderShadow request).failed = false ∧ files.passwd = (renderPasswd request).buffer ∧
      files.shadow = (renderShadow request).buffer := by
  unfold installAccountsRender at h
  split at h
  · cases h
  split at h
  · cases h
  split at h
  · cases h
  split at h
  · cases h
  split at h
  · cases h
  split at h
  · cases h
  rename_i hvalid hpasswd hshadow _ _ _
  cases h
  exact ⟨by simpa using hvalid, by simpa using hpasswd, by simpa using hshadow, rfl, rfl⟩

end Render

/-! ## What is read -/

section Read

variable {field rest line name hash : List Char} {capacity : Nat} {entry : UserEntry}
  {uid gid : List Char}

theorem nextFieldLoop_append {length : Nat} (hfield : Plain field)
    (hlen : length + field.length < capacity) (hrest : ∀ c ∈ rest.head?, isStop c = true) :
    nextFieldLoop capacity length (field ++ rest) = some (field, rest) := by
  induction field generalizing length with
  | nil =>
    cases rest with
    | nil => rfl
    | cons c rest => rw [nil_append, nextFieldLoop, if_pos (hrest c rfl)]
  | cons c field ih =>
    rw [length_cons] at hlen
    have hplain : isStop c = false := hfield c mem_cons_self
    rw [cons_append, nextFieldLoop, hplain,
      ih (fun d hd => hfield d (mem_cons_of_mem _ hd)) (by omega)]
    simp only [Bool.false_eq_true, if_false, if_neg (show ¬capacity ≤ length + 1 by omega),
      Option.map_some]

/-- A field in front of a separator. -/
theorem nextField_append {c : Char} (hfield : Plain field) (hlen : field.length < capacity)
    (hstop : isStop c = true) :
    nextField capacity (field ++ c :: rest) = some (field, c :: rest) := by
  refine nextFieldLoop_append hfield (by omega) fun d hd => ?_
  cases hd
  exact hstop

theorem skipColon_colon (p : List Char) : skipColon (':' :: p) = some p := rfl

/-- The fields of an entry fit. -/
structure UserEntry.Fits (entry : UserEntry) (uid gid : List Char) : Prop where
  name : Plain entry.name ∧ entry.name ≠ [] ∧ entry.name.head? ≠ some '#' ∧ entry.name.length < 32
  uid : Plain uid ∧ uid.length < 16 ∧ parseNumber uid = some entry.uid
  gid : Plain gid ∧ gid.length < 16 ∧ parseNumber gid = some entry.gid
  gecos : Plain entry.gecos ∧ entry.gecos.length < 64
  home : Plain entry.home ∧ entry.home.length < 64
  shell : Plain entry.shell ∧ entry.shell.length < 64

/-- The line of an entry is read as the entry. -/
theorem userParseLine_line (h : entry.Fits uid gid) :
    userParseLine (entry.line uid gid ++ '\n' :: rest) = some entry := by
  obtain ⟨hname, hne, hmark, hshort⟩ := h.name
  have hcolon : isStop ':' = true := rfl
  have hfeed : isStop '\n' = true := rfl
  have hplainX : Plain ['x'] := by simp [Plain, isStop]
  have hstart : ¬(entry.line uid gid ++ '\n' :: rest = [] ∨
      (entry.line uid gid ++ '\n' :: rest).head? = some '#') := by
    unfold UserEntry.line
    cases hn : entry.name with
    | nil => exact absurd hn hne
    | cons c name =>
      rw [hn] at hmark
      simpa using hmark
  rw [userParseLine, if_neg hstart]
  unfold UserEntry.line
  simp only [append_assoc, cons_append]
  rw [nextField_append hname hshort hcolon]
  have hpassword : ∀ p, nextField 8 ('x' :: ':' :: p) = some (['x'], ':' :: p) := fun p =>
    nextField_append hplainX (by decide) hcolon
  simp [hne, hpassword, skipColon_colon, nextField_append h.uid.1 h.uid.2.1 hcolon, h.uid.2.2,
    nextField_append h.gid.1 h.gid.2.1 hcolon, h.gid.2.2, nextField_append h.gecos.1 h.gecos.2
    hcolon, nextField_append h.home.1 h.home.2 hcolon, nextField_append h.shell.1 h.shell.2 hfeed]

theorem UserEntry.Fits.plain_line (h : entry.Fits uid gid) : '\n' ∉ entry.line uid gid := by
  have hnot : ∀ {field : List Char}, Plain field → '\n' ∉ field := fun hplain => hplain.not_mem rfl
  unfold UserEntry.line
  simp [hnot h.name.1, hnot h.uid.1, hnot h.gid.1, hnot h.gecos.1, hnot h.home.1, hnot h.shell.1]

/-- A text with two lines that are entries. -/
theorem scanUsers_two {other : UserEntry} {uid' gid' : List Char} (h : entry.Fits uid gid)
    (h' : other.Fits uid' gid') (matched : UserEntry → Bool) :
    scanUsers (entry.line uid gid ++ '\n' :: (other.line uid' gid' ++ '\n' :: [])) matched =
      if matched entry then some entry else if matched other then some other else none := by
  rw [scanUsers, firstLine_append h.plain_line, userParseLine_line h,
    firstLine_append h'.plain_line, userParseLine_line h', firstLine_nil]
  cases hfirst : matched entry with
  | true => simp [hfirst]
  | false =>
    cases hsecond : matched other with
    | true => simp [hfirst, hsecond]
    | false => simp [hfirst, hsecond]

/-- The first field of a line is the name. -/
theorem fieldEquals_append (hfield : ':' ∉ field) (hname : ':' ∉ name) :
    fieldEquals (field ++ ':' :: rest) name = true ↔ field = name := by
  induction name generalizing field with
  | nil =>
    cases field with
    | nil => simp [fieldEquals]
    | cons c field =>
      have hne : c ≠ ':' := fun h => hfield (h ▸ mem_cons_self)
      simp [fieldEquals, hne]
  | cons n name ih =>
    have hne : ':' ≠ n := fun h => hname (h ▸ mem_cons_self)
    cases field with
    | nil => simp [fieldEquals, hne]
    | cons c field =>
      have hrest :=
        ih (fun h => hfield (mem_cons_of_mem _ h)) (fun h => hname (mem_cons_of_mem _ h))
      simp [fieldEquals, hrest]

theorem lineHash_line (hfield : Plain field) (hhash : Plain hash) (hne : hash ≠ [])
    (hlen : hash.length < capacity) :
    lineHash capacity (field ++ ':' :: (hash ++ ':' :: rest)) = some hash := by
  have hdrop : (field ++ ':' :: (hash ++ ':' :: rest)).dropWhile (fun c => c != ':' && c != '\n') =
      ':' :: (hash ++ ':' :: rest) := by
    rw [dropWhile_append_of_pos]
    · rfl
    intro c hc
    have hcolon : c ≠ ':' := fun h => hfield.not_mem rfl (h ▸ hc)
    have hfeed : c ≠ '\n' := fun h => hfield.not_mem rfl (h ▸ hc)
    simp [hcolon, hfeed]
  have hnext : nextField capacity (hash ++ ':' :: rest) = some (hash, ':' :: rest) :=
    nextField_append hhash hlen rfl
  rw [lineHash, hdrop, skipColon_colon]
  simp [hnext, hne]

/-- A line of `shadow`. -/
structure ShadowLine (field hash : List Char) : Prop where
  field : Plain field ∧ field ≠ [] ∧ field.head? ≠ some '#'
  hash : Plain hash ∧ hash ≠ [] ∧ hash.length < 128

theorem ShadowLine.plain_line (h : ShadowLine field hash) :
    '\n' ∉ field ++ ':' :: (hash ++ ":::::::".toList) := by
  have hnot : ∀ {field : List Char}, Plain field → '\n' ∉ field := fun hplain => hplain.not_mem rfl
  simp [hnot h.field.1, hnot h.hash.1]

/-- What `shadow_hash_for` does with a line. -/
theorem ShadowLine.look (h : ShadowLine field hash) (hname : ':' ∉ name) (hcap : 128 ≤ capacity)
    (rest : List Char) :
    (if (field ++ ':' :: (hash ++ ":::::::".toList) ++ '\n' :: rest).head? ≠ some '#' ∧
      fieldEquals (field ++ ':' :: (hash ++ ":::::::".toList) ++ '\n' :: rest) name then
      some (lineHash capacity (field ++ ':' :: (hash ++ ":::::::".toList) ++ '\n' :: rest))
      else none) = if field = name then some (some hash) else none := by
  have hline : field ++ ':' :: (hash ++ ":::::::".toList) ++ '\n' :: rest =
      field ++ ':' :: (hash ++ ':' :: ("::::::".toList ++ '\n' :: rest)) := by simp
  have hmark : (field ++ ':' :: (hash ++ ':' :: ("::::::".toList ++ '\n' :: rest))).head? ≠
      some '#' := by
    obtain ⟨-, hne, hmark⟩ := h.field
    cases field with
    | nil => exact absurd rfl hne
    | cons c field => exact hmark
  rw [hline, lineHash_line h.field.1 h.hash.1 h.hash.2.1 (Nat.lt_of_lt_of_le h.hash.2.2 hcap)]
  simp only [hmark, not_false_eq_true, ne_eq, true_and,
    fieldEquals_append (h.field.1.not_mem rfl) hname]

/-- A file with two lines. -/
theorem shadowHashFor_two {field' hash' : List Char} (h : ShadowLine field hash)
    (h' : ShadowLine field' hash') (hname : ':' ∉ name) (hcap : 128 ≤ capacity) :
    shadowHashFor (field ++ ':' :: (hash ++ ":::::::".toList) ++ '\n' :: (field' ++ ':' ::
      (hash' ++ ":::::::".toList) ++ '\n' :: [])) name capacity = if field = name then some hash
      else if field' = name then some hash' else none := by
  rw [shadowHashFor]
  by_cases hempty : name = []
  · subst hempty
    rw [if_pos (.inl rfl), if_neg h.field.2.1, if_neg h'.field.2.1]
  rw [if_neg (not_or.mpr ⟨hempty, by omega⟩), firstLine_append h.plain_line, h.look hname hcap,
    firstLine_append h'.plain_line, h'.look hname hcap, firstLine_nil]
  by_cases hfirst : field = name
  · simp [hfirst]
  · by_cases hsecond : field' = name
    · simp [hfirst, hsecond]
    · simp [hfirst, hsecond]

end Read

/-! ## Accounts of a valid request -/

section Valid

variable {request : Request}

theorem fits_rootEntry : rootEntry.Fits ['0'] ['0'] := by
  refine ⟨⟨?_, ?_, ?_, ?_⟩, ⟨?_, ?_, ?_⟩, ⟨?_, ?_, ?_⟩, ⟨?_, ?_⟩, ⟨?_, ?_⟩, ?_, ?_⟩
  all_goals first | exact plain_of_all (by decide) | decide

theorem fits_userEntry (h : installAccountsValid request = true) :
    (userEntry request).Fits (numberText request.userUid) (numberText installUsersGid) := by
  unfold installAccountsValid at h
  simp only [Bool.and_eq_true, decide_eq_true_eq] at h
  obtain ⟨⟨⟨⟨⟨⟨-, hname⟩, -⟩, -⟩, hgecos⟩, -⟩, huid⟩ := h
  obtain ⟨hplain, hne, hmark, hlen⟩ := plain_name hname
  have hhome : Plain "/home/".toList := plain_of_all (by decide)
  have hshell : Plain installShellDefault := plain_of_all (by decide)
  refine ⟨plain_name hname, ?_, ?_, plain_gecos hgecos, ⟨hhome.append hplain, ?_⟩, hshell,
    show installShellDefault.length < 64 by decide⟩
  · have hsmall : request.userUid < userIdNone := Nat.lt_trans huid.2 (by decide)
    exact ⟨(plain_numberText _).1, (plain_numberText _).2, parseNumber_numberText hsmall⟩
  · exact ⟨(plain_numberText _).1, (plain_numberText _).2, parseNumber_numberText (by decide)⟩
  show ("/home/".toList ++ text request.userName).length < 64
  rw [length_append]
  have hsix : "/home/".toList.length = 6 := by decide
  omega

theorem shadowLines (h : installAccountsValid request = true) :
    ShadowLine "root".toList (text request.rootHash) ∧
      ShadowLine (text request.userName) (text request.userHash) := by
  unfold installAccountsValid at h
  simp only [Bool.and_eq_true, decide_eq_true_eq] at h
  obtain ⟨⟨⟨⟨⟨⟨⟨-, hroot⟩, hname⟩, -⟩, -⟩, -⟩, huser⟩, -⟩ := h
  obtain ⟨hplain, hne, hmark, -⟩ := plain_name hname
  have hplainRoot : Plain "root".toList := plain_of_all (by decide)
  exact ⟨⟨⟨hplainRoot, by decide, by decide⟩, plain_hash hroot⟩, ⟨hplain, hne, hmark⟩,
    plain_hash huser⟩

theorem ne_userEntry (h : installAccountsValid request = true) :
    rootEntry.name ≠ (userEntry request).name ∧ rootEntry.uid ≠ (userEntry request).uid := by
  unfold installAccountsValid at h
  simp only [Bool.and_eq_true, decide_eq_true_eq, bne_iff_ne] at h
  obtain ⟨⟨⟨⟨-, hname⟩, -⟩, -⟩, huid⟩ := h
  refine ⟨hname.symm, Nat.ne_of_lt ?_⟩
  exact Nat.lt_of_lt_of_le (show 0 < installFirstUid by decide) huid.1

end Valid

/--
Installed accounts.  The two readers find in the files that are rendered from a request exactly root
and the user of the request, with what was requested for them.
-/
theorem installed_accounts
    (request : Request)
    (files : Files)
    (hrender : installAccountsRender request = .ok files) :
    (rootEntry.name ≠ (userEntry request).name ∧ rootEntry.uid ≠ (userEntry request).uid) ∧
    (∀ name, userLookupName files.passwd name =
      if rootEntry.name = name then some rootEntry
      else if (userEntry request).name = name then some (userEntry request) else none) ∧
    (∀ uid, userLookupUid files.passwd uid =
      if rootEntry.uid = uid then some rootEntry
      else if (userEntry request).uid = uid then some (userEntry request) else none) ∧
    (∀ line, LineOf files.passwd line → (userParseLine line).isSome) ∧
    ∀ name capacity, ':' ∉ name → installHashMax ≤ capacity →
      shadowHashFor files.shadow name capacity =
        if rootEntry.name = name then some (text request.rootHash)
        else if (userEntry request).name = name then some (text request.userHash) else none := by
  obtain ⟨hvalid, hpasswd, hshadow, hpasswdText, hshadowText⟩ := installAccountsRender_ok hrender
  have hroot := fits_rootEntry
  have huser := fits_userEntry hvalid
  rw [hpasswdText, hshadowText, passwd_eq hpasswd, shadow_eq hshadow]
  refine ⟨ne_userEntry hvalid, fun name => ?_, fun uid => ?_, fun line hline => ?_,
    fun name capacity hname hcap => ?_⟩
  · rw [userLookupName, scanUsers_two hroot huser]
    simp only [beq_iff_eq]
  · rw [userLookupUid, scanUsers_two hroot huser]
    simp only [beq_iff_eq]
  · rcases hline.cases hroot.plain_line with rfl | hline
    · rw [userParseLine_line hroot]
      rfl
    rcases hline.cases huser.plain_line with rfl | hline
    · rw [userParseLine_line huser]
      rfl
    · obtain ⟨hne, before, hempty, -⟩ := hline
      exact absurd (append_eq_nil_iff.mp hempty.symm).2 hne
  · obtain ⟨hrootLine, huserLine⟩ := shadowLines hvalid
    exact shadowHashFor_two hrootLine huserLine hname hcap

/-- A request for a user. -/
def sampleRequest : Request where
  present := true
  userUid := 1000
  hostname := "purec".toList ++ [nul]
  rootHash := "$6$salt$abcde".toList ++ [nul]
  userName := "anna".toList ++ [nul]
  userGecos := "Anna B.".toList ++ [nul]
  userHash := "$6$salt$fghij".toList ++ [nul]

theorem installed_accounts_sample :
    ∃ files, installAccountsRender sampleRequest = .ok files ∧
      userLookupName files.passwd "anna".toList = some (userEntry sampleRequest) ∧
      shadowHashFor files.shadow "anna".toList 128 = some "$6$salt$fghij".toList := by
  have hrender : ∃ files, installAccountsRender sampleRequest = .ok files := ⟨_, rfl⟩
  obtain ⟨files, hrender⟩ := hrender
  obtain ⟨-, hname, -, -, hshadow⟩ := installed_accounts sampleRequest files hrender
  exact ⟨files, hrender, hname "anna".toList, hshadow "anna".toList 128 (by decide) (by decide)⟩

end PureCOS.Accounts
