import Mathlib.Data.Nat.Find
import PureCOS.Lib.Bytes

/-!
# Integer conversion

`strtol` and `strtoul` of `src/libc/stdlib.c`.  A text is the list of its characters before the NUL,
a pointer into it the rest of the text from there on.  Bases below 0 are refused like 1 and are left
out.

The C standard speaks of the longest initial part of the text that has the form of a subject
sequence: white space, a sign, a mark for base 16 and digits.  `Subject` is this form, stated
without the code.
-/

namespace PureCOS.Libc

open List

/-! ## The code -/

def isspace (c : Char) : Bool :=
  c == ' ' || c == '\t' || c == '\n' || c == '\r' || c.toNat == 12 || c.toNat == 11

def convertSkip (text : List Char) : List Char := text.dropWhile isspace

/-- `convert_digit`; `none` is -1. -/
def convertDigit (c : Char) (base : Nat) : Option Nat :=
  if '0'.toNat ≤ c.toNat ∧ c.toNat ≤ '9'.toNat ∧ c.toNat - '0'.toNat < base then
    some (c.toNat - '0'.toNat)
  else if 'a'.toNat ≤ c.toNat ∧ c.toNat ≤ 'z'.toNat ∧ c.toNat - 'a'.toNat + 10 < base then
    some (c.toNat - 'a'.toNat + 10)
  else if 'A'.toNat ≤ c.toNat ∧ c.toNat ≤ 'Z'.toNat ∧ c.toNat - 'A'.toNat + 10 < base then
    some (c.toNat - 'A'.toNat + 10)
  else
    none

inductive ConvertError where
  | einval
  | erange
deriving DecidableEq

/-- What a conversion returns, stores in `*end` and in `errno`. -/
structure Conversion where
  value : Int
  rest : List Char
  errno : Option ConvertError
deriving DecidableEq

/-- The sign: whether it is a minus, and what follows. -/
def convertSign : List Char → Bool × List Char
  | '+' :: p => (false, p)
  | '-' :: p => (true, p)
  | p => (false, p)

/-- `0x` or `0X` in front of a digit. -/
def hexMark : List Char → Bool
  | '0' :: x :: h :: _ => (x == 'x' || x == 'X') && (convertDigit h 16).isSome
  | _ => false

/-- The base in use, and what follows its mark. -/
def convertBase (base : Nat) (p : List Char) : Nat × List Char :=
  if base = 0 then
    if p.head? = some '0' then
      if hexMark p then (16, p.drop 2) else (8, p)
    else (10, p)
  else if base = 16 then
    if hexMark p then (16, p.drop 2) else (16, p)
  else (base, p)

/-- What the loop over the digits leaves. -/
structure Digits where
  magnitude : Nat
  any : Bool
  overflow : Bool
  rest : List Char

/-- The loop over the digits; `limit` is `ULONG_MAX` in `strtoul`. -/
def convertLoop (base limit : Nat) : Nat → Bool → List Char → Digits
  | magnitude, any, [] => ⟨magnitude, any, false, []⟩
  | magnitude, any, c :: p =>
    match convertDigit c base with
    | none => ⟨magnitude, any, false, c :: p⟩
    | some digit =>
      if (limit - digit) / base < magnitude then
        ⟨limit, true, true, p.dropWhile fun c => (convertDigit c base).isSome⟩
      else
        convertLoop base limit (magnitude * base + digit) true p

/-- Conversion to `long` -/
def long (x : Int) : Int := (x + 2 ^ 63) % 2 ^ 64 - 2 ^ 63

def strtol (text : List Char) (base : Nat) : Conversion :=
  let (negative, p) := convertSign (convertSkip text)
  let (base, p) := convertBase base p
  if base < 2 ∨ 36 < base then
    ⟨0, text, some .einval⟩
  else
    let limit := if negative then 2 ^ 63 else 2 ^ 63 - 1
    let r := convertLoop base limit 0 false p
    let rest := if r.any then r.rest else text
    if r.overflow then ⟨if negative then -2 ^ 63 else 2 ^ 63 - 1, rest, some .erange⟩
    else ⟨if negative then long (-long r.magnitude) else long r.magnitude, rest, none⟩

def strtoul (text : List Char) (base : Nat) : Conversion :=
  let (negative, p) := convertSign (convertSkip text)
  let (base, p) := convertBase base p
  if base < 2 ∨ 36 < base then
    ⟨0, text, some .einval⟩
  else
    let r := convertLoop base (2 ^ 64 - 1) 0 false p
    let rest := if r.any then r.rest else text
    let value : Int := if negative then (0 - r.magnitude) % 2 ^ 64 else r.magnitude
    ⟨value, rest, if r.overflow then some .erange else none⟩

/-! ## Subject sequences -/

/-- Letters are digits from ten on. -/
def digitValue (c : Char) : Option Nat :=
  if '0'.toNat ≤ c.toNat ∧ c.toNat ≤ '9'.toNat then some (c.toNat - '0'.toNat)
  else if 'a'.toNat ≤ c.toNat ∧ c.toNat ≤ 'z'.toNat then some (c.toNat - 'a'.toNat + 10)
  else if 'A'.toNat ≤ c.toNat ∧ c.toNat ≤ 'Z'.toNat then some (c.toNat - 'A'.toNat + 10)
  else none

def IsDigit (radix : Nat) (c : Char) : Prop := ∃ v < radix, digitValue c = some v

/-- The form of an integer in a text. -/
structure Subject (base : Nat) where
  spaces : List Char
  sign : List Char
  mark : List Char
  digits : List Char
  radix : Nat
  spaces_mem : ∀ c ∈ spaces, isspace c = true
  sign_mem : sign = [] ∨ sign = ['+'] ∨ sign = ['-']
  digits_ne : digits ≠ []
  digits_mem : ∀ c ∈ digits, IsDigit radix c
  radix_mem : mark = [] ∧ base ≠ 0 ∧ radix = base ∨
    mark = [] ∧ base = 0 ∧ radix = (if digits.head? = some '0' then 8 else 10) ∨
    (mark = ['0', 'x'] ∨ mark = ['0', 'X']) ∧ (base = 0 ∨ base = 16) ∧ radix = 16

namespace Subject

variable {base : Nat} (s : Subject base)

def text : List Char := s.spaces ++ (s.sign ++ (s.mark ++ s.digits))

def negative : Bool := s.sign == ['-']

def magnitude : Nat := s.digits.foldl (fun n c => n * s.radix + (digitValue c).getD 0) 0

/-- No longer part of the text has the form. -/
def Longest (text : List Char) : Prop :=
  s.text <+: text ∧ ∀ s' : Subject base, s'.text <+: text → s'.text.length ≤ s.text.length

/-- The integer denoted. -/
def value : Int := if s.negative then -s.magnitude else s.magnitude

/-- What `strtol` is to return. -/
def asLong (text : List Char) : Conversion :=
  if s.value < -2 ^ 63 then ⟨-2 ^ 63, text.drop s.text.length, some .erange⟩
  else if 2 ^ 63 - 1 < s.value then ⟨2 ^ 63 - 1, text.drop s.text.length, some .erange⟩
  else ⟨s.value, text.drop s.text.length, none⟩

/-- What `strtoul` is to return. -/
def asUnsignedLong (text : List Char) : Conversion :=
  if 2 ^ 64 ≤ s.magnitude then ⟨2 ^ 64 - 1, text.drop s.text.length, some .erange⟩
  else ⟨s.value % 2 ^ 64, text.drop s.text.length, none⟩

end Subject

/-! ## Digits -/

variable {c : Char} {radix : Nat}

theorem digitValue_some {v : Nat} (h : digitValue c = some v) :
    (48 ≤ c.toNat ∧ c.toNat ≤ 57 ∧ v + 48 = c.toNat) ∨ (97 ≤ c.toNat ∧ c.toNat ≤ 122 ∧
      v + 87 = c.toNat) ∨ (65 ≤ c.toNat ∧ c.toNat ≤ 90 ∧ v + 55 = c.toNat) := by
  simp only [digitValue, Char.reduceToNat] at h
  split at h
  · cases h
    omega
  split at h
  · cases h
    omega
  split at h
  · cases h
    omega
  · cases h

theorem convertDigit_iff {base v : Nat} :
    convertDigit c base = some v ↔ v < base ∧ digitValue c = some v := by
  simp only [convertDigit, digitValue, Char.reduceToNat]
  constructor
  · intro h
    split at h
    · cases h
      rw [if_pos (by omega)]
      exact ⟨by omega, rfl⟩
    split at h
    · cases h
      rw [if_neg (by omega), if_pos (by omega)]
      exact ⟨by omega, rfl⟩
    split at h
    · cases h
      rw [if_neg (by omega), if_neg (by omega), if_pos (by omega)]
      exact ⟨by omega, rfl⟩
    · cases h
  · rintro ⟨hlt, h⟩
    split at h
    · cases h
      rw [if_pos (by omega)]
    split at h
    · cases h
      rw [if_neg (by omega), if_pos (by omega)]
    split at h
    · cases h
      rw [if_neg (by omega), if_neg (by omega), if_pos (by omega)]
    · cases h

theorem isSome_convertDigit {base : Nat} :
    (convertDigit c base).isSome = true ↔ IsDigit base c := by
  rw [Option.isSome_iff_exists]
  simp only [convertDigit_iff, IsDigit]

/-- What can stand behind white space. -/
theorem IsDigit.not_isspace (h : IsDigit radix c) : isspace c = false := by
  obtain ⟨v, -, hv⟩ := h
  have hrange := digitValue_some hv
  have hne : c.toNat ≠ ' '.toNat ∧ c.toNat ≠ '\t'.toNat ∧ c.toNat ≠ '\n'.toNat ∧
      c.toNat ≠ '\r'.toNat ∧ c.toNat ≠ 12 ∧ c.toNat ≠ 11 := by
    simp only [Char.reduceToNat]
    omega
  obtain ⟨h₁, h₂, h₃, h₄, h₅, h₆⟩ := hne
  simp only [isspace, Bool.or_eq_false_iff, beq_eq_false_iff_ne]
  exact ⟨⟨⟨⟨⟨fun h => h₁ (h ▸ rfl), fun h => h₂ (h ▸ rfl)⟩, fun h => h₃ (h ▸ rfl)⟩,
    fun h => h₄ (h ▸ rfl)⟩, h₅⟩, h₆⟩

theorem IsDigit.ne_sign (h : IsDigit radix c) : c ≠ '+' ∧ c ≠ '-' := by
  obtain ⟨v, -, hv⟩ := h
  constructor
  · rintro rfl
    cases hv
  · rintro rfl
    cases hv

/-- `x` is a digit of large bases only. -/
theorem not_isDigit_mark {x : Char} (hx : x = 'x' ∨ x = 'X') (hradix : radix ≤ 16) :
    ¬IsDigit radix x := by
  rintro ⟨v, hlt, hv⟩
  rcases hx with rfl | rfl
  · cases hv
    simp only [Char.reduceToNat] at hlt
    omega
  · cases hv
    simp only [Char.reduceToNat] at hlt
    omega

/-! ## The loop over the digits -/

section Loop

variable {radix limit : Nat}

/-- Value of digits behind a number. -/
def valueOf (radix : Nat) (n : Nat) (digits : List Char) : Nat :=
  digits.foldl (fun n c => n * radix + (digitValue c).getD 0) n

theorem valueOf_cons (radix n : Nat) (c : Char) (digits : List Char) :
    valueOf radix n (c :: digits) = valueOf radix (n * radix + (digitValue c).getD 0) digits := rfl

theorem le_valueOf (hradix : 2 ≤ radix) (n : Nat) (digits : List Char) :
    n ≤ valueOf radix n digits := by
  induction digits generalizing n with
  | nil => exact Nat.le_refl n
  | cons c digits ih =>
    rw [valueOf_cons]
    have hgrow : n * 1 ≤ n * radix := Nat.mul_le_mul_left n (by omega)
    have hrest := ih (n * radix + (digitValue c).getD 0)
    omega

/-- The test before each step is that of the step. -/
theorem overflow_iff {digit : Nat} (hradix : 2 ≤ radix) (hdigit : digit ≤ limit) (n : Nat) :
    (limit - digit) / radix < n ↔ limit < n * radix + digit := by
  rw [Nat.div_lt_iff_lt_mul (by omega)]
  omega

/-- The digits are taken all, whether or not they fit. -/
theorem convertLoop_digits {digits rest : List Char} (hradix : 2 ≤ radix) (hlimit : radix ≤ limit)
    (hdig : ∀ c ∈ digits, IsDigit radix c) (hrest : ∀ c ∈ rest.head?, ¬IsDigit radix c) {n : Nat}
    (hn : n ≤ limit) (any : Bool) :
    convertLoop radix limit n any (digits ++ rest) =
      if limit < valueOf radix n digits then ⟨limit, true, true, rest⟩
      else ⟨valueOf radix n digits, any || !digits.isEmpty, false, rest⟩ := by
  induction digits generalizing n any with
  | nil =>
    rw [nil_append, valueOf, foldl_nil, if_neg (by omega), isEmpty_nil, Bool.not_true,
      Bool.or_false]
    cases rest with
    | nil => rfl
    | cons c rest =>
      have hno : convertDigit c radix = none := by
        rw [← Option.not_isSome_iff_eq_none, isSome_convertDigit]
        exact hrest c rfl
      rw [convertLoop, hno]
  | cons c digits ih =>
    obtain ⟨v, hlt, hv⟩ := hdig c mem_cons_self
    have htail := fun d hd => hdig d (mem_cons_of_mem c hd)
    rw [cons_append, convertLoop, convertDigit_iff.mpr ⟨hlt, hv⟩, valueOf_cons, hv,
      Option.getD_some]
    simp only [overflow_iff hradix (show v ≤ limit by omega)]
    by_cases hover : limit < n * radix + v
    · have hge := le_valueOf hradix (n * radix + v) digits
      have hdrop : (digits ++ rest).dropWhile (fun c => (convertDigit c radix).isSome) = rest := by
        rw [dropWhile_append_of_pos fun d hd => isSome_convertDigit.mpr (htail d hd)]
        cases rest with
        | nil => rfl
        | cons c rest => exact dropWhile_cons_of_neg fun h => hrest c rfl (isSome_convertDigit.mp h)
      rw [if_pos hover, if_pos (by omega), hdrop]
    · rw [if_neg hover, ih htail (by omega)]
      simp

end Loop

/-! ## Up to the digits -/

section Front

variable {base : Nat}

theorem convertSkip_append {spaces p : List Char} (hspaces : ∀ c ∈ spaces, isspace c = true)
    (hp : ∀ c ∈ p.head?, isspace c = false) :
    convertSkip (spaces ++ p) = p := by
  rw [convertSkip, dropWhile_append_of_pos hspaces]
  cases p with
  | nil => rfl
  | cons c p => exact dropWhile_cons_of_neg (by simp [hp c rfl])

theorem convertSign_append {sign p : List Char} (hsign : sign = [] ∨ sign = ['+'] ∨ sign = ['-'])
    (hp : ∀ c ∈ p.head?, c ≠ '+' ∧ c ≠ '-') :
    convertSign (sign ++ p) = (sign == ['-'], p) := by
  rcases hsign with rfl | rfl | rfl
  · rw [nil_append]
    unfold convertSign
    split
    · exact absurd rfl (hp '+' rfl).1
    · exact absurd rfl (hp '-' rfl).2
    · rfl
  · rfl
  · rfl

theorem hexMark_iff {p : List Char} :
    hexMark p = true ↔ ∃ x h q, p = '0' :: x :: h :: q ∧ (x = 'x' ∨ x = 'X') ∧ IsDigit 16 h := by
  constructor
  · intro hmark
    unfold hexMark at hmark
    split at hmark
    next x h q =>
      simp only [Bool.and_eq_true, Bool.or_eq_true, beq_iff_eq, isSome_convertDigit] at hmark
      exact ⟨x, h, q, rfl, hmark⟩
    · cases hmark
  · rintro ⟨x, h, q, rfl, hx, hh⟩
    simp only [hexMark, Bool.and_eq_true, Bool.or_eq_true, beq_iff_eq, isSome_convertDigit]
    exact ⟨hx, hh⟩

namespace Subject

variable {s : Subject base} {text rest : List Char}

theorem head?_digits (s : Subject base) (rest : List Char) :
    (s.digits ++ rest).head? = s.digits.head? := by
  rw [head?_append]
  cases h : s.digits with
  | nil => exact absurd h s.digits_ne
  | cons c digits => rfl

/-- Digits end where they can. -/
theorem Longest.not_isDigit (h : s.Longest (s.text ++ rest)) :
    ∀ c ∈ rest.head?, ¬IsDigit s.radix c := by
  intro c hc hdigit
  obtain ⟨q, rfl⟩ : ∃ q, rest = c :: q := by
    cases rest with
    | nil => cases hc
    | cons d q =>
      cases hc
      exact ⟨q, rfl⟩
  let longer : Subject base :=
    { s with
      digits := s.digits ++ [c]
      digits_ne := by simp
      digits_mem := by
        intro d hd
        rcases mem_append.mp hd with hd | hd
        · exact s.digits_mem d hd
        · rw [mem_singleton.mp hd]
          exact hdigit
      radix_mem := by
        rw [head?_digits]
        exact s.radix_mem }
  have htext : longer.text = s.text ++ [c] := by simp [longer, Subject.text]
  have hle := h.2 longer ⟨q, by simp [htext]⟩
  rw [htext, length_append, length_singleton] at hle
  omega

theorem radix_le (s : Subject base) (hbase : base = 0 ∨ base = 16) : s.radix ≤ 16 := by
  rcases s.radix_mem with ⟨-, -, h⟩ | ⟨-, -, h⟩ | ⟨-, -, h⟩
  · omega
  · rw [h]
    split <;> omega
  · omega

/-- A mark for base 16 is not left out. -/
theorem Longest.not_hexMark (h : s.Longest (s.text ++ rest)) (hmark : s.mark = [])
    (hbase : base = 0 ∨ base = 16) : hexMark (s.digits ++ rest) = false := by
  by_contra hhex
  obtain ⟨x, d, q, heq, hx, hd⟩ := hexMark_iff.mp (eq_true_of_ne_false hhex)
  -- the digits are a single 0
  have hdig : s.digits = ['0'] := by
    cases hs : s.digits with
    | nil => exact absurd hs s.digits_ne
    | cons c digits =>
      rw [hs, cons_append, cons.injEq] at heq
      obtain ⟨rfl, htail⟩ := heq
      cases digits with
      | nil => rfl
      | cons c digits =>
        rw [cons_append, cons.injEq] at htail
        have hdigit := s.digits_mem c (by rw [hs]; simp)
        rw [htail.1] at hdigit
        exact absurd hdigit (not_isDigit_mark hx (s.radix_le hbase))
  let longer : Subject base :=
    { spaces := s.spaces
      sign := s.sign
      mark := ['0', x]
      digits := [d]
      radix := 16
      spaces_mem := s.spaces_mem
      sign_mem := s.sign_mem
      digits_ne := by simp
      digits_mem := by simpa using hd
      radix_mem := .inr (.inr ⟨by rcases hx with rfl | rfl <;> simp, hbase, rfl⟩) }
  have htext : longer.text ++ q = s.text ++ rest := by
    simp [longer, Subject.text, hmark, heq]
  have hle := h.2 longer ⟨q, htext⟩
  simp [longer, Subject.text, hmark, hdig] at hle

/-- The code finds sign, base and digits of the longest subject sequence. -/
theorem Longest.front (h : s.Longest (s.text ++ rest)) :
    convertSign (convertSkip (s.text ++ rest)) = (s.negative, s.mark ++ (s.digits ++ rest)) ∧
      convertBase base (s.mark ++ (s.digits ++ rest)) = (s.radix, s.digits ++ rest) := by
  obtain ⟨d, digits, hdig⟩ : ∃ d digits, s.digits = d :: digits := exists_cons_of_ne_nil s.digits_ne
  have hdigit := s.digits_mem d (by rw [hdig]; exact mem_cons_self)
  have hzero : IsDigit 10 '0' := ⟨0, by omega, rfl⟩
  -- behind the sign stands a digit
  obtain ⟨c, q, radix, hcons, hc⟩ : ∃ c q radix, s.mark ++ (s.digits ++ rest) = c :: q ∧
      IsDigit radix c := by
    rcases s.radix_mem with ⟨hmark, -, -⟩ | ⟨hmark, -, -⟩ | ⟨hmark | hmark, -, -⟩
    · exact ⟨d, _, s.radix, by rw [hmark, hdig]; rfl, hdigit⟩
    · exact ⟨d, _, s.radix, by rw [hmark, hdig]; rfl, hdigit⟩
    · exact ⟨'0', _, 10, by rw [hmark]; rfl, hzero⟩
    · exact ⟨'0', _, 10, by rw [hmark]; rfl, hzero⟩
  constructor
  · have htext : s.text ++ rest = s.spaces ++ (s.sign ++ (s.mark ++ (s.digits ++ rest))) := by
      simp [Subject.text]
    rw [htext, convertSkip_append s.spaces_mem, convertSign_append s.sign_mem, negative]
    · rw [hcons]
      rintro _ ⟨⟩
      exact hc.ne_sign
    intro b hb
    rw [hcons] at hb
    rcases s.sign_mem with hsign | hsign | hsign
    · rw [hsign] at hb
      cases hb
      exact hc.not_isspace
    · rw [hsign] at hb
      cases hb
      rfl
    · rw [hsign] at hb
      cases hb
      rfl
  unfold convertBase
  rcases s.radix_mem with ⟨hmark, hne, hradix⟩ | ⟨hmark, hzero, hradix⟩ | ⟨hmark, hbase, hradix⟩
  · rw [hmark, nil_append, if_neg hne]
    split
    next hbase =>
      rw [if_neg (by rw [h.not_hexMark hmark (.inr hbase)]; simp), show s.radix = 16 from
        hradix.trans hbase]
    next hbase => rw [hradix]
  · rw [hmark, nil_append, if_pos hzero, head?_digits, h.not_hexMark hmark (.inl hzero), hradix]
    split
    · rfl
    · rfl
  have hhex : hexMark (s.mark ++ (s.digits ++ rest)) = true := by
    rw [hexMark_iff, hdig]
    rw [hradix] at hdigit
    rcases hmark with hmark | hmark
    · exact ⟨'x', d, _, by rw [hmark]; rfl, by simp, hdigit⟩
    · exact ⟨'X', d, _, by rw [hmark]; rfl, by simp, hdigit⟩
  have hdrop : (s.mark ++ (s.digits ++ rest)).drop 2 = s.digits ++ rest := by
    rcases hmark with hmark | hmark <;> rw [hmark] <;> rfl
  have hhead : (s.mark ++ (s.digits ++ rest)).head? = some '0' := by
    rcases hmark with hmark | hmark <;> rw [hmark] <;> rfl
  rw [hhex, hdrop, hhead, hradix]
  rcases hbase with rfl | rfl
  · rfl
  · rfl

end Subject

/-- What the base can be, and where the digits can begin. -/
theorem convertBase_cases (base : Nat) (p : List Char) :
    (hexMark p = true ∧ (base = 0 ∨ base = 16) ∧ convertBase base p = (16, p.drop 2)) ∨
      (base ≠ 0 ∧ convertBase base p = (base, p)) ∨
      (base = 0 ∧ convertBase base p = (if p.head? = some '0' then 8 else 10, p)) := by
  unfold convertBase
  by_cases hzero : base = 0
  · by_cases hhead : p.head? = some '0'
    · by_cases hhex : hexMark p = true
      · simp [hzero, hhead, hhex]
      · simp [hzero, hhead, hhex]
    · simp [hzero, hhead]
  · by_cases hsixteen : base = 16
    · by_cases hhex : hexMark p = true
      · simp [hsixteen, hhex]
      · simp [hsixteen, hhex]
    · simp [hzero, hsixteen]

/-- Without subject sequence there is no digit where the digits should begin. -/
theorem not_isDigit_of_none {text : List Char} (hnone : ∀ s : Subject base, ¬s.text <+: text) :
    ∀ c ∈ (convertBase base (convertSign (convertSkip text)).2).2.head?,
      ¬IsDigit (convertBase base (convertSign (convertSkip text)).2).1 c := by
  intro c hc hdigit
  obtain ⟨sign, hsplit, hsign⟩ : ∃ sign, convertSkip text =
      sign ++ (convertSign (convertSkip text)).2 ∧ (sign = [] ∨ sign = ['+'] ∨ sign = ['-']) := by
    unfold convertSign
    split
    next p heq => exact ⟨['+'], heq, by simp⟩
    next p heq => exact ⟨['-'], heq, by simp⟩
    · exact ⟨[], rfl, by simp⟩
  generalize (convertSign (convertSkip text)).2 = p at hc hdigit hsplit
  have hall : text.takeWhile isspace ++ convertSkip text = text := takeWhile_append_dropWhile
  -- a digit would make a subject sequence, with the spaces and the sign before it
  have hbuilt : ∀ (mark q : List Char) (radix : Nat), p = mark ++ c :: q → IsDigit radix c →
      (mark = [] ∧ base ≠ 0 ∧ radix = base ∨
        mark = [] ∧ base = 0 ∧ radix = (if [c].head? = some '0' then 8 else 10) ∨
        (mark = ['0', 'x'] ∨ mark = ['0', 'X']) ∧ (base = 0 ∨ base = 16) ∧ radix = 16) →
      False := by
    intro mark q radix hp hdigit hradix
    refine hnone ⟨text.takeWhile isspace, sign, mark, [c], radix, all_eq_true.mp all_takeWhile,
      hsign, by simp, by simpa using hdigit, hradix⟩ ⟨q, ?_⟩
    rw [hsplit, hp] at hall
    simpa [Subject.text] using hall
  rcases convertBase_cases base p with ⟨hhex, hbase, hconv⟩ | ⟨hbase, hconv⟩ | ⟨hbase, hconv⟩
  · rw [hconv] at hc hdigit
    obtain ⟨x, d, q, rfl, hx, -⟩ := hexMark_iff.mp hhex
    cases hc
    exact hbuilt ['0', x] q 16 rfl hdigit
      (.inr (.inr ⟨by rcases hx with rfl | rfl <;> simp, hbase, rfl⟩))
  · rw [hconv] at hc hdigit
    cases p with
    | nil => cases hc
    | cons d q =>
      cases hc
      exact hbuilt [] q base rfl hdigit (.inl ⟨rfl, hbase, rfl⟩)
  · rw [hconv] at hc hdigit
    cases p with
    | nil => cases hc
    | cons d q =>
      cases hc
      exact hbuilt [] q _ rfl hdigit (.inr (.inl ⟨rfl, hbase, rfl⟩))

/-- Bases in use are in range. -/
theorem convertBase_mem (hbase : base = 0 ∨ 2 ≤ base ∧ base ≤ 36) (p : List Char) :
    2 ≤ (convertBase base p).1 ∧ (convertBase base p).1 ≤ 36 := by
  rcases convertBase_cases base p with ⟨-, -, hconv⟩ | ⟨hne, hconv⟩ | ⟨-, hconv⟩
  · simp [hconv]
  · rw [hconv]
    exact hbase.resolve_left hne
  · rw [hconv]
    change 2 ≤ (if p.head? = some '0' then 8 else 10) ∧ (if p.head? = some '0' then 8 else 10) ≤ 36
    split <;> omega

end Front

/-! ## Conversions -/

section Convert

variable {base : Nat} {text : List Char}

theorem long_eq {x : Int} (h : -2 ^ 63 ≤ x ∧ x < 2 ^ 63) : long x = x := by
  unfold long
  omega

/-- `-(long)magnitude` wraps for the least number, and gives it. -/
theorem long_neg {n : Nat} (h : n ≤ 2 ^ 63) : long (-long n) = -n := by
  unfold long
  omega

/-- Some longest part of the text has the form, if any has. -/
theorem exists_longest {s : Subject base} (h : s.text <+: text) :
    ∃ s : Subject base, s.Longest text := by
  classical
  let P : Nat → Prop := fun n => ∃ s : Subject base, s.text <+: text ∧ s.text.length = n
  have hP : P (Nat.findGreatest P text.length) := Nat.findGreatest_spec h.length_le ⟨s, h, rfl⟩
  obtain ⟨longest, hfront, hlen⟩ := hP
  refine ⟨longest, hfront, fun s' hs' => ?_⟩
  rw [hlen]
  exact Nat.le_findGreatest hs'.length_le ⟨s', hs', rfl⟩

/-- Nothing is converted without a digit. -/
theorem convert_none (hbase : base = 0 ∨ 2 ≤ base ∧ base ≤ 36)
    (hnone : ∀ s : Subject base, ¬s.text <+: text) :
    strtol text base = ⟨0, text, none⟩ ∧ strtoul text base = ⟨0, text, none⟩ := by
  have hno := not_isDigit_of_none hnone
  have hmem := convertBase_mem hbase (convertSign (convertSkip text)).2
  rcases hsign : convertSign (convertSkip text) with ⟨negative, p⟩
  rw [hsign] at hno hmem
  rcases hconv : convertBase base p with ⟨radix, q⟩
  rw [hconv] at hno hmem
  have hloop : ∀ limit, radix ≤ limit →
      convertLoop radix limit 0 false q = ⟨0, false, false, q⟩ := by
    intro limit hlimit
    have h : convertLoop radix limit 0 false ([] ++ q) = _ :=
      convertLoop_digits hmem.1 hlimit (by simp) hno (Nat.zero_le limit) false
    simpa [valueOf] using h
  have hvalid : ¬(radix < 2 ∨ 36 < radix) := by omega
  constructor
  · simp only [strtol, hsign, hconv, if_neg hvalid]
    rw [hloop _ (by split <;> omega)]
    cases negative <;> simp [long]
  · simp only [strtoul, hsign, hconv, if_neg hvalid]
    rw [hloop _ (by omega)]
    cases negative <;> rfl

namespace Subject

variable {s : Subject base}

theorem magnitude_eq (s : Subject base) : s.magnitude = valueOf s.radix 0 s.digits := rfl

variable (hbase : base = 0 ∨ 2 ≤ base ∧ base ≤ 36)

include hbase

/-- The loop over the digits of the longest subject sequence. -/
theorem Longest.convertLoop {rest : List Char} (h : s.Longest (s.text ++ rest)) {limit : Nat}
    (hlimit : 36 ≤ limit) : Libc.convertLoop s.radix limit 0 false (s.digits ++ rest) = if limit <
    s.magnitude then ⟨limit, true, true, rest⟩ else ⟨s.magnitude, true, false, rest⟩ := by
  have hradix := convertBase_mem hbase (s.mark ++ (s.digits ++ rest))
  rw [h.front.2] at hradix
  have hany : s.digits.isEmpty = false := isEmpty_eq_false_iff.mpr s.digits_ne
  rw [convertLoop_digits hradix.1 (by omega) s.digits_mem h.not_isDigit (Nat.zero_le _),
    magnitude_eq, hany]
  rfl

/-- `strtol` is right. -/
theorem Longest.strtol (h : s.Longest text) : Libc.strtol text base = s.asLong text := by
  obtain ⟨rest, rfl⟩ := h.1
  obtain ⟨hsign, hconv⟩ := h.front
  have hradix := convertBase_mem hbase (s.mark ++ (s.digits ++ rest))
  rw [hconv] at hradix
  simp only [Libc.strtol, hsign, hconv, asLong, value, drop_left]
  rw [if_neg (by omega), h.convertLoop hbase (by split <;> omega)]
  cases s.negative with
  | true =>
    by_cases hover : 2 ^ 63 < s.magnitude
    · simp only [if_pos hover, if_pos (show (-(s.magnitude : Int)) < -2 ^ 63 by omega), if_true]
    · simp only [if_neg hover, if_neg (show ¬(-(s.magnitude : Int)) < -2 ^ 63 by omega),
        if_neg (show ¬(2 ^ 63 - 1 < -(s.magnitude : Int)) by omega), if_true,
        long_neg (show s.magnitude ≤ 2 ^ 63 by omega)]
      simp
  | false =>
    simp only [Bool.false_eq_true, if_false]
    by_cases hover : 2 ^ 63 - 1 < s.magnitude
    · simp only [if_pos hover, if_neg (show ¬(s.magnitude : Int) < -2 ^ 63 by omega),
        if_pos (show 2 ^ 63 - 1 < (s.magnitude : Int) by omega), if_true]
    simp only [if_neg hover, if_neg (show ¬(s.magnitude : Int) < -2 ^ 63 by omega),
      if_neg (show ¬2 ^ 63 - 1 < (s.magnitude : Int) by omega), if_true,
      long_eq (show -2 ^ 63 ≤ (s.magnitude : Int) ∧ (s.magnitude : Int) < 2 ^ 63 by omega)]
    simp

/-- `strtoul` is right unless a number with a minus is too large. -/
theorem Longest.strtoul (h : s.Longest text) : Libc.strtoul text base = s.asUnsignedLong text ↔
    ¬(s.negative = true ∧ 2 ^ 64 ≤ s.magnitude) := by
  obtain ⟨rest, rfl⟩ := h.1
  obtain ⟨hsign, hconv⟩ := h.front
  have hradix := convertBase_mem hbase (s.mark ++ (s.digits ++ rest))
  rw [hconv] at hradix
  simp only [Libc.strtoul, hsign, hconv, asUnsignedLong, value, drop_left]
  rw [if_neg (by omega), h.convertLoop hbase (by omega)]
  by_cases hover : 2 ^ 64 ≤ s.magnitude
  · rw [if_pos (show 2 ^ 64 - 1 < s.magnitude by omega), if_pos hover]
    cases s.negative with
    | true =>
      simp
      omega
    | false => simp
  rw [if_neg (show ¬2 ^ 64 - 1 < s.magnitude by omega), if_neg hover]
  cases s.negative with
  | true =>
    simp
    omega
  | false =>
    simp
    omega

end Subject

/--
Conversion of integers.  Let the base be 0 or from 2 to 36.  If no part of the text that begins with
it has the form of a subject sequence, both functions return 0 and the start of the text.
Otherwise, for the longest one, `strtol` returns the number denoted or the nearest one there is,
with the end behind the digits. `strtoul` does so too, with numbers behind a minus negated modulo
`2^64`, unless such a number is out of range.
-/
theorem strtol_strtoul_iff
    (hbase : base = 0 ∨ 2 ≤ base ∧ base ≤ 36)
    (text : List Char) :
    ((∀ s : Subject base, ¬s.text <+: text) →
      strtol text base = ⟨0, text, none⟩ ∧ strtoul text base = ⟨0, text, none⟩) ∧
    ((∃ s : Subject base, s.text <+: text) → ∃ s : Subject base, s.Longest text) ∧
    ∀ s : Subject base, s.Longest text → strtol text base = s.asLong text ∧
      (strtoul text base = s.asUnsignedLong text ↔ ¬(s.negative = true ∧ 2 ^ 64 ≤ s.magnitude)) :=
  ⟨convert_none hbase, fun ⟨_, hs⟩ => exists_longest hs,
    fun _ hs => ⟨hs.strtol hbase, hs.strtoul hbase⟩⟩

/-- A number behind a minus, that is all of a text. -/
def negated
    (digits : List Char)
    (hne : digits ≠ [])
    (hdig : ∀ c ∈ digits, (convertDigit c 10).isSome = true) : Subject 10 where
  spaces := [' ']
  sign := ['-']
  mark := []
  digits := digits
  radix := 10
  spaces_mem := by simp [isspace]
  sign_mem := by simp
  digits_ne := hne
  digits_mem := fun c hc => isSome_convertDigit.mp (hdig c hc)
  radix_mem := by simp

theorem longest_self (s : Subject base) : s.Longest s.text :=
  ⟨prefix_refl _, fun _ h => h.length_le⟩

/-- The text ` -42`. -/
theorem strtol_strtoul_iff_fortyTwo :
    let s := negated ['4', '2'] (by simp) (all_eq_true.mp (by decide))
    strtol s.text 10 = ⟨-42, [], none⟩ ∧ strtoul s.text 10 = ⟨2 ^ 64 - 42, [], none⟩ := by
  intro s
  obtain ⟨hsigned, hunsigned⟩ :=
    (strtol_strtoul_iff (.inr ⟨by decide, by decide⟩) s.text).2.2 s (longest_self s)
  exact ⟨hsigned.trans (by decide), (hunsigned.mpr (by decide)).trans (by decide)⟩

/-- The text ` -18446744073709551616`: 1 is returned, not the greatest number. -/
theorem strtoul_wraps_overflow :
    let s := negated
      ['1', '8', '4', '4', '6', '7', '4', '4', '0', '7', '3', '7', '0', '9', '5', '5', '1', '6',
        '1', '6'] (by simp) (all_eq_true.mp (by decide))
    s.Longest s.text ∧ s.asUnsignedLong s.text = ⟨2 ^ 64 - 1, [], some .erange⟩ ∧
    strtoul s.text 10 = ⟨1, [], some .erange⟩ :=
  ⟨longest_self _, by decide, by decide⟩

end Convert

end PureCOS.Libc
