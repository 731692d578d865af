import PureCOS.Libc.Strtol

/-!
# Formatted input

`scan_core` of `src/libc/scanf.c`.  Format and input are the lists of their characters before the
NUL, and a pointer into the input is its distance from the beginning.  What is stored through the
arguments is the list of the values in the order of the arguments; the first conversion that does
not match ends the scan.

`strtod` is a parameter: a value, and how many characters of the text belong to it.

The scan looks ahead of the place where it stops, but never by more than 127 characters, which is
what the array of the conversion for floating point holds.
-/

namespace PureCOS.Scanf

open Libc (isspace)

structure Strtod (F : Type) where
  value : List Char → F
  used : List Char → Nat
  used_le : ∀ text, used text ≤ text.length

inductive Length where
  | int | char | short | long | llong | size | ldouble
deriving DecidableEq

/-- What is stored through an argument. -/
inductive Stored (F : Type) where
  | integer (bits value : Nat)
  | real (length : Length) (value : F)
  | text (chars : List Char)
  | chars (chars : List Char)
deriving DecidableEq

/-- The size of the integer that `store_integer` writes. -/
def Length.bits : Length → Nat
  | .char => 8
  | .short => 16
  | .long | .llong | .size => 64
  | .int | .ldouble => 32

/-- `store_integer`; a signed integer has the same bits. -/
def storeInteger {F : Type} (length : Length) (value : Nat) : Stored F :=
  .integer length.bits (value % 2 ^ length.bits)

def digitValue (c : Char) : Nat :=
  if '0'.toNat ≤ c.toNat ∧ c.toNat ≤ '9'.toNat then c.toNat - '0'.toNat
  else if 'a'.toNat ≤ c.toNat ∧ c.toNat ≤ 'f'.toNat then c.toNat - 'a'.toNat + 10
  else if 'A'.toNat ≤ c.toNat ∧ c.toNat ≤ 'F'.toNat then c.toNat - 'A'.toNat + 10
  else 99

/-- The loop of `in_set` -/
def found (c : Char) : List Char → Bool
  | a :: '-' :: b :: set =>
    (decide (a.toNat ≤ c.toNat) && decide (c.toNat ≤ b.toNat)) || found c set
  | a :: set => a == c || found c set
  | [] => false

def inSet (set : List Char) (negate : Bool) (c : Char) : Bool := found c set != negate

/-! ## Conversions -/

/-- What a conversion takes from the input and stores, and whether the scan goes on. -/
structure Taken (F : Type) where
  used : Nat
  stored : Option (Stored F)
  matched : Bool

/-- A conversion that takes nothing. -/
def Taken.nothing {F : Type} : Taken F := ⟨0, none, false⟩

/-- The characters in front of the first that is refused, within the limit. -/
def run (accept : Char → Bool) (limit : Nat) (p : List Char) : List Char :=
  (p.take limit).takeWhile accept

/-- How many characters the sign of a number has. -/
def signLength (limit : Nat) (p : List Char) : Nat :=
  if 0 < limit ∧ (p.head? = some '-' ∨ p.head? = some '+') then 1 else 0

/-- `0x` or `0X` in front of a digit -/
def marked : List Char → Bool
  | '0' :: x :: h :: _ => (x == 'x' || x == 'X') && decide (digitValue h < 16)
  | _ => false

/-- The base that a conversion names; 0 is for `i`. -/
def baseOf (conv : Char) : Nat :=
  if conv = 'o' then 8 else if conv = 'x' ∨ conv = 'X' ∨ conv = 'p' then 16
    else if conv = 'i' then 0 else 10

/-- Whether the digits have the mark of base 16. -/
def hexadecimal (base limit : Nat) (p : List Char) : Bool :=
  decide ((base = 0 ∨ base = 16) ∧ signLength limit p + 1 < limit) && marked
    (p.drop (signLength limit p))

/-- How many characters are in front of the digits. -/
def integerHead (base limit : Nat) (p : List Char) : Nat :=
  signLength limit p + if hexadecimal base limit p then 2 else 0

/-- The base of the digits. -/
def integerBase (base limit : Nat) (p : List Char) : Nat :=
  if hexadecimal base limit p then 16
  else if base = 0 then if (p.drop (signLength limit p)).head? = some '0' then 8 else 10
  else base

/-- The conversions for integers and pointers. -/
def scanInteger {F : Type} (conv : Char) (length : Length) (limit : Nat) (p : List Char) :
    Taken F :=
  let head := integerHead (baseOf conv) limit p
  let base := integerBase (baseOf conv) limit p
  let digits := run (fun c => decide (digitValue c < base)) (limit - head) (p.drop head)
  if digits = [] then .nothing
  else
    let magnitude := digits.foldl (fun value c => (value * base + digitValue c) % 2 ^ 64) 0
    let value := if 0 < limit ∧ p.head? = some '-' then (2 ^ 64 - magnitude) % 2 ^ 64 else magnitude
    ⟨head + digits.length, some (if conv = 'p' then .integer 64 value
      else storeInteger length value), true⟩

/-- The loop that fills the array; `room` is what is left of the array and of the field. -/
def floatLoop : Nat → Char → List Char → List Char
  | 0, _, _ => []
  | _, _, [] => []
  | room + 1, before, c :: q =>
    if c.isDigit || c == '.' || c == 'e' || c == 'E' ||
      ((c == '-' || c == '+') && (before == 'e' || before == 'E')) then
      c :: floatLoop room c q
    else []

/-- The array for `strtod`, of 128 characters with the NUL. -/
def floatText (limit : Nat) : List Char → List Char
  | [] => []
  | c :: q =>
    if 0 < limit ∧ (c = '-' ∨ c = '+') then c :: floatLoop (min limit 127 - 1) c q
    else floatLoop (min limit 127) c (c :: q)

/-- The conversions for floating point. -/
def scanFloat {F : Type} (strtod : Strtod F) (length : Length) (limit : Nat) (p : List Char) :
    Taken F :=
  let text := floatText limit p
  if strtod.used text = 0 then .nothing
    else ⟨strtod.used text, some (.real length (strtod.value text)), true⟩

/-- The conversions `s` and `[`. -/
def scanRun {F : Type} (accept : Char → Bool) (limit : Nat) (p : List Char) : Taken F :=
  if run accept limit p = [] then .nothing
  else ⟨(run accept limit p).length, some (.text (run accept limit p)), true⟩

/-- The conversion `c`; what there was is stored even if there was not enough. -/
def scanChars {F : Type} (count : Nat) (p : List Char) : Taken F :=
  if p.length < count then ⟨p.length, some (.chars p), false⟩
    else ⟨count, some (.chars (p.take count)), true⟩

/-- The set behind `[`: whether it is negated, its characters and what follows. -/
def parseSet (format : List Char) : Bool × List Char × List Char :=
  let (negate, format) : Bool × List Char :=
    match format with
    | '^' :: format => (true, format)
    | format => (false, format)
  let (first, format) : List Char × List Char :=
    match format with
    | ']' :: format => ([']'], format)
    | format => ([], format)
  (negate, first ++ format.takeWhile (· != ']'), (format.dropWhile (· != ']')).drop 1)

/-- The conversions other than `n`, with the format that follows. -/
def convert {F : Type} (strtod : Strtod F) (conv : Char) (width : Nat) (length : Length)
    (format p : List Char) : Taken F × List Char :=
  let limit := if width = 0 then 2 ^ 64 - 1 else width
  if conv ∈ ['d', 'i', 'u', 'o', 'x', 'X', 'p'] then (scanInteger conv length limit p, format)
  else if conv ∈ ['f', 'e', 'E', 'g', 'G', 'a'] then (scanFloat strtod length limit p, format)
  else if conv = 's' then (scanRun (fun c => !isspace c) limit p, format)
  else if conv = 'c' then (scanChars (if width = 0 then 1 else width) p, format)
  else if conv = '[' then
    let (negate, set, format) := parseSet format
    (scanRun (inSet set negate) limit p, format)
  else (.nothing, format)

/-! ## The scan -/

/-- The variables of `scan_core`. -/
structure Scan (F : Type) where
  position : Nat := 0
  assigned : Int := 0
  anyInput : Bool := false
  stored : List (Stored F) := []

/-- The flag for a conversion without an argument -/
def parseSuppress : List Char → Bool × List Char
  | '*' :: format => (true, format)
  | format => (false, format)

/-- The loop over the digits of the width -/
def parseWidth : Nat → List Char → Nat × List Char
  | width, [] => (width, [])
  | width, c :: format =>
    if c.isDigit then parseWidth ((width * 10 + (c.toNat - '0'.toNat)) % 2 ^ 64) format
      else (width, c :: format)

/-- The length modifier -/
def parseLength : List Char → Length × List Char
  | 'h' :: 'h' :: format => (.char, format)
  | 'h' :: format => (.short, format)
  | 'l' :: 'l' :: format => (.llong, format)
  | 'l' :: format => (.long, format)
  | 'z' :: format => (.size, format)
  | 'j' :: format => (.size, format)
  | 't' :: format => (.size, format)
  | 'L' :: format => (.ldouble, format)
  | format => (.int, format)

section Code

variable {F : Type} (strtod : Strtod F)

/-- A conversion has been made. -/
def Scan.add (st : Scan F) (suppress : Bool) (taken : Taken F) : Scan F where
  position := st.position + taken.used
  assigned := if taken.matched && !suppress then st.assigned + 1 else st.assigned
  anyInput := st.anyInput || taken.matched
  stored := st.stored ++ if suppress then [] else taken.stored.toList

/-- White space is skipped. -/
def Scan.skip (st : Scan F) (p : List Char) : Scan F :=
  { st with position := st.position + (p.takeWhile isspace).length }

/-- A character of the format that stands for itself. -/
def literal (c : Char) (format p : List Char) (st : Scan F) : Scan F × Option (List Char) :=
  if p.head? = some c then ({ st with position := st.position + 1 }, some format) else (st, none)

/-- A conversion other than `n`, behind the white space: the end of the input is noticed first. -/
def conversion (conv : Char) (suppress : Bool) (width : Nat) (length : Length)
    (format p : List Char) (st : Scan F) : Scan F × Option (List Char) :=
  if p = [] then
    ({ st with
      assigned := if st.anyInput = false ∧ st.assigned = 0 then -1 else st.assigned }, none)
  else
    let (taken, format) := convert strtod conv width length format p
    (st.add suppress taken, if taken.matched then some format else none)

/-- A directive, from behind the percent sign. -/
def directive (format p : List Char) (st : Scan F) : Scan F × Option (List Char) :=
  let (suppress, format) := parseSuppress format
  let (width, format) := parseWidth 0 format
  let (length, format) := parseLength format
  match format with
  | [] => (st, none)
  | conv :: format =>
    if conv = 'n' then
      (if suppress then st
        else { st with stored := st.stored ++ [storeInteger length st.position] }, some format)
    else if conv = 'c' ∨ conv = '[' then conversion strtod conv suppress width length format p st
    else conversion strtod conv suppress width length format (p.dropWhile isspace) (st.skip p)

/-- A round of the loop of `scan_core`: the format that is left, unless the scan is done. -/
def scanStep (c : Char) (format p : List Char) (st : Scan F) : Scan F × Option (List Char) :=
  if isspace c then (st.skip p, some format)
  else if c ≠ '%' then literal c format p st
  else if format.head? = some '%' then literal '%' format.tail p st
  else directive strtod format p st

/-- The loop of `scan_core`; every round takes at least one character of the format. -/
def scanLoop (input : List Char) : Nat → List Char → Scan F → Scan F
  | 0, _, st => st
  | _, [], st => st
  | rounds + 1, c :: format, st =>
    match scanStep strtod c format (input.drop st.position) st with
    | (st, none) => st
    | (st, some format) => scanLoop input rounds format st

/-- `scan_core`; `*consumed` is the position. -/
def scanCore (input format : List Char) : Scan F := scanLoop strtod input format.length format {}

/-- `vsscanf`: the result, and what is stored. -/
def vsscanf (input format : List Char) : Int × List (Stored F) :=
  ((scanCore strtod input format).assigned, (scanCore strtod input format).stored)

end Code

end PureCOS.Scanf
