import Mathlib.Data.Nat.Digits.Defs

/-!
# Formatted output of integers

`format_core` of `src/libc/stdio.c` and the integer conversions under it, into the bounded sink of
`vsnprintf`.  A format is the list of its characters before the NUL.  Each argument is a slot of 64
bits, of which an `int` takes the lower 32.

An array of 64 characters holds the digits of a number; what is written behind its end has no
defined result, which is `none` here.  The conversions that are not for integers (`c`, `s`, `p`, `n`
and the ones for floating point) are a parameter: the text they put, and the arguments they leave.

The second part states what the C standard (7.19.6.1) prescribes for an integer conversion, without
the code.
-/

namespace PureCOS.Printf

open List

/-- Conversion to `int` -/
def int (x : Int) : Int := (x + 2 ^ 31) % 2 ^ 32 - 2 ^ 31

/-! ## The sink -/

/--
`struct fmt_sink` of `vsnprintf`: the characters that are stored, and the number of all that were
put.
-/
structure Sink where
  capacity : Nat
  stored : List Char
  length : Nat

def Sink.putc (s : Sink) (c : Char) : Sink where
  capacity := s.capacity
  stored := if s.length + 1 < s.capacity then s.stored ++ [c] else s.stored
  length := s.length + 1

/-- Characters that are put one after the other. -/
def Sink.write (s : Sink) (text : List Char) : Sink := text.foldl Sink.putc s

/-! ## Numbers -/

def alphabet (upper : Bool) (digit : Nat) : Char :=
  (if upper then "0123456789ABCDEF".toList else "0123456789abcdef".toList).getD digit '0'

/-- The digits of a number, least first; 64 bits have at most 64 of them. -/
def digitLoop (base : Nat) : Nat → Nat → List Nat
  | 0, _ => []
  | rounds + 1, value =>
    if value = 0 then [] else value % base :: digitLoop base rounds (value / base)

/-- The array `digits` before it is filled up to the precision. -/
def rawDigits (base : Nat) (upper : Bool) (value : Nat) (precision : Int) : List Char :=
  if value = 0 then if precision ≠ 0 then ['0'] else []
  else (digitLoop base 64 value).map (alphabet upper)

/-- The array is filled up to the precision and put, last digit first. -/
def fillDigits (digits : List Char) (precision : Int) : Option (List Char) :=
  if 64 < max digits.length precision.toNat then none
  else some (digits ++ replicate (precision.toNat - digits.length) '0').reverse

/-- What is put for a number with a sign or prefix, padded to the width. -/
def pad (head digits : List Char) (width precision : Int) (left zero : Bool) : List Char :=
  let total : Int := head.length + digits.length
  let fill := if total < width then (width - total).toNat else 0
  if left then head ++ digits ++ replicate fill ' '
  else if zero && decide (precision < 0) then head ++ replicate fill '0' ++ digits
  else replicate fill ' ' ++ head ++ digits

def formatUnsigned (value base : Nat) (upper : Bool) (width precision : Int)
    (left zero alternate : Bool) : Option (List Char) :=
  let digits := rawDigits base upper value precision
  let head :=
    if alternate && base == 16 && digits != [] then if upper then ['0', 'X'] else ['0', 'x']
    else if alternate && base == 8 && digits.getLast? != some '0' then ['0']
    else []
  (fillDigits digits precision).map fun digits => pad head digits width precision left zero

def formatSigned (value : Int) (width precision : Int) (left zero plus space : Bool) :
    Option (List Char) :=
  let digits := rawDigits 10 false value.natAbs precision
  let head := if value < 0 then ['-'] else if plus then ['+'] else if space then [' '] else []
  (fillDigits digits precision).map fun digits => pad head digits width precision left zero

/-! ## Directives -/

/-- The length modifiers, with their numbers in `format_core`. -/
inductive Length where
  | none | h | hh | l | ll | j | z | t
deriving DecidableEq

/-- What `format_core` knows of a directive when it comes to its conversion. -/
structure Parsed where
  left : Bool := false
  plus : Bool := false
  space : Bool := false
  alternate : Bool := false
  zero : Bool := false
  width : Int := 0
  precision : Int := -1
  length : Length := .none

/-- An argument in the `va_list`. -/
abbrev Slot := BitVec 64

/-- `va_arg(args, int)` -/
def vaInt (slot : Slot) : Int := (slot.setWidth 32).toInt

/-- The loop over the flags -/
def parseFlags (q : Parsed) : List Char → Parsed × List Char
  | '-' :: p => parseFlags { q with left := true } p
  | '+' :: p => parseFlags { q with plus := true } p
  | ' ' :: p => parseFlags { q with space := true } p
  | '#' :: p => parseFlags { q with alternate := true } p
  | '0' :: p => parseFlags { q with zero := true } p
  | p => (q, p)

/-- The value of a digit. -/
def decimal (c : Char) : Option Nat :=
  if '0'.toNat ≤ c.toNat ∧ c.toNat ≤ '9'.toNat then some (c.toNat - '0'.toNat) else none

/-- The loops over the digits of width and precision -/
def parseDigits : Int → List Char → Int × List Char
  | n, [] => (n, [])
  | n, c :: p =>
    match decimal c with
    | none => (n, c :: p)
    | some d => parseDigits (int (n * 10 + d)) p

/-- The width if it is in the format, and whether it is an argument. -/
def parseWidth : List Char → (Int × Bool) × List Char
  | '*' :: p => ((0, true), p)
  | p => (((parseDigits 0 p).1, false), (parseDigits 0 p).2)

/-- The precision; the one that is an argument is taken at once. -/
def parsePrecision : List Char → List Slot → Int × List Char × List Slot
  | '.' :: '*' :: p, args => (vaInt (args.headD 0), p, args.tail)
  | '.' :: p, args => ((parseDigits 0 p).1, (parseDigits 0 p).2, args)
  | p, args => (-1, p, args)

/-- The length modifier -/
def parseLength : List Char → Length × List Char
  | 'h' :: 'h' :: p => (.hh, p)
  | 'h' :: p => (.h, p)
  | 'l' :: 'l' :: p => (.ll, p)
  | 'l' :: p => (.l, p)
  | 'j' :: p => (.j, p)
  | 'z' :: p => (.z, p)
  | 't' :: p => (.t, p)
  | p => (.none, p)

/-- The width that is an argument is taken after the precision. -/
def takeWidth (star : Bool) (q : Parsed) (args : List Slot) : Parsed × List Slot :=
  if star then
    let width := vaInt (args.headD 0)
    (if width < 0 then { q with width := int (-width), left := true }
      else { q with width := width }, args.tail)
  else (q, args)

/-- `format_core` from behind a percent sign up to the conversion. -/
def parseDirective (p : List Char) (args : List Slot) : Parsed × List Char × List Slot :=
  let (q, p) := parseFlags {} p
  let ((width, star), p) := parseWidth p
  let (precision, p, args) := parsePrecision p args
  let (length, p) := parseLength p
  let (q, args) :=
    takeWidth star { q with width := width, precision := precision, length := length } args
  ({ q with precision := if q.precision < 0 then -1 else q.precision }, p, args)

/-- The value that `va_arg` gives for a signed conversion. -/
def signedArg (length : Length) (slot : Slot) : Int :=
  match length with
  | .ll | .j | .l | .z | .t => slot.toInt
  | .none | .h | .hh => vaInt slot

/-- The value that `va_arg` gives for an unsigned conversion. -/
def unsignedArg (length : Length) (slot : Slot) : Nat :=
  match length with
  | .ll | .j | .l | .z | .t => slot.toNat
  | .none | .h | .hh => (slot.setWidth 32).toNat

/-- The conversions that are not for integers. -/
abbrev Others := Char → Parsed → List Slot → Option (List Char) × List Slot

/-- The switch over the conversions. -/
def convert (others : Others) (spec : Char) (q : Parsed) (args : List Slot) :
    Option (List Char) × List Slot :=
  if spec = 'd' ∨ spec = 'i' then
    (formatSigned (signedArg q.length (args.headD 0)) q.width q.precision q.left q.zero q.plus
      q.space, args.tail)
  else if spec = 'u' ∨ spec = 'o' ∨ spec = 'x' ∨ spec = 'X' then
    (formatUnsigned (unsignedArg q.length (args.headD 0)) (if spec = 'o' then 8 else if spec =
      'u' then 10 else 16) (spec == 'X') q.width q.precision q.left q.zero q.alternate, args.tail)
  else if spec = '%' then (some ['%'], args)
  else others spec q args

/-- The loop of `format_core`; every round takes at least one character of the format. -/
def formatLoop (others : Others) : Nat → List Char → List Slot → Sink → Option Sink
  | 0, _, _, sink => some sink
  | _ + 1, [], _, sink => some sink
  | rounds + 1, c :: p, args, sink =>
    if c ≠ '%' then formatLoop others rounds p args (sink.putc c)
    else
      match parseDirective p args with
      | (_, [], _) => some sink
      | (q, spec :: p, args) =>
        match convert others spec q args with
        | (none, _) => none
        | (some text, args) => formatLoop others rounds p args (sink.write text)

/--
What `vsnprintf` leaves: the text in front of the NUL, if there is a buffer, and the return value.
-/
structure Printed where
  text : Option (List Char)
  returned : Int
deriving DecidableEq

/-- The end of `vsnprintf` -/
def Sink.close (s : Sink) : Printed :=
  ⟨if s.capacity = 0 then none else some s.stored, int s.length⟩

def vsnprintf (others : Others) (capacity : Nat) (format : List Char) (args : List Slot) :
    Option Printed :=
  (formatLoop others format.length format args ⟨capacity, [], 0⟩).map Sink.close

/-! ## What is prescribed -/

inductive Flag where
  | minus | plus | space | hash | zero
deriving DecidableEq

def Flag.char : Flag → Char
  | .minus => '-'
  | .plus => '+'
  | .space => ' '
  | .hash => '#'
  | .zero => '0'

/-- Decimal digits. -/
abbrev Numeral := List (Fin 10)

def Numeral.text (n : Numeral) : List Char := n.map fun d => Char.ofNat (48 + d.val)

def Numeral.value (n : Numeral) : Nat := n.foldl (fun value d => value * 10 + d.val) 0

/-- A field width is a numeral that does not begin with 0, which would be a flag, or an asterisk. -/
inductive Width where
  | none
  | digits (n : Numeral) (nonzero : ∃ d, n.head? = some d ∧ d.val ≠ 0)
  | star

/-- A precision is a period with a numeral, which may be empty, or an asterisk. -/
inductive Precision where
  | none
  | digits (n : Numeral)
  | star

inductive Conversion where
  | d | i | u | o | x | X
deriving DecidableEq

def Conversion.char : Conversion → Char
  | .d => 'd'
  | .i => 'i'
  | .u => 'u'
  | .o => 'o'
  | .x => 'x'
  | .X => 'X'

def Conversion.signed : Conversion → Bool
  | .d | .i => true
  | _ => false

def Conversion.base : Conversion → Nat
  | .o => 8
  | .x | .X => 16
  | _ => 10

def Length.text : Length → List Char
  | .none => []
  | .h => ['h']
  | .hh => ['h', 'h']
  | .l => ['l']
  | .ll => ['l', 'l']
  | .j => ['j']
  | .z => ['z']
  | .t => ['t']

/-- The number of bits of the type that a length modifier names. -/
def Length.bits : Length → Nat
  | .hh => 8
  | .h => 16
  | .none => 32
  | _ => 64

/-- The digits of a number, at least as many as the precision. -/
def minimal (base : Nat) (upper : Bool) (precision : Option Nat) (magnitude : Nat) : List Char :=
  let digits := (Nat.digits base magnitude).reverse.map (alphabet upper)
  replicate (precision.getD 1 - digits.length) '0' ++ digits

/--
Sign or prefix and number in a field: spaces on the right, zeros in front of the number, or spaces
on the left.
-/
def justify (head number : List Char) (width : Nat) (left zero : Bool) : List Char :=
  let fill := width - (head.length + number.length)
  if left then head ++ number ++ replicate fill ' '
  else if zero then head ++ replicate fill '0' ++ number
  else replicate fill ' ' ++ head ++ number

/-- A conversion specification. -/
structure Directive where
  flags : List Flag
  width : Width
  precision : Precision
  length : Length
  conversion : Conversion

namespace Directive

variable (d : Directive) (a b v : Slot)

def widthText : List Char :=
  match d.width with
  | .none => []
  | .digits n _ => n.text
  | .star => ['*']

def precisionText : List Char :=
  match d.precision with
  | .none => []
  | .digits n => '.' :: n.text
  | .star => ['.', '*']

/-- The specification in a format. -/
def text : List Char :=
  '%' :: (d.flags.map Flag.char ++
    (d.widthText ++ (d.precisionText ++ (d.length.text ++ [d.conversion.char]))))

/-- The arguments: `a` for the width, `b` for the precision and `v` for the value. -/
def args : List Slot :=
  (match d.width with
    | .star => [a]
    | _ => []) ++
  (match d.precision with
    | .star => [b]
    | _ => []) ++ [v]

/-- A negative width is a minus flag followed by a positive one. -/
def left : Bool :=
  d.flags.contains .minus ||
    match d.width with
    | .star => decide (vaInt a < 0)
    | _ => false

def widthValue : Nat :=
  match d.width with
  | .none => 0
  | .digits n _ => n.value
  | .star => (vaInt a).natAbs

/-- A negative precision is taken as if it were omitted. -/
def precisionValue : Option Nat :=
  match d.precision with
  | .none => none
  | .digits n => some n.value
  | .star => if vaInt b < 0 then none else some (vaInt b).toNat

/-- The argument is converted to the type that the length modifier names. -/
def value : Int :=
  if d.conversion.signed then (v.setWidth d.length.bits).toInt else (v.setWidth d.length.bits).toNat

/-- With `#` an octal number begins with 0. -/
def number : List Char :=
  let number :=
    minimal d.conversion.base (d.conversion == .X) (d.precisionValue b) (d.value v).natAbs
  if d.flags.contains .hash && d.conversion == .o && number.head? != some '0' then
    '0' :: number else number

/-- Sign or prefix. -/
def head : List Char :=
  if d.conversion.signed then
    if d.value v < 0 then ['-']
    else if d.flags.contains .plus then ['+']
    else if d.flags.contains .space then [' ']
    else []
  else if d.flags.contains .hash && d.value v != 0 then
    match d.conversion with
    | .x => ['0', 'x']
    | .X => ['0', 'X']
    | _ => []
  else []

/-- The characters of a conversion.  The flag `0` is ignored if there is a precision. -/
def prescribed : List Char :=
  justify (d.head v) (d.number b v) (d.widthValue a) (d.left a)
    (d.flags.contains .zero && (d.precisionValue b).isNone)

/-- What `vsnprintf` should leave in a buffer of a given capacity. -/
def printed (capacity : Nat) : Printed :=
  ⟨if capacity = 0 then none
    else some ((d.prescribed a b v).take (capacity - 1)), (d.prescribed a b v).length⟩

end Directive

end PureCOS.Printf
