import PureCOS.Libc.PrintfText

/-!
# Integer directives in `vsnprintf`

`format_core` takes a directive apart into its flags, width, precision and length modifier.  It
takes the precision from the arguments before the width, although the width comes first in the
format; so with two asterisks the two values are exchanged.
-/

namespace PureCOS.Printf

open List Option Directive

/-! ## Parts of a directive -/

section Parts

variable {q : Parsed} {p rest : List Char} {c : Char}

/-- The flags of a directive. -/
def Parsed.flagged (q : Parsed) (flags : List Flag) : Parsed :=
  { q with
    left := q.left || flags.contains .minus
    plus := q.plus || flags.contains .plus
    space := q.space || flags.contains .space
    alternate := q.alternate || flags.contains .hash
    zero := q.zero || flags.contains .zero }

theorem parseFlags_stop (h : c ≠ '-' ∧ c ≠ '+' ∧ c ≠ ' ' ∧ c ≠ '#' ∧ c ≠ '0') :
    parseFlags q (c :: p) = (q, c :: p) := by
  obtain ⟨h₁, h₂, h₃, h₄, h₅⟩ := h
  rw [parseFlags.eq_def]
  split <;> simp_all

theorem parseFlags_flags (flags : List Flag) (h : ∀ q, parseFlags q rest = (q, rest)) :
    parseFlags q (flags.map Flag.char ++ rest) = (q.flagged flags, rest) := by
  induction flags generalizing q with
  | nil => simp [h, Parsed.flagged]
  | cons f flags ih => cases f <;> simp [Flag.char, parseFlags, ih, Parsed.flagged]

theorem parseDigits_stop (h : decimal c = none) (n : Int) :
    parseDigits n (c :: p) = (n, c :: p) := by
  rw [parseDigits, h]

theorem decimal_digit (d : Fin 10) : decimal (Char.ofNat (48 + d.val)) = some d.val := by
  revert d
  decide

theorem int_step (x d : Int) : int (int x * 10 + d) = int (x * 10 + d) := by
  unfold int
  omega

/-- The digits of a number that wraps like `int`. -/
theorem parseDigits_numeral (n : Numeral) (h : ∀ x, parseDigits x rest = (x, rest)) (x : Nat) :
    parseDigits (int x) (n.text ++ rest) =
      (int (n.foldl (fun value d => value * 10 + d.val) x : Nat), rest) := by
  induction n generalizing x with
  | nil => exact h _
  | cons d n ih =>
    rw [Numeral.text, map_cons, cons_append, parseDigits, decimal_digit, foldl_cons]
    simp only
    rw [int_step, ← ih (x * 10 + d.val), Numeral.text]
    push_cast
    rfl

/-- A character that ends the digits of a number, and is no flag and no asterisk. -/
def Stops (c : Char) : Prop :=
  decimal c = none ∧ c ≠ '*' ∧ c ≠ '-' ∧ c ≠ '+' ∧ c ≠ ' ' ∧ c ≠ '#' ∧ c ≠ '0'

instance (c : Char) : Decidable (Stops c) := inferInstanceAs (Decidable (_ ∧ _))

/-- What follows the precision begins with a letter. -/
theorem letters (length : Length) (conversion : Conversion) (rest : List Char) :
    ∃ c p, length.text ++ conversion.char :: rest = c :: p ∧ Stops c ∧ c ≠ '.' := by
  cases length with
  | none => cases conversion <;> exact ⟨_, _, rfl, by decide, by decide⟩
  | h => exact ⟨_, _, rfl, by decide, by decide⟩
  | hh => exact ⟨_, _, rfl, by decide, by decide⟩
  | l => exact ⟨_, _, rfl, by decide, by decide⟩
  | ll => exact ⟨_, _, rfl, by decide, by decide⟩
  | j => exact ⟨_, _, rfl, by decide, by decide⟩
  | z => exact ⟨_, _, rfl, by decide, by decide⟩
  | t => exact ⟨_, _, rfl, by decide, by decide⟩

theorem parseLength_text (length : Length) (conversion : Conversion) (rest : List Char) :
    parseLength (length.text ++ conversion.char :: rest) = (length, conversion.char :: rest) := by
  cases length <;> cases conversion <;> rfl

theorem parseWidth_digits (hne : ∀ p', p ≠ '*' :: p') :
    parseWidth p = (((parseDigits 0 p).1, false), (parseDigits 0 p).2) := by
  rw [parseWidth.eq_def]
  split
  · exact absurd rfl (hne _)
  · rfl

theorem parsePrecision_digits (hne : ∀ p', p ≠ '*' :: p') (args : List Slot) :
    parsePrecision ('.' :: p) args = ((parseDigits 0 p).1, (parseDigits 0 p).2, args) := by
  rw [parsePrecision.eq_def]
  split
  · rename_i heq
    exact absurd (cons.inj heq).2 (hne _)
  · rename_i heq
    cases heq
    rfl
  · rename_i hdot
    exact absurd rfl (hdot p)

theorem parsePrecision_none (hdot : c ≠ '.') (args : List Slot) :
    parsePrecision (c :: p) args = (-1, c :: p, args) := by
  rw [parsePrecision.eq_def]
  split
  · rename_i heq
    exact absurd (cons.inj heq).1 hdot
  · rename_i heq
    exact absurd (cons.inj heq).1 hdot
  · rfl

/-- A numeral is no asterisk, even if it is empty. -/
theorem numeral_ne_star {n : Numeral} (hrest : ∀ p', rest ≠ '*' :: p') (p : List Char) :
    n.text ++ rest ≠ '*' :: p := by
  cases n with
  | nil => exact hrest p
  | cons d n =>
    intro h
    have hchar : ∀ d : Fin 10, Char.ofNat (48 + d.val) ≠ '*' := by decide
    exact hchar d (cons.inj h).1

theorem parseDigits_text (n : Numeral) (h : ∀ x, parseDigits x rest = (x, rest)) :
    parseDigits 0 (n.text ++ rest) = (int n.value, rest) :=
  parseDigits_numeral n h 0

end Parts

/-! ## A directive -/

section Whole

variable {d : Directive} {a b v : Slot} {rest : List Char}

/-- Width and precision are both arguments. -/
def Directive.TwoStars (d : Directive) : Prop := d.width = .star ∧ d.precision = .star

/-- What follows the width. -/
theorem stops_precision (d : Directive) (rest : List Char) :
    ∃ c p, d.precisionText ++ (d.length.text ++ d.conversion.char :: rest) = c :: p ∧ Stops c := by
  obtain ⟨flags, width, precision, length, conversion⟩ := d
  cases precision with
  | none =>
    obtain ⟨c, p, hletters, hstops, -⟩ := letters length conversion rest
    exact ⟨c, p, hletters, hstops⟩
  | digits n => exact ⟨_, _, rfl, by decide⟩
  | star => exact ⟨_, _, rfl, by decide⟩

theorem parsePrecision_text (d : Directive) (rest : List Char) (args : List Slot) :
    parsePrecision (d.precisionText ++ (d.length.text ++ d.conversion.char :: rest)) args =
      match d.precision with
      | .none => (-1, d.length.text ++ d.conversion.char :: rest, args)
      | .digits n => (int n.value, d.length.text ++ d.conversion.char :: rest, args)
      | .star => (vaInt (args.headD 0), d.length.text ++ d.conversion.char :: rest, args.tail) := by
  obtain ⟨flags, width, precision, length, conversion⟩ := d
  obtain ⟨c, p, hletters, ⟨hdecimal, hstar, -⟩, hdot⟩ := letters length conversion rest
  cases precision with
  | none =>
    show parsePrecision (length.text ++ conversion.char :: rest) args = _
    rw [hletters, parsePrecision_none hdot]
  | digits n =>
    have hends : ∀ x, parseDigits x (c :: p) = (x, c :: p) := parseDigits_stop hdecimal
    have hnot : ∀ p', c :: p ≠ '*' :: p' := fun p' h => hstar (cons.inj h).1
    show parsePrecision ('.' :: (n.text ++ (length.text ++ conversion.char :: rest))) args = _
    rw [hletters, parsePrecision_digits (numeral_ne_star hnot), parseDigits_text n hends]
  | star => rfl

/-- No flag follows the flags. -/
theorem parseFlags_width (d : Directive) (rest : List Char) (q : Parsed) : parseFlags q
    (d.widthText ++ (d.precisionText ++ (d.length.text ++ d.conversion.char :: rest))) =
    (q, d.widthText ++ (d.precisionText ++ (d.length.text ++ d.conversion.char :: rest))) := by
  obtain ⟨c, p, hafter, -, -, hflags⟩ := stops_precision d rest
  rw [hafter]
  obtain ⟨flags, width, precision, length, conversion⟩ := d
  cases width with
  | none => exact parseFlags_stop hflags
  | digits n hn =>
    obtain ⟨first, hfirst, hne⟩ := hn
    cases n with
    | nil => cases hfirst
    | cons d n =>
      cases hfirst
      have hall : ∀ d : Fin 10, d.val ≠ 0 → Char.ofNat (48 + d.val) ≠ '-' ∧
          Char.ofNat (48 + d.val) ≠ '+' ∧ Char.ofNat (48 + d.val) ≠ ' ' ∧
          Char.ofNat (48 + d.val) ≠ '#' ∧ Char.ofNat (48 + d.val) ≠ '0' := by
        decide
      exact parseFlags_stop (hall _ hne)
  | star => exact parseFlags_stop (by decide)

theorem parseWidth_text (d : Directive) (rest : List Char) :
    parseWidth (d.widthText ++ (d.precisionText ++ (d.length.text ++ d.conversion.char :: rest))) =
      (match d.width with
        | .none => (0, false)
        | .digits n _ => (int n.value, false)
        | .star => (0, true), d.precisionText ++ (d.length.text ++ d.conversion.char :: rest)) := by
  obtain ⟨c, p, hafter, hdecimal, hstar, -⟩ := stops_precision d rest
  have hends : ∀ x, parseDigits x (c :: p) = (x, c :: p) := parseDigits_stop hdecimal
  have hnot : ∀ p', c :: p ≠ '*' :: p' := fun p' h => hstar (cons.inj h).1
  rw [hafter]
  obtain ⟨flags, width, precision, length, conversion⟩ := d
  cases width with
  | none =>
    show parseWidth (c :: p) = _
    rw [parseWidth_digits hnot, hends]
  | digits n hn =>
    show parseWidth (n.text ++ c :: p) = _
    rw [parseWidth_digits (numeral_ne_star hnot), parseDigits_text n hends]
  | star => rfl

/-- What is known at the conversion: with two asterisks the values are exchanged. -/
theorem parseDirective_text (d : Directive) (a b v : Slot) (rest : List Char) :
    ∃ q, parseDirective (d.flags.map Flag.char ++ (d.widthText ++ (d.precisionText ++
        (d.length.text ++ d.conversion.char :: rest)))) (d.args a b v) =
        (q, d.conversion.char :: rest, [v]) ∧
      (d.TwoStars → q = d.parsed b a) ∧ (¬d.TwoStars → q = d.parsed a b) := by
  have hflags := parseFlags_flags (q := {}) d.flags (parseFlags_width d rest)
  have hlen := parseLength_text d.length d.conversion rest
  unfold parseDirective
  simp only [hflags, parseWidth_text, parsePrecision_text]
  obtain ⟨flags, width, precision, length, conversion⟩ := d
  cases width with
  | none | digits =>
    refine ⟨_, ?_, fun h => (by cases h.1), fun _ => rfl⟩
    cases precision <;>
      simp [hlen, takeWidth, Parsed.flagged, parsed, left, codeWidth, codePrecision, args]
  | star =>
    cases precision with
    | star =>
      refine ⟨_, ?_, fun _ => rfl, fun h => absurd ⟨rfl, rfl⟩ h⟩
      by_cases hneg : vaInt b < 0 <;>
        simp [hneg, hlen, takeWidth, Parsed.flagged, parsed, left, codeWidth, codePrecision, args]
    | none | digits =>
      refine ⟨_, ?_, fun h => (by cases h.2), fun _ => rfl⟩
      by_cases hneg : vaInt a < 0 <;>
        simp [hneg, hlen, takeWidth, Parsed.flagged, parsed, left, codeWidth, codePrecision, args]

/-- The sink stores what fits and counts everything. -/
theorem write_eq (capacity : Nat) (before text : List Char) :
    Sink.write ⟨capacity, before.take (capacity - 1), before.length⟩ text =
      ⟨capacity, (before ++ text).take (capacity - 1), (before ++ text).length⟩ := by
  induction text generalizing before with
  | nil => simp [Sink.write]
  | cons c text ih =>
    have hput : Sink.putc ⟨capacity, before.take (capacity - 1), before.length⟩ c =
        ⟨capacity, (before ++ [c]).take (capacity - 1), (before ++ [c]).length⟩ := by
      unfold Sink.putc
      simp only [length_append, length_singleton]
      split
      · rw [take_of_length_le (by omega), take_of_length_le (by rw [length_append]; simp; omega)]
      · rw [take_append_of_le_length (by omega)]
    rw [Sink.write, foldl_cons, hput, ← Sink.write, ih, append_assoc, singleton_append]

theorem formatLoop_nil (others : Others) (rounds : Nat) (args : List Slot) (sink : Sink) :
    formatLoop others rounds [] args sink = some sink := by
  cases rounds with
  | zero => rfl
  | succ rounds => rfl

/-- What `vsnprintf` leaves of a text. -/
def leave (capacity : Nat) (text : List Char) : Printed :=
  ⟨if capacity = 0 then none else some (text.take (capacity - 1)), int text.length⟩

/-- A format that is one directive. -/
theorem vsnprintf_text (others : Others) (d : Directive) (a b v : Slot) (capacity : Nat) :
    (d.TwoStars →
      vsnprintf others capacity d.text (d.args a b v) = (d.core b a v).map (leave capacity)) ∧
    (¬d.TwoStars →
      vsnprintf others capacity d.text (d.args a b v) = (d.core a b v).map (leave capacity)) := by
  obtain ⟨q, hparse, htwo, hother⟩ := parseDirective_text d a b v []
  have hrun : vsnprintf others capacity d.text (d.args a b v) =
      (convert others d.conversion.char q [v]).1.map (leave capacity) := by
    rw [vsnprintf, text, length_cons, formatLoop, if_neg (by simp), hparse]
    simp only
    rcases hconv : convert others d.conversion.char q [v] with ⟨_ | text, args⟩
    · rfl
    have hwrite := write_eq capacity [] text
    simp only [take_nil, length_nil, nil_append] at hwrite
    simp only [formatLoop_nil, hwrite, map_some]
    rfl
  constructor
  · intro h
    rw [hrun, htwo h, convert_eq]
  · intro h
    rw [hrun, hother h, convert_eq]

end Whole

/--
Integer formatting.  For every integer directive, unless its width and its precision are two
arguments with different values, `vsnprintf` leaves what the standard prescribes in buffers of every
capacity, and returns its length, exactly if: the width is below 2^31; the precision is at most 64;
the argument is in the range of the type that `hh` or `h` name; an octal number with `#` has no
precision beyond its digits; and a hexadecimal number with `#` is not 0, unless the precision is 0.
-/
theorem integer_formatting_iff
    (others : Others)
    (d : Directive)
    (a b v : Slot)
    (hstars : d.TwoStars → a = b) :
    (∀ capacity, vsnprintf others capacity d.text (d.args a b v) =
      some (d.printed a b v capacity)) ↔ d.Good a b v := by
  have hcore : ∀ capacity, vsnprintf others capacity d.text (d.args a b v) =
      (d.core a b v).map (leave capacity) := by
    intro capacity
    obtain ⟨htwo, hother⟩ := vsnprintf_text others d a b v capacity
    by_cases h : d.TwoStars
    · rw [htwo h, hstars h]
    · exact hother h
  simp only [hcore]
  constructor
  · intro hall
    obtain ⟨text, htext, -⟩ := map_eq_some_iff.mp (hall 0)
    -- a buffer that is large enough for both texts
    have hlarge := hall (text.length + (d.prescribed a b v).length + 1)
    rw [htext, map_some] at hlarge
    have hsame := congrArg Printed.text (some.inj hlarge)
    simp only [leave, printed, Nat.add_one_ne_zero, if_false, some.injEq,
      Nat.add_sub_cancel] at hsame
    rw [take_of_length_le (by omega), take_of_length_le (by omega)] at hsame
    rw [hsame] at htext
    exact core_iff.mp htext
  · intro hgood capacity
    have htext := core_of_good hgood
    have hlen := length_core_lt htext
    rw [htext, map_some, leave, int_of_lt (by omega) (by omega)]
    rfl

/-- `%+6.3d` with 42. -/
def signedSample : Directive :=
  ⟨[.plus], .digits [⟨6, by decide⟩] ⟨⟨6, by decide⟩, rfl, by decide⟩,
    .digits [⟨3, by decide⟩], .none, .d⟩

/-- No conversion but the ones for integers. -/
def integersOnly : Others := fun _ _ args => (none, args)

theorem integer_formatting_iff_signed :
    signedSample.text = "%+6.3d".toList ∧
    vsnprintf integersOnly 10 "%+6.3d".toList [42] = some ⟨some "  +042".toList, 6⟩ := by
  have hgood : signedSample.Good 0 0 42 := by
    refine ⟨by decide, fun p hp => ?_, by decide, fun h => absurd h (by decide),
      fun h => absurd h (by decide)⟩
    cases hp
    decide
  exact ⟨rfl, (integer_formatting_iff integersOnly signedSample 0 0 42
    (fun h => Width.noConfusion h.1)).mpr hgood 10⟩

/--
The conditions one by one: `%#x` of 0 has a prefix, `%#.3o` of 8 a zero too many, `%hhu` of 511 is
not converted to `unsigned char`, the digits of `%.65d` do not fit into their array, and `%*.*d`
takes the width 5 for the precision and the precision 2 for the width.
-/
theorem integer_formatting_fails :
    vsnprintf integersOnly 100 "%#x".toList [0] = some ⟨some "0x0".toList, 3⟩ ∧
    vsnprintf integersOnly 100 "%#.3o".toList [8] = some ⟨some "0010".toList, 4⟩ ∧
    vsnprintf integersOnly 100 "%hhu".toList [511] = some ⟨some "511".toList, 3⟩ ∧
    vsnprintf integersOnly 100 "%.65d".toList [7] = none ∧
    vsnprintf integersOnly 100 "%*.*d".toList [5, 2, 7] = some ⟨some "00007".toList, 5⟩ := by
  refine ⟨by decide, by decide, by decide, by decide, by decide⟩

end PureCOS.Printf
