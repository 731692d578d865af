import Mathlib.Data.Nat.Digits.Lemmas
import PureCOS.Libc.Printf

/-!
# Where formatted integers are right

The texts that `format_signed` and `format_unsigned` put are compared with the prescribed ones.
Where they differ, something of the text tells: its length, the number that its digits mean, its
sign, the number of its zeros, or the letter of a prefix.
-/

namespace PureCOS.Printf

open List Option Directive

/-! ## Digits -/

section Digits

variable {base value rounds : Nat} {upper : Bool} {precision : Option Nat}

theorem digitLoop_eq (hbase : 1 < base) (hvalue : value < base ^ rounds) :
    digitLoop base rounds value = Nat.digits base value := by
  induction rounds generalizing value with
  | zero =>
    rw [Nat.pow_zero, Nat.lt_one_iff] at hvalue
    rw [hvalue, Nat.digits_zero, digitLoop]
  | succ rounds ih =>
    rw [digitLoop]
    by_cases hzero : value = 0
    · rw [if_pos hzero, hzero, Nat.digits_zero]
    have hrest : value / base < base ^ rounds := by
      rw [Nat.pow_succ] at hvalue
      exact Nat.div_lt_of_lt_mul (by rwa [Nat.mul_comm])
    rw [if_neg hzero, ih hrest, Nat.digits_def' hbase (Nat.pos_of_ne_zero hzero)]

theorem length_digitLoop_le : (digitLoop base rounds value).length ≤ rounds := by
  induction rounds generalizing value with
  | zero => exact Nat.le_refl _
  | succ rounds ih =>
    rw [digitLoop]
    split
    · exact Nat.zero_le _
    · exact Nat.succ_le_succ ih

/-- The precision as `format_core` has it: -1 if there is none. -/
def encode : Option Nat → Int
  | none => -1
  | some p => p

theorem rawDigits_eq (hbase : 8 ≤ base) (hvalue : value < 2 ^ 64) (hne : value ≠ 0) (p : Int) :
    rawDigits base upper value p = (Nat.digits base value).map (alphabet upper) := by
  have hlarge : value < base ^ 64 := by
    calc value < 2 ^ 64 := hvalue
      _ ≤ base ^ 64 := Nat.pow_le_pow_left (by omega) 64
  rw [rawDigits, if_neg hne, digitLoop_eq (by omega) hlarge]

theorem length_rawDigits_le (p : Int) : (rawDigits base upper value p).length ≤ 64 := by
  unfold rawDigits
  split
  · split
    · decide
    · decide
  · rw [length_map]
    exact length_digitLoop_le

/-- The array holds the number if the precision is at most 64. -/
theorem fillDigits_rawDigits (hbase : 8 ≤ base) (hvalue : value < 2 ^ 64) :
    fillDigits (rawDigits base upper value (encode precision)) (encode precision) =
      if 64 < precision.getD 0 then none else some (minimal base upper precision value) := by
  have hcap : max (rawDigits base upper value
      (encode precision)).length (encode precision).toNat > 64 ↔ 64 < precision.getD 0 := by
    have hle : (rawDigits base upper value (encode precision)).length ≤ 64 := length_rawDigits_le _
    have hprec : (encode precision).toNat = precision.getD 0 := by
      cases precision with
      | none => rfl
      | some p => rfl
    rw [hprec]
    omega
  unfold fillDigits
  by_cases hlong : 64 < precision.getD 0
  · rw [if_pos (hcap.mpr hlong), if_pos hlong]
  rw [if_neg (fun h => hlong (hcap.mp h)), if_neg hlong]
  unfold minimal
  by_cases hzero : value = 0
  · subst hzero
    cases precision with
    | none => simp [rawDigits, encode]
    | some p =>
      cases p with
      | zero => simp [rawDigits, encode]
      | succ p =>
        have hne : ((p + 1 : Nat) : Int) ≠ 0 := by omega
        have hraw : rawDigits base upper 0 (encode (some (p + 1))) = ['0'] := by
          rw [rawDigits, if_pos rfl]
          exact if_pos hne
        have hcount : (encode (some (p + 1))).toNat - ['0'].length = p := rfl
        rw [hraw, hcount]
        simp [replicate_succ']
  · have hdig : 0 < (Nat.digits base value).length :=
      length_pos_iff.mpr (Nat.digits_ne_nil_iff_ne_zero.mpr hzero)
    rw [rawDigits_eq hbase hvalue hzero, reverse_append, reverse_replicate, ← map_reverse]
    simp only [length_map, length_reverse]
    have hcount : (encode precision).toNat - (Nat.digits base value).length =
        precision.getD 1 - (Nat.digits base value).length := by
      cases precision with
      | none =>
        show (-1 : Int).toNat - _ = 1 - _
        omega
      | some p => rfl
    rw [hcount]

end Digits

/-! ## Fields -/

section Fields

variable {head number : List Char} {width : Nat} {left zero : Bool}
  {precision : Option Nat} {c : Char}

theorem pad_eq_justify : pad head number width (encode precision) left zero =
    justify head number width left (zero && precision.isNone) := by
  have hnone : decide (encode precision < 0) = precision.isNone := by
    cases precision with
    | none => rfl
    | some p =>
      have hle : ¬encode (some p) < 0 := Int.not_lt.mpr (Int.natCast_nonneg p)
      exact decide_eq_false hle
  have hfill : (if (head.length + number.length : Int) < width then
      ((width : Int) - (head.length + number.length)).toNat else 0) =
        width - (head.length + number.length) := by
    split <;> omega
  simp only [pad, justify, hnone, hfill]

theorem length_justify :
    (justify head number width left zero).length = max width (head.length + number.length) := by
  unfold justify
  cases left with
  | true =>
    simp only [if_true, length_append, length_replicate]
    omega
  | false =>
    cases zero with
    | true =>
      simp only [Bool.false_eq_true, if_false, if_true, length_append, length_replicate]
      omega
    | false =>
      simp only [Bool.false_eq_true, if_false, length_append, length_replicate]
      omega

/-- A zero in front of a number may count as its prefix or as one of its digits. -/
theorem justify_zero :
    justify ['0'] number width left zero = justify [] ('0' :: number) width left zero := by
  have hfill : width - (['0'].length + number.length) =
      width - (([] : List Char).length + ('0' :: number).length) := by
    simp only [length_nil, length_cons]
    omega
  unfold justify
  rw [hfill]
  generalize width - (([] : List Char).length + ('0' :: number).length) = n
  have hzeros : '0' :: replicate n '0' = replicate n '0' ++ ['0'] := by
    rw [← replicate_succ, replicate_succ']
  cases left with
  | true => simp
  | false =>
    cases zero with
    | true =>
      simp only [Bool.false_eq_true, if_false, if_true, nil_append, singleton_append, hzeros,
        append_assoc]
    | false => simp

theorem mem_justify (hspace : c ≠ ' ') (hzero : c ≠ '0') :
    c ∈ justify head number width left zero ↔ c ∈ head ∨ c ∈ number := by
  unfold justify
  cases left with
  | true => simp [hspace]
  | false =>
    cases zero with
    | true => simp [hzero]
    | false => simp [hspace]

theorem count_justify :
    (justify head number width left false).count '0' = head.count '0' + number.count '0' := by
  unfold justify
  cases left with
  | true => simp [count_replicate]
  | false => simp [count_replicate]

end Fields

/-! ## The number in a text -/

section Decode

variable {base value width : Nat} {upper left zero : Bool} {precision : Option Nat}
  {head number quiet : List Char}

/-- The value of a character as a digit, up to base 16. -/
def digitOf (c : Char) : Option Nat :=
  if '0'.toNat ≤ c.toNat ∧ c.toNat ≤ '9'.toNat then some (c.toNat - '0'.toNat)
  else if 'a'.toNat ≤ c.toNat ∧ c.toNat ≤ 'f'.toNat then some (c.toNat - 'a'.toNat + 10)
  else if 'A'.toNat ≤ c.toNat ∧ c.toNat ≤ 'F'.toNat then some (c.toNat - 'A'.toNat + 10)
  else none

/-- The number that the digits of a text mean. -/
def decode (base : Nat) (text : List Char) : Nat :=
  (text.filterMap digitOf).foldl (fun value d => value * base + d) 0

/-- Nothing that counts in front of a number. -/
def Quiet (text : List Char) : Prop := ∀ c ∈ text, digitOf c = none ∨ c = '0'

theorem quiet_of_all {text : List Char}
    (h : (text.all fun c => (digitOf c).isNone || c == '0') = true) : Quiet text := by
  intro c hc
  simpa using all_eq_true.mp h c hc

theorem decode_quiet (hquiet : Quiet quiet) (text : List Char) :
    decode base (quiet ++ text) = decode base text := by
  induction quiet with
  | nil => rfl
  | cons c quiet ih =>
    have hrest := ih fun d hd => hquiet d (mem_cons_of_mem _ hd)
    rw [← hrest]
    unfold decode
    rcases hquiet c mem_cons_self with hnone | rfl
    · rw [cons_append, filterMap_cons_none hnone]
    · rw [cons_append, filterMap_cons_some (show digitOf '0' = some 0 from rfl), foldl_cons,
        Nat.zero_mul, Nat.add_zero]

theorem decode_spaces (text : List Char) (n : Nat) :
    decode base (text ++ replicate n ' ') = decode base text := by
  have hspaces : (replicate n ' ').filterMap digitOf = [] := by
    rw [filterMap_eq_nil_iff]
    intro c hc
    rw [eq_of_mem_replicate hc]
    rfl
  rw [decode, filterMap_append, hspaces, append_nil, decode]

theorem quiet_replicate (n : Nat) : Quiet (replicate n ' ') ∧ Quiet (replicate n '0') := by
  constructor
  · intro c hc
    rw [eq_of_mem_replicate hc]
    exact .inl rfl
  · intro c hc
    exact .inr (eq_of_mem_replicate hc)

theorem decode_justify (hhead : Quiet head) :
    decode base (justify head number width left zero) = decode base number := by
  unfold justify
  cases left with
  | true =>
    simp only [if_true]
    rw [decode_spaces, decode_quiet hhead]
  | false =>
    cases zero with
    | true =>
      simp only [Bool.false_eq_true, if_false, if_true]
      rw [append_assoc, decode_quiet hhead, decode_quiet (quiet_replicate _).2]
    | false =>
      simp only [Bool.false_eq_true, if_false]
      rw [append_assoc, decode_quiet (quiet_replicate _).1, decode_quiet hhead]

theorem digitOf_alphabet : ∀ upper, ∀ d < 16, digitOf (alphabet upper d) = some d := by decide

theorem decode_minimal (hbase : 1 < base ∧ base ≤ 16) :
    decode base (minimal base upper precision value) = value := by
  have hdig : (((Nat.digits base value).reverse).map (alphabet upper)).filterMap digitOf =
      (Nat.digits base value).reverse := by
    rw [filterMap_map]
    refine (filterMap_congr fun d hd => ?_).trans (filterMap_some ..)
    have hlt := Nat.digits_lt_base hbase.1 (mem_reverse.mp hd)
    exact digitOf_alphabet upper d (by omega)
  unfold minimal
  rw [decode_quiet (quiet_replicate _).2, decode, hdig, foldl_reverse]
  conv_rhs => rw [← Nat.ofDigits_digits base value, Nat.ofDigits_eq_foldr]
  congr 1
  funext d acc
  rw [Nat.cast_id, Nat.mul_comm, Nat.add_comm]

/-- The letters of a number. -/
theorem mem_minimal {c : Char} (hbase : 1 < base ∧ base ≤ 16)
    (hc : c ∈ minimal base upper precision value) : (digitOf c).isSome = true := by
  rcases mem_append.mp hc with hc | hc
  · rw [eq_of_mem_replicate hc]
    rfl
  obtain ⟨d, hd, rfl⟩ := mem_map.mp hc
  have hlt := Nat.digits_lt_base hbase.1 (mem_reverse.mp hd)
  rw [digitOf_alphabet upper d (by omega)]
  rfl

end Decode

/-! ## What the code puts -/

namespace Directive

variable (d : Directive) (a b v : Slot)

/-- `width` at the conversion -/
def codeWidth : Int :=
  match d.width with
  | .none => 0
  | .digits n _ => int n.value
  | .star => if vaInt a < 0 then int (-vaInt a) else vaInt a

/-- `precision` at the conversion -/
def codePrecision : Int :=
  match d.precision with
  | .none => -1
  | .digits n => if int n.value < 0 then -1 else int n.value
  | .star => if vaInt b < 0 then -1 else vaInt b

def parsed : Parsed where
  left := d.left a
  plus := d.flags.contains .plus
  space := d.flags.contains .space
  alternate := d.flags.contains .hash
  zero := d.flags.contains .zero
  width := d.codeWidth a
  precision := d.codePrecision b
  length := d.length

/-- The value that is formatted. -/
def argument : Int := if d.conversion.signed then signedArg d.length v else unsignedArg d.length v

/-- The array before it is filled up. -/
def codeDigits (precision : Int) : List Char :=
  rawDigits d.conversion.base (d.conversion == .X) (d.argument v).natAbs precision

/-- Sign or prefix that is put. -/
def codeHead (precision : Int) : List Char :=
  if d.conversion.signed then
    if d.argument v < 0 then ['-']
    else if d.flags.contains .plus then ['+']
    else if d.flags.contains .space then [' ']
    else []
  else if d.flags.contains .hash && d.conversion.base == 16 && d.codeDigits v precision != [] then
    if d.conversion == .X then ['0', 'X'] else ['0', 'x']
  else if d.flags.contains .hash && d.conversion.base == 8 &&
    (d.codeDigits v precision).getLast? != some '0' then ['0']
  else []

/-- The text that is put, with `a` and `b` as the arguments for width and precision. -/
def core : Option (List Char) :=
  (fillDigits (d.codeDigits v (d.codePrecision b)) (d.codePrecision b)).map fun number =>
    pad (d.codeHead v (d.codePrecision b)) number (d.codeWidth a) (d.codePrecision b) (d.left a)
      (d.flags.contains .zero)

theorem convert_eq (others : Others) (rest : List Slot) :
    convert others d.conversion.char (d.parsed a b) (v :: rest) = (d.core a b v, rest) := by
  obtain ⟨flags, width, precision, length, conversion⟩ := d
  cases conversion with
  | d => rfl
  | i => rfl
  | u => rfl
  | o => rfl
  | x => rfl
  | X => rfl

/-- Where the code does what is prescribed. -/
structure Good : Prop where
  width : d.widthValue a < 2 ^ 31
  precision : ∀ p, d.precisionValue b = some p → p ≤ 64
  value : d.argument v = d.value v
  octal : d.flags.contains .hash = true → d.conversion = .o → d.value v ≠ 0 →
    ∀ p, d.precisionValue b = some p → p ≤ (Nat.digits 8 (d.value v).natAbs).length
  hex : d.flags.contains .hash = true → d.conversion.base = 16 → d.value v = 0 →
    d.precisionValue b = some 0

end Directive

section Code

variable {d : Directive} {a b v : Slot}

theorem int_of_lt {x : Int} (hlow : -2 ^ 31 ≤ x) (hhigh : x < 2 ^ 31) : int x = x := by
  unfold int
  omega

theorem int_lt (x : Int) : int x < 2 ^ 31 := by
  unfold int
  omega

theorem vaInt_bounds (slot : Slot) : -2 ^ 31 ≤ vaInt slot ∧ vaInt slot < 2 ^ 31 :=
  ⟨BitVec.le_toInt _, BitVec.toInt_lt⟩

theorem codeWidth_lt (d : Directive) (a : Slot) : d.codeWidth a < 2 ^ 31 := by
  have hbounds := vaInt_bounds a
  unfold codeWidth
  split
  · decide
  · exact int_lt _
  · split
    · exact int_lt _
    · omega

theorem codeWidth_eq (h : d.widthValue a < 2 ^ 31) : d.codeWidth a = d.widthValue a := by
  have hbounds := vaInt_bounds a
  obtain ⟨flags, width, precision, length, conversion⟩ := d
  cases width with
  | none => rfl
  | digits n hn =>
    have hlt : n.value < 2 ^ 31 := h
    exact int_of_lt (by omega) (by omega)
  | star =>
    have hlt : (vaInt a).natAbs < 2 ^ 31 := h
    show (if vaInt a < 0 then int (-vaInt a) else vaInt a) = ((vaInt a).natAbs : Int)
    split
    · rw [int_of_lt (by omega) (by omega)]
      omega
    · omega

theorem codePrecision_eq (h : ∀ p, d.precisionValue b = some p → p < 2 ^ 31) :
    d.codePrecision b = encode (d.precisionValue b) := by
  obtain ⟨flags, width, precision, length, conversion⟩ := d
  cases precision with
  | none => rfl
  | digits n =>
    have hlt : n.value < 2 ^ 31 := h n.value rfl
    show (if int n.value < 0 then -1 else int n.value) = (n.value : Int)
    rw [int_of_lt (by omega) (by omega), if_neg (by omega)]
  | star =>
    show (if vaInt b < 0 then -1 else vaInt b) = encode (if vaInt b < 0 then none
      else some (vaInt b).toNat)
    split
    · rfl
    · exact (Int.toNat_of_nonneg (by omega)).symm

theorem natAbs_argument_lt : (d.argument v).natAbs < 2 ^ 64 := by
  have hlong : -2 ^ 63 ≤ v.toInt ∧ v.toInt < 2 ^ 63 := ⟨BitVec.le_toInt _, BitVec.toInt_lt⟩
  have hint := vaInt_bounds v
  have hunsigned : (v.setWidth 32).toNat < 2 ^ 32 := BitVec.isLt _
  have hlongUnsigned : v.toNat < 2 ^ 64 := BitVec.isLt _
  unfold argument
  split
  · unfold signedArg
    split <;> omega
  · unfold unsignedArg
    split <;> omega

theorem base_bounds (conversion : Conversion) : 8 ≤ conversion.base ∧ conversion.base ≤ 16 := by
  cases conversion <;> decide

theorem length_codeHead_le (d : Directive) (v : Slot) (p : Int) : (d.codeHead v p).length ≤ 2 := by
  unfold codeHead
  split
  · split
    · decide
    · split
      · decide
      · split <;> decide
  · split
    · split <;> decide
    · split <;> decide

theorem length_pad_le (head number : List Char) (width p : Int) (left zero : Bool) :
    ((pad head number width p left zero).length : Int) ≤
      max width (head.length + number.length) := by
  have hfill : ((if (head.length + number.length : Int) < width then
      (width - (head.length + number.length)).toNat else 0 : Nat) : Int) +
        (head.length + number.length) ≤ max width (head.length + number.length) := by
    split <;> omega
  unfold pad
  simp only
  generalize (if (head.length + number.length : Int) < width then
    (width - (head.length + number.length)).toNat else 0) = fill at hfill ⊢
  split
  · simp only [length_append, length_replicate]
    omega
  split
  · simp only [length_append, length_replicate]
    omega
  · simp only [length_append, length_replicate]
    omega

/-- What is put has fewer than 2^31 characters. -/
theorem length_core_lt {text : List Char} (h : d.core a b v = some text) :
    text.length < 2 ^ 31 := by
  obtain ⟨number, hnum, rfl⟩ := map_eq_some_iff.mp h
  have hdig : number.length ≤ 64 := by
    unfold fillDigits at hnum
    split at hnum
    · cases hnum
    · cases hnum
      rw [length_reverse, length_append, length_replicate]
      omega
  have hpad :=
    length_pad_le (d.codeHead v (d.codePrecision b)) number (d.codeWidth a) (d.codePrecision b)
      (d.left a) (d.flags.contains .zero)
  have hhead := length_codeHead_le d v (d.codePrecision b)
  have hwidth := codeWidth_lt d a
  omega

/-- The digits of a number, without what the flags add. -/
abbrev Directive.plain (d : Directive) (b : Slot) (value : Int) : List Char :=
  minimal d.conversion.base (d.conversion == .X) (d.precisionValue b) value.natAbs

/-- The text with width and precision in range. -/
theorem core_eq (hwidth : d.widthValue a < 2 ^ 31)
    (hprec : ∀ p, d.precisionValue b = some p → p < 2 ^ 31) :
    d.core a b v = if 64 < (d.precisionValue b).getD 0 then none
      else some (justify (d.codeHead v (encode (d.precisionValue b))) (d.plain b (d.argument v))
        (d.widthValue a) (d.left a) (d.flags.contains .zero && (d.precisionValue b).isNone)) := by
  rw [core, codePrecision_eq hprec, codeWidth_eq hwidth, codeDigits,
    fillDigits_rawDigits (base_bounds _).1 natAbs_argument_lt]
  split
  · rfl
  · rw [map_some, pad_eq_justify]

variable {base width value : Nat} {left : Bool}

/-- The first digit of a number is not 0. -/
theorem getLast_digits (hbase : 1 < base ∧ base ≤ 16) (hne : value ≠ 0) (upper : Bool) :
    ((Nat.digits base value).map (alphabet upper)).getLast? ≠ some '0' := by
  have hnil : Nat.digits base value ≠ [] := Nat.digits_ne_nil_iff_ne_zero.mpr hne
  have htop := Nat.getLast_digit_ne_zero base hne
  have hlt := Nat.digits_lt_base hbase.1 (getLast_mem hnil)
  have hall : ∀ upper, ∀ d < 16, d ≠ 0 → alphabet upper d ≠ '0' := by decide
  rw [getLast?_map, getLast?_eq_some_getLast hnil, map_some]
  simp only [ne_eq, some.injEq]
  exact hall upper _ (by omega) htop

/-- The array is empty only for 0 with precision 0. -/
theorem codeDigits_eq_nil_iff (p : Int) : d.codeDigits v p = [] ↔ d.argument v = 0 ∧ p = 0 := by
  unfold codeDigits
  by_cases hzero : (d.argument v).natAbs = 0
  · rw [hzero, rawDigits, if_pos rfl]
    have hargument : d.argument v = 0 := by omega
    by_cases hp : p = 0
    · simp [hp, hargument]
    · simp [hp]
  · rw [rawDigits_eq (base_bounds _).1 natAbs_argument_lt hzero]
    simp only [map_eq_nil_iff, Nat.digits_eq_nil_iff_eq_zero]
    omega

theorem head?_minimal {precision : Option Nat} (upper : Bool)
    (h : precision.getD 1 ≤ (Nat.digits base value).length) :
    (minimal base upper precision value).head? =
      ((Nat.digits base value).map (alphabet upper)).getLast? := by
  unfold minimal
  simp only [length_map, length_reverse]
  rw [Nat.sub_eq_zero_of_le h, replicate_zero, nil_append, map_reverse, head?_reverse]

theorem head?_minimal_of_lt {precision : Option Nat} (upper : Bool)
    (h : (Nat.digits base value).length < precision.getD 1) :
    (minimal base upper precision value).head? = some '0' := by
  unfold minimal
  simp only [length_map, length_reverse]
  obtain ⟨n, hn⟩ : ∃ n, precision.getD 1 - (Nat.digits base value).length = n + 1 :=
    ⟨precision.getD 1 - (Nat.digits base value).length - 1, by omega⟩
  rw [hn, replicate_succ, cons_append, head?_cons]

/-- The prefix of a hexadecimal number. -/
theorem codeHead_hex (h : d.Good a b v) (hbase : d.conversion.base = 16) :
    d.codeHead v (encode (d.precisionValue b)) = d.head v := by
  have hnil : d.flags.contains .hash = true →
      (d.codeDigits v (encode (d.precisionValue b)) = [] ↔ d.value v = 0) := by
    intro hhash
    rw [codeDigits_eq_nil_iff, h.value]
    constructor
    · exact fun h => h.1
    intro hzero
    refine ⟨hzero, ?_⟩
    rw [h.hex hhash hbase hzero]
    rfl
  obtain ⟨flags, width, precision, length, conversion⟩ := d
  unfold Directive.codeHead Directive.head
  cases hhash : flags.contains Flag.hash with
  | false => cases conversion <;> simp_all [Conversion.signed, Conversion.base]
  | true =>
    have hiff := hnil hhash
    by_cases hzero : value ⟨flags, width, precision, length, conversion⟩ v = 0
    · have hempty := hiff.mpr hzero
      cases conversion <;> simp_all [Conversion.signed, Conversion.base]
    · have hfull := fun h => hzero (hiff.mp h)
      cases conversion <;> simp_all [Conversion.signed, Conversion.base]

theorem octal_heads (hoctal : d.conversion = .o) (b v : Slot) :
    d.head v = [] ∧ d.codeHead v (encode (d.precisionValue b)) = if d.flags.contains .hash &&
      (d.codeDigits v (encode (d.precisionValue b))).getLast? != some '0' then ['0'] else [] := by
  obtain ⟨flags, width, precision, length, conversion⟩ := d
  obtain rfl : conversion = .o := hoctal
  unfold Directive.head Directive.codeHead
  simp [Conversion.signed, Conversion.base]

/-- A prefix is put in front of an octal number exactly if its first digit is not 0. -/
theorem octal_first (h : d.Good a b v) (hoctal : d.conversion = .o)
    (hhash : d.flags.contains .hash = true) :
    (d.codeDigits v (encode (d.precisionValue b))).getLast? = some '0' ↔
      (d.plain b (d.argument v)).head? = some '0' := by
  have hbase : d.conversion.base = 8 := by rw [hoctal]; rfl
  by_cases hzero : (d.argument v).natAbs = 0
  · unfold codeDigits plain
    rw [hzero]
    rcases hprec : d.precisionValue b with _ | _ | p
    · simp [rawDigits, encode, minimal]
    · simp [rawDigits, encode, minimal]
    have hne : ((p + 1 : Nat) : Int) ≠ 0 := by omega
    have hraw :
        rawDigits d.conversion.base (d.conversion == .X) 0 (encode (some (p + 1))) = ['0'] := by
      rw [rawDigits, if_pos rfl]
      exact if_pos hne
    rw [hraw]
    simp [minimal, replicate_succ]
  · have hvalue : (d.argument v).natAbs = (d.value v).natAbs := congrArg Int.natAbs h.value
    have hlen : (d.precisionValue b).getD 1 ≤
        (Nat.digits d.conversion.base (d.argument v).natAbs).length := by
      rw [hbase, hvalue]
      cases hprec : d.precisionValue b with
      | none =>
        have hne : Nat.digits 8 (d.value v).natAbs ≠ [] :=
          Nat.digits_ne_nil_iff_ne_zero.mpr (by omega)
        exact length_pos_iff.mpr hne
      | some p => exact h.octal hhash hoctal (by omega) p hprec
    rw [head?_minimal _ hlen, codeDigits, rawDigits_eq (base_bounds _).1 natAbs_argument_lt hzero]

/-- The number and what is in front of it are as prescribed. -/
theorem justify_code (h : d.Good a b v) (width : Nat) (left zero : Bool) :
    justify (d.codeHead v (encode (d.precisionValue b)))
      (d.plain b (d.argument v)) width left zero =
      justify (d.head v) (d.number b v) width left zero := by
  have hplain : (d.flags.contains .hash && d.conversion == .o) = false →
      d.number b v = d.plain b (d.argument v) := by
    intro hfalse
    rw [number, h.value]
    simp only [hfalse, Bool.false_and, Bool.false_eq_true, if_false]
  by_cases hoctal : d.conversion = .o
  · obtain ⟨hhead, hcode⟩ := octal_heads hoctal b v
    rw [hhead, hcode]
    cases hhash : d.flags.contains .hash with
    | false =>
      rw [hplain (by rw [hhash, Bool.false_and])]
      simp
    | true =>
      have hfirst := octal_first h hoctal hhash
      have ho : (d.conversion == .o) = true := by simpa using hoctal
      rw [number, ← h.value]
      simp only [hhash, ho, Bool.and_self, Bool.true_and, bne_iff_ne, ne_eq, hfirst]
      split
      · rw [justify_zero]
      · rfl
  · have hnot : (d.conversion == .o) = false := by simpa using hoctal
    rw [hplain (by rw [hnot, Bool.and_false])]
    by_cases hbase : d.conversion.base = 16
    · rw [codeHead_hex h hbase]
    have hhead : d.codeHead v (encode (d.precisionValue b)) = d.head v := by
      have hvalue := h.value
      unfold Directive.codeHead Directive.head
      obtain ⟨flags, width, precision, length, conversion⟩ := d
      cases conversion <;> simp_all [Conversion.signed, Conversion.base]
    rw [hhead]

theorem core_of_good (h : d.Good a b v) : d.core a b v = some (d.prescribed a b v) := by
  have hprec : ∀ p, d.precisionValue b = some p → p < 2 ^ 31 := fun p hp =>
    Nat.lt_of_le_of_lt (h.precision p hp) (by decide)
  have hshort : ¬64 < (d.precisionValue b).getD 0 := by
    cases hp : d.precisionValue b with
    | none => exact Nat.not_lt_zero 64
    | some p => exact Nat.not_lt.mpr (h.precision p hp)
  rw [core_eq h.width hprec, if_neg hshort, justify_code h]
  rfl

theorem quiet_head (d : Directive) (v : Slot) : Quiet (d.head v) := by
  unfold Directive.head
  split
  · split
    · exact quiet_of_all (by decide)
    · split
      · exact quiet_of_all (by decide)
      · split <;> exact quiet_of_all (by decide)
  · split
    · split <;> exact quiet_of_all (by decide)
    · exact quiet_of_all (by decide)

theorem quiet_codeHead (d : Directive) (v : Slot) (p : Int) : Quiet (d.codeHead v p) := by
  unfold codeHead
  split
  · split
    · exact quiet_of_all (by decide)
    · split
      · exact quiet_of_all (by decide)
      · split <;> exact quiet_of_all (by decide)
  · split
    · split <;> exact quiet_of_all (by decide)
    · split <;> exact quiet_of_all (by decide)

theorem base_range (conversion : Conversion) : 1 < conversion.base ∧ conversion.base ≤ 16 :=
  ⟨Nat.lt_of_lt_of_le (by decide) (base_bounds conversion).1, (base_bounds conversion).2⟩

/-- The number of the prescribed text, and its letters. -/
theorem decode_number (d : Directive) (b v : Slot) :
    decode d.conversion.base (d.number b v) = (d.value v).natAbs ∧
      ∀ c ∈ d.number b v, (digitOf c).isSome = true := by
  have hminimal : ∀ c ∈ d.plain b (d.value v),
      (digitOf c).isSome = true := fun c hc => mem_minimal (base_range _) hc
  have hdecode : decode d.conversion.base (d.plain b (d.value v)) = (d.value v).natAbs :=
    decode_minimal (base_range _)
  unfold number
  simp only
  split
  · constructor
    · have hquiet : Quiet ['0'] := quiet_of_all (by decide)
      exact (decode_quiet hquiet _).trans hdecode
    intro c hc
    rcases mem_cons.mp hc with rfl | hc
    · rfl
    · exact hminimal c hc
  · exact ⟨hdecode, hminimal⟩

theorem precision_le_number (d : Directive) (b v : Slot) :
    (d.precisionValue b).getD 0 ≤ (d.number b v).length := by
  have hminimal : (d.precisionValue b).getD 0 ≤ (d.plain b (d.value v)).length := by
    have hle : (d.precisionValue b).getD 0 ≤ (d.precisionValue b).getD 1 := by
      cases d.precisionValue b with
      | none => exact Nat.zero_le 1
      | some p => exact Nat.le_refl p
    unfold plain minimal
    simp only [length_append, length_replicate]
    omega
  unfold number
  simp only
  split
  · exact Nat.le_succ_of_le hminimal
  · exact hminimal

/-- The same text means the same value. -/
theorem value_of_justify {precision : Int} {zero : Bool}
    (h : justify (d.codeHead v precision)
      (d.plain b (d.argument v)) width left zero =
      justify (d.head v) (d.number b v) width left zero) :
    d.argument v = d.value v := by
  obtain ⟨hdecode, hletters⟩ := decode_number d b v
  have habs : (d.argument v).natAbs = (d.value v).natAbs := by
    have hsame := congrArg (decode d.conversion.base) h
    rwa [decode_justify (quiet_codeHead d v precision), decode_justify (quiet_head d v),
      decode_minimal (base_range _), hdecode] at hsame
  cases hsigned : d.conversion.signed with
  | false =>
    have hargument : 0 ≤ d.argument v := by
      rw [argument, hsigned]
      exact Int.natCast_nonneg _
    have hvalue : 0 ≤ d.value v := by
      rw [value, hsigned]
      exact Int.natCast_nonneg _
    omega
  | true =>
    -- the sign is in both texts or in none
    have hminus : '-' ∈ d.codeHead v precision ↔ '-' ∈ d.head v := by
      have hsame := congrArg (fun text => '-' ∈ text) h
      simp only [mem_justify (show '-' ≠ ' ' by decide) (show '-' ≠ '0' by decide),
        eq_iff_iff] at hsame
      have hleft : '-' ∉ d.plain b (d.argument v) := by
        intro hmem
        cases mem_minimal (base_range _) hmem
      have hright : '-' ∉ d.number b v := by
        intro hmem
        cases hletters _ hmem
      simpa only [hleft, hright, or_false] using hsame
    have hcode : '-' ∈ d.codeHead v precision ↔ d.argument v < 0 := by
      rw [codeHead, hsigned]
      simp only [if_true]
      split
      · simp [*]
      · split
        · simp [*]
        · split <;> simp [*]
    have hhead : '-' ∈ d.head v ↔ d.value v < 0 := by
      rw [Directive.head, hsigned]
      simp only [if_true]
      split
      · simp [*]
      · split
        · simp [*]
        · split <;> simp [*]
    rw [hcode, hhead] at hminus
    omega

/-- An octal number with a precision beyond its digits gets one zero too many. -/
theorem octal_of_justify {p : Nat}
    (h : justify (d.codeHead v (encode (d.precisionValue b)))
      (d.plain b (d.argument v)) width left false =
      justify (d.head v) (d.number b v) width left false)
    (hvalue : d.argument v = d.value v)
    (hhash : d.flags.contains .hash = true)
    (hoctal : d.conversion = .o)
    (hne : d.value v ≠ 0)
    (hp : d.precisionValue b = some p) :
    p ≤ (Nat.digits 8 (d.value v).natAbs).length := by
  by_contra hlong
  have hbase : d.conversion.base = 8 := by rw [hoctal]; rfl
  obtain ⟨hhead, hcode⟩ := octal_heads hoctal b v
  have hfirst : (d.plain b (d.value v)).head? = some '0' := by
    refine head?_minimal_of_lt _ ?_
    rw [hbase, hp]
    exact Nat.lt_of_not_le hlong
  have hnum : d.number b v = d.plain b (d.value v) := by
    rw [number]
    simp only [hfirst, bne_self_eq_false, Bool.and_false, Bool.false_eq_true, if_false]
  have hlast : (d.codeDigits v (encode (d.precisionValue b))).getLast? ≠ some '0' := by
    rw [codeDigits, rawDigits_eq (base_bounds _).1 natAbs_argument_lt (by omega)]
    exact getLast_digits (base_range _) (by omega) _
  have hzero : d.codeHead v (encode (d.precisionValue b)) = ['0'] := by
    rw [hcode, hhash, Bool.true_and, if_pos (by simpa using hlast)]
  have hcount := congrArg (count '0') h
  rw [count_justify, count_justify, hzero, hhead, hnum, hvalue] at hcount
  simp at hcount

/-- A hexadecimal zero gets a prefix that is not prescribed. -/
theorem hex_of_justify {zero : Bool}
    (h : justify (d.codeHead v (encode (d.precisionValue b)))
      (d.plain b (d.argument v)) width left zero =
      justify (d.head v) (d.number b v) width left zero)
    (hhash : d.flags.contains .hash = true)
    (hbase : d.conversion.base = 16)
    (hzero : d.value v = 0) :
    d.precisionValue b = some 0 := by
  by_contra hprec
  have hfull : d.codeDigits v (encode (d.precisionValue b)) ≠ [] := by
    rw [ne_eq, codeDigits_eq_nil_iff]
    rintro ⟨-, hp⟩
    cases hsome : d.precisionValue b with
    | none =>
      rw [hsome] at hp
      cases hp
    | some p =>
      rw [hsome] at hp hprec
      have hint : (p : Int) = 0 := hp
      exact hprec (congrArg some (by omega))
  have hletter : ∃ c, (c = 'x' ∨ c = 'X') ∧ c ∈ d.codeHead v (encode (d.precisionValue b)) := by
    have hsigned : d.conversion.signed = false := by
      cases hconv : d.conversion <;> rw [hconv] at hbase <;> first | rfl | cases hbase
    rw [codeHead, hsigned, hhash, hbase]
    simp only [Bool.false_eq_true, if_false, Bool.true_and, beq_self_eq_true, bne_iff_ne, ne_eq,
      hfull, not_false_eq_true, if_true]
    split
    · exact ⟨'X', .inr rfl, by decide⟩
    · exact ⟨'x', .inl rfl, by decide⟩
  have hhead : d.head v = [] := by
    rw [Directive.head, hzero]
    have hsigned : d.conversion.signed = false := by
      cases hconv : d.conversion <;> rw [hconv] at hbase <;> first | rfl | cases hbase
    simp [hsigned]
  obtain ⟨c, hc, hmem⟩ := hletter
  have hsame := congrArg (fun text => c ∈ text) h
  have hspace : c ≠ ' ' := by rcases hc with rfl | rfl <;> decide
  have hdigit : c ≠ '0' := by rcases hc with rfl | rfl <;> decide
  simp only [mem_justify hspace hdigit, hhead, not_mem_nil, false_or, eq_iff_iff] at hsame
  have hsome := (decode_number d b v).2 c (hsame.mp (.inl hmem))
  rcases hc with rfl | rfl <;> cases hsome

/-- The text that is put is the prescribed one exactly where the directive is good. -/
theorem core_iff : d.core a b v = some (d.prescribed a b v) ↔ d.Good a b v := by
  refine ⟨fun hcore => ?_, core_of_good⟩
  have hlen := length_core_lt hcore
  have hmax : (d.prescribed a b v).length =
      max (d.widthValue a) ((d.head v).length + (d.number b v).length) :=
    length_justify
  have hnum := precision_le_number d b v
  have hwidth : d.widthValue a < 2 ^ 31 := by omega
  have hprec : ∀ p, d.precisionValue b = some p → p < 2 ^ 31 := by
    intro p hp
    rw [hp, getD_some] at hnum
    omega
  rw [core_eq hwidth hprec] at hcore
  split at hcore
  · cases hcore
  rename_i hshort
  have hjustify := some.inj hcore
  have hvalue : d.argument v = d.value v := value_of_justify hjustify
  refine ⟨hwidth, fun p hp => ?_, hvalue, fun hhash hoctal hne p hp => ?_,
    fun hhash hbase hzero => ?_⟩
  · rw [hp, getD_some] at hshort
    omega
  · have hfalse : (d.flags.contains .zero && (d.precisionValue b).isNone) = false := by
      rw [hp, isNone_some, Bool.and_false]
    rw [prescribed, hfalse] at hjustify
    exact octal_of_justify hjustify hvalue hhash hoctal hne hp
  · exact hex_of_justify hjustify hhash hbase hzero

end Code

end PureCOS.Printf
