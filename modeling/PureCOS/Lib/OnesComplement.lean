import Mathlib.Data.Nat.ModEq

/-!
# One's-complement sums

The checksum of the Internet protocols: the 16-bit words of a message are added, the carries are
added again until none is left, and the sum is sent inverted.  A last byte without a partner counts
as the high byte of a word.

Everything follows from one fact: folding keeps the sum modulo `65535`, and gives 0 for 0 only.
-/

namespace PureCOS.OnesComplement

open List

/-! ## Sums of words -/

/-- Sum of the words of a message; the flag tells whether the first byte is a high one. -/
def sumFrom (high : Bool) : List UInt8 → Nat
  | [] => 0
  | a :: rest => (if high then 256 * a.toNat else a.toNat) + sumFrom (!high) rest

variable (high : Bool) {sum : Nat} (message : List UInt8)

/-- Sum of the words of a message. -/
abbrev wordSum : Nat := sumFrom true message

/-- The byte after these is a high one. -/
def highAfter : Bool := if message.length % 2 = 0 then high else !high

theorem highAfter_cons (a : UInt8) (rest : List UInt8) :
    highAfter (!high) rest = highAfter high (a :: rest) := by
  unfold highAfter
  rw [length_cons]
  by_cases heven : rest.length % 2 = 0
  · rw [if_pos heven, if_neg (show ¬(rest.length + 1) % 2 = 0 by omega)]
  · rw [if_neg heven, if_pos (show (rest.length + 1) % 2 = 0 by omega), Bool.not_not]

theorem sumFrom_append (first second : List UInt8) : sumFrom high (first ++ second) =
    sumFrom high first + sumFrom (highAfter high first) second := by
  induction first generalizing high with
  | nil =>
    rw [nil_append, sumFrom, Nat.zero_add]
    rfl
  | cons a rest ih =>
    rw [cons_append, sumFrom, sumFrom, ih, highAfter_cons, Nat.add_assoc]

theorem wordSum_append {first : List UInt8} (heven : first.length % 2 = 0) (second : List UInt8) :
    wordSum (first ++ second) = wordSum first + wordSum second := by
  have hhigh : highAfter true first = true := if_pos heven
  rw [wordSum, sumFrom_append, hhigh]

theorem sumFrom_le : sumFrom high message ≤ 65280 * message.length := by
  induction message generalizing high with
  | nil => exact Nat.zero_le _
  | cons a rest ih =>
    have ha := a.toNat_lt
    have hrest := ih (!high)
    rw [sumFrom, length_cons]
    split <;> omega

/-! ## Folding -/

/-- The loop that adds the carries again. -/
def foldLoop : Nat → Nat → Nat
  | 0, sum => sum
  | fuel + 1, sum => if sum / 65536 = 0 then sum else foldLoop fuel (sum % 65536 + sum / 65536)

/-- A sum without carries; every round makes the sum smaller. -/
def fold (sum : Nat) : Nat := foldLoop sum sum

theorem foldLoop_spec {fuel : Nat} (hfuel : sum ≤ fuel) : foldLoop fuel sum < 65536 ∧
    foldLoop fuel sum % 65535 = sum % 65535 ∧ (foldLoop fuel sum = 0 ↔ sum = 0) := by
  induction fuel generalizing sum with
  | zero =>
    have hzero : sum = 0 := by omega
    rw [foldLoop, hzero]
    exact ⟨by decide, rfl, Iff.rfl⟩
  | succ fuel ih =>
    rw [foldLoop]
    split
    next hsmall => exact ⟨by omega, rfl, Iff.rfl⟩
    next hlarge =>
    -- `65536` is 1 modulo `65535`
    obtain ⟨hlt, hmod, hzero⟩ := ih (show sum % 65536 + sum / 65536 ≤ fuel by omega)
    refine ⟨hlt, ?_, ?_⟩
    · rw [hmod]
      omega
    · rw [hzero]
      omega

theorem fold_lt (sum : Nat) : fold sum < 65536 := (foldLoop_spec (Nat.le_refl sum)).1

/-- The folded sum is all ones exactly for the sums that verify. -/
theorem fold_eq_ones_iff : fold sum = 65535 ↔ sum % 65535 = 0 ∧ sum ≠ 0 := by
  obtain ⟨hlt, hmod, hzero⟩ := foldLoop_spec (Nat.le_refl sum)
  unfold fold
  omega

/-- A sum together with its inverted folded sum verifies. -/
theorem fold_add_inverse (hsum : sum ≠ 0) : fold (sum + (65535 - fold sum)) = 65535 := by
  obtain ⟨hlt, hmod, -⟩ := foldLoop_spec (Nat.le_refl sum)
  rw [fold_eq_ones_iff]
  unfold fold
  omega

/-! ## One changed word -/

/-- The two representations of zero. -/
def Swapped (word word' : List UInt8) : Prop :=
  (word = [0, 0] ∧ word' = [255, 255]) ∨ (word = [255, 255] ∧ word' = [0, 0])

/-- One word of a message is changed, at any place; the last one may have a single byte. -/
def Changed (message' : List UInt8) : Prop :=
  ∃ before word word' after, message = before ++ (word ++ after) ∧
    message' = before ++ (word' ++ after) ∧ word'.length = word.length ∧ word.length ≤ 2 ∧
    word' ≠ word ∧ ¬Swapped word word'

theorem Changed.length {message message' : List UInt8} (h : Changed message message') :
    message'.length = message.length := by
  obtain ⟨before, word, word', after, rfl, rfl, hlen, -⟩ := h
  rw [length_append, length_append, length_append, length_append, hlen]

theorem sumFrom_pair (a b : UInt8) :
    sumFrom high [a, b] = if high then 256 * a.toNat + b.toNat else a.toNat + 256 * b.toNat := by
  cases high <;> rfl

/-- Only the two representations of zero are the same modulo `65535`. -/
theorem mod_ne {value value' : Nat} (hlt : value < 65536)
    (hlt' : value' < 65536) (hne : value' ≠ value) (hup : ¬(value = 0 ∧ value' = 65535))
    (hdown : ¬(value = 65535 ∧ value' = 0)) : value' % 65535 ≠ value % 65535 := by
  omega

/-- Words that are not the same and not both zero have sums that differ modulo `65535`. -/
theorem sumFrom_word_ne {word word' : List UInt8} (hlen : word'.length = word.length)
    (htwo : word.length ≤ 2) (hne : word' ≠ word) (hswap : ¬Swapped word word') :
    sumFrom high word' % 65535 ≠ sumFrom high word % 65535 := by
  match word, word', hlen with
  | [], [], _ => exact absurd rfl hne
  | [a], [a'], _ =>
    have hbyte : a'.toNat ≠ a.toNat := fun heq => hne (by rw [UInt8.toNat_inj.mp heq])
    have ha := a.toNat_lt
    have ha' := a'.toNat_lt
    rw [sumFrom, sumFrom, sumFrom, sumFrom]
    split <;> omega
  | [a, b], [a', b'], _ =>
    have hbytes : ¬(a'.toNat = a.toNat ∧ b'.toNat = b.toNat) := fun heq =>
      hne (by rw [UInt8.toNat_inj.mp heq.1, UInt8.toNat_inj.mp heq.2])
    have hbyte : ∀ {x y : UInt8}, x.toNat = y.toNat → x = y := UInt8.toNat_inj.mp
    have hup : ¬((a.toNat = 0 ∧ b.toNat = 0) ∧ a'.toNat = 255 ∧ b'.toNat = 255) := by
      rintro ⟨⟨h₁, h₂⟩, h₃, h₄⟩
      refine hswap (.inl ⟨?_, ?_⟩)
      · rw [hbyte (y := 0) h₁, hbyte (y := 0) h₂]
      · rw [hbyte (y := 255) h₃, hbyte (y := 255) h₄]
    have hdown : ¬((a.toNat = 255 ∧ b.toNat = 255) ∧ a'.toNat = 0 ∧ b'.toNat = 0) := by
      rintro ⟨⟨h₁, h₂⟩, h₃, h₄⟩
      refine hswap (.inr ⟨?_, ?_⟩)
      · rw [hbyte (y := 255) h₁, hbyte (y := 255) h₂]
      · rw [hbyte (y := 0) h₃, hbyte (y := 0) h₄]
    have ha := a.toNat_lt
    have hb := b.toNat_lt
    have ha' := a'.toNat_lt
    have hb' := b'.toNat_lt
    have hhigh : (256 * a'.toNat + b'.toNat) % 65535 ≠ (256 * a.toNat + b.toNat) % 65535 :=
      mod_ne (by omega) (by omega) (by omega) (by omega) (by omega)
    have hlow : (a'.toNat + 256 * b'.toNat) % 65535 ≠ (a.toNat + 256 * b.toNat) % 65535 :=
      mod_ne (by omega) (by omega) (by omega) (by omega) (by omega)
    rw [sumFrom_pair, sumFrom_pair]
    split
    · exact hhigh
    · exact hlow
  | _ :: _ :: _ :: _, _, _ =>
    simp only [length_cons] at htwo
    omega

/-- A message with one word changed has another sum modulo `65535`. -/
theorem Changed.sum_ne {message message' : List UInt8} (h : Changed message message') :
    wordSum message' % 65535 ≠ wordSum message % 65535 := by
  obtain ⟨before, word, word', after, rfl, rfl, hlen, htwo, hne, hswap⟩ := h
  have hword := sumFrom_word_ne (highAfter true before) hlen htwo hne hswap
  have hafter : highAfter (highAfter true before) word' =
      highAfter (highAfter true before) word := by
    unfold highAfter
    rw [hlen]
  rw [wordSum, wordSum, sumFrom_append, sumFrom_append, sumFrom_append, sumFrom_append, hafter]
  omega

/-- What verifies with a message does not verify with one word of it changed. -/
theorem Changed.fold_ne {message message' : List UInt8} (h : Changed message message') {other : Nat}
    (hverifies : fold (other + wordSum message) = 65535) :
    fold (other + wordSum message') ≠ 65535 := by
  have hne := h.sum_ne
  rw [fold_eq_ones_iff] at hverifies
  intro hfold
  rw [fold_eq_ones_iff] at hfold
  omega

end PureCOS.OnesComplement
