import Mathlib.Tactic.Ring
import PureCOS.Lib.Bytes

/-!
# Numbers as lists of bytes

Least significant byte first.  Addition goes from byte to byte with a carry, and leaves what fits
into the bytes of the first number.  A loop that fills a buffer from blocks of equal size leaves the
first bytes of all blocks together.
-/

namespace PureCOS.ByteNumeral

open List

/-- The number that bytes mean. -/
def value : List Byte → Nat
  | [] => 0
  | b :: bs => b.toNat + 256 * value bs

/-- The `n` lowest bytes of a number. -/
def bytes : Nat → Nat → List Byte
  | 0, _ => []
  | n + 1, x => BitVec.ofNat 8 x :: bytes n (x / 256)

/-- Addition with a carry, into the bytes of the first number. -/
def add : Nat → List Byte → List Byte → List Byte
  | _, [], _ => []
  | carry, v :: vs, addend =>
    let sum := v.toNat + carry + (addend.headD 0).toNat
    BitVec.ofNat 8 sum :: add (sum / 256) vs addend.tail

/-- Addition of 1, up to the first byte that does not become 0. -/
def increment : List Byte → List Byte
  | [] => []
  | b :: bs => if b + 1 = 0 then (b + 1) :: increment bs else (b + 1) :: bs

@[simp] theorem length_bytes (n x : Nat) : (bytes n x).length = n := by
  induction n generalizing x with
  | zero => rfl
  | succ n ih => simp [bytes, ih]

theorem bytes_value (bs : List Byte) : bytes bs.length (value bs) = bs := by
  induction bs with
  | nil => rfl
  | cons b bs ih =>
    have hlow : BitVec.ofNat 8 (b.toNat + 256 * value bs) = b := by
      apply BitVec.eq_of_toNat_eq
      rw [BitVec.toNat_ofNat]
      omega
    have hhigh : (b.toNat + 256 * value bs) / 256 = value bs := by omega
    simp only [length_cons, value, bytes, hlow, hhigh, ih]

theorem bytes_mod (n x : Nat) : bytes n (x % 256 ^ n) = bytes n x := by
  induction n generalizing x with
  | zero => rfl
  | succ n ih =>
    have hlow : x % 256 ^ (n + 1) % 256 = x % 256 := by
      rw [pow_succ']
      exact Nat.mod_mul_right_mod x 256 (256 ^ n)
    have hbyte : BitVec.ofNat 8 (x % 256 ^ (n + 1)) = BitVec.ofNat 8 x := by
      apply BitVec.eq_of_toNat_eq
      rw [BitVec.toNat_ofNat, BitVec.toNat_ofNat]
      exact hlow
    have hhigh : x % 256 ^ (n + 1) / 256 = x / 256 % 256 ^ n := by
      rw [pow_succ', Nat.mod_mul_right_div_self]
    simp only [bytes, hbyte, hhigh, ih]

theorem value_bytes (n x : Nat) : value (bytes n x) = x % 256 ^ n := by
  induction n generalizing x with
  | zero => simp [bytes, value, Nat.mod_one]
  | succ n ih =>
    have hsplit : x % 256 ^ (n + 1) = x % 256 + 256 * (x / 256 % 256 ^ n) := by
      rw [pow_succ']
      exact Nat.mod_mul
    rw [bytes, value, ih, BitVec.toNat_ofNat, hsplit]

/-- Addition is addition of the numbers. -/
theorem add_eq (carry : Nat) (vs addend : List Byte) (h : addend.length ≤ vs.length) :
    add carry vs addend = bytes vs.length (value vs + value addend + carry) := by
  induction vs generalizing carry addend with
  | nil => rfl
  | cons v vs ih =>
    have hsplit : value addend = (addend.headD 0).toNat + 256 * value addend.tail := by
      cases addend with
      | nil => rfl
      | cons a addend => rfl
    have hlow : BitVec.ofNat 8 (v.toNat + carry + (addend.headD 0).toNat) =
        BitVec.ofNat 8 (value (v :: vs) + value addend + carry) := by
      apply BitVec.eq_of_toNat_eq
      rw [BitVec.toNat_ofNat, BitVec.toNat_ofNat, hsplit, value]
      omega
    have hhigh : (value (v :: vs) + value addend + carry) / 256 =
        value vs + value addend.tail + (v.toNat + carry + (addend.headD 0).toNat) / 256 := by
      rw [hsplit, value]
      omega
    have htail : addend.tail.length ≤ vs.length := by
      rw [length_tail]
      rw [length_cons] at h
      omega
    simp only [add, length_cons, bytes, hlow, hhigh, ih _ _ htail]

theorem increment_eq (bs : List Byte) : increment bs = bytes bs.length (value bs + 1) := by
  induction bs with
  | nil => rfl
  | cons b bs ih =>
    have hbound := b.isLt
    have hnext : (b + 1).toNat = (b.toNat + 1) % 256 := BitVec.toNat_add b 1
    have hlow : BitVec.ofNat 8 (value (b :: bs) + 1) = b + 1 := by
      apply BitVec.eq_of_toNat_eq
      rw [BitVec.toNat_ofNat, hnext, value]
      omega
    simp only [increment, length_cons, bytes, hlow]
    split
    next hzero =>
      have hwrap : (b.toNat + 1) % 256 = 0 := by
        rw [← hnext, hzero]
        rfl
      have hhigh : (value (b :: bs) + 1) / 256 = value bs + 1 := by
        rw [value]
        omega
      rw [hhigh, ih]
    next hzero =>
    have hsmall : (b.toNat + 1) % 256 ≠ 0 := by
      rw [← hnext]
      exact fun h => hzero (BitVec.eq_of_toNat_eq h)
    have hhigh : (value (b :: bs) + 1) / 256 = value bs := by
      rw [value]
      omega
    rw [hhigh, bytes_value]

/-! ## Filling a buffer -/

section Fill

variable {σ α : Type} (block : σ → List α) (next : σ → σ) (size : Nat)

/-- A loop that takes from one block after the other what is still missing. -/
def fill : Nat → σ → Nat → List α
  | 0, _, _ => []
  | rounds + 1, s, missing =>
    if missing = 0 then []
    else (block s).take (min missing size) ++ fill rounds (next s) (missing - min missing size)

/-- How many blocks are needed. -/
def blocks (missing : Nat) : Nat := (missing + size - 1) / size

theorem fill_eq (hsize : 0 < size) (hblock : ∀ s, (block s).length = size) (rounds : Nat) (s : σ)
    (missing : Nat) (h : missing ≤ rounds) :
    fill block next size rounds s missing =
      ((range (blocks size missing)).flatMap fun i => block (next^[i] s)).take missing := by
  induction rounds generalizing s missing with
  | zero =>
    rw [Nat.le_zero.mp h]
    simp [fill]
  | succ rounds ih =>
    rw [fill]
    split
    next hzero => simp [hzero]
    have hmore : blocks size missing = blocks size (missing - min missing size) + 1 := by
      unfold blocks
      rcases Nat.le_total missing size with hle | hle
      · rw [Nat.min_eq_left hle, Nat.sub_self, Nat.zero_add,
          Nat.div_eq_of_lt (by omega : size - 1 < size)]
        exact Nat.div_eq_of_lt_le (by omega) (by omega)
      · rw [Nat.min_eq_right hle, ← Nat.add_div_right _ hsize]
        congr 1
        omega
    rw [ih (next s) (missing - min missing size) (by omega), hmore, range_succ_eq_map, flatMap_cons,
      flatMap_map, take_append, hblock]
    rcases Nat.le_total missing size with hle | hle
    · rw [Nat.min_eq_left hle, Nat.sub_self, Nat.sub_eq_zero_of_le hle, take_zero, take_zero]
      rfl
    have hwhole : (block s).take size = (block s).take missing := by
      rw [take_of_length_le (hblock s).le, take_of_length_le ((hblock s).trans_le hle)]
    rw [Nat.min_eq_right hle, hwhole]
    rfl

end Fill

end PureCOS.ByteNumeral
