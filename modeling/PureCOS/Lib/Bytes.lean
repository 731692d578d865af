import Mathlib.Algebra.Group.Int.Defs
import Mathlib.Algebra.GroupWithZero.Nat
import Mathlib.Tactic.Common

/-!
# Byte buffers

A buffer is a function from offsets to bytes.  Little-endian 16- and 32-bit fields,
sequences of 64-bit words and the bits of a bitmap are read from it and written to it;
what a write does not cover keeps its value.
-/

namespace PureCOS

open List

/-- A byte. -/
abbrev Byte := BitVec 8

def isDigit (c : Byte) : Bool := decide (0x30 ≤ c.toNat ∧ c.toNat ≤ 0x39)

/-- 32-bit arithmetic. -/
def u32 (n : Nat) : Nat := n % 2 ^ 32

theorem u32_of_lt {n : Nat} (h : n < 2 ^ 32) : u32 n = n := Nat.mod_eq_of_lt h

theorem u32_lt (n : Nat) : u32 n < 2 ^ 32 := Nat.mod_lt _ (by decide)

/-- A byte buffer. -/
abbrev Buffer := Nat → Byte

namespace Buffer

variable {b c : Buffer} {off pos v n k : Nat}

/-- Buffer of zeros. -/
def zero : Buffer := fun _ => 0

/-- Byte `i` of a number. -/
def byteOf (v i : Nat) : Byte := BitVec.ofNat 8 (v / 256 ^ i)

/-- `n` bytes of `source` placed at `off`. -/
def splice (b : Buffer) (off n : Nat) (source : Buffer) : Buffer := fun i =>
  if off ≤ i ∧ i < off + n then source (i - off) else b i

theorem splice_of_outside {source : Buffer} (h : pos < off ∨ off + n ≤ pos) :
    splice b off n source pos = b pos :=
  if_neg (by omega)

theorem splice_apply {source : Buffer} (h : k < n) :
    splice b off n source (off + k) = source k := by
  unfold splice
  rw [if_pos (by omega), Nat.add_sub_cancel_left]

section Fields

/-- 16-bit field. -/
def readU16 (b : Buffer) (off : Nat) : Nat := (b off).toNat + 256 * (b (off + 1)).toNat

/-- 32-bit field. -/
def readU32 (b : Buffer) (off : Nat) : Nat :=
  readU16 b off + 65536 * readU16 b (off + 2)

def writeU16 (b : Buffer) (off v : Nat) : Buffer := splice b off 2 (byteOf v)

def writeU32 (b : Buffer) (off v : Nat) : Buffer := splice b off 4 (byteOf v)

theorem readU16_lt (b : Buffer) (off : Nat) : readU16 b off < 65536 := by
  have h₀ := (b off).isLt
  have h₁ := (b (off + 1)).isLt
  unfold readU16
  omega

theorem readU32_lt (b : Buffer) (off : Nat) : readU32 b off < 2 ^ 32 := by
  have h₀ := readU16_lt b off
  have h₁ := readU16_lt b (off + 2)
  unfold readU32
  omega

theorem readU16_congr (h : ∀ k < 2, b (off + k) = c (pos + k)) : readU16 b off = readU16 c pos := by
  have h₀ : b off = c pos := h 0 (by omega)
  have h₁ := h 1 (by omega)
  unfold readU16
  rw [h₀, h₁]

theorem readU32_congr (h : ∀ k < 4, b (off + k) = c (pos + k)) : readU32 b off = readU32 c pos := by
  have h₀ : readU16 b off = readU16 c pos := readU16_congr fun k hk => h k (by omega)
  have h₂ : readU16 b (off + 2) = readU16 c (pos + 2) := readU16_congr fun k hk => by
    rw [Nat.add_assoc, Nat.add_assoc]
    exact h (2 + k) (by omega)
  unfold readU32
  rw [h₀, h₂]

theorem readU16_byteOf (hv : v < 65536) : readU16 (byteOf v) 0 = v := by
  simp only [readU16, byteOf, BitVec.toNat_ofNat]
  omega

theorem readU32_byteOf (hv : v < 2 ^ 32) : readU32 (byteOf v) 0 = v := by
  simp only [readU32, readU16, byteOf, BitVec.toNat_ofNat]
  omega

theorem readU16_splice {source : Buffer} (h : k + 2 ≤ n) :
    readU16 (splice b off n source) (off + k) = readU16 source k :=
  readU16_congr fun j hj => by rw [Nat.add_assoc]; exact splice_apply (by omega)

theorem readU32_splice {source : Buffer} (h : k + 4 ≤ n) :
    readU32 (splice b off n source) (off + k) = readU32 source k :=
  readU32_congr fun j hj => by rw [Nat.add_assoc]; exact splice_apply (by omega)

theorem readU16_splice_of_outside {source : Buffer} (h : pos + 2 ≤ off ∨ off + n ≤ pos) :
    readU16 (splice b off n source) pos = readU16 b pos :=
  readU16_congr fun _ _ => splice_of_outside (by omega)

theorem readU32_splice_of_outside {source : Buffer} (h : pos + 4 ≤ off ∨ off + n ≤ pos) :
    readU32 (splice b off n source) pos = readU32 b pos :=
  readU32_congr fun _ _ => splice_of_outside (by omega)

theorem readU16_writeU16 (hv : v < 65536) : readU16 (writeU16 b off v) off = v :=
  (readU16_splice (k := 0) (by omega)).trans (readU16_byteOf hv)

theorem readU32_writeU32_mod : readU32 (writeU32 b off v) off = v % 2 ^ 32 := by
  have hsplice : readU32 (writeU32 b off v) off = readU32 (byteOf v) 0 :=
    readU32_congr fun k hk => (splice_apply hk).trans (congrArg _ (Nat.zero_add k).symm)
  rw [hsplice]
  simp only [readU32, readU16, byteOf, BitVec.toNat_ofNat]
  omega

theorem readU32_writeU32 (hv : v < 2 ^ 32) : readU32 (writeU32 b off v) off = v :=
  (readU32_splice (k := 0) (by omega)).trans (readU32_byteOf hv)

theorem readU32_writeU32_of_ne (h : pos + 4 ≤ off ∨ off + 4 ≤ pos) :
    readU32 (writeU32 b off v) pos = readU32 b pos :=
  readU32_splice_of_outside h

theorem readU32_writeU16_of_ne (h : pos + 4 ≤ off ∨ off + 2 ≤ pos) :
    readU32 (writeU16 b off v) pos = readU32 b pos :=
  readU32_splice_of_outside h

theorem readU16_writeU32_of_ne (h : pos + 2 ≤ off ∨ off + 4 ≤ pos) :
    readU16 (writeU32 b off v) pos = readU16 b pos :=
  readU16_splice_of_outside h

theorem readU16_writeU16_of_ne (h : pos + 2 ≤ off ∨ off + 2 ≤ pos) :
    readU16 (writeU16 b off v) pos = readU16 b pos :=
  readU16_splice_of_outside h

end Fields

section Words

variable {ws : List (BitVec 64)}

/-- 64-bit word. -/
def readU64 (b : Buffer) (off : Nat) : BitVec 64 :=
  BitVec.ofNat 64 (readU32 b off + 2 ^ 32 * readU32 b (off + 4))

def writeU64 (b : Buffer) (off : Nat) (w : BitVec 64) : Buffer := splice b off 8 (byteOf w.toNat)

/-- `n` consecutive words. -/
def readWords (b : Buffer) (off : Nat) : Nat → List (BitVec 64)
  | 0 => []
  | n + 1 => readU64 b off :: readWords b (off + 8) n

/-- Consecutive words stored from `off` on. -/
def writeWords (b : Buffer) (off : Nat) : List (BitVec 64) → Buffer
  | [] => b
  | w :: ws => writeWords (writeU64 b off w) (off + 8) ws

theorem readU64_congr (h : ∀ k < 8, b (off + k) = c (pos + k)) : readU64 b off = readU64 c pos := by
  have h₀ : readU32 b off = readU32 c pos := readU32_congr fun k hk => h k (by omega)
  have h₄ : readU32 b (off + 4) = readU32 c (pos + 4) := readU32_congr fun k hk => by
    rw [Nat.add_assoc, Nat.add_assoc]
    exact h (4 + k) (by omega)
  unfold readU64
  rw [h₀, h₄]

theorem readU64_writeU64 (w : BitVec 64) : readU64 (writeU64 b off w) off = w := by
  have hsplice : readU64 (writeU64 b off w) off = readU64 (byteOf w.toNat) 0 :=
    readU64_congr fun k hk => (splice_apply hk).trans (congrArg _ (Nat.zero_add k).symm)
  have hw := w.isLt
  rw [hsplice]
  apply BitVec.eq_of_toNat_eq
  simp only [readU64, readU32, readU16, byteOf, BitVec.toNat_ofNat]
  omega

theorem writeU64_of_outside {w : BitVec 64} (h : pos < off ∨ off + 8 ≤ pos) :
    writeU64 b off w pos = b pos :=
  splice_of_outside h

theorem writeWords_of_outside (h : pos < off ∨ off + 8 * ws.length ≤ pos) :
    writeWords b off ws pos = b pos := by
  induction ws generalizing b off with
  | nil => rfl
  | cons w ws ih =>
    rw [length_cons] at h
    rw [writeWords, ih (by omega), writeU64_of_outside (by omega)]

theorem readWords_congr (h : ∀ k < 8 * n, b (off + k) = c (pos + k)) :
    readWords b off n = readWords c pos n := by
  induction n generalizing off pos with
  | zero => rfl
  | succ n ih =>
    have hhead : readU64 b off = readU64 c pos := readU64_congr fun k hk => h k (by omega)
    have htail : readWords b (off + 8) n = readWords c (pos + 8) n := ih fun k hk => by
      rw [Nat.add_assoc, Nat.add_assoc]
      exact h (8 + k) (by omega)
    rw [readWords, readWords, hhead, htail]

theorem readWords_writeWords : readWords (writeWords b off ws) off ws.length = ws := by
  induction ws generalizing b off with
  | nil => rfl
  | cons w ws ih =>
    have hhead : readU64 (writeWords (writeU64 b off w) (off + 8) ws) off = w :=
      (readU64_congr fun k hk => writeWords_of_outside (by omega)).trans
        (readU64_writeU64 w)
    rw [length_cons, readWords, writeWords, hhead, ih]

end Words

section Bits

/-- Bit `n` of a bitmap. -/
def bit (b : Buffer) (n : Nat) : Bool := (b (n / 8)).getLsbD (n % 8)

def setBit (b : Buffer) (n : Nat) : Buffer := fun i =>
  if i = n / 8 then b i ||| (1#8 <<< (n % 8)) else b i

theorem getLsbD_one_shiftLeft {i j : Nat} (hi : i < 8) :
    (1#8 <<< j).getLsbD i = decide (i = j) := by
  rw [BitVec.getLsbD_shiftLeft, BitVec.getLsbD_one]
  by_cases h : i = j
  · simp [h, h ▸ hi]
  · by_cases hlt : i < j
    · simp [hlt, h]
    · simp [show i - j ≠ 0 by omega, h]

theorem bit_setBit (n m : Nat) : (setBit b n).bit m = (decide (m = n) || b.bit m) := by
  have hlt : m % 8 < 8 := Nat.mod_lt _ (by omega)
  unfold bit setBit
  by_cases hbyte : m / 8 = n / 8
  · rw [if_pos hbyte, BitVec.getLsbD_or, getLsbD_one_shiftLeft hlt, Bool.or_comm]
    congr 1
    exact decide_eq_decide.mpr (by omega)
  · rw [if_neg hbyte, show decide (m = n) = false from
      decide_eq_false (by rintro rfl; exact hbyte rfl)]
    rfl

theorem bit_zero (n : Nat) : zero.bit n = false := by simp [bit, zero]

/-- Number of clear bits among the first `n`. -/
def clearBits (b : Buffer) (n : Nat) : Nat := (range n).countP fun i => !b.bit i

/-- The first `n` bits set. -/
def setFirst (n : Nat) : Buffer := (range n).foldl setBit zero

theorem bit_foldl_setBit (ns : List Nat) (b : Buffer) (m : Nat) :
    (ns.foldl setBit b).bit m = (decide (m ∈ ns) || b.bit m) := by
  induction ns generalizing b with
  | nil => simp
  | cons n ns ih =>
    rw [foldl_cons, ih, bit_setBit]
    by_cases hmn : m = n <;> by_cases hm : m ∈ ns <;> simp [hmn, hm]

theorem bit_setFirst (n m : Nat) : (setFirst n).bit m = decide (m < n) := by
  rw [setFirst, bit_foldl_setBit, bit_zero, Bool.or_false]
  simp

theorem clearBits_setFirst (n m : Nat) : clearBits (setFirst n) m = m - n := by
  unfold clearBits
  induction m with
  | zero => simp
  | succ m ih =>
    rw [range_succ, countP_append, ih]
    by_cases h : m < n
    · simp [bit_setFirst, h]
      omega
    · simp [bit_setFirst, h]
      omega

end Bits

end Buffer
end PureCOS
