import PureCOS.Lib.Bytes

/-!
# Big-endian fields

16- and 32-bit fields of a buffer with the most significant byte first, as network packets have
them.
-/

namespace PureCOS.Buffer

variable {b c : Buffer} {off pos n v : Nat}

/-- 16-bit field. -/
def readBE16 (b : Buffer) (off : Nat) : Nat := 256 * (b off).toNat + (b (off + 1)).toNat

/-- 32-bit field. -/
def readBE32 (b : Buffer) (off : Nat) : Nat := 65536 * readBE16 b off + readBE16 b (off + 2)

/-- Byte `i` of a number of two bytes. -/
def bytesBE16 (v : Nat) : Buffer := fun i => byteOf v (1 - i)

/-- Byte `i` of a number of four bytes. -/
def bytesBE32 (v : Nat) : Buffer := fun i => byteOf v (3 - i)

def writeBE16 (b : Buffer) (off v : Nat) : Buffer := splice b off 2 (bytesBE16 v)

def writeBE32 (b : Buffer) (off v : Nat) : Buffer := splice b off 4 (bytesBE32 v)

theorem readBE16_lt (b : Buffer) (off : Nat) : readBE16 b off < 65536 := by
  have h₀ := (b off).isLt
  have h₁ := (b (off + 1)).isLt
  unfold readBE16
  omega

theorem readBE32_lt (b : Buffer) (off : Nat) : readBE32 b off < 2 ^ 32 := by
  have h₀ := readBE16_lt b off
  have h₁ := readBE16_lt b (off + 2)
  unfold readBE32
  omega

theorem readBE16_congr (h : ∀ k < 2, b (off + k) = c (pos + k)) :
    readBE16 b off = readBE16 c pos := by
  have h₀ : b off = c pos := h 0 (by omega)
  have h₁ := h 1 (by omega)
  rw [readBE16, readBE16, h₀, h₁]

theorem readBE32_congr (h : ∀ k < 4, b (off + k) = c (pos + k)) :
    readBE32 b off = readBE32 c pos := by
  have h₀ : readBE16 b off = readBE16 c pos := readBE16_congr fun k hk => h k (by omega)
  have h₂ : readBE16 b (off + 2) = readBE16 c (pos + 2) := readBE16_congr fun k hk => by
    rw [Nat.add_assoc, Nat.add_assoc]
    exact h (2 + k) (by omega)
  rw [readBE32, readBE32, h₀, h₂]

theorem readBE32_writeBE32 : readBE32 (writeBE32 b off v) off = v % 2 ^ 32 := by
  have hsplice : readBE32 (writeBE32 b off v) off = readBE32 (bytesBE32 v) 0 :=
    readBE32_congr fun k hk => (splice_apply hk).trans (congrArg _ (Nat.zero_add k).symm)
  rw [hsplice]
  simp only [readBE32, readBE16, bytesBE32, byteOf, BitVec.toNat_ofNat]
  omega

end PureCOS.Buffer
