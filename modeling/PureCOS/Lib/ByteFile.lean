import PureCOS.Lib.Bytes

/-!
# Files

A file is a sequence of bytes, and an open file has a position in it.  Reads and writes begin at
the position and move it; a write past the end fills the gap with zeros.
-/

namespace PureCOS

open List

section Overwrite

variable {bytes new more : List Byte} {pos i : Nat}

/-- The bytes after a write of `new` at `pos`. -/
def overwrite (bytes : List Byte) (pos : Nat) (new : List Byte) : List Byte :=
  if new = [] then bytes
  else bytes.take pos ++ replicate (pos - bytes.length) 0 ++ new ++ bytes.drop
    (pos + new.length)

@[simp] theorem overwrite_nil : overwrite bytes pos [] = bytes := if_pos rfl

theorem getElem?_overwrite (h : new ≠ []) :
    (overwrite bytes pos new)[i]? =
      if i < pos then some (bytes[i]?.getD 0)
      else if i < pos + new.length then new[i - pos]?
      else bytes[i]? := by
  have hgap : (bytes.take pos ++ replicate (pos - bytes.length) 0).length = pos := by
    rw [length_append, length_take, length_replicate]
    omega
  rw [overwrite, if_neg h, append_assoc, getElem?_append, hgap]
  split
  next hi =>
    rw [getElem?_append, length_take]
    split
    next hlt =>
      have hlen : i < bytes.length := by omega
      rw [getElem?_take_of_lt hi, getElem?_eq_getElem hlen]
      rfl
    next hge =>
      rw [getElem?_replicate, if_pos (by omega), getElem?_eq_none (by omega)]
      rfl
  next hi =>
  rw [getElem?_append]
  by_cases hlt : i - pos < new.length
  · rw [if_pos hlt, if_pos (by omega)]
  · rw [if_neg hlt, if_neg (by omega), getElem?_drop]
    congr 1
    omega

/-- Two writes one after the other are one. -/
theorem overwrite_append : overwrite (overwrite bytes pos new) (pos + new.length) more =
    overwrite bytes pos (new ++ more) := by
  by_cases hmore : more = []
  · rw [hmore, overwrite_nil, append_nil]
  by_cases hnew : new = []
  · subst hnew
    rw [overwrite_nil]
    rfl
  have hboth : new ++ more ≠ [] := fun h => hnew (append_eq_nil_iff.mp h).1
  apply ext_getElem?
  intro i
  rw [getElem?_overwrite hmore, getElem?_overwrite hnew, getElem?_overwrite hboth, length_append]
  by_cases h₁ : i < pos
  · rw [if_pos (by omega), if_pos h₁, if_pos h₁]
    rfl
  rw [if_neg h₁, if_neg h₁]
  by_cases h₂ : i < pos + new.length
  · have hlt : i - pos < new.length := by omega
    rw [if_pos h₂, if_pos h₂, if_pos (by omega), getElem?_append_left hlt, getElem?_eq_getElem hlt]
    rfl
  rw [if_neg h₂, if_neg h₂]
  by_cases h₃ : i < pos + new.length + more.length
  · rw [if_pos h₃, if_pos (by omega), getElem?_append_right (by omega)]
    congr 1
    omega
  · rw [if_neg h₃, if_neg (by omega)]

end Overwrite

/-- Where the offset of a seek counts from. -/
inductive Origin where
  | seekSet
  | seekCur
  | seekEnd
deriving DecidableEq

/-- An open file. -/
structure OpenFile where
  bytes : List Byte
  pos : Nat

namespace OpenFile

variable {f : OpenFile} {n k : Nat} {new more : List Byte}

/-- The bytes that a read of `n` bytes gets. -/
def ahead (f : OpenFile) (n : Nat) : List Byte := (f.bytes.drop f.pos).take n

/-- The position moves forward. -/
def skip (f : OpenFile) (n : Nat) : OpenFile := { f with pos := f.pos + n }

/-- The file after a read. -/
def read (f : OpenFile) (n : Nat) : OpenFile := f.skip (f.ahead n).length

def write (f : OpenFile) (new : List Byte) : OpenFile where
  bytes := overwrite f.bytes f.pos new
  pos := f.pos + new.length

/-- The position that offset 0 means. -/
def base (f : OpenFile) : Origin → Int
  | .seekSet => 0
  | .seekCur => f.pos
  | .seekEnd => f.bytes.length

/-- A position before the first byte is refused. -/
def place (f : OpenFile) (target : Int) : Option OpenFile :=
  if 0 ≤ target then some { f with pos := target.toNat } else none

def seek (f : OpenFile) (offset : Int) (origin : Origin) : Option OpenFile :=
  f.place (offset + f.base origin)

@[simp] theorem write_nil : f.write [] = f := by
  obtain ⟨bytes, pos⟩ := f
  simp [write]

theorem write_write : (f.write new).write more = f.write (new ++ more) := by
  simp only [write, overwrite_append, length_append, Nat.add_assoc]

theorem skip_skip : (f.skip n).skip k = f.skip (n + k) := by
  simp only [skip, Nat.add_assoc]

/-- A read in two parts. -/
theorem ahead_add : f.ahead (n + k) = f.ahead n ++ (f.skip n).ahead k := by
  unfold ahead skip
  rw [take_add, drop_drop]

/-- A part of what a read gets. -/
theorem take_ahead (h : k ≤ n) : (f.ahead n).take k = f.ahead k := by
  unfold ahead
  rw [take_take, Nat.min_eq_left h]

theorem length_ahead_of_le (hn : (f.ahead n).length = n) (h : k ≤ n) : (f.ahead k).length = k := by
  rw [← take_ahead h, length_take, hn, Nat.min_eq_left h]

theorem ahead_zero : f.ahead 0 = [] := take_zero

theorem skip_zero : f.skip 0 = f := rfl

theorem read_zero : f.read 0 = f := by rw [read, ahead_zero, length_nil, skip_zero]

theorem read_of_ahead_nil (h : f.ahead n = []) : f.read n = f := by
  rw [read, h, length_nil, skip_zero]

theorem ahead_length : f.ahead (f.ahead n).length = f.ahead n := by
  unfold ahead
  rw [length_take]
  by_cases h : n ≤ (f.bytes.drop f.pos).length
  · rw [Nat.min_eq_left h]
  · rw [Nat.min_eq_right (by omega), take_length, take_of_length_le (by omega)]

/-- A read in two parts moves as far as the whole one. -/
theorem read_add (hn : (f.ahead n).length = n) : f.read (n + k) = (f.skip n).read k := by
  rw [read, ahead_add, length_append, hn, ← skip_skip]
  rfl

/-- A read that gets nothing is at the end. -/
theorem ahead_eq_nil (hn : 0 < n) (h : f.ahead n = []) : f.ahead k = [] := by
  unfold ahead at h ⊢
  rw [take_eq_nil_iff] at h
  rcases h with h | h
  · omega
  · rw [h, take_nil]

/-- After a read that gets less than it asked for, nothing is left. -/
theorem ahead_read_of_short (h : (f.ahead n).length < n) : (f.read n).ahead k = [] := by
  unfold ahead at h
  rw [length_take, length_drop] at h
  show (f.bytes.drop (f.pos + (f.ahead n).length)).take k = []
  rw [ahead, length_take, length_drop, drop_eq_nil_of_le (by omega), take_nil]

/-- A read gets all there is. -/
theorem ahead_read_rest : (f.read n).ahead (n - (f.ahead n).length) = [] := by
  by_cases h : (f.ahead n).length < n
  · exact ahead_read_of_short h
  · rw [Nat.sub_eq_zero_of_le (by omega), ahead_zero]

theorem place_skip (target : Int) : (f.skip n).place target = f.place target := rfl

theorem place_pos : f.place f.pos = some f := by
  rw [place, if_pos (Int.natCast_nonneg _), Int.toNat_natCast]

/-- A relative seek from a position further on. -/
theorem seek_cur_skip (offset : Int) :
    (f.skip n).seek (offset + -(n : Int)) .seekCur = f.seek offset .seekCur := by
  have htarget : offset + -(n : Int) + (f.skip n).base .seekCur = offset + f.base .seekCur := by
    show offset + -(n : Int) + ((f.pos + n : Nat) : Int) = offset + f.pos
    omega
  rw [seek, htarget, place_skip]
  rfl

/-- Seeking back over what has been skipped. -/
theorem seek_skip : (f.skip n).seek (-(n : Int)) .seekCur = some f := by
  have htarget : -(n : Int) + (f.skip n).base .seekCur = f.pos := by
    show -(n : Int) + ((f.pos + n : Nat) : Int) = f.pos
    omega
  rw [seek, htarget, place_skip, place_pos]

theorem seek_skip_of_ne (offset : Int) {origin : Origin} (h : origin ≠ .seekCur) :
    (f.skip n).seek offset origin = f.seek offset origin := by
  cases origin with
  | seekCur => exact absurd rfl h
  | seekSet | seekEnd => rfl

end OpenFile
end PureCOS
