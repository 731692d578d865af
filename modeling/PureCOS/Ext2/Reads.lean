import PureCOS.Ext2.Inode

/-!
# Reading a file

`fs/ext2/file.c`: `ext2_file_read` reads from the position of an open file.  What it
should return is what is left of the file there, at most `count` bytes.

Sums of positions and counts are formed in 32 bits before they are compared with a
size, and the number of bytes is returned as an `int32_t`.
-/

namespace PureCOS.Ext2

open Buffer

structure Handle where
  used : Bool
  inode : Nat
  size : Nat
  position : Nat
deriving DecidableEq

/-- A mounted volume and the open files. -/
structure Files where
  volume : Volume
  disk : Disk
  handles : List Handle

def descriptorBase : Int := 3

variable (s : Files) (descriptor : Int)

/-- The open handle a descriptor names. -/
def Files.handle : Option Handle :=
  if descriptor < descriptorBase then
    none
  else
    match s.handles[(descriptor - descriptorBase).toNat]? with
    | none => none
    | some h => if h.used then some h else none

/-- The handle of a descriptor replaced. -/
def Files.setHandle (h : Handle) : Files :=
  { s with handles := s.handles.set (descriptor - descriptorBase).toNat h }

/-- `ext2_file_read`; no buffer is a null pointer. -/
def fileRead (buffer : Option Buffer) (count : Nat) : Files × Int × Option Buffer :=
  match s.handle descriptor with
  | none => (s, -3, buffer)
  | some h =>
    if buffer = none ∧ count ≠ 0 then
      (s, -3, none)
    else if h.size ≤ h.position then
      (s, 0, buffer)
    else
      let count := if h.size < u32 (h.position + count) then h.size - h.position else count
      match inodeRead s.volume s.disk h.inode with
      | none => (s, -1, buffer)
      | some ib =>
        match inodeReadData s.volume s.disk ib h.position (buffer.getD zero) count with
        | (got, buf) =>
          if 0 < got then
            (s.setHandle descriptor { h with position := u32 (h.position + got.toNat) },
              got, buffer.map fun _ => buf)
          else
            (s, got, buffer.map fun _ => buf)

/-- What is left of the file at the position, at most `count` bytes. -/
def rest (h : Handle) (ib : Buffer) (count : Nat) : Nat := min count (ib.readU32 4 - h.position)

/-- The read returns what is left, and only that part of the buffer and the position change. -/
structure ReadsRest
    (s : Files)
    (descriptor : Int)
    (h : Handle)
    (ib buf : Buffer)
    (count : Nat) : Prop where
  status : (fileRead s descriptor (some buf) count).2.1 = (rest h ib count : Int)
  bytes : ∃ out, (fileRead s descriptor (some buf) count).2.2 = some out ∧
    (∀ i < rest h ib count, out i = fileByte s.volume s.disk ib (h.position + i)) ∧
    ∀ i, rest h ib count ≤ i → out i = buf i
  position : (fileRead s descriptor (some buf) count).1 =
    s.setHandle descriptor { h with position := h.position + rest h ib count }

/--
Nothing is left or asked for; or the sum of position and count fits 32 bits, the size
noted in the handle covers what is read, the number fits an `int32_t`, and the blocks
are blocks of the volume.
-/
def InReach (h : Handle) (ib : Buffer) (count : Nat) : Prop :=
  rest h ib count = 0 ∨
    (h.position + count < 2 ^ 32 ∧ h.position + rest h ib count ≤ h.size ∧
      rest h ib count < 2 ^ 31 ∧
      ∀ pos, h.position ≤ pos → pos < h.position + rest h ib count →
        OnVolume s.volume s.disk ib pos)

section Lemmas

variable {s : Files} {descriptor : Int} {h : Handle} {ib buf : Buffer} {count : Nat}

theorem Files.setHandle_self (hh : s.handle descriptor = some h) :
    s.setHandle descriptor h = s := by
  unfold Files.handle at hh
  split at hh
  · cases hh
  split at hh
  · cases hh
  next h' hget =>
  split at hh
  · obtain rfl := Option.some.inj hh
    obtain ⟨hlt, hval⟩ := List.getElem?_eq_some_iff.mp hget
    unfold Files.setHandle
    rw [← hval, List.set_getElem_self]
  · cases hh

/-- Which bytes are asked of the inode, once the handle has been looked at. -/
def asked (h : Handle) (count : Nat) : Nat :=
  if h.size < u32 (h.position + count) then h.size - h.position else count

/-- A read through a handle is a read of its inode at the position. -/
theorem fileRead_eq (hh : s.handle descriptor = some h) (hlt : h.position < h.size)
    (hib : inodeRead s.volume s.disk h.inode = some ib) {got : Int} {out : Buffer}
    (hread : inodeReadData s.volume s.disk ib h.position buf (asked h count) = (got, out)) :
    fileRead s descriptor (some buf) count =
      (if 0 < got then
        s.setHandle descriptor { h with position := u32 (h.position + got.toNat) }
      else s, got, some out) := by
  have hopen : ¬ h.size ≤ h.position := by omega
  unfold asked at hread
  simp only [fileRead, hh, hib, hopen, hread, Option.getD_some, Option.map_some, reduceCtorEq,
    false_and, if_false]
  split <;> rfl

theorem fileRead_at_end (hh : s.handle descriptor = some h) (hle : h.size ≤ h.position) :
    fileRead s descriptor (some buf) count = (s, 0, some buf) := by
  simp [fileRead, hh, hle]

/-- Nothing left or nothing asked for: the read returns zero and changes nothing. -/
theorem fileRead_of_rest_eq_zero (hh : s.handle descriptor = some h) (hpos : h.position < 2 ^ 32)
    (hib : inodeRead s.volume s.disk h.inode = some ib) (hrest : rest h ib count = 0) :
    fileRead s descriptor (some buf) count = (s, 0, some buf) := by
  by_cases hle : h.size ≤ h.position
  · exact fileRead_at_end hh hle
  have hread : inodeReadData s.volume s.disk ib h.position buf (asked h count) = (0, buf) := by
    unfold inodeReadData
    dsimp only
    split
    · rfl
    next hlt =>
    obtain rfl : count = 0 := by
      unfold rest at hrest
      omega
    have hasked : asked h 0 = 0 := by
      unfold asked
      rw [Nat.add_zero, u32_of_lt hpos, if_neg (by omega)]
    rw [hasked, Nat.add_zero, u32_of_lt hpos, if_neg (by omega)]
    rfl
  rw [fileRead_eq hh (by omega) hib hread]
  rfl

theorem inodeReadData_of_lt {offset n : Nat} (hlt : offset < ib.readU32 4)
    (hsum : offset + n < 2 ^ 32) :
    inodeReadData s.volume s.disk ib offset buf n =
      readDataLoop s.volume s.disk ib offset (min n (ib.readU32 4 - offset))
        (min n (ib.readU32 4 - offset)) 0 buf := by
  unfold inodeReadData
  rw [if_neg (by omega), u32_of_lt hsum]
  have hmin : (if ib.readU32 4 < offset + n then ib.readU32 4 - offset else n) =
      min n (ib.readU32 4 - offset) := by
    split <;> omega
  rw [hmin]

/-- How many bytes are read where no sum overflows. -/
def taken (h : Handle) (ib : Buffer) (count : Nat) : Nat :=
  min (min count (h.size - h.position)) (ib.readU32 4 - h.position)

theorem inodeReadData_asked (hpos : h.position < h.size) (hend : h.position < ib.readU32 4)
    (hsum : h.position + count < 2 ^ 32) :
    inodeReadData s.volume s.disk ib h.position buf (asked h count) =
      readDataLoop s.volume s.disk ib h.position (taken h ib count) (taken h ib count) 0 buf := by
  have hasked : asked h count = min count (h.size - h.position) := by
    unfold asked
    rw [u32_of_lt hsum]
    split <;> omega
  rw [hasked, inodeReadData_of_lt hend (by omega)]
  rfl

section Inside

variable (hv : Usable s.volume) (hh : s.handle descriptor = some h) (hpos : h.position < h.size)
  (hib : inodeRead s.volume s.disk h.inode = some ib) (hend : h.position < ib.readU32 4)

include hv hh hpos hib hend

/-- A sum that overflows is not seen to pass the end: all that was asked for is read. -/
theorem fileRead_of_overflow (buf : Buffer) (hcount : count < 2 ^ 32)
    (hsum : 2 ^ 32 ≤ h.position + count) : (fileRead s descriptor (some buf) count).2.1 = -1 ∨
    (fileRead s descriptor (some buf) count).2.1 = toInt32 count := by
  have hwrap : u32 (h.position + count) < h.position := by
    have := readU32_lt ib 4
    unfold u32
    omega
  have hasked : asked h count = count := by
    unfold asked
    rw [if_neg (by omega)]
  have hread : inodeReadData s.volume s.disk ib h.position buf (asked h count) =
      readDataLoop s.volume s.disk ib h.position count count 0 buf := by
    unfold inodeReadData
    rw [hasked, if_neg (by omega), if_neg (by omega)]
  rw [fileRead_eq hh hpos hib hread]
  exact readDataLoop_status hv.blockSize_pos (Nat.zero_le _) (Nat.le_refl _)

/-- A read of blocks of the volume. -/
theorem fileRead_of_onVolume (buf : Buffer) (hsum : h.position + count < 2 ^ 32)
    (hon : ∀ pos, h.position ≤ pos → pos < h.position + taken h ib count →
      OnVolume s.volume s.disk ib pos) :
    fileRead s descriptor (some buf) count =
      (if 0 < toInt32 (taken h ib count) then
        s.setHandle descriptor
          { h with position := u32 (h.position + (toInt32 (taken h ib count)).toNat) }
      else s, toInt32 (taken h ib count),
        some (filled s.volume s.disk ib h.position 0 (taken h ib count) buf)) := by
  have htaken : taken h ib count ≤ count := by
    unfold taken
    omega
  refine fileRead_eq hh hpos hib ?_
  rw [inodeReadData_asked hpos hend hsum]
  exact readDataLoop_of_onVolume hv.blockSize_pos (by omega) hon (Nat.zero_le _) (Nat.le_refl _)

/-- A read that meets a block number beyond the volume. -/
theorem fileRead_of_wild (hsum : h.position + count < 2 ^ 32) {pos : Nat} (hlo : h.position ≤ pos)
    (hhi : pos < h.position + taken h ib count) (hwild : ¬ OnVolume s.volume s.disk ib pos) :
    (fileRead s descriptor (some buf) count).2.1 = -1 := by
  have htaken : taken h ib count ≤ count := by
    unfold taken
    omega
  rw [fileRead_eq hh hpos hib (inodeReadData_asked hpos hend hsum)]
  exact readDataLoop_of_wild hv.blockSize_pos (by omega) hlo hhi hwild (Nat.le_refl _)

end Inside

theorem ReadsRest.of_rest_eq_zero (hh : s.handle descriptor = some h) (hpos : h.position < 2 ^ 32)
    (hib : inodeRead s.volume s.disk h.inode = some ib) (hrest : rest h ib count = 0) :
    ReadsRest s descriptor h ib buf count := by
  have hread : fileRead s descriptor (some buf) count = (s, 0, some buf) :=
    fileRead_of_rest_eq_zero hh hpos hib hrest
  constructor
  · rw [hread, hrest]
    rfl
  · rw [hread, hrest]
    exact ⟨buf, rfl, fun i hi => absurd hi (Nat.not_lt_zero i), fun _ _ => rfl⟩
  · rw [hread, hrest]
    exact (Files.setHandle_self hh).symm

theorem InReach.readsRest (hv : Usable s.volume) (hh : s.handle descriptor = some h)
    (hpos : h.position < 2 ^ 32) (hib : inodeRead s.volume s.disk h.inode = some ib)
    (hreach : InReach s h ib count) : ReadsRest s descriptor h ib buf count := by
  by_cases hrest : rest h ib count = 0
  · exact ReadsRest.of_rest_eq_zero hh hpos hib hrest
  obtain ⟨hsum, hsize, hint, hon⟩ := hreach.resolve_left hrest
  have htaken : taken h ib count = rest h ib count := by
    unfold taken rest at *
    omega
  have hle : rest h ib count ≤ count := Nat.min_le_left _ _
  have hend : h.position < ib.readU32 4 := by
    unfold rest at hrest
    omega
  have hint' : toInt32 (rest h ib count) = (rest h ib count : Int) := if_pos hint
  have hread := fileRead_of_onVolume hv hh (by omega) hib hend buf hsum (htaken ▸ hon)
  rw [htaken, hint', if_pos (by omega), Int.toNat_natCast,
    u32_of_lt (show h.position + rest h ib count < 2 ^ 32 by omega)] at hread
  constructor
  · rw [hread]
  · rw [hread]
    refine ⟨_, rfl, fun i hi => if_pos ⟨Nat.zero_le i, hi⟩, fun i hi => if_neg ?_⟩
    omega
  · rw [hread]

theorem ReadsRest.inReach (hv : Usable s.volume) (hh : s.handle descriptor = some h)
    (hcount : count < 2 ^ 32) (hib : inodeRead s.volume s.disk h.inode = some ib)
    (hread : ReadsRest s descriptor h ib buf count) : InReach s h ib count := by
  by_cases hrest : rest h ib count = 0
  · exact .inl hrest
  have hstatus := hread.status
  have hle : rest h ib count ≤ count := Nat.min_le_left _ _
  have hend : h.position < ib.readU32 4 := by
    unfold rest at hrest
    omega
  by_cases hopen : h.size ≤ h.position
  · rw [fileRead_at_end hh hopen] at hstatus
    exact absurd (Int.ofNat.inj hstatus).symm hrest
  have hsum : h.position + count < 2 ^ 32 := by
    by_contra hover
    have hlt : rest h ib count < count := by
      have := readU32_lt ib 4
      unfold rest
      omega
    rcases fileRead_of_overflow hv hh (by omega) hib hend buf hcount (by omega) with h' | h'
    · omega
    · rw [hstatus] at h'
      unfold toInt32 at h'
      split at h' <;> omega
  have htaken : taken h ib count ≤ rest h ib count := by
    unfold taken rest
    omega
  by_cases hon : ∀ pos, h.position ≤ pos → pos < h.position + taken h ib count →
      OnVolume s.volume s.disk ib pos
  · rw [fileRead_of_onVolume hv hh (by omega) hib hend buf hsum hon] at hstatus
    dsimp only at hstatus
    have hint : taken h ib count < 2 ^ 31 ∧ taken h ib count = rest h ib count := by
      unfold toInt32 at hstatus
      have hlt : taken h ib count < 2 ^ 32 := by omega
      split at hstatus <;> omega
    refine .inr ⟨hsum, ?_, hint.2 ▸ hint.1, hint.2 ▸ hon⟩
    have := hint.2
    unfold taken at this
    omega
  · obtain ⟨pos, hpos'⟩ := not_forall.mp hon
    obtain ⟨hlo, hpos'⟩ := Classical.not_imp.mp hpos'
    obtain ⟨hhi, hwild⟩ := Classical.not_imp.mp hpos'
    rw [fileRead_of_wild hv hh (by omega) hib hend hsum hlo hhi hwild] at hstatus
    omega

end Lemmas

/--
A read returns exactly what is left of the file, for every open handle, position and
count, if and only if what is left is in reach.
-/
theorem fileRead_rest_iff
    {s : Files}
    (hv : Usable s.volume)
    {descriptor : Int}
    {h : Handle}
    (hh : s.handle descriptor = some h)
    (hpos : h.position < 2 ^ 32)
    {count : Nat}
    (hcount : count < 2 ^ 32)
    (buf : Buffer) :
    (∃ ib, inodeRead s.volume s.disk h.inode = some ib ∧ ReadsRest s descriptor h ib buf count) ↔
      ∃ ib, inodeRead s.volume s.disk h.inode = some ib ∧ InReach s h ib count := by
  constructor
  · rintro ⟨ib, hib, hread⟩
    exact ⟨ib, hib, hread.inReach hv hh hcount hib⟩
  · rintro ⟨ib, hib, hreach⟩
    exact ⟨ib, hib, hreach.readsRest hv hh hpos hib⟩

/-- Inode 12 is a file of the two bytes 7 and 8, in block 20. -/
def twoByteDisk : Disk := fun b =>
  if b = 2 then zero.writeU32 8 5
  else if b = 6 then ((zero.writeU16 384 0x8000).writeU32 388 2).writeU32 424 20
  else if b = 20 then fun i => [7, 8].getD i 0
  else zero

/-- The file is open and one byte of it has been read. -/
def twoByteFile : Files where
  volume := smallVolume
  disk := twoByteDisk
  handles := [{ used := true, inode := 12, size := 2, position := 1 }]

/-- The second byte is read. -/
theorem fileRead_rest_iff_twoByte :
    Usable twoByteFile.volume ∧
      twoByteFile.handle 3 = some { used := true, inode := 12, size := 2, position := 1 } ∧
      ∃ ib, inodeRead twoByteFile.volume twoByteFile.disk 12 = some ib ∧
        ReadsRest twoByteFile 3 { used := true, inode := 12, size := 2, position := 1 } ib
          zero 5 := by
  have hh : twoByteFile.handle 3 =
      some { used := true, inode := 12, size := 2, position := 1 } := by decide
  refine ⟨smallVolume_usable, hh,
    (fileRead_rest_iff smallVolume_usable hh (by decide) (by decide) zero).mpr
      ⟨_, rfl, .inr ⟨by decide, by decide, by decide, fun pos hlo hhi => ?_⟩⟩⟩
  have hfirst : 1 ≤ pos := hlo
  have hlast : pos < 2 := hhi
  obtain rfl : pos = 1 := by omega
  exact .inr (by decide)

/-- From position 1 a request for `0xFFFFFFFF` bytes is not cut to the one byte that is left. -/
theorem fileRead_overflow_not_rest :
    ¬ ∃ ib, inodeRead twoByteFile.volume twoByteFile.disk 12 = some ib ∧
      ReadsRest twoByteFile 3 { used := true, inode := 12, size := 2, position := 1 } ib
        zero 0xFFFFFFFF := by
  rintro ⟨ib, hib, hread⟩
  have hreach := hread.inReach smallVolume_usable (by decide) (by decide) hib
  have hsize : ib.readU32 4 = 2 := by
    have hrecord : ∃ ib', inodeRead twoByteFile.volume twoByteFile.disk 12 = some ib' ∧
        ib'.readU32 4 = 2 := ⟨_, rfl, by decide⟩
    obtain ⟨ib', hib', hsize⟩ := hrecord
    obtain rfl : ib' = ib := Option.some.inj (hib'.symm.trans hib)
    exact hsize
  rcases hreach with hrest | ⟨hsum, -⟩
  · rw [rest, hsize] at hrest
    simp at hrest
  · exact absurd hsum (by decide)

end PureCOS.Ext2
