import PureCOS.Ext2.Inode
import PureCOS.Lib.While

/-!
# Directories

`fs/ext2/dir.c` and the directory walks of `fs/ext2/meta.c`.  The blocks of a directory
hold records: inode number, length of the record, length of the name, type, name.  Five
functions walk over the records: looking a name up, listing, adding an entry, removing
one, and testing whether there is any.

The lengths come from the disk.  Each walk is a loop whose rounds are the records it
visits; a round in which the source goes on to the next block is a round too.  Bytes
past the end of a block stand for the memory behind the buffer it was read to.
-/

namespace PureCOS.Ext2

open While (Round)

variable (v : Volume) (d : Disk)

/-- `(mode & 0xF000) == EXT2_S_IFDIR` -/
def isDir (inode : Buffer) : Bool := inode.readU16 0 &&& 0xF000 == 0x4000

/-! ## Records -/

section Records

variable (blk : Buffer) (off : Nat)

/-- Inode number of a record. -/
def recIno : Nat := blk.readU32 off

/-- Length of a record. -/
def recLen : Nat := blk.readU16 (off + 4)

/-- Length of the name in a record. -/
def recNameLen : Nat := (blk (off + 6)).toNat

/-- The name in a record. -/
def recName : List Byte := (List.range (recNameLen blk off)).map fun i => blk (off + 8 + i)

/-- The name is `.` or `..`. -/
def isDot : Bool := recName blk off == [0x2E] || recName blk off == [0x2E, 0x2E]

/-- Bytes that a record for a name of `n` bytes needs. -/
def recNeeded (n : Nat) : Nat := 8 + (n + 3) / 4 * 4

/-- A record of `len` bytes written at `off`, its end filled with zeros. -/
def putRecord (name : List Byte) (ino len : Nat) (type : Byte) : Buffer :=
  let blk := blk.writeU32 off ino
  let blk := blk.writeU16 (off + 4) len
  let blk := blk.splice (off + 6) 2 (fun i => [BitVec.ofNat 8 name.length, type].getD i 0)
  let blk := blk.splice (off + 8) name.length (fun i => name.getD i 0)
  blk.splice (off + (8 + name.length)) (len - (8 + name.length)) Buffer.zero

end Records

/-! ## Looking up -/

/-- What a walk by offsets finds at an offset of the directory. -/
inductive Visit where
  | past
  | hole
  | unreadable
  | boundary
  | corrupt
  | record (blk : Buffer)

variable (dib blk : Buffer)

/-- The checks that `ext2_dir_find` and `ext2_dir_list` make before they use a record. -/
def visitAt (offset : Nat) : Visit :=
  let block := inodeBlockPtr v d dib (offset / v.blockSize)
  let off := offset % v.blockSize
  if dib.readU32 4 ≤ offset then
    .past
  else if block = 0 then
    .hole
  else
    match readBlock v d block with
    | none => .unreadable
    | some blk =>
      if v.blockSize < off + 8 then
        .boundary
      else if recLen blk off = 0 ∨ v.blockSize - off < recLen blk off ∨
          v.blockSize - off - 8 < recNameLen blk off then
        .corrupt
      else
        .record blk

/-- Start of the next block. -/
def nextBlock (offset : Nat) : Nat := u32 ((offset / v.blockSize + 1) * v.blockSize)

/-- Start of the next record. -/
def nextRecord (offset : Nat) : Nat :=
  u32 (offset + recLen blk (offset % v.blockSize))

/-- A record in use; numbers beyond the inodes of the volume are passed over. -/
def recLive (off : Nat) : Prop :=
  recIno blk off ≠ 0 ∧ recIno blk off ≤ v.totalInodes

instance (blk : Buffer) (off : Nat) : Decidable (recLive v blk off) :=
  inferInstanceAs (Decidable (_ ∧ _))

/-- One round of `ext2_dir_find` at an offset of the directory. -/
def findStep (name : List Byte) (offset : Nat) : Round Nat (Except Int (Nat × Byte)) :=
  let off := offset % v.blockSize
  match visitAt v d dib offset with
  | .past => .leave (.error (-2))
  | .hole => .leave (.error (-2))
  | .unreadable => .leave (.error (-1))
  | .boundary => .next (nextBlock v offset)
  | .corrupt => .leave (.error (-3))
  | .record blk =>
    if recLive v blk off ∧ recName blk off = name then
      .leave (.ok (recIno blk off, blk (off + 7)))
    else
      .next (nextRecord v blk offset)

/-! ## Listing -/

/-- An entry of a listing. -/
structure Entry where
  name : List Byte
  size : Nat
  directory : Bool

/-- The entry that a record gives. -/
def entryOf (off : Nat) : Entry :=
  match inodeRead v d (recIno blk off) with
  | none => { name := recName blk off, size := 0, directory := false }
  | some eib => { name := recName blk off, size := eib.readU32 4, directory := isDir eib }

/-- Whether `ext2_dir_list` lists a record. -/
def listed (nameCapacity : Nat) (blk : Buffer) (off : Nat) : Bool :=
  recLive v blk off && 0 < recNameLen blk off && recNameLen blk off < nameCapacity &&
    !isDot blk off

/-- One round of `ext2_dir_list`: the offset and what has been listed so far. -/
def listStep (nameCapacity capacity : Nat) (s : Nat × List Entry) :
    Round (Nat × List Entry) (Except Int (List Entry)) :=
  if capacity ≤ s.2.length then
    .leave (.ok s.2)
  else
    match visitAt v d dib s.1 with
    | .past => .leave (.ok s.2)
    | .hole => .leave (.ok s.2)
    | .unreadable => .leave (.error (-1))
    | .boundary => .next (nextBlock v s.1, s.2)
    | .corrupt => .leave (.ok s.2)
    | .record blk =>
      let off := s.1 % v.blockSize
      if listed v nameCapacity blk off then
        .next (nextRecord v blk s.1, s.2 ++ [entryOf v d blk off])
      else
        .next (nextRecord v blk s.1, s.2)

/-! ## Adding an entry -/

/-- A block of the directory with the new record in it, and the size of the directory then. -/
structure Placement where
  block : Nat
  data : Buffer
  size : Nat

/-- `block_count` -/
def dirBlocks (size : Nat) : Nat := u32 (size + v.blockSize - 1) / v.blockSize

/--
What `ext2_dir_add_entry` does with the record at `off` of its block `logical`: the new
record takes the place of an unused one, or the end of the last one.  `none` goes on.
-/
def placeAt (size logical block : Nat) (blk : Buffer) (off : Nat)
    (name : List Byte) (ino : Nat) (type : Byte) : Option Placement :=
  let cur := recLen blk off
  let global := u32 (logical * v.blockSize + off)
  if recIno blk off = 0 then
    if recNeeded name.length ≤ cur then
      some { block := block, data := putRecord blk off name ino cur type, size := size }
    else
      none
  else
    let ideal := recNeeded (recNameLen blk off)
    let remain := u32 (cur + 2 ^ 32 - ideal)
    if size ≤ u32 (global + cur) ∧ recNeeded name.length ≤ remain then
      some
        { block := block
          data := putRecord (blk.writeU16 (off + 4) ideal) (off + ideal) name ino remain type
          size := max size (u32 (global + ideal + remain)) }
    else
      none

/-- One round of the walk of `ext2_dir_add_entry` over the blocks of the directory. -/
def addStep (name : List Byte) (ino : Nat) (type : Byte) (s : Nat × Nat) :
    Round (Nat × Nat) (Except Int (Option Placement)) :=
  let size := dib.readU32 4
  let block := inodeBlockPtr v d dib s.1
  if max (dirBlocks v size) 1 ≤ s.1 then
    .leave (.ok none)
  else if block = 0 then
    .next (s.1 + 1, 0)
  else
    match readBlock v d block with
    | none => .leave (.error (-1))
    | some blk =>
      if v.blockSize ≤ s.2 then
        .next (s.1 + 1, 0)
      else if recLen blk s.2 = 0 ∨ v.blockSize - s.2 < recLen blk s.2 then
        .leave (.error (-3))
      else
        match placeAt v size s.1 block blk s.2 name ino type with
        | some p => .leave (.ok (some p))
        | none => .next (s.1, s.2 + recLen blk s.2)

/-! ## Removing an entry, and the emptiness test -/

/-- The checks that `dir_remove_entry` and `dir_is_empty` make on a record. -/
def recordSane (off : Nat) : Bool :=
  8 ≤ recLen blk off && recLen blk off ≤ v.blockSize - off && recNameLen blk off ≤
    recLen blk off - 8

/-- The block without the record at `off`: its bytes go to the record before it, if any. -/
def unlinkRecord (previous : Option Nat) (off : Nat) : Buffer :=
  match previous with
  | some before => blk.writeU16 (before + 4) (recLen blk before + recLen blk off)
  | none => (blk.writeU32 off 0).splice (off + 6) 1 Buffer.zero

/-- Where a walk of `meta.c` is: block of the directory, offset, offset of the record before. -/
structure Cursor where
  logical : Nat
  off : Nat
  previous : Option Nat

/-- The next block. -/
def Cursor.nextBlock (s : Cursor) : Cursor :=
  { logical := s.logical + 1, off := 0, previous := none }

/-- The next record. -/
def Cursor.nextRecord (s : Cursor) (len : Nat) : Cursor :=
  { s with off := s.off + len, previous := some s.off }

/-- A round of the walks of `meta.c`: `visit` says what is done with a sound record. -/
def metaStep {α : Type} (visit : Nat → Buffer → Cursor → Option α) (s : Cursor) :
    Round Cursor (Except Int (Option α)) :=
  let block := inodeBlockPtr v d dib s.logical
  if dirBlocks v (dib.readU32 4) ≤ s.logical then
    .leave (.ok none)
  else if block = 0 then
    .next s.nextBlock
  else
    match readBlock v d block with
    | none => .leave (.error (-1))
    | some blk =>
      if v.blockSize < s.off + 8 then
        .next s.nextBlock
      else if recordSane v blk s.off = false then
        .leave (.error (-3))
      else
        match visit block blk s with
        | some a => .leave (.ok (some a))
        | none => .next (s.nextRecord (recLen blk s.off))

/-- The entry to remove: its block, and the block without it. -/
def removeVisit (name : List Byte) (block : Nat) (blk : Buffer) (s : Cursor) :
    Option (Nat × Buffer) :=
  if recIno blk s.off ≠ 0 ∧ recName blk s.off = name then
    some (block, unlinkRecord blk s.previous s.off)
  else
    none

/-- An entry other than `.` and `..`. -/
def emptyVisit (_ : Nat) (blk : Buffer) (s : Cursor) : Option Unit :=
  if recIno blk s.off ≠ 0 ∧ isDot blk s.off = false then some () else none

end PureCOS.Ext2
