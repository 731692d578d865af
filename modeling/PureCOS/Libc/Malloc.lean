import PureCOS.Lib.Bytes
import PureCOS.Lib.LinkedList
import PureCOS.Lib.Run

/-!
# The heap of the C library

`libc/stdlib.c`: `malloc`, `free`, `calloc` and `realloc` over a list of blocks.  Every block has a
header of 24 bytes in front of its payload, with the size of the payload, the address of the next
block and a flag; the headers are in the same memory as the payloads.

Memory is a function from addresses to bytes.  `pc_heap_grow` is part of the environment.  Sums with
a request are those of `size_t`, and wrap.  Sums of sizes and addresses of blocks do not reach 2^64,
as the regions that the system hands out lie in the address space.
-/

namespace PureCOS.Libc

open Buffer

def mallocArena : Nat := 65536
def mallocAlign : Nat := 16

/-- `sizeof(struct malloc_block)` -/
def headerSize : Nat := 24

/-! ## Headers -/

variable (h : Heap) (m : Buffer) (block : Nat) (grow : Grow)

/-- `block->size` -/
def blockSize : Nat := (m.readU64 block).toNat

/-- `block->next` -/
def blockNext : Nat := (m.readU64 (block + 8)).toNat

/-- `block->free` -/
def blockFree : Bool := m (block + 16) != 0

def setSize (size : Nat) : Buffer := m.writeU64 block (BitVec.ofNat 64 size)

def setNext (next : Nat) : Buffer := m.writeU64 (block + 8) (BitVec.ofNat 64 next)

def setFree (free : Bool) : Buffer :=
  m.splice (block + 16) 1 fun _ => if free then 1 else 0

/-! ## The functions -/

/-- Memory, `malloc_head` and the regions that the system has handed out, with their sizes. -/
structure Heap where
  mem : Buffer
  head : Nat
  regions : List (Nat × Nat)

/-- `pc_heap_grow`: the region for a request, if there is one. -/
abbrev Grow := Nat → Option Nat

/-- As many passes of a loop over the list as there are bytes are enough. -/
def Heap.passes : Nat := (h.regions.map Prod.snd).sum + 1

def mallocAlignUp (value : Nat) : Nat :=
  (value + (mallocAlign - 1)) % 2 ^ 64 / mallocAlign * mallocAlign

/-- A block takes in the next one. -/
def absorbNext : Buffer :=
  let m' := setSize m block (blockSize m block + (headerSize + blockSize m (blockNext m block)))
  setNext m' block (blockNext m' (blockNext m' block))

/-- The loop of `malloc_coalesce`. -/
def coalesceLoop : Nat → Buffer → Nat → Buffer
  | 0, m, _ => m
  | passes + 1, m, block =>
    if block = 0 then
      m
    else
      let next := blockNext m block
      if next = 0 then
        m
      else if blockFree m block = true ∧ blockFree m next = true ∧
          block + headerSize + blockSize m block = next then
        coalesceLoop passes (absorbNext m block) block
      else
        coalesceLoop passes m next

def Heap.mallocCoalesce : Heap := { h with mem := coalesceLoop h.passes h.mem h.head }

/-- `while (tail->next) tail = tail->next;` -/
def tailLoop : Nat → Buffer → Nat → Nat
  | 0, _, tail => tail
  | passes + 1, m, tail =>
    if blockNext m tail = 0 then tail else tailLoop passes m (blockNext m tail)

/-- How much `malloc_extend` asks for. -/
def extendRequest (need : Nat) : Nat :=
  mallocAlignUp (max ((need + headerSize) % 2 ^ 64) mallocArena)

/-- `malloc_extend`; a null pointer is 0. -/
def Heap.mallocExtend (need : Nat) : Heap × Nat :=
  match grow (extendRequest need) with
  | none => (h, 0)
  | some block =>
    let m :=
      setFree (setNext (setSize h.mem block (extendRequest need + 2 ^ 64 - headerSize)) block 0)
        block true
    let regions := h.regions ++ [(block, extendRequest need)]
    if h.head = 0 then
      (⟨m, block, regions⟩, block)
    else
      (⟨setNext m (tailLoop h.passes m h.head) block, h.head, regions⟩, block)

/-- The search of `malloc`: the first free block that is large enough. -/
def fitLoop : Nat → Buffer → Nat → Nat → Nat
  | 0, _, _, _ => 0
  | passes + 1, m, block, size =>
    if block = 0 then 0
    else if blockFree m block = true ∧ size ≤ blockSize m block then block
    else fitLoop passes m (blockNext m block) size

/-- The rest of a block becomes a block of its own if it can hold a header and 16 bytes. -/
def splitBlock (size : Nat) : Buffer :=
  if (size + headerSize + mallocAlign) % 2 ^ 64 ≤ blockSize m block then
    let rest := (block + headerSize + size) % 2 ^ 64
    let m' := setSize m rest (blockSize m block + 2 ^ 65 - size - headerSize)
    let m' := setNext m' rest (blockNext m' block)
    let m' := setFree m' rest true
    let m' := setSize m' block size
    setNext m' block rest
  else
    m

def Heap.malloc (size : Nat) : Heap × Nat :=
  let size := mallocAlignUp (if size = 0 then 1 else size)
  let fit := fitLoop h.passes h.mem h.head size
  let r := if fit = 0 then h.mallocExtend grow size else (h, fit)
  if r.2 = 0 then
    (r.1, 0)
  else
    ({ r.1 with mem := setFree (splitBlock r.1.mem r.2 size) r.2 false }, r.2 + headerSize)

def Heap.free (pointer : Nat) : Heap :=
  if pointer = 0 then h
  else ({ h with mem := setFree h.mem (pointer - headerSize) true } : Heap).mallocCoalesce

def Heap.calloc (count size : Nat) : Heap × Nat :=
  if count ≠ 0 ∧ (2 ^ 64 - 1) / count < size then
    (h, 0)
  else
    let r := h.malloc grow (count * size)
    if r.2 = 0 then r
    else ({ r.1 with mem := r.1.mem.splice r.2 (count * size) zero }, r.2)

/-- `realloc` moves a block: a new one, a copy, and the old one is freed. -/
def Heap.relocate (pointer size : Nat) : Heap × Nat :=
  let r := h.malloc grow size
  if r.2 = 0 then
    r
  else
    let copy := min (blockSize r.1.mem (pointer - headerSize)) size
    let m := r.1.mem.splice r.2 copy fun i => r.1.mem (pointer + i)
    (({ r.1 with mem := m } : Heap).free pointer, r.2)

def Heap.realloc (pointer size : Nat) : Heap × Nat :=
  if pointer = 0 then
    h.malloc grow size
  else if size = 0 then
    (h.free pointer, 0)
  else
    let block := pointer - headerSize
    let aligned := mallocAlignUp size
    let next := blockNext h.mem block
    if aligned ≤ blockSize h.mem block then
      (h, pointer)
    else if next ≠ 0 ∧ blockFree h.mem next = true ∧ block + headerSize + blockSize h.mem block =
      next ∧ aligned ≤ blockSize h.mem block + headerSize + blockSize h.mem next then
      ({ h with mem := splitBlock (absorbNext h.mem block) block aligned }, pointer)
    else
      h.relocate grow pointer size

/-! ## A program that uses the heap -/

/-- The pointers that are live, with the contents of as many bytes as were requested. -/
abbrev Ledger := Nat → Option (List Byte)

structure Session where
  heap : Heap
  live : Ledger

inductive Event where
  | malloc (size : Nat) (grow : Grow)
  | calloc (count size : Nat) (grow : Grow)
  | realloc (pointer size : Nat) (grow : Grow)
  | free (pointer : Nat)
  | store (a : Nat) (v : Byte)

/-- Bytes of the memory. -/
def bytesOf (p n : Nat) : List Byte := (List.range n).map fun i => m (p + i)

/-- A new block is live; what it contains is given. -/
def Ledger.add (live : Ledger) (p : Nat) (bytes : List Byte) : Ledger :=
  if p = 0 then live else Function.update live p (some bytes)

/-- A block is not live any more. -/
def Ledger.drop (live : Ledger) (p : Nat) : Ledger := Function.update live p none

/-- The owner of a byte changes it. -/
def Ledger.store (live : Ledger) (a : Nat) (v : Byte) : Ledger := fun p =>
  (live p).map fun bytes => if p ≤ a ∧ a < p + bytes.length then bytes.set (a - p) v else bytes

/--
What a program does.  A block from `malloc` has any contents, one from `calloc` zeros, and one from
`realloc` starts with the contents of the old one.
-/
def Session.step (s : Session) : Event → Session × List Nat
  | .malloc size grow =>
    let r := s.heap.malloc grow size
    (⟨r.1, s.live.add r.2 (bytesOf r.1.mem r.2 size)⟩, [r.2])
  | .calloc count size grow =>
    let r := s.heap.calloc grow count size
    (⟨r.1, s.live.add r.2 (List.replicate (count * size) 0)⟩, [r.2])
  | .realloc pointer size grow =>
    let r := s.heap.realloc grow pointer size
    match s.live pointer with
    | none => (⟨r.1, s.live.add r.2 (bytesOf r.1.mem r.2 size)⟩, [r.2])
    | some old =>
      if r.2 = 0 ∧ size ≠ 0 then
        (⟨r.1, s.live⟩, [r.2])
      else
        let kept := old.take size
        (⟨r.1, (s.live.drop pointer).add r.2
          (kept ++ bytesOf r.1.mem (r.2 + kept.length) (size - kept.length))⟩, [r.2])
  | .free pointer => (⟨s.heap.free pointer, s.live.drop pointer⟩, [])
  | .store a v =>
    (⟨{ s.heap with mem := fun x => if x = a then v else s.heap.mem x }, s.live.store a v⟩, [])

/-- An address in a region. -/
def Heap.Obtained (a : Nat) : Prop := ∃ r ∈ h.regions, r.1 ≤ a ∧ a < r.1 + r.2

/-- New regions lie behind all old ones in the address space. -/
def Heap.Grows : Prop :=
  ∀ request region, grow request = some region →
    0 < region ∧ region + request ≤ 2 ^ 64 ∧ ∀ r ∈ h.regions, r.1 + r.2 ≤ region

/-- An address in a live block. -/
def Ledger.Owns (live : Ledger) (a : Nat) : Prop :=
  ∃ p bytes, live p = some bytes ∧ p ≤ a ∧ a < p + bytes.length

/-- What the program and the system may do. -/
def Session.Allowed (s : Session) : Event → Prop
  | .malloc size grow => size < 2 ^ 63 ∧ s.heap.Grows grow
  | .calloc count size grow => count * size < 2 ^ 63 ∧ s.heap.Grows grow
  | .realloc pointer size grow =>
    (pointer = 0 ∨ (s.live pointer).isSome) ∧ size < 2 ^ 63 ∧ s.heap.Grows grow
  | .free pointer => pointer = 0 ∨ (s.live pointer).isSome
  | .store a _ => s.live.Owns a ∨ ¬s.heap.Obtained a

/-! ## What is proved -/

/-- The largest request for which no sum wraps. -/
def requestMax : Nat := 2 ^ 64 - 48

/-- There is no block for a request, and the system gives none. -/
def Heap.Refuses (size : Nat) : Prop :=
  let aligned := mallocAlignUp (if size = 0 then 1 else size)
  fitLoop h.passes h.mem h.head aligned = 0 ∧ grow (extendRequest aligned) = none

/-- A request that is small enough, or gets nothing. -/
def Heap.Serves (size : Nat) : Prop := size ≤ requestMax ∨ h.Refuses grow size

/-- A block of the list. -/
structure Block where
  addr : Nat
  size : Nat
  free : Bool
deriving DecidableEq

/-- The address behind a block. -/
def Block.stop (b : Block) : Nat := b.addr + headerSize + b.size

/-- How blocks lie in memory. -/
def blockCells : Cells Buffer Block where
  addr := Block.addr
  holds m b := blockSize m b.addr = b.size ∧ blockFree m b.addr = b.free
  next := blockNext

/-- The heap is sound with these blocks. -/
structure Session.Sound (s : Session) (blocks : List Block) : Prop where
  /-- the list of blocks in memory -/
  list : blockCells.Linked s.heap.mem s.heap.head blocks 0
  /-- is in address order, without overlaps -/
  ordered : blocks.Pairwise fun b c => b.stop ≤ c.addr
  /-- and covers what the system has handed out. -/
  covers : ∀ a, s.heap.Obtained a ↔ ∃ b ∈ blocks, b.addr ≤ a ∧ a < b.stop
  /-- A live pointer is that of a block which is large enough. -/
  large : ∀ p bytes, s.live p = some bytes → ∃ b ∈ blocks, p = b.addr + headerSize ∧
    bytes.length ≤ b.size
  /-- Live blocks do not overlap, -/
  apart : ∀ p q bytes bytes', p ≠ q → s.live p = some bytes → s.live q = some bytes' →
    p + bytes.length ≤ q ∨ q + bytes'.length ≤ p
  /-- nor do they overlap headers. -/
  headers : ∀ p bytes, s.live p = some bytes → ∀ b ∈ blocks,
    p + bytes.length ≤ b.addr ∨ b.addr + headerSize ≤ p
  /-- The contents are those that the owners have put there. -/
  contents : ∀ p bytes, s.live p = some bytes → bytesOf s.heap.mem p bytes.length = bytes

/-- A pointer that a call returns is not live yet, but for `realloc` of this pointer. -/
def Session.Unshared (s : Session) (e : Event) : Prop :=
  ∀ p ∈ (s.step e).2, p = 0 ∨ s.live p = none ∨ ∃ size grow, e = .realloc p size grow

end PureCOS.Libc
