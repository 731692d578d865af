import PureCOS.Ext2.Layout

/-!
# Formatting a disk with partitions of given sizes

`fs/install.c`: `installer_format_custom_device` writes a GUID partition table with up to four
partitions and makes an ext2 volume in each.  Sector numbers have 32 bits and byte counts 64.

The table has room for 128 entries of 128 bytes, but the array in which it is built has 4096
bytes.  What lies behind the array on the stack is a parameter of the model: it is written to the
disk with the array.
-/

namespace PureCOS.Install

open Buffer Ext2 List Writes

/-! ## The table -/

def blockSectorSize : Nat := 512
def gptEntryCount : Nat := 128
def gptEntrySize : Nat := 128
def gptHeaderSize : Nat := 92

/-- The size of the array `gpt_entries`. -/
def gptEntriesSize : Nat := 32 * 128

/-- A step of `crc32_update` for one bit. -/
def crcBit (crc : BitVec 32) : BitVec 32 := (crc >>> 1) ^^^ (0xEDB88320#32 &&& -(crc &&& 1#32))

/-- A step of `crc32_update` for one byte. -/
def crcByte (crc : BitVec 32) (byte : Byte) : BitVec 32 :=
  (range 8).foldl (fun crc _ => crcBit crc) (crc ^^^ byte.setWidth 32)

def crc32Update (crc : BitVec 32) (data : Buffer) (size : Nat) : BitVec 32 :=
  (range size).foldl (fun crc i => crcByte crc (data i)) crc

def crc32 (data : Buffer) (size : Nat) : BitVec 32 := ~~~crc32Update 0xFFFFFFFF#32 data size

/-- `state` in the second loop of `generate_guid`, after `n` passes. -/
def guidState (serial : List Byte) (salt : BitVec 32) : Nat → BitVec 32
  | 0 =>
    serial.foldl (fun state c => (state ^^^ c.setWidth 32) * 16777619#32) (2166136261#32 ^^^ salt)
  | n + 1 => guidState serial salt n * 1664525#32 + 1013904223#32

def generateGuid (serial : List Byte) (salt : BitVec 32) : Buffer := fun i =>
  let byte : Byte := (guidState serial salt (i + 1) >>> 24).setWidth 8
  if i = 7 then (byte &&& 0x0F#8) ||| 0x40#8
  else if i = 8 then (byte &&& 0x3F#8) ||| 0x80#8
  else byte

def gptBasicDataTypeGuid : Buffer := fun i =>
  [0xA2#8, 0xA0#8, 0xD0#8, 0xEB#8, 0xE5#8, 0xB9#8, 0x33#8, 0x44#8,
    0x87#8, 0xC0#8, 0x68#8, 0xB6#8, 0xB7#8, 0x26#8, 0x99#8, 0xC7#8].getD i 0

/-- `write_gpt_name`, from character `index` on -/
def writeGptName (b : Buffer) (entry : Nat) : Nat → List Char → Buffer
  | _, [] => b
  | index, c :: name =>
    if index < 36 then
      writeGptName (b.writeU16 (entry + 56 + index * 2) (c.toNat % 256)) entry (index + 1) name
    else b

/-- `write_u64` of a 32-bit number -/
def writeLba (b : Buffer) (off lba : Nat) : Buffer := b.writeU64 off (BitVec.ofNat 64 lba)

/-- A 64-bit field. -/
def readLba (b : Buffer) (off : Nat) : Nat := (b.readU64 off).toNat

/-- `build_gpt_header`, without its own CRC -/
def gptHeaderFields (currentLba backupLba entriesLba lastUsableLba : Nat) (diskGuid : Buffer)
    (entriesCrc : BitVec 32) : Buffer :=
  let b := zero
  let b :=
    b.splice 0 8 fun i => [0x45#8, 0x46#8, 0x49#8, 0x20#8, 0x50#8, 0x41#8, 0x52#8, 0x54#8].getD i 0
  let b := b.writeU32 8 0x00010000
  let b := b.writeU32 12 gptHeaderSize
  let b := writeLba b 24 currentLba
  let b := writeLba b 32 backupLba
  let b := writeLba b 40 34
  let b := writeLba b 48 lastUsableLba
  let b := b.splice 56 16 diskGuid
  let b := writeLba b 72 entriesLba
  let b := b.writeU32 80 gptEntryCount
  let b := b.writeU32 84 gptEntrySize
  b.writeU32 88 entriesCrc.toNat

def buildGptHeader (currentLba backupLba entriesLba lastUsableLba : Nat) (diskGuid : Buffer)
    (entriesCrc : BitVec 32) : Buffer :=
  let b := gptHeaderFields currentLba backupLba entriesLba lastUsableLba diskGuid entriesCrc
  b.writeU32 16 (crc32 b gptHeaderSize).toNat

/-- A partition: first sector and number of sectors. -/
structure Part where
  start : Nat
  sectors : Nat

/-- The last sector, in 32 bits. -/
def Part.last (part : Part) : Nat := (part.start + part.sectors + (2 ^ 32 - 1)) % 2 ^ 32

/-- Entry `i` of a table: type, GUID, first and last sector, name. -/
def gptEntry (b : Buffer) (i : Nat) (type guid : Buffer) (first last : Nat) (name : List Char) :
    Buffer :=
  let b := b.splice (i * 128) 16 type
  let b := b.splice (i * 128 + 16) 16 guid
  let b := writeLba b (i * 128 + 32) first
  let b := writeLba b (i * 128 + 40) last
  writeGptName b (i * 128) 0 name

/-- Entry `i` of the table. -/
def putEntry (b : Buffer) (i : Nat) (part : Part) (serial : List Byte) (total : Nat) : Buffer :=
  let salt := 0x44415441#32 ^^^ BitVec.ofNat 32 i ^^^ BitVec.ofNat 32 total
  gptEntry b i gptBasicDataTypeGuid (generateGuid serial salt) part.start part.last
    (if i = 0 then "PureC System".toList else "PureC Data".toList)

/-- The entries from `i` on are filled in. -/
def putEntries (serial : List Byte) (total : Nat) (b : Buffer) : Nat → List Part → Buffer
  | _, [] => b
  | i, part :: parts => putEntries serial total (putEntry b i part serial total) (i + 1) parts

/-- `gpt_entries`, with what lies behind the array. -/
def gptEntries (serial : List Byte) (total : Nat) (parts : List Part) (behind : Buffer) : Buffer :=
  fun i =>
    if i < gptEntriesSize then putEntries serial total zero 0 parts i
    else behind (i - gptEntriesSize)

/-! ## The program -/

def fsErrorIo : Int := -1
def fsErrorNotFound : Int := -2
def fsErrorInvalid : Int := -3
def fsErrorNoSpace : Int := -4
def fsErrorUnsupported : Int := -8
def fsErrorReadOnly : Int := -10
def fsErrorTooSmall : Int := -13

structure StorageDeviceInfo where
  serial : List Byte
  sectorCount : Nat
  sectorSize : Nat
  operational : Bool
  writable : Bool

/-- The disks of the machine, and the stack behind `gpt_entries`. -/
structure Setting where
  blockDeviceFind : List Char → Int
  blockDeviceGetInfo : Nat → Option StorageDeviceInfo
  blockDeviceSelect : Nat → Bool
  behind : Buffer

/-- The number of sectors of a partition. -/
def partSectors (sizeGb : BitVec 64) : Nat :=
  max (sizeGb.toNat * 2 ^ 30 % 2 ^ 64 / blockSectorSize % 2 ^ 32) 32768

/-- The next multiple of 2048. -/
def alignUp (lba : Nat) : Nat :=
  if lba % 2048 = 0 then lba else (lba + (2048 - lba % 2048)) % 2 ^ 32

/-- The partitions from `lba` on, and where the next one would start. -/
def layOut (lba : Nat) : List (BitVec 64) → List Part × Nat
  | [] => ([], lba)
  | size :: sizes =>
    let rest := layOut (alignUp ((lba + partSectors size) % 2 ^ 32)) sizes
    (⟨lba, partSectors size⟩ :: rest.1, rest.2)

/-- The protective master boot record. -/
def protectiveMbr (total : Nat) : Buffer :=
  let b := zero
  let b := b.splice 510 2 fun i => [0x55#8, 0xAA#8].getD i 0
  let b := b.splice 450 1 fun _ => 0xEE#8
  let b := b.writeU32 454 1
  b.writeU32 458 (total - 1)

/-- Sector `s` of the table. -/
def tableSector (table : Buffer) (s : Nat) : Buffer :=
  zero.splice 0 blockSectorSize fun i => table (s * blockSectorSize + i)

/-- `n` sectors of the table, from sector `s` on, are written to `lba + s` and the following. -/
def writeTable (table : Buffer) (lba : Nat) : Nat → Nat → Proc Device Unit
  | 0, _ => pure ()
  | n + 1, s => do
    blockDeviceWriteSectors (lba32 (lba + s)) (tableSector table s) 1
    writeTable table lba n (s + 1)

/-- `ext2_format_at(..) != 0` -/
def formatPart (part : Part) : Proc Device Unit := fun d =>
  match ext2FormatAt part.start part.sectors d with
  | (d, status) => (d, if status = 0 then some () else none)

def formatParts : List Part → Proc Device Unit
  | [] => pure ()
  | part :: parts => do
    formatPart part
    formatParts parts

/-- The writes of `installer_format_custom_device` -/
def writeDisk (info : StorageDeviceInfo) (total : Nat) (parts : List Part) (table : Buffer) :
    Proc Device Unit := do
  let guid := generateGuid info.serial (0x47505444#32 ^^^ BitVec.ofNat 32 total)
  let crc := crc32 table gptEntriesSize
  blockDeviceWriteSectors 0 (protectiveMbr total) 1
  blockDeviceWriteSectors 1 (buildGptHeader 1 (total - 1) 2 (total - 33 - 1) guid crc) 1
  writeTable table 2 32 0
  blockDeviceWriteSectors (total - 1)
    (buildGptHeader (total - 1) 1 (total - 32) (total - 33 - 1) guid crc) 1
  writeTable table (total - 32) 32 0
  formatParts parts
  blockDeviceFlush

/-- `installer_format_custom_device`; mounting the first volume afterwards writes nothing. -/
def installerFormatCustomDevice (env : Setting) (device : List Char) (sizesGb : List (BitVec 64))
    (d : Device) : Device × Int :=
  if device = [] ∨ sizesGb.length = 0 ∨ 4 < sizesGb.length then
    (d, fsErrorInvalid)
  else if env.blockDeviceFind device < 0 then
    (d, fsErrorNotFound)
  else
    match env.blockDeviceGetInfo (env.blockDeviceFind device).toNat with
    | none => (d, fsErrorInvalid)
    | some info =>
      let total := info.sectorCount % 2 ^ 32
      let needed := (sizesGb.map BitVec.toNat).sum % 2 ^ 64 * 2 ^ 30 % 2 ^ 64
      let plan := layOut 34 sizesGb
      if info.operational = false ∨ info.writable = false then
        (d, fsErrorReadOnly)
      else if info.sectorSize ≠ blockSectorSize then
        (d, fsErrorUnsupported)
      else if total < 65536 then
        (d, fsErrorTooSmall)
      else if needed = 0 ∨ total * blockSectorSize - 2 * 1024 * 1024 < needed then
        (d, fsErrorNoSpace)
      else if env.blockDeviceSelect (env.blockDeviceFind device).toNat = false then
        (d, fsErrorInvalid)
      else if total - 33 < plan.2 then
        (d, fsErrorNoSpace)
      else
        match writeDisk info total plan.1 (gptEntries info.serial total plan.1 env.behind) d with
        | (d, some ()) => (d, 0)
        | (d, none) => (d, fsErrorIo)

/-! ## A valid table -/

/-- A header whose size makes sense and whose CRC is right. -/
structure HeaderCrc (s : Buffer) : Prop where
  size : gptHeaderSize ≤ s.readU32 12 ∧ s.readU32 12 ≤ blockSectorSize
  crc : s.readU32 16 = (crc32 (s.writeU32 16 0) (s.readU32 12)).toNat

/-- `MyLBA` -/
def headerLba (s : Buffer) : Nat := readLba s 24

def alternateLba (s : Buffer) : Nat := readLba s 32

def firstUsableLba (s : Buffer) : Nat := readLba s 40

def lastUsableLba (s : Buffer) : Nat := readLba s 48

/-- `PartitionEntryLBA` -/
def entriesLba (s : Buffer) : Nat := readLba s 72

/-- `PartitionEntryArrayCRC32` -/
def entriesCrc (s : Buffer) : Nat := s.readU32 88

/-- The bytes from a sector on. -/
def bytesAt (disk : Nat → Buffer) (lba : Nat) : Buffer := fun i =>
  disk (lba + i / blockSectorSize) (i % blockSectorSize)

/-- `GPT_ENTRY_COUNT * GPT_ENTRY_SIZE` -/
def entryArraySize : Nat := gptEntryCount * gptEntrySize

/-- First sector of a partition. -/
def firstLba (table : Buffer) (i : Nat) : Nat := readLba table (i * 128 + 32)

/-- Last sector of a partition. -/
def lastLba (table : Buffer) (i : Nat) : Nat := readLba table (i * 128 + 40)

/--
The header is a correct one at `lba`, its counterpart is at `other`, and its entry array is intact.
-/
structure HeaderAt (disk : Nat → Buffer) (lba other : Nat) : Prop where
  crc : HeaderCrc (disk lba)
  self : headerLba (disk lba) = lba
  other : alternateLba (disk lba) = other
  entries :
    entriesCrc (disk lba) = (crc32 (bytesAt disk (entriesLba (disk lba))) entryArraySize).toNat

/-- A valid partition table with partitions of the given numbers of sectors. -/
structure GptValid (disk : Nat → Buffer) (sectorCount : Nat) (requested : List Nat) : Prop where
  primary : HeaderAt disk 1 (sectorCount - 1)
  backup : HeaderAt disk (sectorCount - 1) 1
  identical : ∀ i < entryArraySize,
    bytesAt disk (entriesLba (disk 1)) i = bytesAt disk (entriesLba (disk (sectorCount - 1))) i
  sizes : ∀ i (h : i < requested.length),
    lastLba (bytesAt disk (entriesLba (disk 1))) i + 1 =
      firstLba (bytesAt disk (entriesLba (disk 1))) i + requested[i]
  usable : ∀ i < requested.length,
    firstUsableLba (disk 1) ≤ firstLba (bytesAt disk (entriesLba (disk 1))) i ∧
      lastLba (bytesAt disk (entriesLba (disk 1))) i ≤ lastUsableLba (disk 1)
  disjoint : ∀ i j, i < j → j < requested.length →
    lastLba (bytesAt disk (entriesLba (disk 1))) i < firstLba (bytesAt disk (entriesLba (disk 1))) j

/-! ## Headers and entries -/

section Fields

variable {b c : Buffer} {off pos lba n size : Nat} {source : Buffer}

theorem crc32Update_congr (crc : BitVec 32) (h : ∀ i < size, b i = c i) :
    crc32Update crc b size = crc32Update crc c size := by
  unfold crc32Update
  induction size with
  | zero => rfl
  | succ n ih =>
    rw [range_succ, foldl_append, foldl_append, ih fun i hi => h i (by omega)]
    simp only [foldl_cons, foldl_nil]
    rw [h n (by omega)]

theorem crc32_congr (h : ∀ i < size, b i = c i) : crc32 b size = crc32 c size := by
  rw [crc32, crc32Update_congr _ h, crc32]

theorem readLba_congr (h : ∀ k < 8, b (off + k) = c (pos + k)) : readLba b off = readLba c pos := by
  rw [readLba, readU64_congr h, readLba]

/-- The fields of an entry are inside the entry. -/
theorem entry_congr {i : Nat} (h : ∀ k < 128, b (i * 128 + k) = c (i * 128 + k)) :
    firstLba b i = firstLba c i ∧ lastLba b i = lastLba c i := by
  refine ⟨readLba_congr fun k hk => ?_, readLba_congr fun k hk => ?_⟩
  · rw [Nat.add_assoc]
    exact h (32 + k) (by omega)
  · rw [Nat.add_assoc]
    exact h (40 + k) (by omega)

theorem readLba_writeLba (h : lba < 2 ^ 64) : readLba (writeLba b off lba) off = lba := by
  rw [readLba, writeLba, readU64_writeU64, BitVec.toNat_ofNat, Nat.mod_eq_of_lt h]

theorem readLba_splice_of_outside (h : pos + 8 ≤ off ∨ off + n ≤ pos) :
    readLba (splice b off n source) pos = readLba b pos :=
  readLba_congr fun k _ => splice_of_outside (by omega)

theorem readLba_writeLba_of_ne (h : pos + 8 ≤ off ∨ off + 8 ≤ pos) :
    readLba (writeLba b off lba) pos = readLba b pos :=
  readLba_splice_of_outside h

theorem readLba_writeU32_of_ne {v : Nat} (h : pos + 8 ≤ off ∨ off + 4 ≤ pos) :
    readLba (b.writeU32 off v) pos = readLba b pos :=
  readLba_splice_of_outside h

theorem readU32_writeLba_of_ne (h : pos + 4 ≤ off ∨ off + 8 ≤ pos) :
    (writeLba b off lba).readU32 pos = b.readU32 pos :=
  readU32_splice_of_outside h

theorem writeLba_of_outside (h : pos < off ∨ off + 8 ≤ pos) : writeLba b off lba pos = b pos :=
  splice_of_outside h

theorem writeU32_of_outside {v : Nat} (h : pos < off ∨ off + 4 ≤ pos) :
    b.writeU32 off v pos = b pos :=
  splice_of_outside h

end Fields

section Header

variable {current backup entries last : Nat} {guid : Buffer} {crc : BitVec 32}

/-- The place of the CRC is clear while it is computed. -/
theorem gptHeaderFields_apply_crc {i : Nat} (h₁ : 16 ≤ i) (h₂ : i < 20) :
    gptHeaderFields current backup entries last guid crc i = 0 := by
  unfold gptHeaderFields
  simp (disch := omega) only [writeU32_of_outside, writeLba_of_outside, splice_of_outside]
  rfl

theorem headerCrc_buildGptHeader :
    HeaderCrc (buildGptHeader current backup entries last guid crc) := by
  have hsize : (buildGptHeader current backup entries last guid crc).readU32 12 =
      gptHeaderSize := by
    unfold buildGptHeader gptHeaderFields
    simp (disch := omega) only [readU32_writeU32_of_ne, readU32_writeLba_of_ne,
      readU32_splice_of_outside]
    exact readU32_writeU32 (by decide)
  refine ⟨?_, ?_⟩
  · rw [hsize]
    decide
  rw [hsize]
  unfold buildGptHeader
  rw [readU32_writeU32 (BitVec.isLt _)]
  refine congrArg BitVec.toNat (crc32_congr fun i _ => ?_)
  by_cases hi : 16 ≤ i ∧ i < 20
  · rw [gptHeaderFields_apply_crc hi.1 hi.2]
    obtain ⟨k, rfl⟩ := Nat.exists_eq_add_of_le hi.1
    have hzero : ∀ k : Nat, byteOf 0 k = 0 := fun k => by simp [byteOf]
    exact ((splice_apply (by omega)).trans (hzero k)).symm
  · rw [writeU32_of_outside (by omega), writeU32_of_outside (by omega)]

/-- The other fields of a header. -/
theorem buildGptHeader_fields (hcur : current < 2 ^ 64) (hbackup : backup < 2 ^ 64)
    (hentries : entries < 2 ^ 64) (hlast : last < 2 ^ 64) :
    let s := buildGptHeader current backup entries last guid crc
    headerLba s = current ∧ alternateLba s = backup ∧ firstUsableLba s = 34 ∧
      lastUsableLba s = last ∧ entriesLba s = entries ∧ entriesCrc s = crc.toNat := by
  unfold headerLba alternateLba firstUsableLba lastUsableLba entriesLba entriesCrc buildGptHeader
    gptHeaderFields
  refine ⟨?_, ?_, ?_, ?_, ?_, ?_⟩
  all_goals
    simp (disch := first | assumption | omega) only [readLba_writeU32_of_ne, readLba_writeLba_of_ne,
      readLba_splice_of_outside, readLba_writeLba, readU32_writeU32_of_ne, readU32_writeU32]

end Header

section Entries

variable {b : Buffer} {serial : List Byte} {total pos i : Nat} {part : Part} {parts : List Part}

theorem writeGptName_of_outside (name : List Char) (entry index : Nat)
    (h : pos < entry + 56 ∨ entry + 128 ≤ pos) : writeGptName b entry index name pos = b pos := by
  induction name generalizing b index with
  | nil => rfl
  | cons c name ih =>
    rw [writeGptName]
    split
    · rw [ih, writeU16, splice_of_outside (by omega)]
    · rfl

/-- An entry is written in its place. -/
theorem gptEntry_of_outside {type guid : Buffer} {first last : Nat} {name : List Char}
    (h : pos < i * 128 ∨ i * 128 + 128 ≤ pos) :
    gptEntry b i type guid first last name pos = b pos := by
  unfold gptEntry
  rw [writeGptName_of_outside _ _ _ (by omega), writeLba_of_outside (by omega),
    writeLba_of_outside (by omega), splice_of_outside (by omega), splice_of_outside (by omega)]

theorem gptEntry_fields {type guid : Buffer} {first last : Nat} {name : List Char}
    (hfirst : first < 2 ^ 64) (hlast : last < 2 ^ 64) :
    firstLba (gptEntry b i type guid first last name) i = first ∧
      lastLba (gptEntry b i type guid first last name) i = last := by
  constructor
  · refine (readLba_congr fun k _ => writeGptName_of_outside _ _ _ (by omega)).trans ?_
    rw [readLba_writeLba_of_ne (by omega), readLba_writeLba hfirst]
  · refine (readLba_congr fun k _ => writeGptName_of_outside _ _ _ (by omega)).trans ?_
    exact readLba_writeLba hlast

theorem putEntry_of_outside (h : pos < i * 128 ∨ i * 128 + 128 ≤ pos) :
    putEntry b i part serial total pos = b pos :=
  gptEntry_of_outside h

theorem putEntry_fields (hstart : part.start < 2 ^ 64) :
    firstLba (putEntry b i part serial total) i = part.start ∧
      lastLba (putEntry b i part serial total) i = part.last :=
  gptEntry_fields hstart (Nat.lt_trans (Nat.mod_lt _ (by decide)) (by decide))

theorem putEntries_apply_of_lt (i : Nat) (h : pos < i * 128) :
    putEntries serial total b i parts pos = b pos := by
  induction parts generalizing b i with
  | nil => rfl
  | cons part parts ih => rw [putEntries, ih (i + 1) (by omega), putEntry_of_outside (.inl h)]

/-- Every entry holds its partition. -/
theorem putEntries_fields (i : Nat) (hstart : ∀ part ∈ parts, part.start < 2 ^ 64) {j : Nat}
    (hj : j < parts.length) :
    firstLba (putEntries serial total b i parts) (i + j) = parts[j].start ∧
      lastLba (putEntries serial total b i parts) (i + j) = parts[j].last := by
  induction parts generalizing b i j with
  | nil => exact absurd hj (Nat.not_lt_zero _)
  | cons part parts ih =>
    rw [putEntries]
    cases j with
    | zero =>
      have hentry : firstLba (putEntry b i part serial total) i = part.start ∧
          lastLba (putEntry b i part serial total) i = part.last :=
        putEntry_fields (hstart part mem_cons_self)
      obtain ⟨hfirst, hlast⟩ := entry_congr fun k hk =>
        putEntries_apply_of_lt (i + 1) (show i * 128 + k < (i + 1) * 128 by omega)
      exact ⟨hfirst.trans hentry.1, hlast.trans hentry.2⟩
    | succ j =>
      rw [show i + (j + 1) = i + 1 + j by omega]
      exact ih (i + 1) (fun p hp => hstart p (mem_cons_of_mem _ hp)) (Nat.lt_of_succ_lt_succ hj)

/-- The entries in the array with what lies behind it. -/
theorem gptEntries_fields {behind : Buffer} (hstart : ∀ part ∈ parts, part.start < 2 ^ 64)
    (hfour : parts.length ≤ 4) (hi : i < parts.length) :
    firstLba (gptEntries serial total parts behind) i = parts[i].start ∧
      lastLba (gptEntries serial total parts behind) i = parts[i].last := by
  have hfields : firstLba (putEntries serial total zero 0 parts) (0 + i) = parts[i].start ∧
      lastLba (putEntries serial total zero 0 parts) (0 + i) = parts[i].last :=
    putEntries_fields 0 hstart hi
  rw [Nat.zero_add] at hfields
  have hin : ∀ k < 128, gptEntries serial total parts behind (i * 128 + k) =
      putEntries serial total zero 0 parts (i * 128 + k) := by
    intro k hk
    refine if_pos ?_
    unfold gptEntriesSize
    omega
  rwa [(entry_congr hin).1, (entry_congr hin).2]

end Entries

/-! ## Layout -/

section Layout

variable {lo hi lba : Nat} {part : Part} {parts : List Part} {sizes : List (BitVec 64)}

/-- The partitions follow one another between two sectors. -/
def Spaced (lo : Nat) (hi : Nat) : List Part → Prop
  | [] => lo ≤ hi
  | part :: parts =>
    lo ≤ part.start ∧ 0 < part.sectors ∧ Spaced (part.start + part.sectors) hi parts

theorem Spaced.le (h : Spaced lo hi parts) : lo ≤ hi := by
  induction parts generalizing lo with
  | nil => exact h
  | cons part parts ih =>
    have hrest := ih h.2.2
    have hstart := h.1
    omega

theorem Spaced.mono (h : Spaced lo hi parts) {lo' : Nat} (hlo : lo' ≤ lo) :
    Spaced lo' hi parts := by
  cases parts with
  | nil => exact Nat.le_trans hlo h
  | cons part parts => exact ⟨Nat.le_trans hlo h.1, h.2⟩

theorem Spaced.mono_right (h : Spaced lo hi parts) {hi' : Nat} (hhi : hi ≤ hi') :
    Spaced lo hi' parts := by
  induction parts generalizing lo with
  | nil => exact Nat.le_trans h hhi
  | cons part parts ih => exact ⟨h.1, h.2.1, ih h.2.2⟩

theorem Spaced.bounds (h : Spaced lo hi parts) (hpart : part ∈ parts) :
    lo ≤ part.start ∧ 0 < part.sectors ∧ part.start + part.sectors ≤ hi := by
  induction parts generalizing lo with
  | nil => cases hpart
  | cons first parts ih =>
    rcases mem_cons.mp hpart with rfl | hpart
    · exact ⟨h.1, h.2.1, h.2.2.le⟩
    · have hrest := ih h.2.2 hpart
      have hstart := h.1
      exact ⟨by omega, hrest.2⟩

/-- Earlier partitions end before later ones begin. -/
theorem Spaced.ordered (h : Spaced lo hi parts) {i j : Nat} (hij : i < j) (hj : j < parts.length) :
    parts[i].start + parts[i].sectors ≤ parts[j].start := by
  induction parts generalizing lo i j with
  | nil => exact absurd hj (Nat.not_lt_zero _)
  | cons first parts ih =>
    cases j with
    | zero => omega
    | succ j =>
      have hj' : j < parts.length := Nat.lt_of_succ_lt_succ hj
      cases i with
      | zero => exact (h.2.2.bounds (getElem_mem hj')).1
      | succ i => exact ih h.2.2 (Nat.lt_of_succ_lt_succ hij) hj'

theorem Part.last_eq (hpos : 0 < part.sectors) (h : part.start + part.sectors ≤ 2 ^ 32) :
    part.last = part.start + part.sectors - 1 := by
  unfold Part.last
  omega

/-- Sizes from 1 GB up to what 32 bits of sectors can express. -/
def Representable (size : BitVec 64) : Prop := 0 < size.toNat ∧ size.toNat < 2048

theorem partSectors_eq {size : BitVec 64} (h : Representable size) :
    partSectors size = size.toNat * 2 ^ 21 := by
  obtain ⟨hpos, hlt⟩ := h
  unfold partSectors blockSectorSize
  omega

theorem alignUp_bounds (h : lba + 2048 ≤ 2 ^ 32) :
    lba ≤ alignUp lba ∧ alignUp lba ≤ lba + 2047 := by
  unfold alignUp
  split <;> omega

/-- Without overflow the partitions are spaced and have the sizes requested. -/
theorem layOut_spaced (hsizes : ∀ size ∈ sizes, Representable size)
    (h : lba + (sizes.map BitVec.toNat).sum * 2 ^ 21 + 2048 * sizes.length < 2 ^ 32) :
    Spaced lba (layOut lba sizes).2 (layOut lba sizes).1 ∧
      (layOut lba sizes).1.map Part.sectors = sizes.map fun size => size.toNat * 2 ^ 21 := by
  induction sizes generalizing lba with
  | nil => exact ⟨Nat.le_refl _, rfl⟩
  | cons size sizes ih =>
    have hsize := hsizes size mem_cons_self
    have hsec := partSectors_eq hsize
    simp only [map_cons, sum_cons, length_cons] at h
    have hend : (lba + partSectors size) % 2 ^ 32 = lba + partSectors size :=
      Nat.mod_eq_of_lt (by omega)
    have hroom : lba + partSectors size + 2048 ≤ 2 ^ 32 := by omega
    obtain ⟨hge, hle⟩ := alignUp_bounds hroom
    have hnext : alignUp (lba + partSectors size) + (sizes.map BitVec.toNat).sum * 2 ^ 21 +
        2048 * sizes.length < 2 ^ 32 := by omega
    obtain ⟨hspaced, hmap⟩ := ih (fun s hs => hsizes s (mem_cons_of_mem _ hs)) hnext
    rw [layOut, hend]
    refine ⟨⟨Nat.le_refl _, ?_, hspaced.mono hge⟩, ?_⟩
    · show 0 < partSectors size
      have := hsize.1
      omega
    · rw [map_cons, hmap, map_cons, ← hsec]

end Layout

/-! ## What is on the disk -/

section Disk

variable {disk : Nat → Buffer} {table : Buffer} {total lba x k : Nat} {part : Part}
  {parts : List Part}

/-- The writes of `writeTable`. -/
def tableWrites (table : Buffer) (lba : Nat) : Nat → Nat → List Write
  | 0, _ => []
  | n + 1, s => ⟨lba32 (lba + s), 1, tableSector table s⟩ :: tableWrites table lba n (s + 1)

theorem writes_writeTable (n s : Nat) :
    Writes (writeTable table lba n s) (tableWrites table lba n s) := by
  induction n generalizing s with
  | zero => exact pure ()
  | succ n ih => exact cons fun _ => ih (s + 1)

theorem serial_tableWrites (n s : Nat) (h : lba + s + n ≤ 2 ^ 32) :
    Serial (tableWrites table lba n s) (lba + s) (lba + s + n) := by
  induction n generalizing s with
  | zero => exact Nat.le_refl _
  | succ n ih =>
    have hlba : lba32 (lba + s) = lba + s := lba32_of_lt (by omega)
    rw [tableWrites, hlba]
    refine ⟨Nat.le_refl _, ?_⟩
    have hrest := ih (s + 1) (by omega)
    rw [show lba + (s + 1) + n = lba + s + (n + 1) by omega] at hrest
    exact hrest

theorem mem_tableWrites (table : Buffer) (lba : Nat) (n s : Nat) (h : lba + s + n ≤ 2 ^ 32)
    (hk : k < n) : ⟨lba + (s + k), 1, tableSector table (s + k)⟩ ∈ tableWrites table lba n s := by
  induction n generalizing s k with
  | zero => exact absurd hk (Nat.not_lt_zero _)
  | succ n ih =>
    have hlba : lba32 (lba + s) = lba + s := lba32_of_lt (by omega)
    rw [tableWrites, hlba]
    cases k with
    | zero => exact mem_cons_self
    | succ k =>
      rw [show s + (k + 1) = s + 1 + k by omega]
      exact mem_cons_of_mem _ (ih (s + 1) (by omega) (by omega))

/-- A write of one sector. -/
theorem sector_one (data : Buffer) : (⟨x, 1, data⟩ : Write).sector x = data := by
  funext i
  show data ((x - x) * 512 + i) = data i
  rw [Nat.sub_self, Nat.zero_mul, Nat.zero_add]

theorem applyAll_append (ws ws' : List Write) :
    applyAll (ws ++ ws') disk = applyAll ws' (applyAll ws disk) :=
  foldl_append ..

theorem applyAll_cons (w : Write) (ws : List Write) :
    applyAll (w :: ws) disk = applyAll ws (w.apply disk) :=
  rfl

/-- The writes of `ext2_format_at`. -/
def partWrites (part : Part) : List Write :=
  allWrites part.start (totalBlocks part.sectors) (groupCount (totalBlocks part.sectors))

theorem writes_formatPart : Writes (formatPart part) (partWrites part) := by
  intro d d' a h
  unfold formatPart ext2FormatAt at h
  by_cases hsmall : totalBlocks part.sectors < 128
  · rw [if_pos hsmall] at h
    cases h
  rw [if_neg hsmall] at h
  rcases hrun : formatWrites part.start (totalBlocks part.sectors) d with ⟨d₁, _ | _⟩
  · rw [hrun] at h
    cases h
  · rw [hrun] at h
    cases h
    exact writes_formatWrites part.start (totalBlocks part.sectors) d _ () hrun

theorem writes_formatParts : Writes (formatParts parts) (parts.flatMap partWrites) := by
  induction parts with
  | nil => exact pure ()
  | cons part parts ih => exact bind writes_formatPart fun _ => ih

/-- Formatting a partition of whole gigabytes writes inside of it. -/
theorem partWrites_inside {size : Nat} (hpos : 0 < size) (hlt : size < 2048)
    (hsec : part.sectors = size * 2 ^ 21) (h32 : part.start + part.sectors ≤ 2 ^ 32) :
    ∀ w ∈ partWrites part, part.start ≤ w.lba ∧ w.lba + w.count ≤ part.start + part.sectors := by
  have htotal : totalBlocks part.sectors = size * 2 ^ 20 := by
    rw [hsec]
    unfold totalBlocks
    omega
  have hgroups : groupCount (size * 2 ^ 20) = size * 128 := by
    unfold groupCount blocksPerGroup
    omega
  have hgd : gdBlocks (size * 128) = size * 4 := by
    unfold gdBlocks
    omega
  have hroot : rootDataBlock (size * 128) = size * 4 + 132 := by
    unfold rootDataBlock
    omega
  intro w hw
  rw [partWrites, htotal, hgroups, allWrites] at hw
  rcases mem_append.mp hw with hw | hw
  · have hserial : Serial (headWrites part.start (size * 2 ^ 20) (size * 128)) (part.start + 2)
        (part.start + (rootDataBlock (size * 128) + 1) * 2) :=
      serial_headWrites (by rw [hroot]; omega)
    have hbounds := hserial.bounds hw
    rw [hroot] at hbounds
    omega
  · have hserial : Serial (groupsWrites part.start (size * 128 - 1) 1) part.start
        (part.start + part.sectors) := by
      refine serial_groupsWrites _ _ (by omega) (by omega) h32 fun _ => ?_
      unfold blocksPerGroup
      omega
    exact hserial.bounds hw

/-- The writes before the volumes are made. -/
def gptWrites (header backup : Buffer) (table : Buffer) (total : Nat) : List Write :=
  (⟨0, 1, protectiveMbr total⟩ :: ⟨1, 1, header⟩ :: tableWrites table 2 32 0) ++
    (⟨total - 1, 1, backup⟩ :: tableWrites table (total - 32) 32 0)

/-- The sectors of the partition table after all writes. -/
structure OnDisk (disk : Nat → Buffer) (header table : Buffer) (total : Nat) : Prop where
  primary : disk 1 = header
  entries : ∀ k < 32, disk (2 + k) = tableSector table k
  copy : ∀ k < 32, disk (total - 32 + k) = tableSector table k

/-- The last sector of the second copy of the table is written over the second header. -/
theorem onDisk_gptWrites (header backup : Buffer) (hlow : 65536 ≤ total) (hhigh : total ≤ 2 ^ 32) :
    OnDisk (applyAll (gptWrites header backup table total) disk) header table total := by
  have hfirst :
      Serial (⟨0, 1, protectiveMbr total⟩ :: ⟨1, 1, header⟩ :: tableWrites table 2 32 0) 0 34 :=
    ⟨Nat.le_refl _, Nat.le_refl _, serial_tableWrites 32 0 (by decide)⟩
  have hcopy : Serial (tableWrites table (total - 32) 32 0) (total - 32 + 0)
      (total - 32 + 0 + 32) :=
    serial_tableWrites 32 0 (by omega)
  have hlater : ∀ x < 34, ∀ w ∈ (⟨total - 1, 1, backup⟩ :: tableWrites table
      (total - 32) 32 0 : List Write), ¬w.Covers x := by
    intro x hx w hw hcovers
    have hlba : total - 32 ≤ w.lba := by
      rcases mem_cons.mp hw with rfl | hw
      · show total - 32 ≤ total - 1
        omega
      · exact (hcopy.bounds hw).1
    unfold Write.Covers at hcovers
    omega
  refine ⟨?_, fun k hk => ?_, fun k hk => ?_⟩
  · rw [gptWrites, applyAll_append, applyAll_of_not_covers (hlater 1 (by decide)), hfirst.sector
      (mem_cons_of_mem _ mem_cons_self) ⟨Nat.le_refl 1, Nat.lt_succ_self 1⟩, sector_one]
  · have hmem : ⟨2 + k, 1, tableSector table k⟩ ∈ tableWrites table 2 32 0 := by
      have hmem := mem_tableWrites table 2 32 0 (by decide) hk
      rwa [Nat.zero_add] at hmem
    rw [gptWrites, applyAll_append, applyAll_of_not_covers (hlater (2 + k) (by omega)),
      hfirst.sector (mem_cons_of_mem _ (mem_cons_of_mem _ hmem))
      ⟨Nat.le_refl _, Nat.lt_succ_self _⟩, sector_one]
  · have hmem : ⟨total - 32 + k, 1, tableSector table k⟩ ∈ tableWrites table (total - 32) 32 0 := by
      have hmem := mem_tableWrites table (total - 32) 32 0 (by omega) hk
      rwa [Nat.zero_add] at hmem
    rw [gptWrites, applyAll_append, applyAll_cons,
      hcopy.sector hmem ⟨Nat.le_refl _, Nat.lt_succ_self _⟩, sector_one]

/-- The volumes leave the partition table alone. -/
theorem OnDisk.formatted {header : Buffer} {sizes : List (BitVec 64)}
    (h : OnDisk disk header table total) (hsizes : ∀ size ∈ sizes, Representable size)
    (hspaced : Spaced 34 (total - 33) parts)
    (hsec : parts.map Part.sectors = sizes.map fun size => size.toNat * 2 ^ 21)
    (hlow : 65536 ≤ total) (hhigh : total ≤ 2 ^ 32) :
    OnDisk (applyAll (parts.flatMap partWrites) disk) header table total := by
  have houtside : ∀ x, x < 34 ∨ total - 33 ≤ x → ∀ w ∈ parts.flatMap partWrites, ¬w.Covers x := by
    intro x hx w hw hcovers
    obtain ⟨part, hpart, hw⟩ := mem_flatMap.mp hw
    obtain ⟨hlo, hpos, hhi⟩ := hspaced.bounds hpart
    have hmem : part.sectors ∈ sizes.map fun size => size.toNat * 2 ^ 21 := by
      rw [← hsec]
      exact mem_map_of_mem hpart
    obtain ⟨size, hsize, heq⟩ := mem_map.mp hmem
    have hin :=
      partWrites_inside (hsizes size hsize).1 (hsizes size hsize).2 heq.symm (by omega) w hw
    unfold Write.Covers at hcovers
    omega
  refine ⟨?_, fun k hk => ?_, fun k hk => ?_⟩
  · rw [applyAll_of_not_covers (houtside 1 (by omega))]
    exact h.primary
  · rw [applyAll_of_not_covers (houtside (2 + k) (by omega))]
    exact h.entries k hk
  · rw [applyAll_of_not_covers (houtside (total - 32 + k) (by omega))]
    exact h.copy k hk

/-- A copy of the table is read back. -/
theorem bytesAt_eq (h : ∀ k < 32, disk (lba + k) = tableSector table k) {i : Nat}
    (hi : i < entryArraySize) : bytesAt disk lba i = table i := by
  unfold entryArraySize gptEntryCount gptEntrySize at hi
  unfold bytesAt blockSectorSize
  rw [h (i / 512) (by omega)]
  have hplace : tableSector table (i / 512) (0 + i % 512) =
      table (i / 512 * blockSectorSize + i % 512) :=
    splice_apply (Nat.mod_lt _ (by decide))
  rw [Nat.zero_add] at hplace
  rw [hplace]
  congr 1
  unfold blockSectorSize
  omega

end Disk

/-! ## What the call leaves -/

/--
The stack behind the array completes the table: the CRC of the array is that of the whole table,
and the last of the 32 sectors is a second header for it.
-/
structure Completes (table : Buffer) (total : Nat) : Prop where
  crc : crc32 table entryArraySize = crc32 table gptEntriesSize
  header : HeaderCrc (tableSector table 31)
  self : headerLba (tableSector table 31) = total - 1
  other : alternateLba (tableSector table 31) = 1
  entries : entriesCrc (tableSector table 31) = (crc32 table entryArraySize).toNat

section Result

variable {disk : Nat → Buffer} {table guid : Buffer} {total : Nat} {parts : List Part}
  {requested : List Nat}

/-- The header that is written to sector 1. -/
def primaryHeader (total : Nat) (guid table : Buffer) : Buffer :=
  buildGptHeader 1 (total - 1) 2 (total - 33 - 1) guid (crc32 table gptEntriesSize)

theorem primaryHeader_fields (guid table : Buffer) (hhigh : total ≤ 2 ^ 32) :
    headerLba (primaryHeader total guid table) = 1 ∧
      alternateLba (primaryHeader total guid table) = total - 1 ∧
      firstUsableLba (primaryHeader total guid table) = 34 ∧
      lastUsableLba (primaryHeader total guid table) = total - 33 - 1 ∧
      entriesLba (primaryHeader total guid table) = 2 ∧
      entriesCrc (primaryHeader total guid table) = (crc32 table gptEntriesSize).toNat :=
  buildGptHeader_fields (by decide) (by omega) (by decide) (by omega)

theorem OnDisk.last (h : OnDisk disk (primaryHeader total guid table) table total)
    (hlow : 65536 ≤ total) : disk (total - 1) = tableSector table 31 := by
  have hcopy := h.copy 31 (by decide)
  rwa [show total - 32 + 31 = total - 1 by omega] at hcopy

/-- The first copy of the table has the CRC of the whole table. -/
theorem crc32_bytesAt {lba : Nat} (h : ∀ k < 32, disk (lba + k) = tableSector table k) :
    crc32 (bytesAt disk lba) entryArraySize = crc32 table entryArraySize :=
  crc32_congr fun _ hi => bytesAt_eq h hi

/-- A valid table needs the stack to complete it. -/
theorem OnDisk.completes (h : OnDisk disk (primaryHeader total guid table) table total)
    (hlow : 65536 ≤ total) (hhigh : total ≤ 2 ^ 32) (hvalid : GptValid disk total requested) :
    Completes table total := by
  obtain ⟨-, -, -, -, hlba, hcrc⟩ := primaryHeader_fields guid table hhigh
  have hlast := h.last hlow
  have hprimary := hvalid.primary.entries
  have hbackup := hvalid.backup
  have hidentical := hvalid.identical
  have hentries := hbackup.entries
  rw [h.primary, hlba] at hprimary hidentical
  rw [hcrc, crc32_bytesAt h.entries] at hprimary
  rw [← crc32_congr hidentical, crc32_bytesAt h.entries, hlast] at hentries
  exact ⟨BitVec.eq_of_toNat_eq hprimary.symm, hlast ▸ hbackup.crc, hlast ▸ hbackup.self,
    hlast ▸ hbackup.other, hentries⟩

/-- A table is valid if both headers are right and the entries hold spaced partitions. -/
theorem gptValid_of (hprimary : HeaderAt disk 1 (total - 1)) (hbackup : HeaderAt disk (total - 1) 1)
    (hfirst : ∀ i < entryArraySize, bytesAt disk (entriesLba (disk 1)) i = table i)
    (hsecond : ∀ i < entryArraySize, bytesAt disk (entriesLba (disk (total - 1))) i = table i)
    (husable : firstUsableLba (disk 1) = 34 ∧ lastUsableLba (disk 1) = total - 33 - 1)
    (hhigh : total ≤ 2 ^ 32) (hspaced : Spaced 34 (total - 33) parts)
    (hfields : ∀ i (hi : i < parts.length), firstLba table i = parts[i].start ∧
      lastLba table i = parts[i].last) (hfour : parts.length ≤ 4) :
    GptValid disk total (parts.map Part.sectors) := by
  have hread : ∀ i (hi : i < parts.length), firstLba (bytesAt disk (entriesLba (disk 1))) i =
      parts[i].start ∧ lastLba (bytesAt disk (entriesLba (disk 1))) i = parts[i].last := by
    intro i hi
    have hsize : i * 128 + 128 ≤ entryArraySize := by
      unfold entryArraySize gptEntryCount gptEntrySize
      omega
    obtain ⟨hstart, hlast⟩ := entry_congr fun k hk => hfirst (i * 128 + k) (by omega)
    exact ⟨hstart.trans (hfields i hi).1, hlast.trans (hfields i hi).2⟩
  have hbounds : ∀ i (hi : i < parts.length), 34 ≤ parts[i].start ∧ 0 < parts[i].sectors ∧
      parts[i].start + parts[i].sectors ≤ total - 33 ∧
      parts[i].last = parts[i].start + parts[i].sectors - 1 := by
    intro i hi
    obtain ⟨hlo, hpos, hhi⟩ := hspaced.bounds (getElem_mem hi)
    exact ⟨hlo, hpos, hhi, Part.last_eq hpos (by omega)⟩
  refine ⟨hprimary, hbackup, fun i hi => ?_, fun i hi => ?_, fun i hi => ?_, fun i j hij hj => ?_⟩
  · rw [hfirst i hi, hsecond i hi]
  · rw [length_map] at hi
    rw [(hread i hi).1, (hread i hi).2, getElem_map]
    obtain ⟨-, hpos, -, heq⟩ := hbounds i hi
    omega
  · rw [length_map] at hi
    rw [husable.1, husable.2, (hread i hi).1, (hread i hi).2]
    obtain ⟨hlo, hpos, hhi, heq⟩ := hbounds i hi
    omega
  rw [length_map] at hj
  have hi : i < parts.length := Nat.lt_trans hij hj
  rw [(hread i hi).2, (hread j hj).1]
  obtain ⟨-, hpos, -, heq⟩ := hbounds i hi
  have hordered := hspaced.ordered hij hj
  omega

/-- If the stack completes the table, and its header names one of the copies, the table is valid. -/
theorem OnDisk.valid (h : OnDisk disk (primaryHeader total guid table) table total)
    (hlow : 65536 ≤ total) (hhigh : total ≤ 2 ^ 32) (hcompletes : Completes table total)
    (hlba : entriesLba (tableSector table 31) = 2 ∨ entriesLba (tableSector table 31) = total - 32)
    (hspaced : Spaced 34 (total - 33) parts) (hfields : ∀ i (hi : i < parts.length),
      firstLba table i = parts[i].start ∧ lastLba table i = parts[i].last)
    (hfour : parts.length ≤ 4) : GptValid disk total (parts.map Part.sectors) := by
  obtain ⟨hself, hother, hfirst, hlastUsable, hentriesLba, hcrc⟩ :=
    primaryHeader_fields guid table hhigh
  have hlast := h.last hlow
  have hsecond : ∀ k < 32, disk (entriesLba (tableSector table 31) + k) = tableSector table k := by
    rcases hlba with hlba | hlba
    · rw [hlba]
      exact h.entries
    · rw [hlba]
      exact h.copy
  refine gptValid_of ⟨?_, ?_, ?_, ?_⟩ ⟨?_, ?_, ?_, ?_⟩ (fun i hi => ?_) (fun i hi => ?_)
    ⟨?_, ?_⟩ hhigh hspaced hfields hfour
  · rw [h.primary]
    exact headerCrc_buildGptHeader
  · rw [h.primary, hself]
  · rw [h.primary, hother]
  · rw [h.primary, hentriesLba, hcrc, crc32_bytesAt h.entries, hcompletes.crc]
  · rw [hlast]
    exact hcompletes.header
  · rw [hlast, hcompletes.self]
  · rw [hlast, hcompletes.other]
  · rw [hlast, crc32_bytesAt hsecond, hcompletes.entries]
  · rw [h.primary, hentriesLba, bytesAt_eq h.entries hi]
  · rw [hlast, bytesAt_eq hsecond hi]
  · rw [h.primary, hfirst]
  · rw [h.primary, hlastUsable]

end Result

/-- The partitions and the table of a call. -/
def plannedParts (sizesGb : List (BitVec 64)) : List Part := (layOut 34 sizesGb).1

def plannedTable (env : Setting) (info : StorageDeviceInfo) (sizesGb : List (BitVec 64)) : Buffer :=
  gptEntries info.serial (info.sectorCount % 2 ^ 32) (plannedParts sizesGb) env.behind

/-- What has been checked and written when the call returns 0. -/
theorem installer_success {env : Setting} {device : List Char}
    {sizesGb : List (BitVec 64)} {d d' : Device} {info : StorageDeviceInfo}
    (hinfo : env.blockDeviceGetInfo (env.blockDeviceFind device).toNat = some info)
    (hrun : installerFormatCustomDevice env device sizesGb d = (d', 0)) :
    let total := info.sectorCount % 2 ^ 32
    sizesGb.length ≤ 4 ∧ 65536 ≤ total ∧ (sizesGb.map BitVec.toNat).sum % 2 ^ 64 * 2 ^ 30 % 2 ^ 64 ≤
      total * blockSectorSize - 2 * 1024 * 1024 ∧ (layOut 34 sizesGb).2 ≤ total - 33 ∧ writeDisk
      info total (plannedParts sizesGb) (plannedTable env info sizesGb) d = (d', some ()) := by
  unfold installerFormatCustomDevice at hrun
  simp only [hinfo] at hrun
  split at hrun
  · cases hrun
  split at hrun
  · cases hrun
  split at hrun
  · cases hrun
  split at hrun
  · cases hrun
  split at hrun
  · cases hrun
  split at hrun
  · cases hrun
  split at hrun
  · cases hrun
  split at hrun
  · cases hrun
  rename_i hargs _ _ _ hsmall hneeded _ hplan
  intro total
  refine ⟨by omega, by omega, Nat.le_of_not_lt fun hlt => hneeded (.inr hlt), by omega, ?_⟩
  unfold plannedParts plannedTable plannedParts
  revert hrun
  generalize writeDisk _ _ _ _ d = r
  intro hrun
  rcases r with ⟨d₁, _ | _⟩
  · cases hrun
  · cases hrun
    rfl

/-- All writes of a successful call. -/
theorem writes_writeDisk (info : StorageDeviceInfo) (total : Nat) (parts : List Part)
    (table : Buffer) :
    ∃ guid backup, Writes (writeDisk info total parts table)
      (gptWrites (primaryHeader total guid table) backup table total ++
        parts.flatMap partWrites) := by
  refine ⟨generateGuid info.serial (0x47505444#32 ^^^ BitVec.ofNat 32 total),
    buildGptHeader (total - 1) 1 (total - 32) (total - 33 - 1)
      (generateGuid info.serial (0x47505444#32 ^^^ BitVec.ofNat 32 total))
      (crc32 table gptEntriesSize), ?_⟩
  have h : Writes (writeDisk info total parts table) _ :=
    cons fun _ =>
    cons fun _ =>
    bind (writes_writeTable _ _) fun _ =>
    cons fun _ =>
    bind (writes_writeTable _ _) fun _ =>
    bind writes_formatParts fun _ => writes_blockDeviceFlush
  simpa [gptWrites, primaryHeader] using h

/-- The partitions are spaced if the sizes can be expressed. -/
theorem plannedParts_spaced {sizesGb : List (BitVec 64)} {total : Nat} (hfour : sizesGb.length ≤ 4)
    (hsizes : ∀ size ∈ sizesGb, Representable size) (hhigh : total < 2 ^ 32)
    (hneeded : (sizesGb.map BitVec.toNat).sum % 2 ^ 64 * 2 ^ 30 % 2 ^ 64 ≤
      total * blockSectorSize - 2 * 1024 * 1024)
    (hend : (layOut 34 sizesGb).2 ≤ total - 33) :
    Spaced 34 (total - 33) (plannedParts sizesGb) ∧
      (plannedParts sizesGb).map Part.sectors = sizesGb.map fun size => size.toNat * 2 ^ 21 := by
  have hsum : (sizesGb.map BitVec.toNat).sum ≤ 2047 * sizesGb.length := by
    clear hneeded hend hfour
    induction sizesGb with
    | nil => exact Nat.le_refl _
    | cons size sizes ih =>
      have hrest := ih fun s hs => hsizes s (mem_cons_of_mem _ hs)
      have hsize := (hsizes size mem_cons_self).2
      rw [map_cons, sum_cons, length_cons]
      omega
  unfold blockSectorSize at hneeded
  have hroom : 34 + (sizesGb.map BitVec.toNat).sum * 2 ^ 21 + 2048 * sizesGb.length < 2 ^ 32 := by
    omega
  obtain ⟨hspaced, hmap⟩ := layOut_spaced hsizes hroom
  exact ⟨hspaced.mono_right hend, hmap⟩

/-- The disk after a successful call. -/
theorem installer_onDisk {env : Setting}
    {device : List Char} {sizesGb : List (BitVec 64)} {d d' : Device} {info : StorageDeviceInfo}
    (hinfo : env.blockDeviceGetInfo (env.blockDeviceFind device).toNat = some info)
    (hcount : info.sectorCount < 2 ^ 32) (hsizes : ∀ size ∈ sizesGb, Representable size)
    (hrun : installerFormatCustomDevice env device sizesGb d = (d', 0)) : sizesGb.length ≤ 4 ∧
    65536 ≤ info.sectorCount ∧ Spaced 34 (info.sectorCount - 33) (plannedParts sizesGb) ∧
    (plannedParts sizesGb).map Part.sectors = (sizesGb.map fun size => size.toNat * 2 ^ 21) ∧
    ∃ guid, OnDisk d'.sectors (primaryHeader info.sectorCount guid (plannedTable env info sizesGb))
    (plannedTable env info sizesGb) info.sectorCount := by
  obtain ⟨hfour, hlow, hneeded, hend, hwrite⟩ := installer_success hinfo hrun
  have htotal : info.sectorCount % 2 ^ 32 = info.sectorCount := Nat.mod_eq_of_lt hcount
  rw [htotal] at hlow hneeded hend hwrite
  obtain ⟨hspaced, hsec⟩ := plannedParts_spaced hfour hsizes hcount hneeded hend
  obtain ⟨guid, backup, hwrites⟩ := writes_writeDisk info info.sectorCount (plannedParts sizesGb)
    (plannedTable env info sizesGb)
  obtain ⟨hdisk, -⟩ := hwrites d d' () hwrite
  refine ⟨hfour, hlow, hspaced, hsec, guid, ?_⟩
  rw [hdisk, applyAll_append]
  exact (onDisk_gptWrites _ _ hlow (by omega)).formatted hsizes hspaced hsec hlow (by omega)

/--
Custom formatting.  Let the disk have fewer than 2^32 sectors and every size be at least 1 GB and
below 2048 GB.  After a successful call the partition table is valid if the memory behind the array
of entries completes it to a table with the same CRC whose last sector is a second header that names
one of the two copies; and it is valid only if that memory completes the table.
-/
theorem custom_gpt (env : Setting) (device : List Char) (sizesGb : List (BitVec 64)) (d d' : Device)
    (info : StorageDeviceInfo)
    (hinfo : env.blockDeviceGetInfo (env.blockDeviceFind device).toNat = some info)
    (hcount : info.sectorCount < 2 ^ 32) (hsizes : ∀ size ∈ sizesGb, Representable size)
    (hrun : installerFormatCustomDevice env device sizesGb d = (d', 0)) :
    let table := plannedTable env info sizesGb
    let second := entriesLba (tableSector table 31)
    let requested := sizesGb.map fun size => size.toNat * 2 ^ 21
    (Completes table info.sectorCount → second = 2 ∨ second = info.sectorCount - 32 →
      GptValid d'.sectors info.sectorCount requested) ∧
    (GptValid d'.sectors info.sectorCount requested → Completes table info.sectorCount) := by
  obtain ⟨hfour, hlow, hspaced, hsec, guid, honDisk⟩ := installer_onDisk hinfo hcount hsizes hrun
  refine ⟨fun hcompletes hsecond => ?_, fun hvalid => honDisk.completes hlow (by omega) hvalid⟩
  rw [← hsec]
  have hlen : (plannedParts sizesGb).length ≤ 4 := by
    have hlen := congrArg length hsec
    rw [length_map, length_map] at hlen
    omega
  refine honDisk.valid hlow (by omega) hcompletes hsecond hspaced (fun i hi => ?_) hlen
  refine gptEntries_fields (fun part hpart => ?_) hlen hi
  have hbounds := hspaced.bounds hpart
  omega

/-- A disk of 2 GiB. -/
def smallDisk : StorageDeviceInfo := ⟨[], 2 ^ 22, 512, true, true⟩

/-- One disk, and a stack of zeros. -/
def oneDisk : Setting where
  blockDeviceFind _ := 0
  blockDeviceGetInfo _ := some smallDisk
  blockDeviceSelect _ := true
  behind := zero

theorem oneDisk_info :
    oneDisk.blockDeviceGetInfo (oneDisk.blockDeviceFind ['a']).toNat = some smallDisk ∧
      smallDisk.sectorCount < 2 ^ 32 := by
  refine ⟨rfl, ?_⟩
  show 4194304 < 4294967296
  omega

theorem representable_one : ∀ size ∈ [1#64], Representable size := by
  intro size hsize
  rw [mem_singleton.mp hsize]
  exact ⟨by decide, by decide⟩

/-- One partition of 1 GB is made. -/
theorem oneDisk_run :
    ∃ d', installerFormatCustomDevice oneDisk ['a'] [1#64] blankDevice = (d', 0) := by
  have hstatus : (installerFormatCustomDevice oneDisk ['a'] [1#64] blankDevice).2 = 0 := by
    decide +kernel
  generalize installerFormatCustomDevice oneDisk ['a'] [1#64] blankDevice = r at hstatus
  obtain ⟨d', status⟩ := r
  obtain rfl : status = 0 := hstatus
  exact ⟨d', rfl⟩

theorem custom_gpt_one :
    ∃ d', installerFormatCustomDevice oneDisk ['a'] [1#64] blankDevice = (d', 0) ∧
      (GptValid d'.sectors smallDisk.sectorCount ([1#64].map fun size => size.toNat * 2 ^ 21) →
        Completes (plannedTable oneDisk smallDisk [1#64]) smallDisk.sectorCount) := by
  obtain ⟨d', hrun⟩ := oneDisk_run
  obtain ⟨hinfo, hcount⟩ := oneDisk_info
  have hgpt :=
    custom_gpt oneDisk ['a'] [1#64] blankDevice d' smallDisk hinfo hcount representable_one hrun
  exact ⟨d', hrun, hgpt.2⟩

/--
The call succeeds, but the last sector of the disk does not hold a header that points to sector 1.
-/
theorem custom_gpt_fails :
    ∃ d', installerFormatCustomDevice oneDisk ['a'] [1#64] blankDevice = (d', 0) ∧
      alternateLba (d'.sectors (smallDisk.sectorCount - 1)) = 0 ∧
      ¬GptValid d'.sectors smallDisk.sectorCount ([1#64].map fun size => size.toNat * 2 ^ 21) := by
  obtain ⟨d', hrun⟩ := oneDisk_run
  obtain ⟨hinfo, hcount⟩ := oneDisk_info
  obtain ⟨-, hlow, -, -, guid, honDisk⟩ := installer_onDisk hinfo hcount representable_one hrun
  have hzero : alternateLba (d'.sectors (smallDisk.sectorCount - 1)) = 0 := by
    rw [honDisk.last hlow]
    decide +kernel
  refine ⟨d', hrun, hzero, fun hvalid => ?_⟩
  have hone := hvalid.backup.other
  rw [hzero] at hone
  cases hone

end PureCOS.Install
