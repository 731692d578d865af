import PureCOS.Fs.Gpt

/-!
# The partitions of an installed system

`fs/install.c`: `installer_install_device` up to the point where it formats the system partition.
The disk gets an EFI system partition, a partition for the system and, if the disk is large enough,
one for swap, which is carved from the end.  Sector numbers have 32 bits.

Unlike the table of `Fs/Gpt`, this one is complete: 32 sectors with 128 entries, of which two or
three are used, in two copies with a header each.
-/

namespace PureCOS.Install

open Buffer Ext2 List Writes

/-! ## The plan -/

/-- Subtraction in 32 bits. -/
def sub32 (a b : Nat) : Nat := (a + 2 ^ 32 - b) % 2 ^ 32

def installEspStartLba : Nat := 2048

/-- `INSTALL_ESP_ALIGN_SECTORS` and `INSTALL_SWAP_ALIGN` -/
def installAlign : Nat := 2048

def installSwapMaxSectors : Nat := 4 * 1024 * 1024
def installSwapMinDataSectors : Nat := 2 * 1024 * 1024
def swapMinPartitionSectors : Nat := 16384
def gptEntrySectors : Nat := 32

/-- No swap. -/
def noSwap : Part := ⟨0, 0⟩

variable (total dataStart esp : Nat) (swap : Part) (serial : List Byte)

/--
`plan_swap_partition`; the result is what it leaves in `swap_start_lba` and `swap_sector_count`.
-/
def planSwapPartition : Part :=
  let lastUsable := sub32 (sub32 total gptEntrySectors) 2
  let want := min (total / 8) installSwapMaxSectors / installAlign * installAlign
  if want < swapMinPartitionSectors then noSwap
  else
    let start := sub32 (lba32 (lastUsable + 1)) want / installAlign * installAlign
    if start ≤ dataStart ∨ sub32 start dataStart < installSwapMinDataSectors then noSwap
    else ⟨start, sub32 (lba32 (lastUsable + 1)) start⟩

/-! ## The table -/

def gptEspTypeGuid : Buffer := fun i =>
  [0x28#8, 0x73#8, 0x2A#8, 0xC1#8, 0x1F#8, 0xF8#8, 0xD2#8, 0x11#8,
    0xBA#8, 0x4B#8, 0x00#8, 0xA0#8, 0xC9#8, 0x3E#8, 0xC9#8, 0x3B#8].getD i 0

def swapGptTypeGuid : Buffer := fun i =>
  [0x6D#8, 0xFD#8, 0x57#8, 0x06#8, 0xAB#8, 0xA4#8, 0xC4#8, 0x43#8,
    0x84#8, 0xE5#8, 0x09#8, 0x33#8, 0xC8#8, 0x4B#8, 0x4F#8, 0x4F#8].getD i 0

/-- The protective master boot record of `write_gpt_layout`. -/
def layoutMbr : Buffer :=
  let b := zero
  let b := b.splice 447 7 fun i => [0x00#8, 0x02#8, 0x00#8, 0xEE#8, 0xFF#8, 0xFF#8, 0xFF#8].getD i 0
  let b := b.writeU32 454 1
  let b := b.writeU32 458 (sub32 total 1)
  b.splice 510 2 fun i => [0x55#8, 0xAA#8].getD i 0

/-- The first of the sectors with entries. -/
def layoutEntries : Buffer :=
  let guid (salt : BitVec 32) := generateGuid serial (salt ^^^ BitVec.ofNat 32 total)
  let lastUsable := sub32 (sub32 (sub32 total 1) gptEntrySectors) 1
  let b :=
    gptEntry zero 0 gptEspTypeGuid (guid 0x45535031#32) installEspStartLba
      (sub32 dataStart 1) "PureC ESP".toList
  let b := gptEntry b 1 gptBasicDataTypeGuid (guid 0x44415441#32) dataStart
    (if swap.sectors ≠ 0 then sub32 swap.start 1 else lastUsable) "PureC System".toList
  if swap.sectors ≠ 0 then
    gptEntry b 2 swapGptTypeGuid (guid 0x53574150#32) swap.start
      (sub32 (lba32 (swap.start + swap.sectors)) 1) "PureC Swap".toList
  else b

/-- `sector_buffer` in pass `s` of the loop over the sectors with entries. -/
def layoutSector (entries : Buffer) (s : Nat) : Buffer := if s = 0 then entries else zero

/-- `entries_crc` after `n` more passes, from pass `s` on. -/
def layoutCrc (entries : Buffer) : Nat → Nat → BitVec 32 → BitVec 32
  | 0, _, crc => crc
  | n + 1, s, crc =>
    layoutCrc entries n (s + 1) (crc32Update crc (layoutSector entries s) blockSectorSize)

/-- The writes of the loop: every sector goes to both copies. -/
def writeEntries (entries : Buffer) (backup : Nat) : Nat → Nat → Proc Device Unit
  | 0, _ => pure ()
  | n + 1, s => do
    blockDeviceWriteSectors (2 + s) (layoutSector entries s) 1
    blockDeviceWriteSectors (lba32 (backup + s)) (layoutSector entries s) 1
    writeEntries entries backup n (s + 1)

/-- The disk is too small for the layout. -/
def TooSmall : Prop := total ≤ lba32 (dataStart + gptEntrySectors + 65535)

instance (total dataStart : Nat) : Decidable (TooSmall total dataStart) :=
  inferInstanceAs (Decidable (_ ≤ _))

/-- The writes of `write_gpt_layout` -/
def layoutWrites (entries guid : Buffer) : Proc Device Unit := do
  let backupHeader := sub32 total 1
  let backupEntries := sub32 backupHeader gptEntrySectors
  let lastUsable := sub32 backupEntries 1
  let crc := ~~~layoutCrc entries gptEntrySectors 0 0xFFFFFFFF#32
  blockDeviceWriteSectors 0 (layoutMbr total) 1
  writeEntries entries backupEntries gptEntrySectors 0
  blockDeviceWriteSectors 1 (buildGptHeader 1 backupHeader 2 lastUsable guid crc) 1
  blockDeviceWriteSectors backupHeader
    (buildGptHeader backupHeader 1 backupEntries lastUsable guid crc) 1

def writeGptLayout : Proc Device Unit := fun d =>
  let dataStart := lba32 (installEspStartLba + esp)
  if TooSmall total dataStart then (d, none)
  else
    layoutWrites total (layoutEntries total dataStart swap serial)
      (generateGuid serial (0x47505444#32 ^^^ BitVec.ofNat 32 total)) d

/-! ## The installer -/

def fsErrorConfirmation : Int := -11

/-- `struct storage_device_info`, with the transport -/
structure InstallTarget extends StorageDeviceInfo where
  transport : Nat

/-- The disks of the machine, and the image of the EFI system partition with its size. -/
structure InstallSetting where
  blockDeviceFind : List Byte → Int
  blockDeviceGetInfo : Nat → Option InstallTarget
  blockDeviceSelect : Nat → Bool
  espImage : Option (Buffer × Nat)

def blockDeviceRead (lba : Nat) : Proc Device Buffer := fun d =>
  ({ d with transfers := d.transfers + 1 }, if d.ioOk d.transfers then
    some (d.sectors lba) else none)

/-- The header that `swap_format` writes. -/
def swapHeader (sectors : Nat) : Buffer :=
  let b :=
    zero.splice 0 8 fun i =>
      [0x50#8, 0x55#8, 0x52#8, 0x45#8, 0x53#8, 0x57#8, 0x41#8, 0x50#8].getD i 0
  let b := b.writeU32 8 1
  let b := b.writeU32 12 (min (sectors / 8) (512 * 1024))
  b.writeU32 16 4096

/-- `swap_format`; that it fails is only logged. -/
def swapFormat : Proc Device Unit := fun d =>
  if swap.sectors = 0 ∨ swap.sectors < swapMinPartitionSectors then (d, some ())
  else ((blockDeviceWriteSectors swap.start (swapHeader swap.sectors) 8 d).1, some ())

/-- The loop of `install_write_esp_image`; every round writes at least one sector. -/
def writeEspLoop (image : Buffer) (sectors : Nat) : Nat → Nat → Proc Device Unit
  | 0, _ => pure ()
  | rounds + 1, done =>
    if sectors ≤ done then pure ()
    else do
      let count := min (sectors - done) 2048
      blockDeviceWriteSectors (installEspStartLba + done)
        (fun i => image (done * blockSectorSize + i)) count
      writeEspLoop image sectors rounds (done + count)

/-- A sector is that of the image. -/
def sameSector (check image : Buffer) (s : Nat) : Bool :=
  (range blockSectorSize).all fun i => check i == image (s * blockSectorSize + i)

/-- What was read is what it should be. -/
def verify (ok : Bool) : Proc Device Unit := fun d => (d, if ok then some () else none)

def installWriteEspImage (image : Buffer) (size : Nat) : Proc Device Unit := do
  let sectors := size / blockSectorSize
  writeEspLoop image sectors sectors 0
  blockDeviceFlush
  let first ← blockDeviceRead installEspStartLba
  verify (sameSector first image 0 && first 510 == 0x55#8 && first 511 == 0xAA#8)
  let last ← blockDeviceRead (installEspStartLba + sectors - 1)
  verify (sameSector last image (sectors - 1))

/-- `data_start` and `data_sectors` of `installer_install_device` -/
def dataPart : Part :=
  ⟨dataStart,
    if swap.sectors ≠ 0 then sub32 swap.start dataStart
    else sub32 (sub32 (sub32 total dataStart) gptEntrySectors) 1⟩

/-- The writes of `installer_install_device` before it formats the system partition. -/
def installWrites (image : Buffer) (size : Nat) :
    Proc Device Unit := do
  writeGptLayout total esp swap serial
  blockDeviceFlush
  swapFormat swap
  installWriteEspImage image size

def espSectors (size : Nat) : Nat :=
  (size / blockSectorSize + installAlign - 1) / installAlign * installAlign

/--
`installer_install_device` up to the call of `ext2_format_at`, whose arguments are the result.
-/
def installerInstallDevice (env : InstallSetting) (deviceName serialConfirmation : List Byte)
    (d : Device) : Device × Except Int Part :=
  if env.blockDeviceFind deviceName < 0 then
    (d, .error fsErrorNotFound)
  else
    match env.blockDeviceGetInfo (env.blockDeviceFind deviceName).toNat with
    | none => (d, .error fsErrorInvalid)
    | some info =>
      if info.operational = false ∨ info.writable = false then
        (d, .error fsErrorReadOnly)
      else if info.serial ≠ [] ∧ info.serial ≠ serialConfirmation then
        (d, .error fsErrorConfirmation)
      else if info.sectorSize ≠ blockSectorSize ∨ 2 ^ 32 - 1 < info.sectorCount then
        (d, .error fsErrorUnsupported)
      else
        match env.espImage with
        | none => (d, .error fsErrorNotFound)
        | some (image, size) =>
          let esp := espSectors size
          let total := info.sectorCount % 2 ^ 32
          let dataStart := lba32 (installEspStartLba + esp)
          let swap :=
            if info.transport = 1 ∨ info.transport = 2 then
              planSwapPartition total dataStart else noSwap
          if size < blockSectorSize ∨ 2 ^ 32 - 1 < size ∨ size % blockSectorSize ≠ 0 then
            (d, .error fsErrorNotFound)
          else if TooSmall total dataStart then
            (d, .error fsErrorTooSmall)
          else if env.blockDeviceSelect (env.blockDeviceFind deviceName).toNat = false then
            (d, .error fsErrorInvalid)
          else
            match installWrites total esp swap info.serial image size d with
            | (d, some ()) => (d, .ok (dataPart total dataStart swap))
            | (d, none) => (d, .error fsErrorIo)

/-! ## A valid layout -/

/-- The partitions: for EFI, for the system, and for swap if there is one. -/
def layoutParts : List Part :=
  ⟨installEspStartLba, esp⟩ :: dataPart total (lba32 (installEspStartLba + esp)) swap ::
    if swap.sectors ≠ 0 then [swap] else []

/-- The types of the partitions. -/
def layoutTypes : List Buffer := [gptEspTypeGuid, gptBasicDataTypeGuid, swapGptTypeGuid]

/--
A valid table in two copies, sectors 0 to 33 and the last 33 ones, whose entries are those of the
partitions.  These are not empty, do not overlap, and lie between the two copies.
-/
structure LayoutValid (disk : Nat → Buffer) (total : Nat) (parts : List Part) : Prop where
  gpt : GptValid disk total (parts.map Part.sectors)
  arrays : entriesLba (disk 1) = 2 ∧ entriesLba (disk (total - 1)) = total - 33
  usable : ∀ lba ∈ [1, total - 1], firstUsableLba (disk lba) = 34 ∧
    lastUsableLba (disk lba) = total - 34
  starts : ∀ i (h : i < parts.length), firstLba (bytesAt disk 2) i = parts[i].start
  types : ∀ i < parts.length, ∀ k < 16, bytesAt disk 2 (i * 128 + k) =
    layoutTypes.getD i zero k
  others : ∀ i < entryArraySize, parts.length * 128 ≤ i → bytesAt disk 2 i = 0
  spaced : Spaced 34 (total - 33) parts

/-! ## Arithmetic of the plan -/

section Plan

variable {total dataStart esp : Nat} {swap : Part}

theorem sub32_of_le {a b : Nat} (hle : b ≤ a) (ha : a < 2 ^ 32) : sub32 a b = a - b := by
  unfold sub32
  omega

/-- There is no swap, or it ends at the end of the disk and begins behind the system partition. -/
def Fits (total dataStart : Nat) (swap : Part) : Prop :=
  swap.sectors ≠ 0 → dataStart < swap.start ∧ swap.start + swap.sectors = total - 33

theorem fits_planSwapPartition (htotal : total < 2 ^ 32) (hroom : dataStart + 32 + 65535 < total) :
    Fits total dataStart (planSwapPartition total dataStart) := by
  have hlast : sub32 (sub32 total gptEntrySectors) 2 = total - 34 := by
    unfold gptEntrySectors
    rw [sub32_of_le (by omega) htotal, sub32_of_le (by omega) (by omega)]
    omega
  have hend : lba32 (total - 34 + 1) = total - 33 := by
    rw [lba32_of_lt (by omega)]
    omega
  have hwant : min (total / 8) installSwapMaxSectors / installAlign * installAlign ≤ total / 8 := by
    unfold installAlign
    omega
  unfold Fits planSwapPartition
  simp only [hlast, hend]
  generalize min (total / 8) installSwapMaxSectors / installAlign * installAlign = want at hwant ⊢
  split
  · simp [noSwap]
  rw [sub32_of_le (by omega) (by omega)]
  have hstart : (total - 33 - want) / installAlign * installAlign ≤ total - 33 - want := by
    unfold installAlign
    omega
  generalize (total - 33 - want) / installAlign * installAlign = start at hstart ⊢
  split
  · simp [noSwap]
  rename_i hlarge
  intro _
  rw [sub32_of_le (by omega) (by omega)]
  dsimp only
  omega

theorem dataPart_eq (hfits : Fits total dataStart swap) (htotal : total < 2 ^ 32)
    (hroom : dataStart + 32 + 65535 < total) :
    dataPart total dataStart swap =
      ⟨dataStart, (if swap.sectors ≠ 0 then swap.start else total - 33) - dataStart⟩ := by
  unfold dataPart gptEntrySectors
  by_cases hswap : swap.sectors ≠ 0
  · obtain ⟨hstart, hend⟩ := hfits hswap
    simp only [if_pos hswap]
    rw [sub32_of_le (by omega) (by omega)]
  simp only [if_neg hswap]
  have hdata : sub32 total dataStart = total - dataStart := sub32_of_le (by omega) htotal
  have hentries : sub32 (total - dataStart) 32 = total - dataStart - 32 :=
    sub32_of_le (by omega) (by omega)
  rw [hdata, hentries, sub32_of_le (by omega) (by omega), Part.mk.injEq]
  exact ⟨rfl, by omega⟩

theorem lba32_dataStart (hesp : esp < 2 ^ 31) : lba32 (installEspStartLba + esp) = 2048 + esp :=
  lba32_of_lt (by unfold installEspStartLba; omega)

theorem room_of_not_tooSmall (hdata : dataStart < 2 ^ 31 + 2048) (h : ¬TooSmall total dataStart) :
    dataStart + 32 + 65535 < total := by
  unfold TooSmall gptEntrySectors at h
  rw [lba32_of_lt (by omega)] at h
  omega

/-- The partitions follow one another between the two copies of the table. -/
theorem spaced_layoutParts (hesp : 0 < esp)
    (hsmall : esp < 2 ^ 31) (hfits : Fits total (2048 + esp) swap) (htotal : total < 2 ^ 32)
    (hroom : 2048 + esp + 32 + 65535 < total) :
    Spaced 34 (total - 33) (layoutParts total esp swap) := by
  unfold layoutParts
  rw [lba32_dataStart hsmall, dataPart_eq hfits htotal hroom]
  refine ⟨show 34 ≤ 2048 by decide, hesp, ?_⟩
  by_cases hswap : swap.sectors ≠ 0
  · obtain ⟨hstart, hend⟩ := hfits hswap
    simp only [if_pos hswap, Spaced]
    unfold installEspStartLba
    omega
  · simp only [if_neg hswap, Spaced]
    unfold installEspStartLba
    omega

end Plan

/-! ## The entries -/

section Entries

variable {total esp dataStart s n : Nat} {swap : Part} {serial : List Byte} {entries : Buffer}

/-- The whole array of entries. -/
def layoutTable (entries : Buffer) : Buffer := fun i => if i < 512 then entries i else 0

theorem crc32Update_add (crc : BitVec 32) (b : Buffer) (k m : Nat) :
    crc32Update crc b (k + m) = crc32Update (crc32Update crc b k) (fun i => b (k + i)) m := by
  unfold crc32Update
  rw [range_add, foldl_append, foldl_map]

/-- The CRC over the sectors is that of the array. -/
theorem layoutCrc_eq (crc : BitVec 32) : layoutCrc entries n s crc =
    crc32Update crc (fun i => layoutTable entries (s * 512 + i)) (n * 512) := by
  induction n generalizing s crc with
  | zero => simp [layoutCrc, crc32Update]
  | succ n ih =>
    have hsector : crc32Update crc (layoutSector entries s) blockSectorSize =
        crc32Update crc (fun i => layoutTable entries (s * 512 + i)) 512 := by
      refine crc32Update_congr crc fun i hi => ?_
      unfold layoutSector layoutTable
      by_cases hs : s = 0
      · simp only [hs, if_true, Nat.zero_mul, Nat.zero_add]
        exact (if_pos hi).symm
      · rw [if_neg hs, if_neg (by omega)]
        rfl
    have hrest : (fun i => layoutTable entries ((s + 1) * 512 + i)) =
        fun i => layoutTable entries (s * 512 + (512 + i)) := by
      funext i
      rw [show (s + 1) * 512 + i = s * 512 + (512 + i) by omega]
    rw [layoutCrc, ih, hsector, hrest, show (n + 1) * 512 = 512 + n * 512 by omega, crc32Update_add]

/-- Entry `i` of a table. -/
structure HasEntry (b : Buffer) (i : Nat) (type : Buffer) (first last : Nat) : Prop where
  first : firstLba b i = first
  last : lastLba b i = last
  type : ∀ k < 16, b (i * 128 + k) = type k

theorem hasEntry_gptEntry {b type guid : Buffer} {i first last : Nat} {name : List Char}
    (hfirst : first < 2 ^ 64) (hlast : last < 2 ^ 64) :
    HasEntry (gptEntry b i type guid first last name) i type first last := by
  refine ⟨(gptEntry_fields hfirst hlast).1, (gptEntry_fields hfirst hlast).2, fun k hk => ?_⟩
  unfold gptEntry
  rw [writeGptName_of_outside _ _ _ (by omega), writeLba_of_outside (by omega),
    writeLba_of_outside (by omega), splice_of_outside (by omega)]
  exact splice_apply hk

theorem HasEntry.congr {b c type : Buffer} {i first last : Nat} (h : HasEntry b i type first last)
    (hsame : ∀ k < 128, c (i * 128 + k) = b (i * 128 + k)) :
    HasEntry c i type first last := by
  obtain ⟨hfirst, hlast⟩ := entry_congr hsame
  exact ⟨hfirst.trans h.first, hlast.trans h.last,
    fun k hk => (hsame k (by omega)).trans (h.type k hk)⟩

/-- Another entry leaves this one alone. -/
theorem HasEntry.gptEntry_of_ne {b type other guid : Buffer} {i j first last first' last' : Nat}
    {name : List Char} (h : HasEntry b i type first last) (hne : i ≠ j) :
    HasEntry (gptEntry b j other guid first' last' name) i type first last :=
  h.congr fun k hk => gptEntry_of_outside (by omega)

/-- The entries are those of the partitions. -/
theorem hasEntry_layoutEntries (hsmall : esp < 2 ^ 31) (hfits : Fits total (2048 + esp) swap)
    (htotal : total < 2 ^ 32) (hroom : 2048 + esp + 32 + 65535 < total) {i : Nat} {part : Part}
    (hpart : (layoutParts total esp swap)[i]? = some part) :
    HasEntry (layoutEntries total (2048 + esp) swap serial) i
      (layoutTypes.getD i zero) part.start part.last := by
  have hlastUsable : sub32 (sub32 (sub32 total 1) gptEntrySectors) 1 = total - 34 := by
    have hone : sub32 total 1 = total - 1 := sub32_of_le (by omega) htotal
    have htwo : sub32 (total - 1) 32 = total - 33 := sub32_of_le (by omega) (by omega)
    unfold gptEntrySectors
    rw [hone, htwo, sub32_of_le (by omega) (by omega)]
    omega
  have hesp : sub32 (2048 + esp) 1 = (Part.mk installEspStartLba esp).last := by
    unfold sub32 Part.last installEspStartLba
    dsimp only
    omega
  have hdata : (if swap.sectors ≠ 0 then sub32 swap.start 1 else total - 34) = (Part.mk (2048 + esp)
      ((if swap.sectors ≠ 0 then swap.start else total - 33) - (2048 + esp))).last := by
    unfold sub32 Part.last
    split
    · have hswap := hfits ‹_›
      dsimp only
      omega
    · dsimp only
      omega
  have hsmallStart : 2048 + esp < 2 ^ 32 := by omega
  have hlast : ∀ part : Part, part.last < 2 ^ 64 :=
    fun part => Nat.lt_trans (Nat.mod_lt _ (by decide)) (by decide)
  have hparts : layoutParts total esp swap = ⟨installEspStartLba, esp⟩ ::
      ⟨2048 + esp, (if swap.sectors ≠ 0 then swap.start else total - 33) - (2048 + esp)⟩ ::
        if swap.sectors ≠ 0 then [swap] else [] := by
    unfold layoutParts
    rw [lba32_dataStart hsmall, dataPart_eq hfits htotal hroom]
  rw [hparts] at hpart
  unfold layoutEntries
  simp only [hlastUsable, hesp, hdata]
  by_cases hswap : swap.sectors ≠ 0
  · have hfit := hfits hswap
    have hend : sub32 (lba32 (swap.start + swap.sectors)) 1 = swap.last := by
      rw [lba32_of_lt (by omega)]
      unfold sub32 Part.last
      omega
    simp only [if_pos hswap, hend] at hpart ⊢
    match i, hpart with
    | 0, rfl =>
      exact ((hasEntry_gptEntry (by decide) (hlast _)).gptEntry_of_ne (by decide)).gptEntry_of_ne
        (by decide)
    | 1, rfl =>
      exact (hasEntry_gptEntry (Nat.lt_of_lt_of_le hsmallStart (by decide))
        (hlast _)).gptEntry_of_ne (by decide)
    | 2, rfl => exact hasEntry_gptEntry (by omega) (hlast _)
  · simp only [if_neg hswap] at hpart ⊢
    match i, hpart with
    | 0, rfl => exact (hasEntry_gptEntry (by decide) (hlast _)).gptEntry_of_ne (by decide)
    | 1, rfl => exact hasEntry_gptEntry (Nat.lt_of_lt_of_le hsmallStart (by decide)) (hlast _)

theorem layoutEntries_apply_of_ge (i : Nat) (hi : (layoutParts total esp swap).length * 128 ≤ i) :
    layoutEntries total dataStart swap serial i = 0 := by
  unfold layoutEntries
  unfold layoutParts at hi
  by_cases hswap : swap.sectors ≠ 0
  · simp only [if_pos hswap, length_cons, length_nil] at hi ⊢
    rw [gptEntry_of_outside (by omega), gptEntry_of_outside (by omega),
      gptEntry_of_outside (by omega)]
    rfl
  · simp only [if_neg hswap, length_cons, length_nil] at hi ⊢
    rw [gptEntry_of_outside (by omega), gptEntry_of_outside (by omega)]
    rfl

end Entries

/-! ## What is on the disk -/

section Disk

variable {disk : Nat → Buffer} {entries guid : Buffer} {backup total esp x k s n : Nat}
  {swap : Part} {serial : List Byte} {ws : List Write} {d d' : Device}

/-- The writes of `writeEntries`. -/
def entryWrites (entries : Buffer) (backup : Nat) : Nat → Nat → List Write
  | 0, _ => []
  | n + 1, s =>
    ⟨2 + s, 1, layoutSector entries s⟩ :: ⟨lba32 (backup + s), 1, layoutSector entries s⟩ ::
      entryWrites entries backup n (s + 1)

theorem writes_writeEntries (n s : Nat) :
    Writes (writeEntries entries backup n s) (entryWrites entries backup n s) := by
  induction n generalizing s with
  | zero => exact pure ()
  | succ n ih =>
    exact cons fun _ =>
      cons fun _ => ih (s + 1)

/-- The writes go to the two copies, from sector `s` of the array on. -/
theorem not_covers_entryWrites (hhigh : backup + 32 ≤ 2 ^ 32) (hs : s + n ≤ 32)
    (hx : (x < 2 + s ∨ 2 + s + n ≤ x) ∧ (x < backup + s ∨ backup + s + n ≤ x)) :
    ∀ w ∈ entryWrites entries backup n s, ¬w.Covers x := by
  induction n generalizing s with
  | zero => simp [entryWrites]
  | succ n ih =>
    intro w hw
    have hlba : lba32 (backup + s) = backup + s := lba32_of_lt (by omega)
    rw [entryWrites, hlba] at hw
    unfold Write.Covers
    rcases mem_cons.mp hw with rfl | hw
    · dsimp only
      omega
    rcases mem_cons.mp hw with rfl | hw
    · dsimp only
      omega
    · exact ih (by omega) (by omega) w hw

theorem Write.apply_one (data : Buffer) : (Write.mk x 1 data).apply disk x = data := by
  have hcovers : (Write.mk x 1 data).Covers x := ⟨Nat.le_refl _, Nat.lt_succ_self _⟩
  rw [Write.apply, if_pos hcovers, sector_one]

theorem Write.apply_of_ne (data : Buffer) (hne : x ≠ k) :
    (Write.mk k 1 data).apply disk x = disk x := by
  refine if_neg fun hcovers => hne ?_
  unfold Write.Covers at hcovers
  dsimp only at hcovers
  omega

/-- Both copies are written. -/
theorem applyAll_entryWrites (hlow : 34 ≤ backup) (hhigh : backup + 32 ≤ 2 ^ 32) (hs : s + n ≤ 32)
    (hk : s ≤ k ∧ k < s + n) :
    applyAll (entryWrites entries backup n s) disk (2 + k) = layoutSector entries k ∧
      applyAll (entryWrites entries backup n s) disk (backup + k) = layoutSector entries k := by
  induction n generalizing s disk with
  | zero => omega
  | succ n ih =>
    have hlba : lba32 (backup + s) = backup + s := lba32_of_lt (by omega)
    rw [entryWrites, hlba, applyAll_cons, applyAll_cons]
    by_cases hnow : k = s
    · subst hnow
      rw [applyAll_of_not_covers (not_covers_entryWrites hhigh (by omega) (by omega)),
        applyAll_of_not_covers (not_covers_entryWrites hhigh (by omega) (by omega)),
        Write.apply_one, Write.apply_of_ne _ (by omega), Write.apply_one]
      exact ⟨rfl, rfl⟩
    · exact ih (by omega) (by omega)

/-- The sectors of the table. -/
structure LayoutOnDisk (disk : Nat → Buffer) (total : Nat) (entries guid : Buffer) : Prop where
  primary : disk 1 = buildGptHeader 1 (total - 1) 2 (total - 34) guid
    (crc32 (layoutTable entries) entryArraySize)
  backup : disk (total - 1) = buildGptHeader (total - 1) 1 (total - 33) (total - 34) guid
    (crc32 (layoutTable entries) entryArraySize)
  first : ∀ k < 32, disk (2 + k) = layoutSector entries k
  second : ∀ k < 32, disk (total - 33 + k) = layoutSector entries k

theorem applyAll_nil : applyAll [] disk = disk := rfl

theorem layoutWrites_onDisk (hlow : 65536 ≤ total) (htotal : total < 2 ^ 32)
    (hrun : layoutWrites total entries guid d = (d', some ())) :
    LayoutOnDisk d'.sectors total entries guid := by
  have hheader : sub32 total 1 = total - 1 := sub32_of_le (by omega) htotal
  have hentries : sub32 (total - 1) gptEntrySectors = total - 33 :=
    sub32_of_le (by unfold gptEntrySectors; omega) (by omega)
  have hlast : sub32 (total - 33) 1 = total - 34 := sub32_of_le (by omega) (by omega)
  have hcrc : ~~~layoutCrc entries gptEntrySectors 0 0xFFFFFFFF#32 =
      crc32 (layoutTable entries) entryArraySize := by
    have hsize : gptEntrySectors * 512 = entryArraySize := rfl
    rw [layoutCrc_eq, crc32, hsize]
    simp only [Nat.zero_mul, Nat.zero_add]
  have hwrites : Writes (layoutWrites total entries guid) _ :=
    cons fun _ =>
    bind (writes_writeEntries _ _) fun _ =>
    cons fun _ => writes_blockDeviceWriteSectors _ _ _
  obtain ⟨hdisk, -⟩ := hwrites d d' () hrun
  rw [hheader, hentries, hlast, hcrc] at hdisk
  rw [hdisk]
  simp only [applyAll_append, applyAll_cons, applyAll_nil]
  have hcopies : ∀ disk k, k < 32 →
      applyAll (entryWrites entries (total - 33) gptEntrySectors 0) disk (2 + k) =
        layoutSector entries k ∧
      applyAll (entryWrites entries (total - 33) gptEntrySectors 0) disk (total - 33 + k) =
        layoutSector entries k := fun disk k hk =>
    applyAll_entryWrites (by omega) (by omega) (Nat.le_refl _)
      ⟨Nat.zero_le _, by rw [Nat.zero_add]; exact hk⟩
  refine ⟨?_, Write.apply_one _, fun k hk => ?_, fun k hk => ?_⟩
  · exact (Write.apply_of_ne _ (by omega)).trans (Write.apply_one _)
  · exact ((Write.apply_of_ne _ (by omega)).trans (Write.apply_of_ne _ (by omega))).trans
      (hcopies _ k hk).1
  · exact ((Write.apply_of_ne _ (by omega)).trans (Write.apply_of_ne _ (by omega))).trans
      (hcopies _ k hk).2

/-- A copy of the array is read back. -/
theorem bytesAt_layout {lba i : Nat} (h : ∀ k < 32, disk (lba + k) = layoutSector entries k)
    (hi : i < entryArraySize) : bytesAt disk lba i = layoutTable entries i := by
  unfold entryArraySize gptEntryCount gptEntrySize at hi
  unfold bytesAt blockSectorSize
  rw [h (i / 512) (by omega)]
  unfold layoutSector layoutTable
  by_cases hfirst : i < 512
  · rw [if_pos (by omega), if_pos hfirst, Nat.mod_eq_of_lt hfirst]
  · rw [if_neg (by omega), if_neg hfirst]
    rfl

/-- The table stays as it is while other sectors are written. -/
theorem LayoutOnDisk.frame {disk' : Nat → Buffer} (h : LayoutOnDisk disk total entries guid)
    (hlow : 65536 ≤ total) (hsame : ∀ y, y < 34 ∨ total - 33 ≤ y → disk' y = disk y) :
    LayoutOnDisk disk' total entries guid := by
  refine ⟨(hsame _ (by omega)).trans h.primary, (hsame _ (by omega)).trans h.backup, fun k hk => ?_,
    fun k hk => ?_⟩
  · exact (hsame _ (by omega)).trans (h.first k hk)
  · exact (hsame _ (by omega)).trans (h.second k hk)

/-- The fields of the header at `lba`. -/
structure HeaderFields (disk : Nat → Buffer) (lba other array total : Nat) (entries : Buffer) :
    Prop where
  self : headerLba (disk lba) = lba
  other : alternateLba (disk lba) = other
  usable : firstUsableLba (disk lba) = 34 ∧ lastUsableLba (disk lba) = total - 34
  array : entriesLba (disk lba) = array
  crc : entriesCrc (disk lba) = (crc32 (layoutTable entries) entryArraySize).toNat

theorem headerFields_of {lba other array : Nat} (h : disk lba = buildGptHeader lba other array
      (total - 34) guid (crc32 (layoutTable entries) entryArraySize)) (htotal : total < 2 ^ 32)
    (hlba : lba < 2 ^ 32) (hother : other < 2 ^ 32) (harray : array < 2 ^ 32) :
    HeaderFields disk lba other array total entries := by
  obtain ⟨hself, hother, hfirst, hlast, hentries, hcrc⟩ :=
    @buildGptHeader_fields lba other array (total - 34) guid
      (crc32 (layoutTable entries) entryArraySize) (by omega) (by omega) (by omega) (by omega)
  rw [← h] at hself hother hfirst hlast hentries hcrc
  exact ⟨hself, hother, ⟨hfirst, hlast⟩, hentries, hcrc⟩

theorem HeaderFields.headerAt {lba other array : Nat}
    (h : HeaderFields disk lba other array total entries) (hcrc : HeaderCrc (disk lba))
    (hcopy : ∀ k < 32, disk (array + k) = layoutSector entries k) : HeaderAt disk lba other := by
  refine ⟨hcrc, h.self, h.other, ?_⟩
  rw [h.crc, h.array, crc32_congr fun i hi => bytesAt_layout hcopy hi]

/-- A table whose entries are those of spaced partitions is valid. -/
theorem LayoutOnDisk.valid {parts : List Part} (h : LayoutOnDisk disk total entries guid)
    (htotal : total < 2 ^ 32) (hspaced : Spaced 34 (total - 33) parts)
    (hentries : ∀ {i part}, parts[i]? = some part →
      HasEntry entries i (layoutTypes.getD i zero) part.start part.last)
    (hothers : ∀ i, parts.length * 128 ≤ i → entries i = 0)
    (hthree : parts.length ≤ 3) :
    LayoutValid disk total parts := by
  have hprimary := headerFields_of h.primary htotal (by decide) (by omega) (by decide)
  have hbackup := headerFields_of h.backup htotal (by omega) (by decide) (by omega)
  have hsize : 512 ≤ entryArraySize := by decide
  have htable : ∀ {i part}, parts[i]? = some part →
      HasEntry (layoutTable entries) i (layoutTypes.getD i zero) part.start part.last := by
    intro i part hpart
    have hi := (List.getElem?_eq_some_iff.mp hpart).1
    exact (hentries hpart).congr fun k hk => if_pos (by omega)
  have hread : ∀ {i part}, parts[i]? = some part →
      HasEntry (bytesAt disk 2) i (layoutTypes.getD i zero) part.start part.last := by
    intro i part hpart
    have hi := (List.getElem?_eq_some_iff.mp hpart).1
    exact (htable hpart).congr fun k hk => bytesAt_layout h.first (by omega)
  refine ⟨?_, ⟨hprimary.array, hbackup.array⟩, ?_, ?_, ?_, ?_, hspaced⟩
  · refine @gptValid_of disk (layoutTable entries) total parts (hprimary.headerAt ?_ h.first)
      (hbackup.headerAt ?_ h.second) (fun i hi => ?_) (fun i hi => ?_) hprimary.usable
      (by omega) hspaced (fun i hi => ?_) (by omega)
    · rw [h.primary]
      exact headerCrc_buildGptHeader
    · rw [h.backup]
      exact headerCrc_buildGptHeader
    · rw [hprimary.array]
      exact bytesAt_layout h.first hi
    · rw [hbackup.array]
      exact bytesAt_layout h.second hi
    · have hentry := htable (getElem?_eq_getElem hi)
      exact ⟨hentry.first, hentry.last⟩
  · intro lba hlba
    rcases mem_cons.mp hlba with rfl | hlba
    · exact hprimary.usable
    · rw [mem_singleton.mp hlba]
      exact hbackup.usable
  · exact fun i hi => (hread (getElem?_eq_getElem hi)).first
  · exact fun i hi k hk => (hread (getElem?_eq_getElem hi)).type k hk
  · intro i hi hbehind
    rw [bytesAt_layout h.first hi, layoutTable, hothers i hbehind, ite_self]

theorem length_layoutParts : (layoutParts total esp swap).length ≤ 3 := by
  unfold layoutParts
  split
  · exact Nat.le_refl 3
  · exact Nat.le_succ 2

/-- What `write_gpt_layout` leaves, for a swap partition that fits. -/
theorem writeGptLayout_onDisk (htotal : total < 2 ^ 32) (hsmall : esp < 2 ^ 31)
    (hrun : writeGptLayout total esp swap serial d = (d', some ())) :
    2048 + esp + 32 + 65535 < total ∧ ∃ guid,
      LayoutOnDisk d'.sectors total (layoutEntries total (2048 + esp) swap serial) guid := by
  unfold writeGptLayout at hrun
  simp only [lba32_dataStart hsmall] at hrun
  split at hrun
  · cases hrun
  · rename_i hlarge
    have hroom := room_of_not_tooSmall (by omega) hlarge
    exact ⟨hroom, _, layoutWrites_onDisk (by omega) htotal hrun⟩

theorem LayoutOnDisk.layoutValid
    (h : LayoutOnDisk disk total (layoutEntries total (2048 + esp) swap serial) guid)
    (hesp : 0 < esp) (hsmall : esp < 2 ^ 31) (hfits : Fits total (2048 + esp) swap)
    (htotal : total < 2 ^ 32) (hroom : 2048 + esp + 32 + 65535 < total) :
    LayoutValid disk total (layoutParts total esp swap) :=
  h.valid htotal (spaced_layoutParts hesp hsmall hfits htotal hroom)
    (hasEntry_layoutEntries hsmall hfits htotal hroom) layoutEntries_apply_of_ge length_layoutParts

end Disk

/-! ## Success -/

section Success

variable {α β : Type} {p : Proc Device α} {f : α → Proc Device β} {entries guid : Buffer}
  {backup total esp : Nat} {d : Device}

/-- The program succeeds if all transfers do. -/
def Succeeds (p : Proc Device α) : Prop :=
  ∀ d, (∀ n, d.ioOk n = true) → ∃ d' a, p d = (d', some a) ∧ ∀ n, d'.ioOk n = true

theorem Succeeds.bind (hp : Succeeds p) (hf : ∀ a, Succeeds (f a)) : Succeeds (p >>= f) := by
  intro d hd
  obtain ⟨d₁, a, hfirst, hd₁⟩ := hp d hd
  obtain ⟨d₂, b, hsecond, hd₂⟩ := hf a d₁ hd₁
  refine ⟨d₂, b, ?_, hd₂⟩
  show Proc.bind p f d = (d₂, some b)
  rw [Proc.bind, hfirst]
  exact hsecond

theorem succeeds_blockDeviceWriteSectors (lba count : Nat) (data : Buffer) :
    Succeeds (blockDeviceWriteSectors lba data count) := by
  intro d hd
  rw [blockDeviceWriteSectors, if_pos (hd _)]
  exact ⟨_, (), rfl, hd⟩

theorem succeeds_writeEntries (n s : Nat) : Succeeds (writeEntries entries backup n s) := by
  induction n generalizing s with
  | zero => exact fun d hd => ⟨d, (), rfl, hd⟩
  | succ n ih =>
    exact Succeeds.bind (succeeds_blockDeviceWriteSectors _ _ _) fun _ =>
      Succeeds.bind (succeeds_blockDeviceWriteSectors _ _ _) fun _ => ih (s + 1)

/-- If no transfer fails, the layout is written on every disk that is large enough. -/
theorem writeGptLayout_succeeds (swap : Part) (serial : List Byte) (hd : ∀ n, d.ioOk n = true)
    (hlarge : ¬TooSmall total (lba32 (installEspStartLba + esp))) :
    ∃ d', writeGptLayout total esp swap serial d = (d', some ()) := by
  have hwrites : Succeeds (layoutWrites total (layoutEntries total (lba32 (installEspStartLba +
      esp)) swap serial) (generateGuid serial (0x47505444#32 ^^^ BitVec.ofNat 32 total))) :=
    Succeeds.bind (succeeds_blockDeviceWriteSectors _ _ _) fun _ =>
    Succeeds.bind (succeeds_writeEntries _ _) fun _ =>
    Succeeds.bind (succeeds_blockDeviceWriteSectors _ _ _) fun _ =>
      succeeds_blockDeviceWriteSectors _ _ _
  obtain ⟨d', _, hrun, -⟩ := hwrites d hd
  exact ⟨d', (if_neg hlarge).trans hrun⟩

end Success

/-! ## The rest of the installer -/

section Installer

variable {α β : Type} {p : Proc Device α} {f : α → Proc Device β} {x lba count total esp size : Nat}
  {data image : Buffer} {d d' : Device} {swap : Part} {serial : List Byte}

/-- The program does not change the sector, whether it succeeds or not. -/
def Spares (p : Proc Device α) (x : Nat) : Prop := ∀ d, (p d).1.sectors x = d.sectors x

theorem Spares.bind (hp : Spares p x) (hf : ∀ a, Spares (f a) x) : Spares (p >>= f) x := by
  intro d
  have hfirst := hp d
  show (Proc.bind p f d).1.sectors x = d.sectors x
  unfold Proc.bind
  rcases hd : p d with ⟨d₁, _ | a⟩
  · rw [hd] at hfirst
    exact hfirst
  · rw [hd] at hfirst
    exact (hf a d₁).trans hfirst

theorem spares_blockDeviceWriteSectors (h : x < lba ∨ lba + count ≤ x) :
    Spares (blockDeviceWriteSectors lba data count) x := by
  intro d
  unfold blockDeviceWriteSectors
  split
  · refine if_neg fun hcovers => ?_
    unfold Write.Covers at hcovers
    dsimp only at hcovers
    omega
  · rfl

theorem spares_writeEspLoop {sectors : Nat} (hx : x < 2048 ∨ 2048 + sectors ≤ x)
    (rounds done : Nat) : Spares (writeEspLoop image sectors rounds done) x := by
  induction rounds generalizing done with
  | zero => exact fun d => rfl
  | succ rounds ih =>
    unfold writeEspLoop
    split
    · exact fun d => rfl
    · exact Spares.bind (spares_blockDeviceWriteSectors (by unfold installEspStartLba; omega))
        fun _ => ih _

theorem spares_installWriteEspImage (hx : x < 2048 ∨ 2048 + size / 512 ≤ x) :
    Spares (installWriteEspImage image size) x :=
  Spares.bind (spares_writeEspLoop hx _ _) fun _ =>
  Spares.bind (fun _ => rfl) fun _ =>
  Spares.bind (fun _ => rfl) fun _ =>
  Spares.bind (fun _ => rfl) fun _ =>
  Spares.bind (fun _ => rfl) fun _ => fun _ => rfl

theorem spares_swapFormat (hx : x < swap.start ∨ swap.start + swap.sectors ≤ x) :
    Spares (swapFormat swap) x := by
  intro d
  unfold swapFormat swapMinPartitionSectors
  split
  · rfl
  · exact spares_blockDeviceWriteSectors (by omega) d

/-- The partitions are filled, and the table is still there. -/
theorem installWrites_valid (hesp : 0 < esp) (hsmall : esp < 2 ^ 31) (hsize : size / 512 ≤ esp)
    (hfits : 2048 + esp + 32 + 65535 < total → Fits total (2048 + esp) swap)
    (htotal : total < 2 ^ 32)
    (hrun : installWrites total esp swap serial image size d = (d', some ())) :
    LayoutValid d'.sectors total (layoutParts total esp swap) := by
  obtain ⟨d₁, _, hlayout, hrest⟩ := Proc.bind_eq_some hrun
  obtain ⟨hroom, guid, honDisk⟩ := writeGptLayout_onDisk htotal hsmall hlayout
  have hfit := hfits hroom
  have hsame : ∀ x, x < 34 ∨ total - 33 ≤ x → d'.sectors x = d₁.sectors x := by
    intro x hx
    have hswap : x < swap.start ∨ swap.start + swap.sectors ≤ x ∨ swap.sectors = 0 := by
      by_cases hnone : swap.sectors = 0
      · exact .inr (.inr hnone)
      · have := hfit hnone
        omega
    have hspares : Spares (swapFormat swap) x := by
      rcases hswap with hlt | hge | hnone
      · exact spares_swapFormat (.inl hlt)
      · exact spares_swapFormat (.inr hge)
      · intro d
        rw [swapFormat, if_pos (.inl hnone)]
    have hflush : Spares blockDeviceFlush x := fun _ => rfl
    have himage : Spares (installWriteEspImage image size) x :=
      spares_installWriteEspImage (by omega)
    have hall := Spares.bind hflush fun _ => Spares.bind hspares fun _ => himage
    exact (congrArg (fun r => r.1.sectors x) hrest).symm.trans (hall d₁)
  exact (honDisk.frame (by omega) hsame).layoutValid hesp hsmall hfit htotal hroom

theorem espSectors_bounds (hlow : blockSectorSize ≤ size) (hhigh : size < 2 ^ 32) :
    0 < espSectors size ∧ espSectors size < 2 ^ 31 ∧ size / 512 ≤ espSectors size := by
  unfold espSectors blockSectorSize installAlign at *
  omega

/-- What has been checked and written when the installer is about to format the system partition. -/
theorem installerInstallDevice_ok {env : InstallSetting}
    {deviceName serialConfirmation : List Byte} {part : Part}
    (hrun : installerInstallDevice env deviceName serialConfirmation d = (d', .ok part)) :
    ∃ info image size swap,
      env.blockDeviceGetInfo (env.blockDeviceFind deviceName).toNat = some info ∧
      info.sectorCount < 2 ^ 32 ∧ env.espImage = some (image, size) ∧
      blockSectorSize ≤ size ∧ size < 2 ^ 32 ∧
      (swap = planSwapPartition info.sectorCount (lba32 (installEspStartLba + espSectors size)) ∨
        swap = noSwap) ∧
      part = dataPart info.sectorCount (lba32 (installEspStartLba + espSectors size)) swap ∧
      installWrites info.sectorCount (espSectors size) swap info.serial image size d =
        (d', some ()) := by
  unfold installerInstallDevice at hrun
  split at hrun
  · cases hrun
  split at hrun
  · cases hrun
  rename_i info hinfo
  split at hrun
  · cases hrun
  split at hrun
  · cases hrun
  split at hrun
  · cases hrun
  rename_i hsector
  split at hrun
  · cases hrun
  rename_i image size himage
  have hcount : info.sectorCount % 2 ^ 32 = info.sectorCount := Nat.mod_eq_of_lt (by omega)
  simp only [hcount] at hrun
  split at hrun
  · cases hrun
  rename_i hsize
  split at hrun
  · cases hrun
  split at hrun
  · cases hrun
  split at hrun
  · rename_i d₁ hwrites
    cases hrun
    refine ⟨info, image, size, _, hinfo, by omega, himage, by omega, by omega, ?_, rfl, hwrites⟩
    split
    · exact .inl rfl
    · exact .inr rfl
  · cases hrun

end Installer

theorem fits_noSwap (total dataStart : Nat) : Fits total dataStart noSwap := fun h => absurd rfl h

/--
The installed layout.  For every disk and every size of the EFI system partition from one sector up
to 2^31, what `plan_swap_partition` and `write_gpt_layout` leave on the disk is a valid layout.  The
same holds of every disk when `installer_install_device` formats the system partition, and the
second entry covers exactly the sectors that it hands to `ext2_format_at`.
-/
theorem install_layout_valid :
    (∀ (total esp : Nat) (serial : List Byte) (d d' : Device),
      total < 2 ^ 32 → 0 < esp → esp < 2 ^ 31 →
      writeGptLayout total esp (planSwapPartition total (2048 + esp)) serial d = (d', some ()) →
      LayoutValid d'.sectors total (layoutParts total esp (planSwapPartition total (2048 + esp)))) ∧
    ∀ (env : InstallSetting) (deviceName serialConfirmation : List Byte) (d d' : Device)
      (part : Part), installerInstallDevice env deviceName serialConfirmation d = (d', .ok part) →
      ∃ info parts, env.blockDeviceGetInfo (env.blockDeviceFind deviceName).toNat = some info ∧
        LayoutValid d'.sectors info.sectorCount parts ∧ parts[1]? = some part ∧
        firstLba (bytesAt d'.sectors 2) 1 = part.start ∧
        lastLba (bytesAt d'.sectors 2) 1 + 1 = part.start + part.sectors := by
  constructor
  · intro total esp serial d d' htotal hesp hsmall hrun
    obtain ⟨hroom, guid, honDisk⟩ := writeGptLayout_onDisk htotal hsmall hrun
    exact honDisk.layoutValid hesp hsmall (fits_planSwapPartition htotal hroom) htotal hroom
  intro env deviceName serialConfirmation d d' part hrun
  obtain ⟨info, image, size, swap, hinfo, hcount, -, hlow, hhigh, hswap, hpart, hwrites⟩ :=
    installerInstallDevice_ok hrun
  obtain ⟨hesp, hsmall, hfill⟩ := espSectors_bounds hlow hhigh
  rw [lba32_dataStart hsmall] at hswap
  have hvalid : LayoutValid d'.sectors info.sectorCount
      (layoutParts info.sectorCount (espSectors size) swap) := by
    refine installWrites_valid hesp hsmall hfill (fun hroom => ?_) hcount hwrites
    rcases hswap with rfl | rfl
    · exact fits_planSwapPartition hcount hroom
    · exact fits_noSwap _ _
  have hsecond : (layoutParts info.sectorCount (espSectors size) swap)[1]? = some part := by
    rw [hpart]
    rfl
  obtain ⟨hone, hget⟩ := List.getElem?_eq_some_iff.mp hsecond
  have hstart := hvalid.starts 1 hone
  have hsize := hvalid.gpt.sizes 1 (by rwa [length_map])
  rw [hvalid.arrays.1, getElem_map, hstart, hget] at hsize
  exact ⟨info, _, hinfo, hvalid, hsecond, hstart.trans (congrArg Part.start hget), hsize⟩

/-- A disk of 2 GiB with an EFI system partition of 1 MiB. -/
theorem install_layout_valid_smallDisk :
    ∃ d', writeGptLayout 4194304 2048 (planSwapPartition 4194304 (2048 + 2048)) [] blankDevice =
        (d', some ()) ∧
      LayoutValid d'.sectors 4194304
        (layoutParts 4194304 2048 (planSwapPartition 4194304 (2048 + 2048))) := by
  obtain ⟨d', hrun⟩ := writeGptLayout_succeeds (planSwapPartition 4194304 (2048 + 2048)) []
    (show ∀ n, blankDevice.ioOk n = true from fun _ => rfl)
    (show ¬TooSmall 4194304 (lba32 (installEspStartLba + 2048)) by decide)
  exact ⟨d', hrun, install_layout_valid.1 4194304 2048 [] blankDevice d' (by decide) (by decide)
    (by decide) hrun⟩

/-- With no sector for the EFI system partition, its entry has the sectors from 2048 to 2047. -/
theorem install_layout_empty :
    ∃ d', writeGptLayout 4194304 0 (planSwapPartition 4194304 2048) [] blankDevice = (d', some ()) ∧
      firstLba (bytesAt d'.sectors 2) 0 = 2048 ∧ lastLba (bytesAt d'.sectors 2) 0 = 2047 := by
  obtain ⟨d', hrun⟩ :=
    writeGptLayout_succeeds (planSwapPartition 4194304 2048) [] (show ∀ n, blankDevice.ioOk n =
      true from fun _ => rfl) (show ¬TooSmall 4194304 (lba32 (installEspStartLba + 0)) by decide)
  obtain ⟨hroom, guid, honDisk⟩ := writeGptLayout_onDisk (by decide) (by decide) hrun
  have hentry := @hasEntry_layoutEntries 4194304 0 (planSwapPartition 4194304 2048) [] (by decide)
    (fits_planSwapPartition (by decide) hroom) (by decide) hroom 0 ⟨2048, 0⟩ rfl
  have hread : HasEntry (bytesAt d'.sectors 2) 0 _ 2048 _ :=
    hentry.congr fun k hk => by
      rw [Nat.zero_mul, Nat.zero_add, bytesAt_layout honDisk.first (Nat.lt_trans hk (by decide))]
      exact if_pos (by omega)
  exact ⟨d', hrun, hread.first, hread.last⟩

end PureCOS.Install
