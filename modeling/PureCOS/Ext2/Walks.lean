import PureCOS.Ext2.Directory

/-!
# The directory walks end and stay inside their blocks

For any contents of the disk: how many rounds the five walks over a directory need, and
that what they do depends on no byte behind the end of a block.

Looking up and listing count offsets in 32 bits.  They end if no round they reach goes on
to `2 ^ 32`, where the offset wraps to zero.  Adding an entry trusts the records it reaches:
that their lengths stand in the block, and that the last one has room for its name.  The two
walks of `meta.c` check every record and need nothing.
-/

namespace PureCOS.Ext2

open Buffer While

variable {v : Volume} {d d' : Disk} {dib blk blk' : Buffer} {name : List Byte}

/-! ## Number of rounds -/

section Rounds

variable {offset : Nat}

/-- What the checks say about a record that is used. -/
structure UsedRecord (v : Volume) (d : Disk) (dib blk : Buffer) (offset : Nat) : Prop where
  before_end : offset < dib.readU32 4
  len_pos : 0 < recLen blk (offset % v.blockSize)
  inside : offset % v.blockSize + recLen blk (offset % v.blockSize) ≤ v.blockSize
  name_inside : offset % v.blockSize + 8 + recNameLen blk (offset % v.blockSize) ≤ v.blockSize

theorem visitAt_record (h : visitAt v d dib offset = .record blk) :
    UsedRecord v d dib blk offset := by
  unfold visitAt at h
  dsimp only at h
  split at h
  · cases h
  split at h
  · cases h
  split at h
  · cases h
  split at h
  · cases h
  split at h
  · cases h
  obtain rfl := Visit.record.inj h
  exact
    { before_end := by omega
      len_pos := by omega
      inside := by omega
      name_inside := by omega }

theorem visitAt_boundary (h : visitAt v d dib offset = .boundary) : offset < dib.readU32 4 := by
  unfold visitAt at h
  split at h
  · cases h
  · omega

/-- Where a walk by offsets goes on from an offset, before the sum is cut to 32 bits. -/
def advance (v : Volume) (d : Disk) (dib : Buffer) (offset : Nat) : Nat :=
  match visitAt v d dib offset with
  | .boundary => (offset / v.blockSize + 1) * v.blockSize
  | .record blk => offset + recLen blk (offset % v.blockSize)
  | _ => offset

/-- What a round that goes on from one offset to another does. -/
structure Advances (v : Volume) (d : Disk) (dib : Buffer) (offset next : Nat) : Prop where
  before_end : offset < dib.readU32 4
  lt : offset < advance v d dib offset
  le : advance v d dib offset ≤ (offset / v.blockSize + 1) * v.blockSize
  next : next = u32 (advance v d dib offset)

/-- Going on to the next block. -/
theorem advances_boundary (hv : 0 < v.blockSize) (h : visitAt v d dib offset = .boundary) :
    Advances v d dib offset (nextBlock v offset) := by
  have hadvance : advance v d dib offset = (offset / v.blockSize + 1) * v.blockSize := by
    rw [advance, h]
  refine ⟨visitAt_boundary h, ?_, Nat.le_of_eq hadvance, by rw [hadvance, nextBlock]⟩
  rw [hadvance, Nat.mul_comm]
  exact Nat.lt_mul_div_succ offset hv

/-- Going on to the next record. -/
theorem advances_record (h : visitAt v d dib offset = .record blk) :
    Advances v d dib offset (nextRecord v blk offset) := by
  have hused := visitAt_record h
  have hpos := hused.len_pos
  have hin := hused.inside
  have hdiv := Nat.div_add_mod' offset v.blockSize
  have hadvance : advance v d dib offset = offset + recLen blk (offset % v.blockSize) := by
    rw [advance, h]
  refine ⟨hused.before_end, by omega, ?_, by rw [hadvance, nextRecord]⟩
  rw [hadvance, Nat.succ_mul]
  omega

theorem findStep_next (hv : 0 < v.blockSize) {next : Nat}
    (h : findStep v d dib name offset = .next next) : Advances v d dib offset next := by
  unfold findStep at h
  dsimp only at h
  split at h
  · cases h
  · cases h
  · cases h
  next hvisit =>
    obtain rfl := Round.next.inj h
    exact advances_boundary hv hvisit
  · cases h
  next hvisit =>
    split at h
    · cases h
    · obtain rfl := Round.next.inj h
      exact advances_record hvisit

theorem listStep_next (hv : 0 < v.blockSize) {nameCapacity capacity : Nat} {s s' : Nat × List Entry}
    (h : listStep v d dib nameCapacity capacity s = .next s') : Advances v d dib s.1 s'.1 := by
  unfold listStep at h
  split at h
  · cases h
  split at h
  · cases h
  · cases h
  · cases h
  next hvisit =>
    obtain rfl := Round.next.inj h
    exact advances_boundary hv hvisit
  · cases h
  next hvisit =>
  have hrecord := advances_record hvisit
  dsimp only at h
  split at h
  · obtain rfl := Round.next.inj h
    exact hrecord
  · obtain rfl := Round.next.inj h
    exact hrecord

variable {σ α : Type} {step : σ → Round σ α} {s₀ : σ} {offsetOf : σ → Nat}

/-- No round that a walk by offsets reaches goes on to an offset that 32 bits do not hold. -/
def NoWrap (v : Volume) (d : Disk) (dib : Buffer) (step : σ → Round σ α) (s₀ : σ)
    (offsetOf : σ → Nat) : Prop :=
  ∀ s s', Reaches step s₀ s → step s = .next s' → advance v d dib (offsetOf s) < 2 ^ 32

section Steps

variable (hstep : ∀ s s', step s = .next s' → Advances v d dib (offsetOf s) (offsetOf s'))

include hstep

/-- A walk that never wraps needs no more rounds than the directory has bytes, and one. -/
theorem NoWrap.ends (h : NoWrap v d dib step s₀ offsetOf) :
    ∃ r, run step (dib.readU32 4 + 1) s₀ = some r := by
  refine run_of_rank (Reaches step s₀) (fun s => dib.readU32 4 - offsetOf s) ?_ .refl ?_
  · intro s s' hs hnext
    have hadv := hstep s s' hnext
    have hlt := hadv.lt
    have hend := hadv.before_end
    have heq := hadv.next
    rw [u32_of_lt (h s s' hs hnext)] at heq
    exact ⟨hs.tail hnext, by omega⟩
  · omega

/-- A directory that leaves room for one more block lets no walk wrap. -/
theorem noWrap_of_size (hsize : dib.readU32 4 + v.blockSize ≤ 2 ^ 32) :
    NoWrap v d dib step s₀ offsetOf := by
  intro s s' _ hnext
  have hadv := hstep s s' hnext
  have hend := hadv.before_end
  have hle := hadv.le
  have hdiv := Nat.div_mul_le_self (offsetOf s) v.blockSize
  rw [Nat.succ_mul] at hle
  omega

end Steps

/-- The end of the block that holds a 32-bit offset. -/
theorem blockEnd_le (hv : Mounted v) (h : offset < 2 ^ 32) :
    (offset / v.blockSize + 1) * v.blockSize ≤ 2 ^ 32 := by
  rcases hv.blockSize with hb | hb | hb <;> rw [hb] <;> omega

/-- Looking up ends exactly if it never wraps: a sum that wraps is zero, where the walk began. -/
theorem find_ends_iff (hv : Mounted v) :
    (∃ n r, run (findStep v d dib name) n 0 = some r) ↔
      NoWrap v d dib (findStep v d dib name) 0 id := by
  refine ⟨fun ⟨n, r, hrun⟩ s s' hs hnext => ?_,
    fun h => ⟨_, h.ends fun _ _ => findStep_next hv.blockSize_pos⟩⟩
  have hadv := findStep_next hv.blockSize_pos hnext
  by_contra hwrap
  have hend := blockEnd_le hv (Nat.lt_trans hadv.before_end (readU32_lt _ _))
  have hsum : advance v d dib s = 2 ^ 32 := by
    have hle := hadv.le
    simp only [id] at hwrap
    omega
  have hzero : s' = 0 := by
    rw [hadv.next, hsum]
    rfl
  rw [hzero] at hnext
  cases (run_eq_none_of_back hs hnext).symm.trans hrun

end Rounds

section BlockRounds

variable {logical off blocks : Nat}

/-- Rounds left for a walk over `blocks` blocks that is at `off` of block `logical`. -/
def roundsLeft (v : Volume) (blocks logical off : Nat) : Nat :=
  (blocks - logical) * (v.blockSize + 1) - off

/-- A round goes on inside a block, and fewer are left. -/
def Sinks (v : Volume) (blocks logical off logical' off' : Nat) : Prop :=
  off' ≤ v.blockSize ∧ roundsLeft v blocks logical' off' < roundsLeft v blocks logical off

theorem sinks_nextBlock (hlogical : logical < blocks) (hoff : off ≤ v.blockSize) :
    Sinks v blocks logical off (logical + 1) 0 := by
  obtain ⟨k, rfl⟩ := Nat.exists_eq_add_of_lt hlogical
  have hk : logical + k + 1 - logical = k + 1 := by omega
  have hk' : logical + k + 1 - (logical + 1) = k := by omega
  refine ⟨Nat.zero_le _, ?_⟩
  rw [roundsLeft, roundsLeft, hk, hk', Nat.succ_mul]
  omega

theorem sinks_nextRecord {len : Nat} (hlogical : logical < blocks) (hlen : 0 < len)
    (hoff : off + len ≤ v.blockSize) : Sinks v blocks logical off logical (off + len) := by
  obtain ⟨k, rfl⟩ := Nat.exists_eq_add_of_lt hlogical
  have hk : logical + k + 1 - logical = k + 1 := by omega
  refine ⟨hoff, ?_⟩
  rw [roundsLeft, roundsLeft, hk, Nat.succ_mul]
  omega

theorem addStep_next {ino : Nat} {type : Byte} {s s' : Nat × Nat} (hs : s.2 ≤ v.blockSize)
    (h : addStep v d dib name ino type s = .next s') :
    Sinks v (max (dirBlocks v (dib.readU32 4)) 1) s.1 s.2 s'.1 s'.2 := by
  unfold addStep at h
  dsimp only at h
  split at h
  · cases h
  next hlogical =>
  have hnext := sinks_nextBlock (Nat.lt_of_not_le hlogical) hs
  split at h
  · obtain rfl := Round.next.inj h
    exact hnext
  split at h
  · cases h
  split at h
  · obtain rfl := Round.next.inj h
    exact hnext
  split at h
  · cases h
  next hlen =>
  split at h
  · cases h
  · obtain rfl := Round.next.inj h
    exact sinks_nextRecord (Nat.lt_of_not_le hlogical) (by omega) (by omega)

theorem metaStep_next {α : Type} {visit : Nat → Buffer → Cursor → Option α} {s s' : Cursor}
    (hs : s.off ≤ v.blockSize) (h : metaStep v d dib visit s = .next s') :
    Sinks v (dirBlocks v (dib.readU32 4)) s.logical s.off s'.logical s'.off := by
  unfold metaStep at h
  dsimp only at h
  split at h
  · cases h
  next hlogical =>
  have hnext := sinks_nextBlock (Nat.lt_of_not_le hlogical) hs
  split at h
  · obtain rfl := Round.next.inj h
    exact hnext
  split at h
  · cases h
  split at h
  · obtain rfl := Round.next.inj h
    exact hnext
  split at h
  · cases h
  next hsane =>
  rw [Bool.not_eq_false, recordSane, Bool.and_eq_true, Bool.and_eq_true, decide_eq_true_eq,
    decide_eq_true_eq] at hsane
  obtain ⟨⟨hlen, hin⟩, -⟩ := hsane
  split at h
  · cases h
  · obtain rfl := Round.next.inj h
    exact sinks_nextRecord (Nat.lt_of_not_le hlogical) (by omega) (by omega)

/-- Rounds that are enough for a directory of a size. -/
def roundBound (v : Volume) (size : Nat) : Nat :=
  (size / v.blockSize + 1) * (v.blockSize + 1) + 1

theorem dirBlocks_le (hv : 0 < v.blockSize) (size : Nat) :
    max (dirBlocks v size) 1 ≤ size / v.blockSize + 1 := by
  have hmod : u32 (size + v.blockSize - 1) ≤ size + v.blockSize - 1 := Nat.mod_le _ _
  have hdiv := Nat.div_le_div_right (c := v.blockSize) hmod
  have hle : (size + v.blockSize - 1) / v.blockSize ≤ size / v.blockSize + 1 := by
    rw [← Nat.add_div_right _ hv]
    exact Nat.div_le_div_right (by omega)
  exact Nat.max_le.mpr ⟨Nat.le_trans hdiv hle, Nat.succ_le_succ (Nat.zero_le _)⟩

theorem roundsLeft_lt_roundBound {size : Nat} (h : blocks ≤ size / v.blockSize + 1) :
    roundsLeft v blocks 0 0 < roundBound v size := by
  have hmul := Nat.mul_le_mul_right (v.blockSize + 1) h
  simp only [roundsLeft, roundBound, Nat.sub_zero]
  omega

theorem add_ends (hv : 0 < v.blockSize) (ino : Nat) (type : Byte) :
    ∃ r, run (addStep v d dib name ino type) (roundBound v (dib.readU32 4)) (0, 0) =
      some r := by
  refine run_of_rank (fun s => s.2 ≤ v.blockSize)
    (fun s => roundsLeft v (max (dirBlocks v (dib.readU32 4)) 1) s.1 s.2) ?_ (Nat.zero_le _)
    (roundsLeft_lt_roundBound (dirBlocks_le hv _))
  exact fun s s' hs h => addStep_next hs h

theorem meta_ends (hv : 0 < v.blockSize) {α : Type} (visit : Nat → Buffer → Cursor → Option α) :
    ∃ r, run (metaStep v d dib visit) (roundBound v (dib.readU32 4))
      ⟨0, 0, none⟩ = some r := by
  have hle := dirBlocks_le hv (dib.readU32 4)
  refine run_of_rank (fun s => s.off ≤ v.blockSize)
    (fun s => roundsLeft v (dirBlocks v (dib.readU32 4)) s.logical s.off) ?_ (Nat.zero_le _)
    (roundsLeft_lt_roundBound (by omega))
  exact fun s s' hs h => metaStep_next hs h

end BlockRounds

/-! ## No byte behind a block is used -/

/-- The disks hold the same blocks; the memory behind a block that was read may differ. -/
def SameBlocks (v : Volume) (d d' : Disk) : Prop := ∀ b, ∀ i < v.blockSize, d' b i = d b i

section Same

variable (hsame : SameBlocks v d d')

include hsame

theorem tableEntry_same {t i : Nat} (hi : i * 4 + 4 ≤ v.blockSize) :
    tableEntry v d' t i = tableEntry v d t i := by
  have hread : (d' t).readU32 (i * 4) = (d t).readU32 (i * 4) :=
    readU32_congr fun k hk => hsame t (i * 4 + k) (by omega)
  rw [tableEntry_eq, tableEntry_eq, hread]

theorem inodeBlockPtr_same (hv : Mounted v) (inode : Buffer) (logical : Nat) :
    inodeBlockPtr v d' inode logical = inodeBlockPtr v d inode logical := by
  have hper := perTable_pos hv
  have hsq : 0 < perTable v * perTable v := Nat.mul_pos hper hper
  have hentry : ∀ {t i}, i < perTable v → tableEntry v d' t i = tableEntry v d t i := by
    intro t i hi
    refine tableEntry_same hsame ?_
    unfold perTable at hi
    omega
  unfold inodeBlockPtr
  dsimp only
  split
  · rfl
  split
  · exact hentry (by omega)
  split
  · have hdiv : (logical - (12 + perTable v)) / perTable v < perTable v :=
      Nat.div_lt_of_lt_mul (by omega)
    rw [hentry (Nat.mod_lt _ hper), hentry hdiv]
  split
  · have hdiv : (logical - (12 + perTable v + perTable v * perTable v)) /
        (perTable v * perTable v) < perTable v := Nat.div_lt_of_lt_mul (by omega)
    have hmid := Nat.div_lt_of_lt_mul
      (Nat.mod_lt (logical - (12 + perTable v + perTable v * perTable v)) hsq)
    rw [hentry (Nat.mod_lt _ hper), hentry hmid, hentry hdiv]
  · rfl

/-- Reading a block from either disk. -/
theorem readBlock_same {b : Nat} (h : readBlock v d b = some blk) :
    ∃ blk', readBlock v d' b = some blk' ∧ ∀ i < v.blockSize, blk' i = blk i := by
  obtain ⟨hvalid, rfl⟩ := readBlock_eq_some.mp h
  exact ⟨d' b, readBlock_eq_some.mpr ⟨hvalid, rfl⟩, fun i hi => hsame b i hi⟩

omit hsame in
theorem readBlock_eq_none {b : Nat} : readBlock v d b = none ↔ blockNumberValid v b = false := by
  unfold readBlock
  split
  next h => simp [h]
  next h => simpa using h

theorem inodeRead_same (hv : Usable v) (ino : Nat) : inodeRead v d' ino = inodeRead v d ino := by
  unfold inodeRead
  split
  · rfl
  cases hdesc : readBlock v d (descBlock v (inodeGroup v ino)) with
  | none =>
    have hdesc' : readBlock v d' (descBlock v (inodeGroup v ino)) = none :=
      readBlock_eq_none.mpr (readBlock_eq_none.mp hdesc)
    rw [groupDescRead, groupDescRead, hdesc, hdesc']
    rfl
  | some blk =>
    obtain ⟨blk', hdesc', hblk⟩ := readBlock_same hsame hdesc
    have htable : readU32 (fun i => blk' (descOffset v (inodeGroup v ino) + i)) 8 =
        readU32 (fun i => blk (descOffset v (inodeGroup v ino) + i)) 8 :=
      readU32_congr fun k hk => by
        have := descOffset_add_le hv.toMounted (inodeGroup v ino)
        exact hblk _ (by omega)
    rw [groupDescRead, groupDescRead, hdesc, hdesc']
    dsimp only [Option.map_some]
    rw [htable]
    cases hrec : readBlock v d (inodeBlock v
        (readU32 (fun i => blk (descOffset v (inodeGroup v ino) + i)) 8) ino) with
    | none => rw [readBlock_eq_none.mpr (readBlock_eq_none.mp hrec)]
    | some rec =>
      obtain ⟨rec', hrec', hagree⟩ := readBlock_same hsame hrec
      rw [hrec', Option.map_some, Option.map_some, Option.some.injEq]
      funext i
      unfold inodeRecord clip
      split
      next hi => exact hagree _ (inodeOffset_lt hv hi)
      · rfl

end Same

section SameRecords

variable {off : Nat} (hagree : ∀ i < v.blockSize, blk' i = blk i)

include hagree

theorem recIno_same (h : off + 4 ≤ v.blockSize) : recIno blk' off = recIno blk off :=
  readU32_congr fun _ _ => hagree _ (by omega)

theorem recLen_same (h : off + 6 ≤ v.blockSize) : recLen blk' off = recLen blk off :=
  readU16_congr fun _ _ => hagree _ (by omega)

theorem recNameLen_same (h : off + 7 ≤ v.blockSize) : recNameLen blk' off = recNameLen blk off := by
  rw [recNameLen, recNameLen, hagree _ (by omega)]

theorem recName_same (h : off + 8 + recNameLen blk off ≤ v.blockSize) :
    recName blk' off = recName blk off := by
  rw [recName, recName, recNameLen_same hagree (by omega)]
  refine List.map_congr_left fun i hi => hagree _ ?_
  have := List.mem_range.mp hi
  omega

theorem recLive_same (h : off + 4 ≤ v.blockSize) : recLive v blk' off ↔ recLive v blk off := by
  rw [recLive, recLive, recIno_same hagree h]

theorem listed_same (nameCapacity : Nat) (h : off + 8 + recNameLen blk off ≤ v.blockSize) :
    listed v nameCapacity blk' off = listed v nameCapacity blk off := by
  simp only [listed, isDot, recLive_same hagree (show off + 4 ≤ _ by omega),
    recNameLen_same hagree (show off + 7 ≤ _ by omega), recName_same hagree h]

end SameRecords

section SameSteps

variable (hv : Usable v) (hsame : SameBlocks v d d')

include hv hsame

/-- The two disks show a walk the same thing at an offset. -/
theorem visitAt_same (dib : Buffer) (offset : Nat) :
    (∃ blk blk', visitAt v d dib offset = .record blk ∧ visitAt v d' dib offset = .record blk' ∧
      ∀ i < v.blockSize, blk' i = blk i) ∨
      (visitAt v d' dib offset = visitAt v d dib offset ∧
        ∀ blk, visitAt v d dib offset ≠ .record blk) := by
  unfold visitAt
  dsimp only
  rw [inodeBlockPtr_same hsame hv.toMounted]
  split
  · exact .inr ⟨rfl, nofun⟩
  split
  · exact .inr ⟨rfl, nofun⟩
  cases hread : readBlock v d (inodeBlockPtr v d dib (offset / v.blockSize)) with
  | none =>
    rw [readBlock_eq_none.mpr (readBlock_eq_none.mp hread)]
    exact .inr ⟨rfl, nofun⟩
  | some blk =>
    obtain ⟨blk', hread', hagree⟩ := readBlock_same hsame hread
    rw [hread']
    dsimp only
    split
    · exact .inr ⟨rfl, nofun⟩
    rw [recLen_same hagree (by omega), recNameLen_same hagree (by omega)]
    split
    · exact .inr ⟨rfl, nofun⟩
    · exact .inl ⟨blk, blk', rfl, rfl, hagree⟩

theorem findStep_same (dib : Buffer) (name : List Byte) :
    findStep v d' dib name = findStep v d dib name := by
  funext offset
  unfold findStep
  rcases visitAt_same hv hsame dib offset with ⟨blk, blk', h, h', hagree⟩ | ⟨h, -⟩
  · have hused := visitAt_record h
    have hin := hused.name_inside
    simp only [h, h', nextRecord, recLive_same hagree (show offset % v.blockSize + 4 ≤ _ by omega),
      recIno_same hagree (show offset % v.blockSize + 4 ≤ _ by omega),
      recLen_same hagree (show offset % v.blockSize + 6 ≤ _ by omega), recName_same hagree hin,
      hagree (offset % v.blockSize + 7) (by omega)]
  · rw [h]

theorem listStep_same (dib : Buffer) (nameCapacity capacity : Nat) :
    listStep v d' dib nameCapacity capacity = listStep v d dib nameCapacity capacity := by
  funext s
  unfold listStep
  rcases visitAt_same hv hsame dib s.1 with ⟨blk, blk', h, h', hagree⟩ | ⟨h, hnot⟩
  · have hused := visitAt_record h
    have hin := hused.name_inside
    simp only [h, h', nextRecord, listed_same hagree nameCapacity hin, entryOf,
      inodeRead_same hsame hv, recIno_same hagree (show s.1 % v.blockSize + 4 ≤ _ by omega),
      recLen_same hagree (show s.1 % v.blockSize + 6 ≤ _ by omega), recName_same hagree hin]
  rw [h]
  split
  · rfl
  cases hvisit : visitAt v d dib s.1 with
  | record blk => exact absurd hvisit (hnot blk)
  | past => rfl
  | hole => rfl
  | unreadable => rfl
  | boundary => rfl
  | corrupt => rfl

end SameSteps

section SameWrites

/--
Two versions of a block to be written: they agree in the block, and neither changed a
byte behind it.
-/
structure SameWrite (v : Volume) (d d' : Disk) (block : Nat) (data data' : Buffer) : Prop where
  inside : ∀ i < v.blockSize, data' i = data i
  behind : ∀ i, v.blockSize ≤ i → data i = d block i
  behind' : ∀ i, v.blockSize ≤ i → data' i = d' block i

/-- The same outcome of a walk, up to a relation on what was found. -/
inductive SameOutcome {α : Type} (R : α → α → Prop) :
    Except Int (Option α) → Except Int (Option α) → Prop
  | error (status : Int) : SameOutcome R (.error status) (.error status)
  | nothing : SameOutcome R (.ok none) (.ok none)
  | found {a a' : α} : R a a' → SameOutcome R (.ok (some a)) (.ok (some a'))

/-- The same place for a new record. -/
def SamePlacement (v : Volume) (d d' : Disk) (p p' : Placement) : Prop :=
  p'.block = p.block ∧ p'.size = p.size ∧ SameWrite v d d' p.block p.data p'.data

/-- The same block without its record. -/
def SameRemoval (v : Volume) (d d' : Disk) (r r' : Nat × Buffer) : Prop :=
  r'.1 = r.1 ∧ SameWrite v d d' r.1 r.2 r'.2

variable {off : Nat}

theorem splice_same {n : Nat} {source : Buffer} (hagree : ∀ i < v.blockSize, blk' i = blk i) :
    ∀ i < v.blockSize, blk'.splice off n source i = blk.splice off n source i := by
  intro i hi
  unfold splice
  split
  · rfl
  · exact hagree i hi

theorem putRecord_same {ino len : Nat} {type : Byte} (hagree : ∀ i < v.blockSize, blk' i = blk i) :
    ∀ i < v.blockSize, putRecord blk' off name ino len type i =
      putRecord blk off name ino len type i :=
  splice_same (splice_same (splice_same (splice_same (splice_same hagree))))

/-- A record changes nothing behind its end. -/
theorem putRecord_behind {ino len i : Nat} {type : Byte} (hlen : 8 + name.length ≤ len)
    (hi : off + len ≤ i) : putRecord blk off name ino len type i = blk i := by
  unfold putRecord writeU16 writeU32
  rw [splice_of_outside (by omega), splice_of_outside (by omega), splice_of_outside (by omega),
    splice_of_outside (by omega), splice_of_outside (by omega)]

theorem recNeeded_ge (n : Nat) : 8 + n ≤ recNeeded n := by
  unfold recNeeded
  omega

/--
A record that adding an entry may trust: its length stands in the block, and if it is in use
and lies in the block, so does the length of its name, for which the last record has room.
-/
structure TrustedRecord (v : Volume) (size logical : Nat) (blk : Buffer) (off : Nat) : Prop where
  header : off + 6 ≤ v.blockSize
  name : 0 < recLen blk off → off + recLen blk off ≤ v.blockSize → recIno blk off ≠ 0 →
    off + 7 ≤ v.blockSize ∧
      (size ≤ u32 (u32 (logical * v.blockSize + off) + recLen blk off) →
        recNeeded (recNameLen blk off) ≤ recLen blk off)

/-- At a record that can be trusted, the new record is placed inside the block. -/
theorem placeAt_same (size logical : Nat) {block : Nat} (name : List Byte) (ino : Nat) (type : Byte)
    (hagree : ∀ i < v.blockSize, d' block i = d block i)
    (hrec : TrustedRecord v size logical (d block) off)
    (hpos : 0 < recLen (d block) off)
    (hinside : off + recLen (d block) off ≤ v.blockSize) :
    Option.Rel (SamePlacement v d d') (placeAt v size logical block (d block) off name ino type)
      (placeAt v size logical block (d' block) off name ino type) := by
  have hheader := hrec.header
  have hneed := recNeeded_ge name.length
  unfold placeAt
  dsimp only
  rw [recIno_same hagree (by omega), recLen_same hagree (by omega)]
  split
  · split
    · refine .some ⟨rfl, rfl, putRecord_same hagree, fun i hi => ?_, fun i hi => ?_⟩
      · exact putRecord_behind (by omega) (by omega)
      · exact putRecord_behind (by omega) (by omega)
    · exact .none
  next hlive =>
  obtain ⟨hbyte, hroom⟩ := hrec.name hpos hinside hlive
  rw [recNameLen_same hagree hbyte]
  split
  next hlast =>
    have hname := hroom hlast.1
    have hlen : recLen (d block) off < 2 ^ 32 :=
      Nat.lt_trans (readU16_lt _ _) (by decide)
    have hremain : u32 (recLen (d block) off + 2 ^ 32 - recNeeded (recNameLen (d block) off)) =
        recLen (d block) off - recNeeded (recNameLen (d block) off) := by
      unfold u32
      omega
    rw [hremain] at hlast ⊢
    have hback : ∀ (blk : Buffer), ∀ i, v.blockSize ≤ i →
        putRecord (blk.writeU16 (off + 4) (recNeeded (recNameLen (d block) off)))
          (off + recNeeded (recNameLen (d block) off)) name ino
          (recLen (d block) off - recNeeded (recNameLen (d block) off)) type i = blk i := by
      intro blk i hi
      rw [putRecord_behind (by omega) (by omega)]
      exact splice_of_outside (by omega)
    exact .some ⟨rfl, rfl, putRecord_same (splice_same hagree), hback (d block), hback (d' block)⟩
  · exact .none

end SameWrites

section SameBlockWalks

variable (hv : Usable v) (hsame : SameBlocks v d d')

/-- Every record that the walk which adds an entry reaches can be trusted. -/
def AddTrusted (v : Volume) (d : Disk) (dib : Buffer) (name : List Byte) (ino : Nat) (type : Byte) :
    Prop :=
  ∀ s, Reaches (addStep v d dib name ino type) (0, 0) s →
    s.1 < max (dirBlocks v (dib.readU32 4)) 1 → inodeBlockPtr v d dib s.1 ≠ 0 →
    s.2 < v.blockSize → ∀ blk, readBlock v d (inodeBlockPtr v d dib s.1) = some blk →
    TrustedRecord v (dib.readU32 4) s.1 blk s.2

include hv hsame

theorem addStep_same {ino : Nat} {type : Byte} (htrusted : AddTrusted v d dib name ino type)
    {s : Nat × Nat} (hs : Reaches (addStep v d dib name ino type) (0, 0) s) :
    (addStep v d dib name ino type s).Rel (fun _ => True) (SameOutcome (SamePlacement v d d'))
      (addStep v d' dib name ino type s) := by
  have hrecord := htrusted s hs
  unfold addStep
  dsimp only
  rw [inodeBlockPtr_same hsame hv.toMounted]
  split
  · exact .leave .nothing
  next hlogical =>
  split
  · exact .next trivial
  next hptr =>
  cases hread : readBlock v d (inodeBlockPtr v d dib s.1) with
  | none =>
    rw [readBlock_eq_none.mpr (readBlock_eq_none.mp hread)]
    exact .leave (.error _)
  | some blk =>
    obtain ⟨hvalid, rfl⟩ := readBlock_eq_some.mp hread
    rw [readBlock_eq_some.mpr ⟨hvalid, rfl⟩]
    have hagree := hsame (inodeBlockPtr v d dib s.1)
    dsimp only
    split
    · exact .next trivial
    next hoff =>
    have hrec := hrecord (Nat.lt_of_not_le hlogical) hptr (Nat.lt_of_not_le hoff) _ hread
    rw [recLen_same hagree hrec.header]
    split
    · exact .leave (.error _)
    next hlen =>
    have hplace := placeAt_same (dib.readU32 4) s.1 name ino type hagree hrec (by omega) (by omega)
    generalize placeAt _ _ _ _ _ _ _ _ _ = p at hplace ⊢
    generalize placeAt _ _ _ _ _ _ _ _ _ = p' at hplace ⊢
    cases hplace with
    | none => exact .next trivial
    | some h => exact .leave (.found h)

/-- Adding an entry uses no byte behind a block if it reaches only records it may trust. -/
theorem add_inside {ino : Nat} {type : Byte}
    (htrusted : AddTrusted v d dib name ino type) (n : Nat) :
    Option.Rel (SameOutcome (SamePlacement v d d'))
      (run (addStep v d dib name ino type) n (0, 0))
      (run (addStep v d' dib name ino type) n (0, 0)) := by
  refine run_rel (fun s hs => ?_) (.refl : Reaches (addStep v d dib name ino type) _ _)
  exact (addStep_same hv hsame htrusted hs).of_next fun _ => hs.tail

/-- The record before the one the walk is at lies in the block. -/
def PreviousInside (v : Volume) (s : Cursor) : Prop :=
  ∀ p, s.previous = some p → p + 8 ≤ v.blockSize

theorem metaStep_same {α : Type} {visit : Nat → Buffer → Cursor → Option α} {R : α → α → Prop}
    (hvisit : ∀ block s, PreviousInside v s → s.off + 8 ≤ v.blockSize →
      s.off + 8 + recNameLen (d block) s.off ≤ v.blockSize →
      Option.Rel R (visit block (d block) s) (visit block (d' block) s))
    {s : Cursor} (hs : PreviousInside v s) :
    (metaStep v d dib visit s).Rel (PreviousInside v) (SameOutcome R)
      (metaStep v d' dib visit s) := by
  have hstart : PreviousInside v s.nextBlock := nofun
  unfold metaStep
  dsimp only
  rw [inodeBlockPtr_same hsame hv.toMounted]
  split
  · exact .leave .nothing
  split
  · exact .next hstart
  cases hread : readBlock v d (inodeBlockPtr v d dib s.logical) with
  | none =>
    rw [readBlock_eq_none.mpr (readBlock_eq_none.mp hread)]
    exact .leave (.error _)
  | some blk =>
    obtain ⟨hvalid, rfl⟩ := readBlock_eq_some.mp hread
    rw [readBlock_eq_some.mpr ⟨hvalid, rfl⟩]
    have hagree := hsame (inodeBlockPtr v d dib s.logical)
    dsimp only
    split
    · exact .next hstart
    next hoff =>
    rw [recordSane, recordSane, recLen_same hagree (by omega), recNameLen_same hagree (by omega)]
    split
    · exact .leave (.error _)
    next hsane =>
    rw [Bool.not_eq_false, Bool.and_eq_true, Bool.and_eq_true, decide_eq_true_eq,
      decide_eq_true_eq, decide_eq_true_eq] at hsane
    have hvisit := hvisit (inodeBlockPtr v d dib s.logical) s hs (by omega) (by omega)
    generalize visit _ (d _) s = r at hvisit ⊢
    generalize visit _ (d' _) s = r' at hvisit ⊢
    cases hvisit with
    | none =>
      refine .next fun p hp => ?_
      obtain rfl := Option.some.inj hp
      omega
    | some h => exact .leave (.found h)

omit hv in
theorem removeVisit_same
    (block : Nat) {s : Cursor} (hs : PreviousInside v s) (hoff : s.off + 8 ≤ v.blockSize)
    (hname : s.off + 8 + recNameLen (d block) s.off ≤ v.blockSize) :
    Option.Rel (SameRemoval v d d') (removeVisit name block (d block) s)
      (removeVisit name block (d' block) s) := by
  have hagree := hsame block
  unfold removeVisit
  rw [recIno_same hagree (by omega), recName_same hagree hname]
  split
  · refine .some ⟨rfl, ?_⟩
    unfold unlinkRecord
    split
    next p hp =>
      have hin := hs p hp
      rw [recLen_same hagree (by omega), recLen_same hagree (by omega)]
      exact
        { inside := splice_same hagree
          behind := fun i hi => splice_of_outside (by omega)
          behind' := fun i hi => splice_of_outside (by omega) }
    · have hback : ∀ (blk : Buffer) i, v.blockSize ≤ i →
          (blk.writeU32 s.off 0).splice (s.off + 6) 1 zero i = blk i := by
        intro blk i hi
        rw [splice_of_outside (by omega)]
        exact splice_of_outside (by omega)
      exact
        { inside := splice_same (splice_same hagree)
          behind := hback (d block)
          behind' := hback (d' block) }
  · exact .none

/-- Removing an entry uses no byte behind a block, whatever the blocks hold. -/
theorem remove_inside (n : Nat) :
    Option.Rel (SameOutcome (SameRemoval v d d'))
      (run (metaStep v d dib (removeVisit name)) n ⟨0, 0, none⟩)
      (run (metaStep v d' dib (removeVisit name)) n ⟨0, 0, none⟩) := by
  refine run_rel (I := PreviousInside v) (fun s hs => ?_) nofun
  exact metaStep_same hv hsame
    (fun block s hs hoff hname => removeVisit_same hsame block hs hoff hname) hs

/-- The emptiness test uses no byte behind a block, whatever the blocks hold. -/
theorem empty_inside (n : Nat) :
    Option.Rel (SameOutcome fun _ _ => True)
      (run (metaStep v d dib emptyVisit) n ⟨0, 0, none⟩)
      (run (metaStep v d' dib emptyVisit) n ⟨0, 0, none⟩) := by
  refine run_rel (I := PreviousInside v) (fun s hs => ?_) nofun
  refine metaStep_same hv hsame (fun block s hs hoff hname => ?_) hs
  have hagree := hsame block
  have heq : emptyVisit block (d' block) s = emptyVisit block (d block) s := by
    unfold emptyVisit isDot
    rw [recIno_same hagree (by omega), recName_same hagree hname]
  rw [heq]
  cases emptyVisit block (d block) s with
  | none => exact .none
  | some a => exact .some trivial

end SameBlockWalks

/-! ## The five walks -/

section Walks

variable (v : Volume) (d : Disk) (dib : Buffer) (name : List Byte) (ino : Nat) (type : Byte)
  (nameCapacity capacity : Nat)

/-- Nothing that the walks trust without a check fails in a round they reach. -/
structure WalksTrusted : Prop where
  find : NoWrap v d dib (findStep v d dib name) 0 id
  list : NoWrap v d dib (listStep v d dib nameCapacity capacity) (0, []) Prod.fst
  add : AddTrusted v d dib name ino type

/-- The walks end, after a number of rounds that the size of the directory bounds. -/
structure WalksEnd : Prop where
  find : ∃ r, run (findStep v d dib name) (dib.readU32 4 + 1) 0 = some r
  list : ∃ r, run (listStep v d dib nameCapacity capacity) (dib.readU32 4 + 1) (0, []) =
    some r
  add : ∃ r, run (addStep v d dib name ino type) (roundBound v (dib.readU32 4)) (0, 0) =
    some r
  remove : ∃ r, run (metaStep v d dib (removeVisit name)) (roundBound v (dib.readU32 4))
    ⟨0, 0, none⟩ = some r
  empty : ∃ r, run (metaStep v d dib emptyVisit) (roundBound v (dib.readU32 4))
    ⟨0, 0, none⟩ = some r

/-- The walks take the same course on any disk that holds the same blocks. -/
structure WalksInside : Prop where
  find : ∀ d', SameBlocks v d d' → ∀ n,
    run (findStep v d' dib name) n 0 = run (findStep v d dib name) n 0
  list : ∀ d', SameBlocks v d d' → ∀ n,
    run (listStep v d' dib nameCapacity capacity) n (0, []) =
      run (listStep v d dib nameCapacity capacity) n (0, [])
  add : ∀ d', SameBlocks v d d' → ∀ n, Option.Rel (SameOutcome (SamePlacement v d d'))
    (run (addStep v d dib name ino type) n (0, 0))
    (run (addStep v d' dib name ino type) n (0, 0))
  remove : ∀ d', SameBlocks v d d' → ∀ n, Option.Rel (SameOutcome (SameRemoval v d d'))
    (run (metaStep v d dib (removeVisit name)) n ⟨0, 0, none⟩)
    (run (metaStep v d' dib (removeVisit name)) n ⟨0, 0, none⟩)
  empty : ∀ d', SameBlocks v d d' → ∀ n, Option.Rel (SameOutcome fun _ _ => True)
    (run (metaStep v d dib emptyVisit) n ⟨0, 0, none⟩)
    (run (metaStep v d' dib emptyVisit) n ⟨0, 0, none⟩)

/--
On any disk: looking up ends exactly if no round it reaches goes on to `2 ^ 32`.  If that holds
of looking up and of listing, and adding an entry reaches only records it may trust, then all
walks end and none uses a byte behind a block.
-/
theorem directory_walks_end_inside (hv : Usable v) :
    ((∃ n r, run (findStep v d dib name) n 0 = some r) ↔
      NoWrap v d dib (findStep v d dib name) 0 id) ∧
    (WalksTrusted v d dib name ino type nameCapacity capacity →
      WalksEnd v d dib name ino type nameCapacity capacity ∧
        WalksInside v d dib name ino type nameCapacity capacity) := by
  have hpos := hv.blockSize_pos
  refine ⟨find_ends_iff hv.toMounted, fun htrusted => ⟨?_, ?_⟩⟩
  · exact
      { find := htrusted.find.ends fun _ _ => findStep_next hpos
        list := htrusted.list.ends fun _ _ => listStep_next hpos
        add := add_ends hpos ino type
        remove := meta_ends hpos (removeVisit name)
        empty := meta_ends hpos emptyVisit }
  · exact
      { find := fun d' hsame n => by rw [findStep_same hv hsame]
        list := fun d' hsame n => by rw [listStep_same hv hsame]
        add := fun d' hsame n => add_inside hv hsame htrusted.add n
        remove := fun d' hsame n => remove_inside hv hsame n
        empty := fun d' hsame n => empty_inside hv hsame n }

end Walks

/-! ## Sizes and records that the walks trust -/

/-- A table whose entries all name one block. -/
def constTable (b : Byte) : Buffer := fun i => if i % 4 = 0 then b else 0

theorem readU32_constTable (b : Byte) (i : Nat) : (constTable b).readU32 (i * 4) = b.toNat := by
  have h₀ : i * 4 % 4 = 0 := by omega
  have h₃ : ¬ (i * 4 + 2 + 1) % 4 = 0 := by omega
  simp [readU32, readU16, constTable, h₀, h₃]

/-- A directory inode whose slots all lead to block 7, with a size of `2 ^ 32 - 1`. -/
def loopInode : Buffer :=
  ((zero.writeU16 0 0x4000).writeU32 4 0xFFFFFFFF).splice 40 60
    fun k => if k % 4 = 0 then [7, 7, 7, 7, 7, 7, 7, 7, 7, 7, 7, 7, 8, 9, 10].getD (k / 4) 0 else 0

/-- Blocks 8, 9 and 10 are tables, block 7 is one unused record. -/
def loopDisk : Disk := fun b =>
  if b = 7 then zero.writeU16 4 1024
  else if b = 8 then constTable 7
  else if b = 9 then constTable 8
  else if b = 10 then constTable 9
  else zero

theorem loopDisk_ptr (logical : Nat) (h : logical < 2 ^ 22) :
    inodeBlockPtr smallVolume loopDisk loopInode logical = 7 := by
  have h₈ : ∀ i, tableEntry smallVolume loopDisk 8 i = 7 := fun i => by
    rw [tableEntry_eq, if_pos (by decide)]
    exact readU32_constTable 7 i
  have h₉ : ∀ i, tableEntry smallVolume loopDisk 9 i = 8 := fun i => by
    rw [tableEntry_eq, if_pos (by decide)]
    exact readU32_constTable 8 i
  have h₁₀ : ∀ i, tableEntry smallVolume loopDisk 10 i = 9 := fun i => by
    rw [tableEntry_eq, if_pos (by decide)]
    exact readU32_constTable 9 i
  have hslot : ∀ i < 12, inodeSlot loopInode i = 7 := by decide
  have hper : perTable smallVolume = 256 := rfl
  have htables : inodeSlot loopInode 12 = 8 ∧ inodeSlot loopInode 13 = 9 ∧
      inodeSlot loopInode 14 = 10 := by decide
  obtain ⟨h12, h13, h14⟩ := htables
  unfold inodeBlockPtr
  rw [hper, h12, h13, h14]
  simp only [h₈, h₉, h₁₀]
  split
  next hlt => exact hslot logical hlt
  split
  · rfl
  split
  · rfl
  · rw [if_pos (by omega)]

/-- At the start of every block the walk finds an unused record of a whole block. -/
theorem loopDisk_findStep {offset : Nat} (hlt : offset < 2 ^ 32) (hstart : offset % 1024 = 0) :
    findStep smallVolume loopDisk loopInode name offset = .next (u32 (offset + 1024)) := by
  have hptr := loopDisk_ptr (offset / 1024) (by omega)
  have hread : readBlock smallVolume loopDisk 7 = some (loopDisk 7) := rfl
  have hsize : loopInode.readU32 4 = 0xFFFFFFFF := by decide
  have hvisit : visitAt smallVolume loopDisk loopInode offset = .record (loopDisk 7) := by
    unfold visitAt
    rw [show smallVolume.blockSize = 1024 from rfl, hptr, hsize, hstart, if_neg (by omega),
      if_neg (by decide), hread]
    rfl
  unfold findStep
  rw [hvisit]
  dsimp only
  rw [show smallVolume.blockSize = 1024 from rfl, hstart, if_neg (fun h => h.1.1 rfl)]
  unfold nextRecord
  rw [show smallVolume.blockSize = 1024 from rfl, hstart]
  rfl

/-- A directory of the one block 7. -/
def oneBlockInode : Buffer := (zero.writeU32 4 1024).writeU32 40 7

theorem oneBlockInode_trusted :
    WalksTrusted smallVolume loopDisk oneBlockInode [0x61] 13 1 13 9 where
  find := noWrap_of_size (fun _ _ => findStep_next (by decide)) (by decide)
  list := noWrap_of_size (fun _ _ => listStep_next (by decide)) (by decide)
  add := by
    intro s hs _ _ _ blk hread
    -- the new record takes the place of the first one
    have hleave : addStep smallVolume loopDisk oneBlockInode [0x61] 13 1 (0, 0) =
        .leave (.ok (some ⟨7, putRecord (loopDisk 7) 0 [0x61] 13 1024 1, 1024⟩)) := rfl
    rcases Relation.ReflTransGen.cases_head hs with rfl | ⟨s', hnext, -⟩
    · obtain ⟨-, rfl⟩ := readBlock_eq_some.mp hread
      exact ⟨by decide, fun _ _ hlive => absurd rfl hlive⟩
    · cases hleave.symm.trans hnext

/-- The walks over a directory of one unused record. -/
theorem directory_walks_end_inside_oneBlock :
    Usable smallVolume ∧ WalksTrusted smallVolume loopDisk oneBlockInode [0x61] 13 1 13 9 ∧
      WalksEnd smallVolume loopDisk oneBlockInode [0x61] 13 1 13 9 ∧
      WalksInside smallVolume loopDisk oneBlockInode [0x61] 13 1 13 9 :=
  ⟨smallVolume_usable, oneBlockInode_trusted,
    (directory_walks_end_inside smallVolume loopDisk oneBlockInode [0x61] 13 1 13 9
      smallVolume_usable).2 oneBlockInode_trusted⟩

/-- A block with one record of 1023 bytes; `behind` is the memory that follows it. -/
def shortDisk (behind : Byte) : Disk := fun b =>
  if b = 7 then
    ((zero.writeU32 0 12).writeU16 4 1023).splice 1027 1 (fun _ => behind)
  else
    zero

/--
A directory of size `2 ^ 32 - 1` is walked for ever, and where a record ends one byte
before its block, adding an entry goes by the bytes behind the block.
-/
theorem directory_walks_fail :
    (∀ n, run (findStep smallVolume loopDisk loopInode [0x61]) n 0 = none) ∧
      SameBlocks smallVolume (shortDisk 0) (shortDisk 1) ∧
      run (addStep smallVolume (shortDisk 0)
        oneBlockInode [0x61] 13 1) 9 (0, 0) =
        some (.error (-3)) ∧
      run (addStep smallVolume (shortDisk 1)
        oneBlockInode [0x61] 13 1) 9 (0, 0) =
        some (.ok none) := by
  refine ⟨fun n => ?_, ?_, rfl, rfl⟩
  · refine run_eq_none (fun offset => offset < 2 ^ 32 ∧ offset % 1024 = 0) ?_ (by decide)
    rintro offset ⟨hlt, hstart⟩
    refine ⟨_, loopDisk_findStep hlt hstart, u32_lt _, ?_⟩
    unfold u32
    omega
  intro b i hi
  have hi' : i < 1024 := hi
  unfold shortDisk
  split
  · rw [splice_of_outside (by omega), splice_of_outside (by omega)]
  · rfl

end PureCOS.Ext2
