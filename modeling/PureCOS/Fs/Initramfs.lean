import Mathlib.Data.List.Nodup
import PureCOS.Lib.Bytes

/-!
# The boot archive

`fs/initramfs.c`: `initramfs_mount` walks over a CPIO archive up to its trailer and indexes the
files by length and hash of their names; `initramfs_find` looks a path up in the index.

Places in the archive have 32 bits: the place of the data behind a name that ends in the last three
bytes below 4 GiB wraps to 0.  The index has no names, so two names of the same length and hash are
the same to it.
-/

namespace PureCOS.Initramfs

open List

/-! ## The code -/

def cpioHeaderSize : Nat := 110
def maxFiles : Nat := 512

def align4 (value : Nat) : Nat := u32 (value + 3) / 4 * 4

def pathHash (path : List Byte) : BitVec 64 :=
  path.foldl (fun hash c => (hash ^^^ c.setWidth 64) * 1099511628211#64) 1469598103934665603#64

/-- The value of a hexadecimal digit. -/
def hexDigit (c : Byte) : Option Nat :=
  if 48#8 ≤ c ∧ c ≤ 57#8 then some (c.toNat - 48)
  else if 97#8 ≤ c ∧ c ≤ 102#8 then some (c.toNat - 97 + 10)
  else if 65#8 ≤ c ∧ c ≤ 70#8 then some (c.toNat - 65 + 10)
  else none

/-- `hex8`, the digits that are left. -/
def hexFrom (archive : Buffer) : Nat → Nat → Nat → Option Nat
  | 0, _, result => some result
  | digits + 1, position, result =>
    match hexDigit (archive position) with
    | none => none
    | some digit => hexFrom archive digits (position + 1) (u32 (result * 16) + digit)

variable (archive : Buffer)

def hex8 (offset : Nat) : Option Nat := hexFrom archive 8 offset 0

/-- The bytes of a text. -/
def bytesOf (text : String) : List Byte := text.toList.map fun c => BitVec.ofNat 8 c.toNat

/-- `memcmp` with a text is 0. -/
def holdsText (offset : Nat) (text : List Byte) : Bool :=
  (range text.length).all fun k => archive (offset + k) == text.getD k 0

/-- What `next_entry` gives: the places of name, data and next header. -/
structure Entry where
  nameAt : Nat
  nameSize : Nat
  dataAt : Nat
  size : Nat
  next : Nat

def nextEntry (archiveSize offset : Nat) : Option Entry :=
  if archiveSize < offset ∨ archiveSize - offset < cpioHeaderSize then none
  else if !holdsText archive offset (bytesOf "070701") && !holdsText archive offset
    (bytesOf "070702") then
    none
  else
    match hex8 archive (offset + 54), hex8 archive (offset + 94) with
    | some size, some nameSize =>
      if nameSize = 0 then none
      else
        let nameAt := offset + cpioHeaderSize
        let dataAt := align4 (u32 (nameAt + nameSize))
        let next := align4 (u32 (dataAt + size))
        if archiveSize < nameAt + nameSize ∨ archiveSize < dataAt + size ∨
          archiveSize < next then none
        else some ⟨nameAt, nameSize - 1, dataAt, size, next⟩
    | _, _ => none

/-- The name of an entry. -/
def nameOf (e : Entry) : List Byte :=
  (range e.nameSize).map fun k => archive (e.nameAt + k)

/-- The entry is the trailer. -/
def isTrailer (e : Entry) : Bool :=
  decide (e.nameSize = 10) && holdsText archive e.nameAt (bytesOf "TRAILER!!!")

/-- `struct initramfs_entry` -/
structure IndexEntry where
  pathHash : BitVec 64
  pathLength : Nat
  dataAt : Nat
  size : Nat

/-- What the index keeps of an entry. -/
def indexed (e : Entry) : IndexEntry :=
  ⟨pathHash (nameOf archive e), e.nameSize, e.dataAt, e.size⟩

/--
Loop of `initramfs_mount` with so many free places in the index: what is added to it, if the trailer
is reached.
-/
def mountFrom (archive : Buffer) (archiveSize : Nat) : Nat → Nat → Option (List IndexEntry)
  | slots, offset =>
    match nextEntry archive archiveSize offset with
    | none => none
    | some e =>
      if isTrailer archive e then some []
      else
        match slots with
        | 0 => none
        | slots + 1 =>
          (mountFrom archive archiveSize slots e.next).map (indexed archive e :: ·)

/-- `initramfs_mount` of a boot image -/
def initramfsMount (archiveSize : Nat) : Option (List IndexEntry) :=
  if archiveSize < cpioHeaderSize ∨ 2 ^ 32 - 1 < archiveSize then none
  else mountFrom archive archiveSize maxFiles 0

/-- The path without its leading slashes. -/
def strip (path : List Byte) : List Byte := path.dropWhile (· == 47)

/-- The index entry has length and hash of the path. -/
def matchesPath (path : List Byte) (f : IndexEntry) : Bool :=
  decide (f.pathLength = u32 path.length) && f.pathHash == pathHash (path.take (u32 path.length))

def initramfsFind (index : List IndexEntry) (path : List Byte) : Option (Nat × Nat) :=
  (index.find? (matchesPath (strip path))).map fun f => (f.dataAt, f.size)

/-! ## The entries of the archive -/

/-- The entries before the trailer. -/
def entriesFrom (archive : Buffer) (archiveSize : Nat) : Nat → Nat → Option (List Entry)
  | slots, offset =>
    match nextEntry archive archiveSize offset with
    | none => none
    | some e =>
      if isTrailer archive e then some []
      else
        match slots with
        | 0 => none
        | slots + 1 => (entriesFrom archive archiveSize slots e.next).map (e :: ·)

section Entries

variable {archive : Buffer} {archiveSize slots offset : Nat} {e : Entry} {es : List Entry}

/-- The end of the name, with the byte that ends it. -/
def Entry.nameEnd (e : Entry) : Nat := e.nameAt + e.nameSize + 1

theorem mountFrom_eq (slots offset : Nat) :
    mountFrom archive archiveSize slots offset =
      (entriesFrom archive archiveSize slots offset).map (map (indexed archive)) := by
  induction slots generalizing offset with
  | zero =>
    unfold mountFrom entriesFrom
    cases nextEntry archive archiveSize offset with
    | none => rfl
    | some e =>
      dsimp only
      split <;> rfl
  | succ slots ih =>
    unfold mountFrom entriesFrom
    cases nextEntry archive archiveSize offset with
    | none => rfl
    | some e =>
      dsimp only
      split
      · rfl
      · rw [ih]
        cases entriesFrom archive archiveSize slots e.next <;> rfl

/-- What `next_entry` checks. -/
structure Placed (archiveSize offset : Nat) (e : Entry) : Prop where
  name : e.nameAt = offset + 110
  nameEnd_le : e.nameEnd ≤ archiveSize
  data : e.dataAt = align4 (u32 e.nameEnd)
  dataEnd_le : e.dataAt + e.size ≤ archiveSize
  next : e.next = align4 (u32 (e.dataAt + e.size))

theorem placed_of_nextEntry (h : nextEntry archive archiveSize offset = some e) :
    Placed archiveSize offset e := by
  unfold nextEntry at h
  split at h
  · cases h
  split at h
  · cases h
  split at h
  next size nameSize hsize hname =>
    split at h
    · cases h
    next hpos =>
    dsimp only at h
    split at h
    · cases h
    next hfits =>
    cases h
    have hend : offset + cpioHeaderSize + (nameSize - 1) + 1 =
        offset + cpioHeaderSize + nameSize := by
      omega
    constructor
    · rfl
    · rw [Entry.nameEnd, hend]
      omega
    · rw [Entry.nameEnd, hend]
    · dsimp only
      omega
    · rfl
  · cases h

/-- One step of the walk. -/
theorem entriesFrom_cases (h : entriesFrom archive archiveSize slots offset = some es) :
    ∃ e, nextEntry archive archiveSize offset = some e ∧ ((isTrailer archive e = true ∧ es = []) ∨
      ∃ rest slots', isTrailer archive e = false ∧ slots = slots' + 1 ∧
      entriesFrom archive archiveSize slots' e.next = some rest ∧ es = e :: rest) := by
  unfold entriesFrom at h
  cases hnext : nextEntry archive archiveSize offset with
  | none =>
    rw [hnext] at h
    cases h
  | some e =>
    rw [hnext] at h
    dsimp only at h
    cases htrailer : isTrailer archive e with
    | true =>
      rw [htrailer, if_pos rfl] at h
      cases h
      exact ⟨e, rfl, .inl ⟨htrailer, rfl⟩⟩
    | false =>
      rw [htrailer, if_neg (by decide)] at h
      cases slots with
      | zero => cases h
      | succ slots =>
        obtain ⟨rest, hrest, rfl⟩ := Option.map_eq_some_iff.mp h
        exact ⟨e, rfl, .inr ⟨rest, slots, htrailer, rfl, hrest, rfl⟩⟩

/-- Where the walk ends does not depend on the places in the index. -/
theorem entriesFrom_unique {slots' : Nat} {es' : List Entry}
    (h : entriesFrom archive archiveSize slots offset = some es)
    (h' : entriesFrom archive archiveSize slots' offset = some es') :
    es = es' := by
  induction es generalizing slots slots' offset es' with
  | nil =>
    obtain ⟨e, hnext, ⟨htrailer, _⟩ | ⟨_, _, _, _, _, hnil⟩⟩ := entriesFrom_cases h
    · obtain ⟨e', hnext', ⟨_, hes'⟩ | ⟨_, _, htrailer', _⟩⟩ := entriesFrom_cases h'
      · exact hes'.symm
      · obtain rfl : e = e' := Option.some.inj (hnext.symm.trans hnext')
        rw [htrailer] at htrailer'
        cases htrailer'
    · cases hnil
  | cons first rest ih =>
    obtain ⟨e, hnext, ⟨_, hnil⟩ | ⟨_, _, htrailer, _, hrest, hes⟩⟩ := entriesFrom_cases h
    · cases hnil
    obtain ⟨rfl, rfl⟩ := cons.inj hes
    obtain ⟨e', hnext', ⟨htrailer', _⟩ | ⟨rest', _, _, _, hrest', hes'⟩⟩ := entriesFrom_cases h'
    · obtain rfl : first = e' := Option.some.inj (hnext.symm.trans hnext')
      rw [htrailer] at htrailer'
      cases htrailer'
    · obtain rfl : first = e' := Option.some.inj (hnext.symm.trans hnext')
      rw [hes', ih hrest hrest']

theorem align4_eq_of_le {n : Nat} (h : n ≤ 2 ^ 32 - 4) :
    n ≤ align4 (u32 n) ∧ align4 (u32 n) < n + 4 := by
  have hsmall : u32 n = n := u32_of_lt (by omega)
  have hsum : u32 (n + 3) = n + 3 := u32_of_lt (by omega)
  rw [align4, hsmall, hsum]
  omega

theorem align4_eq_zero {n : Nat} (h : 2 ^ 32 - 4 < n) (hlt : n < 2 ^ 32) : align4 (u32 n) = 0 := by
  have hsmall : u32 n = n := u32_of_lt hlt
  rw [align4, hsmall, u32]
  omega

/--
The data of an entry lies behind its name unless the end of the name is in the last bytes below 4
GiB.
-/
theorem Placed.behind_iff (h : Placed archiveSize offset e) (hsize : archiveSize < 2 ^ 32) :
    e.nameEnd ≤ e.dataAt ↔ e.nameEnd ≤ 2 ^ 32 - 4 := by
  have hend := h.nameEnd_le
  rw [h.data]
  constructor
  · intro hle
    by_contra hbig
    rw [align4_eq_zero (by omega) (by omega)] at hle
    omega
  · intro hle
    exact (align4_eq_of_le hle).1

/-- Every entry of the walk is placed somewhere. -/
theorem placed_of_mem (h : entriesFrom archive archiveSize slots offset = some es) (he : e ∈ es) :
    ∃ start, Placed archiveSize start e := by
  induction es generalizing slots offset with
  | nil => cases he
  | cons first rest ih =>
    obtain ⟨e', hnext, ⟨_, hnil⟩ | ⟨_, _, _, _, hrest, hes⟩⟩ := entriesFrom_cases h
    · cases hnil
    obtain ⟨rfl, rfl⟩ := cons.inj hes
    rcases mem_cons.mp he with rfl | he
    · exact ⟨offset, placed_of_nextEntry hnext⟩
    · exact ih hrest he

/-- The walk does not come back to the start: it would go round for ever. -/
theorem next_ne_zero (start : List Entry) {slots' : Nat}
    (hwhole : entriesFrom archive archiveSize slots' 0 = some (start ++ es))
    (h : entriesFrom archive archiveSize slots offset = some es) (he : e ∈ es) :
    e.next ≠ 0 := by
  induction es generalizing slots offset start with
  | nil => cases he
  | cons first rest ih =>
    obtain ⟨e', _, ⟨_, hnil⟩ | ⟨_, _, _, _, hrest, hes⟩⟩ := entriesFrom_cases h
    · cases hnil
    obtain ⟨rfl, rfl⟩ := cons.inj hes
    rcases mem_cons.mp he with rfl | he
    · intro hzero
      rw [hzero] at hrest
      have hlen := congrArg length (entriesFrom_unique hwhole hrest)
      simp only [length_append, length_cons] at hlen
      omega
    · apply ih (start ++ [first]) _ hrest he
      rwa [append_assoc]

/-- The data of the entries lies in the order of the archive. -/
theorem dataAt_increasing (h : entriesFrom archive archiveSize slots offset = some es)
    (hsize : archiveSize < 2 ^ 32) (hbehind : ∀ e ∈ es, e.nameEnd ≤ 2 ^ 32 - 4)
    (hnext : ∀ e ∈ es, e.next ≠ 0) :
    (∀ e ∈ es, offset < e.dataAt) ∧ es.Pairwise fun a b => a.dataAt < b.dataAt := by
  induction es generalizing slots offset with
  | nil =>
    constructor
    · intro e he
      cases he
    · exact List.Pairwise.nil
  | cons first rest ih =>
    obtain ⟨e', hentry, ⟨_, hnil⟩ | ⟨_, _, _, _, hrest, hes⟩⟩ := entriesFrom_cases h
    · cases hnil
    obtain ⟨rfl, rfl⟩ := cons.inj hes
    have hplaced := placed_of_nextEntry hentry
    obtain ⟨hafter, hpairs⟩ := ih hrest (fun e he => hbehind e (mem_cons_of_mem _ he))
      (fun e he => hnext e (mem_cons_of_mem _ he))
    have hfirst : first.nameEnd ≤ first.dataAt :=
      (hplaced.behind_iff hsize).mpr (hbehind first (mem_cons_self ..))
    have hname := hplaced.name
    have hdata := hplaced.dataEnd_le
    have hend : first.dataAt + first.size ≤ first.next := by
      rw [hplaced.next]
      by_contra hless
      have hbig : 2 ^ 32 - 4 < first.dataAt + first.size := by
        by_contra hsmall
        exact hless (align4_eq_of_le (by omega)).1
      exact hnext first (mem_cons_self ..) (hplaced.next.trans (align4_eq_zero hbig (by omega)))
    have hstart : offset < first.dataAt := by
      rw [Entry.nameEnd] at hfirst
      omega
    constructor
    · intro e he
      rcases mem_cons.mp he with rfl | he
      · exact hstart
      · have hlater := hafter e he
        omega
    · refine pairwise_cons.mpr ⟨fun e he => ?_, hpairs⟩
      have hlater := hafter e he
      omega

end Entries

/-! ## Looking up -/

section Lookup

variable {archive : Buffer} {archiveSize : Nat} {es : List Entry} {path : List Byte}

/-- The path hash of the entry's name and its length are those of the path. -/
def hashMatches (archive : Buffer) (path : List Byte) (e : Entry) : Bool :=
  matchesPath path (indexed archive e)

theorem hashMatches_of_name {e : Entry} (hsize : e.nameSize < 2 ^ 32)
    (h : nameOf archive e = path) : hashMatches archive path e = true := by
  have hlen : path.length = e.nameSize := by
    rw [← h, nameOf, length_map, length_range]
  have hshort : u32 path.length = path.length := u32_of_lt (by omega)
  rw [hashMatches, matchesPath, hshort, take_length]
  simp [indexed, h, hlen]

/-- A lookup gives the first entry with the hash of the path. -/
theorem initramfsFind_indexed :
    initramfsFind (es.map (indexed archive)) path =
      (es.find? (hashMatches archive (strip path))).map fun e => (e.dataAt, e.size) := by
  rw [initramfsFind, find?_map, Option.map_map]
  rfl

/--
The first element with a property is the first with a weaker one if that one has the property.
-/
theorem find?_of_imp {α : Type} {p q : α → Bool} {l : List α}
    (himp : ∀ a ∈ l, p a = true → q a = true) (h : ∀ a, l.find? q = some a → p a = true) :
    l.find? p = l.find? q := by
  induction l with
  | nil => rfl
  | cons a l ih =>
    cases hq : q a with
    | true =>
      have hp : p a = true := h a (find?_cons_of_pos hq)
      rw [find?_cons_of_pos hq, find?_cons_of_pos hp]
    | false =>
      have hp : ¬ p a = true := fun hp => by
        rw [himp a (mem_cons_self ..) hp] at hq
        cases hq
      have hnot : ¬ q a = true := by
        rw [hq]
        decide
      rw [find?_cons_of_neg hnot, find?_cons_of_neg hp]
      apply ih (fun b hb => himp b (mem_cons_of_mem _ hb))
      intro b hb
      exact h b ((find?_cons_of_neg hnot).trans hb)

/--
A lookup is exact for a path if and only if the first entry with length and hash of the path has
that name.
-/
theorem initramfsFind_exact_iff (hdist : es.Pairwise fun a b => a.dataAt < b.dataAt)
    (hsize : ∀ e ∈ es, e.nameSize < 2 ^ 32) : initramfsFind (es.map (indexed archive)) path =
    (es.find? fun e => decide (nameOf archive e = strip path)).map (fun e => (e.dataAt, e.size)) ↔
    ∀ e, es.find? (hashMatches archive (strip path)) = some e → nameOf archive e = strip path := by
  rw [initramfsFind_indexed]
  constructor
  · intro h e he
    rw [he] at h
    obtain ⟨e', hfind, hsame⟩ := Option.map_eq_some_iff.mp h.symm
    have hname : nameOf archive e' = strip path := by
      simpa using find?_some hfind
    -- the data of different entries lies at different places
    have hinj : e' = e := by
      have hnodup : (es.map Entry.dataAt).Nodup := by
        rw [List.Nodup, pairwise_map]
        exact hdist.imp fun hlt => Nat.ne_of_lt hlt
      exact inj_on_of_nodup_map hnodup (mem_of_find?_eq_some hfind)
        (mem_of_find?_eq_some he) (congrArg Prod.fst hsame)
    rw [← hinj]
    exact hname
  · intro h
    have hsame : (es.find? fun e => decide (nameOf archive e = strip path)) =
        es.find? (hashMatches archive (strip path)) := by
      apply find?_of_imp
      · intro e he hname
        exact hashMatches_of_name (hsize e he) (of_decide_eq_true hname)
      · intro e he
        exact decide_eq_true (h e he)
    rw [hsame]

/--
For every archive that is mounted, the data of the files lies in the archive behind their names
exactly if no name ends in the last three bytes below 4 GiB; and then a lookup is exact for the
paths that no earlier entry collides with.
-/
theorem mounted_archive_exact_iff
    (archive : Buffer)
    (archiveSize : Nat)
    (index : List IndexEntry)
    (hmount : initramfsMount archive archiveSize = some index) :
    ∃ es, entriesFrom archive archiveSize maxFiles 0 = some es ∧ index = es.map (indexed archive) ∧
      ((∀ e ∈ es, e.nameEnd ≤ e.dataAt ∧ e.dataAt + e.size ≤ archiveSize) ↔
        ∀ e ∈ es, e.nameEnd ≤ 2 ^ 32 - 4) ∧
      ((∀ e ∈ es, e.nameEnd ≤ 2 ^ 32 - 4) → ∀ path,
        initramfsFind index path = (es.find? fun e => decide (nameOf archive e = strip path)).map
            (fun e => (e.dataAt, e.size)) ↔
          ∀ e, es.find? (hashMatches archive (strip path)) = some e →
            nameOf archive e = strip path) := by
  unfold initramfsMount at hmount
  split at hmount
  · cases hmount
  next hbounds =>
  have hsize : archiveSize < 2 ^ 32 := by omega
  rw [mountFrom_eq] at hmount
  obtain ⟨es, hes, hindex⟩ := Option.map_eq_some_iff.mp hmount
  refine ⟨es, hes, hindex.symm, ⟨fun h e he => ?_, fun h e he => ?_⟩, fun h path => ?_⟩
  · obtain ⟨start, hplaced⟩ := placed_of_mem hes he
    exact (hplaced.behind_iff hsize).mp (h e he).1
  · obtain ⟨start, hplaced⟩ := placed_of_mem hes he
    exact ⟨(hplaced.behind_iff hsize).mpr (h e he), hplaced.dataEnd_le⟩
  have hnext : ∀ e ∈ es, e.next ≠ 0 := fun e he => next_ne_zero [] hes hes he
  rw [← hindex]
  apply initramfsFind_exact_iff (dataAt_increasing hes hsize h hnext).2
  intro e he
  have hend := h e he
  rw [Entry.nameEnd] at hend
  omega

end Lookup

/-! ## Two names with one hash -/

/-- A header with sizes of file and name. -/
def headerText (size nameSize : String) : List Byte :=
  bytesOf "070701" ++ replicate 48 48 ++ bytesOf size ++ replicate 32 48 ++
    bytesOf nameSize ++ replicate 8 48

/-- An archive with two files of four bytes. -/
def twoFiles : List Byte :=
  headerText "00000004" "0000000C" ++ bytesOf "yzAJqx4CtBk" ++ [0, 0, 0] ++ bytesOf "data" ++
    headerText "00000004" "00000009" ++ bytesOf "etc/motd" ++ [0, 0] ++ bytesOf "text" ++
    headerText "00000000" "0000000B" ++ bytesOf "TRAILER!!!" ++ [0, 0, 0, 0]

def twoFilesArchive : Buffer := fun i => twoFiles.getD i 0

theorem mounted_archive_exact_iff_twoFiles :
    ∃ index es, initramfsMount twoFilesArchive twoFiles.length = some index ∧
      entriesFrom twoFilesArchive twoFiles.length maxFiles 0 = some es ∧
      (∀ e ∈ es, e.nameEnd ≤ e.dataAt ∧ e.dataAt + e.size ≤ twoFiles.length) ∧
      initramfsFind index (bytesOf "/etc/motd") =
        (es.find? fun e => decide (nameOf twoFilesArchive e = bytesOf "etc/motd")).map
          fun e => (e.dataAt, e.size) := by
  have hsome : (initramfsMount twoFilesArchive twoFiles.length).isSome = true := by
    decide +kernel
  have hchecked : (entriesFrom twoFilesArchive twoFiles.length maxFiles 0).all (fun es =>
      (es.all fun e => e.nameEnd ≤ 2 ^ 32 - 4) &&
        (es.find? (hashMatches twoFilesArchive (bytesOf "etc/motd"))).all fun e =>
          nameOf twoFilesArchive e = bytesOf "etc/motd") = true := by
    decide +kernel
  obtain ⟨index, hmount⟩ := Option.isSome_iff_exists.mp hsome
  obtain ⟨es, hes, _, hranges, hlook⟩ := mounted_archive_exact_iff _ _ index hmount
  rw [hes, Option.all_some, Bool.and_eq_true, all_eq_true] at hchecked
  have hends : ∀ e ∈ es, e.nameEnd ≤ 2 ^ 32 - 4 := fun e he => of_decide_eq_true (hchecked.1 e he)
  have hpath : strip (bytesOf "/etc/motd") = bytesOf "etc/motd" := by decide
  have hexact := hlook hends (bytesOf "/etc/motd")
  rw [hpath] at hexact
  refine ⟨index, es, hmount, hes, hranges.mpr hends, hexact.mpr fun e he => ?_⟩
  rw [he, Option.all_some] at hchecked
  exact of_decide_eq_true hchecked.2

/-- A path that is not in the archive is found. -/
theorem initramfsFind_collision :
    (initramfsMount twoFilesArchive twoFiles.length).isSome = true ∧
      (initramfsMount twoFilesArchive twoFiles.length).bind
        (fun index => initramfsFind index (bytesOf "5xwIHJCcsyp")) = some (124, 4) ∧
      (entriesFrom twoFilesArchive twoFiles.length maxFiles 0).map
          (fun es => es.map (nameOf twoFilesArchive)) =
        some [bytesOf "yzAJqx4CtBk", bytesOf "etc/motd"] ∧
      bytesOf "5xwIHJCcsyp" ∉ [bytesOf "yzAJqx4CtBk", bytesOf "etc/motd"] := by
  decide +kernel

end PureCOS.Initramfs
