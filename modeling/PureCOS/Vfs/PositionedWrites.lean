import PureCOS.Lib.ByteFile
import PureCOS.Vfs.ReadBack

/-!
# Writes at a position

`vfs_write` and `vfs_handle_truncate` of `fs/vfs.c`.  File systems only write whole files and append
to them, so a write at the end of a file is an append, and every other one reads the file into a new
buffer, changes the buffer and writes it back.

A handle that `vfs_open_flags` makes for writing is a value of its own here.  It stands in an entry
of the table of handles that no call inside touches.  Whether there is memory for the buffer, and
for a longer table of handles, is part of a call.
-/

namespace PureCOS.Vfs

open List

variable {σ : Type}

/-- A handle of type `VFS_HANDLE_WRITABLE`; `append` is bit 0 of `wflags`. -/
structure WritableHandle where
  path : List Char
  position : Nat
  append : Bool

/-- What `pmm_allocate_contiguous` has: pages for the buffer, and for a longer table of handles. -/
structure Supply where
  buffer : Bool
  table : Bool

def vfsRmwLimit : Nat := 64 * 1024 * 1024

namespace State

variable (klog : Klog σ)
variable (s : State σ) (path : List Char)

/-- `file_size_of` for a caller that starts with 0 and ignores the status. -/
def fileSizeOf : Nat :=
  match s.vfsStat klog path with
  | .ok info => info.size
  | .error _ => 0

/-- The loop of `load_prefix`, if it ends after so many rounds. -/
def readPrefix : Nat → State σ → Int → Nat → State σ × List Byte
  | 0, s, _, _ => (s, [])
  | rounds + 1, s, fd, left =>
    if left = 0 then
      (s, [])
    else
      match s.vfsRead klog fd (min left 1048576) with
      | (s, .error _) => (s, [])
      | (s, .ok chunk) =>
        if chunk = [] then
          (s, [])
        else
          let rest := readPrefix rounds s fd (left - chunk.length)
          (rest.1, chunk ++ rest.2)

/--
`load_prefix`: the bytes at the start of the buffer.  A round reads a byte, so there are `length` at
most.
-/
def loadPrefix (length : Nat) (supply : Supply) : State σ × Except Int (List Byte) :=
  if length = 0 then
    (s, .ok [])
  else
    let opened := s.vfsOpen klog path supply.table
    if opened.2 < 0 then
      (opened.1, .error opened.2)
    else
      let loaded := readPrefix klog length opened.1 opened.2 length
      ((loaded.1.vfsClose opened.2).1, .ok loaded.2)

/-- `rewrite_file`; the pages that `pmm_allocate_contiguous` gives are zero. -/
def rewriteFile (offset : Nat) (data : List Byte) (newLength : Nat)
    (supply : Supply) : State σ × Int :=
  let size := s.fileSizeOf klog path
  let final := max newLength (offset + data.length)
  if vfsRmwLimit < final then
    (s, fsErrorNoSpace)
  else if final ≠ 0 ∧ supply.buffer = false then
    (s, fsErrorNoSpace)
  else
    match s.loadPrefix klog path (min size final) supply with
    | (s, .error status) => (s, status)
    | (s, .ok bytes) =>
      s.vfsWriteFile klog path
        (overwrite (bytes ++ replicate (final - bytes.length) 0) offset data)

/-- `vfs_write`: the state, the handle and the status. -/
def vfsWrite (h : WritableHandle) (data : List Byte) (supply : Supply) :
    State σ × WritableHandle × Int :=
  if data = [] then
    (s, h, 0)
  else
    let size := s.fileSizeOf klog h.path
    let written : State σ × Int × Nat :=
      if h.append || h.position == size then
        let appended := s.vfsAppendFile klog h.path data
        (appended.1, appended.2, size + data.length)
      else
        let rewritten := s.rewriteFile klog h.path h.position data size supply
        (rewritten.1, rewritten.2, h.position + data.length)
    if written.2.1 < 0 then
      (written.1, h, written.2.1)
    else
      (written.1, { h with position := written.2.2 % 2 ^ 32 }, data.length)

def vfsHandleTruncate (h : WritableHandle) (length : Nat) (supply : Supply) : State σ × Int :=
  let size := s.fileSizeOf klog h.path
  if length = size then
    (s, 0)
  else if length = 0 then
    s.vfsWriteFile klog h.path []
  else
    let rewritten := s.rewriteFile klog h.path 0 [] length supply
    (rewritten.1, if rewritten.2 < 0 then fsErrorNoSpace else 0)

end State

open State

/--
A file system on which opening, reading and closing change no file, and an append that succeeds puts
the bytes at the end.  Sizes of files are 32-bit numbers in every file system, so an append beyond
that does not succeed.
-/
structure Faithful (fs : FileSystem σ) : Prop where
  open_keeps : ∀ f, fs.openFile = some f → ∀ x path,
    (∀ q, fs.node (f x path).1 q = fs.node x q) ∧ fs.ready (f x path).1 = fs.ready x
  read_keeps : ∀ f, fs.read = some f → ∀ x descriptor n, (∀ q,
    fs.node (f x descriptor n).1 q = fs.node x q) ∧ fs.ready (f x descriptor n).1 = fs.ready x ∧
    ∀ chunk, (f x descriptor n).2 = .ok chunk → chunk.length ≤ n
  close_keeps : ∀ f, fs.close = some f → ∀ x descriptor,
    (∀ q, fs.node (f x descriptor).1 q = fs.node x q) ∧ fs.ready (f x descriptor).1 = fs.ready x
  append_node : ∀ f, fs.appendFile = some f → ∀ x path old data, fs.node x path = some (.file old) →
    0 ≤ (f x path data).2 → fs.node (f x path data).1 path = some (.file (old ++ data)) ∧
    old.length + data.length < 2 ^ 32

variable {klog : Klog σ} {s s' : State σ} {path : List Char} {r : Resolved σ} {data c : List Byte}
  {supply : Supply}

/-! ## Reading the file into the buffer -/

section Loading

variable {i length rounds : Nat}

theorem Spared.refl (r : Resolved σ) (s : State σ) : Spared r s s :=
  ⟨⟨rfl, rfl, rfl⟩, rfl, rfl⟩

theorem Spared.trans {s'' : State σ} (h : Spared r s s') (h' : Spared r s' s'') : Spared r s s'' :=
  ⟨h.toSameMounts.trans h'.toSameMounts, h'.node.trans h.node, h'.ready.trans h.ready⟩

/-- Entry `i` of the table is open for reading: these bytes of the file are left. -/
def Reads (r : Resolved σ) (s : State σ) (i : Nat) (data : List Byte) : Prop :=
  ∃ h, s.handles[i]? = some (some h) ∧ ((∃ contents position, h.type = .memory contents position ∧
    contents.drop position = data) ∨ ∃ descriptor, h.type = .backend r.mount descriptor ∧
    r.mount.fs.left s.fs descriptor = some data)

theorem vfsRead_memory {h : Handle σ} {contents : List Byte} {position : Nat} (klog : Klog σ)
    (hget : s.handles[i]? = some (some h)) (htype : h.type = .memory contents position) (n : Nat) :
    let chunk := (contents.drop position).take n
    s.vfsRead klog ((vfsFdBase : Int) + i) n =
      ({ s with handles := s.handles.set i (some
          { h with type := .memory contents (position + chunk.length) }) }, .ok chunk) := by
  intro chunk
  unfold vfsRead
  simp only [getHandle_eq hget, htype]
  rfl

theorem vfsRead_backend {h : Handle σ} {mount : Mount (FileSystem σ)} {descriptor : Int}
    {f : σ → Int → Nat → σ × Except Int (List Byte)} (klog : Klog σ)
    (hget : s.handles[i]? = some (some h)) (htype : h.type = .backend mount descriptor)
    (hread : mount.fs.read = some f) (n : Nat) : s.vfsRead klog ((vfsFdBase : Int) + i) n =
    ({ s with fs := (f s.fs descriptor n).1 }, (f s.fs descriptor n).2) := by
  unfold vfsRead
  simp only [getHandle_eq hget, htype, hread]

theorem drop_length_take (bytes : List Byte) (n : Nat) :
    bytes.drop (bytes.take n).length = bytes.drop n := by
  rw [length_take]
  rcases Nat.le_total n bytes.length with hle | hle
  · rw [Nat.min_eq_left hle]
  · rw [Nat.min_eq_right hle, drop_length, drop_eq_nil_of_le hle]

/--
A regular file that the handle's path leads to; neither the kernel log nor the initramfs stands
before it.
-/
structure Regular (s : State σ) (path : List Char) (r : Resolved σ) (c : List Byte) : Prop where
  resolve : s.resolve path = .ok r
  klog : isKlogPath r.path = false
  overlay : s.overlayFind r.path = none
  ready : r.mount.fs.ready s.fs = true
  node : r.mount.fs.node s.fs r.relative = some (.file c)

theorem Regular.spared (h : Regular s path r c) (hspared : Spared r s s') : Regular s' path r c :=
  ⟨hspared.toSameMounts.resolve.trans h.resolve, h.klog, hspared.toSameMounts.overlayFind.trans
    h.overlay, hspared.ready.trans h.ready, hspared.node.trans h.node⟩

theorem Regular.fileSizeOf (h : Regular s path r c) : s.fileSizeOf klog path = c.length := by
  unfold State.fileSizeOf
  rw [vfsStat_file h.resolve h.klog h.overlay h.ready h.node]

variable (hfaithful : Faithful r.mount.fs)

include hfaithful

/-- One read takes at most as many bytes off as it was asked for, and changes no file. -/
theorem Reads.read (klog : Klog σ) (h : Reads r s i data) (n : Nat) : ∃ s' chunk rest,
    s.vfsRead klog ((vfsFdBase : Int) + i) n = (s', .ok chunk) ∧ data = chunk ++ rest ∧
    Reads r s' i rest ∧ (chunk = [] → n = 0 ∨ data = []) ∧ chunk.length ≤ n ∧ Spared r s s' := by
  obtain ⟨h, hget, htype⟩ := h
  rcases htype with ⟨contents, position, htype, rfl⟩ | ⟨descriptor, htype, hleft⟩
  · have hlt := (List.getElem?_eq_some_iff.mp hget).1
    refine ⟨_, _, (contents.drop position).drop n, vfsRead_memory klog hget htype n,
      (take_append_drop n _).symm, ?_, take_eq_nil_iff.mp, length_take_le _ _, ?_⟩
    · refine ⟨_, getElem?_set_self hlt, .inl ⟨contents, _, rfl, ?_⟩⟩
      rw [← drop_drop, drop_length_take]
    · exact ⟨⟨rfl, rfl, rfl⟩, rfl, rfl⟩
  obtain ⟨f, hread, hf⟩ := r.mount.fs.read_left
  obtain ⟨chunk, rest, hchunk, hsplit, hrest, hempty⟩ := hf s.fs descriptor n data hleft
  obtain ⟨hnode, hready, hle⟩ := hfaithful.read_keeps f hread s.fs descriptor n
  have heq := vfsRead_backend klog hget htype hread n
  rw [hchunk] at heq
  exact ⟨_, chunk, rest, heq, hsplit, ⟨h, hget, .inr ⟨descriptor, htype, hrest⟩⟩, hempty,
    hle chunk hchunk, ⟨⟨rfl, rfl, rfl⟩, hnode r.relative, hready⟩⟩

/-- The loop of `load_prefix` reads what it was asked for. -/
theorem Reads.readPrefix (klog : Klog σ) (h : Reads r s i data) (hlen : length ≤ data.length)
    (hrounds : length ≤ rounds) :
    ∃ s', readPrefix klog rounds s ((vfsFdBase : Int) + i) length = (s', data.take length) ∧
      Reads r s' i (data.drop length) ∧ Spared r s s' := by
  induction rounds generalizing s data length with
  | zero =>
    obtain rfl := Nat.le_zero.mp hrounds
    exact ⟨s, rfl, h, .refl r s⟩
  | succ rounds ih =>
    by_cases hzero : length = 0
    · subst hzero
      exact ⟨s, rfl, h, .refl r s⟩
    obtain ⟨s', chunk, rest, hread, rfl, hrest, hempty, hle, hspared⟩ :=
      h.read hfaithful klog (min length 1048576)
    have hne : chunk ≠ [] := by
      intro hnil
      rcases hempty hnil with hmin | hdata
      · omega
      · rw [hdata] at hlen
        exact hzero (Nat.le_zero.mp hlen)
    have hpos : 0 < chunk.length := length_pos_iff.mpr hne
    have hchunk : chunk.length ≤ length := Nat.le_trans hle (Nat.min_le_left _ _)
    rw [length_append] at hlen
    have hlen' : length - chunk.length ≤ rest.length := by omega
    obtain ⟨s'', hloop, hreads, hspared'⟩ := ih hrest hlen' (by omega)
    refine ⟨s'', ?_, ?_, hspared.trans hspared'⟩
    · rw [readPrefix, if_neg hzero, hread]
      simp only [hne, if_false, hloop]
      rw [take_append, take_of_length_le hchunk]
    · rw [drop_append, drop_eq_nil_of_le hchunk, nil_append]
      exact hreads

theorem spared_close (h : Reads r s i data) :
    Spared r s (s.vfsClose ((vfsFdBase : Int) + i)).1 := by
  obtain ⟨h, hget, htype⟩ := h
  unfold vfsClose
  rw [getHandle_eq hget]
  dsimp only
  split
  · exact ⟨⟨rfl, rfl, rfl⟩, rfl, rfl⟩
  rcases htype with ⟨contents, position, htype, -⟩ | ⟨descriptor, htype, -⟩
  · rw [htype]
    exact ⟨⟨rfl, rfl, rfl⟩, rfl, rfl⟩
  rw [htype]
  dsimp only
  split
  · exact ⟨⟨rfl, rfl, rfl⟩, rfl, rfl⟩
  next f hclose =>
    obtain ⟨hnode, hready⟩ := hfaithful.close_keeps f hclose s.fs descriptor
    exact ⟨⟨rfl, rfl, rfl⟩, hnode r.relative, hready⟩

theorem spared_openAs (klog : Klog σ) :
    r.mount.fs.node (s.openAs klog r).1 r.relative = r.mount.fs.node s.fs r.relative ∧
      r.mount.fs.ready (s.openAs klog r).1 = r.mount.fs.ready s.fs := by
  unfold openAs
  split
  · exact ⟨rfl, rfl⟩
  split
  · exact ⟨rfl, rfl⟩
  split
  · exact ⟨rfl, rfl⟩
  split
  · exact ⟨rfl, rfl⟩
  next f hopen =>
    split
    · obtain ⟨hnode, hready⟩ := hfaithful.open_keeps f hopen s.fs r.relative
      exact ⟨hnode r.relative, hready⟩
    · exact ⟨rfl, rfl⟩

/-- A regular file that can be opened is open for reading from its start. -/
theorem Regular.opened {memory : Bool} (klog : Klog σ) (h : Regular s path r c)
    (hopen : 0 ≤ (s.vfsOpen klog path memory).2) :
    ∃ i : Nat, (s.vfsOpen klog path memory).2 = (vfsFdBase : Int) + i ∧
      Reads r (s.vfsOpen klog path memory).1 i c ∧ Spared r s (s.vfsOpen klog path memory).1 := by
  rcases vfsOpen_spec h.resolve with hdenied | hspace | ⟨status, herror, hstatus⟩ |
    ⟨type, i, handle, htype, hfd, hfs, hget, hh⟩
  · exact absurd (hdenied ▸ hopen) (by decide)
  · exact absurd (hspace ▸ hopen) (by decide)
  · exact absurd (hstatus ▸ hopen) (Int.not_le.mpr (openAs_error herror))
  obtain ⟨hnode, hready⟩ := spared_openAs (s := s) hfaithful klog
  refine ⟨i, hfd, ⟨handle, hget, ?_⟩, ⟨sameMounts_open, by rw [hfs, hnode], by rw [hfs, hready]⟩⟩
  rw [hh, hfs]
  rcases openAs_file h.klog h.overlay h.ready h.node htype with rfl | ⟨descriptor, rfl, hleft⟩
  · exact .inl ⟨c, 0, rfl, rfl⟩
  · exact .inr ⟨descriptor, rfl, hleft⟩

/-- `load_prefix` fails, or it has read the start of the file. -/
theorem Regular.loadPrefix {bytes : List Byte} (h : Regular s path r c) (hlen : length ≤ c.length)
    (hload : s.loadPrefix klog path length supply = (s', .ok bytes)) :
    bytes = c.take length ∧ Spared r s s' := by
  unfold State.loadPrefix at hload
  split at hload
  next hzero =>
    cases hload
    exact ⟨by rw [hzero, take_zero], .refl r s⟩
  · dsimp only at hload
    split at hload
    · cases hload
    next hopen =>
    obtain ⟨i, hfd, hreads, hspared⟩ := h.opened hfaithful klog (Int.not_lt.mp hopen)
    rw [hfd] at hload
    obtain ⟨s₁, hloop, hreads₁, hspared₁⟩ := hreads.readPrefix hfaithful klog hlen (Nat.le_refl _)
    rw [hloop] at hload
    cases hload
    exact ⟨rfl, (hspared.trans hspared₁).trans (spared_close hfaithful hreads₁)⟩

end Loading

theorem loadPrefix_error {length : Nat} {status : Int}
    (hload : s.loadPrefix klog path length supply = (s', .error status)) :
    status < 0 := by
  unfold loadPrefix at hload
  split at hload
  · cases hload
  dsimp only at hload
  split at hload
  next hopen =>
    cases hload
    exact hopen
  · cases hload

/-! ## Writing the buffer back -/

/-- The changed buffer is the changed file. -/
theorem overwrite_buffer (hdata : data ≠ []) (position : Nat) :
    overwrite (c ++ replicate (max c.length (position + data.length) - c.length) 0) position
      data = overwrite c position data := by
  refine ext_getElem? fun i => ?_
  rw [getElem?_overwrite hdata, getElem?_overwrite hdata, getElem?_append, getElem?_replicate]
  by_cases hi : i < c.length
  · simp only [if_pos hi]
  have hnone := getElem?_eq_none (Nat.not_lt.mp hi)
  simp only [if_neg hi, hnone]
  by_cases hgap : i < position
  · simp only [if_pos hgap]
    split <;> rfl
  by_cases hnew : i < position + data.length
  · simp only [if_neg hgap, if_pos hnew]
  · have hend : ¬i - c.length < max c.length (position + data.length) - c.length := by omega
    simp only [if_neg hgap, if_neg hnew, if_neg hend]

section Writing

variable {h : WritableHandle} (hfaithful : Faithful r.mount.fs)

include hfaithful

/--
`rewrite_file`, if it succeeds, writes the buffer with the start of the file and the new bytes.
-/
theorem Regular.rewriteFile {offset newLength : Nat} (h : Regular s path r c)
    (hdone : 0 ≤ (s.rewriteFile klog path offset data newLength supply).2) :
    let final := max newLength (offset + data.length)
    final ≤ vfsRmwLimit ∧
      r.mount.fs.node (s.rewriteFile klog path offset data newLength supply).1.fs r.relative =
        some (.file (overwrite (c.take final ++ replicate (final - c.length) 0) offset data)) := by
  intro final
  have hneg : ¬(0 : Int) ≤ fsErrorNoSpace := by decide
  unfold State.rewriteFile at hdone ⊢
  rw [h.fileSizeOf] at hdone ⊢
  dsimp only at hdone ⊢
  split at hdone
  · exact absurd hdone hneg
  next hlimit =>
  rw [if_neg hlimit]
  split at hdone
  · exact absurd hdone hneg
  next hbuffer =>
  rw [if_neg hbuffer]
  refine ⟨Nat.not_lt.mp hlimit, ?_⟩
  cases hload : s.loadPrefix klog path (min c.length final) supply with
  | mk s₁ result =>
    cases result with
    | error status =>
      rw [hload] at hdone
      exact absurd (loadPrefix_error hload) (Int.not_lt.mpr hdone)
    | ok bytes =>
      rw [hload] at hdone
      obtain ⟨rfl, hspared⟩ := h.loadPrefix hfaithful (Nat.min_le_left _ _) hload
      obtain ⟨-, hnode, -⟩ := vfsWriteFile_ok (h.spared hspared).resolve h.klog hdone
      have htake : c.take (min c.length final) = c.take final := by
        rw [Nat.min_comm, ← take_take, take_length]
      have hgap : final - (c.take final).length = final - c.length := by
        rw [length_take]
        omega
      rw [hnode, htake, hgap]

/-- An append to a regular file that succeeds. -/
theorem Regular.appendFile (h : Regular s path r c)
    (hdone : 0 ≤ (s.vfsAppendFile klog path data).2) :
    r.mount.fs.node (s.vfsAppendFile klog path data).1.fs r.relative = some (.file (c ++ data)) ∧
      c.length + data.length < 2 ^ 32 := by
  unfold vfsAppendFile at hdone ⊢
  simp only [h.resolve, h.klog, Bool.false_eq_true, if_false] at hdone ⊢
  by_cases hmut : s.checkMutation r.mount r.mount.fs.appendFile.isSome < 0
  · rw [if_pos hmut] at hdone
    exact absurd hdone (Int.not_le.mpr hmut)
  rw [if_neg hmut] at hdone ⊢
  by_cases htarget : s.checkWriteTarget r < 0
  · rw [if_pos htarget] at hdone
    exact absurd hdone (Int.not_le.mpr htarget)
  rw [if_neg htarget] at hdone ⊢
  cases happend : r.mount.fs.appendFile with
  | none =>
    rw [happend] at hdone
    exact absurd (show 0 ≤ fsErrorUnsupported from hdone) (by decide)
  | some f =>
    rw [happend] at hdone
    have hstatus : 0 ≤ (f s.fs r.relative data).2 := by
      dsimp only at hdone
      split at hdone
      next hok => exact hok
      next hfail => exact absurd hdone hfail
    exact hfaithful.append_node f happend s.fs r.relative c data h.node hstatus

/-- The handle's position after a write that succeeds, and the file. -/
theorem Regular.vfsWrite (hfile : Regular s h.path r c) (hdata : data ≠ [])
    (hdone : 0 ≤ (s.vfsWrite klog h data supply).2.2) :
    let result := s.vfsWrite klog h data supply
    if h.append then
      r.mount.fs.node result.1.fs r.relative = some (.file (c ++ data)) ∧
        result.2.1 = { h with position := c.length + data.length }
    else
      r.mount.fs.node result.1.fs r.relative = some (.file (overwrite c h.position data)) ∧
        result.2.1 = { h with position := h.position + data.length } := by
  intro result
  have hsize : s.fileSizeOf klog h.path = c.length := hfile.fileSizeOf
  by_cases hend : (h.append || h.position == c.length) = true
  · -- the append is the write: at the end of the file both are the same
    have hstatus : 0 ≤ (s.vfsAppendFile klog h.path data).2 := by
      unfold State.vfsWrite at hdone
      simp only [hdata, hsize, hend, if_false, if_true] at hdone
      by_contra hneg
      rw [if_pos (Int.not_le.mp hneg)] at hdone
      exact hneg hdone
    obtain ⟨hnode, hlen⟩ := hfile.appendFile hfaithful hstatus
    have hres : result = ((s.vfsAppendFile klog h.path data).1,
        { h with position := c.length + data.length }, (data.length : Int)) := by
      unfold result State.vfsWrite
      simp only [hdata, hsize, hend, if_false, if_true, if_neg (Int.not_lt.mpr hstatus),
        Nat.mod_eq_of_lt hlen]
    rw [hres]
    split
    · exact ⟨hnode, rfl⟩
    next happend =>
    rw [Bool.or_eq_true, beq_iff_eq] at hend
    have hposition := hend.resolve_left happend
    refine ⟨?_, by rw [hposition]⟩
    rw [hnode, overwrite, if_neg hdata, hposition, take_length, Nat.sub_self, replicate_zero,
      append_nil, drop_eq_nil_of_le (Nat.le_add_right _ _), append_nil]
  have hstatus : 0 ≤ (s.rewriteFile klog h.path h.position data c.length supply).2 := by
    unfold State.vfsWrite at hdone
    simp only [hdata, hsize, hend, if_false, Bool.false_eq_true] at hdone
    by_contra hneg
    rw [if_pos (Int.not_le.mp hneg)] at hdone
    exact hneg hdone
  obtain ⟨hlimit, hnode⟩ := hfile.rewriteFile hfaithful hstatus
  have hposition : (h.position + data.length) % 2 ^ 32 = h.position + data.length := by
    refine Nat.mod_eq_of_lt ?_
    unfold vfsRmwLimit at hlimit
    omega
  have hres : result = ((s.rewriteFile klog h.path h.position data c.length supply).1,
      { h with position := h.position + data.length }, (data.length : Int)) := by
    unfold result State.vfsWrite
    simp only [hdata, hsize, hend, if_false, Bool.false_eq_true,
      if_neg (Int.not_lt.mpr hstatus), hposition]
  have happend : h.append = false := by
    by_contra happend
    rw [Bool.not_eq_false] at happend
    rw [happend] at hend
    exact hend rfl
  rw [hres, happend, if_neg Bool.false_ne_true]
  refine ⟨?_, rfl⟩
  rw [hnode, take_of_length_le (Nat.le_max_left _ _), overwrite_buffer hdata]

/-- The file after `vfs_handle_truncate` has succeeded. -/
theorem Regular.vfsHandleTruncate {length : Nat} (hfile : Regular s h.path r c)
    (hdone : 0 ≤ (s.vfsHandleTruncate klog h length supply).2) :
    r.mount.fs.node (s.vfsHandleTruncate klog h length supply).1.fs r.relative =
      some (.file (c.take length ++ replicate (length - c.length) 0)) := by
  unfold State.vfsHandleTruncate at hdone ⊢
  rw [hfile.fileSizeOf] at hdone ⊢
  dsimp only at hdone ⊢
  by_cases hsame : length = c.length
  · rw [if_pos hsame, hsame, take_length, Nat.sub_self, replicate_zero, append_nil]
    exact hfile.node
  rw [if_neg hsame] at hdone ⊢
  by_cases hzero : length = 0
  · rw [if_pos hzero] at hdone ⊢
    rw [(vfsWriteFile_ok hfile.resolve hfile.klog hdone).2.1, hzero, take_zero, Nat.zero_sub]
    rfl
  rw [if_neg hzero] at hdone ⊢
  have hstatus : 0 ≤ (s.rewriteFile klog h.path 0 [] length supply).2 := by
    by_contra hneg
    rw [if_pos (Int.not_le.mp hneg)] at hdone
    exact absurd (show 0 ≤ fsErrorNoSpace from hdone) (by decide)
  obtain ⟨-, hnode⟩ := hfile.rewriteFile hfaithful hstatus
  rw [hnode, overwrite_nil, length_nil, Nat.add_zero, Nat.max_eq_left (Nat.zero_le _)]

end Writing

/--
A write at a position splices, an append goes to the end, and a handle is truncated to the length it
was asked for.  A write of no bytes does nothing.
-/
theorem positioned_writes_splice
    (klog : Klog σ)
    (s : State σ)
    (h : WritableHandle)
    (r : Resolved σ)
    (c : List Byte)
    (supply : Supply)
    (hfaithful : Faithful r.mount.fs)
    (hfile : Regular s h.path r c) :
    (∀ b, 0 ≤ (s.vfsWrite klog h b supply).2.2 → b ≠ [] →
      let result := s.vfsWrite klog h b supply
      (h.append = false →
        r.mount.fs.node result.1.fs r.relative = some (.file (c.take h.position ++
            replicate (h.position - c.length) 0 ++ b ++ c.drop (h.position + b.length))) ∧
          result.2.1.position = h.position + b.length) ∧
      (h.append = true → r.mount.fs.node result.1.fs r.relative = some (.file (c ++ b)))) ∧
    s.vfsWrite klog h [] supply = (s, h, 0) ∧
    ∀ n, 0 ≤ (s.vfsHandleTruncate klog h n supply).2 →
      r.mount.fs.node (s.vfsHandleTruncate klog h n supply).1.fs r.relative =
        some (.file (c.take n ++ replicate (n - c.length) 0)) := by
  refine ⟨fun b hdone hb => ?_, rfl, fun n hdone => hfile.vfsHandleTruncate hfaithful hdone⟩
  have hwrite := hfile.vfsWrite hfaithful hb hdone
  constructor
  · intro happend
    simp only [happend, Bool.false_eq_true, if_false] at hwrite
    rw [overwrite, if_neg hb] at hwrite
    exact ⟨hwrite.1, congrArg WritableHandle.position hwrite.2⟩
  · intro happend
    simp only [happend, if_true] at hwrite
    exact hwrite.1

/-! ## A disk -/

namespace Disk

/-- Bytes go to the end of a file that is there, up to the largest size. -/
def append (disk : Disk) (path : List Char) (data : List Byte) : Disk × Int :=
  match disk.find path with
  | none => (disk, fsErrorNotFound)
  | some old =>
    if old.length + data.length < 2 ^ 32 then disk.write path (old ++ data)
    else (disk, fsErrorNoSpace)

/-- The disk as a file system that can also append. -/
def appendable : FileSystem Disk := { fileSystem with appendFile := some append }

theorem find_openFile (disk : Disk) (path q : List Char) :
    (disk.openFile path).1.find q = disk.find q := by
  unfold openFile
  split <;> rfl

theorem find_read (disk : Disk) (descriptor : Int) (n : Nat) (q : List Char) :
    (disk.read descriptor n).1.find q = disk.find q := by
  unfold read
  split <;> rfl

theorem faithful_appendable : Faithful appendable where
  open_keeps := by
    rintro f hf disk path
    cases hf
    exact ⟨fun q => congrArg (Option.map Node.file) (find_openFile disk path q), rfl⟩
  read_keeps := by
    rintro f hf disk descriptor n
    cases hf
    refine ⟨fun q => congrArg (Option.map Node.file) (find_read disk descriptor n q), rfl,
      fun chunk hchunk => ?_⟩
    unfold read at hchunk
    split at hchunk
    · cases hchunk
    · cases hchunk
      exact length_take_le _ _
  close_keeps := nofun
  append_node := by
    rintro f hf disk path old data hnode hdone
    cases hf
    obtain ⟨found, hfound, hfile⟩ := Option.map_eq_some_iff.mp hnode
    obtain rfl := Node.file.inj hfile
    have hfound : disk.find path = some found := hfound
    unfold append at hdone ⊢
    rw [hfound] at hdone ⊢
    dsimp only at hdone ⊢
    split at hdone
    next hlen =>
      rw [if_pos hlen]
      refine ⟨?_, hlen⟩
      show Option.map Node.file (lookup path ((path, found ++ data) :: disk.files)) = _
      rw [lookup_cons_self]
      rfl
    · exact absurd (show 0 ≤ fsErrorNoSpace from hdone) (by decide)

/-- A file of two bytes on a disk at the root. -/
def twoBytes : State Disk where
  fs := ⟨[("/f".toList, [1, 2])], []⟩
  mounts := [some ⟨['/'], "disk".toList, appendable, 0⟩]
  initramfs := none
  live := false
  handles := [none]
  root := true
  allowed := fun _ _ _ => true

/-- `/f` on the disk -/
def twoBytesFile : Resolved Disk :=
  ⟨⟨['/'], "disk".toList, appendable, 0⟩, "/f".toList, "/f".toList⟩

theorem twoBytes_regular : Regular twoBytes "/f".toList twoBytesFile [1, 2] :=
  ⟨rfl, by decide, rfl, rfl, rfl⟩

end Disk

open Disk in
/-- Three bytes at position 4 of a file of two, and the file cut to one byte. -/
theorem positioned_writes_splice_twoBytes :
    let h : WritableHandle := ⟨"/f".toList, 4, false⟩
    let written := twoBytes.vfsWrite emptyLog h [7, 8, 9] ⟨true, true⟩
    let cut := twoBytes.vfsHandleTruncate emptyLog h 1 ⟨true, true⟩
    twoBytesFile.mount.fs.node written.1.fs twoBytesFile.relative =
        some (.file [1, 2, 0, 0, 7, 8, 9]) ∧
      written.2.1.position = 7 ∧
      twoBytesFile.mount.fs.node cut.1.fs twoBytesFile.relative = some (.file [1]) := by
  have hfile : Regular twoBytes (WritableHandle.mk "/f".toList 4 false).path twoBytesFile [1, 2] :=
    twoBytes_regular
  have hwritten :
      0 ≤ (twoBytes.vfsWrite emptyLog ⟨"/f".toList, 4, false⟩ [7, 8, 9] ⟨true, true⟩).2.2 := by
    decide
  have hcut :
      0 ≤ (twoBytes.vfsHandleTruncate emptyLog ⟨"/f".toList, 4, false⟩ 1 ⟨true, true⟩).2 := by
    decide
  obtain ⟨hwrite, -, htruncate⟩ :=
    positioned_writes_splice emptyLog twoBytes ⟨"/f".toList, 4, false⟩ twoBytesFile [1, 2]
      ⟨true, true⟩ faithful_appendable hfile
  obtain ⟨hsplice, hposition⟩ := (hwrite [7, 8, 9] hwritten (by decide)).1 rfl
  exact ⟨hsplice, hposition, htruncate 1 hcut⟩

open Disk in
/-- A write of no bytes behind the end of a file does not extend it. -/
theorem empty_write_extends_nothing :
    let h : WritableHandle := ⟨"/f".toList, 4, false⟩
    let written := twoBytes.vfsWrite emptyLog h [] ⟨true, true⟩
    Regular twoBytes h.path twoBytesFile [1, 2] ∧ 0 ≤ written.2.2 ∧
      twoBytesFile.mount.fs.node written.1.fs twoBytesFile.relative = some (.file [1, 2]) := by
  exact ⟨twoBytes_regular, by decide, rfl⟩

end PureCOS.Vfs
