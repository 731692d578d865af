import PureCOS.Vfs.Calls

/-!
# Reading back what was written

A file that is written or deleted is so in the file system that its path leads to.  Opening and
describing find the same file, unless the initramfs has one with the same name: it is found first,
whatever is mounted over it.
-/

namespace PureCOS.Vfs

open State List

variable {σ : Type} {klog : Klog σ} {s s' : State σ} {r : Resolved σ} {path : List Char}
  {data : List Byte}

/-! ## Reading -/

section Reading

variable {i position : Nat} {h : Handle σ} {sizes : List Nat}

theorem getHandle_eq (hget : s.handles[i]? = some (some h)) :
    s.getHandle ((vfsFdBase : Int) + i) = some (i, h) := by
  have hindex : ((vfsFdBase : Int) + i - vfsFdBase).toNat = i := by omega
  unfold getHandle
  rw [if_neg (by omega)]
  simp only [hindex, hget]

/-- What a handle has still to be read. -/
def Remaining (s : State σ) (i : Nat) (data : List Byte) : Prop :=
  ∃ h, s.handles[i]? = some (some h) ∧
    match h.type with
    | .memory contents position => contents.drop position = data
    | .backend mount descriptor => mount.fs.left s.fs descriptor = some data
    | .klog _ => False

/-- One read takes some bytes off. -/
theorem read_remaining (klog : Klog σ) (hs : Remaining s i data) (n : Nat) :
    ∃ s' chunk rest, s.vfsRead klog ((vfsFdBase : Int) + i) n = (s', .ok chunk) ∧
      data = chunk ++ rest ∧ Remaining s' i rest ∧ (chunk = [] → n = 0 ∨ data = []) := by
  obtain ⟨h, hget, htype⟩ := hs
  unfold vfsRead
  rw [getHandle_eq hget]
  simp only
  cases hcase : h.type with
  | klog cursor =>
    rw [hcase] at htype
    exact htype.elim
  | backend mount descriptor =>
    rw [hcase] at htype
    obtain ⟨f, hread, hleft⟩ := mount.fs.read_left
    obtain ⟨chunk, rest, hchunk, hsplit, hrest, hempty⟩ := hleft s.fs descriptor n data htype
    refine ⟨{ s with fs := (f s.fs descriptor n).1 }, chunk, rest, ?_, hsplit,
      ⟨h, hget, ?_⟩, hempty⟩
    · simp only [hread, hchunk]
    · rw [hcase]
      exact hrest
  | memory contents position =>
    rw [hcase] at htype
    have hlt := (List.getElem?_eq_some_iff.mp hget).1
    refine ⟨_, _, data.drop n, rfl, ?_, ⟨_, List.getElem?_set_self hlt, ?_⟩, fun hempty => ?_⟩
    · rw [htype, take_append_drop]
    · simp only
      rw [← drop_drop, htype, length_take]
      rcases Nat.le_total n data.length with hle | hle
      · rw [Nat.min_eq_left hle]
      · rw [Nat.min_eq_right hle, drop_length, drop_eq_nil_of_le hle]
    · rw [htype] at hempty
      exact (take_eq_nil_iff.mp hempty)

/-- As many reads as there are bytes read them all. -/
theorem readAll_remaining (hs : Remaining s i data) (hpos : ∀ n ∈ sizes, 0 < n)
    (hlen : data.length ≤ sizes.length) : s.readAll klog ((vfsFdBase : Int) + i) sizes = data := by
  induction sizes generalizing s data with
  | nil => exact (eq_nil_of_length_eq_zero (Nat.le_zero.mp hlen)).symm
  | cons n sizes ih =>
    obtain ⟨s', chunk, rest, hread, rfl, hrest, hempty⟩ := read_remaining klog hs n
    have hn := hpos n mem_cons_self
    rw [readAll, hread]
    simp only
    rw [ih hrest (fun m hm => hpos m (mem_cons_of_mem _ hm))]
    rw [length_append, length_cons] at hlen
    cases chunk with
    | nil =>
      rcases hempty rfl with hzero | hnil
      · omega
      · rw [nil_append] at hnil
        rw [hnil]
        exact Nat.zero_le _
    | cons b chunk =>
      rw [length_cons] at hlen
      omega

end Reading

/-! ## Opening -/

section Opening

variable {memory : Bool}

/-- The index of a new handle is in the table. -/
theorem allocateHandle_lt {handles handles' : List (Option (Handle σ))} {i : Nat}
    (h : allocateHandle handles memory = .ok (handles', i)) : i < handles'.length := by
  unfold allocateHandle at h
  split at h
  next j hfind =>
    cases h
    exact (findIdx?_eq_some_iff_getElem.mp hfind).1
  · split at h
    · cases h
    next capacity hensure =>
    cases h
    have hlt : handles.length < capacity := by
      unfold handlesEnsure at hensure
      rw [if_neg (by omega)] at hensure
      have hle :=
        Nat.le_max_right (if handles.length = 0 then vfsHandleInitial
          else handles.length * 2) (handles.length + 1)
      simp only at hensure
      generalize max (if handles.length = 0 then vfsHandleInitial
        else handles.length * 2) (handles.length + 1) = grown at hensure hle
      split at hensure
      · cases hensure
      · cases hensure
        unfold handleSize
        omega
    rw [length_append, length_replicate]
    omega

/-- What `vfs_open` does: it fails, or a handle is in the table. -/
theorem vfsOpen_spec (hres : s.resolve path = .ok r) :
    (s.vfsOpen klog path memory).2 = fsErrorDenied ∨
      (s.vfsOpen klog path memory).2 = fsErrorNoSpace ∨
      (∃ status, (s.openAs klog r).2 = .error status ∧ (s.vfsOpen klog path memory).2 = status) ∨
      ∃ type i h, (s.openAs klog r).2 = .ok type ∧ (s.vfsOpen klog path memory).2 =
      (vfsFdBase : Int) + (i : Nat) ∧ (s.vfsOpen klog path memory).1.fs = (s.openAs klog r).1 ∧
      (s.vfsOpen klog path memory).1.handles[i]? = some (some h) ∧ h.type = type := by
  unfold vfsOpen
  rw [hres]
  simp only
  by_cases haccess : s.checkAccess r.path false permR < 0
  · left
    rw [if_pos haccess]
    unfold checkAccess at haccess ⊢
    split at haccess
    · exact absurd haccess (by decide)
    next hdenied => exact if_neg hdenied
  rw [if_neg haccess]
  cases halloc : allocateHandle s.handles memory with
  | error status =>
    right; left
    unfold allocateHandle at halloc
    split at halloc
    · cases halloc
    split at halloc
    · cases halloc
      rfl
    · cases halloc
  | ok r' =>
    obtain ⟨handles, i⟩ := r'
    have hlt := allocateHandle_lt halloc
    right; right
    cases hopen : (s.openAs klog r).2 with
    | error status => exact .inl ⟨status, rfl, rfl⟩
    | ok type =>
      exact .inr ⟨type, i, _, rfl, rfl, rfl, getElem?_set_self hlt, rfl⟩

/-- With a free handle and the right to read, `vfs_open` does what it can. -/
theorem vfsOpen_free (hres : s.resolve path = .ok r) (hroot : s.root = true)
    (hhandles : s.handles = [none]) {type : HandleType σ} (htype : (s.openAs klog r).2 = .ok type) :
    0 ≤ (s.vfsOpen klog path memory).2 := by
  unfold vfsOpen
  rw [hres]
  have haccess : s.checkAccess r.path false permR = 0 := by
    unfold checkAccess
    rw [hroot]
    rfl
  have halloc : allocateHandle s.handles memory = .ok ([none], 0) := by
    rw [hhandles]
    rfl
  simp only [haccess, halloc, htype, Int.lt_irrefl, if_false]
  decide

end Opening

/-! ## Files of a file system -/

section Files

variable {f : σ → List Char → σ × Int}

theorem openAs_overlay (klog : Klog σ) (hklog : isKlogPath r.path = false)
    (hoverlay : s.overlayFind r.path = some data) :
    s.openAs klog r = (s.fs, .ok (.memory data 0)) := by
  unfold openAs
  simp only [hklog, hoverlay]
  rfl

/-- Errors are negative. -/
theorem openAs_error {status : Int} (h : (s.openAs klog r).2 = .error status) : status < 0 := by
  unfold openAs at h
  split at h
  · cases h
  split at h
  · cases h
  split at h
  · cases h
  split at h
  · cases h
    decide
  split at h
  · dsimp only at h
    split at h
    next hneg =>
      cases h
      exact hneg
    · cases h
  · cases h
    decide

/-- Opening what is not there. -/
theorem openAs_none (klog : Klog σ) (hklog : isKlogPath r.path = false)
    (hoverlay : s.overlayFind r.path = none) (hready : r.mount.fs.ready s.fs = true)
    (hnode : r.mount.fs.node s.fs r.relative = none) :
    (s.openAs klog r).2 = .error fsErrorNotFound := by
  obtain ⟨f, hopen, hf⟩ := r.mount.fs.open_node
  have hmap : (r.mount.fs.map.bind fun f => f s.fs r.relative) = none := by
    cases hm : r.mount.fs.map with
    | none => rfl
    | some g =>
      cases hg : g s.fs r.relative with
      | none => exact hg
      | some x => cases hnode.symm.trans (r.mount.fs.map_node g hm _ _ _ hg)
  have hstatus := (hf s.fs r.relative).2 hnode
  have hneg : fsErrorNotFound < 0 := by decide
  unfold openAs mountReady
  simp only [hklog, hoverlay, hmap, hopen, hready, hstatus, if_pos hneg]
  rfl

/-- Opening a file that the initramfs does not have: what there is to be read is its contents. -/
theorem openAs_file (hklog : isKlogPath r.path = false)
    (hoverlay : s.overlayFind r.path = none) (hready : r.mount.fs.ready s.fs = true)
    (hnode : r.mount.fs.node s.fs r.relative = some (.file data)) {type : HandleType σ}
    (htype : (s.openAs klog r).2 = .ok type) :
    type = .memory data 0 ∨ ∃ descriptor, type = .backend r.mount descriptor ∧
      r.mount.fs.left (s.openAs klog r).1 descriptor = some data := by
  obtain ⟨f, hopen, hf⟩ := r.mount.fs.open_node
  cases hmap : r.mount.fs.map.bind fun f => f s.fs r.relative with
  | some x =>
    left
    obtain ⟨g, hm, hg⟩ := Option.bind_eq_some_iff.mp hmap
    cases hnode.symm.trans (r.mount.fs.map_node g hm _ _ _ hg)
    unfold openAs at htype
    simp only [hklog, hoverlay, hmap] at htype
    cases htype
    rfl
  | none =>
    right
    unfold openAs mountReady at htype ⊢
    simp only [hklog, hoverlay, hmap, hopen, hready, Bool.false_eq_true, if_false,
      if_true] at htype ⊢
    split at htype
    · cases htype
    next hstatus =>
      cases htype
      exact ⟨_, rfl, (hf s.fs r.relative).1 data hnode (Int.not_lt.mp hstatus)⟩

end Files

/-! ## Whole runs -/

section Runs

variable {events : List (Call σ)}

/-- What no call changes. -/
structure SameMounts (s s' : State σ) : Prop where
  mounts : s'.mounts = s.mounts
  initramfs : s'.initramfs = s.initramfs
  live : s'.live = s.live

theorem SameMounts.trans {s'' : State σ} (h : SameMounts s s') (h' : SameMounts s' s'') :
    SameMounts s s'' :=
  ⟨h'.mounts.trans h.mounts, h'.initramfs.trans h.initramfs, h'.live.trans h.live⟩

theorem SameMounts.resolve (h : SameMounts s s') : s'.resolve path = s.resolve path := by
  unfold State.resolve
  rw [h.mounts]

theorem SameMounts.overlayFind (h : SameMounts s s') :
    s'.overlayFind path = s.overlayFind path := by
  unfold State.overlayFind
  rw [h.initramfs]

theorem SameMounts.isVirtualDir (h : SameMounts s s') :
    s'.isVirtualDir path = s.isVirtualDir path := by
  unfold State.isVirtualDir
  rw [h.live]

theorem sameMounts_open {memory : Bool} : SameMounts s (s.vfsOpen klog path memory).1 := by
  unfold vfsOpen
  dsimp only
  repeat' split
  all_goals exact ⟨rfl, rfl, rfl⟩

theorem sameMounts_step (klog : Klog σ) (e : Call σ) : SameMounts s (s.step klog e).1 := by
  cases e with
  | openFile path memory => exact sameMounts_open
  | read descriptor count =>
    dsimp only [step]
    unfold vfsRead
    repeat' split
    all_goals exact ⟨rfl, rfl, rfl⟩
  | close descriptor =>
    dsimp only [step]
    unfold vfsClose
    repeat' split
    all_goals exact ⟨rfl, rfl, rfl⟩
  | writeFile path data =>
    dsimp only [step]
    unfold vfsWriteFile
    repeat' split
    all_goals exact ⟨rfl, rfl, rfl⟩
  | appendFile path data =>
    dsimp only [step]
    unfold vfsAppendFile
    repeat' split
    all_goals exact ⟨rfl, rfl, rfl⟩
  | createFile path =>
    dsimp only [step]
    unfold vfsCreateFile
    repeat' split
    all_goals exact ⟨rfl, rfl, rfl⟩
  | delete path =>
    dsimp only [step]
    unfold vfsDelete
    repeat' split
    all_goals exact ⟨rfl, rfl, rfl⟩
  | other fs handles root allowed => exact ⟨rfl, rfl, rfl⟩

/-- A file that is spared is the same at the end. -/
structure Spared (r : Resolved σ) (s s' : State σ) : Prop extends SameMounts s s' where
  node : r.mount.fs.node s'.fs r.relative = r.mount.fs.node s.fs r.relative
  ready : r.mount.fs.ready s'.fs = r.mount.fs.ready s.fs

theorem spared_run (h : Run.Along (step klog) (State.Spares klog r) s events) :
    Spared r s (Run.run (step klog) s events).1 := by
  induction events generalizing s with
  | nil => exact ⟨⟨rfl, rfl, rfl⟩, rfl, rfl⟩
  | cons e events ih =>
    have hrest := ih h.2
    have hfirst := h.1
    exact ⟨(sameMounts_step klog e).trans hrest.toSameMounts, hrest.node.trans hfirst.1,
      hrest.ready.trans hfirst.2⟩

end Runs

section Found

variable (hres : s.resolve path = .ok r) (hklog : isKlogPath r.path = false)

include hres hklog

/-- Describing a file that the initramfs does not have. -/
theorem vfsStat_file (hoverlay : s.overlayFind r.path = none)
    (hready : r.mount.fs.ready s.fs = true)
    (hnode : r.mount.fs.node s.fs r.relative = some (.file data)) :
    s.vfsStat klog path = .ok ⟨data.length, false⟩ := by
  obtain ⟨f, hstat, hf⟩ := r.mount.fs.stat_node
  unfold vfsStat mountReady
  simp only [hres, hklog, hoverlay, hstat, hready, (hf s.fs r.relative).1 data hnode]
  rfl

theorem vfsStat_overlay (hoverlay : s.overlayFind r.path = some data) :
    s.vfsStat klog path = .ok ⟨data.length, false⟩ := by
  unfold vfsStat
  simp only [hres, hklog, hoverlay]
  rfl

/-- Describing what is not there. -/
theorem vfsStat_none (hoverlay : s.overlayFind r.path = none)
    (hready : r.mount.fs.ready s.fs = true) (hnode : r.mount.fs.node s.fs r.relative = none) :
    s.vfsStat klog path = if s.isVirtualDir r.path then .ok ⟨0, true⟩
      else .error fsErrorNotFound := by
  obtain ⟨f, hstat, hf⟩ := r.mount.fs.stat_node
  unfold vfsStat mountReady
  simp only [hres, hklog, hoverlay, hstat, hready, (hf s.fs r.relative).2 hnode]
  rfl

/-- A file in its file system is found, unless the initramfs has another one of this name. -/
theorem readsBack_of_node (hready : r.mount.fs.ready s.fs = true)
    (hnode : r.mount.fs.node s.fs r.relative = some (.file data))
    (hoverlay : s.overlayFind r.path = none ∨ s.overlayFind r.path = some data) :
    s.ReadsBack klog path data := by
  constructor
  · rcases hoverlay with hnone | hsome
    · exact vfsStat_file hres hklog hnone hready hnode
    · exact vfsStat_overlay hres hklog hsome
  intro memory hopen sizes hlen hpos
  rcases vfsOpen_spec hres with hdenied | hspace | ⟨status, herror, hstatus⟩ |
    ⟨type, i, h, htype, hfd, hfs, hget, hh⟩
  · exact absurd (hdenied ▸ hopen) (by decide)
  · exact absurd (hspace ▸ hopen) (by decide)
  · exact absurd (hstatus ▸ hopen) (Int.not_le.mpr (openAs_error herror))
  rw [hfd]
  refine readAll_remaining ⟨h, hget, ?_⟩ hpos hlen
  rw [hh]
  rcases hoverlay with hnone | hsome
  · rcases openAs_file hklog hnone hready hnode htype with rfl | ⟨descriptor, rfl, hleft⟩
    · rfl
    · rw [hfs]
      exact hleft
  · rw [openAs_overlay klog hklog hsome] at htype
    cases htype
    rfl

/--
What is not in the file system is not found, unless the initramfs has it or a directory is made up.
-/
theorem notThere_of_node (hready : r.mount.fs.ready s.fs = true)
    (hnode : r.mount.fs.node s.fs r.relative = none) (hoverlay : s.overlayFind r.path = none)
    (hvirtual : s.isVirtualDir r.path = false) : s.NotThere klog path := by
  constructor
  · rw [vfsStat_none hres hklog hoverlay hready hnode, hvirtual]
    rfl
  intro memory
  have hnone := openAs_none klog hklog hoverlay hready hnode
  rcases vfsOpen_spec hres with hdenied | hspace | ⟨status, herror, hstatus⟩ |
    ⟨type, i, h, htype, -⟩
  · exact .inr (.inl hdenied)
  · exact .inr (.inr hspace)
  · cases hnone.symm.trans herror
    exact .inl hstatus
  · cases hnone.symm.trans htype

end Found

/-! ## Writing and deleting -/

theorem sameMounts_writeFile : SameMounts s (s.vfsWriteFile klog path data).1 :=
  sameMounts_step klog (.writeFile path data)

theorem sameMounts_delete (klog : Klog σ) : SameMounts s (s.vfsDelete path).1 :=
  sameMounts_step klog (.delete path)

theorem ready_of_checkMutation {mount : Mount (FileSystem σ)} {op : Bool}
    (h : ¬s.checkMutation mount op < 0) : mount.fs.ready s.fs = true := by
  unfold checkMutation at h
  split at h
  · exact absurd (by decide) h
  split at h
  · exact absurd (by decide) h
  next hready =>
    rw [Bool.or_eq_true, not_or, Bool.not_eq_true', Bool.not_eq_true', Bool.not_eq_false] at hready
    exact Bool.not_eq_false _ ▸ hready.2

/-- A write that succeeds. -/
theorem vfsWriteFile_ok (hres : s.resolve path = .ok r) (hklog : isKlogPath r.path = false)
    (h : 0 ≤ (s.vfsWriteFile klog path data).2) :
    SameMounts s (s.vfsWriteFile klog path data).1 ∧
      r.mount.fs.node (s.vfsWriteFile klog path data).1.fs r.relative = some (.file data) ∧
      r.mount.fs.ready (s.vfsWriteFile klog path data).1.fs = true := by
  refine ⟨sameMounts_writeFile, ?_⟩
  unfold vfsWriteFile at h ⊢
  simp only [hres, hklog, Bool.false_eq_true, if_false] at h ⊢
  by_cases hmut : s.checkMutation r.mount r.mount.fs.writeFile.isSome < 0
  · rw [if_pos hmut] at h
    exact absurd h (Int.not_le.mpr hmut)
  rw [if_neg hmut] at h ⊢
  by_cases htarget : s.checkWriteTarget r < 0
  · rw [if_pos htarget] at h
    exact absurd h (Int.not_le.mpr htarget)
  rw [if_neg htarget] at h ⊢
  cases hwrite : r.mount.fs.writeFile with
  | none =>
    rw [hwrite] at h
    exact absurd (show 0 ≤ fsErrorUnsupported from h) (by decide)
  | some f =>
    rw [hwrite] at h
    obtain ⟨hnode, hready⟩ := r.mount.fs.write_node f hwrite s.fs r.relative data h
    exact ⟨hnode, hready.trans (ready_of_checkMutation hmut)⟩

/-- A deletion that succeeds. -/
theorem vfsDelete_ok (klog : Klog σ) (hres : s.resolve path = .ok r)
    (h : 0 ≤ (s.vfsDelete path).2) :
    SameMounts s (s.vfsDelete path).1 ∧ r.mount.fs.node (s.vfsDelete path).1.fs r.relative = none ∧
      r.mount.fs.ready (s.vfsDelete path).1.fs = true := by
  refine ⟨sameMounts_delete klog, ?_⟩
  unfold vfsDelete at h ⊢
  simp only [hres] at h ⊢
  split at h
  · exact absurd (show 0 ≤ fsErrorBusy from h) (by decide)
  next hat =>
  rw [if_neg hat]
  by_cases hmut : s.checkMutation r.mount r.mount.fs.unlink.isSome < 0
  · rw [if_pos hmut] at h
    exact absurd h (Int.not_le.mpr hmut)
  rw [if_neg hmut] at h ⊢
  by_cases hparent : s.checkParentWrite r.path < 0
  · rw [if_pos hparent] at h
    exact absurd h (Int.not_le.mpr hparent)
  rw [if_neg hparent] at h ⊢
  cases hunlink : r.mount.fs.unlink with
  | none =>
    rw [hunlink] at h
    exact absurd (show 0 ≤ fsErrorUnsupported from h) (by decide)
  | some f =>
    rw [hunlink] at h
    obtain ⟨hnode, hready⟩ := r.mount.fs.unlink_node f hunlink s.fs r.relative h
    exact ⟨hnode, hready.trans (ready_of_checkMutation hmut)⟩

/-- A state in which a handle is free and everything is allowed. -/
def State.opened (s : State σ) : Call σ := .other s.fs [none] true fun _ _ _ => true

theorem spares_opened : State.Spares klog r s s.opened := ⟨rfl, rfl⟩

/--
After a file has been written, it has these contents until it is changed again, exactly if the
initramfs has no file of this name, or one with the same contents; and after it has been deleted it
is not there, exactly if the initramfs has no file of this name and no directory of this name is
made up.
-/
theorem reads_back_iff (klog : Klog σ) (s : State σ) (path : List Char) (r : Resolved σ)
    (hres : s.resolve path = .ok r) (hklog : isKlogPath r.path = false) :
    (∀ data, 0 ≤ (s.vfsWriteFile klog path data).2 →
      ((∀ events,
          Run.Along (step klog) (State.Spares klog r) (s.vfsWriteFile klog path data).1 events →
          (Run.run (step klog) (s.vfsWriteFile klog path data).1 events).1.ReadsBack klog path
            data) ↔
        s.overlayFind r.path = none ∨ s.overlayFind r.path = some data)) ∧
    (0 ≤ (s.vfsDelete path).2 →
      ((∀ events, Run.Along (step klog) (State.Spares klog r) (s.vfsDelete path).1 events →
          (Run.run (step klog) (s.vfsDelete path).1 events).1.NotThere klog path) ↔
        s.overlayFind r.path = none ∧ s.isVirtualDir r.path = false)) := by
  constructor
  · intro data hwrite
    obtain ⟨hsame, hnode, hready⟩ := vfsWriteFile_ok hres hklog hwrite
    generalize (s.vfsWriteFile klog path data).1 = s₁ at hsame hnode hready
    constructor
    · intro hreads
      cases hoverlay : s.overlayFind r.path with
      | none => exact .inl rfl
      | some found =>
        -- a handle in a state in which nothing keeps it from being opened reads what was found
        right
        obtain ⟨-, hopen⟩ := hreads [s₁.opened] ⟨spares_opened, trivial⟩
        have hsame₂ : SameMounts s (Run.run (step klog) s₁ [s₁.opened]).1 :=
          hsame.trans ⟨rfl, rfl, rfl⟩
        have hres₂ := hsame₂.resolve.trans hres
        have hoverlay₂ := hsame₂.overlayFind.trans hoverlay
        generalize hs₂ : (Run.run (step klog) s₁ [s₁.opened]).1 = s₂ at hopen hres₂ hoverlay₂
        have has := openAs_overlay klog hklog hoverlay₂
        have hfd : 0 ≤ (s₂.vfsOpen klog path true).2 :=
          vfsOpen_free hres₂ (by rw [← hs₂]; rfl) (by rw [← hs₂]; rfl) (by rw [has])
        obtain ⟨type, i, h, htype, hfdEq, -, hget, hh⟩ :
            ∃ type i h, (s₂.openAs klog r).2 = .ok type ∧
              (s₂.vfsOpen klog path true).2 = (vfsFdBase : Int) + (i : Nat) ∧
              (s₂.vfsOpen klog path true).1.fs = (s₂.openAs klog r).1 ∧
              (s₂.vfsOpen klog path true).1.handles[i]? = some (some h) ∧ h.type = type := by
          rcases vfsOpen_spec hres₂ with hdenied | hspace | ⟨status, herror, -⟩ | hok
          · exact absurd (hdenied ▸ hfd) (by decide)
          · exact absurd (hspace ▸ hfd) (by decide)
          · rw [has] at herror
            cases herror
          · exact hok
        rw [has] at htype
        have hremaining : Remaining (s₂.vfsOpen klog path true).1 i found := by
          refine ⟨h, hget, ?_⟩
          rw [hh, ← Except.ok.inj htype]
          rfl
        have hread := hopen true hfd (replicate (data.length + found.length) 1)
          (by rw [length_replicate]; omega) (fun n hn => by rw [eq_of_mem_replicate hn]; decide)
        rw [hfdEq, readAll_remaining hremaining (fun n hn => by rw [eq_of_mem_replicate hn]; decide)
          (by rw [length_replicate]; omega)] at hread
        rw [hread]
    · intro hoverlay events hspares
      have hspared := spared_run hspares
      have hsame₂ := hsame.trans hspared.toSameMounts
      refine readsBack_of_node (hsame₂.resolve.trans hres) hklog (hspared.ready.trans hready)
        (hspared.node.trans hnode) ?_
      rw [hsame₂.overlayFind]
      exact hoverlay
  · intro hdelete
    obtain ⟨hsame, hnode, hready⟩ := vfsDelete_ok klog hres hdelete
    generalize (s.vfsDelete path).1 = s₁ at hsame hnode hready
    constructor
    · intro hmissing
      obtain ⟨hstat, -⟩ := hmissing [] trivial
      have hstat : s₁.vfsStat klog path = .error fsErrorNotFound := hstat
      have hres₁ := hsame.resolve.trans hres
      cases hoverlay : s.overlayFind r.path with
      | some found =>
        rw [vfsStat_overlay hres₁ hklog (hsame.overlayFind.trans hoverlay)] at hstat
        cases hstat
      | none =>
        refine ⟨rfl, ?_⟩
        rw [vfsStat_none hres₁ hklog (hsame.overlayFind.trans hoverlay) hready hnode,
          hsame.isVirtualDir] at hstat
        split at hstat
        · cases hstat
        next hvirtual => exact Bool.eq_false_iff.mpr hvirtual
    · rintro ⟨hoverlay, hvirtual⟩ events hspares
      have hspared := spared_run hspares
      have hsame₂ := hsame.trans hspared.toSameMounts
      exact notThere_of_node (hsame₂.resolve.trans hres) hklog
        (hspared.ready.trans hready) (hspared.node.trans hnode) (hsame₂.overlayFind.trans hoverlay)
        (hsame₂.isVirtualDir.trans hvirtual)

/-! ## A file system -/

/-- Files, and what the open ones have still to be read. -/
structure Disk where
  files : List (List Char × List Byte)
  opened : List (List Byte)

namespace Disk

variable (disk : Disk) (path : List Char)

def find : Option (List Byte) := disk.files.lookup path

def write (data : List Byte) : Disk × Int :=
  ({ disk with files := (path, data) :: disk.files }, 0)

def unlink : Disk × Int :=
  ({ disk with files := disk.files.filter (·.1 != path) }, if (disk.find path).isSome then 0
    else fsErrorNotFound)

def stat : Except Int FileStat :=
  match disk.find path with
  | none => .error fsErrorNotFound
  | some data => .ok ⟨data.length, false⟩

def openFile : Disk × Int :=
  match disk.find path with
  | none => (disk, fsErrorNotFound)
  | some data => ({ disk with opened := disk.opened ++ [data] }, disk.opened.length)

def left (descriptor : Int) : Option (List Byte) := disk.opened[descriptor.toNat]?

def read (descriptor : Int) (n : Nat) : Disk × Except Int (List Byte) :=
  match disk.left descriptor with
  | none => (disk, .error fsErrorInvalid)
  | some data =>
    ({ disk with opened := disk.opened.set descriptor.toNat (data.drop n) }, .ok (data.take n))

theorem find_unlink : (disk.unlink path).1.find path = none := by
  refine lookup_eq_none_iff.mpr fun entry hentry => ?_
  rw [bne_comm]
  exact (mem_filter.mp hentry).2

theorem left_read (descriptor : Int) (n : Nat) (data : List Byte)
    (h : disk.left descriptor = some data) : (disk.read descriptor n).2 = .ok (data.take n) ∧
    (disk.read descriptor n).1.left descriptor = some (data.drop n) := by
  unfold read
  rw [h]
  exact ⟨rfl, List.getElem?_set_self (List.getElem?_eq_some_iff.mp h).1⟩

theorem left_openFile (data : List Byte) (h : disk.find path = some data) :
    (disk.openFile path).1.left (disk.openFile path).2 = some data := by
  unfold openFile
  rw [h]
  exact getElem?_concat_length

/-- As a file system that can be mounted. -/
def fileSystem : FileSystem Disk where
  map := none
  openFile := some openFile
  read := some read
  close := none
  stat := some stat
  createFile := none
  unlink := some unlink
  writeFile := some write
  appendFile := none
  isReady := none
  node := fun disk path => (disk.find path).map .file
  left := left
  map_node := nofun
  stat_node := by
    refine ⟨stat, rfl, fun disk path => ?_⟩
    unfold stat
    cases disk.find path with
    | none => exact ⟨nofun, fun _ => rfl⟩
    | some found =>
      refine ⟨fun data hdata => ?_, nofun⟩
      cases hdata
      rfl
  open_node := by
    refine ⟨openFile, rfl, fun disk path => ⟨fun data hdata _ => ?_, fun hnone => ?_⟩⟩
    · obtain ⟨found, hfound, hfile⟩ := Option.map_eq_some_iff.mp hdata
      rw [← Node.file.inj hfile]
      exact left_openFile disk path found hfound
    · unfold openFile
      rw [Option.map_eq_none_iff.mp hnone]
  read_left := by
    refine ⟨read, rfl, fun disk descriptor n data hleft => ?_⟩
    obtain ⟨hchunk, hrest⟩ := left_read disk descriptor n data hleft
    exact ⟨data.take n, data.drop n, hchunk, (take_append_drop n data).symm, hrest,
      take_eq_nil_iff.mp⟩
  write_node := by
    rintro f hf disk path data -
    cases hf
    refine ⟨?_, rfl⟩
    unfold find write
    rw [lookup_cons_self]
    rfl
  unlink_node := by
    rintro f hf disk path -
    cases hf
    refine ⟨?_, rfl⟩
    rw [find_unlink]
    rfl

/-- A log with nothing in it. -/
def emptyLog : Klog Disk where
  totalBytes := fun _ => 0
  readSince := fun _ cursor _ => ([], cursor)
  write := fun disk _ _ => (disk, fsErrorUnsupported)

/-- The disk that is mounted at the root. -/
def mounted : Mount (FileSystem Disk) := ⟨['/'], "disk".toList, fileSystem, 0⟩

/-- The initramfs has been mounted with one file, and then a disk at the root. -/
def booted (name : String) : State Disk where
  fs := ⟨[], []⟩
  mounts := [some mounted]
  initramfs := some [⟨pathHash name.toList, name.length, [1, 2, 3]⟩]
  live := false
  handles := [none]
  root := true
  allowed := fun _ _ _ => true

/-- `/etc/hostname` on the disk -/
def hostname : Resolved Disk := ⟨mounted, "/etc/hostname".toList, "/etc/hostname".toList⟩

end Disk

open Disk in
/-- A file that the initramfs does not have. -/
theorem reads_back_iff_hostname :
    (booted "etc/motd").resolve "/etc/hostname".toList = .ok hostname ∧
      isKlogPath hostname.path = false ∧
      (∀ events, Run.Along (step emptyLog) (State.Spares emptyLog hostname)
          ((booted "etc/motd").vfsWriteFile emptyLog "/etc/hostname".toList [7]).1 events →
        (Run.run (step emptyLog)
          ((booted "etc/motd").vfsWriteFile emptyLog "/etc/hostname".toList [7]).1
          events).1.ReadsBack emptyLog "/etc/hostname".toList [7]) := by
  have hres : (booted "etc/motd").resolve "/etc/hostname".toList = .ok hostname := by rfl
  have hwrite : 0 ≤ ((booted "etc/motd").vfsWriteFile emptyLog "/etc/hostname".toList [7]).2 := by
    decide
  have hoverlay : (booted "etc/motd").overlayFind hostname.path = none := by decide
  exact ⟨hres, by decide, ((reads_back_iff emptyLog (booted "etc/motd") "/etc/hostname".toList
    hostname hres (by decide)).1 [7] hwrite).mpr (.inl hoverlay)⟩

open Disk in
/-- Whatever happens to the disk, the initramfs still has its file. -/
theorem vfsStat_hostname {s : State Disk} (hs : SameMounts (booted "etc/hostname") s) :
    s.vfsStat emptyLog "/etc/hostname".toList = .ok ⟨3, false⟩ := by
  have hres : (booted "etc/hostname").resolve "/etc/hostname".toList = .ok hostname := by rfl
  have hoverlay : (booted "etc/hostname").overlayFind hostname.path = some [1, 2, 3] := by decide
  exact vfsStat_overlay (hs.resolve.trans hres) (by decide) (hs.overlayFind.trans hoverlay)

open Disk in
/-- A file that the initramfs has: neither writing nor deleting it on the disk is seen. -/
theorem initramfs_hides_file :
    let s := booted "etc/hostname"
    let path := "/etc/hostname".toList
    let written := s.vfsWriteFile emptyLog path [7]
    let deleted := written.1.vfsDelete path
    isKlogPath path = false ∧ 0 ≤ written.2 ∧ ¬written.1.ReadsBack emptyLog path [7] ∧
      0 ≤ deleted.2 ∧ ¬deleted.1.NotThere emptyLog path := by
  intro s path written deleted
  have hwritten : SameMounts s written.1 := sameMounts_writeFile
  have hdeleted : SameMounts s deleted.1 := hwritten.trans (sameMounts_delete emptyLog)
  refine ⟨by decide, by decide, fun hreads => ?_, by decide +kernel, fun hmissing => ?_⟩
  · exact absurd ((vfsStat_hostname hwritten).symm.trans hreads.1) (by simp)
  · exact absurd ((vfsStat_hostname hdeleted).symm.trans hmissing.1) (by simp)

end PureCOS.Vfs
