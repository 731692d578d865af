import PureCOS.Lib.Bytes
import PureCOS.Lib.Run
import PureCOS.Vfs.Alias
import PureCOS.Vfs.Mount

/-!
# Files

`fs/vfs.c`: the calls that open, read, describe, write and delete files.  Writing and deleting go to
the file system that is mounted where the path is; opening and describing look first at the kernel
log, then for the path in the initramfs, and for opening at what the file system has mapped.

File systems are given by their operations on a common state.  Permissions and the log are part of
the environment, and so are all other users of the calls.  The table of mounts has been set up, so
`ensure_mounts` has nothing left to do.  Handles that `vfs_open_flags` makes for writing are left
out.
-/

namespace PureCOS.Vfs

/-! ## File systems -/

/-- `struct file_stat_info` -/
structure FileStat where
  size : Nat
  isDirectory : Bool

/--
`struct vfs_fs_ops` with its context, as far as it is used here; `σ` is the state of all file
systems.
-/
structure FsOps (σ : Type) where
  map : Option (σ → List Char → Option (List Byte))
  openFile : Option (σ → List Char → σ × Int)
  read : Option (σ → Int → Nat → σ × Except Int (List Byte))
  close : Option (σ → Int → σ × Int)
  stat : Option (σ → List Char → Except Int FileStat)
  createFile : Option (σ → List Char → σ × Int)
  unlink : Option (σ → List Char → σ × Int)
  writeFile : Option (σ → List Char → List Byte → σ × Int)
  appendFile : Option (σ → List Char → List Byte → σ × Int)
  isReady : Option (σ → Bool)

/-- A file system is there. -/
def FsOps.ready {σ : Type} (ops : FsOps σ) (fs : σ) : Bool :=
  (ops.isReady.map fun f => f fs).getD true

/-- What a file system has at a path. -/
inductive Node where
  | file (data : List Byte)
  | directory

/--
A file system that returns what was written last.  `node` is what it has at a path, and `left` what
an open file has still to be read.
-/
structure FileSystem (σ : Type) extends FsOps σ where
  node : σ → List Char → Option Node
  left : σ → Int → Option (List Byte)
  map_node : ∀ f, map = some f → ∀ fs path data, f fs path = some data →
    node fs path = some (.file data)
  stat_node : ∃ f, stat = some f ∧ ∀ fs path,
    (∀ data, node fs path = some (.file data) → f fs path = .ok ⟨data.length, false⟩) ∧
      (node fs path = none → f fs path = .error fsErrorNotFound)
  open_node : ∃ f, openFile = some f ∧ ∀ fs path,
    (∀ data, node fs path = some (.file data) → 0 ≤ (f fs path).2 →
      left (f fs path).1 (f fs path).2 = some data) ∧
      (node fs path = none → (f fs path).2 = fsErrorNotFound)
  read_left : ∃ f, read = some f ∧ ∀ fs descriptor n data, left fs descriptor = some data →
    ∃ chunk rest, (f fs descriptor n).2 = .ok chunk ∧ data = chunk ++ rest ∧
      left (f fs descriptor n).1 descriptor = some rest ∧ (chunk = [] → n = 0 ∨ data = [])
  write_node : ∀ f, writeFile = some f → ∀ fs path data, 0 ≤ (f fs path data).2 →
    node (f fs path data).1 path = some (.file data) ∧
    toFsOps.ready (f fs path data).1 = toFsOps.ready fs
  unlink_node : ∀ f, unlink = some f → ∀ fs path, 0 ≤ (f fs path).2 →
    node (f fs path).1 path = none ∧ toFsOps.ready (f fs path).1 = toFsOps.ready fs

/-! ## The initramfs -/

structure InitramfsEntry where
  pathHash : BitVec 64
  pathLength : Nat
  data : List Byte

def pathHash (path : List Char) : BitVec 64 :=
  path.foldl (fun hash c => (hash ^^^ BitVec.ofNat 64 (c.toNat % 256)) * 1099511628211)
    1469598103934665603

/-- `initramfs_find` in the index of the archive. -/
def initramfsFind (index : List InitramfsEntry) (path : List Char) : Option (List Byte) :=
  let path := path.dropWhile (· == '/')
  (index.find? fun e => e.pathLength == path.length && e.pathHash == pathHash path).map
    InitramfsEntry.data

/-! ## State -/

/-- What a handle stands for. -/
inductive HandleType (σ : Type) where
  | backend (mount : Mount (FileSystem σ)) (descriptor : Int)
  | memory (data : List Byte) (position : Nat)
  | klog (cursor : Nat)

structure Handle (σ : Type) where
  type : HandleType σ
  refs : Nat
  path : List Char

/-- The kernel log, as far as the calls use it. -/
structure Klog (σ : Type) where
  totalBytes : σ → Nat
  readSince : σ → Nat → Nat → List Byte × Nat
  write : σ → List Char → List Byte → σ × Int

/--
The state of the file systems, mounts, the index of the initramfs if it is mounted, `live_mode`,
handles, whether the caller is root, and what permissions say.
-/
structure State (σ : Type) where
  fs : σ
  mounts : Slots (FileSystem σ)
  initramfs : Option (List InitramfsEntry)
  live : Bool
  handles : List (Option (Handle σ))
  root : Bool
  allowed : List Char → Bool → Nat → Bool

variable {σ : Type}

structure Resolved (σ : Type) where
  mount : Mount (FileSystem σ)
  relative : List Char
  path : List Char

namespace State

def resolve (s : State σ) (input : List Char) : Except Int (Resolved σ) :=
  if input = [] then
    .error fsErrorInvalid
  else if input.head? ≠ some '/' ∧ vfsPathMax < input.length + 2 then
    .error fsErrorInvalid
  else
    match vfsAliasResolve (if input.head? = some '/' then input else '/' :: input) vfsPathMax with
    | none => .error fsErrorInvalid
    | some path =>
      match vfsMountFind s.mounts path 2 with
      | none => .error fsErrorNotFound
      | some (mount, relative) => .ok ⟨mount, relative, path⟩

def virtualDirs : List (List Char) :=
  ["/mnt".toList, "/opt".toList, "/srv".toList, "/usr/local".toList, "/usr/local/bin".toList,
    "/lost+found".toList]

def isVirtualDir (s : State σ) (path : List Char) : Bool := s.live && virtualDirs.contains path

/-- `VFS_PERM_R` and `VFS_PERM_W` -/
def permR : Nat := 4

def permW : Nat := 2

def checkAccess (s : State σ) (path : List Char) (directory : Bool) (want : Nat) : Int :=
  if s.root || s.allowed path directory want then 0 else fsErrorDenied

def parentOf (path : List Char) : List Char :=
  match (path.reverse.dropWhile (· == '/')).dropWhile (· != '/') with
  | [] => ['/']
  | [_] => ['/']
  | _ :: rest => rest.reverse

def checkParentWrite (s : State σ) (path : List Char) : Int :=
  s.checkAccess (parentOf path) true permW

def mountReady (s : State σ) (mount : Mount (FileSystem σ)) : Bool := mount.fs.ready s.fs

def pathExists (s : State σ) (r : Resolved σ) : Bool :=
  match r.mount.fs.stat with
  | none => false
  | some f => s.mountReady r.mount && (f s.fs r.relative).isOk

def checkWriteTarget (s : State σ) (r : Resolved σ) : Int :=
  if s.root then 0
  else if s.pathExists r then s.checkAccess r.path false permW
  else s.checkParentWrite r.path

/-- `VFS_MOUNT_READ_ONLY` -/
def readOnly (mount : Mount (FileSystem σ)) : Bool := mount.flags % 2 == 1

def checkMutation (s : State σ) (mount : Mount (FileSystem σ)) (op : Bool) : Int :=
  if readOnly mount then fsErrorReadOnly
  else if !op || !s.mountReady mount then fsErrorUnsupported
  else 0

def isKlogPath (path : List Char) : Bool :=
  path == "/kernel.log".toList || path == "/dmesg.txt".toList

def overlayFind (s : State σ) (path : List Char) : Option (List Byte) :=
  match s.initramfs with
  | none => none
  | some index => initramfsFind index path

/-! ## Handles -/

def vfsFdBase : Nat := 3
def vfsHandleInitial : Nat := 32

/-- `sizeof(struct vfs_handle)` -/
def handleSize : Nat := 568

def vfsKlogWindow : Nat := 8 * 1024 * 1024

/-- `handles_ensure`: the new capacity, if there is memory for it. -/
def handlesEnsure (capacity want : Nat) (memory : Bool) : Option Nat :=
  if want < capacity then
    some capacity
  else
    let grown := max (if capacity = 0 then vfsHandleInitial else capacity * 2) want
    if 2 ^ 20 < grown ∨ memory = false then none
    else some ((grown * handleSize + 4095) / 4096 * 4096 / handleSize)

/-- `allocate_handle`: the table with room, and the index. -/
def allocateHandle (handles : List (Option (Handle σ))) (memory : Bool) :
    Except Int (List (Option (Handle σ)) × Nat) :=
  match handles.findIdx? (·.isNone) with
  | some i => .ok (handles, i)
  | none =>
    match handlesEnsure handles.length (handles.length + 1) memory with
    | none => .error fsErrorNoSpace
    | some capacity =>
      .ok (handles ++ List.replicate (capacity - handles.length) none, handles.length)

/-- `get_handle`: the index of a handle in use. -/
def getHandle (s : State σ) (descriptor : Int) : Option (Nat × Handle σ) :=
  if descriptor < vfsFdBase then
    none
  else
    let i := (descriptor - vfsFdBase).toNat
    match s.handles[i]? with
    | some (some h) => some (i, h)
    | _ => none

/-! ## Calls -/

variable (klog : Klog σ)

/--
What `vfs_open` puts into a handle: the kernel log, the overlay, what is mapped, or an open file.
-/
def openAs (s : State σ) (r : Resolved σ) : σ × Except Int (HandleType σ) :=
  if isKlogPath r.path then
    let total := klog.totalBytes s.fs
    (s.fs, .ok (.klog (if vfsKlogWindow < total then total - vfsKlogWindow else 0)))
  else
    match s.overlayFind r.path with
    | some data => (s.fs, .ok (.memory data 0))
    | none =>
      match r.mount.fs.map.bind fun f => f s.fs r.relative with
      | some data => (s.fs, .ok (.memory data 0))
      | none =>
        match r.mount.fs.openFile with
        | none => (s.fs, .error fsErrorNotFound)
        | some f =>
          if s.mountReady r.mount then
            let o := f s.fs r.relative
            (o.1, if o.2 < 0 then .error o.2 else .ok (.backend r.mount o.2))
          else
            (s.fs, .error fsErrorNotFound)

def vfsOpen (s : State σ) (path : List Char) (memory : Bool) : State σ × Int :=
  match s.resolve path with
  | .error status => (s, status)
  | .ok r =>
    if s.checkAccess r.path false permR < 0 then
      (s, s.checkAccess r.path false permR)
    else
      match allocateHandle s.handles memory with
      | .error status => (s, status)
      | .ok (handles, i) =>
        let o := s.openAs klog r
        match o.2 with
        | .error status => ({ s with fs := o.1, handles := handles.set i none }, status)
        | .ok type =>
          ({ s with
            fs := o.1
            handles := handles.set i (some ⟨type, 1, r.path.take (vfsPathMax - 1)⟩) },
            vfsFdBase + i)

/-- `vfs_read`: the bytes, or a status. -/
def vfsRead (s : State σ) (descriptor : Int) (count : Nat) : State σ × Except Int (List Byte) :=
  match s.getHandle descriptor with
  | none => (s, .error fsErrorInvalid)
  | some (i, h) =>
    match h.type with
    | .backend mount backend =>
      match mount.fs.read with
      | none => (s, .error fsErrorUnsupported)
      | some f => ({ s with fs := (f s.fs backend count).1 }, (f s.fs backend count).2)
    | .klog cursor =>
      let r := klog.readSince s.fs cursor count
      ({ s with handles := s.handles.set i (some { h with type := .klog r.2 }) }, .ok r.1)
    | .memory data position =>
      let chunk := (data.drop position).take count
      ({ s with handles := s.handles.set i (some
          { h with type := .memory data (position + chunk.length) }) }, .ok chunk)

def vfsClose (s : State σ) (descriptor : Int) : State σ × Int :=
  match s.getHandle descriptor with
  | none => (s, fsErrorInvalid)
  | some (i, h) =>
    if 1 < h.refs then
      ({ s with handles := s.handles.set i (some { h with refs := h.refs - 1 }) }, 0)
    else
      match h.type with
      | .backend mount backend =>
        match mount.fs.close with
        | none => ({ s with handles := s.handles.set i none }, 0)
        | some f =>
          ({ s with fs := (f s.fs backend).1, handles := s.handles.set i none }, (f s.fs backend).2)
      | _ => ({ s with handles := s.handles.set i none }, 0)

def vfsStat (s : State σ) (path : List Char) : Except Int FileStat :=
  match s.resolve path with
  | .error status => .error status
  | .ok r =>
    if isKlogPath r.path then
      .ok ⟨klog.totalBytes s.fs, false⟩
    else
      match s.overlayFind r.path with
      | some data => .ok ⟨data.length, false⟩
      | none =>
        let result : Except Int FileStat :=
          match r.mount.fs.stat with
          | none => .error fsErrorNotFound
          | some f => if s.mountReady r.mount then f s.fs r.relative else .error fsErrorNotFound
        match result with
        | .ok info => .ok info
        | .error status => if s.isVirtualDir r.path then .ok ⟨0, true⟩ else .error status

def vfsDelete (s : State σ) (path : List Char) : State σ × Int :=
  match s.resolve path with
  | .error status => (s, status)
  | .ok r =>
    if (vfsMountAt s.mounts r.path).isSome then
      (s, fsErrorBusy)
    else if s.checkMutation r.mount r.mount.fs.unlink.isSome < 0 then
      (s, s.checkMutation r.mount r.mount.fs.unlink.isSome)
    else if s.checkParentWrite r.path < 0 then
      (s, s.checkParentWrite r.path)
    else
      match r.mount.fs.unlink with
      | none => (s, fsErrorUnsupported)
      | some f => ({ s with fs := (f s.fs r.relative).1 }, (f s.fs r.relative).2)

def vfsWriteFile (s : State σ) (path : List Char) (data : List Byte) : State σ × Int :=
  match s.resolve path with
  | .error status => (s, status)
  | .ok r =>
    if isKlogPath r.path then
      ({ s with fs := (klog.write s.fs r.path data).1 }, (klog.write s.fs r.path data).2)
    else if s.checkMutation r.mount r.mount.fs.writeFile.isSome < 0 then
      (s, s.checkMutation r.mount r.mount.fs.writeFile.isSome)
    else if s.checkWriteTarget r < 0 then
      (s, s.checkWriteTarget r)
    else
      match r.mount.fs.writeFile with
      | none => (s, fsErrorUnsupported)
      | some f => ({ s with fs := (f s.fs r.relative data).1 }, (f s.fs r.relative data).2)

def vfsAppendFile (s : State σ) (path : List Char) (data : List Byte) : State σ × Int :=
  match s.resolve path with
  | .error status => (s, status)
  | .ok r =>
    if isKlogPath r.path then
      ({ s with fs := (klog.write s.fs r.path data).1 }, data.length)
    else if s.checkMutation r.mount r.mount.fs.appendFile.isSome < 0 then
      (s, s.checkMutation r.mount r.mount.fs.appendFile.isSome)
    else if s.checkWriteTarget r < 0 then
      (s, s.checkWriteTarget r)
    else
      match r.mount.fs.appendFile with
      | none => (s, fsErrorUnsupported)
      | some f =>
        let a := f s.fs r.relative data
        ({ s with fs := a.1 }, if 0 ≤ a.2 then data.length else a.2)

def vfsCreateFile (s : State σ) (path : List Char) : State σ × Int :=
  match s.resolve path with
  | .error status => (s, status)
  | .ok r =>
    if isKlogPath r.path then
      (s, 0)
    else if (vfsMountAt s.mounts r.path).isSome then
      (s, fsErrorExists)
    else if s.checkMutation r.mount r.mount.fs.createFile.isSome < 0 then
      (s, s.checkMutation r.mount r.mount.fs.createFile.isSome)
    else if s.checkParentWrite r.path < 0 then
      (s, s.checkParentWrite r.path)
    else
      match r.mount.fs.createFile with
      | none => (s, fsErrorUnsupported)
      | some f => ({ s with fs := (f s.fs r.relative).1 }, (f s.fs r.relative).2)

end State

/-! ## Runs -/

/-- A call, or anything else that changes file systems, handles, the caller or permissions. -/
inductive Call (σ : Type) where
  | openFile (path : List Char) (memory : Bool)
  | read (descriptor : Int) (count : Nat)
  | close (descriptor : Int)
  | writeFile (path : List Char) (data : List Byte)
  | appendFile (path : List Char) (data : List Byte)
  | createFile (path : List Char)
  | delete (path : List Char)
  | other (fs : σ) (handles : List (Option (Handle σ))) (root : Bool) (allowed : List Char →
    Bool → Nat → Bool)

namespace State

variable (klog : Klog σ)

def step (s : State σ) : Call σ → State σ × List Unit
  | .openFile path memory => ((s.vfsOpen klog path memory).1, [])
  | .read descriptor count => ((s.vfsRead klog descriptor count).1, [])
  | .close descriptor => ((s.vfsClose descriptor).1, [])
  | .writeFile path data => ((s.vfsWriteFile klog path data).1, [])
  | .appendFile path data => ((s.vfsAppendFile klog path data).1, [])
  | .createFile path => ((s.vfsCreateFile path).1, [])
  | .delete path => ((s.vfsDelete path).1, [])
  | .other fs handles root allowed =>
    ({ s with fs := fs, handles := handles, root := root, allowed := allowed }, [])

/-- A file is left alone: it is the same afterwards, and its file system is still there. -/
def Spares (r : Resolved σ) (s : State σ) (e : Call σ) : Prop :=
  r.mount.fs.node (s.step klog e).1.fs r.relative = r.mount.fs.node s.fs r.relative ∧
    r.mount.fs.ready (s.step klog e).1.fs = r.mount.fs.ready s.fs

/-- The bytes that reads of these sizes return, one after the other. -/
def readAll (s : State σ) (descriptor : Int) : List Nat → List Byte
  | [] => []
  | n :: ns =>
    match s.vfsRead klog descriptor n with
    | (s, .ok chunk) => chunk ++ s.readAll descriptor ns
    | (_, .error _) => []

/-! ## What is proved -/

/-- A file has these contents: its size is right, and a handle reads them. -/
def ReadsBack (s : State σ) (path : List Char) (data : List Byte) : Prop :=
  s.vfsStat klog path = .ok ⟨data.length, false⟩ ∧ ∀ memory, 0 ≤ (s.vfsOpen klog path memory).2 →
    ∀ sizes, data.length ≤ sizes.length → (∀ n ∈ sizes, 0 < n) →
    (s.vfsOpen klog path memory).1.readAll klog (s.vfsOpen klog path memory).2 sizes = data

/--
A file is not there: that is what the calls say, if the caller may open it and there is a handle.
-/
def NotThere (s : State σ) (path : List Char) : Prop :=
  s.vfsStat klog path = .error fsErrorNotFound ∧
    ∀ memory, (s.vfsOpen klog path memory).2 = fsErrorNotFound ∨
    (s.vfsOpen klog path memory).2 = fsErrorDenied ∨ (s.vfsOpen klog path memory).2 = fsErrorNoSpace

end State

end PureCOS.Vfs
