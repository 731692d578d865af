import PureCOS.Lib.Bytes
import PureCOS.Lib.Run
import PureCOS.Vfs.Mount

/-!
# tmpfs

`fs/tmpfs.c`: a file system in memory with 256 nodes and 32 open files.  A node has the index of its
parent, and contents in pages that only grow until the file is removed.

Strings are lists of characters without the terminator, and memory that `pmm_allocate_contiguous`
gives is part of the node it is for; whether there is memory is part of a call.  Times,
`tmpfs_stat_ex` and listings are left out.
-/

namespace PureCOS.Tmpfs

open Vfs

def fsErrorNotBlank : Int := -12
def maxNodes : Nat := 256
def maxOpen : Nat := 32
def nameMax : Nat := 63
def maxFile : Nat := 8 * 1024 * 1024
def page : Nat := 4096

/-- The size of the buffer for a path in `split_parent`. -/
def directorySize : Nat := 512

/-- An index of a node. -/
abbrev Index := Fin maxNodes

def root : Index := ⟨0, by decide⟩

/-- `struct node`; `data` are the bytes of its pages. -/
structure Node where
  used : Bool
  directory : Bool
  parent : Index
  name : List Char
  data : List Byte
  pages : Nat
  size : Nat

/-- A node of zeros. -/
def Node.blank : Node := ⟨false, false, root, [], [], 0, 0⟩

/-- The bytes of a file. -/
def Node.contents (n : Node) : List Byte := n.data.take n.size

structure Handle where
  used : Bool
  node : Index
  position : Nat

end Tmpfs

structure Tmpfs where
  nodes : Tmpfs.Index → Tmpfs.Node
  handles : Fin Tmpfs.maxOpen → Tmpfs.Handle
  usedPages : Nat
  pageLimit : Nat

namespace Tmpfs

open Vfs

/-- `vfs_tmpfs_create` on a machine with this much memory. -/
def create (totalBytes : Nat) : Tmpfs where
  nodes :=
    Function.update (fun _ => Node.blank) root { Node.blank with used := true, directory := true }
  handles := fun _ => ⟨false, root, 0⟩
  usedPages := 0
  pageLimit := max 16 (min (totalBytes / 4 / page) (64 * 1024 * 1024 / page))

variable (fs : Tmpfs) (path : List Char)

def setNode (i : Index) (n : Node) : Tmpfs := { fs with nodes := Function.update fs.nodes i n }

def setHandle (d : Fin maxOpen) (h : Handle) : Tmpfs :=
  { fs with handles := Function.update fs.handles d h }

/-! ## Paths -/

/-- A node is the child that `find_child` looks for. -/
def isChild (parent : Index) (name : List Char) (i : Index) : Bool :=
  (fs.nodes i).used && i != root && (fs.nodes i).parent == parent && (fs.nodes i).name == name

def findChild (parent : Index) (name : List Char) : Option Index :=
  (List.finRange maxNodes).find? (fs.isChild parent name)

/-- What stands between slashes; `name` has been read already. -/
def namesFrom : List Char → List Char → List (List Char)
  | name, [] => if name = [] then [] else [name]
  | name, c :: rest =>
    if c = '/' then
      if name = [] then namesFrom [] rest else name :: namesFrom [] rest
    else
      namesFrom (name ++ [c]) rest

/-- The names in a path. -/
def pathNames : List (List Char) := namesFrom [] path

/-- One round of the loop of `lookup`. -/
def descend (current : Index) (name : List Char) : Except Int Index :=
  if (fs.nodes current).directory then
    match fs.findChild current name with
    | none => .error fsErrorNotFound
    | some child => .ok child
  else
    .error fsErrorNotDir

/-- The loop of `lookup`. -/
def lookupNames (names : List (List Char)) : Except Int Index := names.foldlM fs.descend root

def lookup : Except Int Index :=
  if path.head? = some '/' then fs.lookupNames (pathNames path) else .error fsErrorInvalid

/-- `split_parent`: the length without slashes at the end. -/
def leafEnd : Nat := max 1 (path.reverse.dropWhile (· == '/')).length

/-- `split_parent`: the last name. -/
def leafOf : List Char := ((path.take (leafEnd path)).reverse.takeWhile (· != '/')).reverse

/-- `split_parent`: the length of what stands before the last name. -/
def directoryLength : Nat :=
  let slash := leafEnd path - (leafOf path).length
  if 1 < slash then slash - 1 else 1

/-- `split_parent`: the directory and the last name. -/
def splitParent : Except Int (Index × List Char) :=
  if path.head? ≠ some '/' then
    .error fsErrorInvalid
  else if leafOf path = [] ∨ nameMax < (leafOf path).length ∨
    directorySize ≤ directoryLength path then
    .error fsErrorInvalid
  else
    match fs.lookup (path.take (directoryLength path)) with
    | .error status => .error status
    | .ok found =>
      if (fs.nodes found).directory then .ok (found, leafOf path) else .error fsErrorNotDir

/-! ## Nodes -/

def allocateNode (parent : Index) (name : List Char) (directory : Bool) : Tmpfs × Option Index :=
  match (List.finRange maxNodes).find? fun i => i != root && !(fs.nodes i).used with
  | none => (fs, none)
  | some i =>
    (fs.setNode i { Node.blank with
      used := true, directory := directory, parent := parent, name := name }, some i)

/-- `release_data` and the `memset` that follows it. -/
def releaseNode (i : Index) : Tmpfs :=
  { fs.setNode i Node.blank with usedPages := fs.usedPages - (fs.nodes i).pages }

def reserve (i : Index) (needed : Nat) (memory : Bool) : Tmpfs × Int :=
  if maxFile < needed then
    (fs, fsErrorNoSpace)
  else
    let n := fs.nodes i
    let pages := (needed + page - 1) / page
    if pages ≤ n.pages then
      (fs, 0)
    else if fs.pageLimit < fs.usedPages - n.pages + pages then
      (fs, fsErrorNoSpace)
    else if memory then
      ({ fs.setNode i { n with
          data := n.contents ++ List.replicate (pages * page - n.contents.length) 0
          pages := pages } with usedPages := fs.usedPages - n.pages + pages }, 0)
    else
      (fs, fsErrorNoSpace)

def isOpen (i : Index) : Bool :=
  (List.finRange maxOpen).any fun d => (fs.handles d).used && (fs.handles d).node == i

def hasChildren (directory : Index) : Bool :=
  (List.finRange maxNodes).any fun i =>
    i != root && (fs.nodes i).used && (fs.nodes i).parent == directory

/-- `is_ancestor`, if the loop ends after so many rounds. -/
def isAncestor (fs : Tmpfs) (ancestor : Index) : Nat → Index → Option Bool
  | 0, _ => none
  | rounds + 1, current =>
    if current = root then some (ancestor == root)
    else if current = ancestor then some true
    else fs.isAncestor ancestor rounds (fs.nodes current).parent

/-! ## Open files -/

def tmpfsOpen : Tmpfs × Int :=
  match fs.lookup path with
  | .error status => (fs, status)
  | .ok i =>
    if (fs.nodes i).directory then
      (fs, fsErrorNotFile)
    else
      match (List.finRange maxOpen).find? fun d => !(fs.handles d).used with
      | none => (fs, fsErrorNoSpace)
      | some d => (fs.setHandle d ⟨true, i, 0⟩, d.val)

def getHandle (descriptor : Int) : Option (Fin maxOpen) :=
  if h : 0 ≤ descriptor ∧ descriptor < maxOpen then
    let d : Fin maxOpen := ⟨descriptor.toNat, by omega⟩
    if (fs.handles d).used then some d else none
  else
    none

/-- `tmpfs_read`: the bytes, or a status. -/
def tmpfsRead (descriptor : Int) (count : Nat) : Tmpfs × Except Int (List Byte) :=
  match fs.getHandle descriptor with
  | none => (fs, .error fsErrorInvalid)
  | some d =>
    let h := fs.handles d
    let n := fs.nodes h.node
    if n.size ≤ h.position then
      (fs, .ok [])
    else
      let amount := min count (n.size - h.position)
      (fs.setHandle d { h with position := h.position + amount },
        .ok ((n.data.drop h.position).take amount))

/-- `SEEK_CUR` and `SEEK_END` -/
inductive Whence where
  | set
  | current
  | ofEnd

def tmpfsSeek (descriptor : Int) (offset : Int) (whence : Whence) : Tmpfs × Int :=
  match fs.getHandle descriptor with
  | none => (fs, fsErrorInvalid)
  | some d =>
    let h := fs.handles d
    let size := (fs.nodes h.node).size
    let base : Int :=
      match whence with
      | .current => h.position
      | .ofEnd => size
      | .set => 0
    let target := (base + offset).bmod (2 ^ 64)
    if target < 0 then
      (fs, fsErrorInvalid)
    else
      let target := min target.toNat size
      (fs.setHandle d { h with position := target }, target)

def tmpfsClose (descriptor : Int) : Tmpfs × Int :=
  match fs.getHandle descriptor with
  | none => (fs, fsErrorInvalid)
  | some d => (fs.setHandle d { fs.handles d with used := false }, 0)

/-! ## Changing the tree -/

def createEntry (directory : Bool) : Tmpfs × Int :=
  match fs.splitParent path with
  | .error status => (fs, status)
  | .ok (parent, leaf) =>
    if (fs.findChild parent leaf).isSome then
      (fs, fsErrorExists)
    else
      match fs.allocateNode parent leaf directory with
      | (fs, none) => (fs, fsErrorNoSpace)
      | (fs, some _) => (fs, 0)

def tmpfsCreateFile : Tmpfs × Int := fs.createEntry path false

def tmpfsCreateDirectory : Tmpfs × Int := fs.createEntry path true

def tmpfsUnlink : Tmpfs × Int :=
  match fs.lookup path with
  | .error status => (fs, status)
  | .ok i =>
    if i = root then (fs, fsErrorBusy)
    else if (fs.nodes i).directory && fs.hasChildren i then (fs, fsErrorNotBlank)
    else if fs.isOpen i then (fs, fsErrorBusy)
    else (fs.releaseNode i, 0)

def validName (name : List Char) : Bool :=
  !name.isEmpty && name.length ≤ nameMax && !name.contains '/'

def tmpfsRename (newName : List Char) : Tmpfs × Int :=
  match fs.lookup path with
  | .error status => (fs, status)
  | .ok i =>
    if i = root then (fs, fsErrorBusy)
    else if !validName newName then (fs, fsErrorInvalid)
    else
      let existing := fs.findChild (fs.nodes i).parent newName
      if existing.isSome && existing != some i then (fs, fsErrorExists)
      else (fs.setNode i { fs.nodes i with name := newName }, 0)

/-- `tmpfs_move`; there is no status if the loop of `is_ancestor` does not end. -/
def tmpfsMove (destination : List Char) : Tmpfs × Option Int :=
  match fs.lookup path, fs.lookup destination with
  | .error status, _ => (fs, some status)
  | .ok _, .error status => (fs, some status)
  | .ok i, .ok directory =>
    if i = root then (fs, some fsErrorBusy)
    else if !(fs.nodes directory).directory then (fs, some fsErrorNotDir)
    else
      match if (fs.nodes i).directory then fs.isAncestor i maxNodes directory else some false with
      | none => (fs, none)
      | some true => (fs, some fsErrorInvalid)
      | some false =>
        let existing := fs.findChild directory (fs.nodes i).name
        if existing.isSome && existing != some i then (fs, some fsErrorExists)
        else (fs.setNode i { fs.nodes i with parent := directory }, some 0)

/-! ## Writing -/

def obtainFile : Tmpfs × Except Int Index :=
  let created : Tmpfs × Except Int Index :=
    if fs.lookup path = .error fsErrorNotFound then
      let c := fs.createEntry path false
      (c.1, if c.2 < 0 then .error c.2 else c.1.lookup path)
    else
      (fs, fs.lookup path)
  match created with
  | (fs, .error status) => (fs, .error status)
  | (fs, .ok i) => (fs, if (fs.nodes i).directory then .error fsErrorNotFile else .ok i)

/-- Bytes copied into the data of a node, which then ends behind them. -/
def Node.store (n : Node) (offset : Nat) (bytes : List Byte) : Node :=
  { n with
    data := n.data.take offset ++ bytes ++ n.data.drop (offset + bytes.length)
    size := offset + bytes.length }

def tmpfsWriteFile (bytes : List Byte) (memory : Bool) : Tmpfs × Int :=
  match fs.obtainFile path with
  | (fs, .error status) => (fs, status)
  | (fs, .ok i) =>
    if fs.isOpen i then
      (fs, fsErrorBusy)
    else
      let reserved := fs.reserve i bytes.length memory
      if reserved.2 < 0 then reserved
      else (reserved.1.setNode i ((reserved.1.nodes i).store 0 bytes), bytes.length)

def tmpfsAppendFile (bytes : List Byte) (memory : Bool) : Tmpfs × Int :=
  match fs.obtainFile path with
  | (fs, .error status) => (fs, status)
  | (fs, .ok i) =>
    let size := (fs.nodes i).size
    if maxFile < size + bytes.length then
      (fs, fsErrorNoSpace)
    else
      let reserved := fs.reserve i (size + bytes.length) memory
      if reserved.2 < 0 then reserved
      else (reserved.1.setNode i ((reserved.1.nodes i).store size bytes), bytes.length)

/-! ## Runs -/

inductive Call where
  | createFile (path : List Char)
  | createDirectory (path : List Char)
  | writeFile (path : List Char) (bytes : List Byte) (memory : Bool)
  | appendFile (path : List Char) (bytes : List Byte) (memory : Bool)
  | unlink (path : List Char)
  | rename (path newName : List Char)
  | move (path destination : List Char)
  | openFile (path : List Char)
  | read (descriptor : Int) (count : Nat)
  | seek (descriptor : Int) (offset : Int) (whence : Whence)
  | close (descriptor : Int)

/-- A call and its status. -/
def step (fs : Tmpfs) : Call → Tmpfs × List Int
  | .createFile path => ((fs.tmpfsCreateFile path).1, [(fs.tmpfsCreateFile path).2])
  | .createDirectory path => ((fs.tmpfsCreateDirectory path).1, [(fs.tmpfsCreateDirectory path).2])
  | .writeFile path bytes memory =>
    ((fs.tmpfsWriteFile path bytes memory).1, [(fs.tmpfsWriteFile path bytes memory).2])
  | .appendFile path bytes memory =>
    ((fs.tmpfsAppendFile path bytes memory).1, [(fs.tmpfsAppendFile path bytes memory).2])
  | .unlink path => ((fs.tmpfsUnlink path).1, [(fs.tmpfsUnlink path).2])
  | .rename path newName => ((fs.tmpfsRename path newName).1, [(fs.tmpfsRename path newName).2])
  | .move path destination =>
    ((fs.tmpfsMove path destination).1, (fs.tmpfsMove path destination).2.toList)
  | .openFile path => ((fs.tmpfsOpen path).1, [(fs.tmpfsOpen path).2])
  | .read descriptor count => ((fs.tmpfsRead descriptor count).1, [])
  | .seek descriptor offset whence =>
    ((fs.tmpfsSeek descriptor offset whence).1, [(fs.tmpfsSeek descriptor offset whence).2])
  | .close descriptor => ((fs.tmpfsClose descriptor).1, [(fs.tmpfsClose descriptor).2])

end PureCOS.Tmpfs
