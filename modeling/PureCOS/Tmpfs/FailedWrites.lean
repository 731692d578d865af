import PureCOS.Tmpfs.WellFormed

/-!
# Writes that fail

`tmpfs_write_file` and `tmpfs_append_file` make the file before they look for room.  A write to a
file that is there, or to a path where no file can be made, changes nothing if it fails.  A write
that makes its file leaves the empty file behind if there is no room for the bytes.
-/

namespace PureCOS.Tmpfs

open Vfs List

variable {fs : Tmpfs} {i parent : Index} {path leaf : List Char} {bytes : List Byte} {memory : Bool}

/-! ## The names in a path -/

theorem namesFrom_append_slash (name front rest : List Char) :
    namesFrom name (front ++ '/' :: rest) = namesFrom name front ++ namesFrom [] rest := by
  induction front generalizing name with
  | nil =>
    by_cases hname : name = []
    · simp [namesFrom, hname]
    · simp [namesFrom, hname]
  | cons c front ih =>
    simp only [cons_append, namesFrom]
    split
    · split
      · exact ih []
      · rw [ih [], cons_append]
    · exact ih (name ++ [c])

theorem namesFrom_of_no_slash (name : List Char) {rest : List Char} (h : ∀ c ∈ rest, c ≠ '/') :
    namesFrom name rest = if name ++ rest = [] then [] else [name ++ rest] := by
  induction rest generalizing name with
  | nil => simp [namesFrom]
  | cons c rest ih =>
    have hc : c ≠ '/' := h c mem_cons_self
    rw [namesFrom, if_neg hc, ih (name ++ [c]) fun d hd => h d (mem_cons_of_mem c hd)]
    simp

theorem namesFrom_slashes {rest : List Char} (h : ∀ c ∈ rest, c = '/') :
    namesFrom [] rest = [] := by
  induction rest with
  | nil => rfl
  | cons c rest ih =>
    rw [namesFrom, if_pos (h c mem_cons_self), if_pos rfl]
    exact ih fun d hd => h d (mem_cons_of_mem c hd)

/-- Slashes at the end of a path separate nothing. -/
theorem pathNames_append_slashes (front : List Char) {rest : List Char} (h : ∀ c ∈ rest, c = '/') :
    pathNames (front ++ rest) = pathNames front := by
  cases rest with
  | nil => rw [append_nil]
  | cons c rest =>
    obtain rfl : c = '/' := h c mem_cons_self
    unfold pathNames
    rw [namesFrom_append_slash, namesFrom_slashes fun d hd =>
      h d (mem_cons_of_mem _ hd), append_nil]

/-- A path that names a leaf is what stands before a slash, the leaf, and more slashes. -/
theorem exists_split (hhead : path.head? = some '/') (hleaf : leafOf path ≠ []) :
    ∃ front slashes, path = front ++ '/' :: leafOf path ++ slashes ∧ (∀ c ∈ slashes, c = '/') ∧
      (∀ c ∈ leafOf path, c ≠ '/') ∧ directoryLength path = max 1 front.length := by
  generalize hstripped : path.reverse.dropWhile (· == '/') = stripped
  generalize hslashes : path.reverse.takeWhile (· == '/') = slashes
  have hpath : path = stripped.reverse ++ slashes.reverse := by
    rw [← reverse_append, ← hstripped, ← hslashes, takeWhile_append_dropWhile, reverse_reverse]
  have hall : ∀ c ∈ slashes, c = '/' := by
    intro c hc
    have htake :=
      all_eq_true.mp (all_takeWhile (l := path.reverse) (p := (· == '/'))) c (hslashes ▸ hc)
    simpa using htake
  have hend : leafEnd path = max 1 stripped.length := by
    unfold leafEnd
    rw [hstripped]
  have hne : stripped ≠ [] := by
    rintro rfl
    have hfirst : path.take 1 = ['/'] := by
      obtain ⟨rest, rfl⟩ := head?_eq_some_iff.mp hhead
      rfl
    refine hleaf ?_
    unfold leafOf
    rw [hend, length_nil, Nat.max_eq_left (Nat.zero_le 1), hfirst]
    rfl
  have hlen : 1 ≤ stripped.length := length_pos_iff.mpr hne
  have htake : path.take stripped.length = stripped.reverse := by
    have hreverse : stripped.reverse.length = stripped.length := length_reverse
    rw [hpath, ← hreverse, take_left]
  have hleafEq : leafOf path = (stripped.takeWhile (· != '/')).reverse := by
    unfold leafOf
    rw [hend, Nat.max_eq_right hlen, htake, reverse_reverse]
  have hchars : ∀ c ∈ leafOf path, c ≠ '/' := by
    intro c hc
    rw [hleafEq, mem_reverse] at hc
    have htake := all_eq_true.mp (all_takeWhile (l := stripped) (p := (· != '/'))) c hc
    simpa using htake
  have hsplit : stripped.reverse = (stripped.dropWhile (· != '/')).reverse ++ leafOf path := by
    rw [hleafEq, ← reverse_append, takeWhile_append_dropWhile]
  -- a path starts with a slash, so there is one before its last name
  cases hrest : stripped.dropWhile (· != '/') with
  | nil =>
    rw [hrest, reverse_nil, nil_append] at hsplit
    rw [hpath, hsplit, head?_append_of_ne_nil _ hleaf] at hhead
    exact absurd rfl (hchars '/' (mem_of_head? hhead))
  | cons c front =>
    have hslash : c = '/' := by
      have hcons : stripped.dropWhile (· != '/') ≠ [] := by
        rw [hrest]
        exact cons_ne_nil c front
      have hfirst := head_dropWhile_not (· != '/') hcons
      simp only [hrest, head_cons] at hfirst
      simpa using hfirst
    subst hslash
    rw [hrest, reverse_cons] at hsplit
    refine ⟨front.reverse, slashes.reverse, ?_, fun d hd => hall d (mem_reverse.mp hd), hchars, ?_⟩
    · rw [append_cons, ← hsplit]
      exact hpath
    have hlengths := congrArg length hsplit
    simp only [length_reverse, length_append, length_singleton] at hlengths
    unfold directoryLength
    rw [hend, Nat.max_eq_right hlen, length_reverse]
    dsimp only
    split <;> omega

/--
The names that `lookup` walks along are those of the directory and the leaf that `split_parent`
finds.
-/
theorem pathNames_eq (hhead : path.head? = some '/') (hleaf : leafOf path ≠ []) :
    pathNames path = pathNames (path.take (directoryLength path)) ++ [leafOf path] := by
  obtain ⟨front, slashes, hpath, hslashes, hchars, hlen⟩ := exists_split hhead hleaf
  rw [hlen]
  generalize leafOf path = leaf at hpath hleaf hchars
  have hnames : pathNames path = pathNames front ++ [leaf] := by
    rw [hpath, pathNames_append_slashes _ hslashes]
    unfold pathNames
    rw [namesFrom_append_slash, namesFrom_of_no_slash [] hchars, nil_append, if_neg hleaf]
  rw [hnames]
  cases front with
  | nil => rw [hpath, nil_append, length_nil, cons_append]; rfl
  | cons c front =>
    rw [length_cons, Nat.max_eq_right (Nat.le_add_left 1 _), ← length_cons (a := c), hpath,
      append_assoc, take_left]

/-! ## The file that a write makes -/

/-- `obtain_file` makes the file for the path. -/
def MakesFile (fs : Tmpfs) (path : List Char) : Prop :=
  fs.lookup path = .error fsErrorNotFound ∧ 0 ≤ (fs.createEntry path false).2

theorem splitParent_eq (h : fs.splitParent path = .ok (parent, leaf)) : path.head? = some '/' ∧
    leaf = leafOf path ∧ fs.lookup (path.take (directoryLength path)) = .ok parent := by
  unfold splitParent at h
  split at h
  · cases h
  next hhead =>
  split at h
  · cases h
  split at h
  · cases h
  next found hlook =>
    split at h
    · cases h
      exact ⟨not_not.mp hhead, rfl, hlook⟩
    · cases h

/-- A file that has been made is found. -/
theorem exists_made (hw : fs.WellFormed) (h : 0 ≤ (fs.createEntry path false).2) :
    ∃ i parent leaf, Room fs i parent leaf ∧
      fs.createEntry path false = (fs.setNode i (newNode parent leaf false), 0) ∧
      (fs.setNode i (newNode parent leaf false)).lookup path = .ok i := by
  rcases createEntry_cases hw path false with ⟨status, hneg, hcreate⟩ |
    ⟨i, parent, leaf, hsplit, hroom, hcreate⟩
  · rw [hcreate] at h
    exact absurd hneg (Int.not_lt.mpr h)
  refine ⟨i, parent, leaf, hroom, hcreate, ?_⟩
  obtain ⟨hhead, rfl, hlook⟩ := splitParent_eq hsplit
  have hobtained : Obtained fs (fs.setNode i (newNode parent (leafOf path) false)) :=
    hroom.obtained hw
  have hnew : (fs.setNode i (newNode parent (leafOf path) false)).nodes i =
      newNode parent (leafOf path) false :=
    setNode_self
  have hparent := hobtained.lookup _ _ hlook
  have hdir :
      ((fs.setNode i (newNode parent (leafOf path) false)).nodes parent).directory = true := by
    have hne : parent ≠ i := fun heq => hroom.not_inner (heq ▸ hroom.inner)
    rw [setNode_of_ne hne]
    exact hroom.inner.2
  generalize fs.setNode i (newNode parent (leafOf path) false) = fs' at hobtained hnew hparent hdir
  have hw' := hobtained.wellFormed
  unfold Tmpfs.lookup at hparent ⊢
  rw [if_pos hhead, pathNames_eq hhead hroom.named, lookupNames_append]
  split at hparent
  · rw [hparent]
    refine descend_eq_ok_iff.mpr ⟨hdir, (findChild_eq_some_iff hw'.tree).mpr (isChild_iff.mpr ?_)⟩
    exact ⟨congrArg Node.used hnew, hroom.ne_root, congrArg Node.parent hnew,
      congrArg Node.name hnew⟩
  · cases hparent

theorem newNode_isOpen (hw : fs.WellFormed) (hroom : Room fs i parent leaf) :
    (fs.setNode i (newNode parent leaf false)).isOpen i = false := by
  unfold isOpen
  rw [handles_setNode, any_eq_false]
  intro d _ hopen
  rw [Bool.and_eq_true, beq_iff_eq] at hopen
  have hused := (hw.handles d hopen.1).1
  rw [hopen.2, hroom.free] at hused
  cases hused

theorem obtainFile_of_makesFile (hw : fs.WellFormed) (h : fs.MakesFile path) :
    ∃ i parent leaf, Room fs i parent leaf ∧
      fs.obtainFile path = (fs.setNode i (newNode parent leaf false), .ok i) := by
  obtain ⟨i, parent, leaf, hroom, hcreate, hlook⟩ := exists_made hw h.2
  refine ⟨i, parent, leaf, hroom, ?_⟩
  have hfile : ((fs.setNode i (newNode parent leaf false)).nodes i).directory = false := by
    rw [setNode_self]
    rfl
  unfold obtainFile
  simp only [if_pos h.1, hcreate, Int.lt_irrefl, if_false, hlook, hfile, Bool.false_eq_true]

/-- Otherwise `obtain_file` changes nothing. -/
theorem obtainFile_of_not_makesFile (hw : fs.WellFormed) (h : ¬fs.MakesFile path) :
    (fs.obtainFile path).1 = fs := by
  unfold obtainFile
  by_cases hmissing : fs.lookup path = .error fsErrorNotFound
  · have hneg : (fs.createEntry path false).2 < 0 := Int.not_le.mp fun hmade => h ⟨hmissing, hmade⟩
    have hsame : (fs.createEntry path false).1 = fs := by
      rcases createEntry_cases hw path false with ⟨status, -, hcreate⟩ |
        ⟨i, parent, leaf, -, -, hcreate⟩
      · rw [hcreate]
      · rw [hcreate] at hneg
        exact absurd hneg (Int.lt_irrefl 0)
    simp only [if_pos hmissing, if_pos hneg, hsame]
  · rw [if_neg hmissing]
    cases fs.lookup path with
    | error status => rfl
    | ok i => rfl

/-! ## Room for the bytes -/

theorem reserve_failed {needed : Nat} (h : (fs.reserve i needed memory).2 < 0) :
    (fs.reserve i needed memory).1 = fs := by
  unfold reserve at h ⊢
  split
  · rfl
  next hfile =>
  rw [if_neg hfile] at h
  dsimp only at h ⊢
  split
  · rfl
  next hpages =>
  rw [if_neg hpages] at h
  split
  · rfl
  next hlimit =>
  rw [if_neg hlimit] at h
  split
  next hmemory =>
    rw [if_pos hmemory] at h
    exact absurd h (Int.lt_irrefl 0)
  · rfl

theorem store_neg {r : Tmpfs × Int} {stored : Tmpfs} {count : Nat} :
    (if r.2 < 0 then r else (stored, (count : Int))).2 < 0 ↔ r.2 < 0 := by
  split
  · rfl
  · omega

/-- What both calls do with the bytes: nothing if `reserve` fails. -/
theorem store_failed {needed count : Nat} {stored : Tmpfs} (h : (if (fs.reserve i needed memory).2 <
      0 then fs.reserve i needed memory else (stored, (count : Int))).2 < 0) :
    (if (fs.reserve i needed memory).2 < 0 then fs.reserve i needed memory
      else (stored, (count : Int))).1 = fs := by
  have hfailed := store_neg.mp h
  rw [if_pos hfailed]
  exact reserve_failed hfailed

/-- There is room for a new file with so many bytes. -/
def RoomFor (fs : Tmpfs) (count : Nat) (memory : Bool) : Prop :=
  count ≤ maxFile ∧
    (count = 0 ∨ fs.usedPages + (count + page - 1) / page ≤ fs.pageLimit ∧ memory = true)

theorem reserve_newNode (fs : Tmpfs) (i parent : Index) (leaf : List Char) (count : Nat)
    (memory : Bool) : ((fs.setNode i (newNode parent leaf false)).reserve i count memory).2 < 0 ↔
    ¬fs.RoomFor count memory := by
  have hpages : ((fs.setNode i (newNode parent leaf false)).nodes i).pages = 0 := by
    rw [setNode_self]
    rfl
  have hused : (fs.setNode i (newNode parent leaf false)).usedPages = fs.usedPages := rfl
  have hlimit : (fs.setNode i (newNode parent leaf false)).pageLimit = fs.pageLimit := rfl
  have hzero : (count + page - 1) / page ≤ 0 ↔ count = 0 := by
    unfold page
    omega
  unfold reserve RoomFor
  simp only [hpages, hused, hlimit, hzero, Nat.sub_zero]
  by_cases hfile : maxFile < count
  · simp [hfile, fsErrorNoSpace_neg]
  by_cases hcount : count = 0
  · simp [hcount]
  · by_cases hroom : fs.pageLimit < fs.usedPages + (count + page - 1) / page
    · simp [hfile, hcount, hroom, fsErrorNoSpace_neg]
    · cases memory <;>
        simp [hfile, hcount, hroom, fsErrorNoSpace_neg, Nat.not_lt.mp hfile, Nat.not_lt.mp hroom]

theorem setNode_newNode_ne (hroom : Room fs i parent leaf) :
    fs.setNode i (newNode parent leaf false) ≠ fs := by
  intro heq
  have hused := hroom.free
  rw [← heq, setNode_self] at hused
  cases hused

/-! ## Failed writes -/

/-- Both calls: they obtain the file, and what follows keeps the tmpfs when it fails. -/
theorem obtained_failed_iff (hw : fs.WellFormed) {count : Nat} {store : Tmpfs → Index → Tmpfs × Int}
    {r : Tmpfs × Int} (hok : ∀ fs' i, fs.obtainFile path = (fs', .ok i) → r = store fs' i)
    (herror : ∀ fs' status, fs.obtainFile path = (fs', .error status) → r.1 = fs')
    (hkeeps : ∀ fs' i, (store fs' i).2 < 0 → (store fs' i).1 = fs')
    (hnew : ∀ i parent leaf, Room fs i parent leaf →
      ((store (fs.setNode i (newNode parent leaf false)) i).2 < 0 ↔ ¬fs.RoomFor count memory)) :
    (r.2 < 0 → r.1 = fs) ↔ (fs.MakesFile path → fs.RoomFor count memory) := by
  by_cases hmakes : fs.MakesFile path
  · obtain ⟨i, parent, leaf, hroom, hobtain⟩ := obtainFile_of_makesFile hw hmakes
    have hfails := hnew i parent leaf hroom
    rw [hok _ _ hobtain]
    by_cases hfits : fs.RoomFor count memory
    · exact iff_of_true (fun hneg => absurd hfits (hfails.mp hneg)) fun _ => hfits
    · have hneg := hfails.mpr hfits
      refine iff_of_false (fun hsame => setNode_newNode_ne hroom ?_) fun hfit => hfits (hfit hmakes)
      exact (hkeeps _ _ hneg).symm.trans (hsame hneg)
  · refine iff_of_true (fun hneg => ?_) fun hmake => absurd hmake hmakes
    have hsame := obtainFile_of_not_makesFile hw hmakes
    rcases hobtain : fs.obtainFile path with ⟨fs', status | i⟩
    · rw [hobtain] at hsame
      exact (herror _ _ hobtain).trans hsame
    · rw [hobtain] at hsame
      rw [hok _ _ hobtain] at hneg ⊢
      exact (hkeeps _ _ hneg).trans hsame

theorem writeFile_failed_iff (hw : fs.WellFormed) (path : List Char) (bytes : List Byte)
    (memory : Bool) :
    ((fs.tmpfsWriteFile path bytes memory).2 < 0 → (fs.tmpfsWriteFile path bytes memory).1 = fs) ↔
      (fs.MakesFile path → fs.RoomFor bytes.length memory) := by
  refine obtained_failed_iff hw (fun fs' i hobtain => by rw [tmpfsWriteFile, hobtain])
    (fun fs' status hobtain => by rw [tmpfsWriteFile, hobtain]) (fun fs' i => ?_)
    fun i parent leaf hroom => ?_
  · dsimp only
    split
    · exact fun _ => rfl
    · exact store_failed
  · simp only [newNode_isOpen hw hroom, Bool.false_eq_true, if_false, store_neg, reserve_newNode]

theorem appendFile_failed_iff (hw : fs.WellFormed) (path : List Char) (bytes : List Byte)
    (memory : Bool) :
    ((fs.tmpfsAppendFile path bytes memory).2 < 0 → (fs.tmpfsAppendFile path bytes memory).1 = fs) ↔
      (fs.MakesFile path → fs.RoomFor bytes.length memory) := by
  refine obtained_failed_iff hw (fun fs' i hobtain => by rw [tmpfsAppendFile, hobtain])
    (fun fs' status hobtain => by rw [tmpfsAppendFile, hobtain]) (fun fs' i => ?_)
    fun i parent leaf hroom => ?_
  · dsimp only
    split
    · exact fun _ => rfl
    · exact store_failed
  have hsize : ((fs.setNode i (newNode parent leaf false)).nodes i).size = 0 := by
    rw [setNode_self]
    rfl
  simp only [hsize, Nat.zero_add]
  split
  next hlarge => exact iff_of_true fsErrorNoSpace_neg fun hfits => Nat.not_lt.mpr hfits.1 hlarge
  · rw [store_neg, reserve_newNode]

/--
A write or an append that fails changes nothing, unless it has made its file and then finds no room
for the bytes.
-/
theorem failed_write_keeps_iff
    (totalBytes : Nat)
    (calls : List Call)
    (path : List Char)
    (bytes : List Byte)
    (memory : Bool) :
    let fs := (Run.run step (create totalBytes) calls).1
    (((fs.tmpfsWriteFile path bytes memory).2 < 0 → (fs.tmpfsWriteFile path bytes memory).1 = fs) ∧
      ((fs.tmpfsAppendFile path bytes memory).2 < 0 →
        (fs.tmpfsAppendFile path bytes memory).1 = fs)) ↔
      (fs.MakesFile path → fs.RoomFor bytes.length memory) := by
  intro fs
  have hw : fs.WellFormed := wellFormed_run (wellFormed_create totalBytes) calls
  rw [writeFile_failed_iff hw, appendFile_failed_iff hw, and_self]

/-- There is no memory for the byte, and the empty file stays. -/
theorem failed_write_leaves_file :
    let fs := (Run.run step (create 0) []).1
    let path := ['/', 'f']
    (fs.tmpfsWriteFile path [7] false).2 = fsErrorNoSpace ∧
      fs.lookup path = .error fsErrorNotFound ∧
      (fs.tmpfsWriteFile path [7] false).1.lookup path = .ok ⟨1, by decide⟩ ∧
      (fs.tmpfsWriteFile path [7] false).1.contentsAt path = some [] := by
  decide

end PureCOS.Tmpfs
