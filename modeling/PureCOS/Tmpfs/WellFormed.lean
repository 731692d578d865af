import PureCOS.Tmpfs.Changes

/-!
# Every tmpfs is well-formed

Whatever calls are made, with whatever paths and sizes and whether or not there is memory, the nodes
stay a tree, pages stay accounted for, and what was written or appended last is what is read.
-/

namespace PureCOS.Tmpfs

open Vfs List

variable {fs fs' : Tmpfs} {i j : Index} {path q : List Char} {bytes data : List Byte}
  {memory : Bool}

/-! ## Writing -/

/-- What `obtain_file` leaves behind: maybe a new empty file, and all paths as they were. -/
structure Obtained (fs fs' : Tmpfs) : Prop where
  wellFormed : fs'.WellFormed
  spared : ∀ q, Spared q fs fs'
  lookup : ∀ q j, fs.lookup q = .ok j → fs'.lookup q = .ok j

/-- The file that `obtain_file` finds or makes. -/
structure ObtainedFile (path : List Char) (fs fs' : Tmpfs) (i : Index) : Prop where
  found : fs'.lookup path = .ok i
  file : (fs'.nodes i).directory = false
  before : fs.lookup path = .ok i ∨ (fs.nodes i).used = false
  contents : (fs'.nodes i).contents = (fs.contentsAt path).getD []

theorem Obtained.refl (hw : fs.WellFormed) : Obtained fs fs :=
  ⟨hw, fun q => .refl q fs, fun _ _ => id⟩

theorem Room.obtained (hw : fs.WellFormed) {parent : Index} {leaf : List Char} {directory : Bool}
    (hroom : Room fs i parent leaf) :
    Obtained fs (fs.setNode i (newNode parent leaf directory)) := by
  refine ⟨hroom.wellFormed hw, fun q => hroom.spared hw, fun q j hlook => ?_⟩
  obtain ⟨hhead, hleads⟩ := (lookup_eq_ok_iff hw.tree).mp hlook
  have hused : (fs.nodes j).used = true := hw.live hlook
  have hne : j ≠ i := fun heq => Bool.false_ne_true (hroom.free.symm.trans (heq ▸ hused))
  refine (lookup_eq_ok_iff (hroom.wellFormed hw).tree).mpr ⟨hhead, ?_⟩
  exact hleads.of_agree (agreeOff_of_nodes fun k hk => setNode_of_ne hk)
    (hw.tree.not_above_of_not_inner hroom.not_inner hused hne)

/-- A path that leads to nothing leads to the file that was made for it, if to anything. -/
theorem Room.eq_of_lookup (hw : fs.WellFormed) {parent : Index}
    {leaf : List Char} (hroom : Room fs i parent leaf) (hnone : ∀ k, fs.lookup path ≠ .ok k)
    (h : (fs.setNode i (newNode parent leaf false)).lookup path = .ok j) : j = i := by
  by_contra hne
  have hw' : (fs.setNode i (newNode parent leaf false)).WellFormed := hroom.wellFormed hw
  obtain ⟨hhead, hleads⟩ := (lookup_eq_ok_iff hw'.tree).mp h
  have hagree : NameTree.AgreeOff i fs.tree (fs.setNode i (newNode parent leaf false)).tree :=
    agreeOff_of_nodes fun k hk => setNode_of_ne hk
  have hinner : ¬(fs.setNode i (newNode parent leaf false)).tree.inner i := by
    rintro ⟨-, hdir⟩
    rw [setNode_self] at hdir
    cases hdir
  -- a new file has no children, so the names would have led to this node before
  have hbefore :=
    hleads.of_agree hagree.symm (hw'.tree.not_above_of_not_inner hinner (hleads.live hw'.tree) hne)
  exact hnone j ((lookup_eq_ok_iff hw.tree).mpr ⟨hhead, hbefore⟩)

theorem obtainFile_spec (hw : fs.WellFormed) (path : List Char) :
    Obtained fs (fs.obtainFile path).1 ∧
      ((∃ status < 0, (fs.obtainFile path).2 = .error status) ∨
        ∃ i, (fs.obtainFile path).2 = .ok i ∧ ObtainedFile path fs (fs.obtainFile path).1 i) := by
  unfold obtainFile
  by_cases hmissing : fs.lookup path = .error fsErrorNotFound
  · rw [if_pos hmissing]
    have hnone : ∀ k, fs.lookup path ≠ .ok k := fun k hk => by
      rw [hmissing] at hk
      cases hk
    have hcontents : fs.contentsAt path = none := by
      unfold contentsAt
      rw [hmissing]
    rcases createEntry_cases hw path false with ⟨status, hneg, hcreate⟩ |
      ⟨i, parent, leaf, -, hroom, hcreate⟩
    · simp only [hcreate, if_pos hneg]
      exact ⟨.refl hw, .inl ⟨status, hneg, rfl⟩⟩
    have hnonneg : ¬(0 : Int) < 0 := by decide
    simp only [hcreate, if_neg hnonneg]
    cases hlook : (fs.setNode i (newNode parent leaf false)).lookup path with
    | error status => exact ⟨hroom.obtained hw, .inl ⟨status, lookup_error hlook, rfl⟩⟩
    | ok j =>
      obtain rfl := hroom.eq_of_lookup hw hnone hlook
      have hfile : ((fs.setNode j (newNode parent leaf false)).nodes j).directory = false := by
        rw [setNode_self]
        rfl
      simp only [hfile, Bool.false_eq_true, if_false]
      refine ⟨hroom.obtained hw, .inr ⟨j, rfl, hlook, hfile, .inr hroom.free, ?_⟩⟩
      rw [hcontents, setNode_self]
      rfl
  · rw [if_neg hmissing]
    cases hlook : fs.lookup path with
    | error status => exact ⟨.refl hw, .inl ⟨status, lookup_error hlook, rfl⟩⟩
    | ok i =>
      cases hfile : (fs.nodes i).directory with
      | true => exact ⟨.refl hw, .inl ⟨fsErrorNotFile, by decide, by simp only [hfile, if_true]⟩⟩
      | false =>
        refine ⟨.refl hw, .inr ⟨i, by simp only [hfile, Bool.false_eq_true, if_false], hlook, hfile,
          .inl hlook, ?_⟩⟩
        rw [contentsAt_of_lookup hlook hfile]
        rfl

/-- What writing and appending have in common: `obtain_file`, `reserve` and a copy to `offset`. -/
structure Written (path : List Char) (contents : List Byte) (fs : Tmpfs) (result : Tmpfs × Int) :
    Prop where
  wellFormed : result.1.WellFormed
  failed : result.2 < 0 → ∀ q, Spared q fs result.1
  others : ∀ q, fs.lookup q ≠ fs.lookup path → Spared q fs result.1
  done : 0 ≤ result.2 → result.1.contentsAt path = some contents

theorem Obtained.written {status : Int} {contents : List Byte} (h : Obtained fs fs')
    (hneg : status < 0) : Written path contents fs (fs', status) :=
  ⟨h.wellFormed, fun _ => h.spared, fun q _ => h.spared q,
    fun hnonneg => absurd hneg (Int.not_lt.mpr hnonneg)⟩

/-- Bytes are stored where `reserve` has made room. -/
theorem written_store {fs₁ : Tmpfs} {contents : List Byte} {offset count : Nat}
    (hw₀ : fs.WellFormed) (hobtained : Obtained fs fs₁)
    (hfile : ObtainedFile path fs fs₁ i) (hoffset : offset ≤ (fs₁.nodes i).size)
    (hcontents : (fs₁.nodes i).contents.take offset ++ bytes = contents) :
    Written path contents fs
      (let reserved := fs₁.reserve i (offset + bytes.length) memory
       if reserved.2 < 0 then reserved
       else (reserved.1.setNode i ((reserved.1.nodes i).store offset bytes), (count : Int))) := by
  have hw := hobtained.wellFormed
  obtain ⟨hreserved, hroom⟩ := reserve_spec hw (hw.live hfile.found) (offset + bytes.length) memory
  generalize fs₁.reserve i (offset + bytes.length) memory = reserved at hreserved hroom
  obtain ⟨fs₂, status⟩ := reserved
  have hspared : ∀ q, Spared q fs fs₂ := fun q => (hobtained.spared q).trans (hreserved.spared hw)
  by_cases hneg : status < 0
  · rw [if_pos hneg]
    exact ⟨hreserved.wellFormed, fun _ => hspared, fun q _ => hspared q,
      fun hnonneg => absurd hneg (Int.not_lt.mpr hnonneg)⟩
  rw [if_neg hneg]
  have hroom := hroom.resolve_left hneg
  have hw₂ := hreserved.wellFormed
  have hlook : ∀ q j, fs₂.lookup q = .ok j ↔ fs₁.lookup q = .ok j := fun q j => by
    rw [lookup_eq_ok_iff hw₂.tree, lookup_eq_ok_iff hw.tree, hreserved.tree]
  refine ⟨hw₂.store hroom, fun hcount => absurd hcount (Int.not_lt.mpr (Int.natCast_nonneg count)),
    fun q hq => ?_, fun _ => ?_⟩
  · intro data hdata
    refine hw₂.spared_store hroom ?_ data (hspared q data hdata)
    intro hfound
    obtain ⟨j, hj, -, -⟩ := lookup_of_contentsAt hdata
    have hji : fs₁.lookup q = .ok i := (hlook q i).mp hfound
    rw [hobtained.lookup q j hj] at hji
    obtain rfl := Except.ok.inj hji
    rcases hfile.before with hbefore | hunused
    · exact hq (hj.trans hbefore.symm)
    · exact Bool.false_ne_true (hunused.symm.trans (hw₀.live hj))
  · have hdir : (fs₂.nodes i).directory = false := by
      rw [directory_eq_of_tree hreserved.tree (hw.live hfile.found)]
      exact hfile.file
    rw [hw₂.contentsAt_store hroom ((hlook path i).mpr hfile.found) hdir, ← hcontents]
    have htake : (fs₂.nodes i).data.take offset = (fs₁.nodes i).contents.take offset := by
      rw [← hreserved.contents]
      unfold Node.contents
      rw [take_take, hreserved.size, Nat.min_eq_left hoffset]
    rw [htake]

theorem writeFile_written (hw : fs.WellFormed) (path : List Char) (bytes : List Byte)
    (memory : Bool) : Written path bytes fs (fs.tmpfsWriteFile path bytes memory) := by
  obtain ⟨hobtained, hcases⟩ := obtainFile_spec hw path
  unfold tmpfsWriteFile
  generalize fs.obtainFile path = o at hobtained hcases
  obtain ⟨fs₁, result⟩ := o
  rcases hcases with ⟨status, hneg, hres⟩ | ⟨i, hres, hfile⟩
  · obtain rfl : result = .error status := hres
    exact hobtained.written hneg
  obtain rfl : result = .ok i := hres
  dsimp only
  split
  · exact hobtained.written (by decide)
  have hwritten : Written path bytes fs
      (let reserved := fs₁.reserve i (0 + bytes.length) memory
       if reserved.2 < 0 then reserved
       else (reserved.1.setNode i ((reserved.1.nodes i).store 0 bytes), (bytes.length : Int))) :=
    written_store hw hobtained hfile (Nat.zero_le _) rfl
  rw [Nat.zero_add] at hwritten
  exact hwritten

theorem appendFile_written (hw : fs.WellFormed) (path : List Char) (bytes : List Byte)
    (memory : Bool) : Written path ((fs.contentsAt path).getD [] ++ bytes) fs
    (fs.tmpfsAppendFile path bytes memory) := by
  obtain ⟨hobtained, hcases⟩ := obtainFile_spec hw path
  unfold tmpfsAppendFile
  generalize fs.obtainFile path = o at hobtained hcases
  obtain ⟨fs₁, result⟩ := o
  rcases hcases with ⟨status, hneg, hres⟩ | ⟨i, hres, hfile⟩
  · obtain rfl : result = .error status := hres
    exact hobtained.written hneg
  obtain rfl : result = .ok i := hres
  dsimp only
  split
  · exact hobtained.written (by decide)
  · refine written_store hw hobtained hfile le_rfl ?_
    have hlen := hobtained.wellFormed.length_contents i
    rw [take_of_length_le hlen.le, hfile.contents]

/-! ## Reading -/

/-- The bytes that reads of these sizes return, one after the other. -/
def readAll (fs : Tmpfs) (descriptor : Int) : List Nat → List Byte
  | [] => []
  | n :: ns =>
    match fs.tmpfsRead descriptor n with
    | (fs, .ok chunk) => chunk ++ fs.readAll descriptor ns
    | (_, .error _) => []

/-- A file can be opened if a handle is free, and then its contents are read. -/
def ReadsBack (fs : Tmpfs) (path : List Char) (data : List Byte) : Prop :=
  (0 ≤ (fs.tmpfsOpen path).2 ∨ (fs.tmpfsOpen path).2 = fsErrorNoSpace) ∧
    (0 ≤ (fs.tmpfsOpen path).2 → ∀ counts, data.length ≤ counts.sum →
      (fs.tmpfsOpen path).1.readAll (fs.tmpfsOpen path).2 counts = data)

theorem getHandle_val {d : Fin maxOpen} (h : (fs.handles d).used = true) :
    fs.getHandle (d.val : Int) = some d := by
  unfold getHandle
  rw [dif_pos ⟨Int.natCast_nonneg _, Int.ofNat_lt.mpr d.isLt⟩]
  simp only [Int.toNat_natCast, Fin.eta, h, if_true]

/-- A handle in use on a node, with this much read already. -/
structure Reading (fs : Tmpfs) (d : Fin maxOpen) (i : Index) (position : Nat) : Prop where
  used : (fs.handles d).used = true
  node : (fs.handles d).node = i
  position : (fs.handles d).position = position

theorem take_drop_contents (n : Node) (position count : Nat) : (n.data.drop position).take
    (min count (n.size - position)) = (n.contents.drop position).take count := by
  unfold Node.contents
  rw [drop_take, take_take]

theorem read_reading {d : Fin maxOpen} {position : Nat}
    (h : Reading fs d i position) (count : Nat) : ∃ fs',
    fs.tmpfsRead d.val count = (fs', .ok (((fs.nodes i).contents.drop position).take count)) ∧
    fs'.nodes = fs.nodes ∧ ∃ position', Reading fs' d i position' ∧
    (fs.nodes i).contents.drop position' = ((fs.nodes i).contents.drop position).drop count := by
  obtain ⟨hused, hnode, hpos⟩ := h
  unfold tmpfsRead
  rw [getHandle_val hused]
  simp only [hnode, hpos]
  by_cases hend : (fs.nodes i).size ≤ position
  · have hempty : (fs.nodes i).contents.drop position = [] := by
      rw [drop_eq_nil_iff]
      exact (length_take_le _ _).trans hend
    rw [if_pos hend]
    refine ⟨fs, ?_, rfl, position, ⟨hused, hnode, hpos⟩, ?_⟩
    · rw [hempty, take_nil]
    · rw [hempty, drop_nil]
  rw [if_neg hend]
  refine ⟨fs.setHandle d ⟨(fs.handles d).used, i, position + min count ((fs.nodes i).size -
    position)⟩, ?_, rfl, position + min count ((fs.nodes i).size - position), ⟨?_, ?_, ?_⟩, ?_⟩
  · rw [take_drop_contents]
  · rw [handles_setHandle_self]
    exact hused
  · rw [handles_setHandle_self]
  · rw [handles_setHandle_self]
  rw [← drop_drop]
  rcases Nat.le_total count ((fs.nodes i).size - position) with hle | hle
  · rw [Nat.min_eq_left hle]
  have hlen : ((fs.nodes i).contents.drop position).length ≤ (fs.nodes i).size - position := by
    rw [length_drop]
    exact Nat.sub_le_sub_right (length_take_le _ _) _
  rw [Nat.min_eq_right hle, drop_eq_nil_of_le hlen, drop_eq_nil_of_le (hlen.trans hle)]

theorem readAll_reading
    {d : Fin maxOpen} {position : Nat} {counts : List Nat} (h : Reading fs d i position)
    (hcounts : ((fs.nodes i).contents.drop position).length ≤ counts.sum) :
    fs.readAll d.val counts = (fs.nodes i).contents.drop position := by
  induction counts generalizing fs position with
  | nil => exact (eq_nil_of_length_eq_zero (Nat.le_zero.mp hcounts)).symm
  | cons count counts ih =>
    obtain ⟨fs', hread, hnodes, position', hreading, hrest⟩ := read_reading h count
    rw [readAll, hread]
    simp only
    rw [sum_cons] at hcounts
    rw [ih hreading, hnodes, hrest, take_append_drop]
    rw [hnodes, hrest, length_drop]
    omega

theorem readsBack_of_contentsAt (h : fs.contentsAt path = some data) : fs.ReadsBack path data := by
  obtain ⟨i, hlook, hfile, rfl⟩ := lookup_of_contentsAt h
  unfold ReadsBack tmpfsOpen
  rw [hlook]
  simp only [hfile, Bool.false_eq_true, if_false]
  cases hfind : (finRange maxOpen).find? fun d => !(fs.handles d).used with
  | none => exact ⟨.inr rfl, fun hnonneg => absurd fsErrorNoSpace_neg (Int.not_lt.mpr hnonneg)⟩
  | some d =>
    refine ⟨.inl (Int.natCast_nonneg _), fun _ counts hcounts => ?_⟩
    have hreading : Reading (fs.setHandle d ⟨true, i, 0⟩) d i 0 := by
      constructor <;> rw [handles_setHandle_self]
    exact readAll_reading hreading hcounts

/-! ## Steps -/

/-- A call that changes the file of a path, or a node on the way to it. -/
def Touches (fs : Tmpfs) (path : List Char) : Call → Prop
  | .writeFile q _ _ => fs.lookup path = fs.lookup q
  | .appendFile q _ _ => fs.lookup path = fs.lookup q
  | .unlink q => ∃ m i, fs.lookup q = .ok m ∧ fs.lookup path = .ok i ∧ fs.tree.Above m i
  | .rename q _ => ∃ m i, fs.lookup q = .ok m ∧ fs.lookup path = .ok i ∧ fs.tree.Above m i
  | .move q _ => ∃ m i, fs.lookup q = .ok m ∧ fs.lookup path = .ok i ∧ fs.tree.Above m i
  | _ => False

/-- A call that fails, or changes another file. -/
def Spares (path : List Char) (fs : Tmpfs) (c : Call) : Prop :=
  (∃ status ∈ (fs.step c).2, status < 0) ∨ ¬fs.Touches path c

/-- What a call does that shows this status and goes through some nodes. -/
structure Kept (fs fs' : Tmpfs) (status : List Int) (through : Index → Prop) : Prop where
  wellFormed : fs'.WellFormed
  spared : ∀ path, ((∃ n ∈ status, n < 0) ∨ ∀ m i, through m → fs.lookup path = .ok i →
    ¬fs.tree.Above m i) → Spared path fs fs'

theorem used_of_getHandle {descriptor : Int} {d : Fin maxOpen}
    (h : fs.getHandle descriptor = some d) : (fs.handles d).used = true := by
  unfold getHandle at h
  split at h
  · dsimp only at h
    split at h
    next hused => exact Option.some.inj h ▸ hused
    · cases h
  · cases h

section Kept

variable (hw : fs.WellFormed) {status : List Int} {through : Index → Prop}

include hw

theorem Kept.refl : Kept fs fs status through :=
  ⟨hw, fun path _ => .refl path fs⟩

/-- A call that succeeds and changes the node of a path. -/
theorem kept_of_nodes (hw' : fs'.WellFormed) (hnodes : ∀ j, j ≠ i → fs'.nodes j = fs.nodes j)
    (hq : fs.lookup q = .ok i) : Kept fs fs' [0] fun m => fs.lookup q = .ok m := by
  refine ⟨hw', fun path hpath data hdata => ?_⟩
  rcases hpath with ⟨n, hn, hneg⟩ | hpath
  · rw [mem_singleton.mp hn] at hneg
    exact absurd hneg (by decide)
  · refine spared_of_not_above hw hw' hnodes (fun j hleads _ => ?_) data hdata
    obtain ⟨k, hlook, -, -⟩ := lookup_of_contentsAt hdata
    exact hpath i j hq
      ((lookup_eq_ok_iff hw.tree).mpr ⟨((lookup_eq_ok_iff hw.tree).mp hlook).1, hleads⟩)

theorem unlink_kept (q : List Char) :
    Kept fs (fs.tmpfsUnlink q).1 [(fs.tmpfsUnlink q).2] fun m => fs.lookup q = .ok m := by
  unfold tmpfsUnlink
  cases hlook : fs.lookup q with
  | error status => exact .refl hw
  | ok i =>
    dsimp only
    split
    · exact .refl hw
    next hroot =>
    split
    · exact .refl hw
    next hchildren =>
    split
    · exact .refl hw
    next hopen =>
      rw [← hlook]
      exact kept_of_nodes hw (hw.release hroot (Bool.eq_false_iff.mpr hchildren)
        (Bool.eq_false_iff.mpr hopen)) (fun j hj => setNode_of_ne hj) hlook

theorem rename_kept (q newName : List Char) : Kept fs (fs.tmpfsRename q newName).1
    [(fs.tmpfsRename q newName).2] fun m => fs.lookup q = .ok m := by
  unfold tmpfsRename
  cases hlook : fs.lookup q with
  | error status => exact .refl hw
  | ok i =>
    dsimp only
    split
    · exact .refl hw
    next hroot =>
    split
    · exact .refl hw
    next hvalid =>
    split
    · exact .refl hw
    next hexisting =>
    have hname : newName ≠ [] := by
      rintro rfl
      exact hvalid rfl
    rw [← hlook]
    exact kept_of_nodes hw (hw.rename hroot (hw.live hlook) hname
      (freeName_of_findChild hw.tree hexisting)) (fun j hj => setNode_of_ne hj) hlook

/-- A node that is a directory is not above its new parent, since `is_ancestor` says so. -/
theorem not_above_of_isAncestor {parent : Index} (hparent : fs.tree.inner parent)
    (h : (if (fs.nodes i).directory then fs.isAncestor i maxNodes parent else some false) =
      some false) : ¬fs.tree.Above i parent := by
  split at h
  · obtain ⟨b, hb, hiff⟩ := hw.isAncestor hparent.1 i
    rw [hb] at h
    obtain rfl := Option.some.inj h
    exact fun habove => Bool.false_ne_true (hiff.mpr habove)
  next hfile =>
    have hinner : ¬fs.tree.inner i := fun hinner => hfile hinner.2
    exact hw.tree.not_above_of_not_inner hinner hparent.1 fun heq => hinner (heq ▸ hparent)

theorem move_kept (q destination : List Char) : Kept fs (fs.tmpfsMove q destination).1
    (fs.tmpfsMove q destination).2.toList fun m => fs.lookup q = .ok m := by
  unfold tmpfsMove
  cases hlook : fs.lookup q with
  | error status => exact .refl hw
  | ok i =>
    cases hdst : fs.lookup destination with
    | error status => exact .refl hw
    | ok parent =>
      dsimp only
      split
      · exact .refl hw
      next hroot =>
      split
      · exact .refl hw
      next hdir =>
      rw [Bool.not_eq_true', Bool.not_eq_false] at hdir
      have hinner : fs.tree.inner parent := ⟨hw.live hdst, hdir⟩
      generalize hancestor : (if (fs.nodes i).directory then fs.isAncestor i maxNodes parent
        else some false) = ancestor
      rcases ancestor with _ | _ | _
      · exact .refl hw
      · dsimp only
        split
        · exact .refl hw
        next hexisting =>
        have habove : ¬fs.tree.Above i parent := not_above_of_isAncestor hw hinner hancestor
        rw [← hlook]
        exact kept_of_nodes hw
          (hw.move hroot (hw.live hlook) hinner habove (freeName_of_findChild hw.tree hexisting))
          (fun j hj => setNode_of_ne hj) hlook
      · exact .refl hw

/-- Moving returns. -/
theorem move_returns (q destination : List Char) :
    (fs.tmpfsMove q destination).2.isSome = true := by
  unfold tmpfsMove
  cases hlook : fs.lookup q with
  | error status => rfl
  | ok i =>
    cases hdst : fs.lookup destination with
    | error status => rfl
    | ok parent =>
      dsimp only
      split
      · rfl
      split
      · rfl
      obtain ⟨b, hb, -⟩ := hw.isAncestor (hw.live hdst) i
      rw [hb]
      cases (fs.nodes i).directory with
      | false =>
        simp only [Bool.false_eq_true, if_false]
        split <;> rfl
      | true =>
        cases b with
        | true => rfl
        | false =>
          simp only [if_true]
          split <;> rfl

/-- Handles change and nothing else. -/
theorem kept_setHandle {d : Fin maxOpen} {h : Handle}
    (hh : h.used = true → (fs.nodes h.node).used = true ∧ (fs.nodes h.node).directory = false) :
    Kept fs (fs.setHandle d h) status through :=
  ⟨hw.setHandle hh, fun _ _ _ => id⟩

theorem createEntry_kept (path : List Char) (directory : Bool) :
    Kept fs (fs.createEntry path directory).1 status through := by
  rcases createEntry_cases hw path directory with ⟨status, -, hcreate⟩ |
    ⟨i, parent, leaf, -, hroom, hcreate⟩
  · rw [hcreate]
    exact .refl hw
  · rw [hcreate]
    exact ⟨hroom.wellFormed hw, fun q _ => hroom.spared hw⟩

theorem open_kept (path : List Char) : Kept fs (fs.tmpfsOpen path).1 status through := by
  unfold tmpfsOpen
  split
  · exact .refl hw
  next i hlook =>
  split
  · exact .refl hw
  next hfile =>
    split
    · exact .refl hw
    · exact kept_setHandle hw fun _ => ⟨hw.live hlook, Bool.eq_false_iff.mpr hfile⟩

theorem read_kept (descriptor : Int) (count : Nat) :
    Kept fs (fs.tmpfsRead descriptor count).1 status through := by
  unfold tmpfsRead
  split
  · exact .refl hw
  next d hget =>
    dsimp only
    split
    · exact .refl hw
    · exact kept_setHandle hw fun _ => hw.handles d (used_of_getHandle hget)

theorem seek_kept (descriptor offset : Int) (whence : Whence) :
    Kept fs (fs.tmpfsSeek descriptor offset whence).1 status through := by
  unfold tmpfsSeek
  split
  · exact .refl hw
  next d hget =>
  cases whence
  all_goals
    dsimp only
    split
    · exact .refl hw
    · exact kept_setHandle hw fun _ => hw.handles d (used_of_getHandle hget)

theorem close_kept (descriptor : Int) : Kept fs (fs.tmpfsClose descriptor).1 status through := by
  unfold tmpfsClose
  split
  · exact .refl hw
  · exact kept_setHandle hw nofun

end Kept

/-- The three parts of `Spares` for calls that go through nodes, are harmless, or write. -/
theorem Kept.spec {status : List Int} {through : Index → Prop} {touches : List Char → Prop}
    (h : Kept fs fs' status through) (htouches : ∀ path, ¬touches path → ∀ m i, through m →
      fs.lookup path = .ok i → ¬fs.tree.Above m i) :
    fs'.WellFormed ∧ ∀ path, ((∃ n ∈ status, n < 0) ∨ ¬touches path) → Spared path fs fs' := by
  refine ⟨h.wellFormed, fun path hspares => h.spared path ?_⟩
  exact hspares.imp_right (htouches path)

theorem Kept.harmless {status : List Int} {touches : List Char → Prop}
    (h : Kept fs fs' status fun _ => False) :
    fs'.WellFormed ∧ ∀ path, ((∃ n ∈ status, n < 0) ∨ ¬touches path) → Spared path fs fs' :=
  h.spec fun _ _ _ _ => False.elim

theorem Written.spec {contents : List Byte}
    {result : Tmpfs × Int} (h : Written q contents fs result) : result.1.WellFormed ∧ ∀ path,
    ((∃ n ∈ [result.2], n < 0) ∨ ¬fs.lookup path = fs.lookup q) → Spared path fs result.1 := by
  refine ⟨h.wellFormed, fun path hspares => ?_⟩
  rcases hspares with ⟨n, hn, hneg⟩ | hother
  · exact h.failed (mem_singleton.mp hn ▸ hneg) path
  · exact h.others path hother

/-- One call keeps a tmpfs well-formed, and the contents of a path that it spares. -/
theorem step_spec (hw : fs.WellFormed) (c : Call) :
    (fs.step c).1.WellFormed ∧ ∀ path, Spares path fs c → Spared path fs (fs.step c).1 := by
  have hthrough : ∀ (q path : List Char),
      (¬∃ m i, fs.lookup q = .ok m ∧ fs.lookup path = .ok i ∧ fs.tree.Above m i) →
      ∀ m i, fs.lookup q = .ok m → fs.lookup path = .ok i → ¬fs.tree.Above m i :=
    fun q path htouch m i hm hi habove => htouch ⟨m, i, hm, hi, habove⟩
  cases c with
  | createFile path => exact (createEntry_kept hw path false).harmless
  | createDirectory path => exact (createEntry_kept hw path true).harmless
  | writeFile path bytes memory => exact (writeFile_written hw path bytes memory).spec
  | appendFile path bytes memory => exact (appendFile_written hw path bytes memory).spec
  | unlink path => exact (unlink_kept hw path).spec (hthrough path)
  | rename path newName => exact (rename_kept hw path newName).spec (hthrough path)
  | move path destination => exact (move_kept hw path destination).spec (hthrough path)
  | openFile path => exact (open_kept hw path).harmless
  | read descriptor count => exact (read_kept hw descriptor count).harmless
  | seek descriptor offset whence => exact (seek_kept hw descriptor offset whence).harmless
  | close descriptor => exact (close_kept hw descriptor).harmless

/-! ## Runs -/

theorem wellFormed_run (hw : fs.WellFormed) (calls : List Call) :
    (Run.run step fs calls).1.WellFormed := by
  induction calls generalizing fs with
  | nil => exact hw
  | cons c calls ih => exact ih (step_spec hw c).1

theorem spared_run {calls : List Call} (hw : fs.WellFormed)
    (h : Run.Along step (Spares path) fs calls) : Spared path fs (Run.run step fs calls).1 := by
  induction calls generalizing fs with
  | nil => exact .refl path fs
  | cons c calls ih =>
    obtain ⟨hwell, hspared⟩ := step_spec hw c
    exact (hspared path h.1).trans (ih hwell h.2)

/--
After any calls a tmpfs is well-formed and a move returns; and if a file is written or appended to,
its path reads what was written, or what it had before with the new bytes at the end, until another
call changes this file or takes it away.
-/
theorem tmpfs_well_formed (totalBytes : Nat) (calls : List Call) :
    let fs := (Run.run step (create totalBytes) calls).1
    fs.WellFormed ∧ (∀ path destination, (fs.tmpfsMove path destination).2.isSome = true) ∧
    (∀ path bytes memory, 0 ≤ (fs.tmpfsWriteFile path bytes memory).2 →
      ∀ later, Run.Along step (Spares path) (fs.tmpfsWriteFile path bytes memory).1 later →
        (Run.run step (fs.tmpfsWriteFile path bytes memory).1 later).1.ReadsBack path bytes) ∧
    (∀ path bytes memory, 0 ≤ (fs.tmpfsAppendFile path bytes memory).2 →
      ∀ later, Run.Along step (Spares path) (fs.tmpfsAppendFile path bytes memory).1 later →
        (Run.run step (fs.tmpfsAppendFile path bytes memory).1 later).1.ReadsBack path
          ((fs.contentsAt path).getD [] ++ bytes)) := by
  intro fs
  have hw : fs.WellFormed := wellFormed_run (wellFormed_create totalBytes) calls
  have hlater : ∀ {contents : List Byte} {path : List Char} {result : Tmpfs × Int}, Written path
      contents fs result → 0 ≤ result.2 → ∀ later, Run.Along step (Spares path) result.1 later →
      (Run.run step result.1 later).1.ReadsBack path contents := by
    intro contents path result hwritten hdone later hspares
    exact readsBack_of_contentsAt
      (spared_run hwritten.wellFormed hspares contents (hwritten.done hdone))
  refine ⟨hw, move_returns hw, fun path bytes memory hdone => ?_, fun path bytes memory hdone => ?_⟩
  · exact hlater (writeFile_written hw path bytes memory) hdone
  · exact hlater (appendFile_written hw path bytes memory) hdone

end PureCOS.Tmpfs
