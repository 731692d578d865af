import PureCOS.Tmpfs.Nodes

/-!
# The changes that calls make

A call adds a node, gives a node more pages, stores into it, removes, renames or moves it, or
changes a handle.  Each of these keeps a tmpfs well-formed, and each leaves the contents of a path
alone unless it stores into its file, or takes away a node on the way to it.
-/

namespace PureCOS.Tmpfs

open Vfs List

variable {fs fs' : Tmpfs} {i j parent : Index} {n : Node} {name leaf path : List Char}
  {bytes data : List Byte}

/-! ## Contents of a path -/

/-- The contents of the file at a path. -/
def contentsAt (fs : Tmpfs) (path : List Char) : Option (List Byte) :=
  match fs.lookup path with
  | .error _ => none
  | .ok i => if (fs.nodes i).directory then none else some (fs.nodes i).contents

theorem contentsAt_of_lookup (h : fs.lookup path = .ok i) (hfile : (fs.nodes i).directory = false) :
    fs.contentsAt path = some (fs.nodes i).contents := by
  unfold contentsAt
  rw [h]
  simp only [hfile, Bool.false_eq_true, if_false]

theorem lookup_of_contentsAt (h : fs.contentsAt path = some data) : ∃ i, fs.lookup path = .ok i ∧
    (fs.nodes i).directory = false ∧ (fs.nodes i).contents = data := by
  unfold contentsAt at h
  cases hlook : fs.lookup path with
  | error status =>
    rw [hlook] at h
    cases h
  | ok i =>
    rw [hlook] at h
    simp only at h
    split at h
    · cases h
    next hfile => exact ⟨i, rfl, Bool.eq_false_iff.mpr hfile, Option.some.inj h⟩

/-- The contents of a path are still the same. -/
def Spared (path : List Char) (fs fs' : Tmpfs) : Prop :=
  ∀ data, fs.contentsAt path = some data → fs'.contentsAt path = some data

theorem Spared.refl (path : List Char) (fs : Tmpfs) : Spared path fs fs := fun _ => id

theorem Spared.trans {fs'' : Tmpfs} (h : Spared path fs fs') (h' : Spared path fs' fs'') :
    Spared path fs fs'' :=
  fun data hdata => h' data (h data hdata)

/-- The path leads to the same node, and that is the same file. -/
theorem spared_of_leads (hw : fs.WellFormed) (hw' : fs'.WellFormed)
    (h : ∀ i, fs.tree.Leads (pathNames path) i → (fs.nodes i).directory = false →
      fs'.tree.Leads (pathNames path) i ∧ (fs'.nodes i).directory = false ∧
      (fs'.nodes i).contents = (fs.nodes i).contents) : Spared path fs fs' := by
  intro data hdata
  obtain ⟨i, hlook, hfile, rfl⟩ := lookup_of_contentsAt hdata
  obtain ⟨hhead, hleads⟩ := (lookup_eq_ok_iff hw.tree).mp hlook
  obtain ⟨hleads', hfile', hsame⟩ := h i hleads hfile
  rw [contentsAt_of_lookup ((lookup_eq_ok_iff hw'.tree).mpr ⟨hhead, hleads'⟩) hfile', hsame]

/-- One node changes that is not on the way to the file. -/
theorem spared_of_not_above (hw : fs.WellFormed) (hw' : fs'.WellFormed)
    (hnodes : ∀ j, j ≠ i → fs'.nodes j = fs.nodes j) (hi : ∀ j, fs.tree.Leads (pathNames path) j →
      (fs.nodes j).directory = false → ¬fs.tree.Above i j) : Spared path fs fs' := by
  refine spared_of_leads hw hw' fun j hleads hfile => ?_
  have habove := hi j hleads hfile
  have hne : j ≠ i := fun heq => habove (heq ▸ .self)
  refine ⟨hleads.of_agree (agreeOff_of_nodes hnodes) habove, ?_, ?_⟩
  · rw [hnodes j hne]
    exact hfile
  · rw [hnodes j hne]

/-! ## Errors -/

theorem descend_error {current : Index} {status : Int}
    (h : fs.descend current name = .error status) : status < 0 := by
  unfold descend at h
  split at h
  · split at h
    · cases h
      decide
    · cases h
  · cases h
    decide

theorem lookup_error {status : Int} (h : fs.lookup path = .error status) : status < 0 := by
  unfold lookup at h
  split at h
  · generalize pathNames path = names at h
    induction names using reverseRecOn generalizing status with
    | nil => cases h
    | append_singleton names name ih =>
      rw [lookupNames_append] at h
      cases hcur : fs.lookupNames names with
      | error status' =>
        rw [hcur] at h
        cases h
        exact ih hcur
      | ok current =>
        rw [hcur] at h
        exact descend_error h
  · cases h
    decide

/-! ## A new node -/

/-- A free node, and a directory without a child of this name. -/
structure Room (fs : Tmpfs) (i parent : Index) (leaf : List Char) : Prop where
  ne_root : i ≠ root
  free : (fs.nodes i).used = false
  inner : fs.tree.inner parent
  named : leaf ≠ []
  absent : fs.findChild parent leaf = none

/-- The node that `allocate_node` makes. -/
def newNode (parent : Index) (leaf : List Char) (directory : Bool) : Node :=
  { Node.blank with used := true, directory := directory, parent := parent, name := leaf }

theorem splitParent_ok (hw : fs.WellFormed) (h : fs.splitParent path = .ok (parent, leaf)) :
    fs.tree.inner parent ∧ leaf ≠ [] := by
  unfold splitParent at h
  split at h
  · cases h
  split at h
  · cases h
  next hbounds =>
  split at h
  · cases h
  next found hlook =>
  split at h
  next hdir =>
    cases h
    exact ⟨⟨hw.live hlook, hdir⟩, fun hnil => hbounds (.inl hnil)⟩
  · cases h

theorem splitParent_error {status : Int} (h : fs.splitParent path = .error status) :
    status < 0 := by
  unfold splitParent at h
  split at h
  · cases h
    decide
  split at h
  · cases h
    decide
  split at h
  next status' hlook =>
    cases h
    exact lookup_error hlook
  · split at h
    · cases h
    · cases h
      decide

/-- `create_entry` fails, or adds a node. -/
theorem createEntry_cases (hw : fs.WellFormed) (path : List Char) (directory : Bool) :
    (∃ status < 0, fs.createEntry path directory = (fs, status)) ∨
      ∃ i parent leaf, fs.splitParent path = .ok (parent, leaf) ∧ Room fs i parent leaf ∧
        fs.createEntry path directory = (fs.setNode i (newNode parent leaf directory), 0) := by
  unfold createEntry
  split
  next status hsplit => exact .inl ⟨status, splitParent_error hsplit, rfl⟩
  next parent leaf hsplit =>
  split
  · exact .inl ⟨fsErrorExists, by decide, rfl⟩
  next habsent =>
  unfold allocateNode
  cases hfind : (finRange maxNodes).find? fun i => i != root && !(fs.nodes i).used with
  | none => exact .inl ⟨fsErrorNoSpace, by decide, rfl⟩
  | some i =>
    right
    obtain ⟨hparent, hleaf⟩ := splitParent_ok hw hsplit
    have hfree := find?_some hfind
    rw [Bool.and_eq_true, bne_iff_ne, Bool.not_eq_true'] at hfree
    exact ⟨i, parent, leaf, hsplit,
      ⟨hfree.1, hfree.2, hparent, hleaf, Option.not_isSome_iff_eq_none.mp habsent⟩, rfl⟩

section Create

variable {directory : Bool}

theorem Room.not_inner (hroom : Room fs i parent leaf) : ¬fs.tree.inner i := by
  rintro ⟨hused, -⟩
  exact Bool.false_ne_true (hroom.free.symm.trans hused)

theorem Room.wellFormed (hw : fs.WellFormed) (hroom : Room fs i parent leaf) :
    (fs.setNode i (newNode parent leaf directory)).WellFormed := by
  have hagree : NameTree.AgreeOff i fs.tree (fs.setNode i (newNode parent leaf directory)).tree :=
    agreeOff_of_nodes fun j hj => setNode_of_ne hj
  have hlive : fs.tree.live parent := hroom.inner.1
  have hne : parent ≠ i := fun heq => hroom.not_inner (heq ▸ hroom.inner)
  have hnew : (fs.setNode i (newNode parent leaf directory)).nodes i =
      newNode parent leaf directory :=
    setNode_self
  have hparent : (fs.setNode i (newNode parent leaf directory)).tree.parent i = parent :=
    congrArg Node.parent hnew
  have hname : (fs.setNode i (newNode parent leaf directory)).tree.name i = leaf :=
    congrArg Node.name hnew
  have htree : (fs.setNode i (newNode parent leaf directory)).tree.Proper := by
    refine hw.tree.put hagree hroom.ne_root ?_
      (fun hinner => absurd hinner hroom.not_inner) ?_ ?_ ?_
    · exact congrArg Node.used hnew
    · rw [hparent]
      exact hroom.inner
    · rw [hparent]
      exact hw.tree.not_above_of_not_inner hroom.not_inner hlive hne
    intro j hj hjroot _ hjparent hjname
    rw [hparent] at hjparent
    rw [hname] at hjname
    exact not_isChild_of_findChild hroom.absent j (isChild_iff.mpr ⟨hj, hjroot, hjparent, hjname⟩)
  refine hw.setNode htree (fun _ _ => hroom.named) ?_ hw.limit (fun _ => rfl) (Nat.zero_mul _).symm
    (Nat.zero_le _) fun d hd hnode => ?_
  · rw [hw.unused i hroom.free]
    rfl
  · have hused := (hw.handles d hd).1
    rw [hnode, hroom.free] at hused
    cases hused

/-- No path has led to the new node. -/
theorem Room.spared (hw : fs.WellFormed) (hroom : Room fs i parent leaf) :
    Spared path fs (fs.setNode i (newNode parent leaf directory)) := by
  refine spared_of_not_above hw (hroom.wellFormed hw) (fun j hj => setNode_of_ne hj)
    fun j hleads _ => ?_
  have hlive := hleads.live hw.tree
  refine hw.tree.not_above_of_not_inner hroom.not_inner hlive fun heq => ?_
  have hused : (fs.nodes j).used = true := hlive
  rw [heq, hroom.free] at hused
  cases hused

end Create

/-! ## More pages -/

/-- Two states with the same nodes, but for the pages of one of them. -/
structure Reserved (i : Index) (fs fs' : Tmpfs) : Prop where
  wellFormed : fs'.WellFormed
  nodes : ∀ j, j ≠ i → fs'.nodes j = fs.nodes j
  handles : fs'.handles = fs.handles
  tree : fs'.tree = fs.tree
  size : (fs'.nodes i).size = (fs.nodes i).size
  contents : (fs'.nodes i).contents = (fs.nodes i).contents

theorem Reserved.refl (hw : fs.WellFormed) (i : Index) : Reserved i fs fs :=
  ⟨hw, fun _ _ => rfl, rfl, rfl, rfl, rfl⟩

theorem directory_eq_of_tree (h : fs'.tree = fs.tree) (hused : (fs.nodes i).used = true) :
    (fs'.nodes i).directory = (fs.nodes i).directory := by
  have hinner : ((fs'.nodes i).used = true ∧ (fs'.nodes i).directory = true) =
      ((fs.nodes i).used = true ∧ (fs.nodes i).directory = true) :=
    congrFun (congrArg NameTree.inner h) i
  have hlive : ((fs'.nodes i).used = true) = ((fs.nodes i).used = true) :=
    congrFun (congrArg NameTree.live h) i
  rw [hlive] at hinner
  simp only [hused, true_and, eq_iff_iff] at hinner
  exact Bool.eq_iff_iff.mpr hinner

theorem Reserved.spared (hw : fs.WellFormed) (h : Reserved i fs fs') : Spared path fs fs' := by
  refine spared_of_leads hw h.wellFormed fun j hleads hfile => ⟨h.tree ▸ hleads, ?_, ?_⟩
  · rw [directory_eq_of_tree h.tree (hleads.live hw.tree)]
    exact hfile
  · by_cases hj : j = i
    · exact hj ▸ h.contents
    · rw [h.nodes j hj]

/-- A change of data does not change the tree. -/
theorem tree_setNode {n : Node} (hused : n.used = (fs.nodes i).used)
    (hdir : n.directory = (fs.nodes i).directory) (hparent : n.parent = (fs.nodes i).parent)
    (hname : n.name = (fs.nodes i).name) : (fs.setNode i n).tree = fs.tree := by
  have hall : ∀ j, ((fs.setNode i n).nodes j).used = (fs.nodes j).used ∧
      ((fs.setNode i n).nodes j).directory = (fs.nodes j).directory ∧
      ((fs.setNode i n).nodes j).parent = (fs.nodes j).parent ∧
      ((fs.setNode i n).nodes j).name = (fs.nodes j).name := by
    intro j
    obtain rfl | hj := eq_or_ne j i
    · rw [setNode_self]
      exact ⟨hused, hdir, hparent, hname⟩
    · rw [setNode_of_ne hj]
      exact ⟨rfl, rfl, rfl, rfl⟩
  simp only [tree, hall]

/-- A node with its contents copied to more pages. -/
def Node.grow (n : Node) (pages : Nat) : Node :=
  { n with
    data := n.contents ++ replicate (pages * page - n.contents.length) 0
    pages := pages }

theorem contents_grow (n : Node) (pages : Nat) (h : n.contents.length = n.size) :
    (n.grow pages).contents = n.contents := by
  show (n.contents ++ replicate (pages * page - n.contents.length) 0).take n.size = n.contents
  rw [← h, take_left]

/-- Growing a node keeps a tmpfs well-formed if the limit allows it. -/
theorem reserved_grow (hw : fs.WellFormed) {pages : Nat}
    (hused : (fs.nodes i).used = true) (hpages : (fs.nodes i).pages < pages)
    (hlimit : fs.usedPages - (fs.nodes i).pages + pages ≤ fs.pageLimit) :
    Reserved i fs { fs.setNode i ((fs.nodes i).grow pages) with
      usedPages := fs.usedPages - (fs.nodes i).pages + pages } := by
  have hlen := hw.length_contents i
  have hsize : (fs.nodes i).size ≤ pages * page :=
    (hw.size i).trans (Nat.mul_le_mul_right page hpages.le)
  have htree : (fs.setNode i ((fs.nodes i).grow pages)).tree = fs.tree :=
    tree_setNode rfl rfl rfl rfl
  refine ⟨hw.setNode (htree ▸ hw.tree) (hw.names i) ?_ hlimit ?_ ?_ hsize ?_,
    fun j hj => setNode_of_ne hj, rfl, htree, ?_, ?_⟩
  · have hle := hw.pages_le i
    show fs.usedPages - (fs.nodes i).pages + pages + (fs.nodes i).pages = fs.usedPages + pages
    omega
  · intro hunused
    exact absurd (hunused.symm.trans hused) Bool.false_ne_true
  · show ((fs.nodes i).contents ++ replicate
      (pages * page - (fs.nodes i).contents.length) 0).length = pages * page
    rw [length_append, length_replicate]
    omega
  · intro d hd hnode
    exact hnode ▸ hw.handles d hd
  · show ((fs.setNode i ((fs.nodes i).grow pages)).nodes i).size = _
    rw [setNode_self]
    rfl
  · show ((fs.setNode i ((fs.nodes i).grow pages)).nodes i).contents = _
    rw [setNode_self]
    exact contents_grow _ _ hlen

theorem fsErrorNoSpace_neg : fsErrorNoSpace < 0 := by decide

theorem le_pages_mul (needed : Nat) : needed ≤ (needed + page - 1) / page * page := by
  unfold page
  omega

/-- `reserve` fails, or there is room afterwards. -/
theorem reserve_spec (hw : fs.WellFormed) (hused : (fs.nodes i).used = true) (needed : Nat)
    (memory : Bool) :
    Reserved i fs (fs.reserve i needed memory).1 ∧ ((fs.reserve i needed memory).2 < 0 ∨
      needed ≤ ((fs.reserve i needed memory).1.nodes i).pages * page) := by
  have hneeded := le_pages_mul needed
  unfold reserve
  split
  · exact ⟨.refl hw i, .inl fsErrorNoSpace_neg⟩
  dsimp only
  generalize (needed + page - 1) / page = pages at hneeded
  split
  next hle => exact ⟨.refl hw i, .inr (hneeded.trans (Nat.mul_le_mul_right page hle))⟩
  next hgt =>
  split
  · exact ⟨.refl hw i, .inl fsErrorNoSpace_neg⟩
  next hlimit =>
  split
  · refine ⟨reserved_grow hw hused (Nat.not_le.mp hgt) (Nat.not_lt.mp hlimit), .inr ?_⟩
    rw [setNode_self]
    exact hneeded
  · exact ⟨.refl hw i, .inl fsErrorNoSpace_neg⟩

/-! ## Storing -/

theorem contents_store (n : Node) {offset : Nat} (h : offset ≤ n.data.length) :
    (n.store offset bytes).contents = n.data.take offset ++ bytes := by
  have hlen : (n.data.take offset ++ bytes).length = offset + bytes.length := by
    rw [length_append, length_take, Nat.min_eq_left h]
  show (n.data.take offset ++ bytes ++ n.data.drop (offset + bytes.length)).take
    (offset + bytes.length) = _
  rw [← hlen, take_left]

theorem length_store (n : Node) {offset : Nat} (h : offset + bytes.length ≤ n.data.length) :
    (n.store offset bytes).data.length = n.data.length := by
  show (n.data.take offset ++ bytes ++ n.data.drop (offset + bytes.length)).length = _
  rw [length_append, length_append, length_take, length_drop]
  omega

section Store

variable {offset : Nat}

theorem tree_store (fs : Tmpfs) (i : Index) :
    (fs.setNode i ((fs.nodes i).store offset bytes)).tree = fs.tree :=
  tree_setNode rfl rfl rfl rfl

theorem WellFormed.store (hw : fs.WellFormed)
    (hroom : offset + bytes.length ≤ (fs.nodes i).pages * page) :
    (fs.setNode i ((fs.nodes i).store offset bytes)).WellFormed := by
  have hlen : ((fs.nodes i).store offset bytes).data.length = (fs.nodes i).data.length :=
    length_store _ (hw.data i ▸ hroom)
  refine hw.setNode (tree_store fs i ▸ hw.tree) (hw.names i) rfl hw.limit (hw.unused i)
    (hlen.trans (hw.data i)) hroom ?_
  intro d hd hnode
  exact hnode ▸ hw.handles d hd

/-- Storing into one file leaves the others alone. -/
theorem WellFormed.spared_store (hw : fs.WellFormed)
    (hroom : offset + bytes.length ≤ (fs.nodes i).pages * page) (hi : fs.lookup path ≠ .ok i) :
    Spared path fs (fs.setNode i ((fs.nodes i).store offset bytes)) := by
  intro data hdata
  obtain ⟨j, hlook, hfile, rfl⟩ := lookup_of_contentsAt hdata
  have hne : j ≠ i := fun heq => hi (heq ▸ hlook)
  have hlook' : (fs.setNode i ((fs.nodes i).store offset bytes)).lookup path = .ok j := by
    rw [lookup_eq_ok_iff (hw.store hroom).tree, tree_store]
    exact (lookup_eq_ok_iff hw.tree).mp hlook
  have hnode : (fs.setNode i ((fs.nodes i).store offset bytes)).nodes j = fs.nodes j :=
    setNode_of_ne hne
  rw [contentsAt_of_lookup hlook' (hnode ▸ hfile), hnode]

theorem WellFormed.contentsAt_store (hw : fs.WellFormed)
    (hroom : offset + bytes.length ≤ (fs.nodes i).pages * page) (hlook : fs.lookup path = .ok i)
    (hfile : (fs.nodes i).directory = false) :
    (fs.setNode i ((fs.nodes i).store offset bytes)).contentsAt path =
      some ((fs.nodes i).data.take offset ++ bytes) := by
  have hlook' : (fs.setNode i ((fs.nodes i).store offset bytes)).lookup path = .ok i := by
    rw [lookup_eq_ok_iff (hw.store hroom).tree, tree_store]
    exact (lookup_eq_ok_iff hw.tree).mp hlook
  have hnode : (fs.setNode i ((fs.nodes i).store offset bytes)).nodes i =
      (fs.nodes i).store offset bytes :=
    setNode_self
  have hfile' : ((fs.setNode i ((fs.nodes i).store offset bytes)).nodes i).directory = false := by
    rw [hnode]
    exact hfile
  rw [contentsAt_of_lookup hlook' hfile', hnode, contents_store]
  rw [hw.data i]
  omega

end Store

/-! ## Removing -/

theorem not_parent_of_no_children (hw : fs.WellFormed)
    (h : ((fs.nodes i).directory && fs.hasChildren i) = false) (hj : fs.tree.live j)
    (hroot : j ≠ fs.tree.root) : fs.tree.parent j ≠ i := by
  intro hparent
  have hinner := hw.tree.parent_inner hj hroot
  rw [hparent] at hinner
  rw [hinner.2, Bool.true_and] at h
  have hnone := any_eq_false.mp h j (mem_finRange j)
  exact hnone
    (by simp only [Bool.and_eq_true, bne_iff_ne, beq_iff_eq]; exact ⟨⟨hroot, hj⟩, hparent⟩)

theorem not_node_of_not_open (h : fs.isOpen i = false) (d : Fin maxOpen)
    (hd : (fs.handles d).used = true) : (fs.handles d).node ≠ i := by
  intro hnode
  have hnone := any_eq_false.mp h d (mem_finRange d)
  exact hnone (by simp only [Bool.and_eq_true, beq_iff_eq]; exact ⟨hd, hnode⟩)

theorem WellFormed.release (hw : fs.WellFormed)
    (hroot : i ≠ root) (hchildren : ((fs.nodes i).directory && fs.hasChildren i) = false)
    (hopen : fs.isOpen i = false) : (fs.releaseNode i).WellFormed := by
  have hagree : NameTree.AgreeOff i fs.tree (fs.setNode i Node.blank).tree :=
    agreeOff_of_nodes fun j hj => setNode_of_ne hj
  have hblank : (fs.setNode i Node.blank).nodes i = Node.blank := setNode_self
  have htree : (fs.setNode i Node.blank).tree.Proper := by
    refine hw.tree.drop hagree hroot
      (fun j hj hjroot => not_parent_of_no_children hw hchildren hj hjroot) ?_ ?_
    · intro hlive
      have hused : ((fs.setNode i Node.blank).nodes i).used = true := hlive
      rw [hblank] at hused
      cases hused
    · rintro ⟨hused, -⟩
      rw [hblank] at hused
      cases hused
  refine hw.setNode htree nofun ?_ ((Nat.sub_le _ _).trans hw.limit) (fun _ => rfl)
    (Nat.zero_mul _).symm (Nat.zero_le _) ?_
  · have hle := hw.pages_le i
    show fs.usedPages - (fs.nodes i).pages + (fs.nodes i).pages = fs.usedPages + 0
    omega
  · intro d hd hnode
    exact absurd hnode (not_node_of_not_open hopen d hd)

/-! ## Renaming and moving -/

/-- A name is free in a directory, or is that of the node itself. -/
def FreeName (fs : Tmpfs) (parent : Index) (name : List Char) (i : Index) : Prop :=
  ∀ j, fs.isChild parent name j = true → j = i

theorem freeName_of_findChild (ht : fs.tree.Proper)
    (h : ¬((fs.findChild parent name).isSome && fs.findChild parent name != some i) = true) :
    FreeName fs parent name i := by
  intro j hj
  rw [(findChild_eq_some_iff ht).mpr hj] at h
  simpa using h

/-- A node gets another parent or another name. -/
theorem WellFormed.relink (hw : fs.WellFormed) (hroot : i ≠ root) (hused : (fs.nodes i).used = true)
    (hparent : fs.tree.inner parent) (habove : ¬fs.tree.Above i parent) (hname : name ≠ [])
    (hfree : FreeName fs parent name i) :
    (fs.setNode i { fs.nodes i with parent := parent, name := name }).WellFormed := by
  generalize hdef : ({ fs.nodes i with parent := parent, name := name } : Node) = n
  obtain ⟨hnparent, hnname, hused', hdir, hdata, hpages, hsize⟩ : n.parent = parent ∧
    n.name = name ∧ n.used = (fs.nodes i).used ∧ n.directory = (fs.nodes i).directory ∧
    n.data = (fs.nodes i).data ∧ n.pages = (fs.nodes i).pages ∧ n.size = (fs.nodes i).size :=
    hdef ▸ ⟨rfl, rfl, rfl, rfl, rfl, rfl, rfl⟩
  have hagree : NameTree.AgreeOff i fs.tree (fs.setNode i n).tree :=
    agreeOff_of_nodes fun j hj => setNode_of_ne hj
  have hnew : (fs.setNode i n).nodes i = n := setNode_self
  have hnewParent : (fs.setNode i n).tree.parent i = parent :=
    (congrArg Node.parent hnew).trans hnparent
  have hnewName : (fs.setNode i n).tree.name i = name := (congrArg Node.name hnew).trans hnname
  have htree : (fs.setNode i n).tree.Proper := by
    refine hw.tree.put hagree hroot ?_ (fun hinner => ?_) ?_ ?_ ?_
    · exact (congrArg Node.used hnew).trans (hused'.trans hused)
    · exact ⟨(congrArg Node.used hnew).trans (hused'.trans hinner.1),
        (congrArg Node.directory hnew).trans (hdir.trans hinner.2)⟩
    · rw [hnewParent]
      exact hparent
    · rw [hnewParent]
      exact habove
    intro j hj hjroot hji hjparent hjname
    rw [hnewParent] at hjparent
    rw [hnewName] at hjname
    exact hji (hfree j (isChild_iff.mpr ⟨hj, hjroot, hjparent, hjname⟩))
  refine hw.setNode htree (fun _ _ => hnname ▸ hname) (by rw [hpages]) hw.limit ?_ ?_ ?_ ?_
  · intro hunused
    rw [hpages]
    exact hw.unused i (hused' ▸ hunused)
  · rw [hdata, hpages]
    exact hw.data i
  · rw [hsize, hpages]
    exact hw.size i
  · intro d hd hnode
    rw [hused', hdir, ← hnode]
    exact hw.handles d hd

theorem WellFormed.rename (hw : fs.WellFormed) (hroot : i ≠ root) (hused : (fs.nodes i).used = true)
    (hname : name ≠ []) (hfree : FreeName fs (fs.nodes i).parent name i) :
    (fs.setNode i { fs.nodes i with name := name }).WellFormed :=
  hw.relink hroot hused (hw.tree.parent_inner hused hroot)
    ((hw.tree.rooted i hused).not_above_parent hroot) hname hfree

theorem WellFormed.move (hw : fs.WellFormed) (hroot : i ≠ root) (hused : (fs.nodes i).used = true)
    (hparent : fs.tree.inner parent) (habove : ¬fs.tree.Above i parent)
    (hfree : FreeName fs parent (fs.nodes i).name i) :
    (fs.setNode i { fs.nodes i with parent := parent }).WellFormed :=
  hw.relink hroot hused hparent habove (hw.names i hused hroot) hfree

/-- The loop of `is_ancestor` ends, and its result is right. -/
theorem isAncestor_spec {depth rounds : Nat} (hdepth : fs.tree.AtDepth depth j)
    (hrounds : depth < rounds) :
    ∃ b, fs.isAncestor i rounds j = some b ∧ (b = true ↔ fs.tree.Above i j) := by
  induction hdepth generalizing rounds with
  | root =>
    obtain ⟨rounds, rfl⟩ := Nat.exists_eq_add_one.mpr hrounds
    refine ⟨i == root, if_pos rfl, ?_⟩
    rw [beq_iff_eq]
    constructor
    · rintro rfl
      exact .self
    intro habove
    cases habove with
    | self => rfl
    | up hne _ => exact absurd rfl hne
  | @child n j hne _ ih =>
    obtain ⟨rounds, rfl⟩ := Nat.exists_eq_add_one.mpr (Nat.zero_lt_of_lt hrounds)
    have hnext : fs.isAncestor i (rounds + 1) j =
        if j = i then some true else fs.isAncestor i rounds (fs.nodes j).parent := if_neg hne
    rw [hnext]
    by_cases hji : j = i
    · rw [if_pos hji]
      exact ⟨true, rfl, iff_of_true rfl (hji ▸ .self)⟩
    rw [if_neg hji]
    obtain ⟨b, hb, hiff⟩ := ih (Nat.lt_of_succ_lt_succ hrounds)
    refine ⟨b, hb, hiff.trans ⟨.up hne, fun habove => ?_⟩⟩
    cases habove with
    | self => exact absurd rfl hji
    | up _ habove => exact habove

theorem WellFormed.isAncestor (hw : fs.WellFormed) (hused : (fs.nodes j).used = true) (i : Index) :
    ∃ b, fs.isAncestor i maxNodes j = some b ∧ (b = true ↔ fs.tree.Above i j) := by
  obtain ⟨depth, hdepth⟩ := (hw.tree.rooted j hused).atDepth
  have hlt := hdepth.lt_card
  rw [Fintype.card_fin] at hlt
  exact isAncestor_spec hdepth hlt

/-! ## Handles -/

theorem WellFormed.setHandle (hw : fs.WellFormed) {d : Fin maxOpen} {h : Handle}
    (hh : h.used = true → (fs.nodes h.node).used = true ∧ (fs.nodes h.node).directory = false) :
    (fs.setHandle d h).WellFormed := by
  refine ⟨hw.tree, hw.names, hw.accounts, hw.limit, hw.unused, hw.data, hw.size, fun e he => ?_⟩
  by_cases hed : e = d
  · rw [hed, handles_setHandle_self] at he ⊢
    exact hh he
  · have hother : (fs.setHandle d h).handles e = fs.handles e := Function.update_of_ne hed ..
    rw [hother] at he ⊢
    exact hw.handles e he

end PureCOS.Tmpfs
