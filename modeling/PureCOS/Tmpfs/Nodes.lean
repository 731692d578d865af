import Mathlib.Algebra.BigOperators.Fin
import Mathlib.Algebra.Order.BigOperators.Group.Finset
import PureCOS.Lib.NameTree
import PureCOS.Tmpfs.Calls

/-!
# What holds of the nodes of a tmpfs

The nodes in use are a tree of names, their pages are accounted for, and handles refer to files.
Every call changes one node at a time; this module says for each kind of change that it keeps this,
and what names lead to the same file as before.
-/

namespace PureCOS.Tmpfs

open Vfs Function List

variable {fs fs' : Tmpfs} {i j parent : Index} {n : Node} {name path : List Char}
  {names : List (List Char)}

/-! ## Fields after an update -/

@[simp] theorem setNode_self : (fs.setNode i n).nodes i = n := update_self ..

theorem setNode_of_ne (h : j ≠ i) : (fs.setNode i n).nodes j = fs.nodes j := update_of_ne h ..

@[simp] theorem handles_setNode : (fs.setNode i n).handles = fs.handles := rfl

@[simp] theorem handles_setHandle_self (d : Fin maxOpen) (h : Handle) :
    (fs.setHandle d h).handles d = h :=
  update_self ..

/-! ## The tree -/

/-- The nodes as a tree of names. -/
def tree (fs : Tmpfs) : NameTree Index (List Char) where
  root := root
  parent := fun i => (fs.nodes i).parent
  name := fun i => (fs.nodes i).name
  live := fun i => (fs.nodes i).used = true
  inner := fun i => (fs.nodes i).used = true ∧ (fs.nodes i).directory = true

/-- Nodes that are the same but for one. -/
theorem agreeOff_of_nodes (h : ∀ j, j ≠ i → fs'.nodes j = fs.nodes j) :
    NameTree.AgreeOff i fs.tree fs'.tree where
  root := rfl
  parent := fun j hj => congrArg Node.parent (h j hj)
  name := fun j hj => congrArg Node.name (h j hj)
  live := fun j hj => by simp only [tree, h j hj]
  inner := fun j hj => by simp only [tree, h j hj]

theorem isChild_iff : fs.isChild parent name i = true ↔
    fs.tree.live i ∧ i ≠ root ∧ fs.tree.parent i = parent ∧ fs.tree.name i = name := by
  simp only [isChild, tree, Bool.and_eq_true, bne_iff_ne, beq_iff_eq, and_assoc]

theorem isChild_of_findChild (h : fs.findChild parent name = some i) :
    fs.isChild parent name i = true :=
  find?_some h

theorem not_isChild_of_findChild (h : fs.findChild parent name = none) (i : Index) :
    ¬fs.isChild parent name i = true :=
  find?_eq_none.mp h i (mem_finRange i)

/-- There is at most one child of a name. -/
theorem findChild_eq_some_iff (ht : fs.tree.Proper) :
    fs.findChild parent name = some i ↔ fs.isChild parent name i = true := by
  refine ⟨isChild_of_findChild, fun hchild => ?_⟩
  cases hfind : fs.findChild parent name with
  | none => exact absurd hchild (not_isChild_of_findChild hfind i)
  | some j =>
    obtain ⟨hi, hiroot, hiparent, hiname⟩ := isChild_iff.mp hchild
    obtain ⟨hj, hjroot, hjparent, hjname⟩ := isChild_iff.mp (isChild_of_findChild hfind)
    rw [ht.siblings j i hj hi hjroot hiroot (hjparent.trans hiparent.symm)
      (hjname.trans hiname.symm)]

theorem descend_eq_ok_iff {current : Index} : fs.descend current name = .ok i ↔
    (fs.nodes current).directory = true ∧ fs.findChild current name = some i := by
  unfold descend
  cases hdir : (fs.nodes current).directory with
  | false => simp
  | true => cases fs.findChild current name <;> simp

theorem lookupNames_append (names : List (List Char)) (name : List Char) : fs.lookupNames
    (names ++ [name]) = (fs.lookupNames names).bind fun current => fs.descend current name := by
  unfold lookupNames
  rw [foldlM_append]
  simp only [foldlM_cons, foldlM_nil, bind_pure]
  rfl

/-- Walking down finds the node that the names lead to. -/
theorem lookupNames_eq_ok_iff (ht : fs.tree.Proper) :
    fs.lookupNames names = .ok i ↔ fs.tree.Leads names i := by
  constructor
  · intro h
    induction names using reverseRecOn generalizing i with
    | nil =>
      obtain rfl : root = i := Except.ok.inj h
      exact .root
    | append_singleton names name ih =>
      rw [lookupNames_append] at h
      cases hcur : fs.lookupNames names with
      | error status =>
        rw [hcur] at h
        cases h
      | ok current =>
        rw [hcur] at h
        obtain ⟨hdir, hfind⟩ := descend_eq_ok_iff.mp h
        obtain ⟨hlive, hroot, rfl, rfl⟩ := isChild_iff.mp (isChild_of_findChild hfind)
        have hleads := ih hcur
        exact .child hlive hroot ⟨hleads.live ht, hdir⟩ hleads
  · intro h
    induction h with
    | root => rfl
    | child hlive hroot hinner _ ih =>
      rw [lookupNames_append, ih]
      exact descend_eq_ok_iff.mpr
        ⟨hinner.2, (findChild_eq_some_iff ht).mpr (isChild_iff.mpr ⟨hlive, hroot, rfl, rfl⟩)⟩

theorem lookup_eq_ok_iff (ht : fs.tree.Proper) :
    fs.lookup path = .ok i ↔ path.head? = some '/' ∧ fs.tree.Leads (pathNames path) i := by
  unfold lookup
  by_cases hhead : path.head? = some '/'
  · rw [if_pos hhead, lookupNames_eq_ok_iff ht, and_iff_right hhead]
  · rw [if_neg hhead]
    exact ⟨nofun, fun h => absurd h.1 hhead⟩

/-! ## Well-formed states -/

/-- The nodes are a tree, sizes and pages fit together, and handles refer to files. -/
structure WellFormed (fs : Tmpfs) : Prop where
  tree : fs.tree.Proper
  names : ∀ i, (fs.nodes i).used = true → i ≠ root → (fs.nodes i).name ≠ []
  accounts : fs.usedPages = ∑ i, (fs.nodes i).pages
  limit : fs.usedPages ≤ fs.pageLimit
  unused : ∀ i, (fs.nodes i).used = false → (fs.nodes i).pages = 0
  data : ∀ i, (fs.nodes i).data.length = (fs.nodes i).pages * page
  size : ∀ i, (fs.nodes i).size ≤ (fs.nodes i).pages * page
  handles : ∀ d, (fs.handles d).used = true →
    (fs.nodes (fs.handles d).node).used = true ∧ (fs.nodes (fs.handles d).node).directory = false

theorem WellFormed.live (hw : fs.WellFormed) (h : fs.lookup path = .ok i) :
    (fs.nodes i).used = true :=
  ((lookup_eq_ok_iff hw.tree).mp h).2.live hw.tree

theorem WellFormed.length_contents (hw : fs.WellFormed) (i : Index) :
    (fs.nodes i).contents.length = (fs.nodes i).size := by
  unfold Node.contents
  rw [length_take, hw.data i]
  exact Nat.min_eq_left (hw.size i)

/-- The pages of one node change. -/
theorem sum_pages_setNode (fs : Tmpfs) (i : Index) (n : Node) :
    (∑ j, ((fs.setNode i n).nodes j).pages) + (fs.nodes i).pages =
      (∑ j, (fs.nodes j).pages) + n.pages := by
  have hcomp : (fun j => ((fs.setNode i n).nodes j).pages) =
      update (fun j => (fs.nodes j).pages) i n.pages := by
    funext j
    by_cases hj : j = i
    · rw [hj, setNode_self, update_self]
    · rw [setNode_of_ne hj, update_of_ne hj]
  have hsplit := Finset.add_sum_erase Finset.univ (fun j => (fs.nodes j).pages) (Finset.mem_univ i)
  rw [hcomp, Finset.sum_update_of_mem (Finset.mem_univ i), Finset.sdiff_singleton_eq_erase]
  omega

theorem WellFormed.pages_le (hw : fs.WellFormed) (i : Index) :
    (fs.nodes i).pages ≤ fs.usedPages := by
  rw [hw.accounts]
  exact Finset.single_le_sum (f := fun j => (fs.nodes j).pages) (fun _ _ => Nat.zero_le _)
    (Finset.mem_univ i)

/-- What has to be checked if one node changes. -/
theorem WellFormed.setNode (hw : fs.WellFormed) {usedPages : Nat}
    (htree : (fs.setNode i n).tree.Proper) (hname : n.used = true → i ≠ root → n.name ≠ [])
    (haccounts : usedPages + (fs.nodes i).pages = fs.usedPages + n.pages)
    (hlimit : usedPages ≤ fs.pageLimit) (hunused : n.used = false → n.pages = 0)
    (hdata : n.data.length = n.pages * page) (hsize : n.size ≤ n.pages * page)
    (hhandles : ∀ d, (fs.handles d).used = true → (fs.handles d).node = i →
      n.used = true ∧ n.directory = false) :
    WellFormed { fs.setNode i n with usedPages := usedPages } := by
  have hnodes : ∀ {P : Node → Prop} (j : Index), (j = i → P n) → (j ≠ i → P (fs.nodes j)) →
      P ((fs.setNode i n).nodes j) := by
    intro P j hself hother
    by_cases hj : j = i
    · rw [hj, setNode_self]
      exact hself hj
    · rw [setNode_of_ne hj]
      exact hother hj
  refine ⟨htree, fun j => ?_, ?_, hlimit, fun j => ?_, fun j => ?_, fun j => ?_, fun d hd => ?_⟩
  · exact hnodes (P := fun m => m.used = true → j ≠ root → m.name ≠ []) j (fun hj => hj ▸ hname)
      fun _ => hw.names j
  · have hsum := sum_pages_setNode fs i n
    have haccount := hw.accounts
    show usedPages = ∑ j, ((fs.setNode i n).nodes j).pages
    omega
  · exact hnodes (P := fun m => m.used = false → m.pages = 0) j (fun _ => hunused)
      fun _ => hw.unused j
  · exact hnodes (P := fun m => m.data.length = m.pages * page) j (fun _ => hdata)
      fun _ => hw.data j
  · exact hnodes (P := fun m => m.size ≤ m.pages * page) j (fun _ => hsize) fun _ => hw.size j
  · exact hnodes (P := fun m => m.used = true ∧ m.directory = false) (fs.handles d).node
      (hhandles d hd) fun _ => hw.handles d hd

theorem wellFormed_create (totalBytes : Nat) : (create totalBytes).WellFormed := by
  have hblank : ∀ j, j ≠ root → (create totalBytes).nodes j = Node.blank := fun j hj => by
    simp only [create, update_of_ne hj]
  have hroot : (create totalBytes).nodes root =
      { Node.blank with used := true, directory := true } := by
    simp only [create, update_self]
  have hlive : ∀ j, ((create totalBytes).nodes j).used = true → j = root := by
    intro j hj
    by_contra hne
    rw [hblank j hne] at hj
    cases hj
  have hempty : ∀ j, ((create totalBytes).nodes j).data = [] ∧
      ((create totalBytes).nodes j).pages = 0 ∧ ((create totalBytes).nodes j).size = 0 := by
    intro j
    by_cases hj : j = root
    · rw [hj, hroot]
      exact ⟨rfl, rfl, rfl⟩
    · rw [hblank j hj]
      exact ⟨rfl, rfl, rfl⟩
  refine ⟨⟨?_, fun i hi => hi.1, fun i hi => ?_, fun i j hi hj hne => ?_⟩, fun i hi hne => ?_, ?_,
    Nat.zero_le _, fun i _ => (hempty i).2.1, fun i => ?_, fun i => ?_, nofun⟩
  · simp only [Tmpfs.tree, hroot, and_self]
  · exact hlive i hi ▸ .root
  · exact absurd (hlive i hi) hne
  · exact absurd (hlive i hi) hne
  · simp only [hempty, Finset.sum_const_zero]
    rfl
  · rw [(hempty i).1, (hempty i).2.1]
    rfl
  · rw [(hempty i).2.2]
    exact Nat.zero_le _

end PureCOS.Tmpfs
