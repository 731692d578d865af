import PureCOS.Vfs.Path

/-!
# Path aliases

`fs/vfs_alias.c`: old places of files are rewritten to where the files are now, at most
`ALIAS_PASSES` times.  All rewritings but one lead to a directory that no alias starts from; that
of `/bin/program/system` leads back to `/bin` and can be done again.
-/

namespace PureCOS.Vfs

open Segments List

def aliasPasses : Nat := 4

structure Alias where
  old : List Char
  new : List Char
  exactly : Bool
deriving DecidableEq

/-! ### Names in the table -/

namespace Name

def bin : List Char := ['b', 'i', 'n']
def program : List Char := ['p', 'r', 'o', 'g', 'r', 'a', 'm']
def login : List Char := ['l', 'o', 'g', 'i', 'n']
def usr : List Char := ['u', 's', 'r']
def games : List Char := ['g', 'a', 'm', 'e', 's']
def tetris : List Char := ['t', 'e', 't', 'r', 'i', 's']
def puzzle15 : List Char := ['p', 'u', 'z', 'z', 'l', 'e', '1', '5']
def system : List Char := ['s', 'y', 's', 't', 'e', 'm']
def sbin : List Char := ['s', 'b', 'i', 'n']
def reboot : List Char := ['r', 'e', 'b', 'o', 'o', 't']
def poweroff : List Char := ['p', 'o', 'w', 'e', 'r', 'o', 'f', 'f']
def shutdown : List Char := ['s', 'h', 'u', 't', 'd', 'o', 'w', 'n']
def halt : List Char := ['h', 'a', 'l', 't']
def mkfs : List Char := ['m', 'k', 'f', 's']
def hddcheck : List Char := ['h', 'd', 'd', 'c', 'h', 'e', 'c', 'k']
def init : List Char := ['i', 'n', 'i', 't']
def installer : List Char := ['i', 'n', 's', 't', 'a', 'l', 'l', 'e', 'r']
def snake : List Char := ['s', 'n', 'a', 'k', 'e']
def sound : List Char := ['s', 'o', 'u', 'n', 'd']
def share : List Char := ['s', 'h', 'a', 'r', 'e']
def sounds : List Char := ['s', 'o', 'u', 'n', 'd', 's']
def game : List Char := ['g', 'a', 'm', 'e']
def walpaper : List Char := ['w', 'a', 'l', 'p', 'a', 'p', 'e', 'r']
def wallpapers : List Char := ['w', 'a', 'l', 'l', 'p', 'a', 'p', 'e', 'r', 's']
def src : List Char := ['s', 'r', 'c']
def demo : List Char := ['d', 'e', 'm', 'o']
def modules : List Char := ['m', 'o', 'd', 'u', 'l', 'e', 's']
def firmware : List Char := ['f', 'i', 'r', 'm', 'w', 'a', 'r', 'e']
def lib : List Char := ['l', 'i', 'b']
def applications : List Char := ['a', 'p', 'p', 'l', 'i', 'c', 'a', 't', 'i', 'o', 'n', 's']
def ls : List Char := ['l', 's']
def game2048 : List Char := ['2', '0', '4', '8']
def guiDemo : List Char := ['g', 'u', 'i', '-', 'd', 'e', 'm', 'o']
def includeDir : List Char := ['i', 'n', 'c', 'l', 'u', 'd', 'e']

end Name

open Name

/-- A single file, at the paths with these names. -/
def Alias.whole (old new : List (List Char)) : Alias := ⟨pathOf old, pathOf new, true⟩

/-- A directory with all below it. -/
def Alias.tree (old new : List (List Char)) : Alias := ⟨pathOf old, pathOf new, false⟩

/-- The alias whose new place is in the way of other aliases. -/
def systemAlias : Alias := .tree [bin, program, system] [bin]

/-- Aliases of single files. -/
def fileAliases : List Alias :=
  [.whole [bin, program, login] [bin, login],
   .whole [bin, program, tetris] [usr, games, tetris],
   .whole [bin, program, puzzle15] [usr, games, puzzle15],
   .whole [bin, program, game2048] [usr, games, game2048],
   .whole [bin, program, system, reboot] [sbin, reboot],
   .whole [bin, program, system, poweroff] [sbin, poweroff],
   .whole [bin, program, system, shutdown] [sbin, shutdown],
   .whole [bin, program, system, halt] [sbin, halt],
   .whole [bin, program, system, mkfs] [sbin, mkfs],
   .whole [bin, program, system, hddcheck] [sbin, hddcheck],
   .whole [bin, init] [sbin, init],
   .whole [bin, installer] [sbin, installer],
   .whole [bin, reboot] [sbin, reboot],
   .whole [bin, poweroff] [sbin, poweroff],
   .whole [bin, shutdown] [sbin, shutdown],
   .whole [bin, halt] [sbin, halt],
   .whole [bin, mkfs] [sbin, mkfs],
   .whole [bin, hddcheck] [sbin, hddcheck],
   .whole [bin, snake] [usr, games, snake],
   .whole [bin, tetris] [usr, games, tetris],
   .whole [bin, puzzle15] [usr, games, puzzle15],
   .whole [bin, game2048] [usr, games, game2048],
   .whole [bin, guiDemo] [usr, bin, guiDemo]]

/-- Aliases of directories, behind that of `/bin/program/system`. -/
def treeAliases : List Alias :=
  [.tree [bin, program] [usr, bin],
   .tree [bin, sound] [usr, share, sounds],
   .tree [game, sound] [usr, share, sounds],
   .tree [game] [usr, games],
   .tree [walpaper] [usr, share, wallpapers],
   .tree [src, demo] [usr, share, demo],
   .tree [demo] [usr, share, demo],
   .tree [includeDir] [usr, includeDir],
   .tree [bin, modules] [lib, modules],
   .tree [bin, firmware] [lib, firmware]]

def aliases : List Alias := fileAliases ++ systemAlias :: treeAliases

/-- What a rewriting step returns: 0, 1 with the new path, or -1. -/
inductive Rewrite where
  | same
  | changed (next : List Char)
  | overflow
deriving DecidableEq

variable (a : Alias) (path : List Char) (capacity : Nat)

def rewriteDesktop : Rewrite :=
  let directory := pathOf [bin, program] ++ ['/']
  let target := pathOf [usr, share, applications] ++ ['/']
  if !vfsPathHasPrefix path (pathOf [bin, program]) || decide (path.length ≤ directory.length) ||
      ! (['.', 'd', 'e', 's', 'k', 't', 'o', 'p'].isSuffixOf path) then
    .same
  else
    let name := path.drop directory.length
    if name.contains '/' then .same
    else if capacity < target.length + name.length + 1 then .overflow
    else .changed (target ++ name)

/-- The test of the loop in `rewrite_once` -/
def Alias.matches : Bool :=
  if a.exactly then path == a.old else vfsPathHasPrefix path a.old

def rewriteOnce : Rewrite :=
  match rewriteDesktop path capacity with
  | .same =>
    match aliases.find? (·.matches path) with
    | none => .same
    | some a =>
      let rest := path.drop a.old.length
      if capacity < a.new.length + rest.length + 1 then .overflow else .changed (a.new ++ rest)
  | r => r

/-- The passes of `vfs_alias_resolve`; `none` is failure. -/
def aliasLoop : Nat → List Char → Option (List Char)
  | 0, current => some current
  | passes + 1, current =>
    match rewriteOnce current vfsPathMax with
    | .overflow => none
    | .same => some current
    | .changed next =>
      match normalized next vfsPathMax with
      | none => none
      | some current => aliasLoop passes current

/-- `vfs_alias_resolve`; `none` is a negative status. -/
def vfsAliasResolve : Option (List Char) :=
  if capacity < 2 then
    none
  else
    match normalized path vfsPathMax with
    | none => none
    | some current =>
      match aliasLoop aliasPasses current with
      | none => none
      | some current => if capacity < current.length + 1 then none else some current

/-! ## The table -/

/-- Directories that aliases start from. -/
def oldRoots : List (List Char) :=
  [bin, game, walpaper, src, demo, includeDir]

/-- Directories that aliases lead to and none starts from. -/
def newRoots : List (List Char) := [usr, sbin, lib]

/-- The names of the old place. -/
def Alias.oldNames : List (List Char) := lexical a.old

def Alias.newNames : List (List Char) := lexical a.new

/-- An entry has normalised paths, starts below the old roots and leads, with two exceptions,
below the new ones. -/
def Alias.Placed : Prop :=
  (a.old = pathOf a.oldNames ∧ a.new = pathOf a.newNames ∧
    (∀ n ∈ a.oldNames, Ordinary n) ∧ (∀ n ∈ a.newNames, Ordinary n) ∧
    a.oldNames ≠ [] ∧ a.newNames ≠ []) ∧
  (∃ n ∈ oldRoots, a.oldNames.head? = some n) ∧
  (a = systemAlias ∨ (a.exactly = true ∧ a.new = pathOf [bin, login]) ∨
    ∃ n ∈ newRoots, a.newNames.head? = some n)

instance (a : Alias) : Decidable a.Placed := inferInstanceAs (Decidable (_ ∧ _))

theorem aliases_placed : ∀ a ∈ aliases, a.Placed := by
  decide

/-- The paths of the table are normalised. -/
theorem aliases_normalised : ∀ a ∈ aliases,
    a.old = pathOf a.oldNames ∧ a.new = pathOf a.newNames ∧
    (∀ n ∈ a.oldNames, Ordinary n) ∧ (∀ n ∈ a.newNames, Ordinary n) ∧
    a.oldNames ≠ [] ∧ a.newNames ≠ [] :=
  fun a ha => (aliases_placed a ha).1

/-- All old places are below the old roots. -/
theorem aliases_old : ∀ a ∈ aliases, ∃ n ∈ oldRoots, a.oldNames.head? = some n :=
  fun a ha => (aliases_placed a ha).2.1

/-- New places are below the new roots, with two exceptions. -/
theorem aliases_new : ∀ a ∈ aliases, a = systemAlias ∨
    (a.exactly = true ∧ a.new = pathOf [bin, login]) ∨
    ∃ n ∈ newRoots, a.newNames.head? = some n :=
  fun a ha => (aliases_placed a ha).2.2

theorem newRoots_not_old : ∀ n ∈ newRoots, n ∉ oldRoots := by decide

theorem fileAliases_exactly : ∀ a ∈ fileAliases, a.exactly = true := by
  simp [fileAliases, Alias.whole]

/-- Files go where no alias starts. -/
theorem fileAliases_settled : ∀ a ∈ fileAliases,
    (rewriteOnce a.old vfsPathMax = .changed a.new ∧ rewriteOnce a.new vfsPathMax = .same) ∧
    a.oldNames.length ≤ 4 := by
  decide

/-! ## One step -/

section Step

variable {names tail : List (List Char)} {capacity : Nat} {a : Alias} {next : List Char}

section Names

variable (hn : ∀ n ∈ names, Ordinary n)

include hn

theorem matches_pathOf (ha : a ∈ aliases) :
    a.matches (pathOf names) = true ↔
      if a.exactly then names = a.oldNames else a.oldNames <+: names := by
  obtain ⟨hold, -, hord, -⟩ := aliases_normalised a ha
  unfold Alias.matches
  rw [hold]
  cases a.exactly with
  | true =>
    simp only [if_true, beq_iff_eq]
    constructor
    · intro h
      exact absolute_injective (plain_of_ordinary hn) (plain_of_ordinary hord) h
    · rintro rfl
      rfl
  | false =>
    exact vfsPathHasPrefix_iff (plain_of_ordinary hord) (plain_of_ordinary hn)

/-- An alias that matches replaces the first names. -/
theorem matches_split (ha : a ∈ aliases) (hm : a.matches (pathOf names) = true) :
    ∃ rest, names = a.oldNames ++ rest ∧ (a.exactly = true → rest = []) ∧
      a.new ++ (pathOf names).drop a.old.length = pathOf (a.newNames ++ rest) := by
  obtain ⟨hold, hnew, -, -, holdne, hnewne⟩ := aliases_normalised a ha
  have hsplit : ∃ rest, names = a.oldNames ++ rest ∧ (a.exactly = true → rest = []) := by
    rw [matches_pathOf hn ha] at hm
    cases hex : a.exactly with
    | true =>
      rw [hex, if_pos rfl] at hm
      exact ⟨[], by simp [hm], fun _ => rfl⟩
    | false =>
      rw [hex, if_neg (by simp)] at hm
      obtain ⟨rest, rfl⟩ := hm
      exact ⟨rest, rfl, by simp⟩
  obtain ⟨rest, rfl, hrest⟩ := hsplit
  refine ⟨rest, rfl, hrest, ?_⟩
  have hdrop : pathOf (a.oldNames ++ rest) = a.old ++ rooted '/' rest := by
    rw [hold]
    unfold pathOf
    rw [absolute_eq_rooted (by simp [holdne]), absolute_eq_rooted holdne, rooted_append]
  rw [hdrop, drop_left, hnew]
  unfold pathOf
  rw [absolute_eq_rooted hnewne, absolute_eq_rooted (by simp [hnewne]), rooted_append]

/-- `rewrite_desktop` acts on files in `/bin/program` only. -/
theorem rewriteDesktop_cases (h : rewriteDesktop (pathOf names) capacity ≠ .same) :
    ∃ n, names = [bin, program, n] ∧ ['.', 'd', 'e', 's', 'k', 't', 'o', 'p'].isSuffixOf (pathOf
      names) = true ∧ ∀ next, rewriteDesktop (pathOf names) capacity = .changed next →
      next = pathOf [usr, share, applications, n] ∧ next.length + 1 ≤ capacity := by
  unfold rewriteDesktop at h ⊢
  simp only at h ⊢
  split at h
  · exact absurd rfl h
  next hguard =>
  rw [if_neg hguard]
  simp only [Bool.or_eq_true, Bool.not_eq_true', decide_eq_true_eq, not_or,
    Bool.not_eq_false] at hguard
  obtain ⟨⟨hpre, hlen⟩, hsuffix⟩ := hguard
  have hfront : [bin, program] <+: names :=
    (vfsPathHasPrefix_iff (by unfold Plain; decide) (plain_of_ordinary hn)).mp hpre
  obtain ⟨rest, rfl⟩ := hfront
  cases rest with
  | nil => exact absurd (by decide) hlen
  | cons n rest =>
    have hdrop : (pathOf ([bin, program] ++ n :: rest)).drop
        (pathOf [bin, program] ++ ['/']).length = n ++ rooted '/' rest := by
      have hpath : pathOf ([bin, program] ++ n :: rest) =
          pathOf [bin, program] ++ ['/'] ++ (n ++ rooted '/' rest) :=
        pathOf_cons bin (program :: n :: rest)
      rw [hpath, drop_left]
    rw [hdrop] at h ⊢
    split at h
    · exact absurd rfl h
    next hslash =>
    have hrest : rest = [] := by
      cases rest with
      | nil => rfl
      | cons d rest => simp at hslash
    subst hrest
    refine ⟨n, rfl, hsuffix, fun next hnext => ?_⟩
    rw [if_neg hslash] at hnext
    split at hnext
    · cases hnext
    next hcap =>
    cases hnext
    rw [rooted_nil, append_nil] at hcap ⊢
    refine ⟨?_, ?_⟩
    · rw [show [usr, share, applications, n] = [usr, share, applications] ++ [n] from rfl,
        pathOf_concat, pathOf_cons, append_assoc]
      rfl
    · rw [length_append]
      omega

/-- No alias starts in another directory. -/
theorem rewriteOnce_same (hhead : ∀ n, names.head? = some n → n ∉ oldRoots) :
    rewriteOnce (pathOf names) capacity = .same := by
  have hdesktop : rewriteDesktop (pathOf names) capacity = .same := by
    by_contra hne
    obtain ⟨n, rfl, -⟩ := rewriteDesktop_cases hn hne
    exact hhead bin rfl (by decide)
  have hfind : aliases.find? (·.matches (pathOf names)) = none := by
    rw [find?_eq_none]
    intro a ha hm
    obtain ⟨rest, rfl, -⟩ := matches_split hn ha hm
    obtain ⟨n, hn', holdhead⟩ := aliases_old a ha
    refine hhead n ?_ hn'
    rw [head?_append, holdhead]
    rfl
  unfold rewriteOnce
  rw [hdesktop, hfind]

/-- What one step does: it ends in a directory without aliases, or takes out `/program/system`. -/
theorem rewriteOnce_changed (h : rewriteOnce (pathOf names) vfsPathMax = .changed next) :
    ∃ names', next = pathOf names' ∧ (∀ n ∈ names', Ordinary n) ∧ next.length + 1 ≤ vfsPathMax ∧
      (rewriteOnce next vfsPathMax = .same ∨
        ∃ tail, names = bin :: program :: system :: tail ∧ names' = bin :: tail) := by
  by_cases hdesktop : rewriteDesktop (pathOf names) vfsPathMax = .same
  · unfold rewriteOnce at h
    rw [hdesktop] at h
    simp only at h
    split at h
    · cases h
    next a hfind =>
    have ha := mem_of_find?_eq_some hfind
    have hm : a.matches (pathOf names) = true := by
      simpa using find?_some hfind
    obtain ⟨rest, rfl, hexact, hpath⟩ := matches_split hn ha hm
    obtain ⟨-, hnew, -, hordnew, -, -⟩ := aliases_normalised a ha
    split at h
    · cases h
    next hcap =>
    cases h
    rw [hpath]
    have hord : ∀ n ∈ a.newNames ++ rest, Ordinary n := by
      intro n hin
      rcases mem_append.mp hin with hin | hin
      · exact hordnew n hin
      · exact hn n (mem_append_right _ hin)
    refine ⟨a.newNames ++ rest, rfl, hord, ?_, ?_⟩
    · rw [← hpath, length_append]
      omega
    rcases aliases_new a ha with rfl | ⟨hex, hlogin⟩ | ⟨n, hroot, hhead⟩
    · exact .inr ⟨rest, rfl, rfl⟩
    · left
      rw [hexact hex, append_nil, ← hnew, hlogin]
      decide
    left
    refine rewriteOnce_same hord fun d hd => ?_
    rw [head?_append, hhead] at hd
    obtain rfl : n = d := by simpa using hd
    exact newRoots_not_old n hroot
  · obtain ⟨n, rfl, -, hnext⟩ := rewriteDesktop_cases hn hdesktop
    have hchanged : rewriteDesktop (pathOf [bin, program, n]) vfsPathMax = .changed next := by
      unfold rewriteOnce at h
      split at h
      next hs => exact absurd hs hdesktop
      · exact h
    obtain ⟨rfl, hlen⟩ := hnext next hchanged
    have hord : ∀ d ∈ [usr, share, applications, n], Ordinary d := by
      intro d hd
      have hfixed : ∀ d ∈ [usr, share, applications], Ordinary d := by
        decide
      rcases mem_append.mp (show d ∈ [usr, share, applications] ++ [n] from hd) with hd | hd
      · exact hfixed d hd
      · rw [mem_singleton.mp hd]
        exact hn n (by simp)
    refine ⟨_, rfl, hord, hlen, .inl (rewriteOnce_same hord fun d hd => ?_)⟩
    obtain rfl : usr = d := by simpa using hd
    decide

end Names

/-- `/bin/program/system` becomes `/bin`, single files apart. -/
theorem rewriteOnce_system (hn : ∀ n ∈ tail, Ordinary n)
    (hfile : ∀ a ∈ fileAliases, a.oldNames ≠ bin :: program :: system :: tail)
    (hlen : (pathOf (bin :: program :: system :: tail)).length + 1 ≤ vfsPathMax) :
    rewriteOnce (pathOf (bin :: program :: system :: tail)) vfsPathMax =
      .changed (pathOf (bin :: tail)) := by
  have hord : ∀ n ∈ bin :: program :: system :: tail, Ordinary n := by
    have hfixed : Ordinary bin ∧ Ordinary program ∧ Ordinary system := by decide
    intro n hin
    simp only [mem_cons] at hin
    rcases hin with rfl | rfl | rfl | hin
    · exact hfixed.1
    · exact hfixed.2.1
    · exact hfixed.2.2
    · exact hn n hin
  have hdesktop :
      rewriteDesktop (pathOf (bin :: program :: system :: tail)) vfsPathMax = .same := by
    by_contra hne
    obtain ⟨n, hnames, hsuffix, -⟩ := rewriteDesktop_cases hord hne
    obtain ⟨rfl, rfl⟩ : tail = [] ∧ n = system := by
      simp only [cons.injEq, true_and] at hnames
      exact ⟨hnames.2, hnames.1.symm⟩
    revert hsuffix
    decide
  have hsystem : systemAlias ∈ aliases := mem_append_right _ mem_cons_self
  have hmatch : systemAlias.matches (pathOf (bin :: program :: system :: tail)) = true := by
    rw [matches_pathOf hord hsystem]
    exact ⟨tail, rfl⟩
  have hfind : aliases.find? (·.matches (pathOf (bin :: program :: system :: tail))) =
      some systemAlias := by
    rw [find?_eq_some_iff_append]
    refine ⟨hmatch, fileAliases, treeAliases, rfl, fun a ha => ?_⟩
    have hno : ¬a.matches (pathOf (bin :: program :: system :: tail)) = true := by
      rw [matches_pathOf hord (mem_append_left _ ha), if_pos (fileAliases_exactly a ha)]
      exact fun heq => hfile a ha heq.symm
    simpa using hno
  have hnames : systemAlias.oldNames = [bin, program, system] ∧ systemAlias.newNames = [bin] := by
    decide
  obtain ⟨rest, hrest, -, hpath⟩ := matches_split hord hsystem hmatch
  rw [hnames.1] at hrest
  obtain rfl : tail = rest := by simpa using hrest
  rw [hnames.2] at hpath
  unfold rewriteOnce
  rw [hdesktop]
  simp only [hfind]
  rw [← length_append, hpath]
  refine if_neg ?_
  show ¬vfsPathMax < (pathOf (bin :: tail)).length + 1
  simp only [pathOf_cons, rooted_cons, length_cons, length_append] at hlen ⊢
  omega

end Step

/-! ## All passes -/

section Passes

variable {names tail : List (List Char)} {r : List Char}

/-- `n` times `/program/system`. -/
def systemPairs (n : Nat) : List (List Char) := (replicate n [program, system]).flatten

/--
The passes do not suffice: behind as many `/program/system` as there are passes, `/bin` is
followed by something that is rewritten once more.  Six files of `/bin/program/system` are
rewritten in one pass.
-/
def Unsettled (passes : Nat) (names : List (List Char)) : Prop :=
  ∃ tail, names = bin :: (systemPairs passes ++ tail) ∧
    rewriteOnce (pathOf (bin :: tail)) vfsPathMax ≠ .same ∧
    ∀ a ∈ fileAliases, a.oldNames ≠ bin :: program :: system :: tail

/-- A path that no alias matches is the result. -/
theorem aliasLoop_same {passes : Nat} (h : rewriteOnce r vfsPathMax = .same) :
    aliasLoop passes r = some r := by
  cases passes with
  | zero => rfl
  | succ passes => simp [aliasLoop, h]

/-- One pass that changes the path. -/
theorem aliasLoop_changed {passes : Nat} {names' : List (List Char)}
    (h : rewriteOnce (pathOf names) vfsPathMax = .changed (pathOf names'))
    (hord : ∀ n ∈ names', Ordinary n) (hlen : (pathOf names').length + 1 ≤ vfsPathMax) :
    aliasLoop (passes + 1) (pathOf names) = aliasLoop passes (pathOf names') := by
  simp [aliasLoop, h, normalized_pathOf hord hlen]

theorem ordinary_bin (h : ∀ n ∈ tail, Ordinary n) : ∀ n ∈ bin :: tail, Ordinary n := by
  intro n hin
  rcases mem_cons.mp hin with rfl | hin
  · decide
  · exact h n hin

/-- Below `/bin`: the result is not rewritten, or all passes have taken out `/program/system`. -/
theorem aliasLoop_bin {passes : Nat}
    (hn : ∀ n ∈ tail, Ordinary n) (hlen : (pathOf (bin :: tail)).length + 1 ≤ vfsPathMax)
    (h : aliasLoop passes (pathOf (bin :: tail)) = some r) :
    ∃ names', r = pathOf names' ∧ (∀ n ∈ names', Ordinary n) ∧ r.length + 1 ≤ vfsPathMax ∧
      (rewriteOnce r vfsPathMax = .same ∨
        ∃ rest, tail = systemPairs passes ++ rest ∧ names' = bin :: rest ∧
          (passes ≠ 0 → ∀ a ∈ fileAliases, a.oldNames ≠ bin :: program :: system :: rest)) := by
  induction passes generalizing tail with
  | zero =>
    cases h
    exact ⟨_, rfl, ordinary_bin hn, hlen, .inr ⟨tail, rfl, rfl, fun h0 => absurd rfl h0⟩⟩
  | succ passes ih =>
    cases hr : rewriteOnce (pathOf (bin :: tail)) vfsPathMax with
    | same =>
      rw [aliasLoop_same hr] at h
      cases h
      exact ⟨_, rfl, ordinary_bin hn, hlen, .inl hr⟩
    | overflow => simp [aliasLoop, hr] at h
    | changed next =>
      obtain ⟨names', rfl, hord, hfits, hcase⟩ := rewriteOnce_changed (ordinary_bin hn) hr
      rw [aliasLoop_changed hr hord hfits] at h
      rcases hcase with hsame | ⟨rest, hnames, rfl⟩
      · rw [aliasLoop_same hsame] at h
        cases h
        exact ⟨names', rfl, hord, hfits, .inl hsame⟩
      obtain rfl : tail = program :: system :: rest := (cons.inj hnames).2
      have hrest : ∀ n ∈ rest, Ordinary n := fun n hin => hord n (mem_cons_of_mem _ hin)
      by_cases hfile : ∀ a ∈ fileAliases, a.oldNames ≠ bin :: program :: system :: rest
      · obtain ⟨names', rfl, hord', hfits', hcase⟩ := ih hrest hfits h
        refine ⟨names', rfl, hord', hfits', ?_⟩
        rcases hcase with hsame | ⟨rest', rfl, rfl, hfile'⟩
        · exact .inl hsame
        refine .inr ⟨rest', rfl, rfl, fun _ => ?_⟩
        cases passes with
        | zero => exact hfile
        | succ passes => exact hfile' (Nat.succ_ne_zero _)
      -- a single file is not rewritten to `/bin`
      push Not at hfile
      obtain ⟨a, ha, hold⟩ := hfile
      obtain ⟨⟨hstep, hsame⟩, -⟩ := fileAliases_settled a ha
      rw [(aliases_normalised a (mem_append_left _ ha)).1, hold, hr] at hstep
      obtain hnew : pathOf (bin :: rest) = a.new := by simpa using hstep
      rw [hnew, aliasLoop_same hsame] at h
      cases h
      exact ⟨bin :: rest, hnew.symm, hord, hnew ▸ hfits, .inl hsame⟩

/-- As many passes as there are `/program/system`. -/
theorem aliasLoop_systemPairs {passes : Nat} (hn : ∀ n ∈ tail, Ordinary n)
    (hfile : ∀ a ∈ fileAliases, a.oldNames ≠ bin :: program :: system :: tail)
    (hlen : (pathOf (bin :: (systemPairs passes ++ tail))).length + 1 ≤ vfsPathMax) : aliasLoop
    passes (pathOf (bin :: (systemPairs passes ++ tail))) = some (pathOf (bin :: tail)) := by
  induction passes with
  | zero => rfl
  | succ passes ih =>
    have hsplit : systemPairs (passes + 1) ++ tail =
        program :: system :: (systemPairs passes ++ tail) := rfl
    rw [hsplit] at hlen ⊢
    have hord : ∀ n ∈ systemPairs passes ++ tail, Ordinary n := by
      intro n hin
      rcases mem_append.mp hin with hin | hin
      · have hpair : ∀ n ∈ [program, system], Ordinary n := by decide
        obtain ⟨pair, hpairs, hin⟩ := mem_flatten.mp hin
        rw [eq_of_mem_replicate hpairs] at hin
        exact hpair n hin
      · exact hn n hin
    have hfile' : ∀ a ∈ fileAliases,
        a.oldNames ≠ bin :: program :: system :: (systemPairs passes ++ tail) := by
      cases passes with
      | zero => exact hfile
      | succ passes =>
        intro a ha heq
        have hshort := (fileAliases_settled a ha).2
        rw [heq] at hshort
        simp only [systemPairs, replicate_succ, flatten_cons, cons_append, length_cons] at hshort
        omega
    have hfits : (pathOf (bin :: (systemPairs passes ++ tail))).length + 1 ≤ vfsPathMax := by
      simp only [pathOf_cons, rooted_cons, length_cons, length_append] at hlen ⊢
      omega
    rw [aliasLoop_changed (rewriteOnce_system hord hfile' hlen) (ordinary_bin hord) hfits]
    exact ih hfits

/-- A path that is rewritten does not come back. -/
theorem aliasLoop_ne
    {passes : Nat} (hn : ∀ n ∈ names, Ordinary n) (hlen : (pathOf names).length + 1 ≤ vfsPathMax)
    (hne : rewriteOnce (pathOf names) vfsPathMax ≠ .same) :
    aliasLoop (passes + 1) (pathOf names) ≠ some (pathOf names) := by
  intro h
  cases hr : rewriteOnce (pathOf names) vfsPathMax with
  | same => exact hne hr
  | overflow => simp [aliasLoop, hr] at h
  | changed next =>
    obtain ⟨names', rfl, hord, hfits, hcase⟩ := rewriteOnce_changed hn hr
    rw [aliasLoop_changed hr hord hfits] at h
    rcases hcase with hsame | ⟨rest, rfl, rfl⟩
    · rw [aliasLoop_same hsame] at h
      exact hne (Option.some.inj h ▸ hsame)
    have hrest : ∀ n ∈ rest, Ordinary n := fun n hin => hord n (mem_cons_of_mem _ hin)
    obtain ⟨names', heq, hord', -, hcase⟩ := aliasLoop_bin hrest hfits h
    rcases hcase with hsame | ⟨rest', rfl, rfl, -⟩
    · exact hne hsame
    have hnames := absolute_injective (plain_of_ordinary hn) (plain_of_ordinary hord') heq
    have hcount := congrArg length hnames
    simp only [length_cons, length_append] at hcount
    omega

/-- What the passes return. -/
theorem aliasLoop_result (hn : ∀ n ∈ names, Ordinary n)
    (hlen : (pathOf names).length + 1 ≤ vfsPathMax)
    (h : aliasLoop aliasPasses (pathOf names) = some r) :
    ∃ names', r = pathOf names' ∧ (∀ n ∈ names', Ordinary n) ∧ r.length + 1 ≤ vfsPathMax ∧
      (rewriteOnce r vfsPathMax = .same ∨
        ∃ rest, names = bin :: (systemPairs aliasPasses ++ rest) ∧ names' = bin :: rest ∧
          ∀ a ∈ fileAliases, a.oldNames ≠ bin :: program :: system :: rest) := by
  by_cases hbin : ∃ tail, names = bin :: tail
  · obtain ⟨tail, rfl⟩ := hbin
    obtain ⟨names', hr, hord, hfits, hcase⟩ :=
      aliasLoop_bin (fun n hin => hn n (mem_cons_of_mem _ hin)) hlen h
    refine ⟨names', hr, hord, hfits, hcase.imp_right ?_⟩
    rintro ⟨rest, rfl, rfl, hfile⟩
    exact ⟨rest, rfl, rfl, hfile (by decide)⟩
  cases hr : rewriteOnce (pathOf names) vfsPathMax with
  | same =>
    rw [aliasLoop_same hr] at h
    cases h
    exact ⟨names, rfl, hn, hlen, .inl hr⟩
  | overflow => simp [aliasLoop, aliasPasses, hr] at h
  | changed next =>
    obtain ⟨names', rfl, hord, hfits, hcase⟩ := rewriteOnce_changed hn hr
    rcases hcase with hsame | ⟨tail, rfl, -⟩
    · rw [aliasPasses, aliasLoop_changed hr hord hfits, aliasLoop_same hsame] at h
      cases h
      exact ⟨names', rfl, hord, hfits, .inl hsame⟩
    · exact absurd ⟨_, rfl⟩ hbin

/-- A successful call. -/
theorem vfsAliasResolve_some {path : List Char} {capacity : Nat} :
    vfsAliasResolve path capacity = some r ↔ 2 ≤ capacity ∧
      (∃ current, normalized path vfsPathMax = some current ∧
        aliasLoop aliasPasses current = some r) ∧ r.length + 1 ≤ capacity := by
  unfold vfsAliasResolve
  by_cases hcap : capacity < 2
  · rw [if_pos hcap]
    exact ⟨nofun, fun h => absurd h.1 (Nat.not_le.mpr hcap)⟩
  rw [if_neg hcap]
  cases hn : normalized path vfsPathMax with
  | none => simp
  | some current =>
    cases hl : aliasLoop aliasPasses current with
    | none => simp [hl]
    | some result =>
      simp only [hl, Option.some.injEq, exists_eq_left']
      constructor
      · intro h
        split at h
        · cases h
        next hroom =>
          cases h
          exact ⟨Nat.not_lt.mp hcap, rfl, Nat.not_lt.mp hroom⟩
      · rintro ⟨-, rfl, hroom⟩
        rw [if_neg (Nat.not_lt.mpr hroom)]

/--
Resolving the result of `vfs_alias_resolve` again gives the same result, exactly if the passes
suffice for the path.
-/
theorem alias_idempotent {path : List Char} {capacity : Nat}
    (h : vfsAliasResolve path capacity = some r) :
    vfsAliasResolve r capacity = some r ↔ ¬Unsettled aliasPasses (lexical path) := by
  obtain ⟨hcap, ⟨current, hnorm, hloop⟩, hroom⟩ := vfsAliasResolve_some.mp h
  obtain ⟨rfl, hord, hlen⟩ := normalized_some hnorm
  obtain ⟨names', rfl, hord', hfits, hcase⟩ := aliasLoop_result hord hlen hloop
  have hagain : vfsAliasResolve (pathOf names') capacity = some (pathOf names') ↔
      aliasLoop aliasPasses (pathOf names') = some (pathOf names') := by
    rw [vfsAliasResolve_some, normalized_pathOf hord' hfits]
    simp [hcap, hroom]
  rw [hagain]
  constructor
  · rintro hsecond ⟨tail, hnames, hne, hfile⟩
    have htail : ∀ n ∈ tail, Ordinary n := fun n hin => hord n (by rw [hnames]; simp [hin])
    rw [hnames, aliasLoop_systemPairs htail hfile (hnames ▸ hlen)] at hloop
    rw [← Option.some.inj hloop] at hsecond hfits
    exact aliasLoop_ne (ordinary_bin htail) hfits hne hsecond
  intro hsettled
  rcases hcase with hsame | ⟨rest, hnames, rfl, hfile⟩
  · exact aliasLoop_same hsame
  · by_cases hsame : rewriteOnce (pathOf (bin :: rest)) vfsPathMax = .same
    · exact aliasLoop_same hsame
    · exact absurd ⟨rest, hnames, hsame, hfile⟩ hsettled

/-- A game in its old place. -/
theorem alias_idempotent_tetris :
    vfsAliasResolve (pathOf [bin, tetris]) 512 = some (pathOf [usr, games, tetris]) ∧
    vfsAliasResolve (pathOf [usr, games, tetris]) 512 = some (pathOf [usr, games, tetris]) := by
  have h : vfsAliasResolve (pathOf [bin, tetris]) 512 = some (pathOf [usr, games, tetris]) := by
    decide
  refine ⟨h, (alias_idempotent h).mpr ?_⟩
  rintro ⟨tail, hnames, -⟩
  have hlength : (lexical (pathOf [bin, tetris])).length = 2 := by decide
  rw [hnames] at hlength
  simp [systemPairs, aliasPasses, replicate_succ] at hlength

/-- Five times `/program/system`: the result of the first call is rewritten by the second. -/
theorem alias_idempotent_fails :
    let path := pathOf (bin :: systemPairs 5 ++ [ls])
    vfsAliasResolve path 512 = some (pathOf [bin, program, system, ls]) ∧
    vfsAliasResolve (pathOf [bin, program, system, ls]) 512 = some (pathOf [bin, ls]) := by
  decide

end Passes

end PureCOS.Vfs
