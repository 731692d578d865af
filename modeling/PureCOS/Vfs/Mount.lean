import PureCOS.Vfs.Path

/-!
# The mount table

`fs/vfs_mount.c`: sixteen slots, taken and freed in any order.  A path belongs to the mount with
the longest path that is a prefix of it by whole names.
-/

namespace PureCOS.Vfs

open Segments List Option

def fsErrorNotFound : Int := -2
def fsErrorInvalid : Int := -3
def fsErrorNoSpace : Int := -4
def fsErrorExists : Int := -5
def fsErrorNotFile : Int := -6
def fsErrorNotDir : Int := -7
def fsErrorUnsupported : Int := -8
def fsErrorBusy : Int := -9
def fsErrorReadOnly : Int := -10
def fsErrorDenied : Int := -14
def vfsMountMax : Nat := 16

/-- `struct vfs_mount`; `fs` stands for the operations and their context. -/
structure Mount (Fs : Type) where
  path : List Char
  source : List Char
  fs : Fs
  flags : Nat

/-- The slots of the table; a slot that is not used is `none`. -/
abbrev Slots (Fs : Type) := List (Option (Mount Fs))

variable {Fs : Type}

/-- The table before anything is mounted. -/
def Slots.empty : Slots Fs := replicate vfsMountMax none

/-- A slot that is used for this path. -/
def usedFor (path : List Char) : Option (Mount Fs) → Bool
  | none => false
  | some m => m.path == path

section Calls

variable (nameOf : Fs → List Char)

/-- The text of the source field. -/
def sourceText (fs : Fs) (source : Option (List Char)) : List Char :=
  (source.getD (nameOf fs)).take 63

variable (t : Slots Fs) (path : List Char)

def vfsMountAdd (fs : Fs) (source : Option (List Char)) (flags : Nat) : Slots Fs × Int :=
  match normalized path vfsPathMax with
  | none => (t, fsErrorInvalid)
  | some path =>
    if t.any (usedFor path) then
      (t, fsErrorBusy)
    else
      match t.findIdx? (·.isNone) with
      | none => (t, fsErrorNoSpace)
      | some i => (t.set i (some ⟨path, sourceText nameOf fs source, fs, flags⟩), 0)

def vfsMountReplace (fs : Fs) (source : Option (List Char)) (flags : Nat) : Slots Fs × Int :=
  match normalized path vfsPathMax with
  | none => (t, fsErrorInvalid)
  | some path =>
    match t.findIdx? (usedFor path) with
    | none => vfsMountAdd nameOf t path fs source flags
    | some i => (t.set i (some ⟨path, sourceText nameOf fs source, fs, flags⟩), 0)

/-- A mount below this path. -/
def below (path : List Char) : Option (Mount Fs) → Bool
  | none => false
  | some m => !(m.path == path) && vfsPathHasPrefix m.path path

def vfsMountRemove : Slots Fs × Int :=
  match normalized path vfsPathMax with
  | none => (t, fsErrorInvalid)
  | some path =>
    match t.findIdx? (usedFor path) with
    | none => (t, fsErrorNotFound)
    | some i => if t.any (below path) then (t, fsErrorBusy) else (t.set i none, 0)

/-- One round of the loop of `vfs_mount_find`. -/
def betterMount (best : Option (Mount Fs)) : Option (Mount Fs) → Option (Mount Fs)
  | none => best
  | some m =>
    if vfsPathHasPrefix path m.path then
      match best with
      | none => some m
      | some b => if b.path.length < m.path.length then some m else some b
    else
      best

/-- `vfs_mount_find`: the mount, and the path relative to it; the buffer for `/` has `capacity`. -/
def vfsMountFind (capacity : Nat) : Option (Mount Fs × List Char) :=
  match t.foldl (betterMount path) none with
  | none => none
  | some best =>
    let rest := if best.path.length = 1 then path else path.drop best.path.length
    if rest = [] then
      if capacity < 2 then none else some (best, ['/'])
    else
      some (best, rest)

def vfsMountAt : Option (Mount Fs) :=
  (t.find? (usedFor path)).join

/-- The calls that change the table. -/
inductive MountCall (Fs : Type) where
  | add (path : List Char) (fs : Fs) (source : Option (List Char)) (flags : Nat)
  | replace (path : List Char) (fs : Fs) (source : Option (List Char)) (flags : Nat)
  | remove (path : List Char)

/-- One call. -/
def MountCall.apply (t : Slots Fs) : MountCall Fs → Slots Fs
  | .add path fs source flags => (vfsMountAdd nameOf t path fs source flags).1
  | .replace path fs source flags => (vfsMountReplace nameOf t path fs source flags).1
  | .remove path => (vfsMountRemove t path).1

end Calls

/-! ## The invariant -/

/-- A normalised path. -/
structure NormalPath where
  names : List (List Char)
  ordinary : ∀ n ∈ names, Ordinary n

def NormalPath.chars (p : NormalPath) : List Char := pathOf p.names

theorem NormalPath.plain (p : NormalPath) : Plain '/' p.names := plain_of_ordinary p.ordinary

theorem NormalPath.lexical_chars (p : NormalPath) : lexical p.chars = p.names :=
  lexical_pathOf p.ordinary

/-- Mount paths are normalised, and no two slots have the same. -/
structure Slots.Sound (t : Slots Fs) : Prop where
  normal : ∀ m, some m ∈ t → ∃ p : NormalPath, m.path = p.chars
  distinct : ∀ (i j : Nat) (m n : Mount Fs), t[i]? = some (some m) → t[j]? = some (some n) →
    m.path = n.path → i = j

section Invariant

variable {t : Slots Fs} {m : Mount Fs} {i : Nat} {path : List Char}

theorem Slots.Sound.empty : Slots.Sound (Slots.empty : Slots Fs) := by
  have hnone : ∀ x ∈ (Slots.empty : Slots Fs), x = none := fun x hx => eq_of_mem_replicate hx
  refine ⟨fun m hm => ?_, fun i j m n hi => ?_⟩
  · cases hnone _ hm
  · cases hnone _ (mem_of_getElem? hi)

theorem normalPath_of_normalized {result : List Char}
    (h : normalized path vfsPathMax = some result) :
    ∃ p : NormalPath, result = p.chars := by
  obtain ⟨rfl, hord, -⟩ := normalized_some h
  exact ⟨⟨_, hord⟩, rfl⟩

variable {nameOf : Fs → List Char} (h : Slots.Sound t)

include h

/-- A slot is filled, with a path that is in no other slot. -/
theorem Slots.Sound.fill (hpath : ∃ p : NormalPath, m.path = p.chars)
    (hnew : ∀ j n, t[j]? = some (some n) → n.path = m.path → j = i) :
    Slots.Sound (t.set i (some m)) := by
  refine ⟨fun n hn => ?_, fun j k a b hj hk heq => ?_⟩
  · rcases mem_or_eq_of_mem_set hn with hn | hn
    · exact h.normal n hn
    · obtain rfl := some.inj hn
      exact hpath
  rw [getElem?_set] at hj hk
  by_cases hij : i = j
  · by_cases hik : i = k
    · rw [← hij, ← hik]
    rw [if_neg hik] at hk
    rw [if_pos hij] at hj
    split at hj
    · obtain rfl : m = a := by simpa using hj
      exact absurd (hnew k b hk heq.symm).symm hik
    · cases hj
  rw [if_neg hij] at hj
  by_cases hik : i = k
  · rw [if_pos hik] at hk
    split at hk
    · obtain rfl : m = b := by simpa using hk
      exact absurd (hnew j a hj heq).symm hij
    · cases hk
  · rw [if_neg hik] at hk
    exact h.distinct j k a b hj hk heq

theorem Slots.Sound.clear : Slots.Sound (t.set i none) := by
  refine ⟨fun n hn => ?_, fun j k a b hj hk heq => ?_⟩
  · rcases mem_or_eq_of_mem_set hn with hn | hn
    · exact h.normal n hn
    · cases hn
  rw [getElem?_set] at hj hk
  split at hj
  · split at hj <;> cases hj
  · split at hk
    · split at hk <;> cases hk
    · exact h.distinct j k a b hj hk heq

theorem Slots.Sound.add {fs : Fs} {source : Option (List Char)} {flags : Nat} :
    Slots.Sound (vfsMountAdd nameOf t path fs source flags).1 := by
  unfold vfsMountAdd
  split
  · exact h
  next result hn =>
  split
  · exact h
  next hbusy =>
  split
  · exact h
  next i hi =>
    refine h.fill (normalPath_of_normalized hn) fun j n hj heq => ?_
    refine absurd (any_eq_true.mpr ⟨some n, mem_of_getElem? hj, ?_⟩) hbusy
    simpa [usedFor] using heq

theorem Slots.Sound.replace {fs : Fs} {source : Option (List Char)} {flags : Nat} :
    Slots.Sound (vfsMountReplace nameOf t path fs source flags).1 := by
  unfold vfsMountReplace
  split
  · exact h
  next result hn =>
  split
  · exact h.add
  next i hi =>
  refine h.fill (normalPath_of_normalized hn) fun j n hj heq => ?_
  obtain ⟨hlt, hused, -⟩ := findIdx?_eq_some_iff_getElem.mp hi
  obtain ⟨m, hm⟩ : ∃ m, t[i] = some m := by
    cases hti : t[i] with
    | none => simp [hti, usedFor] at hused
    | some m => exact ⟨m, rfl⟩
  have hmpath : m.path = result := by simpa [hm, usedFor] using hused
  exact h.distinct j i n m hj (by rw [getElem?_eq_getElem hlt, hm]) (heq.trans hmpath.symm)

theorem Slots.Sound.remove : Slots.Sound (vfsMountRemove t path).1 := by
  unfold vfsMountRemove
  split
  · exact h
  split
  · exact h
  · split
    · exact h
    · exact h.clear

/-- Every call keeps the invariant. -/
theorem Slots.Sound.apply (c : MountCall Fs) : Slots.Sound (MountCall.apply nameOf t c) := by
  cases c with
  | add path fs source flags => exact h.add
  | replace path fs source flags => exact h.replace
  | remove path => exact h.remove

/-- So does every sequence of calls. -/
theorem Slots.Sound.run (calls : List (MountCall Fs)) :
    Slots.Sound (calls.foldl (MountCall.apply nameOf) t) := by
  induction calls generalizing t with
  | nil => exact h
  | cons c calls ih => exact ih (h.apply c)

end Invariant

/-! ## The innermost mount -/

/-- The mount's path is the path or an ancestor of it, name by name. -/
def Covers (p : NormalPath) (m : Mount Fs) : Prop := lexical m.path <+: p.names

section Find

variable {t : Slots Fs} {p : NormalPath}

theorem covers_iff {m : Mount Fs} (hm : ∃ q : NormalPath, m.path = q.chars) :
    vfsPathHasPrefix p.chars m.path = true ↔ Covers p m := by
  obtain ⟨q, hq⟩ := hm
  unfold Covers
  rw [hq, q.lexical_chars]
  exact vfsPathHasPrefix_iff q.plain p.plain

/-- The best of the mounts that have been looked at. -/
structure Best (p : NormalPath) (seen : Slots Fs) (best : Option (Mount Fs)) : Prop where
  mem : ∀ m, best = some m → some m ∈ seen ∧ Covers p m
  longest : ∀ m, some m ∈ seen → Covers p m →
    ∃ b, best = some b ∧ m.path.length ≤ b.path.length

theorem Best.step {seen : Slots Fs} {best slot : Option (Mount Fs)} (h : Best p seen best)
    (hslot : ∀ m, slot = some m → ∃ q : NormalPath, m.path = q.chars) :
    Best p (seen ++ [slot]) (betterMount p.chars best slot) := by
  have hkeep : ∀ m, best = some m → some m ∈ seen ++ [slot] ∧ Covers p m := fun m hm =>
    ⟨mem_append_left _ (h.mem m hm).1, (h.mem m hm).2⟩
  cases slot with
  | none =>
    refine ⟨hkeep, fun m hm hc => h.longest m ?_ hc⟩
    simpa using hm
  | some m =>
    have hiff : vfsPathHasPrefix p.chars m.path = true ↔ Covers p m := covers_iff (hslot m rfl)
    by_cases hc : vfsPathHasPrefix p.chars m.path = true
    · have hnew : some m ∈ seen ++ [some m] ∧ Covers p m := ⟨by simp, hiff.mp hc⟩
      cases best with
      | none =>
        have hb : betterMount p.chars none (some m) = some m := by simp [betterMount, hc]
        rw [hb]
        refine ⟨fun a ha => some.inj ha ▸ hnew, fun a ha hcov => ⟨m, rfl, ?_⟩⟩
        rcases mem_append.mp ha with ha | ha
        · obtain ⟨b, hb, -⟩ := h.longest a ha hcov
          cases hb
        · obtain rfl : a = m := by simpa using ha
          exact Nat.le_refl _
      | some b =>
        by_cases hlt : b.path.length < m.path.length
        · have hb : betterMount p.chars (some b) (some m) = some m := by
            simp [betterMount, hc, hlt]
          rw [hb]
          refine ⟨fun a ha => some.inj ha ▸ hnew, fun a ha hcov => ⟨m, rfl, ?_⟩⟩
          rcases mem_append.mp ha with ha | ha
          · obtain ⟨b', hb', hle⟩ := h.longest a ha hcov
            obtain rfl := some.inj hb'
            omega
          · obtain rfl : a = m := by simpa using ha
            exact Nat.le_refl _
        · have hb : betterMount p.chars (some b) (some m) = some b := by
            simp [betterMount, hc, hlt]
          rw [hb]
          refine ⟨hkeep, fun a ha hcov => ?_⟩
          rcases mem_append.mp ha with ha | ha
          · exact h.longest a ha hcov
          · obtain rfl : a = m := by simpa using ha
            exact ⟨b, rfl, Nat.not_lt.mp hlt⟩
    · have hb : betterMount p.chars best (some m) = best := by simp [betterMount, hc]
      rw [hb]
      refine ⟨hkeep, fun a ha hcov => ?_⟩
      rcases mem_append.mp ha with ha | ha
      · exact h.longest a ha hcov
      · obtain rfl : a = m := by simpa using ha
        exact absurd (hiff.mpr hcov) hc

theorem Best.foldl {seen rest : Slots Fs} {best : Option (Mount Fs)} (h : Best p seen best)
    (hrest : ∀ m, some m ∈ rest → ∃ q : NormalPath, m.path = q.chars) :
    Best p (seen ++ rest) (rest.foldl (betterMount p.chars) best) := by
  induction rest generalizing seen best with
  | nil => simpa using h
  | cons slot rest ih =>
    have hstep : Best p (seen ++ [slot]) (betterMount p.chars best slot) :=
      h.step fun m hm => hrest m (by simp [hm])
    have hall := ih hstep fun m hm => hrest m (mem_cons_of_mem _ hm)
    rwa [append_assoc] at hall

theorem Slots.Sound.best (h : Slots.Sound t) : Best p t (t.foldl (betterMount p.chars) none) := by
  have hstart : Best p ([] : Slots Fs) none := ⟨nofun, nofun⟩
  have hall := hstart.foldl h.normal
  rwa [nil_append] at hall

theorem one_lt_length_chars {q : NormalPath} (hnames : q.names ≠ []) : 1 < q.chars.length := by
  obtain ⟨c, rest, hcons⟩ := exists_cons_of_ne_nil hnames
  have hc := length_pos_iff.mpr (q.plain c (by rw [hcons]; exact mem_cons_self)).1
  rw [NormalPath.chars, hcons, pathOf_cons, rooted_cons, length_cons, length_append]
  omega

/-- The path behind the path of the mount. -/
theorem relative_eq {m : Mount Fs} {q : NormalPath} (hq : m.path = q.chars) (hc : Covers p m) :
    ∃ tail, p.names = q.names ++ tail ∧
      (if m.path.length = 1 then p.chars else p.chars.drop m.path.length) =
        if q.names = [] then p.chars else rooted '/' tail := by
  unfold Covers at hc
  rw [hq, q.lexical_chars] at hc
  obtain ⟨tail, htail⟩ := hc
  refine ⟨tail, htail.symm, ?_⟩
  rw [hq]
  by_cases hnil : q.names = []
  · rw [if_pos hnil, if_pos (by rw [NormalPath.chars, hnil]; rfl)]
  rw [if_neg hnil, if_neg (Nat.ne_of_gt (one_lt_length_chars hnil)), NormalPath.chars,
    NormalPath.chars, ← htail]
  unfold pathOf
  rw [absolute_eq_rooted hnil, absolute_eq_rooted (by simp [hnil]), rooted_append, drop_left]

/-- The mounts of a table. -/
def Slots.mounts (t : Slots Fs) : List (Mount Fs) := t.filterMap id

theorem Slots.mem_mounts {m : Mount Fs} : m ∈ Slots.mounts t ↔ some m ∈ t := by
  simp [Slots.mounts]

theorem Slots.Sound.nodup (h : Slots.Sound t) : ((Slots.mounts t).map (·.path)).Nodup := by
  have hpair : t.Pairwise fun a b => ∀ m n, a = some m → b = some n → m.path ≠ n.path := by
    rw [pairwise_iff_getElem]
    intro i j hi hj hlt m n hm hn heq
    have hij := h.distinct i j m n (by rw [getElem?_eq_getElem hi, hm])
      (by rw [getElem?_eq_getElem hj, hn]) heq
    omega
  have hmap : (Slots.mounts t).map (·.path) = t.filterMap fun slot => slot.map (·.path) := by
    simp [Slots.mounts, map_filterMap]
  rw [hmap]
  refine hpair.filterMap _ fun a a' hne b hb b' hb' => ?_
  obtain ⟨m, rfl, rfl⟩ := map_eq_some_iff.mp hb
  obtain ⟨n, rfl, rfl⟩ := map_eq_some_iff.mp hb'
  exact hne m n rfl rfl

/-- Two mounts that cover a path and have paths of one length are the same. -/
theorem Slots.Sound.eq_of_covers (h : Slots.Sound t) {m n : Mount Fs} (hm : some m ∈ t)
    (hn : some n ∈ t) (hcm : Covers p m) (hcn : Covers p n)
    (hlen : n.path.length = m.path.length) : n = m := by
  obtain ⟨qm, hqm⟩ := h.normal m hm
  obtain ⟨qn, hqn⟩ := h.normal n hn
  unfold Covers at hcm hcn
  rw [hqm, qm.lexical_chars] at hcm
  rw [hqn, qn.lexical_chars] at hcn
  rw [hqm, hqn] at hlen
  have hpath : n.path = m.path := by
    rw [hqm, hqn]
    rcases prefix_or_prefix_of_prefix hcn hcm with hpre | hpre
    · exact (pathOf_startsWith hpre).eq_of_length hlen
    · exact ((pathOf_startsWith hpre).eq_of_length hlen.symm).symm
  obtain ⟨i, hi⟩ := getElem?_of_mem hm
  obtain ⟨j, hj⟩ := getElem?_of_mem hn
  obtain rfl := h.distinct j i n m hj hi hpath
  rw [hi] at hj
  simpa using hj.symm

/--
Mount resolution.  Whatever has been mounted and unmounted, no two mounts have the same path; a
normalised path is resolved to the mount with the longest path that is the path or an ancestor of
it, and the path of the mount followed by the relative path is the path again, but for the `/` the
root of a mount stands for.
-/
theorem mount_innermost (nameOf : Fs → List Char) (calls : List (MountCall Fs)) (p : NormalPath)
    (capacity : Nat) :
    let t := calls.foldl (MountCall.apply nameOf) Slots.empty
    ((Slots.mounts t).map (·.path)).Nodup ∧
    (vfsMountFind t p.chars capacity = none →
      (∀ m ∈ Slots.mounts t, ¬Covers p m) ∨ capacity < 2) ∧
    ∀ m relative, vfsMountFind t p.chars capacity = some (m, relative) →
      m ∈ Slots.mounts t ∧ Covers p m ∧
      (∀ n ∈ Slots.mounts t, Covers p n → n ≠ m → n.path.length < m.path.length) ∧
      (if m.path = p.chars then relative = ['/']
        else if m.path = ['/'] then relative = p.chars
        else m.path ++ relative = p.chars) := by
  intro t
  have h : Slots.Sound t := Slots.Sound.empty.run calls
  have hbest : Best p t (t.foldl (betterMount p.chars) none) := h.best
  refine ⟨h.nodup, fun hnone => ?_, fun m relative hfind => ?_⟩
  · unfold vfsMountFind at hnone
    split at hnone
    next hfold =>
      left
      intro m hm hc
      obtain ⟨b, hb, -⟩ := hbest.longest m (Slots.mem_mounts.mp hm) hc
      rw [hfold] at hb
      cases hb
    next best hfold =>
    right
    simp only at hnone
    generalize (if best.path.length = 1 then p.chars else p.chars.drop best.path.length) = rest
      at hnone
    split at hnone
    · split at hnone
      next hcap => exact hcap
      · cases hnone
    · cases hnone
  unfold vfsMountFind at hfind
  split at hfind
  · cases hfind
  next best hfold =>
  obtain ⟨hmem, hcovers⟩ := hbest.mem best hfold
  obtain ⟨q, hq⟩ := h.normal best hmem
  obtain ⟨tail, hnames, hrest⟩ := relative_eq hq hcovers
  have hlongest : ∀ n ∈ Slots.mounts t, Covers p n → n ≠ best →
      n.path.length < best.path.length := by
    intro n hn hcn hne
    obtain ⟨b, hb, hle⟩ := hbest.longest n (Slots.mem_mounts.mp hn) hcn
    rw [hfold] at hb
    obtain rfl := some.inj hb
    refine Nat.lt_of_le_of_ne hle fun heq => hne ?_
    exact h.eq_of_covers hmem (Slots.mem_mounts.mp hn) hcovers hcn heq
  simp only [hrest] at hfind
  by_cases hroot : q.names = []
  · have hpath : best.path = ['/'] := by
      rw [hq, NormalPath.chars, hroot]
      rfl
    rw [if_pos hroot, if_neg (by simp [NormalPath.chars, pathOf, absolute])] at hfind
    obtain ⟨rfl, rfl⟩ := Prod.mk.inj (some.inj hfind)
    refine ⟨Slots.mem_mounts.mpr hmem, hcovers, hlongest, ?_⟩
    by_cases hsame : best.path = p.chars
    · rw [if_pos hsame, ← hsame, hpath]
    · rw [if_neg hsame, if_pos hpath]
  rw [if_neg hroot] at hfind
  have hsplit : best.path ++ rooted '/' tail = p.chars := by
    rw [hq, NormalPath.chars, NormalPath.chars, hnames]
    unfold pathOf
    rw [absolute_eq_rooted hroot, absolute_eq_rooted (by simp [hroot]), rooted_append]
  split at hfind
  next hempty =>
    split at hfind
    · cases hfind
    · obtain ⟨rfl, rfl⟩ := Prod.mk.inj (some.inj hfind)
      rw [hempty, append_nil] at hsplit
      exact ⟨Slots.mem_mounts.mpr hmem, hcovers, hlongest, by rw [if_pos hsplit]⟩
  next hbehind =>
  obtain ⟨rfl, rfl⟩ := Prod.mk.inj (some.inj hfind)
  have hother : best.path ≠ p.chars :=
    fun hsame => hbehind (self_eq_append_right.mp (hsame.trans hsplit.symm))
  have hdeep : best.path ≠ ['/'] := fun hpath =>
    absurd (hq ▸ one_lt_length_chars hroot) (by simp [hpath])
  exact ⟨Slots.mem_mounts.mpr hmem, hcovers, hlongest, by rwa [if_neg hother, if_neg hdeep]⟩

end Find

end PureCOS.Vfs
