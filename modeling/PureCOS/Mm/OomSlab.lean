import PureCOS.Lib.LinkedList
import PureCOS.Lib.Pieces

/-!
# Slab memory

`mm/oom/oom_slab.c`: objects of eight sizes, cut from pages.  The free objects of a class are on a
list whose links are in the objects; a page starts with a header of 32 bytes, and the pages of a
class are on a list too.

Each function holds `oom_slab_lock`, so a call is one step.  `oom_slab_alloc` clears the object
after it has let go of the lock, when the object is on no list any more.  What `pmm_allocate_page`
returns is part of the environment.  `oom_slab_reclaim_empty` is left out.
-/

namespace PureCOS.Mm

open Buffer List Function Option

def oomSlabPage : Nat := 4096

/-- `oom_slab_sizes` -/
def oomSlabSize (cls : Fin 8) : Nat := [32, 64, 128, 256, 512, 1024, 2048, 4096].get cls

def oomSlabClass (size : Nat) : Option (Fin 8) :=
  (finRange 8).find? fun cls => decide (size ≤ oomSlabSize cls)

/-- `sizeof(struct oom_slab_page)` -/
def pageHeader : Nat := 32

/-- `link->next`, and `pg->next` -/
def linkNext (m : Buffer) (link : Nat) : Nat := (m.readU64 link).toNat

def setLinkNext (m : Buffer) (link next : Nat) : Buffer := m.writeU64 link (BitVec.ofNat 64 next)

/-- `pg->free_count` -/
def freeCount (m : Buffer) (pg : Nat) : BitVec 64 := m.readU64 (pg + 16)

def setFreeCount (m : Buffer) (pg : Nat) (n : BitVec 64) : Buffer := m.writeU64 (pg + 16) n

/--
Memory, `oom_free_heads`, `oom_page_heads`, `oom_slab_page_count`, and the pages that are in use.
-/
structure Slab where
  mem : Buffer
  freeHeads : Fin 8 → Nat
  pageHeads : Fin 8 → Nat
  pageCount : Nat
  regions : List Nat

namespace Slab

/-- An object goes to the front of the list. -/
def push (s : Slab) (cls : Fin 8) (link : Nat) : Slab :=
  { s with
    mem := setLinkNext s.mem link (s.freeHeads cls)
    freeHeads := update s.freeHeads cls link }

/-- The loop of `oom_slab_grow_locked`; it makes fewer than 128 passes. -/
def growLoop (cls : Fin 8) (base : Nat) : Nat → Nat → Nat → Slab → Nat × Slab
  | 0, _, n, s => (n, s)
  | passes + 1, off, n, s =>
    if off + oomSlabSize cls ≤ oomSlabPage then
      growLoop cls base passes (off + oomSlabSize cls) (n + 1) (s.push cls (base + off))
    else
      (n, s)

/-- The header of a page. -/
def writeHeader (m : Buffer) (pg next n : Nat) : Buffer :=
  let m := setLinkNext m pg next
  let m := m.writeU64 (pg + 8) (BitVec.ofNat 64 pg)
  let m := setFreeCount m pg (BitVec.ofNat 64 n)
  m.writeU64 (pg + 24) (BitVec.ofNat 64 n)

/-- `oom_slab_grow_locked` -/
def growLocked (s : Slab) (cls : Fin 8) (page : Option Nat) : Option Slab :=
  match page with
  | none => none
  | some base =>
    let r := growLoop cls base 128 pageHeader 0 { s with regions := base :: s.regions }
    if r.1 = 0 then
      none
    else
      some { r.2 with
        mem := writeHeader r.2.mem base (r.2.pageHeads cls) r.1
        pageHeads := update r.2.pageHeads cls base
        pageCount := r.2.pageCount + 1 }

/-- The first page of a list that passes a test, or 0. -/
def findPage (ok : Nat → Bool) (m : Buffer) : Nat → Nat → Nat
  | 0, _ => 0
  | passes + 1, pg =>
    if pg = 0 then 0
    else if ok pg then pg
    else findPage ok m passes (linkNext m pg)

/-- The free objects of a page are counted anew. -/
def recount (s : Slab) (cls : Fin 8) (ok : Nat → Bool) (f : BitVec 64 → BitVec 64) : Slab :=
  let pg := findPage ok s.mem (s.pageCount + 1) (s.pageHeads cls)
  if pg = 0 then s else { s with mem := setFreeCount s.mem pg (f (freeCount s.mem pg)) }

/-- `oom_slab_alloc`; a null pointer is 0. -/
def alloc (s : Slab) (size : Nat) (page : Option Nat) : Slab × Nat :=
  if size = 0 then
    (s, 0)
  else
    match oomSlabClass size with
    | none => (s, 0)
    | some cls =>
      match if s.freeHeads cls = 0 then s.growLocked cls page else some s with
      | none => (s, 0)
      | some s =>
        let link := s.freeHeads cls
        let s := { s with freeHeads := update s.freeHeads cls (linkNext s.mem link) }
        let s := s.recount cls
          (fun pg => decide (pg ≤ link ∧ link < pg + oomSlabPage ∧ freeCount s.mem pg ≠ 0)) (· - 1)
        ({ s with mem := s.mem.splice link (oomSlabSize cls) zero }, link)

/-- `oom_slab_free` -/
def free (s : Slab) (ptr size : Nat) : Slab :=
  if ptr = 0 ∨ size = 0 then
    s
  else
    match oomSlabClass size with
    | none => s
    | some cls =>
      (s.push cls ptr).recount cls (fun pg => decide (pg ≤ ptr ∧ ptr < pg + oomSlabPage)) (· + 1)

/-- A page that is not in use yet. -/
def Fresh (s : Slab) (page : Option Nat) : Prop :=
  ∀ base, page = some base → 0 < base ∧ base + oomSlabPage ≤ 2 ^ 64 ∧
    ∀ p ∈ s.regions, p + oomSlabPage ≤ base ∨ base + oomSlabPage ≤ p

instance (s : Slab) : (page : Option Nat) → Decidable (s.Fresh page)
  | none => isTrue nofun
  | some base =>
    decidable_of_iff (0 < base ∧ base + oomSlabPage ≤ 2 ^ 64 ∧
        ∀ p ∈ s.regions, p + oomSlabPage ≤ base ∨ base + oomSlabPage ≤ p)
      ⟨fun h _ heq => some.inj heq ▸ h, fun h => h base rfl⟩

end Slab

/-! ## Layout -/

universe u

/--
What a piece of slab memory is; a blank header is on no list yet, an object in use has an owner.
-/
inductive Tag (ω : Type u) where
  | blank
  | header
  | free (cls : Fin 8)
  | used (cls : Fin 8) (owner : ω)

def Tag.len {ω : Type u} : Tag ω → Nat
  | .blank => pageHeader
  | .header => pageHeader
  | .free cls => oomSlabSize cls
  | .used cls _ => oomSlabSize cls

/-- Cells that have nothing but a link. -/
def linkCells : Cells Buffer Nat where
  addr := id
  holds _ _ := True
  next := linkNext

section Sound

variable {ω : Type u} {s : Slab} {L : Layout (Tag ω) Tag.len} {m m' : Buffer} {cls c : Fin 8}
  {o o' : ω} {a base size : Nat}

/-- The lists of pages and of free objects are in order. -/
structure Slab.Sound (s : Slab) (L : Layout (Tag ω) Tag.len) : Prop where
  pages : ∀ cls, ∃ ps, linkCells.Linked s.mem (s.pageHeads cls) ps 0 ∧
    (∀ p ∈ ps, L.piece p = some .header) ∧ ps.length ≤ s.pageCount
  free : ∀ cls, ∃ fs, linkCells.Linked s.mem (s.freeHeads cls) fs 0 ∧ fs.Nodup ∧
    ∀ a ∈ fs, L.piece a = some (.free cls)
  small : ∀ a t, L.piece a = some t → 0 < a ∧ a + t.len ≤ 2 ^ 64
  inside : ∀ a t, L.piece a = some t → ∃ p ∈ s.regions, p ≤ a ∧ a + t.len ≤ p + oomSlabPage
  short : ∀ a t, L.piece a = some t → t.len < oomSlabPage

theorem oomSlabSize_ge (cls : Fin 8) : 32 ≤ oomSlabSize cls := by
  revert cls
  decide

theorem Tag.len_ge (t : Tag ω) : 32 ≤ t.len := by
  cases t with
  | blank => exact Nat.le_refl _
  | header => exact Nat.le_refl _
  | free cls => exact oomSlabSize_ge cls
  | used cls o => exact oomSlabSize_ge cls

theorem le_of_oomSlabClass (h : oomSlabClass size = some cls) : size ≤ oomSlabSize cls := by
  have hfound := find?_some h
  exact of_decide_eq_true hfound

/-- The lists depend on the links only. -/
theorem linked_of_same {p q : Nat} {xs : List Nat} (h : linkCells.Linked m p xs q)
    (hsame : ∀ x ∈ xs, ∀ k < 8, m' (x + k) = m (x + k)) : linkCells.Linked m' p xs q := by
  refine h.congr fun x hx => ⟨fun _ => trivial, ?_⟩
  show (m'.readU64 x).toNat = (m.readU64 x).toNat
  rw [readU64_congr (hsame x hx)]

@[simp] theorem linkNext_setLinkNext {next : Nat} (h : next < 2 ^ 64) :
    linkNext (setLinkNext m a next) a = next := by
  rw [linkNext, setLinkNext, readU64_writeU64, BitVec.toNat_ofNat, Nat.mod_eq_of_lt h]

/-- The links of pages and free objects are the same. -/
def SameLinks (L : Layout (Tag ω) Tag.len) (m m' : Buffer) : Prop :=
  ∀ b t, L.piece b = some t → (∀ c o, t ≠ .used c o) → ∀ k < 8, m' (b + k) = m (b + k)

theorem SameLinks.trans {m'' : Buffer} (h : SameLinks L m m') (h' : SameLinks L m' m'') :
    SameLinks L m m'' :=
  fun b t hb hlist k hk => (h' b t hb hlist k hk).trans (h b t hb hlist k hk)

theorem Slab.Sound.of_sameLinks (hs : s.Sound L) (hsame : SameLinks L s.mem m') :
    Slab.Sound { s with mem := m' } L := by
  refine ⟨fun cls => ?_, fun cls => ?_, hs.small, hs.inside, hs.short⟩
  · obtain ⟨ps, hlinked, hpiece, hlength⟩ := hs.pages cls
    exact ⟨ps, linked_of_same hlinked fun p hp => hsame p _ (hpiece p hp) nofun, hpiece, hlength⟩
  · obtain ⟨fs, hlinked, hnodup, hpiece⟩ := hs.free cls
    exact ⟨fs, linked_of_same hlinked fun a ha => hsame a _ (hpiece a ha) nofun, hnodup, hpiece⟩

theorem sameLinks_write (ha : L.piece a = some (.used cls o))
    (hwithin : m.Within m' a (oomSlabSize cls)) : SameLinks L m m' := by
  intro b t hb hlist k hk
  have hne : b ≠ a := by
    rintro rfl
    exact hlist cls o (some.inj (hb.symm.trans ha))
  have hlen := t.len_ge
  exact Layout.same_of_within ha hb hne hwithin (by omega)

/-- The owner of an object writes to it. -/
theorem Slab.Sound.write (hs : s.Sound L) (ha : L.piece a = some (.used cls o))
    (hwithin : s.mem.Within m' a (oomSlabSize cls)) : Slab.Sound { s with mem := m' } L :=
  hs.of_sameLinks (sameLinks_write ha hwithin)

/-- Where the pieces lie does not depend on their tags. -/
theorem Slab.Sound.placed {t t' u : Tag ω} {ha : L.piece a = some t} {hlen : t'.len = t.len}
    {b : Nat} (hs : s.Sound L) (hb : (L.retag a t t' ha hlen).piece b = some u) :
    (0 < b ∧ b + u.len ≤ 2 ^ 64) ∧ (∃ p ∈ s.regions, p ≤ b ∧ b + u.len ≤ p + oomSlabPage) ∧
      u.len < oomSlabPage := by
  obtain ⟨u', hb', heq⟩ := Layout.exists_of_retag hb
  rw [← heq]
  exact ⟨hs.small b u' hb', hs.inside b u' hb', hs.short b u' hb'⟩

/-- An object changes hands. -/
theorem Slab.Sound.pass (hs : s.Sound L) (ha : L.piece a = some (.used cls o)) (o' : ω) :
    s.Sound (L.retag a (.used cls o) (.used cls o') ha rfl) := by
  have hother : ∀ b t, L.piece b = some t → (∀ c o, t ≠ .used c o) →
      (L.retag a (.used cls o) (.used cls o') ha rfl).piece b = some t := by
    intro b t hb hlist
    refine (Layout.retag_of_ne ?_).trans hb
    rintro rfl
    exact hlist cls o (some.inj (hb.symm.trans ha))
  refine ⟨fun c => ?_, fun c => ?_, fun _ _ hb => (hs.placed hb).1,
    fun _ _ hb => (hs.placed hb).2.1, fun _ _ hb => (hs.placed hb).2.2⟩
  · obtain ⟨ps, hlinked, hpiece, hlength⟩ := hs.pages c
    exact ⟨ps, hlinked, fun p hp => hother p _ (hpiece p hp) nofun, hlength⟩
  · obtain ⟨fs, hlinked, hnodup, hpiece⟩ := hs.free c
    exact ⟨fs, hlinked, hnodup, fun a ha => hother a _ (hpiece a ha) nofun⟩

/-- Objects in use stay in use, with their contents. -/
def KeepsObjects (P : Nat → ω → Prop) (L : Layout (Tag ω) Tag.len) (m : Buffer)
    (L' : Layout (Tag ω) Tag.len) (m' : Buffer) : Prop :=
  ∀ b c o, L.piece b = some (.used c o) → P b o →
    L'.piece b = some (.used c o) ∧ ∀ k < oomSlabSize c, m' (b + k) = m (b + k)

variable {L' L'' : Layout (Tag ω) Tag.len} {P : Nat → ω → Prop} {m'' : Buffer}

theorem KeepsObjects.trans (h : KeepsObjects P L m L' m') (h' : KeepsObjects P L' m' L'' m'') :
    KeepsObjects P L m L'' m'' := by
  intro b c o hb hP
  obtain ⟨hb', hsame⟩ := h b c o hb hP
  obtain ⟨hb'', hsame'⟩ := h' b c o hb' hP
  exact ⟨hb'', fun k hk => (hsame' k hk).trans (hsame k hk)⟩

theorem KeepsObjects.mono {Q : Nat → ω → Prop} (h : KeepsObjects P L m L' m')
    (hPQ : ∀ b c o, L.piece b = some (.used c o) → Q b o → P b o) : KeepsObjects Q L m L' m' :=
  fun b c o hb hQ => h b c o hb (hPQ b c o hb hQ)

theorem keeps_write (ha : L.piece a = some (.used cls o))
    (hwithin : m.Within m' a (oomSlabSize cls)) : KeepsObjects (fun b _ => b ≠ a) L m L m' :=
  fun _ _ _ hb hne => ⟨hb, fun _ hk => Layout.same_of_within ha hb hne hwithin hk⟩

theorem keeps_pass (ha : L.piece a = some (.used cls o)) :
    KeepsObjects (fun b _ => b ≠ a) L m (L.retag a (.used cls o) (.used cls o') ha rfl) m :=
  fun _ _ _ hb hne => ⟨(Layout.retag_of_ne hne).trans hb, fun _ _ => rfl⟩

/-- Objects of different owners are different. -/
theorem ne_of_owner {b : Nat} (ha : L.piece a = some (.used cls o))
    (hb : L.piece b = some (.used c o')) (hne : o' ≠ o) : b ≠ a := by
  rintro rfl
  cases ha.symm.trans hb
  exact hne rfl

/-- The head of a list is an address. -/
theorem Slab.Sound.freeHead_lt (hs : s.Sound L) (cls : Fin 8) : s.freeHeads cls < 2 ^ 64 := by
  obtain ⟨fs, hlinked, -, hpiece⟩ := hs.free cls
  cases fs with
  | nil =>
    rw [show s.freeHeads cls = 0 from hlinked]
    decide
  | cons a fs =>
    have hsmall := hs.small a _ (hpiece a mem_cons_self)
    have hlen := (Tag.free cls : Tag ω).len_ge
    rw [show s.freeHeads cls = a from hlinked.1]
    omega

theorem Slab.Sound.pageHead_lt (hs : s.Sound L) (cls : Fin 8) : s.pageHeads cls < 2 ^ 64 := by
  obtain ⟨ps, hlinked, hpiece, -⟩ := hs.pages cls
  cases ps with
  | nil =>
    rw [show s.pageHeads cls = 0 from hlinked]
    decide
  | cons p ps =>
    have hsmall := hs.small p _ (hpiece p mem_cons_self)
    have hlen := (Tag.header : Tag ω).len_ge
    rw [show s.pageHeads cls = p from hlinked.1]
    omega

theorem within_setLinkNext (n next : Nat) (hn : 8 ≤ n) : m.Within (setLinkNext m a next) a n :=
  within_writeU64 (Nat.le_refl _) (by omega)

/-- An object that was on no list goes on one. -/
theorem Slab.Sound.push (hs : s.Sound L) (hother : ∀ b, b ≠ a → L'.piece b = L.piece b)
    (ha : L'.piece a = some (.free cls)) (hnew : ∀ t, L.piece a = some t → ∃ c o, t = .used c o)
    (hsmall : 0 < a ∧ a + oomSlabSize cls ≤ 2 ^ 64)
    (hin : ∃ p ∈ s.regions, p ≤ a ∧ a + oomSlabSize cls ≤ p + oomSlabPage)
    (hshort : oomSlabSize cls < oomSlabPage) : (s.push cls a).Sound L' := by
  have hge := oomSlabSize_ge cls
  have hwithin : s.mem.Within (s.push cls a).mem a (oomSlabSize cls) :=
    within_setLinkNext _ _ (by omega)
  have hlisted : ∀ b t, L.piece b = some t → (∀ c o, t ≠ .used c o) →
      b ≠ a ∧ L'.piece b = some t ∧ ∀ k < 8, (s.push cls a).mem (b + k) = s.mem (b + k) := by
    intro b t hb hlist
    have hne : b ≠ a := by
      rintro rfl
      obtain ⟨c, o, rfl⟩ := hnew t hb
      exact hlist c o rfl
    have hb' := (hother b hne).trans hb
    have hlen := t.len_ge
    exact ⟨hne, hb', fun k hk => Layout.same_of_within ha hb' hne hwithin (by omega)⟩
  refine ⟨fun c => ?_, fun c => ?_, fun b t hb => ?_, fun b t hb => ?_, fun b t hb => ?_⟩
  · obtain ⟨ps, hlinked, hpiece, hlength⟩ := hs.pages c
    refine ⟨ps, linked_of_same hlinked fun p hp => (hlisted p _ (hpiece p hp) nofun).2.2,
      fun p hp => ?_, hlength⟩
    exact (hlisted p _ (hpiece p hp) nofun).2.1
  · obtain ⟨fs, hlinked, hnodup, hpiece⟩ := hs.free c
    have hlinked' := linked_of_same hlinked fun b hb => (hlisted b _ (hpiece b hb) nofun).2.2
    by_cases hc : c = cls
    · subst hc
      refine ⟨a :: fs, ?_, nodup_cons.mpr ⟨fun hmem => ?_, hnodup⟩, fun b hb => ?_⟩
      · rw [show (s.push c a).freeHeads c = a from update_self ..]
        refine ⟨rfl, Nat.ne_of_gt hsmall.1, trivial, ?_⟩
        show linkCells.Linked _ (linkNext (setLinkNext s.mem a (s.freeHeads c)) a) fs 0
        rw [linkNext_setLinkNext (hs.freeHead_lt c)]
        exact hlinked'
      · exact (hlisted a _ (hpiece a hmem) nofun).1 rfl
      · rcases mem_cons.mp hb with rfl | hb
        · exact ha
        · exact (hlisted b _ (hpiece b hb) nofun).2.1
    · refine ⟨fs, ?_, hnodup, fun b hb => (hlisted b _ (hpiece b hb) nofun).2.1⟩
      rw [show (s.push cls a).freeHeads c = s.freeHeads c from update_of_ne hc _ _]
      exact hlinked'
  · by_cases hne : b = a
    · subst hne
      obtain rfl := some.inj (ha.symm.trans hb)
      exact hsmall
    · exact hs.small b t ((hother b hne).symm.trans hb)
  · by_cases hne : b = a
    · subst hne
      obtain rfl := some.inj (ha.symm.trans hb)
      exact hin
    · exact hs.inside b t ((hother b hne).symm.trans hb)
  · by_cases hne : b = a
    · subst hne
      obtain rfl := some.inj (ha.symm.trans hb)
      exact hshort
    · exact hs.short b t ((hother b hne).symm.trans hb)

/-! ## Pages -/

theorem findPage_spec {ok : Nat → Bool} {p : Nat} {ps : List Nat} (passes : Nat)
    (h : linkCells.Linked m p ps 0) :
    Slab.findPage ok m passes p = 0 ∨ Slab.findPage ok m passes p ∈ ps := by
  induction passes generalizing p ps with
  | zero => exact .inl rfl
  | succ passes ih =>
    rw [Slab.findPage]
    split
    · exact .inl rfl
    next hne =>
    cases ps with
    | nil => exact absurd h hne
    | cons q ps =>
      obtain ⟨rfl, -, -, hrest⟩ := h
      split
      · exact .inr mem_cons_self
      · exact (ih hrest).imp_right (mem_cons_of_mem _)

/-- Counting changes headers only, and no links. -/
theorem Slab.Sound.recount (hs : s.Sound L) (cls : Fin 8) (ok : Nat → Bool)
    (f : BitVec 64 → BitVec 64) :
    ∃ m', s.recount cls ok f = { s with mem := m' } ∧ Slab.Sound { s with mem := m' } L ∧
      ∀ b t, L.piece b = some t → t ≠ .header → ∀ k < t.len, m' (b + k) = s.mem (b + k) := by
  obtain ⟨ps, hlinked, hpiece, -⟩ := hs.pages cls
  have hfind : Slab.findPage ok s.mem (s.pageCount + 1) (s.pageHeads cls) = 0 ∨
      Slab.findPage ok s.mem (s.pageCount + 1) (s.pageHeads cls) ∈ ps := findPage_spec _ hlinked
  unfold Slab.recount
  rcases hfind with hzero | hmem
  · rw [hzero]
    exact ⟨s.mem, rfl, hs, fun _ _ _ _ _ _ => rfl⟩
  generalize Slab.findPage ok s.mem (s.pageCount + 1) (s.pageHeads cls) = pg at hmem
  have hpg := hpiece pg hmem
  have hne : pg ≠ 0 := Nat.ne_of_gt (hs.small pg _ hpg).1
  rw [if_neg hne]
  have hwithin : s.mem.Within (setFreeCount s.mem pg (f (freeCount s.mem pg))) pg
      (Tag.header : Tag ω).len :=
    within_writeU64 (Nat.le_add_right _ _) (by show pg + 16 + 8 ≤ pg + 32; omega)
  refine ⟨_, rfl, hs.of_sameLinks fun b t hb _ k hk => ?_, fun b t hb hheader k hk => ?_⟩
  · by_cases heq : b = pg
    · subst heq
      exact writeU64_of_outside (by omega)
    · have hlen := t.len_ge
      exact Layout.same_of_within hpg hb heq hwithin (by omega)
  · have hneq : b ≠ pg := by
      rintro rfl
      exact hheader (some.inj (hb.symm.trans hpg))
    exact Layout.same_of_within hpg hb hneq hwithin hk

/-- A slab has got new objects; what there was is as before. -/
structure GrownSlab (s : Slab) (L : Layout (Tag ω) Tag.len) (s' : Slab)
    (L' : Layout (Tag ω) Tag.len) : Prop where
  sound : s'.Sound L'
  pageHeads : s'.pageHeads = s.pageHeads
  pageCount : s'.pageCount = s.pageCount
  regions : s'.regions = s.regions
  pieces : ∀ b t, L.piece b = some t → L'.piece b = some t ∧
    ∀ k < t.len, s'.mem (b + k) = s.mem (b + k)

theorem GrownSlab.refl (hs : s.Sound L) : GrownSlab s L s L :=
  ⟨hs, rfl, rfl, rfl, fun _ _ hb => ⟨hb, fun _ _ => rfl⟩⟩

theorem GrownSlab.trans {s' s'' : Slab} (h : GrownSlab s L s' L') (h' : GrownSlab s' L' s'' L'') :
    GrownSlab s L s'' L'' := by
  refine ⟨h'.sound, h'.pageHeads.trans h.pageHeads, h'.pageCount.trans h.pageCount,
    h'.regions.trans h.regions, ?_⟩
  intro b t hb
  obtain ⟨hb', hsame⟩ := h.pieces b t hb
  obtain ⟨hb'', hsame'⟩ := h'.pieces b t hb'
  exact ⟨hb'', fun k hk => (hsame' k hk).trans (hsame k hk)⟩

/-- The first `off` bytes of a page are cut into pieces, and nothing else of it. -/
def CutTo (L : Layout (Tag ω) Tag.len) (base off : Nat) : Prop :=
  ∀ b t, L.piece b = some t → b + t.len ≤ base + off ∨ base + oomSlabPage ≤ b

theorem growOne {off : Nat} (hs : s.Sound L) (hregion : base ∈ s.regions) (hpos : 0 < base)
    (hend : base + oomSlabPage ≤ 2 ^ 64) (hcut : CutTo L base off) (hoff : 0 < off)
    (hroom : off + oomSlabSize cls ≤ oomSlabPage) :
    ∃ L', GrownSlab s L (s.push cls (base + off)) L' ∧ CutTo L' base (off + oomSlabSize cls) := by
  have hfree : ∀ b t, L.piece b = some t →
      b + t.len ≤ base + off ∨ base + off + (Tag.free cls : Tag ω).len ≤ b := by
    intro b t hb
    have hcut := hcut b t hb
    show b + t.len ≤ base + off ∨ base + off + oomSlabSize cls ≤ b
    omega
  have hne : ∀ b t, L.piece b = some t → b ≠ base + off := by
    intro b t hb heq
    have hlen := t.len_ge
    have hge : 32 ≤ (Tag.free cls : Tag ω).len := Tag.len_ge _
    have hapart := hfree b t hb
    omega
  have hself : (L.insert (base + off) (.free cls) hfree).piece (base + off) = some (.free cls) :=
    Layout.insert_self
  have hother : ∀ b, b ≠ base + off →
      (L.insert (base + off) (.free cls) hfree).piece b = L.piece b :=
    fun b hb => Layout.insert_of_ne hb
  have hsound : (s.push cls (base + off)).Sound (L.insert (base + off) (.free cls) hfree) := by
    refine hs.push hother hself (fun t ht => absurd rfl (hne _ t ht)) ⟨by omega, by omega⟩
      ⟨base, hregion, ?_, ?_⟩ ?_
    · exact Nat.le_add_right _ _
    · omega
    · omega
  have hge := oomSlabSize_ge cls
  refine ⟨L.insert (base + off) (.free cls) hfree, ⟨hsound, rfl, rfl, rfl, fun b t hb => ?_⟩,
    fun b t hb => ?_⟩
  · have hb' := (hother b (hne b t hb)).trans hb
    refine ⟨hb', fun k hk => ?_⟩
    exact Layout.same_of_within hself hb' (hne b t hb)
      (within_setLinkNext (oomSlabSize cls) _ (by omega)) hk
  rcases Layout.eq_or_of_insert hb with ⟨rfl, rfl⟩ | hb
  · left
    show base + off + oomSlabSize cls ≤ base + (off + oomSlabSize cls)
    omega
  · have hcut := hcut b t hb
    omega

theorem growLoop_spec (cls : Fin 8) (passes n : Nat) {off : Nat} (hs : s.Sound L)
    (hregion : base ∈ s.regions) (hpos : 0 < base) (hend : base + oomSlabPage ≤ 2 ^ 64)
    (hcut : CutTo L base off) (hoff : 0 < off) :
    ∃ L', GrownSlab s L (Slab.growLoop cls base passes off n s).2 L' ∧
      (n < (Slab.growLoop cls base passes off n s).1 →
        (Slab.growLoop cls base passes off n s).2.freeHeads cls ≠ 0) ∧
      n ≤ (Slab.growLoop cls base passes off n s).1 ∧
      (s.freeHeads cls ≠ 0 → (Slab.growLoop cls base passes off n s).2.freeHeads cls ≠ 0) := by
  induction passes generalizing off n s L with
  | zero => exact ⟨L, GrownSlab.refl hs, fun h => absurd h (Nat.lt_irrefl _), Nat.le_refl _, id⟩
  | succ passes ih =>
    rw [Slab.growLoop]
    split
    next hroom =>
      obtain ⟨L₁, hgrown₁, hcut₁⟩ := growOne hs hregion hpos hend hcut hoff hroom
      obtain ⟨L₂, hgrown₂, -, hle, hhead⟩ := ih (n + 1) hgrown₁.sound hregion hcut₁ (by omega)
      have hnew : (s.push cls (base + off)).freeHeads cls ≠ 0 := by
        rw [show (s.push cls (base + off)).freeHeads cls = base + off from update_self ..]
        omega
      exact ⟨L₂, hgrown₁.trans hgrown₂, fun _ => hhead hnew, by omega, fun _ => hhead hnew⟩
    · exact ⟨L, GrownSlab.refl hs, fun h => absurd h (Nat.lt_irrefl _), Nat.le_refl _, id⟩

theorem within_writeHeader (next n : Nat) :
    m.Within (Slab.writeHeader m a next n) a pageHeader := by
  have h₁ : m.Within (setLinkNext m a next) a pageHeader := within_setLinkNext _ _ (by decide)
  have hend : a + pageHeader = a + 32 := rfl
  exact h₁.trans (Within.trans (within_writeU64 (by omega) (by omega))
    (Within.trans (within_writeU64 (by omega) (by omega)) (within_writeU64 (by omega) (by omega))))

theorem linkNext_writeHeader {next n : Nat} (hnext : next < 2 ^ 64) :
    linkNext (Slab.writeHeader m a next n) a = next := by
  have hsame : linkNext (Slab.writeHeader m a next n) a = linkNext (setLinkNext m a next) a := by
    unfold linkNext
    rw [readU64_congr fun k hk => ?_]
    unfold Slab.writeHeader setFreeCount
    rw [writeU64_of_outside (by omega), writeU64_of_outside (by omega),
      writeU64_of_outside (by omega)]
  rw [hsame, linkNext_setLinkNext hnext]

/-- A page joins its list. -/
theorem Slab.Sound.addPage (hs : s.Sound L) (ha : L.piece base = some .blank) (n : Nat) :
    Slab.Sound { s with
      mem := Slab.writeHeader s.mem base (s.pageHeads cls) n
      pageHeads := update s.pageHeads cls base
      pageCount := s.pageCount + 1 } (L.retag base .blank .header ha rfl) := by
  have hlisted : ∀ b t, L.piece b = some t → t ≠ .blank →
      (L.retag base .blank .header ha rfl).piece b = some t ∧
      ∀ k < 8, Slab.writeHeader s.mem base (s.pageHeads cls) n (b + k) = s.mem (b + k) := by
    intro b t hb hblank
    have hne : b ≠ base := by
      rintro rfl
      exact hblank (some.inj (hb.symm.trans ha))
    have hlen := t.len_ge
    exact ⟨(Layout.retag_of_ne hne).trans hb,
      fun k hk => Layout.same_of_within ha hb hne (within_writeHeader _ _) (by omega)⟩
  refine ⟨fun c => ?_, fun c => ?_, fun _ _ hb => (hs.placed hb).1,
    fun _ _ hb => (hs.placed hb).2.1, fun _ _ hb => (hs.placed hb).2.2⟩
  · obtain ⟨ps, hlinked, hpiece, hlength⟩ := hs.pages c
    have hlinked' := linked_of_same hlinked fun p hp => (hlisted p _ (hpiece p hp) nofun).2
    simp only
    by_cases hc : c = cls
    · subst hc
      refine ⟨base :: ps, ?_, fun p hp => ?_, Nat.succ_le_succ hlength⟩
      · rw [update_self]
        refine ⟨rfl, Nat.ne_of_gt (hs.small base _ ha).1, trivial, ?_⟩
        show linkCells.Linked _ (linkNext (Slab.writeHeader s.mem base (s.pageHeads c) n) base) ps 0
        rw [linkNext_writeHeader (hs.pageHead_lt c)]
        exact hlinked'
      · rcases mem_cons.mp hp with rfl | hp
        · exact Layout.retag_self
        · exact (hlisted p _ (hpiece p hp) nofun).1
    · refine ⟨ps, ?_, fun p hp => (hlisted p _ (hpiece p hp) nofun).1, Nat.le_succ_of_le hlength⟩
      rw [update_of_ne hc]
      exact hlinked'
  · obtain ⟨fs, hlinked, hnodup, hpiece⟩ := hs.free c
    exact ⟨fs, linked_of_same hlinked fun b hb => (hlisted b _ (hpiece b hb) nofun).2, hnodup,
      fun b hb => (hlisted b _ (hpiece b hb) nofun).1⟩

/-- A page that is not in use yet gets a header. -/
theorem Slab.Sound.addBlank (hs : s.Sound L) (hfresh : s.Fresh (some base)) :
    ∃ L', Slab.Sound { s with regions := base :: s.regions } L' ∧ L'.piece base = some .blank ∧
      CutTo L' base pageHeader ∧ ∀ b t, L.piece b = some t → L'.piece b = some t := by
  obtain ⟨hpos, hend, hapart⟩ := hfresh base rfl
  have hpage : pageHeader ≤ oomSlabPage := by decide
  have hout : ∀ b t, L.piece b = some t → b + t.len ≤ base ∨ base + oomSlabPage ≤ b := by
    intro b t hb
    obtain ⟨p, hp, hlo, hhi⟩ := hs.inside b t hb
    have := hapart p hp
    omega
  have hfree : ∀ b t, L.piece b = some t → b + t.len ≤ base ∨
      base + (Tag.blank : Tag ω).len ≤ b := by
    intro b t hb
    have hout := hout b t hb
    show b + t.len ≤ base ∨ base + pageHeader ≤ b
    omega
  have hold : ∀ b t, L.piece b = some t → (L.insert base .blank hfree).piece b = some t := by
    intro b t hb
    refine (Layout.insert_of_ne ?_).trans hb
    rintro rfl
    have hlen := t.len_ge
    have hout := hout b t hb
    unfold oomSlabPage at hout
    omega
  refine ⟨L.insert base .blank hfree, ⟨fun c => ?_, fun c => ?_, fun b t hb => ?_, fun b t hb => ?_,
    fun b t hb => ?_⟩, Layout.insert_self, fun b t hb => ?_, hold⟩
  · obtain ⟨ps, hlinked, hpiece, hlength⟩ := hs.pages c
    exact ⟨ps, hlinked, fun p hp => hold p _ (hpiece p hp), hlength⟩
  · obtain ⟨fs, hlinked, hnodup, hpiece⟩ := hs.free c
    exact ⟨fs, hlinked, hnodup, fun b hb => hold b _ (hpiece b hb)⟩
  · rcases Layout.eq_or_of_insert hb with ⟨rfl, rfl⟩ | hb
    · exact ⟨hpos, Nat.le_trans (Nat.add_le_add_left hpage _) hend⟩
    · exact hs.small b t hb
  · rcases Layout.eq_or_of_insert hb with ⟨rfl, rfl⟩ | hb
    · exact ⟨b, mem_cons_self, Nat.le_refl _, Nat.add_le_add_left hpage _⟩
    · obtain ⟨p, hp, hrange⟩ := hs.inside b t hb
      exact ⟨p, mem_cons_of_mem _ hp, hrange⟩
  · rcases Layout.eq_or_of_insert hb with ⟨rfl, rfl⟩ | hb
    · show pageHeader < oomSlabPage
      decide
    · exact hs.short b t hb
  · rcases Layout.eq_or_of_insert hb with ⟨rfl, rfl⟩ | hb
    · exact .inl (Nat.le_refl _)
    · have hout := hout b t hb
      omega

/-- `oom_slab_grow_locked` fails, or there is a free object. -/
theorem growLocked_spec {page : Option Nat} (hs : s.Sound L) (hfresh : s.Fresh page) (cls : Fin 8) :
    s.growLocked cls page = none ∨ ∃ s' L', s.growLocked cls page = some s' ∧ s'.Sound L' ∧
      KeepsObjects (fun _ _ => True) L s.mem L' s'.mem ∧ s'.freeHeads cls ≠ 0 := by
  cases page with
  | none => exact .inl rfl
  | some base =>
    obtain ⟨hpos, hend, -⟩ := hfresh base rfl
    obtain ⟨L₁, hs₁, hblank, hcut, hpieces₁⟩ := hs.addBlank hfresh
    obtain ⟨L₂, hgrown, hhead, -, -⟩ :=
      growLoop_spec cls 128 0 hs₁ mem_cons_self hpos hend hcut (by decide)
    unfold Slab.growLocked
    simp only
    generalize Slab.growLoop cls base 128 pageHeader 0 { s with regions := base :: s.regions } = r
      at hgrown hhead
    split
    · exact .inl rfl
    next hn =>
    right
    have hblank₂ := (hgrown.pieces base _ hblank).1
    refine ⟨_, _, rfl, hgrown.sound.addPage hblank₂ r.1, fun b c o hb _ => ?_,
      hhead (Nat.pos_of_ne_zero hn)⟩
    have hb₁ := hpieces₁ b _ hb
    obtain ⟨hb₂, hsame⟩ := hgrown.pieces b _ hb₁
    have hne : b ≠ base := by
      rintro rfl
      cases hb₁.symm.trans hblank
    refine ⟨(Layout.retag_of_ne hne).trans hb₂, fun k hk => ?_⟩
    exact (Layout.same_of_within hblank₂ hb₂ hne (within_writeHeader _ _) hk).trans (hsame k hk)

/-! ## The functions -/

/-- What `oom_slab_alloc` returns: an object in use for a new owner, with zeros in it. -/
structure Allocated (L : Layout (Tag ω) Tag.len) (m : Buffer) (r : Slab × Nat)
    (L' : Layout (Tag ω) Tag.len) (cls : Fin 8) (o : ω) : Prop where
  sound : r.1.Sound L'
  keeps : KeepsObjects (fun _ _ => True) L m L' r.1.mem
  piece : L'.piece r.2 = some (.used cls o)
  new : ∀ c o, L.piece r.2 ≠ some (.used c o)
  zero : ∀ k < oomSlabSize cls, r.1.mem (r.2 + k) = 0

/-- The first free object is taken off its list. -/
theorem Slab.Sound.pop (hs : s.Sound L) (hhead : s.freeHeads cls ≠ 0) (o : ω) : ∃ L', Slab.Sound
    { s with freeHeads := update s.freeHeads cls (linkNext s.mem (s.freeHeads cls)) } L' ∧
    L.piece (s.freeHeads cls) = some (.free cls) ∧ L'.piece (s.freeHeads cls) = some (.used cls o) ∧
    ∀ b, b ≠ s.freeHeads cls → L'.piece b = L.piece b := by
  obtain ⟨fs, hlinked, hnodup, hpiece⟩ := hs.free cls
  cases fs with
  | nil => exact absurd hlinked hhead
  | cons a fs =>
    obtain ⟨hhead, -, -, hlink⟩ := hlinked
    have hhead : s.freeHeads cls = a := hhead
    have hrest : linkCells.Linked s.mem (linkNext s.mem a) fs 0 := hhead ▸ hlink
    rw [hhead]
    have hfree := hpiece a mem_cons_self
    obtain ⟨hnotin, hnodup⟩ := nodup_cons.mp hnodup
    refine ⟨L.retag a (.free cls) (.used cls o) hfree rfl, ⟨fun c => ?_, fun c => ?_, fun _ _ hb =>
      (hs.placed hb).1, fun _ _ hb => (hs.placed hb).2.1, fun _ _ hb => (hs.placed hb).2.2⟩, hfree,
      Layout.retag_self, fun b hb => Layout.retag_of_ne hb⟩
    · obtain ⟨ps, hlinked, hheader, hlength⟩ := hs.pages c
      refine ⟨ps, hlinked, fun p hp => (Layout.retag_of_ne ?_).trans (hheader p hp), hlength⟩
      rintro rfl
      cases hfree.symm.trans (hheader p hp)
    simp only
    by_cases hc : c = cls
    · subst hc
      rw [update_self]
      refine ⟨fs, hrest, hnodup,
        fun b hb => (Layout.retag_of_ne ?_).trans (hpiece b (mem_cons_of_mem _ hb))⟩
      rintro rfl
      exact hnotin hb
    rw [update_of_ne hc]
    obtain ⟨gs, hlinked, hnodup, hfree'⟩ := hs.free c
    refine ⟨gs, hlinked, hnodup, fun b hb => (Layout.retag_of_ne ?_).trans (hfree' b hb)⟩
    rintro rfl
    cases hfree.symm.trans (hfree' b hb)
    exact hc rfl

/-- The part of `oom_slab_alloc` behind the search for a free object. -/
theorem take_spec (hs : s.Sound L) (hhead : s.freeHeads cls ≠ 0) (ok : Nat → Bool) (o : ω) :
    let s₁ : Slab :=
      { s with freeHeads := update s.freeHeads cls (linkNext s.mem (s.freeHeads cls)) }
    let s₂ := s₁.recount cls ok (· - 1)
    ∃ L', Allocated L s.mem
      ({ s₂ with mem := s₂.mem.splice (s.freeHeads cls) (oomSlabSize cls) zero },
        s.freeHeads cls) L' cls o := by
  obtain ⟨L', hpop, hfree, hused, hother⟩ := hs.pop hhead o
  obtain ⟨m₂, hrecount, hsound, hsame⟩ := hpop.recount cls ok (· - 1)
  simp only
  rw [hrecount]
  have hwithin : m₂.Within (m₂.splice (s.freeHeads cls) (oomSlabSize cls) zero)
      (s.freeHeads cls) (oomSlabSize cls) :=
    within_splice (Nat.le_refl _) (Nat.le_refl _)
  refine ⟨L', hsound.write hused hwithin, fun b c o' hb _ => ?_, hused, fun c o' hb => ?_,
    fun k hk => splice_apply hk⟩
  · have hne : b ≠ s.freeHeads cls := by
      rintro rfl
      cases hfree.symm.trans hb
    have hb' := (hother b hne).trans hb
    refine ⟨hb', fun k hk => ?_⟩
    exact (Layout.same_of_within hused hb' hne hwithin hk).trans (hsame b _ hb' nofun k hk)
  · cases hfree.symm.trans hb

/-- `oom_slab_alloc` changes nothing, or it returns an object. -/
theorem alloc_spec {page : Option Nat} (hs : s.Sound L) (hfresh : s.Fresh page)
    (size : Nat) (o : ω) : s.alloc size page = (s, 0) ∨ ∃ cls L', oomSlabClass size = some cls ∧
    Allocated L s.mem (s.alloc size page) L' cls o := by
  unfold Slab.alloc
  split
  · exact .inl rfl
  cases hclass : oomSlabClass size with
  | none => exact .inl rfl
  | some cls =>
    simp only
    by_cases hhead : s.freeHeads cls = 0
    · rw [if_pos hhead]
      rcases growLocked_spec hs hfresh cls with hnone | ⟨s', L₁, hsome, hs', hkeeps, hhead'⟩
      · rw [hnone]
        exact .inl rfl
      rw [hsome]
      obtain ⟨L', halloc⟩ := take_spec hs' hhead' _ o
      exact .inr ⟨cls, L', rfl, halloc.sound, hkeeps.trans halloc.keeps, halloc.piece,
        fun c o' hb => halloc.new c o' (hkeeps _ c o' hb trivial).1, halloc.zero⟩
    · rw [if_neg hhead]
      obtain ⟨L', halloc⟩ := take_spec hs hhead _ o
      exact .inr ⟨cls, L', rfl, halloc⟩

/-- `oom_slab_free` of an object in use. -/
theorem free_spec (hs : s.Sound L) (ha : L.piece a = some (.used cls o))
    (hsize : size ≠ 0) (hclass : oomSlabClass size = some cls) : ∃ L', (s.free a size).Sound L' ∧
    KeepsObjects (fun b _ => b ≠ a) L s.mem L' (s.free a size).mem := by
  have hsmall := hs.small a _ ha
  have hpush : (s.push cls a).Sound (L.retag a (.used cls o) (.free cls) ha rfl) := by
    refine hs.push (fun b hb => Layout.retag_of_ne hb) Layout.retag_self (fun t ht => ?_) hsmall
      (hs.inside a _ ha) (hs.short a _ ha)
    exact ⟨cls, o, some.inj (ht.symm.trans ha)⟩
  obtain ⟨m₂, hrecount, hsound, hsame⟩ := hpush.recount cls
    (fun pg => decide (pg ≤ a ∧ a < pg + oomSlabPage)) (· + 1)
  have heq : s.free a size = { s.push cls a with mem := m₂ } := by
    unfold Slab.free
    rw [if_neg fun h => h.elim (Nat.ne_of_gt hsmall.1) hsize, hclass]
    exact hrecount
  rw [heq]
  refine ⟨_, hsound, fun b c o' hb hne => ?_⟩
  have hb' : (L.retag a (.used cls o) (.free cls) ha rfl).piece b = some (.used c o') :=
    (Layout.retag_of_ne hne).trans hb
  refine ⟨hb', fun k hk => (hsame b _ hb' nofun k hk).trans ?_⟩
  have hge := oomSlabSize_ge cls
  exact Layout.same_of_within ha hb hne (within_setLinkNext (oomSlabSize cls) _ (by omega)) hk

/-! ## Which sizes can be had -/

/-- The largest object that fits into a page beside the header. -/
def largestObject : Nat := 2048

/-- A class is of use if it is not the one of whole pages. -/
theorem oomSlabSize_le_iff : oomSlabSize cls ≤ largestObject ↔ cls ≠ 7 := by
  revert cls
  decide

theorem oomSlabClass_small (hsize : size ≤ largestObject) :
    ∃ cls, oomSlabClass size = some cls ∧ cls ≠ 7 := by
  have hlist : finRange 8 = [0, 1, 2, 3, 4, 5, 6] ++ [7] := by decide
  have hfound :
      ([0, 1, 2, 3, 4, 5, 6].find? fun cls : Fin 8 => decide (size ≤ oomSlabSize cls)).isSome := by
    rw [find?_isSome]
    exact ⟨6, by decide, decide_eq_true hsize⟩
  obtain ⟨cls, hcls⟩ := isSome_iff_exists.mp hfound
  refine ⟨cls, ?_, ?_⟩
  · unfold oomSlabClass
    rw [hlist, find?_append, hcls, some_or]
  rintro rfl
  have hmem := mem_of_find?_eq_some hcls
  revert hmem
  decide

theorem oomSlabClass_large (hsize : largestObject < size) (hclass : oomSlabClass size = some cls) :
    cls = 7 := by
  have hle := le_of_oomSlabClass hclass
  by_contra hne
  have hsmall := oomSlabSize_le_iff.mpr hne
  omega

/-- There never is a free object of a whole page. -/
theorem Slab.Sound.freeHeads_last (hs : s.Sound L) : s.freeHeads 7 = 0 := by
  obtain ⟨fs, hlinked, -, hpiece⟩ := hs.free 7
  cases fs with
  | nil => exact hlinked
  | cons a fs =>
    have hshort : oomSlabSize 7 < oomSlabPage := hs.short a _ (hpiece a mem_cons_self)
    exact absurd hshort (by decide)

/-- `oom_slab_alloc` fails for sizes over 2048, however many pages there are. -/
theorem alloc_large (hs : s.Sound L) (hsize : largestObject < size) (page : Option Nat) :
    s.alloc size page = (s, 0) := by
  have hgrow : s.growLocked 7 page = none := by
    cases page with
    | none => rfl
    | some base => rfl
  unfold Slab.alloc
  split
  · rfl
  cases hclass : oomSlabClass size with
  | none => rfl
  | some cls =>
    obtain rfl := oomSlabClass_large hsize hclass
    simp only
    rw [if_pos hs.freeHeads_last, hgrow]

/-- A new page gives objects of every size up to 2048. -/
theorem growLocked_small (hs : s.Sound L) (hfresh : s.Fresh (some base)) (hcls : cls ≠ 7) :
    s.growLocked cls (some base) ≠ none := by
  obtain ⟨hpos, hend, -⟩ := hfresh base rfl
  obtain ⟨L₁, hs₁, -, hcut, -⟩ := hs.addBlank hfresh
  have hroom : pageHeader + oomSlabSize cls ≤ oomSlabPage := by
    have hle := oomSlabSize_le_iff.mpr hcls
    unfold largestObject at hle
    unfold pageHeader oomSlabPage
    omega
  obtain ⟨L₂, hgrown, hcut₂⟩ := growOne hs₁ mem_cons_self hpos hend hcut (by decide) hroom
  obtain ⟨L₃, -, -, hcount, -⟩ := growLoop_spec cls 127 1 hgrown.sound mem_cons_self hpos hend hcut₂
    (Nat.add_pos_left (by decide) _)
  unfold Slab.growLocked
  simp only
  rw [Slab.growLoop, if_pos hroom, if_neg (Nat.ne_of_gt hcount)]
  nofun

/-- `oom_slab_alloc` succeeds for sizes up to 2048 while there are pages. -/
theorem alloc_small (hs : s.Sound L) (hfresh : s.Fresh (some base)) (hpos : 0 < size)
    (hsize : size ≤ largestObject) : (s.alloc size (some base)).2 ≠ 0 := by
  obtain ⟨cls, hclass, hcls⟩ := oomSlabClass_small hsize
  unfold Slab.alloc
  rw [if_neg (Nat.ne_of_gt hpos), hclass]
  simp only
  by_cases hhead : s.freeHeads cls = 0
  · rw [if_pos hhead]
    rcases growLocked_spec hs hfresh cls with hnone | ⟨s', L', hsome, -, -, hhead'⟩
    · exact absurd hnone (growLocked_small hs hfresh hcls)
    · rw [hsome]
      exact hhead'
  · rw [if_neg hhead]
    exact hhead

end Sound

end PureCOS.Mm
