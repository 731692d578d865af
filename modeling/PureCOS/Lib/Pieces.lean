import PureCOS.Lib.Bytes

/-!
# Pieces of memory

A layout says which pieces a memory is cut into: for an address, the kind of piece that starts
there, if one does.  Kinds have lengths, and pieces do not overlap.
-/

namespace PureCOS

open Function

universe u

/-- Pieces that are apart. -/
structure Layout (τ : Type u) (len : τ → Nat) where
  piece : Nat → Option τ
  apart : ∀ {a b t t'}, piece a = some t → piece b = some t' → a ≠ b → a + len t ≤ b ∨
    b + len t' ≤ a

/-- Nothing changes outside of a range. -/
def Buffer.Within (m m' : Buffer) (lo n : Nat) : Prop := ∀ a, a < lo ∨ lo + n ≤ a → m' a = m a

namespace Buffer

variable {m m' m'' : Buffer} {lo n pos k : Nat}

theorem Within.trans (h : Within m m' lo n) (h' : Within m' m'' lo n) : Within m m'' lo n :=
  fun a ha => (h' a ha).trans (h a ha)

theorem within_splice {source : Buffer} (hlo : lo ≤ pos) (hhi : pos + k ≤ lo + n) :
    Within m (m.splice pos k source) lo n :=
  fun _ ha => splice_of_outside (by omega)

theorem within_writeU32 {v : Nat} (hlo : lo ≤ pos) (hhi : pos + 4 ≤ lo + n) :
    Within m (m.writeU32 pos v) lo n :=
  within_splice hlo hhi

theorem within_writeU64 {w : BitVec 64} (hlo : lo ≤ pos) (hhi : pos + 8 ≤ lo + n) :
    Within m (m.writeU64 pos w) lo n :=
  within_splice hlo hhi

end Buffer

namespace Layout

variable {τ : Type u} {len : τ → Nat} (L : Layout τ len) {m m' : Buffer} {a b : Nat} {t t' : τ}

/-- Nothing is in the memory. -/
def none : Layout τ len where
  piece _ := Option.none
  apart h := nomatch h

/-- Another kind for a piece. -/
def retag (a : Nat) (t t' : τ) (ha : L.piece a = some t) (hlen : len t' = len t) :
    Layout τ len where
  piece := update L.piece a (some t')
  apart := by
    intro b c u u' hb hc hne
    rw [update_apply] at hb hc
    split at hb
    next hba =>
      cases hb
      rw [if_neg fun hca => hne (hba.trans hca.symm)] at hc
      rw [hlen]
      exact L.apart (hba ▸ ha) hc hne
    next hba =>
    split at hc
    next hca =>
      cases hc
      rw [hlen]
      exact L.apart hb (hca ▸ ha) hne
    · exact L.apart hb hc hne

/-- One more piece. -/
def insert (a : Nat) (t : τ)
    (hfree : ∀ b t', L.piece b = some t' → b + len t' ≤ a ∨ a + len t ≤ b) : Layout τ len where
  piece := update L.piece a (some t)
  apart := by
    intro b c u u' hb hc hne
    rw [update_apply] at hb hc
    split at hb
    next hba =>
      cases hb
      rw [if_neg fun hca => hne (hba.trans hca.symm)] at hc
      have hapart := hfree c u' hc
      omega
    next hba =>
    split at hc
    next hca =>
      cases hc
      have hapart := hfree b u hb
      omega
    · exact L.apart hb hc hne

variable {L}

section Retag

variable {ha : L.piece a = some t} {hlen : len t' = len t}

theorem retag_self : (L.retag a t t' ha hlen).piece a = some t' := update_self ..

theorem retag_of_ne (hne : b ≠ a) : (L.retag a t t' ha hlen).piece b = L.piece b :=
  update_of_ne hne ..

/-- The pieces are where they were. -/
theorem exists_of_retag {u : τ} (hb : (L.retag a t t' ha hlen).piece b = some u) :
    ∃ u', L.piece b = some u' ∧ len u' = len u := by
  by_cases heq : b = a
  · subst heq
    obtain rfl := Option.some.inj (retag_self.symm.trans hb)
    exact ⟨t, ha, hlen.symm⟩
  · exact ⟨u, (retag_of_ne heq).symm.trans hb, rfl⟩

end Retag

section Insert

variable {hfree : ∀ b t', L.piece b = some t' → b + len t' ≤ a ∨ a + len t ≤ b}

theorem insert_self : (L.insert a t hfree).piece a = some t := update_self ..

theorem insert_of_ne (hne : b ≠ a) : (L.insert a t hfree).piece b = L.piece b := update_of_ne hne ..

theorem eq_or_of_insert {u : τ} (hb : (L.insert a t hfree).piece b = some u) :
    b = a ∧ u = t ∨ L.piece b = some u := by
  by_cases heq : b = a
  · subst heq
    exact .inl ⟨rfl, Option.some.inj (hb.symm.trans insert_self)⟩
  · exact .inr ((insert_of_ne heq).symm.trans hb)

end Insert

/-- A write into one piece leaves the others alone. -/
theorem same_of_within (ha : L.piece a = some t) (hb : L.piece b = some t') (hne : b ≠ a)
    (hwithin : m.Within m' a (len t)) {k : Nat} (hk : k < len t') : m' (b + k) = m (b + k) := by
  refine hwithin _ ?_
  have hapart := L.apart ha hb hne.symm
  omega

end Layout

end PureCOS
