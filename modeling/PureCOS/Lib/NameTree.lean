import Mathlib.Data.Fintype.Card

/-!
# Trees of names

Entries that know their parent and their name, with one root.  An entry is found by the names on the
way down to it.  A tree stays a tree if one entry is dropped that has no children (`Proper.drop`),
or put below an inner entry that it is not above of (`Proper.put`); both leave alone what does not
lead through that entry (`Leads.of_agree`).
-/

namespace PureCOS

universe u v

/-- Parents and names; `live` entries are in use, and `inner` ones may have children. -/
structure NameTree (ι : Type u) (κ : Type v) where
  root : ι
  parent : ι → ι
  name : ι → κ
  live : ι → Prop
  inner : ι → Prop

namespace NameTree

variable {ι : Type u} {κ : Type v} {t t' : NameTree ι κ} {i j m : ι} {n k : Nat} {names : List κ}

/-! ## Ways to the root -/

/-- The root is reached from an entry through inner entries. -/
inductive Rooted (t : NameTree ι κ) : ι → Prop
  | root : t.Rooted t.root
  | child {i : ι} : i ≠ t.root → t.inner (t.parent i) → t.Rooted (t.parent i) → t.Rooted i

/-- An entry is met on the way from another one to the root. -/
inductive Above (t : NameTree ι κ) (m : ι) : ι → Prop
  | self : t.Above m m
  | up {i : ι} : i ≠ t.root → t.Above m (t.parent i) → t.Above m i

/-- The number of steps to the root. -/
inductive AtDepth (t : NameTree ι κ) : Nat → ι → Prop
  | root : t.AtDepth 0 t.root
  | child {n : Nat} {i : ι} : i ≠ t.root → t.AtDepth n (t.parent i) → t.AtDepth (n + 1) i

theorem Rooted.atDepth (h : t.Rooted i) : ∃ n, t.AtDepth n i := by
  induction h with
  | root => exact ⟨0, .root⟩
  | child hne _ _ ih =>
    obtain ⟨n, hn⟩ := ih
    exact ⟨n + 1, .child hne hn⟩

theorem AtDepth.unique (h : t.AtDepth n i) (h' : t.AtDepth k i) : n = k := by
  induction h generalizing k with
  | root =>
    cases h' with
    | root => rfl
    | child hne _ => exact absurd rfl hne
  | child hne _ ih =>
    cases h' with
    | root => exact absurd rfl hne
    | child _ h' => rw [ih h']

theorem AtDepth.of_above (h : t.AtDepth n i) (hm : t.Above m i) : ∃ k ≤ n, t.AtDepth k m := by
  induction hm generalizing n with
  | self => exact ⟨n, le_refl n, h⟩
  | up hne _ ih =>
    cases h with
    | root => exact absurd rfl hne
    | child _ h =>
      obtain ⟨k, hk, hm⟩ := ih h
      exact ⟨k, Nat.le_succ_of_le hk, hm⟩

/-- All depths up to that of an entry occur. -/
theorem AtDepth.exists_le (h : t.AtDepth n i) (hk : k ≤ n) : ∃ j, t.AtDepth k j := by
  induction h with
  | root =>
    obtain rfl := Nat.le_zero.mp hk
    exact ⟨_, .root⟩
  | @child n i hne h ih =>
    rcases Nat.eq_or_lt_of_le hk with rfl | hlt
    · exact ⟨i, .child hne h⟩
    · exact ih (Nat.le_of_lt_succ hlt)

/-- A way to the root is shorter than the number of entries, since it meets none of them twice. -/
theorem AtDepth.lt_card [Fintype ι] (h : t.AtDepth n i) : n < Fintype.card ι := by
  choose entry hentry using fun k : Fin (n + 1) => h.exists_le (Nat.le_of_lt_succ k.isLt)
  have hinjective : Function.Injective entry := fun a b hab =>
    Fin.ext ((hentry a).unique (hab ▸ hentry b))
  have hcard := Fintype.card_le_of_injective entry hinjective
  rwa [Fintype.card_fin] at hcard

/-- No entry is above its parent. -/
theorem Rooted.not_above_parent (h : t.Rooted i) (hi : i ≠ t.root) : ¬t.Above i (t.parent i) := by
  intro habove
  obtain ⟨n, hn⟩ := h.atDepth
  cases hn with
  | root => exact hi rfl
  | child hne hparent =>
    obtain ⟨k, hk, hdepth⟩ := hparent.of_above habove
    have := hdepth.unique (.child hne hparent)
    omega

/-- What is closed under going up holds of all entries above. -/
theorem Above.closed {S : ι → Prop} (h : t.Above m i) (hi : S i)
    (hup : ∀ j, S j → j ≠ t.root → S (t.parent j)) : S m := by
  induction h with
  | self => exact hi
  | up hne _ ih => exact ih (hup _ hi hne)

/-! ## Well-formed trees -/

/--
Every entry in use reaches the root through inner entries in use, and siblings have different names.
-/
structure Proper (t : NameTree ι κ) : Prop where
  root_inner : t.inner t.root
  live_of_inner : ∀ i, t.inner i → t.live i
  rooted : ∀ i, t.live i → t.Rooted i
  siblings : ∀ i j, t.live i → t.live j → i ≠ t.root → j ≠ t.root → t.parent i = t.parent j →
    t.name i = t.name j → i = j

theorem Proper.parent_inner (ht : t.Proper) (hi : t.live i) (hne : i ≠ t.root) :
    t.inner (t.parent i) := by
  cases ht.rooted i hi with
  | root => exact absurd rfl hne
  | child _ hinner _ => exact hinner

/-- An entry without children is above no other one in use. -/
theorem Proper.not_above (ht : t.Proper) (hm : ∀ j, t.live j → j ≠ t.root → t.parent j ≠ m)
    (hi : t.live i) (hne : i ≠ m) : ¬t.Above m i := by
  intro habove
  have hclosed : t.live m ∧ m ≠ m :=
    habove.closed (S := fun j => t.live j ∧ j ≠ m) ⟨hi, hne⟩ fun j hj hroot =>
    ⟨ht.live_of_inner _ (ht.parent_inner hj.1 hroot), hm j hj.1 hroot⟩
  exact hclosed.2 rfl

theorem Proper.not_above_of_not_inner (ht : t.Proper) (hm : ¬t.inner m) (hi : t.live i)
    (hne : i ≠ m) : ¬t.Above m i :=
  ht.not_above (fun _ hj hroot hparent => hm (hparent ▸ ht.parent_inner hj hroot)) hi hne

/-! ## Names -/

/-- These names lead down to an entry. -/
inductive Leads (t : NameTree ι κ) : List κ → ι → Prop
  | root : t.Leads [] t.root
  | child {names : List κ} {i : ι} : t.live i → i ≠ t.root → t.inner (t.parent i) →
    t.Leads names (t.parent i) →
      t.Leads (names ++ [t.name i]) i

theorem Leads.live (ht : t.Proper) (h : t.Leads names i) : t.live i := by
  cases h with
  | root => exact ht.live_of_inner _ ht.root_inner
  | child hlive _ _ _ => exact hlive

/-! ## One entry changes -/

/-- Two trees that differ in one entry at most. -/
structure AgreeOff (m : ι) (t t' : NameTree ι κ) : Prop where
  root : t'.root = t.root
  parent : ∀ j, j ≠ m → t'.parent j = t.parent j
  name : ∀ j, j ≠ m → t'.name j = t.name j
  live : ∀ j, j ≠ m → (t'.live j ↔ t.live j)
  inner : ∀ j, j ≠ m → (t'.inner j ↔ t.inner j)

theorem AgreeOff.symm (h : AgreeOff m t t') : AgreeOff m t' t :=
  ⟨h.root.symm, fun j hj => (h.parent j hj).symm, fun j hj => (h.name j hj).symm,
    fun j hj => (h.live j hj).symm, fun j hj => (h.inner j hj).symm⟩

/-- An entry that is not below `m` has the parent it had. -/
theorem AgreeOff.up (hagree : AgreeOff m t t') (hm : ¬t.Above m i) (hne : i ≠ t.root)
    (hinner : t.inner (t.parent i)) :
    i ≠ m ∧ t.parent i = t'.parent i ∧ t'.inner (t'.parent i) ∧ ¬t.Above m (t.parent i) := by
  have hup : ¬t.Above m (t.parent i) := fun habove => hm (.up hne habove)
  have hi : i ≠ m := fun heq => hm (heq ▸ .self)
  rw [hagree.parent i hi]
  exact ⟨hi, rfl, (hagree.inner _ fun heq => hup (heq ▸ .self)).mpr hinner, hup⟩

theorem Rooted.of_agree (h : t.Rooted i) (hagree : AgreeOff m t t') (hm : ¬t.Above m i) :
    t'.Rooted i := by
  induction h with
  | root => exact hagree.root ▸ .root
  | @child i hne hinner _ ih =>
    obtain ⟨-, hparent, hinner', hup⟩ := hagree.up hm hne hinner
    exact .child (hagree.root ▸ hne) hinner' (hparent ▸ ih hup)

/-- Names that do not lead through the entry lead where they led before. -/
theorem Leads.of_agree (h : t.Leads names i) (hagree : AgreeOff m t t') (hm : ¬t.Above m i) :
    t'.Leads names i := by
  induction h with
  | root => exact hagree.root ▸ .root
  | @child names i hlive hne hinner _ ih =>
    obtain ⟨hi, hparent, hinner', hup⟩ := hagree.up hm hne hinner
    rw [← hagree.name i hi]
    exact .child ((hagree.live i hi).mpr hlive) (hagree.root ▸ hne) hinner' (hparent ▸ ih hup)

/-- An entry without children is dropped. -/
theorem Proper.drop (ht : t.Proper) (hagree : AgreeOff m t t') (hroot : m ≠ t.root)
    (hm : ∀ j, t.live j → j ≠ t.root → t.parent j ≠ m) (hlive : ¬t'.live m) (hinner : ¬t'.inner m) :
    t'.Proper where
  root_inner := hagree.root ▸ (hagree.inner _ hroot.symm).mpr ht.root_inner
  live_of_inner := by
    intro i hi
    have hne : i ≠ m := fun heq => hinner (heq ▸ hi)
    exact (hagree.live i hne).mpr (ht.live_of_inner i ((hagree.inner i hne).mp hi))
  rooted := by
    intro i hi
    have hne : i ≠ m := fun heq => hlive (heq ▸ hi)
    have hi := (hagree.live i hne).mp hi
    exact (ht.rooted i hi).of_agree hagree (ht.not_above hm hi hne)
  siblings := by
    intro i j hi hj hiroot hjroot hparent hname
    have hine : i ≠ m := fun heq => hlive (heq ▸ hi)
    have hjne : j ≠ m := fun heq => hlive (heq ▸ hj)
    rw [hagree.root] at hiroot hjroot
    rw [hagree.parent i hine, hagree.parent j hjne] at hparent
    rw [hagree.name i hine, hagree.name j hjne] at hname
    exact ht.siblings i j ((hagree.live i hine).mp hi)
      ((hagree.live j hjne).mp hj) hiroot hjroot hparent hname

/-- A new entry, or one that gets another parent or name. -/
theorem Proper.put (ht : t.Proper) (hagree : AgreeOff m t t')
    (hroot : m ≠ t.root) (hlive : t'.live m) (hinner : t.inner m → t'.inner m)
    (hparent : t.inner (t'.parent m)) (habove : ¬t.Above m (t'.parent m))
    (hname : ∀ j, t.live j → j ≠ t.root → j ≠ m → t.parent j = t'.parent m → t.name j ≠ t'.name m) :
    t'.Proper := by
  have hne : t'.parent m ≠ m := fun heq => habove (heq.symm ▸ .self)
  have hrooted : t'.Rooted m := by
    refine .child (hagree.root ▸ hroot) ((hagree.inner _ hne).mpr hparent) ?_
    exact (ht.rooted _ (ht.live_of_inner _ hparent)).of_agree hagree habove
  have hrest : ∀ i, t.Rooted i → t'.Rooted i := by
    intro i hi
    induction hi with
    | root => exact hagree.root ▸ .root
    | @child i hne hinner' _ ih =>
      by_cases him : i = m
      · exact him ▸ hrooted
      refine .child (hagree.root ▸ hne) ?_ ?_
      · rw [hagree.parent i him]
        by_cases hpm : t.parent i = m
        · exact hpm ▸ hinner (hpm ▸ hinner')
        · exact (hagree.inner _ hpm).mpr hinner'
      · rw [hagree.parent i him]
        exact ih
  have hdist : ∀ j, j ≠ m → t'.live j → j ≠ t'.root → t'.parent j = t'.parent m →
      t'.name j ≠ t'.name m := by
    intro j hjm hj hjroot hjparent
    rw [hagree.name j hjm]
    rw [hagree.parent j hjm] at hjparent
    exact hname j ((hagree.live j hjm).mp hj) (hagree.root ▸ hjroot) hjm hjparent
  refine ⟨hagree.root ▸ (hagree.inner _ hroot.symm).mpr ht.root_inner, fun i hi => ?_,
    fun i hi => ?_, fun i j hi hj hiroot hjroot hsame heq => ?_⟩
  · by_cases him : i = m
    · exact him ▸ hlive
    · exact (hagree.live i him).mpr (ht.live_of_inner i ((hagree.inner i him).mp hi))
  · by_cases him : i = m
    · exact him ▸ hrooted
    · exact hrest i (ht.rooted i ((hagree.live i him).mp hi))
  by_cases him : i = m
  · by_cases hjm : j = m
    · rw [him, hjm]
    · exact absurd (him ▸ heq.symm) (hdist j hjm hj hjroot (him ▸ hsame.symm))
  by_cases hjm : j = m
  · exact absurd (hjm ▸ heq) (hdist i him hi hiroot (hjm ▸ hsame))
  rw [hagree.root] at hiroot hjroot
  rw [hagree.parent i him, hagree.parent j hjm] at hsame
  rw [hagree.name i him, hagree.name j hjm] at heq
  exact ht.siblings i j ((hagree.live i him).mp hi)
    ((hagree.live j hjm).mp hj) hiroot hjroot hsame heq

end NameTree
end PureCOS
