import Mathlib.Data.List.Basic

/-!
# Lists of segments written with separators

`absolute sep segs` is a separator followed by the segments joined with single separators.
Segments without a separator in them can be read back, and a text is a prefix of another up to
a boundary exactly if its segments are.
-/

namespace PureCOS.Segments

open List

universe u

variable {α : Type u} {sep : α}

/-- Segments that separators keep apart. -/
def Plain (sep : α) (segs : List (List α)) : Prop := ∀ c ∈ segs, c ≠ [] ∧ sep ∉ c

/-- A separator in front of every segment. -/
def rooted (sep : α) (segs : List (List α)) : List α := segs.flatMap fun c => sep :: c

/-- A separator, and the segments joined with single separators. -/
def absolute (sep : α) (segs : List (List α)) : List α := sep :: [sep].intercalate segs

/-- Nothing, or a separator comes next. -/
def Boundary (sep : α) (rest : List α) : Prop := rest = [] ∨ rest.head? = some sep

@[simp] theorem rooted_nil : rooted sep [] = [] := rfl

variable (c : List α) (segs : List (List α))

@[simp] theorem rooted_cons :
    rooted sep (c :: segs) = sep :: (c ++ rooted sep segs) := rfl

theorem rooted_append (ps qs : List (List α)) :
    rooted sep (ps ++ qs) = rooted sep ps ++ rooted sep qs := by
  simp [rooted]

theorem boundary_rooted : Boundary sep (rooted sep segs) := by
  cases segs with
  | nil => exact .inl rfl
  | cons c segs => exact .inr rfl

@[simp] theorem absolute_nil : absolute sep [] = [sep] := rfl

/-- Joining puts a separator in front of every segment but the first. -/
theorem intercalate_cons_eq : [sep].intercalate (c :: segs) = c ++ rooted sep segs := by
  induction segs generalizing c with
  | nil => simp [intercalate]
  | cons d segs ih => rw [intercalate_cons_cons, ih, rooted_cons, append_assoc]; rfl

theorem absolute_cons : absolute sep (c :: segs) = rooted sep (c :: segs) := by
  rw [absolute, intercalate_cons_eq, rooted_cons]

theorem absolute_eq_rooted {segs : List (List α)} (h : segs ≠ []) :
    absolute sep segs = rooted sep segs := by
  obtain ⟨c, segs, rfl⟩ := exists_cons_of_ne_nil h
  exact absolute_cons c segs

theorem absolute_concat (c : List α) :
    absolute sep (segs ++ [c]) = rooted sep segs ++ sep :: c := by
  rw [absolute_eq_rooted (by simp), rooted_append]
  simp

namespace Plain

variable {ps qs : List (List α)} {c : List α}

theorem nil : Plain sep [] := by simp [Plain]

theorem of_cons (h : Plain sep (c :: ps)) : (c ≠ [] ∧ sep ∉ c) ∧ Plain sep ps :=
  ⟨h c mem_cons_self, fun d hd => h d (mem_cons_of_mem _ hd)⟩

end Plain

/-- A first segment ends at the first separator. -/
theorem first_segment {c d s t : List α} (hc : sep ∉ c) (hd : sep ∉ d) (hs : Boundary sep s)
    (ht : Boundary sep t) (h : c ++ s = d ++ t) : c = d ∧ s = t := by
  induction c generalizing d with
  | nil =>
    cases d with
    | nil => exact ⟨rfl, h⟩
    | cons y d =>
      rcases hs with rfl | hs
      · cases h
      · rw [← nil_append s, h] at hs
        obtain rfl : y = sep := by simpa using hs
        exact absurd mem_cons_self hd
  | cons x c ih =>
    cases d with
    | nil =>
      rcases ht with rfl | ht
      · cases h
      · rw [← nil_append t, ← h] at ht
        obtain rfl : x = sep := by simpa using ht
        exact absurd mem_cons_self hc
    | cons y d =>
      obtain ⟨hx, htail⟩ := cons.inj h
      obtain ⟨rfl, rfl⟩ := ih (fun hin => hc (mem_cons_of_mem _ hin))
        (fun hin => hd (mem_cons_of_mem _ hin)) htail
      exact ⟨by rw [hx], rfl⟩

section Prefixes

variable {ps qs : List (List α)}

/-- A prefix that ends at a boundary consists of the first segments. -/
theorem eq_append_of_rooted {rest : List α} (hp : Plain sep ps) (hq : Plain sep qs)
    (hb : Boundary sep rest) (h : rooted sep qs = rooted sep ps ++ rest) :
    ∃ tail, qs = ps ++ tail ∧ rest = rooted sep tail := by
  induction ps generalizing qs with
  | nil => exact ⟨qs, rfl, by simpa using h.symm⟩
  | cons c ps ih =>
    cases qs with
    | nil => cases h
    | cons d qs =>
      obtain ⟨⟨-, hc⟩, hps⟩ := hp.of_cons
      obtain ⟨⟨-, hd⟩, hqs⟩ := hq.of_cons
      rw [rooted_cons, rooted_cons, cons_append, append_assoc] at h
      have hb' : Boundary sep (rooted sep ps ++ rest) := by
        cases ps with
        | nil => exact hb
        | cons e ps => exact .inr rfl
      obtain ⟨rfl, htail⟩ :=
        first_segment hd hc (boundary_rooted qs) hb' (cons.inj h).2
      obtain ⟨tail, rfl, rfl⟩ := ih hps hqs htail
      exact ⟨tail, rfl, rfl⟩

theorem rooted_injective (hp : Plain sep ps) (hq : Plain sep qs)
    (h : rooted sep ps = rooted sep qs) : ps = qs := by
  obtain ⟨tail, rfl, htail⟩ :=
    eq_append_of_rooted hq hp (.inl rfl) (by rw [h, append_nil])
  cases tail with
  | nil => simp
  | cons c tail => cases htail

theorem absolute_injective (hp : Plain sep ps) (hq : Plain sep qs)
    (h : absolute sep ps = absolute sep qs) : ps = qs := by
  have hroot : ∀ {c segs}, Plain sep (c :: segs) → absolute sep (c :: segs) ≠ [sep] := by
    intro c segs hplain heq
    rw [absolute_cons, rooted_cons] at heq
    have hc : c = [] := (append_eq_nil_iff.mp (cons.inj heq).2).1
    exact hplain.of_cons.1.1 hc
  cases ps with
  | nil =>
    cases qs with
    | nil => rfl
    | cons c qs => exact absurd h.symm (hroot hq)
  | cons d ps =>
    cases qs with
    | nil => exact absurd h (hroot hp)
    | cons c qs =>
      rw [absolute_cons, absolute_cons] at h
      exact rooted_injective hp hq h

end Prefixes

end PureCOS.Segments
