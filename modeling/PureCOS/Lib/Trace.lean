import Mathlib.Tactic.Common

/-!
# Traces

What a run showed so far is a list.  `EachAfter` says that every element is justified by those
before it, `Last` that an element is the last one of a kind; both are kept when a trace grows.
-/

namespace PureCOS.Trace

open List

universe u

variable {ω : Type u} {trace more : List ω}

/-- Every element stands in a relation to what is before it. -/
def EachAfter (P : List ω → ω → Prop) (trace : List ω) : Prop :=
  ∀ before w after, trace = before ++ w :: after → P before w

/-- The element is in the trace and none of the kind comes after it. -/
def Last (kind : ω → Prop) (trace : List ω) (w : ω) : Prop :=
  ∃ before after, trace = before ++ w :: after ∧ ∀ n ∈ after, ¬ kind n

theorem eachAfter_nil (P : List ω → ω → Prop) : EachAfter P [] := by
  intro before w after h
  have hlen := congrArg length h
  simp at hlen

/-- The new elements are justified by the old ones, and what is justified stays so. -/
theorem EachAfter.append {P : List ω → ω → Prop} (h : EachAfter P trace)
    (hmono : ∀ before mid w, P before w → P (before ++ mid) w) (hmore : ∀ w ∈ more, P trace w) :
    EachAfter P (trace ++ more) := by
  intro before w after heq
  rcases append_eq_append_iff.mp heq with ⟨mid, hbefore, hmid⟩ | ⟨mid, htrace, hmid⟩
  · -- the element is one of the new ones
    rw [hbefore]
    exact hmono _ _ _ (hmore w (hmid ▸ mem_append_right _ (mem_cons_self ..)))
  cases mid with
  | nil =>
    rw [append_nil] at htrace
    rw [nil_append] at hmid
    rw [← htrace]
    exact hmore w (hmid ▸ mem_cons_self ..)
  | cons first mid =>
    obtain ⟨rfl, _⟩ := cons.inj hmid
    exact h before w mid htrace

theorem Last.append {kind : ω → Prop} {w : ω} (h : Last kind trace w)
    (hmore : ∀ n ∈ more, ¬ kind n) : Last kind (trace ++ more) w := by
  obtain ⟨before, after, rfl, hafter⟩ := h
  refine ⟨before, after ++ more, by simp, fun n hn => ?_⟩
  rcases mem_append.mp hn with hn | hn
  · exact hafter n hn
  · exact hmore n hn

theorem last_append_cons {kind : ω → Prop} {w : ω} (hmore : ∀ n ∈ more, ¬ kind n) :
    Last kind (trace ++ w :: more) w :=
  ⟨trace, more, rfl, hmore⟩

end PureCOS.Trace
