import Mathlib.Tactic.Common

/-!
# Texts of lines

Loops over the lines of a text.  Each round looks at the text from the start of a line on and may
end the loop with a result; if it does not, the loop goes on behind the next line feed.
-/

namespace PureCOS.Lines

open List

variable {β : Type} {f : List Char → Option β} {line rest text : List Char}

/-- What comes behind the next line feed. -/
def skipLine (text : List Char) : List Char := (text.dropWhile fun c => c != '\n').drop 1

theorem length_skipLine_lt (c : Char) (text : List Char) :
    (skipLine (c :: text)).length < (c :: text).length := by
  have hle := ((c :: text).dropWhile_suffix fun c => c != '\n').length_le
  rw [skipLine, length_drop]
  simp only [length_cons] at hle ⊢
  omega

theorem skipLine_append (hline : '\n' ∉ line) : skipLine (line ++ '\n' :: rest) = rest := by
  have hdrop : (line ++ '\n' :: rest).dropWhile (fun c => c != '\n') = '\n' :: rest := by
    rw [dropWhile_append_of_pos]
    · rfl
    · intro c hc
      rw [bne_iff_ne]
      exact fun h => hline (h ▸ hc)
  rw [skipLine, hdrop, drop_one, tail_cons]

/-- The result of the first line that has one. -/
def firstLine (f : List Char → Option β) : List Char → Option β
  | [] => none
  | c :: text =>
    match f (c :: text) with
    | some r => some r
    | none => firstLine f (skipLine (c :: text))
termination_by text => text.length
decreasing_by exact length_skipLine_lt c text

theorem firstLine_nil : firstLine f [] = none := by rw [firstLine]

/-- One line. -/
theorem firstLine_append (hline : '\n' ∉ line) :
    firstLine f (line ++ '\n' :: rest) = (f (line ++ '\n' :: rest)).or (firstLine f rest) := by
  have hskip : skipLine (line ++ '\n' :: rest) = rest := skipLine_append hline
  rcases htext : line ++ '\n' :: rest with _ | ⟨c, text⟩
  · simp at htext
  rw [htext] at hskip
  rw [firstLine, hskip]
  cases f (c :: text) with
  | none => rfl
  | some r => rfl

/-- The text from the start of a line on. -/
def LineOf (text line : List Char) : Prop :=
  line ≠ [] ∧ ∃ before, text = before ++ line ∧ (before = [] ∨ before.getLast? = some '\n')

/-- A line of a text is the first one or one of the others. -/
theorem LineOf.cases {p : List Char} (h : LineOf (line ++ '\n' :: rest) p) (hline : '\n' ∉ line) :
    p = line ++ '\n' :: rest ∨ LineOf rest p := by
  obtain ⟨hne, before, htext, hstart⟩ := h
  rcases hstart with rfl | hlast
  · exact .inl htext.symm
  right
  obtain ⟨front, rfl⟩ := getLast?_eq_some_iff.mp hlast
  rw [append_assoc, singleton_append] at htext
  refine ⟨hne, ?_⟩
  -- the line feed in front of `p` is the first one or a later one
  rcases append_eq_append_iff.mp htext with ⟨more, hfront, hmore⟩ | ⟨more, hmore, hp⟩
  · cases more with
    | nil =>
      obtain ⟨-, rfl⟩ := cons.inj hmore
      exact ⟨[], rfl, .inl rfl⟩
    | cons c more =>
      obtain ⟨-, rfl⟩ := cons.inj hmore
      refine ⟨more ++ ['\n'], ?_, .inr ?_⟩
      · simp
      · exact getLast?_concat ..
  · cases more with
    | nil =>
      obtain ⟨-, rfl⟩ := cons.inj hp
      exact ⟨[], rfl, .inl rfl⟩
    | cons c more =>
      obtain ⟨rfl, -⟩ := cons.inj hp
      refine absurd ?_ hline
      rw [hmore]
      simp

end PureCOS.Lines
