import PureCOS.Shell.Expand

/-!
# Command substitution

`lex_copy_dollar_paren` looks for the end of `$(…)` past quotes and backslashes.
`expand_word_cells` looks for it again in the word, and only counts parentheses, the quoted ones
too; and it takes `$((` for arithmetic.
-/

namespace PureCOS.Shell

open List

/-! ## The lexer copies what is written -/

section Copies

theorem escapedSpan_append (stop : Byte) (s : List Byte) :
    (escapedSpan stop s).1 ++ (escapedSpan stop s).2 = s := by
  fun_induction escapedSpan stop s <;> simp_all

theorem dollarParenLoop_append (n : Nat) (depth : Int) (s word : List Byte) :
    (dollarParenLoop n depth s word).1 ++ (dollarParenLoop n depth s word).2 = word ++ s := by
  induction n generalizing depth s word with
  | zero => rfl
  | succ n ih =>
    cases s with
    | nil => rfl
    | cons d s =>
      have hquoted : s.takeWhile (· != squote) ++ s.dropWhile (· != squote) = s :=
        takeWhile_append_dropWhile
      have hspan := escapedSpan_append dquote s
      rw [dollarParenLoop]
      by_cases hsquote : d = squote
      · simp only [if_pos hsquote]
        cases hrest : s.dropWhile (· != squote) with
        | nil =>
          rw [hrest, append_nil] at hquoted
          simp [hquoted]
        | cons q rest =>
          rw [hrest] at hquoted
          simp only [ih, append_assoc, cons_append, nil_append, hquoted]
      by_cases hdquote : d = dquote
      · simp only [if_neg hsquote, if_pos hdquote]
        rcases hparts : escapedSpan dquote s with ⟨inner, _ | ⟨q, rest⟩⟩
        · simpa [hparts] using hspan
        · rw [hparts] at hspan
          simp only [ih, append_assoc, cons_append, nil_append, hspan]
      by_cases hslash : d = backslash ∧ s ≠ []
      · obtain ⟨c, s, rfl⟩ := exists_cons_of_ne_nil hslash.2
        simp only [if_neg hsquote, if_neg hdquote, if_pos hslash, ih]
        simp
      · simp only [if_neg hsquote, if_neg hdquote, if_neg hslash]
        split_ifs <;> simp [ih]

end Copies

/-! ## The expansion counts parentheses -/

/-- The parentheses of a text match, wherever they stand, if `depth` are open before it. -/
def matched : Nat → List Byte → Bool
  | depth, [] => depth == 0
  | depth, c :: s =>
    if c = byte '(' then matched (depth + 1) s
    else if c = byte ')' then depth != 0 && matched (depth - 1) s
    else matched depth s

/--
The group that is open ends at the parenthesis behind a text exactly if its own parentheses match.
-/
theorem groupSpan_iff (depth : Nat) (text more : List Byte) :
    groupSpan (byte '(') (byte ')') (depth + 1) (text ++ byte ')' :: more) = (text ++ [byte ')'],
      more, 0) ↔ matched depth text = true := by
  have hdist : byte ')' ≠ byte '(' := by decide
  induction text generalizing depth with
  | nil =>
    simp only [nil_append, groupSpan, if_neg hdist, if_true, matched]
    cases depth with
    | zero => simp [groupSpan]
    | succ depth =>
      cases more with
      | nil => simp [groupSpan]
      | cons c more => simp [groupSpan]
  | cons c text ih =>
    simp only [cons_append, groupSpan, matched]
    by_cases hopen : c = byte '('
    · simp only [if_pos hopen]
      exact Iff.trans (by simp [Prod.ext_iff]) (ih (depth + 1))
    by_cases hclose : c = byte ')'
    · simp only [if_neg hopen, if_pos hclose]
      cases depth with
      | zero => simp [groupSpan]
      | succ depth =>
        exact Iff.trans (by simp [Prod.ext_iff]) ((ih depth).trans (by simp))
    · simp only [if_neg hopen, if_neg hclose]
      exact Iff.trans (by simp [Prod.ext_iff]) (ih depth)

/-- A scan ends with all of its text, or the group is closed. -/
theorem groupSpan_append (depth : Nat) (s : List Byte) :
    (groupSpan (byte '(') (byte ')') depth s).1 ++
        (groupSpan (byte '(') (byte ')') depth s).2.1 = s ∧
      ((groupSpan (byte '(') (byte ')') depth s).2.2 ≠ 0 →
        (groupSpan (byte '(') (byte ')') depth s).2.1 = []) := by
  induction s generalizing depth with
  | nil => cases depth <;> simp [groupSpan]
  | cons c s ih =>
    cases depth with
    | zero => simp [groupSpan]
    | succ depth => simpa [groupSpan] using ih _

theorem groupText_iff (text more : List Byte) :
    (groupText (byte '(') (byte ')') (text ++ byte ')' :: more)).1 = text ↔
      matched 0 text = true := by
  obtain ⟨hall, hopen⟩ := groupSpan_append 1 (text ++ byte ')' :: more)
  rw [← groupSpan_iff 0 text more, groupText]
  rcases hspan :
    groupSpan (byte '(') (byte ')') 1 (text ++ byte ')' :: more) with ⟨found, rest, left⟩
  rw [hspan] at hall hopen
  dsimp only at hall hopen ⊢
  constructor
  · intro h
    by_cases hleft : left = 0
    · rw [if_pos hleft] at h
      have hsome : found ≠ [] := by
        rintro rfl
        cases text <;> simp [groupSpan] at hspan
      have hfound := dropLast_concat_getLast hsome
      rw [h] at hfound
      rw [← hfound, append_assoc, singleton_append] at hall
      obtain ⟨hlast, hrest⟩ := cons.inj (append_cancel_left hall)
      rw [← hfound, hlast, hrest, hleft]
    · rw [if_neg hleft] at h
      rw [hopen hleft, append_nil, h] at hall
      simpa using congrArg length hall
  · intro h
    cases h
    simp

/-! ## What is handed over -/

variable (command : List Byte) (host : Host)

/--
At `$(command)`, outside and inside of double quotes, the expansion hands over the command and goes
on behind it.
-/
def Hands : Prop :=
  ∀ host n more out, (∀ noSplit atStart hadQuotes, expandWordCells host (n + 1) noSplit
    (byte '$' :: byte '(' :: (command ++ byte ')' :: more)) atStart out hadQuotes = do
        let output ← host.commandSubstitute command
        expandWordCells host n noSplit more false
          (cellsPuts out output (if noSplit then .quoted else .expanded)) hadQuotes) ∧
      expandQuoted host (n + 1) (byte '$' :: byte '(' :: (command ++ byte ')' :: more)) out = do
        let output ← host.commandSubstitute command
        expandQuoted host n more (cellsPuts out output .quoted)

/-- A host that tells a command from all others. -/
def probe : Host where
  commandSubstitute := fun other => throw (if other = command then .exit 0 else .exit 1)
  arithEval := fun _ _ => 0
  glob := fun _ => []

theorem head?_command (more : List Byte) :
    (command ++ byte ')' :: more).head? = some (byte '(') ↔ command.head? = some (byte '(') := by
  cases command with
  | nil => simp; decide
  | cons c command => simp

/-- What the expansion does at `$(`. -/
theorem expandWordCells_dollarParen (n : Nat) (noSplit atStart hadQuotes : Bool) (s : List Byte)
    (out : List Cell)
    (h : s.head? ≠ some (byte '(')) :
    expandWordCells host (n + 1) noSplit (byte '$' :: byte '(' :: s) atStart out hadQuotes = (do
      let output ← host.commandSubstitute (groupText (byte '(') (byte ')') s).1
      expandWordCells host n noSplit (groupText (byte '(') (byte ')') s).2 false
        (cellsPuts out output (if noSplit then .quoted else .expanded)) hadQuotes) := by
  have hplain : byte '$' ≠ backslash ∧ byte '$' ≠ squote ∧ byte '$' ≠ dquote := by decide
  simp [expandWordCells, hplain, h]

theorem expandQuoted_dollarParen (n : Nat) (s : List Byte) (out : List Cell)
    (h : s.head? ≠ some (byte '(')) :
    expandQuoted host (n + 1) (byte '$' :: byte '(' :: s) out = (do
      let output ← host.commandSubstitute (groupText (byte '(') (byte ')') s).1
      expandQuoted host n (groupText (byte '(') (byte ')') s).2
        (cellsPuts out output .quoted)) := by
  have hplain : byte '$' ≠ backslash ∧ byte '$' ≠ dquote := by decide
  simp [expandQuoted, hplain, h]

/-- `$((` is arithmetic, for which no rounds are left here. -/
theorem expandQuoted_arith (s : List Byte) (h : s.head? = some (byte '(')) :
    expandQuoted host 1 (byte '$' :: byte '(' :: s) [] = throw .rounds := by
  have hplain : byte '$' ≠ backslash ∧ byte '$' ≠ dquote := by decide
  simp [expandQuoted, hplain, h, expandScalar]

theorem hands_iff : Hands command ↔ command.head? ≠ some (byte '(') ∧ matched 0 command = true := by
  constructor
  · intro h
    have hquoted := (h (probe command) 0 [] []).2
    have hexit : ∀ st : State, (ExceptT.run (do
        let output ← (probe command).commandSubstitute command
        expandQuoted (probe command) 0 [] (cellsPuts [] output .quoted))).run st =
          (.error (.exit 0), st) := by
      intro st
      simp only [probe, if_true]
      rfl
    have hplain : command.head? ≠ some (byte '(') := by
      intro harith
      rw [expandQuoted_arith _ _ ((head?_command _ _).mpr harith)] at hquoted
      have hst := hexit ⟨[], 0, 0, 0, [], [], false, false, false, false, false⟩
      rw [← hquoted] at hst
      cases hst
    refine ⟨hplain, (groupText_iff command []).mp ?_⟩
    by_contra hother
    rw [expandQuoted_dollarParen _ _ _ _ (fun harith => hplain ((head?_command _ _).mp harith))]
      at hquoted
    have hst := hexit ⟨[], 0, 0, 0, [], [], false, false, false, false, false⟩
    rw [← hquoted] at hst
    simp only [probe, if_neg hother] at hst
    cases hst
  · rintro ⟨hplain, hmatched⟩ host n more out
    have htext : groupText (byte '(') (byte ')') (command ++ byte ')' :: more) =
        (command, more) := by
      rw [groupText, (groupSpan_iff 0 command more).mpr hmatched]
      simp
    have hword : (command ++ byte ')' :: more).head? ≠ some (byte '(') :=
      fun h => hplain ((head?_command _ _).mp h)
    refine ⟨fun noSplit atStart hadQuotes => ?_, ?_⟩
    · rw [expandWordCells_dollarParen _ _ _ _ _ _ _ hword, htext]
    · rw [expandQuoted_dollarParen _ _ _ _ hword, htext]

/-- The characters of a text as bytes. -/
def bytesOf (text : String) : List Byte := text.toList.map fun c => byte c

end PureCOS.Shell
