import PureCOS.Shell.Expand

/-!
# Quoting

Single quotes keep a text as it is: the quoted text is lexed as one word and expanded to the one
field it quotes.  Double quotes around `$@` keep the positional parameters unless there are none, or
there are several and the last one is empty.
-/

namespace PureCOS.Shell

open List

/-- A character between single quotes; a quote is written outside of them. -/
def quoteByte (c : Byte) : List Byte :=
  if c = squote then [squote, backslash, squote, squote] else [c]

/-- A text in single quotes. -/
def quoteWord (s : List Byte) : List Byte := squote :: (s.flatMap quoteByte ++ [squote])

/-- The word `"$@"` -/
def quotedAt : List Byte := [dquote, byte '$', byte '@', dquote]

/-- A word ends before `tail`. -/
def WordEnds (tail : List Byte) : Prop := ∀ c ∈ tail.head?, endsWord c

/-- `s` has no quote. -/
def NoQuote (s : List Byte) : Prop := ∀ c ∈ s, c ≠ squote

/--
A text is one without quotes, or one without quotes before its first quote and the text behind it.
-/
theorem quote_induction {motive : List Byte → Prop} (plain : ∀ a, NoQuote a → motive a)
    (quote : ∀ a s, NoQuote a → motive s → motive (a ++ squote :: s)) (s : List Byte) :
    motive s := by
  -- on the length: the text behind the first quote is shorter
  induction hn : s.length using Nat.strongRecOn generalizing s with
  | ind n ih =>
    have hsplit := s.takeWhile_append_dropWhile (p := (· != squote))
    have htake : NoQuote (s.takeWhile (· != squote)) := by
      intro c hc
      have hall := all_takeWhile (p := (· != squote)) (l := s)
      simpa using all_eq_true.mp hall c hc
    rcases hdrop : s.dropWhile (· != squote) with _ | ⟨q, t⟩
    · rw [hdrop, append_nil] at hsplit
      rw [hsplit] at htake
      exact plain s htake
    have hq : q = squote := by
      have hhead := head_dropWhile_not (l := s) (· != squote) (by simp [hdrop])
      simpa [hdrop] using hhead
    subst hq
    rw [hdrop] at hsplit
    have hlen : t.length < n := by
      rw [← hn, ← hsplit]
      simp
      omega
    rw [← hsplit]
    exact quote _ t htake (ih t.length hlen t rfl)

variable {a : List Byte}

theorem NoQuote.flatMap_quoteByte (ha : NoQuote a) : a.flatMap quoteByte = a := by
  induction a with
  | nil => rfl
  | cons c a ih =>
    have hc : quoteByte c = [c] := if_neg (ha c mem_cons_self)
    rw [flatMap_cons, hc, ih fun d hd => ha d (mem_cons_of_mem c hd)]
    rfl

theorem NoQuote.quoteWord_eq (ha : NoQuote a) : quoteWord a = squote :: (a ++ [squote]) := by
  rw [quoteWord, ha.flatMap_quoteByte]

theorem NoQuote.quoteWord_append (ha : NoQuote a) (s : List Byte) : quoteWord (a ++ squote :: s) =
    squote :: (a ++ squote :: backslash :: squote :: quoteWord s) := by
  have hq : quoteByte squote = [squote, backslash, squote, squote] := if_pos rfl
  simp [quoteWord, ha.flatMap_quoteByte, hq]

theorem NoQuote.takeWhile_eq (ha : NoQuote a) (rest : List Byte) :
    (a ++ squote :: rest).takeWhile (· != squote) = a := by
  rw [takeWhile_append_of_pos fun c hc => by simpa using ha c hc]
  simp

theorem NoQuote.dropWhile_eq (ha : NoQuote a) (rest : List Byte) :
    (a ++ squote :: rest).dropWhile (· != squote) = squote :: rest := by
  rw [dropWhile_append_of_pos fun c hc => by simpa using ha c hc]
  simp

/-! ## Lexing -/

theorem lexWord_end {tail : List Byte} (htail : WordEnds tail) (n : Nat) (word : List Byte)
    (digits : Bool) : lexWord n tail word digits = ⟨word, digits, tail, none⟩ := by
  cases n with
  | zero => rfl
  | succ n =>
    cases tail with
    | nil => rfl
    | cons c tail => exact if_pos (htail c rfl)

theorem lexWord_squote (ha : NoQuote a) (n : Nat) (rest word : List Byte) (digits : Bool) :
    lexWord (n + 1) (squote :: (a ++ squote :: rest)) word digits =
      lexWord n rest (word ++ squote :: (a ++ [squote])) false := by
  have hend : endsWord squote = false := by decide
  have hne : ¬squote = backslash := by decide
  rw [lexWord]
  simp only [hend, hne, ha.takeWhile_eq, ha.dropWhile_eq, Bool.false_eq_true, if_false, if_true]
  simp

theorem lexWord_escape (n : Nat) (rest word : List Byte) (digits : Bool) :
    lexWord (n + 1) (backslash :: squote :: rest) word digits =
      lexWord n rest (word ++ [backslash, squote]) false := by
  have hend : endsWord backslash = false := by decide
  have hne : ¬some squote = some newline := by decide
  rw [lexWord]
  simp only [hend, head?_cons, hne, Bool.false_eq_true, if_false, if_true, tail_cons,
    take_succ_cons, take_zero]

/-- A quoted text goes into the word as it stands, and ends it when nothing else follows. -/
theorem lexWord_quoteWord {tail : List Byte} (htail : WordEnds tail) (s : List Byte) (n : Nat)
    (word : List Byte) (digits : Bool) (hn : (quoteWord s).length ≤ n) :
    lexWord n (quoteWord s ++ tail) word digits = ⟨word ++ quoteWord s, false, tail, none⟩ := by
  induction s using quote_induction generalizing n word digits with
  | plain a ha =>
    rw [ha.quoteWord_eq] at hn ⊢
    obtain ⟨n, rfl⟩ : ∃ m, n = m + 1 := ⟨n - 1, by simp at hn; omega⟩
    have := lexWord_squote ha n tail word digits
    simp only [cons_append, append_assoc, nil_append]
    rw [this, lexWord_end htail]
  | quote a s ha ih =>
    rw [ha.quoteWord_append] at hn ⊢
    obtain ⟨n, rfl⟩ : ∃ m, n = m + 2 := ⟨n - 2, by simp at hn; omega⟩
    simp only [cons_append, append_assoc]
    rw [lexWord_squote ha, lexWord_escape, ih n _ _ (by simp at hn; omega)]
    simp

theorem lexWord_quotedAt (n : Nat) (tail : List Byte) (digits : Bool) :
    lexWord (n + 1) (quotedAt ++ tail) [] digits = lexWord n tail quotedAt false := by
  rfl

theorem skipBlanks_quoted {c : Byte} (hc : c = squote ∨ c = dquote) (n : Nat) (s : List Byte) :
    skipBlanks n (c :: s) = c :: s := by
  cases n with
  | zero => rfl
  | succ n =>
    rcases hc with rfl | rfl
    · exact (if_neg (by decide)).trans
        ((if_neg fun h => absurd h.1 (by decide)).trans (if_neg (by decide)))
    · exact (if_neg (by decide)).trans
        ((if_neg fun h => absurd h.1 (by decide)).trans (if_neg (by decide)))

/-- A word that starts with a quote and is read to its end is the next token. -/
theorem lexNext_word {lx : Lexer}
    {c : Byte} {s word tail : List Byte} (hc : c = squote ∨ c = dquote) (hrest : lx.rest = c :: s)
    (hrun : lexWord (c :: s).length (c :: s) [] true = ⟨word, false, tail, none⟩) :
    lexNext lx = ({ lx with rest := tail }, ⟨.word, some word⟩) := by
  have hnl : ¬c = newline := by
    rcases hc with rfl | rfl
    · decide
    · decide
  have hop : isOperatorStart c = false := by
    rcases hc with rfl | rfl
    · decide
    · decide
  rw [lexNext, hrest, skipBlanks_quoted hc]
  simp only [hnl, hop, hrun, if_false, Bool.false_eq_true, Bool.false_and]

/-! ## Expansion -/

/-- Cells of a quoted text. -/
def quotedCells (s : List Byte) : List Cell := s.map fun c => ⟨c, .quoted⟩

theorem expandWordCells_squote (host : Host) (ha : NoQuote a) (n : Nat)
    (noSplit atStart hadQuotes : Bool) (rest : List Byte) (out : List Cell) :
    expandWordCells host (n + 1) noSplit (squote :: (a ++ squote :: rest)) atStart out hadQuotes =
      expandWordCells host n noSplit rest false (out ++ quotedCells a) true := by
  have hne : ¬(squote = backslash ∧ a ++ squote :: rest ≠ []) := fun h => absurd h.1 (by decide)
  rw [expandWordCells]
  simp only [hne, ha.takeWhile_eq, ha.dropWhile_eq, if_false, if_true]
  rfl

theorem expandWordCells_escape (host : Host) (n : Nat) (noSplit atStart hadQuotes : Bool)
    (rest : List Byte) (out : List Cell) :
    expandWordCells host (n + 1) noSplit (backslash :: squote :: rest) atStart out hadQuotes =
      expandWordCells host n noSplit rest false (out ++ quotedCells [squote]) true := by
  rw [expandWordCells]
  exact if_pos ⟨rfl, cons_ne_nil _ _⟩

/-- A quoted text becomes its own cells. -/
theorem expandWordCells_quoteWord (host : Host) (s : List Byte) (n : Nat)
    (noSplit atStart hadQuotes : Bool) (out : List Cell) (hn : (quoteWord s).length < n) :
    expandWordCells host n noSplit (quoteWord s) atStart out hadQuotes =
      pure (out ++ quotedCells s, true) := by
  induction s using quote_induction generalizing n atStart hadQuotes out with
  | plain a ha =>
    rw [ha.quoteWord_eq] at hn ⊢
    obtain ⟨n, rfl⟩ : ∃ m, n = m + 2 := ⟨n - 2, by simp at hn; omega⟩
    rw [expandWordCells_squote host ha, expandWordCells]
  | quote a s ha ih =>
    rw [ha.quoteWord_append] at hn ⊢
    obtain ⟨n, rfl⟩ : ∃ m, n = m + 2 := ⟨n - 2, by simp at hn; omega⟩
    rw [expandWordCells_squote host ha, expandWordCells_escape, ih n _ _ _ (by simp at hn; omega)]
    simp [quotedCells]

/-! ## Fields -/

section Fields

variable (host : Host) (noglob : Bool) (ifs : List Byte)

theorem hasGlobChars_quotedCells (s : List Byte) : hasGlobChars (quotedCells s) = false := by
  simp [hasGlobChars, quotedCells]

theorem map_quotedCells (s : List Byte) : (quotedCells s).map Cell.c = s := by
  simp [quotedCells, Function.comp_def]

/-- Quoted cells are emitted as they are. -/
theorem emitField_quoted {s : List Byte} {force : Bool} (h : s ≠ [] ∨ force = true) :
    emitField host noglob (quotedCells s) force = [s] := by
  have hcond : ¬(quotedCells s = [] ∧ (!force) = true) := by
    rintro ⟨hnil, hforce⟩
    rcases h with h | h
    · exact h (map_eq_nil_iff.mp hnil)
    · simp [h] at hforce
  rw [emitField, if_neg hcond]
  simp [hasGlobChars_quotedCells, map_quotedCells]

/-- Quoted cells go into the field. -/
theorem foldl_quotedCells (hadQuotes : Bool) (s : List Byte) (w : Splitter) :
    (quotedCells s).foldl (splitCell host noglob hadQuotes ifs) w =
      { w with inField := w.inField || !s.isEmpty, field := w.field ++ quotedCells s } := by
  induction s generalizing w with
  | nil => simp [quotedCells]
  | cons c s ih =>
    have hstep : splitCell host noglob hadQuotes ifs w ⟨c, .quoted⟩ =
        { w with inField := true, field := w.field ++ [⟨c, .quoted⟩] } := by
      simp [splitCell]
    have hcells : quotedCells (c :: s) = ⟨c, .quoted⟩ :: quotedCells s := rfl
    rw [hcells, foldl_cons, hstep, ih]
    simp

/-- The cells of further parameters of `"$@"`. -/
def moreParameters (ps : List (List Byte)) : List Cell :=
  ps.flatMap fun p => ⟨0, .fieldBreak⟩ :: quotedCells p

theorem quotedPositional_at (value : Option (List Byte)) (p : List Byte) (ps : List (List Byte)) :
    quotedPositional (byte '@') value (p :: ps) = quotedCells p ++ moreParameters ps := by
  rfl

/-- At a break the parameter before it is a field, whatever it is. -/
theorem splitCell_break (fields : List (List Byte)) (any inField : Bool) (p : List Byte) :
    splitCell host noglob true ifs ⟨fields, any, inField, quotedCells p⟩ ⟨0, .fieldBreak⟩ =
      ⟨fields ++ [p], true, false, []⟩ := by
  simp [splitCell, emitField_quoted host noglob (.inr rfl : p ≠ [] ∨ true = true)]

/-- After the parameters, all but the last one are fields. -/
theorem foldl_moreParameters (ps : List (List Byte)) (p : List Byte) (fields : List (List Byte))
    (any : Bool) :
    (moreParameters ps).foldl (splitCell host noglob true ifs)
        ⟨fields, any, !p.isEmpty, quotedCells p⟩ =
      ⟨fields ++ (p :: ps).dropLast, any || !ps.isEmpty,
        !((p :: ps).getLast (cons_ne_nil _ _)).isEmpty,
        quotedCells ((p :: ps).getLast (cons_ne_nil _ _))⟩ := by
  -- the step is one break and the parameter behind it
  induction ps generalizing p fields any with
  | nil => simp [moreParameters]
  | cons q ps ih =>
    have hcells :
        moreParameters (q :: ps) = ⟨0, .fieldBreak⟩ :: (quotedCells q ++ moreParameters ps) :=
      rfl
    rw [hcells, foldl_cons, splitCell_break, foldl_append, foldl_quotedCells]
    simp only [Bool.false_or, nil_append]
    rw [ih]
    simp

theorem splitEnd_quoted (fields : List (List Byte)) (any : Bool) (p : List Byte) :
    splitEnd host noglob true ⟨fields, any, !p.isEmpty, quotedCells p⟩ = fields ++ if p = [] ∧
      any = true then [] else [p] := by
  cases p with
  | nil => cases any <;> simp [splitEnd]
  | cons c p => simp [splitEnd, emitField_quoted host noglob (.inl (cons_ne_nil c p))]

end Fields

variable (host : Host) (st : State)

/-- Quoted cells are one field. -/
theorem splitFields_quotedCells (s : List Byte) :
    splitFields host st (quotedCells s) true = [s] := by
  rw [splitFields, foldl_quotedCells]
  simpa using splitEnd_quoted host st.optNoglob [] false s

/-- The fields of `"$@"`: an empty parameter behind others is lost. -/
theorem splitFields_parameters (p : List Byte) (ps : List (List Byte)) :
    splitFields host st (quotedCells p ++ moreParameters ps) true =
      (p :: ps).dropLast ++ if (p :: ps).getLast (cons_ne_nil _ _) = [] ∧ ps ≠ [] then []
        else [(p :: ps).getLast (cons_ne_nil _ _)] := by
  have hmore :=
    foldl_moreParameters host st.optNoglob
      ((varGet st ifsName).getD [byte ' ', tab, newline]) ps p [] false
  rw [splitFields, foldl_append, foldl_quotedCells]
  simp only [Bool.false_or, nil_append] at hmore ⊢
  rw [hmore, splitEnd_quoted]
  simp

/-- `"$@"` gives the parameters `ps` back. -/
def KeepsParameters (ps : List (List Byte)) : Prop :=
  ps ≠ [] ∧ (ps.length = 1 ∨ ps.getLast? ≠ some [])

theorem splitFields_quotedAt_iff :
    splitFields host st (quotedPositional (byte '@') (varGet st ifsName) st.positional) true =
      st.positional ↔ KeepsParameters st.positional := by
  rcases st.positional with _ | ⟨p, ps⟩
  · have hnone :
        splitFields host st (quotedPositional (byte '@') (varGet st ifsName) []) true = [[]] :=
      splitFields_quotedCells host st []
    simp [hnone, KeepsParameters]
  rw [quotedPositional_at, splitFields_parameters]
  have hall := dropLast_concat_getLast (cons_ne_nil p ps)
  have hlast := getLast?_eq_some_getLast (cons_ne_nil p ps)
  rw [KeepsParameters, hlast]
  by_cases hlost : (p :: ps).getLast (cons_ne_nil _ _) = [] ∧ ps ≠ []
  · rw [if_pos hlost]
    constructor
    · intro h
      have := congrArg length h
      simp at this
    · rintro ⟨-, hone | hfull⟩
      · exact absurd (by simpa using hone) hlost.2
      · exact absurd (congrArg some hlost.1) hfull
  · rw [if_neg hlost]
    refine ⟨fun _ => ⟨cons_ne_nil _ _, ?_⟩, fun _ => hall⟩
    by_cases hps : ps = []
    · exact .inl (by simp [hps])
    · exact .inr fun h => hlost ⟨Option.some.inj h, hps⟩

/-! ## Quoting preserves arguments -/

theorem expandWord_quoteWord (s : List Byte) :
    expandWord host (quoteWord s) st = (.ok [s], st) := by
  have hcells :=
    expandWordCells_quoteWord host s ((quoteWord s).length + 1) false true false []
      (Nat.lt_succ_self _)
  rw [expandWord, hcells]
  have hfields := splitFields_quotedCells host st s
  exact congrArg (fun fields => (Except.ok fields, st)) hfields

theorem expandWord_quotedAt :
    expandWord host quotedAt st = (.ok (splitFields host st
      (quotedPositional (byte '@') (varGet st ifsName) st.positional) true), st) := by
  rfl

/--
A text in single quotes is one word and one field, itself.  `"$@"` is one word, and its fields are
the positional parameters exactly when there are some, and the last of several is not empty.
-/
theorem quoting_preserves_iff
    (host : Host)
    (st : State)
    (lx : Lexer)
    (tail : List Byte) :
    (∀ s, (WordEnds tail → lx.rest = quoteWord s ++ tail →
        lexNext lx = ({ lx with rest := tail }, ⟨.word, some (quoteWord s)⟩)) ∧
      expandWord host (quoteWord s) st = (.ok [s], st)) ∧
    (WordEnds tail → lx.rest = quotedAt ++ tail →
      lexNext lx = ({ lx with rest := tail }, ⟨.word, some quotedAt⟩)) ∧
    (expandWord host quotedAt st = (.ok st.positional, st) ↔ KeepsParameters st.positional) := by
  refine ⟨fun s => ⟨?_, expandWord_quoteWord host st s⟩, ?_, ?_⟩
  · intro htail hrest
    refine lexNext_word (.inl rfl) hrest ?_
    exact lexWord_quoteWord htail s (quoteWord s ++ tail).length [] true
      (by rw [length_append]; omega)
  · intro htail hrest
    refine lexNext_word (.inr rfl) hrest ?_
    exact (lexWord_quotedAt (tail.length + 3) tail true).trans (lexWord_end htail _ _ _)
  rw [expandWord_quotedAt, ← splitFields_quotedAt_iff host st]
  constructor
  · intro h
    exact Except.ok.inj (Prod.mk.inj h).1
  · intro h
    rw [h]

/-- A host without commands and files. -/
def bareHost : Host :=
  { commandSubstitute := fun _ => pure [], arithEval := fun _ _ => 0, glob := fun _ => [] }

/-- The shell after `set --` with the parameters `ps`. -/
def shellWith (ps : List (List Byte)) : State :=
  { vars := []
    lastStatus := 0
    lastBackground := 0
    shellPid := 2
    shellName := [byte 's', byte 'h']
    positional := ps
    optErrexit := false
    optXtrace := false
    optNoglob := false
    optNounset := false
    interactive := true }

/-- An empty last parameter is lost, and no parameters give one empty field. -/
theorem quotedAt_loses_parameters :
    expandWord bareHost quotedAt (shellWith [[byte 'a'], []]) =
        (.ok [[byte 'a']], shellWith [[byte 'a'], []]) ∧
      expandWord bareHost quotedAt (shellWith []) = (.ok [[]], shellWith []) :=
  ⟨rfl, rfl⟩

end PureCOS.Shell
