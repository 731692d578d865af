import PureCOS.PureL.ParserSteps

/-!
# PureL: when the parser returns

Every function of the parser takes a token before it calls another one again, or calls one of lower
rank, so eight rounds for each byte of the text are enough; the one exception is the statement loop,
which stays where it is at an `end` or an `else` that closes nothing.  The one panic is that of a
string literal without closing quote whose last character has several bytes.
-/

namespace PureCOS.PureL
namespace Parser

open Code List

variable {src : List UInt8} {n rank : Nat} {calls : Calls} {p p₁ p₂ p' : Parser} {F : Parser → Prop}
  {id : NodeId}

/-- Rounds have run out, and there were too few of them. -/
def Short (src : List UInt8) (n : Nat) (p : Parser) (rank : Nat) (p' : Parser) : Prop :=
  (∀ step ∈ p'.steps, ¬splits step ∧ ¬endless step) ∧ n < 8 * distance src p + rank

/-- `x` ends with `Q`, at a split literal, or for want of rounds. -/
abbrev Ends (src : List UInt8) (n : Nat) (p : Parser) (rank : Nat) {α : Type} (x : Parse α)
    (Q : α → Parser → Prop) : Parser → Prop :=
  wp HasSplit (Short src n p rank) x Q

/-! ## What the functions do -/

/-- A node has been parsed, or there is an error. -/
structure Parsed (src : List UInt8) (p : Parser) (id : NodeId) (p' : Parser) : Prop where
  within : Within src p p'
  past : id ≠ NIL → Past src p p'
  error : id = NIL → p'.error.isSome = true

/-- An expression has been continued, or there is an error. -/
structure Continued (src : List UInt8) (p : Parser) (id : NodeId) (p' : Parser) : Prop where
  within : Within src p p'
  error : id = NIL → p'.error.isSome = true

theorem Past.parsed (h : Past src p p') (herror : id = NIL → p'.error.isSome = true) :
    Parsed src p id p' :=
  ⟨h.within, fun _ => h, herror⟩

/-- The tokens that start no statement. -/
def startsNone (kind : TokenKind) : Prop :=
  kind = .newline ∨ kind = .eof ∨ kind = .end ∨ kind = .else

/-- A statement has been parsed, or there is none, or there is an error. -/
structure StmtParsed (src : List UInt8) (p : Parser) (id : NodeId) (p' : Parser) : Prop where
  within : Within src p p'
  past : id ≠ NIL → Past src p p'
  error : id = NIL → ¬startsNone p.cur.kind → p'.error.isSome = true

/-- Newlines have been skipped. -/
structure Skipped (src : List UInt8) (p p' : Parser) : Prop where
  within : Within src p p'
  kind : p'.cur.kind ≠ .newline
  same : p.cur.kind ≠ .newline → p' = p

/-- Parameters have been parsed, or there is an error. -/
structure ParamsParsed (src : List UInt8) (p : Parser) (params : Option NodeId) (p' : Parser) :
    Prop where
  within : Within src p p'
  error : params = none → p'.error.isSome = true

/-- The functions with `n` rounds. -/
structure Spec (src : List UInt8) (n : Nat) (calls : Calls) : Prop where
  skipNl : ∀ p, Good src p → wp HasSplit (Short src n p 1) calls.skipNl (fun _ => Skipped src p) p
  operand : ∀ p, Good src p → wp HasSplit (Short src n p 1) calls.operand (Parsed src p) p
  exprContinue : ∀ p left minBp, Good src p → left ≠ NIL →
    wp HasSplit (Short src n p 1) (calls.exprContinue left minBp) (Continued src p) p
  paramLoop : ∀ p params tail, Good src p →
    wp HasSplit (Short src n p 1) (calls.paramLoop params tail) (ParamsParsed src p) p
  exprBp : ∀ p minBp, Good src p →
    wp HasSplit (Short src n p 2) (calls.exprBp minBp) (Parsed src p) p
  argLoop : ∀ p head tail, Good src p →
    wp HasSplit (Short src n p 3) (calls.argLoop head tail) (fun _ => Within src p) p
  stmt : ∀ p, Good src p → wp HasSplit (Short src n p 3) calls.stmt (StmtParsed src p) p
  blockLoop : ∀ p stops head tail, Good src p →
    wp HasSplit (Short src n p 4) (calls.blockLoop stops head tail) (fun _ => Within src p) p

/-! ## Calling -/

section Calling

variable {α : Type} {x : Parse α} {Q Q' : α → Parser → Prop} {rank' : Nat}
  (h : Ends src n p₁ rank' x Q p₁)

include h

/-- A call from a state that is not too far from the end. -/
theorem wp_call (hrank : 8 * distance src p₁ + rank' < 8 * distance src p + rank)
    (hQ : ∀ a p', Q a p' → Q' a p') : Ends src (n + 1) p rank x Q' p₁ :=
  wp_conseq h (fun _ hshort => ⟨hshort.1, Nat.lt_of_le_of_lt hshort.2 hrank⟩) hQ

/-- A call behind a token that has been taken. -/
theorem wp_call_past (hpast : Past src p p₁) (hrank : rank' < 8) (hQ : ∀ a p', Q a p' → Q' a p') :
    Ends src (n + 1) p rank x Q' p₁ := by
  have hdist := hpast.distance
  exact wp_call h (by omega) hQ

/-- A call of a function of lower rank. -/
theorem wp_call_within (hwithin : Within src p p₁) (hrank : rank' < rank)
    (hQ : ∀ a p', Q a p' → Q' a p') : Ends src (n + 1) p rank x Q' p₁ := by
  have hdist := hwithin.distance
  exact wp_call h (by omega) hQ

end Calling

/-- The functions, called from any state behind `p₁`. -/
structure Callable (src : List UInt8) (F : Parser → Prop) (p₁ : Parser) (calls : Calls) : Prop where
  skipNl : ∀ p₂, Within src p₁ p₂ → wp HasSplit F calls.skipNl (fun _ => Within src p₂) p₂
  operand : ∀ p₂, Within src p₁ p₂ → wp HasSplit F calls.operand (fun _ => Within src p₂) p₂
  exprContinue : ∀ p₂ left minBp, Within src p₁ p₂ → left ≠ NIL →
    wp HasSplit F (calls.exprContinue left minBp) (Continued src p₂) p₂
  paramLoop : ∀ p₂ params tail, Within src p₁ p₂ →
    wp HasSplit F (calls.paramLoop params tail) (ParamsParsed src p₂) p₂
  exprBp : ∀ p₂ minBp, Within src p₁ p₂ → wp HasSplit F (calls.exprBp minBp) (Parsed src p₂) p₂
  argLoop : ∀ p₂ head tail, Within src p₁ p₂ →
    wp HasSplit F (calls.argLoop head tail) (fun _ => Within src p₂) p₂
  blockLoop : ∀ p₂ stops head tail, Within src p₁ p₂ →
    wp HasSplit F (calls.blockLoop stops head tail) (fun _ => Within src p₂) p₂

theorem Spec.callable (hcalls : Spec src n calls) (hpast : Past src p p₁) :
    Callable src (Short src (n + 1) p rank) p₁ calls where
  skipNl := fun p₂ h => wp_call_past (hcalls.skipNl p₂ h.good) (hpast.trans h) (by decide)
    fun _ _ hskipped => hskipped.within
  operand := fun p₂ h => wp_call_past (hcalls.operand p₂ h.good) (hpast.trans h) (by decide)
    fun _ _ hparsed => hparsed.within
  exprContinue := fun p₂ left minBp h hleft =>
    wp_call_past (hcalls.exprContinue p₂ left minBp h.good hleft) (hpast.trans h) (by decide)
      fun _ _ => id
  paramLoop := fun p₂ params tail h =>
    wp_call_past (hcalls.paramLoop p₂ params tail h.good) (hpast.trans h) (by decide) fun _ _ => id
  exprBp := fun p₂ minBp h => wp_call_past (hcalls.exprBp p₂ minBp h.good) (hpast.trans h)
    (by decide) fun _ _ => id
  argLoop := fun p₂ head tail h =>
    wp_call_past (hcalls.argLoop p₂ head tail h.good) (hpast.trans h) (by decide) fun _ _ => id
  blockLoop := fun p₂ stops head tail h =>
    wp_call_past (hcalls.blockLoop p₂ stops head tail h.good) (hpast.trans h) (by decide)
      fun _ _ => id

theorem wp_fail_within {msg : String} (h : Within src p p₁) :
    wp HasSplit F (fail msg) (Continued src p) p₁ :=
  wp_fail h.good fun _ hnear herror => ⟨h.trans hnear.within, fun _ => herror⟩

/-! ## Lists of arguments -/

theorem wp_argsFrom (hsrc : Encoded src) (hcalls : Callable src F p₁ calls) (hp : Within src p₁ p₂)
    {hasParen : Bool} {Q : NodeId → Parser → Prop} (h : ∀ id p', Within src p₂ p' → Q id p') :
    wp HasSplit F (argsFrom src calls hasParen) Q p₂ := by
  have hclose : ∀ head p₃, Within src p₂ p₃ →
      (hasParen = true → wp HasSplit F (expect src .rParen "expected ')'") (fun _ => Q head) p₃) ∧
      (¬hasParen = true → Q head p₃) := by
    intro head p₃ h₃
    refine ⟨fun _ => ?_, fun _ => h _ p₃ h₃⟩
    exact wp_expect_within hsrc h₃.good (by decide) fun _ p₄ h₄ => h _ p₄ (h₃.trans h₄)
  simp only [argsFrom, wp_bind, wp_kind, wp_ite, wp_pure]
  refine ⟨fun _ => hclose NIL p₂ (.refl hp.good), fun _ => ?_⟩
  refine wp_mono (hcalls.argLoop p₂ NIL NIL hp) fun head p₃ h₃ => ?_
  cases head with
  | none => exact h _ p₃ h₃
  | some head =>
    simp only [wp_ite, wp_bind, wp_pure]
    exact hclose head p₃ h₃

theorem wp_parseArgList (hsrc : Encoded src) (hcalls : Callable src F p₁ calls)
    (hp : Within src p₁ p₂) {requireParen : Bool} {Q : NodeId → Parser → Prop}
    (h : ∀ id p', Within src p₂ p' → Q id p') :
    wp HasSplit F (parseArgList src calls requireParen) Q p₂ := by
  simp only [parseArgList, wp_bind, wp_kind, wp_ite]
  refine ⟨fun hkind => ?_, fun _ => ⟨fun _ => ?_, fun _ => ?_⟩⟩
  · refine wp_bump hsrc hp.good (by rw [hkind]; decide) fun p₃ h₃ => ?_
    exact wp_argsFrom hsrc hcalls (hp.trans h₃.within) fun id p₄ h₄ => h id p₄ (h₃.within.trans h₄)
  · exact wp_fail hp.good fun p₃ h₃ _ => h _ p₃ h₃.within
  · exact wp_argsFrom hsrc hcalls hp h

theorem wp_parseCallTail (hsrc : Encoded src) (hcalls : Callable src F p₁ calls)
    (hp : Within src p₁ p₂) {name : Nat} :
    wp HasSplit F (parseCallTail src calls name) (Continued src p₁) p₂ := by
  simp only [parseCallTail, wp_bind]
  refine wp_parseArgList hsrc hcalls hp fun args p₃ h₃ => ?_
  exact wp_allocOrFail h₃.good fun id p₄ h₄ herror => ⟨hp.trans (h₃.trans h₄.within), herror⟩

/-! ## String literals -/

theorem getElem?_cut {a b k : Nat} (hk : k < b - a) : (cut src a b)[k]? = src[a + k]? := by
  unfold cut
  rw [getElem?_take_of_lt hk, getElem?_drop]

theorem length_cut_le (a b : Nat) : (cut src a b).length ≤ b - a := length_take_le _ _

/-- A literal that does not split a character can be cut. -/
theorem sliceable_literal (hsrc : Encoded src) {a b : Nat} (hquote : src[a]? = some '"'.toUInt8)
    (hlen : 2 ≤ (cut src a b).length) (hsplit : ¬splits (.literal (cut src a b))) :
    sliceable (cut src a b) 1 ((cut src a b).length - 1) = true := by
  have hle : (cut src a b).length ≤ b - a := length_cut_le a b
  have hfirst : isCharBoundary (cut src a b) 1 = true := by
    unfold isCharBoundary
    rw [getElem?_cut (by omega)]
    split
    next d hd =>
      rw [hsrc.after a _ d hquote (by decide) hd]
      rfl
    next hnone =>
      rw [← getElem?_cut (b := b) (by omega)] at hnone
      have := getElem?_eq_none_iff.mp hnone
      omega
  have hlast : isCharBoundary (cut src a b) ((cut src a b).length - 1) = true := by
    unfold isCharBoundary
    split
    next d hd =>
      rw [← getLast?_eq_getElem?] at hd
      have hcont : isContinuation d = false := by
        by_contra htrue
        exact hsplit ⟨hlen, d, hd, Bool.not_eq_false _ ▸ htrue⟩
      rw [hcont]
      simp
    next hnone =>
      have := getElem?_eq_none_iff.mp hnone
      omega
  unfold sliceable
  simp only [hfirst, hlast, Bool.and_true, Bool.and_eq_true, decide_eq_true_eq]
  omega

theorem parseLiteral_spec (hsrc : Encoded src) (hp : Good src p) (hkind : p.cur.kind = .string) :
    wp HasSplit F (parseLiteral src) (Parsed src p) p := by
  simp only [parseLiteral, record, wp_bind, wp_get]
  refine wp_slice hp.token (hkind ▸ .inr (.inr rfl)) ?_
  have hquote := hp.token.quote hkind
  generalize hb : p.cur.start + p.cur.len = b
  by_cases hsplit : splits (.literal (cut src p.cur.start b))
  · -- the slice panics
    obtain ⟨hlen, d, hd, hcont⟩ := hsplit
    have hcut :
        sliceable (cut src p.cur.start b) 1 ((cut src p.cur.start b).length - 1) = false := by
      have hlast :
          isCharBoundary (cut src p.cur.start b) ((cut src p.cur.start b).length - 1) = false := by
        unfold isCharBoundary
        rw [← getLast?_eq_getElem?, hd]
        simp only [hcont, Bool.not_true, Bool.or_false, beq_eq_false_iff_ne]
        omega
      unfold sliceable
      rw [hlast, Bool.and_false]
    simp only [if_pos hlen, hcut, wp_bind, wp_require]
    refine ⟨by simp, fun _ => ?_⟩
    exact ⟨_, mem_append_right _ (mem_singleton.mpr rfl), hlen, d, hd, hcont⟩
  have hgood : Good src { p with steps := p.steps ++ [.literal (cut src p.cur.start b)] } := by
    refine ⟨hp.pos, hp.token, hp.arena, hp.strings, fun step hstep => ?_⟩
    rcases mem_append.mp hstep with hstep | hstep
    · exact hp.steps step hstep
    · rw [mem_singleton.mp hstep]
      exact ⟨hsplit, id⟩
  have hrest : ∀ (k : Option Nat → Parse NodeId) (inner : List UInt8),
      k none = fail "string pool full" → (∀ id, k (some id) = do
        bump src
        allocOrFail (.string id)) →
      wp HasSplit F (intern inner) (fun r => wp HasSplit F (k r) (Parsed src p))
        { p with steps := p.steps ++ [.literal (cut src p.cur.start b)] } := by
    intro k inner hnone hsome
    refine wp_intern hgood fun r p₂ hnear => ?_
    have hdist : distance src p₂ = distance src p := hnear.distance_eq
    cases r with
    | none =>
      rw [hnone]
      refine wp_fail hnear.good fun p₃ hnear₃ herror =>
        ⟨⟨hnear₃.good, ?_⟩, fun hne => absurd rfl hne, fun _ => herror⟩
      exact Nat.le_of_eq (hnear₃.distance_eq.trans hdist)
    | some id =>
      simp only [hsome, wp_bind]
      refine wp_bump hsrc hnear.good (by rw [hnear.cur]; simp only [hkind]; decide)
        fun p₃ hpast => ?_
      have hpast₃ : Past src p p₃ := ⟨hpast.good, hdist ▸ hpast.distance⟩
      refine wp_allocOrFail hpast.good fun nid p₄ hnear₄ herror => ?_
      exact (hpast₃.trans hnear₄.within).parsed herror
  by_cases hlen : 2 ≤ (cut src p.cur.start b).length
  · simp only [if_pos hlen, sliceable_literal hsrc hquote hlen hsplit, wp_bind, wp_require]
    exact ⟨fun _ => hrest _ _ rfl fun _ => rfl, by simp⟩
  · simp only [if_neg hlen, wp_bind]
    exact hrest _ _ rfl fun _ => rfl

/-! ## Loops and expressions -/

section Functions

variable (hsrc : Encoded src) (hcalls : Spec src n calls) (hp : Good src p)

include hsrc hcalls hp

theorem skipNl_spec : Ends src (n + 1) p 1 (skipNl src calls) (fun _ => Skipped src p) p := by
  simp only [skipNl, wp_bind, wp_kind, wp_ite, wp_pure]
  refine ⟨fun hkind => ?_, fun hkind => ⟨.refl hp, hkind, fun _ => rfl⟩⟩
  refine wp_bump hsrc hp (by rw [hkind]; decide) fun p₁ hpast => ?_
  refine wp_call_past (hcalls.skipNl p₁ hpast.good) hpast (by decide) fun _ p₂ hskipped => ?_
  exact ⟨hpast.within.trans hskipped.within, hskipped.kind, fun hne => absurd hkind hne⟩

omit hsrc in
theorem parseExprBp_spec {minBp : Nat} :
    Ends src (n + 1) p 2 (parseExprBp calls minBp) (Parsed src p) p := by
  simp only [parseExprBp, wp_bind, wp_ite, wp_pure]
  refine wp_call_within (hcalls.operand p hp) (.refl hp) (by decide) fun left p₁ hparsed => ?_
  refine ⟨fun hnil => ⟨hparsed.within, fun hne => absurd rfl hne, fun _ => hparsed.error hnil⟩,
    fun hleft => ?_⟩
  have hpast := hparsed.past hleft
  refine wp_call_past (hcalls.exprContinue p₁ left minBp hpast.good hleft) hpast (by decide)
    fun id p₂ hcontinued => ?_
  exact (hpast.trans hcontinued.within).parsed hcontinued.error

theorem parseExprContinue_spec {left : NodeId} {minBp : Nat} (hleft : left ≠ NIL) :
    Ends src (n + 1) p 1 (parseExprContinue src calls left minBp) (Continued src p) p := by
  have hstay : Continued src p left p := ⟨.refl hp, fun hnil => absurd hnil hleft⟩
  simp only [parseExprContinue, wp_bind, wp_kind]
  split
  · exact hstay
  next op lBp rBp hop =>
  simp only [wp_ite, wp_bind, wp_pure]
  refine ⟨fun _ => hstay, fun _ => ?_⟩
  have hkind : p.cur.kind ≠ .eof := fun heof => by
    rw [heof] at hop
    cases hop
  refine wp_bump hsrc hp hkind fun p₁ hpast => ?_
  refine wp_call_past (hcalls.exprBp p₁ rBp hpast.good) hpast (by decide) fun right p₂ hparsed => ?_
  refine wp_alloc hparsed.within.good fun r p₃ hnear hid => ?_
  have hpast₃ := hpast.trans (hparsed.within.trans hnear.within)
  cases r with
  | none => exact wp_fail_within hpast₃.within
  | some left =>
    refine wp_call_past (hcalls.exprContinue p₃ left minBp hnear.good (hid left rfl)) hpast₃
      (by decide) fun id p₄ hcontinued => ?_
    exact ⟨(hpast₃.trans hcontinued.within).within, hcontinued.error⟩

theorem argLoop_spec {head tail : NodeId} :
    Ends src (n + 1) p 3 (argLoop src calls head tail) (fun _ => Within src p) p := by
  simp only [argLoop, parseExpr, wp_bind]
  refine wp_call_within (hcalls.exprBp p 0 hp) (.refl hp) (by decide) fun expr p₁ hparsed => ?_
  refine wp_alloc hparsed.within.good fun r p₂ hnear _ => ?_
  have hwithin := hparsed.within.trans hnear.within
  cases r with
  | none =>
    simp only [wp_bind, wp_pure]
    exact wp_fail hnear.good fun p₃ hnear₃ _ => hwithin.trans hnear₃.within
  | some cell =>
    simp only [wp_bind, wp_kind, wp_ite, wp_pure]
    refine wp_link hnear.good fun head' p₃ hnear₃ =>
      ⟨fun hkind => ?_, fun _ => hwithin.trans hnear₃.within⟩
    refine wp_bump hsrc hnear₃.good (by rw [hkind]; decide) fun p₄ hpast => ?_
    have hpast₄ := (hwithin.trans hnear₃.within).past hpast
    exact wp_call_past (hcalls.argLoop p₄ head' cell hpast.good) hpast₄ (by decide) fun _ p₅ h₅ =>
      hpast₄.within.trans h₅

theorem paramLoop_spec {params tail : NodeId} :
    Ends src (n + 1) p 1 (paramLoop src calls params tail) (ParamsParsed src p) p := by
  simp only [paramLoop, wp_bind, wp_kind, wp_ite, wp_pure]
  refine ⟨fun _ => wp_fail hp fun p₁ hnear herror => ⟨hnear.within, fun _ => herror⟩,
    fun hkind => ?_⟩
  have hkind : p.cur.kind = .ident := not_not.mp hkind
  refine wp_internCur hp (hkind ▸ .inl rfl) fun r p₁ hnear₁ => ?_
  cases r with
  | none =>
    simp only [wp_bind, wp_pure]
    exact wp_fail hnear₁.good fun p₂ hnear₂ herror =>
      ⟨hnear₁.within.trans hnear₂.within, fun _ => herror⟩
  | some pname =>
    simp only [wp_bind]
    refine wp_bump hsrc hnear₁.good (by rw [hnear₁.cur, hkind]; decide) fun p₂ hpast => ?_
    have hpast₂ := hnear₁.within.past hpast
    refine wp_alloc hpast.good fun r p₃ hnear₃ _ => ?_
    cases r with
    | none =>
      simp only [wp_bind, wp_pure]
      exact wp_fail hnear₃.good fun p₄ hnear₄ herror =>
        ⟨(hpast₂.trans (hnear₃.within.trans hnear₄.within)).within, fun _ => herror⟩
    | some pnode =>
      simp only [wp_bind]
      refine wp_alloc hnear₃.good fun r p₄ hnear₄ _ => ?_
      have hpast₄ := hpast₂.trans (hnear₃.within.trans hnear₄.within)
      cases r with
      | none =>
        simp only [wp_bind, wp_pure]
        exact wp_fail hnear₄.good fun p₅ hnear₅ herror =>
          ⟨(hpast₄.trans hnear₅.within).within, fun _ => herror⟩
      | some cell =>
        simp only [wp_bind, wp_kind, wp_ite, wp_pure]
        refine wp_link hnear₄.good fun params' p₅ hnear₅ =>
          ⟨fun hcomma => ?_, fun _ => ⟨(hpast₄.trans hnear₅.within).within, by simp⟩⟩
        refine wp_bump hsrc hnear₅.good (by rw [hcomma]; decide) fun p₆ hpast₆ => ?_
        have hall := (hpast₄.trans hnear₅.within).within.past hpast₆
        exact wp_call_past (hcalls.paramLoop p₆ params' cell hpast₆.good) hall (by decide)
          fun _ p₇ h₇ =>
          ⟨hall.within.trans h₇.within, h₇.error⟩

/-- `parse_prefix` takes a token, or there is an error. -/
theorem parseOperand_spec : Ends src (n + 1) p 1 (parseOperand src calls) (Parsed src p) p := by
  -- a token is taken and a node allocated
  have hleaf : ∀ node, p.cur.kind ≠ .eof →
      Ends src (n + 1) p 1 (do bump src; allocOrFail node) (Parsed src p) p := by
    intro node hkind
    simp only [wp_bind]
    refine wp_bump hsrc hp hkind fun p₁ hpast =>
      wp_allocOrFail hpast.good fun id p₂ hnear herror => ?_
    exact (hpast.trans hnear.within).parsed herror
  -- an operator is taken, and its operand parsed
  have hunary : ∀ op, p.cur.kind ≠ .eof → Ends src (n + 1) p 1
      (do bump src; let expr ← calls.operand; allocOrFail (.unary op expr)) (Parsed src p) p := by
    intro op hkind
    simp only [wp_bind]
    refine wp_bump hsrc hp hkind fun p₁ hpast => ?_
    refine wp_mono ((hcalls.callable hpast).operand p₁ (.refl hpast.good)) fun expr p₂ hwithin => ?_
    refine wp_allocOrFail hwithin.good fun id p₃ hnear herror => ?_
    have hpast₃ := hpast.trans (hwithin.trans hnear.within)
    exact hpast₃.parsed herror
  unfold parseOperand
  simp only [wp_bind, wp_kind]
  cases hkind : p.cur.kind with
  | number =>
    simp only [wp_bind, wp_get]
    refine wp_slice hp.token (hkind ▸ .inr (.inl rfl))
      (wp_digits (hp.token.digits hkind) fun value => ?_)
    have := hleaf (.number value) (by rw [hkind]; decide)
    simpa only [wp_bind] using this
  | string => exact parseLiteral_spec hsrc hp hkind
  | «true» => exact hleaf _ (by rw [hkind]; decide)
  | «false» => exact hleaf _ (by rw [hkind]; decide)
  | nil => exact hleaf _ (by rw [hkind]; decide)
  | ident =>
    simp only [wp_bind]
    refine wp_internCur hp (hkind ▸ .inl rfl) fun r p₁ hnear => ?_
    cases r with
    | none =>
      exact wp_fail hnear.good fun p₂ hnear₂ herror =>
        ⟨hnear.within.trans hnear₂.within, fun hne => absurd rfl hne, fun _ => herror⟩
    | some name =>
      simp only [wp_bind, wp_kind, wp_ite]
      refine wp_bump hsrc hnear.good (by rw [hnear.cur, hkind]; decide) fun p₂ hpast => ?_
      have hpast₂ := hnear.within.past hpast
      refine ⟨fun _ => ?_, fun _ => ?_⟩
      · refine wp_mono (wp_parseCallTail hsrc (hcalls.callable hpast₂) (.refl hpast.good))
          fun id p₃ hcontinued => ?_
        exact (hpast₂.trans hcontinued.within).parsed hcontinued.error
      · refine wp_allocOrFail hpast.good fun id p₃ hnear₃ herror => ?_
        exact (hpast₂.trans hnear₃.within).parsed herror
  | minus => exact hunary _ (by rw [hkind]; decide)
  | not => exact hunary _ (by rw [hkind]; decide)
  | lParen =>
    simp only [parseExpr, wp_bind, wp_pure]
    refine wp_bump hsrc hp (by rw [hkind]; decide) fun p₁ hpast => ?_
    refine wp_mono ((hcalls.callable hpast).exprBp p₁ 0 (.refl hpast.good)) fun e p₂ hparsed => ?_
    have hpast₂ := hpast.trans hparsed.within
    refine wp_expect hsrc hpast₂.good (by decide) (fun p₃ hpast₃ herror => ?_)
      fun p₃ hnear₃ herror => ?_
    · have hpast₃ := hpast₂.within.past hpast₃
      exact hpast₃.parsed fun hnil => herror ▸ hparsed.error hnil
    · exact (hpast₂.trans hnear₃.within).parsed fun _ => herror
  | _ =>
    exact wp_fail hp fun p₁ hnear herror =>
      ⟨hnear.within, fun hne => absurd rfl hne, fun _ => herror⟩

/-! ## Statements -/

omit hsrc in
theorem blockLoop_spec {stops : List TokenKind} {head tail : NodeId} :
    Ends src (n + 1) p 4 (blockLoop calls stops head tail) (fun _ => Within src p) p := by
  simp only [blockLoop, wp_bind, wp_kind, wp_ite]
  refine wp_call_within (hcalls.skipNl p hp) (.refl hp) (by decide) fun _ p₁ hskipped => ?_
  have hwithin := hskipped.within
  refine ⟨fun _ => wp_allocOrFail hwithin.good fun _ p₂ hnear _ => hwithin.trans hnear.within,
    fun _ => ?_⟩
  refine wp_call_within (hcalls.stmt p₁ hwithin.good) hwithin (by decide) fun stmt p₂ hstmt => ?_
  have hwithin₂ := hwithin.trans hstmt.within
  refine ⟨fun _ => wp_allocOrFail hwithin₂.good fun _ p₃ hnear _ => hwithin₂.trans hnear.within,
    fun hne => ?_⟩
  have hpast := hwithin.past (hstmt.past hne)
  refine wp_alloc hpast.good fun r p₃ hnear₃ _ => ?_
  cases r with
  | none =>
    exact wp_fail hnear₃.good fun p₄ hnear₄ _ =>
      (hpast.trans (hnear₃.within.trans hnear₄.within)).within
  | some cell =>
    simp only [wp_bind]
    refine wp_link hnear₃.good fun head' p₄ hnear₄ => ?_
    have hpast₄ := hpast.trans (hnear₃.within.trans hnear₄.within)
    exact wp_call_past (hcalls.blockLoop p₄ stops head' cell hpast₄.good) hpast₄ (by decide)
      fun _ p₅ h₅ =>
      hpast₄.within.trans h₅

/-- A statement that takes its first token: then it only has to end well. -/
theorem wp_statement {rest : Parse NodeId} (hkind : p.cur.kind ≠ .eof)
    (hrest : ∀ p₁, Past src p p₁ → Callable src (Short src (n + 1) p 3) p₁ calls →
      Ends src (n + 1) p 3 rest (Continued src p₁) p₁) :
    Ends src (n + 1) p 3 (do bump src; rest) (Parsed src p) p := by
  simp only [wp_bind]
  refine wp_bump hsrc hp hkind fun p₁ hpast => wp_mono (hrest p₁ hpast (hcalls.callable hpast))
    fun id p₂ hcontinued => ?_
  exact (hpast.trans hcontinued.within).parsed hcontinued.error

end Functions

section Statements

variable (hsrc : Encoded src) (hcalls : Callable src F p₁ calls) (hp : Within src p₁ p₂)

include hsrc hcalls hp

omit hsrc in
/-- An expression and the node for it. -/
theorem wp_exprThenAlloc {Q : NodeId → Parser → Prop} (node : NodeId → Node)
    (hQ : ∀ id p', Continued src p₁ id p' → Q id p') : wp HasSplit F (calls.exprBp 0)
    (fun value => wp HasSplit F (allocOrFail (node value)) Q) p₂ := by
  refine wp_mono (hcalls.exprBp p₂ 0 hp) fun value p₃ hparsed => ?_
  refine wp_allocOrFail hparsed.within.good fun id p₄ hnear herror => hQ id p₄ ?_
  exact ⟨hp.trans (hparsed.within.trans hnear.within), herror⟩

/-- A block, the `end` behind it and the node for both. -/
theorem wp_blockThenAlloc (node : NodeId → Node) :
    wp HasSplit F calls.skipNl (fun _ => wp HasSplit F (calls.blockLoop [.end] NIL NIL) fun body =>
      wp HasSplit F (expect src .end "expected 'end'") fun _ =>
      wp HasSplit F (allocOrFail (node body)) (Continued src p₁)) p₂ := by
  refine wp_mono (hcalls.skipNl p₂ hp) fun _ p₃ h₃ => ?_
  refine wp_mono (hcalls.blockLoop p₃ [.end] NIL NIL (hp.trans h₃)) fun body p₄ h₄ => ?_
  refine wp_expect_within hsrc h₄.good (by decide) fun _ p₅ h₅ => ?_
  have hwithin := hp.trans (h₃.trans (h₄.trans h₅))
  exact wp_allocOrFail h₅.good fun id p₆ hnear herror => ⟨hwithin.trans hnear.within, herror⟩

end Statements

section Functions

variable (hsrc : Encoded src) (hcalls : Spec src n calls) (hp : Good src p)
  (hkind : p.cur.kind ≠ .eof)

include hsrc hcalls hp hkind

theorem parseLet_spec : Ends src (n + 1) p 3 (parseLet src calls) (Parsed src p) p := by
  refine wp_statement hsrc hcalls hp hkind fun p₁ hpast hcallable => ?_
  simp only [wp_bind, wp_kind, wp_ite]
  refine ⟨fun _ => wp_fail_within (.refl hpast.good), fun hident => ?_⟩
  have hident : p₁.cur.kind = .ident := not_not.mp hident
  refine wp_internCur hpast.good (hident ▸ .inl rfl) fun r p₂ hnear => ?_
  cases r with
  | none => exact wp_fail_within hnear.within
  | some name =>
    simp only [parseExpr, wp_bind, wp_ite, wp_pure]
    refine wp_bump hsrc hnear.good (by rw [hnear.cur, hident]; decide) fun p₃ hpast₃ => ?_
    have hwithin := hnear.within.trans hpast₃.within
    refine wp_expect hsrc hpast₃.good (by decide)
      (fun p₄ hpast₄ _ => ⟨fun _ => ?_, fun hfalse => absurd rfl hfalse⟩) fun p₄ hnear₄ herror =>
      ⟨by simp, fun _ => ⟨hwithin.trans hnear₄.within, fun _ => herror⟩⟩
    exact wp_exprThenAlloc hcallable (hwithin.trans hpast₄.within) (.let name) fun _ _ => id

theorem parsePrint_spec : Ends src (n + 1) p 3 (parsePrint src calls) (Parsed src p) p := by
  refine wp_statement hsrc hcalls hp hkind fun p₁ hpast hcallable => ?_
  simp only [wp_bind]
  refine wp_parseArgList hsrc hcallable (.refl hpast.good) fun args p₂ h₂ => ?_
  exact wp_allocOrFail h₂.good fun id p₃ hnear herror => ⟨h₂.trans hnear.within, herror⟩

theorem parseIf_spec : Ends src (n + 1) p 3 (parseIf src calls) (Parsed src p) p := by
  refine wp_statement hsrc hcalls hp hkind fun p₁ hpast hcallable => ?_
  simp only [parseExpr, parseBlockUntil, wp_bind, wp_kind, wp_ite, wp_pure]
  refine wp_mono (hcallable.exprBp p₁ 0 (.refl hpast.good)) fun cond p₂ hparsed => ?_
  refine wp_expect_within hsrc hparsed.within.good (by decide) fun _ p₃ h₃ => ?_
  have hwithin₃ := hparsed.within.trans h₃
  refine wp_mono (hcallable.skipNl p₃ hwithin₃) fun _ p₄ h₄ => ?_
  refine wp_mono (hcallable.blockLoop p₄ [.else, .end] NIL NIL (hwithin₃.trans h₄))
    fun thenBody p₅ h₅ => ?_
  have hwithin₅ := hwithin₃.trans (h₄.trans h₅)
  refine ⟨fun helse => ?_, fun _ => ?_⟩
  · refine wp_bump hsrc h₅.good (by rw [helse]; decide) fun p₆ hpast₆ => ?_
    exact wp_blockThenAlloc hsrc hcallable (hwithin₅.trans hpast₆.within) (.if cond thenBody)
  · refine wp_expect_within hsrc h₅.good (by decide) fun _ p₆ h₆ => ?_
    exact wp_allocOrFail h₆.good fun id p₇ hnear herror =>
      ⟨hwithin₅.trans (h₆.trans hnear.within), herror⟩

theorem parseWhile_spec : Ends src (n + 1) p 3 (parseWhile src calls) (Parsed src p) p := by
  refine wp_statement hsrc hcalls hp hkind fun p₁ hpast hcallable => ?_
  simp only [parseExpr, parseBlockUntil, wp_bind]
  refine wp_mono (hcallable.exprBp p₁ 0 (.refl hpast.good)) fun cond p₂ hparsed => ?_
  refine wp_expect_within hsrc hparsed.within.good (by decide) fun _ p₃ h₃ => ?_
  exact wp_blockThenAlloc hsrc hcallable (hparsed.within.trans h₃) (.while cond)

theorem parseFun_spec : Ends src (n + 1) p 3 (parseFun src calls) (Parsed src p) p := by
  refine wp_statement hsrc hcalls hp hkind fun p₁ hpast hcallable => ?_
  simp only [wp_bind, wp_kind, wp_ite]
  refine ⟨fun _ => wp_fail_within (.refl hpast.good), fun hident => ?_⟩
  have hident : p₁.cur.kind = .ident := not_not.mp hident
  refine wp_internCur hpast.good (hident ▸ .inl rfl) fun r p₂ hnear => ?_
  cases r with
  | none => exact wp_fail_within hnear.within
  | some name =>
    simp only [parseBlockUntil, wp_bind, wp_kind, wp_ite, wp_pure]
    refine wp_bump hsrc hnear.good (by rw [hnear.cur, hident]; decide) fun p₃ hpast₃ => ?_
    have hwithin₃ := hnear.within.trans hpast₃.within
    -- behind the parameters come the closing parenthesis and the body
    have hbody : ∀ params p₅, Within src p₁ p₅ →
        Ends src (n + 1) p 3 (expect src .rParen "expected ')'")
        (fun ok p₆ => (ok = true → Ends src (n + 1) p 3 calls.skipNl (fun _ =>
          Ends src (n + 1) p 3 (calls.blockLoop [.end] NIL NIL) fun body =>
            Ends src (n + 1) p 3 (expect src .end "expected 'end'") fun _ =>
              Ends src (n + 1) p 3 (allocOrFail (.fun name params body)) (Continued src p₁)) p₆) ∧
          (¬ok = true → Continued src p₁ NIL p₆)) p₅ := by
      intro params p₅ h₅
      refine wp_expect hsrc h₅.good (by decide)
        (fun p₆ hpast₆ _ => ⟨fun _ => ?_, fun hfalse => absurd rfl hfalse⟩) fun p₆ hnear₆ herror =>
        ⟨by simp, fun _ => ⟨h₅.trans hnear₆.within, fun _ => herror⟩⟩
      exact wp_blockThenAlloc hsrc hcallable (h₅.trans hpast₆.within) (.fun name params)
    refine wp_expect hsrc hpast₃.good (by decide)
      (fun p₄ hpast₄ _ => ⟨fun _ => ?_, fun hfalse => absurd rfl hfalse⟩) fun p₄ hnear₄ herror =>
      ⟨by simp, fun _ => ⟨hwithin₃.trans hnear₄.within, fun _ => herror⟩⟩
    have hwithin₄ := hwithin₃.trans hpast₄.within
    refine ⟨fun _ => ?_, fun _ => hbody NIL p₄ hwithin₄⟩
    refine wp_mono (hcallable.paramLoop p₄ NIL NIL hwithin₄) fun params p₅ hparams => ?_
    cases params with
    | none => exact ⟨hwithin₄.trans hparams.within, fun _ => hparams.error rfl⟩
    | some params =>
      simp only [wp_bind, wp_ite, wp_pure]
      exact hbody params p₅ (hwithin₄.trans hparams.within)

theorem parseReturn_spec : Ends src (n + 1) p 3 (parseReturn src calls) (Parsed src p) p := by
  refine wp_statement hsrc hcalls hp hkind fun p₁ hpast hcallable => ?_
  simp only [parseExpr, wp_bind, wp_kind, wp_ite]
  refine ⟨fun _ => ?_, fun _ => wp_exprThenAlloc hcallable (.refl hpast.good) .return fun _ _ => id⟩
  refine wp_alloc hpast.good fun r p₂ hnear _ => ?_
  cases r with
  | none => exact wp_fail_within hnear.within
  | some value =>
    exact wp_allocOrFail hnear.good fun id p₃ hnear₃ herror =>
      ⟨hnear.within.trans hnear₃.within, herror⟩

omit hkind in
theorem parseNamed_spec (hident : p.cur.kind = .ident) :
    Ends src (n + 1) p 3 (parseNamed src calls) (Parsed src p) p := by
  have htext : isText p.cur.kind := hident ▸ .inl rfl
  simp only [parseNamed, wp_bind, wp_get, wp_kind, wp_ite]
  refine wp_bump hsrc hp (by rw [hident]; decide) fun p₁ hpast => ?_
  have hcallable : Callable src (Short src (n + 1) p 3) p₁ calls := hcalls.callable hpast
  have hparsed : ∀ id p', Continued src p₁ id p' → Parsed src p id p' := fun id p' hcontinued =>
    (hpast.trans hcontinued.within).parsed hcontinued.error
  refine ⟨fun hassign => ?_, fun _ => ?_⟩
  · refine wp_bump hsrc hpast.good (by rw [hassign]; decide) fun p₂ hpast₂ => ?_
    refine wp_slice hp.token htext (wp_intern hpast₂.good fun r p₃ hnear => ?_)
    have hwithin := hpast₂.within.trans hnear.within
    cases r with
    | none => exact wp_mono (wp_fail_within hwithin) hparsed
    | some name =>
      simp only [parseExpr, wp_bind]
      exact wp_exprThenAlloc hcallable hwithin (.assign name) hparsed
  refine wp_slice hp.token htext (wp_intern hpast.good fun r p₂ hnear => ?_)
  cases r with
  | none => exact wp_mono (wp_fail_within hnear.within) hparsed
  | some name =>
    simp only [wp_bind]
    refine wp_alloc hnear.good fun r p₃ hnear₃ hid => ?_
    have hwithin := hnear.within.trans hnear₃.within
    cases r with
    | none => exact wp_mono (wp_fail_within hwithin) hparsed
    | some var =>
      simp only [wp_bind, wp_kind, wp_ite]
      refine ⟨fun _ => wp_mono (wp_parseCallTail hsrc hcallable hwithin) hparsed, fun _ => ?_⟩
      exact wp_mono (hcallable.exprContinue p₃ var 0 hwithin (hid var rfl)) fun id p₄ hcontinued =>
        hparsed id p₄ ⟨hwithin.trans hcontinued.within, hcontinued.error⟩

omit hkind in
theorem parseStmt_spec : Ends src (n + 1) p 3 (parseStmt src calls) (StmtParsed src p) p := by
  unfold parseStmt
  simp only [wp_bind, wp_kind]
  refine wp_call_within (hcalls.skipNl p hp) (.refl hp) (by decide) fun _ p₁ hskipped => ?_
  have hgood := hskipped.within.good
  have hdist := hskipped.within.distance
  -- what holds from the state behind the newlines on
  have hparsed : ∀ id p', Parsed src p₁ id p' → StmtParsed src p id p' := fun id p' h =>
    ⟨hskipped.within.trans h.within, fun hne => hskipped.within.past (h.past hne),
      fun hnil _ => h.error hnil⟩
  have hrounds : ∀ {x : Parse NodeId}, Ends src (n + 1) p₁ 3 x (Parsed src p₁) p₁ →
      Ends src (n + 1) p 3 x (StmtParsed src p) p₁ := fun h =>
    wp_conseq h (fun _ hshort => ⟨hshort.1, Nat.lt_of_lt_of_le hshort.2 (by omega)⟩) hparsed
  have hnone : startsNone p₁.cur.kind → StmtParsed src p NIL p₁ := by
    refine fun hstarts => ⟨hskipped.within, fun hne => absurd rfl hne, fun _ hp₀ => ?_⟩
    have hsame : p₁ = p := hskipped.same fun hnewline => hp₀ (.inl hnewline)
    exact absurd (hsame ▸ hstarts) hp₀
  have hexpr : Ends src (n + 1) p 3 (parseExpr calls) (StmtParsed src p) p₁ :=
    wp_call_within (hcalls.exprBp p₁ 0 hgood) hskipped.within (by decide) hparsed
  cases hkind : p₁.cur.kind with
  | «let» => exact hrounds (parseLet_spec hsrc hcalls hgood (by rw [hkind]; decide))
  | «if» => exact hrounds (parseIf_spec hsrc hcalls hgood (by rw [hkind]; decide))
  | «while» => exact hrounds (parseWhile_spec hsrc hcalls hgood (by rw [hkind]; decide))
  | «fun» => exact hrounds (parseFun_spec hsrc hcalls hgood (by rw [hkind]; decide))
  | «return» => exact hrounds (parseReturn_spec hsrc hcalls hgood (by rw [hkind]; decide))
  | print => exact hrounds (parsePrint_spec hsrc hcalls hgood (by rw [hkind]; decide))
  | ident => exact hrounds (parseNamed_spec hsrc hcalls hgood hkind)
  | eof => exact hnone (.inr (.inl hkind))
  | «end» => exact hnone (.inr (.inr (.inl hkind)))
  | «else» => exact hnone (.inr (.inr (.inr hkind)))
  | _ => exact hexpr

end Functions

/-- The functions of the parser with any number of rounds. -/
theorem spec_after (hsrc : Encoded src) (n : Nat) : Spec src n (.after src n) := by
  induction n with
  | zero =>
    have hshort : ∀ {p : Parser} {rank : Nat}, Good src p → 0 < rank → Short src 0 p rank p :=
      fun hp hrank =>
      ⟨hp.steps, by omega⟩
    exact ⟨fun p hp => hshort hp (by decide), fun p hp => hshort hp (by decide),
      fun p _ _ hp _ => hshort hp (by decide), fun p _ _ hp => hshort hp (by decide),
      fun p _ hp => hshort hp (by decide), fun p _ _ hp => hshort hp (by decide),
      fun p hp => hshort hp (by decide), fun p _ _ _ hp => hshort hp (by decide)⟩
  | succ n ih =>
    exact ⟨fun p hp => skipNl_spec hsrc ih hp, fun p hp => parseOperand_spec hsrc ih hp,
      fun p left minBp hp hleft => parseExprContinue_spec hsrc ih hp hleft,
      fun p params tail hp => paramLoop_spec hsrc ih hp, fun p minBp hp => parseExprBp_spec ih hp,
      fun p head tail hp => argLoop_spec hsrc ih hp, fun p hp => parseStmt_spec hsrc ih hp,
      fun p stops head tail hp => blockLoop_spec ih hp⟩

/-! ## The statement loop -/

section Endless

variable {E : Parser → Prop} {head tail : NodeId}

/-- Only rounds that start no statement have been made, and at least one if there were any. -/
def Stays (n : Nat) (p p' : Parser) : Prop :=
  ∃ more, p'.steps = p.steps ++ more ∧ (∀ step ∈ more, endless step) ∧ (0 < n → more ≠ [])

theorem skipNl_stays (hkind : p.cur.kind ≠ .newline) (hF : F p) :
    wp E F (Calls.after src n).skipNl (fun _ p' => p' = p) p := by
  cases n with
  | zero => exact hF
  | succ n =>
    show wp E F (skipNl src (.after src n)) _ p
    simp only [skipNl, wp_bind, wp_kind, wp_ite, wp_pure]
    exact ⟨fun hnewline => absurd hnewline hkind, fun _ => trivial⟩

theorem stmt_stays (hkind : p.cur.kind = .end ∨ p.cur.kind = .else) (hF : F p) :
    wp E F (Calls.after src n).stmt (fun id p' => id = NIL ∧ p' = p) p := by
  have hnewline : p.cur.kind ≠ .newline := by
    rcases hkind with hkind | hkind <;> rw [hkind] <;> decide
  cases n with
  | zero => exact hF
  | succ n =>
    show wp E F (parseStmt src (.after src n)) _ p
    simp only [parseStmt, wp_bind, wp_kind]
    refine wp_mono (skipNl_stays hnewline hF) fun _ p₁ hsame => ?_
    rw [hsame]
    rcases hkind with hkind | hkind <;> rw [hkind] <;> exact ⟨rfl, rfl⟩

/-- At an `end` or `else` the statement loop goes round and round. -/
theorem programLoop_stays (hkind : p.cur.kind = .end ∨ p.cur.kind = .else)
    (herror : p.error = none) : wp (fun _ => False) (Stays n p)
    ((Calls.after src n).programLoop head tail) (fun _ _ => False) p := by
  have hnewline : p.cur.kind ≠ .newline := by
    rcases hkind with hkind | hkind <;> rw [hkind] <;> decide
  have heof : p.cur.kind ≠ .eof := by
    rcases hkind with hkind | hkind <;> rw [hkind] <;> decide
  induction n generalizing p with
  | zero => exact ⟨[], (append_nil _).symm, nofun, nofun⟩
  | succ n ih =>
    show wp _ _ (programLoop (.after src n) head tail) _ p
    simp only [programLoop, record, wp_bind, wp_get, wp_ite, wp_modify]
    refine ⟨fun _ => ?_, fun hstop => absurd ⟨heof, herror⟩ hstop⟩
    have hround : Stays (n + 1) p { p with steps := p.steps ++ [.round p.cur.kind] } :=
      ⟨[.round p.cur.kind], rfl, fun step hstep => mem_singleton.mp hstep ▸ hkind,
        fun _ => cons_ne_nil _ _⟩
    refine wp_mono (stmt_stays hkind hround) fun stmt p₂ hstmt => ?_
    obtain ⟨rfl, rfl⟩ := hstmt
    have hnone : ¬(NIL = NIL ∧ p.error.isSome = true) := fun h => by
      rw [herror] at h
      exact absurd h.2 Bool.false_ne_true
    refine ⟨fun h => absurd h hnone, fun _ => ⟨fun _ => ?_, fun hne => absurd rfl hne⟩⟩
    refine wp_mono (skipNl_stays hnewline hround) fun _ p₃ hsame => ?_
    rw [hsame]
    refine wp_conseq (ih hkind herror hnewline heof) (fun p' hstays => ?_) fun _ _ => id
    obtain ⟨more, hsteps, hmore, -⟩ := hstays
    refine ⟨.round p.cur.kind :: more, ?_, forall_mem_cons.mpr ⟨hkind, hmore⟩,
      fun _ => cons_ne_nil _ _⟩
    rw [hsteps, append_assoc]
    rfl

end Endless

theorem not_splits_of_endless {step : ParseStep} (h : endless step) : ¬splits step := by
  cases step with
  | round kind => exact id
  | literal raw => exact h.elim

/-- Rounds have run out in an endless loop. -/
def Loops (p : Parser) : Prop := (∃ step ∈ p.steps, endless step) ∧ ∀ step ∈ p.steps, ¬splits step

/-- A program has been parsed, or there is an error. -/
structure ProgramParsed (src : List UInt8) (id : NodeId) (p' : Parser) : Prop where
  good : Good src p'
  error : id = NIL → p'.error.isSome = true

/--
The statement loop returns, unless there are too few rounds or it comes to an `end` or `else`.
-/
theorem programLoop_spec (hsrc : Encoded src) {head tail : NodeId} (hp : Good src p)
    (hkind : p.cur.kind ≠ .newline) : wp HasSplit (fun p' => Short src n p 4 p' ∨ Loops p')
    ((Calls.after src n).programLoop head tail) (ProgramParsed src) p := by
  induction n generalizing p head tail with
  | zero => exact .inl ⟨hp.steps, by omega⟩
  | succ n ih =>
    have hcalls := spec_after hsrc n
    by_cases hstuck : (p.cur.kind = .end ∨ p.cur.kind = .else) ∧ p.error = none
    · refine wp_weaken (programLoop_stays hstuck.1 hstuck.2) (fun _ => False.elim)
        (fun p' hstays => .inr ?_) fun _ _ => False.elim
      obtain ⟨more, hsteps, hmore, hne⟩ := hstays
      obtain ⟨step, hstep⟩ := exists_mem_of_ne_nil more (hne (Nat.succ_pos n))
      unfold Loops
      rw [hsteps]
      refine ⟨⟨step, mem_append_right _ hstep, hmore step hstep⟩, fun other hother => ?_⟩
      rcases mem_append.mp hother with hother | hother
      · exact (hp.steps other hother).1
      · exact not_splits_of_endless (hmore other hother)
    show wp _ _ (programLoop (.after src n) head tail) _ p
    simp only [programLoop, record, wp_bind, wp_get, wp_ite, wp_modify]
    refine ⟨fun hgo => ?_, fun _ => wp_allocOrFail hp fun _ p₁ hnear herror => ⟨hnear.good, herror⟩⟩
    have hstuck : ¬(p.cur.kind = .end ∨ p.cur.kind = .else) := fun hkind => hstuck ⟨hkind, hgo.2⟩
    have hgood : Good src { p with steps := p.steps ++ [.round p.cur.kind] } := by
      refine ⟨hp.pos, hp.token, hp.arena, hp.strings, fun step hstep => ?_⟩
      rcases mem_append.mp hstep with hstep | hstep
      · exact hp.steps step hstep
      · rw [mem_singleton.mp hstep]
        exact ⟨id, hstuck⟩
    have hstarts : ¬startsNone p.cur.kind := by
      rintro (h | h | h)
      · exact hkind h
      · exact hgo.1 h
      · exact hstuck h
    have hlift : ∀ {α : Type} {x : Parse α} {Q Q' : α → Parser → Prop} {p₁ : Parser} {rank : Nat},
        Ends src n p₁ rank x Q p₁ → 8 * distance src p₁ + rank < 8 * distance src p + 4 →
        (∀ a p', Q a p' → Q' a p') →
        wp HasSplit (fun p' => Short src (n + 1) p 4 p' ∨ Loops p') x Q' p₁ :=
      fun h hrank hQ => wp_conseq (wp_call h hrank hQ) (fun _ => .inl) fun _ _ => id
    refine hlift (hcalls.stmt _ hgood) (Nat.lt_succ_self _) fun stmt p₂ hstmt => ?_
    refine ⟨fun _ => wp_allocOrFail hstmt.within.good fun _ p₃ hnear herror => ⟨hnear.good, herror⟩,
      fun hno => ⟨fun hnil => ?_, fun hne => ?_⟩⟩
    · exact absurd ⟨hnil, hstmt.error hnil hstarts⟩ hno
    have hpast : Past src p p₂ := ⟨hstmt.within.good, (hstmt.past hne).distance⟩
    refine wp_alloc hpast.good fun r p₃ hnear₃ _ => ?_
    cases r with
    | none => exact wp_fail hnear₃.good fun p₄ hnear₄ herror => ⟨hnear₄.good, fun _ => herror⟩
    | some cell =>
      have hpast₃ := hpast.trans hnear₃.within
      have hrest : ∀ head' p₄, Past src p p₄ →
          wp HasSplit (fun p' => Short src (n + 1) p 4 p' ∨ Loops p') (Calls.after src n).skipNl
            (fun _ => wp HasSplit (fun p' => Short src (n + 1) p 4 p' ∨ Loops p')
              ((Calls.after src n).programLoop head' cell) (ProgramParsed src)) p₄ := by
        intro head' p₄ hpast₄
        have hdist₄ := hpast₄.distance
        refine hlift (hcalls.skipNl p₄ hpast₄.good) (by omega) fun _ p₅ hskipped => ?_
        have hdist₅ := hskipped.within.distance
        refine wp_conseq (ih hskipped.within.good hskipped.kind) (fun p' hend => ?_) fun _ _ => id
        rcases hend with hshort | hloops
        · exact .inl ⟨hshort.1, by have := hshort.2; omega⟩
        · exact .inr hloops
      simp only [wp_bind, wp_ite, wp_pure]
      refine ⟨fun _ => hrest cell p₃ hpast₃, fun _ => wp_getNode hnear₃.good fun node => ?_⟩
      split
      · simp only [wp_bind, wp_pure]
        exact wp_parserSetListNext hnear₃.good fun p₄ hnear₄ =>
          hrest head p₄ (hpast₃.trans hnear₄.within)
      · simp only [wp_bind, wp_pure]
        exact hrest head p₃ hpast₃

theorem distance_new_le (hsrc : Encoded src) : distance src (new src) ≤ src.length + 1 := by
  have hlen := (good_new hsrc).pos
  unfold distance
  split <;> omega

section Parse

/--
The parser ends with a program or an error, with a panic at a split literal, or goes round at an
`end` or `else`, if there are enough rounds.
-/
theorem wp_parse_rounds (text : List Char) (rounds : Nat) :
    wp HasSplit (fun p' => ((∀ step ∈ p'.steps, ¬splits step ∧ ¬endless step) ∧ rounds <
      8 * (encode text).length + 12) ∨ Loops p') (parseProgram (.after (encode text) rounds))
      (ProgramParsed (encode text)) (new (encode text)) := by
  have hsrc := encoded_encode text
  have hdist := distance_new_le hsrc
  simp only [parseProgram, wp_bind]
  refine wp_conseq ((spec_after hsrc rounds).skipNl _ (good_new hsrc)) (fun p' hshort => ?_)
    fun _ p₁ hskipped => ?_
  · exact .inl ⟨hshort.1, by have := hshort.2; omega⟩
  have hdist₁ := hskipped.within.distance
  refine wp_conseq (programLoop_spec hsrc hskipped.within.good hskipped.kind) (fun p' hend => ?_)
    fun _ _ => id
  rcases hend with hshort | hloops
  · exact .inl ⟨hshort.1, by have := hshort.2; omega⟩
  · exact .inr hloops

/--
The parser returns exactly if no round of its statement loop starts at an `end` or `else` and it
cuts no literal inside a character.
-/
theorem parse_returns_iff
    (text : List Char)
    (rounds : Nat)
    (h : 8 * (encode text).length + 12 ≤ rounds) :
    (∃ id, (parse text rounds).2 = .done id ∧
      (id = NIL → (parse text rounds).1.error.isSome = true)) ↔
      ∀ step ∈ (parse text rounds).1.steps, ¬splits step ∧ ¬endless step := by
  have hparse := wp_parse_rounds text rounds
  rcases hres : parse text rounds with ⟨p, id | _ | _⟩
  · have hparsed := wp_done hparse hres
    exact ⟨fun _ => hparsed.good.steps, fun _ => ⟨id, rfl, hparsed.error⟩⟩
  · obtain ⟨step, hstep, hsplits⟩ := wp_panicked hparse hres
    exact ⟨fun ⟨_, hdone, _⟩ => (nomatch hdone), fun hsteps => absurd hsplits (hsteps step hstep).1⟩
  · obtain ⟨⟨step, hstep, hendless⟩, -⟩ :=
      (wp_cutOff hparse hres).resolve_left fun hshort => absurd hshort.2 (Nat.not_lt.mpr h)
    exact ⟨fun ⟨_, hdone, _⟩ => (nomatch hdone),
      fun hsteps => absurd hendless (hsteps step hstep).2⟩

theorem parse_returns_iff_name :
    ∃ id, (parse ['x'] 20).2 = .done id ∧ (id = NIL → (parse ['x'] 20).1.error.isSome = true) := by
  refine (parse_returns_iff ['x'] 20 (by decide)).mpr ?_
  have hsteps : (parse ['x'] 20).1.steps = [.round .ident] := by decide
  rw [hsteps]
  intro step hstep
  rw [mem_singleton.mp hstep]
  exact ⟨id, by rintro (h | h) <;> cases h⟩

/-- A text of one `end` is parsed for ever. -/
theorem parse_end_never_returns : ¬∃ rounds id, (parse ['e', 'n', 'd'] rounds).2 = .done id := by
  rintro ⟨rounds, root, hdone⟩
  have hkind : (new (encode ['e', 'n', 'd'])).cur.kind = .end := by decide
  have hloops : wp (fun _ => False) (fun _ => True) (parseProgram (.after
      (encode ['e', 'n', 'd']) rounds)) (fun _ _ => False) (new (encode ['e', 'n', 'd'])) := by
    simp only [parseProgram, wp_bind]
    refine wp_mono (skipNl_stays (by rw [hkind]; decide) trivial) fun _ p₁ hsame => ?_
    rw [hsame]
    exact wp_conseq (programLoop_stays (.inl hkind) rfl) (fun _ _ => trivial) fun _ _ => id
  exact wp_done hloops (eq_done hdone)

end Parse

end Parser
end PureCOS.PureL
