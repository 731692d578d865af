import PureCOS.PureL.Parser
import PureCOS.PureL.Tokens

/-!
# PureL: what the parser keeps true

Arrays are used within their bounds, the current token can be cut out of the text, and each token
that is taken brings the parser nearer to the end of the text.  The rules of this module say this
for the small steps of the parser, in the form in which they are used one after the other.
-/

namespace PureCOS.PureL

open Code List

/-! ## Arenas and pools -/

section Tables

variable {E F : Arena → Prop} {arena : Arena} {node : Node} {id next : NodeId}

theorem wp_arenaAlloc {Q : Option NodeId → Arena → Prop} (ha : arena.length ≤ maxNodes)
    (h : ∀ r arena', arena'.length ≤ maxNodes → (∀ id, r = some id → id ≠ NIL) → Q r arena') :
    wp E F (Arena.alloc node) Q arena := by
  simp only [Arena.alloc, wp_bind, wp_get, wp_ite, wp_pure, wp_require, wp_modify]
  refine ⟨fun _ => h none arena ha (by simp), fun hlt => ⟨fun _ => ?_, fun hfull => absurd hlt ?_⟩⟩
  · refine h _ _ ?_ fun id hid => ?_
    · rw [length_append, length_singleton]
      omega
    rw [← Option.some.inj hid]
    refine Nat.ne_of_lt ?_
    simp only [maxNodes, NIL] at hlt ⊢
    omega
  · exact fun hn => hn (Nat.not_lt.mp (of_decide_eq_false hfull))

theorem wp_arenaGet {Q : Option Node → Arena → Prop} (ha : arena.length ≤ maxNodes)
    (h : ∀ r, Q r arena) : wp E F (Arena.get id) Q arena := by
  simp only [Arena.get, wp_bind, wp_get, wp_ite, wp_pure, wp_require]
  refine ⟨fun _ => h none, fun hin => ⟨fun _ => h _, fun hout => absurd (.inr ?_) hin⟩⟩
  exact Nat.le_trans ha (Nat.not_lt.mp (of_decide_eq_false hout))

theorem wp_setListNext {Q : Unit → Arena → Prop} (ha : arena.length ≤ maxNodes)
    (h : ∀ arena', arena'.length = arena.length → Q () arena') :
    wp E F (Arena.setListNext id next) Q arena := by
  simp only [Arena.setListNext, wp_bind, wp_get, wp_ite, wp_pure, wp_require]
  refine ⟨fun _ => h arena rfl, fun hin => ⟨fun _ => ?_, fun hout => absurd (.inr ?_) hin⟩⟩
  · split
    · exact h _ length_set
    · exact h arena rfl
  · exact Nat.le_trans ha (Nat.not_lt.mp (of_decide_eq_false hout))

end Tables

section Strings

variable {E F : Pool → Prop} {pool : Pool} {s : List UInt8}

/-- At most as many strings as there is room for, and none too long. -/
structure PoolOk (pool : Pool) : Prop where
  count : pool.length ≤ maxStrings
  size : ∀ s ∈ pool, s.length ≤ maxStrBytes

theorem wp_find {Q : Option Nat → Pool → Prop} {rest : List (List UInt8)} {i : Nat}
    (hcount : i + rest.length ≤ maxStrings) (hsize : ∀ s ∈ rest, s.length ≤ maxStrBytes)
    (h : ∀ r, Q r pool) : wp E F (Pool.find s i rest) Q pool := by
  induction rest generalizing i with
  | nil => exact h none
  | cons t rest ih =>
    rw [length_cons] at hcount
    have hrest := ih (i := i + 1) (by omega) fun u hu => hsize u (mem_cons_of_mem _ hu)
    simp only [Pool.find, wp_bind, wp_require, wp_ite, wp_pure]
    refine ⟨fun _ => ⟨fun _ => ⟨fun _ => ⟨fun _ => h _, fun _ => hrest⟩, fun hlong => ?_⟩,
      fun _ => hrest⟩, fun hfull => ?_⟩
    · exact absurd (hsize t mem_cons_self) (of_decide_eq_false hlong)
    · exact absurd (by omega) (of_decide_eq_false hfull)

theorem wp_poolIntern {Q : Option Nat → Pool → Prop} (hpool : PoolOk pool)
    (h : ∀ r pool', PoolOk pool' → Q r pool') : wp E F (Pool.intern s) Q pool := by
  simp only [Pool.intern, wp_ite, wp_pure, wp_bind, wp_get]
  refine ⟨fun _ => h none pool hpool,
    fun hshort => wp_find (by rw [Nat.zero_add]; exact hpool.count) hpool.size fun r => ?_⟩
  cases r with
  | some i => exact h _ pool hpool
  | none =>
    simp only [wp_ite, wp_pure, wp_bind, wp_require, wp_modify]
    refine ⟨fun _ => h none pool hpool,
      fun hroom => ⟨fun _ => h _ _ ⟨?_, fun t ht => ?_⟩, fun hfull => ?_⟩⟩
    · rw [length_append, length_singleton]
      omega
    · rcases mem_append.mp ht with ht | ht
      · exact hpool.size t ht
      · rw [mem_singleton.mp ht]
        omega
    · rw [Bool.and_eq_false_iff, decide_eq_false_iff_not, decide_eq_false_iff_not] at hfull
      omega

theorem wp_poolGet {Q : List UInt8 → Pool → Prop} {id : Nat} (hpool : PoolOk pool)
    (h : ∀ t, Q t pool) : wp E F (Pool.get id) Q pool := by
  simp only [Pool.get, wp_bind, wp_get]
  split
  · exact h []
  next t hget =>
  have hlt := (List.getElem?_eq_some_iff.mp hget).1
  have hsize := hpool.size t (List.mem_of_getElem? hget)
  have hcount := hpool.count
  simp only [wp_bind, wp_require, wp_pure]
  refine ⟨fun _ => h _, fun hout => ?_⟩
  rw [Bool.and_eq_false_iff, decide_eq_false_iff_not, decide_eq_false_iff_not] at hout
  omega

end Strings

namespace Parser

/-! ## States of the parser -/

/-- A string literal that ends inside a character: it has no closing quote. -/
def splits : ParseStep → Prop
  | .round _ => False
  | .literal raw => 2 ≤ raw.length ∧ ∃ b, raw.getLast? = some b ∧ isContinuation b = true

/-- A round of the statement loop that no statement can be made of, and no error either. -/
def endless : ParseStep → Prop
  | .round kind => kind = .end ∨ kind = .else
  | .literal _ => False

/-- What holds of a parser all the time. -/
structure Good (src : List UInt8) (p : Parser) : Prop where
  pos : p.pos ≤ src.length
  token : TokenOk src p.cur
  arena : p.arena.length ≤ maxNodes
  strings : PoolOk p.strings
  steps : ∀ step ∈ p.steps, ¬splits step ∧ ¬endless step

/-- How far the end of the text is away. -/
def distance (src : List UInt8) (p : Parser) : Nat :=
  src.length - p.pos + if p.cur.kind = .eof then 0 else 1

/-- After a panic: a literal has been split. -/
def HasSplit (p : Parser) : Prop := ∃ step ∈ p.steps, splits step

/-- Position and record are the same; nodes, strings and error need not be. -/
structure Near (src : List UInt8) (p p' : Parser) : Prop where
  good : Good src p'
  pos : p'.pos = p.pos
  cur : p'.cur = p.cur
  steps : p'.steps = p.steps

/-- The parser has come nearer to the end. -/
structure Past (src : List UInt8) (p p' : Parser) : Prop where
  good : Good src p'
  distance : distance src p' < distance src p

/-- The parser is not farther from the end. -/
structure Within (src : List UInt8) (p p' : Parser) : Prop where
  good : Good src p'
  distance : distance src p' ≤ distance src p

variable {src : List UInt8} {E F : Parser → Prop} {p p' p'' : Parser} {id : NodeId}

theorem Near.distance_eq (h : Near src p p') : distance src p' = distance src p := by
  unfold distance
  rw [h.pos, h.cur]

theorem Near.within (h : Near src p p') : Within src p p' := ⟨h.good, Nat.le_of_eq h.distance_eq⟩

theorem Past.within (h : Past src p p') : Within src p p' := ⟨h.good, Nat.le_of_lt h.distance⟩

theorem Within.refl (h : Good src p) : Within src p p := ⟨h, Nat.le_refl _⟩

theorem Within.trans (h : Within src p p') (h' : Within src p' p'') : Within src p p'' :=
  ⟨h'.good, Nat.le_trans h'.distance h.distance⟩

theorem Past.trans (h : Past src p p') (h' : Within src p' p'') : Past src p p'' :=
  ⟨h'.good, Nat.lt_of_le_of_lt h'.distance h.distance⟩

theorem Within.past (h : Within src p p') (h' : Past src p' p'') : Past src p p'' :=
  ⟨h'.good, Nat.lt_of_lt_of_le h'.distance h.distance⟩

theorem good_new (hsrc : Encoded src) : Good src (new src) := by
  obtain ⟨htoken, -, hlen, -⟩ := nextToken_ok hsrc (Nat.zero_le src.length)
  exact ⟨hlen, htoken, Nat.zero_le _, ⟨Nat.zero_le _, nofun⟩, nofun⟩

/-! ## Rules for small steps -/

section Rules

@[simp] theorem wp_kind {Q : TokenKind → Parser → Prop} : wp E F kind Q p ↔ Q p.cur.kind p :=
  Iff.rfl

variable {Q : Unit → Parser → Prop} {msg : String}

/-- A token is taken, and no error made. -/
theorem wp_bump_error (hsrc : Encoded src) (hp : Good src p) (hkind : p.cur.kind ≠ .eof)
    (h : ∀ p', Past src p p' → p'.error = p.error → Q () p') : wp E F (bump src) Q p := by
  obtain ⟨htoken, hle, hlen, hmoves⟩ := nextToken_ok hsrc hp.pos
  refine h _ ⟨⟨hlen, htoken, hp.arena, hp.strings, hp.steps⟩, ?_⟩ rfl
  unfold distance
  rw [if_neg hkind]
  simp only
  split
  · omega
  next hne =>
    have hlt := hmoves hne
    omega

theorem wp_bump (hsrc : Encoded src) (hp : Good src p) (hkind : p.cur.kind ≠ .eof)
    (h : ∀ p', Past src p p' → Q () p') : wp E F (bump src) Q p :=
  wp_bump_error hsrc hp hkind fun p' hpast _ => h p' hpast

theorem wp_fail {Q : NodeId → Parser → Prop} (hp : Good src p)
    (h : ∀ p', Near src p p' → p'.error.isSome = true → Q NIL p') : wp E F (fail msg) Q p := by
  refine h _ ⟨⟨hp.pos, hp.token, hp.arena, hp.strings, hp.steps⟩, rfl, rfl, rfl⟩ ?_
  show (p.error <|> some msg).isSome = true
  cases p.error <;> rfl

theorem wp_expect {Q : Bool → Parser → Prop} {expected : TokenKind} (hsrc : Encoded src)
    (hp : Good src p) (hexpected : expected ≠ .eof)
    (htrue : ∀ p', Past src p p' → p'.error = p.error → Q true p')
    (hfalse : ∀ p', Near src p p' → p'.error.isSome = true → Q false p') :
    wp E F (expect src expected msg) Q p := by
  simp only [expect, wp_bind, wp_kind, wp_ite, wp_pure]
  refine ⟨fun hkind => ?_, fun _ => ?_⟩
  · exact wp_bump_error hsrc hp (hkind ▸ hexpected) htrue
  · exact wp_fail hp hfalse

/-- As before, if only the distance matters. -/
theorem wp_expect_within {Q : Bool → Parser → Prop} {expected : TokenKind} (hsrc : Encoded src)
    (hp : Good src p) (hexpected : expected ≠ .eof) (h : ∀ b p', Within src p p' → Q b p') :
    wp E F (expect src expected msg) Q p :=
  wp_expect hsrc hp hexpected (fun p' hpast _ => h true p' hpast.within) fun p' hnear _ =>
    h false p' hnear.within

theorem wp_slice {Q : List UInt8 → Parser → Prop} {token : Token} (htoken : TokenOk src token)
    (htext : isText token.kind) (h : Q (cut src token.start (token.start + token.len)) p) :
    wp E F (slice src token) Q p := by
  simp only [slice, wp_bind, wp_require, wp_pure]
  refine ⟨fun _ => h, fun hcut => ?_⟩
  rw [htoken.sliceable htext] at hcut
  cases hcut

theorem wp_alloc {Q : Option NodeId → Parser → Prop} {node : Node} (hp : Good src p)
    (h : ∀ r p', Near src p p' → (∀ id, r = some id → id ≠ NIL) → Q r p') :
    wp E F (alloc node) Q p := by
  unfold alloc
  rw [wp_zoom]
  refine wp_arenaAlloc hp.arena fun r arena harena hid => h r _ ?_ hid
  exact ⟨⟨hp.pos, hp.token, harena, hp.strings, hp.steps⟩, rfl, rfl, rfl⟩

theorem wp_getNode {Q : Option Node → Parser → Prop} (hp : Good src p) (h : ∀ r, Q r p) :
    wp E F (getNode id) Q p := by
  unfold getNode
  rw [wp_zoom]
  exact wp_arenaGet hp.arena h

theorem wp_parserSetListNext {next : NodeId} (hp : Good src p)
    (h : ∀ p', Near src p p' → Q () p') : wp E F (setListNext id next) Q p := by
  unfold setListNext
  rw [wp_zoom]
  refine wp_setListNext hp.arena fun arena harena => h _ ?_
  exact ⟨⟨hp.pos, hp.token, harena ▸ hp.arena, hp.strings, hp.steps⟩, rfl, rfl, rfl⟩

theorem wp_intern {Q : Option Nat → Parser → Prop} {s : List UInt8} (hp : Good src p)
    (h : ∀ r p', Near src p p' → Q r p') : wp E F (intern s) Q p := by
  unfold intern
  rw [wp_zoom]
  refine wp_poolIntern hp.strings fun r pool hpool => h r _ ?_
  exact ⟨⟨hp.pos, hp.token, hp.arena, hpool, hp.steps⟩, rfl, rfl, rfl⟩

theorem wp_allocOrFail {Q : NodeId → Parser → Prop} {node : Node} (hp : Good src p)
    (h : ∀ id p', Near src p p' → (id = NIL → p'.error.isSome = true) → Q id p') :
    wp E F (allocOrFail node) Q p := by
  simp only [allocOrFail, wp_bind]
  refine wp_alloc hp fun r p₁ hnear hid => ?_
  cases r with
  | some id => exact h id p₁ hnear fun hnil => absurd hnil (hid id rfl)
  | none =>
    refine wp_fail hnear.good fun p₂ hnear₂ herror => h NIL p₂ ?_ fun _ => herror
    exact ⟨hnear₂.good, hnear₂.pos.trans hnear.pos, hnear₂.cur.trans hnear.cur,
      hnear₂.steps.trans hnear.steps⟩

theorem wp_internCur {Q : Option Nat → Parser → Prop} (hp : Good src p) (htext : isText p.cur.kind)
    (h : ∀ r p', Near src p p' → Q r p') : wp E F (internCur src) Q p := by
  simp only [internCur, wp_bind, wp_get]
  exact wp_slice hp.token htext (wp_intern hp h)

theorem wp_link {Q : NodeId → Parser → Prop} {head tail cell : NodeId} (hp : Good src p)
    (h : ∀ id p', Near src p p' → Q id p') : wp E F (link head tail cell) Q p := by
  simp only [link, wp_ite, wp_bind, wp_pure]
  refine ⟨fun _ => h _ _ ⟨hp, rfl, rfl, rfl⟩, fun _ => ?_⟩
  exact wp_parserSetListNext hp fun p' hnear => h _ p' hnear

theorem wp_digits {Q : Int → Parser → Prop} {text : List UInt8} {n : Int}
    (htext : ∀ b ∈ text, '0'.toUInt8 ≤ b) (h : ∀ n, Q n p) : wp E F (digits n text) Q p := by
  induction text generalizing n with
  | nil => exact h n
  | cons b text ih =>
    simp only [digits, wp_bind, wp_require]
    refine ⟨fun _ => ih fun c hc => htext c (mem_cons_of_mem _ hc), fun hsmall => ?_⟩
    exact absurd (htext b mem_cons_self) (of_decide_eq_false hsmall)

end Rules

end Parser
end PureCOS.PureL
