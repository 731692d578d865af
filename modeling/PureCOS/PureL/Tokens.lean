import PureCOS.PureL.Lexer

/-!
# PureL: where tokens end

In a UTF-8 text a byte below 128 is a character of its own, so a token that starts and ends with
such bytes can be cut out of it.  A string token may also end where the text ends.
-/

namespace PureCOS.PureL

open List

variable {src rest : List UInt8} {pos start : Nat} {b c : UInt8}

/-! ## Encoded texts -/

/-- No character starts with a continuation, and none is continued after a byte below 128. -/
structure Encoded (src : List UInt8) : Prop where
  first : ∀ b : UInt8, src[0]? = some b → isContinuation b = false
  after : ∀ (k : Nat) (a b : UInt8), src[k]? = some a → a < 0x80 → src[k + 1]? = some b →
    isContinuation b = false

theorem encoded_nil : Encoded [] := ⟨nofun, nofun⟩

theorem Encoded.cons (hrest : Encoded rest) (hb : isContinuation b = false) :
    Encoded (b :: rest) := by
  refine ⟨fun d hd => Option.some.inj hd ▸ hb, fun k a d ha hsmall hd => ?_⟩
  cases k with
  | zero => exact hrest.first d hd
  | succ k => exact hrest.after k a d ha hsmall hd

/-- Bytes from 128 on in front of a text. -/
theorem after_append {wide : List UInt8} (hrest : Encoded rest) (hwide : ∀ d ∈ wide, ¬d < 0x80)
    (k : Nat) (a d : UInt8) (ha : (wide ++ rest)[k]? = some a) (hsmall : a < 0x80)
    (hd : (wide ++ rest)[k + 1]? = some d) : isContinuation d = false := by
  induction wide generalizing k with
  | nil => exact hrest.after k a d ha hsmall hd
  | cons w wide ih =>
    cases k with
    | zero => exact absurd hsmall (Option.some.inj ha ▸ hwide w mem_cons_self)
    | succ k => exact ih (fun e he => hwide e (mem_cons_of_mem _ he)) k ha hd

theorem isContinuation_ofNat {v : Nat} (hv : v < 256) (h : v < 0x80 ∨ 0xC0 ≤ v) :
    isContinuation (UInt8.ofNat v) = false := by
  simp [isContinuation, UInt8.le_iff_toNat_le, UInt8.lt_iff_toNat_lt]
  omega

theorem not_ofNat_lt {v : Nat} (hv : v < 256) (h : 0x80 ≤ v) : ¬UInt8.ofNat v < 0x80 := by
  simp [UInt8.lt_iff_toNat_lt]
  omega

/-- A character is one byte, or bytes from 128 on of which the first is not a continuation. -/
theorem utf8EncodeChar_cases (c : Char) :
    (∃ b, String.utf8EncodeChar c = [b] ∧ isContinuation b = false) ∨ ∃ b bs,
      String.utf8EncodeChar c = b :: bs ∧ isContinuation b = false ∧ ∀ d ∈ b :: bs, ¬d < 0x80 := by
  unfold String.utf8EncodeChar
  generalize c.val.toNat = v
  dsimp only
  split
  next hv => exact .inl ⟨_, rfl, isContinuation_ofNat (by omega) (by omega)⟩
  right
  have hmid : ∀ n : Nat, ¬UInt8.ofNat (n % 64 + 128) < 0x80 :=
    fun n => not_ofNat_lt (by omega) (by omega)
  split
  · refine ⟨_, _, rfl, isContinuation_ofNat (by omega) (by omega), ?_⟩
    simp only [forall_mem_cons, not_mem_nil, false_imp_iff, implies_true, and_true]
    exact ⟨not_ofNat_lt (by omega) (by omega), hmid _⟩
  split
  · refine ⟨_, _, rfl, isContinuation_ofNat (by omega) (by omega), ?_⟩
    simp only [forall_mem_cons, not_mem_nil, false_imp_iff, implies_true, and_true]
    exact ⟨not_ofNat_lt (by omega) (by omega), hmid _, hmid _⟩
  · refine ⟨_, _, rfl, isContinuation_ofNat (by omega) (by omega), ?_⟩
    simp only [forall_mem_cons, not_mem_nil, false_imp_iff, implies_true, and_true]
    exact ⟨not_ofNat_lt (by omega) (by omega), hmid _, hmid _, hmid _⟩

theorem encoded_encode (text : List Char) : Encoded (encode text) := by
  induction text with
  | nil => exact encoded_nil
  | cons c text ih =>
    show Encoded (String.utf8EncodeChar c ++ encode text)
    rcases utf8EncodeChar_cases c with ⟨b, hb, hfirst⟩ | ⟨b, bs, hb, hfirst, hwide⟩
    · rw [hb]
      exact ih.cons hfirst
    · rw [hb]
      refine ⟨fun d hd => Option.some.inj hd ▸ hfirst, ?_⟩
      exact after_append ih hwide

/-! ## Boundaries -/

theorem Encoded.boundary_of_small (hsrc : Encoded src) (h : src[pos]? = some b) (hb : b < 0x80) :
    isCharBoundary src (pos + 1) = true := by
  unfold isCharBoundary
  split
  next d hd =>
    rw [hsrc.after pos b d h hb hd]
    simp
  next hnone =>
    have hle := List.getElem?_eq_none_iff.mp hnone
    have hlt := (List.getElem?_eq_some_iff.mp h).1
    simp only [beq_iff_eq]
    omega

theorem boundary_at_small (h : src[pos]? = some b) (hb : b < 0x80) :
    isCharBoundary src pos = true := by
  have hcont : isContinuation b = false := by
    simp only [isContinuation, Bool.and_eq_false_iff, decide_eq_false_iff_not]
    exact .inl (UInt8.not_le.mpr hb)
  unfold isCharBoundary
  rw [h]
  simp [hcont]

theorem boundary_length : isCharBoundary src src.length = true := by
  unfold isCharBoundary
  rw [getElem?_eq_none (Nat.le_refl _)]
  exact beq_self_eq_true _

/-! ## Tokens -/

/-- The kinds of tokens that the parser cuts out of the text. -/
def isText (kind : TokenKind) : Prop := kind = .ident ∨ kind = .number ∨ kind = .string

/-- A token can be cut out; a number has digits only, and a string starts with a quote. -/
structure TokenOk (src : List UInt8) (t : Token) : Prop where
  sliceable : isText t.kind → sliceable src t.start (t.start + t.len) = true
  digits : t.kind = .number → ∀ b ∈ cut src t.start (t.start + t.len), '0'.toUInt8 ≤ b
  quote : t.kind = .string → src[t.start]? = some '"'.toUInt8

theorem not_isText_eof : ¬isText .eof := by
  unfold isText
  decide

/-- A token of another kind is not cut. -/
theorem tokenOk_of_not_text {t : Token} (h : ¬isText t.kind) : TokenOk src t :=
  ⟨fun htext => absurd htext h, fun hnum => absurd (.inr (.inl hnum)) h,
    fun hstring => absurd (.inr (.inr hstring)) h⟩

theorem isDigit_lt (h : isDigit c = true) : c < 0x80 := by
  simp only [isDigit, Bool.and_eq_true, decide_eq_true_eq] at h
  exact UInt8.lt_of_le_of_lt h.2 (by decide)

theorem isIdentPart_lt (h : isIdentPart c = true) : c < 0x80 := by
  unfold isIdentPart isIdentStart at h
  rw [Bool.or_eq_true] at h
  rcases h with h | h
  · simp only [Bool.or_eq_true, Bool.and_eq_true, decide_eq_true_eq, beq_iff_eq] at h
    rcases h with (h | h) | h
    · exact UInt8.lt_of_le_of_lt h.2 (by decide)
    · exact UInt8.lt_of_le_of_lt h.2 (by decide)
    · rw [h]
      decide
  · exact isDigit_lt h

/-- Where a token starts, and what follows. -/
structure StartsAt (src : List UInt8) (start : Nat) (c : UInt8) (rest : List UInt8) : Prop where
  drop : src.drop start = c :: rest

theorem StartsAt.getElem (h : StartsAt src start c rest) (k : Nat) :
    src[start + k]? = (c :: rest)[k]? := by
  rw [← h.drop, getElem?_drop]

theorem StartsAt.length (h : StartsAt src start c rest) : src.length = start + 1 + rest.length := by
  have hlen := congrArg List.length h.drop
  rw [List.length_drop, List.length_cons] at hlen
  omega

theorem StartsAt.sliceable_of (h : StartsAt src start c rest) {n : Nat} (hc : c < 0x80)
    (hn : n ≤ rest.length) (hlast : isCharBoundary src (start + (1 + n)) = true) :
    sliceable src start (start + (1 + n)) = true := by
  have hlen := h.length
  have hfirst : isCharBoundary src start = true := boundary_at_small (h.getElem 0) hc
  unfold sliceable
  simp only [hfirst, hlast, Bool.and_true, Bool.and_eq_true, decide_eq_true_eq]
  omega

/-- A run of small bytes can be cut out. -/
theorem StartsAt.sliceable_takeWhile (hsrc : Encoded src) (h : StartsAt src start c rest)
    {f : UInt8 → Bool} (hf : ∀ b, f b = true → b < 0x80) (hc : c < 0x80) :
    sliceable src start (start + (1 + (rest.takeWhile f).length)) = true := by
  refine h.sliceable_of hc ( takeWhile_prefix f).length_le ?_
  cases hn : (rest.takeWhile f).length with
  | zero => exact hsrc.boundary_of_small (h.getElem 0) hc
  | succ k =>
    have hk : k < (rest.takeWhile f).length := by omega
    have hget : rest[k]? = some (rest.takeWhile f)[k] := by
      conv => lhs; rw [← takeWhile_append_dropWhile (p := f) (l := rest)]
      rw [getElem?_append_left hk, getElem?_eq_getElem hk]
    have hsmall := hf _ (all_eq_true.mp all_takeWhile _ (getElem_mem hk))
    have hat : src[start + (k + 1)]? = some (rest.takeWhile f)[k] := (h.getElem (k + 1)).trans hget
    have hbound := hsrc.boundary_of_small hat hsmall
    rw [Nat.add_assoc, Nat.add_comm (k + 1)] at hbound
    exact hbound

theorem StartsAt.cut (h : StartsAt src start c rest) (n : Nat) :
    cut src start (start + (1 + n)) = c :: rest.take n := by
  unfold PureL.cut
  rw [h.drop, Nat.add_sub_cancel_left, Nat.add_comm, take_succ_cons]

/-- A string ends with a quote, or where the text ends. -/
theorem stringRest_cases (rest : List UInt8) : stringRest rest = rest.length ∨
    ∃ k, stringRest rest = k + 1 ∧ rest[k]? = some '"'.toUInt8 := by
  induction rest using stringRest.induct with
  | case1 => exact .inl rfl
  | case2 c => exact .inl rfl
  | case3 d rest => exact .inr ⟨0, rfl, rfl⟩
  | case4 d rest hquote ih =>
    rw [stringRest, if_neg hquote, if_pos rfl]
    rcases ih with hend | ⟨k, hk, hget⟩
    · left
      rw [hend, length_cons, length_cons]
      omega
    · exact .inr ⟨k + 2, by omega, hget⟩
  | case5 c d rest hquote hescape ih =>
    rw [stringRest, if_neg hquote, if_neg hescape]
    rcases ih with hend | ⟨k, hk, hget⟩
    · left
      rw [hend, length_cons, length_cons, length_cons]
      omega
    · exact .inr ⟨k + 1, by omega, hget⟩

theorem stringRest_le (rest : List UInt8) : stringRest rest ≤ rest.length := by
  rcases stringRest_cases rest with hend | ⟨k, hk, hget⟩
  · exact Nat.le_of_eq hend
  · have hlt := (List.getElem?_eq_some_iff.mp hget).1
    omega

theorem StartsAt.sliceable_string (hsrc : Encoded src) (h : StartsAt src start '"'.toUInt8 rest) :
    sliceable src start (start + (1 + stringRest rest)) = true := by
  refine h.sliceable_of (by decide) (stringRest_le rest) ?_
  rcases stringRest_cases rest with hend | ⟨k, hk, hget⟩
  · have hlen := h.length
    rw [hend, ← Nat.add_assoc, ← hlen]
    exact boundary_length
  have hat : src[start + (k + 1)]? = some '"'.toUInt8 := (h.getElem (k + 1)).trans hget
  have hbound := hsrc.boundary_of_small hat (by decide)
  rw [hk, Nat.add_comm 1]
  exact hbound

/-! ## The next token -/

/--
A token is fine, and the lexer is behind it; an end of the text is the only token without a byte.
-/
structure NextOk (src : List UInt8) (pos : Nat) (t : Token × Nat) : Prop where
  token : TokenOk src t.1
  pos_le : pos ≤ t.2
  le_length : t.2 ≤ src.length
  moves : t.1.kind ≠ .eof → pos < t.2

theorem wordKind_ne (word : List UInt8) : wordKind word ≠ .number ∧ wordKind word ≠ .string := by
  unfold wordKind
  split
  next k hfind =>
    have hmem := mem_of_find?_eq_some hfind
    have hall : ∀ k ∈ keywords, k.2 ≠ .number ∧ k.2 ≠ .string := by decide
    exact hall k hmem
  · exact ⟨nofun, nofun⟩

theorem single_not_text {kind : TokenKind} (h : single c = some kind) : ¬isText kind := by
  unfold single at h
  unfold isText
  repeat' split at h
  all_goals
    cases h
    all_goals decide

theorem StartsAt.withEq (h : StartsAt src start c rest) {longer shorter : TokenKind}
    (hlonger : ¬isText longer) (hshorter : ¬isText shorter) :
    NextOk src start (withEq rest start longer shorter) := by
  have hlen := h.length
  unfold PureL.withEq
  split
  next hhead =>
    have hpos : 0 < rest.length := by
      rcases rest with _ | ⟨d, rest⟩
      · cases hhead
      · exact Nat.succ_pos _
    exact ⟨tokenOk_of_not_text hlonger, by simp, by simp only; omega, fun _ => by simp⟩
  · exact ⟨tokenOk_of_not_text hshorter, by simp, by simp only; omega, fun _ => by simp⟩

theorem StartsAt.tokenFrom (hsrc : Encoded src) (h : StartsAt src start c rest) :
    NextOk src start (tokenFrom c rest start) := by
  have hlen := h.length
  unfold PureL.tokenFrom
  split
  next kind hsingle =>
    exact ⟨tokenOk_of_not_text (single_not_text hsingle), by simp, by simp only; omega,
      fun _ => by simp⟩
  · split
    · exact h.withEq (by unfold isText; decide) (by unfold isText; decide)
    split
    · exact h.withEq (by unfold isText; decide) (by unfold isText; decide)
    split
    · exact h.withEq (by unfold isText; decide) (by unfold isText; decide)
    split
    · exact h.withEq (by unfold isText; decide) (by unfold isText; decide)
    split
    next hquote =>
      subst hquote
      have hle := stringRest_le rest
      refine ⟨⟨fun _ => h.sliceable_string hsrc, nofun, fun _ => h.getElem 0⟩, ?_, ?_, fun _ => ?_⟩
      · simp
      · simp only
        omega
      · simp only
        omega
    split
    next hdigit =>
      have hle := ( takeWhile_prefix (l := rest) isDigit).length_le
      refine ⟨⟨fun _ => h.sliceable_takeWhile hsrc (fun b => isDigit_lt) (isDigit_lt hdigit),
        fun _ b hb => ?_, nofun⟩, ?_, ?_, fun _ => ?_⟩
      · rw [h.cut] at hb
        have hdig : isDigit b = true := by
          rcases mem_cons.mp hb with rfl | hb
          · exact hdigit
          have htake : rest.take (rest.takeWhile isDigit).length = rest.takeWhile isDigit :=
            (prefix_iff_eq_take.mp ( takeWhile_prefix isDigit)).symm
          rw [htake] at hb
          exact all_eq_true.mp all_takeWhile b hb
        simp only [isDigit, Bool.and_eq_true, decide_eq_true_eq] at hdig
        exact hdig.1
      · simp
      · simp only
        omega
      · simp only
        omega
    split
    next hident =>
      have hle := ( takeWhile_prefix (l := rest) isIdentPart).length_le
      have hpart : isIdentPart c = true := by
        unfold isIdentPart
        rw [hident, Bool.true_or]
      have hkind := wordKind_ne ((c :: rest).take (1 + (rest.takeWhile isIdentPart).length))
      refine ⟨⟨fun _ => h.sliceable_takeWhile hsrc (fun b => isIdentPart_lt) (isIdentPart_lt hpart),
        fun hnum => ?_, fun hstring => ?_⟩, ?_, ?_, fun _ => ?_⟩
      · exact absurd hnum hkind.1
      · exact absurd hstring hkind.2
      · simp
      · simp only
        omega
      · simp only
        omega
    · exact ⟨tokenOk_of_not_text not_isText_eof, by simp, by simp only; omega,
        fun hne => absurd rfl hne⟩

theorem spaces_le (comment : Bool) (rest : List UInt8) : spaces comment rest ≤ rest.length := by
  induction rest generalizing comment with
  | nil => cases comment <;> exact Nat.le_refl _
  | cons c rest ih =>
    have hspace := ih false
    have hcomment := ih true
    rw [length_cons]
    cases comment with
    | false =>
      unfold spaces
      split
      · omega
      · split <;> omega
    | true =>
      unfold spaces
      split <;> omega

theorem nextToken_ok (hsrc : Encoded src) (hpos : pos ≤ src.length) :
    NextOk src pos (nextToken src pos) := by
  have hspaces := spaces_le false (src.drop pos)
  rw [length_drop] at hspaces
  unfold nextToken
  generalize hstart : pos + spaces false (src.drop pos) = start
  dsimp only
  split
  · exact ⟨tokenOk_of_not_text not_isText_eof, by simp only; omega, by simp only; omega,
      fun hne => absurd rfl hne⟩
  next c rest hdrop =>
    obtain ⟨htoken, hle, hlen, hmoves⟩ := (StartsAt.mk hdrop).tokenFrom hsrc
    exact ⟨htoken, by omega, hlen, fun hkind => Nat.lt_of_le_of_lt (by omega) (hmoves hkind)⟩

end PureCOS.PureL
