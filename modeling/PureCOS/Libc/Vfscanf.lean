import PureCOS.Libc.Scanf
import Mathlib.Data.List.TakeWhile

/-!
# Formatted input from a stream

`vfscanf` scans what `stdio_stream_peek` shows of a stream: the part of the buffer that has not been
read, or else what the next read of the descriptor gives.  The scan takes the end of this chunk for
the end of the input.  So it does what `vsscanf` does on everything that remains if the chunk is all
of it, and for formats whose scan stops far enough in front of the end of the chunk; a token that
goes on in the next read is cut.

The sizes of the reads are arbitrary.  Reads do not fail, and the buffer has been allocated.
-/

namespace PureCOS.Scanf

open List

open Libc (isspace)

/-! ## What a scan looks at -/

section Lookahead

variable {F : Type} {strtod : Strtod F} {c t p format : List Char} {limit : Nat}
  {accept : Char → Bool} {st : Scan F}

/-- How far a scan looks ahead, with the character that ends it. -/
def lookahead : Nat := 128

theorem takeWhile_append_of_lt (h : ((c ++ t).takeWhile accept).length < c.length) :
    (c ++ t).takeWhile accept = c.takeWhile accept := by
  rw [takeWhile_append] at h ⊢
  split
  next hall =>
    rw [if_pos hall, length_append] at h
    omega
  · rfl

theorem run_append (h : (run accept limit (c ++ t)).length < c.length) :
    run accept limit (c ++ t) = run accept limit c := by
  unfold run at h ⊢
  rw [take_append] at h ⊢
  by_cases hlimit : limit ≤ c.length
  · simp [Nat.sub_eq_zero_of_le hlimit]
  · have hall : c.take limit = c := take_of_length_le (by omega)
    rw [hall] at h ⊢
    exact takeWhile_append_of_lt h

theorem length_run_le : (run accept limit p).length ≤ p.length := by
  have htake := (takeWhile_sublist (l := p.take limit) accept).length_le
  have hlen := length_take_le' limit p
  unfold run
  omega

theorem head?_append_of_length (h : 0 < c.length) : (c ++ t).head? = c.head? := by
  cases c with
  | nil => cases h
  | cons a c => rfl

theorem marked_append (h : 3 ≤ c.length) : marked (c ++ t) = marked c := by
  obtain ⟨x, y, z, c, rfl⟩ : ∃ x y z d, c = x :: y :: z :: d := by
    match c, h with
    | x :: y :: z :: c, _ => exact ⟨x, y, z, c, rfl⟩
  by_cases hx : x = '0'
  · subst hx
    simp [marked]
  · simp [marked, hx]

theorem length_of_marked (h : marked p = true) : 3 ≤ p.length := by
  unfold marked at h
  split at h
  · simp
  · cases h

theorem signLength_le (limit : Nat) (p : List Char) :
    signLength limit p ≤ 1 ∧ signLength limit p ≤ p.length := by
  unfold signLength
  cases p with
  | nil => simp
  | cons a p =>
    split
    · simp
    · simp

theorem integerHead_le (base limit : Nat) (p : List Char) :
    integerHead base limit p ≤ 3 ∧ integerHead base limit p ≤ p.length := by
  obtain ⟨hone, hlen⟩ := signLength_le limit p
  unfold integerHead
  split
  next h =>
    have hmarked := length_of_marked (Bool.and_eq_true_iff.mp h).2
    rw [length_drop] at hmarked
    omega
  · omega

/-- Sign, mark and base are found in the first four characters. -/
theorem integer_append (base limit : Nat) (t : List Char) (h : 4 ≤ c.length) :
    integerHead base limit (c ++ t) = integerHead base limit c ∧
      integerBase base limit (c ++ t) = integerBase base limit c := by
  have hsign : signLength limit (c ++ t) = signLength limit c := by
    unfold signLength
    rw [head?_append_of_length (by omega)]
  have hone := (signLength_le limit c).1
  have hlen : 3 ≤ (c.drop (signLength limit c)).length := by
    rw [length_drop]
    omega
  have hdrop : (c ++ t).drop (signLength limit c) = c.drop (signLength limit c) ++ t :=
    drop_append_of_le_length (by omega)
  have hhex : hexadecimal base limit (c ++ t) = hexadecimal base limit c := by
    unfold hexadecimal
    rw [hsign, hdrop, marked_append hlen]
  unfold integerHead integerBase
  rw [hsign, hhex, hdrop, head?_append_of_length (by omega)]
  exact ⟨rfl, rfl⟩

theorem scanInteger_append {conv : Char} {length : Length}
    (h : (scanInteger conv length limit (c ++ t) : Taken F).used + lookahead ≤ c.length) :
    (scanInteger conv length limit (c ++ t) : Taken F) = scanInteger conv length limit c := by
  have hlong : lookahead ≤ c.length := by omega
  unfold lookahead at h hlong
  obtain ⟨hhead, hbase⟩ := integer_append (baseOf conv) limit t (show 4 ≤ c.length by omega)
  have hle := (integerHead_le (baseOf conv) limit c).1
  unfold scanInteger at h ⊢
  simp only [hhead, hbase, head?_append_of_length (show 0 < c.length by omega),
    drop_append_of_le_length (show integerHead (baseOf conv) limit c ≤ c.length by omega)] at h ⊢
  rw [run_append]
  rw [length_drop]
  split at h
  next hnil =>
    rw [hnil, length_nil]
    omega
  · dsimp only at h
    omega

theorem floatLoop_append (limit : Nat) (t : List Char) (before : Char) (h : limit ≤ c.length) :
    floatLoop limit before (c ++ t) = floatLoop limit before c := by
  induction limit generalizing before c with
  | zero => simp [floatLoop]
  | succ room ih =>
    cases c with
    | nil => simp at h
    | cons a c =>
      rw [length_cons] at h
      simp only [cons_append, floatLoop, ih a (show room ≤ c.length by omega)]

theorem length_floatLoop_le (before : Char) : (floatLoop limit before p).length ≤ p.length := by
  induction limit generalizing before p with
  | zero => simp [floatLoop]
  | succ room ih =>
    cases p with
    | nil => simp [floatLoop]
    | cons a p =>
      rw [floatLoop]
      split
      · simpa using ih a
      · simp

theorem length_floatText_le : (floatText limit p).length ≤ p.length := by
  cases p with
  | nil => simp [floatText]
  | cons a p =>
    rw [floatText]
    split
    · simpa using length_floatLoop_le a
    · exact length_floatLoop_le a

theorem floatText_append (h : lookahead ≤ c.length) :
    floatText limit (c ++ t) = floatText limit c := by
  unfold lookahead at h
  cases c with
  | nil => simp at h
  | cons a c =>
    have hloop :=
      floatLoop_append (min limit 127) t a (show min limit 127 ≤ (a :: c).length by omega)
    rw [length_cons] at h
    rw [cons_append] at hloop ⊢
    rw [floatText, floatText, floatLoop_append _ t a (by omega), hloop]

theorem scanRun_append (h : (scanRun accept limit (c ++ t) : Taken F).used < c.length) :
    (scanRun accept limit (c ++ t) : Taken F) = scanRun accept limit c := by
  unfold scanRun at h ⊢
  rw [run_append]
  split at h
  next hnil =>
    rw [hnil]
    exact h
  · exact h

theorem scanChars_append {count : Nat} (h : (scanChars count (c ++ t) : Taken F).used < c.length) :
    (scanChars count (c ++ t) : Taken F) = scanChars count c := by
  unfold scanChars at h ⊢
  split at h
  · rw [length_append] at h
    dsimp only at h
    omega
  · dsimp only at h
    rw [length_append, if_neg (by omega), if_neg (by omega), take_append_of_le_length (by omega)]

/-- What the conversions of a directive can be. -/
inductive Conversion (strtod : Strtod F) : (List Char → Taken F) → Prop where
  | integer (conv : Char) (length : Length) (limit : Nat) :
    Conversion strtod (scanInteger conv length limit)
  | float (length : Length) (limit : Nat) : Conversion strtod (scanFloat strtod length limit)
  | run (accept : Char → Bool) (limit : Nat) : Conversion strtod (scanRun accept limit)
  | chars (count : Nat) : Conversion strtod (scanChars count)
  | nothing : Conversion strtod (fun _ => .nothing)

theorem convert_cases (strtod : Strtod F) (conv : Char)
    (width : Nat) (length : Length) (format : List Char) : ∃ take format', Conversion strtod take ∧
    ∀ p, convert strtod conv width length format p = (take p, format') := by
  unfold convert
  generalize (if width = 0 then 2 ^ 64 - 1 else width) = limit
  generalize (if width = 0 then 1 else width) = count
  split_ifs
  · exact ⟨_, _, .integer conv length limit, fun _ => rfl⟩
  · exact ⟨_, _, .float length limit, fun _ => rfl⟩
  · exact ⟨_, _, .run _ limit, fun _ => rfl⟩
  · exact ⟨_, _, .chars count, fun _ => rfl⟩
  · exact ⟨_, _, .run _ limit, fun _ => rfl⟩
  · exact ⟨_, _, .nothing, fun _ => rfl⟩

/-- A conversion sees no difference if it stops far enough in front of the end. -/
theorem Conversion.append {take : List Char → Taken F} (hconv : Conversion strtod take)
    (h : (take (c ++ t)).used + lookahead ≤ c.length) :
    take (c ++ t) = take c := by
  have hpos : 0 < lookahead := by decide
  cases hconv with
  | integer conv length limit => exact scanInteger_append h
  | float length limit =>
    unfold scanFloat
    rw [floatText_append (by omega)]
  | run accept limit => exact scanRun_append (by omega)
  | chars count => exact scanChars_append (by omega)
  | nothing => rfl

/-- A conversion takes no more than there is. -/
theorem Conversion.used_le {take : List Char → Taken F} (hconv : Conversion strtod take)
    (p : List Char) : (take p).used ≤ p.length := by
  cases hconv with
  | integer conv length limit =>
    have hhead := (integerHead_le (baseOf conv) limit p).2
    unfold scanInteger
    dsimp only
    split
    · exact Nat.zero_le _
    · refine Nat.le_trans (Nat.add_le_add_left length_run_le _) ?_
      rw [length_drop]
      omega
  | float length limit =>
    unfold scanFloat
    dsimp only
    split
    · exact Nat.zero_le _
    · exact Nat.le_trans (strtod.used_le _) length_floatText_le
  | run accept limit =>
    unfold scanRun
    split
    · exact Nat.zero_le _
    · exact length_run_le
  | chars count =>
    unfold scanChars
    split
    · exact Nat.le_refl _
    next h => exact Nat.le_of_not_lt h
  | nothing => exact Nat.zero_le _

theorem conversion_position (strtod : Strtod F) (conv : Char) (suppress : Bool) (width : Nat)
    (length : Length) (format p : List Char) (st : Scan F) :
    st.position ≤ (conversion strtod conv suppress width length format p st).1.position ∧
      (conversion strtod conv suppress width length format p st).1.position ≤
      st.position + p.length := by
  obtain ⟨take, format', hconv, heq⟩ := convert_cases strtod conv width length format
  have hused := hconv.used_le p
  unfold conversion
  split
  · exact ⟨Nat.le_refl _, Nat.le_add_right _ _⟩
  · simp only [heq, Scan.add]
    omega

theorem conversion_append {conv : Char} {suppress : Bool} {width : Nat} {length : Length}
    (h : (conversion strtod conv suppress width length format (c ++ t) st).1.position + lookahead ≤
      st.position + c.length) : conversion strtod conv suppress width length format (c ++ t) st =
    conversion strtod conv suppress width length format c st := by
  have hpos : 0 < lookahead := by decide
  have hlow := (conversion_position strtod conv suppress width length format (c ++ t) st).1
  have hne : c ≠ [] := by
    rintro rfl
    rw [length_nil] at h
    omega
  obtain ⟨take, format', hconv, heq⟩ := convert_cases strtod conv width length format
  unfold conversion at h ⊢
  rw [if_neg (by simp [hne])] at h ⊢
  rw [if_neg hne]
  simp only [heq, Scan.add] at h ⊢
  rw [hconv.append (by omega)]

/-- White space that ends in front of the end. -/
theorem spaces_append (h : ((c ++ t).takeWhile isspace).length < c.length) :
    (c ++ t).takeWhile isspace = c.takeWhile isspace ∧
      (c ++ t).dropWhile isspace = c.dropWhile isspace ++ t := by
  have htake := takeWhile_append_of_lt h
  refine ⟨htake, ?_⟩
  rw [dropWhile_append, if_neg]
  intro hempty
  have hall := takeWhile_append_dropWhile (p := isspace) (l := c)
  rw [isEmpty_iff.mp hempty, append_nil] at hall
  rw [htake, hall] at h
  omega

theorem length_spaces : (p.takeWhile isspace).length + (p.dropWhile isspace).length = p.length := by
  rw [← length_append, takeWhile_append_dropWhile]

/-- A round only moves forward, and not past the end. -/
theorem scanStep_position (strtod : Strtod F) (x : Char) (format p : List Char) (st : Scan F) :
    st.position ≤ (scanStep strtod x format p st).1.position ∧
      (scanStep strtod x format p st).1.position ≤ st.position + p.length := by
  have hspaces := length_spaces (p := p)
  have hliteral : ∀ y format, st.position ≤ (literal y format p st).1.position ∧
      (literal y format p st).1.position ≤ st.position + p.length := by
    intro y format
    unfold literal
    cases p with
    | nil => simp
    | cons a p => split <;> simp
  unfold scanStep
  split
  · simp only [Scan.skip]
    omega
  split
  · exact hliteral _ _
  split
  · exact hliteral _ _
  unfold directive
  dsimp only
  split
  · exact ⟨Nat.le_refl _, Nat.le_add_right _ _⟩
  next conv rest _ =>
  split
  · split <;> exact ⟨Nat.le_refl _, Nat.le_add_right _ _⟩
  split
  · exact conversion_position _ _ _ _ _ _ _ _
  have hconv :=
    conversion_position strtod conv (parseSuppress format).1 (parseWidth 0
      (parseSuppress format).2).1 (parseLength (parseWidth 0 (parseSuppress format).2).2).1 rest
      (p.dropWhile isspace) (st.skip p)
  simp only [Scan.skip] at hconv ⊢
  omega

theorem literal_append (x : Char) (h : 0 < c.length) :
    literal x format (c ++ t) st = literal x format c st := by
  unfold literal
  rw [head?_append_of_length h]

/-- A round sees no difference if it stops far enough in front of the end. -/
theorem scanStep_append {x : Char}
    (h : (scanStep strtod x format (c ++ t) st).1.position + lookahead ≤ st.position + c.length) :
    scanStep strtod x format (c ++ t) st = scanStep strtod x format c st := by
  have hpos : 0 < lookahead := by decide
  have hlow := (scanStep_position strtod x format (c ++ t) st).1
  have hlong : 0 < c.length := by omega
  unfold scanStep at h ⊢
  by_cases hspace : isspace x = true
  · simp only [if_pos hspace, Scan.skip] at h ⊢
    rw [(spaces_append (by omega)).1]
  rw [if_neg hspace] at h ⊢
  rw [if_neg hspace, literal_append x hlong, literal_append '%' hlong]
  by_cases hpercent : x ≠ '%'
  · simp only [if_pos hpercent]
  rw [if_neg hpercent] at h ⊢
  rw [if_neg hpercent]
  by_cases htwo : format.head? = some '%'
  · simp only [if_pos htwo]
  rw [if_neg htwo] at h ⊢
  rw [if_neg htwo]
  unfold directive at h ⊢
  dsimp only at h ⊢
  split
  · rfl
  next conv rest hformat =>
  simp only [hformat] at h
  split
  · rfl
  next hn =>
  rw [if_neg hn] at h
  split
  next hc =>
    rw [if_pos hc] at h
    exact conversion_append h
  next hc =>
  rw [if_neg hc] at h
  -- the conversion begins behind the white space
  have hskip :=
    (conversion_position strtod conv (parseSuppress format).1 (parseWidth 0
      (parseSuppress format).2).1 (parseLength (parseWidth 0 (parseSuppress format).2).2).1 rest
      ((c ++ t).dropWhile isspace) (st.skip (c ++ t))).1
  have hfirst : ((c ++ t).takeWhile isspace).length < c.length := by
    simp only [Scan.skip] at h hskip
    omega
  obtain ⟨htake, hdrop⟩ := spaces_append hfirst
  have hlen := length_spaces (p := c)
  have hsame : st.skip (c ++ t) = st.skip c := by
    unfold Scan.skip
    rw [htake]
  rw [hsame, hdrop] at h ⊢
  refine conversion_append (Nat.le_trans h ?_)
  simp only [Scan.skip]
  omega

theorem scanLoop_position (strtod : Strtod F) (input : List Char) (rounds : Nat)
    (format : List Char) (st : Scan F) (h : st.position ≤ input.length) :
    st.position ≤ (scanLoop strtod input rounds format st).position ∧
      (scanLoop strtod input rounds format st).position ≤ input.length := by
  induction rounds generalizing format st with
  | zero => exact ⟨Nat.le_refl _, h⟩
  | succ rounds ih =>
    cases format with
    | nil => exact ⟨Nat.le_refl _, h⟩
    | cons x format =>
      have hstep := scanStep_position strtod x format (input.drop st.position) st
      rw [length_drop] at hstep
      rw [scanLoop]
      rcases heq : scanStep strtod x format (input.drop st.position) st with ⟨st', _ | format'⟩
      · rw [heq] at hstep
        dsimp only at hstep ⊢
        omega
      rw [heq] at hstep
      dsimp only at hstep ⊢
      have hrest := ih format' st' (by omega)
      omega

/-- Neither does the whole scan see a difference. -/
theorem scanLoop_append {rounds : Nat} (hst : st.position ≤ c.length)
    (h : (scanLoop strtod (c ++ t) rounds format st).position + lookahead ≤ c.length) :
    scanLoop strtod (c ++ t) rounds format st = scanLoop strtod c rounds format st := by
  induction rounds generalizing format st with
  | zero => rfl
  | succ rounds ih =>
    cases format with
    | nil => rfl
    | cons x format =>
      have hbound := scanStep_position strtod x format ((c ++ t).drop st.position) st
      have hdrop : (c ++ t).drop st.position = c.drop st.position ++ t :=
        drop_append_of_le_length hst
      rw [length_drop, length_append] at hbound
      rw [scanLoop] at h ⊢
      rw [scanLoop]
      -- the scan stops no earlier than this round does
      have hround : (scanStep strtod x format ((c ++ t).drop st.position) st).1.position +
          lookahead ≤ c.length := by
        rcases heq : scanStep strtod x format ((c ++ t).drop st.position) st with ⟨st', _ | format'⟩
        · rw [heq] at h
          exact h
        rw [heq] at h hbound
        have hlow := (scanLoop_position strtod (c ++ t) rounds format' st'
          (by rw [length_append]; dsimp only at hbound; omega)).1
        dsimp only at h ⊢
        omega
      have hsame : scanStep strtod x format ((c ++ t).drop st.position) st =
          scanStep strtod x format (c.drop st.position) st := by
        rw [hdrop] at hround ⊢
        refine scanStep_append ?_
        rw [length_drop]
        omega
      rw [hsame] at h hround ⊢
      rcases heq : scanStep strtod x format (c.drop st.position) st with ⟨st', _ | format'⟩
      · rfl
      · rw [heq] at h hround
        exact ih (by dsimp only at hround; omega) h

end Lookahead

/-! ## Streams -/

def scanChunk : Nat := 4096

/--
The side of a `FILE` that is read.  Of the buffer the first `length` characters; `reads` is what the
reads of the descriptor give from now on, and an empty one is the end of the file.  Output that is
pending does not matter to a scan: `stdio_stream_peek` has emptied the buffer before `fill_read`
would flush it.
-/
structure ReadStream where
  readable : Bool
  console : Bool
  hasPushed : Bool
  pushed : Char
  reading : Bool
  buffer : List Char
  position : Nat
  reads : List (List Char)

namespace ReadStream

def fillRead (s : ReadStream) : ReadStream × Bool :=
  match s.reads with
  | [] => (s, false)
  | [] :: reads => ({ s with reads := reads }, false)
  | got :: reads => ({ s with buffer := got, position := 0, reading := true, reads := reads }, true)

/-- `stdio_stream_peek` -/
def peek (s : ReadStream) (capacity : Nat) : ReadStream × List Char :=
  if s.readable = false ∨ s.hasPushed = true ∨ s.console = true then (s, [])
  else if s.reading = false ∨ s.buffer.length ≤ s.position then
    match fillRead { s with reading := false, buffer := [], position := 0 } with
    | (s, false) => (s, [])
    | (s, true) => (s, (s.buffer.drop s.position).take capacity)
  else (s, (s.buffer.drop s.position).take capacity)

/-- `stdio_stream_advance` -/
def advance (s : ReadStream) (count : Nat) : ReadStream :=
  { s with position := min (s.position + count) s.buffer.length }

/-- What is in the buffer and has not been read. -/
def unread (s : ReadStream) : List Char := if s.reading then s.buffer.drop s.position else []

/-- What remains of the stream. -/
def contents (s : ReadStream) : List Char :=
  (if s.hasPushed then [s.pushed] else []) ++ (s.unread ++ s.reads.flatten)

end ReadStream

/-- A buffer as a string ends at the first NUL. -/
def cString (chunk : List Char) : List Char := chunk.takeWhile (· != '\x00')

/-- `vfscanf`: the stream, and what `vsscanf` gives. -/
def vfscanf {F : Type} (strtod : Strtod F) (s : ReadStream) (format : List Char) :
    ReadStream × Int × List (Stored F) :=
  let (s, chunk) := s.peek scanChunk
  if chunk = [] then (s, -1, [])
  else
    let scan := scanCore strtod (cString chunk) format
    (s.advance scan.position, scan.assigned, scan.stored)

section Streams

variable {F : Type} {strtod : Strtod F} {s : ReadStream} {format : List Char}

theorem ReadStream.unread_eq_nil (h : s.reading = false ∨ s.buffer.length ≤ s.position) :
    s.unread = [] := by
  unfold unread
  rcases h with hreading | hlen
  · simp [hreading]
  · simp [drop_eq_nil_of_le hlen]

/-- What a stream shows. -/
theorem ReadStream.peek_spec (capacity : Nat) (h : (s.peek capacity).2 ≠ []) :
    (s.peek capacity).1.contents = s.contents ∧ (s.peek capacity).1.hasPushed = false ∧
      (s.peek capacity).1.reading = true ∧
      (s.peek capacity).2 = (s.peek capacity).1.unread.take capacity := by
  unfold peek at h ⊢
  split at h
  · cases h rfl
  next hready =>
  rw [if_neg hready]
  have hpushed : s.hasPushed = false := by simpa using fun hp => hready (.inr (.inl hp))
  split at h
  next hempty =>
    have hcontents : s.contents = s.reads.flatten := by
      simp [contents, hpushed, unread_eq_nil hempty]
    rw [if_pos hempty, hcontents]
    unfold fillRead at h ⊢
    rcases hreads : s.reads with _ | ⟨_ | ⟨x, got⟩, reads⟩
    · simp [hreads] at h
    · simp [hreads] at h
    · simp [contents, hpushed, unread]
  next hmore =>
    rw [if_neg hmore]
    have hreading : s.reading = true := by simpa using fun hr => hmore (.inl hr)
    simp [hpushed, hreading, unread]

/-- The characters of a chunk are passed. -/
theorem ReadStream.contents_advance {n : Nat} (hpushed : s.hasPushed = false)
    (hreading : s.reading = true) (h : n ≤ s.unread.length) :
    (s.advance n).contents = s.contents.drop n := by
  unfold unread at h
  rw [if_pos hreading, length_drop] at h
  simp only [contents, advance, unread, hpushed, hreading, if_true, Bool.false_eq_true,
    if_false, nil_append]
  rw [drop_append_of_le_length (by rw [length_drop]; omega), drop_drop]
  by_cases hin : s.position + n ≤ s.buffer.length
  · rw [Nat.min_eq_left hin]
  · rw [Nat.min_eq_right (by omega), drop_eq_nil_of_le (Nat.le_refl _),
      drop_eq_nil_of_le (by omega)]

theorem cString_eq {chunk : List Char} (h : '\x00' ∉ chunk) : cString chunk = chunk := by
  refine takeWhile_eq_self_iff.mpr fun c hc => ?_
  rw [bne_iff_ne]
  rintro rfl
  exact h hc

/-- `vfscanf` does what `vsscanf` does with all that remains, and stops where it stops. -/
def ReadStream.Agrees (strtod : Strtod F) (s : ReadStream) (format : List Char) : Prop :=
  (vfscanf strtod s format).2 = vsscanf strtod s.contents format ∧ (vfscanf strtod s
    format).1.contents = s.contents.drop (scanCore strtod s.contents format).position

/-- The buffer, or what the next read gives. -/
def ReadStream.next (s : ReadStream) : List Char :=
  if s.unread = [] then s.reads.headD [] else s.unread

/-- Something remains, and all of it is shown at once. -/
structure ReadStream.Shown (s : ReadStream) : Prop where
  console : s.console = false
  hasPushed : s.hasPushed = false
  nonempty : s.contents ≠ []
  short : s.contents.length ≤ scanChunk
  once : s.contents = s.next

theorem ReadStream.next_append (hpushed : s.hasPushed = false) :
    ∃ later, s.contents = s.next ++ later := by
  unfold contents next
  rw [hpushed]
  by_cases hunread : s.unread = []
  · rw [if_pos hunread, hunread]
    cases s.reads with
    | nil => exact ⟨[], rfl⟩
    | cons got reads => exact ⟨reads.flatten, by simp⟩
  · rw [if_neg hunread]
    exact ⟨s.reads.flatten, by simp⟩

theorem ReadStream.peek_eq (capacity : Nat) (hreadable : s.readable = true)
    (hconsole : s.console = false) (hpushed : s.hasPushed = false) :
    (s.peek capacity).2 = s.next.take capacity := by
  unfold peek next
  rw [if_neg (by simp [hreadable, hconsole, hpushed])]
  by_cases hempty : s.reading = false ∨ s.buffer.length ≤ s.position
  · rw [if_pos hempty, if_pos (unread_eq_nil hempty)]
    unfold fillRead
    rcases s.reads with _ | ⟨_ | ⟨x, got⟩, reads⟩ <;> simp
  have hmore : s.reading = true ∧ s.position < s.buffer.length := by
    rw [not_or, Nat.not_le] at hempty
    exact ⟨by simpa using hempty.1, hempty.2⟩
  have hunread : s.unread = s.buffer.drop s.position := by simp [unread, hmore.1]
  rw [if_neg hempty, if_neg (by rw [hunread, drop_eq_nil_iff]; omega), hunread]

theorem ReadStream.peek_eq_nil (capacity : Nat) (h : s.hasPushed = true ∨ s.console = true) :
    (s.peek capacity).2 = [] := by
  unfold peek
  rw [if_pos (.inr h)]

/-- All that remains is shown exactly if it is what is shown. -/
theorem ReadStream.shown_iff (hreadable : s.readable = true) :
    s.Shown ↔ (s.peek scanChunk).2 = s.contents ∧ s.contents ≠ [] := by
  constructor
  · rintro ⟨hconsole, hpushed, hnonempty, hshort, honce⟩
    rw [peek_eq scanChunk hreadable hconsole hpushed, ← honce, take_of_length_le hshort]
    exact ⟨rfl, hnonempty⟩
  rintro ⟨hpeek, hnonempty⟩
  have hready : ¬(s.hasPushed = true ∨ s.console = true) := by
    intro h
    rw [peek_eq_nil scanChunk h] at hpeek
    exact hnonempty hpeek.symm
  rw [not_or, Bool.not_eq_true, Bool.not_eq_true] at hready
  rw [peek_eq scanChunk hreadable hready.2 hready.1] at hpeek
  obtain ⟨later, hlater⟩ := next_append hready.1
  have hlen := congrArg length hpeek
  rw [length_take, hlater, length_append] at hlen
  have hnone : later = [] := length_eq_zero_iff.mp (by omega)
  rw [hnone, append_nil] at hlater
  exact ⟨hready.2, hready.1, hnonempty, by rw [hlater]; omega, hlater⟩

/-- What is shown is the beginning of what remains. -/
theorem ReadStream.peek_append (h : (s.peek scanChunk).2 ≠ []) :
    ∃ later, s.contents = (s.peek scanChunk).2 ++ later := by
  obtain ⟨hcontents, hpushed, hreading, hchunk⟩ := peek_spec scanChunk h
  rw [hchunk, ← hcontents, contents, hpushed]
  refine ⟨(s.peek scanChunk).1.unread.drop scanChunk ++ (s.peek scanChunk).1.reads.flatten, ?_⟩
  simp [← append_assoc]

theorem ReadStream.cString_peek (hnul : '\x00' ∉ s.contents) (hchunk : (s.peek scanChunk).2 ≠ []) :
    cString (s.peek scanChunk).2 = (s.peek scanChunk).2 := by
  obtain ⟨later, hlater⟩ := peek_append hchunk
  refine cString_eq fun hmem => hnul ?_
  rw [hlater]
  exact mem_append_left _ hmem

/-- The scan of the chunk decides. -/
theorem ReadStream.agrees_of_scan (hnul : '\x00' ∉ s.contents) (hchunk : (s.peek scanChunk).2 ≠ [])
    (hscan : scanCore strtod (s.peek scanChunk).2 format = scanCore strtod s.contents format) :
    s.Agrees strtod format := by
  obtain ⟨hcontents, hpushed, hreading, hshown⟩ := peek_spec scanChunk hchunk
  have hposition : (scanCore strtod s.contents format).position ≤
      (s.peek scanChunk).1.unread.length := by
    have hbound :=
      (scanLoop_position strtod (s.peek scanChunk).2 format.length format {} (Nat.zero_le _)).2
    have hlen := congrArg length hshown
    rw [length_take] at hlen
    rw [← hscan]
    exact Nat.le_trans hbound (by omega)
  unfold Agrees vfscanf
  simp only [if_neg hchunk, cString_peek hnul hchunk, hscan, vsscanf, true_and]
  rw [contents_advance hpushed hreading hposition, hcontents]

/-- A format of conversions of single characters. -/
def singles (n : Nat) : List Char := (replicate n ['%', 'c']).flatten

/-- Such a format takes one character after the other, up to the end. -/
theorem scanLoop_singles (input : List Char) (n rounds : Nat) (st : Scan F) (hrounds : n ≤ rounds)
    (hinput : st.position < input.length ∨ st.anyInput = true) :
    (scanLoop strtod input rounds (singles n) st).assigned =
      st.assigned + (min n (input.length - st.position) : Nat) := by
  induction n generalizing rounds st with
  | zero => cases rounds <;> simp [singles, scanLoop]
  | succ n ih =>
    obtain ⟨rounds, rfl⟩ : ∃ r, rounds = r + 1 := ⟨rounds - 1, by omega⟩
    have hformat : singles (n + 1) = '%' :: 'c' :: singles n := by simp [singles, replicate_succ]
    have hstep : ∀ p, scanStep strtod '%' ('c' :: singles n) p st =
        conversion strtod 'c' false 0 .int (singles n) p st := by
      intro p
      rfl
    rw [hformat, scanLoop, hstep]
    by_cases hend : st.position < input.length
    · have hne : input.drop st.position ≠ [] := by
        rw [ne_eq, drop_eq_nil_iff]
        omega
      have htaken : conversion strtod 'c' false 0 .int (singles n) (input.drop st.position) st =
          (st.add false ⟨1, some (.chars ((input.drop st.position).take 1)), true⟩,
          some (singles n)) := by
        have hlen : input.length - st.position ≠ 0 := by omega
        unfold conversion
        rw [if_neg hne]
        simp [convert, scanChars, hlen]
      rw [htaken]
      rw [ih rounds _ (by omega) (.inr (by simp [Scan.add]))]
      simp only [Scan.add]
      simp only [Bool.not_false, Bool.and_self, if_true]
      omega
    · have hnil : input.drop st.position = [] := drop_eq_nil_of_le (by omega)
      have hany := hinput.resolve_left hend
      have hzero : min (n + 1) (input.length - st.position) = 0 := by omega
      simp [conversion, hnil, hany, hzero]

theorem scanCore_singles (input : List Char) (n : Nat) (h : input ≠ []) :
    (scanCore strtod input (singles n)).assigned = (min n input.length : Nat) := by
  have hlen : n ≤ (singles n).length := by
    simp [singles]
    omega
  unfold scanCore
  rw [scanLoop_singles input n _ _ hlen (.inl (length_pos_iff.mpr h))]
  simp

end Streams

/--
Formatted input and buffering.  On a readable stream without NUL characters, `vfscanf` does the same
as `vsscanf` on all that remains, for every format, exactly if something remains and all of it is
shown at once: the stream is not the console, nothing has been pushed back, and at most 4096
characters are all in the buffer or, if that is empty, come with the next read.  For a single format
it is also enough that the scan of all that remains stops 128 characters in front of the end of what
is shown.
-/
theorem vfscanf_agrees_iff
    {F : Type}
    (strtod : Strtod F)
    (s : ReadStream)
    (hreadable : s.readable = true)
    (hnul : '\x00' ∉ s.contents) :
    ((∀ format, s.Agrees strtod format) ↔ s.Shown) ∧
    ∀ format,
      (scanCore strtod s.contents format).position + lookahead ≤ (s.peek scanChunk).2.length →
      s.Agrees strtod format := by
  refine ⟨?_, fun format hstop => ?_⟩
  · rw [ReadStream.shown_iff hreadable]
    constructor
    · intro hall
      -- the empty format tells an empty chunk
      have hchunk : (s.peek scanChunk).2 ≠ [] := by
        intro hnil
        have hempty := congrArg Prod.fst (hall []).1
        simp [vfscanf, hnil, vsscanf, scanCore, scanLoop] at hempty
      obtain ⟨later, hlater⟩ := ReadStream.peek_append hchunk
      have hcontents : s.contents ≠ [] := by
        rw [hlater]
        simp [hchunk]
      -- one conversion more than there are characters in the chunk
      have hcount := congrArg Prod.fst (hall (singles ((s.peek scanChunk).2.length + 1))).1
      simp only [vfscanf, if_neg hchunk, ReadStream.cString_peek hnul hchunk, vsscanf,
        scanCore_singles _ _ hchunk, scanCore_singles _ _ hcontents] at hcount
      have hlen := congrArg length hlater
      rw [length_append] at hlen
      have hnone : later = [] := length_eq_zero_iff.mp (by omega)
      rw [hnone, append_nil] at hlater
      exact ⟨hlater.symm, hcontents⟩
    · rintro ⟨hpeek, hnonempty⟩ format
      exact ReadStream.agrees_of_scan hnul (by rwa [hpeek]) (by rw [hpeek])
  · have hchunk : (s.peek scanChunk).2 ≠ [] := by
      rw [← length_pos_iff]
      have hpos : 0 < lookahead := by decide
      omega
    obtain ⟨later, hlater⟩ := ReadStream.peek_append hchunk
    refine ReadStream.agrees_of_scan hnul hchunk ?_
    rw [hlater] at hstop ⊢
    exact (scanLoop_append (Nat.zero_le _) hstop).symm

/-- Without floating point. -/
def noFloats : Strtod Unit := ⟨fun _ => (), fun _ => 0, fun _ => Nat.zero_le _⟩

/-- A stream that has the whole line in its buffer. -/
def wholeLine : ReadStream := ⟨true, false, false, ' ', true, "12 34\n".toList, 0, []⟩

theorem vfscanf_agrees_iff_wholeLine :
    (∀ format, wholeLine.Agrees noFloats format) ∧ wholeLine.contents = "12 34\n".toList :=
  ⟨(vfscanf_agrees_iff noFloats wholeLine rfl (by decide)).1.mpr ⟨rfl, rfl, by decide, by decide,
    by decide⟩, rfl⟩

/--
With `12` in the buffer and `34` in the next read, `%d` reads 12 and not 1234.  A character that was
pushed back makes every format fail.
-/
theorem vfscanf_cuts_tokens :
    (vfscanf noFloats ⟨true, false, false, ' ', true, "12".toList, 0, ["34".toList]⟩
      "%d".toList).2 = (1, [.integer 32 12]) ∧
    vsscanf noFloats "1234".toList "%d".toList = (1, [.integer 32 1234]) ∧
    (vfscanf noFloats ⟨true, false, true, '1', true, "2".toList, 0, []⟩ "%d".toList).2 = (-1, []) ∧
    vsscanf noFloats "12".toList "%d".toList = (1, [.integer 32 12]) := by
  refine ⟨by decide, by decide, by decide, by decide⟩

end PureCOS.Scanf
