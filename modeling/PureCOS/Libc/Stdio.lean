import PureCOS.Lib.ByteFile
import PureCOS.Lib.Run

/-!
# Buffered streams

`libc/stdio.c`: one buffer holds either bytes that have been read ahead or bytes that still have to
be written, and one byte can be pushed back beside it.  The descriptor behind a stream is an open
file; its reads and writes are complete and do not fail.  The stream is not the console.

A plain stream has no buffer: it is an open file with at most one byte pushed back.  A stream shows
what a plain stream shows, except that a byte which was pushed back while nothing had been read
ahead survives a write.
-/

namespace PureCOS.Libc

open List Run OpenFile

def bufsiz : Nat := 4096

/-- `struct file_impl`; of the buffer only the first `length` bytes. -/
structure Stream where
  fd : OpenFile
  buffer : List Byte
  position : Nat
  readable : Bool
  writable : Bool
  eof : Bool
  error : Bool
  unbuffered : Bool
  lineBuffered : Bool
  reading : Bool
  writing : Bool
  pushed : Byte
  hasPushed : Bool

def streamCreate (fd : OpenFile) (readable writable : Bool) : Stream where
  fd := fd
  buffer := []
  position := 0
  readable := readable
  writable := writable
  eof := false
  error := false
  unbuffered := false
  lineBuffered := false
  reading := false
  writing := false
  pushed := 0
  hasPushed := false

variable (s : Stream)

/-- `setvbuf`; the modes are `_IOFBF`, `_IOLBF` and `_IONBF`. -/
def Stream.setvbuf (unbuffered lineBuffered : Bool) : Stream :=
  { s with unbuffered := unbuffered, lineBuffered := lineBuffered }

/-- Bytes that have been read ahead. -/
def Stream.unread : Nat := s.buffer.length - s.position

def Stream.flushWrite : Stream :=
  if s.writing then { s with fd := s.fd.write s.buffer, buffer := [], writing := false } else s

def Stream.dropRead : Stream :=
  if s.reading then
    { s with
      fd := (s.fd.seek (-(s.unread : Int)) .seekCur).getD s.fd
      reading := false
      buffer := []
      position := 0 }
  else s

/-- `fill_read`; the buffer has been allocated. -/
def Stream.fillRead : Stream × Bool :=
  let s := s.flushWrite
  if s.fd.ahead bufsiz = [] then
    ({ s with fd := s.fd.read bufsiz, eof := true }, false)
  else
    ({ s with fd := s.fd.read bufsiz, buffer := s.fd.ahead bufsiz, position := 0, reading := true },
      true)

/-- The buffer is forgotten. -/
def Stream.exhausted : Stream := { s with reading := false, buffer := [], position := 0 }

def Stream.fseek (offset : Int) (origin : Origin) : Stream × Bool :=
  let s := s.flushWrite
  let adjust : Int :=
    if origin = .seekCur then
      (if s.reading then -(s.unread : Int) else 0) + (if s.hasPushed then -1 else 0)
    else 0
  match s.fd.seek (offset + adjust) origin with
  | some fd => ({ s.exhausted with fd := fd, eof := false, hasPushed := false }, true)
  | none => (s, false)

def Stream.ftell : Int :=
  (s.fd.pos : Int) + (if s.writing then (s.buffer.length : Int) else 0) -
    (if s.reading then (s.unread : Int) else 0) - (if s.hasPushed then 1 else 0)

/-- `stream->buffer[stream->position++]` -/
def Stream.next : Stream × Option Byte :=
  ({ s with position := s.position + 1 }, some (s.buffer.getD s.position 0))

/-- `fgetc`; `EOF` is `none`. -/
def Stream.fgetc : Stream × Option Byte :=
  if s.readable = false then
    ({ s with error := true }, none)
  else if s.hasPushed then
    ({ s with hasPushed := false }, some s.pushed)
  else if s.reading = true ∧ s.position < s.buffer.length then
    s.next
  else
    match (if s.reading then s.exhausted else s).fillRead with
    | (s, true) => s.next
    | (s, false) => (s, none)

/-- What a write does first. -/
def Stream.startWrite : Stream :=
  if s.reading then { s.dropRead with hasPushed := false } else s

/-- A full buffer is written. -/
def Stream.makeRoom : Stream := if bufsiz ≤ s.buffer.length then s.flushWrite else s

/-- Bytes are put into the buffer. -/
def Stream.put (bytes : List Byte) : Stream :=
  { s with buffer := s.buffer ++ bytes, writing := true }

def Stream.fputc (value : Int) : Stream × Option Byte :=
  if s.writable = false then
    ({ s with error := true }, none)
  else
    let c : Byte := BitVec.ofInt 8 value
    let s := s.startWrite
    if s.unbuffered then
      ({ s with fd := s.fd.write [c] }, some c)
    else
      let s := s.makeRoom.put [c]
      (if s.lineBuffered = true ∧ c = 10 then s.flushWrite else s, some c)

def Stream.ungetc (value : Int) : Stream × Option Byte :=
  if value = -1 then (s, none)
  else if s.readable = false ∨ s.hasPushed = true then (s, none)
  else ({ s with pushed := BitVec.ofInt 8 value, hasPushed := true, eof := false },
    some (BitVec.ofInt 8 value))

/-- After `fill_read` there is something to take. -/
theorem Stream.fillRead_true {s : Stream} (h : s.fillRead.2 = true) :
    s.fillRead.1.reading = true ∧ s.fillRead.1.position < s.fillRead.1.buffer.length := by
  unfold fillRead at h ⊢
  by_cases hend : s.flushWrite.fd.ahead bufsiz = []
  · simp only [if_pos hend] at h
    cases h
  · simp only [if_neg hend]
    exact ⟨trivial, length_pos_iff.mpr hend⟩

/-- What the loop of `fread` does when the buffer has nothing more. -/
def Stream.emptied : Stream := s.exhausted.flushWrite

/-- The loop of `fread`, with what it has got and what it still wants. -/
def Stream.freadLoop (s : Stream) (got : List Byte) (left : Nat) : Stream × List Byte :=
  if left = 0 then
    (s, got)
  else if s.reading = true ∧ s.position < s.buffer.length then
    ({ s with position := s.position + min left s.unread } : Stream).freadLoop
      (got ++ (s.buffer.drop s.position).take (min left s.unread)) (left - min left s.unread)
  else
    if bufsiz ≤ left then
      if s.emptied.fd.ahead left = [] then
        ({ s.emptied with fd := s.emptied.fd.read left, eof := true }, got)
      else
        ({ s.emptied with fd := s.emptied.fd.read left } : Stream).freadLoop
          (got ++ s.emptied.fd.ahead left) (left - (s.emptied.fd.ahead left).length)
    else
      if s.emptied.fillRead.2 = true then s.emptied.fillRead.1.freadLoop got left
      else (s.emptied.fillRead.1, got)
termination_by (left, if s.reading = true ∧ s.position < s.buffer.length then 0 else 1)
decreasing_by
  next hleft hmore =>
    apply Prod.Lex.left
    unfold Stream.unread
    omega
  next hleft _ _ hsome =>
    apply Prod.Lex.left
    have hpos := length_pos_iff.mpr hsome
    omega
  next _ hnone _ hfill =>
    rw [if_pos (Stream.fillRead_true hfill), if_neg hnone]
    exact Prod.Lex.right _ Nat.zero_lt_one

/-- `fread` of `n` bytes: a byte pushed back comes first. -/
def Stream.freadBytes (n : Nat) : Stream × List Byte :=
  if s.hasPushed then ({ s with hasPushed := false } : Stream).freadLoop [s.pushed] (n - 1)
  else s.freadLoop [] n

/-- `fread`: the bytes in the caller's buffer and the result -/
def Stream.fread (size count : Nat) : Stream × List Byte × Nat :=
  if size = 0 ∨ count = 0 then
    (s, [], 0)
  else if s.readable = false then
    ({ s with error := true }, [], 0)
  else
    let r := s.freadBytes (size * count)
    (r.1, r.2, r.2.length / size)

/--
The loop of `fwrite`; every pass takes a byte at least, so as many passes as bytes are enough.
-/
def Stream.fwriteLoop (s : Stream) : Nat → List Byte → Stream
  | 0, _ => s
  | passes + 1, bytes =>
    if bytes = [] then
      s
    else
      let room := bufsiz - s.makeRoom.buffer.length
      (s.makeRoom.put (bytes.take room)).fwriteLoop passes (bytes.drop room)

/-- The arguments of `fwrite`. -/
structure Items where
  size : Nat
  count : Nat
  bytes : List Byte
  fits : bytes.length = size * count

def Stream.fwrite (items : Items) : Stream × Nat :=
  if items.size = 0 ∨ items.count = 0 then
    (s, 0)
  else if s.writable = false then
    ({ s with error := true }, 0)
  else
    let s := s.startWrite
    if s.unbuffered = true ∨ bufsiz ≤ items.bytes.length then
      let s := s.flushWrite
      ({ s with fd := s.fd.write items.bytes }, items.count)
    else
      let s := s.fwriteLoop items.bytes.length items.bytes
      (if s.lineBuffered = true ∧ 10 ∈ items.bytes then s.flushWrite else s, items.count)

/-- `fclose`: the contents of the file -/
def Stream.fclose : List Byte := s.flushWrite.fd.bytes

inductive Call where
  | fread (size count : Nat)
  | fgetc
  | ungetc (value : Int)
  | fwrite (items : Items)
  | fputc (value : Int)
  | fseek (offset : Int) (origin : Origin)
  | ftell
  | fflush

/-- What a call returns. -/
inductive Shown where
  | items (bytes : List Byte) (count : Nat)
  | char (c : Option Byte)
  | count (n : Nat)
  | done (ok : Bool)
  | position (p : Int)
deriving DecidableEq

/-- A call on a stream. -/
def Stream.step (s : Stream) : Call → Stream × List Shown
  | .fread size count =>
    ((s.fread size count).1, [.items (s.fread size count).2.1 (s.fread size count).2.2])
  | .fgetc => (s.fgetc.1, [.char s.fgetc.2])
  | .ungetc value => ((s.ungetc value).1, [.char (s.ungetc value).2])
  | .fwrite items => ((s.fwrite items).1, [.count (s.fwrite items).2])
  | .fputc value => ((s.fputc value).1, [.char (s.fputc value).2])
  | .fseek offset origin => ((s.fseek offset origin).1, [.done (s.fseek offset origin).2])
  | .ftell => (s, [.position s.ftell])
  | .fflush => (s.flushWrite, [.done true])

/-! ## Plain streams -/

inductive Direction where
  | input
  | output
deriving DecidableEq

/-- An open file, a byte pushed back, and the last transfer that no seek or flush has followed. -/
structure Plain where
  file : OpenFile
  pushed : Option Byte
  last : Option Direction
  readable : Bool
  writable : Bool

/-- Input of `n > 0` bytes.  At the end of the file no seek is needed before output. -/
def Plain.input (p : Plain) (n : Nat) : Plain × List Byte :=
  let got := p.pushed.toList ++ p.file.ahead (n - p.pushed.toList.length)
  ({ p with
     file := p.file.read (n - p.pushed.toList.length)
     pushed := none
     last := if got.length < n then none else some .input }, got)

/-- Output; a byte pushed back is dropped. -/
def Plain.output (p : Plain) (bytes : List Byte) : Plain :=
  { p with file := p.file.write bytes, pushed := none, last := some .output }

/-- The position of the next byte. -/
def Plain.tell (p : Plain) : Int := p.file.pos - p.pushed.toList.length

/-- A seek drops a byte pushed back. -/
def Plain.seek (p : Plain) (offset : Int) (origin : Origin) : Option OpenFile :=
  p.file.seek (offset - if origin = .seekCur then (p.pushed.toList.length : Int) else 0) origin

/-- A call on a plain stream. -/
def Plain.step (p : Plain) : Call → Plain × List Shown
  | .fread size count =>
    if size * count = 0 ∨ p.readable = false then
      (p, [.items [] 0])
    else
      let r := p.input (size * count)
      (r.1, [.items r.2 (r.2.length / size)])
  | .fgetc =>
    if p.readable = false then
      (p, [.char none])
    else
      let r := p.input 1
      (r.1, [.char r.2.head?])
  | .ungetc value =>
    if value = -1 ∨ p.readable = false ∨ p.pushed ≠ none then
      (p, [.char none])
    else
      ({ p with pushed := some (BitVec.ofInt 8 value), last := some .input },
        [.char (some (BitVec.ofInt 8 value))])
  | .fwrite items =>
    if items.bytes = [] ∨ p.writable = false then
      (p, [.count 0])
    else
      (p.output items.bytes, [.count items.count])
  | .fputc value =>
    if p.writable = false then
      (p, [.char none])
    else
      (p.output [BitVec.ofInt 8 value], [.char (some (BitVec.ofInt 8 value))])
  | .fseek offset origin =>
    match p.seek offset origin with
    | some file => ({ p with file := file, pushed := none, last := none }, [.done true])
    | none => ({ p with last := none }, [.done false])
  | .ftell => (p, [.position p.tell])
  | .fflush => ({ p with last := none }, [.done true])

/-- The rule of C: there is a seek or a flush between input and output. -/
def Alternates (p : Plain) : Call → Prop
  | .fread .. | .fgetc | .ungetc _ => p.last ≠ some .output
  | .fwrite _ | .fputc _ => p.last ≠ some .input
  | .fseek .. | .ftell | .fflush => True

/-- Output is not made while a byte is pushed back. -/
def NothingPushed (p : Plain) : Call → Prop
  | .fwrite _ | .fputc _ => p.pushed = none
  | .fread .. | .fgetc | .ungetc _ | .fseek .. | .ftell | .fflush => True

instance (p : Plain) : (call : Call) → Decidable (Alternates p call)
  | .fread .. | .fgetc | .ungetc _ => inferInstanceAs (Decidable (p.last ≠ _))
  | .fwrite _ | .fputc _ => inferInstanceAs (Decidable (p.last ≠ _))
  | .fseek .. | .ftell | .fflush => isTrue trivial

instance (p : Plain) : (call : Call) → Decidable (NothingPushed p call)
  | .fwrite _ | .fputc _ => inferInstanceAs (Decidable (p.pushed = none))
  | .fread .. | .fgetc | .ungetc _ | .fseek .. | .ftell | .fflush => isTrue trivial

/-! ## What a stream holds -/

/-- The buffer is not in use. -/
structure Idle (s : Stream) (file : OpenFile) : Prop where
  reading : s.reading = false
  writing : s.writing = false
  empty : s.buffer = []
  fd : s.fd = file

/-- The buffer has been read ahead. -/
structure ReadAhead (s : Stream) (file : OpenFile) : Prop where
  reading : s.reading = true
  writing : s.writing = false
  inside : s.position ≤ s.buffer.length
  fd : s.fd = file.skip s.unread
  unread : s.buffer.drop s.position = file.ahead s.unread

/-- The buffer is still to be written. -/
structure WriteBehind (s : Stream) (file : OpenFile) : Prop where
  reading : s.reading = false
  writing : s.writing = true
  buffered : s.unbuffered = false
  small : s.buffer.length ≤ bufsiz
  file : s.fd.write s.buffer = file

/-- A stream and the plain stream that it stands for. -/
structure StandsFor (s : Stream) (p : Plain) : Prop where
  readable : s.readable = p.readable
  writable : s.writable = p.writable
  pushed : p.pushed = if s.hasPushed then some s.pushed else none
  held : Idle s p.file ∨ ReadAhead s p.file ∨ WriteBehind s p.file ∧ p.last = some .output

/-- The buffer, and what it is used for, are the same. -/
structure SameBuffer (s s' : Stream) : Prop where
  fd : s'.fd = s.fd
  buffer : s'.buffer = s.buffer
  position : s'.position = s.position
  reading : s'.reading = s.reading
  writing : s'.writing = s.writing
  unbuffered : s'.unbuffered = s.unbuffered

/-- Nothing is to be written. -/
def Clean (file : OpenFile) : Prop := Idle s file ∨ ReadAhead s file

/-- Nothing has been read ahead. -/
def Current (file : OpenFile) : Prop := Idle s file ∨ WriteBehind s file

/-- What the operations on the buffer leave alone. -/
structure SameFlags (s s' : Stream) : Prop where
  readable : s'.readable = s.readable
  writable : s'.writable = s.writable
  unbuffered : s'.unbuffered = s.unbuffered
  hasPushed : s'.hasPushed = s.hasPushed
  pushed : s'.pushed = s.pushed

section Held

variable {s s₁ s₂ : Stream} {p : Plain} {file : OpenFile} {bytes : List Byte}

theorem Idle.congr (h : Idle s file) (hs : SameBuffer s s₁) : Idle s₁ file :=
  ⟨hs.reading.trans h.reading, hs.writing.trans h.writing, hs.buffer.trans h.empty,
    hs.fd.trans h.fd⟩

theorem ReadAhead.congr (h : ReadAhead s file) (hs : SameBuffer s s₁) : ReadAhead s₁ file := by
  have hunread : s₁.unread = s.unread := by
    rw [Stream.unread, hs.buffer, hs.position, Stream.unread]
  refine ⟨hs.reading.trans h.reading, hs.writing.trans h.writing, ?_, ?_, ?_⟩
  · rw [hs.position, hs.buffer]
    exact h.inside
  · rw [hs.fd, hunread]
    exact h.fd
  · rw [hs.position, hs.buffer, hunread]
    exact h.unread

theorem Clean.congr (h : Clean s file) (hs : SameBuffer s s₁) : Clean s₁ file :=
  h.imp (·.congr hs) (·.congr hs)

theorem WriteBehind.congr (h : WriteBehind s file) (hs : SameBuffer s s₁) :
    WriteBehind s₁ file := by
  refine ⟨hs.reading.trans h.reading, hs.writing.trans h.writing,
    hs.unbuffered.trans h.buffered, ?_, ?_⟩
  · rw [hs.buffer]
    exact h.small
  · rw [hs.fd, hs.buffer]
    exact h.file

/-- Something else changes. -/
theorem StandsFor.congr (h : StandsFor s p) (hs : SameBuffer s s₁) (hf : SameFlags s s₁) :
    StandsFor s₁ p := by
  refine ⟨hf.readable.trans h.readable, hf.writable.trans h.writable, ?_,
    h.held.imp (·.congr hs) (Or.imp (·.congr hs) fun hw => ⟨hw.1.congr hs, hw.2⟩)⟩
  rw [hf.hasPushed, hf.pushed]
  exact h.pushed

theorem SameFlags.refl : SameFlags s s := ⟨rfl, rfl, rfl, rfl, rfl⟩

theorem SameFlags.trans (h₁ : SameFlags s s₁) (h₂ : SameFlags s₁ s₂) : SameFlags s s₂ :=
  ⟨h₂.readable.trans h₁.readable, h₂.writable.trans h₁.writable, h₂.unbuffered.trans h₁.unbuffered,
    h₂.hasPushed.trans h₁.hasPushed, h₂.pushed.trans h₁.pushed⟩

theorem SameFlags.after (h₂ : SameFlags s₁ s₂) (h₁ : SameFlags s s₁) : SameFlags s s₂ := h₁.trans h₂

theorem StandsFor.clean (h : StandsFor s p) (hlast : p.last ≠ some .output) : Clean s p.file := by
  rcases h.held with hidle | hread | ⟨-, hout⟩
  · exact .inl hidle
  · exact .inr hread
  · exact absurd hout hlast

/-! ### Flushing -/

theorem sameFlags_flushWrite (s : Stream) : SameFlags s s.flushWrite := by
  unfold Stream.flushWrite
  split
  · exact ⟨rfl, rfl, rfl, rfl, rfl⟩
  · exact .refl

theorem Clean.flushWrite (h : Clean s file) : s.flushWrite = s := by
  have hwriting : s.writing = false := h.elim (·.writing) (·.writing)
  rw [Stream.flushWrite, hwriting]
  rfl

theorem Idle.flushWrite (h : Idle s file) : s.flushWrite = s := Clean.flushWrite (.inl h)

theorem WriteBehind.flushWrite (h : WriteBehind s file) : Idle s.flushWrite file := by
  rw [Stream.flushWrite, if_pos h.writing]
  exact ⟨h.reading, rfl, rfl, h.file⟩

theorem Current.flushWrite (h : Current s file) : Idle s.flushWrite file := by
  rcases h with hidle | hwrite
  · rw [hidle.flushWrite]
    exact hidle
  · exact hwrite.flushWrite

theorem StandsFor.flushWrite (h : StandsFor s p) : Clean s.flushWrite p.file := by
  rcases h.held with hidle | hread | ⟨hwrite, -⟩
  · rw [Clean.flushWrite (.inl hidle)]
    exact .inl hidle
  · rw [Clean.flushWrite (.inr hread)]
    exact .inr hread
  · exact .inl hwrite.flushWrite

/-- A stream with nothing to be written stands for a plain stream with the same flags. -/
theorem StandsFor.of_clean (hflags : s.readable = p.readable ∧ s.writable = p.writable)
    (hpushed : p.pushed = if s.hasPushed then some s.pushed else none) (h : Clean s p.file) :
    StandsFor s p :=
  ⟨hflags.1, hflags.2, hpushed, h.elim .inl fun hread => .inr (.inl hread)⟩

/-! ### Reading -/

theorem ReadAhead.length_ahead (h : ReadAhead s file) :
    (file.ahead s.unread).length = s.unread := by
  rw [← h.unread, length_drop]
  rfl

/-- Bytes are taken out of the buffer. -/
theorem ReadAhead.advance (h : ReadAhead s file) {n : Nat} (hn : n ≤ s.unread) :
    (s.buffer.drop s.position).take n = file.ahead n ∧ (file.ahead n).length = n ∧
      ReadAhead { s with position := s.position + n } (file.skip n) := by
  have hin := h.inside
  have hsplit : s.unread = n + (s.unread - n) := by omega
  have hrest : ({ s with position := s.position + n } : Stream).unread = s.unread - n :=
    (Nat.sub_sub _ _ _).symm
  have hlen := length_ahead_of_le h.length_ahead hn
  refine ⟨?_, hlen, h.reading, h.writing, ?_, ?_, ?_⟩
  · rw [h.unread, take_ahead hn]
  · unfold Stream.unread at hn
    show s.position + n ≤ s.buffer.length
    omega
  · rw [hrest, skip_skip, ← hsplit]
    exact h.fd
  · rw [hrest, ← drop_drop, h.unread, hsplit, ahead_add, drop_left' hlen, Nat.add_sub_cancel_left]

/-- A buffer with nothing more to take. -/
theorem Clean.exhausted (h : Clean s file)
    (hnone : ¬(s.reading = true ∧ s.position < s.buffer.length)) : Idle s.exhausted file := by
  rcases h with hidle | hread
  · exact ⟨rfl, hidle.writing, rfl, hidle.fd⟩
  refine ⟨rfl, hread.writing, rfl, ?_⟩
  have hunread : s.unread = 0 := by
    unfold Stream.unread
    by_contra hne
    exact hnone ⟨hread.reading, by omega⟩
  have hfd := hread.fd
  rw [hunread] at hfd
  exact hfd

theorem Clean.emptied (h : Clean s file)
    (hnone : ¬(s.reading = true ∧ s.position < s.buffer.length)) : Idle s.emptied file := by
  have hidle := h.exhausted hnone
  rw [Stream.emptied, hidle.flushWrite]
  exact hidle

theorem sameFlags_emptied (s : Stream) : SameFlags s s.emptied :=
  (sameFlags_flushWrite s.exhausted).after ⟨rfl, rfl, rfl, rfl, rfl⟩

/-- What `fill_read` does with an idle buffer. -/
theorem Idle.fillRead (h : Idle s file) :
    SameFlags s s.fillRead.1 ∧ (s.fillRead.2 = true → ReadAhead s.fillRead.1 file) ∧
      (s.fillRead.2 = false → file.ahead bufsiz = [] ∧ Idle s.fillRead.1 file) := by
  unfold Stream.fillRead
  simp only [h.flushWrite, h.fd]
  by_cases hend : file.ahead bufsiz = []
  · simp only [if_pos hend]
    exact ⟨⟨rfl, rfl, rfl, rfl, rfl⟩, nofun, fun _ =>
      ⟨hend, h.reading, h.writing, h.empty, read_of_ahead_nil hend⟩⟩
  · simp only [if_neg hend]
    exact ⟨⟨rfl, rfl, rfl, rfl, rfl⟩, fun _ =>
      ⟨rfl, h.writing, Nat.zero_le _, rfl, ahead_length.symm⟩, nofun⟩

/-- The loop of `fread` gets what a read of the file gets. -/
theorem Clean.freadLoop (s : Stream) (got : List Byte) (left : Nat) {file : OpenFile}
    (h : Clean s file) : (s.freadLoop got left).2 = got ++ file.ahead left ∧
    Clean (s.freadLoop got left).1 (file.read left) ∧ SameFlags s (s.freadLoop got left).1 := by
  induction s, got, left using Stream.freadLoop.induct generalizing file with
  | case1 s got =>
    rw [Stream.freadLoop, if_pos rfl, ahead_zero, read_zero]
    exact ⟨(append_nil _).symm, h, .refl⟩
  | case2 s got left hleft hmore ih =>
    -- something is left in the buffer
    have hread : ReadAhead s file := h.resolve_left fun hidle => by
      rw [hidle.reading] at hmore
      cases hmore.1
    obtain ⟨htake, hlen, hnext⟩ := hread.advance (Nat.min_le_right left s.unread)
    obtain ⟨hgot, hclean, hflags⟩ := ih (.inr hnext)
    have hsplit : left = min left s.unread + (left - min left s.unread) := by omega
    rw [Stream.freadLoop, if_neg hleft, if_pos hmore]
    refine ⟨?_, ?_, hflags.after ⟨rfl, rfl, rfl, rfl, rfl⟩⟩
    · rw [hgot, htake, append_assoc, ← ahead_add, ← hsplit]
    · rw [← read_add hlen, ← hsplit] at hclean
      exact hclean
  | case3 s got left hleft hmore hlarge hend =>
    have hidle := h.emptied hmore
    rw [Stream.freadLoop, if_neg hleft, if_neg hmore, if_pos hlarge, if_pos hend]
    rw [hidle.fd] at hend ⊢
    rw [hend, read_of_ahead_nil hend]
    exact ⟨(append_nil _).symm, .inl ⟨hidle.reading, hidle.writing, hidle.empty, rfl⟩,
      (sameFlags_emptied s).trans ⟨rfl, rfl, rfl, rfl, rfl⟩⟩
  | case4 s got left hleft hmore hlarge hsome ih =>
    -- a large request goes to the descriptor
    have hidle := h.emptied hmore
    have hafter : Clean { s.emptied with fd := s.emptied.fd.read left } (file.read left) :=
      .inl ⟨hidle.reading, hidle.writing, hidle.empty, by rw [hidle.fd]⟩
    obtain ⟨hgot, hclean, hflags⟩ := ih hafter
    rw [hidle.fd, ahead_read_rest, append_nil] at hgot
    rw [hidle.fd, read_of_ahead_nil ahead_read_rest] at hclean
    rw [Stream.freadLoop, if_neg hleft, if_neg hmore, if_pos hlarge, if_neg hsome]
    refine ⟨?_, ?_, hflags.after ((sameFlags_emptied s).trans ⟨rfl, rfl, rfl, rfl, rfl⟩)⟩
    · rw [hidle.fd]
      exact hgot
    · rw [hidle.fd]
      exact hclean
  | case5 s got left hleft hmore hsmall hfill ih =>
    have hidle := h.emptied hmore
    obtain ⟨hflags, hread, -⟩ := hidle.fillRead
    obtain ⟨hgot, hclean, hflags'⟩ := ih (.inr (hread hfill))
    rw [Stream.freadLoop, if_neg hleft, if_neg hmore, if_neg hsmall, if_pos hfill]
    exact ⟨hgot, hclean, ((sameFlags_emptied s).trans hflags).trans hflags'⟩
  | case6 s got left hleft hmore hsmall hfill =>
    have hidle := h.emptied hmore
    obtain ⟨hflags, -, hend⟩ := hidle.fillRead
    obtain ⟨hnothing, hidle'⟩ := hend (by simpa using hfill)
    have hleftover : file.ahead left = [] := ahead_eq_nil (by decide) hnothing
    rw [Stream.freadLoop, if_neg hleft, if_neg hmore, if_neg hsmall, if_neg hfill, hleftover,
      read_of_ahead_nil hleftover]
    exact ⟨(append_nil _).symm, .inl hidle', (sameFlags_emptied s).trans hflags⟩

/-- The next byte of the buffer. -/
theorem ReadAhead.next (h : ReadAhead s file) (hmore : s.position < s.buffer.length) :
    s.next.2 = (file.ahead 1).head? ∧ (file.ahead 1).length = 1 ∧ Clean s.next.1 (file.read 1) := by
  have hone : 1 ≤ s.unread := by
    unfold Stream.unread
    omega
  obtain ⟨htake, hlen, hnext⟩ := h.advance hone
  refine ⟨?_, hlen, .inr ?_⟩
  · rw [← htake, drop_eq_getElem_cons hmore]
    show some (s.buffer.getD s.position 0) = _
    rw [getD_eq_getElem?_getD, getElem?_eq_getElem hmore]
    rfl
  · rw [OpenFile.read, hlen]
    exact hnext

/-- `fgetc` without a byte pushed back. -/
theorem Clean.fgetc (h : Clean s file) (hreadable : s.readable = true)
    (hpushed : s.hasPushed = false) :
    s.fgetc.2 = (file.ahead 1).head? ∧ Clean s.fgetc.1 (file.read 1) ∧ SameFlags s s.fgetc.1 := by
  unfold Stream.fgetc
  rw [if_neg (by rw [hreadable]; decide), if_neg (by rw [hpushed]; decide)]
  by_cases hmore : s.reading = true ∧ s.position < s.buffer.length
  · rw [if_pos hmore]
    have hread : ReadAhead s file := h.resolve_left fun hidle => by
      rw [hidle.reading] at hmore
      cases hmore.1
    obtain ⟨hnext, -, hclean⟩ := hread.next hmore.2
    exact ⟨hnext, hclean, ⟨rfl, rfl, rfl, rfl, rfl⟩⟩
  rw [if_neg hmore]
  obtain ⟨hidle, hflags⟩ : Idle (if s.reading then s.exhausted else s) file ∧
      SameFlags s (if s.reading then s.exhausted else s) := by
    cases hreading : s.reading with
    | false =>
      refine ⟨h.resolve_right fun hread => ?_, .refl⟩
      rw [hread.reading] at hreading
      cases hreading
    | true => exact ⟨h.exhausted hmore, ⟨rfl, rfl, rfl, rfl, rfl⟩⟩
  revert hidle hflags
  generalize (if s.reading then s.exhausted else s) = s₁
  intro hidle hflags
  obtain ⟨hflags', hread, hend⟩ := hidle.fillRead
  rcases hfill : s₁.fillRead with ⟨s₂, _ | _⟩
  · rw [hfill] at hflags' hend
    obtain ⟨hnothing, hidle'⟩ := hend rfl
    have hone : file.ahead 1 = [] := ahead_eq_nil (by decide) hnothing
    rw [hone, read_of_ahead_nil hone]
    exact ⟨rfl, .inl hidle', hflags.trans hflags'⟩
  · have htrue : s₁.fillRead.2 = true := by rw [hfill]
    have hsome := Stream.fillRead_true htrue
    rw [hfill] at hflags' hread hsome
    obtain ⟨hnext, -, hclean⟩ := (hread rfl).next hsome.2
    exact ⟨hnext, hclean, (hflags.trans hflags').trans ⟨rfl, rfl, rfl, rfl, rfl⟩⟩

/-! ### Writing -/

/-- A write begins at the position of the file. -/
theorem StandsFor.startWrite (h : StandsFor s p) (hpushed : p.pushed = none) :
    Current s.startWrite p.file ∧ SameFlags s s.startWrite ∧ s.hasPushed = false := by
  have hno : s.hasPushed = false := by
    have heq := h.pushed
    rw [hpushed] at heq
    cases hp : s.hasPushed with
    | false => rfl
    | true =>
      rw [hp] at heq
      cases heq
  rw [Stream.startWrite]
  rcases h.held with hidle | hread | ⟨hwrite, -⟩
  · rw [if_neg (by rw [hidle.reading]; decide)]
    exact ⟨.inl hidle, .refl, hno⟩
  · rw [if_pos hread.reading, Stream.dropRead, if_pos hread.reading]
    refine ⟨.inl ⟨rfl, hread.writing, rfl, ?_⟩, ⟨rfl, rfl, rfl, hno.symm, rfl⟩, hno⟩
    rw [hread.fd, seek_skip]
    rfl
  · rw [if_neg (by rw [hwrite.reading]; decide)]
    exact ⟨.inr hwrite, .refl, hno⟩

theorem sameFlags_makeRoom (s : Stream) : SameFlags s s.makeRoom := by
  unfold Stream.makeRoom
  split
  · exact sameFlags_flushWrite s
  · exact .refl

/-- There is room after a full buffer has been written. -/
theorem Current.makeRoom (h : Current s file) :
    Current s.makeRoom file ∧ s.makeRoom.buffer.length < bufsiz := by
  unfold Stream.makeRoom
  split
  · refine ⟨.inl h.flushWrite, ?_⟩
    rw [h.flushWrite.empty]
    decide
  next hroom => exact ⟨h, by omega⟩

/-- Bytes for which there is room are put into the buffer. -/
theorem Current.put (h : Current s file) (hbuf : s.unbuffered = false)
    (hroom : s.buffer.length + bytes.length ≤ bufsiz) :
    WriteBehind (s.put bytes) (file.write bytes) := by
  rcases h with hidle | hwrite
  · refine ⟨hidle.reading, rfl, hbuf, ?_, ?_⟩
    · show (s.buffer ++ bytes).length ≤ bufsiz
      rw [length_append]
      exact hroom
    · show s.fd.write (s.buffer ++ bytes) = _
      rw [hidle.empty, hidle.fd, nil_append]
  · refine ⟨hwrite.reading, rfl, hbuf, ?_, ?_⟩
    · show (s.buffer ++ bytes).length ≤ bufsiz
      rw [length_append]
      exact hroom
    · show s.fd.write (s.buffer ++ bytes) = _
      rw [← hwrite.file, write_write]

/-- The loop of `fwrite` writes all bytes. -/
theorem Current.fwriteLoop (passes : Nat) (h : Current s file) (hbuf : s.unbuffered = false)
    (hpasses : bytes.length ≤ passes) : Current (s.fwriteLoop passes bytes) (file.write bytes) ∧
    SameFlags s (s.fwriteLoop passes bytes) := by
  induction passes generalizing s file bytes with
  | zero =>
    rw [eq_nil_of_length_eq_zero (by omega : bytes.length = 0), write_nil]
    exact ⟨h, .refl⟩
  | succ passes ih =>
    rw [Stream.fwriteLoop]
    split
    next hnil =>
      rw [hnil, write_nil]
      exact ⟨h, .refl⟩
    next hsome =>
    obtain ⟨hcurrent, hroom⟩ := h.makeRoom
    have hflags := sameFlags_makeRoom s
    generalize hk : bufsiz - s.makeRoom.buffer.length = room
    have hput : WriteBehind (s.makeRoom.put (bytes.take room)) (file.write (bytes.take room)) := by
      refine hcurrent.put (hflags.unbuffered.trans hbuf) ?_
      rw [length_take]
      omega
    have hpos := length_pos_iff.mpr hsome
    have hfewer : (bytes.drop room).length ≤ passes := by
      rw [length_drop]
      omega
    obtain ⟨hdone, hflags'⟩ := ih (.inr hput) (hflags.unbuffered.trans hbuf) hfewer
    rw [write_write, take_append_drop] at hdone
    exact ⟨hdone, hflags'.after (hflags.trans ⟨rfl, rfl, rfl, rfl, rfl⟩)⟩

/-- A line that has been completed is written. -/
theorem Current.flushIf (h : Current s file) (line : Prop) [Decidable line] :
    Current (if line then s.flushWrite else s) file ∧
      SameFlags s (if line then s.flushWrite else s) := by
  split
  · exact ⟨.inl h.flushWrite, sameFlags_flushWrite s⟩
  · exact ⟨h, .refl⟩

/-- The position that a seek starts from. -/
theorem Clean.seek (h : Clean s file) (offset : Int) : s.fd.seek
    (offset + if s.reading then -(s.unread : Int) else 0) .seekCur = file.seek offset .seekCur := by
  rcases h with hidle | hread
  · rw [hidle.reading, hidle.fd]
    simp
  · rw [hread.reading, hread.fd]
    exact seek_cur_skip offset

theorem Clean.seek_of_ne (h : Clean s file) (offset : Int) {origin : Origin}
    (hne : origin ≠ .seekCur) : s.fd.seek offset origin = file.seek offset origin := by
  rcases h with hidle | hread
  · rw [hidle.fd]
  · rw [hread.fd, seek_skip_of_ne offset hne]

end Held

/-! ## One call -/

section Calls

variable {s : Stream} {p : Plain} (h : StandsFor s p)

/-- The stream stands for the plain stream after the call too, and shows the same. -/
abbrev Agree (s : Stream) (p : Plain) (call : Call) : Prop :=
  StandsFor (s.step call).1 (p.step call).1 ∧ (s.step call).2 = (p.step call).2

include h

theorem StandsFor.failed : StandsFor { s with error := true } p :=
  h.congr ⟨rfl, rfl, rfl, rfl, rfl, rfl⟩ ⟨rfl, rfl, rfl, rfl, rfl⟩

theorem StandsFor.pushed_none (hno : s.hasPushed = false) : p.pushed = none := by
  rw [h.pushed, hno]
  rfl

theorem StandsFor.pushed_some (hyes : s.hasPushed = true) : p.pushed = some s.pushed := by
  rw [h.pushed, hyes]
  rfl

section Input

variable (hrule : p.last ≠ some .output)

include hrule

/-- Input through the buffer. -/
theorem StandsFor.freadBytes (n : Nat) :
    (s.freadBytes n).2 = (p.input n).2 ∧ StandsFor (s.freadBytes n).1 (p.input n).1 := by
  have hclean := h.clean hrule
  unfold Stream.freadBytes Plain.input
  cases hpushed : s.hasPushed with
  | false =>
    obtain ⟨hgot, hafter, hflags⟩ := hclean.freadLoop s [] n
    rw [h.pushed_none hpushed]
    refine ⟨hgot,
      .of_clean ⟨hflags.readable.trans h.readable, hflags.writable.trans h.writable⟩ ?_ hafter⟩
    show none = if (s.freadLoop [] n).1.hasPushed = true then _ else _
    rw [hflags.hasPushed, hpushed]
    rfl
  | true =>
    have hdropped : Clean { s with hasPushed := false } p.file :=
      hclean.congr ⟨rfl, rfl, rfl, rfl, rfl, rfl⟩
    obtain ⟨hgot, hafter, hflags⟩ := hdropped.freadLoop _ [s.pushed] (n - 1)
    rw [h.pushed_some hpushed]
    refine ⟨hgot,
      .of_clean ⟨hflags.readable.trans h.readable, hflags.writable.trans h.writable⟩ ?_ hafter⟩
    show none = if (Stream.freadLoop _ [s.pushed] (n - 1)).1.hasPushed = true then _ else _
    rw [hflags.hasPushed]
    rfl

theorem StandsFor.fread (size count : Nat) : Agree s p (.fread size count) := by
  simp only [Agree, Stream.step, Plain.step, Stream.fread]
  by_cases hzero : size = 0 ∨ count = 0
  · rw [if_pos hzero, if_pos (.inl (Nat.mul_eq_zero.mpr hzero))]
    exact ⟨h, rfl⟩
  rw [if_neg hzero]
  by_cases hreadable : p.readable = false
  · rw [if_pos (h.readable.trans hreadable), if_pos (.inr hreadable)]
    exact ⟨h.failed, rfl⟩
  have hsome : ¬(size * count = 0 ∨ p.readable = false) := by
    rw [Nat.mul_eq_zero]
    exact not_or.mpr ⟨hzero, hreadable⟩
  rw [if_neg fun heq => hreadable (h.readable.symm.trans heq), if_neg hsome]
  obtain ⟨hgot, hafter⟩ := h.freadBytes hrule (size * count)
  refine ⟨hafter, ?_⟩
  rw [hgot]

/-- A single byte through the buffer. -/
theorem StandsFor.getByte (hreadable : s.readable = true) :
    s.fgetc.2 = (p.input 1).2.head? ∧ StandsFor s.fgetc.1 (p.input 1).1 := by
  have hclean := h.clean hrule
  unfold Plain.input
  cases hpushed : s.hasPushed with
  | false =>
    obtain ⟨hgot, hafter, hflags⟩ := hclean.fgetc hreadable hpushed
    rw [h.pushed_none hpushed]
    refine ⟨hgot,
      .of_clean ⟨hflags.readable.trans h.readable, hflags.writable.trans h.writable⟩ ?_ hafter⟩
    rw [hflags.hasPushed, hpushed]
    rfl
  | true =>
    have hdropped : Clean { s with hasPushed := false } p.file :=
      hclean.congr ⟨rfl, rfl, rfl, rfl, rfl, rfl⟩
    rw [h.pushed_some hpushed, Stream.fgetc, if_neg (by rw [hreadable]; decide), if_pos hpushed]
    refine ⟨rfl, .of_clean ⟨h.readable, h.writable⟩ rfl ?_⟩
    show Clean _ (p.file.read 0)
    rw [read_zero]
    exact hdropped

theorem StandsFor.fgetc : Agree s p .fgetc := by
  simp only [Agree, Stream.step, Plain.step]
  by_cases hreadable : p.readable = false
  · rw [if_pos hreadable, Stream.fgetc, if_pos (h.readable.trans hreadable)]
    exact ⟨h.failed, rfl⟩
  rw [if_neg hreadable]
  obtain ⟨hgot, hafter⟩ := h.getByte hrule (h.readable.trans (by simpa using hreadable))
  rw [hgot]
  exact ⟨hafter, rfl⟩

theorem StandsFor.ungetc (value : Int) : Agree s p (.ungetc value) := by
  simp only [Agree, Stream.step, Plain.step, Stream.ungetc]
  have hiff : s.readable = false ∨ s.hasPushed = true ↔ p.readable = false ∨ p.pushed ≠ none := by
    rw [h.readable, h.pushed]
    cases s.hasPushed <;> simp
  by_cases heof : value = -1
  · rw [if_pos heof, if_pos (.inl heof)]
    exact ⟨h, rfl⟩
  by_cases hno : p.readable = false ∨ p.pushed ≠ none
  · rw [if_neg heof, if_pos (hiff.mpr hno), if_pos (.inr hno)]
    exact ⟨h, rfl⟩
  · rw [if_neg heof, if_neg fun hs => hno (hiff.mp hs), if_neg (not_or.mpr ⟨heof, hno⟩)]
    exact ⟨.of_clean ⟨h.readable, h.writable⟩ rfl
      ((h.clean hrule).congr ⟨rfl, rfl, rfl, rfl, rfl, rfl⟩), rfl⟩

end Input

/-- Output that has reached the buffer or the file. -/
theorem StandsFor.of_current {s₁ : Stream} {bytes : List Byte} (hflags : SameFlags s s₁)
    (hno : s.hasPushed = false) (hcurrent : Current s₁ (p.file.write bytes)) :
    StandsFor s₁ (p.output bytes) := by
  refine ⟨hflags.readable.trans h.readable, hflags.writable.trans h.writable, ?_,
    hcurrent.imp id fun hwrite => .inr ⟨hwrite, rfl⟩⟩
  rw [hflags.hasPushed, hno]
  rfl

theorem StandsFor.fputc (hpushed : p.pushed = none) (value : Int) : Agree s p (.fputc value) := by
  simp only [Agree, Stream.step, Plain.step, Stream.fputc]
  by_cases hwritable : p.writable = false
  · rw [if_pos (h.writable.trans hwritable), if_pos hwritable]
    exact ⟨h.failed, rfl⟩
  rw [if_neg fun heq => hwritable (h.writable.symm.trans heq), if_neg hwritable]
  obtain ⟨hcurrent, hflags, hno⟩ := h.startWrite hpushed
  generalize s.startWrite = s₁ at hcurrent hflags ⊢
  by_cases hunbuf : s₁.unbuffered = true
  · have hidle : Idle s₁ p.file := hcurrent.resolve_right fun hwrite => by
      rw [hwrite.buffered] at hunbuf
      cases hunbuf
    rw [if_pos hunbuf]
    refine ⟨h.of_current (hflags.trans ⟨rfl, rfl, rfl, rfl, rfl⟩) hno (.inl ?_), rfl⟩
    exact ⟨hidle.reading, hidle.writing, hidle.empty, by rw [hidle.fd]⟩
  obtain ⟨hroom, hlen⟩ := hcurrent.makeRoom
  have hflags₂ := sameFlags_makeRoom s₁
  have hput :
      WriteBehind (s₁.makeRoom.put [BitVec.ofInt 8 value]) (p.file.write [BitVec.ofInt 8 value]) :=
    hroom.put (hflags₂.unbuffered.trans (by simpa using hunbuf)) hlen
  rw [if_neg hunbuf]
  obtain ⟨hdone, hflags₃⟩ :=
    Current.flushIf (.inr hput) ((s₁.makeRoom.put [BitVec.ofInt 8 value]).lineBuffered = true ∧
      BitVec.ofInt 8 value = (10 : Byte))
  exact ⟨h.of_current (hflags₃.after ((hflags.trans hflags₂).trans ⟨rfl, rfl, rfl, rfl, rfl⟩))
    hno hdone, rfl⟩

theorem StandsFor.fwrite (hpushed : p.pushed = none) (items : Items) :
    Agree s p (.fwrite items) := by
  have hempty : items.size = 0 ∨ items.count = 0 ↔ items.bytes = [] := by
    rw [← length_eq_zero_iff, items.fits, Nat.mul_eq_zero]
  simp only [Agree, Stream.step, Plain.step, Stream.fwrite]
  by_cases hnil : items.bytes = []
  · rw [if_pos (hempty.mpr hnil), if_pos (.inl hnil)]
    exact ⟨h, rfl⟩
  rw [if_neg fun heq => hnil (hempty.mp heq)]
  by_cases hwritable : p.writable = false
  · rw [if_pos (h.writable.trans hwritable), if_pos (.inr hwritable)]
    exact ⟨h.failed, rfl⟩
  rw [if_neg fun heq => hwritable (h.writable.symm.trans heq),
    if_neg (not_or.mpr ⟨hnil, hwritable⟩)]
  obtain ⟨hcurrent, hflags, hno⟩ := h.startWrite hpushed
  generalize s.startWrite = s₁ at hcurrent hflags ⊢
  by_cases hdirect : s₁.unbuffered = true ∨ bufsiz ≤ items.bytes.length
  · rw [if_pos hdirect]
    have hidle := hcurrent.flushWrite
    have hflags₂ := hflags.trans (sameFlags_flushWrite s₁)
    refine ⟨h.of_current (hflags₂.trans ⟨rfl, rfl, rfl, rfl, rfl⟩) hno (.inl ?_), rfl⟩
    exact ⟨hidle.reading, hidle.writing, hidle.empty, by rw [hidle.fd]⟩
  rw [if_neg hdirect]
  have hbuf : s₁.unbuffered = false := by simpa using (not_or.mp hdirect).1
  obtain ⟨hloop, hflags₂⟩ := hcurrent.fwriteLoop items.bytes.length hbuf (Nat.le_refl _)
  generalize s₁.fwriteLoop items.bytes.length items.bytes = s₂ at hloop hflags₂ ⊢
  obtain ⟨hdone, hflags₃⟩ := hloop.flushIf (s₂.lineBuffered = true ∧ 10 ∈ items.bytes)
  exact ⟨h.of_current ((hflags.trans hflags₂).trans hflags₃) hno hdone, rfl⟩

theorem StandsFor.fseek (offset : Int) (origin : Origin) : Agree s p (.fseek offset origin) := by
  have hclean := h.flushWrite
  have hflags := sameFlags_flushWrite s
  have hpushed : p.pushed = if s.flushWrite.hasPushed then some s.flushWrite.pushed else none := by
    rw [hflags.hasPushed, hflags.pushed]
    exact h.pushed
  have hreadable := hflags.readable.trans h.readable
  have hwritable := hflags.writable.trans h.writable
  simp only [Agree, Stream.step, Plain.step, Stream.fseek]
  generalize s.flushWrite = s₁ at hclean hpushed hreadable hwritable ⊢
  have hseek : s₁.fd.seek (offset +
      if origin = .seekCur then
        (if s₁.reading then -(s₁.unread : Int) else 0) + (if s₁.hasPushed then -1 else 0)
          else 0) origin =
      p.seek offset origin := by
    unfold Plain.seek
    by_cases hcur : origin = .seekCur
    · subst hcur
      rw [if_pos rfl, if_pos rfl, ← hclean.seek, hpushed]
      congr 1
      cases s₁.hasPushed with
      | false => simp
      | true =>
        simp
        omega
    · rw [if_neg hcur, if_neg hcur, hclean.seek_of_ne _ hcur]
      congr 1
  rw [hseek]
  cases hp : p.seek offset origin with
  | none => exact ⟨.of_clean ⟨hreadable, hwritable⟩ hpushed hclean, rfl⟩
  | some file =>
    have hwriting : s₁.writing = false := hclean.elim (·.writing) (·.writing)
    exact ⟨.of_clean ⟨hreadable, hwritable⟩ rfl (.inl ⟨rfl, hwriting, rfl, rfl⟩), rfl⟩

theorem StandsFor.ftell : s.ftell = p.tell := by
  have hpushed : (p.pushed.toList.length : Int) = if s.hasPushed then 1 else 0 := by
    rw [h.pushed]
    cases s.hasPushed <;> rfl
  unfold Stream.ftell Plain.tell
  rw [hpushed]
  rcases h.held with hidle | hread | ⟨hwrite, -⟩
  · simp [hidle.writing, hidle.reading, hidle.fd]
  · simp only [hread.writing, hread.reading, hread.fd, skip]
    simp
  · simp only [hwrite.writing, hwrite.reading, ← hwrite.file, write]
    simp

theorem StandsFor.step (call : Call) (hrule : Alternates p call) (hpushed : NothingPushed p call) :
    Agree s p call := by
  cases call with
  | fread size count => exact h.fread hrule size count
  | fgetc => exact h.fgetc hrule
  | ungetc value => exact h.ungetc hrule value
  | fwrite items => exact h.fwrite hpushed items
  | fputc value => exact h.fputc hpushed value
  | fseek offset origin => exact h.fseek offset origin
  | ftell =>
    refine ⟨h, ?_⟩
    show [Shown.position s.ftell] = [Shown.position p.tell]
    rw [h.ftell]
  | fflush =>
    have hflags := sameFlags_flushWrite s
    refine ⟨.of_clean ⟨hflags.readable.trans h.readable, hflags.writable.trans h.writable⟩ ?_
      h.flushWrite, rfl⟩
    show p.pushed = if s.flushWrite.hasPushed then some s.flushWrite.pushed else none
    rw [hflags.hasPushed, hflags.pushed]
    exact h.pushed

end Calls

/-- A stream just opened, without a buffer. -/
def Plain.opened (file : OpenFile) (readable writable : Bool) : Plain :=
  ⟨file, none, none, readable, writable⟩

/--
Buffered streams behave like the file.  A stream is opened with any file, for reading, writing or
both, and set to any kind of buffering.  If input and output alternate as C wants it, and nothing
is written while a byte is pushed back, then any calls return what they return without a buffer,
and `fclose` leaves the same contents.
-/
theorem stream_like_file
    (file : OpenFile)
    (readable writable unbuffered lineBuffered : Bool)
    (calls : List Call)
    (hrule : Run.Along Plain.step Alternates (.opened file readable writable) calls)
    (hpushed : Run.Along Plain.step NothingPushed (.opened file readable writable) calls) :
    let s := (streamCreate file readable writable).setvbuf unbuffered lineBuffered
    let p := Plain.opened file readable writable
    (run Stream.step s calls).2 = (run Plain.step p calls).2 ∧
      (run Stream.step s calls).1.fclose = (run Plain.step p calls).1.file.bytes := by
  intro s p
  have hstart : StandsFor s p := ⟨rfl, rfl, rfl, .inl ⟨rfl, rfl, rfl, rfl⟩⟩
  obtain ⟨hlast, hshown⟩ := run_simulation_of Stream.step Plain.step
    (fun p call => Alternates p call ∧ NothingPushed p call) StandsFor
    (fun s p call hok h => h.step call hok.1 hok.2) hstart (along_and hrule hpushed)
  refine ⟨hshown, ?_⟩
  unfold Stream.fclose
  rcases hlast.flushWrite with hidle | hread
  · rw [hidle.fd]
  · rw [hread.fd]
    rfl

/-- Input with a byte pushed back, a seek, output, a flush and input again. -/
theorem stream_like_file_update :
    let file : OpenFile := ⟨[1, 2, 3, 4], 0⟩
    let calls : List Call :=
      [.fgetc, .fread 1 2, .ungetc 7, .ftell, .fgetc, .fseek (-1) .seekCur, .fputc 9, .ftell,
        .fflush, .fgetc]
    let s := (streamCreate file true true).setvbuf false true
    (run Stream.step s calls).2 =
        [.char (some 1), .items [2, 3] 2, .char (some 7), .position 2, .char (some 7), .done true,
          .char (some 9), .position 3, .done true, .char (some 4)] ∧
      (run Stream.step s calls).1.fclose = [1, 2, 9, 4] := by
  intro file calls s
  obtain ⟨hshown, hclose⟩ := stream_like_file file true true false true calls (by decide)
    (by decide)
  refine ⟨hshown.trans (by decide), hclose.trans (by decide +kernel)⟩

/--
A byte is pushed back at position 1, where nothing has been read ahead.  After a flush and the
output of one byte it is still there: the position is reported one too low, and the byte is read
behind the output.
-/
theorem stream_keeps_pushed :
    let file : OpenFile := ⟨[97, 98, 99], 0⟩
    let calls : List Call :=
      [.fseek 1 .seekSet, .ungetc 120, .fflush, .fputc 65, .ftell, .fflush, .fgetc]
    Run.Along Plain.step Alternates (.opened file true true) calls ∧
      (run Stream.step (streamCreate file true true) calls).2 =
        [.done true, .char (some 120), .done true, .char (some 65), .position 1, .done true,
          .char (some 120)] ∧
      (run Plain.step (.opened file true true) calls).2 =
        [.done true, .char (some 120), .done true, .char (some 65), .position 2, .done true,
          .char (some 99)] := by
  decide

end PureCOS.Libc
