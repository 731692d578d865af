import PureCOS.Lib.Bytes

/-!
# Reading the kernel log

`kernel/diagnostics/klog.c` keeps the last bytes of the log in a ring.  A reader holds a cursor, a
position in the whole log, and `klog_read_since` moves it on; writes may come between the calls.
Both sides run under the lock of the log, so that a call is one step.
-/

namespace PureCOS.Diagnostics

open List

def klogRingSize : Nat := 8 * 1024 * 1024

/-- `klog_ring` and `klog_ring_pos`, a `uint64_t` -/
structure Klog where
  ring : Nat → Byte
  pos : Nat

/-- The log before the first byte. -/
def Klog.boot : Klog := ⟨fun _ => 0, 0⟩

/-- `klog_putc_raw`, as far as the ring is concerned -/
def Klog.putc (k : Klog) (c : Byte) : Klog :=
  ⟨Function.update k.ring (k.pos % klogRingSize) c, (k.pos + 1) % 2 ^ 64⟩

/-- What a call of `klog_read_since` leaves in the cursor, the buffer and `data_lost`. -/
structure Reading where
  cursor : Nat
  bytes : List Byte
  dataLost : Bool

/-- `klog_read_since`; the amount is below `capacity`, so that it fits a `uint32_t`. -/
def Klog.readSince (k : Klog) (cursor capacity : Nat) : Reading :=
  if capacity = 0 then
    ⟨cursor, [], false⟩
  else
    let earliest := if klogRingSize < k.pos then k.pos - klogRingSize else 0
    let start := if cursor < earliest then earliest else cursor
    let start := if k.pos < start then k.pos else start
    let available := k.pos - start
    let amount := if available < capacity then available else capacity
    ⟨(start + amount) % 2 ^ 64,
      (range amount).map fun index => k.ring ((start + index) % 2 ^ 64 % klogRingSize),
      decide (cursor < earliest)⟩

/-- What happens to the log. -/
inductive Event where
  | write (c : Byte)
  | read (capacity : Nat)

/-- The bytes that are written. -/
def written : List Event → List Byte
  | [] => []
  | .write c :: events => c :: written events
  | .read _ :: events => written events

/-- The bytes that calls without a write between them return, one after the other. -/
def Klog.drain (k : Klog) : Nat → List Nat → List Byte
  | _, [] => []
  | cursor, capacity :: capacities =>
    (k.readSince cursor capacity).bytes ++ k.drain (k.readSince cursor capacity).cursor capacities

/-! ## What a reader may expect -/

/--
A call returns the bytes of the log from `start` on.  They come behind the cursor; with a gap only
if the call says so, and then all that is left out has been overwritten.
-/
structure Follows (log : List Byte) (cursor : Nat) (r : Reading) (start : Nat) : Prop where
  ordered : cursor ≤ start
  next : r.cursor = start + r.bytes.length
  inside : r.cursor ≤ log.length
  bytes : r.bytes = (log.drop start).take r.bytes.length
  lost : cursor < start → r.dataLost = true
  overwritten : ∀ i, cursor ≤ i → i < start → i + klogRingSize < log.length

/--
Every call in a run follows the log as it is then, and calls at the end of the run return all that
is still in the ring, as far as their buffers reach.
-/
def Sees (log : List Byte) (k : Klog) (cursor : Nat) : List Event → Prop
  | [] => ∀ capacities : List Nat, k.drain cursor capacities =
      (log.drop (max cursor (log.length - klogRingSize))).take capacities.sum
  | .write c :: events => Sees (log ++ [c]) (k.putc c) cursor events
  | .read capacity :: events =>
    (∃ start, Follows log cursor (k.readSince cursor capacity) start) ∧
      Sees log k (k.readSince cursor capacity).cursor events

/-! ## The ring holds the end of the log -/

/-- The ring is the end of the log, and positions have not wrapped. -/
structure Holds (log : List Byte) (k : Klog) : Prop where
  pos : k.pos = log.length
  ring : ∀ i (hi : i < log.length), log.length ≤ i + klogRingSize →
    k.ring (i % klogRingSize) = log[i]
  few : log.length < 2 ^ 64

section Ring

variable {log : List Byte} {k : Klog} {cursor : Nat}

theorem holds_boot : Holds [] Klog.boot := ⟨rfl, nofun, by decide⟩

theorem Holds.putc (h : Holds log k) (c : Byte) (hfew : log.length + 1 < 2 ^ 64) :
    Holds (log ++ [c]) (k.putc c) := by
  have hlen : (log ++ [c]).length = log.length + 1 := length_append
  refine ⟨?_, fun i hi hin => ?_, by omega⟩
  · show (k.pos + 1) % 2 ^ 64 = _
    rw [h.pos, hlen, Nat.mod_eq_of_lt hfew]
  show Function.update k.ring (k.pos % klogRingSize) c (i % klogRingSize) = _
  rw [h.pos, Function.update_apply]
  rw [hlen] at hi hin
  by_cases hlast : i = log.length
  · subst hlast
    rw [if_pos rfl, getElem_concat_length rfl]
  -- less than one revolution apart
  have hother : i % klogRingSize ≠ log.length % klogRingSize := by
    unfold klogRingSize at hin ⊢
    omega
  have hlt : i < log.length := by omega
  rw [if_neg hother, h.ring i hlt (by omega), getElem_append_left hlt]

theorem Holds.slice (h : Holds log k) {start amount : Nat}
    (hstart : log.length ≤ start + klogRingSize) (hend : start + amount ≤ log.length) :
    ((range amount).map fun index => k.ring ((start + index) % 2 ^ 64 % klogRingSize)) =
      (log.drop start).take amount := by
  have hfew := h.few
  refine ext_getElem ?_ fun i hi _ => ?_
  · rw [length_map, length_range, length_take, length_drop]
    omega
  rw [length_map, length_range] at hi
  rw [getElem_map, getElem_range, getElem_take, getElem_drop,
    Nat.mod_eq_of_lt (show start + i < 2 ^ 64 by omega)]
  exact h.ring (start + i) (by omega) (by omega)

/-- One call, for a cursor that is not ahead of the log. -/
theorem Holds.readSince (h : Holds log k) (hcursor : cursor ≤ log.length) {capacity : Nat}
    (hcap : capacity ≠ 0) :
    let start := max cursor (log.length - klogRingSize)
    let amount := min (log.length - start) capacity
    k.readSince cursor capacity = ⟨start + amount, (log.drop start).take amount,
      decide (cursor < log.length - klogRingSize)⟩ := by
  intro start amount
  have hfew := h.few
  have hearliest : (if klogRingSize < log.length then log.length - klogRingSize else 0) =
      log.length - klogRingSize := by
    split <;> omega
  have hstart : (if cursor < log.length - klogRingSize then log.length - klogRingSize else cursor) =
      start := by
    split <;> omega
  have hamount : (if log.length - start < capacity then log.length - start else capacity) =
      amount := by
    split <;> omega
  have hinside : start ≤ log.length := by omega
  simp only [Klog.readSince, if_neg hcap, h.pos, hearliest, hstart,
    if_neg (Nat.not_lt.mpr hinside), hamount]
  rw [h.slice (by omega) (by omega), Nat.mod_eq_of_lt (by omega)]

theorem readSince_zero (k : Klog) (cursor : Nat) : k.readSince cursor 0 = ⟨cursor, [], false⟩ :=
  if_pos rfl

theorem Holds.follows (h : Holds log k) (hcursor : cursor ≤ log.length) (capacity : Nat) :
    ∃ start, Follows log cursor (k.readSince cursor capacity) start := by
  by_cases hcap : capacity = 0
  · refine ⟨cursor, ?_⟩
    rw [hcap, readSince_zero]
    exact ⟨Nat.le_refl _, rfl, hcursor, rfl, fun hlt => absurd hlt (Nat.lt_irrefl _),
      fun i h₁ h₂ => by omega⟩
  refine ⟨max cursor (log.length - klogRingSize), ?_⟩
  rw [h.readSince hcursor hcap]
  generalize hstart : max cursor (log.length - klogRingSize) = start
  have hlen : ((log.drop start).take (min (log.length - start) capacity)).length =
      min (log.length - start) capacity := by
    rw [length_take, length_drop]
    omega
  exact
    { ordered := by omega
      next := by simp only [hlen]
      inside := show start + min (log.length - start) capacity ≤ log.length by omega
      bytes := by simp only [hlen]
      lost := fun hlt => by simp only [decide_eq_true_eq]; omega
      overwritten := fun i h₁ h₂ => by omega }

/-- Calls without a write between them go through the ring. -/
theorem Holds.drain (h : Holds log k) (hcursor : cursor ≤ log.length) (capacities : List Nat) :
    k.drain cursor capacities =
      (log.drop (max cursor (log.length - klogRingSize))).take capacities.sum := by
  induction capacities generalizing cursor with
  | nil => rfl
  | cons capacity capacities ih =>
    rw [Klog.drain, sum_cons]
    by_cases hcap : capacity = 0
    · rw [hcap, readSince_zero, nil_append, ih hcursor, Nat.zero_add]
    rw [h.readSince hcursor hcap]
    generalize hstart : max cursor (log.length - klogRingSize) = start
    have hnext : max (start + min (log.length - start) capacity) (log.length - klogRingSize) =
        start + min (log.length - start) capacity := by omega
    simp only
    rw [ih (by omega), hnext, take_add, ← drop_drop]
    have hlen : (log.drop start).length = log.length - start := length_drop
    rw [← hlen]
    generalize log.drop start = rest
    by_cases hle : capacity ≤ rest.length
    · rw [Nat.min_eq_right hle]
    -- the rest of the log fits the buffer
    have hge : rest.length ≤ capacity := by omega
    rw [Nat.min_eq_left hge, take_length, drop_length, take_of_length_le hge, drop_of_length_le hge]

theorem Holds.sees (h : Holds log k) (hcursor : cursor ≤ log.length) {events : List Event}
    (hfew : log.length + (written events).length < 2 ^ 64) : Sees log k cursor events := by
  induction events generalizing log k cursor with
  | nil => exact h.drain hcursor
  | cons e events ih =>
    cases e with
    | write c =>
      have hlen : (log ++ [c]).length = log.length + 1 := length_append
      rw [written, length_cons] at hfew
      exact ih (h.putc c (by omega)) (by omega) (by omega)
    | read capacity =>
      obtain ⟨start, hfollows⟩ := h.follows hcursor capacity
      exact ⟨⟨start, hfollows⟩, ih h hfollows.inside hfew⟩

theorem holds_puts {more : List Byte} (h : Holds log k) (hfew : log.length + more.length < 2 ^ 64) :
    Holds (log ++ more) (more.foldl Klog.putc k) := by
  induction more generalizing log k with
  | nil => exact (append_nil log).symm ▸ h
  | cons c more ih =>
    rw [length_cons] at hfew
    rw [append_cons]
    refine ih (h.putc c (by omega)) ?_
    rw [length_append, length_singleton]
    omega

end Ring

/--
Log readers see the log.  From every past position, over every interleaving of writes and calls with
any buffers, as long as fewer than 2^64 bytes are written.
-/
theorem klog_readers_see
    (before : List Byte)
    (cursor : Nat)
    (hcursor : cursor ≤ before.length)
    (events : List Event)
    (hfew : before.length + (written events).length < 2 ^ 64) :
    Sees before (before.foldl Klog.putc Klog.boot) cursor events := by
  have hholds : Holds before (before.foldl Klog.putc Klog.boot) :=
    holds_puts holds_boot (by rw [length_nil]; omega)
  exact hholds.sees hcursor hfew

theorem klog_readers_see_bytes :
    Sees [1, 2] ([1, 2].foldl Klog.putc Klog.boot) 1 [.read 1, .write 3, .read 0, .read 9] :=
  klog_readers_see [1, 2] 1 (by decide) _ (by decide)

theorem pos_puts (k : Klog) (hk : k.pos < 2 ^ 64) (log : List Byte) :
    (log.foldl Klog.putc k).pos = (k.pos + log.length) % 2 ^ 64 := by
  induction log generalizing k with
  | nil => exact (Nat.mod_eq_of_lt hk).symm
  | cons c log ih =>
    rw [foldl_cons, ih _ (Nat.mod_lt _ (by decide)), length_cons]
    show ((k.pos + 1) % 2 ^ 64 + log.length) % 2 ^ 64 = _
    omega

/--
After 2^64 bytes the position is zero again, and the last byte is not delivered to its reader.
-/
theorem not_sees_of_length {log : List Byte} (hlen : log.length = 2 ^ 64) :
    ¬Sees log (log.foldl Klog.putc Klog.boot) (2 ^ 64 - 1) [] := by
  intro h
  have hpos : (log.foldl Klog.putc Klog.boot).pos = 0 := by
    rw [pos_puts _ (by decide), hlen]
    rfl
  generalize log.foldl Klog.putc Klog.boot = k at h hpos
  have hnone : k.drain (2 ^ 64 - 1) [1] = [] := by
    simp [Klog.drain, Klog.readSince, hpos]
  have hlost := congrArg length (hnone.symm.trans (h [1]))
  rw [length_take, length_drop, hlen, length_nil] at hlost
  unfold klogRingSize at hlost
  simp at hlost

theorem klog_position_wraps :
    ¬Sees (replicate (2 ^ 64) 7) ((replicate (2 ^ 64) 7).foldl Klog.putc Klog.boot)
      (2 ^ 64 - 1) [] :=
  not_sees_of_length length_replicate

end PureCOS.Diagnostics
