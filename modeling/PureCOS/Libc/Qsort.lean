import PureCOS.Lib.Bytes
import PureCOS.Lib.Loop
import PureCOS.Lib.Rearrange

/-!
# `qsort`

`libc/stdlib.c`: an iterative quicksort over an array of elements of any size.  The ranges still
to be sorted are on a stack of 64 slots; small ranges are sorted by insertion, and if the stack is
full the whole array is.

The array is in a byte memory, and elements change places byte by byte.  The comparison function
gets two addresses; it reads the elements there, and the model keeps all addresses it was given
and all slots of the stack that were used.  Indices and differences of indices are natural
numbers; products and addresses are taken modulo 2^64.
-/

namespace PureCOS.Libc

open Rearrange List Equiv

/-- The arguments of `qsort`: an array in the address space, and a comparison of elements. -/
structure Sorting where
  base : Nat
  count : Nat
  size : Nat
  compare : List Byte → List Byte → Int
  fits : base + count * size ≤ 2 ^ 64
  small : count * size < 2 ^ 63

/-- Memory and local variables, with what has been compared and which slots have been used. -/
structure Sorter where
  mem : Buffer
  stack : Nat → Nat
  depth : Nat
  compared : List (Nat × Nat)
  slots : List Nat

/-- One byte is written. -/
def store (m : Buffer) (a : Nat) (v : Byte) : Buffer := fun x => if x = a then v else m x

def qsortSwap (a b size : Nat) (m : Buffer) : Buffer :=
  Loop.each (fun m k => store (store m (a + k) (m (b + k))) (b + k) (m (a + k))) size 0 m

/-- `stack[depth++] = low; stack[depth++] = high` -/
def Sorter.push (s : Sorter) (low high : Nat) : Sorter :=
  { s with
    stack := fun k => if k = s.depth then low else if k = s.depth + 1 then high else s.stack k
    depth := s.depth + 2
    slots := s.slots ++ [s.depth, s.depth + 1] }

/-- The size of the stack. -/
def stackSlots : Nat := 64

/-- A range is put on the stack if there is one and it has room. -/
def Sorter.pushIf (s : Sorter) (some : Bool) (low high : Nat) : Sorter :=
  if some && decide (s.depth + 2 ≤ stackSlots) then s.push low high else s

/-- The two parts of a range, the larger one first. -/
def Sorter.pushParts (s : Sorter) (low store high : Nat) : Sorter :=
  let hasLeft := decide (low < store)
  let hasRight := decide (store < high)
  let leftHi := if hasLeft then store - 1 else 0
  let rightLo := if hasRight then store + 1 else 0
  let leftSize := if hasLeft then leftHi - low + 1 else 0
  let rightSize := if hasRight then high - rightLo + 1 else 0
  if rightSize < leftSize then
    (s.pushIf hasLeft low leftHi).pushIf hasRight rightLo high
  else
    (s.pushIf hasRight rightLo high).pushIf hasLeft low leftHi

/-- `high = stack[--depth]; low = stack[--depth]` -/
def Sorter.pop (s : Sorter) : Sorter :=
  { s with depth := s.depth - 2, slots := s.slots ++ [s.depth - 1, s.depth - 2] }

namespace Sorting

variable (q : Sorting)

/-- `items + i * size` -/
def address (i : Nat) : Nat := (q.base + i * q.size % 2 ^ 64) % 2 ^ 64

/-- The bytes of an element. -/
def element (m : Buffer) (i : Nat) : List Byte :=
  (range q.size).map fun k => m (q.address i + k)

/-- The comparison function is called. -/
def compareAt (s : Sorter) (i j : Nat) : Sorter × Int :=
  ({ s with compared := s.compared ++ [(q.address i, q.address j)] },
    q.compare (q.element s.mem i) (q.element s.mem j))

def swapAt (s : Sorter) (i j : Nat) : Sorter :=
  { s with mem := qsortSwap (q.address i) (q.address j) q.size s.mem }

/-- The inner loop of the insertion sort. -/
def sink (low : Nat) : Nat → Sorter → Sorter
  | 0, s => s
  | j + 1, s =>
    if low < j + 1 then
      match q.compareAt s j (j + 1) with
      | (s, order) => if 0 < order then sink low j (q.swapAt s j (j + 1)) else s
    else
      s

/-- The insertion sort of a range. -/
def insertionSort (low high : Nat) (s : Sorter) : Sorter :=
  Loop.each (fun s i => q.sink low i s) (high - low) (low + 1) s

/-- Two elements are put in order. -/
def orderPair (i j : Nat) (s : Sorter) : Sorter :=
  match q.compareAt s i j with
  | (s, order) => if 0 < order then q.swapAt s i j else s

/-- The median of three elements is moved to the end of the range. -/
def medianToHigh (low high : Nat) (s : Sorter) : Sorter :=
  let mid := low + (high - low) / 2
  let s := q.orderPair low mid s
  let s := q.orderPair mid high s
  let s := q.orderPair low mid s
  q.swapAt s mid high

/-- One round of the partition loop. -/
def partitionRound (high : Nat) (r : Sorter × Nat) (k : Nat) : Sorter × Nat :=
  match q.compareAt r.1 k high with
  | (s, order) => if order ≤ 0 then (q.swapAt s r.2 k, r.2 + 1) else (s, r.2)

/-- The partition around the last element; the result has the place of the pivot. -/
def partition (low high : Nat) (s : Sorter) : Sorter × Nat :=
  match Loop.each (q.partitionRound high) (high - low) low (s, low) with
  | (s, store) => (q.swapAt s store high, store)

/-- One round of the main loop; `true` if the function returns. -/
def round (s : Sorter) : Sorter × Bool :=
  let high := s.stack (s.depth - 1)
  let low := s.stack (s.depth - 2)
  let s := s.pop
  if high - low < 16 then
    (q.insertionSort low high s, false)
  else
    match q.partition low high (q.medianToHigh low high s) with
    | (s, store) =>
      let s := s.pushParts low store high
      if stackSlots < s.depth + 2 then (q.insertionSort 0 (q.count - 1) s, true) else (s, false)

/-- The main loop; `none` if it has not ended after so many rounds. -/
def rounds : Nat → Sorter → Option Sorter
  | 0, s => if s.depth = 0 then some s else none
  | n + 1, s =>
    if s.depth = 0 then
      some s
    else
      match q.round s with
      | (s, true) => some s
      | (s, false) => rounds n s

def qsort (fuel : Nat) (m : Buffer) : Option Sorter :=
  let s : Sorter := ⟨m, fun _ => 0, 0, [], []⟩
  if q.count < 2 ∨ q.size = 0 then some s else q.rounds fuel (s.push 0 (q.count - 1))

end Sorting

/-! ## Bytes change places -/

section Swap

variable {m : Buffer} {a b size : Nat}

theorem store_apply (m : Buffer) (a : Nat) (v : Byte) (x : Nat) :
    store m a v x = if x = a then v else m x := rfl

theorem qsortSwap_apply (hab : a = b ∨ a + size ≤ b ∨ b + size ≤ a) (x : Nat) :
    qsortSwap a b size m x =
      if a ≤ x ∧ x < a + size then m (b + (x - a))
      else if b ≤ x ∧ x < b + size then m (a + (x - b)) else m x := by
  -- the bytes before position `k` have changed places
  let I : Nat → Buffer → Prop := fun k m' => ∀ x, m' x =
    if a ≤ x ∧ x < a + k then m (b + (x - a))
    else if b ≤ x ∧ x < b + k then m (a + (x - b)) else m x
  have hrun : I (0 + size) (qsortSwap a b size m) := by
    refine Loop.each_induction _ I (fun k m' _ hk hI => ?_) (fun x => ?_)
    · have ha : m' (a + k) = m (a + k) := by
        rw [hI, if_neg (by omega), if_neg (by omega)]
      have hb : m' (b + k) = m (b + k) := by
        rw [hI, if_neg (by omega), if_neg (by omega)]
      intro x
      rw [store_apply, store_apply, ha, hb]
      by_cases hxb : x = b + k
      · subst hxb
        rw [if_pos rfl]
        rcases hab with rfl | hab
        · rw [if_pos (by omega), Nat.add_sub_cancel_left]
        · rw [if_neg (by omega), if_pos (by omega), Nat.add_sub_cancel_left]
      rw [if_neg hxb]
      by_cases hxa : x = a + k
      · subst hxa
        rw [if_pos rfl, if_pos (by omega), Nat.add_sub_cancel_left]
      rw [if_neg hxa, hI]
      by_cases h₁ : a ≤ x ∧ x < a + k
      · rw [if_pos h₁, if_pos (by omega)]
      rw [if_neg h₁, if_neg (by omega : ¬(a ≤ x ∧ x < a + (k + 1)))]
      by_cases h₂ : b ≤ x ∧ x < b + k
      · rw [if_pos h₂, if_pos (by omega)]
      · rw [if_neg h₂, if_neg (by omega)]
    · rw [if_neg (by omega), if_neg (by omega)]
  rw [Nat.zero_add] at hrun
  exact hrun x

end Swap

namespace Sorting

variable {q : Sorting}

/-! ## Elements -/

section Elements

variable {i j : Nat} {m : Buffer} (hsize : 0 < q.size)

/-- The array as a sequence of elements. -/
def view (q : Sorting) (m : Buffer) : Nat → List Byte := fun i =>
  if i < q.count then q.element m i else []

theorem view_eq (hi : i < q.count) : q.view m i = q.element m i := if_pos hi

include hsize

theorem address_eq (hi : i < q.count) : q.address i = q.base + i * q.size := by
  have hmul : i * q.size + q.size ≤ q.count * q.size := by
    have h := Nat.mul_le_mul_right q.size (Nat.succ_le_of_lt hi)
    rwa [Nat.succ_mul] at h
  have hfits := q.fits
  unfold address
  rw [Nat.mod_eq_of_lt (show i * q.size < 2 ^ 64 by omega), Nat.mod_eq_of_lt (by omega)]

/-- Different elements share no byte. -/
theorem address_apart (hi : i < q.count) (hj : j < q.count) (hij : i < j) :
    q.address i + q.size ≤ q.address j := by
  have hmul := Nat.mul_le_mul_right q.size (Nat.succ_le_of_lt hij)
  rw [Nat.succ_mul] at hmul
  rw [address_eq hsize hi, address_eq hsize hj]
  omega

theorem address_disjoint (hi : i < q.count) (hj : j < q.count) (hij : i ≠ j) :
    q.address i + q.size ≤ q.address j ∨ q.address j + q.size ≤ q.address i := by
  rcases Nat.lt_or_gt_of_ne hij with h | h
  · exact .inl (address_apart hsize hi hj h)
  · exact .inr (address_apart hsize hj hi h)

theorem address_range (hi : i < q.count) :
    q.base ≤ q.address i ∧ q.address i + q.size ≤ q.base + q.count * q.size := by
  have hmul := Nat.mul_le_mul_right q.size (Nat.succ_le_of_lt hi)
  rw [Nat.succ_mul] at hmul
  rw [address_eq hsize hi]
  omega

theorem swapped_apply (hi : i < q.count) (hj : j < q.count) (x : Nat) :
    qsortSwap (q.address i) (q.address j) q.size m x =
      if q.address i ≤ x ∧ x < q.address i + q.size then m (q.address j + (x - q.address i))
      else if q.address j ≤ x ∧ x < q.address j + q.size then m (q.address i + (x - q.address j))
      else m x := by
  refine qsortSwap_apply ?_ x
  by_cases hij : i = j
  · exact .inl (by rw [hij])
  · exact .inr (address_disjoint hsize hi hj hij)

/-- A swap of two elements. -/
theorem view_swapAt (s : Sorter) (hi : i < q.count) (hj : j < q.count) (k : Nat) :
    q.view (q.swapAt s i j).mem k = q.view s.mem (swap i j k) := by
  unfold view swapAt
  by_cases hk : k < q.count
  · have hbytes : ∀ l, l < q.count → (∀ d < q.size, qsortSwap (q.address i)
        (q.address j) q.size s.mem (q.address k + d) = s.mem (q.address l + d)) →
        q.element (qsortSwap (q.address i) (q.address j) q.size s.mem) k = q.element s.mem l := by
      intro l _ h
      exact map_congr_left fun d hd => h d (mem_range.mp hd)
    by_cases hki : k = i
    · subst hki
      rw [swap_apply_left, if_pos hk, if_pos hj]
      refine hbytes j hj fun d hd => ?_
      rw [swapped_apply hsize hk hj, if_pos (by omega), Nat.add_sub_cancel_left]
    have hapart := address_disjoint hsize hk hi hki
    by_cases hkj : k = j
    · subst hkj
      rw [swap_apply_right, if_pos hk, if_pos hi]
      refine hbytes i hi fun d hd => ?_
      rw [swapped_apply hsize hi hk, if_neg (by omega), if_pos (by omega), Nat.add_sub_cancel_left]
    · have hapart' := address_disjoint hsize hk hj hkj
      rw [swap_apply_of_ne_of_ne hki hkj, if_pos hk, if_pos hk]
      refine hbytes k hk fun d hd => ?_
      rw [swapped_apply hsize hi hj, if_neg (by omega), if_neg (by omega)]
  · have hne : ∀ l, l < q.count → k ≠ l := fun l hl heq => hk (heq ▸ hl)
    rw [swap_apply_of_ne_of_ne (hne i hi) (hne j hj), if_neg hk, if_neg hk]

end Elements

/-! ## What the parts of the algorithm change -/

/-- Addresses of two elements of the array. -/
def Elements (q : Sorting) (p : Nat × Nat) : Prop :=
  ∃ i j, i < q.count ∧ j < q.count ∧ p = (q.base + i * q.size, q.base + j * q.size)

/-- Elements between two positions are compared and moved; nothing else happens. -/
structure Moves (q : Sorting) (lo hi : Nat) (s s' : Sorter) : Prop where
  view : Rearranged lo hi (q.view s.mem) (q.view s'.mem)
  frame : ∀ x, x < q.base ∨ q.base + q.count * q.size ≤ x → s'.mem x = s.mem x
  compared : (∀ p ∈ s.compared, q.Elements p) → ∀ p ∈ s'.compared, q.Elements p
  stack : s'.stack = s.stack
  depth : s'.depth = s.depth
  slots : s'.slots = s.slots

section Moves

variable {lo hi i j : Nat} {s s' s'' : Sorter}

theorem Moves.refl (lo hi : Nat) (s : Sorter) : q.Moves lo hi s s :=
  ⟨Rearranged.refl _ _ _, fun _ _ => rfl, fun h => h, rfl, rfl, rfl⟩

theorem Moves.trans (h₁ : q.Moves lo hi s s') (h₂ : q.Moves lo hi s' s'') :
    q.Moves lo hi s s'' where
  view := h₁.view.trans h₂.view
  frame x hx := (h₂.frame x hx).trans (h₁.frame x hx)
  compared h := h₂.compared (h₁.compared h)
  stack := h₂.stack.trans h₁.stack
  depth := h₂.depth.trans h₁.depth
  slots := h₂.slots.trans h₁.slots

theorem Moves.mono {lo' hi' : Nat} (h : q.Moves lo hi s s') (hlo : lo' ≤ lo) (hhi : hi ≤ hi') :
    q.Moves lo' hi' s s' :=
  ⟨h.view.mono hlo hhi, h.frame, h.compared, h.stack, h.depth, h.slots⟩

theorem moves_compareAt (hsize : 0 < q.size) (lo hi : Nat) (s : Sorter) (hi' : i < q.count)
    (hj : j < q.count) : q.Moves lo hi s (q.compareAt s i j).1 where
  view := Rearranged.refl _ _ _
  frame _ _ := rfl
  compared h p hp := by
    rcases mem_append.mp hp with hp | hp
    · exact h p hp
    · obtain rfl := mem_singleton.mp hp
      exact ⟨i, j, hi', hj, by rw [address_eq hsize hi', address_eq hsize hj]⟩
  stack := rfl
  depth := rfl
  slots := rfl

theorem moves_swapAt (hsize : 0 < q.size) (s : Sorter) (hn : hi < q.count) (hi₁ : lo ≤ i)
    (hi₂ : i ≤ hi) (hj₁ : lo ≤ j) (hj₂ : j ≤ hi) : q.Moves lo hi s (q.swapAt s i j) where
  view := Rearranged.swap hi₁ hi₂ hj₁ hj₂ (view_swapAt hsize s (by omega) (by omega))
  frame x hx := by
    have hi' := address_range hsize (show i < q.count by omega)
    have hj' := address_range hsize (show j < q.count by omega)
    show qsortSwap (q.address i) (q.address j) q.size s.mem x = s.mem x
    rw [swapped_apply hsize (by omega) (by omega), if_neg (by omega), if_neg (by omega)]
  compared h := h
  stack := rfl
  depth := rfl
  slots := rfl

end Moves

/-! ## Insertion -/

/-- The comparison is a total preorder of elements of this size. -/
structure Ordering (q : Sorting) : Prop where
  total : ∀ x y, x.length = q.size → y.length = q.size → q.compare x y ≤ 0 ∨ q.compare y x ≤ 0
  trans : ∀ x y z, x.length = q.size → y.length = q.size → z.length = q.size →
    q.compare x y ≤ 0 → q.compare y z ≤ 0 → q.compare x z ≤ 0

/-- Two elements in order. -/
def Le (q : Sorting) (x y : List Byte) : Prop := q.compare x y ≤ 0

section Order

variable {i j k lo hi : Nat} {m : Buffer} {s : Sorter}

theorem length_view (hi : i < q.count) : (q.view m i).length = q.size := by
  rw [view_eq hi]
  simp [element]

theorem Ordering.le_of_lt (ho : q.Ordering) (hi : i < q.count) (hj : j < q.count)
    (h : 0 < q.compare (q.element m i) (q.element m j)) : q.Le (q.view m j) (q.view m i) := by
  rcases ho.total (q.view m i) (q.view m j) (length_view hi) (length_view hj) with hle | hle
  · rw [view_eq hi, view_eq hj] at hle
    omega
  · exact hle

theorem Ordering.trans_view (ho : q.Ordering) (hi : i < q.count) (hj : j < q.count)
    (hk : k < q.count) (h₁ : q.Le (q.view m i) (q.view m j)) (h₂ : q.Le (q.view m j) (q.view m k)) :
    q.Le (q.view m i) (q.view m k) :=
  ho.trans _ _ _ (length_view hi) (length_view hj) (length_view hk) h₁ h₂

/-- An element sinks to its place among those before it. -/
theorem sink_spec (ho : q.Ordering) (hsize : 0 < q.size) (hn : hi < q.count) (hlo : lo ≤ j)
    (hhi : j ≤ hi) (h : SortedBut q.Le j lo hi (q.view s.mem)) :
    q.Moves lo hi s (q.sink lo j s) ∧ SortedOn q.Le lo hi (q.view (q.sink lo j s).mem) := by
  induction j generalizing s with
  | zero =>
    obtain rfl : lo = 0 := by omega
    exact ⟨Moves.refl _ _ _, h.first⟩
  | succ j ih =>
    unfold sink
    by_cases hlt : lo < j + 1
    · rw [if_pos hlt]
      have hcompare :=
        moves_compareAt hsize lo hi s (show j < q.count by omega) (show j + 1 < q.count by omega)
      rcases hc : q.compareAt s j (j + 1) with ⟨s₁, order⟩
      rw [hc] at hcompare
      have hmem : s₁.mem = s.mem := (congrArg (fun r => r.1.mem) hc).symm
      have horder : order = q.compare (q.element s.mem j) (q.element s.mem (j + 1)) :=
        (congrArg Prod.snd hc).symm
      simp only
      split
      next hpos =>
        have hswap :=
          view_swapAt hsize s₁ (show j < q.count by omega) (show j + 1 < q.count by omega)
        have hle : q.Le (q.view s₁.mem (j + 1)) (q.view s₁.mem j) := by
          rw [hmem]
          exact ho.le_of_lt (by omega) (by omega) (horder ▸ hpos)
        rw [← hmem] at h
        obtain ⟨hmoves, hsorted⟩ := ih (by omega) (by omega) (h.sink (by omega) hhi hle hswap)
        exact ⟨(hcompare.trans
          (moves_swapAt hsize s₁ hn (by omega) (by omega) (by omega) hhi)).trans hmoves, hsorted⟩
      next hnot =>
      refine ⟨hcompare, ?_⟩
      rw [← hmem] at h
      refine h.stop (fun i j k hi hj hk => ho.trans_view (by omega) (by omega) (by omega)) hhi ?_
      rw [hmem, Le, view_eq (by omega), view_eq (by omega)]
      omega
    · rw [if_neg hlt]
      obtain rfl : lo = j + 1 := by omega
      exact ⟨Moves.refl _ _ _, h.first⟩

/-- The range is sorted. -/
theorem insertionSort_spec (ho : q.Ordering) (hsize : 0 < q.size)
    (hle : lo ≤ hi) (hn : hi < q.count) : q.Moves lo hi s (q.insertionSort lo hi s) ∧
    SortedOn q.Le lo hi (q.view (q.insertionSort lo hi s).mem) := by
  -- before position `i` the elements of the range are in order
  let I : Nat → Sorter → Prop :=
    fun i s' => q.Moves lo hi s s' ∧ SortedOn q.Le lo (i - 1) (q.view s'.mem)
  have hrun : I (lo + 1 + (hi - lo)) (q.insertionSort lo hi s) := by
    refine Loop.each_induction _ I (fun i s' h₁ h₂ hI => ?_)
      ⟨Moves.refl _ _ _, fun i j _ _ _ => by omega⟩
    obtain ⟨i, rfl⟩ : ∃ i', i = i' + 1 := ⟨i - 1, by omega⟩
    have hbefore : SortedOn q.Le lo i (q.view s'.mem) := hI.2
    obtain ⟨hmoves, hsorted⟩ := sink_spec ho hsize (show i + 1 < q.count by omega) (by omega)
      (Nat.le_refl _) hbefore.extend
    exact ⟨hI.1.trans (hmoves.mono (Nat.le_refl _) (by omega)), hsorted⟩
  rw [show lo + 1 + (hi - lo) = hi + 1 by omega] at hrun
  exact hrun

end Order

/-! ## Partition -/

section Partition

variable {i j lo hi : Nat} {s : Sorter}

theorem moves_orderPair (hsize : 0 < q.size) (s : Sorter) (hn : hi < q.count) (hi₁ : lo ≤ i)
    (hi₂ : i ≤ hi) (hj₁ : lo ≤ j) (hj₂ : j ≤ hi) : q.Moves lo hi s (q.orderPair i j s) := by
  have hcompare :=
    moves_compareAt hsize lo hi s (show i < q.count by omega) (show j < q.count by omega)
  unfold orderPair
  simp only
  split
  · exact hcompare.trans (moves_swapAt hsize _ hn hi₁ hi₂ hj₁ hj₂)
  · exact hcompare

theorem moves_medianToHigh (hsize : 0 < q.size) (s : Sorter) (hle : lo ≤ hi) (hn : hi < q.count) :
    q.Moves lo hi s (q.medianToHigh lo hi s) := by
  have hmid : lo ≤ lo + (hi - lo) / 2 ∧ lo + (hi - lo) / 2 ≤ hi := by omega
  have h₁ := moves_orderPair hsize s hn (Nat.le_refl lo) hle hmid.1 hmid.2
  have h₂ := h₁.trans (moves_orderPair hsize _ hn hmid.1 hmid.2 hle (Nat.le_refl hi))
  have h₃ := h₂.trans (moves_orderPair hsize _ hn (Nat.le_refl lo) hle hmid.1 hmid.2)
  exact h₃.trans (moves_swapAt hsize _ hn hmid.1 hmid.2 hle (Nat.le_refl hi))

/--
The partition before position `k`: smaller elements, then larger ones, and the pivot at the end.
-/
structure Partitioned (q : Sorting) (lo hi : Nat) (s : Sorter) (k : Nat) (r : Sorter × Nat) :
    Prop where
  moves : q.Moves lo hi s r.1
  low : lo ≤ r.2
  high : r.2 ≤ k
  smaller : ∀ i, lo ≤ i → i < r.2 → q.Le (q.view r.1.mem i) (q.view r.1.mem hi)
  larger : ∀ i, r.2 ≤ i → i < k → q.Le (q.view r.1.mem hi) (q.view r.1.mem i)

theorem Partitioned.next (ho : q.Ordering) (hsize : 0 < q.size) (hn : hi < q.count) {k : Nat}
    {r : Sorter × Nat} (h : q.Partitioned lo hi s k r) (hlo : lo ≤ k) (hk : k < hi) :
    q.Partitioned lo hi s (k + 1) (q.partitionRound hi r k) := by
  obtain ⟨s₀, store⟩ := r
  obtain ⟨hmoves, hlow, hhigh, hsmaller, hlarger⟩ := h
  have hcompare := moves_compareAt hsize lo hi s₀ (show k < q.count by omega) hn
  unfold partitionRound
  rcases hc : q.compareAt s₀ k hi with ⟨s₁, order⟩
  rw [hc] at hcompare
  have hmem : s₁.mem = s₀.mem := (congrArg (fun r => r.1.mem) hc).symm
  have horder : order = q.compare (q.element s₀.mem k) (q.element s₀.mem hi) :=
    (congrArg Prod.snd hc).symm
  rw [← hmem] at hsmaller hlarger horder
  simp only
  split
  next hle =>
    have hswap := view_swapAt hsize s₁ (show store < q.count by omega) (show k < q.count by omega)
    have hlast : q.view (q.swapAt s₁ store k).mem hi = q.view s₁.mem hi := by
      rw [hswap, swap_apply_of_ne_of_ne (by omega) (by omega)]
    have hpivot : q.Le (q.view s₁.mem k) (q.view s₁.mem hi) := by
      rw [Le, view_eq (by omega), view_eq hn, ← horder]
      exact hle
    refine ⟨(hmoves.trans hcompare).trans (moves_swapAt hsize s₁ hn hlow (by omega) hlo (by omega)),
      Nat.le_succ_of_le hlow, Nat.succ_le_succ hhigh, fun i h₁ h₂ => ?_, fun i h₁ h₂ => ?_⟩
    · simp only at h₂ ⊢
      rw [hlast, hswap]
      by_cases his : i = store
      · rw [his, swap_apply_left]
        exact hpivot
      · rw [swap_apply_of_ne_of_ne his (by omega)]
        exact hsmaller i h₁ (by omega)
    · simp only at h₁ ⊢
      rw [hlast, hswap]
      by_cases hik : i = k
      · rw [hik, swap_apply_right]
        exact hlarger store (Nat.le_refl _) (by omega)
      · rw [swap_apply_of_ne_of_ne (by omega) hik]
        exact hlarger i (by omega) (by omega)
  next hgt =>
  refine ⟨hmoves.trans hcompare, hlow, Nat.le_succ_of_le hhigh, hsmaller, fun i h₁ h₂ => ?_⟩
  by_cases hik : i = k
  · rw [hik]
    exact ho.le_of_lt (by omega) hn
      (show 0 < q.compare (q.element s₁.mem k) (q.element s₁.mem hi) by omega)
  · exact hlarger i h₁ (by omega)

/-- The pivot stands between elements that are not larger and elements that are not smaller. -/
theorem partition_spec (ho : q.Ordering) (hsize : 0 < q.size) (hle : lo ≤ hi) (hn : hi < q.count)
    {s' : Sorter} {store : Nat} (h : q.partition lo hi s = (s', store)) :
    q.Moves lo hi s s' ∧ lo ≤ store ∧ store ≤ hi ∧
      ∀ i j, lo ≤ i → i < j → j ≤ hi → i ≤ store → store ≤ j →
        q.Le (q.view s'.mem i) (q.view s'.mem j) := by
  have hloop : q.Partitioned lo hi s (lo + (hi - lo))
      (Loop.each (q.partitionRound hi) (hi - lo) lo (s, lo)) :=
    Loop.each_induction _ (q.Partitioned lo hi s)
      (fun k r h₁ h₂ hr => hr.next ho hsize hn h₁ (by omega))
      ⟨Moves.refl _ _ _, Nat.le_refl _, Nat.le_refl _, fun i h₁ h₂ => by omega,
        fun i h₁ h₂ => by omega⟩
  unfold partition at h
  rw [show lo + (hi - lo) = hi by omega] at hloop
  rcases hl : Loop.each (q.partitionRound hi) (hi - lo) lo (s, lo) with ⟨s₁, store₁⟩
  rw [hl] at hloop h
  obtain ⟨rfl, rfl⟩ := Prod.mk.inj h
  obtain ⟨hmoves, hlow, hhigh, hsmaller, hlarger⟩ := hloop
  have hswap := view_swapAt hsize s₁ (show store₁ < q.count by omega) hn
  have hpivot : q.view (q.swapAt s₁ store₁ hi).mem store₁ = q.view s₁.mem hi := by
    rw [hswap, swap_apply_left]
  have hsmall : ∀ i, lo ≤ i → i < store₁ →
      q.Le (q.view (q.swapAt s₁ store₁ hi).mem i) (q.view s₁.mem hi) := fun i h₁ h₂ => by
    rw [hswap, swap_apply_of_ne_of_ne (by omega) (by omega)]
    exact hsmaller i h₁ h₂
  have hlarge : ∀ j, store₁ < j → j ≤ hi →
      q.Le (q.view s₁.mem hi) (q.view (q.swapAt s₁ store₁ hi).mem j) := fun j h₁ h₂ => by
    rw [hswap]
    by_cases hj : j = hi
    · rw [hj, swap_apply_right]
      exact hlarger store₁ (Nat.le_refl _) (by omega)
    · rw [swap_apply_of_ne_of_ne (by omega) hj]
      exact hlarger j (by omega) (by omega)
  refine ⟨hmoves.trans (moves_swapAt hsize s₁ hn hlow hhigh hle (Nat.le_refl hi)), hlow, hhigh, ?_⟩
  intro i j h₁ hij h₂ his hsj
  by_cases hi' : i = store₁
  · rw [hi', hpivot]
    exact hlarge j (by omega) h₂
  have hleft := hsmall i h₁ (by omega)
  by_cases hj' : j = store₁
  · rw [hj', hpivot]
    exact hleft
  rw [← hpivot] at hleft
  have hright := hlarge j (by omega) h₂
  rw [← hpivot] at hright
  exact ho.trans_view (by omega) (by omega) (by omega) hleft hright

end Partition

end Sorting

/-! ## The stack -/

/-- The stack holds these ranges, the first one on top. -/
def OnStack (stack : Nat → Nat) : Nat → List (Nat × Nat) → Prop
  | depth, [] => depth = 0
  | depth, r :: ranges =>
    ∃ d, depth = d + 2 ∧ stack d = r.1 ∧ stack (d + 1) = r.2 ∧ OnStack stack d ranges

/-- The range if there is one. -/
def rangeIf (some : Bool) (low high : Nat) : List (Nat × Nat) := if some then [(low, high)] else []

section Stack

variable {stack stack' : Nat → Nat} {depth low high : Nat} {ranges : List (Nat × Nat)} {s : Sorter}

theorem OnStack.congr (h : OnStack stack depth ranges) (hsame : ∀ k < depth, stack' k = stack k) :
    OnStack stack' depth ranges := by
  induction ranges generalizing depth with
  | nil => exact h
  | cons r ranges ih =>
    obtain ⟨d, rfl, hlow, hhigh, hrest⟩ := h
    refine ⟨d, rfl, ?_, ?_, ih hrest fun k hk => hsame k (by omega)⟩
    · rw [hsame d (by omega), hlow]
    · rw [hsame (d + 1) (by omega), hhigh]

theorem OnStack.push (h : OnStack s.stack s.depth ranges) (low high : Nat) :
    OnStack (s.push low high).stack (s.push low high).depth ((low, high) :: ranges) := by
  refine ⟨s.depth, rfl, if_pos rfl, ?_, h.congr fun k hk => ?_⟩
  · exact (if_neg (by omega)).trans (if_pos rfl)
  · exact (if_neg (by omega)).trans (if_neg (by omega))

/-- A push changes nothing but the stack. -/
structure Pushed (s s' : Sorter) : Prop where
  mem : s'.mem = s.mem
  compared : s'.compared = s.compared
  slots : (∀ k ∈ s.slots, k < stackSlots) → ∀ k ∈ s'.slots, k < stackSlots

theorem Pushed.trans {s' s'' : Sorter} (h₁ : Pushed s s') (h₂ : Pushed s' s'') : Pushed s s'' :=
  ⟨h₂.mem.trans h₁.mem, h₂.compared.trans h₁.compared, fun h => h₂.slots (h₁.slots h)⟩

theorem pushed_push (low high : Nat) (hroom : s.depth + 2 ≤ stackSlots) :
    Pushed s (s.push low high) := by
  refine ⟨rfl, rfl, fun h k hk => ?_⟩
  rcases mem_append.mp hk with hk | hk
  · exact h k hk
  · simp only [mem_cons, not_mem_nil, or_false] at hk
    omega

theorem pushIf_spec (h : OnStack s.stack s.depth ranges) (hroom : s.depth + 2 ≤ stackSlots)
    (some : Bool) (low high : Nat) :
    Pushed s (s.pushIf some low high) ∧ (s.pushIf some low high).depth ≤ s.depth + 2 ∧
      OnStack (s.pushIf some low high).stack (s.pushIf some low high).depth
        (rangeIf some low high ++ ranges) := by
  unfold Sorter.pushIf rangeIf
  cases some with
  | false => exact ⟨⟨rfl, rfl, fun h => h⟩, Nat.le_add_right _ _, h⟩
  | true =>
    rw [if_pos (by simpa using hroom)]
    exact ⟨pushed_push low high hroom, Nat.le_refl _, h.push low high⟩

/-- The number of positions in all the ranges. -/
def total (ranges : List (Nat × Nat)) : Nat := (ranges.map fun r => r.2 - r.1 + 1).sum

theorem total_append (ranges ranges' : List (Nat × Nat)) :
    total (ranges ++ ranges') = total ranges + total ranges' := by
  simp [total]

/-- The ranges left and right of the pivot. -/
structure Parts (low store high : Nat) (news : List (Nat × Nat)) : Prop where
  left : low < store → (low, store - 1) ∈ news
  right : store < high → (store + 1, high) ∈ news
  total : total news ≤ high - low
  ranges : ∀ n ranges, Ranges n ((low, high) :: ranges) → Ranges n (news ++ ranges)

theorem Parts.comm {store : Nat} {left right : List (Nat × Nat)}
    (h : Parts low store high (left ++ right)) : Parts low store high (right ++ left) := by
  have hperm : (left ++ right).Perm (right ++ left) := perm_append_comm
  refine ⟨fun hl => hperm.mem_iff.mp (h.left hl), fun hr => hperm.mem_iff.mp (h.right hr), ?_,
    fun n ranges hrange => (h.ranges n ranges hrange).perm (hperm.append_right ranges)⟩
  rw [total_append, Nat.add_comm, ← total_append]
  exact h.total

theorem parts_of_pivot {store : Nat} (hlow : low ≤ store) (hhigh : store ≤ high) :
    Parts low store high (rangeIf (decide (low < store)) low (store - 1) ++ rangeIf
      (decide (store < high)) (store + 1) high) := by
  refine ⟨fun h => ?_, fun h => ?_, ?_, fun n ranges h => ?_⟩
  · simp [rangeIf, h]
  · simp [rangeIf, h]
  · rw [total_append]
    unfold rangeIf total
    split <;> split <;> simp_all <;> omega
  have hvalid := h.valid _ mem_cons_self
  have hclear := h.clear
  have hright : Ranges n (rangeIf (decide (store < high)) (store + 1) high ++ ranges) := by
    unfold rangeIf
    split
    next hlt =>
      have hlt := of_decide_eq_true hlt
      exact h.tail.push hlt hvalid.2 (hclear.within (by simp only; omega) (Nat.le_refl _))
    · exact h.tail
  rw [append_assoc]
  unfold rangeIf at hright ⊢
  split
  next hlt =>
    have hlt := of_decide_eq_true hlt
    refine hright.push (by simp only; omega) (by simp only; omega) fun r hr => ?_
    rcases mem_append.mp hr with hr | hr
    · split at hr
      · obtain rfl := mem_singleton.mp hr
        omega
      · cases hr
    · have hin : Clear (low, store - 1) ranges :=
        hclear.within (Nat.le_refl _) (by simp only; omega)
      exact hin r hr
  · exact hright

theorem rangeIf_leftHi {some : Bool} {low high : Nat} :
    rangeIf some low (if some then high else 0) = rangeIf some low high := by
  cases some <;> rfl

theorem rangeIf_rightLo {some : Bool} {low high : Nat} :
    rangeIf some (if some then low else 0) high = rangeIf some low high := by
  cases some <;> rfl

/-- Two ranges are put on the stack. -/
theorem pushIf_pushIf (h : OnStack s.stack s.depth ranges) (hroom : s.depth + 4 ≤ stackSlots)
    (some some' : Bool) (low high low' high' : Nat) :
    let s' := (s.pushIf some low high).pushIf some' low' high'
    Pushed s s' ∧
      OnStack s'.stack s'.depth (rangeIf some' low' high' ++ rangeIf some low high ++ ranges) := by
  obtain ⟨hpushed, hdepth, hstack⟩ := pushIf_spec h (by omega) some low high
  obtain ⟨hpushed', -, hstack'⟩ := pushIf_spec hstack (by omega) some' low' high'
  rw [← append_assoc] at hstack'
  exact ⟨hpushed.trans hpushed', hstack'⟩

/-- The parts are put on the stack. -/
theorem pushParts_spec {store : Nat} (h : OnStack s.stack s.depth ranges)
    (hroom : s.depth + 4 ≤ stackSlots) (hlow : low ≤ store) (hhigh : store ≤ high) :
    ∃ news, Parts low store high news ∧ Pushed s (s.pushParts low store high) ∧ OnStack (s.pushParts
      low store high).stack (s.pushParts low store high).depth (news ++ ranges) := by
  have hparts := parts_of_pivot hlow hhigh
  refine iteInduction (motive := fun s' => ∃ news, Parts low store high news ∧ Pushed s s' ∧
    OnStack s'.stack s'.depth (news ++ ranges)) (fun _ => ?_) (fun _ => ?_)
  · obtain ⟨hpushed, hstack⟩ :=
      pushIf_pushIf h hroom (decide (low < store)) (decide (store < high)) low (if decide
        (low < store) then store - 1 else 0) (if decide (store < high) then store + 1 else 0) high
    rw [rangeIf_leftHi, rangeIf_rightLo] at hstack
    exact ⟨_, hparts.comm, hpushed, hstack⟩
  obtain ⟨hpushed, hstack⟩ := pushIf_pushIf h hroom (decide (store < high)) (decide (low < store))
    (if decide (store < high) then store + 1 else 0) high low
    (if decide (low < store) then store - 1 else 0)
  rw [rangeIf_leftHi, rangeIf_rightLo] at hstack
  exact ⟨_, hparts, hpushed, hstack⟩

end Stack

namespace Sorting

variable {q : Sorting}

/-! ## The main loop -/

/-- What the algorithm keeps throughout. -/
structure Kept (q : Sorting) (m : Buffer) (s : Sorter) : Prop where
  view : Rearranged 0 (q.count - 1) (q.view m) (q.view s.mem)
  frame : ∀ x, x < q.base ∨ q.base + q.count * q.size ≤ x → s.mem x = m x
  compared : ∀ p ∈ s.compared, q.Elements p
  slots : ∀ k ∈ s.slots, k < stackSlots

/-- The state at the start of a round. -/
structure Pending (q : Sorting) (m : Buffer) (s : Sorter) (ranges : List (Nat × Nat)) : Prop where
  kept : q.Kept m s
  valid : Ranges q.count ranges
  apart : SortedApart q.Le q.count ranges (q.view s.mem)
  onStack : OnStack s.stack s.depth ranges
  room : s.depth + 2 ≤ stackSlots

section Main

variable {m : Buffer} {s s' : Sorter} {lo hi : Nat}

theorem Kept.moves (h : q.Kept m s) (hm : q.Moves lo hi s s') (hn : hi < q.count) :
    q.Kept m s' where
  view := h.view.trans (hm.view.mono (Nat.zero_le _) (by omega))
  frame x hx := (hm.frame x hx).trans (h.frame x hx)
  compared := hm.compared h.compared
  slots := hm.slots ▸ h.slots

theorem Kept.pushed (h : q.Kept m s) (hp : Pushed s s') : q.Kept m s' where
  view := hp.mem ▸ h.view
  frame := hp.mem ▸ h.frame
  compared := hp.compared ▸ h.compared
  slots := hp.slots h.slots

theorem Kept.pop (h : q.Kept m s) (hd : s.depth ≤ stackSlots) (hpos : 0 < s.depth) :
    q.Kept m s.pop where
  view := h.view
  frame := h.frame
  compared := h.compared
  slots k hk := by
    rcases mem_append.mp hk with hk | hk
    · exact h.slots k hk
    · simp only [mem_cons, not_mem_nil, or_false] at hk
      omega

/-- The range on top of the stack is taken. -/
theorem Pending.pop {r : Nat × Nat} {ranges : List (Nat × Nat)} (h : q.Pending m s (r :: ranges)) :
    s.stack (s.depth - 2) = r.1 ∧ s.stack (s.depth - 1) = r.2 ∧ q.Kept m s.pop ∧
      OnStack s.pop.stack s.pop.depth ranges ∧ s.pop.depth + 4 ≤ stackSlots := by
  obtain ⟨d, hd, hlow, hhigh, hrest⟩ := h.onStack
  have hroom := h.room
  have hpop : s.pop.depth = d := by
    show s.depth - 2 = d
    omega
  refine ⟨?_, ?_, h.kept.pop (by omega) (by omega), hpop ▸ hrest, by omega⟩
  · rw [show s.depth - 2 = d by omega, hlow]
  · rw [show s.depth - 1 = d + 1 by omega, hhigh]

/-- The whole array is sorted. -/
theorem sortedApart_nil (h : SortedOn q.Le 0 (q.count - 1) (q.view m)) :
    SortedApart q.Le q.count [] (q.view m) :=
  fun i j hij hj => .inr (h i j (Nat.zero_le i) hij (by omega))

/-- A round sorts a range, divides it, or sorts the array. -/
theorem round_spec (ho : q.Ordering) (hsize : 0 < q.size) {r : Nat × Nat}
    {ranges : List (Nat × Nat)} (h : q.Pending m s (r :: ranges)) :
    (∃ s', q.round s = (s', true) ∧ q.Kept m s' ∧ SortedApart q.Le q.count [] (q.view s'.mem)) ∨
      ∃ s' ranges', q.round s = (s', false) ∧ q.Pending m s' ranges' ∧
      total ranges' < total (r :: ranges) := by
  obtain ⟨hlow, hhigh, hkept, hstack, hroom⟩ := h.pop
  obtain ⟨hle, hn⟩ := h.valid.valid r mem_cons_self
  have happart : SortedApart q.Le q.count (r :: ranges) (q.view s.pop.mem) := h.apart
  have htotal : total (r :: ranges) = r.2 - r.1 + 1 + total ranges := by simp [total]
  unfold round
  simp only [hlow, hhigh]
  split
  next hsmall =>
    right
    obtain ⟨hmoves, hsorted⟩ := insertionSort_spec ho hsize hle hn (s := s.pop)
    refine ⟨_, ranges, rfl, ⟨hkept.moves hmoves hn, h.valid.tail, ?_, ?_, ?_⟩, by omega⟩
    · have hrefined :
          SortedApart q.Le q.count ([] ++ ranges) (q.view (q.insertionSort r.1 r.2 s.pop).mem) :=
        happart.refine h.valid hmoves.view fun i j hi hij hj => .inr (hsorted i j hi hij hj)
      exact hrefined
    · rw [hmoves.stack, hmoves.depth]
      exact hstack
    · rw [hmoves.depth]
      omega
  next hlarge =>
  have hmedian := moves_medianToHigh hsize s.pop hle hn
  rcases hp : q.partition r.1 r.2 (q.medianToHigh r.1 r.2 s.pop) with ⟨s₁, store⟩
  obtain ⟨hpart, hstore₁, hstore₂, horder⟩ := partition_spec ho hsize hle hn hp
  have hmoves := hmedian.trans hpart
  have hkept₁ := hkept.moves hmoves hn
  have hstack₁ : OnStack s₁.stack s₁.depth ranges := by
    rw [hmoves.stack, hmoves.depth]
    exact hstack
  obtain ⟨news, hparts, hpushed, hnews⟩ :=
    pushParts_spec hstack₁ (by rw [hmoves.depth]; exact hroom) hstore₁ hstore₂
  have hkept₂ := hkept₁.pushed hpushed
  split
  next hfull =>
    left
    obtain ⟨hmoves', hsorted⟩ := insertionSort_spec ho hsize (Nat.zero_le _)
      (show q.count - 1 < q.count by omega) (s := s₁.pushParts r.1 store r.2)
    exact ⟨_, rfl, hkept₂.moves hmoves' (by omega), sortedApart_nil hsorted⟩
  next hroom' =>
  right
  have htotal' := hparts.total
  refine ⟨_, news ++ ranges, rfl, ⟨hkept₂, hparts.ranges _ _ h.valid, ?_, hnews, by omega⟩, ?_⟩
  · rw [hpushed.mem]
    refine happart.refine h.valid hmoves.view fun i j hi hij hj => ?_
    by_cases hleft : j < store
    · exact .inl ⟨_, hparts.left (by omega), hi, by simp only; omega⟩
    · by_cases hright : store < i
      · exact .inl ⟨_, hparts.right (by omega), hright, hj⟩
      · exact .inr (horder i j hi hij hj (by omega) (by omega))
  · rw [total_append]
    omega

/-- The main loop ends, and the array is sorted. -/
theorem rounds_spec (ho : q.Ordering) (hsize : 0 < q.size) {ranges : List (Nat × Nat)}
    (h : q.Pending m s ranges) : ∃ s', (∀ fuel, total ranges ≤ fuel → q.rounds fuel s = some s') ∧
    q.Kept m s' ∧ SortedApart q.Le q.count [] (q.view s'.mem) := by
  induction ht : total ranges using Nat.strongRecOn generalizing s ranges with
  | ind t ih =>
    cases ranges with
    | nil =>
      have hdepth : s.depth = 0 := h.onStack
      refine ⟨s, fun fuel _ => ?_, h.kept, h.apart⟩
      cases fuel with
      | zero => exact if_pos hdepth
      | succ fuel => exact if_pos hdepth
    | cons r ranges =>
      have hdepth : s.depth ≠ 0 := by
        obtain ⟨d, hd, -⟩ := h.onStack
        omega
      have hpos : 0 < total (r :: ranges) := by
        simp only [total, map_cons, sum_cons]
        omega
      rcases round_spec ho hsize h with ⟨s', hround, hkept, hsorted⟩ |
        ⟨s', ranges', hround, hnext, hlt⟩
      · refine ⟨s', fun fuel hfuel => ?_, hkept, hsorted⟩
        obtain ⟨fuel, rfl⟩ : ∃ n, fuel = n + 1 := ⟨fuel - 1, by omega⟩
        unfold rounds
        rw [if_neg hdepth, hround]
      obtain ⟨s'', hrest, hkept, hsorted⟩ := ih (total ranges') (by omega) hnext rfl
      refine ⟨s'', fun fuel hfuel => ?_, hkept, hsorted⟩
      obtain ⟨fuel, rfl⟩ : ∃ n, fuel = n + 1 := ⟨fuel - 1, by omega⟩
      unfold rounds
      rw [if_neg hdepth, hround]
      exact hrest fuel (by omega)

/-- The elements of the array, in order. -/
def elements (q : Sorting) (m : Buffer) : List (List Byte) := (range q.count).map (q.element m)

theorem elements_eq (m : Buffer) : q.elements m = (range q.count).map (q.view m) :=
  map_congr_left fun _ hi => (view_eq (mem_range.mp hi)).symm

/--
`qsort` sorts.  After at most as many rounds as there are elements it returns; the array then has
the elements it had, in ascending order, and memory outside it is as it was.  Only addresses of
elements were given to the comparison, and only the 64 slots of the stack were used.
-/
theorem qsort_sorts (q : Sorting) (ho : q.Ordering) (m : Buffer) :
    ∃ s, (∀ fuel, q.count ≤ fuel → q.qsort fuel m = some s) ∧
      (q.elements s.mem).Perm (q.elements m) ∧
      (q.elements s.mem).Pairwise (fun x y => q.compare x y ≤ 0) ∧
      (∀ x, x < q.base ∨ q.base + q.count * q.size ≤ x → s.mem x = m x) ∧
      (∀ p ∈ s.compared, ∃ i j, i < q.count ∧ j < q.count ∧
        p = (q.base + i * q.size, q.base + j * q.size)) ∧
      ∀ k ∈ s.slots, k < 64 := by
  by_cases hnone : q.count < 2 ∨ q.size = 0
  · refine ⟨⟨m, fun _ => 0, 0, [], []⟩, fun fuel _ => if_pos hnone, List.Perm.refl _, ?_,
      fun _ _ => rfl,
      nofun, nofun⟩
    unfold elements
    rw [pairwise_map]
    refine pairwise_lt_range.imp_of_mem fun {i j} hi hj hij => ?_
    rw [mem_range] at hi hj
    -- two elements are there only if they have no bytes
    have hzero : q.size = 0 := by omega
    have hnil : ∀ k, q.element m k = [] := fun k => by simp [element, hzero]
    rw [hnil, hnil]
    rcases ho.total [] [] hzero.symm hzero.symm with h | h
    · exact h
    · exact h
  have hcount : 2 ≤ q.count := by omega
  have hsize : 0 < q.size := by omega
  have hempty : OnStack (fun _ => 0) 0 [] := rfl
  have hstart : q.Pending m (Sorter.push ⟨m, fun _ => 0, 0, [], []⟩ 0 (q.count - 1))
      [(0, q.count - 1)] := by
    refine ⟨⟨Rearranged.refl _ _ _, fun _ _ => rfl, nofun, ?_⟩, ⟨?_, pairwise_singleton _ _⟩,
      SortedApart.start fun k hk => by omega,
      OnStack.push (s := ⟨m, fun _ => 0, 0, [], []⟩) hempty 0 (q.count - 1), ?_⟩
    · exact (pushed_push 0 (q.count - 1) (show 0 + 2 ≤ stackSlots by decide)).slots nofun
    · intro r hr
      obtain rfl := mem_singleton.mp hr
      exact ⟨Nat.zero_le _, by simp only; omega⟩
    · show 0 + 2 + 2 ≤ stackSlots
      decide
  obtain ⟨s, hrun, hkept, hsorted⟩ := rounds_spec ho hsize hstart
  have htotal : total [(0, q.count - 1)] = q.count := by
    simp only [total, map_cons, map_nil, sum_cons, sum_nil]
    omega
  rw [htotal] at hrun
  refine ⟨s, fun fuel hfuel => ?_, ?_, ?_, hkept.frame, hkept.compared, hkept.slots⟩
  · exact (if_neg hnone).trans (hrun fuel hfuel)
  · rw [elements_eq, elements_eq]
    exact hkept.view.perm (by omega)
  · rw [elements_eq]
    exact hsorted.sorted

/-- Twenty bytes, compared as numbers. -/
def byteSorting : Sorting where
  base := 4096
  count := 20
  size := 1
  compare x y := (x.headD 0).toNat - (y.headD 0).toNat
  fits := by decide
  small := by decide

theorem byteSorting_ordering : byteSorting.Ordering where
  total x y _ _ := by
    simp only [byteSorting]
    omega
  trans x y z _ _ _ h₁ h₂ := by
    simp only [byteSorting] at h₁ h₂ ⊢
    omega

/-- Bytes in descending order. -/
theorem qsort_sorts_descending :
    ∃ s, byteSorting.qsort 20 (fun x => BitVec.ofNat 8 (4200 - x)) = some s ∧
      (byteSorting.elements s.mem).Pairwise (fun x y => byteSorting.compare x y ≤ 0) := by
  obtain ⟨s, hrun, -, hsorted, -⟩ := qsort_sorts byteSorting byteSorting_ordering
    (fun x => BitVec.ofNat 8 (4200 - x))
  exact ⟨s, hrun 20 (Nat.le_refl _), hsorted⟩

end Main

end Sorting

end PureCOS.Libc
