import PureCOS.PureL.InterpSafe

/-!
# PureL: concatenation of strings

`concat_str` copies both strings into a buffer until it holds 47 bytes and interns what it has
copied, or the empty string if a character was cut.  So the sum of two strings is right if it has at
most 47 bytes, or if there is no room in the pool for what was copied, which is reported.
-/

namespace PureCOS.PureL

open Code List Pool

section Pools

variable {pool : Pool} {s t : List UInt8} {id : Nat}

/-- The string that an index stands for. -/
def held (pool : Pool) (id : Nat) : List UInt8 := (pool[id]?.map fromUtf8).getD []

theorem fromUtf8_append : fromUtf8 (fromUtf8 s ++ fromUtf8 t) = fromUtf8 s ++ fromUtf8 t := by
  have hvalid : ∀ s, (fromUtf8 s).toByteArray.IsValidUTF8 := by
    intro s
    unfold fromUtf8
    split
    next h => exact ByteArray.validateUTF8_eq_true_iff.mp h
    · exact .intro [] rfl
  rw [fromUtf8, if_pos]
  rw [ByteArray.validateUTF8_eq_true_iff, toByteArray_append]
  exact (hvalid s).append (hvalid t)

theorem fromUtf8_idem : fromUtf8 (fromUtf8 s) = fromUtf8 s := by
  unfold fromUtf8
  split <;> simp_all

theorem fromUtf8_held (a b : Nat) :
    fromUtf8 (held pool a ++ held pool b) = held pool a ++ held pool b := by
  have hform : ∀ id, ∃ s, held pool id = fromUtf8 s := by
    intro id
    unfold held
    cases pool[id]? with
    | none => exact ⟨[], by simp [fromUtf8]⟩
    | some s => exact ⟨s, rfl⟩
  obtain ⟨s, hs⟩ := hform a
  obtain ⟨t, ht⟩ := hform b
  rw [hs, ht, fromUtf8_append]

theorem held_mono {pool' : Pool} (h : pool <+: pool') (hid : id < pool.length) :
    held pool' id = held pool id := by
  obtain ⟨more, rfl⟩ := h
  rw [held, held, getElem?_append_left hid]

theorem poolGet_eq (hpool : PoolOk pool) : Pool.get id pool = (pool, .done (held pool id)) := by
  rw [Pool.get, get_bind]
  unfold held
  cases hget : pool[id]? with
  | none => rfl
  | some s =>
    have hlt := (List.getElem?_eq_some_iff.mp hget).1
    have hcount := hpool.count
    have hsize := hpool.size s (mem_of_getElem? hget)
    dsimp only
    rw [require_bind (by simp only [Bool.and_eq_true, decide_eq_true_eq]; omega)]
    rfl

theorem find_cases {rest : List (List UInt8)} {i : Nat} (hcount : i + rest.length ≤ maxStrings)
    (hsize : ∀ s ∈ rest, s.length ≤ maxStrBytes) :
    (∃ k, rest[k]? = some s ∧ find s i rest pool = (pool, .done (some (i + k)))) ∨
      (s ∉ rest ∧ find s i rest pool = (pool, .done none)) := by
  induction rest generalizing i with
  | nil => exact .inr ⟨by simp, rfl⟩
  | cons t rest ih =>
    rw [length_cons] at hcount
    have hstep : find s i (t :: rest) = if t = s then pure (some i)
        else find s (i + 1) rest := by
      have hin : i < maxStrings := by omega
      rw [find, require_bind (decide_eq_true hin),
        require_bind (decide_eq_true (hsize t mem_cons_self))]
      by_cases heq : t = s
      · simp [heq]
      · simp [heq]
    rw [hstep]
    by_cases heq : t = s
    · exact .inl ⟨0, by simp [heq], by rw [if_pos heq]; rfl⟩
    rw [if_neg heq]
    rcases ih (i := i + 1) (by omega) (fun u hu => hsize u (mem_cons_of_mem _ hu)) with ⟨k, hk,
      hfind⟩ | ⟨hnone, hfind⟩
    · exact .inl ⟨k + 1, by simpa using hk, by rw [hfind, Nat.add_assoc, Nat.add_comm 1 k]⟩
    · exact .inr ⟨by simp [Ne.symm heq, hnone], hfind⟩

/-- A short string is found, added, or refused because the pool is full. -/
theorem intern_cases (hpool : PoolOk pool) (hshort : s.length < maxStrBytes) :
    (∃ pool' id, intern s pool = (pool', .done (some id)) ∧ pool'[id]? = some s ∧
      pool <+: pool' ∧ PoolOk pool' ∧ ¬(maxStrings ≤ pool.length ∧ s ∉ pool)) ∨
      (intern s pool = (pool, .done none) ∧ maxStrings ≤ pool.length ∧ s ∉ pool) := by
  rw [intern, if_neg (by omega), get_bind]
  rcases find_cases (by rw [Nat.zero_add]; exact hpool.count) hpool.size with ⟨k, hk, hfind⟩ |
    ⟨hnone, hfind⟩ <;>
    rw [bind_of_done hfind]
  · exact .inl ⟨pool, 0 + k, rfl, by rwa [Nat.zero_add], prefix_refl _, hpool,
      fun h => h.2 (mem_of_getElem? hk)⟩
  by_cases hfull : maxStrings ≤ pool.length
  · exact .inr ⟨by simp only [if_pos hfull]; rfl, hfull, hnone⟩
  refine .inl ⟨pool ++ [s], pool.length, ?_, by simp, prefix_append _ _, ⟨?_, ?_⟩,
    fun h => hfull h.1⟩
  · simp only [if_neg hfull]
    rw [require_bind (by simp only [Bool.and_eq_true, decide_eq_true_eq]; omega)]
    rfl
  · rw [length_append, length_singleton]
    omega
  intro t ht
  rcases mem_append.mp ht with ht | ht
  · exact hpool.size t ht
  · rw [mem_singleton.mp ht]
    omega

end Pools

namespace Vm

section Strings

variable {vm : Vm} {a b c : Nat}

/-- What `concat_str` interns. -/
def copied (pool : Pool) (a b : Nat) : List UInt8 :=
  fromUtf8 ((held pool a ++ held pool b).take (strCap - 1))

theorem copyBytes_eq (buf text : List UInt8) (h : buf.length ≤ strCap - 1) :
    copyBytes buf text vm = (vm, .done ((buf ++ text).take (strCap - 1))) := by
  induction text generalizing buf with
  | nil =>
    rw [append_nil, take_of_length_le h]
    rfl
  | cons c text ih =>
    rw [copyBytes]
    split
    next hfull =>
      rw [take_append_of_le_length hfull, take_of_length_le h]
      rfl
    next hroom =>
    unfold strCap at h hroom ⊢
    rw [require_bind (by rw [decide_eq_true_eq]; omega)]
    have hnext := ih (buf ++ [c]) (by rw [length_append, length_singleton, strCap]; omega)
    rw [hnext, append_assoc]
    rfl

theorem length_copied_lt (pool : Pool) (a b : Nat) : (copied pool a b).length < maxStrBytes := by
  unfold copied fromUtf8
  split
  · exact Nat.lt_of_le_of_lt (length_take_le _ _) (by decide)
  · exact (by decide : 0 < maxStrBytes)

/-- The sum of two strings is what was copied, or an error. -/
theorem add_cases (hpool : PoolOk vm.strings) :
    (∃ pool id, binary .add (.str a) (.str b) vm = ({ vm with strings := pool }, .done (.str id)) ∧
      held pool id = copied vm.strings a b ∧ vm.strings <+: pool ∧ PoolOk pool ∧
      ¬(maxStrings ≤ vm.strings.length ∧ copied vm.strings a b ∉ vm.strings)) ∨
    (binary .add (.str a) (.str b) vm =
        ({ vm with error := vm.error <|> some "string pool full" }, .done .nil) ∧
      maxStrings ≤ vm.strings.length ∧ copied vm.strings a b ∉ vm.strings) := by
  have hlong : ((held vm.strings a ++ held vm.strings b).take (strCap - 1)).length ≤ strCap :=
    Nat.le_trans (length_take_le _ _) (by decide)
  have hbuf : ((held vm.strings a).take (strCap - 1) ++ held vm.strings b).take (strCap - 1) =
      (held vm.strings a ++ held vm.strings b).take (strCap - 1) := by
    simp only [take_append, take_take, Nat.min_self, length_take]
    congr 2
    omega
  have hget : ∀ id, getString id vm = (vm, .done (held vm.strings id)) := fun id => by
    simp only [getString, zoom, poolGet_eq hpool]
  have hfirst : copyBytes [] (held vm.strings a) vm =
      (vm, .done ((held vm.strings a).take (strCap - 1))) :=
    copyBytes_eq [] _ (Nat.zero_le _)
  have hsecond : copyBytes ((held vm.strings a).take (strCap - 1)) (held vm.strings b) vm =
      (vm, .done ((held vm.strings a ++ held vm.strings b).take (strCap - 1))) := by
    rw [copyBytes_eq _ _ (length_take_le _ _), hbuf]
  have hintern : ∀ pool r, Pool.intern (copied vm.strings a b) vm.strings = (pool, .done r) →
      intern (copied vm.strings a b) vm = ({ vm with strings := pool }, .done r) :=
    fun pool r h => by
    simp only [intern, zoom, h]
  have hsum : binary .add (.str a) (.str b) vm = concatStr a b vm := rfl
  rw [hsum, concatStr, bind_of_done (hget a), bind_of_done (hget b), bind_of_done hfirst,
    bind_of_done hsecond, require_bind (decide_eq_true hlong)]
  rcases intern_cases hpool (length_copied_lt vm.strings a b) with
    ⟨pool, id, hpooled, hid, hgrow, hok, hroom⟩ | ⟨hpooled, hfull, hnew⟩
  · refine .inl ⟨pool, id, bind_of_done (hintern _ _ hpooled), ?_, hgrow, hok, hroom⟩
    rw [held, hid]
    exact fromUtf8_idem
  · exact .inr ⟨bind_of_done (hintern _ _ hpooled), hfull, hnew⟩

/-- Evaluating the sum gives both strings one after the other, or records an error. -/
def Exact (vm : Vm) (a b : Nat) : Prop :=
  ∃ vm' v, binary .add (.str a) (.str b) vm = (vm', .done v) ∧ (vm'.error.isSome = true ∨
    ∃ id, v = .str id ∧ held vm'.strings id = held vm.strings a ++ held vm.strings b)

theorem copied_eq (h : (held vm.strings a ++ held vm.strings b).length < maxStrBytes) :
    copied vm.strings a b = held vm.strings a ++ held vm.strings b := by
  have hle : (held vm.strings a ++ held vm.strings b).length ≤ strCap - 1 := Nat.le_sub_one_of_lt h
  rw [copied, take_of_length_le hle, fromUtf8_held]

/-- A short sum that gives a string. -/
theorem add_short {vm' : Vm} {x : Nat}
    (hpool : PoolOk vm.strings) (h : (held vm.strings a ++ held vm.strings b).length < maxStrBytes)
    (hadd : binary .add (.str a) (.str b) vm = (vm', .done (.str x))) :
    held vm'.strings x = held vm.strings a ++ held vm.strings b ∧ vm.strings <+: vm'.strings ∧
      PoolOk vm'.strings := by
  rcases add_cases hpool with ⟨pool, id, hrun, hid, hgrow, hok, -⟩ | ⟨hrun, -⟩
  · rw [hrun, Prod.mk.injEq, Ending.done.injEq, Value.str.injEq] at hadd
    obtain ⟨rfl, rfl⟩ := hadd
    exact ⟨hid.trans (copied_eq h), hgrow, hok⟩
  · rw [hrun, Prod.mk.injEq, Ending.done.injEq] at hadd
    cases hadd.2

/-- A sum of which the result is added to another string. -/
theorem add_bind {f : Value → Exec Value} {vm' : Vm}
    {x : Nat} (hpool : PoolOk vm.strings) (hnil : ∀ vm vm' x, f .nil vm ≠ (vm', .done (.str x)))
    (hadd : (binary .add (.str a) (.str b) >>= f) vm = (vm', .done (.str x))) :
    ∃ vm₁ id, binary .add (.str a) (.str b) vm = (vm₁, .done (.str id)) ∧
      f (.str id) vm₁ = (vm', .done (.str x)) := by
  simp only [Bind.bind, Code.bind] at hadd
  rcases add_cases hpool with ⟨pool, id, hrun, -⟩ | ⟨hrun, -⟩
  · rw [hrun] at hadd
    exact ⟨_, id, hrun, hadd⟩
  · rw [hrun] at hadd
    exact absurd hadd (hnil _ _ _)

end Strings

/--
Concatenation.  The sum of two strings is exact or an error exactly if it has at most 47 bytes, or
if the pool is full and does not have what was copied.  Three strings with at most 47 bytes together
give the same string in either grouping, whenever both give one.
-/
theorem concat_exact_iff
    {vm : Vm}
    {a b : Nat}
    (hpool : PoolOk vm.strings)
    (herror : vm.error = none)
    (ha : a < vm.strings.length) :
    (vm.Exact a b ↔ (held vm.strings a ++ held vm.strings b).length < maxStrBytes ∨
        maxStrings ≤ vm.strings.length ∧ copied vm.strings a b ∉ vm.strings) ∧
      ∀ c < vm.strings.length,
        (held vm.strings a ++ held vm.strings b ++ held vm.strings c).length < maxStrBytes →
        ∀ vm₁ x vm₂ y,
          (do binary .add (← binary .add (.str a) (.str b)) (.str c)) vm = (vm₁, .done (.str x)) →
          (do binary .add (.str a) (← binary .add (.str b) (.str c))) vm = (vm₂, .done (.str y)) →
          held vm₁.strings x = held vm.strings a ++ held vm.strings b ++ held vm.strings c ∧
            held vm₂.strings y = held vm₁.strings x := by
  refine ⟨?_, fun c hc hshort vm₁ x vm₂ y hleft hright => ?_⟩
  · rcases add_cases hpool with ⟨pool, id, hrun, hid, -, -, hroom⟩ | ⟨hrun, hfull⟩
    · constructor
      · rintro ⟨vm', v, hv, hexact⟩
        rw [hrun, Prod.mk.injEq] at hv
        obtain ⟨rfl, hv⟩ := hv
        rcases hexact with hbad | ⟨id', rfl, hsum⟩
        · simp [herror] at hbad
        cases hv
        left
        rw [← hsum, hid]
        exact length_copied_lt _ _ _
      · rintro (hshort | hfull)
        · exact ⟨_, _, hrun, .inr ⟨id, rfl, hid.trans (copied_eq hshort)⟩⟩
        · exact absurd hfull hroom
    · exact ⟨fun _ => .inr hfull, fun _ => ⟨_, _, hrun, .inl (by simp [herror])⟩⟩
  · have hab : (held vm.strings a ++ held vm.strings b).length < maxStrBytes := by
      rw [length_append] at hshort
      omega
    have hbc : (held vm.strings b ++ held vm.strings c).length < maxStrBytes := by
      simp only [length_append] at hshort ⊢
      omega
    obtain ⟨vm₃, l, hl, hleft⟩ := add_bind hpool (fun _ _ _ h => by cases h) hleft
    obtain ⟨hsum, hgrow, hok⟩ := add_short hpool hab hl
    obtain ⟨vm₄, r, hr, hright⟩ := add_bind hpool (fun _ _ _ h => by cases h) hright
    obtain ⟨hsum', hgrow', hok'⟩ := add_short hpool hbc hr
    have hx := (add_short hok (by rwa [hsum, held_mono hgrow hc]) hleft).1
    have hy := (add_short hok' (by rwa [hsum', held_mono hgrow' ha, ← append_assoc]) hright).1
    rw [hsum, held_mono hgrow hc] at hx
    rw [hsum', held_mono hgrow' ha, ← append_assoc] at hy
    exact ⟨hx, hy.trans hx.symm⟩

/-- An interpreter that holds some strings. -/
def holding (texts : List (List Char)) : Vm := .new [] (texts.map encode)

theorem fromUtf8_encode (text : List Char) : fromUtf8 (encode text) = encode text := by
  rw [fromUtf8, if_pos]
  exact ByteArray.validateUTF8_eq_true_iff.mpr (.intro text rfl)

theorem concat_exact_iff_small : (holding ["pure".toList, "c".toList]).Exact 0 1 := by
  refine (concat_exact_iff (by constructor <;> decide) rfl (by decide)).1.mpr (.inl ?_)
  have hfirst : held (holding ["pure".toList, "c".toList]).strings 0 = encode "pure".toList :=
    fromUtf8_encode "pure".toList
  have hsecond : held (holding ["pure".toList, "c".toList]).strings 1 = encode "c".toList :=
    fromUtf8_encode "c".toList
  rw [hfirst, hsecond]
  decide

/-- Twice 30 characters: the sum has 47 characters, and no error is recorded. -/
theorem concat_shortens :
    ∃ vm' id,
      binary .add (.str 0) (.str 0) (holding [replicate 30 'a']) = (vm', .done (.str id)) ∧
      vm'.error = none ∧ held vm'.strings id = encode (replicate 47 'a') := by
  have hpool : PoolOk (holding [replicate 30 'a']).strings := by constructor <;> decide
  have hheld : held (holding [replicate 30 'a']).strings 0 = encode (replicate 30 'a') :=
    fromUtf8_encode (replicate 30 'a')
  have hcopied : copied (holding [replicate 30 'a']).strings 0 0 = encode (replicate 47 'a') := by
    rw [copied, hheld]
    exact fromUtf8_encode (replicate 47 'a')
  rcases add_cases hpool with ⟨pool, id, hrun, hid, -⟩ | ⟨-, hfull, -⟩
  · exact ⟨_, id, hrun, rfl, hid.trans hcopied⟩
  · exact absurd hfull (by decide)

end Vm
end PureCOS.PureL
