import PureCOS.Lib.ByteNumeral
import PureCOS.Lib.Run

/-!
# The random generator

`drivers/random/random_core.c` is the Hash_DRBG of NIST SP 800-90A with SHA-512, which is a function
here that gives 64 bytes.  The generator keeps its values as arrays of 111 bytes, most significant
byte first, and adds from the last byte on; the standard has strings of 888 bits and adds modulo
2^888.
-/

namespace PureCOS.Random

open ByteNumeral List

def hdrbgOutLen : Nat := 64
def hdrbgSeedLen : Nat := 111
def hdrbgMaxRequest : Nat := 65536
def hdrbgReseedInterval : Nat := 2 ^ 48

/-- `pure_sha512` -/
structure Hash where
  digest : List Byte → List Byte
  length_digest : ∀ message, (digest message).length = hdrbgOutLen

instance : Inhabited Hash :=
  ⟨⟨fun _ => replicate hdrbgOutLen 0, fun _ => length_replicate⟩⟩

/-! ## The code -/

structure Hdrbg where
  v : List Byte
  c : List Byte
  counter : Nat
  ready : Bool

/-- A call after `hdrbg_instantiate`. -/
inductive Call where
  | reseed (entropy additional : List Byte)
  | generate (count : Nat)

section Code

variable (hash : Hash)

/-- `hash_df`; `input` is the three parts together. -/
def hashDf (input : List Byte) (outLen : Nat) : List Byte :=
  let bits := outLen * 8 % 2 ^ 32
  let header (counter : Byte) : List Byte :=
    [counter, BitVec.ofNat 8 (bits / 2 ^ 24), BitVec.ofNat 8 (bits / 2 ^ 16),
      BitVec.ofNat 8 (bits / 2 ^ 8), BitVec.ofNat 8 bits]
  fill (fun counter => hash.digest (header counter ++ input)) (· + 1) hdrbgOutLen outLen 1 outLen

variable (state : Hdrbg)

def deriveConstant : Hdrbg := { state with c := hashDf hash (0x00 :: state.v) hdrbgSeedLen }

def addIntoV (addend : List Byte) : Hdrbg :=
  { state with v := (add 0 state.v.reverse addend.reverse).reverse }

def hdrbgInstantiate (entropy personal : List Byte) : Hdrbg :=
  let state :=
    deriveConstant hash { state with v := hashDf hash (entropy ++ personal) hdrbgSeedLen }
  { state with counter := 1, ready := true }

def hdrbgReseed (entropy additional : List Byte) : Hdrbg :=
  let head := 0x01 :: state.v
  let state :=
    deriveConstant hash { state with v := hashDf hash (head ++ entropy ++ additional) hdrbgSeedLen }
  { state with counter := 1 }

/-- The bytes of a counter of 64 bits. -/
def counterBytes (counter : Nat) : List Byte :=
  (range 8).map fun i => BitVec.ofNat 8 (counter / 2 ^ (56 - 8 * i))

/-- `hdrbg_generate`: the return value and the output. -/
def hdrbgGenerate (count : Nat) : Hdrbg × Int × List Byte :=
  if state.ready = false ∨ hdrbgMaxRequest < count then (state, -1, [])
  else if hdrbgReseedInterval < state.counter then (state, -2, [])
  else
    let out :=
      fill hash.digest (fun data => (increment data.reverse).reverse) hdrbgOutLen count
        state.v count
    let h := hash.digest (0x03 :: state.v)
    let state := addIntoV state h
    let state := addIntoV state state.c
    let state := addIntoV state (counterBytes state.counter)
    ({ state with counter := (state.counter + 1) % 2 ^ 64 }, 0, out)

/-- A call, with the return value and the output of a request. -/
def Hdrbg.step : Call → Hdrbg × List (Option (List Byte))
  | .reseed entropy additional => (hdrbgReseed hash state entropy additional, [])
  | .generate count =>
    match hdrbgGenerate hash state count with
    | (state, result, out) => (state, [if result = 0 then some out else none])

end Code

/-! ## The standard -/

/-- A string of `seedlen` bits. -/
abbrev Seed := BitVec 888

/-- The bytes of a string of bits. -/
@[irreducible] def Seed.bytes (x : Seed) : List Byte :=
  (ByteNumeral.bytes hdrbgSeedLen x.toNat).reverse

/-- A string of bytes as a number modulo 2^888. -/
def Seed.ofBytes (text : List Byte) : Seed := BitVec.ofNat 888 (value text.reverse)

/-- The working state -/
structure Working where
  V : Seed
  C : Seed
  reseedCounter : Nat

namespace Working

variable (hash : Hash)

/--
`Hash_df` of 888 bits: a counter of 8 bits and the number of bits in 32 bits in front of the input.
-/
def hashDf (input : List Byte) : Seed :=
  .ofBytes (((range 2).flatMap fun i =>
    hash.digest (BitVec.ofNat 8 (i + 1) :: (ByteNumeral.bytes 4 888).reverse ++ input)).take
      hdrbgSeedLen)

/-- A new seed with its constant. -/
def seeded (seedMaterial : List Byte) : Working :=
  let V := hashDf hash seedMaterial
  ⟨V, hashDf hash (0x00 :: V.bytes), 1⟩

/-- `Hash_DRBG_Instantiate_algorithm` -/
def instantiate (entropy personal : List Byte) : Working := seeded hash (entropy ++ personal)

/-- `Hash_DRBG_Reseed_algorithm` -/
def reseed (w : Working) (entropy additional : List Byte) : Working :=
  seeded hash (0x01 :: w.V.bytes ++ entropy ++ additional)

def hashgen (V : Seed) (count : Nat) : List Byte :=
  ((range (blocks hdrbgOutLen count)).flatMap fun i =>
    hash.digest (V + BitVec.ofNat 888 i).bytes).take count

/-- A request is refused. -/
def Refuses (w : Working) (count : Nat) : Prop :=
  hdrbgReseedInterval < w.reseedCounter ∨ hdrbgMaxRequest < count

instance (w : Working) (count : Nat) : Decidable (w.Refuses count) :=
  inferInstanceAs (Decidable (_ ∨ _))

/-- `Hash_DRBG_Generate_algorithm` without additional input -/
def generate (w : Working) (count : Nat) : Working × List Byte :=
  (⟨w.V + .ofBytes (hash.digest (0x03 :: w.V.bytes)) + w.C + BitVec.ofNat 888 w.reseedCounter, w.C,
    w.reseedCounter + 1⟩, hashgen hash w.V count)

def step (w : Working) : Call → Working × List (Option (List Byte))
  | .reseed entropy additional => (w.reseed hash entropy additional, [])
  | .generate count =>
    if w.Refuses count then (w, [none])
    else ((w.generate hash count).1, [some (w.generate hash count).2])

end Working

/-! ## The code follows the standard -/

section Follows

variable {hash : Hash} {state : Hdrbg} {w : Working}

theorem two_pow_seed : (256 : Nat) ^ hdrbgSeedLen = 2 ^ 888 := (pow_mul 2 8 111).symm

theorem length_seedBytes (x : Seed) : x.bytes.length = hdrbgSeedLen := by
  rw [Seed.bytes, length_reverse, length_bytes]

theorem value_seedBytes (x : Seed) : value x.bytes.reverse = x.toNat := by
  rw [Seed.bytes, reverse_reverse, value_bytes, two_pow_seed]
  exact Nat.mod_eq_of_lt x.isLt

/-- The bytes of a number that is taken modulo 2^888. -/
theorem seedBytes_ofNat (n : Nat) :
    Seed.bytes (BitVec.ofNat 888 n) = (ByteNumeral.bytes hdrbgSeedLen n).reverse := by
  rw [Seed.bytes, BitVec.toNat_ofNat, ← two_pow_seed, bytes_mod]

theorem bytes_ofBytes {text : List Byte} (h : text.length = hdrbgSeedLen) :
    (Seed.ofBytes text).bytes = text := by
  have hround := bytes_value text.reverse
  rw [length_reverse, h] at hround
  rw [Seed.ofBytes, seedBytes_ofNat, hround, reverse_reverse]

/-- `add_into_v` adds modulo 2^888. -/
theorem addIntoV_eq (x : Seed) (c : List Byte) (counter : Nat) (ready : Bool) {addend : List Byte}
    (h : addend.length ≤ hdrbgSeedLen) : addIntoV ⟨x.bytes, c, counter, ready⟩ addend =
    ⟨(x + Seed.ofBytes addend).bytes, c, counter, ready⟩ := by
  have hsum : x + Seed.ofBytes addend = BitVec.ofNat 888 (x.toNat + value addend.reverse + 0) := by
    rw [Seed.ofBytes, Nat.add_zero, BitVec.ofNat_add, BitVec.ofNat_toNat, BitVec.setWidth_eq]
  have hadd := add_eq 0 x.bytes.reverse addend.reverse (by simpa [length_seedBytes] using h)
  rw [value_seedBytes, length_reverse, length_seedBytes] at hadd
  simp only [addIntoV, hadd, hsum, seedBytes_ofNat]

theorem ofBytes_counterBytes {n : Nat} (h : n < 2 ^ 64) :
    Seed.ofBytes (counterBytes n) = BitVec.ofNat 888 n := by
  have hbytes : (counterBytes n).reverse = ByteNumeral.bytes 8 n := by
    simp [counterBytes, range_succ, ByteNumeral.bytes, Nat.div_div_eq_div_mul]
  rw [Seed.ofBytes, hbytes, value_bytes]
  congr 1
  exact Nat.mod_eq_of_lt h

theorem hashDf_eq (input : List Byte) :
    hashDf hash input hdrbgSeedLen = (Working.hashDf hash input).bytes := by
  have hfill :=
    fill_eq (fun counter : Byte => hash.digest ([counter, 0, 0, 3, 120] ++ input))
      (· + 1) hdrbgOutLen (by decide) (fun _ => hash.length_digest _) hdrbgSeedLen 1 hdrbgSeedLen
      (Nat.le_refl _)
  have htwo : ∀ f : Byte → List Byte, ((range (blocks hdrbgOutLen hdrbgSeedLen)).flatMap fun i =>
      f ((· + 1)^[i] 1)) = (range 2).flatMap fun i => f (BitVec.ofNat 8 (i + 1)) :=
    fun f => rfl
  rw [htwo fun counter => hash.digest ([counter, 0, 0, 3, 120] ++ input)] at hfill
  have hlen : (((range 2).flatMap fun i => hash.digest ([BitVec.ofNat 8 (i + 1), 0, 0, 3, 120] ++
      input)).take hdrbgSeedLen).length = hdrbgSeedLen := by
    simp [range_succ, hash.length_digest, hdrbgOutLen, hdrbgSeedLen]
  exact hfill.trans (bytes_ofBytes hlen).symm

theorem iterate_increment (x : Seed) (i : Nat) : (fun data => (increment data.reverse).reverse)^[i]
    x.bytes = (x + BitVec.ofNat 888 i).bytes := by
  induction i with
  | zero => simp
  | succ i ih =>
    have hnext : x + BitVec.ofNat 888 (i + 1) =
        BitVec.ofNat 888 ((x + BitVec.ofNat 888 i).toNat + 1) := by
      rw [BitVec.ofNat_add, BitVec.ofNat_add, BitVec.ofNat_toNat, BitVec.setWidth_eq,
        BitVec.add_assoc]
    rw [Function.iterate_succ_apply', ih, increment_eq, value_seedBytes, length_reverse,
      length_seedBytes, hnext, seedBytes_ofNat]

/-- The arrays hold the values of the standard, and the counter has not overflowed. -/
structure Follows (state : Hdrbg) (w : Working) : Prop where
  v : state.v = w.V.bytes
  c : state.c = w.C.bytes
  counter : state.counter = w.reseedCounter
  bound : w.reseedCounter ≤ hdrbgReseedInterval + 1
  ready : state.ready = true

theorem follows_seeded (hash : Hash) (seedMaterial : List Byte) :
    Follows ⟨hashDf hash seedMaterial hdrbgSeedLen, hashDf hash (0x00 :: hashDf hash seedMaterial
      hdrbgSeedLen) hdrbgSeedLen, 1, true⟩ (Working.seeded hash seedMaterial) := by
  rw [hashDf_eq, hashDf_eq]
  exact ⟨rfl, rfl, rfl, Nat.le_add_left 1 _, rfl⟩

theorem follows_instantiate (state : Hdrbg) (entropy personal : List Byte) :
    Follows (hdrbgInstantiate hash state entropy personal) (.instantiate hash entropy personal) :=
  follows_seeded hash (entropy ++ personal)

theorem follows_reseed (h : Follows state w) (entropy additional : List Byte) :
    Follows (hdrbgReseed hash state entropy additional) (w.reseed hash entropy additional) := by
  have hseeded := follows_seeded hash (0x01 :: state.v ++ entropy ++ additional)
  rw [← h.ready] at hseeded
  unfold Working.reseed
  rw [← h.v]
  exact hseeded

/-- A request that is not refused. -/
theorem generate_eq {count : Nat} (h : Follows state w) (haccept : ¬w.Refuses count) :
    hdrbgGenerate hash state count = (⟨(w.generate hash count).1.V.bytes, w.C.bytes,
      w.reseedCounter + 1, true⟩, 0, (w.generate hash count).2) := by
  obtain ⟨hv, hc, hctr, hbound, hready⟩ := h
  obtain ⟨v, c, counter, ready⟩ := state
  subst hv hc hctr hready
  rw [Working.Refuses, not_or] at haccept
  have hdigest : (hash.digest (0x03 :: w.V.bytes)).length ≤ hdrbgSeedLen := by
    rw [hash.length_digest]
    decide
  have hsmall : w.reseedCounter + 1 < 2 ^ 64 := by
    unfold hdrbgReseedInterval at hbound
    omega
  have hout :=
    fill_eq hash.digest (fun data => (increment data.reverse).reverse) hdrbgOutLen
      (by decide) hash.length_digest count w.V.bytes count (Nat.le_refl _)
  simp only [iterate_increment] at hout
  rw [hdrbgGenerate, if_neg (by simpa using haccept.2), if_neg haccept.1]
  have hC : Seed.ofBytes w.C.bytes = w.C := by
    rw [Seed.ofBytes, value_seedBytes, BitVec.ofNat_toNat, BitVec.setWidth_eq]
  have hctr : (counterBytes w.reseedCounter).length ≤ hdrbgSeedLen := by
    simp [counterBytes, hdrbgSeedLen]
  simp only [addIntoV_eq _ _ _ _ hdigest, addIntoV_eq _ _ _ _ (length_seedBytes w.C).le,
    addIntoV_eq _ _ _ _ hctr, hC, ofBytes_counterBytes (show w.reseedCounter < 2 ^ 64 by omega),
    Nat.mod_eq_of_lt hsmall, hout, Working.generate, Working.hashgen]

/-- A request that is refused. -/
theorem generate_refused (hash : Hash) {count : Nat} (h : Follows state w)
    (hrefuse : w.Refuses count) :
    (hdrbgGenerate hash state count).1 = state ∧ (hdrbgGenerate hash state count).2.1 ≠ 0 := by
  rw [Working.Refuses, ← h.counter] at hrefuse
  unfold hdrbgGenerate
  split
  · exact ⟨rfl, by simp⟩
  next hready =>
    have hlong : hdrbgReseedInterval < state.counter :=
      hrefuse.resolve_right fun hcount => hready (.inr hcount)
    rw [if_pos hlong]
    exact ⟨rfl, by simp⟩

theorem follows_step (h : Follows state w) (call : Call) :
    Follows (state.step hash call).1 (w.step hash call).1 ∧
      (state.step hash call).2 = (w.step hash call).2 := by
  cases call with
  | reseed entropy additional => exact ⟨follows_reseed h entropy additional, rfl⟩
  | generate count =>
    unfold Hdrbg.step Working.step
    by_cases hrefuse : w.Refuses count
    · obtain ⟨hsame, hfail⟩ := generate_refused hash h hrefuse
      simp only [if_pos hrefuse, hsame, if_neg hfail, and_true]
      exact h
    have hnext : w.reseedCounter + 1 ≤ hdrbgReseedInterval + 1 := by
      rw [Working.Refuses, not_or] at hrefuse
      omega
    simp only [if_neg hrefuse, generate_eq h hrefuse, if_true, and_true]
    exact ⟨rfl, rfl, rfl, hnext, rfl⟩

end Follows

/--
The generator is Hash_DRBG.  After an instantiation and any calls, the arrays hold the values of the
standard after the same calls and every request has given the same output; and a request is refused,
with the state as it was, exactly if the reseed interval is used up or the request is too long.
-/
theorem hdrbg_is_hash_drbg
    (hash : Hash)
    (state : Hdrbg)
    (entropy personal : List Byte)
    (calls : List Call) :
    let code := Run.run (Hdrbg.step hash) (hdrbgInstantiate hash state entropy personal) calls
    let standard := Run.run (Working.step hash) (.instantiate hash entropy personal) calls
    code.1 = ⟨standard.1.V.bytes, standard.1.C.bytes, standard.1.reseedCounter, true⟩ ∧
      code.2 = standard.2 ∧
      ∀ count, ((hdrbgGenerate hash code.1 count).2.1 ≠ 0 ↔
          hdrbgReseedInterval < standard.1.reseedCounter ∨ hdrbgMaxRequest < count) ∧
        ((hdrbgGenerate hash code.1 count).2.1 ≠ 0 →
          (hdrbgGenerate hash code.1 count).1 = code.1) := by
  intro code standard
  have halong : Run.Along (Working.step hash) (fun _ _ => True)
      (.instantiate hash entropy personal) calls := by
    generalize Working.instantiate hash entropy personal = w
    induction calls generalizing w with
    | nil => trivial
    | cons call calls ih => exact ⟨trivial, ih _⟩
  obtain ⟨hstate, hshown⟩ :=
    Run.run_simulation_of (Hdrbg.step hash) (Working.step hash) (fun _ _ => True) Follows
      (fun _ _ call _ h => follows_step h call) (follows_instantiate state entropy personal) halong
  refine ⟨?_, hshown, fun count => ?_⟩
  · obtain ⟨hv, hc, hctr, -, hready⟩ := hstate
    rw [← hv, ← hc, ← hctr, ← hready]
  by_cases hrefuse : standard.1.Refuses count
  · obtain ⟨hsame, hfail⟩ := generate_refused hash hstate hrefuse
    exact ⟨⟨fun _ => hrefuse, fun _ => hfail⟩, fun _ => hsame⟩
  · have hzero : (hdrbgGenerate hash code.1 count).2.1 = 0 := by rw [generate_eq hstate hrefuse]
    exact ⟨⟨fun h => absurd hzero h, fun h => absurd h hrefuse⟩, fun h => absurd hzero h⟩

end PureCOS.Random
