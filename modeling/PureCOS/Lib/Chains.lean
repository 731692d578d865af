import Mathlib.Data.List.Nodup
import Mathlib.Data.List.Perm.Basic
import Mathlib.Logic.Function.Basic

/-!
# Hash tables with chains

A value hangs in the chain that belongs to the hash of its key.  The chains hold the values
of a list, in any order, and no two of these have the same key.  Then a search along one
chain finds the value with a key and no other.
-/

namespace PureCOS

open List Function

variable {ν : Type} {hash : Nat → Nat} {key key' : ν → Nat} {chains : Nat → List ν}
variable {l l' : List ν} {p : ν} {k : Nat}

/-- The chains hold the values of `l`, whose keys are distinct. -/
structure Chained (hash : Nat → Nat) (key : ν → Nat) (chains : Nat → List ν) (l : List ν) :
    Prop where
  nodup : (l.map key).Nodup
  chain : ∀ i, (chains i).Perm (l.filter fun p => hash (key p) = i)

namespace Chained

theorem empty : Chained hash key (fun _ => []) [] := ⟨nodup_nil, fun _ => .nil⟩

variable (h : Chained hash key chains l)

include h

theorem mem_chain {i : Nat} : p ∈ chains i ↔ p ∈ l ∧ hash (key p) = i := by
  rw [(h.chain i).mem_iff, mem_filter, decide_eq_true_eq]

/-- The order of the values does not matter. -/
theorem perm (hl : l.Perm l') : Chained hash key chains l' :=
  ⟨(hl.map key).nodup_iff.mp h.nodup, fun i => (h.chain i).trans (hl.filter _)⟩

/-- Only the keys of the values in the table matter. -/
theorem congr (hkey : ∀ q ∈ l, key' q = key q) : Chained hash key' chains l := by
  refine ⟨?_, fun i => ?_⟩
  · rw [map_congr_left hkey]
    exact h.nodup
  · rw [filter_congr fun q hq => by rw [hkey q hq]]
    exact h.chain i

/-- A search for the values with a key finds the one that has it. -/
theorem find_iff {found : ν → Bool} (hfound : ∀ q ∈ l, found q = true ↔ key q = k) :
    (chains (hash k)).find? found = some p ↔ p ∈ l ∧ key p = k := by
  have hinj := inj_on_of_nodup_map h.nodup
  have hmem := fun q => h.mem_chain (p := q) (i := hash k)
  cases hfind : (chains (hash k)).find? found with
  | none =>
    rw [find?_eq_none] at hfind
    grind
  | some q => grind

/-- A value goes to the head of its chain. -/
theorem insert (hnew : ∀ q ∈ l, key q ≠ key p) :
    Chained hash key (update chains (hash (key p)) (p :: chains (hash (key p)))) (p :: l) := by
  refine ⟨nodup_cons.mpr ⟨by simpa using hnew, h.nodup⟩, fun i => ?_⟩
  rw [filter_cons, update_apply]
  split
  next hi => simpa [hi] using (h.chain _).cons p
  next hi => simpa [Ne.symm hi] using h.chain i

/-- A value leaves its chain, if it is there. -/
theorem remove [DecidableEq ν] (p : ν) :
    Chained hash key (update chains (hash (key p)) ((chains (hash (key p))).erase p))
      (l.erase p) := by
  refine ⟨h.nodup.sublist (erase_sublist.map _), fun i => ?_⟩
  have hl := h.nodup.of_map
  rw [hl.erase_eq_filter, filter_comm, ← (hl.filter _).erase_eq_filter, update_apply]
  split
  next hi => exact hi ▸ (h.chain _).erase p
  next hi =>
    rw [erase_of_not_mem (by simp [Ne.symm hi])]
    exact h.chain i

end Chained
end PureCOS
