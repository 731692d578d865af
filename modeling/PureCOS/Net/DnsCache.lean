import PureCOS.Lib.Trace
import PureCOS.Net.Dns

/-!
# What the DNS cache gives

A run notes the addresses that a server gave in answer to a query and those that a call took from
the cache.  An entry holds the first 63 characters of the name that was asked for, so an address
from the cache was given for the same name unless a longer name begins with it.
-/

namespace PureCOS.Dns

open List

/-- What happens to the client. -/
inductive Event (D : Type) where
  | resolve (device : Option D) (hostname : List Byte) (timeout now start : Time)
    (rounds : List (Round D))
  | setServer (device : Option D) (server : Nat)
  | receive (datagram : Datagram D)

/--
What a run notes: the server answered a query for a name, and a call found a name in the cache.
-/
inductive Note where
  | answered (name : List Byte) (address ttlSeconds : Nat) (time : Time)
  | hit (name : List Byte) (address : Nat) (now : Time)
deriving DecidableEq

section Runs

variable {D : Type} [DecidableEq D]

/-- The notes for a call. -/
def notesOf (hostname : List Byte) (now : Time) (r : Option (Nat × Source)) : List Note :=
  match normalizeHostname hostname hostnameCapacity, r with
  | some name, some (address, .cache) => [.hit name address now]
  | some name, some (address, .server ttlSeconds time) => [.answered name address ttlSeconds time]
  | _, _ => []

/-- One call or datagram. -/
def step (s : State D) : Event D → State D × List Note
  | .resolve device hostname timeout now start rounds =>
    let r := dnsResolveIpv4 s device hostname timeout now start rounds
    (r.1, notesOf hostname now r.2.2)
  | .setServer device server => ((dnsSetServer s device server).1, [])
  | .receive datagram => ({ s with query := s.query.receive datagram }, [])

/-- An entry in use holds an answer, under the first characters of its name. -/
def Stored (trace : List Note) (cache : Fin cacheCapacity → CacheEntry) : Prop :=
  ∀ i, (cache i).address ≠ 0 → ∃ name ttlSeconds time,
    .answered name (cache i).address ttlSeconds time ∈ trace ∧
      (cache i).name = name.take 63 ∧ (cache i).expires = expiry time ttlSeconds

/--
What a hit rests on: an answer for the name whose time is not over, unless a longer name was
answered that begins with it.
-/
def Justified (trace : List Note) : Note → Prop
  | .hit name address now =>
    (∀ other a ttlSeconds time, .answered other a ttlSeconds time ∈ trace →
      other.length ≤ 63 ∨ other.take 63 ≠ name) →
    ∃ ttlSeconds time, .answered name address ttlSeconds time ∈ trace ∧
      now.toNat < time.toNat + ttlSeconds * 1000
  | .answered _ _ _ _ => True

variable {trace : List Note} {cache : Fin cacheCapacity → CacheEntry} {name : List Byte}
  {now : Time} {address ttlSeconds : Nat} {s : State D}

theorem lt_of_lt_expiry {time : Time} (h : now < expiry time ttlSeconds) :
    now.toNat < time.toNat + ttlSeconds * 1000 := by
  have hnow := now.isLt
  have hlt : now.toNat < (expiry time ttlSeconds).toNat := h
  unfold expiry at hlt
  split at hlt
  · rw [BitVec.toNat_allOnes] at hlt
    omega
  · rw [BitVec.toNat_ofNat] at hlt
    have hmod := Nat.mod_le (time.toNat + ttlSeconds * 1000) (2 ^ 64)
    omega

theorem Justified.append {note : Note} (more : List Note) (h : Justified trace note) :
    Justified (trace ++ more) note := by
  cases note with
  | answered => trivial
  | hit name address now =>
    intro hnames
    obtain ⟨ttlSeconds, time, hmem, hlt⟩ :=
      h fun other a t u hother => hnames other a t u (mem_append_left _ hother)
    exact ⟨ttlSeconds, time, mem_append_left _ hmem, hlt⟩

theorem Stored.append (h : Stored trace cache) (more : List Note) :
    Stored (trace ++ more) cache := by
  intro i hi
  obtain ⟨name, ttlSeconds, time, hmem, hname, hexpires⟩ := h i hi
  exact ⟨name, ttlSeconds, time, mem_append_left _ hmem, hname, hexpires⟩

/-- An address from the cache is justified. -/
theorem Stored.justified (h : Stored trace cache)
    (hlook : cacheLookup cache name now = some address) :
    Justified trace (.hit name address now) := by
  intro hnames
  obtain ⟨i, hfind, rfl⟩ := Option.map_eq_some_iff.mp hlook
  have hentry : (cache i).address ≠ 0 ∧ now < (cache i).expires ∧ (cache i).name = name := by
    simpa using find?_some hfind
  obtain ⟨haddr, hexpires, hname⟩ := hentry
  obtain ⟨asked, ttlSeconds, time, hmem, hasked, hexpiry⟩ := h i haddr
  -- a name of at most 63 characters is stored in full
  have hfull : asked = name := by
    rcases hnames asked _ _ _ hmem with hshort | hother
    · rw [← hname, hasked, take_of_length_le hshort]
    · exact absurd (hasked.symm.trans hname) hother
  rw [hexpiry] at hexpires
  exact ⟨ttlSeconds, time, hfull ▸ hmem, lt_of_lt_expiry hexpires⟩

/-- An answer is noted and stored. -/
theorem Stored.cacheStore {time : Time} (h : Stored trace cache) :
    Stored (trace ++ [.answered name address ttlSeconds time])
      (Dns.cacheStore cache name address ttlSeconds time) := by
  unfold Dns.cacheStore
  split
  · exact h.append _
  intro i hi
  by_cases hslot : i = chooseSlot cache name time (finRange cacheCapacity) 0
  · rw [hslot, Function.update_self]
    exact ⟨name, ttlSeconds, time, mem_append_right _ (mem_singleton_self _), rfl, rfl⟩
  · rw [Function.update_of_ne hslot] at hi ⊢
    exact h.append _ i hi

/-- Asking the server changes the cache only by an answer. -/
theorem Stored.ask {hostname : List Byte} {d : D} {server : Nat} {timeout start : Time}
    {rounds : List (Round D)} (h : Stored trace s.cache)
    (hnormal : normalizeHostname hostname hostnameCapacity = some name) :
    Stored (trace ++ notesOf hostname now (Dns.ask s d server name timeout start rounds).2.2)
        (Dns.ask s d server name timeout start rounds).1.cache ∧
      ∀ note ∈ notesOf hostname now (Dns.ask s d server name timeout start rounds).2.2,
        Justified trace note := by
  have hnone : Stored (trace ++ notesOf hostname now none) s.cache ∧
      ∀ note ∈ notesOf hostname now none, Justified trace note := by
    simp only [notesOf, hnormal, append_nil]
    exact ⟨h, fun note hnote => by cases hnote⟩
  unfold Dns.ask
  split
  · exact hnone
  dsimp only
  split
  · exact hnone
  generalize await start timeout rounds (BitVec.allOnes 64) _ = r
  rcases r with ⟨result, query, _ | round⟩
  · exact hnone
  simp only [notesOf, hnormal]
  refine ⟨h.cacheStore, fun note hnote => ?_⟩
  rw [mem_singleton.mp hnote]
  trivial

theorem Stored.resolve {device : Option D} {hostname : List Byte} {timeout start : Time}
    {rounds : List (Round D)} (h : Stored trace s.cache) :
    Stored (trace ++ notesOf hostname now (dnsResolveIpv4 s device hostname timeout
      now start rounds).2.2) (dnsResolveIpv4 s device hostname timeout now start rounds).1.cache ∧
      ∀ note ∈ notesOf hostname now (dnsResolveIpv4 s device hostname timeout now start rounds).2.2,
      Justified trace note := by
  have hquiet : ∀ r : Option (Nat × Source), notesOf hostname now r = [] →
      Stored (trace ++ notesOf hostname now r) s.cache ∧
        ∀ note ∈ notesOf hostname now r, Justified trace note := by
    intro r hr
    rw [hr, append_nil]
    exact ⟨h, fun note hnote => by cases hnote⟩
  have hnone : notesOf hostname now none = [] := by
    unfold notesOf
    cases normalizeHostname hostname hostnameCapacity <;> rfl
  unfold dnsResolveIpv4
  split
  · exact hquiet none hnone
  split
  · exact hquiet none hnone
  split
  · apply hquiet
    unfold notesOf
    cases normalizeHostname hostname hostnameCapacity <;> rfl
  split
  · exact hquiet none hnone
  next name hnormal =>
  split
  next address hlook =>
    simp only [notesOf, hnormal]
    refine ⟨h.append _, fun note hnote => ?_⟩
    rw [mem_singleton.mp hnote]
    exact h.justified hlook
  split
  · exact hquiet none hnone
  split
  · exact hquiet none hnone
  · exact h.ask hnormal

/-- The cache and the hits of a run. -/
theorem run_stored (es : List (Event D)) :
    Stored (Run.run step (initial : State D) es).2 (Run.run step (initial : State D) es).1.cache ∧
      Trace.EachAfter Justified (Run.run step (initial : State D) es).2 := by
  apply Run.run_induction step fun trace s => Stored trace s.cache ∧ Trace.EachAfter Justified trace
  · rintro trace s e ⟨hstored, hjust⟩
    cases e with
    | resolve device hostname timeout now start rounds =>
      obtain ⟨hstored', hnotes⟩ := hstored.resolve (s := s)
      exact ⟨hstored', hjust.append (fun _ mid _ h => h.append mid) hnotes⟩
    | setServer device server =>
      have hcache : (dnsSetServer s device server).1.cache = s.cache := by
        unfold dnsSetServer
        split
        · rfl
        · dsimp only
          split <;> rfl
      simp only [step, append_nil, hcache]
      exact ⟨hstored, hjust⟩
    | receive datagram =>
      simp only [step, append_nil]
      exact ⟨hstored, hjust⟩
  · exact ⟨fun i hi => absurd rfl hi, Trace.eachAfter_nil Justified⟩

/--
An address that a call takes from the cache was given for the same name and is still valid, if no
longer name that was answered begins with it.
-/
theorem cached_address_answered
    (es : List (Event D))
    (before after : List Note)
    (name : List Byte)
    (address : Nat)
    (now : Time)
    (htrace : (Run.run step (initial : State D) es).2 = before ++ .hit name address now :: after)
    (hnames : ∀ other a ttlSeconds time, .answered other a ttlSeconds time ∈ before →
      other.length ≤ 63 ∨ other.take 63 ≠ name) :
    ∃ ttlSeconds time, .answered name address ttlSeconds time ∈ before ∧
      now.toNat < time.toNat + ttlSeconds * 1000 :=
  (run_stored es).2 before _ after htrace hnames

end Runs

/-! ## Runs with one answer -/

/-- An answer to the first query: an address for 256 seconds. -/
def firstAnswer : Datagram Unit where
  device := ()
  sourceAddress := 1
  sourcePort := 53
  payload := fun i =>
    [0x41, 0x01, 0x80, 0, 0, 0, 0, 1, 0, 0, 0, 0, 0, 0, 1, 0, 1, 0, 0, 1, 0, 0, 4, 10, 0,
      0, 9].getD i 0
  payloadLength := 27

/-- Ask for a name, get the answer at time 20, and look another name up at time 50. -/
def askedRun (hostname later : List Byte) : List (Event Unit) :=
  [.setServer (some ()) 1,
    .resolve (some ()) hostname 1000 0 0 [⟨10, 10, .ok, [firstAnswer], 20⟩],
    .resolve (some ()) later 1000 50 50 []]

theorem cached_address_answered_letter :
    ∃ ttlSeconds time,
      .answered [97] 0x0A000009 ttlSeconds time ∈ [Note.answered [97] 0x0A000009 256 20] ∧
      (50#64).toNat < time.toNat + ttlSeconds * 1000 :=
  cached_address_answered (askedRun [97] [65]) [.answered [97] 0x0A000009 256 20] []
    [97] 0x0A000009 50 (by decide +kernel) (by
      intro other a ttlSeconds time hmem
      cases mem_singleton.mp hmem
      exact .inl (by decide))

/-- A name of 64 characters. -/
def longName : List Byte := replicate 31 97 ++ 46 :: replicate 32 97

/-- The address of a name of 64 characters is given for the name without its last character. -/
theorem cached_address_of_longer_name :
    (Run.run step initial (askedRun longName (longName.take 63))).2 =
      [.answered longName 0x0A000009 256 20, .hit (longName.take 63) 0x0A000009 50] ∧
      longName ≠ longName.take 63 := by
  decide +kernel

end PureCOS.Dns
