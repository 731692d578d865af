import PureCOS.Lib.Trace
import PureCOS.Net.Arp

/-!
# What the ARP cache holds

An entry is freed when its time is over, by a lookup or by the poll, and when the address of its
interface is set; a new one takes a free, an expired or the oldest slot.

`Kept` is what every call keeps: there is one entry for a key, and a valid entry is the last packet
accepted for its key.  Calls that only free entries are covered by one lemma (`Kept.shrink`), calls
that fill a slot by another one (`Kept.put`).
-/

namespace PureCOS.Arp

open Buffer List Function Option Run

/-! ## Notes -/

section Notes

variable {D : Type}

/-- The note is about the device and address, or about the local address of the device. -/
def Note.Concerns (device : D) (ipv4 : Nat) : Note D → Prop
  | .accepted d ip _ _ => d = device ∧ ip = ipv4
  | .localSet d => d = device
  | .sent _ => False

/--
The last note for a device and an address is this packet, and the local address of the device was
not set since.
-/
def Latest (notes : List (Note D)) (device : D) (ipv4 : Nat) (mac : Mac) (time : Time) : Prop :=
  Trace.Last (Note.Concerns device ipv4) notes (.accepted device ipv4 mac time)

end Notes

/-! ## Entries -/

section Entries

variable {D : Type} [DecidableEq D] {ownMac : D → Mac}

/-- Entries are unique for their keys, and valid ones hold the last packet for their key. -/
structure Kept (ownMac : D → Mac) (notes : List (Note D)) (s : State D) (clock : Time) : Prop where
  unique : ∀ i j, (s.cache i).state ≠ .free → (s.cache j).state ≠ .free →
    (s.cache i).device = (s.cache j).device → (s.cache i).ipv4 = (s.cache j).ipv4 → i = j
  latest : ∀ i, (s.cache i).state = .valid → ∃ d, (s.cache i).device = some d ∧
    Latest notes d (s.cache i).ipv4 (s.cache i).mac (s.cache i).updated
  own : ∀ i d, (s.cache i).state = .valid → (s.cache i).device = some d →
    arpGetLocalIpv4 s (some d) = (s.cache i).ipv4 → (s.cache i).mac = ownMac d
  past : ∀ i, (s.cache i).state = .valid → (s.cache i).updated ≤ clock

variable {notes more : List (Note D)} {s s' : State D} {clock now : Time} {device : Option D}
  {d : D} {ipv4 : Nat} {mac : Mac} {i : Fin cacheCapacity}

theorem kept_initial : Kept ownMac [] (initial : State D) clock where
  unique _ _ h := absurd rfl h
  latest _ h := by cases h
  own _ _ h := by cases h
  past _ h := by cases h

theorem Kept.later (h : Kept ownMac notes s clock) (hle : clock ≤ now) : Kept ownMac notes s now :=
  ⟨h.unique, h.latest, h.own, fun i hi => BitVec.le_trans (h.past i hi) hle⟩

/-- Notes that do not concern a valid entry. -/
theorem Kept.append (h : Kept ownMac notes s clock)
    (hmore : ∀ i d, (s.cache i).state = .valid → (s.cache i).device = some d →
      ∀ note ∈ more, ¬ note.Concerns d (s.cache i).ipv4) :
    Kept ownMac (notes ++ more) s clock where
  unique := h.unique
  latest i hi := by
    obtain ⟨d, hd, hlatest⟩ := h.latest i hi
    exact ⟨d, hd, Trace.Last.append hlatest (hmore i d hi hd)⟩
  own := h.own
  past := h.past

theorem Kept.sent (h : Kept ownMac notes s clock) (packets : List (Packet D)) :
    Kept ownMac (notes ++ packets.map .sent) s clock := by
  apply h.append
  intro i d _ _ note hnote
  obtain ⟨packet, _, rfl⟩ := mem_map.mp hnote
  exact id

/-- Entries may be freed, and nothing but the time of a request may change in the others. -/
def Shrinks (s s' : State D) : Prop :=
  s'.interfaces = s.interfaces ∧ ∀ i, (s'.cache i).state = .free ∨
    ((s'.cache i).state = (s.cache i).state ∧ (s'.cache i).device = (s.cache i).device ∧
      (s'.cache i).ipv4 = (s.cache i).ipv4 ∧ (s'.cache i).mac = (s.cache i).mac ∧
      (s'.cache i).updated = (s.cache i).updated)

theorem arpGetLocalIpv4_congr (h : s'.interfaces = s.interfaces) (device : Option D) :
    arpGetLocalIpv4 s' device = arpGetLocalIpv4 s device := by
  simp only [arpGetLocalIpv4, findInterface, h]

theorem Kept.shrink (h : Kept ownMac notes s clock) (hs : Shrinks s s') :
    Kept ownMac notes s' clock := by
  obtain ⟨hinterfaces, hcache⟩ := hs
  -- an entry in use is the old one
  have hsame : ∀ i, (s'.cache i).state ≠ .free → (s'.cache i).state = (s.cache i).state ∧
      (s'.cache i).device = (s.cache i).device ∧ (s'.cache i).ipv4 = (s.cache i).ipv4 ∧
      (s'.cache i).mac = (s.cache i).mac ∧ (s'.cache i).updated = (s.cache i).updated :=
    fun i hi => (hcache i).resolve_left hi
  have hused : ∀ i, (s'.cache i).state = .valid → (s'.cache i).state ≠ .free := by
    intro i hi
    rw [hi]
    decide
  constructor
  · intro i j hi hj hdev hipv4
    obtain ⟨hstate, hd, hip, _, _⟩ := hsame i hi
    obtain ⟨hstate', hd', hip', _, _⟩ := hsame j hj
    exact h.unique i j (hstate ▸ hi) (hstate' ▸ hj) (by rw [← hd, ← hd', hdev])
      (by rw [← hip, ← hip', hipv4])
  · intro i hi
    obtain ⟨hstate, hd, hip, hmac, hupdated⟩ := hsame i (hused i hi)
    rw [hd, hip, hmac, hupdated]
    exact h.latest i (hstate ▸ hi)
  · intro i d hi hdev hlocal
    obtain ⟨hstate, hd, hip, hmac, _⟩ := hsame i (hused i hi)
    rw [hmac]
    rw [arpGetLocalIpv4_congr hinterfaces] at hlocal
    exact h.own i d (hstate ▸ hi) (hd ▸ hdev) (hip ▸ hlocal)
  · intro i hi
    obtain ⟨hstate, _, _, _, hupdated⟩ := hsame i (hused i hi)
    rw [hupdated]
    exact h.past i (hstate ▸ hi)

omit [DecidableEq D] in
/-- A change of one entry that frees it or only notes a request. -/
theorem shrinks_put {entry : Entry D}
    (h : entry.state = .free ∨
      (entry.state = (s.cache i).state ∧ entry.device = (s.cache i).device ∧
        entry.ipv4 = (s.cache i).ipv4 ∧ entry.mac = (s.cache i).mac ∧
        entry.updated = (s.cache i).updated)) :
    Shrinks s (s.put i entry) := by
  refine ⟨rfl, fun j => ?_⟩
  by_cases hj : j = i
  · rw [hj, s.put_self]
    exact h
  · rw [s.put_of_ne entry hj]
    exact .inr ⟨rfl, rfl, rfl, rfl, rfl⟩

/-! ## Slots -/

theorem findEntry_some (h : findEntry s device ipv4 = some i) :
    (s.cache i).state ≠ .free ∧ (s.cache i).device = device ∧ (s.cache i).ipv4 = ipv4 := by
  simpa using find?_some h

theorem findEntry_none (h : findEntry s device ipv4 = none) (hi : (s.cache i).state ≠ .free)
    (hdev : (s.cache i).device = device) :
    (s.cache i).ipv4 ≠ ipv4 := by
  intro hipv4
  have hno := find?_eq_none.mp h i (mem_finRange i)
  exact hno (decide_eq_true ⟨hi, hdev, hipv4⟩)

/-- No other slot than the chosen one is in use for the key. -/
theorem Kept.alone (h : Kept ownMac notes s clock) {k j : Fin cacheCapacity}
    (hj : j ≠ (findEntry s device ipv4).getD k) (hused : (s.cache j).state ≠ .free)
    (hdev : (s.cache j).device = device) :
    (s.cache j).ipv4 ≠ ipv4 := by
  cases hfind : findEntry s device ipv4 with
  | none => exact findEntry_none hfind hused hdev
  | some i =>
    obtain ⟨hstate, hd, hip⟩ := findEntry_some hfind
    rw [hfind, getD_some] at hj
    intro hipv4
    exact hj (h.unique j i hused hstate (hdev.trans hd.symm) (hipv4.trans hip.symm))

/-- A new entry in a slot, when no other slot is in use for its key, and notes that concern no other
slot. -/
theorem Kept.put {entry : Entry D} (h : Kept ownMac notes s clock)
    (halone : ∀ j ≠ i, (s.cache j).state ≠ .free → (s.cache j).device = entry.device →
      (s.cache j).ipv4 ≠ entry.ipv4)
    (hmore : ∀ j ≠ i, ∀ d, (s.cache j).state = .valid → (s.cache j).device = some d →
      ∀ note ∈ more, ¬ note.Concerns d (s.cache j).ipv4)
    (hlatest : entry.state = .valid → ∃ d, entry.device = some d ∧
      Latest (notes ++ more) d entry.ipv4 entry.mac entry.updated)
    (hown : ∀ d, entry.state = .valid → entry.device = some d →
      arpGetLocalIpv4 s (some d) = entry.ipv4 → entry.mac = ownMac d)
    (hpast : entry.updated ≤ clock) :
    Kept ownMac (notes ++ more) (s.put i entry) clock := by
  constructor
  · intro j k hj hk hdev hipv4
    by_cases hji : j = i
    · by_cases hki : k = i
      · rw [hji, hki]
      · rw [hji, s.put_self] at hdev hipv4
        rw [s.put_of_ne entry hki] at hk hdev hipv4
        exact absurd hipv4.symm (halone k hki hk hdev.symm)
    rw [s.put_of_ne entry hji] at hj hdev hipv4
    by_cases hki : k = i
    · rw [hki, s.put_self] at hdev hipv4
      exact absurd hipv4 (halone j hji hj hdev)
    · rw [s.put_of_ne entry hki] at hk hdev hipv4
      exact h.unique j k hj hk hdev hipv4
  · intro j hj
    by_cases hji : j = i
    · rw [hji, s.put_self] at hj ⊢
      exact hlatest hj
    · rw [s.put_of_ne entry hji] at hj ⊢
      obtain ⟨d, hd, hold⟩ := h.latest j hj
      exact ⟨d, hd, Trace.Last.append hold (hmore j hji d hj hd)⟩
  · intro j d hj hdev hlocal
    rw [arpGetLocalIpv4_congr rfl] at hlocal
    by_cases hji : j = i
    · rw [hji, s.put_self] at hj hdev hlocal ⊢
      exact hown d hj hdev hlocal
    · rw [s.put_of_ne entry hji] at hj hdev hlocal ⊢
      exact h.own j d hj hdev hlocal
  · intro j hj
    by_cases hji : j = i
    · rw [hji, s.put_self]
      exact hpast
    · rw [s.put_of_ne entry hji] at hj ⊢
      exact h.past j hj

/-! ## The calls -/

/-- A sender that does not conflict and claims the local address is the device itself. -/
theorem mac_of_not_conflicts (h : conflicts ownMac s d ipv4 mac = false) (hipv4 : ipv4 ≠ 0)
    (hlocal : arpGetLocalIpv4 s (some d) = ipv4) :
    mac = ownMac d := by
  unfold arpGetLocalIpv4 at hlocal
  unfold conflicts at h
  cases hfind : findInterface s (some d) with
  | none =>
    rw [hfind] at hlocal
    exact absurd hlocal.symm hipv4
  | some i =>
    rw [hfind] at hlocal h
    have hnot := of_decide_eq_false h
    by_contra hne
    exact hnot ⟨hlocal, Ne.symm hne⟩

/-- A packet that is accepted is noted and stored. -/
theorem Kept.learn (h : Kept ownMac notes s now) (hipv4 : ipv4 ≠ 0) (hmac : macIsUnicast mac = true)
    (hconflict : conflicts ownMac s d ipv4 mac = false) : Kept ownMac
    (notes ++ [.accepted d ipv4 mac now]) (Arp.learn ownMac s (some d) ipv4 mac now) now := by
  have heq : Arp.learn ownMac s (some d) ipv4 mac now =
      s.put ((findEntry s (some d) ipv4).getD (allocateEntry s now))
        ⟨some d, ipv4, mac, now, 0, .valid⟩ := by
    simp only [Arp.learn]
    rw [if_neg (by simp [hipv4, hmac]), if_neg (by simp [hconflict])]
  rw [heq]
  apply h.put
  · intro j hj hused hdev
    exact h.alone hj hused hdev
  · intro j hj e hvalid he note hnote
    rw [mem_singleton] at hnote
    subst hnote
    rintro ⟨rfl, hip⟩
    exact h.alone hj (by rw [hvalid]; decide) he hip.symm
  · intro _
    exact ⟨d, rfl, Trace.last_append_cons fun _ h => by cases h⟩
  · intro e _ he hlocal
    obtain rfl : d = e := some.inj he
    exact mac_of_not_conflicts hconflict hipv4 hlocal
  · exact BitVec.le_refl _

/-- A packet is noted if and only if it is stored. -/
theorem Kept.receivePacket (h : Kept ownMac notes s now) (frame : Frame D) : Kept ownMac
    (notes ++ acceptedFrom ownMac s frame now) (Arp.receivePacket ownMac s frame now).1 now := by
  by_cases hwell : wellFormed frame = true
  · have hreceive : (Arp.receivePacket ownMac s frame now).1 = Arp.learn ownMac s frame.device
        (readBE32 frame.payload 14) (macAt frame.payload 8) now := by
      rw [Arp.receivePacket, if_pos hwell]
    have hmac : macIsUnicast (macAt frame.payload 8) = true := by
      simp only [wellFormed, Bool.and_eq_true] at hwell
      exact hwell.1.2
    rw [hreceive]
    cases hdev : frame.device with
    | none =>
      simp only [acceptedFrom, hdev, Arp.learn, append_nil]
      exact h
    | some d =>
      by_cases hipv4 : readBE32 frame.payload 14 = 0
      · simp only [acceptedFrom, hdev, Arp.learn, hipv4]
        simpa using h
      cases hconflict :
        conflicts ownMac s d (readBE32 frame.payload 14) (macAt frame.payload 8) with
      | true =>
        simp only [acceptedFrom, hdev, Arp.learn, hconflict]
        simpa using h
      | false =>
        have hnotes : acceptedFrom ownMac s frame now =
            [.accepted d (readBE32 frame.payload 14) (macAt frame.payload 8) now] := by
          simp only [acceptedFrom, hdev]
          rw [if_pos ⟨hwell, hipv4, by rw [hconflict]; rfl⟩]
        rw [hnotes]
        exact h.learn hipv4 hmac hconflict
  · have hreceive : (Arp.receivePacket ownMac s frame now).1 = s := by
      rw [Arp.receivePacket, if_neg hwell]
    have hnotes : acceptedFrom ownMac s frame now = [] := by
      cases hdev : frame.device with
      | none => simp only [acceptedFrom, hdev]
      | some d =>
        simp only [acceptedFrom, hdev]
        rw [if_neg fun hall => hwell hall.1]
    rw [hreceive, hnotes, append_nil]
    exact h

theorem shrinks_arpLookup : Shrinks s (arpLookup s device ipv4 now).1 := by
  have hrefl : Shrinks s s := ⟨rfl, fun _ => .inr ⟨rfl, rfl, rfl, rfl, rfl⟩⟩
  unfold arpLookup
  split
  · exact hrefl
  split
  · exact hrefl
  split
  · split
    · exact hrefl
    · exact shrinks_put (.inl rfl)
  · exact hrefl

omit [DecidableEq D] in
theorem shrinks_arpPoll : Shrinks s (arpPoll s now) := by
  refine ⟨rfl, fun i => ?_⟩
  simp only [arpPoll]
  split
  · exact .inl rfl
  · exact .inr ⟨rfl, rfl, rfl, rfl, rfl⟩

/-- A request makes a pending entry or notes its time in one. -/
theorem Kept.request (h : Kept ownMac notes s now) :
    Kept ownMac notes (Arp.request s device ipv4 now).1 now := by
  unfold Arp.request
  cases hfind : findEntry s device ipv4 with
  | none =>
    have hput : Kept ownMac (notes ++ [])
        (s.put (allocateEntry s now) ⟨device, ipv4, fun _ => 0, now, now, .pending⟩) now := by
      apply h.put
      · exact fun j _ hused hdev => findEntry_none hfind hused hdev
      · exact fun _ _ _ _ _ note hnote => by cases hnote
      · exact fun hvalid => by cases hvalid
      · exact fun _ hvalid => by cases hvalid
      · exact BitVec.le_refl _
    rw [append_nil] at hput
    exact hput
  | some i =>
    dsimp only
    split
    · exact h.shrink (shrinks_put (.inr ⟨rfl, rfl, rfl, rfl, rfl⟩))
    · exact h

theorem Kept.arpResolve {later : Time} (h : Kept ownMac notes s now) (hle : now ≤ later) :
    Kept ownMac notes (Arp.arpResolve ownMac s device ipv4 now later).1 later := by
  have hlook : Kept ownMac notes (arpLookup s device ipv4 now).1 later :=
    (h.shrink shrinks_arpLookup).later hle
  unfold Arp.arpResolve
  rcases hres : arpLookup s device ipv4 now with ⟨s₁, _ | mac⟩
  · rw [hres] at hlook
    cases device with
    | none => exact hlook
    | some d =>
      dsimp only
      split
      · exact hlook
      have hrequest : Kept ownMac notes (Arp.request s₁ (some d) ipv4 later).1 later :=
        hlook.request
      rcases hreq : Arp.request s₁ (some d) ipv4 later with ⟨s₂, _ | _⟩
      · rw [hreq] at hrequest
        exact hrequest
      · rw [hreq] at hrequest
        exact hrequest
  · rw [hres] at hlook
    exact hlook

/-! ## Local addresses -/

variable {k : Fin netDeviceMaxCount}

theorem findInterface_some (h : findInterface s device = some k) :
    (s.interfaces k).device = device := by
  simpa using find?_some h

/-- The slot for a device holds the device or nothing. -/
theorem interfaceSlot_some (h : interfaceSlot s device = some k) :
    (s.interfaces k).device = device ∨ (s.interfaces k).device = none := by
  unfold interfaceSlot at h
  cases hfind : findInterface s device with
  | none =>
    rw [hfind] at h
    exact .inr (findInterface_some h)
  | some j =>
    rw [hfind] at h
    obtain rfl : j = k := some.inj h
    exact .inl (findInterface_some hfind)

/-- Other devices keep their interfaces. -/
theorem findInterface_update {cache : Fin cacheCapacity → Entry D} {interface : Interface D}
    (hold : (s.interfaces k).device ≠ some d) (hnew : interface.device ≠ some d) :
    findInterface ⟨cache, update s.interfaces k interface⟩ (some d) = findInterface s (some d) := by
  unfold findInterface
  congr 1
  funext j
  by_cases hj : j = k
  · subst hj
    simp [update_self, hold, hnew]
  · simp only [update_of_ne hj]

theorem arpGetLocalIpv4_update {cache : Fin cacheCapacity → Entry D} {interface : Interface D}
    (hold : (s.interfaces k).device ≠ some d) (hnew : interface.device ≠ some d) : arpGetLocalIpv4
    ⟨cache, update s.interfaces k interface⟩ (some d) = arpGetLocalIpv4 s (some d) := by
  unfold arpGetLocalIpv4
  rw [findInterface_update hold hnew]
  cases hfind : findInterface s (some d) with
  | none => rfl
  | some j =>
    have hj : j ≠ k := by
      rintro rfl
      exact hold (findInterface_some hfind)
    simp only [update_of_ne hj]

theorem shrinks_freeDevice : Shrinks s (freeDevice s device) := by
  refine ⟨rfl, fun i => ?_⟩
  simp only [freeDevice]
  split
  · exact .inl rfl
  · exact .inr ⟨rfl, rfl, rfl, rfl, rfl⟩

theorem freeDevice_device (h : ((freeDevice s device).cache i).state = .valid) :
    ((freeDevice s device).cache i).device ≠ device := by
  simp only [freeDevice] at h ⊢
  split at h
  · cases h
  next hne =>
    rw [if_neg hne]
    exact hne

/-- Setting a local address frees the entries of the device. -/
theorem Kept.arpSetLocalIpv4 (h : Kept ownMac notes s clock) (registered : Bool) (address : Nat) :
    Kept ownMac
      (notes ++ if (Arp.arpSetLocalIpv4 s device registered address).2 then
        (device.map Note.localSet).toList else [])
      (Arp.arpSetLocalIpv4 s device registered address).1 clock := by
  unfold Arp.arpSetLocalIpv4
  split
  · simpa using h
  next hdev =>
  obtain ⟨d, rfl⟩ : ∃ d, device = some d := ne_none_iff_exists'.mp fun hnone => hdev (.inl hnone)
  cases hslot : interfaceSlot s (some d) with
  | none => simpa using h
  | some k =>
    have hfreed : Kept ownMac notes (freeDevice s (some d)) clock :=
      h.shrink shrinks_freeDevice
    have hnotes : Kept ownMac (notes ++ [Note.localSet d]) (freeDevice s (some d)) clock :=
      hfreed.append fun i e hi he note hnote hconcerns => by
        rw [mem_singleton.mp hnote] at hconcerns
        exact freeDevice_device hi (he.trans (congrArg some hconcerns.symm))
    have hlocal : ∀ i e, ((freeDevice s (some d)).cache i).state = .valid →
        ((freeDevice s (some d)).cache i).device = some e →
        arpGetLocalIpv4 ⟨(freeDevice s (some d)).cache,
          update s.interfaces k ⟨some d, address⟩⟩ (some e) =
            arpGetLocalIpv4 s (some e) := by
      intro i e hi he
      have hne : some d ≠ some e := fun heq => freeDevice_device hi (he.trans heq.symm)
      apply arpGetLocalIpv4_update _ hne
      rcases interfaceSlot_some hslot with hk | hk
      · rw [hk]
        exact hne
      · rw [hk]
        exact (some_ne_none e).symm
    exact ⟨hnotes.unique, hnotes.latest,
      fun i e hi he hip => hnotes.own i e hi he ((hlocal i e hi he).symm.trans hip), hnotes.past⟩

/-! ## Runs -/

/-- A step keeps the entries, if the clock does not run back. -/
theorem Kept.step (h : Kept ownMac notes s clock) (e : Event D) (hle : ∀ t ∈ e.times, clock ≤ t)
    (hsorted : e.times.Pairwise (· ≤ ·)) :
    Kept ownMac (notes ++ (Arp.step ownMac s e).2) (Arp.step ownMac s e).1
      (e.times.getLast?.getD clock) := by
  cases e with
  | receive frame now =>
    have hnow := h.later (hle now (mem_singleton_self now))
    have hreceived := (hnow.receivePacket frame).sent (Arp.receivePacket ownMac s frame now).2
    rw [append_assoc] at hreceived
    exact hreceived
  | resolve device ipv4 now later =>
    have hnow := h.later (hle now (mem_cons_self ..))
    have hlater : now ≤ later := rel_of_pairwise_cons hsorted (mem_singleton_self later)
    exact (hnow.arpResolve hlater).sent _
  | lookup device ipv4 now =>
    have hnow := h.later (hle now (mem_singleton_self now))
    have hlook : Kept ownMac notes (arpLookup s device ipv4 now).1 now :=
      hnow.shrink shrinks_arpLookup
    rw [← append_nil notes] at hlook
    exact hlook
  | poll now =>
    have hnow := h.later (hle now (mem_singleton_self now))
    have hpoll : Kept ownMac notes (arpPoll s now) now := hnow.shrink shrinks_arpPoll
    rw [← append_nil notes] at hpoll
    exact hpoll
  | setLocal device registered address => exact h.arpSetLocalIpv4 registered address

/-- The same for a run up to a time. -/
theorem Kept.run (h : Kept ownMac notes s clock)
    (es : List (Event D)) (hsorted : (es.flatMap Event.times).Pairwise (· ≤ ·))
    (hfrom : ∀ t ∈ es.flatMap Event.times, clock ≤ t)
    (hclock : clock ≤ now) (hto : ∀ t ∈ es.flatMap Event.times, t ≤ now) : Kept ownMac
    (notes ++ (run (Arp.step ownMac) s es).2) (run (Arp.step ownMac) s es).1 now := by
  induction es generalizing notes s clock with
  | nil =>
    rw [run, append_nil]
    exact h.later hclock
  | cons e es ih =>
    rw [flatMap_cons] at hsorted hfrom hto
    obtain ⟨hhead, hrest, hcross⟩ := pairwise_append.mp hsorted
    have hstep := h.step e (fun t ht => hfrom t (mem_append_left _ ht)) hhead
    -- the clock after the event is its last time, or the old one
    have hlast : ∀ t, clock ≤ t → (∀ u ∈ e.times, u ≤ t) → e.times.getLast?.getD clock ≤ t := by
      intro t ht hu
      cases hl : e.times.getLast? with
      | none => exact ht
      | some u => exact hu u (mem_of_getLast? hl)
    have hrun := ih hstep hrest
      (fun t ht => hlast t (hfrom t (mem_append_right _ ht)) fun u hu => hcross u hu t ht)
      (hlast now hclock fun u hu => hto u (mem_append_left _ hu))
      (fun t ht => hto t (mem_append_right _ ht))
    rw [run, ← append_assoc]
    exact hrun

theorem arpLookup_some (h : (arpLookup s (some d) ipv4 now).2 = some mac) :
    ∃ i, (s.cache i).state = .valid ∧ (s.cache i).device = some d ∧ (s.cache i).ipv4 = ipv4 ∧
      (s.cache i).mac = mac ∧ now - (s.cache i).updated < cacheTtl := by
  unfold arpLookup at h
  split at h
  · cases h
  cases hfind : findEntry s (some d) ipv4 with
  | none =>
    rw [hfind] at h
    cases h
  | some i =>
    rw [hfind] at h
    dsimp only at h
    obtain ⟨_, hdev, hip⟩ := findEntry_some hfind
    split at h
    next hvalid =>
      split at h
      next hage => exact ⟨i, hvalid, hdev, hip, some.inj h, hage⟩
      · cases h
    · cases h

/-- After every run with a clock that does not run back, entries are unique for their keys, and a
lookup gives the sender of the last packet accepted from the address. -/
theorem arpLookup_latest
    (ownMac : D → Mac)
    (es : List (Event D))
    (hsorted : (es.flatMap Event.times).Pairwise (· ≤ ·)) :
    (∀ i j, ((run (step ownMac) initial es).1.cache i).state ≠ .free →
      ((run (step ownMac) initial es).1.cache j).state ≠ .free →
      ((run (step ownMac) initial es).1.cache i).device =
        ((run (step ownMac) initial es).1.cache j).device →
      ((run (step ownMac) initial es).1.cache i).ipv4 =
        ((run (step ownMac) initial es).1.cache j).ipv4 → i = j) ∧
    ∀ device ipv4 now mac, (∀ t ∈ es.flatMap Event.times, t ≤ now) →
      (arpLookup (run (step ownMac) initial es).1 (some device) ipv4 now).2 = some mac →
      (∃ time, Latest (run (step ownMac) initial es).2 device ipv4 mac time ∧
        time ≤ now ∧ now.toNat - time.toNat < cacheTtl.toNat) ∧
      (arpGetLocalIpv4 (run (step ownMac) initial es).1 (some device) = ipv4 →
        mac = ownMac device) := by
  have hkept : ∀ now, (∀ t ∈ es.flatMap Event.times, t ≤ now) →
      Kept ownMac (run (step ownMac) initial es).2 (run (step ownMac) initial es).1 now :=
    fun now hto => (kept_initial : Kept ownMac [] initial 0#64).run es hsorted
      (fun t _ => Nat.zero_le t.toNat) (Nat.zero_le now.toNat) hto
  refine ⟨(hkept (BitVec.allOnes 64) fun t _ => ?_).unique, ?_⟩
  · rw [BitVec.le_def, BitVec.toNat_allOnes]
    have hlt := t.isLt
    omega
  intro device ipv4 now mac hto hlook
  have h := hkept now hto
  obtain ⟨i, hvalid, hdev, rfl, rfl, hage⟩ := arpLookup_some hlook
  refine ⟨?_, h.own i device hvalid hdev⟩
  obtain ⟨d, hd, hlatest⟩ := h.latest i hvalid
  obtain rfl : d = device := some.inj (hd.symm.trans hdev)
  have hpast := h.past i hvalid
  refine ⟨_, hlatest, hpast, ?_⟩
  rw [← BitVec.toNat_sub_of_le hpast]
  exact hage

end Entries

/-- A reply of station 2 to the device with address 1. -/
def replyFrame : Frame Unit where
  device := some ()
  source := fun _ => 2
  payload := fun i =>
    [0, 1, 8, 0, 6, 4, 0, 2, 2, 2, 2, 2, 2, 2, 0, 0, 0, 2, 4, 4, 4, 4, 4, 4, 0, 0, 0, 1].getD i 0
  payloadLength := 28

/-- The address of station 2 is asked for at 10 and learned at 20. -/
def replyRun : List (Event Unit) :=
  [.setLocal (some ()) true 1, .resolve (some ()) 2 10#64 11#64, .receive replyFrame 20#64]

theorem arpLookup_latest_reply :
    ∃ time, Latest (run (step fun _ _ => 4#8) initial replyRun).2 () 2 (fun _ => 2#8) time ∧
      time ≤ 30#64 ∧ (30#64).toNat - time.toNat < cacheTtl.toNat := by
  have hsorted : (replyRun.flatMap Event.times).Pairwise (· ≤ ·) := by decide
  have hto : ∀ t ∈ replyRun.flatMap Event.times, t ≤ 30#64 := by
    simp [replyRun, Event.times]
  have hlook : (arpLookup (run (step fun _ _ => 4#8) initial replyRun).1 (some ()) 2 30#64).2 =
      some fun _ => 2#8 := by
    decide
  exact ((arpLookup_latest (fun _ _ => 4#8) replyRun hsorted).2 () 2 30#64 _ hto hlook).1

end PureCOS.Arp
