import PureCOS.Lib.Trace
import PureCOS.Net.DhcpClient

/-!
# Runs of the DHCP clients

In runs in which messages that are not acted on are quiet and offers name their server, every
request that is sent is for the address and the server of one offer, and a bound client keeps the
lease time and the gateway of the acknowledgement it accepted.
-/

namespace PureCOS.Dhcp

open Buffer List Function Run

/-! ## Traces -/

section Traces

variable {D : Type} {trace more : List (Note D)}

/-- A request that is sent is for the address and the server of an offer in the trace. -/
def BackedBy (trace : List (Note D)) : Note D → Prop
  | .sent d packet _ => packet 242 = request →
      .offered d (readBE32 packet 245) (some (readBE32 packet 251)) ∈ trace
  | _ => True

/-- Every request is for an offer that was accepted before. -/
def Backed (trace : List (Note D)) : Prop := Trace.EachAfter BackedBy trace

/-- The note is an acknowledgement for the device. -/
def Note.Acknowledges (d : D) : Note D → Prop
  | .acknowledged d' _ _ => d' = d
  | _ => False

/-- The last acknowledgement accepted for the device left this lease time and gateway. -/
def LastAck (trace : List (Note D)) (d : D) (lease gateway : Nat) : Prop :=
  Trace.Last (Note.Acknowledges d) trace (.acknowledged d lease gateway)

theorem BackedBy.append {note : Note D} (h : BackedBy trace note) :
    BackedBy (trace ++ more) note := by
  cases note with
  | sent d packet length => exact fun hreq => mem_append_left _ (h hreq)
  | configured => trivial
  | nameServer => trivial
  | offered => trivial
  | acknowledged => trivial

theorem Backed.append (h : Backed trace) (hmore : ∀ note ∈ more, BackedBy trace note) :
    Backed (trace ++ more) :=
  Trace.EachAfter.append h (fun _ _ _ hnote => hnote.append) hmore

end Traces

/-! ## Runs -/

section Runs

variable {D : Type} {mac : D → Buffer} {trace more : List (Note D)} {client client' : Client D}
  {datagram : Datagram D} {now : Time} {configurable : Bool}

/--
A client that requests does so for an accepted offer, and a bound one has what its acknowledgement
left.
-/
def Settled (trace : List (Note D)) (client : Client D) : Prop :=
  ∀ d, client.device = some d → (client.state = .requesting → .offered d client.offeredAddress
    (some client.server) ∈ trace ∧ client.offeredAddress < 2 ^ 32 ∧ client.server < 2 ^ 32) ∧
    (client.state = .bound → LastAck trace d client.leaseSeconds client.gateway)

/--
The condition on a message: an offer that is accepted names its server, and a message that is not
acted on is quiet.
-/
def Sober (mac : D → Buffer) (client : Client D) (datagram : Datagram D) (configurable : Bool) :
    Prop :=
  match transition mac client datagram configurable with
  | some .offer => valueOf datagram .server ≠ none
  | none => forClient mac client datagram = true → Quiet client datagram
  | _ => True

theorem Settled.append (h : Settled trace client)
    (hmore : ∀ d, client.device = some d → ∀ note ∈ more, ¬ note.Acknowledges d) :
    Settled (trace ++ more) client := by
  intro d hd
  obtain ⟨hrequesting, hbound⟩ := h d hd
  constructor
  · intro hstate
    obtain ⟨hmem, hbounds⟩ := hrequesting hstate
    exact ⟨mem_append_left _ hmem, hbounds⟩
  · intro hstate
    exact Trace.Last.append (hbound hstate) (hmore d hd)

/-- A client that neither requests nor is bound. -/
theorem settled_of_state (hrequesting : client.state ≠ .requesting)
    (hbound : client.state ≠ .bound) : Settled trace client :=
  fun _ _ => ⟨fun h => absurd h hrequesting, fun h => absurd h hbound⟩

/-- A client with the same parameters. -/
theorem Settled.of_unchanged (h : Settled trace client) (hdevice : client'.device = client.device)
    (hstate : client'.state = client.state) (hsame : Unchanged client client') :
    Settled trace client' := by
  intro d hd
  obtain ⟨hrequesting, hbound⟩ := h d (hdevice ▸ hd)
  have hserver : client'.server = client.server := hsame.fields .server
  have hlease : client'.leaseSeconds = client.leaseSeconds := hsame.fields .lease
  have hgateway : client'.gateway = client.gateway := hsame.fields .gateway
  rw [hstate, hsame.address, hserver, hlease, hgateway]
  exact ⟨hrequesting, hbound⟩

/-- What a client that is settled sends as a request is backed. -/
theorem Settled.backedBy {messageType : Byte} {note : Note D}
    (h : Settled trace client) (hstate : messageType = request → client.state = .requesting)
    (hnote : note ∈ sends mac client messageType) : BackedBy trace note := by
  obtain ⟨d, packet, length, rfl, hdevice, htype, hcarries⟩ := mem_sends hnote
  intro hreq
  rw [htype] at hreq
  obtain ⟨hmem, haddr, hserver⟩ := (h d hdevice).1 (hstate hreq)
  obtain ⟨hcarriesAddress, hcarriesServer⟩ := hcarries (by rw [hreq]; decide)
  rw [hcarriesAddress, hcarriesServer, Nat.mod_eq_of_lt haddr, Nat.mod_eq_of_lt hserver]
  exact hmem

theorem not_acknowledges_of_mem_sends {messageType : Byte} {note : Note D}
    (hnote : note ∈ sends mac client messageType) (d : D) :
    ¬ note.Acknowledges d := by
  obtain ⟨_, _, _, rfl, _⟩ := mem_sends hnote
  exact id

/-- The client of a device changes, with notes about the device. -/
structure Answers (trace : List (Note D)) (device : D) (client client' : Client D)
    (notes : List (Note D)) : Prop where
  settled : Settled (trace ++ notes) client'
  same : client'.device = client.device
  others : ∀ note ∈ notes, ∀ d, d ≠ device → ¬ note.Acknowledges d
  backed : Backed trace → Backed (trace ++ notes)

/-- No notes. -/
theorem Answers.quiet {device : D} (hsettled : Settled trace client')
    (hsame : client'.device = client.device) : Answers trace device client client' [] where
  settled := by rwa [append_nil]
  same := hsame
  others := fun note hnote => by cases hnote
  backed := fun h => by rwa [append_nil]

theorem valueOf_lt {field : Field} {value : Nat} (h : valueOf datagram field = some value) :
    value < 2 ^ 32 := by
  obtain ⟨o, _, rfl⟩ := Option.map_eq_some_iff.mp h
  exact readBE32_lt _ _

/-- An offer that is accepted and names its server. -/
theorem answers_offer {server : Nat} (hdevice : client.device = some datagram.device)
    (hserver : valueOf datagram .server = some server)
    (htrans : transition mac client datagram configurable = some .offer) :
    Answers trace datagram.device client (receiveMessage mac client datagram now configurable).1
      (.offered datagram.device (readBE32 datagram.payload 16) (some server) ::
        (receiveMessage mac client datagram now configurable).2) := by
  rw [receiveMessage_offer htrans]
  have hparsed : (parsed client datagram).server = server := by
    have hget := @parsed_get D client datagram .server
    rwa [hserver] at hget
  generalize hnew : ({ parsed client datagram with
    offeredAddress := readBE32 datagram.payload 16, state := .requesting, retries := 0,
    lastSend := now } : Client D) = new
  dsimp only
  have hsame : new.device = client.device := by
    rw [← hnew]
    exact parsed_device
  have hsettled :
      Settled (trace ++ [.offered datagram.device (readBE32 datagram.payload 16) (some server)])
      new := by
    intro d hd
    obtain rfl : datagram.device = d := Option.some.inj (hdevice.symm.trans (hsame.symm.trans hd))
    rw [← hnew]
    refine ⟨fun _ => ⟨?_, readBE32_lt _ _, hparsed ▸ valueOf_lt hserver⟩, fun h => by cases h⟩
    rw [hparsed]
    exact mem_append_right _ (mem_singleton_self _)
  have hstate : new.state = .requesting := by rw [← hnew]
  constructor
  · rw [← singleton_append, ← append_assoc]
    exact hsettled.append fun d _ note hnote => not_acknowledges_of_mem_sends hnote d
  · exact hsame
  · intro note hnote d _
    rcases mem_cons.mp hnote with rfl | hnote
    · exact id
    · exact not_acknowledges_of_mem_sends hnote d
  intro hbacked
  rw [← singleton_append, ← append_assoc]
  apply Backed.append
  · apply hbacked.append
    intro note hnote
    rw [mem_singleton.mp hnote]
    trivial
  · intro note hnote
    exact hsettled.backedBy (fun _ => hstate) hnote

/-- An acknowledgement that is accepted. -/
theorem answers_acknowledge (hdevice : client.device = some datagram.device)
    (htrans : transition mac client datagram configurable = some .acknowledge) :
    Answers trace datagram.device client (receiveMessage mac client datagram now configurable).1
      (.acknowledged datagram.device
          (receiveMessage mac client datagram now configurable).1.leaseSeconds
          (receiveMessage mac client datagram now configurable).1.gateway ::
        (receiveMessage mac client datagram now configurable).2) := by
  obtain ⟨hstate, hsame, hnotes⟩ := receiveMessage_acknowledge now htrans
  generalize receiveMessage mac client datagram now configurable = r at hstate hsame hnotes ⊢
  have hnot : ∀ note ∈ r.2, ∀ d, ¬ note.Acknowledges d := by
    intro note hnote d
    rcases hnotes note hnote with ⟨_, _, _, rfl⟩ | ⟨_, rfl⟩
    · exact id
    · exact id
  constructor
  · intro d hd
    obtain rfl : datagram.device = d := Option.some.inj (hdevice.symm.trans (hsame.symm.trans hd))
    refine ⟨fun h => ?_, fun _ => Trace.last_append_cons fun note hnote => hnot note hnote _⟩
    rw [hstate] at h
    cases h
  · exact hsame
  · intro note hnote d hd
    rcases mem_cons.mp hnote with rfl | hnote
    · exact fun h => hd h.symm
    · exact hnot note hnote d
  intro hbacked
  apply hbacked.append
  intro note hnote
  rcases mem_cons.mp hnote with rfl | hnote
  · trivial
  · rcases hnotes note hnote with ⟨_, _, _, rfl⟩ | ⟨_, rfl⟩
    · trivial
    · trivial

/-- What a message does to the client it is for. -/
theorem Settled.receive (h : Settled trace client) (hdevice : client.device = some datagram.device)
    (hsober : Sober mac client datagram configurable) :
    Answers trace datagram.device client (receiveMessage mac client datagram now configurable).1
      (accepted mac client (receiveMessage mac client datagram now configurable).1 datagram
          configurable ++
        (receiveMessage mac client datagram now configurable).2) := by
  unfold Sober at hsober
  unfold accepted
  cases htrans : transition mac client datagram configurable with
  | none =>
    rw [htrans] at hsober
    cases hfor : forClient mac client datagram with
    | false =>
      rw [receiveMessage_of_not_forClient hfor]
      exact Answers.quiet h rfl
    | true =>
      have hsame := (unchanged_iff_quiet now hfor htrans).mpr (hsober hfor)
      obtain ⟨_, _, _, hstate, hdev, hnotes⟩ := receiveMessage_none now hfor htrans
      rw [hnotes]
      exact Answers.quiet (h.of_unchanged hdev hstate hsame) hdev
  | some taken =>
    rw [htrans] at hsober
    cases taken with
    | offer =>
      obtain ⟨server, hserver⟩ := Option.ne_none_iff_exists'.mp hsober
      rw [hserver]
      exact answers_offer hdevice hserver htrans
    | acknowledge => exact answers_acknowledge hdevice htrans
    | refuse =>
      rw [receiveMessage_refuse htrans]
      exact Answers.quiet (settled_of_state (fun h => by cases h) (fun h => by cases h))
        parsed_device

/-- What a round of the poll does to a client. -/
theorem Settled.poll {linkUp : D → Bool} (h : Settled trace client) :
    Settled trace (pollClient mac client linkUp now).1 ∧
      (pollClient mac client linkUp now).1.device = client.device ∧
      ∀ note ∈ (pollClient mac client linkUp now).2, BackedBy trace note ∧
        ∀ d, ¬ note.Acknowledges d := by
  unfold pollClient
  split
  · exact ⟨h, rfl, fun note hnote => by cases hnote⟩
  next d hdevice =>
  split
  · exact ⟨h, rfl, fun note hnote => by cases hnote⟩
  split
  · split
    · exact ⟨settled_of_state (fun h => by cases h) (fun h => by cases h), rfl,
        fun note hnote => by cases hnote⟩
    · exact ⟨h, rfl, fun note hnote => by cases hnote⟩
  next hbound =>
  split
  · exact ⟨h, rfl, fun note hnote => by cases hnote⟩
  split
  · exact ⟨settled_of_state (fun h => by cases h) (fun h => by cases h), rfl,
      fun note hnote => by cases hnote⟩
  dsimp only
  generalize hnew : ({ client with
    state := if client.state = .init then .selecting else client.state, lastSend := now,
    retries := (client.retries + 1) % 256 } : Client D) = new
  have hstate : new.state = if client.state = .init then .selecting else client.state := by
    rw [← hnew]
  have hsettled : Settled trace new := by
    by_cases hinit : client.state = .init
    · rw [if_pos hinit] at hstate
      exact settled_of_state (by rw [hstate]; decide) (by rw [hstate]; decide)
    rw [if_neg hinit] at hstate
    refine h.of_unchanged ?_ hstate ⟨fun field => ?_, ?_⟩
    · rw [← hnew]
    · rw [← hnew]
      cases field <;> rfl
    · rw [← hnew]
  refine ⟨hsettled, rfl, fun note hnote => ⟨?_, not_acknowledges_of_mem_sends hnote⟩⟩
  apply hsettled.backedBy _ hnote
  intro htype
  split at htype
  next hrequesting =>
    rw [hstate, hrequesting]
    decide
  · cases htype

end Runs

/-! ## The clients of all interfaces -/

section Clients

variable {D : Type} [DecidableEq D] {mac : D → Buffer} {trace : List (Note D)} {clients : Clients D}

/-- There is one client for an interface, every client is settled, and requests are backed. -/
structure Orderly (trace : List (Note D)) (clients : Clients D) : Prop where
  distinct : ∀ i j d, (clients i).device = some d → (clients j).device = some d → i = j
  settled : ∀ i, Settled trace (clients i)
  backed : Backed trace

/-- The condition on an event. -/
def SoberEvent (mac : D → Buffer) (clients : Clients D) : Event D → Prop
  | .receive datagram _ configurable =>
    ∀ i, findClient clients (some datagram.device) = some i →
      Sober mac (clients i) datagram configurable
  | _ => True

omit [DecidableEq D] in
theorem orderly_initial : Orderly [] (initial : Clients D) where
  distinct _ _ _ h := by cases h
  settled _ _ h := by cases h
  backed := Trace.eachAfter_nil BackedBy

theorem findClient_some {device : Option D} {i : Fin netDeviceMaxCount}
    (h : findClient clients device = some i) : (clients i).device = device := by
  simpa using find?_some h

theorem findClient_none {device : Option D} (h : findClient clients device = none)
    (i : Fin netDeviceMaxCount) : (clients i).device ≠ device := by
  simpa using find?_eq_none.mp h i (mem_finRange i)

theorem Orderly.receive {datagram : Datagram D} {now : Time} {configurable : Bool}
    (h : Orderly trace clients)
    (hsober : SoberEvent mac clients (.receive datagram now configurable)) :
    Orderly (trace ++ (step mac clients (.receive datagram now configurable)).2)
      (step mac clients (.receive datagram now configurable)).1 := by
  simp only [step]
  cases hfind : findClient clients (some datagram.device) with
  | none =>
    rw [append_nil]
    exact h
  | some i =>
    have hdevice := findClient_some hfind
    have hanswers :=
      @Settled.receive D mac trace (clients i) datagram now configurable (h.settled i) hdevice
        (hsober i hfind)
    dsimp only
    have hdevices : ∀ j, (update clients i (receiveMessage mac
        (clients i) datagram now configurable).1 j).device = (clients j).device := by
      intro j
      by_cases hj : j = i
      · subst hj
        rw [update_self]
        exact hanswers.same
      · rw [update_of_ne hj]
    constructor
    · intro j k d hj hk
      rw [hdevices] at hj hk
      exact h.distinct j k d hj hk
    · intro j
      by_cases hj : j = i
      · subst hj
        rw [update_self]
        exact hanswers.settled
      rw [update_of_ne hj]
      apply (h.settled j).append
      intro d hd note hnote
      apply hanswers.others note hnote d
      rintro rfl
      exact hj (h.distinct j i _ hd hdevice)
    · exact hanswers.backed h.backed

theorem Orderly.poll {linkUp : D → Bool} {now : Time} (h : Orderly trace clients) : Orderly
    (trace ++ (step mac clients (.poll linkUp now)).2) (step mac clients (.poll linkUp now)).1 := by
  have hpoll : ∀ i, Settled trace (pollClient mac (clients i) linkUp now).1 ∧
      (pollClient mac (clients i) linkUp now).1.device = (clients i).device ∧
      ∀ note ∈ (pollClient mac (clients i) linkUp now).2, BackedBy trace note ∧
        ∀ d, ¬ note.Acknowledges d := fun i => (h.settled i).poll
  have hnotes : ∀ note ∈ (step mac clients (.poll linkUp now)).2, BackedBy trace note ∧
      ∀ d, ¬ note.Acknowledges d := by
    intro note hnote
    obtain ⟨i, _, hi⟩ := mem_flatMap.mp hnote
    exact (hpoll i).2.2 note hi
  constructor
  · intro i j d hi hj
    exact h.distinct i j d ((hpoll i).2.1 ▸ hi) ((hpoll j).2.1 ▸ hj)
  · intro i
    exact (hpoll i).1.append fun d _ note hnote => (hnotes note hnote).2 d
  · exact h.backed.append fun note hnote => (hnotes note hnote).1

theorem Orderly.start {device : Option D} {registered : Bool} (h : Orderly trace clients) :
    Orderly trace (dhcpStart mac clients device registered) := by
  unfold dhcpStart
  split
  · exact h
  next d =>
  split
  · exact h
  next hnew =>
  split
  · exact h
  next i hfree =>
  have hnone : findClient clients (some d) = none := by
    by_contra hsome
    exact hnew (.inr hsome)
  constructor
  · intro j k e hj hk
    by_cases hji : j = i
    · by_cases hki : k = i
      · rw [hji, hki]
      · rw [hji, update_self] at hj
        rw [update_of_ne hki] at hk
        exact absurd (hk.trans hj.symm) (findClient_none hnone k)
    rw [update_of_ne hji] at hj
    by_cases hki : k = i
    · rw [hki, update_self] at hk
      exact absurd (hj.trans hk.symm) (findClient_none hnone j)
    · rw [update_of_ne hki] at hk
      exact h.distinct j k e hj hk
  · intro j
    by_cases hji : j = i
    · rw [hji, update_self]
      exact settled_of_state (fun h => by cases h) (fun h => by cases h)
    · rw [update_of_ne hji]
      exact h.settled j
  · exact h.backed

/-- A run whose messages meet the condition stays orderly. -/
theorem orderly_run {es : List (Event D)} (h : Run.Along (step mac) (SoberEvent mac) initial es) :
    Orderly (run (step mac) initial es).2 (run (step mac) initial es).1 := by
  apply run_induction_of (step mac) (SoberEvent mac) Orderly _ orderly_initial h
  intro trace clients e hsober horderly
  cases e with
  | receive datagram now configurable => exact horderly.receive hsober
  | poll linkUp now => exact horderly.poll
  | start device registered =>
    rw [step, append_nil]
    exact horderly.start

/--
A message without a transition changes nothing exactly when it is quiet; in runs of such messages,
and of offers that name their server, requests are for one offer each and bound clients keep what
their acknowledgement left.
-/
theorem unacted_messages
    (mac : D → Buffer) :
    (∀ client datagram now configurable,
      (transition mac client datagram configurable = none →
        Unchanged client (receiveMessage mac client datagram now configurable).1) ↔
      (transition mac client datagram configurable = none → forClient mac client datagram = true →
        Quiet client datagram)) ∧
    ∀ es : List (Event D), Run.Along (step mac) (SoberEvent mac) initial es →
      (∀ before d packet length after,
        (run (step mac) initial es).2 = before ++ .sent d packet length :: after →
        packet 242 = request →
        .offered d (readBE32 packet 245) (some (readBE32 packet 251)) ∈ before) ∧
      ∀ i d, ((run (step mac) initial es).1 i).device = some d →
        ((run (step mac) initial es).1 i).state = .bound →
        LastAck (run (step mac) initial es).2 d ((run (step mac) initial es).1 i).leaseSeconds
          ((run (step mac) initial es).1 i).gateway := by
  constructor
  · intro client datagram now configurable
    constructor
    · intro h hnone hfor
      exact (unchanged_iff_quiet now hfor hnone).mp (h hnone)
    intro h hnone
    cases hfor : forClient mac client datagram with
    | true => exact (unchanged_iff_quiet now hfor hnone).mpr (h hnone hfor)
    | false =>
      rw [receiveMessage_of_not_forClient hfor]
      exact ⟨fun _ => rfl, rfl⟩
  · intro es hsober
    have horderly := orderly_run hsober
    constructor
    · intro before d packet length after htrace
      exact horderly.backed before _ after htrace
    · intro i d hdevice hbound
      exact (horderly.settled i d hdevice).2 hbound

end Clients

/-! ## A lease, and a message that changes a bound client -/

/-- A message with the address 10.0.0.2, for the transaction of a device whose address is zero. -/
def message (messageType : Byte) (options : List Byte) : Datagram Unit where
  device := ()
  sourcePort := 67
  payload := fun i =>
    if i < 8 then [2, 1, 6, 0, 0x50, 0x43].getD i 0
    else if i < 20 then [10, 0, 0, 2].getD (i - 16) 0
    else if i < 236 then 0
    else ([0x63, 0x82, 0x53, 0x63, 53, 1, messageType] ++ options ++ [255]).getD (i - 236) 0
  payloadLength := 244 + options.length

theorem sober_of_transition {D : Type} {mac : D → Buffer} {client : Client D}
    {datagram : Datagram D} {configurable : Bool} (t : Transition)
    (ht : transition mac client datagram configurable = some t)
    (hserver : valueOf datagram .server ≠ none) : Sober mac client datagram configurable := by
  rw [Sober, ht]
  cases t <;> trivial

/-- The client starts and is offered an address for an hour, which it requests and gets. -/
def leased : List (Event Unit) :=
  [.start (some ()) true, .poll (fun _ => true) 0,
    .receive (message offer [54, 4, 10, 0, 0, 1, 51, 4, 0, 0, 14, 16]) 0 true,
    .receive (message ack [54, 4, 10, 0, 0, 1, 51, 4, 0, 0, 14, 16]) 0 true]

theorem unacted_messages_leased :
    Run.Along (step fun _ _ => 0) (SoberEvent fun _ _ => 0) initial leased ∧
      ((run (step fun _ _ => 0) initial leased).1 0).state = .bound ∧
      LastAck (run (step fun _ _ => 0) initial leased).2 () 3600 0 := by
  have hsober : Run.Along (step fun _ _ => 0) (SoberEvent fun _ _ => 0) initial leased := by
    refine ⟨trivial, trivial, fun i hi => ?_, fun i hi => ?_, trivial⟩ <;>
      obtain rfl : i = 0 := Option.some.inj (hi.symm.trans (by decide +kernel))
    · exact sober_of_transition .offer (by decide +kernel) (by decide)
    · exact sober_of_transition .acknowledge (by decide +kernel) (by decide)
  have hstate : ((run (step fun _ _ => 0) initial leased).1 0).state = .bound := by
    decide +kernel
  refine ⟨hsober, hstate, ?_⟩
  exact ((unacted_messages fun _ _ => 0).2 leased hsober).2 0 () (by decide +kernel) hstate

/-- A client that is bound for an hour. -/
def boundClient : Client Unit := ⟨some (), .bound, 0x50430000, 1, 1, 1, 1, 1, 3600, 0, 0, 0⟩

/-- An offer with a lease time of a second. -/
def lateOffer : Datagram Unit := message offer [51, 4, 0, 0, 0, 1]

/-- A bound client takes the lease time of an offer that it does not act on. -/
theorem lateOffer_changes_lease :
    transition (fun _ _ => 0) boundClient lateOffer true = none ∧
      (receiveMessage (fun _ _ => 0) boundClient lateOffer 0 true).1.leaseSeconds = 1 ∧
      ¬ Unchanged boundClient (receiveMessage (fun _ _ => 0) boundClient lateOffer 0 true).1 := by
  have hlease :
      (receiveMessage (fun _ _ => 0) boundClient lateOffer 0 true).1.leaseSeconds = 1 := by
    decide
  refine ⟨by decide, hlease, fun h => ?_⟩
  have hsame := h.fields .lease
  rw [Client.get, hlease] at hsame
  exact absurd hsame (by decide)

end PureCOS.Dhcp
