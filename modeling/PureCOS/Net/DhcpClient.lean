import PureCOS.Net.Dhcp

/-!
# DHCP messages that are not acted on

What a message leaves in the client, for every client and every datagram.  A message without a
transition leaves the client's parameters alone exactly when its options are quiet: they carry what
the client holds.  The code does not ask for that.
-/

namespace PureCOS.Dhcp

open Buffer List Option

/-! ## Options -/

/-- A part of a folded state that some of the elements set is as the last of them sets it. -/
theorem foldl_last {α β γ : Type} (f : β → γ) (store : β → α → β) (p : α → Bool) (v : α → γ)
    (h : ∀ r o, f (store r o) = if p o then v o else f r) (os : List α) (r : β) :
    f (os.foldl store r) = (((os.filter p).getLast?).map v).getD (f r) := by
  induction os generalizing r with
  | nil => rfl
  | cons o os ih =>
    rw [foldl_cons, ih, h, filter_cons]
    cases hp : p o with
    | false => rfl
    | true =>
      simp only [if_true, getLast?_cons, map_some, getD_some]
      cases (os.filter p).getLast? with
      | none => rfl
      | some o' => rfl

section Parsing

variable {D : Type} {packet : Buffer} {length : Nat} {client : Client D}

/-- `storeOption` for a list of options. -/
def storeAll (packet : Buffer) (os : List Opt) (r : Client D × Byte) : Client D × Byte :=
  os.foldl (fun r o => storeOption packet o.code o.size o.offset r) r

theorem parseFrom_eq (packet : Buffer) (length rounds offset : Nat) (r : Client D × Byte) :
    parseFrom packet length rounds offset r =
      storeAll packet (optionsFrom packet length rounds offset) r := by
  induction rounds generalizing offset r with
  | zero => rfl
  | succ rounds ih =>
    unfold parseFrom optionsFrom
    split
    · rfl
    split
    · rfl
    split
    · exact ih _ _
    split
    · rfl
    split
    · rfl
    · exact ih _ _

theorem get_storeOption (o : Opt) (field : Field) (r : Client D × Byte) :
    (storeOption packet o.code o.size o.offset r).1.get field =
      if o.sets field then readBE32 packet o.offset else r.1.get field := by
  unfold storeOption
  cases field <;> simp only [Opt.sets, decide_eq_true_eq] <;> split_ifs <;>
    first | rfl | simp_all

theorem type_storeOption (o : Opt) (r : Client D × Byte) :
    (storeOption packet o.code o.size o.offset r).2 =
      if decide (o.code = 53 ∧ o.size = 1) then packet o.offset else r.2 := by
  unfold storeOption
  split_ifs <;> simp_all

/-- The client without its fields for options. -/
def Client.rest (client : Client D) : Client D :=
  { client with server := 0, netmask := 0, gateway := 0, dns := 0, leaseSeconds := 0 }

theorem rest_storeOption (o : Opt) (r : Client D × Byte) :
    (storeOption packet o.code o.size o.offset r).1.rest = r.1.rest := by
  unfold storeOption
  split_ifs <;> rfl

theorem rest_storeAll (os : List Opt) (r : Client D × Byte) :
    (storeAll packet os r).1.rest = r.1.rest := by
  induction os generalizing r with
  | nil => rfl
  | cons o os ih => exact (ih _).trans (rest_storeOption o r)

end Parsing

/-! ## Messages -/

section Messages

variable {D : Type} {mac : D → Buffer} {client : Client D} {datagram : Datagram D}
  {now : Time} {configurable : Bool}

/-- The client after `parse_options`. -/
def parsed (client : Client D) (datagram : Datagram D) : Client D :=
  (parseOptions datagram.payload datagram.payloadLength client).1

theorem parsed_get (field : Field) :
    (parsed client datagram).get field = (valueOf datagram field).getD (client.get field) := by
  rw [parsed, parseOptions, parseFrom_eq]
  exact foldl_last (fun r : Client D × Byte => r.1.get field) _ _ _
    (fun r o => get_storeOption o field r) _ _

theorem parsed_type :
    (parseOptions datagram.payload datagram.payloadLength client).2 = typeOf datagram := by
  rw [parseOptions, parseFrom_eq]
  exact foldl_last (fun r : Client D × Byte => r.2) _ _ _ (fun r o => type_storeOption o r) _ _

theorem parsed_rest : (parsed client datagram).rest = client.rest := by
  rw [parsed, parseOptions, parseFrom_eq]
  exact rest_storeAll _ _

theorem parsed_state : (parsed client datagram).state = client.state := by
  show (parsed client datagram).rest.state = client.rest.state
  rw [parsed_rest]

theorem parsed_device : (parsed client datagram).device = client.device := by
  show (parsed client datagram).rest.device = client.rest.device
  rw [parsed_rest]

theorem parsed_offeredAddress :
    (parsed client datagram).offeredAddress = client.offeredAddress := by
  show (parsed client datagram).rest.offeredAddress = client.rest.offeredAddress
  rw [parsed_rest]

/-- `receive_message` in terms of what the message is and carries. -/
theorem receiveMessage_eq (hfor : forClient mac client datagram = true) :
    receiveMessage mac client datagram now configurable =
      if typeOf datagram = offer ∧ client.state = .selecting then
        receiveOffer mac (parsed client datagram) datagram.payload now
      else if typeOf datagram = ack ∧ client.state = .requesting then
        receiveAck (parsed client datagram) datagram.device datagram.payload now configurable
      else if typeOf datagram = nak then
        ({ parsed client datagram with state := .init, retries := 0 }, [])
      else (parsed client datagram, []) := by
  rw [receiveMessage, if_neg (by simp [hfor])]
  rcases hparse : parseOptions datagram.payload datagram.payloadLength client with ⟨client', type⟩
  have hclient : client' = parsed client datagram := by rw [parsed, hparse]
  have htype : type = typeOf datagram := by
    have htype := @parsed_type D client datagram
    rwa [hparse] at htype
  dsimp only
  rw [hclient, htype, parsed_state]

/-- The net mask that the message leaves if it is not acted on: an acknowledgement replaces 0 by a
default. -/
def maskOf (client : Client D) (datagram : Datagram D) : Nat :=
  if typeOf datagram = ack ∧ client.state = .requesting ∧
      (valueOf datagram .netmask).getD client.netmask = 0 then 0xFFFFFF00
  else (valueOf datagram .netmask).getD client.netmask

/-- The message carries nothing but what the client holds. -/
structure Quiet (client : Client D) (datagram : Datagram D) : Prop where
  options : ∀ field, field ≠ .netmask → ∀ value, valueOf datagram field = some value →
    value = client.get field
  netmask : maskOf client datagram = client.netmask
  address : typeOf datagram = offer → client.state = .selecting →
    readBE32 datagram.payload 16 = client.offeredAddress

/-- Server, offered address, net mask, gateway, name server and lease are the same. -/
structure Unchanged (client client' : Client D) : Prop where
  fields : ∀ field, client'.get field = client.get field
  address : client'.offeredAddress = client.offeredAddress

/-- What a message leaves that is for the client and not acted on. -/
theorem receiveMessage_none (now : Time) (hfor : forClient mac client datagram = true)
    (hnone : transition mac client datagram configurable = none) :
    (∀ field, field ≠ .netmask → (receiveMessage mac client datagram now configurable).1.get field =
      (valueOf datagram field).getD (client.get field)) ∧
    (receiveMessage mac client datagram now configurable).1.netmask = maskOf client datagram ∧
    (receiveMessage mac client datagram now configurable).1.offeredAddress =
      (if typeOf datagram = offer ∧ client.state = .selecting then readBE32 datagram.payload 16
        else client.offeredAddress) ∧
    (receiveMessage mac client datagram now configurable).1.state = client.state ∧
    (receiveMessage mac client datagram now configurable).1.device = client.device ∧
    (receiveMessage mac client datagram now configurable).2 = [] := by
  have hmask : (parsed client datagram).netmask = (valueOf datagram .netmask).getD client.netmask :=
    parsed_get .netmask
  have hserver : (parsed client datagram).server = (valueOf datagram .server).getD client.server :=
    parsed_get .server
  rw [receiveMessage_eq hfor]
  rw [transition, if_neg (by simp [hfor])] at hnone
  by_cases hoffer : typeOf datagram = offer ∧ client.state = .selecting
  · -- an offer without an address or a server
    rw [if_pos hoffer] at hnone
    have hbad : readBE32 datagram.payload 16 = 0 ∨
        (valueOf datagram .server).getD client.server = 0 := by
      by_contra hgood
      rw [if_neg hgood] at hnone
      cases hnone
    have hreq : client.state ≠ .requesting := by
      rw [hoffer.2]
      decide
    have hres : receiveOffer mac (parsed client datagram) datagram.payload now =
        ({ parsed client datagram with offeredAddress := readBE32 datagram.payload 16 }, []) := by
      simp only [receiveOffer]
      rw [if_pos (hserver ▸ hbad)]
    rw [if_pos hoffer, if_pos hoffer, hres]
    refine ⟨fun field _ => ?_, ?_, rfl, parsed_state, parsed_device, rfl⟩
    · rw [← parsed_get field]
      cases field <;> rfl
    · rw [maskOf, if_neg fun h => hreq h.2.1]
      exact hmask
  rw [if_neg hoffer] at hnone
  rw [if_neg hoffer, if_neg hoffer]
  by_cases hack : typeOf datagram = ack ∧ client.state = .requesting
  · -- an acknowledgement of an address that cannot be configured
    rw [if_pos hack] at hnone
    have hfail : configurable = false := by
      cases configurable with
      | false => rfl
      | true => cases hnone
    have hmaskOf : maskOf client datagram =
        if (parsed client datagram).netmask = 0 then 0xFFFFFF00
          else (parsed client datagram).netmask := by
      rw [maskOf, hmask]
      simp only [hack, true_and]
    have hres : receiveAck (parsed client datagram) datagram.device datagram.payload now
        configurable = ({ parsed client datagram with netmask := maskOf client datagram }, []) := by
      rw [hmaskOf, hfail]
      unfold receiveAck
      by_cases hzero : (parsed client datagram).netmask = 0
      · simp [hzero]
      · simp [hzero]
    rw [if_pos hack, hres]
    refine ⟨fun field hfield => ?_, rfl, parsed_offeredAddress, parsed_state, parsed_device, rfl⟩
    rw [← parsed_get field]
    cases field with
    | netmask => exact absurd rfl hfield
    | server => rfl
    | gateway => rfl
    | dns => rfl
    | lease => rfl
  · rw [if_neg hack] at hnone
    have hnak : typeOf datagram ≠ nak := by
      intro h
      rw [if_pos h] at hnone
      cases hnone
    rw [if_neg hack, if_neg hnak]
    refine ⟨fun field _ => parsed_get field, ?_, parsed_offeredAddress, parsed_state,
      parsed_device, rfl⟩
    rw [maskOf, if_neg fun h => hack ⟨h.1, h.2.1⟩]
    exact hmask

theorem transition_of_not_forClient (hfor : forClient mac client datagram = false) :
    transition mac client datagram configurable = none := by
  rw [transition, if_pos (by simp [hfor])]

theorem receiveMessage_of_not_forClient (hfor : forClient mac client datagram = false) :
    receiveMessage mac client datagram now configurable = (client, []) := by
  rw [receiveMessage, if_pos (by simp [hfor])]

/--
A message that is not acted on leaves the client's parameters alone if and only if it is quiet.
-/
theorem unchanged_iff_quiet (now : Time) (hfor : forClient mac client datagram = true)
    (hnone : transition mac client datagram configurable = none) :
    Unchanged client (receiveMessage mac client datagram now configurable).1 ↔
      Quiet client datagram := by
  obtain ⟨hget, hmask, haddr, _, _, _⟩ := receiveMessage_none now hfor hnone
  constructor
  · intro h
    refine ⟨fun field hfield value hvalue => ?_, hmask.symm.trans (h.fields .netmask),
      fun htype hstate => ?_⟩
    · have hsame := (hget field hfield).symm.trans (h.fields field)
      rwa [hvalue] at hsame
    · rw [if_pos ⟨htype, hstate⟩] at haddr
      exact haddr.symm.trans h.address
  intro h
  constructor
  · intro field
    by_cases hfield : field = .netmask
    · subst hfield
      exact hmask.trans h.netmask
    rw [hget field hfield]
    cases hvalue : valueOf datagram field with
    | none => rfl
    | some value => exact h.options field hfield value hvalue
  · rw [haddr]
    split
    next hoffer => exact h.address hoffer.1 hoffer.2
    · rfl

/-! ## Transitions -/

theorem forClient_of_transition {t : Transition}
    (h : transition mac client datagram configurable = some t) :
    forClient mac client datagram = true := by
  cases hfor : forClient mac client datagram with
  | false =>
    rw [transition_of_not_forClient hfor] at h
    cases h
  | true => rfl

/-- An offer that is accepted. -/
theorem receiveMessage_offer (h : transition mac client datagram configurable = some .offer) :
    receiveMessage mac client datagram now configurable =
      ({ parsed client datagram with
          offeredAddress := readBE32 datagram.payload 16
          state := .requesting
          retries := 0
          lastSend := now },
        sends mac
          { parsed client datagram with
            offeredAddress := readBE32 datagram.payload 16
            state := .requesting
            retries := 0
            lastSend := now }
          request) := by
  have hfor := forClient_of_transition h
  have hserver : (parsed client datagram).server = (valueOf datagram .server).getD client.server :=
    parsed_get .server
  rw [transition, if_neg (by simp [hfor])] at h
  rw [receiveMessage_eq hfor]
  split at h
  next hoffer =>
    split at h
    · cases h
    next hgood =>
      rw [if_pos hoffer]
      simp only [receiveOffer]
      rw [if_neg (hserver ▸ hgood)]
  · split at h
    · split at h <;> cases h
    · split at h <;> cases h

theorem receiveAck_configured {device : D} {packet : Buffer} :
    (receiveAck client device packet now true).1.state = .bound ∧
      (receiveAck client device packet now true).1.device = client.device ∧
      ∀ note ∈ (receiveAck client device packet now true).2,
        (∃ address netmask gateway, note = .configured device address netmask gateway) ∨
          ∃ dns, note = .nameServer device dns := by
  unfold receiveAck
  have hdev : (if client.netmask = 0 then { client with netmask := 0xFFFFFF00 }
      else client).device =
      client.device := by
    split <;> rfl
  generalize (if client.netmask = 0 then { client with netmask := 0xFFFFFF00 } else client) = masked
    at hdev ⊢
  refine ⟨rfl, hdev, fun note hnote => ?_⟩
  rcases mem_cons.mp hnote with rfl | hnote
  · exact .inl ⟨_, _, _, rfl⟩
  · split at hnote
    · cases hnote
    · exact .inr ⟨_, mem_singleton.mp hnote⟩

/-- An acknowledgement that is accepted. -/
theorem receiveMessage_acknowledge (now : Time)
    (h : transition mac client datagram configurable = some .acknowledge) :
    (receiveMessage mac client datagram now configurable).1.state = .bound ∧
      (receiveMessage mac client datagram now configurable).1.device = client.device ∧
      ∀ note ∈ (receiveMessage mac client datagram now configurable).2,
      (∃ address netmask gateway, note = .configured datagram.device address netmask gateway) ∨
      ∃ dns, note = .nameServer datagram.device dns := by
  have hfor := forClient_of_transition h
  rw [transition, if_neg (by simp [hfor])] at h
  rw [receiveMessage_eq hfor]
  split at h
  · split at h <;> cases h
  next hoffer =>
  split at h
  next hack =>
    have hconf : configurable = true := by
      cases configurable with
      | false => cases h
      | true => rfl
    rw [if_neg hoffer, if_pos hack, hconf]
    obtain ⟨hstate, hdev, hnotes⟩ := receiveAck_configured
    exact ⟨hstate, hdev.trans parsed_device, hnotes⟩
  · split at h <;> cases h

/-- A refusal. -/
theorem receiveMessage_refuse (h : transition mac client datagram configurable = some .refuse) :
    receiveMessage mac client datagram now configurable =
      ({ parsed client datagram with state := .init, retries := 0 }, []) := by
  have hfor := forClient_of_transition h
  rw [transition, if_neg (by simp [hfor])] at h
  rw [receiveMessage_eq hfor]
  split at h
  · split at h <;> cases h
  next hoffer =>
  split at h
  · split at h <;> cases h
  next hack =>
  split at h
  next hnak => rw [if_neg hoffer, if_neg hack, if_pos hnak]
  · cases h

/-! ## Requests -/

theorem appendOption_eq {packet value : Buffer} {offset length : Nat} {code : Byte}
    (h : offset + 2 + length < packetCapacity) :
    appendOption packet offset code value length =
      some (splice (splice (splice packet offset 1 fun _ => code) (offset + 1) 1
        fun _ => BitVec.ofNat 8 length) (offset + 2) length value, offset + 2 + length) :=
  if_neg (by omega)

/-- What a message that is sent carries. -/
theorem sendMessage_carries {device : D} {messageType : Byte} {packet : Buffer} {length : Nat}
    (h : sendMessage mac client device messageType = some (packet, length)) :
    packet 242 = messageType ∧
      (messageType ≠ discover → readBE32 packet 245 = client.offeredAddress % 2 ^ 32 ∧
        readBE32 packet 251 = client.server % 2 ^ 32) := by
  unfold sendMessage at h
  rw [appendOption_eq (by decide)] at h
  by_cases htype : messageType = discover
  · simp only [bind_eq_bind, bind_some, htype, if_true] at h
    rw [appendOption_eq (by decide)] at h
    cases h
    exact ⟨htype.symm ▸ rfl, fun hne => absurd htype hne⟩
  simp only [bind_eq_bind, bind_some, htype, if_false] at h
  rw [appendOption_eq (by decide)] at h
  simp only [bind_some] at h
  rw [appendOption_eq (by decide)] at h
  cases h
  refine ⟨rfl, fun _ => ⟨?_, ?_⟩⟩
  · exact @readBE32_writeBE32 zero 0 client.offeredAddress
  · exact @readBE32_writeBE32 zero 0 client.server

/-- A message that is sent is for the device of the client, and a request for its offer. -/
theorem mem_sends {messageType : Byte} {note : Note D} (h : note ∈ sends mac client messageType) :
    ∃ d packet length, note = .sent d packet length ∧ client.device = some d ∧
      packet 242 = messageType ∧
      (messageType ≠ discover → readBE32 packet 245 = client.offeredAddress % 2 ^ 32 ∧
        readBE32 packet 251 = client.server % 2 ^ 32) := by
  unfold sends at h
  split at h
  · cases h
  next d hdev =>
  split at h
  next packet length hsend =>
    obtain ⟨htype, hcarries⟩ := sendMessage_carries hsend
    exact ⟨d, packet, length, mem_singleton.mp h, hdev, htype, hcarries⟩
  · cases h

end Messages

end PureCOS.Dhcp
