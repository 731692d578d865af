import PureCOS.Lib.BigEndian
import PureCOS.Lib.Run

/-!
# The DHCP client

`net/config/dhcp.c`: one client for each interface.  A client broadcasts a discovery, requests the
address of an offer and configures the interface when the request is acknowledged.

`parse_options` stores the options of a message in the client while it reads them, before
`receive_message` looks at the type of the message and at the state of the client.  Whether an
interface can be configured is a parameter of the model.  A run notes what is sent and configured,
and the offers and acknowledgements that are accepted.
-/

namespace PureCOS.Dhcp

open Buffer

/-! ## Data -/

/-- Milliseconds. -/
abbrev Time := BitVec 64

abbrev netDeviceMaxCount : Nat := 4

def serverPort : Nat := 67
def packetCapacity : Nat := 576
def magicCookie : Nat := 0x63825363
def retryMs : Time := 4000
def maxRetries : Nat := 5
def discover : Byte := 1
def offer : Byte := 2
def request : Byte := 3
def ack : Byte := 5
def nak : Byte := 6

/-- `enum dhcp_state` -/
inductive ClientState where
  | init
  | selecting
  | requesting
  | bound
deriving DecidableEq

structure Client (D : Type) where
  device : Option D
  state : ClientState
  transaction : Nat
  offeredAddress : Nat
  server : Nat
  netmask : Nat
  gateway : Nat
  dns : Nat
  leaseSeconds : Nat
  lastSend : Time
  leaseStart : Time
  retries : Nat

/-- `struct udp_datagram` -/
structure Datagram (D : Type) where
  device : D
  sourcePort : Nat
  payload : Buffer
  payloadLength : Nat

/-- What a run notes.  The first three are what the code does; the other two are the offers and
acknowledgements that it accepts, with what they carry and leave. -/
inductive Note (D : Type) where
  | sent (device : D) (packet : Buffer) (length : Nat)
  | configured (device : D) (address netmask gateway : Nat)
  | nameServer (device : D) (dns : Nat)
  | offered (device : D) (address : Nat) (server : Option Nat)
  | acknowledged (device : D) (leaseSeconds gateway : Nat)

section Code

variable {D : Type} [DecidableEq D] (mac : D → Buffer)

/-! ## Sending -/

def appendOption (packet : Buffer) (offset : Nat) (code : Byte) (value : Buffer) (length : Nat) :
    Option (Buffer × Nat) :=
  if packetCapacity ≤ offset + 2 + length then none
  else
    some (splice (splice (splice packet offset 1 fun _ => code) (offset + 1) 1
      fun _ => BitVec.ofNat 8 length) (offset + 2) length value, offset + 2 + length)

variable (client : Client D)

/-- The fields of `packet` in `send_message` before its options. -/
def messageHeader (device : D) : Buffer :=
  let packet := splice zero 0 3 fun i => if i = 2 then 6 else 1
  let packet := writeBE32 packet 4 client.transaction
  let packet := writeBE16 packet 10 0x8000
  let packet := splice packet 28 6 (mac device)
  writeBE32 packet 236 magicCookie

/-- `send_message`: the datagram that is given to `udp_send_from`. -/
def sendMessage (device : D) (messageType : Byte) : Option (Buffer × Nat) := do
  let (packet, offset) ← appendOption (messageHeader mac client device) 240 53
      (fun _ => messageType) 1
  let (packet, offset) ←
    if messageType = discover then
      appendOption packet offset 55 (fun i => [1, 3, 6, 51].getD i 0) 4
    else do
      let (packet, offset) ← appendOption packet offset 50 (bytesBE32 client.offeredAddress) 4
      appendOption packet offset 54 (bytesBE32 client.server) 4
  pure (splice packet offset 1 fun _ => 255, offset + 1)

/-- What is sent. -/
def sends (messageType : Byte) : List (Note D) :=
  match client.device with
  | none => []
  | some d =>
    match sendMessage mac client d messageType with
    | some (packet, length) => [.sent d packet length]
    | none => []

/-! ## Receiving -/

/-- An option at `offset`: a chain of comparisons with code and size. -/
def storeOption (packet : Buffer) (code : Byte) (size offset : Nat) (r : Client D × Byte) :
    Client D × Byte :=
  if code = 53 ∧ size = 1 then (r.1, packet offset)
  else if code = 54 ∧ size = 4 then ({ r.1 with server := readBE32 packet offset }, r.2)
  else if code = 1 ∧ size = 4 then ({ r.1 with netmask := readBE32 packet offset }, r.2)
  else if code = 3 ∧ 4 ≤ size then ({ r.1 with gateway := readBE32 packet offset }, r.2)
  else if code = 6 ∧ 4 ≤ size then ({ r.1 with dns := readBE32 packet offset }, r.2)
  else if code = 51 ∧ size = 4 then ({ r.1 with leaseSeconds := readBE32 packet offset }, r.2)
  else r

/-- Loop of `parse_options`.  The offset grows in every round, so `length` rounds are enough. -/
def parseFrom (packet : Buffer) (length : Nat) : Nat → Nat → Client D × Byte → Client D × Byte
  | 0, _, r => r
  | rounds + 1, offset, r =>
    if length ≤ offset then r
    else if packet offset = 255 then r
    else if packet offset = 0 then parseFrom packet length rounds (offset + 1) r
    else if length ≤ offset + 1 then r
    else if length < offset + 2 + (packet (offset + 1)).toNat then r
    else
      parseFrom packet length rounds (offset + 2 + (packet (offset + 1)).toNat)
        (storeOption packet (packet offset) (packet (offset + 1)).toNat (offset + 2) r)

def parseOptions (packet : Buffer) (length : Nat) (client : Client D) : Client D × Byte :=
  parseFrom packet length length 240 (client, 0)

/-- The checks of `receive_message` before the options. -/
def forClient (datagram : Datagram D) : Bool :=
  decide (datagram.sourcePort = serverPort) && decide (241 ≤ datagram.payloadLength) &&
    datagram.payload 0 == 2 && datagram.payload 1 == 1 && datagram.payload 2 == 6 &&
    decide (readBE32 datagram.payload 4 = client.transaction) &&
    decide (readBE32 datagram.payload 236 = magicCookie) &&
    (List.range 6).all fun k => datagram.payload (28 + k) == mac datagram.device k

/-- The client with `DHCP_OFFER` while it selects. -/
def receiveOffer (packet : Buffer) (now : Time) : Client D × List (Note D) :=
  let client := { client with offeredAddress := readBE32 packet 16 }
  if client.offeredAddress = 0 ∨ client.server = 0 then (client, [])
  else
    let client := { client with state := .requesting, retries := 0, lastSend := now }
    (client, sends mac client request)

/-- The client with `DHCP_ACK` while it requests; `configurable` is the result of
`ipv4_configure`. -/
def receiveAck (device : D) (packet : Buffer) (now : Time) (configurable : Bool) :
    Client D × List (Note D) :=
  let address := if readBE32 packet 16 = 0 then client.offeredAddress else readBE32 packet 16
  let client := if client.netmask = 0 then { client with netmask := 0xFFFFFF00 } else client
  if !configurable then (client, [])
  else
    ({ client with state := .bound, leaseStart := now },
      .configured device address client.netmask client.gateway ::
        if client.dns = 0 then [] else [.nameServer device client.dns])

/-- `receive_message`, for the client that `find_client` finds. -/
def receiveMessage (datagram : Datagram D) (now : Time) (configurable : Bool) :
    Client D × List (Note D) :=
  if !forClient mac client datagram then (client, [])
  else
    let (client, messageType) := parseOptions datagram.payload datagram.payloadLength client
    if messageType = offer ∧ client.state = .selecting then
      receiveOffer mac client datagram.payload now
    else if messageType = ack ∧ client.state = .requesting then
      receiveAck client datagram.device datagram.payload now configurable
    else if messageType = nak then ({ client with state := .init, retries := 0 }, [])
    else (client, [])

/-! ## Polling -/

/-- One round of `dhcp_poll`. -/
def pollClient (linkUp : D → Bool) (now : Time) : Client D × List (Note D) :=
  match client.device with
  | none => (client, [])
  | some d =>
    if !linkUp d then (client, [])
    else if client.state = .bound then
      if client.leaseSeconds ≠ 0 ∧ client.leaseSeconds * 1000 ≤ (now - client.leaseStart).toNat then
        ({ client with state := .init, retries := 0 }, [])
      else (client, [])
    else if client.state ≠ .init ∧ now - client.lastSend < retryMs then (client, [])
    else if maxRetries ≤ client.retries then ({ client with state := .init, retries := 0 }, [])
    else
      let messageType := if client.state = .requesting then request else discover
      let client :=
        { client with
          state := if client.state = .init then .selecting else client.state
          lastSend := now
          retries := (client.retries + 1) % 256 }
      (client, sends mac client messageType)

/-! ## The clients -/

abbrev Clients (D : Type) := Fin netDeviceMaxCount → Client D

/-- The state `dhcp_init` leaves. -/
def initial : Clients D := fun _ => ⟨none, .init, 0, 0, 0, 0, 0, 0, 0, 0, 0, 0⟩

def findClient (clients : Clients D) (device : Option D) : Option (Fin netDeviceMaxCount) :=
  (List.finRange netDeviceMaxCount).find? fun i => (clients i).device = device

def dhcpStart (clients : Clients D) (device : Option D) (registered : Bool) : Clients D :=
  match device with
  | none => clients
  | some d =>
    if !registered ∨ findClient clients device ≠ none then clients
    else
      match findClient clients none with
      | none => clients
      | some i =>
        Function.update clients i
          { clients i with
            device := device
            transaction := 0x50430000 ||| ((mac d 4).toNat <<< 8) ||| (mac d 5).toNat
            state := .init }

end Code

/-! ## What a message asks for -/

/-- An option of a message. -/
structure Opt where
  code : Byte
  size : Nat
  offset : Nat

/-- The options of a message, in the order in which `parse_options` meets them. -/
def optionsFrom (packet : Buffer) (length : Nat) : Nat → Nat → List Opt
  | 0, _ => []
  | rounds + 1, offset =>
    if length ≤ offset then []
    else if packet offset = 255 then []
    else if packet offset = 0 then optionsFrom packet length rounds (offset + 1)
    else if length ≤ offset + 1 then []
    else if length < offset + 2 + (packet (offset + 1)).toNat then []
    else
      ⟨packet offset, (packet (offset + 1)).toNat, offset + 2⟩ ::
        optionsFrom packet length rounds (offset + 2 + (packet (offset + 1)).toNat)

/-- The fields of the client that options set. -/
inductive Field where
  | server
  | netmask
  | gateway
  | dns
  | lease
deriving DecidableEq

/-- The option sets the field. -/
def Opt.sets (o : Opt) : Field → Bool
  | .server => decide (o.code = 54 ∧ o.size = 4)
  | .netmask => decide (o.code = 1 ∧ o.size = 4)
  | .gateway => decide (o.code = 3 ∧ 4 ≤ o.size)
  | .dns => decide (o.code = 6 ∧ 4 ≤ o.size)
  | .lease => decide (o.code = 51 ∧ o.size = 4)

def Client.get {D : Type} (client : Client D) : Field → Nat
  | .server => client.server
  | .netmask => client.netmask
  | .gateway => client.gateway
  | .dns => client.dns
  | .lease => client.leaseSeconds

section Messages

variable {D : Type} [DecidableEq D] (mac : D → Buffer)

/-- The value that the message gives to a field: its last option for it. -/
def valueOf (datagram : Datagram D) (field : Field) : Option Nat :=
  (((optionsFrom datagram.payload datagram.payloadLength datagram.payloadLength 240).filter
    (·.sets field)).getLast?).map fun o => readBE32 datagram.payload o.offset

/-- The type of the message: its last option 53 of one byte. -/
def typeOf (datagram : Datagram D) : Byte :=
  ((((optionsFrom datagram.payload datagram.payloadLength datagram.payloadLength 240).filter
    fun o => decide (o.code = 53 ∧ o.size = 1)).getLast?).map fun o =>
    datagram.payload o.offset).getD 0

/-- The transitions of `receive_message`. -/
inductive Transition where
  | offer
  | acknowledge
  | refuse
deriving DecidableEq

/-- The transition that the message makes the client take. -/
def transition (client : Client D) (datagram : Datagram D) (configurable : Bool) :
    Option Transition :=
  if !forClient mac client datagram then none
  else if typeOf datagram = Dhcp.offer ∧ client.state = .selecting then
    if readBE32 datagram.payload 16 = 0 ∨
      (valueOf datagram .server).getD client.server = 0 then none
    else some .offer
  else if typeOf datagram = ack ∧ client.state = .requesting then
    if configurable then some .acknowledge else none
  else if typeOf datagram = nak then some .refuse
  else none

/-! ## Runs -/

/-- What happens to the clients. -/
inductive Event (D : Type) where
  | receive (datagram : Datagram D) (now : Time) (configurable : Bool)
  | poll (linkUp : D → Bool) (now : Time)
  | start (device : Option D) (registered : Bool)

/--
The notes for a message that is acted on: what the offer carries, and what the acknowledgement
leaves in the client.
-/
def accepted (client client' : Client D) (datagram : Datagram D) (configurable : Bool) :
    List (Note D) :=
  match transition mac client datagram configurable with
  | some .offer =>
    [.offered datagram.device (readBE32 datagram.payload 16) (valueOf datagram .server)]
  | some .acknowledge => [.acknowledged datagram.device client'.leaseSeconds client'.gateway]
  | _ => []

/-- One message or call. -/
def step (clients : Clients D) : Event D → Clients D × List (Note D)
  | .receive datagram now configurable =>
    match findClient clients (some datagram.device) with
    | none => (clients, [])
    | some i =>
      let r := receiveMessage mac (clients i) datagram now configurable
      (Function.update clients i r.1, accepted mac (clients i) r.1 datagram configurable ++ r.2)
  | .poll linkUp now =>
    (fun i => (pollClient mac (clients i) linkUp now).1,
      (List.finRange netDeviceMaxCount).flatMap fun i => (pollClient mac (clients i) linkUp now).2)
  | .start device registered => (dhcpStart mac clients device registered, [])

end Messages

end PureCOS.Dhcp
