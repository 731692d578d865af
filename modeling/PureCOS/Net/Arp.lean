import Mathlib.Data.Fintype.Basic
import PureCOS.Lib.BigEndian
import PureCOS.Lib.Run

/-!
# The ARP cache

`net/link/arp.c`: hardware addresses of stations, learned from received packets and looked up by
interface and IPv4 address.  A device is a pointer that may be null; the statistics are left out.

A run is any sequence of packets and calls.  It notes which packets are accepted, which local
addresses are set and what is sent.
-/

namespace PureCOS.Arp

open Buffer Function

/-! ## Data -/

/-- A hardware address. -/
abbrev Mac := Fin 6 → Byte

/-- Milliseconds, as `timer_ticks` counts them. -/
abbrev Time := BitVec 64

abbrev cacheCapacity : Nat := 16

abbrev netDeviceMaxCount : Nat := 4

/-- `ARP_CACHE_TTL_MS` -/
def cacheTtl : Time := 120000

/-- `ARP_PENDING_TTL_MS` -/
def pendingTtl : Time := 5000

/-- `ARP_REQUEST_INTERVAL_MS` -/
def requestInterval : Time := 1000

def packetLength : Nat := 28
def hardwareEthernet : Nat := 1
def ethernetTypeIpv4 : Nat := 0x0800
def operationRequest : Nat := 1
def operationReply : Nat := 2

inductive EntryState where
  | free
  | pending
  | valid
deriving DecidableEq

structure Entry (D : Type) where
  device : Option D
  ipv4 : Nat
  mac : Mac
  updated : Time
  lastRequest : Time
  state : EntryState

structure Interface (D : Type) where
  device : Option D
  localIpv4 : Nat

/-- `cache` and `interfaces` -/
structure State (D : Type) where
  cache : Fin cacheCapacity → Entry D
  interfaces : Fin netDeviceMaxCount → Interface D

/-- `struct ethernet_packet` -/
structure Frame (D : Type) where
  device : Option D
  source : Mac
  payload : Buffer
  payloadLength : Nat

/-- A packet given to `ethernet_send`. -/
structure Packet (D : Type) where
  device : D
  destination : Mac
  payload : Buffer

section Slots

variable {D : Type}

/-- Another entry in a slot. -/
def State.put (s : State D) (i : Fin cacheCapacity) (entry : Entry D) : State D :=
  { s with cache := update s.cache i entry }

theorem State.put_self (s : State D) (i : Fin cacheCapacity) (entry : Entry D) :
    (s.put i entry).cache i = entry :=
  update_self ..

theorem State.put_of_ne (s : State D) {i j : Fin cacheCapacity} (entry : Entry D) (h : j ≠ i) :
    (s.put i entry).cache j = s.cache j :=
  update_of_ne h ..

end Slots

section Code

variable {D : Type} [DecidableEq D] (ownMac : D → Mac)

/-- The state `arp_init` leaves. -/
def initial : State D where
  cache _ := ⟨none, 0, fun _ => 0, 0, 0, .free⟩
  interfaces _ := ⟨none, 0⟩

/-- The hardware address at `off`. -/
def macAt (payload : Buffer) (off : Nat) : Mac := fun i => payload (off + i)

/-- A hardware address as a source of bytes. -/
def macBytes (mac : Mac) : Buffer := fun i => if h : i < 6 then mac ⟨i, h⟩ else 0

def macIsUnicast (mac : Mac) : Bool := decide (mac ≠ fun _ => 0) && decide (mac 0 &&& 1 = 0)

variable (s : State D) (device : Option D)

/-- The slot `find_interface` finds for a device. -/
def findInterface : Option (Fin netDeviceMaxCount) :=
  (List.finRange netDeviceMaxCount).find? fun i => (s.interfaces i).device = device

def arpGetLocalIpv4 : Nat :=
  match device, findInterface s device with
  | some _, some i => (s.interfaces i).localIpv4
  | _, _ => 0

def findEntry (ipv4 : Nat) : Option (Fin cacheCapacity) :=
  (List.finRange cacheCapacity).find? fun i =>
    (s.cache i).state ≠ .free ∧ (s.cache i).device = device ∧ (s.cache i).ipv4 = ipv4

/-- `ttl` in `allocate_entry` and `arp_poll`. -/
def ttl (entry : Entry D) : Time := if entry.state = .valid then cacheTtl else pendingTtl

/-- Loop of `allocate_entry`. -/
def allocateFrom (s : State D) (now : Time) :
    List (Fin cacheCapacity) → Fin cacheCapacity → Fin cacheCapacity
  | [], oldest => oldest
  | i :: rest, oldest =>
    if (s.cache i).state = .free then i
    else if ttl (s.cache i) ≤ now - (s.cache i).updated then i
    else allocateFrom s now rest
      (if (s.cache i).updated < (s.cache oldest).updated then i else oldest)

def allocateEntry (now : Time) : Fin cacheCapacity :=
  allocateFrom s now (List.finRange cacheCapacity) 0

/-- The sender claims the address of the interface with another hardware address. -/
def conflicts (device : D) (ipv4 : Nat) (mac : Mac) : Bool :=
  match findInterface s (some device) with
  | some i => decide ((s.interfaces i).localIpv4 = ipv4 ∧ ownMac device ≠ mac)
  | none => false

def learn (ipv4 : Nat) (mac : Mac) (now : Time) : State D :=
  match device with
  | none => s
  | some d =>
    if ipv4 = 0 ∨ !macIsUnicast mac then s
    else if conflicts ownMac s d ipv4 mac then s
    else
      s.put ((findEntry s device ipv4).getD (allocateEntry s now))
        ⟨device, ipv4, mac, now, 0, .valid⟩

def sendPacket (device : D) (operation senderIpv4 : Nat) (targetMac : Mac) (targetIpv4 : Nat) :
    Packet D where
  device := device
  destination := if operation = operationRequest then fun _ => 0xFF else targetMac
  payload :=
    let packet := writeBE16 (writeBE16 zero 0 hardwareEthernet) 2 ethernetTypeIpv4
    let packet := splice (splice packet 4 1 fun _ => 6) 5 1 fun _ => 4
    let packet := splice (writeBE16 packet 6 operation) 8 6 (macBytes (ownMac device))
    let packet := writeBE32 packet 14 senderIpv4
    let packet :=
      if operation = operationReply then splice packet 18 6 (macBytes targetMac) else packet
    writeBE32 packet 24 targetIpv4

/-- The checks of `receive_packet`. -/
def wellFormed (frame : Frame D) : Bool :=
  decide (packetLength ≤ frame.payloadLength) && decide
    (readBE16 frame.payload 0 = hardwareEthernet) &&
    decide (readBE16 frame.payload 2 = ethernetTypeIpv4) && frame.payload 4 == 6 &&
      frame.payload 5 == 4 &&
    decide (readBE16 frame.payload 6 = operationRequest ∨
      readBE16 frame.payload 6 = operationReply) &&
    macIsUnicast (macAt frame.payload 8) && decide (macAt frame.payload 8 = frame.source)

/-- The reply of `receive_packet` to a request for the local address. -/
def reply (frame : Frame D) : List (Packet D) :=
  match frame.device with
  | none => []
  | some d =>
    if readBE16 frame.payload 6 = operationRequest ∧ arpGetLocalIpv4 s frame.device ≠ 0 ∧
        readBE32 frame.payload 24 = arpGetLocalIpv4 s frame.device then
      [sendPacket ownMac d operationReply (arpGetLocalIpv4 s frame.device) (macAt frame.payload 8)
        (readBE32 frame.payload 14)]
    else []

def receivePacket (frame : Frame D) (now : Time) : State D × List (Packet D) :=
  if wellFormed frame then
    let s' := learn ownMac s frame.device (readBE32 frame.payload 14) (macAt frame.payload 8) now
    (s', reply ownMac s' frame)
  else (s, [])

/-- The slot `find_interface` finds or allocates. -/
def interfaceSlot : Option (Fin netDeviceMaxCount) :=
  match findInterface s device with
  | some i => some i
  | none => findInterface s none

/-- Loop of `arp_set_local_ipv4`. -/
def freeDevice : State D :=
  { s with cache := fun i =>
      if (s.cache i).device = device then { s.cache i with state := .free } else s.cache i }

def arpSetLocalIpv4 (registered : Bool) (address : Nat) : State D × Bool :=
  if device = none ∨ !registered then (s, false)
  else
    match interfaceSlot s device with
    | none => (s, false)
    | some i =>
      ({ freeDevice s device with interfaces := update s.interfaces i ⟨device, address⟩ }, true)

def arpLookup (ipv4 : Nat) (now : Time) : State D × Option Mac :=
  if device = none ∨ ipv4 = 0 then (s, none)
  else
    match findEntry s device ipv4 with
    | none => (s, none)
    | some i =>
      if (s.cache i).state = .valid then
        if now - (s.cache i).updated < cacheTtl then (s, some (s.cache i).mac)
        else (s.put i { s.cache i with state := .free }, none)
      else (s, none)

/-- The part of `arp_resolve` behind the lookup, for a device with a local address. -/
def request (ipv4 : Nat) (now : Time) : State D × Bool :=
  match findEntry s device ipv4 with
  | none => (s.put (allocateEntry s now) ⟨device, ipv4, fun _ => 0, now, now, .pending⟩, true)
  | some i =>
    if (s.cache i).state = .pending ∧ requestInterval ≤ now - (s.cache i).lastRequest then
      (s.put i { s.cache i with lastRequest := now }, true)
    else (s, false)

/-- `arp_resolve`, with the times at which it reads the clock. -/
def arpResolve (ipv4 : Nat) (now later : Time) : State D × Option Mac × List (Packet D) :=
  match arpLookup s device ipv4 now with
  | (s₁, some mac) => (s₁, some mac, [])
  | (s₁, none) =>
    match device with
    | none => (s₁, none, [])
    | some d =>
      if arpGetLocalIpv4 s₁ device = 0 then (s₁, none, [])
      else
        match request s₁ device ipv4 later with
        | (s₂, true) =>
          (s₂, none,
            [sendPacket ownMac d operationRequest (arpGetLocalIpv4 s₁ device) (fun _ => 0) ipv4])
        | (s₂, false) => (s₂, none, [])

def arpPoll (now : Time) : State D :=
  { s with cache := fun i =>
      if (s.cache i).state ≠ .free ∧ ttl (s.cache i) ≤ now - (s.cache i).updated then
        { s.cache i with state := .free }
      else s.cache i }

end Code

/-! ## Runs -/

/-- What happens to the cache. -/
inductive Event (D : Type) where
  | receive (frame : Frame D) (now : Time)
  | resolve (device : Option D) (ipv4 : Nat) (now later : Time)
  | lookup (device : Option D) (ipv4 : Nat) (now : Time)
  | poll (now : Time)
  | setLocal (device : Option D) (registered : Bool) (address : Nat)

/-- The times at which the clock is read. -/
def Event.times {D : Type} : Event D → List Time
  | .receive _ now => [now]
  | .resolve _ _ now later => [now, later]
  | .lookup _ _ now => [now]
  | .poll now => [now]
  | .setLocal _ _ _ => []

/-- What a run notes: a packet was accepted from a sender, the local address of a device was set, a
packet was sent. -/
inductive Note (D : Type) where
  | accepted (device : D) (ipv4 : Nat) (mac : Mac) (time : Time)
  | localSet (device : D)
  | sent (packet : Packet D)

section Runs

variable {D : Type} [DecidableEq D] (ownMac : D → Mac)

/-- A packet is accepted if it is well formed, names a sender and does not claim the address of the
interface. -/
def acceptedFrom (s : State D) (frame : Frame D) (now : Time) : List (Note D) :=
  match frame.device with
  | none => []
  | some d =>
    if wellFormed frame ∧ readBE32 frame.payload 14 ≠ 0 ∧
        !conflicts ownMac s d (readBE32 frame.payload 14) (macAt frame.payload 8) then
      [.accepted d (readBE32 frame.payload 14) (macAt frame.payload 8) now]
    else []

/-- One call or packet. -/
def step (s : State D) : Event D → State D × List (Note D)
  | .receive frame now =>
    let r := receivePacket ownMac s frame now
    (r.1, acceptedFrom ownMac s frame now ++ r.2.map .sent)
  | .resolve device ipv4 now later =>
    let r := arpResolve ownMac s device ipv4 now later
    (r.1, r.2.2.map .sent)
  | .lookup device ipv4 now => ((arpLookup s device ipv4 now).1, [])
  | .poll now => (arpPoll s now, [])
  | .setLocal device registered address =>
    let r := arpSetLocalIpv4 s device registered address
    (r.1, if r.2 then (device.map Note.localSet).toList else [])

end Runs

end PureCOS.Arp
