import PureCOS.Lib.OnesComplement
import PureCOS.Net.Arp

/-!
# IPv4 packets

`net/network/ipv4.c` and `net/util/byteorder.h`: the header checksum, sending a packet and taking
one. A device is a number; null pointers and the statistics are left out.  What ARP answers and
whether the driver takes a frame come from outside.

A packet that was sent is taken by every host that has the destination address and a handler for the
protocol, and its handler gets what was sent; padding behind the packet makes no difference.
-/

namespace PureCOS.Ipv4

open OnesComplement List

/-! ## Byte order -/

variable (st : State) (data : List UInt8)

def netReadBe16 (off : Nat) : UInt16 :=
  UInt16.ofNat (256 * (data.getD off 0).toNat + (data.getD (off + 1) 0).toNat)

def netReadBe32 (off : Nat) : UInt32 :=
  UInt32.ofNat (16777216 * (data.getD off 0).toNat + 65536 * (data.getD (off + 1) 0).toNat +
    256 * (data.getD (off + 2) 0).toNat + (data.getD (off + 3) 0).toNat)

def netWriteBe16 (value : UInt16) : List UInt8 :=
  [UInt8.ofNat (value.toNat / 256), UInt8.ofNat value.toNat]

def netWriteBe32 (value : UInt32) : List UInt8 :=
  [UInt8.ofNat (value.toNat / 16777216), UInt8.ofNat (value.toNat / 65536),
    UInt8.ofNat (value.toNat / 256), UInt8.ofNat value.toNat]

@[simp] theorem length_netWriteBe16 (value : UInt16) : (netWriteBe16 value).length = 2 := rfl

theorem netReadBe16_write (value : UInt16) (rest : List UInt8) :
    netReadBe16 (netWriteBe16 value ++ rest) 0 = value := by
  have hlt := value.toNat_lt
  apply UInt16.toNat_inj.mp
  show (UInt16.ofNat (256 * (UInt8.ofNat (value.toNat / 256)).toNat +
    (UInt8.ofNat value.toNat).toNat)).toNat = value.toNat
  rw [UInt8.toNat_ofNat', UInt8.toNat_ofNat', UInt16.toNat_ofNat']
  omega

theorem netReadBe32_write (value : UInt32) (rest : List UInt8) :
    netReadBe32 (netWriteBe32 value ++ rest) 0 = value := by
  have hlt := value.toNat_lt
  apply UInt32.toNat_inj.mp
  show (UInt32.ofNat (16777216 * (UInt8.ofNat (value.toNat / 16777216)).toNat + 65536 *
    (UInt8.ofNat (value.toNat / 65536)).toNat + 256 * (UInt8.ofNat (value.toNat / 256)).toNat +
    (UInt8.ofNat value.toNat).toNat)).toNat = value.toNat
  rw [UInt8.toNat_ofNat', UInt8.toNat_ofNat', UInt8.toNat_ofNat', UInt8.toNat_ofNat',
    UInt32.toNat_ofNat']
  omega

theorem wordSum_netWriteBe16 (value : UInt16) : wordSum (netWriteBe16 value) = value.toNat := by
  have hlt := value.toNat_lt
  rw [netWriteBe16, wordSum, sumFrom_pair, if_pos rfl, UInt8.toNat_ofNat', UInt8.toNat_ofNat']
  omega

/-! ## Checksums -/

/-- `checksum_add` of `tcp.c`; the loop of `ipv4_checksum` is the same one. -/
def checksumAdd : UInt32 → List UInt8 → UInt32
  | sum, a :: b :: rest => checksumAdd (sum + UInt32.ofNat (256 * a.toNat + b.toNat)) rest
  | sum, [a] => sum + UInt32.ofNat (256 * a.toNat)
  | sum, [] => sum

/-- The carries are added again, and the sum is inverted. -/
def finishChecksum (sum : UInt32) : UInt16 := ~~~UInt16.ofNat (fold sum.toNat)

def ipv4Checksum : UInt16 := finishChecksum (checksumAdd 0 data)

theorem toNat_checksumAdd (sum : UInt32) (data : List UInt8) :
    (checksumAdd sum data).toNat = (sum.toNat + wordSum data) % 2 ^ 32 := by
  induction sum, data using checksumAdd.induct with
  | case1 sum a b rest ih =>
    have hsum : wordSum (a :: b :: rest) = 256 * a.toNat + (b.toNat + wordSum rest) := rfl
    rw [checksumAdd, ih, hsum, UInt32.toNat_add, UInt32.toNat_ofNat']
    omega
  | case2 sum a =>
    have hsum : wordSum [a] = 256 * a.toNat := rfl
    rw [checksumAdd, hsum, UInt32.toNat_add, UInt32.toNat_ofNat']
    omega
  | case3 sum =>
    have hlt := sum.toNat_lt
    rw [checksumAdd, wordSum, sumFrom]
    omega

/-- No message of a 16-bit length makes the sum wrap. -/
theorem toNat_checksumAdd_of_lt {sum : UInt32} {data : List UInt8}
    (hlt : sum.toNat + 65280 * data.length < 2 ^ 32) :
    (checksumAdd sum data).toNat = sum.toNat + wordSum data := by
  have hle : wordSum data ≤ 65280 * data.length := sumFrom_le true data
  rw [toNat_checksumAdd]
  omega

theorem toNat_finishChecksum (sum : UInt32) :
    (finishChecksum sum).toNat = 65535 - fold sum.toNat := by
  have hlt := fold_lt sum.toNat
  rw [finishChecksum, UInt16.toNat_not, UInt16.toNat_ofNat', Nat.mod_eq_of_lt hlt]
  rfl

theorem finishChecksum_eq_zero_iff {sum : UInt32} :
    finishChecksum sum = 0 ↔ fold sum.toNat = 65535 := by
  have hlt := fold_lt sum.toNat
  have hnot := toNat_finishChecksum sum
  rw [← UInt16.toNat_inj, hnot, UInt16.toNat_zero]
  omega

/-- A message verifies when its checksum was computed with zeros in its place. -/
theorem fold_checksum {start rest : List UInt8} {other : Nat}
    {checksum : UInt16} (heven : start.length % 2 = 0)
    (hstart : other + wordSum start ≠ 0) (hchecksum : checksum.toNat =
      65535 - fold (other + wordSum (start ++ (netWriteBe16 0 ++ rest)))) :
    fold (other + wordSum (start ++ (netWriteBe16 checksum ++ rest))) = 65535 := by
  have hsum : ∀ value : UInt16, wordSum (start ++ (netWriteBe16 value ++ rest)) =
      wordSum start + (value.toNat + wordSum rest) := by
    intro value
    rw [wordSum_append heven, wordSum_append
      (show (netWriteBe16 value).length % 2 = 0 by rw [length_netWriteBe16]), wordSum_netWriteBe16]
  rw [hsum, UInt16.toNat_zero, Nat.zero_add] at hchecksum
  have hne : other + (wordSum start + wordSum rest) ≠ 0 := by omega
  have hinverse := fold_add_inverse hne
  rw [hsum, hchecksum]
  rw [show other + (wordSum start + (65535 - fold (other + (wordSum start + wordSum rest)) +
    wordSum rest)) = other + (wordSum start + wordSum rest) +
    (65535 - fold (other + (wordSum start + wordSum rest))) by omega]
  exact hinverse

/-! ## Interfaces -/

/-- `struct ipv4_interface_config` -/
structure Interface where
  device : Option Nat
  address : UInt32
  netmask : UInt32
  gateway : UInt32
  configured : Bool

/-- `interfaces`, the protocols in `handlers`, `next_identification` and `transmit_lock` -/
structure State where
  interfaces : List Interface
  handlers : List UInt8
  nextIdentification : UInt16
  transmitLock : Bool

def broadcast : UInt32 := 0xFFFFFFFF
def headerMinLength : Nat := 20
def payloadMaxLength : Nat := 1480
def defaultTtl : UInt8 := 64

/-- The interface `find_interface` finds without allocating one. -/
def State.findInterface (device : Nat) : Option Interface :=
  st.interfaces.find? fun i => i.device = some device

/-! ## Receiving -/

structure Packet where
  device : Nat
  source : UInt32
  destination : UInt32
  protocol : UInt8
  ttl : UInt8
  payload : List UInt8

/-- The packet is for this host, as far as the interface has an address to tell. -/
def State.isFor (device : Nat) (destination : UInt32) : Bool :=
  match st.findInterface device with
  | none => true
  | some i =>
    !i.configured || destination == broadcast || destination ==
      (i.address &&& i.netmask ||| ~~~i.netmask) || destination == i.address

/-- The packet that `receive_packet` gives to a handler. -/
def State.receivePacket (device : Nat) (data : List UInt8) : Option Packet :=
  if data.length < headerMinLength ∨ data.getD 0 0 >>> 4 ≠ 4 then none
  else
    let headerLength := (data.getD 0 0 &&& 0x0F).toNat * 4
    let totalLength := (netReadBe16 data 2).toNat
    if headerLength < headerMinLength ∨ totalLength < headerLength ∨ data.length < totalLength ∨
        ipv4Checksum (data.take headerLength) ≠ 0 then none
    else if netReadBe16 data 6 &&& 0x3FFF ≠ 0 then none
    else
      let destination := netReadBe32 data 16
      if !st.isFor device destination then none
      else
        let protocol := data.getD 9 0
        if protocol ∈ st.handlers then
          some ⟨device, netReadBe32 data 12, destination, protocol, data.getD 8 0,
            (data.drop headerLength).take (totalLength - headerLength)⟩
        else none

/-! ## Sending -/

inductive SendResult where
  | error
  | waitingArp
  | ok
deriving DecidableEq

/-- What `arp_resolve` answers for a device and an address, and what `ethernet_send` returns. -/
structure Link where
  resolve : Nat → UInt32 → Option Arp.Mac
  send : Nat → Arp.Mac → List UInt8 → Bool

/-- A packet on its way. -/
structure Frame where
  device : Nat
  destination : Arp.Mac
  payload : List UInt8

/-- The header before its checksum. -/
def headerStart (identification : UInt16) (protocol : UInt8) (length : Nat) : List UInt8 :=
  [0x45, 0] ++ netWriteBe16 (UInt16.ofNat (headerMinLength + length)) ++
    netWriteBe16 identification ++ netWriteBe16 0x4000 ++ [defaultTtl, protocol]

def header (identification : UInt16) (protocol : UInt8) (source destination : UInt32) (length : Nat)
    (checksum : UInt16) : List UInt8 :=
  headerStart identification protocol length ++
    (netWriteBe16 checksum ++ (netWriteBe32 source ++ netWriteBe32 destination))

/-- The header with the checksum that was computed with zeros in its place. -/
def packetHeader (identification : UInt16) (protocol : UInt8) (source destination : UInt32)
    (length : Nat) : List UInt8 :=
  let blank := header identification protocol source destination length 0
  header identification protocol source destination length (ipv4Checksum blank)

/-- What `ipv4_send_from` puts into `transmit_packet`. -/
def packetBytes (identification : UInt16) (protocol : UInt8) (source destination : UInt32)
    (payload : List UInt8) : List UInt8 :=
  packetHeader identification protocol source destination payload.length ++ payload

/-- The source address is zero or that of the interface. -/
def State.ownsSource (device : Nat) (source : UInt32) : Bool :=
  source == 0 ||
    match st.findInterface device with
    | none => false
    | some i => i.configured && source == i.address

/-- The hardware address `ipv4_send_from` sends to. -/
def State.nextMac (link : Link) (st : State) (device : Nat) (destination : UInt32) :
    Except SendResult Arp.Mac :=
  if destination = broadcast then .ok fun _ => 0xFF
  else
    match st.findInterface device with
    | none => .error .error
    | some i =>
      if !i.configured then .error .error
      else
        let nextHop :=
          if destination &&& i.netmask = i.address &&& i.netmask then destination else i.gateway
        if nextHop = 0 then .error .error
        else
          match link.resolve device nextHop with
          | none => .error .waitingArp
          | some mac => .ok mac

/-- `ipv4_send_from`, with the packet that left. -/
def State.ipv4SendFrom (link : Link) (st : State) (device : Nat) (source destination : UInt32)
    (protocol : UInt8) (payload : List UInt8) : State × SendResult × Option Frame :=
  if protocol = 0 ∨ payloadMaxLength < payload.length then (st, .error, none)
  else if !st.ownsSource device source then (st, .error, none)
  else
    match st.nextMac link device destination with
    | .error result => (st, result, none)
    | .ok mac =>
      if st.transmitLock then (st, .error, none)
      else
        let packet := packetBytes st.nextIdentification protocol source destination payload
        let st := { st with nextIdentification := st.nextIdentification + 1 }
        if link.send device mac packet then (st, .ok, some ⟨device, mac, packet⟩)
          else (st, .error, none)

theorem ipv4SendFrom_sent {link : Link} {st : State} {device : Nat} {source destination : UInt32}
    {protocol : UInt8} {payload : List UInt8} {frame : Frame}
    (h : (st.ipv4SendFrom link device source destination protocol payload).2.2 = some frame) :
    payload.length ≤ payloadMaxLength ∧
      frame.payload = packetBytes st.nextIdentification protocol source destination payload := by
  unfold State.ipv4SendFrom at h
  split at h
  · cases h
  next hfits =>
  split at h
  · cases h
  split at h
  · cases h
  split at h
  · cases h
  simp only at h
  split at h
  · cases h
    exact ⟨Nat.le_of_not_lt (not_or.mp hfits).2, rfl⟩
  · cases h

/-! ## What is sent is received -/

section RoundTrip

variable (identification : UInt16) (protocol : UInt8) (source destination : UInt32) (length : Nat)

theorem length_headerStart : (headerStart identification protocol length).length = 10 := rfl

theorem length_header (checksum : UInt16) :
    (header identification protocol source destination length checksum).length = 20 := rfl

theorem length_packetHeader :
    (packetHeader identification protocol source destination length).length = headerMinLength :=
  rfl

/-- The header verifies. -/
theorem ipv4Checksum_packetHeader :
    ipv4Checksum (packetHeader identification protocol source destination length) = 0 := by
  have hsum : ∀ checksum,
      (checksumAdd 0 (header identification protocol source destination length checksum)).toNat =
      0 + wordSum (header identification protocol source destination length checksum) :=
    fun checksum => toNat_checksumAdd_of_lt (by rw [length_header]; decide)
  rw [packetHeader, ipv4Checksum, finishChecksum_eq_zero_iff, hsum]
  refine fold_checksum (by rw [length_headerStart]) ?_ ?_
  · have hfirst : wordSum (headerStart identification protocol length) = 256 * 0x45 +
        sumFrom false ((headerStart identification protocol length).drop 1) := rfl
    omega
  · rw [ipv4Checksum, toNat_finishChecksum, hsum]
    rfl

variable {identification protocol source destination}

/-- What `receive_packet` reads of a header that was built here. -/
theorem receivePacket_packetHeader {st : State} {device : Nat} {rest : List UInt8}
    (hlen : length ≤ payloadMaxLength) (hrest : length ≤ rest.length) :
    st.receivePacket device (packetHeader identification protocol source destination length ++
      rest) = if st.isFor device destination = true ∧ protocol ∈ st.handlers then
      some ⟨device, source, destination, protocol, defaultTtl, rest.take length⟩ else none := by
  have hverifies := ipv4Checksum_packetHeader identification protocol source destination length
  unfold payloadMaxLength at hlen
  unfold packetHeader at hverifies ⊢
  simp only at hverifies ⊢
  generalize ipv4Checksum (header identification protocol source destination length 0) = checksum
    at hverifies ⊢
  generalize hdata :
    header identification protocol source destination length checksum ++ rest = data
  have hall : data.length = 20 + rest.length := by
    rw [← hdata, length_append, length_header]
  have htake :
      data.take 20 = header identification protocol source destination length checksum := by
    rw [← hdata]
    exact take_left' rfl
  have hdrop : data.drop 20 = rest := by
    rw [← hdata]
    exact drop_left' rfl
  have hversion : data.getD 0 0 = 0x45 := by rw [← hdata]; rfl
  have htotal : netReadBe16 data 2 = UInt16.ofNat (headerMinLength + length) := by
    rw [← hdata]
    exact netReadBe16_write (UInt16.ofNat (headerMinLength + length)) []
  have hfragment : netReadBe16 data 6 = 0x4000 := by
    rw [← hdata]
    exact netReadBe16_write 0x4000 []
  have httl : data.getD 8 0 = defaultTtl := by rw [← hdata]; rfl
  have hprotocol : data.getD 9 0 = protocol := by rw [← hdata]; rfl
  have hsource : netReadBe32 data 12 = source := by
    rw [← hdata]
    exact netReadBe32_write source []
  have hdst : netReadBe32 data 16 = destination := by
    rw [← hdata]
    exact netReadBe32_write destination []
  have htotalNat : (UInt16.ofNat (headerMinLength + length)).toNat = 20 + length := by
    rw [UInt16.toNat_ofNat']
    exact Nat.mod_eq_of_lt (by unfold headerMinLength; omega)
  unfold State.receivePacket
  rw [hversion, htotal, htotalNat, hfragment, hdst, hsource, hprotocol, httl]
  rw [if_neg (show ¬(data.length < headerMinLength ∨ (0x45 : UInt8) >>> 4 ≠ 4) from
    not_or.mpr ⟨by unfold headerMinLength; omega, by decide⟩)]
  simp only [show ((0x45 : UInt8) &&& 0x0F).toNat * 4 = 20 from rfl]
  rw [htake, hdrop,
    if_neg (show ¬(20 < headerMinLength ∨ 20 + length < 20 ∨ data.length < 20 + length ∨
      ipv4Checksum (header identification protocol source destination length checksum) ≠ 0) from
    not_or.mpr ⟨by decide, not_or.mpr ⟨by omega, not_or.mpr ⟨by omega, not_not_intro hverifies⟩⟩⟩)]
  rw [if_neg (by decide), Nat.add_sub_cancel_left]
  cases hfor : st.isFor device destination with
  | true =>
    rw [if_neg (by decide)]
    simp only [true_and]
  | false =>
    rw [if_pos (by decide), if_neg (fun h => Bool.false_ne_true h.1)]

/-- A host that has the address and a handler takes a packet that was sent, whatever pads it. -/
theorem receivePacket_packetBytes {st : State} {device : Nat} {payload : List UInt8}
    (hlen : payload.length ≤ payloadMaxLength) (hfor : st.isFor device destination = true)
    (hhandler : protocol ∈ st.handlers) (padding : List UInt8) :
    st.receivePacket device (packetBytes identification protocol source destination payload ++
      padding) = some ⟨device, source, destination, protocol, defaultTtl, payload⟩ := by
  have hrest : payload.length ≤ (payload ++ padding).length := by
    rw [length_append]
    exact Nat.le_add_right _ _
  rw [packetBytes, append_assoc, receivePacket_packetHeader payload.length hlen hrest,
    if_pos ⟨hfor, hhandler⟩, take_left]

end RoundTrip

end PureCOS.Ipv4
