import PureCOS.Net.Ipv4
import PureCOS.Net.TcpSegment

/-!
# Segments as bytes

`emit_segment`, which puts a segment into a buffer with its checksum and sends it, and the first
part of `receive_segment`, which checks a packet and reads the segment.  Two hosts that run this
code understand each other: a segment that is sent is read as it was sent, and is not read if one of
its 16-bit words was changed on the way.
-/

namespace PureCOS.Tcp

open OnesComplement Ipv4 List

/-- `IPV4_PROTOCOL_TCP` -/
def protocolTcp : UInt8 := 6

/-! ## Flags -/

/-- The flags as `TCP_FLAG_FIN`, `SYN`, `RST`, `PSH` and `ACK` number them. -/
def Flags.byte (flags : Flags) : UInt8 :=
  (if flags.fin then 0x01 else 0) ||| (if flags.syn then 0x02 else 0) ||| (if flags.rst then 0x04
    else 0) ||| (if flags.psh then 0x08 else 0) ||| (if flags.ack then 0x10 else 0)

def flagsOf (byte : UInt8) : Flags where
  fin := byte &&& 0x01 != 0
  syn := byte &&& 0x02 != 0
  rst := byte &&& 0x04 != 0
  psh := byte &&& 0x08 != 0
  ack := byte &&& 0x10 != 0

theorem flagsOf_byte (flags : Flags) : flagsOf flags.byte = flags := by
  obtain ⟨fin, syn, rst, psh, ack⟩ := flags
  cases fin <;> cases syn <;> cases rst <;> cases psh <;> cases ack <;> rfl

/-! ## Checksum -/

/-- The pseudo header of `tcp_checksum`. -/
def pseudo (source destination : UInt32) (length : Nat) : List UInt8 :=
  netWriteBe32 source ++ netWriteBe32 destination ++ [0, protocolTcp] ++ netWriteBe16
    (UInt16.ofNat length)

def tcpChecksum (source destination : UInt32) (segment : List UInt8) : UInt16 :=
  finishChecksum (checksumAdd (checksumAdd 0 (pseudo source destination segment.length)) segment)

/-! ## Sending -/

/-- The fields of a segment before its checksum. -/
def Segment.start (seg : Segment) : List UInt8 :=
  netWriteBe16 seg.sourcePort ++ netWriteBe16 seg.destinationPort ++ netWriteBe32 seg.sequence ++
    netWriteBe32 seg.ack ++
    [UInt8.ofNat ((headerLength + seg.options.length) / 4 * 16), seg.flags.byte] ++
    netWriteBe16 seg.window.toUInt16

/-- The segment with a checksum in it. -/
def Segment.bytes (seg : Segment) (checksum : UInt16) : List UInt8 :=
  seg.start ++ (netWriteBe16 checksum ++ (netWriteBe16 0 ++ (seg.options ++ seg.data)))

/-- What `emit_segment` leaves in `segment_buffer`. -/
def Segment.wire (seg : Segment) : List UInt8 :=
  seg.bytes (tcpChecksum seg.source seg.destination (seg.bytes 0))

/-- The segment goes out as a packet. -/
def sendSegment (link : Link) (st : Ipv4.State) (seg : Segment) :
    Ipv4.State × SendResult × Option Frame :=
  st.ipv4SendFrom link seg.device seg.source seg.destination protocolTcp seg.wire

def emitSegment (link : Link) (st : Ipv4.State) (s : Socket) (sequence : UInt32) (flags : Flags)
    (data : List UInt8) (withMss : Bool) : Socket × Ipv4.State × Option Frame :=
  let header := if withMss then headerLength + 4 else headerLength
  if ethernetMtu < header + data.length then (s, st, none)
  else
    let sent := sendSegment link st (segmentOf s sequence flags data withMss)
    ({ s with arpPending := sent.2.1 == .waitingArp }, sent.1, sent.2.2)

/-! ## Receiving -/

/-- The segment that `receive_segment` reads from a packet, if it passes the checks. -/
def readSegment (packet : Packet) : Option Segment :=
  let segment := packet.payload
  if segment.length < headerLength then none
  else
    let length := (segment.getD 12 0 >>> 4).toNat * 4
    if length < headerLength ∨ segment.length < length then none
    else if tcpChecksum packet.source packet.destination segment ≠ 0 then none
    else
      some {
        device := packet.device
        source := packet.source
        destination := packet.destination
        sourcePort := netReadBe16 segment 0
        destinationPort := netReadBe16 segment 2
        sequence := netReadBe32 segment 4
        ack := netReadBe32 segment 8
        flags := flagsOf (segment.getD 13 0)
        window := (netReadBe16 segment 14).toUInt32
        options := (segment.take length).drop headerLength
        data := segment.drop length }

/-! ## Verification -/

section Verify

variable {seg : Segment} {source destination : UInt32} {segment : List UInt8}

theorem length_start : seg.start.length = 16 := rfl

theorem length_bytes (checksum : UInt16) :
    (seg.bytes checksum).length = 20 + seg.options.length + seg.data.length := by
  rw [Segment.bytes, length_append, length_start, length_append, length_netWriteBe16, length_append,
    length_netWriteBe16, length_append]
  omega

theorem length_pseudo (length : Nat) : (pseudo source destination length).length = 12 := rfl

/-- The pseudo header names the protocol, so its sum is not zero. -/
theorem wordSum_pseudo_pos (length : Nat) : 0 < wordSum (pseudo source destination length) := by
  have hsplit : pseudo source destination length = netWriteBe32 source ++
      netWriteBe32 destination ++ ([0, protocolTcp] ++ netWriteBe16 (UInt16.ofNat length)) :=
    rfl
  have hprotocol : sumFrom true ([0, protocolTcp] ++ netWriteBe16 (UInt16.ofNat length)) =
      256 * (0 : UInt8).toNat +
        (protocolTcp.toNat + wordSum (netWriteBe16 (UInt16.ofNat length))) :=
    rfl
  have hsix : protocolTcp.toNat = 6 := rfl
  have heven : (netWriteBe32 source ++ netWriteBe32 destination).length % 2 = 0 :=
    congrArg (· % 2) (rfl : _ = 8)
  rw [hsplit, wordSum_append heven]
  show 0 < wordSum (netWriteBe32 source ++ netWriteBe32 destination) +
    sumFrom true ([0, protocolTcp] ++ netWriteBe16 (UInt16.ofNat length))
  omega

theorem toNat_checksumAdd_segment (hlen : segment.length ≤ payloadMaxLength) :
    (checksumAdd (checksumAdd 0 (pseudo source destination segment.length)) segment).toNat =
      wordSum (pseudo source destination segment.length) + wordSum segment := by
  have hpseudo : (checksumAdd 0 (pseudo source destination segment.length)).toNat =
      0 + wordSum (pseudo source destination segment.length) :=
    toNat_checksumAdd_of_lt (by rw [length_pseudo]; decide)
  have hle : wordSum (pseudo source destination segment.length) ≤ 65280 * 12 :=
    sumFrom_le true (pseudo source destination segment.length)
  unfold payloadMaxLength at hlen
  rw [toNat_checksumAdd_of_lt (by omega), hpseudo, Nat.zero_add]

theorem tcpChecksum_eq_zero_iff (hlen : segment.length ≤ payloadMaxLength) :
    tcpChecksum source destination segment = 0 ↔
      fold (wordSum (pseudo source destination segment.length) + wordSum segment) = 65535 := by
  rw [tcpChecksum, finishChecksum_eq_zero_iff, toNat_checksumAdd_segment hlen]

/-- What is sent verifies. -/
theorem tcpChecksum_wire (hlen : seg.wire.length ≤ payloadMaxLength) :
    tcpChecksum seg.source seg.destination seg.wire = 0 := by
  have hsame : seg.wire.length = (seg.bytes 0).length := by
    rw [Segment.wire, length_bytes, length_bytes]
  rw [tcpChecksum_eq_zero_iff hlen, hsame]
  refine fold_checksum (by rw [length_start]) ?_ ?_
  · have hpos : 0 < wordSum (pseudo seg.source seg.destination (seg.bytes 0).length) :=
      wordSum_pseudo_pos _
    omega
  · rw [tcpChecksum, toNat_finishChecksum, toNat_checksumAdd_segment (hsame ▸ hlen)]
    rfl

/-- A changed word is noticed. -/
theorem tcpChecksum_changed {changed : List UInt8} (hlen : segment.length ≤ payloadMaxLength)
    (hverifies : tcpChecksum source destination segment = 0) (hchanged : Changed segment changed) :
    tcpChecksum source destination changed ≠ 0 := by
  have hsame := hchanged.length
  rw [tcpChecksum_eq_zero_iff hlen] at hverifies
  rw [ne_eq, tcpChecksum_eq_zero_iff (hsame ▸ hlen), hsame]
  exact hchanged.fold_ne hverifies

end Verify

/-! ## What is sent is read -/

/-- The options fill whole words, and the window is one word. -/
structure Segment.Sendable (seg : Segment) : Prop where
  options : seg.options.length % 4 = 0 ∧ seg.options.length ≤ 40
  window : seg.window.toNat < 65536

section Read

variable {seg : Segment}

theorem headerLength_of_byte (hoptions : seg.options.length % 4 = 0 ∧ seg.options.length ≤ 40) :
    (UInt8.ofNat ((headerLength + seg.options.length) / 4 * 16) >>> 4).toNat * 4 =
      20 + seg.options.length := by
  have hfour : (4 : UInt8).toNat % 8 = 4 := rfl
  unfold headerLength
  rw [UInt8.toNat_shiftRight, UInt8.toNat_ofNat', hfour, Nat.shiftRight_eq_div_pow]
  omega

theorem window_of_word (hwindow : seg.window.toNat < 65536) :
    seg.window.toUInt16.toUInt32 = seg.window := by
  apply UInt32.toNat_inj.mp
  rw [UInt16.toNat_toUInt32, UInt32.toNat_toUInt16]
  exact Nat.mod_eq_of_lt hwindow

theorem readSegment_wire (hsendable : seg.Sendable) (hlen : seg.wire.length ≤ payloadMaxLength)
    (device : Nat) (ttl : UInt8) :
    readSegment ⟨device, seg.source, seg.destination, protocolTcp, ttl, seg.wire⟩ =
      some { seg with device := device } := by
  have hverifies := tcpChecksum_wire hlen
  have hall : seg.wire.length = 20 + seg.options.length + seg.data.length := length_bytes _
  unfold Segment.wire at hverifies hall ⊢
  generalize tcpChecksum seg.source seg.destination (seg.bytes 0) = checksum at hverifies hall ⊢
  have hfront : seg.bytes checksum = (seg.start ++ (netWriteBe16 checksum ++ netWriteBe16 0)) ++
      (seg.options ++ seg.data) := by
    simp only [Segment.bytes, append_assoc]
  have htwenty : (seg.start ++ (netWriteBe16 checksum ++ netWriteBe16 0)).length = 20 := rfl
  have hoptions : ((seg.bytes checksum).take (20 + seg.options.length)).drop headerLength =
      seg.options := by
    rw [hfront, take_append, htwenty, Nat.add_sub_cancel_left, take_left,
      take_of_length_le (by omega)]
    exact drop_left' htwenty
  have hdata : (seg.bytes checksum).drop (20 + seg.options.length) = seg.data := by
    rw [hfront, ← drop_drop, drop_left' htwenty, drop_left]
  have hbyte : (seg.bytes checksum).getD 12 0 =
      UInt8.ofNat ((headerLength + seg.options.length) / 4 * 16) :=
    rfl
  have hsourcePort : netReadBe16 (seg.bytes checksum) 0 = seg.sourcePort :=
    netReadBe16_write seg.sourcePort []
  have hdestinationPort : netReadBe16 (seg.bytes checksum) 2 = seg.destinationPort :=
    netReadBe16_write seg.destinationPort []
  have hsequence : netReadBe32 (seg.bytes checksum) 4 = seg.sequence :=
    netReadBe32_write seg.sequence []
  have hack : netReadBe32 (seg.bytes checksum) 8 = seg.ack := netReadBe32_write seg.ack []
  have hflags : flagsOf ((seg.bytes checksum).getD 13 0) = seg.flags := flagsOf_byte seg.flags
  have hwindow : netReadBe16 (seg.bytes checksum) 14 = seg.window.toUInt16 :=
    netReadBe16_write seg.window.toUInt16 []
  unfold readSegment
  simp only
  rw [hbyte, headerLength_of_byte hsendable.options, hoptions, hdata, hsourcePort, hdestinationPort,
    hsequence, hack, hflags, hwindow, window_of_word hsendable.window]
  rw [if_neg (by rw [hall]; unfold headerLength; omega),
    if_neg (by rw [hall]; unfold headerLength; omega), if_neg (not_not_intro hverifies)]

theorem readSegment_changed {changed : List UInt8} (hlen : seg.wire.length ≤ payloadMaxLength)
    (hchanged : Changed seg.wire changed) (device : Nat) (ttl : UInt8) :
    readSegment ⟨device, seg.source, seg.destination, protocolTcp, ttl, changed⟩ = none := by
  have hfails := tcpChecksum_changed hlen (tcpChecksum_wire hlen) hchanged
  unfold readSegment
  simp only
  split
  · rfl
  · split
    · rfl
    · rfl

/-- The segments of `emit_segment` can be sent. -/
theorem sendable_segmentOf (s : Socket) (sequence : UInt32) (flags : Flags) (data : List UInt8)
    (withMss : Bool) : (segmentOf s sequence flags data withMss).Sendable := by
  refine ⟨?_, ?_⟩
  · show (if withMss then mssOption else []).length % 4 = 0 ∧
      (if withMss then mssOption else []).length ≤ 40
    split <;> decide
  · exact Nat.lt_succ_of_le (receiveWindow_le s)

end Read

theorem sent_of_emitted {link : Link} {sender : Ipv4.State} {s : Socket} {sequence : UInt32}
    {flags : Flags} {data : List UInt8} {withMss : Bool} {frame : Frame}
    (h : (emitSegment link sender s sequence flags data withMss).2.2 = some frame) :
    (sendSegment link sender (segmentOf s sequence flags data withMss)).2.2 = some frame := by
  unfold emitSegment at h
  simp only at h
  generalize (if withMss then headerLength + 4 else headerLength) = header at h
  split at h
  · cases h
  · exact h

/-- A segment that `emit_segment` sends passes the checks of a host that runs the same code, and is
read there as it was built; with one word of it changed it fails them. -/
theorem emitted_segment_verifies
    (link : Link)
    (sender : Ipv4.State)
    (s : Socket)
    (sequence : UInt32)
    (flags : Flags)
    (data : List UInt8)
    (withMss : Bool)
    (frame : Frame)
    (hemitted : (emitSegment link sender s sequence flags data withMss).2.2 = some frame) :
    let seg := segmentOf s sequence flags data withMss
    ipv4Checksum (frame.payload.take headerMinLength) = 0 ∧
      tcpChecksum seg.source seg.destination (frame.payload.drop headerMinLength) = 0 ∧
      (∀ (receiver : Ipv4.State) (device : Nat) (padding : List UInt8),
        receiver.isFor device seg.destination = true → protocolTcp ∈ receiver.handlers →
        (receiver.receivePacket device (frame.payload ++ padding)).bind readSegment =
          some { seg with device := device }) ∧
      ∀ changed, Changed (frame.payload.drop headerMinLength) changed →
        tcpChecksum seg.source seg.destination changed ≠ 0 ∧
        ∀ (receiver : Ipv4.State) (device : Nat) (padding : List UInt8),
          (receiver.receivePacket device
            (frame.payload.take headerMinLength ++ changed ++ padding)).bind readSegment =
          none := by
  intro seg
  have hsendable : seg.Sendable := sendable_segmentOf ..
  have hsent := sent_of_emitted hemitted
  obtain ⟨hlen, hpayload⟩ := ipv4SendFrom_sent hsent
  have htake : frame.payload.take headerMinLength = packetHeader sender.nextIdentification
      protocolTcp seg.source seg.destination seg.wire.length := by
    rw [hpayload]
    exact take_left' (length_packetHeader ..)
  have hdrop : frame.payload.drop headerMinLength = seg.wire := by
    rw [hpayload]
    exact drop_left' (length_packetHeader ..)
  rw [htake, hdrop, hpayload]
  refine ⟨ipv4Checksum_packetHeader .., tcpChecksum_wire hlen, ?_, ?_⟩
  · intro receiver device padding hfor hhandler
    rw [receivePacket_packetBytes hlen hfor hhandler padding]
    exact readSegment_wire hsendable hlen device defaultTtl
  intro changed hchanged
  refine ⟨tcpChecksum_changed hlen (tcpChecksum_wire hlen) hchanged,
    fun receiver device padding => ?_⟩
  have hrest : seg.wire.length ≤ (changed ++ padding).length := by
    rw [length_append, hchanged.length]
    exact Nat.le_add_right _ _
  rw [append_assoc, receivePacket_packetHeader seg.wire.length hlen hrest,
    take_left' hchanged.length]
  split
  · exact readSegment_changed hlen hchanged device defaultTtl
  · rfl

namespace Scenario

/-- A socket that talks to another host of the same network. -/
def talking : Socket :=
  { localAddress := 0x0A000001, remoteAddress := 0x0A000002, localPort := 49152, remotePort := 80,
    rcvNxt := 7 }

/-- A host with TCP and one address. -/
def hostAt (address : UInt32) : Ipv4.State :=
  ⟨[⟨some 0, address, 0xFF000000, 0, true⟩], [protocolTcp], 1, false⟩

/-- Every address is known and every frame is taken. -/
def wired : Link := ⟨fun _ _ => some fun _ => 2, fun _ _ _ => true⟩

/-- Three bytes with an option. -/
def threeBytes : Segment := segmentOf talking 1 { ack := true } [1, 2, 3] true

def threeBytesFrame : Frame :=
  ⟨0, fun _ => 2, packetBytes 1 protocolTcp 0x0A000001 0x0A000002 threeBytes.wire⟩

end Scenario

open Scenario

theorem emitted_segment_verifies_threeBytes :
    (emitSegment wired (hostAt 0x0A000001) talking 1 { ack := true } [1, 2, 3] true).2.2 =
        some threeBytesFrame ∧
      ((hostAt 0x0A000002).receivePacket 0 (threeBytesFrame.payload ++ [0])).bind readSegment =
        some threeBytes :=
  have hemitted : (emitSegment wired (hostAt 0x0A000001) talking 1 { ack := true } [1, 2, 3]
      true).2.2 = some threeBytesFrame := rfl
  ⟨hemitted, (emitted_segment_verifies _ _ _ _ _ _ _ _ hemitted).2.2.1 (hostAt 0x0A000002) 0 [0]
    (by decide) (by decide)⟩

end PureCOS.Tcp
