import Mathlib.Tactic.Common

/-!
# TCP segments

The segments of `tcp.c` as records of their header fields, and the segment that `emit_segment`
builds from the fields of a socket.
-/

namespace PureCOS.Tcp

def bufferSize : UInt32 := 16384
def headerLength : Nat := 20
def ethernetMtu : Nat := 1500
def maxMss : UInt32 := 1460

structure Flags where
  fin : Bool := false
  syn : Bool := false
  rst : Bool := false
  psh : Bool := false
  ack : Bool := false
deriving DecidableEq

/-- A segment with the addresses of the packet that carries it. -/
structure Segment where
  device : Nat
  source : UInt32
  destination : UInt32
  sourcePort : UInt16
  destinationPort : UInt16
  sequence : UInt32
  ack : UInt32
  flags : Flags
  window : UInt32
  options : List UInt8
  data : List UInt8

/-- The fields of a socket that a segment is built from. -/
structure Socket where
  device : Nat := 0
  localAddress : UInt32 := 0
  remoteAddress : UInt32 := 0
  localPort : UInt16 := 0
  remotePort : UInt16 := 0
  rcvNxt : UInt32 := 0
  rxLength : UInt32 := 0
  arpPending : Bool := false

def receiveWindow (s : Socket) : UInt32 :=
  let freeSpace := bufferSize - s.rxLength
  if 0xFFFF < freeSpace then 0xFFFF else freeSpace

theorem receiveWindow_le (s : Socket) : receiveWindow s ≤ 0xFFFF := by
  unfold receiveWindow
  grind

/-- The option bytes of a SYN. -/
def mssOption : List UInt8 := [2, 4, (maxMss >>> 8).toUInt8, maxMss.toUInt8]

/-- The segment of `emit_segment`. -/
def segmentOf (s : Socket) (sequence : UInt32) (flags : Flags) (data : List UInt8)
    (withMss : Bool) : Segment where
  device := s.device
  source := s.localAddress
  destination := s.remoteAddress
  sourcePort := s.localPort
  destinationPort := s.remotePort
  sequence := sequence
  ack := if flags.ack then s.rcvNxt else 0
  flags := flags
  window := receiveWindow s
  options := if withMss then mssOption else []
  data := data

end PureCOS.Tcp
