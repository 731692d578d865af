import PureCOS.Lib.BigEndian
import PureCOS.Lib.Code
import PureCOS.Lib.Run

/-!
# The DNS client

`net/name/dns.c`: `dns_resolve_ipv4` looks a host name up in a cache of eight entries, else sends a
query to the server of the interface and waits for a datagram that answers it.

Texts are lists of bytes without the zero at their end.  Reads of a received datagram are checked:
one outside the payload is a panic.  The datagrams that arrive, and the times at which the clock is
read, are parameters of a call.
-/

namespace PureCOS.Dns

open Buffer Code

/-! ## Data -/

/-- Milliseconds. -/
abbrev Time := BitVec 64

abbrev netDeviceMaxCount : Nat := 4

abbrev cacheCapacity : Nat := 8

def cacheNameCapacity : Nat := 64
def hostnameCapacity : Nat := 128
def packetCapacity : Nat := 512
def serverPort : Nat := 53
def retryMs : Time := 250

inductive Result where
  | ok
  | invalid
  | noServer
  | busy
  | timeout
  | notFound
  | network
deriving DecidableEq

/-- `enum ipv4_send_result` -/
inductive SendResult where
  | error
  | waitingArp
  | ok
deriving DecidableEq

structure ServerEntry (D : Type) where
  device : Option D
  address : Nat

structure CacheEntry where
  name : List Byte
  address : Nat
  expires : Time

structure Query (D : Type) where
  device : Option D
  server : Nat
  identifier : Nat
  active : Bool
  complete : Bool
  found : Bool
  address : Nat
  ttlSeconds : Nat

/-- `struct udp_datagram` -/
structure Datagram (D : Type) where
  device : D
  sourceAddress : Nat
  sourcePort : Nat
  payload : Buffer
  payloadLength : BitVec 16

/-- The variables of `dns.c`. -/
structure State (D : Type) where
  servers : Fin netDeviceMaxCount → ServerEntry D
  cache : Fin cacheCapacity → CacheEntry
  query : Query D
  queryLock : Bool
  nextIdentifier : BitVec 16

/-- A cleared query. -/
def Query.empty {D : Type} : Query D := ⟨none, 0, 0, false, false, false, 0, 0⟩

/-- The state `dns_init` leaves. -/
def initial {D : Type} : State D where
  servers _ := ⟨none, 0⟩
  cache _ := ⟨[], 0, 0⟩
  query := .empty
  queryLock := false
  nextIdentifier := 0x4100

/-! ## Host names -/

/-- A letter between `A` and `Z` made small. -/
def toLower (c : Byte) : Byte := if 65#8 ≤ c ∧ c ≤ 90#8 then c + 32#8 else c

/-- Loop of `normalize_hostname`; the text so far is kept in reverse. -/
def normalizeFrom (capacity : Nat) : List Byte → List Byte → Nat → Option (List Byte)
  | [], done, labelLength => if labelLength = 0 then none else some done.reverse
  | c :: rest, done, labelLength =>
    let c := toLower c
    if c = 46 then
      if labelLength = 0 ∨ 63 < labelLength ∨ capacity ≤ done.length + 1 then none
      else normalizeFrom capacity rest (c :: done) 0
    else if !(decide (97#8 ≤ c ∧ c ≤ 122#8) || isDigit c || c == 45) ∨ capacity ≤ done.length + 1 ∨
        63 < labelLength + 1 then none
    else normalizeFrom capacity rest (c :: done) (labelLength + 1)

def normalizeHostname (source : List Byte) (capacity : Nat) : Option (List Byte) :=
  if source = [] ∨ capacity < 2 then none else normalizeFrom capacity source [] 0

/-- The inner loop of `ipv4_parse_address`. -/
def parseOctet : List Byte → Nat → Nat → Option (Nat × List Byte)
  | [], octet, _ => some (octet, [])
  | c :: rest, octet, digits =>
    if isDigit c then
      if 255 < octet * 10 + (c - 48).toNat ∨ 3 < digits + 1 then none
      else parseOctet rest (octet * 10 + (c - 48).toNat) (digits + 1)
    else some (octet, c :: rest)

/-- The parts of `ipv4_parse_address` that are left. -/
def parseParts : Nat → List Byte → Nat → Option Nat
  | 0, text, value => if text = [] then some value else none
  | parts + 1, text, value =>
    match text with
    | [] => none
    | c :: _ =>
      if !isDigit c then none
      else
        match parseOctet text 0 0 with
        | none => none
        | some (octet, rest) =>
          if parts = 0 then parseParts 0 rest (value * 256 + octet)
          else
            match rest with
            | 46 :: rest => parseParts parts rest (value * 256 + octet)
            | _ => none

def ipv4ParseAddress (text : List Byte) : Option Nat := parseParts 4 text 0

/-! ## The cache -/

def cacheLookup (cache : Fin cacheCapacity → CacheEntry) (name : List Byte) (now : Time) :
    Option Nat :=
  ((List.finRange cacheCapacity).find? fun i =>
    decide ((cache i).address ≠ 0 ∧ now < (cache i).expires ∧ (cache i).name = name)).map
      fun i => (cache i).address

/-- Loop of `cache_store` that chooses a slot. -/
def chooseSlot (cache : Fin cacheCapacity → CacheEntry) (name : List Byte) (now : Time) :
    List (Fin cacheCapacity) → Fin cacheCapacity → Fin cacheCapacity
  | [], slot => slot
  | i :: rest, slot =>
    if (cache i).address = 0 ∨ (cache i).expires ≤ now ∨ (cache i).name = name then i
    else chooseSlot cache name now rest (if (cache i).expires < (cache slot).expires then
      i else slot)

/-- The end of a time to live: `now` plus the seconds, or the last time there is. -/
def expiry (now : Time) (ttlSeconds : Nat) : Time :=
  if 2 ^ 64 - 1 - now.toNat < ttlSeconds * 1000 then BitVec.allOnes 64
  else BitVec.ofNat 64 (now.toNat + ttlSeconds * 1000)

/-- `cache_store`: the name is cut to the size of its field. -/
def cacheStore (cache : Fin cacheCapacity → CacheEntry) (name : List Byte)
    (address ttlSeconds : Nat) (now : Time) : Fin cacheCapacity → CacheEntry :=
  if address = 0 ∨ ttlSeconds = 0 then cache
  else
    Function.update cache (chooseSlot cache name now (List.finRange cacheCapacity) 0)
      ⟨name.take (cacheNameCapacity - 1), address, expiry now ttlSeconds⟩

/-! ## Answers -/

section Answers

variable {D σ : Type}

/-- A 16-bit value. -/
def u16 (n : Nat) : Nat := n % 65536

variable (datagram : Datagram D)

/-- A read of a byte of the payload. -/
def fetchByte (offset : Nat) : Code σ Byte := do
  require (offset < datagram.payloadLength.toNat)
  pure (datagram.payload offset)

/-- `net_read_be16` in the payload. -/
def fetch16 (offset : Nat) : Code σ Nat := do
  require (offset + 2 ≤ datagram.payloadLength.toNat)
  pure (readBE16 datagram.payload offset)

/-- `net_read_be32` in the payload. -/
def fetch32 (offset : Nat) : Code σ Nat := do
  require (offset + 4 ≤ datagram.payloadLength.toNat)
  pure (readBE32 datagram.payload offset)

/-- Loop of `skip_name`. -/
def skipLabels (datagram : Datagram D) : Nat → Nat → Code σ (Option Nat)
  | 0, _ => pure none
  | labels + 1, cursor =>
    if datagram.payloadLength.toNat ≤ cursor then pure none
    else do
      let size ← fetchByte datagram cursor
      let cursor := u16 (cursor + 1)
      if size = 0 then pure (some cursor)
      else if size &&& 0xC0 = 0xC0 then
        if datagram.payloadLength.toNat ≤ cursor then pure none
        else pure (some (u16 (cursor + 1)))
      else if 63 < size.toNat ∨ datagram.payloadLength.toNat < cursor + size.toNat then pure none
      else skipLabels datagram labels (u16 (cursor + size.toNat))

def skipName (offset : Nat) : Code σ (Option Nat) := skipLabels datagram 128 offset

/-- Loop of `receive_response` over the questions. -/
def skipQuestions (datagram : Datagram D) : Nat → Nat → Code σ (Option Nat)
  | 0, offset => pure (some offset)
  | questions + 1, offset => do
    match ← skipName datagram offset with
    | none => pure none
    | some offset =>
      if datagram.payloadLength.toNat < offset + 4 then pure none
      else skipQuestions datagram questions (u16 (offset + 4))

/-- An address with its time to live is noted. -/
def Query.record (query : Query D) (address ttlSeconds : Nat) : Query D :=
  { query with address := address, ttlSeconds := ttlSeconds, found := true, complete := true }

/-- Loop of `receive_response` over the answers. -/
def readAnswers (datagram : Datagram D) : Nat → Nat → Code (Query D) Unit
  | 0, _ => modify fun query => { query with complete := true }
  | answers + 1, offset => do
    match ← skipName datagram offset with
    | none => modify fun query => { query with complete := true }
    | some offset =>
      if datagram.payloadLength.toNat < offset + 10 then
        modify fun query => { query with complete := true }
      else do
        let type ← fetch16 datagram offset
        let classCode ← fetch16 datagram (offset + 2)
        let ttl ← fetch32 datagram (offset + 4)
        let dataLength ← fetch16 datagram (offset + 8)
        let offset := u16 (offset + 10)
        if datagram.payloadLength.toNat < offset + dataLength then
          modify fun query => { query with complete := true }
        else if type = 1 ∧ classCode = 1 ∧ dataLength = 4 then do
          let address ← fetch32 datagram offset
          modify fun query => query.record address ttl
        else readAnswers datagram answers (u16 (offset + dataLength))

/-- The part of `receive_response` behind its first checks. -/
def readResponse : Code (Query D) Unit := do
  let flags ← fetch16 datagram 2
  if flags / 2 ^ 15 % 2 = 0 ∨ flags % 16 ≠ 0 then
    modify fun query => { query with complete := true }
  else do
    let questions ← fetch16 datagram 4
    let answers ← fetch16 datagram 6
    match ← skipQuestions datagram questions 12 with
    | none => modify fun query => { query with complete := true }
    | some offset => readAnswers datagram answers offset

variable [DecidableEq D]

/-- The datagram is from the server that was asked. -/
def fromServer (query : Query D) (datagram : Datagram D) : Bool :=
  query.active && decide (some datagram.device = query.device) &&
    decide (datagram.sourceAddress = query.server) && decide (datagram.sourcePort = serverPort)

/-- The checks of `receive_response` for the query. -/
def respond (query : Query D) (datagram : Datagram D) : Code (Query D) Unit :=
  if !fromServer query datagram || decide (datagram.payloadLength.toNat < 12) then pure ()
  else do
    let identifier ← fetch16 datagram 0
    if identifier ≠ query.identifier then pure () else readResponse datagram

def receiveResponse : Code (Query D) Unit := do
  let query ← get
  respond query datagram

end Answers

/-! ## Queries -/

/-- The labels of a host name: the parts between its dots. -/
def labelsOf : List Byte → List (List Byte)
  | [] => []
  | c :: rest =>
    match labelsOf rest with
    | [] => if c = 46 then [[]] else [[c]]
    | label :: labels => if c = 46 then [] :: label :: labels else (c :: label) :: labels

/-- Loop of `dns_resolve_ipv4` that writes the labels. -/
def writeLabels : List (List Byte) → Buffer → Nat → Option (Buffer × Nat)
  | [], packet, offset => some (packet, offset)
  | label :: labels, packet, offset =>
    if packetCapacity < offset + 1 + label.length + 5 then none
    else
      writeLabels labels (splice (splice packet offset 1 fun _ => BitVec.ofNat 8 label.length)
        (offset + 1) label.length fun i => label.getD i 0) (offset + 1 + label.length)

/-- The packet of a query. -/
def queryPacket (identifier : Nat) (name : List Byte) : Option (Buffer × Nat) := do
  let header := writeBE16 (writeBE16 (writeBE16 zero 0 identifier) 2 0x0100) 4 1
  let (packet, offset) ← writeLabels (labelsOf name) header 12
  let packet := splice packet offset 1 fun _ => 0
  pure (writeBE16 (writeBE16 packet (offset + 1) 1) (offset + 3) 1, offset + 5)

/--
One round of the loop of `dns_resolve_ipv4`: the clock in its condition and in its body, the result
of `udp_send`, the datagrams that arrive until the query is looked at, and the clock in
`cache_store`.
-/
structure Round (D : Type) where
  test : Time
  now : Time
  sent : SendResult
  arrived : List (Datagram D)
  stored : Time

section Resolve

variable {D : Type} [DecidableEq D]

/-- The query after a datagram. -/
def Query.receive (query : Query D) (datagram : Datagram D) : Query D :=
  (receiveResponse datagram query).1

/-- The loop of `dns_resolve_ipv4`: its result, the query, and the round in which it ends. -/
def await (start timeout : Time) :
    List (Round D) → Time → Query D → Result × Query D × Option (Round D)
  | [], _, query => (.timeout, query, none)
  | round :: rounds, lastSend, query =>
    if timeout ≤ round.test - start then (.timeout, query, none)
    else
      let due := lastSend = BitVec.allOnes 64 ∨ retryMs ≤ round.now - lastSend
      if due ∧ round.sent = .error then (.network, query, none)
      else
        let query := round.arrived.foldl Query.receive query
        if query.complete then
          if query.found then (.ok, query, some round) else (.notFound, query, none)
        else await start timeout rounds (if due then round.now else lastSend) query

/-- The slot of `server_entry` without allocation. -/
def serverEntry (s : State D) (device : Option D) : Option (Fin netDeviceMaxCount) :=
  (List.finRange netDeviceMaxCount).find? fun i => (s.servers i).device = device

def dnsSetServer (s : State D) (device : Option D) (server : Nat) : State D × Bool :=
  if device = none ∨ server = 0 then (s, false)
  else
    let slot := match serverEntry s device with
      | some i => some i
      | none => serverEntry s none
    match slot with
    | none => (s, false)
    | some i => ({ s with servers := Function.update s.servers i ⟨device, server⟩ }, true)

/-- Where an address comes from. -/
inductive Source where
  | text
  | cache
  | server (ttlSeconds : Nat) (time : Time)
deriving DecidableEq

/-- The part of `dns_resolve_ipv4` that asks the server. -/
def ask (s : State D) (device : D) (server : Nat) (name : List Byte) (timeout start : Time)
    (rounds : List (Round D)) : State D × Result × Option (Nat × Source) :=
  if s.queryLock then (s, .busy, none)
  else
    let identifier := s.nextIdentifier + 1
    let s := { s with nextIdentifier := identifier }
    match queryPacket identifier.toNat name with
    | none => (s, .invalid, none)
    | some _ =>
      let query : Query D := ⟨some device, server, identifier.toNat, true, false, false, 0, 0⟩
      match await start timeout rounds (BitVec.allOnes 64) query with
      | (result, query, ended) =>
        let s := { s with query := { query with active := false } }
        match ended with
        | some round =>
          ({ s with cache := cacheStore s.cache name query.address query.ttlSeconds round.stored },
            result, some (query.address, .server query.ttlSeconds round.stored))
        | none => (s, result, none)

/-- `dns_resolve_ipv4`: `now` is the clock in `cache_lookup`, `start` the one before the loop. -/
def dnsResolveIpv4 (s : State D) (device : Option D) (hostname : List Byte)
    (timeout now start : Time) (rounds : List (Round D)) :
    State D × Result × Option (Nat × Source) :=
  match device with
  | none => (s, .invalid, none)
  | some d =>
    if timeout < 100 then (s, .invalid, none)
    else
      match ipv4ParseAddress hostname with
      | some address => (s, .ok, some (address, .text))
      | none =>
        match normalizeHostname hostname hostnameCapacity with
        | none => (s, .invalid, none)
        | some name =>
          match cacheLookup s.cache name now with
          | some address => (s, .ok, some (address, .cache))
          | none =>
            match serverEntry s device with
            | none => (s, .noServer, none)
            | some i =>
              if (s.servers i).address = 0 then (s, .noServer, none)
              else ask s d (s.servers i).address name timeout start rounds

end Resolve

end PureCOS.Dns
