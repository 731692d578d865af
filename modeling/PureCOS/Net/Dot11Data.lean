import Mathlib.Tactic.IntervalCases
import PureCOS.Lib.Bytes

/-!
# 802.11 data frames and Ethernet frames

`net/802.11/data.c`: a station turns an Ethernet frame into a data frame for its access point and a
data frame of the access point into an Ethernet frame.  Lengths have 16 bits.

The model keeps which bytes of the output a call stored.  `dot11_ethernet_to_data` computes the
length of its result in 16 bits and compares that with the capacity, so it is right for every frame
of at most 65517 bytes.  For a longer one the length wraps to at most 17, and the whole frame is
stored if that is within the capacity.
-/

namespace PureCOS.Dot11

/-! ## Stores -/

/-- What a call stored at each offset of its output. -/
abbrev Output := Nat → Option Byte

namespace Output

/-- Nothing is stored. -/
def empty : Output := fun _ => none

/-- `data_memcpy` of `n` bytes of `source` to `off`. -/
def put (out : Output) (off n : Nat) (source : Buffer) : Output := fun i =>
  if off ≤ i ∧ i < off + n then some (source (i - off)) else out i

/-- The output as it is read afterwards. -/
def bytes (out : Output) : Buffer := fun i => (out i).getD 0

/-- The call stored exactly the first `n` bytes. -/
def Fills (out : Output) (n : Nat) : Prop := ∀ i, (out i).isSome ↔ i < n

variable {out : Output} {off n i : Nat} {source : Buffer}

theorem fills_empty : empty.Fills 0 := fun i => by simp [empty]

/-- A store right behind what is stored. -/
theorem Fills.put (h : out.Fills off) : (out.put off n source).Fills (off + n) := by
  intro i
  by_cases hi : off ≤ i ∧ i < off + n
  · simp [Output.put, hi]
  · have hold := h i
    rw [Output.put, if_neg hi, hold]
    omega

theorem bytes_put (hle : off ≤ i) (hlt : i < off + n) :
    (out.put off n source).bytes i = source (i - off) := by
  simp only [bytes, put]
  rw [if_pos ⟨hle, hlt⟩]
  rfl

end Output

/-! ## The code -/

def addrLen : Nat := 6
def ethHdrLen : Nat := 14
def dataHdrLen : Nat := 24
def qosCtrlLen : Nat := 2
def htCtrlLen : Nat := 4
def llcSnapLen : Nat := 8
def ftypeData : BitVec 16 := 2

def fcMake (type stype : BitVec 16) : BitVec 16 := (type <<< 2) ||| (stype <<< 4)

def fcType (fc : BitVec 16) : BitVec 16 := (fc >>> 2) &&& 3

def fcStype (fc : BitVec 16) : BitVec 16 := (fc >>> 4) &&& 0xF

def fcVersionMask : BitVec 16 := 0x0003
def fcToDs : BitVec 16 := 0x0100
def fcFromDs : BitVec 16 := 0x0200
def fcProtected : BitVec 16 := 0x4000
def fcOrder : BitVec 16 := 0x8000
def stypeDataQosBit : BitVec 16 := 0x08
def stypeDataNullBit : BitVec 16 := 0x04

def llcSnapPrefix : Buffer := fun i => [0xAA#8, 0xAA#8, 0x03#8, 0#8, 0#8, 0#8].getD i 0

/-- `data_memcmp(a, b, n) == 0` -/
def sameBytes (a b : Buffer) (n : Nat) : Bool := (List.range n).all fun k => a k == b k

/-- The buffer from offset `off` on. -/
def tail (b : Buffer) (off : Nat) : Buffer := fun i => b (off + i)

def dot11DataHeaderLen (fc : BitVec 16) : Nat :=
  if fcStype fc &&& stypeDataQosBit ≠ 0 then
    if fc &&& fcOrder ≠ 0 then dataHdrLen + qosCtrlLen + htCtrlLen else dataHdrLen + qosCtrlLen
  else dataHdrLen

/-- `fc` in `dot11_data_to_ethernet` -/
def frameControl (frame : Buffer) : BitVec 16 :=
  (frame 0).setWidth 16 ||| ((frame 1).setWidth 16 <<< 8)

/-- The stores of `dot11_data_to_ethernet`. -/
def ethernetStores (frame : Buffer) (hdr payload : Nat) : Output :=
  (((Output.empty.put 0 addrLen (tail frame 4)).put 6 addrLen (tail frame 16)).put 12 2
    (tail frame (hdr + 6))).put ethHdrLen payload (tail frame (hdr + llcSnapLen))

def dot11DataToEthernet
    (frame : Buffer) (len : BitVec 16) (bssid : Buffer) (ethCap : BitVec 16) : BitVec 16 × Output :=
  if len.toNat < dataHdrLen then (0, .empty) else
  let fc := frameControl frame
  if fc &&& fcVersionMask ≠ 0 ∨ fcType fc ≠ ftypeData then (0, .empty) else
  if fc &&& fcFromDs = 0 ∨ fc &&& fcToDs ≠ 0 then (0, .empty) else
  if fc &&& fcProtected ≠ 0 then (0, .empty) else
  if fcStype fc &&& stypeDataNullBit ≠ 0 then (0, .empty) else
  if !sameBytes (tail frame 10) bssid addrLen then (0, .empty) else
  let hdr := dot11DataHeaderLen fc
  if len.toNat < hdr + llcSnapLen then (0, .empty) else
  if !sameBytes (tail frame hdr) llcSnapPrefix 6 then (0, .empty) else
  let payload := len.toNat - hdr - llcSnapLen
  if ethCap.toNat < payload + ethHdrLen then (0, .empty) else
  (BitVec.ofNat 16 (payload + ethHdrLen), ethernetStores frame hdr payload)

/-- The bytes of `seq_ctrl`. -/
def seqCtrlBytes (seqCtrl : BitVec 16) : Buffer := fun i =>
  if i = 0 then seqCtrl.setWidth 8 else (seqCtrl >>> 8).setWidth 8

/-- The stores of `dot11_ethernet_to_data`. -/
def dataStores (eth : Buffer) (ethLen : Nat) (bssid : Buffer) (seqCtrl : BitVec 16) : Output :=
  (((((((((Output.empty.put 0 1 fun _ => (fcMake ftypeData 0 &&& 0xFF).setWidth 8).put 1 1
    fun _ => (fcToDs >>> 8).setWidth 8).put 2 2 fun _ => 0).put 4 addrLen bssid).put 10 addrLen
    (tail eth 6)).put 16 addrLen eth).put 22 2 (seqCtrlBytes seqCtrl)).put dataHdrLen 6
    llcSnapPrefix).put (dataHdrLen + 6) 2 (tail eth 12)).put (dataHdrLen + llcSnapLen)
    (ethLen - ethHdrLen) (tail eth ethHdrLen)

def dot11EthernetToData
    (eth : Buffer) (ethLen : BitVec 16) (bssid : Buffer) (seqCtrl outCap : BitVec 16) :
    BitVec 16 × Output :=
  if ethLen.toNat < ethHdrLen then (0, .empty) else
  let total := BitVec.ofNat 16 (dataHdrLen + llcSnapLen + ethLen.toNat - ethHdrLen)
  if outCap < total then (0, .empty) else
  (total, dataStores eth ethLen.toNat bssid seqCtrl)

/-! ## Relaying -/

/-- The frame as the access point relays it: from the distribution system and not to it, with
destination, BSSID and source as its addresses. -/
def relayed (frame : Buffer) : Buffer := fun i =>
  if i = 1 then (frame 1 &&& ~~~(fcToDs >>> 8).setWidth 8) ||| (fcFromDs >>> 8).setWidth 8
  else if 4 ≤ i ∧ i < 10 then frame (i + 12)
  else if 10 ≤ i ∧ i < 16 then frame (i - 6)
  else if 16 ≤ i ∧ i < 22 then frame (i - 6)
  else frame i

section Conversion

variable (eth : Buffer) (ethLen : BitVec 16) (bssid : Buffer) (seqCtrl outCap : BitVec 16)

/-- The output stays within the capacity, the result is its length or 0, and the relayed frame
is turned back into the Ethernet frame. -/
structure Converts : Prop where
  bounded : ∀ i, ((dot11EthernetToData eth ethLen bssid seqCtrl outCap).2 i).isSome →
    i < outCap.toNat
  exact : (dot11EthernetToData eth ethLen bssid seqCtrl outCap).1 = 0 ∨
    (dot11EthernetToData eth ethLen bssid seqCtrl outCap).2.Fills
      (dot11EthernetToData eth ethLen bssid seqCtrl outCap).1.toNat
  roundTrip : (dot11EthernetToData eth ethLen bssid seqCtrl outCap).1 ≠ 0 →
    ∀ ethCap : BitVec 16, ethLen ≤ ethCap →
      (dot11DataToEthernet
          (relayed (dot11EthernetToData eth ethLen bssid seqCtrl outCap).2.bytes)
          (dot11EthernetToData eth ethLen bssid seqCtrl outCap).1 bssid ethCap).1 = ethLen ∧
      ∀ i < ethLen.toNat,
        (dot11DataToEthernet
          (relayed (dot11EthernetToData eth ethLen bssid seqCtrl outCap).2.bytes)
          (dot11EthernetToData eth ethLen bssid seqCtrl outCap).1 bssid ethCap).2 i = some (eth i)

end Conversion

section Frames

open Output

variable {eth bssid frame : Buffer} {n i k : Nat} {seqCtrl : BitVec 16}

theorem dataStores_fills (hn : ethHdrLen ≤ n) :
    (dataStores eth n bssid seqCtrl).Fills (n + 18) := by
  have h : (dataStores eth n bssid seqCtrl).Fills (dataHdrLen + llcSnapLen + (n - ethHdrLen)) :=
    fills_empty.put.put.put.put.put.put.put.put.put.put
  have hlen : dataHdrLen + llcSnapLen + (n - ethHdrLen) = n + 18 := by
    simp only [dataHdrLen, llcSnapLen, ethHdrLen] at hn ⊢
    omega
  rwa [hlen] at h

theorem dataStores_bytes (hlo : 14 ≤ i) (hi : i < n) :
    (dataStores eth n bssid seqCtrl).bytes (i + 18) = eth i := by
  rw [dataStores, bytes_put (by simp only [dataHdrLen, llcSnapLen]; omega)
    (by simp only [dataHdrLen, llcSnapLen, ethHdrLen]; omega)]
  simp only [tail, dataHdrLen, llcSnapLen, ethHdrLen]
  exact congrArg eth (by omega)

/-- What the relayed frame holds before its payload. -/
theorem relayed_dataStores_of_lt (hi : i < 32) :
    relayed (dataStores eth n bssid seqCtrl).bytes i =
      if i = 0 then 0x08#8
      else if i = 1 then 0x02#8
      else if i < 4 then 0
      else if i < 10 then eth (i - 4)
      else if i < 16 then bssid (i - 10)
      else if i < 22 then eth (i - 10)
      else if i < 24 then seqCtrlBytes seqCtrl (i - 22)
      else if i < 30 then llcSnapPrefix (i - 24)
      else eth (i - 18) := by
  by_cases h1 : i = 1
  · subst h1
    show ((fcToDs >>> 8).setWidth 8 &&& ~~~(fcToDs >>> 8).setWidth 8) |||
      (fcFromDs >>> 8).setWidth 8 = 0x02#8
    decide
  · interval_cases i <;> first | rfl | exact absurd rfl h1

theorem relayed_of_ge (hi : 22 ≤ i) : relayed frame i = frame i := by
  simp only [relayed]
  rw [if_neg (by omega), if_neg (by omega), if_neg (by omega), if_neg (by omega)]

/-- The relayed frame passes the checks on its header. -/
theorem frameControl_relayed :
    frameControl (relayed (dataStores eth n bssid seqCtrl).bytes) = 0x0208#16 := by
  have h₀ : relayed (dataStores eth n bssid seqCtrl).bytes 0 = 0x08#8 :=
    relayed_dataStores_of_lt (by decide)
  have h₁ : relayed (dataStores eth n bssid seqCtrl).bytes 1 = 0x02#8 :=
    relayed_dataStores_of_lt (by decide)
  rw [frameControl, h₀, h₁]
  decide

theorem sameBytes_of_eq {a b : Buffer} (h : ∀ k < n, a k = b k) : sameBytes a b n = true := by
  rw [sameBytes, List.all_eq_true]
  intro k hk
  exact beq_iff_eq.mpr (h k (List.mem_range.mp hk))

theorem sameBytes_bssid :
    sameBytes (tail (relayed (dataStores eth n bssid seqCtrl).bytes) 10) bssid addrLen = true := by
  apply sameBytes_of_eq
  intro k hk
  simp only [addrLen] at hk
  rw [tail, relayed_dataStores_of_lt (by omega), if_neg (by omega), if_neg (by omega),
    if_neg (by omega), if_neg (by omega), if_pos (by omega), Nat.add_sub_cancel_left]

theorem sameBytes_prefix : sameBytes (tail (relayed (dataStores eth n bssid seqCtrl).bytes) 24)
    llcSnapPrefix 6 = true := by
  apply sameBytes_of_eq
  intro k hk
  rw [tail, relayed_dataStores_of_lt (by omega), if_neg (by omega), if_neg (by omega),
    if_neg (by omega), if_neg (by omega), if_neg (by omega), if_neg (by omega), if_neg (by omega),
    if_pos (by omega), Nat.add_sub_cancel_left]

/-- The stores for the relayed frame are the Ethernet frame. -/
theorem ethernetStores_relayed (hn : 14 ≤ n) (hi : i < n) : ethernetStores
    (relayed (dataStores eth n bssid seqCtrl).bytes) 24 (n - 14) i = some (eth i) := by
  by_cases hlo : i < 14
  · -- the header: addresses 1 and 3, and the type behind the prefix
    interval_cases i <;> rfl
  have hput : ethernetStores (relayed (dataStores eth n bssid seqCtrl).bytes) 24 (n - 14) i =
      some (relayed (dataStores eth n bssid seqCtrl).bytes (32 + (i - 14))) := by
    rw [ethernetStores, put, if_pos (by simp only [ethHdrLen]; omega)]
    rfl
  have hat : 32 + (i - 14) = i + 18 := by omega
  rw [hput, hat, relayed_of_ge (by omega), dataStores_bytes (by omega) hi]

/-- The relayed frame is turned back. -/
theorem dataToEthernet_relayed {len ethCap : BitVec 16} (hn : 14 ≤ n) (hlen : len.toNat = n + 18)
    (hcap : n ≤ ethCap.toNat) :
    dot11DataToEthernet (relayed (dataStores eth n bssid seqCtrl).bytes) len bssid ethCap =
      (BitVec.ofNat 16 n,
        ethernetStores (relayed (dataStores eth n bssid seqCtrl).bytes) 24 (n - 14)) := by
  have hhdr : dot11DataHeaderLen 0x0208#16 = 24 := by decide
  have hpayload : len.toNat - 24 - 8 = n - 14 := by omega
  have hback : n - 14 + 14 = n := by omega
  unfold dot11DataToEthernet
  simp only [frameControl_relayed, hhdr, sameBytes_bssid, sameBytes_prefix, dataHdrLen, llcSnapLen,
    ethHdrLen, hpayload, hback]
  rw [if_neg (by omega), if_neg (by decide), if_neg (by decide), if_neg (by decide), if_neg
    (by decide), if_neg (by decide), if_neg (by omega), if_neg (by decide), if_neg (by omega)]

end Frames

section Conversion

variable {eth : Buffer} {ethLen : BitVec 16} {bssid : Buffer} {seqCtrl outCap : BitVec 16}

/-- The length that is compared with the capacity. -/
theorem dot11EthernetToData_eq (hlen : 14 ≤ ethLen.toNat) :
    dot11EthernetToData eth ethLen bssid seqCtrl outCap =
      if outCap.toNat < (ethLen.toNat + 18) % 65536 then (0, Output.empty)
      else (BitVec.ofNat 16 (ethLen.toNat + 18), dataStores eth ethLen.toNat bssid seqCtrl) := by
  have htotal : 24 + 8 + ethLen.toNat - 14 = ethLen.toNat + 18 := by omega
  unfold dot11EthernetToData
  simp only [dataHdrLen, llcSnapLen, ethHdrLen, htotal, BitVec.lt_def, BitVec.toNat_ofNat]
  rw [if_neg (by omega)]

/-- A call that stores nothing converts. -/
theorem converts_of_refused
    (h : dot11EthernetToData eth ethLen bssid seqCtrl outCap = (0, Output.empty)) :
    Converts eth ethLen bssid seqCtrl outCap := by
  constructor
  · intro i hi
    rw [h] at hi
    cases hi
  · exact .inl (by rw [h])
  · intro hne
    rw [h] at hne
    exact absurd rfl hne

/-- A call whose length does not wrap converts. -/
theorem converts_of_stored (hlen : 14 ≤ ethLen.toNat) (hfit : ethLen.toNat + 18 < 65536)
    (hcap : ethLen.toNat + 18 ≤ outCap.toNat) :
    Converts eth ethLen bssid seqCtrl outCap := by
  have heq : dot11EthernetToData eth ethLen bssid seqCtrl outCap =
      (BitVec.ofNat 16 (ethLen.toNat + 18), dataStores eth ethLen.toNat bssid seqCtrl) := by
    rw [dot11EthernetToData_eq hlen, if_neg (by omega)]
  have htotal : (BitVec.ofNat 16 (ethLen.toNat + 18)).toNat = ethLen.toNat + 18 := by
    rw [BitVec.toNat_ofNat]
    omega
  have hfills : (dataStores eth ethLen.toNat bssid seqCtrl).Fills (ethLen.toNat + 18) :=
    dataStores_fills hlen
  constructor
  · intro i hi
    rw [heq] at hi
    have hlt := (hfills i).mp hi
    omega
  · rw [heq, htotal]
    exact .inr hfills
  · intro _ ethCap hethCap
    rw [heq, dataToEthernet_relayed hlen htotal hethCap]
    exact ⟨by rw [BitVec.ofNat_toNat, BitVec.setWidth_eq],
      fun i hi => ethernetStores_relayed hlen hi⟩

/-- `dot11_ethernet_to_data` stays within its output and can be undone unless the length of its
result wraps and is then within the capacity. -/
theorem dot11EthernetToData_converts_iff
    (eth : Buffer)
    (ethLen : BitVec 16)
    (bssid : Buffer)
    (seqCtrl outCap : BitVec 16) :
    Converts eth ethLen bssid seqCtrl outCap ↔
      ethLen.toNat ≤ 65517 ∨ outCap.toNat < ethLen.toNat - 65518 := by
  have hlt := ethLen.isLt
  have hcap := outCap.isLt
  by_cases hshort : ethLen.toNat < 14
  · have hrefused : dot11EthernetToData eth ethLen bssid seqCtrl outCap = (0, Output.empty) := by
      rw [dot11EthernetToData, if_pos (show ethLen.toNat < ethHdrLen from hshort)]
    exact iff_of_true (converts_of_refused hrefused) (.inl (by omega))
  have hlen : 14 ≤ ethLen.toNat := by omega
  by_cases hrefuse : outCap.toNat < (ethLen.toNat + 18) % 65536
  · have hrefused : dot11EthernetToData eth ethLen bssid seqCtrl outCap = (0, Output.empty) := by
      rw [dot11EthernetToData_eq hlen, if_pos hrefuse]
    exact iff_of_true (converts_of_refused hrefused) (by omega)
  by_cases hfit : ethLen.toNat ≤ 65517
  · exact iff_of_true (converts_of_stored hlen (by omega) (by omega)) (.inl hfit)
  refine iff_of_false (fun h => ?_) (by omega)
  -- the last byte of the frame is stored behind every capacity
  have hstored :
      ((dot11EthernetToData eth ethLen bssid seqCtrl outCap).2 (ethLen.toNat + 17)).isSome := by
    rw [dot11EthernetToData_eq hlen, if_neg hrefuse]
    exact (dataStores_fills hlen _).mpr (by omega)
  have hbound := h.bounded _ hstored
  omega

/-- A frame of 65535 bytes is stored in full in an output of 17 bytes. -/
theorem dot11EthernetToData_overrun :
    ¬ Converts Buffer.zero 65535#16 Buffer.zero 0#16 17#16 := by
  intro h
  have hstored :
      ((dot11EthernetToData Buffer.zero 65535#16 Buffer.zero 0#16 17#16).2 17).isSome := by
    decide
  have hbound := h.bounded _ hstored
  exact absurd hbound (by decide)

end Conversion

end PureCOS.Dot11
