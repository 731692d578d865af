import PureCOS.Net.Dns

/-!
# What a DNS answer can do

`receive_response` makes all its reads inside the payload, whatever the counts and lengths in it
are, and returns: it is equal to a function that follows the records of the datagram.

It records the first address record it meets.  It does not look at the question and at the names of
the records, and the query it compares with does not hold the name that was asked.
-/

namespace PureCOS.Dns

open Buffer List Code

section Reads

variable {D : Type} (datagram : Datagram D)

/-- The number of bytes of the payload. -/
abbrev Datagram.length : Nat := datagram.payloadLength.toNat

/-- The end of a name of so many labels. -/
def labelsEnd : Nat → Nat → Option Nat
  | 0, _ => none
  | labels + 1, cursor =>
    if datagram.length ≤ cursor then none
    else if datagram.payload cursor = 0 then some (cursor + 1)
    else if datagram.payload cursor &&& 0xC0 = 0xC0 then
      if datagram.length ≤ cursor + 1 then none else some (cursor + 2)
    else if 63 < (datagram.payload cursor).toNat ∨
        datagram.length < cursor + 1 + (datagram.payload cursor).toNat then none
    else labelsEnd labels (cursor + 1 + (datagram.payload cursor).toNat)

/-- The end of the questions. -/
def questionsEnd : Nat → Nat → Option Nat
  | 0, offset => some offset
  | questions + 1, offset =>
    match labelsEnd datagram 128 offset with
    | none => none
    | some offset =>
      if datagram.length < offset + 4 then none else questionsEnd questions (offset + 4)

/-- A resource record of the answer section, with the places of its owner and of its data. -/
structure Record where
  owner : Nat
  type : Nat
  classCode : Nat
  ttl : Nat
  dataLength : Nat
  dataOffset : Nat

/-- The records that lie wholly inside the payload, up to the first one that does not. -/
def recordsFrom : Nat → Nat → List Record
  | 0, _ => []
  | answers + 1, owner =>
    match labelsEnd datagram 128 owner with
    | none => []
    | some offset =>
      if datagram.length < offset + 10 then []
      else if datagram.length < offset + 10 + readBE16 datagram.payload (offset + 8) then []
      else
        ⟨owner, readBE16 datagram.payload offset, readBE16 datagram.payload (offset + 2),
            readBE32 datagram.payload (offset + 4), readBE16 datagram.payload (offset + 8),
            offset + 10⟩ ::
          recordsFrom answers (offset + 10 + readBE16 datagram.payload (offset + 8))

/-- The records of the datagram. -/
def Datagram.records : List Record :=
  match questionsEnd datagram (readBE16 datagram.payload 4) 12 with
  | none => []
  | some offset => recordsFrom datagram (readBE16 datagram.payload 6) offset

/-- An address record of the internet class. -/
def Record.isAddress (r : Record) : Bool := decide (r.type = 1 ∧ r.classCode = 1 ∧ r.dataLength = 4)

/-- The datagram says that it is a response without an error. -/
def Datagram.isResponse : Bool :=
  !decide (readBE16 datagram.payload 2 / 2 ^ 15 % 2 = 0 ∨ readBE16 datagram.payload 2 % 16 ≠ 0)

/-- The record whose address is taken. -/
def Datagram.addressRecord : Option Record :=
  if datagram.isResponse then datagram.records.find? Record.isAddress else none

variable {datagram} {σ : Type} {offset : Nat}

theorem u16_of_le (datagram : Datagram D) {n : Nat} (h : n ≤ datagram.length) : u16 n = n := by
  have hlt := datagram.payloadLength.isLt
  exact Nat.mod_eq_of_lt (by simp only [Datagram.length] at h; omega)

theorem fetchByte_eq (h : offset < datagram.length) :
    (fetchByte datagram offset : Code σ Byte) = pure (datagram.payload offset) :=
  require_bind (decide_eq_true h) _

theorem fetch16_eq (h : offset + 2 ≤ datagram.length) :
    (fetch16 datagram offset : Code σ Nat) = pure (readBE16 datagram.payload offset) :=
  require_bind (decide_eq_true h) _

theorem fetch32_eq (h : offset + 4 ≤ datagram.length) :
    (fetch32 datagram offset : Code σ Nat) = pure (readBE32 datagram.payload offset) :=
  require_bind (decide_eq_true h) _

/-- Skipping a name reads inside the payload. -/
theorem skipLabels_eq (labels cursor : Nat) :
    (skipLabels datagram labels cursor : Code σ (Option Nat)) =
      pure (labelsEnd datagram labels cursor) := by
  induction labels generalizing cursor with
  | zero => rfl
  | succ labels ih =>
    unfold skipLabels labelsEnd
    by_cases hin : datagram.length ≤ cursor
    · rw [if_pos hin, if_pos hin]
    rw [if_neg hin, if_neg hin, fetchByte_eq (by omega), done_bind, u16_of_le datagram (by omega)]
    by_cases hzero : datagram.payload cursor = 0
    · rw [if_pos hzero, if_pos hzero]
    rw [if_neg hzero, if_neg hzero]
    by_cases hptr : datagram.payload cursor &&& 0xC0 = 0xC0
    · rw [if_pos hptr, if_pos hptr]
      by_cases hlast : datagram.length ≤ cursor + 1
      · rw [if_pos hlast, if_pos hlast]
      · rw [if_neg hlast, if_neg hlast, u16_of_le datagram (by omega)]
    rw [if_neg hptr, if_neg hptr]
    by_cases hlong : 63 < (datagram.payload cursor).toNat ∨
        datagram.length < cursor + 1 + (datagram.payload cursor).toNat
    · rw [if_pos hlong, if_pos hlong]
    · rw [if_neg hlong, if_neg hlong, u16_of_le datagram (by omega), ih]

theorem skipQuestions_eq (questions offset : Nat) :
    (skipQuestions datagram questions offset : Code σ (Option Nat)) =
      pure (questionsEnd datagram questions offset) := by
  induction questions generalizing offset with
  | zero => rfl
  | succ questions ih =>
    unfold skipQuestions questionsEnd skipName
    rw [skipLabels_eq, done_bind]
    cases labelsEnd datagram 128 offset with
    | none => rfl
    | some next =>
      dsimp only
      by_cases hfit : datagram.length < next + 4
      · rw [if_pos hfit, if_pos hfit]
      · rw [if_neg hfit, if_neg hfit, u16_of_le datagram (by omega), ih]

/-- The query after an answer with these records. -/
def Query.afterRecords (query : Query D) (payload : Buffer) (records : List Record) : Query D :=
  match records.find? Record.isAddress with
  | some r => query.record (readBE32 payload r.dataOffset) r.ttl
  | none => { query with complete := true }

/-- Reading the answers takes the first address record. -/
theorem readAnswers_eq (answers offset : Nat) (query : Query D) :
    readAnswers datagram answers offset query =
      (query.afterRecords datagram.payload (recordsFrom datagram answers offset), .done ()) := by
  induction answers generalizing offset with
  | zero => rfl
  | succ answers ih =>
    unfold readAnswers recordsFrom skipName
    rw [skipLabels_eq, done_bind]
    cases hname : labelsEnd datagram 128 offset with
    | none => rfl
    | some next =>
      dsimp only
      by_cases hhead : datagram.length < next + 10
      · rw [if_pos hhead, if_pos hhead]
        rfl
      rw [if_neg hhead, if_neg hhead, fetch16_eq (by omega), done_bind, fetch16_eq (by omega),
        done_bind, fetch32_eq (by omega), done_bind, fetch16_eq (by omega), done_bind,
        u16_of_le datagram (by omega)]
      by_cases hdata : datagram.length < next + 10 + readBE16 datagram.payload (next + 8)
      · rw [if_pos hdata, if_pos hdata]
        rfl
      rw [if_neg hdata, if_neg hdata]
      by_cases haddr : readBE16 datagram.payload next = 1 ∧
          readBE16 datagram.payload (next + 2) = 1 ∧ readBE16 datagram.payload (next + 8) = 4
      · rw [if_pos haddr, fetch32_eq (by omega), done_bind]
        have hfirst : Record.isAddress ⟨offset, readBE16 datagram.payload next,
            readBE16 datagram.payload (next + 2), readBE32 datagram.payload (next + 4),
            readBE16 datagram.payload (next + 8), next + 10⟩ = true := decide_eq_true haddr
        rw [Query.afterRecords, find?_cons_of_pos hfirst]
        rfl
      · rw [if_neg haddr, u16_of_le datagram (by omega), ih]
        rw [Query.afterRecords, Query.afterRecords, find?_cons_of_neg]
        exact fun h => haddr (of_decide_eq_true h)

/-- The records that are met lie inside the payload. -/
theorem mem_recordsFrom {answers : Nat} {r : Record} (h : r ∈ recordsFrom datagram answers offset) :
    r.dataOffset + r.dataLength ≤ datagram.length := by
  induction answers generalizing offset with
  | zero => cases h
  | succ answers ih =>
    unfold recordsFrom at h
    split at h
    · cases h
    split at h
    · cases h
    split at h
    · cases h
    rcases mem_cons.mp h with rfl | h
    · dsimp only
      omega
    · exact ih h

theorem mem_records {r : Record} (h : r ∈ datagram.records) :
    r.dataOffset + r.dataLength ≤ datagram.length := by
  unfold Datagram.records at h
  split at h
  · cases h
  · exact mem_recordsFrom h

theorem readResponse_eq (query : Query D) (hlen : 12 ≤ datagram.length) :
    readResponse datagram query =
      (match datagram.addressRecord with
        | some r => query.record (readBE32 datagram.payload r.dataOffset) r.ttl
        | none => { query with complete := true }, .done ()) := by
  unfold readResponse
  rw [fetch16_eq (by omega), done_bind]
  by_cases hflags : readBE16 datagram.payload 2 / 2 ^ 15 % 2 = 0 ∨
    readBE16 datagram.payload 2 % 16 ≠ 0
  · have hnone : datagram.addressRecord = none := by
      rw [Datagram.addressRecord, Datagram.isResponse, decide_eq_true hflags]
      rfl
    rw [if_pos hflags, hnone]
    rfl
  have hsome : datagram.addressRecord = datagram.records.find? Record.isAddress := by
    rw [Datagram.addressRecord, Datagram.isResponse, decide_eq_false hflags]
    rfl
  rw [if_neg hflags, fetch16_eq (by omega), done_bind, fetch16_eq (by omega), done_bind,
    skipQuestions_eq, done_bind, hsome, Datagram.records]
  cases questionsEnd datagram (readBE16 datagram.payload 4) 12 with
  | none => rfl
  | some offset => exact readAnswers_eq _ _ _

variable [DecidableEq D]

/-- The datagram comes from the server that was asked and has the identifier of the query. -/
def Accepted (query : Query D) (datagram : Datagram D) : Prop :=
  fromServer query datagram = true ∧ 12 ≤ datagram.length ∧
    readBE16 datagram.payload 0 = query.identifier

theorem receiveResponse_of_accepted {query : Query D} (h : Accepted query datagram) :
    receiveResponse datagram query =
      (match datagram.addressRecord with
        | some r => query.record (readBE32 datagram.payload r.dataOffset) r.ttl
        | none => { query with complete := true }, .done ()) := by
  obtain ⟨hserver, hlen, hident⟩ := h
  have hchecks : ¬ (!fromServer query datagram || decide (datagram.length < 12)) = true := by
    rw [hserver, decide_eq_false (by omega)]
    decide
  rw [← readResponse_eq query hlen]
  show respond query datagram query = _
  rw [respond, if_neg hchecks, fetch16_eq (by omega), done_bind, if_neg (not_not.mpr hident)]

theorem receiveResponse_of_not_accepted {query : Query D} (h : ¬ Accepted query datagram) :
    receiveResponse datagram query = (query, .done ()) := by
  show respond query datagram query = _
  rw [respond]
  by_cases hchecks : (!fromServer query datagram || decide (datagram.length < 12)) = true
  · rw [if_pos hchecks]
    rfl
  have hserver : fromServer query datagram = true ∧ 12 ≤ datagram.length := by
    simpa using hchecks
  have hident : readBE16 datagram.payload 0 ≠ query.identifier :=
    fun hid => h ⟨hserver.1, hserver.2, hid⟩
  rw [if_neg hchecks, fetch16_eq (by omega), done_bind, if_pos hident]
  rfl

end Reads

/-! ## Names -/

section Names

variable {D : Type} [DecidableEq D] (datagram : Datagram D)

/-- A name with compression: labels up to a zero, or up to a pointer to the rest of the name. -/
inductive NameAt : Nat → List (List Byte) → Prop where
  | root {offset : Nat} :
      offset < datagram.length →
      datagram.payload offset = 0 →
      NameAt offset []
  | label {offset : Nat} {labels : List (List Byte)} :
      0 < (datagram.payload offset).toNat →
      (datagram.payload offset).toNat ≤ 63 →
      offset + 1 + (datagram.payload offset).toNat ≤ datagram.length →
      NameAt (offset + 1 + (datagram.payload offset).toNat) labels →
      NameAt offset ((range (datagram.payload offset).toNat).map
        (fun k => datagram.payload (offset + 1 + k)) :: labels)
  | pointer {offset : Nat} {labels : List (List Byte)} :
      datagram.payload offset &&& 0xC0 = 0xC0 →
      offset + 1 < datagram.length →
      NameAt ((datagram.payload offset &&& 0x3F).toNat * 256 +
        (datagram.payload (offset + 1)).toNat) labels →
      NameAt offset labels

/-- Names are compared without regard to case. -/
def SameName (a b : List (List Byte)) : Prop := a.map (·.map toLower) = b.map (·.map toLower)

variable (asked : List (List Byte))

/-- The question section is the name. -/
def QuestionIs : Prop :=
  readBE16 datagram.payload 4 = 1 ∧ ∃ labels, NameAt datagram 12 labels ∧ SameName labels asked

/-- The name itself, and what alias records of the answer lead to. -/
inductive Reached (asked : List (List Byte)) : List (List Byte) → Prop where
  | asked : Reached asked asked
  | alias {name owner target : List (List Byte)} {r : Record} :
      Reached asked name →
      r ∈ datagram.records →
      r.type = 5 ∧ r.classCode = 1 →
      NameAt datagram r.owner owner →
      SameName owner name →
      NameAt datagram r.dataOffset target →
      Reached asked target

/-- The owner of the record is reached from the name. -/
def OwnerReached (r : Record) : Prop :=
  ∃ owner name, NameAt datagram r.owner owner ∧ Reached datagram asked name ∧ SameName owner name

/-- The address is the data of an address record inside the payload, whose owner is reached. -/
def AddressFor (address : Nat) : Prop :=
  ∃ r ∈ datagram.records, r.isAddress = true ∧ r.dataOffset + 4 ≤ datagram.length ∧
    readBE32 datagram.payload r.dataOffset = address ∧ OwnerReached datagram asked r

/-- The call records an address: it sets `found`, which it does not read. -/
def Records (query : Query D) : Prop :=
  (Query.receive { query with found := false } datagram).found = true

/--
If an address would be taken from the datagram, its question is the name, and an address record with
that address belongs to the name.
-/
def Truthful : Prop :=
  ∀ r, datagram.addressRecord = some r → QuestionIs datagram asked ∧
    ∃ r' ∈ datagram.records, r'.isAddress = true ∧
      readBE32 datagram.payload r'.dataOffset = readBE32 datagram.payload r.dataOffset ∧
      OwnerReached datagram asked r'

variable {datagram}

/-- An address is recorded from every datagram that is accepted and has an address record. -/
theorem records_iff {query : Query D} :
    Records datagram query ↔ Accepted query datagram ∧ ∃ r, datagram.addressRecord = some r := by
  have hsame : Accepted { query with found := false } datagram ↔ Accepted query datagram := Iff.rfl
  unfold Records Query.receive
  by_cases h : Accepted query datagram
  · rw [receiveResponse_of_accepted (hsame.mpr h)]
    cases datagram.addressRecord with
    | none => simp
    | some r => simp [h, Query.record]
  · rw [receiveResponse_of_not_accepted fun h' => h (hsame.mp h')]
    simp [h]

theorem receive_address {query : Query D} {r : Record} (h : Accepted query datagram)
    (hr : datagram.addressRecord = some r) :
    (query.receive datagram).address = readBE32 datagram.payload r.dataOffset := by
  rw [Query.receive, receiveResponse_of_accepted h, hr]
  rfl

/--
`receive_response` stays inside the payload and returns; the address it records is one for the name
that was asked if and only if the datagrams it accepts are truthful.
-/
theorem receiveResponse_truthful_iff
    (query : Query D)
    (datagram : Datagram D)
    (asked : List (List Byte)) :
    (∃ query', receiveResponse datagram query = (query', .done ())) ∧
    ((Records datagram query → Accepted query datagram ∧ QuestionIs datagram asked ∧
        AddressFor datagram asked (query.receive datagram).address) ↔
      (Accepted query datagram → Truthful datagram asked)) := by
  refine ⟨?_, ?_, ?_⟩
  · by_cases h : Accepted query datagram
    · exact ⟨_, receiveResponse_of_accepted h⟩
    · exact ⟨_, receiveResponse_of_not_accepted h⟩
  · intro h haccepted r hr
    obtain ⟨_, hquestion, r', hmem, haddr, _, hdata, howner⟩ :=
      h (records_iff.mpr ⟨haccepted, r, hr⟩)
    exact ⟨hquestion, r', hmem, haddr, hdata.trans (receive_address haccepted hr), howner⟩
  intro h hrecords
  obtain ⟨haccepted, r, hr⟩ := records_iff.mp hrecords
  obtain ⟨hquestion, r', hmem, haddr, hdata, howner⟩ := h haccepted r hr
  refine ⟨haccepted, hquestion, r', hmem, haddr, ?_, ?_, howner⟩
  · have hinside := mem_records hmem
    have hfour := (of_decide_eq_true haddr).2.2
    rwa [hfour] at hinside
  · rw [receive_address haccepted hr, hdata]

end Names

/-! ## An answer for another name -/

/-- A response with the question and an address record for the name of one letter `b`. -/
def otherAnswer : Datagram Unit where
  device := ()
  sourceAddress := 1
  sourcePort := 53
  payload := fun i =>
    [0, 7, 0x80, 0, 0, 1, 0, 1, 0, 0, 0, 0, 1, 98, 0, 0, 1, 0, 1, 0xC0, 12, 0, 1, 0, 1, 0, 0, 1, 0,
      0, 4, 10, 0, 0, 9].getD i 0
  payloadLength := 35

/-- The query for the name of one letter `a`. -/
def letterQuery : Query Unit := ⟨some (), 1, 7, true, false, false, 0, 0⟩

/-- The address of another name is recorded. -/
theorem otherAnswer_recorded :
    Records otherAnswer letterQuery ∧ ¬ QuestionIs otherAnswer [[97]] := by
  refine ⟨by unfold Records; decide, ?_⟩
  rintro ⟨_, labels, hname, hsame⟩
  cases hname with
  | root _ hzero => exact absurd hzero (by decide)
  | pointer hbits => exact absurd hbits (by decide)
  | label _ _ _ hrest =>
    have hfirst := (cons.inj hsame).1
    exact absurd hfirst (by decide)

end PureCOS.Dns
