import Quarks.Cloud.Network
import Quarks.Basis.Traced

/-!
# What a frame makes a node read

A node takes the size that a frame announces for granted, and the payload for a text that ends
with a zero. What it reads for a frame stays inside exactly if the frame is as long as it
announces and its payload has a zero. The frames of the other nodes are like that.
-/

namespace Quarks

open Basis

/-! ## The code -/

/-- Where a node reads: in the frame, in the payload of a `DecodedMsg`, or in the buffer of an
`EncodedMsg` that it sends on. -/
inductive Region
  | frame
  | payload
  | encoded
  deriving DecidableEq

/-- What a node does in memory. -/
inductive FrameEvent
  | read (region : Region) (index : ℕ)
  | badAlloc
  deriving DecidableEq

/-- `memcpy` from a region. -/
def readBytes (region : Region) (s : Bytes) (start count : ℕ) : Traced FrameEvent Bytes :=
  ⟨(List.range' start count).map (.read region),
    if start + count ≤ s.length then some ((s.drop start).take count) else none⟩

/-- The text from a place on is read up to its zero. If it has none, it is read on behind the end
of the region. -/
def readCStr (region : Region) (s : Bytes) (start : ℕ) : Traced FrameEvent Bytes :=
  ⟨(List.range' start ((cstr (s.drop start)).length + 1)).map (.read region),
    if (s.drop start).contains 0 then some (cstr (s.drop start)) else none⟩

/-- The size that a frame announces. -/
def announcedSize (frame : Bytes) : ℕ := ofLittleEndian (frame.take 8)

section

-- whether so many characters can be allocated
variable (alloc : ℕ → Bool)

/-- `new char[count]`. No handler catches `std::bad_alloc`. -/
def newChars (count : ℕ) : Traced FrameEvent Unit :=
  if alloc count then pure ()
  else do
    .emit .badAlloc
    .goWrong

/-- The constructor of `DecodedMsg`. Its last line writes the payload to `std::cout`. -/
def decodeFrame (frame : Bytes) : Traced FrameEvent Bytes := do
  let sz := ofLittleEndian (← readBytes .frame frame 0 8)
  newChars alloc sz
  let payload ← readBytes .frame frame 8 sz
  let _ ← readCStr .payload payload 0
  return payload

/-- The constructor of `EncodedMsg`, from a payload. Its last line writes the text behind the size
to `std::cout`. -/
def encodeFrame (payload : Bytes) : Traced FrameEvent Bytes := do
  newChars alloc ((8 + payload.length) % 2 ^ 64)
  let text ← readBytes .payload payload 0 payload.length
  let encoded := littleEndian 8 payload.length ++ text
  let _ ← readCStr .encoded encoded 8
  return encoded

/-- A frame that is sent on is copied from the buffer of the `EncodedMsg`. -/
def sendFrame (payload : Bytes) : Traced FrameEvent (List Bytes) := do
  let encoded ← encodeFrame alloc payload
  return [← readBytes .encoded encoded 0 encoded.length]

/-- `QCWriter::onRead` and `QCReader::onRead`: what they hand to `qcSave` and its parser reads, if
they do. -/
def onReadText (save : Bool) (payload : Bytes) : Traced FrameEvent (List Bytes) := do
  let _ ← readCStr .payload payload 0
  if save then return [← readCStr .payload payload 0] else return []

/-- Something that is only done if a flag is set. -/
def onlyIf (flag : Bool) (run : Traced FrameEvent (List Bytes)) : Traced FrameEvent (List Bytes) :=
  if flag then run else pure []

/-- The places where a node receives a frame: the loop of a broker, the presence report of a
writer, the loop of a writer, the reply that it waits for there, and the loop of a reader. -/
inductive Receiver
  | broker (sinkMode : Bool)
  | writerReport
  | writer (brokerConnected writerChain firstInChain lastInChain sinkConnected : Bool)
  | writerReply
  | reader

/-- What comes of a frame: the frames that are sent on, and the texts of records that are saved. -/
structure Received where
  sent : List Bytes
  saved : List Bytes

/-- What a node does with a frame that it has received. -/
def receive : Receiver → Bytes → Traced FrameEvent Received
  | .broker sinkMode, frame => do
    let req ← decodeFrame alloc frame
    let _ ← readBytes .payload req 0 (min req.length 1024)
    let encoded ← encodeFrame alloc req
    let send ← readBytes .encoded encoded 0 encoded.length
    let _ ← readCStr .encoded encoded 8
    return ⟨if sinkMode then [send] else [send, encodedMsg brokerOk], []⟩
  | .writerReport, frame | .writerReply, frame => do
    let rep ← decodeFrame alloc frame
    let saved ← onReadText false rep
    return ⟨[], saved⟩
  | .writer brokerConnected writerChain firstInChain lastInChain sinkConnected, frame => do
    let req ← decodeFrame alloc frame
    if brokerConnected then
      let encoded ← encodeFrame alloc req
      let send ← readBytes .encoded encoded 0 encoded.length
      let _ ← readCStr .encoded encoded 8
      return ⟨[send], []⟩
    else
      let saved ← onlyIf (writerChain && !firstInChain) (onReadText true req)
      let chained ← onlyIf (writerChain && !lastInChain) (sendFrame alloc req)
      let sunk ← onlyIf sinkConnected (sendFrame alloc req)
      return ⟨chained ++ sunk, saved⟩
  | .reader, frame => do
    let msg ← decodeFrame alloc frame
    let saved ← onReadText true msg
    return ⟨[], saved⟩

end

/-! ## Reads inside -/

/-- How far a region reaches, for a frame. -/
def regionSize (frame : Bytes) : Region → ℕ
  | .frame => frame.length
  | .payload => announcedSize frame
  | .encoded => 8 + announcedSize frame

/-- A read that stays inside its region. -/
def Inside (frame : Bytes) (e : FrameEvent) : Prop :=
  ∀ region index, e = .read region index → index < regionSize frame region

/-- The payload that a frame holds, as far as it reaches. -/
def payloadOf (frame : Bytes) : Bytes := (frame.drop 8).take (announcedSize frame)

/-- The frame announces its size. If so much can be allocated, it is as long as it announces and
its payload has a zero. -/
def FrameIsSound (alloc : ℕ → Bool) (frame : Bytes) : Prop :=
  8 ≤ frame.length ∧ (alloc (announcedSize frame) = true →
    announcedSize frame ≤ frame.length - 8 ∧ (0 : UInt8) ∈ payloadOf frame)

section

variable {alloc : ℕ → Bool} {frame s : Bytes} {region : Region} {start count : ℕ}

theorem length_payloadOf (h : announcedSize frame ≤ frame.length - 8) :
    (payloadOf frame).length = announcedSize frame := by
  rw [payloadOf, List.length_take, List.length_drop]
  omega

theorem inside_read {index : ℕ} :
    Inside frame (.read region index) ↔ index < regionSize frame region := by
  constructor
  · exact fun h => h region index rfl
  · rintro h _ _ ⟨⟩
    exact h

theorem inside_badAlloc : Inside frame .badAlloc := fun _ _ h => by cases h

/-- Some reads one after another stay inside if the last one does. -/
theorem all_inside_reads {r : Traced FrameEvent Bytes}
    (hr : r.events = (List.range' start count).map (.read region))
    (h : start + count ≤ regionSize frame region) : r.All (Inside frame) := by
  intro e he
  rw [hr] at he
  obtain ⟨index, hindex, rfl⟩ := List.mem_map.mp he
  rw [List.mem_range'_1] at hindex
  exact inside_read.mpr (by omega)

theorem readBytes_all (h : start + count ≤ regionSize frame region) :
    (readBytes region s start count).All (Inside frame) :=
  all_inside_reads rfl h

theorem readBytes_ends : (readBytes region s start count).Ends
    fun t => start + count ≤ s.length ∧ t = (s.drop start).take count := by
  intro t ht
  simp only [readBytes] at ht
  split at ht
  · next hle => exact ⟨hle, (Option.some.inj ht).symm⟩
  · cases ht

/-- A text with a zero is not read behind it. -/
theorem length_cstr_lt (h : (0 : UInt8) ∈ s) : (cstr s).length < s.length := by
  refine lt_of_le_of_ne (List.takeWhile_prefix _).length_le fun heq => ?_
  have hall : cstr s = s := (List.takeWhile_prefix _).eq_of_length heq
  exact zero_not_mem_cstr s (hall.symm ▸ h)

theorem readCStr_all (hzero : (0 : UInt8) ∈ s.drop start) (h : s.length ≤ regionSize frame region) :
    (readCStr region s start).All (Inside frame) := by
  refine all_inside_reads rfl ?_
  have hlt := length_cstr_lt hzero
  rw [List.length_drop] at hlt
  omega

theorem newChars_all : (newChars alloc count).All (Inside frame) := by
  unfold newChars
  split
  · exact Traced.all_pure ()
  · exact Traced.all_emit_bind.mpr ⟨inside_badAlloc, Traced.all_goWrong⟩

theorem newChars_ends : (newChars alloc count).Ends fun _ => alloc count = true := by
  unfold newChars
  split
  · next h => exact .pure h
  · exact Traced.ends_true.bind fun _ _ => Traced.ends_goWrong

/-- A payload that a node goes on with. -/
structure IsPayload (frame payload : Bytes) : Prop where
  size : payload.length = announcedSize frame
  zero : (0 : UInt8) ∈ payload

theorem decodeFrame_ends (h : FrameIsSound alloc frame) :
    (decodeFrame alloc frame).Ends (IsPayload frame) := by
  refine readBytes_ends.bind fun size hsize => newChars_ends.bind fun _ halloc =>
    readBytes_ends.bind fun payload hpayload => Traced.ends_true.bind fun _ _ => .pure ?_
  rw [hsize.2] at halloc hpayload
  obtain ⟨hle, hzero⟩ := h.2 halloc
  obtain rfl : payload = payloadOf frame := hpayload.2
  exact ⟨length_payloadOf hle, hzero⟩

theorem decodeFrame_all (h : FrameIsSound alloc frame) :
    (decodeFrame alloc frame).All (Inside frame) := by
  refine (readBytes_all h.1).bind readBytes_ends fun size hsize => ?_
  refine newChars_all.bind newChars_ends fun _ halloc => ?_
  obtain rfl : size = frame.take 8 := hsize.2
  obtain ⟨hle, hzero⟩ := h.2 halloc
  have hlen := h.1
  have hfits : 8 + announcedSize frame ≤ regionSize frame .frame := by
    change 8 + announcedSize frame ≤ frame.length
    omega
  refine (readBytes_all hfits).bind readBytes_ends fun payload hpayload => ?_
  obtain rfl : payload = payloadOf frame := hpayload.2
  have hsize : (payloadOf frame).length ≤ regionSize frame .payload := List.length_take_le _ _
  exact Traced.All.bind (readCStr_all hzero hsize) Traced.ends_true fun _ _ => Traced.all_pure _

variable {payload encoded : Bytes}

/-- The buffer of an `EncodedMsg` with a payload. -/
structure IsEncoded (frame encoded : Bytes) : Prop where
  size : encoded.length = 8 + announcedSize frame
  zero : (0 : UInt8) ∈ encoded.drop 8

theorem isEncoded (h : IsPayload frame payload) :
    IsEncoded frame (littleEndian 8 payload.length ++ payload) := by
  have hsize : (littleEndian 8 payload.length).length = 8 := length_littleEndian 8 _
  refine ⟨by rw [List.length_append, hsize, h.size], ?_⟩
  rw [List.drop_left' hsize]
  exact h.zero

theorem payloadText_ends (h : IsPayload frame payload) :
    (readBytes region payload 0 payload.length).Ends (IsPayload frame) := by
  refine fun text htext => ?_
  obtain ⟨-, rfl⟩ := readBytes_ends text htext
  rw [List.drop_zero, List.take_length]
  exact h

theorem payloadText_all (h : IsPayload frame payload) {n : ℕ} (hn : n ≤ payload.length) :
    (readBytes .payload payload 0 n).All (Inside frame) :=
  readBytes_all (by rw [Nat.zero_add]; exact hn.trans h.size.le)

theorem payloadCStr_all (h : IsPayload frame payload) :
    (readCStr .payload payload 0).All (Inside frame) :=
  readCStr_all h.zero h.size.le

theorem encodedText_all (h : IsEncoded frame encoded) :
    (readBytes .encoded encoded 0 encoded.length).All (Inside frame) :=
  readBytes_all (by rw [Nat.zero_add]; exact h.size.le)

theorem encodedCStr_all (h : IsEncoded frame encoded) :
    (readCStr .encoded encoded 8).All (Inside frame) :=
  readCStr_all h.zero h.size.le

theorem encodeFrame_all (h : IsPayload frame payload) :
    (encodeFrame alloc payload).All (Inside frame) := by
  refine newChars_all.bind Traced.ends_true fun _ _ => ?_
  refine (payloadText_all h le_rfl).bind (payloadText_ends h) fun text htext => ?_
  have hencoded := isEncoded htext
  rw [htext.size, ← h.size] at hencoded
  exact (encodedCStr_all hencoded).bind Traced.ends_true fun _ _ => Traced.all_pure _

theorem encodeFrame_ends (h : IsPayload frame payload) :
    (encodeFrame alloc payload).Ends (IsEncoded frame) := by
  refine Traced.ends_true.bind fun _ _ => (payloadText_ends h).bind fun text htext => ?_
  have hencoded := isEncoded htext
  rw [htext.size, ← h.size] at hencoded
  exact Traced.ends_true.bind fun _ _ => .pure hencoded

theorem sendFrame_all (h : IsPayload frame payload) :
    (sendFrame alloc payload).All (Inside frame) :=
  (encodeFrame_all h).bind (encodeFrame_ends h) fun _ hencoded =>
    (encodedText_all hencoded).bind Traced.ends_true fun _ _ => Traced.all_pure _

theorem onReadText_all (h : IsPayload frame payload) (save : Bool) :
    (onReadText save payload).All (Inside frame) := by
  refine (payloadCStr_all h).bind Traced.ends_true fun _ _ => ?_
  split
  · exact (payloadCStr_all h).bind Traced.ends_true fun _ _ => Traced.all_pure _
  · exact Traced.all_pure _

theorem onlyIf_all {flag : Bool} {run : Traced FrameEvent (List Bytes)}
    (h : run.All (Inside frame)) : (onlyIf flag run).All (Inside frame) := by
  unfold onlyIf
  split
  · exact h
  · exact Traced.all_pure _

/-- What a node does with a sound frame reads inside. -/
theorem receive_all (h : FrameIsSound alloc frame) (receiver : Receiver) :
    (receive alloc receiver frame).All (Inside frame) := by
  have hdecode := decodeFrame_all h
  have hpayload := decodeFrame_ends h
  have hforward : ∀ {req : Bytes} {f : Bytes → Received}, IsPayload frame req →
      (do
        let encoded ← encodeFrame alloc req
        let send ← readBytes .encoded encoded 0 encoded.length
        let _ ← readCStr .encoded encoded 8
        return f send : Traced FrameEvent Received).All (Inside frame) := fun hreq =>
    (encodeFrame_all hreq).bind (encodeFrame_ends hreq) fun encoded hencoded =>
      (encodedText_all hencoded).bind Traced.ends_true fun _ _ =>
        (encodedCStr_all hencoded).bind Traced.ends_true fun _ _ => Traced.all_pure _
  cases receiver with
  | broker sinkMode =>
    refine hdecode.bind hpayload fun req hreq => ?_
    exact (payloadText_all hreq (min_le_left _ _)).bind Traced.ends_true fun _ _ => hforward hreq
  | writerReport | writerReply | reader =>
    refine hdecode.bind hpayload fun req hreq => ?_
    exact (onReadText_all hreq _).bind Traced.ends_true fun _ _ => Traced.all_pure _
  | writer brokerConnected writerChain firstInChain lastInChain sinkConnected =>
    refine hdecode.bind hpayload fun req hreq => ?_
    split
    · exact hforward hreq
    · exact (onlyIf_all (onReadText_all hreq true)).bind Traced.ends_true fun _ _ =>
        (onlyIf_all (sendFrame_all hreq)).bind Traced.ends_true fun _ _ =>
          (onlyIf_all (sendFrame_all hreq)).bind Traced.ends_true fun _ _ => Traced.all_pure _

/-! ## Sound frames -/

theorem newChars_result :
    (newChars alloc count).result = if alloc count then some () else none := by
  unfold newChars
  split <;> rfl

/-- Of a sound frame with room for it the payload is yielded. -/
theorem decodeFrame_result (h : FrameIsSound alloc frame)
    (halloc : alloc (announcedSize frame) = true) :
    (decodeFrame alloc frame).result = some (payloadOf frame) ∧
      decodedMsg frame = .ok (payloadOf frame) := by
  obtain ⟨hlen, hsound⟩ := h
  obtain ⟨hle, hzero⟩ := hsound halloc
  refine ⟨?_, if_pos ⟨hlen, hle⟩⟩
  have hsize : (readBytes .frame frame 0 8).result = some (frame.take 8) := if_pos hlen
  have hpayload : (readBytes .frame frame 8 (ofLittleEndian (frame.take 8))).result =
      some (payloadOf frame) := if_pos (by rw [announcedSize] at hle; omega)
  have hcontains : ((payloadOf frame).drop 0).contains 0 = true :=
    List.contains_iff_mem.mpr hzero
  have hprint : (readCStr .payload (payloadOf frame) 0).result = some (cstr (payloadOf frame)) :=
    if_pos hcontains
  rw [announcedSize] at halloc
  unfold decodeFrame
  simp only [Traced.result_bind, hsize, Option.bind_some, newChars_result, halloc, if_true,
    hpayload, hprint, Traced.result_pure]

/-- A frame whose decoding reads inside only is sound. -/
theorem frameIsSound_of_all (h : (decodeFrame alloc frame).All (Inside frame)) :
    FrameIsSound alloc frame := by
  unfold decodeFrame at h
  obtain ⟨hsize, h⟩ := Traced.all_bind.mp h
  have hlen : 7 < frame.length := inside_read.mp (hsize (.read .frame 7) (by simp [readBytes]))
  refine ⟨hlen, fun halloc => ?_⟩
  have hnew := (Traced.all_bind.mp (h (frame.take 8) (if_pos hlen))).2 ()
    (newChars_result.trans (if_pos halloc))
  obtain ⟨hcopy, h⟩ := Traced.all_bind.mp hnew
  have hle : announcedSize frame ≤ frame.length - 8 := by
    by_contra hgt
    have hmem : FrameEvent.read .frame frame.length ∈
        (readBytes .frame frame 8 (announcedSize frame)).events :=
      List.mem_map_of_mem (List.mem_range'_1.mpr (by omega))
    exact absurd (inside_read.mp (hcopy _ hmem)) (lt_irrefl _)
  refine ⟨hle, ?_⟩
  have hprint := (Traced.all_bind.mp (h (payloadOf frame)
    (if_pos (by rw [announcedSize] at hle; omega)))).1
  by_contra hzero
  have hmem : FrameEvent.read .payload (announcedSize frame) ∈
      (readCStr .payload (payloadOf frame) 0).events := by
    have hlength := length_payloadOf hle
    refine List.mem_map_of_mem (List.mem_range'_1.mpr ?_)
    rw [List.drop_zero, cstr_eq_self hzero, hlength]
    omega
  exact absurd (inside_read.mp (hprint _ hmem)) (lt_irrefl _)

/-- Without room for the payload the constructor throws. -/
theorem badAlloc_of_no_room (hlen : 8 ≤ frame.length)
    (halloc : alloc (announcedSize frame) ≠ true) :
    FrameEvent.badAlloc ∈ (decodeFrame alloc frame).events := by
  by_contra hno
  have hall : (decodeFrame alloc frame).All (· ≠ .badAlloc) := fun e he heq => hno (heq ▸ he)
  have hrest := (Traced.all_bind.mp hall).2 (frame.take 8) (if_pos hlen)
  have hnew := (Traced.all_bind.mp hrest).1
  rw [announcedSize] at halloc
  rw [newChars, if_neg halloc] at hnew
  exact (Traced.all_emit_bind.mp hnew).1 rfl

theorem announcedSize_encodedMsg {m : Bytes} (h : m.length < 2 ^ 64) :
    announcedSize (encodedMsg m) = m.length := by
  rw [announcedSize, encodedMsg, List.take_left' (length_littleEndian 8 _)]
  exact ofLittleEndian_littleEndian (by simpa using h)

theorem decodeFrame_all_of_receive {receiver : Receiver}
    (h : (receive alloc receiver frame).All (Inside frame)) :
    (decodeFrame alloc frame).All (Inside frame) := by
  cases receiver <;> exact (Traced.all_bind.mp h).1

end

/-- A frame is handled safely: all reads stay inside; a payload of the announced size is yielded,
unless there is no room for it; and the frame of a payload yields the payload. -/
structure HandledSafely (alloc : ℕ → Bool) (receiver : Receiver) (frame : Bytes) : Prop where
  inside : (receive alloc receiver frame).All (Inside frame)
  yields : FrameEvent.badAlloc ∈ (decodeFrame alloc frame).events ∨
    ∃ payload, (decodeFrame alloc frame).result = some payload ∧
      payload.length = announcedSize frame
  returns : ∀ m : Bytes, m.length < 2 ^ 64 → alloc m.length = true → frame = encodedMsg m →
    (decodeFrame alloc frame).result = some m

/-- A frame is handled safely exactly if it is sound, wherever it is received. -/
theorem handledSafely_iff (alloc : ℕ → Bool) (receiver : Receiver) (frame : Bytes) :
    HandledSafely alloc receiver frame ↔ FrameIsSound alloc frame := by
  refine ⟨fun h => frameIsSound_of_all (decodeFrame_all_of_receive h.inside), fun h => ?_⟩
  refine ⟨receive_all h receiver, ?_, ?_⟩
  · by_cases halloc : alloc (announcedSize frame) = true
    · refine Or.inr ⟨_, (decodeFrame_result h halloc).1, ?_⟩
      exact length_payloadOf (h.2 halloc).1
    · exact Or.inl (badAlloc_of_no_room h.1 halloc)
  · rintro m hm halloc rfl
    rw [← announcedSize_encodedMsg hm] at halloc
    obtain ⟨hresult, hdecoded⟩ := decodeFrame_result h halloc
    rw [decodedMsg_encodedMsg hm] at hdecoded
    exact hresult.trans (congrArg some (Except.ok.inj hdecoded).symm)

/-- A frame of eight bytes that announces one byte more is read behind its end. -/
theorem not_handledSafely_short :
    ¬HandledSafely (fun _ => true) .reader [1, 0, 0, 0, 0, 0, 0, 0] := by
  intro h
  have hread := h.inside (.read .frame 8) (by decide)
  exact absurd (inside_read.mp hread) (by decide)

end Quarks
