import Quarks.Cloud.FrameReads

/-!
# Writers, brokers and readers

A node of the cloud is a writer, a broker or a reader. The URLs that it is given say which sockets
its thread sets up: a writer sends what it consumes to a broker, to a sink or to the next writer
of a chain. A frame goes on as it came, at most once, and its text may be saved.
-/

namespace Quarks

open Basis

/-! ## Roles -/

/-- The sockets of `runWriter`. A broker is not connected within a chain, and a writer of a chain
that is not the last one has no sink. -/
structure WriterSockets where
  producerBound : Bool
  consumerConnected : Bool
  writerChain : Bool
  firstInChain : Bool
  lastInChain : Bool
  sinkConnected : Bool
  brokerConnected : Bool
  unchained : brokerConnected = true → writerChain = false
  sunk_last : writerChain = true → sinkConnected = true → lastInChain = true

/-- The sockets that `runWriter` sets up for its URLs. -/
def runWriter (brokerUrl producerUrl consumerUrl sinkUrl : Bytes) : WriterSockets :=
  let first := decide (brokerUrl = ascii "-")
  let next := decide (brokerUrl = ascii "+")
  let last := decide (brokerUrl = ascii ".")
  let writerChain := first || next || last
  -- The first two kinds of a chain bind the URL of the sink for the next writer.
  let sinkUrl := if first || next then [] else sinkUrl
  { producerBound := decide (producerUrl ≠ ascii "!")
    consumerConnected := decide (consumerUrl ≠ ascii "!")
    writerChain := writerChain
    firstInChain := first
    lastInChain := last
    sinkConnected := decide (sinkUrl ≠ [])
    brokerConnected := !writerChain && decide (brokerUrl ≠ ascii "!")
    unchained := by
      intro h
      have hno := Bool.and_elim_left h
      simpa using hno
    sunk_last := by
      intro hchain hsink
      cases hfirst : first <;> cases hnext : next <;>
        simp_all [writerChain, sinkUrl] }

/-- The URLs that `Core::run` gives to `runWriter`. -/
def writerUrls (producerUrl consumerUrl sinkUrl : Bytes) : Bytes × Bytes × Bytes :=
  (if producerUrl = [] then ascii "tcp://*:5557" else producerUrl,
    if consumerUrl = [] then ascii "tcp://localhost:5557" else consumerUrl,
    if sinkUrl = ascii "x" then ascii "tcp://*:5558"
    else if sinkUrl = ascii "+" then ascii "tcp://localhost:5558" else sinkUrl)

/-- What the thread of a node runs. -/
inductive Role
  | writer (sockets : WriterSockets)
  | broker (sinkMode : Bool)
  | reader

namespace Role

/-- Where the thread receives its frames. -/
def receiver : Role → Receiver
  | writer k =>
    .writer k.brokerConnected k.writerChain k.firstInChain k.lastInChain k.sinkConnected
  | broker sinkMode => .broker sinkMode
  | reader => .reader

/-- The thread saves what it receives. -/
def saves : Role → Bool
  | writer k => !k.brokerConnected && (k.writerChain && !k.firstInChain)
  | broker _ => false
  | reader => true

/-- The thread sends on what it receives. -/
def sends : Role → Bool
  | writer k => k.brokerConnected || (k.writerChain && !k.lastInChain) || k.sinkConnected
  | broker _ => true
  | reader => false

/-- Requests of the node write to a producer socket. -/
def produces : Role → Bool
  | writer k => k.producerBound
  | _ => false

/-- The thread publishes to all that have subscribed. -/
def publishes : Role → Bool
  | broker _ => true
  | _ => false

/-- The thread receives frames at all. -/
def receives : Role → Bool
  | writer k => k.consumerConnected
  | _ => true

/-- The thread sends by requests, and waits for the reply to each of them. -/
def requests : Role → Bool
  | writer k => k.brokerConnected
  | _ => false

/-- The thread replies to what it receives. -/
def replies : Role → Bool
  | broker sinkMode => !sinkMode
  | _ => false

/-- What the thread does with a frame, where memory is not short. -/
def handle (role : Role) (frame : Bytes) : Option Received :=
  (receive (fun _ => true) role.receiver frame).result

/-- Of the frames that it sends, those that go on. -/
def forwarded (role : Role) (out : Received) : List Bytes :=
  if role.replies then out.sent.take 1 else out.sent

/-- Of the frames that it sends, those that go back. -/
def replied (role : Role) (out : Received) : List Bytes :=
  if role.replies then out.sent.drop 1 else []

end Role

/-! ## What becomes of a frame -/

section

variable {frame payload msg : Bytes} {region : Region}

theorem readCStr_result {s : Bytes} {start : ℕ} (h : (0 : UInt8) ∈ s.drop start) :
    (readCStr region s start).result = some (cstr (s.drop start)) :=
  if_pos (List.contains_iff_mem.mpr h)

theorem readAll_result (s : Bytes) : (readBytes region s 0 s.length).result = some s := by
  rw [readBytes, if_pos (Nat.zero_add _).le, List.drop_zero, List.take_length]

theorem encodeFrame_result (hzero : (0 : UInt8) ∈ payload) :
    (encodeFrame (fun _ => true) payload).result = some (encodedMsg payload) := by
  have hdrop : (encodedMsg payload).drop 8 = payload := List.drop_left' (length_littleEndian 8 _)
  have hprint : (readCStr .encoded (encodedMsg payload) 8).result = some (cstr payload) := by
    rw [readCStr_result (by rwa [hdrop]), hdrop]
  rw [encodedMsg] at hprint ⊢
  simp only [encodeFrame, Traced.result_bind, newChars_result, if_true, Option.bind_some,
    readAll_result, hprint, Traced.result_pure]

theorem sendFrame_result (hzero : (0 : UInt8) ∈ payload) :
    (sendFrame (fun _ => true) payload).result = some [encodedMsg payload] := by
  simp only [sendFrame, Traced.result_bind, encodeFrame_result hzero, Option.bind_some,
    readAll_result, Traced.result_pure]

theorem decodeFrame_encodedMsg (hsize : msg.length < 2 ^ 64) (hzero : (0 : UInt8) ∈ msg) :
    (decodeFrame (fun _ => true) (encodedMsg msg)).result = some msg := by
  have hannounced := announcedSize_encodedMsg hsize
  have hlength : (encodedMsg msg).length = 8 + msg.length := by
    rw [encodedMsg, List.length_append, length_littleEndian]
  have hpayload : payloadOf (encodedMsg msg) = msg := by
    rw [payloadOf, hannounced, encodedMsg, List.drop_left' (length_littleEndian 8 _),
      List.take_length]
  have hsound : FrameIsSound (fun _ => true) (encodedMsg msg) := by
    refine ⟨by omega, fun _ => ⟨by omega, ?_⟩⟩
    rwa [hpayload]
  rw [(decodeFrame_result hsound rfl).1, hpayload]

theorem onReadText_result (save : Bool) (hzero : (0 : UInt8) ∈ payload) :
    (onReadText save payload).result = some (if save then [cstr payload] else []) := by
  have hread : (readCStr .payload payload 0).result = some (cstr payload) :=
    readCStr_result hzero
  cases save <;>
    simp [onReadText, Traced.result_bind, hread, Traced.result_pure]

theorem onlyIf_result (flag : Bool) {run : Traced FrameEvent (List Bytes)} {out : List Bytes}
    (h : run.result = some out) :
    (onlyIf flag run).result = some (if flag then out else []) := by
  cases flag
  · rfl
  · exact h

/-- What a thread does with the frame of a message. -/
def Role.response (role : Role) (msg : Bytes) : Received where
  sent := (if role.sends then [encodedMsg msg] else []) ++
    if role.replies then [encodedMsg brokerOk] else []
  saved := if role.saves then [cstr msg] else []

/-- A thread sends a message on at most once, as it was, and saves its text. -/
theorem Role.handle_encodedMsg (role : Role) (hsize : msg.length < 2 ^ 64)
    (hzero : (0 : UInt8) ∈ msg) : role.handle (encodedMsg msg) = some (role.response msg) := by
  have hdecode := decodeFrame_encodedMsg hsize hzero
  have hencode := encodeFrame_result hzero
  have hcopy := @readAll_result .encoded (encodedMsg msg)
  have hprint : (readCStr .encoded (encodedMsg msg) 8).result = some (cstr msg) := by
    have hdrop : (encodedMsg msg).drop 8 = msg := List.drop_left' (length_littleEndian 8 _)
    rw [readCStr_result (by rwa [hdrop]), hdrop]
  cases role with
  | writer k =>
    obtain ⟨bound, connected, chain, first, last, sink, broker, hunchained, hlast⟩ := k
    have hsave := onlyIf_result (chain && !first) (onReadText_result true hzero)
    have hchained := onlyIf_result (chain && !last) (sendFrame_result hzero)
    have hsunk := onlyIf_result sink (sendFrame_result hzero)
    cases broker with
    | true =>
      simp only [handle, receiver, receive, Traced.result_bind, hdecode, Option.bind_some, hencode,
        hcopy, hprint, if_true, Traced.result_pure]
      rfl
    | false =>
      simp only [handle, receiver, receive, Traced.result_bind, hdecode, Option.bind_some, hsave,
        hchained, hsunk, Bool.false_eq_true, if_false, Traced.result_pure]
      cases chain <;> cases first <;> cases last <;> cases sink <;>
        first | rfl | exact absurd (hlast rfl rfl) (by decide)
  | broker sinkMode =>
    have htake : min msg.length 1024 ≤ msg.length := min_le_left _ _
    have hlog : (readBytes .payload msg 0 (min msg.length 1024)).result =
        some ((msg.drop 0).take (min msg.length 1024)) := if_pos (by omega)
    simp only [handle, receiver, receive, Traced.result_bind, hdecode, Option.bind_some, hlog,
      hencode, hcopy, hprint, Traced.result_pure]
    cases sinkMode <;> rfl
  | reader =>
    simp only [handle, receiver, receive, Traced.result_bind, hdecode, Option.bind_some,
      onReadText_result true hzero, Traced.result_pure]
    rfl

end

end Quarks
