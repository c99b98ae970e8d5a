import Quarks.Cloud.Frames
import Quarks.Replay
import Mathlib.Logic.Relation

/-!
# A writer, a broker and a reader

A writer node hands each record that it publishes to its producer socket. Its own thread
takes the frames from there and sends them on to the broker, which publishes them to the
readers. Each hop decodes a frame and encodes it again. The channels keep the order of the
frames and lose none; the nodes and the broker take their steps in any order.
-/

namespace Quarks

open Basis

/-- How a writer reaches the broker: by requests, each of which is replied to, or through
the sink. -/
inductive BrokerMode
  | request
  | sink
  deriving DecidableEq

/-- The texts of the frames that carry no record, with their final zeros. -/
def presence : Bytes := ascii "reportwriter" ++ [0]

def brokerOk : Bytes := ascii "brokerok" ++ [0]

/-- The three parties and the frames between them. -/
structure Cloud where
  writer : World
  /-- from the producer socket of the writer to its consumer socket -/
  produced : List Bytes
  /-- from the writer to the broker -/
  toBroker : List Bytes
  /-- from the broker to the writer -/
  replies : List Bytes
  /-- The thread of the writer waits for a reply. -/
  awaiting : Bool
  /-- from the broker to the reader -/
  toReader : List Bytes
  reader : World

/-- A writer that has just been started. To a broker that replies it reports its presence. -/
def Cloud.start (mode : BrokerMode) (writer reader : World) : Cloud :=
  match mode with
  | .request => ⟨writer, [], [encodedMsg presence], [], true, [], reader⟩
  | .sink => ⟨writer, [], [], [], false, [], reader⟩

section

variable [HashOrder] (c cr : Config) (mode : BrokerMode)

/-- `QCReader::onRead`: the text of the payload ends at its first zero. -/
def onRead (payload : Bytes) (w : World) : World := step cr noFaults w (.qcSave (cstr payload))

/-- The texts that a request makes the writer hand to `Interface::write`: the records that it
publishes, with a final zero. -/
def newMsgs (w : World) (r : Request) : List Bytes :=
  ((step c noFaults w r).node.published.drop w.node.published.length).map (· ++ [0])

/-- One step of one of the parties. -/
inductive CloudStep : Cloud → Cloud → Prop
  /-- The writer serves a request. A text in memory has a size. -/
  | serve (s : Cloud) (r : Request) (hr : r.isLocal = true)
      (hsize : ∀ msg ∈ newMsgs c s.writer r, msg.length < 2 ^ 64) :
      CloudStep s { s with
        writer := step c noFaults s.writer r
        produced := s.produced ++ (newMsgs c s.writer r).map encodedMsg }
  /-- The thread of the writer sends a frame on. -/
  | relay (s : Cloud) {frame msg : Bytes} {rest : List Bytes} (hfree : s.awaiting = false)
      (hframe : s.produced = frame :: rest) (hmsg : decodedMsg frame = .ok msg) :
      CloudStep s { s with
        produced := rest
        toBroker := s.toBroker ++ [encodedMsg msg]
        awaiting := decide (mode = .request) }
  /-- The broker publishes a frame, and replies if it was a request. -/
  | publish (s : Cloud) {frame msg : Bytes} {rest : List Bytes}
      (hframe : s.toBroker = frame :: rest) (hmsg : decodedMsg frame = .ok msg) :
      CloudStep s { s with
        toBroker := rest
        toReader := s.toReader ++ [encodedMsg msg]
        replies := if mode = .request then s.replies ++ [encodedMsg brokerOk] else s.replies }
  /-- The thread of the writer takes the reply and goes on. -/
  | reply (s : Cloud) {frame msg : Bytes} {rest : List Bytes} (hwaits : s.awaiting = true)
      (hframe : s.replies = frame :: rest) (hmsg : decodedMsg frame = .ok msg) :
      CloudStep s { s with replies := rest, awaiting := false }
  /-- The reader takes a frame. -/
  | read (s : Cloud) {frame msg : Bytes} {rest : List Bytes}
      (hframe : s.toReader = frame :: rest) (hmsg : decodedMsg frame = .ok msg) :
      CloudStep s { s with toReader := rest, reader := onRead cr msg s.reader }

/-- What a frame on its way to the reader stands for: a change, or none for the presence of
the writer. -/
def messageOf : Option Change → Bytes
  | none => presence
  | some change => change.record ++ [0]

/-- The frames on their way to the reader. -/
def Cloud.inFlight (s : Cloud) : List Bytes := s.toReader ++ s.toBroker ++ s.produced

/-- The frames on their way bring the reader to the database of the writer. -/
def Cloud.CatchesUp (s : Cloud) : Prop :=
  ∃ messages : List (Option Change), s.inFlight = messages.map (encodedMsg ∘ messageOf) ∧
    (∀ message ∈ messages, (messageOf message).length < 2 ^ 64) ∧
    s.writer.node.db = Change.applyAll s.reader.node.db (messages.filterMap id)

end

/-! ## Replication -/

section

variable [HashOrder] {c cr : Config} {mode : BrokerMode} {s s' : Cloud}

theorem zero_not_mem_record (change : Change) : 0 ∉ change.record := by
  cases change with
  | put key value => exact zero_not_mem_dump _
  | remove key => exact zero_not_mem_dump _

/-- A change is made when its record is read; the presence of the writer changes nothing. -/
theorem onRead_messageOf (hdb : cr.dbOk = true) (message : Option Change) (w : World) :
    (onRead cr (messageOf message) w).node.db =
      Change.applyAll w.node.db (message.elim [] fun change => [change]) := by
  cases message with
  | none => rfl
  | some change =>
    have htext : cstr (messageOf (some change)) = change.record :=
      cstr_append_zero (zero_not_mem_record change) []
    rw [onRead, htext, qcSave_record hdb change rfl]
    rfl

/-- A hop leaves a frame as it is. -/
theorem Cloud.CatchesUp.reencoded (h : s.CatchesUp) {frame msg : Bytes}
    (hmem : frame ∈ s.inFlight) (hmsg : decodedMsg frame = .ok msg) : encodedMsg msg = frame := by
  obtain ⟨messages, hframes, hsizes, -⟩ := h
  rw [hframes] at hmem
  obtain ⟨message, hmessage, rfl⟩ := List.mem_map.mp hmem
  rw [Function.comp_apply, decodedMsg_encodedMsg (hsizes message hmessage)] at hmsg
  cases hmsg
  rfl

/-- Every step of a party keeps the reader catching up. -/
theorem Cloud.CatchesUp.step (hwriter : c.writer = true) (hdb : cr.dbOk = true)
    (h : s.CatchesUp) (hstep : CloudStep c cr mode s s') : s'.CatchesUp := by
  have hreencoded := @Cloud.CatchesUp.reencoded _ _ h
  obtain ⟨messages, hframes, hsizes, hagree⟩ := h
  cases hstep with
  | serve r hr hsize =>
    obtain ⟨changes, hchanged, hpublished⟩ := step_publishes hwriter hr s.writer
    have hnew : newMsgs c s.writer r = (changes.map some).map messageOf := by
      rw [newMsgs, hpublished, List.drop_left, List.map_map, List.map_map]
      rfl
    refine ⟨messages ++ changes.map some, ?_, ?_, ?_⟩
    · rw [List.map_append, ← hframes, ← List.map_map, ← hnew]
      simp [Cloud.inFlight]
    · intro message hmessage
      rcases List.mem_append.mp hmessage with hold | hnow
      · exact hsizes message hold
      · exact hsize _ (hnew ▸ List.mem_map_of_mem hnow)
    · rw [hchanged, hagree, List.filterMap_append, Change.applyAll_append]
      simp
  | relay hfree hframe hmsg =>
    refine ⟨messages, ?_, hsizes, hagree⟩
    rw [← hframes]
    simp [Cloud.inFlight, hframe, hreencoded (by simp [Cloud.inFlight, hframe]) hmsg]
  | publish hframe hmsg =>
    refine ⟨messages, ?_, hsizes, hagree⟩
    rw [← hframes]
    simp [Cloud.inFlight, hframe, hreencoded (by simp [Cloud.inFlight, hframe]) hmsg]
  | reply hwaits hframe hmsg => exact ⟨messages, hframes, hsizes, hagree⟩
  | read hframe hmsg =>
    rename_i frame msg rest
    cases messages with
    | nil => simp [Cloud.inFlight, hframe] at hframes
    | cons message messages =>
      have hcons : frame :: (rest ++ s.toBroker ++ s.produced) =
          encodedMsg (messageOf message) :: messages.map (encodedMsg ∘ messageOf) := by
        rw [← Function.comp_apply (f := encodedMsg), ← List.map_cons, ← hframes]
        simp [Cloud.inFlight, hframe]
      obtain ⟨hhead, hrest⟩ := List.cons_eq_cons.mp hcons
      obtain ⟨hfirst, hlater⟩ := List.forall_mem_cons.mp hsizes
      rw [hhead, decodedMsg_encodedMsg hfirst] at hmsg
      cases hmsg
      refine ⟨messages, hrest, hlater, ?_⟩
      rw [hagree]
      change _ = Change.applyAll (onRead cr (messageOf message) s.reader).node.db _
      rw [onRead_messageOf hdb, ← Change.applyAll_append]
      cases message <;> rfl

/-- In every state that is reached the frames on their way bring the reader to the database
of the writer. -/
theorem catchesUp_of_reached (hwriter : c.writer = true) (hdb : cr.dbOk = true)
    {writer reader : World} (hstart : reader.node.db = writer.node.db)
    (hs : Relation.ReflTransGen (CloudStep c cr mode) (.start mode writer reader) s) :
    s.CatchesUp := by
  induction hs with
  | refl =>
    cases mode with
    | request =>
      refine ⟨[none], rfl, ?_, hstart.symm⟩
      intro message hmessage
      rw [List.mem_singleton.mp hmessage]
      change presence.length < 2 ^ 64
      decide
    | sink => exact ⟨[], rfl, by simp, hstart.symm⟩
  | tail _ hstep ih => exact ih.step hwriter hdb hstep

/-- When the reader has taken every frame, its database is that of the writer. -/
theorem reader_eq_writer (hwriter : c.writer = true) (hdb : cr.dbOk = true)
    {writer reader : World} (hstart : reader.node.db = writer.node.db)
    (hs : Relation.ReflTransGen (CloudStep c cr mode) (.start mode writer reader) s)
    (hconsumed : s.inFlight = []) : s.reader.node.db = s.writer.node.db := by
  obtain ⟨messages, hframes, -, hagree⟩ := catchesUp_of_reached hwriter hdb hstart hs
  rw [hconsumed] at hframes
  have hnone : messages = [] := List.map_eq_nil_iff.mp hframes.symm
  rw [hagree, hnone]
  rfl

/-! ## No frame is stuck -/

/-- The writer waits exactly as long as its request or the reply to it is on its way. -/
structure Cloud.Awaits (mode : BrokerMode) (s : Cloud) : Prop where
  replies_eq : ∀ frame ∈ s.replies, frame = encodedMsg brokerOk
  waits : s.awaiting = true → mode = .request ∧ s.toBroker.length + s.replies.length = 1
  free : mode = .request → s.awaiting = false → s.toBroker.length + s.replies.length = 0

theorem Cloud.Awaits.step (h : s.Awaits mode) (hstep : CloudStep c cr mode s s') :
    s'.Awaits mode := by
  obtain ⟨hreplies, hwaits, hfree⟩ := h
  cases hstep with
  | serve r hr hsize => exact ⟨hreplies, hwaits, hfree⟩
  | read hframe hmsg => exact ⟨hreplies, hwaits, hfree⟩
  | relay hnow hframe hmsg =>
    refine ⟨hreplies, fun hnew => ?_, fun hmode hnot => ?_⟩
    · have hmode : mode = .request := of_decide_eq_true hnew
      have hzero := hfree hmode hnow
      refine ⟨hmode, ?_⟩
      simp only [List.length_append, List.length_singleton]
      omega
    · rw [hmode] at hnot
      cases hnot
  | publish hframe hmsg =>
    rw [hframe, List.length_cons] at hwaits hfree
    cases mode with
    | request =>
      refine ⟨?_, fun hnow => ⟨rfl, ?_⟩, fun _ hnot => ?_⟩
      · intro frame hmem
        rcases List.mem_append.mp hmem with hold | hnew
        · exact hreplies frame hold
        · exact List.mem_singleton.mp hnew
      · have hone := (hwaits hnow).2
        simp only [if_true, List.length_append, List.length_singleton]
        omega
      · have hzero := hfree rfl hnot
        omega
    | sink =>
      refine ⟨hreplies, fun hnow => ?_, fun hmode => by cases hmode⟩
      cases (hwaits hnow).1
  | reply hnow hframe hmsg =>
    obtain ⟨-, hone⟩ := hwaits hnow
    rw [hframe, List.length_cons] at hone
    refine ⟨fun frame hmem => ?_, fun hnot => (by cases hnot), fun _ _ => ?_⟩
    · exact hreplies frame (by rw [hframe]; exact List.mem_cons_of_mem _ hmem)
    · dsimp only
      omega

theorem awaits_of_reached {writer reader : World}
    (hs : Relation.ReflTransGen (CloudStep c cr mode) (.start mode writer reader) s) :
    s.Awaits mode := by
  induction hs with
  | refl =>
    cases mode with
    | request =>
      exact ⟨fun frame hmem => (by cases hmem), fun _ => ⟨rfl, rfl⟩, fun _ hnot => (by cases hnot)⟩
    | sink =>
      exact ⟨fun frame hmem => (by cases hmem), fun hnow => (by cases hnow),
        fun hmode => (by cases hmode)⟩
  | tail _ hstep ih => exact ih.step hstep

/-- The hops that are left, counted so that each of them takes one away at least. -/
def Cloud.hops (s : Cloud) : ℕ :=
  4 * s.produced.length + 3 * s.toBroker.length + s.replies.length + s.toReader.length

/-- A hop is possible as long as a frame is on its way. -/
theorem exists_hop (h : s.CatchesUp) (hawaits : s.Awaits mode) (hflight : s.inFlight ≠ []) :
    ∃ s', CloudStep c cr mode s s' ∧ s'.writer = s.writer ∧ s'.hops < s.hops := by
  obtain ⟨messages, hframes, hsizes, -⟩ := h
  have hdecoded : ∀ frame ∈ s.inFlight, ∃ msg, decodedMsg frame = .ok msg := by
    intro frame hmem
    rw [hframes] at hmem
    obtain ⟨message, hmessage, rfl⟩ := List.mem_map.mp hmem
    exact ⟨_, decodedMsg_encodedMsg (hsizes message hmessage)⟩
  cases hreader : s.toReader with
  | cons frame rest =>
    obtain ⟨msg, hmsg⟩ := hdecoded frame (by simp [Cloud.inFlight, hreader])
    refine ⟨_, .read s hreader hmsg, rfl, ?_⟩
    simp only [Cloud.hops, hreader, List.length_cons]
    omega
  | nil =>
    cases hbroker : s.toBroker with
    | cons frame rest =>
      obtain ⟨msg, hmsg⟩ := hdecoded frame (by simp [Cloud.inFlight, hbroker])
      refine ⟨_, .publish s hbroker hmsg, rfl, ?_⟩
      simp only [Cloud.hops, hbroker, List.length_cons, List.length_append, List.length_nil]
      split
      · simp only [List.length_append, List.length_cons, List.length_nil]
        omega
      · omega
    | nil =>
      cases hproduced : s.produced with
      | nil => exact absurd (by simp [Cloud.inFlight, hreader, hbroker, hproduced]) hflight
      | cons frame rest =>
        obtain ⟨msg, hmsg⟩ := hdecoded frame (by simp [Cloud.inFlight, hproduced])
        cases hnow : s.awaiting with
        | false =>
          refine ⟨_, .relay s hnow hproduced hmsg, rfl, ?_⟩
          simp only [Cloud.hops, hproduced, List.length_cons, List.length_append, List.length_nil]
          omega
        | true =>
          obtain ⟨-, hone⟩ := hawaits.waits hnow
          rw [hbroker, List.length_nil, Nat.zero_add] at hone
          obtain ⟨reply, hreply⟩ := List.length_eq_one_iff.mp hone
          have hok : reply = encodedMsg brokerOk :=
            hawaits.replies_eq reply (by rw [hreply]; exact List.mem_cons_self)
          have hmsg : decodedMsg reply = .ok brokerOk := hok ▸ decodedMsg_encodedMsg (by decide)
          refine ⟨_, .reply s hnow hreply hmsg, rfl, ?_⟩
          simp only [Cloud.hops, hreply, List.length_cons, List.length_nil]
          omega

/-- From every state that is reached the reader can take every frame, without a request. -/
theorem exists_consumed (hwriter : c.writer = true) (hdb : cr.dbOk = true)
    {writer reader : World} (hstart : reader.node.db = writer.node.db)
    (hs : Relation.ReflTransGen (CloudStep c cr mode) (.start mode writer reader) s) :
    ∃ s', Relation.ReflTransGen (CloudStep c cr mode) s s' ∧ s'.writer = s.writer ∧
      s'.inFlight = [] := by
  generalize hn : s.hops = n
  induction n using Nat.strong_induction_on generalizing s with
  | _ n ih =>
    by_cases hflight : s.inFlight = []
    · exact ⟨s, .refl, rfl, hflight⟩
    · obtain ⟨s₁, hstep, hsame, hless⟩ := exists_hop
        (catchesUp_of_reached hwriter hdb hstart hs) (awaits_of_reached hs) hflight
      obtain ⟨s', hrest, hsame', hconsumed⟩ := ih s₁.hops (hn ▸ hless) (hs.tail hstep) rfl
      exact ⟨s', .head hstep hrest, hsame'.trans hsame, hconsumed⟩

end

/-- A stored value reaches the reader. -/
theorem reader_eq_writer_dump : ∃ s : Cloud,
    @Relation.ReflTransGen Cloud (@CloudStep .insertion writerOnly uncachedOnly .request)
      (.start .request (openDB writerOnly .empty) (openDB uncachedOnly .empty)) s ∧
    s.reader.node.db = s.writer.node.db ∧
    s.reader.node.db.find? (ascii "k") = some (ascii "1") := by
  have hserve := Relation.ReflTransGen.single (@CloudStep.serve .insertion writerOnly uncachedOnly
    .request (.start .request (openDB writerOnly .empty) (openDB uncachedOnly .empty))
    (.dump (ascii "k") (ascii "1")) rfl (by decide +kernel))
  obtain ⟨s, hrest, hwriter, hconsumed⟩ :=
    @exists_consumed .insertion writerOnly uncachedOnly .request _ rfl rfl _ _ rfl hserve
  have hsame := @reader_eq_writer .insertion writerOnly uncachedOnly .request s rfl rfl _ _ rfl
    (hserve.trans hrest) hconsumed
  refine ⟨s, hserve.trans hrest, hsame, ?_⟩
  rw [hsame, hwriter]
  decide +kernel

end Quarks
