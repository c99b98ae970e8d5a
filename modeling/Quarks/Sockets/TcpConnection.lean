import Quarks.Json.Load
import Quarks.Machine

/-!
# Connections over TCP

A client sends requests over a stream of bytes, and the stream arrives in reads of any size.
`tcp_con_handler` takes each read for one request. So the requests are dispatched as they
were sent exactly if the stream was cut between them and nowhere else.
-/

namespace Quarks

open Basis

/-- `max_length`, the size of the buffer for a read. -/
def maxLength : ℕ := 1024 * 1024

/-- `tcp_con_handler`: its last answer, whether it is to stop, and the exception that has
left it. The requests that it has dispatched are recorded beside. -/
structure TcpConnection where
  world : World
  message : Bytes
  notifyStop : Bool
  escaped : Option Failure
  dispatched : List Bytes

/-- A connection before its first read. -/
def TcpConnection.start (w : World) : TcpConnection := ⟨w, [], false, none, []⟩

section

variable (dispatch : Bytes → CoreM Bytes) (faults : Faults)

/-- The answer to a request, and the database behind it. -/
def dispatchRun (w : World) (data : Bytes) : Except Failure Bytes × World :=
  (dispatch data).run (handle faults) w

/-- The handler when a request has been dispatched. -/
def TcpConnection.answered (conn : TcpConnection) (data : Bytes) :
    Except Failure Bytes × World → TcpConnection
  | (.ok message, w) =>
    { conn with world := w, message, dispatched := conn.dispatched ++ [data] }
  | (.error e, w) =>
    { conn with world := w, escaped := some e, dispatched := conn.dispatched ++ [data] }

/-- `tcp_con_handler::handle_read`. After `quit` and after an exception it asks for no more
data. The zero behind a read that fills the buffer is written past its end. -/
def handleRead (conn : TcpConnection) (read : Bytes) : TcpConnection :=
  if conn.notifyStop = true ∨ conn.escaped.isSome = true then conn
  else if maxLength ≤ read.length then { conn with escaped := some .undefined }
  else
    let data := cstr read
    if data = ascii "quit" then { conn with message := ascii "quit", notifyStop := true }
    else conn.answered data (dispatchRun dispatch faults conn.world data)

/-- The handler after a list of reads. -/
def handleReads (conn : TcpConnection) (reads : List Bytes) : TcpConnection :=
  reads.foldl (handleRead dispatch faults) conn

/-- No exception leaves the handler before the last request of a list. -/
def EachAnswered : World → List Bytes → Prop
  | _, [] => True
  | w, data :: rest => rest = [] ∨
    (dispatchRun dispatch faults w data).1.isOk = true ∧
      EachAnswered (dispatchRun dispatch faults w data).2 rest

end

/-! ## Which requests are dispatched -/

section

variable {dispatch : Bytes → CoreM Bytes} {faults : Faults} {conn : TcpConnection}

/-- A text that can be a request: JSON, without zero bytes. -/
def JsonText (text : Bytes) : Prop := IsJson text ∧ 0 ∉ text

instance (text : Bytes) : Decidable (JsonText text) :=
  inferInstanceAs (Decidable (_ ∧ _))

/-- After it has stopped the handler does nothing. -/
theorem handleReads_stopped (h : conn.notifyStop = true ∨ conn.escaped.isSome = true)
    (reads : List Bytes) : handleReads dispatch faults conn reads = conn := by
  induction reads with
  | nil => rfl
  | cons read reads ih =>
    rw [handleReads, List.foldl_cons, handleRead, if_pos h]
    exact ih

theorem handleRead_running (hstop : conn.notifyStop = false) (hescaped : conn.escaped = none)
    (read : Bytes) : handleRead dispatch faults conn read =
      if maxLength ≤ read.length then { conn with escaped := some .undefined }
      else if cstr read = ascii "quit" then
        { conn with message := ascii "quit", notifyStop := true }
      else conn.answered (cstr read) (dispatchRun dispatch faults conn.world (cstr read)) := by
  have hrunning : ¬(conn.notifyStop = true ∨ conn.escaped.isSome = true) := by
    rw [hstop, hescaped]
    simp
  rw [handleRead, if_neg hrunning]

/-- The handler dispatches reads from the front, up to one at which it stops. -/
theorem exists_dispatched (hstop : conn.notifyStop = false) (hescaped : conn.escaped = none)
    (reads : List Bytes) : ∃ k, (handleReads dispatch faults conn reads).dispatched =
      conn.dispatched ++ (reads.take k).map cstr := by
  induction reads generalizing conn with
  | nil => exact ⟨0, by simp [handleReads]⟩
  | cons read reads ih =>
    rw [handleReads, List.foldl_cons, handleRead_running hstop hescaped]
    split
    · refine ⟨0, ?_⟩
      rw [← handleReads, handleReads_stopped (Or.inr rfl)]
      simp
    · split
      · refine ⟨0, ?_⟩
        rw [← handleReads, handleReads_stopped (Or.inl rfl)]
        simp
      · rcases dispatchRun dispatch faults conn.world (cstr read) with ⟨e | message, w⟩
        · refine ⟨1, ?_⟩
          rw [← handleReads, handleReads_stopped (Or.inr rfl)]
          simp [TcpConnection.answered]
        · obtain ⟨k, hk⟩ := @ih (conn.answered (cstr read) (.ok message, w)) hstop hescaped
          refine ⟨k + 1, hk.trans ?_⟩
          simp [TcpConnection.answered]

/-- Requests that arrive one by one are dispatched as long as the handler goes on. -/
theorem dispatched_eq_iff (hstop : conn.notifyStop = false) (hescaped : conn.escaped = none)
    {reads : List Bytes} (hjson : ∀ read ∈ reads, JsonText read) :
    (handleReads dispatch faults conn reads).dispatched = conn.dispatched ++ reads ↔
      (∀ read ∈ reads, read.length < maxLength) ∧
        EachAnswered dispatch faults conn.world reads := by
  induction reads generalizing conn with
  | nil => simp [handleReads, EachAnswered]
  | cons read reads ih =>
    obtain ⟨⟨hread, hzero⟩, hjson⟩ := List.forall_mem_cons.mp hjson
    have hquit : read ≠ ascii "quit" := by
      rintro rfl
      revert hread
      decide +kernel
    rw [handleReads, List.foldl_cons, ← handleReads, handleRead_running hstop hescaped,
      cstr_eq_self hzero, if_neg hquit, List.forall_mem_cons]
    split
    · next hlong =>
      rw [handleReads_stopped (Or.inr rfl)]
      constructor
      · intro h
        simp at h
      · rintro ⟨⟨hshort, -⟩, -⟩
        omega
    · next hshort =>
      have hlt : read.length < maxLength := by omega
      unfold EachAnswered
      rcases dispatchRun dispatch faults conn.world read with ⟨e | message, w⟩
      · rw [handleReads_stopped (Or.inr rfl)]
        have hfalse : (Except.error e : Except Failure Bytes).isOk = false := rfl
        simp only [TcpConnection.answered, hfalse, Bool.false_eq_true, false_and, or_false]
        constructor
        · intro h
          have hnil : reads = [] := by simpa [eq_comm] using h
          subst hnil
          exact ⟨⟨hlt, by simp⟩, rfl⟩
        · rintro ⟨-, rfl⟩
          rfl
      · have hih := @ih (conn.answered read (.ok message, w)) hstop hescaped hjson
        have htrue : (Except.ok message : Except Failure Bytes).isOk = true := rfl
        have hsplit : conn.dispatched ++ read :: reads =
            (conn.answered read (.ok message, w)).dispatched ++ reads := by
          simp [TcpConnection.answered]
        rw [hsplit, hih, htrue]
        simp only [true_and]
        constructor
        · rintro ⟨hlengths, hanswered⟩
          exact ⟨⟨hlt, hlengths⟩, Or.inr hanswered⟩
        · rintro ⟨⟨-, hlengths⟩, hanswered⟩
          refine ⟨hlengths, ?_⟩
          rcases hanswered with rfl | hanswered
          · trivial
          · exact hanswered

/-- The requests of a stream are dispatched as they were sent. -/
def DispatchesRequests (dispatch : Bytes → CoreM Bytes) (faults : Faults) (w : World)
    (requests reads : List Bytes) : Prop :=
  (handleReads dispatch faults (.start w) reads).dispatched = requests

/-- The requests of a stream are dispatched exactly if each of them arrives as one read that
leaves room in the buffer, and is answered if another one follows. -/
theorem dispatchesRequests_iff (dispatch : Bytes → CoreM Bytes) (faults : Faults) (w : World)
    {requests reads : List Bytes} (hjson : ∀ request ∈ requests, JsonText request)
    (hstream : reads.flatten = requests.flatten) (hreads : ∀ read ∈ reads, read ≠ []) :
    DispatchesRequests dispatch faults w requests reads ↔
      reads = requests ∧ (∀ request ∈ requests, request.length < maxLength) ∧
        EachAnswered dispatch faults w requests := by
  have hwhole := @dispatched_eq_iff dispatch faults (.start w) rfl rfl requests hjson
  constructor
  · intro h
    obtain ⟨k, hk⟩ := @exists_dispatched dispatch faults (.start w) rfl rfl reads
    have hzero : ∀ read ∈ reads, 0 ∉ read := by
      intro read hread hmem
      have hflat : 0 ∈ requests.flatten := hstream ▸ List.mem_flatten_of_mem hread hmem
      obtain ⟨request, hrequest, hmem⟩ := List.mem_flatten.mp hflat
      exact (hjson request hrequest).2 hmem
    have htake : requests = reads.take k := by
      rw [← show _ = requests from h, hk]
      refine (List.map_congr_left fun read hread => ?_).trans (List.map_id _)
      exact cstr_eq_self (hzero read (List.mem_of_mem_take hread))
    have hrest : (reads.drop k).flatten = [] := by
      have hflat := congrArg List.flatten (List.take_append_drop k reads)
      rw [List.flatten_append, hstream, ← htake] at hflat
      simpa using hflat
    have hall : reads = requests := by
      have hdrop : reads.drop k = [] := by
        refine List.eq_nil_iff_forall_not_mem.mpr fun read hread => ?_
        have hempty := List.flatten_eq_nil_iff.mp hrest read hread
        exact hreads read (List.mem_of_mem_drop hread) hempty
      rw [htake, ← List.append_nil (reads.take k), ← hdrop, List.take_append_drop]
    subst hall
    exact ⟨rfl, hwhole.mp h⟩
  · rintro ⟨rfl, h⟩
    exact hwhole.mpr h

/-- A dispatcher that answers every request with an empty text. -/
def answersEmpty : Bytes → CoreM Bytes := fun _ => pure []

/-- A process before it has done anything. -/
def idleWorld : World := ⟨⟨.empty, .empty, [], []⟩, 0, fun _ => false⟩

/-- Two requests that arrive one by one are dispatched. -/
theorem dispatchesRequests_separate : DispatchesRequests answersEmpty noFaults idleWorld
    [ascii "\x7b\x7d", ascii "[1]"] [ascii "\x7b\x7d", ascii "[1]"] :=
  (dispatchesRequests_iff answersEmpty noFaults idleWorld (by decide +kernel) rfl
    (by decide)).mpr ⟨rfl, by decide, Or.inr ⟨rfl, Or.inl rfl⟩⟩

/-- Two requests that arrive in one read are taken for one. -/
theorem not_dispatchesRequests_joined : ¬DispatchesRequests answersEmpty noFaults idleWorld
    [ascii "\x7b\x7d", ascii "\x7b\x7d"] [ascii "\x7b\x7d\x7b\x7d"] := by
  intro h
  have hlength := congrArg List.length h
  revert hlength
  decide +kernel

end

end Quarks
