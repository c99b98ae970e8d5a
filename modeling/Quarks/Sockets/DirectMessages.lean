import Quarks.Sockets.Registry
import Quarks.Json.RoundTrip

/-!
# Direct messages

A message to a user is looked up under the name of its room and the id of the user. Without a room
the name is empty: the user is found only if a connection has joined the room without a name, and
otherwise a null pointer is left in the registry.
-/

namespace Quarks

open Basis

namespace SocketInterceptor

/-- The message is sent to a user, and has no room. -/
structure AsksDirect (x : RValue) (user : Bytes) : Prop where
  connect : ∃ b, x.has (ascii "connect") = .ok b ∧
    (b = true → ∃ v, (x.field (ascii "connect")).bind RValue.b = .ok v)
  join : x.has (ascii "join") = .ok false
  userlist : x.has (ascii "userlist") = .ok false
  send : x.has (ascii "send") = .ok true
  room : x.has (ascii "room") = .ok false
  hasTo : x.has (ascii "to") = .ok true
  user : (x.field (ascii "to")).bind RValue.s = .ok user

/-- The message has no key, or is saved under it. -/
def IsStored (x : RValue) (answers : Hub.Answers) : Prop :=
  x.has (ascii "key") = .ok false ∨ x.has (ascii "key") = .ok true ∧ answers.saved = true ∧
    ∃ key, (x.field (ascii "key")).bind RValue.s = .ok key

end SocketInterceptor

namespace Hub

open SocketInterceptor

variable [HashOrder]

/-- The message is sent to the connection, once and to nobody else but for what its sender is
told, and the registry is left as it is. -/
def SendsDirectly (s : Hub) (conn : ℕ) (id : Bytes) (x : RValue) (data : Bytes) (binary : Bool)
    (answers : Answers) (timestamp : Bytes) (receiver : ℕ) : Prop :=
  ∃ (text : Bytes) (own : List Bytes), sentText x [] id timestamp = .ok text ∧
    (s.step (.message conn data binary answers timestamp)).sent =
      s.sent ++ own.map (.toSender conn) ++ [.toUser receiver (if binary then data else text)] ∧
    (s.step (.message conn data binary answers timestamp)).connMap = s.connMap

/-- The message can be written and stored, and the connection is found under the empty room. -/
structure CanSendDirectly (s : Hub) (id : Bytes) (x : RValue) (user : Bytes) (answers : Answers)
    (timestamp : Bytes) (receiver : ℕ) : Prop where
  text : ∃ text, sentText x [] id timestamp = .ok text
  stored : IsStored x answers
  found : s.connMap.find? (roomKey [] user) = some (some receiver)

variable {s : Hub} {conn : ℕ} {id user data : Bytes} {answers : Answers} {x : RValue}

omit [HashOrder] in
/-- The handler of an exception leaves the state in which it was raised. -/
theorem run_catchRuntime {p : SocketM Unit} :
    ((SocketInterceptor.catchRuntime p (return ())).run (handle conn id answers) s).2 =
      (p.run (handle conn id answers) s).2 := by
  rw [SocketInterceptor.catchRuntime, Prog.run_tryCatch]
  rcases p.run (handle conn id answers) s with ⟨e | a, s'⟩
  · simp only
    split <;> rfl
  · rfl

/-- A message to a user is handled by `onSend`. -/
theorem onMessage_send (hload : load data = some x) (hasks : AsksDirect x user) (binary : Bool)
    (timestamp : Bytes) :
    ((SocketInterceptor.onMessage id data binary timestamp).run (handle conn id answers) s).2 =
      ((onSend x id data binary timestamp).run (handle conn id answers) s).2 := by
  rw [onMessage_eq hload hasks.connect, run_catchRuntime]
  simp only [hasks.join, hasks.userlist, hasks.send]
  rfl

/-- Storing a message tells its sender something, and goes on if it is stored. -/
theorem storeSent_run (room send : Bytes) :
    ∃ (own : List Bytes) (r : Except Failure Bool),
      (storeSent x room send).run (handle conn id answers) s =
        (r, { s with sent := s.sent ++ own.map (.toSender conn) }) ∧
      (r = .ok true ↔ IsStored x answers) := by
  have hnothing : s = { s with sent := s.sent ++ [].map (Sent.toSender conn) } := by simp
  unfold storeSent IsStored
  cases hkey : x.has (ascii "key") with
  | error e => exact ⟨[], .error e, by rw [← hnothing]; rfl, by simp⟩
  | ok b =>
    cases b with
    | false => exact ⟨[], .ok true, by rw [← hnothing]; rfl, by simp⟩
    | true =>
      cases hname : (x.field (ascii "key")).bind RValue.s with
      | error e => exact ⟨[], .error e, by rw [← hnothing]; rfl, by simp⟩
      | ok key =>
        obtain ⟨saved, keys⟩ := answers
        cases saved with
        | true => exact ⟨[_], .ok true, rfl, by simp⟩
        | false =>
          cases herr : dumpError x with
          | error e => exact ⟨[], .error e, by rw [← hnothing]; simp; rfl, by simp⟩
          | ok err => exact ⟨[err], .ok false, by simp; rfl, by simp⟩

/-- A message that is not stored reaches nobody but its sender, and one that is stored is sent to
what is found under the empty room. -/
theorem onSend_run (hasks : AsksDirect x user) {timestamp text : Bytes}
    (htext : sentText x [] id timestamp = .ok text) (binary : Bool) :
    ∃ own : List Bytes,
      (IsStored x answers → ((onSend x id data binary timestamp).run (handle conn id answers) s).2 =
        (handle conn id answers (.direct (roomKey [] user) (if binary then data else text))
          { s with sent := s.sent ++ own.map (.toSender conn) }).2) ∧
      (¬IsStored x answers →
        ((onSend x id data binary timestamp).run (handle conn id answers) s).2 =
        { s with sent := s.sent ++ own.map (.toSender conn) }) := by
  obtain ⟨own, r, hrun, hr⟩ := @storeSent_run _ s conn id answers x [] text
  have hroom : stringField x (ascii "room") [] = .ok [] := by
    rw [stringField, hasks.room]
    rfl
  have hsend : (onSend x id data binary timestamp).run (handle conn id answers) s =
      (storeSent x [] text >>= fun go => if go then
        direct (roomKey [] user) (if binary then data else text) else return ()).run
          (handle conn id answers) s := by
    rw [onSend, hroom, SocketInterceptor.ofExcept, pure_bind, htext, SocketInterceptor.ofExcept,
      pure_bind, hasks.hasTo, hasks.user]
    rfl
  refine ⟨own, fun hstored => ?_, fun hstored => ?_⟩
  · obtain rfl := hr.mpr hstored
    rw [hsend, Prog.run_bind_ok hrun]
    rfl
  · rw [hsend]
    cases r with
    | error e => rw [Prog.run_bind_error hrun]
    | ok go =>
      cases go with
      | false =>
        rw [Prog.run_bind_ok hrun]
        rfl
      | true => exact absurd (hr.mp rfl) hstored

omit [HashOrder] in
/-- What a sender is told is not what a user is sent. -/
theorem told_ne_toUser {sent : List Sent} {own own' : List Bytes} {receiver : ℕ} {d : Bytes} :
    sent ++ own.map (.toSender conn) ≠
      sent ++ own'.map (.toSender conn) ++ [.toUser receiver d] := by
  intro h
  rw [List.append_assoc, List.append_cancel_left_eq] at h
  have hmem : Sent.toUser receiver d ∈ own.map (Sent.toSender conn) := by
    rw [h]
    exact List.mem_append_right _ List.mem_cons_self
  obtain ⟨_, -, heq⟩ := List.mem_map.mp hmem
  cases heq

/-- A message without a room reaches its user exactly if it is stored and the user is found under
the empty room. -/
theorem sendsDirectly_iff (hconn : s.conns.find? conn = some id) (hload : load data = some x)
    (hasks : AsksDirect x user) (binary : Bool) (timestamp : Bytes) (receiver : ℕ) :
    SendsDirectly s conn id x data binary answers timestamp receiver ↔
      CanSendDirectly s id x user answers timestamp receiver := by
  have hstep : s.step (.message conn data binary answers timestamp) =
      ((onSend x id data binary timestamp).run (handle conn id answers) s).2 := by
    simp only [step, hconn]
    exact onMessage_send hload hasks binary timestamp
  unfold SendsDirectly
  rw [hstep]
  constructor
  · rintro ⟨text, own, htext, hsent, hconnMap⟩
    obtain ⟨own', hdirect, htold⟩ := @onSend_run _ s conn id user data answers x hasks _ _ htext
      binary
    by_cases hstored : IsStored x answers
    · rw [hdirect hstored] at hsent hconnMap
      simp only [handle] at hsent
      split at hsent
      · next u hu =>
        obtain ⟨-, hlast⟩ := List.append_inj' hsent rfl
        obtain ⟨rfl, -⟩ := Sent.toUser.inj (List.singleton_inj.mp hlast)
        exact ⟨⟨text, htext⟩, hstored, hu⟩
      · exact absurd hsent told_ne_toUser
      · exact absurd hsent told_ne_toUser
    · rw [htold hstored] at hsent
      exact absurd hsent told_ne_toUser
  · rintro ⟨⟨text, htext⟩, hstored, hfound⟩
    obtain ⟨own, hdirect, -⟩ := @onSend_run _ s conn id user data answers x hasks _ _ htext binary
    refine ⟨text, own, htext, ?_⟩
    rw [hdirect hstored]
    simp only [handle, hfound, and_self]

end Hub

/-- Two users are connected, and the second one has joined a room. -/
def joinedUser (room : String) : Hub :=
  @runAll _ _ (@Hub.step .insertion) Hub.start
    [.opened (ascii "a"), .opened (ascii "b"), sends 1 ("\x7b\"join\":\"" ++ room ++ "\"\x7d")]

/-- A message to the second user. -/
def toSecond : RValue :=
  .object [(ascii "send", .number (ascii "1")), (ascii "to", .string (ascii "b"))]

theorem load_toSecond : load (ascii "\x7b\"send\":1,\"to\":\"b\"\x7d") = some toSecond := by
  have hdump : ascii "\x7b\"send\":1,\"to\":\"b\"\x7d" =
      @dump .insertion (.object [(ascii "send", .number (Double.ofInt 1)),
        (ascii "to", .string (ascii "b"))]) := by decide +kernel
  rw [hdump, @load_dump .insertion]
  rfl

theorem asksDirect_toSecond : SocketInterceptor.AsksDirect toSecond (ascii "b") :=
  ⟨⟨false, rfl, fun h => by cases h⟩, rfl, rfl, rfl, rfl, rfl, rfl⟩

/-- The theorem at a user who has joined the room without a name. -/
theorem sendsDirectly_iff_unnamed : @Hub.SendsDirectly .insertion (joinedUser "") 0 (ascii "a")
    toSecond (ascii "\x7b\"send\":1,\"to\":\"b\"\x7d") false ⟨true, none⟩ (ascii "now") 1 ↔
      @Hub.CanSendDirectly .insertion (joinedUser "") (ascii "a") toSecond (ascii "b") ⟨true, none⟩
        (ascii "now") 1 :=
  @Hub.sendsDirectly_iff .insertion (joinedUser "") 0 (ascii "a") (ascii "b") _ _ toSecond
    (by decide +kernel) load_toSecond asksDirect_toSecond _ _ _

/-- A user who has joined a room with a name does not receive the message. -/
theorem not_sendsDirectly_named : ¬@Hub.SendsDirectly .insertion (joinedUser "r") 0 (ascii "a")
    toSecond (ascii "\x7b\"send\":1,\"to\":\"b\"\x7d") false ⟨true, none⟩ (ascii "now") 1 := by
  rintro ⟨text, own, -, hsent, -⟩
  have hnone : (@Hub.step .insertion (joinedUser "r")
      (sends 0 "\x7b\"send\":1,\"to\":\"b\"\x7d")).sent = [] := by decide +kernel
  rw [sends] at hnone
  rw [hnone] at hsent
  exact absurd hsent.symm (List.append_ne_nil_of_right_ne_nil _ (List.cons_ne_nil _ _))

end Quarks
