import Quarks.Basis.Run
import Quarks.Sockets.Interceptor

/-!
# The registry of connections

A broadcast dereferences every pointer that it finds in `_connMap`. A direct message to a
user who is not in the room stores a null pointer there, and a connection that is closed
stays there if its rooms are not found. Without these two every pointer is that of an open
connection.
-/

namespace Quarks

open Basis

namespace Hub

open SocketInterceptor

/-- Every pointer of `_connMap` is that of an open connection. -/
def SafeRegistry (s : Hub) : Prop :=
  ∀ key u, s.connMap.find? key = some u → ∃ conn, u = some conn ∧ conn ∈ s.conns

/-- The key that an operation looks up with `operator[]`. -/
def usedKey : SocketOp → Option Bytes
  | .direct key _ => some key
  | _ => none

/-- A direct message finds its user. -/
def FindsUser (s : Hub) (op : SocketOp) : Prop := ∀ key ∈ usedKey op, key ∈ s.connMap

instance (s : Hub) (op : SocketOp) : Decidable (FindsUser s op) :=
  inferInstanceAs (Decidable (∀ key ∈ usedKey op, key ∈ s.connMap))

/-- `onClose` finds a room for every key of a connection. -/
def FindsRooms (s : Hub) (conn : ℕ) (id : Bytes) : Prop :=
  ∀ e ∈ s.connMap.entries, e.2 = some conn →
    ∃ r ∈ lookup s.userRooms (id ++ [95]), roomKey r.2 id = e.1

instance (s : Hub) (conn : ℕ) (id : Bytes) : Decidable (FindsRooms s conn id) :=
  inferInstanceAs (Decidable (∀ e ∈ s.connMap.entries, _))

variable [HashOrder]

/-- Direct messages find their users, and `onClose` all keys of the connection. -/
def KeepsRegistry (s : Hub) : SocketEvent → Prop
  | .opened _ => True
  | .message conn data binary answers timestamp => ∀ id ∈ s.conns.find? conn,
      (SocketInterceptor.onMessage id data binary timestamp).EachOp (handle conn id answers)
        FindsUser s
  | .closed conn _ => ∀ id ∈ s.conns.find? conn, FindsRooms s conn id

instance (s : Hub) : (e : SocketEvent) → Decidable (KeepsRegistry s e)
  | .opened _ => isTrue trivial
  | .message conn data binary answers timestamp =>
    inferInstanceAs (Decidable (∀ id ∈ s.conns.find? conn,
      (SocketInterceptor.onMessage id data binary timestamp).EachOp (handle conn id answers)
        FindsUser s))
  | .closed conn _ => inferInstanceAs (Decidable (∀ id ∈ s.conns.find? conn, FindsRooms s conn id))

section

variable {s : Hub} {conn : ℕ} {id : Bytes} {answers : Answers}

omit [HashOrder] in
/-- No operation opens or closes a connection. -/
@[simp] theorem handle_conns (op : SocketOp) (s : Hub) :
    (handle conn id answers op s).2.conns = s.conns := by
  cases op with
  | direct key data =>
    simp only [handle]
    split <;> rfl
  | _ => rfl

omit [HashOrder] in
theorem run_conns {α : Type} (p : SocketM α) (s : Hub) :
    (p.run (handle conn id answers) s).2.conns = s.conns :=
  Prog.run_eq_of_forall handle_conns p s

omit [HashOrder] in
/-- No operation numbers a connection. -/
@[simp] theorem handle_next (op : SocketOp) (s : Hub) :
    (handle conn id answers op s).2.next = s.next := by
  cases op with
  | direct key data =>
    simp only [handle]
    split <;> rfl
  | _ => rfl

omit [HashOrder] in
theorem run_next {α : Type} (p : SocketM α) (s : Hub) :
    (p.run (handle conn id answers) s).2.next = s.next :=
  Prog.run_eq_of_forall handle_next p s

omit [HashOrder] in
/-- An operation of an open connection keeps the registry safe, if a direct message finds
its user. -/
theorem handle_safe {op : SocketOp} (hs : s.SafeRegistry ∧ conn ∈ s.conns)
    (hop : FindsUser s op) :
    (handle conn id answers op s).2.SafeRegistry ∧
      conn ∈ (handle conn id answers op s).2.conns := by
  refine ⟨?_, by rw [handle_conns]; exact hs.2⟩
  cases op with
  | join room =>
    intro key u hu
    change (s.connMap.insert (roomKey room id) (some conn)).find? key = some u at hu
    rw [OrderedMap.find?_insert] at hu
    split at hu
    · cases hu
      exact ⟨conn, rfl, hs.2⟩
    · exact hs.1 key u hu
  | leave room =>
    intro key u hu
    change (s.connMap.erase (roomKey room id)).find? key = some u at hu
    rw [OrderedMap.find?_erase] at hu
    split at hu
    · cases hu
    · exact hs.1 key u hu
  | direct key data =>
    obtain ⟨u, hu⟩ := OrderedMap.mem_iff.mp (hop key rfl)
    simp only [handle, hu]
    cases u <;> exact hs.1
  | _ => exact hs.1

/-- A message whose `connect`, if it has one, is a truth value is handled by what it asks for. -/
theorem onMessage_eq {data : Bytes} {x : RValue} (hload : load data = some x)
    (hconnect : ∃ b, x.has (ascii "connect") = .ok b ∧
      (b = true → ∃ v, (x.field (ascii "connect")).bind RValue.b = .ok v))
    (binary : Bool) (timestamp : Bytes) :
    SocketInterceptor.onMessage id data binary timestamp = SocketInterceptor.catchRuntime
      (do
        if ← SocketInterceptor.ofExcept (x.has (ascii "join")) then onJoin x id timestamp
        else if ← SocketInterceptor.ofExcept (x.has (ascii "userlist")) then onUserList x timestamp
        else if ← SocketInterceptor.ofExcept (x.has (ascii "send")) then
          onSend x id data binary timestamp
        else onQueryMessage x)
      (return ()) := by
  obtain ⟨b, hhas, hvalue⟩ := hconnect
  rw [SocketInterceptor.onMessage, hload]
  simp only [hhas]
  cases b with
  | false => rfl
  | true =>
    obtain ⟨v, hv⟩ := hvalue rfl
    rw [hv]
    rfl

/-- The loop of `onClose` removes the keys of the rooms, and leaves the rooms of the users. -/
theorem run_leaveRooms (timestamp : Bytes) (found : List (Bytes × Bytes)) (s : Hub) :
    ∃ s', (leaveRooms id timestamp found).run (handle conn id answers) s = (.ok (), s') ∧
      s'.connMap = s.connMap.eraseAll (found.map fun e => roomKey e.2 id) ∧
      s'.userRooms = s.userRooms := by
  induction found generalizing s with
  | nil => exact ⟨s, rfl, rfl, rfl⟩
  | cons e found ih =>
    have hturn : ∃ sent, (leaveRooms id timestamp (e :: found)).run (handle conn id answers) s =
        (leaveRooms id timestamp found).run (handle conn id answers)
          { s with connMap := s.connMap.erase (roomKey e.2 id), sent := sent } := by
      have hflag : SocketInterceptor.notifies.run (handle conn id answers) s =
          (.ok s.notifies, s) := rfl
      rw [leaveRooms, Prog.run_bind_ok hflag]
      obtain ⟨conns, next, connMap, userRooms, notify, sent⟩ := s
      cases notify with
      | false => exact ⟨sent, rfl⟩
      | true => exact ⟨_, rfl⟩
    obtain ⟨sent, hturn⟩ := hturn
    obtain ⟨s', hrun, hs'⟩ :=
      ih { s with connMap := s.connMap.erase (roomKey e.2 id), sent := sent }
    exact ⟨s', hturn.trans hrun, hs'⟩

/-- `onClose` removes the keys of the rooms that it finds. -/
theorem onClose_connMap (timestamp : Bytes) (s : Hub) :
    ((onClose id timestamp).run (handle conn id answers) s).2.connMap =
      s.connMap.eraseAll ((lookup s.userRooms (id ++ [95])).map fun e => roomKey e.2 id) := by
  have hfound : (rooms (id ++ [95])).run (handle conn id answers) s =
      (.ok (lookup s.userRooms (id ++ [95])), s) := rfl
  obtain ⟨s', hrun, hs', -⟩ := @run_leaveRooms _ conn id answers timestamp
    (lookup s.userRooms (id ++ [95])) s
  rw [onClose, Prog.run_bind_ok hfound, Prog.run_bind_ok hrun]
  exact hs'

/-- `onClose` forgets the entries that it finds. -/
theorem onClose_userRooms (timestamp : Bytes) (s : Hub) :
    ((onClose id timestamp).run (handle conn id answers) s).2.userRooms =
      s.userRooms.eraseAll ((lookup s.userRooms (id ++ [95])).map Prod.fst) := by
  have hfound : (rooms (id ++ [95])).run (handle conn id answers) s =
      (.ok (lookup s.userRooms (id ++ [95])), s) := rfl
  obtain ⟨s', hrun, -, hs'⟩ := @run_leaveRooms _ conn id answers timestamp
    (lookup s.userRooms (id ++ [95])) s
  rw [onClose, Prog.run_bind_ok hfound, Prog.run_bind_ok hrun]
  exact congrArg (fun m : Store => m.eraseAll _) hs'

/-- Closing a connection keeps the registry safe if all its keys are found. -/
theorem closed_safe (hs : s.SafeRegistry) (hid : s.conns.find? conn = some id)
    (hrooms : FindsRooms s conn id) (timestamp : Bytes) :
    (s.step (.closed conn timestamp)).SafeRegistry := by
  intro key u hu
  simp only [step, hid] at hu ⊢
  rw [onClose_connMap, OrderedMap.find?_eraseAll] at hu
  split at hu
  · cases hu
  next hkey =>
  obtain ⟨conn', rfl, hconn'⟩ := hs key u hu
  refine ⟨conn', rfl, ?_⟩
  have hne : conn' ≠ conn := by
    rintro rfl
    obtain ⟨r, hr, hkey'⟩ := hrooms _ (OrderedMap.find?_eq_some.mp hu) rfl
    exact hkey (List.mem_map.mpr ⟨r, hr, hkey'⟩)
  rw [OrderedMap.mem_iff] at hconn' ⊢
  rwa [run_conns, OrderedMap.find?_erase, if_neg hne]

/-- Every event keeps the registry safe, if it meets the condition. -/
theorem step_safe {e : SocketEvent} (hs : s.SafeRegistry) (he : KeepsRegistry s e) :
    (s.step e).SafeRegistry := by
  cases e with
  | opened id =>
    intro key u hu
    obtain ⟨conn, rfl, hconn⟩ := hs key u hu
    exact ⟨conn, rfl, OrderedMap.mem_insert_iff.mpr (Or.inr hconn)⟩
  | message conn data binary answers timestamp =>
    cases hid : s.conns.find? conn with
    | none => simpa only [step, hid] using hs
    | some id =>
      simp only [step, hid]
      exact (Prog.EachOp.run (C := FindsUser) (D := fun _ _ => True)
        (fun s op hs hop => ⟨trivial, handle_safe hs hop⟩)
        ⟨hs, OrderedMap.mem_iff.mpr ⟨id, hid⟩⟩ (he id hid)).2.1
  | closed conn timestamp =>
    cases hid : s.conns.find? conn with
    | none => simpa only [step, hid] using hs
    | some id => exact closed_safe hs hid (he id hid) timestamp

/-- In every run in which direct messages find their users and every closed connection its
keys, all pointers of the registry are those of open connections. -/
theorem registry_safe {events done : List SocketEvent}
    (hevents : EachEvent step KeepsRegistry start events) (hdone : done <+: events) :
    (runAll step start done).SafeRegistry :=
  runAll_of_eachEvent (fun _ _ => step_safe)
    (fun _ _ hu => by cases hu) hevents hdone

end

end Hub

/-- A text message of a connection. -/
def sends (conn : ℕ) (data : String) : SocketEvent :=
  .message conn (ascii data) false ⟨true, none⟩ (ascii "now")

/-- The theorem at a run in which two users join a room, one sends a message to the other,
who then leaves. -/
theorem registry_safe_twoUsers : (@runAll _ _ (@Hub.step .insertion) Hub.start
    [.opened (ascii "a"), .opened (ascii "b"), sends 0 "\x7b\"join\":\"r\"\x7d",
      sends 1 "\x7b\"join\":\"r\"\x7d",
      sends 0 "\x7b\"send\":1,\"room\":\"r\",\"to\":\"b\"\x7d",
      .closed 1 (ascii "now")]).SafeRegistry :=
  @Hub.registry_safe .insertion _ _ (by decide +kernel) (List.prefix_refl _)

/-- A direct message to a user who is not in the room leaves a null pointer. -/
theorem not_safeRegistry_direct : ¬(@runAll _ _ (@Hub.step .insertion) Hub.start
    [.opened (ascii "a"),
      sends 0 "\x7b\"send\":1,\"room\":\"r\",\"to\":\"b\"\x7d"]).SafeRegistry := by
  intro h
  obtain ⟨conn, hnull, -⟩ := h (ascii "r_b") none (by decide +kernel)
  cases hnull

end Quarks
