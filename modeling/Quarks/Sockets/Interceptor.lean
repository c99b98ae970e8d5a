import Quarks.Scan
import Quarks.Core.Insert

/-!
# The web socket interceptor

`SocketInterceptor` keeps a pointer to each connection under the key `room_id`, for each
room that the connection has joined, and the rooms of each user under the key `id_room`.
Every message is broadcast to the connections whose key starts with the name of a room.
The handlers are programs over the operations on these two maps; each of them runs under
the mutex of `QSocket`.
-/

namespace Quarks

open Basis

/-- What the handlers do to the maps, to the connections and to the database. -/
inductive SocketOp
  /-- The keys that `lookup` finds in `_connMap`. -/
  | users (key : Bytes)
  /-- The entries that `lookup` finds in `_userRoomsMap`. -/
  | rooms (key : Bytes)
  /-- `broadcast`, with or without skipping the connection itself. -/
  | broadcast (room text : Bytes) (skips : Bool)
  /-- Reading and writing `_notifyAllOnClose`. -/
  | notifies
  | setNotifies (notify : Bool)
  /-- `_connMap[roomKey] = &conn` and `_userRoomsMap[userKey] = room`. -/
  | join (room : Bytes)
  /-- `_connMap.erase(roomKey)`. -/
  | leave (room : Bytes)
  /-- `_userRoomsMap.erase`. -/
  | forget (keys : List Bytes)
  /-- `auto u = _connMap[key]`, and sending to `u` if it is not null. -/
  | direct (key data : Bytes)
  /-- `conn.send_text`. -/
  | reply (text : Bytes)
  /-- `Quarks().dump`: whether it succeeds. -/
  | dump (key value : Bytes)
  /-- `Quarks().getKeys`: its result, if it succeeds. -/
  | getKeys (wild : Bytes) (win : Window)

/-- The answers to the operations. -/
def SocketRes : SocketOp → Type
  | .users _ => List Bytes
  | .rooms _ => List (Bytes × Bytes)
  | .notifies => Bool
  | .dump _ _ => Bool
  | .getKeys _ _ => Option (List WValue)
  | _ => Unit

/-- A handler of `SocketInterceptor`. -/
abbrev SocketM := Prog SocketRes Failure

namespace SocketInterceptor

/-! ## The operations as programs -/

/-- The keys that `lookup(_connMap, key)` finds. -/
def users (key : Bytes) : SocketM (List Bytes) := Prog.lift (SocketOp.users key)

/-- The entries that `lookup(_userRoomsMap, key)` finds. -/
def rooms (key : Bytes) : SocketM (List (Bytes × Bytes)) := Prog.lift (SocketOp.rooms key)

/-- `broadcast(room, text)`, or `broadcast(room, text, conn)`. -/
def broadcast (room text : Bytes) (skips : Bool) : SocketM Unit :=
  Prog.lift (SocketOp.broadcast room text skips)

/-- `_notifyAllOnClose`. -/
def notifies : SocketM Bool := Prog.lift SocketOp.notifies

/-- `_notifyAllOnClose = notify`. -/
def setNotifies (notify : Bool) : SocketM Unit := Prog.lift (SocketOp.setNotifies notify)

/-- The connection joins a room. -/
def join (room : Bytes) : SocketM Unit := Prog.lift (SocketOp.join room)

/-- The connection is removed from a room. -/
def leave (room : Bytes) : SocketM Unit := Prog.lift (SocketOp.leave room)

/-- The rooms of users are forgotten. -/
def forget (keys : List Bytes) : SocketM Unit := Prog.lift (SocketOp.forget keys)

/-- Send to the connection under a key. -/
def direct (key data : Bytes) : SocketM Unit := Prog.lift (SocketOp.direct key data)

/-- `conn.send_text(text)`. -/
def reply (text : Bytes) : SocketM Unit := Prog.lift (SocketOp.reply text)

/-- `Quarks().dump(key, value, out)`. -/
def dumpPair (key value : Bytes) : SocketM Bool := Prog.lift (SocketOp.dump key value)

/-- `Quarks().getKeys(wild, out, skip, limit)`. -/
def getKeys (wild : Bytes) (win : Window) : SocketM (Option (List WValue)) :=
  Prog.lift (SocketOp.getKeys wild win)

/-- Go on with a result, or raise the exception. -/
def ofExcept {α : Type} : Except Failure α → SocketM α
  | .ok a => pure a
  | .error e => throw e

/-- `catch (const std::runtime_error&)`. -/
def catchRuntime {α : Type} (p handler : SocketM α) : SocketM α :=
  tryCatch p fun e => if e.isRuntimeError then handler else throw e

/-- `room + "_" + id`. -/
def roomKey (room id : Bytes) : Bytes := room ++ 95 :: id

/-- `id + "_" + room`. -/
def userKey (id room : Bytes) : Bytes := id ++ 95 :: room

section

variable [HashOrder]

/-! ## Messages -/

/-- The error that a sender gets if its message could not be stored. -/
def dumpError (x : RValue) : Except Failure Bytes := do
  let object ← WValue.ofRValue x
  return dump ((WValue.null.set (ascii "error") (.string (ascii "\x7b\"result\":false\x7d"))).set
    (ascii "object") object)

/-- The notice that a user has joined a room. -/
def joinedNotice (x : RValue) (room id timestamp : Bytes) : Except Failure Bytes := do
  let wsend := (WValue.null.set (ascii "joined") (.string room)).set (ascii "from") (.string id)
  let wsend ← if ← x.has (ascii "data") then do
      pure (wsend.set (ascii "data") (← WValue.ofRValue (← x.field (ascii "data"))))
    else pure wsend
  return dump (wsend.set (ascii "timestamp") (.string timestamp))

/-- The part of `onMessage` that handles `join`. -/
def onJoin (x : RValue) (id timestamp : Bytes) : SocketM Unit := do
  let room ← ofExcept ((x.field (ascii "join")).bind RValue.s)
  if ← ofExcept (x.has (ascii "notifyjoin")) then
    if ← ofExcept ((x.field (ascii "notifyjoin")).bind RValue.b) then
      let send ← ofExcept (joinedNotice x room id timestamp)
      if ← ofExcept (x.has (ascii "key")) then
        let key ← ofExcept ((x.field (ascii "key")).bind RValue.s)
        let saved ← dumpPair key send
        if !saved then
          let err ← ofExcept (dumpError x)
          reply err
      broadcast room send false
  if ← ofExcept (x.has (ascii "notifyleave")) then
    let notify ← ofExcept ((x.field (ascii "notifyleave")).bind RValue.b)
    setNotifies notify
  join room

/-- An integer argument of a message, if it is there. -/
def intField (x : RValue) (name : Bytes) (dflt : ℤ) : Except Failure ℤ := do
  if ← x.has name then return int32 (← (← x.field name).i)
  return dflt

/-- The keys that a list of users shows. -/
def shownKeys (keys : List Bytes) (skip limit : ℤ) : List Bytes :=
  (keys.zipIdx.filter fun e => int32 (skip - 1) < e.2 && (e.2 : ℤ) ≠ limit).map Prod.fst

/-- The part of `onMessage` that handles `userlist`. -/
def onUserList (x : RValue) (timestamp : Bytes) : SocketM Unit := do
  let room ← ofExcept ((x.field (ascii "userlist")).bind RValue.s)
  let keys ← users (room ++ [95])
  let skip ← ofExcept (intField x (ascii "skip") 0)
  let limit ← ofExcept (intField x (ascii "limit") (-1))
  let wlist := (WValue.null.set (ascii "room") (.string room)).set (ascii "replyuserlist")
    (.list ((shownKeys keys skip limit).map .string))
  let wlist := (wlist.set (ascii "skip") (.number (Double.ofInt skip))).set (ascii "limit")
    (.number (Double.ofInt limit))
  reply (dump (wlist.set (ascii "timestamp") (.string timestamp)))

/-- The text that is sent to a room or to one of its users. -/
def sentText (x : RValue) (room id timestamp : Bytes) : Except Failure Bytes := do
  let message ← WValue.ofRValue (← x.field (ascii "send"))
  let wsend := (WValue.null.set (ascii "room") (.string room)).set (ascii "message") message
  return dump ((wsend.set (ascii "from") (.string id)).set (ascii "timestamp")
    (.string timestamp))

/-- The part of `onMessage` that stores a message, if it has a key: whether to go on. -/
def storeSent (x : RValue) (room send : Bytes) : SocketM Bool := do
  if ← ofExcept (x.has (ascii "key")) then
    let key ← ofExcept ((x.field (ascii "key")).bind RValue.s)
    let saved ← dumpPair key send
    if !saved then
      let err ← ofExcept (dumpError x)
      reply err
      return false
    let resp := ((WValue.null.set (ascii "room") (.string room)).set (ascii "received")
      (.bool true)).set (ascii "key") (.string key)
    reply (dump resp)
  return true

/-- The part of `onMessage` that handles `send`. -/
def onSend (x : RValue) (id data : Bytes) (binary : Bool) (timestamp : Bytes) : SocketM Unit := do
  let room ← ofExcept (stringField x (ascii "room") [])
  let send ← ofExcept (sentText x room id timestamp)
  if ← storeSent x room send then
    if ← ofExcept (x.has (ascii "to")) then
      let user ← ofExcept ((x.field (ascii "to")).bind RValue.s)
      direct (roomKey room user) (if binary then data else send)
    else broadcast room (if binary then data else send) true

/-- `onQueryMessage`. -/
def onQueryMessage (x : RValue) : SocketM Unit :=
  catchRuntime
    (do
      if ← ofExcept (x.has (ascii "getkeys")) then
        let skip ← ofExcept (intField x (ascii "skip") 0)
        let limit ← ofExcept (intField x (ascii "limit") (-1))
        let wild ← ofExcept ((x.field (ascii "getkeys")).bind RValue.s)
        match ← getKeys wild ⟨skip, limit⟩ with
        | some out =>
          let wresult := (WValue.null.set (ascii "replygetkeys") (.list out)).set (ascii "skip")
            (.number (Double.ofInt skip))
          reply (dump (wresult.set (ascii "limit") (.number (Double.ofInt limit))))
        | none => return ())
    (return ())

/-- `onMessage` for a connection whose user data is an id, as `handle_upgrade` sets it. A
text that is no document raises a runtime error at its first use, which is caught. -/
def onMessage (id data : Bytes) (binary : Bool) (timestamp : Bytes) : SocketM Unit :=
  match load data with
  | none => return ()
  | some x => catchRuntime
    (do
      if ← ofExcept (x.has (ascii "connect")) then
        let _ ← ofExcept ((x.field (ascii "connect")).bind RValue.b)
      if ← ofExcept (x.has (ascii "join")) then onJoin x id timestamp
      else if ← ofExcept (x.has (ascii "userlist")) then onUserList x timestamp
      else if ← ofExcept (x.has (ascii "send")) then onSend x id data binary timestamp
      else onQueryMessage x)
    (return ())

/-! ## Closing -/

/-- The notice that a user has left a room. -/
def leftNotice (room id timestamp : Bytes) : Bytes :=
  dump (((WValue.null.set (ascii "left") (.string room)).set (ascii "from") (.string id)).set
    (ascii "timestamp") (.string timestamp))

/-- The loop of `onClose` over the rooms that it has found. -/
def leaveRooms (id timestamp : Bytes) : List (Bytes × Bytes) → SocketM Unit
  | [] => return ()
  | e :: rooms => do
    let notify ← notifies
    if notify then broadcast e.2 (leftNotice e.2 id timestamp) true
    leave e.2
    leaveRooms id timestamp rooms

/-- `onClose`. -/
def onClose (id timestamp : Bytes) : SocketM Unit := do
  let found ← rooms (id ++ [95])
  leaveRooms id timestamp found
  forget (found.map Prod.fst)

end

end SocketInterceptor

/-- A text that has been sent. -/
inductive Sent
  /-- By `broadcast`: to the pointers found, which may be null. -/
  | toRoom (room text : Bytes) (skipped : Option ℕ) (receivers : List (Option ℕ))
  | toUser (receiver : ℕ) (data : Bytes)
  | toSender (sender : ℕ) (text : Bytes)
  deriving DecidableEq

/-- The open connections with their ids, and the members of `SocketInterceptor`. Each
connection is given a number when it is opened, which stands for its address. -/
structure Hub where
  conns : OrderedMap ℕ Bytes
  /-- The number of the next connection. -/
  next : ℕ
  /-- `_connMap`; `none` is the null pointer. -/
  connMap : OrderedMap Bytes (Option ℕ)
  /-- `_userRoomsMap`. -/
  userRooms : Store
  /-- `_notifyAllOnClose`. -/
  notifies : Bool
  /-- What has been sent, oldest first. -/
  sent : List Sent

namespace Hub

open SocketInterceptor

/-- `lookup`: the entry of the key, or else the entries whose key starts with it. -/
def lookup {α : Type} (m : OrderedMap Bytes α) (key : Bytes) : List (Bytes × α) :=
  match m.above key with
  | [] => []
  | e :: es => if e.1 = key then [e] else (e :: es).takeWhile fun e => key.isPrefixOf e.1

/-- The pointers that `broadcast` sends a text to. -/
def receivers (s : Hub) (room : Bytes) (skipped : Option ℕ) : List (Option ℕ) :=
  ((lookup s.connMap room).map Prod.snd).filter fun u => skipped.isNone || u ≠ skipped

/-- The results of `Quarks().dump` and of `Quarks().getKeys`. -/
structure Answers where
  saved : Bool
  keys : Option (List WValue)

/-- The effect of an operation of a handler for a connection. -/
def handle (conn : ℕ) (id : Bytes) (answers : Answers) : Prog.Handler SocketRes Hub
  | .users key, s => ((lookup s.connMap key).map Prod.fst, s)
  | .rooms key, s => (lookup s.userRooms key, s)
  | .broadcast room text skips, s =>
    let skipped := if skips then some conn else none
    ((), { s with sent := s.sent ++ [.toRoom room text skipped (s.receivers room skipped)] })
  | .notifies, s => (s.notifies, s)
  | .setNotifies notify, s => ((), { s with notifies := notify })
  | .join room, s =>
    ((), { s with
      connMap := s.connMap.insert (roomKey room id) (some conn)
      userRooms := s.userRooms.insert (userKey id room) room })
  | .leave room, s => ((), { s with connMap := s.connMap.erase (roomKey room id) })
  | .forget keys, s => ((), { s with userRooms := s.userRooms.eraseAll keys })
  | .direct key data, s => match s.connMap.find? key with
    | some (some u) => ((), { s with sent := s.sent ++ [.toUser u data] })
    | some none => ((), s)
    -- `operator[]` has put a null pointer under the key
    | none => ((), { s with connMap := s.connMap.insert key none })
  | .reply text, s => ((), { s with sent := s.sent ++ [.toSender conn text] })
  | .dump _ _, s => (answers.saved, s)
  | .getKeys _ _, s => (answers.keys, s)

end Hub

/-- What happens to the web sockets. -/
inductive SocketEvent
  /-- A connection is opened with this id; its message `{"connect":true}` does nothing. -/
  | opened (id : Bytes)
  | message (conn : ℕ) (data : Bytes) (binary : Bool) (answers : Hub.Answers) (timestamp : Bytes)
  | closed (conn : ℕ) (timestamp : Bytes)

namespace Hub

open SocketInterceptor

/-- The interceptor before the first connection. -/
def start : Hub := ⟨OrderedMap.empty, 0, OrderedMap.empty, OrderedMap.empty, true, []⟩

/-- The interceptor after an event. Only open connections send messages and are closed. -/
def step [HashOrder] (s : Hub) : SocketEvent → Hub
  | .opened id => { s with conns := s.conns.insert s.next (cstr id), next := s.next + 1 }
  | .message conn data binary answers timestamp => match s.conns.find? conn with
    | some id =>
      ((SocketInterceptor.onMessage id data binary timestamp).run (handle conn id answers) s).2
    | none => s
  | .closed conn timestamp => match s.conns.find? conn with
    | some id =>
      let s := ((onClose id timestamp).run (handle conn id ⟨false, none⟩) s).2
      { s with conns := s.conns.erase conn }
    | none => s

end Hub

end Quarks
