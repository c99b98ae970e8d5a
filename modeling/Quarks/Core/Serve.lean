import Quarks.Core.Increment

/-!
# Serving requests

A Quarks process opens its database and then serves requests: the operations of
its HTTP interface, messages on its web sockets, and on a reader node the records
that arrive from the broker. A run serves any finite list of them.
-/

namespace Quarks

open Basis

variable [HashOrder]

/-- What a message on a web socket makes the process store: a text under a key. The
replies and broadcasts of `SocketInterceptor::onMessage` do not touch the database
and are left out; `from` is the user id of the connection. -/
def joinedPair (x : RValue) (from? : Option Bytes) (timestamp : Bytes) :
    Except Failure (Option (Bytes × WValue)) := do
  let room ← (← x.field (ascii "join")).s
  match from? with
  | none => return none
  | some id =>
    if ← x.has (ascii "notifyjoin") then
      if ← (← x.field (ascii "notifyjoin")).b then
        let wsend := (WValue.null.set (ascii "joined") (.string room)).set (ascii "from")
          (.string id)
        let wsend ← if ← x.has (ascii "data") then do
            pure (wsend.set (ascii "data") (← WValue.ofRValue (← x.field (ascii "data"))))
          else pure wsend
        let wsend := wsend.set (ascii "timestamp") (.string timestamp)
        if ← x.has (ascii "key") then
          return some (← (← x.field (ascii "key")).s, wsend)
    return none

/-- The same for a message that is sent to a room. -/
def sentPair (x : RValue) (from? : Option Bytes) (timestamp : Bytes) :
    Except Failure (Option (Bytes × WValue)) := do
  let room ← stringField x (ascii "room") []
  let message ← WValue.ofRValue (← x.field (ascii "send"))
  let wsend := (WValue.null.set (ascii "room") (.string room)).set (ascii "message") message
  let wsend := match from? with
    | some id => wsend.set (ascii "from") (.string id)
    | none => wsend
  let wsend := wsend.set (ascii "timestamp") (.string timestamp)
  if ← x.has (ascii "key") then
    return some (← (← x.field (ascii "key")).s, wsend)
  return none

/-- The pair that a parsed message makes the process store, if any. -/
def messagePair (x : RValue) (from? : Option Bytes) (timestamp : Bytes) :
    Except Failure (Option (Bytes × WValue)) := do
  -- `x.has("connect") && x["connect"].b()` may raise an exception, its value is not used
  if ← x.has (ascii "connect") then
    let _ ← (← x.field (ascii "connect")).b
  if ← x.has (ascii "join") then joinedPair x from? timestamp
  else if ← x.has (ascii "userlist") then return none
  else if ← x.has (ascii "send") then sentPair x from? timestamp
  else return none

/-- `SocketInterceptor::onMessage`, as far as it concerns the database. -/
def onMessage (c : Config) (data : Bytes) (from? : Option Bytes) (timestamp : Bytes) :
    CoreM Unit :=
  match load data with
  | none => return ()
  | some x => catchRuntime
    (do
      match ← ofExcept (messagePair x from? timestamp) with
      | none => return ()
      | some (key, wsend) =>
        let _ ← dumpPair c key (dump wsend)
        return ())
    (return ())

/-- The fields `key`, `value` and `action` of a record. -/
def recordFields (x : RValue) : Except Failure (Bytes × Bytes × Bytes) := do
  let key ← (← x.field (ascii "key")).s
  let value ← (← x.field (ascii "value")).s
  let action ← (← x.field (ascii "action")).s
  return (key, value, action)

/-- `qcSave`: a record from the broker is applied to the database, and to nothing else. -/
def qcSave (c : Config) (data : Bytes) : CoreM Unit :=
  match load data with
  | none => return ()
  | some x => do
    let (key, value, action) ← ofExcept (recordFields x)
    if c.dbOk then
      if action = ascii "put" then
        let _ ← dbPut key value
      else if action = ascii "remove" then
        let _ ← dbDelete key

/-- The operations that may change the database. A random identifier and the time of
day are given with the requests that use them. -/
inductive Request
  | put (body : Bytes)
  | post (body : Bytes)
  | dump (key value : Bytes)
  | putAtom (body : Bytes)
  | makePair (body uuid : Bytes)
  | increment (key : Bytes) (stepBy : ℤ)
  | incrementValue (body : Bytes)
  | geoput (body : Bytes)
  | message (data : Bytes) (from? : Option Bytes) (timestamp : Bytes)
  | remove (key : Bytes)
  | removeAll (wild : Bytes) (win : Window)
  | removeAtom (body : Bytes)
  | atom (body : Bytes)
  | qcSave (data : Bytes)

/-- Serve one request; the answer to the client is dropped. -/
def serve (c : Config) : Request → CoreM Unit
  | .put body => discard (put c body)
  | .post body => discard (post c body)
  | .dump key value => discard (dumpPair c key value)
  | .putAtom body => discard (putAtom c body)
  | .makePair body uuid => discard (makePair c body uuid)
  | .increment key stepBy => discard (increment c key stepBy)
  | .incrementValue body => discard (incrementValue c body)
  | .geoput body => discard (geoput c body)
  | .message data from? timestamp => onMessage c data from? timestamp
  | .remove key => discard (remove c key)
  | .removeAll wild win => discard (removeAll c wild win)
  | .removeAtom body => discard (removeAtom c body)
  | .atom body => discard (atom c body)
  | .qcSave data => qcSave c data

/-- The process after one request; an exception ends the request, not the process. -/
def step (c : Config) (faults : Faults) (w : World) (r : Request) : World :=
  ((serve c r).run (handle faults) w).2

/-- The process after a list of requests. -/
def serveAll (c : Config) (faults : Faults) (w : World) (rs : List Request) : World :=
  rs.foldl (step c faults) w

/-- `openDB`: the process before its first request. With the cache enabled every entry
that the iterator meets is copied into it. -/
def openDB (c : Config) (db : Store) : World where
  node :=
    { db := db
      cache := if c.cacheEnabled then OrderedMap.empty.insertAll db.seekToFirst.forward
        else OrderedMap.empty
      published := []
      requests := [] }
  calls := 0
  locked := fun _ => false

/-! ## What the functions do to the data -/

variable {faults : Faults} {I E : Node → Prop} (c : Config)

theorem onMessage_triple {J : Node → Prop} {data : Bytes} {from? : Option Bytes}
    {timestamp : Bytes} (hskip : ∀ n, I n → J n)
    (hput : ∀ n x key w, I n → load data = some x →
      messagePair x from? timestamp = .ok (some (key, w)) → J (n.stored c key (dump w))) :
    DataTriple faults I (onMessage c data from? timestamp) (fun _ => J) J := by
  unfold onMessage
  split
  · exact DataTriple.pure hskip
  next x hx =>
  refine DataTriple.catchRuntime (M := J) ?_ (DataTriple.pure fun _ hn => hn) fun _ hn => hn
  refine DataTriple.ofExcept hskip fun pair hpair => ?_
  rcases pair with _ | ⟨key, w⟩
  · exact DataTriple.pure hskip
  · exact DataTriple.bind (M := fun _ => J)
      (dumpPair_triple c hskip fun n hn => hput n x key w hn hx hpair)
      fun _ => DataTriple.pure fun _ hn => hn

omit [HashOrder] in
/-- A record that is applied changes the database only. -/
theorem qcSave_triple {J : Node → Prop} {data : Bytes} (hskip : ∀ n, I n → J n)
    (hput : ∀ n x key value, I n → load data = some x →
      recordFields x = .ok (key, value, ascii "put") →
      J { n with db := n.db.insert key value })
    (hdelete : ∀ n x key value, I n → load data = some x →
      recordFields x = .ok (key, value, ascii "remove") → J { n with db := n.db.erase key }) :
    DataTriple faults I (qcSave c data) (fun _ => J) J := by
  unfold qcSave
  split
  · exact DataTriple.pure hskip
  next x hx =>
  refine DataTriple.ofExcept hskip fun fields hfields => ?_
  obtain ⟨key, value, action⟩ := fields
  simp only
  split
  · split
    · next h =>
      subst h
      exact DataTriple.bind (M := fun _ => J)
        (DataTriple.dbPut (fun _ => hskip) fun n hn => hput n x key value hn hx hfields)
        fun _ => DataTriple.pure fun _ hn => hn
    · split
      · next h =>
        subst h
        exact DataTriple.bind (M := fun _ => J)
          (DataTriple.dbDelete (fun _ => hskip) fun n hn => hdelete n x key value hn hx hfields)
          fun _ => DataTriple.pure fun _ hn => hn
      · exact DataTriple.pure hskip
  · exact DataTriple.pure hskip

/-! ## Runs -/

/-- Every request of a run meets a condition on the data that it finds. -/
def EachMeets (P : Node → Request → Prop) (c : Config) (faults : Faults) :
    World → List Request → Prop
  | _, [] => True
  | w, r :: rs => P w.node r ∧ EachMeets P c faults (step c faults w r) rs

/-- A property of the data that every request preserves, if it meets a condition, holds
in every state that a run of such requests reaches. -/
theorem serveAll_of_eachMeets {P : Node → Request → Prop} {w : World} {rs : List Request}
    (hstep : ∀ w r, I w.node → P w.node r → I (step c faults w r).node) (hw : I w.node)
    (hrs : EachMeets P c faults w rs) {done : List Request} (hdone : done <+: rs) :
    I (serveAll c faults w done).node := by
  induction done generalizing w rs with
  | nil => exact hw
  | cons r done ih =>
    obtain ⟨rest, rfl⟩ := hdone
    exact ih (hstep w r hw hrs.1) hrs.2 ⟨rest, rfl⟩

/-- A request keeps what its program keeps, whether it is answered or raises an exception. -/
theorem step_of_triple {J : Node → Prop} {r : Request}
    (h : DataTriple faults I (serve c r) (fun _ => J) J) {w : World} (hw : I w.node) :
    J (step c faults w r).node := by
  have hw' := h w hw
  unfold step
  rcases hrun : Prog.run (handle faults) (serve c r) w with ⟨e | a, w'⟩ <;>
    simpa [hrun] using hw'

omit [HashOrder] in
/-- The requests that a process serves for its own clients. -/
def Request.isLocal : Request → Bool
  | .qcSave _ => false
  | _ => true

/-- What every commit keeps, and every miss of the cache, every request keeps, if RocksDB
never fails. -/
theorem step_keeps (hmissed : ∀ n key, I n → I (n.missed key))
    (hstored : ∀ n key value, I n → I (n.stored c key value))
    (herased : ∀ n key, I n → I (n.erased c key))
    (hbatch : ∀ n keys, I n → I (n.allErased c keys)) {r : Request} (hr : r.isLocal = true)
    {w : World} (hw : I w.node) : I (step c noFaults w r).node := by
  suffices h : DataTriple noFaults I (serve c r) (fun _ => I) I from step_of_triple c h hw
  have hskip : ∀ n, I n → I n := fun _ hn => hn
  have hfail : ∀ {P : Prop}, (∃ i keys, noFaults i (.write keys) = true) → P := by
    rintro P ⟨i, keys, hi⟩
    cases hi
  cases r with
  | put body | post body =>
    exact DataTriple.discard (insert_triple c hskip fun n _ key w hn _ _ => hstored n key _ hn)
  | dump key value =>
    exact DataTriple.discard (dumpPair_triple c hskip fun n => hstored n key value)
  | putAtom body =>
    exact DataTriple.discard (putAtom_triple c (P := fun _ => I) (fun _ _ _ hn _ => hn)
      (fun _ _ _ _ hn => hn) fun _ _ n key w hn _ => hstored n key _ hn)
  | makePair body uuid =>
    exact DataTriple.discard (makePair_triple c hskip
      fun n key value hn _ => hstored n key value hn)
  | increment key stepBy =>
    exact DataTriple.discard (increment_triple c hskip (fun _ n hn _ => hmissed n key hn)
      fun n _ z hn _ _ => hstored n key _ hn)
  | incrementValue body =>
    exact DataTriple.discard (incrementValue_triple c hskip
      fun n _ key _ w _ hn _ _ _ _ => hstored n key _ hn)
  | geoput body =>
    exact DataTriple.discard (geoput_triple c hskip fun n _ key w hn _ _ => hstored n key _ hn)
  | message data from? timestamp =>
    exact onMessage_triple c hskip fun n _ key w hn _ _ => hstored n key _ hn
  | remove key =>
    exact DataTriple.discard (remove_triple c (fun _ hn _ => hn) fun n hn _ => herased n key hn)
  | removeAll wild win =>
    exact DataTriple.discard (removeAll_triple c (fun _ _ hn => hn) hfail
      fun n hn _ => hbatch n _ hn)
  | removeAtom body =>
    exact DataTriple.discard ((removeAtom_triple c (P := fun _ => I) (fun _ _ _ hn _ => hn)
      fun key _ n hn _ => herased n key hn).mono hskip (fun _ _ hn => hn.1) hskip)
  | atom body =>
    exact DataTriple.discard (atom_triple c (P := fun _ => I) (Q := fun _ => I)
      (fun _ _ hn => hn) (fun _ _ _ hn => hn) (fun _ _ _ hn _ => hn)
      (fun key _ n hn _ => herased n key hn) (fun _ _ _ _ hn => hn) hfail
      (fun _ n _ hn => hbatch n _ hn) (fun _ _ _ hn _ => hn) (fun _ _ _ _ hn => hn)
      fun _ _ n key w hn _ => hstored n key _ hn)
  | qcSave data => cases hr

end Quarks
