import Quarks.Routing.Request

/-!
# The router of the TCP interface

The callbacks that `Routing::BuildRoutes` registers, the two tables it fills and
`Routing::Router::dispatch`. The text of a JSON answer is printed by the dispatcher, which
stops runtime errors and nothing else.
-/

namespace Quarks

open Basis

/-- `catch (const std::runtime_error& error)`, where the answer is made of `error.what()`. -/
def catchWhat {α : Type} (p : CoreM α) (answer : Bytes → α) : CoreM α :=
  tryCatch p fun e => match e with
    | .runtimeError what => return answer what
    | e => throw e

namespace Routing

/-- What the callbacks meet outside of the process. -/
structure Outside where
  /-- Whether RocksDB makes a checkpoint of the open database in a directory. -/
  checkpoint : Bytes → Bool
  /-- Whether `fopen` opens the file to be written. -/
  opens : Bool
  /-- `Core::openTCPSocketClient`: asio reports a failed connection as a `system_error`, which
  is a runtime error. -/
  connects : Except Bytes Bool
  /-- The random identifier that `makePair` makes. -/
  uuid : Bytes
  /-- The number of workers of `getKeysMulti`. -/
  numWorkers : ℕ
  /-- The order in which the workers take their turns. -/
  schedule : List (Fin numWorkers)

/-! ## The parts of an answer -/

/-- `handle_runtime_error` for a JSON answer. -/
def jsonError (results : List WValue) (what : Bytes) : WValue :=
  (WValue.null.set (ascii "error") (WValue.null.set (ascii "reason") (.string what))).set
    (ascii "result") (.list results)

/-- `handle_runtime_error` for a text. -/
def textError [HashOrder] (results what : Bytes) : Bytes :=
  dump ((WValue.null.set (ascii "error") (WValue.null.set (ascii "reason") (.string what))).set
    (ascii "result") (.string results))

/-- The answer of a query with its results. -/
def queryAnswer (r : Bool × List WValue) : WValue :=
  let out := WValue.null.set (ascii "result") (.list r.2)
  if r.1 then out
  else out.set (ascii "error") (.string (ascii "\x7b\"error\" : \"query returned error\"\x7d"))

/-- The answer of a query whose failure is called a runtime error. -/
def listAnswer (r : Bool × List WValue) : WValue :=
  let w := (WValue.null.set (ascii "result") (.string [])).set (ascii "result") (.list r.2)
  if r.1 then w else w.set (ascii "error") (.string (ascii "runtime error"))

/-- The answer to a request without a body. -/
def invalidParameters : WValue :=
  (WValue.null.set (ascii "result") (.string [])).set (ascii "error")
    (.string (ascii "invalid parameters"))

/-- A query on the body of a request, which has to have one. -/
def withBody {α : Type} (r : Request) (missing : α) (query : RValue → CoreM α) : CoreM α := do
  match ← ofExcept r.bodyJson with
  | none => return missing
  | some x => query x

section Callbacks

variable [HashOrder] (c : Config) (outside : Outside)

/-! ## The callbacks that answer with a text -/

/-- `route_ping_callback`. -/
def routePingCallback (_ : Request) : CoreM Bytes := return ascii "pong"

/-- `route_ai_callback`. -/
def routeAiCallback (_ : Request) : CoreM Bytes := return ascii "Feature not available"

/-- `route_core_postjson_callback`. -/
def routeCorePostjsonCallback (req : Request) : CoreM Bytes := do return (← post c req.body).2

/-- `route_core_put_callback`. -/
def routeCorePutCallback (req : Request) : CoreM Bytes := do return (← put c req.body).2

/-- `route_core_putjson_callback`. -/
def routeCorePutjsonCallback (req : Request) : CoreM Bytes := do return (← put c req.body).2

/-- `route_core_putatom_callback`. -/
def routeCorePutatomCallback (req : Request) : CoreM Bytes := do return (← putAtom c req.body).2

/-- `route_core_removeatom_callback`. -/
def routeCoreRemoveatomCallback (req : Request) : CoreM Bytes := do
  return (← removeAtom c req.body).2

/-- `route_core_atom_callback`. -/
def routeCoreAtomCallback (req : Request) : CoreM Bytes := do return (← atom c req.body).2

/-- `route_core_incrvalue_callback`. -/
def routeCoreIncrvalueCallback (req : Request) : CoreM Bytes := do
  return (← incrementValue c req.body).2

/-- `route_core_existkey_callback`. -/
def routeCoreExistkeyCallback (req : Request) : CoreM Bytes := do
  return (← getKeyValuePair c req.body).2

/-- `route_core_get_callback`. -/
def routeCoreGetCallback (req : Request) : CoreM Bytes :=
  catchWhat (do
    let key ← ofExcept (req.get (ascii "key"))
    return (← get c key).getD [])
  fun _ => ascii "\x7b\"error\":\"parsing error\"\x7d"

/-- `out[out.size() - 1] = ','` and what is put behind it. An empty text has no last
character. -/
def closeWithError : Bytes → CoreM Bytes
  | [] => throw .undefined
  | out => return out.dropLast ++ ascii ",\"error\" : \"wildcard or db error\"\x7d"

/-- `route_core_getkeys_callback`. -/
def routeCoreGetkeysCallback (req : Request) : CoreM Bytes :=
  catchWhat (do
    let wild ← ofExcept req.wild
    if wild = [] then return []
    let r ← if req.reverse then getKeysReversedText c wild [] req.window
      else getKeysText c wild [] req.window
    if r.1 then return r.2 else closeWithError r.2)
  (textError [])

/-- `route_core_getcount_callback`. The answer to a request without a pattern is replaced, as
nothing has been counted. -/
def routeCoreGetcountCallback (req : Request) : CoreM Bytes :=
  catchWhat (do
    let wild ← ofExcept req.wild
    if wild = [] then return ascii "\x7b\"error\" : \"counting error\"\x7d"
    let r ← getCount c wild 0 req.window
    if r.1 then return toString r.2
    else return ascii "\x7b\"error\" : \"counting error\"\x7d")
  id

/-- `route_core_removekey_callback`. -/
def routeCoreRemovekeyCallback (req : Request) : CoreM Bytes :=
  catchWhat (do
    let key ← ofExcept (req.get (ascii "key"))
    if key = [] then return ascii "\x7b\"error\": \"parameter 'key' missing\"\x7d"
    return (← remove c key).2)
  id

/-- `route_core_getlist_callback`. -/
def routeCoreGetlistCallback (req : Request) : CoreM Bytes :=
  withBody req (ascii "\x7b\"result\":[],\"error\":\"invalid json body\"\x7d") fun x => do
    return (← getListText c x [] req.window).2

/-- `route_core_incr_callback`. -/
def routeCoreIncrCallback (req : Request) : CoreM Bytes :=
  withBody req (ascii "\x7b\"error\":\"invalid parameters\"\x7d") fun x => do
    let key ← ofExcept ((x.field (ascii "key")).bind RValue.s)
    let stepBy ← ofExcept ((x.field (ascii "step")).bind RValue.i)
    return (← increment c key (int32 stepBy)).2

/-- `Core::backup`. There is no checkpoint of a database that has not been opened. -/
def backup (path : Bytes) : CoreM Bool :=
  if c.dbOk then return outside.checkpoint (if path = [] then ascii "quarks_backup" else path)
  else throw .undefined

/-- `route_core_backup_callback`. -/
def routeCoreBackupCallback (req : Request) : CoreM Bytes :=
  withBody req (ascii "\x7b\"result\":false, \"error\":\"invalid parameters\"\x7d") fun p => do
    let path ← ofExcept (fieldOr p (ascii "path") RValue.s [])
    if ← backup c outside path then return ascii "\x7b\"result\":true\x7d"
    else return ascii "\x7b\"result\":false\x7d"

/-- `route_core_filetransfer_callback`: `fwrite` writes all of the body. -/
def routeCoreFiletransferCallback (req : Request) : CoreM Bytes :=
  if outside.opens && !req.body.isEmpty then return ascii "\x7b\"result\":\"transferred\"\x7d"
  else return ascii "\x7b\"error\":\"not transferred\"\x7d"

/-- `route_core_opentcpsocket_callback`. -/
def routeCoreOpentcpsocketCallback (_ : Request) : CoreM Bytes :=
  match outside.connects with
  | .ok true => return ascii "\x7b\"result\":\"opened socket\"\x7d"
  | .ok false => return ascii "\x7b\"error\":\"socket closed\"\x7d"
  | .error what => throw (.runtimeError what)

/-- `route_core_log_callback`. That there is a logger is part of the configuration, which later
requests find changed. -/
def routeCoreLogCallback (_ : Request) : CoreM Bytes := return ascii "\x7b\"result\":true\x7d"

/-- `route_core_test_callback`. The number is that of the seconds it waits. -/
def routeCoreTestCallback (req : Request) : CoreM Bytes := do
  let timeout ← ofExcept (req.get (ascii "timeout"))
  let _ ← ofExcept (stoi timeout)
  return ascii "\x7b\"result\":true\x7d"

/-! ## The callbacks that answer with a JSON tree -/

/-- `route_core_getall_callback`. -/
def routeCoreGetallCallback (req : Request) : CoreM WValue :=
  catchWhat (do
    let wild ← ofExcept req.wild
    return queryAnswer (← getAll c wild req.window))
  (jsonError [])

/-- `route_core_getsorted_callback`. -/
def routeCoreGetsortedCallback [UnstableSort] (req : Request) : CoreM WValue :=
  catchWhat (do
    let sortby ← ofExcept (req.get (ascii "sortby"))
    let filterBy ← ofExcept (req.get (ascii "filter"))
    let descending ← ofExcept (req.get (ascii "des"))
    let wild ← ofExcept req.wild
    if wild = [] then
      return WValue.null.set (ascii "error")
        (.string (ascii "\x7b\"error\":\"parameter 'keys' missing\"\x7d"))
    let ascending := decide (descending ≠ ascii "true")
    return queryAnswer (← getSorted c wild sortby ascending req.window filterBy))
  (jsonError [])

/-- `route_core_getkeysmulti_callback`. A call that does not return has no answer. -/
def routeCoreGetkeysmultiCallback (req : Request) : CoreM WValue :=
  if req.body = [] then
    return WValue.null.set (ascii "error")
      (.string (ascii "\x7b\"error\":\"parameter 'body' missing or has no content\"\x7d"))
  else do
    let store ← dbIterate
    match getKeysMulti c store req.body req.window outside.numWorkers outside.schedule with
    | some r => return queryAnswer r
    | none => throw .undefined

/-- `route_core_iter_callback`. -/
def routeCoreIterCallback (req : Request) : CoreM WValue :=
  catchWhat (do return queryAnswer (← iter c req.window)) (jsonError [])

/-- `route_core_removekeys_callback`. -/
def routeCoreRemovekeysCallback (req : Request) : CoreM WValue :=
  catchWhat (do
    let wild ← ofExcept req.wild
    if wild = [] then
      return WValue.null.set (ascii "error")
        (.string (ascii "\x7b\"error\":\"parameter 'keys' missing\"\x7d"))
    return WValue.null.set (ascii "result")
      (.number (Double.ofInt (← removeAll c wild req.window))))
  fun what => WValue.null.set (ascii "error") (.string what)

/-- What `makePair` has written to its answer when it raises an exception. -/
def madeBefore (body : Bytes) : WValue :=
  match load body with
  | none => .null
  | some x => match makePairKey x outside.uuid, makePairValue x with
    | .ok key, .ok value =>
      (WValue.null.set (ascii "value") (.string value)).set (ascii "key") (.string key)
    | _, _ => .null

/-- `route_core_make_callback`. -/
def routeCoreMakeCallback (req : Request) : CoreM WValue :=
  catchWhat (do return (← makePair c req.body outside.uuid).2)
  fun _ => (madeBefore outside req.body).set (ascii "error") (.string (ascii "runtime error"))

/-- `route_core_getjson_callback`. -/
def routeCoreGetjsonCallback (req : Request) : CoreM WValue :=
  withBody req (WValue.null.set (ascii "error") (.string (ascii "invalid parameters"))) fun x =>
    catchWhat (do
      let key ← ofExcept ((x.field (ascii "key")).bind RValue.s)
      return (← getJson c key).getD .null)
    fun _ => WValue.null.set (ascii "error") (.string (ascii "parameter 'key' missing"))

/-- `route_core_getitems_callback`. -/
def routeCoreGetitemsCallback (req : Request) : CoreM WValue :=
  withBody req invalidParameters fun x => do
    let r ← getItems c x (WValue.null.set (ascii "result") (.string [])) req.window
    return if r.1 then r.2 else r.2.set (ascii "error")
      (.string (ascii "One or more keys did not retrieve the corresponding item"))

/-- `route_core_getjoinedmap_callback`. -/
def routeCoreGetjoinedmapCallback (req : Request) : CoreM WValue :=
  withBody req invalidParameters fun x => do return listAnswer (← getJoinedMap c x req.window)

/-- `route_core_getkeysafter_callback`. -/
def routeCoreGetkeysafterCallback (req : Request) : CoreM WValue :=
  withBody req invalidParameters fun x => do return listAnswer (← getKeysAfter c x req.window)

/-- `route_core_getkeyslast_callback`. -/
def routeCoreGetkeyslastCallback (req : Request) : CoreM WValue :=
  withBody req invalidParameters fun x => do return listAnswer (← getKeysLast c x)

/-- `route_core_searchjson_callback`. -/
def routeCoreSearchjsonCallback (req : Request) : CoreM WValue :=
  withBody req invalidParameters fun x => do
    let r ← searchJson c x req.window
    let w := WValue.null.set (ascii "result") (.string [])
    return if r.2 = [] then w else w.set (ascii "result") (.list r.2)

/-! ## The tables -/

/-- `routingTableString`. -/
def routingTableString : List (Bytes × (Request → CoreM Bytes)) :=
  [(ascii "/put", routeCorePutCallback c),
    (ascii "/exists", routeCoreExistkeyCallback c),
    (ascii "/get", routeCoreGetCallback c),
    (ascii "/getkeys", routeCoreGetkeysCallback c),
    (ascii "/getcount", routeCoreGetcountCallback c),
    (ascii "/remove", routeCoreRemovekeyCallback c),
    (ascii "/remove/atom", routeCoreRemoveatomCallback c),
    (ascii "/putjson", routeCorePutjsonCallback c),
    (ascii "/postjson", routeCorePostjsonCallback c),
    (ascii "/put/atom", routeCorePutatomCallback c),
    (ascii "/atom", routeCoreAtomCallback c),
    (ascii "/getlist", routeCoreGetlistCallback c),
    (ascii "/incr", routeCoreIncrCallback c),
    (ascii "/incrval", routeCoreIncrvalueCallback c),
    (ascii "/backup", routeCoreBackupCallback c outside),
    (ascii "/filetransfer", routeCoreFiletransferCallback outside),
    (ascii "/opentcpsocket", routeCoreOpentcpsocketCallback outside),
    (ascii "/log", routeCoreLogCallback),
    (ascii "/test", routeCoreTestCallback),
    (ascii "/ping", routePingCallback),
    (ascii "/ai", routeAiCallback)]

/-- `routingTableJson`. -/
def routingTableJson [UnstableSort] : List (Bytes × (Request → CoreM WValue)) :=
  [(ascii "/getall", routeCoreGetallCallback c),
    (ascii "/getsorted", routeCoreGetsortedCallback c),
    (ascii "/getkeysmulti", routeCoreGetkeysmultiCallback c outside),
    (ascii "/iter", routeCoreIterCallback c),
    (ascii "/removeall", routeCoreRemovekeysCallback c),
    (ascii "/make", routeCoreMakeCallback c outside),
    (ascii "/getjson", routeCoreGetjsonCallback c),
    (ascii "/getitems", routeCoreGetitemsCallback c),
    (ascii "/getjoinedmap", routeCoreGetjoinedmapCallback c),
    (ascii "/getkeysafter", routeCoreGetkeysafterCallback c),
    (ascii "/getkeyslast", routeCoreGetkeyslastCallback c),
    (ascii "/searchjson", routeCoreSearchjsonCallback c)]

/-- The part of `Router::dispatch` behind the construction of the request. -/
def route [UnstableSort] (req : Request) : CoreM Bytes := do
  let result ← match (routingTableString c outside).lookup req.query with
    | some dispatcherString => dispatcherString req
    | none => pure []
  if result = [] then
    match (routingTableJson c outside).lookup req.query with
    | some dispatcherJson => return dump (← dispatcherJson req)
    | none => return result
  return result

/-- `Router::dispatch`. -/
def dispatch [UnstableSort] (requestStr : Bytes) : CoreM Bytes :=
  catchWhat (do
    let req ← ofExcept (Request.make requestStr)
    route c outside req)
  fun _ => ascii "\x7b\"error\":\"dispatch error\"\x7d"

end Callbacks

end Routing

end Quarks
