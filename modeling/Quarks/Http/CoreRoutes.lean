import Quarks.Http.QueryString
import Quarks.Routing.Router

/-!
# The routes of the HTTP interface

The handlers of `HttpRouter::BuildHttpRoutes` for the routes that the TCP interface has as well.
They take their arguments from the parameters of the target, as texts.
-/

namespace Quarks

namespace HttpRouter

/-- `crow::request`: the target as it was sent, and the body. -/
structure Request where
  target : Bytes
  body : Bytes

/-- `req.url_params.get(name)`, where a missing or an empty text gives way to a default. -/
def Request.param (req : Request) (name dflt : Bytes) : Bytes :=
  match urlParam name req.target with
  | some (c :: value) => c :: value
  | _ => dflt

/-- `QueryParams`. -/
structure QueryParams where
  wild : Bytes
  skip : Bytes
  limit : Bytes

/-- `QueryParams::Parse`. -/
def QueryParams.parse (req : Request) : QueryParams where
  wild := req.param (ascii "keys") []
  skip := req.param (ascii "skip") (ascii "0")
  limit := req.param (ascii "limit") (ascii "-1")

/-- The window of a query: `std::stoi` of both texts. -/
def QueryParams.window (q : QueryParams) : Except Failure Window := do
  let skip ← stoi q.skip
  let limit ← stoi q.limit
  return ⟨skip, limit⟩

/-- `!reverse.compare("true")`. -/
def Request.reverse (req : Request) : Bool :=
  req.param (ascii "reverse") (ascii "false") = ascii "true"

/-- The parameter `key`, where a missing one is the empty text. -/
def Request.key (req : Request) : Bytes := (urlParam (ascii "key") req.target).getD []

/-- The body, or the parameter `body` in its place. -/
def Request.bodyText (req : Request) : Bytes := (urlParam (ascii "body") req.target).getD req.body

/-- A query on the loaded body, which has to be a JSON document. -/
def Request.withBody {α : Type} (req : Request) (missing : α) (query : RValue → CoreM α) :
    CoreM α :=
  match load req.bodyText with
  | none => return missing
  | some x => query x

section Callbacks

variable [HashOrder] (c : Config) (outside : Routing.Outside)

/-! ## The callbacks that answer with a text -/

/-- `route_core_put_callback`. -/
def routeCorePutCallback (req : Request) : CoreM Bytes := do return (← put c req.bodyText).2

/-- `route_core_putatom_callback`. -/
def routeCorePutatomCallback (req : Request) : CoreM Bytes := do
  return (← putAtom c req.bodyText).2

/-- `route_core_removeatom_callback`. -/
def routeCoreRemoveatomCallback (req : Request) : CoreM Bytes := do
  return (← removeAtom c req.bodyText).2

/-- `route_core_atom_callback`. -/
def routeCoreAtomCallback (req : Request) : CoreM Bytes := do return (← atom c req.bodyText).2

/-- `route_core_incrvalue_callback`. -/
def routeCoreIncrvalueCallback (req : Request) : CoreM Bytes := do
  return (← incrementValue c req.bodyText).2

/-- `route_core_existkey_callback`. -/
def routeCoreExistkeyCallback (req : Request) : CoreM Bytes :=
  catchWhat (do
    if req.key = [] then return ascii "\x7b\"error\": \"parameter 'key' missing\"\x7d"
    return (← getKeyValuePair c req.key).2)
  fun _ => ascii "\x7b\"error\":\"parsing error\"\x7d"

/-- `route_core_get_callback`. -/
def routeCoreGetCallback (req : Request) : CoreM Bytes :=
  catchWhat (do
    if req.key = [] then return ascii "\x7b\"error\": \"parameter 'key' missing\"\x7d"
    return (← get c req.key).getD [])
  fun _ => ascii "\x7b\"error\":\"parsing error\"\x7d"

/-- `route_core_getkeys_callback`. -/
def routeCoreGetkeysCallback (req : Request) : CoreM Bytes :=
  catchWhat (do
    let q := QueryParams.parse req
    if q.wild = [] then return []
    let win ← ofExcept q.window
    let r ← if req.reverse then getKeysReversedText c q.wild [] win
      else getKeysText c q.wild [] win
    if r.1 then return r.2 else Routing.closeWithError r.2)
  (Routing.textError [])

/-- `route_core_getcount_callback`. The answer to a request without a pattern is replaced, as
nothing has been counted. -/
def routeCoreGetcountCallback (req : Request) : CoreM Bytes :=
  catchWhat (do
    let q := QueryParams.parse req
    if q.wild = [] then return ascii "\x7b\"error\" : \"counting error\"\x7d"
    let win ← ofExcept q.window
    let r ← getCount c q.wild 0 win
    if r.1 then return toString r.2
    else return ascii "\x7b\"error\" : \"counting error\"\x7d")
  id

/-- `route_core_removekey_callback`. -/
def routeCoreRemovekeyCallback (req : Request) : CoreM Bytes :=
  catchWhat (do
    if req.key = [] then return ascii "\x7b\"error\": \"parameter 'key' missing\"\x7d"
    return (← remove c req.key).2)
  id

/-- `route_core_getlist_callback`. -/
def routeCoreGetlistCallback (req : Request) : CoreM Bytes :=
  req.withBody (ascii "\x7b\"result\":[],\"error\":\"invalid json body\"\x7d") fun x => do
    let win ← ofExcept (QueryParams.parse req).window
    return (← getListText c x [] win).2

/-- `route_core_incr_callback`. -/
def routeCoreIncrCallback (req : Request) : CoreM Bytes :=
  req.withBody (ascii "invalid Json Body") fun x => do
    let key ← ofExcept ((x.field (ascii "key")).bind RValue.s)
    let stepBy ← ofExcept ((x.field (ascii "step")).bind RValue.i)
    return (← increment c key (int32 stepBy)).2

/-! ## The callbacks that answer with a JSON tree -/

/-- `route_core_getkeysmulti_callback`. A call that does not return has no answer. -/
def routeCoreGetkeysmultiCallback (req : Request) : CoreM WValue :=
  catchWhat (do
    if req.bodyText = [] then
      return WValue.null.set (ascii "error")
        (.string (ascii "\x7b\"error\":\"parameter 'body' missing or has no content\"\x7d"))
    let win ← ofExcept (QueryParams.parse req).window
    let store ← dbIterate
    match getKeysMulti c store req.bodyText win outside.numWorkers outside.schedule with
    | some r => return Routing.queryAnswer r
    | none => throw .undefined)
  (Routing.jsonError [])

/-- `route_core_iter_callback`. -/
def routeCoreIterCallback (req : Request) : CoreM WValue :=
  catchWhat (do
    let win ← ofExcept (QueryParams.parse req).window
    return Routing.queryAnswer (← if req.reverse then iterReversed c win else iter c win))
  (Routing.jsonError [])

/-- `route_core_removekeys_callback`. -/
def routeCoreRemovekeysCallback (req : Request) : CoreM WValue :=
  catchWhat (do
    let q := QueryParams.parse req
    if q.wild = [] then
      return WValue.null.set (ascii "error")
        (.string (ascii "\x7b\"error\":\"parameter 'keys' missing\"\x7d"))
    let win ← ofExcept q.window
    return WValue.null.set (ascii "result") (.number (Double.ofInt (← removeAll c q.wild win))))
  fun what => WValue.null.set (ascii "error") (.string what)

/-- `route_core_make_callback`. -/
def routeCoreMakeCallback (req : Request) : CoreM WValue :=
  catchWhat (do return (← makePair c req.bodyText outside.uuid).2)
  fun _ => (Routing.madeBefore outside req.bodyText).set (ascii "error")
    (.string (ascii "runtime error"))

/-- `route_core_getkeysafter_callback`. -/
def routeCoreGetkeysafterCallback (req : Request) : CoreM WValue :=
  req.withBody Routing.invalidParameters fun x => do
    let win ← ofExcept (QueryParams.parse req).window
    return Routing.listAnswer (← getKeysAfter c x win)

/-- `route_core_getkeyslast_callback`. -/
def routeCoreGetkeyslastCallback (req : Request) : CoreM WValue :=
  req.withBody Routing.invalidParameters fun x => do
    return Routing.listAnswer (← getKeysLast c x)

/-! ## The routes -/

/-- A JSON answer is printed by crow. -/
def printed (p : CoreM WValue) : CoreM Bytes := do return dump (← p)

/-- Routes of `app` under which `Routing::BuildRoutes` registers a callback, too. -/
def coreRoutes : List (Bytes × (Request → CoreM Bytes)) :=
  [(ascii "/put", routeCorePutCallback c),
    (ascii "/exists", routeCoreExistkeyCallback c),
    (ascii "/get", routeCoreGetCallback c),
    (ascii "/getkeys", routeCoreGetkeysCallback c),
    (ascii "/getkeysmulti", fun req => printed (routeCoreGetkeysmultiCallback c outside req)),
    (ascii "/getcount", routeCoreGetcountCallback c),
    (ascii "/iter", fun req => printed (routeCoreIterCallback c req)),
    (ascii "/remove", routeCoreRemovekeyCallback c),
    (ascii "/removeall", fun req => printed (routeCoreRemovekeysCallback c req)),
    (ascii "/remove/atom", routeCoreRemoveatomCallback c),
    (ascii "/put/atom", routeCorePutatomCallback c),
    (ascii "/atom", routeCoreAtomCallback c),
    (ascii "/make", fun req => printed (routeCoreMakeCallback c outside req)),
    (ascii "/getlist", routeCoreGetlistCallback c),
    (ascii "/getkeysafter", fun req => printed (routeCoreGetkeysafterCallback c req)),
    (ascii "/getkeyslast", fun req => printed (routeCoreGetkeyslastCallback c req)),
    (ascii "/incr", routeCoreIncrCallback c),
    (ascii "/incrval", routeCoreIncrvalueCallback c)]

end Callbacks

end HttpRouter

end Quarks
