import Quarks.Core.After
import Quarks.Core.Joined
import Quarks.Core.Multi
import Quarks.Core.Sorted

/-!
# Requests of the TCP interface

`Routing::Request` reads its fields from the text of a request, and the handlers read further
ones from the parsed text. A text that cannot be parsed gives a request without a query.
-/

namespace Quarks

open Basis

namespace Routing

/-- `Routing::Request`. The `rvalue` of a text that cannot be parsed has the type of `null`. -/
structure Request where
  query : Bytes
  body : Bytes
  skip : ℤ
  limit : ℤ
  reverse : Bool
  req : RValue

/-- `req.has(name) ? read(req[name]) : dflt`. -/
def fieldOr {α : Type} (req : RValue) (name : Bytes) (read : RValue → Except Failure α)
    (dflt : α) : Except Failure α := do
  if ← req.has name then read (← req.field name) else return dflt

/-- The text of a body without elements. A body with elements is left to `bodyJson`. -/
def bodyText (body : RValue) : Except Failure Bytes := do
  if (← body.size) = 0 then body.s else return []

/-- The constructor of `Routing::Request`. -/
def Request.make (request : Bytes) : Except Failure Request :=
  match load request with
  | none => .ok ⟨[], [], 0, -1, false, .null⟩
  | some req => do
    let query ← fieldOr req (ascii "query") RValue.s []
    let body ← fieldOr req (ascii "body") bodyText []
    let skip ← fieldOr req (ascii "skip") (fun x => x.i.map int32) 0
    let limit ← fieldOr req (ascii "limit") (fun x => x.i.map int32) (-1)
    let reverse ← fieldOr req (ascii "reverse") RValue.b false
    return ⟨query, body, skip, limit, reverse, req⟩

/-- `Request::get`. -/
def Request.get (r : Request) (attrib : Bytes) : Except Failure Bytes :=
  fieldOr r.req attrib RValue.s []

/-- `Request::wild`. -/
def Request.wild (r : Request) : Except Failure Bytes := r.get (ascii "keys")

/-- `Request::bodyJson`: the body, if there is one. -/
def Request.bodyJson (r : Request) : Except Failure (Option RValue) :=
  fieldOr r.req (ascii "body") (fun body => .ok (some body)) none

/-- The arguments `skip` and `limit` of a request. -/
def Request.window (r : Request) : Window := ⟨r.skip, r.limit⟩

/-! ## What a request can hold -/

/-- What the constructor makes of an object, or of a text that cannot be parsed: the text of the
body is empty, as one that is not has elements, and a lookup by name is defined. -/
structure Request.WellFormed (r : Request) : Prop where
  body : r.body = []
  named : r.req = .null ∨ ∃ o, r.req = .object o

/-- A text without elements is empty. -/
theorem bodyText_eq_nil {body : RValue} {text : Bytes} (h : bodyText body = .ok text) :
    text = [] := by
  unfold bodyText at h
  obtain ⟨size, hsize, h⟩ := of_bind_ok h
  split at h
  · next hzero =>
    subst hzero
    cases body with
    | string raw =>
      have hlen : (unescape raw).length = 0 := by simpa [RValue.size] using hsize
      have htext : unescape raw = text := by simpa [RValue.s] using h
      rw [← htext, ← List.length_eq_zero_iff, hlen]
    | _ => cases h
  · cases h
    rfl

theorem fieldOr_bodyText {req : RValue} {name text : Bytes}
    (h : fieldOr req name bodyText [] = .ok text) : text = [] := by
  unfold fieldOr at h
  obtain ⟨found, -, h⟩ := of_bind_ok h
  split at h
  · obtain ⟨body, -, h⟩ := of_bind_ok h
    exact bodyText_eq_nil h
  · cases h
    rfl

/-- A request that is made from an object, or from no value at all, is well formed. -/
theorem Request.make_wellFormed {request : Bytes} {r : Request}
    (hobject : ∀ x, load request = some x → ∃ o, x = .object o)
    (h : Request.make request = .ok r) : r.WellFormed := by
  unfold Request.make at h
  split at h
  · cases h
    exact ⟨rfl, Or.inl rfl⟩
  next req hreq =>
  obtain ⟨query, -, h⟩ := of_bind_ok h
  obtain ⟨body, hbody, h⟩ := of_bind_ok h
  obtain ⟨skip, -, h⟩ := of_bind_ok h
  obtain ⟨limit, -, h⟩ := of_bind_ok h
  obtain ⟨reverse, -, h⟩ := of_bind_ok h
  cases h
  exact ⟨fieldOr_bodyText hbody, Or.inr (hobject req hreq)⟩

end Routing

end Quarks
