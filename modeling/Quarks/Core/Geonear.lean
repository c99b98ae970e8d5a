import Quarks.Core.Patterns
import Quarks.Geohash
import Quarks.Json.Decimals

/-!
# Entries near a place

`geonear` looks for the entries whose keys start with the geohash of a cell or of one of its
neighbours. It copies the hash of the cell into a buffer of 128 characters, as many of them as
the precision says. The distance between two places is a parameter.
-/

namespace Quarks

open Basis

/-- The precision that goes with a radius in kilometres. -/
def precisionFor (radius : Double) : ℤ :=
  if radius.fallsBelow 1 1 then 6
  else if radius.fallsBelow 10 1 then 5
  else if radius.fallsBelow 40 1 then 4
  else if radius.fallsBelow 300 1 then 3
  else if radius.fallsBelow 1000 1 then 2
  else 1

/-- What `geonear` reads from its body. -/
structure GeoRequest where
  lat : Double
  lng : Double
  radius : Double
  precision : ℤ
  keysFilter : Bytes

/-- Read the body, with the defaults for what it leaves out. -/
def geoRequest (x : RValue) : Except Failure GeoRequest := do
  let lat ← coordinate x (ascii "lat")
  let lng ← coordinate x (ascii "lng")
  let lat := sanitize 90 lat
  let lng := sanitize 180 lng
  let radius ← if ← x.has (ascii "radius") then (← x.field (ascii "radius")).d
    else pure (Double.ofInt 5)
  let precision ← if ← x.has (ascii "precision") then do
      pure (int32 (← (← x.field (ascii "precision")).i))
    else pure (precisionFor radius)
  let keysFilter ← if ← x.has (ascii "keys") then do
      pure (ascii "_" ++ (← (← x.field (ascii "keys")).s))
    else pure []
  return { lat, lng, radius, precision, keysFilter }

/-- A write to `hashNeighs`. Outside of its 128 characters it is not defined. -/
def writeNeighs (index : ℤ) : Traced GeoEvent Unit := do
  .emit (.write index)
  if 0 ≤ index ∧ index < 128 then pure () else .goWrong

/-- `strncpy` to `hashNeighs`: it writes so many characters from an index on, zeros behind the
end of the text. -/
def strncpyNeighs : ℕ → ℕ → Traced GeoEvent Unit
  | _, 0 => pure ()
  | index, n + 1 => do
    writeNeighs index
    strncpyNeighs (index + 1) n

/-- The patterns for a cell and its neighbours. -/
def hashPrefixes (hash : Bytes) (precision : ℤ) (keysFilter : Bytes) :
    Traced GeoEvent (List Bytes) := do
  let hashPrefix := hash.take (sizeT precision)
  strncpyNeighs 0 (sizeT precision)
  writeNeighs precision
  let neighs ← geohashNeighbors hashPrefix
  return (hashPrefix :: neighs).map (· ++ ascii "*" ++ keysFilter)

/-- The filter of `geonear`; a distance that is not a number is within no radius. -/
def nearFilter (geodistance : Double → Double → Double → Double → Option Double)
    (r : GeoRequest) : PassFilter := fun input modifyOutput =>
  match input with
  | none => (.ok false, modifyOutput)
  | some x =>
    match (do return (← coordinate x (ascii "lat"), ← coordinate x (ascii "lng"))) with
    | .error f => (.error f, modifyOutput)
    | .ok (xlat, xlng) =>
      match geodistance r.lat r.lng xlat xlng with
      | some d =>
        if d.value ≤ r.radius.value then (.ok true, modifyOutput.set (ascii "far") (.number d))
        else (.ok false, modifyOutput)
      | none => (.ok false, modifyOutput)

/-- `Core::geonear`: whether all went well, `out`, and the results. -/
def geonear (geodistance : Double → Double → Double → Double → Option Double) (c : Config)
    (body : Bytes) (out : WValue) (win : Window) : CoreM (Bool × WValue × List WValue) :=
  match load body with
  | none =>
    return (false, out.set (ascii "error") (.string (ascii "invalid geonear body")), [])
  | some x => do
    let r ← ofExcept (geoRequest x)
    match (hashPrefixes (geohashEncode r.lat r.lng 8) r.precision r.keysFilter).result with
    | none => throw .undefined
    | some hashPrefixes => do
      let (ret, results) ← getAllFiltered c hashPrefixes (nearFilter geodistance r) win
      return (ret, out, results)

end Quarks
