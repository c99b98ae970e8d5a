import Quarks.Core.Remove
import Quarks.Core.Read

/-!
# Joins

`getItems` looks up the values of some keys. `getJoinedMap` makes keys from the keys that match
a pattern and from a list, and looks up what each of them is joined with.
-/

namespace Quarks

open Basis

/-! ## Items -/

/-- What becomes of one key of `getItems` that lies in the window: whether it is found, and the
result with its value. -/
def addItem (c : Config) (s : Bytes) (jsonResult : WValue) : CoreM (Bool × WValue) := do
  if c.dbOk then
    match ← dbGet s with
    | some value => return (true, jsonResult.set s (← ofExcept (loadValue value)))
    | none => return (false, jsonResult)
  else return (true, jsonResult)

/-- The loop of `getItems`, with the counter as it was before. A runtime error ends it. -/
def itemsLoop (c : Config) (win : Window) : List RValue → ℤ → Bool → WValue →
    CoreM (Bool × WValue)
  | [], _, ret, jsonResult => return (ret, jsonResult)
  | key :: keys, i, ret, jsonResult => do
    let item ← catchRuntime
      (do
        let s ← ofExcept key.s
        if win.takes (int32 (i + 1)) then return some (← addItem c s jsonResult)
        return some (true, jsonResult))
      (return none)
    match item with
    | none => return (false, jsonResult)
    | some (found, jsonResult) => itemsLoop c win keys (int32 (i + 1)) (ret && found) jsonResult

/-- `Core::getItems` into a result that has been begun. -/
def getItems (c : Config) (args : RValue) (jsonResult : WValue) (win : Window) :
    CoreM (Bool × WValue) := do
  if c.dbOk then
    match args.elements with
    | .ok keys => itemsLoop c win keys (-1) true jsonResult
    | .error _ => return (false, jsonResult)
  else return (true, jsonResult)

/-! ## Joined maps -/

/-- `tokenize`: `std::getline` up to a delimiter gives no token behind the last delimiter. -/
def splitTokens (input : Bytes) (delim : UInt8) : List Bytes :=
  let tokens := input.splitOn delim
  if tokens.getLast? = some [] then tokens.dropLast else tokens

/-- What `getJoinedMap` reads of its arguments. -/
structure JoinArgs where
  wild : Bytes
  hasKeyList : Bool
  splitby : Option Bytes
  selindex : ℤ
  join : RValue

/-- The arguments of `getJoinedMap`. -/
def joinArgs (args : RValue) : Except Failure JoinArgs := do
  let wild ← stringField args (ascii "keys") []
  let hasKeyList ← args.has (ascii "keylist")
  let splitby ← if ← args.has (ascii "splitby") then do
      pure (some (← (← args.field (ascii "splitby")).s))
    else pure none
  let selindex ← if ← args.has (ascii "selindex") then do
      pure (int32 (← (← args.field (ascii "selindex")).i))
    else pure (-1)
  let join ← args.field (ascii "join")
  return ⟨wild, hasKeyList, splitby, selindex, join⟩

/-- The final key of a key: one of its tokens, or the key itself. The first character of an
empty string is the zero at its end. -/
def finalKey (a : JoinArgs) (matchedKey : Bytes) : Bytes :=
  let tokens := match a.splitby with
    | some splitby => splitTokens matchedKey (splitby.headD 0)
    | none => []
  if -1 < a.selindex then tokens.getD a.selindex.toNat matchedKey else matchedKey

/-- The keys of `keylist`, up to the first that is not a string, and whether all are strings. -/
def keyList (args : RValue) : Bool × List Bytes :=
  match (args.field (ascii "keylist")).bind RValue.elements with
  | .ok klist => (klist.all fun kl => kl.s.isOk, leadingStrings klist)
  | .error _ => (false, [])

/-- The keys that are joined, and whether they could be read. -/
def sFinalKeys (a : JoinArgs) (args : RValue) (win : Window) (store : Store) :
    Bool × List Bytes :=
  let matched := if startsWithStar a.wild then [] else (listed store a.wild win).map Prod.fst
  let fromList := if a.hasKeyList then keyList args else (true, [])
  (fromList.1, (matched ++ fromList.2).map (finalKey a))

/-- Looking up the joined keys for one prefix and suffix: `none` in place of `true` if a value
is no JSON document, which ends it. -/
def joinKeys (pre suf : Bytes) : List Bytes → WValue → CoreM (Bool × WValue)
  | [], w => return (true, w)
  | key :: keys, w => do
    let joinedKey := pre ++ key ++ suf
    match ← dbGet joinedKey with
    | none => joinKeys pre suf keys w
    | some value =>
      match loadValue value with
      | .ok v => joinKeys pre suf keys (w.set joinedKey v)
      | .error f => if f.isRuntimeError then return (false, w) else throw f

/-- `v["prefix"].s()` and `v["suffix"].s()`. -/
def affixes (v : RValue) : Except Failure (Bytes × Bytes) := do
  let prefx ← (← v.field (ascii "prefix")).s
  let suffx ← (← v.field (ascii "suffix")).s
  return (prefx, suffx)

/-- The loop of `getJoinedMap` over what is to be joined. -/
def joinLoop (keys : List Bytes) : List RValue → Bool → WValue → CoreM (Bool × WValue)
  | [], ret, w => return (ret, w)
  | v :: vs, ret, w => do
    match affixes v with
    | .error f => if f.isRuntimeError then joinLoop keys vs false w else throw f
    | .ok (prefx, suffx) =>
      let r ← joinKeys prefx suffx keys w
      joinLoop keys vs (ret && r.1) r.2

/-- `Core::getJoinedMap`. -/
def getJoinedMap (c : Config) (args : RValue) (win : Window) : CoreM (Bool × List WValue) := do
  if c.dbOk then
    let a ← ofExcept (joinArgs args)
    if startsWithStar a.wild && !a.hasKeyList then return (false, [])
    let store ← dbIterate
    let keys := sFinalKeys a args win store
    let join ← ofExcept a.join.elements
    let r ← joinLoop keys.2 join keys.1 .null
    return (r.1, [.list (keys.2.map .string), r.2])
  else return (false, [])

example : splitTokens (ascii "g1_a__b_") 95 = [ascii "g1", ascii "a", [], ascii "b"] := by
  decide +kernel

end Quarks
