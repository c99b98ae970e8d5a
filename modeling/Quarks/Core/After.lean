import Quarks.Core.Read

/-!
# Listings after a key

`getAfter` and `getLast` seek a compare key, step on once and then go through the keys with
a prefix. `getLast` counts these keys and steps back from where its loop has ended.
`getKeysAfter` and `getKeysLast` do so for each pair of a list of prefixes and keys.
-/

namespace Quarks

open Basis

/-- `it->Seek(startKey); if (it->Valid()) it->Next();` -/
def startAfter (store : Store) (key : Bytes) : Cursor Entry :=
  let it := store.seek key
  if it.valid then it.next else it

/-- The entries that the loop of `getAfter` meets. -/
def afterRange (store : Store) (key pre : Bytes) : List Entry :=
  (startAfter store key).forward.takeWhile (startsWith pre)

/-- `Core::getAfter`. -/
def getAfter (c : Config) (key pre : Bytes) (win : Window) : CoreM (Bool × List WValue) := do
  if c.dbOk then
    let store ← dbIterate
    ofExcept (collect keyedItems (scan (fun _ => true) win (afterRange store key pre)))
  else return (false, [])

/-- An element of the results of `getLast`. -/
def indexed (index : ℤ) (w : WValue) (key : Bytes) : WValue :=
  (w.set (ascii "index") (.number (Double.ofInt index))).set (ascii "key") (.string key)

/-- What `getLast` appends for an entry, and whether its value could be read. After the
text has been appended as an error, the index and the key follow as an element of their
own. -/
def lastItems (index : ℤ) (e : Entry) : Except Failure (Bool × List WValue) :=
  match entryValue e.2 with
  | .ok v => .ok (true, [indexed index (WValue.null.set (ascii "value") v) e.1])
  | .error f =>
    if f.isRuntimeError then
      .ok (false, [WValue.null.set (ascii "error") (.string e.2), indexed index .null e.1])
    else .error f

/-- What `getLast` gives for the content of the database. -/
def lastAfter (store : Store) (key pre : Bytes) : Except Failure (Bool × List WValue) :=
  let r := (startAfter store key).skipWhile (startsWith pre)
  let count := int32 r.1
  if 0 < count then
    match r.2.prev.entry? with
    | some e => lastItems (int32 (count - 1)) e
    | none => .ok (true, [])
  else .ok (true, [])

/-- `Core::getLast`. -/
def getLast (c : Config) (key pre : Bytes) : CoreM (Bool × List WValue) := do
  if c.dbOk then
    let store ← dbIterate
    ofExcept (lastAfter store key pre)
  else return (false, [])

/-- What is left of an object that has been moved from. -/
def movedFrom (_ : WValue) : WValue := .object []

/-- The loop of `getKeysAfter` and `getKeysLast` over prefixes and keys, which alternate.
`look` appends to `out`, which is handed over if it succeeds: its elements stay in place as
moved-from objects. A runtime error ends the loop. -/
def pairsLoop (field : Bytes) (look : (p lastPrefix : Bytes) → CoreM (Bool × List WValue)) :
    List RValue → (lastPrefix : Option Bytes) → (out : List WValue) → CoreM (Bool × List WValue)
  | [], _, _ => return (true, [])
  | pair :: pairs, lastPrefix, out => do
    match pair.s with
    | .error f => if f.isRuntimeError then return (false, []) else throw f
    | .ok p =>
      match lastPrefix with
      | none => pairsLoop field look pairs (some p) out
      | some lastPrefix => do
        let r ← look p lastPrefix
        let out := out ++ r.2
        if r.1 then
          let w := (WValue.null.set field (.list out)).set (ascii "key") (.string p)
          let rest ← pairsLoop field look pairs none (out.map movedFrom)
          return (rest.1, w :: rest.2)
        pairsLoop field look pairs none out

/-- The frame of `getKeysAfter` and `getKeysLast`. -/
def pairsOf (c : Config) (field : Bytes)
    (look : (p lastPrefix : Bytes) → CoreM (Bool × List WValue)) (args : RValue) :
    CoreM (Bool × List WValue) := do
  if c.dbOk then
    match args.elements with
    | .ok pairs => pairsLoop field look pairs none []
    | .error _ => return (false, [])
  else return (true, [])

/-- `Core::getKeysAfter`. -/
def getKeysAfter (c : Config) (args : RValue) (win : Window) : CoreM (Bool × List WValue) :=
  pairsOf c (ascii "after") (fun p lastPrefix => getAfter c p lastPrefix win) args

/-- `Core::getKeysLast`. -/
def getKeysLast (c : Config) (args : RValue) : CoreM (Bool × List WValue) :=
  pairsOf c (ascii "last") (fun p lastPrefix => getLast c p lastPrefix) args

/-! ## What they give -/

section

variable {faults : Faults} {n : Node} {c : Config} {key pre : Bytes} {win : Window}

theorem getAfter_yields (hdb : c.dbOk = true) : Yields faults n (getAfter c key pre win)
    (collect keyedItems (scan (fun _ => true) win (afterRange n.db key pre))) := by
  unfold getAfter
  rw [hdb]
  exact Yields.bind_ok Yields.dbIterate (Yields.ofExcept _)

theorem getLast_yields (hdb : c.dbOk = true) :
    Yields faults n (getLast c key pre) (lastAfter n.db key pre) := by
  unfold getLast
  rw [hdb]
  exact Yields.bind_ok Yields.dbIterate (Yields.ofExcept _)

end

end Quarks
