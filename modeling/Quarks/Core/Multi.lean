import Quarks.Basis.Pool
import Quarks.Core.Read

/-!
# Listing many patterns at once

`getKeysMulti` starts a number of workers that share a list of patterns. A worker takes the
next pattern, lists its keys and stores whether that succeeded, until no pattern is left.
What the workers share are atomic variables and a vector behind a mutex; each access is one
operation here. An iterator belongs to one worker and sees the database as it was when it
was made, so that moving it is no operation.
-/

namespace Quarks

open Basis

/-- The accesses to what the workers share. -/
inductive SharedOp
  /-- `++wildIndex` -/
  | nextWild
  /-- reading `ret`, for the pattern with this index -/
  | loadRet (wildIndx : ℤ)
  /-- `ret = b` -/
  | storeRet (b : Bool)
  /-- `if(exit)` -/
  | testExit
  /-- `exit = true` -/
  | setExit
  /-- `++atomic_index`, for this entry -/
  | nextIndex (e : Entry)
  /-- `matchedResults.push_back(w)` behind `__getkeysmulti_mtx` -/
  | pushBack (w : WValue)

/-- What an access gives. -/
abbrev SharedRes : SharedOp → Type
  | .nextWild | .nextIndex _ => ℤ
  | .loadRet _ | .testExit => Bool
  | .storeRet _ | .setExit | .pushBack _ => Unit

/-- What the workers share. -/
structure Shared where
  wildIndex : ℤ
  ret : Bool
  atomicIndex : ℤ
  exit : Bool
  matchedResults : List WValue

/-- The variables when the workers start, with the vector that the caller passes. -/
def Shared.start (matchedResults : List WValue) : Shared := ⟨-1, true, -1, false, matchedResults⟩

/-- The effect of an access. -/
def access : Prog.Handler SharedRes Shared
  | .nextWild, s => (int32 (s.wildIndex + 1), { s with wildIndex := int32 (s.wildIndex + 1) })
  | .loadRet _, s => (s.ret, s)
  | .storeRet b, s => ((), { s with ret := b })
  | .testExit, s => (s.exit, s)
  | .setExit, s => ((), { s with exit := true })
  | .nextIndex _, s =>
    (int32 (s.atomicIndex + 1), { s with atomicIndex := int32 (s.atomicIndex + 1) })
  | .pushBack w, s => ((), { s with matchedResults := s.matchedResults ++ [w] })

/-- What a worker does. -/
abbrev WorkerM := Prog SharedRes Failure

/-- An access as a program. -/
def shared (op : SharedOp) : WorkerM (SharedRes op) := Prog.lift op

/-- A result that is computed without an access. -/
def pureStep {α : Type} : Except Failure α → WorkerM α
  | .ok a => pure a
  | .error e => throw e

/-- Append values one after the other. -/
def pushAll : List WValue → WorkerM Unit
  | [] => return ()
  | w :: ws => do
    shared (.pushBack w)
    pushAll ws

/-- Append the entry if its number lies in the window; whether all went well so far. -/
def appendMatch (win : Window) (e : Entry) (i : ℤ) (ret : Bool) : WorkerM Bool := do
  if win.takes i then
    let r ← pureStep (keyedItems e)
    pushAll r.2
    return ret && r.1
  else return ret

/-- The loop of `getKeysInThread` over the entries that its iterator meets. -/
def scanInThread (wild : Bytes) (win : Window) : List Entry → Bool → WorkerM Bool
  | [], ret => return ret
  | e :: es, ret => do
    if ← shared .testExit then return ret
    if accepts wild e then
      let i ← shared (.nextIndex e)
      let ret ← appendMatch win e i ret
      if win.stops i then
        shared .setExit
        return ret
      scanInThread wild win es ret
    else scanInThread wild win es ret

/-- `getKeysInThread`. -/
def getKeysInThread (c : Config) (store : Store) (wild : Bytes) (win : Window) :
    WorkerM Bool := do
  if c.dbOk then
    if startsWithStar wild then return false
    scanInThread wild win (forwardRange store (starPrefix wild)) true
  else return false

/-- `x[wildIndx].s()`. -/
def wildAt (x : RValue) (wildIndx : ℤ) : Except Failure Bytes :=
  match x with
  | .list l =>
    if 0 ≤ wildIndx then
      match l[wildIndx.toNat]? with
      | some r => r.s
      | none => .error (.runtimeError (ascii "list out of bound"))
    else .error (.runtimeError (ascii "list out of bound"))
  | _ => .error (.runtimeError (ascii "value is not a list"))

/-- `x.size()`. -/
def RValue.size : RValue → Except Failure ℕ
  | .string raw => .ok (unescape raw).length
  | .list l => .ok l.length
  | .object o => .ok o.length
  | _ => .error (.runtimeError (ascii "value is not a container"))

/-- `ret && getKeysInThread(...)`: the listing is left out if `ret` is false. -/
def retAndKeys (c : Config) (store : Store) (wild : Bytes) (win : Window) (wildIndx : ℤ) :
    WorkerM Bool := do
  if ← shared (.loadRet wildIndx) then getKeysInThread c store wild win else return false

/-- What a worker does with one pattern. -/
def serveWild (c : Config) (store : Store) (x : RValue) (win : Window) (wildIndx : ℤ) :
    WorkerM Unit :=
  tryCatch
    (do
      let wild ← pureStep (wildAt x wildIndx)
      let ret ← retAndKeys c store wild win wildIndx
      shared (.storeRet ret))
    fun e => if e.isRuntimeError then shared (.storeRet false) else throw e

/-- The loop of a worker. It takes one pattern in each turn, so that `wildSize + 1` turns
are enough to see that none is left. -/
def worker (c : Config) (store : Store) (x : RValue) (win : Window) (wildSize : ℤ) :
    ℕ → WorkerM Unit
  | 0 => return ()
  | turns + 1 => do
    let wildIndx ← shared .nextWild
    if wildIndx < wildSize then
      serveWild c store x win wildIndx
      worker c store x win wildSize turns
    else return ()

/-- The workers of one call, side by side. -/
abbrev Workers (numWorkers : ℕ) := Pool SharedRes (Fin numWorkers) Shared Failure Unit

/-- The workers when they are started, for a list of `size` patterns. -/
def startWorkers (c : Config) (store : Store) (x : RValue) (size : ℕ) (win : Window)
    (numWorkers : ℕ) (matchedResults : List WValue) : Workers numWorkers :=
  ⟨Shared.start matchedResults, fun _ => worker c store x win (int32 size) (size + 1)⟩

/-- The workers after the turns of a schedule. No access waits for another. -/
def Workers.run {numWorkers : ℕ} (p : Workers numWorkers) (schedule : List (Fin numWorkers)) :
    Workers numWorkers :=
  Pool.run (fun _ => access) (fun _ _ => true) p schedule

/-- The call when all its workers have been joined. An exception that leaves a worker ends
the process, and there is no result. -/
def Workers.joined {numWorkers : ℕ} (p : Workers numWorkers) : Option (Bool × List WValue) :=
  if ∀ i, ((p.progs i).outcome.bind Except.toOption).isSome = true then
    some (p.state.ret, p.state.matchedResults)
  else none

/-- `Core::getKeysMulti` with a number of workers and a schedule of their accesses: the
value returned and the results, or `none` if the call does not return. -/
def getKeysMulti (c : Config) (store : Store) (wilds : Bytes) (win : Window) (numWorkers : ℕ)
    (schedule : List (Fin numWorkers)) : Option (Bool × List WValue) :=
  match checked (load wilds) with
  | .error _ => some (false, [])
  | .ok x =>
    match x.size with
    | .error _ => some (false, [])
    | .ok size => ((startWorkers c store x size win numWorkers []).run schedule).joined

end Quarks
