import Quarks.Core.Read

/-!
# Listings by several patterns

The overload of `getAll` that `geonear` uses goes through the entries of several patterns with
one counter, and hands each entry of its window to a function that may drop or change it.
-/

namespace Quarks

open Basis

/-- `passFilter`: what it returns or throws for a loaded value, and what has become of the value
that is to be appended. -/
abbrev PassFilter := Option RValue → WValue → Except Failure Bool × WValue

/-- What the filter does with an entry of the window. -/
def passEntry (passFilter : PassFilter) (e : Entry) : Except Failure Bool × WValue :=
  match entryValue e.2 with
  | .ok w => passFilter (load e.2) w
  | .error f => (.error f, .null)

/-- The loop over the entries of one pattern, with the counter as it was before: whether all
could be read, what is appended, and the counter behind it. An exception skips the check that
ends the loop. -/
def filteredLoop (passFilter : PassFilter) (win : Window) (wild : Bytes) :
    ℤ → List Entry → Except Failure ((Bool × List WValue) × ℤ)
  | i, [] => .ok ((true, []), i)
  | i, e :: es =>
    if accepts wild e then do
      let i := int32 (i + 1)
      let (passed, w) := if win.takes i then passEntry passFilter e else (.ok false, .null)
      match passed with
      | .ok pass => do
        let items := if pass then [w] else []
        if win.stops i then return ((true, items), i)
        let r ← filteredLoop passFilter win wild i es
        return ((r.1.1, items ++ r.1.2), r.2)
      | .error f => do
        if !f.isRuntimeError then throw f
        let r ← filteredLoop passFilter win wild i es
        return ((false, w.set (ascii "error") (.string e.2) :: r.1.2), r.2)
    else filteredLoop passFilter win wild i es

/-- The loop over the patterns. From the first one that starts with a star on, `process` is
`false`. -/
def patternsLoop (passFilter : PassFilter) (win : Window) (store : Store) :
    Bool → ℤ → List Bytes → Except Failure (Bool × List WValue)
  | _, _, [] => .ok (true, [])
  | process, i, wild :: wilds => do
    let process := process && !startsWithStar wild
    if process then
      let r ← filteredLoop passFilter win wild i (forwardRange store (starPrefix wild))
      let rest ← patternsLoop passFilter win store process r.2 wilds
      return (r.1.1 && rest.1, r.1.2 ++ rest.2)
    else patternsLoop passFilter win store process i wilds

/-- `Core::getAll` with patterns and a filter. -/
def getAllFiltered (c : Config) (wilds : List Bytes) (passFilter : PassFilter) (win : Window) :
    CoreM (Bool × List WValue) := do
  if c.dbOk then
    let store ← dbIterate
    ofExcept (patternsLoop passFilter win store true (-1) wilds)
  else return (false, [])

end Quarks
