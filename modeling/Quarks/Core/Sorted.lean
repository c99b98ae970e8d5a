import Quarks.Basis.Sorting
import Quarks.Core.Filter
import Quarks.Core.Read

/-!
# Sorted listings

`getSorted` builds a JSON text of each matching entry, keeps the objects that pass a filter,
and sorts them by a field of their values. What is printed for the log is converted first, so
that a number that no double can hold raises an exception there.
-/

namespace Quarks

open Basis

/-- The conversion of a double to `int`, undefined beyond the range of `int`. -/
def Double.toInt (d : Double) : Except Failure ℤ :=
  let p := powerFraction 2 d.exponent
  let magnitude : ℤ := ((d.mantissa * p.1 / p.2 : ℕ) : ℤ)
  let z := if d.negative then -magnitude else magnitude
  if -2 ^ 31 ≤ z ∧ z < 2 ^ 31 then .ok z else .error .undefined

/-- `compareAlpha`. -/
def compareAlpha (lhs rhs : RValue) : Except Failure Bool := do
  return decide ((← lhs.s) < (← rhs.s))

/-- `compareNumeric`. -/
def compareNumeric (lhs rhs : RValue) : Except Failure Bool := do
  let ld ← (← lhs.d).toInt
  let rd ← (← rhs.d).toInt
  return decide (ld < rd)

/-- `x.t() == crow::json::type::Object && x.has(name)`. -/
def RValue.isObjectWith (x : RValue) (name : Bytes) : Except Failure Bool :=
  match x with
  | .object _ => x.has name
  | _ => .ok false

/-- `JsonComparer::operator()`. -/
def jsonComparer (sorter : Bytes) (kvLhs kvRhs : RValue) : Except Failure Bool :=
  caught (do
    let lhs ← kvLhs.field (ascii "value")
    let rhs ← kvRhs.field (ascii "value")
    if ← lhs.isObjectWith sorter then
      if ← rhs.isObjectWith sorter then
        let lSorter ← lhs.field sorter
        let rSorter ← rhs.field sorter
        match lSorter, rSorter with
        | .number _, .number _ => compareNumeric lSorter rSorter
        | .string _, .string _ => compareAlpha lSorter rSorter
        | _, _ => return false
      else return false
    else return false) (.ok false)

/-- The elements can be compared with one another, and the comparison is a strict weak order
on them. -/
structure Sortable {α : Type} (compare : α → α → Except Failure Bool)
    (l : List α) : Prop where
  comparable : l.Pairwise fun a b => (compare a b).isOk = true ∧ (compare b a).isOk = true
  strictWeak : StrictWeakOn (fun a b => (compare a b).toOption.getD false) l

instance {α : Type} {compare : α → α → Except Failure Bool} {l : List α} :
    Decidable (Sortable compare l) :=
  decidable_of_iff ((l.Pairwise fun a b => (compare a b).isOk = true ∧ (compare b a).isOk = true) ∧
      StrictWeakOn (fun a b => (compare a b).toOption.getD false) l)
    ⟨fun h => ⟨h.1, h.2⟩, fun h => ⟨h.comparable, h.strictWeak⟩⟩

/-- `std::sort`. It is undefined for a comparison that is not a strict weak order. -/
def stdSort [UnstableSort] {α : Type} (compare : α → α → Except Failure Bool) (l : List α) :
    Except Failure (List α) :=
  if Sortable compare l then
    .ok (UnstableSort.sort (fun a b => (compare a b).toOption.getD false) l)
  else .error .undefined

/-- The text that `getSorted` makes of an entry. -/
def keyVal (e : Entry) : Bytes :=
  let value := match e.2 with
    | [] => []
    | c :: _ => if c = 123 ∨ c = 34 then e.2 else 34 :: (e.2 ++ [34])
  ascii "\x7b\"value\":" ++ value ++ ascii ",\"key\":\"" ++ cstr e.1 ++ ascii "\"\x7d"

/-- What the loop of `getSorted` has gathered: the objects kept, whether they can be sorted,
and the result so far. -/
structure Gathered where
  allResults : List RValue
  isSortable : Bool
  ret : Bool

/-- An entry whose text can be parsed: the object if it passes the filter. The filter and the
object are printed for the log. -/
def filtered (filter : Bytes) (x : RValue) : Except Failure (Option RValue) := do
  if filter ≠ [] then
    let _ ← loadValue filter
  let keep ← match load filter with
    | none => pure true
    | some filterBy => validate (← x.field (ascii "value")) filterBy
  if keep then
    let _ ← WValue.ofRValue x
    return some x
  else return none

/-- The first loop of `getSorted`. -/
def gather (filter : Bytes) : List Entry → Gathered → Except Failure Gathered
  | [], g => .ok g
  | e :: es, g => match load (keyVal e) with
    | none => gather filter es { g with isSortable := false }
    | some x => match filtered filter x with
      | .ok kept => gather filter es { g with allResults := g.allResults ++ kept.toList }
      | .error f =>
        if f.isRuntimeError then gather filter es { g with isSortable := false, ret := false }
        else .error f

/-- What `getSorted` appends for an object, if it can be converted. -/
def sortedItem (x : RValue) : Except Failure (Option WValue) :=
  caught (do
    let value ← WValue.ofRValue (← x.field (ascii "value"))
    let key ← WValue.ofRValue (← x.field (ascii "key"))
    return some ((WValue.null.set (ascii "value") value).set (ascii "key") key)) (.ok none)

/-- The second loop of `getSorted`. -/
def sortedItems : List RValue → Except Failure (List WValue)
  | [] => .ok []
  | x :: xs => do
    let item ← sortedItem x
    return item.toList ++ (← sortedItems xs)

/-- What `getSorted` makes of the matching entries. -/
def sortedListing [UnstableSort] (sortby : Bytes) (ascending : Bool) (win : Window)
    (filter : Bytes) (es : List Entry) : Except Failure (Bool × List WValue) := do
  let g ← gather filter es ⟨[], sortby ≠ [], true⟩
  -- an exception of the comparison would not be a runtime error: these are caught inside
  let allResults ← if g.isSortable then stdSort (jsonComparer sortby) g.allResults
    else pure g.allResults
  let order := if ascending then allResults else allResults.reverse
  return (g.ret, ← sortedItems (scan (fun _ => true) win order))

/-- `Core::getSorted`. -/
def getSorted [UnstableSort] (c : Config) (wild sortby : Bytes) (ascending : Bool) (win : Window)
    (filter : Bytes) : CoreM (Bool × List WValue) := do
  let r ← scanDb c wild fun store =>
    sortedListing sortby ascending win filter
      ((forwardRange store (starPrefix wild)).filter (accepts wild))
  return r.getD (false, [])

end Quarks
