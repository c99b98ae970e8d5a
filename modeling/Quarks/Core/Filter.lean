import Quarks.Core.Increment
import Mathlib.Data.List.Sort

/-!
# Filters

The conditions of `QSorter::ORM`: a value passes a filter if its fields pass the conditions of
the `where` clause. Exceptions are caught on every level and make a comparison fail; looking up
a name in a list that has elements stays undefined.
-/

namespace Quarks

/-- `catch (const std::exception&)`: every exception gives way to `dflt`. -/
def catchAny {α : Type} (x : Except Failure α) (dflt : α) : Except Failure α :=
  match x with
  | .ok a => .ok a
  | .error .undefined => .error .undefined
  | .error _ => .ok dflt

/-- `==` on doubles. -/
def Double.same (a b : Double) : Bool :=
  let p := powerFraction 2 a.exponent
  let q := powerFraction 2 b.exponent
  let m : ℤ := if a.negative then -(a.mantissa : ℤ) else a.mantissa
  let n : ℤ := if b.negative then -(b.mantissa : ℤ) else b.mantissa
  m * p.1 * q.2 = n * q.1 * p.2

/-- `compareValues`. -/
def compareValues (jsonValue : RValue) (key : Bytes) (targetValue : RValue) :
    Except Failure Bool :=
  catchAny (do
    if ← jsonValue.has key then
      match ← jsonValue.field key with
      | .string raw => return unescape raw = (← targetValue.s)
      | .number token => return (← (RValue.number token).d).same (← targetValue.d)
      | .bool b => return b = (← targetValue.b)
      | _ => return false
    else return false) false

/-- Some element of the list compares equal; the elements after it are not looked at. -/
def anyEqual (jsonValue : RValue) (key : Bytes) : List RValue → Except Failure Bool
  | [] => .ok false
  | check :: checks => do
    if ← compareValues jsonValue key check then return true
    anyEqual jsonValue key checks

/-- `checkEqAny`. -/
def checkEqAny (jsonValue : RValue) (key : Bytes) (targetValues : RValue) : Except Failure Bool :=
  catchAny (do
    if ← jsonValue.has key then anyEqual jsonValue key (← targetValues.elements)
    else return false) false

/-- `checkNotEq`. -/
def checkNotEq (jsonValue : RValue) (key : Bytes) (targetValue : RValue) : Except Failure Bool :=
  (compareValues jsonValue key targetValue).map not

/-- `checkNotIn`. -/
def checkNotIn (jsonValue : RValue) (key : Bytes) (targetValues : RValue) : Except Failure Bool :=
  catchAny (do
    if ← jsonValue.has key then return !(← anyEqual jsonValue key (← targetValues.elements))
    else return true) true

/-- What `applyFilter` makes of one condition. The elements of a list have no names: using one
reads pointers that were never set. -/
def checkCondition (jsonValue : RValue) (key : Option Bytes) (condition : RValue) :
    Except Failure Bool := do
  let check (op : Bytes → RValue → Except Failure Bool) (name : Bytes) : Except Failure Bool := do
    match key with
    | some key => op key (← condition.field name)
    | none => throw .undefined
  if ← condition.has (ascii "eq") then check (compareValues jsonValue) (ascii "eq")
  else if ← condition.has (ascii "eq_any") then check (checkEqAny jsonValue) (ascii "eq_any")
  else if ← condition.has (ascii "neq") then check (checkNotEq jsonValue) (ascii "neq")
  else if ← condition.has (ascii "not_in") then check (checkNotIn jsonValue) (ascii "not_in")
  else return false

/-- The loop of `applyFilter`: the first condition that holds ends it. -/
def anyCondition (jsonValue : RValue) : List (Option Bytes × RValue) → Except Failure Bool
  | [] => .ok false
  | (key, condition) :: rest => do
    if ← checkCondition jsonValue key condition then return true
    anyCondition jsonValue rest

/-- `begin()` to `end()` of a clause, with the names of its fields. -/
def RValue.named : RValue → Except Failure (List (Option Bytes × RValue))
  | .list l => .ok (l.map fun x => (none, x))
  | .object o => .ok (o.map fun e => (some e.1, e.2))
  | _ => .error (.runtimeError (ascii "value is not a container"))

/-- `applyFilter`. -/
def applyFilter (jsonValue whereClause : RValue) : Except Failure Bool := do
  anyCondition jsonValue (← whereClause.named)

/-- Looking up a name has sorted the fields of an object. -/
def RValue.sorted : RValue → RValue
  | .object o => .object (o.insertionSort fun a b => a.1 ≤ b.1)
  | x => x

/-- The results of `applyFilter` for some clauses. -/
def applyFilters (jsonValue : RValue) : List RValue → Except Failure (List Bool)
  | [] => .ok []
  | condition :: conditions => do
    let result ← applyFilter jsonValue condition
    return result :: (← applyFilters jsonValue conditions)

/-- `processLogicalOperator`. -/
def processLogicalOperator (jsonValue conditions : RValue) (op : Bool → Bool → Bool) :
    Except Failure Bool := do
  match ← applyFilters jsonValue (← conditions.elements) with
  | [] => return false
  | first :: results => return results.foldl op first

/-- `ORM::validate`. -/
def validate (jsonValue filterBy : RValue) : Except Failure Bool :=
  catchAny (do
    if ← filterBy.has (ascii "where") then
      let whereClause ← filterBy.field (ascii "where")
      if ← whereClause.has (ascii "and") then
        processLogicalOperator jsonValue (← whereClause.field (ascii "and")) and
      else if ← whereClause.has (ascii "or") then
        processLogicalOperator jsonValue (← whereClause.field (ascii "or")) or
      else applyFilter jsonValue whereClause.sorted
    else return false) false

/-- A value whose field `a` is the text `x`. -/
example : (validate (.object [(ascii "a", .string (ascii "x"))]) (.object [(ascii "where",
    .object [(ascii "a", .object [(ascii "neq", .string (ascii "y"))])])])).toOption =
    some true := by
  decide +kernel

end Quarks
