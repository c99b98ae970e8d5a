import Quarks.Core.Filter
import Quarks.Json.Load

/-!
# The filter language

A filter asks for values of fields. Its conditions are read here as what they say, without
exceptions: a field equals an operand or it does not, the negated operators are complements,
and a clause is a conjunction or a disjunction. `validate` computes this truth value.
Numbers are compared as the doubles that they are read as.
-/

namespace Quarks

/-- The values are a text, a number or a truth value both, and equal. A number beyond the
range of doubles equals no number. -/
def RValue.equals : RValue → RValue → Bool
  | .string raw, .string raw' => unescape raw = unescape raw'
  | .number token, .number token' => match lexicalCastDouble token, lexicalCastDouble token' with
    | some d, some d' => d.same d'
    | _, _ => false
  | .bool b, .bool b' => b = b'
  | _, _ => false

/-- The value is an object with the field, which equals the operand. -/
def RValue.fieldEquals (value : RValue) (key : Bytes) (operand : RValue) : Bool :=
  match value with
  | .object o => match o.lookup key with
    | some x => x.equals operand
    | none => false
  | _ => false

/-- The operators of a condition. -/
inductive FilterOp
  | eq
  | eqAny
  | neq
  | notIn

namespace FilterOp

/-- The name of an operator. -/
def name : FilterOp → Bytes
  | eq => ascii "eq"
  | eqAny => ascii "eq_any"
  | neq => ascii "neq"
  | notIn => ascii "not_in"

/-- Whether the field equals some operand. An operand that is not a list has no elements. -/
def equalsAny (value : RValue) (key : Bytes) : RValue → Bool
  | .list operands => operands.any (value.fieldEquals key)
  | _ => false

/-- Whether a value meets a condition. -/
def holds (value : RValue) (key : Bytes) (operand : RValue) : FilterOp → Bool
  | eq => value.fieldEquals key operand
  | eqAny => equalsAny value key operand
  | neq => !value.fieldEquals key operand
  | notIn => !equalsAny value key operand

end FilterOp

/-- A condition on one field. The operand is a scalar or a list. -/
structure FilterAtom where
  key : Bytes
  op : FilterOp
  operand : RValue
  key_ne_and : key ≠ ascii "and"
  key_ne_or : key ≠ ascii "or"
  operand_ne_object : ∀ o, operand ≠ .object o

namespace FilterAtom

/-- The condition as it is written in a filter. -/
def toRValue (a : FilterAtom) : RValue :=
  .object [(a.key, .object [(a.op.name, a.operand)])]

/-- Whether a value meets a condition. -/
def holds (value : RValue) (a : FilterAtom) : Bool := a.op.holds value a.key a.operand

end FilterAtom

/-- A `where` clause: a condition, or a list with a first condition all or some of which hold. -/
inductive WhereClause
  | atom (a : FilterAtom)
  | and (first : FilterAtom) (rest : List FilterAtom)
  | or (first : FilterAtom) (rest : List FilterAtom)

namespace WhereClause

/-- The clause as it is written in a filter. -/
def toRValue : WhereClause → RValue
  | atom a => a.toRValue
  | and first rest => .object [(ascii "and", .list ((first :: rest).map FilterAtom.toRValue))]
  | or first rest => .object [(ascii "or", .list ((first :: rest).map FilterAtom.toRValue))]

/-- Whether a value meets a clause. -/
def holds (value : RValue) : WhereClause → Bool
  | atom a => a.holds value
  | and first rest => (first :: rest).all (FilterAtom.holds value)
  | or first rest => (first :: rest).any (FilterAtom.holds value)

end WhereClause

/-! ## Comparisons -/

section

variable {value : RValue} (hvalue : ∀ l, value ≠ .list l) (key : Bytes)

/-- Comparing two values catches what the types or the range of doubles exclude. -/
theorem caught_equals (x operand : RValue) :
    catchAny (match x with
      | .string raw => return unescape raw = (← operand.s)
      | .number token => return (← (RValue.number token).d).same (← operand.d)
      | .bool b => return b = (← operand.b)
      | _ => return false : Except Failure Bool) false = .ok (x.equals operand) := by
  cases x with
  | null | list | object => rfl
  | string raw | bool b => cases operand <;> rfl
  | number token =>
    cases hd : lexicalCastDouble token with
    | none => cases operand <;> (simp [RValue.d, RValue.equals, hd, catchAny]; rfl)
    | some d =>
      cases operand with
      | number token' =>
        cases hd' : lexicalCastDouble token' <;> simp [RValue.d, RValue.equals, hd, hd'] <;> rfl
      | _ =>
        simp only [RValue.d, RValue.equals, hd]
        rfl

include hvalue

theorem compareValues_eq (operand : RValue) :
    compareValues value key operand = .ok (value.fieldEquals key operand) := by
  cases value with
  | list l => exact absurd rfl (hvalue l)
  | object o =>
    unfold compareValues RValue.fieldEquals
    cases hfield : o.lookup key with
    | none =>
      simp only [RValue.has, hfield]
      rfl
    | some x =>
      simp only [RValue.has, RValue.field, hfield]
      exact caught_equals x operand
  | _ => rfl

theorem anyEqual_eq (operands : List RValue) :
    anyEqual value key operands = .ok (operands.any (value.fieldEquals key)) := by
  induction operands with
  | nil => rfl
  | cons operand operands ih =>
    rw [anyEqual, compareValues_eq hvalue, ih, List.any_cons]
    cases value.fieldEquals key operand <;> rfl

/-- A value has the field, or it equals no operand. -/
theorem has_or_absent : value.has key = .ok true ∨
    ((value.has key = .ok false ∨ ∃ what, value.has key = .error (.runtimeError what)) ∧
      ∀ operand, FilterOp.equalsAny value key operand = false) := by
  have habsent : (∀ x, value.fieldEquals key x = false) →
      ∀ operand, FilterOp.equalsAny value key operand = false := by
    intro h operand
    cases operand with
    | list operands => exact List.any_eq_false.mpr fun x _ => by simp [h x]
    | _ => rfl
  cases value with
  | list l => exact absurd rfl (hvalue l)
  | object o =>
    cases hfield : o.lookup key with
    | none =>
      have hhas : (RValue.object o).has key = .ok false := by rw [RValue.has, hfield]; rfl
      exact Or.inr ⟨Or.inl hhas, habsent fun x => by rw [RValue.fieldEquals, hfield]⟩
    | some x =>
      left
      rw [RValue.has, hfield]
      rfl
  | _ => exact Or.inr ⟨Or.inr ⟨_, rfl⟩, habsent fun _ => rfl⟩

/-- The negated operator answers the complement of what the other one does. -/
theorem checkAny_eq {operand : RValue} (hoperand : ∀ o, operand ≠ .object o) :
    checkEqAny value key operand = .ok (FilterOp.equalsAny value key operand) ∧
      checkNotIn value key operand = .ok (!FilterOp.equalsAny value key operand) := by
  unfold checkEqAny checkNotIn
  rcases has_or_absent hvalue key with hhas | ⟨hhas | ⟨what, hhas⟩, hnone⟩
  · rw [hhas]
    cases operand with
    | object o => exact absurd rfl (hoperand o)
    | list operands =>
      have hany := anyEqual_eq hvalue key operands
      constructor
      · change catchAny (anyEqual value key operands) false = _
        rw [hany]
        rfl
      · change catchAny ((anyEqual value key operands).bind fun b => .ok !b) true = _
        rw [hany]
        rfl
    | _ => exact ⟨rfl, rfl⟩
  · rw [hhas, hnone]
    exact ⟨rfl, rfl⟩
  · rw [hhas, hnone]
    exact ⟨rfl, rfl⟩

/-! ## Conditions and clauses -/

omit key

/-- A condition is checked by its operator. -/
theorem checkCondition_eq (a : FilterAtom) :
    checkCondition value (some a.key) (.object [(a.op.name, a.operand)]) =
      .ok (a.holds value) := by
  obtain ⟨key, op, operand, hand, hor, hobject⟩ := a
  have hany := checkAny_eq hvalue key hobject
  cases op with
  | eq => exact compareValues_eq hvalue key operand
  | eqAny => exact hany.1
  | neq =>
    change (compareValues value key operand).map not = _
    rw [compareValues_eq hvalue]
    rfl
  | notIn => exact hany.2

theorem applyFilter_eq (a : FilterAtom) : applyFilter value a.toRValue = .ok (a.holds value) := by
  change anyCondition value [(some a.key, .object [(a.op.name, a.operand)])] = _
  rw [anyCondition, checkCondition_eq hvalue]
  cases a.holds value <;> rfl

theorem applyFilters_eq (atoms : List FilterAtom) :
    applyFilters value (atoms.map FilterAtom.toRValue) =
      .ok (atoms.map (FilterAtom.holds value)) := by
  induction atoms with
  | nil => rfl
  | cons a atoms ih =>
    rw [List.map_cons, applyFilters, applyFilter_eq hvalue, ih]
    rfl

theorem processLogicalOperator_eq (op : Bool → Bool → Bool) (first : FilterAtom)
    (rest : List FilterAtom) :
    processLogicalOperator value (.list ((first :: rest).map FilterAtom.toRValue)) op =
      .ok ((rest.map (FilterAtom.holds value)).foldl op (first.holds value)) := by
  unfold processLogicalOperator
  change (applyFilters value _).bind _ = _
  rw [applyFilters_eq hvalue]
  rfl

omit hvalue in
theorem foldl_and (b : Bool) (bs : List Bool) : bs.foldl and b = (b && bs.all id) := by
  induction bs generalizing b with
  | nil => simp
  | cons c bs ih => rw [List.foldl_cons, ih, List.all_cons, id_eq, Bool.and_assoc]

omit hvalue in
theorem foldl_or (b : Bool) (bs : List Bool) : bs.foldl or b = (b || bs.any id) := by
  induction bs generalizing b with
  | nil => simp
  | cons c bs ih => rw [List.foldl_cons, ih, List.any_cons, id_eq, Bool.or_assoc]

/-- For every value that is not a list and every clause of the language, `validate` returns
whether the value meets the clause. No exception escapes from it. -/
theorem validate_eq_holds {fields : List (Bytes × RValue)} {clause : WhereClause}
    (hwhere : fields.lookup (ascii "where") = some clause.toRValue) :
    validate value (.object fields) = .ok (clause.holds value) := by
  have hclause : validate value (.object fields) = catchAny (do
      let whereClause := clause.toRValue
      if ← whereClause.has (ascii "and") then
        processLogicalOperator value (← whereClause.field (ascii "and")) and
      else if ← whereClause.has (ascii "or") then
        processLogicalOperator value (← whereClause.field (ascii "or")) or
      else applyFilter value whereClause.sorted) false := by
    unfold validate
    simp only [RValue.has, RValue.field, hwhere]
    rfl
  rw [hclause]
  cases clause with
  | atom a =>
    have hand : (ascii "and" == a.key) = false := beq_eq_false_iff_ne.mpr a.key_ne_and.symm
    have hor : (ascii "or" == a.key) = false := beq_eq_false_iff_ne.mpr a.key_ne_or.symm
    have hnone : ∀ {name : Bytes}, (name == a.key) = false →
        a.toRValue.has name = .ok false := by
      intro name hname
      rw [FilterAtom.toRValue, RValue.has, List.lookup_cons, hname]
      rfl
    simp only [WhereClause.toRValue, hnone hand, hnone hor]
    change catchAny (applyFilter value a.toRValue) false = _
    rw [applyFilter_eq hvalue]
    rfl
  | and first rest =>
    change catchAny (processLogicalOperator value
      (.list ((first :: rest).map FilterAtom.toRValue)) and) false = _
    rw [processLogicalOperator_eq hvalue, foldl_and, List.all_map]
    rfl
  | or first rest =>
    change catchAny (processLogicalOperator value
      (.list ((first :: rest).map FilterAtom.toRValue)) or) false = _
    rw [processLogicalOperator_eq hvalue, foldl_or, List.any_map]
    rfl

end

/-- A condition that holds of a value without the field. -/
def absentAtom : FilterAtom where
  key := ascii "a"
  op := .notIn
  operand := .list [.string (ascii "x"), .null]
  key_ne_and := by decide
  key_ne_or := by decide
  operand_ne_object := fun _ => nofun

/-- The theorem at this condition and a number. -/
theorem validate_eq_holds_number :
    validate (.number (ascii "1"))
      (.object [(ascii "where", (WhereClause.or absentAtom []).toRValue)]) = .ok true :=
  @validate_eq_holds (.number (ascii "1")) (fun _ => nofun) _ (.or absentAtom []) rfl

/-- A number that is beyond the range of doubles does not equal itself: what `validate` makes
of a document and a filter. -/
theorem validate_number_ne_self :
    ((load (ascii "\x7b\"a\":1e400\x7d")).bind fun value =>
      (load (ascii "\x7b\"where\":\x7b\"a\":\x7b\"eq\":1e400\x7d\x7d\x7d")).bind
        fun filterBy => (validate value filterBy).toOption) = some false := by
  decide +kernel

end Quarks
