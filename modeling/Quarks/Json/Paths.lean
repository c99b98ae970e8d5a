import Quarks.Json.Decimals
import Quarks.Json.Fields

/-!
# Numbers inside values

A path leads through the fields and elements of a value. Converting, printing and loading
a value change the numbers at the ends of its paths, and nothing else that a path sees.
-/

namespace Quarks

open Basis

/-- One step into a value. -/
inductive PathStep
  | field (name : Bytes)
  | element (i : ℕ)
  deriving DecidableEq

namespace RValue

/-- The value one step below. -/
def child? : RValue → PathStep → Option RValue
  | .object o, .field name => o.lookup name
  | .list l, .element i => l[i]?
  | _, _ => none

/-- The value at the end of a path. -/
def at? (x : RValue) : List PathStep → Option RValue
  | [] => some x
  | s :: p => (x.child? s).bind (·.at? p)

/-- A whole number stands at the end of a path. -/
def IntegerAt (x : RValue) (p : List PathStep) (z : ℤ) : Prop :=
  ∃ token, x.at? p = some (.number token) ∧ tokenValue token = some (z : ℚ)

theorem integerAt_cons {x : RValue} {s : PathStep} {p : List PathStep} {z : ℤ} :
    x.IntegerAt (s :: p) z ↔ ∃ y, x.child? s = some y ∧ y.IntegerAt p z := by
  constructor
  · rintro ⟨token, hx, hz⟩
    obtain ⟨y, hy, hat⟩ := Option.bind_eq_some_iff.mp hx
    exact ⟨y, hy, token, hat, hz⟩
  · rintro ⟨y, hy, token, hat, hz⟩
    exact ⟨token, Option.bind_eq_some_iff.mpr ⟨y, hy, hat⟩, hz⟩

section

variable {x y : RValue} {name : Bytes}

/-- A field that is there is found. -/
theorem field_of_child? (h : x.child? (.field name) = some y) : x.field name = .ok y := by
  cases x with
  | object o =>
    have hlookup : o.lookup name = some y := h
    rw [RValue.field, hlookup]
  | _ => cases h

/-- A field that is not there is a runtime error. -/
theorem field_of_child?_none (h : x.child? (.field name) = none) :
    ∃ what, x.field name = .error (.runtimeError what) := by
  cases x with
  | object o =>
    have hlookup : o.lookup name = none := h
    exact ⟨ascii "cannot find key", by rw [RValue.field, hlookup]⟩
  | _ => exact ⟨_, rfl⟩

end

end RValue

namespace WValue

/-- The value one step below, in the order of printing. -/
def child? : WValue → PathStep → Option WValue
  | .object o, .field name => o.lookup name
  | .list l, .element i => l[i]?
  | _, _ => none

theorem child?_field (w : WValue) (name : Bytes) : w.child? (.field name) = w.field? name := by
  cases w <;> rfl

/-- A converted list has the converted elements. -/
theorem ofElements_getElem? {l : List RValue} {ws : List WValue} (h : ofElements l = .ok ws)
    {i : ℕ} {y : RValue} (hy : l[i]? = some y) : ∃ v, ofRValue y = .ok v ∧ ws[i]? = some v := by
  induction l generalizing ws i with
  | nil => cases hy
  | cons x l ih =>
    rw [ofElements] at h
    obtain ⟨w, hw, h⟩ := of_bind_ok h
    cases hws : ofElements l with
    | error e =>
      rw [hws] at h
      cases h
    | ok ws' =>
      rw [hws] at h
      cases h
      cases i with
      | zero =>
        cases hy
        exact ⟨w, hw, rfl⟩
      | succ i => exact ih hws hy

/-- What a step finds in a value, it finds converted in the converted value. -/
theorem child?_ofRValue {x y : RValue} {w : WValue} (h : ofRValue x = .ok w) {s : PathStep}
    (hy : x.child? s = some y) : ∃ v, ofRValue y = .ok v ∧ w.child? s = some v := by
  cases x with
  | object l =>
    cases s with
    | element i => cases hy
    | field name =>
      obtain ⟨fs, hfs, -⟩ := ofRValue_object h
      obtain ⟨v, hv⟩ := ofFields_ok hfs hy
      refine ⟨v, hv, ?_⟩
      have hlookup : l.lookup name = some y := hy
      rw [child?_field, field?_ofRValue h, hlookup, Option.bind_some, hv]
      rfl
  | list l =>
    cases s with
    | field name => cases hy
    | element i =>
      rw [ofRValue] at h
      cases hws : ofElements l with
      | error e =>
        rw [hws] at h
        cases h
      | ok ws =>
        rw [hws] at h
        cases h
        exact ofElements_getElem? hws hy
  | _ => cases hy

end WValue

section

variable [HashOrder]

/-- What a step finds in a loaded value is a loaded value. -/
theorem of_child?_reread {w : WValue} {s : PathStep} {y : RValue}
    (h : (reread w).child? s = some y) : ∃ v, y = reread v := by
  cases w with
  | object o =>
    rw [reread_object] at h
    cases s with
    | element i => cases h
    | field name =>
      rw [RValue.child?, lookup_map] at h
      obtain ⟨v, -, rfl⟩ := Option.map_eq_some_iff.mp h
      exact ⟨v, rfl⟩
  | list l =>
    rw [reread_list] at h
    cases s with
    | field name => cases h
    | element i =>
      rw [RValue.child?, List.getElem?_map] at h
      obtain ⟨v, -, rfl⟩ := Option.map_eq_some_iff.mp h
      exact ⟨v, rfl⟩
  | _ => cases h

/-- A step into a value without repeated names, and into the value that is loaded. -/
theorem child?_reread {w : WValue} (hw : w.Distinct) (s : PathStep) :
    (reread w).child? s = (w.child? s).map reread := by
  cases w with
  | object o =>
    rw [reread_object]
    cases s with
    | element i => rfl
    | field name =>
      have hnodup : ((HashOrder.arrange o).map Prod.fst).Nodup :=
        ((HashOrder.perm o).map Prod.fst).nodup_iff.mpr hw
      rw [RValue.child?, lookup_map, lookup_perm (HashOrder.perm o) hnodup]
      rfl
  | list l =>
    rw [reread_list]
    cases s with
    | field name => rfl
    | element i => exact List.getElem?_map ..
  | _ => cases s <;> rfl

/-- Every number of a printed value has ten significant digits. -/
theorem tenDigits_of_reread {w : WValue} {p : List PathStep} {z : ℤ}
    (h : (reread w).IntegerAt p z) : TenDigits z := by
  induction p generalizing w with
  | nil =>
    obtain ⟨token, hw, hz⟩ := h
    cases w with
    | number d =>
      rw [reread] at hw
      cases hw
      exact tenDigits_of_printG10 hz
    | object o =>
      rw [reread_object] at hw
      cases hw
    | list l =>
      rw [reread_list] at hw
      cases hw
    | _ => cases hw
  | cons s p ih =>
    obtain ⟨y, hy, hint⟩ := RValue.integerAt_cons.mp h
    obtain ⟨v, rfl⟩ := of_child?_reread hy
    exact ih hint

/-- A whole number is kept by conversion, printing and loading if it has ten significant
digits. -/
theorem integerAt_reread {x : RValue} {w : WValue} (h : WValue.ofRValue x = .ok w)
    {p : List PathStep} {z : ℤ} (hx : x.IntegerAt p z) (hz : z.natAbs < 2 ^ 53)
    (hten : TenDigits z) : (reread w).IntegerAt p z := by
  induction p generalizing x w with
  | nil =>
    obtain ⟨token, htoken, hvalue⟩ := hx
    cases htoken
    obtain ⟨d, hd, hdvalue⟩ := lexicalCastDouble_exact hvalue hz
    rw [WValue.ofRValue, hd] at h
    cases h
    exact ⟨printG10 d, rfl, tokenValue_printG10_of_tenDigits hdvalue hten⟩
  | cons s p ih =>
    obtain ⟨y, hy, hint⟩ := RValue.integerAt_cons.mp hx
    obtain ⟨v, hv, hchild⟩ := WValue.child?_ofRValue h hy
    refine RValue.integerAt_cons.mpr ⟨reread v, ?_, ih hv hint⟩
    rw [child?_reread (WValue.distinct_ofRValue h), hchild]
    rfl

end

end Quarks
