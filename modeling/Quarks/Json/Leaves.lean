import Quarks.Json.Paths
import Mathlib.Data.Finset.Basic

/-!
# What a value says

Two values say the same if the same leaves stand at the ends of the same paths: a number counts
by its value and a string by what it stands for, and the order of the fields does not count. A
value that is converted, printed and loaded says the same where its numbers are printed with
their own values.
-/

namespace Quarks

open Basis

/-- What stands at the end of a path. -/
inductive Leaf
  | null
  | bool (b : Bool)
  | number (value : Option ℚ)
  | string (s : Bytes)
  | list
  | object

namespace RValue

/-- What the value is, without what it contains. -/
def leaf : RValue → Leaf
  | .null => .null
  | .bool b => .bool b
  | .number token => .number (tokenValue token)
  | .string raw => .string (unescape raw)
  | .list _ => .list
  | .object _ => .object

/-- What stands at the end of a path, if the path leads somewhere. -/
def leafAt (x : RValue) (p : List PathStep) : Option Leaf := (x.at? p).map leaf

/-- The names of the fields of an object. -/
def names : RValue → Finset Bytes
  | .object o => (o.map Prod.fst).toFinset
  | _ => ∅

theorem leafAt_cons (x : RValue) (s : PathStep) (p : List PathStep) :
    x.leafAt (s :: p) = (x.child? s).bind (·.leafAt p) := by
  rw [leafAt, at?, Option.map_bind]
  rfl

theorem mem_names {x : RValue} {name : Bytes} :
    name ∈ x.names ↔ (x.child? (.field name)).isSome = true := by
  cases x with
  | object o =>
    rw [names, List.mem_toFinset, child?, isSome_lookup]
  | _ => exact iff_of_false (Finset.notMem_empty name) Bool.false_ne_true

end RValue

/-- The number has the same value when it has been read as a double and printed. -/
def PrintsBack (token : Bytes) : Prop :=
  ∃ d, lexicalCastDouble token = some d ∧ tokenValue (printG10 d) = tokenValue token

namespace WValue

/-- A converted list has as many elements. -/
theorem length_ofElements {l : List RValue} {ws : List WValue} (h : ofElements l = .ok ws) :
    ws.length = l.length := by
  induction l generalizing ws with
  | nil =>
    cases h
    rfl
  | cons x l ih =>
    rw [ofElements] at h
    obtain ⟨w, -, h⟩ := of_bind_ok h
    obtain ⟨ws', hws, rfl⟩ := of_map_ok h
    rw [List.length_cons, List.length_cons, ih hws]

/-- A converted value has the fields and the elements of the value, and no others. -/
theorem isSome_child?_ofRValue {x : RValue} {w : WValue} (h : ofRValue x = .ok w)
    (s : PathStep) : (w.child? s).isSome = (x.child? s).isSome := by
  cases hx : x.child? s with
  | some y =>
    obtain ⟨v, -, hv⟩ := child?_ofRValue h hx
    rw [hv]
    rfl
  | none =>
    cases x with
    | object o =>
      obtain ⟨fs, -, rfl⟩ := ofRValue_object h
      cases s with
      | element i => rfl
      | field name =>
        have hlookup : o.lookup name = none := hx
        rw [child?_field, field?_ofRValue h, hlookup]
        rfl
    | list l =>
      rw [ofRValue] at h
      obtain ⟨ws, hws, rfl⟩ := of_map_ok h
      cases s with
      | field name => rfl
      | element i =>
        have helement : l[i]? = none := hx
        rw [List.getElem?_eq_none_iff, ← length_ofElements hws] at helement
        rw [child?, List.getElem?_eq_none_iff.mpr helement]
        rfl
    | number token =>
      rw [ofRValue] at h
      split at h <;> cases h
      rfl
    | _ =>
      cases h
      rfl

end WValue

section

variable [HashOrder]

/-- What a converted value is when it has been printed and loaded. -/
theorem leaf_reread {x : RValue} {w : WValue} (h : WValue.ofRValue x = .ok w) :
    (reread w).leaf = x.leaf ↔ ∀ token, x = .number token → PrintsBack token := by
  cases x with
  | number token =>
    rw [WValue.ofRValue] at h
    cases hd : lexicalCastDouble token with
    | none =>
      rw [hd] at h
      cases h
    | some d =>
      rw [hd] at h
      cases h
      constructor
      · intro hleaf token' htoken
        cases htoken
        exact ⟨d, hd, Leaf.number.inj hleaf⟩
      · intro hprints
        obtain ⟨d', hd', hvalue⟩ := hprints token rfl
        rw [hd] at hd'
        cases hd'
        exact congrArg Leaf.number hvalue
  | string raw =>
    cases h
    refine iff_of_true ?_ fun token htoken => by cases htoken
    rw [reread, RValue.leaf, unescape_escape]
    rfl
  | object o =>
    obtain ⟨fs, -, rfl⟩ := WValue.ofRValue_object h
    rw [reread_object]
    exact iff_of_true rfl fun token htoken => by cases htoken
  | list l =>
    rw [WValue.ofRValue] at h
    obtain ⟨ws, -, rfl⟩ := of_map_ok h
    rw [reread_list]
    exact iff_of_true rfl fun token htoken => by cases htoken
  | _ =>
    cases h
    exact iff_of_true rfl fun token htoken => by cases htoken

/-- A path leads to the same in a converted value that has been printed and loaded, unless it
leads to a number that is not printed with its value. -/
theorem leafAt_reread {x : RValue} {w : WValue} (h : WValue.ofRValue x = .ok w)
    (p : List PathStep) : (reread w).leafAt p = x.leafAt p ↔
      ∀ token, x.at? p = some (.number token) → PrintsBack token := by
  induction p generalizing x w with
  | nil =>
    have hleaf := leaf_reread h
    simpa [RValue.leafAt, RValue.at?] using hleaf
  | cons s p ih =>
    rw [RValue.leafAt_cons, RValue.leafAt_cons, child?_reread (WValue.distinct_ofRValue h),
      RValue.at?]
    cases hx : x.child? s with
    | none =>
      have hw := WValue.isSome_child?_ofRValue h s
      rw [hx, Option.isSome_none, Option.isSome_eq_false_iff, Option.isNone_iff_eq_none] at hw
      rw [hw]
      exact iff_of_true rfl fun token htoken => by cases htoken
    | some y =>
      obtain ⟨v, hv, hchild⟩ := WValue.child?_ofRValue h hx
      rw [hchild]
      exact ih hv

end

end Quarks
