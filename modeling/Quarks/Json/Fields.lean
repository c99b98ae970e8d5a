import Quarks.Basis.Lookup
import Quarks.Json.RoundTrip

/-!
# The fields of objects

An object is a list of named values. Storing, converting, printing and loading an
object are described here by what they do to the value under a name, whatever the order
of iteration is.
-/

namespace Quarks

open Basis

namespace WValue

section

variable {α : Type} (o : List (Bytes × α)) (name : Bytes) (value : α)

/-- A lookup after `w[name] = value`. -/
theorem lookup_assign (k : Bytes) :
    (assign o name value).lookup k = if k = name then some value else o.lookup k := by
  unfold assign
  split
  · next hsome =>
    induction o with
    | nil => simp at hsome
    | cons e o ih =>
      obtain ⟨k', v⟩ := e
      rw [lookup_cons_eq] at hsome
      rw [List.map_cons, lookup_cons_eq, lookup_cons_eq]
      by_cases hname : name = k'
      · subst hname
        by_cases hk : k = name
        · simp [hk]
        · have hrest : ∀ o : List (Bytes × α), (o.map fun e =>
              if e.1 = name then (e.1, value) else e).lookup k = o.lookup k := by
            intro o
            induction o with
            | nil => rfl
            | cons e o ih =>
              rw [List.map_cons, lookup_cons_eq, lookup_cons_eq, ih]
              by_cases he : e.1 = name
              · simp [he, hk]
              · simp [he]
          simp [hk, hrest]
      · have hne : k' ≠ name := fun h => hname h.symm
        rw [if_neg hname] at hsome
        by_cases hk : k = k'
        · simp [hk, hne]
        · simp [hk, hne, ih hsome]
  · next hnone =>
    rw [Option.not_isSome_iff_eq_none] at hnone
    rw [List.lookup_append, lookup_cons_eq]
    by_cases hk : k = name
    · simp [hk, hnone]
    · simp [hk]

theorem nodup_assign (h : (o.map Prod.fst).Nodup) : ((assign o name value).map Prod.fst).Nodup := by
  unfold assign
  split
  · have hsame : (o.map fun e => if e.1 = name then (e.1, value) else e).map Prod.fst =
        o.map Prod.fst := by
      rw [List.map_map]
      refine List.map_congr_left fun e _ => ?_
      simp only [Function.comp_apply]
      split <;> rfl
    rw [hsame]
    exact h
  · next hnone =>
    rw [isSome_lookup] at hnone
    rw [List.map_append, List.map_singleton, ← List.concat_eq_append]
    exact List.Nodup.concat hnone h

/-- The first of several values that are emplaced under a name stays. -/
theorem lookup_foldl_emplace (fs : List (Bytes × α)) (k : Bytes) :
    (fs.foldl emplace o).lookup k = (o.lookup k).or (fs.lookup k) := by
  induction fs generalizing o with
  | nil => simp
  | cons e fs ih =>
    rw [List.foldl_cons, ih, lookup_cons_eq, emplace]
    split
    · next hsome =>
      by_cases hk : k = e.1
      · obtain ⟨v, hv⟩ := Option.isSome_iff_exists.mp hsome
        simp [hk, hv]
      · simp [hk]
    · rw [List.lookup_append, lookup_cons_eq, Option.or_assoc]
      by_cases hk : k = e.1 <;> simp [hk]

theorem nodup_foldl_emplace (fs : List (Bytes × α)) (h : (o.map Prod.fst).Nodup) :
    ((fs.foldl emplace o).map Prod.fst).Nodup := by
  induction fs generalizing o with
  | nil => exact h
  | cons e fs ih =>
    refine ih _ ?_
    unfold emplace
    split
    · exact h
    · next hnone =>
      rw [isSome_lookup] at hnone
      rw [List.map_append, List.map_singleton, ← List.concat_eq_append]
      exact List.Nodup.concat hnone h

end

/-- The value of a field. -/
def field? (w : WValue) (name : Bytes) : Option WValue :=
  match w with
  | .object o => o.lookup name
  | _ => none

/-- An object without a repeated name, or a value that is not an object. -/
def Distinct : WValue → Prop
  | .object o => (o.map Prod.fst).Nodup
  | _ => True

@[simp] theorem field?_null (name : Bytes) : null.field? name = none := rfl

/-- A field after `w[name] = value`. -/
theorem field?_set (w : WValue) (name : Bytes) (value : WValue) (k : Bytes) :
    (w.set name value).field? k = if k = name then some value else w.field? k := by
  cases w with
  | object o => exact lookup_assign o name value k
  | _ =>
    simp only [set, field?, lookup_cons_eq, List.lookup_nil]

theorem Distinct.set {w : WValue} (h : w.Distinct) (name : Bytes) (value : WValue) :
    (w.set name value).Distinct := by
  cases w with
  | object o => exact nodup_assign o name value h
  | _ => simp [WValue.set, Distinct]

/-- Storing several fields, one after the other. -/
theorem field?_foldl_set (w : WValue) (ks : List Bytes) (f : Bytes → WValue) (k : Bytes) :
    (ks.foldl (fun w k => w.set k (f k)) w).field? k =
      if k ∈ ks then some (f k) else w.field? k := by
  induction ks generalizing w with
  | nil => simp
  | cons k' ks ih =>
    rw [List.foldl_cons, ih, field?_set]
    by_cases hk : k ∈ ks
    · simp [hk]
    · by_cases hk' : k = k' <;> simp [hk, hk']

theorem Distinct.foldl_set {w : WValue} (h : w.Distinct) (ks : List Bytes) (f : Bytes → WValue) :
    (ks.foldl (fun w k => w.set k (f k)) w).Distinct := by
  induction ks generalizing w with
  | nil => exact h
  | cons k ks ih => exact ih (h.set k (f k))

theorem mem_keys [HashOrder] {w : WValue} {name : Bytes} :
    name ∈ w.keys ↔ (w.field? name).isSome = true := by
  cases w with
  | object o =>
    rw [keys, field?, isSome_lookup]
    exact ((HashOrder.perm o).map Prod.fst).mem_iff
  | _ => simp [keys, field?]

theorem take_eq (w : WValue) (name : Bytes) : w.take name = (w.field? name).getD .null := by
  cases w <;> rfl

/-! ## Converted objects -/

/-- The fields are converted one by one. -/
theorem lookup_ofFields {l : List (Bytes × RValue)} {fs : List (Bytes × WValue)}
    (h : ofFields l = .ok fs) (name : Bytes) :
    fs.lookup name = (l.lookup name).bind fun x => (ofRValue x).toOption := by
  induction l generalizing fs with
  | nil =>
    cases h
    rfl
  | cons e l ih =>
    rw [ofFields] at h
    cases hw : ofRValue e.2 with
    | error f =>
      rw [hw] at h
      cases h
    | ok w =>
      rw [hw] at h
      cases hfs : ofFields l with
      | error f =>
        rw [hfs] at h
        cases h
      | ok fs' =>
        rw [hfs] at h
        cases h
        rw [lookup_cons_eq, lookup_cons_eq, ih hfs]
        split
        · simp [hw, Except.toOption]
        · rfl

/-- If an object can be converted, so can its fields. -/
theorem ofFields_ok {l : List (Bytes × RValue)} {fs : List (Bytes × WValue)}
    (h : ofFields l = .ok fs) {name : Bytes} {x : RValue} (hx : l.lookup name = some x) :
    ∃ v, ofRValue x = .ok v := by
  induction l generalizing fs with
  | nil => cases hx
  | cons e l ih =>
    rw [ofFields] at h
    rw [lookup_cons_eq] at hx
    cases hw : ofRValue e.2 with
    | error f =>
      rw [hw] at h
      cases h
    | ok w =>
      split at hx
      · cases hx
        exact ⟨w, hw⟩
      · rw [hw] at h
        cases hfs : ofFields l with
        | error f =>
          rw [hfs] at h
          cases h
        | ok fs' => exact ih hfs hx

/-- A converted object consists of its converted fields. -/
theorem ofRValue_object {l : List (Bytes × RValue)} {w : WValue}
    (h : ofRValue (.object l) = .ok w) :
    ∃ fs, ofFields l = .ok fs ∧ w = .object (fs.foldl emplace []) := by
  rw [ofRValue] at h
  cases hfs : ofFields l with
  | error f =>
    rw [hfs] at h
    cases h
  | ok fs =>
    rw [hfs] at h
    cases h
    exact ⟨fs, rfl, rfl⟩

/-- The fields of a converted object are the converted fields. -/
theorem field?_ofRValue {l : List (Bytes × RValue)} {w : WValue}
    (h : ofRValue (.object l) = .ok w) (name : Bytes) :
    w.field? name = (l.lookup name).bind fun x => (ofRValue x).toOption := by
  obtain ⟨fs, hfs, rfl⟩ := ofRValue_object h
  rw [field?, lookup_foldl_emplace, lookup_ofFields hfs]
  rfl

/-- The names of the fields of an object are the keys of the converted object. -/
theorem mem_keys_ofRValue [HashOrder] {l : List (Bytes × RValue)} {w : WValue} {name : Bytes}
    {v : RValue} (h : ofRValue (.object l) = .ok w) (hv : l.lookup name = some v) :
    name ∈ w.keys := by
  obtain ⟨fs, hfs, -⟩ := ofRValue_object h
  obtain ⟨u, hu⟩ := ofFields_ok hfs hv
  rw [mem_keys, field?_ofRValue h, hv, Option.bind_some, hu]
  rfl

theorem keys_ne_nil_of_ofRValue [HashOrder] {l : List (Bytes × RValue)} {w : WValue}
    (h : ofRValue (.object l) = .ok w) (hl : l ≠ []) : w.keys ≠ [] := by
  obtain ⟨⟨name, v⟩, rest, rfl⟩ := List.exists_cons_of_ne_nil hl
  have hmem : name ∈ w.keys := mem_keys_ofRValue h (by rw [lookup_cons_eq, if_pos rfl])
  exact List.ne_nil_of_mem hmem

theorem distinct_ofRValue {x : RValue} {w : WValue} (h : ofRValue x = .ok w) : w.Distinct := by
  cases x with
  | object l =>
    obtain ⟨fs, -, rfl⟩ := ofRValue_object h
    exact nodup_foldl_emplace [] fs List.nodup_nil
  | null => rw [ofRValue] at h; cases h; trivial
  | bool b => rw [ofRValue] at h; cases h; trivial
  | string raw => rw [ofRValue] at h; cases h; trivial
  | number token =>
    rw [ofRValue] at h
    split at h <;> cases h
    trivial
  | list l =>
    rw [ofRValue] at h
    cases hl : ofElements l with
    | error f =>
      rw [hl] at h
      cases h
    | ok ws =>
      rw [hl] at h
      cases h
      trivial

end WValue

/-! ## Loaded objects -/

/-- The field of a loaded object is the loaded field. -/
theorem field_reread [HashOrder] {w : WValue} (h : w.Distinct) {name : Bytes} {v : WValue}
    (hv : w.field? name = some v) : (reread w).field name = .ok (reread v) := by
  cases w with
  | object o =>
    have hnodup : ((HashOrder.arrange o).map Prod.fst).Nodup :=
      ((HashOrder.perm o).map Prod.fst).nodup_iff.mpr h
    have hlookup : (HashOrder.arrange o).lookup name = some v := by
      rw [lookup_perm (HashOrder.perm o) hnodup]
      exact hv
    rw [reread_object, RValue.field, lookup_map, hlookup]
    rfl
  | _ => cases hv

/-- A value that is printed, loaded and converted keeps its fields, converted in turn. -/
theorem field?_of_reread [HashOrder] {w e : WValue} (h : w.Distinct)
    (he : WValue.ofRValue (reread w) = .ok e) {name : Bytes} {v : WValue}
    (hv : w.field? name = some v) :
    ∃ v', WValue.ofRValue (reread v) = .ok v' ∧ e.field? name = some v' := by
  cases w with
  | object o =>
    have hnodup : ((HashOrder.arrange o).map Prod.fst).Nodup :=
      ((HashOrder.perm o).map Prod.fst).nodup_iff.mpr h
    have hlookup : (HashOrder.arrange o).lookup name = some v := by
      rw [lookup_perm (HashOrder.perm o) hnodup]
      exact hv
    rw [reread_object] at he
    obtain ⟨fs, hfs, -⟩ := WValue.ofRValue_object he
    have hloaded : ((HashOrder.arrange o).map (Prod.map id reread)).lookup name =
        some (reread v) := by
      rw [lookup_map, hlookup]
      rfl
    obtain ⟨v', hv'⟩ := WValue.ofFields_ok hfs hloaded
    refine ⟨v', hv', ?_⟩
    rw [WValue.field?_ofRValue he, hloaded, Option.bind_some, hv']
    rfl
  | _ => cases hv

/-- Converting, printing and loading an object leaves the names of its fields. -/
theorem has_reread_ofRValue [HashOrder] {l : List (Bytes × RValue)} {w : WValue}
    (h : WValue.ofRValue (.object l) = .ok w) (name : Bytes) :
    (reread w).has name = (RValue.object l).has name := by
  have hlookup := WValue.field?_ofRValue h name
  have hdistinct := WValue.distinct_ofRValue h
  obtain ⟨fs, hfs, rfl⟩ := WValue.ofRValue_object h
  have harranged := ((HashOrder.perm (fs.foldl WValue.emplace [])).map Prod.fst).nodup_iff.mpr
    hdistinct
  rw [reread_object, RValue.has, RValue.has, lookup_map,
    lookup_perm (HashOrder.perm _) harranged, Option.isSome_map]
  change Except.ok ((WValue.object _).field? name).isSome = _
  rw [hlookup]
  cases hx : l.lookup name with
  | none => rfl
  | some x =>
    obtain ⟨v, hv⟩ := WValue.ofFields_ok hfs hx
    rw [Option.bind_some, hv]
    rfl

/-- The field of an object that is converted, printed and loaded is its field, treated in the
same way. -/
theorem field_reread_ofRValue [HashOrder] {x v : RValue} {w : WValue} {name : Bytes}
    (h : WValue.ofRValue x = .ok w) (hv : x.field name = .ok v) :
    ∃ u, WValue.ofRValue v = .ok u ∧ (reread w).field name = .ok (reread u) := by
  obtain ⟨l, rfl, hx⟩ := RValue.field_cases hv
  obtain ⟨fs, hfs, -⟩ := WValue.ofRValue_object h
  obtain ⟨u, hu⟩ := WValue.ofFields_ok hfs hx
  refine ⟨u, hu, field_reread (WValue.distinct_ofRValue h) ?_⟩
  rw [WValue.field?_ofRValue h, hx, Option.bind_some, hu]
  rfl

end Quarks
