import Quarks.Core.Read
import Quarks.Core.Serve
import Quarks.Json.Fields

/-!
# Merging the fields of a put

`put` on a key whose value is an object adds its fields to the fields stored. Whether it
merges or replaces is decided by the number of fields that are put: an empty object, like a
value that is not an object, replaces the one stored.
-/

namespace Quarks

open Basis

section

variable [HashOrder]

/-- The fields of a merged object are those that were put, and else those that existed. -/
theorem field?_mergeFields (existing put : WValue) (name : Bytes) :
    (mergeFields existing put).field? name = (put.field? name).or (existing.field? name) := by
  have hexisting : (existing.keys.foldl (fun w e => WValue.set w e (existing.take e))
      .null).field? name = existing.field? name := by
    rw [WValue.field?_foldl_set, WValue.field?_null]
    split
    · next h =>
      obtain ⟨v, hv⟩ := Option.isSome_iff_exists.mp (WValue.mem_keys.mp h)
      rw [WValue.take_eq, hv]
      rfl
    · next h =>
      rw [WValue.mem_keys, Option.not_isSome_iff_eq_none] at h
      exact h.symm
  rw [mergeFields, WValue.field?_foldl_set, hexisting]
  split
  · next h =>
    obtain ⟨v, hv⟩ := Option.isSome_iff_exists.mp (WValue.mem_keys.mp h)
    rw [WValue.take_eq, hv]
    rfl
  · next h =>
    rw [WValue.mem_keys, Option.not_isSome_iff_eq_none] at h
    rw [h]
    rfl

theorem distinct_mergeFields (existing put : WValue) : (mergeFields existing put).Distinct := by
  refine WValue.Distinct.foldl_set ?_ _ _
  exact WValue.Distinct.foldl_set (w := .null) trivial _ _

/-! ## What a put stores -/

/-- A put whose value can be made stores it. -/
theorem insertKeyValuePair_stores {c : Config} {n : Node} {x : RValue} {key : Bytes}
    {value : WValue} (hdb : c.dbOk = true) (hkey : pairKey x = .ok key)
    (hvalue : insertedValue (n.db.find? key) x = .ok value) :
    DataTriple noFaults (· = n) (insertKeyValuePair c false x)
      (fun _ n' => n' = n.stored c key (dump value))
      (fun n' => n' = n.stored c key (dump value)) := by
  refine insertKeyValuePair_triple c ?_ ?_ ?_
  · rintro n rfl hrejects
    obtain ⟨found, e, hfinds, herror⟩ := hrejects key hkey
    rw [readsAs_noFaults.mp (hfinds.1 hdb), hvalue] at herror
    cases herror
  · rintro (h | h | h)
    · cases h
    · rw [hdb] at h
      cases h
    · exact absurd h not_fails_noFaults
  · rintro n key' value' rfl ⟨-, hkey', found, hfound, hvalue'⟩
    rw [hkey] at hkey'
    cases hkey'
    rw [readsAs_noFaults.mp hfound, hvalue] at hvalue'
    cases hvalue'
    rfl

/-- The values are the same, or they are objects with the same fields. -/
def SameValue (w v : WValue) : Prop :=
  w = v ∨ ∃ fields put, w = .object fields ∧ v = .object put ∧
    ∀ name, fields.lookup name = put.lookup name

/-- What a put is to store: the fields put and the other fields of the object found, if both
are objects, and else the value put. -/
def IsMerged (found : Option WValue) (v w : WValue) : Prop :=
  match found, v with
  | some (.object existing), .object put => ∃ fields, w = .object fields ∧
      ∀ name, fields.lookup name = (put.lookup name).or (existing.lookup name)
  | _, _ => SameValue w v

/-- A put stores what it is to store, and nothing under another key. -/
def PutMerges (c : Config) (w : World) (body key : Bytes) (found : Option WValue) (v : WValue) :
    Prop :=
  ∃ value, IsMerged found v value ∧
    ((put c body).run (handle noFaults) w).2.node.db = w.node.db.insert key (dump value)

/-- The object put has no fields, and the object found has some. -/
def Empties : Option WValue → WValue → Bool
  | some (.object (_ :: _)), .object [] => true
  | _, _ => false

theorem keys_eq_nil_iff {w : WValue} : w.keys = [] ↔ ∀ name, w.field? name = none := by
  constructor
  · intro h name
    rw [← Option.not_isSome_iff_eq_none, ← WValue.mem_keys, h]
    exact List.not_mem_nil
  · intro h
    refine List.eq_nil_iff_forall_not_mem.mpr fun name hname => ?_
    rw [WValue.mem_keys, h name] at hname
    cases hname

theorem keys_object_eq_nil_iff {o : List (Bytes × WValue)} :
    (WValue.object o).keys = [] ↔ o = [] := by
  rw [WValue.keys, List.map_eq_nil_iff]
  constructor
  · intro h
    exact (h ▸ HashOrder.perm o).nil_eq.symm
  · rintro rfl
    exact List.perm_nil.mp (HashOrder.perm [])

omit [HashOrder] in
theorem exists_object_set (w : WValue) (name : Bytes) (v : WValue) :
    ∃ o, w.set name v = .object o := by
  cases w <;> exact ⟨_, rfl⟩

omit [HashOrder] in
theorem exists_object_foldl_set {w : WValue} {names : List Bytes} (f : Bytes → WValue)
    (h : names ≠ []) : ∃ o, names.foldl (fun w n => w.set n (f n)) w = .object o := by
  obtain h' | ⟨init, last, rfl⟩ := List.eq_nil_or_concat' names
  · exact absurd h' h
  · rw [List.foldl_append]
    exact exists_object_set _ _ _

/-- Merging fields gives an object. -/
theorem exists_object_mergeFields {existing put : WValue} (h : put.keys ≠ []) :
    ∃ o, mergeFields existing put = .object o :=
  exists_object_foldl_set _ h

/-- Two objects with the same text have fields or have none. -/
theorem eq_nil_of_dump_eq {o : List (Bytes × WValue)}
    (h : dump (.object o) = dump (.object [])) : o = [] := by
  have hread : reread (.object o) = reread (.object []) :=
    Option.some.inj ((load_dump _).symm.trans ((congrArg load h).trans (load_dump _)))
  rw [reread_object, reread_object] at hread
  have hlist := RValue.object.inj hread
  have hempty : HashOrder.arrange ([] : List (Bytes × WValue)) = [] :=
    List.perm_nil.mp (HashOrder.perm [])
  rw [hempty, List.map_nil, List.map_eq_nil_iff] at hlist
  exact (hlist ▸ HashOrder.perm o).nil_eq.symm

/-! ## Merging or replacing -/

/-- The value stored by a put, given the value found under its key. -/
def mergedValue (found : Option WValue) (v : WValue) : WValue :=
  match found with
  | none => v
  | some existing => if v.keys = [] then v else mergeFields existing v

/-- What is found under the key of a pair decides between merging and replacing. -/
theorem insertedValue_eq {stored : Option Bytes} {x : RValue} {found : Option WValue} {v : WValue}
    (hvalue : pairValue x = .ok v) (hfound : stored.map loadValue = found.map Except.ok) :
    insertedValue stored x = .ok (mergedValue found v) := by
  unfold insertedValue
  rw [hvalue]
  cases stored with
  | none =>
    cases found with
    | none => rfl
    | some existing => cases hfound
  | some readValue =>
    cases found with
    | none => cases hfound
    | some existing =>
      have hload : (checked (load readValue)).bind WValue.ofRValue = .ok existing :=
        Option.some.inj hfound
      simp only [hload]
      rfl

omit [HashOrder] in
theorem field?_object (o : List (Bytes × WValue)) (name : Bytes) :
    (WValue.object o).field? name = o.lookup name := rfl

/-- The fields of a merged object, over the fields of both objects. -/
theorem isMerged_mergeFields {existing v : WValue} (h : v.keys ≠ []) :
    IsMerged (some existing) v (mergeFields existing v) := by
  obtain ⟨merged, hmerged⟩ : ∃ o, mergeFields existing v = .object o :=
    exists_object_mergeFields h
  have hfield : ∀ name, merged.lookup name = (v.field? name).or (existing.field? name) := by
    intro name
    rw [← field?_mergeFields, hmerged, field?_object]
  cases v with
  | object put =>
    cases existing with
    | object fields => exact ⟨merged, hmerged, hfield⟩
    | _ =>
      exact Or.inr ⟨merged, put, hmerged, rfl, fun name => (hfield name).trans Option.or_none⟩
  | _ => exact absurd rfl h

omit [HashOrder] in
/-- A value that does not hide the fields stored replaces what is stored. -/
theorem isMerged_self {found : Option WValue} {v : WValue}
    (h : ∀ existing put, found = some (.object existing) → v = .object put → existing = []) :
    IsMerged found v v := by
  cases found with
  | none => exact Or.inl rfl
  | some existing =>
    cases existing with
    | object fields =>
      cases v with
      | object put =>
        refine ⟨put, rfl, fun name => ?_⟩
        rw [h fields put rfl rfl, List.lookup_nil, Option.or_none]
      | _ => exact Or.inl rfl
    | _ => exact Or.inl rfl

omit [HashOrder] in
theorem empties_iff {found : Option WValue} {v : WValue} :
    Empties found v = true ↔ ∃ e fields, found = some (.object (e :: fields)) ∧ v = .object [] := by
  constructor
  · intro h
    unfold Empties at h
    split at h
    · next e fields => exact ⟨e, fields, rfl, rfl⟩
    · cases h
  · rintro ⟨e, fields, rfl, rfl⟩
    rfl

/-- A put stores its value, alone or merged into the one found. -/
theorem put_stores {c : Config} {n : Node} {body key : Bytes} {x : RValue}
    {found : Option WValue} {v : WValue} (hdb : c.dbOk = true) (hbody : load body = some x)
    (hkey : pairKey x = .ok key) (hvalue : pairValue x = .ok v)
    (hfound : (n.db.find? key).map loadValue = found.map Except.ok) :
    DataTriple noFaults (· = n) (put c body)
      (fun _ n' => n' = n.stored c key (dump (mergedValue found v)))
      (fun n' => n' = n.stored c key (dump (mergedValue found v))) := by
  unfold put insert
  rw [hbody]
  exact insertKeyValuePair_stores hdb hkey (insertedValue_eq hvalue hfound)

/-- A put of an object keeps the fields that it does not put, unless it puts none at all:
then the fields stored are lost. -/
theorem put_merges {c : Config} {w : World} {body key : Bytes} {x : RValue}
    {found : Option WValue} {v : WValue} (hdb : c.dbOk = true) (hbody : load body = some x)
    (hkey : pairKey x = .ok key) (hvalue : pairValue x = .ok v)
    (hfound : (w.node.db.find? key).map loadValue = found.map Except.ok) :
    PutMerges c w body key found v ↔ Empties found v = false := by
  have hrun : ((put c body).run (handle noFaults) w).2.node.db =
      w.node.db.insert key (dump (mergedValue found v)) := by
    have hnode := put_stores hdb hbody hkey hvalue hfound w rfl
    generalize (put c body).run (handle noFaults) w = r at hnode ⊢
    obtain ⟨_ | _, w'⟩ := r <;> exact congrArg Node.db hnode
  constructor
  · rintro ⟨value, hmerged, hstored⟩
    rw [← Bool.not_eq_true, empties_iff]
    rintro ⟨⟨name, e⟩, fields, rfl, rfl⟩
    obtain ⟨merged, rfl, hlookup⟩ := hmerged
    have hfind := congrArg (·.find? key) (hrun.symm.trans hstored)
    simp only [mergedValue, OrderedMap.find?_insert_self, Option.some.injEq,
      if_pos (keys_object_eq_nil_iff.mpr rfl)] at hfind
    have hname := hlookup name
    rw [eq_nil_of_dump_eq hfind.symm, lookup_cons_eq] at hname
    simp at hname
  · intro hempties
    refine ⟨_, ?_, hrun⟩
    cases found with
    | none => exact Or.inl rfl
    | some existing =>
      by_cases hkeys : v.keys = []
      · rw [mergedValue, if_pos hkeys]
        refine isMerged_self fun fields put hfields hput => ?_
        subst hput
        cases hfields
        cases fields with
        | nil => rfl
        | cons e fields =>
          rw [keys_object_eq_nil_iff.mp hkeys] at hempties
          cases hempties
      · rw [mergedValue, if_neg hkeys]
        exact isMerged_mergeFields hkeys

end

/-! ## Two puts on one object -/

/-- The store holds one object with one field. -/
def holdsField : World :=
  openDB uncachedOnly (OrderedMap.empty.insert (ascii "k") (ascii "\x7b\"a\":\"1\"\x7d"))

/-- A field is put that was not there. -/
def addFieldBody : Bytes := ascii "\x7b\"key\":\"k\",\"value\":\x7b\"b\":\"2\"\x7d\x7d"

/-- An object without fields is put. -/
def addNothingBody : Bytes := ascii "\x7b\"key\":\"k\",\"value\":\x7b\x7d\x7d"

/-- A field is added to the one stored. -/
theorem put_merges_field : @PutMerges .insertion uncachedOnly holdsField addFieldBody (ascii "k")
    (some (.object [(ascii "a", .string (ascii "1"))]))
    (.object [(ascii "b", .string (ascii "2"))]) := by
  have hfound : holdsField.node.db.find? (ascii "k") = some (ascii "\x7b\"a\":\"1\"\x7d") := by
    decide +kernel
  have htext : ascii "\x7b\"a\":\"1\"\x7d" =
      @dump .insertion (.object [(ascii "a", .string (ascii "1"))]) := by
    decide +kernel
  have hload : loadValue (ascii "\x7b\"a\":\"1\"\x7d") =
      .ok (.object [(ascii "a", .string (ascii "1"))]) := by
    rw [loadValue, htext, @load_dump .insertion]
    rfl
  have hdump : addFieldBody = @dump .insertion (.object [(ascii "key", .string (ascii "k")),
      (ascii "value", .object [(ascii "b", .string (ascii "2"))])]) := by
    decide +kernel
  exact (@put_merges .insertion uncachedOnly holdsField addFieldBody (ascii "k") _
    (some (.object [(ascii "a", .string (ascii "1"))])) _ rfl
    ((congrArg load hdump).trans (@load_dump .insertion _)) rfl rfl
    ((congrArg (Option.map loadValue) hfound).trans (congrArg some hload))).mpr rfl

/-- A put of no fields does not keep the field stored. -/
theorem not_putMerges_empty : ¬@PutMerges .insertion uncachedOnly holdsField addNothingBody
    (ascii "k") (some (.object [(ascii "a", .string (ascii "1"))])) (.object []) := by
  rintro ⟨value, ⟨merged, rfl, hlookup⟩, hstored⟩
  have hempty : (((@put .insertion uncachedOnly addNothingBody).run (handle noFaults)
      holdsField).2.node.db.find? (ascii "k")) = some (ascii "\x7b\x7d") := by
    decide +kernel
  rw [hstored, OrderedMap.find?_insert_self] at hempty
  have hnil : merged = [] := @eq_nil_of_dump_eq .insertion merged (Option.some.inj hempty)
  have ha := hlookup (ascii "a")
  rw [hnil, List.lookup_nil, Option.none_or, lookup_cons_eq, if_pos rfl] at ha
  cases ha

end Quarks
