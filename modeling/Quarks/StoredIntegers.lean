import Quarks.Json.Leaves
import Quarks.MergedPuts
import Mathlib.Algebra.Module.Submodule.Lattice
import Mathlib.Data.List.Permutation

/-!
# Whole numbers in stored values

Every put and every partial update prints the whole object again, so a number that an
update does not mention is read and printed once more. Ten significant digits are printed,
and a number that needs no more survives any sequence of updates.
-/

namespace Quarks

open Basis

/-- Every number of the value is a whole number below `2 ^ 53`. -/
def AllIntegers (x : RValue) : Prop :=
  ∀ p token, x.at? p = some (.number token) →
    ∃ z : ℤ, z.natAbs < 2 ^ 53 ∧ tokenValue token = some (z : ℚ)

/-- A whole number is read from the text stored under a key. -/
def StoredInteger (w : World) (key : Bytes) (p : List PathStep) (z : ℤ) : Prop :=
  ∃ text x, w.node.db.find? key = some text ∧ load text = some x ∧ x.IntegerAt p z

/-- The request is a put or a partial update with this body. -/
def Request.Updates (r : Request) (body : Bytes) : Prop :=
  r = .put body ∨ r = .incrementValue body

/-- The request gives a field for the value of a key. -/
def Mentions (r : Request) (key name : Bytes) : Prop :=
  ∃ body x xv, r.Updates body ∧ load body = some x ∧ pairKey x = .ok key ∧
    x.field (ascii "value") = .ok xv ∧ (xv.child? (.field name)).isSome = true

section

variable [HashOrder]

/-- Fields that the request does not mention keep their whole numbers. -/
def KeepsUnmentioned (c : Config) (w : World) (key : Bytes) (r : Request) : Prop :=
  ∀ name p z, z.natAbs < 2 ^ 53 → ¬Mentions r key name →
    StoredInteger w key (.field name :: p) z →
      StoredInteger (step c noFaults w r) key (.field name :: p) z

/-- After a put the whole numbers of the value are stored, and each later update keeps those
that it does not mention. -/
def IntegersSurvive (c : Config) (w : World) (body key : Bytes) (xv : RValue)
    (rs : List Request) : Prop :=
  (∀ p z, xv.IntegerAt p z → StoredInteger (step c noFaults w (.put body)) key p z) ∧
    ∀ before r after, rs = before ++ r :: after →
      KeepsUnmentioned c (serveAll c noFaults (step c noFaults w (.put body)) before) key r

/-- The request puts a value without fields where one with a whole number is stored. -/
def Discards (w : World) (key : Bytes) (r : Request) : Prop :=
  ∃ body x v found, r = .put body ∧ load body = some x ∧ pairKey x = .ok key ∧
    pairValue x = .ok v ∧ v.keys = [] ∧ (w.node.db.find? key).map loadValue = some (.ok found) ∧
    ∃ name p z, z.natAbs < 2 ^ 53 ∧ StoredInteger w key (.field name :: p) z

/-! ## What is stored -/

/-- The text under the key was printed. -/
def Printed (n : Node) (key : Bytes) : Prop := ∃ u, n.db.find? key = some (dump u)

/-- The numbers stored in a printed value. -/
theorem storedInteger_dump {w : World} {key : Bytes} {u : WValue}
    (h : w.node.db.find? key = some (dump u)) {p : List PathStep} {z : ℤ} :
    StoredInteger w key p z ↔ (reread u).IntegerAt p z := by
  constructor
  · rintro ⟨text, x, htext, hload, hint⟩
    rw [h] at htext
    cases htext
    rw [load_dump] at hload
    cases hload
    exact hint
  · exact fun hint => ⟨dump u, reread u, h, load_dump u, hint⟩

/-- The numbers under a field of a printed object. -/
theorem integerAt_field {u : WValue} (hu : u.Distinct) {name : Bytes} {p : List PathStep}
    {z : ℤ} : (reread u).IntegerAt (.field name :: p) z ↔
      ∃ v, u.field? name = some v ∧ (reread v).IntegerAt p z := by
  rw [RValue.integerAt_cons, child?_reread hu, WValue.child?_field]
  constructor
  · rintro ⟨y, hy, hint⟩
    obtain ⟨v, hv, rfl⟩ := Option.map_eq_some_iff.mp hy
    exact ⟨v, hv, hint⟩
  · rintro ⟨v, hv, hint⟩
    exact ⟨reread v, by rw [hv]; rfl, hint⟩

section

variable {c : Config} {w : World} {key : Bytes}

/-- The process after a put that can be stored. -/
theorem step_put {body : Bytes} {x : RValue} {found : Option WValue} {v : WValue}
    (hdb : c.dbOk = true) (hbody : load body = some x) (hkey : pairKey x = .ok key)
    (hvalue : pairValue x = .ok v)
    (hfound : (w.node.db.find? key).map loadValue = found.map Except.ok) :
    (step c noFaults w (.put body)).node.db.find? key = some (dump (mergedValue found v)) := by
  have hnode := step_of_triple c (DataTriple.discard (put_stores hdb hbody hkey hvalue hfound))
    (w := w) (r := .put body) rfl
  rw [hnode]
  exact OrderedMap.find?_insert_self _ _ _

/-- The value put is found in what is stored, field by field or as a whole. -/
theorem integerAt_mergedValue {found : Option WValue} {xv : RValue} {v : WValue}
    (hxv : WValue.ofRValue xv = .ok v) {p : List PathStep} {z : ℤ} (hint : xv.IntegerAt p z)
    (hz : z.natAbs < 2 ^ 53) (hten : TenDigits z) :
    (reread (mergedValue found v)).IntegerAt p z := by
  have hv := integerAt_reread hxv hint hz hten
  have hdistinct := WValue.distinct_ofRValue hxv
  cases found with
  | none => exact hv
  | some existing =>
    by_cases hkeys : v.keys = []
    · rw [mergedValue, if_pos hkeys]
      exact hv
    · rw [mergedValue, if_neg hkeys]
      cases v with
      | object o =>
        cases p with
        | nil =>
          obtain ⟨token, htoken, -⟩ := hv
          rw [reread_object] at htoken
          cases htoken
        | cons s p =>
          cases s with
          | element i =>
            obtain ⟨y, hy, -⟩ := RValue.integerAt_cons.mp hv
            rw [reread_object] at hy
            cases hy
          | field name =>
            obtain ⟨u, hu, hint⟩ := (integerAt_field hdistinct).mp hv
            refine (integerAt_field (distinct_mergeFields _ _)).mpr ⟨u, ?_, hint⟩
            rw [field?_mergeFields, hu]
            rfl
      | _ => exact absurd rfl hkeys

/-- A field that is not put keeps its whole numbers. -/
theorem integerAt_mergeFields {x : RValue} {existing v : WValue}
    (hx : WValue.ofRValue x = .ok existing) {name : Bytes} (hname : v.field? name = none)
    {p : List PathStep} {z : ℤ} (hint : x.IntegerAt (.field name :: p) z)
    (hz : z.natAbs < 2 ^ 53) (hten : TenDigits z) :
    (reread (mergeFields existing v)).IntegerAt (.field name :: p) z := by
  have hread := integerAt_reread hx hint hz hten
  obtain ⟨u, hu, hint⟩ := (integerAt_field (WValue.distinct_ofRValue hx)).mp hread
  refine (integerAt_field (distinct_mergeFields _ _)).mpr ⟨u, ?_, hint⟩
  rw [field?_mergeFields, hname]
  exact hu

omit [HashOrder] in
/-- The loop of a partial update copies the fields that the body does not have. -/
theorem incrementFields_copies {read xvalue : RValue} {existing : WValue} {es : List Bytes}
    {u u' : WValue} {affected affected' : ℤ} {name : Bytes} (hu : u.Distinct)
    (hname : xvalue.child? (.field name) = none)
    (h : incrementFields read xvalue existing es u affected = .ok (u', affected')) :
    u'.Distinct ∧ u'.field? name =
      if name ∈ es then some (existing.take name) else u.field? name := by
  induction es generalizing u affected with
  | nil =>
    cases h
    exact ⟨hu, rfl⟩
  | cons e es ih =>
    unfold incrementFields at h
    obtain ⟨has, hhas, h⟩ := of_bind_ok h
    cases has with
    | true =>
      have hne : name ≠ e := by
        rintro rfl
        cases xvalue with
        | object o =>
          have hlookup : o.lookup name = none := hname
          rw [RValue.has, hlookup] at hhas
          cases hhas
        | list l => cases l <;> cases hhas
        | _ => cases hhas
      simp only [if_true] at h
      obtain ⟨y, -, h⟩ := of_bind_ok h
      obtain ⟨value, -, h⟩ := of_bind_ok h
      obtain ⟨y', -, h⟩ := of_bind_ok h
      obtain ⟨stepBy, -, h⟩ := of_bind_ok h
      obtain ⟨hdistinct, hfield⟩ := ih (hu.set _ _) h
      refine ⟨hdistinct, ?_⟩
      rw [hfield, WValue.field?_set, if_neg hne]
      simp [hne]
    | false =>
      simp only [Bool.false_eq_true, if_false] at h
      obtain ⟨hdistinct, hfield⟩ := ih (hu.set _ _) h
      refine ⟨hdistinct, ?_⟩
      rw [hfield, WValue.field?_set]
      by_cases hne : name = e
      · simp [hne]
      · simp [hne]

/-- A partial update keeps the whole numbers of a field that it does not mention. -/
theorem integerAt_incrementedValue {x y xv : RValue} {text : Bytes} {u : WValue} {affected : ℤ}
    (hxv : x.field (ascii "value") = .ok xv) (hload : load text = some y)
    (h : incrementedValue x text = .ok (some (u, affected))) {name : Bytes}
    (hname : xv.child? (.field name) = none) {p : List PathStep} {z : ℤ}
    (hint : y.IntegerAt (.field name :: p) z) (hz : z.natAbs < 2 ^ 53) (hten : TenDigits z) :
    (reread u).IntegerAt (.field name :: p) z := by
  unfold incrementedValue at h
  obtain ⟨xv', hxv', h⟩ := of_bind_ok h
  rw [hxv] at hxv'
  cases hxv'
  obtain ⟨v, -, h⟩ := of_bind_ok h
  obtain ⟨y', hy', h⟩ := of_bind_ok h
  have hy := of_checked_ok hy'
  rw [hload] at hy
  cases hy
  obtain ⟨existing, hexisting, h⟩ := of_bind_ok h
  split at h
  · cases h
  obtain ⟨r, hr, h⟩ := of_bind_ok h
  cases h
  obtain ⟨hdistinct, hfield⟩ := incrementFields_copies (u := .null) trivial hname hr
  have hread := integerAt_reread hexisting hint hz hten
  obtain ⟨e, he, hint⟩ := (integerAt_field (WValue.distinct_ofRValue hexisting)).mp hread
  refine (integerAt_field hdistinct).mpr ⟨e, ?_, hint⟩
  rw [hfield, if_pos (WValue.mem_keys.mpr (by rw [he]; rfl)), WValue.take_eq, he]
  rfl

/-! ## One update -/

/-- Storing under one key keeps what is stored under another. -/
theorem stored_find?_of_ne {n : Node} {key' value : Bytes} (h : key ≠ key') :
    (n.stored c key' value).db.find? key = n.db.find? key := by
  change (n.db.insert key' value).find? key = _
  rw [OrderedMap.find?_insert, if_neg h]

theorem stored_find?_self {n : Node} {value : Bytes} :
    (n.stored c key value).db.find? key = some value :=
  OrderedMap.find?_insert_self _ _ _

/-- What holds before an update, and with each value that it may store, holds after it. -/
theorem step_update {J : Node → Prop} {r : Request} {body : Bytes} (hr : r.Updates body)
    (hskip : J w.node)
    (hput : ∀ x key' v, r = .put body → load body = some x → pairKey x = .ok key' →
      insertedValue (w.node.db.find? key') x = .ok v → J (w.node.stored c key' (dump v)))
    (hincrement : ∀ x key' text v affected, r = .incrementValue body → load body = some x →
      pairKey x = .ok key' → w.node.db.find? key' = some text →
      incrementedValue x text = .ok (some (v, affected)) →
      J (w.node.stored c key' (dump v))) :
    J (step c noFaults w r).node := by
  refine step_of_triple c (I := (· = w.node)) ?_ rfl
  rcases hr with rfl | rfl
  · refine DataTriple.discard (insert_triple c (fun n hn => hn ▸ hskip) ?_)
    rintro n x key' v rfl hload ⟨-, hkey, found, hfound, hvalue⟩
    rw [readsAs_noFaults.mp hfound] at hvalue
    exact hput x key' v rfl hload hkey hvalue
  · refine DataTriple.discard (incrementValue_triple c (fun n hn => hn ▸ hskip) ?_)
    rintro n x key' text v affected rfl hload hkey hfind hvalue
    exact hincrement x key' text v affected rfl hload hkey hfind hvalue

/-- An update leaves a printed text under the key. -/
theorem step_printed {r : Request} {body : Bytes} (hr : r.Updates body)
    (hw : Printed w.node key) : Printed (step c noFaults w r).node key := by
  have hstored : ∀ key' v, Printed (w.node.stored c key' (dump v)) key := by
    intro key' v
    by_cases hkey : key = key'
    · subst hkey
      exact ⟨v, stored_find?_self⟩
    · obtain ⟨u, hu⟩ := hw
      exact ⟨u, (stored_find?_of_ne hkey).trans hu⟩
  exact step_update (J := fun n => Printed n key) hr hw (fun _ key' v _ _ _ _ => hstored key' v)
    fun _ key' _ v _ _ _ _ _ _ => hstored key' v

/-- What a put stores over a text that is found. -/
theorem of_insertedValue {x : RValue} {text : Bytes} {v : WValue}
    (h : insertedValue (some text) x = .ok v) : ∃ put existing, pairValue x = .ok put ∧
      loadValue text = .ok existing ∧ v = mergedValue (some existing) put := by
  unfold insertedValue at h
  obtain ⟨put, hput, h⟩ := of_bind_ok h
  obtain ⟨existing, hexisting, h⟩ := of_bind_ok h
  refine ⟨put, existing, hput, hexisting, ?_⟩
  cases h
  rfl

omit [HashOrder] in
/-- A converted value has the fields of the value, and no others. -/
theorem isSome_field?_ofRValue {x : RValue} {v : WValue} (h : WValue.ofRValue x = .ok v)
    (name : Bytes) : (x.child? (.field name)).isSome = (v.field? name).isSome := by
  rw [← WValue.child?_field]
  exact (WValue.isSome_child?_ofRValue h (.field name)).symm

/-- A put that discards the fields stored keeps none of their numbers. -/
theorem not_keepsUnmentioned_of_discards {r : Request} (hdb : c.dbOk = true)
    (h : Discards w key r) : ¬KeepsUnmentioned c w key r := by
  obtain ⟨body, x, v, found, rfl, hload, hkey, hvalue, hkeys, hfound, name, p, z, hz, hstored⟩ := h
  intro hkeeps
  obtain ⟨xv, hxv, hv⟩ := of_bind_ok hvalue
  have hnone : v.field? name = none := keys_eq_nil_iff.mp hkeys name
  have hmentions : ¬Mentions (.put body) key name := by
    rintro ⟨body', x', xv', hupdates, hload', -, hxv', hchild⟩
    rcases hupdates with h | h
    · cases h
      rw [hload] at hload'
      cases hload'
      rw [hxv] at hxv'
      cases hxv'
      rw [isSome_field?_ofRValue hv, hnone] at hchild
      cases hchild
    · cases h
  have hafter : (step c noFaults w (.put body)).node.db.find? key =
      some (dump (mergedValue (some found) v)) := step_put hdb hload hkey hvalue hfound
  rw [mergedValue, if_pos hkeys] at hafter
  have hint := (storedInteger_dump hafter).mp (hkeeps name p z hz hmentions hstored)
  obtain ⟨e, he, -⟩ := (integerAt_field (WValue.distinct_ofRValue hv)).mp hint
  rw [hnone] at he
  cases he

/-- A put on a printed value keeps the numbers of the fields that it does not put. -/
theorem put_keepsInteger {body name : Bytes} {x : RValue} {u v : WValue} {p : List PathStep}
    {z : ℤ} (hw : w.node.db.find? key = some (dump u)) (hload : load body = some x)
    (hkey : pairKey x = .ok key) (hvalue : insertedValue (some (dump u)) x = .ok v)
    (hint : (reread u).IntegerAt (.field name :: p) z) (hz : z.natAbs < 2 ^ 53)
    (hmentions : ¬Mentions (.put body) key name) (hdiscards : ¬Discards w key (.put body)) :
    (reread v).IntegerAt (.field name :: p) z := by
  obtain ⟨put, existing, hput, hexisting, rfl⟩ := of_insertedValue hvalue
  obtain ⟨xv, hxv, hv⟩ := of_bind_ok hput
  have hkeys : put.keys ≠ [] := by
    intro hkeys
    refine hdiscards ⟨body, x, put, existing, rfl, hload, hkey, hput, hkeys, ?_, name, p, z, hz,
      (storedInteger_dump hw).mpr hint⟩
    rw [hw, Option.map_some, hexisting]
  have hname : put.field? name = none := by
    rw [← Option.not_isSome_iff_eq_none, ← isSome_field?_ofRValue hv]
    exact fun hchild => hmentions ⟨body, x, xv, Or.inl rfl, hload, hkey, hxv, hchild⟩
  have hread : WValue.ofRValue (reread u) = .ok existing := by
    rw [loadValue, load_dump] at hexisting
    exact hexisting
  rw [mergedValue, if_neg hkeys]
  exact integerAt_mergeFields hread hname hint hz (tenDigits_of_reread hint)

/-- On a printed value, an update keeps what it does not mention, unless it discards it. -/
theorem keepsUnmentioned_iff {r : Request} {body : Bytes} (hdb : c.dbOk = true)
    (hr : r.Updates body) (hw : Printed w.node key) :
    KeepsUnmentioned c w key r ↔ ¬Discards w key r := by
  refine ⟨fun hkeeps h => not_keepsUnmentioned_of_discards hdb h hkeeps, ?_⟩
  obtain ⟨u, hu⟩ := hw
  intro hdiscards name p z hz hmentions hstored
  have hint := (storedInteger_dump hu).mp hstored
  have hother : ∀ key' v, key ≠ key' → StoredInteger
      { w with node := w.node.stored c key' (dump v) } key (.field name :: p) z := by
    intro key' v hne
    obtain ⟨text, y, htext, hy⟩ := hstored
    exact ⟨text, y, (stored_find?_of_ne hne).trans htext, hy⟩
  refine step_update (J := fun n => StoredInteger { w with node := n } key (.field name :: p) z)
    hr hstored ?_ ?_
  · rintro x key' v rfl hload hkey hvalue
    by_cases hne : key = key'
    · subst hne
      rw [hu] at hvalue
      exact (storedInteger_dump stored_find?_self).mpr
        (put_keepsInteger hu hload hkey hvalue hint hz hmentions hdiscards)
    · exact hother key' v hne
  · rintro x key' text v affected rfl hload hkey hfind hvalue
    by_cases hne : key = key'
    · subst hne
      obtain ⟨xv, hxv, -⟩ := of_bind_ok hvalue
      have hname : xv.child? (.field name) = none := by
        rw [← Option.not_isSome_iff_eq_none]
        exact fun hchild => hmentions ⟨body, x, xv, Or.inr rfl, hload, hkey, hxv, hchild⟩
      rw [hu] at hfind
      cases hfind
      exact (storedInteger_dump stored_find?_self).mpr (integerAt_incrementedValue hxv
        (load_dump u) hvalue hname hint hz (tenDigits_of_reread hint))
    · exact hother key' v hne

/-! ## Any number of updates -/

/-- Updates leave a printed text under the key. -/
theorem serveAll_printed {rs : List Request} (hrs : ∀ r ∈ rs, ∃ body, r.Updates body)
    (hw : Printed w.node key) : Printed (serveAll c noFaults w rs).node key := by
  induction rs generalizing w with
  | nil => exact hw
  | cons r rs ih =>
    obtain ⟨body, hr⟩ := hrs r List.mem_cons_self
    exact ih (fun r' hr' => hrs r' (List.mem_cons_of_mem r hr')) (step_printed hr hw)

/-- The whole numbers of a put survive it and every later update exactly if ten significant
digits are enough for each of them, and no later put discards numbers that are stored. -/
theorem integers_survive {body : Bytes} {x xv : RValue} {found : Option WValue} {v : WValue}
    {rs : List Request} (hdb : c.dbOk = true) (hbody : load body = some x)
    (hkey : pairKey x = .ok key) (hxv : x.field (ascii "value") = .ok xv)
    (hv : WValue.ofRValue xv = .ok v)
    (hfound : (w.node.db.find? key).map loadValue = found.map Except.ok)
    (hintegers : AllIntegers xv) (hrs : ∀ r ∈ rs, ∃ body, r.Updates body) :
    IntegersSurvive c w body key xv rs ↔
      (∀ p z, xv.IntegerAt p z → TenDigits z) ∧ ∀ before r after, rs = before ++ r :: after →
        ¬Discards (serveAll c noFaults (step c noFaults w (.put body)) before) key r := by
  have hvalue : pairValue x = .ok v := by
    rw [pairValue, hxv]
    exact hv
  have hput : (step c noFaults w (.put body)).node.db.find? key =
      some (dump (mergedValue found v)) := step_put hdb hbody hkey hvalue hfound
  refine and_congr ?_ ?_
  · constructor
    · intro hstored p z hint
      exact tenDigits_of_reread ((storedInteger_dump hput).mp (hstored p z hint))
    · intro hten p z hint
      have hz : z.natAbs < 2 ^ 53 := by
        obtain ⟨token, htoken, hvalue⟩ := hint
        obtain ⟨z', hz', hvalue'⟩ := hintegers p token htoken
        rw [hvalue] at hvalue'
        have hzz : z = z' := by exact_mod_cast Option.some.inj hvalue'
        rwa [hzz]
      exact (storedInteger_dump hput).mpr (integerAt_mergedValue hv hint hz (hten p z hint))
  · refine forall_congr' fun before => forall_congr' fun r => forall_congr' fun after =>
      imp_congr_right fun hsplit => ?_
    subst hsplit
    obtain ⟨body', hr⟩ := hrs r (List.mem_append_right _ List.mem_cons_self)
    exact keepsUnmentioned_iff hdb hr
      (serveAll_printed (fun r' hr' => hrs r' (List.mem_append_left _ hr')) ⟨_, hput⟩)

end

end

/-! ## A time in seconds and one in milliseconds -/

/-- The body that puts an object with one number. -/
def numberBody (token : Bytes) : Bytes :=
  ascii "\x7b\"key\":\"k\",\"value\":\x7b\"a\":" ++ token ++ ascii "\x7d\x7d"

/-- The value that this body puts. -/
def numberField (token : Bytes) : RValue := .object [(ascii "a", .number token)]

/-- The store holds nothing. -/
def holdsNothing : World := openDB uncachedOnly OrderedMap.empty

/-- The object has one number, under its field. -/
theorem of_at?_numberField {token token' : Bytes} {p : List PathStep}
    (h : (numberField token).at? p = some (.number token')) :
    p = [.field (ascii "a")] ∧ token' = token := by
  cases p with
  | nil => cases h
  | cons s p =>
    obtain ⟨y, hy, hat⟩ := Option.bind_eq_some_iff.mp h
    cases s with
    | element i => cases hy
    | field name =>
      rw [numberField, RValue.child?, lookup_cons_eq, List.lookup_nil] at hy
      split at hy
      · next hname =>
        cases hy
        cases p with
        | nil =>
          cases hat
          exact ⟨by rw [hname], rfl⟩
        | cons s p => cases s <;> cases hat
      · cases hy

theorem tokenValue_of_integerAt {token : Bytes} {p : List PathStep} {z : ℤ}
    (h : (numberField token).IntegerAt p z) : tokenValue token = some (z : ℚ) := by
  obtain ⟨token', htoken, hz⟩ := h
  obtain ⟨-, rfl⟩ := of_at?_numberField htoken
  exact hz

theorem ofRValue_numberField {token : Bytes} {d : Double} (h : lexicalCastDouble token = some d) :
    WValue.ofRValue (numberField token) = .ok (.object [(ascii "a", .number d)]) := by
  have hnumber : WValue.ofRValue (.number token) = .ok (.number d) := by
    rw [WValue.ofRValue, h]
  have hfields : WValue.ofFields [(ascii "a", .number token)] =
      .ok [(ascii "a", .number d)] := by
    rw [WValue.ofFields, hnumber]
    rfl
  rw [numberField, WValue.ofRValue, hfields]
  rfl

/-- A time in seconds survives, also an update of another field. -/
theorem integers_survive_seconds : @IntegersSurvive .insertion uncachedOnly holdsNothing
    (numberBody (ascii "1700000000")) (ascii "k") (numberField (ascii "1700000000"))
    [.incrementValue (ascii "\x7b\"key\":\"k\",\"value\":\x7b\"b\":1\x7d\x7d")] := by
  have hvalue : tokenValue (ascii "1700000000") = some ((1700000000 : ℤ) : ℚ) := by
    rw [tokenValue_of_parts (n := 1700000000) (e := 0) (by decide +kernel)]
    norm_num
  refine (@integers_survive .insertion uncachedOnly holdsNothing (ascii "k")
    (numberBody (ascii "1700000000"))
    (.object [(ascii "key", .string (ascii "k")),
      (ascii "value", numberField (ascii "1700000000"))])
    (numberField (ascii "1700000000")) none _ _ rfl (by cbv) rfl rfl
    (ofRValue_numberField (d := ⟨false, 7130316800000000, -22⟩) (by decide +kernel))
    rfl ?_ ?_).mpr ⟨?_, ?_⟩
  · intro p token htoken
    obtain ⟨-, rfl⟩ := of_at?_numberField htoken
    exact ⟨1700000000, by decide, hvalue⟩
  · intro r hr
    exact ⟨_, Or.inr (List.mem_singleton.mp hr)⟩
  · intro p z hint
    have hz := hvalue.symm.trans (tokenValue_of_integerAt hint)
    have hz' : z = 1700000000 := by exact_mod_cast (Option.some.inj hz).symm
    exact ⟨1700000000, 0, by decide, by rw [hz']; rfl⟩
  · rintro before r after hsplit ⟨body, x, v, found, rfl, -⟩
    have hmem : Request.put body ∈ before ++ Request.put body :: after :=
      List.mem_append_right _ List.mem_cons_self
    rw [← hsplit] at hmem
    cases List.mem_singleton.mp hmem

/-- A time in milliseconds does not survive the put. -/
theorem not_integersSurvive_milliseconds : ¬@IntegersSurvive .insertion uncachedOnly holdsNothing
    (numberBody (ascii "1700000000123")) (ascii "k") (numberField (ascii "1700000000123")) [] := by
  rintro ⟨hput, -⟩
  have hvalue : tokenValue (ascii "1700000000123") = some ((1700000000123 : ℤ) : ℚ) := by
    rw [tokenValue_of_parts (n := 1700000000123) (e := 0) (by decide +kernel)]
    norm_num
  have hprinted : tokenValue (ascii "1.7e+12") = some (17 * 10 ^ 11) :=
    tokenValue_of_parts (n := 17) (e := 11) (by decide +kernel)
  obtain ⟨text, x, htext, hload, hint⟩ := hput [.field (ascii "a")] 1700000000123
    ⟨ascii "1700000000123", rfl, hvalue⟩
  have hstored : (@step .insertion uncachedOnly noFaults holdsNothing
      (.put (numberBody (ascii "1700000000123")))).node.db.find? (ascii "k") =
      some (ascii "\x7b\"a\":1.7e+12\x7d") := by decide +kernel
  rw [hstored] at htext
  cases htext
  have hread : load (ascii "\x7b\"a\":1.7e+12\x7d") = some (numberField (ascii "1.7e+12")) := by
    cbv
  rw [hread] at hload
  cases hload
  have hz := hprinted.symm.trans (tokenValue_of_integerAt hint)
  norm_num at hz

end Quarks
