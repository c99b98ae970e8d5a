import Quarks.ReadModifyWrite
import Quarks.MergedPuts
import Quarks.CacheCoherence

/-!
# Concurrent puts and posts

`put` merges its fields into the object that it has read, and `post` stores a value if
it has found none. Neither holds a mutex: a request that reads while another one is
about to write loses that one's fields, or stores a second value. Where this does not
happen, no field is lost and one post at most succeeds.
-/

namespace Quarks

open Basis

/-- The text that `insert` stores for a pair, given the text found under its key. -/
def insertedText [HashOrder] (failIfExists : Bool) (x : RValue) (found : Option Bytes) :
    Option Bytes :=
  if failIfExists && found.isSome then none else (insertedValue found x).toOption.map dump

/-- The request has reported success. -/
def ReportsTrue (r : Except Failure (Bool × Bytes)) : Prop := ∃ out, r = .ok (true, out)

section

variable [HashOrder] {c : Config} {body key : Bytes} {x : RValue}

/-- `insert` reads the key and then writes it, and reports success exactly if it has
written. -/
theorem insert_readsThenWrites (hdb : c.dbOk = true) (failIfExists : Bool)
    (hx : load body = some x) (hkey : pairKey x = .ok key) :
    ReadsThenWrites key (insertedText failIfExists x) (fun _ => ReportsTrue)
      (fun r => ¬ReportsTrue r) (insert c failIfExists body) := by
  have hskip : ∀ {r : Except Failure (Bool × Bytes)}, (∀ out, r ≠ .ok (true, out)) →
      ¬ReportsTrue r := fun hr ⟨out, h⟩ => hr out h
  unfold insert insertKeyValuePair getKeyValuePair
  rw [hx]
  simp only [hkey, hdb, if_true]
  refine ⟨_, rfl, fun found => ?_⟩
  -- what follows the test whether the key exists
  have hwrite : WritesOrSkips key ((insertedValue found x).toOption.map dump) ReportsTrue
      (fun r => ¬ReportsTrue r) (do
        let w ← ofExcept (insertedValue found x)
        if ← commitPut c key (dump w) then
          return (true, ascii "\x7b\"result\":true\x7d")
        return (false,
          ascii "\x7b\"result\":false,\"error\":\"data failed to save\"\x7d")) := by
    cases hw : insertedValue found x with
    | error e => exact hskip nofun
    | ok w =>
      obtain ⟨next, heq, hnext⟩ := commitPut_writes c key (dump w)
      change WritesOrSkips key (some (dump w)) _ _ (commitPut c key (dump w) >>= _)
      rw [heq]
      refine ⟨_, rfl, hnext.bind (fun ok h => ?_) fun e he => by cases he⟩
      cases h
      exact ⟨_, rfl⟩
  cases found with
  | none => cases failIfExists <;> exact hwrite
  | some value =>
    cases failIfExists with
    | false => exact hwrite
    | true => exact hskip nofun

end

section

variable {ι : Type}

/-- The request has ended and has reported success. -/
def Reports (p : Requests ι (Bool × Bytes)) (i : ι) : Prop :=
  ∃ r, (p.progs i).outcome = some r ∧ ReportsTrue r

/-! ## Posts -/

/-- Of the posts that are being served one at most has reported success, none if the key
was there before, and what it has posted is what the key holds. If all have ended and
none has reported success, the key holds what it held. -/
structure PostedOnce [HashOrder] (key : Bytes) (x : ι → RValue) (found : Option Bytes)
    (p : Requests ι (Bool × Bytes)) : Prop where
  unique : ∀ i j, Reports p i → Reports p j → i = j
  absent : ∀ i, Reports p i → found = none
  value : ∀ i, Reports p i →
    ∃ w, pairValue (x i) = .ok w ∧ p.state.1.node.db.find? key = some (dump w)
  kept : (∀ i, (p.progs i).outcome.isSome = true) → (∀ i, ¬Reports p i) →
    p.state.1.node.db.find? key = found

variable [HashOrder] {c : Config} {key : Bytes} {x : ι → RValue} {found : Option Bytes}

/-- A post stores the value of its body, and only if it has found nothing. -/
theorem insertedText_post (x : RValue) (found : Option Bytes) : insertedText true x found =
    if found.isSome then none else (pairValue x).toOption.map dump := by
  cases found with
  | none => cases hx : pairValue x <;> simp [insertedText, insertedValue, hx]
  | some value => rfl

/-- Posts that are served one after the other: the first one that can be stored is, and
no other. -/
theorem Writes.post {db : Store} {order : List ι}
    (h : Writes key (fun i => insertedText true (x i)) found db order) :
    order = [] ∨ ∃ i w, order = [i] ∧ found = none ∧ pairValue (x i) = .ok w ∧
      db.find? key = some (dump w) := by
  rcases order with _ | ⟨i, rest⟩
  · exact Or.inl rfl
  right
  have hfirst := h.wrote [] i (List.prefix_append [i] rest)
  simp only [valueAfter, List.foldl_nil, insertedText_post] at hfirst
  cases hfound : found with
  | some value =>
    rw [hfound] at hfirst
    cases hfirst
  | none =>
    cases hvalue : pairValue (x i) with
    | error e =>
      rw [hfound, hvalue] at hfirst
      cases hfirst
    | ok w =>
      have hafter : valueAfter (fun i => insertedText true (x i)) found [i] = some (dump w) := by
        simp [valueAfter, insertedText_post, hfound, hvalue, Except.toOption]
      cases rest with
      | nil => exact ⟨i, w, rfl, rfl, hvalue, h.value.trans hafter⟩
      | cons j rest =>
        have hsecond := h.wrote [i] j ⟨rest, by simp⟩
        rw [hafter, insertedText_post] at hsecond
        cases hsecond

/-- If no post reads the key while another one is about to store it, then at any time at
most one post has succeeded, and only on a key that was absent. -/
theorem posts_insert_once [DecidableEq ι] {w : World} {body : ι → Bytes} (hdb : c.dbOk = true)
    (hx : ∀ i, load (body i) = some (x i)) (hkey : ∀ i, pairKey (x i) = .ok key)
    {schedule : List ι}
    (halone : EachTurnMeets noFaults ReadsAlone (arrived w fun i => post c (body i)) schedule)
    {done : List ι} (hdone : done <+: schedule) :
    PostedOnce key x (w.node.db.find? key)
      (interleave noFaults (arrived w fun i => post c (body i)) done) := by
  obtain ⟨order, hwrites, hended⟩ := interleave_writes
    (fun i => insert_readsThenWrites hdb true (hx i) (hkey i)) halone hdone
  have hmem : ∀ i, Reports (interleave noFaults (arrived w fun i => post c (body i)) done) i →
      i ∈ order := by
    rintro i ⟨r, hr, htrue⟩
    rcases hended i r hr with ⟨before, hbefore, -⟩ | ⟨-, hskipped⟩
    · exact hbefore.subset (by simp)
    · exact absurd htrue hskipped
  rcases hwrites.post with rfl | ⟨k, v, rfl, hfound, hvalue, hdb⟩
  · refine ⟨fun i j hi => ?_, fun i hi => ?_, fun i hi => ?_, fun _ _ => hwrites.value⟩
    all_goals exact absurd (hmem i hi) List.not_mem_nil
  · have hall : ∀ i, Reports (interleave noFaults (arrived w fun i => post c (body i)) done) i →
        i = k := fun i hi => List.mem_singleton.mp (hmem i hi)
    refine ⟨fun i j hi hj => (hall i hi).trans (hall j hj).symm, fun _ _ => hfound, fun i hi => ?_,
      fun hends hnone => ?_⟩
    · rw [hall i hi]
      exact ⟨v, hvalue, hdb⟩
    · obtain ⟨r, hr⟩ := Option.isSome_iff_exists.mp (hends k)
      rcases hended k r hr with ⟨before, -, htrue⟩ | ⟨hnot, -⟩
      · exact absurd ⟨r, hr, htrue⟩ (hnone k)
      · exact absurd List.mem_cons_self hnot

end

/-- Two values for one key. -/
def twoBodies (i : Bool) : Bytes :=
  ascii (if i then "\x7b\"key\":\"k\",\"value\":1\x7d" else "\x7b\"key\":\"k\",\"value\":2\x7d")

/-- Two posts under one key to an empty database. -/
def twoPosts (schedule : List Bool) : Requests Bool (Bool × Bytes) :=
  interleave noFaults (arrived (openDB uncachedOnly OrderedMap.empty) fun i =>
    @post .insertion uncachedOnly (twoBodies i)) schedule

/-- The parsed bodies. -/
def twoPairs (i : Bool) : RValue := (load (twoBodies i)).getD .null

theorem load_twoBodies (i : Bool) : load (twoBodies i) = some (twoPairs i) := by
  have hsome : (load (twoBodies i)).isSome = true := by cases i <;> decide +kernel
  obtain ⟨x, hx⟩ := Option.isSome_iff_exists.mp hsome
  simp [twoPairs, hx]

/-- The theorem at the two posts, the second of which comes after the first. -/
theorem posts_insert_once_two :
    @PostedOnce Bool .insertion (ascii "k") twoPairs none
      (twoPosts [true, true, false, false]) :=
  @posts_insert_once Bool .insertion uncachedOnly (ascii "k") twoPairs _
    (openDB uncachedOnly OrderedMap.empty) twoBodies rfl load_twoBodies
    (fun i => by cases i <;> decide +kernel) [true, true, false, false] (by decide +kernel) _
    (List.prefix_refl _)

/-- If both read before either writes, both report success. -/
theorem not_postedOnce_two :
    ¬@PostedOnce Bool .insertion (ascii "k") twoPairs none
      (twoPosts [true, false, true, false]) := by
  have hboth : ∀ i, ((twoPosts [true, false, true, false]).progs i).outcome =
      some (.ok (true, ascii "\x7b\"result\":true\x7d")) := by
    decide +kernel
  intro h
  cases @PostedOnce.unique Bool .insertion _ _ _ _ h true false ⟨_, hboth true, _, rfl⟩
    ⟨_, hboth false, _, rfl⟩

/-! ## Puts -/

/-- A value that is printed, loaded and converted again, any number of times. -/
inductive Reprinted [HashOrder] (v : WValue) : WValue → Prop
  | refl : Reprinted v v
  | step {w w' : WValue} (h : Reprinted v w) (hw : WValue.ofRValue (reread w) = .ok w') :
      Reprinted v w'

/-- A field of an object, as it was put or printed and read again since. -/
def HasField [HashOrder] (w : WValue) (name : Bytes) (v : RValue) : Prop :=
  ∃ u u', WValue.ofRValue v = .ok u ∧ Reprinted u u' ∧ w.field? name = some u'

section

variable [HashOrder]

/-- What a put stores: the object put into the key, merged into the value found there. -/
theorem insertedValue_object {found : Option Bytes} {x : RValue} {w : WValue}
    {fields : List (Bytes × RValue)} (h : insertedValue found x = .ok w)
    (hfields : x.field (ascii "value") = .ok (.object fields)) (hne : fields ≠ []) :
    ∃ p, WValue.ofRValue (.object fields) = .ok p ∧
      (found = none ∧ w = p ∨ ∃ text y e, found = some text ∧ load text = some y ∧
        WValue.ofRValue y = .ok e ∧ w = mergeFields e p) := by
  have hpair : pairValue x = WValue.ofRValue (.object fields) := by rw [pairValue, hfields]; rfl
  rw [insertedValue, hpair] at h
  cases hp : WValue.ofRValue (.object fields) with
  | error f =>
    rw [hp] at h
    cases h
  | ok p =>
    rw [hp] at h
    have hkeys : p.keys ≠ [] := WValue.keys_ne_nil_of_ofRValue hp hne
    refine ⟨p, rfl, ?_⟩
    cases found with
    | none =>
      cases h
      exact Or.inl ⟨rfl, rfl⟩
    | some text =>
      right
      cases hy : load text with
      | none => simp [hy, checked, bind, Except.bind] at h
      | some y =>
        cases he : WValue.ofRValue y with
        | error f => simp [hy, he, checked, bind, Except.bind] at h
        | ok e =>
          refine ⟨text, y, e, rfl, hy, he, ?_⟩
          simpa [hy, he, checked, bind, Except.bind, hkeys, pure, Except.pure, eq_comm] using h

/-- A field of an object is there again after the object has been printed and loaded. -/
theorem HasField.reread {w e : WValue} {name : Bytes} {v : RValue} (h : HasField w name v)
    (hw : w.Distinct) (he : WValue.ofRValue (reread w) = .ok e) : HasField e name v := by
  obtain ⟨u, u', hu, hreprinted, hfield⟩ := h
  obtain ⟨u'', hu'', hfield'⟩ := field?_of_reread hw he hfield
  exact ⟨u, u'', hu, hreprinted.step hu'', hfield'⟩

/-- An object that is put has the fields that are put. -/
theorem hasField_put {fields : List (Bytes × RValue)} {p : WValue} {name : Bytes} {v : RValue}
    (hp : WValue.ofRValue (.object fields) = .ok p) (hv : fields.lookup name = some v) :
    HasField p name v := by
  obtain ⟨fs, hfs, -⟩ := WValue.ofRValue_object hp
  obtain ⟨u, hu⟩ := WValue.ofFields_ok hfs hv
  refine ⟨u, u, hu, .refl, ?_⟩
  rw [WValue.field?_ofRValue hp, hv, Option.bind_some, hu]
  rfl

section

variable {ι : Type} {c : Config} {key : Bytes} {x : ι → RValue}
  {fields : ι → List (Bytes × RValue)}

/-- The text, if some of the puts have been served, is that of an object with all the
fields they have put. -/
def HoldsFields (fields : ι → List (Bytes × RValue)) (order : List ι) (text : Option Bytes) :
    Prop :=
  order ≠ [] → ∃ w, text = some (dump w) ∧ w.Distinct ∧
    ∀ i ∈ order, ∀ name v, (fields i).lookup name = some v → HasField w name v

/-- One more put keeps the fields of those before it, if it puts none of these fields. -/
theorem HoldsFields.concat {order : List ι} {found : Option Bytes} {i : ι} {text : Bytes}
    (h : HoldsFields fields order found) (hi : i ∉ order)
    (hx : (x i).field (ascii "value") = .ok (.object (fields i))) (hne : fields i ≠ [])
    (hdisjoint : ∀ j, j ≠ i → ∀ name, ((fields j).lookup name).isSome = true →
      (fields i).lookup name = none)
    (htext : insertedText false (x i) found = some text) :
    HoldsFields fields (order ++ [i]) (some text) := by
  intro _
  cases hw : insertedValue found (x i) with
  | error e =>
    rw [insertedText, hw] at htext
    cases htext
  | ok w =>
    rw [insertedText, hw] at htext
    cases htext
    obtain ⟨p, hp, ⟨hfound, rfl⟩ | ⟨old, y, e, hfound, hy, he, rfl⟩⟩ :=
      insertedValue_object hw hx hne
    · -- the first put of all
      have horder : order = [] := by
        by_contra hne
        obtain ⟨w', hw', -⟩ := h hne
        rw [hfound] at hw'
        cases hw'
      refine ⟨w, rfl, WValue.distinct_ofRValue hp, fun j hj name v hv => ?_⟩
      rw [horder, List.nil_append, List.mem_singleton] at hj
      subst hj
      exact hasField_put hp hv
    · refine ⟨mergeFields e p, rfl, distinct_mergeFields e p, fun j hj name v hv => ?_⟩
      have hmerge := field?_mergeFields e p name
      rcases List.mem_append.mp hj with hj | hj
      · obtain ⟨w', hw', hdistinct, hold⟩ := h (List.ne_nil_of_mem hj)
        rw [hfound] at hw'
        cases hw'
        rw [load_dump] at hy
        cases hy
        have hji : j ≠ i := fun hji => hi (hji ▸ hj)
        have hnone := hdisjoint j hji name (by rw [hv]; rfl)
        obtain ⟨u, u', hu, hreprinted, hfield⟩ := (hold j hj name v hv).reread hdistinct he
        refine ⟨u, u', hu, hreprinted, ?_⟩
        rw [hmerge, WValue.field?_ofRValue hp, hnone, Option.bind_none, Option.none_or, hfield]
      · rw [List.mem_singleton] at hj
        subst hj
        obtain ⟨u, u', hu, hreprinted, hfield⟩ := hasField_put hp hv
        exact ⟨u, u', hu, hreprinted, by rw [hmerge, hfield, Option.some_or]⟩

/-- Puts that are served one after the other keep each other's fields. -/
theorem Writes.put {db : Store} {order : List ι} {found : Option Bytes}
    (h : Writes key (fun i => insertedText false (x i)) found db order)
    (hx : ∀ i, (x i).field (ascii "value") = .ok (.object (fields i))) (hne : ∀ i, fields i ≠ [])
    (hdisjoint : ∀ i j, j ≠ i → ∀ name, ((fields j).lookup name).isSome = true →
      (fields i).lookup name = none) :
    HoldsFields fields order (db.find? key) := by
  obtain ⟨hnodup, hvalue, hwrote⟩ := h
  rw [hvalue]
  clear hvalue
  induction order using List.reverseRecOn with
  | nil => exact fun hne => absurd rfl hne
  | append_singleton order i ih =>
    have hi : i ∉ order := fun hmem => List.disjoint_of_nodup_append hnodup hmem (by simp)
    have horder := ih hnodup.of_append_left fun done j hdone =>
      hwrote done j (hdone.trans (List.prefix_append _ _))
    obtain ⟨text, htext⟩ := Option.isSome_iff_exists.mp (hwrote order i (List.prefix_refl _))
    rw [valueAfter_append, htext]
    exact horder.concat hi (hx i) (hne i) (hdisjoint i) htext

/-- What holds of puts that are being served: the key holds an object with every field
that one of those that have reported success has put. -/
def PutsKept (key : Bytes) (fields : ι → List (Bytes × RValue)) (p : Requests ι (Bool × Bytes)) :
    Prop :=
  ∀ i, Reports p i → ∃ text y, p.state.1.node.db.find? key = some text ∧ load text = some y ∧
    ∀ name v, (fields i).lookup name = some v →
      ∃ u u', WValue.ofRValue v = .ok u ∧ Reprinted u u' ∧ y.field name = .ok (reread u')

/-- If no put reads the key while another one is about to write it, no field of a put
that has reported success is lost to the others, which put other fields. -/
theorem puts_keep_fields [DecidableEq ι] {w : World} {body : ι → Bytes} (hdb : c.dbOk = true)
    (hbody : ∀ i, load (body i) = some (x i)) (hkey : ∀ i, pairKey (x i) = .ok key)
    (hx : ∀ i, (x i).field (ascii "value") = .ok (.object (fields i))) (hne : ∀ i, fields i ≠ [])
    (hdisjoint : ∀ i j, j ≠ i → ∀ name, ((fields j).lookup name).isSome = true →
      (fields i).lookup name = none)
    {schedule : List ι}
    (halone : EachTurnMeets noFaults ReadsAlone (arrived w fun i => put c (body i)) schedule)
    {done : List ι} (hdone : done <+: schedule) :
    PutsKept key fields (interleave noFaults (arrived w fun i => put c (body i)) done) := by
  obtain ⟨order, hwrites, hended⟩ := interleave_writes
    (fun i => insert_readsThenWrites hdb false (hbody i) (hkey i)) halone hdone
  rintro i ⟨r, hr, htrue⟩
  rcases hended i r hr with ⟨before, hbefore, -⟩ | ⟨-, hskipped⟩
  · have hi : i ∈ order := hbefore.subset (by simp)
    obtain ⟨w', hw', hdistinct, hall⟩ := hwrites.put hx hne hdisjoint (List.ne_nil_of_mem hi)
    refine ⟨dump w', reread w', hw', load_dump w', fun name v hv => ?_⟩
    obtain ⟨u, u', hu, hreprinted, hfield⟩ := hall i hi name v hv
    exact ⟨u, u', hu, hreprinted, field_reread hdistinct hfield⟩
  · exact absurd htrue hskipped

end

end

/-- The fields of two puts. -/
def twoFields (i : Bool) : List (Bytes × RValue) := [(ascii (if i then "a" else "b"), .bool true)]

/-- The bodies of two puts under one key, `{"key":"k","value":{"a":true}}` and the
same with another name. -/
def twoPutBodies (i : Bool) : Bytes :=
  @dump .insertion (.object [(ascii "key", .string (ascii "k")),
    (ascii "value", .object [(ascii (if i then "a" else "b"), .bool true)])])

/-- Two puts under a key that holds an empty object. -/
def twoPuts (schedule : List Bool) : Requests Bool (Bool × Bytes) :=
  interleave noFaults (arrived
    (openDB uncachedOnly (OrderedMap.empty.insert (ascii "k") (ascii "\x7b\x7d"))) fun i =>
      @put .insertion uncachedOnly (twoPutBodies i)) schedule

/-- The theorem at the two puts, the second of which comes after the first. -/
theorem puts_keep_fields_two :
    @PutsKept .insertion Bool (ascii "k") twoFields (twoPuts [true, true, false, false]) := by
  have hbody : ∀ i, load (twoPutBodies i) = _ := fun i => @load_dump .insertion _
  refine @puts_keep_fields .insertion Bool uncachedOnly (ascii "k") _ twoFields _ _ twoPutBodies rfl
    hbody (fun i => by cases i <;> rfl) (fun i => by cases i <;> rfl) (fun i => by simp [twoFields])
    (fun i j hji name hname => ?_) [true, true, false, false] (by decide +kernel) _
    (List.prefix_refl _)
  have hmem : name ∈ (twoFields j).map Prod.fst := isSome_lookup.mp hname
  have hnot : name ∉ (twoFields i).map Prod.fst := by
    rw [List.mem_singleton.mp hmem]
    cases i <;> cases j <;> first | exact absurd rfl hji | decide +kernel
  rw [← isSome_lookup, Option.not_isSome_iff_eq_none] at hnot
  exact hnot

/-- If both read before either writes, the field of the first one is lost. -/
theorem not_putsKept_two :
    ¬@PutsKept .insertion Bool (ascii "k") twoFields (twoPuts [true, false, true, false]) := by
  have hreports : ((twoPuts [true, false, true, false]).progs true).outcome =
      some (.ok (true, ascii "\x7b\"result\":true\x7d")) := by
    decide +kernel
  have hdb : (twoPuts [true, false, true, false]).state.1.node.db.find? (ascii "k") =
      some (ascii "\x7b\"b\":true\x7d") := by
    decide +kernel
  have hlost : ((load (ascii "\x7b\"b\":true\x7d")).bind fun y =>
      (y.field (ascii "a")).toOption).isSome = false := by
    decide +kernel
  intro h
  obtain ⟨text, y, htext, hy, hfield⟩ := h true ⟨_, hreports, _, rfl⟩
  obtain ⟨u, u', -, -, hu⟩ := hfield (ascii "a") (.bool true) rfl
  rw [hdb] at htext
  cases htext
  rw [hy, Option.bind_some, hu] at hlost
  cases hlost

end Quarks
