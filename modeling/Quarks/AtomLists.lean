import Quarks.DatabaseEffect

/-!
# Lists of operations

`removeAtom` and `putAtom` go through the list of their body and apply its elements one
after the other, so that an element that cannot be applied leaves what was applied before
it. `atom` does the first, removes the keys of a pattern, and does the second.
-/

namespace Quarks

open Basis

/-- The operations that the body of an atom asks for. -/
structure Batch where
  removes : List RValue
  pattern : Option Bytes
  puts : List RValue

section

variable [HashOrder]

/-- The elements of a list in the text of a body. -/
def bodyElements (body : Bytes) : Option (List RValue) :=
  (load body).bind fun x => x.elements.toOption

/-- The elements of a field of `atom`, which hands the field on as a text. A field that is
missing is an empty list. -/
def fieldElements (x : RValue) (name : Bytes) : Option (List RValue) :=
  (dumpedField x name).toOption.bind fun body => (body.map bodyElements).getD (some [])

/-- The keys of the pattern of an atom, if it has one. -/
def matchedKeys (db : Store) (pattern : Option Bytes) : List Bytes :=
  (pattern.map (patternKeys db)).getD []

/-- Putting pairs one after the other. -/
def putAll (db : Store) (xs : List RValue) : Except Failure Store := xs.foldlM putPair db

namespace Batch

/-- The database after the removes and the pattern. -/
def afterRemoves (b : Batch) (keys : List Bytes) (db : Store) : Store :=
  (db.eraseAll keys).eraseAll (matchedKeys (db.eraseAll keys) b.pattern)

/-- Applying all operations in their order: the database afterwards, the number of keys
that were removed and the number of pairs that were put. -/
def apply (b : Batch) (db : Store) : Option (Store × ℕ × ℕ) :=
  (b.removes.mapM fun v : RValue => v.s.toOption).bind fun keys =>
    (putAll (b.afterRemoves keys db) b.puts).toOption.map fun db' =>
      (db', db.size - (b.afterRemoves keys db).size, b.puts.length)

end Batch

/-- The part of an answer that reports the removes. -/
def removedText (pattern : Option Bytes) (removed : ℤ) : Bytes :=
  ascii "\x7b\"removed\":" ++ toString removed ++
    if pattern.isSome then ascii "\x7d" else ascii ",\"result\":true\x7d"

/-- The part of an answer that reports the puts. -/
def putText (put : ℤ) : Bytes :=
  ascii "\x7b\"put\":" ++ toString put ++ ascii ",\"result\":true\x7d"

/-- The database after putting pairs up to the first one that raises an exception. -/
def putLeading (db : Store) : List RValue → Store
  | [] => db
  | x :: xs => match putPair db x with
    | .ok db' => putLeading db' xs
    | .error _ => db

/-! ## The lists -/

omit [HashOrder] in
/-- The keys of a list of strings. -/
theorem mapM_s (vs : List RValue) : (vs.mapM fun v => v.s.toOption) =
    if (vs.all fun v => v.s.isOk) = true then some (leadingStrings vs) else none := by
  induction vs with
  | nil => rfl
  | cons v vs ih =>
    rw [List.mapM_cons, ih, List.all_cons, leadingStrings]
    cases hs : v.s with
    | error e => rfl
    | ok key => cases vs.all fun v => v.s.isOk <;> rfl

theorem putAll_cons (db : Store) (x : RValue) (xs : List RValue) :
    putAll db (x :: xs) = (putPair db x).bind fun db => putAll db xs := rfl

/-- If all pairs can be put, none of them ends the puts. -/
theorem putLeading_eq {db db' : Store} {xs : List RValue} (h : putAll db xs = .ok db') :
    putLeading db xs = db' := by
  induction xs generalizing db with
  | nil =>
    cases h
    rfl
  | cons x xs ih =>
    rw [putAll_cons] at h
    obtain ⟨db₁, hx, h⟩ := of_bind_ok h
    rw [putLeading, hx]
    exact ih h

/-! ## What the functions do -/

variable {c : Config}

/-- The loop of `removeAtom` over a list of strings counts the keys that were there. -/
theorem removeKeys_leaves (hdb : c.dbOk = true) {vs : List RValue}
    (hall : (vs.all fun v => v.s.isOk) = true) (i : ℤ) (db : Store) :
    Leaves db (removeKeys c vs i)
      (.ok (i + ((db.size - (db.eraseAll (leadingStrings vs)).size : ℕ) : ℤ)))
      (db.eraseAll (leadingStrings vs)) := by
  induction vs generalizing i db with
  | nil =>
    simp only [leadingStrings, OrderedMap.eraseAll_nil, Nat.sub_self, Nat.cast_zero, add_zero]
    exact Leaves.pure i db
  | cons v vs ih =>
    rw [List.all_cons, Bool.and_eq_true] at hall
    cases hs : v.s with
    | error e =>
      rw [hs] at hall
      cases hall.1
    | ok key =>
      obtain ⟨text, hremove⟩ := remove_leaves hdb key db
      have hrest := ih hall.2 (if key ∈ db then i + 1 else i) (db.erase key)
      have hle := OrderedMap.size_eraseAll_le (db.erase key) (leadingStrings vs)
      have hcount : (if key ∈ db then i + 1 else i) + (((db.erase key).size -
          ((db.erase key).eraseAll (leadingStrings vs)).size : ℕ) : ℤ) =
          i + ((db.size - ((db.erase key).eraseAll (leadingStrings vs)).size : ℕ) : ℤ) := by
        split
        · next hkey =>
          have hsize := OrderedMap.size_erase_add_one hkey
          omega
        · next hkey => rw [OrderedMap.erase_of_not_mem hkey]
      rw [hcount] at hrest
      unfold removeKeys leadingStrings
      rw [hs]
      apply Leaves.bind (Leaves.pure key db)
      apply Leaves.bind hremove
      simpa [OrderedMap.eraseAll_cons] using hrest

/-- The loop of `removeAtom` over another list ends with its first element that is not a
string. -/
theorem removeKeys_leaves_error (hdb : c.dbOk = true) {vs : List RValue}
    (hall : (vs.all fun v => v.s.isOk) = false) (i : ℤ) (db : Store) :
    Leaves db (removeKeys c vs i) (.error (.runtimeError (ascii "value is not string")))
      (db.eraseAll (leadingStrings vs)) := by
  induction vs generalizing i db with
  | nil => cases hall
  | cons v vs ih =>
    unfold removeKeys leadingStrings
    cases hs : v.s with
    | error e =>
      have he : e = .runtimeError (ascii "value is not string") := by
        cases v <;> cases hs <;> rfl
      rw [he]
      exact Leaves.bind_error (Leaves.throw _ db)
    | ok key =>
      have hrest : (vs.all fun v => v.s.isOk) = false := by
        rw [List.all_cons, hs] at hall
        exact hall
      obtain ⟨text, hremove⟩ := remove_leaves hdb key db
      apply Leaves.bind (Leaves.pure key db)
      apply Leaves.bind hremove
      exact ih hrest _ _

/-- The loop of `putAtom` counts the pairs. -/
theorem putPairs_leaves (hdb : c.dbOk = true) {xs : List RValue} {db db' : Store}
    (h : putAll db xs = .ok db') (i : ℤ) :
    Leaves db (putPairs c xs i) (.ok (i + xs.length)) db' := by
  induction xs generalizing db i with
  | nil =>
    obtain rfl : db = db' := Except.ok.inj h
    have hpure : Leaves db (putPairs c [] i) (.ok i) db := Leaves.pure i db
    simpa using hpure
  | cons x xs ih =>
    rw [putAll_cons] at h
    obtain ⟨db₁, hx, h⟩ := of_bind_ok h
    obtain ⟨text, hput⟩ := insertKeyValuePair_leaves hdb hx
    apply Leaves.bind hput
    have hrest := ih h (i + 1)
    rw [show i + 1 + (xs.length : ℤ) = i + ((x :: xs).length : ℤ) by
      rw [List.length_cons]; omega] at hrest
    exact hrest

/-- The loop of `putAtom` ends with the exception of a pair that cannot be put. -/
theorem putPairs_leaves_error (hdb : c.dbOk = true) {xs : List RValue} {db : Store}
    {e : Failure} (h : putAll db xs = .error e) (i : ℤ) :
    Leaves db (putPairs c xs i) (.error e) (putLeading db xs) := by
  induction xs generalizing db i with
  | nil => cases h
  | cons x xs ih =>
    unfold putLeading
    cases hx : putPair db x with
    | error e' =>
      rw [putAll_cons, hx] at h
      cases h
      exact Leaves.bind_error (insertKeyValuePair_leaves_error hdb hx)
    | ok db₁ =>
      rw [putAll_cons, hx] at h
      obtain ⟨text, hput⟩ := insertKeyValuePair_leaves hdb hx
      exact Leaves.bind hput (ih h _)

omit [HashOrder] in
/-- A body with a list is a document that is a container. -/
theorem bodyElements_eq_some {body : Bytes} {vs : List RValue} (h : bodyElements body = some vs) :
    ∃ x, load body = some x ∧ x.elements = .ok vs := by
  obtain ⟨x, hx, h⟩ := Option.bind_eq_some_iff.mp h
  cases hvs : x.elements with
  | error e =>
    rw [hvs] at h
    cases h
  | ok vs' =>
    rw [hvs] at h
    cases h
    exact ⟨x, hx, hvs⟩

omit [HashOrder] in
/-- A body without a list is no document, or one whose use as a list is a runtime error. -/
theorem bodyElements_eq_none {body : Bytes} (h : bodyElements body = none) :
    load body = none ∨ ∃ x e, load body = some x ∧ x.elements = .error e ∧
      e.isRuntimeError = true := by
  unfold bodyElements at h
  cases hx : load body with
  | none => exact Or.inl rfl
  | some x =>
    rw [hx, Option.bind_some] at h
    cases hvs : x.elements with
    | ok vs =>
      rw [hvs] at h
      cases h
    | error e =>
      refine Or.inr ⟨x, e, rfl, hvs, ?_⟩
      cases x <;> cases hvs <;> rfl

omit [HashOrder] in
theorem bodyPairs_eq (body : Bytes) : bodyPairs body = (bodyElements body).getD [] := by
  unfold bodyPairs bodyElements
  cases load body with
  | none => rfl
  | some x => cases hvs : x.elements <;> simp [hvs, Except.toOption]

omit [HashOrder] in
theorem removable_eq (body : Bytes) : removable body =
    ((bodyElements body).map fun vs => vs.all fun v => v.s.isOk).getD false := by
  unfold removable bodyElements
  cases load body with
  | none => rfl
  | some x => cases hvs : x.elements <;> simp [hvs, Except.toOption]

/-- `removeAtom` removes the keys of its list up to the first element that is not a
string, and tells whether there is none. -/
theorem removeAtom_leaves (hdb : c.dbOk = true) (body : Bytes) (db : Store) :
    ∃ text, Leaves db (removeAtom c body) (.ok (removable body, text))
        (db.eraseAll (bodyKeys body)) ∧
      (removable body = true →
        text = removedText none ((db.size - (db.eraseAll (bodyKeys body)).size : ℕ) : ℤ)) := by
  rw [removable_eq, bodyKeys, bodyPairs_eq]
  unfold removeAtom
  cases hbody : bodyElements body with
  | none =>
    rcases bodyElements_eq_none hbody with hx | ⟨x, e, hx, hvs, he⟩
    · rw [hx]
      exact ⟨_, Leaves.pure _ db, nofun⟩
    · rw [hx]
      simp only [removeAtomParsed, hvs]
      exact ⟨_, Leaves.catchRuntime_error (Leaves.bind_error (Leaves.throw e db)) he
        (Leaves.pure _ db), nofun⟩
  | some vs =>
    obtain ⟨x, hx, hvs⟩ := bodyElements_eq_some hbody
    rw [hx]
    simp only [removeAtomParsed, hvs, Option.map_some, Option.getD_some]
    cases hall : vs.all fun v => v.s.isOk with
    | false =>
      exact ⟨_, Leaves.catchRuntime_error (Leaves.bind (Leaves.pure vs db)
        (Leaves.bind_error (removeKeys_leaves_error hdb hall 0 db))) rfl (Leaves.pure _ _), nofun⟩
    | true =>
      have hkeys := removeKeys_leaves hdb hall 0 db
      rw [zero_add] at hkeys
      exact ⟨_, Leaves.catchRuntime (Leaves.bind (Leaves.pure vs db)
        (Leaves.bind hkeys (Leaves.pure _ _))), fun _ => rfl⟩

/-- `putAtom` puts the pairs of its list up to the first one that raises an exception. It
returns true if there is none. -/
theorem putAtom_leaves (hdb : c.dbOk = true) (body : Bytes) (db : Store) :
    ∃ r, Leaves db (putAtom c body) r (putLeading db (bodyPairs body)) ∧
      (∀ xs db', bodyElements body = some xs → putAll db xs = .ok db' →
        r = .ok (true, putText xs.length)) ∧
      ((∀ xs db', bodyElements body = some xs → putAll db xs ≠ .ok db') →
        ∀ out, r ≠ .ok (true, out)) := by
  rw [bodyPairs_eq]
  unfold putAtom
  cases hbody : bodyElements body with
  | none =>
    rcases bodyElements_eq_none hbody with hx | ⟨x, e, hx, hvs, he⟩
    · rw [hx]
      exact ⟨_, Leaves.pure _ db, nofun, nofun⟩
    · rw [hx]
      simp only [putAtomParsed, hvs]
      exact ⟨_, Leaves.catchRuntime_error (Leaves.bind_error (Leaves.throw e db)) he
        (Leaves.pure _ db), nofun, nofun⟩
  | some xs =>
    obtain ⟨x, hx, hvs⟩ := bodyElements_eq_some hbody
    rw [hx]
    simp only [putAtomParsed, hvs, Option.getD_some]
    cases hall : putAll db xs with
    | error e =>
      have hpairs := Leaves.bind (f := fun xs => putPairs c xs 0 >>= fun i => pure (true,
        ascii "\x7b\"put\":" ++ toString i ++ ascii ",\"result\":true\x7d"))
        (Leaves.pure xs db) (Leaves.bind_error (putPairs_leaves_error hdb hall 0))
      have hnone : ∀ xs' db', some xs = some xs' → putAll db xs' = .ok db' → False := by
        rintro xs' db' ⟨⟩ hok
        rw [hall] at hok
        cases hok
      cases he : e.isRuntimeError with
      | true =>
        exact ⟨_, Leaves.catchRuntime_error hpairs he (Leaves.pure _ _),
          fun xs' db' hxs hok => (hnone xs' db' hxs hok).elim, nofun⟩
      | false =>
        exact ⟨_, Leaves.catchRuntime_other hpairs he,
          fun xs' db' hxs hok => (hnone xs' db' hxs hok).elim, nofun⟩
    | ok db' =>
      have hpairs := putPairs_leaves hdb hall 0
      rw [zero_add] at hpairs
      rw [putLeading_eq hall]
      refine ⟨_, Leaves.catchRuntime (Leaves.bind (Leaves.pure xs db)
        (Leaves.bind hpairs (Leaves.pure _ _))), ?_, ?_⟩
      · rintro xs' db'' ⟨⟩ -
        rfl
      · exact fun h => absurd hall (h xs db' rfl)

/-! ## The parts of `atom` -/

theorem atomKeys_eq (x : RValue) :
    atomKeys x = leadingStrings ((fieldElements x (ascii "remove")).getD []) := by
  unfold atomKeys fieldElements
  rcases dumpedField x (ascii "remove") with e | _ | body
  · rfl
  · rfl
  · change bodyKeys body = _
    rw [bodyKeys, bodyPairs_eq]
    rfl

/-- The part that removes a list of keys. -/
theorem atomRemove_leaves (hdb : c.dbOk = true) {x : RValue} {keys : Option Bytes}
    (hkeys : dumpedField x (ascii "remove") = .ok keys) (db : Store) :
    ∃ text, Leaves db (atomRemove c keys) (.ok (keys.all removable, text))
        (db.eraseAll (atomKeys x)) ∧
      (keys.all removable = true →
        text = removedText none ((db.size - (db.eraseAll (atomKeys x)).size : ℕ) : ℤ)) := by
  unfold atomKeys
  rw [hkeys]
  cases keys with
  | none =>
    refine ⟨_, Leaves.pure _ db, fun _ => ?_⟩
    simp only [OrderedMap.eraseAll_nil, Nat.sub_self]
    decide
  | some body => exact removeAtom_leaves hdb body db

/-- The part that removes the keys of a pattern: its count replaces the other one. -/
theorem atomRemoveAll_leaves (hdb : c.dbOk = true) (text : Bytes) (pattern : Option Bytes)
    (db : Store) :
    Leaves db (atomRemoveAll c text pattern)
      (.ok (if pattern.isSome then removedText pattern (int32 (matchedKeys db pattern).length)
        else text)) (db.eraseAll (matchedKeys db pattern)) := by
  cases pattern with
  | none => exact Leaves.pure text db
  | some wild => exact Leaves.bind (removeAll_leaves hdb wild db) (Leaves.pure _ _)

/-- The part that puts. -/
theorem atomPut_leaves (hdb : c.dbOk = true) {x : RValue} {pairs : Option Bytes}
    (hpairs : dumpedField x (ascii "put") = .ok pairs) (db : Store) :
    ∃ r, Leaves db (atomPut c pairs) r
        (putLeading db ((fieldElements x (ascii "put")).getD [])) ∧
      (∀ xs db', fieldElements x (ascii "put") = some xs → putAll db xs = .ok db' →
        r = .ok (true, putText xs.length)) ∧
      ((∀ xs db', fieldElements x (ascii "put") = some xs → putAll db xs ≠ .ok db') →
        ∀ out, r ≠ .ok (true, out)) := by
  unfold fieldElements
  rw [hpairs]
  cases pairs with
  | none =>
    refine ⟨_, Leaves.pure _ db, ?_, fun h => absurd rfl (h [] db rfl)⟩
    rintro xs db' ⟨⟩ -
    decide
  | some body =>
    have hput := putAtom_leaves hdb body db
    rwa [bodyPairs_eq] at hput

/-- The end of `atom`: the puts, if the list of keys could be removed. -/
def atomFinish (c : Config) (x : RValue) (removed : Bool) (removedResult : Bytes) :
    CoreM (Bool × Bytes) := do
  if removed then
    let putBody ← ofExcept (dumpedField x (ascii "put"))
    let put ← atomPut c putBody
    if put.1 then
      return (true, ascii "\x7b\"result\":true,\"affected\":[" ++ removedResult ++ ascii "," ++
        put.2 ++ ascii "]\x7d")
  return (false, ascii "\x7b\"result\":false\x7d")

theorem atom_eq {body : Bytes} {x : RValue} (hx : load body = some x) : atom c body =
    ofExcept (dumpedField x (ascii "remove")) >>= fun keys => atomRemove c keys >>= fun removed =>
      ofExcept (atomPattern x) >>= fun pattern => atomRemoveAll c removed.2 pattern >>= fun text =>
        atomFinish c x removed.1 text := by
  unfold atom
  rw [hx]
  rfl

theorem atomFinish_leaves (hdb : c.dbOk = true) {x : RValue} {xs : List RValue} {db db' : Store}
    (hputs : fieldElements x (ascii "put") = some xs) (h : putAll db xs = .ok db')
    (text : Bytes) : Leaves db (atomFinish c x true text)
      (.ok (true, ascii "\x7b\"result\":true,\"affected\":[" ++ text ++ ascii "," ++
        putText xs.length ++ ascii "]\x7d")) db' := by
  cases hpairs : dumpedField x (ascii "put") with
  | error e =>
    rw [fieldElements, hpairs] at hputs
    cases hputs
  | ok pairs =>
    obtain ⟨r, hput, hok, -⟩ := atomPut_leaves hdb hpairs db
    rw [hok xs db' hputs h, hputs, Option.getD_some, putLeading_eq h] at hput
    unfold atomFinish
    rw [if_pos rfl, hpairs]
    exact Leaves.bind (Leaves.pure pairs db) (Leaves.bind hput (Leaves.pure _ db'))

/-- The puts end with the first pair that cannot be put. -/
theorem atomFinish_stops (hdb : c.dbOk = true) {x : RValue} {db : Store}
    (h : ∀ xs db', fieldElements x (ascii "put") = some xs → putAll db xs ≠ .ok db')
    (text : Bytes) : ∃ r, Leaves db (atomFinish c x true text) r
      (putLeading db ((fieldElements x (ascii "put")).getD [])) ∧ ∀ out, r ≠ .ok (true, out) := by
  unfold atomFinish
  rw [if_pos rfl]
  cases hpairs : dumpedField x (ascii "put") with
  | error e =>
    have hnone : fieldElements x (ascii "put") = none := by
      rw [fieldElements, hpairs]
      rfl
    rw [hnone]
    exact ⟨_, Leaves.bind_error (Leaves.throw e db), nofun⟩
  | ok pairs =>
    obtain ⟨r, hput, -, hfail⟩ := atomPut_leaves hdb hpairs db
    have hr := hfail h
    rcases r with e | ⟨_ | _, out⟩
    · exact ⟨_, Leaves.bind (Leaves.pure pairs db) (Leaves.bind_error hput), nofun⟩
    · exact ⟨_, Leaves.bind (Leaves.pure pairs db) (Leaves.bind hput (Leaves.pure _ _)), nofun⟩
    · exact absurd rfl (hr out)

end

end Quarks
