import Quarks.Core.Remove

/-!
# What a function leaves in the database

As long as no call of RocksDB fails, the outcome of a function that does not read the
cache is a function of the database it finds, and so is the database it leaves. An
exception keeps what has been done before it was raised.
-/

namespace Quarks

open Basis

/-- A program that finds this database has this outcome and leaves that database. -/
def Leaves {α : Type} (db : Store) (p : CoreM α) (r : Except Failure α) (db' : Store) : Prop :=
  ∀ w, w.node.db = db → ∃ w', p.run (handle noFaults) w = (r, w') ∧ w'.node.db = db'

namespace Leaves

variable {α β : Type} {db db' db'' : Store} {p q : CoreM α} {f : α → CoreM β} {a : α}
  {e : Failure} {r : Except Failure β}

theorem pure (a : α) (db : Store) : Leaves db (Pure.pure a) (.ok a) db :=
  fun w hw => ⟨w, rfl, hw⟩

theorem throw (e : Failure) (db : Store) :
    Leaves db (MonadExcept.throw e : CoreM α) (.error e) db := fun w hw => ⟨w, rfl, hw⟩

theorem ofExcept (x : Except Failure α) (db : Store) : Leaves db (Quarks.ofExcept x) x db := by
  cases x with
  | ok a => exact pure a db
  | error e => exact throw e db

/-- The next program finds what the first one has left. -/
theorem bind (hp : Leaves db p (.ok a) db') (hf : Leaves db' (f a) r db'') :
    Leaves db (p >>= f) r db'' := by
  intro w hw
  obtain ⟨w', hrun, hw'⟩ := hp w hw
  rw [Prog.run_bind_ok hrun]
  exact hf w' hw'

/-- After an exception the next program is not run. -/
theorem bind_error (hp : Leaves db p (.error e) db') : Leaves db (p >>= f) (.error e) db' := by
  intro w hw
  obtain ⟨w', hrun, hw'⟩ := hp w hw
  exact ⟨w', Prog.run_bind_error hrun, hw'⟩

theorem catchRuntime (hp : Leaves db p (.ok a) db') :
    Leaves db (Quarks.catchRuntime p q) (.ok a) db' := by
  intro w hw
  obtain ⟨w', hrun, hw'⟩ := hp w hw
  exact ⟨w', by rw [Quarks.catchRuntime, Prog.run_tryCatch, hrun], hw'⟩

/-- The handler of a runtime error finds what has been done before the error. -/
theorem catchRuntime_error {r : Except Failure α} (hp : Leaves db p (.error e) db')
    (he : e.isRuntimeError = true) (hq : Leaves db' q r db'') :
    Leaves db (Quarks.catchRuntime p q) r db'' := by
  intro w hw
  obtain ⟨w', hrun, hw'⟩ := hp w hw
  rw [Quarks.catchRuntime, Prog.run_tryCatch, hrun]
  simp only [he, if_true]
  exact hq w' hw'

/-- Other exceptions are not caught. -/
theorem catchRuntime_other (hp : Leaves db p (.error e) db') (he : e.isRuntimeError = false) :
    Leaves db (Quarks.catchRuntime p q) (.error e) db' := by
  intro w hw
  obtain ⟨w', hrun, hw'⟩ := hp w hw
  refine ⟨w', ?_, hw'⟩
  rw [Quarks.catchRuntime, Prog.run_tryCatch, hrun]
  simp only [he, Bool.false_eq_true, if_false]
  rfl

theorem dbGet (key : Bytes) (db : Store) :
    Leaves db (Quarks.dbGet key) (.ok (db.find? key)) db := by
  intro w hw
  subst hw
  exact ⟨_, rfl, rfl⟩

theorem dbIterate (db : Store) : Leaves db Quarks.dbIterate (.ok db) db := by
  intro w hw
  subst hw
  exact ⟨_, rfl, rfl⟩

end Leaves

section

variable [HashOrder] {c : Config}

theorem commitPut_leaves (c : Config) (key value : Bytes) (db : Store) :
    Leaves db (commitPut c key value) (.ok true) (db.insert key value) := by
  intro w hw
  subst hw
  rcases c with ⟨_, _ | _, _ | _, _ | _⟩ <;> exact ⟨_, rfl, rfl⟩

theorem commitDelete_leaves (c : Config) (key : Bytes) (db : Store) :
    Leaves db (commitDelete c key) (.ok true) (db.erase key) := by
  intro w hw
  subst hw
  rcases c with ⟨_, _, _ | _, _ | _⟩ <;> exact ⟨_, rfl, rfl⟩

theorem removeRequests_leaves (c : Config) (keys : List Bytes) (db : Store) :
    Leaves db (removeRequests c keys) (.ok ()) db := by
  induction keys with
  | nil => exact Leaves.pure () db
  | cons key keys ih =>
    have hfirst : Leaves db (removeRequest c key) (.ok ()) db := by
      intro w hw
      subst hw
      rcases c with ⟨_, _, _ | _, _ | _⟩ <;> exact ⟨_, rfl, rfl⟩
    exact Leaves.bind hfirst ih

theorem commitBatch_leaves (c : Config) (keys : List Bytes) (db : Store) :
    Leaves db (commitBatch c keys) (.ok ()) (db.eraseAll keys) := by
  have hwrite : Leaves db (dbWrite keys) (.ok true) (db.eraseAll keys) := by
    intro w hw
    subst hw
    exact ⟨_, rfl, rfl⟩
  exact Leaves.bind (removeRequests_leaves c keys db) (Leaves.bind hwrite (Leaves.pure () _))

/-! ## Removing -/

/-- `remove` tells whether the key was there. -/
theorem remove_leaves (hdb : c.dbOk = true) (key : Bytes) (db : Store) :
    ∃ text, Leaves db (remove c key) (.ok (decide (key ∈ db), text)) (db.erase key) := by
  unfold remove
  rw [if_pos hdb]
  cases hfind : db.find? key with
  | none =>
    have hkey : key ∉ db := by simp [OrderedMap.mem_iff, hfind]
    rw [decide_eq_false hkey, OrderedMap.erase_of_not_mem hkey]
    refine ⟨ascii "\x7b\"result\":0\x7d", Leaves.bind (Leaves.dbGet key db) ?_⟩
    rw [hfind]
    exact Leaves.pure _ db
  | some value =>
    have hkey : key ∈ db := OrderedMap.mem_iff.mpr ⟨value, hfind⟩
    rw [decide_eq_true hkey]
    refine ⟨ascii "\x7b\"result\":1\x7d", Leaves.bind (Leaves.dbGet key db) ?_⟩
    rw [hfind]
    exact Leaves.bind (commitDelete_leaves c key db) (Leaves.pure _ _)

/-- The keys that `removeAll` removes without a window. -/
def patternKeys (db : Store) (wild : Bytes) : List Bytes :=
  if startsWithStar wild then [] else removedKeys db wild ⟨0, -1⟩

theorem removeAll_leaves (hdb : c.dbOk = true) (wild : Bytes) (db : Store) :
    Leaves db (removeAll c wild ⟨0, -1⟩) (.ok (int32 (patternKeys db wild).length))
      (db.eraseAll (patternKeys db wild)) := by
  unfold removeAll patternKeys
  cases hstar : startsWithStar wild with
  | true =>
    simp only [hdb, Bool.not_true, Bool.and_false, Bool.false_eq_true, if_false, if_true]
    exact Leaves.pure 0 db
  | false =>
    simp only [hdb, Bool.not_false, Bool.and_true, if_true, Bool.false_eq_true, if_false]
    exact Leaves.bind (Leaves.dbIterate db)
      (Leaves.bind (commitBatch_leaves c (removedKeys db wild ⟨0, -1⟩) db) (Leaves.pure _ _))

/-! ## Putting -/

/-- Putting one pair, as `put` does: the new database, or the exception. -/
def putPair (db : Store) (x : RValue) : Except Failure Store :=
  (pairKey x).bind fun key => (insertedValue (db.find? key) x).map fun w => db.insert key (dump w)

omit [HashOrder] in
/-- `getKeyValuePair` finds what is stored. -/
theorem getKeyValuePair_leaves (hdb : c.dbOk = true) (key : Bytes) (db : Store) :
    ∃ text, Leaves db (getKeyValuePair c key) (.ok (db.find? key, text)) db := by
  unfold getKeyValuePair
  rw [if_pos hdb]
  cases hfind : db.find? key with
  | none =>
    refine ⟨ascii "\x7b\"result\":false\x7d", Leaves.bind (Leaves.dbGet key db) ?_⟩
    rw [hfind]
    exact Leaves.pure _ db
  | some value =>
    refine ⟨ascii "\x7b\"result\":true\x7d", Leaves.bind (Leaves.dbGet key db) ?_⟩
    rw [hfind]
    exact Leaves.pure _ db

/-- A pair that can be put is put. -/
theorem insertKeyValuePair_leaves (hdb : c.dbOk = true) {x : RValue} {db db' : Store}
    (h : putPair db x = .ok db') :
    ∃ text, Leaves db (insertKeyValuePair c false x) (.ok (true, text)) db' := by
  obtain ⟨key, hkey, h⟩ := of_bind_ok h
  cases hw : insertedValue (db.find? key) x with
  | error e =>
    rw [hw] at h
    cases h
  | ok w =>
    rw [hw] at h
    cases h
    obtain ⟨text, hfound⟩ := getKeyValuePair_leaves hdb key db
    refine ⟨ascii "\x7b\"result\":true\x7d", ?_⟩
    unfold insertKeyValuePair
    rw [hkey]
    apply Leaves.bind (Leaves.pure key db)
    apply Leaves.bind hfound
    rw [hw]
    apply Leaves.bind (Leaves.pure w db)
    rw [if_pos hdb]
    exact Leaves.bind (commitPut_leaves c key (dump w) db) (Leaves.pure _ _)

/-- A pair that cannot be put raises an exception and leaves the database as it is. -/
theorem insertKeyValuePair_leaves_error (hdb : c.dbOk = true) {x : RValue} {db : Store}
    {e : Failure} (h : putPair db x = .error e) :
    Leaves db (insertKeyValuePair c false x) (.error e) db := by
  unfold insertKeyValuePair
  cases hkey : pairKey x with
  | error e' =>
    rw [putPair, hkey] at h
    cases h
    exact Leaves.bind_error (Leaves.throw e db)
  | ok key =>
    obtain ⟨text, hfound⟩ := getKeyValuePair_leaves hdb key db
    apply Leaves.bind (Leaves.pure key db)
    apply Leaves.bind hfound
    cases hw : insertedValue (db.find? key) x with
    | error e' =>
      rw [putPair, hkey, Except.bind, hw] at h
      cases h
      exact Leaves.bind_error (Leaves.throw e db)
    | ok w =>
      rw [putPair, hkey, Except.bind, hw] at h
      cases h

end

end Quarks
