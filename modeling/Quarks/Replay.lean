import Quarks.Core.Serve
import Quarks.Json.Fields

/-!
# Records and their replay

A writer node publishes a record for each change of its database, and a reader node
applies the records that it receives with `qcSave`. A record names the change in full,
for every key and value, so that replaying the records of some changes makes the same
changes.
-/

namespace Quarks

open Basis

/-- A change of the database. -/
inductive Change
  | put (key value : Bytes)
  | remove (key : Bytes)

namespace Change

/-- The record that is published for the change. -/
def record [HashOrder] : Change → Bytes
  | put key value => dump (Quarks.record (ascii "put") key value)
  | remove key => dump (Quarks.record (ascii "remove") key [])

/-- The database after the change. -/
def apply (db : Store) : Change → Store
  | put key value => db.insert key value
  | remove key => db.erase key

/-- The database after some changes. -/
def applyAll (db : Store) (changes : List Change) : Store := changes.foldl apply db

theorem applyAll_append (db : Store) (changes changes' : List Change) :
    applyAll db (changes ++ changes') = applyAll (applyAll db changes) changes' :=
  List.foldl_append

/-- What a key holds after some changes depends only on what it held before. -/
theorem find?_applyAll {db db' : Store} {key : Bytes} (h : db.find? key = db'.find? key)
    (changes : List Change) :
    (applyAll db changes).find? key = (applyAll db' changes).find? key := by
  induction changes generalizing db db' with
  | nil => exact h
  | cons change changes ih =>
    refine ih ?_
    cases change with
    | put k v => rw [apply, apply, OrderedMap.find?_insert, OrderedMap.find?_insert, h]
    | remove k => rw [apply, apply, OrderedMap.find?_erase, OrderedMap.find?_erase, h]

end Change

theorem distinct_record (action key value : Bytes) : (record action key value).Distinct :=
  ((WValue.Distinct.set (w := .null) trivial _ _).set _ _).set _ _

section

variable [HashOrder]

/-- The fields of a record are read back as they were written. -/
theorem recordFields_record (action key value : Bytes) :
    recordFields (reread (record action key value)) = .ok (key, value, action) := by
  have hfield : ∀ name v, (record action key value).field? name = some (.string v) →
      (reread (record action key value)).field name = .ok (.string (escape v)) :=
    fun name v h => field_reread (distinct_record action key value) h
  have hnames : ascii "key" ≠ ascii "action" ∧ ascii "value" ≠ ascii "action" ∧
      ascii "value" ≠ ascii "key" := by
    decide
  have hkey := hfield (ascii "key") key (by simp [record, WValue.field?_set, hnames])
  have hvalue := hfield (ascii "value") value (by simp [record, WValue.field?_set, hnames])
  have haction := hfield (ascii "action") action (by simp [record, WValue.field?_set])
  unfold recordFields
  rw [hkey, hvalue, haction]
  simp [RValue.s, bind, Except.bind, pure, Except.pure]

/-- Applying the record of a change makes the change, and nothing else. -/
theorem qcSave_record {c : Config} (hdb : c.dbOk = true) (change : Change) {data : Bytes}
    (hdata : load data = load change.record) (w : World) :
    (step c noFaults w (.qcSave data)).node = { w.node with db := change.apply w.node.db } := by
  change ((qcSave c data).run (handle noFaults) w).2.node = _
  unfold qcSave
  rw [hdata]
  cases change with
  | put key value =>
    rw [Change.record, load_dump]
    simp only [recordFields_record, hdb, if_true]
    rfl
  | remove key =>
    rw [Change.record, load_dump]
    simp only [recordFields_record, hdb, if_true]
    rfl

/-- What is published goes with what is changed. -/
def PublishedAs (db : Store) (published : List Bytes) (n : Node) : Prop :=
  ∃ changes : List Change, n.db = Change.applyAll db changes ∧
    n.published = published ++ changes.map Change.record

theorem allRemoveRequested_published {c : Config} (hwriter : c.writer = true) (keys : List Bytes)
    (n : Node) : (n.allRemoveRequested c keys).published =
      n.published ++ keys.map fun key => (Change.remove key).record := by
  rw [Node.allRemoveRequested_published, if_pos hwriter]
  rfl

omit [HashOrder] in
theorem applyAll_removes (db : Store) (keys : List Bytes) :
    Change.applyAll db (keys.map .remove) = db.eraseAll keys := by
  induction keys generalizing db with
  | nil => rw [OrderedMap.eraseAll_nil]; rfl
  | cons key keys ih => rw [OrderedMap.eraseAll_cons]; exact ih (db.erase key)

/-- A writer publishes a record for each change that it makes, in their order. -/
theorem step_publishes {c : Config} (hwriter : c.writer = true) {r : Request}
    (hr : r.isLocal = true) (w : World) :
    PublishedAs w.node.db w.node.published (step c noFaults w r).node := by
  refine step_keeps c (I := PublishedAs w.node.db w.node.published) (fun n key hn => hn) ?_ ?_ ?_
    hr ⟨[], rfl, (List.append_nil _).symm⟩
  · rintro n key value ⟨changes, hdb, hpublished⟩
    refine ⟨changes ++ [.put key value], ?_, ?_⟩
    · rw [Change.applyAll_append, ← hdb]
      rfl
    · simp [Node.stored, Node.putRequested, hwriter, hpublished, Change.record]
  · rintro n key ⟨changes, hdb, hpublished⟩
    refine ⟨changes ++ [.remove key], ?_, ?_⟩
    · rw [Change.applyAll_append, ← hdb]
      rfl
    · simp [Node.erased, Node.removeRequested, hwriter, hpublished, Change.record]
  · rintro n keys ⟨changes, hdb, hpublished⟩
    refine ⟨changes ++ keys.map .remove, ?_, ?_⟩
    · rw [Change.applyAll_append, ← hdb, applyAll_removes]
      rfl
    · change (n.allRemoveRequested c keys).published = _
      rw [allRemoveRequested_published hwriter, hpublished, List.append_assoc, List.map_append,
        List.map_map]
      rfl

/-- Applying the records of some changes makes these changes. -/
theorem serveAll_records {c : Config} (hdb : c.dbOk = true) (changes : List Change) (w : World) :
    (serveAll c noFaults w (changes.map fun change => .qcSave change.record)).node.db =
      Change.applyAll w.node.db changes := by
  induction changes generalizing w with
  | nil => rfl
  | cons change changes ih =>
    have hstep := congrArg Node.db (qcSave_record hdb change rfl w)
    exact (ih _).trans (congrArg (fun db => Change.applyAll db changes) hstep)

end

end Quarks
