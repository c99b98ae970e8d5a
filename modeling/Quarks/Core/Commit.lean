import Quarks.Scan

/-!
# Changing the database

A change of the database is passed on once RocksDB has accepted it: to the cache,
to the producer socket of a writer node, and to the logger. Every function that
changes the database does so in one of three ways: it stores a value, it removes a
key, or it removes a batch of keys. For each of them there is a rule by which a
statement about the data is carried through it.
-/

namespace Quarks

open Basis

variable [HashOrder]

/-- The record published for a change. -/
def record (action key value : Bytes) : WValue :=
  ((WValue.null.set (ascii "value") (.string value)).set (ascii "key") (.string key)).set
    (ascii "action") (.string action)

/-- The body that `httpPost` builds. -/
def postBody (key value : Bytes) : Bytes :=
  ascii "\x7b\"key\":\"" ++ key ++ ascii "\", \"value\":" ++ value ++ ascii "\x7d"

/-- The calls that the logger is sent for a stored and for a removed value. -/
def putCall (key value : Bytes) : HttpCall := .post (ascii "/putjson") (postBody key value)

def removeCall (key : Bytes) : HttpCall := .get (ascii "/remove?key=" ++ key)

/-- `putRequest`. -/
def putRequest (c : Config) (key value : Bytes) : CoreM Unit := do
  if c.cacheEnabled then putCached key value
  if c.writer then withLock .put (publish (dump (record (ascii "put") key value)))
  if c.logger then http (putCall key value)

/-- `removeRequest`. -/
def removeRequest (c : Config) (key : Bytes) : CoreM Unit := do
  if c.writer then withLock .put (publish (dump (record (ascii "remove") key [])))
  if c.logger then http (removeCall key)

/-- `db->Put` and, if the status is ok, `putRequest`: whether the status is ok. -/
def commitPut (c : Config) (key value : Bytes) : CoreM Bool := do
  if ← dbPut key value then
    putRequest c key value
    return true
  return false

/-- `db->Delete` and, if the status is ok, `removeRequest`: whether the status is ok. -/
def commitDelete (c : Config) (key : Bytes) : CoreM Bool := do
  if ← dbDelete key then
    removeRequest c key
    return true
  return false

/-- `removeRequest` for one key after the other. -/
def removeRequests (c : Config) : List Bytes → CoreM Unit
  | [] => return ()
  | key :: keys => do
    removeRequest c key
    removeRequests c keys

/-- `removeRequest` for each key, then one batch that deletes them all. -/
def commitBatch (c : Config) (keys : List Bytes) : CoreM Unit := do
  removeRequests c keys
  let _ ← dbWrite keys
  return ()

namespace Node

/-- What `putRequest` does to the data. -/
def putRequested (c : Config) (key value : Bytes) (n : Node) : Node :=
  { n with
    cache := if c.cacheEnabled then n.cache.insert key value else n.cache
    published :=
      if c.writer then n.published ++ [dump (record (ascii "put") key value)] else n.published
    requests := if c.logger then n.requests ++ [putCall key value] else n.requests }

/-- What `removeRequest` does to the data. -/
def removeRequested (c : Config) (key : Bytes) (n : Node) : Node :=
  { n with
    published :=
      if c.writer then n.published ++ [dump (record (ascii "remove") key [])] else n.published
    requests := if c.logger then n.requests ++ [removeCall key] else n.requests }

/-- The data after a value has been stored. -/
def stored (c : Config) (key value : Bytes) (n : Node) : Node :=
  putRequested c key value { n with db := n.db.insert key value }

/-- The data after a key has been removed. -/
def erased (c : Config) (key : Bytes) (n : Node) : Node :=
  removeRequested c key { n with db := n.db.erase key }

/-- What `removeRequest` does to the data, for one key after the other. -/
def allRemoveRequested (c : Config) (keys : List Bytes) (n : Node) : Node :=
  keys.foldl (fun n key => n.removeRequested c key) n

/-- The data after a batch of keys has been removed. -/
def allErased (c : Config) (keys : List Bytes) (n : Node) : Node :=
  { allRemoveRequested c keys n with db := n.db.eraseAll keys }

@[simp] theorem allRemoveRequested_db (c : Config) (keys : List Bytes) (n : Node) :
    (n.allRemoveRequested c keys).db = n.db := by
  induction keys generalizing n with
  | nil => rfl
  | cons key keys ih => exact ih (n.removeRequested c key)

@[simp] theorem allRemoveRequested_cache (c : Config) (keys : List Bytes) (n : Node) :
    (n.allRemoveRequested c keys).cache = n.cache := by
  induction keys generalizing n with
  | nil => rfl
  | cons key keys ih => exact ih (n.removeRequested c key)

/-- Every removal of a batch is published by a writer node. -/
theorem allRemoveRequested_published (c : Config) (keys : List Bytes) (n : Node) :
    (n.allRemoveRequested c keys).published = n.published ++
      if c.writer then keys.map fun key => dump (record (ascii "remove") key []) else [] := by
  induction keys generalizing n with
  | nil => simp [allRemoveRequested]
  | cons key keys ih =>
    refine (ih (n.removeRequested c key)).trans ?_
    cases hwriter : c.writer <;> simp [removeRequested, hwriter]

/-- Every removal of a batch is sent to the logger, if there is one. -/
theorem allRemoveRequested_requests (c : Config) (keys : List Bytes) (n : Node) :
    (n.allRemoveRequested c keys).requests =
      n.requests ++ if c.logger then keys.map removeCall else [] := by
  induction keys generalizing n with
  | nil => simp [allRemoveRequested]
  | cons key keys ih =>
    refine (ih (n.removeRequested c key)).trans ?_
    cases hlogger : c.logger <;> simp [removeRequested, hlogger]

end Node

section

variable {faults : Faults} {I E : Node → Prop} (c : Config)

theorem putRequest_triple {J : Unit → Node → Prop} {key value : Bytes}
    (h : ∀ n, I n → J () (n.putRequested c key value)) :
    DataTriple faults I (putRequest c key value) J E := by
  intro w hw
  rcases c with ⟨_, _ | _, _ | _, _ | _⟩ <;> exact h w.node hw

theorem removeRequest_triple {J : Unit → Node → Prop} {key : Bytes}
    (h : ∀ n, I n → J () (n.removeRequested c key)) :
    DataTriple faults I (removeRequest c key) J E := by
  intro w hw
  rcases c with ⟨_, _, _ | _, _ | _⟩ <;> exact h w.node hw

theorem removeRequests_triple {J : Unit → Node → Prop} {keys : List Bytes}
    (h : ∀ n, I n → J () (n.allRemoveRequested c keys)) :
    DataTriple faults I (removeRequests c keys) J E := by
  induction keys generalizing I with
  | nil => exact DataTriple.pure h
  | cons key keys ih =>
    refine DataTriple.bind (M := fun _ n => J () (n.allRemoveRequested c keys))
      (removeRequest_triple c h) fun _ => ih fun _ hn => hn

/-- A stored value is passed on; a store that fails changes nothing. -/
theorem commitPut_triple {J : Bool → Node → Prop} {key value : Bytes}
    (hfail : (∃ i, faults i (.put key value) = true) → ∀ n, I n → J false n)
    (hput : ∀ n, I n → J true (n.stored c key value)) :
    DataTriple faults I (commitPut c key value) J E := by
  refine DataTriple.bind (M := fun ok n => if ok = true then J true (n.putRequested c key value)
    else J false n) (DataTriple.dbPut hfail hput) fun ok => ?_
  cases ok with
  | false => exact DataTriple.pure fun _ hn => hn
  | true =>
    exact DataTriple.bind (M := fun _ => J true) (putRequest_triple c fun _ hn => hn)
      fun _ => DataTriple.pure fun _ hn => hn

/-- A removal is passed on; one that fails changes nothing. -/
theorem commitDelete_triple {J : Bool → Node → Prop} {key : Bytes}
    (hfail : (∃ i, faults i (.delete key) = true) → ∀ n, I n → J false n)
    (hdelete : ∀ n, I n → J true (n.erased c key)) :
    DataTriple faults I (commitDelete c key) J E := by
  refine DataTriple.bind (M := fun ok n => if ok = true then J true (n.removeRequested c key)
    else J false n) (DataTriple.dbDelete hfail hdelete) fun ok => ?_
  cases ok with
  | false => exact DataTriple.pure fun _ hn => hn
  | true =>
    exact DataTriple.bind (M := fun _ => J true) (removeRequest_triple c fun _ hn => hn)
      fun _ => DataTriple.pure fun _ hn => hn

/-- The removals of a batch are passed on even if the batch fails. -/
theorem commitBatch_triple {J : Unit → Node → Prop} {keys : List Bytes}
    (hfail : (∃ i, faults i (.write keys) = true) →
      ∀ n, I n → J () (n.allRemoveRequested c keys))
    (hbatch : ∀ n, I n → J () (n.allErased c keys)) :
    DataTriple faults I (commitBatch c keys) J E := by
  refine DataTriple.bind (M := fun _ n' => ∃ n, I n ∧ n' = n.allRemoveRequested c keys)
    (removeRequests_triple c fun n hn => ⟨n, hn, rfl⟩) fun _ => ?_
  refine DataTriple.bind (M := fun _ => J ()) (DataTriple.dbWrite ?_ ?_)
    fun _ => DataTriple.pure fun _ hn => hn
  · rintro hfault n' ⟨n, hn, rfl⟩
    exact hfail hfault n hn
  · rintro n' ⟨n, hn, rfl⟩
    rw [Node.allRemoveRequested_db]
    exact hbatch n hn

end

end Quarks
