import Quarks.Basis.Program
import Quarks.Basis.OrderedMap
import Quarks.Json.Dump

/-!
# A Quarks process

The functions of `Quarks::Core` act on the outside world through a few
operations: calls of RocksDB, the cache map, the frames handed to the writer's
producer socket, HTTP calls to the logger, and mutexes. Each of them is atomic. A
function is a program over these operations, which may end with an exception.
-/

namespace Quarks

open Basis

/-- The content of RocksDB, or of the cache: byte strings under byte strings, in key order. -/
abbrev Store := OrderedMap Bytes Bytes

/-- What is fixed when a process has started. -/
structure Config where
  /-- `dbStatus.ok()`. -/
  dbOk : Bool
  /-- `_CacheEnabled`. -/
  cacheEnabled : Bool
  /-- `Core::isWriterNode`. -/
  writer : Bool
  /-- `Core::hasLogger`. -/
  logger : Bool

/-- The same process with the cache enabled, or not. -/
def Config.withCache (c : Config) (cached : Bool) : Config := { c with cacheEnabled := cached }

/-- A process with the cache enabled and no other node to tell. -/
def cachedOnly : Config := ⟨true, true, false, false⟩

/-- A process without a cache and with no other node to tell. -/
def uncachedOnly : Config := ⟨true, false, false, false⟩

/-- A writer node without a cache and without a logger. -/
def writerOnly : Config := ⟨true, false, true, false⟩

/-- A request to the logger, with its target relative to the logger's URL. -/
inductive HttpCall
  | post (target body : Bytes)
  | get (target : Bytes)
  deriving DecidableEq

/-- The mutexes that the modelled functions take: `__put_mtx` and `Core::mtx`. -/
inductive Mutex
  | put | core
  deriving DecidableEq

/-- The data of a process: the database and the cache, and what has been sent so far. -/
structure Node where
  db : Store
  /-- `_CacheMap`. -/
  cache : Store
  /-- The records given to `QuarksCloud::Interface::write`, oldest first. -/
  published : List Bytes
  /-- The HTTP calls made to the logger, oldest first. -/
  requests : List HttpCall

/-- A process: its data, the number of RocksDB calls made, and the mutexes held. -/
structure World where
  node : Node
  calls : ℕ
  locked : Mutex → Bool

/-- The atomic operations. -/
inductive Op
  | get (key : Bytes)
  | put (key value : Bytes)
  | delete (key : Bytes)
  /-- `DB::Write` of a batch that deletes these keys. -/
  | write (keys : List Bytes)
  /-- A new iterator, which sees the content as it is now. -/
  | iterate
  /-- `_CacheMap[key]`. -/
  | getCached (key : Bytes)
  | putCached (key value : Bytes)
  | iterateCached
  | publish (record : Bytes)
  | http (call : HttpCall)
  | lock (m : Mutex)
  | unlock (m : Mutex)

/-- The answers: a value if the status is ok, or whether the status is ok. -/
def Res : Op → Type
  | .get _ => Option Bytes
  | .put _ _ | .delete _ | .write _ => Bool
  | .iterate | .iterateCached => Store
  | .getCached _ => Bytes
  | _ => Unit

/-- A function of `Quarks::Core`. -/
abbrev CoreM := Prog Res Failure

/-- An environment tells which RocksDB calls fail, by their number in the run. -/
abbrev Faults := ℕ → Op → Bool

/-- The environment in which every RocksDB call succeeds. -/
def noFaults : Faults := fun _ _ => false

/-- Some RocksDB call fails in the environment. -/
def Fails (faults : Faults) : Prop := ∃ i op, faults i op = true

theorem not_fails_noFaults : ¬Fails noFaults := by
  rintro ⟨i, op, h⟩
  cases h

namespace World

/-- One more RocksDB call has been made. -/
def tick (w : World) : World := { w with calls := w.calls + 1 }

/-- Change the data. -/
def modify (w : World) (f : Node → Node) : World := { w with node := f w.node }

@[simp] theorem tick_node (w : World) : w.tick.node = w.node := rfl
@[simp] theorem modify_node (w : World) (f : Node → Node) : (w.modify f).node = f w.node := rfl

end World

/-- The effect of an operation. A RocksDB call that fails changes nothing. -/
def handle (faults : Faults) : Prog.Handler Res World
  | .get key, w => (if faults w.calls (.get key) then none else w.node.db.find? key, w.tick)
  | .put key value, w =>
    if faults w.calls (.put key value) then (false, w.tick)
    else (true, w.tick.modify fun n => { n with db := n.db.insert key value })
  | .delete key, w =>
    if faults w.calls (.delete key) then (false, w.tick)
    else (true, w.tick.modify fun n => { n with db := n.db.erase key })
  | .write keys, w =>
    if faults w.calls (.write keys) then (false, w.tick)
    else (true, w.tick.modify fun n => { n with db := n.db.eraseAll keys })
  | .iterate, w => (w.node.db, w)
  | .getCached key, w => match w.node.cache.find? key with
    | some value => (value, w)
    | none => ([], w.modify fun n => { n with cache := n.cache.insert key [] })
  | .putCached key value, w =>
    ((), w.modify fun n => { n with cache := n.cache.insert key value })
  | .iterateCached, w => (w.node.cache, w)
  | .publish record, w =>
    ((), w.modify fun n => { n with published := n.published ++ [record] })
  | .http call, w => ((), w.modify fun n => { n with requests := n.requests ++ [call] })
  | .lock m, w => ((), { w with locked := Function.update w.locked m true })
  | .unlock m, w => ((), { w with locked := Function.update w.locked m false })

/-! ## The operations as programs -/

/-- `DB::Get`: the value, if the status is ok. -/
def dbGet (key : Bytes) : CoreM (Option Bytes) := Prog.lift (Op.get key)

/-- `DB::Put`: whether the status is ok. -/
def dbPut (key value : Bytes) : CoreM Bool := Prog.lift (Op.put key value)

/-- `DB::Delete`: whether the status is ok. -/
def dbDelete (key : Bytes) : CoreM Bool := Prog.lift (Op.delete key)

/-- `DB::Write` of a batch of deletions: whether the status is ok. -/
def dbWrite (keys : List Bytes) : CoreM Bool := Prog.lift (Op.write keys)

/-- What a new iterator sees. -/
def dbIterate : CoreM Store := Prog.lift Op.iterate

/-- `_GetCached`: looking up an absent key stores the empty string under it. -/
def getCached (key : Bytes) : CoreM Bytes := Prog.lift (Op.getCached key)

/-- `_PutCached`. -/
def putCached (key value : Bytes) : CoreM Unit := Prog.lift (Op.putCached key value)

/-- The cache map, as a listing reads it under `__cache_mtx`. -/
def cacheIterate : CoreM Store := Prog.lift Op.iterateCached

/-- `__WriterNode.write(data.c_str(), data.size() + 1)`. -/
def publish (record : Bytes) : CoreM Unit := Prog.lift (Op.publish record)

/-- `httpPost` or `httpGet`. -/
def http (call : HttpCall) : CoreM Unit := Prog.lift (Op.http call)

/-- Go on with a result, or raise the exception. -/
def ofExcept {α : Type} : Except Failure α → CoreM α
  | .ok a => pure a
  | .error e => throw e

/-- `catch (const std::runtime_error&)`. -/
def catchRuntime {α : Type} (p handler : CoreM α) : CoreM α :=
  tryCatch p fun e => if e.isRuntimeError then handler else throw e

/-- `std::lock_guard`: the mutex is released however the block ends. -/
def withLock {α : Type} (m : Mutex) (p : CoreM α) : CoreM α := do
  let _ ← (Prog.lift (Op.lock m) : CoreM Unit)
  let a ← tryCatch p fun e => do
    let _ ← (Prog.lift (Op.unlock m) : CoreM Unit)
    throw e
  let _ ← (Prog.lift (Op.unlock m) : CoreM Unit)
  return a

/-! ## Reasoning about the data -/

section

variable {faults : Faults} {α β : Type} {I E : Node → Prop} {J : α → Node → Prop}

variable (faults) in
/-- A read of a key may give `found`: what is stored, or nothing because the read failed. -/
def ReadsAs (n : Node) (key : Bytes) (found : Option Bytes) : Prop :=
  found = n.db.find? key ∨ found = none ∧ ∃ i, faults i (.get key) = true

/-- A read that cannot fail gives what is stored. -/
theorem readsAs_noFaults {n : Node} {key : Bytes} {found : Option Bytes} :
    ReadsAs noFaults n key found ↔ found = n.db.find? key := by
  constructor
  · rintro (h | ⟨-, i, hi⟩)
    · exact h
    · cases hi
  · exact Or.inl

variable (faults) in
/-- A statement about the data before a program, after it has returned a result,
and after it has raised an exception. -/
def DataTriple (I : Node → Prop) (p : CoreM α) (J : α → Node → Prop) (E : Node → Prop) : Prop :=
  Prog.Triple (handle faults) (fun w => I w.node) p (fun a w => J a w.node) fun _ w => E w.node

variable (faults) in
/-- A program keeps a property of the data. -/
abbrev Keeps (I : Node → Prop) (p : CoreM α) : Prop := DataTriple faults I p (fun _ => I) I

namespace DataTriple

theorem pure {a : α} (hJ : ∀ n, I n → J a n) : DataTriple faults I (Pure.pure a) J E :=
  fun w hw => hJ w.node hw

theorem throw {e : Failure} (hE : ∀ n, I n → E n) :
    DataTriple faults I (MonadExcept.throw e : CoreM α) J E :=
  fun w hw => hE w.node hw

theorem bind {M : α → Node → Prop} {K : β → Node → Prop} {p : CoreM α} {f : α → CoreM β}
    (hp : DataTriple faults I p M E) (hf : ∀ a, DataTriple faults (M a) (f a) K E) :
    DataTriple faults I (p >>= f) K E :=
  Prog.Triple.bind hp hf

/-- The result of a program may be dropped. -/
theorem discard {K : Node → Prop} {p : CoreM α} (hp : DataTriple faults I p (fun _ => K) E) :
    DataTriple faults I (Functor.discard p) (fun _ => K) E :=
  bind (M := fun _ => K) hp fun _ => pure fun _ hn => hn

theorem mono {I' E' : Node → Prop} {J' : α → Node → Prop} {p : CoreM α}
    (hp : DataTriple faults I p J E) (hI : ∀ n, I' n → I n) (hJ : ∀ a n, J a n → J' a n)
    (hE : ∀ n, E n → E' n) : DataTriple faults I' p J' E' :=
  Prog.Triple.mono hp (fun w => hI w.node) (fun a w => hJ a w.node) fun _ w => hE w.node

/-- Only the precondition is strengthened. -/
theorem pre {I' : Node → Prop} {p : CoreM α} (hp : DataTriple faults I p J E)
    (hI : ∀ n, I' n → I n) : DataTriple faults I' p J E :=
  hp.mono hI (fun _ _ h => h) fun _ h => h

/-- A value or an exception that is already known: the rest runs only for the value. -/
theorem ofExcept {x : Except Failure α} {f : α → CoreM β} {K : β → Node → Prop}
    (hE : ∀ n, I n → E n) (hf : ∀ a, x = .ok a → DataTriple faults I (f a) K E) :
    DataTriple faults I (Quarks.ofExcept x >>= f) K E := by
  cases x with
  | ok a => exact hf a rfl
  | error e => exact throw hE

theorem catchRuntime {M : Node → Prop} {p q : CoreM α} (hp : DataTriple faults I p J M)
    (hq : DataTriple faults M q J E) (hE : ∀ n, M n → E n) :
    DataTriple faults I (Quarks.catchRuntime p q) J E := by
  refine Prog.Triple.tryCatch hp fun e => ?_
  split
  · exact hq
  · exact throw hE

/-- Taking and releasing a mutex does not touch the data. -/
theorem withLock {m : Mutex} {p : CoreM α} (hp : DataTriple faults I p J E) :
    DataTriple faults I (Quarks.withLock m p) J E := by
  have hlock : ∀ {K : Node → Prop} {m : Mutex},
      DataTriple faults K (Prog.lift (Op.lock m) : CoreM Unit) (fun _ => K) E := fun _ hw => hw
  have hunlock : ∀ {K : Node → Prop} {m : Mutex},
      DataTriple faults K (Prog.lift (Op.unlock m) : CoreM Unit) (fun _ => K) E := fun _ hw => hw
  refine bind hlock fun _ => bind (Prog.Triple.tryCatch hp fun e => ?_) fun a => ?_
  · exact bind hunlock fun _ => throw fun _ h => h
  · exact bind hunlock fun _ => pure fun _ h => h

/-- A read returns the value stored, or none if it fails. -/
theorem dbGet {key : Bytes} : DataTriple faults I (Quarks.dbGet key)
    (fun found n => I n ∧ ReadsAs faults n key found) E := by
  intro w hw
  refine ⟨hw, ?_⟩
  simp only [ReadsAs]
  by_cases h : faults w.calls (.get key) = true
  · exact Or.inr ⟨if_pos h, w.calls, h⟩
  · exact Or.inl (if_neg h)

theorem dbPut {key value : Bytes} {J : Bool → Node → Prop}
    (hfail : (∃ i, faults i (.put key value) = true) → ∀ n, I n → J false n)
    (hok : ∀ n, I n → J true { n with db := n.db.insert key value }) :
    DataTriple faults I (Quarks.dbPut key value) J E := by
  intro w hw
  change J (handle faults (.put key value) w).1 (handle faults (.put key value) w).2.node
  simp only [handle]
  split
  · next h => exact hfail ⟨_, h⟩ w.node hw
  · exact hok w.node hw

theorem dbDelete {key : Bytes} {J : Bool → Node → Prop}
    (hfail : (∃ i, faults i (.delete key) = true) → ∀ n, I n → J false n)
    (hok : ∀ n, I n → J true { n with db := n.db.erase key }) :
    DataTriple faults I (Quarks.dbDelete key) J E := by
  intro w hw
  change J (handle faults (.delete key) w).1 (handle faults (.delete key) w).2.node
  simp only [handle]
  split
  · next h => exact hfail ⟨_, h⟩ w.node hw
  · exact hok w.node hw

theorem dbWrite {keys : List Bytes} {J : Bool → Node → Prop}
    (hfail : (∃ i, faults i (.write keys) = true) → ∀ n, I n → J false n)
    (hok : ∀ n, I n → J true { n with db := n.db.eraseAll keys }) :
    DataTriple faults I (Quarks.dbWrite keys) J E := by
  intro w hw
  change J (handle faults (.write keys) w).1 (handle faults (.write keys) w).2.node
  simp only [handle]
  split
  · next h => exact hfail ⟨_, h⟩ w.node hw
  · exact hok w.node hw

theorem dbIterate : DataTriple faults I Quarks.dbIterate (fun m n => I n ∧ n.db = m) E :=
  fun _ hw => ⟨hw, rfl⟩

theorem cacheIterate :
    DataTriple faults I Quarks.cacheIterate (fun m n => I n ∧ n.cache = m) E :=
  fun _ hw => ⟨hw, rfl⟩

end DataTriple

/-! ## Programs that only read -/

variable (faults) in
/-- What a program that is run alone returns or raises. -/
def answer (w : World) (p : CoreM α) : Except Failure α := (p.run (handle faults) w).1

variable (faults) in
/-- On data with the property a program always has the same outcome, and it keeps the
property. -/
def Settles (I : Node → Prop) (p : CoreM α) (r : Except Failure α) : Prop :=
  ∀ w, I w.node → answer faults w p = r ∧ I (p.run (handle faults) w).2.node

variable (faults) in
/-- A program that is run on these data always has the same outcome and leaves them as
they are. -/
def Yields (n : Node) (p : CoreM α) (r : Except Failure α) : Prop :=
  ∀ w, w.node = n → answer faults w p = r ∧ (p.run (handle faults) w).2.node = n

/-- The outcome of a program, where that of a handler takes the place of a runtime error. -/
def caught (r s : Except Failure α) : Except Failure α :=
  match r with
  | .ok a => .ok a
  | .error e => if e.isRuntimeError then s else .error e

namespace Settles

variable {p : CoreM α} {f : α → CoreM β}

theorem pure (a : α) : Settles faults I (Pure.pure a) (.ok a) := fun _ hw => ⟨rfl, hw⟩

theorem ofExcept (r : Except Failure α) : Settles faults I (Quarks.ofExcept r) r := by
  cases r <;> exact fun _ hw => ⟨rfl, hw⟩

/-- The next program is run on data with the property. -/
theorem bind {r : Except Failure α} {g : α → Except Failure β} (hp : Settles faults I p r)
    (hf : ∀ a, r = .ok a → Settles faults I (f a) (g a)) :
    Settles faults I (p >>= f) (r.bind g) := by
  intro w hw
  obtain ⟨hans, hnode⟩ := hp w hw
  unfold answer at hans ⊢
  rw [Prog.run_bind]
  rcases hrun : Prog.run (handle faults) p w with ⟨e | a, w'⟩
  · rw [hrun] at hans hnode
    subst hans
    exact ⟨rfl, hnode⟩
  · rw [hrun] at hans hnode
    subst hans
    exact hf a rfl w' hnode

/-- The next program is run with the result that is known. -/
theorem bind_ok {a : α} {r : Except Failure β} (hp : Settles faults I p (.ok a))
    (hf : Settles faults I (f a) r) : Settles faults I (p >>= f) r :=
  bind (g := fun _ => r) hp fun a' h => by
    cases h
    exact hf

/-- A program that is known to return a result does so, and raises no exception. -/
theorem triple {a : α} {E : Node → Prop} (h : Settles faults I p (.ok a)) :
    DataTriple faults I p (fun b m => b = a ∧ I m) E := by
  intro w hw
  obtain ⟨hans, hnode⟩ := h w hw
  unfold answer at hans
  rcases hrun : Prog.run (handle faults) p w with ⟨e | b, w'⟩
  · rw [hrun] at hans
    cases hans
  · rw [hrun] at hans hnode
    cases hans
    exact ⟨rfl, hnode⟩

/-- A caught exception gives way to the handler. -/
theorem catchRuntime {q : CoreM α} {r s : Except Failure α} (hp : Settles faults I p r)
    (hq : Settles faults I q s) :
    Settles faults I (Quarks.catchRuntime p q) (caught r s) := by
  intro w hw
  obtain ⟨hans, hnode⟩ := hp w hw
  unfold answer at hans ⊢
  unfold caught
  rw [Quarks.catchRuntime, Prog.run_tryCatch]
  rcases hrun : Prog.run (handle faults) p w with ⟨e | a, w'⟩
  · rw [hrun] at hans hnode
    subst hans
    simp only
    split
    · exact hq w' hnode
    · exact ⟨rfl, hnode⟩
  · rw [hrun] at hans hnode
    subst hans
    exact ⟨rfl, hnode⟩

end Settles

namespace Yields

variable {n : Node} {p : CoreM α} {f : α → CoreM β}

/-- A program has one outcome only. -/
theorem unique {r r' : Except Failure α} (h : Yields faults n p r) (h' : Yields faults n p r') :
    r = r' := by
  have hr := (h ⟨n, 0, fun _ => false⟩ rfl).1
  exact hr.symm.trans (h' _ rfl).1

theorem pure (a : α) : Yields faults n (Pure.pure a) (.ok a) :=
  Settles.pure (I := (· = n)) a

theorem ofExcept (r : Except Failure α) : Yields faults n (Quarks.ofExcept r) r :=
  Settles.ofExcept (I := (· = n)) r

/-- The next program is run on the same data. -/
theorem bind {r : Except Failure α} {g : α → Except Failure β} (hp : Yields faults n p r)
    (hf : ∀ a, r = .ok a → Yields faults n (f a) (g a)) :
    Yields faults n (p >>= f) (r.bind g) :=
  Settles.bind (I := (· = n)) hp hf

/-- The next program is run on the same data, with the result that is known. -/
theorem bind_ok {a : α} {r : Except Failure β} (hp : Yields faults n p (.ok a))
    (hf : Yields faults n (f a) r) : Yields faults n (p >>= f) r :=
  Settles.bind_ok (I := (· = n)) hp hf

/-- After an exception the next program is not run. -/
theorem bind_error {e : Failure} (hp : Yields faults n p (.error e)) :
    Yields faults n (p >>= f) (.error e) :=
  bind (g := fun _ => .error e) hp fun a h => by cases h

/-- A caught exception gives way to the handler. -/
theorem catchRuntime {q : CoreM α} {r s : Except Failure α} (hp : Yields faults n p r)
    (hq : Yields faults n q s) : Yields faults n (Quarks.catchRuntime p q) (caught r s) :=
  Settles.catchRuntime (I := (· = n)) hp hq

theorem dbIterate : Yields faults n Quarks.dbIterate (.ok n.db) :=
  fun w hw => ⟨by subst hw; rfl, hw⟩

theorem cacheIterate : Yields faults n Quarks.cacheIterate (.ok n.cache) :=
  fun w hw => ⟨by subst hw; rfl, hw⟩

theorem dbGet {key : Bytes} : Yields noFaults n (Quarks.dbGet key) (.ok (n.db.find? key)) :=
  fun w hw => ⟨by subst hw; rfl, hw⟩

/-- A program that is known to return a result does so, and raises no exception. -/
theorem triple {a : α} {E : Node → Prop} (h : Yields faults n p (.ok a)) :
    DataTriple faults (fun m => m = n) p (fun b m => b = a ∧ m = n) E :=
  Settles.triple (I := (· = n)) h

/-- Looking up a key that the cache has does not change it. -/
theorem getCached {key value : Bytes} (h : n.cache.find? key = some value) :
    Yields faults n (Quarks.getCached key) (.ok value) := by
  intro w hw
  subst hw
  have hhandle : handle faults (.getCached key) w = (value, w) := by
    simp only [handle, h]
    rfl
  constructor
  · change Except.ok (handle faults (.getCached key) w).1 = _
    rw [hhandle]
    rfl
  · change (handle faults (.getCached key) w).2.node = _
    rw [hhandle]

end Yields

/-- If no call fails, the effect of an operation depends on the data only. -/
theorem handle_noFaults_congr {w w' : World} (h : w.node = w'.node) (op : Op) :
    (handle noFaults op w).1 = (handle noFaults op w').1 ∧
      (handle noFaults op w).2.node = (handle noFaults op w').2.node := by
  cases op with
  | getCached key =>
    simp only [handle, h]
    cases w'.node.cache.find? key with
    | none => exact ⟨rfl, congrArg (fun n : Node => { n with cache := n.cache.insert key [] }) h⟩
    | some value => exact ⟨rfl, h⟩
  | get key => exact ⟨congrArg (fun n : Node => n.db.find? key) h, h⟩
  | iterate => exact ⟨congrArg Node.db h, h⟩
  | iterateCached => exact ⟨congrArg Node.cache h, h⟩
  | put key value =>
    exact ⟨rfl, congrArg (fun n : Node => { n with db := n.db.insert key value }) h⟩
  | delete key => exact ⟨rfl, congrArg (fun n : Node => { n with db := n.db.erase key }) h⟩
  | write keys => exact ⟨rfl, congrArg (fun n : Node => { n with db := n.db.eraseAll keys }) h⟩
  | putCached key value =>
    exact ⟨rfl, congrArg (fun n : Node => { n with cache := n.cache.insert key value }) h⟩
  | publish record =>
    exact ⟨rfl, congrArg (fun n : Node => { n with published := n.published ++ [record] }) h⟩
  | http call =>
    exact ⟨rfl, congrArg (fun n : Node => { n with requests := n.requests ++ [call] }) h⟩
  | lock m | unlock m => exact ⟨rfl, h⟩

/-- If no call fails, the outcome of a program depends on the data only. -/
theorem answer_noFaults_congr {w w' : World} (h : w.node = w'.node) (p : CoreM α) :
    answer noFaults w p = answer noFaults w' p := by
  unfold answer
  induction p generalizing w w' with
  | pure a => rfl
  | throw e => rfl
  | call op next ih =>
    obtain ⟨hans, hnode⟩ := handle_noFaults_congr h op
    simp only [Prog.run, hans]
    exact ih _ hnode

end

end Quarks
