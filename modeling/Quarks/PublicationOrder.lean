import Quarks.Interleaving
import Quarks.Replay
import Mathlib.Data.Fintype.Defs

/-!
# The order of publication

`putRequest` and `removeRequest` publish a record under a mutex, but the change itself
has been made before the mutex is taken. If two requests change the database and then
publish in the other order, the readers end with another value. As long as no request
changes the database while another one has still to publish its change, the records come
in the order of the changes.
-/

namespace Quarks

open Basis

/-- The operations of a request between a change and its publication. -/
def Op.Prepares : Op → Prop
  | .putCached _ _ | .lock .put => True
  | _ => False

/-- The operations of a request after the publication of its change. -/
def Op.Closes : Op → Prop
  | .unlock .put | .http _ => True
  | _ => False

/-- The program publishes the record, and changes nothing before or after that. -/
def Publishes {α : Type} (record : Bytes) : CoreM α → Prop
  | .call op next => op = .publish record ∧ (∀ r, (next r).Ends Op.Closes fun _ => True) ∨
      op.Prepares ∧ ∀ r, Publishes record (next r)
  | _ => False

/-- The program reads, changes the database once at most, and then publishes the change. -/
def ChangesOnce [HashOrder] {α : Type} : CoreM α → Prop
  | .call (.put key value) next => Publishes (Change.put key value).record (next true)
  | .call (.delete key) next => Publishes (Change.remove key).record (next true)
  | .call (.get _) next => ∀ found, ChangesOnce (next found)
  | .call _ _ => False
  | _ => True

section

variable {α β : Type} {record : Bytes}

theorem Publishes.bind {p : CoreM α} {f : α → CoreM β} (hp : Publishes record p)
    (hf : ∀ a, (f a).Ends Op.Closes fun _ => True) : Publishes record (p >>= f) := by
  change Publishes record (p.bind f)
  induction p with
  | pure a => exact hp.elim
  | throw e => exact hp.elim
  | call op next ih =>
    rcases hp with ⟨hop, hnext⟩ | ⟨hop, hnext⟩
    · exact Or.inl ⟨hop, fun r => (hnext r).bind (fun a _ => hf a) fun _ _ => trivial⟩
    · exact Or.inr ⟨hop, fun r => ih r (hnext r)⟩

/-- The publication under its mutex, and what follows it. -/
theorem publishes_withLock (record : Bytes) {rest : CoreM α}
    (hrest : rest.Ends Op.Closes fun _ => True) :
    Publishes record (withLock .put (publish record) >>= fun _ => rest) :=
  Or.inr ⟨trivial, fun _ => Or.inl ⟨rfl, fun _ => ⟨trivial, fun _ => hrest⟩⟩⟩

variable [HashOrder]

/-- A program that performs no operation changes nothing. -/
theorem ChangesOnce.of_ends {P : Except Failure α → Prop} {p : CoreM α}
    (hp : p.Ends (fun _ => False) P) : ChangesOnce p := by
  cases p with
  | call op next => exact hp.1.elim
  | _ => trivial

/-- What comes after the change performs no operation. -/
theorem ChangesOnce.bind {p : CoreM α} {f : α → CoreM β}
    (hp : ChangesOnce p) (hf : ∀ a, (f a).Ends (fun _ => False) fun _ => True) :
    ChangesOnce (p >>= f) := by
  change ChangesOnce (p.bind f)
  have hf' : ∀ a, (f a).Ends Op.Closes fun _ => True := fun a =>
    (hf a).mono (fun _ h => h.elim) fun _ h => h
  induction p with
  | pure a => exact .of_ends (hf a)
  | throw e => trivial
  | call op next ih =>
    cases op with
    | put key value => exact Publishes.bind hp hf'
    | delete key => exact Publishes.bind hp hf'
    | get key => exact fun found => ih found (hp found)
    | _ => exact hp.elim

/-- Reading a value changes nothing. -/
theorem changesOnce_getKeyValuePair (c : Config) (key : Bytes) {f : Option Bytes × Bytes → CoreM α}
    (hf : ∀ found, ChangesOnce (f found)) : ChangesOnce (getKeyValuePair c key >>= f) := by
  unfold getKeyValuePair
  split
  · intro found
    cases found <;> exact hf _
  · exact hf _

variable {c : Config} (hwriter : c.writer = true)
include hwriter

theorem putRequest_publishes (key value : Bytes) :
    Publishes (Change.put key value).record (putRequest c key value) := by
  rcases c with ⟨_, cached, _ | _, logger⟩
  · cases hwriter
  have hlogged : (if logger then http (putCall key value) else pure () : CoreM Unit).Ends Op.Closes
      fun _ => True := by
    cases logger
    · exact trivial
    · exact ⟨trivial, fun _ => trivial⟩
  cases cached
  · exact publishes_withLock _ hlogged
  · exact Or.inr ⟨trivial, fun _ => publishes_withLock _ hlogged⟩

theorem removeRequest_publishes (key : Bytes) :
    Publishes (Change.remove key).record (removeRequest c key) := by
  rcases c with ⟨_, _, _ | _, logger⟩
  · cases hwriter
  have hlogged : (if logger then http (removeCall key) else pure () : CoreM Unit).Ends Op.Closes
      fun _ => True := by
    cases logger
    · exact trivial
    · exact ⟨trivial, fun _ => trivial⟩
  exact publishes_withLock _ hlogged

theorem commitPut_changesOnce (key value : Bytes) : ChangesOnce (commitPut c key value) :=
  (putRequest_publishes hwriter key value).bind fun _ => trivial

theorem commitDelete_changesOnce (key : Bytes) : ChangesOnce (commitDelete c key) :=
  (removeRequest_publishes hwriter key).bind fun _ => trivial

theorem insertKeyValuePair_changesOnce (failIfExists : Bool) (x : RValue) :
    ChangesOnce (insertKeyValuePair c failIfExists x) := by
  unfold insertKeyValuePair
  cases pairKey x with
  | error e => exact trivial
  | ok key =>
    refine changesOnce_getKeyValuePair c key fun found => ?_
    split
    · exact trivial
    cases insertedValue found.1 x with
    | error e => exact trivial
    | ok w =>
      change ChangesOnce (if c.dbOk = true then _ else _)
      split
      · refine (commitPut_changesOnce hwriter key (dump w)).bind fun ok => ?_
        cases ok <;> exact trivial
      · exact trivial

theorem dumpPair_changesOnce (key value : Bytes) : ChangesOnce (dumpPair c key value) := by
  unfold dumpPair
  split
  · refine (commitPut_changesOnce hwriter key value).bind fun ok => ?_
    cases ok <;> exact trivial
  · exact trivial

theorem remove_changesOnce (key : Bytes) : ChangesOnce (remove c key) := by
  unfold remove
  split
  · intro found
    cases found with
    | none => exact trivial
    | some value =>
      refine (commitDelete_changesOnce hwriter key).bind fun ok => ?_
      cases ok <;> exact trivial
  · exact trivial

/-- The requests that change one key: they store a value under it, or remove it. -/
def ChangesKey : Request → Prop
  | .put _ | .post _ | .dump _ _ | .remove _ => True
  | _ => False

theorem serve_changesOnce {r : Request} (hr : ChangesKey r) : ChangesOnce (serve c r) := by
  have hdiscard : ∀ {α : Type} {p : CoreM α}, ChangesOnce p → ChangesOnce (discard p) :=
    fun hp => hp.bind fun _ => trivial
  have hinsert : ∀ failIfExists body, ChangesOnce (insert c failIfExists body) := by
    intro failIfExists body
    unfold insert
    split
    · exact trivial
    · exact insertKeyValuePair_changesOnce hwriter failIfExists _
  cases r with
  | put body => exact hdiscard (hinsert false body)
  | post body => exact hdiscard (hinsert true body)
  | dump key value => exact hdiscard (dumpPair_changesOnce hwriter key value)
  | remove key => exact hdiscard (remove_changesOnce hwriter key)
  | _ => exact hr.elim

end

/-! ## Interleavings -/

section

variable {ι α : Type} [HashOrder]

/-- The changes that have been made, oldest first. -/
def changesOf (log : List (ι × Event)) : List Change :=
  log.filterMap fun e => match e.2.1 with
    | .put key value => some (.put key value)
    | .delete key => some (.remove key)
    | _ => none

/-- The first operation changes the database, and the second one belongs to a request that
has still to publish its change. -/
def Op.overtakes : Op → Op → Bool
  | .put _ _, .putCached _ _ | .put _ _, .lock .put | .put _ _, .publish _ => true
  | .delete _, .putCached _ _ | .delete _, .lock .put | .delete _, .publish _ => true
  | _, _ => false

/-- No request has still to publish its change when this one changes the database. -/
def ChangesAlone (p : Requests ι α) (i : ι) : Prop :=
  ∀ j, ∀ op ∈ (p.progs i).next?, ∀ op' ∈ (p.progs j).next?, op.overtakes op' = false

instance [Fintype ι] (p : Requests ι α) (i : ι) : Decidable (ChangesAlone p i) :=
  inferInstanceAs (Decidable (∀ j, ∀ op ∈ (p.progs i).next?, ∀ op' ∈ (p.progs j).next?,
    op.overtakes op' = false))

/-- Where a request stands: before its change, or after its publication. -/
def Settled (prog : CoreM α) : Prop :=
  ChangesOnce prog ∨ prog.Ends Op.Closes fun _ => True

/-- The database results from the changes made, and their records have been published,
apart from the last one if a request has still to publish it. -/
structure Published (w : World) (p : Requests ι α) : Prop where
  db : p.state.1.node.db = Change.applyAll w.node.db (changesOf p.state.2)
  records : (p.state.1.node.published =
        w.node.published ++ (changesOf p.state.2).map Change.record ∧
      ∀ i, Settled (p.progs i)) ∨
    ∃ i before last, changesOf p.state.2 = before ++ [last] ∧
      p.state.1.node.published = w.node.published ++ before.map Change.record ∧
      Publishes last.record (p.progs i) ∧ ∀ j, j ≠ i → Settled (p.progs j)

omit [HashOrder] in
theorem changesOf_append_singleton (log : List (ι × Event)) (e : ι × Event) :
    changesOf (log ++ [e]) = changesOf log ++ changesOf [e] := List.filterMap_append

variable [DecidableEq ι] {w : World} {p : Requests ι α} {i : ι} {op : Op} {next : Res op → CoreM α}

/-- Every request is before its change or after its publication, or between the two. -/
theorem Published.settled_or (hp : Published w p) (i : ι) :
    Settled (p.progs i) ∨ ∃ record, Publishes record (p.progs i) := by
  rcases hp.records with ⟨-, hall⟩ | ⟨k, before, last, -, -, hk, hothers⟩
  · exact Or.inl (hall i)
  · by_cases hik : i = k
    · exact Or.inr ⟨last.record, hik ▸ hk⟩
    · exact Or.inl (hothers i hik)

/-- An operation that neither changes the database nor publishes a record. -/
theorem Published.of_quiet (hp : Published w p)
    (hdb : (handle noFaults op p.state.1).2.node.db = p.state.1.node.db)
    (hpub : (handle noFaults op p.state.1).2.node.published = p.state.1.node.published)
    (hop : changesOf [(i, (⟨op, (handle noFaults op p.state.1).1⟩ : Event))] = [])
    (hsettled : Settled (p.progs i) → Settled (next (handle noFaults op p.state.1).1))
    (hpublishes : ∀ record, Publishes record (p.progs i) →
      Publishes record (next (handle noFaults op p.state.1).1)) :
    Published w (performed noFaults p i op next) := by
  have hchanges : changesOf (performed noFaults p i op next).state.2 = changesOf p.state.2 := by
    rw [performed, changesOf_append_singleton, hop, List.append_nil]
  have hkeep : ∀ j, Settled (p.progs j) → Settled ((performed noFaults p i op next).progs j) := by
    intro j hj
    by_cases hji : j = i
    · subst hji
      rw [performed_progs_self]
      exact hsettled hj
    · rw [performed_progs_of_ne noFaults p hji]
      exact hj
  refine ⟨by rw [hchanges]; exact hdb.trans hp.db, ?_⟩
  rw [hchanges]
  rcases hp.records with ⟨hrecords, hall⟩ | ⟨k, before, last, hlast, hrecords, hk, hothers⟩
  · exact Or.inl ⟨hpub.trans hrecords, fun j => hkeep j (hall j)⟩
  · refine Or.inr ⟨k, before, last, hlast, hpub.trans hrecords, ?_, fun j hj =>
      hkeep j (hothers j hj)⟩
    by_cases hki : k = i
    · subst hki
      rw [performed_progs_self]
      exact hpublishes _ hk
    · rw [performed_progs_of_ne noFaults p hki]
      exact hk

/-- A change that is made while no other one has still to be published. -/
theorem Published.of_change (hp : Published w p) (hall : ∀ j, Settled (p.progs j)) {change : Change}
    (hdb : (handle noFaults op p.state.1).2.node.db = change.apply p.state.1.node.db)
    (hpub : (handle noFaults op p.state.1).2.node.published = p.state.1.node.published)
    (hop : changesOf [(i, (⟨op, (handle noFaults op p.state.1).1⟩ : Event))] = [change])
    (hrecords : p.state.1.node.published =
      w.node.published ++ (changesOf p.state.2).map Change.record)
    (hnext : Publishes change.record (next (handle noFaults op p.state.1).1)) :
    Published w (performed noFaults p i op next) := by
  have hchanges : changesOf (performed noFaults p i op next).state.2 =
      changesOf p.state.2 ++ [change] := by
    rw [performed, changesOf_append_singleton, hop]
  refine ⟨?_, Or.inr ⟨i, _, change, hchanges, hpub.trans hrecords, ?_, fun j hj => ?_⟩⟩
  · rw [hchanges, Change.applyAll_append, ← hp.db]
    exact hdb
  · rw [performed_progs_self]
    exact hnext
  · rw [performed_progs_of_ne noFaults p hj]
    exact hall j

omit [HashOrder] [DecidableEq ι] in
/-- A record that has still to be published belongs to a request whose next operation no
change may overtake. -/
theorem Publishes.next? {record : Bytes} {prog : CoreM α} (h : Publishes record prog) :
    ∃ op, prog.next? = some op ∧ (∀ key value, (Op.put key value).overtakes op = true) ∧
      ∀ key, (Op.delete key).overtakes op = true := by
  cases prog with
  | pure a => exact h.elim
  | throw e => exact h.elim
  | call op next =>
    refine ⟨op, rfl, ?_⟩
    rcases h with ⟨rfl, -⟩ | ⟨hop, -⟩
    · exact ⟨fun _ _ => rfl, fun _ => rfl⟩
    · cases op with
      | putCached key value => exact ⟨fun _ _ => rfl, fun _ => rfl⟩
      | lock m => cases m <;> first | exact ⟨fun _ _ => rfl, fun _ => rfl⟩ | exact hop.elim
      | _ => exact hop.elim

/-- One operation keeps the records in the order of the changes, if no request changes the
database while another one has still to publish its change. -/
theorem performed_published (hp : Published w p) (halone : ChangesAlone p i)
    (hprog : p.progs i = .call op next) : Published w (performed noFaults p i op next) := by
  have hclass := hp.settled_or i
  have hquiet := @Published.of_quiet _ _ _ _ w p i op next hp
  rw [hprog] at hclass hquiet
  -- nobody has still to publish when a change is made
  have hfree : (∀ op', (∀ key value, (Op.put key value).overtakes op' = true) →
      (∀ key, (Op.delete key).overtakes op' = true) → op.overtakes op' = true) →
      p.state.1.node.published = w.node.published ++ (changesOf p.state.2).map Change.record ∧
        ∀ j, Settled (p.progs j) := by
    intro hop
    rcases hp.records with h | ⟨k, before, last, -, -, hk, -⟩
    · exact h
    · obtain ⟨op', hnext, hput, hdelete⟩ := hk.next?
      have hnot := halone k op (by rw [hprog]; rfl) op' hnext
      rw [hop op' hput hdelete] at hnot
      cases hnot
  cases op with
  | get key =>
    refine hquiet rfl rfl rfl (fun h => ?_) fun record h => ?_
    · rcases h with h | h
      · exact Or.inl (h _)
      · exact h.1.elim
    · rcases h with ⟨h, -⟩ | ⟨h, -⟩
      · cases h
      · exact h.elim
  | putCached key value =>
    refine hquiet rfl rfl rfl (fun h => ?_) fun record h => ?_
    · rcases h with h | h
      · exact h.elim
      · exact h.1.elim
    · rcases h with ⟨h, -⟩ | ⟨-, h⟩
      · cases h
      · exact h _
  | lock m =>
    refine hquiet rfl rfl rfl (fun h => ?_) fun record h => ?_
    · rcases h with h | h
      · exact h.elim
      · exact h.1.elim
    · rcases h with ⟨h, -⟩ | ⟨-, h⟩
      · cases h
      · exact h _
  | unlock m =>
    refine hquiet rfl rfl rfl (fun h => ?_) fun record h => ?_
    · rcases h with h | h
      · exact h.elim
      · exact Or.inr (h.2 _)
    · rcases h with ⟨h, -⟩ | ⟨h, -⟩
      · cases h
      · exact h.elim
  | http call =>
    refine hquiet rfl rfl rfl (fun h => ?_) fun record h => ?_
    · rcases h with h | h
      · exact h.elim
      · exact Or.inr (h.2 _)
    · rcases h with ⟨h, -⟩ | ⟨h, -⟩
      · cases h
      · exact h.elim
  | put key value =>
    obtain ⟨hrecords, hall⟩ := hfree fun op' hput _ => hput key value
    have hnext := hall i
    rw [hprog] at hnext
    rcases hnext with hnext | hnext
    · exact @Published.of_change _ _ _ _ _ _ _ _ _ hp hall (.put key value) rfl rfl rfl hrecords
        hnext
    · exact hnext.1.elim
  | delete key =>
    obtain ⟨hrecords, hall⟩ := hfree fun op' _ hdelete => hdelete key
    have hnext := hall i
    rw [hprog] at hnext
    rcases hnext with hnext | hnext
    · exact @Published.of_change _ _ _ _ _ _ _ _ _ hp hall (.remove key) rfl rfl rfl hrecords hnext
    · exact hnext.1.elim
  | publish data =>
    have hnot : ¬Settled (p.progs i) := by
      rw [hprog]
      rintro (h | h)
      · exact h.elim
      · exact h.1.elim
    rcases hp.records with ⟨-, hall⟩ | ⟨k, before, last, hlast, hrecords, hk, hothers⟩
    · exact absurd (hall i) hnot
    · have hik : i = k := by
        by_contra hne
        exact hnot (hothers i hne)
      subst hik
      rw [hprog] at hk
      rcases hk with ⟨heq, hends⟩ | ⟨h, -⟩
      · cases heq
        have hchanges : changesOf (performed noFaults p i (.publish last.record) next).state.2 =
            changesOf p.state.2 := (changesOf_append_singleton _ _).trans (List.append_nil _)
        have hpublished :
            (performed noFaults p i (.publish last.record) next).state.1.node.published =
              p.state.1.node.published ++ [last.record] := rfl
        refine ⟨by rw [hchanges]; exact hp.db, Or.inl ⟨?_, fun j => ?_⟩⟩
        · rw [hchanges, hlast, hpublished, hrecords, List.map_append, List.append_assoc]
          rfl
        by_cases hji : j = i
        · subst hji
          rw [performed_progs_self]
          exact Or.inr (hends _)
        · rw [performed_progs_of_ne noFaults p hji]
          exact hothers j hji
      · exact h.elim
  | write keys | iterate | getCached key | iterateCached =>
    rcases hclass with (h | h) | ⟨record, ⟨h, -⟩ | ⟨h, -⟩⟩
    · exact h.elim
    · exact h.1.elim
    · cases h
    · exact h.elim

omit [HashOrder] [DecidableEq ι] in
/-- A request that has ended has nothing left to publish. -/
theorem Publishes.not_ended {record : Bytes} {prog : CoreM α} (h : Publishes record prog) :
    prog.outcome = none := by
  cases prog with
  | pure a => exact h.elim
  | throw e => exact h.elim
  | call op next => rfl

/-- What holds of concurrent changes: the records published are those of the changes made,
in the same order. When all requests have ended no record is missing, and a reader that
applies them ends with the value of the writer, for each key on which the two agreed. -/
structure InOrder (w : World) (p : Requests ι α) : Prop where
  order : ∃ records, p.state.1.node.published = w.node.published ++ records ∧
    records <+: (changesOf p.state.2).map Change.record
  complete : (∀ i, (p.progs i).outcome.isSome = true) →
    p.state.1.node.published = w.node.published ++ (changesOf p.state.2).map Change.record
  replayed : (∀ i, (p.progs i).outcome.isSome = true) → ∀ (c : Config) (reader : World) key,
    c.dbOk = true → reader.node.db.find? key = w.node.db.find? key →
      (serveAll c noFaults reader ((p.state.1.node.published.drop w.node.published.length).map
        .qcSave)).node.db.find? key = p.state.1.node.db.find? key

omit [DecidableEq ι] in
theorem Published.inOrder (hp : Published w p) : InOrder w p := by
  have hcomplete : (∀ i, (p.progs i).outcome.isSome = true) → p.state.1.node.published =
      w.node.published ++ (changesOf p.state.2).map Change.record := by
    intro hends
    rcases hp.records with ⟨h, -⟩ | ⟨k, before, last, -, -, hk, -⟩
    · exact h
    · have hend := hends k
      rw [hk.not_ended] at hend
      cases hend
  refine ⟨?_, hcomplete, fun hends c reader key hdb hkey => ?_⟩
  · rcases hp.records with ⟨h, -⟩ | ⟨k, before, last, hlast, h, -, -⟩
    · exact ⟨_, h, List.prefix_refl _⟩
    · exact ⟨_, h, by rw [hlast, List.map_append]; exact List.prefix_append _ _⟩
  · rw [hcomplete hends, List.drop_left, List.map_map, hp.db]
    refine (congrArg (fun db : Store => db.find? key) (serveAll_records hdb _ reader)).trans ?_
    exact Change.find?_applyAll hkey _

/-- If no request changes the database while another one has still to publish its change,
the records are published in the order of the changes. -/
theorem publication_in_order {c : Config} (hwriter : c.writer = true) {requests : ι → Request}
    (hrequests : ∀ i, ChangesKey (requests i)) {schedule : List ι}
    (halone : EachTurnMeets noFaults ChangesAlone (arrived w fun i => serve c (requests i))
      schedule)
    {done : List ι} (hdone : done <+: schedule) :
    InOrder w (interleave noFaults (arrived w fun i => serve c (requests i)) done) := by
  have hstart : Published w (arrived w fun i => serve c (requests i)) :=
    ⟨rfl, Or.inl ⟨(List.append_nil _).symm, fun i =>
      Or.inl (serve_changesOnce hwriter (hrequests i))⟩⟩
  exact (interleave_of_eachTurn (fun p i op next hp halone hprog =>
    performed_published hp halone hprog) hstart halone hdone).inOrder

end

/-- Two texts stored under one key of a writer node. -/
def twoDumps (schedule : List Bool) : Requests Bool Unit :=
  interleave noFaults (arrived (openDB writerOnly OrderedMap.empty) fun i =>
    @serve .insertion writerOnly (.dump (ascii "k") (ascii (if i then "1" else "2")))) schedule

/-- The theorem at two requests, the second of which comes after the first. -/
theorem publication_in_order_two :
    @InOrder Bool Unit .insertion (openDB writerOnly OrderedMap.empty)
      (twoDumps [true, true, true, true, false, false, false, false]) :=
  @publication_in_order Bool .insertion _ (openDB writerOnly OrderedMap.empty) writerOnly rfl
    (fun i => .dump (ascii "k") (ascii (if i then "1" else "2"))) (fun _ => trivial)
    [true, true, true, true, false, false, false, false] (by decide +kernel) _ (List.prefix_refl _)

/-- If the second request changes the key before the first one publishes, the records come
in the other order. -/
theorem not_inOrder_two :
    ¬@InOrder Bool Unit .insertion (openDB writerOnly OrderedMap.empty)
      (twoDumps [true, false, false, false, false, true, true, true]) := by
  have hother :
      ¬(twoDumps [true, false, false, false, false, true, true, true]).state.1.node.published <+:
      (changesOf (twoDumps [true, false, false, false, false, true, true, true]).state.2).map
        (@Change.record .insertion) := by
    decide +kernel
  intro h
  obtain ⟨records, hpublished, horder⟩ := @InOrder.order _ _ .insertion _ _ h
  rw [show records = _ from hpublished.symm] at horder
  exact hother horder

end Quarks
