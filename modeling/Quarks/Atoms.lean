import Quarks.AtomLists
import Quarks.PrefixSeek

/-!
# Atoms

An atom is a list of operations in one request: first the removes, then a pattern whose
keys are removed, then the puts. A request whose operations can all be applied has the
effect of applying them in this order. Otherwise the operations before the first one that
cannot be applied remain. The number of removed keys that is reported is that of the
pattern alone, if there is one.
-/

namespace Quarks

open Basis

/-- The functions that take an atom. -/
inductive AtomCall
  | atom | putAtom | removeAtom

section

variable [HashOrder]

namespace AtomCall

/-- The call of a function with a body. -/
def run (c : Config) : AtomCall → Bytes → CoreM (Bool × Bytes)
  | .atom => Quarks.atom c
  | .putAtom => Quarks.putAtom c
  | .removeAtom => Quarks.removeAtom c

/-- The operations that a body asks for, if each of its lists is a container and its
pattern a string. -/
def batch : AtomCall → Bytes → Option Batch
  | .atom, body => do
    let x ← load body
    let removes ← fieldElements x (ascii "remove")
    let pattern ← (atomPattern x).toOption
    let puts ← fieldElements x (ascii "put")
    return ⟨removes, pattern, puts⟩
  | .putAtom, body => (bodyElements body).map fun puts => ⟨[], none, puts⟩
  | .removeAtom, body => (bodyElements body).map fun removes => ⟨removes, none, []⟩

/-- The answer that reports these numbers. -/
def report (call : AtomCall) (b : Batch) (removed put : ℤ) : Bytes :=
  match call with
  | .atom => ascii "\x7b\"result\":true,\"affected\":[" ++ removedText b.pattern removed ++
      ascii "," ++ putText put ++ ascii "]\x7d"
  | .putAtom => putText put
  | .removeAtom => removedText b.pattern removed

end AtomCall

/-- A call that returns true has applied all operations and reports how many keys were
removed and put. Any other call, also one that raises an exception, leaves the database
as it was. -/
def AllOrNothing (c : Config) (call : AtomCall) (body : Bytes) (w : World) : Prop :=
  (∀ out, answer noFaults w (call.run c body) = .ok (true, out) →
    ∃ b removed put, call.batch body = some b ∧
      b.apply w.node.db =
        some (((call.run c body).run (handle noFaults) w).2.node.db, removed, put) ∧
      out = call.report b removed put) ∧
  ((∀ out, answer noFaults w (call.run c body) ≠ .ok (true, out)) →
    ((call.run c body).run (handle noFaults) w).2.node.db = w.node.db)

/-! ## When it works -/

/-- Every operation that the body asks for can be applied. -/
def Applies (call : AtomCall) (body : Bytes) (db : Store) : Prop :=
  ∃ b, call.batch body = some b ∧ (b.apply db).isSome = true

/-- If there is a pattern, none of the keys that are to be removed before it is there, and
the number of keys that match it fits in an `int`. -/
def CountsOnce (call : AtomCall) (body : Bytes) (db : Store) : Prop :=
  ∀ b, call.batch body = some b → b.pattern.isSome = true →
    (∀ v ∈ b.removes, ∀ key, v.s = .ok key → key ∉ db) ∧
      (matchedKeys db b.pattern).length < 2 ^ 31

/-- The database after the operations up to the first one that cannot be applied; after a
list of keys with such an element the pattern is still applied. -/
def attempted (call : AtomCall) (body : Bytes) (db : Store) : Store :=
  match call with
  | .putAtom => putLeading db (bodyPairs body)
  | .removeAtom => db.eraseAll (bodyKeys body)
  | .atom => match load body with
    | none => db
    | some x =>
      let removed := db.eraseAll (atomKeys x)
      putLeading (removed.eraseAll (atomMatches removed x)) (atomPairs x)

variable {c : Config}

/-! ## What the calls do -/

/-- What a call has counted as removed when it succeeds. -/
def counted (b : Batch) (db : Store) : ℤ :=
  let removed := db.eraseAll (leadingStrings b.removes)
  if b.pattern.isSome then int32 (matchedKeys removed b.pattern).length
  else ((db.size - removed.size : ℕ) : ℤ)

/-- The body of `atom` asks for these operations. -/
theorem batch_atom_eq_some {body : Bytes} {b : Batch} :
    AtomCall.batch .atom body = some b ↔ ∃ x, load body = some x ∧
      fieldElements x (ascii "remove") = some b.removes ∧
      atomPattern x = .ok b.pattern ∧ fieldElements x (ascii "put") = some b.puts := by
  have hok : ∀ (y : Except Failure (Option Bytes)) pattern,
      y.toOption = some pattern ↔ y = .ok pattern := by
    rintro (e | pattern') pattern <;> simp [Except.toOption]
  obtain ⟨removes, pattern, puts⟩ := b
  simp only [AtomCall.batch, Option.bind_eq_bind, Option.bind_eq_some_iff, hok]
  constructor
  · rintro ⟨x, hx, removes', hremoves, pattern', hpattern, puts', hputs, ⟨⟩⟩
    exact ⟨x, hx, hremoves, hpattern, hputs⟩
  · rintro ⟨x, hx, hremoves, hpattern, hputs⟩
    exact ⟨x, hx, removes, hremoves, pattern, hpattern, puts, hputs, rfl⟩

/-- All operations can be applied if the keys are strings and the pairs can be put. -/
theorem apply_eq_some {b : Batch} {db db' : Store} {removed put : ℕ} :
    b.apply db = some (db', removed, put) ↔ (b.removes.all fun v => v.s.isOk) = true ∧
      putAll (b.afterRemoves (leadingStrings b.removes) db) b.puts = .ok db' ∧
      removed = db.size - (b.afterRemoves (leadingStrings b.removes) db).size ∧
      put = b.puts.length := by
  unfold Batch.apply
  rw [mapM_s]
  cases b.removes.all fun v => v.s.isOk with
  | false => simp
  | true =>
    rcases hput : putAll (b.afterRemoves (leadingStrings b.removes) db) b.puts with e | db'' <;>
      simp [hput, Except.toOption, eq_comm]

theorem all_removable {x : RValue} {keys : Option Bytes}
    (hkeys : dumpedField x (ascii "remove") = .ok keys) : keys.all removable =
      ((fieldElements x (ascii "remove")).map fun vs => vs.all fun v => v.s.isOk).getD false := by
  unfold fieldElements
  rw [hkeys]
  cases keys with
  | none => rfl
  | some body => exact removable_eq body

/-- The pairs that `atom` comes to put. -/
theorem atomPairs_eq {x : RValue} {keys pattern : Option Bytes}
    (hkeys : dumpedField x (ascii "remove") = .ok keys) (hpattern : atomPattern x = .ok pattern) :
    atomPairs x =
      if keys.all removable = true then (fieldElements x (ascii "put")).getD [] else [] := by
  unfold atomPairs fieldElements
  rw [hkeys, hpattern]
  rcases dumpedField x (ascii "put") with e | _ | body
  · simp [Except.toOption]
  · simp [Except.toOption]
  · change (if keys.all removable = true then bodyPairs body else []) = _
    rw [bodyPairs_eq]
    rfl

theorem atomMatches_eq {x : RValue} {keys pattern : Option Bytes}
    (hkeys : dumpedField x (ascii "remove") = .ok keys) (hpattern : atomPattern x = .ok pattern)
    (db : Store) : atomMatches db x = matchedKeys db pattern := by
  cases pattern <;> simp [atomMatches, hkeys, hpattern, matchedKeys, patternKeys]

/-- `atom` applies the operations of a body if all of them can be applied. -/
theorem atom_leaves (hdb : c.dbOk = true) {body : Bytes} {b : Batch} {db db' : Store}
    {removed put : ℕ} (hb : AtomCall.batch .atom body = some b)
    (happly : b.apply db = some (db', removed, put)) :
    Leaves db (atom c body) (.ok (true, AtomCall.report .atom b (counted b db) put)) db' := by
  obtain ⟨x, hx, hremoves, hpattern, hputs⟩ := batch_atom_eq_some.mp hb
  obtain ⟨hall, hput, -, rfl⟩ := apply_eq_some.mp happly
  cases hkeys : dumpedField x (ascii "remove") with
  | error e =>
    rw [fieldElements, hkeys] at hremoves
    cases hremoves
  | ok keys =>
    have hremovable : keys.all removable = true := by
      rw [all_removable hkeys, hremoves]
      exact hall
    obtain ⟨text, hremove, htext⟩ := atomRemove_leaves hdb hkeys db
    have htext := htext hremovable
    rw [hremovable, atomKeys_eq, hremoves, Option.getD_some] at hremove
    rw [atomKeys_eq, hremoves, Option.getD_some] at htext
    have hmatch := atomRemoveAll_leaves hdb text b.pattern
      (db.eraseAll (leadingStrings b.removes))
    have hfinish := atomFinish_leaves hdb hputs hput
    rw [atom_eq hx, hkeys, hpattern]
    apply Leaves.bind (Leaves.pure keys db)
    apply Leaves.bind hremove
    apply Leaves.bind (Leaves.pure b.pattern _)
    apply Leaves.bind hmatch
    have hreport : (if b.pattern.isSome then removedText b.pattern
        (int32 (matchedKeys (db.eraseAll (leadingStrings b.removes)) b.pattern).length)
        else text) = removedText b.pattern (counted b db) := by
      unfold counted
      cases b.pattern with
      | none => exact htext
      | some wild => simp only [Option.isSome_some, if_true]
    rw [hreport]
    exact hfinish (removedText b.pattern (counted b db))

/-- A body with an operation that cannot be applied makes `atom` return false or raise an
exception. -/
theorem atom_stops (hdb : c.dbOk = true) {body : Bytes} {db : Store}
    (h : ¬Applies .atom body db) :
    ∃ r, Leaves db (atom c body) r (attempted .atom body db) ∧ ∀ out, r ≠ .ok (true, out) := by
  unfold attempted
  cases hx : load body with
  | none =>
    unfold atom
    rw [hx]
    exact ⟨_, Leaves.pure _ db, fun _ h => by cases h⟩
  | some x =>
    rw [atom_eq hx]
    cases hkeys : dumpedField x (ascii "remove") with
    | error e =>
      have hkeys' : atomKeys x = [] := by simp [atomKeys, hkeys]
      have hmatches : atomMatches db x = [] := by simp [atomMatches, hkeys]
      have hpairs : atomPairs x = [] := by simp [atomPairs, hkeys]
      simp only [hkeys', OrderedMap.eraseAll_nil, hmatches, hpairs]
      exact ⟨_, Leaves.bind_error (Leaves.throw e db), fun _ h => by cases h⟩
    | ok keys =>
      obtain ⟨text, hremove, -⟩ := atomRemove_leaves hdb hkeys db
      cases hpattern : atomPattern x with
      | error e =>
        have hmatches : ∀ db, atomMatches db x = [] := by simp [atomMatches, hkeys, hpattern]
        have hpairs : atomPairs x = [] := by simp [atomPairs, hkeys, hpattern]
        simp only [hmatches, OrderedMap.eraseAll_nil, hpairs]
        exact ⟨_, Leaves.bind (Leaves.pure keys db)
          (Leaves.bind hremove (Leaves.bind_error (Leaves.throw e _))), fun _ h => by cases h⟩
      | ok pattern =>
        have hmatch := atomRemoveAll_leaves hdb text pattern (db.eraseAll (atomKeys x))
        simp only [atomMatches_eq hkeys hpattern, atomPairs_eq hkeys hpattern]
        suffices hend : ∃ r, Leaves ((db.eraseAll (atomKeys x)).eraseAll
            (matchedKeys (db.eraseAll (atomKeys x)) pattern))
            (atomFinish c x (keys.all removable) _) r _ ∧ ∀ out, r ≠ .ok (true, out) by
          obtain ⟨r, hfinish, hr⟩ := hend
          exact ⟨r, Leaves.bind (Leaves.pure keys db) (Leaves.bind hremove
            (Leaves.bind (Leaves.pure pattern _) (Leaves.bind hmatch hfinish))), hr⟩
        cases hall : keys.all removable with
        | false => exact ⟨_, Leaves.pure _ _, fun _ h => by cases h⟩
        | true =>
          rw [if_pos rfl]
          apply atomFinish_stops hdb
          intro xs db' hputs hput
          rw [all_removable hkeys] at hall
          cases hremoves : fieldElements x (ascii "remove") with
          | none =>
            rw [hremoves] at hall
            cases hall
          | some removes =>
            rw [hremoves] at hall
            rw [atomKeys_eq, hremoves, Option.getD_some] at hput
            apply h
            refine ⟨⟨removes, pattern, xs⟩,
              batch_atom_eq_some.mpr ⟨x, hx, hremoves, hpattern, hputs⟩, ?_⟩
            exact Option.isSome_iff_exists.mpr ⟨_, apply_eq_some.mpr ⟨hall, hput, rfl, rfl⟩⟩

/-- A call whose operations can all be applied applies them. -/
theorem run_leaves (hdb : c.dbOk = true) {call : AtomCall} {body : Bytes} {b : Batch}
    {db db' : Store} {removed put : ℕ} (hb : call.batch body = some b)
    (happly : b.apply db = some (db', removed, put)) :
    Leaves db (call.run c body) (.ok (true, call.report b (counted b db) put)) db' := by
  cases call with
  | atom => exact atom_leaves hdb hb happly
  | putAtom =>
    obtain ⟨xs, hbody, rfl⟩ := Option.map_eq_some_iff.mp hb
    obtain ⟨-, hput, -, rfl⟩ := apply_eq_some.mp happly
    change putAll db xs = .ok db' at hput
    obtain ⟨r, hleaves, hok, -⟩ := putAtom_leaves hdb body db
    rwa [hok xs db' hbody hput, bodyPairs_eq, hbody, Option.getD_some, putLeading_eq hput]
      at hleaves
  | removeAtom =>
    obtain ⟨vs, hbody, rfl⟩ := Option.map_eq_some_iff.mp hb
    obtain ⟨hall, hput, -, rfl⟩ := apply_eq_some.mp happly
    obtain ⟨text, hleaves, htext⟩ := removeAtom_leaves hdb body db
    have hremovable : removable body = true := by
      rw [removable_eq, hbody]
      exact hall
    rw [hremovable, htext hremovable, bodyKeys, bodyPairs_eq, hbody] at hleaves
    cases hput
    exact hleaves

/-- Any other call returns false or raises an exception. -/
theorem run_stops (hdb : c.dbOk = true) {call : AtomCall} {body : Bytes} {db : Store}
    (h : ¬Applies call body db) :
    ∃ r, Leaves db (call.run c body) r (attempted call body db) ∧ ∀ out, r ≠ .ok (true, out) := by
  cases call with
  | atom => exact atom_stops hdb h
  | putAtom =>
    obtain ⟨r, hleaves, -, hfail⟩ := putAtom_leaves hdb body db
    refine ⟨r, hleaves, hfail ?_⟩
    intro xs db' hbody hput
    apply h
    refine ⟨⟨[], none, xs⟩, by simp [AtomCall.batch, hbody], ?_⟩
    exact Option.isSome_iff_exists.mpr ⟨_, apply_eq_some.mpr ⟨rfl, hput, rfl, rfl⟩⟩
  | removeAtom =>
    obtain ⟨text, hleaves, -⟩ := removeAtom_leaves hdb body db
    refine ⟨_, hleaves, ?_⟩
    intro out hout
    apply h
    have hremovable : removable body = true := congrArg Prod.fst (Except.ok.inj hout)
    rw [removable_eq] at hremovable
    cases hbody : bodyElements body with
    | none =>
      rw [hbody] at hremovable
      cases hremovable
    | some vs =>
      rw [hbody] at hremovable
      refine ⟨⟨vs, none, []⟩, by simp [AtomCall.batch, hbody], ?_⟩
      exact Option.isSome_iff_exists.mpr ⟨_, apply_eq_some.mpr ⟨hremovable, rfl, rfl, rfl⟩⟩

/-! ## The counts -/

omit [HashOrder] in
/-- The keys of a pattern are keys of the database, each once. -/
theorem matchedKeys_sublist (db : Store) (pattern : Option Bytes) :
    (matchedKeys db pattern).Sublist db.keys := by
  cases pattern with
  | none => exact List.nil_sublist _
  | some wild =>
    change (patternKeys db wild).Sublist db.keys
    unfold patternKeys
    split
    · exact List.nil_sublist _
    · exact ((listed_sublist db wild _).trans (matching_sublist db wild)).map Prod.fst

omit [HashOrder] in
/-- Removing the keys of a pattern removes as many keys as there are. -/
theorem size_eraseAll_matchedKeys (db : Store) (pattern : Option Bytes) :
    (db.eraseAll (matchedKeys db pattern)).size + (matchedKeys db pattern).length = db.size := by
  have hsublist := matchedKeys_sublist db pattern
  apply OrderedMap.size_eraseAll_add_length (db.nodup_keys.sublist hsublist)
  intro key hkey
  exact OrderedMap.mem_iff_entries.mpr (List.mem_map.mp (hsublist.mem hkey))

omit [HashOrder] in
/-- The counts agree if and only if every key is counted once. -/
theorem counted_eq_iff {b : Batch} {db : Store} :
    counted b db =
      ((db.size - (b.afterRemoves (leadingStrings b.removes) db).size : ℕ) : ℤ) ↔
    (b.pattern.isSome = true → (∀ key ∈ leadingStrings b.removes, key ∉ db) ∧
      (matchedKeys db b.pattern).length < 2 ^ 31) := by
  have hmatch := size_eraseAll_matchedKeys (db.eraseAll (leadingStrings b.removes)) b.pattern
  have hle := OrderedMap.size_eraseAll_le db (leadingStrings b.removes)
  unfold counted Batch.afterRemoves
  cases hpattern : b.pattern with
  | none => simp [matchedKeys]
  | some wild =>
    rw [hpattern] at hmatch
    simp only [Option.isSome_some, if_true, true_imp_iff]
    constructor
    · intro heq
      have hint := @int32_le
        (matchedKeys (db.eraseAll (leadingStrings b.removes)) (some wild)).length
      have hsize : (db.eraseAll (leadingStrings b.removes)).size = db.size := by omega
      have hkeys := OrderedMap.not_mem_of_size_eraseAll hsize
      rw [OrderedMap.eraseAll_of_not_mem hkeys] at heq hmatch
      exact ⟨hkeys, int32_eq_iff.mp (by omega)⟩
    · rintro ⟨hkeys, hlength⟩
      rw [OrderedMap.eraseAll_of_not_mem hkeys] at hmatch ⊢
      rw [int32_eq_iff.mpr hlength]
      omega

omit [HashOrder] in
/-- The answers with two different numbers of removed keys are different. -/
theorem removedText_inj {pattern : Option Bytes} {z z' : ℤ} :
    removedText pattern z = removedText pattern z' ↔ z = z' := by
  unfold removedText
  rw [List.append_left_inj, List.append_right_inj]
  exact toString_injective.eq_iff

omit [HashOrder] in
/-- The keys of a list are those of its elements that are strings. -/
theorem mem_leadingStrings {vs : List RValue} (hall : (vs.all fun v => v.s.isOk) = true)
    {key : Bytes} : key ∈ leadingStrings vs ↔ ∃ v ∈ vs, v.s = .ok key := by
  induction vs with
  | nil => simp [leadingStrings]
  | cons v vs ih =>
    rw [List.all_cons, Bool.and_eq_true] at hall
    cases hs : v.s with
    | error e =>
      rw [hs] at hall
      cases hall.1
    | ok key' =>
      have hcons : leadingStrings (v :: vs) = key' :: leadingStrings vs := by
        rw [leadingStrings, hs]
      simp [hcons, ih hall.2, hs, eq_comm]

/-- The answer has the right numbers if and only if every key is counted once. -/
theorem report_eq_iff {call : AtomCall} {body : Bytes} {b : Batch} {db db' : Store}
    {removed put : ℕ} (hb : call.batch body = some b)
    (happly : b.apply db = some (db', removed, put)) :
    call.report b (counted b db) put = call.report b removed put ↔ CountsOnce call body db := by
  obtain ⟨hall, -, rfl, -⟩ := apply_eq_some.mp happly
  have hcounts : CountsOnce call body db ↔ counted b db =
      ((db.size - (b.afterRemoves (leadingStrings b.removes) db).size : ℕ) : ℤ) := by
    rw [counted_eq_iff]
    have hkeys : (∀ key ∈ leadingStrings b.removes, key ∉ db) ↔
        ∀ v ∈ b.removes, ∀ key, v.s = .ok key → key ∉ db := by
      simp only [mem_leadingStrings hall, forall_exists_index, and_imp]
      exact ⟨fun h v hv key hs => h key v hv hs, fun h key v hv hs => h v hv key hs⟩
    rw [hkeys]
    constructor
    · exact fun h => h b hb
    · intro h b' hb'
      obtain rfl : b = b' := Option.some.inj (hb.symm.trans hb')
      exact h
  rw [hcounts]
  refine ⟨fun h => ?_, fun h => by rw [h]⟩
  cases call with
  | atom =>
    simp only [AtomCall.report, List.append_left_inj, List.append_right_inj] at h
    exact removedText_inj.mp h
  | putAtom =>
    apply counted_eq_iff.mpr
    obtain ⟨xs, -, rfl⟩ := Option.map_eq_some_iff.mp hb
    intro h
    cases h
  | removeAtom => exact removedText_inj.mp h

/-- A call with operations applies all or nothing, and reports the right numbers, if and
only if all its operations can be applied and, if there is a pattern, are counted once; or
what comes before the first one that cannot be applied has no effect on the database. -/
theorem atoms_all_or_nothing (hdb : c.dbOk = true) (call : AtomCall) (body : Bytes) (w : World) :
    AllOrNothing c call body w ↔
      Applies call body w.node.db ∧ CountsOnce call body w.node.db ∨
        ¬Applies call body w.node.db ∧ attempted call body w.node.db = w.node.db := by
  unfold AllOrNothing answer
  by_cases happlies : Applies call body w.node.db
  · obtain ⟨b, hb, happly⟩ := id happlies
    obtain ⟨⟨db', removed, put⟩, happly⟩ := Option.isSome_iff_exists.mp happly
    obtain ⟨w', hrun, rfl⟩ := run_leaves hdb hb happly w rfl
    simp only [hrun, happlies, true_and, not_true_eq_false, false_and, or_false,
      ← report_eq_iff hb happly]
    constructor
    · rintro ⟨hreport, -⟩
      obtain ⟨b', removed', put', hb', happly', hout⟩ := hreport _ rfl
      obtain rfl : b = b' := Option.some.inj (hb.symm.trans hb')
      rw [happly] at happly'
      cases happly'
      exact hout
    · intro hreport
      refine ⟨?_, fun h => absurd rfl (h _)⟩
      rintro out ⟨⟩
      exact ⟨b, removed, put, hb, happly, hreport⟩
  · obtain ⟨r, hleaves, hr⟩ := run_stops hdb happlies
    obtain ⟨w', hrun, hw'⟩ := hleaves w rfl
    simp only [hrun, happlies, false_and, not_false_eq_true, true_and, false_or]
    constructor
    · exact fun h => hw'.symm.trans (h.2 hr)
    · exact fun h => ⟨fun out hout => absurd hout (hr out), fun _ => hw'.trans h⟩

end

/-- A process without a cache whose database holds a number under the key `a`. -/
def holdsOne : World := openDB uncachedOnly (OrderedMap.empty.insert (ascii "a") (ascii "1"))

/-- A body that removes the key `a` and puts the key `b`. -/
def removePutBody : Bytes :=
  ascii "\x7b\"remove\":[\"a\"],\"put\":[\x7b\"key\":\"b\",\"value\":2\x7d]\x7d"

/-- The theorem at a body that removes a key and puts another one. -/
theorem atoms_all_or_nothing_removePut :
    @AllOrNothing .insertion uncachedOnly .atom removePutBody holdsOne := by
  have happlies : ((@AtomCall.batch .insertion .atom removePutBody).bind fun b =>
      @Batch.apply .insertion b holdsOne.node.db).isSome = true := by decide +kernel
  have hpattern : ((@AtomCall.batch .insertion .atom removePutBody).all fun b =>
      b.pattern.isNone) = true := by decide +kernel
  apply (@atoms_all_or_nothing .insertion uncachedOnly rfl .atom removePutBody holdsOne).mpr
  left
  constructor
  · obtain ⟨r, hr⟩ := Option.isSome_iff_exists.mp happlies
    obtain ⟨b, hb, happly⟩ := Option.bind_eq_some_iff.mp hr
    exact ⟨b, hb, by rw [happly]; rfl⟩
  · intro b hb hsome
    rw [hb, Option.all_some, Option.isNone_iff_eq_none] at hpattern
    rw [hpattern] at hsome
    cases hsome

/-- A list of a key and a number: the key is removed before the number is found to be no
string, and the call returns false. -/
theorem not_allOrNothing_number :
    ¬@AllOrNothing .insertion uncachedOnly .removeAtom (ascii "[\"a\",1]") holdsOne := by
  intro h
  have hanswer : (answer noFaults holdsOne (@AtomCall.run .insertion uncachedOnly .removeAtom
      (ascii "[\"a\",1]"))).toOption.map Prod.fst = some false := by decide +kernel
  have hdb := h.2 fun out hout => by rw [hout] at hanswer; cases hanswer
  have hfind := congrArg (fun db => db.find? (ascii "a")) hdb
  revert hfind
  decide +kernel

end Quarks
