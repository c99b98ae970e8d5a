import Quarks.Core.Serve

/-!
# The cache and the database

With the cache enabled every stored value also goes into the cache. Nothing ever
leaves the cache, a record from the broker does not reach it, and looking up an
absent key puts the empty string into it. The cache therefore equals the database
in every state of a run as long as no request of the run removes a key that it
finds without storing it again, counts on an absent key, or applies a record that
changes the database.
-/

namespace Quarks

open Basis

section

variable [HashOrder]

/-- The cache holds the keys and values that the database holds. -/
def Coherent (n : Node) : Prop := n.cache = n.db

/-- The keys that the loop of `putAtom` stores under, from this store on, up to the
first pair that raises an exception. -/
def insertedKeys : Store → List RValue → List Bytes
  | _, [] => []
  | db, v :: vs => match pairKey v with
    | .error _ => []
    | .ok key => match insertedValue (db.find? key) v with
      | .error _ => []
      | .ok w => key :: insertedKeys (db.insert key (dump w)) vs

/-- The keys that a body of `atom` makes the database remove. -/
def atomRemoved (db : Store) (x : RValue) : List Bytes :=
  atomKeys x ++ atomMatches (db.eraseAll (atomKeys x)) x

/-- The request leaves the cache equal to the database: it removes no key that is
present, except one that it stores again, it counts on a key that is present, and a
record changes nothing. -/
def KeepsCache (n : Node) : Request → Prop
  | .increment key _ => key ∈ n.db
  | .remove key => key ∉ n.db
  | .removeAll wild win => startsWithStar wild = true ∨ removedKeys n.db wild win = []
  | .removeAtom body => ∀ key ∈ bodyKeys body, key ∉ n.db
  | .atom body => ∀ x, load body = some x → ∀ key ∈ atomRemoved n.db x, key ∈ n.db →
      key ∈ insertedKeys (n.db.eraseAll (atomRemoved n.db x)) (atomPairs x)
  | .qcSave data => ∀ x key value, load data = some x →
      (recordFields x = .ok (key, value, ascii "put") → n.db.find? key = some value) ∧
      (recordFields x = .ok (key, value, ascii "remove") → key ∉ n.db)
  | _ => True

/-- The cache agrees with the database except on some keys. -/
def AgreesExcept (pending : List Bytes) (n : Node) : Prop :=
  ∀ key, key ∉ pending → n.cache.find? key = n.db.find? key

omit [HashOrder] in
theorem coherent_iff_agreesExcept {n : Node} : Coherent n ↔ AgreesExcept [] n := by
  constructor
  · intro h key _
    rw [show n.cache = n.db from h]
  · intro h
    exact OrderedMap.ext_find? fun key => h key (by simp)

section

variable {c : Config}

/-- A stored value reaches the cache too, and the key need no longer be excepted. -/
theorem AgreesExcept.stored (hcache : c.cacheEnabled = true) {pending pending' : List Bytes}
    {n : Node} {key : Bytes} (value : Bytes) (h : AgreesExcept pending n)
    (hpending : ∀ k ∈ pending, k ≠ key → k ∈ pending') :
    AgreesExcept pending' (n.stored c key value) := by
  intro k hk
  simp only [Node.stored, Node.putRequested, hcache, if_true, OrderedMap.find?_insert]
  split
  · rfl
  · next hne => exact h k fun hmem => hk (hpending k hmem hne)

theorem Coherent.stored (hcache : c.cacheEnabled = true) {n : Node} (h : Coherent n)
    (key value : Bytes) : Coherent (n.stored c key value) := by
  rw [coherent_iff_agreesExcept] at h ⊢
  exact h.stored hcache value (by simp)

/-- What is pending while `atom` puts its pairs: keys removed before that the pairs left
will store again. -/
def Pending (vs : List RValue) (n : Node) : Prop :=
  ∃ pending, AgreesExcept pending n ∧ ∀ key ∈ pending, key ∈ insertedKeys n.db vs

theorem coherent_of_pending {n : Node} (h : Pending [] n) : Coherent n := by
  obtain ⟨pending, hagrees, hstored⟩ := h
  rw [coherent_iff_agreesExcept]
  refine fun key _ => hagrees key fun hmem => ?_
  simpa [insertedKeys] using hstored key hmem

theorem Pending.stored (hcache : c.cacheEnabled = true) {v : RValue} {vs : List RValue} {n : Node}
    {key : Bytes} {w : WValue} (h : Pending (v :: vs) n) (hins : Inserts noFaults c n v key w) :
    Pending vs (n.stored c key (dump w)) := by
  obtain ⟨pending, hagrees, hstored⟩ := h
  obtain ⟨-, hkey, found, hfound, hw⟩ := hins
  rw [readsAs_noFaults.mp hfound] at hw
  refine ⟨pending.filter (· ≠ key), hagrees.stored hcache _ ?_, ?_⟩
  · intro k hk hne
    simpa using ⟨hk, hne⟩
  · intro k hk
    obtain ⟨hk, hne⟩ := List.mem_filter.mp hk
    have hmem := hstored k hk
    rw [insertedKeys, hkey] at hmem
    simp only [hw] at hmem
    exact (List.mem_cons.mp hmem).resolve_left (by simpa using hne)

theorem Pending.rejected (hdb : c.dbOk = true) {v : RValue} {vs : List RValue} {n : Node}
    (h : Pending (v :: vs) n) (hrej : Rejects noFaults c n v) : Pending [] n := by
  obtain ⟨pending, hagrees, hstored⟩ := h
  refine ⟨pending, hagrees, fun key hmem => ?_⟩
  have hkeys := hstored key hmem
  unfold insertedKeys at hkeys
  cases hkey : pairKey v with
  | error e => simp [hkey] at hkeys
  | ok k =>
    obtain ⟨found, e, hfound, he⟩ := hrej k hkey
    rw [readsAs_noFaults.mp (hfound.1 hdb)] at he
    simp [hkey, he] at hkeys

variable (hdb : c.dbOk = true) (hcache : c.cacheEnabled = true)
include hdb hcache

theorem atom_keepsCache {body : Bytes} {m : Node} (hm : Coherent m)
    (hsafe : KeepsCache m (.atom body)) :
    DataTriple noFaults (fun n => n = m) (atom c body) (fun _ => Coherent) Coherent := by
  have hopen : ¬(c.dbOk = false ∨ Fails noFaults) := by
    simp [hdb, not_fails_noFaults]
  cases hx : load body with
  | none =>
    unfold atom
    rw [hx]
    exact DataTriple.pure (by rintro n rfl; exact hm)
  | some x =>
    have hload : ∀ x', load body = some x' → x' = x := fun x' h => by simpa [hx] using h.symm
    refine (atom_triple c (P := fun keys n => n.cache = m.db ∧
      ∃ done, n.db = m.db.eraseAll done ∧ atomKeys x = done ++ keys) (Q := Pending)
      (fun h => by simp [hx] at h) ?_ ?_ ?_ ?_ ?_ ?_ ?_ ?_ ?_).mono (fun _ h => h)
      (fun _ _ => coherent_of_pending) fun _ => coherent_of_pending
    · rintro x' n hx' rfl
      exact ⟨hm, [], rfl, by rw [hload x' hx']; rfl⟩
    · rintro key keys n ⟨hn, done, hdone, hkeys⟩ (habs | habs)
      · refine ⟨hn, done ++ [key], ?_, by simp [hkeys]⟩
        rw [OrderedMap.eraseAll_append, ← hdone]
        exact (OrderedMap.erase_of_not_mem habs).symm
      · exact absurd habs hopen
    · rintro key keys n ⟨hn, done, hdone, hkeys⟩ -
      refine ⟨hn, done ++ [key], ?_, by simp [hkeys]⟩
      rw [OrderedMap.eraseAll_append, ← hdone]
      rfl
    · exact fun h => absurd (Or.inl h) hopen
    · rintro ⟨i, keys, hi⟩
      cases hi
    · rintro x' n hx' ⟨hn, done, hdone, hkeys⟩
      obtain rfl := hload x' hx'
      rw [List.append_nil] at hkeys
      subst hkeys
      have hdb' : (n.allErased c (atomMatches n.db x')).db =
          m.db.eraseAll (atomRemoved m.db x') := by
        rw [atomRemoved, OrderedMap.eraseAll_append, ← hdone]
        rfl
      refine ⟨(atomRemoved m.db x').filter (· ∈ m.db), ?_, ?_⟩
      · intro key hkey
        rw [hdb', OrderedMap.find?_eraseAll]
        have hcache' : (n.allErased c (atomMatches n.db x')).cache = m.db := by
          rw [← hn]
          exact Node.allRemoveRequested_cache c _ n
        rw [hcache']
        split
        · next hmem => exact OrderedMap.find?_of_not_mem fun h => hkey (by simp [hmem, h])
        · rfl
      · intro key hkey
        obtain ⟨hmem, hpres⟩ := List.mem_filter.mp hkey
        rw [hdb']
        exact hsafe x' hx key hmem (by simpa using hpres)
    · exact fun v vs n hn hrej => hn.rejected hdb hrej
    · exact fun h => absurd h hopen
    · exact fun v vs n key w hn hins => hn.stored hcache hins

/-- A request that meets its condition leaves the cache equal to the database. -/
theorem step_keepsCache {w : World} {r : Request} (hw : Coherent w.node)
    (hsafe : KeepsCache w.node r) : Coherent (step c noFaults w r).node := by
  have hopen : ¬(c.dbOk = false ∨ Fails noFaults) := by
    simp [hdb, not_fails_noFaults]
  have hput : ∀ n key value, Coherent n → Coherent (n.stored c key value) :=
    fun n key value hn => hn.stored hcache key value
  suffices h : DataTriple noFaults (fun n => n = w.node) (serve c r) (fun _ => Coherent) Coherent
    from step_of_triple c h rfl
  cases r with
  | put body | post body =>
    exact DataTriple.discard ((insert_triple c (fun _ h => h)
      fun n _ key v hn _ _ => hput n key _ hn).pre (by rintro n rfl; exact hw))
  | dump key value =>
    exact DataTriple.discard ((dumpPair_triple c (fun _ h => h)
      fun n hn => hput n key value hn).pre (by rintro n rfl; exact hw))
  | putAtom body =>
    exact DataTriple.discard ((putAtom_triple c (P := fun _ => Coherent) (fun _ _ _ h _ => h)
      (fun _ _ _ _ h => h) fun _ _ n key v hn _ => hput n key _ hn).pre
        (by rintro n rfl; exact hw))
  | makePair body uuid =>
    exact DataTriple.discard ((makePair_triple c (fun _ h => h)
      fun n key value hn _ => hput n key value hn).pre (by rintro n rfl; exact hw))
  | increment key stepBy =>
    refine DataTriple.discard ((increment_triple c (I := fun n => n = w.node) ?_ ?_ ?_))
    · rintro n rfl
      exact hw
    · rintro - n rfl habs
      rw [show w.node.cache = w.node.db from hw] at habs
      exact absurd hsafe habs
    · rintro n val z rfl - -
      exact hput _ key _ hw
  | incrementValue body =>
    exact DataTriple.discard ((incrementValue_triple c (fun _ h => h)
      fun n _ key _ v _ hn _ _ _ _ => hput n key _ hn).pre (by rintro n rfl; exact hw))
  | geoput body =>
    exact DataTriple.discard ((geoput_triple c (fun _ h => h)
      fun n _ key v hn _ _ => hput n key _ hn).pre (by rintro n rfl; exact hw))
  | message data from? timestamp =>
    exact (onMessage_triple c (fun _ h => h)
      fun n _ key v hn _ _ => hput n key _ hn).pre (by rintro n rfl; exact hw)
  | remove key =>
    refine DataTriple.discard (remove_triple c ?_ ?_)
    · rintro n rfl -
      exact hw
    · rintro n rfl hmem
      exact absurd hmem hsafe
  | removeAll wild win =>
    refine DataTriple.discard (removeAll_triple c ?_ ?_ ?_)
    · rintro - n rfl
      exact hw
    · rintro ⟨i, keys, hi⟩
      cases hi
    · rintro n rfl hstar
      have hnone : removedKeys w.node.db wild win = [] := hsafe.resolve_left (by simp [hstar])
      rw [hnone]
      exact hw
  | removeAtom body =>
    refine DataTriple.discard ((removeAtom_triple c (P := fun keys n => n = w.node ∧
      ∀ key ∈ keys, key ∉ w.node.db) ?_ ?_).mono ?_ ?_ fun _ h => h)
    · rintro key keys n ⟨rfl, hkeys⟩ -
      exact ⟨rfl, fun k hk => hkeys k (List.mem_cons_of_mem key hk)⟩
    · rintro key keys n ⟨rfl, hkeys⟩ hmem
      exact absurd hmem (hkeys key List.mem_cons_self)
    · rintro n rfl
      exact ⟨rfl, hsafe⟩
    · rintro _ n ⟨⟨rfl, -⟩, -⟩
      exact hw
  | atom body => exact DataTriple.discard (atom_keepsCache hdb hcache hw hsafe)
  | qcSave data =>
    refine qcSave_triple c ?_ ?_ ?_
    · rintro n rfl
      exact hw
    · rintro n x key value rfl hx hfields
      have hsame := (hsafe x key value hx).1 hfields
      rw [OrderedMap.insert_of_find? hsame]
      exact hw
    · rintro n x key value rfl hx hfields
      have habs := (hsafe x key value hx).2 hfields
      rw [OrderedMap.erase_of_not_mem habs]
      exact hw

omit [HashOrder] hdb in
/-- `openDB` copies the database into the cache. -/
theorem openDB_coherent (db : Store) : Coherent (openDB c db).node := by
  simp only [Coherent, openDB, hcache, if_true, OrderedMap.forward_seekToFirst]
  exact OrderedMap.insertAll_entries db

/-- In every state that a run of such requests reaches, the cache holds what the
database holds. -/
theorem cache_eq_db (db : Store) {rs : List Request}
    (hrs : EachMeets KeepsCache c noFaults (openDB c db) rs) {done : List Request}
    (hdone : done <+: rs) :
    (serveAll c noFaults (openDB c db) done).node.cache =
      (serveAll c noFaults (openDB c db) done).node.db :=
  serveAll_of_eachMeets c (I := Coherent) (fun _ _ hw hr => step_keepsCache hdb hcache hw hr)
    (openDB_coherent hcache db) hrs hdone

end

end

/-- A cached process that starts with an empty database, after some requests. -/
def cachedRun (rs : List Request) : Node :=
  (@serveAll .insertion cachedOnly noFaults (openDB cachedOnly OrderedMap.empty) rs).node

/-- The theorem at a run that stores a number, adds to it and removes another key. -/
theorem cache_eq_db_counter :
    (cachedRun [.dump (ascii "k") (ascii "1"), .increment (ascii "k") 2,
      .remove (ascii "other")]).cache =
    (cachedRun [.dump (ascii "k") (ascii "1"), .increment (ascii "k") 2,
      .remove (ascii "other")]).db := by
  have hmem : ascii "k" ∈ (cachedRun [.dump (ascii "k") (ascii "1")]).db := by decide +kernel
  have habs : ascii "other" ∉ (cachedRun [.dump (ascii "k") (ascii "1"),
      .increment (ascii "k") 2]).db := by decide +kernel
  have hrs : @EachMeets .insertion (@KeepsCache .insertion) cachedOnly noFaults
      (openDB cachedOnly OrderedMap.empty) [.dump (ascii "k") (ascii "1"),
        .increment (ascii "k") 2, .remove (ascii "other")] := ⟨trivial, hmem, habs, trivial⟩
  exact @cache_eq_db .insertion cachedOnly rfl rfl OrderedMap.empty _ hrs _ (List.prefix_refl _)

/-- Removing a key removes it from the database but not from the cache. -/
theorem cache_ne_db_after_remove :
    (cachedRun [.dump (ascii "k") (ascii "1"), .remove (ascii "k")]).cache ≠
      (cachedRun [.dump (ascii "k") (ascii "1"), .remove (ascii "k")]).db := by
  intro h
  have hentries := congrArg OrderedMap.entries h
  revert hentries
  decide +kernel

end Quarks
