import Quarks.CacheCoherence
import Quarks.DatabaseEffect
import Quarks.Http.QueryString
import Quarks.MergedPuts
import Quarks.PrefixSeek
import Quarks.Replay

/-!
# The replica behind the logger

A process with a logger sends it an HTTP call for each change of its database. The logger is
a second process: it puts the body of a post to `/putjson` and removes the key in the target
of a call of `/remove`. A put merges where the first process may have replaced, and the calls
are put together without escapes. The databases agree as long as every change is one that
its call carries over.
-/

namespace Quarks

open Basis

section

variable [HashOrder]

/-- The call that tells the logger of a change. -/
def Change.call : Change → HttpCall
  | .put key value => putCall key value
  | .remove key => removeCall key

/-- `route_core_removekey_callback`, without its answer. -/
def removeKeyRoute (c : Config) (target : Bytes) : CoreM Unit :=
  let key := (urlParam (ascii "key") target).getD []
  catchRuntime (if key = [] then return () else discard (remove c key)) (return ())

/-- What the replica does with a call, by the two routes that are called. -/
def answerCall (c : Config) : HttpCall → CoreM Unit
  | .post target body =>
    if urlPath target = ascii "/putjson" then discard (put c body) else return ()
  | .get target => if urlPath target = ascii "/remove" then removeKeyRoute c target else return ()

/-- The replica, which starts with an empty database, after some calls. -/
def replica (c : Config) (calls : List HttpCall) : World :=
  calls.foldl (fun w call => ((answerCall c call).run (handle noFaults) w).2)
    (openDB c OrderedMap.empty)

/-- A process that starts with an empty database, after some requests. -/
def primary (c : Config) (rs : List Request) : World :=
  serveAll c noFaults (openDB c OrderedMap.empty) rs

/-- Once the replica has answered every call of a run it holds what the primary holds. -/
def Converges (c c' : Config) (rs : List Request) : Prop :=
  (replica c' (primary c rs).node.requests).node.db = (primary c rs).node.db

/-! ## Changes that are carried over -/

/-- The byte stands for itself between quotes. -/
def isPlainText (c : UInt8) : Bool := c ≠ 34 && c ≠ 92 && c ≠ 0

/-- The text is printed again as it stands when it has been read, and also when the fields
read have been merged into the object found. -/
def Reprints (found : Option Bytes) (value : Bytes) : Prop :=
  Readable value ∧ dump (parsedValue value) = value ∧
    ∀ text ∈ found, (parsedValue value).keys ≠ [] →
      dump (mergeFields (parsedValue text) (parsedValue value)) = value

/-- The call for the change makes the same change in an equal database. -/
def Carries (db : Store) : Change → Prop
  | .put key value => (∀ c ∈ key, isPlainText c = true) ∧ Reprints (db.find? key) value
  | .remove key => key ≠ [] ∧ ∀ c ∈ key, isPlainQuery c = true

/-- Every value of the database can be read. -/
def AllReadable (db : Store) : Prop := ∀ key value, db.find? key = some value → Readable value

/-- The pairs that are put one after the other, up to one that raises an exception, are
carried over. -/
def CarriesPairs : Store → List RValue → Prop
  | _, [] => True
  | db, v :: vs => ∀ key w, pairKey v = .ok key → insertedValue (db.find? key) v = .ok w →
      Carries db (.put key (dump w)) ∧ CarriesPairs (db.insert key (dump w)) vs

/-- Every change that a request of a client makes is carried over. -/
def CarriesOver (c : Config) (n : Node) : Request → Prop
  | .put body => ∀ x, load body = some x → CarriesPairs n.db [x]
  | .post body => ∀ x, load body = some x → (∀ key, pairKey x = .ok key → key ∉ n.db) →
      CarriesPairs n.db [x]
  | .dump key value => Carries n.db (.put key value)
  | .putAtom body => CarriesPairs n.db (bodyPairs body)
  | .makePair body uuid => ∀ key value, SavesPair body uuid key value →
      Carries n.db (.put key value)
  | .increment key stepBy => ∀ text z, (source c n).find? key = some text → stoi text = .ok z →
      Carries n.db (.put key (toString (int32 (z + stepBy))))
  | .incrementValue body => ∀ x key text w affected, load body = some x → pairKey x = .ok key →
      n.db.find? key = some text → incrementedValue x text = .ok (some (w, affected)) →
      Carries n.db (.put key (dump w))
  | .geoput body => ∀ x key w, load body = some x → geoPair x = .ok (key, w) →
      Carries n.db (.put key (dump w))
  | .message data from? timestamp => ∀ x key w, load data = some x →
      messagePair x from? timestamp = .ok (some (key, w)) → Carries n.db (.put key (dump w))
  | .remove key => key ∈ n.db → Carries n.db (.remove key)
  | .removeAll wild win => startsWithStar wild = false →
      ∀ key ∈ removedKeys n.db wild win, Carries n.db (.remove key)
  | .removeAtom body => ∀ key ∈ bodyKeys body, key ∈ n.db → Carries n.db (.remove key)
  | .atom body => ∀ x, load body = some x →
      (∀ key ∈ atomRemoved n.db x, key ∈ n.db → Carries n.db (.remove key)) ∧
        CarriesPairs (n.db.eraseAll (atomRemoved n.db x)) (atomPairs x)
  | .qcSave _ => False

/-! ## One call -/

omit [HashOrder] in
theorem isPlainText_iff {c : UInt8} : isPlainText c = true ↔ c ≠ 34 ∧ c ≠ 92 ∧ c ≠ 0 := by
  simp [isPlainText, and_assoc]

omit [HashOrder] in
/-- A plain text is read up to the quote behind it. -/
theorem decodeString_of_plain {s : Bytes} (h : ∀ c ∈ s, isPlainText c = true) (rest : Bytes) :
    decodeString (s ++ 34 :: rest) = some (s, rest) := by
  induction s with
  | nil => rfl
  | cons c s ih =>
    obtain ⟨hquote, hslash, -⟩ := isPlainText_iff.mp (h c List.mem_cons_self)
    have ih' := ih fun d hd => h d (List.mem_cons_of_mem c hd)
    rw [List.cons_append, decodeString, if_neg hslash, ih', Option.map_some]
    · exact hquote
    · rintro a b d e t rfl
      exact absurd rfl hslash
    · rintro a t rfl
      exact absurd rfl hslash

omit [HashOrder] in
theorem unescape_of_plain {s : Bytes} (h : ∀ c ∈ s, isPlainText c = true) : unescape s = s := by
  induction s with
  | nil => rfl
  | cons c s ih =>
    obtain ⟨-, hslash, -⟩ := isPlainText_iff.mp (h c List.mem_cons_self)
    have ih' := ih fun d hd => h d (List.mem_cons_of_mem c hd)
    rw [unescape, ih']
    · rintro a b d e t rfl
      exact absurd rfl hslash
    · rintro a t rfl
      exact absurd rfl hslash

/-- A last field with a plain name and a printed value. -/
theorem decodeObject_last {name : Bytes} (hname : ∀ c ∈ name, isPlainText c = true) (v : WValue)
    {fuel : ℕ} (hfuel : 2 * (dump v).length ≤ fuel) :
    decodeObject (fuel + 1) (34 :: (name ++ 34 :: 58 :: (dump v ++ [125]))) =
      some ([(name, reread v)], []) := by
  obtain ⟨c, t, heq, hc⟩ := dump_head v
  have hskip : wsSkip (dump v ++ [125]) = dump v ++ [125] := by
    simpa [heq] using wsSkip_of_startsValue hc _
  have hvalue := rereads v fuel [125] hfuel (endsNumber_cons (by decide) _)
  rw [decodeObject, decodeString_of_plain hname, Option.bind_some]
  simp only [wsSkip_of_ne (c := 58) (by decide), hskip, hvalue, Option.bind_some,
    wsSkip_of_ne (c := 125) (by decide), unescape_of_plain hname]

/-- The body of a call is read as the pair that it was made from. -/
theorem load_postBody {key : Bytes} (hkey : ∀ c ∈ key, isPlainText c = true) (v : WValue) :
    load (postBody key (dump v)) =
      some (.object [(ascii "key", .string key), (ascii "value", reread v)]) := by
  have hname : ∀ c ∈ ascii "key", isPlainText c = true := List.all_eq_true.mp rfl
  have hname' : ∀ c ∈ ascii "value", isPlainText c = true := List.all_eq_true.mp rfl
  have hzero : (0 : UInt8) ∉ postBody key (dump v) := by
    have hkey' : (0 : UInt8) ∉ key := fun h => (isPlainText_iff.mp (hkey 0 h)).2.2 rfl
    simp [postBody, ascii, hkey', zero_not_mem_dump]
  have hbody : postBody key (dump v) = 123 :: 34 :: (ascii "key" ++ 34 :: 58 :: 34 ::
      (key ++ 34 :: 44 :: 32 :: 34 :: (ascii "value" ++ 34 :: 58 :: (dump v ++ [125])))) := by
    simp [postBody, ascii]
  have hblank : ∀ t, wsSkip (32 :: 34 :: t) = 34 :: t := fun t => rfl
  have hfields : ∀ fuel, 2 * (dump v).length ≤ fuel →
      decodeObject (fuel + 2) (34 :: (ascii "key" ++ 34 :: 58 :: 34 :: (key ++ 34 :: 44 :: 32 ::
        34 :: (ascii "value" ++ 34 :: 58 :: (dump v ++ [125]))))) =
        some ([(ascii "key", .string key), (ascii "value", reread v)], []) := by
    intro fuel hfuel
    rw [decodeObject, decodeString_of_plain hname, Option.bind_some]
    simp only [wsSkip_of_ne (c := 58) (by decide), wsSkip_of_ne (c := 34) (by decide)]
    rw [decodeValue, decodeString_of_plain hkey, Option.map_some, Option.bind_some]
    simp only [wsSkip_of_ne (c := 44) (by decide)]
    rw [hblank, decodeObject_last hname' v hfuel, Option.map_some, unescape_of_plain hname]
  have hlength : 2 * (dump v).length + 3 ≤ 2 * (postBody key (dump v)).length + 2 := by
    rw [hbody]
    simp only [List.length_cons, List.length_append]
    omega
  obtain ⟨fuel, hfuel⟩ := Nat.exists_eq_add_of_le' hlength
  rw [load, cstr_eq_self hzero, parse, hfuel, hbody, wsSkip_of_ne (by decide), ← Nat.add_assoc,
    decodeValue]
  simp only [wsSkip_of_ne (c := 34) (by decide)]
  split
  · next h => exact absurd (List.cons.inj h).1 (by decide)
  · rw [hfields _ (by omega)]
    rfl

omit [HashOrder] in
/-- The key and the value of a pair with these two fields. -/
theorem pair_fields (key : Bytes) (x : RValue) :
    pairKey (.object [(ascii "key", .string key), (ascii "value", x)]) = .ok (unescape key) ∧
    pairValue (.object [(ascii "key", .string key), (ascii "value", x)]) = WValue.ofRValue x := by
  have hne : ascii "value" ≠ ascii "key" := by decide
  simp [pairKey, pairValue, RValue.field, RValue.s, lookup_cons_eq, hne, Except.bind]

/-- In an equal database the call of a change that is carried over makes the same change. -/
theorem answerCall_leaves {c : Config} (hdb : c.dbOk = true) {db : Store} (hread : AllReadable db)
    {change : Change} (h : Carries db change) :
    ∃ r, Leaves db (answerCall c change.call) r (change.apply db) := by
  cases change with
  | put key value =>
    obtain ⟨hkey, hvalue, hprint, hmerge⟩ := h
    have hload : loadValue value = .ok (parsedValue value) := loadValue_of_readable hvalue
    generalize parsedValue value = v at hload hprint hmerge
    subst hprint
    have hbody := load_postBody hkey v
    obtain ⟨hpairKey, hpairValue⟩ := pair_fields key (reread v)
    rw [unescape_of_plain hkey] at hpairKey
    have hreread : WValue.ofRValue (reread v) = .ok v :=
      (congrArg (fun x => (checked x).bind WValue.ofRValue) (load_dump v)).symm.trans hload
    rw [hreread] at hpairValue
    generalize RValue.object [(ascii "key", .string key), (ascii "value", reread v)] = x
      at hbody hpairKey hpairValue
    have hfound : (db.find? key).map loadValue = ((db.find? key).map parsedValue).map .ok := by
      cases hfind : db.find? key with
      | none => rfl
      | some text =>
        exact congrArg some (loadValue_of_readable (hread key text hfind))
    have hmerged : dump (mergedValue ((db.find? key).map parsedValue) v) = dump v := by
      cases hfind : db.find? key with
      | none => rfl
      | some text =>
        simp only [Option.map_some, mergedValue]
        split
        · rfl
        · next hkeys => exact hmerge text hfind hkeys
    have hput : putPair db x = .ok (db.insert key (dump v)) := by
      rw [putPair, hpairKey, Except.bind, insertedValue_eq hpairValue hfound, ← hmerged]
      rfl
    obtain ⟨text, hleaves⟩ := insertKeyValuePair_leaves hdb hput
    have hroute : answerCall c (Change.put key (dump v)).call =
        discard (insertKeyValuePair c false x) := by
      have hput' : put c (postBody key (dump v)) = insertKeyValuePair c false x := by
        unfold put insert
        rw [hbody]
      rw [← hput']
      rfl
    exact ⟨.ok (), hroute ▸ Leaves.bind hleaves (Leaves.pure () _)⟩
  | remove key =>
    obtain ⟨hne, hkey⟩ := h
    have hname : ∀ c ∈ ascii "key", isPlainQuery c = true := List.all_eq_true.mp rfl
    have hpath : ∀ c ∈ [63, 35, 0], c ∉ ascii "/remove" := by
      simp [ascii]
    have hparam : urlParam (ascii "key") (ascii "/remove?key=" ++ key) = some key :=
      urlParam_single (hpath 63 (by simp)) (hpath 35 (by simp)) (hpath 0 (by simp)) hname hkey
    obtain ⟨text, hleaves⟩ := remove_leaves (c := c) hdb key db
    have hroute : answerCall c (Change.remove key).call =
        catchRuntime (discard (remove c key)) (return ()) := by
      have hroute' : answerCall c (Change.remove key).call =
        removeKeyRoute c (ascii "/remove?key=" ++ key) := rfl
      rw [hroute', removeKeyRoute, hparam]
      exact congrArg (fun p => catchRuntime p (return ())) (if_neg hne)
    exact ⟨.ok (), hroute ▸ Leaves.catchRuntime (Leaves.bind hleaves (Leaves.pure () _))⟩

/-! ## The calls of a run -/

/-- The replica that has answered these calls holds this database, and can read all of it. -/
def Mirrored (c' : Config) (db : Store) (calls : List HttpCall) : Prop :=
  (replica c' calls).node.db = db ∧ AllReadable db

/-- The replica that has answered the calls made so far holds what the process holds. -/
def Mirrors (c' : Config) (n : Node) : Prop := Mirrored c' n.db n.requests

section

variable {c c' : Config} {db : Store} {calls : List HttpCall} {n : Node}

/-- A change that is carried over leaves values that can be read. -/
theorem AllReadable.apply (h : AllReadable db) {change : Change} (hcarries : Carries db change) :
    AllReadable (change.apply db) := by
  intro k value hvalue
  cases change with
  | put key value' =>
    rw [Change.apply, OrderedMap.find?_insert] at hvalue
    split at hvalue
    · cases hvalue
      exact hcarries.2.1
    · exact h k value hvalue
  | remove key =>
    rw [Change.apply, OrderedMap.find?_erase] at hvalue
    split at hvalue
    · cases hvalue
    · exact h k value hvalue

/-- The replica follows a change that is carried over. -/
theorem Mirrored.call (hdb : c'.dbOk = true) (h : Mirrored c' db calls) {change : Change}
    (hcarries : Carries db change) :
    Mirrored c' (change.apply db) (calls ++ [change.call]) := by
  refine ⟨?_, h.2.apply hcarries⟩
  obtain ⟨r, hleaves⟩ := answerCall_leaves hdb h.2 hcarries
  obtain ⟨w, hrun, hw⟩ := hleaves (replica c' calls) h.1
  rw [replica, List.foldl_append, List.foldl_cons, List.foldl_nil]
  change ((answerCall c' change.call).run (handle noFaults) (replica c' calls)).2.node.db = _
  rw [hrun]
  exact hw

theorem Mirrored.removes (hdb : c'.dbOk = true) (h : Mirrored c' db calls) {keys : List Bytes}
    (hcarries : ∀ key ∈ keys, Carries db (.remove key)) :
    Mirrored c' (db.eraseAll keys) (calls ++ keys.map fun key => (Change.remove key).call) := by
  induction keys generalizing db calls with
  | nil => simpa using h
  | cons key keys ih =>
    have hfirst := h.call hdb (hcarries key List.mem_cons_self)
    have hrest := ih hfirst fun k hk => hcarries k (List.mem_cons_of_mem key hk)
    rw [List.append_assoc] at hrest
    exact hrest

theorem Mirrors.stored (hlogger : c.logger = true) (hdb : c'.dbOk = true) (h : Mirrors c' n)
    {key value : Bytes} (hcarries : Carries n.db (.put key value)) :
    Mirrors c' (n.stored c key value) := by
  have hcall := Mirrored.call hdb h hcarries
  simpa [Mirrors, Node.stored, Node.putRequested, hlogger, Change.apply, Change.call] using hcall

theorem Mirrors.erased (hlogger : c.logger = true) (hdb : c'.dbOk = true) (h : Mirrors c' n)
    {key : Bytes} (hcarries : Carries n.db (.remove key)) : Mirrors c' (n.erased c key) := by
  have hcall := Mirrored.call hdb h hcarries
  simpa [Mirrors, Node.erased, Node.removeRequested, hlogger, Change.apply, Change.call]
    using hcall

theorem allRemoveRequested_requests (hlogger : c.logger = true) (keys : List Bytes) (n : Node) :
    (n.allRemoveRequested c keys).requests =
      n.requests ++ keys.map fun key => (Change.remove key).call := by
  rw [Node.allRemoveRequested_requests, if_pos hlogger]
  rfl

theorem Mirrors.allErased (hlogger : c.logger = true) (hdb : c'.dbOk = true) (h : Mirrors c' n)
    {keys : List Bytes} (hcarries : ∀ key ∈ keys, Carries n.db (.remove key)) :
    Mirrors c' (n.allErased c keys) := by
  have hcalls := Mirrored.removes hdb h hcarries
  rw [← allRemoveRequested_requests hlogger] at hcalls
  exact hcalls

end

/-! ## Runs -/

/-- A pattern of `atom` only removes keys that are there. -/
theorem mem_of_mem_atomMatches {db : Store} {x : RValue} {key : Bytes}
    (h : key ∈ atomMatches db x) : key ∈ db := by
  unfold atomMatches at h
  split at h
  · split at h
    · cases h
    · next wild _ _ _ =>
      obtain ⟨e, he, rfl⟩ := List.mem_map.mp h
      have haccepted := (matching_sublist_accepted db wild).subset
        ((listed_sublist db wild _).subset he)
      exact OrderedMap.mem_iff_entries.mpr ⟨e, (List.mem_filter.mp haccepted).1, rfl⟩
  · cases h

section

variable {c c' : Config} (hopen : c.dbOk = true) (hlogger : c.logger = true)
  (hdb : c'.dbOk = true)
include hlogger hdb

/-- A pair that is put is the first of the pairs that are carried over. -/
theorem Mirrors.inserted {n : Node} (h : Mirrors c' n) {v : RValue} {vs : List RValue}
    (hpairs : CarriesPairs n.db (v :: vs)) {key : Bytes} {w : WValue}
    (hins : Inserts noFaults c n v key w) :
    Mirrors c' (n.stored c key (dump w)) ∧ CarriesPairs (n.stored c key (dump w)).db vs := by
  obtain ⟨-, hkey, found, hfound, hw⟩ := hins
  rw [readsAs_noFaults.mp hfound] at hw
  obtain ⟨hcarries, hrest⟩ := hpairs key w hkey hw
  exact ⟨h.stored hlogger hdb hcarries, hrest⟩

include hopen in
theorem putAtom_mirrors {body : Bytes} {m : Node} (hm : Mirrors c' m)
    (hpairs : CarriesPairs m.db (bodyPairs body)) :
    DataTriple noFaults (fun n => n = m) (putAtom c body) (fun _ => Mirrors c') (Mirrors c') := by
  refine (putAtom_triple c (P := fun vs n => Mirrors c' n ∧ CarriesPairs n.db vs)
    (fun v vs n hn _ => ⟨hn.1, trivial⟩) ?_ ?_).mono ?_ (fun _ _ h => h.1) fun _ h => h.1
  · rintro (hclosed | hfails)
    · rw [hopen] at hclosed
      cases hclosed
    · exact absurd hfails not_fails_noFaults
  · exact fun v vs n key w hn hins => hn.1.inserted hlogger hdb hn.2 hins
  · rintro n rfl
    exact ⟨hm, hpairs⟩

/-- The keys left of a list are removed as they are found. -/
theorem removeAtom_mirrors {body : Bytes} {m : Node} (hm : Mirrors c' m)
    (hkeys : ∀ key ∈ bodyKeys body, key ∈ m.db → Carries m.db (.remove key)) :
    DataTriple noFaults (fun n => n = m) (removeAtom c body) (fun _ => Mirrors c')
      (Mirrors c') := by
  refine (removeAtom_triple c (P := fun keys n => Mirrors c' n ∧
    ∀ key ∈ keys, key ∈ n.db → Carries n.db (.remove key)) ?_ ?_).mono ?_ (fun _ _ h => h.1.1)
    fun _ h => h
  · exact fun key keys n hn _ => ⟨hn.1, fun k hk => hn.2 k (List.mem_cons_of_mem key hk)⟩
  · intro key keys n hn hmem
    refine ⟨hn.1.erased hlogger hdb (hn.2 key List.mem_cons_self hmem), fun k hk hmem' => ?_⟩
    have hmem'' : k ∈ n.db := by
      rw [OrderedMap.mem_iff] at hmem' ⊢
      obtain ⟨v, hv⟩ := hmem'
      change (n.db.erase key).find? k = some v at hv
      rw [OrderedMap.find?_erase] at hv
      split at hv
      · cases hv
      · exact ⟨v, hv⟩
    exact hn.2 k (List.mem_cons_of_mem key hk) hmem''
  · rintro n rfl
    exact ⟨hm, hkeys⟩

include hopen in
theorem atom_mirrors {body : Bytes} {m : Node} (hm : Mirrors c' m)
    (hcarries : CarriesOver c m (.atom body)) :
    DataTriple noFaults (fun n => n = m) (atom c body) (fun _ => Mirrors c') (Mirrors c') := by
  have hclosed : ¬(c.dbOk = false ∨ Fails noFaults) := by
    simp [hopen, not_fails_noFaults]
  cases hx : load body with
  | none =>
    unfold atom
    rw [hx]
    exact DataTriple.pure (by rintro n rfl; exact hm)
  | some x =>
    have hload : ∀ x', load body = some x' → x' = x := fun x' h => by simpa [hx] using h.symm
    obtain ⟨hremoves, hpairs⟩ := hcarries x hx
    refine (atom_triple c (P := fun keys n => Mirrors c' n ∧
      ∃ done, n.db = m.db.eraseAll done ∧ atomKeys x = done ++ keys)
      (Q := fun vs n => Mirrors c' n ∧ CarriesPairs n.db vs)
      (fun h => by simp [hx] at h) ?_ ?_ ?_ (fun h => absurd (Or.inl h) hclosed) ?_ ?_
      (fun v vs n hn _ => ⟨hn.1, trivial⟩) (fun h => absurd h hclosed) ?_).mono (fun _ h => h)
      (fun _ _ h => h.1) fun _ h => h.1
    · rintro x' n hx' rfl
      exact ⟨hm, [], rfl, by rw [hload x' hx']; rfl⟩
    · rintro key keys n ⟨hn, done, hdone, hkeys⟩ (habs | habs)
      · refine ⟨hn, done ++ [key], ?_, by simp [hkeys]⟩
        rw [OrderedMap.eraseAll_append, ← hdone]
        exact (OrderedMap.erase_of_not_mem habs).symm
      · exact absurd habs hclosed
    · rintro key keys n ⟨hn, done, hdone, hkeys⟩ hmem
      have hremoved : key ∈ atomRemoved m.db x := by simp [atomRemoved, hkeys]
      have hpresent : key ∈ m.db := (OrderedMap.mem_eraseAll.mp (hdone ▸ hmem)).1
      refine ⟨hn.erased hlogger hdb (hremoves key hremoved hpresent), done ++ [key], ?_,
        by simp [hkeys]⟩
      rw [OrderedMap.eraseAll_append, ← hdone]
      rfl
    · rintro ⟨i, keys, hi⟩
      cases hi
    · rintro x' n hx' ⟨hn, done, hdone, hkeys⟩
      obtain rfl := hload x' hx'
      rw [List.append_nil] at hkeys
      subst hkeys
      have hdb' : (n.allErased c (atomMatches n.db x')).db =
          m.db.eraseAll (atomRemoved m.db x') := by
        rw [atomRemoved, OrderedMap.eraseAll_append, ← hdone]
        rfl
      refine ⟨hn.allErased hlogger hdb fun key hkey => ?_, hdb' ▸ hpairs⟩
      have hpresent := mem_of_mem_atomMatches hkey
      rw [hdone] at hkey hpresent
      exact hremoves key (List.mem_append_right _ hkey) (OrderedMap.mem_eraseAll.mp hpresent).1
    · exact fun v vs n key w hn hins => hn.1.inserted hlogger hdb hn.2 hins

include hopen in
/-- A request whose changes are carried over leaves the replica equal. -/
theorem step_mirrors {w : World} {r : Request} (hw : Mirrors c' w.node)
    (hcarries : CarriesOver c w.node r) : Mirrors c' (step c noFaults w r).node := by
  suffices h : DataTriple noFaults (fun n => n = w.node) (serve c r) (fun _ => Mirrors c')
    (Mirrors c') from step_of_triple c h rfl
  have hskip : ∀ n, n = w.node → Mirrors c' n := by
    rintro n rfl
    exact hw
  cases r with
  | put body =>
    refine DataTriple.discard (insert_triple c hskip ?_)
    rintro n x key v rfl hx hins
    exact (hw.inserted hlogger hdb (hcarries x hx) hins).1
  | post body =>
    refine DataTriple.discard (post_triple c hskip ?_)
    rintro n x key v rfl hx hnone hins
    have habs : ∀ k, pairKey x = .ok k → k ∉ w.node.db := by
      intro k hk
      rw [hins.2.1] at hk
      cases hk
      simp [OrderedMap.mem_iff, ← readsAs_noFaults.mp (hnone.1 hins.1)]
    exact (hw.inserted hlogger hdb (hcarries x hx habs) hins).1
  | dump key value =>
    refine DataTriple.discard (dumpPair_triple c hskip ?_)
    rintro n rfl
    exact hw.stored hlogger hdb hcarries
  | putAtom body => exact DataTriple.discard (putAtom_mirrors hopen hlogger hdb hw hcarries)
  | makePair body uuid =>
    refine DataTriple.discard (makePair_triple c hskip ?_)
    rintro n key value rfl hsaves
    exact hw.stored hlogger hdb (hcarries key value hsaves)
  | increment key stepBy =>
    refine DataTriple.discard (increment_triple c hskip ?_ ?_)
    · rintro - n rfl -
      exact hw
    · rintro n text z rfl htext hz
      exact hw.stored hlogger hdb (hcarries text z htext hz)
  | incrementValue body =>
    refine DataTriple.discard (incrementValue_triple c hskip ?_)
    rintro n x key text v affected rfl hx hkey htext hv
    exact hw.stored hlogger hdb (hcarries x key text v affected hx hkey htext hv)
  | geoput body =>
    refine DataTriple.discard (geoput_triple c hskip ?_)
    rintro n x key v rfl hx hv
    exact hw.stored hlogger hdb (hcarries x key v hx hv)
  | message data from? timestamp =>
    refine onMessage_triple c hskip ?_
    rintro n x key v rfl hx hv
    exact hw.stored hlogger hdb (hcarries x key v hx hv)
  | remove key =>
    refine DataTriple.discard (remove_triple c (fun n hn _ => hskip n hn) ?_)
    rintro n rfl hmem
    exact hw.erased hlogger hdb (hcarries hmem)
  | removeAll wild win =>
    refine DataTriple.discard (removeAll_triple c (fun _ => hskip) ?_ ?_)
    · rintro ⟨i, keys, hi⟩
      cases hi
    · rintro n rfl hstar
      exact hw.allErased hlogger hdb (hcarries hstar)
  | removeAtom body => exact DataTriple.discard (removeAtom_mirrors hlogger hdb hw hcarries)
  | atom body => exact DataTriple.discard (atom_mirrors hopen hlogger hdb hw hcarries)
  | qcSave data => exact hcarries.elim

include hopen in
/-- In every state that a run of such requests reaches, the replica that has answered all
calls holds what the primary holds. -/
theorem replica_eq_primary {rs : List Request}
    (hrs : EachMeets (CarriesOver c) c noFaults (openDB c OrderedMap.empty) rs)
    {done : List Request} (hdone : done <+: rs) : Converges c c' done :=
  (serveAll_of_eachMeets c (I := Mirrors c')
    (fun _ _ hw hr => step_mirrors hopen hlogger hdb hw hr) ⟨rfl, fun _ _ h => by cases h⟩ hrs
      hdone).1

end

end

/-- A process with a logger, without a cache and without other nodes to tell. -/
def loggerOnly : Config := ⟨true, false, false, true⟩

/-- A text of an object with one field. -/
def plainObject : Bytes := ascii "\x7b\"a\":\"1\"\x7d"

/-- A text of an object with that field and another one. -/
def widerObject : Bytes := ascii "\x7b\"a\":\"2\",\"b\":\"3\"\x7d"

/-- A text of an object with another field only. -/
def otherObject : Bytes := ascii "\x7b\"b\":\"2\"\x7d"

/-- The replica follows a run that stores an object, stores more fields, and removes the key. -/
theorem replica_eq_primary_fields : @Converges .insertion loggerOnly uncachedOnly
    [.dump (ascii "k") plainObject, .dump (ascii "k") widerObject, .remove (ascii "k")] := by
  have hkey : ∀ c ∈ ascii "k", isPlainText c = true := List.all_eq_true.mp rfl
  have hfirst : @Carries .insertion OrderedMap.empty (.put (ascii "k") plainObject) := by
    refine ⟨hkey, by decide +kernel, by decide +kernel, ?_⟩
    intro text htext
    cases htext
  have hfound : (@primary .insertion loggerOnly [.dump (ascii "k") plainObject]).node.db.find?
      (ascii "k") = some plainObject := by
    decide +kernel
  have hsecond : @Carries .insertion (@primary .insertion loggerOnly
      [.dump (ascii "k") plainObject]).node.db (.put (ascii "k") widerObject) := by
    refine ⟨hkey, by decide +kernel, by decide +kernel, ?_⟩
    rw [hfound]
    rintro text ⟨⟩ -
    decide +kernel
  have hthird : ∀ db, @Carries .insertion db (.remove (ascii "k")) := fun db =>
    ⟨by decide, List.all_eq_true.mp rfl⟩
  have hrs : @EachMeets .insertion (@CarriesOver .insertion loggerOnly) loggerOnly noFaults
      (openDB loggerOnly OrderedMap.empty)
      [.dump (ascii "k") plainObject, .dump (ascii "k") widerObject, .remove (ascii "k")] :=
    ⟨hfirst, hsecond, fun _ => hthird _, trivial⟩
  exact @replica_eq_primary .insertion loggerOnly uncachedOnly rfl rfl rfl _ hrs _
    (List.prefix_refl _)

/-- The primary replaces an object, and the replica merges the two. -/
theorem not_converges_replaced : ¬@Converges .insertion loggerOnly uncachedOnly
    [.dump (ascii "k") plainObject, .dump (ascii "k") otherObject] := by
  intro h
  have hfind := congrArg (·.find? (ascii "k")) h
  revert hfind
  decide +kernel

end Quarks
