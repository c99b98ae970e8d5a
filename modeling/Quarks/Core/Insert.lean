import Quarks.Core.Commit

/-!
# Storing values

The functions that store the value of a request body. `put` and its relatives
merge the fields of an object into the object stored before; `dump` and `makePair`
store a text as it is.
-/

namespace Quarks

open Basis

variable [HashOrder]

/-- `getKeyValuePair`: the value, if there is one, and the text of the answer. -/
def getKeyValuePair (c : Config) (key : Bytes) : CoreM (Option Bytes × Bytes) := do
  if c.dbOk then
    match ← dbGet key with
    | some value => return (some value, ascii "\x7b\"result\":true\x7d")
    | none => return (none, ascii "\x7b\"result\":false\x7d")
  else return (none, ascii "\x7b\"error\":\"db status error\"\x7d")

/-- The fields of the stored object, then the fields put into it. -/
def mergeFields (existing put : WValue) : WValue :=
  let w := existing.keys.foldl (fun w e => w.set e (existing.take e)) .null
  put.keys.foldl (fun w p => w.set p (put.take p)) w

/-- `x["key"].s()`. -/
def pairKey (x : RValue) : Except Failure Bytes := (x.field (ascii "key")).bind RValue.s

/-- `crow::json::wvalue putValue = x["value"]`. -/
def pairValue (x : RValue) : Except Failure WValue :=
  (x.field (ascii "value")).bind WValue.ofRValue

/-- The value that `insertKeyValuePair` stores, given the text found under the key. -/
def insertedValue (found : Option Bytes) (x : RValue) : Except Failure WValue := do
  let putValue ← pairValue x
  match found with
  | none => return putValue
  | some readValue =>
    let existingValues ← (checked (load readValue)).bind WValue.ofRValue
    return if putValue.keys = [] then putValue else mergeFields existingValues putValue

/-- `insertKeyValuePair`: whether it succeeds, and the text of the answer. -/
def insertKeyValuePair (c : Config) (failIfExists : Bool) (x : RValue) :
    CoreM (Bool × Bytes) := do
  let key ← ofExcept (pairKey x)
  let found ← getKeyValuePair c key
  if failIfExists && found.1.isSome then
    return (false, ascii "\x7b\"result\":false,\"error\":\"key already exists\"\x7d")
  let w ← ofExcept (insertedValue found.1 x)
  if c.dbOk then
    if ← commitPut c key (dump w) then
      return (true, ascii "\x7b\"result\":true\x7d")
    return (false, ascii "\x7b\"result\":false,\"error\":\"data failed to save\"\x7d")
  return (false, ascii "\x7b\"result\":false,\"error\":\"db status error\"\x7d")

/-- `Core::insert`. -/
def insert (c : Config) (failIfExists : Bool) (body : Bytes) : CoreM (Bool × Bytes) :=
  match load body with
  | none => return (false, ascii "\x7b\"error\": \"Invalid put body\"\x7d")
  | some x => insertKeyValuePair c failIfExists x

/-- `Core::post`. -/
def post (c : Config) (body : Bytes) : CoreM (Bool × Bytes) := insert c true body

/-- `Core::put`. -/
def put (c : Config) (body : Bytes) : CoreM (Bool × Bytes) := insert c false body

/-- `Core::dump`. -/
def dumpPair (c : Config) (key value : Bytes) : CoreM (Bool × Bytes) := do
  if c.dbOk then
    if ← commitPut c key value then
      return (true, ascii "\x7b\"result\":true\x7d")
  return (false, ascii "\x7b\"result\":false\x7d")

/-- The loop of `Core::putAtom`, counting the pairs that were put. -/
def putPairs (c : Config) : List RValue → ℤ → CoreM ℤ
  | [], i => return i
  | v :: vs, i => do
    let r ← insertKeyValuePair c false v
    putPairs c vs (if r.1 then i + 1 else i)

/-- `Core::putAtom` for a parsed body. -/
def putAtomParsed (c : Config) (x : RValue) : CoreM (Bool × Bytes) :=
  catchRuntime
    (do
      let vs ← ofExcept x.elements
      let i ← putPairs c vs 0
      return (true, ascii "\x7b\"put\":" ++ toString i ++ ascii ",\"result\":true\x7d"))
    (return (false, ascii "\x7b\"result\":false, \"error\":\"invalid putatom body\"\x7d"))

/-- `Core::putAtom`. -/
def putAtom (c : Config) (body : Bytes) : CoreM (Bool × Bytes) :=
  match load body with
  | none => return (false, ascii "\x7b\"result\":false, \"error\": \"invalid put body\"\x7d")
  | some x => putAtomParsed c x

/-- `x.has(name) ? x[name].s() : dflt`. -/
def stringField (x : RValue) (name dflt : Bytes) : Except Failure Bytes := do
  if ← x.has name then (← x.field name).s else return dflt

/-- The key that `Core::makePair` uses; `uuid` is the random one it makes if none is given. -/
def makePairKey (x : RValue) (uuid : Bytes) : Except Failure Bytes := do
  let key ← stringField x (ascii "key") uuid
  let pre ← stringField x (ascii "prefix") []
  return pre ++ key

/-- The text that `Core::makePair` stores under its key. -/
def makePairValue (x : RValue) : Except Failure Bytes := stringField x (ascii "value") []

/-- Whether `Core::makePair` saves the pair. -/
def makePairSave (x : RValue) : Except Failure Bool := do
  if ← x.has (ascii "save") then (← x.field (ascii "save")).b else return false

/-- `Core::makePair`. -/
def makePair (c : Config) (body uuid : Bytes) : CoreM (Bool × WValue) :=
  match load body with
  | none => return (false, .string (ascii "\x7b\"error\": \"Invalid make body\"\x7d"))
  | some x => do
    let key ← ofExcept (makePairKey x uuid)
    let writeValue ← ofExcept (makePairValue x)
    let out := (WValue.null.set (ascii "value") (.string writeValue)).set (ascii "key")
      (.string key)
    let save ← ofExcept (makePairSave x)
    if save then
      if c.dbOk then
        if ← commitPut c key writeValue then
          return (true, out)
        return (false, out.set (ascii "error") (.string (ascii "data failed to save")))
      return (false, out.set (ascii "error") (.string (ascii "db status error")))
    return (true, out)

/-! ## What the functions do to the data -/

variable {faults : Faults} {I E : Node → Prop} (c : Config)

variable (faults) in
/-- What `getKeyValuePair` may find under a key. -/
def Finds (n : Node) (key : Bytes) (found : Option Bytes) : Prop :=
  (c.dbOk = true → ReadsAs faults n key found) ∧ (c.dbOk = false → found = none)

variable (faults) in
/-- The pair `x` makes the database store `w` under `key`. -/
def Inserts (n : Node) (x : RValue) (key : Bytes) (w : WValue) : Prop :=
  c.dbOk = true ∧ pairKey x = .ok key ∧
    ∃ found, ReadsAs faults n key found ∧ insertedValue found x = .ok w

variable (faults) in
/-- The pair `x` raises an exception. -/
def Rejects (n : Node) (x : RValue) : Prop :=
  ∀ key, pairKey x = .ok key → ∃ found e, Finds faults c n key found ∧
    insertedValue found x = .error e

omit [HashOrder] in
/-- A value is found only where one is stored, if the database is open. -/
theorem getKeyValuePair_triple {key : Bytes} : DataTriple faults I (getKeyValuePair c key)
    (fun r n => I n ∧ Finds faults c n key r.1) E := by
  unfold getKeyValuePair
  split
  · next hdb =>
    refine DataTriple.bind DataTriple.dbGet fun found => ?_
    cases found <;>
      exact DataTriple.pure fun n hn => ⟨hn.1, fun _ => hn.2, fun h => by simp [hdb] at h⟩
  · next hdb => exact DataTriple.pure fun n hn => ⟨hn, fun h => absurd h hdb, fun _ => rfl⟩

/-- A pair is stored with the value that results from what is found under its key;
it is left out only if it must not exist, or if the database refuses it. A pair that must
not exist is stored only if nothing is found. -/
theorem insertKeyValuePair_triple_of_found {J : Node → Prop} {failIfExists : Bool} {x : RValue}
    (hthrow : ∀ n, I n → Rejects faults c n x → E n)
    (hskip : failIfExists = true ∨ c.dbOk = false ∨ Fails faults → ∀ n, I n → J n)
    (hput : ∀ n key w, I n → (failIfExists = true → Finds faults c n key none) →
      Inserts faults c n x key w → J (n.stored c key (dump w))) :
    DataTriple faults I (insertKeyValuePair c failIfExists x) (fun _ => J) E := by
  unfold insertKeyValuePair
  cases hkey : pairKey x with
  | error e =>
    exact DataTriple.throw fun n hn => hthrow n hn fun key h => by rw [hkey] at h; cases h
  | ok key =>
    change DataTriple faults I (getKeyValuePair c key >>= _) _ _
    refine DataTriple.bind (getKeyValuePair_triple c) fun found => ?_
    split
    · next h =>
      simp only [Bool.and_eq_true] at h
      exact DataTriple.pure fun n hn => hskip (Or.inl h.1) n hn.1
    next hexists =>
    cases hw : insertedValue found.1 x with
    | error e =>
      refine DataTriple.throw fun n hn => hthrow n hn.1 fun key' hkey' => ⟨found.1, e, ?_, hw⟩
      rw [hkey] at hkey'
      cases hkey'
      exact hn.2
    | ok w =>
      change DataTriple faults _ (if c.dbOk = true then _ else _) _ _
      split
      · next hdb =>
        refine DataTriple.bind (M := fun _ => J) (commitPut_triple c ?_ ?_) fun ok => ?_
        · rintro ⟨i, hi⟩ n hn
          exact hskip (Or.inr (Or.inr ⟨i, _, hi⟩)) n hn.1
        · refine fun n hn => hput n key w hn.1 (fun hfail => ?_)
            ⟨hdb, hkey, found.1, hn.2.1 hdb, hw⟩
          have hnone : found.1 = none := by simpa [hfail] using hexists
          exact hnone ▸ hn.2
        · cases ok <;> exact DataTriple.pure fun _ hn => hn
      · next hdb =>
        exact DataTriple.pure fun n hn => hskip (Or.inr (Or.inl (by simpa using hdb))) n hn.1

theorem insertKeyValuePair_triple {J : Node → Prop} {failIfExists : Bool} {x : RValue}
    (hthrow : ∀ n, I n → Rejects faults c n x → E n)
    (hskip : failIfExists = true ∨ c.dbOk = false ∨ Fails faults → ∀ n, I n → J n)
    (hput : ∀ n key w, I n → Inserts faults c n x key w → J (n.stored c key (dump w))) :
    DataTriple faults I (insertKeyValuePair c failIfExists x) (fun _ => J) E :=
  insertKeyValuePair_triple_of_found c hthrow hskip fun n key w hn _ => hput n key w hn

/-- `post` stores under a key that it has not found. -/
theorem post_triple {J : Node → Prop} {body : Bytes} (hskip : ∀ n, I n → J n)
    (hput : ∀ n x key w, I n → load body = some x → Finds faults c n key none →
      Inserts faults c n x key w → J (n.stored c key (dump w))) :
    DataTriple faults I (post c body) (fun _ => J) J := by
  unfold post insert
  split
  · exact DataTriple.pure hskip
  · next x hx =>
    exact insertKeyValuePair_triple_of_found c (fun n hn _ => hskip n hn) (fun _ => hskip)
      fun n key w hn hnone => hput n x key w hn hx (hnone rfl)

theorem insert_triple {J : Node → Prop} {failIfExists : Bool} {body : Bytes}
    (hskip : ∀ n, I n → J n)
    (hput : ∀ n x key w, I n → load body = some x → Inserts faults c n x key w →
      J (n.stored c key (dump w))) :
    DataTriple faults I (insert c failIfExists body) (fun _ => J) J := by
  unfold insert
  split
  · exact DataTriple.pure hskip
  · next x hx =>
    exact insertKeyValuePair_triple c (fun n hn _ => hskip n hn) (fun _ => hskip)
      fun n key w hn => hput n x key w hn hx

/-- `dump` stores its text as it is. -/
theorem dumpPair_triple {J : Node → Prop} {key value : Bytes} (hskip : ∀ n, I n → J n)
    (hput : ∀ n, I n → J (n.stored c key value)) :
    DataTriple faults I (dumpPair c key value) (fun _ => J) E := by
  unfold dumpPair
  split
  · refine DataTriple.bind (M := fun _ => J) (commitPut_triple c (fun _ => hskip) hput)
      fun ok => ?_
    cases ok <;> exact DataTriple.pure fun _ hn => hn
  · exact DataTriple.pure hskip

/-- Without faults the text is stored, and the answer tells so. -/
theorem dumpPair_exact {n : Node} {key value : Bytes} (hdb : c.dbOk = true) :
    DataTriple noFaults (fun m => m = n) (dumpPair c key value)
      (fun r m => r = (true, ascii "\x7b\"result\":true\x7d") ∧ m = n.stored c key value) E := by
  unfold dumpPair
  rw [if_pos hdb]
  refine DataTriple.bind (M := fun ok m => ok = true ∧ m = n.stored c key value)
    (commitPut_triple c ?_ ?_) fun ok => ?_
  · rintro ⟨i, hi⟩
    cases hi
  · rintro m rfl
    exact ⟨rfl, rfl⟩
  · cases ok with
    | true => exact DataTriple.pure fun _ hm => ⟨rfl, hm.2⟩
    | false =>
      intro w hw
      cases hw.1

/-- The loop of `putAtom` carries a statement about the pairs that are left to put. -/
theorem putPairs_triple {P : List RValue → Node → Prop}
    (hthrow : ∀ v vs n, P (v :: vs) n → Rejects faults c n v → E n)
    (hskip : c.dbOk = false ∨ Fails faults → ∀ v vs n, P (v :: vs) n → P vs n)
    (hput : ∀ v vs n key w, P (v :: vs) n → Inserts faults c n v key w →
      P vs (n.stored c key (dump w)))
    (vs : List RValue) (i : ℤ) :
    DataTriple faults (P vs) (putPairs c vs i) (fun _ => P []) E := by
  induction vs generalizing i with
  | nil => exact DataTriple.pure fun _ hn => hn
  | cons v vs ih =>
    refine DataTriple.bind (M := fun _ => P vs) ?_ fun r => ih _
    refine insertKeyValuePair_triple c (hthrow v vs) ?_ (fun n key w => hput v vs n key w)
    rintro (h | h)
    · cases h
    · exact fun n => hskip h v vs n

/-- The pairs that the body of `putAtom` gives. -/
def bodyPairs (body : Bytes) : List RValue :=
  match (load body).map RValue.elements with
  | some (.ok vs) => vs
  | _ => []

/-- `putAtom` puts the pairs of its body, up to one that raises an exception. -/
theorem putAtom_triple {P : List RValue → Node → Prop} {body : Bytes}
    (hthrow : ∀ v vs n, P (v :: vs) n → Rejects faults c n v → P [] n)
    (hskip : c.dbOk = false ∨ Fails faults → ∀ v vs n, P (v :: vs) n → P vs n)
    (hput : ∀ v vs n key w, P (v :: vs) n → Inserts faults c n v key w →
      P vs (n.stored c key (dump w))) :
    DataTriple faults (P (bodyPairs body)) (putAtom c body) (fun _ => P []) (P []) := by
  unfold putAtom bodyPairs
  cases load body with
  | none => exact DataTriple.pure fun _ hn => hn
  | some x =>
    refine DataTriple.catchRuntime (M := P []) ?_ (DataTriple.pure fun _ hn => hn) fun _ hn => hn
    simp only [Option.map_some]
    cases x.elements with
    | error e => exact DataTriple.throw fun _ hn => hn
    | ok vs =>
      change DataTriple faults (P vs) (putPairs c vs 0 >>= _) _ _
      exact DataTriple.bind (M := fun _ => P []) (putPairs_triple c hthrow hskip hput vs 0)
        fun i => DataTriple.pure fun _ hn => hn

/-- The body of `makePair` asks for the pair to be saved. -/
def SavesPair (body uuid key value : Bytes) : Prop :=
  ∃ x, load body = some x ∧ makePairSave x = .ok true ∧ makePairKey x uuid = .ok key ∧
    makePairValue x = .ok value

theorem makePair_triple {J : Node → Prop} {body uuid : Bytes} (hskip : ∀ n, I n → J n)
    (hput : ∀ n key value, I n → SavesPair body uuid key value → J (n.stored c key value)) :
    DataTriple faults I (makePair c body uuid) (fun _ => J) J := by
  unfold makePair
  split
  · exact DataTriple.pure hskip
  next x hx =>
  refine DataTriple.ofExcept hskip fun key hkey => DataTriple.ofExcept hskip fun value hvalue =>
    DataTriple.ofExcept hskip fun save hsave => ?_
  split
  · next h =>
    subst h
    split
    · refine DataTriple.bind (M := fun _ => J) (commitPut_triple c (fun _ => hskip) ?_)
        fun ok => ?_
      · exact fun n hn => hput n key value hn ⟨x, hx, hsave, hkey, hvalue⟩
      · cases ok <;> exact DataTriple.pure fun _ hn => hn
    · exact DataTriple.pure hskip
  · exact DataTriple.pure hskip

end Quarks
