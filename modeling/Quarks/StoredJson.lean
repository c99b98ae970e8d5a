import Quarks.WindowLaw
import Quarks.Json.RoundTrip

/-!
# Every stored value is a JSON document

Nearly every function stores what `crow::json::dump` or `std::to_string` prints.
`dump` and `makePair` store a text of their caller as it is, and so does a record from
the broker. The database holds JSON documents only, as long as these texts are such.
-/

namespace Quarks

open Basis

section

variable [HashOrder]

/-- The database holds JSON documents only. -/
def AllJson (n : Node) : Prop := ∀ e ∈ n.db.entries, IsJson e.2

/-- A request that stores a text as it is gives a JSON document. -/
def StoresJson (_ : Node) : Request → Prop
  | .makePair body uuid => ∀ key value, SavesPair body uuid key value → IsJson value
  | .dump _ value => IsJson value
  | .qcSave data => ∀ x key value, load data = some x →
      recordFields x = .ok (key, value, ascii "put") → IsJson value
  | _ => True

section

variable {c : Config} {n : Node}

omit [HashOrder] in
theorem AllJson.insert (h : AllJson n) {key value : Bytes} (hvalue : IsJson value) :
    AllJson { n with db := n.db.insert key value } := by
  intro e he
  rcases OrderedMap.mem_insert.mp he with rfl | ⟨he, -⟩
  · exact hvalue
  · exact h e he

theorem AllJson.stored (h : AllJson n) {key value : Bytes} (hvalue : IsJson value) :
    AllJson (n.stored c key value) := h.insert hvalue

omit [HashOrder] in
/-- Fewer entries are still JSON documents. -/
theorem AllJson.of_find? {m : Node} (h : AllJson n)
    (hsub : ∀ key value, m.db.find? key = some value → n.db.find? key = some value) :
    AllJson m := fun e he =>
  h e (OrderedMap.find?_eq_some.mp (hsub e.1 e.2 (OrderedMap.find?_eq_some.mpr he)))

omit [HashOrder] in
theorem AllJson.erase (h : AllJson n) (key : Bytes) :
    AllJson { n with db := n.db.erase key } :=
  h.of_find? fun k value hk => by
    simp only [OrderedMap.find?_erase] at hk
    split at hk
    · cases hk
    · exact hk

theorem AllJson.erased (h : AllJson n) (key : Bytes) : AllJson (n.erased c key) := h.erase key

theorem AllJson.allErased (h : AllJson n) (keys : List Bytes) : AllJson (n.allErased c keys) :=
  h.of_find? fun k value hk => by
    change (n.db.eraseAll keys).find? k = some value at hk
    rw [OrderedMap.find?_eraseAll] at hk
    split at hk
    · cases hk
    · exact hk

theorem AllJson.allRemoveRequested (h : AllJson n) (keys : List Bytes) :
    AllJson (n.allRemoveRequested c keys) := by
  intro e he
  rw [Node.allRemoveRequested_db] at he
  exact h e he

end

/-- A request that gives JSON documents leaves JSON documents in the database, whichever
calls of RocksDB fail. -/
theorem step_storesJson {c : Config} {faults : Faults} {w : World} {r : Request}
    (hw : AllJson w.node) (hr : StoresJson w.node r) : AllJson (step c faults w r).node := by
  suffices h : DataTriple faults AllJson (serve c r) (fun _ => AllJson) AllJson
    from step_of_triple c h hw
  have hskip : ∀ n, AllJson n → AllJson n := fun _ h => h
  have hdump : ∀ n key w, AllJson n → AllJson (n.stored c key (dump w)) :=
    fun _ _ w hn => hn.stored (isJson_dump w)
  cases r with
  | put body | post body =>
    exact DataTriple.discard (insert_triple c hskip fun n _ key w hn _ _ => hdump n key w hn)
  | dump key value =>
    exact DataTriple.discard (dumpPair_triple c hskip fun n hn => hn.stored hr)
  | putAtom body =>
    exact DataTriple.discard (putAtom_triple c (P := fun _ => AllJson) (fun _ _ _ h _ => h)
      (fun _ _ _ _ h => h) fun _ _ n key w hn _ => hdump n key w hn)
  | makePair body uuid =>
    exact DataTriple.discard (makePair_triple c hskip
      fun n key value hn hsaves => hn.stored (hr key value hsaves))
  | increment key stepBy =>
    exact DataTriple.discard (increment_triple c hskip (fun _ _ hn _ => hn)
      fun n _ z hn _ _ => hn.stored (isJson_toString _))
  | incrementValue body =>
    exact DataTriple.discard (incrementValue_triple c hskip
      fun n _ key _ w _ hn _ _ _ _ => hdump n key w hn)
  | geoput body =>
    exact DataTriple.discard (geoput_triple c hskip fun n _ key w hn _ _ => hdump n key w hn)
  | message data from? timestamp =>
    exact onMessage_triple c hskip fun n _ key w hn _ _ => hdump n key w hn
  | remove key =>
    exact DataTriple.discard (remove_triple c (fun _ hn _ => hn) fun _ hn _ => hn.erased key)
  | removeAll wild win =>
    exact DataTriple.discard (removeAll_triple c (fun _ _ hn => hn)
      (fun _ _ hn _ => hn.allRemoveRequested _) fun _ hn _ => hn.allErased _)
  | removeAtom body =>
    exact DataTriple.discard ((removeAtom_triple c (P := fun _ => AllJson) (fun _ _ _ hn _ => hn)
      fun key _ _ hn _ => hn.erased key).mono hskip (fun _ _ hn => hn.1) hskip)
  | atom body =>
    exact DataTriple.discard (atom_triple c (P := fun _ => AllJson) (Q := fun _ => AllJson)
      (fun _ _ hn => hn) (fun _ _ _ hn => hn) (fun _ _ _ hn _ => hn)
      (fun key _ _ hn _ => hn.erased key) (fun _ _ _ _ hn => hn)
      (fun _ _ _ _ hn => hn.allRemoveRequested _) (fun _ _ _ hn => hn.allErased _)
      (fun _ _ _ hn _ => hn) (fun _ _ _ _ hn => hn) fun _ _ n key w hn _ => hdump n key w hn)
  | qcSave data =>
    exact qcSave_triple c hskip
      (fun n x key value hn hx hfields => hn.insert (hr x key value hx hfields))
      fun n _ key _ hn _ _ => hn.erase key

/-- Every value in every state that a run of such requests reaches from an empty database
is a JSON document. -/
theorem stored_isJson (c : Config) (faults : Faults) {rs : List Request}
    (hrs : EachMeets StoresJson c faults (openDB c OrderedMap.empty) rs) {done : List Request}
    (hdone : done <+: rs) :
    AllJson (serveAll c faults (openDB c OrderedMap.empty) done).node :=
  serveAll_of_eachMeets c (fun _ _ hw hr => step_storesJson hw hr)
    (fun e he => by cases he) hrs hdone

end

/-- An uncached process without other nodes that starts with an empty database, after
some requests. -/
def uncachedRun (rs : List Request) : Node :=
  (@serveAll .insertion uncachedOnly noFaults (openDB uncachedOnly OrderedMap.empty) rs).node

/-- The body of `makePair` that saves a text under the key `k`. -/
def saveBody (value : Bytes) : Bytes :=
  ascii "\x7b\"key\":\"k\",\"save\":true,\"value\":" ++ dumpString value ++ ascii "\x7d"

/-- The theorem at a run that saves a number as a pair, adds to it and removes it. -/
theorem stored_isJson_counter :
    AllJson (uncachedRun [.makePair (saveBody (ascii "1")) [], .increment (ascii "k") 2]) := by
  have hvalue : (load (saveBody (ascii "1"))).map makePairValue = some (.ok (ascii "1")) := by
    decide +kernel
  have hsaves : ∀ key value, SavesPair (saveBody (ascii "1")) [] key value → IsJson value := by
    rintro key value ⟨x, hx, -, -, hx'⟩
    rw [hx, Option.map_some, hx'] at hvalue
    obtain rfl : value = ascii "1" := Except.ok.inj (Option.some.inj hvalue)
    decide +kernel
  have hrs : @EachMeets .insertion StoresJson uncachedOnly noFaults
      (openDB uncachedOnly OrderedMap.empty) [.makePair (saveBody (ascii "1")) [],
        .increment (ascii "k") 2] := ⟨hsaves, trivial, trivial⟩
  exact @stored_isJson .insertion uncachedOnly noFaults _ hrs _ (List.prefix_refl _)

/-- `makePair` stores a text that is not a JSON document. -/
theorem not_allJson_saved : ¬AllJson (uncachedRun [.makePair (saveBody (ascii "x")) []]) := by
  unfold AllJson
  decide +kernel

end Quarks
