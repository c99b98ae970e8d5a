import Quarks.KeysRoute
import Quarks.Routing.ListingHazards

/-!
# What the routes can answer

The texts that the functions of the core can answer with, whatever the data hold and whatever
RocksDB answers, and the exceptions that they can raise. Most of them raise no runtime error, so
that a barrier for these changes nothing.
-/

namespace Quarks

open Basis

/-- The exceptions that a barrier for runtime errors lets through. -/
def PassesBarrier (f : Failure) : Prop := f.isRuntimeError = false

section

variable {α β : Type} {P : α → Prop} {Q : β → Prop} {E : Failure → Prop}

theorem always_op (op : Op) : (Prog.lift op : CoreM (Res op)).Always (fun _ => True) E :=
  Prog.Always.lift op

theorem always_ofExcept {r : Except Failure α} (hP : ∀ a, r = .ok a → P a)
    (hE : ∀ f, r = .error f → E f) : (ofExcept r).Always P E := by
  cases r with
  | ok a => exact hP a rfl
  | error f => exact hE f rfl

theorem always_catchRuntime {p q : CoreM α} (hp : p.Always P E) (hq : q.Always P PassesBarrier) :
    (catchRuntime p q).Always P PassesBarrier := by
  refine Prog.Always.tryCatch hp fun f _ => ?_
  split
  · exact hq
  · next h => exact Prog.Always.throw (by simpa [PassesBarrier] using h)

theorem always_catchWhat {p : CoreM α} {g : Bytes → α} (hp : p.Always P E)
    (hg : ∀ what, P (g what)) : (catchWhat p g).Always P PassesBarrier := by
  refine Prog.Always.tryCatch hp fun f _ => ?_
  cases f with
  | runtimeError what => exact hg what
  | _ => exact rfl

/-- A barrier around a program that raises no runtime error changes nothing. -/
theorem catchWhat_eq {p : CoreM α} {g : Bytes → α} (hp : p.Always P PassesBarrier) :
    catchWhat p g = p := by
  refine hp.tryCatch_eq fun f hf => ?_
  cases f with
  | runtimeError what => cases hf
  | _ => rfl

theorem always_catchWhat_of_passes {p : CoreM α} (g : Bytes → α) (hp : p.Always P PassesBarrier) :
    (catchWhat p g).Always P PassesBarrier := by
  rw [catchWhat_eq hp]
  exact hp

/-- Behind a barrier for runtime errors, a second one changes nothing. -/
theorem catchWhat_catchWhat (p : CoreM α) (g g' : Bytes → α) :
    catchWhat (catchWhat p g) g' = catchWhat p g :=
  catchWhat_eq (always_catchWhat (Prog.Always.any p) fun _ => trivial)

theorem always_withLock {m : Mutex} {p : CoreM α} (hp : p.Always P E) :
    (withLock m p).Always P E := by
  refine (always_op (Op.lock m)).bind fun _ _ => (hp.tryCatch fun f hf => ?_).bind fun a ha => ?_
  · exact (always_op (Op.unlock m)).bind fun _ _ => hf
  · exact (always_op (Op.unlock m)).bind fun _ _ => ha

/-- Reading the window of a query raises no runtime error. -/
theorem always_window (q : HttpRouter.QueryParams) :
    (ofExcept q.window).Always (fun _ => True) PassesBarrier :=
  always_ofExcept (fun _ _ => trivial) fun _ hf => window_error hf

/-- A program that raises no exception, and whose result does not matter. -/
theorem always_harmless {p : CoreM α} (hp : p.Always P fun _ => False) :
    p.Always (fun _ => True) E :=
  hp.mono (fun _ _ => trivial) fun _ h => h.elim

/-- A value that may not be there, and does not matter. -/
theorem always_ofExcept_any (r : Except Failure α) :
    (ofExcept r).Always (fun _ => True) fun _ => True :=
  always_ofExcept (fun _ _ => trivial) fun _ _ => trivial

/-- A text that does not start as another one. -/
theorem append_ne_of_take {a rest text : Bytes} (h : a ≠ text.take a.length) :
    a ++ rest ≠ text := by
  rintro rfl
  exact h (by simp)

end

/-! ## Changing the data -/

section

variable [HashOrder] (c : Config)

theorem always_putRequest (key value : Bytes) :
    (putRequest c key value).Always (fun _ => True) (fun _ => False) := by
  have hlogger : (if c.logger = true then http (putCall key value) else pure ()).Always
      (fun _ => True) (fun _ => False) := by
    split
    · exact always_op _
    · exact trivial
  have hwriter : (if c.writer = true then do
        withLock .put (publish (dump (record (ascii "put") key value)))
        if c.logger = true then http (putCall key value) else pure ()
      else if c.logger = true then http (putCall key value) else pure ()).Always
      (fun _ => True) (fun _ => False) := by
    split
    · exact (always_withLock (always_op _)).bind fun _ _ => hlogger
    · exact hlogger
  unfold putRequest
  dsimp only
  split
  · exact (always_op _).bind fun _ _ => hwriter
  · exact hwriter

theorem always_removeRequest (key : Bytes) :
    (removeRequest c key).Always (fun _ => True) (fun _ => False) := by
  have hlogger : (if c.logger = true then http (removeCall key) else pure ()).Always
      (fun _ => True) (fun _ => False) := by
    split
    · exact always_op _
    · exact trivial
  unfold removeRequest
  dsimp only
  split
  · exact (always_withLock (always_op _)).bind fun _ _ => hlogger
  · exact hlogger

/-- A commit raises no exception. -/
theorem always_commitPut (key value : Bytes) :
    (commitPut c key value).Always (fun _ => True) (fun _ => False) := by
  refine (always_op _).bind fun ok _ => ?_
  split
  · exact (always_putRequest c key value).bind fun _ _ => trivial
  · exact trivial

theorem always_commitDelete (key : Bytes) :
    (commitDelete c key).Always (fun _ => True) (fun _ => False) := by
  refine (always_op _).bind fun ok _ => ?_
  split
  · exact (always_removeRequest c key).bind fun _ _ => trivial
  · exact trivial

theorem always_commitBatch (keys : List Bytes) :
    (commitBatch c keys).Always (fun _ => True) (fun _ => False) := by
  have hrequests : (removeRequests c keys).Always (fun _ => True) (fun _ => False) := by
    induction keys with
    | nil => exact trivial
    | cons key keys ih => exact (always_removeRequest c key).bind fun _ _ => ih
  exact hrequests.bind fun _ _ => (always_op _).bind fun _ _ => trivial

/-! ## Functions that read a document -/

/-- The text with which the dispatcher answers a runtime error. -/
def dispatchError : Bytes := ascii "\x7b\"error\":\"dispatch error\"\x7d"

/-- A function refuses every text that is no JSON document, with a text that it never answers
with otherwise. -/
structure ReadsDocument (f : Bytes → CoreM (Bool × Bytes)) (refusal : Bytes) : Prop where
  refused : ∀ text, load text = none → f text = pure (false, refusal)
  answered : ∀ text x, load text = some x →
    (f text).Always (fun r => r.2 ≠ refusal ∧ r.2 ≠ dispatchError) fun _ => True
  refusal_ne : refusal ≠ dispatchError

omit [HashOrder] in
theorem always_getKeyValuePair (key : Bytes) : (getKeyValuePair c key).Always (fun r => r.2 ∈
    [ascii "\x7b\"result\":true\x7d", ascii "\x7b\"result\":false\x7d",
      ascii "\x7b\"error\":\"db status error\"\x7d"]) fun _ => False := by
  unfold getKeyValuePair
  split
  · refine (always_op _).bind fun found _ => ?_
    cases found with
    | none => exact List.mem_cons_of_mem _ List.mem_cons_self
    | some value => exact List.mem_cons_self
  · exact List.mem_cons_of_mem _ (List.mem_cons_of_mem _ List.mem_cons_self)

/-- The texts of `insertKeyValuePair`. -/
def insertAnswers : List Bytes :=
  [ascii "\x7b\"result\":false,\"error\":\"key already exists\"\x7d",
    ascii "\x7b\"result\":true\x7d",
    ascii "\x7b\"result\":false,\"error\":\"data failed to save\"\x7d",
    ascii "\x7b\"result\":false,\"error\":\"db status error\"\x7d"]

theorem always_insertKeyValuePair (failIfExists : Bool) (x : RValue) :
    (insertKeyValuePair c failIfExists x).Always (fun r => r.2 ∈ insertAnswers)
      fun _ => True := by
  unfold insertKeyValuePair
  refine (always_ofExcept_any _).bind fun key _ => ?_
  refine (always_harmless (always_getKeyValuePair c key)).bind fun found _ => ?_
  split
  · exact List.mem_cons_self
  refine (always_ofExcept_any _).bind fun w _ => ?_
  split
  · refine (always_harmless (always_commitPut c key (dump w))).bind fun ok _ => ?_
    cases ok with
    | false => exact Prog.Always.pure (by simp [insertAnswers])
    | true => exact Prog.Always.pure (by simp [insertAnswers])
  · exact Prog.Always.pure (by simp [insertAnswers])

theorem readsDocument_put :
    ReadsDocument (put c) (ascii "\x7b\"error\": \"Invalid put body\"\x7d") := by
  refine ⟨fun text hnone => ?_, fun text x hx => ?_, by simp [ascii, dispatchError]⟩
  · rw [put, insert, hnone]
  · rw [put, insert, hx]
    refine (always_insertKeyValuePair c false x).mono (fun r hr => ?_) fun _ h => h
    have hall : ∀ t ∈ insertAnswers, t ≠ ascii "\x7b\"error\": \"Invalid put body\"\x7d" ∧
        t ≠ dispatchError := by
      simp [insertAnswers, ascii, dispatchError]
    exact hall r.2 hr

theorem readsDocument_putAtom : ReadsDocument (putAtom c)
    (ascii "\x7b\"result\":false, \"error\": \"invalid put body\"\x7d") := by
  refine ⟨fun text hnone => ?_, fun text x hx => ?_, by simp [ascii, dispatchError]⟩
  · rw [putAtom, hnone]
  · have hpairs : ∀ vs i, (putPairs c vs i).Always (fun _ => True) (fun _ => True) := by
      intro vs
      induction vs with
      | nil => exact fun _ => trivial
      | cons v vs ih =>
        intro i
        exact ((always_insertKeyValuePair c false v).mono (fun _ _ => trivial)
          fun _ _ => trivial).bind (P := fun _ => True) fun r _ => ih _
    rw [putAtom, hx]
    refine (always_catchRuntime (E := fun _ => True) ?_ ?_).mono (fun _ h => h) fun _ _ => trivial
    · refine (always_ofExcept_any _).bind fun vs _ => (hpairs vs 0).bind fun i _ => ?_
      refine Prog.Always.pure ⟨?_, ?_⟩ <;> rw [List.append_assoc]
      · exact append_ne_of_take (by simp [ascii])
      · exact append_ne_of_take (by simp [ascii, dispatchError])
    · exact Prog.Always.pure (by simp [ascii, dispatchError])

/-- The texts of `Core::remove`. -/
def removeAnswers : List Bytes :=
  [ascii "\x7b\"result\":1\x7d", ascii "\x7b\"result\":0\x7d",
    ascii "\x7b\"result\":-1\x7d"]

theorem always_remove (key : Bytes) :
    (remove c key).Always (fun r => r.2 ∈ removeAnswers) fun _ => False := by
  unfold remove
  split
  · refine (always_op _).bind fun found _ => ?_
    cases found with
    | none => exact Prog.Always.pure (by simp [removeAnswers])
    | some value =>
      refine (always_commitDelete c key).bind fun ok _ => ?_
      cases ok with
      | false => exact Prog.Always.pure (by simp [removeAnswers])
      | true => exact Prog.Always.pure (by simp [removeAnswers])
  · exact Prog.Always.pure (by simp [removeAnswers])

theorem always_removeAll (wild : Bytes) (win : Window) :
    (removeAll c wild win).Always (fun _ => True) fun _ => False := by
  unfold removeAll
  split
  · exact (always_op _).bind fun store _ => (always_commitBatch c _).bind fun _ _ => trivial
  · exact trivial

theorem always_removeAtom (text : Bytes) : (removeAtom c text).Always (fun r => load text ≠ none →
    r.2 ≠ ascii "\x7b\"result\":false, \"error\": \"invalid remove body\"\x7d" ∧
      r.2 ≠ dispatchError) PassesBarrier := by
  unfold removeAtom
  cases hload : load text with
  | none => exact Prog.Always.pure fun h => absurd rfl h
  | some x =>
    have hkeys : ∀ vs i, (removeKeys c vs i).Always (fun _ => True) (fun _ => True) := by
      intro vs
      induction vs with
      | nil => exact fun _ => trivial
      | cons v vs ih =>
        intro i
        exact (always_ofExcept_any _).bind fun key _ =>
          (always_harmless (always_remove c key)).bind fun r _ => ih _
    refine always_catchRuntime (E := fun _ => True) ?_ ?_
    · refine (always_ofExcept_any _).bind fun vs _ => (hkeys vs 0).bind fun i _ => ?_
      refine Prog.Always.pure fun _ => ⟨?_, ?_⟩ <;> rw [List.append_assoc]
      · exact append_ne_of_take (by simp [ascii])
      · exact append_ne_of_take (by simp [ascii, dispatchError])
    · exact Prog.Always.pure fun _ => by simp [ascii, dispatchError]

theorem readsDocument_removeAtom : ReadsDocument (removeAtom c)
    (ascii "\x7b\"result\":false, \"error\": \"invalid remove body\"\x7d") := by
  refine ⟨fun text hnone => ?_, fun text x hx => ?_, by simp [ascii, dispatchError]⟩
  · rw [removeAtom, hnone]
  · exact (always_removeAtom c text).mono (fun r hr => hr (by simp [hx])) fun _ _ => trivial

theorem readsDocument_atom : ReadsDocument (atom c)
    (ascii "\x7b\"result\":false, \"error\": \"invalid atom body\"\x7d") := by
  refine ⟨fun text hnone => ?_, fun text x hx => ?_, by simp [ascii, dispatchError]⟩
  · rw [atom, hnone]
  · have hremove : ∀ body, (atomRemove c body).Always (fun _ => True) (fun _ => True) := by
      rintro (_ | body)
      · exact trivial
      · exact (always_removeAtom c body).mono (fun _ _ => trivial) fun _ _ => trivial
    have hremoveAll : ∀ result wild,
        (atomRemoveAll c result wild).Always (fun _ => True) (fun _ => True) := by
      rintro result (_ | wild)
      · exact trivial
      · exact (always_harmless (always_removeAll c wild _)).bind fun _ _ => trivial
    have hput : ∀ body, (atomPut c body).Always (fun _ => True) (fun _ => True) := by
      rintro (_ | body)
      · exact trivial
      · change (putAtom c body).Always _ _
        cases hload : load body with
        | none =>
          rw [(readsDocument_putAtom c).refused body hload]
          exact trivial
        | some y =>
          exact ((readsDocument_putAtom c).answered body y hload).mono (fun _ _ => trivial)
            fun _ _ => trivial
    rw [atom, hx]
    refine (always_ofExcept_any _).bind fun removeBody _ => (hremove _).bind fun removed _ =>
      (always_ofExcept_any _).bind fun wild _ => (hremoveAll _ _).bind fun result _ => ?_
    have hfalse : ascii "\x7b\"result\":false\x7d" ≠
          ascii "\x7b\"result\":false, \"error\": \"invalid atom body\"\x7d" ∧
        ascii "\x7b\"result\":false\x7d" ≠ dispatchError := by
      simp [ascii, dispatchError]
    dsimp only
    split
    · refine (always_ofExcept_any _).bind fun putBody _ => (hput _).bind fun put _ => ?_
      split
      · refine Prog.Always.pure ⟨?_, ?_⟩ <;> simp only [List.append_assoc]
        · exact append_ne_of_take (by simp [ascii])
        · exact append_ne_of_take (by simp [ascii, dispatchError])
      · exact Prog.Always.pure hfalse
    · exact Prog.Always.pure hfalse

theorem always_dumpPair (key value : Bytes) : (dumpPair c key value).Always (fun r => r.2 ∈
    [ascii "\x7b\"result\":true\x7d", ascii "\x7b\"result\":false\x7d"]) fun _ => False := by
  unfold dumpPair
  split
  · refine (always_commitPut c key value).bind fun ok _ => ?_
    cases ok with
    | false => exact Prog.Always.pure (by simp)
    | true => exact Prog.Always.pure (by simp)
  · exact Prog.Always.pure (by simp)

theorem readsDocument_incrementValue : ReadsDocument (incrementValue c)
    (ascii "\x7b\"error\": \"Invalid put body\"\x7d") := by
  refine ⟨fun text hnone => ?_, fun text x hx => ?_, by simp [ascii, dispatchError]⟩
  · rw [incrementValue, hnone]
  · have hpair : ∀ t ∈ [ascii "\x7b\"result\":true\x7d", ascii "\x7b\"result\":false\x7d",
        ascii "\x7b\"error\":\"db status error\"\x7d"],
        t ≠ ascii "\x7b\"error\": \"Invalid put body\"\x7d" ∧ t ≠ dispatchError := by
      simp [ascii, dispatchError]
    rw [incrementValue, hx]
    refine (always_ofExcept_any _).bind fun key _ => ?_
    refine ((always_getKeyValuePair c key).mono (fun _ h => h) fun _ h => h.elim).bind
      fun found hfound => ?_
    cases found.1 with
    | none => exact Prog.Always.pure (by simp [ascii, dispatchError])
    | some readValue =>
      refine (always_ofExcept_any _).bind fun value _ => ?_
      rcases value with _ | ⟨w, affected⟩
      · exact Prog.Always.pure (hpair _ hfound)
      · refine ((always_dumpPair c key (dump w)).mono (fun _ h => h) fun _ h => h.elim).bind
          fun r hr => ?_
        split
        · refine Prog.Always.pure ⟨?_, ?_⟩ <;> rw [List.append_assoc]
          · exact append_ne_of_take (by simp [ascii])
          · exact append_ne_of_take (by simp [ascii, dispatchError])
        · exact Prog.Always.pure (hpair _ (List.mem_append_left _ hr))

/-! ## Counters -/

omit [HashOrder] in
theorem always_get (key : Bytes) : (get c key).Always (fun _ => True) fun _ => False := by
  unfold get
  split
  · exact (always_op _).bind fun _ _ => trivial
  · split
    · exact always_op _
    · exact trivial

/-- The texts of `Core::increment`. -/
def incrementAnswers : List Bytes :=
  [ascii "\x7b\"result\":true\x7d", ascii "\x7b\"result\":false\x7d",
    ascii "\x7b\"result\":false, \"error:\"Value to increment is not an integer\"\x7d",
    ascii "\x7b\"result\":false, \"error\":\"Out of range\"\x7d",
    ascii "\x7b\"result\":false, \"error:\"Unknown\"\x7d"]

theorem always_increment (key : Bytes) (stepBy : ℤ) :
    (increment c key stepBy).Always (fun r => r.2 ∈ incrementAnswers) fun _ => False := by
  refine always_withLock ((always_get c key).bind fun found _ => ?_)
  cases found with
  | none => exact Prog.Always.pure (by simp [incrementAnswers])
  | some val =>
    simp only [addTo]
    split
    · refine (always_dumpPair c key _).bind fun r hr => Prog.Always.pure ?_
      exact List.mem_append_left [_, _, _] hr
    all_goals exact Prog.Always.pure (by simp [incrementAnswers])

end

/-! ## Listings -/

section

variable (c : Config)

theorem always_scanDb {α : Type} {wild : Bytes} {list : Store → Except Failure α}
    (h : ∀ store f, list store = .error f → PassesBarrier f) :
    (scanDb c wild list).Always (fun r => ∀ a, r = some a → ∃ store, list store = .ok a)
      PassesBarrier := by
  unfold scanDb
  split
  · refine (always_op _).bind fun store _ => ?_
    refine (always_ofExcept (P := fun a => list store = .ok a) (fun _ h => h) (h store)).bind
      fun a ha => Prog.Always.pure ?_
    rintro _ ⟨⟩
    exact ⟨store, ha⟩
  · exact Prog.Always.pure fun a h => by cases h

theorem cachedTaken_passes {reversed : Bool} {cache : Store} {wild : Bytes} {win : Window}
    {f : Failure} (h : cachedTaken reversed cache wild win = .error f) : PassesBarrier f := by
  rw [cachedTaken_error h]
  rfl

theorem listedReversed_passes {store : Store} {wild : Bytes} {win : Window} {f : Failure}
    (h : listedReversed store wild win = .error f) : PassesBarrier f := by
  unfold listedReversed at h
  split at h <;> cases h
  rfl

/-- A listing as a text: it is empty, or it starts as an object with a result. -/
def IsListing (text : Bytes) : Prop := text = [] ∨ ∃ rest, text = ascii "\x7b\"result\":" ++ rest

theorem isListing_resultText (es : List Entry) : IsListing (resultText es) := by
  refine Or.inr ⟨91 :: (joinComma (es.map textItem) ++ ascii "]\x7d"), ?_⟩
  rw [resultText, List.append_assoc]
  rfl

theorem always_cachedText (reversed : Bool) (wild : Bytes) (win : Window) (cache : Store) :
    (ofExcept (getCachedKeysText false reversed cache wild [] win)).Always
      (fun r => IsListing r.2) PassesBarrier := by
  refine always_ofExcept (fun r hr => ?_) fun f hf => ?_
  · unfold getCachedKeysText at hr
    split at hr
    · cases hr
      exact Or.inl rfl
    · obtain ⟨taken, -, hr⟩ := of_bind_ok hr
      rw [← Except.ok.inj hr]
      exact isListing_resultText taken
  · unfold getCachedKeysText at hf
    split at hf
    · cases hf
    · cases htaken : cachedTaken reversed cache wild win with
      | error f' =>
        rw [htaken] at hf
        cases hf
        exact cachedTaken_passes htaken
      | ok taken =>
        rw [htaken] at hf
        cases hf

/-- A listing that is refused gives no text. -/
theorem always_listingText (reversed : Bool) (wild : Bytes) (win : Window) :
    (callListing c reversed wild win).Always (fun r => IsListing r.2 ∧ (r.1 = false → r.2 = []))
      PassesBarrier := by
  unfold callListing
  cases reversed with
  | true =>
    rw [if_pos rfl, getKeysReversedText]
    split
    · refine (always_op _).bind fun cache _ => (always_cachedText true wild win cache).bind
        fun r hr => Prog.Always.pure ⟨hr, fun h => by cases h⟩
    · refine (always_scanDb c fun store f hf => ?_).bind fun r hr => ?_
      · cases hlisted : listedReversed store wild win with
        | error f' =>
          rw [hlisted] at hf
          cases hf
          exact listedReversed_passes hlisted
        | ok es =>
          rw [hlisted] at hf
          cases hf
      · cases r with
        | none => exact Prog.Always.pure ⟨Or.inl rfl, fun _ => rfl⟩
        | some text =>
          refine Prog.Always.pure ⟨?_, fun h => by cases h⟩
          obtain ⟨store, hstore⟩ := hr text rfl
          cases hlisted : listedReversed store wild win with
          | error f' =>
            rw [hlisted] at hstore
            cases hstore
          | ok es =>
            rw [hlisted] at hstore
            cases hstore
            exact isListing_resultText es
  | false =>
    rw [if_neg Bool.false_ne_true, getKeysText]
    split
    · refine (always_op _).bind fun cache _ => (always_cachedText false wild win cache).bind
        fun r hr => Prog.Always.pure ⟨hr, fun h => by cases h⟩
    · refine (always_scanDb c fun store f hf => (by cases hf)).bind fun r hr => ?_
      cases r with
      | none => exact Prog.Always.pure ⟨Or.inl rfl, fun _ => rfl⟩
      | some text =>
        refine Prog.Always.pure ⟨?_, fun h => by cases h⟩
        obtain ⟨store, hstore⟩ := hr text rfl
        cases hstore
        exact isListing_resultText _

/-- What the handlers answer with is a listing. -/
theorem always_listedText (reversed : Bool) (wild : Bytes) (win : Window) :
    (listedText c reversed wild win).Always IsListing PassesBarrier := by
  refine (always_listingText c reversed wild win).bind fun r hr => ?_
  split
  · exact Prog.Always.pure hr.1
  · next hfailed =>
    rw [hr.2 (by simpa using hfailed)]
    exact Prog.Always.throw rfl

theorem IsListing.ne_dispatchError {text : Bytes} (h : IsListing text) : text ≠ dispatchError := by
  rcases h with rfl | ⟨rest, rfl⟩
  · decide +kernel
  · exact append_ne_of_take (by simp [ascii, dispatchError])

/-- A number holds no quotation mark. -/
theorem toString_ne_dispatchError (z : ℤ) : toString z ≠ dispatchError := by
  intro h
  have hquote : (34 : UInt8) ∈ toString z := by
    rw [h]
    simp [ascii, dispatchError]
  have hdigit : (34 : UInt8) ∉ decimal z.natAbs := fun hmem =>
    absurd (isDigit_of_mem_decimal hmem) (by decide)
  unfold toString at hquote
  split at hquote
  · rcases List.mem_cons.mp hquote with hsign | hmem
    · exact absurd hsign (by decide)
    · exact hdigit hmem
  · exact hdigit hquote

theorem always_getCount (wild : Bytes) (out : ℤ) (win : Window) :
    (getCount c wild out win).Always (fun _ => True) PassesBarrier := by
  unfold getCount
  split
  · refine (always_op _).bind fun cache _ => (always_ofExcept (P := fun _ => True)
      (fun _ _ => trivial) fun f hf => ?_).bind fun r _ => trivial
    unfold getCachedKeys at hf
    split at hf
    · cases hf
    · cases htaken : cachedTaken false cache wild win with
      | error f' =>
        rw [htaken] at hf
        cases hf
        exact cachedTaken_passes htaken
      | ok taken =>
        rw [htaken] at hf
        cases hf
  · refine (always_scanDb c fun store f hf => (by cases hf)).bind fun r _ => ?_
    cases r <;> exact trivial

theorem always_iter (win : Window) : (iter c win).Always (fun _ => True) PassesBarrier := by
  unfold iter
  split
  · exact (always_op _).bind fun store _ => always_ofExcept (fun _ _ => trivial) fun f hf =>
      Routing.collect_error Routing.appendsFor_keyedItems hf
  · exact trivial

theorem always_iterReversed (win : Window) :
    (iterReversed c win).Always (fun _ => True) PassesBarrier := by
  unfold iterReversed
  split
  · exact (always_op _).bind fun store _ => always_ofExcept (fun _ _ => trivial) fun f hf =>
      Routing.collect_error Routing.appendsFor_keyedItems hf
  · exact trivial

theorem always_getListText (x : RValue) (win : Window) :
    (getListText c x [] win).Always (fun r => IsListing r.2) PassesBarrier := by
  have hloop : ∀ (vs : List RValue) (i : ℤ),
      (listLoop (fun s => do return (← get c s).map fun value => (s, value)) win vs i).Always
        (fun _ => True) PassesBarrier := by
    intro vs
    induction vs with
    | nil => exact fun _ => trivial
    | cons v vs ih =>
      intro i
      have hitem : ∀ s, (do return (← get c s).map fun value => (s, value)).Always
          (fun _ : Option Entry => True) (fun _ => True) := fun s =>
        (always_harmless (always_get c s)).bind fun found _ => Prog.Always.pure trivial
      refine (always_catchRuntime (P := fun _ : Option (Option Entry) => True) (E := fun _ => True)
        ((always_ofExcept_any v.s).bind fun s _ => (hitem s).bind fun _ _ =>
          Prog.Always.pure trivial) (Prog.Always.pure trivial)).bind fun item _ => ?_
      cases item with
      | none => exact Prog.Always.pure trivial
      | some found => exact (ih _).bind fun r _ => Prog.Always.pure trivial
  unfold getListText
  split
  · refine Prog.Always.bind (P := fun _ => True) ?_ fun r _ => ?_
    · unfold listArgs
      split
      · exact hloop _ _
      · exact Prog.Always.pure trivial
    · split
      · exact Prog.Always.pure (isListing_resultText _)
      · refine Prog.Always.pure (Or.inr ⟨91 :: (joinComma (r.2.map textItem) ++ ascii "]" ++
          ascii ",\"error\":\"runtime error\"\x7d"), ?_⟩)
        have hclose : resultText r.2 = ascii "\x7b\"result\":" ++
            (91 :: (joinComma (r.2.map textItem) ++ ascii "]")) ++ [125] := by
          simp [resultText, ascii]
        simp only [hclose, List.dropLast_concat]
        simp
  · exact Prog.Always.pure (Or.inl rfl)

theorem always_pairsOf {field : Bytes} {look : (p lastPrefix : Bytes) → CoreM (Bool × List WValue)}
    (hlook : ∀ p lastPrefix, (look p lastPrefix).Always (fun _ => True) PassesBarrier)
    (x : RValue) : (pairsOf c field look x).Always (fun _ => True) PassesBarrier := by
  have hloop : ∀ (vs : List RValue) (lastPrefix : Option Bytes) (out : List WValue),
      (pairsLoop field look vs lastPrefix out).Always (fun _ => True) PassesBarrier := by
    intro vs
    induction vs with
    | nil => exact fun _ _ => trivial
    | cons v vs ih =>
      intro lastPrefix out
      unfold pairsLoop
      split
      · split
        · exact Prog.Always.pure trivial
        · next h => exact Prog.Always.throw (by simpa [PassesBarrier] using h)
      · split
        · exact ih _ _
        · refine (hlook _ _).bind fun r _ => ?_
          split
          · exact (ih _ _).bind fun _ _ => Prog.Always.pure trivial
          · exact ih _ _
  unfold pairsOf
  split
  · split
    · exact hloop _ _ _
    · exact Prog.Always.pure trivial
  · exact Prog.Always.pure trivial

theorem always_getKeysAfter (x : RValue) (win : Window) :
    (getKeysAfter c x win).Always (fun _ => True) PassesBarrier := by
  refine always_pairsOf c (fun p lastPrefix => ?_) x
  unfold getAfter
  split
  · exact (always_op _).bind fun store _ => always_ofExcept (fun _ _ => trivial) fun f hf =>
      Routing.collect_error Routing.appendsFor_keyedItems hf
  · exact Prog.Always.pure trivial

theorem always_getLast (key pre : Bytes) :
    (getLast c key pre).Always (fun _ => True) PassesBarrier := by
  have hpasses : ∀ store f, lastAfter store key pre = .error f → PassesBarrier f :=
    fun store f hf => @Routing.lastAfter_error ⟨store, store, [], []⟩ (pre, key) f hf
  unfold getLast
  -- else the numbers in it are evaluated
  generalize lastAfter = look at hpasses
  split
  · exact (always_op _).bind fun store _ => always_ofExcept (fun _ _ => trivial) (hpasses store)
  · exact Prog.Always.pure trivial

theorem always_getKeysLast (x : RValue) :
    (getKeysLast c x).Always (fun _ => True) PassesBarrier :=
  always_pairsOf c (always_getLast c) x

end

/-! ## Printed answers -/

section

variable [HashOrder]

/-- A printed object tells the value of each of its fields. -/
theorem dump_ne_of_field {w v : WValue} {name text : Bytes} {y : RValue} (hw : w.Distinct)
    (hv : w.field? name = some v) (htext : load text = some y)
    (hy : y.field name ≠ .ok (reread v)) : dump w ≠ text := by
  rintro rfl
  rw [load_dump] at htext
  cases htext
  exact hy (field_reread hw hv)

/-- Printing an object and loading it again changes the values of its fields only. -/
theorem toOption_field_reread {w : WValue} (hw : w.Distinct) (name : Bytes) :
    ((reread w).field name).toOption = (w.field? name).map reread := by
  cases hv : w.field? name with
  | some v =>
    rw [field_reread hw hv]
    rfl
  | none =>
    cases w with
    | object o =>
      have hnodup : ((HashOrder.arrange o).map Prod.fst).Nodup :=
        ((HashOrder.perm o).map Prod.fst).nodup_iff.mpr hw
      have hlookup : (HashOrder.arrange o).lookup name = none := by
        rw [lookup_perm (HashOrder.perm o) hnodup]
        exact hv
      rw [reread_object, RValue.field, lookup_map, hlookup]
      rfl
    | _ => rfl

/-- Objects that are printed alike have the same fields. -/
theorem map_reread_field? {w w' : WValue} (hw : w.Distinct) (hw' : w'.Distinct)
    (h : dump w = dump w') (name : Bytes) :
    (w.field? name).map reread = (w'.field? name).map reread := by
  have hreread : reread w = reread w' := by
    have hload := load_dump w
    rw [h, load_dump w'] at hload
    exact (Option.some.inj hload).symm
  rw [← toOption_field_reread hw, hreread, toOption_field_reread hw']

theorem always_printed {p : CoreM WValue} {P : WValue → Prop} {Q : Bytes → Prop}
    {E : Failure → Prop} (hp : p.Always P E) (h : ∀ w, P w → Q (dump w)) :
    (HttpRouter.printed p).Always Q E :=
  hp.bind fun w hw => Prog.Always.pure (h w hw)

theorem catchWhat_printed {p : CoreM WValue} {P : WValue → Prop} (hp : p.Always P PassesBarrier)
    (g : Bytes → Bytes) : catchWhat (HttpRouter.printed p) g = HttpRouter.printed p :=
  catchWhat_eq (always_printed (Q := fun _ => True) hp fun _ _ => trivial)

omit [HashOrder] in
theorem load_dispatchError : load dispatchError =
    some (.object [(ascii "error", .string (ascii "dispatch error"))]) := by
  cbv

/-- An object with a field that is not the error is not printed as the text of the dispatcher. -/
theorem dump_ne_of_other {w v : WValue} {name : Bytes} (hw : w.Distinct)
    (hv : w.field? name = some v) (hname : name ≠ ascii "error") : dump w ≠ dispatchError := by
  refine dump_ne_of_field hw hv load_dispatchError ?_
  rw [RValue.field, lookup_cons_eq, if_neg hname]
  exact fun h => by cases h

/-- An object with another error is not printed as the text of the dispatcher either. -/
theorem dump_ne_of_error {w : WValue} {text : Bytes} (hw : w.Distinct)
    (hv : w.field? (ascii "error") = some (.string text))
    (htext : escape text ≠ ascii "dispatch error") : dump w ≠ dispatchError := by
  refine dump_ne_of_field hw hv load_dispatchError ?_
  rw [RValue.field, lookup_cons_eq, if_pos rfl, reread]
  intro h
  exact htext (RValue.string.inj (Except.ok.inj h)).symm

omit [HashOrder] in
theorem distinct_set (name : Bytes) (v : WValue) : (WValue.null.set name v).Distinct :=
  WValue.Distinct.set (w := .null) trivial name v

omit [HashOrder] in
theorem queryAnswer_fields (r : Bool × List WValue) : (Routing.queryAnswer r).Distinct ∧
    (Routing.queryAnswer r).field? (ascii "result") = some (.list r.2) := by
  unfold Routing.queryAnswer
  dsimp only
  split
  · exact ⟨distinct_set _ _, by simp [WValue.field?_set]⟩
  · refine ⟨(distinct_set _ _).set _ _, ?_⟩
    rw [WValue.field?_set, if_neg (by decide), WValue.field?_set, if_pos rfl]

theorem dump_invalidParameters_ne : dump Routing.invalidParameters ≠ dispatchError := by
  have hresult : Routing.invalidParameters.field? (ascii "result") = some (.string []) := by
    rw [Routing.invalidParameters, WValue.field?_set, if_neg (by decide), WValue.field?_set,
      if_pos rfl]
  exact dump_ne_of_other ((distinct_set _ _).set _ _) hresult (by decide)

omit [HashOrder] in
theorem listAnswer_fields (r : Bool × List WValue) : (Routing.listAnswer r).Distinct ∧
    (Routing.listAnswer r).field? (ascii "result") = some (.list r.2) := by
  unfold Routing.listAnswer
  dsimp only
  split
  · exact ⟨(distinct_set _ _).set _ _, by simp [WValue.field?_set]⟩
  · refine ⟨((distinct_set _ _).set _ _).set _ _, ?_⟩
    rw [WValue.field?_set, if_neg (by decide), WValue.field?_set, if_pos rfl]

theorem dump_queryAnswer_ne (r : Bool × List WValue) :
    dump (Routing.queryAnswer r) ≠ dispatchError :=
  dump_ne_of_other (queryAnswer_fields r).1 (queryAnswer_fields r).2
    (show ascii "result" ≠ ascii "error" by decide)

theorem dump_listAnswer_ne (r : Bool × List WValue) :
    dump (Routing.listAnswer r) ≠ dispatchError :=
  dump_ne_of_other (listAnswer_fields r).1 (listAnswer_fields r).2
    (show ascii "result" ≠ ascii "error" by decide)

end

end Quarks
