import Quarks.CachedListing
import Quarks.Routing.Containment

/-!
# What brings a callback down

For each callback that may raise more than runtime errors, the condition on its request and on
the data under which it does not. Values that are read have to be convertible, as a number
beyond the range of doubles is a JSON document; listings of the cache need an entry to stop at;
and names are looked up in objects only.
-/

namespace Quarks

open Basis

namespace Routing

variable (c : Config) (n : Node) (req : Request)

/-! ## Fields of a request -/

theorem runtimeOnly_s (x : RValue) : RuntimeOnly x.s := by
  cases x <;> simp [RValue.s, Failure.isRuntimeError]

theorem runtimeOnly_b (x : RValue) : RuntimeOnly x.b := by
  cases x <;> simp [RValue.b, Failure.isRuntimeError]

theorem runtimeOnly_elements (x : RValue) : RuntimeOnly x.elements := by
  cases x <;> simp [RValue.elements, Failure.isRuntimeError]

theorem runtimeOnly_size (x : RValue) : RuntimeOnly x.size := by
  cases x <;> simp [RValue.size, Failure.isRuntimeError]

theorem runtimeOnly_field (x : RValue) (name : Bytes) : RuntimeOnly (x.field name) := by
  cases x with
  | object o =>
    simp only [RValue.field]
    split <;> simp [Failure.isRuntimeError]
  | _ => simp [RValue.field, Failure.isRuntimeError]

/-- Looking a name up raises more than a runtime error in a list with elements only. -/
theorem runtimeOnly_has {x : RValue} {name : Bytes} :
    RuntimeOnly (x.has name) ↔ ∀ y l, x ≠ .list (y :: l) := by
  cases x with
  | list l =>
    cases l with
    | nil => simp [RValue.has]
    | cons y l => simp [RValue.has, Failure.isRuntimeError]
  | _ => simp [RValue.has, Failure.isRuntimeError]

theorem runtimeOnly_bodyText (x : RValue) : RuntimeOnly (bodyText x) := by
  refine RuntimeOnly.bind.mpr ⟨runtimeOnly_size x, fun size _ => ?_⟩
  split
  · exact runtimeOnly_s x
  · trivial

/-- A field is read by its name, and what reads it may raise more. -/
theorem runtimeOnly_fieldOr {α : Type} {x : RValue} {name : Bytes}
    {read : RValue → Except Failure α} {dflt : α} (hx : ∀ y l, x ≠ .list (y :: l)) :
    RuntimeOnly (fieldOr x name read dflt) ↔ ∀ y, x.field name = .ok y → RuntimeOnly (read y) := by
  have hhas : RuntimeOnly (x.has name) := runtimeOnly_has.mpr hx
  unfold fieldOr
  rw [RuntimeOnly.bind_do]
  constructor
  · rintro ⟨-, h⟩ y hy
    have hfound : x.has name = .ok true := by
      cases x with
      | object o =>
        simp only [RValue.field] at hy
        split at hy
        · next v hv => simp [RValue.has, hv]
        · cases hy
      | _ => cases hy
    have hread := h true hfound
    rw [if_pos rfl, hy] at hread
    exact hread
  · intro h
    refine ⟨hhas, fun found _ => ?_⟩
    split
    · exact RuntimeOnly.bind.mpr ⟨runtimeOnly_field x name, h⟩
    · trivial

/-- The value of a request has names. -/
theorem Request.WellFormed.not_list {req : Request} (h : req.WellFormed) :
    ∀ y l, req.req ≠ .list (y :: l) := by
  rintro y l hreq
  rcases h.named with hnull | ⟨o, ho⟩
  · rw [hnull] at hreq
    cases hreq
  · rw [ho] at hreq
    cases hreq

theorem Request.WellFormed.get {req : Request} (h : req.WellFormed) (attrib : Bytes) :
    RuntimeOnly (req.get attrib) :=
  (runtimeOnly_fieldOr h.not_list).mpr fun y _ => runtimeOnly_s y

theorem Request.WellFormed.bodyJson {req : Request} (h : req.WellFormed) :
    RuntimeOnly req.bodyJson :=
  (runtimeOnly_fieldOr h.not_list).mpr fun _ _ => trivial

/-- What an object has to be for the constructor of a request: numbers that are read are 64-bit
integers. -/
structure FieldsRead (x : RValue) : Prop where
  skip : ∀ query body y, fieldOr x (ascii "query") RValue.s [] = .ok query →
    fieldOr x (ascii "body") bodyText [] = .ok body → x.field (ascii "skip") = .ok y →
      RuntimeOnly y.i
  limit : ∀ query body skip y, fieldOr x (ascii "query") RValue.s [] = .ok query →
    fieldOr x (ascii "body") bodyText [] = .ok body →
    fieldOr x (ascii "skip") (fun y => y.i.map int32) 0 = .ok skip →
    x.field (ascii "limit") = .ok y → RuntimeOnly y.i

theorem runtimeOnly_make {request : Bytes}
    (hobject : ∀ x, load request = some x → ∃ o, x = .object o) :
    RuntimeOnly (Request.make request) ↔ ∀ x, load request = some x → FieldsRead x := by
  unfold Request.make
  split
  · next hnone => simp [hnone]
  next x hx =>
  have hnamed : ∀ y l, x ≠ .list (y :: l) := by
    obtain ⟨o, rfl⟩ := hobject x hx
    intro y l h
    cases h
  have hint : ∀ {y : RValue}, RuntimeOnly (y.i.map int32) ↔ RuntimeOnly y.i := RuntimeOnly.map
  simp only [RuntimeOnly.bind_do, runtimeOnly_fieldOr hnamed, hint]
  constructor
  · rintro ⟨-, h⟩ x' hx'
    rw [hx] at hx'
    cases hx'
    refine ⟨fun query body y hquery hbody hy => ?_,
      fun query body skip y hquery hbody hskip hy => ?_⟩
    · exact ((h query hquery).2 body hbody).1 y hy
    · exact (((h query hquery).2 body hbody).2 skip hskip).1 y hy
  · intro h
    obtain ⟨hskip, hlimit⟩ := h x hx
    refine ⟨fun y _ => runtimeOnly_s y, fun query hquery => ⟨fun y _ => runtimeOnly_bodyText y,
      fun body hbody => ⟨fun y hy => hskip query body y hquery hbody hy, fun skip hs =>
        ⟨fun y hy => hlimit query body skip y hquery hbody hs hy, fun limit _ =>
          ⟨fun y _ => runtimeOnly_b y, fun reverse _ => trivial⟩⟩⟩⟩⟩

/-! ## Callbacks that are always contained -/

section

variable {n : Node} {req : Request} (h : req.WellFormed)
include h

/-- A body that cannot be parsed is refused, and the text of a body always is. -/
theorem emptyBody {p : Bytes → CoreM (Bool × Bytes)} {r : Bool × Bytes}
    (hp : p [] = pure r) : ContainedIff n (do return (← p req.body).2) True := by
  rw [h.body, hp]
  exact ContainedIff.pure

/-- The callbacks that hand the text of the body to the core. -/
theorem bodyCallbacks [HashOrder] :
    ContainedIff n (routeCorePutCallback c req) True ∧
      ContainedIff n (routeCorePutjsonCallback c req) True ∧
      ContainedIff n (routeCorePostjsonCallback c req) True ∧
      ContainedIff n (routeCorePutatomCallback c req) True ∧
      ContainedIff n (routeCoreRemoveatomCallback c req) True ∧
      ContainedIff n (routeCoreAtomCallback c req) True ∧
      ContainedIff n (routeCoreIncrvalueCallback c req) True :=
  ⟨emptyBody h (p := put c) rfl, emptyBody h (p := put c) rfl, emptyBody h (p := post c) rfl,
    emptyBody h (p := putAtom c) rfl, emptyBody h (p := removeAtom c) rfl,
    emptyBody h (p := atom c) rfl, emptyBody h (p := incrementValue c) rfl⟩

omit h in
theorem existkeyCallback : ContainedIff n (routeCoreExistkeyCallback c req) True := by
  refine (ContainedIff.always (Contained.of_triple fun faults => ?_)).map
  exact (getKeyValuePair_triple c).mono (fun _ hn => hn) (fun _ _ _ => trivial) fun _ hn => hn

omit h in
theorem contained_get {key : Bytes} {I : Node → Prop} :
    Contained I (get c key) fun _ _ => True :=
  Contained.of_triple fun _ => get_triple c (fun _ _ _ _ => trivial) (fun _ _ _ _ => trivial)
    fun _ _ _ _ => trivial

theorem getCallback : ContainedIff n (routeCoreGetCallback c req) True := by
  refine ContainedIff.catchWhat ((ContainedIff.ofExcept_of_runtimeOnly (C := fun _ => True)
    (h.get _) fun key _ => ?_).congr (by simp))
  exact (ContainedIff.always (contained_get c)).map

theorem removekeyCallback [HashOrder] : ContainedIff n (routeCoreRemovekeyCallback c req) True := by
  refine ContainedIff.catchWhat ((ContainedIff.ofExcept_of_runtimeOnly (C := fun _ => True)
    (h.get _) fun key _ => ?_).congr (by simp))
  split
  · exact ContainedIff.pure
  · refine (ContainedIff.always (Contained.of_triple fun _ => ?_)).map
    exact remove_triple c (fun _ _ _ => trivial) fun _ _ _ => trivial

theorem removekeysCallback [HashOrder] :
    ContainedIff n (routeCoreRemovekeysCallback c req) True := by
  refine ContainedIff.catchWhat ((ContainedIff.ofExcept_of_runtimeOnly (C := fun _ => True)
    (h.get _) fun key _ => ?_).congr (by simp))
  split
  · exact ContainedIff.pure
  · refine (ContainedIff.always (Contained.of_triple fun _ => ?_)).map
    exact removeAll_triple c (fun _ _ _ => trivial) (fun _ _ _ _ => trivial) fun _ _ _ => trivial

theorem makeCallback [HashOrder] (outside : Outside) :
    ContainedIff n (routeCoreMakeCallback c outside req) True := by
  refine ContainedIff.catchWhat ?_
  rw [h.body]
  exact ContainedIff.pure

theorem getkeysmultiCallback (outside : Outside) :
    ContainedIff n (routeCoreGetkeysmultiCallback c outside req) True := by
  unfold routeCoreGetkeysmultiCallback
  rw [if_pos h.body]
  exact ContainedIff.pure

omit h in
theorem opentcpsocketCallback (outside : Outside) :
    ContainedIff n (routeCoreOpentcpsocketCallback outside req) True := by
  unfold routeCoreOpentcpsocketCallback
  split
  · exact ContainedIff.pure
  · exact ContainedIff.pure
  · next what _ =>
    exact (ContainedIff.of_yields fun _ => Yields.ofExcept (.error (.runtimeError what))).congr
      (by simp [Failure.isRuntimeError])

omit h in
theorem filetransferCallback (outside : Outside) :
    ContainedIff n (routeCoreFiletransferCallback outside req) True := by
  unfold routeCoreFiletransferCallback
  split <;> exact ContainedIff.pure

/-- A query on the body of a request. -/
theorem settled_withBody {α : Type} {missing : α} {query : RValue → CoreM α} {C : RValue → Prop}
    (hquery : ∀ x, req.bodyJson = .ok (some x) → ContainedIff n (query x) (C x)) :
    ContainedIff n (withBody req missing query) (∀ x, req.bodyJson = .ok (some x) → C x) := by
  refine (ContainedIff.ofExcept_of_runtimeOnly
    (C := fun found : Option RValue => ∀ x, found = some x → C x) h.bodyJson fun found hfound =>
      ?_).congr ⟨fun hC x hx => hC _ hx x rfl, fun hC found hfound x hx => hC x (hx ▸ hfound)⟩
  cases found with
  | none => exact ContainedIff.pure.congr (by simp)
  | some x => exact (hquery x hfound).congr (by simp)

end

/-! ## Callbacks that read values -/

/-- The values of the entries raise runtime errors only when they are read. -/
def ReadsWell (es : List Entry) : Prop := ∀ e ∈ es, RuntimeOnly (entryValue e.2)

/-- What a listing appends for an entry: reading its value raises an exception that goes on, or
something is appended. -/
structure AppendsFor (items : Entry → Except Failure (Bool × List WValue)) : Prop where
  appends : ∀ e, RuntimeOnly (entryValue e.2) → ∃ r, items e = .ok r
  raises : ∀ e, ¬RuntimeOnly (entryValue e.2) → ¬RuntimeOnly (items e)

theorem AppendsFor.runtimeOnly_iff {items : Entry → Except Failure (Bool × List WValue)}
    (h : AppendsFor items) {e : Entry} : RuntimeOnly (items e) ↔ RuntimeOnly (entryValue e.2) := by
  constructor
  · intro hitems
    by_contra hvalue
    exact h.raises e hvalue hitems
  · intro hvalue
    obtain ⟨r, hr⟩ := h.appends e hvalue
    rw [hr]
    trivial

theorem AppendsFor.error {items : Entry → Except Failure (Bool × List WValue)}
    (h : AppendsFor items) {e : Entry} {f : Failure} (hf : items e = .error f) :
    f.isRuntimeError = false := by
  by_contra hruntime
  have hread := h.runtimeOnly_iff (e := e)
  rw [hf] at hread
  obtain ⟨r, hr⟩ := h.appends e (hread.mp (by simpa using hruntime))
  rw [hf] at hr
  cases hr

theorem runtimeOnly_collect {items : Entry → Except Failure (Bool × List WValue)}
    (hitems : AppendsFor items) (es : List Entry) :
    RuntimeOnly (collect items es) ↔ ReadsWell es := by
  induction es with
  | nil => simp [collect, ReadsWell]
  | cons e es ih =>
    have hcons : RuntimeOnly (collect items (e :: es)) ↔ RuntimeOnly (items e) ∧
        ∀ r, items e = .ok r → RuntimeOnly (collect items es) := by
      refine RuntimeOnly.bind.trans (and_congr_right fun _ => forall₂_congr fun r _ => ?_)
      exact RuntimeOnly.bind.trans (and_iff_left fun rest _ => trivial)
    have hreads : ReadsWell (e :: es) ↔ RuntimeOnly (entryValue e.2) ∧ ReadsWell es :=
      List.forall_mem_cons
    rw [hcons, ih, hreads]
    by_cases he : RuntimeOnly (entryValue e.2)
    · obtain ⟨r, hr⟩ := hitems.appends e he
      simp [hr, he]
    · simp [he, hitems.raises e he]

/-- The exceptions of a listing go on. -/
theorem collect_error {items : Entry → Except Failure (Bool × List WValue)}
    (hitems : AppendsFor items) {es : List Entry} {f : Failure}
    (h : collect items es = .error f) : f.isRuntimeError = false := by
  induction es with
  | nil => cases h
  | cons e es ih =>
    unfold collect at h
    cases he : items e with
    | error f' =>
      rw [he] at h
      cases h
      exact hitems.error he
    | ok r =>
      rw [he] at h
      cases hes : collect items es with
      | error f' =>
        rw [hes] at h
        cases h
        exact ih hes
      | ok rest =>
        rw [hes] at h
        cases h

/-- A function that appends for a value that can be read, and that handles runtime errors. -/
theorem appendsFor_of {items : Entry → Except Failure (Bool × List WValue)}
    (hok : ∀ e v, entryValue e.2 = .ok v → ∃ r, items e = .ok r)
    (herror : ∀ e f, entryValue e.2 = .error f →
      ∃ r, items e = if f.isRuntimeError then .ok r else .error f) : AppendsFor items := by
  constructor
  · intro e he
    cases hv : entryValue e.2 with
    | ok v => exact hok e v hv
    | error f =>
      obtain ⟨r, hr⟩ := herror e f hv
      rw [hv] at he
      exact ⟨r, hr.trans (if_pos he)⟩
  · intro e he
    obtain ⟨f, hf, hescapes⟩ := RuntimeOnly.exists_of_not he
    obtain ⟨r, hr⟩ := herror e f hf
    rw [hr, hescapes]
    simp [hescapes]

theorem appendsFor_keyedItems : AppendsFor keyedItems :=
  appendsFor_of (fun e v h => ⟨_, by rw [keyedItems, h]⟩) fun e f h => ⟨_, by rw [keyedItems, h]⟩

theorem appendsFor_valueItems : AppendsFor valueItems :=
  appendsFor_of (fun e v h => ⟨_, by rw [valueItems, h]⟩) fun e f h => ⟨_, by rw [valueItems, h]⟩

/-- The values that `getAll` reads. -/
def GetallReads : Prop :=
  ∀ wild, req.wild = .ok wild → c.dbOk = true → startsWithStar wild = false →
    ReadsWell (listed n.db wild req.window)

/-- The values that `iter` reads. -/
def IterReads : Prop :=
  c.dbOk = true → ReadsWell (scan (fun _ => true) req.window n.db.entries)

section

variable {c : Config} {n : Node} {req : Request}

/-- A listing by pattern raises what it raises for the content of the database. -/
theorem settled_scanDb {α : Type} {wild : Bytes} {list : Store → Except Failure α} :
    ContainedIff n (scanDb c wild list)
      (c.dbOk = true → startsWithStar wild = false → RuntimeOnly (list n.db)) := by
  by_cases h : c.dbOk = true ∧ startsWithStar wild = false
  · have hyields : ∀ faults, Yields faults n (scanDb c wild list) ((list n.db).map some) := by
      intro faults
      unfold scanDb
      rw [if_pos (by simpa using h)]
      refine Yields.bind_ok Yields.dbIterate ?_
      cases list n.db with
      | ok a => exact Yields.bind_ok (Yields.ofExcept _) (Yields.pure _)
      | error e => exact Yields.bind_error (Yields.ofExcept _)
    exact (ContainedIff.of_yields hyields).congr
      (RuntimeOnly.map.trans ⟨fun hlist _ _ => hlist, fun hlist => hlist h.1 h.2⟩)
  · refine (ContainedIff.of_yields fun _ => scanDb_refused h).congr (iff_of_true trivial ?_)
    exact fun hdb hstar => absurd ⟨hdb, hstar⟩ h

theorem getallCallback (h : req.WellFormed) :
    ContainedIff n (routeCoreGetallCallback c req) (GetallReads c n req) := by
  refine ContainedIff.catchWhat (ContainedIff.ofExcept_of_runtimeOnly (h.get _) fun wild _ => ?_)
  refine ContainedIff.map (ContainedIff.map (settled_scanDb.congr ?_))
  rw [runtimeOnly_collect appendsFor_valueItems]

theorem iterCallback : ContainedIff n (routeCoreIterCallback c req) (IterReads c n req) := by
  refine ContainedIff.catchWhat (ContainedIff.map ?_)
  cases hdb : c.dbOk with
  | true =>
    refine (ContainedIff.of_yields fun _ => iter_yields hdb).congr ?_
    rw [runtimeOnly_collect appendsFor_keyedItems]
    exact ⟨fun hreads _ => hreads, fun hreads => hreads hdb⟩
  | false =>
    unfold iter
    rw [hdb]
    exact ContainedIff.pure.congr (iff_of_true trivial fun h => by rw [hdb] at h; cases h)

end

end Routing

end Quarks
