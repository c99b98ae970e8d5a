import Quarks.WindowLaw
import Quarks.CacheCoherence

/-!
# Point reads in cached mode

Looking up a key in the cache stores the empty string under it if it is absent, and
reports success. The point reads answer in cached mode what they answer in uncached
mode, and leave the cache alone, exactly if every key that they look up is present.
-/

namespace Quarks

open Basis

/-- The functions that read values by their keys. -/
inductive PointRead
  | get (key : Bytes)
  | getJson (key : Bytes)
  | getList (args : RValue) (win : Window)
  | getListText (args : RValue) (out : Bytes) (win : Window)

namespace PointRead

/-- What a read returns: a value if it succeeds, or its results with the success flag. -/
def Result : PointRead → Type
  | get _ => Option Bytes
  | getJson _ => Option WValue
  | getList _ _ => Bool × List WValue
  | getListText _ _ _ => Bool × Bytes

/-- The function of `Core`. -/
def program (c : Config) : (r : PointRead) → CoreM r.Result
  | get key => Quarks.get c key
  | getJson key => Quarks.getJson c key
  | getList args win => Quarks.getList c args win
  | getListText args out win => Quarks.getListText c args out win

/-- The keys that `getList` looks up: those before the first element that is not a
string, up to one whose value raises an exception. -/
def lookedUp (stops : Bytes → Bool) : List RValue → List Bytes
  | [] => []
  | v :: vs => match v.s with
    | .ok key => key :: if stops key then [] else lookedUp stops vs
    | .error _ => []

/-- The value stored under the key cannot be converted. -/
def stopsAt (db : Store) (key : Bytes) : Bool :=
  (db.find? key).any fun value => !decide (Readable value)

/-- The keys that a read looks up. -/
def keys (db : Store) : PointRead → List Bytes
  | get key | getJson key => [key]
  | getList args _ => match args.elements with
    | .ok vs => lookedUp (stopsAt db) vs
    | .error _ => []
  | getListText args _ _ => match args.elements with
    | .ok vs => lookedUp (fun _ => false) vs
    | .error _ => []

end PointRead

/-! ## Two programs with one outcome -/

/-- On these data two programs have the same outcome, and leave the data as they are. -/
def Same {α : Type} (n : Node) (p q : CoreM α) : Prop :=
  ∃ r, Yields noFaults n p r ∧ Yields noFaults n q r

namespace Same

variable {α β : Type} {n : Node} {p q : CoreM α}

theorem refl_of_yields {r : Except Failure α} (h : Yields noFaults n p r) : Same n p p := ⟨r, h, h⟩

theorem pure (a : α) : Same n (Pure.pure a) (Pure.pure a) := refl_of_yields (Yields.pure a)

theorem ofExcept (r : Except Failure α) : Same n (Quarks.ofExcept r) (Quarks.ofExcept r) :=
  refl_of_yields (Yields.ofExcept r)

theorem bind {f g : α → CoreM β} (h : Same n p q)
    (hf : ∀ a, Yields noFaults n p (.ok a) → Same n (f a) (g a)) :
    Same n (p >>= f) (q >>= g) := by
  obtain ⟨r, hp, hq⟩ := h
  cases r with
  | error e => exact ⟨_, Yields.bind_error hp, Yields.bind_error hq⟩
  | ok a =>
    obtain ⟨s, hs, hs'⟩ := hf a hp
    exact ⟨s, Yields.bind_ok hp hs, Yields.bind_ok hq hs'⟩

theorem catchRuntime {p' q' : CoreM α} (h : Same n p q) (h' : Same n p' q') :
    Same n (Quarks.catchRuntime p p') (Quarks.catchRuntime q q') := by
  obtain ⟨r, hp, hq⟩ := h
  obtain ⟨s, hp', hq'⟩ := h'
  exact ⟨_, Yields.catchRuntime hp hp', Yields.catchRuntime hq hq'⟩

end Same

/-! ## Reads of present keys -/

/-- The loop of `getList` runs alike in both modes while the keys are present. -/
theorem listLoop_same {α : Type} {n : Node} {lookup lookup' : Bytes → CoreM (Option α)}
    {stops : Bytes → Bool}
    (hlookup : ∀ key ∈ n.db, Same n (lookup key) (lookup' key))
    (hstops : ∀ key ∈ n.db, ∀ a, Yields noFaults n (lookup key) (.ok a) → stops key = false)
    {win : Window} {vs : List RValue} (hvs : ∀ key ∈ PointRead.lookedUp stops vs, key ∈ n.db)
    (i : ℤ) : Same n (listLoop lookup win vs i) (listLoop lookup' win vs i) := by
  induction vs generalizing i with
  | nil => exact Same.pure _
  | cons v vs ih =>
    unfold listLoop
    unfold PointRead.lookedUp at hvs
    cases hs : v.s with
    | error e =>
      have hitem : ∀ lookup : Bytes → CoreM (Option α), Yields noFaults n
          (catchRuntime (do
            let s ← ofExcept (.error e)
            return some (← lookup s)) (return none)) (caught (.error e) (.ok none)) :=
        fun _ => Yields.catchRuntime (Yields.bind_error (Yields.ofExcept _)) (Yields.pure _)
      refine Same.bind ⟨_, hitem lookup, hitem lookup'⟩ fun item h => ?_
      have hnone := (hitem lookup).unique h
      cases item with
      | none => exact Same.pure _
      | some found =>
        simp only [caught] at hnone
        split at hnone <;> cases hnone
    | ok key =>
      rw [hs] at hvs
      simp only [List.mem_cons] at hvs
      obtain ⟨r, hr, hr'⟩ := hlookup key (hvs key (Or.inl rfl))
      have hitem : ∀ lookup : Bytes → CoreM (Option α), Yields noFaults n (lookup key) r →
          Yields noFaults n (catchRuntime (do
            let s ← ofExcept (.ok key)
            return some (← lookup s)) (return none))
              (caught (r.bind fun a => .ok (some a)) (.ok none)) :=
        fun _ h => Yields.catchRuntime (Yields.bind_ok (Yields.ofExcept _)
          (Yields.bind h fun _ _ => Yields.pure _)) (Yields.pure _)
      refine Same.bind ⟨_, hitem lookup hr, hitem lookup' hr'⟩ fun item h => ?_
      cases item with
      | none => exact Same.pure _
      | some found =>
        have hsome := (hitem lookup hr).unique h
        cases r with
        | error e =>
          simp only [caught, Except.bind] at hsome
          split at hsome <;> cases hsome
        | ok a =>
          have hstop := hstops key (hvs key (Or.inl rfl)) a hr
          have hrest := ih fun key' hkey' => hvs key' (Or.inr (by simpa [hstop] using hkey'))
          exact Same.bind (hrest _) fun _ _ => Same.pure _

theorem listArgs_same {α : Type} {n : Node} {lookup lookup' : Bytes → CoreM (Option α)}
    {args : RValue} {win : Window}
    (h : ∀ vs, args.elements = .ok vs →
      Same n (listLoop lookup win vs (-1)) (listLoop lookup' win vs (-1))) :
    Same n (listArgs lookup win args) (listArgs lookup' win args) := by
  unfold listArgs
  cases hvs : args.elements with
  | error e => exact Same.pure _
  | ok vs => exact h vs hvs

section

variable {c : Config} (hdb : c.dbOk = true) {n : Node} (hn : Coherent n)
include hdb hn

theorem get_same {key : Bytes} (hkey : key ∈ n.db) :
    Same n (get (c.withCache true) key) (get (c.withCache false) key) := by
  obtain ⟨value, hvalue⟩ := OrderedMap.mem_iff.mp hkey
  have hcached : n.cache.find? key = some value := by rwa [show n.cache = n.db from hn]
  refine ⟨.ok (some value), ?_, ?_⟩
  · exact Yields.bind_ok (Yields.getCached hcached) (Yields.pure _)
  · have h : Yields noFaults n (dbGet key) (.ok (n.db.find? key)) := Yields.dbGet
    rw [hvalue] at h
    unfold get
    rw [show (c.withCache false).dbOk = true from hdb]
    exact h

theorem getJson_same {key : Bytes} (hkey : key ∈ n.db) :
    Same n (getJson (c.withCache true) key) (getJson (c.withCache false) key) := by
  refine Same.bind (get_same hdb hn hkey) fun found _ => ?_
  cases found with
  | none => exact Same.pure _
  | some value => exact Same.bind (Same.ofExcept _) fun _ _ => Same.pure _

omit hdb in
/-- A present key whose value cannot be converted ends the loop with an exception. -/
theorem getJson_stops (hjson : ∀ e ∈ n.db.entries, IsJson e.2) {key : Bytes} {a : Option WValue}
    (h : Yields noFaults n (getJson (c.withCache true) key) (.ok a)) (hkey : key ∈ n.db) :
    PointRead.stopsAt n.db key = false := by
  obtain ⟨value, hvalue⟩ := OrderedMap.mem_iff.mp hkey
  have hcached : n.cache.find? key = some value := by rwa [show n.cache = n.db from hn]
  have hget : Yields noFaults n (get (c.withCache true) key) (.ok (some value)) :=
    Yields.bind_ok (Yields.getCached hcached) (Yields.pure _)
  have hload := loadValue_of_isJson (hjson _ (OrderedMap.find?_eq_some.mp hvalue))
  by_contra hstops
  have hread : ¬Readable value := by simpa [PointRead.stopsAt, hvalue] using hstops
  rw [if_neg hread] at hload
  have hraise : Yields noFaults n (getJson (c.withCache true) key) (.error .badLexicalCast) := by
    refine Yields.bind_ok hget (Yields.bind_error ?_)
    rw [hload]
    exact Yields.ofExcept _
  cases h.unique hraise

/-- A read whose keys are all present answers alike in both modes. -/
theorem read_same (hjson : ∀ e ∈ n.db.entries, IsJson e.2) {r : PointRead}
    (hkeys : ∀ key ∈ r.keys n.db, key ∈ n.db) :
    Same n (r.program (c.withCache true)) (r.program (c.withCache false)) := by
  have hopen : ∀ cached, (c.withCache cached).dbOk = true := fun _ => hdb
  cases r with
  | get key => exact get_same hdb hn (hkeys key (by simp [PointRead.keys]))
  | getJson key => exact getJson_same hdb hn (hkeys key (by simp [PointRead.keys]))
  | getList args win =>
    simp only [PointRead.program, getList, hopen, if_true]
    refine listArgs_same fun vs hvs => ?_
    rw [PointRead.keys, hvs] at hkeys
    refine listLoop_same (fun key hkey => ?_) (fun key hkey a ha => ?_) hkeys _
    · exact Same.bind (getJson_same hdb hn hkey) fun _ _ => Same.pure _
    · obtain ⟨r, hr, -⟩ := getJson_same hdb hn hkey
      cases r with
      | ok found => exact getJson_stops hn hjson hr hkey
      | error e => cases ha.unique (Yields.bind_error hr)
  | getListText args out win =>
    simp only [PointRead.program, getListText, hopen, if_true]
    refine Same.bind (listArgs_same fun vs hvs => ?_) fun r _ => ?_
    · rw [PointRead.keys, hvs] at hkeys
      refine listLoop_same (fun key hkey => ?_) (fun _ _ _ _ => rfl) hkeys _
      exact Same.bind (get_same hdb hn hkey) fun _ _ => Same.pure _
    · split <;> exact Same.pure _

end

/-! ## Reads of absent keys -/

/-- The cache has a key that the database `m.db` does not have. -/
def Grown (m n : Node) : Prop := ∃ key, key ∉ m.db ∧ key ∈ n.cache

section

variable {m : Node}

/-- The cache never loses a key. -/
theorem get_grown {c : Config} {key : Bytes} : Keeps noFaults (Grown m) (get c key) := by
  refine get_triple c (fun n val hn _ => hn) (fun _ n hn _ => hn) ?_
  rintro - n ⟨k, hk, hmem⟩ -
  exact ⟨k, hk, OrderedMap.mem_insert_iff.mpr (Or.inr hmem)⟩

theorem getJson_grown {c : Config} {key : Bytes} :
    Keeps noFaults (Grown m) (getJson c key) := by
  refine DataTriple.bind (M := fun _ => Grown m) get_grown fun found => ?_
  cases found with
  | none => exact DataTriple.pure fun _ hn => hn
  | some value =>
    exact DataTriple.ofExcept (fun _ hn => hn) fun _ _ => DataTriple.pure fun _ hn => hn

theorem listLoop_grown {α : Type} {lookup : Bytes → CoreM (Option α)}
    (hlookup : ∀ key, Keeps noFaults (Grown m) (lookup key)) {win : Window} (vs : List RValue)
    (i : ℤ) : Keeps noFaults (Grown m) (listLoop lookup win vs i) := by
  induction vs generalizing i with
  | nil => exact DataTriple.pure fun _ hn => hn
  | cons v vs ih =>
    refine DataTriple.bind (M := fun _ => Grown m) (DataTriple.catchRuntime (M := Grown m) ?_
      (DataTriple.pure fun _ hn => hn) fun _ hn => hn) fun item => ?_
    · exact DataTriple.ofExcept (fun _ hn => hn) fun key _ =>
        DataTriple.bind (M := fun _ => Grown m) (hlookup key)
          fun _ => DataTriple.pure fun _ hn => hn
    · cases item with
      | none => exact DataTriple.pure fun _ hn => hn
      | some found => exact DataTriple.bind (M := fun _ => Grown m) (ih _) fun _ =>
          DataTriple.pure fun _ hn => hn

theorem listArgs_grown {α : Type} {lookup : Bytes → CoreM (Option α)}
    (hlookup : ∀ key, Keeps noFaults (Grown m) (lookup key)) {win : Window} {args : RValue} :
    Keeps noFaults (Grown m) (listArgs lookup win args) := by
  unfold listArgs
  split
  · exact listLoop_grown hlookup _ _
  · exact DataTriple.pure fun _ hn => hn

theorem read_grown {c : Config} (r : PointRead) : Keeps noFaults (Grown m) (r.program c) := by
  cases r with
  | get key => exact get_grown
  | getJson key => exact getJson_grown
  | getList args win =>
    simp only [PointRead.program, getList]
    split
    · exact listArgs_grown fun key => DataTriple.bind (M := fun _ => Grown m) getJson_grown
        fun _ => DataTriple.pure fun _ hn => hn
    · exact DataTriple.pure fun _ hn => hn
  | getListText args out win =>
    simp only [PointRead.program, getListText]
    split
    · refine DataTriple.bind (M := fun _ => Grown m) (listArgs_grown fun key =>
        DataTriple.bind (M := fun _ => Grown m) get_grown
          fun _ => DataTriple.pure fun _ hn => hn) fun r => ?_
      split <;> exact DataTriple.pure fun _ hn => hn
    · exact DataTriple.pure fun _ hn => hn

/-- The cache has grown once a loop of `getList` has looked up an absent key. -/
theorem listLoop_absent {α : Type} {lookup : Bytes → CoreM (Option α)} {stops : Bytes → Bool}
    (hgrown : ∀ key, Keeps noFaults (Grown m) (lookup key))
    (hpresent : ∀ key ∈ m.db, stops key = false → ∃ a, Yields noFaults m (lookup key) (.ok a))
    (habsent : ∀ key, key ∉ m.db →
      DataTriple noFaults (fun n => n = m) (lookup key) (fun _ => Grown m) (Grown m))
    {win : Window} {vs : List RValue} (hvs : ∃ key ∈ PointRead.lookedUp stops vs, key ∉ m.db)
    (i : ℤ) :
    DataTriple noFaults (fun n => n = m) (listLoop lookup win vs i) (fun _ => Grown m)
      (Grown m) := by
  induction vs generalizing i with
  | nil =>
    obtain ⟨key, hkey, -⟩ := hvs
    simp [PointRead.lookedUp] at hkey
  | cons v vs ih =>
    unfold PointRead.lookedUp at hvs
    unfold listLoop
    cases hs : v.s with
    | error e => simp [hs] at hvs
    | ok key =>
      rw [hs] at hvs
      by_cases hkey : key ∈ m.db
      · have hstops : stops key = false := by
          by_contra hstops
          obtain ⟨k, hk, habs⟩ := hvs
          simp only [Bool.not_eq_false] at hstops
          simp only [hstops, if_true, List.mem_singleton] at hk
          exact habs (hk ▸ hkey)
        obtain ⟨a, ha⟩ := hpresent key hkey hstops
        have hrest : ∃ k ∈ PointRead.lookedUp stops vs, k ∉ m.db := by
          obtain ⟨k, hk, habs⟩ := hvs
          simp only [hstops, Bool.false_eq_true, if_false, List.mem_cons] at hk
          rcases hk with rfl | hk
          · exact absurd hkey habs
          · exact ⟨k, hk, habs⟩
        have hitem : Yields noFaults m (catchRuntime (do
            let s ← ofExcept (.ok key)
            return some (← lookup s)) (return none)) (.ok (some a)) :=
          Yields.catchRuntime (r := .ok (some a)) (s := .ok none)
            (Yields.bind_ok (Yields.ofExcept (.ok key))
              (Yields.bind_ok ha (Yields.pure (some a)))) (Yields.pure none)
        refine DataTriple.bind hitem.triple fun item => ?_
        cases item with
        | none => exact DataTriple.pure fun n hn => by cases hn.1
        | some found =>
          exact DataTriple.bind (M := fun _ => Grown m) ((ih hrest _).pre fun _ hn => hn.2)
            fun _ => DataTriple.pure fun _ hn => hn
      · have hitem : DataTriple noFaults (fun n => n = m) (do
            let s ← ofExcept (.ok key)
            return some (← lookup s)) (fun _ => Grown m) (Grown m) := by
          change DataTriple noFaults (fun n => n = m) (lookup key >>= _) _ _
          exact DataTriple.bind (M := fun _ => Grown m) (habsent key hkey)
            fun _ => DataTriple.pure fun _ hn => hn
        refine DataTriple.bind (M := fun _ => Grown m) (DataTriple.catchRuntime hitem
          (DataTriple.pure fun _ hn => hn) fun _ hn => hn) fun item => ?_
        cases item with
        | none => exact DataTriple.pure fun _ hn => hn
        | some found =>
          exact DataTriple.bind (M := fun _ => Grown m) (listLoop_grown hgrown vs _)
            fun _ => DataTriple.pure fun _ hn => hn

/-- The cache grows when a key that neither it nor the database has is looked up. -/
theorem get_absent {c : Config} (hm : Coherent m) {key : Bytes} (hkey : key ∉ m.db) :
    DataTriple noFaults (fun n => n = m) (get (c.withCache true) key) (fun _ => Grown m)
      (Grown m) := by
  refine get_triple _ ?_ (fun h => by cases h) ?_
  · rintro n val rfl hval
    have hval : n.cache.find? key = some val := hval
    rw [show n.cache = n.db from hm] at hval
    exact absurd (OrderedMap.mem_iff.mpr ⟨val, hval⟩) hkey
  · rintro - n rfl -
    exact ⟨key, hkey, OrderedMap.mem_insert_iff.mpr (Or.inl rfl)⟩

theorem getJson_absent {c : Config} (hm : Coherent m) {key : Bytes} (hkey : key ∉ m.db) :
    DataTriple noFaults (fun n => n = m) (getJson (c.withCache true) key) (fun _ => Grown m)
      (Grown m) := by
  refine DataTriple.bind (M := fun _ => Grown m) (get_absent hm hkey) fun found => ?_
  cases found with
  | none => exact DataTriple.pure fun _ hn => hn
  | some value =>
    exact DataTriple.ofExcept (fun _ hn => hn) fun _ _ => DataTriple.pure fun _ hn => hn

theorem get_present {c : Config} (hm : Coherent m) {key : Bytes} (hkey : key ∈ m.db) :
    ∃ value, m.db.find? key = some value ∧
      Yields noFaults m (get (c.withCache true) key) (.ok (some value)) := by
  obtain ⟨value, hvalue⟩ := OrderedMap.mem_iff.mp hkey
  have hcached : m.cache.find? key = some value := by rwa [show m.cache = m.db from hm]
  exact ⟨value, hvalue, Yields.bind_ok (Yields.getCached hcached) (Yields.pure _)⟩

theorem getJson_present {c : Config} (hm : Coherent m) (hjson : ∀ e ∈ m.db.entries, IsJson e.2)
    {key : Bytes} (hkey : key ∈ m.db) (hstops : PointRead.stopsAt m.db key = false) :
    ∃ found, Yields noFaults m (getJson (c.withCache true) key) (.ok found) := by
  obtain ⟨value, hvalue, hget⟩ := get_present (c := c) hm hkey
  have hread : Readable value := by simpa [PointRead.stopsAt, hvalue] using hstops
  have hload : loadValue value = .ok (parsedValue value) := by
    rw [loadValue_of_isJson (hjson _ (OrderedMap.find?_eq_some.mp hvalue)), if_pos hread]
  have htree : Yields noFaults m (ofExcept (loadValue value)) (.ok (parsedValue value)) := by
    rw [hload]
    exact Yields.ofExcept _
  exact ⟨_, Yields.bind_ok hget (Yields.bind_ok htree (Yields.pure _))⟩

/-- A read that looks up an absent key makes the cache grow. -/
theorem read_absent {c : Config} (hdb : c.dbOk = true) (hm : Coherent m)
    (hjson : ∀ e ∈ m.db.entries, IsJson e.2) {r : PointRead}
    (hkeys : ∃ key ∈ r.keys m.db, key ∉ m.db) :
    DataTriple noFaults (fun n => n = m) (r.program (c.withCache true)) (fun _ => Grown m)
      (Grown m) := by
  have hopen : (c.withCache true).dbOk = true := hdb
  obtain ⟨key, hkey, habs⟩ := hkeys
  cases r with
  | get k =>
    obtain rfl : key = k := by simpa [PointRead.keys] using hkey
    exact get_absent hm habs
  | getJson k =>
    obtain rfl : key = k := by simpa [PointRead.keys] using hkey
    exact getJson_absent hm habs
  | getList args win =>
    simp only [PointRead.program, getList, hopen, if_true]
    unfold listArgs
    simp only [PointRead.keys] at hkey
    cases hvs : args.elements with
    | error e => simp [hvs] at hkey
    | ok vs =>
      rw [hvs] at hkey
      refine listLoop_absent (fun k => ?_) (fun k hk hstops => ?_) (fun k hk => ?_)
        ⟨key, hkey, habs⟩ _
      · exact DataTriple.bind (M := fun _ => Grown m) getJson_grown
          fun _ => DataTriple.pure fun _ hn => hn
      · obtain ⟨found, hfound⟩ := getJson_present (c := c) hm hjson hk hstops
        exact ⟨_, Yields.bind_ok hfound (Yields.pure _)⟩
      · exact DataTriple.bind (M := fun _ => Grown m) (getJson_absent hm hk)
          fun _ => DataTriple.pure fun _ hn => hn
  | getListText args out win =>
    simp only [PointRead.program, getListText, hopen, if_true]
    refine DataTriple.bind (M := fun _ => Grown m) ?_ fun r => ?_
    · unfold listArgs
      simp only [PointRead.keys] at hkey
      cases hvs : args.elements with
      | error e => simp [hvs] at hkey
      | ok vs =>
        rw [hvs] at hkey
        refine listLoop_absent (fun k => ?_) (fun k hk _ => ?_) (fun k hk => ?_)
          ⟨key, hkey, habs⟩ _
        · exact DataTriple.bind (M := fun _ => Grown m) get_grown
            fun _ => DataTriple.pure fun _ hn => hn
        · obtain ⟨value, -, hget⟩ := get_present (c := c) hm hk
          exact ⟨_, Yields.bind_ok hget (Yields.pure _)⟩
        · exact DataTriple.bind (M := fun _ => Grown m) (get_absent hm hk)
            fun _ => DataTriple.pure fun _ hn => hn
    · split <;> exact DataTriple.pure fun _ hn => hn

end

/-! ## Sequences of reads -/

/-- The process after one read. -/
def afterRead (c : Config) (w : World) (r : PointRead) : World :=
  ((r.program c).run (handle noFaults) w).2

/-- The process after a list of reads. -/
def afterReads (c : Config) (w : World) (rs : List PointRead) : World := rs.foldl (afterRead c) w

/-- Two runs of the same reads, one in cached and one in uncached mode, get the same answers. -/
def AnswersAlike (c : Config) : World → World → List PointRead → Prop
  | _, _, [] => True
  | w, w', r :: rs =>
    answer noFaults w (r.program (c.withCache true)) =
      answer noFaults w' (r.program (c.withCache false)) ∧
    AnswersAlike c (afterRead (c.withCache true) w r) (afterRead (c.withCache false) w' r) rs

/-- A sequence of reads does not depend on the cache: the reads get the same answers in
both modes, they leave the cache as it was, and whatever follows them has the same
answer in both modes if it has without them. -/
structure ReadsAlike (c : Config) (w : World) (rs : List PointRead) : Prop where
  answers : AnswersAlike c w w rs
  cache : (afterReads (c.withCache true) w rs).node.cache = w.node.cache
  later : ∀ {α : Type} (list : Config → CoreM α),
    answer noFaults w (list (c.withCache true)) = answer noFaults w (list (c.withCache false)) →
    answer noFaults (afterReads (c.withCache true) w rs) (list (c.withCache true)) =
      answer noFaults (afterReads (c.withCache false) w rs) (list (c.withCache false))

section

variable {c : Config} (hdb : c.dbOk = true) {n : Node} (hn : Coherent n)
  (hjson : ∀ e ∈ n.db.entries, IsJson e.2)
include hdb hn hjson

/-- Reads of present keys get the same answers and leave the data as they are. -/
theorem reads_present {rs : List PointRead} (hrs : ∀ r ∈ rs, ∀ key ∈ r.keys n.db, key ∈ n.db)
    {w w' : World} (hw : w.node = n) (hw' : w'.node = n) :
    AnswersAlike c w w' rs ∧ (afterReads (c.withCache true) w rs).node = n ∧
      (afterReads (c.withCache false) w' rs).node = n := by
  induction rs generalizing w w' with
  | nil => exact ⟨trivial, hw, hw'⟩
  | cons r rs ih =>
    obtain ⟨hr, hrs⟩ := List.forall_mem_cons.mp hrs
    obtain ⟨res, hcached, huncached⟩ := read_same hdb hn hjson hr
    obtain ⟨hans, hnode⟩ := hcached w hw
    obtain ⟨hans', hnode'⟩ := huncached w' hw'
    obtain ⟨hall, hafter, hafter'⟩ := ih hrs hnode hnode'
    exact ⟨⟨hans.trans hans'.symm, hall⟩, hafter, hafter'⟩

omit hdb hn hjson in
theorem reads_grown (rs : List PointRead) {w : World} (hw : Grown n w.node) :
    Grown n (afterReads c w rs).node := by
  induction rs generalizing w with
  | nil => exact hw
  | cons r rs ih =>
    refine ih (w := afterRead c w r) ?_
    have h := read_grown (c := c) r w hw
    unfold afterRead
    rcases hrun : Prog.run (handle noFaults) (r.program c) w with ⟨e | a, w'⟩ <;>
      simpa [hrun] using h

/-- A sequence that looks up an absent key makes the cache grow. -/
theorem reads_absent {rs : List PointRead}
    (hrs : ¬∀ r ∈ rs, ∀ key ∈ r.keys n.db, key ∈ n.db) {w : World} (hw : w.node = n) :
    Grown n (afterReads (c.withCache true) w rs).node := by
  induction rs generalizing w with
  | nil => simp at hrs
  | cons r rs ih =>
    by_cases hr : ∀ key ∈ r.keys n.db, key ∈ n.db
    · obtain ⟨res, hcached, -⟩ := read_same hdb hn hjson hr
      refine ih (fun hall => hrs ?_) (w := afterRead (c.withCache true) w r) (hcached w hw).2
      exact List.forall_mem_cons.mpr ⟨hr, hall⟩
    · have hr : ∃ key ∈ r.keys n.db, key ∉ n.db := by simpa using hr
      refine reads_grown rs (w := afterRead (c.withCache true) w r) ?_
      have h := read_absent hdb hn hjson hr w hw
      unfold afterRead
      rcases hrun : Prog.run (handle noFaults) (r.program (c.withCache true)) w with ⟨e | a, w'⟩ <;>
        simpa [hrun] using h

end

/-- A sequence of point reads does not depend on the cache, exactly if each of its reads
looks up present keys only. -/
theorem readsAlike_iff {c : Config} (hdb : c.dbOk = true) {w : World} (hw : Coherent w.node)
    (hjson : ∀ e ∈ w.node.db.entries, IsJson e.2) {rs : List PointRead} :
    ReadsAlike c w rs ↔ ∀ r ∈ rs, ∀ key ∈ r.keys w.node.db, key ∈ w.node.db := by
  constructor
  · rintro ⟨-, hcache, -⟩
    by_contra habs
    obtain ⟨key, hkey, hmem⟩ := reads_absent hdb hw hjson habs rfl
    rw [hcache, show w.node.cache = w.node.db from hw] at hmem
    exact hkey hmem
  · intro hpresent
    obtain ⟨hanswers, hnode, hnode'⟩ := reads_present hdb hw hjson hpresent rfl rfl
    refine ⟨hanswers, congrArg Node.cache hnode, fun list h => ?_⟩
    rw [answer_noFaults_congr hnode, answer_noFaults_congr hnode', h]

/-- The theorem at reads of two present keys, one of them in a list. -/
theorem readsAlike_threeEntries : ReadsAlike cachedOnly (openDB cachedOnly threeEntries)
    [.get (ascii "a1"), .getList (.list [.string (ascii "b"), .null]) ⟨0, -1⟩] :=
  (readsAlike_iff rfl (openDB_coherent rfl threeEntries) (by decide +kernel)).mpr
    (by decide +kernel)

/-- Looking up an absent key succeeds in cached mode only. -/
theorem not_readsAlike_absent : ¬ReadsAlike cachedOnly (openDB cachedOnly OrderedMap.empty)
    [.get (ascii "k")] := by
  rintro ⟨⟨h, -⟩, -, -⟩
  have hsome : answer noFaults (openDB cachedOnly OrderedMap.empty)
      (get (cachedOnly.withCache true) (ascii "k")) = .ok (some []) := rfl
  have hnone : answer noFaults (openDB cachedOnly OrderedMap.empty)
      (get (cachedOnly.withCache false) (ascii "k")) = .ok none := rfl
  have hanswers := hsome.symm.trans (h.trans hnone)
  cases hanswers

end Quarks
