import Quarks.ListedKeys
import Quarks.Routing.Hazards

/-!
# What brings the lookups down

The callbacks that look keys up and read the values found, and those that read a number or
open something. A call of RocksDB that fails hides a value, so that a loop that the value
would end goes on to the next one: each value that is looked up has to be convertible.
-/

namespace Quarks

open Basis

namespace Routing

variable (c : Config) (outside : Outside) (n : Node) (req : Request)

/-- The body of the request meets a condition, if it has one. -/
def OnBody (C : RValue → Prop) : Prop := ∀ x, req.bodyJson = .ok (some x) → C x

/-! ## Numbers -/

/-- The step of an increment is a number of 64 bits. -/
def StepReads (x : RValue) : Prop :=
  ∀ key y, (x.field (ascii "key")).bind RValue.s = .ok key → x.field (ascii "step") = .ok y →
    RuntimeOnly y.i

/-- The time to wait is a number. -/
def TimeoutReads : Prop :=
  ∀ timeout, req.get (ascii "timeout") = .ok timeout → (stoi timeout).isOk = true

/-- There is a database to make a checkpoint of, when it comes to that. -/
def BackupStarts (p : RValue) : Prop :=
  (∀ y l, p ≠ .list (y :: l)) ∧
    ∀ path, fieldOr p (ascii "path") RValue.s [] = .ok path → c.dbOk = true

section

variable {c : Config} {outside : Outside} {n : Node} {req : Request}

theorem runtimeOnly_fieldText (x : RValue) (name : Bytes) :
    RuntimeOnly ((x.field name).bind RValue.s) :=
  RuntimeOnly.bind.mpr ⟨runtimeOnly_field x name, fun y _ => runtimeOnly_s y⟩

theorem runtimeOnly_stoi {text : Bytes} : RuntimeOnly (stoi text) ↔ (stoi text).isOk = true := by
  cases h : stoi text with
  | ok z => exact iff_of_true trivial rfl
  | error f =>
    refine iff_of_false (fun hf => ?_) Bool.false_ne_true
    rw [RuntimeOnly.error, stoi_error h] at hf
    cases hf

theorem incrCallback [HashOrder] (h : req.WellFormed) :
    ContainedIff n (routeCoreIncrCallback c req) (OnBody req StepReads) := by
  refine settled_withBody h fun x _ => ?_
  refine (ContainedIff.ofExcept_of_runtimeOnly (runtimeOnly_fieldText x _) fun key _ =>
    ContainedIff.ofExcept (C := fun _ => True) fun stepBy _ => ?_).congr ?_
  · refine (ContainedIff.always (Contained.of_triple fun _ => ?_)).map
    exact increment_triple c (fun _ _ => trivial) (fun _ _ _ _ => trivial)
      fun _ _ _ _ _ _ => trivial
  · simp only [implies_true, and_true]
    refine forall_congr' fun key => ?_
    rw [RuntimeOnly.bind, and_iff_right (runtimeOnly_field x _)]
    exact ⟨fun h y hkey => h hkey y, fun h hkey y => h y hkey⟩

theorem testCallback (h : req.WellFormed) :
    ContainedIff n (routeCoreTestCallback req) (TimeoutReads req) := by
  refine ContainedIff.ofExcept_of_runtimeOnly (h.get _) fun timeout _ => ?_
  exact (ContainedIff.ofExcept fun _ _ => ContainedIff.pure).congr (by simp [runtimeOnly_stoi])

theorem backupCallback (h : req.WellFormed) :
    ContainedIff n (routeCoreBackupCallback c outside req) (OnBody req (BackupStarts c)) := by
  refine settled_withBody h fun p _ => ?_
  refine (ContainedIff.ofExcept (C := fun _ => c.dbOk = true) fun path _ => ?_).congr ?_
  · have hanswer : ∀ b : Bool, ContainedIff n (if b = true then
        return ascii "\x7b\"result\":true\x7d" else return ascii "\x7b\"result\":false\x7d" :
          CoreM Bytes) True := by
      intro b
      split <;> exact ContainedIff.pure
    unfold backup
    cases hdb : c.dbOk with
    | true => exact (hanswer _).congr (by simp)
    | false =>
      refine (ContainedIff.of_yields fun _ => Yields.bind_error
        (Yields.ofExcept (.error .undefined))).congr ?_
      simp [Failure.isRuntimeError]
  · refine and_congr_left fun _ => ⟨fun hread y l hp => ?_, fun hp => ?_⟩
    · subst hp
      exact Bool.false_ne_true hread
    · exact (runtimeOnly_fieldOr hp).mpr fun y _ => runtimeOnly_s y

end

/-! ## Values that are looked up -/

/-- A point read finds this value under the key, unless it fails. -/
def Finds (key value : Bytes) : Prop :=
  (c.cacheEnabled = false → c.dbOk = true) ∧ lookUp c n key = some value

/-- The value asked for can be read. -/
def GetjsonReads (x : RValue) : Prop :=
  ∀ key value, (x.field (ascii "key")).bind RValue.s = .ok key → Finds c n key value →
    RuntimeOnly (loadValue value)

/-- The environment in which all reads but those of one key fail. -/
def onlyReads (key : Bytes) : Faults
  | _, .get k => k ≠ key
  | _, _ => false

section

variable {c : Config} {outside : Outside} {n : Node} {req : Request} {faults : Faults}

theorem looksAlike_of_eq (m : Node) (h : m = n) : LooksAlike c n m := fun _ => h ▸ rfl

theorem get_finds (key : Bytes) : Returns faults (LooksAlike c n) (get c key)
    fun found => ∀ value, found = some value → Finds c n key value := by
  unfold get
  cases hcache : c.cacheEnabled with
  | true =>
    refine (getCached_settles hcache key).returns.bind fun value hvalue => Returns.pure ?_
    rintro _ ⟨⟩
    exact ⟨fun h => (by rw [hcache] at h; cases h), by simp [lookUp, hcache, hvalue]⟩
  | false =>
    cases hdb : c.dbOk with
    | false =>
      refine Returns.pure ?_
      rintro _ ⟨⟩
    | true =>
      refine DataTriple.mono (E := fun _ => False) DataTriple.dbGet (fun _ hw => hw)
        (fun found m hm => ⟨?_, hm.1⟩) fun _ h => h
      rintro value rfl
      refine ⟨fun _ => hdb, ?_⟩
      rcases hm.2 with hfind | ⟨hnone, -⟩
      · rw [← hm.1 key, lookUp, hcache, if_neg Bool.false_ne_true, hfind]
      · cases hnone

/-- Reading a value that may be found. -/
theorem getJson_safe {key : Bytes} (h : ∀ value, Finds c n key value →
    RuntimeOnly (loadValue value)) :
    Safe faults (LooksAlike c n) (getJson c key) fun _ => True := by
  refine (get_finds key).safe.bind fun found hfound => ?_
  cases found with
  | none => exact Safe.pure trivial
  | some value =>
    exact (Safe.ofExcept (h value (hfound value rfl))).bind fun _ _ => Safe.pure trivial

theorem getJson_raises {key value : Bytes} (hfinds : Finds c n key value)
    (h : ¬RuntimeOnly (loadValue value)) :
    Raises noFaults (LooksAlike c n) (getJson c key) := by
  have hget := get_settles (n := n) hfinds.1 key
  rw [hfinds.2] at hget
  exact Raises.bind_settles hget (Raises.ofExcept h).bind_left

theorem getjsonCallback (h : req.WellFormed) :
    ContainedIff n (routeCoreGetjsonCallback c req) (OnBody req (GetjsonReads c n)) := by
  refine settled_withBody h fun x _ => ContainedIff.catchWhat ?_
  refine (ContainedIff.ofExcept_of_runtimeOnly (C := fun key => ∀ value, Finds c n key value →
    RuntimeOnly (loadValue value)) (runtimeOnly_fieldText x _) fun key _ => ?_).congr
      ⟨fun h key value hkey => h key hkey value, fun h key hkey value => h key value hkey⟩
  refine ContainedIff.map ⟨fun hreads => ?_, fun hreads => ?_⟩
  · exact (Safe.contained fun _ => getJson_safe hreads).mono looksAlike_of_eq fun _ _ _ => trivial
  · simp only [not_forall] at hreads
    obtain ⟨value, hfinds, hvalue⟩ := hreads
    exact ⟨noFaults, (getJson_raises hfinds hvalue).pre looksAlike_of_eq⟩

theorem listLoop_returns {α : Type} {I : Node → Prop} {lookup : Bytes → CoreM (Option α)}
    (hlookup : ∀ s, Returns faults I (lookup s) fun _ => True) {win : Window} (vs : List RValue)
    (i : ℤ) : Returns faults I (listLoop lookup win vs i) fun _ => True := by
  induction vs generalizing i with
  | nil => exact Returns.pure trivial
  | cons v vs ih =>
    have hlook : Safe faults I (do
        let s ← ofExcept v.s
        return some (← lookup s)) fun _ => True :=
      (Safe.ofExcept (runtimeOnly_s v)).bind fun s _ =>
        (hlookup s).safe.bind fun _ _ => Safe.pure trivial
    refine (hlook.catchRuntime (Returns.pure trivial)).bind fun item _ => ?_
    cases item with
    | none => exact Returns.pure trivial
    | some found => exact (ih _).bind fun _ _ => Returns.pure trivial

theorem getlistCallback (h : req.WellFormed) :
    ContainedIff n (routeCoreGetlistCallback c req) True := by
  refine (settled_withBody h (C := fun _ => True) fun x _ => ?_).congr (by simp)
  refine ContainedIff.map (ContainedIff.always ?_)
  refine (Safe.contained (I := LooksAlike c n) (Q := fun _ => True) fun faults => ?_).mono
    looksAlike_of_eq fun _ _ _ => trivial
  unfold getListText
  split
  · refine Safe.bind (Q := fun _ => True) (Returns.safe ?_) fun r _ => ?_
    · unfold listArgs
      split
      · refine listLoop_returns (fun s => ?_) _ _
        exact (get_finds s).bind fun _ _ => Returns.pure trivial
      · exact Returns.pure trivial
    · split <;> exact Safe.pure trivial
  · exact Safe.pure trivial

end

/-! ## Values of several keys -/

/-- What the database stores under a key can be read. -/
def StoreReads (key : Bytes) : Prop :=
  ∀ value, n.db.find? key = some value → RuntimeOnly (loadValue value)

/-- The keys that `getItems` looks up. -/
def itemKeys (win : Window) : List RValue → ℤ → List Bytes
  | [], _ => []
  | v :: vs, i => match v.s with
    | .ok s =>
      (if win.takes (int32 (i + 1)) then [s] else []) ++ itemKeys win vs (int32 (i + 1))
    | .error _ => []

/-- The items can be read. -/
def GetitemsReads (x : RValue) : Prop :=
  c.dbOk = true → ∀ keys, x.elements = .ok keys →
    ∀ key ∈ itemKeys req.window keys (-1), StoreReads n key

section

variable {c : Config} {n : Node} {req : Request} {faults : Faults} {key : Bytes}

theorem dbGet_safe : Returns faults (· = n) (dbGet key) fun found =>
    ∀ value, found = some value → n.db.find? key = some value := by
  refine DataTriple.mono (E := fun _ => False) DataTriple.dbGet (fun _ hw => hw)
    (fun found m hm => ⟨?_, hm.1⟩) fun _ h => h
  rintro value rfl
  obtain ⟨rfl, hfound | ⟨hnone, -⟩⟩ := hm
  · exact hfound.symm
  · cases hnone

/-- With these failures the value of one key is all that is found. -/
theorem dbGet_onlyReads (key' : Bytes) : Yields (onlyReads key) n (dbGet key')
    (.ok (if key' = key then n.db.find? key' else none)) := by
  intro w hw
  subst hw
  refine ⟨?_, rfl⟩
  change Except.ok (if onlyReads key w.calls (.get key') = true then none
    else w.node.db.find? key') = _
  simp only [onlyReads, decide_eq_true_eq]
  split <;> simp_all

theorem addItem_safe (hkey : StoreReads n key) (w : WValue) :
    Safe faults (· = n) (addItem c key w) fun _ => True := by
  unfold addItem
  split
  · refine dbGet_safe.safe.bind fun found hfound => ?_
    cases found with
    | none => exact Safe.pure trivial
    | some value =>
      exact (Safe.ofExcept (hkey value (hfound value rfl))).bind fun _ _ => Safe.pure trivial
  · exact Safe.pure trivial

theorem itemKeys_cons {win : Window} {v : RValue} {s : Bytes} (hs : v.s = .ok s)
    (vs : List RValue) (i : ℤ) : itemKeys win (v :: vs) i =
      (if win.takes (int32 (i + 1)) then [s] else []) ++ itemKeys win vs (int32 (i + 1)) := by
  simp only [itemKeys, hs]

theorem itemsLoop_returns {win : Window} (vs : List RValue) (i : ℤ) (ret : Bool) (w : WValue)
    (hkeys : ∀ key ∈ itemKeys win vs i, StoreReads n key) :
    Returns faults (· = n) (itemsLoop c win vs i ret w) fun _ => True := by
  induction vs generalizing i ret w with
  | nil => exact Returns.pure trivial
  | cons v vs ih =>
    refine (Safe.catchRuntime (Q := fun item => item ≠ none → ∃ s, v.s = .ok s)
      (Safe.bind (Safe.ofExcept (runtimeOnly_s v)) fun s hs => ?_)
      (Returns.pure fun hne => absurd rfl hne)).bind fun item hitem => ?_
    · rw [itemKeys_cons hs, List.forall_mem_append] at hkeys
      split
      · next htakes =>
        rw [if_pos htakes] at hkeys
        exact (addItem_safe (hkeys.1 s (List.mem_singleton_self s)) w).bind fun _ _ =>
          Safe.pure fun _ => ⟨s, hs⟩
      · exact Safe.pure fun _ => ⟨s, hs⟩
    · cases item with
      | none => exact Returns.pure trivial
      | some item =>
        obtain ⟨s, hs⟩ := hitem (Option.some_ne_none item)
        rw [itemKeys_cons hs, List.forall_mem_append] at hkeys
        exact ih _ _ _ hkeys.2

theorem addItem_onlyReads {s : Bytes} (hdb : c.dbOk = true) (hs : s ≠ key) (w : WValue) :
    Yields (onlyReads key) n (addItem c s w) (.ok (false, w)) := by
  unfold addItem
  rw [if_pos hdb]
  have hget := @dbGet_onlyReads n key s
  rw [if_neg hs] at hget
  exact Yields.bind_ok hget (Yields.pure _)

theorem addItem_raises {value : Bytes} {w : WValue} (hdb : c.dbOk = true)
    (hfind : n.db.find? key = some value) (hvalue : ¬RuntimeOnly (loadValue value)) :
    Raises (onlyReads key) (· = n) (addItem c key w) := by
  unfold addItem
  rw [if_pos hdb]
  have hget := @dbGet_onlyReads n key key
  rw [if_pos rfl, hfind] at hget
  exact Raises.bind_yields hget ((Raises.ofExcept hvalue).bind_left)

/-- The values of the other keys are not found, so that the loop comes to the one that cannot
be read. -/
theorem itemsLoop_raises {win : Window} {value : Bytes} (hdb : c.dbOk = true)
    (hfind : n.db.find? key = some value) (hvalue : ¬RuntimeOnly (loadValue value))
    (vs : List RValue) (i : ℤ) (ret : Bool) (w : WValue) (hkey : key ∈ itemKeys win vs i) :
    Raises (onlyReads key) (· = n) (itemsLoop c win vs i ret w) := by
  induction vs generalizing i ret w with
  | nil => cases hkey
  | cons v vs ih =>
    cases hv : v.s with
    | error f => simp [itemKeys, hv] at hkey
    | ok s =>
      rw [itemKeys_cons hv, List.mem_append] at hkey
      simp only [itemsLoop, hv]
      by_cases hhere : win.takes (int32 (i + 1)) = true ∧ s = key
      · obtain ⟨htakes, rfl⟩ := hhere
        refine Raises.bind_left (Raises.catchRuntime ?_)
        refine Raises.bind_yields (Yields.ofExcept (.ok s)) ?_
        rw [if_pos htakes]
        exact (addItem_raises hdb hfind hvalue).bind_left
      · have hrest : key ∈ itemKeys win vs (int32 (i + 1)) := by
          refine hkey.resolve_left fun hmem => hhere ?_
          split at hmem
          · next htakes => exact ⟨htakes, (List.mem_singleton.mp hmem).symm⟩
          · cases hmem
        have hitem : ∃ found, Yields (onlyReads key) n (do
            let s ← ofExcept (.ok s)
            if win.takes (int32 (i + 1)) then return some (← addItem c s w)
            return some (true, w)) (.ok (some (found, w))) := by
          by_cases htakes : win.takes (int32 (i + 1)) = true
          · refine ⟨false, Yields.bind_ok (Yields.ofExcept (.ok s)) ?_⟩
            rw [if_pos htakes]
            exact Yields.bind_ok (addItem_onlyReads hdb (fun h => hhere ⟨htakes, h⟩) w)
              (Yields.pure _)
          · refine ⟨true, Yields.bind_ok (Yields.ofExcept (.ok s)) ?_⟩
            rw [if_neg htakes]
            exact Yields.pure _
        obtain ⟨found, hitem⟩ := hitem
        exact Raises.bind_yields (Yields.catchRuntime hitem (Yields.pure none)) (ih _ _ _ hrest)

theorem getitemsCallback (h : req.WellFormed) :
    ContainedIff n (routeCoreGetitemsCallback c req) (OnBody req (GetitemsReads c n req)) := by
  refine settled_withBody h fun x _ => ContainedIff.map ?_
  unfold getItems GetitemsReads
  cases hdb : c.dbOk with
  | false =>
    exact ContainedIff.pure.congr (iff_of_true trivial fun h => absurd h Bool.false_ne_true)
  | true =>
    cases hkeys : x.elements with
    | error f => exact ContainedIff.pure.congr (by simp)
    | ok keys =>
      refine ContainedIff.congr (C := ∀ key ∈ itemKeys req.window keys (-1), StoreReads n key)
        ⟨fun hreads => ?_, fun hreads => ?_⟩ (by simp)
      · exact (Safe.contained fun _ => (itemsLoop_returns keys _ _ _ hreads).safe).mono
          (fun _ hm => hm) fun _ _ _ => trivial
      · simp only [StoreReads, not_forall] at hreads
        obtain ⟨key, hkey, value, hfind, hvalue⟩ := hreads
        exact ⟨onlyReads key, itemsLoop_raises hdb hfind hvalue keys _ _ _ hkey⟩

end

end Routing

end Quarks
