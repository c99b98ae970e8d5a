import Quarks.Core.Insert

/-!
# Removing keys

The functions that remove one key, the keys that match a pattern, or a list of
keys, and `atom`, which removes first and then puts.
-/

namespace Quarks

open Basis

/-- `Core::remove`: whether a key was removed, and the text of the answer. -/
def remove [HashOrder] (c : Config) (key : Bytes) : CoreM (Bool × Bytes) := do
  if c.dbOk then
    match ← dbGet key with
    | some _ =>
      if ← commitDelete c key then
        return (true, ascii "\x7b\"result\":1\x7d")
      return (false, ascii "\x7b\"result\":0\x7d")
    | none => return (false, ascii "\x7b\"result\":0\x7d")
  else return (false, ascii "\x7b\"result\":-1\x7d")

/-- The keys that `removeAll` removes. -/
def removedKeys (store : Store) (wild : Bytes) (win : Window) : List Bytes :=
  (listed store wild win).map Prod.fst

/-- `Core::removeAll`: the number of keys removed. -/
def removeAll [HashOrder] (c : Config) (wild : Bytes) (win : Window) : CoreM ℤ := do
  if c.dbOk && !startsWithStar wild then
    let store ← dbIterate
    let keys := removedKeys store wild win
    commitBatch c keys
    return int32 keys.length
  return 0

/-- The loop of `Core::removeAtom`, counting the keys that were removed. -/
def removeKeys [HashOrder] (c : Config) : List RValue → ℤ → CoreM ℤ
  | [], i => return i
  | v :: vs, i => do
    let key ← ofExcept v.s
    let r ← remove c key
    removeKeys c vs (if r.1 then i + 1 else i)

/-- `Core::removeAtom` for a parsed body. -/
def removeAtomParsed [HashOrder] (c : Config) (x : RValue) : CoreM (Bool × Bytes) :=
  catchRuntime
    (do
      let vs ← ofExcept x.elements
      let i ← removeKeys c vs 0
      return (true, ascii "\x7b\"removed\":" ++ toString i ++ ascii ",\"result\":true\x7d"))
    (return (false, ascii "\x7b\"result\":false, \"error\":\"invalid removeatom body\"\x7d"))

/-- `Core::removeAtom`. -/
def removeAtom [HashOrder] (c : Config) (body : Bytes) : CoreM (Bool × Bytes) :=
  match load body with
  | none => return (false, ascii "\x7b\"result\":false, \"error\": \"invalid remove body\"\x7d")
  | some x => removeAtomParsed c x

/-- `crow::json::dump(x[name])`, if there is a field of that name. -/
def dumpedField [HashOrder] (x : RValue) (name : Bytes) : Except Failure (Option Bytes) := do
  if ← x.has name then
    return some (dump (← WValue.ofRValue (← x.field name)))
  return none

/-- The pattern that `Core::atom` removes, if there is one. -/
def atomPattern (x : RValue) : Except Failure (Option Bytes) := do
  if ← x.has (ascii "removeall") then return some (← (← x.field (ascii "removeall")).s)
  return none

/-- The part of `Core::atom` that removes a list of keys. -/
def atomRemove [HashOrder] (c : Config) : Option Bytes → CoreM (Bool × Bytes)
  | some body => removeAtom c body
  | none => return (true, ascii "\x7b\"removed\":0,\"result\":true\x7d")

/-- The part of `Core::atom` that removes the keys of a pattern: the text it leaves in
place of that of the first part. -/
def atomRemoveAll [HashOrder] (c : Config) (removedResult : Bytes) : Option Bytes → CoreM Bytes
  | some wild => do
    let removed ← removeAll c wild ⟨0, -1⟩
    return ascii "\x7b\"removed\":" ++ toString removed ++ ascii "\x7d"
  | none => return removedResult

/-- The part of `Core::atom` that puts. -/
def atomPut [HashOrder] (c : Config) : Option Bytes → CoreM (Bool × Bytes)
  | some body => putAtom c body
  | none => return (true, ascii "\x7b\"put\":0,\"result\":true\x7d")

/-- `Core::atom`. -/
def atom [HashOrder] (c : Config) (body : Bytes) : CoreM (Bool × Bytes) :=
  match load body with
  | none => return (false, ascii "\x7b\"result\":false, \"error\": \"invalid atom body\"\x7d")
  | some x => do
    let removeBody ← ofExcept (dumpedField x (ascii "remove"))
    let removed ← atomRemove c removeBody
    let wild ← ofExcept (atomPattern x)
    let removedResult ← atomRemoveAll c removed.2 wild
    if removed.1 then
      let putBody ← ofExcept (dumpedField x (ascii "put"))
      let put ← atomPut c putBody
      if put.1 then
        return (true, ascii "\x7b\"result\":true,\"affected\":[" ++ removedResult ++ ascii "," ++
          put.2 ++ ascii "]\x7d")
    return (false, ascii "\x7b\"result\":false\x7d")

/-! ## What the functions do to the data -/

variable [HashOrder] {faults : Faults} {I E : Node → Prop} (c : Config)

/-- `remove` deletes a key that it has found. -/
theorem remove_triple {J : Node → Prop} {key : Bytes}
    (hskip : ∀ n, I n → key ∉ n.db ∨ c.dbOk = false ∨ Fails faults → J n)
    (hdelete : ∀ n, I n → key ∈ n.db → J (n.erased c key)) :
    DataTriple faults I (remove c key) (fun _ => J) E := by
  unfold remove
  split
  · refine DataTriple.bind DataTriple.dbGet fun found => ?_
    cases found with
    | none =>
      refine DataTriple.pure ?_
      rintro n ⟨hn, h | ⟨-, i, hi⟩⟩
      · exact hskip n hn (Or.inl (by simp [OrderedMap.mem_iff, ← h]))
      · exact hskip n hn (Or.inr (Or.inr ⟨i, _, hi⟩))
    | some value =>
      refine DataTriple.bind (M := fun _ => J) (commitDelete_triple c ?_ ?_) fun ok => ?_
      · rintro ⟨i, hi⟩ n ⟨hn, -⟩
        exact hskip n hn (Or.inr (Or.inr ⟨i, _, hi⟩))
      · rintro n ⟨hn, h | ⟨h, -⟩⟩
        · exact hdelete n hn (OrderedMap.mem_iff.mpr ⟨value, h.symm⟩)
        · cases h
      · cases ok <;> exact DataTriple.pure fun _ hn => hn
  · next hdb =>
    exact DataTriple.pure fun n hn => hskip n hn (Or.inr (Or.inl (by simpa using hdb)))

theorem removeAll_triple {J : Node → Prop} {wild : Bytes} {win : Window}
    (hskip : c.dbOk = false ∨ startsWithStar wild = true → ∀ n, I n → J n)
    (hfail : (∃ i keys, faults i (.write keys) = true) → ∀ n, I n → startsWithStar wild = false →
      J (n.allRemoveRequested c (removedKeys n.db wild win)))
    (hbatch : ∀ n, I n → startsWithStar wild = false →
      J (n.allErased c (removedKeys n.db wild win))) :
    DataTriple faults I (removeAll c wild win) (fun _ => J) E := by
  unfold removeAll
  split
  · next h =>
    have hstar : startsWithStar wild = false := by
      simp only [Bool.and_eq_true, Bool.not_eq_true'] at h
      exact h.2
    refine DataTriple.bind DataTriple.dbIterate fun m => ?_
    refine DataTriple.bind (M := fun _ => J) (commitBatch_triple c ?_ ?_)
      fun _ => DataTriple.pure fun _ hn => hn
    · rintro ⟨i, hi⟩ n ⟨hn, rfl⟩
      exact hfail ⟨i, _, hi⟩ n hn hstar
    · rintro n ⟨hn, rfl⟩
      exact hbatch n hn hstar
  · next h =>
    refine DataTriple.pure (hskip ?_)
    cases hdb : c.dbOk with
    | false => exact Or.inl rfl
    | true => exact Or.inr (by simpa [hdb] using h)

/-- The elements of a list up to the first one that is not a string. -/
def leadingStrings : List RValue → List Bytes
  | [] => []
  | v :: vs => match v.s with
    | .ok key => key :: leadingStrings vs
    | .error _ => []

/-- The elements that the body of `removeAtom` gives. -/
def bodyKeys (body : Bytes) : List Bytes := leadingStrings (bodyPairs body)

/-- `removeAtom` succeeds on this body: it is a list of strings. -/
def removable (body : Bytes) : Bool :=
  match (load body).map RValue.elements with
  | some (.ok vs) => vs.all fun v => v.s.isOk
  | _ => false

/-- The loop of `removeAtom` carries a statement about the keys that are left. -/
theorem removeKeys_triple {P : List Bytes → Node → Prop}
    (hskip : ∀ key keys n, P (key :: keys) n → key ∉ n.db ∨ c.dbOk = false ∨ Fails faults →
      P keys n)
    (hdelete : ∀ key keys n, P (key :: keys) n → key ∈ n.db → P keys (n.erased c key))
    (vs : List RValue) (i : ℤ) :
    Prog.Triple (handle faults) (fun w => P (leadingStrings vs) w.node) (removeKeys c vs i)
      (fun _ w => P [] w.node ∧ (vs.all fun v => v.s.isOk) = true)
      (fun e w => e.isRuntimeError = true ∧ P [] w.node ∧
        (vs.all fun v => v.s.isOk) = false) := by
  induction vs generalizing i with
  | nil => exact Prog.Triple.pure fun _ hw => ⟨hw, rfl⟩
  | cons v vs ih =>
    unfold removeKeys leadingStrings
    cases hs : v.s with
    | error e =>
      refine Prog.Triple.throw fun w hw => ⟨?_, hw, by simp [hs, Except.isOk, Except.toBool]⟩
      cases v <;> cases hs <;> rfl
    | ok key =>
      change Prog.Triple (handle faults) (fun w => P (key :: leadingStrings vs) w.node)
        (remove c key >>= _) _ _
      have hremove : DataTriple faults (P (key :: leadingStrings vs)) (remove c key)
          (fun _ => P (leadingStrings vs)) fun _ => False :=
        remove_triple c (hskip key _) (hdelete key _)
      refine Prog.Triple.bind (M := fun _ w => P (leadingStrings vs) w.node)
        (Prog.Triple.mono hremove (fun _ h => h) (fun _ _ h => h) fun _ _ h => h.elim) fun r => ?_
      refine (ih _).mono (fun _ h => h) ?_ ?_
      · rintro _ w ⟨hw, hall⟩
        exact ⟨hw, by rw [List.all_cons, hs, hall]; rfl⟩
      · rintro e w ⟨he, hw, hall⟩
        exact ⟨he, hw, by rw [List.all_cons, hall, Bool.and_false]⟩

/-- `removeAtom` removes the keys of its body, and tells whether all were strings. It
never raises an exception. -/
theorem removeAtom_triple {P : List Bytes → Node → Prop} {body : Bytes}
    (hskip : ∀ key keys n, P (key :: keys) n → key ∉ n.db ∨ c.dbOk = false ∨ Fails faults →
      P keys n)
    (hdelete : ∀ key keys n, P (key :: keys) n → key ∈ n.db → P keys (n.erased c key)) :
    DataTriple faults (P (bodyKeys body)) (removeAtom c body)
      (fun r n => P [] n ∧ r.1 = removable body) E := by
  unfold removeAtom bodyKeys bodyPairs removable
  cases load body with
  | none => exact DataTriple.pure fun _ hn => ⟨hn, rfl⟩
  | some x =>
    simp only [Option.map_some]
    unfold removeAtomParsed
    cases hvs : x.elements with
    | error e =>
      have he : e.isRuntimeError = true := by cases x <;> cases hvs <;> rfl
      change DataTriple faults (P []) (tryCatch (throw e) _) _ _
      refine Prog.Triple.tryCatch (M := fun e' w => e' = e ∧ P [] w.node)
        (Prog.Triple.throw fun _ hw => ⟨rfl, hw⟩) fun e' => ?_
      split
      · exact Prog.Triple.pure fun _ hw => ⟨hw.2, rfl⟩
      · next h =>
        exact Prog.Triple.throw fun _ hw => absurd (hw.1 ▸ he) h
    | ok vs =>
      refine Prog.Triple.tryCatch (M := fun e w => e.isRuntimeError = true ∧ P [] w.node ∧
        (vs.all fun v => v.s.isOk) = false) ?_ fun e => ?_
      · change Prog.Triple (handle faults) (fun w => P (leadingStrings vs) w.node)
          (removeKeys c vs 0 >>= _) _ _
        refine Prog.Triple.bind (removeKeys_triple c hskip hdelete vs 0) fun i => ?_
        exact Prog.Triple.pure fun _ hw => ⟨hw.1, hw.2.symm⟩
      · split
        · exact Prog.Triple.pure fun _ hw => ⟨hw.2.1, hw.2.2.symm⟩
        · next h => exact Prog.Triple.throw fun _ hw => absurd hw.1 h

/-! ## What `atom` asks for -/

/-- The keys that a body of `atom` lists for removal. -/
def atomKeys (x : RValue) : List Bytes :=
  match dumpedField x (ascii "remove") with
  | .ok (some body) => bodyKeys body
  | _ => []

/-- The keys that a body of `atom` makes `removeAll` remove from this store. -/
def atomMatches (db : Store) (x : RValue) : List Bytes :=
  match dumpedField x (ascii "remove"), atomPattern x with
  | .ok _, .ok (some wild) => if startsWithStar wild then [] else removedKeys db wild ⟨0, -1⟩
  | _, _ => []

/-- The pairs that a body of `atom` gives and that it comes to put. -/
def atomPairs (x : RValue) : List RValue :=
  match dumpedField x (ascii "remove"), atomPattern x, dumpedField x (ascii "put") with
  | .ok keys, .ok _, .ok (some body) => if keys.all removable then bodyPairs body else []
  | _, _, _ => []

/-- `atom` removes the keys of a list, then those that match a pattern, and puts only
if the list consisted of strings. -/
theorem atom_triple {P : List Bytes → Node → Prop} {Q : List RValue → Node → Prop}
    {body : Bytes} (hnone : load body = none → ∀ n, I n → Q [] n)
    (hstart : ∀ x n, load body = some x → I n → P (atomKeys x) n)
    (hskip : ∀ key keys n, P (key :: keys) n → key ∉ n.db ∨ c.dbOk = false ∨ Fails faults →
      P keys n)
    (hdelete : ∀ key keys n, P (key :: keys) n → key ∈ n.db → P keys (n.erased c key))
    (hclosed : c.dbOk = false → ∀ x n, load body = some x → P [] n → Q (atomPairs x) n)
    (hfail : (∃ i keys, faults i (.write keys) = true) → ∀ x n, load body = some x → P [] n →
      Q (atomPairs x) (n.allRemoveRequested c (atomMatches n.db x)))
    (hmatch : ∀ x n, load body = some x → P [] n →
      Q (atomPairs x) (n.allErased c (atomMatches n.db x)))
    (hthrow : ∀ v vs n, Q (v :: vs) n → Rejects faults c n v → Q [] n)
    (hleave : c.dbOk = false ∨ Fails faults → ∀ v vs n, Q (v :: vs) n → Q vs n)
    (hput : ∀ v vs n key w, Q (v :: vs) n → Inserts faults c n v key w →
      Q vs (n.stored c key (dump w))) :
    DataTriple faults I (atom c body) (fun _ => Q []) (Q []) := by
  unfold atom
  split
  · next hx => exact DataTriple.pure (hnone hx)
  next x hx =>
  have hmatch := fun n hn => hmatch x n hx hn
  -- an exception in the first two parts leaves nothing to remove or to put
  have hend : ∀ n, atomPairs x = [] → atomMatches n.db x = [] → P [] n → Q [] n := by
    intro n hpairs hmatches hn
    have h := hmatch n hn
    rwa [hpairs, hmatches] at h
  cases hkeys : dumpedField x (ascii "remove") with
  | error e =>
    refine DataTriple.throw fun n hn => hend n (by simp [atomPairs, hkeys])
      (by simp [atomMatches, hkeys]) ?_
    have h := hstart x n hx hn
    rwa [atomKeys, hkeys] at h
  | ok keys =>
    change DataTriple faults I (atomRemove c keys >>= _) _ _
    refine DataTriple.bind (M := fun r n => P [] n ∧ r.1 = keys.all removable) ?_ fun removed => ?_
    · have hkeys' : atomKeys x = (keys.map bodyKeys).getD [] := by
        unfold atomKeys
        rw [hkeys]
        cases keys <;> rfl
      have hstart' : ∀ n, I n → P ((keys.map bodyKeys).getD []) n :=
        fun n hn => hkeys' ▸ hstart x n hx hn
      cases keys with
      | none => exact DataTriple.pure fun n hn => ⟨hstart' n hn, rfl⟩
      | some keys =>
        exact ((removeAtom_triple c hskip hdelete).pre hstart').mono
          (fun _ h => h) (fun _ _ h => ⟨h.1, by simpa using h.2⟩) fun _ h => h
    cases hwild : atomPattern x with
    | error e =>
      exact DataTriple.throw fun n hn => hend n (by simp [atomPairs, hkeys, hwild])
        (by simp [atomMatches, hkeys, hwild]) hn.1
    | ok wild =>
      change DataTriple faults _ (atomRemoveAll c removed.2 wild >>= _) _ _
      refine DataTriple.bind (M := fun _ n => Q (atomPairs x) n ∧ removed.1 = keys.all removable)
        ?_ fun removedResult => ?_
      · cases wild with
        | none =>
          refine DataTriple.pure fun n hn => ⟨?_, hn.2⟩
          have h := hmatch n hn.1
          rwa [show atomMatches n.db x = [] by simp [atomMatches, hkeys, hwild]] at h
        | some wild =>
          refine DataTriple.bind (M := fun _ n =>
            Q (atomPairs x) n ∧ removed.1 = keys.all removable)
            (removeAll_triple c ?_ ?_ ?_) fun _ => DataTriple.pure fun _ hn => hn
          · rintro (hdb | hstar) n ⟨hn, hok⟩
            · exact ⟨hclosed hdb x n hx hn, hok⟩
            · refine ⟨?_, hok⟩
              have h := hmatch n hn
              rwa [show atomMatches n.db x = [] by simp [atomMatches, hkeys, hwild, hstar]] at h
          · rintro hfault n ⟨hn, hok⟩ hstar
            refine ⟨?_, hok⟩
            have h := hfail hfault x n hx hn
            simpa [atomMatches, hkeys, hwild, hstar] using h
          · rintro n ⟨hn, hok⟩ hstar
            refine ⟨?_, hok⟩
            have h := hmatch n hn
            simpa [atomMatches, hkeys, hwild, hstar] using h
      split
      · next hok =>
        cases hpairs : dumpedField x (ascii "put") with
        | error e =>
          refine DataTriple.throw fun n hn => ?_
          have hnil : atomPairs x = [] := by simp [atomPairs, hkeys, hwild, hpairs]
          exact hnil ▸ hn.1
        | ok pairs => 
          change DataTriple faults _ (atomPut c pairs >>= _) _ _
          refine DataTriple.bind (M := fun _ => Q []) ?_ fun r => ?_
          · have hall : removed.1 = keys.all removable →
                atomPairs x = (pairs.map bodyPairs).getD [] := by
              intro h
              unfold atomPairs
              rw [hkeys, hwild, hpairs]
              cases pairs <;> simp [← h, hok]
            have hstart' : ∀ n, Q (atomPairs x) n ∧ removed.1 = keys.all removable →
                Q ((pairs.map bodyPairs).getD []) n := fun n hn => hall hn.2 ▸ hn.1
            cases pairs with
            | none => exact DataTriple.pure hstart'
            | some pairs => exact (putAtom_triple c hthrow hleave hput).pre hstart'
          · split <;> exact DataTriple.pure fun _ hn => hn
      · next hok =>
        refine DataTriple.pure fun n hn => ?_
        have hnil : atomPairs x = [] := by
          unfold atomPairs
          rw [hkeys, hwild]
          have hfalse : keys.all removable = false := by rw [← hn.2]; simpa using hok
          cases dumpedField x (ascii "put") with
          | error e => rfl
          | ok pairs => cases pairs <;> simp [hfalse]
        exact hnil ▸ hn.1

end Quarks
