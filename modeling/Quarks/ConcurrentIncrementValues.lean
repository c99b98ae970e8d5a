import Quarks.ReadModifyWrite
import Quarks.ConcurrentIncrements
import Quarks.Json.Fields
import Quarks.Json.WholeNumbers

/-!
# Concurrent increments of a field

`incrementValue` adds to a field of a stored object. Unlike `increment` it holds no
mutex, so that a step is lost if a request reads the object while another one is about
to write it. Where this does not happen, the steps add up.
-/

namespace Quarks

open Basis

/-- The text that `incrementValue` stores for a body, given the text found under its key. -/
def incrementedText [HashOrder] (x : RValue) (found : Option Bytes) : Option Bytes :=
  found.bind fun text => match incrementedValue x text with
    | .ok (some (w, _)) => some (dump w)
    | _ => none

/-- The answer of `incrementValue` that reports the number of fields it has added to. -/
def affectedAnswer (affected : ℤ) : Bytes :=
  ascii "\x7b\"result\":" ++ toString affected ++ ascii "\x7d"

/-- The number reported is that of the fields added to. -/
def ReportsAffected [HashOrder] (x : RValue) (found : Option Bytes)
    (r : Except Failure (Bool × Bytes)) : Prop :=
  ∃ text w affected, found = some text ∧ incrementedValue x text = .ok (some (w, affected)) ∧
    r = .ok (true, affectedAnswer affected)

/-- The value of a body sets a single field. -/
def SetsField (x : RValue) (name : Bytes) (step : ℤ) : Prop :=
  ∃ v, x.field (ascii "value") = .ok (.object [(name, v)]) ∧ v.i = .ok step

/-- The text is that of an object with a field that is a whole number. -/
def HoldsNumber (found : Option Bytes) (name : Bytes) (z : ℤ) : Prop :=
  ∃ text y, found = some text ∧ load text = some y ∧ (y.field name).bind RValue.i = .ok z

section

variable [HashOrder] {c : Config} {body key name : Bytes} {x : RValue} {step : ℤ}

/-- What `incrementValue` stores for a body that sets a field. -/
theorem incrementedValue_setsField {text : Bytes} {result : Option (WValue × ℤ)}
    (hx : SetsField x name step) (h : incrementedValue x text = .ok result) :
    ∃ v y existing w affected, v.i = .ok step ∧ load text = some y ∧
      WValue.ofRValue y = .ok existing ∧ result = some (w, affected) ∧
      incrementFields y (.object [(name, v)]) existing existing.keys .null 0 =
        .ok (w, affected) := by
  obtain ⟨v, hv, hstep⟩ := hx
  unfold incrementedValue at h
  obtain ⟨xvalue, hxvalue, h⟩ := of_bind_ok h
  rw [hv] at hxvalue
  cases hxvalue
  obtain ⟨putValue, hput, h⟩ := of_bind_ok h
  obtain ⟨y, hy, h⟩ := of_bind_ok h
  obtain ⟨existing, hexisting, h⟩ := of_bind_ok h
  have hkeys : putValue.keys ≠ [] := WValue.keys_ne_nil_of_ofRValue hput (by simp)
  rw [if_neg hkeys] at h
  obtain ⟨⟨w, affected⟩, hw, h⟩ := of_bind_ok h
  cases h
  exact ⟨v, y, existing, w, affected, hstep, of_checked_ok hy, hexisting, rfl, hw⟩

/-- `incrementValue` reads the key and then writes it, and reports the number of fields
it has added to exactly if it has written. -/
theorem incrementValue_readsThenWrites (hdb : c.dbOk = true) (hbody : load body = some x)
    (hkey : pairKey x = .ok key) (hx : SetsField x name step) :
    ReadsThenWrites key (incrementedText x) (ReportsAffected x)
      (fun r => ∀ out, r ≠ .ok (true, out)) (incrementValue c body) := by
  unfold incrementValue getKeyValuePair
  rw [hbody]
  simp only [hkey, hdb, if_true]
  refine ⟨_, rfl, fun found => ?_⟩
  cases found with
  | none => exact nofun
  | some text =>
    change WritesOrSkips key (incrementedText x (some text)) (ReportsAffected x (some text)) _
      (ofExcept (incrementedValue x text) >>= _)
    cases hinc : incrementedValue x text with
    | error e =>
      have htext : incrementedText x (some text) = none := by simp [incrementedText, hinc]
      rw [htext]
      exact nofun
    | ok result =>
      obtain ⟨-, -, -, w, affected, -, -, -, rfl, -⟩ := incrementedValue_setsField hx hinc
      have htext : incrementedText x (some text) = some (dump w) := by
        simp [incrementedText, hinc]
      obtain ⟨next, heq, hnext⟩ := dumpPair_writes c hdb key (dump w)
      rw [htext]
      change WritesOrSkips key _ _ _ (dumpPair c key (dump w) >>= _)
      rw [heq]
      refine ⟨_, rfl, hnext.bind (fun r h => ?_) fun e he => by cases he⟩
      cases h
      exact ⟨text, w, affected, rfl, hinc, rfl⟩

end

section

variable [HashOrder] {x : RValue} {name : Bytes} {step : ℤ}

omit [HashOrder] in
/-- The loop adds the step to the field that is set, if it comes past it. -/
theorem incrementFields_field {read u v : RValue} {existing : WValue} {z : ℤ}
    (hv : v.i = .ok step) (hu : read.field name = .ok u) (hz : u.i = .ok z) {es : List Bytes}
    {w w' : WValue} {affected affected' : ℤ} (hw : w.Distinct)
    (h : incrementFields read (.object [(name, v)]) existing es w affected = .ok (w', affected')) :
    w'.Distinct ∧ affected ≤ affected' ∧
      (name ∈ es → affected < affected' ∧
        w'.field? name = some (.number (Double.ofInt (int32 (int32 z + step))))) ∧
      (name ∉ es → w'.field? name = w.field? name) := by
  induction es generalizing w affected with
  | nil =>
    cases h
    exact ⟨hw, le_rfl, fun hmem => absurd hmem List.not_mem_nil, fun _ => rfl⟩
  | cons e es ih =>
    unfold incrementFields at h
    obtain ⟨has, hhas, h⟩ := of_bind_ok h
    by_cases he : e = name
    · subst he
      have hfield : (RValue.object [(e, v)]).field e = .ok v := by
        simp [RValue.field]
      rw [RValue.has, lookup_cons_eq, if_pos rfl] at hhas
      cases hhas
      rw [hu, hfield] at h
      simp only [Option.isSome_some, if_true] at h
      obtain ⟨u', hu', h⟩ := of_bind_ok h
      cases hu'
      obtain ⟨z', hz', h⟩ := of_bind_ok h
      rw [hz] at hz'
      cases hz'
      obtain ⟨v', hv', h⟩ := of_bind_ok h
      cases hv'
      obtain ⟨step', hstep', h⟩ := of_bind_ok h
      rw [hv] at hstep'
      cases hstep'
      obtain ⟨hdistinct, hle, hmem, hnot⟩ := ih (hw.set _ _) h
      refine ⟨hdistinct, by omega, fun _ => ⟨by omega, ?_⟩, fun hnot =>
        absurd List.mem_cons_self hnot⟩
      by_cases hes : e ∈ es
      · exact (hmem hes).2
      · rw [hnot hes, WValue.field?_set, if_pos rfl]
    · rw [RValue.has, lookup_cons_eq, if_neg he, List.lookup_nil] at hhas
      cases hhas
      simp only [Option.isSome_none, Bool.false_eq_true, if_false] at h
      obtain ⟨hdistinct, hle, hmem, hnot⟩ := ih (hw.set _ _) h
      refine ⟨hdistinct, hle, fun h => hmem ((List.mem_cons.mp h).resolve_left (Ne.symm he)),
        fun h => ?_⟩
      rw [hnot fun hes => h (List.mem_cons_of_mem _ hes), WValue.field?_set, if_neg (Ne.symm he)]

/-- A text that is stored is that of an object with incremented fields. -/
theorem of_incrementedText {found : Option Bytes} {value : Bytes}
    (h : incrementedText x found = some value) : ∃ text w affected, found = some text ∧
      incrementedValue x text = .ok (some (w, affected)) ∧ value = dump w := by
  obtain ⟨text, rfl, htext⟩ := Option.bind_eq_some_iff.mp h
  split at htext
  · next w affected hinc => exact ⟨text, w, affected, rfl, hinc, (Option.some.inj htext).symm⟩
  · cases htext

/-- An increment that is stored has added its step to the number, and reports it. -/
theorem HoldsNumber.increment {text : Bytes} {z affected : ℤ} {w : WValue}
    (h : HoldsNumber (some text) name z) (hx : SetsField x name step)
    (hz : -2 ^ 31 ≤ z ∧ z < 2 ^ 31) (hsum : -2 ^ 31 ≤ z + step ∧ z + step < 2 ^ 31)
    (hinc : incrementedValue x text = .ok (some (w, affected))) :
    0 < affected ∧ HoldsNumber (some (dump w)) name (z + step) := by
  obtain ⟨text', y', htext, hy', hnumber⟩ := h
  cases htext
  obtain ⟨u, hu, hz'⟩ := of_bind_ok hnumber
  obtain ⟨v, y, existing, w', affected', hv, hy, hexisting, heq, hfields⟩ :=
    incrementedValue_setsField hx hinc
  cases heq
  rw [hy'] at hy
  cases hy
  have hkeys : name ∈ existing.keys := by
    cases y' with
    | object l =>
      cases hlookup : l.lookup name with
      | none =>
        simp only [RValue.field, hlookup] at hu
        cases hu
      | some u' => exact WValue.mem_keys_ofRValue hexisting hlookup
    | _ => cases hu
  obtain ⟨hdistinct, -, hmem, -⟩ := incrementFields_field hv hu hz' (w := .null) trivial hfields
  obtain ⟨haffected, hfield⟩ := hmem hkeys
  rw [int32_eq_self hz, int32_eq_self hsum] at hfield
  refine ⟨haffected, dump w, reread w, rfl, load_dump w, ?_⟩
  rw [field_reread hdistinct hfield]
  change RValue.i (.number (printG10 (Double.ofInt (z + step)))) = _
  rw [printG10_ofInt (by omega), RValue.i, lexicalCastInt64_toString (by omega)]

end

section

variable {ι : Type} [HashOrder] {c : Config} {key name : Bytes} {x : ι → RValue} {z₀ : ℤ}
  {steps : ι → ℤ} {found : Option Bytes}

/-- Increments that are served one after the other: the field is the sum of their steps,
and each of them has added to it. -/
theorem serial_incrementValues {order : List ι} (hfound : HoldsNumber found name z₀)
    (hx : ∀ i, SetsField (x i) name (steps i))
    (hfit : ∀ done : List ι, done.Nodup →
      -2 ^ 31 ≤ sumAfter z₀ steps done ∧ sumAfter z₀ steps done < 2 ^ 31)
    (hnodup : order.Nodup)
    (hwrote : ∀ done i, done ++ [i] <+: order →
      (incrementedText (x i)
        (valueAfter (fun i => incrementedText (x i)) found done)).isSome = true) :
    HoldsNumber (valueAfter (fun i => incrementedText (x i)) found order) name
      (sumAfter z₀ steps order) := by
  induction order using List.reverseRecOn with
  | nil => simpa [valueAfter, sumAfter] using hfound
  | append_singleton order i ih =>
    have horder := ih hnodup.of_append_left fun done j hdone =>
      hwrote done j (hdone.trans (List.prefix_append _ _))
    obtain ⟨value, hvalue⟩ := Option.isSome_iff_exists.mp (hwrote order i (List.prefix_refl _))
    obtain ⟨text, w, affected, htext, hinc, rfl⟩ := of_incrementedText hvalue
    rw [valueAfter_append, hvalue, sumAfter_concat]
    rw [htext] at horder
    exact (horder.increment (hx i) (hfit _ hnodup.of_append_left)
      (sumAfter_concat order i ▸ hfit _ hnodup) hinc).2

/-- The request has ended and has reported that it has added to a field. -/
def Affected (p : Requests ι (Bool × Bytes)) (i : ι) : Prop :=
  ∃ affected, 0 < affected ∧ (p.progs i).outcome = some (.ok (true, affectedAnswer affected))

/-- What holds of increments that have all been served: the field is the initial number
and the steps of those that have reported to have added to it. -/
def AllAdded (key name : Bytes) (z₀ : ℤ) (steps : ι → ℤ) (p : Requests ι (Bool × Bytes)) : Prop :=
  (∀ i, (p.progs i).outcome.isSome = true) → ∃ counted : Finset ι,
    (∀ i, i ∈ counted ↔ Affected p i) ∧
    HoldsNumber (p.state.1.node.db.find? key) name (z₀ + ∑ i ∈ counted, steps i)

/-- If no request reads the key while another one is about to write it, the increments
that have reported to have added to the field all count. -/
theorem incrementValues_all_count [DecidableEq ι] {w : World} {body : ι → Bytes}
    (hdb : c.dbOk = true) (hbody : ∀ i, load (body i) = some (x i))
    (hkey : ∀ i, pairKey (x i) = .ok key) (hx : ∀ i, SetsField (x i) name (steps i))
    (hfound : HoldsNumber (w.node.db.find? key) name z₀)
    (hfit : ∀ done : List ι, done.Nodup →
      -2 ^ 31 ≤ sumAfter z₀ steps done ∧ sumAfter z₀ steps done < 2 ^ 31)
    {schedule : List ι} (halone : EachTurnMeets noFaults ReadsAlone
      (arrived w fun i => incrementValue c (body i)) schedule) :
    AllAdded key name z₀ steps
      (interleave noFaults (arrived w fun i => incrementValue c (body i)) schedule) := by
  intro hends
  obtain ⟨order, ⟨hnodup, hvalue, hwrote⟩, hended⟩ := interleave_writes
    (fun i => incrementValue_readsThenWrites hdb (hbody i) (hkey i) (hx i)) halone
    (List.prefix_refl _)
  refine ⟨order.toFinset, fun i => ?_, ?_⟩
  · rw [List.mem_toFinset]
    obtain ⟨r, hr⟩ := Option.isSome_iff_exists.mp (hends i)
    rcases hended i r hr with ⟨before, hbefore, text, v, affected, htext, hinc, rfl⟩ |
      ⟨hi, hskipped⟩
    · refine ⟨fun _ => ⟨affected, ?_, hr⟩, fun _ => hbefore.subset (by simp)⟩
      have hbefore' : before <+: order := (List.prefix_append _ _).trans hbefore
      have hholds := serial_incrementValues hfound hx hfit (hnodup.sublist hbefore'.sublist)
        fun done j hdone => hwrote done j (hdone.trans hbefore')
      rw [htext] at hholds
      have hfit' := hfit _ (hnodup.sublist hbefore.sublist)
      exact (hholds.increment (hx i) (hfit _ (hnodup.sublist hbefore'.sublist))
        (sumAfter_concat before i ▸ hfit') hinc).1
    · refine ⟨fun hmem => absurd hmem hi, ?_⟩
      rintro ⟨affected, -, hreport⟩
      rw [hr] at hreport
      exact absurd (Option.some.inj hreport) (hskipped _)
  · have hsum : ∑ i ∈ order.toFinset, steps i = (order.map steps).sum :=
      List.sum_toFinset steps hnodup
    rw [hsum]
    exact hvalue ▸ serial_incrementValues hfound hx hfit hnodup hwrote

end

/-- The bodies of two increments of one field, `{"key":"k","value":{"n":1}}` and the
same with another step. -/
def twoIncrementBodies (i : Bool) : Bytes :=
  @dump .insertion (.object [(ascii "key", .string (ascii "k")),
    (ascii "value", .object [(ascii "n", .number (Double.ofInt (if i then 1 else 2)))])])

/-- Two increments of a field of a stored object. -/
def twoIncrementValues (schedule : List Bool) : Requests Bool (Bool × Bytes) :=
  interleave noFaults (arrived
    (openDB uncachedOnly (OrderedMap.empty.insert (ascii "k") (ascii "\x7b\"n\":5\x7d"))) fun i =>
      @incrementValue .insertion uncachedOnly (twoIncrementBodies i)) schedule

/-- The theorem at the two increments, the second of which comes after the first. -/
theorem incrementValues_all_count_two :
    AllAdded (ascii "k") (ascii "n") 5 (fun i => if i then 1 else 2)
      (twoIncrementValues [true, true, false, false]) := by
  have hbody : ∀ i, load (twoIncrementBodies i) = _ := fun i => @load_dump .insertion _
  refine @incrementValues_all_count Bool .insertion uncachedOnly (ascii "k") (ascii "n") _ 5
    (fun i => if i then 1 else 2) _ _ twoIncrementBodies rfl hbody (fun i => by cases i <;> rfl)
    (fun i => ?_) ?_ (fun done hdone => ?_) [true, true, false, false] (by decide +kernel)
  · refine ⟨_, rfl, ?_⟩
    cases i <;> decide +kernel
  · have hfive : ((load (ascii "\x7b\"n\":5\x7d")).map fun y =>
        (y.field (ascii "n")).bind RValue.i) = some (.ok 5) := by
      decide +kernel
    obtain ⟨y, hy, hnumber⟩ := Option.map_eq_some_iff.mp hfive
    exact ⟨_, y, by decide +kernel, hy, hnumber⟩
  · rcases done with _ | ⟨a, _ | ⟨b, _ | ⟨c, rest⟩⟩⟩
    · decide
    · cases a <;> decide
    · cases a <;> cases b <;> decide
    · cases a <;> cases b <;> cases c <;> simp at hdone

/-- If both read before either writes, the step of the first one is lost. -/
theorem not_allAdded_two :
    ¬AllAdded (ascii "k") (ascii "n") 5 (fun i => if i then 1 else 2)
      (twoIncrementValues [true, false, true, false]) := by
  have hends : ∀ i, ((twoIncrementValues [true, false, true, false]).progs i).outcome =
      some (.ok (true, affectedAnswer 1)) := by
    decide +kernel
  have hdb : (twoIncrementValues [true, false, true, false]).state.1.node.db.find? (ascii "k") =
      some (ascii "\x7b\"n\":7\x7d") := by
    decide +kernel
  have hseven : ((load (ascii "\x7b\"n\":7\x7d")).map fun y =>
      (y.field (ascii "n")).bind RValue.i) = some (.ok 7) := by
    decide +kernel
  intro h
  obtain ⟨counted, hcounted, text, y, htext, hy, hnumber⟩ := h fun i => by rw [hends i]; rfl
  have hall : counted = Finset.univ := by
    ext i
    simp only [Finset.mem_univ, iff_true, hcounted]
    exact ⟨1, by decide, hends i⟩
  rw [hdb] at htext
  cases htext
  rw [hy, Option.map_some, hnumber, hall] at hseven
  exact absurd hseven (by decide)

end Quarks
