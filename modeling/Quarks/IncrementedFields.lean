import Quarks.ConcurrentIncrementValues
import Quarks.ExactIncrements
import Quarks.Json.Leaves

/-!
# Increments of the fields of an object

`incrementValue` adds the fields of one object to those of another one that is stored. It reads
64-bit integers, also out of strings, but adds them in `int`, and it prints the whole object
again. A stored value that is no object, or has no fields, is replaced by `null`.
-/

namespace Quarks

open Basis

/-! ## What is asked for -/

/-- The field is a number whose text is that of a 64-bit integer. -/
def HoldsInteger (x : RValue) (name : Bytes) (z : ℤ) : Prop :=
  ∃ token, x.child? (.field name) = some (.number token) ∧ lexicalCastInt64 token = some z

/-- The sum is a 64-bit integer. -/
def IsInt64 (z : ℤ) : Prop := -2 ^ 63 ≤ z ∧ z < 2 ^ 63

section

variable (x xv y : RValue)

/-- The names of the fields that both objects have. -/
def sharedNames : Finset Bytes := x.names ∩ xv.names

/-- The value is an object, and where it shares a field both have an integer there, with a sum
that is one. -/
structure Addable : Prop where
  object : ∃ o, x = .object o
  integers : ∀ name ∈ sharedNames x xv, ∃ z z', HoldsInteger x name z ∧ HoldsInteger xv name z' ∧
    IsInt64 (z + z')

/-- The object has the sums in the fields that are shared, and otherwise says what the first
object said. -/
structure HoldsSums : Prop where
  object : ∃ o, y = .object o
  sums : ∀ name ∈ sharedNames x xv, ∀ z z', HoldsInteger x name z → HoldsInteger xv name z' →
    HoldsInteger y name (z + z')
  others : ∀ name, name ∉ sharedNames x xv → ∀ p,
    y.leafAt (.field name :: p) = x.leafAt (.field name :: p)

end

/-- The call has returned false, or raised an exception. -/
def Refuses (r : Except Failure (Bool × Bytes)) : Prop :=
  (∃ out, r = .ok (false, out)) ∨ ∃ f, f ≠ .undefined ∧ r = .error f

section

variable [HashOrder] (c : Config) (w : World) (body key text : Bytes) (xv : RValue)

/-- The data after the call. -/
def valueIncremented : Node := ((incrementValue c body).run (handle noFaults) w).2.node

/-- The call adds the fields and tells how many it has added to, or if they cannot be added, it
leaves what is stored and does not claim success. -/
structure IncrementsExactly : Prop where
  adds : ∀ x, load text = some x → Addable x xv →
    answer noFaults w (incrementValue c body) = .ok (true, affectedAnswer (sharedNames x xv).card) ∧
    ∃ text' y, (valueIncremented c w body).db.find? key = some text' ∧ load text' = some y ∧
      HoldsSums x xv y
  refuses : (∀ x, load text = some x → ¬Addable x xv) →
    Refuses (answer noFaults w (incrementValue c body)) ∧
    (valueIncremented c w body).db = w.node.db ∧
    (valueIncremented c w body).cache = w.node.cache

end

/-! ## When it does so -/

/-- Every number of the value can be read as a double. -/
def Convertible (x : RValue) : Prop := (WValue.ofRValue x).isOk = true

instance (x : RValue) : Decidable (Convertible x) :=
  inferInstanceAs (Decidable ((WValue.ofRValue x).isOk = true))

/-- The field is a 64-bit integer, or a string of the digits of one. -/
def Counts (x : RValue) (name : Bytes) : Prop :=
  ∃ y z, x.child? (.field name) = some y ∧ y.i = .ok z

section

variable (x xv : RValue)

/-- The fields are added exactly: the object is not empty, the sums fit an `int`, and the
numbers in the other fields are printed with their values. -/
structure AddsSafely : Prop where
  convertible : Convertible x ∧ Convertible xv
  nonempty : x.names.Nonempty
  fits : ∀ name ∈ sharedNames x xv, ∀ z z', HoldsInteger x name z → HoldsInteger xv name z' →
    IsInt (z + z')
  printsBack : ∀ name, name ∉ sharedNames x xv → ∀ p token,
    x.at? (.field name :: p) = some (.number token) → PrintsBack token

/-- The call ends with an exception: a value cannot be converted, or a field that is shared
does not count. -/
def Stops : Prop :=
  ¬(Convertible x ∧ Convertible xv) ∨ ∃ name ∈ sharedNames x xv, ¬(Counts x name ∧ Counts xv name)

/-- The fields are added exactly if they can be added, and else the call stops. -/
structure IncrementsSafely (text : Bytes) : Prop where
  adds : ∀ x, load text = some x → Addable x xv → AddsSafely x xv
  refuses : ∀ x, load text = some x → ¬Addable x xv → Stops x xv

end

/-! ## The loop over the fields -/

/-- The integer that is read from a field. -/
def intAt (x : RValue) (name : Bytes) : ℤ :=
  (((x.field name).bind RValue.i).toOption).getD 0

/-- What the loop writes into a field. -/
def newField (read xv : RValue) (existing : WValue) (name : Bytes) : WValue :=
  if name ∈ xv.names then .number (Double.ofInt (int32 (int32 (intAt read name) + intAt xv name)))
  else existing.take name

section

variable {x xv : RValue} {name : Bytes} {z : ℤ}

/-- A field that cannot be read as an integer raises an exception. -/
theorem i_error {f : Failure} (h : x.i = .error f) : f ≠ .undefined := by
  cases x with
  | number token | string token =>
    rw [RValue.i] at h
    split at h
    · cases h
    · rw [← Except.error.inj h]
      decide
  | _ =>
    rw [← Except.error.inj h]
    exact Failure.noConfusion

theorem HoldsInteger.counts (h : HoldsInteger x name z) : Counts x name := by
  obtain ⟨token, htoken, hz⟩ := h
  exact ⟨_, z, htoken, by rw [RValue.i, hz]⟩

theorem HoldsInteger.intAt_eq (h : HoldsInteger x name z) : intAt x name = z := by
  obtain ⟨token, htoken, hz⟩ := h
  have hi : (RValue.number token).i = .ok z := by rw [RValue.i, hz]
  rw [intAt, RValue.field_of_child? htoken]
  change ((RValue.number token).i.toOption).getD 0 = z
  rw [hi]
  rfl

/-- A field that counts is read. -/
theorem Counts.read (h : Counts x name) :
    ∃ y, x.field name = .ok y ∧ y.i = .ok (intAt x name) := by
  obtain ⟨y, z, hy, hz⟩ := h
  refine ⟨y, RValue.field_of_child? hy, ?_⟩
  rw [intAt, RValue.field_of_child? hy]
  change y.i = .ok ((y.i.toOption).getD 0)
  rw [hz]
  rfl

/-- A field that does not count raises an exception. -/
theorem not_counts (hname : name ∈ x.names) (h : ¬Counts x name) :
    ∃ y f, x.field name = .ok y ∧ y.i = .error f ∧ f ≠ .undefined := by
  obtain ⟨y, hy⟩ := Option.isSome_iff_exists.mp (RValue.mem_names.mp hname)
  cases hi : y.i with
  | ok z => exact absurd ⟨y, z, hy, hi⟩ h
  | error f => exact ⟨y, f, RValue.field_of_child? hy, hi, i_error hi⟩

theorem has_object (p : List (Bytes × RValue)) (name : Bytes) :
    (RValue.object p).has name = .ok (decide (name ∈ (RValue.object p).names)) := by
  have hiff : (p.lookup name).isSome = decide (name ∈ (RValue.object p).names) := by
    rw [Bool.eq_iff_iff, decide_eq_true_iff]
    exact (@RValue.mem_names (.object p) name).symm
  rw [RValue.has, hiff]

variable {p : List (Bytes × RValue)} {existing u : WValue} {es : List Bytes} {n : ℤ}

/-- Where all fields that are shared count, the loop writes every field. -/
theorem incrementFields_eq (hes : ∀ e ∈ es, e ∈ (RValue.object p).names →
      Counts x e ∧ Counts (.object p) e) :
    incrementFields x (.object p) existing es u n =
      .ok (es.foldl (fun u e => u.set e (newField x (.object p) existing e)) u,
        n + (es.filter fun e => e ∈ (RValue.object p).names).length) := by
  induction es generalizing u n with
  | nil =>
    rw [List.filter_nil, List.length_nil, Nat.cast_zero, add_zero]
    rfl
  | cons e es ih =>
    obtain ⟨he, hes⟩ := List.forall_mem_cons.mp hes
    rw [incrementFields, has_object, List.foldl_cons, List.filter_cons]
    by_cases hshared : e ∈ (RValue.object p).names
    · obtain ⟨⟨y, hy, hz⟩, ⟨y', hy', hz'⟩⟩ := (he hshared).imp Counts.read Counts.read
      simp only [hshared, decide_true, bind, Except.bind, if_true, hy, hz, hy', hz', ih hes,
        newField, List.length_cons]
      congr 2
      push_cast
      omega
    · simp only [hshared, decide_false, bind, Except.bind, Bool.false_eq_true, if_false, ih hes,
        newField]

/-- Where one of them does not count, the loop ends with an exception. -/
theorem incrementFields_stops (hread : ∀ e ∈ es, e ∈ x.names)
    (hes : ∃ e ∈ es, e ∈ (RValue.object p).names ∧ ¬(Counts x e ∧ Counts (.object p) e)) :
    ∃ f, f ≠ .undefined ∧ incrementFields x (.object p) existing es u n = .error f := by
  induction es generalizing u n with
  | nil =>
    obtain ⟨e, he, -⟩ := hes
    cases he
  | cons e es ih =>
    obtain ⟨hname, hread⟩ := List.forall_mem_cons.mp hread
    rw [incrementFields, has_object]
    by_cases hshared : e ∈ (RValue.object p).names
    · simp only [hshared, decide_true, bind, Except.bind, if_true]
      by_cases hx : Counts x e
      · obtain ⟨y, hy, hz⟩ := hx.read
        simp only [hy, hz]
        by_cases hxv : Counts (.object p) e
        · obtain ⟨y', hy', hz'⟩ := hxv.read
          simp only [hy', hz']
          refine ih hread ?_
          obtain ⟨e', he', hrest⟩ := hes
          rcases List.mem_cons.mp he' with rfl | he'
          · exact absurd ⟨hx, hxv⟩ hrest.2
          · exact ⟨e', he', hrest⟩
        · obtain ⟨y', f, hy', hz', hf⟩ := not_counts hshared hxv
          exact ⟨f, hf, by simp only [hy', hz']⟩
      · obtain ⟨y, f, hy, hz, hf⟩ := not_counts hname hx
        exact ⟨f, hf, by simp only [hy, hz]⟩
    · simp only [hshared, decide_false, bind, Except.bind, Bool.false_eq_true, if_false]
      refine ih hread ?_
      obtain ⟨e', he', hrest⟩ := hes
      rcases List.mem_cons.mp he' with rfl | he'
      · exact absurd hrest.1 hshared
      · exact ⟨e', he', hrest⟩

end

/-! ## What is stored -/

section

variable [HashOrder] {b x xv : RValue} {p : List (Bytes × RValue)} {text : Bytes}
  {existing : WValue} {name : Bytes}

/-- What is stored for an object of which every field is written. -/
def summed (x xv : RValue) (existing : WValue) : WValue :=
  existing.keys.foldl (fun u e => u.set e (newField x xv existing e)) .null

omit [HashOrder] in
/-- A conversion fails at a number. -/
theorem ofRValue_error_ne {f : Failure} (h : WValue.ofRValue x = .error f) : f ≠ .undefined := by
  rw [ofRValue_error h]
  decide

/-- The keys of a converted value are the names of its fields. -/
theorem mem_keys_iff (h : WValue.ofRValue x = .ok existing) :
    name ∈ existing.keys ↔ name ∈ x.names := by
  rw [WValue.mem_keys, RValue.mem_names, isSome_field?_ofRValue h]

theorem nodup_keys_ofRValue (h : WValue.ofRValue x = .ok existing) : existing.keys.Nodup := by
  have hdistinct := WValue.distinct_ofRValue h
  cases existing with
  | object o => exact ((HashOrder.perm o).map Prod.fst).nodup_iff.mpr hdistinct
  | _ => exact List.nodup_nil

/-- As many fields are added to as are shared. -/
theorem length_filter_keys (h : WValue.ofRValue x = .ok existing) :
    (existing.keys.filter fun e => e ∈ xv.names).length = (sharedNames x xv).card := by
  rw [← List.toFinset_card_of_nodup ((nodup_keys_ofRValue h).filter _)]
  congr 1
  ext e
  rw [List.mem_toFinset, List.mem_filter, mem_keys_iff h, sharedNames, Finset.mem_inter,
    decide_eq_true_iff]

/-- A text that is no JSON raises an exception. -/
theorem incrementedValue_of_load_none (hvalue : b.field (ascii "value") = .ok xv)
    (hload : load text = none) : ∃ f, f ≠ .undefined ∧ incrementedValue b text = .error f := by
  unfold incrementedValue
  rw [hvalue, hload]
  change ∃ f, f ≠ .undefined ∧ (WValue.ofRValue xv).bind _ = .error f
  cases hxv : WValue.ofRValue xv with
  | error f => exact ⟨f, ofRValue_error_ne hxv, rfl⟩
  | ok v => exact ⟨_, Failure.noConfusion, rfl⟩

/-- Where the call stops, it does so before it writes. -/
theorem incrementedValue_of_stops (hvalue : b.field (ascii "value") = .ok (.object p))
    (hp : p ≠ []) (hload : load text = some x) (h : Stops x (.object p)) :
    ∃ f, f ≠ .undefined ∧ incrementedValue b text = .error f := by
  unfold incrementedValue
  rw [hvalue, hload]
  change ∃ f, f ≠ .undefined ∧ (WValue.ofRValue (.object p)).bind (fun v =>
    (WValue.ofRValue x).bind _) = .error f
  cases hxv : WValue.ofRValue (.object p) with
  | error f => exact ⟨f, ofRValue_error_ne hxv, rfl⟩
  | ok v =>
    cases hx : WValue.ofRValue x with
    | error f => exact ⟨f, ofRValue_error_ne hx, rfl⟩
    | ok existing =>
      rcases h with hnot | ⟨name, hname, hcounts⟩
      · exact absurd ⟨by rw [Convertible, hx]; rfl, by rw [Convertible, hxv]; rfl⟩ hnot
      · obtain ⟨hx', hxv'⟩ := Finset.mem_inter.mp hname
        obtain ⟨f, hf, hstops⟩ := @incrementFields_stops x p existing .null existing.keys 0
          (fun e he => (mem_keys_iff hx).mp he) ⟨name, (mem_keys_iff hx).mpr hx', hxv', hcounts⟩
        refine ⟨f, hf, ?_⟩
        simp only [Except.bind, if_neg (WValue.keys_ne_nil_of_ofRValue hxv hp), bind, hstops]

/-- Where it does not stop, every field is written. -/
theorem incrementedValue_of_not_stops (hvalue : b.field (ascii "value") = .ok (.object p))
    (hp : p ≠ []) (hload : load text = some x) (h : ¬Stops x (.object p)) :
    ∃ existing, WValue.ofRValue x = .ok existing ∧ incrementedValue b text =
      .ok (some (summed x (.object p) existing, (sharedNames x (.object p)).card)) := by
  unfold Stops at h
  push Not at h
  obtain ⟨⟨hx, hxv⟩, hcounts⟩ := h
  obtain ⟨existing, hx⟩ := of_isOk hx
  obtain ⟨v, hxv⟩ := of_isOk hxv
  refine ⟨existing, hx, ?_⟩
  have hloop := @incrementFields_eq x p existing .null existing.keys 0 fun e he hshared =>
    hcounts e (Finset.mem_inter.mpr ⟨(mem_keys_iff hx).mp he, hshared⟩)
  rw [length_filter_keys hx, zero_add] at hloop
  unfold incrementedValue
  rw [hvalue, hload]
  change (WValue.ofRValue (.object p)).bind (fun v => (WValue.ofRValue x).bind _) = _
  rw [hxv, hx]
  simp only [Except.bind, if_neg (WValue.keys_ne_nil_of_ofRValue hxv hp), bind, hloop]
  rfl

/-- The fields that are stored. -/
theorem field?_summed (h : WValue.ofRValue x = .ok existing) (name : Bytes) :
    (summed x xv existing).field? name =
      if name ∈ x.names then some (newField x xv existing name) else none := by
  rw [summed, WValue.field?_foldl_set, WValue.field?_null]
  simp only [mem_keys_iff h]

theorem distinct_summed (x xv : RValue) (existing : WValue) : (summed x xv existing).Distinct :=
  WValue.Distinct.foldl_set (w := .null) trivial _ _

/-- The stored value is loaded with these fields. -/
theorem child?_reread_summed (h : WValue.ofRValue x = .ok existing) (name : Bytes) :
    (reread (summed x xv existing)).child? (.field name) =
      if name ∈ x.names then some (reread (newField x xv existing name)) else none := by
  rw [child?_reread (distinct_summed x xv existing), WValue.child?_field, field?_summed h]
  split <;> rfl

/-- The sum is stored exactly if it fits an `int`. -/
theorem holdsInteger_sum_iff (h : WValue.ofRValue x = .ok existing)
    (hname : name ∈ sharedNames x xv)
    {z z' : ℤ} (hz : HoldsInteger x name z) (hz' : HoldsInteger xv name z') :
    HoldsInteger (reread (summed x xv existing)) name (z + z') ↔ IsInt (z + z') := by
  obtain ⟨hx, hxv⟩ := Finset.mem_inter.mp hname
  have hfits : IsInt (int32 (int32 z + z')) := int32_range _
  have hprinted : lexicalCastInt64 (printG10 (Double.ofInt (int32 (int32 z + z')))) =
      some (int32 (int32 z + z')) := by
    unfold IsInt at hfits
    rw [printG10_ofInt (by omega), lexicalCastInt64_toString (by omega)]
  have hfield : (reread (summed x xv existing)).child? (.field name) =
      some (.number (printG10 (Double.ofInt (int32 (int32 z + z'))))) := by
    rw [child?_reread_summed h, if_pos hx, newField, if_pos hxv, hz.intAt_eq, hz'.intAt_eq]
    rfl
  have hsum : int32 (int32 z + z') = z + z' ↔ IsInt (z + z') := by
    constructor
    · intro heq
      rwa [heq] at hfits
    · intro hint
      rw [int32_add, int32_eq_self hint]
  rw [← hsum]
  constructor
  · rintro ⟨token, htoken, hvalue⟩
    rw [hfield] at htoken
    cases htoken
    exact Option.some.inj (hprinted.symm.trans hvalue)
  · intro heq
    exact ⟨_, hfield, by rw [hprinted, heq]⟩

/-- The other fields say what they said exactly if their numbers are printed with their
values. -/
theorem leafAt_summed_iff (h : WValue.ofRValue x = .ok existing) (hname : name ∉ sharedNames x xv)
    (p : List PathStep) :
    (reread (summed x xv existing)).leafAt (.field name :: p) = x.leafAt (.field name :: p) ↔
      ∀ token, x.at? (.field name :: p) = some (.number token) → PrintsBack token := by
  rw [RValue.leafAt_cons, RValue.leafAt_cons, child?_reread_summed h, RValue.at?]
  cases hx : x.child? (.field name) with
  | none =>
    have hnot : name ∉ x.names := by simp [RValue.mem_names, hx]
    rw [if_neg hnot]
    exact iff_of_true rfl fun token htoken => by cases htoken
  | some y =>
    have hmem : name ∈ x.names := by simp [RValue.mem_names, hx]
    have hxv : name ∉ xv.names := fun hxv => hname (Finset.mem_inter.mpr ⟨hmem, hxv⟩)
    obtain ⟨v, hv, hchild⟩ := WValue.child?_ofRValue h hx
    rw [WValue.child?_field] at hchild
    have hfield : newField x xv existing name = v := by
      rw [newField, if_neg hxv, WValue.take_eq, hchild]
      rfl
    rw [if_pos hmem, hfield]
    exact leafAt_reread hv p

/-- What is stored is an object exactly if the object had a field. -/
theorem object_summed_iff (h : WValue.ofRValue x = .ok existing) :
    (∃ o, reread (summed x xv existing) = .object o) ↔ x.names.Nonempty := by
  constructor
  · rintro ⟨o, ho⟩
    by_contra hempty
    have hkeys : existing.keys = [] := by
      rw [List.eq_nil_iff_forall_not_mem]
      intro name hname
      exact hempty ⟨name, (mem_keys_iff h).mp hname⟩
    rw [summed, hkeys] at ho
    cases ho
  · rintro ⟨name, hname⟩
    have hchild := @child?_reread_summed _ x xv existing h name
    rw [if_pos hname] at hchild
    cases hread : reread (summed x xv existing) with
    | object o => exact ⟨o, rfl⟩
    | _ =>
      rw [hread] at hchild
      cases hchild

/-- The object that is stored has the sums and the other fields. -/
theorem holdsSums_iff (h : WValue.ofRValue x = .ok existing) (hxv : Convertible xv) :
    HoldsSums x xv (reread (summed x xv existing)) ↔ AddsSafely x xv := by
  constructor
  · intro hsums
    refine ⟨⟨by rw [Convertible, h]; rfl, hxv⟩, (object_summed_iff h).mp hsums.object, ?_, ?_⟩
    · intro name hname z z' hz hz'
      exact (holdsInteger_sum_iff h hname hz hz').mp (hsums.sums name hname z z' hz hz')
    · intro name hname p
      exact (leafAt_summed_iff h hname p).mp (hsums.others name hname p)
  · intro hsafe
    refine ⟨(object_summed_iff h).mpr hsafe.nonempty, ?_, ?_⟩
    · intro name hname z z' hz hz'
      exact (holdsInteger_sum_iff h hname hz hz').mpr (hsafe.fits name hname z z' hz hz')
    · intro name hname p
      exact (leafAt_summed_iff h hname p).mpr (hsafe.printsBack name hname p)

end

/-! ## The whole call -/

section

variable [HashOrder] {c : Config} {w : World} {body key text : Bytes} {b x : RValue}
  {p : List (Bytes × RValue)}

/-- An exception ends the call before anything is written. -/
theorem incrementValue_refuses {f : Failure} (hdb : c.dbOk = true) (hbody : load body = some b)
    (hkey : pairKey b = .ok key) (htext : w.node.db.find? key = some text)
    (h : incrementedValue b text = .error f) :
    answer noFaults w (incrementValue c body) = .error f ∧
      valueIncremented c w body = w.node := by
  have hread : Yields noFaults w.node (dbGet key) (.ok (some text)) := htext ▸ Yields.dbGet
  have hyields : Yields noFaults w.node (incrementValue c body) (.error f) := by
    unfold incrementValue getKeyValuePair
    rw [hbody]
    simp only [hkey, hdb, if_true]
    refine Yields.bind_ok (Yields.ofExcept (.ok key)) ?_
    refine Yields.bind_ok (Yields.bind_ok hread (Yields.pure _)) ?_
    exact Yields.bind_error (h ▸ Yields.ofExcept (incrementedValue b text))
  exact hyields w rfl

/-- Otherwise the object is written, and the answer tells how many fields were added to. -/
theorem incrementValue_stores {u : WValue} {n : ℤ} (hdb : c.dbOk = true)
    (hbody : load body = some b) (hkey : pairKey b = .ok key)
    (htext : w.node.db.find? key = some text) (h : incrementedValue b text = .ok (some (u, n))) :
    answer noFaults w (incrementValue c body) = .ok (true, affectedAnswer n) ∧
      valueIncremented c w body = w.node.stored c key (dump u) := by
  have hread : Yields noFaults w.node (getKeyValuePair c key)
      (.ok (some text, ascii "\x7b\"result\":true\x7d")) := by
    unfold getKeyValuePair
    rw [if_pos hdb]
    exact Yields.bind_ok (htext ▸ Yields.dbGet) (Yields.pure _)
  have hwrite := @dumpPair_exact _ (fun _ : Node => False) c w.node key (dump u) hdb
  refine DataTriple.outcome ?_
  unfold incrementValue
  rw [hbody]
  simp only [hkey]
  change DataTriple noFaults _ (getKeyValuePair c key >>= _) _ _
  refine DataTriple.bind hread.triple fun found => ?_
  by_cases hfound : found = (some text, ascii "\x7b\"result\":true\x7d")
  · subst hfound
    refine DataTriple.pre ?_ fun _ hm => hm.2
    change DataTriple noFaults _ (ofExcept (incrementedValue b text) >>= _) _ _
    rw [h]
    change DataTriple noFaults _ (dumpPair c key (dump u) >>= _) _ _
    refine DataTriple.bind hwrite fun r => ?_
    by_cases hr : r = (true, ascii "\x7b\"result\":true\x7d")
    · subst hr
      exact DataTriple.pure fun _ hm => ⟨rfl, hm.2⟩
    · exact fun w' hw' => absurd hw'.1 hr
  · exact fun w' hw' => absurd hw'.1 hfound

end

/-- The body that adds to the field `n`. -/
def addBody (token : Bytes) : Bytes :=
  ascii "\x7b\"key\":\"k\",\"value\":\x7b\"n\":" ++ token ++ ascii "\x7d\x7d"

/-- The store holds an object with a number and a string. -/
def holdsObject (token : Bytes) : World :=
  openDB uncachedOnly (OrderedMap.empty.insert (ascii "k")
    (ascii "\x7b\"n\":" ++ token ++ ascii ",\"s\":\"x\"\x7d"))

/-- The object that is stored. -/
def storedObject (token : Bytes) : RValue :=
  .object [(ascii "n", .number token), (ascii "s", .string (ascii "x"))]

/-- The object that is added to it. -/
def addedObject (token : Bytes) : RValue := .object [(ascii "n", .number token)]

theorem mem_shared_iff {token token' name : Bytes} :
    name ∈ sharedNames (storedObject token) (addedObject token') ↔ name = ascii "n" := by
  simp only [sharedNames, storedObject, addedObject, RValue.names, List.map_cons, List.map_nil,
    List.toFinset_cons, List.toFinset_nil, Finset.mem_inter, Finset.mem_insert,
    Finset.notMem_empty, or_false, and_iff_right_iff_imp]
  exact fun h => Or.inl h

theorem holdsInteger_iff {token : Bytes} {o : List (Bytes × RValue)} {z : ℤ} :
    HoldsInteger (.object ((ascii "n", .number token) :: o)) (ascii "n") z ↔
      lexicalCastInt64 token = some z := by
  constructor
  · rintro ⟨token', htoken, hz⟩
    rw [RValue.child?, lookup_cons_eq, if_pos rfl] at htoken
    cases htoken
    exact hz
  · exact fun hz => ⟨token, by rw [RValue.child?, lookup_cons_eq, if_pos rfl], hz⟩

/-- Two such objects can be added. -/
theorem addable_of_sum {token token' : Bytes} {z z' : ℤ} (hz : lexicalCastInt64 token = some z)
    (hz' : lexicalCastInt64 token' = some z') (hsum : IsInt64 (z + z')) :
    Addable (storedObject token) (addedObject token') := by
  refine ⟨⟨_, rfl⟩, fun name hname => ?_⟩
  rw [mem_shared_iff.mp hname]
  exact ⟨z, z', holdsInteger_iff.mpr hz, holdsInteger_iff.mpr hz', hsum⟩

end Quarks
