import Quarks.ConcurrentIncrements
import Quarks.StoredIntegers
import Quarks.WindowBounds

/-!
# Exact increments

An increment reads with `std::stoi` what a put has printed with ten significant digits, and
adds in `int`. A number beyond the range of `int` is refused as long as its digits are
printed; from ten billion on the text is `1.7e+12`, whose first digit is read as the number.
-/

namespace Quarks

open Basis

/-! ## Reading a printed number as an `int` -/

/-- `std::stoi` reads a sign and digits, up to a character that is not one. -/
theorem stoi_text {negative : Bool} {digits rest : Bytes} {z : ℤ} (hne : digits ≠ [])
    (hdigits : ∀ c ∈ digits, isDigit c = true) (hrest : ∀ c ∈ rest.head?, isDigit c = false)
    (hz : z = if negative then -(natOfDigits digits : ℤ) else natOfDigits digits) :
    stoi ((if negative then [45] else []) ++ (digits ++ rest)) =
      if -2 ^ 31 ≤ z ∧ z < 2 ^ 31 then .ok z else .error .outOfRange := by
  obtain ⟨c, s, rfl⟩ := List.exists_cons_of_ne_nil hne
  obtain ⟨hspace, hminus, hplus⟩ := isDigit_start (hdigits c List.mem_cons_self)
  have hspan : (c :: (s ++ rest)).takeWhile isDigit = c :: s := by
    have h := congrArg Prod.fst (spanDigits_append hdigits hrest)
    rwa [spanDigits, List.span_eq_takeWhile_dropWhile] at h
  unfold stoi
  cases negative with
  | true =>
    rw [if_pos rfl] at hz
    simp only [if_true, List.cons_append, List.nil_append, List.dropWhile_cons,
      show isSpace 45 = false from rfl, Bool.false_eq_true, if_false, hspan, ← hz]
    rw [if_neg (List.cons_ne_nil c s)]
  | false =>
    rw [if_neg Bool.false_ne_true] at hz
    simp [hspace, hminus, hplus, hspan, ← hz]

section

variable {d : Double} {z : ℤ}

/-- A whole double but zero has its sign, and digits of its own. -/
theorem of_value_ne_zero (hd : d.value = z) (hz : z ≠ 0) :
    d.mantissa ≠ 0 ∧ (d.negative = true ↔ z < 0) := by
  have hmag := Double.natAbs_eq_magnitude hd
  have hpos : (0 : ℚ) < d.magnitude := by
    rw [← hmag]
    exact_mod_cast Int.natAbs_pos.mpr hz
  refine ⟨fun h => ?_, ?_⟩
  · rw [Double.magnitude, h, Nat.cast_zero, zero_mul] at hpos
    exact lt_irrefl _ hpos
  · rw [Double.value] at hd
    cases hsign : d.negative with
    | true =>
      refine iff_of_true rfl ?_
      rw [hsign, sign, if_pos rfl, neg_one_mul] at hd
      have hlt : (z : ℚ) < 0 := by
        rw [← hd]
        exact neg_neg_of_pos hpos
      exact_mod_cast hlt
    | false =>
      refine iff_of_false Bool.false_ne_true ?_
      rw [hsign, sign, if_neg Bool.false_ne_true, one_mul] at hd
      have hlt : (0 : ℚ) < z := by rwa [← hd]
      exact not_lt.mpr (by exact_mod_cast hlt.le)

/-- What is printed of a double whose magnitude is a whole number. -/
theorem printG10_eq_layout {n : ℕ} (hmag : (n : ℚ) = d.magnitude) (hn : 0 < n) : ∃ q : ℕ,
    (10 ^ 9 ≤ q ∧ q ≤ 10 ^ 10) ∧
    printG10 d = (if d.negative then [45] else []) ++
      (if q = 10 ^ 10 then layout (10 ^ 9) (decimalExponent n 1 + 1)
        else layout q (decimalExponent n 1)) ∧
    ((decimal n).length ≤ 10 → q = n * 10 ^ (10 - (decimal n).length)) := by
  have hp := powerFraction_pos (show 0 < 2 by decide) d.exponent
  have hne : d.mantissa ≠ 0 := by
    intro h
    rw [Double.magnitude, h, Nat.cast_zero, zero_mul] at hmag
    exact hn.ne' (by exact_mod_cast hmag)
  have hnum : 0 < d.mantissa * (powerFraction 2 d.exponent).1 :=
    Nat.mul_pos (Nat.pos_of_ne_zero hne) hp.1
  have hexp : decimalExponent (d.mantissa * (powerFraction 2 d.exponent).1)
      (powerFraction 2 d.exponent).2 = decimalExponent n 1 := by
    rw [decimalExponent_eq_log hnum hp.2, decimalExponent_eq_log hn (by decide),
      ← d.magnitude_eq, ← hmag, Nat.cast_one, div_one]
  have hbounds := scaled_decimalExponent_bounds hnum hp.2
  refine ⟨_, hbounds, ?_, fun hlen => ?_⟩
  · simp only [printG10, if_neg hne, hexp]
  · have hpos : 0 < (decimal n).length := List.length_pos_of_ne_nil (decimal_ne_nil n)
    obtain ⟨k, hk⟩ : ∃ k, (decimal n).length = k + 1 := ⟨(decimal n).length - 1, by omega⟩
    have hscaled := scaled_whole (n := n) (show k ≤ 9 by omega)
    rw [hexp, decimalExponent_whole hn, hk, show 10 - (k + 1) = 9 - k by omega, ← hscaled,
      show (((k + 1 : ℕ) : ℤ) - 1 - 9) = k - 9 by omega]
    refine scaled_eq (by decide) hp.2 ?_
    rw [← d.magnitude_eq, ← hmag, hscaled, Nat.cast_ofNat,
      show (k : ℤ) - 9 = -((9 - k : ℕ) : ℤ) by omega]
    push_cast
    rw [zpow_neg, zpow_natCast, div_inv_eq_mul]

/-- A whole number below ten billion is printed as its digits. -/
theorem stoi_printG10 (hd : d.value = z) (hz : z.natAbs < 10 ^ 10) :
    stoi (printG10 d) = if -2 ^ 31 ≤ z ∧ z < 2 ^ 31 then .ok z else .error .outOfRange := by
  have hmag := Double.natAbs_eq_magnitude hd
  by_cases hzero : z = 0
  · have hmantissa : d.mantissa = 0 := by
      rw [hzero, Double.magnitude, Int.natAbs_zero, Nat.cast_zero] at hmag
      rcases mul_eq_zero.mp hmag.symm with h | h
      · exact_mod_cast h
      · exact absurd h (zpow_ne_zero _ (by norm_num))
    simp only [printG10, if_pos hmantissa]
    refine @stoi_text _ [48] [] _ (List.cons_ne_nil _ _)
      (List.forall_mem_singleton.mpr rfl) (by simp) ?_
    rw [hzero]
    cases d.negative <;> rfl
  obtain ⟨-, hsign⟩ := of_value_ne_zero hd hzero
  have hpos : 0 < z.natAbs := Int.natAbs_pos.mpr hzero
  have hlength : 0 < (decimal z.natAbs).length := List.length_pos_of_ne_nil (decimal_ne_nil _)
  have hlower := pow_length_decimal_le hpos
  have hupper := lt_pow_length_decimal z.natAbs
  obtain ⟨k, hk⟩ : ∃ k, (decimal z.natAbs).length = k + 1 :=
    ⟨(decimal z.natAbs).length - 1, by omega⟩
  rw [hk] at hlower hupper
  have hk9 : k ≤ 9 := by
    by_contra hgt
    have hpow : 10 ^ 11 ≤ 10 ^ (k + 1) := Nat.pow_le_pow_right (by decide) (by omega)
    omega
  obtain ⟨q, -, hprint, hexact⟩ := printG10_eq_layout hmag hpos
  have hq : q = z.natAbs * 10 ^ (9 - k) := by
    rw [hexact (by omega), hk, show 10 - (k + 1) = 9 - k by omega]
  have hlt : z.natAbs * 10 ^ (9 - k) < 10 ^ 10 := by
    calc z.natAbs * 10 ^ (9 - k) < 10 ^ (k + 1) * 10 ^ (9 - k) :=
          Nat.mul_lt_mul_of_pos_right hupper (Nat.pow_pos (by decide))
      _ = 10 ^ 10 := by
        rw [← pow_add]
        congr 1
        omega
  have hexp : decimalExponent z.natAbs 1 = k := by
    rw [decimalExponent_whole hpos, hk]
    omega
  rw [hprint, hq, if_neg hlt.ne, hexp, layout_whole hpos hk hk9,
    ← List.append_nil (decimal z.natAbs)]
  refine stoi_text (decimal_ne_nil _) (fun c => isDigit_of_mem_decimal) (by simp) ?_
  rw [natOfDigits_decimal]
  split
  · next hneg =>
    have := hsign.mp hneg
    omega
  · next hneg =>
    have := mt hsign.mpr hneg
    omega

/-- The exponent is written, behind a first digit. -/
theorem exists_layout (q : ℕ) {x : ℤ} (hx : 10 ≤ x) :
    ∃ (c : UInt8) (rest : Bytes), layout q x = [c] ++ rest ∧ isDigit c = true ∧
      ∀ c' ∈ rest.head?, isDigit c' = false := by
  obtain ⟨c, s, hdecimal⟩ := List.exists_cons_of_ne_nil (decimal_ne_nil q)
  refine ⟨c, fraction (stripZeros s) ++ printExponent x, ?_, ?_, ?_⟩
  · simp only [layout, hdecimal]
    rw [if_pos (Or.inr hx), List.append_assoc]
    rfl
  · exact isDigit_of_mem_decimal (n := q) (by simp [hdecimal])
  · intro c' hc'
    unfold fraction at hc'
    split at hc'
    · cases hc'
      rfl
    · cases hc'
      rfl

/-- From ten billion on only the first digit is read. -/
theorem stoi_printG10_of_le (hd : d.value = z) (hz : 10 ^ 10 ≤ z.natAbs) :
    ∃ v, stoi (printG10 d) = .ok v := by
  have hlength : 10 < (decimal z.natAbs).length := by
    have hupper := lt_pow_length_decimal z.natAbs
    by_contra hle
    have hpow : 10 ^ (decimal z.natAbs).length ≤ 10 ^ 10 :=
      Nat.pow_le_pow_right (by decide) (by omega)
    omega
  have hexp : 10 ≤ decimalExponent z.natAbs 1 := by
    rw [decimalExponent_whole (by omega)]
    omega
  obtain ⟨q, -, hprint, -⟩ := printG10_eq_layout (Double.natAbs_eq_magnitude hd) (by omega)
  obtain ⟨c, rest, hlayout, hc, hrest⟩ : ∃ (c : UInt8) (rest : Bytes),
      (if q = 10 ^ 10 then layout (10 ^ 9) (decimalExponent z.natAbs 1 + 1)
        else layout q (decimalExponent z.natAbs 1)) = [c] ++ rest ∧ isDigit c = true ∧
      ∀ c' ∈ rest.head?, isDigit c' = false := by
    split
    · exact exists_layout _ (by omega)
    · exact exists_layout q hexp
  rw [hprint, hlayout, stoi_text (List.cons_ne_nil _ _) (List.forall_mem_singleton.mpr hc) hrest
    rfl, if_pos]
  · exact ⟨_, rfl⟩
  · have hsmall : natOfDigits [c] < 256 := by
      change 10 * 0 + (c.toNat - 48) < 256
      have := c.toNat_lt
      omega
    split <;> omega

end

/-! ## What an increment does -/

/-- The outcome of a program that is known to return one result and to leave these data. -/
theorem DataTriple.outcome {α : Type} {faults : Faults} {p : CoreM α} {a : α} {w : World}
    {n : Node} (h : DataTriple faults (fun m => m = w.node) p (fun b m => b = a ∧ m = n)
      fun _ => False) :
    answer faults w p = .ok a ∧ (p.run (handle faults) w).2.node = n := by
  have hw := h w rfl
  unfold answer
  rcases hrun : Prog.run (handle faults) p w with ⟨e | b, w'⟩
  · rw [hrun] at hw
    exact hw.elim
  · rw [hrun] at hw
    exact ⟨congrArg Except.ok hw.1, hw.2⟩

section

variable [HashOrder]

/-- The text under the key is what a put of a token of this value has printed. -/
def PutStored (store : Store) (key : Bytes) (z : ℤ) : Prop :=
  ∃ token d, tokenValue token = some (z : ℚ) ∧ lexicalCastDouble token = some d ∧
    store.find? key = some (dump (.number d))

variable (c : Config) (w : World) (key : Bytes) (z stepBy : ℤ)

/-- The data after an increment. -/
def incremented : Node := ((increment c key stepBy).run (handle noFaults) w).2.node

/-- An increment stores the sum if the number and the sum fit, and else refuses: it answers
false and changes nothing stored. In no case does the addition overflow. -/
structure AddsExactly : Prop where
  noOverflow : ∀ val v, (source c w.node).find? key = some val → stoi val = .ok v →
    IsInt (v + stepBy)
  adds : IsInt z → IsInt (z + stepBy) →
    answer noFaults w (increment c key stepBy) =
      .ok (true, ascii "\x7b\"result\":true\x7d") ∧
    (incremented c w key stepBy).db = w.node.db.insert key (toString (z + stepBy))
  refuses : ¬(IsInt z ∧ IsInt (z + stepBy)) →
    (∃ ok text, answer noFaults w (increment c key stepBy) =
      .ok (ok, ascii "\x7b\"result\":false" ++ text)) ∧
    (incremented c w key stepBy).db = w.node.db ∧
    (incremented c w key stepBy).cache = w.node.cache

end

section

variable [HashOrder] {c : Config} {w : World} {key val : Bytes} {z stepBy v : ℤ}

/-- A put of a whole number stores what `PutStored` says. -/
theorem putStored_put {body token : Bytes} {x : RValue} {found : Option WValue} {d : Double}
    (hdb : c.dbOk = true) (hbody : load body = some x) (hkey : pairKey x = .ok key)
    (hvalue : x.field (ascii "value") = .ok (.number token))
    (hfound : (w.node.db.find? key).map loadValue = found.map Except.ok)
    (htoken : tokenValue token = some (z : ℚ)) (hd : lexicalCastDouble token = some d) :
    PutStored (source c (step c noFaults w (.put body)).node) key z := by
  have hpair : pairValue x = .ok (.number d) := by
    rw [pairValue, hvalue]
    change WValue.ofRValue (.number token) = _
    rw [WValue.ofRValue, hd]
  have hnode := step_of_triple c (DataTriple.discard (put_stores hdb hbody hkey hpair hfound))
    (w := w) (r := .put body) rfl
  have hmerged : mergedValue found (.number d) = .number d := by
    cases found with
    | none => rfl
    | some existing =>
      rw [mergedValue]
      exact if_pos (show (WValue.number d).keys = [] from rfl)
  rw [hmerged] at hnode
  refine ⟨token, d, htoken, hd, ?_⟩
  rw [hnode, source]
  split
  · next hcached =>
    simp only [Node.stored, Node.putRequested, hcached, if_true]
    exact OrderedMap.find?_insert_self _ _ _
  · exact OrderedMap.find?_insert_self _ _ _

/-- A number that can be read is added to, modulo the range of `int`. -/
theorem increment_stores (hdb : c.dbOk = true) (hval : (source c w.node).find? key = some val)
    (hv : stoi val = .ok v) :
    answer noFaults w (increment c key stepBy) =
      .ok (true, ascii "\x7b\"result\":true\x7d") ∧
    (incremented c w key stepBy).db = w.node.db.insert key (toString (int32 (v + stepBy))) := by
  have h := DataTriple.outcome
    (increment_found hdb hval (@addTo_exact _ c key val v stepBy _ _ hdb hv))
  exact ⟨h.1, congrArg Node.db h.2⟩

/-- A number out of range is refused. -/
theorem increment_refuses (hdb : c.dbOk = true) (hval : (source c w.node).find? key = some val)
    (hv : stoi val = .error .outOfRange) :
    answer noFaults w (increment c key stepBy) =
      .ok (true, ascii "\x7b\"result\":false, \"error\":\"Out of range\"\x7d") ∧
    incremented c w key stepBy = w.node := by
  refine DataTriple.outcome (increment_found hdb hval ?_)
  unfold addTo
  rw [hv]
  exact DataTriple.pure fun _ hm => ⟨rfl, hm⟩

/-- An increment adds exactly or refuses, exactly if the sum fits whenever the number does, and
a number that does not fit has no more than ten digits. -/
theorem addsExactly_iff (hdb : c.dbOk = true) (hstored : PutStored (source c w.node) key z)
    (hz : z.natAbs < 2 ^ 53) : AddsExactly c w key z stepBy ↔
      (IsInt z → IsInt (z + stepBy)) ∧ (¬IsInt z → z.natAbs < 10 ^ 10) := by
  obtain ⟨token, d, htoken, hd, hval⟩ := hstored
  have hvalue : d.value = z := by
    obtain ⟨d', hd', hvalue⟩ := lexicalCastDouble_exact htoken hz
    rw [hd] at hd'
    cases hd'
    exact hvalue
  rw [dump] at hval
  by_cases hint : IsInt z
  · have hread : stoi (printG10 d) = .ok z := by
      unfold IsInt at hint
      rw [stoi_printG10 hvalue (by omega), if_pos hint]
    refine ⟨fun h => ⟨fun _ => h.noOverflow _ z hval hread, fun h => absurd hint h⟩, ?_⟩
    rintro ⟨hsum, -⟩
    refine ⟨fun val v hval' hv => ?_, fun _ _ => ?_, fun h => absurd ⟨hint, hsum hint⟩ h⟩
    · rw [hval] at hval'
      cases hval'
      rw [hread] at hv
      cases hv
      exact hsum hint
    · obtain ⟨hans, hnode⟩ := @increment_stores _ c w key _ stepBy _ hdb hval hread
      have hsum' := hsum hint
      unfold IsInt at hsum'
      rw [int32_eq_self hsum'] at hnode
      exact ⟨hans, hnode⟩
  · by_cases hten : z.natAbs < 10 ^ 10
    · refine iff_of_true ?_ ⟨fun h => absurd h hint, fun _ => hten⟩
      have hread : stoi (printG10 d) = .error .outOfRange := by
        rw [stoi_printG10 hvalue hten]
        exact if_neg hint
      obtain ⟨hans, hnode⟩ := @increment_refuses _ c w key _ stepBy hdb hval hread
      refine ⟨fun val v hval' hv => ?_, fun h => absurd h hint, fun _ => ⟨⟨_, _, hans⟩, ?_, ?_⟩⟩
      · rw [hval] at hval'
        cases hval'
        rw [hread] at hv
        cases hv
      · rw [hnode]
      · rw [hnode]
    · refine iff_of_false (fun h => ?_) fun h => hten (h.2 hint)
      obtain ⟨v, hv⟩ := stoi_printG10_of_le hvalue (by omega)
      obtain ⟨⟨ok, text, hans⟩, -⟩ := h.refuses fun h => hint h.1
      rw [(increment_stores hdb hval hv).1] at hans
      cases hans

end

/-! ## A small number and a time in milliseconds -/

/-- A store with a time in milliseconds, as a put has printed it. -/
def holdsTime : World :=
  openDB uncachedOnly (OrderedMap.empty.insert (ascii "k") (ascii "1.7e+12"))

/-- The theorem at a store that holds 1. -/
theorem addsExactly_one :
    @AddsExactly .insertion uncachedOnly (openDB uncachedOnly
      (OrderedMap.empty.insert (ascii "k") (ascii "1"))) (ascii "k") 1 41 := by
  refine (@addsExactly_iff .insertion _ _ _ _ _ rfl
    ⟨ascii "1", ⟨false, 2 ^ 52, -52⟩, ?_, by decide +kernel, by decide +kernel⟩ (by decide)).mpr
    ⟨fun _ => by unfold IsInt; omega, fun _ => by decide⟩
  rw [tokenValue_of_parts (n := 1) (e := 0) (by decide +kernel)]
  norm_num

/-- The time is stored by a put. -/
theorem putStored_time : @PutStored .insertion (source uncachedOnly holdsTime.node) (ascii "k")
    1700000000123 := by
  refine ⟨ascii "1700000000123", ⟨false, 6963200000503808, -12⟩, ?_, by decide +kernel,
    by decide +kernel⟩
  rw [tokenValue_of_parts (n := 1700000000123) (e := 0) (by decide +kernel)]
  norm_num

/-- The time does not fit, but its first digit is read and added to. -/
theorem not_addsExactly_time : @PutStored .insertion (source uncachedOnly holdsTime.node)
      (ascii "k") 1700000000123 ∧
    ¬@AddsExactly .insertion uncachedOnly holdsTime (ascii "k") 1700000000123 1 := by
  refine ⟨putStored_time, fun h => ?_⟩
  obtain ⟨⟨ok, text, hans⟩, -⟩ := @AddsExactly.refuses .insertion _ _ _ _ _ h fun hfit => by
    have := hfit.1.2
    omega
  have hread : stoi (ascii "1.7e+12") = .ok 1 := by decide +kernel
  rw [(@increment_stores .insertion uncachedOnly holdsTime (ascii "k") (ascii "1.7e+12") 1 1 rfl
    (by decide +kernel) hread).1] at hans
  cases hans

end Quarks
