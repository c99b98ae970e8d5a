import Quarks.Machine
import Quarks.Wildcmp
import Quarks.Basis.PrefixRange
import Quarks.Basis.Selection

/-!
# Scans

Every listing of Quarks is the same loop over an iterator. It counts the entries
that are accepted, from `-1`, and takes those whose number lies above a lower and
below an upper bound computed from `skip` and `limit`. The counter and the bounds
are 32-bit integers. A forward listing starts at the first key that is not smaller
than the text before the first star and ends with the first key that does not
start with it.
-/

namespace Quarks

open Basis

/-- A key with its value. -/
abbrev Entry := Bytes × Bytes

/-- The value of a 32-bit `int` after an operation whose exact result is given. -/
def int32 (z : ℤ) : ℤ := z.bmod (2 ^ 32)

/-- The arguments `skip` and `limit` of a listing. -/
structure Window where
  skip : ℤ
  limit : ℤ

namespace Window

/-- `lowerbound`. -/
def lower (win : Window) : ℤ := int32 (win.skip - 1)

/-- `upperbound`; without a limit `count` is `INT_MAX`. -/
def upper (win : Window) : ℤ :=
  int32 (win.skip + if win.limit = -1 then 2 ^ 31 - 1 else win.limit)

/-- `i > lowerbound && (i < upperbound || limit == -1)`. -/
def takes (win : Window) (i : ℤ) : Bool :=
  win.lower < i && (i < win.upper || win.limit = -1)

/-- `(i == upperbound) && (limit != -1)`. -/
def stops (win : Window) (i : ℤ) : Bool := i = win.upper && win.limit ≠ -1

end Window

/-- The loop of a listing over the entries that its iterator meets, with the counter
`i` as it was before: the entries taken. -/
def scanFrom {α : Type} (accept : α → Bool) (win : Window) : ℤ → List α → List α
  | _, [] => []
  | i, e :: es =>
    if accept e then
      let i := int32 (i + 1)
      let rest := if win.stops i then [] else scanFrom accept win i es
      if win.takes i then e :: rest else rest
    else scanFrom accept win i es

/-- The entries that a listing takes. -/
def scan {α : Type} (accept : α → Bool) (win : Window) (es : List α) : List α :=
  scanFrom accept win (-1) es

/-- `wild.find("*")` is `0`: the pattern starts with a star. -/
def startsWithStar (wild : Bytes) : Bool := wild.head? = some 42

/-- `it->key().starts_with(prefix)`. -/
def startsWith (pre : Bytes) (e : Entry) : Bool := pre.isPrefixOf e.1

/-- `wildcmp(wild.c_str(), it->key().ToString().c_str())`. -/
def accepts (wild : Bytes) (e : Entry) : Bool := wildcmp wild e.1

/-- The entries that a forward listing meets:
`for (it->Seek(prefix); it->Valid() && it->key().starts_with(prefix); it->Next())`. -/
def forwardRange (store : Store) (pre : Bytes) : List Entry :=
  (store.seek pre).forward.takeWhile (startsWith pre)

/-- The entries that a forward listing takes. -/
def listed (store : Store) (wild : Bytes) (win : Window) : List Entry :=
  scan (accepts wild) win (forwardRange store (starPrefix wild))

/-- Increment the last byte, as `++firstAfterPrefix[firstAfterPrefix.length() - 1]`
does. There is no last byte in an empty string. -/
def firstAfterPrefix (pre : Bytes) : Option Bytes :=
  pre.getLast?.map fun last => pre.dropLast ++ [last + 1]

/-- The entries that a reverse listing meets: `it->Seek(prefixRev); it->Prev();` and then
`for (; it->Valid() && it->key().starts_with(prefix); it->Prev())`. -/
def backwardRange (store : Store) (pre prefixRev : Bytes) : List Entry :=
  (store.seek prefixRev).prev.backward.takeWhile (startsWith pre)

/-! ## What a window takes -/

theorem int32_eq_self {z : ℤ} (h : -2 ^ 31 ≤ z ∧ z < 2 ^ 31) : int32 z = z := by
  unfold int32
  rw [Int.bmod_def]
  omega

/-- The result is an `int`. -/
theorem int32_range (z : ℤ) : -2 ^ 31 ≤ int32 z ∧ int32 z < 2 ^ 31 := by
  unfold int32
  rw [Int.bmod_def]
  omega

/-- Reducing before an addition makes no difference. -/
theorem int32_add (a b : ℤ) : int32 (int32 a + b) = int32 (a + b) := Int.bmod_add_bmod

theorem int32_le {p : ℕ} : int32 p ≤ p := by
  unfold int32
  rw [Int.bmod_def]
  omega

theorem int32_eq_iff {n : ℕ} : int32 n = n ↔ n < 2 ^ 31 := by
  unfold int32
  rw [Int.bmod_def]
  omega

namespace Window

/-- Arguments of a listing as its callers give them: 32-bit integers, `skip` not
negative, and `limit` not below `-1`. -/
structure Valid (win : Window) : Prop where
  skip_nonneg : 0 ≤ win.skip
  skip_lt : win.skip < 2 ^ 31
  limit_ge : -1 ≤ win.limit
  limit_lt : win.limit < 2 ^ 31

/-- The accepted entry at a position is taken. -/
def holds (win : Window) (p : ℕ) : Bool :=
  if win.limit = -1 then win.skip ≤ int32 p
  else win.skip ≤ p && p < win.skip + win.limit && win.skip + win.limit < 2 ^ 31

/-- The position lies in the window. -/
def spans (win : Window) (p : ℕ) : Bool :=
  win.skip ≤ p && (win.limit = -1 || p < win.skip + win.limit)

/-- The elements from position `skip` on, at most `limit` of them or, without a
limit, all. -/
def slice {α : Type} (win : Window) (l : List α) : List α :=
  if win.limit = -1 then l.drop win.skip.toNat
  else (l.drop win.skip.toNat).take win.limit.toNat

/-- The counter and the bounds of the loop do not overflow within so many entries. -/
def Fits (win : Window) (n : ℕ) : Prop :=
  if win.limit = -1 then n ≤ 2 ^ 31 else win.skip + win.limit < 2 ^ 31

instance (win : Window) (n : ℕ) : Decidable (win.Fits n) :=
  inferInstanceAs (Decidable (if win.limit = -1 then n ≤ 2 ^ 31 else _))

/-- The ends of the window are 32-bit integers, whatever the signs of `skip` and `limit`. -/
structure Unwrapped (win : Window) : Prop where
  lower_ge : -2 ^ 31 ≤ win.skip - 1
  lower_lt : win.skip - 1 < 2 ^ 31
  upper_ge : win.limit ≠ -1 → -2 ^ 31 ≤ win.skip + win.limit
  upper_lt : win.limit ≠ -1 → win.skip + win.limit < 2 ^ 31

theorem holds_spans {win : Window} {p : ℕ} (h : win.holds p = true) : win.spans p = true := by
  unfold holds at h
  split at h
  · next hlimit =>
    have hp := int32_le (p := p)
    simp only [decide_eq_true_eq] at h
    simp [spans, hlimit]
    omega
  · next hlimit =>
    simp only [Bool.and_eq_true, decide_eq_true_eq] at h
    simp [spans, h]

variable {win : Window}

theorem Unwrapped.lower_eq (h : win.Unwrapped) : win.lower = win.skip - 1 :=
  int32_eq_self ⟨h.lower_ge, h.lower_lt⟩

theorem Unwrapped.upper_eq (h : win.Unwrapped) (hlimit : win.limit ≠ -1) :
    win.upper = win.skip + win.limit := by
  rw [upper, if_neg hlimit, int32_eq_self ⟨h.upper_ge hlimit, h.upper_lt hlimit⟩]

/-- The window takes the entry at a position that it spans. -/
theorem Unwrapped.takes_eq (h : win.Unwrapped) (k : ℕ) : win.takes k = win.spans k := by
  rw [Bool.eq_iff_iff]
  simp only [takes, spans, Bool.and_eq_true, Bool.or_eq_true, decide_eq_true_eq, h.lower_eq]
  by_cases hlimit : win.limit = -1
  · simp only [hlimit, or_true, true_or, and_true]
    omega
  · rw [h.upper_eq hlimit]
    omega

theorem Valid.lower_eq (h : win.Valid) : win.lower = win.skip - 1 :=
  int32_eq_self ⟨by have := h.skip_nonneg; omega, by have := h.skip_lt; omega⟩

/-- Where the window does not fit, the upper bound has become negative. -/
theorem Valid.upper_eq (h : win.Valid) (hlimit : win.limit ≠ -1) :
    win.upper = if win.skip + win.limit < 2 ^ 31 then win.skip + win.limit
      else win.skip + win.limit - 2 ^ 32 := by
  obtain ⟨h₁, h₂, h₃, h₄⟩ := h
  simp only [upper, if_neg hlimit, int32, Int.bmod_def]
  split <;> omega

/-- The window as a selection of positions. -/
theorem slice_eq_selectAt (h : win.Valid) {α : Type} (l : List α) :
    win.slice l = selectAt win.spans 0 l := by
  have hskip := h.skip_nonneg
  have hlimit := h.limit_ge
  unfold slice
  split
  · next hnone =>
    rw [← Nat.sub_zero win.skip.toNat, ← selectAt_drop]
    refine selectAt_congr fun p _ _ => ?_
    simp [spans, hnone]
  · next hsome =>
    have hwindow := selectAt_window win.skip.toNat win.limit.toNat (k := 0) l
    rw [Nat.sub_zero, Nat.sub_zero, ← List.take_drop] at hwindow
    rw [← hwindow]
    refine selectAt_congr fun p _ _ => ?_
    rw [Bool.eq_iff_iff]
    simp [spans, hsome]
    omega

end Window

section

variable {α : Type} {accept : α → Bool} {win : Window}

/-- Entries that are not accepted do not count. -/
theorem scanFrom_eq_filter (i : ℤ) (es : List α) :
    scanFrom accept win i es = scanFrom (fun _ => true) win i (es.filter accept) := by
  induction es generalizing i with
  | nil => rfl
  | cons e es ih =>
    by_cases he : accept e = true
    · simp only [List.filter_cons_of_pos he, scanFrom, he, if_true, ih]
    · rw [List.filter_cons_of_neg he, scanFrom, if_neg he, ih]

/-- Without a limit the loop goes on to the end. -/
theorem scanFrom_unlimited (h : win.Valid) (hlimit : win.limit = -1) (es : List α) (k : ℕ) :
    scanFrom (fun _ => true) win (int32 (k - 1)) es = selectAt win.holds k es := by
  induction es generalizing k with
  | nil => rfl
  | cons e es ih =>
    have hi : int32 (int32 ((k : ℤ) - 1) + 1) = int32 k := by rw [int32_add]; congr 1; omega
    have hnext : int32 k = int32 ((k + 1 : ℕ) - 1) := by congr 1; omega
    have hstop : win.stops (int32 k) = false := by simp [Window.stops, hlimit]
    have htake : win.takes (int32 k) = win.holds k := by
      simp only [Window.takes, Window.holds, h.lower_eq, hlimit, if_true]
      rw [Bool.eq_iff_iff]
      simp only [decide_true, Bool.or_true, Bool.and_true, decide_eq_true_eq]
      omega
    simp only [scanFrom, if_true, hi, hstop, Bool.false_eq_true, if_false, htake, selectAt]
    rw [hnext, ih]

/-- With a limit the loop ends at the upper bound. -/
theorem scanFrom_limited (h : win.Valid) (hlimit : win.limit ≠ -1)
    (hbound : win.skip + win.limit < 2 ^ 31) (es : List α) {k : ℕ}
    (hk : k ≤ win.skip + win.limit) :
    scanFrom (fun _ => true) win (k - 1) es = selectAt win.holds k es := by
  have hupper : win.upper = win.skip + win.limit := by rw [h.upper_eq hlimit, if_pos hbound]
  induction es generalizing k with
  | nil => rfl
  | cons e es ih =>
    have hi : int32 ((k : ℤ) - 1 + 1) = k := by rw [int32_eq_self (by omega)]; omega
    have htake : win.takes k = win.holds k := by
      rw [Bool.eq_iff_iff]
      simp [Window.takes, Window.holds, h.lower_eq, hupper, hlimit]
      omega
    simp only [scanFrom, if_true, hi, htake, selectAt]
    rcases lt_or_eq_of_le hk with hlt | heq
    · have hstop : win.stops k = false := by simp [Window.stops, hupper, hlimit]; omega
      have hnext : (k : ℤ) = (k + 1 : ℕ) - 1 := by omega
      rw [hstop, if_neg Bool.false_ne_true, hnext, ih (by omega)]
    · have hstop : win.stops k = true := by simp [Window.stops, hupper, hlimit, heq]
      have hrest : selectAt win.holds (k + 1) es = [] := by
        refine selectAt_eq_nil_iff.mpr fun p hp _ => ?_
        simp [Window.holds, hlimit]
        omega
      rw [if_pos hstop, hrest]

/-- With a limit that overflows nothing is taken. -/
theorem scanFrom_overflow (h : win.Valid) (hlimit : win.limit ≠ -1)
    (hbound : ¬win.skip + win.limit < 2 ^ 31) (es : List α) (i : ℤ) :
    scanFrom (fun _ => true) win i es = [] := by
  have hupper : win.upper = win.skip + win.limit - 2 ^ 32 := by
    rw [h.upper_eq hlimit, if_neg hbound]
  obtain ⟨h₁, h₂, h₃, h₄⟩ := id h
  induction es generalizing i with
  | nil => rfl
  | cons e es ih =>
    have htake : ∀ i, win.takes i = false := by
      intro i
      simp [Window.takes, h.lower_eq, hupper, hlimit]
      omega
    simp only [scanFrom, htake, Bool.false_eq_true, if_false, ih, ite_self]

/-- A listing takes the accepted entries at the positions that its window holds. -/
theorem scan_eq_selectAt (h : win.Valid) (es : List α) :
    scan accept win es = selectAt win.holds 0 (es.filter accept) := by
  rw [scan, scanFrom_eq_filter]
  by_cases hlimit : win.limit = -1
  · simpa [int32_eq_self] using scanFrom_unlimited h hlimit (es.filter accept) 0
  · by_cases hbound : win.skip + win.limit < 2 ^ 31
    · have hpos := h.skip_nonneg
      have hge := h.limit_ge
      simpa using scanFrom_limited h hlimit hbound (es.filter accept) (k := 0) (by omega)
    · rw [scanFrom_overflow h hlimit hbound]
      refine (selectAt_eq_nil_iff.mpr fun p _ _ => ?_).symm
      simp only [Window.holds, if_neg hlimit, decide_eq_false hbound, Bool.and_false]

/-- While neither the bounds nor the counter wrap around, a listing takes the accepted entries
at the positions that its window spans, whatever the signs of `skip` and `limit`. -/
theorem scan_eq_spans (h : win.Unwrapped) {es : List α}
    (hlen : (es.filter accept).length ≤ 2 ^ 31) :
    scan accept win es = selectAt win.spans 0 (es.filter accept) := by
  have hupper := @h.upper_eq
  suffices hfrom : ∀ (es : List α) (k : ℕ), k + es.length ≤ 2 ^ 31 →
      scanFrom (fun _ => true) win (k - 1) es = selectAt win.spans k es by
    rw [scan, scanFrom_eq_filter]
    exact hfrom _ 0 (by omega)
  intro es
  induction es with
  | nil => exact fun _ _ => rfl
  | cons e es ih =>
    intro k hk
    rw [List.length_cons] at hk
    have hi : int32 ((k : ℤ) - 1 + 1) = k := by rw [int32_eq_self (by omega)]; omega
    simp only [scanFrom, if_true, hi, h.takes_eq, selectAt]
    have hrest : (if win.stops k = true then [] else scanFrom (fun _ => true) win k es) =
        selectAt win.spans (k + 1) es := by
      split
      · next hstop =>
        simp only [Window.stops, Bool.and_eq_true, decide_eq_true_eq] at hstop
        obtain ⟨heq, hlimit⟩ := hstop
        rw [hupper hlimit] at heq
        refine (selectAt_eq_nil_iff.mpr fun p hp _ => ?_).symm
        simp [Window.spans, hlimit]
        omega
      · have hnext : (k : ℤ) = (k + 1 : ℕ) - 1 := by omega
        rw [hnext]
        exact ih (k + 1) (by omega)
    rw [hrest]

/-- Whatever the window, only accepted entries are taken, in their order. -/
theorem scan_sublist_filter (es : List α) : (scan accept win es).Sublist (es.filter accept) := by
  suffices hfrom : ∀ (es : List α) (i : ℤ),
      (scanFrom (fun _ => true) win i es).Sublist es by
    rw [scan, scanFrom_eq_filter]
    exact hfrom _ _
  intro es
  induction es with
  | nil => exact fun _ => List.Sublist.slnil
  | cons e es ih =>
    intro i
    have hrest : (if win.stops (int32 (i + 1)) = true then []
        else scanFrom (fun _ => true) win (int32 (i + 1)) es).Sublist es := by
      split
      · exact List.nil_sublist es
      · exact ih _
    simp only [scanFrom, if_true]
    split
    · exact hrest.cons_cons e
    · exact hrest.cons e

/-- Nothing outside the window is taken. -/
theorem scan_sublist_slice (h : win.Valid) (es : List α) :
    (scan accept win es).Sublist (win.slice (es.filter accept)) := by
  rw [scan_eq_selectAt h, Window.slice_eq_selectAt h]
  exact selectAt_sublist_selectAt (fun _ => Window.holds_spans) _ _

/-- The window is taken as a whole exactly if nothing overflows. -/
theorem scan_eq_slice_iff (h : win.Valid) (es : List α) :
    scan accept win es = win.slice (es.filter accept) ↔
      win.slice (es.filter accept) = [] ∨ win.Fits (es.filter accept).length := by
  rw [scan_eq_selectAt h, Window.slice_eq_selectAt h,
    selectAt_eq_selectAt_iff fun _ => Window.holds_spans, selectAt_eq_nil_iff]
  obtain ⟨h₁, h₂, h₃, h₄⟩ := h
  simp only [Nat.zero_le, forall_const, Nat.zero_add]
  generalize (es.filter accept).length = n
  constructor
  · intro hall
    by_cases hfits : win.Fits n
    · exact Or.inr hfits
    refine Or.inl fun p hp => ?_
    by_contra hspan
    rw [Bool.not_eq_false] at hspan
    unfold Window.Fits at hfits
    split at hfits
    · next hlimit =>
      -- the counter is negative at position 2 ^ 31
      have hheld := hall (2 ^ 31) (by omega) (by simp [Window.spans, hlimit]; omega)
      have hneg : int32 ((2 ^ 31 : ℕ) : ℤ) = -2 ^ 31 := by decide
      simp only [Window.holds, hlimit, if_true, hneg, decide_eq_true_eq] at hheld
      omega
    · next hlimit =>
      have hheld := hall p hp hspan
      simp only [Window.holds, if_neg hlimit, Bool.and_eq_true, decide_eq_true_eq] at hheld
      exact hfits hheld.2
  · rintro (hnone | hfits) p hp hspan
    · rw [hnone p hp] at hspan
      cases hspan
    · unfold Window.Fits at hfits
      unfold Window.holds Window.spans at *
      split at hfits
      · next hlimit =>
        rw [int32_eq_self (by omega)]
        simpa [hlimit] using hspan
      · next hlimit =>
        simp only [if_neg hlimit, decide_eq_true hfits, Bool.and_true]
        simpa [hlimit] using hspan

theorem scan_eq_slice (h : win.Valid) {es : List α} (hfits : win.Fits (es.filter accept).length) :
    scan accept win es = win.slice (es.filter accept) :=
  (scan_eq_slice_iff h es).mpr (Or.inr hfits)

/-- A listing of more entries takes the same ones if its window holds none of the others. -/
theorem scan_append_eq_iff (h : win.Valid) (es es' : List α) :
    scan accept win (es ++ es') = scan accept win es ↔
      selectAt win.holds (es.filter accept).length (es'.filter accept) = [] := by
  rw [scan_eq_selectAt h, scan_eq_selectAt h, List.filter_append, selectAt_append, Nat.zero_add]
  exact List.append_right_eq_self

end

/-! ## The entries that a listing meets -/

/-- The entries that a listing by pattern is to give: those whose key starts with the text
before the first star and is accepted. -/
def matching (store : Store) (wild : Bytes) : List Entry :=
  (store.withPrefix (starPrefix wild)).filter (accepts wild)

/-- A forward listing meets the entries with the prefix. -/
theorem forwardRange_eq (store : Store) (pre : Bytes) :
    forwardRange store pre = store.withPrefix pre := by
  rw [forwardRange, OrderedMap.forward_seek]
  exact store.takeWhile_above pre

/-- A listing takes matching entries. -/
theorem listed_sublist (store : Store) (wild : Bytes) (win : Window) :
    (listed store wild win).Sublist (matching store wild) := by
  rw [listed, forwardRange_eq]
  exact scan_sublist_filter _

/-- A listing takes the matching entries at the positions that its window spans. -/
theorem listed_eq_spans {store : Store} {wild : Bytes} {win : Window} (h : win.Unwrapped)
    (hlen : store.entries.length ≤ 2 ^ 31) :
    listed store wild win = selectAt win.spans 0 (matching store wild) := by
  have hsub : (matching store wild).Sublist store.entries :=
    List.filter_sublist.trans List.filter_sublist
  rw [listed, forwardRange_eq]
  exact scan_eq_spans h (hsub.length_le.trans hlen)

theorem firstAfterPrefix_append (q : Bytes) (a : UInt8) :
    firstAfterPrefix (q ++ [a]) = some (q ++ [a + 1]) := by
  simp [firstAfterPrefix]

/-- Two bytes that follow each other. -/
theorem byte_covBy {a : UInt8} (h : a ≠ 255) : a ⋖ a + 1 := by
  have hlt : a.toNat < 255 := by
    have hle := a.toNat_lt
    have hne : a.toNat ≠ 255 := fun heq => h (UInt8.toNat_inj.mp heq)
    omega
  have hsucc : (a + 1).toNat = a.toNat + 1 := by
    rw [UInt8.toNat_add]
    simp
    omega
  refine ⟨UInt8.lt_iff_toNat_lt.mpr (by omega), fun c hac hca => ?_⟩
  rw [UInt8.lt_iff_toNat_lt] at hac hca
  omega

end Quarks
