import Mathlib.Algebra.Order.Field.Basic
import Mathlib.Data.List.Induction
import Mathlib.Tactic.FieldSimp
import Mathlib.Tactic.Linarith
import Mathlib.Tactic.Ring

/-!
# Cutting an interval in halves

An interval is cut in halves again and again, each time at the half that is chosen. The choices
are the binary digits of the place of the part that is left; those that follow a point lead to a
part around it.
-/

namespace Basis

/-! ## Binary places -/

/-- The number with these binary digits, the highest one first. -/
def bitsIndex (bits : List Bool) : ℕ := bits.foldl (fun n b => 2 * n + b.toNat) 0

@[simp] theorem bitsIndex_nil : bitsIndex [] = 0 := rfl

theorem bitsIndex_concat (bits : List Bool) (b : Bool) :
    bitsIndex (bits ++ [b]) = 2 * bitsIndex bits + b.toNat := by
  simp [bitsIndex, List.foldl_append]

theorem bitsIndex_append (bits bits' : List Bool) :
    bitsIndex (bits ++ bits') = bitsIndex bits * 2 ^ bits'.length + bitsIndex bits' := by
  induction bits' using List.reverseRecOn with
  | nil => simp
  | append_singleton bits' b ih =>
    rw [← List.append_assoc, bitsIndex_concat, bitsIndex_concat, ih, List.length_append,
      List.length_singleton, pow_succ]
    ring

theorem bitsIndex_cons (b : Bool) (bits : List Bool) :
    bitsIndex (b :: bits) = b.toNat * 2 ^ bits.length + bitsIndex bits := by
  have happend := bitsIndex_append [b] bits
  rwa [List.singleton_append, show bitsIndex [b] = b.toNat by simp [bitsIndex]] at happend

theorem bitsIndex_lt (bits : List Bool) : bitsIndex bits < 2 ^ bits.length := by
  induction bits using List.reverseRecOn with
  | nil => simp
  | append_singleton bits b ih =>
    have hb := b.toNat_le
    rw [bitsIndex_concat, List.length_append, List.length_singleton, pow_succ]
    omega

theorem bitsIndex_eq_zero_iff {bits : List Bool} : bitsIndex bits = 0 ↔ ∀ b ∈ bits, b = false := by
  induction bits using List.reverseRecOn with
  | nil => simp
  | append_singleton bits b ih =>
    rw [bitsIndex_concat, List.forall_mem_append, ← ih, List.forall_mem_singleton]
    cases b
    · simp
    · simp

theorem bitsIndex_succ_eq_iff {bits : List Bool} :
    bitsIndex bits + 1 = 2 ^ bits.length ↔ ∀ b ∈ bits, b = true := by
  induction bits using List.reverseRecOn with
  | nil => simp
  | append_singleton bits b ih =>
    rw [bitsIndex_concat, List.forall_mem_append, ← ih, List.forall_mem_singleton,
      List.length_append, List.length_singleton, pow_succ]
    cases b
    · simp
      omega
    · simp
      omega

/-- So many digits are told by their number. -/
theorem eq_of_bitsIndex_eq {bits bits' : List Bool} (hlength : bits.length = bits'.length)
    (h : bitsIndex bits = bitsIndex bits') : bits = bits' := by
  induction bits using List.reverseRecOn generalizing bits' with
  | nil => exact (List.length_eq_zero_iff.mp hlength.symm).symm
  | append_singleton bits b ih =>
    cases bits' using List.reverseRecOn with
    | nil => simp at hlength
    | append_singleton bits' b' =>
      rw [bitsIndex_concat, bitsIndex_concat] at h
      have hb := b.toNat_le
      have hb' := b'.toNat_le
      have htoNat : b.toNat = b'.toNat := by omega
      have hlast : b = b' := by
        cases b
        · cases b'
          · rfl
          · cases htoNat
        · cases b'
          · cases htoNat
          · rfl
      have hfront : bits = bits' := ih (by simpa using hlength) (by omega)
      rw [hlast, hfront]

/-! ## Parts of an interval -/

/-- An interval, given by its ends. -/
structure Span (K : Type*) where
  low : K
  high : K

namespace Span

section

variable {K : Type*} [Field K] (s : Span K)

def mid : K := (s.low + s.high) / 2

def width : K := s.high - s.low

/-- The upper or the lower half. -/
def half (upper : Bool) : Span K := if upper then ⟨s.mid, s.high⟩ else ⟨s.low, s.mid⟩

/-- What is left after some choices. -/
def cut (bits : List Bool) : Span K := bits.foldl half s

@[simp] theorem cut_nil : s.cut [] = s := rfl

@[simp] theorem cut_cons (b : Bool) (bits : List Bool) : s.cut (b :: bits) = (s.half b).cut bits :=
  rfl

variable [CharZero K]

theorem width_half (b : Bool) : (s.half b).width = s.width / 2 := by
  cases b
  · simp only [half, width, mid, Bool.false_eq_true, if_false]
    ring
  · simp only [half, width, mid, if_true]
    ring

theorem width_cut (bits : List Bool) : (s.cut bits).width = s.width / 2 ^ bits.length := by
  induction bits generalizing s with
  | nil => simp
  | cons b bits ih =>
    rw [cut_cons, ih, width_half, List.length_cons, pow_succ]
    field_simp

theorem low_half (b : Bool) : (s.half b).low = s.low + s.width / 2 * b.toNat := by
  cases b
  · simp [half]
  · simp only [half, mid, width, if_true, Bool.toNat_true, Nat.cast_one]
    ring

/-- The parts of an interval lie one behind the other, in the order of their numbers. -/
theorem low_cut (bits : List Bool) :
    (s.cut bits).low = s.low + s.width / 2 ^ bits.length * bitsIndex bits := by
  induction bits generalizing s with
  | nil => simp
  | cons b bits ih =>
    rw [cut_cons, ih, width_half, low_half, List.length_cons, bitsIndex_cons, pow_succ]
    push_cast
    field_simp
    ring

theorem high_cut (bits : List Bool) :
    (s.cut bits).high = s.low + s.width / 2 ^ bits.length * (bitsIndex bits + 1) := by
  have hwidth := s.width_cut bits
  rw [width, sub_eq_iff_eq_add, s.low_cut] at hwidth
  rw [hwidth]
  ring

end

/-! ## Following a point -/

variable {K : Type*} [Field K] [LinearOrder K] (s : Span K) (x : K)

/-- The choices that follow a point: the upper half is chosen for points above the middle. -/
def choices : Span K → K → ℕ → List Bool
  | _, _, 0 => []
  | s, x, n + 1 => decide (s.mid < x) :: (s.half (decide (s.mid < x))).choices x n

@[simp] theorem length_choices (n : ℕ) : (s.choices x n).length = n := by
  induction n generalizing s with
  | zero => rfl
  | succ n ih => simp [choices, ih]

/-- Fewer choices are the first ones of more. -/
theorem take_choices {m n : ℕ} (h : m ≤ n) : (s.choices x n).take m = s.choices x m := by
  induction m generalizing s n with
  | zero => simp [choices]
  | succ m ih =>
    obtain ⟨n, rfl⟩ : ∃ k, n = k + 1 := ⟨n - 1, by omega⟩
    rw [choices, choices, List.take_succ_cons, ih (s.half _) (by omega)]

/-- The number of the part around a point. -/
def placeOf (n : ℕ) : ℕ := bitsIndex (s.choices x n)

variable {s x} [IsStrictOrderedRing K]

theorem low_lt_mid (h : s.low < s.high) : s.low < s.mid := by
  unfold mid
  linarith

theorem mid_lt_high (h : s.low < s.high) : s.mid < s.high := by
  unfold mid
  linarith

theorem half_proper (h : s.low < s.high) (b : Bool) : (s.half b).low < (s.half b).high := by
  cases b
  · exact low_lt_mid h
  · exact mid_lt_high h

theorem low_le_low_half (h : s.low < s.high) (b : Bool) : s.low ≤ (s.half b).low := by
  cases b
  · exact le_rfl
  · exact (low_lt_mid h).le

theorem high_half_le_high (h : s.low < s.high) (b : Bool) : (s.half b).high ≤ s.high := by
  cases b
  · exact (mid_lt_high h).le
  · exact le_rfl

/-- A part lies within the interval. -/
theorem cut_within (h : s.low < s.high) (bits : List Bool) :
    s.low ≤ (s.cut bits).low ∧ (s.cut bits).high ≤ s.high := by
  induction bits generalizing s with
  | nil => exact ⟨le_rfl, le_rfl⟩
  | cons b bits ih =>
    obtain ⟨hlow, hhigh⟩ := ih (half_proper h b)
    exact ⟨(low_le_low_half h b).trans hlow, hhigh.trans (high_half_le_high h b)⟩

/-- The first part begins where the interval does, and the last part ends where it does. -/
theorem low_cut_eq_iff (h : s.low < s.high) (bits : List Bool) :
    (s.cut bits).low = s.low ↔ ∀ b ∈ bits, b = false := by
  have hpart : 0 < s.width / 2 ^ bits.length := div_pos (sub_pos.mpr h) (by positivity)
  rw [low_cut, add_eq_left, mul_eq_zero_iff_left hpart.ne', Nat.cast_eq_zero,
    bitsIndex_eq_zero_iff]

theorem high_cut_eq_iff (h : s.low < s.high) (bits : List Bool) :
    (s.cut bits).high = s.high ↔ ∀ b ∈ bits, b = true := by
  have hwidth : s.width ≠ 0 := (sub_pos.mpr h).ne'
  have hhigh : s.high = s.low + s.width := by rw [width, add_sub_cancel]
  have hscaled : s.width / 2 ^ bits.length * (bitsIndex bits + 1) = s.width ↔
      ((bitsIndex bits + 1 : ℕ) : K) = (2 ^ bits.length : ℕ) := by
    rw [div_mul_eq_mul_div, div_eq_iff (by positivity), mul_right_inj' hwidth]
    push_cast
    rfl
  rw [high_cut, hhigh, add_right_inj, hscaled, Nat.cast_inj, bitsIndex_succ_eq_iff]

omit [IsStrictOrderedRing K] in
/-- The part that is followed stays around the point. -/
theorem le_high_cut_choices (h : x ≤ s.high) (n : ℕ) : x ≤ (s.cut (s.choices x n)).high := by
  induction n generalizing s with
  | zero => exact h
  | succ n ih =>
    rw [choices, cut_cons]
    refine ih ?_
    by_cases hmid : s.mid < x
    · simpa [half, hmid] using h
    · simpa [half, hmid] using not_lt.mp hmid

omit [IsStrictOrderedRing K] in
theorem low_cut_choices_lt (h : s.low < x) (n : ℕ) : (s.cut (s.choices x n)).low < x := by
  induction n generalizing s with
  | zero => exact h
  | succ n ih =>
    rw [choices, cut_cons]
    refine ih ?_
    by_cases hmid : s.mid < x
    · simp [half, hmid]
    · simpa [half, hmid] using h

/-- For a point at the low end the lower half is chosen every time. -/
theorem placeOf_eq_zero (hproper : s.low < s.high) (h : x ≤ s.low) (n : ℕ) :
    s.placeOf x n = 0 := by
  induction n generalizing s with
  | zero => rfl
  | succ n ih =>
    have hmid : ¬s.mid < x := not_lt.mpr (h.trans (low_lt_mid hproper).le)
    have hrest := ih (half_proper hproper false) h
    rw [placeOf] at hrest
    rw [placeOf, choices, decide_eq_false hmid, bitsIndex_cons, hrest]
    simp

/-- The choices for a point within a part are the ones that lead to it. -/
theorem choices_eq (hproper : s.low < s.high) {bits : List Bool} (hlow : (s.cut bits).low < x)
    (hhigh : x ≤ (s.cut bits).high) : s.choices x bits.length = bits := by
  induction bits generalizing s with
  | nil => rfl
  | cons b bits ih =>
    have hhalf := half_proper hproper b
    obtain ⟨hlow', hhigh'⟩ := cut_within hhalf bits
    have hchoice : decide (s.mid < x) = b := by
      cases b
      · exact decide_eq_false (not_lt.mpr (hhigh.trans hhigh'))
      · exact decide_eq_true (hlow'.trans_lt hlow)
    rw [List.length_cons, choices, hchoice, ih hhalf hlow hhigh]

/-- The choices for a point lead to a part if and only if the point lies within it, above its low
end unless that is the low end of all. -/
theorem choices_eq_iff (hproper : s.low < s.high) (hlow : s.low ≤ x) (hhigh : x ≤ s.high)
    (bits : List Bool) : s.choices x bits.length = bits ↔
      (s.cut bits).low ≤ x ∧ x ≤ (s.cut bits).high ∧ (x ≠ s.low → (s.cut bits).low < x) := by
  have hwidth : 0 < s.width := sub_pos.mpr hproper
  constructor
  · intro h
    have hle := le_high_cut_choices hhigh bits.length
    rw [h] at hle
    rcases hlow.eq_or_lt with heq | hlt
    · have hzero := placeOf_eq_zero hproper heq.ge bits.length
      rw [placeOf, h] at hzero
      refine ⟨?_, hle, fun hne => absurd heq.symm hne⟩
      rw [low_cut, hzero, Nat.cast_zero, mul_zero, add_zero]
      exact hlow
    · have hcut := low_cut_choices_lt hlt bits.length
      rw [h] at hcut
      exact ⟨hcut.le, hle, fun _ => hcut⟩
  · rintro ⟨hcut, hle, hstrict⟩
    by_cases heq : x = s.low
    · rw [heq, low_cut] at hcut
      have hzero : bitsIndex bits = 0 := by
        by_contra hne
        have hpos : (0 : K) < bitsIndex bits := by exact_mod_cast Nat.pos_of_ne_zero hne
        have hstep : 0 < s.width / 2 ^ bits.length * bitsIndex bits := by positivity
        linarith
      refine eq_of_bitsIndex_eq (length_choices s x _) ?_
      rw [hzero]
      exact placeOf_eq_zero hproper heq.le bits.length
    · exact choices_eq hproper (hstrict heq) hle

/-- Where a point lies in steps of so many parts. -/
def steps (s : Span K) (x : K) (n : ℕ) : K := (x - s.low) * 2 ^ n / s.width

theorem steps_le_steps (hproper : s.low < s.high) {y : K} (h : x ≤ y) (n : ℕ) :
    s.steps x n ≤ s.steps y n := by
  have hwidth : 0 < s.width := sub_pos.mpr hproper
  unfold steps
  gcongr

/-- A point lies between the ends of its part, and above the low end of each part but the first. -/
theorem placeOf_spec (hproper : s.low < s.high) (hlow : s.low ≤ x) (hhigh : x ≤ s.high) (n : ℕ) :
    s.steps x n ≤ s.placeOf x n + 1 ∧ (0 < s.placeOf x n → (s.placeOf x n : K) < s.steps x n) := by
  have hwidth : 0 < s.width := sub_pos.mpr hproper
  have hpow : (0 : K) < 2 ^ n := by positivity
  constructor
  · have hcut := le_high_cut_choices hhigh n
    rw [high_cut, length_choices] at hcut
    rw [steps, div_le_iff₀ hwidth]
    have hscaled := mul_le_mul_of_nonneg_right (sub_le_iff_le_add'.mpr hcut) hpow.le
    calc (x - s.low) * 2 ^ n ≤ s.width / 2 ^ n * (bitsIndex (s.choices x n) + 1) * 2 ^ n := hscaled
      _ = (s.placeOf x n + 1) * s.width := by
        rw [placeOf]
        field_simp
  · intro hpos
    have hstrict : s.low < x := by
      refine lt_of_le_of_ne hlow fun heq => hpos.ne' ?_
      exact placeOf_eq_zero hproper heq.ge n
    have hcut := low_cut_choices_lt hstrict n
    rw [low_cut, length_choices] at hcut
    rw [steps, lt_div_iff₀ hwidth]
    have hscaled := mul_lt_mul_of_pos_right (lt_sub_iff_add_lt'.mpr hcut) hpow
    calc (s.placeOf x n : K) * s.width
        = s.width / 2 ^ n * bitsIndex (s.choices x n) * 2 ^ n := by
          rw [placeOf]
          field_simp
      _ < (x - s.low) * 2 ^ n := hscaled

/-- A higher point lies in a later part, if not in the same. -/
theorem placeOf_mono (hproper : s.low < s.high) {y : K} (hlow : s.low ≤ x) (h : x ≤ y)
    (hhigh : y ≤ s.high) (n : ℕ) : s.placeOf x n ≤ s.placeOf y n := by
  by_contra hless
  have hx := (placeOf_spec hproper hlow (h.trans hhigh) n).2 (by omega)
  have hy := (placeOf_spec hproper (hlow.trans h) hhigh n).1
  have hsteps := steps_le_steps hproper h n
  have hlt : (s.placeOf x n : K) < (s.placeOf y n + 1 : ℕ) := by
    push_cast
    linarith
  have hnat := Nat.cast_lt.mp hlt
  omega

/-- A point that is not more than a part higher lies at most one part further. -/
theorem placeOf_le_succ (hproper : s.low < s.high) {y : K} (hlow : s.low ≤ x) (h : x ≤ y)
    (hhigh : y ≤ s.high) {n : ℕ} (hnear : y - x ≤ s.width / 2 ^ n) :
    s.placeOf y n ≤ s.placeOf x n + 1 := by
  by_contra hfar
  have hwidth : 0 < s.width := sub_pos.mpr hproper
  have hx := (placeOf_spec hproper hlow (h.trans hhigh) n).1
  have hy := (placeOf_spec hproper (hlow.trans h) hhigh n).2 (by omega)
  have hsteps : s.steps y n ≤ s.steps x n + 1 := by
    have hscaled := mul_le_mul_of_nonneg_right hnear (by positivity : (0 : K) ≤ 2 ^ n)
    rw [div_mul_cancel₀ _ (by positivity)] at hscaled
    unfold steps
    rw [div_add_one hwidth.ne', div_le_div_iff_of_pos_right hwidth]
    calc (y - s.low) * 2 ^ n = (x - s.low) * 2 ^ n + (y - x) * 2 ^ n := by ring
      _ ≤ (x - s.low) * 2 ^ n + s.width := by linarith
  have hlt : (s.placeOf y n : K) < (s.placeOf x n + 2 : ℕ) := by
    push_cast
    linarith
  have hnat := Nat.cast_lt.mp hlt
  omega

/-- Two points that are not more than a part apart lie in the same part or in parts next to each
other. -/
theorem placeOf_near (hproper : s.low < s.high) {y : K} (hx : s.low ≤ x ∧ x ≤ s.high)
    (hy : s.low ≤ y ∧ y ≤ s.high) {n : ℕ} (hnear : |x - y| ≤ s.width / 2 ^ n) :
    s.placeOf x n ≤ s.placeOf y n + 1 ∧ s.placeOf y n ≤ s.placeOf x n + 1 := by
  obtain ⟨hge, hle⟩ := abs_le.mp hnear
  rcases le_total x y with h | h
  · have hmono := placeOf_mono hproper hx.1 h hy.2 n
    exact ⟨by omega, placeOf_le_succ hproper hx.1 h hy.2 (by linarith)⟩
  · have hmono := placeOf_mono hproper hy.1 h hx.2 n
    exact ⟨placeOf_le_succ hproper hy.1 h hx.2 (by linarith), by omega⟩

/-- Two points in the same part or in parts next to each other are at most two parts apart. -/
theorem abs_sub_le_of_placeOf (hproper : s.low < s.high) {y : K} (hx : s.low ≤ x ∧ x ≤ s.high)
    (hy : s.low ≤ y ∧ y ≤ s.high) {n : ℕ} (h : s.placeOf x n ≤ s.placeOf y n + 1)
    (h' : s.placeOf y n ≤ s.placeOf x n + 1) : |x - y| ≤ 2 * (s.width / 2 ^ n) := by
  have hwidth : 0 < s.width := sub_pos.mpr hproper
  have hbounds : ∀ z, s.low ≤ z → z ≤ s.high →
      (s.placeOf z n : K) ≤ s.steps z n ∧ s.steps z n ≤ s.placeOf z n + 1 := by
    intro z hlow hhigh
    obtain ⟨hle, hlt⟩ := placeOf_spec hproper hlow hhigh n
    refine ⟨?_, hle⟩
    rcases Nat.eq_zero_or_pos (s.placeOf z n) with hzero | hpos
    · rw [hzero, Nat.cast_zero]
      exact div_nonneg (mul_nonneg (sub_nonneg.mpr hlow) (by positivity)) hwidth.le
    · exact (hlt hpos).le
  obtain ⟨hx₁, hx₂⟩ := hbounds x hx.1 hx.2
  obtain ⟨hy₁, hy₂⟩ := hbounds y hy.1 hy.2
  have hplaces : (s.placeOf x n : K) ≤ s.placeOf y n + 1 ∧
      (s.placeOf y n : K) ≤ s.placeOf x n + 1 :=
    ⟨by exact_mod_cast h, by exact_mod_cast h'⟩
  have hscale : x - y = (s.steps x n - s.steps y n) * (s.width / 2 ^ n) := by
    unfold steps
    field_simp
    ring
  have hpart : 0 < s.width / 2 ^ n := by positivity
  rw [hscale, abs_mul, abs_of_pos hpart]
  refine mul_le_mul_of_nonneg_right (abs_le.mpr ⟨?_, ?_⟩) hpart.le
  · linarith
  · linarith

end Span

/-! ## Two lists in turn -/

section

variable {α : Type*}

/-- The elements at even places and those at odd places. -/
def turns : List α → List α × List α
  | [] => ([], [])
  | a :: l => (a :: (turns l).2, (turns l).1)

theorem length_turns (l : List α) :
    (turns l).1.length = (l.length + 1) / 2 ∧ (turns l).2.length = l.length / 2 := by
  induction l with
  | nil => simp [turns]
  | cons a l ih =>
    rw [turns, List.length_cons, List.length_cons, ih.1, ih.2]
    exact ⟨by omega, rfl⟩

/-- Behind an even number of elements the turns go on as they began, behind an odd number the
other way round. -/
theorem turns_append (l l' : List α) :
    turns (l ++ l') =
      if l.length % 2 = 0 then ((turns l).1 ++ (turns l').1, (turns l).2 ++ (turns l').2)
      else ((turns l).1 ++ (turns l').2, (turns l).2 ++ (turns l').1) := by
  induction l with
  | nil => simp [turns]
  | cons a l ih =>
    rw [List.cons_append, turns, ih, turns, List.length_cons]
    by_cases h : l.length % 2 = 0
    · rw [if_pos h, if_neg (by omega)]
      rfl
    · rw [if_neg h, if_pos (by omega)]
      rfl

/-- The elements are told by those at even and at odd places. -/
theorem turns_injective {l l' : List α} (h : turns l = turns l') : l = l' := by
  induction l generalizing l' with
  | nil =>
    cases l' with
    | nil => rfl
    | cons b l' => simp [turns] at h
  | cons a l ih =>
    cases l' with
    | nil => simp [turns] at h
    | cons b l' =>
      simp only [turns, Prod.mk.injEq, List.cons.injEq] at h
      rw [h.1.1, ih (Prod.ext h.2 h.1.2)]

end

section

variable {K : Type*} [Field K] [LinearOrder K]

/-- The choices that follow a point in each of two intervals, taken in turn. -/
def Span.choicesInTurn : ℕ → K × Span K → K × Span K → List Bool
  | 0, _, _ => []
  | n + 1, (x, s), other =>
    decide (s.mid < x) :: choicesInTurn n other (x, s.half (decide (s.mid < x)))

theorem Span.turns_choicesInTurn (n : ℕ) (s t : Span K) (x y : K) :
    turns (choicesInTurn n (x, s) (y, t)) = (s.choices x ((n + 1) / 2), t.choices y (n / 2)) := by
  induction n generalizing s t x y with
  | zero => rfl
  | succ n ih =>
    have hhalf : (n + 1 + 1) / 2 = n / 2 + 1 := by omega
    rw [choicesInTurn, turns, ih, hhalf, choices]

end

end Basis
