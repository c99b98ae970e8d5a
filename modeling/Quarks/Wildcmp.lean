import Quarks.Bytes
import Mathlib.Tactic.Ring
import Mathlib.Tactic.Linarith

/-!
# Wildcard comparison

`wildcmp` compares a pattern with a string: `*` stands for any run of characters
and `?` for any one. It keeps the last star passed and returns there on a
mismatch. A pointer into a C string is given as what is left of the string, so
the end of the list is the terminating zero.
-/

namespace Quarks

/-- The first loop of `wildcmp`, up to the first star of the pattern or the end of
the string: what is left of both, or `none` on a mismatch. -/
def wildcmpHead : Bytes → Bytes → Option (Bytes × Bytes)
  | wild, [] => some (wild, [])
  | [], _ :: _ => none
  | w :: wild, s :: str =>
    if w = 42 then some (w :: wild, s :: str)
    else if w ≠ s ∧ w ≠ 63 then none
    else wildcmpHead wild str

/-- The last loop of `wildcmp` and its result: only stars are left of the pattern. -/
def onlyStars (wild : Bytes) : Bool := wild.all (· = 42)

/-- The second loop of `wildcmp`. The pattern after the last star is `mp`, and
`cp` is where the string is read from after the next mismatch. -/
def wildcmpLoop : ℕ → Bytes → Bytes → Bytes → Bytes → Bool
  | 0, _, _, _, _ => false
  | _ + 1, _, _, wild, [] => onlyStars wild
  | fuel + 1, mp, cp, [], _ :: _ => wildcmpLoop fuel mp cp.tail mp cp
  | fuel + 1, mp, cp, w :: wild, s :: str =>
    if w = 42 then
      if wild = [] then true else wildcmpLoop fuel wild str wild (s :: str)
    else if w = s ∨ w = 63 then wildcmpLoop fuel mp cp wild str
    else wildcmpLoop fuel mp cp.tail mp cp

/-- A bound on the steps of the second loop. A star shortens `mp`; between two
stars a mismatch shortens `cp`; between two mismatches the string gets shorter. -/
def wildcmpRank (n : ℕ) (mp cp str : Bytes) : ℕ :=
  mp.length * (n + 2) ^ 2 + cp.length * (n + 2) + str.length

/-- Enough steps for the second loop, from any pattern and string. -/
def wildcmpFuel (wild str : Bytes) : ℕ := (wild.length + 1) * (str.length + 2) ^ 2

/-- `wildcmp` on two C strings. Where its second loop starts, no star has been
passed and `mp` and `cp` are not set; they are set before they are used. -/
def wildcmpCStr (wild str : Bytes) : Bool :=
  match wildcmpHead wild str with
  | none => false
  | some (wild, str) => wildcmpLoop (wildcmpFuel wild str) wild str wild str

/-- `wildcmp(wild.c_str(), str.c_str())`. -/
def wildcmp (wild str : Bytes) : Bool := wildcmpCStr (cstr wild) (cstr str)

section

variable {n : ℕ} {mp cp wild str : Bytes} {w s : UInt8}

/-- A star shortens `mp`. -/
theorem wildcmpRank_star (hwild : wild.length < mp.length) (hstr : (s :: str).length ≤ n) :
    wildcmpRank n wild str (s :: str) < wildcmpRank n mp cp (s :: str) := by
  unfold wildcmpRank
  simp only [List.length_cons] at hstr ⊢
  have hmp : (wild.length + 1) * (n + 2) ^ 2 ≤ mp.length * (n + 2) ^ 2 :=
    Nat.mul_le_mul_right _ hwild
  have hcp : str.length * (n + 2) ≤ n * (n + 2) := Nat.mul_le_mul_right _ (by omega)
  nlinarith

theorem wildcmpRank_take : wildcmpRank n mp cp str < wildcmpRank n mp cp (s :: str) := by
  simp [wildcmpRank]

/-- A mismatch shortens `cp`, or finds it empty and ends the string. -/
theorem wildcmpRank_miss (hcp : cp.length ≤ n) :
    wildcmpRank n mp cp.tail cp < wildcmpRank n mp cp (s :: str) := by
  unfold wildcmpRank
  cases cp with
  | nil => simp
  | cons c cp =>
    simp only [List.tail_cons, List.length_cons, Nat.add_mul, one_mul] at hcp ⊢
    omega

/-- The steps of the second loop are bounded: from its bound on, more steps make
no difference. -/
theorem wildcmpLoop_fuel {fuel fuel' : ℕ} (hfuel : wildcmpRank n mp cp str < fuel)
    (hfuel' : wildcmpRank n mp cp str < fuel') (hwild : wild.length ≤ mp.length)
    (hcp : cp.length ≤ n) (hstr : str.length ≤ n) :
    wildcmpLoop fuel mp cp wild str = wildcmpLoop fuel' mp cp wild str := by
  induction fuel generalizing fuel' mp cp wild str with
  | zero => omega
  | succ fuel ih =>
    obtain ⟨fuel', rfl⟩ := Nat.exists_eq_add_of_lt hfuel'
    cases str with
    | nil => simp [wildcmpLoop]
    | cons s str =>
      -- a mismatch: the string is read from `cp`, which moves on
      have hmiss : wildcmpLoop fuel mp cp.tail mp cp =
          wildcmpLoop (wildcmpRank n mp cp (s :: str) + fuel') mp cp.tail mp cp := by
        have hrank := @wildcmpRank_miss n mp cp str s hcp
        exact ih (by omega) (by omega) le_rfl (by simp; omega) hcp
      cases wild with
      | nil => exact hmiss
      | cons w wild =>
        simp only [wildcmpLoop]
        split_ifs with h₁ h₂ h₃
        · rfl
        · have hrank := @wildcmpRank_star n mp cp wild str s hwild hstr
          simp only [List.length_cons] at hstr
          exact ih (by omega) (by omega) le_rfl (by omega) (by simpa using hstr)
        · have hrank := @wildcmpRank_take n mp cp str s
          simp only [List.length_cons] at hwild hstr
          exact ih (by omega) (by omega) (by omega) hcp (by omega)
        · exact hmiss

end

/-- The bound that `wildcmp` is run with is enough for its second loop. -/
theorem wildcmpRank_lt_fuel (wild str : Bytes) :
    wildcmpRank str.length wild str str < wildcmpFuel wild str := by
  simp only [wildcmpRank, wildcmpFuel, Nat.add_mul, one_mul]
  nlinarith

/-- The text of a pattern before its first star. -/
def starPrefix (wild : Bytes) : Bytes := wild.takeWhile (· ≠ 42)

/-- A character that the first loop compares as it is. -/
def isLiteral (c : UInt8) : Bool := c ≠ 42 && c ≠ 63

private theorem onlyStars_literal {c : UInt8} (hc : isLiteral c = true) (s : Bytes) :
    onlyStars (c :: s) = false := by
  simp only [isLiteral, Bool.and_eq_true, decide_eq_true_eq] at hc
  simp [onlyStars, hc]

/-- A string is only accepted if it starts with the literal text that the pattern starts with. -/
theorem prefix_of_wildcmpCStr {lit rest str : Bytes} (hlit : ∀ c ∈ lit, isLiteral c = true)
    (h : wildcmpCStr (lit ++ rest) str = true) : lit <+: str := by
  induction lit generalizing str with
  | nil => exact List.nil_prefix
  | cons c lit ih =>
    obtain ⟨hc, hlit⟩ := List.forall_mem_cons.mp hlit
    cases str with
    | nil =>
      have hfuel := wildcmpRank_lt_fuel (c :: lit ++ rest) []
      obtain ⟨fuel, hfuel⟩ := Nat.exists_eq_add_of_lt hfuel
      simp only [wildcmpCStr, wildcmpHead, hfuel, wildcmpLoop] at h
      rw [List.cons_append, onlyStars_literal hc] at h
      cases h
    | cons s str =>
      simp only [isLiteral, Bool.and_eq_true, decide_eq_true_eq] at hc
      simp only [wildcmpCStr, List.cons_append, wildcmpHead, if_neg hc.1] at h
      split_ifs at h with hs
      obtain rfl : c = s := by
        by_contra hne
        exact hs ⟨hne, hc.2⟩
      exact List.cons_prefix_cons.mpr ⟨rfl, ih hlit h⟩

/-- If the text before the first star has no `?` and no zero byte, only keys that
start with it are accepted. -/
theorem prefix_of_wildcmp {wild key : Bytes} (hmark : (63 : UInt8) ∉ starPrefix wild)
    (hzero : (0 : UInt8) ∉ starPrefix wild) (h : wildcmp wild key = true) :
    starPrefix wild <+: key := by
  have hlit : ∀ c ∈ starPrefix wild, isLiteral c = true := by
    intro c hc
    have hstar : c ≠ 42 := by simpa using List.mem_takeWhile_imp hc
    have hne : c ≠ 63 := fun heq : c = 63 => hmark (heq ▸ hc)
    simp [isLiteral, hstar, hne]
  have hsplit : cstr wild = starPrefix wild ++ cstr (wild.dropWhile (· ≠ 42)) := by
    have hall : ∀ c ∈ starPrefix wild, decide (c ≠ 0) = true := by
      intro c hc
      simpa using fun heq : c = 0 => hzero (heq ▸ hc)
    have hwild : wild = starPrefix wild ++ wild.dropWhile (· ≠ 42) :=
      List.takeWhile_append_dropWhile.symm
    conv_lhs => rw [hwild, cstr, List.takeWhile_append_of_pos hall]
    rfl
  rw [wildcmp, hsplit] at h
  exact (prefix_of_wildcmpCStr hlit h).trans (List.takeWhile_prefix _)

/-- A string that a pattern accepts: its stars stand for nothing, its `?` for `a`. -/
def literalize (wild : Bytes) : Bytes :=
  (wild.filter (· ≠ 42)).map fun c => if c = 63 then 97 else c

private theorem onlyStars_of_literalize {wild : Bytes} (h : literalize wild = []) :
    onlyStars wild = true := by
  simpa [literalize, onlyStars] using h

private theorem literalize_star (wild : Bytes) : literalize (42 :: wild) = literalize wild := by
  simp [literalize]

private theorem literalize_cons {w : UInt8} (hw : w ≠ 42) (wild : Bytes) :
    literalize (w :: wild) = (if w = 63 then 97 else w) :: literalize wild := by
  simp [literalize, hw]

private theorem wildcmpLoop_literalize {fuel : ℕ} {wild : Bytes} (hfuel : wild.length < fuel)
    (mp cp : Bytes) : wildcmpLoop fuel mp cp wild (literalize wild) = true := by
  induction wild generalizing fuel mp cp with
  | nil =>
    obtain ⟨fuel, rfl⟩ := Nat.exists_eq_add_of_lt hfuel
    rfl
  | cons w wild ih =>
    obtain ⟨fuel, rfl⟩ := Nat.exists_eq_add_of_lt hfuel
    have hstep : wild.length < wild.length + 1 + fuel := by omega
    by_cases hw : w = 42
    · subst hw
      rw [literalize_star]
      cases hlit : literalize wild with
      | nil =>
        have hstars := onlyStars_of_literalize hlit
        simpa [wildcmpLoop, onlyStars] using hstars
      | cons s str =>
        simp only [List.length_cons, wildcmpLoop, if_true]
        split
        · rfl
        · rw [← hlit]
          exact ih hstep wild str
    · rw [literalize_cons hw]
      simp only [List.length_cons, wildcmpLoop, if_neg hw]
      rw [if_pos (by split <;> simp [*])]
      exact ih hstep mp cp

private theorem wildcmpHead_literalize (wild : Bytes) :
    ∃ wild', wildcmpHead wild (literalize wild) = some (wild', literalize wild') := by
  induction wild with
  | nil => exact ⟨[], rfl⟩
  | cons w wild ih =>
    by_cases hw : w = 42
    · refine ⟨w :: wild, ?_⟩
      cases hlit : literalize (w :: wild) with
      | nil => rfl
      | cons s str => simp [wildcmpHead, hw]
    · obtain ⟨wild', hwild'⟩ := ih
      refine ⟨wild', ?_⟩
      rw [literalize_cons hw, wildcmpHead, if_neg hw, if_neg (by split <;> simp [*]), hwild']

/-- A pattern accepts what it stands for most simply. -/
theorem wildcmpCStr_literalize (wild : Bytes) : wildcmpCStr wild (literalize wild) = true := by
  obtain ⟨wild', hwild'⟩ := wildcmpHead_literalize wild
  rw [wildcmpCStr, hwild']
  refine wildcmpLoop_literalize ?_ _ _
  have hpos : 0 < ((literalize wild').length + 2) ^ 2 := by positivity
  have := Nat.mul_le_mul_left (wild'.length + 1) hpos
  simp only [wildcmpFuel]
  omega

theorem not_mem_literalize {wild : Bytes} (h : (0 : UInt8) ∉ wild) :
    (63 : UInt8) ∉ literalize wild ∧ (0 : UInt8) ∉ literalize wild := by
  constructor
  · intro hmem
    obtain ⟨c, -, hc⟩ := List.mem_map.mp hmem
    split at hc
    · cases hc
    · next hne => exact hne hc
  · intro hmem
    obtain ⟨c, hc, hzero⟩ := List.mem_map.mp hmem
    split at hzero
    · cases hzero
    · exact h (hzero ▸ (List.mem_filter.mp hc).1)

/-- If the text before the first star has a `?` or a zero byte, some key is
accepted that does not start with it. -/
theorem exists_wildcmp_outside {wild : Bytes}
    (h : (63 : UInt8) ∈ starPrefix wild ∨ (0 : UInt8) ∈ starPrefix wild) :
    ∃ key, wildcmp wild key = true ∧ ¬starPrefix wild <+: key := by
  obtain ⟨hmark, hzero⟩ := not_mem_literalize (zero_not_mem_cstr wild)
  refine ⟨literalize (cstr wild), ?_, ?_⟩
  · rw [wildcmp, cstr_eq_self hzero, wildcmpCStr_literalize]
  · intro hpre
    rcases h with h | h
    · exact hmark (hpre.subset h)
    · exact hzero (hpre.subset h)

end Quarks
