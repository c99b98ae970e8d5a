import Quarks.Basis.Glob
import Quarks.Json.Value
import Quarks.Wildcmp

/-!
# Wildcard comparison decides glob matching

`wildcmp` goes back to the last star only, which is enough. It reads its two strings through
pointers, up to the zeros that end them, and uses the two pointers that it keeps for going back
only after they have been set.
-/

namespace Quarks

open Basis Basis.Glob

/-! ## What is decided -/

/-- What a character of a pattern stands for. -/
def globToken (c : UInt8) : Token UInt8 :=
  if c = 42 then .run else if c = 63 then .one else .only c

/-- The string is what the pattern becomes when each star gives way to a string and each question
mark to a character. -/
def GlobMatches (wild str : Bytes) : Prop := Matches (wild.map globToken) str

section

variable {wild str : Bytes}

@[simp] theorem globMatches_nil : GlobMatches [] str ↔ str = [] := matches_nil

theorem globMatches_star : GlobMatches (42 :: wild) str ↔ ∃ t, t <:+ str ∧ GlobMatches wild t :=
  matches_run

theorem globToken_ne_run {c : UInt8} (hc : c ≠ 42) : globToken c ≠ .run := by
  unfold globToken
  rw [if_neg hc]
  split <;> simp

/-- A character that is no star takes one character. -/
theorem globMatches_cons {w s : UInt8} (hw : w ≠ 42) :
    GlobMatches (w :: wild) (s :: str) ↔ (w = s ∨ w = 63) ∧ GlobMatches wild str := by
  refine (matches_fixed (globToken_ne_run hw)).trans (and_congr_left fun _ => ?_)
  unfold globToken
  rw [if_neg hw]
  by_cases hmark : w = 63
  · rw [if_pos hmark]
    exact iff_of_true trivial (Or.inr hmark)
  · rw [if_neg hmark, or_iff_left hmark]
    exact eq_comm

theorem globMatches_onlyStars : GlobMatches wild [] ↔ onlyStars wild = true := by
  induction wild with
  | nil => simp [onlyStars]
  | cons w wild ih =>
    by_cases hw : w = 42
    · subst hw
      rw [globMatches_star]
      simpa [onlyStars] using ih
    · refine iff_of_false (not_matches_fixed_nil (globToken_ne_run hw)) ?_
      simp [onlyStars, hw]

end

/-! ## The loop -/

/-- What the second loop decides: what is left of the pattern matches what is left of the
string, or the pattern behind the last star matches an end of what lies behind the place where
it was tried last. The part of the pattern that has been compared since has no star. -/
theorem wildcmpLoop_iff {n fuel : ℕ} {mp cp wild str u v : Bytes}
    (hfuel : wildcmpRank n mp cp str < fuel) (hcp : cp.length ≤ n) (hstr : str.length ≤ n)
    (hmp : mp = u ++ wild) (hu : IsFixed (u.map globToken)) (hv : cp = (v ++ str).tail)
    (hlen : v.length = u.length) :
    wildcmpLoop fuel mp cp wild str = true ↔
      GlobMatches wild str ∨ ∃ t, t <:+ cp ∧ GlobMatches mp t := by
  induction fuel generalizing mp cp wild str u v with
  | zero => omega
  | succ fuel ih =>
    have hwild : wild.length ≤ mp.length := by
      rw [hmp, List.length_append]
      omega
    -- the pattern behind a star is tried from a place on, and then further on
    have htried : ∀ {mp str : Bytes}, wildcmpRank n mp str.tail str < fuel → str.length ≤ n →
        (wildcmpLoop fuel mp str.tail mp str = true ↔ ∃ t, t <:+ str ∧ GlobMatches mp t) := by
      intro mp str hrank hstr
      have htail : str.tail.length ≤ n := (List.tail_sublist str).length_le.trans hstr
      have hnone : IsFixed (([] : Bytes).map globToken) := fun t ht => by cases ht
      rw [ih hrank htail hstr (List.nil_append mp).symm hnone
        (congrArg List.tail (List.nil_append str).symm) rfl]
      constructor
      · rintro (h | ⟨t, ht, h⟩)
        · exact ⟨str, List.suffix_rfl, h⟩
        · exact ⟨t, ht.trans (List.tail_suffix str), h⟩
      · rintro ⟨t, ht, h⟩
        cases str with
        | nil =>
          rw [List.suffix_nil.mp ht] at h
          exact Or.inl h
        | cons s str =>
          rcases List.suffix_cons_iff.mp ht with rfl | ht
          · exact Or.inl h
          · exact Or.inr ⟨t, ht, h⟩
    have hmiss : ∀ s str', str = s :: str' → (wildcmpLoop fuel mp cp.tail mp cp = true ↔
        ∃ t, t <:+ cp ∧ GlobMatches mp t) := by
      rintro s str' rfl
      exact htried ((wildcmpRank_miss hcp).trans_le (Nat.le_of_lt_succ hfuel)) hcp
    cases str with
    | nil =>
      rw [wildcmpLoop, ← globMatches_onlyStars]
      refine (or_iff_left_of_imp ?_).symm
      rintro ⟨t, ht, h⟩
      subst hmp
      rw [GlobMatches, List.map_append] at h
      obtain ⟨w, w', rfl, hw, hrest⟩ := matches_append_fixed hu h
      have hle := ht.length_le
      rw [hv, List.append_nil, List.length_tail, List.length_append, hw, List.length_map] at hle
      have hnil : w' = [] := List.length_eq_zero_iff.mp (by omega)
      exact hnil ▸ hrest
    | cons s str =>
      cases wild with
      | nil =>
        rw [wildcmpLoop, hmiss s str rfl, globMatches_nil]
        simp
      | cons w wild =>
        simp only [wildcmpLoop]
        by_cases hstar : w = 42
        · subst hstar
          rw [if_pos rfl]
          -- the ends that an earlier star could leave are among those left by this one
          have hearlier : (∃ t, t <:+ cp ∧ GlobMatches mp t) →
              GlobMatches (42 :: wild) (s :: str) := by
            rintro ⟨t, ht, h⟩
            subst hmp
            rw [GlobMatches, List.map_append] at h
            exact matches_run_of_earlier hu (by rw [hlen, List.length_map])
              ((hv ▸ ht).trans (List.tail_suffix _)) h
          rw [or_iff_left_of_imp hearlier]
          by_cases hnil : wild = []
          · subst hnil
            rw [if_pos rfl, globMatches_star]
            exact iff_of_true rfl ⟨[], List.nil_suffix, globMatches_nil.mpr rfl⟩
          · have hrank := @wildcmpRank_star n mp cp wild str s hwild hstr
            rw [if_neg hnil, globMatches_star]
            exact htried (hrank.trans_le (Nat.le_of_lt_succ hfuel)) hstr
        · rw [if_neg hstar, globMatches_cons hstar]
          by_cases htake : w = s ∨ w = 63
          · have hrank := @wildcmpRank_take n mp cp str s
            simp only [List.length_cons] at hstr
            have hfixed : IsFixed ((u ++ [w]).map globToken) := by
              rw [List.map_append]
              intro t ht
              rcases List.mem_append.mp ht with ht | ht
              · exact hu t ht
              · rw [List.map_singleton, List.mem_singleton] at ht
                exact ht ▸ globToken_ne_run hstar
            rw [if_pos htake, ih (u := u ++ [w]) (v := v ++ [s]) (by omega) hcp (by omega)
              (by rw [hmp, List.append_assoc]; rfl) hfixed (by rw [hv, List.append_assoc]; rfl)
              (by simp [hlen])]
            simp [htake]
          · rw [if_neg htake, hmiss s str rfl]
            simp [htake]

/-- The first loop compares the characters before the first star. -/
theorem wildcmpHead_cases (wild str : Bytes) :
    (wildcmpHead wild str = none ∧ ¬GlobMatches wild str) ∨
      ∃ wild' str', wildcmpHead wild str = some (wild', str') ∧
        (GlobMatches wild str ↔ GlobMatches wild' str') ∧
        (str' = [] ∨ ∃ rest, wild' = 42 :: rest) := by
  induction wild, str using wildcmpHead.induct with
  | case1 wild => exact Or.inr ⟨wild, [], by rw [wildcmpHead], Iff.rfl, Or.inl rfl⟩
  | case2 s str => exact Or.inl ⟨rfl, by simp⟩
  | case3 wild s str =>
    refine Or.inr ⟨42 :: wild, s :: str, ?_, Iff.rfl, Or.inr ⟨wild, rfl⟩⟩
    rw [wildcmpHead, if_pos rfl]
  | case4 w wild s str hstar hmiss =>
    rw [wildcmpHead, if_neg hstar, if_pos hmiss, globMatches_cons hstar]
    refine Or.inl ⟨rfl, ?_⟩
    rintro ⟨h | h, -⟩
    · exact hmiss.1 h
    · exact hmiss.2 h
  | case5 w wild s str hstar htake ih =>
    have htakes : w = s ∨ w = 63 := by
      by_contra hno
      exact htake ⟨fun h => hno (Or.inl h), fun h => hno (Or.inr h)⟩
    rw [wildcmpHead, if_neg hstar, if_neg htake, globMatches_cons hstar, and_iff_right htakes]
    exact ih

/-- The comparison of two C strings decides glob matching. -/
theorem wildcmpCStr_iff {wild str : Bytes} :
    wildcmpCStr wild str = true ↔ GlobMatches wild str := by
  unfold wildcmpCStr
  rcases wildcmpHead_cases wild str with ⟨hnone, hno⟩ | ⟨wild', str', hsome, hiff, hstart⟩
  · rw [hnone]
    exact iff_of_false Bool.false_ne_true hno
  · rw [hsome, hiff]
    have hrank := wildcmpRank_lt_fuel wild' str'
    simp only
    generalize wildcmpFuel wild' str' = fuel at hrank
    obtain ⟨fuel, rfl⟩ := Nat.exists_eq_add_of_lt hrank
    rcases hstart with rfl | ⟨rest, rfl⟩
    · rw [wildcmpLoop, ← globMatches_onlyStars]
    -- the first turn finds a star, whatever `mp` and `cp` are
    have hfirst : ∀ fuel, wildcmpLoop (fuel + 1) (42 :: rest) str' (42 :: rest) str' =
        wildcmpLoop (fuel + 1) (42 :: rest) str'.tail (42 :: rest) str' := by
      intro fuel
      cases str' <;> simp [wildcmpLoop]
    have htail : str'.tail.length ≤ str'.length := (List.tail_sublist str').length_le
    have hless : wildcmpRank str'.length (42 :: rest) str'.tail str' ≤
        wildcmpRank str'.length (42 :: rest) str' str' := by
      unfold wildcmpRank
      have := Nat.mul_le_mul_right (str'.length + 2) htail
      omega
    have hnone : IsFixed (([] : Bytes).map globToken) := fun t ht => by cases ht
    rw [hfirst, wildcmpLoop_iff (Nat.lt_succ_of_le (hless.trans (Nat.le_add_right _ _))) htail
      le_rfl (List.nil_append (42 :: rest)).symm hnone
      (congrArg List.tail (List.nil_append str').symm) rfl]
    refine or_iff_left_of_imp ?_
    rintro ⟨t, ht, h⟩
    obtain ⟨t', ht', h⟩ := globMatches_star.mp h
    exact globMatches_star.mpr ⟨t', (ht'.trans ht).trans (List.tail_suffix str'), h⟩

/-- The comparison of two strings decides glob matching up to their first zeros. -/
theorem wildcmp_iff (wild str : Bytes) :
    wildcmp wild str = true ↔ GlobMatches (cstr wild) (cstr str) :=
  wildcmpCStr_iff

/-! ## The pointers -/

/-- The character at a place in a C string, whose terminating zero stands behind its end. What
stands behind the zero must not be read. -/
def charAt (s : Bytes) (i : ℕ) : Except Failure UInt8 :=
  if i ≤ s.length then .ok (s.getD i 0) else .error .undefined

/-- The loops of `wildcmp`. -/
inductive WildcmpAt
  | head
  | loop
  | stars
  deriving DecidableEq

/-- The pointers of `wildcmp` as indexes, and the loop it is in. The two pointers that are kept
for going back are null at first. -/
structure WildcmpState where
  place : WildcmpAt
  cp : Option ℕ
  mp : Option ℕ
  wild : ℕ
  str : ℕ

/-- One turn of a loop of `wildcmp`: where it goes on, or what it returns. -/
def wildcmpTurn (w s : Bytes) (st : WildcmpState) : Except Failure (WildcmpState ⊕ Bool) :=
  match st.place with
  | .head => do
    if (← charAt s st.str) = 0 then return .inl { st with place := .loop }
    if (← charAt w st.wild) = 42 then return .inl { st with place := .loop }
    if (← charAt w st.wild) ≠ (← charAt s st.str) ∧ (← charAt w st.wild) ≠ 63 then
      return .inr false
    return .inl { st with wild := st.wild + 1, str := st.str + 1 }
  | .loop => do
    if (← charAt s st.str) = 0 then return .inl { st with place := .stars }
    if (← charAt w st.wild) = 42 then
      if (← charAt w (st.wild + 1)) = 0 then return .inr true
      return .inl { st with
        wild := st.wild + 1
        mp := some (st.wild + 1)
        cp := some (st.str + 1) }
    if (← charAt w st.wild) = (← charAt s st.str) ∨ (← charAt w st.wild) = 63 then
      return .inl { st with wild := st.wild + 1, str := st.str + 1 }
    match st.mp, st.cp with
    | some mp, some cp => return .inl { st with wild := mp, str := cp, cp := some (cp + 1) }
    | _, _ => throw .undefined
  | .stars => do
    if (← charAt w st.wild) = 42 then return .inl { st with wild := st.wild + 1 }
    return .inr (decide ((← charAt w st.wild) = 0))

/-- `wildcmp` with a bound on the turns of its loops: `none` if the bound is too small. -/
def wildcmpTurns (w s : Bytes) : ℕ → WildcmpState → Option (Except Failure Bool)
  | 0, _ => none
  | fuel + 1, st => match wildcmpTurn w s st with
    | .error e => some (.error e)
    | .ok (.inl st) => wildcmpTurns w s fuel st
    | .ok (.inr b) => some (.ok b)

/-- Where `wildcmp` starts. -/
def wildcmpStart : WildcmpState := ⟨.head, none, none, 0, 0⟩

section

variable {w s : Bytes}

theorem wildcmpTurns_of_inl {turns : ℕ} {st st' : WildcmpState} {r : Option (Except Failure Bool)}
    (hturn : wildcmpTurn w s st = pure (.inl st')) (h : wildcmpTurns w s turns st' = r) :
    wildcmpTurns w s (turns + 1) st = r := by
  rw [wildcmpTurns, hturn]
  exact h

theorem wildcmpTurns_of_inr {st : WildcmpState} {b : Bool}
    (hturn : wildcmpTurn w s st = pure (.inr b)) : wildcmpTurns w s 1 st = some (.ok b) := by
  rw [wildcmpTurns, hturn]
  rfl

/-- The place in the string from which `t` is left of it, in front of the zero or on it. -/
structure PointsTo (s : Bytes) (i : ℕ) (t : Bytes) : Prop where
  le : i ≤ s.length
  drop : s.drop i = t

variable {i j : ℕ} {t : Bytes} {c : UInt8}

theorem PointsTo.charAt (h : PointsTo s i t) : charAt s i = pure (t.headD 0) := by
  rw [Quarks.charAt, if_pos h.le, ← h.drop, List.headD_eq_head?_getD, List.head?_drop,
    List.getD_eq_getElem?_getD]
  rfl

theorem PointsTo.next (h : PointsTo s i (c :: t)) : PointsTo s (i + 1) t := by
  have hlen := congrArg List.length h.drop
  rw [List.length_drop, List.length_cons] at hlen
  refine ⟨by omega, ?_⟩
  rw [← List.tail_drop, h.drop, List.tail_cons]

/-- In front of its end a string without zero bytes has no zero. -/
theorem PointsTo.ne_zero (h : PointsTo s i (c :: t)) (hs : (0 : UInt8) ∉ s) : c ≠ 0 := by
  rintro rfl
  exact hs (List.mem_of_mem_drop (h.drop ▸ List.mem_cons_self))

theorem PointsTo.le_of_le_next (h : PointsTo s i (c :: t)) (hj : j ≤ i + 1) : j ≤ s.length :=
  hj.trans h.next.le

/-- The last loop passes the stars. -/
theorem wildcmpTurns_stars (hw : (0 : UInt8) ∉ w) (cp mp : Option ℕ) (h : PointsTo w i t) :
    ∃ turns, wildcmpTurns w s turns ⟨.stars, cp, mp, i, j⟩ = some (.ok (onlyStars t)) := by
  induction t generalizing i with
  | nil =>
    refine ⟨1, wildcmpTurns_of_inr ?_⟩
    simp [wildcmpTurn, h.charAt, onlyStars]
  | cons c t ih =>
    by_cases hc : c = 42
    · subst hc
      obtain ⟨turns, hturns⟩ := ih h.next
      refine ⟨turns + 1, wildcmpTurns_of_inl ?_ hturns⟩
      simp [wildcmpTurn, h.charAt]
    · refine ⟨1, wildcmpTurns_of_inr ?_⟩
      have hzero := h.ne_zero hw
      simp [wildcmpTurn, h.charAt, onlyStars, hc, hzero]

/-- The two pointers for going back are set, the one into the string to one place further at most,
or this turn finds no mismatch: the string is at its end or the pattern is at a star. -/
def CanGoBack (w s : Bytes) (st : WildcmpState) (mp cp : Bytes) : Prop :=
  (∃ m c, st.mp = some m ∧ st.cp = some c ∧ PointsTo w m mp ∧ c ≤ st.str + 1 ∧ s.drop c = cp) ∨
    PointsTo s st.str [] ∨ ∃ rest, PointsTo w st.wild (42 :: rest)

/-- The second loop ends, with what it decides, and makes no bad access. -/
theorem wildcmpTurns_loop (hw : (0 : UInt8) ∉ w) (hs : (0 : UInt8) ∉ s) {n fuel : ℕ}
    {cp mp : Option ℕ} {mp' cp' wild str : Bytes} (hfuel : wildcmpRank n mp' cp' str < fuel)
    (hwild : wild.length ≤ mp'.length) (hcp : cp'.length ≤ n) (hstr : str.length ≤ n)
    (hi : PointsTo w i wild) (hj : PointsTo s j str)
    (hback : CanGoBack w s ⟨.loop, cp, mp, i, j⟩ mp' cp') :
    ∃ turns, wildcmpTurns w s turns ⟨.loop, cp, mp, i, j⟩ =
      some (.ok (wildcmpLoop fuel mp' cp' wild str)) := by
  induction fuel generalizing cp mp mp' cp' wild str i j with
  | zero => omega
  | succ fuel ih =>
    cases str with
    | nil =>
      obtain ⟨turns, hturns⟩ := wildcmpTurns_stars (j := j) hw cp mp hi
      refine ⟨turns + 1, wildcmpTurns_of_inl ?_ hturns⟩
      simp [wildcmpTurn, hj.charAt]
    | cons a str =>
      have ha := hj.ne_zero hs
      have hmiss : ∀ b, charAt w i = pure b → b ≠ 42 → b ≠ a → b ≠ 63 →
          ∃ turns, wildcmpTurns w s turns ⟨.loop, cp, mp, i, j⟩ =
            some (.ok (wildcmpLoop fuel mp' cp'.tail mp' cp')) := by
        intro b hread hstar hne hmark
        rcases hback with ⟨m, c, rfl, rfl, hm, hc, rfl⟩ | hend | ⟨rest, hrest⟩
        · have hrank := @wildcmpRank_miss n mp' (s.drop c) str a hcp
          have hpoint : PointsTo s c (s.drop c) := ⟨hj.le_of_le_next hc, rfl⟩
          have htail : (s.drop c).tail.length ≤ n := (List.tail_sublist _).length_le.trans hcp
          obtain ⟨turns, hturns⟩ := ih (by omega) le_rfl htail hcp hm hpoint
            (Or.inl ⟨m, c + 1, rfl, rfl, hm, le_rfl, List.tail_drop.symm⟩)
          refine ⟨turns + 1, wildcmpTurns_of_inl ?_ hturns⟩
          simp [wildcmpTurn, hread, hj.charAt, ha, hstar, hne, hmark]
        · exact absurd (hend.drop.symm.trans hj.drop) (by simp)
        · exact absurd (Except.ok.inj (hread.symm.trans hrest.charAt)) hstar
      cases wild with
      | nil => exact hmiss 0 hi.charAt (by decide) (Ne.symm ha) (by decide)
      | cons b wild =>
        simp only [wildcmpLoop]
        by_cases hb : b = 42
        · subst hb
          rw [if_pos rfl]
          by_cases hnil : wild = []
          · subst hnil
            refine ⟨1, wildcmpTurns_of_inr ?_⟩
            simp [wildcmpTurn, hi.charAt, hi.next.charAt, hj.charAt, ha]
          · rw [if_neg hnil]
            have hrank := @wildcmpRank_star n mp' cp' wild str a hwild hstr
            have hshort : str.length ≤ n := (Nat.le_succ _).trans hstr
            obtain ⟨turns, hturns⟩ := ih (by omega) le_rfl hshort hstr hi.next hj
              (Or.inl ⟨i + 1, j + 1, rfl, rfl, hi.next, le_rfl, hj.next.drop⟩)
            refine ⟨turns + 1, wildcmpTurns_of_inl ?_ hturns⟩
            obtain ⟨b, wild, rfl⟩ := List.exists_cons_of_ne_nil hnil
            have hnonzero := hi.next.ne_zero hw
            simp [wildcmpTurn, hi.charAt, hi.next.charAt, hj.charAt, ha, hnonzero]
        · rw [if_neg hb]
          by_cases htake : b = a ∨ b = 63
          · rw [if_pos htake]
            have hrank := @wildcmpRank_take n mp' cp' str a
            have hshort : str.length ≤ n := (Nat.le_succ _).trans hstr
            have hback' : CanGoBack w s ⟨.loop, cp, mp, i + 1, j + 1⟩ mp' cp' := by
              rcases hback with ⟨m, c, hmp, hcp, hm, hc, hdrop⟩ | hend | ⟨rest, hrest⟩
              · exact Or.inl ⟨m, c, hmp, hcp, hm, Nat.le_succ_of_le hc, hdrop⟩
              · exact absurd (hend.drop.symm.trans hj.drop) (by simp)
              · exact absurd (Except.ok.inj (hi.charAt.symm.trans hrest.charAt)) hb
            obtain ⟨turns, hturns⟩ := ih (by omega) ((Nat.le_succ _).trans hwild) hcp hshort
              hi.next hj.next hback'
            refine ⟨turns + 1, wildcmpTurns_of_inl ?_ hturns⟩
            simp [wildcmpTurn, hi.charAt, hj.charAt, ha, hb, htake]
          · rw [if_neg htake]
            exact hmiss b hi.charAt hb (fun h => htake (Or.inl h)) fun h => htake (Or.inr h)

/-- The first loop ends, and what follows it is the second loop where the first one leaves the
two strings. -/
theorem wildcmpTurns_head (hw : (0 : UInt8) ∉ w) (hs : (0 : UInt8) ∉ s) {wild str : Bytes}
    (hi : PointsTo w i wild) (hj : PointsTo s j str) :
    ∃ turns, wildcmpTurns w s turns ⟨.head, none, none, i, j⟩ =
      some (.ok (wildcmpCStr wild str)) := by
  induction wild, str using wildcmpHead.induct generalizing i j with
  | case1 wild =>
    have hback : CanGoBack w s ⟨.loop, none, none, i, j⟩ wild [] := Or.inr (Or.inl hj)
    obtain ⟨turns, hturns⟩ := wildcmpTurns_loop hw hs (wildcmpRank_lt_fuel wild []) le_rfl le_rfl
      le_rfl hi hj hback
    refine ⟨turns + 1, wildcmpTurns_of_inl ?_ (hturns.trans (by rw [wildcmpCStr, wildcmpHead]))⟩
    simp [wildcmpTurn, hj.charAt]
  | case2 a str =>
    have ha := hj.ne_zero hs
    refine ⟨1, wildcmpTurns_of_inr ?_⟩
    simp [wildcmpTurn, hi.charAt, hj.charAt, ha, Ne.symm ha, wildcmpCStr, wildcmpHead]
  | case3 wild a str =>
    have hback : CanGoBack w s ⟨.loop, none, none, i, j⟩ (42 :: wild) (a :: str) :=
      Or.inr (Or.inr ⟨wild, hi⟩)
    obtain ⟨turns, hturns⟩ := wildcmpTurns_loop hw hs (wildcmpRank_lt_fuel (42 :: wild) (a :: str))
      le_rfl le_rfl le_rfl hi hj hback
    refine ⟨turns + 1, wildcmpTurns_of_inl ?_
      (hturns.trans (by rw [wildcmpCStr, wildcmpHead, if_pos rfl]))⟩
    simp [wildcmpTurn, hi.charAt, hj.charAt]
  | case4 b wild a str hstar hmiss =>
    refine ⟨1, wildcmpTurns_of_inr ?_⟩
    simp [wildcmpTurn, hi.charAt, hj.charAt, hj.ne_zero hs, wildcmpCStr, wildcmpHead, hstar, hmiss]
  | case5 b wild a str hstar htake ih =>
    have ha := hj.ne_zero hs
    obtain ⟨turns, hturns⟩ := ih hi.next hj.next
    refine ⟨turns + 1, wildcmpTurns_of_inl ?_
      (hturns.trans (by rw [wildcmpCStr, wildcmpCStr, wildcmpHead, if_neg hstar, if_neg htake]))⟩
    simp only [wildcmpTurn, hi.charAt, hj.charAt, List.headD_cons, pure_bind, if_neg ha,
      if_neg hstar, if_neg htake]

/-- The run of `wildcmp` on two strings without zero bytes ends. It returns what `wildcmp` is
taken to be, without a read behind the zero of either string or through a null pointer, and this
is whether the string matches the pattern. -/
theorem wildcmp_decides_glob (hw : (0 : UInt8) ∉ w) (hs : (0 : UInt8) ∉ s) :
    (∃ turns, wildcmpTurns w s turns wildcmpStart = some (.ok (wildcmp w s))) ∧
      (wildcmp w s = true ↔ GlobMatches w s) := by
  have hiff := wildcmp_iff w s
  rw [wildcmp, cstr_eq_self hw, cstr_eq_self hs] at hiff ⊢
  exact ⟨wildcmpTurns_head hw hs ⟨Nat.zero_le _, rfl⟩ ⟨Nat.zero_le _, rfl⟩, hiff⟩

/-- `*b` and `ab`: the star stands for the `a`. -/
theorem wildcmp_decides_glob_star :
    (∃ turns, wildcmpTurns [42, 98] [97, 98] turns wildcmpStart =
      some (.ok (wildcmp [42, 98] [97, 98]))) ∧
      (wildcmp [42, 98] [97, 98] = true ↔ GlobMatches [42, 98] [97, 98]) :=
  wildcmp_decides_glob (by decide) (by decide)

end

end Quarks
