import Quarks.Search.NearMatch
import Quarks.Basis.EditDistance
import Quarks.Basis.Subsequences

/-!
# Words near the words of a query

The table of `levenshteinDistance` holds the edit distances of the parts of both strings from
their start. The words of a query are found greedily: each is taken for the first near word that
is left, and nothing is lost by that.
-/

namespace Quarks

open Basis

/-! ## The table of distances -/

/-- The distances of a string to another one and to each longer one, up to a string. -/
def distanceRow (s1 start : Bytes) : Bytes → List ℕ
  | [] => [editDistance s1 start]
  | d :: s2 => editDistance s1 start :: distanceRow s1 (start ++ [d]) s2

theorem distanceRow_eq_cons (s1 start s2 : Bytes) :
    ∃ row, distanceRow s1 start s2 = editDistance s1 start :: row := by
  cases s2 <;> exact ⟨_, rfl⟩

theorem distanceRow_nil (start s2 : Bytes) :
    distanceRow [] start s2 = List.range' start.length (s2.length + 1) := by
  induction s2 generalizing start with
  | nil => rfl
  | cons d s2 ih =>
    rw [distanceRow, ih, List.length_append, List.length_singleton, editDistance_nil_left]
    exact List.range'_succ.symm

/-- The last distance is that to the whole string. -/
theorem getLastD_distanceRow (s1 start s2 : Bytes) :
    (distanceRow s1 start s2).getLastD 0 = editDistance s1 (start ++ s2) := by
  induction s2 generalizing start with
  | nil => rw [List.append_nil]; rfl
  | cons d s2 ih =>
    obtain ⟨row, hrow⟩ := distanceRow_eq_cons s1 (start ++ [d]) s2
    have hlast := ih (start ++ [d])
    rw [distanceRow]
    rw [hrow] at hlast ⊢
    rw [List.append_assoc] at hlast
    exact hlast

/-- A row of the table from the row above. -/
theorem levenshteinRow_eq (s1 : Bytes) (c : UInt8) (start s2 : Bytes) :
    editDistance (s1 ++ [c]) start :: levenshteinRow c s2 (distanceRow s1 start s2)
      (editDistance (s1 ++ [c]) start) = distanceRow (s1 ++ [c]) start s2 := by
  induction s2 generalizing start with
  | nil => rfl
  | cons d s2 ih =>
    obtain ⟨row, hrow⟩ := distanceRow_eq_cons s1 (start ++ [d]) s2
    have hrest := ih (start ++ [d])
    rw [distanceRow, distanceRow, ← hrest, hrow, levenshteinRow]
    rw [editDistance_concat]

/-- The rows of the table that are left. -/
theorem levenshteinRows_eq (s1 rest s2 : Bytes) :
    levenshteinRows s2 rest (s1.length + 1) (distanceRow s1 [] s2) =
      distanceRow (s1 ++ rest) [] s2 := by
  induction rest generalizing s1 with
  | nil => rw [List.append_nil]; rfl
  | cons c rest ih =>
    have hrow := levenshteinRow_eq s1 c [] s2
    have hnext := ih (s1 ++ [c])
    rw [editDistance_nil_right, List.length_append, List.length_singleton] at hrow
    rw [List.length_append, List.length_singleton, List.append_assoc] at hnext
    rw [levenshteinRows, hrow, hnext]
    rfl

theorem levenshteinDistance_eq (s1 s2 : Bytes) :
    levenshteinDistance s1 s2 = editDistance s1 s2 := by
  have hrows := levenshteinRows_eq [] s1 s2
  rw [distanceRow_nil, List.length_nil, ← List.range_eq_range'] at hrows
  have hlast := getLastD_distanceRow s1 [] s2
  rw [List.nil_append] at hrows hlast
  rw [← hrows] at hlast
  exact hlast

/-- `levenshteinDistance` is the least number of insertions, deletions and substitutions of one
character that make the second string out of the first, and with that a metric. -/
theorem levenshteinDistance_isLeast (s1 s2 : Bytes) :
    IsLeast {k | EditsIn k s1 s2} (levenshteinDistance s1 s2) ∧
      (levenshteinDistance s1 s2 = 0 ↔ s1 = s2) ∧
      levenshteinDistance s1 s2 = levenshteinDistance s2 s1 ∧
      ∀ s3, levenshteinDistance s1 s3 ≤
        levenshteinDistance s1 s2 + levenshteinDistance s2 s3 := by
  simp only [levenshteinDistance_eq]
  exact ⟨editDistance_isLeast_editsIn s1 s2, editDistance_eq_zero_iff, editDistance_comm s1 s2,
    editDistance_triangle s1 s2⟩

/-! ## The words of a query -/

/-- The word of a text may stand for the word of a query. -/
def IsNear (maxDistance : ℤ) (token2 token1 : Bytes) : Prop :=
  levenshteinDistance token1 token2 ≤ maxDistance

section

variable {maxDistance maxDistance' : ℤ} {tokens1 tokens1' tokens2 : List Bytes}

/-- The loop finds the words of a query if they can be found at all. -/
theorem nearTokens_iff : nearTokens maxDistance tokens1 tokens2 = true ↔
    List.SublistForall₂ (IsNear maxDistance) tokens2 tokens1 := by
  induction tokens1 generalizing tokens2 with
  | nil =>
    cases tokens2 with
    | nil => exact iff_of_true rfl .nil
    | cons token2 tokens2 => exact iff_of_false (by simp [nearTokens]) fun h => by cases h
  | cons token1 tokens1 ih =>
    cases tokens2 with
    | nil => exact iff_of_true rfl .nil
    | cons token2 tokens2 =>
      rw [nearTokens]
      split
      · next hnear =>
        exact ih.trans (sublistForall₂_cons_of_rel (R := IsNear maxDistance) hnear).symm
      · next hfar =>
        exact ih.trans (sublistForall₂_cons_of_not_rel (R := IsNear maxDistance) hfar).symm

/-- A greater distance and more words in the text keep a match. -/
theorem nearTokens_mono (hmax : maxDistance ≤ maxDistance') (hsub : tokens1.Sublist tokens1')
    (h : nearTokens maxDistance tokens1 tokens2 = true) :
    nearTokens maxDistance' tokens1' tokens2 = true := by
  rw [nearTokens_iff] at h ⊢
  exact sublistForall₂_of_sublist (sublistForall₂_mono (fun _ _ hnear => le_trans hnear hmax) h)
    hsub

end

/-! ## Lower case -/

/-- A letter in lower case is no space, and no letter becomes one. -/
theorem isSpace_toLower (c : UInt8) :
    isSpace (if 65 ≤ c ∧ c ≤ 90 then c + 32 else c) = isSpace c := by
  split
  · next hletter =>
    obtain ⟨hfirst, hlast⟩ := hletter
    simp only [UInt8.le_iff_toNat_le, UInt8.reduceToNat] at hfirst hlast
    rw [Bool.eq_iff_iff]
    simp only [isSpace, Bool.or_eq_true, Bool.and_eq_true, decide_eq_true_eq,
      UInt8.le_iff_toNat_le, ← UInt8.toNat_inj, UInt8.toNat_add, UInt8.reduceToNat]
    omega
  · rfl

/-- The words of a text in lower case are its words in lower case. -/
theorem tokenize_toLower (s : Bytes) : tokenize (toLower s) = (tokenize s).map toLower := by
  have hsplit : (toLower s).splitOnP isSpace = (s.splitOnP isSpace).map toLower := by
    induction s with
    | nil => rfl
    | cons c s ih =>
      rw [toLower, List.map_cons, List.splitOnP_cons_eq_if_modifyHead, isSpace_toLower,
        List.splitOnP_cons_eq_if_modifyHead]
      rw [toLower] at ih
      rw [ih]
      split
      · rfl
      · cases s.splitOnP isSpace <;> rfl
  rw [tokenize, tokenize, hsplit, List.filter_map]
  refine congrArg _ (List.filter_congr fun word _ => ?_)
  simp [toLower]

theorem isNearlyMatchedIgnoreCase_eq (str1 str2 : Bytes) (maxDistance : ℤ) :
    isNearlyMatchedIgnoreCase str1 str2 maxDistance =
      isNearlyMatched (toLower str1) (toLower str2) maxDistance := by
  rw [isNearlyMatchedIgnoreCase, isNearlyMatched, tokenize_toLower, tokenize_toLower]

/-! ## Both matches -/

/-- A text matches a query exactly if the words of the query can be assigned to near words of the
text in their order; without regard to case, the texts in lower case are matched. Both matches
are kept by a greater distance and by further words anywhere in the text. -/
theorem isNearlyMatched_complete (a b : Bytes) (d : ℤ) :
    (isNearlyMatched a b d = true ↔
      ∃ f : Fin (tokenize b).length → Fin (tokenize a).length, StrictMono f ∧
        ∀ j, levenshteinDistance ((tokenize a).get (f j)) ((tokenize b).get j) ≤ d) ∧
    isNearlyMatchedIgnoreCase a b d = isNearlyMatched (toLower a) (toLower b) d ∧
    (∀ d', d ≤ d' → (isNearlyMatched a b d = true → isNearlyMatched a b d' = true) ∧
      (isNearlyMatchedIgnoreCase a b d = true → isNearlyMatchedIgnoreCase a b d' = true)) ∧
    ∀ a', (tokenize a).Sublist (tokenize a') →
      (isNearlyMatched a b d = true → isNearlyMatched a' b d = true) ∧
      (isNearlyMatchedIgnoreCase a b d = true → isNearlyMatchedIgnoreCase a' b d = true) :=
  ⟨nearTokens_iff.trans sublistForall₂_iff_exists_strictMono, isNearlyMatchedIgnoreCase_eq a b d,
    fun _ hd => ⟨nearTokens_mono hd (.refl _), nearTokens_mono hd (.refl _)⟩,
    fun _ ha => ⟨nearTokens_mono le_rfl ha, nearTokens_mono le_rfl (ha.map toLower)⟩⟩

/-- The theorem at a text with a word between those of the query, and at the same text with one
word more. -/
theorem isNearlyMatched_complete_fox :
    isNearlyMatched (ascii "the quick fox") (ascii "the fix") 1 = true ∧
    isNearlyMatched (ascii "the quick fox") (ascii "the fix") 2 = true ∧
    isNearlyMatched (ascii "the quick brown fox") (ascii "the fix") 1 = true := by
  have h := isNearlyMatched_complete (ascii "the quick fox") (ascii "the fix") 1
  have hmatch : isNearlyMatched (ascii "the quick fox") (ascii "the fix") 1 = true := by
    decide +kernel
  exact ⟨hmatch, (h.2.2.1 2 (by decide)).1 hmatch,
    (h.2.2.2 (ascii "the quick brown fox") (by decide +kernel)).1 hmatch⟩

end Quarks
