import Quarks.Json.WholeNumbers

/-!
# Near matches

The conditions of a document search compare texts word by word. A word is near another one
if their Levenshtein distance is at most a given number, and a text matches a query if
words near those of the query occur in it in their order.
-/

namespace Quarks

/-- The entries of one row of the table `dp` behind the first, for a character of the first
string, from the row above and the entry on the left. -/
def levenshteinRow (c : UInt8) : Bytes → List ℕ → ℕ → List ℕ
  | d :: s2, diagonal :: up :: above, left =>
    let e := if c = d then diagonal else min (min diagonal up) left + 1
    e :: levenshteinRow c s2 (up :: above) e
  | _, _, _ => []

/-- The last row of `dp`, from row `i - 1` and the characters of the first string that
are left. -/
def levenshteinRows (s2 : Bytes) : Bytes → ℕ → List ℕ → List ℕ
  | [], _, row => row
  | c :: s1, i, row => levenshteinRows s2 s1 (i + 1) (i :: levenshteinRow c s2 row i)

/-- `levenshteinDistance`. -/
def levenshteinDistance (s1 s2 : Bytes) : ℕ :=
  (levenshteinRows s2 s1 1 (List.range (s2.length + 1))).getLastD 0

example : levenshteinDistance (ascii "kitten") (ascii "sitting") = 3 := by decide +kernel

/-- `tokenize`: the words of a text. -/
def tokenize (s : Bytes) : List Bytes := (s.splitOnP isSpace).filter (· ≠ [])

/-- The loop of `isNearlyMatched`: the words of the query are found from left to right. -/
def nearTokens (maxDistance : ℤ) : List Bytes → List Bytes → Bool
  | _, [] => true
  | [], _ :: _ => false
  | token1 :: tokens1, token2 :: tokens2 =>
    if levenshteinDistance token1 token2 ≤ maxDistance then nearTokens maxDistance tokens1 tokens2
    else nearTokens maxDistance tokens1 (token2 :: tokens2)

/-- `isNearlyMatched`. -/
def isNearlyMatched (str1 str2 : Bytes) (maxDistance : ℤ) : Bool :=
  nearTokens maxDistance (tokenize str1) (tokenize str2)

/-- `toLower`, in the C locale. -/
def toLower (str : Bytes) : Bytes := str.map fun c => if 65 ≤ c ∧ c ≤ 90 then c + 32 else c

/-- `isNearlyMatchedIgnoreCase`. -/
def isNearlyMatchedIgnoreCase (str1 str2 : Bytes) (maxDistance : ℤ) : Bool :=
  nearTokens maxDistance ((tokenize str1).map toLower) ((tokenize str2).map toLower)

end Quarks
