import Quarks.Json.Value

/-!
# The query string

crow decodes the parameters of a request in place: the target is copied, each part between
two ampersands is cut at the end of its decoded value, and a parameter is the text behind the
first equals sign of the part with its name.
-/

namespace Quarks

/-- The bytes for which `CROW_QS_ISQSCHR` is 0: `=`, `#`, `&` and the zero byte. -/
def endsQuery (c : UInt8) : Bool := c = 61 || c = 35 || c = 38 || c = 0

/-- `qs_decode`. A percent sign without two digits behind it ends the value. -/
def qsDecode : Bytes → Bytes
  | 37 :: a :: b :: s =>
    if isHexDigit a && isHexDigit b then UInt8.ofNat (16 * fromHex a + fromHex b) :: qsDecode s
    else []
  | 37 :: _ => []
  | c :: s => if endsQuery c then [] else (if c = 43 then 32 else c) :: qsDecode s
  | [] => []

/-- `qs_strncmp` finds the name at the start of a part, and the part does not go on. -/
def qsMatches : (name part : Bytes) → Bool
  | [], part => part.head?.all endsQuery
  | u :: name, 37 :: a :: b :: s =>
    isHexDigit a && isHexDigit b && UInt8.ofNat (16 * fromHex a + fromHex b) = u &&
      qsMatches name s
  | _ :: _, 37 :: _ => false
  | u :: name, c :: s => !endsQuery c && (if c = 43 then 32 else c) = u && qsMatches name s
  | _ :: _, [] => false

/-- What `qs_parse` makes of a part: the bytes behind the first `=` or `#` are decoded. -/
def qsPart (part : Bytes) : Bytes :=
  let name := part.takeWhile fun c => c ≠ 61 && c ≠ 35
  match part.drop name.length with
  | [] => name
  | c :: value => cstr (name ++ c :: qsDecode value)

/-- The parts of a target behind its first `?` or `#`, as `qs_parse` leaves them. There is
room for 256 of them. -/
def qsParts (target : Bytes) : List Bytes :=
  match (cstr target).dropWhile fun c => c ≠ 63 && c ≠ 35 with
  | [] => []
  | _ :: query => ((query.splitOn 38).take 256).map qsPart

/-- `url_params.get(name)`. -/
def urlParam (name target : Bytes) : Option Bytes :=
  ((qsParts target).find? (qsMatches name)).map fun part =>
    (part.dropWhile (· ≠ 61)).drop 1

/-- `raw_url.substr(0, raw_url.find("?"))`. -/
def urlPath (target : Bytes) : Bytes := target.takeWhile (· ≠ 63)

/-- The byte stands for itself in the value of a parameter. -/
def isPlainQuery (c : UInt8) : Bool := !endsQuery c && c ≠ 37 && c ≠ 43

example : urlParam (ascii "key") (ascii "/remove?skip=1&key=a%20b+c") = some (ascii "a b c") := by
  decide +kernel

/-- A plain value is not changed. -/
theorem qsDecode_of_plain {s : Bytes} (h : ∀ c ∈ s, isPlainQuery c = true) : qsDecode s = s := by
  induction s with
  | nil => rfl
  | cons c s ih =>
    have hc := h c List.mem_cons_self
    simp only [isPlainQuery, Bool.and_eq_true, Bool.not_eq_true', decide_eq_true_eq] at hc
    obtain ⟨⟨hends, hpercent⟩, hplus⟩ := hc
    rw [qsDecode, if_neg (by simp [hends]), if_neg hplus,
      ih fun d hd => h d (List.mem_cons_of_mem c hd)]
    · rintro a b t rfl
      exact absurd rfl hpercent
    · rintro rfl
      exact absurd rfl hpercent

/-- No plain value holds a byte that ends it. -/
theorem not_mem_of_plain {s : Bytes} (h : ∀ c ∈ s, isPlainQuery c = true) (c : UInt8)
    (hc : endsQuery c = true) : c ∉ s := by
  intro hmem
  have hplain := h c hmem
  simp [isPlainQuery, hc] at hplain

/-- A plain name is found in front of its equals sign. -/
theorem qsMatches_self {name : Bytes} (h : ∀ c ∈ name, isPlainQuery c = true) (value : Bytes) :
    qsMatches name (name ++ 61 :: value) = true := by
  induction name with
  | nil => rfl
  | cons c name ih =>
    have hc := h c List.mem_cons_self
    simp only [isPlainQuery, Bool.and_eq_true, Bool.not_eq_true', decide_eq_true_eq] at hc
    obtain ⟨⟨hends, hpercent⟩, hplus⟩ := hc
    rw [List.cons_append, qsMatches, hends, if_neg hplus,
      ih fun d hd => h d (List.mem_cons_of_mem c hd)]
    · simp
    · rintro a b t rfl
      exact absurd rfl hpercent
    · rintro rfl
      exact absurd rfl hpercent

/-- The text up to the first equals sign. -/
theorem dropWhile_equals {name : Bytes} (h : (61 : UInt8) ∉ name) (value : Bytes) :
    (name ++ 61 :: value).dropWhile (· ≠ 61) = 61 :: value := by
  have hall : ∀ c ∈ name, decide (c ≠ 61) = true := by
    intro c hc
    simpa using fun heq : c = 61 => h (heq ▸ hc)
  rw [List.dropWhile_append_of_pos hall]
  simp

/-- A part with a plain name and a plain value is not changed. -/
theorem qsPart_of_plain {name value : Bytes} (hname : ∀ c ∈ name, isPlainQuery c = true)
    (hvalue : ∀ c ∈ value, isPlainQuery c = true) :
    qsPart (name ++ 61 :: value) = name ++ 61 :: value := by
  have hall : ∀ c ∈ name, (decide (c ≠ 61) && decide (c ≠ 35)) = true := by
    intro c hc
    have hne : ∀ d, endsQuery d = true → c ≠ d := fun d hd heq =>
      not_mem_of_plain hname d hd (heq ▸ hc)
    simpa using ⟨hne 61 rfl, hne 35 rfl⟩
  have htake : (name ++ 61 :: value).takeWhile (fun c => c ≠ 61 && c ≠ 35) = name := by
    rw [List.takeWhile_append_of_pos hall]
    simp
  have hzero : (0 : UInt8) ∉ name ++ 61 :: value := by
    simp [not_mem_of_plain hname 0 rfl, not_mem_of_plain hvalue 0 rfl]
  unfold qsPart
  simp only [htake, List.drop_left, qsDecode_of_plain hvalue]
  exact cstr_eq_self hzero

/-- A target with one plain parameter gives the parameter as it stands. -/
theorem urlParam_single {path name value : Bytes} (hquestion : (63 : UInt8) ∉ path)
    (hhash : (35 : UInt8) ∉ path) (hend : (0 : UInt8) ∉ path)
    (hname : ∀ c ∈ name, isPlainQuery c = true) (hvalue : ∀ c ∈ value, isPlainQuery c = true) :
    urlParam name (path ++ 63 :: (name ++ 61 :: value)) = some value := by
  have hzero : (0 : UInt8) ∉ path ++ 63 :: (name ++ 61 :: value) := by
    simp [hend, not_mem_of_plain hname 0 rfl, not_mem_of_plain hvalue 0 rfl]
  have hall : ∀ c ∈ path, (decide (c ≠ 63) && decide (c ≠ 35)) = true := by
    intro c hc
    simpa using ⟨fun h : c = 63 => hquestion (h ▸ hc), fun h : c = 35 => hhash (h ▸ hc)⟩
  have hdrop : (path ++ 63 :: (name ++ 61 :: value)).dropWhile (fun c => c ≠ 63 && c ≠ 35) =
      63 :: (name ++ 61 :: value) := by
    rw [List.dropWhile_append_of_pos hall]
    simp
  have hamp : (38 : UInt8) ∉ name ++ 61 :: value := by
    simp [not_mem_of_plain hname 38 rfl, not_mem_of_plain hvalue 38 rfl]
  have hparts : qsParts (path ++ 63 :: (name ++ 61 :: value)) = [name ++ 61 :: value] := by
    unfold qsParts
    rw [cstr_eq_self hzero, hdrop]
    simp only [List.splitOn_eq_singleton hamp]
    exact congrArg (fun part => [part]) (qsPart_of_plain hname hvalue)
  unfold urlParam
  rw [hparts, List.find?_cons_of_pos (qsMatches_self hname value), Option.map_some,
    dropWhile_equals (not_mem_of_plain hname 61 rfl)]
  rfl

end Quarks
