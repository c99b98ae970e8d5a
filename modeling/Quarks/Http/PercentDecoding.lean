import Quarks.Http.Files

/-!
# Percent decoding

`uri_decode` goes through a text by an index, which skips the two digits behind a percent
sign. It ends on every text, and gives back what an encoder has written, whichever bytes the
encoder has kept as they are.
-/

namespace Quarks

/-! ## The loop -/

/-- One turn of the loop of `uri_decode`: what is appended, and the index of the next turn. -/
def uriTurn (encoded : Bytes) (i : ℕ) : Bytes × ℕ :=
  match encoded.drop i with
  | [] => ([], i + 1)
  | c :: s =>
    if c = 37 then
      match s with
      | a :: b :: _ =>
        if isHexDigit a && isHexDigit b then
          ([UInt8.ofNat (16 * fromHex a + fromHex b)], i + 2 + 1)
        else ([], i + 1)
      | _ => ([], i + 1)
    else ([if c = 43 then 32 else c], i + 1)

/-- The loop of `uri_decode` with a bound on its turns, from an index on and with what has been
decoded: `none` if the bound is too small. -/
def uriLoop (encoded : Bytes) : ℕ → ℕ → Bytes → Option Bytes
  | 0, _, _ => none
  | fuel + 1, i, decoded =>
    if i < encoded.length then
      uriLoop encoded fuel (uriTurn encoded i).2 (decoded ++ (uriTurn encoded i).1)
    else some decoded

/-- A byte that is no percent sign is decoded on its own. -/
theorem uriDecode_cons {c : UInt8} (hc : c ≠ 37) (s : Bytes) :
    uriDecode (c :: s) = (if c = 43 then 32 else c) :: uriDecode s := by
  by_cases hplus : c = 43
  · subst hplus
    rfl
  · rw [if_neg hplus]
    exact uriDecode.eq_4 c s (fun _ _ _ h _ => hc h) hc hplus

/-- A turn decodes what is left of the text up to the next index. -/
theorem uriTurn_spec {encoded : Bytes} {i : ℕ} (h : i < encoded.length) :
    i < (uriTurn encoded i).2 ∧ (uriTurn encoded i).2 ≤ encoded.length ∧
      uriDecode (encoded.drop i) =
        (uriTurn encoded i).1 ++ uriDecode (encoded.drop (uriTurn encoded i).2) := by
  have hlen : (encoded.drop i).length = encoded.length - i := List.length_drop
  have hnext : ∀ k, encoded.drop (i + k) = (encoded.drop i).drop k := fun k => by
    rw [List.drop_drop]
  unfold uriTurn
  cases hrest : encoded.drop i with
  | nil =>
    rw [hrest, List.length_nil] at hlen
    omega
  | cons c s =>
    rw [hrest, List.length_cons] at hlen
    simp only
    by_cases hc : c = 37
    · subst hc
      rw [if_pos rfl]
      match s with
      | a :: b :: t =>
        simp only [List.length_cons] at hlen ⊢
        by_cases hhex : (isHexDigit a && isHexDigit b) = true
        · rw [if_pos hhex, uriDecode, if_pos hhex]
          refine ⟨by omega, by omega, ?_⟩
          rw [add_assoc, hnext, hrest]
          rfl
        · rw [if_neg hhex, uriDecode, if_neg hhex]
          refine ⟨by omega, by omega, ?_⟩
          rw [hnext, hrest]
          rfl
      | [a] => exact ⟨Nat.lt_succ_self i, h, by rw [hnext, hrest]; rfl⟩
      | [] => exact ⟨Nat.lt_succ_self i, h, by rw [hnext, hrest]; rfl⟩
    · rw [if_neg hc, uriDecode_cons hc]
      refine ⟨by simp, by omega, ?_⟩
      rw [hnext, hrest]
      rfl

/-- With a bound that is large enough, the loop appends what is left of the text, decoded. -/
theorem uriLoop_eq {encoded : Bytes} {fuel i : ℕ} (hi : i ≤ encoded.length)
    (hfuel : encoded.length - i < fuel) (decoded : Bytes) :
    uriLoop encoded fuel i decoded = some (decoded ++ uriDecode (encoded.drop i)) := by
  induction fuel generalizing i decoded with
  | zero => omega
  | succ fuel ih =>
    rw [uriLoop]
    split
    · next hlt =>
      obtain ⟨hgrows, hbound, hdecode⟩ := uriTurn_spec hlt
      rw [ih hbound (by omega), hdecode, List.append_assoc]
    · next hge =>
      rw [List.drop_eq_nil_of_le (by omega), uriDecode, List.append_nil]

/-- No turn appends more than one byte, and each passes one at least. -/
theorem length_uriDecode_le (s : Bytes) : (uriDecode s).length ≤ s.length := by
  induction s using uriDecode.induct with
  | case1 a b s hhex ih =>
    rw [uriDecode, if_pos hhex]
    simp only [List.length_cons]
    omega
  | case2 a b s hhex ih =>
    rw [uriDecode, if_neg hhex]
    simp only [List.length_cons] at ih ⊢
    omega
  | case3 s hs ih =>
    rw [uriDecode.eq_2 s hs]
    exact ih.trans (Nat.le_succ _)
  | case4 s ih => exact Nat.succ_le_succ ih
  | case5 c s _ hpercent hplus ih =>
    rw [uriDecode_cons hpercent]
    exact Nat.succ_le_succ ih
  | case6 => exact le_rfl

/-! ## Encoding -/

/-- What an encoder may write for a byte: the byte itself, unless it is a percent or a plus
sign, a plus sign for a space, or a percent sign and two digits of the byte. -/
inductive EncodesByte : UInt8 → Bytes → Prop
  | kept {c : UInt8} (hpercent : c ≠ 37) (hplus : c ≠ 43) : EncodesByte c [c]
  | space : EncodesByte 32 [43]
  | digits {a b : UInt8} (ha : isHexDigit a = true) (hb : isHexDigit b = true) :
    EncodesByte (UInt8.ofNat (16 * fromHex a + fromHex b)) [37, a, b]

/-- A text is encoded byte by byte. -/
def Encodes (s encoded : Bytes) : Prop :=
  ∃ pieces, List.Forall₂ EncodesByte s pieces ∧ encoded = pieces.flatten

/-- A byte is decoded whatever follows. -/
theorem EncodesByte.uriDecode_append {c : UInt8} {piece : Bytes} (h : EncodesByte c piece)
    (rest : Bytes) : uriDecode (piece ++ rest) = c :: uriDecode rest := by
  cases h with
  | kept hpercent hplus => exact (uriDecode_cons hpercent rest).trans (by rw [if_neg hplus])
  | space => rfl
  | digits ha hb => exact (uriDecode.eq_1 _ _ rest).trans (if_pos (by rw [ha, hb]; rfl))

theorem Encodes.uriDecode_eq {s encoded : Bytes} (h : Encodes s encoded) :
    uriDecode encoded = s := by
  obtain ⟨pieces, hpieces, rfl⟩ := h
  induction hpieces with
  | nil => rfl
  | cons hpiece _ ih => rw [List.flatten_cons, hpiece.uriDecode_append, ih]

/-- The loop ends on every text, with a text that is not longer, and with the text that has been
encoded if there is one. -/
theorem uriDecode_inverts_encoding (encoded : Bytes) :
    (∃ decoded, uriLoop encoded (encoded.length + 1) 0 [] = some decoded ∧
      decoded.length ≤ encoded.length) ∧
    ∀ s, Encodes s encoded → uriLoop encoded (encoded.length + 1) 0 [] = some s := by
  have hloop : uriLoop encoded (encoded.length + 1) 0 [] = some (uriDecode encoded) :=
    uriLoop_eq (Nat.zero_le _) (by omega) []
  refine ⟨⟨uriDecode encoded, hloop, length_uriDecode_le encoded⟩, fun s hs => ?_⟩
  rw [hloop, hs.uriDecode_eq]

/-- The theorem at the text `a /`, written with a plus sign and with the digits of the slash. -/
theorem uriDecode_inverts_encoding_slash :
    uriLoop [97, 43, 37, 50, 70] 6 0 [] = some [97, 32, 47] :=
  (uriDecode_inverts_encoding [97, 43, 37, 50, 70]).2 [97, 32, 47]
    ⟨[[97], [43], [37, 50, 70]], .cons (.kept (by decide) (by decide)) (.cons .space
      (.cons (.digits (a := 50) (b := 70) (by decide) (by decide)) .nil)), rfl⟩

end Quarks
