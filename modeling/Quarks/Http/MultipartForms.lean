import Quarks.UploadedFiles
import Mathlib.Algebra.Order.BigOperators.Group.List

/-!
# Multipart forms

The content of a file ends in front of the line break that belongs to the next delimiter. The
handler takes it up to the last character that is a carriage return, a line feed or a hyphen,
which is the line feed of this line break: each file is stored with a carriage return too many.
-/

namespace Quarks

open Basis

/-! ## Searching -/

section

variable {pat s t : Bytes} {i j pos : ℕ}

/-- A text that occurs at a place is found there or before. -/
theorem find_le (h : pat <+: s.drop j) : ∃ i, i ≤ j ∧ find pat s = some i := by
  induction s generalizing j with
  | nil =>
    rw [List.drop_nil] at h
    exact ⟨0, Nat.zero_le _, by rw [find, if_pos (List.prefix_nil.mp h)]⟩
  | cons c s ih =>
    rw [find]
    by_cases hpre : pat.isPrefixOf (c :: s) = true
    · exact ⟨0, Nat.zero_le _, if_pos hpre⟩
    · rw [if_neg hpre]
      cases j with
      | zero => exact absurd (List.isPrefixOf_iff_prefix.mpr h) hpre
      | succ j =>
        obtain ⟨i, hi, hfind⟩ := ih h
        exact ⟨i + 1, by omega, by rw [hfind]; rfl⟩

theorem occurs {u v : Bytes} (h : s = u ++ (pat ++ v)) : pat <+: s.drop u.length := by
  rw [h, List.drop_left]
  exact List.prefix_append pat v

theorem findFrom_le (hpos : pos ≤ j) (h : pat <+: s.drop j) :
    ∃ i, i ≤ j ∧ findFrom pat s pos = some i := by
  have hdrop : pat <+: (s.drop pos).drop (j - pos) := by
    rw [List.drop_drop, Nat.add_sub_cancel' hpos]
    exact h
  obtain ⟨i, hi, hfind⟩ := find_le hdrop
  exact ⟨pos + i, by omega, by rw [findFrom, hfind]; rfl⟩

theorem find_isPrefix (h : find pat s = some i) : pat <+: s.drop i := by
  induction s generalizing i with
  | nil =>
    rw [find] at h
    split at h
    · next hpat => exact hpat ▸ List.nil_prefix
    · cases h
  | cons c s ih =>
    rw [find] at h
    split at h
    · next hpre =>
      obtain rfl := Option.some.inj h
      exact List.isPrefixOf_iff_prefix.mp hpre
    · obtain ⟨i, hfind, rfl⟩ := Option.map_eq_some_iff.mp h
      exact ih hfind

theorem find_eq_none_iff : find pat s = none ↔ ¬pat <:+: s := by
  constructor
  · rintro h ⟨u, v, rfl⟩
    have hoccurs : pat <+: (u ++ pat ++ v).drop u.length := by
      rw [List.append_assoc, List.drop_left]
      exact List.prefix_append pat v
    obtain ⟨i, -, hfind⟩ := find_le hoccurs
    rw [h] at hfind
    cases hfind
  · intro h
    by_contra hfind
    obtain ⟨i, hi⟩ := Option.ne_none_iff_exists'.mp hfind
    exact h ((find_isPrefix hi).isInfix.trans (List.drop_suffix i s).isInfix)

/-- The last place of a character of a set is the end of the text, if the text ends with one. -/
theorem findLastOf_append {chars : Bytes} {c : UInt8} (h : chars.contains c = true) (s : Bytes) :
    findLastOf chars (s ++ [c]) = some s.length := by
  induction s with
  | nil => simp [findLastOf, List.contains_iff_mem.mp h]
  | cons a s ih =>
    rw [List.cons_append, findLastOf, ih]
    rfl

theorem findLastOf_end {chars front : Bytes} {c : UInt8} (h : chars.contains c = true)
    (hs : s = front ++ [c]) : findLastOf chars s = some (s.length - 1) := by
  rw [hs, findLastOf_append h, List.length_append, List.length_singleton, Nat.add_sub_cancel]

theorem substrTo_isInfix (start : ℕ) (stop : Option ℕ) : substrTo s start stop <:+: s := by
  have hdrop : s.drop start <:+: s := (List.drop_suffix start s).isInfix
  cases stop with
  | none => exact hdrop
  | some e =>
    rw [substrTo, Option.elim_some]
    split
    · exact (List.take_prefix _ _).isInfix.trans hdrop
    · exact hdrop

end

/-! ## Pieces -/

section

variable {d part s : Bytes}

theorem partsFrom_skip (u rest : Bytes) :
    partsFrom d u.length part (u ++ rest) = partsFrom d 0 part rest := by
  induction u with
  | nil => rfl
  | cons c u ih => exact ih

/-- A piece is no longer than the text. -/
theorem length_piece_le {skip : ℕ} {piece : Bytes} (h : piece ∈ partsFrom d skip part s) :
    piece.length ≤ part.length + s.length := by
  induction s generalizing skip part with
  | nil => cases skip <;> cases h
  | cons c s ih =>
    cases skip with
    | succ skip =>
      have hle := ih h
      rw [List.length_cons]
      omega
    | zero =>
      rw [partsFrom] at h
      split at h
      · rcases List.mem_cons.mp h with rfl | h
        · exact Nat.le_add_right _ _
        · have hle := ih h
          simp only [List.length_nil, List.length_cons] at hle ⊢
          omega
      · have hle := ih h
        simp only [List.length_append, List.length_cons, List.length_nil] at hle ⊢
        omega

/-- In what has been passed since the last delimiter none begins. -/
def NoneBegins (d part s : Bytes) : Prop := ∀ u v, part = u ++ v → v ≠ [] → ¬d <+: v ++ s

theorem noneBegins_nil (d s : Bytes) : NoneBegins d [] s :=
  fun _ _ h hv => absurd (List.append_eq_nil_iff.mp h.symm).2 hv

theorem NoneBegins.concat {c : UInt8} (h : NoneBegins d part (c :: s)) (hc : ¬d <+: c :: s) :
    NoneBegins d (part ++ [c]) s := by
  intro u v hpart hv
  obtain rfl | ⟨v, c', rfl⟩ := v.eq_nil_or_concat'
  · exact absurd rfl hv
  · rw [← List.append_assoc] at hpart
    obtain ⟨hfront, hlast⟩ := List.append_inj' hpart rfl
    obtain rfl : c = c' := List.singleton_inj.mp hlast
    rw [List.append_assoc]
    by_cases hnil : v = []
    · subst hnil
      exact hc
    · exact h u v hfront hnil

/-- The delimiter does not occur in a piece. -/
theorem not_isInfix_of_mem_partsFrom {skip : ℕ} {piece : Bytes} (hd : d ≠ [])
    (hskip : skip = 0 ∨ part = []) (hpart : NoneBegins d part s)
    (h : piece ∈ partsFrom d skip part s) : ¬d <:+: piece := by
  induction s generalizing skip part with
  | nil => cases skip <;> cases h
  | cons c s ih =>
    cases skip with
    | succ skip =>
      obtain rfl : part = [] := hskip.resolve_left (Nat.succ_ne_zero skip)
      exact ih (Or.inr rfl) (noneBegins_nil d s) h
    | zero =>
      rw [partsFrom] at h
      split at h
      · rcases List.mem_cons.mp h with rfl | h
        · rintro ⟨u, w, hpiece⟩
          refine hpart u (d ++ w) (by rw [← hpiece, List.append_assoc]) ?_ ?_
          · exact fun hnil => hd (List.append_eq_nil_iff.mp hnil).1
          · rw [List.append_assoc]
            exact List.prefix_append _ _
        · exact ih (Or.inr rfl) (noneBegins_nil d s) h
      · next hpre =>
        refine ih (Or.inl rfl) (hpart.concat fun h => hpre ?_) h
        exact List.isPrefixOf_iff_prefix.mpr h

/-- A delimiter as the handler makes it: it begins with a hyphen, and as a part of a header value
it has no line break. -/
structure IsDelimiter (d : Bytes) : Prop where
  hyphen : ∃ d', d = 45 :: d'
  line : (13 : UInt8) ∉ d

variable (hd : IsDelimiter d)

include hd

/-- No delimiter reaches over a line break. -/
theorem IsDelimiter.isPrefix_append {seg rest : Bytes} :
    d.isPrefixOf (seg ++ 13 :: rest) = d.isPrefixOf seg := by
  rw [Bool.eq_iff_iff, List.isPrefixOf_iff_prefix, List.isPrefixOf_iff_prefix]
  refine ⟨fun h => ?_, fun h => h.trans (List.prefix_append _ _)⟩
  rcases Nat.le_total d.length seg.length with hle | hle
  · exact List.prefix_of_prefix_length_le h (List.prefix_append _ _) hle
  · have hbreak : seg <+: d := List.prefix_of_prefix_length_le (List.prefix_append _ _) h hle
    obtain ⟨d', rfl⟩ := hbreak
    cases d' with
    | nil => rw [List.append_nil]
    | cons c d' =>
      obtain ⟨w, hw⟩ := h
      rw [List.append_assoc] at hw
      obtain rfl : c = 13 := (List.cons.inj (List.append_cancel_left hw)).1
      exact absurd (List.mem_append_right seg List.mem_cons_self) hd.line

/-- A delimiter behind a line break ends a piece. -/
theorem IsDelimiter.partsFrom_break (rest : Bytes) :
    partsFrom d 0 part (13 :: 10 :: (d ++ rest)) =
      (part ++ [13, 10]) :: partsFrom d 0 [] rest := by
  obtain ⟨d', rfl⟩ := hd.hyphen
  have hfound : (45 :: d').isPrefixOf (45 :: (d' ++ rest)) = true :=
    List.isPrefixOf_iff_prefix.mpr (List.prefix_append _ _)
  have hcr : (45 :: d').isPrefixOf (13 :: 10 :: (45 :: d' ++ rest)) = false := rfl
  have hlf : (45 :: d').isPrefixOf (10 :: (45 :: d' ++ rest)) = false := rfl
  rw [partsFrom, if_neg (by rw [hcr]; decide), partsFrom, if_neg (by rw [hlf]; decide),
    List.cons_append, partsFrom, if_pos hfound, List.append_assoc]
  exact congrArg _ (partsFrom_skip d' rest)

theorem IsDelimiter.partsFrom_cons {c : UInt8} {seg rest : Bytes} :
    partsFrom d 0 part (c :: seg ++ 13 :: rest) =
      if d.isPrefixOf (c :: seg) then part :: partsFrom d (d.length - 1) [] (seg ++ 13 :: rest)
      else partsFrom d 0 (part ++ [c]) (seg ++ 13 :: rest) := by
  rw [← hd.isPrefix_append]
  rfl

/-- Up to a delimiter behind a line break, the pieces are those of the text in front of it. -/
theorem IsDelimiter.partsFrom_append {skip : ℕ} {seg rest : Bytes} (hskip : skip ≤ seg.length) :
    partsFrom d skip part (seg ++ 13 :: 10 :: (d ++ rest)) =
      partsFrom d skip part (seg ++ 13 :: 10 :: (d ++ [])) ++ partsFrom d 0 [] rest := by
  induction seg generalizing skip part with
  | nil =>
    obtain rfl : skip = 0 := Nat.le_zero.mp hskip
    rw [List.nil_append, List.nil_append, hd.partsFrom_break, hd.partsFrom_break]
    rfl
  | cons c seg ih =>
    cases skip with
    | succ skip => exact ih (Nat.le_of_succ_le_succ hskip)
    | zero =>
      rw [hd.partsFrom_cons, hd.partsFrom_cons]
      split
      · next hpre =>
        have hle := (List.isPrefixOf_iff_prefix.mp hpre).length_le
        rw [List.length_cons] at hle
        rw [ih (by omega), List.cons_append]
      · exact ih (Nat.zero_le _)

/-- A text without the delimiter, and the line break behind it, are one piece. -/
theorem IsDelimiter.partsFrom_self {seg rest : Bytes} (hseg : ¬d <:+: seg) :
    partsFrom d 0 part (seg ++ 13 :: 10 :: (d ++ rest)) =
      (part ++ seg ++ [13, 10]) :: partsFrom d 0 [] rest := by
  induction seg generalizing part with
  | nil => rw [List.nil_append, hd.partsFrom_break, List.append_nil]
  | cons c seg ih =>
    have hpre : ¬d.isPrefixOf (c :: seg) = true := by
      rw [List.isPrefixOf_iff_prefix]
      exact fun h => hseg h.isInfix
    rw [hd.partsFrom_cons, if_neg hpre, ih fun h => hseg (h.trans (List.suffix_cons c seg).isInfix)]
    simp

end

/-! ## Forms -/

/-- A part of a form: a file or a plain field. -/
inductive FormPart
  | file (name filename mimeType content : Bytes)
  | plain (name content : Bytes)

/-- The header of a part. -/
def FormPart.header : FormPart → Bytes
  | .file name filename mimeType _ =>
    ascii "Content-Disposition: form-data; name=\"" ++ name ++ ascii "\"; " ++
      (ascii "filename=" ++
        34 :: (filename ++ 34 :: (13 :: 10 :: (ascii "Content-Type: " ++ mimeType))))
  | .plain name _ => ascii "Content-Disposition: form-data; name=\"" ++ name ++ [34]

def FormPart.content : FormPart → Bytes
  | .file _ _ _ content => content
  | .plain _ content => content

/-- The files that a part stands for, by their contents. -/
def FormPart.files : FormPart → List Bytes
  | .file _ _ _ content => [content]
  | .plain _ _ => []

/-- What stands between two delimiters, up to the line break that belongs to the second one. -/
def FormPart.text (part : FormPart) : Bytes :=
  13 :: 10 :: (part.header ++ (13 :: 10 :: 13 :: 10 :: part.content))

/-- `multipart/form-data`: each part stands behind a delimiter, and another one closes the form. -/
def multipartBody (d : Bytes) : List FormPart → Bytes
  | [] => d ++ ascii "--\r\n"
  | part :: parts => d ++ (part.text ++ 13 :: 10 :: multipartBody d parts)

/-- The delimiter of a form. -/
def delimiter (boundary : Bytes) : Bytes := ascii "--" ++ boundary

/-- The header `Content-Type` of a form. -/
def formContentType (boundary : Bytes) : Bytes :=
  ascii "multipart/form-data; boundary=" ++ boundary

/-- The texts between the occurrences of the delimiter in a part. If it occurs in none, this is
the text of the part with its line break. -/
def FormPart.pieces (d : Bytes) (part : FormPart) : List Bytes :=
  partsFrom d 0 [] (part.text ++ 13 :: 10 :: (d ++ []))

/-- The contents of the files that are found in some pieces. -/
def filesIn (pieces : List Bytes) : List Bytes :=
  pieces.filterMap fun piece => (partFile piece).map Prod.snd

/-- The request stores a file for each one of the form, in order, with its content. -/
def UploadReturns (host : Host) (unique : Bool) (boundary : Bytes) (parts : List FormPart) : Prop :=
  (fileupload host unique (formContentType boundary)
    (multipartBody (delimiter boundary) parts)).stored.map Prod.snd = parts.flatMap FormPart.files

instance (host : Host) (unique : Bool) (boundary : Bytes) (parts : List FormPart) :
    Decidable (UploadReturns host unique boundary parts) :=
  inferInstanceAs (Decidable (_ = _))

section

variable {d : Bytes} {host : Host}

theorem isDelimiter_delimiter {boundary : Bytes} (h : (13 : UInt8) ∉ boundary) :
    IsDelimiter (delimiter boundary) := by
  refine ⟨⟨45 :: boundary, rfl⟩, fun hmem => ?_⟩
  rcases List.mem_append.mp hmem with hmem | hmem
  · exact absurd hmem (by decide)
  · exact h hmem

theorem partFile_eq_none_iff {piece : Bytes} :
    partFile piece = none ↔ ¬ascii "filename=" <:+: piece := by
  rw [partFile, Option.map_eq_none_iff, find_eq_none_iff]

theorem filesIn_eq_nil_iff {pieces : List Bytes} :
    filesIn pieces = [] ↔ ∀ piece ∈ pieces, ¬ascii "filename=" <:+: piece := by
  rw [filesIn, List.filterMap_eq_nil_iff]
  refine forall₂_congr fun piece _ => ?_
  rw [Option.map_eq_none_iff, partFile_eq_none_iff]

theorem filesIn_append (pieces pieces' : List Bytes) :
    filesIn (pieces ++ pieces') = filesIn pieces ++ filesIn pieces' := List.filterMap_append

/-- Behind the first delimiter of a form, the files that are found are those of its parts. -/
theorem multipartBody_eq (hd : IsDelimiter d) (parts : List FormPart) :
    ∃ rest, multipartBody d parts = d ++ rest ∧ filesIn (partsFrom d 0 [] rest) =
      parts.flatMap fun part => filesIn (part.pieces d) := by
  induction parts with
  | nil =>
    refine ⟨_, rfl, filesIn_eq_nil_iff.mpr fun piece hpiece hname => ?_⟩
    have hlong := hname.length_le
    have hshort := length_piece_le hpiece
    exact absurd (hlong.trans hshort) (by decide)
  | cons part parts ih =>
    obtain ⟨rest, hbody, hfiles⟩ := ih
    refine ⟨_, rfl, ?_⟩
    rw [hbody, hd.partsFrom_append (Nat.zero_le _), filesIn_append, hfiles]
    rfl

/-- The files that are found in a form are those of its parts. -/
theorem filesIn_multipartBody (hd : IsDelimiter d) (parts : List FormPart) :
    filesIn (partsFrom d 0 [] (multipartBody d parts)) =
      parts.flatMap fun part => filesIn (part.pieces d) := by
  obtain ⟨rest, hbody, hfiles⟩ := multipartBody_eq hd parts
  obtain ⟨d', rfl⟩ := hd.hyphen
  have hfound : (45 :: d').isPrefixOf (45 :: (d' ++ rest)) = true :=
    List.isPrefixOf_iff_prefix.mpr (List.prefix_append _ _)
  have hskip : partsFrom (45 :: d') d'.length [] (d' ++ rest) = partsFrom (45 :: d') 0 [] rest :=
    partsFrom_skip d' rest
  rw [hbody, List.cons_append, partsFrom, if_pos hfound, List.length_cons, Nat.add_sub_cancel,
    hskip, ← hfiles]
  rfl

/-- On a host where all files can be written, the files that are found are stored. -/
theorem saveParts_stored (hwrite : ∀ path, host.canWrite path = true) (unique : Bool) (i : ℕ)
    (pieces : List Bytes) (fileNames : Bytes) :
    (saveParts host unique i pieces fileNames).stored.map Prod.snd = filesIn pieces := by
  induction pieces generalizing i fileNames with
  | nil => rfl
  | cons piece pieces ih =>
    unfold saveParts
    cases hfile : partFile piece with
    | none =>
      simp only
      rw [ih, filesIn, filesIn, List.filterMap_cons_none (by rw [hfile]; rfl)]
    | some file =>
      simp only [hwrite, if_true, List.map_cons]
      rw [ih, filesIn, filesIn, List.filterMap_cons_some (by rw [hfile]; rfl)]

theorem uploadParts_form (hhost : host.hasUploads = true) (boundary body : Bytes) :
    uploadParts host (formContentType boundary) body =
      .ok (partsFrom (delimiter boundary) 0 [] body) := by
  have htype : find (ascii "multipart/form-data") (formContentType boundary) = some 0 := by
    rfl
  have hboundary : find (ascii "boundary=") (formContentType boundary) = some 21 := by
    rfl
  have hdrop : (formContentType boundary).drop (21 + 9) = boundary := rfl
  rw [uploadParts, if_pos hhost, htype, hboundary]
  simp only [hdrop]
  rfl

/-- What a text is cut to is one of its pieces. -/
theorem files_isInfix {pieces : List Bytes} {content : Bytes} (h : content ∈ filesIn pieces) :
    ∃ piece ∈ pieces, content <:+: piece := by
  obtain ⟨piece, hpiece, hcontent⟩ := List.mem_filterMap.mp h
  obtain ⟨file, hfile, rfl⟩ := Option.map_eq_some_iff.mp hcontent
  obtain ⟨pos, -, rfl⟩ := Option.map_eq_some_iff.mp hfile
  exact ⟨piece, hpiece, substrTo_isInfix _ _⟩

/-- From a text with a name in quotes and a content, a content is taken that is longer. -/
theorem partFile_longer (u filename w content : Bytes) :
    ∃ file, partFile (u ++ (ascii "filename=" ++ 34 :: (filename ++ 34 :: (w ++
      ([13, 10, 13, 10] ++ (content ++ [13, 10])))))) = some file ∧
      content.length < file.2.length := by
  set piece := u ++ (ascii "filename=" ++ 34 :: (filename ++ 34 :: (w ++
    ([13, 10, 13, 10] ++ (content ++ [13, 10]))))) with hpiece
  have hnine : (ascii "filename=").length = 9 := rfl
  have hlength : piece.length = u.length + 9 + filename.length + w.length + content.length + 8 := by
    simp only [hpiece, List.length_append, List.length_cons, List.length_nil, hnine]
    omega
  -- each text is found where it stands or before
  obtain ⟨pos, hpos, hfind⟩ := find_le (occurs hpiece)
  have hquote : piece = (u ++ ascii "filename=") ++ ([34] ++ (filename ++ 34 :: (w ++
      ([13, 10, 13, 10] ++ (content ++ [13, 10]))))) := by simp [hpiece]
  obtain ⟨start, hstart, hopen⟩ := findFrom_le
    (show pos ≤ _ by rw [List.length_append]; omega) (occurs hquote)
  rw [List.length_append, hnine] at hstart
  have hquote' : piece = (u ++ ascii "filename=" ++ 34 :: filename) ++ ([34] ++ (w ++
      ([13, 10, 13, 10] ++ (content ++ [13, 10])))) := by simp [hpiece]
  obtain ⟨stop, hstop, hclose⟩ := findFrom_le
    (show start + 1 ≤ _ by simp only [List.length_append, List.length_cons, hnine]; omega)
    (occurs hquote')
  simp only [List.length_append, List.length_cons, hnine] at hstop
  have hempty : piece = (u ++ ascii "filename=" ++ 34 :: (filename ++ 34 :: w)) ++
      ([13, 10, 13, 10] ++ (content ++ [13, 10])) := by simp [hpiece]
  obtain ⟨line, hline, hblank⟩ := findFrom_le
    (show stop ≤ _ by simp only [List.length_append, List.length_cons, hnine]; omega)
    (occurs hempty)
  simp only [List.length_append, List.length_cons, hnine] at hline
  have hlast : piece = (u ++ ascii "filename=" ++ 34 :: (filename ++ 34 :: w) ++
      [13, 10, 13, 10] ++ content ++ [13]) ++ [10] := by simp [hpiece]
  have hend := @findLastOf_end _ [13, 10, 45] _ _ (by decide) hlast
  have hle : line + 4 ≤ piece.length - 1 := by omega
  refine ⟨_, by rw [partFile, hfind]; rfl, ?_⟩
  simp only [hopen, behind, Option.elim_some, hclose, Option.bind_some, hblank, hend, substrTo,
    if_pos hle, List.length_take, List.length_drop]
  omega

/-- A delimiter that occurs in two texts with a line break between them occurs in one of them. -/
theorem IsDelimiter.isInfix_append (hd : IsDelimiter d) {u v : Bytes}
    (h : d <:+: u ++ 13 :: 10 :: v) : d <:+: u ∨ d <:+: v := by
  obtain ⟨d', rfl⟩ := hd.hyphen
  have hno : ∀ {c : UInt8} {s : Bytes}, c ≠ 45 → 45 :: d' <:+: c :: s → 45 :: d' <:+: s := by
    intro c s hc h
    rcases List.infix_cons_iff.mp h with h | h
    · exact absurd (List.cons_prefix_cons.mp h).1.symm hc
    · exact h
  induction u with
  | nil => exact Or.inr (hno (by decide) (hno (by decide) h))
  | cons c u ih =>
    rw [List.cons_append] at h
    rcases List.infix_cons_iff.mp h with h | h
    · have hpre := List.isPrefixOf_iff_prefix.mpr h
      rw [← List.cons_append, hd.isPrefix_append] at hpre
      exact Or.inl (List.isPrefixOf_iff_prefix.mp hpre).isInfix
    · exact (ih h).imp_left fun h => h.trans (List.suffix_cons c u).isInfix

/-- A part whose header and content are free of the delimiter is one piece. -/
theorem FormPart.pieces_eq (hd : IsDelimiter d) {part : FormPart} (hheader : ¬d <:+: part.header)
    (hcontent : ¬d <:+: part.content) : part.pieces d = [part.text ++ [13, 10]] := by
  have htext : ¬d <:+: part.text := by
    intro h
    rcases hd.isInfix_append (u := []) h with h | h
    · obtain ⟨d', rfl⟩ := hd.hyphen
      exact absurd (List.infix_nil.mp h) (List.cons_ne_nil _ _)
    · rcases hd.isInfix_append h with h | h
      · exact hheader h
      · rcases hd.isInfix_append (u := []) h with h | h
        · obtain ⟨d', rfl⟩ := hd.hyphen
          exact absurd (List.infix_nil.mp h) (List.cons_ne_nil _ _)
        · exact hcontent h
  rw [FormPart.pieces, hd.partsFrom_self htext]
  rfl

/-- From a file part whose text is free of the delimiter, a longer content is taken. -/
theorem files_longer (hd : IsDelimiter d) {name filename mimeType content : Bytes}
    (hheader : ¬d <:+: (FormPart.file name filename mimeType content).header)
    (hcontent : ¬d <:+: content) :
    ∃ longer, filesIn ((FormPart.file name filename mimeType content).pieces d) = [longer] ∧
      content.length < longer.length := by
  obtain ⟨file, hfile, hlonger⟩ := partFile_longer
    (13 :: 10 :: (ascii "Content-Disposition: form-data; name=\"" ++ name ++ ascii "\"; ")) filename
    (13 :: 10 :: (ascii "Content-Type: " ++ mimeType)) content
  have hpiece : partFile ((FormPart.file name filename mimeType content).text ++ [13, 10]) =
      some file := by
    simpa [FormPart.text, FormPart.header, FormPart.content] using hfile
  refine ⟨file.2, ?_, hlonger⟩
  rw [FormPart.pieces_eq hd hheader hcontent, filesIn,
    List.filterMap_cons_some (by rw [hpiece]; rfl)]
  rfl

/-- If the contents of the files are those that are found, none of them has the delimiter in it. -/
theorem not_isInfix_content (hd : IsDelimiter d) {parts : List FormPart}
    (h : (parts.flatMap fun part => filesIn (part.pieces d)) = parts.flatMap FormPart.files)
    {name filename mimeType content : Bytes}
    (hpart : FormPart.file name filename mimeType content ∈ parts) : ¬d <:+: content := by
  have hmem : content ∈ parts.flatMap FormPart.files :=
    List.mem_flatMap.mpr ⟨_, hpart, List.mem_singleton_self content⟩
  rw [← h] at hmem
  obtain ⟨part, -, hfound⟩ := List.mem_flatMap.mp hmem
  obtain ⟨piece, hpiece, hinfix⟩ := files_isInfix hfound
  obtain ⟨d', rfl⟩ := hd.hyphen
  have hfree := not_isInfix_of_mem_partsFrom (List.cons_ne_nil 45 d') (Or.inl rfl)
    (noneBegins_nil _ _) hpiece
  exact fun hcontent => hfree (hcontent.trans hinfix)

theorem flatten_flatMap_length (f : FormPart → List Bytes) (parts : List FormPart) :
    (parts.flatMap f).flatten.length = (parts.map fun part => (f part).flatten.length).sum := by
  induction parts with
  | nil => rfl
  | cons part parts ih => simp only [List.flatMap_cons, List.flatten_append, List.length_append, ih,
      List.map_cons, List.sum_cons]

/-- If the contents of the files are those that are found, there is no file: what is found for
all files together would be longer. -/
theorem files_eq_nil (hd : IsDelimiter d) {parts : List FormPart}
    (hheader : ∀ part ∈ parts, ¬d <:+: part.header)
    (h : (parts.flatMap fun part => filesIn (part.pieces d)) = parts.flatMap FormPart.files) :
    ∀ part ∈ parts, part.files = [] := by
  have hlt : ∀ part ∈ parts, part.files ≠ [] →
      part.files.flatten.length < (filesIn (part.pieces d)).flatten.length := by
    intro part hpart hfile
    cases part with
    | plain name content => exact absurd rfl hfile
    | file name filename mimeType content =>
      obtain ⟨longer, hfound, hlonger⟩ :=
        files_longer hd (hheader _ hpart) (not_isInfix_content hd h hpart)
      rw [hfound]
      simpa [FormPart.files] using hlonger
  by_contra hno
  push Not at hno
  obtain ⟨part, hpart, hfile⟩ := hno
  have hsum := List.sum_lt_sum (fun part : FormPart => part.files.flatten.length)
    (fun part => (filesIn (part.pieces d)).flatten.length) (fun part hpart => ?_)
    ⟨part, hpart, hlt part hpart hfile⟩
  · rw [← flatten_flatMap_length, ← flatten_flatMap_length, h] at hsum
    exact lt_irrefl _ hsum
  · by_cases hnil : part.files = []
    · rw [hnil]
      exact Nat.zero_le _
    · exact (hlt part hpart hnil).le

end

/-- A form is stored byte for byte exactly if it has no file, and no piece of its plain fields
looks like one. -/
theorem uploadReturns_iff {host : Host} (hhost : host.hasUploads = true)
    (hwrite : ∀ path, host.canWrite path = true) (unique : Bool) {boundary : Bytes}
    (hline : (13 : UInt8) ∉ boundary) {parts : List FormPart}
    (hheader : ∀ part ∈ parts, ¬delimiter boundary <:+: part.header) :
    UploadReturns host unique boundary parts ↔
      ∀ part ∈ parts, part.files = [] ∧
        ∀ piece ∈ part.pieces (delimiter boundary), ¬ascii "filename=" <:+: piece := by
  have hd := isDelimiter_delimiter hline
  rw [UploadReturns, fileupload, uploadParts_form hhost]
  simp only
  rw [saveParts_stored hwrite, filesIn_multipartBody hd]
  constructor
  · intro h part hpart
    have hnone := files_eq_nil hd hheader h
    refine ⟨hnone part hpart, filesIn_eq_nil_iff.mp ?_⟩
    rw [List.flatMap_eq_nil_iff.mpr hnone] at h
    exact List.flatMap_eq_nil_iff.mp h part hpart
  · intro h
    rw [List.flatMap_eq_nil_iff.mpr fun part hpart => filesIn_eq_nil_iff.mpr (h part hpart).2,
      List.flatMap_eq_nil_iff.mpr fun part hpart => (h part hpart).1]

/-- A form with a plain field: nothing is stored for it. -/
theorem uploadReturns_iff_plain :
    UploadReturns emptyHost false (ascii "x") [.plain (ascii "a") (ascii "b")] ↔
      ∀ part ∈ [FormPart.plain (ascii "a") (ascii "b")], part.files = [] ∧
        ∀ piece ∈ part.pieces (delimiter (ascii "x")), ¬ascii "filename=" <:+: piece :=
  uploadReturns_iff rfl (fun _ => rfl) false (by decide) (by decide)

/-- An empty file is stored with a carriage return. -/
theorem not_uploadReturns_empty :
    ¬UploadReturns emptyHost false (ascii "x") [.file (ascii "f") (ascii "n") (ascii "t") []] := by
  decide +kernel

end Quarks
