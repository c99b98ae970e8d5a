import Quarks.Basis.Run
import Quarks.Json.RoundTrip

/-!
# The file of the elastic index

`ElasticSearch` keeps its index as JSON text in a file that it maps into memory. The
length of the file, the length of the mapping and the length of the text are three
numbers: a longer text makes the file and the mapping longer, but after a shorter text
only the file is cut, and the mapping then reaches past its end.
-/

namespace Quarks

open Basis

/-- The open file: its bytes, and `file_size`, the length of the mapping. -/
structure IndexFile where
  file : Bytes
  fileSize : ℕ

namespace IndexFile

/-- `ftruncate`: the file gets the length, its new bytes are zero. -/
def ftruncate (s : IndexFile) (length : ℕ) : IndexFile :=
  { s with file := s.file.take length ++ List.replicate (length - s.file.length) 0 }

/-- Writing bytes to the mapping; `none` if one of them lies past the end of the file. -/
def write (s : IndexFile) (offset : ℕ) (bytes : Bytes) : Option IndexFile :=
  if offset + bytes.length ≤ s.file.length then
    some { s with
      file := s.file.take offset ++ bytes ++ s.file.drop (offset + bytes.length) }
  else none

/-- Opening and mapping the file, in `loadIndex`. -/
def openFile (file : Bytes) : IndexFile :=
  if file.length = 0 then { (IndexFile.mk file 0).ftruncate 4096 with fileSize := 4096 }
  else ⟨file, file.length⟩

theorem write_of_le {s : IndexFile} {offset : ℕ} {bytes : Bytes}
    (h : offset + bytes.length ≤ s.file.length) :
    s.write offset bytes = some { s with
      file := s.file.take offset ++ bytes ++ s.file.drop (offset + bytes.length) } := if_pos h

theorem write_of_lt {s : IndexFile} {offset : ℕ} {bytes : Bytes}
    (h : s.file.length < offset + bytes.length) : s.write offset bytes = none :=
  if_neg (by omega)

theorem length_ftruncate (s : IndexFile) (length : ℕ) :
    (s.ftruncate length).file.length = length := by
  simp only [ftruncate, List.length_append, List.length_take, List.length_replicate]
  omega

/-- Cutting the file where a text ends leaves the text. -/
theorem ftruncate_append (text rest : Bytes) (fileSize : ℕ) :
    (IndexFile.mk (text ++ rest) fileSize).ftruncate text.length = ⟨text, fileSize⟩ := by
  simp [ftruncate]

theorem openFile_length (file : Bytes) :
    (openFile file).file.length = (openFile file).fileSize := by
  unfold openFile
  split
  · exact length_ftruncate _ _
  · rfl

/-! ## Loading and persisting -/

section

variable [HashOrder]

/-- `loadIndex` on a file. The index stays null if the file starts with a zero byte. -/
def loadIndex (file : Bytes) : Except Failure (IndexFile × WValue) :=
  let s := openFile file
  if s.file.head? = some 0 then .ok (s, .null)
  else ((checked (load s.file)).bind WValue.ofRValue).map fun index => (s, index)

/-- `persistIndex`; `none` if it touches a byte past the end of the file. -/
def persistIndex (s : IndexFile) (index : WValue) : Option IndexFile :=
  let json := dump index
  let newSize := json.length
  let s := if s.fileSize < newSize then { s.ftruncate newSize with fileSize := newSize } else s
  (s.write 0 json).bind fun s =>
    (if newSize < s.fileSize then s.write newSize (List.replicate (s.fileSize - newSize) 0)
      else some s).map fun s => s.ftruncate newSize

/-- The file after some changes of the index, each followed by `persistIndex`. -/
def persistAll (s : IndexFile) (indexes : List WValue) : Option IndexFile :=
  indexes.foldlM persistIndex s

/-- `persistIndex` of an index touched bytes of the file only, and the file then holds the
dump of the index. `loadIndex` gets the index back if `crow::json::load` undoes its dump. -/
def HoldsIndex (s : Option IndexFile) (index : WValue) : Prop :=
  ∃ t, s = some t ∧ t.file = dump index ∧
    ((checked (load (dump index))).bind WValue.ofRValue = .ok index →
      loadIndex t.file = .ok (⟨t.file, t.file.length⟩, index))

/-- Every change of a sequence leaves the index in the file. -/
def AlwaysHolds (file : Bytes) (indexes : List WValue) : Prop :=
  ∀ done index, done ++ [index] <+: indexes →
    HoldsIndex (persistAll (openFile file) (done ++ [index])) index

/-- A text of each length can be written, by the lengths of the file and of the mapping:
the mapping ends with the file, or it is replaced by a longer one. -/
def TextsFit (length mapped : ℕ) : List ℕ → Prop
  | [] => True
  | n :: sizes => (length = mapped ∨ mapped < n) ∧ TextsFit n (max mapped n) sizes

/-- The lengths of the texts of some indexes. -/
def textSizes (indexes : List WValue) : List ℕ := indexes.map fun index => (dump index).length

/-! ## One change -/

theorem dump_length_pos (index : WValue) : 0 < (dump index).length := by
  obtain ⟨c, text, htext, -⟩ := dump_head index
  rw [htext]
  exact Nat.succ_pos _

/-- The copy of the text, if it ends in the file. -/
theorem write_text (s : IndexFile) (index : WValue)
    (h : (dump index).length ≤ s.file.length) :
    s.write 0 (dump index) =
      some { s with file := dump index ++ s.file.drop (dump index).length } := by
  rw [write_of_le (by omega), List.take_zero, List.nil_append, Nat.zero_add]

/-- A mapping that ends with the file receives a text that fits in it. -/
theorem persistIndex_of_fits {s : IndexFile} {index : WValue}
    (hsize : s.file.length = s.fileSize) (hfits : (dump index).length ≤ s.fileSize) :
    persistIndex s index = some ⟨dump index, s.fileSize⟩ := by
  have hmapped : ¬s.fileSize < (dump index).length := by omega
  have hcopy := write_text s index (by omega)
  simp only [persistIndex, if_neg hmapped, hcopy, Option.bind_some]
  split
  · have hclear : (dump index).length +
        (List.replicate (s.fileSize - (dump index).length) (0 : UInt8)).length ≤
          (dump index ++ s.file.drop (dump index).length).length := by
      simp only [List.length_append, List.length_replicate, List.length_drop]
      omega
    rw [write_of_le hclear, Option.map_some, List.take_left, List.append_assoc,
      ftruncate_append]
  · rw [Option.map_some, ftruncate_append]

/-- A mapping that is too short is replaced by one for the text. -/
theorem persistIndex_of_grows {s : IndexFile} {index : WValue}
    (hgrows : s.fileSize < (dump index).length) :
    persistIndex s index = some ⟨dump index, (dump index).length⟩ := by
  have hlength := length_ftruncate s (dump index).length
  have hcopy := write_text
    { s.ftruncate (dump index).length with fileSize := (dump index).length } index hlength.ge
  simp only [persistIndex, if_pos hgrows, hcopy, Option.bind_some, Nat.lt_irrefl, if_false,
    Option.map_some, ftruncate_append]

/-- A mapping that reaches past the end of the file is written past the end: by the text,
or by the zeros behind it. -/
theorem persistIndex_of_short {s : IndexFile} {index : WValue}
    (hshort : s.file.length < s.fileSize) (hfits : (dump index).length ≤ s.fileSize) :
    persistIndex s index = none := by
  have hmapped : ¬s.fileSize < (dump index).length := by omega
  simp only [persistIndex, if_neg hmapped]
  by_cases htext : (dump index).length ≤ s.file.length
  · have hsmaller : (dump index).length < s.fileSize := by omega
    have hclear : (dump index ++ s.file.drop (dump index).length).length <
        (dump index).length +
          (List.replicate (s.fileSize - (dump index).length) (0 : UInt8)).length := by
      simp only [List.length_append, List.length_replicate, List.length_drop]
      omega
    simp only [write_text s index htext, Option.bind_some, if_pos hsmaller]
    rw [write_of_lt hclear, Option.map_none]
  · rw [write_of_lt (by omega), Option.bind_none]

/-- What `persistIndex` does, by the lengths of the file, the mapping and the text. -/
theorem persistIndex_eq {s : IndexFile} (hs : s.file.length ≤ s.fileSize) (index : WValue) :
    persistIndex s index =
      if s.file.length = s.fileSize ∨ s.fileSize < (dump index).length then
        some ⟨dump index, max s.fileSize (dump index).length⟩
      else none := by
  by_cases hgrows : s.fileSize < (dump index).length
  · rw [if_pos (Or.inr hgrows), persistIndex_of_grows hgrows, Nat.max_eq_right hgrows.le]
  have hfits : (dump index).length ≤ s.fileSize := by omega
  by_cases hsize : s.file.length = s.fileSize
  · rw [if_pos (Or.inl hsize), persistIndex_of_fits hsize hfits, Nat.max_eq_left hfits]
  · rw [if_neg (by omega), persistIndex_of_short (by omega) hfits]

/-- `loadIndex` reads back what `persistIndex` wrote, if crow does. -/
theorem loadIndex_dump {index : WValue}
    (hindex : (checked (load (dump index))).bind WValue.ofRValue = .ok index) :
    loadIndex (dump index) = .ok (⟨dump index, (dump index).length⟩, index) := by
  have hne : (dump index).length ≠ 0 := (dump_length_pos index).ne'
  have hhead : (dump index).head? ≠ some 0 := by
    intro h
    exact zero_not_mem_dump index (List.mem_of_head? h)
  simp only [loadIndex, openFile, if_neg hne, if_neg hhead, hindex]
  rfl

/-! ## All changes -/

theorem persistAll_cons (s : IndexFile) (first : WValue) (indexes : List WValue) :
    persistAll s (first :: indexes) = (persistIndex s first).bind (persistAll · indexes) := rfl

/-- From any file whose mapping is not too short, every change leaves the index in the
file if and only if the texts fit. -/
theorem persistAll_holds_iff {s : IndexFile} (hs : s.file.length ≤ s.fileSize)
    (indexes : List WValue) :
    (∀ done index, done ++ [index] <+: indexes →
        HoldsIndex (persistAll s (done ++ [index])) index) ↔
      TextsFit s.file.length s.fileSize (textSizes indexes) := by
  induction indexes generalizing s with
  | nil =>
    refine ⟨fun _ => trivial, fun _ done index hdone => ?_⟩
    exact absurd hdone (by simp)
  | cons first indexes ih =>
    have hstep := persistIndex_eq hs first
    have hlater := @ih ⟨dump first, max s.fileSize (dump first).length⟩ (Nat.le_max_right _ _)
    rw [forall_concat_cons (P := fun changes => HoldsIndex (persistAll s changes))]
    by_cases hfits : s.file.length = s.fileSize ∨ s.fileSize < (dump first).length
    · rw [if_pos hfits] at hstep
      have hfirst : HoldsIndex (persistAll s [first]) first := by
        rw [persistAll_cons, hstep]
        exact ⟨_, rfl, rfl, loadIndex_dump⟩
      simp only [persistAll_cons s first (_ ++ _), hstep, Option.bind_some, hlater]
      exact and_congr (iff_of_true hfirst hfits) Iff.rfl
    · rw [if_neg hfits] at hstep
      apply iff_of_false
      · rintro ⟨⟨t, ht, -⟩, -⟩
        rw [persistAll_cons, hstep] at ht
        cases ht
      · exact fun h => hfits h.1

/-- For every starting file and all changes of the index, every change leaves the index
in the file if and only if each text is longer than the mapping whenever the file is not
as long as the mapping. -/
theorem index_file_holds (file : Bytes) (indexes : List WValue) :
    AlwaysHolds file indexes ↔
      TextsFit (openFile file).file.length (openFile file).fileSize (textSizes indexes) :=
  persistAll_holds_iff (openFile_length file).le indexes

end

end IndexFile

/-- The index with one list of one text, made of the letter x. -/
def textIndex (n : ℕ) : WValue :=
  .object [(ascii "t", .object [(ascii "a", .list [.string (List.replicate n 120)])])]

theorem escape_replicate (n : ℕ) : escape (List.replicate n 120) = List.replicate n 120 := by
  induction n with
  | zero => rfl
  | succ n ih =>
    rw [List.replicate_succ, escape, List.flatMap_cons, ← escape, ih]
    rfl

theorem length_dump_textIndex (n : ℕ) :
    (@dump .insertion (textIndex n)).length = n + 16 := by
  have harrange : ∀ (α : Type) (l : List (Bytes × α)), @HashOrder.arrange .insertion α l = l :=
    fun _ _ => rfl
  have ht : escape (ascii "t") = [116] := by decide
  have ha : escape (ascii "a") = [97] := by decide
  simp [textIndex, dump, dumpFields, dumpElements, dumpString, dumpField, joinComma,
    escape_replicate, harrange, ht, ha]

/-- A text of three pages in an empty file, and then two short ones: the second of these
clears the rest of the mapping, two pages behind the end of the file. -/
theorem not_alwaysHolds_shrunk :
    ¬@IndexFile.AlwaysHolds .insertion [] [textIndex 9000, textIndex 0, textIndex 0] := by
  intro h
  have hfit := (@IndexFile.persistAll_holds_iff .insertion _
    (IndexFile.openFile_length []).le _).mp h
  simp only [IndexFile.textSizes, List.map_cons, List.map_nil, length_dump_textIndex,
    IndexFile.TextsFit] at hfit
  omega

end Quarks
