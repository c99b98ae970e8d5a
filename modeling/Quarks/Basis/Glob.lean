import Mathlib.Data.List.Forall2
import Mathlib.Data.List.Infix

/-!
# Patterns with runs

A pattern is a list of tokens, each of which stands for a piece of a word: for any run of
letters, for any one letter, or for a letter of its own. Only the last run that has been passed
is worth going back to: whatever an earlier run could take, it could take as well.
-/

namespace Basis

namespace Glob

variable {α : Type}

/-- What a pattern is made of. -/
inductive Token (α : Type)
  | run
  | one
  | only (a : α)

/-- The piece of a word that a token stands for. -/
def Token.StandsFor : Token α → List α → Prop
  | .run, _ => True
  | .one, piece => piece.length = 1
  | .only a, piece => piece = [a]

/-- A word is what a pattern becomes when each token gives way to a piece it stands for. -/
def Matches (p : List (Token α)) (s : List α) : Prop :=
  ∃ pieces, List.Forall₂ Token.StandsFor p pieces ∧ s = pieces.flatten

/-- Each token stands for one letter. -/
def IsFixed (p : List (Token α)) : Prop := ∀ t ∈ p, t ≠ .run

variable {p q : List (Token α)} {s : List α}

@[simp] theorem matches_nil : Matches ([] : List (Token α)) s ↔ s = [] := by
  constructor
  · rintro ⟨pieces, hpieces, rfl⟩
    cases hpieces
    rfl
  · rintro rfl
    exact ⟨[], .nil, rfl⟩

/-- The first token takes the first piece. -/
theorem matches_cons {t : Token α} :
    Matches (t :: p) s ↔ ∃ piece rest, t.StandsFor piece ∧ Matches p rest ∧ s = piece ++ rest := by
  constructor
  · rintro ⟨_ | ⟨piece, pieces⟩, hpieces, rfl⟩
    · cases hpieces
    · cases hpieces with
      | cons hpiece hpieces =>
        exact ⟨piece, pieces.flatten, hpiece, ⟨pieces, hpieces, rfl⟩, List.flatten_cons⟩
  · rintro ⟨piece, _, hpiece, ⟨pieces, hpieces, rfl⟩, rfl⟩
    exact ⟨piece :: pieces, .cons hpiece hpieces, List.flatten_cons.symm⟩

/-- A run leaves any end of the word to the other tokens. -/
theorem matches_run : Matches (.run :: p) s ↔ ∃ t, t <:+ s ∧ Matches p t := by
  rw [matches_cons]
  constructor
  · rintro ⟨piece, rest, -, hrest, rfl⟩
    exact ⟨rest, List.suffix_append piece rest, hrest⟩
  · rintro ⟨rest, ⟨piece, rfl⟩, hrest⟩
    exact ⟨piece, rest, trivial, hrest, rfl⟩

/-- The letters that a token other than a run stands for. -/
def Token.Takes : Token α → α → Prop
  | .run, _ => False
  | .one, _ => True
  | .only b, a => a = b

/-- Another token takes one letter. -/
theorem matches_fixed {t : Token α} (ht : t ≠ .run) {a : α} :
    Matches (t :: p) (a :: s) ↔ t.Takes a ∧ Matches p s := by
  rw [matches_cons]
  constructor
  · rintro ⟨piece, rest, hpiece, hrest, heq⟩
    cases t with
    | run => exact absurd rfl ht
    | one =>
      obtain ⟨b, rfl⟩ := List.length_eq_one_iff.mp hpiece
      cases heq
      exact ⟨trivial, hrest⟩
    | only b =>
      cases hpiece
      cases heq
      exact ⟨rfl, hrest⟩
  · rintro ⟨hta, hrest⟩
    refine ⟨[a], s, ?_, hrest, rfl⟩
    cases t with
    | run => exact absurd rfl ht
    | one => rfl
    | only b => exact congrArg (fun a => [a]) hta

theorem not_matches_fixed_nil {t : Token α} (ht : t ≠ .run) : ¬Matches (t :: p) [] := by
  rw [matches_cons]
  rintro ⟨piece, rest, hpiece, -, heq⟩
  obtain ⟨rfl, -⟩ := List.append_eq_nil_iff.mp heq.symm
  cases t with
  | run => exact ht rfl
  | one => cases hpiece
  | only b => cases hpiece

/-- Tokens that stand for one letter each take as many letters. -/
theorem matches_append_fixed (hp : IsFixed p) (h : Matches (p ++ q) s) :
    ∃ t t', s = t ++ t' ∧ t.length = p.length ∧ Matches q t' := by
  induction p generalizing s with
  | nil => exact ⟨[], s, rfl, rfl, h⟩
  | cons token p ih =>
    obtain ⟨htoken, hp⟩ := List.forall_mem_cons.mp hp
    rw [List.cons_append] at h
    cases s with
    | nil => exact absurd h (not_matches_fixed_nil htoken)
    | cons a s =>
      obtain ⟨t, t', rfl, hlen, ht'⟩ := ih hp ((matches_fixed htoken).mp h).2
      exact ⟨a :: t, t', rfl, by rw [List.length_cons, hlen, List.length_cons], ht'⟩

/-- Going back to an earlier run finds nothing new: if the tokens between the two runs have taken
letters, and an end of these letters and the rest could be matched from there, the rest is
matched from the later run. -/
theorem matches_run_of_earlier {v t : List α} (hp : IsFixed p) (hlen : v.length = p.length)
    (ht : t <:+ v ++ s) (h : Matches (p ++ .run :: q) t) : Matches (.run :: q) s := by
  obtain ⟨w, w', rfl, hw, hrest⟩ := matches_append_fixed hp h
  have hsuffix : w' <:+ s := by
    refine List.suffix_of_suffix_length_le ((List.suffix_append w w').trans ht)
      (List.suffix_append v s) ?_
    have hle := ht.length_le
    simp only [List.length_append] at hle
    omega
  obtain ⟨u, hu, hmatches⟩ := matches_run.mp hrest
  exact matches_run.mpr ⟨u, hu.trans hsuffix, hmatches⟩

end Glob

end Basis
