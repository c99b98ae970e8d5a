import Mathlib.Data.List.Forall2
import Mathlib.Data.List.NodupEquivFin

/-!
# Matching a list with a subsequence

A list is matched with another one if its elements are related to elements of the other one in
their order. Such a match can be found greedily: if an element is related to the first element
of the other list, it may as well be matched with that.
-/

namespace Basis

variable {α β : Type*} {R : α → β → Prop} {a : α} {b : β} {l₁ : List α} {l₂ l₂' : List β}

/-- Without its first element a list is still matched. -/
theorem sublistForall₂_of_cons (h : List.SublistForall₂ R (a :: l₁) l₂) :
    List.SublistForall₂ R l₁ l₂ := by
  obtain ⟨l, hall, hsub⟩ := List.sublistForall₂_iff.mp h
  cases hall with
  | cons _ hall =>
    exact List.sublistForall₂_iff.mpr ⟨_, hall, (List.sublist_cons_self _ _).trans hsub⟩

/-- A match of the first element may be exchanged for the earliest one. -/
theorem sublistForall₂_cons_of_rel (h : R a b) :
    List.SublistForall₂ R (a :: l₁) (b :: l₂) ↔ List.SublistForall₂ R l₁ l₂ := by
  refine ⟨fun hmatch => ?_, .cons h⟩
  cases hmatch with
  | cons _ hrest => exact hrest
  | cons_right hrest => exact sublistForall₂_of_cons hrest

/-- An element that the first one is not related to is passed. -/
theorem sublistForall₂_cons_of_not_rel (h : ¬R a b) :
    List.SublistForall₂ R (a :: l₁) (b :: l₂) ↔ List.SublistForall₂ R (a :: l₁) l₂ := by
  refine ⟨fun hmatch => ?_, .cons_right⟩
  cases hmatch with
  | cons hrel _ => exact absurd hrel h
  | cons_right hrest => exact hrest

theorem sublistForall₂_mono {R' : α → β → Prop} (himp : ∀ a b, R a b → R' a b)
    (h : List.SublistForall₂ R l₁ l₂) : List.SublistForall₂ R' l₁ l₂ := by
  obtain ⟨l, hall, hsub⟩ := List.sublistForall₂_iff.mp h
  exact List.sublistForall₂_iff.mpr ⟨l, hall.imp himp, hsub⟩

theorem sublistForall₂_of_sublist (h : List.SublistForall₂ R l₁ l₂) (hsub : l₂.Sublist l₂') :
    List.SublistForall₂ R l₁ l₂' := by
  obtain ⟨l, hall, hl⟩ := List.sublistForall₂_iff.mp h
  exact List.sublistForall₂_iff.mpr ⟨l, hall, hl.trans hsub⟩

/-- A list is matched exactly if its positions can be assigned to related positions of the other
one in a strictly increasing way. -/
theorem sublistForall₂_iff_exists_strictMono : List.SublistForall₂ R l₁ l₂ ↔
    ∃ f : Fin l₁.length → Fin l₂.length, StrictMono f ∧ ∀ i, R (l₁.get i) (l₂.get (f i)) := by
  rw [List.sublistForall₂_iff]
  constructor
  · rintro ⟨l, hall, hsub⟩
    obtain ⟨hlength, hrel⟩ := List.forall₂_iff_get.mp hall
    obtain ⟨f, hf⟩ := List.sublist_iff_exists_fin_orderEmbedding_get_eq.mp hsub
    refine ⟨fun i => f (i.cast hlength), fun i j hij => f.strictMono hij, fun i => ?_⟩
    rw [← hf]
    exact hrel i i.isLt (hlength ▸ i.isLt)
  · rintro ⟨f, hmono, hrel⟩
    refine ⟨List.ofFn fun i => l₂.get (f i), ?_, ?_⟩
    · refine List.forall₂_iff_get.mpr ⟨List.length_ofFn.symm, fun i hi hi' => ?_⟩
      rw [List.get_ofFn]
      exact hrel ⟨i, hi⟩
    · refine List.sublist_iff_exists_fin_orderEmbedding_get_eq.mpr
        ⟨OrderEmbedding.ofStrictMono (fun i => f (i.cast List.length_ofFn)) ?_, fun i => ?_⟩
      · exact fun i j hij => hmono hij
      · rw [List.get_ofFn]
        rfl

end Basis
