import Mathlib.Data.List.Basic
import Mathlib.Data.List.Infix
import Mathlib.Order.Bounds.Basic
import Mathlib.Order.MinMax

/-!
# Edit distance

An edit inserts, deletes or substitutes one symbol of a sequence. The distance of two
sequences is the least number of edits that make one out of the other; it is computed by
recursion on the two sequences, and as well on their parts from the start. Edits that
delete nothing are of interest too: they only let a sequence grow.
-/

namespace Basis

variable {α : Type}

/-- At most `k` edits make the second sequence out of the first. -/
inductive EditedWithin : ℕ → List α → List α → Prop
  | done (k : ℕ) : EditedWithin k [] []
  | keep {k : ℕ} {s t : List α} (c : α) (h : EditedWithin k s t) :
    EditedWithin k (c :: s) (c :: t)
  | substitute {k : ℕ} {s t : List α} (c d : α) (h : EditedWithin k s t) :
    EditedWithin (k + 1) (c :: s) (d :: t)
  | insert {k : ℕ} {s t : List α} (d : α) (h : EditedWithin k s t) :
    EditedWithin (k + 1) s (d :: t)
  | delete {k : ℕ} {s t : List α} (c : α) (h : EditedWithin k s t) :
    EditedWithin (k + 1) (c :: s) t

/-- At most `k` insertions and substitutions make the second sequence out of the first. -/
inductive GrownWithin : ℕ → List α → List α → Prop
  | done (k : ℕ) : GrownWithin k [] []
  | keep {k : ℕ} {s t : List α} (c : α) (h : GrownWithin k s t) : GrownWithin k (c :: s) (c :: t)
  | substitute {k : ℕ} {s t : List α} (c d : α) (h : GrownWithin k s t) :
    GrownWithin (k + 1) (c :: s) (d :: t)
  | insert {k : ℕ} {s t : List α} (d : α) (h : GrownWithin k s t) :
    GrownWithin (k + 1) s (d :: t)

/-- The sequence is made out of a part of another one from its start, by at most `k`
insertions and substitutions. -/
def GrownFromPrefix (k : ℕ) (s t : List α) : Prop := ∃ p, p <+: s ∧ GrownWithin k p t

variable [DecidableEq α]

/-- The distance from a sequence with one more symbol in front. -/
def distanceCons (c : α) (distance : List α → ℕ) : List α → ℕ
  | [] => distance [] + 1
  | d :: t => min (distance t + if c = d then 0 else 1)
      (min (distance (d :: t)) (distanceCons c distance t) + 1)

/-- The edit distance of two sequences. -/
def editDistance : List α → List α → ℕ
  | [] => List.length
  | c :: s => distanceCons c (editDistance s)

section

variable (c d : α) (s t : List α)

@[simp] theorem editDistance_nil_left : editDistance [] t = t.length := rfl

@[simp] theorem editDistance_nil_right : editDistance s [] = s.length := by
  induction s with
  | nil => rfl
  | cons c s ih =>
    rw [editDistance, distanceCons, ih, List.length_cons]

theorem editDistance_cons_cons : editDistance (c :: s) (d :: t) =
    min (editDistance s t + if c = d then 0 else 1)
      (min (editDistance s (d :: t)) (editDistance (c :: s) t) + 1) := rfl

end

omit [DecidableEq α] in
/-- Edits that delete every symbol. -/
theorem EditedWithin.of_length_le {k : ℕ} {s : List α} (h : s.length ≤ k) :
    EditedWithin k s [] := by
  induction s generalizing k with
  | nil => exact .done k
  | cons c s ih =>
    rw [List.length_cons] at h
    obtain ⟨k, rfl⟩ : ∃ n, k = n + 1 := ⟨k - 1, by omega⟩
    exact .delete c (ih (by omega))

omit [DecidableEq α] in
/-- Edits that insert every symbol. -/
theorem EditedWithin.of_length_le' {k : ℕ} {t : List α} (h : t.length ≤ k) :
    EditedWithin k [] t := by
  induction t generalizing k with
  | nil => exact .done k
  | cons d t ih =>
    rw [List.length_cons] at h
    obtain ⟨k, rfl⟩ : ∃ n, k = n + 1 := ⟨k - 1, by omega⟩
    exact .insert d (ih (by omega))

/-- Some edits are as few as the distance says. -/
theorem EditedWithin.of_editDistance_le {k : ℕ} {s t : List α} (h : editDistance s t ≤ k) :
    EditedWithin k s t := by
  induction s generalizing k t with
  | nil => exact .of_length_le' (by simpa using h)
  | cons c s ihs =>
    induction t generalizing k with
    | nil => exact .of_length_le (by simpa using h)
    | cons d t iht =>
      rw [editDistance_cons_cons, min_le_iff] at h
      rcases h with h | h
      · split at h
        · next heq =>
          subst heq
          exact .keep c (ihs h)
        · obtain ⟨k, rfl⟩ : ∃ n, k = n + 1 := ⟨k - 1, by omega⟩
          exact .substitute c d (ihs (by omega))
      · obtain ⟨k, rfl⟩ : ∃ n, k = n + 1 := ⟨k - 1, by omega⟩
        rw [Nat.add_le_add_iff_right, min_le_iff] at h
        rcases h with h | h
        · exact .delete c (ihs h)
        · exact .insert d (iht h)

/-- A symbol in front of the first sequence adds at most one edit. -/
theorem editDistance_cons_left_le (c : α) (s t : List α) :
    editDistance (c :: s) t ≤ editDistance s t + 1 := by
  cases t with
  | nil => simp
  | cons d t =>
    rw [editDistance_cons_cons]
    omega

/-- A symbol in front of the second sequence adds at most one edit. -/
theorem editDistance_cons_right_le (d : α) (s t : List α) :
    editDistance s (d :: t) ≤ editDistance s t + 1 := by
  cases s with
  | nil => simp
  | cons c s =>
    rw [editDistance_cons_cons]
    omega

/-- No edits are fewer than the distance says. -/
theorem EditedWithin.editDistance_le {k : ℕ} {s t : List α} (h : EditedWithin k s t) :
    editDistance s t ≤ k := by
  induction h with
  | done k => exact Nat.zero_le k
  | keep c h ih =>
    rw [editDistance_cons_cons, if_pos rfl]
    omega
  | substitute c d h ih =>
    rw [editDistance_cons_cons]
    split <;> omega
  | @insert _ s t d h ih =>
    have := editDistance_cons_right_le d s t
    omega
  | @delete _ s t c h ih =>
    have := editDistance_cons_left_le c s t
    omega

theorem editedWithin_iff {k : ℕ} {s t : List α} : EditedWithin k s t ↔ editDistance s t ≤ k :=
  ⟨EditedWithin.editDistance_le, EditedWithin.of_editDistance_le⟩

/-- Without edits a sequence stays what it is. -/
theorem editDistance_eq_zero_iff {s t : List α} : editDistance s t = 0 ↔ s = t := by
  rw [← Nat.le_zero, ← editedWithin_iff]
  constructor
  · intro h
    generalize hk : 0 = k at h
    induction h with
    | done k => rfl
    | keep c h ih => rw [ih hk]
    | substitute c d h ih => omega
    | insert d h ih => omega
    | delete c h ih => omega
  · rintro rfl
    induction s with
    | nil => exact .done 0
    | cons c s ih => exact .keep c ih

/-! ## The distance as a metric -/

section

variable {k l : ℕ} {s t u s' t' : List α}

omit [DecidableEq α] in
theorem EditedWithin.mono {n : ℕ} (h : EditedWithin k s t) (hkn : k ≤ n) : EditedWithin n s t := by
  induction h generalizing n with
  | done k => exact .done n
  | keep c h ih => exact .keep c (ih hkn)
  | substitute c d h ih =>
    obtain ⟨n, rfl⟩ : ∃ m, n = m + 1 := ⟨n - 1, by omega⟩
    exact .substitute c d (ih (by omega))
  | insert d h ih =>
    obtain ⟨n, rfl⟩ : ∃ m, n = m + 1 := ⟨n - 1, by omega⟩
    exact .insert d (ih (by omega))
  | delete c h ih =>
    obtain ⟨n, rfl⟩ : ∃ m, n = m + 1 := ⟨n - 1, by omega⟩
    exact .delete c (ih (by omega))

omit [DecidableEq α] in
theorem EditedWithin.refl (s : List α) : EditedWithin 0 s s := by
  induction s with
  | nil => exact .done 0
  | cons c s ih => exact .keep c ih

omit [DecidableEq α] in
/-- Edits can be undone. -/
theorem EditedWithin.symm (h : EditedWithin k s t) : EditedWithin k t s := by
  induction h with
  | done k => exact .done k
  | keep c h ih => exact .keep c ih
  | substitute c d h ih => exact .substitute d c ih
  | insert d h ih => exact .delete d ih
  | delete c h ih => exact .insert c ih

omit [DecidableEq α] in
/-- Edits after other edits: what the later ones do to a symbol is done to what it was before. -/
theorem EditedWithin.trans (h : EditedWithin k s t) (h' : EditedWithin l t u) :
    EditedWithin (k + l) s u := by
  induction h generalizing l u with
  | done k => exact h'.mono (by omega)
  | @keep k s t c h ih =>
    generalize hx : c :: t = x at h'
    induction h' with
    | done l => cases hx
    | keep d h' _ =>
      cases hx
      exact .keep c (ih h')
    | substitute d e h' _ =>
      cases hx
      exact .substitute c e (ih h')
    | insert e h' ih' => exact .insert e (ih' hx)
    | delete d h' _ =>
      cases hx
      exact .delete c (ih h')
  | @substitute k s t c d h ih =>
    generalize hx : d :: t = x at h'
    induction h' with
    | done l => cases hx
    | keep e h' _ =>
      cases hx
      exact (EditedWithin.substitute c d (ih h')).mono (by omega)
    | substitute d e h' _ =>
      cases hx
      exact (EditedWithin.substitute c e (ih h')).mono (by omega)
    | insert e h' ih' => exact .insert e (ih' hx)
    | delete d h' _ =>
      cases hx
      exact (EditedWithin.delete c (ih h')).mono (by omega)
  | @insert k s t d h ih =>
    generalize hx : d :: t = x at h'
    induction h' with
    | done l => cases hx
    | keep e h' _ =>
      cases hx
      exact (EditedWithin.insert d (ih h')).mono (by omega)
    | substitute d e h' _ =>
      cases hx
      exact (EditedWithin.insert e (ih h')).mono (by omega)
    | insert e h' ih' => exact .insert e (ih' hx)
    | delete d h' _ =>
      cases hx
      exact (ih h').mono (by omega)
  | delete c h ih => exact (EditedWithin.delete c (ih h')).mono (by omega)

omit [DecidableEq α] in
theorem EditedWithin.append (h : EditedWithin k s t) (h' : EditedWithin l s' t') :
    EditedWithin (k + l) (s ++ s') (t ++ t') := by
  induction h with
  | done k => exact h'.mono (by omega)
  | keep c h ih => exact .keep c ih
  | substitute c d h ih => exact (EditedWithin.substitute c d ih).mono (by omega)
  | insert d h ih => exact (EditedWithin.insert d ih).mono (by omega)
  | delete c h ih => exact (EditedWithin.delete c ih).mono (by omega)

omit [DecidableEq α] in
theorem EditedWithin.reverse (h : EditedWithin k s t) : EditedWithin k s.reverse t.reverse := by
  induction h with
  | done k => exact .done k
  | keep c h ih =>
    rw [List.reverse_cons, List.reverse_cons]
    exact ih.append (.refl [c])
  | substitute c d h ih =>
    rw [List.reverse_cons, List.reverse_cons]
    exact ih.append (.substitute c d (.done 0))
  | insert d h ih =>
    rw [List.reverse_cons]
    simpa using ih.append (.insert d (.done 0))
  | delete c h ih =>
    rw [List.reverse_cons]
    simpa using ih.append (.delete c (.done 0))

theorem editDistance_comm (s t : List α) : editDistance s t = editDistance t s :=
  le_antisymm (EditedWithin.of_editDistance_le le_rfl).symm.editDistance_le
    (EditedWithin.of_editDistance_le le_rfl).symm.editDistance_le

theorem editDistance_triangle (s t u : List α) :
    editDistance s u ≤ editDistance s t + editDistance t u :=
  ((EditedWithin.of_editDistance_le le_rfl).trans
    (.of_editDistance_le le_rfl)).editDistance_le

theorem editDistance_reverse (s t : List α) :
    editDistance s.reverse t.reverse = editDistance s t := by
  refine le_antisymm (EditedWithin.of_editDistance_le le_rfl).reverse.editDistance_le ?_
  have h := (EditedWithin.of_editDistance_le (le_refl (editDistance s.reverse t.reverse))).reverse
  rw [List.reverse_reverse, List.reverse_reverse] at h
  exact h.editDistance_le

end

section

variable (c d : α) (s t : List α)

/-- One symbol less in the second sequence saves at most one edit. -/
theorem editDistance_le_cons_right : editDistance s t ≤ editDistance s (d :: t) + 1 :=
  ((EditedWithin.of_editDistance_le le_rfl).trans (.delete d (.refl t))).editDistance_le

/-- One symbol less in the first sequence saves at most one edit. -/
theorem editDistance_le_cons_left : editDistance s t ≤ editDistance (c :: s) t + 1 := by
  rw [editDistance_comm s t, editDistance_comm (c :: s) t]
  exact editDistance_le_cons_right c t s

/-- Where both sequences start with the same symbol, nothing is better than to keep it. -/
theorem editDistance_cons_self : editDistance (c :: s) (c :: t) = editDistance s t := by
  have hright := editDistance_le_cons_right c s t
  have hleft := editDistance_le_cons_left c s t
  rw [editDistance_cons_cons, if_pos rfl]
  omega

/-- The distance from the distances of parts from the start: an equal last symbol is kept, and
nothing else has to be compared. -/
theorem editDistance_concat : editDistance (s ++ [c]) (t ++ [d]) =
    if c = d then editDistance s t
    else min (min (editDistance s t) (editDistance s (t ++ [d]))) (editDistance (s ++ [c]) t) +
      1 := by
  have hreverse : ∀ x y : List α, editDistance x y = editDistance x.reverse y.reverse :=
    fun x y => (editDistance_reverse x y).symm
  rw [hreverse (s ++ [c]) (t ++ [d]), hreverse s t, hreverse s (t ++ [d]),
    hreverse (s ++ [c]) t]
  simp only [List.reverse_append, List.reverse_singleton, List.singleton_append]
  split
  · next heq => rw [heq, editDistance_cons_self]
  · next hne =>
    rw [editDistance_cons_cons, if_neg hne]
    omega

end

/-! ## Single edits -/

/-- One symbol is inserted, deleted or substituted. -/
inductive Edit : List α → List α → Prop
  | insert (p q : List α) (d : α) : Edit (p ++ q) (p ++ d :: q)
  | delete (p q : List α) (c : α) : Edit (p ++ c :: q) (p ++ q)
  | substitute (p q : List α) (c d : α) : Edit (p ++ c :: q) (p ++ d :: q)

/-- So many single edits make the second sequence out of the first. -/
def EditsIn : ℕ → List α → List α → Prop
  | 0, s, t => s = t
  | k + 1, s, t => ∃ u, Edit s u ∧ EditsIn k u t

section

variable {k : ℕ} {s t : List α}

omit [DecidableEq α] in
theorem Edit.editedWithin (h : Edit s t) : EditedWithin 1 s t := by
  cases h with
  | insert p q d => simpa using (EditedWithin.refl p).append (.insert d (.refl q))
  | delete p q c => simpa using (EditedWithin.refl p).append (.delete c (.refl q))
  | substitute p q c d => simpa using (EditedWithin.refl p).append (.substitute c d (.refl q))

omit [DecidableEq α] in
theorem EditsIn.editedWithin (h : EditsIn k s t) : EditedWithin k s t := by
  induction k generalizing s with
  | zero =>
    cases h
    exact .refl _
  | succ k ih =>
    obtain ⟨u, hedit, h⟩ := h
    exact (hedit.editedWithin.trans (ih h)).mono (by omega)

omit [DecidableEq α] in
/-- Edits may be made behind a symbol. -/
theorem EditsIn.cons (c : α) (h : EditsIn k s t) : EditsIn k (c :: s) (c :: t) := by
  induction k generalizing s with
  | zero => exact congrArg _ h
  | succ k ih =>
    obtain ⟨u, hedit, h⟩ := h
    refine ⟨c :: u, ?_, ih h⟩
    cases hedit with
    | insert p q d => exact .insert (c :: p) q d
    | delete p q d => exact .delete (c :: p) q d
    | substitute p q d e => exact .substitute (c :: p) q d e

omit [DecidableEq α] in
/-- What is edited within a number is made by at most so many single edits. -/
theorem EditedWithin.editsIn (h : EditedWithin k s t) : ∃ n ≤ k, EditsIn n s t := by
  induction h with
  | done k => exact ⟨0, Nat.zero_le k, rfl⟩
  | keep c h ih =>
    obtain ⟨n, hn, hedits⟩ := ih
    exact ⟨n, hn, hedits.cons c⟩
  | @substitute k s t c d h ih =>
    obtain ⟨n, hn, hedits⟩ := ih
    exact ⟨n + 1, by omega, d :: s, .substitute [] s c d, hedits.cons d⟩
  | @insert k s t d h ih =>
    obtain ⟨n, hn, hedits⟩ := ih
    exact ⟨n + 1, by omega, d :: s, .insert [] s d, hedits.cons d⟩
  | @delete k s t c h ih =>
    obtain ⟨n, hn, hedits⟩ := ih
    exact ⟨n + 1, by omega, s, .delete [] s c, hedits⟩

/-- The distance is the least number of single edits. -/
theorem editDistance_isLeast_editsIn (s t : List α) :
    IsLeast {k | EditsIn k s t} (editDistance s t) := by
  refine ⟨?_, fun _ h => h.editedWithin.editDistance_le⟩
  obtain ⟨n, hn, hedits⟩ := (EditedWithin.of_editDistance_le (le_refl (editDistance s t))).editsIn
  rwa [← le_antisymm hn hedits.editedWithin.editDistance_le]

end

/-! ## Growing -/

section

variable {k : ℕ} {s t : List α}

omit [DecidableEq α] in
theorem GrownWithin.mono {n : ℕ} (h : GrownWithin k s t) (hkn : k ≤ n) : GrownWithin n s t := by
  induction h generalizing n with
  | done k => exact .done n
  | keep c h ih => exact .keep c (ih hkn)
  | substitute c d h ih =>
    obtain ⟨n, rfl⟩ : ∃ m, n = m + 1 := ⟨n - 1, by omega⟩
    exact .substitute c d (ih (by omega))
  | insert d h ih =>
    obtain ⟨n, rfl⟩ : ∃ m, n = m + 1 := ⟨n - 1, by omega⟩
    exact .insert d (ih (by omega))

omit [DecidableEq α] in
theorem GrownFromPrefix.mono {n : ℕ} (h : GrownFromPrefix k s t) (hkn : k ≤ n) :
    GrownFromPrefix n s t :=
  h.imp fun _ hp => ⟨hp.1, hp.2.mono hkn⟩

omit [DecidableEq α] in
theorem grownFromPrefix_nil (k : ℕ) (s : List α) : GrownFromPrefix k s [] :=
  ⟨[], List.nil_prefix, .done k⟩

/-- The first symbol stands for the first one of the other sequence, or it was inserted. -/
theorem grownFromPrefix_cons_iff {d : α} :
    GrownFromPrefix k s (d :: t) ↔
      (∃ c s', s = c :: s' ∧ (if c = d then 0 else 1) ≤ k ∧
        GrownFromPrefix (k - if c = d then 0 else 1) s' t) ∨
      (1 ≤ k ∧ GrownFromPrefix (k - 1) s t) := by
  constructor
  · rintro ⟨p, hp, hgrown⟩
    cases hgrown with
    | @keep _ p' _ c hgrown =>
      obtain ⟨rest, rfl⟩ := hp
      refine Or.inl ⟨d, p' ++ rest, rfl, ?_⟩
      rw [if_pos rfl]
      exact ⟨Nat.zero_le k, p', List.prefix_append _ _, hgrown⟩
    | @substitute n p' _ c _ hgrown =>
      obtain ⟨rest, rfl⟩ := hp
      refine Or.inl ⟨c, p' ++ rest, rfl, ?_⟩
      have hshort : GrownFromPrefix n (p' ++ rest) t := ⟨p', List.prefix_append _ _, hgrown⟩
      split
      · exact ⟨by omega, hshort.mono (by omega)⟩
      · exact ⟨by omega, hshort⟩
    | insert _ hgrown => exact Or.inr ⟨by omega, p, hp, hgrown⟩
  · rintro (⟨c, s', rfl, hcost, p, hp, hgrown⟩ | ⟨hk, p, hp, hgrown⟩)
    · refine ⟨c :: p, List.cons_prefix_cons.mpr ⟨rfl, hp⟩, ?_⟩
      split at hgrown
      · next heq =>
        subst heq
        exact .keep c hgrown
      · next hne =>
        rw [if_neg hne] at hcost
        obtain ⟨k, rfl⟩ : ∃ n, k = n + 1 := ⟨k - 1, by omega⟩
        exact .substitute c d hgrown
    · obtain ⟨k, rfl⟩ : ∃ n, k = n + 1 := ⟨k - 1, by omega⟩
      exact ⟨p, hp, .insert d hgrown⟩

omit [DecidableEq α] in
/-- Without edits a sequence is made out of the parts of another one from its start only if
it is one of them. -/
theorem grownFromPrefix_zero_iff : GrownFromPrefix 0 s t ↔ t <+: s := by
  constructor
  · rintro ⟨p, hp, hgrown⟩
    suffices heq : p = t from heq ▸ hp
    clear hp
    generalize hk : 0 = k at hgrown
    induction hgrown with
    | done k => rfl
    | keep c h ih => rw [ih hk]
    | substitute c d h ih => omega
    | insert d h ih => omega
  · intro h
    refine ⟨t, h, ?_⟩
    clear h
    induction t with
    | nil => exact .done 0
    | cons c t ih => exact .keep c ih

end

end Basis
