import Quarks.Search.Multimap

/-!
# Nodes that are left over in the trie

A node without children that is not the end of a word is of no use. A deletion that takes the
last entry of such a node removes it, and the nodes above it for which nothing else is left. The
source looks for the edge to remove by the character of the wrong node, and it never removes a
child of the root; so nothing is left over exactly if the nodes to remove lie in a run of one
character that starts above them.
-/

namespace Quarks

open Basis

namespace TrieNode

/-- A node without children that is not the end of a word. -/
def IsDead (root : TrieNode) (path : Bytes) : Prop :=
  ∃ n, root.at? path = some n ∧ n.children = [] ∧ n.data.isEndOfWord = false

/-- A node that is kept when its child under a character is removed: it is the end of a word, or
it has another child. -/
def IsKept (root : TrieNode) (path : Bytes) (c : UInt8) : Prop :=
  ∃ n, root.at? path = some n ∧
    (n.data.isEndOfWord = true ∨ ∃ b, b ≠ c ∧ (n.child? b).isSome = true)

/-- The word ends in a run of one character, and a node in the run, but the last one, is kept when
what is behind it is removed. -/
def CleansUp (root : TrieNode) (word : Bytes) : Prop :=
  ∃ part c k, word = part ++ c :: List.replicate (k + 1) c ∧ root.IsKept (part ++ [c]) c

/-- The deletion takes the last entry of a node without children. -/
def TakesLast (root : TrieNode) (word category userData : Bytes) : Prop :=
  ∃ n, root.at? word = some n ∧ n.children = [] ∧
    ∀ data ∈ n.data.metadata, selects category userData data = true

/-- From the end, a character that is equal to the next one is left out. -/
def cutRunRev : Bytes → Bytes
  | c :: b :: rest => if b = c then cutRunRev (b :: rest) else c :: b :: rest
  | word => word

/-- The word with only the first character of the run at its end. -/
def cutRun (word : Bytes) : Bytes := (cutRunRev word.reverse).reverse

/-- No node but the root, and the one at a path, is of no use. -/
def TidyBut (root : TrieNode) (p : Bytes) : Prop :=
  ∀ path, path ≠ [] → root.IsDead path → path = p

/-- A node is marked as the end of a word if it has entries. -/
def EndsMarked (root : TrieNode) : Prop :=
  ∀ path d, root.dataAt path = some d → (d.isEndOfWord = true ↔ d.metadata ≠ [])

/-- The trie carries no dead weight: a node is marked as the end of a word exactly if it has
entries, every node without children but the root is marked, and so the root has no children if
no word is stored. -/
structure CarriesNoDeadWeight (root : TrieNode) : Prop where
  marked : root.EndsMarked
  leaves : ∀ path n, path ≠ [] → root.at? path = some n → n.children = [] →
    n.data.isEndOfWord = true
  emptied : (∀ word, root.search word = []) → root.children = []

section

variable {root : TrieNode} {path word category userData p : Bytes}

/-! ## Dead nodes -/

theorem isDead_iff : root.IsDead path ↔
    ∃ d, root.dataAt path = some d ∧ d.isEndOfWord = false ∧
      ∀ k, root.dataAt (path ++ [k]) = none := by
  constructor
  · rintro ⟨n, hn, hleaf, hend⟩
    exact ⟨n.data, Tree.dataAt_of_at? hn, hend, (Tree.children_eq_nil_iff hn).mp hleaf⟩
  · rintro ⟨d, hd, hend, hnone⟩
    obtain ⟨n, hn, rfl⟩ := Option.map_eq_some_iff.mp hd
    exact ⟨n, hn, (Tree.children_eq_nil_iff hn).mpr hnone, hend⟩

theorem isKept_iff {c : UInt8} : root.IsKept path c ↔
    ∃ d, root.dataAt path = some d ∧
      (d.isEndOfWord = true ∨ ∃ b, b ≠ c ∧ (root.dataAt (path ++ [b])).isSome = true) := by
  have hchild : ∀ n b, root.at? path = some n →
      (root.dataAt (path ++ [b])).isSome = (n.child? b).isSome := by
    intro n b hn
    rw [Tree.dataAt_append, hn, Option.bind_some, Tree.dataAt_cons]
    cases n.child? b <;> rfl
  constructor
  · rintro ⟨n, hn, hkept⟩
    refine ⟨n.data, Tree.dataAt_of_at? hn, hkept.imp_right ?_⟩
    rintro ⟨b, hb, hsome⟩
    exact ⟨b, hb, (hchild n b hn).trans hsome⟩
  · rintro ⟨d, hd, hkept⟩
    obtain ⟨n, hn, rfl⟩ := Option.map_eq_some_iff.mp hd
    refine ⟨n, hn, hkept.imp_right ?_⟩
    rintro ⟨b, hb, hsome⟩
    exact ⟨b, hb, (hchild n b hn).symm.trans hsome⟩

theorem cutRun_concat (q : Bytes) (b c : UInt8) :
    cutRun (q ++ [b, c]) = if b = c then cutRun (q ++ [b]) else q ++ [b, c] := by
  unfold cutRun
  simp only [List.reverse_append, List.reverse_cons, List.reverse_nil, List.nil_append,
    List.cons_append, cutRunRev]
  split <;> simp

theorem TidyBut.tidy (h : root.TidyBut p) (hp : p ≠ [] → ¬root.IsDead p) : root.TidyBut [] := by
  intro path hne hdead
  obtain rfl := h path hne hdead
  exact absurd hdead (hp hne)

/-- A node with a child is of use. -/
theorem IsDead.not_parent {q : Bytes} {b c : UInt8} (h : root.IsDead (q ++ [b, c])) :
    ¬root.IsDead (q ++ [b]) := by
  intro hparent
  obtain ⟨d, hd, -, -⟩ := isDead_iff.mp h
  obtain ⟨-, -, -, hnone⟩ := isDead_iff.mp hparent
  have hchild := hnone c
  rw [List.append_assoc] at hchild
  exact Option.some_ne_none d (hd.symm.trans hchild)

/-! ## The loop -/

/-- A run without its last character. -/
theorem run_concat (part : Bytes) (a : UInt8) (k : ℕ) :
    part ++ a :: List.replicate (k + 1) a = part ++ a :: List.replicate k a ++ [a] := by
  rw [List.replicate_succ', List.append_assoc, List.cons_append]

/-- A word whose last two characters differ does not end in a run. -/
theorem not_cleansUp {q : Bytes} {b c : UInt8} (hne : b ≠ c) : ¬root.CleansUp (q ++ [b, c]) := by
  rintro ⟨part, a, k, hword, -⟩
  have hsplit : q ++ [b, c] = (q ++ [b]) ++ [c] := by simp
  rw [hsplit, run_concat] at hword
  obtain ⟨hrest, hlast⟩ := List.append_inj' hword rfl
  cases hlast
  cases k with
  | zero =>
    cases (List.append_inj' hrest rfl).2
    exact hne rfl
  | succ k =>
    rw [run_concat] at hrest
    cases (List.append_inj' hrest rfl).2
    exact hne rfl

section

variable {q : Bytes} {b c : UInt8}

/-- What is found after the edge of the loop has been removed. -/
theorem dataAt_erased (path : Bytes) :
    Tree.dataAt (root.modify (·.eraseChild b) (q ++ [b])) path =
      if q ++ [b, b] <+: path then none else root.dataAt path := by
  rw [Tree.dataAt_modify_eraseChild, List.append_assoc]
  rfl

/-- A node that is still there has all its children, unless it is the parent. -/
theorem isDead_of_erased (hpath : path ≠ q ++ [b])
    (hdead : TrieNode.IsDead (root.modify (·.eraseChild b) (q ++ [b])) path) :
    ¬q ++ [b, b] <+: path ∧ root.IsDead path := by
  obtain ⟨d, hd, hend, hnone⟩ := isDead_iff.mp hdead
  rw [dataAt_erased] at hd
  split at hd
  · cases hd
  · next hbelow =>
    refine ⟨hbelow, isDead_iff.mpr ⟨d, hd, hend, fun k => ?_⟩⟩
    have hk := hnone k
    rwa [dataAt_erased, if_neg] at hk
    rw [List.prefix_concat_iff]
    rintro (heq | hprefix)
    · have hlast : q ++ [b, b] = (q ++ [b]) ++ [b] := by simp
      rw [hlast] at heq
      exact hpath (List.append_inj_left' heq rfl).symm
    · exact hbelow hprefix

/-- The right edge is removed: the parent may be of no use then. -/
theorem tidyBut_erased_of_eq (hbut : root.TidyBut (q ++ [b, c])) (hbc : b = c) :
    TrieNode.TidyBut (root.modify (·.eraseChild b) (q ++ [b])) (q ++ [b]) := by
  subst hbc
  intro path hne herased
  by_contra hpath
  obtain ⟨hbelow, hold⟩ := isDead_of_erased hpath herased
  exact hbelow (hbut path hne hold ▸ List.prefix_refl _)

/-- The wrong edge is removed: the node is still there, and of no use. -/
theorem isDead_erased_of_ne (hdead : root.IsDead (q ++ [b, c]))
    (hbut : root.TidyBut (q ++ [b, c])) (hbc : b ≠ c) :
    TrieNode.IsDead (root.modify (·.eraseChild b) (q ++ [b])) (q ++ [b, c]) ∧
      TrieNode.TidyBut (root.modify (·.eraseChild b) (q ++ [b])) (q ++ [b, c]) := by
  obtain ⟨d, hd, hend, hnone⟩ := isDead_iff.mp hdead
  have hthere : ∀ rest, ¬q ++ [b, b] <+: q ++ [b, c] ++ rest := by
    intro rest h
    rw [List.append_assoc, List.prefix_append_right_inj] at h
    simp [hbc] at h
  have hthere' : ∀ k, Tree.dataAt (root.modify (·.eraseChild b) (q ++ [b])) (q ++ [b, c] ++ [k]) =
      none := fun k => by rw [dataAt_erased, if_neg (hthere [k]), hnone k]
  have hstill : TrieNode.IsDead (root.modify (·.eraseChild b) (q ++ [b])) (q ++ [b, c]) := by
    refine isDead_iff.mpr ⟨d, ?_, hend, hthere'⟩
    rw [dataAt_erased, if_neg (by simpa using hthere []), hd]
  refine ⟨hstill, fun path hne herased => ?_⟩
  by_cases hpath : path = q ++ [b]
  · -- the parent still has the node as its child
    subst hpath
    exact absurd herased hstill.not_parent
  · exact hbut path hne (isDead_of_erased hpath herased).2

/-- The parent is still there, with all its other children. -/
theorem dataAt_erased_parent :
    Tree.dataAt (root.modify (·.eraseChild b) (q ++ [b])) (q ++ [b]) = root.dataAt (q ++ [b]) := by
  rw [dataAt_erased, if_neg]
  intro h
  have hlength := h.length_le
  simp at hlength

theorem dataAt_erased_sibling {k : UInt8} (hk : k ≠ b) :
    Tree.dataAt (root.modify (·.eraseChild b) (q ++ [b])) (q ++ [b] ++ [k]) =
      root.dataAt (q ++ [b] ++ [k]) := by
  rw [dataAt_erased, if_neg]
  intro h
  rw [List.append_assoc, List.prefix_append_right_inj] at h
  simp [Ne.symm hk] at h

/-- The parent is of no use then, if it was there, exactly if it was not kept without its child. -/
theorem isDead_erased_parent (hthere : (root.dataAt (q ++ [b])).isSome = true) :
    TrieNode.IsDead (root.modify (·.eraseChild b) (q ++ [b])) (q ++ [b]) ↔
      ¬root.IsKept (q ++ [b]) b := by
  rw [isDead_iff, isKept_iff, dataAt_erased_parent]
  constructor
  · rintro ⟨d, hd, hend, hnone⟩ ⟨d', hd', hkept⟩
    obtain rfl : d = d' := Option.some_injective _ (hd.symm.trans hd')
    rcases hkept with hmarked | ⟨k, hk, hsome⟩
    · rw [hend] at hmarked
      cases hmarked
    · rw [← dataAt_erased_sibling hk, hnone k] at hsome
      cases hsome
  · intro hkept
    obtain ⟨d, hd⟩ := Option.isSome_iff_exists.mp hthere
    refine ⟨d, hd, ?_, fun k => ?_⟩
    · by_contra hmarked
      exact hkept ⟨d, hd, Or.inl (by simpa using hmarked)⟩
    · by_contra hsome
      by_cases hk : k = b
      · subst hk
        exact hsome (by rw [dataAt_erased, if_pos (by simp)])
      · rw [dataAt_erased_sibling hk] at hsome
        exact hkept ⟨d, hd, Or.inr ⟨k, hk, Option.isSome_iff_ne_none.mpr hsome⟩⟩

/-- A node farther up keeps what it had. -/
theorem isKept_erased_iff {part : Bytes} {k : ℕ}
    (hrun : q ++ [b] = part ++ b :: List.replicate (k + 1) b) :
    TrieNode.IsKept (root.modify (·.eraseChild b) (q ++ [b])) (part ++ [b]) b ↔
      root.IsKept (part ++ [b]) b := by
  -- the edge is farther down, under the character of the run
  have hlong : q ++ [b, b] = part ++ [b] ++ b :: List.replicate (k + 1) b := by
    have hsplit : q ++ [b, b] = (q ++ [b]) ++ [b] := by simp
    rw [hsplit, hrun, ← run_concat, List.append_assoc]
    rfl
  have hsame : ∀ rest, ¬[b] <+: rest → Tree.dataAt (root.modify (·.eraseChild b) (q ++ [b]))
      (part ++ [b] ++ rest) = root.dataAt (part ++ [b] ++ rest) := by
    intro rest hrest
    rw [dataAt_erased, if_neg]
    intro h
    rw [hlong, List.prefix_append_right_inj] at h
    exact hrest ((List.prefix_append [b] _).trans h)
  have hnode := hsame [] (by simp)
  rw [List.append_nil] at hnode
  rw [isKept_iff, isKept_iff, hnode]
  refine exists_congr fun d => and_congr_right fun _ => or_congr_right ?_
  refine exists_congr fun k' => and_congr_right fun hk' => ?_
  rw [hsame [k'] (by simpa using Ne.symm hk')]

/-- The nodes above can be removed exactly if the parent is kept or they can be removed then. -/
theorem cleansUp_iff_erased (hdead : root.IsDead (q ++ [b, c])) (hbc : b = c) :
    root.CleansUp (q ++ [b, c]) ↔
      (TrieNode.IsDead (root.modify (·.eraseChild b) (q ++ [b])) (q ++ [b]) →
        TrieNode.CleansUp (root.modify (·.eraseChild b) (q ++ [b])) (q ++ [b])) := by
  subst hbc
  have hsplit : q ++ [b, b] = (q ++ [b]) ++ [b] := by simp
  have hthere : (root.dataAt (q ++ [b])).isSome = true := by
    obtain ⟨d, hd, -, -⟩ := isDead_iff.mp hdead
    rw [hsplit, Tree.dataAt_append] at hd
    obtain ⟨parent, hat, -⟩ := Option.bind_eq_some_iff.mp hd
    rw [Tree.dataAt_of_at? hat]
    rfl
  rw [isDead_erased_parent hthere]
  constructor
  · rintro ⟨part, a, k, hword, hkept⟩ hparent
    rw [hsplit, run_concat] at hword
    obtain ⟨hrest, hlast⟩ := List.append_inj' hword rfl
    cases hlast
    cases k with
    | zero =>
      rw [hrest] at hparent
      exact absurd hkept hparent
    | succ k => exact ⟨part, b, k, hrest, (isKept_erased_iff hrest).mpr hkept⟩
  · intro hcleans
    by_cases hkept : root.IsKept (q ++ [b]) b
    · exact ⟨q, b, 0, rfl, hkept⟩
    · obtain ⟨part, a, k, hrest, hkept'⟩ := hcleans hkept
      obtain rfl : a = b := by
        rw [run_concat] at hrest
        exact (List.singleton_inj.mp (List.append_inj' hrest rfl).2).symm
      exact ⟨part, a, k + 1, by rw [hsplit, hrest, ← run_concat],
        (isKept_erased_iff hrest).mp hkept'⟩

end

/-- The check of the loop. -/
theorem isDead_iff_check {n : TrieNode} (hn : root.at? path = some n) :
    (n.children.isEmpty && !n.data.isEndOfWord) = true ↔ root.IsDead path := by
  rw [Bool.and_eq_true, List.isEmpty_iff, Bool.not_eq_true']
  constructor
  · rintro ⟨hleaf, hend⟩
    exact ⟨n, hn, hleaf, hend⟩
  · rintro ⟨n', hn', hleaf, hend⟩
    rw [hn] at hn'
    cases hn'
    exact ⟨hleaf, hend⟩

/-- One turn of the loop: a node that is not of no use ends it. -/
theorem cleanUp_of_not_isDead {i : ℕ} (h : ¬root.IsDead (word.take (i + 1))) :
    cleanUp word (i + 1) root = root := by
  rw [cleanUp]
  cases hn : root.at? (word.take (i + 1)) with
  | none => rfl
  | some n =>
    simp only
    rw [if_neg]
    exact fun hcheck => h ((isDead_iff_check hn).mp hcheck)

theorem cleanUp_of_isDead {i : ℕ} (h : root.IsDead (word.take (i + 1))) :
    cleanUp word (i + 1) root = cleanUp word i (if 0 < i then
      root.modify (·.eraseChild (word.getD (i - 1) 0)) (word.take i) else root) := by
  obtain ⟨n, hn, -, -⟩ := id h
  rw [cleanUp]
  simp only [hn]
  rw [if_pos ((isDead_iff_check hn).mpr h)]

/-- The loop, started where only its node can be of no use, leaves nothing of no use if the nodes
to remove lie in a run, and else the first node of the run at the end of the word. -/
theorem cleanUp_spec {i : ℕ} (hi : i ≤ word.length) (hbut : root.TidyBut (word.take i)) :
    ((word.take i ≠ [] → root.IsDead (word.take i) → root.CleansUp (word.take i)) →
      TrieNode.TidyBut (cleanUp word i root) []) ∧
    (word.take i ≠ [] → root.IsDead (word.take i) → ¬root.CleansUp (word.take i) →
      TrieNode.IsDead (cleanUp word i root) (cutRun (word.take i)) ∧
        TrieNode.TidyBut (cleanUp word i root) (cutRun (word.take i))) := by
  induction i generalizing root with
  | zero => exact ⟨fun _ => hbut, fun h => absurd rfl h⟩
  | succ i ih =>
    by_cases hdead : root.IsDead (word.take (i + 1))
    swap
    · rw [cleanUp_of_not_isDead hdead]
      exact ⟨fun _ => hbut.tidy fun _ => hdead, fun _ h => absurd h hdead⟩
    have htake : ∀ j, j < word.length → word.take (j + 1) = word.take j ++ [word.getD j 0] := by
      intro j hj
      rw [List.take_succ_eq_append_getElem hj]
      simp [List.getD, hj]
    rw [cleanUp_of_isDead hdead]
    rcases i with _ | i
    · -- the child of the root is not removed
      rw [htake 0 (by omega), List.take_zero, List.nil_append] at hdead hbut ⊢
      have hno : ¬root.CleansUp [word.getD 0 0] := by
        rintro ⟨part, a, k, hword, -⟩
        have hlength := congrArg List.length hword
        simp only [List.length_append, List.length_cons, List.length_nil, List.length_replicate]
          at hlength
        omega
      exact ⟨fun h => absurd (h (by simp) hdead) hno, fun _ _ _ => ⟨hdead, hbut⟩⟩
    · have hword : word.take (i + 1 + 1) =
          word.take i ++ [word.getD i 0, word.getD (i + 1) 0] := by
        rw [htake (i + 1) (by omega), htake i (by omega), List.append_assoc]
        rfl
      rw [hword] at hdead hbut ⊢
      rw [if_pos (Nat.succ_pos i), Nat.add_sub_cancel]
      have hnext := htake i (by omega)
      rw [hnext] at ih ⊢
      by_cases hbc : word.getD i 0 = word.getD (i + 1) 0
      · have hih := ih (by omega) (tidyBut_erased_of_eq hbut hbc)
        rw [cutRun_concat, if_pos hbc, cleansUp_iff_erased hdead hbc]
        refine ⟨fun h => hih.1 fun _ => h (by simp) hdead, fun _ _ h => ?_⟩
        obtain ⟨hparent, hno⟩ := Classical.not_imp.mp h
        exact hih.2 (by simp) hparent hno
      · obtain ⟨hdead', hbut'⟩ := isDead_erased_of_ne hdead hbut hbc
        rw [cleanUp_of_not_isDead (by rw [hnext]; exact hdead'.not_parent), cutRun_concat,
          if_neg hbc]
        exact ⟨fun h => absurd (h (by simp) hdead) (not_cleansUp hbc),
          fun _ _ _ => ⟨hdead', hbut'⟩⟩

theorem cutRun_ne_nil (h : word ≠ []) : cutRun word ≠ [] := by
  have hrev : ∀ l : Bytes, l ≠ [] → cutRunRev l ≠ [] := by
    intro l
    induction l with
    | nil => exact fun h => absurd rfl h
    | cons c l ih =>
      cases l with
      | nil => simp [cutRunRev]
      | cons b l =>
        rw [cutRunRev]
        split
        · exact fun _ => ih (by simp)
        · simp
  unfold cutRun
  simpa using hrev word.reverse (by simpa using h)

/-! ## Marks -/

/-- All entries are removed from a node exactly if they are selected; then it is not marked. -/
theorem isEndOfWord_removeEntries {d : NodeData} (h : d.isEndOfWord = true ↔ d.metadata ≠ []) :
    ((removeEntries category userData d).isEndOfWord = true ↔
      (removeEntries category userData d).metadata ≠ []) ∧
    ((removeEntries category userData d).isEndOfWord = false ↔
      ∀ data ∈ d.metadata, selects category userData data = true) := by
  unfold removeEntries
  split
  · next hend =>
    refine ⟨by simp, ?_⟩
    by_cases hboth : (category.isEmpty && userData.isEmpty) = true
    · simp only [Bool.and_eq_true] at hboth
      simp [hboth, selects]
    · simp [hboth]
  · next hend =>
    have hnil : d.metadata = [] := by
      by_contra hne
      exact hend (h.mpr hne)
    simp [hend, hnil]

theorem EndsMarked.insert (h : root.EndsMarked) (word category userData : Bytes) :
    (root.insert word category userData).EndsMarked := by
  have hold : ∀ path, (((root.dataAt path).getD fresh).isEndOfWord = true ↔
      ((root.dataAt path).getD fresh).metadata ≠ []) := by
    intro path
    cases hd : root.dataAt path with
    | none => simp [fresh]
    | some d => exact h path d hd
  intro path d hd
  rw [TrieNode.insert, Tree.dataAt_grow] at hd
  split at hd
  · cases hd
    simp
  split at hd
  · cases hd
    exact hold path
  · exact h path d hd

theorem EndsMarked.deleteWord (h : root.EndsMarked) (word category userData : Bytes) :
    (root.deleteWord word category userData).EndsMarked := by
  unfold TrieNode.deleteWord
  split
  · exact h
  · intro path d hd
    rcases dataAt_cleanUp word word.length
      (root.modify (Tree.mapData (removeEntries category userData)) word) path with hnone | hsame
    · rw [hnone] at hd
      cases hd
    · rw [hsame, Tree.dataAt_modify_mapData] at hd
      split at hd
      · obtain ⟨d', hd', rfl⟩ := Option.map_eq_some_iff.mp hd
        exact (isEndOfWord_removeEntries (h _ d' hd')).1
      · exact h path d hd

/-! ## Operations -/

section

variable (category userData)

/-- What is found when the entries have been removed. -/
theorem dataAt_removed_ne {path' : Bytes} (hne : path' ≠ word) :
    Tree.dataAt (root.modify (Tree.mapData (removeEntries category userData)) word) path' =
      root.dataAt path' := by
  rw [Tree.dataAt_modify_mapData, if_neg hne]

theorem isSome_dataAt_removed (path' : Bytes) :
    (Tree.dataAt (root.modify (Tree.mapData (removeEntries category userData)) word) path').isSome =
      (root.dataAt path').isSome := by
  rw [Tree.dataAt_modify_mapData]
  split
  · next heq => rw [heq, Option.isSome_map]
  · rfl

/-- The node of the word is of no use then exactly if its last entry was taken. -/
theorem isDead_removed_iff (hmarked : root.EndsMarked) :
    TrieNode.IsDead (root.modify (Tree.mapData (removeEntries category userData)) word) word ↔
      root.TakesLast word category userData := by
  have hbehind : ∀ k, Tree.dataAt (root.modify (Tree.mapData (removeEntries category userData))
      word) (word ++ [k]) = root.dataAt (word ++ [k]) :=
    fun k => dataAt_removed_ne category userData (by simp)
  rw [isDead_iff]
  simp only [hbehind, Tree.dataAt_modify_mapData, if_true]
  constructor
  · rintro ⟨d', hd', hend, hnone⟩
    obtain ⟨d, hd, rfl⟩ := Option.map_eq_some_iff.mp hd'
    obtain ⟨n, hn, rfl⟩ := Option.map_eq_some_iff.mp hd
    exact ⟨n, hn, (Tree.children_eq_nil_iff hn).mpr hnone,
      (isEndOfWord_removeEntries (hmarked _ _ hd)).2.mp hend⟩
  · rintro ⟨n, hn, hleaf, hall⟩
    have hd := Tree.dataAt_of_at? hn
    exact ⟨removeEntries category userData n.data, by rw [hd, Option.map_some],
      (isEndOfWord_removeEntries (hmarked _ _ hd)).2.mpr hall,
      (Tree.children_eq_nil_iff hn).mp hleaf⟩

/-- No other node but the root becomes of no use by that. -/
theorem tidyBut_removed (htidy : root.TidyBut []) :
    TrieNode.TidyBut (root.modify (Tree.mapData (removeEntries category userData)) word) word := by
  intro path hne hdead
  by_contra hpath
  obtain ⟨d, hd, hend, hnone⟩ := isDead_iff.mp hdead
  rw [dataAt_removed_ne category userData hpath] at hd
  refine hne (htidy path hne (isDead_iff.mpr ⟨d, hd, hend, fun k => ?_⟩))
  have hsome := @isSome_dataAt_removed root word category userData (path ++ [k])
  rw [hnone k] at hsome
  exact Option.isNone_iff_eq_none.mp (by simpa using hsome.symm)

theorem cleansUp_removed_iff : TrieNode.CleansUp
    (root.modify (Tree.mapData (removeEntries category userData)) word) word ↔
      root.CleansUp word := by
  refine exists_congr fun part => exists_congr fun c => exists_congr fun k =>
    and_congr_right fun hword => ?_
  have hshort : part ++ [c] ≠ word := fun heq => by
    have hlength := congrArg List.length (heq.trans hword)
    simp only [List.length_append, List.length_cons, List.length_nil, List.length_replicate]
      at hlength
    omega
  rw [isKept_iff, isKept_iff]
  simp only [isSome_dataAt_removed, dataAt_removed_ne category userData hshort]

end

/-- A deletion leaves nothing of no use, or it leaves one node. -/
theorem deleteWord_spec (hmarked : root.EndsMarked) (htidy : root.TidyBut []) :
    ((word ≠ [] → root.TakesLast word category userData → root.CleansUp word) →
      (root.deleteWord word category userData).TidyBut []) ∧
    (word ≠ [] → root.TakesLast word category userData → ¬root.CleansUp word →
      (root.deleteWord word category userData).IsDead (cutRun word) ∧
        (root.deleteWord word category userData).TidyBut (cutRun word)) := by
  unfold deleteWord
  cases hn : root.at? word with
  | none =>
    refine ⟨fun _ => htidy, fun _ h => ?_⟩
    obtain ⟨n, hn', -⟩ := h
    rw [hn] at hn'
    cases hn'
  | some n =>
    have hspec := @cleanUp_spec (root.modify (Tree.mapData (removeEntries category userData)) word)
      word word.length le_rfl (by
        rw [List.take_length]
        exact tidyBut_removed category userData htidy)
    rw [List.take_length, isDead_removed_iff category userData hmarked,
      cleansUp_removed_iff] at hspec
    exact hspec

/-- An insertion makes the nodes on its way useful. -/
theorem isDead_insert_iff : (root.insert word category userData).IsDead path ↔
    root.IsDead path ∧ ¬path <+: word := by
  have hdata : ∀ path', ¬path' <+: word →
      (root.insert word category userData).dataAt path' = root.dataAt path' := by
    intro path' hout
    rw [TrieNode.insert, Tree.dataAt_grow, if_neg, if_neg hout]
    rintro rfl
    exact hout (List.prefix_refl _)
  by_cases hpath : path <+: word
  · refine iff_of_false (fun hdead => ?_) fun h => h.2 hpath
    obtain ⟨d, hd, hend, hnone⟩ := isDead_iff.mp hdead
    obtain ⟨rest, rfl⟩ := hpath
    cases rest with
    | nil =>
      rw [TrieNode.insert, Tree.dataAt_grow, List.append_nil, if_pos rfl] at hd
      cases hd
      cases hend
    | cons k rest =>
      have hchild := hnone k
      rw [TrieNode.insert, Tree.dataAt_grow] at hchild
      split at hchild
      · cases hchild
      · rw [if_pos (by simp)] at hchild
        cases hchild
  · have hbehind : ∀ k, ¬path ++ [k] <+: word := fun k h => hpath ((List.prefix_append _ _).trans h)
    rw [and_iff_left hpath, isDead_iff, isDead_iff, hdata path hpath]
    simp only [hdata _ (hbehind _)]

theorem tidyBut_insert (h : root.TidyBut []) :
    (root.insert word category userData).TidyBut [] :=
  fun path hne hdead => h path hne (isDead_insert_iff.mp hdead).1

/-- Nothing is of no use, and the nodes are marked: what an operation has to keep. -/
theorem carriesNoDeadWeight_iff :
    root.CarriesNoDeadWeight ↔ root.EndsMarked ∧ root.TidyBut [] := by
  constructor
  · intro h
    refine ⟨h.marked, fun path hne ⟨n, hn, hleaf, hend⟩ => ?_⟩
    rw [h.leaves path n hne hn hleaf] at hend
    cases hend
  · rintro ⟨hmarked, htidy⟩
    have hleaves : ∀ path n, path ≠ [] → root.at? path = some n → n.children = [] →
        n.data.isEndOfWord = true := by
      intro path n hne hn hleaf
      by_contra hend
      exact hne (htidy path hne ⟨n, hn, hleaf, by simpa using hend⟩)
    refine ⟨hmarked, hleaves, fun hnone => ?_⟩
    by_contra hchildren
    obtain ⟨path, n, hn, hleaf, hne⟩ := Tree.exists_leaf root
    have hend := hleaves path n (hne hchildren) hn hleaf
    have hfound := hnone path
    rw [search, hn] at hfound
    simp only [results, if_pos hend] at hfound
    exact (hmarked _ _ (Tree.dataAt_of_at? hn)).mp hend hfound

end

/-- The operation leaves no node of no use: where it takes the last entry of a node without
children, the nodes to remove lie in a run of one character that starts above them; or the word
is changed into one that goes through the node that is left over. -/
def LeavesNothing (root : TrieNode) : TrieOp → Prop
  | .insert _ _ _ => True
  | .deleteWord word category userData =>
    word ≠ [] → root.TakesLast word category userData → root.CleansUp word
  | .updateWord oldWord newWord category userData =>
    oldWord ≠ [] → root.TakesLast oldWord category userData →
      root.CleansUp oldWord ∨ cutRun oldWord <+: newWord

/-- One operation carries no dead weight into the trie exactly if it leaves nothing. -/
theorem step_carriesNoDeadWeight_iff (root : TrieNode) (op : TrieOp)
    (h : root.CarriesNoDeadWeight) :
    (root.step op).CarriesNoDeadWeight ↔ root.LeavesNothing op := by
  rw [carriesNoDeadWeight_iff] at h ⊢
  obtain ⟨hmarked, htidy⟩ := h
  cases op with
  | insert word category userData =>
    exact iff_of_true ⟨hmarked.insert _ _ _, tidyBut_insert htidy⟩ trivial
  | deleteWord word category userData =>
    obtain ⟨hclean, hleft⟩ := @deleteWord_spec root word category userData hmarked htidy
    refine ⟨fun h hne hlast => ?_, fun h => ⟨hmarked.deleteWord _ _ _, hclean h⟩⟩
    by_contra hno
    exact cutRun_ne_nil hne (h.2 _ (cutRun_ne_nil hne) (hleft hne hlast hno).1)
  | updateWord oldWord newWord category userData =>
    obtain ⟨hclean, hleft⟩ := @deleteWord_spec root oldWord category userData hmarked htidy
    have hmarked' := (hmarked.deleteWord oldWord category userData).insert newWord category userData
    constructor
    · intro h hne hlast
      by_contra hno
      rw [not_or] at hno
      have hdead := (hleft hne hlast hno.1).1
      exact cutRun_ne_nil hne (h.2 _ (cutRun_ne_nil hne) (isDead_insert_iff.mpr ⟨hdead, hno.2⟩))
    · intro h
      refine ⟨hmarked', ?_⟩
      by_cases hgood : oldWord ≠ [] → root.TakesLast oldWord category userData →
          root.CleansUp oldWord
      · exact tidyBut_insert (hclean hgood)
      · obtain ⟨hne, hrest⟩ := Classical.not_imp.mp hgood
        obtain ⟨hlast, hno⟩ := Classical.not_imp.mp hrest
        intro path hpath hdead
        obtain ⟨hdead, hout⟩ := isDead_insert_iff.mp hdead
        rw [(hleft hne hlast hno).2 path hpath hdead] at hout
        exact absurd ((h hne hlast).resolve_left hno) hout

end TrieNode

theorem empty_carriesNoDeadWeight : TrieNode.empty.CarriesNoDeadWeight := by
  refine ⟨fun path d hd => ?_, fun path n hne hn => ?_, fun _ => rfl⟩
  · cases path with
    | nil =>
      cases hd
      simp [TrieNode.empty, TrieNode.fresh, Tree.data]
    | cons c path => cases hd
  · cases path with
    | nil => exact absurd rfl hne
    | cons c path => cases hn

/-- The trie carries no dead weight in any state of a run exactly if no operation of the run
leaves a node of no use. -/
theorem trie_carriesNoDeadWeight_iff (ops : List TrieOp) :
    (∀ done, done <+: ops → (runAll TrieNode.step .empty done).CarriesNoDeadWeight) ↔
      EachEvent TrieNode.step TrieNode.LeavesNothing .empty ops :=
  forall_runAll_iff TrieNode.step_carriesNoDeadWeight_iff empty_carriesNoDeadWeight

theorem TrieNode.step_endsMarked {root : TrieNode} (h : root.EndsMarked) (op : TrieOp) :
    (root.step op).EndsMarked := by
  cases op with
  | insert word category userData => exact h.insert word category userData
  | deleteWord word category userData => exact h.deleteWord word category userData
  | updateWord oldWord newWord category userData =>
    exact (h.deleteWord oldWord category userData).insert newWord category userData

/-- The marks are right in every run, also where nodes are left over. -/
theorem trie_endsMarked (ops : List TrieOp) : (runAll TrieNode.step .empty ops).EndsMarked :=
  List.foldlRecOn ops _ empty_carriesNoDeadWeight.marked fun _ h op _ =>
    TrieNode.step_endsMarked h op

/-- A word of one character is stored and deleted. -/
def leftoverOps : List TrieOp :=
  [.insert (ascii "a") (ascii "c") (ascii "u"), .deleteWord (ascii "a") [] []]

/-- Its node stays in the trie. -/
theorem not_carriesNoDeadWeight_leftover :
    ¬(runAll TrieNode.step .empty leftoverOps).CarriesNoDeadWeight := by
  intro h
  have hend := h.leaves (ascii "a") (.node TrieNode.fresh []) (by decide) rfl rfl
  cases hend

end Quarks
