import Quarks.Search.Trie

/-!
# The trie as a multimap

The trie holds a list of entries under each word. Inserting adds an entry at the end of
the list, and deleting removes the entries that are selected. The nodes that are left
over after a deletion are removed from the bottom; the source looks for the edge to
remove by the character of the wrong node, which is right as long as the two characters
are equal and removes the words of another subtree otherwise.
-/

namespace Quarks

open Basis

namespace TrieNode

/-- A node that is not the end of a word has no entries. -/
def WellFormed (root : TrieNode) : Prop :=
  ∀ path d, root.dataAt path = some d → d.isEndOfWord = false → d.metadata = []

section

variable {root : TrieNode} {word category userData : Bytes}

theorem search_eq (root : TrieNode) (word : Bytes) :
    root.search word = ((root.dataAt word).map results).getD [] := by
  unfold search Tree.dataAt
  cases root.at? word <;> rfl

/-! ## Inserting -/

theorem search_insert (h : root.WellFormed) (path : Bytes) :
    (root.insert word category userData).search path =
      if path = word then root.search word ++ [⟨category, userData⟩] else root.search path := by
  rw [search_eq, search_eq root path, insert, Tree.dataAt_grow]
  split
  · rw [search_eq]
    cases hd : root.dataAt word with
    | none => rfl
    | some d =>
      cases hend : d.isEndOfWord with
      | false => simp [results, hend, h word d hd hend]
      | true => simp [results, hend]
  split
  · cases root.dataAt path <;> rfl
  · rfl

theorem insert_wellFormed (h : root.WellFormed) (word category userData : Bytes) :
    (root.insert word category userData).WellFormed := by
  intro path d hd hend
  rw [insert, Tree.dataAt_grow] at hd
  split at hd
  · cases hd
    cases hend
  split at hd
  · cases hd
    cases hold : root.dataAt path with
    | none => rfl
    | some d => exact h path d hold (by simpa [hold] using hend)
  · exact h path d hd hend

/-! ## Removing nodes -/

/-- Removing nodes leaves the data of the others as they are. -/
theorem dataAt_cleanUp (word : Bytes) (i : ℕ) (root : TrieNode) (path : Bytes) :
    (cleanUp word i root).dataAt path = none ∨
      (cleanUp word i root).dataAt path = root.dataAt path := by
  induction i generalizing root with
  | zero => exact Or.inr rfl
  | succ i ih =>
    unfold cleanUp
    split
    · exact Or.inr rfl
    split
    · split
      · rcases ih (root.modify (·.eraseChild (word.getD (i - 1) 0)) (word.take i)) with h | h
        · exact Or.inl h
        · rw [h, Tree.dataAt_modify_eraseChild]
          split
          · exact Or.inl rfl
          · exact Or.inr rfl
      · exact ih root
    · exact Or.inr rfl

/-- Below a part of a word, up to the first character of its last run, there are only the
nodes of the word, and none of them is the end of a word. Then no word starts with that
part with the character before the run in the place of the run. -/
def SafeToClean (word : Bytes) (root : TrieNode) : Prop :=
  ∀ part b c k, word = part ++ b :: List.replicate (k + 1) c → b ≠ c →
    (∀ path d, part ++ [b, c] <+: path → root.dataAt path = some d →
      path <+: word ∧ d.isEndOfWord = false) →
    ∀ path, part ++ [b, b] <+: path → root.search path = []

section

variable {node : TrieNode} {part : Bytes} {b c : UInt8}
  (hnode : root.at? (part ++ [b, c]) = some node) (hleaf : node.children = [])
  (hend : node.data.isEndOfWord = false) (hsafe : SafeToClean (part ++ [b, c]) root)
include hnode hleaf hend

/-- Below the node that is left over there are no nodes, and it is not the end of a word. -/
theorem of_leftover {path : Bytes} {d : NodeData} (hpath : part ++ [b, c] <+: path)
    (hd : root.dataAt path = some d) : path = part ++ [b, c] ∧ d.isEndOfWord = false := by
  have heq : path = part ++ [b, c] := Tree.eq_of_prefix_of_leaf hnode hleaf hpath hd
  subst heq
  rw [Tree.dataAt_of_at? hnode] at hd
  cases hd
  exact ⟨rfl, hend⟩

include hsafe

/-- One step of the loop leaves every word as it is. -/
theorem search_eraseChild (path : Bytes) :
    TrieNode.search (root.modify (·.eraseChild b) (part ++ [b])) path = root.search path := by
  rw [search_eq, Tree.dataAt_modify_eraseChild]
  split
  · next hpath =>
    rw [List.append_assoc] at hpath
    by_cases hbc : b = c
    · -- the edge of the node itself is removed
      subst hbc
      rw [search_eq]
      cases hd : root.dataAt path with
      | none => rfl
      | some d => simp [results, (of_leftover hnode hleaf hend hpath hd).2]
    · refine (hsafe part b c 0 rfl hbc (fun path d hpath hd => ?_) path hpath).symm
      obtain ⟨heq, hd⟩ := of_leftover hnode hleaf hend hpath hd
      exact ⟨heq ▸ List.prefix_refl _, hd⟩
  · rw [search_eq]

/-- The next step of the loop is safe as well. -/
theorem safeToClean_eraseChild :
    SafeToClean (part ++ [b]) (root.modify (·.eraseChild b) (part ++ [b])) := by
  intro part' b' c' k heq hne hbare path hpath
  rw [search_eraseChild hnode hleaf hend hsafe]
  have hsplit : part' ++ b' :: List.replicate (k + 1) c' =
      (part' ++ b' :: List.replicate k c') ++ [c'] := by
    rw [List.replicate_succ']
    simp
  obtain ⟨-, hlast⟩ := List.append_inj' (heq.trans hsplit) rfl
  cases hlast
  have hbelow : part' ++ [b', b] <+: part ++ [b] := by
    rw [heq, List.replicate_succ]
    exact ⟨List.replicate k b, by simp⟩
  by_cases hbc : b = c
  · subst hbc
    refine hsafe part' b' b (k + 1) ?_ hne (fun path d hpath hd => ?_) path hpath
    · have hword : part ++ [b, b] = (part ++ [b]) ++ [b] := by simp
      rw [hword, heq, List.replicate_succ' (n := k + 1)]
      simp
    · by_cases herased : part ++ [b] ++ [b] <+: path
      · rw [List.append_assoc] at herased
        obtain ⟨heq, hd⟩ := of_leftover hnode hleaf hend herased hd
        exact ⟨heq ▸ List.prefix_refl _, hd⟩
      · obtain ⟨hword, hd⟩ := hbare path d hpath (by
          rw [Tree.dataAt_modify_eraseChild, if_neg herased]
          exact hd)
        exact ⟨hword.trans ⟨[b], by simp⟩, hd⟩
  · -- the node is still there, so that its parent is not left over
    exfalso
    have hthere : Tree.dataAt (root.modify (·.eraseChild b) (part ++ [b])) (part ++ [b, c]) =
        some node.data := by
      rw [Tree.dataAt_modify_eraseChild, if_neg, Tree.dataAt_of_at? hnode]
      rw [List.append_assoc, List.prefix_append_right_inj]
      simp [hbc]
    obtain ⟨hlong, -⟩ := hbare (part ++ [b, c]) node.data (hbelow.trans ⟨[c], by simp⟩) hthere
    have hlength := hlong.length_le
    simp at hlength

end

/-- The loop leaves every word as it is, if it is safe. -/
theorem search_cleanUp {i : ℕ} (hi : i ≤ word.length) (hsafe : SafeToClean (word.take i) root)
    (path : Bytes) : (cleanUp word i root).search path = root.search path := by
  induction i generalizing root with
  | zero => rfl
  | succ i ih =>
    unfold cleanUp
    cases hnode : root.at? (word.take (i + 1)) with
    | none => rfl
    | some node =>
      simp only
      split
      · next hleaf =>
        simp only [Bool.and_eq_true, List.isEmpty_iff, Bool.not_eq_true'] at hleaf
        obtain ⟨hleaf, hend⟩ := hleaf
        rcases i with _ | i
        · rfl
        · rw [if_pos (Nat.succ_pos i), Nat.add_sub_cancel]
          have htake : ∀ j, j < word.length →
              word.take (j + 1) = word.take j ++ [word.getD j 0] := by
            intro j hj
            rw [List.take_succ_eq_append_getElem hj]
            simp [List.getD, hj]
          have hparent := htake i (by omega)
          have hword : word.take (i + 1 + 1) =
              word.take i ++ [word.getD i 0, word.getD (i + 1) 0] := by
            rw [htake (i + 1) (by omega), hparent, List.append_assoc]
            rfl
          rw [hword] at hnode hsafe
          rw [hparent]
          rw [ih (by omega), search_eraseChild hnode hleaf hend hsafe]
          rw [hparent]
          exact safeToClean_eraseChild hnode hleaf hend hsafe
      · rfl

/-! ## Deleting -/

/-- What the node of a word holds after its entries have been removed. -/
theorem results_removeEntries (category userData : Bytes) (d : NodeData) :
    results (removeEntries category userData d) =
      (results d).filter fun data => !selects category userData data := by
  unfold removeEntries
  split
  · next hend =>
    by_cases hboth : category.isEmpty && userData.isEmpty
    · have hall : ∀ data, selects category userData data = true := by
        intro data
        simp only [Bool.and_eq_true] at hboth
        simp [selects, hboth.1, hboth.2]
      simp [hboth, results, hall]
    · simp only [hboth, Bool.false_eq_true, if_false, results, hend, if_true]
      split
      · rfl
      · next hempty => simpa using hempty
  · next hend => simp [results, hend]

/-- A deletion removes nothing but the entries selected, or the word ends in a run of one
character, no other word and no other node starts with its part up to the first of them,
and a word starts with that part with the character before the run in its place: such words
are removed as well. -/
def LosesWord (root : TrieNode) (word category userData : Bytes) : Prop :=
  ∃ part b c k, word = part ++ b :: List.replicate (k + 1) c ∧ b ≠ c ∧
    (∀ path d, part ++ [b, c] <+: path → root.dataAt path = some d →
      path <+: word ∧ (d.isEndOfWord = true → path = word ∧
        ∀ data ∈ d.metadata, selects category userData data = true)) ∧
    ∃ path, part ++ [b, b] <+: path ∧ root.search path ≠ []

theorem search_deleteWord (hsafe : (root.at? word).isSome = true →
      ¬LosesWord root word category userData) (path : Bytes) :
    (root.deleteWord word category userData).search path =
      if path = word then (root.search word).filter fun data => !selects category userData data
      else root.search path := by
  cases hnode : root.at? word with
  | none =>
    have hnone : root.search word = [] := by simp [search, hnode]
    simp only [deleteWord, hnode]
    split
    · next h => rw [h, hnone, List.filter_nil]
    · rfl
  | some node =>
    have hremoved : ∀ path, TrieNode.search
        (root.modify (Tree.mapData (removeEntries category userData)) word) path =
        if path = word then (root.search word).filter fun data => !selects category userData data
        else root.search path := by
      intro path
      rw [search_eq, Tree.dataAt_modify_mapData]
      split
      · rw [search_eq]
        cases root.dataAt word with
        | none => rfl
        | some d => exact results_removeEntries category userData d
      · rw [search_eq]
    simp only [deleteWord, hnode]
    rw [← hremoved path]
    refine search_cleanUp (le_refl _) ?_ path
    rw [List.take_length]
    intro part b c k hword hne hbare path hpath
    have hpathne : path ≠ word := by
      rintro rfl
      rw [hword, List.prefix_append_right_inj, List.replicate_succ] at hpath
      simp [hne] at hpath
    rw [hremoved path, if_neg hpathne]
    by_contra hlost
    refine hsafe (by rw [hnode]; rfl) ⟨part, b, c, k, hword, hne, fun path d hpath hd => ?_, path,
      hpath, hlost⟩
    have hdata := Tree.dataAt_modify_mapData root word (removeEntries category userData) path
    by_cases heq : path = word
    · subst heq
      rw [if_pos rfl, hd, Option.map_some] at hdata
      obtain ⟨-, hend⟩ := hbare path _ hpath hdata
      refine ⟨List.prefix_refl _, fun hword => ⟨rfl, fun data hdata => ?_⟩⟩
      have hempty : results (removeEntries category userData d) = [] := by simp [results, hend]
      rw [results_removeEntries, List.filter_eq_nil_iff] at hempty
      simpa using hempty data (by simpa [results, hword] using hdata)
    · rw [if_neg heq, hd] at hdata
      obtain ⟨hpart, hend⟩ := hbare path d hpath hdata
      exact ⟨hpart, fun h => by rw [hend] at h; cases h⟩

theorem deleteWord_wellFormed (h : root.WellFormed) (word category userData : Bytes) :
    (root.deleteWord word category userData).WellFormed := by
  cases hnode : root.at? word with
  | none =>
    simp only [deleteWord, hnode]
    exact h
  | some node =>
    simp only [deleteWord, hnode]
    intro path d hd hend
    rcases dataAt_cleanUp word word.length
      (root.modify (Tree.mapData (removeEntries category userData)) word) path with hnone | hsame
    · rw [hnone] at hd
      cases hd
    · rw [hsame, Tree.dataAt_modify_mapData] at hd
      split at hd
      · obtain ⟨d', hd', rfl⟩ := Option.map_eq_some_iff.mp hd
        unfold removeEntries at hend ⊢
        split
        · next hend' => simpa [hend'] using hend
        · next hend' => exact h word d' hd' (by simpa using hend')
      · exact h path d hd hend

end

end TrieNode

/-! ## Runs -/

/-- The operations on a trie that change it. -/
inductive TrieOp
  | insert (word category userData : Bytes)
  | deleteWord (word category userData : Bytes)
  | updateWord (oldWord newWord category userData : Bytes)

/-- The trie after an operation. -/
def TrieNode.step (root : TrieNode) : TrieOp → TrieNode
  | .insert word category userData => root.insert word category userData
  | .deleteWord word category userData => root.deleteWord word category userData
  | .updateWord oldWord newWord category userData =>
    root.updateWord oldWord newWord category userData

/-- A list of entries under each word, in the order of their insertion. -/
abbrev Multimap := Bytes → List WordData

namespace Multimap

/-- Add an entry to a word. -/
def insert (m : Multimap) (word category userData : Bytes) : Multimap :=
  Function.update m word (m word ++ [⟨category, userData⟩])

/-- Remove the entries of a word that have the category and the user data, where these
are not empty. -/
def delete (m : Multimap) (word category userData : Bytes) : Multimap :=
  Function.update m word ((m word).filter fun data => !TrieNode.selects category userData data)

/-- The multimap after an operation. -/
def step (m : Multimap) : TrieOp → Multimap
  | .insert word category userData => m.insert word category userData
  | .deleteWord word category userData => m.delete word category userData
  | .updateWord oldWord newWord category userData =>
    (m.delete oldWord category userData).insert newWord category userData

end Multimap

/-- The operation removes no other word than its own. -/
def KeepsWords (root : TrieNode) : TrieOp → Prop
  | .insert _ _ _ => True
  | .deleteWord word category userData | .updateWord word _ category userData =>
    (root.at? word).isSome = true → ¬root.LosesWord word category userData

/-- The trie holds what the multimap does. -/
structure Represents (root : TrieNode) (m : Multimap) : Prop where
  wellFormed : root.WellFormed
  search : ∀ word, root.search word = m word

theorem Represents.insert {root : TrieNode} {m : Multimap} (h : Represents root m)
    (word category userData : Bytes) :
    Represents (root.insert word category userData) (m.insert word category userData) := by
  refine ⟨TrieNode.insert_wellFormed h.wellFormed _ _ _, fun path => ?_⟩
  rw [TrieNode.search_insert h.wellFormed, Multimap.insert, Function.update_apply, h.search,
    h.search]

theorem Represents.delete {root : TrieNode} {m : Multimap} (h : Represents root m)
    {word category userData : Bytes}
    (hsafe : (root.at? word).isSome = true → ¬root.LosesWord word category userData) :
    Represents (root.deleteWord word category userData) (m.delete word category userData) := by
  refine ⟨TrieNode.deleteWord_wellFormed h.wellFormed _ _ _, fun path => ?_⟩
  rw [TrieNode.search_deleteWord hsafe, Multimap.delete, Function.update_apply, h.search, h.search]

/-- An operation that removes no other word keeps the trie and the multimap together. -/
theorem step_represents {root : TrieNode} {m : Multimap} (op : TrieOp) (h : Represents root m)
    (hsafe : KeepsWords root op) : Represents (root.step op) (m.step op) := by
  cases op with
  | insert word category userData => exact h.insert word category userData
  | deleteWord word category userData => exact h.delete hsafe
  | updateWord oldWord newWord category userData =>
    exact (h.delete hsafe).insert newWord category userData

theorem empty_represents : Represents .empty fun _ => [] := by
  refine ⟨fun path d hd hend => ?_, fun word => ?_⟩
  · cases path with
    | nil =>
      cases hd
      rfl
    | cons c path => cases hd
  · cases word <;> rfl

/-- In every state of a run in which no deletion removes another word, the trie is the
multimap that the same operations make. -/
theorem trie_is_multimap {ops done : List TrieOp}
    (hops : EachEvent TrieNode.step KeepsWords .empty ops) (hdone : done <+: ops) (word : Bytes) :
    (runAll TrieNode.step .empty done).search word = runAll Multimap.step (fun _ => []) done word :=
  (runAll_simulates (fun _ _ op h hsafe => step_represents op h hsafe) empty_represents hops
    hdone).search word

/-- A word is deleted below which there is nothing else. -/
def keptOps : List TrieOp :=
  [.insert (ascii "aab") (ascii "c") (ascii "u"), .insert (ascii "ab") (ascii "c") (ascii "v"),
    .deleteWord (ascii "aab") [] (ascii "u")]

/-- The theorem at these operations. -/
theorem trie_is_multimap_kept : (runAll TrieNode.step .empty keptOps).search (ascii "ab") =
    runAll Multimap.step (fun _ => []) keptOps (ascii "ab") := by
  have hkept : EachEvent TrieNode.step KeepsWords .empty keptOps := by
    refine ⟨trivial, trivial, fun _ => ?_, trivial⟩
    rintro ⟨part, b, c, k, hword, hne, -, path, hpath, hfound⟩
    have hstored : path = ascii "ab" ∨ path = ascii "aab" := by
      have hempty := empty_represents
      have hfirst := hempty.insert (ascii "aab") (ascii "c") (ascii "u")
      have hsecond := hfirst.insert (ascii "ab") (ascii "c") (ascii "v")
      by_contra hnot
      rw [not_or] at hnot
      refine hfound ((hsecond.search path).trans ?_)
      rw [Multimap.insert, Multimap.insert, Function.update_of_ne hnot.1,
        Function.update_of_ne hnot.2]
    rcases hstored with rfl | rfl
    · have hword : ascii "ab" = [97, 98] := rfl
      rw [hword] at hpath
      have hlength := hpath.length_le
      simp only [List.length_append, List.length_cons, List.length_nil] at hlength
      have hpart : part = [] := List.eq_nil_of_length_eq_zero (by omega)
      subst hpart
      simp at hpath
      exact absurd (hpath.1.symm.trans hpath.2) (by decide)
    · rw [hword, List.prefix_append_right_inj, List.replicate_succ] at hpath
      simp [hne] at hpath
  exact trie_is_multimap hkept (List.prefix_refl _) _

/-- A word is deleted whose part before the last character ends in the same character as
another word goes on with. -/
def lostOps : List TrieOp :=
  [.insert (ascii "aab") (ascii "c") (ascii "u"), .insert (ascii "ab") (ascii "c") (ascii "v"),
    .deleteWord (ascii "ab") [] []]

/-- Deleting `ab` removes `aab` as well. -/
theorem trie_loses_word : (runAll TrieNode.step .empty lostOps).search (ascii "aab") ≠
    runAll Multimap.step (fun _ => []) lostOps (ascii "aab") := by
  decide +kernel

end Quarks
