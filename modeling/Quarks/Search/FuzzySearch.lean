import Quarks.Basis.EditDistance
import Quarks.Search.Queries

/-!
# Fuzzy search

`fuzzySearch` walks over the trie along the query and counts edits on its way. The walk can
leave out a character of the trie and put one in the place of another, but it cannot leave
out a character of the query; on the other hand it accepts a word before the query ends.
It finds the words that grow out of a part of the query from its start.
-/

namespace Quarks

open Basis

namespace TrieNode

/-- `results` and `uniqueWords` of `fuzzySearch`. -/
structure FuzzyState where
  results : Found
  uniqueWords : List Bytes

/-- Append the entries of a word, unless they have been appended before. -/
def FuzzyState.record (s : FuzzyState) (current : Bytes) (d : NodeData) : FuzzyState :=
  if current ∈ s.uniqueWords then s
  else ⟨s.results ++ d.metadata.map fun data => (current, data), current :: s.uniqueWords⟩

section

variable (query : Bytes) (maxEdits : ℤ)

mutual

/-- `MMapTrie::fuzzySearchHelper`. -/
def fuzzySearchHelper : TrieNode → Bytes → ℕ → ℕ → FuzzyState → FuzzyState
  | .node d children, current, queryIndex, edits, s =>
    if maxEdits < edits then s
    else
      let s := if queryIndex = query.length && d.isEndOfWord then s.record current d else s
      let s := fuzzySearchChildren children current queryIndex edits s
      if edits ≤ maxEdits && d.isEndOfWord then s.record current d else s

/-- The loop of `fuzzySearchHelper` over the children of a node. -/
def fuzzySearchChildren : List (UInt8 × TrieNode) → Bytes → ℕ → ℕ → FuzzyState → FuzzyState
  | [], _, _, _, s => s
  | (ch, nextNode) :: rest, current, queryIndex, edits, s =>
    let cost := if queryIndex < query.length && query.getD queryIndex 0 = ch then 0 else 1
    let s := if queryIndex < query.length then
      fuzzySearchHelper nextNode (current ++ [ch]) (queryIndex + 1) (edits + cost) s else s
    let s := if edits + 1 ≤ maxEdits then
      fuzzySearchHelper nextNode (current ++ [ch]) queryIndex (edits + 1) s else s
    fuzzySearchChildren rest current queryIndex edits s

end

end

/-- `MMapTrie::fuzzySearch`. -/
def fuzzySearch (root : TrieNode) (query : Bytes) (maxEdits : ℤ) : Found :=
  (fuzzySearchHelper query maxEdits root [] 0 0 ⟨[], []⟩).results

/-! ## The words that are met -/

/-- The walk that stands at the node of `current`, with the characters of the query from an
index on ahead and some edits done, accepts a word below. -/
def Accepts (query : Bytes) (k queryIndex edits : ℕ) (current word : Bytes) : Prop :=
  ∃ rest, word = current ++ rest ∧ edits ≤ k ∧
    GrownFromPrefix (k - edits) (query.drop queryIndex) rest

section

variable {query : Bytes} {k queryIndex edits : ℕ} {current word : Bytes}

theorem accepts_self (hedits : edits ≤ k) : Accepts query k queryIndex edits current current :=
  ⟨[], (List.append_nil current).symm, hedits, grownFromPrefix_nil _ _⟩

/-- A word below a child is accepted on one of the two ways to that child. -/
theorem accepts_child_iff {ch : UInt8} (hedits : edits ≤ k) (hword : current ++ [ch] <+: word) :
    Accepts query k queryIndex edits current word ↔
      (queryIndex < query.length ∧ Accepts query k (queryIndex + 1)
        (edits + if queryIndex < query.length && query.getD queryIndex 0 = ch then 0 else 1)
        (current ++ [ch]) word) ∨
      (edits + 1 ≤ k ∧ Accepts query k queryIndex (edits + 1) (current ++ [ch]) word) := by
  obtain ⟨rest, rfl⟩ := hword
  have hunder : ∀ i e, Accepts query k i e (current ++ [ch]) (current ++ [ch] ++ rest) ↔
      e ≤ k ∧ GrownFromPrefix (k - e) (query.drop i) rest := by
    intro i e
    constructor
    · rintro ⟨rest', heq, h⟩
      exact List.append_cancel_left heq ▸ h
    · intro h
      exact ⟨rest, rfl, h⟩
  have hhere : Accepts query k queryIndex edits current (current ++ [ch] ++ rest) ↔
      GrownFromPrefix (k - edits) (query.drop queryIndex) (ch :: rest) := by
    rw [List.append_assoc, List.singleton_append]
    constructor
    · rintro ⟨rest', heq, -, h⟩
      exact List.append_cancel_left heq ▸ h
    · intro h
      exact ⟨ch :: rest, rfl, hedits, h⟩
  rw [hhere, hunder, hunder, grownFromPrefix_cons_iff]
  refine or_congr ?_ ?_
  · by_cases hindex : queryIndex < query.length
    · rw [List.drop_eq_getElem_cons hindex]
      have hget : query.getD queryIndex 0 = query[queryIndex] := by simp [hindex]
      simp only [hindex, decide_true, Bool.true_and, hget, true_and, decide_eq_true_eq]
      constructor
      · rintro ⟨c, s, heq, hcost, hgrown⟩
        cases heq
        refine ⟨by omega, ?_⟩
        rwa [Nat.sub_sub] at hgrown
      · rintro ⟨hcost, hgrown⟩
        refine ⟨_, _, rfl, by omega, ?_⟩
        rwa [Nat.sub_sub]
    · rw [List.drop_eq_nil_of_le (by omega)]
      simp [hindex]
  · rw [Nat.sub_sub]
    constructor
    · rintro ⟨hk, hgrown⟩
      exact ⟨by omega, by omega, hgrown⟩
    · rintro ⟨-, hk, hgrown⟩
      exact ⟨by omega, hgrown⟩

end

section

variable (query : Bytes) (k : ℕ)

theorem mem_record {s : FuzzyState} {current word : Bytes} {d : NodeData} :
    word ∈ (s.record current d).uniqueWords ↔ word = current ∨ word ∈ s.uniqueWords := by
  unfold FuzzyState.record
  split
  · next hmem =>
    constructor
    · exact Or.inr
    · rintro (rfl | h)
      · exact hmem
      · exact h
  · exact List.mem_cons

mutual

/-- The words met by the walk at a node are the ends of words below that it accepts. -/
theorem mem_fuzzySearchHelper : ∀ (node : TrieNode) (current : Bytes) (queryIndex edits : ℕ)
    (s : FuzzyState) (word : Bytes),
    word ∈ (fuzzySearchHelper query k node current queryIndex edits s).uniqueWords ↔
      word ∈ s.uniqueWords ∨ ∃ d, (word, d) ∈ node.nodes current ∧ d.isEndOfWord = true ∧
        Accepts query k queryIndex edits current word
  | .node d children, current, queryIndex, edits, s, word => by
    rw [fuzzySearchHelper]
    split
    · next hmany =>
      constructor
      · exact Or.inl
      · rintro (h | ⟨d, -, -, rest, -, hedits, -⟩)
        · exact h
        · omega
    · next hfew =>
      have hedits : edits ≤ k := by omega
      have hhere : ∀ {p : Bool} {s : FuzzyState},
          word ∈ (if p && d.isEndOfWord then s.record current d else s).uniqueWords ↔
            word ∈ s.uniqueWords ∨ (p = true ∧ d.isEndOfWord = true ∧ word = current) := by
        intro p s
        split
        · next hp =>
          rw [Bool.and_eq_true] at hp
          rw [mem_record]
          tauto
        · next hp =>
          rw [Bool.and_eq_true] at hp
          tauto
      dsimp only
      rw [hhere, mem_fuzzySearchChildren children current queryIndex edits hedits, hhere,
        Tree.nodes]
      constructor
      · rintro (((h | ⟨-, hend, rfl⟩) | ⟨d', hd', h⟩) | ⟨-, hend, rfl⟩)
        · exact Or.inl h
        · exact Or.inr ⟨d, List.mem_cons_self, hend, accepts_self hedits⟩
        · exact Or.inr ⟨d', List.mem_cons_of_mem _ hd', h⟩
        · exact Or.inr ⟨d, List.mem_cons_self, hend, accepts_self hedits⟩
      · rintro (h | ⟨d', hd', hend, haccepts⟩)
        · exact Or.inl (Or.inl (Or.inl h))
        · rcases List.mem_cons.mp hd' with heq | hd'
          · cases heq
            exact Or.inr ⟨by simpa using hedits, hend, rfl⟩
          · exact Or.inl (Or.inr ⟨d', hd', hend, haccepts⟩)

theorem mem_fuzzySearchChildren : ∀ (children : List (UInt8 × TrieNode)) (current : Bytes)
    (queryIndex edits : ℕ) (_ : edits ≤ k) (s : FuzzyState) (word : Bytes),
    word ∈ (fuzzySearchChildren query k children current queryIndex edits s).uniqueWords ↔
      word ∈ s.uniqueWords ∨ ∃ d, (word, d) ∈ Tree.nodesBelow children current ∧
        d.isEndOfWord = true ∧ Accepts query k queryIndex edits current word
  | [], _, _, _, _, _, _ => by simp [fuzzySearchChildren, Tree.nodesBelow]
  | (ch, nextNode) :: rest, current, queryIndex, edits, hedits, s, word => by
    have hway : ∀ {p : Prop} [Decidable p] {s : FuzzyState} {i e : ℕ},
        word ∈ (if p then fuzzySearchHelper query k nextNode (current ++ [ch]) i e s
          else s).uniqueWords ↔ word ∈ s.uniqueWords ∨
            ∃ d, (word, d) ∈ nextNode.nodes (current ++ [ch]) ∧ d.isEndOfWord = true ∧
              p ∧ Accepts query k i e (current ++ [ch]) word := by
      intro p _ s i e
      split
      · next hp => simp only [mem_fuzzySearchHelper nextNode, hp, true_and]
      · next hp => simp [hp]
    rw [fuzzySearchChildren, mem_fuzzySearchChildren rest current queryIndex edits hedits, hway,
      hway, Tree.nodesBelow]
    have hchild : ∀ d, (word, d) ∈ nextNode.nodes (current ++ [ch]) →
        (Accepts query k queryIndex edits current word ↔ _) := fun d hd =>
      accepts_child_iff hedits (Tree.prefix_of_mem_nodes hd)
    constructor
    · rintro (((h | ⟨d, hd, hend, h⟩) | ⟨d, hd, hend, h⟩) | ⟨d, hd, h⟩)
      · exact Or.inl h
      · exact Or.inr ⟨d, List.mem_append_left _ hd, hend, (hchild d hd).mpr (Or.inl h)⟩
      · refine Or.inr ⟨d, List.mem_append_left _ hd, hend, (hchild d hd).mpr (Or.inr ?_)⟩
        exact ⟨by omega, h.2⟩
      · exact Or.inr ⟨d, List.mem_append_right _ hd, h⟩
    · rintro (h | ⟨d, hd, hend, haccepts⟩)
      · exact Or.inl (Or.inl (Or.inl h))
      · rcases List.mem_append.mp hd with hd | hd
        · rcases (hchild d hd).mp haccepts with h | h
          · exact Or.inl (Or.inl (Or.inr ⟨d, hd, hend, h⟩))
          · exact Or.inl (Or.inr ⟨d, hd, hend, by omega, h.2⟩)
        · exact Or.inr ⟨d, hd, hend, haccepts⟩

end

end

/-! ## The entries that are appended -/

/-- The results hold the entries of the words met so far, once each. -/
def Recorded (root : TrieNode) (s : FuzzyState) : Prop :=
  ∀ word, s.results.under word = if word ∈ s.uniqueWords then root.search word else []

/-- The nodes are nodes of the trie. -/
def NodesOf (root : TrieNode) (nodes : List (Bytes × NodeData)) : Prop :=
  ∀ e ∈ nodes, root.dataAt e.1 = some e.2

section

variable {root : TrieNode}

theorem nodesOf_nodes (h : root.Keyed) : NodesOf root (root.nodes []) :=
  fun _ he => (Tree.mem_nodes_iff h).mp he

/-- The entries of a word that is met are appended. -/
theorem record_recorded {s : FuzzyState} {current : Bytes} {d : NodeData} (hs : Recorded root s)
    (hd : root.dataAt current = some d) (hend : d.isEndOfWord = true) :
    Recorded root (s.record current d) := by
  unfold FuzzyState.record
  split
  · exact hs
  · next hnew =>
    have hdata : d.metadata = results d := by simp [results, hend]
    have happend : ∀ word,
        Found.under (s.results ++ d.metadata.map fun data => (current, data)) word =
          s.results.under word ++ if current = word then results d else [] := by
      intro word
      rw [← under_wordEntries, hdata]
      simp only [Found.under, List.filter_append, List.map_append, wordEntries]
    intro word
    rw [happend, hs word]
    by_cases heq : current = word
    · subst heq
      rw [if_neg hnew, if_pos rfl, if_pos List.mem_cons_self, search_eq, hd]
      rfl
    · rw [if_neg heq, List.append_nil]
      refine if_congr ?_ rfl rfl
      simp [Ne.symm heq]

variable (query : Bytes) (k : ℕ)

mutual

theorem fuzzySearchHelper_recorded : ∀ (node : TrieNode) (current : Bytes)
    (queryIndex edits : ℕ) (s : FuzzyState) (_ : NodesOf root (node.nodes current))
    (_ : Recorded root s),
    Recorded root (fuzzySearchHelper query k node current queryIndex edits s)
  | .node d children, current, queryIndex, edits, s, hnodes, hs => by
    rw [Tree.nodes, NodesOf, List.forall_mem_cons] at hnodes
    have hrecord : ∀ {p : Bool} {s : FuzzyState}, Recorded root s →
        Recorded root (if p && d.isEndOfWord then s.record current d else s) := by
      intro p s hs
      split
      · next hp =>
        rw [Bool.and_eq_true] at hp
        exact record_recorded hs hnodes.1 hp.2
      · exact hs
    rw [fuzzySearchHelper]
    split
    · exact hs
    · exact hrecord (fuzzySearchChildren_recorded children current queryIndex edits _ hnodes.2
        (hrecord hs))

theorem fuzzySearchChildren_recorded : ∀ (children : List (UInt8 × TrieNode)) (current : Bytes)
    (queryIndex edits : ℕ) (s : FuzzyState)
    (_ : NodesOf root (Tree.nodesBelow children current)) (_ : Recorded root s),
    Recorded root (fuzzySearchChildren query k children current queryIndex edits s)
  | [], _, _, _, _, _, hs => hs
  | (ch, nextNode) :: rest, current, queryIndex, edits, s, hnodes, hs => by
    rw [Tree.nodesBelow, NodesOf, List.forall_mem_append] at hnodes
    have hway : ∀ {p : Prop} [Decidable p] {s : FuzzyState} {i e : ℕ}, Recorded root s →
        Recorded root (if p then fuzzySearchHelper query k nextNode (current ++ [ch]) i e s
          else s) := by
      intro p _ s i e hs
      split
      · exact fuzzySearchHelper_recorded nextNode _ i e s hnodes.1 hs
      · exact hs
    rw [fuzzySearchChildren]
    exact fuzzySearchChildren_recorded rest current queryIndex edits _ hnodes.2 (hway (hway hs))

end

/-- Fuzzy search returns the entries of the words that grow out of a part of the query from
its start by at most `k` insertions and substitutions, once each. -/
theorem under_fuzzySearch (h : root.Keyed) (word : Bytes) :
    (GrownFromPrefix k query word →
      (root.fuzzySearch query k).under word = root.search word) ∧
    (¬GrownFromPrefix k query word → (root.fuzzySearch query k).under word = []) := by
  have hrecorded := fuzzySearchHelper_recorded query k root [] 0 0 ⟨[], []⟩ (nodesOf_nodes h)
    (fun _ => rfl) word
  have hmem := mem_fuzzySearchHelper query k root [] 0 0 ⟨[], []⟩ word
  have haccepts : Accepts query k 0 0 [] word ↔ GrownFromPrefix k query word := by
    constructor
    · rintro ⟨rest, rfl, -, hgrown⟩
      exact hgrown
    · intro hgrown
      exact ⟨word, rfl, Nat.zero_le k, hgrown⟩
  rw [haccepts] at hmem
  rw [fuzzySearch, hrecorded]
  constructor
  · intro hgrown
    split
    · rfl
    · next hnot =>
      -- the word is not the end of a word, so that nothing is stored under it
      rw [search_eq]
      cases hd : root.dataAt word with
      | none => rfl
      | some d =>
        by_contra hfound
        have hend : d.isEndOfWord = true := by
          by_contra hend
          exact hfound (by simp [results, hend])
        exact hnot (hmem.mpr (Or.inr ⟨d, (Tree.mem_nodes_iff h).mpr hd, hend, hgrown⟩))
  · intro hgrown
    rw [if_neg]
    rw [hmem]
    rintro (h | ⟨d, -, -, h⟩)
    · cases h
    · exact hgrown h

end

/-! ## Levenshtein distance -/

/-- Results with one word only. -/
theorem eq_map_under {found : Found} {word : Bytes}
    (h : ∀ other, other ≠ word → found.under other = []) :
    found = (found.under word).map fun data => (word, data) := by
  have hall : ∀ e ∈ found, e.1 = word := by
    intro e he
    by_contra hne
    have hmem : e.2 ∈ found.under e.1 :=
      List.mem_map_of_mem (List.mem_filter.mpr ⟨he, by simp⟩)
    rw [h e.1 hne] at hmem
    cases hmem
  rw [Found.under, List.filter_eq_self.mpr fun e he => decide_eq_true (hall e he), List.map_map]
  symm
  rw [List.map_congr_left (g := id), List.map_id]
  intro e he
  rw [Function.comp_apply, ← hall e he]
  rfl

/-- Fuzzy search with at most `k` edits is the search by edit distance, and the search for the
query itself without edits, just when every stored word grows out of a part of the query from
its start by at most `k` insertions and substitutions if its distance from the query is at
most `k`, and only then. -/
theorem fuzzySearch_levenshtein_iff {root : TrieNode} (h : Reached root) (query : Bytes) (k : ℕ) :
    ((∀ word, (root.fuzzySearch query k).under word =
        if editDistance query word ≤ k then root.search word else []) ∧
      (k = 0 → root.fuzzySearch query k =
        (root.search query).map fun data => (query, data))) ↔
    ∀ word, root.search word ≠ [] →
      (GrownFromPrefix k query word ↔ editDistance query word ≤ k) := by
  have hunder := fun word => under_fuzzySearch query k h.keyed word
  constructor
  · rintro ⟨hfound, -⟩ word hword
    have hfound := hfound word
    constructor
    · intro hgrown
      by_contra hfar
      rw [(hunder word).1 hgrown, if_neg hfar] at hfound
      exact hword hfound
    · intro hnear
      by_contra hgrown
      rw [(hunder word).2 hgrown, if_pos hnear] at hfound
      exact hword hfound.symm
  · intro hwords
    have hfound : ∀ word, (root.fuzzySearch query k).under word =
        if editDistance query word ≤ k then root.search word else [] := by
      intro word
      by_cases hword : root.search word = []
      · rw [hword, ite_self]
        by_cases hgrown : GrownFromPrefix k query word
        · rw [(hunder word).1 hgrown, hword]
        · exact (hunder word).2 hgrown
      · split
        · next hnear => exact (hunder word).1 ((hwords word hword).mpr hnear)
        · next hfar => exact (hunder word).2 fun hgrown => hfar ((hwords word hword).mp hgrown)
    refine ⟨hfound, ?_⟩
    rintro rfl
    have hquery := hfound query
    rw [editDistance_eq_zero_iff.mpr rfl, if_pos (le_refl 0)] at hquery
    rw [← hquery]
    refine eq_map_under fun other hne => ?_
    rw [hfound other, if_neg]
    rw [Nat.le_zero, editDistance_eq_zero_iff]
    exact Ne.symm hne

/-- Without edits fuzzy search is the search for the query just when no other word is stored
with which the query starts. -/
theorem fuzzySearch_zero_iff {root : TrieNode} (h : Reached root) (query : Bytes) :
    (∀ word, word ≠ query → (root.fuzzySearch query 0).under word = []) ↔
      ∀ word, word <+: query → word ≠ query → root.search word = [] := by
  have hunder := fun word => under_fuzzySearch query 0 h.keyed word
  simp only [grownFromPrefix_zero_iff] at hunder
  constructor
  · intro hnone word hstart hne
    rw [← (hunder word).1 hstart]
    exact hnone word hne
  · intro hnone word hne
    by_cases hstart : word <+: query
    · exact ((hunder word).1 hstart).trans (hnone word hstart hne)
    · exact (hunder word).2 hstart

/-- One word. -/
def worldOps : List TrieOp := [.insert (ascii "world") (ascii "noun") (ascii "planet")]

/-- The theorem for a query that lacks the last character of the word. -/
theorem fuzzySearch_levenshtein_iff_world :
    Found.under (TrieNode.fuzzySearch (runAll TrieNode.step .empty worldOps) (ascii "worl") 1)
      (ascii "world") = [⟨ascii "noun", ascii "planet"⟩] := by
  have hstored : ∀ word, TrieNode.search (runAll TrieNode.step .empty worldOps) word ≠ [] →
      word = ascii "world" := by
    intro word hword
    by_contra hne
    refine hword ?_
    have hinsert := empty_represents.insert (ascii "world") (ascii "noun") (ascii "planet")
    refine (hinsert.search word).trans ?_
    rw [Multimap.insert, Function.update_of_ne hne]
  have hgrown : GrownWithin 1 (ascii "worl") (ascii "world") :=
    .keep 119 (.keep 111 (.keep 114 (.keep 108 (.insert 100 (.done 0)))))
  have hword := ((fuzzySearch_levenshtein_iff (reached_runAll worldOps) (ascii "worl") 1).mpr
    fun word hword => by
      rw [hstored word hword]
      exact iff_of_true ⟨ascii "worl", List.prefix_refl _, hgrown⟩ (by decide +kernel)).1
    (ascii "world")
  exact hword.trans (by decide +kernel)

/-- Two words, the first of which the second one starts with. -/
def prefixOps : List TrieOp :=
  [.insert (ascii "wor") (ascii "noun") (ascii "part"),
    .insert (ascii "world") (ascii "noun") (ascii "planet")]

/-- The search for `world` without edits returns `wor` as well, and the search for `xworld`
with one edit does not return `world`. -/
theorem fuzzySearch_not_levenshtein :
    Found.under (TrieNode.fuzzySearch (runAll TrieNode.step .empty prefixOps) (ascii "world") 0)
        (ascii "wor") ≠
      (if editDistance (ascii "world") (ascii "wor") ≤ 0 then
        TrieNode.search (runAll TrieNode.step .empty prefixOps) (ascii "wor") else []) ∧
    Found.under (TrieNode.fuzzySearch (runAll TrieNode.step .empty prefixOps) (ascii "xworld") 1)
        (ascii "world") ≠
      (if editDistance (ascii "xworld") (ascii "world") ≤ 1 then
        TrieNode.search (runAll TrieNode.step .empty prefixOps) (ascii "world") else []) := by
  decide +kernel

end TrieNode

end Quarks
