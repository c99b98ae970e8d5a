import Quarks.Search.Multimap

/-!
# Queries on the trie

A query walks over the nodes of a trie and appends the entries of the words that it
accepts. Three of them accept a word by what it starts with or contains; each is
described here by the words it accepts, and the entries found under an accepted word are
those that `search` returns for it.
-/

namespace Quarks

open Basis

/-- What a query returns: words with entries of theirs. -/
abbrev Found := List (Bytes × WordData)

/-- The entries that a query returns with a word, in their order. -/
def Found.under (found : Found) (word : Bytes) : List WordData :=
  (found.filter fun e => decide (e.1 = word)).map Prod.snd

namespace TrieNode

/-- The entries that the queries append at the node of a word. -/
def wordEntries (d : NodeData) (word : Bytes) : Found := (results d).map fun data => (word, data)

mutual

/-- `MMapTrie::collectWordsFromNode`. -/
def collectWordsFromNode : TrieNode → Bytes → Found
  | .node d children, pre => wordEntries d pre ++ collectWordsFromChildren children pre

/-- The loop of `collectWordsFromNode` over the children of a node. -/
def collectWordsFromChildren : List (UInt8 × TrieNode) → Bytes → Found
  | [], _ => []
  | (ch, child) :: rest, pre =>
    collectWordsFromNode child (pre ++ [ch]) ++ collectWordsFromChildren rest pre

end

/-- `MMapTrie::searchByPrefix`. -/
def searchByPrefix (root : TrieNode) (pre : Bytes) : Found :=
  match root.at? pre with
  | none => []
  | some node => collectWordsFromNode node pre

section

variable (substring : Bytes)

mutual

/-- `MMapTrie::substringSearchHelper`. -/
def substringSearchHelper : TrieNode → Bytes → Found
  | .node d children, currentWord =>
    (if substring <:+: currentWord then wordEntries d currentWord else []) ++
      substringSearchChildren children currentWord

/-- The loop of `substringSearchHelper` over the children of a node. -/
def substringSearchChildren : List (UInt8 × TrieNode) → Bytes → Found
  | [], _ => []
  | (ch, nextNode) :: rest, currentWord =>
    substringSearchHelper nextNode (currentWord ++ [ch]) ++
      substringSearchChildren rest currentWord

end

end

/-- `MMapTrie::substringSearch`. -/
def substringSearch (root : TrieNode) (substring : Bytes) : Found :=
  substringSearchHelper substring root []

section

variable (targetPrefix : Bytes) (maxEdits : ℤ)

mutual

/-- `MMapTrie::fuzzyPrefixHelper`. -/
def fuzzyPrefixHelper : TrieNode → Bytes → ℕ → ℕ → Found
  | .node d children, currentWord, index, edits =>
    if maxEdits < edits then []
    else
      (if targetPrefix.length ≤ index then wordEntries d currentWord else []) ++
        fuzzyPrefixChildren children currentWord index edits

/-- The loop of `fuzzyPrefixHelper` over the children of a node. -/
def fuzzyPrefixChildren : List (UInt8 × TrieNode) → Bytes → ℕ → ℕ → Found
  | [], _, _, _ => []
  | (ch, child) :: rest, currentWord, index, edits =>
    (if index < targetPrefix.length then
      let expectedChar := targetPrefix.getD index 0
      fuzzyPrefixHelper child (currentWord ++ [ch]) (index + 1)
        (edits + if ch ≠ expectedChar then 1 else 0)
    else fuzzyPrefixHelper child (currentWord ++ [ch]) index edits) ++
      fuzzyPrefixChildren rest currentWord index edits

end

end

/-- `MMapTrie::fuzzyPrefixSearch`. -/
def fuzzyPrefixSearch (root : TrieNode) (pre : Bytes) (maxEdits : ℤ) : Found :=
  fuzzyPrefixHelper pre maxEdits root [] 0 0

/-! ## Accepted words -/

section

variable (accept : Bytes → Prop) [DecidablePred accept]

/-- The entries of the accepted words among some nodes. -/
def selectFrom (nodes : List (Bytes × NodeData)) : Found :=
  nodes.flatMap fun e => if accept e.1 then wordEntries e.2 e.1 else []

/-- The entries of the accepted words of a trie. -/
def select (root : TrieNode) : Found := selectFrom accept (root.nodes [])

theorem selectFrom_cons (word : Bytes) (d : NodeData) (nodes : List (Bytes × NodeData)) :
    selectFrom accept ((word, d) :: nodes) =
      (if accept word then wordEntries d word else []) ++ selectFrom accept nodes := rfl

variable {accept} in
theorem select_congr {accept' : Bytes → Prop} [DecidablePred accept']
    (h : ∀ word, accept word ↔ accept' word) (root : TrieNode) :
    root.select accept = root.select accept' :=
  congrArg (fun f => (root.nodes []).flatMap f) (funext fun e => if_congr (h e.1) rfl rfl)

theorem selectFrom_append (nodes nodes' : List (Bytes × NodeData)) :
    selectFrom accept (nodes ++ nodes') = selectFrom accept nodes ++ selectFrom accept nodes' :=
  List.flatMap_append

end

/-- Appending for some elements only is appending for those elements. -/
theorem flatMap_ite {α β : Type} (p : α → Prop) [DecidablePred p] (f : α → List β) (l : List α) :
    (l.flatMap fun a => if p a then f a else []) = (l.filter fun a => decide (p a)).flatMap f := by
  induction l with
  | nil => rfl
  | cons a l ih =>
    rw [List.flatMap_cons, ih]
    by_cases h : p a
    · rw [List.filter_cons_of_pos (by simpa using h), List.flatMap_cons, if_pos h]
    · rw [List.filter_cons_of_neg (by simpa using h), if_neg h, List.nil_append]

theorem under_wordEntries (d : NodeData) (path word : Bytes) :
    (wordEntries d path).under word = if path = word then results d else [] := by
  unfold Found.under wordEntries
  rw [List.filter_map, List.map_map]
  by_cases h : path = word
  · simp [Function.comp_def, h]
  · simp [Function.comp_def, h]

/-- The entries of an accepted word are those that `search` returns, in the same order. -/
theorem under_select (accept : Bytes → Prop) [DecidablePred accept] {root : TrieNode}
    (h : root.Keyed) (word : Bytes) :
    (root.select accept).under word = if accept word then root.search word else [] := by
  have hnode : ∀ e : Bytes × NodeData,
      Found.under (if accept e.1 then wordEntries e.2 e.1 else []) word =
        if e.1 = word then (if accept word then results e.2 else []) else [] := by
    intro e
    by_cases heq : e.1 = word
    · subst heq
      by_cases ha : accept e.1
      · rw [if_pos ha, if_pos ha, under_wordEntries]
      · rw [if_neg ha, if_neg ha, ite_self]
        rfl
    · rw [if_neg heq]
      split
      · rw [under_wordEntries, if_neg heq]
      · rfl
  calc (root.select accept).under word
      = (root.nodes []).flatMap fun e =>
          Found.under (if accept e.1 then wordEntries e.2 e.1 else []) word := by
        rw [select, selectFrom, Found.under, List.filter_flatMap, List.map_flatMap]
        rfl
    _ = ((root.nodes []).filter fun e => decide (e.1 = [] ++ word)).flatMap fun e =>
          if accept word then results e.2 else [] := by
        rw [← flatMap_ite]
        exact congrArg (fun f => (root.nodes []).flatMap f) (funext hnode)
    _ = if accept word then root.search word else [] := by
        rw [Tree.filter_nodes h, search_eq]
        cases root.dataAt word with
        | none => simp
        | some d => simp

/-! ## What the queries accept -/

mutual

theorem collectWordsFromNode_eq : ∀ (node : TrieNode) (pre : Bytes),
    collectWordsFromNode node pre = (node.nodes pre).flatMap fun e => wordEntries e.2 e.1
  | .node d children, pre => by
    rw [collectWordsFromNode, Tree.nodes, List.flatMap_cons, collectWordsFromChildren_eq]

theorem collectWordsFromChildren_eq : ∀ (children : List (UInt8 × TrieNode)) (pre : Bytes),
    collectWordsFromChildren children pre =
      (Tree.nodesBelow children pre).flatMap fun e => wordEntries e.2 e.1
  | [], _ => rfl
  | (ch, child) :: rest, pre => by
    rw [collectWordsFromChildren, Tree.nodesBelow, List.flatMap_append,
      collectWordsFromNode_eq, collectWordsFromChildren_eq]

end

theorem searchByPrefix_eq {root : TrieNode} (h : root.Keyed) (pre : Bytes) :
    root.searchByPrefix pre = root.select (pre <+: ·) := by
  rw [select, selectFrom, flatMap_ite, searchByPrefix]
  have hnodes := Tree.filter_nodes_prefix h [] pre
  rw [List.nil_append] at hnodes
  rw [hnodes]
  cases root.at? pre with
  | none => rfl
  | some node => exact collectWordsFromNode_eq node pre

mutual

theorem substringSearchHelper_eq (substring : Bytes) : ∀ (node : TrieNode) (word : Bytes),
    substringSearchHelper substring node word = selectFrom (substring <:+: ·) (node.nodes word)
  | .node d children, word => by
    rw [substringSearchHelper, Tree.nodes, selectFrom_cons, substringSearchChildren_eq]

theorem substringSearchChildren_eq (substring : Bytes) :
    ∀ (children : List (UInt8 × TrieNode)) (word : Bytes),
      substringSearchChildren substring children word =
        selectFrom (substring <:+: ·) (Tree.nodesBelow children word)
  | [], _ => rfl
  | (ch, nextNode) :: rest, word => by
    rw [substringSearchChildren, Tree.nodesBelow, selectFrom_append,
      substringSearchHelper_eq, substringSearchChildren_eq]

end

theorem substringSearch_eq (root : TrieNode) (substring : Bytes) :
    root.substringSearch substring = root.select (substring <:+: ·) :=
  substringSearchHelper_eq substring root []

/-- The number of characters of a prefix that differ from those of a word at their places. -/
def differences (pre word : Bytes) : ℕ := (pre.zip word).countP fun e => decide (e.2 ≠ e.1)

/-- One more character of the word is compared with the one at its place. -/
theorem differences_concat (pre word : Bytes) (ch : UInt8) :
    differences pre (word ++ [ch]) = differences pre word +
      if word.length < pre.length ∧ ch ≠ pre.getD word.length 0 then 1 else 0 := by
  induction word generalizing pre with
  | nil =>
    cases pre with
    | nil => rfl
    | cons c pre => simp [differences, List.countP_cons]
  | cons d word ih =>
    cases pre with
    | nil => rfl
    | cons c pre =>
      have hrest := ih pre
      unfold differences at hrest ⊢
      rw [List.cons_append, List.zip_cons_cons, List.zip_cons_cons, List.countP_cons,
        List.countP_cons, hrest]
      simp only [List.length_cons, Nat.add_lt_add_iff_right, List.getD_cons_succ]
      omega

/-- Longer words do not differ in fewer characters. -/
theorem differences_mono (pre : Bytes) {word longer : Bytes} (h : word <+: longer) :
    differences pre word ≤ differences pre longer := by
  obtain ⟨rest, rfl⟩ := h
  induction rest generalizing word with
  | nil => rw [List.append_nil]
  | cons ch rest ih =>
    have hstep := @ih (word ++ [ch])
    rw [List.append_assoc, List.singleton_append, differences_concat] at hstep
    omega

/-- The words that a fuzzy prefix query accepts. -/
def NearPrefix (pre : Bytes) (k : ℕ) (word : Bytes) : Prop :=
  pre.length ≤ word.length ∧ differences pre word ≤ k

instance (pre : Bytes) (k : ℕ) : DecidablePred (NearPrefix pre k) :=
  fun _ => inferInstanceAs (Decidable (_ ∧ _))

section

variable (pre : Bytes) (k : ℕ)

mutual

/-- The walk at the node of a word: the index is the number of characters compared so far and
the edits are those that differ. -/
theorem fuzzyPrefixHelper_eq : ∀ (node : TrieNode) (word : Bytes),
    fuzzyPrefixHelper pre k node word (min word.length pre.length) (differences pre word) =
      selectFrom (NearPrefix pre k) (node.nodes word)
  | .node d children, word => by
    rw [fuzzyPrefixHelper, Tree.nodes, selectFrom_cons]
    split
    · next hfar =>
      -- no word below is nearer
      symm
      rw [List.append_eq_nil_iff, selectFrom, List.flatMap_eq_nil_iff]
      have hbelow : ∀ {longer : Bytes}, word <+: longer → ¬NearPrefix pre k longer := by
        intro longer hlonger hnear
        have hle := (differences_mono pre hlonger).trans hnear.2
        omega
      refine ⟨if_neg (hbelow (List.prefix_refl _)), fun e he => if_neg (hbelow ?_)⟩
      rw [Tree.nodesBelow_eq, List.mem_flatMap] at he
      obtain ⟨c, -, he⟩ := he
      exact (List.prefix_append _ _).trans (Tree.prefix_of_mem_nodes he)
    · next hnear =>
      rw [fuzzyPrefixChildren_eq]
      refine congrArg₂ _ (if_congr ?_ rfl rfl) rfl
      unfold NearPrefix
      omega

theorem fuzzyPrefixChildren_eq : ∀ (children : List (UInt8 × TrieNode)) (word : Bytes),
    fuzzyPrefixChildren pre k children word (min word.length pre.length) (differences pre word) =
      selectFrom (NearPrefix pre k) (Tree.nodesBelow children word)
  | [], _ => rfl
  | (ch, child) :: rest, word => by
    rw [fuzzyPrefixChildren, Tree.nodesBelow, selectFrom_append, fuzzyPrefixChildren_eq]
    refine congrArg₂ _ ?_ rfl
    have hchild := fuzzyPrefixHelper_eq child (word ++ [ch])
    rw [differences_concat, List.length_append, List.length_singleton] at hchild
    by_cases hshort : word.length < pre.length
    · rw [if_pos (by omega)]
      have hindex : min word.length pre.length = word.length := by omega
      have hnext : min (word.length + 1) pre.length = word.length + 1 := by omega
      rw [hnext] at hchild
      simpa only [hindex, hshort, true_and] using hchild
    · rw [if_neg (by omega)]
      have hindex : min (word.length + 1) pre.length = min word.length pre.length := by omega
      rw [hindex] at hchild
      simpa only [hshort, false_and, if_false, Nat.add_zero] using hchild

end

theorem fuzzyPrefixSearch_eq (root : TrieNode) :
    root.fuzzyPrefixSearch pre k = root.select (NearPrefix pre k) := by
  have hroot := fuzzyPrefixHelper_eq pre k root []
  have hzero : differences pre [] = 0 := by simp [differences]
  rw [hzero] at hroot
  simpa [fuzzyPrefixSearch, select] using hroot

end

/-- Without differences the prefix is the start of the word. -/
theorem nearPrefix_zero_iff (pre word : Bytes) : NearPrefix pre 0 word ↔ pre <+: word := by
  induction pre generalizing word with
  | nil => simp [NearPrefix, differences]
  | cons c pre ih =>
    cases word with
    | nil => simp [NearPrefix]
    | cons d word =>
      rw [List.cons_prefix_cons, ← ih word]
      simp only [NearPrefix, differences, List.zip_cons_cons, List.countP_cons, List.length_cons,
        decide_eq_true_eq]
      constructor
      · rintro ⟨hlength, hzero⟩
        split at hzero
        · omega
        · next heq => exact ⟨(not_not.mp heq).symm, by omega, by omega⟩
      · rintro ⟨rfl, hlength, hzero⟩
        rw [if_neg (by simp)]
        exact ⟨by omega, by omega⟩

/-! ## Reached tries -/

section

variable {root : TrieNode}

theorem insert_keyed (h : root.Keyed) (word category userData : Bytes) :
    (root.insert word category userData).Keyed :=
  h.grow (fun _ hn => hn.mapData _) fresh word

theorem cleanUp_keyed (word : Bytes) (i : ℕ) (h : root.Keyed) : (cleanUp word i root).Keyed := by
  induction i generalizing root with
  | zero => exact h
  | succ i ih =>
    unfold cleanUp
    split
    · exact h
    split
    · split
      · exact ih (h.modify (fun _ hn => hn.eraseChild _) _)
      · exact ih h
    · exact h

theorem deleteWord_keyed (h : root.Keyed) (word category userData : Bytes) :
    (root.deleteWord word category userData).Keyed := by
  unfold deleteWord
  split
  · exact h
  · exact cleanUp_keyed word _ (h.modify (fun _ hn => hn.mapData _) word)

theorem step_keyed (h : root.Keyed) (op : TrieOp) : (root.step op).Keyed := by
  cases op with
  | insert word category userData => exact insert_keyed h word category userData
  | deleteWord word category userData => exact deleteWord_keyed h word category userData
  | updateWord oldWord newWord category userData =>
    exact insert_keyed (deleteWord_keyed h oldWord category userData) newWord category userData

end

/-- The second trie is the first one, but for the order in which the children of a node are
iterated. -/
def Rearranges (root root' : TrieNode) : Prop :=
  root'.Keyed ∧ ∀ path, root'.dataAt path = root.dataAt path

/-- The trie is reached by operations on an empty one. The order in which the children of a
node are iterated is open after each of them. -/
inductive Reached : TrieNode → Prop
  | empty : Reached .empty
  | step {root root' : TrieNode} (h : Reached root) (op : TrieOp)
    (horder : (root.step op).Rearranges root') : Reached root'

theorem Reached.keyed {root : TrieNode} (h : Reached root) : root.Keyed := by
  cases h with
  | empty => exact Tree.keyed_node_iff.mpr ⟨List.nodup_nil, by simp⟩
  | step h op horder => exact horder.1

theorem reached_runAll (ops : List TrieOp) : Reached (runAll TrieNode.step .empty ops) := by
  induction ops using List.reverseRecOn with
  | nil => exact .empty
  | append_singleton ops op ih =>
    rw [runAll, List.foldl_append]
    exact .step ih op ⟨step_keyed ih.keyed op, fun _ => rfl⟩

/-- In every trie that is reached, a prefix query and a substring query return with each word
that starts with the prefix, or contains the text, the entries that `search` returns for it,
and with every other word none. -/
theorem exact_queries_view_search {root : TrieNode} (h : Reached root) :
    (∀ pre word, (root.searchByPrefix pre).under word =
      if pre <+: word then root.search word else []) ∧
    (∀ substring word, (root.substringSearch substring).under word =
      if substring <:+: word then root.search word else []) ∧
    root.substringSearch [] = root.searchByPrefix [] := by
  refine ⟨fun pre word => ?_, fun substring word => ?_, ?_⟩
  · rw [searchByPrefix_eq h.keyed]
    exact under_select (pre <+: ·) h.keyed word
  · rw [substringSearch_eq]
    exact under_select (substring <:+: ·) h.keyed word
  · rw [substringSearch_eq, searchByPrefix_eq h.keyed]
    exact select_congr (fun word => by simp) root

/-- Two words with one prefix, and the second one is gone again. -/
def leftoverOps : List TrieOp :=
  [.insert (ascii "ape") (ascii "animal") (ascii "primate"),
    .insert (ascii "apex") (ascii "word") (ascii "peak"), .deleteWord (ascii "apex") [] []]

/-- The theorem after these operations. -/
theorem exact_queries_view_search_leftover :
    Found.under (TrieNode.searchByPrefix (runAll TrieNode.step .empty leftoverOps) (ascii "ap"))
      (ascii "ape") = [⟨ascii "animal", ascii "primate"⟩] :=
  ((exact_queries_view_search (reached_runAll leftoverOps)).1 (ascii "ap") (ascii "ape")).trans
    (by decide +kernel)

/-- In every trie that is reached, a fuzzy prefix query returns with each word that is as long
as the prefix and differs from it in at most `k` of its first characters the entries that
`search` returns for it, and with every other word none. -/
theorem fuzzyPrefixSearch_extends {root : TrieNode} (h : Reached root) (pre : Bytes) (k : ℕ) :
    (∀ word, (root.fuzzyPrefixSearch pre k).under word =
      if pre.length ≤ word.length ∧ differences pre word ≤ k then root.search word else []) ∧
    root.fuzzyPrefixSearch pre 0 = root.searchByPrefix pre := by
  refine ⟨fun word => ?_, ?_⟩
  · rw [fuzzyPrefixSearch_eq]
    exact under_select (NearPrefix pre k) h.keyed word
  · rw [searchByPrefix_eq h.keyed]
    exact (fuzzyPrefixSearch_eq pre 0 root).trans (select_congr (nearPrefix_zero_iff pre) root)

/-- The theorem after these operations. -/
theorem fuzzyPrefixSearch_extends_leftover :
    Found.under (TrieNode.fuzzyPrefixSearch (runAll TrieNode.step .empty leftoverOps)
      (ascii "axe") 1) (ascii "ape") = [⟨ascii "animal", ascii "primate"⟩] :=
  ((fuzzyPrefixSearch_extends (reached_runAll leftoverOps) (ascii "axe") 1).1
    (ascii "ape")).trans (by decide +kernel)

end TrieNode

end Quarks
