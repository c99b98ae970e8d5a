import Quarks.Basis.LabelledTree
import Quarks.Basis.Run
import Quarks.Bytes

/-!
# The trie

`MMapTrie` keeps words in a tree whose edges are labelled with characters. The node of a
word carries the entries stored for it. A node is a place in memory in the source; here
it is the path to it, which no operation changes.
-/

namespace Quarks

open Basis

/-- `WordData`. -/
structure WordData where
  category : Bytes
  userData : Bytes
  deriving DecidableEq

/-- What a `TrieNode` holds besides its children. -/
structure NodeData where
  isEndOfWord : Bool
  metadata : List WordData

/-- `TrieNode`. -/
abbrev TrieNode := Tree UInt8 NodeData

namespace TrieNode

/-- `TrieNode()`. -/
def fresh : NodeData := ⟨false, []⟩

/-- The root of an empty trie. -/
def empty : TrieNode := .node fresh []

/-- `MMapTrie::insert`. -/
def insert (root : TrieNode) (word category userData : Bytes) : TrieNode :=
  root.grow fresh (Tree.mapData fun d => ⟨true, d.metadata ++ [⟨category, userData⟩]⟩) word

/-- The entries of a node, if it is the end of a word. -/
def results (d : NodeData) : List WordData := if d.isEndOfWord then d.metadata else []

/-- `MMapTrie::search`. -/
def search (root : TrieNode) (word : Bytes) : List WordData :=
  match root.at? word with
  | none => []
  | some node => results node.data

/-- The entry has the category and the user data, where these are not empty. -/
def selects (category userData : Bytes) (data : WordData) : Bool :=
  (category.isEmpty || data.category == category) &&
    (userData.isEmpty || data.userData == userData)

/-- The part of `MMapTrie::deleteWord` that removes entries from the node of the word. -/
def removeEntries (category userData : Bytes) (d : NodeData) : NodeData :=
  if d.isEndOfWord then
    let metadata := if category.isEmpty && userData.isEmpty then []
      else d.metadata.filter fun data => !selects category userData data
    ⟨!metadata.isEmpty, metadata⟩
  else d

/-- The loop of `MMapTrie::deleteWord` from the bottom, with the number of nodes left to
check. The node checked is `nodesToCheck[i]`, and its parent is `nodesToCheck[i - 1]`. -/
def cleanUp (word : Bytes) : ℕ → TrieNode → TrieNode
  | 0, root => root
  | i + 1, root => match root.at? (word.take (i + 1)) with
    | none => root
    | some node =>
      if node.children.isEmpty && !node.data.isEndOfWord then
        -- the edge is looked for by the character of the parent, not by that of the node
        cleanUp word i (if 0 < i then
          root.modify (·.eraseChild (word.getD (i - 1) 0)) (word.take i) else root)
      else root

/-- `MMapTrie::deleteWord`. -/
def deleteWord (root : TrieNode) (word category userData : Bytes) : TrieNode :=
  match root.at? word with
  | none => root
  | some _ => cleanUp word word.length
      (root.modify (Tree.mapData (removeEntries category userData)) word)

/-- `MMapTrie::updateWord`. -/
def updateWord (root : TrieNode) (oldWord newWord category userData : Bytes) : TrieNode :=
  (root.deleteWord oldWord category userData).insert newWord category userData

end TrieNode

end Quarks
