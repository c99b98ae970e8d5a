import Quarks.Basis.Lookup
import Mathlib.Data.List.Infix

/-!
# Trees with labelled edges

A node carries data and has at most one child for each label, so that a node is found
by the labels on the way to it from the root. Every operation on a tree is described
here by the data found at each path afterwards.
-/

namespace Basis

/-- A tree whose edges are labelled and whose nodes carry data. -/
inductive Tree (κ α : Type) : Type
  | node (data : α) (children : List (κ × Tree κ α))

namespace Tree

variable {κ α : Type}

/-- The data of the root. -/
def data : Tree κ α → α
  | node data _ => data

/-- The children of the root, with the labels of their edges. -/
def children : Tree κ α → List (κ × Tree κ α)
  | node _ children => children

/-- Change the data of the root. -/
def mapData (g : α → α) (t : Tree κ α) : Tree κ α := node (g t.data) t.children

variable [DecidableEq κ]

/-- The child under a label. -/
def child? (t : Tree κ α) (k : κ) : Option (Tree κ α) := t.children.lookup k

/-- Put a child under a label, in the place of the one that was there. -/
def setChild (t : Tree κ α) (k : κ) (c : Tree κ α) : Tree κ α :=
  node t.data ((k, c) :: t.children.filter (·.1 ≠ k))

/-- Remove the edge with a label, and all that is below it. -/
def eraseChild (t : Tree κ α) (k : κ) : Tree κ α := node t.data (t.children.filter (·.1 ≠ k))

/-- The node at a path. -/
def at? (t : Tree κ α) : List κ → Option (Tree κ α)
  | [] => some t
  | k :: path => (t.child? k).bind fun c => c.at? path

/-- Change the node at a path, if there is one. -/
def modify (f : Tree κ α → Tree κ α) : List κ → Tree κ α → Tree κ α
  | [], t => f t
  | k :: path, t => match t.child? k with
    | some c => t.setChild k (modify f path c)
    | none => t

/-- Change the node at a path; the nodes that are missing on the way to it are made first. -/
def grow (fresh : α) (f : Tree κ α → Tree κ α) : List κ → Tree κ α → Tree κ α
  | [], t => f t
  | k :: path, t => t.setChild k (grow fresh f path ((t.child? k).getD (node fresh [])))

/-- The data of the node at a path. -/
def dataAt (t : Tree κ α) (path : List κ) : Option α := (t.at? path).map data

/-- A lookup among the entries with another label. -/
private theorem lookup_filter_ne {β : Type} (l : List (κ × β)) (k k' : κ) :
    (l.filter (·.1 ≠ k)).lookup k' = if k' = k then none else l.lookup k' := by
  induction l with
  | nil => simp
  | cons e l ih =>
    obtain ⟨a, b⟩ := e
    rw [List.filter_cons]
    by_cases hk : k' = a
    · subst hk
      by_cases ha : k' = k
      · simpa [ha] using ih
      · simp [ha]
    · have hne : (k' == a) = false := beq_eq_false_iff_ne.mpr hk
      rw [List.lookup_cons, hne]
      split
      · rw [List.lookup_cons, hne]
        exact ih
      · exact ih

section

variable (t c : Tree κ α) (k k' : κ) (path : List κ)

theorem child?_setChild : (t.setChild k c).child? k' = if k' = k then some c else t.child? k' := by
  unfold child? setChild children
  by_cases h : k' = k
  · simp [h]
  · have hne : (k' == k) = false := beq_eq_false_iff_ne.mpr h
    rw [List.lookup_cons, hne, if_neg h]
    exact (lookup_filter_ne t.children k k').trans (if_neg h)

theorem child?_eraseChild : (t.eraseChild k).child? k' = if k' = k then none else t.child? k' :=
  lookup_filter_ne t.children k k'

@[simp] theorem dataAt_nil : t.dataAt [] = some t.data := rfl

theorem dataAt_cons : t.dataAt (k :: path) = (t.child? k).bind fun c => c.dataAt path := by
  rw [dataAt, at?, Option.map_bind]
  rfl

theorem dataAt_append (path' : List κ) :
    t.dataAt (path ++ path') = (t.at? path).bind fun n => n.dataAt path' := by
  induction path generalizing t with
  | nil => rfl
  | cons k path ih =>
    rw [List.cons_append, dataAt_cons, at?, Option.bind_assoc]
    exact congrArg _ (funext fun c => ih c)

/-- The data after those of one node have been changed. -/
theorem dataAt_modify_mapData (g : α → α) (path' : List κ) :
    (modify (mapData g) path t).dataAt path' =
      if path' = path then (t.dataAt path).map g else t.dataAt path' := by
  induction path generalizing t path' with
  | nil =>
    cases path' with
    | nil => rfl
    | cons k' path' =>
      rw [if_neg (List.cons_ne_nil _ _), dataAt_cons, dataAt_cons]
      rfl
  | cons k path ih =>
    cases hc : t.child? k with
    | none =>
      simp only [modify, hc]
      have hnone : t.dataAt (k :: path) = none := by rw [dataAt_cons, hc, Option.bind_none]
      split
      · next h => rw [h, hnone, Option.map_none]
      · rfl
    | some c =>
      simp only [modify, hc]
      cases path' with
      | nil => rfl
      | cons k' path' =>
        simp only [dataAt_cons, child?_setChild, List.cons.injEq]
        by_cases hk : k' = k
        · simp [hk, hc, ih c path']
        · simp [hk]

/-- The data after an edge has been removed: nothing is left below it. -/
theorem dataAt_modify_eraseChild (k : κ) (path' : List κ) :
    (modify (·.eraseChild k) path t).dataAt path' =
      if path ++ [k] <+: path' then none else t.dataAt path' := by
  induction path generalizing t path' with
  | nil =>
    cases path' with
    | nil => simp [modify, eraseChild, data]
    | cons k' path' =>
      simp only [modify, dataAt_cons, child?_eraseChild, List.nil_append, List.cons_prefix_cons,
        List.nil_prefix, and_true]
      by_cases hk : k' = k
      · simp [hk]
      · simp [hk, Ne.symm hk]
  | cons a path ih =>
    cases hc : t.child? a with
    | none =>
      simp only [modify, hc]
      split
      · next h =>
        obtain ⟨rest, rfl⟩ := h
        rw [List.cons_append, List.cons_append, dataAt_cons, hc, Option.bind_none]
      · rfl
    | some c =>
      simp only [modify, hc]
      cases path' with
      | nil => simp [setChild, data]
      | cons k' path' =>
        simp only [dataAt_cons, child?_setChild, List.cons_append, List.cons_prefix_cons]
        by_cases hk : k' = a
        · simp [hk, hc, ih c path']
        · simp [hk, Ne.symm hk]

/-- The data after a node has been made, or changed if it was there. -/
theorem dataAt_grow (fresh : α) (g : α → α) (path' : List κ) :
    (grow fresh (mapData g) path t).dataAt path' =
      if path' = path then some (g ((t.dataAt path).getD fresh))
      else if path' <+: path then some ((t.dataAt path').getD fresh) else t.dataAt path' := by
  induction path generalizing t path' with
  | nil =>
    cases path' with
    | nil => rfl
    | cons k' path' =>
      rw [if_neg (List.cons_ne_nil _ _), if_neg (by simp), grow, dataAt_cons, dataAt_cons]
      rfl
  | cons k path ih =>
    unfold grow
    cases path' with
    | nil => simp [setChild, data]
    | cons k' path' =>
      simp only [dataAt_cons, child?_setChild, List.cons.injEq, List.cons_prefix_cons]
      by_cases hk : k' = k
      · subst hk
        simp only [if_true, true_and, Option.bind_some, ih]
        cases hc : t.child? k' with
        | some c => simp
        | none =>
          have hfresh : ∀ path : List κ, ((node fresh []).dataAt path).getD fresh = fresh := by
            intro path
            cases path with
            | nil => rfl
            | cons a path => rfl
          simp only [Option.getD_none, Option.bind_none, hfresh]
          cases path' with
          | nil => simp
          | cons a path' => rfl
      · simp [hk]

end

section

variable {t n : Tree κ α} {path : List κ}

theorem dataAt_of_at? (h : t.at? path = some n) : t.dataAt path = some n.data := by
  rw [dataAt, h, Option.map_some]

/-- There is nothing below a node without children. -/
theorem eq_of_prefix_of_leaf (h : t.at? path = some n) (hleaf : n.children = []) {path' : List κ}
    (hpath : path <+: path') {d : α} (hd : t.dataAt path' = some d) : path' = path := by
  obtain ⟨rest, rfl⟩ := hpath
  cases rest with
  | nil => exact List.append_nil path
  | cons k rest =>
    rw [dataAt_append, h, Option.bind_some, dataAt_cons, child?, hleaf] at hd
    cases hd

/-- A node has no children if nothing is found one step behind its path. -/
theorem children_eq_nil_iff (h : t.at? path = some n) :
    n.children = [] ↔ ∀ k, t.dataAt (path ++ [k]) = none := by
  have hchild : ∀ k, t.dataAt (path ++ [k]) = (n.child? k).map data := by
    intro k
    rw [dataAt_append, h, Option.bind_some, dataAt_cons]
    cases n.child? k <;> rfl
  constructor
  · intro hleaf k
    rw [hchild, child?, hleaf]
    rfl
  · intro hnone
    cases hchildren : n.children with
    | nil => rfl
    | cons e children =>
      have hfirst := hnone e.1
      rw [hchild, child?, hchildren, List.lookup_cons_self] at hfirst
      cases hfirst

end

/-! ## All the nodes -/

omit [DecidableEq κ] in
/-- Induction over a tree, with the claim for every child of the root. -/
@[elab_as_elim]
theorem induct {motive : Tree κ α → Prop}
    (node : ∀ data children, (∀ e ∈ children, motive e.2) → motive (node data children))
    (t : Tree κ α) : motive t :=
  @Tree.rec κ α motive (fun children => ∀ e ∈ children, motive e.2) (fun e => motive e.2) node
    (by simp) (fun _ _ he hl => List.forall_mem_cons.mpr ⟨he, hl⟩) (fun _ _ hc => hc) t

/-- A tree has a leaf, and it is the root only if the root has no children. -/
theorem exists_leaf (t : Tree κ α) :
    ∃ path n, t.at? path = some n ∧ n.children = [] ∧ (t.children ≠ [] → path ≠ []) := by
  induction t using induct with
  | node d children ih =>
    cases children with
    | nil => exact ⟨[], _, rfl, rfl, fun h => absurd rfl h⟩
    | cons e children =>
      obtain ⟨path, n, hn, hleaf, -⟩ := ih e List.mem_cons_self
      refine ⟨e.1 :: path, n, ?_, hleaf, fun _ => List.cons_ne_nil _ _⟩
      rw [at?, child?, Tree.children, List.lookup_cons_self]
      exact hn

/-- No node has two children under one label. -/
def Keyed (t : Tree κ α) : Prop :=
  ∀ path n, t.at? path = some n → (n.children.map Prod.fst).Nodup

mutual

/-- The nodes of a tree with their paths: the root comes first, at the path given, and the
nodes of its children follow in their order. -/
def nodes : Tree κ α → List κ → List (List κ × α)
  | node data children, path => (path, data) :: nodesBelow children path

/-- The nodes of some children of a root. -/
def nodesBelow : List (κ × Tree κ α) → List κ → List (List κ × α)
  | [], _ => []
  | (k, c) :: rest, path => nodes c (path ++ [k]) ++ nodesBelow rest path

end

omit [DecidableEq κ] in
theorem nodesBelow_eq (children : List (κ × Tree κ α)) (path : List κ) :
    nodesBelow children path = children.flatMap fun e => e.2.nodes (path ++ [e.1]) := by
  induction children with
  | nil => rfl
  | cons e rest ih => rw [nodesBelow, ih, List.flatMap_cons]

omit [DecidableEq κ] in
/-- The path of a root is the start of the paths of its nodes. -/
theorem prefix_of_mem_nodes {t : Tree κ α} {path : List κ} {e : List κ × α}
    (h : e ∈ t.nodes path) : path <+: e.1 := by
  induction t using induct generalizing path with
  | node data children ih =>
    rw [nodes, List.mem_cons, nodesBelow_eq, List.mem_flatMap] at h
    rcases h with rfl | ⟨c, hc, he⟩
    · exact List.prefix_refl _
    · exact (List.prefix_append _ _).trans (ih c hc he)

theorem keyed_node_iff {data : α} {children : List (κ × Tree κ α)} :
    (node data children).Keyed ↔
      (children.map Prod.fst).Nodup ∧ ∀ e ∈ children, e.2.Keyed := by
  constructor
  · intro h
    have hnodup : (children.map Prod.fst).Nodup := h [] _ rfl
    refine ⟨hnodup, fun e he path n hn => h (e.1 :: path) n ?_⟩
    rw [at?, child?, Tree.children, (lookup_eq_some_iff_mem hnodup).mpr he]
    exact hn
  · rintro ⟨hnodup, hchildren⟩ path n hn
    cases path with
    | nil =>
      cases hn
      exact hnodup
    | cons k path =>
      obtain ⟨c, hc, hn⟩ := Option.bind_eq_some_iff.mp hn
      exact hchildren (k, c) ((lookup_eq_some_iff_mem hnodup).mp hc) path n hn

section

variable {t c : Tree κ α} {k : κ} {f : Tree κ α → Tree κ α}

theorem Keyed.of_child? (h : t.Keyed) (hc : t.child? k = some c) : c.Keyed := by
  obtain ⟨data, children⟩ := t
  rw [keyed_node_iff] at h
  exact h.2 _ ((lookup_eq_some_iff_mem h.1).mp hc)

theorem Keyed.mapData (h : t.Keyed) (g : α → α) : (t.mapData g).Keyed := by
  obtain ⟨data, children⟩ := t
  rw [keyed_node_iff] at h
  exact keyed_node_iff.mpr h

theorem Keyed.eraseChild (h : t.Keyed) (k : κ) : (t.eraseChild k).Keyed := by
  obtain ⟨data, children⟩ := t
  rw [keyed_node_iff] at h
  refine keyed_node_iff.mpr ⟨?_, fun e he => h.2 e (List.mem_of_mem_filter he)⟩
  exact h.1.sublist (List.filter_sublist.map Prod.fst)

theorem Keyed.setChild (h : t.Keyed) (k : κ) (hc : c.Keyed) : (t.setChild k c).Keyed := by
  have herased := h.eraseChild k
  obtain ⟨data, children⟩ := t
  rw [Tree.eraseChild, keyed_node_iff] at herased
  refine keyed_node_iff.mpr ⟨?_, List.forall_mem_cons.mpr ⟨hc, herased.2⟩⟩
  rw [List.map_cons, List.nodup_cons]
  refine ⟨fun hmem => ?_, herased.1⟩
  obtain ⟨e, he, heq⟩ := List.mem_map.mp hmem
  simpa [heq] using List.of_mem_filter he

variable (hf : ∀ n : Tree κ α, n.Keyed → (f n).Keyed)
include hf

theorem Keyed.modify (h : t.Keyed) (path : List κ) : (modify f path t).Keyed := by
  induction path generalizing t with
  | nil => exact hf t h
  | cons k path ih =>
    cases hc : t.child? k with
    | none =>
      simp only [Tree.modify, hc]
      exact h
    | some c =>
      simp only [Tree.modify, hc]
      exact h.setChild k (ih (h.of_child? hc))

theorem Keyed.grow (h : t.Keyed) (fresh : α) (path : List κ) : (grow fresh f path t).Keyed := by
  induction path generalizing t with
  | nil => exact hf t h
  | cons k path ih =>
    refine h.setChild k (ih ?_)
    cases hc : t.child? k with
    | none => exact keyed_node_iff.mpr ⟨List.nodup_nil, by simp⟩
    | some c => exact h.of_child? hc

end

/-- The nodes below a path are those of the node at that path. -/
theorem filter_nodes_prefix {t : Tree κ α} (h : t.Keyed) (path rest : List κ) :
    (t.nodes path).filter (fun e => decide (path ++ rest <+: e.1)) =
      ((t.at? rest).map fun n => n.nodes (path ++ rest)).getD [] := by
  induction rest generalizing t path with
  | nil =>
    rw [List.append_nil, List.filter_eq_self.mpr]
    · rfl
    · intro e he
      exact decide_eq_true (prefix_of_mem_nodes he)
  | cons k rest ih =>
    obtain ⟨data, children⟩ := t
    rw [keyed_node_iff] at h
    have hroot : decide (path ++ k :: rest <+: path) = false := by
      rw [decide_eq_false_iff_not]
      intro hlong
      have hlength := hlong.length_le
      simp only [List.length_append, List.length_cons] at hlength
      omega
    rw [nodes, List.filter_cons_of_neg (by simp [hroot]), nodesBelow_eq, List.filter_flatMap,
      flatMap_eq_lookup (k := k) h.1]
    · rw [at?, child?, Tree.children]
      cases hc : children.lookup k with
      | none => rfl
      | some c =>
        have := ih (h.2 _ ((lookup_eq_some_iff_mem h.1).mp hc)) (path ++ [k])
        simpa [List.append_assoc] using this
    · intro e he hne
      rw [List.filter_eq_nil_iff]
      intro n hn hpre
      have hchild := prefix_of_mem_nodes hn
      have hboth := List.prefix_of_prefix_length_le
        (((List.prefix_append_right_inj path).mpr
          (List.prefix_append [k] rest)).trans (of_decide_eq_true hpre)) hchild (by simp)
      rw [List.prefix_append_right_inj] at hboth
      simp at hboth
      exact hne hboth.symm

omit [DecidableEq κ] in
/-- No other node has the path of the root. -/
theorem path_ne_of_mem_nodesBelow {children : List (κ × Tree κ α)} {path : List κ}
    {e : List κ × α} (h : e ∈ nodesBelow children path) : e.1 ≠ path := by
  rw [nodesBelow_eq, List.mem_flatMap] at h
  obtain ⟨c, -, he⟩ := h
  have hlength := (prefix_of_mem_nodes he).length_le
  rw [List.length_append, List.length_singleton] at hlength
  intro heq
  rw [heq] at hlength
  omega

/-- The node at a path occurs once among the nodes. -/
theorem filter_nodes {t : Tree κ α} (h : t.Keyed) (path rest : List κ) :
    (t.nodes path).filter (fun e => decide (e.1 = path ++ rest)) =
      ((t.dataAt rest).map fun d => (path ++ rest, d)).toList := by
  have hroot : ∀ (n : Tree κ α) (p : List κ),
      (n.nodes p).filter (fun e => decide (e.1 = p)) = [(p, n.data)] := by
    rintro ⟨data, children⟩ p
    rw [nodes, List.filter_cons_of_pos (by simp), List.filter_eq_nil_iff.mpr]
    · rfl
    · intro e he
      simpa using path_ne_of_mem_nodesBelow he
  have hboth : (t.nodes path).filter (fun e => decide (e.1 = path ++ rest)) =
      ((t.nodes path).filter fun e => decide (path ++ rest <+: e.1)).filter
        fun e => decide (e.1 = path ++ rest) := by
    rw [List.filter_filter]
    refine List.filter_congr fun e _ => ?_
    by_cases heq : e.1 = path ++ rest
    · simp [heq]
    · simp [heq]
  rw [hboth, filter_nodes_prefix h, dataAt]
  cases t.at? rest with
  | none => rfl
  | some n => exact hroot n (path ++ rest)

/-- The nodes are listed with their paths. -/
theorem mem_nodes_iff {t : Tree κ α} (h : t.Keyed) {path : List κ} {d : α} :
    (path, d) ∈ t.nodes [] ↔ t.dataAt path = some d := by
  have hfilter := filter_nodes h [] path
  rw [List.nil_append] at hfilter
  calc (path, d) ∈ t.nodes []
      ↔ (path, d) ∈ (t.nodes []).filter fun e => decide (e.1 = path) := by simp
    _ ↔ t.dataAt path = some d := by
      rw [hfilter]
      cases t.dataAt path <;> simp [eq_comm]

end Tree

end Basis
