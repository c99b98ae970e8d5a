import Mathlib.Algebra.BigOperators.Group.Finset.Piecewise
import Mathlib.Algebra.Order.BigOperators.Group.Finset
import Mathlib.Data.Fintype.Basic
import Mathlib.Data.List.Chain
import Mathlib.Logic.Relation
import Mathlib.Tactic.Ring

/-!
# Relays

Nodes pass messages on over channels. A node sends a message to all nodes that it feeds; a node
that takes a message passes it on in its turn. The channels keep the order of their messages and
lose none, and the nodes take their steps in any order.
-/

namespace Basis

/-- The messages on their way from one node to another, and the histories of the nodes: what each
of them has passed on, and what it has taken from which node. -/
structure Relay (ι M : Type*) where
  pipe : ι → ι → List M
  passed : ι → List M
  received : ι → List (ι × M)

namespace Relay

section

variable {ι M : Type*} [DecidableEq ι] (feeds : ι → ι → Bool)

/-- The relay at its start, when each node has passed on what it begins with. -/
def start (first : ι → List M) : Relay ι M where
  pipe i j := if feeds i j then first i else []
  passed := first
  received _ := []

/-- A node passes messages on. -/
def pass (s : Relay ι M) (i : ι) (ms : List M) : Relay ι M where
  pipe k l := if k = i ∧ feeds k l = true then s.pipe k l ++ ms else s.pipe k l
  passed k := if k = i then s.passed k ++ ms else s.passed k
  received := s.received

/-- A node takes a message of another one and leaves the rest. -/
def take (s : Relay ι M) (i j : ι) (m : M) (rest : List M) : Relay ι M where
  pipe k l := if k = i ∧ l = j then rest else s.pipe k l
  passed := s.passed
  received l := if l = j then s.received l ++ [(i, m)] else s.received l

/-- A node takes a message and passes it on. -/
def hop (s : Relay ι M) (i j : ι) (m : M) (rest : List M) : Relay ι M :=
  (s.take i j m rest).pass feeds j [m]

/-- One step of one of the nodes: new messages are brought in, or a message makes a hop. -/
inductive Step (emits : ι → M → Prop) : Relay ι M → Relay ι M → Prop
  | emit (s : Relay ι M) {i : ι} {ms : List M} (hms : ∀ m ∈ ms, emits i m) :
      Step emits s (s.pass feeds i ms)
  | hop (s : Relay ι M) {i j : ι} {m : M} {rest : List M} (hpipe : s.pipe i j = m :: rest) :
      Step emits s (s.hop feeds i j m rest)

/-- What a node has taken from another one. -/
def taken (s : Relay ι M) (i j : ι) : List M :=
  ((s.received j).filter fun e => decide (e.1 = i)).map Prod.snd

/-! ## Channels -/

/-- The channels lose nothing, invent nothing and keep the order. -/
structure KeepsOrder (s : Relay ι M) : Prop where
  channel : ∀ i j, feeds i j = true → s.taken i j ++ s.pipe i j = s.passed i
  idle : ∀ i j, feeds i j = false → s.pipe i j = []
  senders : ∀ j, ∀ e ∈ s.received j, feeds e.1 j = true

variable {feeds} {s : Relay ι M} {i j : ι} {m : M} {rest : List M}

theorem KeepsOrder.start (first : ι → List M) : (start feeds first).KeepsOrder feeds := by
  refine ⟨fun i j hij => ?_, fun i j hij => ?_, fun j e he => ?_⟩
  · exact if_pos hij
  · exact if_neg (by rw [hij]; exact Bool.false_ne_true)
  · cases he

theorem KeepsOrder.pass (h : s.KeepsOrder feeds) (i : ι) (ms : List M) :
    (s.pass feeds i ms).KeepsOrder feeds := by
  obtain ⟨hchannel, hidle, hsenders⟩ := h
  refine ⟨fun k l hkl => ?_, fun k l hkl => ?_, hsenders⟩
  · have hsame := hchannel k l hkl
    by_cases hk : k = i
    · simp only [Relay.pass, if_pos (And.intro hk hkl), if_pos hk, ← hsame, List.append_assoc]
      rfl
    · simp only [Relay.pass, if_neg hk, if_neg fun h : k = i ∧ _ => hk h.1]
      exact hsame
  · have hno : ¬(k = i ∧ feeds k l = true) := by
      rw [hkl]
      simp
    simp only [Relay.pass, if_neg hno]
    exact hidle k l hkl

theorem taken_take (k l : ι) : (s.take i j m rest).taken k l =
    if k = i ∧ l = j then s.taken k l ++ [m] else s.taken k l := by
  unfold taken take
  by_cases hl : l = j
  · by_cases hk : k = i
    · simp [hl, hk]
    · simp [hl, hk, Ne.symm hk]
  · simp [hl]

theorem KeepsOrder.take (h : s.KeepsOrder feeds) (hpipe : s.pipe i j = m :: rest) :
    (s.take i j m rest).KeepsOrder feeds := by
  obtain ⟨hchannel, hidle, hsenders⟩ := h
  have hij : feeds i j = true := by
    by_contra hno
    rw [hidle i j (by simpa using hno)] at hpipe
    cases hpipe
  refine ⟨fun k l hkl => ?_, fun k l hkl => ?_, fun l e he => ?_⟩
  · have hsame := hchannel k l hkl
    rw [taken_take]
    by_cases hkj : k = i ∧ l = j
    · obtain ⟨rfl, rfl⟩ := hkj
      rw [hpipe] at hsame
      simp only [Relay.take, and_self, if_true, List.append_assoc, List.singleton_append]
      exact hsame
    · simp only [Relay.take, if_neg hkj]
      exact hsame
  · have hno : ¬(k = i ∧ l = j) := by
      rintro ⟨rfl, rfl⟩
      rw [hij] at hkl
      cases hkl
    simp only [Relay.take, if_neg hno]
    exact hidle k l hkl
  · by_cases hl : l = j
    · subst hl
      simp only [Relay.take, if_true] at he
      rcases List.mem_append.mp he with hold | hnew
      · exact hsenders l e hold
      · rw [List.mem_singleton.mp hnew]
        exact hij
    · simp only [Relay.take, if_neg hl] at he
      exact hsenders l e he

/-! ## Relaying -/

variable (feeds) in
/-- The channels keep the order, and a node that brings in nothing has passed on what it began
with and what it has taken. -/
structure Faithful (emits : ι → M → Prop) (first : ι → List M) (s : Relay ι M) : Prop where
  order : s.KeepsOrder feeds
  relayed : ∀ j, (∀ m, ¬emits j m) → s.passed j = first j ++ (s.received j).map Prod.snd

variable {emits : ι → M → Prop} {first : ι → List M} {s' : Relay ι M}

theorem Faithful.start : Faithful feeds emits first (start feeds first) :=
  ⟨.start first, fun _ _ => (List.append_nil _).symm⟩

theorem Faithful.step (h : Faithful feeds emits first s) (hstep : Step feeds emits s s') :
    Faithful feeds emits first s' := by
  obtain ⟨horder, hrelayed⟩ := h
  cases hstep with
  | @emit i ms hms =>
    refine ⟨horder.pass _ ms, fun j hj => ?_⟩
    have hsame := hrelayed j hj
    by_cases heq : j = i
    · subst heq
      have hnone : ms = [] := List.eq_nil_iff_forall_not_mem.mpr fun m hm => hj m (hms m hm)
      simp only [Relay.pass, if_true, hnone, List.append_nil]
      exact hsame
    · simp only [Relay.pass, if_neg heq]
      exact hsame
  | @hop i j m rest hpipe =>
    refine ⟨(horder.take hpipe).pass _ _, fun l hl => ?_⟩
    have hsame := hrelayed l hl
    by_cases heq : l = j
    · simp only [Relay.hop, Relay.pass, Relay.take, if_pos heq, hsame, List.map_append,
        List.append_assoc, List.map_cons, List.map_nil]
    · simp only [Relay.hop, Relay.pass, Relay.take, if_neg heq]
      exact hsame

theorem faithful_of_reached (h : Relation.ReflTransGen (Step feeds emits) (start feeds first) s) :
    Faithful feeds emits first s := by
  induction h with
  | refl => exact .start
  | tail _ hstep ih => exact ih.step hstep

/-- What holds of all that is brought in, and is kept from node to node, holds of all that is
passed on. -/
theorem forall_passed {P : ι → M → Prop} (hfirst : ∀ i, ∀ m ∈ first i, P i m)
    (hemits : ∀ i m, emits i m → P i m) (hkeeps : ∀ i j m, feeds i j = true → P i m → P j m)
    (h : Relation.ReflTransGen (Step feeds emits) (start feeds first) s) :
    ∀ i, ∀ m ∈ s.passed i, P i m := by
  induction h with
  | refl => exact hfirst
  | @tail s s' hs hstep ih =>
    cases hstep with
    | @emit i ms hms =>
      intro k m hm
      by_cases hk : k = i
      · subst hk
        simp only [Relay.pass, if_true] at hm
        rcases List.mem_append.mp hm with hold | hnew
        · exact ih k m hold
        · exact hemits k m (hms m hnew)
      · simp only [Relay.pass, if_neg hk] at hm
        exact ih k m hm
    | @hop i j m rest hpipe =>
      have horder := (faithful_of_reached hs).order
      have hij : feeds i j = true := by
        by_contra hno
        rw [horder.idle i j (by simpa using hno)] at hpipe
        cases hpipe
      have hm : m ∈ s.passed i := by
        rw [← horder.channel i j hij, hpipe]
        simp
      intro k m' hm'
      by_cases hk : k = j
      · subst hk
        simp only [Relay.hop, Relay.pass, Relay.take, if_true] at hm'
        rcases List.mem_append.mp hm' with hold | hnew
        · exact ih k m' hold
        · rw [List.mem_singleton.mp hnew]
          exact hkeeps i k m hij (ih i m hm)
      · simp only [Relay.hop, Relay.pass, Relay.take, if_neg hk] at hm'
        exact ih k m' hm'

/-! ## Lines of nodes -/

variable (feeds) in
/-- All that a node takes comes from one other node. -/
def OnlyFeeder (i j : ι) : Prop := feeds i j = true ∧ ∀ k, feeds k j = true → k = i

theorem KeepsOrder.received_append (h : s.KeepsOrder feeds) (honly : OnlyFeeder feeds i j) :
    (s.received j).map Prod.snd ++ s.pipe i j = s.passed i := by
  have hall : (s.received j).filter (fun e => decide (e.1 = i)) = s.received j :=
    List.filter_eq_self.mpr fun e he => decide_eq_true (honly.2 e.1 (h.senders j e he))
  have hchannel := h.channel i j honly.1
  rwa [taken, hall] at hchannel

/-- Where only one node hands over what has a property, that has all been taken from it. -/
theorem KeepsOrder.filter_received (h : s.KeepsOrder feeds) (p : M → Bool)
    (hothers : ∀ k, k ≠ i → feeds k j = true → ∀ m ∈ s.passed k, p m = false) :
    ((s.received j).map Prod.snd).filter p = (s.taken i j).filter p := by
  have hsenders : ∀ e ∈ s.received j, p e.2 = true → e.1 = i := by
    intro e he hp
    by_contra hne
    have hfeeds := h.senders j e he
    have htaken : e.2 ∈ s.taken e.1 j :=
      List.mem_map_of_mem (List.mem_filter.mpr ⟨he, decide_eq_true rfl⟩)
    have hpassed : e.2 ∈ s.passed e.1 := by
      rw [← h.channel e.1 j hfeeds]
      exact List.mem_append_left _ htaken
    rw [hothers e.1 hne hfeeds e.2 hpassed] at hp
    cases hp
  rw [taken, List.filter_map, List.filter_map, List.filter_filter]
  congr 1
  refine List.filter_congr fun e he => ?_
  cases hp : p e.2 with
  | false => simp [hp]
  | true => simp [hp, hsenders e he hp]

/-- What is on its way along a line of nodes, the last hop first. -/
def inFlight (s : Relay ι M) : ι → List ι → List M
  | _, [] => []
  | i, j :: line => s.inFlight j line ++ s.pipe i j

/-- Along a line of nodes that only pass messages on, the last one has taken what the first one
has passed on, but for what is on its way and what the others began with. -/
theorem Faithful.line (h : Faithful feeds emits first s) {line : List ι}
    (hline : (i :: (line ++ [j])).IsChain (OnlyFeeder feeds))
    (hrelays : ∀ k ∈ line, ∀ m, ¬emits k m) :
    (s.received j).map Prod.snd ++ s.inFlight i (line ++ [j]) =
      line.reverse.flatMap first ++ s.passed i := by
  induction line generalizing i with
  | nil =>
    have honly : OnlyFeeder feeds i j := by simpa using hline
    exact h.order.received_append honly
  | cons k line ih =>
    obtain ⟨honly, hrest⟩ : OnlyFeeder feeds i k ∧
        (k :: (line ++ [j])).IsChain (OnlyFeeder feeds) := by
      simpa using hline
    have hlast := ih hrest fun l hl => hrelays l (List.mem_cons_of_mem _ hl)
    have hrelayed := h.relayed k (hrelays k List.mem_cons_self)
    rw [List.cons_append, inFlight, ← List.append_assoc, hlast, hrelayed, List.append_assoc,
      List.append_assoc, h.order.received_append honly]
    simp

/-! ## Load -/

variable [Fintype ι] {weight : ι → ℕ}

/-- A node weighs more than all the nodes that it feeds. -/
def Outweighs (feeds : ι → ι → Bool) (weight : ι → ℕ) : Prop :=
  ∀ j, ∑ k, (if feeds j k = true then weight k else 0) < weight j

/-- How much is on its way, each message weighed by where it goes. -/
def load (weight : ι → ℕ) (s : Relay ι M) : ℕ := ∑ i, ∑ j, (s.pipe i j).length * weight j

theorem load_pass (weight : ι → ℕ) (s : Relay ι M) (j : ι) (m : M) :
    (s.pass feeds j [m]).load weight =
      s.load weight + ∑ k, (if feeds j k = true then weight k else 0) := by
  have hpipe : ∀ i k, ((s.pass feeds j [m]).pipe i k).length * weight k =
      (s.pipe i k).length * weight k +
        if i = j then (if feeds j k = true then weight k else 0) else 0 := by
    intro i k
    by_cases hi : i = j
    · subst hi
      by_cases hk : feeds i k = true
      · simp only [pass, hk, and_self, if_true, List.length_append, List.length_singleton]
        ring
      · simp [pass, hk]
    · simp [pass, hi]
  simp only [load, hpipe, Finset.sum_add_distrib]
  congr 1
  simp

theorem load_take (hpipe : s.pipe i j = m :: rest) :
    (s.take i j m rest).load weight + weight j = s.load weight := by
  have hlength : ∀ k l, (s.pipe k l).length * weight l =
      ((s.take i j m rest).pipe k l).length * weight l +
        if k = i then (if l = j then weight j else 0) else 0 := by
    intro k l
    by_cases hk : k = i
    · subst hk
      by_cases hl : l = j
      · subst hl
        simp only [take, and_self, if_true, hpipe, List.length_cons]
        ring
      · simp [take, hl]
    · simp [take, hk]
  simp only [load, hlength, Finset.sum_add_distrib]
  congr 1
  simp

/-- Each hop takes from the load. -/
theorem load_hop (hweight : Outweighs feeds weight) (hpipe : s.pipe i j = m :: rest) :
    (s.hop feeds i j m rest).load weight < s.load weight := by
  have hless := hweight j
  rw [hop, load_pass, ← load_take hpipe]
  omega

omit [DecidableEq ι] in
/-- Where each node feeds only nodes of a higher rank there are weights. -/
theorem exists_outweighs {rank : ι → ℕ} (hrank : ∀ i j, feeds i j = true → rank i < rank j) :
    ∃ weight, Outweighs feeds weight := by
  let top := Finset.univ.sup rank
  refine ⟨fun j => (Fintype.card ι + 1) ^ (top - rank j), fun j => ?_⟩
  have htop : ∀ k, rank k ≤ top := fun k => Finset.le_sup (Finset.mem_univ k)
  by_cases hfeeds : ∃ k, feeds j k = true
  · obtain ⟨k, hk⟩ := hfeeds
    have hlt := (hrank j k hk).trans_le (htop k)
    have hsplit : top - rank j = (top - rank j - 1) + 1 := by omega
    have hbound : ∀ k ∈ Finset.univ, (if feeds j k = true then
        (Fintype.card ι + 1) ^ (top - rank k) else 0) ≤
          (Fintype.card ι + 1) ^ (top - rank j - 1) := by
      intro k _
      split
      · next hk => exact Nat.pow_le_pow_right (by omega) (by have := hrank j k hk; omega)
      · exact Nat.zero_le _
    calc ∑ k, (if feeds j k = true then (Fintype.card ι + 1) ^ (top - rank k) else 0)
      _ ≤ Fintype.card ι * (Fintype.card ι + 1) ^ (top - rank j - 1) := by
        simpa using Finset.sum_le_card_nsmul _ _ _ hbound
      _ < (Fintype.card ι + 1) * (Fintype.card ι + 1) ^ (top - rank j - 1) :=
        Nat.mul_lt_mul_of_pos_right (by omega) (Nat.pow_pos (by omega))
      _ = (Fintype.card ι + 1) ^ (top - rank j) := by rw [hsplit, pow_succ, mul_comm]; rfl
  · have hnone : ∀ k, (if feeds j k = true then
        (Fintype.card ι + 1) ^ (top - rank k) else 0) = 0 := fun k =>
      if_neg fun hk => hfeeds ⟨k, hk⟩
    simp only [hnone, Finset.sum_const_zero]
    exact Nat.pow_pos (by omega)

end

end Relay

end Basis
