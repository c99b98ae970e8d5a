import Quarks.Cloud.Draining

/-!
# The databases of a cluster

Along a line of threads, each of which receives only from the one before it, a node that saves has
made all the changes of the origin at its head but for those on their way. The nodes behind a
broker make the changes of all the writers in the same order, and those of one writer in the order
in which it has made them.
-/

namespace Quarks

open Basis

/-! ## Lines -/

section

variable [HashOrder] {ι : Type} [DecidableEq ι] {w : Wiring ι} {node : ι → World}
  {clients : ι → World → Request → Prop} {s : Cluster ι}
  {a : Relay (Endpoint ι) (Option Change)}

/-- Each thread receives from the one before it only, and the first from the endpoint. -/
def Wiring.IsLine (w : Wiring ι) : Endpoint ι → List ι → Prop
  | _, [] => True
  | e, j :: line => (∀ k, w.feeds k j = true ↔ k = e) ∧ w.IsLine (.thread j) line

/-- The frames on their way along a line, those of the last hop first. -/
def Cluster.inFlight (s : Cluster ι) : Endpoint ι → List ι → List Bytes
  | _, [] => []
  | e, j :: line => s.inFlight (.thread j) line ++ s.pipe e j

instance decidableIsLine [Fintype ι] (w : Wiring ι) :
    (e : Endpoint ι) → (line : List ι) → Decidable (w.IsLine e line)
  | _, [] => .isTrue trivial
  | _, j :: line => @instDecidableAnd _ _ Fintype.decidableForallFintype
      (decidableIsLine w (.thread j) line)

omit [HashOrder] [DecidableEq ι] in
theorem Cluster.Drained.inFlight_eq_nil (h : s.Drained) (e : Endpoint ι) (line : List ι) :
    s.inFlight e line = [] := by
  induction line generalizing e with
  | nil => rfl
  | cons j line ih => rw [Cluster.inFlight, ih, h.pipes, List.append_nil]

omit [HashOrder] [DecidableEq ι] in
theorem Wiring.IsLine.isChain {e : Endpoint ι} {line : List ι} (h : w.IsLine e line) :
    (e :: line.map Endpoint.thread).IsChain (Relay.OnlyFeeder w.relayFeeds) := by
  induction line generalizing e with
  | nil => exact .singleton e
  | cons j line ih =>
    obtain ⟨honly, hrest⟩ := h
    refine List.isChain_cons_cons.mpr ⟨⟨(honly e).mpr rfl, ?_⟩, ih hrest⟩
    exact fun k hk => (honly k).mp hk

omit [DecidableEq ι] in
theorem RelayState.inFlight_eq (h : RelayState w node s a) (e : Endpoint ι) (line : List ι) :
    s.inFlight e line =
      (a.inFlight e (line.map Endpoint.thread)).map (encodedMsg ∘ messageOf) := by
  induction line generalizing e with
  | nil => rfl
  | cons j line ih =>
    rw [Cluster.inFlight, ih, h.pipe_eq, List.map_cons, Relay.inFlight, List.map_append]

omit [HashOrder] [DecidableEq ι] in
/-- The presence of a writer is no change. -/
theorem messageChanges_first (es : List (Endpoint ι)) :
    messageChanges (es.flatMap w.first) = [] := by
  induction es with
  | nil => rfl
  | cons e es ih =>
    rw [List.flatMap_cons, messageChanges_append, ih, List.append_nil]
    cases e with
    | producer i => rfl
    | thread i =>
      simp only [Wiring.first]
      split <;> rfl

/-- At the end of a line all changes have been received that were passed on at its head, but for
those on their way. -/
theorem RelayState.line (h : RelayState w node s a)
    (ha : Relation.ReflTransGen (Relay.Step w.relayFeeds (w.Publishes clients))
      (Relay.start w.relayFeeds w.first) a)
    {e : Endpoint ι} {line : List ι} {j : ι} (hline : w.IsLine e (line ++ [j])) :
    ∃ messages, s.inFlight e (line ++ [j]) = messages.map (encodedMsg ∘ messageOf) ∧
      messageChanges ((a.received (.thread j)).map Prod.snd) ++ messageChanges messages =
        messageChanges (a.passed e) := by
  have hchain := hline.isChain
  rw [List.map_append, List.map_singleton] at hchain
  have hrelays : ∀ k ∈ line.map Endpoint.thread, ∀ m, ¬w.Publishes clients k m := by
    intro k hk m hm
    obtain ⟨l, -, rfl⟩ := List.mem_map.mp hk
    exact hm
  have hreceived := (Relay.faithful_of_reached ha).line hchain hrelays
  refine ⟨a.inFlight e ((line ++ [j]).map Endpoint.thread), h.inFlight_eq _ _, ?_⟩
  rw [List.map_append, List.map_singleton, ← messageChanges_append, hreceived,
    messageChanges_append, messageChanges_first, List.nil_append]

end

section

variable [HashOrder] {ι : Type} [DecidableEq ι] {w : Wiring ι} {node : ι → World}
  {clients : ι → World → Request → Prop} {s : Cluster ι}
  {a : Relay (Endpoint ι) (Option Change)}

/-- In every state that is reached, the frames on their way bring two nodes behind one thread to
the same database. -/
theorem nodes_agree {b j j' : ι} {line line' : List ι}
    (hline : w.IsLine (.thread b) (line ++ [j])) (hline' : w.IsLine (.thread b) (line' ++ [j']))
    (hsaves : (w.role j).saves = true) (hsaves' : (w.role j').saves = true)
    (hstart : (node j).node.db = (node j').node.db)
    (hs : Relation.ReflTransGen (ClusterStep w clients) (Cluster.start w node) s) :
    ∃ messages messages',
      s.inFlight (.thread b) (line ++ [j]) = messages.map (encodedMsg ∘ messageOf) ∧
      s.inFlight (.thread b) (line' ++ [j']) = messages'.map (encodedMsg ∘ messageOf) ∧
      Change.applyAll (s.node j).node.db (messageChanges messages) =
        Change.applyAll (s.node j').node.db (messageChanges messages') := by
  obtain ⟨a, ha, hview⟩ := relayState_of_reached hs
  obtain ⟨messages, hflight, hall⟩ := hview.line ha hline
  obtain ⟨messages', hflight', hall'⟩ := hview.line ha hline'
  refine ⟨messages, messages', hflight, hflight', ?_⟩
  rw [hview.saved_eq j hsaves, hview.saved_eq j' hsaves', hstart,
    ← Change.applyAll_append, ← Change.applyAll_append, hall, hall']

end

/-- The two readers of a broker come to the same database. -/
theorem nodes_agree_star : ∃ s : Cluster (Fin 5),
    Relation.ReflTransGen (@ClusterStep .insertion _ _ starWiring putFirst)
      (Cluster.start starWiring emptyNodes) s ∧
    s.Drained ∧ (s.node 3).node.db = (s.node 4).node.db := by
  obtain ⟨s, hs, hdrained, -⟩ := @exists_drained .insertion _ _ starWiring _ _ _ _
    (afterPut_reached ⟨rfl, by decide, 0, by decide⟩ (by decide +kernel))
  obtain ⟨messages, messages', hflight, hflight', hsame⟩ := @nodes_agree .insertion _ _ starWiring
    emptyNodes putFirst s 2 3 4 [] [] (by decide) (by decide) rfl rfl rfl hs
  rw [hdrained.inFlight_eq_nil] at hflight hflight'
  obtain rfl : messages = [] := List.map_eq_nil_iff.mp hflight.symm
  obtain rfl : messages' = [] := List.map_eq_nil_iff.mp hflight'.symm
  exact ⟨s, hs, hdrained, hsame⟩

/-! ## Keys of one origin -/

/-- The key that a change is about. -/
def Change.key : Change → Bytes
  | put key _ => key
  | remove key => key

/-- What a key holds depends only on the changes that are about it. -/
theorem Change.find?_applyAll_filter (db : Store) (changes : List Change) (key : Bytes) :
    (applyAll db changes).find? key =
      (applyAll db (changes.filter fun change => decide (change.key = key))).find? key := by
  induction changes generalizing db with
  | nil => rfl
  | cons change changes ih =>
    rw [List.filter_cons]
    split
    · exact ih _
    · next hother =>
      have hother : change.key ≠ key := by simpa using hother
      refine (ih _).trans (find?_applyAll ?_ _)
      cases change with
      | put k v => rw [apply, OrderedMap.find?_insert, if_neg fun h => hother h.symm]
      | remove k => rw [apply, OrderedMap.find?_erase, if_neg fun h => hother h.symm]

/-- A message that is about a key. -/
def isAbout (key : Bytes) : Option Change → Bool
  | none => false
  | some change => decide (change.key = key)

theorem messageChanges_filter (key : Bytes) (messages : List (Option Change)) :
    messageChanges (messages.filter (isAbout key)) =
      (messageChanges messages).filter fun change => decide (change.key = key) := by
  induction messages with
  | nil => rfl
  | cons message messages ih =>
    cases message with
    | none => exact ih
    | some change =>
      by_cases hkey : change.key = key
      · simpa [messageChanges, isAbout, hkey] using ih
      · simpa [messageChanges, isAbout, hkey] using ih

section

variable [HashOrder] {ι : Type} [DecidableEq ι] {w : Wiring ι} {node : ι → World}
  {clients : ι → World → Request → Prop} {s : Cluster ι}
  {a : Relay (Endpoint ι) (Option Change)} {key : Bytes} {i : ι}

/-- An endpoint that frames from another one can come to. -/
def Wiring.Reaches (w : Wiring ι) : Endpoint ι → Endpoint ι → Prop :=
  Relation.ReflTransGen fun e e' => w.relayFeeds e e' = true

/-- Only the requests of one node change the key. -/
def OwnsKey (w : Wiring ι) (clients : ι → World → Request → Prop) (i : ι) (key : Bytes) : Prop :=
  ∀ l, l ≠ i → ∀ world r change, clients l world r → r.isLocal = true →
    messageOf (some change) ∈ newMsgs (w.config l) world r → change.key ≠ key

/-- Messages about the key are only passed on where its owner reaches. -/
theorem OwnsKey.reaches (howns : OwnsKey w clients i key)
    (ha : Relation.ReflTransGen (Relay.Step w.relayFeeds (w.Publishes clients))
      (Relay.start w.relayFeeds w.first) a)
    {e : Endpoint ι} {message : Option Change} (hmessage : message ∈ a.passed e)
    (habout : isAbout key message = true) : w.Reaches (.producer i) e := by
  have hall : ∀ e, ∀ m ∈ a.passed e, isAbout key m = true → w.Reaches (.producer i) e := by
    refine Relay.forall_passed (fun e m hm hkey => ?_) (fun e m hm hkey => ?_)
      (fun e e' m hfeeds hm hkey => (hm hkey).tail hfeeds) ha
    · have hnone : m = none := by
        cases e <;> simp_all [Wiring.first]
      rw [hnone] at hkey
      cases hkey
    · cases e with
      | thread l => exact hm.elim
      | producer l =>
        obtain ⟨world, r, hclient, hr, hnew⟩ := hm
        cases m with
        | none => cases hkey
        | some change =>
          by_cases hl : l = i
          · rw [hl]
            exact .refl
          · exact absurd (of_decide_eq_true hkey) (howns l hl world r change hclient hr hnew)
  exact hall e message hmessage habout

end

end Quarks
