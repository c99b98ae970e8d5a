import Quarks.Cloud.Cluster

/-!
# No frame is stuck

The threads make only so many hops before they all wait for frames, and they all wait only when
no frame is on its way: a writer that waits for a reply has its request or the reply on its way.
-/

namespace Quarks

open Basis

section

variable [HashOrder] {ι : Type} [DecidableEq ι] {w : Wiring ι} {node : ι → World}
  {clients : ι → World → Request → Prop} {s s' : Cluster ι}
  {a : Relay (Endpoint ι) (Option Change)}

/-! ## Hops -/

/-- No frame is on its way, and no writer waits for a reply. -/
structure Cluster.Drained (s : Cluster ι) : Prop where
  pipes : ∀ e j, s.pipe e j = []
  replies : ∀ i, s.replies i = []
  free : ∀ i, s.awaiting i = false

omit [HashOrder] [DecidableEq ι] in
theorem length_replied_le (role : Role) (msg : Bytes) :
    (role.replied (role.response msg)).length ≤ 1 := by
  unfold Role.replied Role.response
  cases role.replies <;> cases role.sends <;> simp

omit [HashOrder] [DecidableEq ι] in
theorem exists_weight [Fintype ι] (w : Wiring ι) :
    ∃ weight, Relay.Outweighs w.relayFeeds weight := by
  refine @Relay.exists_outweighs _ _ _ w.endpointRank fun e e' hfeeds => ?_
  cases e' with
  | producer j => cases hfeeds
  | thread j =>
    cases e with
    | producer i => exact Nat.succ_pos _
    | thread i => exact Nat.succ_lt_succ (w.rank_lt i j hfeeds)

/-- What is left to be done: each message on its way may still cause a reply. -/
def hopsLeft [Fintype ι] (weight : Endpoint ι → ℕ) (s : Cluster ι)
    (a : Relay (Endpoint ι) (Option Change)) : ℕ :=
  2 * a.load weight + ∑ i, (s.replies i).length

/-- Each hop of the cluster takes from what is left to be done. -/
theorem hop_decreases [Fintype ι] {weight : Endpoint ι → ℕ}
    (hweight : Relay.Outweighs w.relayFeeds weight) (h : RelayState w node s a)
    (hstep : ClusterHop w s s') :
    ∃ a', RelayState w node s' a' ∧ hopsLeft weight s' a' < hopsLeft weight s a := by
  cases hstep with
  | @handle e j frame rest out hfree hframe hout =>
    obtain ⟨message, messages, hpipe, rfl, rfl, hsize⟩ := h.pipe_cons hframe
    rw [handle_messageOf _ hsize] at hout
    obtain rfl := Option.some.inj hout
    refine ⟨_, h.handled hpipe, ?_⟩
    have hload := Relay.load_hop hweight hpipe
    have hone := length_replied_le (w.role j) (messageOf message)
    have hreplies : ∀ i, ((s.handled w e j (messages.map (encodedMsg ∘ messageOf))
        ((w.role j).response (messageOf message))).replies i).length = (s.replies i).length +
          if e = .thread i then ((w.role j).replied
            ((w.role j).response (messageOf message))).length else 0 := by
      intro i
      simp only [Cluster.handled, Cluster.send]
      split
      · exact List.length_append
      · rfl
    have hsum : ∑ i, (if e = .thread i then ((w.role j).replied
        ((w.role j).response (messageOf message))).length else 0) ≤ 1 := by
      cases e with
      | producer i => simp
      | thread i =>
        simp only [Endpoint.thread.injEq, Finset.sum_ite_eq, Finset.mem_univ, if_true]
        exact hone
    simp only [hopsLeft, hreplies, Finset.sum_add_distrib]
    omega
  | @reply i frame rest out hwaits hframe hout =>
    refine ⟨a, ⟨h.pipe_eq, h.sized, h.saved_eq, h.origin_eq⟩, ?_⟩
    have hless : ∑ l, ((s.replied i rest).replies l).length < ∑ l, (s.replies l).length := by
      refine Finset.sum_lt_sum (fun l _ => ?_) ⟨i, Finset.mem_univ i, ?_⟩
      · simp only [Cluster.replied]
        split
        · next hl =>
          rw [hl, hframe]
          simp
        · exact le_rfl
      · simp [Cluster.replied, hframe]
    simp only [hopsLeft]
    omega

/-- A run of hops is no longer than what is left to be done. -/
theorem length_le_hopsLeft [Fintype ι] {weight : Endpoint ι → ℕ}
    (hweight : Relay.Outweighs w.relayFeeds weight) (h : RelayState w node s a)
    {run : List (Cluster ι)} (hrun : (s :: run).IsChain (ClusterHop w)) :
    run.length ≤ hopsLeft weight s a := by
  induction run generalizing s a with
  | nil => exact Nat.zero_le _
  | cons s' run ih =>
    obtain ⟨hhop, hrest⟩ := List.isChain_cons_cons.mp hrun
    obtain ⟨a', hnext, hless⟩ := hop_decreases hweight h hhop
    have hle := ih hnext hrest
    rw [List.length_cons]
    omega

/-! ## Waiting for replies -/

variable (w) in
/-- A writer waits exactly as long as its request or the reply to it is on its way. -/
structure Awaits (s : Cluster ι) : Prop where
  replies_eq : ∀ i, ∀ frame ∈ s.replies i, frame = encodedMsg brokerOk
  asked : ∀ i j, (w.role i).requests = true → w.feeds (.thread i) j = true →
    (s.pipe (.thread i) j).length + (s.replies i).length = if s.awaiting i then 1 else 0
  free : ∀ i, (w.role i).requests = false → s.awaiting i = false ∧ s.replies i = []

omit [HashOrder] [DecidableEq ι] in
theorem Awaits.start : Awaits w (Cluster.start w node) := by
  refine ⟨fun i frame hmem => ?_, fun i j hrequests hfeeds => ?_, fun i hno => ⟨hno, rfl⟩⟩
  · cases hmem
  · simp [Cluster.start, Wiring.reports, hfeeds, hrequests]

theorem Awaits.served (h : Awaits w s) (i : ι) (r : Request) : Awaits w (s.served w i r) := by
  have hpipe : ∀ k j, (s.served w i r).pipe (.thread k) j = s.pipe (.thread k) j := by
    intro k j
    simp [Cluster.served, Cluster.send]
  refine ⟨h.replies_eq, fun k j hrequests hfeeds => ?_, h.free⟩
  rw [hpipe]
  exact h.asked k j hrequests hfeeds

omit [HashOrder] [DecidableEq ι] in
/-- A thread that requests feeds one other thread, which replies. -/
theorem peer_of_requests {i j j' : ι} (hrequests : (w.role i).requests = true)
    (hfeeds : w.feeds (.thread i) j = true) (hfeeds' : w.feeds (.thread i) j' = true) :
    j' = j ∧ j ≠ i ∧ (w.role j).replies = true := by
  have hreplies := (w.answered _ _ hfeeds).mpr ⟨i, rfl, hrequests⟩
  refine ⟨?_, fun hloop => ?_, hreplies⟩
  · rcases w.one_peer _ _ _ hfeeds' hfeeds with heq | ⟨k, hthread, hpublishes⟩
    · exact heq
    · cases hthread
      cases hrole : w.role i with
      | writer sockets =>
        rw [hrole] at hpublishes
        cases hpublishes
      | broker sinkMode =>
        rw [hrole] at hrequests
        cases hrequests
      | reader =>
        rw [hrole] at hrequests
        cases hrequests
  · subst hloop
    exact absurd (w.rank_lt _ _ hfeeds) (lt_irrefl _)

omit [HashOrder] [DecidableEq ι] in
/-- A thread that replies sends one reply, and waits for none. -/
theorem replied_response {j : ι} (hreplies : (w.role j).replies = true) (msg : Bytes) :
    (w.role j).replied ((w.role j).response msg) = [encodedMsg brokerOk] ∧
      (w.role j).requests = false := by
  cases hrole : w.role j with
  | broker sinkMode =>
    rw [hrole] at hreplies
    cases sinkMode with
    | true => cases hreplies
    | false => exact ⟨rfl, rfl⟩
  | writer k =>
    rw [hrole] at hreplies
    cases hreplies
  | reader =>
    rw [hrole] at hreplies
    cases hreplies

theorem Awaits.handled (h : Awaits w s) {e : Endpoint ι} {j : ι} {frame : Bytes}
    {rest : List Bytes} (hfeeds : w.feeds e j = true) (hfree : s.awaiting j = false)
    (hframe : s.pipe e j = frame :: rest) (msg : Bytes) :
    Awaits w (s.handled w e j rest ((w.role j).response msg)) := by
  refine ⟨fun i frame' hmem => ?_, fun i b hrequests hb => ?_, fun i hno => ?_⟩
  · simp only [Cluster.handled, Cluster.send] at hmem
    split at hmem
    · rcases List.mem_append.mp hmem with hold | hnew
      · exact h.replies_eq i frame' hold
      · cases hreplies : (w.role j).replies with
        | false => simp [Role.replied, hreplies] at hnew
        | true =>
          rw [(replied_response hreplies msg).1] at hnew
          exact List.mem_singleton.mp hnew
    · exact h.replies_eq i frame' hmem
  · have hcount := h.asked i b hrequests hb
    obtain ⟨-, hne, hreplies⟩ := peer_of_requests hrequests hb hb
    by_cases hij : i = j
    · -- the thread that takes the frame is the writer: it sends its request
      subst hij
      have hother : ¬(Endpoint.thread i = e ∧ b = i) := fun h => hne h.2
      have hsource : e ≠ .thread i := by
        rintro rfl
        exact absurd (w.rank_lt _ _ hfeeds) (lt_irrefl _)
      rw [hfree, if_neg Bool.false_ne_true] at hcount
      have hsent : (i = i ∧ w.feeds (.thread i) b = true) := ⟨rfl, hb⟩
      simp only [Cluster.handled, Cluster.send, if_neg hother, hb, and_self, if_true,
        if_neg hsource, forwarded_response hb, hrequests, List.length_append,
        List.length_singleton]
      omega
    · have hthread : ¬(Endpoint.thread i = Endpoint.thread j ∧ w.feeds (.thread i) b = true) :=
        fun h => hij (Endpoint.thread.inj h.1)
      by_cases he : e = .thread i
      · -- the thread takes the request of the writer: it replies
        subst he
        obtain ⟨rfl, -, -⟩ := peer_of_requests hrequests hb hfeeds
        rw [hframe, List.length_cons] at hcount
        simp only [Cluster.handled, Cluster.send, if_neg hthread, and_self, if_true, if_neg hij,
          (replied_response hreplies msg).1, List.length_append, List.length_singleton]
        omega
      · have hother : ¬(Endpoint.thread i = e ∧ b = j) := fun h => he h.1.symm
        simp only [Cluster.handled, Cluster.send, if_neg hthread, if_neg hother, if_neg he,
          if_neg hij]
        exact hcount
  · obtain ⟨hwaits, hnone⟩ := h.free i hno
    refine ⟨?_, ?_⟩
    · simp only [Cluster.handled, Cluster.send]
      split
      · next hij => rw [← hij, hno]
      · exact hwaits
    · simp only [Cluster.handled, Cluster.send]
      split
      · next he =>
        have hreplies : (w.role j).replies = false := by
          by_contra hyes
          obtain ⟨k, hk, hrequests⟩ := (w.answered _ _ hfeeds).mp (by simpa using hyes)
          obtain rfl : k = i := Endpoint.thread.inj (hk.symm.trans he)
          rw [hno] at hrequests
          cases hrequests
        simp [hnone, Role.replied, hreplies]
      · exact hnone

omit [HashOrder] in
theorem Awaits.replied (h : Awaits w s) {i : ι} {frame : Bytes} {rest : List Bytes}
    (hwaits : s.awaiting i = true) (hframe : s.replies i = frame :: rest) :
    Awaits w (s.replied i rest) := by
  refine ⟨fun l frame' hmem => ?_, fun l j hrequests hfeeds => ?_, fun l hno => ?_⟩
  · simp only [Cluster.replied] at hmem
    split at hmem
    · next hl => exact h.replies_eq i frame' (hframe ▸ List.mem_cons_of_mem _ hmem)
    · exact h.replies_eq l frame' hmem
  · have hcount := h.asked l j hrequests hfeeds
    simp only [Cluster.replied]
    by_cases hl : l = i
    · subst hl
      rw [hwaits, if_pos rfl, hframe, List.length_cons] at hcount
      simp only [if_true, Bool.false_eq_true, if_false]
      omega
    · simp only [if_neg hl]
      exact hcount
  · obtain ⟨hfree, hnone⟩ := h.free l hno
    have hne : l ≠ i := by
      rintro rfl
      rw [hwaits] at hfree
      cases hfree
    simp only [Cluster.replied, if_neg hne]
    exact ⟨hfree, hnone⟩

/-- A frame on its way is that of a message, and goes where the wiring says. -/
theorem frame_of_reached
    (hs : Relation.ReflTransGen (ClusterStep w clients) (Cluster.start w node) s)
    {e : Endpoint ι} {j : ι} {frame : Bytes} {rest : List Bytes}
    (hframe : s.pipe e j = frame :: rest) :
    w.feeds e j = true ∧ ∃ msg, (w.role j).handle frame = some ((w.role j).response msg) := by
  obtain ⟨a, ha, hview⟩ := relayState_of_reached hs
  obtain ⟨message, messages, hpipe, rfl, -, hsize⟩ := hview.pipe_cons hframe
  refine ⟨?_, messageOf message, handle_messageOf _ hsize⟩
  by_contra hno
  have hrelay : w.relayFeeds e (.thread j) = false := Bool.eq_false_iff.mpr hno
  rw [(Relay.faithful_of_reached ha).order.idle e (.thread j) hrelay] at hpipe
  cases hpipe

theorem waiting_of_reached
    (hs : Relation.ReflTransGen (ClusterStep w clients) (Cluster.start w node) s) :
    Awaits w s := by
  induction hs with
  | refl => exact .start
  | tail hs hstep ih =>
    cases hstep with
    | serve horigin hclient hr hsize => exact ih.served _ _
    | hop hhop =>
      cases hhop with
      | reply hwaits hframe hout => exact ih.replied hwaits hframe
      | handle hfree hframe hout =>
        obtain ⟨hfeeds, msg, hhandled⟩ := frame_of_reached hs hframe
        obtain rfl := Option.some.inj (hhandled.symm.trans hout)
        exact ih.handled hfeeds hfree hframe msg

omit [HashOrder] in
/-- The reply of a broker is taken. -/
theorem reply_result :
    (receive (fun _ => true) .writerReply (encodedMsg brokerOk)).result = some ⟨[], []⟩ := by
  have hzero : (0 : UInt8) ∈ brokerOk := by decide
  have hdecode := decodeFrame_encodedMsg (show brokerOk.length < 2 ^ 64 by decide) hzero
  simp only [receive, Traced.result_bind, hdecode, Option.bind_some,
    onReadText_result false hzero, Traced.result_pure]
  rfl

/-- When no thread can make a hop, no frame is on its way. -/
theorem drained_of_no_hop
    (hs : Relation.ReflTransGen (ClusterStep w clients) (Cluster.start w node) s)
    (hno : ∀ s', ¬ClusterHop w s s') : s.Drained := by
  have hawaits := waiting_of_reached hs
  have hreplies : ∀ i, s.awaiting i = true → s.replies i = [] := by
    intro i hwaits
    by_contra hne
    obtain ⟨frame, rest, hframe⟩ := List.exists_cons_of_ne_nil hne
    obtain rfl := hawaits.replies_eq i frame (hframe ▸ List.mem_cons_self)
    exact hno _ (.reply s hwaits hframe reply_result)
  have hfree : ∀ e j, s.awaiting j = false → s.pipe e j = [] := by
    intro e j hfree
    by_contra hne
    obtain ⟨frame, rest, hframe⟩ := List.exists_cons_of_ne_nil hne
    obtain ⟨-, msg, hhandled⟩ := frame_of_reached hs hframe
    exact hno _ (.handle s hfree hframe hhandled)
  -- a writer that waits has a request on its way, and the broker can take it
  have hwaits : ∀ i, s.awaiting i = false := by
    intro i
    by_contra hyes
    have hyes : s.awaiting i = true := by simpa using hyes
    have hrequests : (w.role i).requests = true := by
      by_contra hnot
      rw [(hawaits.free i (by simpa using hnot)).1] at hyes
      cases hyes
    obtain ⟨j, hj⟩ := w.connected i hrequests
    have hcount := hawaits.asked i j hrequests hj
    obtain ⟨-, -, hanswers⟩ := peer_of_requests hrequests hj hj
    have hbroker := (hawaits.free j (replied_response hanswers []).2).1
    rw [hyes, if_pos rfl, hreplies i hyes, hfree (.thread i) j hbroker] at hcount
    cases hcount
  refine ⟨fun e j => hfree e j (hwaits j), fun i => ?_, hwaits⟩
  cases hrequests : (w.role i).requests with
  | false => exact (hawaits.free i hrequests).2
  | true =>
    obtain ⟨j, hj⟩ := w.connected i hrequests
    have hcount := hawaits.asked i j hrequests hj
    rw [hwaits i, if_neg Bool.false_ne_true] at hcount
    exact List.length_eq_zero_iff.mp (by omega)

/-- A hop changes no database of an origin. -/
theorem hop_keeps_origin
    (hs : Relation.ReflTransGen (ClusterStep w clients) (Cluster.start w node) s)
    (hhop : ClusterHop w s s') {i : ι} (horigin : w.IsOrigin i) :
    (s'.node i).node.db = (s.node i).node.db := by
  cases hhop with
  | reply hwaits hframe hout => rfl
  | @handle e j frame rest out hfree hframe hout =>
    obtain ⟨a, -, hview⟩ := relayState_of_reached hs
    obtain ⟨message, messages, -, rfl, -, hsize⟩ := hview.pipe_cons hframe
    rw [handle_messageOf _ hsize] at hout
    obtain rfl := Option.some.inj hout
    simp only [Cluster.handled, Cluster.send]
    split
    · next hij =>
      have hsaved := saveAll_response w j message (s.node j)
      rw [← hij, horigin.2.1, if_neg Bool.false_ne_true] at hsaved
      rw [← hij]
      exact hsaved
    · rfl

/-- The threads can take all frames, and the origins keep their databases. -/
theorem exists_drained [Fintype ι]
    (hs : Relation.ReflTransGen (ClusterStep w clients) (Cluster.start w node) s) :
    ∃ s', Relation.ReflTransGen (ClusterStep w clients) (Cluster.start w node) s' ∧
      s'.Drained ∧ ∀ i, w.IsOrigin i → (s'.node i).node.db = (s.node i).node.db := by
  obtain ⟨weight, hweight⟩ := exists_weight w
  obtain ⟨a, -, hview⟩ := relayState_of_reached hs
  generalize hn : hopsLeft weight s a = n
  induction n using Nat.strong_induction_on generalizing s a with
  | _ n ih =>
    by_cases hstuck : ∀ s', ¬ClusterHop w s s'
    · exact ⟨s, hs, drained_of_no_hop hs hstuck, fun _ _ => rfl⟩
    · obtain ⟨s₁, hhop⟩ : ∃ s₁, ClusterHop w s s₁ := by simpa using hstuck
      obtain ⟨a₁, hnext, hless⟩ := hop_decreases hweight hview hhop
      obtain ⟨s', hreached, hdrained, hkept⟩ := ih _ (hn ▸ hless) (hs.tail (.hop hhop)) a₁ hnext rfl
      refine ⟨s', hreached, hdrained, fun i horigin => ?_⟩
      exact (hkept i horigin).trans (hop_keeps_origin hs hhop horigin)

/-- From every state that is reached the threads make only so many hops, in whatever order, and
when none of them can make one, all frames have been taken. -/
theorem hops_drain [Fintype ι]
    (hs : Relation.ReflTransGen (ClusterStep w clients) (Cluster.start w node) s) :
    (∃ n, ∀ run : List (Cluster ι), (s :: run).IsChain (ClusterHop w) → run.length ≤ n) ∧
      ∀ s', Relation.ReflTransGen (ClusterHop w) s s' → (∀ s'', ¬ClusterHop w s' s'') →
        s'.Drained := by
  obtain ⟨weight, hweight⟩ := exists_weight w
  obtain ⟨a, -, hview⟩ := relayState_of_reached hs
  refine ⟨⟨_, fun run hrun => length_le_hopsLeft hweight hview hrun⟩, ?_⟩
  intro s' hhops hno
  have hsteps : Relation.ReflTransGen (ClusterStep w clients) s s' :=
    hhops.lift id fun _ _ h => ClusterStep.hop h
  exact drained_of_no_hop (hs.trans hsteps) hno

end

/-- The threads of a cluster with a broker make only so many hops after a value has been put. -/
theorem hops_drain_star : ∃ n, ∀ run : List (Cluster (Fin 5)),
    (afterPut starWiring :: run).IsChain (@ClusterHop .insertion _ _ starWiring) →
      run.length ≤ n :=
  (@hops_drain .insertion _ _ starWiring emptyNodes putFirst _ _
    (afterPut_reached ⟨rfl, by decide, 0, by decide⟩ (by decide +kernel))).1

end Quarks
