import Quarks.Basis.Relay
import Quarks.Cloud.Roles
import Mathlib.Data.Fintype.Sum

/-!
# A cluster

The nodes of a cluster are wired to each other: the sockets that their threads set up say which
of them receives from which. Their threads take and send on frames, and the requests that they
serve bring in new ones, in any order. For what reaches the databases the frames are messages of a
relay.
-/

namespace Quarks

open Basis

/-- Where frames come from: the producer socket of a node, which its requests write to, or its
thread. -/
inductive Endpoint (ι : Type)
  | producer (i : ι)
  | thread (i : ι)
  deriving DecidableEq

instance {ι : Type} [Fintype ι] : Fintype (Endpoint ι) :=
  Fintype.ofEquiv (ι ⊕ ι)
    { toFun := fun x => x.elim .producer .thread
      invFun := fun e => match e with
        | .producer i => .inl i
        | .thread i => .inr i
      left_inv := by rintro (i | i) <;> rfl
      right_inv := by rintro (i | i) <;> rfl }

/-- Which thread receives from which endpoint. A socket that pushes or requests has one peer, and
the thread that a request goes to replies; no frame comes back to a thread. -/
structure Wiring (ι : Type) where
  role : ι → Role
  config : ι → Config
  feeds : Endpoint ι → ι → Bool
  rank : ι → ℕ
  dbOk : ∀ i, (config i).dbOk = true
  produces : ∀ i j, feeds (.producer i) j = true → (role i).produces = true
  sends : ∀ i j, feeds (.thread i) j = true → (role i).sends = true
  receives : ∀ e j, feeds e j = true → (role j).receives = true
  one_peer : ∀ e j j', feeds e j = true → feeds e j' = true →
    j = j' ∨ ∃ i, e = .thread i ∧ (role i).publishes = true
  answered : ∀ e j, feeds e j = true →
    ((role j).replies = true ↔ ∃ i, e = .thread i ∧ (role i).requests = true)
  connected : ∀ i, (role i).requests = true → ∃ j, feeds (.thread i) j = true
  rank_lt : ∀ i j, feeds (.thread i) j = true → rank i < rank j

/-- The nodes, and the frames between them. -/
structure Cluster (ι : Type) where
  node : ι → World
  pipe : Endpoint ι → ι → List Bytes
  /-- what a node is replied -/
  replies : ι → List Bytes
  /-- The thread waits for a reply. -/
  awaiting : ι → Bool

/-- The changes that messages stand for. -/
def messageChanges (messages : List (Option Change)) : List Change := messages.filterMap id

theorem messageChanges_nil : messageChanges [] = [] := rfl

theorem messageChanges_append (messages messages' : List (Option Change)) :
    messageChanges (messages ++ messages') = messageChanges messages ++ messageChanges messages' :=
  List.filterMap_append

theorem messageChanges_some (changes : List Change) :
    messageChanges (changes.map some) = changes := by
  simp [messageChanges]

section

variable [HashOrder] {ι : Type} [DecidableEq ι] (w : Wiring ι)

/-- A node that clients may change: it publishes what it changes, and saves nothing that it
receives. -/
def Wiring.IsOrigin (i : ι) : Prop :=
  (w.config i).writer = true ∧ (w.role i).saves = false ∧ ∃ j, w.feeds (.producer i) j = true

/-- What is sent from an endpoint before the threads start: the presence of a writer. -/
def Wiring.reports : Endpoint ι → List Bytes
  | .producer _ => []
  | .thread i => if (w.role i).requests then [presence] else []

/-- A cluster that has just been started. -/
def Cluster.start (node : ι → World) : Cluster ι where
  node := node
  pipe e j := if w.feeds e j then (w.reports e).map encodedMsg else []
  replies _ := []
  awaiting i := (w.role i).requests

/-- Frames are sent from an endpoint. -/
def Cluster.send (s : Cluster ι) (e : Endpoint ι) (frames : List Bytes) : Cluster ι :=
  { s with pipe := fun k l =>
      if k = e ∧ w.feeds k l = true then s.pipe k l ++ frames else s.pipe k l }

/-- Texts of records are saved. -/
def saveAll (c : Config) (world : World) (texts : List Bytes) : World :=
  texts.foldl (fun world text => step c noFaults world (.qcSave text)) world

/-- A node serves a request. -/
def Cluster.served (s : Cluster ι) (i : ι) (r : Request) : Cluster ι :=
  let changed : Cluster ι :=
    { s with node := fun l => if l = i then step (w.config i) noFaults (s.node i) r else s.node l }
  changed.send w (.producer i) ((newMsgs (w.config i) (s.node i) r).map encodedMsg)

/-- The thread of a node has taken a frame, and this is what comes of it. -/
def Cluster.handled (s : Cluster ι) (e : Endpoint ι) (j : ι) (rest : List Bytes)
    (out : Received) : Cluster ι :=
  let taken : Cluster ι :=
    { node := fun l => if l = j then saveAll (w.config j) (s.node j) out.saved else s.node l
      pipe := fun k l => if k = e ∧ l = j then rest else s.pipe k l
      replies := fun i =>
        if e = .thread i then s.replies i ++ (w.role j).replied out else s.replies i
      awaiting := fun l => if l = j then (w.role j).requests else s.awaiting l }
  taken.send w (.thread j) ((w.role j).forwarded out)

/-- A writer has taken the reply that it waited for. -/
def Cluster.replied (s : Cluster ι) (i : ι) (rest : List Bytes) : Cluster ι :=
  { s with
    replies := fun l => if l = i then rest else s.replies l
    awaiting := fun l => if l = i then false else s.awaiting l }

/-- One step of a thread. -/
inductive ClusterHop : Cluster ι → Cluster ι → Prop
  | handle (s : Cluster ι) {e : Endpoint ι} {j : ι} {frame : Bytes} {rest : List Bytes}
      {out : Received} (hfree : s.awaiting j = false) (hframe : s.pipe e j = frame :: rest)
      (hout : (w.role j).handle frame = some out) : ClusterHop s (s.handled w e j rest out)
  | reply (s : Cluster ι) {i : ι} {frame : Bytes} {rest : List Bytes} {out : Received}
      (hwaits : s.awaiting i = true) (hframe : s.replies i = frame :: rest)
      (hout : (receive (fun _ => true) .writerReply frame).result = some out) :
      ClusterHop s (s.replied i rest)

/-- One step of the cluster: a hop, or an origin serves a request of its clients. A text in memory
has a size. -/
inductive ClusterStep (clients : ι → World → Request → Prop) : Cluster ι → Cluster ι → Prop
  | hop {s s' : Cluster ι} (h : ClusterHop w s s') : ClusterStep clients s s'
  | serve (s : Cluster ι) {i : ι} {r : Request} (horigin : w.IsOrigin i)
      (hclient : clients i (s.node i) r) (hr : r.isLocal = true)
      (hsize : ∀ msg ∈ newMsgs (w.config i) (s.node i) r, msg.length < 2 ^ 64) :
      ClusterStep clients s (s.served w i r)

/-! ## The cluster as a relay -/

/-- The endpoints as nodes of a relay: the threads take, the producer sockets are its sources. -/
def Wiring.relayFeeds (e : Endpoint ι) : Endpoint ι → Bool
  | .thread j => w.feeds e j
  | .producer _ => false

/-- The messages that requests of the clients bring in. -/
def Wiring.Publishes (clients : ι → World → Request → Prop) : Endpoint ι → Option Change → Prop
  | .producer i, message => ∃ world r, clients i world r ∧ r.isLocal = true ∧
      messageOf message ∈ newMsgs (w.config i) world r
  | .thread _, _ => False

/-- What an endpoint begins with, as messages. -/
def Wiring.first : Endpoint ι → List (Option Change)
  | .producer _ => []
  | .thread i => if (w.role i).requests then [none] else []

/-- The threads are ranked as in the wiring, above the clients. -/
def Wiring.endpointRank : Endpoint ι → ℕ
  | .producer _ => 0
  | .thread i => w.rank i + 1

/-- The state of a relay that a cluster is in: the frames are those of the messages on their way,
a node that saves has made the changes that it has received, and an origin those that it has
passed on. -/
structure RelayState (node : ι → World) (s : Cluster ι)
    (a : Relay (Endpoint ι) (Option Change)) : Prop where
  pipe_eq : ∀ e j, s.pipe e j = (a.pipe e (.thread j)).map (encodedMsg ∘ messageOf)
  sized : ∀ e j, ∀ message ∈ a.pipe e (.thread j), (messageOf message).length < 2 ^ 64
  saved_eq : ∀ j, (w.role j).saves = true → (s.node j).node.db =
    Change.applyAll (node j).node.db (messageChanges ((a.received (.thread j)).map Prod.snd))
  origin_eq : ∀ i, w.IsOrigin i → (s.node i).node.db =
    Change.applyAll (node i).node.db (messageChanges (a.passed (.producer i)))

variable {w} {node : ι → World} {clients : ι → World → Request → Prop} {s s' : Cluster ι}
  {a : Relay (Endpoint ι) (Option Change)}

theorem zero_mem_messageOf (message : Option Change) : (0 : UInt8) ∈ messageOf message := by
  cases message with
  | none =>
    change (0 : UInt8) ∈ presence
    decide
  | some change => simp [messageOf]

/-- What a thread does with the frame of a message. -/
theorem handle_messageOf (role : Role) {message : Option Change}
    (hsize : (messageOf message).length < 2 ^ 64) :
    role.handle (encodedMsg (messageOf message)) = some (role.response (messageOf message)) :=
  role.handle_encodedMsg hsize (zero_mem_messageOf message)

omit [HashOrder] [DecidableEq ι] in
/-- A frame goes on as it is to those that the thread feeds. -/
theorem forwarded_response {j l : ι} (hfeeds : w.feeds (.thread j) l = true) (msg : Bytes) :
    (w.role j).forwarded ((w.role j).response msg) = [encodedMsg msg] := by
  have hsends := w.sends j l hfeeds
  unfold Role.forwarded Role.response
  rw [hsends]
  cases (w.role j).replies <;> rfl

omit [DecidableEq ι] in
/-- The changes of the saved texts are made. -/
theorem saveAll_response (w : Wiring ι) (j : ι) (message : Option Change) (world : World) :
    (saveAll (w.config j) world ((w.role j).response (messageOf message)).saved).node.db =
      if (w.role j).saves then Change.applyAll world.node.db (messageChanges [message])
      else world.node.db := by
  unfold Role.response
  cases hsaves : (w.role j).saves with
  | false => rfl
  | true =>
    have hread := onRead_messageOf (w.dbOk j) message world
    rw [onRead] at hread
    simp only [if_true, saveAll, List.foldl_cons, List.foldl_nil, hread]
    cases message <;> rfl

omit [DecidableEq ι] in
theorem RelayState.start :
    RelayState w node (Cluster.start w node) (Relay.start w.relayFeeds w.first) := by
  refine ⟨fun e j => ?_, fun e j message hmessage => ?_, fun j _ => rfl, fun i _ => rfl⟩
  · by_cases hfeeds : w.feeds e j = true
    · have hrelay : w.relayFeeds e (.thread j) = true := hfeeds
      simp only [Cluster.start, Relay.start, if_pos hrelay, if_pos hfeeds]
      cases e with
      | producer i => rfl
      | thread i =>
        simp only [Wiring.reports, Wiring.first]
        split <;> rfl
    · have hrelay : ¬w.relayFeeds e (.thread j) = true := hfeeds
      simp only [Cluster.start, Relay.start, if_neg hrelay, if_neg hfeeds, List.map_nil]
  · have hnone : message = none := by
      simp only [Relay.start, Wiring.first] at hmessage
      cases e <;> simp_all
    rw [hnone]
    change presence.length < 2 ^ 64
    decide

/-- What is sent as frames is passed on as messages. -/
theorem RelayState.pipe_send (h : RelayState w node s a) (e : Endpoint ι) {frames : List Bytes}
    {messages : List (Option Change)} (k : Endpoint ι) (l : ι)
    (hframes : w.feeds e l = true → frames = messages.map (encodedMsg ∘ messageOf)) :
    (s.send w e frames).pipe k l =
      ((a.pass w.relayFeeds e messages).pipe k (.thread l)).map (encodedMsg ∘ messageOf) := by
  have hsame := h.pipe_eq k l
  by_cases hk : k = e ∧ w.feeds k l = true
  · have hfeeds : k = e ∧ w.relayFeeds k (.thread l) = true := hk
    simp only [Cluster.send, Relay.pass, if_pos hfeeds, if_pos hk, hsame, List.map_append,
      hframes (hk.1 ▸ hk.2)]
  · have hfeeds : ¬(k = e ∧ w.relayFeeds k (.thread l) = true) := hk
    simp only [Cluster.send, Relay.pass, if_neg hfeeds, if_neg hk, hsame]

/-- A request of an origin emits the changes that it makes. -/
theorem RelayState.served (h : RelayState w node s a) {i : ι} {r : Request}
    (horigin : w.IsOrigin i) (hr : r.isLocal = true)
    (hsize : ∀ msg ∈ newMsgs (w.config i) (s.node i) r, msg.length < 2 ^ 64) :
    ∃ changes : List Change,
      newMsgs (w.config i) (s.node i) r = (changes.map some).map messageOf ∧
      RelayState w node (s.served w i r)
        (a.pass w.relayFeeds (.producer i) (changes.map some)) := by
  obtain ⟨changes, hchanged, hpublished⟩ := step_publishes horigin.1 hr (s.node i)
  have hnew : newMsgs (w.config i) (s.node i) r = (changes.map some).map messageOf := by
    rw [newMsgs, hpublished, List.drop_left, List.map_map, List.map_map]
    rfl
  refine ⟨changes, hnew, fun k l => ?_, fun k l message hmessage => ?_, fun j hj => ?_,
    fun l hl => ?_⟩
  · exact RelayState.pipe_send ⟨h.pipe_eq, h.sized, h.saved_eq, h.origin_eq⟩ _ _ _ fun _ => by
      rw [hnew, List.map_map]
  · simp only [Relay.pass] at hmessage
    split at hmessage
    · rcases List.mem_append.mp hmessage with hold | hnow
      · exact h.sized k l message hold
      · exact hsize _ (hnew ▸ List.mem_map_of_mem hnow)
    · exact h.sized k l message hmessage
  · have hne : j ≠ i := by
      rintro rfl
      rw [horigin.2.1] at hj
      cases hj
    have hsame := h.saved_eq j hj
    simp only [Cluster.served, Cluster.send, if_neg hne]
    exact hsame
  · by_cases hli : l = i
    · subst hli
      simp only [Cluster.served, Cluster.send, if_true, Relay.pass, hchanged, h.origin_eq l hl,
        messageChanges_append, messageChanges_some, Change.applyAll_append]
    · have hne : Endpoint.producer l ≠ Endpoint.producer i := fun heq => by
        cases heq
        exact hli rfl
      have hsame := h.origin_eq l hl
      simp only [Cluster.served, Cluster.send, if_neg hli, Relay.pass, if_neg hne]
      exact hsame

omit [DecidableEq ι] in
/-- What a thread takes as a frame is a message, and the rest are messages too. -/
theorem RelayState.pipe_cons (h : RelayState w node s a) {e : Endpoint ι} {j : ι} {frame : Bytes}
    {rest : List Bytes} (hframe : s.pipe e j = frame :: rest) :
    ∃ message messages, a.pipe e (.thread j) = message :: messages ∧
      frame = encodedMsg (messageOf message) ∧
      rest = messages.map (encodedMsg ∘ messageOf) ∧ (messageOf message).length < 2 ^ 64 := by
  have hmapped := (h.pipe_eq e j).symm.trans hframe
  obtain ⟨message, messages, hpipe, hfirst, hrest⟩ := List.map_eq_cons_iff.mp hmapped
  exact ⟨message, messages, hpipe, hfirst.symm, hrest.symm,
    h.sized e j message (hpipe ▸ List.mem_cons_self)⟩

/-- A thread that handles a frame makes a hop of the relay. -/
theorem RelayState.handled (h : RelayState w node s a) {e : Endpoint ι} {j : ι}
    {message : Option Change} {messages : List (Option Change)}
    (hpipe : a.pipe e (.thread j) = message :: messages) :
    RelayState w node (s.handled w e j (messages.map (encodedMsg ∘ messageOf))
        ((w.role j).response (messageOf message)))
      (a.hop w.relayFeeds e (.thread j) message messages) := by
  have hsized : ∀ m ∈ message :: messages, (messageOf m).length < 2 ^ 64 :=
    fun m hm => h.sized e j m (hpipe ▸ hm)
  have htaken : ∀ k l, (if k = e ∧ l = j then messages.map (encodedMsg ∘ messageOf)
      else s.pipe k l) = ((a.take e (.thread j) message messages).pipe k (.thread l)).map
        (encodedMsg ∘ messageOf) := by
    intro k l
    simp only [Relay.take, Endpoint.thread.injEq]
    split
    · rfl
    · exact h.pipe_eq k l
  refine ⟨fun k l => ?_, fun k l m hm => ?_, fun l hl => ?_, fun l hl => ?_⟩
  · simp only [Cluster.handled, Cluster.send, Relay.hop, Relay.pass, htaken]
    by_cases hk : k = .thread j ∧ w.feeds k l = true
    · have hrelay : k = .thread j ∧ w.relayFeeds k (.thread l) = true := hk
      rw [if_pos hk, if_pos hrelay, forwarded_response (hk.1 ▸ hk.2), List.map_append]
      rfl
    · have hrelay : ¬(k = .thread j ∧ w.relayFeeds k (.thread l) = true) := hk
      rw [if_neg hk, if_neg hrelay]
  · have hold : ∀ m ∈ (a.take e (.thread j) message messages).pipe k (.thread l),
        (messageOf m).length < 2 ^ 64 := by
      intro m hm
      simp only [Relay.take] at hm
      split at hm
      · exact hsized m (List.mem_cons_of_mem _ hm)
      · exact h.sized k l m hm
    simp only [Relay.hop, Relay.pass] at hm
    split at hm
    · rcases List.mem_append.mp hm with hm | hm
      · exact hold m hm
      · exact hsized m (List.mem_singleton.mp hm ▸ List.mem_cons_self)
    · exact hold m hm
  · have hsame := h.saved_eq l hl
    by_cases hlj : l = j
    · subst hlj
      have hmade := saveAll_response w l message (s.node l)
      rw [if_pos hl, hsame, ← Change.applyAll_append, ← messageChanges_append] at hmade
      simpa [Cluster.handled, Cluster.send, Relay.hop, Relay.pass, Relay.take] using hmade
    · have hne : Endpoint.thread l ≠ Endpoint.thread j := fun heq => hlj (Endpoint.thread.inj heq)
      simp only [Cluster.handled, Cluster.send, Relay.hop, Relay.pass, Relay.take, if_neg hlj,
        if_neg hne]
      exact hsame
  · have hsame := h.origin_eq l hl
    have hpassed : (a.hop w.relayFeeds e (.thread j) message messages).passed (.producer l) =
        a.passed (.producer l) := by
      simp [Relay.hop, Relay.pass, Relay.take]
    rw [hpassed, ← hsame]
    by_cases hlj : l = j
    · subst hlj
      have hmade := saveAll_response w l message (s.node l)
      rw [hl.2.1, if_neg Bool.false_ne_true] at hmade
      simpa [Cluster.handled, Cluster.send] using hmade
    · simp only [Cluster.handled, Cluster.send, if_neg hlj]

/-- A hop of the cluster is a hop of the relay, or it takes a reply. -/
theorem RelayState.hop (h : RelayState w node s a) (hstep : ClusterHop w s s') :
    (∃ e j message messages, a.pipe e (.thread j) = message :: messages ∧
        RelayState w node s' (a.hop w.relayFeeds e (.thread j) message messages)) ∨
      RelayState w node s' a := by
  cases hstep with
  | @handle e j frame rest out hfree hframe hout =>
    obtain ⟨message, messages, hpipe, rfl, rfl, hsize⟩ := h.pipe_cons hframe
    rw [handle_messageOf _ hsize] at hout
    obtain rfl := Option.some.inj hout
    exact Or.inl ⟨e, j, message, messages, hpipe, h.handled hpipe⟩
  | reply hwaits hframe hout =>
    exact Or.inr ⟨h.pipe_eq, h.sized, h.saved_eq, h.origin_eq⟩

/-- Every cluster that is reached is in the state of a relay that is reached. -/
theorem relayState_of_reached
    (hs : Relation.ReflTransGen (ClusterStep w clients) (Cluster.start w node) s) :
    ∃ a, Relation.ReflTransGen (Relay.Step w.relayFeeds (w.Publishes clients))
        (Relay.start w.relayFeeds w.first) a ∧ RelayState w node s a := by
  induction hs with
  | refl => exact ⟨_, .refl, .start⟩
  | tail _ hstep ih =>
    obtain ⟨a, ha, hview⟩ := ih
    cases hstep with
    | hop hhop =>
      rcases hview.hop hhop with ⟨e, j, message, messages, hpipe, hnext⟩ | hnext
      · exact ⟨_, ha.tail (.hop a hpipe), hnext⟩
      · exact ⟨a, ha, hnext⟩
    | serve horigin hclient hr hsize =>
      obtain ⟨changes, hnew, hnext⟩ := hview.served horigin hr hsize
      refine ⟨_, ha.tail (.emit a fun message hmessage => ?_), hnext⟩
      exact ⟨_, _, hclient, hr, hnew ▸ List.mem_map_of_mem hmessage⟩

end

/-! ## Two clusters -/

/-- Three writers in a chain, the first of which clients change. -/
def chainRole : Fin 3 → Role
  | 0 => .writer (runWriter (ascii "-") (ascii "tcp://*:5557") (ascii "tcp://localhost:5557")
      (ascii "tcp://*:6001"))
  | 1 => .writer (runWriter (ascii "+") (ascii "!") (ascii "tcp://localhost:6001")
      (ascii "tcp://*:6002"))
  | 2 => .writer (runWriter (ascii ".") (ascii "!") (ascii "tcp://localhost:6002") [])

def chainLinks : List (Endpoint (Fin 3) × Fin 3) :=
  [(.producer 0, 0), (.thread 0, 1), (.thread 1, 2)]

def chainWiring : Wiring (Fin 3) where
  role := chainRole
  config _ := writerOnly
  feeds e j := decide ((e, j) ∈ chainLinks)
  rank i := i.val
  dbOk _ := rfl
  produces := by decide
  sends := by decide
  receives := by decide
  one_peer := by decide
  answered := by decide
  connected := by decide
  rank_lt := by decide

/-- Two writers that request, the broker that replies to them, and two readers. -/
def starRole : Fin 5 → Role
  | 0 | 1 => .writer (runWriter (ascii "tcp://localhost:5556") (ascii "tcp://*:5557")
      (ascii "tcp://localhost:5557") [])
  | 2 => .broker false
  | _ => .reader

def starLinks : List (Endpoint (Fin 5) × Fin 5) :=
  [(.producer 0, 0), (.producer 1, 1), (.thread 0, 2), (.thread 1, 2), (.thread 2, 3),
    (.thread 2, 4)]

def starWiring : Wiring (Fin 5) where
  role := starRole
  config i := if i.val < 2 then writerOnly else uncachedOnly
  feeds e j := decide ((e, j) ∈ starLinks)
  rank i := i.val
  dbOk i := by split <;> rfl
  produces := by decide
  sends := by decide
  receives := by decide
  one_peer := by decide
  answered := by decide
  connected := by decide
  rank_lt := by decide

/-- Clients that put a value into the first node. -/
def putFirst {n : ℕ} (i : Fin n) (_ : World) (r : Request) : Prop :=
  i.val = 0 ∧ r = .dump (ascii "k") (ascii "1")

/-- Empty databases, before the value is put. -/
def emptyNodes {ι : Type} (_ : ι) : World := openDB writerOnly .empty

/-- A cluster in which the value has been put, and nothing has been sent on yet. -/
def afterPut {n : ℕ} (w : Wiring (Fin (n + 1))) : Cluster (Fin (n + 1)) :=
  @Cluster.served .insertion _ _ w (.start w emptyNodes) 0 (.dump (ascii "k") (ascii "1"))

theorem afterPut_reached {n : ℕ} {w : Wiring (Fin (n + 1))} (horigin : w.IsOrigin 0)
    (hsize : ∀ msg ∈ @newMsgs .insertion (w.config 0) (openDB writerOnly .empty)
      (.dump (ascii "k") (ascii "1")), msg.length < 2 ^ 64) :
    Relation.ReflTransGen (@ClusterStep .insertion _ _ w putFirst)
      (Cluster.start w emptyNodes) (afterPut w) :=
  .single (@ClusterStep.serve .insertion _ _ w putFirst (.start w emptyNodes) 0 _ horigin
    ⟨rfl, rfl⟩ rfl hsize)

end Quarks
