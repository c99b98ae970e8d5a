import Quarks.Basis.Pool
import Quarks.Sockets.Rooms

/-!
# Memberships

A connection that joins a room is entered in both maps: `_connMap` leads from the room to the
connection, and `_userRoomsMap` from the user to the room. When it is closed, its rooms are found
by the name of its user, without regard to which connection or to whose entry it is. The other
connections keep their entries as long as no join replaces an entry of another connection, and as
long as `onClose` finds the rooms of its connection, and no others.
-/

namespace Quarks

open Basis

/-- The operations that take nothing from the maps. -/
def SocketOp.Keeps : SocketOp → Prop
  | .leave _ => False
  | .forget _ => False
  | _ => True

namespace SocketInterceptor

theorem ofExcept_ends {α : Type} (r : Except Failure α) :
    (ofExcept r).Ends SocketOp.Keeps fun _ => True := by
  cases r <;> trivial

/-- What follows a value that is read from a message. -/
theorem ofExcept_bind_ends {α β : Type} (r : Except Failure α) {f : α → SocketM β}
    (hf : ∀ a, (f a).Ends SocketOp.Keeps fun _ => True) :
    (ofExcept r >>= f).Ends SocketOp.Keeps fun _ => True :=
  (ofExcept_ends r).bind (fun a _ => hf a) fun _ _ => trivial

/-- What follows an operation that takes nothing away. -/
theorem lift_bind_ends {β : Type} {op : SocketOp} {f : SocketRes op → SocketM β}
    (hop : op.Keeps) (hf : ∀ a, (f a).Ends SocketOp.Keeps fun _ => True) :
    ((Prog.lift op : SocketM (SocketRes op)) >>= f).Ends SocketOp.Keeps fun _ => True :=
  (Prog.Ends.lift (P := fun _ => True) hop fun _ => trivial).bind (fun a _ => hf a)
    fun _ _ => trivial

theorem catchRuntime_ends {α : Type} {p q : SocketM α}
    (hp : p.Ends SocketOp.Keeps fun _ => True) (hq : q.Ends SocketOp.Keeps fun _ => True) :
    (catchRuntime p q).Ends SocketOp.Keeps fun _ => True := by
  refine hp.tryCatch (fun _ _ => trivial) fun e _ => ?_
  split
  · exact hq
  · trivial

variable [HashOrder] {x : RValue} {id timestamp : Bytes}

theorem onJoin_ends : (onJoin x id timestamp).Ends SocketOp.Keeps fun _ => True := by
  have hrest : ∀ room, (do
      if ← ofExcept (x.has (ascii "notifyleave")) then
        let notify ← ofExcept ((x.field (ascii "notifyleave")).bind RValue.b)
        setNotifies notify
      join room : SocketM Unit).Ends SocketOp.Keeps fun _ => True := by
    intro room
    refine ofExcept_bind_ends _ fun b => ?_
    split
    · refine (ofExcept_bind_ends _ fun notify => ?_)
      exact lift_bind_ends trivial fun _ => ⟨trivial, fun _ => trivial⟩
    · exact ⟨trivial, fun _ => trivial⟩
  refine ofExcept_bind_ends _ fun room => ofExcept_bind_ends _ fun b => ?_
  split
  · refine ofExcept_bind_ends _ fun notify => ?_
    split
    · refine ofExcept_bind_ends _ fun send => ofExcept_bind_ends _ fun b => ?_
      split
      · refine ofExcept_bind_ends _ fun key => lift_bind_ends trivial fun saved => ?_
        split
        · refine ofExcept_bind_ends _ fun err => lift_bind_ends trivial fun _ => ?_
          exact lift_bind_ends trivial fun _ => hrest room
        · exact lift_bind_ends trivial fun _ => hrest room
      · exact lift_bind_ends trivial fun _ => hrest room
    · exact hrest room
  · exact hrest room

theorem onUserList_ends : (onUserList x timestamp).Ends SocketOp.Keeps fun _ => True :=
  ofExcept_bind_ends _ fun _ => lift_bind_ends trivial fun _ => ofExcept_bind_ends _ fun _ =>
    ofExcept_bind_ends _ fun _ => ⟨trivial, fun _ => trivial⟩

theorem storeSent_ends (room send : Bytes) :
    (storeSent x room send).Ends SocketOp.Keeps fun _ => True := by
  refine ofExcept_bind_ends _ fun b => ?_
  split
  · refine ofExcept_bind_ends _ fun key => lift_bind_ends trivial fun saved => ?_
    split
    · exact ofExcept_bind_ends _ fun err => ⟨trivial, fun _ => trivial⟩
    · exact ⟨trivial, fun _ => trivial⟩
  · trivial

theorem onSend_ends (data : Bytes) (binary : Bool) :
    (onSend x id data binary timestamp).Ends SocketOp.Keeps fun _ => True := by
  refine ofExcept_bind_ends _ fun room => ofExcept_bind_ends _ fun send => ?_
  refine (storeSent_ends room send).bind (fun go _ => ?_) fun _ _ => trivial
  split
  · refine ofExcept_bind_ends _ fun b => ?_
    split
    · exact ofExcept_bind_ends _ fun user => ⟨trivial, fun _ => trivial⟩
    · exact ⟨trivial, fun _ => trivial⟩
  · trivial

theorem onQueryMessage_ends : (onQueryMessage x).Ends SocketOp.Keeps fun _ => True := by
  refine catchRuntime_ends (ofExcept_bind_ends _ fun b => ?_) trivial
  split
  · refine ofExcept_bind_ends _ fun skip => ofExcept_bind_ends _ fun limit =>
      ofExcept_bind_ends _ fun wild => lift_bind_ends trivial fun found => ?_
    cases found with
    | none => trivial
    | some out => exact ⟨trivial, fun _ => trivial⟩
  · trivial

/-- A message takes nothing from the maps. -/
theorem onMessage_ends (data : Bytes) (binary : Bool) :
    (onMessage id data binary timestamp).Ends SocketOp.Keeps fun _ => True := by
  unfold onMessage
  cases load data with
  | none => trivial
  | some x =>
    have hrest : (do
        if ← ofExcept (x.has (ascii "join")) then onJoin x id timestamp
        else if ← ofExcept (x.has (ascii "userlist")) then onUserList x timestamp
        else if ← ofExcept (x.has (ascii "send")) then onSend x id data binary timestamp
        else onQueryMessage x : SocketM Unit).Ends SocketOp.Keeps fun _ => True := by
      refine ofExcept_bind_ends _ fun b => ?_
      split
      · exact onJoin_ends
      · refine ofExcept_bind_ends _ fun b => ?_
        split
        · exact onUserList_ends
        · refine ofExcept_bind_ends _ fun b => ?_
          split
          · exact onSend_ends data binary
          · exact onQueryMessage_ends
    refine catchRuntime_ends (ofExcept_bind_ends _ fun b => ?_) trivial
    split
    · exact ofExcept_bind_ends _ fun _ => hrest
    · exact hrest

end SocketInterceptor

namespace Hub

open SocketInterceptor

/-! ## Who is registered -/

/-- The connection is in the registry with exactly the rooms, and its user with each of them. -/
structure IsRegistered (s : Hub) (conn : ℕ) (id : Bytes) (joined : Bytes → Prop) : Prop where
  led : ∀ key, s.connMap.find? key = some (some conn) ↔ ∃ room, joined room ∧ key = roomKey room id
  listed : ∀ room, joined room → s.userRooms.find? (userKey id room) = some room

variable [HashOrder]

/-- When a connection is closed, no room leads to it any more, and every other connection is
registered with the rooms that it has joined. -/
def ClosesOwn (w : Hub × Members) : SocketEvent → Prop
  | .closed conn timestamp => conn ∈ w.1.conns →
    (∀ key, (w.1.step (.closed conn timestamp)).connMap.find? key ≠ some (some conn)) ∧
      ∀ c id, c ≠ conn → w.1.conns.find? c = some id →
        IsRegistered (w.1.step (.closed conn timestamp)) c id fun room => (c, room) ∈ w.2
  | _ => True

/-! ## When they stay so -/

omit [HashOrder] in
/-- A join replaces neither the pointer of another connection nor the entry of another room. -/
def JoinsApart (conn : ℕ) (id : Bytes) (s : Hub) : SocketOp → Prop
  | .join room => (∀ u ∈ s.connMap.find? (roomKey room id), u = none ∨ u = some conn) ∧
      ∀ r ∈ s.userRooms.find? (userKey id room), r = room
  | _ => True

omit [HashOrder] in
instance (conn : ℕ) (id : Bytes) (s : Hub) : (op : SocketOp) → Decidable (JoinsApart conn id s op)
  | .join room => inferInstanceAs (Decidable ((∀ u ∈ s.connMap.find? (roomKey room id), _) ∧
      ∀ r ∈ s.userRooms.find? (userKey id room), r = room))
  | .users _ | .rooms _ | .broadcast _ _ _ | .notifies | .setNotifies _ | .leave _ | .forget _
  | .direct _ _ | .reply _ | .dump _ _ | .getKeys _ _ => isTrue trivial

omit [HashOrder] in
/-- `onClose` finds only entries of the connection itself. -/
def FindsOwn (s : Hub) (conn : ℕ) (id : Bytes) : Prop :=
  ∀ e ∈ lookup s.userRooms (id ++ [95]), e.1 = userKey id e.2 ∧
    s.connMap.find? (roomKey e.2 id) = some (some conn)

omit [HashOrder] in
instance (s : Hub) (conn : ℕ) (id : Bytes) : Decidable (FindsOwn s conn id) :=
  inferInstanceAs (Decidable (∀ e ∈ lookup s.userRooms (id ++ [95]), _))

/-- The condition on an event. -/
def KeepsMemberships (w : Hub × Members) : SocketEvent → Prop
  | .opened _ => True
  | .message conn data binary answers timestamp => ∀ id ∈ w.1.conns.find? conn,
      (SocketInterceptor.onMessage id data binary timestamp).EachOp (watched conn id answers)
        (fun w => JoinsApart conn id w.1) w
  | .closed conn _ => ∀ id ∈ w.1.conns.find? conn,
      FindsRooms w.1 conn id ∧ FindsOwn w.1 conn id

instance (w : Hub × Members) : (e : SocketEvent) → Decidable (KeepsMemberships w e)
  | .opened _ => isTrue trivial
  | .message conn data binary answers timestamp =>
    inferInstanceAs (Decidable (∀ id ∈ w.1.conns.find? conn,
      (SocketInterceptor.onMessage id data binary timestamp).EachOp (watched conn id answers)
        (fun w => JoinsApart conn id w.1) w))
  | .closed conn _ => inferInstanceAs (Decidable (∀ id ∈ w.1.conns.find? conn,
      FindsRooms w.1 conn id ∧ FindsOwn w.1 conn id))

/-! ## They stay registered -/

omit [HashOrder] in
/-- The pointers and the entries of the maps are those of the members. -/
structure Registered (w : Hub × Members) : Prop where
  member : ∀ c room, (c, room) ∈ w.2 → ∃ id, w.1.conns.find? c = some id ∧
    w.1.connMap.find? (roomKey room id) = some (some c) ∧
    w.1.userRooms.find? (userKey id room) = some room
  holder : ∀ key c, w.1.connMap.find? key = some (some c) → ∃ room id,
    w.1.conns.find? c = some id ∧ (c, room) ∈ w.2 ∧ key = roomKey room id
  entry : ∀ key room, w.1.userRooms.find? key = some room → ∃ c id,
    w.1.conns.find? c = some id ∧ (c, room) ∈ w.2 ∧ key = userKey id room
  numbered : ∀ c ∈ w.1.conns, c < w.1.next

omit [HashOrder]

variable {w : Hub × Members} {conn : ℕ} {id : Bytes} {answers : Answers}

theorem userKey_inj_left {id id' room : Bytes} : userKey id room = userKey id' room ↔ id = id' :=
  List.append_left_inj _

/-- Each open connection is registered with the rooms that it has joined. -/
theorem Registered.isRegistered (hw : Registered w) (hid : w.1.conns.find? conn = some id) :
    IsRegistered w.1 conn id fun room => (conn, room) ∈ w.2 := by
  have hsame : ∀ {id' : Bytes}, w.1.conns.find? conn = some id' → id' = id := fun h =>
    Option.some.inj (h.symm.trans hid)
  refine ⟨fun key => ⟨fun hkey => ?_, ?_⟩, fun room hroom => ?_⟩
  · obtain ⟨room, id', hid', hroom, rfl⟩ := hw.holder key conn hkey
    obtain rfl := hsame hid'
    exact ⟨room, hroom, rfl⟩
  · rintro ⟨room, hroom, rfl⟩
    obtain ⟨id', hid', hkey, -⟩ := hw.member conn room hroom
    obtain rfl := hsame hid'
    exact hkey
  · obtain ⟨id', hid', -, hentry⟩ := hw.member conn room hroom
    obtain rfl := hsame hid'
    exact hentry

/-- A join that replaces no entry of others keeps the maps and the members together. -/
theorem Registered.join (hw : Registered w) (hid : w.1.conns.find? conn = some id) {room : Bytes}
    (hjoin : JoinsApart conn id w.1 (.join room)) :
    Registered (watched conn id answers (.join room) w).2 := by
  refine ⟨?_, ?_, ?_, hw.numbered⟩
  · intro c r hc
    change ∃ id', _ ∧ (w.1.connMap.insert (roomKey room id) (some conn)).find? _ = _ ∧
      (w.1.userRooms.insert (userKey id room) room).find? _ = _
    rcases List.mem_cons.mp hc with heq | hc
    · cases heq
      exact ⟨id, hid, OrderedMap.find?_insert_self _ _ _, OrderedMap.find?_insert_self _ _ _⟩
    · obtain ⟨id', hid', hkey, hentry⟩ := hw.member c r hc
      refine ⟨id', hid', ?_, ?_⟩
      · rw [OrderedMap.find?_insert]
        split
        · next heq =>
          rw [heq] at hkey
          rcases hjoin.1 _ hkey with hnull | hown
          · cases hnull
          · exact congrArg some hown.symm
        · exact hkey
      · rw [OrderedMap.find?_insert]
        split
        · next heq =>
          rw [heq] at hentry
          exact congrArg some (hjoin.2 _ hentry).symm
        · exact hentry
  · intro key c hkey
    change (w.1.connMap.insert (roomKey room id) (some conn)).find? key = some (some c) at hkey
    rw [OrderedMap.find?_insert] at hkey
    split at hkey
    · next heq =>
      cases hkey
      exact ⟨room, id, hid, List.mem_cons_self, heq⟩
    · obtain ⟨r, id', hid', hc, heq⟩ := hw.holder key c hkey
      exact ⟨r, id', hid', List.mem_cons_of_mem _ hc, heq⟩
  · intro key r hentry
    change (w.1.userRooms.insert (userKey id room) room).find? key = some r at hentry
    rw [OrderedMap.find?_insert] at hentry
    split at hentry
    · next heq =>
      cases hentry
      exact ⟨conn, id, hid, List.mem_cons_self, heq⟩
    · obtain ⟨c, id', hid', hc, heq⟩ := hw.entry key r hentry
      exact ⟨c, id', hid', List.mem_cons_of_mem _ hc, heq⟩

/-- What is registered depends on the pointers that lead to connections, but not on null ones. -/
theorem Registered.congr (hw : Registered w) {w' : Hub × Members}
    (hconns : w'.1.conns = w.1.conns) (hnext : w'.1.next = w.1.next) (hmembers : w'.2 = w.2)
    (hrooms : w'.1.userRooms = w.1.userRooms)
    (hled : ∀ key c, w'.1.connMap.find? key = some (some c) ↔
      w.1.connMap.find? key = some (some c)) : Registered w' := by
  refine ⟨?_, ?_, ?_, ?_⟩
  · simpa only [hconns, hmembers, hrooms, hled] using hw.member
  · simpa only [hconns, hmembers, hled] using hw.holder
  · simpa only [hconns, hmembers, hrooms] using hw.entry
  · simpa only [hconns, hnext] using hw.numbered

/-- A direct message that misses its user leaves a null pointer. -/
theorem find?_direct (key data key' : Bytes) (c : ℕ) (s : Hub) :
    (handle conn id answers (.direct key data) s).2.connMap.find? key' = some (some c) ↔
      s.connMap.find? key' = some (some c) := by
  simp only [Hub.handle]
  split
  · exact Iff.rfl
  · exact Iff.rfl
  · next hnone =>
    rw [OrderedMap.find?_insert]
    split
    · next heq => simp [heq, hnone]
    · exact Iff.rfl

/-- An operation that takes nothing from the maps keeps them and the members together. -/
theorem Registered.handle (hw : Registered w) (hid : w.1.conns.find? conn = some id)
    {op : SocketOp} (hop : JoinsApart conn id w.1 op) (hkeeps : op.Keeps) :
    Registered (watched conn id answers op w).2 := by
  cases op with
  | join room => exact hw.join hid hop
  | leave room => exact hkeeps.elim
  | forget keys => exact hkeeps.elim
  | direct key data =>
    have hrooms : (Hub.handle conn id answers (.direct key data) w.1).2.userRooms =
        w.1.userRooms := by
      simp only [Hub.handle]
      split <;> rfl
    exact hw.congr (handle_conns _ _) (handle_next _ _) rfl hrooms
      fun _ _ => find?_direct _ _ _ _ _
  | _ => exact ⟨hw.member, hw.holder, hw.entry, hw.numbered⟩

/-! ## Closing -/

/-- An operation of a connection changes the rooms of no other one. -/
theorem mem_enter {c : ℕ} (hc : c ≠ conn) (op : SocketOp) (m : Members) (room : Bytes) :
    (c, room) ∈ enter conn op m ↔ (c, room) ∈ m := by
  cases op with
  | join r => simp [enter, hc]
  | leave r => simp [enter, hc]
  | _ => exact Iff.rfl

theorem mem_run {α : Type} {c : ℕ} (hc : c ≠ conn) (p : SocketM α) (w : Hub × Members)
    (room : Bytes) :
    (c, room) ∈ (p.run (watched conn id answers) w).2.2 ↔ (c, room) ∈ w.2 :=
  (Prog.run_eq_of_forall (f := fun w => (c, room) ∈ w.2)
    (fun op w => propext (mem_enter hc op w.2 room)) p w).to_iff

variable [HashOrder]

/-- The maps after a connection is closed. -/
theorem watch_closed (hid : w.1.conns.find? conn = some id) (timestamp : Bytes) :
    (watch w (.closed conn timestamp)).1.conns = w.1.conns.erase conn ∧
      (watch w (.closed conn timestamp)).1.next = w.1.next ∧
      (watch w (.closed conn timestamp)).1.connMap =
        w.1.connMap.eraseAll ((lookup w.1.userRooms (id ++ [95])).map fun e => roomKey e.2 id) ∧
      (watch w (.closed conn timestamp)).1.userRooms =
        w.1.userRooms.eraseAll ((lookup w.1.userRooms (id ++ [95])).map Prod.fst) ∧
      ∀ c room, (c, room) ∈ (watch w (.closed conn timestamp)).2 ↔ c ≠ conn ∧ (c, room) ∈ w.2 := by
  simp only [watch, hid, watched]
  refine ⟨?_, ?_, ?_, ?_, fun c room => ?_⟩
  · rw [(Prog.run_observed _ _ _ w).2, run_conns]
  · rw [(Prog.run_observed _ _ _ w).2, run_next]
  · rw [(Prog.run_observed _ _ _ w).2, onClose_connMap]
  · rw [(Prog.run_observed _ _ _ w).2, onClose_userRooms]
  · simp only [List.mem_filter, decide_eq_true_eq]
    constructor
    · rintro ⟨hmem, hc⟩
      exact ⟨hc, (mem_run hc _ _ _).mp hmem⟩
    · rintro ⟨hc, hmem⟩
      exact ⟨(mem_run hc _ _ _).mpr hmem, hc⟩

/-- Closing a connection removes the pointers to it, and no others. -/
theorem find?_closed (hid : w.1.conns.find? conn = some id) (hfinds : FindsRooms w.1 conn id)
    (hown : FindsOwn w.1 conn id) (timestamp key : Bytes) (c : ℕ) :
    (watch w (.closed conn timestamp)).1.connMap.find? key = some (some c) ↔
      c ≠ conn ∧ w.1.connMap.find? key = some (some c) := by
  rw [(watch_closed hid timestamp).2.2.1, OrderedMap.find?_eraseAll]
  split
  · next hmem =>
    obtain ⟨e, he, rfl⟩ := List.mem_map.mp hmem
    rw [(hown e he).2]
    simp only [reduceCtorEq, Option.some.injEq, false_iff, not_and]
    exact fun hc heq => hc heq.symm
  · next hnot =>
    refine ⟨fun hkey => ⟨?_, hkey⟩, And.right⟩
    rintro rfl
    obtain ⟨e, he, heq⟩ := hfinds _ (OrderedMap.find?_eq_some.mp hkey) rfl
    exact hnot (List.mem_map.mpr ⟨e, he, heq⟩)

omit [HashOrder] in
/-- The entry of a member is found by `onClose` exactly if it is one of the closed connection. -/
theorem Registered.mem_found_iff (hw : Registered w) (hid : w.1.conns.find? conn = some id)
    (hfinds : FindsRooms w.1 conn id) (hown : FindsOwn w.1 conn id) {c : ℕ} {id' room : Bytes}
    (hid' : w.1.conns.find? c = some id') (hc : (c, room) ∈ w.2) :
    userKey id' room ∈ (lookup w.1.userRooms (id ++ [95])).map Prod.fst ↔ c = conn := by
  obtain ⟨id'', hid'', hkey, hentry⟩ := hw.member c room hc
  obtain rfl : id' = id'' := Option.some.inj (hid'.symm.trans hid'')
  constructor
  · intro hmem
    obtain ⟨e, he, heq⟩ := List.mem_map.mp hmem
    obtain ⟨hname, hled⟩ := hown e he
    have hroom : e.2 = room := by
      rw [← heq, OrderedMap.find?_eq_some.mpr (mem_lookup.mp he).1] at hentry
      exact Option.some.inj hentry
    rw [hroom] at hname hled
    obtain rfl : id = id' := userKey_inj_left.mp (hname.symm.trans heq)
    exact Option.some.inj (Option.some.inj (hkey.symm.trans hled))
  · rintro rfl
    obtain rfl : id = id' := Option.some.inj (hid.symm.trans hid')
    obtain ⟨e, he, heq⟩ := hfinds _ (OrderedMap.find?_eq_some.mp hkey) rfl
    refine List.mem_map.mpr ⟨e, he, ?_⟩
    rw [(hown e he).1, roomKey_inj.mp heq]

/-- Closing a connection whose rooms are found, and no others, keeps the maps and the members
together. -/
theorem Registered.closed (hw : Registered w) (hid : w.1.conns.find? conn = some id)
    (hfinds : FindsRooms w.1 conn id) (hown : FindsOwn w.1 conn id) (timestamp : Bytes) :
    Registered (watch w (.closed conn timestamp)) := by
  obtain ⟨hconns, hnext, -, hrooms, hmembers⟩ := watch_closed hid timestamp
  have hother : ∀ {c id'}, c ≠ conn → w.1.conns.find? c = some id' →
      (watch w (.closed conn timestamp)).1.conns.find? c = some id' := by
    intro c id' hc hid'
    rw [hconns, OrderedMap.find?_erase, if_neg hc, hid']
  refine ⟨fun c room hmem => ?_, fun key c hkey => ?_, fun key room hentry => ?_, ?_⟩
  · obtain ⟨hc, hmem⟩ := (hmembers c room).mp hmem
    obtain ⟨id', hid', hkey, hentry⟩ := hw.member c room hmem
    refine ⟨id', hother hc hid', (find?_closed hid hfinds hown _ _ _).mpr ⟨hc, hkey⟩, ?_⟩
    rw [hrooms, OrderedMap.find?_eraseAll,
      if_neg (mt (hw.mem_found_iff hid hfinds hown hid' hmem).mp hc), hentry]
  · obtain ⟨hc, hkey⟩ := (find?_closed hid hfinds hown _ _ _).mp hkey
    obtain ⟨room, id', hid', hmem, heq⟩ := hw.holder key c hkey
    exact ⟨room, id', hother hc hid', (hmembers c room).mpr ⟨hc, hmem⟩, heq⟩
  · rw [hrooms, OrderedMap.find?_eraseAll] at hentry
    split at hentry
    · cases hentry
    next hnot =>
    obtain ⟨c, id', hid', hmem, rfl⟩ := hw.entry key room hentry
    have hc : c ≠ conn := mt (hw.mem_found_iff hid hfinds hown hid' hmem).mpr hnot
    exact ⟨c, id', hother hc hid', (hmembers c room).mpr ⟨hc, hmem⟩, rfl⟩
  · rw [hconns, hnext]
    exact fun c hc => hw.numbered c (OrderedMap.mem_erase_iff.mp hc).2

/-- A new connection has joined no room. -/
theorem Registered.opened (hw : Registered w) (id : Bytes) : Registered (watch w (.opened id)) := by
  obtain ⟨hold, hnumbered⟩ := opened_conns hw.numbered id
  refine ⟨fun c room hmem => ?_, fun key c hkey => ?_, fun key room hentry => ?_, hnumbered⟩
  · obtain ⟨id', hid', hkey⟩ := hw.member c room hmem
    exact ⟨id', hold c id' hid', hkey⟩
  · obtain ⟨room, id', hid', hmem, heq⟩ := hw.holder key c hkey
    exact ⟨room, id', hold c id' hid', hmem, heq⟩
  · obtain ⟨c, id', hid', hmem, heq⟩ := hw.entry key room hentry
    exact ⟨c, id', hold c id' hid', hmem, heq⟩

/-- A message that replaces nothing of other connections keeps the maps and the members together. -/
theorem Registered.message (hw : Registered w) (hid : w.1.conns.find? conn = some id)
    {data timestamp : Bytes} {binary : Bool}
    (hops : (SocketInterceptor.onMessage id data binary timestamp).EachOp (watched conn id answers)
      (fun w => JoinsApart conn id w.1) w) :
    Registered (watch w (.message conn data binary answers timestamp)) := by
  have h := Prog.EachOp.run (h := watched conn id answers) (D := fun _ _ => True)
    (I := fun w => Registered w ∧ w.1.conns.find? conn = some id)
    (C := fun w op => JoinsApart conn id w.1 op ∧ op.Keeps)
    (fun w op hw hop => ⟨trivial, hw.1.handle hw.2 hop.1 hop.2,
      (congrArg (fun m => m.find? conn) (handle_conns op w.1)).trans hw.2⟩) ⟨hw, hid⟩
    ((onMessage_ends data binary).eachOp hops)
  simpa only [watch, hid] using h.2.1

/-- Closing a connection whose rooms are found, and no others, removes its own memberships. -/
theorem Registered.closesOwn (hw : Registered w) {timestamp : Bytes}
    (he : KeepsMemberships w (.closed conn timestamp)) :
    ClosesOwn w (.closed conn timestamp) := by
  intro hconn
  obtain ⟨id, hid⟩ := OrderedMap.mem_iff.mp hconn
  obtain ⟨hfinds, hown⟩ := he id hid
  have hclosed := hw.closed hid hfinds hown timestamp
  obtain ⟨hconns, -, -, -, hmembers⟩ := watch_closed hid timestamp
  rw [← watch_fst]
  refine ⟨fun key hkey => ?_, fun c id' hc hid' => ?_⟩
  · exact ((find?_closed hid hfinds hown _ _ _).mp hkey).1 rfl
  · have hopen : (watch w (.closed conn timestamp)).1.conns.find? c = some id' := by
      rw [hconns, OrderedMap.find?_erase, if_neg hc, hid']
    simpa only [hmembers, ne_eq, hc, not_false_eq_true, true_and] using hclosed.isRegistered hopen

/-- An event that meets the condition keeps the maps and the members together, and closes only the
memberships of its own connection. -/
theorem Registered.watch (hw : Registered w) {e : SocketEvent} (he : KeepsMemberships w e) :
    ClosesOwn w e ∧ Registered (Hub.watch w e) := by
  cases e with
  | opened id => exact ⟨trivial, hw.opened id⟩
  | message conn data binary answers timestamp =>
    cases hid : w.1.conns.find? conn with
    | none => exact ⟨trivial, by simpa only [Hub.watch, hid] using hw⟩
    | some id => exact ⟨trivial, hw.message hid (he id hid)⟩
  | closed conn timestamp =>
    refine ⟨hw.closesOwn he, ?_⟩
    cases hid : w.1.conns.find? conn with
    | none => simpa only [Hub.watch, hid] using hw
    | some id => exact hw.closed hid (he id hid).1 (he id hid).2 timestamp

/-- In every run whose joins replace nothing of other connections, and in which closed connections
find their own rooms and no others, closing a connection removes only its own memberships. -/
theorem closes_own {events done : List SocketEvent} {e : SocketEvent}
    (hevents : EachEvent Hub.watch KeepsMemberships (start, []) events)
    (hdone : done ++ [e] <+: events) : ClosesOwn (runAll Hub.watch (start, []) done) e :=
  runAll_event (I := Registered) (fun _ _ hw he => hw.watch he)
    ⟨fun _ _ h => (by cases h), fun _ _ h => (by cases h), fun _ _ h => (by cases h),
      fun _ h => by cases h⟩ hevents hdone

end Hub

/-- The theorem at a run in which two users join a room, and the first one leaves. -/
theorem closes_own_twoUsers : @Hub.ClosesOwn .insertion
    (runAll (@Hub.watch .insertion) (Hub.start, [])
      [.opened (ascii "a"), .opened (ascii "b"), sends 0 "\x7b\"join\":\"r\"\x7d",
        sends 1 "\x7b\"join\":\"r\"\x7d"])
    (.closed 0 (ascii "now")) :=
  @Hub.closes_own .insertion _ _ _ (by decide +kernel) (List.prefix_refl _)

/-- When user `a` leaves, the entry of user `a_x` is forgotten too. -/
theorem not_closesOwn_prefix : ¬@Hub.ClosesOwn .insertion
    (runAll (@Hub.watch .insertion) (Hub.start, [])
      [.opened (ascii "a"), .opened (ascii "a_x"), sends 0 "\x7b\"join\":\"r\"\x7d",
        sends 1 "\x7b\"join\":\"r\"\x7d"])
    (.closed 0 (ascii "now")) := by
  intro h
  obtain ⟨-, hothers⟩ := h (by decide +kernel)
  have hlisted := (hothers 1 (ascii "a_x") (by decide) (by decide +kernel)).listed (ascii "r")
    (by decide +kernel)
  revert hlisted
  decide +kernel

end Quarks
