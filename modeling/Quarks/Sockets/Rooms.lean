import Quarks.Sockets.Registry

/-!
# Room isolation

A connection is a member of a room from its `join` until it is closed. A text for a room
is sent to the connections whose keys start with the name of the room, without the
separator. These are the members, as long as the names of rooms and users do not make one
key look like another.
-/

namespace Quarks

open Basis

/-- The members of the rooms: connections with the rooms that they have joined. -/
abbrev Members := List (ℕ × Bytes)

namespace Hub

open SocketInterceptor

/-! ## Who should receive a text -/

/-- What an operation of a connection means for the members. -/
def enter (conn : ℕ) : SocketOp → Members → Members
  | .join room, m => (conn, room) :: m
  | .leave room, m => m.filter (· ≠ (conn, room))
  | _, m => m

/-- The room of a broadcast, and the connection that it skips. -/
def broadcastRoom (conn : ℕ) : SocketOp → Option (Bytes × Option ℕ)
  | .broadcast room _ skips => some (room, if skips then some conn else none)
  | _ => none

/-- A text for a room is sent to its members, except for the one that is skipped. -/
def ReachesMembers (w : Hub × Members) (room : Bytes) (skipped : Option ℕ) : Prop :=
  ∀ u, u ∈ w.1.receivers room skipped ↔ ∃ c, u = some c ∧ (c, room) ∈ w.2 ∧ skipped ≠ some c

/-- If the operation is a broadcast, it reaches the members. -/
def Delivers (conn : ℕ) (w : Hub × Members) (op : SocketOp) : Prop :=
  ∀ b ∈ broadcastRoom conn op, ReachesMembers w b.1 b.2

/-! ## When they do -/

/-- Every key that starts with the name of the room is that of a member of the room. If the
name itself is a key, its connection is the only member. -/
structure Apart (w : Hub × Members) (room : Bytes) (skipped : Option ℕ) : Prop where
  own : ∀ e ∈ w.1.connMap.entries, room <+: e.1 →
    (skipped.isSome = true ∧ e.2 = skipped) ∨ ∃ p ∈ w.2, p.2 = room ∧ e.2 = some p.1
  alone : ∀ u ∈ w.1.connMap.find? room, ∀ p ∈ w.2, p.2 = room →
    skipped = some p.1 ∨ u = some p.1

instance (w : Hub × Members) (room : Bytes) (skipped : Option ℕ) :
    Decidable (Apart w room skipped) :=
  decidable_of_iff
    ((∀ e ∈ w.1.connMap.entries, room <+: e.1 →
      (skipped.isSome = true ∧ e.2 = skipped) ∨ ∃ p ∈ w.2, p.2 = room ∧ e.2 = some p.1) ∧
      ∀ u ∈ w.1.connMap.find? room, ∀ p ∈ w.2, p.2 = room → skipped = some p.1 ∨ u = some p.1)
    ⟨fun h => ⟨h.1, h.2⟩, fun h => ⟨h.own, h.alone⟩⟩

/-- The room whose key an operation sets or removes. -/
def changedRoom : SocketOp → Option Bytes
  | .join room => some room
  | .leave room => some room
  | _ => none

/-- A broadcast finds the keys of its room only, a key that is set or removed is not that
of another connection, and a direct message finds its user. -/
def KeepsApart (conn : ℕ) (id : Bytes) (w : Hub × Members) (op : SocketOp) : Prop :=
  (∀ b ∈ broadcastRoom conn op, Apart w b.1 b.2) ∧
    (∀ room ∈ changedRoom op, ∀ u ∈ w.1.connMap.find? (roomKey room id), u = some conn) ∧
    FindsUser w.1 op

instance (conn : ℕ) (id : Bytes) (w : Hub × Members) (op : SocketOp) :
    Decidable (KeepsApart conn id w op) :=
  inferInstanceAs (Decidable (_ ∧ _ ∧ _))

/-- The handler of a connection with the members. -/
def watched (conn : ℕ) (id : Bytes) (answers : Answers) :
    Prog.Handler SocketRes (Hub × Members) :=
  (handle conn id answers).observed (enter conn)

section

variable [HashOrder]

/-- A condition on each operation of an event. -/
def EachSocketOp (C : ℕ → Bytes → Hub × Members → SocketOp → Prop) (w : Hub × Members) :
    SocketEvent → Prop
  | .opened _ => True
  | .message conn data binary answers timestamp => ∀ id ∈ w.1.conns.find? conn,
      (SocketInterceptor.onMessage id data binary timestamp).EachOp (watched conn id answers)
        (C conn id) w
  | .closed conn timestamp => ∀ id ∈ w.1.conns.find? conn,
      (onClose id timestamp).EachOp (watched conn id ⟨false, none⟩) (C conn id) w

instance {C : ℕ → Bytes → Hub × Members → SocketOp → Prop}
    [∀ conn id w op, Decidable (C conn id w op)] (w : Hub × Members) :
    (e : SocketEvent) → Decidable (EachSocketOp C w e)
  | .opened _ => isTrue trivial
  | .message conn data binary answers timestamp =>
    inferInstanceAs (Decidable (∀ id ∈ w.1.conns.find? conn,
      (SocketInterceptor.onMessage id data binary timestamp).EachOp (watched conn id answers)
        (C conn id) w))
  | .closed conn timestamp =>
    inferInstanceAs (Decidable (∀ id ∈ w.1.conns.find? conn,
      (onClose id timestamp).EachOp (watched conn id ⟨false, none⟩) (C conn id) w))

omit [HashOrder] in
/-- When a connection is closed, all its keys are found. -/
def ClosesRooms (s : Hub) : SocketEvent → Prop
  | .closed conn _ => ∀ id ∈ s.conns.find? conn, FindsRooms s conn id
  | _ => True

omit [HashOrder] in
instance (s : Hub) : (e : SocketEvent) → Decidable (ClosesRooms s e)
  | .opened _ => isTrue trivial
  | .message _ _ _ _ _ => isTrue trivial
  | .closed conn _ => inferInstanceAs (Decidable (∀ id ∈ s.conns.find? conn, FindsRooms s conn id))

/-- The condition on an event. -/
def KeepsRooms (w : Hub × Members) (e : SocketEvent) : Prop :=
  EachSocketOp KeepsApart w e ∧ ClosesRooms w.1 e

instance (w : Hub × Members) (e : SocketEvent) : Decidable (KeepsRooms w e) :=
  inferInstanceAs (Decidable (_ ∧ _))

/-- Every broadcast of the event reaches the members of its room. -/
def DeliversAll (w : Hub × Members) (e : SocketEvent) : Prop :=
  EachSocketOp (fun conn _ => Delivers conn) w e

/-- The interceptor and the members after an event. -/
def watch (w : Hub × Members) : SocketEvent → Hub × Members
  | .opened id => (w.1.step (.opened id), w.2)
  | .message conn data binary answers timestamp => match w.1.conns.find? conn with
    | some id =>
      ((SocketInterceptor.onMessage id data binary timestamp).run (watched conn id answers) w).2
    | none => w
  | .closed conn timestamp => match w.1.conns.find? conn with
    | some id =>
      let w := ((onClose id timestamp).run (watched conn id ⟨false, none⟩) w).2
      ({ w.1 with conns := w.1.conns.erase conn }, w.2.filter (·.1 ≠ conn))
    | none => w

/-- The members do not change what the interceptor does. -/
theorem watch_fst (w : Hub × Members) (e : SocketEvent) : (watch w e).1 = w.1.step e := by
  cases e with
  | opened id => rfl
  | message conn data binary answers timestamp =>
    simp only [watch, step]
    cases w.1.conns.find? conn with
    | none => rfl
    | some id => exact (Prog.run_observed _ _ _ w).2
  | closed conn timestamp =>
    simp only [watch, step]
    cases w.1.conns.find? conn with
    | none => rfl
    | some id =>
      exact congrArg (fun s : Hub => { s with conns := s.conns.erase conn })
        (Prog.run_observed _ _ _ w).2

end

/-! ## Finding keys -/

/-- What `lookup` finds: the key itself, or else the keys that start with it. -/
theorem mem_lookup {α : Type} {m : OrderedMap Bytes α} {key : Bytes} {e : Bytes × α} :
    e ∈ lookup m key ↔ e ∈ m.entries ∧ key <+: e.1 ∧ (key ∈ m → e.1 = key) := by
  have habove : ∀ e, e ∈ m.above key ↔ e ∈ m.entries ∧ key ≤ e.1 := fun e => by simp
  have hsorted : (m.above key).Pairwise fun a b => a.1 < b.1 := by
    rw [OrderedMap.above_eq_filter]
    exact m.sorted.filter _
  have hrange := OrderedMap.takeWhile_above m key
  have hprefixed : e ∈ m.withPrefix key ↔ e ∈ m.entries ∧ key <+: e.1 := m.mem_withPrefix
  unfold lookup
  cases hlist : m.above key with
  | nil =>
    rw [hlist] at hrange
    rw [← hrange] at hprefixed
    simp only [List.takeWhile_nil, List.not_mem_nil, false_iff, not_and] at hprefixed ⊢
    exact fun he hpre => absurd hpre (hprefixed he)
  | cons first rest =>
    rw [hlist] at hrange hsorted
    have hfirst := (habove first).mp (by rw [hlist]; exact List.mem_cons_self)
    -- a key that is there comes first
    have hhead : key ∈ m ↔ first.1 = key := by
      rw [OrderedMap.mem_iff_entries]
      constructor
      · rintro ⟨e', he', rfl⟩
        have he'' : e' ∈ first :: rest := by
          rw [← hlist]
          exact (habove e').mpr ⟨he', le_refl _⟩
        rcases List.mem_cons.mp he'' with rfl | hrest
        · rfl
        · exact absurd ((List.pairwise_cons.mp hsorted).1 e' hrest) (not_lt.mpr hfirst.2)
      · exact fun h => ⟨first, hfirst.1, h⟩
    simp only
    split
    · next heq =>
      rw [List.mem_singleton]
      constructor
      · rintro rfl
        exact ⟨hfirst.1, by rw [heq], fun _ => heq⟩
      · rintro ⟨he, -, hkey⟩
        have hkey := hkey (hhead.mpr heq)
        have hfind := OrderedMap.find?_eq_some.mpr he
        rw [hkey, ← heq, OrderedMap.find?_eq_some.mpr hfirst.1] at hfind
        exact Prod.ext (hkey.trans heq.symm) (Option.some.inj hfind).symm
    · next hne =>
      rw [hrange, hprefixed]
      simp [hhead, hne]

theorem mem_receivers {s : Hub} {room : Bytes} {skipped u : Option ℕ} :
    u ∈ s.receivers room skipped ↔ (∃ key, s.connMap.find? key = some u ∧ room <+: key ∧
      (room ∈ s.connMap → key = room)) ∧ (skipped = none ∨ u ≠ skipped) := by
  simp only [receivers, List.mem_filter, List.mem_map, mem_lookup, Bool.or_eq_true,
    Option.isNone_iff_eq_none, decide_eq_true_eq, OrderedMap.find?_eq_some]
  apply and_congr_left'
  constructor
  · rintro ⟨⟨key, u'⟩, ⟨he, hpre, hkey⟩, rfl⟩
    exact ⟨key, he, hpre, hkey⟩
  · rintro ⟨key, he, hpre, hkey⟩
    exact ⟨(key, u), ⟨he, hpre, hkey⟩, rfl⟩

/-! ## The members have their keys -/

/-- The keys of `_connMap` are those of the members. -/
structure Tracks (w : Hub × Members) : Prop where
  member : ∀ c room, (c, room) ∈ w.2 → ∃ id, w.1.conns.find? c = some id ∧
    w.1.connMap.find? (roomKey room id) = some (some c)
  holder : ∀ key u, w.1.connMap.find? key = some u → ∃ c room id, u = some c ∧
    w.1.conns.find? c = some id ∧ (c, room) ∈ w.2 ∧ key = roomKey room id
  numbered : ∀ c ∈ w.1.conns, c < w.1.next

variable {w : Hub × Members} {conn : ℕ} {id : Bytes} {answers : Answers}

/-- A broadcast that reaches the members is sent to members only. -/
def OnlyMembers (conn : ℕ) (w : Hub × Members) (op : SocketOp) : Prop :=
  ∀ b ∈ broadcastRoom conn op, ∀ u ∈ w.1.receivers b.1 b.2, ∃ p ∈ w.2, u = some p.1 ∧ p.2 = b.1

instance (conn : ℕ) (w : Hub × Members) (op : SocketOp) : Decidable (OnlyMembers conn w op) :=
  inferInstanceAs (Decidable (∀ b ∈ broadcastRoom conn op, ∀ u ∈ w.1.receivers b.1 b.2, _))

theorem Delivers.onlyMembers {op : SocketOp} (h : Delivers conn w op) :
    OnlyMembers conn w op := by
  intro b hb u hu
  obtain ⟨c, rfl, hc, -⟩ := (h b hb u).mp hu
  exact ⟨(c, b.1), hc, rfl, rfl⟩

/-- A broadcast reaches the members if their room is apart. -/
theorem Tracks.reaches (hw : Tracks w) {room : Bytes} {skipped : Option ℕ}
    (h : Apart w room skipped) : ReachesMembers w room skipped := by
  intro u
  rw [mem_receivers]
  constructor
  · rintro ⟨⟨key, hkey, hpre, -⟩, hskip⟩
    rcases h.own (key, u) (OrderedMap.find?_eq_some.mp hkey) hpre with
      ⟨hsome, hu⟩ | ⟨p, hp, rfl, hu⟩
    · rcases hskip with rfl | hne
      · cases hsome
      · exact absurd hu hne
    · refine ⟨p.1, hu, hp, ?_⟩
      rintro rfl
      rcases hskip with hnone | hne
      · cases hnone
      · exact hne hu
  · rintro ⟨c, rfl, hc, hskip⟩
    refine ⟨?_, ?_⟩
    · obtain ⟨id, -, hkey⟩ := hw.member c room hc
      by_cases hroom : room ∈ w.1.connMap
      · obtain ⟨u, hu⟩ := OrderedMap.mem_iff.mp hroom
        obtain rfl : u = some c := (h.alone u hu (c, room) hc rfl).resolve_left hskip
        exact ⟨room, hu, List.prefix_refl room, fun _ => rfl⟩
      · exact ⟨roomKey room id, hkey, List.prefix_append _ _, fun h => absurd h hroom⟩
    · by_cases hnone : skipped = none
      · exact Or.inl hnone
      · exact Or.inr fun heq => hskip heq.symm

theorem roomKey_inj {room room' id : Bytes} : roomKey room id = roomKey room' id ↔ room = room' :=
  List.append_left_inj _

/-- Opening a connection keeps the others, and numbers it. -/
theorem opened_conns [HashOrder] {s : Hub} (hnumbered : ∀ c ∈ s.conns, c < s.next) (id : Bytes) :
    (∀ c id', s.conns.find? c = some id' →
      (s.step (.opened id)).conns.find? c = some id') ∧
    ∀ c ∈ (s.step (.opened id)).conns, c < (s.step (.opened id)).next := by
  refine ⟨fun c id' hid' => ?_, fun c hc => ?_⟩
  · have hlt := hnumbered c (OrderedMap.mem_iff.mpr ⟨id', hid'⟩)
    exact (OrderedMap.find?_insert _ _ _ _).trans ((if_neg hlt.ne).trans hid')
  · change c < s.next + 1
    rcases OrderedMap.mem_insert_iff.mp hc with rfl | hc
    · exact Nat.lt_succ_self _
    · exact (hnumbered c hc).trans (Nat.lt_succ_self _)

/-- An operation keeps the keys and the members together. -/
theorem Tracks.handle (hw : Tracks w) (hid : w.1.conns.find? conn = some id) {op : SocketOp}
    (hop : KeepsApart conn id w op) : Tracks (watched conn id answers op w).2 := by
  have hsame : ∀ {id' : Bytes}, w.1.conns.find? conn = some id' → id' = id := fun h =>
    Option.some.inj (h.symm.trans hid)
  cases op with
  | join room =>
    have hown := hop.2.1 room rfl
    refine ⟨?_, ?_, hw.numbered⟩
    · intro c r hc
      change ∃ id', _ ∧ (w.1.connMap.insert (roomKey room id) (some conn)).find? _ = _
      rcases List.mem_cons.mp hc with heq | hc
      · cases heq
        exact ⟨id, hid, OrderedMap.find?_insert_self _ _ _⟩
      · obtain ⟨id', hid', hkey⟩ := hw.member c r hc
        refine ⟨id', hid', ?_⟩
        rw [OrderedMap.find?_insert]
        split
        · next heq =>
          rw [heq] at hkey
          exact congrArg some (hown _ hkey).symm
        · exact hkey
    · intro key u hu
      change (w.1.connMap.insert (roomKey room id) (some conn)).find? key = some u at hu
      rw [OrderedMap.find?_insert] at hu
      split at hu
      · next heq =>
        cases hu
        exact ⟨conn, room, id, rfl, hid, List.mem_cons_self, heq⟩
      · obtain ⟨c, r, id', rfl, hid', hc, hkey⟩ := hw.holder key u hu
        exact ⟨c, r, id', rfl, hid', List.mem_cons_of_mem _ hc, hkey⟩
  | leave room =>
    have hown := hop.2.1 room rfl
    refine ⟨?_, ?_, hw.numbered⟩
    · intro c r hc
      obtain ⟨hc, hne⟩ := List.mem_filter.mp hc
      obtain ⟨id', hid', hkey⟩ := hw.member c r hc
      refine ⟨id', hid', ?_⟩
      change (w.1.connMap.erase (roomKey room id)).find? (roomKey r id') = some (some c)
      rw [OrderedMap.find?_erase]
      split
      · next heq =>
        rw [heq] at hkey
        obtain rfl : c = conn := Option.some.inj (hown _ hkey)
        obtain rfl := hsame hid'
        rw [roomKey_inj] at heq
        exact absurd hne (by simp [heq])
      · exact hkey
    · intro key u hu
      change (w.1.connMap.erase (roomKey room id)).find? key = some u at hu
      rw [OrderedMap.find?_erase] at hu
      split at hu
      · cases hu
      next hne =>
      obtain ⟨c, r, id', rfl, hid', hc, hkey⟩ := hw.holder key u hu
      refine ⟨c, r, id', rfl, hid', List.mem_filter.mpr ⟨hc, ?_⟩, hkey⟩
      simp only [decide_eq_true_eq]
      intro heq
      cases heq
      obtain rfl := hsame hid'
      exact hne hkey
  | direct key data =>
    obtain ⟨u, hu⟩ := OrderedMap.mem_iff.mp (hop.2.2 key rfl)
    have hconnMap : (watched conn id answers (.direct key data) w).2.1.connMap = w.1.connMap ∧
        (watched conn id answers (.direct key data) w).2.1.next = w.1.next := by
      simp only [watched, Prog.Handler.observed, Hub.handle, hu]
      cases u <;> exact ⟨rfl, rfl⟩
    have hconns : (watched conn id answers (.direct key data) w).2.1.conns = w.1.conns :=
      handle_conns _ _
    refine ⟨?_, ?_, ?_⟩
    · rw [hconnMap.1, hconns]
      exact hw.member
    · rw [hconnMap.1, hconns]
      exact hw.holder
    · rw [hconnMap.2, hconns]
      exact hw.numbered
  | _ => exact ⟨hw.member, hw.holder, hw.numbered⟩

/-- The operations of a program, each of which keeps the rooms apart, deliver. -/
theorem Tracks.run (hw : Tracks w) (hid : w.1.conns.find? conn = some id) {p : SocketM Unit}
    (hp : p.EachOp (watched conn id answers) (KeepsApart conn id) w) :
    p.EachOp (watched conn id answers) (Delivers conn) w ∧
      Tracks (p.run (watched conn id answers) w).2 := by
  have h := Prog.EachOp.run (h := watched conn id answers) (D := Delivers conn)
    (I := fun w => Tracks w ∧ w.1.conns.find? conn = some id)
    (fun w op hw hop => ⟨fun b hb => hw.1.reaches (hop.1 b hb), hw.1.handle hw.2 hop,
      (congrArg (fun m => m.find? conn) (handle_conns op w.1)).trans hw.2⟩) ⟨hw, hid⟩ hp
  exact ⟨h.1, h.2.1⟩

/-- An event that delivers its broadcasts sends them to members only. -/
theorem DeliversAll.onlyMembers [HashOrder] {e : SocketEvent} (h : DeliversAll w e) :
    EachSocketOp (fun conn _ => OnlyMembers conn) w e := by
  have honly : ∀ {conn id answers} {p : SocketM Unit},
      p.EachOp (watched conn id answers) (Delivers conn) w →
        p.EachOp (watched conn id answers) (OnlyMembers conn) w := fun hp =>
    (Prog.EachOp.run (I := fun _ => True) (fun _ _ _ hop => ⟨hop.onlyMembers, trivial⟩) trivial
      hp).1
  cases e with
  | opened id => trivial
  | message conn data binary answers timestamp => exact fun id hid => honly (h id hid)
  | closed conn timestamp => exact fun id hid => honly (h id hid)

/-- A connection without keys can be closed. -/
theorem Tracks.erase (hw : Tracks w)
    (hnone : ∀ key, w.1.connMap.find? key ≠ some (some conn)) :
    Tracks ({ w.1 with conns := w.1.conns.erase conn }, w.2.filter (·.1 ≠ conn)) := by
  have hother : ∀ c, c ≠ conn → (w.1.conns.erase conn).find? c = w.1.conns.find? c := by
    intro c hc
    rw [OrderedMap.find?_erase, if_neg hc]
  refine ⟨?_, ?_, ?_⟩
  · intro c room hc
    obtain ⟨hc, hne⟩ := List.mem_filter.mp hc
    obtain ⟨id', hid', hkey⟩ := hw.member c room hc
    exact ⟨id', (hother c (by simpa using hne)).trans hid', hkey⟩
  · intro key u hu
    obtain ⟨c, room, id', rfl, hid', hc, hkey⟩ := hw.holder key u hu
    have hne : c ≠ conn := by
      rintro rfl
      exact hnone key hu
    exact ⟨c, room, id', rfl, (hother c hne).trans hid',
      List.mem_filter.mpr ⟨hc, by simpa using hne⟩, hkey⟩
  · exact fun c hc => hw.numbered c (OrderedMap.mem_erase_iff.mp hc).2

variable [HashOrder]

/-- A connection whose keys are all found has none of them after `onClose`. -/
theorem find?_onClose_ne (hfinds : FindsRooms w.1 conn id) (timestamp key : Bytes) :
    ((onClose id timestamp).run (watched conn id answers) w).2.1.connMap.find? key ≠
      some (some conn) := by
  rw [watched, (Prog.run_observed _ _ _ w).2, onClose_connMap, OrderedMap.find?_eraseAll]
  split
  · intro hu
    cases hu
  · next hkey =>
    intro hu
    obtain ⟨r, hr, hkey'⟩ := hfinds _ (OrderedMap.find?_eq_some.mp hu) rfl
    exact hkey (List.mem_map.mpr ⟨r, hr, hkey'⟩)

/-- An event that keeps the rooms apart delivers its broadcasts and keeps the keys and the
members together. -/
theorem Tracks.watch (hw : Tracks w) {e : SocketEvent} (he : KeepsRooms w e) :
    DeliversAll w e ∧ Tracks (Hub.watch w e) := by
  cases e with
  | opened id =>
    obtain ⟨hold, hnumbered⟩ := opened_conns hw.numbered id
    refine ⟨trivial, ?_, ?_, hnumbered⟩
    · intro c room hc
      obtain ⟨id', hid', hkey⟩ := hw.member c room hc
      exact ⟨id', hold c id' hid', hkey⟩
    · intro key u hu
      obtain ⟨c, room, id', rfl, hid', hc, hkey⟩ := hw.holder key u hu
      exact ⟨c, room, id', rfl, hold c id' hid', hc, hkey⟩
  | message conn data binary answers timestamp =>
    cases hid : w.1.conns.find? conn with
    | none =>
      refine ⟨fun id h => ?_, ?_⟩
      · rw [hid] at h
        cases h
      · simpa only [Hub.watch, hid] using hw
    | some id =>
      obtain ⟨hdelivers, htracks⟩ := hw.run hid (he.1 id hid)
      refine ⟨fun id' h => ?_, ?_⟩
      · obtain rfl : id = id' := Option.some.inj (hid.symm.trans h)
        exact hdelivers
      · simpa only [Hub.watch, hid] using htracks
  | closed conn timestamp =>
    cases hid : w.1.conns.find? conn with
    | none =>
      refine ⟨fun id h => ?_, ?_⟩
      · rw [hid] at h
        cases h
      · simpa only [Hub.watch, hid] using hw
    | some id =>
      obtain ⟨hdelivers, htracks⟩ := hw.run hid (he.1 id hid)
      refine ⟨fun id' h => ?_, ?_⟩
      · obtain rfl : id = id' := Option.some.inj (hid.symm.trans h)
        exact hdelivers
      · simp only [Hub.watch, hid]
        exact htracks.erase (find?_onClose_ne (he.2 id hid) timestamp)

/-- In every run whose events keep the rooms apart, every broadcast reaches the members of
its room. -/
theorem rooms_isolated {events done : List SocketEvent} {e : SocketEvent}
    (hevents : EachEvent Hub.watch KeepsRooms (start, []) events) (hdone : done ++ [e] <+: events) :
    DeliversAll (runAll Hub.watch (start, []) done) e :=
  runAll_event (I := Tracks) (fun _ _ hw he => hw.watch he)
    ⟨fun _ _ h => (by cases h), fun _ _ h => (by cases h), fun _ h => by cases h⟩ hevents hdone

end Hub

/-- The theorem at the second message of a run in which two users join a room, where both
send a message. -/
theorem rooms_isolated_twoUsers : @Hub.DeliversAll .insertion
    (runAll (@Hub.watch .insertion) (Hub.start, [])
      [.opened (ascii "a"), .opened (ascii "b"), sends 0 "\x7b\"join\":\"r\"\x7d",
        sends 1 "\x7b\"join\":\"r\"\x7d", sends 0 "\x7b\"send\":1,\"room\":\"r\"\x7d"])
    (sends 1 "\x7b\"send\":2,\"room\":\"r\"\x7d") :=
  @Hub.rooms_isolated .insertion _ _ _ (by decide +kernel) (List.prefix_refl _)

/-- A text for the room `r` reaches the user of the room `rs`. -/
theorem not_deliversAll_prefix : ¬@Hub.DeliversAll .insertion
    (runAll (@Hub.watch .insertion) (Hub.start, [])
      [.opened (ascii "a"), .opened (ascii "b"), sends 0 "\x7b\"join\":\"rs\"\x7d"])
    (sends 1 "\x7b\"send\":1,\"room\":\"r\"\x7d") :=
  mt (@Hub.DeliversAll.onlyMembers _ .insertion _) (by decide +kernel)

end Quarks
