import Quarks.Sockets.Registry
import Quarks.Json.Fields

/-!
# Pages of users

A list of the users of a room is paged by `skip` and `limit`. The loop passes the entries before
`skip`, but of the others it leaves out only the one at position `limit`: a limit does not end the
page.
-/

namespace Quarks

open Basis

namespace SocketInterceptor

variable [HashOrder]

/-- The reply to a message that asks for the users of a room. -/
def userListReply (room : Bytes) (keys : List Bytes) (win : Window) (timestamp : Bytes) : WValue :=
  let wlist := (WValue.null.set (ascii "room") (.string room)).set (ascii "replyuserlist")
    (.list (keys.map .string))
  let wlist := (wlist.set (ascii "skip") (.number (Double.ofInt win.skip))).set (ascii "limit")
    (.number (Double.ofInt win.limit))
  wlist.set (ascii "timestamp") (.string timestamp)

/-- The message asks for the users of a room in a window. -/
structure AsksUserList (x : RValue) (room : Bytes) (win : Window) : Prop where
  connect : ∃ b, x.has (ascii "connect") = .ok b ∧
    (b = true → ∃ v, (x.field (ascii "connect")).bind RValue.b = .ok v)
  join : x.has (ascii "join") = .ok false
  userlist : x.has (ascii "userlist") = .ok true
  room : (x.field (ascii "userlist")).bind RValue.s = .ok room
  skip : intField x (ascii "skip") 0 = .ok win.skip
  limit : intField x (ascii "limit") (-1) = .ok win.limit

end SocketInterceptor

/-- What a client reads in the reply: the keys of the list of users. -/
def ListsUsers (text : Bytes) (keys : List Bytes) : Prop :=
  ∃ x l, load text = some x ∧ x.field (ascii "replyuserlist") = .ok (.list l) ∧
    l.map RValue.s = keys.map .ok

/-- When the page is the slice of the list: there is no limit; or nothing is left from `skip` on;
or all that is left fits, and the entry at position `limit` is not among it; or the limit leaves
out the last entry of all. -/
def PageFits (win : Window) (n : ℕ) : Prop :=
  win.limit = -1 ∨ n ≤ win.skip ∨
    (n ≤ win.skip + win.limit ∧ (win.limit < win.skip ∨ n ≤ win.limit)) ∨
    (win.skip = 0 ∧ win.limit + 1 = n)

instance (win : Window) (n : ℕ) : Decidable (PageFits win n) :=
  inferInstanceAs (Decidable (_ ∨ _))

namespace Hub

open SocketInterceptor

variable [HashOrder]

/-- The message is replied to with the slice of the registry entries found for the room. -/
def PagesUsers (s : Hub) (e : SocketEvent) (conn : ℕ) (room : Bytes) (win : Window) : Prop :=
  ∃ text, (s.step e).sent = s.sent ++ [.toSender conn text] ∧
    ListsUsers text (win.slice ((lookup s.connMap (room ++ [95])).map Prod.fst))

variable {s : Hub} {conn : ℕ} {id room : Bytes} {answers : Answers} {x : RValue} {win : Window}

/-- A message that asks for users is replied to. -/
theorem onMessage_userList {data : Bytes} (hload : load data = some x)
    (hasks : AsksUserList x room win) (binary : Bool) (timestamp : Bytes) :
    (SocketInterceptor.onMessage id data binary timestamp).run (handle conn id answers) s =
      (.ok (), { s with sent := s.sent ++ [.toSender conn (dump (userListReply room
        (shownKeys ((lookup s.connMap (room ++ [95])).map Prod.fst) win.skip win.limit) win
        timestamp))] }) := by
  rw [onMessage_eq hload hasks.connect]
  simp only [hasks.join, hasks.userlist, onUserList, hasks.room, hasks.skip, hasks.limit]
  rfl

omit [HashOrder] in
theorem userListReply_distinct (room : Bytes) (keys : List Bytes) (win : Window)
    (timestamp : Bytes) : (userListReply room keys win timestamp).Distinct :=
  ((((WValue.Distinct.set (w := .null) trivial _ _).set _ _).set _ _).set _ _).set _ _

omit [HashOrder] in
theorem field?_userListReply (room : Bytes) (keys : List Bytes) (win : Window)
    (timestamp : Bytes) : (userListReply room keys win timestamp).field? (ascii "replyuserlist") =
      some (.list (keys.map .string)) := by
  rw [userListReply, WValue.field?_set, if_neg (by decide), WValue.field?_set,
    if_neg (by decide), WValue.field?_set, if_neg (by decide), WValue.field?_set, if_pos rfl]

/-- The reply lists the keys that it has been given, and no others. -/
theorem listsUsers_reply {keys keys' : List Bytes} {timestamp : Bytes} :
    ListsUsers (dump (userListReply room keys win timestamp)) keys' ↔ keys = keys' := by
  have hfield := field_reread (userListReply_distinct room keys win timestamp)
    (field?_userListReply room keys win timestamp)
  rw [reread_list, List.map_map] at hfield
  have hread : (keys.map (reread ∘ .string)).map RValue.s = keys.map .ok := by
    rw [List.map_map]
    refine List.map_congr_left fun key _ => ?_
    exact congrArg Except.ok (unescape_escape key)
  constructor
  · rintro ⟨y, l, hload, hl, hkeys⟩
    rw [load_dump] at hload
    obtain rfl := Option.some.inj hload
    rw [hfield] at hl
    obtain rfl : keys.map (reread ∘ .string) = l := RValue.list.inj (Except.ok.inj hl)
    rw [hread] at hkeys
    exact List.map_injective_iff.mpr (fun _ _ h => Except.ok.inj h) hkeys
  · rintro rfl
    exact ⟨_, _, load_dump _, hfield, hread⟩

omit [HashOrder] in
/-- The keys that are shown are those at some positions. -/
theorem shownKeys_eq_selectAt (keys : List Bytes) (win : Window) :
    shownKeys keys win.skip win.limit = selectAt
      (fun p => decide (int32 (win.skip - 1) < p) && decide ((p : ℤ) ≠ win.limit)) 0 keys := by
  rw [← filter_zipIdx_eq_selectAt]
  rfl

omit [HashOrder] in
theorem shownKeys_eq_slice_iff (hwin : win.Valid) {keys : List Bytes} (hkeys : keys.Nodup) :
    shownKeys keys win.skip win.limit = win.slice keys ↔ PageFits win keys.length := by
  have hskip := hwin.skip_nonneg
  have hlt := hwin.skip_lt
  have hlimit := hwin.limit_ge
  have hpred : int32 (win.skip - 1) = win.skip - 1 := int32_eq_self (by omega)
  rw [shownKeys_eq_selectAt, Window.slice_eq_selectAt hwin,
    selectAt_eq_selectAt_iff_of_nodup hkeys, hpred]
  have hheld : ∀ p : ℕ, ((decide (win.skip - 1 < (p : ℤ)) && decide ((p : ℤ) ≠ win.limit)) =
      win.spans p ↔ (win.skip ≤ p → ((p : ℤ) ≠ win.limit ↔
        win.limit = -1 ∨ (p : ℤ) < win.skip + win.limit))) := by
    intro p
    rw [Bool.eq_iff_iff]
    simp only [Window.spans, Bool.and_eq_true, Bool.or_eq_true, decide_eq_true_eq]
    omega
  simp only [hheld, Nat.zero_add, Nat.zero_le, true_implies]
  unfold PageFits
  constructor
  · intro h
    have hlast := h (keys.length - 1)
    have hat := h win.limit.toNat
    omega
  · intro h p hp hle
    omega

omit [HashOrder] in
theorem lookup_nodup {α : Type} (m : OrderedMap Bytes α) (key : Bytes) :
    ((lookup m key).map Prod.fst).Nodup := by
  have habove : ((m.above key).map Prod.fst).Nodup := by
    rw [OrderedMap.above_eq_filter]
    exact m.nodup_keys.sublist (List.filter_sublist.map _)
  unfold lookup
  split
  · exact List.nodup_nil
  · next e es heq =>
    rw [heq] at habove
    split
    · exact List.nodup_singleton _
    · exact habove.sublist ((List.takeWhile_sublist _).map _)

omit [HashOrder] in
/-- An argument is an `int`. -/
theorem intField_lt {name : Bytes} {dflt z : ℤ} (h : intField x name dflt = .ok z)
    (hdflt : dflt < 2 ^ 31) : z < 2 ^ 31 := by
  unfold intField at h
  cases hhas : x.has name with
  | error e =>
    rw [hhas] at h
    cases h
  | ok b =>
    rw [hhas] at h
    cases b with
    | false =>
      obtain rfl := Except.ok.inj h
      exact hdflt
    | true =>
      cases hfield : x.field name with
      | error e =>
        rw [hfield] at h
        cases h
      | ok v =>
        rw [hfield] at h
        cases hv : v.i with
        | error e =>
          change (do return int32 (← v.i) : Except Failure ℤ) = _ at h
          rw [hv] at h
          cases h
        | ok i =>
          change (do return int32 (← v.i) : Except Failure ℤ) = _ at h
          rw [hv] at h
          obtain rfl := Except.ok.inj h
          exact (int32_range i).2

omit [HashOrder] in
theorem valid_of_asks (h : AsksUserList x room win) (hskip : 0 ≤ win.skip)
    (hlimit : -1 ≤ win.limit) : win.Valid :=
  ⟨hskip, intField_lt h.skip (by decide), hlimit, intField_lt h.limit (by decide)⟩

/-- The page is the slice if the loop shows the slice. -/
theorem pagesUsers_iff_shown (hconn : s.conns.find? conn = some id) {data : Bytes}
    (hload : load data = some x) (hasks : AsksUserList x room win) (binary : Bool)
    (answers : Answers) (timestamp : Bytes) :
    PagesUsers s (.message conn data binary answers timestamp) conn room win ↔
      shownKeys ((lookup s.connMap (room ++ [95])).map Prod.fst) win.skip win.limit =
        win.slice ((lookup s.connMap (room ++ [95])).map Prod.fst) := by
  have hstep : (s.step (.message conn data binary answers timestamp)).sent = s.sent ++
      [.toSender conn (dump (userListReply room
        (shownKeys ((lookup s.connMap (room ++ [95])).map Prod.fst) win.skip win.limit) win
        timestamp))] := by
    simp only [step, hconn, onMessage_userList hload hasks]
  rw [PagesUsers, hstep]
  constructor
  · rintro ⟨text, htext, hlists⟩
    obtain rfl := Sent.toSender.inj (List.singleton_inj.mp (List.append_cancel_left htext)) |>.2
    exact listsUsers_reply.mp hlists
  · exact fun h => ⟨_, rfl, listsUsers_reply.mpr h⟩

/-- A list of users is paged as other listings exactly if its window fits the entries. -/
theorem pagesUsers_iff (hconn : s.conns.find? conn = some id) {data : Bytes}
    (hload : load data = some x) (hasks : AsksUserList x room win) (hskip : 0 ≤ win.skip)
    (hlimit : -1 ≤ win.limit) (binary : Bool) (answers : Answers) (timestamp : Bytes) :
    PagesUsers s (.message conn data binary answers timestamp) conn room win ↔
      PageFits win (lookup s.connMap (room ++ [95])).length := by
  have hiff := shownKeys_eq_slice_iff (valid_of_asks hasks hskip hlimit)
    (lookup_nodup s.connMap (room ++ [95]))
  rw [List.length_map] at hiff
  exact (pagesUsers_iff_shown hconn hload hasks binary answers timestamp).trans hiff

end Hub

/-- Three users have joined a room. -/
def threeUsers : Hub :=
  ⟨.insert (.insert (.insert .empty 0 (ascii "a")) 1 (ascii "b")) 2 (ascii "c"), 3,
    .insert (.insert (.insert .empty (ascii "r_a") (some 0)) (ascii "r_b") (some 1)) (ascii "r_c")
      (some 2),
    .insert (.insert (.insert .empty (ascii "a_r") (ascii "r")) (ascii "b_r") (ascii "r"))
      (ascii "c_r") (ascii "r"), true, []⟩

/-- A message that asks for the users of a room. -/
theorem load_asksUsers : load (ascii "\x7b\"userlist\":\"r\"\x7d") =
    some (.object [(ascii "userlist", .string (ascii "r"))]) := by
  have hdump : ascii "\x7b\"userlist\":\"r\"\x7d" =
      @dump .insertion (.object [(ascii "userlist", .string (ascii "r"))]) := by decide +kernel
  rw [hdump, @load_dump .insertion]
  rfl

/-- A message that asks for one of them. -/
theorem load_asksOneUser : load (ascii "\x7b\"userlist\":\"r\",\"limit\":1\x7d") =
    some (.object [(ascii "userlist", .string (ascii "r")),
      (ascii "limit", .number (ascii "1"))]) := by
  have hdump : ascii "\x7b\"userlist\":\"r\",\"limit\":1\x7d" =
      @dump .insertion (.object [(ascii "userlist", .string (ascii "r")),
        (ascii "limit", .number (Double.ofInt 1))]) := by decide +kernel
  rw [hdump, @load_dump .insertion]
  rfl

/-- The theorem at a message without a window. -/
theorem pagesUsers_iff_all : @Hub.PagesUsers .insertion threeUsers
    (sends 0 "\x7b\"userlist\":\"r\"\x7d") 0 (ascii "r") ⟨0, -1⟩ ↔
      PageFits ⟨0, -1⟩ (Hub.lookup threeUsers.connMap (ascii "r_")).length :=
  @Hub.pagesUsers_iff .insertion threeUsers 0 (ascii "a") (ascii "r")
    (.object [(ascii "userlist", .string (ascii "r"))]) ⟨0, -1⟩ (by decide +kernel) _ load_asksUsers
    ⟨⟨false, rfl, fun h => by cases h⟩, rfl, rfl, rfl, rfl, rfl⟩ (by decide) (by decide) _ _ _

/-- With a limit of one, the first and the third of three users are listed. -/
theorem not_pagesUsers_one : ¬@Hub.PagesUsers .insertion threeUsers
    (sends 0 "\x7b\"userlist\":\"r\",\"limit\":1\x7d") 0 (ascii "r") ⟨0, 1⟩ := by
  rw [sends, @Hub.pagesUsers_iff_shown .insertion threeUsers 0 (ascii "a") (ascii "r")
    (.object [(ascii "userlist", .string (ascii "r")), (ascii "limit", .number (ascii "1"))])
    ⟨0, 1⟩ (by decide +kernel) _ load_asksOneUser
    ⟨⟨false, rfl, fun h => by cases h⟩, rfl, rfl, rfl, rfl, by decide +kernel⟩]
  decide +kernel

end Quarks
