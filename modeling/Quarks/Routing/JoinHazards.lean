import Quarks.LeftJoin
import Quarks.Routing.LookupHazards

/-!
# What brings the joins down

`getJoinedMap` and `searchJson` read their arguments without a barrier, and what they join is
read as the values that are looked up.
-/

namespace Quarks

open Basis

namespace Routing

variable (c : Config) (n : Node) (req : Request)

/-! ## Joined maps -/

/-- The arguments of a join can be read: they have names, and the index of the token, if the
reading comes to it, is a number of 64 bits. -/
structure JoinArgsRead (x : RValue) : Prop where
  named : ∀ y l, x ≠ .list (y :: l)
  selindex : ∀ wild splitby y, stringField x (ascii "keys") [] = .ok wild →
    fieldOr x (ascii "splitby") (fun y => y.s.map some) none = .ok splitby →
      x.field (ascii "selindex") = .ok y → RuntimeOnly y.i

/-- A prefix and a suffix of what is to be joined. -/
def IsAffix (join : List RValue) (pre suf : Bytes) : Prop :=
  ∃ v ∈ join, affixes v = .ok (pre, suf)

/-- The values that are stored under the final keys can be read. -/
def JoinedRead (x : RValue) (a : JoinArgs) : Prop :=
  (startsWithStar a.wild && !a.hasKeyList) = false → ∀ join, a.join.elements = .ok join →
    ∀ pre suf, IsAffix join pre suf →
      ∀ key ∈ (sFinalKeys a x req.window n.db).2, StoreReads n (pre ++ key ++ suf)

/-- The arguments and the values of a join can be read. -/
def GetjoinedmapReads (x : RValue) : Prop :=
  c.dbOk = true → JoinArgsRead x ∧ ∀ a, joinArgs x = .ok a → JoinedRead n req x a

section

variable {c : Config} {n : Node} {req : Request} {faults : Faults} {key pre suf : Bytes}

/-- What is behind an `if` is behind its branches. -/
theorem ite_bind {α β : Type} (b : Bool) (r s : Except Failure α) (f : α → Except Failure β) :
    (if b = true then r else s) >>= f = if b = true then r >>= f else s >>= f := by
  cases b <;> rfl

theorem map_bind {α β γ : Type} (r : Except Failure α) (f : α → β) (g : β → Except Failure γ) :
    r.map f >>= g = r >>= fun a => g (f a) := by
  cases r <;> rfl

theorem joinArgs_eq_fieldOr (x : RValue) : joinArgs x = (do
    let wild ← stringField x (ascii "keys") []
    let hasKeyList ← x.has (ascii "keylist")
    let splitby ← fieldOr x (ascii "splitby") (fun y => y.s.map some) none
    let selindex ← fieldOr x (ascii "selindex") (fun y => y.i.map int32) (-1)
    let join ← x.field (ascii "join")
    return ⟨wild, hasKeyList, splitby, selindex, join⟩) := by
  unfold joinArgs fieldOr
  simp only [bind_assoc, ite_bind, map_bind, pure_bind]

theorem runtimeOnly_joinArgs {x : RValue} : RuntimeOnly (joinArgs x) ↔ JoinArgsRead x := by
  rw [joinArgs_eq_fieldOr]
  simp only [RuntimeOnly.bind_do]
  constructor
  · rintro ⟨hkeys, h⟩
    have hnamed : ∀ y l, x ≠ .list (y :: l) := by
      unfold stringField at hkeys
      exact runtimeOnly_has.mp (RuntimeOnly.bind_do.mp hkeys).1
    refine ⟨hnamed, fun wild splitby y hwild hsplitby hy => ?_⟩
    obtain ⟨found, hfound⟩ : ∃ found, x.has (ascii "keylist") = .ok found := by
      obtain ⟨o, rfl, -⟩ := RValue.field_cases hy
      exact ⟨_, rfl⟩
    have hselindex := (((h wild hwild).2 found hfound).2 splitby hsplitby).1
    exact RuntimeOnly.map.mp ((runtimeOnly_fieldOr hnamed).mp hselindex y hy)
  · intro h
    have hread : ∀ {α : Type} {name : Bytes} {read : RValue → Except Failure α} {dflt : α},
        (∀ y, x.field name = .ok y → RuntimeOnly (read y)) →
          RuntimeOnly (fieldOr x name read dflt) := (runtimeOnly_fieldOr h.named).mpr
    refine ⟨hread fun y _ => runtimeOnly_s y, fun wild hwild =>
      ⟨runtimeOnly_has.mpr h.named, fun _ _ => ⟨?_, fun splitby hsplitby => ⟨?_, fun _ _ =>
        ⟨runtimeOnly_field x _, fun _ _ => trivial⟩⟩⟩⟩⟩
    · exact hread fun y _ => RuntimeOnly.map.mpr (runtimeOnly_s y)
    · exact hread fun y hy => RuntimeOnly.map.mpr (h.selindex wild splitby y hwild hsplitby hy)

/-- Reading two texts. -/
theorem runtimeOnly_twoTexts (v : RValue) (name name' : Bytes) : RuntimeOnly (do
    let s ← (← v.field name).s
    let s' ← (← v.field name').s
    return (s, s')) :=
  RuntimeOnly.bind.mpr ⟨runtimeOnly_field v name, fun y _ => RuntimeOnly.bind.mpr ⟨runtimeOnly_s y,
    fun _ _ => RuntimeOnly.bind.mpr ⟨runtimeOnly_field v name', fun y' _ =>
      RuntimeOnly.bind.mpr ⟨runtimeOnly_s y', fun _ _ => trivial⟩⟩⟩⟩

theorem runtimeOnly_affixes (v : RValue) : RuntimeOnly (affixes v) :=
  runtimeOnly_twoTexts v _ _

theorem joinKeys_returns (keys : List Bytes) (w : WValue)
    (hkeys : ∀ key ∈ keys, StoreReads n (pre ++ key ++ suf)) :
    Returns faults (· = n) (joinKeys pre suf keys w) fun _ => True := by
  induction keys generalizing w with
  | nil => exact Returns.pure trivial
  | cons key keys ih =>
    obtain ⟨hkey, hkeys⟩ := List.forall_mem_cons.mp hkeys
    refine dbGet_safe.bind fun found hfound => ?_
    cases found with
    | none => exact ih _ hkeys
    | some value =>
      have hread := hkey value (hfound value rfl)
      simp only
      cases hvalue : loadValue value with
      | ok v => exact ih _ hkeys
      | error f =>
        rw [hvalue, RuntimeOnly.error] at hread
        simp only [hread, if_true]
        exact Returns.pure trivial

theorem joinLoop_returns (keys : List Bytes) (join : List RValue) (ret : Bool) (w : WValue)
    (hkeys : ∀ pre suf, IsAffix join pre suf → ∀ key ∈ keys, StoreReads n (pre ++ key ++ suf)) :
    Returns faults (· = n) (joinLoop keys join ret w) fun _ => True := by
  induction join generalizing ret w with
  | nil => exact Returns.pure trivial
  | cons v vs ih =>
    have hrest : ∀ pre suf, IsAffix vs pre suf → ∀ key ∈ keys, StoreReads n (pre ++ key ++ suf) :=
      fun pre suf ⟨v', hv', haffixes⟩ => hkeys pre suf ⟨v', List.mem_cons_of_mem _ hv', haffixes⟩
    have hread := runtimeOnly_affixes v
    unfold joinLoop
    cases hv : affixes v with
    | error f =>
      rw [hv, RuntimeOnly.error] at hread
      simp only [hread, if_true]
      exact ih _ _ hrest
    | ok r =>
      exact (joinKeys_returns keys w (hkeys r.1 r.2 ⟨v, List.mem_cons_self, hv⟩)).bind fun _ _ =>
        ih _ _ hrest

theorem joinKeys_onlyReads (keys : List Bytes) (w : WValue)
    (hkey : key ∉ keys.map fun k => pre ++ k ++ suf) :
    Yields (onlyReads key) n (joinKeys pre suf keys w) (.ok (true, w)) := by
  induction keys generalizing w with
  | nil => exact Yields.pure _
  | cons k keys ih =>
    rw [List.map_cons, List.mem_cons, not_or] at hkey
    have hget := @dbGet_onlyReads n key (pre ++ k ++ suf)
    rw [if_neg (Ne.symm hkey.1)] at hget
    exact Yields.bind_ok hget (ih w hkey.2)

theorem joinKeys_raises {value : Bytes} (hfind : n.db.find? key = some value)
    (hvalue : ¬RuntimeOnly (loadValue value)) (keys : List Bytes) (w : WValue)
    (hkey : key ∈ keys.map fun k => pre ++ k ++ suf) :
    Raises (onlyReads key) (· = n) (joinKeys pre suf keys w) := by
  induction keys generalizing w with
  | nil => cases hkey
  | cons k keys ih =>
    have hget := @dbGet_onlyReads n key (pre ++ k ++ suf)
    by_cases hk : pre ++ k ++ suf = key
    · rw [if_pos hk, hk, hfind] at hget
      obtain ⟨f, hf, hescapes⟩ := RuntimeOnly.exists_of_not hvalue
      unfold joinKeys
      rw [hk]
      refine Raises.bind_yields hget ?_
      simp only [hf, hescapes]
      exact Raises.throw hescapes
    · rw [if_neg hk] at hget
      exact Raises.bind_yields hget (ih w ((List.mem_cons.mp hkey).resolve_left (Ne.symm hk)))

theorem joinLoop_raises {value : Bytes} (hfind : n.db.find? key = some value)
    (hvalue : ¬RuntimeOnly (loadValue value)) (keys : List Bytes) (join : List RValue) (ret : Bool)
    (w : WValue) (hkey : ∃ pre suf, IsAffix join pre suf ∧
      key ∈ keys.map fun k => pre ++ k ++ suf) :
    Raises (onlyReads key) (· = n) (joinLoop keys join ret w) := by
  induction join generalizing ret w with
  | nil =>
    obtain ⟨pre, suf, ⟨v, hv, -⟩, -⟩ := hkey
    cases hv
  | cons v vs ih =>
    have hread := runtimeOnly_affixes v
    have hrest : (∀ pre suf, affixes v = .ok (pre, suf) → key ∉ keys.map fun k => pre ++ k ++ suf) →
        ∃ pre suf, IsAffix vs pre suf ∧ key ∈ keys.map fun k => pre ++ k ++ suf := by
      intro hnot
      obtain ⟨pre, suf, ⟨v', hv', haffixes⟩, hmem⟩ := hkey
      rcases List.mem_cons.mp hv' with rfl | hv'
      · exact absurd hmem (hnot pre suf haffixes)
      · exact ⟨pre, suf, ⟨v', hv', haffixes⟩, hmem⟩
    unfold joinLoop
    cases hv : affixes v with
    | error f =>
      rw [hv, RuntimeOnly.error] at hread
      simp only [hread, if_true]
      refine ih _ _ (hrest fun pre suf h => ?_)
      rw [hv] at h
      cases h
    | ok r =>
      obtain ⟨pre, suf⟩ := r
      by_cases hmem : key ∈ keys.map fun k => pre ++ k ++ suf
      · exact (joinKeys_raises hfind hvalue keys w hmem).bind_left
      · refine Raises.bind_yields (joinKeys_onlyReads keys w hmem) (ih _ _ (hrest ?_))
        intro pre' suf' h
        rw [hv] at h
        cases h
        exact hmem

theorem settled_joinLoop (keys : List Bytes) (join : List RValue) (ret : Bool) (w : WValue) :
    ContainedIff n (joinLoop keys join ret w) (∀ pre suf, IsAffix join pre suf →
      ∀ key ∈ keys, StoreReads n (pre ++ key ++ suf)) := by
  constructor
  · intro hreads
    exact (Safe.contained fun _ => (joinLoop_returns keys join ret w hreads).safe).mono
      (fun _ hm => hm) fun _ _ _ => trivial
  · intro hreads
    simp only [StoreReads, not_forall] at hreads
    obtain ⟨pre, suf, haffix, key, hkey, value, hfind, hvalue⟩ := hreads
    exact ⟨_, joinLoop_raises hfind hvalue keys join ret w
      ⟨pre, suf, haffix, List.mem_map_of_mem hkey⟩⟩

theorem getjoinedmapCallback (h : req.WellFormed) :
    ContainedIff n (routeCoreGetjoinedmapCallback c req)
      (OnBody req (GetjoinedmapReads c n req)) := by
  refine settled_withBody h fun x _ => ContainedIff.map ?_
  unfold getJoinedMap GetjoinedmapReads
  cases hdb : c.dbOk with
  | false =>
    exact ContainedIff.pure.congr (iff_of_true trivial fun h => absurd h Bool.false_ne_true)
  | true =>
    simp only [if_true, forall_const]
    refine (ContainedIff.ofExcept (C := JoinedRead n req x) fun a _ => ?_).congr
      (and_congr_left fun _ => runtimeOnly_joinArgs)
    unfold JoinedRead
    cases hstar : startsWithStar a.wild && !a.hasKeyList with
    | true => exact ContainedIff.pure.congr (by simp)
    | false =>
      refine ContainedIff.bind_ok (fun _ => Yields.dbIterate) ?_
      refine (ContainedIff.ofExcept_of_runtimeOnly (runtimeOnly_elements _) fun join _ =>
        ContainedIff.map (settled_joinLoop _ join _ _)).congr (by simp)

end

/-! ## Searches -/

/-- What an entry gives to a search can be read: its value, and the one it is joined with. -/
structure EntryReads (mapField : Bytes) (e : Entry) : Prop where
  value : RuntimeOnly (entryValue e.2)
  joined : mapField ≠ [] → ∀ v x key value, entryValue e.2 = .ok v → load e.2 = some x →
    (x.field (cstr mapField)).bind RValue.s = .ok key → Finds c n key value →
      RuntimeOnly (loadValue value)

/-- The entries that match a pattern can be read, and `include` is no list with elements. -/
structure EntriesRead [HashOrder] (x : RValue) (wild : Bytes) : Prop where
  includes : ∀ y l, x.field (ascii "include") ≠ .ok (.list (y :: l))
  entries : ∀ map, includeMap x = .ok map → startsWithStar wild = false →
    ∀ e ∈ listed n.db wild req.window, EntryReads c n map.1 e

/-- The arguments and the values of a search can be read. -/
def SearchjsonReads [HashOrder] (x : RValue) : Prop :=
  c.dbOk = true → RuntimeOnly (WValue.ofRValue x) ∧
    ∀ w, WValue.ofRValue x = .ok w → ∀ wild, (x.field (ascii "keys")).bind RValue.s = .ok wild →
      EntriesRead c n req x wild

section

variable {c : Config} {n : Node} {req : Request} {faults : Faults} {mapField mapAs : Bytes}
  {e : Entry}

/-- A list with elements is reread as one, and nothing else is. -/
theorem not_list_reread [HashOrder] {y : RValue} {w : WValue} (h : WValue.ofRValue y = .ok w) :
    (∀ z l, reread w ≠ .list (z :: l)) ↔ ∀ z l, y ≠ .list (z :: l) := by
  cases y with
  | list l =>
    cases l with
    | nil =>
      cases h
      simp [reread_list]
    | cons y l =>
      rw [WValue.ofRValue, WValue.ofElements] at h
      obtain ⟨ws, hws, rfl⟩ := of_map_ok h
      obtain ⟨w, -, hws⟩ := of_bind_ok hws
      obtain ⟨ws', -, rfl⟩ := of_map_ok hws
      simp [reread_list]
  | object o =>
    obtain ⟨fs, -, rfl⟩ := WValue.ofRValue_object h
    simp [reread_object]
  | number token =>
    rw [WValue.ofRValue] at h
    split at h <;> cases h
    simp [reread]
  | _ => cases h; simp [reread]

/-- The part of `includeMap` behind `include`. -/
def filterMap (filter : RValue) : Except Failure (Bytes × Bytes) := do
  let map ← fieldOr filter (ascii "map") (fun map => do
    let field ← (← map.field (ascii "field")).s
    let as ← (← map.field (ascii "as")).s
    return (field, as)) ([], ascii "_includeid")
  let _ ← fieldOr filter (ascii "sortby") (fun y => y.s.map fun _ => ()) ()
  let _ ← fieldOr filter (ascii "des") (fun y => y.b.map fun _ => ()) ()
  return map

theorem includeMap_eq_fieldOr [HashOrder] (x : RValue) : includeMap x =
    fieldOr x (ascii "include") (fun y => do
      let v ← WValue.ofRValue y
      filterMap (← checked (load (dump v)))) ([], ascii "_includeid") := by
  unfold includeMap filterMap fieldOr
  simp only [bind_assoc, ite_bind, map_bind, pure_bind]

theorem runtimeOnly_filterMap {filter : RValue} :
    RuntimeOnly (filterMap filter) ↔ ∀ z l, filter ≠ .list (z :: l) := by
  constructor
  · intro h
    exact runtimeOnly_has.mp (RuntimeOnly.bind.mp (RuntimeOnly.bind.mp h).1).1
  · intro h
    refine RuntimeOnly.bind.mpr ⟨(runtimeOnly_fieldOr h).mpr fun map _ =>
      runtimeOnly_twoTexts map _ _, fun map _ => RuntimeOnly.bind.mpr ⟨?_, fun _ _ =>
        RuntimeOnly.bind.mpr ⟨?_, fun _ _ => trivial⟩⟩⟩
    · exact (runtimeOnly_fieldOr h).mpr fun y _ => RuntimeOnly.map.mpr (runtimeOnly_s y)
    · exact (runtimeOnly_fieldOr h).mpr fun y _ => RuntimeOnly.map.mpr (runtimeOnly_b y)

theorem runtimeOnly_includeMap [HashOrder] {x : RValue} {w : WValue} {o : List (Bytes × RValue)}
    (hx : x = .object o) (hw : WValue.ofRValue x = .ok w) : RuntimeOnly (includeMap x) ↔
      ∀ y l, x.field (ascii "include") ≠ .ok (.list (y :: l)) := by
  have hnamed : ∀ y l, x ≠ .list (y :: l) := by simp [hx]
  rw [includeMap_eq_fieldOr, runtimeOnly_fieldOr hnamed]
  have hread : ∀ y, x.field (ascii "include") = .ok y → (RuntimeOnly (do
      let v ← WValue.ofRValue y
      filterMap (← checked (load (dump v)))) ↔ ∀ z l, y ≠ .list (z :: l)) := by
    intro y hy
    obtain ⟨v, hv, -⟩ := field_reread_ofRValue hw hy
    rw [hv, ← not_list_reread hv, ← runtimeOnly_filterMap]
    change RuntimeOnly (checked (load (dump v)) >>= filterMap) ↔ _
    rw [load_dump]
    exact Iff.rfl
  constructor
  · intro h y l hy
    exact (hread _ hy).mp (h _ hy) y l rfl
  · intro h y hy
    exact (hread y hy).mpr fun z l hyl => h z l (hyl ▸ hy)

theorem joinedValue_safe (h : ∀ x key value, load e.2 = some x →
    (x.field (cstr mapField)).bind RValue.s = .ok key → Finds c n key value →
      RuntimeOnly (loadValue value)) :
    Safe faults (LooksAlike c n) (joinedValue c mapField e) fun _ => True := by
  unfold joinedValue
  have hchecked : RuntimeOnly (checked (load e.2)) := by
    cases load e.2 <;> simp [checked, Failure.isRuntimeError]
  refine (Safe.ofExcept hchecked).bind fun x hx => ?_
  refine (Safe.ofExcept (runtimeOnly_fieldText x _)).bind fun key hkey => ?_
  exact getJson_safe fun value => h x key value (of_checked_ok hx) hkey

theorem searchItems_returns (h : EntryReads c n mapField e) :
    Returns faults (LooksAlike c n) (searchItems c mapField mapAs e) fun _ => True := by
  unfold searchItems
  cases hv : entryValue e.2 with
  | error f =>
    have hf := h.value
    rw [hv, RuntimeOnly.error] at hf
    simp only [hf, if_true]
    exact Returns.pure trivial
  | ok v =>
    simp only
    split
    · exact Returns.pure trivial
    · next hfield =>
      refine (Safe.catchRuntime (Q := fun _ => True) (Safe.bind (joinedValue_safe
        fun x key value => h.joined hfield v x key value hv) fun _ _ => Safe.pure trivial)
          (Returns.pure trivial)).bind fun joined _ => ?_
      split <;> exact Returns.pure trivial

theorem searchItems_raises (h : ¬EntryReads c n mapField e) :
    Raises noFaults (LooksAlike c n) (searchItems c mapField mapAs e) := by
  unfold searchItems
  cases hv : entryValue e.2 with
  | error f =>
    have hf : f.isRuntimeError = false := by
      by_contra hf
      refine h ⟨by rw [hv]; simpa using hf, fun _ v _ _ _ hv' => ?_⟩
      rw [hv] at hv'
      cases hv'
    simp only [hf]
    exact Raises.throw hf
  | ok v =>
    have hjoined : ∃ x key value, mapField ≠ [] ∧ load e.2 = some x ∧
        (x.field (cstr mapField)).bind RValue.s = .ok key ∧ Finds c n key value ∧
          ¬RuntimeOnly (loadValue value) := by
      by_contra hnone
      refine h ⟨by rw [hv]; trivial, fun hfield _ x key value _ hx hkey hfinds => ?_⟩
      by_contra hvalue
      exact hnone ⟨x, key, value, hfield, hx, hkey, hfinds, hvalue⟩
    obtain ⟨x, key, value, hfield, hx, hkey, hfinds, hvalue⟩ := hjoined
    simp only [hfield, if_false]
    refine Raises.bind_left (Raises.catchRuntime (Raises.bind_left ?_))
    unfold joinedValue
    rw [hx]
    refine Raises.bind_settles (Settles.ofExcept (.ok x)) ?_
    rw [hkey]
    exact Raises.bind_settles (Settles.ofExcept (.ok key)) (getJson_raises hfinds hvalue)

theorem settled_searchLoop (es : List Entry) : ContainedIff n (searchLoop c mapField mapAs es)
    (∀ e ∈ es, EntryReads c n mapField e) := by
  constructor
  · intro hreads
    refine (Safe.contained (I := LooksAlike c n) (Q := fun _ => True) fun faults => Returns.safe
      ?_).mono looksAlike_of_eq fun _ _ _ => trivial
    induction es with
    | nil => exact Returns.pure trivial
    | cons e es ih =>
      obtain ⟨he, hes⟩ := List.forall_mem_cons.mp hreads
      exact (searchItems_returns he).bind fun _ _ => (ih hes).bind fun _ _ => Returns.pure trivial
  · intro hreads
    refine ⟨noFaults, Raises.pre (I := LooksAlike c n) ?_ looksAlike_of_eq⟩
    induction es with
    | nil => exact absurd (fun _ h => absurd h List.not_mem_nil) hreads
    | cons e es ih =>
      by_cases he : EntryReads c n mapField e
      · have hrest : Raises noFaults (LooksAlike c n) (searchLoop c mapField mapAs es) :=
          ih fun hes => hreads (List.forall_mem_cons.mpr ⟨he, hes⟩)
        exact Raises.bind_right (searchItems_returns he) fun _ w hw => hrest.bind_left w hw.2
      · exact (searchItems_raises he).bind_left

theorem searchjsonCallback [HashOrder] (h : req.WellFormed) :
    ContainedIff n (routeCoreSearchjsonCallback c req)
      (OnBody req (SearchjsonReads c n req)) := by
  refine settled_withBody h fun x _ => ContainedIff.map ?_
  unfold searchJson SearchjsonReads
  cases hdb : c.dbOk with
  | false =>
    exact ContainedIff.pure.congr (iff_of_true trivial fun h => absurd h Bool.false_ne_true)
  | true =>
    simp only [if_true, forall_const]
    refine ContainedIff.ofExcept fun w hw => ContainedIff.ofExcept_of_runtimeOnly
      (runtimeOnly_fieldText x _) fun wild hwild => ?_
    obtain ⟨y, hy, -⟩ := of_bind_ok hwild
    obtain ⟨o, ho, -⟩ := RValue.field_cases hy
    refine (ContainedIff.ofExcept (C := fun map => startsWithStar wild = false →
      ∀ e ∈ listed n.db wild req.window, EntryReads c n map.1 e) fun map _ => ?_).congr
        ((and_congr_left fun _ => runtimeOnly_includeMap ho hw).trans
          ⟨fun h => ⟨h.1, h.2⟩, fun h => ⟨h.1, h.2⟩⟩)
    cases hstar : startsWithStar wild with
    | true => exact ContainedIff.pure.congr (by simp)
    | false =>
      refine ContainedIff.bind_ok (fun _ => Yields.dbIterate) ?_
      exact (ContainedIff.map (settled_searchLoop _)).congr (by simp)

end

end Routing

end Quarks
