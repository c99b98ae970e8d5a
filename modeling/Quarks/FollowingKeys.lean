import Quarks.Core.After
import Quarks.Json.Fields
import Quarks.WindowLaw

/-!
# The keys after a compare key

`getAfter` steps past the first key that is not smaller than the compare key, whether that
is the compare key or not, and ends at the first key without the prefix. It meets the keys
that it should if the compare key is there and the keys with the prefix follow it directly,
or if it is absent and exactly one key lies between. `getLast` can step back only if its
loop has ended at a key.
-/

namespace Quarks

open Basis

/-- The entries behind the compare key whose key has the prefix. -/
def following (store : Store) (key pre : Bytes) : List Entry := (store.beyond key).withPrefix pre

/-- The entries between the compare key and the first key with the prefix. -/
def between (store : Store) (key pre : Bytes) : List Entry := (store.beyond key).below pre

/-- The loop of `getAfter` starts at the first entry that it should list. -/
def StartsAtFirst (store : Store) (key pre : Bytes) : Prop :=
  if key ∈ store then between store key pre = [] else (between store key pre).length = 1

instance (store : Store) (key pre : Bytes) : Decidable (StartsAtFirst store key pre) :=
  inferInstanceAs (Decidable
    (if key ∈ store then between store key pre = [] else (between store key pre).length = 1))

section

variable {store : Store} {key pre : Bytes} {win : Window}

theorem following_sublist (store : Store) (key pre : Bytes) :
    (following store key pre).Sublist store.entries :=
  List.filter_sublist.trans List.filter_sublist

/-! ## The entries that are met -/

/-- The iterator of both functions, when it has stepped on. -/
theorem exists_startAfter (store : Store) (key : Bytes) :
    ∃ left, startAfter store key = .between left (store.above key).tail := by
  unfold startAfter OrderedMap.seek
  cases store.above key with
  | nil => exact ⟨[], rfl⟩
  | cons e right => exact ⟨store.below key ++ [e], Cursor.next_between _ _ _⟩

theorem afterRange_eq (store : Store) (key pre : Bytes) :
    afterRange store key pre = (store.above key).tail.takeWhile (startsWith pre) := by
  obtain ⟨left, hstart⟩ := exists_startAfter store key
  rw [afterRange, hstart, Cursor.forward_between]

/-- An entry between the compare key and the prefix does not have the prefix. -/
theorem not_startsWith_of_mem_between {e : Entry} (he : e ∈ between store key pre) :
    ¬startsWith pre e = true := by
  intro hpre
  have hlt := (OrderedMap.mem_below.mp he).2
  exact absurd (prefix_le (by simpa [startsWith] using hpre)) hlt.not_ge

/-- The entries behind the compare key: those between, and from the prefix on. -/
theorem beyond_eq (store : Store) (key pre : Bytes) : (store.beyond key).entries =
    between store key pre ++ (store.beyond key).above pre :=
  ((store.beyond key).below_append_above pre).symm

/-- From the prefix on, the entries with the prefix come first. -/
theorem takeWhile_above_following (store : Store) (key pre : Bytes) :
    ((store.beyond key).above pre).takeWhile (startsWith pre) = following store key pre :=
  (store.beyond key).takeWhile_above pre

theorem afterRange_of_startsAtFirst (h : StartsAtFirst store key pre) :
    afterRange store key pre = following store key pre := by
  unfold StartsAtFirst at h
  rw [afterRange_eq, OrderedMap.above_tail, beyond_eq store key pre]
  split at h
  · next hkey =>
    rw [if_pos hkey, h, List.nil_append, takeWhile_above_following]
  · next hkey =>
    obtain ⟨e, he⟩ := List.length_eq_one_iff.mp h
    rw [if_neg hkey, he, List.singleton_append, List.tail_cons, takeWhile_above_following]

/-- Otherwise nothing is met, or the first entry is left out. -/
theorem afterRange_of_not_startsAtFirst (h : ¬StartsAtFirst store key pre) :
    afterRange store key pre = [] ∨
      afterRange store key pre = (following store key pre).tail := by
  unfold StartsAtFirst at h
  have hnone : ∀ e es, (∀ b ∈ e :: es, b ∈ between store key pre) →
      (e :: es ++ (store.beyond key).above pre).takeWhile (startsWith pre) = [] := by
    intro e es hes
    have he := not_startsWith_of_mem_between (hes e List.mem_cons_self)
    rw [List.cons_append, List.takeWhile_cons_of_neg he]
  rw [afterRange_eq, OrderedMap.above_tail, beyond_eq store key pre]
  split at h
  · next hkey =>
    rw [if_pos hkey]
    cases hbetween : between store key pre with
    | nil => exact absurd hbetween h
    | cons e es => exact Or.inl (hnone e es fun b hb => hbetween ▸ hb)
  · next hkey =>
    rw [if_neg hkey]
    cases hbetween : between store key pre with
    | nil =>
      right
      rw [List.nil_append, ← takeWhile_above_following]
      cases habove : (store.beyond key).above pre with
      | nil => rfl
      | cons e es =>
        rw [List.tail_cons]
        by_cases he : startsWith pre e = true
        · rw [List.takeWhile_cons_of_pos he, List.tail_cons]
        · -- what comes after an entry without the prefix has no prefix either
          have hrest := takeWhile_above_following store key pre
          rw [habove, List.takeWhile_cons_of_neg he] at hrest
          rw [List.takeWhile_cons_of_neg he, List.tail_nil, List.takeWhile_eq_nil_iff]
          intro hpos hstarts
          have hmem : es[0] ∈ (store.beyond key).above pre :=
            habove ▸ List.mem_cons_of_mem e (List.getElem_mem hpos)
          have hfollow : es[0] ∈ following store key pre :=
            (OrderedMap.mem_withPrefix _).mpr ⟨(OrderedMap.mem_above.mp hmem).1,
              by simpa [startsWith] using hstarts⟩
          rw [← hrest] at hfollow
          cases hfollow
    | cons e es =>
      rw [hbetween] at h
      cases es with
      | nil => exact absurd rfl h
      | cons e' es =>
        exact Or.inl (hnone e' es fun b hb => hbetween ▸ List.mem_cons_of_mem e hb)

theorem afterRange_sublist (store : Store) (key pre : Bytes) :
    (afterRange store key pre).Sublist (following store key pre) := by
  by_cases hstart : StartsAtFirst store key pre
  · rw [afterRange_of_startsAtFirst hstart]
  · rcases afterRange_of_not_startsAtFirst hstart with hnone | htail
    · rw [hnone]
      exact List.nil_sublist _
    · rw [htail]
      exact List.tail_sublist _

/-! ## Windows -/

/-- The first entry that a window takes is not taken once the entries have moved up. -/
theorem slice_eq_nil_of_tail {es : List Entry} (hes : es.Nodup)
    (h : (win.slice es).Sublist (win.slice es.tail)) : win.slice es = [] := by
  have htail : es.tail.drop win.skip.toNat = (es.drop win.skip.toNat).tail := by
    rw [List.drop_tail, List.tail_drop]
  have hdrop : (es.drop win.skip.toNat).Nodup := hes.sublist (List.drop_sublist _ _)
  unfold Window.slice at h ⊢
  rw [htail] at h
  cases hfirst : es.drop win.skip.toNat with
  | nil => simp
  | cons e rest =>
    rw [hfirst] at h hdrop
    have hnot : e ∉ rest := (List.nodup_cons.mp hdrop).1
    split
    · next hlimit =>
      rw [if_pos hlimit, if_pos hlimit] at h
      exact absurd (h.subset List.mem_cons_self) hnot
    · next hlimit =>
      rw [if_neg hlimit, if_neg hlimit] at h
      cases htake : win.limit.toNat with
      | zero => rfl
      | succ n =>
        rw [htake, List.take_succ_cons] at h
        exact absurd ((h.subset List.mem_cons_self)) fun he => hnot (List.mem_of_mem_take he)

/-- A window that is empty stays so once the entries have moved up. -/
theorem slice_tail_eq_nil {es : List Entry} (h : win.slice es = []) : win.slice es.tail = [] := by
  unfold Window.slice at h ⊢
  rw [List.drop_tail, ← List.drop_drop, List.drop_one]
  split at h
  · next hlimit =>
    rw [if_pos hlimit, h]
    rfl
  · next hlimit =>
    rw [if_neg hlimit]
    rcases List.take_eq_nil_iff.mp h with hzero | hnil
    · rw [hzero, List.take_zero]
    · rw [hnil, List.tail_nil, List.take_nil]

/-- The entries that the loop takes are those of the window exactly if that is empty, or if
the loop starts at the first of them and its counter does not overflow. -/
theorem scan_afterRange_eq_iff (hwin : win.Valid) :
    scan (fun _ => true) win (afterRange store key pre) = win.slice (following store key pre) ↔
      win.slice (following store key pre) = [] ∨
        StartsAtFirst store key pre ∧ win.Fits (following store key pre).length := by
  have hfilter : ∀ es : List Entry, es.filter (fun _ => true) = es := List.filter_true
  have hentries : store.entries.Nodup := List.Nodup.of_map _ store.nodup_keys
  have hnodup := hentries.sublist (following_sublist store key pre)
  by_cases hstart : StartsAtFirst store key pre
  · rw [afterRange_of_startsAtFirst hstart, scan_all_eq_slice_iff hwin]
    simp [hstart]
  · have hsub := @scan_sublist_slice _ (fun _ => true) _ hwin (afterRange store key pre)
    rw [hfilter] at hsub
    constructor
    · intro heq
      left
      rw [heq] at hsub
      rcases afterRange_of_not_startsAtFirst hstart with hnone | htail
      · rw [hnone] at hsub
        simpa [Window.slice] using hsub
      · rw [htail] at hsub
        exact slice_eq_nil_of_tail hnodup hsub
    · rintro (hnil | ⟨h, -⟩)
      · rw [hnil]
        rcases afterRange_of_not_startsAtFirst hstart with hnone | htail
        · rw [hnone]
          rfl
        · rw [htail, slice_tail_eq_nil hnil] at hsub
          rw [htail]
          exact List.sublist_nil.mp hsub
      · exact absurd h hstart

end

/-! ## `getAfter` -/

section

variable (faults : Faults) (c : Config) (w : World) (key pre : Bytes) (win : Window)

/-- `getAfter` gives the entries of the window, read as JSON. -/
def GivesFollowing : Prop := answer faults w (getAfter c key pre win) =
  .ok (true, (win.slice (following w.node.db key pre)).map fun e => keyed e.1 (parsedValue e.2))

end

section

variable {faults : Faults} {c : Config} {w : World} {key pre : Bytes} {win : Window}

@[simp] theorem field?_keyed (key : Bytes) (v : WValue) :
    (keyed key v).field? (ascii "key") = some (.string key) := by
  rw [keyed, WValue.field?_set, if_pos rfl]

/-- The keys tell which entries were listed. -/
theorem keyed_inj {es es' : List Entry} (hes : ∀ e ∈ es, e ∈ w.node.db.entries)
    (hes' : ∀ e ∈ es', e ∈ w.node.db.entries)
    (h : es.map (fun e => keyed e.1 (parsedValue e.2)) =
      es'.map fun e => keyed e.1 (parsedValue e.2)) : es = es' := by
  induction es generalizing es' with
  | nil =>
    cases es' with
    | nil => rfl
    | cons e' es' => cases h
  | cons e es ih =>
    cases es' with
    | nil => cases h
    | cons e' es' =>
      obtain ⟨hhead, htail⟩ := List.cons.inj h
      have hkey := congrArg (fun v => v.field? (ascii "key")) hhead
      simp only [field?_keyed, Option.some.injEq, WValue.string.injEq] at hkey
      have hfind := OrderedMap.find?_eq_some.mpr (hes e List.mem_cons_self)
      rw [hkey, OrderedMap.find?_eq_some.mpr (hes' e' List.mem_cons_self)] at hfind
      rw [Prod.ext hkey (Option.some.inj hfind).symm,
        ih (fun b hb => hes b (List.mem_cons_of_mem e hb))
          (fun b hb => hes' b (List.mem_cons_of_mem e' hb)) htail]

/-- On a store of JSON values `getAfter` gives the window of the entries that follow exactly
if the values in it can be converted and it is empty, or the loop starts at the first of
these entries and its counter does not overflow. -/
theorem getAfter_gives (hdb : c.dbOk = true) (hjson : ∀ e ∈ w.node.db.entries, IsJson e.2)
    (hwin : win.Valid) : GivesFollowing faults c w key pre win ↔
      (win.slice (following w.node.db key pre) = [] ∨ StartsAtFirst w.node.db key pre ∧
        win.Fits (following w.node.db key pre).length) ∧
      ∀ e ∈ win.slice (following w.node.db key pre), Readable e.2 := by
  have hrange : ∀ e ∈ scan (fun _ => true) win (afterRange w.node.db key pre),
      e ∈ w.node.db.entries := by
    intro e he
    rw [scan_eq_selectAt hwin, List.filter_true] at he
    have hrange := (selectAt_sublist _ _).subset he
    exact (following_sublist _ _ _).subset ((afterRange_sublist _ _ _).subset hrange)
  have hslice : ∀ e ∈ win.slice (following w.node.db key pre), e ∈ w.node.db.entries := fun e he =>
    (following_sublist _ _ _).subset ((slice_sublist win _).subset he)
  rw [← scan_afterRange_eq_iff hwin, GivesFollowing, (getAfter_yields hdb w rfl).1,
    collect_keyedItems fun e he => hjson e (hrange e he)]
  constructor
  · intro h
    have heq : scan (fun _ => true) win (afterRange w.node.db key pre) =
        win.slice (following w.node.db key pre) := by
      unfold elements at h
      split at h
      · refine keyed_inj hrange hslice ?_
        simpa using h
      · cases h
    rw [heq, elements_eq_iff] at h
    exact ⟨heq, h⟩
  · rintro ⟨heq, hread⟩
    rw [heq]
    exact elements_eq_iff.mpr hread

/-! ## `getLast` -/

/-- One result for the last of a list of results: its key, its value and its position. -/
def IsLast (after last : List WValue) : Prop :=
  match after.getLast? with
  | none => last = []
  | some a => ∃ e, last = [e] ∧ e.field? (ascii "key") = a.field? (ascii "key") ∧
      e.field? (ascii "value") = a.field? (ascii "value") ∧
      e.field? (ascii "index") = some (.number (Double.ofInt (after.length - 1)))

/-- `getLast` gives the last result of `getAfter`. -/
def GivesLast (faults : Faults) (c : Config) (w : World) (key pre : Bytes) : Prop :=
  ∃ a b after last, answer faults w (getAfter c key pre ⟨0, -1⟩) = .ok (a, after) ∧
    answer faults w (getLast c key pre) = .ok (b, last) ∧ IsLast after last

/-- Some key lies behind those that the loops go through. -/
def EndsInside (store : Store) (key pre : Bytes) : Prop :=
  ∃ e ∈ store.entries, ∀ r ∈ afterRange store key pre, r.1 < e.1

instance (store : Store) (key pre : Bytes) : Decidable (EndsInside store key pre) :=
  inferInstanceAs (Decidable (∃ e ∈ store.entries, ∀ r ∈ afterRange store key pre, r.1 < e.1))

theorem ofInt_inj {a b : ℤ} : Double.ofInt a = Double.ofInt b ↔ a = b := by
  constructor
  · intro h
    obtain ⟨hneg, habs, -⟩ := Double.mk.inj h
    have hneg : a < 0 ↔ b < 0 := by simpa using hneg
    omega
  · rintro rfl
    rfl

/-- A listing gives at least one element for each entry, and no more than that only if each
value can be read. -/
theorem length_collect {es : List Entry} {r : Bool × List WValue}
    (h : collect keyedItems es = .ok r) :
    es.length ≤ r.2.length ∧
      (r.2.length = es.length → ∀ e ∈ es, (entryValue e.2).isOk = true) := by
  induction es generalizing r with
  | nil =>
    cases h
    exact ⟨le_rfl, fun _ e he => by cases he⟩
  | cons e es ih =>
    obtain ⟨first, hfirst, h⟩ := of_bind_ok h
    obtain ⟨rest, hrest, h⟩ := of_bind_ok h
    cases h
    obtain ⟨hle, hread⟩ := ih hrest
    unfold keyedItems at hfirst
    rw [List.length_append, List.length_cons]
    split at hfirst
    · next v hv =>
      cases hfirst
      refine ⟨by simp; omega, fun hlen b hb => ?_⟩
      rcases List.mem_cons.mp hb with rfl | hb
      · rw [hv]
        rfl
      · exact hread (by simp at hlen; omega) b hb
    · split at hfirst
      · cases hfirst
        exact ⟨by simp; omega, fun hlen => by simp at hlen; omega⟩
      · cases hfirst

/-- The results where each value can be read. -/
theorem collect_of_isOk {es : List Entry} (h : ∀ e ∈ es, (entryValue e.2).isOk = true) :
    collect keyedItems es = .ok (true, es.map fun e =>
      keyed e.1 ((entryValue e.2).toOption.getD .null)) := by
  induction es with
  | nil => rfl
  | cons e es ih =>
    obtain ⟨he, hes⟩ := List.forall_mem_cons.mp h
    cases hv : entryValue e.2 with
    | error f =>
      rw [hv] at he
      cases he
    | ok v =>
      have hitems : keyedItems e = .ok (true, [keyed e.1 v]) := by simp only [keyedItems, hv]
      simp only [collect, hitems, ih hes, List.map_cons, hv]
      rfl

/-- Behind the entries that are met there is one exactly if the loop does not end the
iterator. -/
theorem endsInside_iff {store : Store} (hne : afterRange store key pre ≠ []) :
    EndsInside store key pre ↔ (store.above key).tail.dropWhile (startsWith pre) ≠ [] := by
  have hsplit : afterRange store key pre ++ (store.above key).tail.dropWhile (startsWith pre) =
      (store.above key).tail := by
    rw [afterRange_eq, List.takeWhile_append_dropWhile]
  have habove : (store.above key).Pairwise fun a b => a.1 < b.1 := by
    rw [OrderedMap.above_eq_filter]
    exact store.sorted.filter _
  constructor
  · rintro ⟨e, he, hbehind⟩ hdrop
    rw [hdrop, List.append_nil] at hsplit
    obtain ⟨r, hr⟩ := List.exists_mem_of_ne_nil _ hne
    cases hlist : store.above key with
    | nil =>
      rw [hsplit, hlist] at hr
      cases hr
    | cons first rest =>
      rw [hlist, List.tail_cons] at hsplit
      rw [hlist] at habove
      have hr' : r ∈ store.above key := by
        rw [hlist]
        exact List.mem_cons_of_mem first (hsplit ▸ hr)
      have hkey := (OrderedMap.mem_above.mp hr').2.trans (hbehind r hr).le
      have hmem : e ∈ first :: rest := hlist ▸ OrderedMap.mem_above.mpr ⟨he, hkey⟩
      rcases List.mem_cons.mp hmem with rfl | hrest
      · exact absurd ((List.pairwise_cons.mp habove).1 r (hsplit ▸ hr)) (hbehind r hr).asymm
      · exact absurd (hbehind e (hsplit ▸ hrest)) (lt_irrefl _)
  · intro hdrop
    obtain ⟨e, he⟩ := List.exists_mem_of_ne_nil _ hdrop
    have htail : e ∈ (store.above key).tail :=
      hsplit ▸ List.mem_append_right (afterRange store key pre) he
    refine ⟨e, (OrderedMap.mem_above.mp (List.mem_of_mem_tail htail)).1, fun r hr => ?_⟩
    have hsorted := habove.sublist (List.tail_sublist _)
    rw [← hsplit] at hsorted
    exact (List.pairwise_append.mp hsorted).2.2 r hr e he

/-- `getLast` counts the entries that are met and steps back to the last of them, if some
entry lies behind. -/
theorem lastAfter_of_endsInside {store : Store} (hne : afterRange store key pre ≠ [])
    (hcount : 0 < int32 (afterRange store key pre).length) (hinside : EndsInside store key pre) :
    lastAfter store key pre = lastItems (int32 (int32 (afterRange store key pre).length - 1))
      ((afterRange store key pre).getLast hne) := by
  obtain ⟨left, hstart⟩ := exists_startAfter store key
  have hsteps := Cursor.skipWhile_between (startsWith pre) left (store.above key).tail
  rw [← afterRange_eq] at hsteps
  have hentry := Cursor.entry?_prev_between (left ++ afterRange store key pre)
    ((endsInside_iff hne).mp hinside)
  rw [List.getLast?_append_of_ne_nil _ hne, List.getLast?_eq_some_getLast hne] at hentry
  simp only [lastAfter, hstart, hsteps, if_pos hcount, hentry]

/-- Otherwise it gives nothing. -/
theorem lastAfter_of_not_endsInside {store : Store}
    (h : ¬(0 < int32 (afterRange store key pre).length ∧ EndsInside store key pre)) :
    lastAfter store key pre = .ok (true, []) := by
  obtain ⟨left, hstart⟩ := exists_startAfter store key
  have hsteps := Cursor.skipWhile_between (startsWith pre) left (store.above key).tail
  rw [← afterRange_eq] at hsteps
  simp only [lastAfter, hstart, hsteps]
  by_cases hcount : 0 < int32 (afterRange store key pre).length
  · have hne : afterRange store key pre ≠ [] := by
      rintro hnil
      simp [hnil, int32] at hcount
    have hend := not_not.mp (mt (endsInside_iff hne).mpr fun hinside => h ⟨hcount, hinside⟩)
    rw [if_pos hcount, hend]
    rfl
  · rw [if_neg hcount]

theorem whole_window_valid : (Window.mk 0 (-1)).Valid :=
  ⟨by decide, by decide, by decide, by decide⟩

/-- Without a window all entries are taken as long as they can be counted. -/
theorem scan_whole {es : List Entry} (h : es.length ≤ 2 ^ 31) :
    scan (fun _ => true) ⟨0, -1⟩ es = es := by
  have hfits : (Window.mk 0 (-1)).Fits es.length := by simpa [Window.Fits] using h
  rw [scan_all_eq_slice whole_window_valid hfits, whole_slice]

/-- Of more entries at least those are taken that can be counted. -/
theorem min_le_length_scan (es : List Entry) :
    min es.length (2 ^ 31) ≤ (scan (fun _ => true) ⟨0, -1⟩ es).length := by
  have hfirst := @scan_whole (es.take (2 ^ 31)) (by rw [List.length_take]; omega)
  have hsplit := @selectAt_append _ (Window.mk 0 (-1)).holds 0 (es.take (2 ^ 31)) (es.drop (2 ^ 31))
  rw [scan_eq_selectAt whole_window_valid, List.filter_true] at hfirst
  rw [List.take_append_drop] at hsplit
  rw [scan_eq_selectAt whole_window_valid, List.filter_true, hsplit, hfirst, List.length_append,
    List.length_take]
  omega

/-- A single result has the index, and its value has been read. -/
theorem lastItems_singleton {index : ℤ} {e : Entry} {b : Bool} {a : WValue}
    (h : lastItems index e = .ok (b, [a])) :
    a.field? (ascii "index") = some (.number (Double.ofInt index)) := by
  unfold lastItems at h
  split at h
  · cases h
    rw [indexed, WValue.field?_set, if_neg (by decide), WValue.field?_set, if_pos rfl]
  · split at h
    · cases h
    · cases h

/-- `getLast` gives the last result of `getAfter` exactly if no entry is met, or if an entry
lies behind those met, these can be counted, and each of their values can be read. -/
theorem getLast_gives (hdb : c.dbOk = true) : GivesLast faults c w key pre ↔
    afterRange w.node.db key pre = [] ∨ EndsInside w.node.db key pre ∧
      (afterRange w.node.db key pre).length < 2 ^ 31 ∧
      ∀ e ∈ afterRange w.node.db key pre, (entryValue e.2).isOk = true := by
  unfold GivesLast
  rw [(getAfter_yields hdb w rfl).1, (getLast_yields hdb w rfl).1]
  have hlast := @lastAfter_of_endsInside key pre w.node.db
  have hnone := @lastAfter_of_not_endsInside key pre w.node.db
  generalize afterRange w.node.db key pre = range at hlast hnone ⊢
  constructor
  · rintro ⟨a, b, after, last, hafter, hresult, hmatch⟩
    by_cases hnil : range = []
    · exact Or.inl hnil
    right
    have hmin := min_le_length_scan range
    obtain ⟨hlength, hread⟩ := length_collect hafter
    have hpos : 0 < range.length := List.length_pos_of_ne_nil hnil
    have hafter_ne : after ≠ [] := List.ne_nil_of_length_pos (by simp only at hlength; omega)
    simp only [IsLast, List.getLast?_eq_some_getLast hafter_ne] at hmatch
    obtain ⟨e, rfl, -, -, hindex⟩ := hmatch
    by_cases h : 0 < int32 range.length ∧ EndsInside w.node.db key pre
    · obtain ⟨hcount, hinside⟩ := h
      rw [hlast hnil hcount hinside] at hresult
      rw [lastItems_singleton hresult, Option.some.injEq, WValue.number.injEq, ofInt_inj] at hindex
      have hbound := int32_range range.length
      rw [int32_eq_self (by omega)] at hindex
      have hsmall : range.length < 2 ^ 31 := by
        by_contra hlarge
        simp only at hlength
        omega
      rw [scan_whole hsmall.le] at hread
      rw [int32_eq_self (by omega)] at hindex
      exact ⟨hinside, hsmall, hread (by simp only; omega)⟩
    · rw [hnone h] at hresult
      cases hresult
  · intro h
    by_cases hnil : range = []
    · subst hnil
      exact ⟨true, true, [], [], rfl, hnone (by simp [int32]), rfl⟩
    obtain ⟨hinside, hsmall, hread⟩ := h.resolve_left hnil
    have hpos : 0 < range.length := List.length_pos_of_ne_nil hnil
    have hcount : int32 range.length = range.length := int32_eq_self (by omega)
    have hindex : int32 (int32 range.length - 1) = range.length - 1 := by
      rw [hcount, int32_eq_self (by omega)]
    rw [scan_whole hsmall.le, collect_of_isOk hread, hlast hnil (by omega) hinside, hindex]
    have hok := hread _ (List.getLast_mem hnil)
    cases hv : entryValue (range.getLast hnil).2 with
    | error f =>
      rw [hv] at hok
      cases hok
    | ok v =>
      refine ⟨true, true, _, [indexed (range.length - 1) (WValue.null.set (ascii "value") v)
        (range.getLast hnil).1], rfl, by simp only [lastItems, hv], ?_⟩
      simp only [IsLast, List.getLast?_map, List.getLast?_eq_some_getLast hnil, Option.map_some, hv,
        List.length_map]
      refine ⟨_, rfl, ?_, ?_, ?_⟩
      · rw [field?_keyed, indexed, WValue.field?_set, if_pos rfl]
      · simp only [indexed, keyed, WValue.field?_set, if_true]
        rw [if_neg (by decide), if_neg (by decide), if_neg (by decide)]
        rfl
      · rw [indexed, WValue.field?_set, if_neg (by decide), WValue.field?_set, if_pos rfl]

end

/-- The listing after a key that is there, with the prefix behind it. -/
theorem getAfter_gives_a1 : GivesFollowing noFaults uncachedOnly
    (openDB uncachedOnly threeEntries) (ascii "a1") (ascii "a") ⟨0, -1⟩ :=
  (getAfter_gives rfl (by decide +kernel) whole_window_valid).mpr
    ⟨Or.inr ⟨by decide +kernel, by decide +kernel⟩, by decide +kernel⟩

/-- Behind an absent compare key the first entry is left out. -/
theorem not_givesFollowing_absent : ¬GivesFollowing noFaults uncachedOnly
    (openDB uncachedOnly threeEntries) (ascii "a") (ascii "a") ⟨0, -1⟩ := by
  intro h
  have hlength := congrArg (Except.map fun r => r.2.length) h
  revert hlength
  decide +kernel

/-- The last entry behind a key, where another prefix follows. -/
theorem getLast_gives_a1 : GivesLast noFaults uncachedOnly
    (openDB uncachedOnly threeEntries) (ascii "a1") (ascii "a") :=
  (getLast_gives rfl).mpr (Or.inr ⟨by decide +kernel, by decide +kernel, by decide +kernel⟩)

/-- From the last key of the database there is no step back. -/
theorem not_givesLast_end : ¬GivesLast noFaults uncachedOnly
    (openDB uncachedOnly threeEntries) (ascii "a2") (ascii "b") := by
  rintro ⟨a, b, after, last, hafter, hlast, hmatch⟩
  have hone : (answer noFaults (openDB uncachedOnly threeEntries)
      (getAfter uncachedOnly (ascii "a2") (ascii "b") ⟨0, -1⟩)).map (fun r => r.2.length) =
      .ok 1 := by decide +kernel
  have hzero : (answer noFaults (openDB uncachedOnly threeEntries)
      (getLast uncachedOnly (ascii "a2") (ascii "b"))).map (fun r => r.2.length) = .ok 0 := by
    decide +kernel
  rw [hafter] at hone
  rw [hlast] at hzero
  obtain ⟨x, rfl⟩ := List.length_eq_one_iff.mp (Except.ok.inj hone)
  obtain ⟨e, rfl, -⟩ := hmatch
  cases hzero

end Quarks
