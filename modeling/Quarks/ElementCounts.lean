import Quarks.FollowingKeys
import Quarks.CachedListing

/-!
# One element for each entry

A listing of keys and values appends an element for each entry that it takes. If neither the
value nor the value between quotes and brackets is a JSON document, the handler of the exception
appends an element with the error, and then the key follows as an element of its own.
-/

namespace Quarks

open Basis

/-- The entries that `getKeys` or `getKeysReversed` takes, from the cache if it is enabled. -/
def windowEntries (reversed : Bool) (c : Config) (n : Node) (wild : Bytes) (win : Window) :
    Except Failure (List Entry) :=
  if c.cacheEnabled then cachedTaken reversed n.cache wild win
  else if reversed then listedReversed n.db wild win
  else .ok (listed n.db wild win)

/-- The listing gives an element for each of the entries of its window, in their order and with
their keys, and no more than `limit` of them. -/
def OneEach (win : Window) (entries : Except Failure (List Entry))
    (r : Except Failure (Bool × List WValue)) : Prop :=
  ∃ es b items, entries = .ok es ∧ r = .ok (b, items) ∧ items.length ≤ win.limit ∧
    List.Forall₂ (fun (item : WValue) (e : Entry) => item.take (ascii "key") = .string e.1)
      items es

/-- The entries of the window are defined, and each of their values can be read, as it is or
between quotes and brackets. -/
def EntriesReadable (entries : Except Failure (List Entry)) : Prop :=
  ∃ es, entries = .ok es ∧ ∀ e ∈ es, (entryValue e.2).isOk = true

/-! ## How many entries a window has -/

section

variable {accept : Entry → Bool} {win : Window}

/-- The loop over the cache takes what a scan takes, up to where it ends. -/
theorem cachedLoop_isPrefix {atEnd : Except Failure (List Entry)}
    (hend : ∀ taken, atEnd = .ok taken → taken = []) (i : ℤ) {es : List (Entry × Bool)}
    {taken : List Entry} (h : cachedLoop accept win atEnd i es = .ok taken) :
    taken <+: scanFrom accept win i (es.map Prod.fst) := by
  induction es generalizing i taken with
  | nil =>
    rw [hend taken h]
    exact List.nil_prefix
  | cons p es ih =>
    obtain ⟨e, last⟩ := p
    simp only [cachedLoop, List.map_cons, scanFrom] at h ⊢
    by_cases he : accept e = true
    · simp only [he, if_true] at h ⊢
      have hrest : ∀ {rest : List Entry},
          (if (win.stops (int32 (i + 1)) || last) = true then .ok []
            else cachedLoop accept win atEnd (int32 (i + 1)) es) = .ok rest →
          rest <+: if win.stops (int32 (i + 1)) = true then []
            else scanFrom accept win (int32 (i + 1)) (es.map Prod.fst) := by
        intro rest hrest
        split at hrest
        · cases hrest
          exact List.nil_prefix
        · next hgo =>
          rw [if_neg fun hstop => hgo (by simp [hstop])]
          exact ih _ hrest
      by_cases htakes : win.takes (int32 (i + 1)) = true
      · rw [if_pos htakes] at h ⊢
        cases hgo : (if (win.stops (int32 (i + 1)) || last) = true then Except.ok []
            else cachedLoop accept win atEnd (int32 (i + 1)) es : Except Failure (List Entry)) with
        | error f =>
          rw [hgo] at h
          cases h
        | ok rest =>
          rw [hgo] at h
          cases h
          exact (List.prefix_cons_inj e).mpr (hrest hgo)
      · rw [if_neg htakes] at h ⊢
        exact hrest h
    · simp only [he, if_false, Bool.false_eq_true] at h ⊢
      exact ih i h

/-- A scan with a limit takes at most so many entries. -/
theorem length_scan_le (hwin : win.Valid) (hlimit : 0 ≤ win.limit) (es : List Entry) :
    (scan accept win es).length ≤ win.limit := by
  have hle := (@scan_sublist_slice _ accept _ hwin es).length_le
  have hslice : (win.slice (es.filter accept)).length ≤ win.limit.toNat := by
    unfold Window.slice
    rw [if_neg (by omega)]
    exact List.length_take_le _ _
  omega

end

section

variable {c : Config} {n : Node} {wild : Bytes} {win : Window}

theorem length_cachedTaken_le (hwin : win.Valid) (hlimit : 0 ≤ win.limit) {reversed : Bool}
    {cache : Store} {taken : List Entry} (h : cachedTaken reversed cache wild win = .ok taken) :
    taken.length ≤ win.limit := by
  unfold cachedTaken at h
  simp only at h
  split at h
  · cases h
  split at h
  · cases h
  split at h
  · cases h
    simpa using hlimit
  split at h
  · have hprefix := cachedLoop_isPrefix (by cases reversed <;> simp) (-1) h
    have hle := hprefix.length_le
    have hscan := @length_scan_le (accepts wild) win hwin hlimit
    exact (Int.ofNat_le.mpr hle).trans (hscan _)
  · cases h
    simpa using hlimit

/-- No listing takes more entries than its limit. -/
theorem length_windowEntries_le (hwin : win.Valid) (hlimit : 0 ≤ win.limit) {reversed : Bool}
    {es : List Entry} (h : windowEntries reversed c n wild win = .ok es) :
    es.length ≤ win.limit := by
  unfold windowEntries at h
  split at h
  · exact length_cachedTaken_le hwin hlimit h
  split at h
  · unfold listedReversed at h
    split at h
    · cases h
    · cases h
      exact length_scan_le hwin hlimit _
  · cases h
    exact length_scan_le hwin hlimit _

end

/-! ## The elements of a listing -/

section

variable {win : Window}

@[simp] theorem take_key_keyed (key : Bytes) (value : WValue) :
    (keyed key value).take (ascii "key") = .string key := by
  rfl

/-- There is one element for each entry exactly if all values can be read. -/
theorem oneEach_iff {entries : Except Failure (List Entry)}
    (hlimit : ∀ es, entries = .ok es → es.length ≤ win.limit)
    {r : Except Failure (Bool × List WValue)} {g : Bool × List WValue → Bool × List WValue}
    (hg : ∀ x, (g x).2 = x.2)
    (hr : r = (entries.bind (collect keyedItems)).map g) :
    OneEach win entries r ↔ EntriesReadable entries := by
  subst hr
  constructor
  · rintro ⟨es, b, items, rfl, hitems, -, hall⟩
    refine ⟨es, rfl, ?_⟩
    cases hcollect : collect keyedItems es with
    | error f => simp [Except.bind, Except.map, hcollect] at hitems
    | ok x =>
      have hx : g x = (b, items) := by simpa [Except.bind, Except.map, hcollect] using hitems
      have hsame : x.2 = items := by rw [← hg, hx]
      exact (length_collect hcollect).2 (by rw [hsame, hall.length_eq])
  · rintro ⟨es, rfl, hread⟩
    have hcollect := collect_of_isOk hread
    refine ⟨es, (g (true, es.map fun e => keyed e.1 ((entryValue e.2).toOption.getD .null))).1,
      es.map fun e => keyed e.1 ((entryValue e.2).toOption.getD .null), rfl, ?_, ?_, ?_⟩
    · simp only [Except.bind, Except.map, hcollect, Except.ok.injEq]
      exact Prod.ext rfl (hg _)
    · simpa using hlimit es rfl
    · simp

end

section

variable {faults : Faults} {c : Config} {w : World} {wild key pre : Bytes} {win : Window}

/-- What `getKeys` and `getKeysReversed` answer, from the entries that they take. -/
theorem getKeys_windowEntries (hdb : c.dbOk = true) (hstar : startsWithStar wild = false) :
    (∃ g : Bool × List WValue → Bool × List WValue, (∀ x, (g x).2 = x.2) ∧
      answer faults w (getKeys c wild win) =
        ((windowEntries false c w.node wild win).bind (collect keyedItems)).map g) ∧
    ∃ g : Bool × List WValue → Bool × List WValue, (∀ x, (g x).2 = x.2) ∧
      answer faults w (getKeysReversed c wild win) =
        ((windowEntries true c w.node wild win).bind (collect keyedItems)).map g := by
  have hmap : ∀ {r : Except Failure (Bool × List WValue)}, r.map (fun x => x) = r := by
    rintro (f | x) <;> rfl
  cases hcache : c.cacheEnabled with
  | false =>
    refine ⟨⟨fun x => x, fun _ => rfl, ?_⟩, ⟨fun x => x, fun _ => rfl, ?_⟩⟩
    · rw [(getKeys_yields hcache hdb hstar w rfl).1, hmap, windowEntries, hcache]
      rfl
    · rw [(getKeysReversed_yields hcache hdb hstar w rfl).1, hmap, windowEntries, hcache]
      rfl
  | true =>
    have hcached : ∀ reversed : Bool,
        ((getCachedKeys false reversed w.node.cache wild win).bind fun r => .ok (true, r.2)) =
          ((windowEntries reversed c w.node wild win).bind (collect keyedItems)).map
            fun x => (true, x.2) := by
      intro reversed
      unfold windowEntries
      rw [if_pos hcache, getCachedKeys, if_neg (by simp [hstar])]
      cases cachedTaken reversed w.node.cache wild win with
      | error f => rfl
      | ok taken => cases hr : collect keyedItems taken <;>
          simp [bind, Except.bind, Except.map, pure, Except.pure, hr]
    have hreversed : Yields faults w.node (getKeysReversed c wild win)
        ((getCachedKeys false true w.node.cache wild win).bind fun r => .ok (true, r.2)) := by
      unfold getKeysReversed
      rw [hcache]
      exact Yields.bind_ok Yields.cacheIterate
        (Yields.bind (Yields.ofExcept _) fun r _ => Yields.pure _)
    refine ⟨⟨fun x => (true, x.2), fun _ => rfl, ?_⟩, ⟨fun x => (true, x.2), fun _ => rfl, ?_⟩⟩
    · rw [(getKeys_cached_yields hcache w rfl).1, hcached]
    · rw [(hreversed w rfl).1, hcached]

/-- Each of the four listings gives one element for each entry of its window exactly if it can
read the values of these entries. -/
theorem listings_oneEach_iff (hdb : c.dbOk = true) (hstar : startsWithStar wild = false)
    (hwin : win.Valid) (hlimit : 0 ≤ win.limit) :
    (OneEach win (windowEntries false c w.node wild win) (answer faults w (getKeys c wild win)) ↔
      EntriesReadable (windowEntries false c w.node wild win)) ∧
    (OneEach win (windowEntries true c w.node wild win)
        (answer faults w (getKeysReversed c wild win)) ↔
      EntriesReadable (windowEntries true c w.node wild win)) ∧
    (OneEach win (.ok (scan (fun _ => true) win w.node.db.entries))
        (answer faults w (iter c win)) ↔
      EntriesReadable (.ok (scan (fun _ => true) win w.node.db.entries))) ∧
    (OneEach win (.ok (scan (fun _ => true) win (afterRange w.node.db key pre)))
        (answer faults w (getAfter c key pre win)) ↔
      EntriesReadable (.ok (scan (fun _ => true) win (afterRange w.node.db key pre)))) := by
  obtain ⟨⟨g, hg, hforward⟩, ⟨g', hg', hbackward⟩⟩ :=
    @getKeys_windowEntries faults c w wild win hdb hstar
  have hscan : ∀ {entries : List Entry} {es : List Entry},
      (Except.ok (scan (fun _ => true) win entries) : Except Failure (List Entry)) = .ok es →
        es.length ≤ win.limit := by
    intro entries es h
    cases h
    exact length_scan_le hwin hlimit _
  have hsame : ∀ {r : Except Failure (Bool × List WValue)}, r = r.map fun x => x := by
    rintro (f | x) <;> rfl
  refine ⟨?_, ?_, ?_, ?_⟩
  · exact oneEach_iff (fun _ => length_windowEntries_le hwin hlimit) hg hforward
  · exact oneEach_iff (fun _ => length_windowEntries_le hwin hlimit) hg' hbackward
  · exact oneEach_iff (fun _ => hscan) (fun _ => rfl) ((iter_yields hdb w rfl).1.trans hsame)
  · exact oneEach_iff (fun _ => hscan) (fun _ => rfl) ((getAfter_yields hdb w rfl).1.trans hsame)

end

/-- Two values that are no JSON documents: between quotes and brackets only the first is one. -/
def plainTexts : Store :=
  (OrderedMap.empty.insert (ascii "a1") (ascii "x")).insert (ascii "a2") (ascii "\"")

/-- The theorem at a window with the first of them. -/
theorem oneEach_first :
    OneEach ⟨0, 1⟩ (windowEntries false uncachedOnly (openDB uncachedOnly plainTexts).node
        (ascii "a*") ⟨0, 1⟩)
      (answer noFaults (openDB uncachedOnly plainTexts)
        (getKeys uncachedOnly (ascii "a*") ⟨0, 1⟩)) :=
  (@listings_oneEach_iff _ _ _ _ [] [] _ rfl rfl
    ⟨by decide, by decide, by decide, by decide⟩ (by decide)).1.mpr
      ⟨_, rfl, by decide +kernel⟩

/-- The second of them is given two elements. -/
theorem not_oneEach_second :
    ¬OneEach ⟨1, 1⟩ (windowEntries false uncachedOnly (openDB uncachedOnly plainTexts).node
        (ascii "a*") ⟨1, 1⟩)
      (answer noFaults (openDB uncachedOnly plainTexts)
        (getKeys uncachedOnly (ascii "a*") ⟨1, 1⟩)) := by
  rintro ⟨es, b, items, -, hitems, hlimit, -⟩
  have htwo : (answer noFaults (openDB uncachedOnly plainTexts)
      (getKeys uncachedOnly (ascii "a*") ⟨1, 1⟩)).toOption.map (fun r => r.2.length) = some 2 := by
    decide +kernel
  rw [hitems] at htwo
  simp only [Except.toOption, Option.map_some, Option.some.injEq] at htwo
  change (items.length : ℤ) ≤ 1 at hlimit
  omega

end Quarks
