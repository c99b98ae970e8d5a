import Quarks.ReverseListing
import Quarks.CacheCoherence

/-!
# Listings of the cache

`_GetCachedKeys` is a listing of its own. It returns at once if the first entry from
the prefix on is not accepted, even if a later one is. It stops at the last entry
before the incremented prefix only if that entry is accepted; otherwise it goes on
through the keys behind the prefix range. A pattern that starts with a star is
refused without telling so, and with no key before the incremented prefix it steps
back from the start of the map.
-/

namespace Quarks

open Basis

/-! ## The loop -/

section

variable {accept : Entry → Bool} {win : Window}

/-- Where no accepted entry is marked, the loop over the cache is the loop over the database. -/
theorem cachedLoop_unmarked (i : ℤ) {es : List (Entry × Bool)}
    (h : ∀ p ∈ es, p.2 = true → accept p.1 = false) :
    cachedLoop accept win (.ok []) i es = .ok (scanFrom accept win i (es.map Prod.fst)) := by
  induction es generalizing i with
  | nil => rfl
  | cons p es ih =>
    obtain ⟨e, last⟩ := p
    obtain ⟨hp, hes⟩ := List.forall_mem_cons.mp h
    simp only [cachedLoop, List.map_cons, scanFrom, ih _ hes]
    cases he : accept e with
    | false => rfl
    | true =>
      have hlast : last = false := by
        cases last with
        | false => rfl
        | true => exact absurd (hp rfl) (by simp [he])
      subst hlast
      simp only [Bool.or_false, if_true]
      split <;> split <;> rfl

/-- The loop ends with a marked entry that is accepted. -/
theorem cachedLoop_marked (i : ℤ) {es : List (Entry × Bool)} {e : Entry}
    (rest : List (Entry × Bool)) (h : ∀ p ∈ es, p.2 = false) (he : accept e = true) :
    cachedLoop accept win (.ok []) i (es ++ (e, true) :: rest) =
      .ok (scanFrom accept win i (es.map Prod.fst ++ [e])) := by
  induction es generalizing i with
  | nil => simp [cachedLoop, scanFrom, he, Except.map]; split <;> rfl
  | cons p es ih =>
    obtain ⟨e', last⟩ := p
    obtain ⟨hlast, hes⟩ := List.forall_mem_cons.mp h
    simp only at hlast
    subst hlast
    simp only [List.cons_append, cachedLoop, List.map_cons, scanFrom, ih _ hes, Bool.or_false]
    split
    · split <;> split <;> rfl
    · rfl

end

/-- Marking a position before the start marks nothing. -/
theorem markAt_before {mark start : ℕ} (h : mark < start) (es : List Entry) :
    markAt mark start es = es.map fun e => (e, false) := by
  unfold markAt
  induction es generalizing start with
  | nil => rfl
  | cons e es ih =>
    have hne : start ≠ mark := by omega
    rw [List.zipIdx_cons, List.map_cons, List.map_cons, ih (by omega)]
    simp [hne]

/-- Marking the position of an entry. -/
theorem markAt_append (start : ℕ) (es : List Entry) (e : Entry) (es' : List Entry) :
    markAt (start + es.length) start (es ++ e :: es') =
      es.map (fun e => (e, false)) ++ (e, true) :: es'.map fun e => (e, false) := by
  induction es generalizing start with
  | nil =>
    have hafter := markAt_before (show start < start + 1 by omega) es'
    unfold markAt at hafter ⊢
    simp [hafter]
  | cons e' es ih =>
    have hrest := ih (start + 1)
    rw [show start + 1 + es.length = start + (es.length + 1) by omega] at hrest
    unfold markAt at hrest ⊢
    simp [hrest]

/-! ## The entries taken -/

/-- The loop over the cache ends with the prefix range: the last byte of the prefix can be
incremented, and the last key of the range is accepted. -/
def stopsAtEnd (store : Store) (wild : Bytes) : Bool :=
  (starPrefix wild).getLast? ≠ some 255 &&
    (store.withPrefix (starPrefix wild)).getLast?.any (accepts wild)

theorem cachedLoop_markAt {cache : Store} {wild q : Bytes} {a : UInt8} {win : Window}
    (hpre : starPrefix wild = q ++ [a]) (hbelow : cache.below (q ++ [a + 1]) ≠ []) :
    cachedLoop (accepts wild) win (.ok []) (-1)
      (markAt ((cache.below (q ++ [a + 1])).length - 1) (cache.below (q ++ [a])).length
        (cache.above (q ++ [a]))) =
    .ok (scan (accepts wild) win (if stopsAtEnd cache wild then
      cache.withPrefix (q ++ [a]) else cache.above (q ++ [a]))) := by
  have hpos := List.length_pos_iff.mpr hbelow
  have hunmarked : ∀ es : List (Entry × Bool), es.map Prod.fst = cache.above (q ++ [a]) →
      (∀ p ∈ es, p.2 = true → accepts wild p.1 = false) →
      cachedLoop (accepts wild) win (.ok []) (-1) es =
        .ok (scan (accepts wild) win (cache.above (q ++ [a]))) :=
    fun es hes h => hes ▸ cachedLoop_unmarked (-1) h
  -- the mark lies before the prefix range if nothing is between the prefix and the increment
  have hbefore : (cache.below (q ++ [a + 1])).length ≤ (cache.below (q ++ [a])).length →
      cachedLoop (accepts wild) win (.ok []) (-1)
        (markAt ((cache.below (q ++ [a + 1])).length - 1) (cache.below (q ++ [a])).length
          (cache.above (q ++ [a]))) = .ok (scan (accepts wild) win (cache.above (q ++ [a]))) := by
    intro hle
    rw [markAt_before (by omega)]
    refine hunmarked _ (by simp [Function.comp_def]) ?_
    simp
  by_cases ha : a = 255
  · have hstops : stopsAtEnd cache wild = false := by simp [stopsAtEnd, hpre, ha]
    rw [hstops]
    refine hbefore ?_
    rw [OrderedMap.below_eq_filter, OrderedMap.below_eq_filter]
    refine (List.monotone_filter_right _ fun e he => ?_).length_le
    simp only [decide_eq_true_eq] at he ⊢
    exact he.trans (wrapped_lt ha q)
  have hsplit := cache.below_next (byte_covBy ha) (q := q)
  have habove := cache.above_prefix (byte_covBy ha) (q := q)
  rcases List.eq_nil_or_concat (cache.withPrefix (q ++ [a])) with hnil | ⟨es, last, hrange⟩
  · have hstops : stopsAtEnd cache wild = false := by simp [stopsAtEnd, hpre, hnil]
    rw [hstops]
    refine hbefore ?_
    rw [hsplit, hnil, List.append_nil]
  · rw [List.concat_eq_append] at hrange
    have hstops : stopsAtEnd cache wild = accepts wild last := by
      simp [stopsAtEnd, hpre, hrange, ha]
    have hmark : (cache.below (q ++ [a + 1])).length - 1 =
        (cache.below (q ++ [a])).length + es.length := by
      rw [hsplit, hrange]
      simp
    rw [hstops, hmark, habove, hrange, List.append_assoc, List.singleton_append, markAt_append]
    cases hlast : accepts wild last with
    | true =>
      rw [cachedLoop_marked _ _ (by simp) hlast, if_pos rfl, List.map_map]
      simp [Function.comp_def, scan]
    | false =>
      rw [cachedLoop_unmarked _ (by simp [hlast]), if_neg Bool.false_ne_true]
      simp [Function.comp_def, scan]

/-- The entries that `_GetCachedKeys` takes, going forward. -/
theorem cachedTaken_eq {cache : Store} {wild q : Bytes} {a : UInt8} {win : Window}
    (hpre : starPrefix wild = q ++ [a]) (hbelow : cache.below (q ++ [a + 1]) ≠ []) :
    cachedTaken false cache wild win = .ok (match cache.above (starPrefix wild) with
      | [] => []
      | first :: _ =>
        if accepts wild first then
          scan (accepts wild) win (if stopsAtEnd cache wild then
            cache.withPrefix (starPrefix wild) else cache.above (starPrefix wild))
        else []) := by
  have hloop := @cachedLoop_markAt _ _ _ _ win hpre hbelow
  have hlen : (cache.below (q ++ [a + 1])).length ≠ 0 := by simpa using hbelow
  unfold cachedTaken
  simp only [hpre, firstAfterPrefix_append, hlen, if_false, Bool.false_eq_true]
  cases habove : cache.above (q ++ [a]) with
  | nil => simp [markAt]
  | cons first es =>
    rw [habove] at hloop
    have hmet : ∀ mark start, markAt mark start (first :: es) =
        (first, decide (start = mark)) :: markAt mark (start + 1) es := fun _ _ => rfl
    rw [hmet] at hloop ⊢
    simp only [hloop]
    split <;> rfl

/-- The entries of the prefix range that a window selects. -/
def selected (store : Store) (wild : Bytes) (win : Window) : List Entry :=
  selectAt win.holds 0 (matching store wild)

/-- The accepted entries behind the prefix range. -/
def overrun (store : Store) (wild : Bytes) : List Entry :=
  ((store.above (starPrefix wild)).dropWhile (startsWith (starPrefix wild))).filter (accepts wild)

/-- The listing of the cache takes the entries selected: if the first entry from the prefix
on is not accepted, there are none; if it is, the loop ends with the prefix range, or
the window selects nothing behind it. -/
def TakesSelected (store : Store) (wild : Bytes) (win : Window) : Prop :=
  match store.above (starPrefix wild) with
  | [] => True
  | first :: _ =>
    if accepts wild first then stopsAtEnd store wild = true ∨
      selectAt win.holds (matching store wild).length (overrun store wild) = []
    else selected store wild win = []

instance (store : Store) (wild : Bytes) (win : Window) :
    Decidable (TakesSelected store wild win) := by
  unfold TakesSelected
  split
  · exact instDecidableTrue
  · exact inferInstance

theorem listed_eq_selected (store : Store) {wild : Bytes} {win : Window} (h : win.Valid) :
    listed store wild win = selected store wild win := by
  rw [listed, forwardRange_eq, scan_eq_selectAt h]
  rfl

/-- What the listing of the cache takes is what the listing of the database takes, or more,
or nothing. -/
theorem cachedTaken_selected {store : Store} {wild q : Bytes} {a : UInt8} {win : Window}
    (h : win.Valid) (hpre : starPrefix wild = q ++ [a]) (hbelow : store.below (q ++ [a + 1]) ≠ []) :
    ∃ taken, cachedTaken false store wild win = .ok taken ∧
      (taken.Sublist (selected store wild win) ∨ (selected store wild win).Sublist taken) ∧
      (taken = selected store wild win ↔ TakesSelected store wild win) := by
  refine ⟨_, cachedTaken_eq hpre hbelow, ?_⟩
  have habove : store.above (starPrefix wild) = store.withPrefix (starPrefix wild) ++
      (store.above (starPrefix wild)).dropWhile (startsWith (starPrefix wild)) := by
    conv_lhs => rw [← List.takeWhile_append_dropWhile (p := startsWith (starPrefix wild))
      (l := store.above (starPrefix wild))]
    rw [← OrderedMap.takeWhile_above]
    rfl
  have hscan := @scan_eq_selectAt _ (accepts wild) _ h (store.withPrefix (starPrefix wild))
  have happend := @scan_append_eq_iff _ (accepts wild) _ h (store.withPrefix (starPrefix wild))
    ((store.above (starPrefix wild)).dropWhile (startsWith (starPrefix wild)))
  unfold TakesSelected
  cases hfirst : store.above (starPrefix wild) with
  | nil =>
    have hnil : store.withPrefix (starPrefix wild) = [] := by
      rw [← OrderedMap.takeWhile_above, hfirst]
      rfl
    have hselected : selected store wild win = [] := by simp [selected, matching, hnil, selectAt]
    simp [hselected]
  | cons first es =>
    simp only
    by_cases hacc : accepts wild first = true
    · simp only [hacc, if_true]
      by_cases hstops : stopsAtEnd store wild = true
      · simp only [hstops, if_true, true_or, iff_true]
        exact ⟨Or.inl (hscan ▸ List.Sublist.refl _), hscan⟩
      · simp only [hstops, if_false, Bool.false_eq_true, false_or]
        rw [← hfirst, habove]
        refine ⟨Or.inr ?_, ?_⟩
        · rw [scan_eq_selectAt h, List.filter_append, selectAt_append]
          exact List.sublist_append_left _ _
        · rw [hscan] at happend
          exact happend
    · simp only [hacc, if_false, Bool.false_eq_true]
      exact ⟨Or.inl (List.nil_sublist _), eq_comm⟩

/-! ## The answers in both modes -/

section

variable {faults : Faults} {n : Node} {c : Config} {wild : Bytes} {win : Window}
  (hcache : c.cacheEnabled = true)
include hcache

theorem getKeys_cached_yields : Yields faults n (getKeys c wild win)
    ((getCachedKeys false false n.cache wild win).bind fun r => .ok (true, r.2)) := by
  unfold getKeys
  rw [hcache]
  exact Yields.bind_ok Yields.cacheIterate
    (Yields.bind (Yields.ofExcept _) fun r _ => Yields.pure _)

theorem getKeysText_cached_yields {out : Bytes} : Yields faults n (getKeysText c wild out win)
    ((getCachedKeysText false false n.cache wild out win).bind fun r => .ok (true, r.2)) := by
  unfold getKeysText
  rw [hcache]
  exact Yields.bind_ok Yields.cacheIterate
    (Yields.bind (Yields.ofExcept _) fun r _ => Yields.pure _)

theorem getKeysReversedText_cached_yields {out : Bytes} :
    Yields faults n (getKeysReversedText c wild out win)
      ((getCachedKeysText false true n.cache wild out win).bind fun r => .ok (true, r.2)) := by
  unfold getKeysReversedText
  rw [hcache]
  exact Yields.bind_ok Yields.cacheIterate
    (Yields.bind (Yields.ofExcept _) fun r _ => Yields.pure _)

theorem getCount_cached_yields {out : ℤ} : Yields faults n (getCount c wild out win)
    ((getCachedKeys true false n.cache wild win).bind fun r => .ok (true, r.1)) := by
  unfold getCount
  rw [hcache]
  exact Yields.bind_ok Yields.cacheIterate
    (Yields.bind (Yields.ofExcept _) fun r _ => Yields.pure _)

end

/-- Reading a stored value ends with an exception that a listing catches. -/
def unreadable (value : Bytes) : Bool :=
  match entryValue value with
  | .ok _ => false
  | .error f => f.isRuntimeError

/-- Reading a stored value ends with an exception that no listing catches. -/
def raises (value : Bytes) : Bool :=
  match entryValue value with
  | .ok _ => false
  | .error f => !f.isRuntimeError

theorem keyedItems_cases (e : Entry) :
    (raises e.2 = true ∧ ∃ f, keyedItems e = .error f) ∨
      (raises e.2 = false ∧ ∃ items, keyedItems e = .ok (!unreadable e.2, items)) := by
  unfold keyedItems raises unreadable
  cases entryValue e.2 with
  | ok v => exact Or.inr ⟨rfl, _, rfl⟩
  | error f =>
    cases hf : f.isRuntimeError with
    | true => exact Or.inr ⟨by simp [hf], _, by simp only [hf, if_true]; rfl⟩
    | false => exact Or.inl ⟨by simp [hf], f, by simp [hf]⟩

/-- A listing raises an exception if one of its entries does, and else tells whether it
could read them all. -/
theorem collect_keyedItems_cases (es : List Entry) :
    (es.any (fun e => raises e.2) = true ∧ ∃ f, collect keyedItems es = .error f) ∨
      (es.any (fun e => raises e.2) = false ∧
        ∃ items, collect keyedItems es = .ok (es.all fun e => !unreadable e.2, items)) := by
  induction es with
  | nil => exact Or.inr ⟨rfl, [], rfl⟩
  | cons e es ih =>
    rw [List.any_cons, List.all_cons, collect]
    rcases keyedItems_cases e with ⟨hraises, f, hf⟩ | ⟨hraises, items, hitems⟩
    · rw [hraises, hf]
      exact Or.inl ⟨rfl, f, rfl⟩
    · rw [hraises, hitems, Bool.false_or]
      rcases ih with ⟨hany, f, hf⟩ | ⟨hany, rest, hrest⟩
      · rw [hf]
        exact Or.inl ⟨hany, f, rfl⟩
      · rw [hrest]
        exact Or.inr ⟨hany, _, rfl⟩

/-- The listing of the cache answers `true` even if it could not read all values. -/
theorem collect_keyedItems_flag (es : List Entry) :
    ((collect keyedItems es).bind fun r => .ok (true, r.2)) = collect keyedItems es ↔
      es.any (fun e => raises e.2) = true ∨ es.all (fun e => !unreadable e.2) = true := by
  rcases collect_keyedItems_cases es with ⟨hany, f, hf⟩ | ⟨hany, items, hitems⟩
  · simp [hany, hf, Except.bind]
  · simp only [hany, hitems, Except.bind, Bool.false_eq_true, false_or]
    cases es.all fun e => !unreadable e.2 <;> simp

section

variable (faults : Faults) (c : Config)

/-- The listings answer in cached mode what they answer in uncached mode. -/
structure ListsAlike (w : World) (wild : Bytes) (win : Window) : Prop where
  getKeys : answer faults w (getKeys (c.withCache true) wild win) =
    answer faults w (getKeys (c.withCache false) wild win)
  getKeysText : ∀ out, answer faults w (getKeysText (c.withCache true) wild out win) =
    answer faults w (getKeysText (c.withCache false) wild out win)
  getCount : ∀ out, answer faults w (getCount (c.withCache true) wild out win) =
    answer faults w (getCount (c.withCache false) wild out win)

end

/-- The cache serves a listing: the pattern does not start with a star, some key is
smaller than the incremented prefix, the entries taken are those selected, they can be
counted, and their values are read, or raise an exception that nobody catches. -/
structure CacheServes (store : Store) (wild : Bytes) (win : Window) : Prop where
  star : startsWithStar wild = false
  below : ∀ after, firstAfterPrefix (starPrefix wild) = some after → store.below after ≠ []
  taken : TakesSelected store wild win
  count : (selected store wild win).length < 2 ^ 31
  read : (selected store wild win).any (fun e => raises e.2) = true ∨
    (selected store wild win).all (fun e => !unreadable e.2) = true

section

variable {store : Store} {wild : Bytes} {win : Window}

/-- Where the cache takes some entries, its listings answer with these. -/
theorem cachedAnswers {taken : List Entry} (hstar : startsWithStar wild = false)
    (h : cachedTaken false store wild win = .ok taken) :
    ((getCachedKeys false false store wild win).bind fun r => .ok (true, r.2)) =
        (collect keyedItems taken).bind (fun r => .ok (true, r.2)) ∧
      (∀ out, ((getCachedKeysText false false store wild out win).bind fun r => .ok (true, r.2)) =
        .ok (true, resultText taken)) ∧
      ((getCachedKeys true false store wild win).bind fun r => .ok (true, r.1)) =
        .ok (true, int32 taken.length) := by
  simp only [getCachedKeys, getCachedKeysText, hstar, h]
  refine ⟨?_, fun out => ?_, ?_⟩
  · cases hr : collect keyedItems taken <;>
      simp [bind, Except.bind, Except.map, pure, Except.pure, hr]
  · simp [bind, Except.bind, pure, Except.pure]
  · simp [bind, Except.bind, pure, Except.pure]

/-- With no key before the incremented prefix the listings of the cache have no answer. -/
theorem cachedTaken_undefined {after : Bytes}
    (hafter : firstAfterPrefix (starPrefix wild) = some after)
    (hbelow : store.below after = []) :
    cachedTaken false store wild win = .error .undefined := by
  simp [cachedTaken, hafter, hbelow]

end

section

variable {faults : Faults} {c : Config} {w : World} {wild : Bytes} {win : Window}
  (hdb : c.dbOk = true) (hw : Coherent w.node) (hne : wild ≠ []) (hwin : win.Valid)
include hdb hw hne hwin

/-- Both modes give the same answers exactly under that condition. -/
theorem listsAlike_iff_cacheServes :
    ListsAlike faults c w wild win ↔ CacheServes w.node.db wild win := by
  have hcached : w.node.cache = w.node.db := hw
  have hkeys := (@getKeys_cached_yields faults w.node (c.withCache true) wild win rfl w rfl).1
  have htext := fun out =>
    (@getKeysText_cached_yields faults w.node (c.withCache true) wild win rfl out w rfl).1
  have hcount := fun out =>
    (@getCount_cached_yields faults w.node (c.withCache true) wild win rfl out w rfl).1
  rw [hcached] at hkeys hcount
  simp only [hcached] at htext
  by_cases hstar : startsWithStar wild = true
  · refine iff_of_false (fun h => ?_) fun h => by simp [h.star] at hstar
    have huncached : answer faults w (getKeys (c.withCache false) wild win) = .ok (false, []) := by
      have hscan : ∀ {α : Type} (l : Store → Except Failure α),
          scanDb (c.withCache false) wild l = return none := by
        intro α l
        simp [scanDb, hstar]
      unfold getKeys
      rw [hscan]
      rfl
    have hanswer := h.getKeys
    rw [hkeys, huncached, getCachedKeys, if_pos hstar] at hanswer
    cases hanswer
  rw [Bool.not_eq_true] at hstar
  obtain ⟨q, a, hpre⟩ := exists_starPrefix_append hne hstar
  have hafter : firstAfterPrefix (starPrefix wild) = some (q ++ [a + 1]) := by
    rw [hpre, firstAfterPrefix_append]
  have hukeys := (@getKeys_yields faults w.node (c.withCache false) wild win rfl hdb hstar w rfl).1
  have hutext := fun out =>
    (@getKeysText_yields faults w.node (c.withCache false) wild win rfl hdb hstar out w rfl).1
  have hucount := fun out =>
    (@getCount_yields faults w.node (c.withCache false) wild win rfl hdb hstar out w rfl).1
  rw [listed_eq_selected _ hwin] at hukeys
  simp only [listed_eq_selected _ hwin] at hutext hucount
  by_cases hbelow : w.node.db.below (q ++ [a + 1]) = []
  · refine iff_of_false (fun h => ?_) fun h => h.below _ hafter hbelow
    have hanswer := h.getKeysText []
    rw [htext, hutext, getCachedKeysText, cachedTaken_undefined hafter hbelow, hstar] at hanswer
    cases hanswer
  obtain ⟨taken, htaken, hsub, hiff⟩ := cachedTaken_selected hwin hpre hbelow
  obtain ⟨hckeys, hctext, hccount⟩ := cachedAnswers hstar htaken
  constructor
  · rintro ⟨hgetKeys, hgetText, hgetCount⟩
    have heq : taken = selected w.node.db wild win := by
      have hanswer := hgetText []
      rw [htext, hutext, hctext] at hanswer
      have hresult : resultText taken = resultText (selected w.node.db wild win) := by
        simpa using hanswer
      rcases hsub with hsub | hsub
      · exact resultText_sublist hsub hresult
      · exact (resultText_sublist hsub hresult.symm).symm
    refine ⟨hstar, ?_, hiff.mp heq, ?_, ?_⟩
    · intro after hafter'
      rw [hafter] at hafter'
      cases hafter'
      exact hbelow
    · have hanswer := hgetCount 0
      rw [hcount, hucount, hccount, heq] at hanswer
      exact int32_eq_iff.mp (by simpa using hanswer)
    · rw [hkeys, hukeys, hckeys, heq] at hgetKeys
      exact (collect_keyedItems_flag _).mp hgetKeys
  · rintro ⟨-, -, htakes, hlen, hread⟩
    have heq := hiff.mpr htakes
    refine ⟨?_, fun out => ?_, fun out => ?_⟩
    · rw [hkeys, hukeys, hckeys, heq]
      exact (collect_keyedItems_flag _).mpr hread
    · rw [htext, hutext, hctext, heq]
    · rw [hcount, hucount, hccount, heq, int32_eq_iff.mpr hlen]

end

/-- The theorem at a pattern whose matching keys start the prefix range and end it. -/
theorem listsAlike_threeEntries : ListsAlike noFaults cachedOnly
    (openDB cachedOnly threeEntries) (ascii "a*") ⟨0, -1⟩ := by
  have hbelow : ∀ after, firstAfterPrefix (starPrefix (ascii "a*")) = some after →
      threeEntries.below after ≠ [] := by
    intro after hafter
    have hb : some (ascii "b") = some after := hafter
    cases hb
    decide +kernel
  exact (listsAlike_iff_cacheServes rfl (openDB_coherent rfl threeEntries) (by decide)
    ⟨by decide, by decide, by decide, by decide⟩).mpr
      ⟨by decide, hbelow, by decide +kernel, by decide +kernel, by decide +kernel⟩

/-- Two keys with the prefix `a`, of which a pattern accepts the second one only. -/
def firstRefused : Store :=
  (OrderedMap.empty.insert (ascii "aa") (ascii "1")).insert (ascii "az") (ascii "2")

/-- The listing of the cache returns at the first key, as it is not accepted. -/
theorem not_listsAlike_firstRefused : ¬ListsAlike noFaults cachedOnly
    (openDB cachedOnly firstRefused) (ascii "a*z") ⟨0, -1⟩ := by
  rintro ⟨-, htext, -⟩
  have h := htext []
  revert h
  decide +kernel

end Quarks
