import Quarks.CachedIterators

/-!
# Listings of the cache that stay inside the map

A listing of the cache uses its iterators where that is defined, and ends, exactly if some key
stands before the incremented prefix and, backwards, the loop stops before the start of the map.
The overload that fills a vector has one more iterator to read: the log of an exception reads the
first entry from the prefix on, which need not be there.
-/

namespace Quarks

open Basis

/-! ## The listings -/

/-- The entries that the loop accepts backwards, in the order in which it meets them. The first
entry that is not smaller than the prefix is marked. -/
def acceptedBackward (cache : Store) (wild after : Bytes) : List (Entry × Bool) :=
  (markAt (cache.below (starPrefix wild)).length 0 (cache.below after)).reverse.filter
    fun p => accepts wild p.1

/-- Backwards the loop comes to an accepted entry at which it stops: the one that is marked, the
one at the end of the window, or one whose value raises an exception that is not caught. If no key
stands behind the smaller ones, no exception is caught before that. -/
def StopsInside (fills : Bool) (cache : Store) (wild after : Bytes) (win : Window) : Prop :=
  ∃ (k : ℕ) (p : Entry × Bool), (acceptedBackward cache wild after)[k]? = some p ∧
    (p.2 = true ∨ win.stops (int32 k) = true ∨
      fills = true ∧ win.takes (int32 k) = true ∧ raises p.1.2 = true) ∧
    ∀ j ≤ k, ∀ q, (acceptedBackward cache wild after)[j]? = some q →
      fills = true → win.takes (int32 j) = true → unreadable q.1.2 = true →
        cache.above (starPrefix wild) ≠ []

/-- The listing of the cache stays inside the map: some key stands before the incremented prefix,
and backwards the first entry is refused or the loop comes to something to stop at. -/
structure ScansInside (fills reversed : Bool) (cache : Store) (wild after : Bytes)
    (win : Window) : Prop where
  below : cache.below after ≠ []
  backward : reversed = true →
    (∃ e ∈ (cache.below after).getLast?, accepts wild e = false) ∨
      StopsInside fills cache wild after win

section

variable {cache : Store} {wild after : Bytes} {win : Window}

theorem guarded_cachedStart (reversed : Bool) :
    Guarded cache.entries.length (cachedStart reversed cache wild) := by
  have hfirst : ∀ starts itBegin, Guarded cache.entries.length
      (if itBegin = cache.entries.length then pure (some starts) else do
        let first ← dereference cache.entries itBegin
        if accepts wild first then pure (some starts) else pure none :
          Traced IteratorUse (Option (ℕ × ℕ × ℕ))) := by
    intro starts itBegin
    split
    · exact guarded_pure _
    · refine (guarded_dereference _ _).bind fun first => ?_
      split <;> exact guarded_pure _
  unfold cachedStart
  split
  · exact guarded_goWrong
  cases reversed with
  | false => exact (guarded_pure _).bind fun itBegin =>
      (guarded_decrement _).bind fun itEnd => hfirst _ itBegin
  | true => exact (guarded_decrement _).bind fun itBegin =>
      (guarded_pure _).bind fun itEnd => hfirst _ itBegin

variable (cache) in
/-- The first entry that is not smaller than a key. -/
theorem getElem?_length_below (k : Bytes) :
    cache.entries[(cache.below k).length]? = (cache.above k).head? := by
  rw [← cache.below_append_above k, List.getElem?_append_right (le_refl _), Nat.sub_self,
    List.head?_eq_getElem?]

variable (cache) in
theorem length_below_add_above (k : Bytes) :
    (cache.below k).length + (cache.above k).length = cache.entries.length := by
  rw [← List.length_append, cache.below_append_above]

theorem entries_take_below : cache.entries.take (cache.below after).length = cache.below after := by
  rw [← cache.below_append_above after, List.take_left']
  rfl

variable (hafter : firstAfterPrefix (starPrefix wild) = some after)
include hafter

/-- Nothing can be done if no key stands before the incremented prefix. -/
theorem cachedStart_wrong (reversed : Bool) (hbelow : cache.below after = []) :
    (cachedStart reversed cache wild).result = none := by
  unfold cachedStart
  simp only [hafter, hbelow]
  cases reversed <;> simp [Traced.result_bind]

/-- Forwards the loop starts at the first entry from the prefix on. -/
theorem cachedStart_forward (hbelow : cache.below after ≠ []) :
    (cachedStart false cache wild).result =
      some (if ∃ e ∈ (cache.above (starPrefix wild)).head?, accepts wild e = false then none
        else some ((cache.below (starPrefix wild)).length, (cache.below (starPrefix wild)).length,
          (cache.below after).length - 1)) := by
  have hpos := List.length_pos_iff.mpr hbelow
  have hsplit := length_below_add_above cache (starPrefix wild)
  have hfirst := getElem?_length_below cache (starPrefix wild)
  unfold cachedStart
  simp only [hafter, Bool.false_eq_true, if_false, Traced.result_bind, result_decrement,
    Traced.result_pure, Option.bind_some, if_neg (Nat.pos_iff_ne_zero.mp hpos)]
  cases habove : cache.above (starPrefix wild) with
  | nil =>
    rw [habove, List.length_nil, Nat.add_zero] at hsplit
    simp [hsplit]
  | cons first rest =>
    rw [habove, List.length_cons] at hsplit
    rw [habove, List.head?_cons] at hfirst
    rw [if_neg (by omega), Traced.result_bind, result_dereference, hfirst, Option.bind_some]
    cases haccepts : accepts wild first <;> simp [haccepts]

/-- Backwards it starts at the last entry before the incremented prefix. -/
theorem cachedStart_backward (hbelow : cache.below after ≠ []) :
    (cachedStart true cache wild).result =
      some (if ∃ e ∈ (cache.below after).getLast?, accepts wild e = false then none
        else some ((cache.below (starPrefix wild)).length, (cache.below after).length - 1,
          (cache.below (starPrefix wild)).length)) := by
  have hpos := List.length_pos_iff.mpr hbelow
  have hsplit := length_below_add_above cache after
  have hlast : cache.entries[(cache.below after).length - 1]? =
      some ((cache.below after).getLast hbelow) := by
    rw [← cache.below_append_above after, List.getElem?_append_left (by omega),
      ← List.getLast?_eq_getElem?, List.getLast?_eq_some_getLast hbelow]
  unfold cachedStart
  simp only [hafter, if_true, Traced.result_bind, result_decrement, Traced.result_pure,
    Option.bind_some, if_neg (Nat.pos_iff_ne_zero.mp hpos)]
  rw [if_neg (by omega), Traced.result_bind, result_dereference, hlast, Option.bind_some,
    List.getLast?_eq_some_getLast hbelow]
  cases haccepts : accepts wild ((cache.below after).getLast hbelow) <;> simp [haccepts]

end

section

variable {σ β : Type} {fills reversed : Bool} {cache : Store} {wild : Bytes} {win : Window}
  {starred refused : β} {take : ℕ → Entry → σ → Traced IteratorUse (Except Failure σ)} {s : σ}
  {close : σ → β}

theorem result_cachedListing (hstar : startsWithStar wild = false) (turns : ℕ) :
    (cachedListing reversed cache wild win starred refused take s close turns).result =
      (cachedStart reversed cache wild).result.bind fun start =>
        start.elim (some (some (.ok refused))) fun places =>
          (cachedTurns reversed cache wild win (take places.1) places.2.2 turns places.2.1 (-1)
            s).result.map (Option.map (Except.map close)) := by
  unfold cachedListing
  rw [if_neg (by simp [hstar]), Traced.result_bind]
  refine congrArg _ (funext fun start => ?_)
  cases start with
  | none => rfl
  | some places =>
    simp only [Traced.result_bind, Option.elim_some]
    cases (cachedTurns reversed cache wild win (take places.1) places.2.2 turns places.2.1 (-1)
      s).result <;> rfl

theorem guarded_cachedListing
    (hguarded : ∀ prefixedBeginIt e s, Guarded cache.entries.length (take prefixedBeginIt e s))
    (turns : ℕ) : Guarded cache.entries.length
      (cachedListing reversed cache wild win starred refused take s close turns) := by
  unfold cachedListing
  split
  · exact guarded_pure _
  refine (guarded_cachedStart reversed).bind fun start => ?_
  cases start with
  | none => exact guarded_pure _
  | some places =>
    exact (guarded_cachedTurns (hguarded places.1) _ _ _ _).bind fun r => guarded_pure _

theorem result_cachedListing_mono {turns turns' : ℕ} (hle : turns ≤ turns')
    (hended : (cachedListing reversed cache wild win starred refused take s close turns).result ≠
      some none) :
    (cachedListing reversed cache wild win starred refused take s close turns').result =
      (cachedListing reversed cache wild win starred refused take s close turns).result := by
  cases hstar : startsWithStar wild with
  | true =>
    unfold cachedListing
    rw [if_pos hstar, if_pos hstar]
  | false =>
    rw [result_cachedListing hstar] at hended ⊢
    rw [result_cachedListing hstar]
    cases hstart : (cachedStart reversed cache wild).result with
    | none => rfl
    | some start =>
      cases start with
      | none => rfl
      | some places =>
        rw [hstart, Option.bind_some, Option.elim_some] at hended
        rw [Option.bind_some, Option.bind_some, Option.elim_some, Option.elim_some,
          result_cachedTurns_mono hle]
        intro hnone
        rw [hnone] at hended
        exact hended rfl

/-- A listing that starts ends with its loop. -/
theorem ends_cachedListing_iff (hstar : startsWithStar wild = false) {places : ℕ × ℕ × ℕ}
    (hstart : (cachedStart reversed cache wild).result = some (some places)) :
    (∃ turns r, (cachedListing reversed cache wild win starred refused take s close turns).result =
        some (some r)) ↔
      ∃ turns r, (cachedTurns reversed cache wild win (take places.1) places.2.2 turns places.2.1
        (-1) s).result = some (some r) := by
  simp only [result_cachedListing hstar, hstart, Option.bind_some, Option.elim_some]
  refine exists_congr fun turns => ?_
  cases hturns : (cachedTurns reversed cache wild win (take places.1) places.2.2 turns places.2.1
      (-1) s).result with
  | none => simp
  | some r => cases r <;> simp

variable (htake : TakesAs (take (cache.below (starPrefix wild)).length)
    (fun e => fills && unreadable e.2 && (cache.above (starPrefix wild)).isEmpty)
    (fun e => fills && raises e.2))
include htake

/-- Backwards a loop that starts ends exactly if it comes to something to stop at. -/
theorem backward_ends_iff {after : Bytes} (hbelow : cache.below after ≠ []) :
    (∃ turns r, (cachedTurns true cache wild win (take (cache.below (starPrefix wild)).length)
        (cache.below (starPrefix wild)).length turns ((cache.below after).length - 1) (-1)
          s).result = some (some r)) ↔
      StopsInside fills cache wild after win := by
  have hpos := List.length_pos_iff.mpr hbelow
  have hsplit := length_below_add_above cache after
  have hmet : cache.entries.take ((cache.below after).length - 1 + 1) = cache.below after := by
    rw [Nat.sub_add_cancel hpos, entries_take_below]
  have hends : ∀ {turns r}, (cachedTurns true cache wild win
        (take (cache.below (starPrefix wild)).length) (cache.below (starPrefix wild)).length turns
          ((cache.below after).length - 1) (-1) s).result = some (some r) → _ :=
    fun h => stopsAmong_of_ends htake (by omega) h
  rw [hmet] at hends
  have hstops := @ends_of_stopsAmong σ cache wild win _ _ _ (cache.below (starPrefix wild)).length
    ((cache.below after).length - 1) (-1) s htake (by omega)
  rw [hmet] at hstops
  have hboth : (∃ turns r, (cachedTurns true cache wild win
      (take (cache.below (starPrefix wild)).length) (cache.below (starPrefix wild)).length turns
        ((cache.below after).length - 1) (-1) s).result = some (some r)) ↔ _ :=
    ⟨fun ⟨_, _, h⟩ => hends h, hstops⟩
  rw [hboth, stopsAmong_iff]
  unfold StopsInside acceptedBackward
  have hnumber : ∀ k : ℕ, (-1 + 1 + k : ℤ) = k := fun k => by omega
  simp only [hnumber]
  refine exists_congr fun k => exists_congr fun p => and_congr_right fun _ => and_congr ?_ ?_
  · cases p.2 <;> cases win.stops (int32 k) <;> cases fills <;> cases win.takes (int32 k) <;> simp
  · refine forall_congr' fun j => forall_congr' fun _ => forall_congr' fun q =>
      forall_congr' fun _ => ?_
    cases fills <;> cases win.takes (int32 j) <;> cases unreadable q.1.2 <;> simp

/-- The listing of the cache stays inside the map exactly under that condition. -/
theorem cachedListing_iteratesInBounds_iff (hwild : wild ≠ [])
    (hguarded : ∀ prefixedBeginIt e s, Guarded cache.entries.length (take prefixedBeginIt e s)) :
    IteratesInBounds cache.entries.length
        (cachedListing reversed cache wild win starred refused take s close) ↔
      startsWithStar wild = true ∨ ∃ after, firstAfterPrefix (starPrefix wild) = some after ∧
        ScansInside fills reversed cache wild after win := by
  rw [iteratesInBounds_iff (guarded_cachedListing hguarded) fun _ _ => result_cachedListing_mono]
  cases hstar : startsWithStar wild with
  | true =>
    refine iff_of_true ⟨0, .ok starred, ?_⟩ (Or.inl rfl)
    rw [cachedListing, if_pos hstar]
    rfl
  | false =>
    obtain ⟨after, hafter⟩ : ∃ after, firstAfterPrefix (starPrefix wild) = some after := by
      rw [firstAfterPrefix, List.getLast?_eq_some_getLast (starPrefix_ne_nil hwild hstar)]
      exact ⟨_, rfl⟩
    have hinside : (false = true ∨ ∃ after', firstAfterPrefix (starPrefix wild) = some after' ∧
          ScansInside fills reversed cache wild after' win) ↔
        ScansInside fills reversed cache wild after win := by
      simp [hafter]
    rw [hinside]
    by_cases hbelow : cache.below after = []
    · refine iff_of_false ?_ fun h => h.below hbelow
      rintro ⟨turns, r, hr⟩
      rw [result_cachedListing hstar, cachedStart_wrong hafter reversed hbelow] at hr
      cases hr
    cases reversed with
    | false =>
      refine iff_of_true ?_ ⟨hbelow, fun h => by cases h⟩
      have hstart := cachedStart_forward hafter hbelow
      split at hstart
      · refine ⟨0, .ok refused, ?_⟩
        rw [result_cachedListing hstar, hstart]
        rfl
      · rw [ends_cachedListing_iff hstar hstart]
        have hsplit := length_below_add_above cache (starPrefix wild)
        cases habove : cache.above (starPrefix wild) with
        | nil =>
          rw [habove, List.length_nil, Nat.add_zero] at hsplit
          refine ⟨1, .ok s, ?_⟩
          simp only [hsplit]
          exact result_end
        | cons first rest =>
          exact ends_forward htake (fun e => by simp [habove]) (by dsimp only; omega)
    | true =>
      have hstart := cachedStart_backward hafter hbelow
      by_cases hfirst : ∃ e ∈ (cache.below after).getLast?, accepts wild e = false
      · rw [if_pos hfirst] at hstart
        refine iff_of_true ⟨0, .ok refused, ?_⟩ ⟨hbelow, fun _ => Or.inl hfirst⟩
        rw [result_cachedListing hstar, hstart]
        rfl
      · rw [if_neg hfirst] at hstart
        rw [ends_cachedListing_iff hstar hstart, backward_ends_iff htake hbelow]
        exact ⟨fun h => ⟨hbelow, fun _ => Or.inr h⟩,
          fun h => (h.backward rfl).resolve_left hfirst⟩

end

/-! ## Both overloads -/

section

variable {cache : Store} {wild : Bytes}

theorem guarded_takeItems (countOnly : Bool) (prefixedBeginIt : ℕ) (e : Entry)
    (s : ℤ × List WValue) :
    Guarded cache.entries.length (takeItems countOnly cache prefixedBeginIt e s) := by
  cases countOnly with
  | true => exact guarded_pure _
  | false =>
    simp only [takeItems, Bool.false_eq_true, if_false]
    cases entryValue e.2 with
    | ok v => exact guarded_pure _
    | error f =>
      simp only
      split
      · exact (guarded_dereference _ _).bind fun _ => guarded_pure _
      · exact guarded_pure _

/-- Taking an entry goes wrong if the log has no entry to read. -/
theorem takesAs_takeItems (countOnly : Bool) :
    TakesAs (takeItems countOnly cache (cache.below (starPrefix wild)).length)
      (fun e => !countOnly && unreadable e.2 && (cache.above (starPrefix wild)).isEmpty)
      (fun e => !countOnly && raises e.2) := by
  have hlog := getElem?_length_below cache (starPrefix wild)
  cases countOnly with
  | true =>
    refine ⟨fun e s h => ?_, fun e s _ h => ?_, fun e s _ _ => ⟨_, rfl⟩⟩
    · cases h
    · cases h
  | false =>
    simp only [Bool.not_false, Bool.true_and]
    unfold unreadable raises takeItems
    refine ⟨fun e s h => ?_, fun e s _ h => ?_, fun e s hwrong hraised => ?_⟩
    · cases hvalue : entryValue e.2 with
      | ok v => simp [hvalue] at h
      | error f =>
        simp only [hvalue, Bool.and_eq_true, List.isEmpty_iff] at h
        simp only [Bool.false_eq_true, if_false, if_pos h.1, Traced.result_bind,
          result_dereference, hlog, h.2, List.head?_nil, Option.bind_none]
    · cases hvalue : entryValue e.2 with
      | ok v => simp [hvalue] at h
      | error f =>
        simp only [hvalue, Bool.not_eq_true'] at h
        exact ⟨f, by simp [h]⟩
    · cases hvalue : entryValue e.2 with
      | ok v => exact ⟨_, rfl⟩
      | error f =>
        simp only [hvalue, Bool.not_eq_false'] at hraised
        simp only [hvalue, hraised, Bool.true_and] at hwrong
        obtain ⟨first, rest, habove⟩ : ∃ first rest,
            cache.above (starPrefix wild) = first :: rest := by
          cases habove : cache.above (starPrefix wild) with
          | nil => simp [habove] at hwrong
          | cons first rest => exact ⟨first, rest, rfl⟩
        simp only [Bool.false_eq_true, if_false, if_pos hraised, Traced.result_bind,
          result_dereference, hlog, habove, List.head?_cons, Option.bind_some]
        exact ⟨_, rfl⟩

theorem takesAs_takeText (countOnly : Bool) : TakesAs (takeText countOnly)
    (fun e => false && unreadable e.2 && (cache.above (starPrefix wild)).isEmpty)
    (fun e => false && raises e.2) :=
  ⟨fun _ _ h => (by cases h), fun _ _ _ h => (by cases h), fun _ _ _ _ => ⟨_, rfl⟩⟩

end

/-- The listing of the cache stays inside the map: the pattern starts with a star, or the scan
stays inside. -/
def ListsInside (fills reversed : Bool) (cache : Store) (wild : Bytes) (win : Window) : Prop :=
  startsWithStar wild = true ∨ ∃ after, firstAfterPrefix (starPrefix wild) = some after ∧
    ScansInside fills reversed cache wild after win

/-- Both overloads of `_GetCachedKeys` use their iterators only where that is defined, and end,
exactly if they stay inside the map. -/
theorem getCachedKeys_iteratesInBounds_iff {wild : Bytes} (hwild : wild ≠ [])
    (countOnly reversed : Bool) (cache : Store) (win : Window) :
    (∀ matchedResults, IteratesInBounds cache.entries.length
        (getCachedKeysTurns countOnly reversed cache wild win matchedResults) ↔
      ListsInside (!countOnly) reversed cache wild win) ∧
    ∀ out, IteratesInBounds cache.entries.length
        (getCachedKeysTextTurns countOnly reversed cache wild win out) ↔
      ListsInside false reversed cache wild win :=
  ⟨fun _ => cachedListing_iteratesInBounds_iff (takesAs_takeItems countOnly) hwild
      (guarded_takeItems countOnly),
    fun _ => cachedListing_iteratesInBounds_iff (takesAs_takeText countOnly) hwild
      fun _ _ _ => guarded_pure _⟩

/-- The theorem at a backward listing that ends with the first key of the prefix range. -/
theorem getCachedKeys_iteratesInBounds_three : IteratesInBounds threeEntries.entries.length
      (getCachedKeysTurns false true threeEntries (ascii "a*") ⟨0, -1⟩ []) ∧
    IteratesInBounds threeEntries.entries.length
      (getCachedKeysTextTurns false true threeEntries (ascii "a*") ⟨0, -1⟩ []) := by
  have hinside : ∀ fills, ListsInside fills true threeEntries (ascii "a*") ⟨0, -1⟩ := by
    refine fun fills => Or.inr ⟨ascii "b", by decide +kernel, by decide +kernel, fun _ => Or.inr ?_⟩
    exact ⟨1, ((ascii "a1", ascii "1"), true), by decide +kernel, Or.inl rfl,
      fun _ _ _ _ _ _ _ => by decide +kernel⟩
  have h := getCachedKeys_iteratesInBounds_iff (show ascii "a*" ≠ [] by decide) false true
    threeEntries ⟨0, -1⟩
  exact ⟨(h.1 []).mpr (hinside _), (h.2 []).mpr (hinside _)⟩

/-- In an empty cache the loop is to end before the start of the map. -/
theorem not_iteratesInBounds_empty :
    ¬IteratesInBounds (OrderedMap.empty : Store).entries.length
      (getCachedKeysTurns false false .empty (ascii "a*") ⟨0, -1⟩ []) ∧
    ¬IteratesInBounds (OrderedMap.empty : Store).entries.length
      (getCachedKeysTextTurns false false .empty (ascii "a*") ⟨0, -1⟩ []) :=
  ⟨fun h => absurd (h.inBounds 0) (by decide +kernel),
    fun h => absurd (h.inBounds 0) (by decide +kernel)⟩

end Quarks
