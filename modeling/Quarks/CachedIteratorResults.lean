import Quarks.CachedIteratorBounds

/-!
# What the listings of the cache return

The loop over the map makes what the list of the entries that it takes says, so that a listing
that stays inside returns what `getCachedKeys` and `getCachedKeysText` give.
-/

namespace Quarks

open Basis

/-! ## What a listing returns -/

/-- The entries that the loop meets from a place on, with a mark at `itEnd`. -/
def metFrom (reversed : Bool) (cache : Store) (itEnd itBegin : ℕ) : List (Entry × Bool) :=
  if reversed then (markAt itEnd 0 (cache.entries.take (itBegin + 1))).reverse
  else markAt itEnd itBegin (cache.entries.drop itBegin)

/-- Entries are taken one after the other. -/
def TakesAll {σ : Type} (take : Entry → σ → Traced IteratorUse (Except Failure σ)) :
    σ → List Entry → σ → Prop
  | s, [], s' => s' = s
  | s, e :: es, s' => ∃ t, (take e s).result = some (.ok t) ∧ TakesAll take t es s'

section

variable {σ : Type} {reversed : Bool} {cache : Store} {wild : Bytes} {win : Window}
  {take : Entry → σ → Traced IteratorUse (Except Failure σ)} {itEnd itBegin : ℕ} {e : Entry}

/-- The loop meets the entry it points to, and then those from its next place on. -/
theorem metFrom_step (hentry : cache.entries[itBegin]? = some e) :
    ∃ rest, metFrom reversed cache itEnd itBegin = (e, decide (itBegin = itEnd)) :: rest ∧
      ∀ place, (cachedStep reversed cache itBegin).result = some place →
        (reversed = true → place < cache.entries.length) ∧
          metFrom reversed cache itEnd place = rest := by
  have hplace := (List.getElem?_eq_some_iff.mp hentry).1
  unfold metFrom cachedStep
  cases reversed with
  | false =>
    obtain ⟨-, rfl⟩ := List.getElem?_eq_some_iff.mp hentry
    refine ⟨_, by rw [if_neg (by simp), List.drop_eq_getElem_cons hplace]; rfl, ?_⟩
    intro place h
    rw [if_neg (by simp), result_increment, if_pos hplace] at h
    cases h
    exact ⟨fun h => (by cases h), rfl⟩
  | true =>
    refine ⟨_, (if_pos rfl).trans (met_succ hentry), fun place h => ?_⟩
    rw [if_pos rfl, result_decrement] at h
    split at h
    · cases h
    · next hfirst =>
      cases h
      rw [if_pos rfl, Nat.sub_add_cancel (Nat.pos_of_ne_zero hfirst)]
      exact ⟨fun _ => by omega, rfl⟩

/-- The loop that ends without an exception has taken the entries that are taken from those it
meets. -/
theorem takesAll_of_ends {turns : ℕ} {i : ℤ} {s s' : σ}
    (hplace : reversed = true → itBegin < cache.entries.length)
    (h : (cachedTurns reversed cache wild win take itEnd turns itBegin i s).result =
      some (some (.ok s'))) :
    ∃ taken, cachedLoop (accepts wild) win (if reversed then .error .undefined else .ok []) i
      (metFrom reversed cache itEnd itBegin) = .ok taken ∧ TakesAll take s taken s' := by
  induction turns generalizing itBegin i s with
  | zero => cases h
  | succ turns ih =>
    by_cases hend : cache.entries.length ≤ itBegin
    · cases reversed with
      | true => exact absurd (hplace rfl) (by omega)
      | false =>
        refine ⟨[], by simp [metFrom, List.drop_eq_nil_of_le hend, markAt, cachedLoop], ?_⟩
        rcases Nat.eq_or_lt_of_le hend with rfl | hbehind
        · rw [result_end] at h
          cases h
          rfl
        · rw [result_behind hbehind] at h
          cases h
    obtain ⟨e, hentry⟩ : ∃ e, cache.entries[itBegin]? = some e :=
      ⟨_, List.getElem?_eq_getElem (by omega)⟩
    obtain ⟨rest, hmet, hrest⟩ := @metFrom_step reversed cache itEnd itBegin e hentry
    -- what the following turns take
    have hnext : ∀ {i t}, ((cachedStep reversed cache itBegin).result.bind fun place =>
          (cachedTurns reversed cache wild win take itEnd turns place i t).result) =
            some (some (.ok s')) →
        ∃ taken, cachedLoop (accepts wild) win (if reversed then .error .undefined else .ok []) i
          rest = .ok taken ∧ TakesAll take t taken s' := by
      intro i t h
      obtain ⟨place, hstep, h⟩ := Option.bind_eq_some_iff.mp h
      obtain ⟨hinside, hfrom⟩ := hrest place hstep
      rw [← hfrom]
      exact ih hinside h
    rw [hmet, cachedLoop]
    cases haccepts : accepts wild e with
    | false =>
      rw [result_refused hentry haccepts] at h
      rw [if_neg (by simp)]
      exact hnext h
    | true =>
      rw [result_accepted hentry haccepts] at h
      obtain ⟨r, hr, h⟩ := Option.bind_eq_some_iff.mp h
      rw [if_pos rfl]
      cases r with
      | error f => cases h
      | ok t =>
        obtain ⟨taken, htaken, hall⟩ : ∃ taken,
            (if win.stops (int32 (i + 1)) || decide (itBegin = itEnd) then .ok []
              else cachedLoop (accepts wild) win (if reversed then .error .undefined else .ok [])
                (int32 (i + 1)) rest) = .ok taken ∧ TakesAll take t taken s' := by
          simp only [orRaise] at h
          split at h
          · next hstops =>
            rw [if_pos hstops]
            cases h
            exact ⟨[], rfl, rfl⟩
          · next hstops =>
            rw [if_neg hstops]
            rw [Traced.result_bind] at h
            exact hnext h
        simp only [htaken]
        unfold takeNumbered at hr
        split at hr
        · next htakes =>
          rw [if_pos htakes]
          exact ⟨e :: taken, rfl, t, hr, hall⟩
        · next htakes =>
          rw [if_neg htakes]
          cases hr
          exact ⟨taken, rfl, hall⟩

end

/-! ## The results of both overloads -/

section

variable {cache : Store} {wild after : Bytes} {win : Window}
  (hafter : firstAfterPrefix (starPrefix wild) = some after) (hbelow : cache.below after ≠ [])
include hafter hbelow

theorem cachedTaken_forward : cachedTaken false cache wild win =
    if ∃ e ∈ (cache.above (starPrefix wild)).head?, accepts wild e = false then .ok []
    else cachedLoop (accepts wild) win (.ok []) (-1) (metFrom false cache
      ((cache.below after).length - 1) (cache.below (starPrefix wild)).length) := by
  have hpos := List.length_pos_iff.mpr hbelow
  have hdrop : cache.entries.drop (cache.below (starPrefix wild)).length =
      cache.above (starPrefix wild) := by
    rw [← cache.below_append_above (starPrefix wild), List.drop_left']
    rfl
  unfold cachedTaken metFrom
  simp only [hafter, if_neg (Nat.pos_iff_ne_zero.mp hpos), Bool.false_eq_true, if_false, hdrop]
  cases habove : cache.above (starPrefix wild) with
  | nil => simp [markAt, cachedLoop]
  | cons first rest => cases haccepts : accepts wild first <;> simp [markAt, haccepts]

theorem cachedTaken_backward : cachedTaken true cache wild win =
    if ∃ e ∈ (cache.below after).getLast?, accepts wild e = false then .ok []
    else cachedLoop (accepts wild) win (.error .undefined) (-1) (metFrom true cache
      (cache.below (starPrefix wild)).length ((cache.below after).length - 1)) := by
  have hpos := List.length_pos_iff.mpr hbelow
  have hfirst : (markAt (cache.below (starPrefix wild)).length 0 (cache.below after)).reverse.map
      Prod.fst = (cache.below after).reverse := by
    rw [List.map_reverse, map_fst_markAt]
  unfold cachedTaken metFrom
  simp only [hafter, if_neg (Nat.pos_iff_ne_zero.mp hpos), if_true, Nat.sub_add_cancel hpos,
    entries_take_below]
  rw [← List.head?_reverse, ← hfirst]
  cases hmet : (markAt (cache.below (starPrefix wild)).length 0 (cache.below after)).reverse with
  | nil =>
    rw [hmet] at hfirst
    exact absurd (List.reverse_eq_nil_iff.mp hfirst.symm) hbelow
  | cons p rest => cases haccepts : accepts wild p.1 <;> simp [haccepts]

end

section

variable {σ β : Type} {reversed : Bool} {cache : Store} {wild : Bytes} {win : Window}
  {starred refused : β} {take : ℕ → Entry → σ → Traced IteratorUse (Except Failure σ)} {s : σ}
  {close : σ → β} {turns : ℕ}

/-- The entries taken are none, if the first entry is refused, or those of the loop. -/
theorem cachedTaken_of_start {start : Option (ℕ × ℕ × ℕ)}
    (hstart : (cachedStart reversed cache wild).result = some start) :
    cachedTaken reversed cache wild win = start.elim (.ok []) (fun places =>
        cachedLoop (accepts wild) win (if reversed then .error .undefined else .ok []) (-1)
          (metFrom reversed cache places.2.2 places.2.1)) ∧
      ∀ places ∈ start, places.1 = (cache.below (starPrefix wild)).length ∧
        (reversed = true → places.2.1 < cache.entries.length) := by
  cases hafter : firstAfterPrefix (starPrefix wild) with
  | none =>
    rw [cachedStart, hafter] at hstart
    cases hstart
  | some after =>
    by_cases hbelow : cache.below after = []
    · rw [cachedStart_wrong hafter reversed hbelow] at hstart
      cases hstart
    cases reversed with
    | false =>
      rw [cachedStart_forward hafter hbelow] at hstart
      rw [cachedTaken_forward hafter hbelow]
      split at hstart
      · next hrefused =>
        cases hstart
        rw [if_pos hrefused]
        exact ⟨rfl, fun _ h => by cases h⟩
      · next haccepted =>
        cases hstart
        rw [if_neg haccepted]
        refine ⟨rfl, fun _ h => ?_⟩
        cases h
        exact ⟨rfl, fun h => by cases h⟩
    | true =>
      rw [cachedStart_backward hafter hbelow] at hstart
      rw [cachedTaken_backward hafter hbelow]
      split at hstart
      · next hrefused =>
        cases hstart
        rw [if_pos hrefused]
        exact ⟨rfl, fun _ h => by cases h⟩
      · next haccepted =>
        cases hstart
        rw [if_neg haccepted]
        refine ⟨rfl, fun _ h => ?_⟩
        cases h
        have hpos := List.length_pos_iff.mpr hbelow
        have hsplit := length_below_add_above cache after
        exact ⟨rfl, fun _ => by dsimp only; omega⟩

/-- A listing that ends without an exception has taken the entries that the cache gives. -/
theorem cachedTaken_of_ends {r : β} (hstar : startsWithStar wild = false)
    (h : (cachedListing reversed cache wild win starred refused take s close turns).result =
      some (some (.ok r))) :
    ∃ taken, cachedTaken reversed cache wild win = .ok taken ∧
      (taken = [] ∧ r = refused ∨ ∃ s',
        TakesAll (take (cache.below (starPrefix wild)).length) s taken s' ∧ r = close s') := by
  rw [result_cachedListing hstar] at h
  obtain ⟨start, hstart, h⟩ := Option.bind_eq_some_iff.mp h
  obtain ⟨htaken, hplaces⟩ := @cachedTaken_of_start reversed cache wild win start hstart
  rw [htaken]
  cases start with
  | none =>
    cases h
    exact ⟨[], rfl, Or.inl ⟨rfl, rfl⟩⟩
  | some places =>
    obtain ⟨hbegin, hinside⟩ := hplaces places rfl
    rw [Option.elim_some, hbegin] at h
    obtain ⟨x, hx, h⟩ := Option.map_eq_some_iff.mp h
    obtain ⟨y, rfl, h⟩ := Option.map_eq_some_iff.mp h
    cases y with
    | error f => cases h
    | ok s' =>
      obtain ⟨taken, htaken, hall⟩ := takesAll_of_ends hinside hx
      cases h
      exact ⟨taken, htaken, Or.inr ⟨s', hall, rfl⟩⟩

end

section

variable {countOnly reversed : Bool} {cache : Store} {wild : Bytes} {win : Window} {turns : ℕ}

/-- Taking entries into a vector appends what is collected for them. -/
theorem collect_of_takesAll {prefixedBeginIt : ℕ} {c : ℤ} {matchedResults : List WValue}
    {taken : List Entry} {r : ℤ × List WValue}
    (h : TakesAll (takeItems countOnly cache prefixedBeginIt) (int32 c, matchedResults) taken r) :
    ∃ items, (if countOnly then pure [] else (collect keyedItems taken).map Prod.snd) = .ok items ∧
      r = (int32 (c + taken.length), matchedResults ++ items) := by
  induction taken generalizing c matchedResults with
  | nil =>
    cases h
    refine ⟨[], by cases countOnly <;> rfl, by simp⟩
  | cons e taken ih =>
    obtain ⟨t, ht, hall⟩ := h
    have hcount : c + 1 + (taken.length : ℤ) = c + ((e :: taken).length : ℕ) := by
      push_cast [List.length_cons]
      ring
    cases countOnly with
    | true =>
      cases ht
      rw [int32_add] at hall
      obtain ⟨items, hitems, rfl⟩ := ih hall
      exact ⟨items, hitems, by rw [hcount]⟩
    | false =>
      simp only [takeItems, Bool.false_eq_true, if_false] at ht
      obtain ⟨flag, new, hnew, rfl⟩ : ∃ flag new, keyedItems e = .ok (flag, new) ∧
          t = (int32 (c + 1), matchedResults ++ new) := by
        unfold keyedItems
        cases hvalue : entryValue e.2 with
        | ok v =>
          rw [hvalue, int32_add] at ht
          cases ht
          exact ⟨true, _, rfl, rfl⟩
        | error f =>
          simp only [hvalue] at ht
          split at ht
          · next hruntime =>
            rw [Traced.result_bind] at ht
            obtain ⟨-, -, ht⟩ := Option.bind_eq_some_iff.mp ht
            rw [int32_add] at ht
            cases ht
            simp only [if_pos hruntime]
            exact ⟨false, _, rfl, rfl⟩
          · cases ht
      obtain ⟨items, hitems, rfl⟩ := ih hall
      refine ⟨new ++ items, ?_, by rw [hcount, List.append_assoc]⟩
      rw [if_neg (by simp)] at hitems ⊢
      cases hcollect : collect keyedItems taken with
      | error f =>
        rw [hcollect] at hitems
        cases hitems
      | ok rest =>
        rw [hcollect] at hitems
        cases hitems
        rw [collect, hnew, hcollect]
        rfl

/-- The listing into a vector returns what it has made when its iterators have stayed inside. -/
theorem getCachedKeys_of_ends {r : ℤ × List WValue}
    (h : (getCachedKeysTurns countOnly reversed cache wild win [] turns).result =
      some (some (.ok r))) : getCachedKeys countOnly reversed cache wild win = .ok r := by
  unfold getCachedKeys
  cases hstar : startsWithStar wild with
  | true =>
    rw [getCachedKeysTurns, cachedListing, if_pos hstar] at h
    cases h
    rfl
  | false =>
    obtain ⟨taken, htaken, hr⟩ := cachedTaken_of_ends hstar h
    have hall : TakesAll (takeItems countOnly cache (cache.below (starPrefix wild)).length)
        (int32 0, []) taken r := by
      rcases hr with ⟨rfl, rfl⟩ | ⟨s', hall, rfl⟩
      · rfl
      · exact hall
    obtain ⟨items, hitems, rfl⟩ := collect_of_takesAll hall
    rw [if_neg (by simp), htaken, zero_add, List.nil_append]
    cases countOnly with
    | true =>
      cases hitems
      rfl
    | false =>
      change (((collect keyedItems taken).map Prod.snd).bind fun items =>
        .ok (int32 taken.length, items)) = .ok (int32 taken.length, items)
      rw [if_neg (by simp)] at hitems
      rw [hitems]
      rfl

/-- Taking entries into a string appends their texts, each with a comma. -/
theorem text_of_takesAll {c : ℤ} {out : Bytes} {taken : List Entry} {r : ℤ × Bytes}
    (h : TakesAll (takeText countOnly) (int32 c, out) taken r) :
    r = (int32 (c + taken.length), if countOnly then out
      else out ++ (taken.map fun e => textItem e ++ ascii ",").flatten) := by
  induction taken generalizing c out with
  | nil =>
    cases h
    simp
  | cons e taken ih =>
    obtain ⟨t, ht, hall⟩ := h
    cases ht
    rw [int32_add] at hall
    rw [ih hall]
    have hcount : c + 1 + (taken.length : ℤ) = c + ((e :: taken).length : ℕ) := by
      push_cast [List.length_cons]
      ring
    rw [hcount]
    cases countOnly <;> simp

/-- The last comma is not there in the text of a list. -/
theorem dropLast_commas {ts : List Bytes} (h : ts ≠ []) :
    (ts.map (· ++ ascii ",")).flatten.dropLast = joinComma ts := by
  have hcomma : ∀ t : Bytes, t ++ ascii "," = t ++ [44] := fun t => rfl
  simp only [hcomma]
  induction ts with
  | nil => exact absurd rfl h
  | cons t ts ih =>
    cases ts with
    | nil => simp [joinComma]
    | cons t' ts =>
      have hne : ((t' :: ts).map (· ++ [44])).flatten ≠ [] := by simp
      rw [List.map_cons, List.flatten_cons, List.dropLast_append_of_ne_nil hne, ih (by simp)]
      simp [joinComma]

/-- The listing into a string returns what it has made when its iterators have stayed inside, if
its entries can be counted. -/
theorem getCachedKeysText_of_ends {out : Bytes} {r : ℤ × Bytes}
    (hcount : ∀ taken, cachedTaken reversed cache wild win = .ok taken → taken.length < 2 ^ 31)
    (h : (getCachedKeysTextTurns countOnly reversed cache wild win out turns).result =
      some (some (.ok r))) : getCachedKeysText countOnly reversed cache wild out win = .ok r := by
  unfold getCachedKeysText
  cases hstar : startsWithStar wild with
  | true =>
    rw [getCachedKeysTextTurns, cachedListing, if_pos hstar] at h
    cases h
    rfl
  | false =>
    obtain ⟨taken, htaken, hr⟩ := cachedTaken_of_ends hstar h
    rw [if_neg (by simp), htaken]
    suffices hr : r = (int32 taken.length, if countOnly && !taken.isEmpty then
        ascii "\x7b\"result\":]\x7d" else resultText taken) by
      rw [hr]
      rfl
    rcases hr with ⟨rfl, rfl⟩ | ⟨s', hall, rfl⟩
    · cases countOnly <;> rfl
    · have htext := text_of_takesAll (c := 0) hall
      rw [zero_add, int32_eq_iff.mpr (hcount taken htaken)] at htext
      rw [htext, int32_eq_iff.mpr (hcount taken htaken), closeText]
      cases taken with
      | nil => cases countOnly <;> rfl
      | cons e taken =>
        rw [if_pos (by simp)]
        cases countOnly with
        | true => rfl
        | false =>
          have hne : ((e :: taken).map fun e => textItem e ++ ascii ",").flatten ≠ [] := by
            simp [ascii]
          have hcommas := @dropLast_commas ((e :: taken).map textItem) (by simp)
          rw [List.map_map] at hcommas
          simp only [Bool.false_and, Bool.false_eq_true, if_false]
          rw [List.dropLast_append_of_ne_nil hne, resultText, ← hcommas]
          rfl

end

end Quarks
