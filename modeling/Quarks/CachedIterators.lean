import Quarks.Basis.Iterators
import Quarks.KeysRoute

/-!
# The iterators of a listing of the cache

`_GetCachedKeys` moves two iterators of the map. One is moved back once before the loop, without
a look at whether it is the first one, and the loop looks for the end of the map on one side only.
Here it is followed turn by turn: forwards the loop ends, and backwards it ends exactly if it meets
something to stop at.
-/

namespace Quarks

open Basis

/-! ## The code -/

/-- Where the loop of `_GetCachedKeys` is to start and to end, with `prefixedBeginIt`; `none` if
the first entry is refused. -/
def cachedStart (reversed : Bool) (cache : Store) (wild : Bytes) :
    Traced IteratorUse (Option (ℕ × ℕ × ℕ)) :=
  match firstAfterPrefix (starPrefix wild) with
  -- a byte is written before the start of an empty prefix
  | none => .goWrong
  | some after => do
    let prefixedBeginIt := (cache.below (starPrefix wild)).length
    let prefixedEndIt := (cache.below after).length
    let itBegin ← if reversed then decrement prefixedEndIt else pure prefixedBeginIt
    let itEnd ← if reversed then pure prefixedBeginIt else decrement prefixedEndIt
    if itBegin = cache.entries.length then return some (prefixedBeginIt, itBegin, itEnd)
    -- if first entry doesn't match return
    let first ← dereference cache.entries itBegin
    if accepts wild first then return some (prefixedBeginIt, itBegin, itEnd) else return none

section

variable {σ : Type} (reversed : Bool) (cache : Store) (wild : Bytes) (win : Window)
  (take : Entry → σ → Traced IteratorUse (Except Failure σ)) (itEnd : ℕ)

/-- What is done with the entry that has got a number, if it lies in the window. -/
def takeNumbered (i : ℤ) (e : Entry) (s : σ) : Traced IteratorUse (Except Failure σ) :=
  if win.takes i then take e s else pure (.ok s)

/-- An exception ends the loop. -/
def orRaise (taken : Except Failure σ) (next : σ → Traced IteratorUse (Option (Except Failure σ))) :
    Traced IteratorUse (Option (Except Failure σ)) :=
  match taken with
  | .error f => return some (.error f)
  | .ok s => next s

/-- `reversed ? --itBegin : ++itBegin`. -/
def cachedStep (itBegin : ℕ) : Traced IteratorUse ℕ :=
  if reversed then decrement itBegin else Basis.increment cache.entries.length itBegin

/-- The loop of `_GetCachedKeys`, with what is done with an entry in the window, and the counter
as it was before: what it has made, or the exception that has ended it; `none` if the number of
turns is too small. -/
def cachedTurns : ℕ → ℕ → ℤ → σ → Traced IteratorUse (Option (Except Failure σ))
  | 0, _, _, _ => return none
  | turns + 1, itBegin, i, s => do
    if itBegin = cache.entries.length then return some (.ok s)
    let e ← dereference cache.entries itBegin
    if accepts wild e then
      let i := int32 (i + 1)
      let taken ← takeNumbered win take i e s
      orRaise taken fun s => do
        if win.stops i || itBegin = itEnd then return some (.ok s)
        cachedTurns turns (← cachedStep reversed cache itBegin) i s
    else cachedTurns turns (← cachedStep reversed cache itBegin) i s

end

/-- `_GetCachedKeys` for a number of turns of its loop: what it returns for a pattern that starts
with a star and where the first entry is refused, what it does with an entry in the window, where
that starts, and what it makes of that at the end. -/
def cachedListing {σ β : Type} (reversed : Bool) (cache : Store) (wild : Bytes) (win : Window)
    (starred refused : β) (take : ℕ → Entry → σ → Traced IteratorUse (Except Failure σ)) (s : σ)
    (close : σ → β) (turns : ℕ) : Traced IteratorUse (Option (Except Failure β)) := do
  if startsWithStar wild then return some (.ok starred)
  match ← cachedStart reversed cache wild with
  | none => return some (.ok refused)
  | some (prefixedBeginIt, itBegin, itEnd) => do
    let r ← cachedTurns reversed cache wild win (take prefixedBeginIt) itEnd turns itBegin (-1) s
    return r.map (Except.map close)

/-- What `_GetCachedKeys` into a vector does with an entry in the window. The log of an exception
reads the value at `prefixedBeginIt`. -/
def takeItems (countOnly : Bool) (cache : Store) (prefixedBeginIt : ℕ) (e : Entry) :
    ℤ × List WValue → Traced IteratorUse (Except Failure (ℤ × List WValue))
  | (ret, matchedResults) =>
    if countOnly then return .ok (int32 (ret + 1), matchedResults)
    else match entryValue e.2 with
      | .ok v => return .ok (int32 (ret + 1), matchedResults ++ [keyed e.1 v])
      | .error f =>
        if f.isRuntimeError then do
          let _ ← dereference cache.entries prefixedBeginIt
          return .ok (int32 (ret + 1), matchedResults ++
            [WValue.null.set (ascii "error") (.string e.2),
              WValue.null.set (ascii "key") (.string e.1)])
        else return .error f

/-- `_GetCachedKeys` into a vector, for a number of turns of its loop. -/
def getCachedKeysTurns (countOnly reversed : Bool) (cache : Store) (wild : Bytes) (win : Window)
    (matchedResults : List WValue) :
    ℕ → Traced IteratorUse (Option (Except Failure (ℤ × List WValue))) :=
  cachedListing reversed cache wild win (0, matchedResults) (0, matchedResults)
    (takeItems countOnly cache) (0, matchedResults) id

/-- What `_GetCachedKeys` into a string does with an entry in the window. -/
def takeText (countOnly : Bool) (e : Entry) :
    ℤ × Bytes → Traced IteratorUse (Except Failure (ℤ × Bytes))
  | (matched, out) =>
    return .ok (int32 (matched + 1), if countOnly then out else out ++ textItem e ++ ascii ",")

/-- The end of `_GetCachedKeys` into a string: the last character becomes a bracket. -/
def closeText : ℤ × Bytes → ℤ × Bytes
  | (matched, out) =>
    (matched, if matched > 0 then out.dropLast ++ ascii "]\x7d" else ascii "\x7b\"result\":[]\x7d")

/-- `_GetCachedKeys` into a string that holds `out` before, for a number of turns of its loop. -/
def getCachedKeysTextTurns (countOnly reversed : Bool) (cache : Store) (wild : Bytes)
    (win : Window) (out : Bytes) : ℕ → Traced IteratorUse (Option (Except Failure (ℤ × Bytes))) :=
  cachedListing reversed cache wild win (0, out) (0, ascii "\x7b\"result\":[]\x7d")
    (fun _ => takeText countOnly) (0, ascii "\x7b\"result\":[") closeText

/-! ## One turn -/

section

variable {σ : Type} {reversed : Bool} {cache : Store} {wild : Bytes} {win : Window}
  {take : Entry → σ → Traced IteratorUse (Except Failure σ)} {itEnd : ℕ}

theorem guarded_cachedStep (itBegin : ℕ) :
    Guarded cache.entries.length (cachedStep reversed cache itBegin) := by
  unfold cachedStep
  split
  · exact guarded_decrement itBegin
  · exact guarded_increment itBegin

theorem guarded_cachedTurns (htake : ∀ e s, Guarded cache.entries.length (take e s))
    (turns itBegin : ℕ) (i : ℤ) (s : σ) : Guarded cache.entries.length
      (cachedTurns reversed cache wild win take itEnd turns itBegin i s) := by
  induction turns generalizing itBegin i s with
  | zero => exact guarded_pure _
  | succ turns ih =>
    unfold cachedTurns
    split
    · exact guarded_pure _
    refine (guarded_dereference _ _).bind fun e => ?_
    split
    · refine Guarded.bind ?_ fun taken => ?_
      · unfold takeNumbered
        split
        · exact htake e s
        · exact guarded_pure _
      cases taken with
      | error f => exact guarded_pure _
      | ok s =>
        simp only [orRaise]
        split
        · exact guarded_pure _
        · exact (guarded_cachedStep _).bind fun place => ih place _ s
    · exact (guarded_cachedStep _).bind fun place => ih place i s

variable {turns itBegin : ℕ} {i : ℤ} {s : σ} {e : Entry}

theorem result_end : (cachedTurns reversed cache wild win take itEnd (turns + 1)
    cache.entries.length i s).result = some (some (.ok s)) := by
  rw [cachedTurns, if_pos rfl]
  rfl

/-- An iterator behind the end points to nothing. -/
theorem result_behind (hbehind : cache.entries.length < itBegin) :
    (cachedTurns reversed cache wild win take itEnd (turns + 1) itBegin i s).result = none := by
  rw [cachedTurns, if_neg (by omega), Traced.result_bind, result_dereference,
    List.getElem?_eq_none (by omega)]
  rfl

section

variable (hentry : cache.entries[itBegin]? = some e)
include hentry

/-- A turn whose entry is refused. -/
theorem result_refused (haccepts : accepts wild e = false) :
    (cachedTurns reversed cache wild win take itEnd (turns + 1) itBegin i s).result =
      (cachedStep reversed cache itBegin).result.bind fun place =>
        (cachedTurns reversed cache wild win take itEnd turns place i s).result := by
  have hplace := (List.getElem?_eq_some_iff.mp hentry).1
  rw [cachedTurns, if_neg (by omega), Traced.result_bind, result_dereference, hentry,
    Option.bind_some, if_neg (by simp [haccepts]), Traced.result_bind]

/-- A turn whose entry is accepted. -/
theorem result_accepted (haccepts : accepts wild e = true) :
    (cachedTurns reversed cache wild win take itEnd (turns + 1) itBegin i s).result =
      (takeNumbered win take (int32 (i + 1)) e s).result.bind fun taken =>
        (orRaise taken fun s =>
          if win.stops (int32 (i + 1)) || itBegin = itEnd then pure (some (.ok s))
          else cachedStep reversed cache itBegin >>= fun place => cachedTurns reversed cache wild
            win take itEnd turns place (int32 (i + 1)) s).result := by
  have hplace := (List.getElem?_eq_some_iff.mp hentry).1
  rw [cachedTurns, if_neg (by omega), Traced.result_bind, result_dereference, hentry,
    Option.bind_some, if_pos haccepts, Traced.result_bind]

/-- The loop ends with an exception. -/
theorem result_raised (haccepts : accepts wild e = true) {f : Failure}
    (htaken : (takeNumbered win take (int32 (i + 1)) e s).result = some (.error f)) :
    (cachedTurns reversed cache wild win take itEnd (turns + 1) itBegin i s).result =
      some (some (.error f)) := by
  rw [result_accepted hentry haccepts, htaken]
  rfl

/-- The loop ends behind the window, or at its last entry. -/
theorem result_stopped (haccepts : accepts wild e = true) {s' : σ}
    (htaken : (takeNumbered win take (int32 (i + 1)) e s).result = some (.ok s'))
    (hstops : (win.stops (int32 (i + 1)) || decide (itBegin = itEnd)) = true) :
    (cachedTurns reversed cache wild win take itEnd (turns + 1) itBegin i s).result =
      some (some (.ok s')) := by
  rw [result_accepted hentry haccepts, htaken, Option.bind_some, orRaise, if_pos hstops]
  rfl

/-- The loop goes on. -/
theorem result_continued (haccepts : accepts wild e = true) {s' : σ}
    (htaken : (takeNumbered win take (int32 (i + 1)) e s).result = some (.ok s'))
    (hstops : ¬(win.stops (int32 (i + 1)) || decide (itBegin = itEnd)) = true) :
    (cachedTurns reversed cache wild win take itEnd (turns + 1) itBegin i s).result =
      (cachedStep reversed cache itBegin).result.bind fun place =>
        (cachedTurns reversed cache wild win take itEnd turns place (int32 (i + 1)) s').result := by
  rw [result_accepted hentry haccepts, htaken, Option.bind_some, orRaise, if_neg hstops,
    Traced.result_bind]

end

/-- More turns change nothing after the loop has ended or gone wrong. -/
theorem result_cachedTurns_mono {turns' : ℕ} (hle : turns ≤ turns')
    (hended : (cachedTurns reversed cache wild win take itEnd turns itBegin i s).result ≠
      some none) :
    (cachedTurns reversed cache wild win take itEnd turns' itBegin i s).result =
      (cachedTurns reversed cache wild win take itEnd turns itBegin i s).result := by
  induction turns generalizing turns' itBegin i s with
  | zero => exact absurd rfl hended
  | succ turns ih =>
    obtain ⟨turns', rfl⟩ : ∃ n, turns' = n + 1 := ⟨turns' - 1, by omega⟩
    -- the next turn starts where both runs are
    have hstep : ∀ i s, ((cachedStep reversed cache itBegin).result.bind fun place =>
          (cachedTurns reversed cache wild win take itEnd turns place i s).result) ≠ some none →
        ((cachedStep reversed cache itBegin).result.bind fun place =>
          (cachedTurns reversed cache wild win take itEnd turns' place i s).result) =
        (cachedStep reversed cache itBegin).result.bind fun place =>
          (cachedTurns reversed cache wild win take itEnd turns place i s).result := by
      intro i s hne
      cases hplace : (cachedStep reversed cache itBegin).result with
      | none => rfl
      | some place =>
        rw [hplace, Option.bind_some] at hne
        exact ih (by omega) hne
    rcases lt_trichotomy itBegin cache.entries.length with hlt | rfl | hgt
    · obtain ⟨e, hentry⟩ : ∃ e, cache.entries[itBegin]? = some e :=
        ⟨_, List.getElem?_eq_getElem hlt⟩
      cases haccepts : accepts wild e with
      | false =>
        rw [result_refused hentry haccepts] at hended ⊢
        rw [result_refused hentry haccepts]
        exact hstep i s hended
      | true =>
        rcases htaken : (takeNumbered win take (int32 (i + 1)) e s).result with _ | f | s'
        · rw [result_accepted hentry haccepts, result_accepted hentry haccepts, htaken]
          rfl
        · rw [result_raised hentry haccepts htaken, result_raised hentry haccepts htaken]
        · by_cases hstops : (win.stops (int32 (i + 1)) || decide (itBegin = itEnd)) = true
          · rw [result_stopped hentry haccepts htaken hstops,
              result_stopped hentry haccepts htaken hstops]
          · rw [result_continued hentry haccepts htaken hstops] at hended ⊢
            rw [result_continued hentry haccepts htaken hstops]
            exact hstep _ s' hended
    · rw [result_end, result_end]
    · rw [result_behind hgt, result_behind hgt]

end

/-! ## Where the loop ends -/

/-- How taking an entry ends: it goes wrong, it raises an exception, or it goes on. -/
structure TakesAs {σ : Type} (take : Entry → σ → Traced IteratorUse (Except Failure σ))
    (wrong raised : Entry → Bool) : Prop where
  of_wrong : ∀ e s, wrong e = true → (take e s).result = none
  of_raised : ∀ e s, wrong e = false → raised e = true → ∃ f, (take e s).result = some (.error f)
  of_taken : ∀ e s, wrong e = false → raised e = false → ∃ s', (take e s).result = some (.ok s')

/-- The loop meets something to stop at, with the counter as it was before: an accepted entry that
is marked, has the last number of the window or raises an exception when it is taken. It comes
there if taking the accepted entries up to it does not go wrong. -/
def StopsAmong (accept : Entry → Bool) (win : Window) (wrong raised : Entry → Bool) :
    ℤ → List (Entry × Bool) → Prop
  | _, [] => False
  | i, (e, last) :: es =>
    if accept e then
      let i := int32 (i + 1)
      (win.takes i && wrong e) = false ∧
        ((win.takes i && raised e || win.stops i || last) = true ∨
          StopsAmong accept win wrong raised i es)
    else StopsAmong accept win wrong raised i es

section

variable {σ : Type} {cache : Store} {wild : Bytes} {win : Window}
  {take : Entry → σ → Traced IteratorUse (Except Failure σ)} {wrong raised : Entry → Bool}
  {itEnd itBegin : ℕ} {i : ℤ} {s : σ} {e : Entry}

/-- The entries that the loop meets backwards from a place, with a mark at `itEnd`. -/
theorem met_succ (hentry : cache.entries[itBegin]? = some e) :
    (markAt itEnd 0 (cache.entries.take (itBegin + 1))).reverse =
      (e, decide (itBegin = itEnd)) :: (markAt itEnd 0 (cache.entries.take itBegin)).reverse := by
  obtain ⟨hplace, rfl⟩ := List.getElem?_eq_some_iff.mp hentry
  have hlength : (cache.entries.take itBegin).length = itBegin := by
    rw [List.length_take, min_eq_left hplace.le]
  rw [List.take_succ_eq_append_getElem hplace, markAt, List.zipIdx_append, List.map_append,
    List.reverse_append, hlength]
  simp [markAt]

variable (htake : TakesAs take wrong raised)
include htake

/-- What becomes of an accepted entry: it is taken or passed, or the loop ends with it. -/
theorem takeNumbered_cases (i : ℤ) (e : Entry) (s : σ) :
    ((win.takes i && wrong e) = true ∧ (takeNumbered win take i e s).result = none) ∨
    (win.takes i && wrong e) = false ∧
      (((win.takes i && raised e) = true ∧
          ∃ f, (takeNumbered win take i e s).result = some (.error f)) ∨
        ((win.takes i && raised e) = false ∧
          ∃ s', (takeNumbered win take i e s).result = some (.ok s'))) := by
  unfold takeNumbered
  cases htakes : win.takes i with
  | false => exact Or.inr ⟨rfl, Or.inr ⟨rfl, s, rfl⟩⟩
  | true =>
    rw [if_pos rfl, Bool.true_and, Bool.true_and]
    cases hwrong : wrong e with
    | true => exact Or.inl ⟨rfl, htake.of_wrong e s hwrong⟩
    | false =>
      refine Or.inr ⟨rfl, ?_⟩
      cases hraised : raised e with
      | true => exact Or.inl ⟨rfl, htake.of_raised e s hwrong hraised⟩
      | false => exact Or.inr ⟨rfl, htake.of_taken e s hwrong hraised⟩

/-- A loop that ends backwards meets something to stop at. -/
theorem stopsAmong_of_ends {turns : ℕ} {r : Except Failure σ}
    (hplace : itBegin < cache.entries.length)
    (h : (cachedTurns true cache wild win take itEnd turns itBegin i s).result = some (some r)) :
    StopsAmong (accepts wild) win wrong raised i
      (markAt itEnd 0 (cache.entries.take (itBegin + 1))).reverse := by
  induction turns generalizing itBegin i s with
  | zero => cases h
  | succ turns ih =>
    obtain ⟨e, hentry⟩ : ∃ e, cache.entries[itBegin]? = some e :=
      ⟨_, List.getElem?_eq_getElem hplace⟩
    -- the loop that goes on has not come to the first entry
    have hstep : ∀ {i s}, ((cachedStep true cache itBegin).result.bind fun place =>
          (cachedTurns true cache wild win take itEnd turns place i s).result) = some (some r) →
        StopsAmong (accepts wild) win wrong raised i
          (markAt itEnd 0 (cache.entries.take itBegin)).reverse := by
      intro i s h
      rw [cachedStep, if_pos rfl, result_decrement] at h
      split at h
      · cases h
      · next hfirst =>
        obtain ⟨place, rfl⟩ : ∃ n, itBegin = n + 1 := ⟨itBegin - 1, by omega⟩
        exact ih (by omega) h
    rw [met_succ hentry, StopsAmong]
    cases haccepts : accepts wild e with
    | false =>
      rw [result_refused hentry haccepts] at h
      rw [if_neg (by simp)]
      exact hstep h
    | true =>
      rw [if_pos rfl]
      rcases takeNumbered_cases htake (int32 (i + 1)) e s with
        ⟨-, hresult⟩ | ⟨hwrong, ⟨hraised, f, hresult⟩ | ⟨hraised, s', hresult⟩⟩
      · rw [result_accepted hentry haccepts, hresult] at h
        cases h
      · exact ⟨hwrong, Or.inl (by rw [hraised]; rfl)⟩
      · refine ⟨hwrong, ?_⟩
        rw [hraised, Bool.false_or]
        by_cases hstops : (win.stops (int32 (i + 1)) || decide (itBegin = itEnd)) = true
        · exact Or.inl hstops
        · rw [result_continued hentry haccepts hresult hstops] at h
          exact Or.inr (hstep h)

/-- A loop that meets something to stop at ends backwards. -/
theorem ends_of_stopsAmong (hplace : itBegin < cache.entries.length)
    (h : StopsAmong (accepts wild) win wrong raised i
      (markAt itEnd 0 (cache.entries.take (itBegin + 1))).reverse) :
    ∃ turns r, (cachedTurns true cache wild win take itEnd turns itBegin i s).result =
      some (some r) := by
  induction itBegin using Nat.strong_induction_on generalizing i s with
  | _ itBegin ih =>
    obtain ⟨e, hentry⟩ : ∃ e, cache.entries[itBegin]? = some e :=
      ⟨_, List.getElem?_eq_getElem hplace⟩
    -- what it stops at among the entries before this one keeps it from the first entry
    have hstep : ∀ {i s}, StopsAmong (accepts wild) win wrong raised i
          (markAt itEnd 0 (cache.entries.take itBegin)).reverse →
        ∃ turns r, ((cachedStep true cache itBegin).result.bind fun place =>
          (cachedTurns true cache wild win take itEnd turns place i s).result) =
            some (some r) := by
      intro i s hamong
      cases itBegin with
      | zero => exact absurd hamong (by simp [markAt, StopsAmong])
      | succ place => exact ih place (Nat.lt_succ_self place) (by omega) hamong
    rw [met_succ hentry, StopsAmong] at h
    cases haccepts : accepts wild e with
    | false =>
      rw [haccepts, if_neg (by simp)] at h
      obtain ⟨turns, r, hr⟩ := hstep h
      exact ⟨turns + 1, r, (result_refused hentry haccepts).trans hr⟩
    | true =>
      rw [haccepts, if_pos rfl] at h
      obtain ⟨hwrong, h⟩ := h
      rcases takeNumbered_cases htake (int32 (i + 1)) e s with
        ⟨hbad, -⟩ | ⟨-, ⟨-, f, hresult⟩ | ⟨hraised, s', hresult⟩⟩
      · rw [hwrong] at hbad
        cases hbad
      · exact ⟨1, .error f, result_raised hentry haccepts hresult⟩
      · rw [hraised, Bool.false_or] at h
        by_cases hstops : (win.stops (int32 (i + 1)) || decide (itBegin = itEnd)) = true
        · exact ⟨1, .ok s', result_stopped hentry haccepts hresult hstops⟩
        · obtain ⟨turns, r, hr⟩ := hstep (s := s') (h.resolve_left hstops)
          exact ⟨turns + 1, r, (result_continued hentry haccepts hresult hstops).trans hr⟩

/-- Forwards the loop ends, at the latest behind the last entry. -/
theorem ends_forward (hwrong : ∀ e, wrong e = false) (hplace : itBegin ≤ cache.entries.length) :
    ∃ turns r, (cachedTurns false cache wild win take itEnd turns itBegin i s).result =
      some (some r) := by
  induction hrest : cache.entries.length - itBegin generalizing itBegin i s with
  | zero =>
    obtain rfl : itBegin = cache.entries.length := by omega
    exact ⟨1, .ok s, result_end⟩
  | succ rest ih =>
    obtain ⟨e, hentry⟩ : ∃ e, cache.entries[itBegin]? = some e :=
      ⟨_, List.getElem?_eq_getElem (by omega)⟩
    have hstep : (cachedStep false cache itBegin).result = some (itBegin + 1) := by
      rw [cachedStep, if_neg (by simp), result_increment, if_pos (by omega)]
    cases haccepts : accepts wild e with
    | false =>
      obtain ⟨turns, r, hr⟩ := @ih (itBegin + 1) i s (by omega) (by omega)
      refine ⟨turns + 1, r, ?_⟩
      rw [result_refused hentry haccepts, hstep]
      exact hr
    | true =>
      rcases takeNumbered_cases htake (int32 (i + 1)) e s with
        ⟨hbad, -⟩ | ⟨-, ⟨-, f, hresult⟩ | ⟨-, s', hresult⟩⟩
      · rw [hwrong e, Bool.and_false] at hbad
        cases hbad
      · exact ⟨1, .error f, result_raised hentry haccepts hresult⟩
      · by_cases hstops : (win.stops (int32 (i + 1)) || decide (itBegin = itEnd)) = true
        · exact ⟨1, .ok s', result_stopped hentry haccepts hresult hstops⟩
        · obtain ⟨turns, r, hr⟩ := @ih (itBegin + 1) (int32 (i + 1)) s' (by omega) (by omega)
          refine ⟨turns + 1, r, ?_⟩
          rw [result_continued hentry haccepts hresult hstops, hstep]
          exact hr

end

/-- What the loop stops at has a number among the accepted entries. -/
theorem stopsAmong_iff {accept : Entry → Bool} {win : Window} {wrong raised : Entry → Bool}
    (i : ℤ) (es : List (Entry × Bool)) : StopsAmong accept win wrong raised i es ↔
      ∃ (k : ℕ) (p : Entry × Bool), (es.filter fun p => accept p.1)[k]? = some p ∧
        (win.takes (int32 (i + 1 + k)) && raised p.1 || win.stops (int32 (i + 1 + k)) || p.2) =
          true ∧
        ∀ j ≤ k, ∀ q, (es.filter fun p => accept p.1)[j]? = some q →
          (win.takes (int32 (i + 1 + j)) && wrong q.1) = false := by
  induction es generalizing i with
  | nil => simp [StopsAmong]
  | cons p es ih =>
    obtain ⟨e, last⟩ := p
    rw [StopsAmong, List.filter_cons]
    by_cases haccept : accept e = true
    · rw [if_pos haccept, if_pos haccept]
      simp only [ih, int32_next]
      constructor
      · rintro ⟨hwrong, hstops | ⟨k, p, hp, hstops, hbefore⟩⟩
        · refine ⟨0, (e, last), rfl, by simpa using hstops, fun j hj q hq => ?_⟩
          obtain rfl : j = 0 := by omega
          cases hq
          simpa using hwrong
        · refine ⟨k + 1, p, hp, hstops, fun j hj q hq => ?_⟩
          cases j with
          | zero =>
            cases hq
            simpa using hwrong
          | succ j => exact hbefore j (by omega) q hq
      · rintro ⟨k, p, hp, hstops, hbefore⟩
        refine ⟨by simpa using hbefore 0 (Nat.zero_le k) (e, last) rfl, ?_⟩
        cases k with
        | zero =>
          cases hp
          exact Or.inl (by simpa using hstops)
        | succ k =>
          exact Or.inr ⟨k, p, hp, hstops, fun j hj q hq => hbefore (j + 1) (by omega) q hq⟩
    · rw [if_neg haccept, if_neg haccept, ih]

end Quarks
