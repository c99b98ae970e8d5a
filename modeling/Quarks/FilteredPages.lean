import Quarks.Core.Patterns
import Quarks.WindowLaw

/-!
# Pages of a filtered listing

The listing by several patterns counts the entries in front of its filter, and stops listening
to patterns after one that starts with a star. A page is therefore what the filter keeps of a
window of the entries met, and not a window of what the filter keeps.
-/

namespace Quarks

open Basis

/-! ## What is met and what is kept -/

/-- The pattern does not start with a star. -/
def isListed (wild : Bytes) : Bool := !startsWithStar wild

/-- The matching entries of some patterns, one after the other. -/
def matchingAll (store : Store) (wilds : List Bytes) : List Entry :=
  wilds.flatMap (matching store)

/-- The entries that the listing meets: those of the patterns before the first that starts with
a star. -/
def metEntries (store : Store) (wilds : List Bytes) : List Entry :=
  matchingAll store (wilds.takeWhile isListed)

/-- The entries of the later patterns, which are never looked for. -/
def missedEntries (store : Store) (wilds : List Bytes) : List Entry :=
  matchingAll store ((wilds.dropWhile isListed).filter isListed)

/-- A predicate that decides whether an entry passes, and what becomes of its value. -/
abbrev Predicate := RValue → WValue → Bool × WValue

/-- The predicate as a filter that throws nothing. -/
def Predicate.passFilter (predicate : Predicate) : PassFilter := fun x w =>
  let r := predicate (x.getD .null) w
  (.ok r.1, r.2)

/-- What is kept of an entry. -/
def Predicate.kept (predicate : Predicate) (e : Entry) : Option WValue :=
  let r := predicate ((load e.2).getD .null) (parsedValue e.2)
  if r.1 then some r.2 else none

/-- How many of the entries are kept. -/
def Predicate.count (predicate : Predicate) (es : List Entry) : ℕ :=
  es.countP fun e => (predicate.kept e).isSome

/-- The listing that pages are to be taken of: what is kept of the entries of all patterns but
those that start with a star. -/
def keptListing (predicate : Predicate) (store : Store) (wilds : List Bytes) : List WValue :=
  (matchingAll store (wilds.filter isListed)).filterMap predicate.kept

section

variable {predicate : Predicate} {win : Window} {store : Store} {wild : Bytes}

theorem matchingAll_append (store : Store) (wilds wilds' : List Bytes) :
    matchingAll store (wilds ++ wilds') = matchingAll store wilds ++ matchingAll store wilds' :=
  List.flatMap_append

/-- The listing consists of what is kept of the entries met and of those missed. -/
theorem keptListing_eq (predicate : Predicate) (store : Store) (wilds : List Bytes) :
    keptListing predicate store wilds = (metEntries store wilds).filterMap predicate.kept ++
      (missedEntries store wilds).filterMap predicate.kept := by
  have hsplit : wilds.filter isListed =
      wilds.takeWhile isListed ++ (wilds.dropWhile isListed).filter isListed := by
    conv_lhs => rw [← List.takeWhile_append_dropWhile (p := isListed) (l := wilds)]
    rw [List.filter_append]
    congr 1
    exact List.filter_eq_self.mpr fun _ h => List.mem_takeWhile_imp h
  rw [keptListing, hsplit, matchingAll_append, List.filterMap_append]
  rfl

/-! ## The loops -/

/-- The counter of the loops follows a position: it is that of the entry before, or it has
passed the end of the window. -/
structure Follows (win : Window) (i : ℤ) (k : ℕ) : Prop where
  ge : -1 ≤ i
  lt : i < k
  follows : i = k - 1 ∨ win.limit ≠ -1 ∧ win.upper ≤ i

/-- The entries that are taken from a position on can be read. -/
def ReadsWindow (win : Window) (k : ℕ) (es : List Entry) : Prop :=
  ∀ e ∈ selectAt win.spans k es, Readable e.2

instance (win : Window) (k : ℕ) (es : List Entry) : Decidable (ReadsWindow win k es) :=
  inferInstanceAs (Decidable (∀ e ∈ selectAt win.spans k es, Readable e.2))

/-- An entry that can be read is passed to the predicate. -/
theorem passEntry_readable {e : Entry} (hjson : IsJson e.2) (hread : Readable e.2) :
    passEntry predicate.passFilter e =
      (.ok (predicate ((load e.2).getD .null) (parsedValue e.2)).1,
        (predicate ((load e.2).getD .null) (parsedValue e.2)).2) := by
  rw [passEntry, entryValue_of_isJson hjson, loadValue_of_readable hread]
  rfl

section

variable {i : ℤ} {k : ℕ} (hwin : win.Unwrapped) (h : Follows win i k)
include hwin h

/-- The next entry is taken if the window spans its position. -/
theorem Follows.takes_eq : win.takes (i + 1) = win.spans k := by
  obtain ⟨-, hlt, rfl | ⟨hlimit, hupper⟩⟩ := h
  · rw [Int.sub_add_cancel, hwin.takes_eq]
  · have htakes : win.takes (i + 1) = false := by
      simp [Window.takes, hlimit]
      omega
    have hspans : win.spans k = false := by
      rw [hwin.upper_eq hlimit] at hupper
      simp [Window.spans, hlimit]
      omega
    rw [htakes, hspans]

omit hwin in
theorem Follows.succ : Follows win (i + 1) (k + 1) := by
  obtain ⟨hge, hlt, heq | ⟨hlimit, hupper⟩⟩ := h
  · exact ⟨by omega, by omega, Or.inl (by omega)⟩
  · exact ⟨by omega, by omega, Or.inr ⟨hlimit, by omega⟩⟩

/-- Where the loop ends, no later entry lies in the window, and none is counted any more. -/
theorem Follows.stop (hstop : win.stops (i + 1) = true) (es : List Entry) :
    selectAt win.spans (k + 1) es = [] ∧ Follows win (i + 1) (k + 1 + es.length) := by
  obtain ⟨hge, hlt, -⟩ := h
  simp only [Window.stops, Bool.and_eq_true, decide_eq_true_eq] at hstop
  obtain ⟨heq, hlimit⟩ := hstop
  refine ⟨selectAt_eq_nil_iff.mpr fun p hp _ => ?_, by omega, by omega, Or.inr ⟨hlimit, by omega⟩⟩
  rw [hwin.upper_eq hlimit] at heq
  simp [Window.spans, hlimit]
  omega

end

/-- What is kept of the entries that are taken from a position on. -/
def keptFrom (predicate : Predicate) (win : Window) (k : ℕ) (es : List Entry) : List WValue :=
  (selectAt win.spans k es).filterMap predicate.kept

/-- What is taken of an entry. -/
def keptAt (predicate : Predicate) (win : Window) (k : ℕ) (e : Entry) : List WValue :=
  if win.spans k then (predicate.kept e).toList else []

/-- A loop has gone through some entries: it has taken what is kept of those in the window, or
one of them could not be read. -/
structure Scanned (predicate : Predicate) (win : Window) (k : ℕ) (es : List Entry)
    (r : Except Failure ((Bool × List WValue) × ℤ)) : Prop where
  reads : ReadsWindow win k es →
    ∃ i, Follows win i (k + es.length) ∧ r = .ok ((true, keptFrom predicate win k es), i)
  fails : ¬ReadsWindow win k es → r = .error .badLexicalCast

theorem keptFrom_cons (k : ℕ) (e : Entry) (es : List Entry) :
    keptFrom predicate win k (e :: es) =
      keptAt predicate win k e ++ keptFrom predicate win (k + 1) es := by
  by_cases hspan : win.spans k = true
  · simp only [keptFrom, keptAt, selectAt, if_pos hspan, List.filterMap_cons]
    cases predicate.kept e <;> rfl
  · simp only [keptFrom, keptAt, selectAt, if_neg hspan, List.nil_append]

theorem readsWindow_cons {k : ℕ} {e : Entry} {es : List Entry} :
    ReadsWindow win k (e :: es) ↔
      (win.spans k = true → Readable e.2) ∧ ReadsWindow win (k + 1) es := by
  by_cases hspan : win.spans k = true
  · simp [ReadsWindow, selectAt, hspan]
  · simp [ReadsWindow, selectAt, hspan]

/-- What an entry that can be read, where it is taken, adds to the results. -/
theorem passed_eq {k : ℕ} {e : Entry} (hjson : IsJson e.2)
    (hread : win.spans k = true → Readable e.2) :
    ∃ pass w, (if win.spans k then passEntry predicate.passFilter e else (.ok false, .null)) =
      (.ok pass, w) ∧ (if pass then [w] else []) = keptAt predicate win k e := by
  by_cases hspan : win.spans k = true
  · rw [if_pos hspan, passEntry_readable hjson (hread hspan)]
    refine ⟨_, _, rfl, ?_⟩
    simp only [keptAt, if_pos hspan, Predicate.kept]
    split <;> rfl
  · exact ⟨false, .null, if_neg hspan, by simp [keptAt, hspan]⟩

/-- An entry that is taken and cannot be read ends the listing. -/
theorem passed_error {k : ℕ} {e : Entry} (hjson : IsJson e.2) (hspan : win.spans k = true)
    (hread : ¬Readable e.2) :
    (if win.spans k then passEntry predicate.passFilter e else (.ok false, .null)) =
      (.error .badLexicalCast, .null) := by
  have hvalue := (entryValue_of_isJson hjson).trans
    ((loadValue_of_isJson hjson).trans (if_neg hread))
  rw [if_pos hspan, passEntry, hvalue]

/-- What the loop goes on with, behind an entry that is accepted. -/
theorem Scanned.cons (hwin : win.Unwrapped) {i : ℤ} {k : ℕ} (hfollows : Follows win i k)
    {e : Entry} {es : List Entry} (hjson : IsJson e.2)
    {loop : Except Failure ((Bool × List WValue) × ℤ)}
    (h : Scanned predicate win (k + 1) es loop) :
    Scanned predicate win k (e :: es) (do
      let (passed, w) :=
        if win.spans k then passEntry predicate.passFilter e else (.ok false, .null)
      match passed with
      | .ok pass => do
        let items := if pass then [w] else []
        if win.stops (i + 1) then return ((true, items), i + 1)
        let r ← loop
        return ((r.1.1, items ++ r.1.2), r.2)
      | .error f => do
        if !f.isRuntimeError then throw f
        let r ← loop
        return ((false, w.set (ascii "error") (.string e.2) :: r.1.2), r.2)) := by
  by_cases hentry : win.spans k = true → Readable e.2
  · obtain ⟨pass, w, hpassed, hitems⟩ := @passed_eq predicate _ _ _ hjson hentry
    simp only [hpassed, hitems]
    by_cases hstop : win.stops (i + 1) = true
    · obtain ⟨hnil, hlast⟩ := hfollows.stop hwin hstop es
      have hrest : keptFrom predicate win (k + 1) es = [] := by
        rw [keptFrom, hnil, List.filterMap_nil]
      have hreads : ReadsWindow win k (e :: es) :=
        readsWindow_cons.mpr ⟨hentry, fun e' he' => by simp [hnil] at he'⟩
      refine ⟨fun _ => ⟨i + 1, ?_, ?_⟩, fun hnot => absurd hreads hnot⟩
      · rwa [List.length_cons, Nat.add_comm es.length, ← Nat.add_assoc]
      · rw [if_pos hstop, keptFrom_cons, hrest, List.append_nil]
        rfl
    · rw [if_neg hstop]
      refine ⟨fun hread => ?_, fun hnot => ?_⟩
      · obtain ⟨i', hlast, hloop⟩ := h.reads (readsWindow_cons.mp hread).2
        refine ⟨i', ?_, ?_⟩
        · rwa [List.length_cons, Nat.add_comm es.length, ← Nat.add_assoc]
        · rw [hloop, keptFrom_cons]
          rfl
      · rw [h.fails fun hread => hnot (readsWindow_cons.mpr ⟨hentry, hread⟩)]
        rfl
  · obtain ⟨hspan, hread⟩ := Classical.not_imp.mp hentry
    refine ⟨fun hreads => absurd (readsWindow_cons.mp hreads).1 hentry, fun _ => ?_⟩
    simp only [passed_error hjson hspan hread]
    rfl

/-- The loop over the entries of a pattern takes those of the window, and goes on counting. -/
theorem filteredLoop_scanned (hwin : win.Unwrapped) {es : List Entry}
    (hjson : ∀ e ∈ es, IsJson e.2) {i : ℤ} {k : ℕ} (hfollows : Follows win i k)
    (hcount : k + (es.filter (accepts wild)).length ≤ 2 ^ 31) :
    Scanned predicate win k (es.filter (accepts wild))
      (filteredLoop predicate.passFilter win wild i es) := by
  induction es generalizing i k with
  | nil => exact ⟨fun _ => ⟨i, hfollows, rfl⟩, fun h => absurd (fun e he => by cases he) h⟩
  | cons e es ih =>
    obtain ⟨he, hes⟩ := List.forall_mem_cons.mp hjson
    by_cases hacc : accepts wild e = true
    · rw [List.filter_cons_of_pos hacc, List.length_cons] at hcount
      rw [List.filter_cons_of_pos hacc]
      have hi : int32 (i + 1) = i + 1 := by
        have hge := hfollows.ge
        have hlt := hfollows.lt
        exact int32_eq_self ⟨by omega, by omega⟩
      simp only [filteredLoop, if_pos hacc, hi, hfollows.takes_eq hwin]
      exact .cons hwin hfollows he (ih hes hfollows.succ (by omega))
    · rw [List.filter_cons_of_neg hacc] at hcount ⊢
      rw [filteredLoop, if_neg hacc]
      exact ih hes hfollows hcount

theorem keptFrom_append (k : ℕ) (es es' : List Entry) :
    keptFrom predicate win k (es ++ es') =
      keptFrom predicate win k es ++ keptFrom predicate win (k + es.length) es' := by
  rw [keptFrom, selectAt_append, List.filterMap_append]
  rfl

theorem readsWindow_append {k : ℕ} {es es' : List Entry} :
    ReadsWindow win k (es ++ es') ↔
      ReadsWindow win k es ∧ ReadsWindow win (k + es.length) es' := by
  simp only [ReadsWindow, selectAt_append, List.forall_mem_append]

theorem metEntries_cons_listed (wilds : List Bytes) (h : startsWithStar wild = false) :
    metEntries store (wild :: wilds) = matching store wild ++ metEntries store wilds := by
  simp [metEntries, matchingAll, isListed, h]

theorem metEntries_cons_star (wilds : List Bytes) (h : startsWithStar wild = true) :
    metEntries store (wild :: wilds) = [] := by
  simp [metEntries, matchingAll, isListed, h]

/-- Once a pattern starts with a star, nothing more is looked for. -/
theorem patternsLoop_false (i : ℤ) (wilds : List Bytes) :
    patternsLoop predicate.passFilter win store false i wilds = .ok (true, []) := by
  induction wilds with
  | nil => rfl
  | cons wild wilds ih =>
    rw [patternsLoop]
    exact ih

/-- The loop over the patterns takes what is kept of the entries met in the window. -/
theorem patternsLoop_eq (hwin : win.Unwrapped) (hjson : ∀ e ∈ store.entries, IsJson e.2)
    {wilds : List Bytes} {i : ℤ} {k : ℕ} (hfollows : Follows win i k)
    (hcount : k + (metEntries store wilds).length ≤ 2 ^ 31) :
    patternsLoop predicate.passFilter win store true i wilds =
      if ReadsWindow win k (metEntries store wilds)
      then .ok (true, keptFrom predicate win k (metEntries store wilds))
      else .error .badLexicalCast := by
  induction wilds generalizing i k with
  | nil => rfl
  | cons wild wilds ih =>
    cases hstar : startsWithStar wild with
    | true =>
      rw [metEntries_cons_star wilds hstar, patternsLoop, hstar]
      exact patternsLoop_false i wilds
    | false =>
      rw [metEntries_cons_listed wilds hstar] at hcount ⊢
      rw [List.length_append] at hcount
      have hscanned : Scanned predicate win k (matching store wild)
          (filteredLoop predicate.passFilter win wild i
            (forwardRange store (starPrefix wild))) := by
        rw [forwardRange_eq]
        refine filteredLoop_scanned hwin (fun e he => hjson e ?_) hfollows ?_
        · exact List.mem_of_mem_filter he
        · exact (Nat.le_add_right _ _).trans (by rw [Nat.add_assoc]; exact hcount)
      rw [patternsLoop, hstar]
      by_cases hread : ReadsWindow win k (matching store wild)
      · obtain ⟨i', hlast, hloop⟩ := hscanned.reads hread
        have hrest := ih hlast (by omega)
        simp only [Bool.not_false, Bool.and_true, if_true, hloop, hrest, readsWindow_append,
          hread, true_and, keptFrom_append, bind, Except.bind]
        by_cases hrest : ReadsWindow win (k + (matching store wild).length)
            (metEntries store wilds)
        · rw [if_pos hrest, if_pos hrest]
          rfl
        · rw [if_neg hrest, if_neg hrest]
      · have hnot : ¬ReadsWindow win k (matching store wild ++ metEntries store wilds) :=
          fun h => hread (readsWindow_append.mp h).1
        simp only [Bool.not_false, Bool.and_true, if_true, hscanned.fails hread, if_neg hnot]
        rfl

end

/-! ## Pages -/

section

variable (c : Config) (w : World) (wilds : List Bytes) (predicate : Predicate)

/-- The window keeps what is due: its values can be read, and the entries kept of it are as many
as are due and, counted from the first one kept behind those skipped, the same. -/
structure KeepsDue (predicate : Predicate) (store : Store) (wilds : List Bytes)
    (win : Window) : Prop where
  reads : ∀ e ∈ win.slice (metEntries store wilds), Readable e.2
  count : predicate.count (win.slice (metEntries store wilds)) =
    (win.slice (keptListing predicate store wilds)).length
  same : ∀ j < (win.slice (keptListing predicate store wilds)).length,
    (keptListing predicate store wilds)[
      predicate.count ((metEntries store wilds).take win.skip.toNat) + j]? =
    (keptListing predicate store wilds)[win.skip.toNat + j]?

/-- A slice is a part of the list, behind the elements skipped. -/
theorem slice_split {α : Type} (win : Window) (l : List α) :
    ∃ rest, l = l.take win.skip.toNat ++ (win.slice l ++ rest) := by
  unfold Window.slice
  split
  · exact ⟨[], by rw [List.append_nil, List.take_append_drop]⟩
  · exact ⟨(l.drop win.skip.toNat).drop win.limit.toNat, by
      rw [List.take_append_drop, List.take_append_drop]⟩

theorem length_filterMap_kept (predicate : Predicate) (es : List Entry) :
    (es.filterMap predicate.kept).length = predicate.count es :=
  List.length_filterMap_eq_countP

/-- What is kept of a window is what is due, if it is as much and the same. -/
theorem keepsDue_iff {predicate : Predicate} {store : Store} {wilds : List Bytes} (win : Window) :
    KeepsDue predicate store wilds win ↔
      (∀ e ∈ win.slice (metEntries store wilds), Readable e.2) ∧
        (win.slice (metEntries store wilds)).filterMap predicate.kept =
          win.slice (keptListing predicate store wilds) := by
  have hkept : ∀ j < predicate.count (win.slice (metEntries store wilds)),
      ((win.slice (metEntries store wilds)).filterMap predicate.kept)[j]? =
        (keptListing predicate store wilds)[
          predicate.count ((metEntries store wilds).take win.skip.toNat) + j]? := by
    intro j hj
    obtain ⟨rest, hsplit⟩ := slice_split win (metEntries store wilds)
    have hparts := congrArg (List.filterMap predicate.kept) hsplit
    rw [List.filterMap_append, List.filterMap_append] at hparts
    rw [keptListing_eq, hparts, List.append_assoc, List.append_assoc,
      List.getElem?_append_right (by rw [length_filterMap_kept]; omega),
      length_filterMap_kept, Nat.add_sub_cancel_left,
      List.getElem?_append_left (by rw [length_filterMap_kept]; exact hj)]
  have hdue : ∀ j < (win.slice (keptListing predicate store wilds)).length,
      (win.slice (keptListing predicate store wilds))[j]? =
        (keptListing predicate store wilds)[win.skip.toNat + j]? := by
    intro j hj
    obtain ⟨rest, hsplit⟩ := slice_split win (keptListing predicate store wilds)
    have hskip : win.skip.toNat ≤ (keptListing predicate store wilds).length := by
      by_contra hshort
      have hnil : (keptListing predicate store wilds).drop win.skip.toNat = [] :=
        List.drop_eq_nil_of_le (by omega)
      simp [Window.slice, hnil] at hj
    conv_rhs => rw [hsplit]
    rw [List.getElem?_append_right (by simp), List.length_take, Nat.min_eq_left hskip,
      Nat.add_sub_cancel_left, List.getElem?_append_left hj]
  constructor
  · rintro ⟨hread, hcount, hsame⟩
    refine ⟨hread, List.ext_getElem? fun j => ?_⟩
    by_cases hj : j < (win.slice (keptListing predicate store wilds)).length
    · rw [hkept j (by omega), hsame j hj, hdue j hj]
    · rw [List.getElem?_eq_none (by rw [length_filterMap_kept]; omega),
        List.getElem?_eq_none (by omega)]
  · rintro ⟨hread, heq⟩
    have hcount : predicate.count (win.slice (metEntries store wilds)) =
        (win.slice (keptListing predicate store wilds)).length := by
      rw [← length_filterMap_kept, heq]
    exact ⟨hread, hcount, fun j hj => by rw [← hkept j (by omega), ← hdue j hj, heq]⟩

/-- A page is the slice of what is to be listed. -/
def GivesPage (win : Window) : Prop :=
  answer noFaults w (getAllFiltered c wilds predicate.passFilter win) =
    .ok (true, win.slice (keptListing predicate w.node.db wilds))

variable {c w wilds predicate} {win : Window} (hdb : c.dbOk = true)
  (hjson : ∀ e ∈ w.node.db.entries, IsJson e.2)
  (hcount : (metEntries w.node.db wilds).length ≤ 2 ^ 31)
include hdb hjson hcount

/-- A page is what is kept of a slice of the entries met. -/
theorem getAllFiltered_answer (h : win.InRange) :
    answer noFaults w (getAllFiltered c wilds predicate.passFilter win) =
      if ∀ e ∈ win.slice (metEntries w.node.db wilds), Readable e.2
      then .ok (true, (win.slice (metEntries w.node.db wilds)).filterMap predicate.kept)
      else .error .badLexicalCast := by
  have hloop := @patternsLoop_eq predicate win _ h.unwrapped hjson wilds (-1) 0
    ⟨by omega, by omega, Or.inl rfl⟩ (by simpa using hcount)
  have hyields : Yields noFaults w.node (getAllFiltered c wilds predicate.passFilter win)
      (patternsLoop predicate.passFilter win w.node.db true (-1) wilds) := by
    unfold getAllFiltered
    rw [if_pos hdb]
    exact Yields.bind_ok Yields.dbIterate (Yields.ofExcept _)
  rw [(hyields w rfl).1, hloop, Window.slice_eq_selectAt h.valid]
  rfl

/-- A page is the slice of what is to be listed if and only if its window keeps what is due. All
pages are, if and only if all values that are met can be read, no later pattern has an entry to
be kept, and what is kept of the entries met comes before what is dropped. -/
theorem filtered_pages_iff :
    (∀ win : Window, win.InRange →
      (GivesPage c w wilds predicate win ↔ KeepsDue predicate w.node.db wilds win)) ∧
    ((∀ win : Window, win.InRange → GivesPage c w wilds predicate win) ↔
      (∀ e ∈ metEntries w.node.db wilds, Readable e.2) ∧
      (∀ e ∈ missedEntries w.node.db wilds, predicate.kept e = none) ∧
      KeptFirst predicate.kept (metEntries w.node.db wilds)) := by
  have hpage : ∀ win : Window, win.InRange → (GivesPage c w wilds predicate win ↔
      (∀ e ∈ win.slice (metEntries w.node.db wilds), Readable e.2) ∧
        (win.slice (metEntries w.node.db wilds)).filterMap predicate.kept =
          win.slice (keptListing predicate w.node.db wilds)) := by
    intro win h
    rw [GivesPage, getAllFiltered_answer hdb hjson hcount h]
    split
    · next hread =>
      simp only [Except.ok.injEq, Prod.mk.injEq, true_and]
      exact (and_iff_right hread).symm
    · next hread => exact iff_of_false (fun heq => by cases heq) fun hdue => hread hdue.1
  refine ⟨fun win h => (hpage win h).trans (keepsDue_iff win).symm, ?_⟩
  constructor
  · intro hall
    -- the unlimited window gives everything, those from the front on the order
    obtain ⟨hread, hwhole⟩ := (hpage ⟨0, -1⟩ ⟨by decide, by decide, by decide⟩).mp
      (hall ⟨0, -1⟩ ⟨by decide, by decide, by decide⟩)
    have hslice : ∀ {α : Type} (l : List α), (⟨0, -1⟩ : Window).slice l = l := fun _ => rfl
    rw [hslice] at hread
    rw [hslice, hslice, keptListing_eq, List.self_eq_append_right] at hwhole
    refine ⟨hread, List.filterMap_eq_nil_iff.mp hwhole, keptFirst_of_take fun n hn => ?_⟩
    have hrange : (⟨0, n⟩ : Window).InRange := ⟨le_rfl, by change -1 ≤ (n : ℤ); omega, by
      change (0 : ℤ) + max (n : ℤ) 0 < 2 ^ 31
      omega⟩
    have htake := ((hpage ⟨0, n⟩ hrange).mp (hall ⟨0, n⟩ hrange)).2
    have hfirst : ∀ {α : Type} (l : List α), (⟨0, n⟩ : Window).slice l = l.take n := by
      intro α l
      have hlimit : (n : ℤ) ≠ -1 := by omega
      simp [Window.slice, hlimit]
    rwa [hfirst, hfirst, keptListing_eq, hwhole, List.append_nil] at htake
  · rintro ⟨hread, hmissed, hfirst⟩ win h
    refine (hpage win h).mpr ⟨fun e he => hread e ((slice_sublist win _).subset he), ?_⟩
    rw [keptListing_eq, List.filterMap_eq_nil_iff.mpr hmissed, List.append_nil]
    unfold Window.slice
    split
    · exact hfirst.filterMap_drop _
    · have hbehind : KeptFirst predicate.kept ((metEntries w.node.db wilds).drop win.skip.toNat) :=
        List.Pairwise.sublist (List.drop_sublist _ _) hfirst
      rw [hbehind.filterMap_take, hfirst.filterMap_drop]

end

/-- Two numbers. -/
def pairOfNumbers : Store :=
  (OrderedMap.empty.insert (ascii "a1") (ascii "1")).insert (ascii "a2") (ascii "2")

/-- The predicate that every value passes. -/
def keepsAll : Predicate := fun _ w => (true, w)

/-- The predicate that a number passes if it is written as the digit two. -/
def keepsTwo : Predicate := fun x w =>
  match x with
  | .number token => (token == ascii "2", w)
  | _ => (false, w)

/-- A page of numbers that are all kept. -/
theorem filtered_page_pairOfNumbers :
    GivesPage uncachedOnly (openDB uncachedOnly pairOfNumbers) [ascii "a*"] keepsAll ⟨1, 1⟩ := by
  refine (filtered_pages_iff (c := uncachedOnly) (w := openDB uncachedOnly pairOfNumbers) rfl ?_
    ?_).2.mpr ⟨?_, ?_, ?_⟩ ⟨1, 1⟩ ⟨?_, ?_, ?_⟩ <;> decide +kernel

/-- A page is short in front of the end where an entry before it is dropped, and a pattern that
starts with a star hides those behind it. -/
theorem not_givesPage_pairOfNumbers : (∀ e ∈ pairOfNumbers.entries, IsJson e.2) ∧
    (⟨0, 1⟩ : Window).InRange ∧ (⟨0, -1⟩ : Window).InRange ∧
    ¬GivesPage uncachedOnly (openDB uncachedOnly pairOfNumbers) [ascii "a*"] keepsTwo ⟨0, 1⟩ ∧
    ¬GivesPage uncachedOnly (openDB uncachedOnly pairOfNumbers) [ascii "*", ascii "a*"] keepsAll
      ⟨0, -1⟩ := by
  refine ⟨by decide +kernel, ⟨by decide, by decide, by decide⟩,
    ⟨by decide, by decide, by decide⟩, fun h => ?_, fun h => ?_⟩
  · have hlength := congrArg (Except.map fun r => r.2.length) h
    exact absurd hlength (by decide +kernel)
  · have hlength := congrArg (Except.map fun r => r.2.length) h
    exact absurd hlength (by decide +kernel)

end Quarks
