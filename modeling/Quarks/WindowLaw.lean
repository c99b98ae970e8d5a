import Quarks.Core.Read
import Quarks.Core.Serve

/-!
# Windows onto the listings of the database

The loop of every listing takes the slice of the accepted entries that `skip` and
`limit` ask for, and consecutive pages make up the whole listing. The listings that
convert values give that slice as long as crow can convert each of them: a number
beyond the range of doubles is a JSON document, but converting it raises an
exception that no listing catches.
-/

namespace Quarks

open Basis

/-- The tree that crow makes of a stored text. -/
def parsedValue (value : Bytes) : WValue := (loadValue value).toOption.getD .null

/-- Crow can make a tree of the text: it is a JSON document and its numbers are doubles. -/
def Readable (value : Bytes) : Prop := (loadValue value).isOk = true

instance (value : Bytes) : Decidable (Readable value) :=
  inferInstanceAs (Decidable ((loadValue value).isOk = true))

/-- The end of the window is a 32-bit integer. -/
structure Window.InRange (win : Window) : Prop where
  skip_nonneg : 0 ≤ win.skip
  limit_ge : -1 ≤ win.limit
  lt : win.skip + max win.limit 0 < 2 ^ 31

/-! ## Reading the values -/

mutual

/-- Converting a parsed value fails only for a number that is out of range. -/
theorem ofRValue_error : ∀ {x : RValue} {f : Failure},
    WValue.ofRValue x = .error f → f = .badLexicalCast
  | .number token, f, h => by
    simp only [WValue.ofRValue] at h
    split at h
    · cases h
    · cases h
      rfl
  | .list l, f, h => by
    simp only [WValue.ofRValue] at h
    cases hl : WValue.ofElements l with
    | ok ws => simp [hl, Except.map] at h
    | error e =>
      obtain rfl : e = f := by simpa [hl, Except.map] using h
      exact ofElements_error hl
  | .object o, f, h => by
    simp only [WValue.ofRValue] at h
    cases ho : WValue.ofFields o with
    | ok ws => simp [ho, Except.map] at h
    | error e =>
      obtain rfl : e = f := by simpa [ho, Except.map] using h
      exact ofFields_error ho
  | .null, f, h | .bool _, f, h | .string _, f, h => by simp [WValue.ofRValue] at h

theorem ofElements_error : ∀ {l : List RValue} {f : Failure},
    WValue.ofElements l = .error f → f = .badLexicalCast
  | [], f, h => by simp [WValue.ofElements] at h
  | x :: l, f, h => by
    simp only [WValue.ofElements] at h
    cases hx : WValue.ofRValue x with
    | error e =>
      obtain rfl : e = f := by simpa [hx, Except.bind] using h
      exact ofRValue_error hx
    | ok w =>
      cases hl : WValue.ofElements l with
      | ok ws => simp [hx, hl, Except.bind, Except.map] at h
      | error e =>
        obtain rfl : e = f := by simpa [hx, hl, Except.bind, Except.map] using h
        exact ofElements_error hl

theorem ofFields_error : ∀ {o : List (Bytes × RValue)} {f : Failure},
    WValue.ofFields o = .error f → f = .badLexicalCast
  | [], f, h => by simp [WValue.ofFields] at h
  | (name, x) :: o, f, h => by
    simp only [WValue.ofFields] at h
    cases hx : WValue.ofRValue x with
    | error e =>
      obtain rfl : e = f := by simpa [hx, Except.bind] using h
      exact ofRValue_error hx
    | ok w =>
      cases ho : WValue.ofFields o with
      | ok ws => simp [hx, ho, Except.bind, Except.map] at h
      | error e =>
        obtain rfl : e = f := by simpa [hx, ho, Except.bind, Except.map] using h
        exact ofFields_error ho

end

/-- A listing reads a JSON document as it is stored. -/
theorem entryValue_of_isJson {value : Bytes} (h : IsJson value) :
    entryValue value = loadValue value := by
  unfold entryValue
  obtain ⟨x, hx⟩ := Option.isSome_iff_exists.mp h
  simp [loadValue, hx, checked, Except.bind]

/-- What can be read gives its tree. -/
theorem loadValue_of_readable {value : Bytes} (h : Readable value) :
    loadValue value = .ok (parsedValue value) := by
  unfold Readable at h
  unfold parsedValue
  cases hload : loadValue value with
  | ok v => rfl
  | error e =>
    rw [hload] at h
    cases h

/-- Reading a JSON document gives its tree, or raises an exception that is not caught. -/
theorem loadValue_of_isJson {value : Bytes} (h : IsJson value) :
    loadValue value =
      if Readable value then .ok (parsedValue value) else .error .badLexicalCast := by
  obtain ⟨x, hx⟩ := Option.isSome_iff_exists.mp h
  have hload : loadValue value = WValue.ofRValue x := by simp [loadValue, hx, checked, Except.bind]
  cases hw : WValue.ofRValue x with
  | ok w => simp [Readable, parsedValue, hload, hw, Except.isOk, Except.toBool, Except.toOption]
  | error f => simp [Readable, hload, hw, Except.isOk, Except.toBool, ofRValue_error hw]

/-- The elements of a listing that reads its values, unless one of them cannot be read. -/
def elements (element : Bytes → WValue → WValue) (es : List Entry) :
    Except Failure (Bool × List WValue) :=
  if ∀ e ∈ es, Readable e.2 then .ok (true, es.map fun e => element e.1 (parsedValue e.2))
  else .error .badLexicalCast

theorem elements_eq_iff {element : Bytes → WValue → WValue} {es : List Entry} :
    elements element es = .ok (true, es.map fun e => element e.1 (parsedValue e.2)) ↔
      ∀ e ∈ es, Readable e.2 := by
  unfold elements
  split
  · next hread => exact iff_of_true rfl hread
  · next hread => exact iff_of_false (by simp) hread

/-- What a listing appends for one entry after the other is one element each. -/
theorem collect_eq_elements {items : Entry → Except Failure (Bool × List WValue)}
    {element : Bytes → WValue → WValue}
    (hok : ∀ e v, entryValue e.2 = .ok v → items e = .ok (true, [element e.1 v]))
    (herror : ∀ e, entryValue e.2 = .error .badLexicalCast → items e = .error .badLexicalCast)
    {es : List Entry} (hjson : ∀ e ∈ es, IsJson e.2) : collect items es = elements element es := by
  induction es with
  | nil => simp [collect, elements]
  | cons e es ih =>
    obtain ⟨he, hes⟩ := List.forall_mem_cons.mp hjson
    have hvalue := (entryValue_of_isJson he).trans (loadValue_of_isJson he)
    have ih := ih hes
    unfold elements at ih ⊢
    simp only [List.forall_mem_cons]
    by_cases hread : Readable e.2
    · rw [if_pos hread] at hvalue
      simp only [collect, hok e _ hvalue, hread, true_and, ih]
      split <;> rfl
    · rw [if_neg hread] at hvalue
      simp [collect, herror e hvalue, hread, bind, Except.bind]

theorem collect_keyedItems {es : List Entry} (hjson : ∀ e ∈ es, IsJson e.2) :
    collect keyedItems es = elements keyed es :=
  collect_eq_elements (fun e v h => by simp [keyedItems, h])
    (fun e h => by simp [keyedItems, h, Failure.isRuntimeError]) hjson

theorem collect_valueItems {es : List Entry} (hjson : ∀ e ∈ es, IsJson e.2) :
    collect valueItems es = elements (fun _ v => v) es :=
  collect_eq_elements (fun e v h => by simp [valueItems, h])
    (fun e h => by simp [valueItems, h, Failure.isRuntimeError]) hjson

/-- What `searchJson` appends for an entry when nothing is to be joined. -/
def foundItems (e : Entry) : Except Failure (Bool × List WValue) :=
  match entryValue e.2 with
  | .ok v => .ok (true, [keyed e.1 v])
  | .error f =>
    if f.isRuntimeError then
      .ok (false, [WValue.null.set (ascii "error") (.string e.2), .object []])
    else .error f

theorem collect_foundItems {es : List Entry} (hjson : ∀ e ∈ es, IsJson e.2) :
    collect foundItems es = elements keyed es :=
  collect_eq_elements (fun e v h => by simp [foundItems, h])
    (fun e h => by simp [foundItems, h, Failure.isRuntimeError]) hjson

theorem searchLoop_yields {faults : Faults} {n : Node} {c : Config} {mapAs : Bytes}
    (es : List Entry) : Yields faults n (searchLoop c [] mapAs es)
      ((collect foundItems es).bind fun r => .ok r.2) := by
  induction es with
  | nil => exact Yields.pure []
  | cons e es ih =>
    have hitems : Yields faults n (searchItems c [] mapAs e)
        ((foundItems e).bind fun r => .ok r.2) := by
      unfold searchItems foundItems
      cases entryValue e.2 with
      | ok v => exact Yields.pure _
      | error f =>
        simp only
        split
        · exact Yields.pure _
        · exact Yields.ofExcept (.error f)
    unfold searchLoop
    cases hr : foundItems e with
    | error f =>
      rw [hr] at hitems
      rw [collect, hr]
      exact Yields.bind_error hitems
    | ok r =>
      rw [hr] at hitems
      rw [collect, hr]
      refine Yields.bind_ok hitems ?_
      cases hrest : collect foundItems es with
      | error f =>
        rw [hrest] at ih
        exact Yields.bind_error ih
      | ok rest =>
        rw [hrest] at ih
        exact Yields.bind_ok ih (Yields.pure _)

/-- A search without `include` gives the matching entries of its window, once the
arguments have been written to the log. -/
theorem searchJson_yields [HashOrder] {faults : Faults} {n : Node} {c : Config} {args : RValue}
    {wild : Bytes} {win : Window} (hdb : c.dbOk = true) (hstar : startsWithStar wild = false)
    (hkeys : (args.field (ascii "keys")).bind RValue.s = .ok wild)
    (hinclude : args.has (ascii "include") = .ok false) :
    Yields faults n (searchJson c args win) ((WValue.ofRValue args).bind fun _ =>
      (collect foundItems (listed n.db wild win)).bind fun r => .ok (true, r.2)) := by
  have hmap : includeMap args = .ok ([], ascii "_includeid") := by
    simp [includeMap, hinclude, bind, Except.bind, pure, Except.pure]
  unfold searchJson
  rw [hdb, hkeys, hmap, if_pos rfl]
  refine Yields.bind (Yields.ofExcept _) fun _ _ => Yields.bind_ok (Yields.ofExcept _)
    (Yields.bind_ok (Yields.ofExcept _) ?_)
  rw [hstar, if_neg Bool.false_ne_true]
  refine Yields.bind_ok Yields.dbIterate ?_
  have hloop : Yields faults n (searchLoop c [] (ascii "_includeid") (listed n.db wild win)) _ :=
    searchLoop_yields _
  cases hr : collect foundItems (listed n.db wild win) with
  | error f =>
    rw [hr] at hloop
    exact Yields.bind_error hloop
  | ok r =>
    rw [hr] at hloop
    exact Yields.bind_ok hloop (Yields.pure _)

/-! ## Slices and pages -/

theorem Window.InRange.valid {win : Window} (h : win.InRange) : win.Valid := by
  obtain ⟨h₁, h₂, h₃⟩ := h
  constructor <;> omega

theorem Window.InRange.unwrapped {win : Window} (h : win.InRange) : win.Unwrapped := by
  obtain ⟨h₁, h₂, h₃⟩ := h
  constructor <;> omega

theorem Window.InRange.fits {win : Window} {size : ℕ} (h : win.InRange) (hsize : size < 2 ^ 31) :
    win.Fits size := by
  obtain ⟨h₁, h₂, h₃⟩ := h
  unfold Window.Fits
  split <;> omega

theorem Window.Fits.mono {win : Window} {m n : ℕ} (h : win.Fits n) (hmn : m ≤ n) :
    win.Fits m := by
  unfold Window.Fits at h ⊢
  split_ifs at h ⊢
  · exact hmn.trans h
  · exact h

theorem matching_sublist (store : Store) (wild : Bytes) :
    (matching store wild).Sublist store.entries :=
  List.filter_sublist.trans List.filter_sublist

theorem listed_eq_slice {store : Store} {wild : Bytes} {win : Window} (h : win.Valid)
    (hfits : win.Fits store.entries.length) :
    listed store wild win = win.slice (matching store wild) := by
  rw [listed, forwardRange_eq]
  exact scan_eq_slice h (hfits.mono (matching_sublist store wild).length_le)

/-- A listing of everything is a slice exactly if nothing overflows. -/
theorem scan_all_eq_slice_iff {α : Type} {es : List α} {win : Window} (h : win.Valid) :
    scan (fun _ => true) win es = win.slice es ↔ win.slice es = [] ∨ win.Fits es.length := by
  have hall : es.filter (fun _ => true) = es := List.filter_true es
  have hiff := @scan_eq_slice_iff _ (fun _ => true) _ h es
  rwa [hall] at hiff

theorem scan_all_eq_slice {α : Type} {es : List α} {win : Window} (h : win.Valid)
    (hfits : win.Fits es.length) : scan (fun _ => true) win es = win.slice es :=
  (scan_all_eq_slice_iff h).mpr (Or.inr hfits)

theorem slice_sublist {α : Type} (win : Window) (es : List α) : (win.slice es).Sublist es := by
  unfold Window.slice
  split
  · exact List.drop_sublist _ _
  · exact (List.take_sublist _ _).trans (List.drop_sublist _ _)

section

variable [HashOrder] (faults : Faults) (c : Config) (w : World) (wild : Bytes) (args : RValue)

/-- The listings of a window give the slice of the matching entries, or of the whole
store, that the window asks for. -/
structure GivesSlice (win : Window) : Prop where
  getAll : answer faults w (getAll c wild win) =
    .ok (true, (win.slice (matching w.node.db wild)).map fun e => parsedValue e.2)
  getKeys : answer faults w (getKeys c wild win) =
    .ok (true, (win.slice (matching w.node.db wild)).map fun e => keyed e.1 (parsedValue e.2))
  getKeysText : ∀ out, answer faults w (getKeysText c wild out win) =
    .ok (true, resultText (win.slice (matching w.node.db wild)))
  searchJson : answer faults w (searchJson c args win) =
    .ok (true, (win.slice (matching w.node.db wild)).map fun e => keyed e.1 (parsedValue e.2))
  getCount : ∀ out, answer faults w (getCount c wild out win) =
    .ok (true, (win.slice (matching w.node.db wild)).length)
  iter : answer faults w (iter c win) =
    .ok (true, (win.slice w.node.db.entries).map fun e => keyed e.1 (parsedValue e.2))
  iterReversed : answer faults w (iterReversed c win) =
    .ok (true, (win.slice w.node.db.entries.reverse).map fun e => keyed e.1 (parsedValue e.2))

/-- What the listings of a window answer: where they read values, these may be unreadable. -/
structure Answers (win : Window) : Prop where
  getAll : answer faults w (getAll c wild win) =
    elements (fun _ v => v) (win.slice (matching w.node.db wild))
  getKeys : answer faults w (getKeys c wild win) =
    elements keyed (win.slice (matching w.node.db wild))
  getKeysText : ∀ out, answer faults w (getKeysText c wild out win) =
    .ok (true, resultText (win.slice (matching w.node.db wild)))
  searchJson : answer faults w (searchJson c args win) = ((WValue.ofRValue args).bind fun _ =>
    elements keyed (win.slice (matching w.node.db wild)))
  getCount : ∀ out, answer faults w (getCount c wild out win) =
    .ok (true, (win.slice (matching w.node.db wild)).length)
  iter : answer faults w (iter c win) = elements keyed (win.slice w.node.db.entries)
  iterReversed : answer faults w (iterReversed c win) =
    elements keyed (win.slice w.node.db.entries.reverse)

/-- The pages of a listing, from the first one to the first that is not full, make up what
it gives without a window. -/
def Paged {α β : Type} (list : Window → Except Failure (Bool × β)) (render : List α → β)
    (n total : ℕ) : Prop :=
  ∃ pages : ℕ → List α,
    (∀ k ≤ total / n, list ⟨(k * n : ℕ), n⟩ = .ok (true, render (pages k))) ∧
    list ⟨0, -1⟩ = .ok (true, render ((List.range (total / n + 1)).flatMap pages))

/-- The pages of every listing make up the whole listing. -/
structure GivesPages (n : ℕ) : Prop where
  getAll : Paged (fun win => answer faults w (getAll c wild win)) id n
    (matching w.node.db wild).length
  getKeys : Paged (fun win => answer faults w (getKeys c wild win)) id n
    (matching w.node.db wild).length
  getKeysText : ∀ out, Paged (fun win => answer faults w (getKeysText c wild out win))
    resultText n (matching w.node.db wild).length
  searchJson : Paged (fun win => answer faults w (searchJson c args win)) id n
    (matching w.node.db wild).length
  getCount : ∀ out, Paged (fun win => answer faults w (getCount c wild out win))
    (fun es : List Entry => (es.length : ℤ)) n (matching w.node.db wild).length
  iter : Paged (fun win => answer faults w (iter c win)) id n w.node.db.entries.length
  iterReversed : Paged (fun win => answer faults w (iterReversed c win)) id n
    w.node.db.entries.length

end

section

variable {α β : Type} {list : Window → Except Failure (Bool × β)} {render : List α → β}

/-- A page has a window that fits, if the last page does. -/
theorem page_valid {n total size k : ℕ} (hn : size / n * n + n < 2 ^ 31) (hsize : total ≤ size)
    (hk : k ≤ total / n) :
    (Window.mk (k * n : ℕ) n).Valid ∧ (Window.mk (k * n : ℕ) n).Fits size := by
  have hkn : k * n ≤ size / n * n :=
    Nat.mul_le_mul_right n (hk.trans (Nat.div_le_div_right hsize))
  refine ⟨⟨by positivity, by simp only; omega, by simp only; omega, by simp only; omega⟩, ?_⟩
  have hne : (n : ℤ) ≠ -1 := by omega
  simp only [Window.Fits, if_neg hne]
  omega

theorem whole_valid {total : ℕ} (h : total < 2 ^ 31) :
    (Window.mk 0 (-1)).Valid ∧ (Window.mk 0 (-1)).Fits total := by
  refine ⟨⟨by decide, by decide, by decide, by decide⟩, ?_⟩
  simp only [Window.Fits, if_true]
  omega

theorem page_slice {n k : ℕ} (l : List α) :
    (Window.mk (k * n : ℕ) n).slice l = (l.drop (k * n)).take n := by
  have hne : (n : ℤ) ≠ -1 := by omega
  simp only [Window.slice, if_neg hne, Int.toNat_natCast]

@[simp] theorem whole_slice (l : List α) : (Window.mk 0 (-1)).slice l = l := by
  simp [Window.slice]

/-- The pages of a list up to the first that is not full are the list. -/
theorem flatMap_slices {n : ℕ} (hn : 1 ≤ n) (l : List α) :
    (List.range (l.length / n + 1)).flatMap (fun k => (Window.mk (k * n : ℕ) n).slice l) = l := by
  simp only [page_slice, flatMap_pages]
  refine List.take_of_length_le (Nat.le_of_lt ?_)
  rw [Nat.succ_mul]
  have h := Nat.div_add_mod' l.length n
  have h' := Nat.mod_lt l.length hn
  omega

/-- A listing that gives slices has pages that make up the whole. -/
theorem paged_of_slice {n size : ℕ} {l : List α} (hn : 1 ≤ n) (hsize : size < 2 ^ 31)
    (hlast : size / n * n + n < 2 ^ 31) (hl : l.length ≤ size)
    (hlist : ∀ win, win.Valid → win.Fits size → list win = .ok (true, render (win.slice l))) :
    Paged list render n l.length := by
  refine ⟨fun k => (Window.mk (k * n : ℕ) n).slice l, fun k hk => ?_, ?_⟩
  · obtain ⟨hvalid, hfits⟩ := page_valid hlast hl hk
    exact hlist _ hvalid hfits
  · obtain ⟨hvalid, hfits⟩ := whole_valid hsize
    rw [flatMap_slices hn, hlist _ hvalid hfits, whole_slice]

/-- The same for a listing that reads its values, if it can read all of them. -/
theorem paged_iff_readable {list : Window → Except Failure (Bool × List WValue)}
    {element : Bytes → WValue → WValue} {n size : ℕ} {es : List Entry} (hn : 1 ≤ n)
    (hsize : size < 2 ^ 31) (hlast : size / n * n + n < 2 ^ 31) (hes : es.length ≤ size)
    (hlist : ∀ win, win.Valid → win.Fits size → list win = elements element (win.slice es)) :
    Paged list id n es.length ↔ ∀ e ∈ es, Readable e.2 := by
  obtain ⟨hvalid, hfits⟩ := whole_valid hsize
  constructor
  · rintro ⟨pages, -, hwhole⟩
    rw [hlist _ hvalid hfits, whole_slice, elements] at hwhole
    by_contra hread
    rw [if_neg hread] at hwhole
    cases hwhole
  · intro hread
    have hlist' : ∀ win, win.Valid → win.Fits size → list win =
        .ok (true, (fun es => es.map fun e => element e.1 (parsedValue e.2)) (win.slice es)) := by
      intro win hvalid hfits
      rw [hlist win hvalid hfits]
      exact elements_eq_iff.mpr fun e he => hread e ((slice_sublist win es).subset he)
    obtain ⟨pages, hpages, hwhole⟩ := paged_of_slice hn hsize hlast hes hlist'
    let values : List Entry → List WValue :=
      fun es => es.map fun e => element e.1 (parsedValue e.2)
    refine ⟨fun k => values (pages k), hpages, ?_⟩
    rw [hwhole, id, ← List.map_flatMap]

end

section

variable [HashOrder] {faults : Faults} {c : Config} {w : World} {wild : Bytes} {args : RValue}
  (hcache : c.cacheEnabled = false) (hdb : c.dbOk = true)
  (hjson : ∀ e ∈ w.node.db.entries, IsJson e.2) (hstar : startsWithStar wild = false)
  (hkeys : (args.field (ascii "keys")).bind RValue.s = .ok wild)
  (hinclude : args.has (ascii "include") = .ok false)
include hcache hdb hjson hstar hkeys hinclude

/-- What each listing answers for a window that fits. -/
theorem answers {win : Window} (h : win.Valid) (hfits : win.Fits w.node.db.entries.length) :
    Answers faults c w wild args win := by
  have hlisted := @listed_eq_slice _ wild _ h hfits
  have hsub : ∀ {es : List Entry}, (∀ e ∈ es, e ∈ w.node.db.entries) →
      ∀ e ∈ win.slice es, IsJson e.2 := fun hes e he =>
    hjson e (hes e ((slice_sublist win _).subset he))
  have hmatching := hsub fun e he => (matching_sublist w.node.db wild).subset he
  have hall := hsub fun _ he => he
  have hrev := @hsub w.node.db.entries.reverse fun e he => List.mem_reverse.mp he
  refine ⟨?_, ?_, fun out => ?_, ?_, fun out => ?_, ?_, ?_⟩
  · rw [(getAll_yields hdb hstar w rfl).1, hlisted, collect_valueItems hmatching]
  · rw [(getKeys_yields hcache hdb hstar w rfl).1, hlisted, collect_keyedItems hmatching]
  · rw [(getKeysText_yields hcache hdb hstar w rfl).1, hlisted]
  · rw [(searchJson_yields hdb hstar hkeys hinclude w rfl).1, hlisted,
      collect_foundItems hmatching]
    congr 1
    funext _
    unfold elements
    split <;> rfl
  · rw [(getCount_yields hcache hdb hstar w rfl).1, hlisted]
  · rw [(iter_yields hdb w rfl).1, scan_all_eq_slice h hfits, collect_keyedItems hall]
  · rw [(iterReversed_yields hdb w rfl).1, scan_all_eq_slice h (by simpa using hfits),
      collect_keyedItems hrev]

/-- For every window within 32 bits each listing gives its slice, and for every such page
size its pages make up the whole, if and only if crow can convert what it is asked to:
the arguments of the search and the values listed. -/
theorem window_law (hsize : w.node.db.entries.length < 2 ^ 31) :
    (∀ win : Window, win.InRange →
      (GivesSlice faults c w wild args win ↔ (WValue.ofRValue args).isOk = true ∧
        ∀ es ∈ [matching w.node.db wild, w.node.db.entries, w.node.db.entries.reverse],
          ∀ e ∈ win.slice es, Readable e.2)) ∧
    (∀ n, 1 ≤ n → w.node.db.entries.length / n * n + n < 2 ^ 31 →
      (GivesPages faults c w wild args n ↔ (WValue.ofRValue args).isOk = true ∧
        ∀ e ∈ w.node.db.entries, Readable e.2)) := by
  have hargs : ∀ {α : Type} {r : Except Failure α}, (WValue.ofRValue args).isOk = true →
      ((WValue.ofRValue args).bind fun _ => r) = r := by
    intro α r h
    cases hw : WValue.ofRValue args with
    | ok w => rfl
    | error e => simp [hw, Except.isOk, Except.toBool] at h
  have hargs' : ∀ {α : Type} {r : Except Failure α} {a : α},
      ((WValue.ofRValue args).bind fun _ => r) = .ok a → (WValue.ofRValue args).isOk = true := by
    intro α r a h
    cases hw : WValue.ofRValue args with
    | ok w => rfl
    | error e => simp [hw, Except.bind] at h
  constructor
  · intro win hwin
    obtain ⟨hall, hkeys', htext, hsearch, hcount, hiter, hrev⟩ :
        Answers faults c w wild args win :=
      answers hcache hdb hjson hstar hkeys hinclude hwin.valid (hwin.fits hsize)
    simp only [List.forall_mem_cons, List.not_mem_nil, false_imp_iff, implies_true, and_true]
    constructor
    · rintro ⟨-, hgetKeys, -, hgetSearch, -, hgetIter, hgetRev⟩
      rw [hkeys', elements_eq_iff] at hgetKeys
      rw [hiter, elements_eq_iff] at hgetIter
      rw [hrev, elements_eq_iff] at hgetRev
      rw [hsearch] at hgetSearch
      exact ⟨hargs' hgetSearch, hgetKeys, hgetIter, hgetRev⟩
    · rintro ⟨hok, hmatching, hstore, hreverse⟩
      refine ⟨?_, ?_, htext, ?_, hcount, ?_, ?_⟩
      · rw [hall, elements_eq_iff]
        exact hmatching
      · rw [hkeys', elements_eq_iff]
        exact hmatching
      · rw [hsearch, hargs hok, elements_eq_iff]
        exact hmatching
      · rw [hiter, elements_eq_iff]
        exact hstore
      · rw [hrev, elements_eq_iff]
        exact hreverse
  · intro n hn hlast
    have hanswers : ∀ win, win.Valid → win.Fits w.node.db.entries.length →
        Answers faults c w wild args win := fun win hvalid hfits =>
      answers hcache hdb hjson hstar hkeys hinclude hvalid hfits
    have hmatching := (matching_sublist w.node.db wild).length_le
    have hreverse : w.node.db.entries.reverse.length = w.node.db.entries.length := by simp
    constructor
    · rintro ⟨-, -, -, ⟨pages, -, hwhole⟩, -, hiter, -⟩
      obtain ⟨hvalid, hfits⟩ := whole_valid hsize
      refine ⟨hargs' ((hanswers _ hvalid hfits).searchJson.symm.trans hwhole), ?_⟩
      exact (paged_iff_readable hn hsize hlast le_rfl
        fun win hvalid hfits => (hanswers win hvalid hfits).iter).mp hiter
    · rintro ⟨hok, hread⟩
      have hread' : ∀ e ∈ matching w.node.db wild, Readable e.2 :=
        fun e he => hread e ((matching_sublist w.node.db wild).subset he)
      refine ⟨?_, ?_, fun out => ?_, ?_, fun out => ?_, ?_, ?_⟩
      · exact (paged_iff_readable hn hsize hlast hmatching
          fun win hvalid hfits => (hanswers win hvalid hfits).getAll).mpr hread'
      · exact (paged_iff_readable hn hsize hlast hmatching
          fun win hvalid hfits => (hanswers win hvalid hfits).getKeys).mpr hread'
      · exact paged_of_slice hn hsize hlast hmatching
          fun win hvalid hfits => (hanswers win hvalid hfits).getKeysText out
      · exact (paged_iff_readable hn hsize hlast hmatching fun win hvalid hfits =>
          ((hanswers win hvalid hfits).searchJson).trans (hargs hok)).mpr hread'
      · exact paged_of_slice hn hsize hlast hmatching
          fun win hvalid hfits => (hanswers win hvalid hfits).getCount out
      · exact (paged_iff_readable hn hsize hlast le_rfl
          fun win hvalid hfits => (hanswers win hvalid hfits).iter).mpr hread
      · rw [← hreverse]
        exact (paged_iff_readable hn hsize hlast hreverse.le
          fun win hvalid hfits => (hanswers win hvalid hfits).iterReversed).mpr
            fun e he => hread e (List.mem_reverse.mp he)

end

/-- The body of a search for a pattern. -/
def searchArgs (raw : Bytes) : RValue := .object [(ascii "keys", .string raw)]

/-- Three entries, two of which a pattern selects. -/
def threeEntries : Store :=
  ((OrderedMap.empty.insert (ascii "a1") (ascii "1")).insert (ascii "a2") (ascii "[2]")).insert
    (ascii "b") (ascii "3")

/-- The law at a window that takes the second of two matching entries. -/
theorem window_law_second :
    @GivesSlice .insertion noFaults uncachedOnly (openDB uncachedOnly threeEntries) (ascii "a*")
      (searchArgs (ascii "a*")) ⟨1, 1⟩ :=
  ((@window_law .insertion noFaults uncachedOnly (openDB uncachedOnly threeEntries) (ascii "a*")
    (searchArgs (ascii "a*")) rfl rfl (by decide +kernel) (by decide) rfl rfl
      (by decide +kernel)).1 ⟨1, 1⟩
      ⟨by decide, by decide, by decide⟩).mpr ⟨by decide +kernel, by decide +kernel⟩

/-- A number beyond the range of doubles is a JSON document that no listing can convert. -/
theorem not_givesSlice_overflow :
    IsJson (ascii "1e999") ∧
    ¬@GivesSlice .insertion noFaults uncachedOnly
      (openDB uncachedOnly (OrderedMap.empty.insert (ascii "a") (ascii "1e999"))) (ascii "a*")
      (searchArgs (ascii "a*")) ⟨0, -1⟩ := by
  refine ⟨by decide +kernel, ?_⟩
  rintro ⟨-, hkeys, -, -, -, -, -⟩
  have hfails : (answer noFaults
      (openDB uncachedOnly (OrderedMap.empty.insert (ascii "a") (ascii "1e999")))
      (getKeys uncachedOnly (ascii "a*") ⟨0, -1⟩)).isOk = false := by decide +kernel
  rw [hkeys] at hfails
  cases hfails

end Quarks
