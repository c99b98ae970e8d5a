import Quarks.Http.CoreRoutes
import Quarks.ReverseListing
import Quarks.TextListings

/-!
# The route `getkeys`

Both interfaces answer with the text of a listing, and put an error into it if the listing
fails. A listing fails with an empty text only, which has no last character to overwrite.
-/

namespace Quarks

open Basis

/-! ## When a listing is defined -/

/-- The number of an entry, counted from the one before. -/
theorem int32_next (i : ℤ) (k : ℕ) :
    int32 (int32 (i + 1) + 1 + k) = int32 (i + 1 + (k + 1 : ℕ)) := by
  rw [add_assoc, int32_add]
  push_cast
  ring_nf

/-- The loop over the cache ends before it has met all entries: at an accepted entry that is
marked, or at the end of the window. -/
theorem cachedLoop_isOk_iff {accept : Entry → Bool} {win : Window} {f : Failure}
    {es : List (Entry × Bool)} (i : ℤ) :
    (cachedLoop accept win (.error f) i es).isOk = true ↔
      (∃ p ∈ es, accept p.1 = true ∧ p.2 = true) ∨
        ∃ k < (es.filter fun p => accept p.1).length, win.stops (int32 (i + 1 + k)) = true := by
  induction es generalizing i with
  | nil => simp [cachedLoop, Except.isOk, Except.toBool]
  | cons p es ih =>
    obtain ⟨e, last⟩ := p
    unfold cachedLoop
    by_cases haccept : accept e = true
    · rw [if_pos haccept]
      have hrest : ∀ rest : Except Failure (List Entry),
          (if win.takes (int32 (i + 1)) then rest.map (e :: ·) else rest).isOk = rest.isOk := by
        intro rest
        split <;> cases rest <;> rfl
      simp only [hrest]
      rw [List.filter_cons, if_pos haccept, List.length_cons]
      by_cases hstops : win.stops (int32 (i + 1)) = true
      · rw [if_pos (by simp [hstops])]
        refine iff_of_true rfl (Or.inr ⟨0, Nat.succ_pos _, ?_⟩)
        simpa using hstops
      cases last with
      | true =>
        rw [if_pos (by simp)]
        exact iff_of_true rfl (Or.inl ⟨(e, true), List.mem_cons_self, haccept, rfl⟩)
      | false =>
        rw [if_neg (by simpa using hstops), ih]
        constructor
        · rintro (⟨p, hp, h⟩ | ⟨k, hk, h⟩)
          · exact Or.inl ⟨p, List.mem_cons_of_mem _ hp, h⟩
          · exact Or.inr ⟨k + 1, Nat.succ_lt_succ hk, by rwa [int32_next] at h⟩
        · rintro (⟨p, hp, h⟩ | ⟨k, hk, h⟩)
          · rcases List.mem_cons.mp hp with rfl | hp
            · cases h.2
            · exact Or.inl ⟨p, hp, h⟩
          · cases k with
            | zero =>
              refine absurd ?_ hstops
              simpa using h
            | succ k => exact Or.inr ⟨k, Nat.lt_of_succ_lt_succ hk, by rwa [int32_next]⟩
    · rw [if_neg haccept, ih, List.filter_cons, if_neg haccept, List.exists_mem_cons_iff]
      simp [haccept]

/-- A loop that may meet all entries is defined. -/
theorem cachedLoop_isOk {accept : Entry → Bool} {win : Window} (i : ℤ)
    (es : List (Entry × Bool)) : (cachedLoop accept win (.ok []) i es).isOk = true := by
  induction es generalizing i with
  | nil => rfl
  | cons p es ih =>
    obtain ⟨e, last⟩ := p
    have hmap : ∀ {r : Except Failure (List Entry)}, r.isOk = true →
        (r.map (e :: ·)).isOk = true := by
      rintro (f | r) h <;> exact h
    unfold cachedLoop
    simp only
    split
    · split
      · refine hmap ?_
        split
        · rfl
        · exact ih _
      · split
        · rfl
        · exact ih _
    · exact ih _

theorem mem_markAt {mark : ℕ} {es : List Entry} {e : Entry} :
    (e, true) ∈ markAt mark 0 es ↔ es[mark]? = some e := by
  unfold markAt
  rw [List.mem_map]
  constructor
  · rintro ⟨⟨a, i⟩, hmem, heq⟩
    simp only [Prod.mk.injEq, decide_eq_true_eq] at heq
    obtain ⟨rfl, rfl⟩ := heq
    simpa [List.mk_mem_zipIdx_iff_getElem?] using hmem
  · intro h
    exact ⟨(e, mark), by simpa [List.mk_mem_zipIdx_iff_getElem?] using h, by simp⟩

/-- The backward loop over the cache meets something to stop at: its first entry is refused, the
first key with the prefix is accepted, or the window ends. -/
def EndsBackward (cache : Store) (wild after : Bytes) (win : Window) : Prop :=
  (∃ e ∈ (cache.below after).getLast?, accepts wild e = false) ∨
    (∃ e ∈ (cache.below after)[(cache.below (starPrefix wild)).length]?,
      accepts wild e = true) ∨
    ∃ k < ((cache.below after).filter (accepts wild)).length, win.stops (int32 k) = true

/-- The loop over the cache is defined if some key stands before the incremented prefix, and
backwards if it meets something to stop at. -/
theorem cachedTaken_isOk_iff {reversed : Bool} {cache : Store} {wild after : Bytes}
    {win : Window} (hafter : firstAfterPrefix (starPrefix wild) = some after) :
    (cachedTaken reversed cache wild win).isOk = true ↔
      cache.below after ≠ [] ∧ (reversed = true → EndsBackward cache wild after win) := by
  unfold cachedTaken
  simp only [hafter]
  by_cases hbelow : cache.below after = []
  · simp [hbelow, Except.isOk, Except.toBool]
  rw [if_neg (by simpa using hbelow)]
  cases reversed with
  | false =>
    simp only [Bool.false_eq_true, if_false, false_imp_iff, and_true]
    refine iff_of_true ?_ hbelow
    split
    · rfl
    · split
      · exact cachedLoop_isOk _ _
      · rfl
  | true =>
    simp only [if_true, true_imp_iff]
    rw [and_iff_right hbelow]
    have hmark : ∀ a, (a, true) ∈ (markAt (cache.below (starPrefix wild)).length 0
        (cache.below after)).reverse ↔
          (cache.below after)[(cache.below (starPrefix wild)).length]? = some a := fun a => by
      rw [List.mem_reverse, mem_markAt]
    have hcount : ((markAt (cache.below (starPrefix wild)).length 0
        (cache.below after)).reverse.filter fun p => accepts wild p.1).length =
          ((cache.below after).filter (accepts wild)).length := by
      rw [List.filter_reverse, List.length_reverse, ← map_fst_markAt
        (cache.below (starPrefix wild)).length 0 (cache.below after), List.filter_map,
        List.length_map, map_fst_markAt]
      rfl
    have hfirst : (markAt (cache.below (starPrefix wild)).length 0
        (cache.below after)).reverse.map Prod.fst = (cache.below after).reverse := by
      rw [List.map_reverse, map_fst_markAt]
    generalize (markAt (cache.below (starPrefix wild)).length 0 (cache.below after)).reverse = met
      at hmark hcount hfirst
    unfold EndsBackward
    rw [← hcount, ← List.head?_reverse, ← hfirst]
    cases met with
    | nil => exact absurd (List.reverse_eq_nil_iff.mp hfirst.symm) hbelow
    | cons p met =>
      by_cases haccept : accepts wild p.1 = true
      · simp only [haccept, if_true]
        rw [cachedLoop_isOk_iff]
        have hstart : ∀ k : ℕ, (-1 + 1 + k : ℤ) = k := fun k => by omega
        simp only [hstart]
        constructor
        · rintro (⟨⟨a, last⟩, ha, hacc, rfl⟩ | h)
          · exact Or.inr (Or.inl ⟨a, (hmark a).mp ha, hacc⟩)
          · exact Or.inr (Or.inr h)
        · rintro (⟨a, ha, hacc⟩ | ⟨a, ha, hacc⟩ | h)
          · rw [← Option.some.inj ha, haccept] at hacc
            cases hacc
          · exact Or.inl ⟨(a, true), (hmark a).mpr ha, hacc, rfl⟩
          · exact Or.inr h
      · simp only [haccept, Bool.false_eq_true, if_false]
        exact iff_of_true rfl (Or.inl ⟨p.1, rfl, by simpa using haccept⟩)

/-! ## The handlers -/

/-- The listing of a pattern fills its text, and takes no undefined step. -/
def FillsText (reversed : Bool) (c : Config) (n : Node) (wild : Bytes) (win : Window) : Prop :=
  startsWithStar wild = false ∧
    if c.cacheEnabled then
      ∃ after, firstAfterPrefix (starPrefix wild) = some after ∧ n.cache.below after ≠ [] ∧
        (reversed = true → EndsBackward n.cache wild after win)
    else c.dbOk = true

/-- The answer is a JSON object. -/
def AnswersObject (r : Except Failure Bytes) : Prop :=
  ∃ text o, r = .ok text ∧ load text = some (.object o)

section

variable {faults : Faults} {c : Config} {n : Node} {wild : Bytes} {win : Window}

/-- Behind a barrier for runtime errors a program that raises none has the same outcome. -/
theorem Yields.catchWhat {α : Type} {p : CoreM α} {g : Bytes → α} {r : Except Failure α}
    (hp : Yields faults n p r) (hr : ∀ f, r = .error f → f.isRuntimeError = false) :
    Yields faults n (Quarks.catchWhat p g) r := by
  intro w hw
  obtain ⟨hans, hnode⟩ := hp w hw
  unfold answer at hans ⊢
  rw [Quarks.catchWhat, Prog.run_tryCatch]
  rcases hrun : Prog.run (handle faults) p w with ⟨e | a, w'⟩
  · rw [hrun] at hans hnode
    subst hans
    have he := hr e rfl
    cases e with
    | runtimeError what => cases he
    | _ => exact ⟨rfl, hnode⟩
  · rw [hrun] at hans hnode
    subst hans
    exact ⟨rfl, hnode⟩

/-- Call the listing of the direction that is asked for. -/
def callListing (c : Config) (reversed : Bool) (wild : Bytes) (win : Window) :
    CoreM (Bool × Bytes) :=
  if reversed then getKeysReversedText c wild [] win else getKeysText c wild [] win

/-- What the handlers do with a listing. -/
def listedText (c : Config) (reversed : Bool) (wild : Bytes) (win : Window) : CoreM Bytes :=
  callListing c reversed wild win >>= fun r =>
    if r.1 then return r.2 else Routing.closeWithError r.2

theorem listedText_eq (reversed : Bool) : listedText c reversed wild win =
    if reversed then getKeysReversedText c wild [] win >>= fun r =>
      if r.1 then return r.2 else Routing.closeWithError r.2
    else getKeysText c wild [] win >>= fun r =>
      if r.1 then return r.2 else Routing.closeWithError r.2 := by
  cases reversed <;> rfl

/-- A listing that does not start leaves no character to overwrite. -/
theorem listedText_refused {reversed : Bool} (hcache : c.cacheEnabled = false)
    (h : ¬(c.dbOk = true ∧ startsWithStar wild = false)) :
    Yields faults n (listedText c reversed wild win) (.error .undefined) := by
  have hnothing : Yields faults n (callListing c reversed wild win) (.ok (false, [])) := by
    unfold callListing
    cases reversed with
    | false =>
      simp only [Bool.false_eq_true, if_false, getKeysText, hcache]
      exact Yields.bind_ok (scanDb_refused h) (Yields.pure _)
    | true =>
      simp only [if_true, getKeysReversedText, hcache, Bool.false_eq_true, if_false]
      exact Yields.bind_ok (scanDb_refused h) (Yields.pure _)
  have hclose : Yields faults n (Routing.closeWithError []) (.error .undefined) :=
    fun w hw => ⟨rfl, hw⟩
  exact Yields.bind_ok hnothing hclose

/-- In cached mode a pattern that starts with a star gives an empty text. -/
theorem listedText_star {reversed : Bool} (hcache : c.cacheEnabled = true)
    (hstar : startsWithStar wild = true) :
    Yields faults n (listedText c reversed wild win) (.ok []) := by
  have hempty : Yields faults n (callListing c reversed wild win) (.ok (true, [])) := by
    unfold callListing
    cases reversed with
    | false =>
      have h := @getKeysText_cached_yields faults n c wild win hcache []
      rw [getCachedKeysText, if_pos hstar] at h
      exact h
    | true =>
      have h := @getKeysReversedText_cached_yields faults n c wild win hcache []
      rw [getCachedKeysText, if_pos hstar] at h
      exact h
  have hreturn : Yields faults n (pure [] : CoreM Bytes) (.ok []) := Yields.pure []
  exact Yields.bind_ok hempty hreturn

/-- Else the text has the entries of the window. -/
theorem listedText_entries {reversed : Bool} (hopen : c.cacheEnabled = false → c.dbOk = true)
    (hstar : startsWithStar wild = false) :
    Yields faults n (listedText c reversed wild win)
      ((windowEntries reversed c n wild win).map resultText) := by
  have hlist := @getKeysText_windowEntries faults c n wild win [] hopen hstar
  have hboth : Yields faults n (callListing c reversed wild win)
      ((windowEntries reversed c n wild win).map fun es => (true, resultText es)) := by
    cases reversed
    · exact hlist.1
    · exact hlist.2
  have hall := Yields.bind (g := fun r => .ok r.2) (f := fun r =>
    if r.1 then pure r.2 else Routing.closeWithError r.2) hboth fun r hr => by
      cases hes : windowEntries reversed c n wild win with
      | error f =>
        rw [hes] at hr
        cases hr
      | ok es =>
        rw [hes] at hr
        cases hr
        exact Yields.pure _
  have hmap : ((windowEntries reversed c n wild win).map fun es => (true, resultText es)).bind
      (fun r => .ok r.2) = (windowEntries reversed c n wild win).map resultText := by
    cases windowEntries reversed c n wild win <;> rfl
  rw [hmap] at hall
  exact hall

/-- The entries of a window are those of a defined loop; nothing else can go wrong. -/
theorem windowEntries_isOk_iff {reversed : Bool} (hwild : wild ≠ [])
    (hstar : startsWithStar wild = false) (hopen : c.cacheEnabled = false → c.dbOk = true) :
    (windowEntries reversed c n wild win).isOk = true ↔ FillsText reversed c n wild win := by
  obtain ⟨after, hafter⟩ : ∃ after, firstAfterPrefix (starPrefix wild) = some after := by
    rw [firstAfterPrefix, List.getLast?_eq_some_getLast (starPrefix_ne_nil hwild hstar)]
    exact ⟨_, rfl⟩
  unfold windowEntries FillsText
  rw [and_iff_right hstar]
  split
  · rw [cachedTaken_isOk_iff hafter]
    constructor
    · exact fun h => ⟨after, hafter, h⟩
    · rintro ⟨after', hafter', h⟩
      rw [hafter] at hafter'
      cases hafter'
      exact h
  · next hcache =>
    refine iff_of_true ?_ (hopen (by simpa using hcache))
    cases reversed with
    | false => rfl
    | true =>
      simp only [listedReversed, hafter, if_true]
      rfl

/-- The loop over the cache fails only at its end. -/
theorem cachedLoop_error {accept : Entry → Bool} {atEnd : Except Failure (List Entry)}
    {es : List (Entry × Bool)} {i : ℤ} {f : Failure}
    (h : cachedLoop accept win atEnd i es = .error f) : atEnd = .error f := by
  induction es generalizing i with
  | nil => exact h
  | cons p es ih =>
    obtain ⟨e, last⟩ := p
    have hrest : ∀ {rest : Except Failure (List Entry)},
        (if win.takes (int32 (i + 1)) then rest.map (e :: ·) else rest) = .error f →
          rest = .error f := by
      intro rest hr
      split at hr
      · cases rest with
        | error g => exact hr
        | ok es => cases hr
      · exact hr
    unfold cachedLoop at h
    split at h
    · have hr := hrest h
      split at hr
      · cases hr
      · exact ih hr
    · exact ih h

/-- The entries that are taken are undefined only by an undefined step. -/
theorem cachedTaken_error {reversed : Bool} {cache : Store} {f : Failure}
    (h : cachedTaken reversed cache wild win = .error f) : f = .undefined := by
  unfold cachedTaken at h
  simp only at h
  split at h
  · cases h
    rfl
  split at h
  · cases h
    rfl
  split at h
  · cases h
  split at h
  · have hend := cachedLoop_error h
    cases reversed <;> cases hend
    rfl
  · cases h

theorem windowEntries_error {reversed : Bool} {f : Failure}
    (h : windowEntries reversed c n wild win = .error f) : f = .undefined := by
  unfold windowEntries at h
  split at h
  · exact cachedTaken_error h
  split at h
  · unfold listedReversed at h
    split at h
    · cases h
      rfl
    · cases h
  · cases h

/-- A listing answers with an object exactly if it fills its text. -/
theorem listedText_yields {reversed : Bool} (hwild : wild ≠ [])
    (hstore : ∀ e ∈ (source c n).entries, Plain e.1 ∧ (0 : UInt8) ∉ e.1 ∧ ValidJson e.2) :
    ∃ r, Yields faults n (listedText c reversed wild win) r ∧
      (∀ f, r = .error f → f.isRuntimeError = false) ∧
      (AnswersObject r ↔ FillsText reversed c n wild win) := by
  have hundefined : ∀ f, (Except.error Failure.undefined : Except Failure Bytes) = .error f →
      f.isRuntimeError = false := by
    rintro _ ⟨⟩
    rfl
  have hno : ∀ f, ¬AnswersObject (.error f) := by
    rintro f ⟨text, o, h, -⟩
    cases h
  cases hstar : startsWithStar wild with
  | true =>
    have hfills : ¬FillsText reversed c n wild win := fun h => by
      rw [h.1] at hstar
      cases hstar
    cases hcache : c.cacheEnabled with
    | true =>
      refine ⟨_, listedText_star hcache hstar, fun f h => (by cases h), iff_of_false ?_ hfills⟩
      rintro ⟨text, o, htext, hload⟩
      cases htext
      cases hload
    | false =>
      have hrefused : ¬(c.dbOk = true ∧ startsWithStar wild = false) := by simp [hstar]
      exact ⟨_, listedText_refused hcache hrefused, hundefined, iff_of_false (hno _) hfills⟩
  | false =>
    by_cases hopen : c.cacheEnabled = false → c.dbOk = true
    · have hfills := @windowEntries_isOk_iff c n wild win reversed hwild hstar hopen
      have hentries := @listedText_entries faults c n wild win reversed hopen hstar
      cases hes : windowEntries reversed c n wild win with
      | error f =>
        obtain rfl := windowEntries_error hes
        rw [hes] at hentries hfills
        exact ⟨_, hentries, hundefined, iff_of_false (hno _) fun h => by
          cases hfills.mpr h⟩
      | ok es =>
        rw [hes] at hentries hfills
        have hsub := windowEntries_subset hes
        have hload := load_listing closesResult_brace (fun e he => (hstore e (hsub he)).2.1)
          (fun e he => (hstore e (hsub he)).1) fun e he => (hstore e (hsub he)).2.2
        rw [← resultText_eq] at hload
        exact ⟨_, hentries, fun f h => (by cases h),
          iff_of_true ⟨_, _, rfl, hload⟩ (hfills.mp rfl)⟩
    · obtain ⟨hcache, hdb⟩ := Classical.not_imp.mp hopen
      refine ⟨_, listedText_refused hcache fun h => hdb h.1, hundefined,
        iff_of_false (hno _) fun h => ?_⟩
      have hfills := h.2
      rw [hcache] at hfills
      exact hdb hfills

/-- The window of a query of the HTTP interface, if its texts are integers. -/
theorem window_error {q : HttpRouter.QueryParams} {f : Failure} (h : q.window = .error f) :
    f.isRuntimeError = false := by
  unfold HttpRouter.QueryParams.window at h
  cases hskip : stoi q.skip with
  | error g =>
    rw [hskip] at h
    cases h
    exact stoi_error hskip
  | ok skip =>
    cases hlimit : stoi q.limit with
    | error g =>
      rw [hskip, hlimit] at h
      cases h
      exact stoi_error hlimit
    | ok limit =>
      rw [hskip, hlimit] at h
      cases h

end

section

variable [HashOrder] {faults : Faults} {c : Config} {w : World}

/-- On a store whose keys need no escape and whose values are JSON documents, both handlers
answer with an object exactly if the listing fills its text; over HTTP the texts of `skip` and
`limit` have to be integers as well. -/
theorem getkeys_answers_iff
    (hstore : ∀ e ∈ (source c w.node).entries,
      Plain e.1 ∧ (0 : UInt8) ∉ e.1 ∧ ValidJson e.2) :
    (∀ (req : Routing.Request) (wild : Bytes), req.wild = .ok wild → wild ≠ [] →
      (AnswersObject (answer faults w (Routing.routeCoreGetkeysCallback c req)) ↔
        FillsText req.reverse c w.node wild req.window)) ∧
    ∀ req : HttpRouter.Request, (HttpRouter.QueryParams.parse req).wild ≠ [] →
      (AnswersObject (answer faults w (HttpRouter.routeCoreGetkeysCallback c req)) ↔
        ∃ win, (HttpRouter.QueryParams.parse req).window = .ok win ∧
          FillsText req.reverse c w.node (HttpRouter.QueryParams.parse req).wild win) := by
  constructor
  · intro req wild hreq hwild
    obtain ⟨r, hr, hruntime, hiff⟩ := @listedText_yields faults c w.node wild req.window
      req.reverse hwild hstore
    have hcall : Yields faults w.node (Routing.routeCoreGetkeysCallback c req) r := by
      refine Yields.catchWhat ?_ hruntime
      rw [hreq]
      refine Yields.bind_ok (Yields.ofExcept (.ok wild)) ?_
      rw [if_neg hwild]
      rw [listedText_eq] at hr
      exact hr
    rw [(hcall w rfl).1]
    exact hiff
  · intro req hwild
    cases hwin : (HttpRouter.QueryParams.parse req).window with
    | error f =>
      have hcall : Yields faults w.node (HttpRouter.routeCoreGetkeysCallback c req)
          (.error f) := by
        refine Yields.catchWhat ?_ fun g hg => ?_
        · simp only [if_neg hwild, hwin]
          exact Yields.bind_error (Yields.ofExcept (.error f))
        · cases hg
          exact window_error hwin
      rw [(hcall w rfl).1]
      refine iff_of_false ?_ ?_
      · rintro ⟨text, o, h, -⟩
        cases h
      · rintro ⟨win, h, -⟩
        cases h
    | ok win =>
      obtain ⟨r, hr, hruntime, hiff⟩ := @listedText_yields faults c w.node
        (HttpRouter.QueryParams.parse req).wild win req.reverse hwild hstore
      have hcall : Yields faults w.node (HttpRouter.routeCoreGetkeysCallback c req) r := by
        refine Yields.catchWhat ?_ hruntime
        simp only [if_neg hwild, hwin]
        refine Yields.bind_ok (Yields.ofExcept (.ok win)) ?_
        rw [listedText_eq] at hr
        exact hr
      rw [(hcall w rfl).1, hiff]
      constructor
      · exact fun h => ⟨win, rfl, h⟩
      · rintro ⟨_, ⟨⟩, h⟩
        exact h

end

/-- A request over TCP for the keys of a pattern, backwards. -/
def backwardKeys (raw : Bytes) : Routing.Request := ⟨[], [], 0, -1, true, searchArgs raw⟩

/-- A request over HTTP for a pattern. -/
def keysTarget (wild : Bytes) : HttpRouter.Request :=
  ⟨ascii "/getkeys?limit=1&keys=" ++ wild, []⟩

/-- Both handlers on a store with two matching entries. -/
theorem getkeys_answers_three :
    AnswersObject (answer noFaults (openDB uncachedOnly threeEntries)
      (@Routing.routeCoreGetkeysCallback .insertion uncachedOnly (backwardKeys (ascii "a*")))) ∧
    AnswersObject (answer noFaults (openDB uncachedOnly threeEntries)
      (@HttpRouter.routeCoreGetkeysCallback .insertion uncachedOnly
        (keysTarget (ascii "a*")))) := by
  have h := @getkeys_answers_iff .insertion noFaults uncachedOnly
    (openDB uncachedOnly threeEntries) (by decide +kernel)
  refine ⟨(h.1 _ (ascii "a*") (by rfl) (by decide)).mpr ⟨by decide, rfl⟩, (h.2 _ ?_).mpr ?_⟩
  · decide +kernel
  · refine ⟨⟨0, 1⟩, ?_, by decide +kernel, rfl⟩
    have hskip : stoi (HttpRouter.QueryParams.parse (keysTarget (ascii "a*"))).skip = .ok 0 := by
      decide +kernel
    have hlimit : stoi (HttpRouter.QueryParams.parse (keysTarget (ascii "a*"))).limit =
        .ok 1 := by
      decide +kernel
    rw [HttpRouter.QueryParams.window, hskip, hlimit]
    rfl

/-- A pattern that starts with a star is refused, and the handlers then write in front of an
empty text. -/
theorem not_answersObject_star :
    (HttpRouter.QueryParams.parse (keysTarget (ascii "*"))).wild = ascii "*" ∧
    answer noFaults (openDB uncachedOnly threeEntries)
      (@HttpRouter.routeCoreGetkeysCallback .insertion uncachedOnly (keysTarget (ascii "*"))) =
        .error .undefined ∧
    ¬AnswersObject (answer noFaults (openDB uncachedOnly threeEntries)
      (@HttpRouter.routeCoreGetkeysCallback .insertion uncachedOnly (keysTarget (ascii "*")))) := by
  have hanswer : answer noFaults (openDB uncachedOnly threeEntries)
      (@HttpRouter.routeCoreGetkeysCallback .insertion uncachedOnly (keysTarget (ascii "*"))) =
        .error .undefined := by
    decide +kernel
  refine ⟨by decide +kernel, hanswer, ?_⟩
  rintro ⟨text, o, htext, -⟩
  rw [hanswer] at htext
  cases htext

end Quarks
