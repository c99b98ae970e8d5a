import Quarks.KeysRoute
import Quarks.PairQueries
import Quarks.Routing.LookupHazards
import Quarks.SortedEntries

/-!
# What brings the listings down

A listing of keys needs an entry to stop at, or an open database and a pattern that does not
start with a star. The listings behind keys read the values they meet, and a sorted listing
also needs a comparison that is a strict weak order on the objects.
-/

namespace Quarks

open Basis

namespace Routing

variable (c : Config) (n : Node) (req : Request)

/-! ## Listings of keys -/

/-- The listing of the keys ends, with a text that an error can be put into. -/
def GetkeysEnds : Prop :=
  ∀ wild, req.wild = .ok wild → wild ≠ [] →
    (c.cacheEnabled = true ∧ startsWithStar wild = true) ∨ FillsText req.reverse c n wild req.window

/-- Counting the keys of the cache ends. -/
def GetcountEnds : Prop :=
  ∀ wild, req.wild = .ok wild → wild ≠ [] → c.cacheEnabled = true → startsWithStar wild = false →
    FillsText false c n wild req.window

section

variable {c : Config} {n : Node} {req : Request} {wild : Bytes} {win : Window}

/-- The entries of a window fail with an undefined step only. -/
theorem runtimeOnly_windowEntries {reversed : Bool} (hwild : wild ≠ [])
    (hstar : startsWithStar wild = false) (hopen : c.cacheEnabled = false → c.dbOk = true) :
    RuntimeOnly (windowEntries reversed c n wild win) ↔ FillsText reversed c n wild win := by
  rw [← windowEntries_isOk_iff hwild hstar hopen]
  cases hes : windowEntries reversed c n wild win with
  | ok es => simp [Except.isOk, Except.toBool]
  | error f =>
    obtain rfl := windowEntries_error hes
    simp [Except.isOk, Except.toBool, Failure.isRuntimeError]

theorem settled_listedText (reversed : Bool) (hwild : wild ≠ []) :
    ContainedIff n (listedText c reversed wild win)
      ((c.cacheEnabled = true ∧ startsWithStar wild = true) ∨ FillsText reversed c n wild win) := by
  cases hstar : startsWithStar wild with
  | true =>
    have hfills : ¬FillsText reversed c n wild win := fun h => by
      rw [h.1] at hstar
      cases hstar
    cases hcache : c.cacheEnabled with
    | true =>
      exact (ContainedIff.of_yields fun _ => listedText_star hcache hstar).congr (by simp)
    | false =>
      refine (ContainedIff.of_yields fun _ => listedText_refused hcache (by simp [hstar])).congr ?_
      simp [hfills, Failure.isRuntimeError]
  | false =>
    by_cases hopen : c.cacheEnabled = false → c.dbOk = true
    · refine (ContainedIff.of_yields fun _ => listedText_entries hopen hstar).congr ?_
      simp [RuntimeOnly.map, runtimeOnly_windowEntries hwild hstar hopen]
    · obtain ⟨hcache, hdb⟩ := Classical.not_imp.mp hopen
      refine (ContainedIff.of_yields fun _ => listedText_refused hcache fun h => hdb h.1).congr ?_
      simp [FillsText, hcache, hdb, Failure.isRuntimeError]

theorem getkeysCallback [HashOrder] (h : req.WellFormed) :
    ContainedIff n (routeCoreGetkeysCallback c req) (GetkeysEnds c n req) := by
  refine ContainedIff.catchWhat (ContainedIff.ofExcept_of_runtimeOnly (h.get _) fun wild _ => ?_)
  split
  · next hwild => exact ContainedIff.pure.congr (by simp [hwild])
  · next hwild =>
    have hlist := @settled_listedText c n wild req.window req.reverse hwild
    rw [listedText_eq] at hlist
    exact hlist.congr (by simp [hwild])

theorem settled_getCount {out : ℤ} (hwild : wild ≠ []) : ContainedIff n (getCount c wild out win)
    (c.cacheEnabled = true → startsWithStar wild = false → FillsText false c n wild win) := by
  cases hcache : c.cacheEnabled with
  | false =>
    unfold getCount
    rw [hcache]
    refine (settled_scanDb.andThen fun r => ?_).congr (by simp)
    split <;> exact Contained.pure fun _ _ => trivial
  | true =>
    refine (ContainedIff.of_yields fun _ => getCount_cached_yields hcache).congr ?_
    rw [getCachedKeys]
    cases hstar : startsWithStar wild with
    | true => simp [Except.bind]
    | false =>
      rw [if_neg Bool.false_ne_true]
      simp only [forall_const]
      have hopen : c.cacheEnabled = false → c.dbOk = true := fun h => absurd (hcache.symm.trans h)
        (by simp)
      rw [← runtimeOnly_windowEntries hwild hstar hopen, windowEntries, if_pos hcache]
      cases cachedTaken false n.cache wild win <;> exact Iff.rfl

theorem getcountCallback (h : req.WellFormed) :
    ContainedIff n (routeCoreGetcountCallback c req) (GetcountEnds c n req) := by
  refine ContainedIff.catchWhat (ContainedIff.ofExcept_of_runtimeOnly (h.get _) fun wild _ => ?_)
  split
  · next hwild => exact ContainedIff.pure.congr (by simp [hwild])
  · next hwild =>
    refine ((settled_getCount hwild).andThen fun r => ?_).congr (by simp [hwild])
    split <;> exact Contained.pure fun _ _ => trivial

end

/-! ## Listings behind keys -/

/-- The pairs that the loop of `getKeysAfter` and `getKeysLast` comes to. -/
def stringPairs : List RValue → (lastPrefix : Option Bytes) → List (Bytes × Bytes)
  | [], _ => []
  | v :: vs, lastPrefix => match v.s with
    | .error _ => []
    | .ok p => match lastPrefix with
      | none => stringPairs vs (some p)
      | some lastPrefix => (lastPrefix, p) :: stringPairs vs none

/-- The values behind the keys can be read. -/
def GetkeysafterReads (x : RValue) : Prop :=
  c.dbOk = true → ∀ pairs, x.elements = .ok pairs → ∀ pr ∈ stringPairs pairs none,
    ReadsWell (afterWindow n.db req.window pr)

/-- The last values behind the keys can be read. -/
def GetkeyslastReads (x : RValue) : Prop :=
  c.dbOk = true → ∀ pairs, x.elements = .ok pairs → ∀ pr ∈ stringPairs pairs none,
    ReadsWell (lastEntry n.db pr).toList

section

variable {c : Config} {n : Node} {req : Request} {field : Bytes}
  {look : (p lastPrefix : Bytes) → CoreM (Bool × List WValue)}
  {g : (p lastPrefix : Bytes) → Except Failure (Bool × List WValue)}

theorem settled_pairsLoop
    (hlook : ∀ faults p lastPrefix, Yields faults n (look p lastPrefix) (g p lastPrefix))
    (hg : ∀ p lastPrefix {f}, g p lastPrefix = .error f → f.isRuntimeError = false)
    (vs : List RValue) (lastPrefix : Option Bytes) (out : List WValue) :
    ContainedIff n (pairsLoop field look vs lastPrefix out)
      (∀ pr ∈ stringPairs vs lastPrefix, RuntimeOnly (g pr.2 pr.1)) := by
  induction vs generalizing lastPrefix out with
  | nil => exact ContainedIff.pure.congr (by simp [stringPairs])
  | cons v vs ih =>
    cases hv : v.s with
    | error f =>
      simp only [pairsLoop, stringPairs, hv, s_error hv, if_true]
      exact ContainedIff.pure.congr (by simp)
    | ok p =>
      cases lastPrefix with
      | none =>
        simp only [pairsLoop, stringPairs, hv]
        exact ih _ _
      | some lastPrefix =>
        simp only [pairsLoop, stringPairs, hv]
        refine (ContainedIff.bind (C := fun _ => ∀ pr ∈ stringPairs vs none,
          RuntimeOnly (g pr.2 pr.1)) (fun faults => hlook faults p lastPrefix)
            fun r _ => ?_).congr ?_
        · split
          · exact (ih _ _).map
          · exact ih _ _
        · rw [List.forall_mem_cons]
          refine and_congr_right fun hread => ?_
          cases hr : g p lastPrefix with
          | ok r => exact ⟨fun h => h r rfl, fun h _ _ => h⟩
          | error f =>
            rw [hr, RuntimeOnly.error, hg p lastPrefix hr] at hread
            cases hread

theorem settled_pairsOf
    (hlook : c.dbOk = true →
      ∀ faults p lastPrefix, Yields faults n (look p lastPrefix) (g p lastPrefix))
    (hg : ∀ p lastPrefix {f}, g p lastPrefix = .error f → f.isRuntimeError = false) (x : RValue) :
    ContainedIff n (pairsOf c field look x) (c.dbOk = true → ∀ pairs, x.elements = .ok pairs →
      ∀ pr ∈ stringPairs pairs none, RuntimeOnly (g pr.2 pr.1)) := by
  unfold pairsOf
  cases hdb : c.dbOk with
  | false => exact ContainedIff.pure.congr (by simp)
  | true =>
    simp only [if_true, forall_const]
    cases hpairs : x.elements with
    | error f => exact ContainedIff.pure.congr (by simp)
    | ok pairs => exact (settled_pairsLoop (hlook hdb) hg pairs none []).congr (by simp)

theorem getkeysafterCallback (h : req.WellFormed) :
    ContainedIff n (routeCoreGetkeysafterCallback c req)
      (OnBody req (GetkeysafterReads c n req)) := by
  refine settled_withBody h fun x _ => ContainedIff.map ?_
  refine (settled_pairsOf (fun hdb _ p lastPrefix => getAfter_yields hdb) (fun p lastPrefix =>
    collect_error appendsFor_keyedItems) x).congr ?_
  simp only [runtimeOnly_collect appendsFor_keyedItems]
  exact Iff.rfl

theorem appendsFor_lastItems (index : ℤ) : AppendsFor (lastItems index) :=
  appendsFor_of (fun e v h => ⟨_, by rw [lastItems, h]⟩) fun e f h => ⟨_, by rw [lastItems, h]⟩

theorem runtimeOnly_lastAfter (pr : Bytes × Bytes) :
    RuntimeOnly (lastAfter n.db pr.2 pr.1) ↔ ReadsWell (lastEntry n.db pr).toList := by
  rcases lastAfter_cases n.db pr with ⟨hentry, hlast⟩ | ⟨e, index, hentry, hlast⟩
  · simp [hentry, hlast, ReadsWell]
  · rw [hentry, hlast, (appendsFor_lastItems index).runtimeOnly_iff]
    simp [ReadsWell]

theorem lastAfter_error {pr : Bytes × Bytes} {f : Failure}
    (hf : lastAfter n.db pr.2 pr.1 = .error f) : f.isRuntimeError = false := by
  rcases lastAfter_cases n.db pr with ⟨-, hlast⟩ | ⟨e, index, -, hlast⟩
  · rw [hlast] at hf
    cases hf
  · exact (appendsFor_lastItems index).error (hlast.symm.trans hf)

theorem getkeyslastCallback (h : req.WellFormed) :
    ContainedIff n (routeCoreGetkeyslastCallback c req) (OnBody req (GetkeyslastReads c n)) := by
  refine settled_withBody h fun x _ => ContainedIff.map ?_
  refine (settled_pairsOf (fun hdb _ p lastPrefix => getLast_yields hdb) (fun p lastPrefix =>
    @lastAfter_error n (lastPrefix, p)) x).congr ?_
  simp only [runtimeOnly_lastAfter]
  exact Iff.rfl

end

/-! ## Sorted listings -/

/-- An object passes the filter, if there is one. -/
def Passes (filter : Bytes) (x : RValue) : Prop :=
  filter = [] ∨ ∃ filterBy v, load filter = some filterBy ∧ x.field (ascii "value") = .ok v ∧
    validate v filterBy = .ok true

/-- The first loop of `getSorted` goes well for an object: the filter can be printed and is
defined on the value of the object, and an object that passes it can be printed. -/
structure ObjectFits (filter : Bytes) (x : RValue) : Prop where
  log : RuntimeOnly (loadValue filter)
  defined : ∀ filterBy v, load filter = some filterBy → x.field (ascii "value") = .ok v →
    RuntimeOnly (validate v filterBy)
  object : Passes filter x → RuntimeOnly (WValue.ofRValue x)

/-- The objects that `getSorted` gathers. -/
def keptOf (filter : Bytes) (es : List Entry) : List RValue :=
  es.filterMap fun e => (load (keyVal e)).bind fun x => (filtered filter x).toOption.join

/-- All entries are objects that the filter can be applied to, so that the result is sorted. -/
def allFiltered (filter : Bytes) (es : List Entry) : Bool :=
  es.all fun e => (load (keyVal e)).any fun x => (filtered filter x).isOk

/-- `getSorted` goes well for the entries that match. -/
structure SortsWell (sortby filter : Bytes) (es : List Entry) : Prop where
  fits : ∀ x ∈ madeOf es, ObjectFits filter x
  sorts : sortby ≠ [] → allFiltered filter es = true →
    Sortable (jsonComparer sortby) (keptOf filter es)

/-- The matching entries can be filtered and sorted. -/
def GetsortedReads : Prop :=
  ∀ sortby, req.get (ascii "sortby") = .ok sortby →
    ∀ filterBy, req.get (ascii "filter") = .ok filterBy →
    ∀ descending, req.get (ascii "des") = .ok descending → ∀ wild, req.wild = .ok wild →
      wild ≠ [] → c.dbOk = true → startsWithStar wild = false →
        SortsWell sortby filterBy ((forwardRange n.db (starPrefix wild)).filter (accepts wild))

section

variable {c : Config} {n : Node} {req : Request} {sortby filter : Bytes} {x : RValue}
  {es : List Entry}

/-- A value that is converted with runtime errors only is converted. -/
theorem exists_ofRValue (h : RuntimeOnly (WValue.ofRValue x)) : ∃ w, WValue.ofRValue x = .ok w := by
  cases hx : WValue.ofRValue x with
  | ok w => exact ⟨w, rfl⟩
  | error f =>
    rw [hx, ofRValue_error hx] at h
    cases h

/-- A filter that can be parsed. -/
theorem filtered_of_load {filterBy : RValue} (hload : load filter = some filterBy) :
    filtered filter x = (WValue.ofRValue filterBy).bind fun _ =>
      (x.field (ascii "value")).bind fun v => (validate v filterBy).bind fun keep =>
        if keep then (WValue.ofRValue x).map fun _ => some x else .ok none := by
  have hne : filter ≠ [] := by
    rintro rfl
    cases hload
  unfold filtered
  rw [if_pos hne, loadValue, hload]
  change ((WValue.ofRValue filterBy).bind fun _ => (x.field (ascii "value")).bind fun v =>
    (validate v filterBy).bind fun keep => if keep then (do
      let _ ← WValue.ofRValue x
      return some x) else .ok none) = _
  have hobject : (do
      let _ ← WValue.ofRValue x
      return some x) = (WValue.ofRValue x).map fun _ => some x := by
    cases WValue.ofRValue x <;> rfl
  rw [hobject]

theorem runtimeOnly_filtered : RuntimeOnly (filtered filter x) ↔ ObjectFits filter x := by
  cases hload : load filter with
  | none =>
    have hlog : RuntimeOnly (loadValue filter) := by simp [loadValue, hload, checked, Except.bind,
      Failure.isRuntimeError]
    by_cases hfilter : filter = []
    · subst hfilter
      rw [filtered_nil, RuntimeOnly.map]
      exact ⟨fun h => ⟨hlog, by simp [hload], fun _ => h⟩, fun h => h.object (Or.inl rfl)⟩
    · refine iff_of_true ?_ ⟨hlog, by simp [hload], ?_⟩
      · unfold filtered
        rw [if_pos hfilter]
        simp [loadValue, hload, checked, Except.bind, bind, Failure.isRuntimeError]
      · rintro (hnil | ⟨filterBy, -, h, -⟩)
        · exact absurd hnil hfilter
        · rw [hload] at h
          cases h
  | some filterBy =>
    have hlog : loadValue filter = WValue.ofRValue filterBy := by rw [loadValue, hload]; rfl
    have hfilter : filter ≠ [] := by
      rintro rfl
      cases hload
    rw [filtered_of_load hload]
    constructor
    · intro h
      obtain ⟨hprinted, h⟩ := RuntimeOnly.bind.mp h
      obtain ⟨w, hw⟩ := exists_ofRValue hprinted
      have hvalidate := (RuntimeOnly.bind.mp (h w hw)).2
      refine ⟨hlog ▸ hprinted, fun filterBy' v hload' hv => ?_, fun hpasses => ?_⟩
      · obtain rfl := Option.some.inj (hload.symm.trans hload')
        exact (RuntimeOnly.bind.mp (hvalidate v hv)).1
      · obtain ⟨filterBy', v, hload', hv, hkeep⟩ := hpasses.resolve_left hfilter
        obtain rfl := Option.some.inj (hload.symm.trans hload')
        exact RuntimeOnly.map.mp ((RuntimeOnly.bind.mp (hvalidate v hv)).2 true hkeep)
    · intro h
      refine RuntimeOnly.bind.mpr ⟨hlog ▸ h.log, fun _ _ => RuntimeOnly.bind.mpr
        ⟨runtimeOnly_field x _, fun v hv => RuntimeOnly.bind.mpr
          ⟨h.defined filterBy v hload hv, fun keep hkeep => ?_⟩⟩⟩
      cases keep with
      | false => trivial
      | true =>
        exact RuntimeOnly.map.mpr (h.object (Or.inr ⟨filterBy, v, hload, hv, hkeep⟩))

/-- What the first loop gathers. -/
theorem gather_fits (h : ∀ x ∈ madeOf es, ObjectFits filter x) (g : Gathered) :
    ∃ ret, gather filter es g = .ok ⟨g.allResults ++ keptOf filter es,
      g.isSortable && allFiltered filter es, ret⟩ := by
  induction es generalizing g with
  | nil => exact ⟨g.ret, by simp [gather, keptOf, allFiltered]⟩
  | cons e es ih =>
    unfold gather keptOf allFiltered
    rw [List.filterMap_cons, List.all_cons]
    cases hload : load (keyVal e) with
    | none =>
      simp only [madeOf_cons, hload, Option.toList, List.nil_append] at h
      obtain ⟨ret, hret⟩ := ih h { g with isSortable := false }
      exact ⟨ret, by simpa [keptOf] using hret⟩
    | some x =>
      simp only [madeOf_cons, hload, Option.toList, List.singleton_append] at h
      obtain ⟨hx, hes⟩ := List.forall_mem_cons.mp h
      have hfits := runtimeOnly_filtered.mpr hx
      simp only [Option.bind_some, Option.any_some]
      cases hkept : filtered filter x with
      | ok kept =>
        obtain ⟨ret, hret⟩ := ih hes { g with allResults := g.allResults ++ kept.toList }
        refine ⟨ret, hret.trans ?_⟩
        cases kept <;> simp [keptOf, allFiltered, Except.toOption, Except.isOk, Except.toBool]
      | error f =>
        rw [hkept, RuntimeOnly.error] at hfits
        obtain ⟨ret, hret⟩ := ih hes { g with isSortable := false, ret := false }
        refine ⟨ret, (if_pos hfits).trans (hret.trans ?_)⟩
        simp [keptOf, Except.toOption, Except.isOk, Except.toBool]

theorem gather_raises (h : ¬∀ x ∈ madeOf es, ObjectFits filter x) (g : Gathered) :
    ¬RuntimeOnly (gather filter es g) := by
  induction es generalizing g with
  | nil => exact absurd (fun x hx => absurd hx List.not_mem_nil) h
  | cons e es ih =>
    unfold gather
    cases hload : load (keyVal e) with
    | none =>
      simp only [madeOf_cons, hload, Option.toList, List.nil_append] at h
      exact ih h _
    | some x =>
      simp only [madeOf_cons, hload, Option.toList, List.singleton_append, List.forall_mem_cons,
        not_and] at h
      simp only
      by_cases hx : ObjectFits filter x
      · have hfits := runtimeOnly_filtered.mpr hx
        cases hkept : filtered filter x with
        | ok kept => exact ih (h hx) _
        | error f =>
          rw [hkept, RuntimeOnly.error] at hfits
          simp only [hfits, if_true]
          exact ih (h hx) _
      · obtain ⟨f, hf, hescapes⟩ :=
          RuntimeOnly.exists_of_not fun hfits => hx (runtimeOnly_filtered.mp hfits)
        simp [hf, hescapes]

/-- An object that is kept can be converted. -/
theorem of_filtered_some {y : RValue} (h : filtered filter y = .ok (some x)) :
    ∃ w, WValue.ofRValue x = .ok w := by
  have hmap : ∀ {y}, (WValue.ofRValue y).map (fun _ => some y) = .ok (some x) →
      ∃ w, WValue.ofRValue x = .ok w := by
    intro y hy
    obtain ⟨w, hw, heq⟩ := of_map_ok hy
    cases heq
    exact ⟨w, hw⟩
  cases hload : load filter with
  | none =>
    by_cases hfilter : filter = []
    · subst hfilter
      rw [filtered_nil] at h
      exact hmap h
    · unfold filtered at h
      simp [hfilter, loadValue, hload, checked, Except.bind, bind] at h
  | some filterBy =>
    rw [filtered_of_load hload] at h
    obtain ⟨_, -, h⟩ := of_bind_ok h
    obtain ⟨v, -, h⟩ := of_bind_ok h
    obtain ⟨keep, -, h⟩ := of_bind_ok h
    cases keep with
    | false => cases h
    | true => exact hmap h

/-- The objects that are gathered can be converted. -/
theorem exists_ofRValue_of_mem_keptOf (hx : x ∈ keptOf filter es) :
    ∃ w, WValue.ofRValue x = .ok w := by
  obtain ⟨e, -, he⟩ := List.mem_filterMap.mp hx
  obtain ⟨y, -, hy⟩ := Option.bind_eq_some_iff.mp he
  refine @of_filtered_some filter x y ?_
  cases hkept : filtered filter y with
  | ok kept =>
    rw [hkept] at hy
    exact congrArg Except.ok hy
  | error f =>
    rw [hkept] at hy
    cases hy

theorem runtimeOnly_sortedItem {w : WValue} (h : WValue.ofRValue x = .ok w) :
    RuntimeOnly (sortedItem x) := by
  have hfield : ∀ name y, x.field name = .ok y → RuntimeOnly (WValue.ofRValue y) := by
    intro name y hy
    obtain ⟨l, rfl, hl⟩ := RValue.field_cases hy
    obtain ⟨fs, hfs, -⟩ := WValue.ofRValue_object h
    obtain ⟨v, hv⟩ := WValue.ofFields_ok hfs hl
    rw [hv]
    trivial
  refine RuntimeOnly.caught (RuntimeOnly.bind.mpr ⟨runtimeOnly_field x _, fun y hy =>
    RuntimeOnly.bind.mpr ⟨hfield _ y hy, fun _ _ => RuntimeOnly.bind.mpr ⟨runtimeOnly_field x _,
      fun y' hy' => RuntimeOnly.bind.mpr ⟨hfield _ y' hy', fun _ _ => trivial⟩⟩⟩⟩) trivial

theorem runtimeOnly_sortedItems {xs : List RValue}
    (h : ∀ x ∈ xs, ∃ w, WValue.ofRValue x = .ok w) : RuntimeOnly (sortedItems xs) := by
  induction xs with
  | nil => trivial
  | cons x xs ih =>
    obtain ⟨⟨w, hw⟩, hxs⟩ := List.forall_mem_cons.mp h
    exact RuntimeOnly.bind.mpr ⟨runtimeOnly_sortedItem hw, fun _ _ =>
      RuntimeOnly.bind.mpr ⟨ih hxs, fun _ _ => trivial⟩⟩

theorem runtimeOnly_sortedListing [UnstableSort] {ascending : Bool} {win : Window} :
    RuntimeOnly (sortedListing sortby ascending win filter es) ↔ SortsWell sortby filter es := by
  by_cases hfits : ∀ x ∈ madeOf es, ObjectFits filter x
  · obtain ⟨ret, hgather⟩ := gather_fits hfits ⟨[], decide (sortby ≠ []), true⟩
    rw [List.nil_append] at hgather
    unfold sortedListing
    rw [hgather]
    have hkept : ∀ y ∈ keptOf filter es, ∃ w, WValue.ofRValue y = .ok w := fun y hy =>
      exists_ofRValue_of_mem_keptOf hy
    have hlisting : ∀ ys : List RValue, (∀ y ∈ ys, y ∈ keptOf filter es) →
        RuntimeOnly (sortedItems
          (scan (fun _ => true) win (if ascending then ys else ys.reverse))) := by
      intro ys hys
      refine runtimeOnly_sortedItems fun y hy => hkept y (hys y ?_)
      have hmem := List.mem_of_mem_filter ((scan_sublist_filter _).mem hy)
      split at hmem
      · exact hmem
      · exact List.mem_reverse.mp hmem
    have hanswer : ∀ ys : List RValue, (∀ y ∈ ys, y ∈ keptOf filter es) →
        RuntimeOnly ((sortedItems (scan (fun _ => true) win
          (if ascending then ys else ys.reverse))).bind fun items => .ok (ret, items)) :=
      fun ys hys => RuntimeOnly.bind.mpr ⟨hlisting ys hys, fun _ _ => trivial⟩
    have hsorts : SortsWell sortby filter es ↔
        ((decide (sortby ≠ []) && allFiltered filter es) = true →
          Sortable (jsonComparer sortby) (keptOf filter es)) := by
      simp only [Bool.and_eq_true, decide_eq_true_eq, and_imp]
      exact ⟨fun h => h.sorts, fun h => ⟨hfits, h⟩⟩
    rw [hsorts]
    cases hsortable : decide (sortby ≠ []) && allFiltered filter es with
    | false => exact iff_of_true (hanswer _ fun _ hy => hy) fun h => absurd h Bool.false_ne_true
    | true =>
      simp only [forall_const]
      by_cases hsort : Sortable (jsonComparer sortby) (keptOf filter es)
      · refine iff_of_true ?_ hsort
        have hstd : stdSort (jsonComparer sortby) (keptOf filter es) = .ok (UnstableSort.sort
          (fun a b => (jsonComparer sortby a b).toOption.getD false) (keptOf filter es)) :=
            if_pos hsort
        change RuntimeOnly ((stdSort (jsonComparer sortby) (keptOf filter es)).bind fun ys =>
          (sortedItems (scan (fun _ => true) win (if ascending then ys else ys.reverse))).bind
            fun items => .ok (ret, items))
        rw [hstd]
        exact hanswer _ fun y hy => (UnstableSort.perm _ _).mem_iff.mp hy
      · refine iff_of_false (fun h => ?_) hsort
        have hstd : stdSort (jsonComparer sortby) (keptOf filter es) = .error .undefined :=
          if_neg hsort
        have hruntime := (RuntimeOnly.bind.mp (show RuntimeOnly
          ((stdSort (jsonComparer sortby) (keptOf filter es)).bind fun ys => _) from h)).1
        rw [hstd] at hruntime
        cases hruntime
  · refine iff_of_false (fun h => ?_) fun h => hfits h.fits
    exact gather_raises hfits _ (RuntimeOnly.bind.mp h).1

theorem getsortedCallback [UnstableSort] (h : req.WellFormed) :
    ContainedIff n (routeCoreGetsortedCallback c req) (GetsortedReads c n req) := by
  unfold GetsortedReads
  refine ContainedIff.catchWhat (ContainedIff.ofExcept_of_runtimeOnly (h.get _) fun sortby _ =>
    ContainedIff.ofExcept_of_runtimeOnly (h.get _) fun filterBy _ =>
      ContainedIff.ofExcept_of_runtimeOnly (h.get _) fun descending _ =>
        ContainedIff.ofExcept_of_runtimeOnly (h.get _) fun wild _ => ?_)
  split
  · next hwild => exact ContainedIff.pure.congr (by simp [hwild])
  · next hwild =>
    refine (settled_scanDb.map.map).congr ?_
    simp only [runtimeOnly_sortedListing]
    exact ⟨fun h _ => h, fun h => h hwild⟩

end

end Routing

end Quarks
