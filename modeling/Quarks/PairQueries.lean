import Quarks.CachedListing
import Quarks.Core.After

/-!
# Queries for several pairs

`getKeysAfter` and `getKeysLast` look each pair of a prefix and a key up, all with the same
vector of results. The elements of a moved vector stay in place as empty shells, so that the
lists of the later pairs start with as many of them as the earlier pairs have given results.
-/

namespace Quarks

open Basis

/-- The arguments are an even number of strings: prefixes and keys, which alternate. -/
def GivesPairs (args : RValue) (pairs : List (Bytes × Bytes)) : Prop :=
  ∃ elems, args.elements = .ok elems ∧
    elems.map RValue.s = pairs.flatMap fun pr => [.ok pr.1, .ok pr.2]

/-- The result for a pair: its list, under the name of the query, and its key. -/
def pairResult (field : Bytes) (out : List WValue) (key : Bytes) : WValue :=
  (WValue.null.set field (.list out)).set (ascii "key") (.string key)

section

variable (faults : Faults) (w : World)

/-- The query for several pairs has one result for each of them, with the list that the lookup
of this pair alone gives. -/
def TreatsAlone (field : Bytes) (query : CoreM (Bool × List WValue))
    (look : (p lastPrefix : Bytes) → CoreM (Bool × List WValue)) (pairs : List (Bytes × Bytes)) :
    Prop :=
  ∃ ret results, answer faults w query = .ok (ret, results) ∧
    List.Forall₂ (fun (pr : Bytes × Bytes) result => ∃ b out,
      answer faults w (look pr.2 pr.1) = .ok (b, out) ∧ result = pairResult field out pr.2)
      pairs results

end

/-! ## The loop -/

section

variable {faults : Faults} {n : Node} {field : Bytes}
  {look : (p lastPrefix : Bytes) → CoreM (Bool × List WValue)}
  {g : (p lastPrefix : Bytes) → Except Failure (Bool × List WValue)}

/-- What the loop gives for pairs, where `out` holds the shells of earlier results. -/
def pairsGiven (field : Bytes) (g : (p lastPrefix : Bytes) → Except Failure (Bool × List WValue)) :
    List (Bytes × Bytes) → (out : List WValue) → Except Failure (List WValue)
  | [], _ => .ok []
  | (lastPrefix, p) :: pairs, out => match g p lastPrefix with
    | .error f => .error f
    | .ok (true, items) => (pairsGiven field g pairs ((out ++ items).map movedFrom)).map
        (pairResult field (out ++ items) p :: ·)
    | .ok (false, items) => pairsGiven field g pairs (out ++ items)

/-- The loop over strings that alternate goes from pair to pair. -/
theorem pairsLoop_yields
    (hlook : ∀ p lastPrefix, Yields faults n (look p lastPrefix) (g p lastPrefix))
    {pairs : List (Bytes × Bytes)} {elems : List RValue} (out : List WValue)
    (helems : elems.map RValue.s = pairs.flatMap fun pr => [.ok pr.1, .ok pr.2]) :
    Yields faults n (pairsLoop field look elems none out)
      ((pairsGiven field g pairs out).map fun results => (true, results)) := by
  induction pairs generalizing elems out with
  | nil =>
    obtain rfl : elems = [] := by simpa using helems
    exact Yields.pure _
  | cons pr pairs ih =>
    obtain ⟨lastPrefix, p⟩ := pr
    rw [List.flatMap_cons, List.cons_append, List.singleton_append] at helems
    obtain ⟨x, elems, rfl, hx, helems⟩ := List.map_eq_cons_iff.mp helems
    obtain ⟨y, elems, rfl, hy, helems⟩ := List.map_eq_cons_iff.mp helems
    have hyields := hlook p lastPrefix
    simp only [pairsLoop, hx, hy, pairsGiven]
    rcases hg : g p lastPrefix with f | ⟨_ | _, items⟩
    · rw [hg] at hyields
      exact Yields.bind_error hyields
    · rw [hg] at hyields
      exact Yields.bind_ok hyields (ih (out ++ items) helems)
    · rw [hg] at hyields
      refine Yields.bind_ok hyields ?_
      have hloop := ih ((out ++ items).map movedFrom) helems
      simp only [if_true]
      cases hgiven : pairsGiven field g pairs ((out ++ items).map movedFrom) with
      | error f =>
        rw [hgiven] at hloop
        exact Yields.bind_error hloop
      | ok results =>
        rw [hgiven] at hloop
        exact Yields.bind_ok hloop (Yields.pure _)

/-- Lookups that fail leave no result. -/
theorem length_pairsGiven_le {pairs : List (Bytes × Bytes)} {out results : List WValue}
    (h : pairsGiven field g pairs out = .ok results) : results.length ≤ pairs.length := by
  induction pairs generalizing out results with
  | nil =>
    cases h
    exact le_rfl
  | cons pr pairs ih =>
    obtain ⟨lastPrefix, p⟩ := pr
    rw [pairsGiven] at h
    split at h
    · cases h
    · next items _ =>
      cases hgiven : pairsGiven field g pairs ((out ++ items).map movedFrom) with
      | error f =>
        rw [hgiven] at h
        cases h
      | ok rest =>
        rw [hgiven] at h
        cases h
        exact Nat.succ_le_succ (ih hgiven)
    · exact (ih h).trans (Nat.le_succ _)

theorem pairResult_inj {out items : List WValue} {key : Bytes} (hfield : field ≠ ascii "key")
    (h : pairResult field out key = pairResult field items key) : out = items := by
  have hset : ∀ l : List WValue, pairResult field l key =
      .object [(field, .list l), (ascii "key", .string key)] := by
    intro l
    simp [pairResult, WValue.set, WValue.assign, List.lookup_cons,
      beq_eq_false_iff_ne.mpr hfield.symm]
  rw [hset, hset] at h
  simpa using h

/-- Every result is that of its pair alone, if and only if each lookup succeeds, those before the
last one find nothing, and nothing was left over before them. -/
theorem pairsGiven_alone_iff (hfield : field ≠ ascii "key") {pairs : List (Bytes × Bytes)}
    {out : List WValue} :
    (∃ results, pairsGiven field g pairs out = .ok results ∧
      List.Forall₂ (fun (pr : Bytes × Bytes) result => ∃ b items,
        g pr.2 pr.1 = .ok (b, items) ∧ result = pairResult field items pr.2) pairs results) ↔
    (pairs ≠ [] → out = []) ∧ (∀ pr ∈ pairs, ∃ items, g pr.2 pr.1 = .ok (true, items)) ∧
      ∀ pr ∈ pairs.dropLast, g pr.2 pr.1 = .ok (true, []) := by
  induction pairs generalizing out with
  | nil => simp [pairsGiven]
  | cons pr pairs ih =>
    obtain ⟨lastPrefix, p⟩ := pr
    rcases hg : g p lastPrefix with f | ⟨_ | _, items⟩
    · simp [pairsGiven, hg]
    · -- a lookup that fails leaves too few results
      refine iff_of_false ?_ (by simp [hg])
      rintro ⟨results, hgiven, hall⟩
      simp only [pairsGiven, hg] at hgiven
      have hlen := length_pairsGiven_le hgiven
      have hcount := hall.length_eq
      simp only [List.length_cons] at hcount
      omega
    · have hstep : (∃ results, pairsGiven field g ((lastPrefix, p) :: pairs) out = .ok results ∧
          List.Forall₂ (fun (pr : Bytes × Bytes) result => ∃ b items,
            g pr.2 pr.1 = .ok (b, items) ∧ result = pairResult field items pr.2)
            ((lastPrefix, p) :: pairs) results) ↔
          out = [] ∧ ∃ results,
            pairsGiven field g pairs ((out ++ items).map movedFrom) = .ok results ∧
            List.Forall₂ (fun (pr : Bytes × Bytes) result => ∃ b items,
              g pr.2 pr.1 = .ok (b, items) ∧ result = pairResult field items pr.2)
              pairs results := by
        constructor
        · rintro ⟨results, hgiven, hall⟩
          simp only [pairsGiven, hg] at hgiven
          cases hrest : pairsGiven field g pairs ((out ++ items).map movedFrom) with
          | error f =>
            rw [hrest] at hgiven
            cases hgiven
          | ok rest =>
            rw [hrest] at hgiven
            cases hgiven
            obtain ⟨⟨b, alone, halone, heq⟩, htail⟩ := List.forall₂_cons.mp hall
            rw [hg] at halone
            cases halone
            have hlist := pairResult_inj hfield heq
            exact ⟨List.append_left_eq_self.mp hlist, rest, rfl, htail⟩
        · rintro ⟨rfl, rest, hrest, htail⟩
          rw [List.nil_append] at hrest
          refine ⟨pairResult field items p :: rest, ?_, ?_⟩
          · simp [pairsGiven, hg, hrest, Except.map]
          · exact List.forall₂_cons.mpr ⟨⟨true, items, hg, rfl⟩, htail⟩
      rw [hstep, ih]
      cases pairs with
      | nil => simp [hg]
      | cons next pairs =>
        simp only [ne_eq, reduceCtorEq, not_false_eq_true, forall_const, List.map_eq_nil_iff,
          List.append_eq_nil_iff, List.forall_mem_cons, hg, List.dropLast_cons_cons,
          Except.ok.injEq, Prod.mk.injEq, true_and, exists_eq']
        tauto

end

/-! ## The two queries -/

/-- The entries that `getAfter` gives for a pair. -/
def afterWindow (store : Store) (win : Window) (pr : Bytes × Bytes) : List Entry :=
  scan (fun _ => true) win (afterRange store pr.2 pr.1)

/-- The entry that `getLast` gives for a pair. -/
def lastEntry (store : Store) (pr : Bytes × Bytes) : Option Entry :=
  let r := (startAfter store pr.2).skipWhile (startsWith pr.1)
  if 0 < int32 r.1 then r.2.prev.entry? else none

/-- The pairs do not get in each other's way: what they find can be read, and those before the
last one find nothing. -/
structure Apart (pairs : List (Bytes × Bytes)) (found : Bytes × Bytes → List Entry) : Prop where
  reads : ∀ pr ∈ pairs, ∀ e ∈ found pr, (entryValue e.2).isOk = true
  nothing : ∀ pr ∈ pairs.dropLast, found pr = []

instance (pairs : List (Bytes × Bytes)) (found : Bytes × Bytes → List Entry) :
    Decidable (Apart pairs found) :=
  decidable_of_iff ((∀ pr ∈ pairs, ∀ e ∈ found pr, (entryValue e.2).isOk = true) ∧
    ∀ pr ∈ pairs.dropLast, found pr = []) ⟨fun h => ⟨h.1, h.2⟩, fun h => ⟨h.reads, h.nothing⟩⟩

/-- A listing succeeds exactly if it can read every value. -/
theorem collect_keyedItems_true_iff (es : List Entry) :
    (∃ items, collect keyedItems es = .ok (true, items)) ↔
      ∀ e ∈ es, (entryValue e.2).isOk = true := by
  have hread : ∀ e : Entry, (raises e.2 = false ∧ unreadable e.2 = false) ↔
      (entryValue e.2).isOk = true := by
    intro e
    unfold raises unreadable
    cases entryValue e.2 with
    | ok v => simp [Except.isOk, Except.toBool]
    | error f => cases hf : f.isRuntimeError <;> simp [hf, Except.isOk, Except.toBool]
  rcases collect_keyedItems_cases es with ⟨hany, f, hf⟩ | ⟨hany, items, hitems⟩
  · simp only [List.any_eq_true] at hany
    obtain ⟨e, he, hraises⟩ := hany
    refine iff_of_false (by simp [hf]) fun hall => ?_
    rw [((hread e).mpr (hall e he)).1] at hraises
    cases hraises
  · simp only [List.any_eq_false, Bool.not_eq_true] at hany
    simp only [hitems, Except.ok.injEq, Prod.mk.injEq, exists_and_left, exists_eq', and_true,
      List.all_eq_true, Bool.not_eq_true']
    exact forall₂_congr fun e he => ⟨fun h => (hread e).mp ⟨hany e he, h⟩,
      fun h => ((hread e).mpr h).2⟩

theorem collect_keyedItems_nil_iff (es : List Entry) :
    collect keyedItems es = .ok (true, []) ↔ es = [] := by
  cases es with
  | nil => simp [collect]
  | cons e es =>
    refine iff_of_false (fun h => ?_) (by simp)
    obtain ⟨r, hr, h⟩ := of_bind_ok h
    obtain ⟨rest, -, h⟩ := of_bind_ok h
    have hitems : r.2 ≠ [] := by
      unfold keyedItems at hr
      split at hr
      · cases hr
        simp
      · split at hr
        · cases hr
          simp
        · cases hr
    simp only [pure, Except.pure, Except.ok.injEq, Prod.mk.injEq, List.append_eq_nil_iff] at h
    exact hitems h.2.1

/-- `getLast` gives the entry that it reaches, or nothing. -/
theorem lastAfter_cases (store : Store) (pr : Bytes × Bytes) :
    (lastEntry store pr = none ∧ lastAfter store pr.2 pr.1 = .ok (true, [])) ∨
      ∃ e index, lastEntry store pr = some e ∧ lastAfter store pr.2 pr.1 = lastItems index e := by
  unfold lastAfter lastEntry
  generalize (startAfter store pr.2).skipWhile (startsWith pr.1) = r
  by_cases hcount : 0 < int32 r.1
  · simp only [if_pos hcount]
    cases r.2.prev.entry? with
    | none => exact Or.inl ⟨rfl, rfl⟩
    | some e => exact Or.inr ⟨e, _, rfl, rfl⟩
  · exact Or.inl ⟨if_neg hcount, if_neg hcount⟩

theorem lastItems_true_iff {index : ℤ} {e : Entry} :
    (∃ items, lastItems index e = .ok (true, items)) ↔ (entryValue e.2).isOk = true := by
  unfold lastItems
  cases entryValue e.2 with
  | ok v => simp [Except.isOk, Except.toBool]
  | error f =>
    simp only [Except.isOk, Except.toBool, Bool.false_eq_true, iff_false, not_exists]
    intro items
    split <;> simp

theorem lastItems_ne_nil {index : ℤ} {e : Entry} : lastItems index e ≠ .ok (true, []) := by
  unfold lastItems
  cases entryValue e.2 with
  | ok v => simp
  | error f =>
    simp only
    split <;> simp

section

variable {faults : Faults} {c : Config} {w : World} {args : RValue} {win : Window}
  {pairs : List (Bytes × Bytes)} (hdb : c.dbOk = true) (hargs : GivesPairs args pairs)
include hdb hargs

/-- A query for several pairs treats each of them on its own exactly if each lookup succeeds and
those before the last one find nothing. -/
theorem treatsAlone_iff {field : Bytes} (hfield : field ≠ ascii "key")
    {look : (p lastPrefix : Bytes) → CoreM (Bool × List WValue)}
    {g : (p lastPrefix : Bytes) → Except Failure (Bool × List WValue)}
    (hlook : ∀ p lastPrefix, Yields faults w.node (look p lastPrefix) (g p lastPrefix)) :
    TreatsAlone faults w field (pairsOf c field look args) look pairs ↔
      (∀ pr ∈ pairs, ∃ items, g pr.2 pr.1 = .ok (true, items)) ∧
        ∀ pr ∈ pairs.dropLast, g pr.2 pr.1 = .ok (true, []) := by
  obtain ⟨elems, helements, helems⟩ := hargs
  have hquery : answer faults w (pairsOf c field look args) =
      (pairsGiven field g pairs []).map fun results => (true, results) := by
    unfold pairsOf
    rw [hdb, helements]
    exact (pairsLoop_yields hlook [] helems w rfl).1
  have halone : ∀ pr : Bytes × Bytes, answer faults w (look pr.2 pr.1) = g pr.2 pr.1 :=
    fun pr => (hlook pr.2 pr.1 w rfl).1
  have hiff := @pairsGiven_alone_iff field g hfield pairs []
  simp only [implies_true, true_and] at hiff
  rw [← hiff]
  unfold TreatsAlone
  simp only [hquery, halone]
  constructor
  · rintro ⟨ret, results, hgiven, hall⟩
    cases hresults : pairsGiven field g pairs [] with
    | error f =>
      rw [hresults] at hgiven
      cases hgiven
    | ok given =>
      rw [hresults] at hgiven
      cases hgiven
      exact ⟨_, rfl, hall⟩
  · rintro ⟨results, hgiven, hall⟩
    exact ⟨true, results, by rw [hgiven]; rfl, hall⟩

/-- `getKeysAfter` and `getKeysLast` treat each pair on its own exactly if what the pairs find
can be read and those before the last one find nothing. -/
theorem pairs_alone_iff :
    (TreatsAlone faults w (ascii "after") (getKeysAfter c args win)
        (fun p lastPrefix => getAfter c p lastPrefix win) pairs ↔
      Apart pairs (afterWindow w.node.db win)) ∧
    (TreatsAlone faults w (ascii "last") (getKeysLast c args)
        (fun p lastPrefix => getLast c p lastPrefix) pairs ↔
      Apart pairs fun pr => (lastEntry w.node.db pr).toList) := by
  constructor
  · have hiff := @treatsAlone_iff faults c w args pairs hdb hargs (ascii "after") (by decide) _ _
      fun p lastPrefix => @getAfter_yields _ _ _ p lastPrefix win hdb
    refine hiff.trans ⟨fun h => ⟨fun pr hpr => ?_, fun pr hpr => ?_⟩, fun h =>
      ⟨fun pr hpr => ?_, fun pr hpr => ?_⟩⟩
    · exact (collect_keyedItems_true_iff _).mp (h.1 pr hpr)
    · exact (collect_keyedItems_nil_iff _).mp (h.2 pr hpr)
    · exact (collect_keyedItems_true_iff _).mpr (h.reads pr hpr)
    · exact (collect_keyedItems_nil_iff _).mpr (h.nothing pr hpr)
  · have hiff := @treatsAlone_iff faults c w args pairs hdb hargs (ascii "last") (by decide) _ _
      fun p lastPrefix => @getLast_yields _ _ _ p lastPrefix hdb
    have hreads : ∀ pr, (∃ items, lastAfter w.node.db pr.2 pr.1 = .ok (true, items)) ↔
        ∀ e ∈ (lastEntry w.node.db pr).toList, (entryValue e.2).isOk = true := by
      intro pr
      rcases lastAfter_cases w.node.db pr with ⟨hentry, hafter⟩ | ⟨e, index, hentry, hafter⟩
      · simp [hentry, hafter]
      · rw [hentry, hafter]
        simpa using lastItems_true_iff
    have hnothing : ∀ pr, lastAfter w.node.db pr.2 pr.1 = .ok (true, []) ↔
        (lastEntry w.node.db pr).toList = [] := by
      intro pr
      rcases lastAfter_cases w.node.db pr with ⟨hentry, hafter⟩ | ⟨e, index, hentry, hafter⟩
      · simp [hentry, hafter]
      · rw [hentry, hafter]
        simpa using lastItems_ne_nil
    refine hiff.trans ⟨fun h => ⟨fun pr hpr => ?_, fun pr hpr => ?_⟩, fun h =>
      ⟨fun pr hpr => ?_, fun pr hpr => ?_⟩⟩
    · exact (hreads pr).mp (h.1 pr hpr)
    · exact (hnothing pr).mp (h.2 pr hpr)
    · exact (hreads pr).mpr (h.reads pr hpr)
    · exact (hnothing pr).mpr (h.nothing pr hpr)

end

/-- Two keys, each with a longer one behind it. -/
def twoPrefixes : Store :=
  (((OrderedMap.empty.insert (ascii "a") (ascii "0")).insert (ascii "a1") (ascii "1")).insert
    (ascii "b") (ascii "2")).insert (ascii "b1") (ascii "3")

/-- The body with the prefix and the key of each of two pairs. -/
def pairArgs (p q : Bytes) : RValue :=
  .list [.string p, .string p, .string q, .string q]

/-- The theorem where only the second pair finds something. -/
theorem pairs_alone_second :
    TreatsAlone noFaults (openDB uncachedOnly twoPrefixes) (ascii "after")
      (getKeysAfter uncachedOnly (pairArgs (ascii "a1") (ascii "b")) ⟨0, -1⟩)
      (fun p lastPrefix => getAfter uncachedOnly p lastPrefix ⟨0, -1⟩)
      [(ascii "a1", ascii "a1"), (ascii "b", ascii "b")] :=
  (pairs_alone_iff rfl ⟨_, rfl, rfl⟩).1.mpr (by decide +kernel)

/-- The list of the second pair starts with an empty shell, which the first one has left. -/
theorem not_treatsAlone_shell :
    ¬TreatsAlone noFaults (openDB uncachedOnly twoPrefixes) (ascii "after")
      (getKeysAfter uncachedOnly (pairArgs (ascii "a") (ascii "b")) ⟨0, -1⟩)
      (fun p lastPrefix => getAfter uncachedOnly p lastPrefix ⟨0, -1⟩)
      [(ascii "a", ascii "a"), (ascii "b", ascii "b")] := by
  intro h
  have hlook := fun p lastPrefix =>
    @getAfter_yields noFaults (openDB uncachedOnly twoPrefixes).node uncachedOnly p lastPrefix
      ⟨0, -1⟩ rfl
  have hnothing := ((@treatsAlone_iff _ _ _ (pairArgs (ascii "a") (ascii "b")) _ rfl ⟨_, rfl, rfl⟩ _
    (by decide) _ _ hlook).mp h).2 (ascii "a", ascii "a") (by simp)
  have hwindow := (collect_keyedItems_nil_iff _).mp hnothing
  revert hwindow
  decide +kernel

end Quarks
