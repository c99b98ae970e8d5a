import Quarks.CachedReads
import Quarks.TextListings

/-!
# Listings of given keys

`getList` looks up one key after the other. The overload into a vector ends at a value that is
no JSON document; in cached mode that is what an absent key has, as looking it up stores the
empty string under it. The overload into a string goes on, and writes the empty string as a
value.
-/

namespace Quarks

open Basis

/-! ## Looking up -/

/-- What a point read finds: in cached mode an absent key has the empty string. -/
def lookUp (c : Config) (n : Node) (key : Bytes) : Option Bytes :=
  if c.cacheEnabled then some ((n.cache.find? key).getD []) else n.db.find? key

/-- The same is found on these data as on those. -/
def LooksAlike (c : Config) (n m : Node) : Prop := ∀ key, lookUp c m key = lookUp c n key

section

variable {faults : Faults} {c : Config} {n : Node}

/-- In cached mode a read finds what is there, and leaves it to be found again. -/
theorem getCached_settles (hcache : c.cacheEnabled = true) (key : Bytes) :
    Settles faults (LooksAlike c n) (getCached key) (.ok ((n.cache.find? key).getD [])) := by
  intro w hw
  have hfind : ∀ key, (w.node.cache.find? key).getD [] = (n.cache.find? key).getD [] := by
    intro key
    simpa [lookUp, hcache] using hw key
  rw [← hfind key]
  change Except.ok (handle faults (.getCached key) w).1 = _ ∧
    LooksAlike c n (handle faults (.getCached key) w).2.node
  cases hcase : w.node.cache.find? key with
  | some value =>
    simp only [handle, hcase]
    exact ⟨rfl, hw⟩
  | none =>
    simp only [handle, hcase]
    refine ⟨rfl, fun key' => ?_⟩
    simp only [lookUp, hcache, if_true, World.modify_node, Option.some.injEq]
    rw [OrderedMap.find?_insert, ← hfind key']
    split
    · next heq =>
      rw [heq, hcase]
      rfl
    · rfl

/-- The same of `get` in either mode. -/
theorem get_settles (hopen : c.cacheEnabled = false → c.dbOk = true) (key : Bytes) :
    Settles noFaults (LooksAlike c n) (get c key) (.ok (lookUp c n key)) := by
  unfold get
  cases hcache : c.cacheEnabled with
  | false =>
    intro w hw
    have hkey := hw key
    simp only [lookUp, hcache, Bool.false_eq_true, if_false] at hkey ⊢
    obtain ⟨hans, hnode⟩ := @Yields.dbGet w.node key w rfl
    simp only [hopen hcache, if_true]
    exact ⟨by rw [hans, hkey], by rwa [hnode]⟩
  | true =>
    simp only [if_true, lookUp, hcache]
    exact Settles.bind (g := fun value => .ok (some value)) (getCached_settles hcache key)
      fun value _ => Settles.pure _

end

/-! ## The loop over the keys -/

/-- The loop of `getList`, where looking up a key has always the same outcome. -/
def readKeys {α : Type} (look : Bytes → Except Failure (Option α)) (win : Window) :
    List RValue → ℤ → Except Failure (Bool × List α)
  | [], _ => .ok (true, [])
  | v :: vs, i =>
    (caught (v.s.bind fun s => (look s).bind fun found => .ok (some found)) (.ok none)).bind fun
      | none => .ok (false, [])
      | some found => (readKeys look win vs (int32 (i + 1))).bind fun r =>
        .ok (r.1, (if win.takes (int32 (i + 1)) then found.toList else []) ++ r.2)

theorem listLoop_settles {α : Type} {faults : Faults} {I : Node → Prop}
    {lookup : Bytes → CoreM (Option α)} {look : Bytes → Except Failure (Option α)}
    (hlook : ∀ key, Settles faults I (lookup key) (look key)) {win : Window} (vs : List RValue)
    (i : ℤ) : Settles faults I (listLoop lookup win vs i) (readKeys look win vs i) := by
  induction vs generalizing i with
  | nil => exact Settles.pure _
  | cons v vs ih =>
    refine Settles.bind (Settles.catchRuntime (Settles.bind (Settles.ofExcept _) fun s _ =>
      Settles.bind (hlook s) fun found _ => Settles.pure _) (Settles.pure none)) fun item _ => ?_
    cases item with
    | none => exact Settles.pure _
    | some found => exact Settles.bind (ih _) fun r _ => Settles.pure _

/-- The loop ends at the first element that is not a string. -/
def allStrings (vs : List RValue) : Bool := vs.all fun v => v.s.isOk

/-- What the loop takes, if it ends at a key that stops it. -/
def keyEntries (look : Bytes → Option Bytes) (stops : Bytes → Bool) (win : Window) :
    List RValue → ℤ → List Entry
  | [], _ => []
  | v :: vs, i => match v.s with
    | .ok s =>
      if stops s then []
      else (if win.takes (int32 (i + 1)) then ((look s).map fun value => (s, value)).toList
        else []) ++ keyEntries look stops win vs (int32 (i + 1))
    | .error _ => []

section

variable {look : Bytes → Option Bytes} {stops : Bytes → Bool} {win : Window}

theorem s_error {v : RValue} {f : Failure} (h : v.s = .error f) : f.isRuntimeError = true := by
  cases v <;> cases h <;> rfl

/-- A loop that ends earlier takes a part from the start. -/
theorem keyEntries_isPrefix (vs : List RValue) (i : ℤ) :
    keyEntries look stops win vs i <+: keyEntries look (fun _ => false) win vs i := by
  induction vs generalizing i with
  | nil => exact List.prefix_refl []
  | cons v vs ih =>
    simp only [keyEntries]
    cases v.s with
    | error f => exact List.prefix_refl []
    | ok s =>
      simp only [Bool.false_eq_true, if_false]
      split
      · exact List.nil_prefix
      · exact (List.prefix_append_right_inj _).mpr (ih _)

/-- What is taken has been found under a key that does not stop the loop. -/
theorem of_mem_keyEntries {vs : List RValue} {i : ℤ} {e : Entry}
    (h : e ∈ keyEntries look stops win vs i) :
    look e.1 = some e.2 ∧ stops e.1 = false ∧ e.1 ∈ PointRead.lookedUp stops vs := by
  induction vs generalizing i with
  | nil => cases h
  | cons v vs ih =>
    simp only [keyEntries, PointRead.lookedUp] at h ⊢
    cases hs : v.s with
    | error f =>
      rw [hs] at h
      cases h
    | ok s =>
      rw [hs] at h
      simp only at h ⊢
      split at h
      · cases h
      next hstops =>
      rw [if_neg hstops]
      rcases List.mem_append.mp h with h | h
      · split at h
        · obtain ⟨value, hvalue, rfl⟩ := by simpa [Option.map_eq_some_iff] using h
          exact ⟨hvalue, by simpa using hstops, List.mem_cons_self⟩
        · cases h
      · obtain ⟨hlook, hstop, hmem⟩ := ih h
        exact ⟨hlook, hstop, List.mem_cons_of_mem _ hmem⟩

/-- Reading into a string takes all that the window asks for. -/
theorem readKeys_text (vs : List RValue) (i : ℤ) :
    readKeys (fun s => .ok ((look s).map fun value => (s, value))) win vs i =
      .ok (allStrings vs, keyEntries look (fun _ => false) win vs i) := by
  induction vs generalizing i with
  | nil => rfl
  | cons v vs ih =>
    simp only [readKeys, keyEntries, allStrings, List.all_cons]
    cases hs : v.s with
    | error f => simp [Except.bind, caught, s_error hs, Except.isOk, Except.toBool]
    | ok s =>
      simp only [Except.bind, caught, ih]
      rfl

variable (look) in
/-- `getJson` raises a runtime error for a text that is no JSON document. -/
def noJson (key : Bytes) : Bool := (look key).any fun value => !decide (IsJson value)

variable (look) in
/-- The documents under the keys that are looked up can be converted. -/
def AllConvert (vs : List RValue) : Prop :=
  ∀ key ∈ PointRead.lookedUp (noJson look) vs, ∀ value, look key = some value → IsJson value →
    Readable value

variable (look) in
/-- What the overload into a vector makes of what it finds. -/
def keyedValue (key : Bytes) : Except Failure (Option WValue) :=
  match look key with
  | some value => (loadValue value).bind fun v => .ok (some (keyed key v))
  | none => .ok none

theorem allConvert_cons {v : RValue} {vs : List RValue} {s : Bytes} (hs : v.s = .ok s) :
    AllConvert look (v :: vs) ↔ (∀ value, look s = some value → IsJson value → Readable value) ∧
      (noJson look s = false → AllConvert look vs) := by
  unfold AllConvert
  simp only [PointRead.lookedUp, hs, List.forall_mem_cons]
  cases noJson look s <;> simp

/-- A key leads on if it is absent or has a document that can be converted. A text that is
no document raises a runtime error, a document that cannot be converted another one. -/
theorem keyedValue_cases (key : Bytes) :
    (∃ found, keyedValue look key = .ok found ∧ noJson look key = false ∧
        (∀ value, look key = some value → IsJson value → Readable value) ∧
        found.toList = ((look key).map fun value => (key, value)).toList.map keyedEntry) ∨
      (∃ f, keyedValue look key = .error f ∧ f.isRuntimeError = true ∧ noJson look key = true ∧
        ∀ value, look key = some value → IsJson value → Readable value) ∨
      (∃ f, keyedValue look key = .error f ∧ f.isRuntimeError = false ∧
        ¬∀ value, look key = some value → IsJson value → Readable value) := by
  cases hlook : look key with
  | none => exact Or.inl ⟨none, by simp [keyedValue, hlook], by simp [noJson, hlook], by simp⟩
  | some value =>
    by_cases hjson : IsJson value
    · have hload := loadValue_of_isJson hjson
      by_cases hread : Readable value
      · rw [if_pos hread] at hload
        refine Or.inl ⟨some (keyedEntry (key, value)), ?_, ?_, ?_, rfl⟩
        · simp [keyedValue, hlook, hload, Except.bind, keyedEntry]
        · simp [noJson, hlook, hjson]
        · rintro _ ⟨⟩ -
          exact hread
      · rw [if_neg hread] at hload
        refine Or.inr (Or.inr ⟨.badLexicalCast, ?_, rfl, fun h => hread (h value rfl hjson)⟩)
        simp [keyedValue, hlook, hload, Except.bind]
    · have hload : load value = none := by simpa [IsJson] using hjson
      refine Or.inr (Or.inl ⟨.runtimeError (ascii "invalid json object"), ?_, rfl, ?_, ?_⟩)
      · simp only [keyedValue, hlook, loadValue, hload, checked, Except.bind]
      · simp [noJson, hlook, hjson]
      · rintro _ ⟨⟩ h
        exact absurd h hjson

theorem readKeys_cons {α : Type} {look : Bytes → Except Failure (Option α)} {v : RValue}
    {vs : List RValue} {s : Bytes} {i : ℤ} (hs : v.s = .ok s) :
    readKeys look win (v :: vs) i = match look s with
      | .ok found => (readKeys look win vs (int32 (i + 1))).bind fun r =>
        .ok (r.1, (if win.takes (int32 (i + 1)) then found.toList else []) ++ r.2)
      | .error f => if f.isRuntimeError then .ok (false, []) else .error f := by
  cases hfound : look s with
  | ok found => simp only [readKeys, hs, hfound, Except.bind, caught]
  | error f =>
    cases hf : f.isRuntimeError <;> simp [readKeys, hs, hfound, Except.bind, caught, hf]

/-- Reading into a vector ends at the first text that is no JSON document, and raises an
exception if a document cannot be converted. -/
theorem readKeys_vector (vs : List RValue) (i : ℤ) :
    (AllConvert look vs ∧ ∃ ok, readKeys (keyedValue look) win vs i =
        .ok (ok, (keyEntries look (noJson look) win vs i).map keyedEntry)) ∨
      (¬AllConvert look vs ∧ ∃ f, readKeys (keyedValue look) win vs i = .error f) := by
  induction vs generalizing i with
  | nil => exact Or.inl ⟨fun key h => (by cases h), true, rfl⟩
  | cons v vs ih =>
    cases hs : v.s with
    | error f =>
      refine Or.inl ⟨fun key h => ?_, false, ?_⟩
      · simp only [PointRead.lookedUp, hs] at h
        cases h
      · simp [readKeys, keyEntries, hs, Except.bind, caught, s_error hs]
    | ok s =>
      rw [allConvert_cons hs, readKeys_cons hs, keyEntries, hs]
      rcases @keyedValue_cases look s with ⟨found, hfound, hstops, hread, hlist⟩ |
        ⟨f, hfound, hf, hstops, hread⟩ | ⟨f, hfound, hf, hread⟩
      · simp only [hfound, hstops, Bool.false_eq_true, if_false, true_imp_iff]
        rcases ih (int32 (i + 1)) with ⟨hall, ok, hrest⟩ | ⟨hall, f, hrest⟩
        · refine Or.inl ⟨⟨hread, hall⟩, ok, ?_⟩
          rw [hrest, hlist, List.map_append]
          simp only [Except.bind]
          split <;> rfl
        · exact Or.inr ⟨fun h => hall h.2, f, by rw [hrest]; rfl⟩
      · simp only [hfound, hf, hstops, if_true]
        exact Or.inl ⟨⟨hread, fun h => (by cases h)⟩, false, rfl⟩
      · simp only [hfound, hf]
        exact Or.inr ⟨fun h => hread h.1, f, rfl⟩

end

/-! ## The two overloads of `getList` -/

/-- The keys to look up. Anything but a list has none. -/
def givenKeys (args : RValue) : List RValue := args.elements.toOption.getD []

/-- What the window asks for, up to a key that stops the loop. -/
def takenKeys (c : Config) (n : Node) (stops : Bytes → Bool) (args : RValue) (win : Window) :
    List Entry :=
  keyEntries (lookUp c n) stops win (givenKeys args) (-1)

section

variable {c : Config} {w : World} {args : RValue} {win : Window}

theorem listArgs_settles {α : Type} {faults : Faults} {I : Node → Prop}
    {lookup : Bytes → CoreM (Option α)} {look : Bytes → Except Failure (Option α)}
    (hlook : ∀ key, Settles faults I (lookup key) (look key)) :
    Settles faults I (listArgs lookup win args)
      ((readKeys look win (givenKeys args) (-1)).map fun r =>
        (args.elements.isOk && r.1, r.2)) := by
  unfold listArgs givenKeys
  cases args.elements with
  | error f => exact Settles.pure _
  | ok vs =>
    have hread : ∀ r : Except Failure (Bool × List α),
        r.map (fun r => ((Except.ok vs : Except Failure _).isOk && r.1, r.2)) = r := by
      rintro (f | ⟨ok, items⟩) <;> rfl
    rw [hread]
    exact listLoop_settles hlook vs (-1)

/-- The overload into a string gives the text of all that the window asks for, closed in one
way or the other. -/
theorem getListText_answer (hdb : c.dbOk = true) (out : Bytes) :
    ∃ ok tail o, ClosesResult tail o ∧ answer noFaults w (getListText c args out win) =
      .ok (ok, openResult ++ (joinComma ((takenKeys c w.node (fun _ => false) args win).map
        textItem) ++ 93 :: tail)) := by
  have hlook : ∀ s, Settles noFaults (LooksAlike c w.node)
      (do return (← get c s).map fun value => (s, value))
      (.ok ((lookUp c w.node s).map fun value => (s, value))) := fun s =>
    Settles.bind (g := fun found => .ok (found.map fun value => (s, value)))
      (get_settles (fun _ => hdb) s) fun found _ => Settles.pure _
  have hargs := @listArgs_settles args win _ _ _ _ _ hlook
  rw [readKeys_text] at hargs
  unfold getListText takenKeys
  rw [if_pos hdb]
  have htext := (Settles.bind (g := fun r => .ok (if r.1 then (true, resultText r.2)
    else (false, (resultText r.2).dropLast ++ ascii ",\"error\":\"runtime error\"\x7d"))) hargs
    (f := fun r => do
      if r.1 then return (true, resultText r.2)
      return (false, (resultText r.2).dropLast ++ ascii ",\"error\":\"runtime error\"\x7d"))
    fun r _ => by cases r.1 <;> exact Settles.pure _) w fun _ => rfl
  rw [htext.1]
  simp only [Except.map, Except.bind]
  generalize keyEntries (lookUp c w.node) (fun _ => false) win (givenKeys args) (-1) = es
  cases args.elements.isOk && allStrings (givenKeys args) with
  | true =>
    refine ⟨true, [125], [], closesResult_brace, ?_⟩
    rw [if_pos rfl, resultText_eq]
  | false =>
    refine ⟨false, errorTail, _, closesResult_error, ?_⟩
    have hclose : openResult ++ (joinComma (es.map textItem) ++ [93, 125]) =
        (openResult ++ (joinComma (es.map textItem) ++ [93])) ++ [125] := by simp
    rw [if_neg Bool.false_ne_true, resultText_eq, hclose, List.dropLast_concat]
    simp [errorTail]

/-- The overload into a vector gives the entries up to the first that is no document, if it
can convert those that it meets. -/
theorem getList_answer (hdb : c.dbOk = true) :
    (AllConvert (lookUp c w.node) (givenKeys args) ∧
        ∃ ok, answer noFaults w (getList c args win) = .ok (ok,
          (takenKeys c w.node (noJson (lookUp c w.node)) args win).map keyedEntry)) ∨
      (¬AllConvert (lookUp c w.node) (givenKeys args) ∧
        ∃ f, answer noFaults w (getList c args win) = .error f) := by
  have hlook : ∀ s, Settles noFaults (LooksAlike c w.node)
      (do return (← getJson c s).map (keyed s)) (keyedValue (lookUp c w.node) s) := by
    intro s
    have hget := get_settles (n := w.node) (fun _ => hdb) s
    unfold keyedValue
    cases hfound : lookUp c w.node s with
    | none =>
      rw [hfound] at hget
      have hjson : Settles noFaults (LooksAlike c w.node) (getJson c s) (.ok none) :=
        Settles.bind_ok hget (Settles.pure none)
      exact Settles.bind_ok hjson (Settles.pure none)
    | some value =>
      rw [hfound] at hget
      have hjson : Settles noFaults (LooksAlike c w.node) (getJson c s)
          ((loadValue value).bind fun v => .ok (some v)) :=
        Settles.bind_ok hget (Settles.bind (Settles.ofExcept _) fun v _ => Settles.pure _)
      have hkeyed := Settles.bind (g := fun found => .ok (found.map (keyed s))) hjson
        (f := fun found => return found.map (keyed s)) fun found _ => Settles.pure _
      change Settles _ _ _ ((loadValue value).bind fun v => .ok (some (keyed s v)))
      convert hkeyed using 1
      cases loadValue value <;> rfl
  have hargs := (@listArgs_settles args win _ _ _ _ _ hlook w fun _ => rfl).1
  unfold getList
  rw [if_pos hdb, hargs]
  rcases @readKeys_vector (lookUp c w.node) win (givenKeys args) (-1) with
    ⟨hall, ok, hread⟩ | ⟨hall, f, hread⟩
  · exact Or.inl ⟨hall, _, by rw [hread]; rfl⟩
  · exact Or.inr ⟨hall, f, by rw [hread]; rfl⟩

/-- What the window asks for lies in front of the first key without a document, the keys
need no escape, and the documents that are met can be converted. -/
structure ListsGiven (c : Config) (n : Node) (args : RValue) (win : Window) : Prop where
  present : takenKeys c n (noJson (lookUp c n)) args win = takenKeys c n (fun _ => false) args win
  plain : ∀ e ∈ takenKeys c n (fun _ => false) args win, Plain e.1
  converts : AllConvert (lookUp c n) (givenKeys args)

/-- What is found is stored, or the empty string that an absent key has in cached mode. -/
theorem of_lookUp {n : Node} {key value : Bytes} (h : lookUp c n key = some value) :
    (key, value) ∈ (source c n).entries ∨ value = [] := by
  unfold lookUp at h
  unfold source
  split at h
  · next hcache =>
    rw [if_pos hcache]
    cases hfind : n.cache.find? key with
    | none =>
      rw [hfind] at h
      exact Or.inr (Option.some.inj h).symm
    | some value' =>
      rw [hfind] at h
      cases h
      exact Or.inl (OrderedMap.find?_eq_some.mp hfind)
  · next hcache =>
    rw [if_neg hcache]
    exact Or.inl (OrderedMap.find?_eq_some.mp h)

/-- The overloads of `getList` agree exactly if the keys are listed as they are given. -/
theorem getList_sameListing_iff (hdb : c.dbOk = true)
    (hstore : ∀ e ∈ (source c w.node).entries, (0 : UInt8) ∉ e.1 ∧ ValidJson e.2) (out : Bytes) :
    SameListing (answer noFaults w (getListText c args out win))
        (answer noFaults w (getList c args win)) ↔ ListsGiven c w.node args win := by
  obtain ⟨ok, tail, o, htail, htext⟩ := @getListText_answer c w args win hdb out
  rw [htext]
  rcases @getList_answer c w args win hdb with
    ⟨hall, ok', hvector⟩ | ⟨hall, f, hvector⟩
  · have htaken : ∀ e ∈ takenKeys c w.node (noJson (lookUp c w.node)) args win,
        (0 : UInt8) ∉ e.1 ∧ ValidJson e.2 ∧ Readable e.2 := by
      intro e he
      obtain ⟨hlook, hstops, hmem⟩ := of_mem_keyEntries he
      have hjson : IsJson e.2 := by simpa [noJson, hlook] using hstops
      rcases of_lookUp hlook with hentry | hempty
      · exact ⟨(hstore e hentry).1, (hstore e hentry).2, hall e.1 hmem e.2 hlook hjson⟩
      · rw [hempty] at hjson
        exact absurd hjson (by decide)
    rw [hvector]
    have hsame := @sameListing_iff ok ok' _ _ _ _ (keyEntries_isPrefix _ _) htail
      (fun e he => (htaken e he).1) (fun e he => (htaken e he).2.1)
      fun e he => (htaken e he).2.2
    refine hsame.trans ⟨fun h => ⟨h.1, h.2, hall⟩, fun h => ⟨h.present, h.plain⟩⟩
  · rw [hvector]
    refine iff_of_false ?_ fun h => hall h.converts
    rintro ⟨_, _, _, _, _, _, -, -, -, h, -⟩
    cases h

/-- On a store of JSON documents the text of each listing has the pairs of its vector exactly
if the keys that it lists need no escape and their values can be converted; for given keys
also nothing may be taken from the first absent key on, which the cache makes up. -/
theorem sameListings_iff {faults : Faults} {wild : Bytes} (hdb : c.dbOk = true)
    (hstar : startsWithStar wild = false)
    (hstore : ∀ e ∈ (source c w.node).entries, (0 : UInt8) ∉ e.1 ∧ ValidJson e.2) (out : Bytes) :
    (SameListing (answer faults w (getKeysText c wild out win))
        (answer faults w (getKeys c wild win)) ↔
      ListsPlainly (windowEntries false c w.node wild win)) ∧
    (SameListing (answer faults w (getKeysReversedText c wild out win))
        (answer faults w (getKeysReversed c wild win)) ↔
      ListsPlainly (windowEntries true c w.node wild win)) ∧
    (SameListing (answer noFaults w (getListText c args out win))
        (answer noFaults w (getList c args win)) ↔ ListsGiven c w.node args win) := by
  have hentries : ∀ reversed es, windowEntries reversed c w.node wild win = .ok es →
      ∀ e ∈ es, (0 : UInt8) ∉ e.1 ∧ ValidJson e.2 := fun reversed es h e he =>
    hstore e (windowEntries_subset h he)
  obtain ⟨hforward, hbackward⟩ :=
    @getKeysText_windowEntries faults c w.node wild win out (fun _ => hdb) hstar
  obtain ⟨⟨g, hg, hkeys⟩, ⟨g', hg', hreversed⟩⟩ :=
    @getKeys_windowEntries faults c w wild win hdb hstar
  refine ⟨?_, ?_, getList_sameListing_iff hdb hstore out⟩
  · rw [(hforward w rfl).1]
    exact sameListing_entries_iff hg (hentries false) hkeys
  · rw [(hbackward w rfl).1]
    exact sameListing_entries_iff hg' (hentries true) hreversed

end

/-- A list of one key to look up. -/
def oneKey (raw : Bytes) : RValue := .list [.string raw]

/-- The listings of a pattern, in both directions, and of a key, where nothing needs an
escape. -/
theorem sameListings_three :
    SameListing (answer noFaults (openDB uncachedOnly threeEntries)
        (getKeysText uncachedOnly (ascii "a*") [] ⟨0, -1⟩))
      (answer noFaults (openDB uncachedOnly threeEntries)
        (getKeys uncachedOnly (ascii "a*") ⟨0, -1⟩)) ∧
    SameListing (answer noFaults (openDB uncachedOnly threeEntries)
        (getKeysReversedText uncachedOnly (ascii "a*") [] ⟨0, -1⟩))
      (answer noFaults (openDB uncachedOnly threeEntries)
        (getKeysReversed uncachedOnly (ascii "a*") ⟨0, -1⟩)) ∧
    SameListing (answer noFaults (openDB uncachedOnly threeEntries)
        (getListText uncachedOnly (oneKey (ascii "b")) [] ⟨0, -1⟩))
      (answer noFaults (openDB uncachedOnly threeEntries)
        (getList uncachedOnly (oneKey (ascii "b")) ⟨0, -1⟩)) := by
  have h := @sameListings_iff uncachedOnly (openDB uncachedOnly threeEntries) (oneKey (ascii "b"))
    ⟨0, -1⟩ noFaults (ascii "a*") rfl (by decide) (by decide +kernel) []
  refine ⟨h.1.mpr ⟨_, rfl, by decide +kernel⟩, h.2.1.mpr ⟨_, rfl, by decide +kernel⟩,
    h.2.2.mpr ⟨by decide +kernel, by decide +kernel, fun key hkey value hvalue _ => ?_⟩⟩
  have hb : key = ascii "b" := by
    simpa using (show PointRead.lookedUp _ _ ⊆ [ascii "b"] from by decide +kernel) hkey
  subst hb
  have hthree : value = ascii "3" := Option.some.inj (hvalue.symm.trans (by decide +kernel))
  rw [hthree]
  decide +kernel

/-- A store with a key that has a quote. -/
def quotedKey : Store := OrderedMap.empty.insert (ascii "a\"b") (ascii "1")

/-- The text with that key is no JSON document. -/
theorem not_sameListing_quoted :
    (∀ e ∈ (source uncachedOnly (openDB uncachedOnly quotedKey).node).entries,
      (0 : UInt8) ∉ e.1 ∧ ValidJson e.2) ∧
    ¬SameListing (answer noFaults (openDB uncachedOnly quotedKey)
        (getKeysText uncachedOnly (ascii "a*") [] ⟨0, -1⟩))
      (answer noFaults (openDB uncachedOnly quotedKey)
        (getKeys uncachedOnly (ascii "a*") ⟨0, -1⟩)) := by
  refine ⟨by decide +kernel, ?_⟩
  rintro ⟨ok, out, o, l, ok', items, htext, hload, -⟩
  have hnone : ((answer noFaults (openDB uncachedOnly quotedKey) (getKeysText uncachedOnly
      (ascii "a*") [] ⟨0, -1⟩)).toOption.bind fun r => load r.2) = none := by decide +kernel
  rw [htext] at hnone
  exact absurd (hload.symm.trans hnone) (by simp)

end Quarks
