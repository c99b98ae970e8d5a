import Quarks.Core.Joined
import Quarks.Json.Fields
import Quarks.WindowLaw

/-!
# The join of `getJoinedMap`

`getJoinedMap` takes its main keys from a pattern, within a window, and from a list, cuts a
subkey out of each and looks up what the subkeys are joined with. Where it differs from its
description, an index is cut down to 32 bits, an empty piece at the end of a key is left out,
a missing pattern stands for the empty one, or the map is `null` since nothing was found.
-/

namespace Quarks

open Basis

/-! ## The request -/

/-- What a request for a joined map asks for. -/
structure JoinRequest where
  wild : Option Bytes
  keylist : Option (List Bytes)
  splitby : Option Bytes
  selindex : Option ℤ
  join : List (Bytes × Bytes)

/-- The piece at an index, or the whole key if there is no such piece. -/
def pieceAt (pieces : List Bytes) (index : ℤ) (key : Bytes) : Bytes :=
  if 0 ≤ index then pieces.getD index.toNat key else key

namespace JoinRequest

variable (req : JoinRequest)

/-- The subkey of a key: a piece of it, split at the first character of `splitby`. -/
def subkey (key : Bytes) : Bytes :=
  match req.splitby, req.selindex with
  | some (delim :: _), some index => pieceAt (key.splitOn delim) index key
  | _, _ => key

/-- The matching keys of the window, and after them the keys of the list. -/
def mainKeys (store : Store) (win : Window) : List Bytes :=
  (match req.wild with
    | some wild => (listed store wild win).map Prod.fst
    | none => []) ++ req.keylist.getD []

/-- The keys that are looked up for these main keys. -/
def formedKeys (keys : List Bytes) : List Bytes :=
  req.join.flatMap fun affix => keys.map fun key => affix.1 ++ req.subkey key ++ affix.2

/-- Cut down to 32 bits the index still picks the same piece of a key, and where it would pick
an empty one at the end, no piece has the index itself. -/
def PicksAlike (key : Bytes) : Prop :=
  match req.splitby, req.selindex with
  | some (delim :: _), some index =>
    if (key.splitOn delim).getLast? = some [] ∧ int32 index = (key.splitOn delim).length - 1 then
      pieceAt (key.splitOn delim) index key = key
    else pieceAt (key.splitOn delim) (int32 index) key = pieceAt (key.splitOn delim) index key
  | _, _ => True

end JoinRequest

/-- An optional argument has this value. -/
def GivesOptional {α : Type} (args : RValue) (name : Bytes) (read : RValue → Except Failure α) :
    Option α → Prop
  | none => args.has name = .ok false
  | some a => (args.field name).bind read = .ok a

/-- A list of strings. -/
def readStrings (x : RValue) : Except Failure (List Bytes) :=
  x.elements.bind fun elems => elems.mapM RValue.s

/-- A list of objects with a prefix and a suffix. -/
def readAffixes (x : RValue) : Except Failure (List (Bytes × Bytes)) :=
  x.elements.bind fun elems => elems.mapM affixes

/-- The arguments make the request. -/
structure AsksFor (args : RValue) (req : JoinRequest) : Prop where
  keys : GivesOptional args (ascii "keys") RValue.s req.wild
  keylist : GivesOptional args (ascii "keylist") readStrings req.keylist
  splitby : GivesOptional args (ascii "splitby") RValue.s req.splitby
  selindex : GivesOptional args (ascii "selindex") RValue.i req.selindex
  join : (args.field (ascii "join")).bind readAffixes = .ok req.join
  pattern : ∀ wild, req.wild = some wild → startsWithStar wild = false
  nonempty : req.splitby ≠ some []

/-- An object with an entry for exactly those of the keys that are stored, holding their
values. -/
def IsJoinOf (store : Store) (formed : List Bytes) (m : WValue) : Prop :=
  ∃ o, m = .object o ∧ (o.map Prod.fst).Nodup ∧
    (∀ name ∈ formed, o.lookup name = (store.find? name).map parsedValue) ∧
    ∀ name ∉ formed, o.lookup name = none

/-- What is stored under these keys can be read. -/
def ReadsAll (store : Store) (formed : List Bytes) : Prop :=
  ∀ name ∈ formed, ∀ text, store.find? name = some text → Readable text

instance (store : Store) (formed : List Bytes) : Decidable (ReadsAll store formed) :=
  inferInstanceAs (Decidable (∀ name ∈ formed, ∀ text,
    store.find? name = some text → Readable text))

/-- What it takes for a request to be answered as it is described. -/
structure JoinsAll (store : Store) (req : JoinRequest) (win : Window) : Prop where
  alone : req.wild = none → listed store [] win = []
  pieces : ∀ key ∈ req.mainKeys store win, req.PicksAlike key
  found : ∃ name ∈ req.formedKeys (req.mainKeys store win), name ∈ store
  reads : ReadsAll store (req.formedKeys (req.mainKeys store win))

/-! ## The arguments -/

section

variable {args : RValue} {req : JoinRequest}

theorem has_of_gives {α : Type} {name : Bytes} {read : RValue → Except Failure α} {a : Option α}
    (h : GivesOptional args name read a) : args.has name = .ok a.isSome := by
  cases a with
  | none => exact h
  | some a =>
    obtain ⟨x, hx, -⟩ := of_bind_ok h
    exact RValue.has_of_field hx

/-- What is read of the arguments. -/
theorem joinArgs_eq (h : AsksFor args req) : ∃ join, joinArgs args =
    .ok ⟨req.wild.getD [], req.keylist.isSome, req.splitby, (req.selindex.map int32).getD (-1),
      join⟩ ∧ readAffixes join = .ok req.join := by
  obtain ⟨join, hjoin, haffixes⟩ := of_bind_ok h.join
  refine ⟨join, ?_, haffixes⟩
  have hwild : stringField args (ascii "keys") [] = .ok (req.wild.getD []) := by
    have hgives := h.keys
    have hhas := has_of_gives hgives
    cases hw : req.wild with
    | none =>
      rw [hw] at hhas
      rw [stringField, hhas]
      rfl
    | some wild =>
      rw [hw] at hhas hgives
      rw [stringField, hhas]
      exact hgives
  have hsplit := h.splitby
  have hindex := h.selindex
  have hhasSplit := has_of_gives hsplit
  have hhasIndex := has_of_gives hindex
  unfold joinArgs
  rw [hwild, has_of_gives h.keylist, hhasSplit, hhasIndex, hjoin]
  cases hs : req.splitby with
  | none =>
    cases hi : req.selindex with
    | none => rfl
    | some index =>
      rw [hi] at hindex
      obtain ⟨y, hy, hindex⟩ := of_bind_ok hindex
      simp [hy, hindex, bind, Except.bind, pure, Except.pure]
  | some splitby =>
    rw [hs] at hsplit
    obtain ⟨x, hx, hsplit⟩ := of_bind_ok hsplit
    cases hi : req.selindex with
    | none => simp [hx, hsplit, bind, Except.bind, pure, Except.pure]
    | some index =>
      rw [hi] at hindex
      obtain ⟨y, hy, hindex⟩ := of_bind_ok hindex
      simp [hx, hsplit, hy, hindex, bind, Except.bind, pure, Except.pure]

/-- Leading strings of a list of strings are all of them. -/
theorem leadingStrings_eq {klist : List RValue} {keys : List Bytes}
    (h : klist.mapM RValue.s = .ok keys) :
    leadingStrings klist = keys ∧ (klist.all fun kl => kl.s.isOk) = true := by
  induction klist generalizing keys with
  | nil =>
    cases h
    exact ⟨rfl, rfl⟩
  | cons kl klist ih =>
    rw [List.mapM_cons] at h
    obtain ⟨key, hkey, h⟩ := of_bind_ok h
    obtain ⟨rest, hrest, h⟩ := of_bind_ok h
    cases h
    obtain ⟨hlead, hall⟩ := ih hrest
    rw [leadingStrings, hkey, hlead, List.all_cons, hkey, hall]
    exact ⟨rfl, rfl⟩

/-- The keys of the list are strings. -/
theorem keyList_eq {keys : List Bytes} (h : GivesOptional args (ascii "keylist") readStrings
    (some keys)) : keyList args = (true, keys) := by
  obtain ⟨x, hx, hstrings⟩ := of_bind_ok h
  obtain ⟨klist, hklist, hkeys⟩ := of_bind_ok hstrings
  obtain ⟨hlead, hall⟩ := leadingStrings_eq hkeys
  have hread : (args.field (ascii "keylist")).bind RValue.elements = .ok klist := by
    rw [hx]
    exact hklist
  rw [keyList, hread]
  exact Prod.ext hall hlead

/-! ## The subkeys -/

/-- A token is the piece at its place, unless that is an empty one at the end. -/
theorem getD_splitTokens (key : Bytes) (delim : UInt8) {index : ℤ} (hindex : 0 ≤ index) :
    (splitTokens key delim).getD index.toNat key =
      if (key.splitOn delim).getLast? = some [] ∧ index = (key.splitOn delim).length - 1 then key
      else pieceAt (key.splitOn delim) index key := by
  unfold splitTokens pieceAt
  rw [if_pos hindex]
  simp only
  generalize key.splitOn delim = pieces
  by_cases hlast : pieces.getLast? = some []
  · have hpos : 0 < pieces.length := List.length_pos_of_ne_nil (by rintro rfl; cases hlast)
    rw [if_pos hlast, List.getD_eq_getElem?_getD, List.getD_eq_getElem?_getD,
      List.getElem?_dropLast]
    by_cases heq : index = pieces.length - 1
    · have hout : ¬index.toNat < pieces.length - 1 := by omega
      rw [if_neg hout, if_pos ⟨hlast, heq⟩]
      rfl
    · have hno : ¬(pieces.getLast? = some [] ∧ index = pieces.length - 1) := fun h => heq h.2
      rw [if_neg hno]
      split
      · rfl
      · next hout => rw [List.getElem?_eq_none (by omega)]
  · rw [if_neg hlast, if_neg fun h => hlast h.1]

/-- The code's subkey of a key is the one that the request asks for exactly if the index picks
alike. -/
theorem finalKey_eq_iff (h : AsksFor args req) (wild : Bytes) (hasKeyList : Bool) (join : RValue)
    (key : Bytes) :
    finalKey ⟨wild, hasKeyList, req.splitby, (req.selindex.map int32).getD (-1), join⟩ key =
      req.subkey key ↔ req.PicksAlike key := by
  unfold finalKey JoinRequest.subkey JoinRequest.PicksAlike
  rcases hs : req.splitby with _ | _ | ⟨delim, rest⟩
  · simp
  · exact absurd hs h.nonempty
  · cases hi : req.selindex with
    | none => simp
    | some index =>
      simp only [Option.map_some, Option.getD_some, List.headD_cons]
      by_cases hpos : 0 ≤ int32 index
      · rw [if_pos (by omega), getD_splitTokens key delim hpos]
        split
        · exact eq_comm
        · rfl
      · have hno : ¬(((key.splitOn delim).getLast? = some []) ∧
            int32 index = (key.splitOn delim).length - 1) := by
          rintro ⟨hlast, heq⟩
          have hlen : 0 < (key.splitOn delim).length :=
            List.length_pos_of_ne_nil fun hnil => by rw [hnil] at hlast; cases hlast
          omega
        have hwhole : pieceAt (key.splitOn delim) (int32 index) key = key := if_neg hpos
        rw [if_neg (by omega), if_neg hno, hwhole]

/-- An index that fits into 32 bits picks alike unless it is that of an empty piece at the end. -/
theorem picksAlike_iff {delim : UInt8} {rest : Bytes} {index : ℤ}
    (hs : req.splitby = some (delim :: rest)) (hi : req.selindex = some index)
    (hindex : int32 index = index) (key : Bytes) : req.PicksAlike key ↔
      ((key.splitOn delim).getLast? = some [] → index = (key.splitOn delim).length - 1 →
        key = []) := by
  simp only [JoinRequest.PicksAlike, hs, hi, hindex]
  generalize key.splitOn delim = pieces
  split
  · next hlast =>
    obtain ⟨hlast, hindex⟩ := hlast
    have hpos : 0 < pieces.length := List.length_pos_of_ne_nil (by rintro rfl; cases hlast)
    have hplace : index.toNat = pieces.length - 1 := by omega
    have hpiece : pieceAt pieces index key = [] := by
      rw [pieceAt, if_pos (by omega), List.getD_eq_getElem?_getD, hplace,
        ← List.getLast?_eq_getElem?, hlast]
      rfl
    rw [hpiece]
    exact ⟨fun h _ _ => h.symm, fun h => (h hlast hindex).symm⟩
  · next hlast => exact iff_of_true trivial fun h heq => absurd ⟨h, heq⟩ hlast

end

/-! ## The map -/

/-- What is found for the formed keys, one after the other. -/
def joinedFrom (store : Store) (formed : List Bytes) (w : WValue) : WValue :=
  formed.foldl (fun w name => match store.find? name with
    | some text => w.set name (parsedValue text)
    | none => w) w

theorem joinedFrom_cons (store : Store) (name : Bytes) (formed : List Bytes) (w : WValue) :
    joinedFrom store (name :: formed) w = joinedFrom store formed
      (match store.find? name with
        | some text => w.set name (parsedValue text)
        | none => w) := rfl

theorem joinedFrom_append (store : Store) (formed formed' : List Bytes) (w : WValue) :
    joinedFrom store (formed ++ formed') w =
      joinedFrom store formed' (joinedFrom store formed w) := List.foldl_append

/-- The keys that are found are stored, the others left out. -/
theorem joinedFrom_eq (store : Store) (formed : List Bytes) (w : WValue) :
    joinedFrom store formed w = (formed.filter (· ∈ store)).foldl
      (fun w name => w.set name (parsedValue ((store.find? name).getD []))) w := by
  induction formed generalizing w with
  | nil => rfl
  | cons name formed ih =>
    have hmem : name ∈ store ↔ (store.find? name).isSome = true := Iff.rfl
    rw [joinedFrom, List.foldl_cons, ← joinedFrom, ih]
    cases hfind : store.find? name with
    | none => rw [List.filter_cons_of_neg (by simp [hmem, hfind])]
    | some text =>
      rw [List.filter_cons_of_pos (by simp [hmem, hfind]), List.foldl_cons, hfind]
      rfl

/-- The map is an object as it is described exactly if something has been found. -/
theorem isJoinOf_joinedFrom_iff (store : Store) (formed : List Bytes) :
    IsJoinOf store formed (joinedFrom store formed .null) ↔ ∃ name ∈ formed, name ∈ store := by
  rw [joinedFrom_eq]
  constructor
  · rintro ⟨o, hobject, -⟩
    by_contra hnone
    have hnil : formed.filter (· ∈ store) = [] :=
      List.filter_eq_nil_iff.mpr fun name hname hmem => hnone ⟨name, hname, by simpa using hmem⟩
    rw [hnil] at hobject
    cases hobject
  · rintro ⟨name, hname, hmem⟩
    have hfields := WValue.field?_foldl_set .null (formed.filter (· ∈ store))
      fun name => parsedValue ((store.find? name).getD [])
    have hdistinct := @WValue.Distinct.foldl_set .null trivial (formed.filter (· ∈ store))
      fun name => parsedValue ((store.find? name).getD [])
    generalize (formed.filter (· ∈ store)).foldl _ WValue.null = m at hfields hdistinct
    have hstored := hfields name
    rw [if_pos (List.mem_filter.mpr ⟨hname, by simpa using hmem⟩)] at hstored
    cases m with
    | object o =>
      refine ⟨o, rfl, hdistinct, fun name hname => (hfields name).trans ?_,
        fun name hname => (hfields name).trans (by simp [hname])⟩
      have hmem : name ∈ store ↔ (store.find? name).isSome = true := Iff.rfl
      cases hfind : store.find? name with
      | none => simp [hname, hmem, hfind]
      | some text => simp [hname, hmem, hfind]
    | _ => cases hstored

theorem readsAll_cons {store : Store} {name : Bytes} {formed : List Bytes} :
    ReadsAll store (name :: formed) ↔
      (∀ text, store.find? name = some text → Readable text) ∧ ReadsAll store formed :=
  List.forall_mem_cons

theorem readsAll_append {store : Store} {formed formed' : List Bytes} :
    ReadsAll store (formed ++ formed') ↔ ReadsAll store formed ∧ ReadsAll store formed' :=
  List.forall_mem_append

section

variable {n : Node} (hjson : ∀ e ∈ n.db.entries, IsJson e.2)
include hjson

/-- The keys formed with one prefix and suffix are looked up, unless a value cannot be read. -/
theorem joinKeys_yields (pre suf : Bytes) (keys : List Bytes) (w : WValue) :
    Yields noFaults n (joinKeys pre suf keys w)
      (if ReadsAll n.db (keys.map fun key => pre ++ key ++ suf) then
        .ok (true, joinedFrom n.db (keys.map fun key => pre ++ key ++ suf) w)
      else .error .badLexicalCast) := by
  induction keys generalizing w with
  | nil => exact Yields.pure _
  | cons key keys ih =>
    simp only [List.map_cons, readsAll_cons, joinedFrom_cons]
    refine Yields.bind_ok Yields.dbGet ?_
    cases hfind : n.db.find? (pre ++ key ++ suf) with
    | none =>
      simp only [reduceCtorEq, false_imp_iff, implies_true, true_and]
      exact ih w
    | some text =>
      have hvalue := loadValue_of_isJson (hjson _ (OrderedMap.find?_eq_some.mp hfind))
      by_cases hread : Readable text
      · rw [if_pos hread] at hvalue
        simp only [hvalue, Option.some.injEq, forall_eq', hread, true_and]
        exact ih (w.set (pre ++ key ++ suf) (parsedValue text))
      · rw [if_neg hread] at hvalue
        simp only [hvalue, Failure.isRuntimeError]
        rw [if_neg fun h => hread (h.1 text rfl)]
        exact Yields.ofExcept (.error .badLexicalCast)

/-- So are the keys formed with all of them. -/
theorem joinLoop_yields (keys : List Bytes) {vs : List RValue} {join : List (Bytes × Bytes)}
    (hvs : vs.mapM affixes = .ok join) (w : WValue) :
    Yields noFaults n (joinLoop keys vs true w)
      (if ReadsAll n.db (join.flatMap fun affix => keys.map fun key =>
          affix.1 ++ key ++ affix.2) then
        .ok (true, joinedFrom n.db (join.flatMap fun affix => keys.map fun key =>
          affix.1 ++ key ++ affix.2) w)
      else .error .badLexicalCast) := by
  induction vs generalizing join w with
  | nil =>
    cases hvs
    exact Yields.pure _
  | cons v vs ih =>
    rw [List.mapM_cons] at hvs
    obtain ⟨affix, haffix, hvs⟩ := of_bind_ok hvs
    obtain ⟨rest, hrest, hvs⟩ := of_bind_ok hvs
    cases hvs
    simp only [joinLoop, haffix, List.flatMap_cons, readsAll_append]
    have hkeys := joinKeys_yields hjson affix.1 affix.2 keys w
    by_cases hread : ReadsAll n.db (keys.map fun key => affix.1 ++ key ++ affix.2)
    · rw [if_pos hread] at hkeys
      refine Yields.bind_ok hkeys ?_
      simp only [hread, true_and, joinedFrom_append]
      exact ih hrest _
    · rw [if_neg hread] at hkeys
      rw [if_neg fun h => hread h.1]
      exact Yields.bind_error hkeys

end

/-! ## The answer -/

/-- A request is answered with the subkeys of these main keys and with the map of what they are
joined with. -/
def GivesJoin (c : Config) (w : World) (args : RValue) (req : JoinRequest) (win : Window) : Prop :=
  ∃ m, answer noFaults w (getJoinedMap c args win) =
      .ok (true,
        [.list ((req.mainKeys w.node.db win).map fun key => .string (req.subkey key)), m]) ∧
    IsJoinOf w.node.db (req.formedKeys (req.mainKeys w.node.db win)) m

section

variable {c : Config} {w : World} {args : RValue} {req : JoinRequest} {win : Window}

/-- What the function finds to join: without a pattern, also the keys of the empty one. -/
def keysFound (req : JoinRequest) (store : Store) (win : Window) : List Bytes :=
  (listed store (req.wild.getD []) win).map Prod.fst ++ req.keylist.getD []

/-- The answer, with the final keys of what is found. -/
theorem getJoinedMap_yields (hdb : c.dbOk = true) (hjson : ∀ e ∈ w.node.db.entries, IsJson e.2)
    (hargs : AsksFor args req) : ∃ final : Bytes → Bytes,
    (∀ key, final key = req.subkey key ↔ req.PicksAlike key) ∧
    let keys := (keysFound req w.node.db win).map final
    let formed := req.join.flatMap fun affix => keys.map fun key => affix.1 ++ key ++ affix.2
    Yields noFaults w.node (getJoinedMap c args win)
      (if ReadsAll w.node.db formed then
        .ok (true, [.list (keys.map .string), joinedFrom w.node.db formed .null])
      else .error .badLexicalCast) := by
  obtain ⟨join, hread, haffixes⟩ := joinArgs_eq hargs
  obtain ⟨vs, hvs, hjoin⟩ := of_bind_ok haffixes
  refine ⟨finalKey ⟨req.wild.getD [], req.keylist.isSome, req.splitby,
    (req.selindex.map int32).getD (-1), join⟩, finalKey_eq_iff hargs _ _ _, ?_⟩
  intro keys formed
  have hstar : startsWithStar (req.wild.getD []) = false := by
    cases hwild : req.wild with
    | none => rfl
    | some wild => exact hargs.pattern wild hwild
  have hfinal : sFinalKeys ⟨req.wild.getD [], req.keylist.isSome, req.splitby,
      (req.selindex.map int32).getD (-1), join⟩ args win w.node.db = (true, keys) := by
    have hlist := hargs.keylist
    unfold sFinalKeys
    cases hkeylist : req.keylist with
    | none => simp [hstar, keys, keysFound, hkeylist]
    | some given =>
      rw [hkeylist] at hlist
      simp [hstar, keys, keysFound, hkeylist, keyList_eq hlist]
  unfold getJoinedMap
  rw [if_pos hdb, hread]
  refine Yields.bind_ok (Yields.ofExcept _) ?_
  simp only [hstar, Bool.false_and, Bool.false_eq_true, if_false]
  refine Yields.bind_ok Yields.dbIterate ?_
  simp only [hfinal, hvs]
  refine Yields.bind_ok (Yields.ofExcept _) ?_
  have hloop := joinLoop_yields hjson keys hjoin .null
  split
  · next hall =>
    rw [if_pos hall] at hloop
    exact Yields.bind_ok hloop (Yields.pure _)
  · next hall =>
    rw [if_neg hall] at hloop
    exact Yields.bind_error hloop

/-- With a pattern, or where nothing is found without one, these are the main keys. -/
theorem keysFound_eq {store : Store} (h : req.wild = none → listed store [] win = []) :
    keysFound req store win = req.mainKeys store win := by
  unfold keysFound JoinRequest.mainKeys
  cases hwild : req.wild with
  | none => rw [Option.getD_none, h hwild, List.map_nil]
  | some wild => rfl

/-- On a store of JSON values a request is answered as it is described if and only if no key is
found for a missing pattern, the index picks alike for all main keys, and what is found can be
read and is not nothing. -/
theorem getJoinedMap_joins_iff (hdb : c.dbOk = true)
    (hjson : ∀ e ∈ w.node.db.entries, IsJson e.2) (hargs : AsksFor args req) (win : Window) :
    (GivesJoin c w args req win ↔ JoinsAll w.node.db req win) ∧
    (win.Unwrapped → w.node.db.entries.length ≤ 2 ^ 31 → ∀ wild,
      listed w.node.db wild win = selectAt win.spans 0 (matching w.node.db wild)) := by
  refine ⟨?_, fun hwin hlen _ => listed_eq_spans hwin hlen⟩
  obtain ⟨final, hfinal, hyields⟩ := @getJoinedMap_yields _ _ _ _ win hdb hjson hargs
  simp only at hyields
  have hanswer := (hyields w rfl).1
  have hformed : ∀ keys, (req.join.flatMap fun affix => (keys.map req.subkey).map fun key =>
      affix.1 ++ key ++ affix.2) = req.formedKeys keys := by
    intro keys
    simp only [JoinRequest.formedKeys, List.map_map, Function.comp_def]
  unfold GivesJoin
  rw [hanswer]
  constructor
  · rintro ⟨m, hgives, hmap⟩
    split at hgives
    case isFalse => cases hgives
    case isTrue hreads =>
      simp only [Except.ok.injEq, Prod.mk.injEq, true_and, List.cons.injEq, and_true,
        WValue.list.injEq] at hgives
      obtain ⟨hstrings, rfl⟩ := hgives
      have hstring : Function.Injective WValue.string := fun _ _ h => WValue.string.inj h
      have hkeys : (keysFound req w.node.db win).map final =
          (req.mainKeys w.node.db win).map req.subkey := by
        refine List.map_injective_iff.mpr hstring ?_
        rw [hstrings, List.map_map]
        rfl
      have halone : req.wild = none → listed w.node.db [] win = [] := by
        intro hwild
        have hlength := congrArg List.length hkeys
        simp only [keysFound, JoinRequest.mainKeys, hwild, List.length_map, List.length_append,
          Option.getD_none, List.length_nil] at hlength
        exact List.eq_nil_of_length_eq_zero (by omega)
      rw [hkeys, hformed] at hmap hreads
      refine ⟨halone, fun key hkey => ?_, (isJoinOf_joinedFrom_iff _ _).mp hmap, hreads⟩
      rw [keysFound_eq halone] at hkeys
      exact (hfinal key).mp (List.map_inj_left.mp hkeys key hkey)
  · rintro ⟨halone, hpieces, hfound, hreads⟩
    have hkeys : (keysFound req w.node.db win).map final =
        (req.mainKeys w.node.db win).map req.subkey := by
      rw [keysFound_eq halone]
      exact List.map_congr_left fun key hkey => (hfinal key).mpr (hpieces key hkey)
    rw [hkeys, hformed, if_pos hreads]
    refine ⟨_, ?_, (isJoinOf_joinedFrom_iff _ _).mpr hfound⟩
    rw [List.map_map]
    rfl

end

/-- A request for the piece of the matching keys at some index, joined with a prefix. -/
def pieceArgs (index pre : Bytes) : RValue := .object [(ascii "keys", .string (ascii "g*")),
  (ascii "splitby", .string (ascii "_")), (ascii "selindex", .number index),
  (ascii "join", .list [.object [(ascii "prefix", .string pre),
    (ascii "suffix", .string [])]])]

/-- What these arguments ask for. -/
def pieceRequest (index : ℤ) (pre : Bytes) : JoinRequest :=
  ⟨some (ascii "g*"), none, some (ascii "_"), some index, [(pre, [])]⟩

/-- A group and the number of its users. -/
def groupStore : Store :=
  (OrderedMap.empty.insert (ascii "g_a") (ascii "1")).insert (ascii "u_a") (ascii "2")

theorem pieceArgs_asksFor {index pre : Bytes} {z : ℤ} (hindex : lexicalCastInt64 index = some z)
    (hpre : unescape pre = pre) : AsksFor (pieceArgs index pre) (pieceRequest z pre) where
  keys := rfl
  keylist := rfl
  splitby := rfl
  selindex := by
    change (RValue.number index).i = .ok z
    rw [RValue.i, hindex]
  join := by
    change Except.ok [(unescape pre, [])] = Except.ok [(pre, [])]
    rw [hpre]
  pattern := by
    rintro _ ⟨⟩
    decide
  nonempty := by
    rintro ⟨⟩

/-- The number of users is found under the second piece. -/
theorem givesJoin_second : GivesJoin uncachedOnly (openDB uncachedOnly groupStore)
    (pieceArgs (ascii "1") (ascii "u_")) (pieceRequest 1 (ascii "u_")) ⟨0, -1⟩ := by
  have hkeys : (pieceRequest 1 (ascii "u_")).mainKeys groupStore ⟨0, -1⟩ = [ascii "g_a"] := by
    decide +kernel
  have hpieces : ∀ key ∈ [ascii "g_a"], (pieceRequest 1 (ascii "u_")).PicksAlike key := by
    intro key hkey
    rw [List.mem_singleton.mp hkey]
    exact (picksAlike_iff rfl rfl (by decide) _).mpr (by decide +kernel)
  refine (getJoinedMap_joins_iff rfl (by decide +kernel)
    (pieceArgs_asksFor (by decide +kernel) (by decide +kernel)) ⟨0, -1⟩).1.mpr ?_
  refine ⟨by rintro ⟨⟩, hkeys ▸ hpieces, ?_, ?_⟩
  · have hfound : ∃ name ∈ (pieceRequest 1 (ascii "u_")).formedKeys [ascii "g_a"],
        name ∈ groupStore := by decide +kernel
    exact hkeys ▸ hfound
  · have hreads : ReadsAll groupStore ((pieceRequest 1 (ascii "u_")).formedKeys [ascii "g_a"]) := by
      decide +kernel
    exact hkeys ▸ hreads

/-- No key has a piece at 2 ^ 32, but the first piece is taken. -/
theorem not_givesJoin_large :
    (∀ key ∈ (pieceRequest (2 ^ 32) []).mainKeys groupStore ⟨0, -1⟩,
      (pieceRequest (2 ^ 32) []).subkey key = key) ∧
    AsksFor (pieceArgs (ascii "4294967296") []) (pieceRequest (2 ^ 32) []) ∧
    ¬GivesJoin uncachedOnly (openDB uncachedOnly groupStore) (pieceArgs (ascii "4294967296") [])
      (pieceRequest (2 ^ 32) []) ⟨0, -1⟩ := by
  refine ⟨by decide +kernel, pieceArgs_asksFor (by decide +kernel) rfl, ?_⟩
  rintro ⟨m, hanswer, -⟩
  have hfirst : (answer noFaults (openDB uncachedOnly groupStore)
      (getJoinedMap uncachedOnly (pieceArgs (ascii "4294967296") []) ⟨0, -1⟩)).map (fun r =>
        r.2.head?.map (@dump .insertion)) = .ok (some (ascii "[\"g\"]")) := by decide +kernel
  have hkeys : (pieceRequest (2 ^ 32) []).mainKeys groupStore ⟨0, -1⟩ = [ascii "g_a"] := by
    decide +kernel
  have hdb : (openDB uncachedOnly groupStore).node.db = groupStore := rfl
  rw [hanswer, hdb, hkeys] at hfirst
  have hsubkey : @dump .insertion (.list [.string
      ((pieceRequest (2 ^ 32) []).subkey (ascii "g_a"))]) ≠ ascii "[\"g\"]" := by decide +kernel
  exact hsubkey (Option.some.inj (Except.ok.inj hfirst))

end Quarks
