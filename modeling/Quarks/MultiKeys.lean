import Quarks.Basis.Protocol
import Quarks.Core.Multi
import Quarks.WindowLaw
import Mathlib.Algebra.BigOperators.Fin
import Mathlib.Algebra.Order.BigOperators.Group.Finset
import Mathlib.Tactic.Abel
import Mathlib.Data.List.Permutation

/-!
# Listing many patterns at once, under every schedule

Each match of a pattern is counted once, by the worker that has taken the pattern, unless
the end of the window has been counted before. What a worker does is described by the stage
that it has reached; what all of them have done is described by a tally that every access
keeps.
-/

namespace Quarks

open Basis

/-- A match: the position of its pattern and the entry. -/
abbrev Match := ℕ × Entry

/-- The element of the results for an entry. -/
def element (e : Entry) : WValue := keyed e.1 ((entryValue e.2).toOption.getD .null)

/-- The stages of a worker. Each one but the last has a number of turns left. -/
inductive Stage
  /-- at the head of its loop -/
  | looping (turns : ℕ)
  /-- with the index of a pattern -/
  | claimed (turns k : ℕ)
  /-- listing a pattern: values to append, whether the end of the window has been counted,
  and the matches that are still to be counted -/
  | listing (turns k : ℕ) (out : List WValue) (stop : Bool) (rest : List Entry)
  /-- about to store that a pattern failed -/
  | failed (turns : ℕ)
  /-- out of its loop -/
  | ended
  /-- a value that it should append cannot be read -/
  | astray

section

variable (store : Store) (patterns : List Bytes) (win : Window)

/-- The pattern at this position fails: it starts with a star. -/
def startsBad (k : ℕ) : Bool := (patterns[k]?).any startsWithStar

/-- The entries that the pattern at a position lists. -/
def matchesAt (k : ℕ) : List Entry :=
  match patterns[k]? with
  | some wild => if startsWithStar wild then [] else matching store wild
  | none => []

/-- The moves of a worker. -/
inductive WorkerMove : Stage → (op : SharedOp) → SharedRes op → Stage → Prop
  | claim {f k : ℕ} (h : k < patterns.length) :
      WorkerMove (.looping (f + 1)) .nextWild (k : ℤ) (.claimed f k)
  | leave {f : ℕ} {r : ℤ} (h : patterns.length ≤ r) :
      WorkerMove (.looping (f + 1)) .nextWild r .ended
  | loadTrue {f k : ℕ} (h : startsBad patterns k = false) :
      WorkerMove (.claimed f k) (.loadRet k) true
        (.listing f k [] false (matchesAt store patterns k))
  | loadBad {f k : ℕ} (h : startsBad patterns k = true) :
      WorkerMove (.claimed f k) (.loadRet k) true (.failed f)
  | loadFalse {f k : ℕ} : WorkerMove (.claimed f k) (.loadRet k) false (.failed f)
  | storeTrue {f k : ℕ} : WorkerMove (.listing f k [] false []) (.storeRet true) () (.looping f)
  | storeFalse {f : ℕ} : WorkerMove (.failed f) (.storeRet false) () (.looping f)
  | goOn {f k : ℕ} {rest : List Entry} :
      WorkerMove (.listing f k [] false rest) .testExit false (.listing f k [] false rest)
  | giveUp {f k : ℕ} {rest : List Entry} :
      WorkerMove (.listing f k [] false rest) .testExit true (.listing f k [] false [])
  | count {f k : ℕ} {e : Entry} {rest : List Entry} {i : ℤ}
      (h : win.takes i = true → (entryValue e.2).isOk = true) :
      WorkerMove (.listing f k [] false (e :: rest)) (.nextIndex e) i
        (.listing f k (if win.takes i then [element e] else []) (win.stops i) rest)
  | lose {f k : ℕ} {e : Entry} {rest : List Entry} {i : ℤ} (h : win.takes i = true)
      (hread : (entryValue e.2).isOk = false) :
      WorkerMove (.listing f k [] false (e :: rest)) (.nextIndex e) i .astray
  | wander {op : SharedOp} {r : SharedRes op} : WorkerMove .astray op r .astray
  | push {f k : ℕ} {w : WValue} {ws : List WValue} {stop : Bool} {rest : List Entry} :
      WorkerMove (.listing f k (w :: ws) stop rest) (.pushBack w) () (.listing f k ws stop rest)
  | stop {f k : ℕ} {rest : List Entry} :
      WorkerMove (.listing f k [] true rest) .setExit () (.listing f k [] false [])

end

/-- The first index that is taken is not negative. -/
def CountsUp : (op : SharedOp) → SharedRes op → Prop
  | .nextWild, r => 0 ≤ r
  | _, _ => True

/-! ## What a worker follows -/

section

variable {store : Store} {patterns : List Bytes} {win : Window} {f k : ℕ}

/-- A program ends as told, unless its worker has gone astray. -/
def WorkerFollows {α : Type} (store : Store) (patterns : List Bytes) (win : Window)
    (ends : Except Failure α → Stage → Prop) (p : WorkerM α) (g : Stage) : Prop :=
  p.Follows (WorkerMove store patterns win) CountsUp (fun r g => g = .astray ∨ ends r g) g

theorem workerFollows_astray {α : Type} {ends : Except Failure α → Stage → Prop}
    (p : WorkerM α) : WorkerFollows store patterns win ends p .astray :=
  Prog.Follows.stay (fun _ _ => WorkerMove.wander) (fun _ => Or.inl rfl) p

theorem WorkerFollows.bind {α β : Type} {ends : Except Failure α → Stage → Prop}
    {ends' : Except Failure β → Stage → Prop} {p : WorkerM α} {next : α → WorkerM β} {g : Stage}
    (hp : WorkerFollows store patterns win ends p g)
    (hnext : ∀ a g, ends (.ok a) g → WorkerFollows store patterns win ends' (next a) g)
    (hthrow : ∀ e g, ends (.error e) g → ends' (.error e) g) :
    WorkerFollows store patterns win ends' (p >>= next) g := by
  refine Prog.Follows.bind hp ?_ fun e g => Or.imp_right (hthrow e g)
  rintro a g (rfl | hends)
  · exact workerFollows_astray _
  · exact hnext a g hends

/-- Appending values, one after the other. -/
theorem pushAll_follows (ws : List WValue) (stop : Bool) (rest : List Entry) :
    WorkerFollows store patterns win (fun r g => r = .ok () ∧ g = .listing f k [] stop rest)
      (pushAll ws) (.listing f k ws stop rest) := by
  induction ws with
  | nil => exact Or.inr ⟨rfl, rfl⟩
  | cons w ws ih => exact fun _ _ => ⟨_, .push, ih⟩

/-- An entry that can be read is appended as one element. -/
theorem keyedItems_eq {e : Entry} (h : (entryValue e.2).isOk = true) :
    keyedItems e = .ok (true, [element e]) := by
  unfold keyedItems element
  cases hv : entryValue e.2 with
  | ok v => rfl
  | error failure =>
    rw [hv] at h
    cases h

/-- An entry with a number in the window is appended. -/
theorem appendMatch_follows {e : Entry} {i : ℤ}
    (h : win.takes i = true → (entryValue e.2).isOk = true) (stop : Bool) (rest : List Entry) :
    WorkerFollows store patterns win (fun r g => r = .ok true ∧ g = .listing f k [] stop rest)
      (appendMatch win e i true)
      (.listing f k (if win.takes i then [element e] else []) stop rest) := by
  unfold appendMatch
  split
  · next htakes =>
    rw [keyedItems_eq (h htakes)]
    refine (pushAll_follows [element e] stop rest).bind ?_ ?_
    · rintro _ g ⟨-, rfl⟩
      exact Or.inr ⟨rfl, rfl⟩
    · rintro failure g ⟨h, -⟩
      cases h
  · exact Or.inr ⟨rfl, rfl⟩

/-- The loop over the entries counts those that match. -/
theorem scanInThread_follows {wild : Bytes} (es : List Entry) :
    WorkerFollows store patterns win (fun r g => r = .ok true ∧ g = .listing f k [] false [])
      (scanInThread wild win es true) (.listing f k [] false (es.filter (accepts wild))) := by
  induction es with
  | nil => exact Or.inr ⟨rfl, rfl⟩
  | cons e es ih =>
    unfold scanInThread
    refine Prog.Follows.lift_bind fun leaves _ => ?_
    cases leaves with
    | true => exact ⟨_, .giveUp, Or.inr ⟨rfl, rfl⟩⟩
    | false =>
      refine ⟨_, .goOn, ?_⟩
      simp only [Bool.false_eq_true, if_false]
      split
      · next hmatch =>
        rw [List.filter_cons_of_pos hmatch]
        refine Prog.Follows.lift_bind fun i _ => ?_
        by_cases hread : win.takes i = true → (entryValue e.2).isOk = true
        · refine ⟨_, .count hread, (appendMatch_follows hread _ _).bind ?_ ?_⟩
          · rintro ret g ⟨hret, rfl⟩
            cases hret
            split
            · next hstops =>
              rw [hstops]
              exact Prog.Follows.lift_bind fun _ _ => ⟨_, .stop, Or.inr ⟨rfl, rfl⟩⟩
            · next hgoes =>
              rw [Bool.not_eq_true] at hgoes
              rw [hgoes]
              exact ih
          · rintro failure g ⟨h, -⟩
            cases h
        · obtain ⟨htakes, hbad⟩ := Classical.not_imp.mp hread
          exact ⟨_, .lose htakes (Bool.eq_false_iff.mpr hbad), workerFollows_astray _⟩
      · next hmatch =>
        rw [List.filter_cons_of_neg hmatch]
        exact ih

/-- A pattern is listed, or it fails. -/
theorem retAndKeys_follows {c : Config} (hdb : c.dbOk = true) {wild : Bytes}
    (hk : patterns[k]? = some wild) :
    WorkerFollows store patterns win
      (fun r g => r = .ok true ∧ g = .listing f k [] false [] ∨ r = .ok false ∧ g = .failed f)
      (retAndKeys c store wild win k) (.claimed f k) := by
  refine Prog.Follows.lift_bind fun ret _ => ?_
  cases ret with
  | false => exact ⟨_, .loadFalse, Or.inr (Or.inr ⟨rfl, rfl⟩)⟩
  | true =>
    cases hstar : startsWithStar wild with
    | true =>
      have hbad : startsBad patterns k = true := by
        rw [startsBad, hk]
        exact hstar
      refine ⟨_, .loadBad hbad, ?_⟩
      rw [if_pos rfl, getKeysInThread, if_pos hdb, if_pos hstar]
      exact Or.inr (Or.inr ⟨rfl, rfl⟩)
    | false =>
      have hgood : startsBad patterns k = false := by
        rw [startsBad, hk]
        exact hstar
      have hmatches : matchesAt store patterns k =
          (forwardRange store (starPrefix wild)).filter (accepts wild) := by
        rw [matchesAt, hk, forwardRange_eq]
        simp only [hstar]
        rfl
      refine ⟨_, .loadTrue hgood, ?_⟩
      rw [if_pos rfl, getKeysInThread, if_pos hdb, hstar, hmatches]
      exact (scanInThread_follows _).mono fun _ _ => Or.imp_right Or.inl

/-- One pattern: its index is used up, and the worker is back at the head of its loop. -/
theorem serveWild_follows {c : Config} {x : RValue} (hdb : c.dbOk = true) {wild : Bytes}
    (hk : patterns[k]? = some wild) (hwild : wildAt x k = .ok wild) :
    WorkerFollows store patterns win (fun r g => r = .ok () ∧ g = .looping f)
      (serveWild c store x win k) (.claimed f k) := by
  have hbody : WorkerFollows store patterns win (fun r g => r = .ok () ∧ g = .looping f)
      (retAndKeys c store wild win k >>= fun ret => shared (.storeRet ret)) (.claimed f k) := by
    refine (retAndKeys_follows hdb hk).bind ?_ ?_
    · rintro ret g (⟨hret, rfl⟩ | ⟨hret, rfl⟩) <;> cases hret
      · exact fun _ _ => ⟨_, .storeTrue, Or.inr ⟨rfl, rfl⟩⟩
      · exact fun _ _ => ⟨_, .storeFalse, Or.inr ⟨rfl, rfl⟩⟩
    · rintro failure g (⟨h, -⟩ | ⟨h, -⟩) <;> cases h
  unfold serveWild
  rw [hwild]
  refine Prog.Follows.tryCatch hbody (fun _ _ h => h) ?_
  rintro failure g (rfl | ⟨h, -⟩)
  · exact workerFollows_astray _
  · cases h

/-- A worker follows the protocol to its end. -/
theorem worker_follows {c : Config} {x : RValue} (hdb : c.dbOk = true)
    (hx : ∀ (k : ℕ) wild, patterns[k]? = some wild → wildAt x k = .ok wild) (turns : ℕ) :
    WorkerFollows store patterns win
      (fun r g => r = .ok () ∧ (g = .ended ∨ g = .looping 0))
      (worker c store x win patterns.length turns) (.looping turns) := by
  induction turns with
  | zero => exact Or.inr ⟨rfl, Or.inr rfl⟩
  | succ turns ih =>
    unfold worker
    refine Prog.Follows.lift_bind fun r hr => ?_
    obtain ⟨k, rfl⟩ := Int.eq_ofNat_of_zero_le hr
    by_cases hk : k < patterns.length
    · refine ⟨_, .claim hk, ?_⟩
      rw [if_pos (Int.ofNat_lt.mpr hk)]
      have hpattern : patterns[k]? = some patterns[k] := List.getElem?_eq_getElem hk
      refine (serveWild_follows hdb hpattern (hx k _ hpattern)).bind ?_ ?_
      · rintro _ g ⟨-, rfl⟩
        exact ih
      · rintro failure g ⟨h, -⟩
        cases h
    · refine ⟨_, .leave (Int.ofNat_le.mpr (Nat.le_of_not_lt hk)), ?_⟩
      rw [if_neg fun h => hk (Int.ofNat_lt.mp h)]
      exact Or.inr ⟨rfl, Or.inl rfl⟩

end

/-! ## What all workers have done -/

namespace Stage

/-- The turns that are left. -/
def turns : Stage → ℕ
  | looping f | claimed f _ | listing f _ _ _ _ | failed f => f
  | ended | astray => 0

/-- The matches that the worker is still to count. -/
def owed (store : Store) (patterns : List Bytes) : Stage → Multiset Match
  | claimed _ k => ((matchesAt store patterns k).map (k, ·) : List Match)
  | listing _ k _ _ rest => (rest.map (k, ·) : List Match)
  | _ => 0

/-- The values that the worker is still to append. -/
def unpushed : Stage → Multiset WValue
  | listing _ _ out _ _ => (out : Multiset WValue)
  | _ => 0

/-- The worker has left its loop. -/
def left : Stage → ℕ
  | ended => 1
  | _ => 0

/-- The worker has counted the end of the window. -/
def stopping : Stage → Bool
  | listing _ _ _ stop _ => stop
  | _ => false

/-- The worker is about to store a failure. -/
def failing : Stage → Bool
  | failed _ => true
  | _ => false

/-- The worker has to do with a bad pattern. -/
def minds (k : ℕ) : Stage → Bool
  | claimed _ k' => k' = k
  | failed _ => true
  | _ => false

end Stage

section

variable (store : Store) (patterns : List Bytes) (win : Window)

/-- The matches of the patterns from a position on. -/
def matchesFrom (m : ℕ) : List Match :=
  ((List.range patterns.length).drop m).flatMap fun k =>
    (matchesAt store patterns k).map (k, ·)

/-- The counters do what integers without bounds would do. -/
structure CountersFit (numWorkers : ℕ) : Prop where
  takes : ∀ p < (matchesFrom store patterns 0).length, win.takes (int32 p) = win.spans p
  stops : ∀ p < (matchesFrom store patterns 0).length, win.stops (int32 p) = true →
    win.limit ≠ -1 ∧ win.skip + win.limit ≤ p
  claims : patterns.length + numWorkers ≤ 2 ^ 31

/-- An entry that is to be appended can be read. -/
def Reads (s : Shared) : SharedOp → Prop
  | .nextIndex e => win.takes (int32 (s.atomicIndex + 1)) = true → (entryValue e.2).isOk = true
  | _ => True

/-- An access does not drop a match and does not hide a failure: `ret` is not found false
for a pattern that has matches, true is not stored over false, and an entry that is to be
appended can be read. -/
def Careful (s : Shared) : SharedOp → Prop
  | .loadRet wildIndx => s.ret = true ∨ matchesAt store patterns wildIndx.toNat = []
  | .storeRet true => s.ret = true
  | op => Reads win s op

instance (s : Shared) (op : SharedOp) : Decidable (Reads win s op) :=
  match op with
  | .nextIndex _ => inferInstanceAs (Decidable (_ → _))
  | .nextWild | .loadRet _ | .storeRet _ | .testExit | .setExit | .pushBack _ => isTrue trivial

instance (s : Shared) (op : SharedOp) : Decidable (Careful store patterns win s op) :=
  match op with
  | .loadRet _ => inferInstanceAs (Decidable (_ ∨ _))
  | .storeRet true => inferInstanceAs (Decidable (_ = true))
  | .nextIndex e => inferInstanceAs (Decidable (Reads win s (.nextIndex e)))
  | .storeRet false | .nextWild | .testExit | .setExit | .pushBack _ => isTrue trivial

/-- What the workers have done: the first `m` patterns have been taken, the matches of a
list have been counted in this order, and some matches have been dropped, all of them after
the end of the window. -/
structure Tally {numWorkers : ℕ} (s : Shared) (g : Fin numWorkers → Stage) (m : ℕ)
    (counted : List Match) (dropped : Multiset Match) : Prop where
  wildIndex_eq : s.wildIndex = m - 1
  claims_le : m ≤ patterns.length + ∑ i, (g i).left
  atomicIndex_eq : s.atomicIndex = int32 (counted.length - 1)
  balance : (counted : Multiset Match) + dropped + ∑ i, (g i).owed store patterns +
    (matchesFrom store patterns m : Multiset Match) = matchesFrom store patterns 0
  results : (s.matchedResults : Multiset WValue) + ∑ i, (g i).unpushed =
    ((selectAt win.spans 0 counted).map fun e => element e.2 : List WValue)
  past : (dropped ≠ 0 ∨ s.exit = true ∨ ∃ i, (g i).stopping = true) →
    win.limit ≠ -1 ∧ win.skip + win.limit < counted.length
  turns_le : ∀ i, patterns.length + 1 ≤ (g i).turns + m
  none_astray : ∀ i, g i ≠ .astray
  bad_kept : ∀ k < m, startsBad patterns k = true → s.ret = false ∨ ∃ i, (g i).minds k = true
  bad_found : (s.ret = false ∨ ∃ i, (g i).failing = true) → ∃ k, startsBad patterns k = true

end

section

variable {store : Store} {patterns : List Bytes} {win : Window} {numWorkers : ℕ} {s : Shared}
  {g : Fin numWorkers → Stage} {m : ℕ} {counted : List Match} {dropped : Multiset Match}

/-- The tally before anything has been done. -/
theorem tally_start : Tally store patterns win (Shared.start [])
    (fun _ : Fin numWorkers => .looping (patterns.length + 1)) 0 [] 0 where
  wildIndex_eq := rfl
  claims_le := Nat.zero_le _
  atomicIndex_eq := rfl
  balance := by simp [Stage.owed]
  results := by simp [Stage.unpushed, selectAt, Shared.start]
  past := by simp [Stage.stopping, Shared.start]
  turns_le _ := le_rfl
  none_astray _ := by simp
  bad_kept k hk := absurd hk (Nat.not_lt_zero k)
  bad_found := by simp [Stage.failing, Shared.start]

theorem matchesFrom_of_lt (hm : m < patterns.length) : matchesFrom store patterns m =
    (matchesAt store patterns m).map (m, ·) ++ matchesFrom store patterns (m + 1) := by
  have hlen : m < (List.range patterns.length).length := by rwa [List.length_range]
  rw [matchesFrom, List.drop_eq_getElem_cons hlen, List.getElem_range, List.flatMap_cons]
  rfl

theorem matchesFrom_of_le (hm : patterns.length ≤ m) : matchesFrom store patterns m = [] := by
  rw [matchesFrom, List.drop_eq_nil_of_le (by rwa [List.length_range]), List.flatMap_nil]

/-- One worker goes on to another stage: it takes patterns, counts some matches, drops some,
appends some values, or has to do with a failure. -/
theorem Tally.move (h : Tally store patterns win s g m counted dropped) {i : Fin numWorkers}
    {b : Stage} {s' : Shared} (m' : ℕ) (new : List Match) (dropped' : Multiset Match)
    (hm : m ≤ m') (hwild : s'.wildIndex = m' - 1)
    (hindex : s'.atomicIndex = int32 ((counted ++ new).length - 1))
    (hleft : m' ≤ patterns.length ∨ m' + (g i).left ≤ m + b.left)
    (hturns : (g i).turns + m ≤ b.turns + m' ∨ patterns.length + 1 ≤ b.turns + m')
    (hastray : b ≠ .astray)
    (howes : (new : Multiset Match) + dropped' + b.owed store patterns +
        (matchesFrom store patterns m' : Multiset Match) =
      dropped + (g i).owed store patterns + (matchesFrom store patterns m : Multiset Match))
    (hpushes : (s'.matchedResults : Multiset WValue) + b.unpushed =
      s.matchedResults + (g i).unpushed +
        ((selectAt win.spans counted.length new).map fun e => element e.2 : List WValue))
    (hpast : (dropped' ≠ 0 ∨ s'.exit = true ∨ b.stopping = true) →
      (dropped ≠ 0 ∨ s.exit = true ∨ (g i).stopping = true) ∨
        win.limit ≠ -1 ∧ win.skip + win.limit < (counted ++ new).length)
    (hret : s.ret = false → s'.ret = false)
    (hminds : ∀ k, startsBad patterns k = true → (g i).minds k = true ∨ m ≤ k ∧ k < m' →
      s'.ret = false ∨ b.minds k = true)
    (hfound : (s'.ret = false ∨ b.failing = true) →
      (s.ret = false ∨ (g i).failing = true) ∨ ∃ k, startsBad patterns k = true) :
    Tally store patterns win s' (Function.update g i b) m' (counted ++ new) dropped' := by
  obtain ⟨restOwed, howed, howed'⟩ := Pool.exists_sum_update (Stage.owed store patterns) g i
  obtain ⟨restPushed, hpushed, hpushed'⟩ := Pool.exists_sum_update Stage.unpushed g i
  obtain ⟨restLeft, hsumLeft, hsumLeft'⟩ := Pool.exists_sum_update Stage.left g i
  have hlength : (counted.length : ℤ) ≤ (counted ++ new).length := by
    rw [List.length_append]
    omega
  exact {
    wildIndex_eq := hwild
    claims_le := by
      have hclaims := h.claims_le
      rw [hsumLeft] at hclaims
      rw [hsumLeft']
      omega
    atomicIndex_eq := hindex
    balance := by
      rw [← h.balance, howed, howed', ← Multiset.coe_add]
      calc (counted : Multiset Match) + new + dropped' + (b.owed store patterns + restOwed) +
            (matchesFrom store patterns m' : Multiset Match)
          = counted + restOwed + (new + dropped' + b.owed store patterns +
              (matchesFrom store patterns m' : Multiset Match)) := by abel
        _ = counted + restOwed + (dropped + (g i).owed store patterns +
              (matchesFrom store patterns m : Multiset Match)) := by rw [howes]
        _ = counted + dropped + ((g i).owed store patterns + restOwed) +
              (matchesFrom store patterns m : Multiset Match) := by abel
    results := by
      rw [selectAt_append, Nat.zero_add, List.map_append, ← Multiset.coe_add, ← h.results,
        hpushed, hpushed', ← add_assoc, hpushes]
      abel
    past := by
      intro hpast'
      have hstep : dropped' ≠ 0 ∨ s'.exit = true ∨ b.stopping = true ∨
          ∃ j, (g j).stopping = true :=
        hpast'.imp_right (Or.imp_right (Pool.of_exists_update fun b : Stage => b.stopping = true))
      have hold : (dropped ≠ 0 ∨ s.exit = true ∨ ∃ j, (g j).stopping = true) ∨
          win.limit ≠ -1 ∧ win.skip + win.limit < (counted ++ new).length := by
        rcases hstep with hdrop | hexit | hstop | hother
        · exact (hpast (Or.inl hdrop)).imp_left (Or.imp_right (Or.imp_right fun hi => ⟨i, hi⟩))
        · exact (hpast (Or.inr (Or.inl hexit))).imp_left
            (Or.imp_right (Or.imp_right fun hi => ⟨i, hi⟩))
        · exact (hpast (Or.inr (Or.inr hstop))).imp_left
            (Or.imp_right (Or.imp_right fun hi => ⟨i, hi⟩))
        · exact Or.inl (Or.inr (Or.inr hother))
      rcases hold with hold | hnow
      · obtain ⟨hlimit, hlt⟩ := h.past hold
        exact ⟨hlimit, hlt.trans_le hlength⟩
      · exact hnow
    turns_le := by
      refine Pool.forall_update (fun b : Stage => patterns.length + 1 ≤ b.turns + m')
        (fun j => (h.turns_le j).trans (by omega)) ?_
      have hi := h.turns_le i
      omega
    none_astray := Pool.forall_update (· ≠ Stage.astray) h.none_astray hastray
    bad_kept := by
      intro k hk hbad
      by_cases hkm : k < m
      · rcases h.bad_kept k hkm hbad with hfalse | ⟨j, hj⟩
        · exact Or.inl (hret hfalse)
        · by_cases hji : j = i
          · subst hji
            exact (hminds k hbad (Or.inl hj)).imp_right fun hb => ⟨j, by simpa using hb⟩
          · exact Or.inr ⟨j, by simpa [Function.update_of_ne hji] using hj⟩
      · exact (hminds k hbad (Or.inr ⟨by omega, hk⟩)).imp_right fun hb => ⟨i, by simpa using hb⟩
    bad_found := by
      rintro (hfalse | hfailing)
      · rcases hfound (Or.inl hfalse) with hold | hbad
        · exact h.bad_found (hold.imp_right fun hi => ⟨i, hi⟩)
        · exact hbad
      · rcases Pool.of_exists_update (fun b : Stage => b.failing = true) hfailing with hb | hother
        · rcases hfound (Or.inr hb) with hold | hbad
          · exact h.bad_found (hold.imp_right fun hi => ⟨i, hi⟩)
          · exact hbad
        · exact h.bad_found (Or.inr hother) }

/-- The index that a worker takes next is not negative. -/
theorem Tally.claims_lt (h : Tally store patterns win s g m counted dropped)
    (hfits : CountersFit store patterns win numWorkers) {i : Fin numWorkers}
    (hi : (g i).left = 0) : m < 2 ^ 31 := by
  obtain ⟨rest, hsum, hsum'⟩ := Pool.exists_sum_update Stage.left g i
  have hle : ∑ j, (Function.update g i .ended j).left ≤ numWorkers := by
    have hone : ∀ b : Stage, b.left ≤ 1 := fun b => by cases b <;> simp [Stage.left]
    simpa using Finset.sum_le_card_nsmul Finset.univ
      (fun j => (Function.update g i .ended j).left) 1 fun j _ => hone _
  have hclaims := h.claims_le
  have hbound := hfits.claims
  rw [hsum'] at hle
  rw [hsum, hi] at hclaims
  simp only [Stage.left] at hle
  omega

theorem Tally.nextWild_eq (h : Tally store patterns win s g m counted dropped)
    (hm : m < 2 ^ 31) : int32 (s.wildIndex + 1) = m := by
  rw [h.wildIndex_eq, sub_add_cancel]
  exact int32_eq_self (by omega)

/-- The number of a match that is counted next. -/
theorem Tally.nextIndex_eq (h : Tally store patterns win s g m counted dropped) :
    int32 (s.atomicIndex + 1) = int32 counted.length := by
  rw [h.atomicIndex_eq, int32_add, sub_add_cancel]

/-- A match that is still to be counted fits behind those that have been counted. -/
theorem Tally.counted_lt (h : Tally store patterns win s g m counted dropped)
    {i : Fin numWorkers} (hi : (g i).owed store patterns ≠ 0) :
    counted.length < (matchesFrom store patterns 0).length := by
  obtain ⟨rest, hsum, -⟩ := Pool.exists_sum_update (Stage.owed store patterns) g i
  have hcard := congrArg Multiset.card h.balance
  have hpos := Multiset.card_pos.mpr hi
  rw [hsum] at hcard
  simp only [Multiset.card_add, Multiset.coe_card] at hcard
  omega

/-- An access that takes no pattern and counts no match. -/
theorem Tally.keep (h : Tally store patterns win s g m counted dropped) {i : Fin numWorkers}
    {b : Stage} {s' : Shared} (dropped' : Multiset Match) (hwild : s'.wildIndex = s.wildIndex)
    (hindex : s'.atomicIndex = s.atomicIndex) (hleft : (g i).left = b.left)
    (hturns : (g i).turns = b.turns) (hastray : b ≠ .astray)
    (howes : dropped' + b.owed store patterns = dropped + (g i).owed store patterns)
    (hpushes : (s'.matchedResults : Multiset WValue) + b.unpushed =
      s.matchedResults + (g i).unpushed)
    (hpast : (dropped' ≠ 0 ∨ s'.exit = true ∨ b.stopping = true) →
      dropped ≠ 0 ∨ s.exit = true ∨ (g i).stopping = true)
    (hret : s.ret = false → s'.ret = false)
    (hminds : ∀ k, startsBad patterns k = true → (g i).minds k = true →
      s'.ret = false ∨ b.minds k = true)
    (hfound : (s'.ret = false ∨ b.failing = true) →
      (s.ret = false ∨ (g i).failing = true) ∨ ∃ k, startsBad patterns k = true) :
    ∃ m' counted' dropped', Tally store patterns win s' (Function.update g i b) m' counted'
      dropped' := by
  refine ⟨m, counted ++ [], dropped', h.move m [] dropped' le_rfl ?_ ?_ ?_ ?_ hastray ?_ ?_ ?_
    hret ?_ hfound⟩
  · exact hwild.trans h.wildIndex_eq
  · rw [List.append_nil]
    exact hindex.trans h.atomicIndex_eq
  · exact Or.inr (by omega)
  · exact Or.inl (by omega)
  · rw [Multiset.coe_nil, zero_add, howes]
  · simpa [selectAt] using hpushes
  · exact fun hpast' => Or.inl (hpast hpast')
  · rintro k hbad (hi | hk)
    · exact hminds k hbad hi
    · omega

/-- Each access of a worker keeps the tally. -/
theorem Tally.step (h : Tally store patterns win s g m counted dropped)
    (hfits : CountersFit store patterns win numWorkers) {op : SharedOp}
    (hcareful : Careful store patterns win s op) {i : Fin numWorkers} {b : Stage}
    (hmove : WorkerMove store patterns win (g i) op (access op s).1 b) :
    ∃ m' counted' dropped', Tally store patterns win (access op s).2 (Function.update g i b) m'
      counted' dropped' := by
  generalize hgi : g i = a at hmove
  generalize hr : (access op s).1 = r at hmove
  cases hmove with
  | @claim f k hk =>
    have hm := h.claims_lt hfits (i := i) (by rw [hgi]; rfl)
    have hmk : (m : ℤ) = k := (h.nextWild_eq hm).symm.trans hr
    obtain rfl : m = k := by omega
    refine ⟨m + 1, counted ++ [], dropped, h.move (m + 1) [] dropped (Nat.le_succ m) ?_ ?_
      (Or.inl hk) (Or.inl ?_) (by simp) ?_ ?_ ?_ id ?_ ?_⟩
    · change int32 (s.wildIndex + 1) = _
      rw [h.nextWild_eq hm]
      push_cast
      omega
    · rw [List.append_nil]
      exact h.atomicIndex_eq
    · rw [hgi]
      simp only [Stage.turns]
      omega
    · rw [hgi, matchesFrom_of_lt hk, ← Multiset.coe_add, Multiset.coe_nil]
      simp only [Stage.owed]
      abel
    · rw [hgi]
      simp [Stage.unpushed, selectAt, access]
    · rw [hgi]
      exact Or.inl
    · rintro k hbad (hi | hkm)
      · rw [hgi] at hi
        cases hi
      · exact Or.inr (decide_eq_true (by omega))
    · rw [hgi]
      exact Or.inl
  | @leave f r hn =>
    have hm := h.claims_lt hfits (i := i) (by rw [hgi]; rfl)
    have hmr : (m : ℤ) = r := (h.nextWild_eq hm).symm.trans hr
    have hnm : patterns.length ≤ m := by omega
    refine ⟨m + 1, counted ++ [], dropped, h.move (m + 1) [] dropped (Nat.le_succ m) ?_ ?_
      (Or.inr ?_) (Or.inr ?_) (by simp) ?_ ?_ ?_ id ?_ ?_⟩
    · change int32 (s.wildIndex + 1) = _
      rw [h.nextWild_eq hm]
      push_cast
      omega
    · rw [List.append_nil]
      exact h.atomicIndex_eq
    · rw [hgi]
      simp only [Stage.left]
      omega
    · simp only [Stage.turns]
      omega
    · rw [hgi, matchesFrom_of_le hnm, matchesFrom_of_le (by omega), Multiset.coe_nil]
      simp only [Stage.owed]
      abel
    · rw [hgi]
      simp [Stage.unpushed, selectAt, access]
    · rw [hgi]
      exact Or.inl
    · rintro k hbad (hi | hkm)
      · rw [hgi] at hi
        cases hi
      · rw [startsBad, List.getElem?_eq_none (by omega)] at hbad
        cases hbad
    · rw [hgi]
      exact Or.inl
  | @loadTrue f k hgood =>
    refine h.keep dropped rfl rfl (by rw [hgi]; rfl) (by rw [hgi]; rfl) (by simp) (by rw [hgi]; rfl)
      (by rw [hgi]; rfl) (by rw [hgi]; exact id) id ?_ (by rw [hgi]; exact Or.inl)
    intro k' hbad hi
    rw [hgi] at hi
    obtain rfl : k = k' := of_decide_eq_true hi
    rw [hgood] at hbad
    cases hbad
  | @loadBad f k hbad =>
    have hnone : matchesAt store patterns k = [] := by
      obtain ⟨wild, hwild, hstar⟩ := (Option.any_eq_true ..).mp hbad
      rw [matchesAt, hwild]
      exact if_pos hstar
    refine h.keep dropped rfl rfl (by rw [hgi]; rfl) (by rw [hgi]; rfl) (by simp) ?_
      (by rw [hgi]; rfl) (by rw [hgi]; exact id) id (fun _ _ _ => Or.inr rfl)
      fun _ => Or.inr ⟨k, hbad⟩
    rw [hgi]
    simp [Stage.owed, hnone]
  | @loadFalse f k =>
    have hret : s.ret = false := hr
    have hnone : matchesAt store patterns k = [] := by
      rcases hcareful with htrue | hnone
      · rw [hret] at htrue
        cases htrue
      · exact hnone
    refine h.keep dropped rfl rfl (by rw [hgi]; rfl) (by rw [hgi]; rfl) (by simp) ?_
      (by rw [hgi]; rfl) (by rw [hgi]; exact id) id (fun _ _ _ => Or.inr rfl)
      fun _ => Or.inl (Or.inl hret)
    rw [hgi]
    simp [Stage.owed, hnone]
  | @storeTrue f k =>
    have hret : s.ret = true := hcareful
    refine h.keep dropped rfl rfl (by rw [hgi]; rfl) (by rw [hgi]; rfl) (by simp) (by rw [hgi]; rfl)
      (by rw [hgi]; rfl) (by rw [hgi]; exact id) ?_ ?_ ?_
    · rw [hret]
      exact fun h => h
    · intro k' _ hi
      rw [hgi] at hi
      cases hi
    · rintro (h | h) <;> cases h
  | @storeFalse f =>
    refine h.keep dropped rfl rfl (by rw [hgi]; rfl) (by rw [hgi]; rfl) (by simp) (by rw [hgi]; rfl)
      (by rw [hgi]; rfl) (by rw [hgi]; exact id) (fun _ => rfl) (fun _ _ _ => Or.inl rfl) ?_
    rw [hgi]
    exact fun _ => Or.inl (Or.inr rfl)
  | @goOn f k rest =>
    exact h.keep dropped rfl rfl (by rw [hgi]) (by rw [hgi]) (by simp) (by rw [hgi])
      (by rw [hgi]; rfl) (by rw [hgi]; exact id) id (by rw [hgi]; exact fun _ _ => Or.inr)
      (by rw [hgi]; exact Or.inl)
  | @giveUp f k rest =>
    have hexit : s.exit = true := hr
    refine h.keep (dropped + (rest.map (k, ·) : List Match)) rfl rfl (by rw [hgi]; rfl)
      (by rw [hgi]; rfl) (by simp) (by rw [hgi]; exact add_zero _) (by rw [hgi]; rfl)
      (fun _ => Or.inr (Or.inl hexit)) id (by rw [hgi]; exact fun _ _ => Or.inr)
      (by rw [hgi]; exact Or.inl)
  | @count f k e rest idx _ =>
    have hidx : idx = int32 counted.length := by
      rw [← hr]
      exact h.nextIndex_eq
    have hlt : counted.length < (matchesFrom store patterns 0).length := by
      refine h.counted_lt (i := i) ?_
      rw [hgi]
      simp [Stage.owed]
    have htakes := hfits.takes _ hlt
    have hstops := hfits.stops _ hlt
    rw [← hidx] at htakes hstops
    refine ⟨m, counted ++ [(k, e)], dropped, h.move m [(k, e)] dropped le_rfl h.wildIndex_eq ?_
      (Or.inr (by rw [hgi]; rfl)) (Or.inl (by rw [hgi]; rfl)) (by simp) ?_ ?_ ?_ id ?_ ?_⟩
    · change int32 (s.atomicIndex + 1) = _
      rw [h.nextIndex_eq, List.length_append, List.length_singleton]
      congr 1
      push_cast
      omega
    · rw [hgi]
      change ({(k, e)} : Multiset Match) + dropped + (rest.map (k, ·) : List Match) + _ =
        dropped + ((k, e) ::ₘ (rest.map (k, ·) : List Match)) + _
      rw [← Multiset.singleton_add]
      abel
    · rw [hgi]
      simp only [access, Stage.unpushed, selectAt, ← htakes]
      split <;> simp
    · rintro (hdrop | hexit | hstop)
      · exact Or.inl (Or.inl hdrop)
      · exact Or.inl (Or.inr (Or.inl hexit))
      · obtain ⟨hlimit, hle⟩ := hstops hstop
        refine Or.inr ⟨hlimit, ?_⟩
        rw [List.length_append]
        push_cast
        simp only [List.length_singleton]
        omega
    · rintro k' - (hi | hk)
      · rw [hgi] at hi
        cases hi
      · omega
    · rw [hgi]
      exact Or.inl
  | @push f k w ws stop rest =>
    refine h.keep dropped rfl rfl (by rw [hgi]; rfl) (by rw [hgi]; rfl) (by simp)
      (by rw [hgi]; rfl) ?_
      (by rw [hgi]; exact id) id (by rw [hgi]; exact fun _ _ => Or.inr)
      (by rw [hgi]; exact Or.inl)
    rw [hgi]
    change ((s.matchedResults ++ [w] : List WValue) : Multiset WValue) + (ws : Multiset WValue) =
      (s.matchedResults : Multiset WValue) + ((w :: ws : List WValue) : Multiset WValue)
    rw [Multiset.coe_add, Multiset.coe_add, List.append_assoc]
    rfl
  | @stop f k rest =>
    refine h.keep (dropped + (rest.map (k, ·) : List Match)) rfl rfl (by rw [hgi]; rfl)
      (by rw [hgi]; rfl) (by simp) (by rw [hgi]; exact add_zero _) (by rw [hgi]; rfl)
      (fun _ => Or.inr (Or.inr (by rw [hgi]; rfl))) id (by rw [hgi]; exact fun _ _ => Or.inr)
      (by rw [hgi]; exact Or.inl)
  | @lose f k e rest idx htakes hread =>
    have hreads : win.takes (int32 (s.atomicIndex + 1)) = true →
        (entryValue e.2).isOk = true := hcareful
    rw [hreads (by rw [← htakes, ← hr]; rfl)] at hread
    cases hread
  | wander => exact absurd hgi (h.none_astray i)

/-! ## Runs -/

/-- The workers of a call for a list of patterns. -/
def workersOn (c : Config) (store : Store) (rs : List RValue) (win : Window) (numWorkers : ℕ) :
    Workers numWorkers :=
  startWorkers c store (.list rs) rs.length win numWorkers []

/-- Each access that the schedule brings about meets a condition. -/
def EachAccess (C : Shared → SharedOp → Prop) (p : Workers numWorkers)
    (schedule : List (Fin numWorkers)) : Prop :=
  Pool.EachTurn (fun _ => access) (fun _ _ => true) (Pool.NextMeets C) p schedule

instance (C : Shared → SharedOp → Prop) [∀ s op, Decidable (C s op)] (p : Workers numWorkers)
    (schedule : List (Fin numWorkers)) : Decidable (EachAccess C p schedule) :=
  inferInstanceAs (Decidable (Pool.EachTurn _ _ _ p schedule))

/-- The elements of the list are the patterns. -/
theorem wildAt_list {rs : List RValue} (hrs : rs.map RValue.s = patterns.map Except.ok) (k : ℕ)
    (wild : Bytes) (hk : patterns[k]? = some wild) : wildAt (.list rs) k = .ok wild := by
  have hat := congrArg (·[k]?) hrs
  simp only [List.getElem?_map, hk, Option.map_some] at hat
  obtain ⟨r, hr, hs⟩ := Option.map_eq_some_iff.mp hat
  rw [wildAt, if_pos (Int.natCast_nonneg k), Int.toNat_natCast, hr]
  exact hs

/-- Whenever a schedule of careful accesses is interrupted, the tally holds, and each worker
follows the protocol. -/
theorem exists_tally {c : Config} {rs : List RValue} (hdb : c.dbOk = true)
    (hrs : rs.map RValue.s = patterns.map Except.ok)
    (hfits : CountersFit store patterns win numWorkers) {C : Shared → SharedOp → Prop}
    (hC : ∀ {s} {g : Fin numWorkers → Stage} {m counted dropped op},
      Tally store patterns win s g m counted dropped → C s op → Careful store patterns win s op)
    {schedule : List (Fin numWorkers)}
    (hturns : EachAccess C (workersOn c store rs win numWorkers) schedule) :
    ∃ g, (∃ m counted dropped, Tally store patterns win
        ((workersOn c store rs win numWorkers).run schedule).state g m counted dropped) ∧
      ∀ i, (((workersOn c store rs win numWorkers).run schedule).progs i).Follows
        (WorkerMove store patterns win) CountsUp
        (fun r g => g = .astray ∨ r = .ok () ∧ (g = .ended ∨ g = .looping 0)) (g i) := by
  have hlength : rs.length = patterns.length := by
    simpa using congrArg List.length hrs
  refine @Pool.run_follows _ _ _ _ _ _ _ _ (fun _ => access) (fun _ _ => true) _ _ _
    (fun s g => ∃ m counted dropped, Tally store patterns win s g m counted dropped) _ ?_ ?_ ?_
    _ _ ⟨0, [], 0, tally_start⟩ (fun i => ?_) _ hturns _ (List.prefix_refl _)
  · intro op
    cases op with
    | nextWild => exact ⟨0, le_rfl⟩
    | loadRet _ | testExit => exact ⟨true, trivial⟩
    | storeRet _ | setExit | pushBack _ => exact ⟨(), trivial⟩
    | nextIndex _ => exact ⟨0, trivial⟩
  · rintro s g i op r b ⟨m, counted, dropped, h⟩ hmove
    generalize hgi : g i = a at hmove
    cases hmove with
    | claim hk =>
      change (0 : ℤ) ≤ int32 (s.wildIndex + 1)
      rw [h.nextWild_eq (h.claims_lt hfits (i := i) (by rw [hgi]; rfl))]
      exact Int.natCast_nonneg m
    | leave hn =>
      change (0 : ℤ) ≤ int32 (s.wildIndex + 1)
      rw [h.nextWild_eq (h.claims_lt hfits (i := i) (by rw [hgi]; rfl))]
      exact Int.natCast_nonneg m
    | wander => exact absurd hgi (h.none_astray i)
    | _ => trivial
  · rintro s g i op b ⟨m, counted, dropped, h⟩ hCop hmove
    exact h.step hfits (hC h hCop) hmove
  · have hsize : int32 (rs.length : ℕ) = patterns.length := by
      have hi := i.isLt
      have hclaims := hfits.claims
      rw [hlength]
      exact int32_eq_self (by omega)
    change (worker c store (.list rs) win (int32 rs.length) (rs.length + 1)).Follows _ _ _ _
    rw [hsize, hlength]
    exact worker_follows hdb (wildAt_list hrs) _

/-- All workers have left their loops. -/
def Workers.Ended (p : Workers numWorkers) : Prop := ∀ i, (p.progs i).outcome.isSome = true

instance (p : Workers numWorkers) : Decidable p.Ended :=
  inferInstanceAs (Decidable (∀ i, (p.progs i).outcome.isSome = true))

/-- Every schedule can be completed. -/
theorem exists_ended (p : Workers numWorkers) (schedule : List (Fin numWorkers)) :
    ∃ rest, (p.run (schedule ++ rest)).Ended := by
  have hwhole : ∃ rest, ((p.run schedule).run rest).Ended :=
    Pool.exists_run_ended (fun _ _ => rfl) (p.run schedule)
  obtain ⟨rest, hended⟩ := hwhole
  refine ⟨rest, ?_⟩
  rw [Workers.run, Pool.run, List.foldl_append]
  exact hended

/-- When all workers have ended, every match has been counted or dropped, and what has been
counted inside the window has been appended. -/
theorem joined_of_ended {c : Config} {rs : List RValue} (hdb : c.dbOk = true)
    (hrs : rs.map RValue.s = patterns.map Except.ok)
    (hfits : CountersFit store patterns win numWorkers) (hworkers : 0 < numWorkers)
    {C : Shared → SharedOp → Prop}
    (hC : ∀ {s} {g : Fin numWorkers → Stage} {m counted dropped op},
      Tally store patterns win s g m counted dropped → C s op → Careful store patterns win s op)
    {schedule : List (Fin numWorkers)}
    (hturns : EachAccess C (workersOn c store rs win numWorkers) schedule)
    (hended : ((workersOn c store rs win numWorkers).run schedule).Ended) :
    ∃ (ret : Bool) (results : List WValue) (counted : List Match) (dropped : Multiset Match),
      ((workersOn c store rs win numWorkers).run schedule).joined = some (ret, results) ∧
      (counted : Multiset Match) + dropped = matchesFrom store patterns 0 ∧
      results.Perm ((selectAt win.spans 0 counted).map fun e => element e.2) ∧
      (dropped ≠ 0 → win.limit ≠ -1 ∧ win.skip + win.limit < counted.length) ∧
      (ret = false ↔ ∃ k, startsBad patterns k = true) := by
  obtain ⟨g, ⟨m, counted, dropped, h⟩, hfollows⟩ :=
    exists_tally hdb hrs hfits hC hturns
  have hout : ∀ i, (((workersOn c store rs win numWorkers).run schedule).progs i).outcome =
      some (.ok ()) ∧ (g i = .ended ∨ g i = .looping 0) := by
    intro i
    obtain ⟨r, hr⟩ := Option.isSome_iff_exists.mp (hended i)
    obtain ⟨rfl, hg⟩ := ((hfollows i).of_outcome hr).resolve_left (h.none_astray i)
    exact ⟨hr, hg⟩
  have hm : patterns.length ≤ m := by
    have hturns := h.turns_le ⟨0, hworkers⟩
    rcases (hout ⟨0, hworkers⟩).2 with hg | hg <;> rw [hg] at hturns <;>
      simp only [Stage.turns] at hturns <;> omega
  have howed : ∑ i, (g i).owed store patterns = 0 := by
    refine Finset.sum_eq_zero fun i _ => ?_
    rcases (hout i).2 with hg | hg <;> rw [hg] <;> rfl
  have hpushed : ∑ i, (g i).unpushed = 0 := by
    refine Finset.sum_eq_zero fun i _ => ?_
    rcases (hout i).2 with hg | hg <;> rw [hg] <;> rfl
  have hbalance := h.balance
  have hresults := h.results
  rw [howed, matchesFrom_of_le hm, Multiset.coe_nil, add_zero, add_zero] at hbalance
  rw [hpushed, add_zero] at hresults
  refine ⟨_, _, counted, dropped, if_pos fun i => ?_, hbalance, Multiset.coe_eq_coe.mp hresults,
    fun hdrop => h.past (Or.inl hdrop), fun hret => h.bad_found (Or.inl hret), ?_⟩
  · rw [(hout i).1]
    rfl
  · rintro ⟨k, hbad⟩
    have hk : k < m := by
      refine Nat.lt_of_lt_of_le (Nat.lt_of_not_le fun hle => ?_) hm
      rw [startsBad, List.getElem?_eq_none hle] at hbad
      cases hbad
    rcases h.bad_kept k hk hbad with hret | ⟨i, hi⟩
    · exact hret
    · rcases (hout i).2 with hg | hg <;> rw [hg] at hi <;> cases hi

/-- Without workers nothing is listed. -/
theorem joined_of_no_workers {c : Config} {rs : List RValue} {schedule : List (Fin 0)} :
    ((workersOn c store rs win 0).run schedule).joined = some (true, []) := by
  cases schedule with
  | nil => exact if_pos fun i => i.elim0
  | cons i _ => exact i.elim0

/-! ## Listing everything -/

/-- The entries of a store that a list of patterns finds, once for each pattern. -/
def unionOf (store : Store) (patterns : List Bytes) : List WValue :=
  (patterns.filter fun wild => !startsWithStar wild).flatMap fun wild =>
    (matching store wild).map element

/-- The call returns the matches of all patterns that do not start with a star, and false
exactly if one does. -/
def ListsUnion (store : Store) (patterns : List Bytes) (r : Option (Bool × List WValue)) : Prop :=
  ∃ ret results, r = some (ret, results) ∧ results.Perm (unionOf store patterns) ∧
    (ret = false ↔ ∃ wild ∈ patterns, startsWithStar wild = true)

theorem exists_startsBad_iff :
    (∃ k, startsBad patterns k = true) ↔ ∃ wild ∈ patterns, startsWithStar wild = true := by
  constructor
  · rintro ⟨k, hk⟩
    obtain ⟨wild, hwild, hstar⟩ := (Option.any_eq_true ..).mp hk
    exact ⟨wild, List.mem_of_getElem? hwild, hstar⟩
  · rintro ⟨wild, hmem, hstar⟩
    obtain ⟨k, hk⟩ := List.getElem?_of_mem hmem
    exact ⟨k, by rw [startsBad, hk]; exact hstar⟩

/-- The matches of all patterns, without their positions. -/
theorem map_element_matchesFrom :
    (matchesFrom store patterns 0).map (fun e => element e.2) = unionOf store patterns := by
  have hpositions : (List.range patterns.length).map (patterns[·]?) = patterns.map some := by
    refine List.ext_getElem? fun k => ?_
    by_cases hk : k < patterns.length
    · simp [hk]
    · simp [hk]
  have hone : ∀ k, ((matchesAt store patterns k).map (k, ·)).map (fun e => element e.2) =
      (patterns[k]?.elim [] fun wild =>
        if startsWithStar wild then [] else (matching store wild).map element) := by
    intro k
    rw [List.map_map, matchesAt]
    cases patterns[k]? with
    | none => rfl
    | some wild =>
      simp only [Option.elim_some]
      split <;> rfl
  rw [matchesFrom, List.drop_zero, List.map_flatMap, List.flatMap_congr fun k _ => hone k,
    ← List.flatMap_map (f := (patterns[·]?)) (g := fun o : Option Bytes => o.elim [] fun wild =>
      if startsWithStar wild then [] else (matching store wild).map element), hpositions,
    List.flatMap_map, unionOf]
  clear hpositions hone
  induction patterns with
  | nil => rfl
  | cons wild patterns ih =>
    rw [List.flatMap_cons, ih]
    cases hstar : startsWithStar wild <;> simp [hstar]

/-- The call for a list of patterns. -/
theorem getKeysMulti_eq {c : Config} {wilds : Bytes} {rs : List RValue}
    (hload : load wilds = some (.list rs)) (schedule : List (Fin numWorkers)) :
    getKeysMulti c store wilds win numWorkers schedule =
      ((workersOn c store rs win numWorkers).run schedule).joined := by
  rw [getKeysMulti, hload]
  rfl

/-- Without a window the counters work up to `2 ^ 31` matches. -/
theorem countersFit_unlimited (hclaims : patterns.length + numWorkers ≤ 2 ^ 31)
    (htotal : (matchesFrom store patterns 0).length ≤ 2 ^ 31) :
    CountersFit store patterns ⟨0, -1⟩ numWorkers where
  takes p hp := by
    have hint : int32 p = p := int32_eq_self (by omega)
    have hlower : Window.lower ⟨0, -1⟩ = -1 := rfl
    simp [Window.takes, Window.spans, hint, hlower]
    omega
  stops p _ h := by simp [Window.stops] at h
  claims := hclaims

/-- Without a window every schedule of careful accesses lists the union of the matches. -/
theorem getKeysMulti_lists_union {c : Config} {wilds : Bytes} {rs : List RValue}
    (hdb : c.dbOk = true) (hload : load wilds = some (.list rs))
    (hrs : rs.map RValue.s = patterns.map Except.ok)
    (hclaims : patterns.length + numWorkers ≤ 2 ^ 31)
    (htotal : (unionOf store patterns).length ≤ 2 ^ 31)
    (hworkers : 0 < numWorkers ∨
      unionOf store patterns = [] ∧ ∀ wild ∈ patterns, startsWithStar wild = false)
    {schedule : List (Fin numWorkers)}
    (hcareful : EachAccess (Careful store patterns ⟨0, -1⟩)
      (workersOn c store rs ⟨0, -1⟩ numWorkers) schedule)
    (hended : ((workersOn c store rs ⟨0, -1⟩ numWorkers).run schedule).Ended) :
    ListsUnion store patterns (getKeysMulti c store wilds ⟨0, -1⟩ numWorkers schedule) := by
  rw [getKeysMulti_eq hload]
  rcases Nat.eq_zero_or_pos numWorkers with rfl | hpos
  · obtain ⟨hnone, hgood⟩ := hworkers.resolve_left (Nat.lt_irrefl 0)
    refine ⟨true, [], joined_of_no_workers, by rw [hnone], ?_⟩
    constructor
    · intro h
      cases h
    · rintro ⟨wild, hwild, hstar⟩
      rw [hgood wild hwild] at hstar
      cases hstar
  · rw [← map_element_matchesFrom, List.length_map] at htotal
    obtain ⟨ret, results, counted, dropped, hjoined, hbalance, hperm, hdrop, hret⟩ :=
      joined_of_ended hdb hrs (countersFit_unlimited hclaims htotal) hpos (fun _ h => h)
        hcareful hended
    have hnone : dropped = 0 := by
      by_contra hne
      exact absurd rfl (hdrop hne).1
    have hall : selectAt (Window.spans ⟨0, -1⟩) 0 counted = counted :=
      selectAt_of_forall fun p _ => by simp [Window.spans]
    rw [hnone, add_zero, Multiset.coe_eq_coe] at hbalance
    rw [hall] at hperm
    refine ⟨ret, results, hjoined, ?_, hret.trans exists_startsBad_iff⟩
    rw [← map_element_matchesFrom]
    exact hperm.trans (hbalance.map _)

/-- A store with one entry. -/
def oneEntry : Store := OrderedMap.empty.insert (ascii "a") (ascii "1")

/-- A pattern that fails hides no other one if it comes last. -/
theorem getKeysMulti_lists_union_last : ListsUnion oneEntry [ascii "a*", ascii "*"]
    (getKeysMulti uncachedOnly oneEntry (ascii "[\"a*\",\"*\"]") ⟨0, -1⟩ 1
      (List.replicate 13 0)) :=
  @getKeysMulti_lists_union oneEntry [ascii "a*", ascii "*"] 1 uncachedOnly _
    [.string (ascii "a*"), .string (ascii "*")] rfl (by cbv) rfl (by decide +kernel)
    (by decide +kernel) (Or.inl (by decide)) (List.replicate 13 0) (by decide +kernel)
    (by decide +kernel)

/-- A pattern behind one that fails is left out. -/
theorem not_listsUnion_first : ¬ListsUnion oneEntry [ascii "*", ascii "a*"]
    (getKeysMulti uncachedOnly oneEntry (ascii "[\"*\",\"a*\"]") ⟨0, -1⟩ 1
      (List.replicate 13 0)) := by
  rintro ⟨ret, results, hresult, hperm, -⟩
  have hnone : (getKeysMulti uncachedOnly oneEntry (ascii "[\"*\",\"a*\"]") ⟨0, -1⟩ 1
      (List.replicate 13 0)).map (fun r => r.2.length) = some 0 := by
    decide +kernel
  have hone : (unionOf oneEntry [ascii "*", ascii "a*"]).length = 1 := by
    decide +kernel
  rw [hresult] at hnone
  have hempty : results.length = 0 := Option.some.inj hnone
  rw [← hperm.length_eq, hempty] at hone
  cases hone

/-! ## Windows -/

/-- The number of matches of all patterns. -/
def total (store : Store) (patterns : List Bytes) : ℕ :=
  (patterns.map fun wild => (matching store wild).length).sum

/-- The call returns as many matches as the window spans, and each of them is another one. -/
def ListsWindow (store : Store) (patterns : List Bytes) (win : Window)
    (r : Option (Bool × List WValue)) : Prop :=
  ∃ ret results, ∃ ms : List Match, r = some (ret, results) ∧
    results.Perm (ms.map fun e => element e.2) ∧
    (∀ e ∈ ms, ∃ wild, patterns[e.1]? = some wild ∧ e.2 ∈ matching store wild) ∧
    (ms.map fun e => (e.1, e.2.1)).Nodup ∧
    (results.length : ℤ) = min win.limit (max 0 (total store patterns - win.skip))

theorem length_matchesFrom (hgood : ∀ wild ∈ patterns, startsWithStar wild = false) :
    (matchesFrom store patterns 0).length = total store patterns := by
  have hfilter : patterns.filter (fun wild => !startsWithStar wild) = patterns :=
    List.filter_eq_self.mpr fun wild hwild => by rw [hgood wild hwild]; rfl
  have hlength := congrArg List.length (@map_element_matchesFrom store patterns)
  rw [List.length_map, unionOf, hfilter, List.length_flatMap] at hlength
  simpa [total] using hlength

/-- What is matched at a position. -/
theorem mem_matchesFrom {e : Match} (he : e ∈ matchesFrom store patterns 0) :
    ∃ wild, patterns[e.1]? = some wild ∧ e.2 ∈ matching store wild := by
  rw [matchesFrom, List.drop_zero] at he
  obtain ⟨k, hk, hmem⟩ := List.mem_flatMap.mp he
  obtain ⟨entry, hentry, rfl⟩ := List.mem_map.mp hmem
  have hlt : k < patterns.length := List.mem_range.mp hk
  refine ⟨patterns[k], List.getElem?_eq_getElem hlt, ?_⟩
  rw [matchesAt, List.getElem?_eq_getElem hlt] at hentry
  simp only at hentry
  split at hentry
  · cases hentry
  · exact hentry

/-- A pattern lists no key twice. -/
theorem nodup_matchesAt (k : ℕ) : ((matchesAt store patterns k).map Prod.fst).Nodup := by
  have hkeys : ∀ wild, ((matching store wild).map Prod.fst).Nodup := by
    intro wild
    have hsub : (matching store wild).Sublist store.entries :=
      List.filter_sublist.trans List.filter_sublist
    exact List.pairwise_map.mpr ((store.sorted.sublist hsub).imp fun hlt => hlt.ne)
  unfold matchesAt
  split
  · split
    · exact List.nodup_nil
    · exact hkeys _
  · exact List.nodup_nil

/-- No key is matched twice at one position. -/
theorem nodup_matchesFrom : ((matchesFrom store patterns 0).map fun e => (e.1, e.2.1)).Nodup := by
  have hkeys : ∀ k, ((matchesAt store patterns k).map (k, ·)).map (fun e => (e.1, e.2.1)) =
      ((matchesAt store patterns k).map Prod.fst).map (k, ·) := by
    intro k
    rw [List.map_map, List.map_map]
    rfl
  rw [matchesFrom, List.drop_zero, List.map_flatMap, List.flatMap_congr fun k _ => hkeys k]
  refine List.nodup_flatMap.mpr ⟨fun k _ => ?_, List.nodup_range.imp fun hne => ?_⟩
  · exact (nodup_matchesAt k).map fun a b h => congrArg Prod.snd h
  · intro e he he'
    obtain ⟨key, -, rfl⟩ := List.mem_map.mp he
    obtain ⟨key', -, hkey⟩ := List.mem_map.mp he'
    exact hne (congrArg Prod.fst hkey).symm

/-- With a window the counters work up to `2 ^ 32` matches behind its start. -/
theorem countersFit_limited (hskip : 0 ≤ win.skip) (hlimit : 0 ≤ win.limit)
    (hupper : win.skip + win.limit < 2 ^ 31) (hclaims : patterns.length + numWorkers ≤ 2 ^ 31)
    (htotal : win.limit = 0 ∨ (matchesFrom store patterns 0).length ≤ 2 ^ 32 + win.skip) :
    CountersFit store patterns win numWorkers := by
  have hlower : win.lower = win.skip - 1 := int32_eq_self (by omega)
  have hnone : win.limit ≠ -1 := by omega
  have hend : win.upper = win.skip + win.limit := by
    rw [Window.upper, if_neg hnone]
    exact int32_eq_self (by omega)
  refine ⟨fun p hp => ?_, fun p _ hstops => ?_, hclaims⟩
  · have hint : win.limit = 0 ∨ int32 p = p ∨ int32 p < win.skip ∧ 2 ^ 31 ≤ p := by
      unfold int32
      rw [Int.bmod_def]
      omega
    rw [Bool.eq_iff_iff]
    simp only [Window.takes, Window.spans, hlower, hend, Bool.and_eq_true, Bool.or_eq_true,
      decide_eq_true_eq]
    omega
  · simp only [Window.stops, hend, Bool.and_eq_true, decide_eq_true_eq] at hstops
    have hle : int32 p ≤ p := int32_le
    exact ⟨hnone, by omega⟩

/-- Without a pattern that fails, a schedule is careful if every entry is read. -/
theorem Tally.careful (h : Tally store patterns win s g m counted dropped)
    (hgood : ∀ wild ∈ patterns, startsWithStar wild = false) {op : SharedOp}
    (hreads : Reads win s op) : Careful store patterns win s op := by
  have hret : s.ret = true := by
    rw [← Bool.not_eq_false]
    intro hfalse
    obtain ⟨wild, hwild, hstar⟩ := exists_startsBad_iff.mp (h.bad_found (Or.inl hfalse))
    rw [hgood wild hwild] at hstar
    cases hstar
  cases op with
  | loadRet k => exact Or.inl hret
  | storeRet b =>
    cases b with
    | false => exact hreads
    | true => exact hret
  | nextIndex e => exact hreads
  | nextWild | testExit | setExit | pushBack w => trivial

/-- With a window every schedule in which the entries that are appended can be read lists as
many matches as the window spans, none of them twice. -/
theorem getKeysMulti_lists_window {c : Config} {wilds : Bytes} {rs : List RValue}
    (hdb : c.dbOk = true) (hload : load wilds = some (.list rs))
    (hrs : rs.map RValue.s = patterns.map Except.ok)
    (hgood : ∀ wild ∈ patterns, startsWithStar wild = false) (hskip : 0 ≤ win.skip)
    (hlimit : 0 ≤ win.limit) (hupper : win.skip + win.limit < 2 ^ 31)
    (hclaims : patterns.length + numWorkers ≤ 2 ^ 31)
    (htotal : win.limit = 0 ∨ total store patterns ≤ 2 ^ 32 + win.skip)
    (hworkers : 0 < numWorkers ∨ win.limit = 0 ∨ total store patterns ≤ win.skip)
    {schedule : List (Fin numWorkers)}
    (hreads : EachAccess (Reads win) (workersOn c store rs win numWorkers) schedule)
    (hended : ((workersOn c store rs win numWorkers).run schedule).Ended) :
    ListsWindow store patterns win (getKeysMulti c store wilds win numWorkers schedule) := by
  rw [getKeysMulti_eq hload]
  rcases Nat.eq_zero_or_pos numWorkers with rfl | hpos
  · have hnone := hworkers.resolve_left (Nat.lt_irrefl 0)
    refine ⟨true, [], [], joined_of_no_workers, List.Perm.refl _, ?_, List.nodup_nil, ?_⟩
    · intro e he
      cases he
    · simp only [List.length_nil, Nat.cast_zero]
      omega
  · have hlength := @length_matchesFrom store patterns hgood
    rw [← hlength] at htotal
    obtain ⟨ret, results, counted, dropped, hjoined, hbalance, hperm, hdrop, -⟩ :=
      joined_of_ended hdb hrs (countersFit_limited hskip hlimit hupper hclaims htotal) hpos
        (fun h hop => h.careful hgood hop) hreads hended
    have hcounted : (counted : Multiset Match) ≤ matchesFrom store patterns 0 := by
      rw [← hbalance]
      exact Multiset.le_add_right _ _
    have hsub : (selectAt win.spans 0 counted).Sublist counted := selectAt_sublist 0 counted
    have hvalid : win.Valid := ⟨hskip, by omega, by omega, by omega⟩
    have hslice := congrArg List.length (Window.slice_eq_selectAt hvalid counted)
    have hcard := congrArg Multiset.card hbalance
    rw [Multiset.card_add, Multiset.coe_card, Multiset.coe_card, hlength] at hcard
    refine ⟨ret, results, selectAt win.spans 0 counted, hjoined, hperm, fun e he => ?_, ?_, ?_⟩
    · exact mem_matchesFrom (Multiset.subset_of_le hcounted (hsub.subset he))
    · have hle : (counted.map fun e => (e.1, e.2.1) : Multiset (ℕ × Bytes)) ≤
          (matchesFrom store patterns 0).map fun e => (e.1, e.2.1) := by
        rw [← Multiset.map_coe, ← Multiset.map_coe]
        exact Multiset.map_le_map hcounted
      have hnodup := Multiset.nodup_of_le hle (Multiset.coe_nodup.mpr nodup_matchesFrom)
      exact (Multiset.coe_nodup.mp hnodup).sublist (hsub.map _)
    · rw [hperm.length_eq, List.length_map, ← hslice, Window.slice, if_neg (by omega),
        List.length_take, List.length_drop]
      by_cases hzero : dropped = 0
      · rw [hzero, Multiset.card_zero, add_zero] at hcard
        omega
      · have hend := (hdrop hzero).2
        omega

/-- A store with two entries that one pattern matches. -/
def twoMatches : Store :=
  (OrderedMap.empty.insert (ascii "a1") (ascii "1")).insert (ascii "a2") (ascii "2")

/-- Two workers that take turns list the second of two matches. -/
theorem getKeysMulti_lists_second : ListsWindow twoMatches [ascii "a*", ascii "b*"] ⟨1, 1⟩
    (getKeysMulti uncachedOnly twoMatches (ascii "[\"a*\",\"b*\"]") ⟨1, 1⟩ 2
      ((List.range 30).map fun n => if n % 2 = 0 then 0 else 1)) :=
  @getKeysMulti_lists_window twoMatches [ascii "a*", ascii "b*"] ⟨1, 1⟩ 2 uncachedOnly _
    [.string (ascii "a*"), .string (ascii "b*")] rfl (by cbv) rfl (by decide +kernel)
    (by decide) (by decide) (by decide) (by decide) (Or.inr (by decide +kernel))
    (Or.inl (by decide)) _ (by decide +kernel) (by decide +kernel)

/-- A store with a number that no double holds. -/
def hugeEntry : Store := OrderedMap.empty.insert (ascii "a") (ascii "1e999")

/-- A number that no double holds ends the process. -/
theorem not_listsWindow_huge : ¬ListsWindow hugeEntry [ascii "a*"] ⟨0, 1⟩
    (getKeysMulti uncachedOnly hugeEntry (ascii "[\"a*\"]") ⟨0, 1⟩ 1
      (List.replicate 13 0)) := by
  rintro ⟨ret, results, ms, hresult, -⟩
  have hnone : (getKeysMulti uncachedOnly hugeEntry (ascii "[\"a*\"]") ⟨0, 1⟩ 1
      (List.replicate 13 0)).isNone = true := by
    decide +kernel
  rw [hresult] at hnone
  cases hnone

end

end Quarks
