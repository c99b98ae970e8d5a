import Quarks.PrefixSeek

/-!
# Listing in reverse

A reverse listing seeks to the prefix with its last byte incremented and steps back
once. A seek past the last key of the database leaves the iterator not valid, and it
stays so: the listing is empty unless some key lies behind the prefix range. After
the byte `255` the increment wraps around to a smaller string, and the listing is
empty as well.
-/

namespace Quarks

open Basis

theorem starPrefix_ne_nil {wild : Bytes} (hne : wild ≠ []) (hstar : startsWithStar wild = false) :
    starPrefix wild ≠ [] := by
  cases wild with
  | nil => exact absurd rfl hne
  | cons c wild =>
    have hc : c ≠ 42 := by simpa [startsWithStar] using hstar
    simp [starPrefix, hc]

/-- The prefix of a pattern, with its last byte split off. -/
theorem exists_starPrefix_append {wild : Bytes} (hne : wild ≠ [])
    (hstar : startsWithStar wild = false) : ∃ q a, starPrefix wild = q ++ [a] :=
  ⟨_, _, (List.dropLast_append_getLast (starPrefix_ne_nil hne hstar)).symm⟩

/-- A reverse listing can start behind the prefix range: its last byte can be
incremented, and some key is not smaller than the result. -/
def StartsBehind (store : Store) (pre : Bytes) : Prop :=
  pre.getLast? ≠ some 255 ∧ ∃ after, firstAfterPrefix pre = some after ∧ store.above after ≠ []

instance (store : Store) (pre : Bytes) : Decidable (StartsBehind store pre) :=
  decidable_of_iff (pre.getLast? ≠ some 255 ∧
    ((firstAfterPrefix pre).any fun after => store.above after ≠ []) = true)
    (and_congr_right fun _ => by simp [Option.any_eq_true])

/-- Incrementing the byte `255` gives a smaller string. -/
theorem wrapped_lt {a : UInt8} (h : a = 255) (q : Bytes) : q ++ [a + 1] < q ++ [a] :=
  append_singleton_lt (by subst h; decide)

/-- A key with the prefix is not smaller than the prefix. -/
theorem takeWhile_below_eq_nil {store : Store} {pre k : Bytes} (h : k ≤ pre) :
    (store.below k).reverse.takeWhile (startsWith pre) = [] := by
  rw [List.takeWhile_eq_nil_iff]
  intro hpos hstarts
  have hmem : (store.below k).reverse[0] ∈ store.below k :=
    List.mem_reverse.mp (List.getElem_mem hpos)
  have hlt := (OrderedMap.mem_below.mp hmem).2
  have hge : pre ≤ ((store.below k).reverse[0]).1 := prefix_le (by simpa [startsWith] using hstarts)
  exact absurd (hlt.trans_le h) hge.not_gt

/-- A reverse listing meets the entries with the prefix in reverse, if it can start
behind them, and nothing otherwise. -/
theorem backwardRange_eq (store : Store) (q : Bytes) (a : UInt8) :
    backwardRange store (q ++ [a]) (q ++ [a + 1]) =
      if StartsBehind store (q ++ [a]) then (store.withPrefix (q ++ [a])).reverse else [] := by
  have hbehind : StartsBehind store (q ++ [a]) ↔ a ≠ 255 ∧ store.above (q ++ [a + 1]) ≠ [] := by
    simp [StartsBehind, firstAfterPrefix_append]
  simp only [hbehind]
  unfold backwardRange OrderedMap.seek
  by_cases hend : store.above (q ++ [a + 1]) = []
  · rw [hend, if_neg (by simp)]
    rfl
  rw [Cursor.backward_prev_between hend]
  by_cases ha : a = 255
  · rw [if_neg (by simp [ha])]
    exact takeWhile_below_eq_nil (wrapped_lt ha q).le
  · rw [if_pos ⟨ha, hend⟩, OrderedMap.below_next store (byte_covBy ha), List.reverse_append,
      List.takeWhile_append_of_pos, takeWhile_below_eq_nil le_rfl, List.append_nil]
    intro e he
    have hmem := (OrderedMap.mem_withPrefix store).mp (List.mem_reverse.mp he)
    simpa [startsWith] using hmem.2

section

variable (faults : Faults) (c : Config)

/-- The reverse listings give the slice that the window asks for of the matching entries
in reverse. -/
structure Reverses (w : World) (wild : Bytes) (win : Window) : Prop where
  getKeysReversed : answer faults w (getKeysReversed c wild win) =
    collect keyedItems (win.slice (matching w.node.db wild).reverse)
  getKeysReversedText : ∀ out, answer faults w (getKeysReversedText c wild out win) =
    .ok (true, resultText (win.slice (matching w.node.db wild).reverse))

variable {faults c} {w : World} {wild : Bytes} {win : Window} (hcache : c.cacheEnabled = false)
  (hdb : c.dbOk = true) (hne : wild ≠ []) (hstar : startsWithStar wild = false)

/-- The entries that a reverse listing takes. -/
theorem listedReversed_eq (hne : wild ≠ []) (hstar : startsWithStar wild = false) (store : Store) :
    listedReversed store wild win = .ok (if StartsBehind store (starPrefix wild) then
      scan (accepts wild) win (store.withPrefix (starPrefix wild)).reverse else []) := by
  obtain ⟨q, a, hpre⟩ := exists_starPrefix_append hne hstar
  rw [listedReversed, hpre, firstAfterPrefix_append]
  simp only [backwardRange_eq]
  split <;> rfl

include hcache hdb hne hstar

/-- A reverse listing gives what it should exactly if that is nothing, or if it can start
behind the prefix range and its counter does not overflow. -/
theorem reverses_iff (hwin : win.Valid) : Reverses faults c w wild win ↔
    win.slice (matching w.node.db wild).reverse = [] ∨
      StartsBehind w.node.db (starPrefix wild) ∧ win.Fits (matching w.node.db wild).length := by
  have hreverse : ((w.node.db.withPrefix (starPrefix wild)).reverse.filter (accepts wild)) =
      (matching w.node.db wild).reverse := List.filter_reverse
  -- the answers are those for the entries taken, which are some of those expected
  obtain ⟨taken, htaken, hsub, hiff⟩ : ∃ taken, listedReversed w.node.db wild win = .ok taken ∧
      taken.Sublist (win.slice (matching w.node.db wild).reverse) ∧
      (taken = win.slice (matching w.node.db wild).reverse ↔
        win.slice (matching w.node.db wild).reverse = [] ∨
          StartsBehind w.node.db (starPrefix wild) ∧
            win.Fits (matching w.node.db wild).length) := by
    refine ⟨_, listedReversed_eq hne hstar _, ?_⟩
    split
    · next hbehind =>
      have hsub := @scan_sublist_slice _ (accepts wild) _ hwin
        (w.node.db.withPrefix (starPrefix wild)).reverse
      have hiff := @scan_eq_slice_iff _ (accepts wild) _ hwin
        (w.node.db.withPrefix (starPrefix wild)).reverse
      rw [hreverse] at hsub hiff
      rw [List.length_reverse] at hiff
      exact ⟨hsub, by simpa [hbehind] using hiff⟩
    · next hbehind =>
      refine ⟨List.nil_sublist _, fun h => Or.inl h.symm, ?_⟩
      rintro (h | ⟨h, -⟩)
      · exact h.symm
      · exact absurd h hbehind
  rw [← hiff]
  have htext := fun out =>
    (@getKeysReversedText_yields faults w.node c wild win hcache hdb hstar out w rfl).1
  have hkeys :=
    (@getKeysReversed_yields faults w.node c wild win hcache hdb hstar w rfl).1
  rw [htaken] at hkeys
  simp only [htaken] at htext
  constructor
  · rintro ⟨-, hanswer⟩
    have h := (htext []).symm.trans (hanswer [])
    exact resultText_sublist hsub (by simpa [Except.map, Except.bind] using h)
  · rintro rfl
    exact ⟨hkeys, fun out => htext out⟩

end

end Quarks
