import Quarks.CachedListing

/-!
# The arithmetic of a window

Every scan computes `lowerbound = skip - 1` and `upperbound = skip + count` in `int`, where a
missing limit is a `count` of `INT_MAX`: added to any `skip` but zero, it overflows.
-/

namespace Quarks

open Basis

/-- A value of the type `int`. -/
def IsInt (z : ℤ) : Prop := -2 ^ 31 ≤ z ∧ z < 2 ^ 31

/-- `count`. -/
def Window.count (win : Window) : ℤ := if win.limit = -1 then 2 ^ 31 - 1 else win.limit

section

variable (store : Store) (wild : Bytes) (win : Window)

/-- The bounds of the window do not overflow, and what it selects is the slice that it asks for:
of the matching entries, of all entries, backward, and by the loop over the cache. -/
structure SelectsExactly : Prop where
  count : IsInt win.count
  lower : IsInt (win.skip - 1)
  upper : IsInt (win.skip + win.count)
  listed : listed store wild win = win.slice (matching store wild)
  iter : scan (fun _ => true) win store.entries = win.slice store.entries
  iterReversed : scan (fun _ => true) win store.entries.reverse =
    win.slice store.entries.reverse
  cached : cachedLoop (accepts wild) win (.ok []) (-1) (store.entries.map fun e => (e, false)) =
    .ok (win.slice (store.entries.filter (accepts wild)))

end

section

variable {store : Store} {wild : Bytes} {win : Window}

/-- The window fits any number of entries that a store with a limit has, and as many as `int`
can count without one. -/
theorem fits_iff (hcount : win.skip + win.count < 2 ^ 31) {size : ℕ} :
    win.Fits size ↔ (win.limit = -1 → size ≤ 2 ^ 31) := by
  unfold Window.Fits
  unfold Window.count at hcount
  split
  · next hlimit => simp [hlimit]
  · next hlimit =>
    rw [if_neg hlimit] at hcount
    exact iff_of_true hcount fun h => absurd h hlimit

/-- A listing of everything selects its slice exactly if the window fits. -/
theorem scan_all_iff (h : win.Valid) (hcount : win.skip + win.count < 2 ^ 31)
    (es : List Entry) :
    scan (fun _ => true) win es = win.slice es ↔ (win.limit = -1 → es.length ≤ 2 ^ 31) := by
  rw [scan_all_eq_slice_iff h, fits_iff hcount]
  refine or_iff_right_of_imp fun hnil hlimit => ?_
  -- without a limit `skip` is zero, so that the slice is everything
  unfold Window.count at hcount
  rw [if_pos hlimit] at hcount
  have hskip : win.skip = 0 := by have := h.skip_nonneg; omega
  have hlen : es = [] := by simpa [Window.slice, hlimit, hskip] using hnil
  simp [hlen]

/-- Nothing overflows and every window is the slice it asks for, exactly if `skip` and `count`
add up to an `int` and, without a limit, the entries can be counted in one. -/
theorem selectsExactly_iff (h : win.Valid) : SelectsExactly store wild win ↔
    win.skip + win.count < 2 ^ 31 ∧ (win.limit = -1 → store.entries.length ≤ 2 ^ 31) := by
  have hskip := h.skip_nonneg
  have hskip' := h.skip_lt
  have hlimit := h.limit_ge
  have hlimit' := h.limit_lt
  have hcount_int : 0 ≤ win.count ∧ win.count < 2 ^ 31 := by
    unfold Window.count
    split <;> omega
  constructor
  · intro hsel
    exact ⟨hsel.upper.2, (scan_all_iff h hsel.upper.2 _).mp hsel.iter⟩
  · rintro ⟨hcount, hsize⟩
    have hfits := (fits_iff hcount).mpr hsize
    refine ⟨⟨by omega, hcount_int.2⟩, ⟨by omega, by omega⟩, ⟨by omega, hcount⟩,
      listed_eq_slice h hfits, (scan_all_iff h hcount _).mpr hsize,
      (scan_all_iff h hcount _).mpr (by simpa using hsize), ?_⟩
    rw [cachedLoop_unmarked (-1) (by simp)]
    have hle : (store.entries.filter (accepts wild)).length ≤ store.entries.length :=
      List.length_filter_le _ _
    have hscan := @scan_eq_slice _ (accepts wild) _ h _ (hfits.mono hle)
    rw [List.map_map, ← hscan]
    simp [Function.comp_def, scan]

end

/-- The theorem at a window that ends with the last `int`. -/
theorem selectsExactly_last : SelectsExactly threeEntries (ascii "a*") ⟨1, 2 ^ 31 - 2⟩ :=
  (selectsExactly_iff ⟨by decide, by decide, by decide, by decide⟩).mpr
    ⟨by decide, by decide⟩

/-- Leaving out the first entry of a listing without a limit overflows. -/
theorem not_selectsExactly_skip : ¬SelectsExactly threeEntries (ascii "a*") ⟨1, -1⟩ := by
  intro h
  have hupper := h.upper.2
  revert hupper
  decide

end Quarks
