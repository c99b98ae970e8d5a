import Quarks.WindowLaw

/-!
# What the seek to the prefix leaves out

A listing only meets the keys that start with the text of the pattern before its
first star. As long as this text has no `?` and no zero byte, `wildcmp` accepts no
other key; a `?` stands for any character, and a zero byte ends the pattern.
-/

namespace Quarks

open Basis

/-- The entries of a store whose key is accepted, in key order. -/
def accepted (store : Store) (wild : Bytes) : List Entry := store.entries.filter (accepts wild)

theorem matching_sublist_accepted (store : Store) (wild : Bytes) :
    (matching store wild).Sublist (accepted store wild) :=
  List.filter_sublist.filter (accepts wild)

/-- The prefix leaves nothing out exactly if every accepted key has it. -/
theorem matching_eq_accepted_iff {store : Store} {wild : Bytes} :
    matching store wild = accepted store wild ↔
      ∀ e ∈ store.entries, accepts wild e = true → starPrefix wild <+: e.1 := by
  constructor
  · intro h e he hacc
    have hmem : e ∈ matching store wild := by
      rw [h]
      exact List.mem_filter.mpr ⟨he, hacc⟩
    exact (OrderedMap.mem_withPrefix store).mp (List.mem_filter.mp hmem).1 |>.2
  · intro hall
    unfold matching accepted OrderedMap.withPrefix
    rw [List.filter_filter]
    refine List.filter_congr fun e he => ?_
    rw [Bool.eq_iff_iff, Bool.and_eq_true, List.isPrefixOf_iff_prefix]
    exact ⟨fun h => h.1, fun hacc => ⟨hacc, hall e he hacc⟩⟩

/-- Without a window the matching entries are listed as long as they can be counted. -/
theorem listed_eq_matching_iff {store : Store} {wild : Bytes} :
    listed store wild ⟨0, -1⟩ = matching store wild ↔ (matching store wild).length ≤ 2 ^ 31 := by
  have h := @scan_eq_slice_iff _ (accepts wild) ⟨0, -1⟩
    ⟨by decide, by decide, by decide, by decide⟩ (store.withPrefix (starPrefix wild))
  rw [whole_slice] at h
  rw [listed, forwardRange_eq]
  refine h.trans ⟨?_, fun hle => Or.inr (by simpa [Window.Fits, matching] using hle)⟩
  rintro (hnil | hfits)
  · simp [matching, hnil]
  · simpa [Window.Fits, matching] using hfits

section

variable (faults : Faults) (c : Config)

/-- Without a window the forward listings give these entries. -/
structure Gives (w : World) (wild : Bytes) (es : List Entry) : Prop where
  getKeys : answer faults w (getKeys c wild ⟨0, -1⟩) = collect keyedItems es
  getKeysText : ∀ out, answer faults w (getKeysText c wild out ⟨0, -1⟩) =
    .ok (true, resultText es)

variable {faults c} {w : World} {wild : Bytes} (hcache : c.cacheEnabled = false)
  (hdb : c.dbOk = true) (hstar : startsWithStar wild = false)
include hcache hdb hstar

/-- The text tells which of the matching entries were listed. -/
theorem gives_iff {es : List Entry} (hsub : (matching w.node.db wild).Sublist es) :
    Gives faults c w wild es ↔ listed w.node.db wild ⟨0, -1⟩ = es := by
  constructor
  · rintro ⟨-, htext⟩
    have htext := htext []
    rw [(getKeysText_yields hcache hdb hstar w rfl).1] at htext
    exact resultText_sublist ((listed_sublist _ _ _).trans hsub) (by simpa using htext)
  · intro h
    refine ⟨?_, fun out => ?_⟩
    · rw [(getKeys_yields hcache hdb hstar w rfl).1, h]
    · rw [(getKeysText_yields hcache hdb hstar w rfl).1, h]

theorem gives_matching_iff : Gives faults c w wild (matching w.node.db wild) ↔
    (matching w.node.db wild).length ≤ 2 ^ 31 :=
  (gives_iff hcache hdb hstar (List.Sublist.refl _)).trans listed_eq_matching_iff

/-- On a store the listing is complete exactly if every accepted key starts with the text
before the first star and the counter does not overflow. -/
theorem gives_accepted_iff : Gives faults c w wild (accepted w.node.db wild) ↔
    (∀ e ∈ w.node.db.entries, accepts wild e = true → starPrefix wild <+: e.1) ∧
      (accepted w.node.db wild).length ≤ 2 ^ 31 := by
  rw [gives_iff hcache hdb hstar (matching_sublist_accepted _ _), ← matching_eq_accepted_iff]
  constructor
  · intro h
    have heq : matching w.node.db wild = accepted w.node.db wild :=
      (matching_sublist_accepted _ _).antisymm (h ▸ listed_sublist _ _ _)
    exact ⟨heq, heq ▸ listed_eq_matching_iff.mp (h.trans heq.symm)⟩
  · rintro ⟨heq, hle⟩
    rw [← heq] at hle ⊢
    exact listed_eq_matching_iff.mpr hle

/-- A pattern whose text before the first star has no `?` and no zero byte is listed
completely on every store whose accepted keys can be counted; any other pattern is not. -/
theorem gives_accepted_forall_iff :
    (∀ w : World, (accepted w.node.db wild).length ≤ 2 ^ 31 →
      Gives faults c w wild (accepted w.node.db wild)) ↔
      (63 : UInt8) ∉ starPrefix wild ∧ (0 : UInt8) ∉ starPrefix wild := by
  constructor
  · intro h
    by_contra hmarks
    obtain ⟨key, hacc, hpre⟩ := @exists_wildcmp_outside wild (by tauto)
    have hentries : (OrderedMap.empty.insert key [] : Store).entries = [(key, [])] := rfl
    have hlists := h ⟨⟨OrderedMap.empty.insert key [], OrderedMap.empty, [], []⟩, 0,
      fun _ => false⟩ ((List.length_filter_le _ _).trans (by simp [hentries]))
    refine hpre (((gives_accepted_iff hcache hdb hstar).mp hlists).1 (key, []) ?_ hacc)
    simp [hentries]
  · rintro ⟨hmark, hzero⟩ w hcount
    exact (gives_accepted_iff hcache hdb hstar).mpr
      ⟨fun e _ hacc => prefix_of_wildcmp hmark hzero hacc, hcount⟩

/-- When the listing of a pattern is complete: on a store, exactly if every accepted key
starts with the text before the first star and the counter does not overflow; on all
stores on which it does not, exactly if that text has no `?` and no zero byte. -/
theorem getKeys_lists_accepted :
    (∀ w : World, Gives faults c w wild (accepted w.node.db wild) ↔
      (∀ e ∈ w.node.db.entries, accepts wild e = true → starPrefix wild <+: e.1) ∧
        (accepted w.node.db wild).length ≤ 2 ^ 31) ∧
    ((∀ w : World, (accepted w.node.db wild).length ≤ 2 ^ 31 →
        Gives faults c w wild (accepted w.node.db wild)) ↔
      (63 : UInt8) ∉ starPrefix wild ∧ (0 : UInt8) ∉ starPrefix wild) :=
  ⟨fun _ => gives_accepted_iff hcache hdb hstar, gives_accepted_forall_iff hcache hdb hstar⟩

end

/-- The theorem at a pattern with a `?` after its star. -/
theorem getKeys_lists_accepted_literal :
    Gives noFaults uncachedOnly (openDB uncachedOnly threeEntries) (ascii "a*?")
      (accepted threeEntries (ascii "a*?")) :=
  ((getKeys_lists_accepted rfl rfl (by decide)).1 (openDB uncachedOnly threeEntries)).mpr
    ⟨by decide +kernel, by decide +kernel⟩

/-- A pattern with a `?` before its star misses the key that it stands for. -/
theorem not_gives_accepted_mark :
    ¬Gives noFaults uncachedOnly
      (openDB uncachedOnly (OrderedMap.empty.insert (ascii "abc") (ascii "1"))) (ascii "a?c")
      (accepted (OrderedMap.empty.insert (ascii "abc") (ascii "1")) (ascii "a?c")) := by
  rintro ⟨-, htext⟩
  have h := htext []
  revert h
  decide +kernel

end Quarks
