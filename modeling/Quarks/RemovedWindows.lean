import Quarks.WindowLaw

/-!
# Removing a window of keys

`removeAll` announces and counts each key of its window before the one write that removes them
all, and only logs how that write ends. A write that fails leaves removals announced and
counted that have not taken place.
-/

namespace Quarks

open Basis

/-- The keys that a removal is to remove: those of the slice of matching entries. A pattern that
starts with a star is refused. -/
def windowKeys (store : Store) (wild : Bytes) (win : Window) : List Bytes :=
  if startsWithStar wild then [] else (win.slice (matching store wild)).map Prod.fst

section

variable [HashOrder] (faults : Faults) (c : Config) (w : World) (wild : Bytes) (win : Window)

/-- The data after `removeAll`. -/
def afterRemoveAll : Node := ((removeAll c wild win).run (handle faults) w).2.node

/-- The write of the batch fails: it is the only call of RocksDB whose status is checked. -/
def writeFails : Bool := faults w.calls (.write (removedKeys w.node.db wild win))

/-- The write succeeded: the keys of the window, as `getKeys` lists them, are removed and nothing
else, and counted. -/
structure RemovesWindow : Prop where
  lists : startsWithStar wild = false → ∀ out,
    answer faults w (getKeysText (c.withCache false) wild out win) =
      .ok (true, resultText (win.slice (matching w.node.db wild)))
  answers : answer faults w (removeAll c wild win) = .ok (windowKeys w.node.db wild win).length
  removes : (afterRemoveAll faults c w wild win).db =
    w.node.db.eraseAll (windowKeys w.node.db wild win)

/-- The write failed: nothing is removed, counted or announced. -/
structure RemovesNothing : Prop where
  answers : answer faults w (removeAll c wild win) = .ok 0
  keeps : (afterRemoveAll faults c w wild win).db = w.node.db
  published : (afterRemoveAll faults c w wild win).published = w.node.published
  requests : (afterRemoveAll faults c w wild win).requests = w.node.requests

/-- A removal does what its answer tells, whether the write of the batch succeeds or fails. -/
def RemovesTruly : Prop :=
  if writeFails faults w wild win then RemovesNothing faults c w wild win
  else RemovesWindow faults c w wild win

/-- The window fits and its keys can be counted; or, where the write fails, it has no keys, or
nobody to announce them to and so many that the counter has come back to zero. -/
def CountsTruly : Prop :=
  startsWithStar wild = false →
    if writeFails faults w wild win then
      removedKeys w.node.db wild win = [] ∨ c.writer = false ∧ c.logger = false ∧
        int32 (removedKeys w.node.db wild win).length = 0
    else (win.slice (matching w.node.db wild) = [] ∨ win.Fits (matching w.node.db wild).length) ∧
      (win.slice (matching w.node.db wild)).length < 2 ^ 31

end

/-! ## What the call does -/

section

variable [HashOrder] {faults : Faults} {c : Config} {w : World} {wild : Bytes} {win : Window}

/-- The removals of a batch are passed on without a call of RocksDB. -/
theorem removeRequests_calls {keys : List Bytes} {n : Node} {k : ℕ} {E : Failure → World → Prop} :
    Prog.Triple (handle faults) (fun v => v.node = n ∧ v.calls = k) (removeRequests c keys)
      (fun _ v => v.node = n.allRemoveRequested c keys ∧ v.calls = k) E := by
  induction keys generalizing n with
  | nil => exact Prog.Triple.pure fun _ hv => hv
  | cons key keys ih =>
    have hfirst : Prog.Triple (handle faults) (fun v => v.node = n ∧ v.calls = k)
        (removeRequest c key) (fun _ v => v.node = n.removeRequested c key ∧ v.calls = k) E := by
      rintro v ⟨rfl, hcalls⟩
      rcases c with ⟨_, _, _ | _, _ | _⟩ <;> exact ⟨rfl, hcalls⟩
    exact Prog.Triple.bind hfirst fun _ => ih

/-- What `removeAll` returns, and what it does to the data. -/
theorem removeAll_outcome (hdb : c.dbOk = true) (hstar : startsWithStar wild = false) :
    answer faults w (removeAll c wild win) =
        .ok (int32 (removedKeys w.node.db wild win).length) ∧
      afterRemoveAll faults c w wild win = if writeFails faults w wild win
        then w.node.allRemoveRequested c (removedKeys w.node.db wild win)
        else w.node.allErased c (removedKeys w.node.db wild win) := by
  have htriple : Prog.Triple (handle faults) (fun v => v = w) (removeAll c wild win)
      (fun count v => count = int32 (removedKeys w.node.db wild win).length ∧
        v.node = if writeFails faults w wild win
          then w.node.allRemoveRequested c (removedKeys w.node.db wild win)
          else w.node.allErased c (removedKeys w.node.db wild win)) (fun _ _ => False) := by
    unfold removeAll
    rw [hdb, hstar]
    refine Prog.Triple.bind (M := fun store v => store = w.node.db ∧ v = w) ?_ fun store => ?_
    · rintro v rfl
      exact ⟨rfl, rfl⟩
    rintro v ⟨rfl, rfl⟩
    refine Prog.Triple.bind (M := fun _ v' => v'.node = if writeFails faults v wild win
      then v.node.allRemoveRequested c (removedKeys v.node.db wild win)
      else v.node.allErased c (removedKeys v.node.db wild win)) (I := fun v' => v' = v) ?_
      (fun _ => Prog.Triple.pure fun v' hv' => ⟨rfl, hv'⟩) v rfl
    unfold commitBatch
    refine Prog.Triple.bind (M := fun _ v' =>
      v'.node = v.node.allRemoveRequested c (removedKeys v.node.db wild win) ∧ v'.calls = v.calls)
      (Prog.Triple.mono removeRequests_calls (fun v' hv' => by rw [hv']; exact ⟨rfl, rfl⟩)
        (fun _ _ h => h) fun _ _ h => h) fun _ => ?_
    refine Prog.Triple.bind ?_ fun _ => Prog.Triple.pure fun _ hv' => hv'
    rintro v' ⟨hnode, hcalls⟩
    change (handle faults (.write (removedKeys v.node.db wild win)) v').2.node = _
    simp only [handle, hcalls, writeFails]
    by_cases hfails : faults v.calls (.write (removedKeys v.node.db wild win)) = true
    · rw [if_pos hfails]
      exact hnode.trans (if_pos hfails).symm
    · rw [if_neg hfails]
      refine Eq.trans ?_ (if_neg hfails).symm
      change { v'.node with db := v'.node.db.eraseAll (removedKeys v.node.db wild win) } = _
      rw [hnode, Node.allRemoveRequested_db]
      rfl
  have hrun := htriple w rfl
  unfold answer afterRemoveAll
  rcases hr : Prog.run (handle faults) (removeAll c wild win) w with ⟨e | count, w'⟩
  · rw [hr] at hrun
    exact hrun.elim
  · rw [hr] at hrun
    exact ⟨congrArg _ hrun.1, hrun.2⟩

omit [HashOrder] in
/-- Of the keys of a window all are removed only if they are those that the scan takes. -/
theorem eraseAll_removedKeys_iff (hwin : win.Valid) (store : Store) :
    store.eraseAll (removedKeys store wild win) =
        store.eraseAll ((win.slice (matching store wild)).map Prod.fst) ↔
      listed store wild win = win.slice (matching store wild) := by
  have hslice : (win.slice (matching store wild)).Sublist store.entries :=
    (slice_sublist win _).trans (matching_sublist store wild)
  have hlisted : (listed store wild win).Sublist (win.slice (matching store wild)) := by
    rw [listed, forwardRange_eq]
    exact scan_sublist_slice hwin _
  have hremoves : ∀ {es : List Entry}, es.Sublist store.entries →
      (store.eraseAll (es.map Prod.fst)).size + es.length = store.size := by
    intro es hes
    rw [← List.length_map Prod.fst]
    refine OrderedMap.size_eraseAll_add_length (store.nodup_keys.sublist (hes.map Prod.fst)) ?_
    intro key hkey
    exact OrderedMap.mem_iff_entries.mpr (List.mem_map.mp ((hes.map Prod.fst).subset hkey))
  constructor
  · intro heq
    have hboth := hremoves hslice
    rw [← heq] at hboth
    have hlist := hremoves (hlisted.trans hslice)
    unfold removedKeys at hboth
    exact hlisted.eq_of_length (by omega)
  · intro heq
    rw [removedKeys, heq]

/-- A removal does what its answer tells exactly under that condition. -/
theorem removesTruly_iff (hdb : c.dbOk = true) (hwin : win.InRange) :
    RemovesTruly faults c w wild win ↔ CountsTruly faults c w wild win := by
  have hvalid := hwin.valid
  unfold RemovesTruly CountsTruly
  cases hstar : startsWithStar wild with
  | true =>
    have hnone : (removeAll c wild win).run (handle faults) w = (.ok 0, w) := by
      unfold removeAll
      rw [hdb, hstar]
      rfl
    have hkeys : windowKeys w.node.db wild win = [] := if_pos hstar
    refine iff_of_true ?_ (fun h => by cases h)
    split
    · exact ⟨by rw [answer, hnone], by rw [afterRemoveAll, hnone], by rw [afterRemoveAll, hnone],
        by rw [afterRemoveAll, hnone]⟩
    · refine ⟨fun h => (by rw [hstar] at h; cases h), ?_, ?_⟩
      · rw [answer, hnone, hkeys]
        rfl
      · rw [afterRemoveAll, hnone, hkeys]
        rfl
  | false =>
    obtain ⟨hanswer, hnode⟩ := @removeAll_outcome _ faults c w wild win hdb hstar
    have hkeys : windowKeys w.node.db wild win =
        (win.slice (matching w.node.db wild)).map Prod.fst := if_neg (by simp [hstar])
    have hiff := @scan_eq_slice_iff _ (accepts wild) win hvalid
      (w.node.db.withPrefix (starPrefix wild))
    have herase := @eraseAll_removedKeys_iff wild win hvalid w.node.db
    simp only [forall_const]
    cases hfails : writeFails faults w wild win with
    | true =>
      rw [hfails, if_pos rfl] at hnode
      simp only [if_true]
      constructor
      · rintro ⟨hzero, -, hpublished, hrequests⟩
        rw [hanswer] at hzero
        rw [hnode, Node.allRemoveRequested_published] at hpublished
        rw [hnode, Node.allRemoveRequested_requests] at hrequests
        by_cases hnil : removedKeys w.node.db wild win = []
        · exact Or.inl hnil
        · refine Or.inr ⟨?_, ?_, by simpa using hzero⟩
          · by_contra hwriter
            rw [Bool.not_eq_false] at hwriter
            simp [hwriter, hnil] at hpublished
          · by_contra hlogger
            rw [Bool.not_eq_false] at hlogger
            simp [hlogger, hnil] at hrequests
      · rintro (hnil | ⟨hwriter, hlogger, hzero⟩)
        · rw [hnil] at hnode hanswer
          exact ⟨hanswer, by rw [hnode]; rfl, by rw [hnode]; rfl, by rw [hnode]; rfl⟩
        · refine ⟨by rw [hanswer, hzero], by rw [hnode, Node.allRemoveRequested_db], ?_, ?_⟩
          · simp [hnode, Node.allRemoveRequested_published, hwriter]
          · simp [hnode, Node.allRemoveRequested_requests, hlogger]
    | false =>
      rw [hfails, if_neg Bool.false_ne_true] at hnode
      simp only [Bool.false_eq_true, if_false]
      have hlisted : listed w.node.db wild win = win.slice (matching w.node.db wild) ↔
          win.slice (matching w.node.db wild) = [] ∨
            win.Fits (matching w.node.db wild).length := by
        rw [listed, forwardRange_eq]
        exact hiff
      constructor
      · rintro ⟨-, hcount, hremoves⟩
        rw [hnode, hkeys] at hremoves
        have heq := herase.mp hremoves
        refine ⟨hlisted.mp heq, ?_⟩
        rw [hanswer, hkeys, removedKeys, heq, List.length_map] at hcount
        exact int32_eq_iff.mp (by simpa using hcount)
      · rintro ⟨hfits, hlen⟩
        have heq := hlisted.mpr hfits
        refine ⟨fun _ out => ?_, ?_, ?_⟩
        · rw [(getKeysText_yields (c := c.withCache false) rfl hdb hstar w rfl).1, heq]
        · rw [hanswer, hkeys, removedKeys, heq, List.length_map, int32_eq_iff.mpr hlen]
        · rw [hnode, hkeys]
          exact herase.mpr heq

end

/-- An environment in which the first RocksDB call fails. -/
def firstFails : Faults := fun i _ => i = 0

/-- The theorem at a write that fails with no key in its window. -/
theorem removesTruly_noKey :
    @RemovesTruly .insertion firstFails writerOnly (openDB writerOnly threeEntries) (ascii "c*")
      ⟨0, -1⟩ :=
  (@removesTruly_iff .insertion firstFails writerOnly _ (ascii "c*") ⟨0, -1⟩ rfl
    ⟨by decide, by decide, by decide⟩).mpr (by unfold CountsTruly; decide +kernel)

/-- A write that fails leaves two removals counted and announced. -/
theorem not_removesTruly_failed :
    ¬@RemovesTruly .insertion firstFails writerOnly (openDB writerOnly threeEntries) (ascii "a*")
      ⟨0, -1⟩ := by
  intro h
  have hfails : writeFails firstFails (openDB writerOnly threeEntries) (ascii "a*") ⟨0, -1⟩ =
    true := rfl
  unfold RemovesTruly at h
  rw [if_pos hfails] at h
  obtain ⟨hcount, -⟩ := h
  revert hcount
  decide +kernel

end Quarks
