import Quarks.Interleaving
import Quarks.CacheCoherence
import Mathlib.Algebra.BigOperators.Group.Finset.Basic

/-!
# Concurrent increments

`increment` holds a mutex from its first operation to its last, so that requests which
are served at the same time take effect one after the other. Each of them reads what
the one before it has stored, and the counts add up.
-/

namespace Quarks

open Basis

/-- The operations that read a value. -/
def Op.Reads : Op → Prop
  | .get _ | .getCached _ => True
  | _ => False

section

variable {ι : Type}

/-- The texts that have been read, oldest first, and who has read them. -/
def readsOf (log : List (ι × Event)) : List (ι × Bytes) :=
  log.filterMap fun e => match e.2 with
    | ⟨.get _, found⟩ => (found : Option Bytes).map (e.1, ·)
    | ⟨.getCached _, value⟩ => some (e.1, value)
    | _ => none

theorem readsOf_append (log log' : List (ι × Event)) :
    readsOf (log ++ log') = readsOf log ++ readsOf log' := List.filterMap_append

theorem readsOf_eq_nil {log : List (ι × Event)} (h : ∀ e ∈ log, ¬e.2.1.Reads) :
    readsOf log = [] := by
  refine List.filterMap_eq_nil_iff.mpr fun e he => ?_
  obtain ⟨i, op, r⟩ := e
  have hop := h _ he
  cases op with
  | get key | getCached key => exact absurd trivial hop
  | _ => rfl

end

/-- The key holds a number: in the database, and with the cache enabled in the cache too. -/
def Holds (c : Config) (n : Node) (key : Bytes) (z : ℤ) : Prop :=
  ∃ val, stoi val = .ok z ∧ n.db.find? key = some val ∧
    (c.cacheEnabled = true → n.cache.find? key = some val)

section

variable [HashOrder] {c : Config} {key val : Bytes} {z stepBy : ℤ} {n : Node}

omit [HashOrder] in
theorem get_yields (hdb : c.dbOk = true) (hval : (source c n).find? key = some val) :
    Yields noFaults n (get c key) (.ok (some val)) := by
  unfold get
  cases hcached : c.cacheEnabled with
  | true =>
    rw [source, if_pos hcached] at hval
    exact Yields.bind_ok (Yields.getCached hval) (Yields.pure _)
  | false =>
    rw [source, hcached] at hval
    simp only [hdb, if_true, Bool.false_eq_true, if_false] at hval ⊢
    exact hval ▸ Yields.dbGet

/-- An increment goes on with the text that it finds. -/
theorem increment_found {J : Bool × Bytes → Node → Prop} {E : Node → Prop} (hdb : c.dbOk = true)
    (hval : (source c n).find? key = some val)
    (h : DataTriple noFaults (fun m => m = n) (addTo c key stepBy val) J E) :
    DataTriple noFaults (fun m => m = n) (increment c key stepBy) J E := by
  refine DataTriple.withLock (DataTriple.bind ((get_yields hdb hval).triple) fun found => ?_)
  by_cases hfound : found = some val
  · subst hfound
    exact DataTriple.pre h fun _ hm => hm.2
  · intro w hw
    exact absurd hw.1 hfound

/-- Without faults the sum is stored, and the answer tells so. -/
theorem addTo_exact {E : Node → Prop} (hdb : c.dbOk = true) (hz : stoi val = .ok z) :
    DataTriple noFaults (fun m => m = n) (addTo c key stepBy val)
      (fun r m => r = (true, ascii "\x7b\"result\":true\x7d") ∧
        m = n.stored c key (toString (int32 (z + stepBy)))) E := by
  unfold addTo
  rw [hz]
  refine DataTriple.bind (dumpPair_exact c hdb) fun r => ?_
  exact DataTriple.pure fun _ hm => ⟨by rw [hm.1], hm.2⟩

/-- Without faults an increment stores the sum. -/
theorem increment_exact (hdb : c.dbOk = true) (hval : (source c n).find? key = some val)
    (hz : stoi val = .ok z) : DataTriple noFaults (fun m => m = n) (increment c key stepBy)
      (fun _ m => m = n.stored c key (toString (int32 (z + stepBy)))) fun _ => False :=
  (increment_found hdb hval (addTo_exact hdb hz)).mono (fun _ hm => hm) (fun _ _ hm => hm.2)
    fun _ h => h

omit [HashOrder] in
theorem get_ends : (get c key).Ends (fun op => op = .get key ∨ op = .getCached key)
    fun _ => True := by
  unfold get
  split
  · exact ⟨Or.inr rfl, fun _ => trivial⟩
  · split
    · exact ⟨Or.inl rfl, fun _ => trivial⟩
    · exact trivial

theorem addTo_ends (val : Bytes) : (addTo c key stepBy val).Ends
    (fun op => (∃ value, op = .put key value) ∨ op.Announces) fun _ => True := by
  unfold addTo
  split
  · refine Prog.Ends.bind (P := fun _ => True) ?_ (fun _ _ => trivial) fun _ _ => trivial
    exact (dumpPair_ends c key _).mono (fun op h => h.imp (fun h => ⟨_, h⟩) id) fun _ _ => trivial
  all_goals exact trivial

/-- An increment holds the mutex from its first operation to its last. -/
theorem increment_guarded (key : Bytes) (stepBy : ℤ) :
    Pool.Guarded (.lock .core) (.unlock .core) (increment c key stepBy) := by
  refine guarded_withLock (P := fun _ => True) (Prog.Ends.bind (P := fun _ => True) ?_
    (fun found _ => ?_) fun _ _ => trivial)
  · refine get_ends.mono ?_ fun _ h => h
    rintro op (rfl | rfl) <;> exact ⟨nofun, nofun⟩
  · cases found with
    | none => exact trivial
    | some val =>
      refine (addTo_ends val).mono ?_ fun _ h => h
      rintro op (⟨value, rfl⟩ | h)
      · exact ⟨nofun, nofun⟩
      · constructor <;> rintro rfl <;> exact h

/-- An increment reads once. -/
theorem readsOf_increment {ι : Type} (hdb : c.dbOk = true) {w : World}
    (hval : (source c w.node).find? key = some val) (i : ι) :
    readsOf (((increment c key stepBy).trace (handle noFaults) w).map (i, ·)) = [(i, val)] := by
  have hnode : (handle noFaults (.lock .core) w).2.node = w.node := rfl
  have hget : readsOf (((get c key).trace (handle noFaults)
      (handle noFaults (.lock .core) w).2).map (i, ·)) = [(i, val)] := by
    unfold get
    cases hcached : c.cacheEnabled with
    | true =>
      rw [source, if_pos hcached] at hval
      change readsOf [(i, ⟨Op.getCached key, (handle noFaults (.getCached key) _).1⟩)] = _
      simp [readsOf, handle, hval]
    | false =>
      rw [source, hcached] at hval
      simp only [hdb]
      change readsOf [(i, ⟨Op.get key, (handle noFaults (.get key) _).1⟩)] = _
      simp only [Bool.false_eq_true, if_false] at hval
      simp [readsOf, handle, noFaults, hval]
  have htail : ∀ (val : Bytes) (w : World),
      readsOf (((addTo c key stepBy val).trace (handle noFaults) w).map (i, ·)) = [] := by
    intro val w
    refine readsOf_eq_nil fun e he => ?_
    obtain ⟨⟨op, r⟩, hmem, rfl⟩ := List.mem_map.mp he
    rcases (addTo_ends val).of_mem_trace _ hmem with ⟨value, rfl⟩ | h
    · exact id
    · cases op <;> first | exact id | exact h.elim
  unfold increment
  obtain ⟨hanswer, -⟩ := get_yields hdb hval _ hnode
  unfold answer at hanswer
  rw [trace_withLock, Prog.trace_bind]
  rcases hrun : (get c key).run (handle noFaults) (handle noFaults (.lock .core) w).2 with ⟨r, w'⟩
  rw [hrun] at hanswer
  subst hanswer
  rw [List.map_cons, List.map_append, List.map_append, ← List.singleton_append, readsOf_append,
    readsOf_append, readsOf_append, hget, htail]
  rfl

omit [HashOrder] in
/-- `get` finds the number. -/
theorem Holds.source (h : Holds c n key z) :
    ∃ val, stoi val = .ok z ∧ (source c n).find? key = some val := by
  obtain ⟨val, hz, hdb, hcache⟩ := h
  refine ⟨val, hz, ?_⟩
  unfold Quarks.source
  split
  · next hcached => exact hcache hcached
  · exact hdb

/-- The key holds the number whose decimal text has been stored. -/
theorem holds_stored (hz : -2 ^ 31 ≤ z ∧ z < 2 ^ 31) :
    Holds c (n.stored c key (toString z)) key z :=
  ⟨toString z, stoi_toString hz, by simp [Node.stored, Node.putRequested],
    fun hcached => by simp [Node.stored, Node.putRequested, hcached]⟩

end

/-! ## Many increments -/

section

variable {ι : Type} (z₀ : ℤ) (steps : ι → ℤ)

/-- The sum after the steps of some requests. -/
def sumAfter (order : List ι) : ℤ := z₀ + (order.map steps).sum

/-- The partial sums are 32-bit numbers. -/
def SumsFit (order : List ι) : Prop :=
  ∀ done, done <+: order → -2 ^ 31 ≤ sumAfter z₀ steps done ∧ sumAfter z₀ steps done < 2 ^ 31

/-- The values read are the partial sums. -/
def ReadsSums (reads : List (ι × Bytes)) : Prop :=
  ∀ done i val, done ++ [(i, val)] <+: reads →
    stoi val = .ok (sumAfter z₀ steps (done.map Prod.fst))

variable {z₀ steps}

theorem ReadsSums.before {reads reads' : List (ι × Bytes)} (h : ReadsSums z₀ steps reads')
    (hreads : reads <+: reads') : ReadsSums z₀ steps reads :=
  fun done i val hdone => h done i val (hdone.trans hreads)

/-- One more request reads the sum of those before it. -/
theorem ReadsSums.concat {reads : List (ι × Bytes)} (h : ReadsSums z₀ steps reads) (i : ι)
    {val : Bytes} (hval : stoi val = .ok (sumAfter z₀ steps (reads.map Prod.fst))) :
    ReadsSums z₀ steps (reads ++ [(i, val)]) := by
  intro done j val' hdone
  rcases List.prefix_concat_iff.mp hdone with heq | hdone
  · obtain ⟨hsame, hlast⟩ := List.append_inj' heq rfl
    cases hlast
    rw [hsame]
    exact hval
  · exact h done j val' hdone

theorem sumAfter_concat (order : List ι) (i : ι) :
    sumAfter z₀ steps (order ++ [i]) = sumAfter z₀ steps order + steps i := by
  simp [sumAfter, add_assoc]

variable [HashOrder] {c : Config} {key : Bytes} {w : World} (hdb : c.dbOk = true)
  (hz : Holds c w.node key z₀)
include hdb hz

/-- Increments that are served one after the other: the key holds the sum, and each of
them has read the sum of those before it. -/
theorem serial_increments (order : List ι) :
    let s := Pool.serial (fun i => (handle noFaults).recorded i)
      (fun i => increment c key (steps i)) (w, []) order
    SumsFit z₀ steps ((readsOf s.2).map Prod.fst) →
      Holds c s.1.node key (sumAfter z₀ steps order) ∧ (readsOf s.2).map Prod.fst = order ∧
        ReadsSums z₀ steps (readsOf s.2) := by
  induction order using List.reverseRecOn with
  | nil =>
    refine fun _ => ⟨by simpa [sumAfter, Pool.serial] using hz, rfl, fun done i val h => ?_⟩
    have hnil := List.prefix_nil.mp h
    simp at hnil
  | append_singleton order i ih =>
    intro s hfit
    have hs : s = _ := Pool.serial_append _ _ order i
    generalize Pool.serial (fun i => (handle noFaults).recorded i)
      (fun i => increment c key (steps i)) (w, []) order = s₀ at ih hs
    rw [Prog.run_recorded] at hs
    obtain ⟨hholds, hids, hreads⟩ := ih fun done hdone => hfit done <| hdone.trans <| by
      rw [hs, readsOf_append, List.map_append]
      exact List.prefix_append _ _
    obtain ⟨val, hval, hsource⟩ := hholds.source
    have hlog : readsOf s.2 = readsOf s₀.2 ++ [(i, val)] := by
      rw [hs, readsOf_append, readsOf_increment hdb hsource]
    have hids' : (readsOf s.2).map Prod.fst = order ++ [i] := by simp [hlog, hids]
    have hfit' := hfit (order ++ [i]) (hids' ▸ List.prefix_refl _)
    have hnode : s.1.node =
        s₀.1.node.stored c key (toString (sumAfter z₀ steps (order ++ [i]))) := by
      have hexact := @increment_exact _ c key _ _ (steps i) _ hdb hsource hval s₀.1 rfl
      rw [hs]
      rcases hrun : (increment c key (steps i)).run (handle noFaults) s₀.1 with ⟨e | a, w'⟩
      · rw [hrun] at hexact
        cases hexact
      · rw [hrun, int32_eq_self (by rwa [← sumAfter_concat]), ← sumAfter_concat] at hexact
        exact hexact
    exact ⟨hnode ▸ holds_stored hfit', hids', hlog ▸ hreads.concat i (hids ▸ hval)⟩

/-- What holds of increments that are being served: the requests that have read did so
once and have read the partial sums, and when all have been served the key holds the sum
of all steps. -/
structure AllCount [Fintype ι] (c : Config) (key : Bytes) (z₀ : ℤ) (steps : ι → ℤ)
    (p : Requests ι (Bool × Bytes)) : Prop where
  once : ((readsOf p.state.2).map Prod.fst).Nodup
  reads : ReadsSums z₀ steps (readsOf p.state.2)
  sum : (∀ i, (p.progs i).outcome.isSome = true) →
    Holds c p.state.1.node key (z₀ + ∑ i, steps i)

/-- Whatever the schedule, concurrent increments all count, if the partial sums are
32-bit numbers. -/
theorem increments_all_count [Fintype ι] [DecidableEq ι] (hfree : w.locked .core = false)
    {schedule : List ι} {p : Requests ι (Bool × Bytes)}
    (hp : p = interleave noFaults (arrived w fun i => increment c key (steps i)) schedule)
    (hfit : SumsFit z₀ steps ((readsOf p.state.2).map Prod.fst)) :
    AllCount c key z₀ steps p := by
  have hprogs : ∀ i, Pool.Guarded (.lock .core) (.unlock .core)
      ((arrived w fun i => increment c key (steps i)).progs i) :=
    fun i => increment_guarded key (steps i)
  obtain ⟨order, hnodup, hended, hcurrent⟩ := Pool.exists_serialised
    (guards_mutex ι noFaults .core) hprogs (by simp [arrived, hfree]) schedule
  rw [show Pool.run _ _ _ schedule = p from hp.symm] at hended hcurrent
  have hserial := @serial_increments ι z₀ steps _ c key w hdb hz order
  simp only [arrived] at hcurrent hserial
  generalize Pool.serial (fun i => (handle noFaults).recorded i)
    (fun i => increment c key (steps i)) (w, []) order = s₀ at hcurrent hserial
  rcases hcurrent with ⟨-, hstate, hrest⟩ | ⟨i, hi, -, hinside, hleads, hrest⟩
  · have hstate : p.state = s₀ := hstate
    rw [← hstate] at hserial
    obtain ⟨hholds, hids, hreads⟩ := hserial hfit
    refine ⟨hids ▸ hnodup, hreads, fun hall => ?_⟩
    have hmem : ∀ i, i ∈ order := by
      intro i
      by_contra hi
      have hsome := hall i
      obtain ⟨next, hnext, -⟩ := increment_guarded (c := c) key (steps i)
      rw [show p.progs i = increment c key (steps i) from hrest i hi, hnext] at hsome
      cases hsome
    have hperm : (order.map steps).sum = ∑ i, steps i := by
      rw [← List.sum_toFinset steps hnodup]
      exact Finset.sum_congr (by ext i; simp [hmem i]) fun _ _ => rfl
    rw [← hperm]
    exact hholds
  · -- one request is inside: it may have read, but the sum is that of the others
    have hlog : readsOf s₀.2 <+: readsOf p.state.2 := by
      obtain ⟨rest, hrest⟩ : s₀.2 <+: p.state.2 := hleads.log_prefix
      rw [← hrest, readsOf_append]
      exact List.prefix_append _ _
    obtain ⟨hholds, hids, hreads⟩ := hserial fun done hdone =>
      hfit done (hdone.trans (hlog.map Prod.fst))
    obtain ⟨val, hval, hsource⟩ := hholds.source
    have hlog' : readsOf p.state.2 <+: readsOf s₀.2 ++ [(i, val)] := by
      have hrun : (p.progs i).run ((handle noFaults).recorded i) p.state = _ := hleads.run_eq
      rw [Prog.run_recorded, Prog.run_recorded] at hrun
      have hlists := congrArg (fun r => readsOf r.2.2) hrun
      simp only [readsOf_append, readsOf_increment hdb hsource] at hlists
      exact hlists ▸ List.prefix_append _ _
    refine ⟨?_, (hreads.concat i (hids ▸ hval)).before hlog', fun hall => ?_⟩
    · refine List.Nodup.sublist (hlog'.map Prod.fst).sublist ?_
      rw [List.map_append, hids, List.map_singleton, ← List.concat_eq_append]
      exact List.Nodup.concat hi hnodup
    · have hsome := hall i
      have hinside : Pool.Inside (.lock .core) (.unlock .core) (p.progs i) := hinside
      cases hprog : p.progs i with
      | call op next =>
        rw [hprog] at hsome
        cases hsome
      | _ =>
        rw [hprog] at hinside
        exact hinside.elim

end

/-- A process whose only entry is a number, with a cache. -/
def counting : World :=
  openDB cachedOnly (OrderedMap.empty.insert (ascii "k") (ascii "1"))

/-- Two increments of that number, the second of which waits for the first. -/
def twoIncrements : Requests Bool (Bool × Bytes) :=
  interleave noFaults
    (arrived counting fun i => @increment .insertion cachedOnly (ascii "k") (if i then 5 else -3))
    [true, true, false, true, true, false, true, true, false, false, false, false, false]

/-- The theorem at the two increments. -/
theorem increments_all_count_two :
    AllCount cachedOnly (ascii "k") 1 (fun i => if i then 5 else -3) twoIncrements := by
  have hholds : Holds cachedOnly counting.node (ascii "k") 1 :=
    ⟨ascii "1", by decide +kernel, by decide +kernel, fun _ => by decide +kernel⟩
  have hreaders : (readsOf twoIncrements.state.2).map Prod.fst = [true, false] := by
    decide +kernel
  refine @increments_all_count Bool 1 (fun i => if i then 5 else -3) .insertion cachedOnly
    (ascii "k") counting rfl hholds _ _ rfl _ twoIncrements rfl ?_
  have hfit : ∀ done ∈ [true, false].inits,
      -2 ^ 31 ≤ sumAfter 1 (fun i => if i then 5 else -3) done ∧
        sumAfter 1 (fun i => if i then 5 else -3) done < 2 ^ 31 := by
    decide
  exact fun done hdone => hfit done ((List.mem_inits done _).mpr (hreaders ▸ hdone))

end Quarks
