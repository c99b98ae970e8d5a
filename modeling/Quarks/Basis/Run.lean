import Mathlib.Data.List.Infix

/-!
# Runs

A system takes one step for each of a list of events. What every step preserves holds in
every state of a run; where a step preserves it only under a condition on the state and
the event, it holds in every run whose events meet the condition.
-/

namespace Basis

variable {σ τ ε : Type}

/-- The state after the events of a list. -/
def runAll (step : σ → ε → σ) (s : σ) (events : List ε) : σ := events.foldl step s

/-- Each event meets a condition on the state that it finds. -/
def EachEvent (step : σ → ε → σ) (C : σ → ε → Prop) : σ → List ε → Prop
  | _, [] => True
  | s, e :: events => C s e ∧ EachEvent step C (step s e) events

instance EachEvent.decidable {step : σ → ε → σ} {C : σ → ε → Prop} [∀ s e, Decidable (C s e)] :
    (s : σ) → (events : List ε) → Decidable (EachEvent step C s events)
  | _, [] => isTrue trivial
  | s, e :: events =>
    have : Decidable (EachEvent step C (step s e) events) := EachEvent.decidable _ events
    inferInstanceAs (Decidable (C s e ∧ EachEvent step C (step s e) events))

variable {step : σ → ε → σ} {step' : τ → ε → τ} {C : σ → ε → Prop} {s : σ} {t : τ}
  {events done : List ε}

/-- What each step preserves, if its event meets the condition, holds whenever a run of
such events is interrupted. -/
theorem runAll_of_eachEvent {I : σ → Prop} (hstep : ∀ s e, I s → C s e → I (step s e)) (hs : I s)
    (hevents : EachEvent step C s events) (hdone : done <+: events) : I (runAll step s done) := by
  induction done generalizing s events with
  | nil => exact hs
  | cons e done ih =>
    obtain ⟨rest, rfl⟩ := hdone
    exact ih (hstep s e hs hevents.1) hevents.2 ⟨rest, rfl⟩

/-- What each event does, if it meets the condition where an invariant holds, it does at
each point of a run of such events. -/
theorem runAll_event {I : σ → Prop} {D : σ → ε → Prop} {e : ε}
    (hstep : ∀ s e, I s → C s e → D s e ∧ I (step s e)) (hs : I s)
    (hevents : EachEvent step C s events) (hdone : done ++ [e] <+: events) :
    D (runAll step s done) e := by
  induction done generalizing s events with
  | nil =>
    obtain ⟨rest, rfl⟩ := hdone
    exact (hstep s e hs hevents.1).1
  | cons first done ih =>
    obtain ⟨rest, rfl⟩ := hdone
    exact ih (hstep s first hs hevents.1).2 hevents.2 ⟨rest, rfl⟩

/-- A relation between two systems that each step preserves, if its event meets the
condition, holds whenever their runs on such events are interrupted. -/
theorem runAll_simulates {R : σ → τ → Prop}
    (hstep : ∀ s t e, R s t → C s e → R (step s e) (step' t e)) (hs : R s t)
    (hevents : EachEvent step C s events) (hdone : done <+: events) :
    R (runAll step s done) (runAll step' t done) := by
  induction done generalizing s t events with
  | nil => exact hs
  | cons e done ih =>
    obtain ⟨rest, rfl⟩ := hdone
    exact ih (hstep s t e hs hevents.1) hevents.2 ⟨rest, rfl⟩

/-- If the condition says exactly when a step preserves an invariant, the invariant holds
whenever a run is interrupted exactly if every event meets the condition. -/
theorem forall_runAll_iff {I : σ → Prop} (hstep : ∀ s e, I s → (I (step s e) ↔ C s e)) (hs : I s) :
    (∀ done, done <+: events → I (runAll step s done)) ↔ EachEvent step C s events := by
  refine ⟨fun h => ?_, fun h done hdone =>
    runAll_of_eachEvent (fun s e hI hC => (hstep s e hI).mpr hC) hs h hdone⟩
  induction events generalizing s with
  | nil => trivial
  | cons e events ih =>
    have hfirst : I (step s e) := h [e] ⟨events, rfl⟩
    exact ⟨(hstep s e hs).mp hfirst, ih hfirst fun done hdone =>
      h (e :: done) ((List.prefix_cons_inj e).mpr hdone)⟩

/-- What holds after every event of a list, for the first event and for the later ones. -/
theorem forall_concat_cons {P : List ε → ε → Prop} {first : ε} :
    (∀ done e, done ++ [e] <+: first :: events → P (done ++ [e]) e) ↔
      P [first] first ∧ ∀ done e, done ++ [e] <+: events → P (first :: (done ++ [e])) e := by
  constructor
  · intro h
    refine ⟨h [] first ⟨events, rfl⟩, fun done e hdone => ?_⟩
    exact h (first :: done) e ((List.prefix_cons_inj first).mpr hdone)
  · rintro ⟨hfirst, hlater⟩ done e ⟨rest, hrest⟩
    cases done with
    | nil =>
      cases hrest
      exact hfirst
    | cons head done =>
      cases hrest
      exact hlater done e ⟨rest, rfl⟩

end Basis
