import Concord.Go.Prog

/-!
# Runs of a step function

A system is given by what an event does to its state, if it can happen there: `runSteps` takes
a list of events from a state, and `runSteps_invariant` is the induction over it. When some step
can always make a μ smaller, a run can bring it to zero: `runSteps_rank`.
-/

namespace Go

variable {σ ε : Type} {step : σ → ε → Outcome σ} {s s' s₁ : σ} {evs evs' : List ε}

/-- The events one after the other. -/
def runSteps (step : σ → ε → Outcome σ) : σ → List ε → Outcome σ
  | s, [] => .ok s
  | s, ev :: evs =>
    match step s ev with
    | .ok s' => runSteps step s' evs
    | .block => .block
    | .crash => .crash

theorem runSteps_cons {ev : ε} (h : runSteps step s (ev :: evs) = .ok s') :
    ∃ s₁, step s ev = .ok s₁ ∧ runSteps step s₁ evs = .ok s' := by
  unfold runSteps at h
  split at h
  · next s₁ h₁ => exact ⟨s₁, h₁, h⟩
  · cases h
  · cases h

theorem runSteps_singleton {ev : ε} (h : step s ev = .ok s') : runSteps step s [ev] = .ok s' := by
  rw [runSteps, h]
  rfl

/-- What every step keeps, every run keeps. -/
theorem runSteps_invariant {I : σ → Prop} (hstep : ∀ s ev s', I s → step s ev = .ok s' → I s')
    (hs : I s) (h : runSteps step s evs = .ok s') : I s' := by
  induction evs generalizing s with
  | nil =>
    cases h
    exact hs
  | cons ev evs ih =>
    obtain ⟨s₁, h₁, h⟩ := runSteps_cons h
    exact ih (hstep s ev s₁ hs h₁) h

theorem runSteps_append (h : runSteps step s evs = .ok s₁) (h' : runSteps step s₁ evs' = .ok s') :
    runSteps step s (evs ++ evs') = .ok s' := by
  induction evs generalizing s with
  | nil =>
    cases h
    exact h'
  | cons ev evs ih =>
    obtain ⟨s₂, h₂, h⟩ := runSteps_cons h
    rw [List.cons_append, runSteps, h₂]
    exact ih h

/-- Where some step keeps the invariant and lowers the rank until it is zero, it can get there. -/
theorem runSteps_rank {I : σ → Prop} {μ : σ → Nat}
    (hstep : ∀ s, I s → μ s ≠ 0 → ∃ ev s', step s ev = .ok s' ∧ I s' ∧ μ s' < μ s)
    (hs : I s) : ∃ evs s', runSteps step s evs = .ok s' ∧ I s' ∧ μ s' = 0 := by
  induction hn : μ s using Nat.strongRecOn generalizing s with
  | ind n ih =>
    by_cases h0 : μ s = 0
    · exact ⟨[], s, rfl, hs, h0⟩
    · obtain ⟨ev, s₁, h₁, hs₁, hlt⟩ := hstep s hs h0
      obtain ⟨evs, s', hrun, hs', hrank⟩ := ih (μ s₁) (hn ▸ hlt) hs₁ rfl
      refine ⟨ev :: evs, s', ?_, hs', hrank⟩
      rw [runSteps, h₁]
      exact hrun

end Go
