import Concord.Go.Trace

/-!
# Goroutines that start alike

Two runs of one machine by the same events, where a goroutine of the one may differ from that of
the other in what it does after results of its first operation that never come up. They go
through the same states (`Swapped.run`), so what differs cannot be seen.
-/

namespace Go

variable {E : Type} {R : E → Type} {σ χ ε α β : Type} {A : (e : E) → R e → Prop}

/-- The same program, or the same first operation with the same continuation after every result
in `A`. -/
inductive Prog.Alike (A : (e : E) → R e → Prop) : Prog E R α → Prog E R α → Prop
  | same (t : Prog E R α) : Alike A t t
  | first {e : E} {k k' : R e → Prog E R α} : (∀ r, A e r → k r = k' r) →
      Alike A (.op e k) (.op e k')

theorem Prog.Alike.op {e : E} {k : R e → Prog E R α} {t' : Prog E R α}
    (h : Prog.Alike A (.op e k) t') : ∃ k', t' = .op e k' ∧ ∀ r, A e r → k r = k' r := by
  cases h with
  | same => exact ⟨k, rfl, fun _ _ => rfl⟩
  | first hk => exact ⟨_, rfl, hk⟩

theorem Prog.Alike.bind {t t' : Prog E R α} (h : Prog.Alike A t t') (f : α → Prog E R β) :
    Prog.Alike A (t >>= f) (t' >>= f) := by
  cases h with
  | same => exact .same _
  | first hk => exact .first fun r hr => congrArg (Prog.bind · f) (hk r hr)

/-- The same state, goroutines that are alike, and the same log but for its entry `n`. -/
structure Sys.Swapped (A : (e : E) → R e → Prop) (n : Nat) (x : Entry E R ε)
    (s s' : Sys E R σ ε) : Prop where
  state : s'.state = s.state
  length : s'.threads.length = s.threads.length
  threads : ∀ (i : Nat) (t t' : Prog E R Unit), s.threads[i]? = some t → s'.threads[i]? = some t' →
    Prog.Alike A t t'
  lt : n < s.log.length
  log : s'.log = s.log.set n x

namespace Sys.Swapped

variable {M : Machine E R σ χ ε} {n : Nat} {x : Entry E R ε} {s s' s₁ : Sys E R σ ε}

/-- One event starts goroutines that are alike. -/
theorem spawn {t t' : Prog E R Unit} (h : Prog.Alike A t t') (s : Sys E R σ ε) (x y : Entry E R ε) :
    Swapped A s.log.length y ⟨s.state, s.threads ++ [t], s.log ++ [x]⟩
      ⟨s.state, s.threads ++ [t'], s.log ++ [y]⟩ where
  state := rfl
  length := by rw [List.length_append, List.length_append, List.length_singleton, List.length_singleton]
  threads := by
    intro i u u' hu hu'
    rcases getElem?_snoc_cases hu with hi | ⟨rfl, rfl⟩
    · rw [List.getElem?_append_left (List.getElem?_eq_some_iff.mp hi).1, hi] at hu'
      cases hu'
      exact .same u
    · rw [List.getElem?_concat_length] at hu'
      cases hu'
      exact h
  lt := by
    rw [List.length_append]
    exact Nat.lt_succ_self _
  log := by
    rw [List.set_append_right _ _ (Nat.le_refl _), Nat.sub_self]
    rfl

theorem log_snoc (h : Swapped A n x s s') (y : Entry E R ε) :
    s'.log ++ [y] = (s.log ++ [y]).set n x := by
  rw [h.log, List.set_append_left n x h.lt]

/-- A goroutine of the first run is at the same operation in the second. -/
theorem exists_op (h : Swapped A n x s s') {i : Nat} {e : E} {k : R e → Prog E R Unit}
    (hi : s.threads[i]? = some (.op e k)) :
    ∃ k', s'.threads[i]? = some (.op e k') ∧ ∀ r, A e r → k r = k' r := by
  have hlt : i < s'.threads.length := h.length ▸ (List.getElem?_eq_some_iff.mp hi).1
  have ht' := List.getElem?_eq_getElem hlt
  obtain ⟨k', hk', hcont⟩ := (h.threads i _ _ hi ht').op
  exact ⟨k', ht'.trans (congrArg some hk'), hcont⟩

theorem step (h : Swapped A n x s s') {ev : Event χ ε} (hstep : M.step s ev = .ok s₁)
    (hA : ∀ i e r, s₁.log = s.log ++ [.act i e r] → A e r) :
    ∃ s₁', M.step s' ev = .ok s₁' ∧ Swapped A n x s₁ s₁' := by
  rcases Machine.step_ok hstep with ⟨i, c, e, k, r, st, rfl, ht, hh, rfl⟩ | ⟨a, st, rfl, he, rfl⟩ |
    ⟨a, st, t, rfl, he, rfl⟩
  · obtain ⟨k', ht', hcont⟩ := h.exists_op ht
    have hk : k r = k' r := hcont r (hA i e r rfl)
    refine ⟨⟨st, s'.threads.set i (k' r), s'.log ++ [.act i e r]⟩, ?_, rfl, ?_, ?_, ?_, h.log_snoc _⟩
    · simp only [Machine.step, ht', h.state, hh]
    · rw [List.length_set, List.length_set, h.length]
    · intro j t t' hj hj'
      rcases getElem?_set_cases hj with ⟨rfl, rfl⟩ | ⟨hij, hj⟩
      · rcases getElem?_set_cases hj' with ⟨-, rfl⟩ | ⟨hne, -⟩
        · rw [hk]
          exact .same _
        · exact absurd rfl hne
      · rw [List.getElem?_set_ne hij] at hj'
        exact h.threads j t t' hj hj'
    · rw [List.length_append]
      exact Nat.lt_add_right _ h.lt
  · refine ⟨⟨st, s'.threads, s'.log ++ [.env a]⟩, ?_, rfl, h.length, h.threads, ?_, h.log_snoc _⟩
    · simp only [Machine.step, h.state, he]
    · rw [List.length_append]
      exact Nat.lt_add_right _ h.lt
  · refine ⟨⟨st, s'.threads ++ [t], s'.log ++ [.env a]⟩, ?_, rfl, ?_, ?_, ?_, h.log_snoc _⟩
    · simp only [Machine.step, h.state, he]
    · rw [List.length_append, List.length_append, h.length]
    · intro j u u' hj hj'
      rcases getElem?_snoc_cases hj with hj | ⟨rfl, rfl⟩
      · rw [List.getElem?_append_left (h.length ▸ (List.getElem?_eq_some_iff.mp hj).1)] at hj'
        exact h.threads j u u' hj hj'
      · rw [← h.length, List.getElem?_concat_length] at hj'
        cases hj'
        exact .same u
    · rw [List.length_append]
      exact Nat.lt_add_right _ h.lt

/-- Along a run in which every result is in `A`. -/
theorem run {evs : List (Event χ ε)} (h : Swapped A n x s s') (hrun : M.run s evs = .ok s₁)
    {xs : List (Entry E R ε)} (hlog : s₁.log = s.log ++ xs) (hA : ∀ i e r, .act i e r ∈ xs → A e r) :
    ∃ s₁', M.run s' evs = .ok s₁' ∧ Swapped A n x s₁ s₁' := by
  induction evs generalizing s s' xs with
  | nil =>
    cases hrun
    exact ⟨s', rfl, h⟩
  | cons ev evs ih =>
    unfold Machine.run at hrun
    split at hrun
    · next s₂ hstep =>
      obtain ⟨y, hy⟩ := Machine.step_log hstep
      obtain ⟨ys, hys⟩ := Machine.run_log hrun
      obtain rfl : xs = y :: ys := by
        rw [hys, hy, List.append_assoc] at hlog
        exact (List.append_cancel_left hlog).symm
      obtain ⟨s₂', hstep', h₂⟩ := h.step hstep fun i e r hact => hA i e r (by
        rw [hy] at hact
        rw [List.singleton_inj.mp (List.append_cancel_left hact)]
        exact List.mem_cons_self)
      obtain ⟨s₁', hrun', h₁⟩ := ih h₂ hrun hys fun i e r hact => hA i e r (List.mem_cons_of_mem _ hact)
      refine ⟨s₁', ?_, h₁⟩
      simp only [Machine.run, hstep']
      exact hrun'
    · cases hrun
    · cases hrun

end Sys.Swapped

end Go
