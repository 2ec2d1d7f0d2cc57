import Mathlib.Logic.Relation
import Concord.Go.Trace

/-!
# Systems that can come to rest

The goroutines of a machine where every operation can be performed at once, but for those that
wait for the environment to take something away, and where what the environment then starts is
a goroutine that never waits. `Drains.drain`: from every state within the proof system, such a
machine can bring all its goroutines to an end by steps of its own.

Programs have no length that bounds all their executions, so the argument is by induction on
the tree of one goroutine (`finish_one`), then on the list of goroutines (`finish_first`).
-/

namespace Go

variable {E : Type} {R : E → Type} {σ χ ε γ : Type} {M : Machine E R σ χ ε}

namespace Machine

/-- A step of a goroutine, or an environment step of the given kind. -/
def OwnStep (M : Machine E R σ χ ε) (inner : ε → Prop) (s s' : Sys E R σ ε) : Prop :=
  ∃ ev, M.step s ev = .ok s' ∧ ∀ a, ev = .env a → inner a

/-- The second state comes after the first by such steps. -/
abbrev Comes (M : Machine E R σ χ ε) (inner : ε → Prop) := Relation.ReflTransGen (M.OwnStep inner)

theorem Comes.run {inner : ε → Prop} {s s' : Sys E R σ ε} (h : M.Comes inner s s') :
    ∃ evs, M.run s evs = .ok s' ∧ ∀ a, Event.env a ∈ evs → inner a := by
  induction h with
  | refl => exact ⟨[], rfl, fun a ha => nomatch ha⟩
  | tail _ hstep ih =>
    obtain ⟨evs, hrun, hinner⟩ := ih
    obtain ⟨ev, hev, ha⟩ := hstep
    refine ⟨evs ++ [ev], run_snoc hrun hev, fun a hmem => ?_⟩
    rcases List.mem_append.mp hmem with hmem | hmem
    · exact hinner a hmem
    · exact ha a (List.mem_singleton.mp hmem).symm

end Machine

/-- What lets the machine come to rest: `waits` are the operations that wait for an environment
step of the kind `inner`, and `calm` is kept by all others. -/
structure Drains (L : Logic M γ) (waits : E → Prop) (inner : ε → Prop) (calm : σ → Prop) : Prop where
  allowed_act : ∀ s i c, L.allowed s (.act i c)
  allowed_inner : ∀ s a, inner a → L.allowed s (.env a)
  go : ∀ {s : Sys E R σ ε} {i : Nat} {e : E} {k : R e → Prog E R Unit}, L.Holds s →
    s.threads[i]? = some (.op e k) → ¬ waits e → ∃ c r st, M.handle s.state c e = .ok (r, st)
  free : ∀ {s : Sys E R σ ε} {i : Nat} {e : E} {k : R e → Prog E R Unit}, L.Holds s →
    s.threads[i]? = some (.op e k) → waits e →
    (∃ c r st, M.handle s.state c e = .ok (r, st)) ∨
    ∃ a st t, inner a ∧ M.env s.state a = some (st, some t) ∧ (t.AllOps fun e => ¬ waits e) ∧
      ∃ c r st', M.handle st c e = .ok (r, st')
  keeps : ∀ {s st : σ} {c : χ} {e : E} {r : R e}, calm s → ¬ waits e →
    M.handle s c e = .ok (r, st) → calm st

namespace Drains

variable {L : Logic M γ} {waits : E → Prop} {inner : ε → Prop} {calm : σ → Prop}

theorem act_step {s : Sys E R σ ε} {i : Nat} {e : E} {k : R e → Prog E R Unit}
    (ht : s.threads[i]? = some (.op e k)) {c : χ} {r : R e} {st : σ}
    (hh : M.handle s.state c e = .ok (r, st)) :
    M.step s (.act i c) = .ok ⟨st, s.threads.set i (k r), s.log ++ [.act i e r]⟩ := by
  simp only [Machine.step, ht, hh]

theorem spawn_step {s : Sys E R σ ε} {a : ε} {st : σ} {t : Prog E R Unit}
    (he : M.env s.state a = some (st, some t)) :
    M.step s (.env a) = .ok ⟨st, s.threads ++ [t], s.log ++ [.env a]⟩ := by
  simp only [Machine.step, he]

/-- One goroutine is brought to its end. What is started meanwhile never waits, and nothing is
started for a goroutine that never waits itself. -/
theorem finish_one (D : Drains L waits inner calm) {t : Prog E R Unit} {s : Sys E R σ ε} {i : Nat}
    (hs : L.Holds s) (ht : s.threads[i]? = some t) :
    ∃ s' new, M.Comes inner s s' ∧ L.Holds s' ∧ s'.threads = s.threads.set i (.ret ()) ++ new ∧
      (∀ u ∈ new, u.AllOps fun e => ¬ waits e) ∧
      ((t.AllOps fun e => ¬ waits e) → new = [] ∧ (calm s.state → calm s'.state)) := by
  induction t generalizing s with
  | ret a =>
    refine ⟨s, [], .refl, hs, ?_, fun u hu => (nomatch hu), fun _ => ⟨rfl, id⟩⟩
    rw [List.append_nil, set_self ht]
  | op e k ih =>
    have hlt := (List.getElem?_eq_some_iff.mp ht).1
    -- the operation, from a state with maybe one more goroutine
    have hact : ∀ {s₁ : Sys E R σ ε} (extra : List (Prog E R Unit)), M.Comes inner s s₁ →
        L.Holds s₁ → s₁.threads = s.threads ++ extra → (∀ u ∈ extra, u.AllOps fun e => ¬ waits e) →
        (∃ c r st, M.handle s₁.state c e = .ok (r, st)) →
        ∃ s' new r st c, M.handle s₁.state c e = .ok (r, st) ∧ M.Comes inner s s' ∧ L.Holds s' ∧
          s'.threads = s.threads.set i (.ret ()) ++ (extra ++ new) ∧
          (∀ u ∈ extra ++ new, u.AllOps fun e => ¬ waits e) ∧
          (((k r).AllOps fun e => ¬ waits e) → new = [] ∧ (calm st → calm s'.state)) := by
      rintro s₁ extra hcomes hs₁ hthreads hextra ⟨c, r, st, hh⟩
      have ht₁ : s₁.threads[i]? = some (.op e k) := by
        rw [hthreads, List.getElem?_append_left hlt]
        exact ht
      have hstep := act_step ht₁ hh
      have hs₂ := L.step_holds hs₁ (D.allowed_act _ _ _) hstep
      obtain ⟨s', new, hcomes', hs', hthreads', hnew, hquiet⟩ := ih r hs₂
        (List.getElem?_set_self (by rw [hthreads, List.length_append]; omega))
      refine ⟨s', new, r, st, c, hh, (hcomes.tail ⟨_, hstep, fun a h => nomatch h⟩).trans hcomes', hs',
        ?_, fun u hu => ?_, hquiet⟩
      · rw [hthreads', List.set_set, hthreads, List.set_append_left _ _ hlt, List.append_assoc]
      · rcases List.mem_append.mp hu with hu | hu
        · exact hextra u hu
        · exact hnew u hu
    by_cases hw : waits e
    · rcases D.free hs ht hw with hcan | ⟨a, st, u, ha, he, hu, hcan⟩
      · obtain ⟨s', new, r, st, c, -, hcomes, hs', hthreads, hnew, -⟩ :=
          hact [] .refl hs (List.append_nil _).symm (fun u hu => nomatch hu) hcan
        exact ⟨s', new, hcomes, hs', hthreads, hnew, fun h => absurd hw h.1⟩
      · have hstep := spawn_step he
        have hs₁ := L.step_holds hs (D.allowed_inner _ _ ha) hstep
        obtain ⟨s', new, r, st', c, -, hcomes, hs', hthreads, hnew, -⟩ :=
          hact [u] (.single ⟨_, hstep, fun b hb => by cases hb; exact ha⟩) hs₁ rfl
            (fun v hv => List.mem_singleton.mp hv ▸ hu) hcan
        exact ⟨s', [u] ++ new, hcomes, hs', hthreads, hnew, fun h => absurd hw h.1⟩
    · obtain ⟨s', new, r, st, c, hh, hcomes, hs', hthreads, hnew, hquiet⟩ :=
        hact [] .refl hs (List.append_nil _).symm (fun u hu => nomatch hu) (D.go hs ht hw)
      exact ⟨s', new, hcomes, hs', hthreads, hnew, fun h =>
        ⟨(hquiet (h.2 r)).1, fun hc => (hquiet (h.2 r)).2 (D.keeps hc h.1 hh)⟩⟩

/-- The first `n` goroutines are brought to their ends. -/
theorem finish_first (D : Drains L waits inner calm) {s : Sys E R σ ε} (hs : L.Holds s) (n : Nat)
    (hn : n ≤ s.threads.length) :
    ∃ s' new, M.Comes inner s s' ∧ L.Holds s' ∧
      s'.threads = List.replicate n (.ret ()) ++ (s.threads.drop n ++ new) ∧
      (∀ u ∈ new, u.AllOps fun e => ¬ waits e) ∧
      ((∀ u ∈ s.threads, u.AllOps fun e => ¬ waits e) →
        new = [] ∧ (calm s.state → calm s'.state)) := by
  induction n with
  | zero =>
    refine ⟨s, [], .refl, hs, ?_, fun u hu => (nomatch hu), fun _ => ⟨rfl, id⟩⟩
    simp
  | succ n ih =>
    obtain ⟨s₁, new₁, hcomes₁, hs₁, hthreads₁, hnew₁, hquiet₁⟩ := ih (by omega)
    have hlt : n < s.threads.length := hn
    have hn₁ : s₁.threads[n]? = some s.threads[n] := by
      rw [hthreads₁, List.getElem?_append_right (by simp), List.length_replicate, Nat.sub_self,
        List.getElem?_append_left (by simp; omega), List.getElem?_drop]
      exact List.getElem?_eq_getElem hlt
    obtain ⟨s', new, hcomes, hs', hthreads, hnew, hquiet⟩ := D.finish_one hs₁ hn₁
    refine ⟨s', new₁ ++ new, hcomes₁.trans hcomes, hs', ?_, fun u hu => ?_, fun hall => ?_⟩
    · rw [hthreads, hthreads₁, List.set_append_right _ _ (by simp), List.length_replicate,
        Nat.sub_self, List.drop_eq_getElem_cons hlt, List.cons_append, List.set_cons_zero,
        List.replicate_succ']
      simp
    · rcases List.mem_append.mp hu with hu | hu
      · exact hnew₁ u hu
      · exact hnew u hu
    · obtain ⟨rfl, hc₁⟩ := hquiet₁ hall
      obtain ⟨rfl, hc⟩ := hquiet (hall _ (List.getElem_mem hlt))
      exact ⟨rfl, fun h => hc (hc₁ h)⟩

/-- Goroutines that never wait are brought to their ends, and the state stays calm. -/
theorem drain_quiet (D : Drains L waits inner calm) {s : Sys E R σ ε} (hs : L.Holds s)
    (hall : ∀ u ∈ s.threads, u.AllOps fun e => ¬ waits e) :
    ∃ s', M.Comes inner s s' ∧ L.Holds s' ∧ (∀ u ∈ s'.threads, u = .ret ()) ∧
      (calm s.state → calm s'.state) := by
  obtain ⟨s', new, hcomes, hs', hthreads, -, hquiet⟩ := D.finish_first hs _ (Nat.le_refl _)
  obtain ⟨rfl, hcalm⟩ := hquiet hall
  refine ⟨s', hcomes, hs', fun u hu => ?_, hcalm⟩
  rw [hthreads, List.drop_length, List.append_nil, List.append_nil] at hu
  exact List.eq_of_mem_replicate hu

/-- All goroutines are brought to their ends. -/
theorem drain (D : Drains L waits inner calm) {s : Sys E R σ ε} (hs : L.Holds s) :
    ∃ s', M.Comes inner s s' ∧ L.Holds s' ∧ ∀ u ∈ s'.threads, u = .ret () := by
  obtain ⟨s₁, new, hcomes₁, hs₁, hthreads, hnew, -⟩ := D.finish_first hs _ (Nat.le_refl _)
  obtain ⟨s', hcomes, hs', hdone, -⟩ := D.drain_quiet hs₁ fun u hu => by
    rw [hthreads, List.drop_length, List.nil_append] at hu
    rcases List.mem_append.mp hu with hu | hu
    · rw [List.eq_of_mem_replicate hu]
      trivial
    · exact hnew u hu
  exact ⟨s', hcomes₁.trans hcomes, hs', hdone⟩

end Drains

end Go
