import Concord.Go.Prog

/-!
# Total correctness of a program alone

`Completes H obs x s Q`: started in `s` and left alone, the program can end, and however it
ends, `Q` holds of what was observed of its operations, of its result and of the state.
The choices the handler leaves open are not the program's, so `Q` has to hold for all of
them; that one of them lets the program go on is part of the judgement.

The rules follow the program: `completes_pure`, `completes_op` and `completes_det` for an operation,
`completes_bind` for a part with a specification of its own.
-/

namespace Go

section Completes

variable {E : Type} {R : E → Type} {σ χ α β ω : Type}

/-- The program can end, and `Q` holds whenever it does. -/
def Completes (H : σ → χ → (e : E) → Outcome (R e × σ)) (obs : ((e : E) × R e) → Option ω)
    (x : Prog E R α) (s : σ) (Q : List ω → α → σ → Prop) : Prop :=
  (∃ tr a s', Execs H x s tr a s') ∧ ∀ tr a s', Execs H x s tr a s' → Q (tr.filterMap obs) a s'

variable {H : σ → χ → (e : E) → Outcome (R e × σ)} {obs : ((e : E) × R e) → Option ω} {s : σ}
  {Q : List ω → α → σ → Prop}

theorem completes_pure {a : α} (h : Q [] a s) : Completes H obs (pure a) s Q := by
  refine ⟨⟨[], a, s, .ret a s⟩, fun tr b s' hx => ?_⟩
  obtain ⟨rfl, rfl, rfl⟩ := execs_pure.mp hx
  exact h

theorem Completes.mono {x : Prog E R α} {P : List ω → α → σ → Prop} (hx : Completes H obs x s P)
    (h : ∀ o a s', P o a s' → Q o a s') : Completes H obs x s Q :=
  ⟨hx.1, fun tr a s' ht => h _ a s' (hx.2 tr a s' ht)⟩

theorem completes_bind {x : Prog E R β} {f : β → Prog E R α} {P : List ω → β → σ → Prop}
    (hx : Completes H obs x s P)
    (hf : ∀ o b s₁, P o b s₁ → Completes H obs (f b) s₁ fun o' => Q (o ++ o')) :
    Completes H obs (x >>= f) s Q := by
  obtain ⟨⟨tr₁, b, s₁, hb⟩, hP⟩ := hx
  constructor
  · obtain ⟨⟨tr₂, a, s', ha⟩, -⟩ := hf _ b s₁ (hP _ b s₁ hb)
    exact ⟨_, a, s', execs_bind.mpr ⟨tr₁, b, s₁, tr₂, hb, ha, rfl⟩⟩
  · intro tr a s' h
    obtain ⟨tr₁, b, s₁, tr₂, hb, ha, rfl⟩ := execs_bind.mp h
    rw [List.filterMap_append]
    exact (hf _ b s₁ (hP tr₁ b s₁ hb)).2 tr₂ a s' ha

/-- An operation that can be performed. -/
theorem completes_op {e : E} {f : R e → Prog E R α} (hcan : ∃ c r s₁, H s c e = .ok (r, s₁))
    (hf : ∀ c r s₁, H s c e = .ok (r, s₁) →
      Completes H obs (f r) s₁ fun o => Q ((obs ⟨e, r⟩).toList ++ o)) :
    Completes H obs (Prog.perform e >>= f) s Q := by
  obtain ⟨c, r, s₁, hh⟩ := hcan
  constructor
  · obtain ⟨⟨tr, a, s', h⟩, -⟩ := hf c r s₁ hh
    exact ⟨_, a, s', .op hh h⟩
  · intro tr a s' h
    obtain ⟨c, r, s₁, tr', hh, hrest, rfl⟩ := execs_perform.mp h
    have hQ := (hf c r s₁ hh).2 tr' a s' hrest
    cases hobs : obs ⟨e, r⟩ with
    | none =>
      rw [hobs] at hQ
      rw [List.filterMap_cons_none hobs]
      exact hQ
    | some y =>
      rw [hobs] at hQ
      rw [List.filterMap_cons_some hobs]
      exact hQ

/-- An operation whose result is determined. -/
theorem completes_det [Inhabited χ] {e : E} {r : R e} {s₁ : σ} {f : R e → Prog E R α}
    (hh : ∀ c, H s c e = .ok (r, s₁))
    (hf : Completes H obs (f r) s₁ fun o => Q ((obs ⟨e, r⟩).toList ++ o)) :
    Completes H obs (Prog.perform e >>= f) s Q := by
  refine completes_op ⟨default, r, s₁, hh default⟩ fun c r' s₂ hh' => ?_
  cases (hh c).symm.trans hh'
  exact hf

/-- The specification of an operation by itself. -/
theorem completes_perform {e : E} {Q : List ω → R e → σ → Prop}
    (hcan : ∃ c r s₁, H s c e = .ok (r, s₁))
    (hQ : ∀ c r s₁, H s c e = .ok (r, s₁) → Q (obs ⟨e, r⟩).toList r s₁) :
    Completes H obs (Prog.perform e) s Q := by
  refine completes_op (f := fun r => pure r) hcan fun c r s₁ hh => completes_pure ?_
  rw [List.append_nil]
  exact hQ c r s₁ hh

/-- A program that ends does so with its postcondition. -/
theorem Completes.execs {x : Prog E R α} (hx : Completes H obs x s Q) :
    ∃ tr a s', Execs H x s tr a s' ∧ Q (tr.filterMap obs) a s' := by
  obtain ⟨⟨tr, a, s', h⟩, hQ⟩ := hx
  exact ⟨tr, a, s', h, hQ tr a s' h⟩

end Completes

end Go
