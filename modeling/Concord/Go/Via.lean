import Concord.Go.Prog

/-!
# Executions by steps of one kind

`EndsVia H ok x s a s'`: run alone from `s`, the program can end with `a` in state `s'` by
operations whose results are all `ok`. With `ok` true of every result this is `Ends`.

`endsVia_bind` and `endsVia_det` follow the program. A part of which no result can fail to be
`ok` is left to the rules for `Ends` (`endsVia_iff_ends`).
-/

namespace Go

variable {E : Type} {R : E → Type} {σ χ α β : Type}

/-- The program, run alone, can end with `a` in state `s'`, every result on the way being `ok`. -/
def EndsVia (H : σ → χ → (e : E) → Outcome (R e × σ)) (ok : (e : E) × R e → Prop) (x : Prog E R α)
    (s : σ) (a : α) (s' : σ) : Prop :=
  ∃ tr, Execs H x s tr a s' ∧ ∀ y ∈ tr, ok y

variable {H : σ → χ → (e : E) → Outcome (R e × σ)} {ok : (e : E) × R e → Prop} {s s' : σ} {a : α}

theorem EndsVia.ends {x : Prog E R α} (h : EndsVia H ok x s a s') : Ends H x s a s' := by
  obtain ⟨tr, h, -⟩ := h
  exact ⟨tr, h⟩

/-- A program all of whose results are `ok`. -/
theorem endsVia_iff_ends {x : Prog E R α} (hx : x.AllOps fun e => ∀ r, ok ⟨e, r⟩) :
    EndsVia H ok x s a s' ↔ Ends H x s a s' := by
  refine ⟨EndsVia.ends, ?_⟩
  rintro ⟨tr, h⟩
  exact ⟨tr, h, fun y hy => h.allOps hx y hy y.2⟩

theorem endsVia_pure {b : α} : EndsVia H ok (pure b) s a s' ↔ a = b ∧ s' = s :=
  (endsVia_iff_ends (Prog.allOps_pure b)).trans ends_pure

theorem endsVia_bind {x : Prog E R β} {f : β → Prog E R α} :
    EndsVia H ok (x >>= f) s a s' ↔ ∃ b s₁, EndsVia H ok x s b s₁ ∧ EndsVia H ok (f b) s₁ a s' := by
  constructor
  · rintro ⟨tr, h, hok⟩
    obtain ⟨tr₁, b, s₁, tr₂, hx, hf, rfl⟩ := execs_bind.mp h
    exact ⟨b, s₁, ⟨tr₁, hx, fun y hy => hok y (List.mem_append_left _ hy)⟩,
      tr₂, hf, fun y hy => hok y (List.mem_append_right _ hy)⟩
  · rintro ⟨b, s₁, ⟨tr₁, hx, hok₁⟩, tr₂, hf, hok₂⟩
    refine ⟨tr₁ ++ tr₂, execs_bind.mpr ⟨tr₁, b, s₁, tr₂, hx, hf, rfl⟩, fun y hy => ?_⟩
    rcases List.mem_append.mp hy with hy | hy
    · exact hok₁ y hy
    · exact hok₂ y hy

theorem endsVia_perform {e : E} {r : R e} :
    EndsVia H ok (Prog.perform e) s r s' ↔ ok ⟨e, r⟩ ∧ ∃ c, H s c e = .ok (r, s') := by
  constructor
  · rintro ⟨tr, h, hok⟩
    obtain ⟨c, r', s₁, tr', hh, hret, rfl⟩ := execs_op.mp h
    obtain ⟨-, rfl, rfl⟩ := execs_pure.mp hret
    exact ⟨hok _ List.mem_cons_self, c, hh⟩
  · rintro ⟨hok, c, hh⟩
    exact ⟨_, .op hh (.ret r s'), fun y hy => List.mem_singleton.mp hy ▸ hok⟩

/-- An operation whose result is determined. -/
theorem endsVia_det [Inhabited χ] {e : E} {r : R e} {s₁ : σ} {f : R e → Prog E R α}
    (hok : ok ⟨e, r⟩) (hh : ∀ c, H s c e = .ok (r, s₁)) :
    EndsVia H ok (Prog.perform e >>= f) s a s' ↔ EndsVia H ok (f r) s₁ a s' := by
  rw [endsVia_bind]
  constructor
  · rintro ⟨r', s₂, hx, hf⟩
    obtain ⟨-, c, hc⟩ := endsVia_perform.mp hx
    cases (hh c).symm.trans hc
    exact hf
  · exact fun h => ⟨r, s₁, endsVia_perform.mpr ⟨hok, default, hh default⟩, h⟩

end Go
