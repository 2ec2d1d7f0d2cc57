import Concord.Go.Prog

/-!
# Programs with one outcome

`Crashes H x s`: started in `s` and left alone, the program can come to an operation that
panics. `Yields H x s a s'`: it cannot, it ends, and only with `a` in state `s'`.

`yields_pure`, `yields_det` and `yields_bind` follow the program. A program has at most one
outcome (`Yields.unique`), and none if it can panic.
-/

namespace Go

variable {E : Type} {R : E → Type} {σ χ α β : Type}

/-- The program can panic. -/
inductive Crashes (H : σ → χ → (e : E) → Outcome (R e × σ)) : Prog E R α → σ → Prop
  | now {e : E} {k : R e → Prog E R α} {s : σ} {c : χ} : H s c e = .crash → Crashes H (.op e k) s
  | later {e : E} {k : R e → Prog E R α} {s s₁ : σ} {c : χ} {r : R e} :
      H s c e = .ok (r, s₁) → Crashes H (k r) s₁ → Crashes H (.op e k) s

/-- The program does not panic, and this is its only outcome. -/
def Yields (H : σ → χ → (e : E) → Outcome (R e × σ)) (x : Prog E R α) (s : σ) (a : α) (s' : σ) :
    Prop :=
  ¬ Crashes H x s ∧ ∀ b t, Ends H x s b t ↔ b = a ∧ t = s'

variable {H : σ → χ → (e : E) → Outcome (R e × σ)} {s s' s₁ : σ} {a b : α}

/-! ## 1. Panics -/

theorem not_crashes_pure : ¬ Crashes H (pure a : Prog E R α) s := fun h => by cases h

theorem crashes_op {e : E} {k : R e → Prog E R α} :
    Crashes H (.op e k) s ↔
      ∃ c, H s c e = .crash ∨ ∃ r s₁, H s c e = .ok (r, s₁) ∧ Crashes H (k r) s₁ := by
  constructor
  · intro h
    cases h with
    | now hh => exact ⟨_, .inl hh⟩
    | later hh h => exact ⟨_, .inr ⟨_, _, hh, h⟩⟩
  · rintro ⟨c, hh | ⟨r, s₁, hh, h⟩⟩
    · exact .now hh
    · exact .later hh h

/-- A panic is one of the first part, or of the second after the first has ended. -/
theorem crashes_bind {x : Prog E R β} {f : β → Prog E R α} :
    Crashes H (x >>= f) s ↔
      Crashes H x s ∨ ∃ b s₁, Ends H x s b s₁ ∧ Crashes H (f b) s₁ := by
  rw [Prog.bind_eq]
  induction x generalizing s with
  | ret b =>
    constructor
    · exact fun h => .inr ⟨b, s, ⟨[], .ret b s⟩, h⟩
    · rintro (h | ⟨b', s₁, ⟨tr, h⟩, hf⟩)
      · cases h
      · cases h
        exact hf
  | op e k ih =>
    have hbind : (Prog.op e k).bind f = .op e fun r => (k r).bind f := rfl
    rw [hbind, crashes_op, crashes_op]
    constructor
    · rintro ⟨c, hh | ⟨r, s₁, hh, h⟩⟩
      · exact .inl ⟨c, .inl hh⟩
      · rcases (ih r).mp h with h | ⟨b, s₂, ⟨tr, hb⟩, hf⟩
        · exact .inl ⟨c, .inr ⟨r, s₁, hh, h⟩⟩
        · exact .inr ⟨b, s₂, ⟨_, .op hh hb⟩, hf⟩
    · rintro (⟨c, hh | ⟨r, s₁, hh, h⟩⟩ | ⟨b, s₂, ⟨tr, hb⟩, hf⟩)
      · exact ⟨c, .inl hh⟩
      · exact ⟨c, .inr ⟨r, s₁, hh, (ih r).mpr (.inl h)⟩⟩
      · obtain ⟨c, r, s₁, tr', hh, hb, -⟩ := execs_op.mp hb
        exact ⟨c, .inr ⟨r, s₁, hh, (ih r).mpr (.inr ⟨b, s₂, ⟨tr', hb⟩, hf⟩)⟩⟩

/-- A panic after an operation whose result is determined. -/
theorem crashes_det [Inhabited χ] {e : E} {r : R e} {f : R e → Prog E R α}
    (hh : ∀ c, H s c e = .ok (r, s₁)) :
    Crashes H (Prog.perform e >>= f) s ↔ Crashes H (f r) s₁ := by
  constructor
  · intro h
    obtain ⟨c, hcrash | ⟨r', s₂, hok, h⟩⟩ := crashes_op.mp h
    · rw [hh] at hcrash
      cases hcrash
    · rw [hh] at hok
      cases hok
      exact h
  · exact fun h => .later (hh default) h

/-! ## 2. The outcome -/

theorem yields_pure : Yields H (pure a : Prog E R α) s a s :=
  ⟨not_crashes_pure, fun _ _ => ends_pure⟩

theorem yields_det [Inhabited χ] {e : E} {r : R e} {f : R e → Prog E R α}
    (hh : ∀ c, H s c e = .ok (r, s₁)) (hf : Yields H (f r) s₁ a s') :
    Yields H (Prog.perform e >>= f) s a s' :=
  ⟨fun h => hf.1 ((crashes_det hh).mp h), fun b t => (ends_det hh).trans (hf.2 b t)⟩

theorem yields_bind {x : Prog E R β} {f : β → Prog E R α} {b : β} (hx : Yields H x s b s₁)
    (hf : Yields H (f b) s₁ a s') : Yields H (x >>= f) s a s' := by
  constructor
  · intro h
    rcases crashes_bind.mp h with h | ⟨b', t, hb, h⟩
    · exact hx.1 h
    · obtain ⟨rfl, rfl⟩ := (hx.2 b' t).mp hb
      exact hf.1 h
  · intro a' t
    rw [ends_bind, ← hf.2]
    constructor
    · rintro ⟨b', t₁, hb, h⟩
      obtain ⟨rfl, rfl⟩ := (hx.2 b' t₁).mp hb
      exact h
    · exact fun h => ⟨b, s₁, (hx.2 b s₁).mpr ⟨rfl, rfl⟩, h⟩

theorem Yields.ends {x : Prog E R α} (h : Yields H x s a s') : Ends H x s a s' :=
  (h.2 a s').mpr ⟨rfl, rfl⟩

theorem Yields.unique {x : Prog E R α} {t : σ} (h : Yields H x s a s') (h' : Yields H x s b t) :
    b = a ∧ t = s' :=
  (h.2 b t).mp h'.ends

end Go
