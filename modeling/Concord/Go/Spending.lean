import Concord.Go.Prog

/-!
# Tokens that operations spend

Rules over ghost values, extended by a token: an operation with a price needs a token that pays
it (`wp_spend`), and the goroutine has none after it. Code that performs no operation with a price
keeps its token (`wp_spending`). What the rules ask may depend on the token.
-/

namespace Go

namespace Prog

variable {E : Type} {R : E → Type} {α γ τ : Type}

/-- The rules `S`, with prices. -/
def Rules.spending (S : Option τ → Rules E R γ) (price : E → Option (τ → Prop)) :
    Rules E R (γ × Option τ) := fun e g Φ =>
  match price e with
  | none => S g.2 e g.1 fun r h => Φ r (h, g.2)
  | some pays => ∃ t, g.2 = some t ∧ pays t ∧ S g.2 e g.1 fun r h => Φ r (h, none)

variable {S : Option τ → Rules E R γ} {price : E → Option (τ → Prop)} {g : γ} {t : Option τ}

theorem Rules.spending_mono (hS : ∀ t, (S t).Mono) (price : E → Option (τ → Prop)) :
    (Rules.spending S price).Mono := by
  intro e g Φ Ψ h hΦ
  unfold spending at hΦ ⊢
  split
  · next hp =>
    rw [hp] at hΦ
    exact hS _ (fun r g' => h r (g', _)) hΦ
  · next pays hp =>
    rw [hp] at hΦ
    obtain ⟨t, ht, hpays, hΦ⟩ := hΦ
    exact ⟨t, ht, hpays, hS _ (fun r g' => h r (g', none)) hΦ⟩

/-- An operation as the rules `S` have it, and what happens to the token. -/
theorem Rules.spending_cases {e : E} {g : γ × Option τ} {Φ : R e → γ × Option τ → Prop}
    (h : Rules.spending S price e g Φ) :
    (price e = none ∧ S g.2 e g.1 fun r h => Φ r (h, g.2)) ∨
    ∃ pays t, price e = some pays ∧ g.2 = some t ∧ pays t ∧ S g.2 e g.1 fun r h => Φ r (h, none) := by
  unfold spending at h
  split at h
  · next hp => exact .inl ⟨hp, h⟩
  · next pays hp =>
    obtain ⟨t, ht, hpays, h⟩ := h
    exact .inr ⟨pays, t, hp, ht, hpays, h⟩

/-- Whatever its price, an operation is one that the rules `S` admit. -/
theorem Rules.spending_base {e : E} {g : γ × Option τ} {Φ : R e → γ × Option τ → Prop}
    (h : Rules.spending S price e g Φ) : ∃ Ψ, S g.2 e g.1 Ψ := by
  rcases spending_cases h with ⟨-, h⟩ | ⟨pays, t, -, -, -, h⟩
  · exact ⟨_, h⟩
  · exact ⟨_, h⟩

/-- Code without a price keeps the token. -/
theorem wp_spending {x : Prog E R α} {Q : α → γ × Option τ → Prop} (hS : (S t).Mono)
    (hx : x.AllOps fun e => price e = none) (hwp : x.wp (S t) g fun a g' => Q a (g', t)) :
    x.wp (Rules.spending S price) (g, t) Q := by
  induction x generalizing g with
  | ret a => exact hwp
  | op e k ih =>
    change Rules.spending S price e (g, t) _
    rw [Rules.spending, hx.1]
    exact hS (fun r g' hr => ih r (hx.2 r) hr) hwp

/-- A token that pays is spent. -/
theorem wp_spend {e : E} {pays : τ → Prop} {t : τ} {Q : R e → γ × Option τ → Prop}
    (hp : price e = some pays) (ht : pays t)
    (hwp : (perform e : Prog E R (R e)).wp (S (some t)) g fun r g' => Q r (g', none)) :
    (perform e : Prog E R (R e)).wp (Rules.spending S price) (g, some t) Q := by
  change Rules.spending S price e (g, some t) _
  rw [Rules.spending, hp]
  exact ⟨t, rfl, ht, hwp⟩

end Prog

end Go
