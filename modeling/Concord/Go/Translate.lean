import Concord.Go.Prog

/-!
# Programs over an interface

A program over the operations of an interface, each carried out by a program over other
operations. `translate_wp`: if every operation of the interface is carried out as its own
handler says, up to a relation between the handler's states and the ghost values, so is the
whole program.
-/

namespace Go

namespace Prog

variable {E E' : Type} {R : E → Type} {R' : E' → Type} {α β : Type}

/-- Every operation `e` of the program carried out by `f e`. -/
def translate (f : (e : E) → Prog E' R' (R e)) : Prog E R α → Prog E' R' α
  | ret a => ret a
  | op e k => f e >>= fun r => (k r).translate f

variable {f : (e : E) → Prog E' R' (R e)}

@[simp] theorem translate_pure (a : α) : (pure a : Prog E R α).translate f = pure a := rfl

@[simp] theorem translate_bind (x : Prog E R α) (g : α → Prog E R β) :
    (x >>= g).translate f = x.translate f >>= fun a => (g a).translate f := by
  rw [bind_eq]
  induction x with
  | ret a => rfl
  | op e k ih =>
    have hk : (fun r => ((k r).bind g).translate f) =
        fun r => (k r).translate f >>= fun a => (g a).translate f := funext ih
    rw [bind, translate, translate, hk, bind_assoc]

@[simp] theorem translate_ite {c : Prop} [Decidable c] (x y : Prog E R α) :
    (if c then x else y).translate f = if c then x.translate f else y.translate f := by
  split <;> rfl

theorem translate_allOps {P : E' → Prop} (hf : ∀ e, (f e).AllOps P) (x : Prog E R α) :
    (x.translate f).AllOps P := by
  induction x with
  | ret a => trivial
  | op e k ih => exact allOps_bind (hf e) ih

variable {γ σ χ : Type} {S : Rules E' R' γ} {H : σ → χ → (e : E) → Outcome (R e × σ)}
  {rel : σ → γ → Prop}

/-- The program ends as it does over the handler `H` alone. -/
theorem translate_wp (hS : S.Mono)
    (hf : ∀ e s g, rel s g →
      (f e).wp S g fun r g' => ∃ c s', H s c e = .ok (r, s') ∧ rel s' g')
    (x : Prog E R α) {s : σ} {g : γ} (hg : rel s g) :
    (x.translate f).wp S g fun a g' => ∃ s', Ends H x s a s' ∧ rel s' g' := by
  induction x generalizing s g with
  | ret a => exact ⟨s, ends_pure.mpr ⟨rfl, rfl⟩, hg⟩
  | op e k ih =>
    rw [translate, wp_bind]
    refine wp_mono hS ?_ (hf e s g hg)
    rintro r g₁ ⟨c, s₁, hh, hg₁⟩
    refine wp_mono hS ?_ (ih r hg₁)
    rintro a g' ⟨s', ⟨tr, hx⟩, hg'⟩
    exact ⟨s', ⟨_, .op hh hx⟩, hg'⟩

end Prog

end Go
