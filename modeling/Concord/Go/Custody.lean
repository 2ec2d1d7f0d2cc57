import Mathlib.Data.List.ReduceOption
import Mathlib.Data.List.Perm.Basic

/-!
# Obligations in custody

Obligations come in, are held by goroutines, pass from one goroutine to another through a slot
of their shared state, and are discharged. `Custody`: none is lost and none is doubled. Each
lemma is one step of that kind.
-/

namespace Go

variable {τ : Type}

/-- Every obligation that came is held by one goroutine, is in the slot, or is discharged. -/
def Custody (came : List τ) (held : List (Option τ)) (slot : Option τ) (done : List τ) : Prop :=
  came.Perm (held.reduceOption ++ (slot.toList ++ done))

theorem reduceOption_set_perm {held : List (Option τ)} {i : Nat} {a : Option τ}
    (hi : held[i]? = some a) (b : Option τ) :
    (a.toList ++ (held.set i b).reduceOption).Perm (b.toList ++ held.reduceOption) := by
  induction held generalizing i with
  | nil => simp at hi
  | cons x held ih =>
    cases i with
    | zero =>
      simp only [List.getElem?_cons_zero, Option.some.injEq] at hi
      subst hi
      cases x <;> cases b <;> simp [List.reduceOption_cons_of_none, List.reduceOption_cons_of_some]
      exact .swap _ _ _
    | succ i =>
      have h := ih (by simpa using hi)
      cases x with
      | none => simpa [List.reduceOption_cons_of_none] using h
      | some x =>
        rw [List.set_cons_succ, List.reduceOption_cons_of_some, List.reduceOption_cons_of_some]
        exact List.perm_middle.trans ((h.cons x).trans List.perm_middle.symm)

namespace Custody

variable {came : List τ} {held : List (Option τ)} {slot : Option τ} {done : List τ} {i : Nat} {t : τ}

theorem start : Custody ([] : List τ) [] none [] := .nil

/-- A goroutine is started with a new obligation. -/
theorem come (h : Custody came held slot done) (t : τ) :
    Custody (came ++ [t]) (held ++ [some t]) slot done := by
  unfold Custody at h ⊢
  rw [List.reduceOption_append, List.append_assoc]
  have hmid : (held.reduceOption ++ ([t] ++ (slot.toList ++ done))).Perm
      ([t] ++ (held.reduceOption ++ (slot.toList ++ done))) := List.perm_append_comm_assoc _ _ _
  exact (List.perm_append_comm.trans (h.append_left [t])).trans hmid.symm

/-- A goroutine is started without an obligation. -/
theorem idle (h : Custody came held slot done) : Custody came (held ++ [none]) slot done := by
  unfold Custody at h ⊢
  rw [List.reduceOption_append, List.append_assoc]
  exact h

/-- A goroutine without an obligation takes a new one. -/
theorem renew (h : Custody came held slot done) (hi : held[i]? = some none) (t : τ) :
    Custody (came ++ [t]) (held.set i (some t)) slot done := by
  have hset : (held.set i (some t)).reduceOption.Perm (t :: held.reduceOption) :=
    reduceOption_set_perm hi (some t)
  exact (List.perm_append_singleton t came).trans ((h.cons t).trans (hset.symm.append_right _))

/-- An obligation leaves a goroutine. -/
theorem give (h : Custody came held slot done) (hi : held[i]? = some (some t)) :
    came.Perm ((held.set i none).reduceOption ++ (t :: (slot.toList ++ done))) := by
  have hset := reduceOption_set_perm hi none
  exact h.trans ((hset.symm.append_right _).trans List.perm_middle.symm)

/-- A goroutine puts its obligation into the slot. -/
theorem park (h : Custody came held none done) (hi : held[i]? = some (some t)) :
    Custody came (held.set i none) (some t) done := h.give hi

/-- A goroutine is started with the obligation in the slot. -/
theorem take (h : Custody came held (some t) done) : Custody came (held ++ [some t]) none done := by
  unfold Custody at h ⊢
  rw [List.reduceOption_append, List.append_assoc]
  exact h

/-- A goroutine discharges its obligation. -/
theorem discharge (h : Custody came held slot done) (hi : held[i]? = some (some t)) :
    Custody came (held.set i none) slot (done ++ [t]) := by
  refine (h.give hi).trans (List.Perm.append_left _ ?_)
  rw [← List.append_assoc]
  exact (List.perm_append_singleton t (slot.toList ++ done)).symm

/-- What is discharged came in. -/
theorem length_done_le (h : Custody came held slot done) : done.length ≤ came.length := by
  rw [h.length_eq]
  simp only [List.length_append]
  omega

end Custody

end Go
