import Mathlib.Data.List.Basic

/-!
# Stages that can stop a loop

A loop runs stages one after the other, each on what the one before has left, until one of
them leaves something that stops it. A stage is a relation: it may leave different things, or
nothing at all. `StageRun` is the list of what the stages leave that are run.

`StopsUnless goes`: a stage is run exactly if all stages before it have left something that
`goes` on. `StageRun.stopsUnless_iff`: that is so exactly if nothing that a stage leaves, other
than the last one, neither goes on nor stops the loop.
-/

namespace Go

variable {κ : Type} {stops : κ → Bool} {goes : κ → Prop} {rs : List (κ → κ → Prop)} {x y : κ}
  {ys : List κ}

/-- What the stages leave that are run, in order. -/
inductive StageRun (stops : κ → Bool) : List (κ → κ → Prop) → κ → List κ → Prop
  | done {x : κ} : StageRun stops [] x []
  | stop {r : κ → κ → Prop} {rs : List (κ → κ → Prop)} {x y : κ} :
      r x y → stops y = true → StageRun stops (r :: rs) x [y]
  | go {r : κ → κ → Prop} {rs : List (κ → κ → Prop)} {x y : κ} {ys : List κ} :
      r x y → stops y = false → StageRun stops rs y ys → StageRun stops (r :: rs) x (y :: ys)

theorem StageRun.length_le (h : StageRun stops rs x ys) : ys.length ≤ rs.length := by
  induction h with
  | done => exact Nat.le_refl 0
  | stop _ _ => exact Nat.succ_le_succ (Nat.zero_le _)
  | go _ _ _ ih => exact Nat.succ_le_succ ih

theorem StageRun.length_pos {r : κ → κ → Prop} (h : StageRun stops (r :: rs) x ys) :
    0 < ys.length := by
  cases h with
  | stop _ _ => exact Nat.one_pos
  | go _ _ _ => exact Nat.succ_pos _

/-- The stage after one that was run is run exactly if that one does not stop the loop. -/
theorem StageRun.next (h : StageRun stops rs x ys) {i : Nat} (hi : i + 1 < rs.length)
    (hy : ys[i]? = some y) : i + 1 < ys.length ↔ stops y = false := by
  induction h generalizing i with
  | done => cases hy
  | stop _ hstop =>
    cases i with
    | zero =>
      cases hy
      simp [hstop]
    | succ i => cases hy
  | go _ hgo hrest ih =>
    cases i with
    | zero =>
      cases hy
      obtain ⟨r', rs', rfl⟩ := List.exists_cons_of_length_pos (Nat.lt_of_succ_lt_succ hi)
      simpa [hgo] using hrest.length_pos
    | succ i =>
      rw [List.length_cons, Nat.succ_lt_succ_iff]
      exact ih (Nat.lt_of_succ_lt_succ hi) hy

/-- Of `n` stages, one is run exactly if all before it have been, and left what goes on. -/
def StopsUnless (goes : κ → Prop) (n : Nat) (ys : List κ) : Prop :=
  ∀ i < n, i < ys.length ↔ ∀ j < i, ∃ y, ys[j]? = some y ∧ goes y

/-- A stage is run exactly if no stage before it stops the loop. -/
theorem StageRun.stopsUnless_self (h : StageRun stops rs x ys) :
    StopsUnless (fun y => stops y = false) rs.length ys := by
  intro i hi
  constructor
  · intro hrun j hj
    have hlt : j < ys.length := by omega
    refine ⟨_, List.getElem?_eq_getElem hlt, ?_⟩
    exact (h.next (by omega) (List.getElem?_eq_getElem hlt)).mp (by omega)
  · intro hall
    cases i with
    | zero =>
      obtain ⟨r, rs', rfl⟩ := List.exists_cons_of_length_pos hi
      exact h.length_pos
    | succ i =>
      obtain ⟨y, hy, hgo⟩ := hall i (Nat.lt_succ_self i)
      exact (h.next hi hy).mpr hgo

theorem StageRun.stopsUnless_iff (h : StageRun stops rs x ys)
    (hgoes : ∀ y, goes y → stops y = false) :
    StopsUnless goes rs.length ys ↔
      ∀ i y, ys[i]? = some y → i + 1 < rs.length → stops y = false → goes y := by
  constructor
  · intro hun i y hy hi hgo
    obtain ⟨z, hz, hgoes⟩ := (hun (i + 1) hi).mp ((h.next hi hy).mpr hgo) i (Nat.lt_succ_self i)
    cases hy.symm.trans hz
    exact hgoes
  · intro hall i hi
    rw [h.stopsUnless_self i hi]
    refine forall₂_congr fun j hj => exists_congr fun y => and_congr_right fun hy => ?_
    exact ⟨hall j y hy (by omega), hgoes y⟩

/-- The loop ends with the first stage that leaves what does not go on, or with the last one
if there is none. -/
theorem StopsUnless.last {n : Nat} (h : StopsUnless goes n ys) (hle : ys.length ≤ n) :
    (∃ before y, ys = before ++ [y] ∧ (∀ z ∈ before, goes z) ∧ ¬ goes y) ∨
    ys.length = n ∧ ∀ y ∈ ys, goes y := by
  have hall : ∀ i < n, i < ys.length → ∀ y ∈ ys.take i, goes y := fun i hi hrun y hy => by
    obtain ⟨j, hj, hy⟩ := List.mem_take_iff_getElem.mp hy
    obtain ⟨z, hz, hgo⟩ := (h i hi).mp hrun j (by omega)
    rw [List.getElem?_eq_getElem (by omega), hy] at hz
    cases hz
    exact hgo
  by_cases hgo : ∀ y ∈ ys, goes y
  · refine .inr ⟨Nat.le_antisymm hle (Nat.le_of_not_lt fun hlt => ?_), hgo⟩
    refine Nat.lt_irrefl _ ((h _ hlt).mpr fun j hj => ?_)
    exact ⟨_, List.getElem?_eq_getElem hj, hgo _ (List.getElem_mem hj)⟩
  · have hne : ys ≠ [] := fun hnil => hgo (by simp [hnil])
    have hsplit := List.dropLast_append_getLast hne
    have hlen := List.length_pos_iff.mpr hne
    have hbefore := hall (ys.length - 1) (by omega) (by omega)
    rw [← List.dropLast_eq_take] at hbefore
    refine .inl ⟨_, _, hsplit.symm, hbefore, fun hlast => hgo fun y hy => ?_⟩
    rw [← hsplit] at hy
    rcases List.mem_append.mp hy with hy | hy
    · exact hbefore y hy
    · rw [List.mem_singleton.mp hy]
      exact hlast

end Go
