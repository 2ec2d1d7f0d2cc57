import Concord.Go.Prog

/-!
# Programs in a given world

A stream of choices resolves everything a program leaves open. In such a world the program has
one run: `exec` is where it ends, `seen` what an observer of its operations sees of it, also where
it blocks or panics on the way.

`seen_bind`: a program in two parts. `execs_of_exec` and `exec_of_execs`: the runs in some
world are all runs.
`First`: what is seen first, and what holds where nothing has been seen so far.
-/

namespace Go

variable {E : Type} {R : E → Type} {σ χ α β ω : Type}

/-- The stream without its first element. -/
def later (cs : Nat → χ) : Nat → χ := fun n => cs (n + 1)

/-- The stream with these elements before it. -/
def prepend : List χ → (Nat → χ) → Nat → χ
  | [], cs => cs
  | c :: l, cs => fun
    | 0 => c
    | n + 1 => prepend l cs n

theorem later_prepend (c : χ) (l : List χ) (cs : Nat → χ) :
    later (prepend (c :: l) cs) = prepend l cs := rfl

namespace Prog

/-- The run of the program in the world `cs`: its result, the rest of the world, the state. -/
def exec (H : σ → χ → (e : E) → Outcome (R e × σ)) :
    Prog E R α → (Nat → χ) → σ → Option (α × (Nat → χ) × σ)
  | .ret a, cs, s => some (a, cs, s)
  | .op e k, cs, s =>
    match H s (cs 0) e with
    | .ok (r, s') => (k r).exec H (later cs) s'
    | _ => none

/-- What is seen of it. -/
def seen (H : σ → χ → (e : E) → Outcome (R e × σ)) (obs : σ → E → List ω) :
    Prog E R α → (Nat → χ) → σ → List ω
  | .ret _, _, _ => []
  | .op e k, cs, s =>
    match H s (cs 0) e with
    | .ok (r, s') => obs s e ++ (k r).seen H obs (later cs) s'
    | _ => []

variable {H : σ → χ → (e : E) → Outcome (R e × σ)} {obs : σ → E → List ω} {cs cs' : Nat → χ}
  {s s' : σ} {a : α}

/-! ## 1. Parts -/

theorem exec_bind {x : Prog E R β} {f : β → Prog E R α} :
    (x >>= f).exec H cs s = (x.exec H cs s).bind fun r => (f r.1).exec H r.2.1 r.2.2 := by
  rw [bind_eq]
  induction x generalizing cs s with
  | ret b => rfl
  | op e k ih =>
    show (Prog.op e fun r => (k r).bind f).exec H cs s = _
    rw [exec, exec]
    cases H s (cs 0) e with
    | ok r => exact ih r.1
    | block => rfl
    | crash => rfl

/-- What is seen after the first part, if it ends. -/
def seenAfter (H : σ → χ → (e : E) → Outcome (R e × σ)) (obs : σ → E → List ω)
    (f : β → Prog E R α) : Option (β × (Nat → χ) × σ) → List ω
  | none => []
  | some (b, cs, s) => (f b).seen H obs cs s

theorem seen_bind {x : Prog E R β} {f : β → Prog E R α} :
    (x >>= f).seen H obs cs s = x.seen H obs cs s ++ seenAfter H obs f (x.exec H cs s) := by
  rw [bind_eq]
  induction x generalizing cs s with
  | ret b => rfl
  | op e k ih =>
    show (Prog.op e fun r => (k r).bind f).seen H obs cs s = _
    rw [seen, seen, exec]
    cases H s (cs 0) e with
    | ok r =>
      simp only
      rw [ih, List.append_assoc]
    | block => rfl
    | crash => rfl

/-- An operation whose result is determined. -/
theorem seen_det {e : E} {r : R e} {f : R e → Prog E R α} (hh : ∀ c, H s c e = .ok (r, s')) :
    (perform e >>= f).seen H obs cs s = obs s e ++ (f r).seen H obs (later cs) s' := by
  show (Prog.op e f).seen H obs cs s = _
  rw [seen, hh]

theorem seen_stuck {e : E} {f : R e → Prog E R α}
    (hh : ∀ c, H s c e = .block ∨ H s c e = .crash) : (perform e >>= f).seen H obs cs s = [] := by
  show (Prog.op e f).seen H obs cs s = _
  rw [seen]
  rcases hh (cs 0) with h | h
  · rw [h]
  · rw [h]

/-- Nothing is seen of operations that are not observed. -/
theorem seen_of_allOps {P : E → Prop} (hP : ∀ e, P e → ∀ s, obs s e = []) {x : Prog E R α}
    (hx : x.AllOps P) : x.seen H obs cs s = [] := by
  induction x generalizing cs s with
  | ret a => rfl
  | op e k ih =>
    rw [seen]
    cases H s (cs 0) e with
    | ok r =>
      simp only
      rw [hP e hx.1, ih r.1 (hx.2 r.1)]
      rfl
    | block => rfl
    | crash => rfl

/-! ## 2. All runs -/

theorem execs_of_exec {x : Prog E R α} (h : x.exec H cs s = some (a, cs', s')) :
    ∃ tr, Execs H x s tr a s' := by
  induction x generalizing cs s with
  | ret b =>
    cases h
    exact ⟨[], .ret _ _⟩
  | op e k ih =>
    rw [exec] at h
    split at h
    · next r s₁ hh =>
      obtain ⟨tr, h⟩ := ih r h
      exact ⟨_, .op hh h⟩
    · cases h

/-- A run is the run in a world that begins with its choices. -/
theorem exec_of_execs {x : Prog E R α} {tr : List ((e : E) × R e)} (h : Execs H x s tr a s') :
    ∃ l, ∀ cs, x.exec H (prepend l cs) s = some (a, cs, s') := by
  induction h with
  | ret a s => exact ⟨[], fun _ => rfl⟩
  | @op e k s s₁ s' c r tr a hh h ih =>
    obtain ⟨l, hl⟩ := ih
    refine ⟨c :: l, fun cs => ?_⟩
    rw [exec]
    simp only [show prepend (c :: l) cs 0 = c from rfl, hh, later_prepend]
    exact hl cs

/-- Two continuations look the same after `x` exactly if they do from wherever `x` can end. -/
theorem seen_bind_congr {x : Prog E R β} {f g : β → Prog E R α} :
    (∀ cs, (x >>= f).seen H obs cs s = (x >>= g).seen H obs cs s) ↔
      ∀ b s', Ends H x s b s' → ∀ cs, (f b).seen H obs cs s' = (g b).seen H obs cs s' := by
  constructor
  · rintro h b s' ⟨tr, hx⟩ cs
    obtain ⟨l, hl⟩ := exec_of_execs hx
    have heq := h (prepend l cs)
    rw [seen_bind, seen_bind, hl cs] at heq
    exact List.append_cancel_left heq
  · intro h cs
    rw [seen_bind, seen_bind]
    cases hexec : x.exec H cs s with
    | none => rfl
    | some r =>
      obtain ⟨b, cs', s'⟩ := r
      exact congrArg _ (h b s' (execs_of_exec hexec) cs')

/-! ## 3. What is seen first -/

/-- In every world, what is seen first is as `P` says; where nothing is seen and the program
ends, `Q` holds of the result and the state. In some world something is seen or the program
ends. -/
structure First (H : σ → χ → (e : E) → Outcome (R e × σ)) (obs : σ → E → List ω) (P : ω → Prop)
    (x : Prog E R α) (s : σ) (Q : α → σ → Prop) : Prop where
  every : ∀ cs, (x.seen H obs cs s = [] ∧
      ∀ a cs' s', x.exec H cs s = some (a, cs', s') → Q a s') ∨
    ∃ y ∈ (x.seen H obs cs s).head?, P y
  some : (∃ cs, x.seen H obs cs s ≠ []) ∨ ∃ a s', Ends H x s a s'

variable {P : ω → Prop} {Q : α → σ → Prop}

theorem first_pure (h : Q a s) : First H obs P (pure a : Prog E R α) s Q where
  every _ := .inl ⟨rfl, fun b cs' s' hb => by
    cases hb
    exact h⟩
  some := .inr ⟨a, s, [], .ret a s⟩

theorem first_bind [Inhabited χ] {x : Prog E R β} {f : β → Prog E R α} {Q' : β → σ → Prop}
    (hx : First H obs P x s Q') (hf : ∀ b s₁, Q' b s₁ → First H obs P (f b) s₁ Q) :
    First H obs P (x >>= f) s Q := by
  constructor
  · intro cs
    rw [seen_bind, exec_bind]
    rcases hx.every cs with ⟨hnone, hQ'⟩ | ⟨y, hy, hP⟩
    · rw [hnone, List.nil_append]
      cases hexec : x.exec H cs s with
      | none => exact .inl ⟨rfl, fun _ _ _ h => by cases h⟩
      | some r =>
        obtain ⟨b, cs₁, s₁⟩ := r
        exact (hf b s₁ (hQ' b cs₁ s₁ hexec)).every cs₁
    · refine .inr ⟨y, ?_, hP⟩
      rw [List.head?_append]
      rw [Option.mem_def] at hy ⊢
      rw [hy]
      rfl
  · have hprefix : ∀ cs, x.seen H obs cs s ≠ [] → (x >>= f).seen H obs cs s ≠ [] := by
      intro cs h hnil
      rw [seen_bind] at hnil
      exact h (List.append_eq_nil_iff.mp hnil).1
    rcases hx.some with ⟨cs, h⟩ | ⟨b, s₁, tr, hb⟩
    · exact .inl ⟨cs, hprefix cs h⟩
    · obtain ⟨l, hl⟩ := exec_of_execs hb
      rcases hx.every (prepend l fun _ => default) with ⟨-, hQ'⟩ | ⟨y, hy, -⟩
      · rcases (hf b s₁ (hQ' b _ s₁ (hl _))).some with ⟨cs, h⟩ | ⟨a, s', ha⟩
        · refine .inl ⟨prepend l cs, fun hnil => h ?_⟩
          rw [seen_bind, hl cs] at hnil
          exact (List.append_eq_nil_iff.mp hnil).2
        · exact .inr ⟨a, s', ends_bind.mpr ⟨b, s₁, ⟨tr, hb⟩, ha⟩⟩
      · refine .inl ⟨_, hprefix (prepend l fun _ => default) fun hnil => ?_⟩
        rw [hnil] at hy
        cases hy

/-- Nothing is seen of this part; it can end, and every run of it ends with `Q`. -/
theorem first_of_allOps {S : E → Prop} (hS : ∀ e, S e → ∀ s, obs s e = []) {x : Prog E R α}
    (hx : x.AllOps S) (hsome : ∃ tr a s', Execs H x s tr a s')
    (hQ : ∀ tr a s', Execs H x s tr a s' → Q a s') : First H obs P x s Q where
  every _ := .inl ⟨seen_of_allOps hS hx, fun _ _ _ h =>
    (execs_of_exec h).elim fun tr h => hQ tr _ _ h⟩
  some := by
    obtain ⟨tr, a, s', h⟩ := hsome
    exact .inr ⟨a, s', tr, h⟩

/-- The operation is observed. -/
theorem first_op [Inhabited χ] {e : E} {r : R e} {f : R e → Prog E R α} {y : ω}
    (hh : ∀ c, H s c e = .ok (r, s')) (hobs : obs s e = [y]) (hP : P y) :
    First H obs P (perform e >>= f) s Q := by
  have hseen : ∀ cs, (perform e >>= f).seen H obs cs s = y :: (f r).seen H obs (later cs) s' := by
    intro cs
    rw [seen_det hh, hobs]
    rfl
  refine ⟨fun cs => .inr ⟨y, ?_, hP⟩, .inl ⟨fun _ => default, ?_⟩⟩
  · rw [hseen]
    exact rfl
  · rw [hseen]
    exact List.cons_ne_nil _ _

/-- Two programs that look the same have the same first observation; `Q` is false, so there is
one. -/
theorem first_unique [Inhabited χ] {x y : Prog E R α} {P' : ω → Prop}
    (hx : First H obs P x s fun _ _ => False) (hy : First H obs P' y s fun _ _ => False)
    (h : ∀ cs, x.seen H obs cs s = y.seen H obs cs s) : ∃ o, P o ∧ P' o := by
  have hne : ∃ cs, x.seen H obs cs s ≠ [] := by
    rcases hx.some with h | ⟨a, s', tr, ha⟩
    · exact h
    · obtain ⟨l, hl⟩ := exec_of_execs ha
      refine ⟨prepend l fun _ => default, fun hnil => ?_⟩
      rcases hx.every (prepend l fun _ => default) with ⟨-, hfalse⟩ | ⟨o, ho, -⟩
      · exact hfalse a _ s' (hl _)
      · rw [hnil] at ho
        cases ho
  obtain ⟨cs, hcs⟩ := hne
  rcases hx.every cs with ⟨hnil, -⟩ | ⟨o, ho, hP⟩
  · exact absurd hnil hcs
  · rw [h cs] at ho hcs
    rcases hy.every cs with ⟨hnil, -⟩ | ⟨o', ho', hP'⟩
    · exact absurd hnil hcs
    · cases ho.symm.trans ho'
      exact ⟨o, hP, hP'⟩

end Prog

end Go
