import Concord.Go.Prog

/-!
# What a goroutine has done

The log of a run holds the operations of all goroutines. `own` takes out those of one,
and `Machine.step_leads` says that every step takes a goroutine further on a way through the
program it was started with. What is true of every way through a program is therefore true
of a goroutine in every run, whatever the others do.
-/

namespace Go

/-! ## 1. Ways through a program -/

namespace Prog

variable {E : Type} {R : E → Type} {α β : Type}

/-- The program performs `tr`, with these results, and goes on as the second one. -/
inductive Leads : Prog E R α → List ((e : E) × R e) → Prog E R α → Prop
  | nil (x : Prog E R α) : Leads x [] x
  | op {e : E} {k : R e → Prog E R α} {r : R e} {tr : List ((e : E) × R e)} {t : Prog E R α} :
      Leads (k r) tr t → Leads (.op e k) (⟨e, r⟩ :: tr) t

variable {x t : Prog E R α} {tr tr' : List ((e : E) × R e)}

theorem leads_ret {a : α} : (ret a : Prog E R α).Leads tr t ↔ tr = [] ∧ t = .ret a := by
  constructor
  · intro h
    cases h
    exact ⟨rfl, rfl⟩
  · rintro ⟨rfl, rfl⟩
    exact .nil _

theorem leads_op {e : E} {k : R e → Prog E R α} :
    (op e k).Leads tr t ↔ tr = [] ∧ t = .op e k ∨
      ∃ r tr', tr = ⟨e, r⟩ :: tr' ∧ (k r).Leads tr' t := by
  constructor
  · intro h
    cases h with
    | nil => exact .inl ⟨rfl, rfl⟩
    | op h => exact .inr ⟨_, _, rfl, h⟩
  · rintro (⟨rfl, rfl⟩ | ⟨r, tr', rfl, h⟩)
    · exact .nil _
    · exact .op h

theorem leads_perform {e : E} {f : R e → Prog E R α} :
    (perform e >>= f).Leads tr t ↔ tr = [] ∧ t = (perform e >>= f) ∨
      ∃ r tr', tr = ⟨e, r⟩ :: tr' ∧ (f r).Leads tr' t :=
  leads_op

/-- A way to the end performs the first operation. -/
theorem leads_perform_ret {e : E} {f : R e → Prog E R α} {a : α}
    (h : (perform e >>= f).Leads tr (.ret a)) :
    ∃ r tr', tr = ⟨e, r⟩ :: tr' ∧ (f r).Leads tr' (.ret a) := by
  rcases leads_perform.mp h with ⟨-, heq⟩ | h
  · cases heq
  · exact h

theorem Leads.append {u : Prog E R α} (h : x.Leads tr t) (h' : t.Leads tr' u) :
    x.Leads (tr ++ tr') u := by
  induction h with
  | nil x => exact h'
  | op _ ih => exact .op (ih h')

/-- One more operation. -/
theorem Leads.snoc {e : E} {k : R e → Prog E R α} (h : x.Leads tr (.op e k)) (r : R e) :
    x.Leads (tr ++ [⟨e, r⟩]) (k r) :=
  h.append (.op (.nil _))

/-- The operations and their results determine what is left. -/
theorem Leads.unique {u : Prog E R α} (h : x.Leads tr t) (h' : x.Leads tr u) : u = t := by
  induction h with
  | nil x =>
    cases h'
    rfl
  | op _ ih =>
    cases h' with
    | op h' => exact ih h'

theorem Leads.bind {x t : Prog E R β} (h : x.Leads tr t) (f : β → Prog E R α) :
    (x >>= f).Leads tr (t >>= f) := by
  induction h with
  | nil x => exact .nil _
  | op _ ih => exact .op ih

/-- The way leads through the first part only, or through all of it and into the second. -/
theorem leads_bind {x : Prog E R β} {f : β → Prog E R α} (h : (x >>= f).Leads tr t) :
    (∃ x', x.Leads tr x' ∧ t = x' >>= f) ∨
      ∃ tr₁ b tr₂, tr = tr₁ ++ tr₂ ∧ x.Leads tr₁ (.ret b) ∧ (f b).Leads tr₂ t := by
  rw [bind_eq] at h
  induction x generalizing tr with
  | ret b => exact .inr ⟨[], b, tr, rfl, .nil _, h⟩
  | op e k ih =>
    rcases leads_op.mp h with ⟨rfl, rfl⟩ | ⟨r, tr', rfl, hrest⟩
    · exact .inl ⟨.op e k, .nil _, rfl⟩
    · rcases ih r hrest with ⟨x', hx, rfl⟩ | ⟨tr₁, b, tr₂, rfl, hx, hf⟩
      · exact .inl ⟨x', .op hx, rfl⟩
      · exact .inr ⟨_, b, tr₂, rfl, .op hx, hf⟩

theorem Leads.allOps {P : E → Prop} (h : x.Leads tr t) (hx : x.AllOps P) :
    (∀ y ∈ tr, P y.1) ∧ t.AllOps P := by
  induction h with
  | nil x => exact ⟨fun y hy => absurd hy List.not_mem_nil, hx⟩
  | op _ ih =>
    obtain ⟨htr, ht⟩ := ih (hx.2 _)
    refine ⟨fun y hy => ?_, ht⟩
    rcases List.mem_cons.mp hy with rfl | hy
    · exact hx.1
    · exact htr y hy

/-- A first part whose operations are known. -/
theorem leads_bind_allOps {P : E → Prop} {x : Prog E R β} {f : β → Prog E R α} (hx : x.AllOps P)
    (h : (x >>= f).Leads tr t) :
    (∀ y ∈ tr, P y.1) ∨ ∃ tr₁ b tr₂, tr = tr₁ ++ tr₂ ∧ (∀ y ∈ tr₁, P y.1) ∧
      x.Leads tr₁ (.ret b) ∧ (f b).Leads tr₂ t := by
  rcases leads_bind h with ⟨x', hx', -⟩ | ⟨tr₁, b, tr₂, htr, hx₁, hf⟩
  · exact .inl (hx'.allOps hx).1
  · exact .inr ⟨tr₁, b, tr₂, htr, (hx₁.allOps hx).1, hx₁, hf⟩

/-- At an operation that the first part has not, the first part is over. -/
theorem leads_bind_op {P : E → Prop} {x : Prog E R β} {f : β → Prog E R α} (hx : x.AllOps P) {e : E}
    {k : R e → Prog E R α} (he : ¬ P e) (h : (x >>= f).Leads tr (.op e k)) :
    ∃ tr₁ b tr₂, tr = tr₁ ++ tr₂ ∧ (∀ y ∈ tr₁, P y.1) ∧ x.Leads tr₁ (.ret b) ∧
      (f b).Leads tr₂ (.op e k) := by
  rcases leads_bind h with ⟨x', hx', heq⟩ | ⟨tr₁, b, tr₂, htr, hx₁, hf⟩
  · obtain ⟨htr, hops⟩ := hx'.allOps hx
    cases x' with
    | ret b => exact ⟨tr, b, [], (List.append_nil _).symm, htr, hx', heq ▸ .nil _⟩
    | op e' k' =>
      cases heq
      exact absurd hops.1 he
  · exact ⟨tr₁, b, tr₂, htr, (hx₁.allOps hx).1, hx₁, hf⟩

/-- A way to the end leads through both parts. -/
theorem leads_bind_ret {x : Prog E R β} {f : β → Prog E R α} {a : α}
    (h : (x >>= f).Leads tr (.ret a)) :
    ∃ tr₁ b tr₂, tr = tr₁ ++ tr₂ ∧ x.Leads tr₁ (.ret b) ∧ (f b).Leads tr₂ (.ret a) := by
  rcases leads_bind h with ⟨x', hx', heq⟩ | h
  · cases x' with
    | ret b => exact ⟨tr, b, [], (List.append_nil _).symm, hx', heq ▸ .nil _⟩
    | op e k => cases heq
  · exact h

/-- Follows the program along `tr`; `none` if that is not a way through it. -/
def follow [DecidableEq E] : Prog E R α → List ((e : E) × R e) → Option (Prog E R α)
  | x, [] => some x
  | .ret _, _ :: _ => none
  | .op e k, ⟨e', r⟩ :: tr => if h : e' = e then (k (h ▸ r)).follow tr else none

theorem leads_of_follow [DecidableEq E] (h : x.follow tr = some t) : x.Leads tr t := by
  induction tr generalizing x with
  | nil =>
    cases x <;> cases h
    · exact .nil _
    · exact .nil _
  | cons y tr ih =>
    cases x with
    | ret a => cases h
    | op e k =>
      obtain ⟨e', r⟩ := y
      rw [follow] at h
      split at h
      · next heq =>
        subst heq
        exact .op (ih h)
      · cases h

/-- The operation the program is about to perform. -/
def next : Prog E R α → Option E
  | .ret _ => none
  | .op e _ => some e

theorem AllOps.next {P : E → Prop} (hx : x.AllOps P) {e : E} (he : x.next = some e) : P e := by
  cases x with
  | ret a => cases he
  | op e' k =>
    cases he
    exact hx.1

/-- What a program that is over has returned. -/
def returned : Prog E R α → Option α
  | .ret a => some a
  | .op _ _ => none

theorem leads_of_returned [DecidableEq E] {a : α} (h : (x.follow tr).bind returned = some a) :
    x.Leads tr (.ret a) := by
  obtain ⟨t, ht, hret⟩ := Option.bind_eq_some_iff.mp h
  cases t with
  | ret b =>
    cases hret
    exact leads_of_follow ht
  | op e k => cases hret

end Prog

/-! ## 2. The operations of one goroutine -/

section Own

variable {E : Type} {R : E → Type} {σ χ ε : Type}

/-- The entry as an operation of goroutine `i`. -/
def Entry.by? (i : Nat) : Entry E R ε → Option ((e : E) × R e)
  | .act j e r => if j = i then some ⟨e, r⟩ else none
  | .env _ => none

/-- The operations of goroutine `i`. -/
def own (i : Nat) (log : List (Entry E R ε)) : List ((e : E) × R e) := log.filterMap (Entry.by? i)

theorem own_append (i : Nat) (log log' : List (Entry E R ε)) :
    own i (log ++ log') = own i log ++ own i log' := List.filterMap_append

theorem own_cons_self (i : Nat) (e : E) (r : R e) (log : List (Entry E R ε)) :
    own i (.act i e r :: log) = ⟨e, r⟩ :: own i log := by
  simp [own, Entry.by?]

theorem own_snoc_self (i : Nat) (log : List (Entry E R ε)) (e : E) (r : R e) :
    own i (log ++ [.act i e r]) = own i log ++ [⟨e, r⟩] := by
  simp [own, Entry.by?]

theorem own_snoc_ne {i j : Nat} (hij : j ≠ i) (log : List (Entry E R ε)) (e : E) (r : R e) :
    own i (log ++ [.act j e r]) = own i log := by
  simp [own, Entry.by?, hij]

theorem own_snoc_env (i : Nat) (log : List (Entry E R ε)) (a : ε) :
    own i (log ++ [.env a]) = own i log := by
  simp [own, Entry.by?]

theorem Entry.by?_eq_some {i : Nat} {x : Entry E R ε} {y : (e : E) × R e} :
    x.by? i = some y ↔ x = .act i y.1 y.2 := by
  constructor
  · intro h
    unfold Entry.by? at h
    split at h
    · split at h
      · next hij =>
        cases h
        rw [hij]
      · cases h
    · cases h
  · rintro rfl
    exact if_pos rfl

theorem mem_own {i : Nat} {log : List (Entry E R ε)} {e : E} {r : R e} :
    ⟨e, r⟩ ∈ own i log ↔ Entry.act i e r ∈ log := by
  simp only [own, List.mem_filterMap, Entry.by?_eq_some]
  constructor
  · rintro ⟨x, hx, rfl⟩
    exact hx
  · intro h
    exact ⟨_, h, rfl⟩

/-- A goroutine that has not been started has done nothing. -/
theorem own_eq_nil {s : Sys E R σ ε} (h : Machine.TidsOk s) {i : Nat} (hi : s.threads.length ≤ i) :
    own i s.log = [] := by
  refine List.eq_nil_iff_forall_not_mem.mpr fun y hy => ?_
  have := h i y.1 y.2 (mem_own.mp hy)
  omega

end Own

/-! ## 3. Runs -/

namespace Machine

variable {E : Type} {R : E → Type} {σ χ ε : Type} {M : Machine E R σ χ ε} {s s' : Sys E R σ ε}

/-- What every allowed step keeps, every run of allowed steps keeps. -/
theorem run_invariant_of_allowed {A : Sys E R σ ε → Event χ ε → Prop} {I : Sys E R σ ε → Prop}
    (hstep : ∀ {s ev s'}, I s → A s ev → M.step s ev = .ok s' → I s') {evs : List (Event χ ε)}
    (h : I s) (ha : M.EachAllowed A s evs) (hs : M.run s evs = .ok s') : I s' := by
  induction evs generalizing s with
  | nil =>
    cases hs
    exact h
  | cons ev evs ih =>
    unfold run at hs
    split at hs
    · next s₁ h₁ => exact ih (hstep h ha.1 h₁) (ha.tail h₁) hs
    · cases hs
    · cases hs

/-- What every step keeps, every run keeps. -/
theorem run_invariant {I : Sys E R σ ε → Prop}
    (hstep : ∀ {s ev s'}, I s → M.step s ev = .ok s' → I s') {evs : List (Event χ ε)} (h : I s)
    (hs : M.run s evs = .ok s') : I s' := by
  have hall : M.EachAllowed (fun _ _ => True) s evs :=
    eachAllowed_of_forall (fun _ _ => trivial) s evs
  exact run_invariant_of_allowed (fun h _ hs => hstep h hs) h hall hs

theorem run_append {s₁ : Sys E R σ ε} {evs evs' : List (Event χ ε)} (h : M.run s evs = .ok s₁)
    (h' : M.run s₁ evs' = .ok s') : M.run s (evs ++ evs') = .ok s' := by
  induction evs generalizing s with
  | nil =>
    cases h
    exact h'
  | cons ev evs ih =>
    unfold run at h
    split at h
    · next s₂ h₂ =>
      rw [List.cons_append, run, h₂]
      exact ih h
    · cases h
    · cases h

theorem run_snoc {s₁ : Sys E R σ ε} {evs : List (Event χ ε)} {ev : Event χ ε}
    (h : M.run s evs = .ok s₁) (h' : M.step s₁ ev = .ok s') : M.run s (evs ++ [ev]) = .ok s' := by
  refine run_append h ?_
  rw [run, h']
  rfl

/-- What the step adds to the log: an operation with the result that it has now. -/
theorem step_entry {ev : Event χ ε} (h : M.step s ev = .ok s') :
    ∃ x, s'.log = s.log ++ [x] ∧
      ∀ i e r, x = .act i e r → ∃ c st, M.handle s.state c e = .ok (r, st) := by
  rcases step_ok h with ⟨i, c, e, k, r, st, -, -, hh, rfl⟩ | ⟨a, st, -, -, rfl⟩ |
    ⟨a, st, t, -, -, rfl⟩
  · refine ⟨_, rfl, fun j e' r' heq => ?_⟩
    cases heq
    exact ⟨c, st, hh⟩
  · exact ⟨_, rfl, fun _ _ _ heq => by cases heq⟩
  · exact ⟨_, rfl, fun _ _ _ heq => by cases heq⟩

/-- The log only grows. -/
theorem step_log {ev : Event χ ε} (h : M.step s ev = .ok s') : ∃ x, s'.log = s.log ++ [x] := by
  obtain ⟨x, hx, -⟩ := step_entry h
  exact ⟨x, hx⟩

theorem run_log {evs : List (Event χ ε)} (h : M.run s evs = .ok s') :
    ∃ xs, s'.log = s.log ++ xs := by
  refine run_invariant (M := M) (I := fun s' => ∃ xs, s'.log = s.log ++ xs) ?_
    ⟨[], (List.append_nil _).symm⟩ h
  rintro s₁ ev s₂ ⟨xs, hxs⟩ hstep
  obtain ⟨x, hx⟩ := step_log hstep
  exact ⟨xs ++ [x], by rw [hx, hxs, List.append_assoc]⟩

theorem step_leads {ev : Event χ ε} (h : M.step s ev = .ok s') {i : Nat} {t : Prog E R Unit}
    (hi : s.threads[i]? = some t) :
    ∃ t' tr, s'.threads[i]? = some t' ∧ own i s'.log = own i s.log ++ tr ∧ t.Leads tr t' := by
  have hlt := (List.getElem?_eq_some_iff.mp hi).1
  rcases step_ok h with ⟨j, c, e, k, r, st, -, hj, -, rfl⟩ | ⟨a, st, -, -, rfl⟩ |
    ⟨a, st, u, -, -, rfl⟩
  · by_cases hij : j = i
    · subst hij
      cases hi.symm.trans hj
      exact ⟨k r, [⟨e, r⟩], List.getElem?_set_self hlt, own_snoc_self _ _ _ _, .op (.nil _)⟩
    · refine ⟨t, [], ?_, ?_, .nil _⟩
      · rw [List.getElem?_set_ne hij, hi]
      · rw [own_snoc_ne hij, List.append_nil]
  · exact ⟨t, [], hi, by rw [own_snoc_env, List.append_nil], .nil _⟩
  · refine ⟨t, [], ?_, by rw [own_snoc_env, List.append_nil], .nil _⟩
    rw [List.getElem?_append_left hlt, hi]

/-- Every entry of the log was made by a step, after the entries before it. -/
theorem run_entry {evs : List (Event χ ε)} (h : M.run s evs = .ok s')
    {pre post : List (Entry E R ε)} {x : Entry E R ε} (hlog : s'.log = s.log ++ pre ++ x :: post) :
    ∃ evs₁ ev s₁ s₂ evs₂, M.run s evs₁ = .ok s₁ ∧ s₁.log = s.log ++ pre ∧ M.step s₁ ev = .ok s₂ ∧
      s₂.log = s.log ++ pre ++ [x] ∧ M.run s₂ evs₂ = .ok s' := by
  induction evs generalizing s pre with
  | nil =>
    cases h
    simp at hlog
  | cons ev evs ih =>
    unfold run at h
    split at h
    · next s₂ h₂ =>
      obtain ⟨y, hy⟩ := step_log h₂
      cases pre with
      | nil =>
        -- the first step made the entry
        rw [List.append_nil] at hlog ⊢
        obtain ⟨zs, hzs⟩ := run_log h
        rw [hlog, hy, List.append_assoc] at hzs
        cases (List.append_cancel_left hzs)
        exact ⟨[], ev, s, s₂, evs, rfl, rfl, h₂, hy, h⟩
      | cons z pre =>
        obtain ⟨zs, hzs⟩ := run_log h
        rw [hlog, hy, List.append_assoc, List.append_assoc] at hzs
        have hz := (List.cons.inj (List.append_cancel_left hzs)).1
        subst hz
        have hlog' : s'.log = s₂.log ++ pre ++ x :: post := by rw [hlog, hy]; simp
        obtain ⟨evs₁, ev₁, s₃, s₄, evs₂, hrun, hpre, hstep, hpost, hrest⟩ := ih h hlog'
        refine ⟨ev :: evs₁, ev₁, s₃, s₄, evs₂, ?_, ?_, hstep, ?_, hrest⟩
        · rw [run, h₂]
          exact hrun
        · rw [hpre, hy]
          simp
        · rw [hpost, hy]
          simp
    · cases h
    · cases h

/-- The goroutine that made an entry was about to perform its operation. -/
theorem run_act {evs : List (Event χ ε)} (h : M.run s evs = .ok s') (hs : s.log = [])
    {pre post : List (Entry E R ε)} {i : Nat} {e : E} {r : R e}
    (hlog : s'.log = pre ++ .act i e r :: post) :
    ∃ evs₁ c k s₁ st, M.run s evs₁ = .ok s₁ ∧ s₁.log = pre ∧ s₁.threads[i]? = some (.op e k) ∧
      M.handle s₁.state c e = .ok (r, st) := by
  obtain ⟨evs₁, ev, s₁, s₂, evs₂, hrun, hpre, hstep, hpost, -⟩ :=
    run_entry h (hlog.trans (by rw [hs]; rfl))
  rw [hs, List.nil_append] at hpre hpost
  rcases step_ok hstep with ⟨j, c, e', k, r', st, -, ht, hh, rfl⟩ | ⟨a, st, -, -, rfl⟩ |
    ⟨a, st, t, -, -, rfl⟩
  · rw [hpre] at hpost
    cases List.append_cancel_left hpost
    exact ⟨evs₁, c, k, s₁, st, hrun, hpre, ht, hh⟩
  · rw [hpre] at hpost
    cases List.append_cancel_left hpost
  · rw [hpre] at hpost
    cases List.append_cancel_left hpost

end Machine

/-! ## 4. Two entries of a log -/

section Entries

variable {β : Type}

/-- Two occurrences stand in one order or the other. -/
theorem append_cons_cases {as bs cs ds : List β} {x y : β} (h : as ++ x :: bs = cs ++ y :: ds) :
    (∃ es, cs = as ++ x :: es ∧ bs = es ++ y :: ds) ∨ (as = cs ∧ x = y ∧ bs = ds) ∨
      ∃ es, as = cs ++ y :: es ∧ ds = es ++ x :: bs := by
  rcases List.append_eq_append_iff.mp h with ⟨es, rfl, hbs⟩ | ⟨es, rfl, hds⟩
  · cases es with
    | nil =>
      obtain ⟨rfl, rfl⟩ := List.cons.inj hbs
      exact .inr (.inl ⟨by simp, rfl, rfl⟩)
    | cons e es =>
      obtain ⟨rfl, rfl⟩ := List.cons.inj hbs
      exact .inl ⟨es, rfl, rfl⟩
  · cases es with
    | nil =>
      obtain ⟨rfl, rfl⟩ := List.cons.inj hds
      exact .inr (.inl ⟨by simp, rfl, rfl⟩)
    | cons e es =>
      obtain ⟨rfl, rfl⟩ := List.cons.inj hds
      exact .inr (.inr ⟨es, rfl, rfl⟩)

theorem exists_split_of_mem {l : List β} {x y : β} (hx : x ∈ l) (hy : y ∈ l) (hne : x ≠ y) :
    (∃ pre mid post, l = pre ++ x :: (mid ++ y :: post)) ∨
      ∃ pre mid post, l = pre ++ y :: (mid ++ x :: post) := by
  obtain ⟨as, bs, rfl⟩ := List.append_of_mem hx
  obtain ⟨cs, ds, h⟩ := List.append_of_mem hy
  rcases append_cons_cases h with ⟨es, rfl, rfl⟩ | ⟨-, rfl, -⟩ | ⟨es, rfl, rfl⟩
  · exact .inl ⟨as, es, ds, rfl⟩
  · exact absurd rfl hne
  · exact .inr ⟨cs, es, bs, h⟩

/-- At most one element satisfies `p` if no two do. -/
theorem countP_le_one {p : β → Bool} {l : List β}
    (h : ∀ pre x mid y post, l = pre ++ x :: (mid ++ y :: post) → p x = true → p y = true → False) :
    l.countP p ≤ 1 := by
  induction l with
  | nil => exact Nat.zero_le _
  | cons a l ih =>
    rw [List.countP_cons]
    split
    · next ha =>
      have hnone : l.countP p = 0 := by
        refine List.countP_eq_zero.mpr fun y hy hpy => ?_
        obtain ⟨mid, post, rfl⟩ := List.append_of_mem hy
        exact h [] a mid y post rfl ha hpy
      exact Nat.le_of_eq (congrArg (· + 1) hnone)
    · exact ih fun pre x mid y post hl => h (a :: pre) x mid y post (by rw [hl]; rfl)

theorem two_le_countP {p : β → Bool} {pre mid post : List β} {x y : β} (hx : p x = true)
    (hy : p y = true) : 2 ≤ (pre ++ x :: (mid ++ y :: post)).countP p := by
  simp only [List.countP_append, List.countP_cons, hx, hy, if_true]
  omega

theorem two_le_countP_of_mem {p : β → Bool} {l : List β} {x y : β} (hx : x ∈ l) (hy : y ∈ l)
    (hne : x ≠ y) (hpx : p x = true) (hpy : p y = true) : 2 ≤ l.countP p := by
  rcases exists_split_of_mem hx hy hne with ⟨pre, mid, post, rfl⟩ | ⟨pre, mid, post, rfl⟩
  · exact two_le_countP hpx hpy
  · exact two_le_countP hpy hpx

/-- Two places with an element that satisfies `p` are one if only one element does. -/
theorem eq_of_countP_le_one {p : β → Bool} {l : List β} (h : l.countP p ≤ 1) {i j : Nat} {x y : β}
    (hi : l[i]? = some x) (hj : l[j]? = some y) (hx : p x = true) (hy : p y = true) : i = j := by
  induction l generalizing i j with
  | nil => cases hi
  | cons a l ih =>
    have hmem : ∀ {n z}, l[n]? = some z → p z = true → 1 ≤ l.countP p := fun hz hpz =>
      List.countP_pos_iff.mpr ⟨_, List.mem_of_getElem? hz, hpz⟩
    rw [List.countP_cons] at h
    cases i with
    | zero =>
      cases hi
      rw [if_pos hx] at h
      cases j with
      | zero => rfl
      | succ j =>
        have := hmem hj hy
        omega
    | succ i =>
      cases j with
      | zero =>
        cases hj
        rw [if_pos hy] at h
        have := hmem hi hx
        omega
      | succ j => rw [ih (by omega) hi hj]

variable {E : Type} {R : E → Type} {ε : Type}

theorem countP_own_le {i : Nat} {q : (e : E) × R e → Bool} {p : Entry E R ε → Bool}
    (h : ∀ e r, q ⟨e, r⟩ = true → p (.act i e r) = true) (log : List (Entry E R ε)) :
    (own i log).countP q ≤ log.countP p := by
  rw [own, List.countP_filterMap]
  refine List.countP_mono_left fun x _ hx => ?_
  cases hy : x.by? i with
  | none => simp [hy] at hx
  | some y =>
    rw [Entry.by?_eq_some.mp hy]
    exact h y.1 y.2 (by simpa [hy] using hx)

end Entries

/-! ## 5. Conditions on the steps of a run -/

section Steps

variable {E : Type} {R : E → Type} {ε : Type}

/-- Every step of a run meets `P`, given the steps before it. -/
def EachStep (P : List (Entry E R ε) → Entry E R ε → Prop) (log : List (Entry E R ε)) : Prop :=
  ∀ (n : Nat) (h : n < log.length), P (log.take n) log[n]

instance decidableEachStep (P : List (Entry E R ε) → Entry E R ε → Prop) [∀ log x, Decidable (P log x)]
    (log : List (Entry E R ε)) : Decidable (EachStep P log) :=
  inferInstanceAs (Decidable (∀ (n : Nat) (h : n < log.length), P (log.take n) log[n]))

theorem EachStep.of_append {P : List (Entry E R ε) → Entry E R ε → Prop}
    {log pre post : List (Entry E R ε)} {x : Entry E R ε} (h : EachStep P log)
    (hlog : log = pre ++ x :: post) : P pre x := by
  subst hlog
  simpa using h pre.length (by simp)

theorem EachStep.left {P : List (Entry E R ε) → Entry E R ε → Prop}
    {log log' : List (Entry E R ε)} (h : EachStep P (log ++ log')) : EachStep P log := by
  intro n hn
  have := h n (by rw [List.length_append]; omega)
  rwa [List.take_append_of_le_length (Nat.le_of_lt hn), List.getElem_append_left hn] at this

end Steps

end Go
