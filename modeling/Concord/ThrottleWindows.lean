import Concord.ThrottleTiming

/-!
# What passes a throttle in a window of time

The rate of a throttle can be changed while it is at work, and the routines take the time per
operation that is in force when an operation ends. `passes_within`: as long as no rate in force is
above `limit`, at most `n + 1` datagrams pass between a routine and the connection in any window
of `n` times the time per operation of `limit`, whenever the calls that change the rate are made
and however long the operations take.

A datagram passes at some point between the start and the end of its operation. The starts are
far enough apart, and an operation starts only after the datagram of the one before has passed;
so all datagrams of a window but the first have their starts in the window (`within_passes_le`).
-/

namespace Concord

open Go

namespace UDPThrottle

/-! ## 1. Operations in time -/

/-- The operations of a routine whose datagrams have passed, each with its start and the instant
it passed: the starts are `g` apart and come after what has passed before, and the routine does
not get to the next one too early. -/
structure Passing (g : Nat) (p : Phase) (c : Clock) (now : Nat) (ops : List (Nat × Nat)) : Prop where
  order : ∀ a ∈ ops, a.1 ≤ a.2 ∧ a.2 ≤ now
  chain : ops.Pairwise fun a b => a.2 ≤ b.1 ∧ a.1 + g ≤ b.1
  ready : p = .ready → ∀ a ∈ ops, a.1 + g ≤ now
  pending : p = .pending → c.start ≤ now ∧ ∀ a ∈ ops, a.2 ≤ c.start ∧ a.1 + g ≤ c.start
  passed : p = .passed → c.start ≤ now ∧ ∀ a ∈ ops, a.1 ≤ c.start
  resting : p = .resting → ∀ a ∈ ops, a.1 + g ≤ c.wake

def Mark.passes (now : Nat) : Option Mark → List Nat
  | some .pass => [now]
  | _ => []

/-- The instants at which datagrams pass between the routine and the connection. -/
def passes (half : Half) (evs : List (Nat × TimedEvent)) : List Nat :=
  evs.flatMap fun ev => Mark.passes ev.1 (ev.2.mark half)

theorem Passing.nil (g : Nat) {p : Phase} (hp : p = .ready) (c : Clock) (now : Nat) :
    Passing g p c now [] := by
  subst hp
  exact ⟨fun _ h => absurd h List.not_mem_nil, .nil, fun _ _ h => absurd h List.not_mem_nil, nofun, nofun,
    nofun⟩

/-- A step of the throttle, with a time per operation of at least `g` in force. -/
theorem Passing.tick {g : Nat} {tpo : Int64} {p p' : Phase} {c : Clock} {now now' : Nat}
    {ops : List (Nat × Nat)} {mark : Option Mark} (h : Passing g p c now ops) (hnow : now ≤ now')
    (hg : g ≤ tpo.toInt.toNat) (hallow : c.allows now' mark = true)
    (hmoves : Phase.Moves mark p p') :
    ∃ ops', Passing g p' (c.tick now' tpo mark) now' ops' ∧
      ops'.map Prod.snd = ops.map Prod.snd ++ Mark.passes now' mark := by
  have horder : ∀ a ∈ ops, a.1 ≤ a.2 ∧ a.2 ≤ now' := fun a ha =>
    ⟨(h.order a ha).1, (h.order a ha).2.trans hnow⟩
  cases hmoves with
  | start =>
    refine ⟨ops, ⟨horder, h.chain, nofun, fun _ => ⟨Nat.le_refl now', fun a ha => ?_⟩, nofun, nofun⟩,
      (List.append_nil _).symm⟩
    exact ⟨(horder a ha).2, (h.ready rfl a ha).trans hnow⟩
  | pass =>
    obtain ⟨hstart, hbefore⟩ := h.pending rfl
    refine ⟨ops ++ [(c.start, now')], ⟨?_, ?_, nofun, nofun, fun _ => ⟨hstart.trans hnow, ?_⟩, nofun⟩,
      List.map_append⟩
    · intro a ha
      rcases List.mem_append.mp ha with ha | ha
      · exact horder a ha
      · rw [List.mem_singleton.mp ha]
        exact ⟨hstart.trans hnow, Nat.le_refl now'⟩
    · refine List.pairwise_append.mpr ⟨h.chain, List.pairwise_singleton _ _, fun a ha b hb => ?_⟩
      rw [List.mem_singleton.mp hb]
      exact hbefore a ha
    · intro a ha
      rcases List.mem_append.mp ha with ha | ha
      · exact (Nat.le_add_right a.1 g).trans (hbefore a ha).2
      · rw [List.mem_singleton.mp ha]
        exact Nat.le_refl c.start
  | finish =>
    obtain ⟨hstart, hops⟩ := h.passed rfl
    refine ⟨ops, ⟨horder, h.chain, nofun, nofun, nofun, fun _ a ha => ?_⟩, (List.append_nil _).symm⟩
    exact (Nat.add_le_add (hops a ha) hg).trans (start_add_le tpo (hstart.trans hnow))
  | wake =>
    have hwake : c.wake ≤ now' := of_decide_eq_true hallow
    exact ⟨ops, ⟨horder, h.chain, fun _ a ha => (h.resting rfl a ha).trans hwake, nofun, nofun, nofun⟩,
      (List.append_nil _).symm⟩
  | stay =>
    refine ⟨ops, ⟨horder, h.chain, fun hp a ha => (h.ready hp a ha).trans hnow, fun hp => ?_,
      fun hp => ?_, h.resting⟩, (List.append_nil _).symm⟩
    · exact ⟨(h.pending hp).1.trans hnow, (h.pending hp).2⟩
    · exact ⟨(h.passed hp).1.trans hnow, (h.passed hp).2⟩
  | quit => exact ⟨ops, ⟨horder, h.chain, nofun, nofun, nofun, nofun⟩, (List.append_nil _).symm⟩

/-! ## 2. Rates in force -/

namespace Timed

/-- The rates that are in force along the events. -/
def rates (t : Timed) : List (Nat × TimedEvent) → List UInt64
  | [] => [t.pace.rate]
  | ev :: evs => t.pace.rate :: match t.step ev with
    | .ok t' => t'.rates evs
    | _ => []

/-- A rate within the limit has a time per operation that is long enough. -/
theorem Computed.le_tpo {t : Timed} (ht : t.Computed) {limit : Nat} (hlimit : t.pace.rate.toNat ≤ limit) :
    10 ^ 9 / limit ≤ t.pace.tpo.toInt.toNat := by
  have hrate : t.pace.rate.toInt64 ≠ 0 ∧ t.pace.tpo = sec / t.pace.rate.toInt64 := by
    unfold Computed Pace.ofRate at ht
    split at ht
    · cases ht
    · next hne => exact ⟨hne, congrArg Pace.tpo (Outcome.ok.inj ht).symm⟩
  have hpos : 0 < t.pace.rate.toNat := by
    refine Nat.pos_of_ne_zero fun hzero => hrate.1 ?_
    rw [show t.pace.rate = 0 from UInt64.toNat_inj.mp hzero]
    rfl
  rw [hrate.2, Pace.toNat_tpo]
  split
  · exact Nat.div_le_div_left hlimit hpos
  · next hbig =>
    rw [Nat.div_eq_of_lt (by omega)]

theorem step_passing {limit : Nat} {t t' : Timed} {half : Half} {ev : Nat × TimedEvent}
    {ops : List (Nat × Nat)} (ht : t.Computed) (hlimit : t.pace.rate.toNat ≤ limit)
    (hp : Passing (10 ^ 9 / limit) (t.th.phase half) (t.clock half) t.now ops)
    (h : t.step ev = .ok t') :
    ∃ ops', Passing (10 ^ 9 / limit) (t'.th.phase half) (t'.clock half) t'.now ops' ∧
      ops'.map Prod.snd = ops.map Prod.snd ++ passes half [ev] := by
  obtain ⟨now, ev⟩ := ev
  have htpo := ht.le_tpo hlimit
  obtain ⟨hnow, ⟨e, th, rfl, hth, hallow, rfl⟩ | ⟨call, pace, rfl, -, rfl⟩⟩ := step_cases h
  · rw [passes, List.flatMap_singleton]
    exact hp.tick hnow htpo (hallow half) (step_moves hth half)
  · have hstay : Phase.Moves none (t.th.phase half) (t.th.phase half) := .stay _
    exact hp.tick hnow htpo rfl hstay

/-- The operations of a routine along a run. -/
theorem run_passing {limit : Nat} {t t' : Timed} {half : Half} {evs : List (Nat × TimedEvent)}
    {ops : List (Nat × Nat)} (ht : t.Computed) (hlimit : ∀ r ∈ t.rates evs, r.toNat ≤ limit)
    (hp : Passing (10 ^ 9 / limit) (t.th.phase half) (t.clock half) t.now ops)
    (h : t.run evs = .ok t') :
    ∃ ops', Passing (10 ^ 9 / limit) (t'.th.phase half) (t'.clock half) t'.now ops' ∧
      ops'.map Prod.snd = ops.map Prod.snd ++ passes half evs := by
  induction evs generalizing t ops with
  | nil =>
    cases h
    exact ⟨ops, hp, (List.append_nil _).symm⟩
  | cons ev evs ih =>
    obtain ⟨t₁, hstep, h⟩ := runSteps_cons h
    simp only [rates, hstep, List.mem_cons] at hlimit
    obtain ⟨ops₁, hp₁, hops₁⟩ := step_passing ht (hlimit _ (.inl rfl)) hp hstep
    obtain ⟨ops', hp', hops'⟩ := ih (step_computed ht hstep) (fun r hr => hlimit r (.inr hr)) hp₁ h
    refine ⟨ops', hp', ?_⟩
    rw [hops', hops₁, List.append_assoc, passes, passes, passes, ← List.flatMap_append,
      List.singleton_append]

end Timed

/-! ## 3. Windows -/

/-- Of what passes in a window, all but the first has its start in the window. -/
theorem within_passes_le {g : Nat} {ops : List (Nat × Nat)} (horder : ∀ a ∈ ops, a.1 ≤ a.2)
    (hchain : ops.Pairwise fun a b => a.2 ≤ b.1 ∧ a.1 + g ≤ b.1) (w n : Nat) :
    (Time.within w (n * g) (ops.map Prod.snd)).length ≤ n + 1 := by
  rw [Time.within, List.filter_map, List.length_map]
  generalize hl : ops.filter ((fun t => decide (w ≤ t) && decide (t < w + n * g)) ∘ Prod.snd) = l
  have hsub : l.Sublist ops := hl ▸ List.filter_sublist
  have hin : ∀ a ∈ l, w ≤ a.2 ∧ a.2 < w + n * g := by
    intro a ha
    rw [← hl] at ha
    simpa using (List.mem_filter.mp ha).2
  have hchain' := hchain.sublist hsub
  cases l with
  | nil => exact Nat.zero_le _
  | cons a rest =>
    obtain ⟨hfirst, hrest⟩ := List.pairwise_cons.mp hchain'
    have hspaced : Time.Spaced g (rest.map Prod.fst) := List.pairwise_map.mpr (hrest.imp And.right)
    have hle : (rest.map Prod.fst).length ≤ n := by
      refine hspaced.length_le (w := w) (fun s hs => ?_) (fun s hs => ?_)
      · obtain ⟨b, hb, rfl⟩ := List.mem_map.mp hs
        exact (hin a List.mem_cons_self).1.trans (hfirst b hb).1
      · obtain ⟨b, hb, rfl⟩ := List.mem_map.mp hs
        have hb' := List.mem_cons_of_mem a hb
        exact (horder b (hsub.subset hb')).trans_lt (hin b hb').2
    rw [List.length_map] at hle
    exact Nat.succ_le_succ hle

/-- As long as no rate in force is above the limit, at most `n + 1` datagrams pass in any window
of `n` times the time per operation of the limit. -/
theorem passes_within {initialRate : UInt64} {rbuffSize boot : Nat} {t₀ t : Timed}
    (hnew : Timed.new initialRate rbuffSize boot = .ok t₀) {evs : List (Nat × TimedEvent)}
    (hrun : t₀.run evs = .ok t) {limit : Nat} (hlimit : ∀ r ∈ t₀.rates evs, r.toNat ≤ limit)
    (half : Half) (w n : Nat) :
    (Time.within w (n * (10 ^ 9 / limit)) (passes half evs)).length ≤ n + 1 := by
  have hready : t₀.th.phase half = .ready := by
    simp only [Timed.new] at hnew
    split at hnew
    · cases hnew
      cases half <;> rfl
    · cases hnew
    · cases hnew
  obtain ⟨ops, hp, hops⟩ := Timed.run_passing (Timed.new_computed hnew) hlimit
    (Passing.nil _ hready _ _) hrun
  rw [List.map_nil, List.nil_append] at hops
  rw [← hops]
  exact within_passes_le (fun a ha => (hp.order a ha).1) hp.chain w n

/-! ### A run -/

/-- Two reads; the rate is halved before the second. -/
def slowedRun : List (Nat × TimedEvent) :=
  [(0, .op (.read .poll)), (1, .op (.read (.conn ⟨[], none, none⟩))), (2, .op (.read .copy)),
    (3, .op (.read .send)), (10000000, .op (.read .wake)), (10000000, .rate (.setThroughput 50)),
    (10000000, .op (.read .poll)), (10000005, .op (.read (.conn ⟨[], none, none⟩))),
    (10000006, .op (.read .copy)), (10000007, .op (.read .send)), (30000000, .op (.read .wake))]

theorem slowed_passes :
    ∃ t₀ t, Timed.new 100 0 0 = .ok t₀ ∧ t₀.run slowedRun = .ok t ∧
      passes .read slowedRun = [1, 10000005] ∧
      (Time.within 0 (1 * (10 ^ 9 / 100)) (passes .read slowedRun)).length ≤ 2 := by
  have hnew : Timed.new 100 0 0 = .ok (Timed.init 100) := Timed.new_eq_init (by decide)
  have hrates : ((Timed.init 100).rates slowedRun).all (fun r => r.toNat ≤ 100) = true := by decide +kernel
  have hlimit : ∀ r ∈ (Timed.init 100).rates slowedRun, r.toNat ≤ 100 := fun r hr =>
    of_decide_eq_true (List.all_eq_true.mp hrates r hr)
  have heval : (((Timed.init 100).run slowedRun).result?.map fun _ => ()) = some () := by decide +kernel
  obtain ⟨t, ht, -⟩ := Option.map_eq_some_iff.mp heval
  have hrun := Outcome.eq_ok_of_result? ht
  exact ⟨_, t, hnew, hrun, rfl, passes_within hnew hrun hlimit .read 0 1⟩

end UDPThrottle

end Concord
