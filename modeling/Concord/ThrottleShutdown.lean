import Concord.ThrottleRefinement

/-!
# The end of a throttle

`Shutdown` sends on `done` once for each active routine, and a routine returns when it receives
from it. `NewUDPThrottle` does not make the channel, and a send on a nil channel waits forever.

1. `Counted`: every send that was made has stopped one routine, so that a second call of
   `Shutdown` has nothing to stop.
2. `Stopping.canFinish`: with the channel, one call can finish from every state. If `read` is
   waiting for room in `recv` this takes a call of `ReadFrom`, which may come after `Cleanup`;
   without one nothing finishes then (`Congested.not_finished`).
3. `shutdown_finishes_iff`: it can finish if there is the channel and it is the only call, and
   else not.

No throttle of the code has the channel. Where `done` is true the throttle is another one, in
which it is made: that half says what making it would repair, and what not.
-/

namespace Concord

open Go

namespace UDPThrottle

/-- Both routines have returned, and so has every call of `Shutdown`; those of `Cleanup` have
closed the connection. -/
structure Finished (th : UDPThrottle) : Prop where
  read : th.reading.loc = .returned
  write : th.writing.loc = .returned
  stops : ∀ st ∈ th.stops, st.left = 0 ∧ (st.cleanup = true → st.closed = true)

/-- Some continuation finishes, with whatever calls on the throttle. -/
def CanFinish (th : UDPThrottle) : Prop := ∃ evs th', th.run evs = .ok th' ∧ th'.Finished

/-- If `Shutdown` or `Cleanup` was called, it can finish. -/
def ShutdownFinishes (th : UDPThrottle) : Prop := th.stops ≠ [] → th.CanFinish

variable {rbuffSize : Nat} {done : Bool} {th th' : UDPThrottle}

/-! ## 1. Without the channel, or with two calls -/

theorem Running.not_canFinish (hs : th.Running) : ¬ th.CanFinish := by
  rintro ⟨evs, th', hrun, hfinished⟩
  have hread := (hs.run hrun).read
  rw [hfinished.read] at hread
  cases hread

/-- The number of routines that have returned. -/
def returned (th : UDPThrottle) : Nat :=
  th.reading.loc.isReturned.toNat + th.writing.loc.isReturned.toNat

/-- The sends on `done` that are still to be made. -/
def leftOf (stops : List Stop) : Nat := stops.foldr (fun st n => st.left + n) 0

theorem leftOf_set {stops : List Stop} {j : Nat} {st : Stop} (h : stops[j]? = some st)
    (st' : Stop) : leftOf (stops.set j st') + st.left = leftOf stops + st'.left := by
  induction stops generalizing j with
  | nil => cases h
  | cons x xs ih =>
    cases j with
    | zero =>
      cases h
      simp only [List.set_cons_zero, leftOf, List.foldr_cons]
      omega
    | succ j =>
      have hsum := ih (j := j) h
      simp only [leftOf] at hsum
      simp only [List.set_cons_succ, leftOf, List.foldr_cons]
      omega

theorem leftOf_snoc (stops : List Stop) (st : Stop) :
    leftOf (stops ++ [st]) = leftOf stops + st.left := by
  induction stops with
  | nil => exact Nat.add_comm _ _
  | cons x xs ih =>
    simp only [leftOf] at ih
    simp only [List.cons_append, leftOf, List.foldr_cons, ih]
    omega

theorem leftOf_eq_zero {stops : List Stop} (h : ∀ st ∈ stops, st.left = 0) : leftOf stops = 0 := by
  induction stops with
  | nil => rfl
  | cons x xs ih =>
    have hx := h x List.mem_cons_self
    have hxs := ih fun st hst => h st (List.mem_cons_of_mem x hst)
    simp only [leftOf] at hxs
    simp only [leftOf, List.foldr_cons, hx, hxs]

/-- Every send on `done` that was made has stopped a routine. -/
structure Counted (th : UDPThrottle) : Prop where
  active : th.activeRoutines = 2
  count : th.returned + leftOf th.stops = 2 * th.stops.length

theorem counted_start (rbuffSize : Nat) (done : Bool) : (start rbuffSize done).Counted :=
  ⟨rfl, rfl⟩

/-- One send is made. -/
theorem leftOf_stopped {j : Nat} {st : Stop} (hj : th.stops[j]? = some st)
    (hcan : th.canStop st = true) :
    leftOf (th.stopped j st) + 1 = leftOf th.stops := by
  have hpos : 0 < st.left := of_decide_eq_true (Bool.and_eq_true_iff.mp hcan).2
  have hset := leftOf_set hj { st with left := st.left - 1 }
  simp only at hset
  rw [stopped]
  omega

theorem step_counted {ev : Event} (hs : th.Counted) (h : th.step ev = .ok th') : th'.Counted := by
  have hcount := hs.count
  rcases step_cases h with ⟨e, r, -, hr, rfl⟩ | ⟨e, w, -, hw, rfl⟩ | ⟨cleanup, rfl⟩ |
    ⟨j, st, hj, hcan, hloc, rfl⟩ | ⟨j, st, hj, hcan, hloc, rfl⟩ | ⟨j, st, hj, rfl⟩
  · refine ⟨hs.active, ?_⟩
    simp only [returned, Reading.step_isReturned hr]
    exact hcount
  · refine ⟨hs.active, ?_⟩
    simp only [returned, Writing.step_isReturned hw]
    exact hcount
  · refine ⟨hs.active, ?_⟩
    simp only [returned, leftOf_snoc, List.length_append, List.length_singleton,
      hs.active] at hcount ⊢
    omega
  · refine ⟨hs.active, ?_⟩
    have hleft := leftOf_stopped hj hcan
    simp only [returned, hloc, ReadAt.isReturned, Bool.toNat_false, Bool.toNat_true] at hcount ⊢
    simp only [stopped, List.length_set] at hleft ⊢
    omega
  · refine ⟨hs.active, ?_⟩
    have hleft := leftOf_stopped hj hcan
    simp only [returned, hloc, WriteAt.isReturned, Bool.toNat_false, Bool.toNat_true] at hcount ⊢
    simp only [stopped, List.length_set] at hleft ⊢
    omega
  · refine ⟨hs.active, ?_⟩
    have hset := leftOf_set hj { st with closed := true }
    simp only [returned, List.length_set] at hcount ⊢
    simp only at hset
    omega

theorem run_counted {evs : List Event} (hs : th.Counted) (h : th.run evs = .ok th') :
    th'.Counted :=
  runSteps_invariant (fun _ _ _ hs h => step_counted hs h) hs h

/-- No call of `Shutdown` is forgotten. -/
theorem step_stops {ev : Event} (h : th.step ev = .ok th') :
    th.stops.length ≤ th'.stops.length := by
  rcases step_cases h with ⟨e, r, -, hr, rfl⟩ | ⟨e, w, -, hw, rfl⟩ | ⟨cleanup, rfl⟩ |
    ⟨j, st, hj, hcan, hloc, rfl⟩ | ⟨j, st, hj, hcan, hloc, rfl⟩ | ⟨j, st, hj, rfl⟩
  · exact Nat.le_refl _
  · exact Nat.le_refl _
  · rw [List.length_append]
    exact Nat.le_add_right _ _
  · rw [stopped, List.length_set]
  · rw [stopped, List.length_set]
  · rw [List.length_set]

/-- A second call waits for routines that are gone. -/
theorem Counted.not_canFinish (hs : th.Counted) (hstops : 2 ≤ th.stops.length) :
    ¬ th.CanFinish := by
  rintro ⟨evs, th', hrun, hfinished⟩
  obtain ⟨hs', hstops'⟩ : th'.Counted ∧ 2 ≤ th'.stops.length :=
    runSteps_invariant (I := fun t : UDPThrottle => t.Counted ∧ 2 ≤ t.stops.length)
      (fun _ _ _ ht h => ⟨step_counted ht.1 h, ht.2.trans (step_stops h)⟩) ⟨hs, hstops⟩ hrun
  have hcount := hs'.count
  have hleft : leftOf th'.stops = 0 := leftOf_eq_zero fun st hst => (hfinished.stops st hst).1
  have hreturned : th'.returned ≤ 2 :=
    Nat.add_le_add (Bool.toNat_le _) (Bool.toNat_le _)
  omega

/-! ## 2. With the channel and one call -/

/-- `recv` can have room: a new call of `ReadFrom` receives what is in it. -/
theorem can_make_room (th : UDPThrottle) :
    ∃ evs r, th.run evs = .ok { th with reading := r } ∧ r.loc = th.reading.loc ∧
      r.recv.items.length < 100 := by
  by_cases hroom : th.reading.recv.items.length < 100
  · exact ⟨[], th.reading, rfl, rfl, hroom⟩
  · have hne : th.reading.recv.items ≠ [] := by
      intro h
      rw [h] at hroom
      exact hroom (by decide)
    obtain ⟨pkt, pkts, hitems⟩ := List.exists_cons_of_ne_nil hne
    obtain ⟨recv, hrecv, hpkts⟩ := Chan.recv_cons hitems
    let r : Reading := { th.reading with calls := th.reading.calls ++ [none] }
    have hcall : th.step (.read .call) = .ok { th with reading := r } := rfl
    have hreceive : step { th with reading := r } (.read (.receive th.reading.calls.length)) =
        .ok { th with reading := r.delivered th.reading.calls.length pkt recv } := by
      refine step_read ?_
      simp only [r, Reading.step, List.getElem?_concat_length, hrecv]
    refine ⟨_, _, runSteps_append (runSteps_singleton hcall) (runSteps_singleton hreceive), rfl, ?_⟩
    have hle := th.reading.recv.items_le
    rw [hitems] at hle
    rw [Reading.delivered, hpkts]
    exact hle

/-- `read` is at its send, `recv` is full, and no call of `ReadFrom` is waiting. -/
structure Congested (th : UDPThrottle) : Prop where
  sending : ∃ pkt, th.reading.loc = .sending pkt
  full : th.reading.recv.items.length = 100
  served : ∀ c ∈ th.reading.calls, c ≠ none

/-- There is no step of the half that reads. -/
theorem Congested.no_read (hs : th.Congested) {e : ReadEvent} (he : e ≠ .call) (done : Bool) :
    th.reading.step done e = none := by
  obtain ⟨pkt, hloc⟩ := hs.sending
  cases e with
  | call => exact absurd rfl he
  | receive i =>
    cases hi : th.reading.calls[i]? with
    | none => simp only [Reading.step, hi]
    | some c =>
      obtain ⟨p, rfl⟩ := Option.ne_none_iff_exists'.mp (hs.served c (List.mem_of_getElem? hi))
      simp only [Reading.step, hi]
  | send =>
    have hwait : th.reading.recv.send pkt = none := dif_neg (by rw [hs.full]; exact Nat.lt_irrefl _)
    simp only [Reading.step, hloc, hwait, Option.map_none]
  | poll => simp only [Reading.step, hloc]
  | conn d => simp only [Reading.step, hloc]
  | copy => simp only [Reading.step, hloc]
  | wake => simp only [Reading.step, hloc]

theorem Congested.step (hs : th.Congested) {ev : Event} (hev : ev ≠ .read .call)
    (h : th.step ev = .ok th') : th'.Congested := by
  rcases step_cases h with ⟨e, r, rfl, hr, -⟩ | ⟨e, w, -, hw, rfl⟩ | ⟨cleanup, rfl⟩ |
    ⟨j, st, -, -, hloc, -⟩ | ⟨j, st, -, -, -, rfl⟩ | ⟨j, st, -, rfl⟩
  · rw [hs.no_read (fun he => hev (he ▸ rfl))] at hr
    cases hr
  · exact ⟨hs.sending, hs.full, hs.served⟩
  · exact ⟨hs.sending, hs.full, hs.served⟩
  · obtain ⟨pkt, hpkt⟩ := hs.sending
    rw [hloc] at hpkt
    cases hpkt
  · exact ⟨hs.sending, hs.full, hs.served⟩
  · exact ⟨hs.sending, hs.full, hs.served⟩

/-- Until there is a call of `ReadFrom` nothing finishes, with the channel or without. -/
theorem Congested.not_finished {evs : List Event} (hs : th.Congested)
    (hevs : ∀ ev ∈ evs, ev ≠ .read .call) (h : th.run evs = .ok th') : ¬ th'.Finished := by
  induction evs generalizing th with
  | nil =>
    cases h
    intro hfinished
    obtain ⟨pkt, hloc⟩ := hs.sending
    rw [hfinished.read] at hloc
    cases hloc
  | cons ev evs ih =>
    obtain ⟨th₁, hstep, hrest⟩ := runSteps_cons h
    exact ih (hs.step (hevs ev List.mem_cons_self) hstep)
      (fun e he => hevs e (List.mem_cons_of_mem _ he)) hrest

/-- What a routine has to do until it is back at its `select`. -/
def Reading.toLoop (s : Reading) : Nat :=
  match s.loc with
  | .reading => 4
  | .copying _ _ _ => 3
  | .sending _ => 2
  | .throttling => 1
  | _ => 0

theorem Reading.step_toLoop {s : Reading} (hroom : s.recv.items.length < 100 ∨ s.toLoop < 2)
    (hrank : s.toLoop ≠ 0) :
    ∃ ev s', (∀ done, s.step done ev = some s') ∧ s'.toLoop < s.toLoop ∧
      (s'.recv.items.length < 100 ∨ s'.toLoop < 2) := by
  cases hat : s.loc with
  | loop => simp [toLoop, hat] at hrank
  | reading =>
    refine ⟨.conn ⟨[], none, none⟩, s.filled ⟨[], none, none⟩, fun done => by simp only [step, hat],
      by simp [toLoop, hat, filled], ?_⟩
    simpa [toLoop, hat, filled] using hroom
  | copying n sender err =>
    refine ⟨.copy, s.copied n sender err, fun done => by simp only [step, hat],
      by simp [toLoop, hat, copied], ?_⟩
    simpa [toLoop, hat, copied] using hroom
  | sending pkt =>
    have hlt : s.recv.items.length < 100 := by simpa [toLoop, hat] using hroom
    obtain ⟨recv, hsend, -⟩ := Chan.send_room hlt pkt
    exact ⟨.send, { s with recv, loc := .throttling }, fun done => by simp [step, hat, hsend],
      by simp [toLoop, hat], .inr (by simp [toLoop])⟩
  | throttling =>
    exact ⟨.wake, { s with loc := .loop }, fun done => by simp [step, hat], by simp [toLoop, hat],
      .inr (by simp [toLoop])⟩
  | returned => simp [toLoop, hat] at hrank

/-- `read` can come back to its `select`. -/
theorem read_to_loop (th : UDPThrottle) :
    ∃ evs r, th.run evs = .ok { th with reading := r } ∧ r.toLoop = 0 := by
  obtain ⟨evs₁, r₁, hrun₁, -, hroom⟩ := can_make_room th
  obtain ⟨evs₂, t, hrun₂, ⟨hframe, -⟩, hrank⟩ : ∃ evs t,
      UDPThrottle.run { th with reading := r₁ } evs = .ok t ∧
        (t = { th with reading := t.reading } ∧
          (t.reading.recv.items.length < 100 ∨ t.reading.toLoop < 2)) ∧ t.reading.toLoop = 0 := by
    refine runSteps_rank (I := fun t : UDPThrottle => t = { th with reading := t.reading } ∧
      (t.reading.recv.items.length < 100 ∨ t.reading.toLoop < 2))
      (fun t ⟨hframe, hroom⟩ hrank => ?_) ⟨rfl, .inl hroom⟩
    obtain ⟨ev, r, hr, hlt, hroom'⟩ := Reading.step_toLoop hroom hrank
    refine ⟨.read ev, _, step_read (hr _), ⟨?_, hroom'⟩, hlt⟩
    rw [hframe]
  rw [hframe] at hrun₂
  exact ⟨_, t.reading, runSteps_append hrun₁ hrun₂, hrank⟩

/-- A call of `Shutdown` on a throttle with the channel, the only one. -/
structure Stopping (th : UDPThrottle) : Prop where
  counted : th.Counted
  done : th.done = true
  stops : th.stops.length = 1

theorem Stopping.stop (hs : th.Stopping) :
    ∃ st, th.stops = [st] ∧ th.returned + st.left = 2 ∧
      (th.returned < 2 → th.canStop st = true) := by
  obtain ⟨st, hst⟩ := List.length_eq_one_iff.mp hs.stops
  have hcount : th.returned + st.left = 2 := by
    have := hs.counted.count
    rw [hst] at this
    exact this
  refine ⟨st, hst, hcount, fun hlt => ?_⟩
  rw [canStop, hs.done, Bool.true_and]
  exact decide_eq_true (by omega)

/-- The call stops `read` when it is at its `select`. -/
theorem Stopping.step_stopRead (hs : th.Stopping) (hloc : th.reading.loc = .loop) :
    ∃ th', th.step (.stopRead 0) = .ok th' ∧ th'.Stopping ∧ th'.reading.loc = .returned ∧
      th'.writing = th.writing := by
  obtain ⟨st, hst, -, hcan⟩ := hs.stop
  have hlt : th.returned < 2 := by
    have := Bool.toNat_le th.writing.loc.isReturned
    simp only [returned, hloc, ReadAt.isReturned, Bool.toNat_false]
    omega
  have hstep : th.step (.stopRead 0) = .ok { th with
      reading := { th.reading with loc := .returned }, stops := th.stopped 0 st } := by
    have hget : th.stops[0]? = some st := by rw [hst]; rfl
    simp only [step, hget, hloc, hcan hlt, if_true]
  refine ⟨_, hstep, ⟨step_counted hs.counted hstep, hs.done, ?_⟩, rfl, rfl⟩
  exact List.length_set.trans hs.stops

/-- The call stops `write` when it is at its `select`. -/
theorem Stopping.step_stopWrite (hs : th.Stopping) (hloc : th.writing.loc = .loop) :
    ∃ th', th.step (.stopWrite 0) = .ok th' ∧ th'.Stopping ∧ th'.writing.loc = .returned ∧
      th'.reading = th.reading := by
  obtain ⟨st, hst, -, hcan⟩ := hs.stop
  have hlt : th.returned < 2 := by
    have := Bool.toNat_le th.reading.loc.isReturned
    simp only [returned, hloc, WriteAt.isReturned, Bool.toNat_false]
    omega
  have hstep : th.step (.stopWrite 0) = .ok { th with
      writing := { th.writing with loc := .returned }, stops := th.stopped 0 st } := by
    have hget : th.stops[0]? = some st := by rw [hst]; rfl
    simp only [step, hget, hloc, hcan hlt, if_true]
  refine ⟨_, hstep, ⟨step_counted hs.counted hstep, hs.done, ?_⟩, rfl, rfl⟩
  exact List.length_set.trans hs.stops

theorem Stopping.can_stop_read (hs : th.Stopping) :
    ∃ evs th', th.run evs = .ok th' ∧ th'.Stopping ∧ th'.reading.loc = .returned ∧
      th'.writing = th.writing := by
  obtain ⟨evs, r, hrun, hrank⟩ := read_to_loop th
  have hs' : Stopping { th with reading := r } := ⟨run_counted hs.counted hrun, hs.done, hs.stops⟩
  cases hat : r.loc with
  | returned => exact ⟨evs, _, hrun, hs', hat, rfl⟩
  | loop =>
    obtain ⟨th', hstep, hstopping, hread, hwrite⟩ := hs'.step_stopRead hat
    exact ⟨_, th', runSteps_append hrun (runSteps_singleton hstep), hstopping, hread, hwrite⟩
  | reading => simp [Reading.toLoop, hat] at hrank
  | copying n sender err => simp [Reading.toLoop, hat] at hrank
  | sending pkt => simp [Reading.toLoop, hat] at hrank
  | throttling => simp [Reading.toLoop, hat] at hrank

theorem Stopping.can_stop_write (hs : th.Stopping) (hw : th.writing.Inv) :
    ∃ evs th', th.run evs = .ok th' ∧ th'.Stopping ∧ th'.writing.loc = .returned ∧
      th'.reading = th.reading := by
  cases hloc : th.writing.loc.isReturned with
  | true =>
    refine ⟨[], th, rfl, hs, ?_, rfl⟩
    cases hat : th.writing.loc with
    | returned => rfl
    | _ =>
      rw [hat] at hloc
      cases hloc
  | false =>
    obtain ⟨evs, t, hrun, ht, hrank⟩ := can_drain hw hloc
    have hframe := ht.frame
    have hs' : t.Stopping := by
      refine ⟨run_counted hs.counted hrun, ?_, ?_⟩
      · rw [hframe]
        exact hs.done
      · rw [hframe]
        exact hs.stops
    have hat : t.writing.loc = .loop := by
      have hrunning := ht.running
      cases hat : t.writing.loc with
      | loop => rfl
      | returned =>
        rw [hat] at hrunning
        cases hrunning
      | _ => simp [Writing.rank, hat] at hrank
    obtain ⟨th', hstep, hstopping, hwrite, hread⟩ := hs'.step_stopWrite hat
    refine ⟨_, th', runSteps_append hrun (runSteps_singleton hstep), hstopping, hwrite, ?_⟩
    rw [hread, hframe]

/-- When both routines are gone, `Cleanup` closes the connection. -/
theorem Stopping.can_close (hs : th.Stopping) (hread : th.reading.loc = .returned)
    (hwrite : th.writing.loc = .returned) : th.CanFinish := by
  obtain ⟨st, hst, hcount, -⟩ := hs.stop
  have hleft : st.left = 0 := by
    simp only [returned, hread, hwrite, ReadAt.isReturned, WriteAt.isReturned,
      Bool.toNat_true] at hcount
    omega
  by_cases hclosed : st.cleanup = true → st.closed = true
  · refine ⟨[], th, rfl, hread, hwrite, ?_⟩
    rw [hst]
    intro st' hmem
    cases List.mem_singleton.mp hmem
    exact ⟨hleft, hclosed⟩
  · obtain ⟨hcleanup, hopen⟩ := Classical.not_imp.mp hclosed
    have hstep : th.step (.close 0) =
        .ok { th with stops := th.stops.set 0 { st with closed := true } } := by
      have hget : th.stops[0]? = some st := by rw [hst]; rfl
      simp [step, hget, hcleanup, hleft, hopen]
    refine ⟨_, _, runSteps_singleton hstep, hread, hwrite, ?_⟩
    rw [hst]
    intro st' hmem
    cases List.mem_singleton.mp hmem
    exact ⟨hleft, fun _ => rfl⟩

theorem Stopping.canFinish (hs : th.Stopping) (hw : th.writing.Inv) : th.CanFinish := by
  obtain ⟨evs₁, th₁, hrun₁, hs₁, hread₁, hwriting⟩ := hs.can_stop_read
  rw [← hwriting] at hw
  obtain ⟨evs₂, th₂, hrun₂, hs₂, hwrite₂, hreading⟩ := hs₁.can_stop_write hw
  obtain ⟨evs₃, th₃, hrun₃, hfinished⟩ := hs₂.can_close (hreading ▸ hread₁) hwrite₂
  exact ⟨_, th₃, runSteps_append (runSteps_append hrun₁ hrun₂) hrun₃, hfinished⟩

/-! ## 3. When a shutdown can finish -/

theorem step_done {ev : Event} (h : th.step ev = .ok th') : th'.done = th.done := by
  rcases step_cases h with ⟨e, r, -, -, rfl⟩ | ⟨e, w, -, -, rfl⟩ | ⟨cleanup, rfl⟩ |
    ⟨j, st, -, -, -, rfl⟩ | ⟨j, st, -, -, -, rfl⟩ | ⟨j, st, -, rfl⟩ <;> rfl

/-- A shutdown can finish if `Shutdown` or `Cleanup` was called once, on a throttle that has the
channel `done`, and else not. -/
theorem shutdown_finishes_iff (rbuffSize : Nat) (done : Bool) {evs : List Event}
    (hrun : (start rbuffSize done).run evs = .ok th) :
    th.ShutdownFinishes ↔ th.stops = [] ∨ done = true ∧ th.stops.length = 1 := by
  have hcounted : th.Counted := run_counted (counted_start rbuffSize done) hrun
  have hdone : th.done = done :=
    runSteps_invariant (I := fun t : UDPThrottle => t.done = done)
      (fun _ _ _ ht h => (step_done h).trans ht) rfl hrun
  constructor
  · intro h
    by_cases hstops : th.stops = []
    · exact .inl hstops
    · refine .inr ⟨?_, ?_⟩
      · by_contra hfalse
        cases Bool.eq_false_iff.mpr hfalse
        exact ((running_new rbuffSize).run hrun).not_canFinish (h hstops)
      · have hpos := List.length_pos_of_ne_nil hstops
        by_contra hlen
        exact hcounted.not_canFinish (by omega) (h hstops)
  · rintro (hstops | ⟨rfl, hlen⟩) hne
    · exact absurd hstops hne
    · exact Stopping.canFinish ⟨hcounted, hdone, hlen⟩ (run_inv hrun).writes

/-- With the channel, `Cleanup` can finish. -/
theorem cleanup_finishes :
    ∃ th, (start 4 true).run [.cleanup] = .ok th ∧ th.stops.length = 1 ∧ th.ShutdownFinishes := by
  have hrun : (start 4 true).run [.cleanup] =
      .ok { start 4 true with stops := [⟨true, 2, false⟩] } := rfl
  exact ⟨_, hrun, rfl, (shutdown_finishes_iff 4 true hrun).mpr (.inr ⟨rfl, rfl⟩)⟩

/-- `Cleanup` of a throttle that `NewUDPThrottle` has made waits forever. -/
theorem cleanup_never_returns :
    ∃ th, (new 4).run [.cleanup] = .ok th ∧ th.stops = [⟨true, 2, false⟩] ∧
      ¬ th.ShutdownFinishes := by
  have hrun : (new 4).run [.cleanup] = .ok { new 4 with stops := [⟨true, 2, false⟩] } := rfl
  exact ⟨_, hrun, rfl, fun h =>
    ((running_new 4).run hrun).not_canFinish (h (List.cons_ne_nil _ _))⟩

end UDPThrottle

end Concord
