import Concord.ThrottleReading
import Concord.ThrottleWriting

/-!
# The throttle refines the connection

What callers of a throttle see is what callers of the connection itself would see:
`throttle_refines_conn`. The writes come to the connection once each and in the order in which
they were accepted, a call returns what came of its own write, and what the calls of `ReadFrom`
receive is what the connection has given, cut to the size of the read buffer and in order.

No call waits in vain: `writeTo_can_return`, `readFrom_can_return`.
-/

namespace Concord

open Go

namespace UDPThrottle

/-! ## 1. Calls can return -/

/-- What holds in every run. -/
structure Inv (rbuffSize : Nat) (th : UDPThrottle) : Prop where
  memory : th.reading.Memory rbuffSize
  calls : th.reading.Calls
  writes : th.writing.Inv

theorem inv_start (rbuffSize : Nat) (done : Bool) : (start rbuffSize done).Inv rbuffSize :=
  ⟨Reading.memory_new rbuffSize, Reading.calls_new rbuffSize, Writing.inv_new⟩

variable {rbuffSize : Nat} {th th' : UDPThrottle}

theorem step_inv {ev : Event} (hs : th.Inv rbuffSize) (h : th.step ev = .ok th') :
    th'.Inv rbuffSize := by
  rcases step_cases h with ⟨e, r, -, hr, rfl⟩ | ⟨e, w, -, hw, rfl⟩ | ⟨cleanup, rfl⟩ |
    ⟨j, st, -, -, hloc, rfl⟩ | ⟨j, st, -, -, hloc, rfl⟩ | ⟨j, st, -, rfl⟩
  · exact ⟨Reading.step_memory hs.memory hr, Reading.step_calls hs.calls hr, hs.writes⟩
  · exact ⟨hs.memory, hs.calls, Writing.step_inv hs.writes hw⟩
  · exact ⟨hs.memory, hs.calls, hs.writes⟩
  · exact ⟨hs.memory.stopped hloc, ⟨hs.calls.returned, hs.calls.nodup⟩, hs.writes⟩
  · exact ⟨hs.memory, hs.calls, hs.writes.stopped hloc⟩
  · exact ⟨hs.memory, hs.calls, hs.writes⟩

theorem run_inv {done : Bool} {evs : List Event} (h : (start rbuffSize done).run evs = .ok th) :
    th.Inv rbuffSize :=
  runSteps_invariant (fun _ _ _ hs h => step_inv hs h) (inv_start rbuffSize done) h

/-- What `write` has to do until there is nothing left. -/
def Writing.rank (s : Writing) : Nat :=
  4 * s.send.items.length +
    match s.loc with
    | .writing _ => 3
    | .replying _ _ => 2
    | .throttling => 1
    | _ => 0

/-- `write` goes on, without the calls. -/
theorem Writing.step_rank {s : Writing} (hs : s.Inv) (hloc : s.loc.isReturned = false)
    (hrank : s.rank ≠ 0) :
    ∃ ev s', s.step ev = some s' ∧ s'.rank < s.rank ∧ s'.accepted = s.accepted ∧
      s'.calls.length = s.calls.length := by
  cases hat : s.loc with
  | loop =>
    cases hitems : s.send.items with
    | nil => simp [rank, hat, hitems] at hrank
    | cons pkt pkts =>
      obtain ⟨send, hrecv, hsend⟩ := Chan.recv_cons hitems
      refine ⟨.take, { s with send, loc := .writing pkt }, by simp only [step, hat, hrecv]; rfl, ?_,
        rfl, rfl⟩
      simp only [rank, hat, hitems, hsend, List.length_cons]
      omega
  | writing pkt =>
    refine ⟨.conn ⟨0, none⟩, { s with
      loc := .replying pkt ⟨0, none⟩, written := s.written ++ [(pkt, ⟨0, none⟩)] },
      by simp only [step, hat], ?_, rfl, rfl⟩
    simp only [rank, hat]
    omega
  | replying pkt status =>
    have hwait := hs.waiting_taken (by rw [taken, hat])
    refine ⟨.reply, s.answered pkt status ⟨pkt.data, pkt.addr, .waiting⟩,
      by simp only [step, hat, hwait, if_true], ?_, rfl, List.length_set⟩
    simp only [rank, hat, answered]
    omega
  | throttling =>
    refine ⟨.wake, { s with loc := .loop }, by simp only [step, hat], ?_, rfl, rfl⟩
    simp only [rank, hat]
    omega
  | returned =>
    rw [hat] at hloc
    cases hloc

/-- When `write` has nothing left to do, no call waits. -/
theorem Writing.Inv.returned_of_rank {s : Writing} {i : Nat} {c : WriteCall} (hs : s.Inv)
    (hrank : s.rank = 0) (hi : s.calls[i]? = some c) (hc : c.loc ≠ .sending) :
    ∃ status, c.loc = .returned status := by
  have hidle : s.taken ++ s.send.items = [] := by
    obtain ⟨hitems, hloc⟩ := Nat.add_eq_zero_iff.mp hrank
    have hnil : s.send.items = [] := List.eq_nil_of_length_eq_zero (by omega)
    rw [hnil, List.append_nil, Writing.taken]
    split
    · next hat => simp [hat] at hloc
    · next hat => simp [hat] at hloc
    · rfl
  obtain ⟨pkt, hpkt, rfl⟩ := List.mem_map.mp (hs.calls i c hi hc)
  rw [hs.accepted_eq, hidle, List.append_nil] at hpkt
  obtain ⟨x, hx, rfl⟩ := List.mem_map.mp hpkt
  have hret := hs.returned x hx
  rw [hi] at hret
  cases hret
  exact ⟨_, rfl⟩

/-- What `write` keeps while it answers what was accepted before. -/
structure Draining (th t : UDPThrottle) : Prop where
  frame : t = { th with writing := t.writing }
  inv : t.writing.Inv
  running : t.writing.loc.isReturned = false
  accepted : t.writing.accepted = th.writing.accepted
  calls : t.writing.calls.length = th.writing.calls.length

/-- Everything that was accepted can be answered. -/
theorem can_drain (hs : th.writing.Inv) (hloc : th.writing.loc.isReturned = false) :
    ∃ evs t, th.run evs = .ok t ∧ Draining th t ∧ t.writing.rank = 0 := by
  refine runSteps_rank (I := Draining th) (fun t ht hrank => ?_) ⟨rfl, hs, hloc, rfl, rfl⟩
  obtain ⟨ev, w, hw, hlt, haccepted, hcalls⟩ := Writing.step_rank ht.inv ht.running hrank
  refine ⟨.write ev, _, step_write hw, ⟨?_, Writing.step_inv ht.inv hw,
    (Writing.step_isReturned hw).trans ht.running, haccepted.trans ht.accepted,
    hcalls.trans ht.calls⟩, hlt⟩
  rw [ht.frame]

/-- The call has returned. -/
def WriteReturned (th : UDPThrottle) (i : Nat) : Prop :=
  ∃ c status, th.writing.calls[i]? = some c ∧ c.loc = .returned status

/-- A call of `WriteTo` can return: `write` answers the others first, and then this one. -/
theorem writeTo_can_return {i : Nat} (hs : th.writing.Inv)
    (hloc : th.writing.loc.isReturned = false) (hi : i < th.writing.calls.length) :
    ∃ evs th', th.run evs = .ok th' ∧ th'.WriteReturned i := by
  -- after the first drain the call has returned, or it finds room in `send`
  obtain ⟨evs₁, th₁, hrun₁, h₁, hrank₁⟩ := can_drain hs hloc
  obtain ⟨c, hc⟩ : ∃ c, th₁.writing.calls[i]? = some c :=
    ⟨_, List.getElem?_eq_getElem (h₁.calls ▸ hi)⟩
  by_cases hsending : c.loc = .sending
  · have hroom : th₁.writing.send.items.length < 100 := by
      have := hrank₁
      unfold Writing.rank at this
      omega
    obtain ⟨send, hsend, -⟩ := Chan.send_room hroom ⟨c.data, c.addr, i⟩
    have hw : th₁.writing.step (.send i) = some (th₁.writing.sent i c send) := by
      simp only [Writing.step, hc, hsending, if_true, hsend, Option.map_some]
    obtain ⟨evs₂, th₂, hrun₂, h₂, hrank₂⟩ : ∃ evs t,
        UDPThrottle.run { th₁ with writing := th₁.writing.sent i c send } evs = .ok t ∧
          Draining { th₁ with writing := th₁.writing.sent i c send } t ∧ t.writing.rank = 0 :=
      can_drain (Writing.step_inv h₁.inv hw) ((Writing.step_isReturned hw).trans h₁.running)
    have hmem : (⟨c.data, c.addr, i⟩ : WritePkt) ∈ th₂.writing.accepted := by
      rw [h₂.accepted]
      exact List.mem_append_right _ (List.mem_singleton_self _)
    obtain ⟨loc, hc₂, hne⟩ := h₂.inv.call_of_accepted hmem
    obtain ⟨status, hret⟩ := h₂.inv.returned_of_rank hrank₂ hc₂ hne
    have hsent := runSteps_singleton (step_write hw)
    exact ⟨_, th₂, runSteps_append hrun₁ (runSteps_append hsent hrun₂), _, status, hc₂, hret⟩
  · obtain ⟨status, hret⟩ := h₁.inv.returned_of_rank hrank₁ hc hsending
    exact ⟨evs₁, th₁, hrun₁, _, status, hc, hret⟩

/-- What `read` has to do until there is something to receive. -/
def Reading.rank (s : Reading) : Nat :=
  if s.recv.items = [] then
    match s.loc with
    | .sending _ => 1
    | .copying _ _ _ => 2
    | .reading => 3
    | .loop => 4
    | _ => 5
  else 0

theorem Reading.step_rank {s : Reading} (hloc : s.loc.isReturned = false) (hrank : s.rank ≠ 0) :
    ∃ ev s', s.step false ev = some s' ∧ s'.rank < s.rank ∧ s'.calls = s.calls := by
  have hitems : s.recv.items = [] := by
    by_contra hne
    exact hrank (if_neg hne)
  cases hat : s.loc with
  | loop =>
    refine ⟨.poll, { s with loc := .reading }, by simp [step, hat], ?_, rfl⟩
    simp [rank, hat, hitems]
  | reading =>
    refine ⟨.conn ⟨[], none, none⟩, s.filled ⟨[], none, none⟩, by simp only [step, hat], ?_, rfl⟩
    simp [rank, hat, hitems, filled]
  | copying n sender err =>
    refine ⟨.copy, s.copied n sender err, by simp only [step, hat], ?_, rfl⟩
    simp [rank, hat, hitems, copied]
  | sending pkt =>
    have hroom : s.recv.items.length < 100 := by
      rw [hitems]
      decide
    obtain ⟨recv, hsend, hrecv⟩ := Chan.send_room hroom pkt
    refine ⟨.send, { s with recv, loc := .throttling }, by simp [step, hat, hsend], ?_, rfl⟩
    simp [rank, hat, hitems, hrecv]
  | throttling =>
    refine ⟨.wake, { s with loc := .loop }, by simp [step, hat], ?_, rfl⟩
    simp [rank, hat, hitems]
  | returned =>
    rw [hat] at hloc
    cases hloc

theorem Running.step_read {ev : ReadEvent} {r : Reading} (hs : th.Running)
    (h : th.reading.step false ev = some r) :
    th.step (.read ev) = .ok { th with reading := r } := by
  have hany : th.stops.any th.canStop = false := by
    rw [List.any_eq_false]
    intro st _
    rw [hs.canStop]
    exact Bool.false_ne_true
  refine UDPThrottle.step_read ?_
  rw [hany]
  exact h

/-- The call has returned. -/
def ReadReturned (th : UDPThrottle) (i : Nat) : Prop :=
  ∃ pkt, th.reading.calls[i]? = some (some pkt)

/-- A call of `ReadFrom` can return. -/
theorem readFrom_can_return {i : Nat} (hs : th.Running) (hi : i < th.reading.calls.length) :
    ∃ evs th', th.run evs = .ok th' ∧ th'.ReadReturned i := by
  obtain ⟨r, hr⟩ : ∃ r, th.reading.calls[i]? = some r := ⟨_, List.getElem?_eq_getElem hi⟩
  cases r with
  | some pkt => exact ⟨[], th, rfl, pkt, hr⟩
  | none =>
    obtain ⟨evs, th₁, hrun, ⟨hrunning, hcalls⟩, hrank⟩ : ∃ evs t, th.run evs = .ok t ∧
        (t.Running ∧ t.reading.calls = th.reading.calls) ∧ t.reading.rank = 0 := by
      refine runSteps_rank
        (I := fun t : UDPThrottle => t.Running ∧ t.reading.calls = th.reading.calls)
        (fun t ⟨hrunning, hcalls⟩ hrank => ?_) ⟨hs, rfl⟩
      obtain ⟨ev, r, hr, hlt, hcalls'⟩ := Reading.step_rank hrunning.read hrank
      have hstep := hrunning.step_read hr
      exact ⟨.read ev, _, hstep, ⟨step_running hrunning hstep, hcalls'.trans hcalls⟩, hlt⟩
    obtain ⟨pkt, pkts, hitems⟩ := List.exists_cons_of_ne_nil fun h => by
      unfold Reading.rank at hrank
      rw [if_pos h] at hrank
      split at hrank <;> cases hrank
    obtain ⟨recv, hrecv, -⟩ := Chan.recv_cons hitems
    rw [← hcalls] at hr
    have hread : th₁.reading.step false (.receive i) = some (th₁.reading.delivered i pkt recv) := by
      simp only [Reading.step, hr, hrecv]
    have hlast := runSteps_singleton (hrunning.step_read hread)
    exact ⟨_, _, runSteps_append hrun hlast, pkt, List.getElem?_set_self (hcalls ▸ hi)⟩

/-! ## 2. The refinement -/

/-- What callers see is what the connection does. The writes that were accepted are those that
were passed to the connection, in order, and then those that wait for it; a call of `WriteTo` has
returned what came of the only write that was made for it, that of its own data. What calls of
`ReadFrom` have received, in order, and then what waits to be received is what the connection has
given, of every datagram what the read buffer can hold. No call waits in vain. -/
structure RefinesConn (rbuffSize : Nat) (th : UDPThrottle) : Prop where
  writes : th.writing.accepted = th.writing.written.map Prod.fst ++ th.writing.unwritten
  statuses : ∀ i c status, th.writing.calls[i]? = some c → c.loc = .returned status →
    th.writing.written.filter (fun x => x.1.respCh = i) = [(⟨c.data, c.addr, i⟩, status)]
  reads : th.reading.received.map (fun x => th.reading.view x.2) ++ th.reading.undelivered =
    th.reading.results.map (·.cut rbuffSize)
  receivers : (th.reading.received.map Prod.fst).Nodup ∧
    ∀ i pkt, th.reading.calls[i]? = some (some pkt) ↔ (i, pkt) ∈ th.reading.received
  writes_return : ∀ i < th.writing.calls.length, ∃ evs th', th.run evs = .ok th' ∧
    th'.WriteReturned i
  reads_return : ∀ i < th.reading.calls.length, ∃ evs th', th.run evs = .ok th' ∧
    th'.ReadReturned i

theorem throttle_refines_conn (rbuffSize : Nat) {evs : List Event} {th : UDPThrottle}
    (hrun : (new rbuffSize).run evs = .ok th) : th.RefinesConn rbuffSize := by
  have hs : th.Inv rbuffSize := run_inv hrun
  have hrunning : th.Running := (running_new rbuffSize).run hrun
  exact {
    writes := hs.writes.accepted
    statuses := fun i c status hi hc => hs.writes.own_status hi hc
    reads := by
      rw [← hs.memory.results, Reading.pkts, Reading.undelivered]
      simp only [List.map_append, List.map_map, List.append_assoc]
      rfl
    receivers := ⟨hs.calls.nodup, hs.calls.returned⟩
    writes_return := fun i hi => writeTo_can_return hs.writes hrunning.write hi
    reads_return := fun i hi => readFrom_can_return hrunning hi }

/-- Two calls of `WriteTo`, the second of which is accepted first, and a datagram that is longer
than the read buffer and is received after the next one was read. -/
def traffic : List Event :=
  [.write (.call [1] (ascii "10.0.0.5:5000")), .write (.call [2] (ascii "10.0.0.6:5000")),
    .write (.send 1), .write (.send 0), .write .take, .write (.conn ⟨1, none⟩), .write .reply,
    .read .poll, .read (.conn ⟨[1, 2, 3, 4, 5, 6], some (ascii "10.0.0.5:5000"), none⟩),
    .read .copy, .read .send, .read .wake, .read .poll,
    .read (.conn ⟨[9, 9, 9, 9], some (ascii "10.0.0.6:5000"), none⟩), .read .call,
    .read (.receive 0)]

theorem traffic_refines :
    ∃ th, (new 4).run traffic = .ok th ∧
      th.writing.calls = [⟨[1], ascii "10.0.0.5:5000", .waiting⟩,
        ⟨[2], ascii "10.0.0.6:5000", .returned ⟨1, none⟩⟩] ∧
      th.reading.received.map (fun x => (th.reading.view x.2).data) = [[1, 2, 3, 4]] ∧
      th.RefinesConn 4 := by
  have hrun : ∃ th, (new 4).run traffic = .ok th ∧
      th.writing.calls = [⟨[1], ascii "10.0.0.5:5000", .waiting⟩,
        ⟨[2], ascii "10.0.0.6:5000", .returned ⟨1, none⟩⟩] ∧
      th.reading.received.map (fun x => (th.reading.view x.2).data) = [[1, 2, 3, 4]] :=
    ⟨_, rfl, rfl, rfl⟩
  obtain ⟨th, hth, hcalls, hdata⟩ := hrun
  exact ⟨th, hth, hcalls, hdata, throttle_refines_conn 4 hth⟩

end UDPThrottle

end Concord
