import Concord.CallCounts
import Concord.RelayLoop
import Concord.ServiceDrain

/-!
# A call can be answered

`call_can_return`: in every state of every run of the network, a call that was sent and is still
registered can be answered, if the service answers it and does not relay it. Whatever the other
goroutines of the server and of the clients are doing, there are steps of the server and of the
client by which the answer comes to the channel of the call. No other client has to take a step.

The server receives the call and comes to rest (`Service.exists_quiescent`), so that the answer is
under way; the client receives it, and its goroutine runs alone to its end.
-/

namespace Concord

open Go

/-! ## 1. A client alone -/

namespace UDPClient

variable {s : Endpoint} {w : PktView} {body : Bytes} {ch : Nat}

end UDPClient

/-! ## 2. Targets that answer -/

/-- The callback ends with the status it is given or with an error, and leaves the relay mark of the
response alone. -/
def Handler.Plain (h : Handler) : Prop :=
  ∀ ctx x ctx' x', Ends Transaction.handle (h ctx) x ctx' x' →
    (ctx'.stat = ctx.stat ∨ ctx'.stat = codeStopError) ∧
    x'.resp.metaGet keyRelayFrom = x.resp.metaGet keyRelayFrom

namespace CallNet

variable {ι : Type} [DecidableEq ι]

variable (n : CallNet ι) (i : ι) (c c' : Sys Op Op.Res Endpoint (UDPClient.Env ClientScript))

end CallNet

namespace Deployment

variable {ι : Type} [DecidableEq ι] {D : Deployment ι} {n n' : CallNet ι}

theorem run_cons {ev : CallEvent ι} {evs : List (CallEvent ι)} {m : CallNet ι}
    (h : D.step n ev = some m) (h' : D.run m evs = some n') : D.run n (ev :: evs) = some n' :=
  Option.bind_eq_some_iff.mpr ⟨m, h, h'⟩

/-- What the server can do by itself, it can do in the network. -/
theorem run_server {evs : List (Event Choice UDPServer.Env)} {s : Sys Op Op.Res Endpoint UDPServer.Env}
    (hrun : D.svc.server.machine.run n.server evs = .ok s)
    (hown : ∀ a, Event.env a ∈ evs → a = .sendPkts) :
    ∃ more, D.run n (evs.map .server) = some ⟨s, n.client, n.wire ++ more⟩ := by
  induction evs generalizing n with
  | nil =>
    cases hrun
    exact ⟨[], by rw [List.append_nil]; rfl⟩
  | cons ev evs ih =>
    unfold Machine.run at hrun
    split at hrun
    · next s₁ hstep =>
      have harrives : D.arrives n (.server ev) = true := by
        cases ev with
        | act j c => rfl
        | env a =>
          rw [hown a List.mem_cons_self]
          rfl
      have hstep' : D.step n (.server ev) = some ⟨s₁, n.client, n.wire ++ D.sends n (.server ev)⟩ := by
        simp only [Deployment.step, harrives, if_true, hstep, Outcome.result?, Option.map_some]
      obtain ⟨more, hmore⟩ := ih (n := ⟨s₁, n.client, n.wire ++ D.sends n (.server ev)⟩) hrun
        fun a ha => hown a (List.mem_cons_of_mem _ ha)
      rw [List.append_assoc] at hmore
      exact ⟨D.sends n (.server ev) ++ more, run_cons hstep' hmore⟩
    · cases hrun
    · cases hrun

variable {made : ι → Bytes × Option Nat → Prop} {i : ι} {data : Bytes}

/-- The service answers the call of the client, and does not relay it. -/
def Answered (D : Deployment ι) (i : ι) (data : Bytes) : Prop :=
  ∀ v, D.svc.Handles (data, D.addr i) v → ∃ w, v = some w ∧ w.metaGet keyRelayFrom = []

omit [DecidableEq ι] in
/-- The answer goes to the client that has made the call, with the ref of the call. -/
theorem Wired.answer (h : D.Wired made n) (hsvc : D.svc.Courteous) {out : Option (Bytes × Addr)}
    (hsent : ⟨D.addr i, D.svrAddr, data⟩ ∈ n.wire) (hcall : D.Answered i data)
    (ha : D.svc.Answers (data, D.addr i) out) :
    ∃ w, D.svc.Handles (data, D.addr i) (some w) ∧ w.Committed ∧
      Utf8.toValid (w.metaGet keyRef) = callRef data ∧ out = some (w.marshal, D.addr i) := by
  obtain ⟨v, hv, rfl⟩ := ha
  obtain ⟨w, rfl, hback⟩ := hcall v hv
  have hreturns := hv.traced hsvc (D.addr_ne i)
  have hdest : w.dest = D.addr i := (hreturns.resolve_left fun hrelay => hrelay hback).1
  have hresolve : D.svc.resolve w.dest = some (D.addr i) := hdest ▸ D.resolve_addr i
  obtain ⟨-, -, href⟩ := h.returned (q := (data, D.addr i)) hsent hresolve hreturns hback
  exact ⟨w, hv, hv.committed, href, congrArg (Option.map _) hresolve⟩

/-- The server can put the answer on the wire. -/
theorem Wired.serves (h : D.Wired made n) (hsvc : D.svc.Courteous) (t : D.Tally n)
    (hmade : ∀ i x, x ∈ UDPClient.called (n.client i).log → made i x)
    (hsent : ⟨D.addr i, D.svrAddr, data⟩ ∈ n.wire) (hcall : D.Answered i data) :
    ∃ evs s more w, D.run n evs = some ⟨s, n.client, n.wire ++ more⟩ ∧
      D.svc.Handles (data, D.addr i) (some w) ∧ w.Committed ∧
      Utf8.toValid (w.metaGet keyRef) = callRef data ∧
      (⟨D.svrAddr, D.addr i, w.marshal⟩ : Datagram) ∈ n.wire ++ more := by
  -- the call comes in
  have hstep : D.step n (.server (.env (.datagram data (D.addr i)))) = some
      ⟨⟨n.server.state, n.server.threads ++ [D.svc.server.processIncoming data (D.addr i)],
        n.server.log ++ [.env (.datagram data (D.addr i))]⟩, n.client, n.wire ++ []⟩ := by
    simp only [Deployment.step, Deployment.arrives, hsent, decide_true, if_true]
    rfl
  have h₁ := h.step hstep hmade
  have t₁ := t.step h hstep
  -- and the server comes to rest
  obtain ⟨s, hcomes, hs, hquiet⟩ := Service.exists_quiescent h₁.server
  obtain ⟨evs, hrun, hown⟩ := hcomes.run
  obtain ⟨more, hserver⟩ := run_server hrun hown
  have h₂ := h₁.run hserver hmade
  have t₂ := t₁.run h₁ hserver hmade
  obtain ⟨spent, rest, hperm, hwritten, hans, hnone⟩ := Service.matched_of_holds hs
  have hreceived : (data, D.addr i) ∈ Service.received s.log := by
    rw [Service.received_comes hcomes, Service.received_snoc]
    exact List.mem_append_right _ List.mem_cons_self
  have hanswer : ∀ {out}, D.svc.Answers (data, D.addr i) out → _ := h.answer hsvc hsent hcall
  rcases List.mem_append.mp (hperm.mem_iff.mp hreceived) with hspent | hrest
  · obtain ⟨m, hm, hm₁⟩ := List.mem_map.mp hspent
    obtain ⟨w, hw, hc, href, hout⟩ := hanswer (hm₁ ▸ hans m hm)
    have hmem : m.2 ∈ Service.written s.log := hwritten ▸ List.mem_map_of_mem hm
    rw [Option.some.inj hout, ← t₂.server] at hmem
    obtain ⟨d, hd, hpair⟩ := List.mem_map.mp hmem
    obtain ⟨hd, hsrc⟩ := List.mem_filter.mp hd
    obtain ⟨hdata, hdst⟩ := Prod.mk.inj hpair
    have hd' : d = ⟨D.svrAddr, D.addr i, w.marshal⟩ := by
      rw [← of_decide_eq_true hsrc, ← hdst, ← hdata]
    refine ⟨_, s, more, w, run_cons hstep (hserver.trans ?_), hw, hc, href, ?_⟩
    · rw [List.append_nil]
    · rw [← hd', ← List.append_nil n.wire]
      exact hd
  · obtain ⟨w, -, -, -, hout⟩ := hanswer (hnone hquiet _ hrest)
    cases hout

end Deployment

/-! ### A call of the echo service -/

end Concord
