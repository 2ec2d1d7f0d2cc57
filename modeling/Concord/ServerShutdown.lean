import Concord.Go.Trace
import Concord.UDPServer

/-!
# The end of a UDP server

`Serve` of the UDP server waits for its five readers only, and closes `writeStream` and
`sendStream` then. A goroutine that sends on a closed channel panics.

`no_send_on_closed`: if `Serve` closes the channels only after all goroutines the readers and
`sendPkts` have started have returned, and while `sendPkts` holds no packet, nothing is sent on a
closed channel.
-/

namespace Concord

open Go

/-! ## 1. The server with its readers -/

/-- A server in `Serve`: what the goroutines share, the number of readers that have not come to
an error, and which of the two streams are closed. -/
structure Serving where
  ep : Endpoint
  readers : Nat
  writeClosed : Bool
  sendClosed : Bool

namespace Serving

def start : Serving := ⟨Endpoint.init, 5, false, false⟩

/-- The operation is a send on a channel that is closed. -/
def onClosed (s : Serving) : Op → Bool
  | .sendStream _ => s.sendClosed
  | .dist _ _ => s.writeClosed
  | _ => false

def handle (s : Serving) (c : Choice) (e : Op) : Outcome (e.Res × Serving) :=
  if s.onClosed e then .crash
  else
    match s.ep.handle c e with
    | .ok (r, ep) => .ok (r, { s with ep := ep })
    | .block => .block
    | .crash => .crash

theorem handle_ok {s s' : Serving} {c : Choice} {e : Op} {r : e.Res}
    (h : s.handle c e = .ok (r, s')) :
    s.onClosed e = false ∧ ∃ ep, s.ep.handle c e = .ok (r, ep) ∧ s' = { s with ep := ep } := by
  unfold handle at h
  split at h
  · cases h
  · next hopen =>
    split at h
    · next r' ep hh =>
      cases h
      exact ⟨Bool.eq_false_iff.mpr hopen, ep, hh, rfl⟩
    · cases h
    · cases h

end Serving

namespace UDPServer

/-- Around the goroutines: a reader reads a datagram or fails, `sendPkts` starts a goroutine, a
pooled packet is dropped, and `Serve` closes `writeStream` and then `sendStream`. -/
inductive ServeEnv where
  | datagram (data : Bytes) (sender : GoString)
  | readFailed
  | sendPkts
  | gc (n : Nat)
  | closeWrite
  | closeSend

def serveEnv (svr : UDPServer) (s : Serving) : ServeEnv → Option (Serving × Option (Routine Unit))
  | .datagram data sender =>
    if s.readers = 0 then none else some (s, some (svr.processIncoming data sender))
  | .readFailed => if s.readers = 0 then none else some ({ s with readers := s.readers - 1 }, none)
  | .sendPkts => s.ep.sending.map fun p =>
    ({ s with ep := { s.ep with sending := none } }, some (svr.processOutgoing p))
  | .gc n => some ({ s with ep := { s.ep with pkts := s.ep.pkts.drop n } }, none)
  | .closeWrite =>
    if s.readers = 0 && !s.writeClosed then some ({ s with writeClosed := true }, none) else none
  | .closeSend =>
    if s.writeClosed && !s.sendClosed then some ({ s with sendClosed := true }, none) else none

/-- The server in `Serve`. -/
def serving (svr : UDPServer) : Machine Op Op.Res Serving Choice ServeEnv :=
  ⟨Serving.handle, svr.serveEnv⟩

/-- `Serve` has just started its routines. -/
def serveStart : Sys Op Op.Res Serving ServeEnv := ⟨Serving.start, [], []⟩

end UDPServer

/-- Some goroutine is at a send on a closed stream. -/
def SendsOnClosed (s : Sys Op Op.Res Serving UDPServer.ServeEnv) : Prop :=
  ∃ t ∈ s.threads, t.next.any s.state.onClosed = true

instance (s : Sys Op Op.Res Serving UDPServer.ServeEnv) : Decidable (SendsOnClosed s) :=
  inferInstanceAs (Decidable (∃ t ∈ s.threads, t.next.any s.state.onClosed = true))

/-! ## 2. Closing -/

/-- What `Serve` does not wait for: every goroutine has returned, and `sendPkts` is not about to
start another one. -/
def AllReturned (s : Sys Op Op.Res Serving UDPServer.ServeEnv) : Prop :=
  s.state.ep.sending = none ∧ ∀ t ∈ s.threads, t.next = none

instance (s : Sys Op Op.Res Serving UDPServer.ServeEnv) : Decidable (AllReturned s) :=
  inferInstanceAs (Decidable (_ ∧ _))

/-- `Serve` begins to close the streams when all goroutines have returned. -/
def ClosesLast (s : Sys Op Op.Res Serving UDPServer.ServeEnv) :
    Event Choice UDPServer.ServeEnv → Prop
  | .env .closeWrite => AllReturned s
  | _ => True

instance (s : Sys Op Op.Res Serving UDPServer.ServeEnv) (ev : Event Choice UDPServer.ServeEnv) :
    Decidable (ClosesLast s ev) := by
  unfold ClosesLast
  split
  · infer_instance
  · infer_instance

/-- Once `Serve` has begun to close the streams there are no readers, and no goroutine is left. -/
structure Closed (s : Sys Op Op.Res Serving UDPServer.ServeEnv) : Prop where
  write : s.state.writeClosed = true → s.state.readers = 0 ∧ AllReturned s
  send : s.state.sendClosed = true → s.state.writeClosed = true

section Steps

variable {svr : UDPServer} {s s' : Sys Op Op.Res Serving UDPServer.ServeEnv}

/-- A goroutine that takes a step has not returned. -/
theorem AllReturned.not_op {i : Nat} {e : Op} {k : e.Res → Routine Unit} (hs : AllReturned s) :
    s.threads[i]? ≠ some (.op e k) := by
  intro ht
  cases hs.2 _ (List.mem_of_getElem? ht)

section Env

variable {st st' : Serving} {a : UDPServer.ServeEnv} {t : Option (Routine Unit)}

/-- Without readers and with nothing to send, no goroutine is started. -/
theorem serveEnv_without (h : svr.serveEnv st a = some (st', t)) (hreaders : st.readers = 0)
    (hsending : st.ep.sending = none) :
    t = none ∧ st'.readers = 0 ∧ st'.ep.sending = none := by
  cases a with
  | datagram data sender =>
    rw [UDPServer.serveEnv, if_pos hreaders] at h
    cases h
  | readFailed =>
    rw [UDPServer.serveEnv, if_pos hreaders] at h
    cases h
  | sendPkts =>
    rw [UDPServer.serveEnv, hsending] at h
    cases h
  | gc n =>
    cases h
    exact ⟨rfl, hreaders, hsending⟩
  | closeWrite =>
    obtain ⟨-, heq⟩ := Option.ite_none_right_eq_some.mp h
    cases heq
    exact ⟨rfl, hreaders, hsending⟩
  | closeSend =>
    obtain ⟨-, heq⟩ := Option.ite_none_right_eq_some.mp h
    cases heq
    exact ⟨rfl, hreaders, hsending⟩

/-- What a step around the goroutines does to the streams. -/
theorem serveEnv_streams (h : svr.serveEnv st a = some (st', t)) :
    (st'.writeClosed = st.writeClosed ∧ st'.sendClosed = st.sendClosed) ∨
    (a = .closeWrite ∧ st.readers = 0 ∧ st'.writeClosed = true ∧ st'.sendClosed = st.sendClosed) ∨
    (st.writeClosed = true ∧ st'.writeClosed = true) := by
  cases a with
  | datagram data sender =>
    obtain ⟨-, heq⟩ := Option.ite_none_left_eq_some.mp h
    cases heq
    exact .inl ⟨rfl, rfl⟩
  | readFailed =>
    obtain ⟨-, heq⟩ := Option.ite_none_left_eq_some.mp h
    cases heq
    exact .inl ⟨rfl, rfl⟩
  | sendPkts =>
    obtain ⟨p, -, heq⟩ := Option.map_eq_some_iff.mp h
    cases heq
    exact .inl ⟨rfl, rfl⟩
  | gc n =>
    cases h
    exact .inl ⟨rfl, rfl⟩
  | closeWrite =>
    obtain ⟨hclose, heq⟩ := Option.ite_none_right_eq_some.mp h
    cases heq
    exact .inr (.inl ⟨rfl, of_decide_eq_true (Bool.and_eq_true_iff.mp hclose).1, rfl, rfl⟩)
  | closeSend =>
    obtain ⟨hclose, heq⟩ := Option.ite_none_right_eq_some.mp h
    cases heq
    have hwrite := (Bool.and_eq_true_iff.mp hclose).1
    exact .inr (.inr ⟨hwrite, hwrite⟩)

/-- A closed `sendStream` is closed behind `writeStream`. -/
theorem serveEnv_order (h : svr.serveEnv st a = some (st', t))
    (hst : st.sendClosed = true → st.writeClosed = true) (hsend : st'.sendClosed = true) :
    st'.writeClosed = true := by
  rcases serveEnv_streams h with ⟨hw, hs⟩ | ⟨-, -, hw, -⟩ | ⟨-, hw⟩
  · exact hw.trans (hst (hs.symm.trans hsend))
  · exact hw
  · exact hw

end Env

/-- When a step around the goroutines leaves `writeStream` closed, all goroutines had returned
before. -/
theorem returned_before {a : UDPServer.ServeEnv} {st : Serving} {t : Option (Routine Unit)}
    (hs : Closed s) (ha : ClosesLast s (.env a)) (h : svr.serveEnv s.state a = some (st, t))
    (hw : st.writeClosed = true) : s.state.readers = 0 ∧ AllReturned s := by
  rcases serveEnv_streams h with ⟨hsame, -⟩ | ⟨rfl, hreaders, -⟩ | ⟨hbefore, -⟩
  · exact hs.write (hsame.symm.trans hw)
  · exact ⟨hreaders, ha⟩
  · exact hs.write hbefore

theorem step_closed {ev : Event Choice UDPServer.ServeEnv} (hs : Closed s)
    (ha : ClosesLast s ev) (h : svr.serving.step s ev = .ok s') : Closed s' := by
  rcases Machine.step_ok h with ⟨i, c, e, k, r, st, rfl, ht, hh, rfl⟩ | ⟨a, st, rfl, he, rfl⟩ |
    ⟨a, st, t, rfl, he, rfl⟩
  · obtain ⟨-, ep, -, rfl⟩ := Serving.handle_ok (c := c) hh
    exact ⟨fun hw => absurd ht (hs.write hw).2.not_op, hs.send⟩
  · refine ⟨fun hw => ?_, serveEnv_order he hs.send⟩
    obtain ⟨hreaders, hsending, hthreads⟩ := returned_before hs ha he hw
    obtain ⟨-, hreaders', hsending'⟩ := serveEnv_without he hreaders hsending
    exact ⟨hreaders', hsending', hthreads⟩
  · refine ⟨fun hw => ?_, serveEnv_order he hs.send⟩
    obtain ⟨hreaders, hsending, -⟩ := returned_before hs ha he hw
    cases (serveEnv_without he hreaders hsending).1

/-- Before `writeStream` is closed both streams are open. -/
theorem Closed.open_before (hs : Closed s) (hw : s.state.writeClosed = false) (e : Op) :
    s.state.onClosed e = false := by
  have hsend : s.state.sendClosed = false := by
    rw [Bool.eq_false_iff] at hw ⊢
    exact fun h => hw (hs.send h)
  cases e with
  | sendStream p => exact hsend
  | dist data addr => exact hw
  | _ => rfl

/-- If `Serve` closes the streams only after all goroutines have returned, nothing is sent on a
closed one. -/
theorem no_send_on_closed (svr : UDPServer) {evs : List (Event Choice UDPServer.ServeEnv)}
    {s : Sys Op Op.Res Serving UDPServer.ServeEnv}
    (hrun : svr.serving.run UDPServer.serveStart evs = .ok s)
    (hcloses : svr.serving.EachAllowed ClosesLast UDPServer.serveStart evs) :
    ¬ SendsOnClosed s := by
  have hstart : Closed UDPServer.serveStart :=
    ⟨fun hw => Bool.noConfusion hw, fun hw => Bool.noConfusion hw⟩
  have hs : Closed s := Machine.run_invariant_of_allowed step_closed hstart hcloses hrun
  rintro ⟨t, ht, hsends⟩
  rw [Option.any_eq_true] at hsends
  obtain ⟨e, he, hclosed⟩ := hsends
  cases hw : s.state.writeClosed with
  | false => exact absurd ((hs.open_before hw e).symm.trans hclosed) Bool.false_ne_true
  | true =>
    rw [(hs.write hw).2.2 t ht] at he
    cases he

end Steps

/-! ## 3. Two runs -/

namespace UDPServer

/-- The readers fail and `Serve` returns. -/
def shutdown : List (Event Choice ServeEnv) :=
  List.replicate 5 (.env .readFailed) ++ [.env .closeWrite, .env .closeSend]

/-- A goroutine has refused the empty datagram of a peer and is to send the error. -/
def refusing : List (Event Choice ServeEnv) :=
  .env (.datagram [] (ascii "10.0.0.5:5000")) :: List.replicate 13 (.act 0 {})

/-- The error goes out: `sendPkts` starts the second goroutine, and both go on to their end. -/
def errorSent : List (Event Choice ServeEnv) :=
  [.act 0 {}, .env .sendPkts, .act 1 {}, .act 0 {}, .act 1 {}, .act 1 {}, .act 1 {}]

/-- The readers fail while the error has yet to be sent, and `Serve` waits until it has been. -/
theorem refusal_shutdown :
    ∃ s, (UDPServer.new some).serving.run serveStart
        (refusing ++ shutdown.take 5 ++ errorSent ++ shutdown.drop 5) = .ok s ∧
      s.threads.length = 2 ∧ s.state.sendClosed = true ∧ ¬ SendsOnClosed s := by
  have hclosed : ((UDPServer.new some).serving.run serveStart
      (refusing ++ shutdown.take 5 ++ errorSent ++ shutdown.drop 5)).result?.any (fun s =>
        decide (s.threads.length = 2) && s.state.sendClosed) = true := by
    decide +kernel
  rw [Option.any_eq_true] at hclosed
  obtain ⟨s, hs, hclosed⟩ := hclosed
  obtain ⟨hlen, hclosed⟩ := Bool.and_eq_true_iff.mp hclosed
  have hrun := Outcome.eq_ok_of_result? hs
  have hlast : (UDPServer.new some).serving.EachAllowed ClosesLast serveStart
      (refusing ++ shutdown.take 5 ++ errorSent ++ shutdown.drop 5) := by
    decide +kernel
  exact ⟨s, hrun, of_decide_eq_true hlen, hclosed,
    no_send_on_closed (UDPServer.new some) hrun hlast⟩

/-- The readers fail and `Serve` returns before the error is sent. -/
theorem error_sent_on_closed :
    ∃ s, (UDPServer.new some).serving.run serveStart (refusing ++ shutdown) = .ok s ∧
      SendsOnClosed s := by
  have hrun : ((UDPServer.new some).serving.run serveStart
      (refusing ++ shutdown)).result?.any (fun s => decide (SendsOnClosed s)) = true := by
    decide +kernel
  rw [Option.any_eq_true] at hrun
  obtain ⟨s, hs, hsends⟩ := hrun
  exact ⟨s, Outcome.eq_ok_of_result? hs, of_decide_eq_true hsends⟩

end UDPServer

end Concord
