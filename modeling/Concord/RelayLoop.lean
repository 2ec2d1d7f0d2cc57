import Mathlib.Algebra.BigOperators.Group.Finset.Basic
import Mathlib.Algebra.Order.BigOperators.Group.Finset
import Mathlib.Data.List.Perm.Subperm
import Concord.RemoteCalls

/-!
# Relays to a server

Servers that can reach each other, each at its own address and with its own targets. A packet
without a target is refused with an error packet, which goes back to where it came from and has
no target either. So when a client has a packet relayed to the address of a server, be it the one
that is asked or another, the packet and the refusals after it never die out.

`relay_to_server_never_rests`: once such a request was received, there is a datagram from a
server to a server that has not been received yet whenever all servers are at rest, in every run
of each and whatever else they serve. The servers stop only if the network loses a datagram.

For each server at rest, the datagrams that were to be answered to a server are at most as many
as those it has written to servers (`rest_le`); the sum over all servers gives the result.
-/

namespace Concord

open Go

/-! ## 1. The target of a datagram -/

theorem callTarget_marshal_eq_nil {v : PktView} (h : v.kv.get? keyTarget = none) :
    callTarget v.marshal = [] := by
  rw [callTarget, index_marshal v keyTarget_ascii, PktView.metaGet, h]
  rfl

namespace Service

/-- An error packet has no target. -/
theorem callTarget_errorView (ref dest msg : GoString) (stale : Bytes) :
    callTarget (errorView ref dest msg stale).marshal = [] := by
  refine callTarget_marshal_eq_nil ?_
  simp only [errorView, JSONPkt.errMeta, JSONPkt.refMeta, GoMap.get?_set,
    if_neg (show keyTarget ≠ keySvrStatus by decide), if_neg (show keyTarget ≠ keySvrMsg by decide),
    if_neg (show keyTarget ≠ keyRef by decide), GoMap.get?_empty]

/-- Nor has a packet that `svr.relay` forwards, whatever the target of the request for it. -/
theorem callTarget_forwardView (sender : GoString) (req : PktView) :
    callTarget (forwardView sender req).marshal = [] := by
  refine callTarget_marshal_eq_nil ?_
  simp only [forwardView, JSONPkt.refMeta, GoMap.get?_set,
    if_neg (show keyTarget ≠ keyRelayFrom by decide), if_neg (show keyTarget ≠ keyRef by decide),
    GoMap.get?_empty]

end Service

/-! ## 2. The servers -/

/-- Servers at addresses that resolve to themselves; none has a target without a name. -/
structure Federation (ι : Type) where
  svc : ι → Service
  addr : ι → Addr
  addr_inj : ∀ {i j}, addr i = addr j → i = j
  resolve_addr : ∀ i j, (svc i).resolve (addr j) = some (addr j)
  named : ∀ i, ∀ t ∈ (svc i).targets, t.1 ≠ []

namespace Federation

variable {ι : Type} (F : Federation ι)

/-- The datagram has no target, and the other side is a server. -/
def Stray (d : Bytes × Addr) : Prop := callTarget d.1 = [] ∧ ∃ j, d.2 = F.addr j

/-- The datagram asks the server to relay to a server. -/
def Relays (i : ι) (q : Bytes × GoString) : Prop :=
  callTarget q.1 = targetRelay ∧ ∃ j, (F.svc i).resolve (relayDest q.1) = some (F.addr j)

variable {F} {i : ι} {q : Bytes × GoString} {out : Option (Bytes × Addr)}

theorem handlers_nil (i : ι) : (F.svc i).handlers [] = [] := by
  rw [Service.handlers, List.map_eq_nil_iff, List.filter_eq_nil_iff]
  intro t ht
  rw [decide_eq_true_eq]
  exact F.named i t ht

/-- An error packet to a server. -/
theorem stray_error (ref msg : GoString) (stale : Bytes) (j : ι) :
    ∃ d, (F.svc i).transmitted (Service.errorView ref (F.addr j) msg stale) = some d ∧ F.Stray d := by
  have hsent : (F.svc i).transmitted (Service.errorView ref (F.addr j) msg stale) =
      some ((Service.errorView ref (F.addr j) msg stale).marshal, F.addr j) :=
    congrArg (Option.map _) (F.resolve_addr i j)
  exact ⟨_, hsent, Service.callTarget_errorView ref (F.addr j) msg stale, j, rfl⟩

/-- A server answers what it gets from a server without a target. -/
theorem Stray.answered (hq : F.Stray q) (h : (F.svc i).Answers q out) : ∃ d, out = some d ∧ F.Stray d := by
  obtain ⟨data, sender⟩ := q
  obtain ⟨htarget, j, rfl⟩ := hq
  obtain ⟨v, hv, rfl⟩ := h
  cases hv with
  | malformed stale _ => exact stray_error [] (ascii "malformed packet") stale j
  | @request u body _ _ _ hreplies =>
    rw [← callTarget_decodedView u body []] at htarget
    have hnone : (F.svc i).handlers ((decodedView u body []).metaGet keyTarget) = [] := by
      rw [htarget, handlers_nil]
    cases hreplies with
    | forwarded hrelay => exact absurd (htarget.symm.trans hrelay) (by decide)
    | unknown stale _ _ => exact stray_error _ _ stale j
    | failed _ _ hne _ => exact absurd hnone hne
    | served _ hne _ => exact absurd hnone hne

/-- It forwards what it is asked to relay to a server, without a target. -/
theorem Relays.answered (hq : F.Relays i q) (h : (F.svc i).Answers q out) :
    ∃ d, out = some d ∧ F.Stray d := by
  obtain ⟨data, sender⟩ := q
  obtain ⟨htarget, j, hto⟩ := hq
  obtain ⟨v, hv, rfl⟩ := h
  cases hv with
  | malformed stale hbin =>
    simp only [callTarget, encodedMeta, hbin] at htarget
    exact absurd htarget (by decide)
  | @request u body _ _ _ hreplies =>
    rw [← callTarget_decodedView u body []] at htarget
    rw [← relayDest_decodedView u body []] at hto
    cases hreplies with
    | forwarded _ =>
      have hsent : (F.svc i).transmitted (Service.forwardView sender (decodedView u body [])) =
          some ((Service.forwardView sender (decodedView u body [])).marshal, F.addr j) :=
        congrArg (Option.map _) hto
      exact ⟨_, hsent, Service.callTarget_forwardView sender (decodedView u body []), j, rfl⟩
    | unknown _ hne _ => exact absurd htarget hne
    | failed _ hne _ _ => exact absurd htarget hne
    | served hne _ _ => exact absurd htarget hne

/-! ## 3. Datagrams between servers -/

/-- What was exchanged with an address. -/
def exchanged (a : Addr) (l : List (Bytes × Addr)) : List Bytes := (l.filter (·.2 = a)).map Prod.fst

omit F in
theorem count_exchanged (a : Addr) (l : List (Bytes × Addr)) (data : Bytes) :
    (exchanged a l).count data = l.count (data, a) := by
  rw [exchanged, List.count, List.count, List.countP_map, List.countP_filter]
  refine List.countP_congr fun d _ => ?_
  obtain ⟨data', a'⟩ := d
  simp

variable [Fintype ι]

instance : DecidablePred F.Stray := fun _ => inferInstanceAs (Decidable (_ ∧ _))

instance : DecidablePred (F.Relays i) := fun _ => inferInstanceAs (Decidable (_ ∧ _))

/-- The datagrams that are exchanged with servers and have no target, server by server. -/
theorem sum_exchanged (l : List (Bytes × Addr)) :
    ∑ j, (exchanged (F.addr j) l).countP (fun data => callTarget data = []) =
      l.countP fun d => F.Stray d := by
  induction l with
  | nil => exact Finset.sum_const_zero
  | cons d l ih =>
    have hcons : ∀ j, (exchanged (F.addr j) (d :: l)).countP (fun data => callTarget data = []) =
        (exchanged (F.addr j) l).countP (fun data => callTarget data = []) +
          if callTarget d.1 = [] ∧ d.2 = F.addr j then 1 else 0 := by
      intro j
      by_cases hj : d.2 = F.addr j
      · simp [exchanged, hj, List.countP_cons]
      · simp [exchanged, hj]
    have hone : ∑ j, (if callTarget d.1 = [] ∧ d.2 = F.addr j then 1 else 0) =
        if F.Stray d then 1 else 0 := by
      by_cases hd : F.Stray d
      · obtain ⟨htarget, j, hj⟩ := id hd
        rw [if_pos hd, Finset.sum_eq_single j, if_pos ⟨htarget, hj⟩]
        · rintro k - hk
          exact if_neg fun h => hk (F.addr_inj (h.2.symm.trans hj))
        · exact fun h => absurd (Finset.mem_univ j) h
      · rw [if_neg hd]
        exact Finset.sum_eq_zero fun j _ => if_neg fun h => hd ⟨h.1, j, h.2⟩
    simp only [hcons, Finset.sum_add_distrib, ih, hone, List.countP_cons, decide_eq_true_eq]

/-! ## 4. At rest -/

variable {s : Sys Op Op.Res Endpoint UDPServer.Env}

/-- A server at rest has written a datagram to a server for each one it had to. -/
theorem rest_le (h : (F.svc i).logic.Holds s) (hrest : Service.Quiescent s) :
    (Service.received s.log).countP (fun q => F.Relays i q ∨ F.Stray q) ≤
      (Service.written s.log).countP fun d => F.Stray d := by
  obtain ⟨spent, rest, hperm, hwritten, hans, hnone⟩ := Service.matched_of_holds h
  have hanswered : ∀ q out, F.Relays i q ∨ F.Stray q → (F.svc i).Answers q out →
      ∃ d, out = some d ∧ F.Stray d := by
    rintro q out (hq | hq) hout
    · exact hq.answered hout
    · exact hq.answered hout
  have hzero : rest.countP (fun q => F.Relays i q ∨ F.Stray q) = 0 := by
    refine List.countP_eq_zero.mpr fun q hq hpred => ?_
    obtain ⟨d, hd, -⟩ := hanswered q none (of_decide_eq_true hpred) (hnone hrest q hq)
    cases hd
  rw [hperm.countP_eq, List.countP_append, hzero, Nat.add_zero, hwritten, List.countP_map,
    List.countP_map]
  refine List.countP_mono_left fun m hm hpred => ?_
  obtain ⟨d, hd, hstray⟩ := hanswered m.1 _ (of_decide_eq_true hpred) (hans m hm)
  cases hd
  exact decide_eq_true hstray

theorem countP_stray_le (l : List (Bytes × GoString)) :
    l.countP (fun q => F.Stray q) ≤ l.countP fun q => F.Relays i q ∨ F.Stray q :=
  List.countP_mono_left fun _ _ hq => decide_eq_true (.inr (of_decide_eq_true hq))

/-- A request for a relay is no stray datagram. -/
theorem countP_stray_lt {l : List (Bytes × GoString)} (hq : q ∈ l) (hrelay : F.Relays i q) :
    l.countP (fun q => F.Stray q) < l.countP fun q => F.Relays i q ∨ F.Stray q := by
  have hnot : ¬ F.Stray q := fun h => absurd (hrelay.1.symm.trans h.1) (by decide)
  obtain ⟨l₁, l₂, rfl⟩ := List.append_of_mem hq
  rw [List.countP_append, List.countP_append, List.countP_cons_of_neg (by simpa using hnot),
    List.countP_cons_of_pos (by simpa using Or.inl hrelay)]
  exact Nat.add_lt_add_of_le_of_lt (countP_stray_le l₁) (Nat.lt_succ_of_le (countP_stray_le l₂))

/-- Once a server has received a request to relay to a server, then whenever all servers are at
rest, a datagram from one server to another has not been received. -/
theorem relay_to_server_never_rests (F : Federation ι) {evs : ι → List (Event Choice UDPServer.Env)}
    (hleg : ∀ i data sender, Event.env (.datagram data sender) ∈ evs i → Legible data)
    {s : ι → Sys Op Op.Res Endpoint UDPServer.Env}
    (hrun : ∀ i, (F.svc i).server.machine.run UDPServer.start (evs i) = .ok (s i))
    (hrest : ∀ i, Service.Quiescent (s i)) {i j : ι} {data : Bytes} {sender : GoString}
    (hreceived : (data, sender) ∈ Service.received (s i).log) (htarget : callTarget data = targetRelay)
    (hto : (F.svc i).resolve (relayDest data) = some (F.addr j)) :
    ∃ k l lost, (Service.received (s l).log).count (lost, F.addr k) <
      (Service.written (s k).log).count (lost, F.addr l) := by
  by_contra hall
  push Not at hall
  have hholds : ∀ i, (F.svc i).logic.Holds (s i) := fun i =>
    (F.svc i).logic.run_holds Service.logic_start ((F.svc i).eachAllowed_of_legible (hleg i) _) (hrun i)
  have hdelivered : ∀ k l,
      (exchanged (F.addr l) (Service.written (s k).log)).countP (fun data => callTarget data = []) ≤
        (exchanged (F.addr k) (Service.received (s l).log)).countP fun data => callTarget data = [] := by
    intro k l
    refine List.Subperm.countP_le _ (List.subperm_ext_iff.mpr fun lost _ => ?_)
    rw [count_exchanged, count_exchanged]
    exact hall k l lost
  have hwritten : ∑ k, (Service.written (s k).log).countP (fun d => F.Stray d) ≤
      ∑ l, (Service.received (s l).log).countP fun d => F.Stray d := by
    simp only [← sum_exchanged]
    rw [Finset.sum_comm]
    exact Finset.sum_le_sum fun l _ => Finset.sum_le_sum fun k _ => hdelivered k l
  have hreceived : ∑ l, (Service.received (s l).log).countP (fun d => F.Stray d) <
      ∑ l, (Service.received (s l).log).countP fun q => F.Relays l q ∨ F.Stray q := by
    refine Finset.sum_lt_sum (fun l _ => countP_stray_le _) ⟨i, Finset.mem_univ i, ?_⟩
    exact countP_stray_lt hreceived ⟨htarget, j, hto⟩
  have hanswered : ∑ l, (Service.received (s l).log).countP (fun q => F.Relays l q ∨ F.Stray q) ≤
      ∑ l, (Service.written (s l).log).countP fun d => F.Stray d :=
    Finset.sum_le_sum fun l _ => rest_le (hholds l) (hrest l)
  exact absurd (hreceived.trans_le (hanswered.trans hwritten)) (Nat.lt_irrefl _)

end Federation

/-! ### A run -/

def twoAddr (b : Bool) : Addr := if b then ascii "10.0.0.22:22" else ascii "10.0.0.21:21"

theorem twoAddr_inj {b c : Bool} (h : twoAddr b = twoAddr c) : b = c := by
  cases b <;> cases c <;> first | rfl | exact absurd h (by decide +kernel)

theorem echoService_named (t : GoString × Handler) (ht : t ∈ echoService.targets) : t.1 ≠ [] := by
  rw [List.mem_singleton.mp ht]
  exact fun h => absurd (congrArg List.length h) (by decide +kernel)

/-- Two echo servers. -/
def echoPair : Federation Bool where
  svc _ := echoService
  addr := twoAddr
  addr_inj := twoAddr_inj
  resolve_addr _ _ := rfl
  named _ := echoService_named

/-- The first is asked to relay to the second. -/
def relayRequest : PktView :=
  ⟨((JSONPkt.refMeta (ascii "r1")).set keyTarget targetRelay).set keyRelayTo (twoAddr true),
    Base64.encode (ascii "x"), ascii "x", twoAddr false⟩

/-- The first server forwards the packet, and the second refuses it. -/
def relayedRun (b : Bool) : List (Event Choice UDPServer.Env) :=
  let forwarded := Service.forwardView (ascii "10.0.0.2:1") (decodedView relayRequest (ascii "x") [])
  let come := if b then (forwarded.marshal, twoAddr false) else (relayRequest.marshal, ascii "10.0.0.2:1")
  .env (.datagram come.1 come.2) ::
    (List.replicate (if b then 23 else 27) (.act 0 ⟨100, none⟩) ++ .env .sendPkts ::
      List.replicate 4 (.act 1 ⟨100, none⟩))

theorem relayedRun_legible (b : Bool) (data : Bytes) (sender : GoString)
    (h : Event.env (.datagram data sender) ∈ relayedRun b) : Legible data := by
  simp only [relayedRun, List.mem_cons, List.mem_append, List.mem_replicate, Event.env.injEq,
    UDPServer.Env.datagram.injEq, reduceCtorEq, and_false, or_false] at h
  rw [h.1]
  cases b with
  | false => exact .inr ⟨relayRequest, ⟨_, rfl⟩, rfl⟩
  | true => exact .inr ⟨_, ⟨_, rfl⟩, rfl⟩

def hasEnded : Routine Unit → Bool
  | .ret _ => true
  | .op _ _ => false

theorem eq_ret_of_hasEnded {t : Routine Unit} (h : hasEnded t = true) : t = .ret () := by
  cases t with
  | ret _ => rfl
  | op _ _ => cases h

/-- The refusal has not come back to the first server. -/
theorem echo_relay_never_rests :
    ∃ s : Bool → Sys Op Op.Res Endpoint UDPServer.Env,
      (∀ b, echoService.server.machine.run UDPServer.start (relayedRun b) = .ok (s b)) ∧
      (∀ b, Service.Quiescent (s b)) ∧
      ∃ k l lost, (Service.received (s l).log).count (lost, twoAddr k) <
        (Service.written (s k).log).count (lost, twoAddr l) := by
  have heval : ∀ b, ((echoService.server.machine.run UDPServer.start (relayedRun b)).result?.bind fun s =>
      if s.threads.all hasEnded = true ∧ s.state.sending = none ∧
        (b = false → (relayRequest.marshal, ascii "10.0.0.2:1") ∈ Service.received s.log)
      then some s else none).isSome = true := by
    decide +kernel
  have hruns : ∀ b, ∃ s, echoService.server.machine.run UDPServer.start (relayedRun b) = .ok s ∧
      s.threads.all hasEnded = true ∧ s.state.sending = none ∧
        (b = false → (relayRequest.marshal, ascii "10.0.0.2:1") ∈ Service.received s.log) := by
    intro b
    obtain ⟨s, hs⟩ := Option.isSome_iff_exists.mp (heval b)
    simp only [Option.bind_eq_some_iff, Option.ite_none_right_eq_some] at hs
    obtain ⟨s', hs', hfacts, -⟩ := hs
    exact ⟨s', Outcome.eq_ok_of_result? hs', hfacts⟩
  choose s hrun hended hfree hcome using hruns
  have hrest : ∀ b, Service.Quiescent (s b) := fun b =>
    ⟨hfree b, fun t ht => eq_ret_of_hasEnded (List.all_eq_true.mp (hended b) t ht)⟩
  exact ⟨s, hrun, hrest, echoPair.relay_to_server_never_rests relayedRun_legible hrun hrest
    (hcome false rfl) (j := true) (by decide +kernel) (by decide +kernel)⟩

end Concord
