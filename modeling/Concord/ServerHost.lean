import Concord.ServiceRefinement
import Concord.ThrottleCallers

/-!
# A server at work

`Serve` of the UDP server, with everything it runs on: the five readers, `sendPkts` and
`writePkts`, the goroutines they start, and the throttle with its own routines over the
connection. A hand-over to `writePkts` takes place when it waits for one; then it is in a call of
`WriteTo`. When the last reader has failed, `Serve` closes both streams, and a goroutine that
sends on one of them panics.

`answers_on_connection`: whatever the connection gives and in any interleaving of all these
routines, every datagram the server writes to the connection is the answer, as `Service.Answers`
says, to a datagram it has read from the connection, each to one of its own. There is no panic
before `Serve` has returned.
-/

namespace Concord

open Go UDPThrottle

/-- A server in `Serve`: the goroutines for datagrams and packets, the throttle, the call of
`ReadFrom` each reader is in until it has failed, the call of `WriteTo` `writePkts` is in, and
which of the two streams are closed. -/
structure Host where
  svr : Sys Op Op.Res Endpoint UDPServer.Env
  th : UDPThrottle
  readers : List (Option Nat)
  writer : Option Nat
  writeClosed : Bool
  sendClosed : Bool

inductive HostEvent where
  /-- a step of a goroutine -/
  | go (i : Nat) (c : Choice)
  | sendPkts
  | gc (n : Nat)
  /-- a step of the throttle -/
  | throttle (ev : UDPThrottle.Event)
  /-- the call of a reader has returned -/
  | read (j : Nat)
  /-- the call of `writePkts` has returned -/
  | wrote
  | closeWrite
  | closeSend

namespace Host

/-- `Serve` has started its routines. -/
def start (rbuffSize : Nat) : Host where
  svr := UDPServer.start
  th :=
    { UDPThrottle.new rbuffSize with
      reading := { Reading.new rbuffSize with calls := List.replicate 5 none } }
  readers := (List.range 5).map some
  writer := none
  writeClosed := false
  sendClosed := false

/-- A step of the goroutines, when it succeeds. -/
def withSvr (h : Host) : Outcome (Sys Op Op.Res Endpoint UDPServer.Env) → Outcome Host
  | .ok s => .ok { h with svr := s }
  | .block => .block
  | .crash => .crash

/-- `writePkts` calls `WriteTo`. -/
def writeTo (h : Host) (data : Bytes) (addr : Addr) : Host :=
  { h with
    th := { h.th with
      writing := { h.th.writing with calls := h.th.writing.calls ++ [⟨data, addr, .sending⟩] } }
    writer := some h.th.writing.calls.length }

/-- A reader calls `ReadFrom`. -/
def readFrom (h : Host) (j : Nat) : Host :=
  { h with
    th := { h.th with reading := { h.th.reading with calls := h.th.reading.calls ++ [none] } }
    readers := h.readers.set j (some h.th.reading.calls.length) }

end Host

namespace UDPServer

variable (svr : UDPServer)

/-- A step of goroutine `i`. -/
def hostGo (h : Host) (i : Nat) (c : Choice) : Outcome Host :=
  match h.svr.threads[i]? with
  | some (.op (.dist data addr) _) =>
    if h.writeClosed then .crash
    else if h.writer.isSome then .block
    else (h.writeTo data addr).withSvr (svr.machine.step h.svr (.act i c))
  | some (.op (.sendStream _) _) =>
    if h.sendClosed then .crash else h.withSvr (svr.machine.step h.svr (.act i c))
  | _ => h.withSvr (svr.machine.step h.svr (.act i c))

def hostStep (h : Host) : HostEvent → Outcome Host
  | .go i c => svr.hostGo h i c
  | .sendPkts => h.withSvr (svr.machine.step h.svr (.env .sendPkts))
  | .gc n => h.withSvr (svr.machine.step h.svr (.env (.gc n)))
  | .throttle ev =>
    if ev.ongoing then
      match h.th.step ev with
      | .ok th => .ok { h with th := th }
      | .block => .block
      | .crash => .crash
    else .block
  | .read j =>
    match h.readers[j]? with
    | some (some i) =>
      match h.th.reading.calls[i]? with
      | some (some pkt) =>
        match (h.th.reading.view pkt).datagram? with
        -- `return`
        | none => .ok { h with readers := h.readers.set j none }
        | some (data, sender) =>
          (h.readFrom j).withSvr (svr.machine.step h.svr (.env (.datagram data sender)))
      | _ => .block
    | _ => .block
  | .wrote =>
    match h.writer with
    | some i =>
      match h.th.writing.calls[i]? with
      | some c => if c.loc matches .returned _ then .ok { h with writer := none } else .block
      | none => .block
    | none => .block
  | .closeWrite =>
    if h.readers.all Option.isNone && !h.writeClosed then .ok { h with writeClosed := true } else .block
  | .closeSend =>
    if h.writeClosed && !h.sendClosed then .ok { h with sendClosed := true } else .block

/-! ## 2. Steps -/

/-- What a step does. -/
inductive HostDoes (h : Host) : HostEvent → Host → Prop
  | dist {i : Nat} {c : Choice} {data : Bytes} {addr : Addr} {k : Unit → Routine Unit}
      {s : Sys Op Op.Res Endpoint Env} : h.svr.threads[i]? = some (.op (.dist data addr) k) →
      h.writer = none → svr.machine.step h.svr (.act i c) = .ok s →
      HostDoes h (.go i c) { h.writeTo data addr with svr := s }
  | go {i : Nat} {c : Choice} {s : Sys Op Op.Res Endpoint Env} :
      (∀ data addr k, h.svr.threads[i]? ≠ some (.op (.dist data addr) k)) →
      svr.machine.step h.svr (.act i c) = .ok s → HostDoes h (.go i c) { h with svr := s }
  | sendPkts {s : Sys Op Op.Res Endpoint Env} : svr.machine.step h.svr (.env .sendPkts) = .ok s →
      HostDoes h .sendPkts { h with svr := s }
  | gc {n : Nat} {s : Sys Op Op.Res Endpoint Env} : svr.machine.step h.svr (.env (.gc n)) = .ok s →
      HostDoes h (.gc n) { h with svr := s }
  | throttle {ev : UDPThrottle.Event} {th : UDPThrottle} : ev.ongoing = true →
      h.th.step ev = .ok th → HostDoes h (.throttle ev) { h with th := th }
  | failed {j i : Nat} {pkt : ReadPkt} : h.readers[j]? = some (some i) →
      h.th.reading.calls[i]? = some (some pkt) → (h.th.reading.view pkt).datagram? = none →
      HostDoes h (.read j) { h with readers := h.readers.set j none }
  | read {j i : Nat} {pkt : ReadPkt} {data : Bytes} {sender : GoString}
      {s : Sys Op Op.Res Endpoint Env} : h.readers[j]? = some (some i) →
      h.th.reading.calls[i]? = some (some pkt) →
      (h.th.reading.view pkt).datagram? = some (data, sender) →
      svr.machine.step h.svr (.env (.datagram data sender)) = .ok s →
      HostDoes h (.read j) { h.readFrom j with svr := s }
  | wrote {i : Nat} {c : WriteCall} : h.writer = some i → h.th.writing.calls[i]? = some c →
      c.loc ≠ .sending → HostDoes h .wrote { h with writer := none }
  | closeWrite : HostDoes h .closeWrite { h with writeClosed := true }
  | closeSend : h.writeClosed = true → HostDoes h .closeSend { h with sendClosed := true }

end UDPServer

namespace Host

theorem withSvr_ok {h h' : Host} {o : Outcome (Sys Op Op.Res Endpoint UDPServer.Env)}
    (hok : h.withSvr o = .ok h') : ∃ s, o = .ok s ∧ h' = { h with svr := s } := by
  cases o with
  | ok s =>
    cases hok
    exact ⟨s, rfl, rfl⟩
  | block => cases hok
  | crash => cases hok

theorem withSvr_crash {h : Host} {o : Outcome (Sys Op Op.Res Endpoint UDPServer.Env)}
    (hcrash : h.withSvr o = .crash) : o = .crash := by
  cases o with
  | ok s => cases hcrash
  | block => cases hcrash
  | crash => rfl

end Host

namespace UDPServer

variable {svr : UDPServer} {h h' : Host}

theorem hostStep_does {ev : HostEvent} (hstep : svr.hostStep h ev = .ok h') : svr.HostDoes h ev h' := by
  cases ev with
  | go i c =>
    simp only [hostStep, hostGo] at hstep
    split at hstep
    · next ht =>
      split at hstep
      · cases hstep
      · split at hstep
        · cases hstep
        · next hwriter =>
          obtain ⟨s, hs, rfl⟩ := Host.withSvr_ok hstep
          exact .dist ht (Option.not_isSome_iff_eq_none.mp hwriter) hs
    · next ht =>
      split at hstep
      · cases hstep
      · obtain ⟨s, hs, rfl⟩ := Host.withSvr_ok hstep
        exact .go (fun data addr k hk => by rw [ht] at hk; cases hk) hs
    · next hdist _ =>
      obtain ⟨s, hs, rfl⟩ := Host.withSvr_ok hstep
      exact .go hdist hs
  | sendPkts =>
    simp only [hostStep] at hstep
    obtain ⟨s, hs, rfl⟩ := Host.withSvr_ok hstep
    exact .sendPkts hs
  | gc n =>
    simp only [hostStep] at hstep
    obtain ⟨s, hs, rfl⟩ := Host.withSvr_ok hstep
    exact .gc hs
  | throttle ev =>
    simp only [hostStep] at hstep
    split at hstep
    · next hev =>
      split at hstep
      · next th hth =>
        cases hstep
        exact .throttle hev hth
      · cases hstep
      · cases hstep
    · cases hstep
  | read j =>
    simp only [hostStep] at hstep
    split at hstep
    · next i hj =>
      split at hstep
      · next pkt hi =>
        split at hstep
        · next hnone =>
          cases hstep
          exact .failed hj hi hnone
        · next data sender hsome =>
          obtain ⟨s, hs, rfl⟩ := Host.withSvr_ok hstep
          exact .read hj hi hsome hs
      · cases hstep
    · cases hstep
  | wrote =>
    simp only [hostStep] at hstep
    split at hstep
    · next i hi =>
      split at hstep
      · next c hc =>
        split at hstep
        · next hret =>
          cases hstep
          refine .wrote hi hc fun hsending => ?_
          rw [hsending] at hret
          cases hret
        · cases hstep
      · cases hstep
    · cases hstep
  | closeWrite =>
    simp only [hostStep] at hstep
    split at hstep
    · cases hstep
      exact .closeWrite
    · cases hstep
  | closeSend =>
    simp only [hostStep] at hstep
    split at hstep
    · next hclosed =>
      cases hstep
      exact .closeSend (Bool.and_eq_true_iff.mp hclosed).1
    · cases hstep

end UDPServer

/-! ## 3. The invariant -/

namespace Service

variable {svc : Service} {rbuffSize : Nat} {h h' : Host}

/-- The server and the throttle are as they are in any run of their own; what the goroutines hand
over is what `writePkts` asks the throttle to write, and what they are started for is what the
readers have drawn from it. -/
structure AtWork (svc : Service) (rbuffSize : Nat) (h : Host) : Prop where
  server : svc.logic.Holds h.svr
  throttle : h.th.Inv rbuffSize
  asked : written h.svr.log = h.th.writing.asked
  writer : h.th.writing.OneCaller h.writer
  readers : ∃ drawn, h.th.reading.Drawn h.readers drawn ∧
    received h.svr.log = drawn.filterMap fun x => (h.th.reading.view x.2).datagram?
  legible : ∀ d ∈ h.th.reading.results, Legible (d.cut rbuffSize).data
  closed : h.sendClosed = true → h.writeClosed = true

theorem atWork_start (svc : Service) (rbuffSize : Nat) : svc.AtWork rbuffSize (Host.start rbuffSize) where
  server := logic_start
  throttle := by
    obtain ⟨hmem, hcalls, hw⟩ := inv_start rbuffSize false
    refine ⟨hmem.handed rfl rfl rfl rfl fun _ _ _ h => h, ⟨fun i pkt => ?_, List.nodup_nil⟩, hw⟩
    constructor
    · intro hi
      obtain ⟨-, heq⟩ := List.mem_replicate.mp (List.mem_of_getElem? hi)
      cases heq
    · exact fun hmem => nomatch hmem
  asked := rfl
  writer := Writing.oneCaller_new
  readers := ⟨[], ⟨.refl _, fun _ hx => nomatch hx⟩, rfl⟩
  legible _ hd := nomatch hd
  closed h := nomatch h

section Logs

variable {s s' : Sys Op Op.Res Endpoint UDPServer.Env}

/-- A step of a goroutine that hands nothing over. -/
theorem logs_act {i : Nat} {c : Choice} (hstep : svc.server.machine.step s (.act i c) = .ok s')
    (hdist : ∀ data addr k, s.threads[i]? ≠ some (.op (.dist data addr) k)) :
    written s'.log = written s.log ∧ received s'.log = received s.log := by
  rcases Machine.step_ok hstep with ⟨j, c', e, k, r, st, hev, ht, -, rfl⟩ | ⟨a, st, hev, -⟩ |
    ⟨a, st, t, hev, -⟩
  · cases hev
    refine ⟨written_act (fun data addr he => ?_) _ _ _, received_act _ _ _ _⟩
    subst he
    exact hdist data addr k ht
  · cases hev
  · cases hev

/-- A goroutine hands a datagram over. -/
theorem logs_dist {i : Nat} {c : Choice} {data : Bytes} {addr : Addr} {k : Unit → Routine Unit}
    (hstep : svc.server.machine.step s (.act i c) = .ok s')
    (ht : s.threads[i]? = some (.op (.dist data addr) k)) :
    written s'.log = written s.log ++ [(data, addr)] ∧ received s'.log = received s.log := by
  rcases Machine.step_ok hstep with ⟨j, c', e, k', r, st, hev, ht', -, rfl⟩ | ⟨a, st, hev, -⟩ |
    ⟨a, st, t, hev, -⟩
  · cases hev
    cases ht.symm.trans ht'
    exact ⟨written_snoc _ _, received_act _ _ _ _⟩
  · cases hev
  · cases hev

/-- A step around the goroutines. -/
theorem logs_env {a : UDPServer.Env} (hstep : svc.server.machine.step s (.env a) = .ok s') :
    written s'.log = written s.log ∧
      received s'.log = received s.log ++ (receives (.env a)).toList := by
  rcases Machine.step_ok hstep with ⟨j, c, e, k, r, st, hev, -⟩ | ⟨b, st, hev, -, rfl⟩ |
    ⟨b, st, t, hev, -, rfl⟩
  · cases hev
  · cases hev
    exact ⟨written_env _ _, received_snoc _ _⟩
  · cases hev
    exact ⟨written_env _ _, received_snoc _ _⟩

end Logs

/-- What was drawn keeps its contents. -/
theorem drawn_view {r r' : Reading} {callers : List (Option Nat)} {drawn : List (Nat × ReadPkt)}
    (hd : r.Drawn callers drawn) (hcalls : r.Calls)
    (hview : ∀ pkt ∈ r.pkts, r'.view pkt = r.view pkt) :
    (drawn.filterMap fun x => (r'.view x.2).datagram?) =
      drawn.filterMap fun x => (r.view x.2).datagram? := by
  refine List.filterMap_congr fun x hx => ?_
  have hmem : x.2 ∈ r.pkts :=
    List.mem_append_left _ (List.mem_append_left _
      (List.mem_map_of_mem ((hcalls.returned _ _).mp (hd.returned x hx))))
  rw [hview x.2 hmem]

/-- What a reader draws is legible. -/
theorem AtWork.drawn_legible (w : svc.AtWork rbuffSize h) {i : Nat} {pkt : ReadPkt} {data : Bytes}
    {sender : GoString} (hi : h.th.reading.calls[i]? = some (some pkt))
    (hdata : (h.th.reading.view pkt).datagram? = some (data, sender)) : Legible data := by
  have hmem : h.th.reading.view pkt ∈ h.th.reading.results.map (·.cut rbuffSize) := by
    rw [← w.throttle.memory.results]
    refine List.mem_append_left _ (List.mem_map_of_mem ?_)
    exact List.mem_append_left _ (List.mem_append_left _
      (List.mem_map_of_mem ((w.throttle.calls.returned _ _).mp hi)))
  obtain ⟨d, hd, hview⟩ := List.mem_map.mp hmem
  have hlegible := w.legible d hd
  rw [hview] at hlegible
  unfold ReadResult.datagram? at hdata
  split at hdata
  · cases hdata
    exact hlegible
  · cases hdata

/-- The throttle makes a step of its own. -/
theorem AtWork.throttle_step (w : svc.AtWork rbuffSize h) {ev : UDPThrottle.Event} {th : UDPThrottle}
    (hev : ev.ongoing = true) (hlegible : ∀ d, ev = .read (.conn d) → Legible (d.cut rbuffSize).data)
    (hth : h.th.step ev = .ok th) : svc.AtWork rbuffSize { h with th := th } := by
  have hinv := step_inv w.throttle hth
  rcases step_ongoing hev hth with ⟨e, done, rfl, he, hr, hw⟩ | ⟨e, rfl, he, hw, hr⟩
  · obtain ⟨drawn, hdrawn, hreceived⟩ := w.readers
    refine ⟨w.server, hinv, ?_, ?_, ⟨drawn, hdrawn.step he hr, ?_⟩, fun d hd => ?_, w.closed⟩
    · rw [hw]
      exact w.asked
    · rw [hw]
      exact w.writer
    · rw [drawn_view hdrawn w.throttle.calls fun pkt hpkt =>
        Reading.step_view w.throttle.memory hr hpkt]
      exact hreceived
    · rcases Reading.step_results hr with hres | ⟨d', rfl, hres⟩
      · rw [hres] at hd
        exact w.legible d hd
      · rw [hres] at hd
        rcases List.mem_append.mp hd with hd | hd
        · exact w.legible d hd
        · rw [List.mem_singleton.mp hd]
          exact hlegible d' rfl
  · obtain ⟨hone, hasked⟩ := w.writer.step w.throttle.writes he hw
    refine ⟨w.server, hinv, w.asked.trans hasked.symm, hone, ?_, ?_, w.closed⟩
    · rw [hr]
      exact w.readers
    · rw [hr]
      exact w.legible

theorem AtWork.step (w : svc.AtWork rbuffSize h) {ev : HostEvent}
    (hlegible : ∀ d, ev = .throttle (.read (.conn d)) → Legible (d.cut rbuffSize).data)
    (hstep : svc.server.hostStep h ev = .ok h') : svc.AtWork rbuffSize h' := by
  cases UDPServer.hostStep_does hstep with
  | @dist i c data addr k s ht hwriter hs =>
    obtain ⟨hwritten, hreceived⟩ := logs_dist hs ht
    have hone := w.writer
    rw [hwriter] at hone
    refine ⟨svc.logic.step_holds w.server (by nofun) hs,
      ⟨w.throttle.memory, w.throttle.calls, w.throttle.writes.call data addr⟩, ?_,
      hone.call data addr, ?_, w.legible, w.closed⟩
    · rw [hwritten, w.asked]
      exact (Writing.asked_call data addr).symm
    · rw [hreceived]
      exact w.readers
  | go hdist hs =>
    obtain ⟨hwritten, hreceived⟩ := logs_act hs hdist
    refine ⟨svc.logic.step_holds w.server (by nofun) hs, w.throttle,
      hwritten.trans w.asked, w.writer, ?_, w.legible, w.closed⟩
    rw [hreceived]
    exact w.readers
  | sendPkts hs =>
    obtain ⟨hwritten, hreceived⟩ := logs_env hs
    refine ⟨svc.logic.step_holds w.server (by nofun) hs, w.throttle,
      hwritten.trans w.asked, w.writer, ?_, w.legible, w.closed⟩
    rw [hreceived.trans (List.append_nil _)]
    exact w.readers
  | gc hs =>
    obtain ⟨hwritten, hreceived⟩ := logs_env hs
    refine ⟨svc.logic.step_holds w.server (by nofun) hs, w.throttle,
      hwritten.trans w.asked, w.writer, ?_, w.legible, w.closed⟩
    rw [hreceived.trans (List.append_nil _)]
    exact w.readers
  | @throttle tev th hev hth =>
    exact w.throttle_step hev (fun d hd => hlegible d (congrArg _ hd)) hth
  | @failed j i pkt hj hi hnone =>
    obtain ⟨drawn, hdrawn, hreceived⟩ := w.readers
    refine ⟨w.server, w.throttle, w.asked, w.writer, ⟨_, hdrawn.draw hj hi, ?_⟩, w.legible, w.closed⟩
    have hlast : [(i, pkt)].filterMap (fun x => (h.th.reading.view x.2).datagram?) = [] :=
      List.filterMap_cons_none hnone
    rw [List.filterMap_append, hreceived, hlast, List.append_nil]
  | @read j i pkt data sender s hj hi hsome hs =>
    obtain ⟨hwritten, hreceived⟩ := logs_env hs
    obtain ⟨drawn, hdrawn, hlog⟩ := w.readers
    have hcall : h.th.reading.step false .call =
        some { h.th.reading with calls := h.th.reading.calls ++ [none] } := rfl
    refine ⟨svc.logic.step_holds w.server ?_ hs,
      ⟨Reading.step_memory w.throttle.memory hcall, Reading.step_calls w.throttle.calls hcall,
        w.throttle.writes⟩, hwritten.trans w.asked, w.writer, ⟨drawn ++ [(i, pkt)], ?_, ?_⟩,
      w.legible, w.closed⟩
    · intro data' sender' heq
      cases heq
      exact w.drawn_legible hi hsome
    · have hnone : (h.readers.set j none)[j]? = some none :=
        List.getElem?_set_self (List.getElem?_eq_some_iff.mp hj).1
      have hagain := (hdrawn.draw hj hi).call hnone
      rw [List.set_set] at hagain
      exact hagain
    · have hlast : [(i, pkt)].filterMap (fun x => (h.th.reading.view x.2).datagram?) =
          [(data, sender)] := List.filterMap_cons_some hsome
      rw [List.filterMap_append]
      exact hreceived.trans (congrArg₂ (· ++ ·) hlog hlast.symm)
  | wrote hwriter hi hc =>
    have hone := w.writer
    rw [hwriter] at hone
    exact ⟨w.server, w.throttle, w.asked, hone.returned w.throttle.writes hi hc, w.readers, w.legible,
      w.closed⟩
  | closeWrite =>
    exact ⟨w.server, w.throttle, w.asked, w.writer, w.readers, w.legible, fun _ => rfl⟩
  | closeSend hclosed =>
    exact ⟨w.server, w.throttle, w.asked, w.writer, w.readers, w.legible, fun _ => hclosed⟩

/-! ## 4. Every run -/

theorem AtWork.run (w : svc.AtWork rbuffSize h) {evs : List HostEvent}
    (hlegible : ∀ d, HostEvent.throttle (.read (.conn d)) ∈ evs → Legible (d.cut rbuffSize).data)
    (hrun : runSteps svc.server.hostStep h evs = .ok h') : svc.AtWork rbuffSize h' := by
  induction evs generalizing h with
  | nil =>
    cases hrun
    exact w
  | cons ev evs ih =>
    obtain ⟨h₁, hstep, hrun⟩ := runSteps_cons hrun
    exact ih (w.step (fun d hd => hlegible d (hd ▸ List.mem_cons_self)) hstep)
      (fun d hd => hlegible d (List.mem_cons_of_mem _ hd)) hrun

/-- The goroutines do not panic while the streams are open. -/
theorem AtWork.crash (w : svc.AtWork rbuffSize h) {ev : HostEvent}
    (hstep : svc.server.hostStep h ev = .crash) : h.writeClosed = true := by
  have hgo : ∀ i c, svc.server.machine.step h.svr (.act i c) ≠ .crash := fun i c hcrash =>
    svc.logic.step_crash w.server (by nofun) hcrash
  have henv : ∀ a, svc.server.machine.step h.svr (.env a) ≠ .crash := by
    intro a hcrash
    obtain ⟨i, c, e, k, hev, -⟩ := Machine.step_crash hcrash
    cases hev
  cases ev with
  | go i c =>
    simp only [UDPServer.hostStep, UDPServer.hostGo] at hstep
    split at hstep
    · split at hstep
      · next hclosed => exact hclosed
      · split at hstep
        · cases hstep
        · exact absurd (Host.withSvr_crash hstep) (hgo i c)
    · split at hstep
      · next hclosed => exact w.closed hclosed
      · exact absurd (Host.withSvr_crash hstep) (hgo i c)
    · exact absurd (Host.withSvr_crash hstep) (hgo i c)
  | sendPkts =>
    simp only [UDPServer.hostStep] at hstep
    exact absurd (Host.withSvr_crash hstep) (henv _)
  | gc n =>
    simp only [UDPServer.hostStep] at hstep
    exact absurd (Host.withSvr_crash hstep) (henv _)
  | throttle tev =>
    simp only [UDPServer.hostStep] at hstep
    split at hstep
    · next hev =>
      split at hstep
      · cases hstep
      · cases hstep
      · next hth => exact absurd hth (step_ongoing_crash hev)
    · cases hstep
  | read j =>
    simp only [UDPServer.hostStep] at hstep
    split at hstep
    · split at hstep
      · split at hstep
        · cases hstep
        · exact absurd (Host.withSvr_crash hstep) (henv _)
      · cases hstep
    · cases hstep
  | wrote =>
    simp only [UDPServer.hostStep] at hstep
    split at hstep
    · split at hstep
      · split at hstep
        · cases hstep
        · cases hstep
      · cases hstep
    · cases hstep
  | closeWrite =>
    simp only [UDPServer.hostStep] at hstep
    split at hstep
    · cases hstep
    · cases hstep
  | closeSend =>
    simp only [UDPServer.hostStep] at hstep
    split at hstep
    · cases hstep
    · cases hstep

/-- In every run of a server in `Serve`, with its throttle and over any connection, what it has
written to the connection are answers to datagrams it has read from it, each to one of its own;
and nothing panics as long as `Serve` has not closed its streams. -/
theorem answers_on_connection (svc : Service) (rbuffSize : Nat) {evs : List HostEvent} {h : Host}
    (hlegible : ∀ d, HostEvent.throttle (.read (.conn d)) ∈ evs → Legible (d.cut rbuffSize).data)
    (hrun : runSteps svc.server.hostStep (Host.start rbuffSize) evs = .ok h) :
    (∃ spent : List ((Bytes × GoString) × (Bytes × Addr)),
      (spent.map Prod.fst).Subperm (h.th.reading.given rbuffSize) ∧
      h.th.writing.passed = spent.map Prod.snd ∧ ∀ m ∈ spent, svc.Answers m.1 (some m.2)) ∧
    (h.writeClosed = false → ∀ ev, svc.server.hostStep h ev ≠ .crash) := by
  have w := (atWork_start svc rbuffSize).run hlegible hrun
  refine ⟨?_, fun hopen ev hcrash => by rw [w.crash hcrash] at hopen; cases hopen⟩
  obtain ⟨spent, rest, hperm, hwritten, hanswers, -⟩ := matched_of_holds w.server
  obtain ⟨drawn, hdrawn, hreceived⟩ := w.readers
  have hgiven := hdrawn.subperm w.throttle.calls w.throttle.memory
  rw [← hreceived] at hgiven
  -- the connection has seen the first of the datagrams that were handed over
  have hpassed : h.th.writing.passed <+: spent.map Prod.snd := by
    rw [← hwritten, w.asked]
    exact w.writer.passed_isPrefix w.throttle.writes
  refine ⟨spent.take h.th.writing.passed.length, ?_, ?_, fun m hm => hanswers m (List.mem_of_mem_take hm)⟩
  · have htake : ((spent.take h.th.writing.passed.length).map Prod.fst).Sublist
        (spent.map Prod.fst ++ rest) :=
      ((List.take_sublist _ _).map _).trans (List.sublist_append_left _ _)
    exact (htake.subperm.trans hperm.symm.subperm).trans hgiven
  · rw [List.map_take]
    exact List.prefix_iff_eq_take.mp hpassed

/-! ### A run -/

/-- What the connection gives to the echo server. -/
def helloDatagram : ReadResult where
  data := (helloView (ascii "r1")).marshal
  sender := some (ascii "10.0.0.2:1")
  err := none

/-- The echo server reads one request, and writes its answer. -/
def echoHostRun : List HostEvent :=
  [.throttle (.read .poll), .throttle (.read (.conn helloDatagram)), .throttle (.read .copy),
    .throttle (.read .send), .throttle (.read (.receive 3)), .read 3] ++
  List.replicate 20 (.go 0 ⟨100, none⟩) ++ .sendPkts :: List.replicate 4 (.go 1 ⟨100, none⟩) ++
  [.throttle (.write (.send 0)), .throttle (.write .take), .throttle (.write (.conn ⟨100, none⟩)),
    .throttle (.write .reply), .wrote]

theorem echoHostRun_legible (d : ReadResult)
    (h : HostEvent.throttle (.read (.conn d)) ∈ echoHostRun) : Legible (d.cut 256).data := by
  have hd : d = helloDatagram := by
    simpa [echoHostRun] using h
  have hcut : (helloDatagram.cut 256).data = (helloView (ascii "r1")).marshal := by decide +kernel
  rw [hd, hcut]
  exact .inr ⟨helloView _, ⟨_, rfl⟩, rfl⟩

/-- It writes one datagram to its connection, the answer to the request. -/
theorem echo_answers_on_connection :
    ∃ h out, runSteps echoService.server.hostStep (Host.start 256) echoHostRun = .ok h ∧
      h.th.writing.passed = [out] ∧
      echoService.Answers ((helloView (ascii "r1")).marshal, ascii "10.0.0.2:1") (some out) := by
  have heval : ((runSteps echoService.server.hostStep (Host.start 256) echoHostRun).result?.bind fun h =>
      if h.th.reading.given 256 = [((helloView (ascii "r1")).marshal, ascii "10.0.0.2:1")] ∧
        h.th.writing.passed.length = 1 then some () else none) = some () := by
    decide +kernel
  simp only [Option.bind_eq_some_iff, Option.ite_none_right_eq_some] at heval
  obtain ⟨h, hh, ⟨hgiven, hlength⟩, -⟩ := heval
  have hrun := Outcome.eq_ok_of_result? hh
  obtain ⟨⟨spent, hsub, hpassed, hanswers⟩, -⟩ :=
    answers_on_connection echoService 256 echoHostRun_legible hrun
  obtain ⟨out, hout⟩ := List.length_eq_one_iff.mp hlength
  obtain ⟨m, rfl⟩ : ∃ m, spent = [m] := by
    refine List.length_eq_one_iff.mp ?_
    rw [← List.length_map Prod.snd, ← hpassed, hlength]
  have hq : m.1 ∈ h.th.reading.given 256 := hsub.subset List.mem_cons_self
  rw [hgiven, List.mem_singleton] at hq
  have hm : m.2 = out := by simpa using hpassed.symm.trans hout
  have hanswer := hanswers m List.mem_cons_self
  rw [hq, hm] at hanswer
  exact ⟨h, out, hrun, hout, hanswer⟩

end Service

end Concord
