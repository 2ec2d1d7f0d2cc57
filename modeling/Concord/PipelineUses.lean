import Concord.ClientHistory
import Concord.TCPServer

/-!
# Where data pipelines are run

The six routines that run a data pipeline, each as what comes before, the pipeline, and
what the routine does with its outcome (`Site`). `CodeStopNoop` asks for nothing to be done
with the data any more.

`honoursNoop_iff`: five of the six do nothing. `processIncoming` of the client does not look
at the status, so it decodes and delivers what a transform has asked to ignore.
-/

namespace Concord

open Go

/-- The outcome of a data pipeline. -/
abbrev Processed := TransformContext × Bytes × Option GoString

/-- What both servers do with the outcome of their `_in_` pipeline: a buffer that is not refused is
decoded into a new packet, and `next` has it from there. -/
def UDPServer.decodeWith {α : Type} (sender : GoString) (refused : α) (next : Nat → Routine α) :
    Processed → Routine α
  | (_, _, some err) => do
    sendErr [] sender (ascii "data pipeline error: " ++ err)
    return refused
  | (ctx, data, none) => do
    if ctx.stat = codeStopNoop then
      return refused
    let pkt ← Routine.newPkt [] []
    match ← Routine.unmarshal pkt data with
    | some _ =>
      sendErr [] sender (ascii "malformed packet")
      Routine.putBack pkt
      return refused
    | none => next pkt

/-- A place where a data pipeline is run, with the values the routine has at hand. -/
inductive Site where
  | udpServerIn (svr : UDPServer) (data : Bytes) (sender : GoString)
  | udpServerOut (svr : UDPServer) (pkt : Nat) (bin : Bytes) (addr : Addr)
  | tcpServerIn (svr : TCPServer) (data : Bytes)
  | tcpServerOut (svr : TCPServer) (pkt : Nat) (bin : Bytes)
  | clientSend (c : UDPClient) (pkt : Nat) (respCh : Option Nat) (ref : GoString) (bin : Bytes)
  | clientIn (c : UDPClient) (data : Bytes)

namespace Site

/-- What the routine returns. -/
@[reducible] def Out : Site → Type
  | .clientSend _ _ _ _ _ => Option GoString
  | _ => Unit

/-- The run of the pipeline. -/
def pipeline : Site → Routine Processed
  | .udpServerIn svr data sender => processData svr.data { pipelineName := pipelineIn, sender } data
  | .udpServerOut svr pkt bin _ =>
    processData svr.data { pkt := some pkt, pipelineName := pipelineOut } bin
  | .tcpServerIn svr data =>
    processData svr.data { pipelineName := pipelineIn, sender := svr.addr } data
  | .tcpServerOut svr pkt bin =>
    processData svr.data { pkt := some pkt, pipelineName := pipelineOut } bin
  | .clientSend c pkt _ _ bin =>
    processData c.data { pkt := some pkt, pipelineName := pipelineOut } bin
  | .clientIn c data => processData c.data { pipelineName := pipelineIn, sender := c.addr } data

/-- What a server does with an incoming buffer; `serve` is its `serveRequest`. -/
def afterServerIn (sender : GoString) (serve : Nat → Routine Unit) : Processed → Routine Unit :=
  UDPServer.decodeWith sender () fun pkt => do
    serve pkt
    Routine.putBack pkt

def afterServerOut (pkt : Nat) (addr : Addr) : Processed → Routine Unit
  | (_, _, some err) => do
    let ref ← Routine.metaGet pkt keyRef
    let dest ← Routine.dest pkt
    UDPServer.sendErr ref dest (ascii "pipeline error: " ++ err)
    Routine.putBack pkt
  | (ctx, bin, none) => do
    if ctx.stat ≠ codeStopNoop then
      Routine.perform (.dist bin addr)
    Routine.putBack pkt

def afterTCPOut (pkt : Nat) : Processed → Routine Unit
  | (_, _, some err) => do
    let ref ← Routine.metaGet pkt keyRef
    let dest ← Routine.dest pkt
    UDPServer.sendErr ref dest (ascii "response data pipeline error: " ++ err)
    Routine.putBack pkt
  | (ctx, bin, none) => do
    if ctx.stat ≠ codeStopNoop then
      Routine.perform (.dist bin [])
    Routine.putBack pkt

def afterSend (respCh : Option Nat) (ref : GoString) : Processed → Routine (Option GoString)
  | (_, _, some err) => return some (Fmt.errorf (ascii "data pipeline error: " ++ err))
  | (ctx, bin, none) => do
    if ctx.stat = codeStopNoop then
      return some (ascii "data pipeline enforced noop")
    else
      Routine.perform (.writeStream bin respCh)
      Routine.perform (.register ref respCh)
      return none

/-- What the routine does with the outcome. -/
def after : (u : Site) → Processed → Routine u.Out
  | .udpServerIn svr _ sender => afterServerIn sender (svr.serveRequest sender)
  | .udpServerOut _ pkt _ addr => afterServerOut pkt addr
  | .tcpServerIn svr _ => afterServerIn svr.addr svr.serveRequest
  | .tcpServerOut _ pkt _ => afterTCPOut pkt
  | .clientSend _ _ respCh ref _ => afterSend respCh ref
  | .clientIn _ _ => UDPClient.decodeNew

def run (u : Site) : Routine u.Out := u.pipeline >>= u.after

end Site

/-! ## The routines -/

theorem UDPServer.processIncoming_site (svr : UDPServer) (data : Bytes) (sender : GoString) :
    svr.processIncoming data sender = (Site.udpServerIn svr data sender).run := by
  unfold processIncoming Site.run
  congr 1
  funext r
  obtain ⟨ctx, data, err⟩ := r
  cases err with
  | some err => rfl
  | none => rfl

theorem UDPServer.processOutgoing_site (svr : UDPServer) (pkt : Nat) :
    svr.processOutgoing pkt = Routine.marshal pkt >>= fun bin => Routine.dest pkt >>= fun dest =>
      ((svr.resolve dest).map fun addr => (Site.udpServerOut svr pkt bin addr).run).getD
        (Routine.putBack pkt) := by
  unfold processOutgoing
  congr 1
  funext bin
  congr 1
  funext dest
  cases svr.resolve dest with
  | none => rfl
  | some addr =>
    refine (Prog.bind_assoc _ _ _).trans ?_
    show _ = (Site.udpServerOut svr pkt bin addr).run
    unfold Site.run
    congr 1
    funext r
    obtain ⟨ctx, bin, err⟩ := r
    cases err with
    | some err => rfl
    | none =>
      show (if ctx.stat ≠ codeStopNoop then Routine.perform (.dist bin addr) else pure ()) >>=
        (fun _ => Routine.putBack pkt) = Site.afterServerOut pkt addr (ctx, bin, none)
      by_cases hstat : ctx.stat ≠ codeStopNoop
      · rw [Site.afterServerOut, if_pos hstat, if_pos hstat]
      · rw [Site.afterServerOut, if_neg hstat, if_neg hstat]
        rfl

theorem TCPServer.processIncoming_site (svr : TCPServer) (data : Bytes) :
    svr.processIncoming data = (Site.tcpServerIn svr data).run := by
  unfold processIncoming Site.run
  congr 1
  funext r
  obtain ⟨ctx, data, err⟩ := r
  cases err with
  | some err => rfl
  | none => rfl

theorem TCPServer.processOutgoing_site (svr : TCPServer) (pkt : Nat) :
    svr.processOutgoing pkt = Routine.marshal pkt >>= fun bin =>
      (Site.tcpServerOut svr pkt bin).run := by
  unfold processOutgoing
  congr 1
  funext bin
  unfold Site.run
  congr 1
  funext r
  obtain ⟨ctx, bin, err⟩ := r
  cases err with
  | some err => rfl
  | none => rfl

theorem UDPClient.send_site (c : UDPClient) (pkt : Nat) (respCh : Option Nat) :
    c.send pkt respCh = ensureRef pkt >>= fun ref => Routine.marshal pkt >>= fun bin =>
      (Site.clientSend c pkt respCh ref bin).run := by
  unfold send
  congr 1
  funext ref
  congr 1
  funext bin
  unfold Site.run
  congr 1
  funext r
  obtain ⟨ctx, bin, err⟩ := r
  cases err with
  | some err => rfl
  | none => rfl

theorem UDPClient.processIncoming_site (c : UDPClient) (data : Bytes) :
    c.processIncoming data = (Site.clientIn c data).run := processIncoming_eq c data

/-! ## Outcomes -/

/-- An operation on the data or the packet: decoding, delivering, changing the request
table, handing over to a stream. -/
def Op.acts : Op → Bool
  | .call _ (.unmarshal _) | .sendStream _ | .dist _ _ | .writeStream _ _ | .register _ _
  | .unregister _ | .deliver _ _ | .misc _ => true
  | _ => false

/-- After a run of the pipeline that ended with `CodeStopNoop` nothing is done any more. -/
def Site.HonoursNoop (u : Site) : Prop :=
  ∀ tr r, u.pipeline.Leads tr (.ret r) → r.1.stat = codeStopNoop →
    (u.after r).AllOps fun e => e.acts = false

/-- The transforms never end in `CodeStopNoop` on this buffer. -/
def Site.NeverNoop (u : Site) : Prop :=
  ∀ tr r, u.pipeline.Leads tr (.ret r) → r.1.stat ≠ codeStopNoop

/-- The pipeline reports an error with the status for it only. -/
theorem processTransforms_error {ts : List BufferTransform} {ctx : TransformContext} {data : Bytes}
    {tr : List Step} {r : Processed} (h : (processTransforms ts ctx data).Leads tr (.ret r))
    (herr : r.2.2 ≠ none) : r.1.stat = codeStopError := by
  induction ts generalizing ctx data tr with
  | nil =>
    obtain ⟨-, heq⟩ := Prog.leads_ret.mp h
    cases heq
    exact absurd rfl herr
  | cons t ts ih =>
    obtain ⟨tr₁, ⟨ctx', data'⟩, tr₂, -, -, hrest⟩ := Prog.leads_bind_ret h
    simp only at hrest
    split at hrest
    · next hstat =>
      obtain ⟨-, heq⟩ := Prog.leads_ret.mp hrest
      cases heq
      exact hstat
    · split at hrest
      · obtain ⟨-, heq⟩ := Prog.leads_ret.mp hrest
        cases heq
        exact absurd rfl herr
      · exact ih hrest

theorem Site.no_error (u : Site) {tr : List Step} {r : Processed}
    (h : u.pipeline.Leads tr (.ret r)) (hstat : r.1.stat = codeStopNoop) : r.2.2 = none := by
  by_contra herr
  have herror : r.1.stat = codeStopError := by
    cases u with
    | udpServerIn svr data sender => exact processTransforms_error h herr
    | udpServerOut svr pkt bin addr => exact processTransforms_error h herr
    | tcpServerIn svr data => exact processTransforms_error h herr
    | tcpServerOut svr pkt bin => exact processTransforms_error h herr
    | clientSend c pkt respCh ref bin => exact processTransforms_error h herr
    | clientIn c data => exact processTransforms_error h herr
  rw [hstat] at herror
  cases herror

theorem Site.afterServerIn_noop {sender : GoString} {serve : Nat → Routine Unit}
    {ctx : TransformContext} (hstat : ctx.stat = codeStopNoop) (data : Bytes) :
    (afterServerIn sender serve (ctx, data, none)).AllOps fun e => e.acts = false := by
  rw [afterServerIn, UDPServer.decodeWith, if_pos hstat]
  trivial

/-- The routines that test the status. -/
theorem Site.after_noop {u : Site} (hu : ∀ c data, u ≠ .clientIn c data) {ctx : TransformContext}
    (hstat : ctx.stat = codeStopNoop) (data : Bytes) :
    (u.after (ctx, data, none)).AllOps fun e => e.acts = false := by
  cases u with
  | udpServerIn svr data' sender =>
    exact Site.afterServerIn_noop hstat data
  | udpServerOut svr pkt bin addr =>
    show (Site.afterServerOut pkt addr (ctx, data, none)).AllOps _
    rw [Site.afterServerOut, if_neg (not_not.mpr hstat)]
    exact ⟨rfl, fun _ => trivial⟩
  | tcpServerIn svr data' =>
    exact Site.afterServerIn_noop hstat data
  | tcpServerOut svr pkt bin =>
    show (Site.afterTCPOut pkt (ctx, data, none)).AllOps _
    rw [Site.afterTCPOut, if_neg (not_not.mpr hstat)]
    exact ⟨rfl, fun _ => trivial⟩
  | clientSend c pkt respCh ref bin =>
    show (Site.afterSend respCh ref (ctx, data, none)).AllOps _
    rw [Site.afterSend, if_pos hstat]
    trivial
  | clientIn c data' => exact absurd rfl (hu c data')

/-- The client decodes whatever the pipeline has left, with any status. -/
theorem decodeNew_acts (ctx : TransformContext) (data : Bytes) :
    ¬ (UDPClient.decodeNew (ctx, data, none)).AllOps fun e => e.acts = false := by
  intro h
  -- the packet object, and the four calls of `NewPkt` on it
  have hcalls := (h.2 (0 : Nat)).2 none
  have hdecode := ((hcalls.2 none).2 none).2 none
  cases hdecode.1

/-- `CodeStopNoop` is honoured at every place but in the client's `processIncoming`, where
it is only if it does not occur. -/
theorem honoursNoop_iff (u : Site) :
    u.HonoursNoop ↔ (∀ c data, u ≠ .clientIn c data) ∨ u.NeverNoop := by
  constructor
  · intro h
    cases u with
    | clientIn c data =>
      refine .inr fun tr r hr hstat => ?_
      have hops := h tr r hr hstat
      have herr := Site.no_error _ hr hstat
      obtain ⟨ctx, data', err⟩ := r
      cases herr
      exact decodeNew_acts ctx data' hops
    | _ => exact .inl fun c data heq => by cases heq
  · rintro (hu | hnever) tr r hr hstat
    · have herr := Site.no_error _ hr hstat
      obtain ⟨ctx, data', err⟩ := r
      cases herr
      exact Site.after_noop hu hstat data'
    · exact absurd hstat (hnever tr r hr)

/-! ## A buffer that was to be ignored -/

/-- A transform that asks to ignore everything. -/
def ignoreAll : BufferTransform := fun ctx data => pure ({ ctx with stat := codeStopNoop }, data)

def ignoringClient : UDPClient :=
  ⟨addTransform (fun _ => []) pipelineIn ignoreAll, ascii "10.0.0.9:5000"⟩

/-- The packet is delivered on `Misc`. -/
theorem ignored_delivered :
    (∃ r, (Site.clientIn ignoringClient (ascii "\x7b\x7d")).pipeline.Leads [] (.ret r) ∧
      r.1.stat = codeStopNoop) ∧
    ∃ s, (ignoringClient.machine (request ignoringClient)).run UDPClient.start
        (.env (.datagram (ascii "\x7b\x7d")) :: List.replicate 10 (.act 0 {})) = .ok s ∧
      s.log.filterMap tableEvent = [.lookup 0 [], .misc 0] := by
  refine ⟨⟨({ pipelineName := pipelineIn, sender := ignoringClient.addr, stat := codeStopNoop },
    ascii "\x7b\x7d", none), .nil _, rfl⟩, ?_⟩
  · have h : (((ignoringClient.machine (request ignoringClient)).run UDPClient.start
        (.env (.datagram (ascii "\x7b\x7d")) :: List.replicate 10 (.act 0 {}))).result?.map
          fun s => s.log.filterMap tableEvent) = some [.lookup 0 [], .misc 0] := by
      decide +kernel
    obtain ⟨s, hs, hlog⟩ := Option.map_eq_some_iff.mp h
    exact ⟨s, Outcome.eq_ok_of_result? hs, hlog⟩

end Concord
