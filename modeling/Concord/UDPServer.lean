import Concord.Crypto

/-!
# The UDP server

`server/udp_server.go`. `processIncoming`, `relayCallback` and
`processOutgoing` are goroutine bodies; `readPkts` starts one for every datagram
and `sendPkts` one for every packet that comes over `sendStream`. The machine of
a server runs any number of them in any interleaving.
-/

namespace Concord

open Go

def keyRelayFrom : GoString := ascii "_relay_src"
def keyRelayTo : GoString := ascii "_relay_dst"
def targetRelay : GoString := ascii "svr.relay"

def pipelineIn : GoString := ascii "_in_"
def pipelineOut : GoString := ascii "_out_"

/-- The configuration of a server: its data pipelines, its callback queues and
`net.ResolveUDPAddr`. -/
structure UDPServer where
  data : GoString → List BufferTransform
  queues : GoString → Option (List TargetCallback)
  resolve : GoString → Option Addr

/-- `relayCallback`. -/
def relayCallback : TargetCallback := fun ctx _ => do
  let ref ← Routine.metaGet ctx.pkt keyRef
  let relayAddr ← Routine.metaGet ctx.pkt keyRelayTo
  let fwdPkt ← Routine.newPkt ref relayAddr
  Routine.call fwdPkt (.metaAdd keyRelayFrom ctx.sender)
  let body ← Routine.data ctx.pkt
  Routine.call fwdPkt (.write body)
  Routine.call fwdPkt .close
  Routine.perform (.sendStream fwdPkt)
  return { ctx with stat := codeStopNoop, msg := ascii "packet forwarded" }

/-- `NewUDPServer`: no transforms, and the relay target. -/
def UDPServer.new (resolve : GoString → Option Addr) : UDPServer :=
  ⟨fun _ => [], addCallback (fun _ => none) targetRelay relayCallback, resolve⟩

/-- `Extend` of the Crypto extension on a server. -/
def Crypto.extendServer (cr : Crypto) (svr : UDPServer) : UDPServer where
  data := addTransform (addTransform svr.data pipelineIn cr.decryptTransport) pipelineOut
    cr.encryptTransport
  queues := addCallback (addCallback svr.queues targetKeyExchangeServer cr.keyExchangeServer)
    targetKeyExchangeClient keyExchangeClient
  resolve := svr.resolve

theorem Crypto.extendServer_in {cr : Crypto} {svr : UDPServer} (hin : svr.data pipelineIn = []) :
    (cr.extendServer svr).data pipelineIn = [cr.decryptTransport] := by
  simp only [extendServer, addTransform, if_true]
  rw [if_neg (by decide), hin]
  rfl

theorem Crypto.extendServer_out {cr : Crypto} {svr : UDPServer} (hout : svr.data pipelineOut = []) :
    (cr.extendServer svr).data pipelineOut = [cr.encryptTransport] := by
  simp only [extendServer, addTransform, if_true]
  rw [if_neg (by decide), hout]
  rfl

namespace UDPServer

/-- `sendStream <- svr.pc.NewErrPkt(ref, dest, msg)`. -/
def sendErr (ref dest msg : GoString) : Routine Unit := do
  let p ← Routine.newErrPkt ref dest msg
  Routine.perform (.sendStream p)

/-- The end of `processIncoming`: what becomes of the response when the callback
queue has ended without an error. -/
def dispatch (ctx : TargetCtx) (resp : Nat) : Routine Unit := do
  if ctx.stat = codeStopNoop then
    Routine.putBack resp
  else if ctx.stat = codeRelay then
    let relayAddr ← Routine.metaGet resp keyRelayTo
    if relayAddr ≠ [] then
      Routine.call resp (.setDest relayAddr)
      Routine.call resp (.metaAdd keyRelayFrom ctx.sender)
      Routine.call resp .close
      Routine.perform (.sendStream resp)
    else
      Routine.putBack resp
  else
    Routine.call resp .close
    Routine.perform (.sendStream resp)

/-- `processIncoming` from the decoded packet on. -/
def serveRequest (svr : UDPServer) (sender : GoString) (pkt : Nat) : Routine Unit := do
  let ref ← Routine.metaGet pkt keyRef
  let resp ← Routine.newPkt ref sender
  let targetName ← Routine.metaGet pkt keyTarget
  let (ctx, err) ← processPacket svr.queues { pkt, targetName, sender } resp
  match err with
  | some err =>
    Routine.putBack resp
    sendErr ref sender (ascii "packet pipeline error: " ++ err)
  | none => dispatch ctx resp

/-- `processIncoming`. The intermediate packet is put back on every path. -/
def processIncoming (svr : UDPServer) (data : Bytes) (sender : GoString) : Routine Unit := do
  let (ctx, data, err) ← processData svr.data { pipelineName := pipelineIn, sender } data
  match err with
  | some err => sendErr [] sender (ascii "data pipeline error: " ++ err)
  | none =>
    if ctx.stat = codeStopNoop then
      return ()
    let pkt ← Routine.newPkt [] []
    match ← Routine.unmarshal pkt data with
    | some _ => sendErr [] sender (ascii "malformed packet")
    | none => svr.serveRequest sender pkt
    Routine.putBack pkt

/-- The part of `processOutgoing` behind a destination that resolves. -/
def transmit (svr : UDPServer) (pkt : Nat) (bin : Bytes) (addr : Addr) : Routine Unit := do
  let (ctx, bin, err) ← processData svr.data { pkt := some pkt, pipelineName := pipelineOut } bin
  match err with
  | some err =>
    let ref ← Routine.metaGet pkt keyRef
    let dest ← Routine.dest pkt
    sendErr ref dest (ascii "pipeline error: " ++ err)
  | none =>
    if ctx.stat ≠ codeStopNoop then
      Routine.perform (.dist bin addr)

/-- `processOutgoing`. -/
def processOutgoing (svr : UDPServer) (pkt : Nat) : Routine Unit := do
  let bin ← Routine.marshal pkt
  let dest ← Routine.dest pkt
  match svr.resolve dest with
  | some addr => svr.transmit pkt bin addr
  | none => pure ()
  Routine.putBack pkt

/-! ## Operations -/

/-- `P` holds of the operations the server's own code performs on a packet it has, other than
to decode it. -/
structure OwnEdits (P : Op → Prop) : Prop where
  get : P .poolGet
  put : ∀ p, P (.poolPut p)
  call : ∀ p op, (∀ bin, op ≠ .unmarshal bin) → P (.call p op)
  read : ∀ p r, P (.read p r)
  send : ∀ p, P (.sendStream p)

/-- `P` holds of the operations the server's own code performs on the way in. -/
structure OwnOps (P : Op → Prop) : Prop where
  get : P .poolGet
  put : ∀ p, P (.poolPut p)
  call : ∀ p op, P (.call p op)
  read : ∀ p r, P (.read p r)
  send : ∀ p, P (.sendStream p)

section Operations

variable {P : Op → Prop}

theorem OwnOps.edits (hP : OwnOps P) : OwnEdits P :=
  ⟨hP.get, hP.put, fun p op _ => hP.call p op, hP.read, hP.send⟩

theorem OwnEdits.newPkt (hP : OwnEdits P) (ref dest : GoString) :
    (Routine.newPkt ref dest).AllOps P :=
  Routine.newPkt_allOps hP.get fun p op hop => hP.call p op fun bin h => by
    simp [h, newPktOps] at hop

theorem OwnEdits.newErrPkt (hP : OwnEdits P) (ref dest msg : GoString) :
    (Routine.newErrPkt ref dest msg).AllOps P :=
  Routine.newErrPkt_allOps hP.get fun p op hop => hP.call p op fun bin h => by
    simp [h, newErrPktOps, newPktOps] at hop

theorem OwnEdits.call_allOps (hP : OwnEdits P) {p : Nat} {op : PktOp}
    (hop : ∀ bin, op ≠ .unmarshal bin) : (Routine.call p op).AllOps P :=
  Routine.call_allOps (hP.call p op hop)

theorem sendErr_allOps (hP : OwnEdits P) (ref dest msg : GoString) :
    (sendErr ref dest msg).AllOps P :=
  Prog.allOps_bind (hP.newErrPkt ref dest msg)
    fun p => ⟨hP.send p, fun _ => trivial⟩

theorem putBack_allOps (hP : OwnEdits P) (p : Nat) : (Routine.putBack p).AllOps P :=
  ⟨hP.put p, fun _ => trivial⟩

theorem relayCallback_allOps (hP : OwnEdits P) (ctx : TargetCtx) (pw : Nat) :
    (relayCallback ctx pw).AllOps P := by
  refine Prog.allOps_op (hP.read _ _) fun ref => Prog.allOps_op (hP.read _ _) fun relayAddr => ?_
  refine Prog.allOps_bind (hP.newPkt ref relayAddr) fun fwdPkt => ?_
  refine Prog.allOps_bind (hP.call_allOps fun _ h => nomatch h) fun _ => ?_
  refine Prog.allOps_op (hP.read _ _) fun body => ?_
  refine Prog.allOps_bind (hP.call_allOps fun _ h => nomatch h) fun _ => ?_
  refine Prog.allOps_bind (hP.call_allOps fun _ h => nomatch h) fun _ => ?_
  exact Prog.allOps_op (hP.send _) fun _ => trivial

theorem closeSend_allOps (hP : OwnEdits P) (p : Nat) :
    (do Routine.call p .close; Routine.perform (.sendStream p) : Routine Unit).AllOps P :=
  Prog.allOps_bind (hP.call_allOps fun _ h => nomatch h) fun _ => ⟨hP.send p, fun _ => trivial⟩

theorem dispatch_allOps (hP : OwnEdits P) (ctx : TargetCtx) (resp : Nat) :
    (dispatch ctx resp).AllOps P := by
  refine Prog.allOps_ite (fun _ => putBack_allOps hP resp) fun _ =>
    Prog.allOps_ite (fun _ => ?_) fun _ => closeSend_allOps hP resp
  refine Prog.allOps_op (hP.read _ _) fun relayAddr =>
    Prog.allOps_ite (fun _ => ?_) fun _ => putBack_allOps hP resp
  refine Prog.allOps_bind (hP.call_allOps fun _ h => nomatch h) fun _ => ?_
  refine Prog.allOps_bind (hP.call_allOps fun _ h => nomatch h) fun _ => ?_
  exact closeSend_allOps hP resp

theorem serveRequest_allOps (hP : OwnEdits P) {svr : UDPServer}
    (hq : ∀ name cbs, svr.queues name = some cbs → ∀ cb ∈ cbs, ∀ ctx pw, (cb ctx pw).AllOps P)
    (sender : GoString) (pkt : Nat) : (svr.serveRequest sender pkt).AllOps P := by
  refine Prog.allOps_op (hP.read _ _) fun ref => ?_
  refine Prog.allOps_bind (hP.newPkt _ _) fun resp => ?_
  refine Prog.allOps_op (hP.read _ _) fun target => ?_
  refine Prog.allOps_bind (processPacket_allOps hq _ resp) fun r => ?_
  obtain ⟨ctx, err⟩ := r
  cases err with
  | some err => exact Prog.allOps_bind (putBack_allOps hP resp) fun _ => sendErr_allOps hP _ _ _
  | none => exact dispatch_allOps hP ctx resp

/-- `processIncoming` performs the server's own operations and those of its
transforms and callbacks. -/
theorem processIncoming_allOps (hP : OwnOps P) {svr : UDPServer}
    (hin : ∀ t ∈ svr.data pipelineIn, ∀ ctx data, (t ctx data).AllOps P)
    (hq : ∀ name cbs, svr.queues name = some cbs → ∀ cb ∈ cbs, ∀ ctx pw, (cb ctx pw).AllOps P)
    (data : Bytes) (sender : GoString) : (svr.processIncoming data sender).AllOps P := by
  refine Prog.allOps_bind (processTransforms_allOps hin _ data) fun r => ?_
  obtain ⟨ctx, data, err⟩ := r
  cases err with
  | some err => exact sendErr_allOps hP.edits _ _ _
  | none =>
    refine Prog.allOps_ite (fun _ => trivial) fun _ => ?_
    refine Prog.allOps_bind (hP.edits.newPkt _ _) fun pkt => ?_
    refine Prog.allOps_op (hP.call _ _) fun err => ?_
    cases err with
    | some _ =>
      exact Prog.allOps_bind (sendErr_allOps hP.edits _ _ _) fun _ => putBack_allOps hP.edits pkt
    | none =>
      exact Prog.allOps_bind (serveRequest_allOps hP.edits hq sender pkt)
        fun _ => putBack_allOps hP.edits pkt

/-- `processOutgoing` writes to the connection as well. -/
theorem processOutgoing_allOps (hP : OwnEdits P) (hdist : ∀ data addr, P (.dist data addr))
    {svr : UDPServer} (hout : ∀ t ∈ svr.data pipelineOut, ∀ ctx data, (t ctx data).AllOps P)
    (pkt : Nat) : (svr.processOutgoing pkt).AllOps P := by
  refine Prog.allOps_op (hP.read _ _) fun bin => Prog.allOps_op (hP.read _ _) fun dest => ?_
  cases svr.resolve dest with
  | none => exact putBack_allOps hP pkt
  | some addr =>
    refine Prog.allOps_bind ?_ fun _ => putBack_allOps hP pkt
    refine Prog.allOps_bind (processTransforms_allOps hout _ bin) fun r => ?_
    obtain ⟨ctx, bin, err⟩ := r
    cases err with
    | some err =>
      exact Prog.allOps_op (hP.read _ _) fun _ => Prog.allOps_op (hP.read _ _) fun _ =>
        sendErr_allOps hP _ _ _
    | none =>
      exact Prog.allOps_ite (fun _ => ⟨hdist _ _, fun _ => trivial⟩) fun _ => trivial

end Operations

/-! ## The machine -/

/-- What happens around the goroutines: `readPkts` reads a datagram, `sendPkts`
starts a goroutine for the packet it has received, the runtime drops a pooled
packet. -/
inductive Env where
  | datagram (data : Bytes) (sender : GoString)
  | sendPkts
  | gc (n : Nat)

def env (svr : UDPServer) (s : Endpoint) : Env → Option (Endpoint × Option (Routine Unit))
  | .datagram data sender => some (s, some (svr.processIncoming data sender))
  | .sendPkts => s.sending.map fun p => ({ s with sending := none }, some (svr.processOutgoing p))
  | .gc n => some ({ s with pkts := s.pkts.drop n }, none)

theorem env_spawn {svr : UDPServer} {s st : Endpoint} {a : Env} {t : Routine Unit}
    (h : svr.env s a = some (st, some t)) :
    (∃ data sender, a = .datagram data sender ∧ st = s ∧ t = svr.processIncoming data sender) ∨
    ∃ p, a = .sendPkts ∧ s.sending = some p ∧ st = { s with sending := none } ∧
      t = svr.processOutgoing p := by
  cases a with
  | datagram data sender =>
    cases h
    exact .inl ⟨data, sender, rfl, rfl, rfl⟩
  | sendPkts =>
    obtain ⟨p, hp, h⟩ := Option.map_eq_some_iff.mp h
    cases h
    exact .inr ⟨p, rfl, hp, rfl, rfl⟩
  | gc n => cases h

theorem env_quiet {svr : UDPServer} {s st : Endpoint} {a : Env}
    (h : svr.env s a = some (st, none)) : ∃ n, a = .gc n ∧ st = { s with pkts := s.pkts.drop n } := by
  cases a with
  | datagram data sender => cases h
  | sendPkts =>
    obtain ⟨p, -, h⟩ := Option.map_eq_some_iff.mp h
    cases h
  | gc n =>
    cases h
    exact ⟨n, rfl, rfl⟩

def machine (svr : UDPServer) : Machine Op Op.Res Endpoint Choice Env := ⟨Endpoint.handle, svr.env⟩

/-- A server that has just been started. -/
def start : Sys Op Op.Res Endpoint Env := ⟨Endpoint.init, [], []⟩

end UDPServer

end Concord
