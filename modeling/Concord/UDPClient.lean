import Concord.UDPServer

/-!
# The UDP client

`client/udp_client.go`. `Send` runs in goroutines of the application, `recv` starts
a goroutine `processIncoming` for every datagram, and the write routine writes one
buffer after another. A run interleaves any number of application goroutines with
them.
-/

namespace Concord

open Go

/-- The configuration of a client: its data pipelines, and the `String()` of the server
address it was made with. -/
structure UDPClient where
  data : GoString → List BufferTransform
  addr : Addr

/-- `NewUDPClient` -/
def UDPClient.new (addr : Addr) : UDPClient := ⟨fun _ => [], addr⟩

/-- `Extend` of the Crypto extension on a client. -/
def Crypto.extendClient (cr : Crypto) (c : UDPClient) : UDPClient where
  data := addTransform (addTransform c.data pipelineIn cr.decryptTransport) pipelineOut
    cr.encryptTransport
  addr := c.addr

theorem Crypto.extendClient_in {cr : Crypto} {c : UDPClient} (hin : c.data pipelineIn = []) :
    (cr.extendClient c).data pipelineIn = [cr.decryptTransport] := by
  simp only [extendClient, addTransform, if_true]
  rw [if_neg (by decide), hin]
  rfl

theorem Crypto.extendClient_out {cr : Crypto} {c : UDPClient} (hout : c.data pipelineOut = []) :
    (cr.extendClient c).data pipelineOut = [cr.encryptTransport] := by
  simp only [extendClient, addTransform, if_true]
  rw [if_neg (by decide), hout]
  rfl

namespace UDPClient

/-- The ref of a packet that is about to be sent; one is made up if it has none. -/
def ensureRef (pkt : Nat) : Routine GoString := do
  let ref ← Routine.metaGet pkt keyRef
  if ref = [] then
    let ref ← Routine.perform .genRef
    Routine.call pkt (.metaAdd keyRef ref)
    return ref
  else
    return ref

/-- `Send`: the error it returns, if any. -/
def send (c : UDPClient) (pkt : Nat) (respCh : Option Nat) : Routine (Option GoString) := do
  let ref ← ensureRef pkt
  let bin ← Routine.marshal pkt
  let (ctx, bin, err) ← processData c.data { pkt := some pkt, pipelineName := pipelineOut } bin
  match err with
  | some err => return some (Fmt.errorf (ascii "data pipeline error: " ++ err))
  | none =>
    if ctx.stat = codeStopNoop then
      return some (ascii "data pipeline enforced noop")
    else
      Routine.perform (.writeStream bin respCh)
      Routine.perform (.register ref respCh)
      return none

/-- The end of `processIncoming`: the packet goes to the request with its ref, if there
is one with a channel. -/
def answer (ref : GoString) (pkt : Nat) : Routine Unit := do
  match ← Routine.perform (.lookup ref) with
  | some (some respCh) => Routine.perform (.deliver respCh pkt)
  | _ => Routine.perform (.misc pkt)
  Routine.perform (.unregister ref)

/-- `processIncoming`; the status of the pipeline is not looked at. -/
def processIncoming (c : UDPClient) (data : Bytes) : Routine Unit := do
  let (_, data, err) ← processData c.data { pipelineName := pipelineIn, sender := c.addr } data
  match err with
  | some _ => pure ()
  | none =>
    let pkt ← Routine.newPkt [] []
    match ← Routine.unmarshal pkt data with
    | some _ => pure ()
    | none =>
      let ref ← Routine.metaGet pkt keyRef
      answer ref pkt

/-- What the write routine does after a failed write for a request with a response
channel. -/
def writeError (respCh : Nat) (err : GoString) : Routine Unit := do
  let p ← Routine.newErrPkt [] [] (ascii "packet write error: " ++ err)
  Routine.perform (.deliver respCh p)
  Routine.perform .writeDone

/-! ## The machine -/

/-- What happens around the goroutines: the application starts one, a datagram comes in,
the write routine has written its buffer or failed to, the runtime drops a pooled
packet. -/
inductive Env (α : Type) where
  | app (call : α)
  | datagram (data : Bytes)
  | wrote
  | writeFailed (err : GoString)
  | gc (n : Nat)

variable {α : Type}

def env (c : UDPClient) (app : α → Routine Unit) (s : Endpoint) :
    Env α → Option (Endpoint × Option (Routine Unit))
  | .app call => some (s, some (app call))
  | .datagram data => some (s, some (c.processIncoming data))
  | .wrote => s.writing.map fun _ => ({ s with writing := none }, none)
  | .writeFailed err => s.writing.map fun w =>
    match w.2 with
    | none => ({ s with writing := none }, none)
    | some respCh => ({ s with writing := none, failing := true }, some (writeError respCh err))
  | .gc n => some ({ s with pkts := s.pkts.drop n }, none)

/-- The environment step that starts a goroutine. -/
theorem env_spawn {c : UDPClient} {app : α → Routine Unit} {s st : Endpoint} {a : Env α}
    {t : Routine Unit} (h : c.env app s a = some (st, some t)) :
    (∃ call, a = .app call ∧ st = s ∧ t = app call) ∨
    (∃ data, a = .datagram data ∧ st = s ∧ t = c.processIncoming data) ∨
    ∃ err w respCh, a = .writeFailed err ∧ s.writing = some w ∧ w.2 = some respCh ∧
      st = { s with writing := none, failing := true } ∧ t = writeError respCh err := by
  cases a with
  | app call =>
    cases h
    exact .inl ⟨call, rfl, rfl, rfl⟩
  | datagram data =>
    cases h
    exact .inr (.inl ⟨data, rfl, rfl, rfl⟩)
  | wrote =>
    obtain ⟨w, -, h⟩ := Option.map_eq_some_iff.mp h
    cases h
  | writeFailed err =>
    obtain ⟨w, hw, h⟩ := Option.map_eq_some_iff.mp h
    split at h
    · cases h
    · next respCh hch =>
      cases h
      exact .inr (.inr ⟨err, w, respCh, rfl, hw, hch, rfl, rfl⟩)
  | gc n => cases h

/-- The environment steps that start none: a write has ended, or a pooled packet is
dropped. -/
theorem env_quiet {c : UDPClient} {app : α → Routine Unit} {s st : Endpoint} {a : Env α}
    (h : c.env app s a = some (st, none)) :
    st = { s with writing := none } ∨ ∃ n, a = .gc n ∧ st = { s with pkts := s.pkts.drop n } := by
  cases a with
  | app call => cases h
  | datagram data => cases h
  | wrote =>
    obtain ⟨w, -, h⟩ := Option.map_eq_some_iff.mp h
    cases h
    exact .inl rfl
  | writeFailed err =>
    obtain ⟨w, -, h⟩ := Option.map_eq_some_iff.mp h
    split at h
    · cases h
      exact .inl rfl
    · cases h
  | gc n =>
    cases h
    exact .inr ⟨n, rfl, rfl⟩

def machine (c : UDPClient) (app : α → Routine Unit) :
    Machine Op Op.Res Endpoint Choice (Env α) :=
  ⟨Endpoint.handle, c.env app⟩

/-- A client that has just been made. -/
def start : Sys Op Op.Res Endpoint (Env α) := ⟨Endpoint.init, [], []⟩

end UDPClient

end Concord
