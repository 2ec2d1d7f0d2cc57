import Concord.UDPServer

/-!
# The connections of the TCP server

`server/tcp_server.go`. `processIncoming` and `processOutgoing` of a connection are those
of the UDP server with three differences: the peer is known by the address the server
listens on, `CodeRelay` is a status like `CodeContinue`, and a write has no address.
-/

namespace Concord

open Go

/-- The configuration of a server that its connections use: data pipelines, callback
queues, and the `String()` of the address it listens on. -/
structure TCPServer where
  data : GoString → List BufferTransform
  queues : GoString → Option (List TargetCallback)
  addr : Addr

/-- `NewTCPServer` -/
def TCPServer.new (addr : Addr) : TCPServer := ⟨fun _ => [], fun _ => none, addr⟩

namespace TCPServer

/-- `processIncoming` of a connection, from the decoded packet on. -/
def serveRequest (svr : TCPServer) (pkt : Nat) : Routine Unit := do
  let ref ← Routine.metaGet pkt keyRef
  let resp ← Routine.newPkt ref svr.addr
  let targetName ← Routine.metaGet pkt keyTarget
  let (ctx, err) ← processPacket svr.queues { pkt, targetName, sender := svr.addr } resp
  match err with
  | some err =>
    Routine.putBack resp
    UDPServer.sendErr ref svr.addr (ascii "packet pipeline error: " ++ err)
  | none =>
    if ctx.stat = codeStopNoop then
      Routine.putBack resp
    else
      Routine.call resp .close
      Routine.perform (.sendStream resp)

/-- `processIncoming` of a connection. -/
def processIncoming (svr : TCPServer) (data : Bytes) : Routine Unit := do
  let (ctx, data, err) ← processData svr.data { pipelineName := pipelineIn, sender := svr.addr } data
  match err with
  | some err => UDPServer.sendErr [] svr.addr (ascii "data pipeline error: " ++ err)
  | none =>
    if ctx.stat = codeStopNoop then
      return ()
    let pkt ← Routine.newPkt [] []
    match ← Routine.unmarshal pkt data with
    | some _ => UDPServer.sendErr [] svr.addr (ascii "malformed packet")
    | none => svr.serveRequest pkt
    Routine.putBack pkt

/-- `processOutgoing` of a connection; the write goes to the peer of the connection. -/
def processOutgoing (svr : TCPServer) (pkt : Nat) : Routine Unit := do
  let bin ← Routine.marshal pkt
  let (ctx, bin, err) ← processData svr.data { pkt := some pkt, pipelineName := pipelineOut } bin
  match err with
  | some err =>
    let ref ← Routine.metaGet pkt keyRef
    let dest ← Routine.dest pkt
    UDPServer.sendErr ref dest (ascii "response data pipeline error: " ++ err)
  | none =>
    if ctx.stat ≠ codeStopNoop then
      Routine.perform (.dist bin [])
  Routine.putBack pkt

/-! ## Reading -/

/-- What `TCPConn.Read` returns: bytes, an error that is temporary, or another error. -/
inductive ReadOutcome where
  | bytes (bin : Bytes)
  | temporary
  | failed

/-- The read buffer after bytes have been read into it. -/
def readBuffer (rbuffSize : Nat) (bin : Bytes) : Bytes :=
  bin ++ List.replicate (rbuffSize - bin.length) 0

/-- `readConn`: the buffers it starts a `processIncoming` for, as the reads go. The number of
bytes that were read is not looked at. -/
def readConn (rbuffSize : Nat) : List ReadOutcome → List Bytes
  | [] => []
  | .bytes bin :: rest => readBuffer rbuffSize bin :: readConn rbuffSize rest
  | .temporary :: rest => readConn rbuffSize rest
  | .failed :: _ => []

end TCPServer

end Concord
