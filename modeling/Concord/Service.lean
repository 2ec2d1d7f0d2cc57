import Concord.Dispatch
import Concord.Go.Translate
import Concord.LinkLogic

/-!
# What a server is for

The server as its application sees it: a table of target callbacks, each a function of one
request that composes one response. `Service.Answers` is the purpose of the server, stated
without goroutines, pools or streams: which datagram, if any, answers a datagram.

A callback is a program over the calls the source gives it (`HandlerCall`): those of
`packet.Packet` on the request, but for `Unmarshal`, and those of `packet.Writer` on the
response. `callback` is the same program as the server runs it, on packet objects.
-/

namespace Concord

open Go

/-! ## 1. Target callbacks -/

/-- A call of a target callback: on `ctx.Pkt`, on the writer it is given, or on something
outside of the server. -/
inductive HandlerCall where
  | read (r : PktRead)
  | edit (op : { op : PktOp // op.isEdit = true })
  | respMeta (key : GoString)
  | compose (op : { op : PktOp // op.ofWriter = true })
  | oracle

@[reducible] def HandlerCall.Res : HandlerCall → Type
  | .read _ | .respMeta _ => Bytes
  | .oracle => Nat
  | _ => Unit

/-- The fields of a `TargetCtx` other than the packet. -/
structure HandlerCtx where
  stat : Int := codeContinue
  msg : GoString := []
  targetName : GoString
  sender : GoString

/-- A target callback. -/
abbrev Handler := HandlerCtx → Prog HandlerCall HandlerCall.Res HandlerCtx

/-- The loop of `PacketPipeline.Process`. -/
def runHandlers : List Handler → HandlerCtx →
    Prog HandlerCall HandlerCall.Res (HandlerCtx × Option GoString)
  | [], ctx => pure (ctx, none)
  | h :: rest, ctx => do
    let ctx ← h ctx
    if ctx.stat = codeStopError then
      return (ctx, some (Fmt.errorf ctx.msg))
    else if ctx.stat = codeStopNoop ∨ ctx.stat = codeStopCloseSend then
      return (ctx, none)
    else
      runHandlers rest ctx

/-- The request and the response a callback works on. -/
structure Transaction where
  req : PktView
  resp : PktView

/-- What a call does to them. -/
def Transaction.handle (x : Transaction) (c : Nat) : (e : HandlerCall) → Outcome (e.Res × Transaction)
  | .read r => .ok (x.req.read r, x)
  | .edit op => .ok ((), { x with req := x.req.after op.1 })
  | .respMeta key => .ok (x.resp.metaGet key, x)
  | .compose op => .ok ((), { x with resp := x.resp.after op.1 })
  | .oracle => .ok (c, x)

/-! ### On packet objects -/

/-- The context as the server has it. -/
def HandlerCtx.on (ctx : HandlerCtx) (pkt : Nat) : TargetCtx :=
  ⟨pkt, ctx.stat, ctx.msg, ctx.targetName, ctx.sender⟩

def TargetCtx.fields (ctx : TargetCtx) : HandlerCtx := ⟨ctx.stat, ctx.msg, ctx.targetName, ctx.sender⟩

/-- The call on the packet objects of the request and the response. -/
def HandlerCall.on (pkt pw : Nat) : (e : HandlerCall) → Routine e.Res
  | .read r => Routine.perform (.read pkt r)
  | .edit op => Routine.call pkt op.1
  | .respMeta key => Routine.metaGet pw key
  | .compose op => Routine.call pw op.1
  | .oracle => Routine.perform .oracle

/-- The callback as it is given to `AddCallback`. -/
def Handler.callback (h : Handler) : TargetCallback := fun ctx pw => do
  let fields ← (h ctx.fields).translate (HandlerCall.on ctx.pkt pw)
  return fields.on ctx.pkt

/-- The server's loop over callbacks is the loop above, on packet objects. -/
theorem processCallbacks_handlers (pkt pw : Nat) (hs : List Handler) (ctx : HandlerCtx) :
    processCallbacks pw (hs.map Handler.callback) (ctx.on pkt) = (do
      let r ← (runHandlers hs ctx).translate (HandlerCall.on pkt pw)
      return (r.1.on pkt, r.2)) := by
  induction hs generalizing ctx with
  | nil => rfl
  | cons h hs ih =>
    rw [List.map_cons, processCallbacks, runHandlers, Prog.translate_bind, Prog.bind_assoc,
      Handler.callback, Prog.bind_assoc]
    refine congrArg _ (funext fun ctx' => ?_)
    rw [Prog.translate_ite, Prog.translate_ite]
    change (if ctx'.stat = codeStopError then _ else _) = _
    split
    · rfl
    · change (if ctx'.stat = codeStopNoop ∨ ctx'.stat = codeStopCloseSend then _ else _) = _
      split
      · rfl
      · exact ih ctx'

/-! ## 2. The service -/

/-- The calls to `AddCallback`, in order, and `net.ResolveUDPAddr`. -/
structure Service where
  targets : List (GoString × Handler)
  resolve : GoString → Option Addr

namespace Service

variable (svc : Service)

/-- The server: `NewUDPServer`, and one `AddCallback` after the other. -/
def server : UDPServer :=
  { UDPServer.new svc.resolve with
    queues := svc.targets.foldl (fun queues t => addCallback queues t.1 t.2.callback)
      (UDPServer.new svc.resolve).queues }

/-- The callbacks of a target. -/
def handlers (target : GoString) : List Handler :=
  (svc.targets.filter fun t => t.1 = target).map Prod.snd

/-! ### Answers -/

/-- An error packet; its data is what the packet object was left with by its last use. -/
def errorView (ref dest msg : GoString) (stale : Bytes) : PktView :=
  ⟨JSONPkt.errMeta ref msg, Base64.encode stale, [], dest⟩

/-- A packet that is forwarded by `svr.relay`. -/
def forwardView (sender : GoString) (req : PktView) : PktView :=
  ⟨(JSONPkt.refMeta (req.metaGet keyRef)).set keyRelayFrom sender, Base64.encode req.buff, req.buff,
    req.metaGet keyRelayTo⟩

/-- What is sent when the callbacks have left this context and this response. -/
def composed (ctx : HandlerCtx) (resp : PktView) : Option PktView :=
  if ctx.stat = codeStopNoop then
    none
  else if ctx.stat = codeRelay then
    if resp.metaGet keyRelayTo ≠ [] then
      some (((resp.after (.setDest (resp.metaGet keyRelayTo))).after
        (.metaAdd keyRelayFrom ctx.sender)).after .close)
    else
      none
  else
    some (resp.after .close)

/-- The request is run through the callbacks of its target. -/
def Runs (sender : GoString) (req : PktView) (r : HandlerCtx × Option GoString) (resp : PktView) :
    Prop :=
  ∃ req', Ends Transaction.handle
    (runHandlers (svc.handlers (req.metaGet keyTarget)) ⟨codeContinue, [], req.metaGet keyTarget, sender⟩)
    ⟨req, ⟨JSONPkt.refMeta (req.metaGet keyRef), [], [], sender⟩⟩ r ⟨req', resp⟩

/-- The packet that is sent for a request, if there is one. -/
inductive Replies (sender : GoString) (req : PktView) : Option PktView → Prop
  | forwarded : req.metaGet keyTarget = targetRelay → Replies sender req (some (forwardView sender req))
  | unknown (stale : Bytes) : req.metaGet keyTarget ≠ targetRelay →
      svc.handlers (req.metaGet keyTarget) = [] →
      Replies sender req (some (errorView (req.metaGet keyRef) sender
        (ascii "packet pipeline error: " ++ ascii "target not found") stale))
  | failed {ctx : HandlerCtx} {err : GoString} {resp : PktView} (stale : Bytes) :
      req.metaGet keyTarget ≠ targetRelay → svc.handlers (req.metaGet keyTarget) ≠ [] →
      svc.Runs sender req (ctx, some err) resp →
      Replies sender req (some (errorView (req.metaGet keyRef) sender
        (ascii "packet pipeline error: " ++ err) stale))
  | served {ctx : HandlerCtx} {resp : PktView} :
      req.metaGet keyTarget ≠ targetRelay → svc.handlers (req.metaGet keyTarget) ≠ [] →
      svc.Runs sender req (ctx, none) resp → Replies sender req (composed ctx resp)

/-- The packet that is sent for a datagram, if there is one. -/
inductive Handles : Bytes × GoString → Option PktView → Prop
  | malformed {bin : Bytes} {sender : GoString} (stale : Bytes) : Json.parse bin = none →
      Handles (bin, sender) (some (errorView [] sender (ascii "malformed packet") stale))
  | request {u : PktView} {body : Bytes} {sender : GoString} {v : Option PktView} :
      u.wire = Base64.encode body → svc.Replies sender (decodedView u body []) v →
      Handles (u.marshal, sender) v

/-- The datagram a packet is sent as; a destination that does not resolve gets none. -/
def transmitted (v : PktView) : Option (Bytes × Addr) :=
  (svc.resolve v.dest).map fun addr => (v.marshal, addr)

/-- The datagram that answers a datagram, if there is one. -/
def Answers (d : Bytes × GoString) (out : Option (Bytes × Addr)) : Prop :=
  ∃ v, svc.Handles d v ∧ out = v.bind svc.transmitted

/-! ### Its queues -/

variable {svc}

theorem foldl_addCallback (targets : List (GoString × Handler))
    (queues : GoString → Option (List TargetCallback)) (name : GoString) :
    targets.foldl (fun queues t => addCallback queues t.1 t.2.callback) queues name =
      match (targets.filter fun t => t.1 = name).map Prod.snd with
      | [] => queues name
      | hs => some ((queues name).getD [] ++ hs.map Handler.callback) := by
  induction targets generalizing queues with
  | nil => rfl
  | cons t targets ih =>
    rw [List.foldl_cons, ih]
    by_cases ht : t.1 = name
    · simp only [addCallback, ht, List.filter_cons, decide_true, if_true, List.map_cons]
      cases (targets.filter fun t => t.1 = name).map Prod.snd with
      | nil => rfl
      | cons h hs => simp
    · simp only [addCallback, if_neg (Ne.symm ht), List.filter_cons, ht, decide_false,
        Bool.false_eq_true, if_false]

/-- The relay callback is the first one of its target. -/
theorem queues_relay :
    ∃ rest, svc.server.queues targetRelay = some (relayCallback :: rest) := by
  have hnew : (UDPServer.new svc.resolve).queues targetRelay = some [relayCallback] := rfl
  rw [server]
  simp only [foldl_addCallback, hnew]
  cases (svc.targets.filter fun t => t.1 = targetRelay).map Prod.snd with
  | nil => exact ⟨[], rfl⟩
  | cons h hs => exact ⟨_, rfl⟩

theorem queues_of_ne {name : GoString} (hname : name ≠ targetRelay) :
    (svc.handlers name = [] → svc.server.queues name = none) ∧
    (svc.handlers name ≠ [] →
      svc.server.queues name = some ((svc.handlers name).map Handler.callback)) := by
  have hnew : (UDPServer.new svc.resolve).queues name = none := by
    simp only [UDPServer.new, addCallback, if_neg hname]
  rw [server]
  simp only [foldl_addCallback, hnew, handlers]
  cases (svc.targets.filter fun t => t.1 = name).map Prod.snd with
  | nil => simp
  | cons h hs => simp

end Service

/-! ## 3. The echo server

`examples/echo/server/server.go`. What it logs and counts is not part of any answer. -/

/-- The names `encoding/json` takes for the field `msg`: letter case is ignored, and `ſ` is an
`s`. -/
def isMsgKey (k : GoString) : Bool :=
  let folded := k.map fun b => if 0x41 ≤ b && b ≤ 0x5A then b + 0x20 else b
  folded = ascii "msg" || folded = [0x6D, 0xC5, 0xBF, 0x67]

/-- `json.Unmarshal` of the data into a struct with the field `msg` reports no error. -/
def echoDecodes (body : Bytes) : Bool :=
  match Json.parse body with
  | some (.obj ms) => ms.all fun e => !isMsgKey e.1 || !(JSONPkt.elemString e.2).2
  | some .null => true
  | _ => false

/-- The callback of `app.echo`; `clock` is the text of `time.Now()`. -/
def echo (clock : Nat → GoString) : Handler := fun ctx => do
  let body ← Prog.perform (HandlerCall.read .data)
  if echoDecodes body then
    let now ← Prog.perform HandlerCall.oracle
    Prog.perform (HandlerCall.compose ⟨.write (ascii "Received at " ++ clock now), rfl⟩)
    Prog.perform (HandlerCall.compose ⟨.close, rfl⟩)
    return ctx
  else
    return { ctx with stat := codeStopError, msg := ascii "malformed packet data" }

def echoService : Service := ⟨[(ascii "app.echo", echo fun _ => ascii "12:00:00")], some⟩

/-- The request of `examples/echo/client/client.go`, with the given ref. -/
def helloView (ref : GoString) : PktView :=
  let body := ascii "\x7b\"msg\":\"hello\"\x7d"
  ⟨(JSONPkt.refMeta ref).set keyTarget (ascii "app.echo"), Base64.encode body, body,
    ascii "127.0.0.1:10000"⟩

end Concord
