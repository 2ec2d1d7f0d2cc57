import Concord.KeyNetwork
import Concord.PacketRoundTrip

/-!
# One client and the server

The server with the Crypto extension and any targets of the application, one client of it, and
any other senders, over a network that may lose, delay, reorder and repeat datagrams. The
application on the client is any number of goroutines that use the client and the extension in
any way: `ConfigureClient`, `ServerKEx` and `ClientKEx`, and packets of any contents, sent and
received at any time.

`Extend` changes the client while goroutines use it, so every call and every datagram
says whether it finds the extension installed. All orders are there, and with them the one
the source has, in which a goroutine that starts after `ConfigureClient` finds it.
-/

namespace Concord

open Go

/-! ## 1. The applications -/

/-- A call of an application goroutine. The goroutine names a packet by its place among
those it holds, so it can name no other. -/
inductive ApiCall where
  | newPkt (ref dest : GoString)
  | edit (n : Nat) (op : { op : PktOp // op.isEdit = true })
  | unmarshal (n : Nat) (bin : Bytes)
  | read (n : Nat) (r : PktRead)
  | putBack (n : Nat)
  | send (installed : Bool) (n : Nat) (respCh : Option Nat)
  | receive (respCh : Nat)
  | receiveMisc
  | configureClient (n kexResp : Nat)
  | serverKEx (installed : Bool) (n kexResp : Nat)
  | clientKEx (installed : Bool) (clientAddr : GoString) (n respChan : Nat)
  /-- anything the goroutine learns from elsewhere -/
  | oracle

/-- What the call returns. -/
@[reducible] def ApiCall.Res : ApiCall → Type
  | .read _ _ => Bytes
  | .unmarshal _ _ => Option JSONPkt.UnmarshalErr
  | .send _ _ _ | .configureClient _ _ | .serverKEx _ _ _ | .clientKEx _ _ _ _ => Option GoString
  | .oracle => Nat
  | _ => Unit

/-- The code of an application goroutine. -/
abbrev Script := Prog ApiCall ApiCall.Res Unit

/-- The channels that `ServerKEx` makes are not those of the application. -/
def kexChannel (k : Nat) : Nat := 2 * k

def appChannel (c : Nat) : Nat := 2 * c + 1

theorem appChannel_ne (c k : Nat) : appChannel c ≠ kexChannel k := by
  unfold appChannel kexChannel
  omega

namespace Parties

variable {ι : Type} (P : Parties ι) (i : ι)

/-- The client before and after `Extend`. -/
def clientAt (installed : Bool) : UDPClient :=
  if installed then P.client i else UDPClient.new P.svrAddr

/-- The goroutine of a script, with the packets it holds. One that names a packet it does
not hold is over. -/
def perform : Script → List Nat → Routine Unit
  | .ret _, _ => pure ()
  | .op (.newPkt ref dest) k, held => do
    let p ← Routine.newPkt ref dest
    perform (k ()) (held ++ [p])
  | .op (.edit n op) k, held =>
    match held[n]? with
    | none => pure ()
    | some p => do
      Routine.call p op.1
      perform (k ()) held
  | .op (.unmarshal n bin) k, held =>
    match held[n]? with
    | none => pure ()
    | some p => do
      let err ← Routine.unmarshal p bin
      perform (k err) held
  | .op (.read n r) k, held =>
    match held[n]? with
    | none => pure ()
    | some p => do
      let x ← Routine.perform (.read p r)
      perform (k x) held
  | .op (.putBack n) k, held =>
    match held[n]? with
    | none => pure ()
    | some p => do
      Routine.putBack p
      perform (k ()) (held.eraseIdx n)
  | .op (.send installed n respCh) k, held =>
    match held[n]? with
    | none => pure ()
    | some p => do
      let err ← (P.clientAt i installed).send p (respCh.map appChannel)
      perform (k err) held
  | .op (.receive respCh) k, held => do
    let p ← Routine.perform (.receive (appChannel respCh))
    perform (k ()) (held ++ [p])
  | .op .receiveMisc k, held => do
    let p ← Routine.perform .receiveMisc
    perform (k ()) (held ++ [p])
  | .op (.configureClient n kexResp) k, held =>
    match held[n]? with
    | none => pure ()
    | some p => do
      let err ← (P.crypto i).configureClient P.jsonErr (P.clientAt i false) P.svrAddr p
        (kexChannel kexResp)
      perform (k err) (held.eraseIdx n)
  | .op (.serverKEx installed n kexResp) k, held =>
    match held[n]? with
    | none => pure ()
    | some p => do
      let err ← (P.crypto i).serverKEx P.jsonErr (P.clientAt i installed) P.svrAddr p
        (kexChannel kexResp)
      perform (k err) (held.eraseIdx n)
  | .op (.clientKEx installed clientAddr n respChan) k, held =>
    match held[n]? with
    | none => pure ()
    | some p => do
      let err ← (P.crypto i).clientKEx P.jsonErr (P.clientAt i installed) clientAddr p
        (appChannel respChan)
      perform (k err) (held.eraseIdx n)
  | .op .oracle k, held => do
    let x ← Routine.perform .oracle
    perform (k x) held

end Parties

/-- What is started on the client besides `processIncoming` of the installed extension: a
goroutine of the application, or `processIncoming` for a datagram that was read before
`Extend`. -/
inductive Task where
  | app (script : Script)
  | early (data : Bytes)

def Parties.task {ι : Type} (P : Parties ι) (i : ι) : Task → Routine Unit
  | .app script => P.perform i script []
  | .early data => (P.clientAt i false).processIncoming data

/-! ## 2. The network -/

/-- Both endpoints, and the datagrams that were ever sent from one to the other. -/
structure Link where
  server : Sys Op Op.Res Endpoint UDPServer.Env
  client : Sys Op Op.Res Endpoint (UDPClient.Env Task)
  toServer : List Bytes
  toClient : List Bytes

def Link.start : Link := ⟨UDPServer.start, UDPClient.start, [], []⟩

inductive LinkEvent where
  | server (ev : Event Choice UDPServer.Env)
  | client (ev : Event Choice (UDPClient.Env Task))

/-- What a step of the client sends. -/
def Link.written (l : Link) : Event Choice (UDPClient.Env Task) → List Bytes
  | .env .wrote => l.client.state.writing.toList.map Prod.fst
  | _ => []

namespace Parties

variable {ι : Type} (P : Parties ι) (i : ι)

/-- A datagram between the two arrives only if it was sent. The server also gets any others from
anyone else; the address of a sender resolves to itself. -/
def carried (l : Link) : LinkEvent → Bool
  | .server (.env (.datagram data sender)) =>
    if sender = P.addr i then decide (data ∈ l.toServer)
    else decide (P.svr.resolve sender = some sender)
  | .client (.env (.datagram data)) => decide (data ∈ l.toClient)
  | .client (.env (.app (.early data))) => decide (data ∈ l.toClient)
  | _ => true

/-- What a step of the server sends to the client. -/
def distributed (l : Link) : Event Choice UDPServer.Env → List Bytes
  | .act j _ =>
    match l.server.threads[j]? with
    | some (.op (.dist data addr) _) => if addr = P.addr i then [data] else []
    | _ => []
  | .env _ => []

/-- One step; `none` if it cannot be taken. -/
def linkStep (l : Link) (ev : LinkEvent) : Option Link :=
  if P.carried i l ev then
    match ev with
    | .server e =>
      (P.server.machine.step l.server e).result?.map fun s =>
        { l with server := s, toClient := l.toClient ++ P.distributed i l e }
    | .client e =>
      (((P.client i).machine (P.task i)).step l.client e).result?.map fun s =>
        { l with client := s, toServer := l.toServer ++ l.written e }
  else none

/-- The second state comes after the first, by steps that meet a condition. -/
inductive Later (ok : Link → LinkEvent → Prop) : Link → Link → Prop
  | refl (l : Link) : Later ok l l
  | step {l l₁ l₂ : Link} {ev : LinkEvent} : Later ok l l₁ → ok l₁ ev →
      P.linkStep i l₁ ev = some l₂ → Later ok l l₂

end Parties

/-! ## 3. What is asked of a run -/

/-- The bytes are those of a packet, or no JSON. -/
def Legible (bin : Bytes) : Prop :=
  Json.parse bin = none ∨ ∃ v : PktView, v.Committed ∧ bin = v.marshal

/-- The ref of a new packet that has decoded the bytes. -/
def refIn (bin : Bytes) : GoString := (JSONPkt.new.unmarshal bin).1.metaGet keyRef

/-- The ref is one of those kept for exchanges with the server, as JSON writes it. The empty
string is no ref. -/
def keptRef (kept : GoString → Bool) (ref : GoString) : Bool :=
  decide (ref ≠ []) && kept (Utf8.toValid ref)

/-- The call puts none of those refs on the packet, and decodes what is legible only. -/
def PktOp.Keeps (kept : GoString → Bool) : PktOp → Prop
  | .metaAdd key val => key = keyRef → keptRef kept val = false
  | .unmarshal bin => Legible bin ∧ keptRef kept (refIn bin) = false
  | _ => True

/-- What a callback of the server's application does: it reads and edits the request and the
response. -/
def Op.keepsRefs (kept : GoString → Bool) (pkt pw : Nat) : Op → Prop
  | .call p op => (p = pkt ∨ p = pw) ∧ op.Keeps kept
  | .read p _ => p = pkt ∨ p = pw
  | .oracle => True
  | _ => False

/-- It may set any field of the context but the packet. -/
def KeepsRefs (kept : GoString → Bool) (cb : TargetCallback) : Prop :=
  ∃ f : TargetCtx → Nat → Routine TargetCtx,
    (∀ ctx pw, (f ctx pw).AllOps fun e => e.keepsRefs kept ctx.pkt pw) ∧
    cb = fun ctx pw => f ctx pw >>= fun r => pure { r with pkt := ctx.pkt }

/-- The server's targets are those of `NewUDPServer` and of such an application. -/
def UDPServer.Courteous (svr : UDPServer) (kept : GoString → Bool) : Prop :=
  ∀ name cbs, svr.queues name = some cbs → ∀ cb ∈ cbs, cb = relayCallback ∨ KeepsRefs kept cb

/-- The packet that a step of the client encodes. -/
def Link.encoded (l : Link) : LinkEvent → Option JSONPkt
  | .client (.act j _) =>
    match l.client.threads[j]? with
    | some (.op (.read p .marshal) _) => l.client.state.pkts.mem[p]?
    | _ => none
  | _ => none

/-- A call of the application that decodes, if anything, what is legible. -/
def ApiCall.decodesLegible : ApiCall → Prop
  | .unmarshal _ bin => Legible bin
  | _ => True

/-- What the server may find in a datagram of another sender. -/
def Parties.Strange {ι : Type} (P : Parties ι) (i : ι) (ev : LinkEvent) (bin : Bytes) : Prop :=
  ∃ data sender, ev = .server (.env (.datagram data sender)) ∧ sender ≠ P.addr i ∧
    (bin = data ∨ ∃ k, P.aead.openText k data = some bin)

/-- What is asked of a run, where some refs are kept for the exchanges with the server. -/
inductive Proviso where
  /-- the client's requests for these exchanges carry the public key of the extension -/
  | ownKey
  /-- and have one of the refs, if they have any -/
  | ownRef
  /-- no other packet of the client has one of them -/
  | otherRef
  /-- no packet of the client asks for the key of a client with the server's address -/
  | otherAddr
  /-- what the application on the client decodes is packets -/
  | ownBytes
  /-- the callbacks of the server's application give no packet such a ref -/
  | callbacks
  /-- what the other senders send is packets -/
  | strangeBytes
  /-- and none of these has such a ref -/
  | strangeRef
  deriving DecidableEq

/-- The provisos on a packet that the client encodes. -/
def JSONPkt.meets (c : JSONPkt) (cr : Crypto) (svrAddr : Addr) (kept : GoString → Bool) :
    Proviso → Bool
  | .ownKey => decide (c.metaGet keyTarget = Crypto.targetKeyExchangeServer →
      (Base64.decode c.wireData).bind pubKeyOf = some (PublicKey.ofNat (cr.curve.pub cr.privKey)))
  | .ownRef => decide (c.metaGet keyTarget = Crypto.targetKeyExchangeServer →
      c.metaGet keyRef = [] ∨ keptRef kept (c.metaGet keyRef) = true)
  | .otherRef => decide (c.metaGet keyTarget ≠ Crypto.targetKeyExchangeServer →
      keptRef kept (c.metaGet keyRef) = false)
  | .otherAddr => decide (c.metaGet keyTarget = Crypto.targetKeyExchangeClient →
      c.wireData ≠ Base64.encode (ipText svrAddr))
  | _ => true

namespace Parties

variable {ι : Type} (P : Parties ι) (i : ι) (kept : GoString → Bool)

def Meets (l : Link) (ev : LinkEvent) : Proviso → Prop
  | .callbacks => P.svr.Courteous kept
  | .ownBytes => ∀ script : Script, ev = .client (.env (.app (.app script))) →
      script.AllOps ApiCall.decodesLegible
  | .strangeBytes => ∀ bin, P.Strange i ev bin → Legible bin
  | .strangeRef => ∀ bin, P.Strange i ev bin → keptRef kept (refIn bin) = false
  | p => ∀ c ∈ l.encoded ev, c.meets (P.crypto i) P.svrAddr kept p = true

end Parties

end Concord
