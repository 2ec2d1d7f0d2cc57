import Concord.LinkClient
import Concord.ServiceRefinement

/-!
# Remote calls

A service and any number of its clients, over a network that may lose, delay, reorder and repeat
datagrams. The applications on the clients are any number of goroutines that make, edit, send and
receive packets in any way. To a client a call is a packet it sends with a response channel; the
only tie between the packet and what comes back is the ref.

The targets of the service may do as they like, but for the ref of the response
(`Service.Courteous`). What a packet on a response channel can be is `Deployment.Response`.
-/

namespace Concord

open Go

/-! ## 1. The applications -/

/-- A call of an application goroutine. As in `ApiCall`, a packet is named by its place among
those the goroutine holds. -/
inductive ClientCall where
  | newPkt (ref dest : GoString)
  | edit (n : Nat) (op : { op : PktOp // op.isEdit = true })
  | read (n : Nat) (r : PktRead)
  | putBack (n : Nat)
  | send (n : Nat) (respCh : Option Nat)
  | receive (respCh : Nat)
  | receiveMisc
  /-- anything the goroutine learns from elsewhere -/
  | oracle

@[reducible] def ClientCall.Res : ClientCall → Type
  | .read _ _ => Bytes
  | .send _ _ => Option GoString
  | .oracle => Nat
  | _ => Unit

/-- The code of an application goroutine. -/
abbrev ClientScript := Prog ClientCall ClientCall.Res Unit

namespace UDPClient

/-- The goroutine of a script, with the packets it holds. -/
def perform (c : UDPClient) : ClientScript → List Nat → Routine Unit
  | .ret _, _ => pure ()
  | .op (.newPkt ref dest) k, held => do
    let p ← Routine.newPkt ref dest
    c.perform (k ()) (held ++ [p])
  | .op (.edit n op) k, held =>
    match held[n]? with
    | none => pure ()
    | some p => do
      Routine.call p op.1
      c.perform (k ()) held
  | .op (.read n r) k, held =>
    match held[n]? with
    | none => pure ()
    | some p => do
      let x ← Routine.perform (.read p r)
      c.perform (k x) held
  | .op (.putBack n) k, held =>
    match held[n]? with
    | none => pure ()
    | some p => do
      Routine.putBack p
      c.perform (k ()) (held.eraseIdx n)
  | .op (.send n respCh) k, held =>
    match held[n]? with
    | none => pure ()
    | some p => do
      let err ← c.send p respCh
      c.perform (k err) held
  | .op (.receive respCh) k, held => do
    let p ← Routine.perform (.receive respCh)
    c.perform (k ()) (held ++ [p])
  | .op .receiveMisc k, held => do
    let p ← Routine.perform .receiveMisc
    c.perform (k ()) (held ++ [p])
  | .op .oracle k, held => do
    let x ← Routine.perform .oracle
    c.perform (k x) held

end UDPClient

/-! ## 2. The calls of a client -/

/-- The ref in the bytes of a packet, as its receiver reads it. -/
def callRef (data : Bytes) : GoString := JSONPkt.index (encodedMeta data) keyRef

theorem index_marshal (v : PktView) {key : GoString} (hkey : ∀ b ∈ key, b < 0x80) :
    JSONPkt.index (encodedMeta v.marshal) key = Utf8.toValid (v.metaGet key) := by
  have hmeta : encodedMeta v.marshal = some (coerceMeta v.kv) := by
    have hm : (ascii "m" == ascii "m") = true := by decide
    rw [encodedMeta, JSONPkt.parse_view]
    simp only [JSONPkt.viewDoc, List.lookup_cons, hm]
    exact congrArg some (JSONPkt.storeEntries_toValid v.kv.entries GoMap.empty)
  rw [hmeta, JSONPkt.index, Option.bind_some, JSONPkt.get?_coerceMeta_ascii _ hkey, PktView.metaGet]
  cases v.kv.get? key with
  | none => rfl
  | some val => rfl

theorem callRef_marshal (v : PktView) : callRef v.marshal = Utf8.toValid (v.metaGet keyRef) :=
  index_marshal v keyRef_ascii

theorem keyRelayFrom_ascii : ∀ b ∈ keyRelayFrom, b < 0x80 := by decide +kernel

/-- The target in the bytes of a packet, as its receiver reads it. -/
def callTarget (data : Bytes) : GoString := JSONPkt.index (encodedMeta data) keyTarget

/-- The address `svr.relay` reads in the bytes of a packet. -/
def relayDest (data : Bytes) : GoString := JSONPkt.index (encodedMeta data) keyRelayTo

theorem keyRelayTo_ascii : ∀ b ∈ keyRelayTo, b < 0x80 := by decide +kernel

theorem callTarget_decodedView (u : PktView) (body : Bytes) (dest : GoString) :
    (decodedView u body dest).metaGet keyTarget = callTarget u.marshal := by
  rw [metaGet_decodedView u body dest keyTarget_ascii, callTarget, index_marshal u keyTarget_ascii]

theorem relayDest_decodedView (u : PktView) (body : Bytes) (dest : GoString) :
    (decodedView u body dest).metaGet keyRelayTo = relayDest u.marshal := by
  rw [metaGet_decodedView u body dest keyRelayTo_ascii, relayDest, index_marshal u keyRelayTo_ascii]

/-- The bytes and the response channel an entry of a client's log hands to the write routine. -/
def UDPClient.calls {α : Type} : Entry Op Op.Res (UDPClient.Env α) → Option (Bytes × Option Nat)
  | .act _ (.writeStream data respCh) _ => some (data, respCh)
  | _ => none

/-- What the client has sent, and where the response is awaited. -/
def UDPClient.called {α : Type} (log : List (Entry Op Op.Res (UDPClient.Env α))) :
    List (Bytes × Option Nat) :=
  log.filterMap UDPClient.calls

/-- The channel on which an entry offers a packet. -/
def UDPClient.offerOf {α : Type} : Entry Op Op.Res (UDPClient.Env α) → Option Nat
  | .act _ (.deliver ch _) _ => some ch
  | _ => none

/-- The channels on which the client has offered packets, one for each packet. -/
def UDPClient.offered {α : Type} (log : List (Entry Op Op.Res (UDPClient.Env α))) : List Nat :=
  log.filterMap UDPClient.offerOf

def UDPClient.incomingOf {α : Type} : Entry Op Op.Res (UDPClient.Env α) → Option Bytes
  | .env (.datagram data) => some data
  | _ => none

/-- The datagrams the client was handed. -/
def UDPClient.incoming {α : Type} (log : List (Entry Op Op.Res (UDPClient.Env α))) : List Bytes :=
  log.filterMap UDPClient.incomingOf

/-- Calls with one ref are the same packet, sent again for the same channel. -/
def OneCallPerRef (made : Bytes × Option Nat → Prop) : Prop :=
  ∀ x y, made x → made y → callRef x.1 = callRef y.1 → x = y

/-! ## 3. Targets that leave the ref alone -/

/-- The call leaves the ref of the response alone. -/
def HandlerCall.keepsRef : HandlerCall → Prop
  | .compose op => op.1 ≠ .metaClear ∧ ∀ val, op.1 ≠ .metaAdd keyRef val
  | _ => True

/-- The callback leaves the ref of the response alone, and of its context it sets the status and
the message. -/
def Handler.Courteous (h : Handler) : Prop :=
  ∃ f : HandlerCtx → Prog HandlerCall HandlerCall.Res (Int × GoString),
    (∀ ctx, (f ctx).AllOps HandlerCall.keepsRef) ∧
    h = fun ctx => f ctx >>= fun r => pure { ctx with stat := r.1, msg := r.2 }

def Service.Courteous (svc : Service) : Prop := ∀ t ∈ svc.targets, t.2.Courteous

/-! ## 4. The network -/

/-- A service at an address, and its clients at theirs. Addresses resolve to themselves. -/
structure Deployment (ι : Type) where
  svc : Service
  svrAddr : Addr
  addr : ι → Addr
  svrAddr_ne : svrAddr ≠ []
  addr_ne : ∀ i, addr i ≠ []
  addr_inj : ∀ {i j}, addr i = addr j → i = j
  addr_ne_svr : ∀ i, addr i ≠ svrAddr
  resolve_svr : svc.resolve svrAddr = some svrAddr
  resolve_addr : ∀ i, svc.resolve (addr i) = some (addr i)

/-- All endpoints, and every datagram that was ever sent. -/
structure CallNet (ι : Type) where
  server : Sys Op Op.Res Endpoint UDPServer.Env
  client : ι → Sys Op Op.Res Endpoint (UDPClient.Env ClientScript)
  wire : List Datagram

inductive CallEvent (ι : Type) where
  | server (ev : Event Choice UDPServer.Env)
  | client (i : ι) (ev : Event Choice (UDPClient.Env ClientScript))

def CallNet.start {ι : Type} : CallNet ι := ⟨UDPServer.start, fun _ => UDPClient.start, []⟩

namespace Deployment

variable {ι : Type} (D : Deployment ι)

def client : UDPClient := UDPClient.new D.svrAddr

/-- The clients all run the same code. -/
def clientMachine : Machine Op Op.Res Endpoint Choice (UDPClient.Env ClientScript) :=
  D.client.machine fun script => D.client.perform script []

/-- A datagram arrives only if it was sent, from the address it is taken to be from. -/
def arrives (n : CallNet ι) : CallEvent ι → Bool
  | .server (.env (.datagram data sender)) => decide (⟨sender, D.svrAddr, data⟩ ∈ n.wire)
  | .client i (.env (.datagram data)) => n.wire.any fun d => d.dst = D.addr i && d.data = data
  | _ => true

/-- What the step sends. -/
def sends (n : CallNet ι) : CallEvent ι → List Datagram
  | .server (.act j _) =>
    match n.server.threads[j]? with
    | some (.op (.dist data addr) _) => [⟨D.svrAddr, addr, data⟩]
    | _ => []
  | .client i (.env .wrote) =>
    match (n.client i).state.writing with
    | some w => [⟨D.addr i, D.svrAddr, w.1⟩]
    | none => []
  | _ => []

variable [DecidableEq ι]

/-- One step of the network; `none` if it cannot be taken. -/
def step (n : CallNet ι) (ev : CallEvent ι) : Option (CallNet ι) :=
  if D.arrives n ev then
    match ev with
    | .server e =>
      (D.svc.server.machine.step n.server e).result?.map fun s =>
        { n with server := s, wire := n.wire ++ D.sends n ev }
    | .client i e =>
      (D.clientMachine.step (n.client i) e).result?.map fun s =>
        { n with client := Function.update n.client i s, wire := n.wire ++ D.sends n ev }
  else none

def run (n : CallNet ι) : List (CallEvent ι) → Option (CallNet ι)
  | [] => some n
  | ev :: evs => (D.step n ev).bind fun n' => run n' evs

end Deployment

/-! ## 5. Responses -/

/-- What a packet on a response channel of client `i` can be, where `made` are the calls it has
made: the client's own note that the write failed, a packet that another client had relayed, or
what the service answers to a call that was made on that channel. -/
inductive Deployment.Response {ι : Type} (D : Deployment ι) (i : ι)
    (made : Bytes × Option Nat → Prop) (ch : Nat) : PktView → Prop
  | writeError (err : GoString) (stale : Bytes) : D.Response i made ch
      (Service.errorView [] [] (ascii "packet write error: " ++ err) stale)
  | relayed {v : PktView} : v.metaGet keyRelayFrom ≠ [] → D.Response i made ch v
  | answer {data body : Bytes} {w : PktView} (dest : GoString) : made (data, some ch) →
      D.svc.Handles (data, D.addr i) (some w) → w.wire = Base64.encode body →
      D.Response i made ch (decodedView w body dest)

end Concord
