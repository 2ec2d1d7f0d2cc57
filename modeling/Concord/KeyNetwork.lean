import Concord.KeyExchange
import Concord.ViewLogic

/-!
# Key exchanges over a network

A server with the Crypto extension and any number of clients, each with one private key
at one address, over a network that may lose, delay, reorder and repeat datagrams. The
clients perform `ServerKEx` and `ClientKEx`, in any order and any number at a time.

The endpoints are the machines of `UDPServer` and `UDPClient`, with all interleavings
of their goroutines. A datagram that was sent once can arrive any number of times.
-/

namespace Concord

open Go

/-! ## 1. The parties -/

/-- What a client asks the server for: the server's key, or that of another client. -/
inductive Exchange where
  | server
  | client (addr : GoString)
  deriving DecidableEq

/-- The target of the request. -/
def Exchange.target : Exchange → GoString
  | .server => Crypto.targetKeyExchangeServer
  | .client _ => Crypto.targetKeyExchangeClient

theorem kexTargets_ne : Crypto.targetKeyExchangeServer ≠ Crypto.targetKeyExchangeClient := by decide

/-- Its body. -/
def Exchange.body (cr : Crypto) : Exchange → Bytes
  | .server => cr.publicKey
  | .client addr => ipText addr

/-- The address its key is stored under. -/
def Exchange.peer (svrAddr : Addr) : Exchange → GoString
  | .server => svrAddr
  | .client addr => addr

/-- The server, the clients `ι` and what each of them does: the `k`-th exchange of
client `i` is `exchange i k`, with a packet made for `ref i k` and `dest i k`. -/
structure Parties (ι : Type) where
  aead : AEAD
  curve : Curve
  /-- what `json.Unmarshal` says about a body it does not accept -/
  jsonErr : Bytes → GoString
  svr : UDPServer
  svrKey : curve.Priv
  svrAddr : Addr
  privKey : ι → curve.Priv
  addr : ι → Addr
  exchange : ι → Nat → Exchange
  ref : ι → Nat → GoString
  dest : ι → Nat → GoString
  addr_inj : ∀ {i j}, addr i = addr j → i = j
  addr_ne_svr : ∀ i, addr i ≠ svrAddr
  /-- addresses need no escaping, and resolve to themselves -/
  addr_plain : ∀ i, (addr i).all isPlain = true
  svrAddr_plain : svrAddr.all isPlain = true
  resolve_addr : ∀ i, svr.resolve (addr i) = some (addr i)
  /-- nothing but the Crypto extension is in the server's way -/
  data_in : svr.data pipelineIn = []
  data_out : svr.data pipelineOut = []
  no_kexServer : svr.queues Crypto.targetKeyExchangeServer = none
  no_kexClient : svr.queues Crypto.targetKeyExchangeClient = none

namespace Parties

variable {ι : Type} (P : Parties ι)

def svrCrypto : Crypto := ⟨P.aead, P.curve, P.svrKey⟩

def crypto (i : ι) : Crypto := ⟨P.aead, P.curve, P.privKey i⟩

def server : UDPServer := P.svrCrypto.extendServer P.svr

def client (i : ι) : UDPClient := (P.crypto i).extendClient (UDPClient.new P.svrAddr)

def svrPub : PublicKey := PublicKey.ofNat (P.curve.pub P.svrKey)

def pub (i : ι) : PublicKey := PublicKey.ofNat (P.curve.pub (P.privKey i))

/-- The goroutine of the `k`-th exchange of client `i`. -/
def kex (i : ι) (k : Nat) : Routine Unit := do
  let pkt ← Routine.newPkt (P.ref i k) (P.dest i k)
  match P.exchange i k with
  | .server =>
    let _ ← (P.crypto i).serverKEx P.jsonErr (P.client i) P.svrAddr pkt k
  | .client addr =>
    let _ ← (P.crypto i).clientKEx P.jsonErr (P.client i) addr pkt k

/-! ### The network -/

end Parties

structure Datagram where
  src : Addr
  dst : Addr
  data : Bytes
  deriving DecidableEq

/-- All endpoints, and every datagram that was ever sent. -/
structure Net (ι : Type) where
  server : Sys Op Op.Res Endpoint UDPServer.Env
  client : ι → Sys Op Op.Res Endpoint (UDPClient.Env Nat)
  wire : List Datagram

/-- A step of the server or of a client. -/
inductive NetEvent (ι : Type) where
  | server (ev : Event Choice UDPServer.Env)
  | client (i : ι) (ev : Event Choice (UDPClient.Env Nat))

def Net.start {ι : Type} : Net ι := ⟨UDPServer.start, fun _ => UDPClient.start, []⟩

namespace Parties

variable {ι : Type} (P : Parties ι)

/-- A datagram arrives only if it was sent, from the address it is taken to be from. -/
def arrives (n : Net ι) : NetEvent ι → Bool
  | .server (.env (.datagram data sender)) => decide (⟨sender, P.svrAddr, data⟩ ∈ n.wire)
  | .client i (.env (.datagram data)) => n.wire.any fun d => d.dst = P.addr i && d.data = data
  | _ => true

/-- What the step sends. -/
def sends (n : Net ι) : NetEvent ι → List Datagram
  | .server (.act i _) =>
    match n.server.threads[i]? with
    | some (.op (.dist data addr) _) => [⟨P.svrAddr, addr, data⟩]
    | _ => []
  | .client i (.env .wrote) =>
    match (n.client i).state.writing with
    | some w => [⟨P.addr i, P.svrAddr, w.1⟩]
    | none => []
  | _ => []

variable [DecidableEq ι]

/-- One step of the network; `none` if it cannot be taken. -/
def step (n : Net ι) (ev : NetEvent ι) : Option (Net ι) :=
  if P.arrives n ev then
    match ev with
    | .server e =>
      (P.server.machine.step n.server e).result?.map fun s =>
        { n with server := s, wire := n.wire ++ P.sends n ev }
    | .client i e =>
      (((P.client i).machine (P.kex i)).step (n.client i) e).result?.map fun s =>
        { n with client := Function.update n.client i s, wire := n.wire ++ P.sends n ev }
  else none

/-! ### The assumptions on a step -/

end Parties

/-- The packet object the step takes from the pool is clean. -/
def cleanStep {ε : Type} (s : Sys Op Op.Res Endpoint ε) : Event Choice ε → Bool
  | .act i c =>
    match s.threads[i]? with
    | some (.op .poolGet _) => (s.state.pkts.pick c.pick).all JSONPkt.clean
    | _ => true
  | .env _ => true

/-- The packet carries the request of the exchange. -/
def JSONPkt.carries (c : JSONPkt) (cr : Crypto) (e : Exchange) : Bool :=
  decide (c.metaGet keyTarget = e.target) && decide (c.data = e.body cr)

/-- A ref that the step puts on a packet with a target belongs to the exchange the
packet is for. -/
def refStep {ε : Type} (cr : Crypto) (owner : GoString → Exchange) (s : Sys Op Op.Res Endpoint ε) :
    Event Choice ε → Bool
  | .act i _ =>
    match s.threads[i]? with
    | some (.op (.call p (.metaAdd key ref)) _) =>
      decide (key ≠ keyRef) || (s.state.pkts.mem[p]?).all fun c =>
        decide (c.metaGet keyTarget = []) || c.carries cr (owner ref)
    | _ => true
  | .env _ => true

/-- What is assumed of the steps: the creators' packets are clean, and a ref, looked at in
the given form, is used for one exchange only, its owner. -/
def Parties.allowed {ι : Type} (P : Parties ι) (form : GoString → GoString)
    (owner : ι → GoString → Exchange) (n : Net ι) : NetEvent ι → Bool
  | .server ev => cleanStep n.server ev
  | .client i ev =>
    cleanStep (n.client i) ev && refStep (P.crypto i) (fun ref => owner i (form ref)) (n.client i) ev

/-- The refs the clients' packets are made with have their exchange as owner. -/
def Parties.RefsOwned {ι : Type} (P : Parties ι) (form : GoString → GoString)
    (owner : ι → GoString → Exchange) : Prop :=
  ∀ i k, P.ref i k ≠ [] → owner i (form (P.ref i k)) = P.exchange i k

/-- Refs that are pairwise distinct in the given form have owners. -/
theorem Parties.exists_refsOwned {ι : Type} {P : Parties ι} {form : GoString → GoString}
    (hdistinct : ∀ i k l, form (P.ref i k) = form (P.ref i l) → k = l) :
    ∃ owner, P.RefsOwned form owner := by
  classical
  refine ⟨fun i r => if h : ∃ k, form (P.ref i k) = r then P.exchange i h.choose else .server, ?_⟩
  intro i k _
  have h : ∃ l, form (P.ref i l) = form (P.ref i k) := ⟨k, rfl⟩
  exact (dif_pos h).trans (congrArg (P.exchange i) (hdistinct i _ _ h.choose_spec))

/-- The reachable states of the network. -/
inductive Reach {ι : Type} [DecidableEq ι] (P : Parties ι) (form : GoString → GoString)
    (owner : ι → GoString → Exchange) : Net ι → Prop
  | start : Reach P form owner Net.start
  | step {n n' : Net ι} {ev : NetEvent ι} : Reach P form owner n →
      P.allowed form owner n ev = true → P.step n ev = some n' → Reach P form owner n'

/-- A run of the network, as long as its steps are allowed. A step may depend on what was
sent. -/
def Parties.run {ι : Type} [DecidableEq ι] (P : Parties ι) (form : GoString → GoString)
    (owner : ι → GoString → Exchange) (n : Net ι) : List (Net ι → NetEvent ι) → Option (Net ι)
  | [] => some n
  | ev :: evs =>
    if P.allowed form owner n (ev n) then
      (P.step n (ev n)).bind fun n' => P.run form owner n' evs
    else none

theorem Reach.run {ι : Type} [DecidableEq ι] {P : Parties ι} {form : GoString → GoString}
    {owner : ι → GoString → Exchange} {n n' : Net ι} {evs : List (Net ι → NetEvent ι)}
    (hn : Reach P form owner n) (h : P.run form owner n evs = some n') : Reach P form owner n' := by
  induction evs generalizing n with
  | nil =>
    cases h
    exact hn
  | cons ev evs ih =>
    unfold Parties.run at h
    split at h
    · next ha =>
      obtain ⟨n₁, hs, h⟩ := Option.bind_eq_some_iff.mp h
      exact ih (hn.step ha hs) h
    · cases h

end Concord
