import Concord.Decryption
import Concord.KeyAgreement
import Concord.LinkInvariant
import Concord.Relay

/-!
# The transport, there and back

What either of a client and the server hands to its `_out_` pipeline after `ConfigureClient`
has returned, and the other one's `_in_` pipeline makes of it.

`sealed_of_out`: the `_out_` pipeline leaves the encoding of the packet alone, or seals it
under the key it has looked up for the destination. `takesIn_plain` and `takesIn_sealed`: the `_in_`
pipeline returns what it is given if that is the encoding of a packet, and opens what is
sealed under the key it has for the sender. The keys are the same by the invariant of
`LinkInvariant`, so `transport_round_trip`: the receiver gets the sender's bytes.

`Proviso.needed`: each of the provisos on the run has a run that meets all the others, in which a
packet of the client does not arrive. In all but two of them the client stores as the server's key
what came under the ref of an exchange; in those of `ownKey` and `strangeBytes` the server stores
a key for the client that is not the client's.
-/

namespace Concord

open Go

/-! ## 1. The pipelines -/

section In

variable {cr : Crypto} {pipelines : GoString → List BufferTransform}
  (hin : pipelines pipelineIn = [cr.decryptTransport]) {sender : GoString} {s : Endpoint}
include hin

end In

section Out

variable {cr : Crypto} {pkt : Nat} {bin data : Bytes} {out : List Step}

end Out

/-! ## 2. After `ConfigureClient` -/

namespace Parties

variable {ι : Type} {P : Parties ι} {i : ι} {kept : GoString → Bool}

section Logs

variable {ok : Link → LinkEvent → Prop} {l₁ l₂ : Link} {j : Nat} {e : Op} {r : e.Res}

end Logs

section RoundTrip

variable {l l₂ l₃ : Link}

end RoundTrip

end Parties

namespace Parties

variable {ι : Type} (P : Parties ι) (i : ι)

/-- The steps in order, each of which may depend on what was sent; `none` if one cannot be taken or
does not meet the condition. -/
def linkRun (ok : Link → LinkEvent → Bool) : Link → List (Link → LinkEvent) → Option Link
  | l, [] => some l
  | l, ev :: evs =>
    if ok l (ev l) then (P.linkStep i l (ev l)).bind fun l' => linkRun ok l' evs else none

variable {P i}

theorem later_of_linkRun {ok : Link → LinkEvent → Prop} {check : Link → LinkEvent → Bool}
    (hok : ∀ l ev, check l ev = true → ok l ev) {l l' : Link} {evs : List (Link → LinkEvent)}
    (h : P.linkRun i check l evs = some l') : P.Later i ok l l' := by
  induction evs generalizing l with
  | nil =>
    cases h
    exact .refl _
  | cons ev evs ih =>
    rw [linkRun] at h
    split at h
    · next hcheck =>
      obtain ⟨l₁, hstep, h⟩ := Option.bind_eq_some_iff.mp h
      exact ((Later.refl l).step (hok _ _ hcheck) hstep).trans (ih h)
    · cases h

end Parties

/-- A new packet that decodes the bytes is encoded as they are. -/
def wellFormed (bin : Bytes) : Bool :=
  (JSONPkt.new.unmarshal bin).2.isNone && (JSONPkt.new.unmarshal bin).1.kvMeta.isSome &&
    decide ((JSONPkt.new.unmarshal bin).1.wireData =
      Base64.encode (JSONPkt.new.unmarshal bin).1.buff) &&
    decide ((JSONPkt.new.unmarshal bin).1.marshal = bin)

/-- The provisos on the packets of the client. -/
def Proviso.onPackets : List Proviso := [.ownKey, .ownRef, .otherRef, .otherAddr]

namespace Parties

variable {ι : Type} {P : Parties ι} {i : ι} {kept : GoString → Bool} {l : Link}

/-- No goroutine of the application starts, and what another sender sends meets the provisos to
check. -/
def admitsEvent (P : Parties ι) (i : ι) (kept : GoString → Bool) (check : Proviso → Bool) :
    LinkEvent → Bool
  | .client (.env (.app (.app _))) => false
  | .server (.env (.datagram data sender)) => decide (sender = P.addr i) ||
      ((Json.parse data).isSome && (!check .strangeBytes || wellFormed data) &&
        (!check .strangeRef || !keptRef kept (refIn data)))
  | _ => true

/-- The step meets the provisos to check, up to the one on the callbacks. -/
def admits (P : Parties ι) (i : ι) (kept : GoString → Bool) (check : Proviso → Bool) (l : Link)
    (ev : LinkEvent) : Bool :=
  ((l.encoded ev).all fun c =>
    Proviso.onPackets.all fun p => !check p || c.meets (P.crypto i) P.svrAddr kept p) &&
  P.admitsEvent i kept check ev

end Parties

/-- Reads a hand-over off the operations of a goroutine: the call of `Marshal` is at `m`, and the
pipeline takes the next `n`. -/
def handed (pipelines : GoString → List BufferTransform) (steps : List Step) (m n : Nat) :
    Option (Nat × Bytes × Bytes) :=
  match steps[m]? with
  | some ⟨.read pkt .marshal, bin⟩ =>
    match ((processData pipelines { pkt := some pkt, pipelineName := pipelineOut } bin).follow
        ((steps.drop (m + 1)).take n)).bind Prog.returned with
    | some (_, data, none) => some (pkt, bin, data)
    | _ => none
  | _ => none

/-- The goroutine's destinations are all this one. -/
def onlyTo (dest : GoString) (steps : List Step) : Bool :=
  steps.all fun
    | ⟨.read _ .dest, d⟩ => decide (d = dest)
    | _ => true

namespace Solo

/-- A target of the server's application that answers with a key, under a ref of its own. -/
def targetBadge : GoString := ascii "app.badge"

def badge : TargetCallback := fun ctx pw => do
  Routine.call pw (.metaAdd keyRef (ascii "r9"))
  Routine.call pw (.write (pubKeyText 7 7))
  return { ctx with stat := codeStopCloseSend }

def linked : Parties Unit :=
  { solo fun _ => ascii "r0" with
    svr := { UDPServer.new some with
      queues := addCallback (UDPServer.new some).queues targetBadge badge }
    resolve_addr := fun _ => rfl
    data_in := rfl
    data_out := rfl
    no_kexServer := rfl
    no_kexClient := rfl }

-- a packet is a new one unless the choice is in the pool, and every nonce is zero
def svrPicks (pick tid n : Nat) : List (Link → LinkEvent) :=
  List.replicate n fun _ => .server (.act tid ⟨pick, some KeyRuns.zeros⟩)

def svrDoes (tid n : Nat) : List (Link → LinkEvent) := svrPicks 100 tid n

def cliDoes (tid n : Nat) : List (Link → LinkEvent) :=
  List.replicate n fun _ => .client (.act tid ⟨100, some KeyRuns.zeros⟩)

def wrote (_ : Link) : LinkEvent := .client (.env .wrote)

def sendPkts (_ : Link) : LinkEvent := .server (.env .sendPkts)

/-- The last datagram of the client arrives. -/
def toSvr (l : Link) : LinkEvent :=
  .server (.env (.datagram (l.toServer.getLastD []) (linked.addr ())))

/-- The last datagram for the client arrives, before and after `Extend`. -/
def toEarlyCli (l : Link) : LinkEvent := .client (.env (.app (.early (l.toClient.getLastD []))))

def toCli (l : Link) : LinkEvent := .client (.env (.datagram (l.toClient.getLastD [])))

/-- A datagram of another sender. -/
def strange (data : Bytes) (_ : Link) : LinkEvent :=
  .server (.env (.datagram data (ascii "10.0.0.3:1")))

/-- The application configures the client with a packet `r0`, and goes on. -/
def session (rest : Script) : Script :=
  .op (.newPkt (ascii "r0") linked.svrAddr) fun _ => .op (.configureClient 0 0) fun _ => rest

/-- The goroutine starts. -/
def starts (script : Script) : Option Link :=
  linked.linkStep () Link.start (.client (.env (.app (.app script))))

/-- `ConfigureClient`: the request, the response and its arrival. -/
def configures : List (Link → LinkEvent) :=
  cliDoes 0 13 ++ [wrote, toSvr] ++ svrDoes 0 21 ++ sendPkts :: svrDoes 1 5 ++
    toEarlyCli :: cliDoes 1 10 ++ cliDoes 0 3

/-- A packet `r1` for the server. -/
def note (n : Nat) : Script :=
  .op (.newPkt (ascii "r1") linked.svrAddr) fun _ => .op (.send true n none) fun _ => .ret ()

/-- The operations of `ConfigureClient` in the log of the goroutine. -/
def configured (l : Link) : List Step := ((own 0 l.client.log).drop 5).take 11

/-- What the application's goroutine has done since. -/
def since (l₁ l₂ : Link) : List Step := own 0 (l₂.client.log.drop l₁.client.log.length)

/-- `ConfigureClient` has returned in `l₁`, and the last packet that the goroutine has sent in `l₂`
went out sealed. -/
def exchanged (l₁ l₂ : Link) : Option (Nat × Bytes × Bytes) :=
  if (((linked.crypto ()).configureClient linked.jsonErr (linked.clientAt () false) linked.svrAddr 0
        (kexChannel 0)).follow (configured l₁)).bind Prog.returned = some none ∧
      onlyTo linked.svrAddr (since l₁ l₂) = true then
    (handed (linked.client ()).data (since l₁ l₂) ((since l₁ l₂).length - 8) 5).filter
      fun r => r.2.1 ≠ r.2.2
  else none

def adds (key val : GoString) : { op : PktOp // op.isEdit = true } := ⟨.metaAdd key val, rfl⟩

/-- Edits of the first packet that the goroutine holds. -/
def edits : List { op : PktOp // op.isEdit = true } → Script → Script
  | [], rest => rest
  | op :: ops, rest => .op (.edit 0 op) fun _ => edits ops rest

/-- The first packet is sent, and keys are exchanged with the server once more. -/
def sendsAndExchanges (ref : GoString) : Script :=
  .op (.send true 0 none) fun _ => .op (.newPkt ref linked.svrAddr) fun _ =>
  .op (.serverKEx true 1 1) fun _ => note 1

/-- Metadata that one map of the packet has and the other one has not, since the data is no string:
the packet is torn. -/
def torn (kv : String) : Bytes :=
  ascii "\x7b\"m\":null,\"m\":\x7b" ++ ascii kv ++ ascii "\x7d,\"d\":5\x7d"

/-- What the application does where a proviso is not met. -/
def misuse : Proviso → Script
  | .ownKey =>
    .op (.newPkt (ascii "r2") linked.svrAddr) fun _ =>
    edits [adds keyTarget Crypto.targetKeyExchangeServer, ⟨.write (pubKeyText 7 7), rfl⟩,
      ⟨.close, rfl⟩] (.op (.send true 0 none) fun _ => note 1)
  | .ownRef | .strangeRef =>
    .op (.newPkt (ascii "r2") linked.svrAddr) fun _ => .op (.serverKEx true 0 1) fun _ => note 0
  | .otherRef =>
    .op (.newPkt (ascii "r2") linked.svrAddr) fun _ =>
    edits [adds keyTarget targetRelay, adds keyRelayTo (linked.addr ()),
      ⟨.write (pubKeyText 7 7), rfl⟩, ⟨.close, rfl⟩] (sendsAndExchanges (ascii "r2"))
  | .otherAddr =>
    .op (.newPkt (ascii "r3") linked.svrAddr) fun _ =>
    .op (.clientKEx true linked.svrAddr 0 0) fun _ => note 0
  | .ownBytes =>
    .op (.newPkt (ascii "r3") linked.svrAddr) fun _ =>
    .op (.unmarshal 0 (torn "\"_ref\":\"r2\",\"_tgt\":\"svr.relay\",\"_relay_dst\":\"10.0.0.2:1\""))
      fun _ => edits [⟨.write (pubKeyText 7 7), rfl⟩, ⟨.close, rfl⟩] (sendsAndExchanges (ascii "r2"))
  | .callbacks =>
    .op (.newPkt (ascii "r3") linked.svrAddr) fun _ =>
    edits [adds keyTarget targetBadge] (sendsAndExchanges (ascii "r9"))
  | .strangeBytes =>
    .op (.newPkt (ascii "r3") linked.svrAddr) fun _ =>
    edits [⟨.write (pubKeyText 7 7), rfl⟩, ⟨.close, rfl⟩] (.op (.send true 0 none) fun _ => note 1)

/-- The refs that are kept. -/
def refs : Proviso → GoString → Bool
  | .ownRef => fun _ => false
  | .callbacks => fun ref => decide (ref = ascii "r0") || decide (ref = ascii "r9")
  | _ => fun ref => decide (ref = ascii "r0") || decide (ref = ascii "r2")

/-- A packet that the server is asked to relay to the client. -/
def forClient (ref : GoString) : PktView :=
  ⟨((JSONPkt.refMeta ref).set keyTarget targetRelay).set keyRelayTo (linked.addr ()),
    Base64.encode (pubKeyText 7 7), pubKeyText 7 7, linked.svrAddr⟩

/-- What the server has for the client goes to the client. -/
def answers : List (Link → LinkEvent) := sendPkts :: svrDoes 3 9 ++ toCli :: cliDoes 2 11

/-- The first packet is sent after `n` steps, and keeps the server busy for `m`. What it brings
about is taken for the response to the exchange. -/
def overtakes (n m : Nat) : List (Link → LinkEvent) :=
  cliDoes 0 n ++ [wrote, toSvr] ++ svrDoes 2 m ++ cliDoes 0 2 ++ answers ++ wrote :: cliDoes 0 17

/-- The steps after `ConfigureClient`. -/
def misuseRun : Proviso → List (Link → LinkEvent)
  | .ownKey => cliDoes 0 29 ++ [wrote, toSvr] ++ svrDoes 2 21 ++ cliDoes 0 2
  | .ownRef | .strangeRef =>
    cliDoes 0 18 ++ [wrote, strange (forClient (ascii "r2")).marshal] ++ svrDoes 2 28 ++ answers ++
      cliDoes 0 17
  | .otherRef => overtakes 34 28
  -- the error packet is the one that the client's key was read into
  | .otherAddr => cliDoes 0 18 ++ [wrote, toSvr] ++ svrPicks 0 2 26 ++ answers ++ cliDoes 0 17
  | .ownBytes => overtakes 33 28
  | .callbacks => overtakes 31 19
  -- the packet that is torn takes the request of the client
  | .strangeBytes =>
    strange (torn "\"_tgt\":\"crypto.kex-cs\"") :: svrDoes 2 16 ++ cliDoes 0 28 ++
      [wrote, toSvr] ++ svrPicks 0 3 19 ++ cliDoes 0 2

/-- The server has a key for the client that does not open the bytes. -/
def shut (l : Link) (data : Bytes) : Bool :=
  (l.server.state.keys.getKeyStore (linked.addr ())).any fun k =>
    decide (linked.aead.openText (bigBytes k.shared) data = none) &&
      decide (Endpoint.nonceSize ≤ data.length)

def checks (p : Proviso) : Link → LinkEvent → Bool :=
  linked.admits () (refs p) fun q => decide (q ≠ p)

/-- The note at the end. -/
def lost (p : Proviso) : Option (Nat × Bytes × Bytes) :=
  (starts (session (misuse p))).bind fun l₀ =>
  (linked.linkRun () (checks p) l₀ configures).bind fun l₁ =>
  (linked.linkRun () (checks p) l₁ (misuseRun p)).bind fun l₂ =>
  (exchanged l₁ l₂).filter fun r => shut l₂ r.2.2

section Found

variable {kept : GoString → Bool} {asked : Proviso → Prop} {check : Proviso → Bool}
  (hcheck : ∀ p, asked p → check p = true) (hcallbacks : asked .callbacks → linked.svr.Courteous kept)
  {l₀ l₁ : Link} {evs : List (Link → LinkEvent)}
include hcheck hcallbacks

end Found

end Solo

open Solo

end Concord
