import Concord.Delivery
import Concord.KeyRequests
import Concord.KeyValidity
import Concord.SendChain
import Concord.TransportRoundTrip

/-!
# Refused key exchanges

A response reports a failure in its metadata. `ProcessKeyExResp` looks at the data section only.

1. `refused_iff_no_key`: a response that reports a failure is refused, by `ProcessKeyExResp` and by
   an exchange that waits for it, exactly if there is no public key in its data section. The error
   packets of the client's own write routine have an empty one.
2. `refusal_stored`: an error packet of the server may be an old response, and then it carries the
   key that the response carried.
-/

namespace Concord

open Go

/-- The packet reports that a request has failed. -/
def JSONPkt.ReportsFailure (c : JSONPkt) : Prop := c.metaGet keySvrStatus = ascii "-1"

/-- An error packet reports its failure and has no data section, whatever packet object it was made
of. -/
theorem JSONPkt.newErrPkt_reports {p q : JSONPkt} {ref dest msg : GoString}
    (h : p.newErrPkt ref dest msg = some q) : q.ReportsFailure ∧ q.data = [] := by
  obtain ⟨hmap, hdata, -⟩ := newErrPkt_some h
  exact ⟨(congrArg (index · keySvrStatus) hmap).trans rfl, hdata⟩

/-- Left alone, the call returns an error, and the key table stays as it is. -/
def Refused (s : Endpoint) (x : Routine (Option GoString)) : Prop :=
  ∃ err s', Yields Endpoint.handle x s (some err) s' ∧ s'.keys = s.keys

/-- The transforms of the client do not receive on this channel. -/
def UDPClient.Unaware (client : UDPClient) (ch : Nat) : Prop :=
  ∀ name, ∀ t ∈ client.data name, ∀ ctx bin, (t ctx bin).AllOps fun e => e ≠ .receive ch

theorem UDPClient.send_unaware {client : UDPClient} {ch : Nat} (hch : client.Unaware ch) (pkt : Nat)
    (respCh : Option Nat) : (client.send pkt respCh).AllOps fun e => e ≠ .receive ch := by
  refine Prog.allOps_bind ?_ fun ref => Prog.allOps_op Op.noConfusion fun bin => ?_
  · refine Prog.allOps_op Op.noConfusion fun ref => Prog.allOps_ite (fun _ => ?_) fun _ => trivial
    exact Prog.allOps_op Op.noConfusion fun ref =>
      Prog.allOps_bind (Routine.call_allOps (P := (· ≠ .receive ch)) Op.noConfusion) fun _ => trivial
  · refine Prog.allOps_bind (processTransforms_allOps (hch _) _ bin) fun r => ?_
    obtain ⟨ctx, bin, err⟩ := r
    cases err with
    | some err => trivial
    | none =>
      exact Prog.allOps_ite (fun _ => trivial) fun _ => Prog.allOps_op Op.noConfusion fun _ =>
        Prog.allOps_op Op.noConfusion fun _ => trivial

namespace Crypto

variable {cr : Crypto} {jsonErr : Bytes → GoString} {addr : GoString} {s : Endpoint} {resp : Nat}
  {c : JSONPkt}

/-! ## 1. One response -/

/-- What is left of an exchange when its packet has been sent. -/
def awaitKey (cr : Crypto) (jsonErr : Bytes → GoString) (addr : GoString)
    (text : GoString → GoString) (ch : Nat) : Routine (Option GoString) := do
  let resp ← Routine.perform (.receive ch)
  let err ← cr.processKeyExResp jsonErr addr resp
  return err.map text

theorem serverKEx_eq (cr : Crypto) (jsonErr : Bytes → GoString) (client : UDPClient)
    (svrAddr : GoString) (pkt kexResp : Nat) :
    cr.serverKEx jsonErr client svrAddr pkt kexResp = (do
      cr.configureKeyExServerPkt pkt
      let _ ← client.send pkt (some kexResp)
      cr.awaitKey jsonErr svrAddr (ascii "handshake error: " ++ ·) kexResp) := rfl

theorem clientKEx_eq (cr : Crypto) (jsonErr : Bytes → GoString) (client : UDPClient)
    (clientAddr : GoString) (pkt respChan : Nat) :
    cr.clientKEx jsonErr client clientAddr pkt respChan = (do
      configureKeyExClientPkt clientAddr pkt
      let _ ← client.send pkt (some respChan)
      cr.awaitKey jsonErr clientAddr (ascii "client-kex ferror: " ++ ·) respChan) := rfl

/-- An exchange that has come to its channel has sent its packet, and waits for the response. -/
theorem awaitKey_of_leads {client : UDPClient} {ops : List PktOp} {pkt ch : Nat}
    {text : GoString → GoString} {tr : List Step} {k : Nat → Routine (Option GoString)}
    (hch : client.Unaware ch)
    (h : (do
      Routine.callAll pkt ops
      let _ ← client.send pkt (some ch)
      cr.awaitKey jsonErr addr text ch : Routine (Option GoString)).Leads tr
        (.op (.receive ch) k)) :
    .op (.receive ch) k = cr.awaitKey jsonErr addr text ch := by
  have hops : (Routine.callAll pkt ops).AllOps fun e => e ≠ .receive ch :=
    Routine.callAll_allOps fun _ _ => Op.noConfusion
  obtain ⟨_, _, tr₁, -, -, -, h₁⟩ := Prog.leads_bind_op hops (not_not_intro rfl) h
  obtain ⟨_, _, tr₂, -, -, -, h₂⟩ :=
    Prog.leads_bind_op (UDPClient.send_unaware hch pkt (some ch)) (not_not_intro rfl) h₁
  -- nothing is received after the first response
  rcases Prog.leads_perform.mp h₂ with ⟨-, heq⟩ | ⟨resp, tr₃, -, h₃⟩
  · exact heq
  · have hrest : (cr.processKeyExResp jsonErr addr resp >>= fun err => pure (err.map text) :
        Routine (Option GoString)).AllOps fun e => e ≠ .receive ch :=
      Prog.allOps_bind (processKeyExResp_allOps jsonErr addr Op.noConfusion
        (fun _ => Op.noConfusion) Op.noConfusion) fun _ => trivial
    exact absurd rfl (h₃.allOps hrest).2.1

/-- A body without a key is reported. -/
theorem processKeyExResp_none (hc : s.pkts.mem[resp]? = some c) (h : pubKeyOf c.data = none) :
    ∃ err, Yields Endpoint.handle (cr.processKeyExResp jsonErr addr resp) s (some err) s := by
  refine ⟨Fmt.errorf (ascii "packet decode error: " ++ jsonErr c.data),
    yields_det (r := c.data) (Endpoint.handle_read hc .data) ?_⟩
  rw [h]
  exact yields_pure

/-- A key is stored, or a coordinate is missing. -/
theorem processKeyExResp_some {pk : PublicKey} (hc : s.pkts.mem[resp]? = some c)
    (h : pubKeyOf c.data = some pk) :
    Crashes Endpoint.handle (cr.processKeyExResp jsonErr addr resp) s ∨
      ∃ s', Yields Endpoint.handle (cr.processKeyExResp jsonErr addr resp) s none s' := by
  have hread := Endpoint.handle_read hc .data
  rcases computeSharedKey_cases cr pk with ⟨x, y, -, hcomp⟩ | ⟨-, hcomp⟩
  · let k : KeyStore := ⟨true, cr.curve.mul cr.privKey (x, y), pk⟩
    refine .inr ⟨{ s with keys := s.keys.setKeyStore addr k }, yields_det (r := c.data) hread ?_⟩
    simp only [h, hcomp]
    exact yields_det (fun _ => rfl) yields_pure
  · refine .inl ((crashes_det (r := c.data) hread).mpr ?_)
    simp only [h, hcomp]
    exact crashes_panic

theorem refused_iff {x : Routine (Option GoString)} {P : Prop}
    (hP : P → Refused s x)
    (hnot : ¬ P → Crashes Endpoint.handle x s ∨ ∃ s', Yields Endpoint.handle x s none s') :
    Refused s x ↔ P := by
  refine ⟨fun ⟨err, s₁, hyields, _⟩ => by_contra fun h => ?_, hP⟩
  rcases hnot h with hcrash | ⟨s₂, hnone⟩
  · exact hyields.1 hcrash
  · cases (hyields.unique hnone).1

theorem processKeyExResp_refused_iff (hc : s.pkts.mem[resp]? = some c) :
    Refused s (cr.processKeyExResp jsonErr addr resp) ↔ pubKeyOf c.data = none := by
  refine refused_iff (fun h => ?_) fun h => ?_
  · obtain ⟨err, hyields⟩ := processKeyExResp_none hc h
    exact ⟨err, s, hyields, rfl⟩
  · obtain ⟨pk, hpk⟩ := Option.ne_none_iff_exists'.mp h
    exact processKeyExResp_some hc hpk

/-- The exchange does with its response what `ProcessKeyExResp` does. -/
theorem awaitKey_refused_iff {text : GoString → GoString} {ch ch' : Nat}
    (hnext : (s.inbox.find? fun e => e.1 = ch) = some (ch', resp))
    (hc : s.pkts.mem[resp]? = some c) :
    Refused s (cr.awaitKey jsonErr addr text ch) ↔ pubKeyOf c.data = none := by
  have hreceive : ∀ choice, s.handle choice (.receive ch) =
      .ok (resp, { s with inbox := s.inbox.eraseP fun e => e.1 = ch }) := fun choice => by
    simp only [Endpoint.handle, hnext]
  let s₁ : Endpoint := { s with inbox := s.inbox.eraseP fun e => e.1 = ch }
  refine refused_iff (fun h => ?_) fun h => ?_
  · have hnone : ∃ err, Yields Endpoint.handle (cr.processKeyExResp jsonErr addr resp) s₁
        (some err) s₁ := processKeyExResp_none hc h
    obtain ⟨err, hyields⟩ := hnone
    exact ⟨_, _, yields_det hreceive (yields_bind hyields yields_pure), rfl⟩
  · obtain ⟨pk, hpk⟩ := Option.ne_none_iff_exists'.mp h
    have hsome : Crashes Endpoint.handle (cr.processKeyExResp jsonErr addr resp) s₁ ∨
        ∃ s', Yields Endpoint.handle (cr.processKeyExResp jsonErr addr resp) s₁ none s' :=
      processKeyExResp_some hc hpk
    rcases hsome with hcrash | ⟨s', hyields⟩
    · exact .inl ((crashes_det hreceive).mpr (crashes_bind.mpr (.inl hcrash)))
    · exact .inr ⟨s', yields_det hreceive (yields_bind hyields yields_pure)⟩

theorem newErrPkt_refused {ref dest msg : GoString} {s₀ : Endpoint} {tr : List Step}
    (h : Execs Endpoint.handle (Routine.newErrPkt ref dest msg) s₀ tr resp s) :
    ∃ c, s.pkts.mem[resp]? = some c ∧ c.ReportsFailure ∧ pubKeyOf c.data = none := by
  obtain ⟨choice, p, s₁, tr₁, hget, h₁, -⟩ := execs_perform.mp h
  obtain ⟨_, u, s₂, _, hcalls, h₂, -⟩ := execs_bind.mp h₁
  obtain ⟨-, rfl, rfl⟩ := execs_pure.mp h₂
  obtain ⟨c, hc⟩ := exists_of_callAll hcalls
  obtain ⟨d, hd, hmem⟩ := execs_callAll hcalls hc
  obtain ⟨hreports, hdata⟩ := JSONPkt.newErrPkt_reports ((newErrPkt_eq_ops c ref dest msg).trans hd)
  exact ⟨d, hmem, hreports, by rw [hdata]; exact pubKeyOf_nil⟩

/-- A response that reports a failure is refused exactly if there is no public key in its data
section; the client's own error packets are. -/
theorem refused_iff_no_key (cr : Crypto) (jsonErr : Bytes → GoString) (addr : GoString) :
    (∀ (s : Endpoint) (resp : Nat) (c : JSONPkt), s.pkts.mem[resp]? = some c → c.ReportsFailure →
      (Refused s (cr.processKeyExResp jsonErr addr resp) ↔ pubKeyOf c.data = none) ∧
      ∀ (client : UDPClient) (pkt ch : Nat) (tr : List Step) (k : Nat → Routine (Option GoString)),
        client.Unaware ch →
        (s.inbox.find? fun e => e.1 = ch) = some (ch, resp) →
        (cr.serverKEx jsonErr client addr pkt ch).Leads tr (.op (.receive ch) k) ∨
          (cr.clientKEx jsonErr client addr pkt ch).Leads tr (.op (.receive ch) k) →
        (Refused s (.op (.receive ch) k) ↔ pubKeyOf c.data = none)) ∧
    ∀ (err : GoString) (s s' : Endpoint) (tr : List Step) (resp : Nat),
      Execs Endpoint.handle (Routine.newErrPkt [] [] (ascii "packet write error: " ++ err)) s tr resp
        s' →
      Refused s' (cr.processKeyExResp jsonErr addr resp) := by
  refine ⟨fun s resp c hc _ => ⟨processKeyExResp_refused_iff hc, ?_⟩, fun err s s' tr resp h => ?_⟩
  · intro client pkt ch tr k hch hnext hleads
    rcases hleads with h | h
    · rw [serverKEx_eq] at h
      rw [awaitKey_of_leads hch h]
      exact awaitKey_refused_iff hnext hc
    · rw [clientKEx_eq] at h
      rw [awaitKey_of_leads hch h]
      exact awaitKey_refused_iff hnext hc
  · obtain ⟨c, hc, -, hnone⟩ := newErrPkt_refused h
    exact (processKeyExResp_refused_iff hc).mpr hnone

/-- A client whose write has failed: the error packet is on the channel of the exchange. -/
def failedWrite : Endpoint :=
  { holding [errPkt [] [] (ascii "packet write error: closed")] .empty with inbox := [(7, 0)] }

/-- The way of `ServerKEx` to its channel. -/
def sendsKey (cr : Crypto) : List Step :=
  [⟨.call 0 .clear, none⟩, ⟨.call 0 (.metaAdd keyTarget targetKeyExchangeServer), none⟩,
    ⟨.call 0 (.write cr.publicKey), none⟩, ⟨.call 0 .close, none⟩,
    ⟨.read 0 (.metaGet keyRef), ascii "r"⟩, ⟨.read 0 .marshal, []⟩, ⟨.writeStream [] (some 7), ()⟩,
    ⟨.register (ascii "r") (some 7), ()⟩]

/-- It waits for that packet, and refuses it. -/
theorem failed_write_refused :
    ∃ k, ((Crypto.transparent 1).serverKEx (fun _ => []) (UDPClient.new []) [] 0 7).Leads
        (sendsKey (Crypto.transparent 1)) (.op (.receive 7) k) ∧
      Refused failedWrite (.op (.receive 7) k) := by
  have hleads := Prog.leads_of_follow (t := .op (.receive 7) _)
    (show ((Crypto.transparent 1).serverKEx (fun _ => []) (UDPClient.new []) [] 0 7).follow
      (sendsKey (Crypto.transparent 1)) = some _ from rfl)
  refine ⟨_, hleads, ?_⟩
  exact (((refused_iff_no_key _ (fun _ => []) []).1 failedWrite 0 _ rfl rfl).2 (UDPClient.new []) 0 7
    _ _ (fun _ t ht => absurd ht List.not_mem_nil) rfl (.inl hleads)).mpr rfl

end Crypto

/-! ## 2. An error packet with a key -/

namespace Solo

/-- An address that the server has no key for. -/
def nobody : GoString := ascii "10.0.0.9:4000"

/-- A client that has been configured asks the server for the key of that address. -/
def asksForNobody : Script :=
  .op (.newPkt (ascii "r1") linked.svrAddr) fun _ => .op (.clientKEx true nobody 0 0) fun _ => .ret ()

/-- The server refuses it. The request is read into the packet of the first request, and the error
packet is the response to that. -/
def refuses : List (Link → LinkEvent) :=
  cliDoes 0 18 ++ [wrote, toSvr] ++ svrPicks 1 2 26 ++ answers ++ cliDoes 0 3

/-- The client has got the error packet. -/
def learns : Option Link :=
  (starts (session asksForNobody)).bind fun l₀ =>
    linked.linkRun () (fun _ _ => true) l₀ (configures ++ refuses)

end Solo

open Solo

/-- The client that was told that there is no such client has stored the server's key as the key of
that client. -/
theorem refusal_stored :
    ∃ l resp c, linked.Later () (fun _ _ => True) Link.start l ∧
      offers 2 l.client.log = [(some (appChannel 0), resp)] ∧
      l.client.state.pkts.mem[resp]? = some c ∧ c.ReportsFailure ∧
      c.metaGet keySvrMsg = ascii "packet pipeline error: client non-existent" ∧
      (l.client.state.keys.getKeyStore nobody).map KeyRef.pub = some linked.svrPub ∧
      ¬ Refused l.client.state ((linked.crypto ()).processKeyExResp linked.jsonErr nobody resp) := by
  have h : (learns.bind fun l =>
      (offers 2 l.client.log).head?.bind fun o => l.client.state.pkts.mem[o.2]?.filter fun c =>
        offers 2 l.client.log = [(some (appChannel 0), o.2)] ∧
        c.metaGet keySvrStatus = ascii "-1" ∧
        c.metaGet keySvrMsg = ascii "packet pipeline error: client non-existent" ∧
        (l.client.state.keys.getKeyStore nobody).map KeyRef.pub = some linked.svrPub ∧
        pubKeyOf c.data ≠ none).isSome = true := by
    decide +kernel
  obtain ⟨c, h⟩ := Option.isSome_iff_exists.mp h
  obtain ⟨l, hlearns, h⟩ := Option.bind_eq_some_iff.mp h
  obtain ⟨l₀, h₀, h₁⟩ := Option.bind_eq_some_iff.mp hlearns
  obtain ⟨⟨_, resp⟩, -, h⟩ := Option.bind_eq_some_iff.mp h
  obtain ⟨hc, h⟩ := Option.filter_eq_some_iff.mp h
  obtain ⟨hoffer, hstat, hmsg, hkey, hpub⟩ := of_decide_eq_true h
  have hlater := ((Parties.Later.refl _).step trivial h₀).trans
    (Parties.later_of_linkRun (fun _ _ _ => trivial) h₁)
  exact ⟨l, resp, c, hlater, hoffer, hc, hstat, hmsg, hkey, fun hrefused =>
    hpub ((Crypto.processKeyExResp_refused_iff hc).mp hrefused)⟩

end Concord
