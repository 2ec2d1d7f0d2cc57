import Concord.KeyNetwork

/-!
# Key exchanges, goroutine by goroutine

1. What every message and every entry of a key table has to do with the private keys
   (`serverKnows`, `clientKnows`). A message is tied to an exchange by its ref, and an
   entry to a private key by its address.
2. The transforms: whatever they do to a message, the receiver has the message or no
   JSON.
3. The goroutines of the server (`processIncoming_guarded`, `processOutgoing_guarded`)
   and
4. those of a client (`kex_guarded`, `clientIncoming_guarded`, `writeError_guarded`)
   keep to it.
-/

namespace Concord

open Go

/-! ## 1. What is known -/

namespace Parties

variable {ι : Type} (P : Parties ι) (owner : ι → GoString → Exchange)

/-- The public key is the one the exchange asks for. -/
def Asked (pk : PublicKey) : Exchange → Prop
  | .server => pk = P.svrPub
  | .client addr => addr ≠ P.svrAddr ∧ ∀ j, addr = P.addr j → pk = P.pub j

/-- If the body is a public key, it is the right one. -/
def Answers (e : Exchange) (body : Bytes) : Prop := ∀ pk, pubKeyOf body = some pk → P.Asked pk e

/-- The message is a request of client `i`. -/
structure Request (i : ι) (v : PktView) : Prop where
  keys : JSONPkt.KeysValid v.kv
  target : v.metaGet keyTarget = (owner i (Utf8.toValid (v.metaGet keyRef))).target
  body : v.wire = Base64.encode ((owner i (Utf8.toValid (v.metaGet keyRef))).body (P.crypto i))

/-- The message is a response to client `i`, or an error. -/
structure Response (i : ι) (v : PktView) (body : Bytes) : Prop where
  keys : JSONPkt.KeysValid v.kv
  wire : v.wire = Base64.encode body
  answers : P.Answers (owner i (Utf8.toValid (v.metaGet keyRef))) body

/-- The bytes are the message, as it is or sealed under some key. -/
def Sent (v : PktView) (data : Bytes) : Prop :=
  data = v.marshal ∨
    ∃ k n, n.length = Endpoint.nonceSize ∧ data = P.aead.sealText k n v.marshal

/-- What is found in the datagram, opened or not, is a message with `M`, or no JSON. -/
def Reads (data : Bytes) (M : PktView → Prop) : Prop :=
  ∀ bin, (bin = data ∨ ∃ k, P.aead.openText k data = some bin) →
    Json.parse bin = none ∨ ∃ u, M u ∧ bin = u.marshal

/-- The secret client `i` shares with the owner of a public point. -/
def secret (i : ι) (pt : Nat × Nat) : Nat :=
  P.curve.mul (P.privKey i) (Int.ofNat pt.1, Int.ofNat pt.2)

def svrSecret (pt : Nat × Nat) : Nat := P.curve.mul P.svrKey (Int.ofNat pt.1, Int.ofNat pt.2)

/-- On the server: every entry of the key table is for a client and holds that client's
key, and every packet is for the client it is sent to. -/
def serverKnows : Knowledge where
  get c := c.clean = true
  send c := ∃ i v body, c.Shows v ∧ v.dest = P.addr i ∧ P.Response owner i v body
  dist data a := ∃ i v body, a = P.addr i ∧ P.Response owner i v body ∧ P.Sent v data
  key a shared pk := ∃ i, a = P.addr i ∧ pk = P.pub i ∧
    shared = P.svrSecret (P.curve.pub (P.privKey i))
  write _ _ := True
  request _ _ := True
  deliver _ _ := True
  misc _ := True

/-- On client `i`: an entry for the server or for a client holds their key, and what comes
over the channel of an exchange is an answer to it. -/
def clientKnows (i : ι) : Knowledge where
  get c := c.clean = true
  send _ := True
  dist _ _ := True
  key a shared _ := (a = P.svrAddr → shared = P.secret i (P.curve.pub P.svrKey)) ∧
    ∀ j, a = P.addr j → shared = P.secret i (P.curve.pub (P.privKey j))
  write data _ := ∃ v, P.Request owner i v ∧ P.Sent v data
  request ref ch := ∃ k, ch = some k ∧ owner i (Utf8.toValid ref) = P.exchange i k
  deliver k c := P.Answers (P.exchange i k) c.data
  misc _ := True

end Parties

/-! ## 2. Messages -/

section Transports

variable {K : Knowledge} {G : Op → Heap → Prop} {h : Heap} {p : Nat} {v : PktView} {cr : Crypto}
  {ctx : TransformContext} {buff : Bytes}

theorem encryptAES_guarded {a : AEAD} {key : Bytes} {Q : Except GoString Bytes → Heap → Prop}
    (herr : ∀ e, Q (.error e) h)
    (hok : ∀ n : Bytes, n.length = Endpoint.nonceSize → Q (.ok (a.sealText key n buff)) h) :
    (encryptAES a key buff).wp (guarded K G) h Q := by
  unfold encryptAES
  split
  · rw [Prog.wp_bind]
    intro r hr _
    cases r with
    | none => exact herr _
    | some n => exact hok n (hr n rfl)
  · exact herr _

theorem decryptAES_guarded {a : AEAD} {key : Bytes} {Q : Except GoString Bytes → Heap → Prop}
    (herr : ∀ e, Q (.error e) h) (hok : ∀ m, a.openText key buff = some m → Q (.ok m) h) :
    (decryptAES a key buff).wp (guarded K G) h Q := by
  unfold decryptAES
  split
  · split
    · exact Guarded.panic_wp
    · split
      · exact herr _
      · next m hm => exact hok m hm
  · exact herr _

/-- `encryptTransport` leaves the buffer, seals it or, unless it skips the packet, fails. -/
theorem encryptTransport_guarded (hp : h.Has p v) (hctx : ctx.pkt = some p)
    {Q : TransformContext × Bytes → Heap → Prop} (hplain : Q (ctx, buff) h)
    (hseal : ∀ k n : Bytes, n.length = Endpoint.nonceSize → Q (ctx, cr.aead.sealText k n buff) h)
    (herr : Crypto.isSkip (v.metaGet Crypto.keyNoCrypto) = false →
      ∀ msg, Q ({ ctx with stat := codeStopError, msg := msg }, buff) h) :
    (cr.encryptTransport ctx buff).wp (guarded K G) h Q := by
  unfold Crypto.encryptTransport
  simp only [hctx, Routine.metaGet, Routine.dest] at herr ⊢
  rw [Prog.wp_bind]
  refine Guarded.read_wp hp ?_
  rw [Prog.wp_ite]
  split
  · exact hplain
  · next hskip =>
    rw [Prog.wp_bind]
    refine Guarded.read_wp hp ?_
    rw [Prog.wp_bind]
    refine Guarded.getKeyStore_wp fun r _ => ?_
    cases r with
    | none => exact hplain
    | some k =>
      simp only
      rw [Prog.wp_bind]
      refine Guarded.getKeySent_wp fun sent => ?_
      rw [Prog.wp_ite]
      split
      · rw [Prog.wp_bind]
        exact encryptAES_guarded (fun e => herr (Bool.eq_false_iff.mpr hskip) _)
          fun n hn => hseal _ n hn
      · exact fun _ => hplain

/-- `decryptTransport` leaves the buffer or opens it. -/
theorem decryptTransport_guarded {Q : TransformContext × Bytes → Heap → Prop}
    (hQ : ∀ m, (m = buff ∨ ∃ k, cr.aead.openText k buff = some m) → Q (ctx, m) h) :
    (cr.decryptTransport ctx buff).wp (guarded K G) h Q := by
  unfold Crypto.decryptTransport
  rw [Prog.wp_bind]
  refine Guarded.getKeyStore_wp fun r _ => ?_
  cases r with
  | none => exact hQ _ (.inl rfl)
  | some k =>
    simp only
    rw [Prog.wp_bind]
    exact decryptAES_guarded (fun _ => hQ _ (.inl rfl)) fun m hm => hQ m (.inr ⟨_, hm⟩)

theorem continue_ne_stopError : codeContinue ≠ codeStopError := by decide

/-- A pipeline with one transform. -/
theorem single_guarded {t : BufferTransform}
    {Q : TransformContext × Bytes × Option GoString → Heap → Prop}
    (ht : (t ctx buff).wp (guarded K G) h fun r h' =>
      (r.1.stat = codeStopError → ∀ err, Q (r.1, r.2, some err) h') ∧
      (r.1.stat ≠ codeStopError → Q (r.1, r.2, none) h')) :
    (processTransforms [t] ctx buff).wp (guarded K G) h Q := by
  rw [processTransforms, Prog.wp_bind]
  refine Prog.wp_mono (guarded_mono K G) (fun r h' hr => ?_) ht
  obtain ⟨ctx', data'⟩ := r
  simp only
  split
  · next hs => exact hr.1 hs _
  · next hs =>
    split
    · exact hr.2 hs
    · exact hr.2 hs

end Transports

namespace Parties

variable {ι : Type} {P : Parties ι} {owner : ι → GoString → Exchange}

/-- Whatever `decryptTransport` makes of the bytes, it is the message or no JSON. -/
theorem reads_of_sent (ha : P.aead.Ideal) {v : PktView} {data : Bytes} {M : PktView → Prop}
    (hv : M v) (h : P.Sent v data) : P.Reads data M := by
  intro bin hb
  rcases h with rfl | ⟨k, n, hn, rfl⟩
  · rcases hb with rfl | ⟨k, hk⟩
    · exact .inr ⟨v, hv, rfl⟩
    · -- plain JSON does not open, for then it would be ciphertext
      obtain ⟨n, hn, hseal⟩ := P.aead.sealed_of_open hk
      have hparse := JSONPkt.parse_view v
      rw [hseal, ha.not_json hn] at hparse
      cases hparse
  · rcases hb with rfl | ⟨k', hk⟩
    · exact .inl (ha.not_json hn)
    · obtain ⟨n', hn', hseal⟩ := P.aead.sealed_of_open hk
      exact .inr ⟨v, hv, (ha.seal_inj hn hn' hseal).symm⟩

/-! ## 3. The server -/

section Server

variable {h : Heap} {i : ι}

/-- The rules of the server's goroutines. -/
def serverRules (P : Parties ι) (owner : ι → GoString → Exchange) : Prog.Rules Op Op.Res Heap :=
  guarded (P.serverKnows owner) fun _ _ => True

theorem keysValid_refMeta (ref : GoString) : JSONPkt.KeysValid (JSONPkt.refMeta ref) :=
  JSONPkt.keysValid_set JSONPkt.keysValid_empty (by decide) _

theorem keysValid_errMeta (ref msg : GoString) : JSONPkt.KeysValid (JSONPkt.errMeta ref msg) :=
  JSONPkt.keysValid_set (JSONPkt.keysValid_set (keysValid_refMeta ref) (by decide) _) (by decide) _

/-- An error packet answers anything. -/
theorem response_err (ref msg dest : GoString) :
    P.Response owner i ⟨JSONPkt.errMeta ref msg, [], [], dest⟩ [] where
  keys := keysValid_errMeta ref msg
  wire := rfl
  answers pk hpk := by
    rw [pubKeyOf_nil] at hpk
    cases hpk

theorem sendErr_guarded {ref msg : GoString} {Q : Unit → Heap → Prop}
    (hQ : ∀ h' p, p ∉ h.keys → h.Keeps h' p → Q () h') :
    (UDPServer.sendErr ref (P.addr i) msg).wp (P.serverRules owner) h Q := by
  rw [UDPServer.sendErr, Prog.wp_bind]
  refine Guarded.newErrPkt_clean_wp (fun c hc => hc) fun p h₁ hp hv hk => ?_
  refine Guarded.send_wp hv (fun c hc => ⟨i, _, [], hc, rfl, response_err ref msg _⟩) fun hk' => ?_
  exact hQ _ p hp (hk.trans hk')

/-- The record of a response that a callback has written to. -/
def respView (ref dest : GoString) (body : Bytes) : PktView :=
  ⟨(JSONPkt.refMeta ref).set Crypto.keyNoCrypto (ascii "true"), [], body, dest⟩

/-- What a key-exchange callback leaves: an error, or an answer in the response. -/
def Replied (P : Parties ι) (e : Exchange) (ref dest : GoString) (pw : Nat) (ctx : TargetCtx)
    (h : Heap) : Prop :=
  pw ∈ h.keys ∧ (ctx.stat = codeStopError ∨
    (ctx.stat = codeContinue ∨ ctx.stat = codeStopCloseSend) ∧
      ∃ body, P.Answers e body ∧ h.Has pw (respView ref dest body))

/-- Both callbacks end by writing to the response. -/
theorem respond_guarded {ref dest : GoString} {pw : Nat} {body : Bytes} {ctx : TargetCtx}
    (hpw : h.Has pw ⟨JSONPkt.refMeta ref, [], [], dest⟩) {Q : TargetCtx → Heap → Prop}
    (hQ : ∀ h', h'.Has pw (respView ref dest body) → h.Keeps h' pw → Q ctx h') :
    (do Routine.call pw (.metaAdd Crypto.keyNoCrypto (ascii "true"))
        Routine.call pw (.write body)
        return ctx : Routine TargetCtx).wp (P.serverRules owner) h Q := by
  rw [Prog.wp_bind]
  refine Guarded.call_wp rfl hpw fun h₁ _ hv₁ hk₁ => ?_
  rw [Prog.wp_bind]
  exact Guarded.call_wp rfl hv₁ fun h₂ _ hv₂ hk₂ => hQ h₂ hv₂ (hk₁.trans hk₂)

theorem publicKey_crypto (i : ι) : pubKeyOf (P.crypto i).publicKey = some (P.pub i) :=
  pubKeyOf_pubKeyText _

theorem answers_server : P.Answers .server P.svrCrypto.publicKey := fun pk hpk => by
  rw [show pubKeyOf P.svrCrypto.publicKey = some P.svrPub from pubKeyOf_pubKeyText _] at hpk
  cases hpk
  rfl

theorem keyExchangeServer_guarded {ctx : TargetCtx} {pw : Nat} {c : JSONPkt} {ref : GoString}
    (hpkt : (ctx.pkt, c) ∈ h) (hdata : c.data = (P.crypto i).publicKey)
    (hne : ctx.pkt ≠ pw) (hsender : ctx.sender = P.addr i)
    (hpw : h.Has pw ⟨JSONPkt.refMeta ref, [], [], P.addr i⟩) :
    (P.svrCrypto.keyExchangeServer ctx pw).wp (P.serverRules owner) h fun ctx' h' =>
      P.Replied .server ref (P.addr i) pw ctx' h' ∧ (ctx.pkt, c) ∈ h' := by
  unfold Crypto.keyExchangeServer
  rw [Prog.wp_bind]
  refine Guarded.readRaw_wp hpkt ?_
  rw [show PktRead.eval c .data = (P.crypto i).publicKey from hdata, publicKey_crypto]
  simp only
  rw [Prog.wp_bind]
  change ((pure (P.svrSecret (P.curve.pub (P.privKey i))) : Routine Nat)).wp _ _ _
  rw [Prog.wp_pure, Prog.wp_bind, hsender]
  refine Guarded.setKeyStore_wp ⟨i, rfl, rfl, rfl⟩ fun _ => ?_
  refine respond_guarded hpw fun h' hv hk => ⟨⟨hv.mem_keys, .inr ⟨.inr rfl, _, answers_server, hv⟩⟩, ?_⟩
  exact hk _ _ hne hpkt

/-- The server looks up the client that was asked for, if the address is that of a
client. -/
theorem answers_client {a : GoString} {j : ι} (hip : ipOf (ipText a) = some (P.addr j)) :
    P.Answers (.client a) (P.pub j).text := by
  intro pk hpk
  rw [pub, PublicKey.text_ofNat, pubKeyOf_pubKeyText] at hpk
  cases hpk
  refine ⟨?_, fun j' hj' => ?_⟩
  · rintro rfl
    rw [ipOf_ipText P.svrAddr_plain] at hip
    exact P.addr_ne_svr j (Option.some.inj hip).symm
  · subst hj'
    rw [ipOf_ipText (P.addr_plain j')] at hip
    rw [P.addr_inj (Option.some.inj hip)]
    rfl

theorem keyExchangeClient_guarded {ctx : TargetCtx} {pw : Nat} {c : JSONPkt} {a ref : GoString}
    (hpkt : (ctx.pkt, c) ∈ h) (hdata : c.data = ipText a) (hne : ctx.pkt ≠ pw)
    (hstat : ctx.stat = codeContinue) (hpw : h.Has pw ⟨JSONPkt.refMeta ref, [], [], P.addr i⟩) :
    (Crypto.keyExchangeClient ctx pw).wp (P.serverRules owner) h fun ctx' h' =>
      P.Replied (.client a) ref (P.addr i) pw ctx' h' ∧ (ctx.pkt, c) ∈ h' := by
  unfold Crypto.keyExchangeClient
  rw [Prog.wp_bind]
  refine Guarded.readRaw_wp hpkt ?_
  rw [show PktRead.eval c .data = ipText a from hdata]
  cases hip : ipOf (ipText a) with
  | none => exact ⟨⟨hpw.mem_keys, .inl rfl⟩, hpkt⟩
  | some ip =>
    simp only
    rw [Prog.wp_bind]
    refine Guarded.getKeyStore_wp fun r hr => ?_
    cases r with
    | none => exact ⟨⟨hpw.mem_keys, .inl rfl⟩, hpkt⟩
    | some keys =>
      obtain ⟨j, rfl, hpub, -⟩ := hr keys rfl
      simp only [hpub]
      refine respond_guarded hpw fun h' hv hk => ⟨⟨hv.mem_keys, .inr ⟨.inl hstat, _, ?_, hv⟩⟩, ?_⟩
      · exact answers_client hip
      · exact hk _ _ hne hpkt

/-- The queue of one of the two targets. -/
theorem server_queues (P : Parties ι) (e : Exchange) :
    P.server.queues e.target = some [match e with
      | .server => P.svrCrypto.keyExchangeServer
      | .client _ => Crypto.keyExchangeClient] := by
  have hne := kexTargets_ne
  cases e with
  | server =>
    simp only [server, Crypto.extendServer, addCallback, Exchange.target, if_neg hne, if_true,
      P.no_kexServer]
    rfl
  | client a =>
    simp only [server, Crypto.extendServer, addCallback, Exchange.target, if_neg hne.symm, if_true,
      P.no_kexClient]
    rfl

/-- The callback queue of a request. -/
theorem processPacket_guarded {ctx : TargetCtx} {pw : Nat} {c : JSONPkt} {e : Exchange}
    {ref : GoString} (hpkt : (ctx.pkt, c) ∈ h) (htarget : ctx.targetName = e.target)
    (hdata : c.data = e.body (P.crypto i)) (hne : ctx.pkt ≠ pw) (hstat : ctx.stat = codeContinue)
    (hsender : ctx.sender = P.addr i) (hpw : h.Has pw ⟨JSONPkt.refMeta ref, [], [], P.addr i⟩) :
    (processPacket P.server.queues ctx pw).wp (P.serverRules owner) h fun r h' =>
      pw ∈ h'.keys ∧ (ctx.pkt, c) ∈ h' ∧
        (r.2 = none → (r.1.stat = codeContinue ∨ r.1.stat = codeStopCloseSend) ∧
          ∃ body, P.Answers e body ∧ h'.Has pw (respView ref (P.addr i) body)) := by
  have hcb : ∀ cb : TargetCallback,
      ((cb ctx pw).wp (P.serverRules owner) h fun ctx' h' =>
        P.Replied e ref (P.addr i) pw ctx' h' ∧ (ctx.pkt, c) ∈ h') →
      (processCallbacks pw [cb] ctx).wp (P.serverRules owner) h fun r h' =>
        pw ∈ h'.keys ∧ (ctx.pkt, c) ∈ h' ∧
          (r.2 = none → (r.1.stat = codeContinue ∨ r.1.stat = codeStopCloseSend) ∧
            ∃ body, P.Answers e body ∧ h'.Has pw (respView ref (P.addr i) body)) := by
    intro cb hwp
    rw [processCallbacks, Prog.wp_bind]
    refine Prog.wp_mono (guarded_mono _ _) (fun ctx' h' hr => ?_) hwp
    obtain ⟨⟨hmem, hrep⟩, hc⟩ := hr
    split
    · exact ⟨hmem, hc, fun h => by cases h⟩
    · next hs =>
      have hok := hrep.resolve_left hs
      split
      · exact ⟨hmem, hc, fun _ => hok⟩
      · exact ⟨hmem, hc, fun _ => hok⟩
  rw [processPacket, htarget, server_queues]
  refine hcb _ ?_
  cases e with
  | server => exact keyExchangeServer_guarded hpkt hdata hne hsender hpw
  | client a => exact keyExchangeClient_guarded hpkt hdata hne hstat hpw

/-- The response is closed and sent. -/
theorem dispatch_guarded {ctx : TargetCtx} {resp : Nat} {ref : GoString} {body : Bytes}
    (hstat : ctx.stat = codeContinue ∨ ctx.stat = codeStopCloseSend)
    (hresp : h.Has resp (respView ref (P.addr i) body))
    (hans : P.Answers (owner i (Utf8.toValid ref)) body) {Q : Unit → Heap → Prop}
    (hQ : ∀ h', h.Keeps h' resp → Q () h') :
    (UDPServer.dispatch ctx resp).wp (P.serverRules owner) h Q := by
  have hnoop : ctx.stat ≠ codeStopNoop := by
    rcases hstat with hs | hs <;> rw [hs] <;> decide
  have hrelay : ctx.stat ≠ codeRelay := by
    rcases hstat with hs | hs <;> rw [hs] <;> decide
  unfold UDPServer.dispatch
  rw [if_neg hnoop, if_neg hrelay, Prog.wp_bind]
  refine Guarded.call_wp rfl hresp fun h₁ _ hv₁ hk₁ => ?_
  refine Guarded.send_wp hv₁ (fun c hc => ⟨i, _, body, hc, rfl, ?_⟩) fun hk₂ => hQ _ (hk₁.trans hk₂)
  have href : ((respView ref (P.addr i) body).after .close).metaGet keyRef = ref := rfl
  refine ⟨JSONPkt.keysValid_set (keysValid_refMeta ref) (by decide) _, rfl, ?_⟩
  rw [href]
  exact hans

/-- A decoded request is answered. -/
theorem serveRequest_guarded {pkt : Nat} {c : JSONPkt} {e : Exchange} (hpkt : (pkt, c) ∈ h)
    (htarget : c.metaGet keyTarget = e.target) (hdata : c.data = e.body (P.crypto i))
    (he : owner i (Utf8.toValid (c.metaGet keyRef)) = e) :
    (P.server.serveRequest (P.addr i) pkt).wp (P.serverRules owner) h fun _ h' =>
      pkt ∈ h'.keys := by
  rw [UDPServer.serveRequest, Prog.wp_bind]
  refine Guarded.readRaw_wp hpkt ?_
  rw [Prog.wp_bind]
  refine Guarded.newPkt_clean_wp (fun c hc => hc) fun resp h₁ hresp hv hk₁ => ?_
  have hne : pkt ≠ resp := fun h => hresp (h ▸ Heap.mem_keys hpkt)
  have hpkt₁ := hk₁ _ _ hne hpkt
  rw [Prog.wp_bind]
  refine Guarded.readRaw_wp hpkt₁ ?_
  rw [Prog.wp_bind]
  refine Prog.wp_mono (guarded_mono _ _) (fun r h₂ hr => ?_)
    (processPacket_guarded hpkt₁ htarget hdata hne rfl rfl hv)
  obtain ⟨ctx, err⟩ := r
  obtain ⟨hmem, hpkt₂, hok⟩ := hr
  cases err with
  | some err =>
    simp only
    rw [Prog.wp_bind]
    refine Guarded.putBack_wp hmem fun hk₃ => ?_
    refine sendErr_guarded fun h₄ q hq hk₄ => ?_
    have hpkt₃ := hk₃ _ _ hne hpkt₂
    refine Heap.mem_keys (hk₄ _ _ ?_ hpkt₃)
    exact fun h => hq (h ▸ Heap.mem_keys hpkt₃)
  | none =>
    obtain ⟨hstat, body, hans, hresp₂⟩ := hok rfl
    refine dispatch_guarded hstat hresp₂ ?_ fun h₃ hk₃ => Heap.mem_keys (hk₃ _ _ hne hpkt₂)
    rw [PktRead.eval, he]
    exact hans

/-- The goroutine for a datagram of client `i`. -/
theorem processIncoming_guarded {data : Bytes} (hdata : P.Reads data (P.Request owner i)) :
    (P.server.processIncoming data (P.addr i)).wp (P.serverRules owner) [] fun _ _ => True := by
  rw [UDPServer.processIncoming, Prog.wp_bind, processData]
  rw [show P.server.data pipelineIn = [P.svrCrypto.decryptTransport] from
    Crypto.extendServer_in P.data_in]
  refine single_guarded (decryptTransport_guarded fun buff hopened => ?_)
  refine ⟨fun hs => absurd hs continue_ne_stopError, fun _ => ?_⟩
  -- what is left after decryption is a request or no JSON
  have hbuff := hdata buff hopened
  simp only
  rw [if_neg (by decide), Prog.wp_bind]
  refine Guarded.newPkt_clean_wp (fun c hc => hc) fun pkt h₁ _ hpkt hk₁ => ?_
  rw [Prog.wp_bind]
  refine Guarded.unmarshal_wp hpkt hbuff (fun v hv => ⟨hv.keys, _, hv.body⟩)
    (fun v body c h₂ hv hbody hc hread hmeta hk₂ => ?_) fun e h₂ hmem hk₂ => ?_
  · simp only
    rw [Prog.wp_bind]
    refine Prog.wp_mono (guarded_mono _ _) (fun _ h₃ hmem => ?_) (serveRequest_guarded hc ?_
      (hread.trans (Base64.encode_inj (hbody.symm.trans hv.body))) ?_)
    · exact Guarded.putBack_wp hmem fun _ => trivial
    · rw [hmeta, hv.target]
      cases owner i (Utf8.toValid (v.metaGet keyRef)) <;> rfl
    · rw [hmeta, Utf8.toValid_idem]
  · simp only
    rw [Prog.wp_bind]
    refine sendErr_guarded fun h₃ q hq hk₃ => ?_
    obtain ⟨⟨_, c⟩, hc, rfl⟩ := List.mem_map.mp hmem
    refine Guarded.putBack_wp (Heap.mem_keys (hk₃ _ c ?_ hc)) fun _ => trivial
    exact fun h => hq (h ▸ Heap.mem_keys hc)

/-- The goroutine for a packet from `sendStream`. -/
theorem processOutgoing_guarded {p : Nat} {v : PktView} {body : Bytes} (hp : h.Has p v)
    (hdest : v.dest = P.addr i) (hv : P.Response owner i v body) :
    (P.server.processOutgoing p).wp (P.serverRules owner) h fun _ _ => True := by
  rw [UDPServer.processOutgoing, Prog.wp_bind]
  refine Guarded.read_wp hp ?_
  rw [Prog.wp_bind]
  refine Guarded.read_wp hp ?_
  rw [PktView.read, hdest, show P.server.resolve (P.addr i) = some (P.addr i) from P.resolve_addr i]
  simp only
  rw [Prog.wp_bind, UDPServer.transmit, Prog.wp_bind, processData]
  rw [show P.server.data pipelineOut = [P.svrCrypto.encryptTransport] from
    Crypto.extendServer_out P.data_out]
  have hdist : ∀ data, P.Sent v data →
      (Routine.perform (.dist data (P.addr i))).wp (P.serverRules owner) h fun _ h' =>
        (Routine.putBack p).wp (P.serverRules owner) h' fun _ _ => True := fun data hsent =>
    Guarded.dist_wp ⟨i, v, body, rfl, hv, hsent⟩ (Guarded.putBack_wp hp.mem_keys fun _ => trivial)
  refine single_guarded (encryptTransport_guarded hp rfl ?_ ?_ ?_)
  · exact ⟨fun hs => absurd hs continue_ne_stopError, fun _ => hdist _ (.inl rfl)⟩
  · intro k n hn
    exact ⟨fun hs => absurd hs continue_ne_stopError, fun _ => hdist _ (.inr ⟨k, n, hn, rfl⟩)⟩
  · refine fun _ msg => ⟨fun _ err => ?_, fun hs => absurd rfl hs⟩
    simp only
    rw [Prog.wp_bind]
    refine Guarded.read_wp hp ?_
    rw [Prog.wp_bind]
    refine Guarded.read_wp hp ?_
    rw [PktView.read, PktView.read, hdest]
    refine sendErr_guarded fun h₁ q hq hk₁ => Guarded.putBack_wp ?_ fun _ => trivial
    obtain ⟨c, hc, -⟩ := hp
    exact Heap.mem_keys (hk₁ _ c (fun h => hq (h ▸ Heap.mem_keys hc)) hc)

end Server

/-! ## 4. A client -/

section Client

variable {h : Heap} {i : ι}

/-- The ref that is put on a packet with a target belongs to the packet's exchange. -/
def RefFits (P : Parties ι) (owner : ι → GoString → Exchange) (i : ι) : Op → Heap → Prop
  | .call p (.metaAdd key ref), h => key = keyRef → ∀ c, (p, c) ∈ h → c.metaGet keyTarget ≠ [] →
    c.carries (P.crypto i) (owner i (Utf8.toValid ref)) = true
  | _, _ => True

/-- The rules of the client's goroutines. -/
def clientRules (P : Parties ι) (owner : ι → GoString → Exchange) (i : ι) :
    Prog.Rules Op Op.Res Heap :=
  guarded (P.clientKnows owner i) (P.RefFits owner i)

/-- The request of an exchange, with its ref. -/
def reqView (cr : Crypto) (e : Exchange) (ref dest : GoString) : PktView :=
  ⟨(JSONPkt.refMeta ref).set keyTarget e.target, Base64.encode (e.body cr), e.body cr, dest⟩

theorem exchange_eq {cr : Crypto} {e e' : Exchange} (ht : e.target = e'.target)
    (hb : e.body cr = e'.body cr) : e = e' := by
  cases e with
  | server =>
    cases e' with
    | server => rfl
    | client a' => exact absurd ht kexTargets_ne
  | client a =>
    cases e' with
    | server => exact absurd ht kexTargets_ne.symm
    | client a' =>
      simp only [Exchange.body, ipText, List.append_cancel_left_eq, List.append_cancel_right_eq] at hb
      rw [hb]

theorem target_ne_nil : (e : Exchange) → e.target ≠ []
  | .server => show Crypto.targetKeyExchangeServer ≠ [] by decide
  | .client _ => show Crypto.targetKeyExchangeClient ≠ [] by decide

/-- A ref put on the request takes the place of the one it has. -/
theorem reqView_ref (cr : Crypto) (e : Exchange) (ref ref' dest : GoString) :
    (reqView cr e ref dest).after (.metaAdd keyRef ref') = reqView cr e ref' dest := by
  have hne : keyTarget ≠ keyRef := by decide
  have hkv : ((JSONPkt.refMeta ref).set keyTarget e.target).set keyRef ref' =
      (JSONPkt.refMeta ref').set keyTarget e.target := by
    refine GoMap.ext_get? fun k => ?_
    simp only [JSONPkt.refMeta, GoMap.get?_set]
    by_cases hk : k = keyRef
    · simp [hk, hne.symm]
    · simp [hk]
  simp only [reqView, PktView.after, hkv]

theorem request_reqView {e : Exchange} {ref dest : GoString}
    (howner : owner i (Utf8.toValid ref) = e) :
    P.Request owner i (reqView (P.crypto i) e ref dest) := by
  have href : (reqView (P.crypto i) e ref dest).metaGet keyRef = ref := rfl
  refine ⟨JSONPkt.keysValid_set (keysValid_refMeta ref) (by decide) _, ?_, ?_⟩
  · rw [href, howner]
    rfl
  · rw [href, howner]
    rfl

/-- `Send` leaves the packet as the request of its exchange, with a ref of that
exchange. -/
theorem ensureRef_guarded {pkt : Nat} {e : Exchange} {ref dest : GoString}
    (hp : h.Has pkt (reqView (P.crypto i) e ref dest))
    (howner : ref ≠ [] → owner i (Utf8.toValid ref) = e) {Q : GoString → Heap → Prop}
    (hQ : ∀ ref' v h', h'.Has pkt v → P.Request owner i v → owner i (Utf8.toValid ref') = e →
      Q ref' h') :
    (UDPClient.ensureRef pkt).wp (P.clientRules owner i) h Q := by
  rw [UDPClient.ensureRef, Prog.wp_bind]
  refine Guarded.read_wp hp ?_
  rw [show (reqView (P.crypto i) e ref dest).read (.metaGet keyRef) = ref from rfl, Prog.wp_ite]
  split
  · rw [Prog.wp_bind]
    refine Guarded.genRef_wp fun ref' _ => ?_
    rw [Prog.wp_bind]
    refine Guarded.call_wp rfl hp fun h' hfits hp' _ => ?_
    have howner' : owner i (Utf8.toValid ref') = e := by
      obtain ⟨c, hc, hv⟩ := hp
      have htarget : c.metaGet keyTarget = e.target := hv.metaGet keyTarget
      have hcarries := hfits rfl c hc (htarget ▸ target_ne_nil e)
      simp only [JSONPkt.carries, Bool.and_eq_true, decide_eq_true_eq] at hcarries
      exact (exchange_eq (htarget.symm.trans hcarries.1) (hv.buff.symm.trans hcarries.2)).symm
    rw [reqView_ref] at hp'
    exact hQ ref' _ h' hp' (request_reqView howner') howner'
  · next href => exact hQ ref _ h hp (request_reqView (howner href)) (howner href)

/-- `Send` of the request. -/
theorem send_guarded {pkt k : Nat} {ref dest : GoString}
    (hp : h.Has pkt (reqView (P.crypto i) (P.exchange i k) ref dest))
    (howner : ref ≠ [] → owner i (Utf8.toValid ref) = P.exchange i k) :
    ((P.client i).send pkt (some k)).wp (P.clientRules owner i) h fun _ _ => True := by
  rw [UDPClient.send, Prog.wp_bind]
  refine ensureRef_guarded hp howner fun ref' v h' hp' hv howner' => ?_
  rw [Prog.wp_bind]
  refine Guarded.read_wp hp' ?_
  rw [Prog.wp_bind, processData, show (P.client i).data pipelineOut = [(P.crypto i).encryptTransport]
    from Crypto.extendClient_out rfl]
  have hwrite : ∀ data, P.Sent v data →
      (do Routine.perform (.writeStream data (some k))
          Routine.perform (.register ref' (some k))
          return none : Routine (Option GoString)).wp (P.clientRules owner i) h' fun _ _ => True := by
    intro data hsent
    rw [Prog.wp_bind]
    refine Guarded.writeStream_wp ⟨v, hv, hsent⟩ ?_
    rw [Prog.wp_bind]
    exact Guarded.register_wp ⟨k, rfl, howner'⟩ trivial
  refine single_guarded (encryptTransport_guarded hp' rfl ?_ ?_ ?_)
  · exact ⟨fun hs => absurd hs continue_ne_stopError, fun _ => hwrite _ (.inl rfl)⟩
  · intro key n hn
    exact ⟨fun hs => absurd hs continue_ne_stopError, fun _ => hwrite _ (.inr ⟨key, n, hn, rfl⟩)⟩
  · exact fun _ msg => ⟨fun _ err => trivial, fun hs => absurd rfl hs⟩

/-- The key of an answer, under the address of the exchange. -/
theorem key_of_asked {e : Exchange} {pk : PublicKey} {x y : Int} (hpk : P.Asked pk e)
    (hx : pk.x = some x) (hy : pk.y = some y) :
    (P.clientKnows owner i).key (e.peer P.svrAddr) (P.curve.mul (P.privKey i) (x, y)) pk := by
  have hsecret : ∀ pt, pk = PublicKey.ofNat pt → P.curve.mul (P.privKey i) (x, y) = P.secret i pt := by
    rintro pt rfl
    cases hx
    cases hy
    rfl
  cases e with
  | server =>
    exact ⟨fun _ => hsecret _ hpk, fun j hj => absurd hj.symm (P.addr_ne_svr j)⟩
  | client a =>
    exact ⟨fun ha => absurd ha hpk.1, fun j hj => hsecret _ (hpk.2 j hj)⟩

theorem processKeyExResp_guarded {e : Exchange} {resp : Nat} {c : JSONPkt}
    (hresp : (resp, c) ∈ h) (hans : P.Answers e c.data) {Q : Option GoString → Heap → Prop}
    (hQ : ∀ err h', Q err h') :
    ((P.crypto i).processKeyExResp P.jsonErr (e.peer P.svrAddr) resp).wp (P.clientRules owner i) h
      Q := by
  rw [Crypto.processKeyExResp, Prog.wp_bind]
  refine Guarded.readRaw_wp hresp ?_
  rw [show PktRead.eval c .data = c.data from rfl]
  cases hpk : pubKeyOf c.data with
  | none => exact hQ _ _
  | some pk =>
    simp only
    rw [Prog.wp_bind, Crypto.computeSharedKey]
    split
    · next x y hx hy =>
      rw [Prog.wp_pure, Prog.wp_bind]
      exact Guarded.setKeyStore_wp (key_of_asked (hans pk hpk) hx hy) fun _ => hQ _ _
    · exact Guarded.panic_wp

/-- `ServerKEx` and `ClientKEx`, behind the packet. -/
theorem exchange_guarded {pkt k : Nat} {ref dest : GoString}
    (hp : h.Has pkt ⟨JSONPkt.refMeta ref, [], [], dest⟩)
    (howner : ref ≠ [] → owner i (Utf8.toValid ref) = P.exchange i k)
    {f : Option GoString → Option GoString} :
    (do Routine.callAll pkt [.clear, .metaAdd keyTarget (P.exchange i k).target,
          .write ((P.exchange i k).body (P.crypto i)), .close]
        let _ ← (P.client i).send pkt (some k)
        let resp ← Routine.perform (.receive k)
        let err ← (P.crypto i).processKeyExResp P.jsonErr ((P.exchange i k).peer P.svrAddr) resp
        return f err : Routine (Option GoString)).wp (P.clientRules owner i) h fun _ _ => True := by
  rw [Prog.wp_bind]
  refine Guarded.callAll_wp rfl hp fun h₁ hp₁ _ => ?_
  rw [Prog.wp_bind]
  refine Prog.wp_mono (guarded_mono _ _) (fun _ h₂ _ => ?_) (send_guarded hp₁ howner)
  rw [Prog.wp_bind]
  refine Guarded.receive_wp fun resp c _ hans => ?_
  rw [Prog.wp_bind]
  exact processKeyExResp_guarded List.mem_cons_self hans fun _ _ => trivial

/-- The goroutine of an exchange. -/
theorem kex_guarded {k : Nat}
    (howner : P.ref i k ≠ [] → owner i (Utf8.toValid (P.ref i k)) = P.exchange i k) :
    (P.kex i k).wp (P.clientRules owner i) h fun _ _ => True := by
  rw [kex, Prog.wp_bind]
  refine Guarded.newPkt_clean_wp (fun c hc => hc) fun pkt h₁ _ hpkt _ => ?_
  have hex := fun f => exchange_guarded (f := f) hpkt howner
  cases he : P.exchange i k with
  | server =>
    rw [he] at hex
    simp only
    rw [Prog.wp_bind]
    exact hex _
  | client a =>
    rw [he] at hex
    simp only
    rw [Prog.wp_bind]
    exact hex _

/-- A decoded packet goes to the channel its ref is registered for, or to `Misc`. -/
theorem answer_guarded {K : Knowledge} {B : Op → Heap → Prop} {ref : GoString} {pkt : Nat}
    {c : JSONPkt} (hc : (pkt, c) ∈ h) (hmisc : K.misc c)
    (hdel : ∀ ch, K.request ref (some ch) → K.deliver ch c) :
    (UDPClient.answer ref pkt).wp (guarded K B) h fun _ _ => True := by
  rw [UDPClient.answer, Prog.wp_bind]
  refine Guarded.lookup_wp fun r hr => ?_
  have hunreg : ∀ h', (Routine.perform (.unregister ref)).wp (guarded K B) h' fun _ _ => True :=
    fun _ => Guarded.unregister_wp trivial
  rcases r with - | - | ch
  · simp only
    rw [Prog.wp_bind]
    exact Guarded.misc_wp hc hmisc (hunreg _)
  · simp only
    rw [Prog.wp_bind]
    exact Guarded.misc_wp hc hmisc (hunreg _)
  · simp only
    rw [Prog.wp_bind]
    exact Guarded.deliver_wp hc (hdel ch (hr _ rfl)) (hunreg _)

/-- The goroutine for a datagram. -/
theorem clientIncoming_guarded {data : Bytes}
    (hdata : P.Reads data fun v => ∃ body, P.Response owner i v body) :
    ((P.client i).processIncoming data).wp (P.clientRules owner i) h fun _ _ => True := by
  rw [UDPClient.processIncoming, Prog.wp_bind, processData,
    show (P.client i).data pipelineIn = [(P.crypto i).decryptTransport] from
      Crypto.extendClient_in rfl]
  refine single_guarded (decryptTransport_guarded fun buff hopened => ?_)
  refine ⟨fun hs => absurd hs continue_ne_stopError, fun _ => ?_⟩
  have hbuff := hdata buff hopened
  simp only
  rw [Prog.wp_bind]
  refine Guarded.newPkt_clean_wp (fun c hc => hc) fun pkt h₁ _ hpkt _ => ?_
  rw [Prog.wp_bind]
  refine Guarded.unmarshal_wp hpkt hbuff (fun v ⟨body, hv⟩ => ⟨hv.keys, body, hv.wire⟩)
    (fun v body c h₂ ⟨body', hv⟩ hbody hc hread hmeta _ => ?_) fun e h₂ _ _ => trivial
  obtain rfl := Base64.encode_inj (hbody.symm.trans hv.wire)
  simp only
  rw [Prog.wp_bind]
  refine Guarded.readRaw_wp hc (answer_guarded hc trivial fun ch hreq => ?_)
  obtain ⟨k, hk, howner⟩ := hreq
  cases hk
  rw [PktRead.eval, hmeta, Utf8.toValid_idem] at howner
  change P.Answers (P.exchange i ch) c.data
  rw [← howner, hread]
  exact hv.answers

theorem writeError_guarded {ch : Nat} {err : GoString} :
    (UDPClient.writeError ch err).wp (P.clientRules owner i) h fun _ _ => True := by
  rw [UDPClient.writeError, Prog.wp_bind]
  refine Guarded.newErrPkt_clean_wp (fun c hc => hc) fun p h₁ _ hp _ => ?_
  obtain ⟨c, hc, hv⟩ := hp
  rw [Prog.wp_bind]
  refine Guarded.deliver_wp hc (fun pk hpk => ?_) (Guarded.writeDone_wp trivial)
  rw [show c.data = [] from hv.buff, pubKeyOf_nil] at hpk
  cases hpk

end Client

end Parties

end Concord
