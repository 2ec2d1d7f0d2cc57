import Concord.Dispatch
import Concord.EndToEnd
import Concord.KeyAgreement

/-!
# A message over the relay

Client A seals the data of a packet for client B, and sends the packet to the `svr.relay`
target of the server. The server makes a packet of its own of it, which goes to B, and B
opens the data. On the way the packet is encoded and decoded twice, and each of the two
hops may be sealed under a key of its own.

`relay_end_to_end`: B has the packet with A's ref and A's address, and behind `DecryptE2E`
the data A started with. What the server makes its packet of is the sealed data.
-/

namespace Concord

open Go

/-! ## 1. What is seen from outside -/

/-- What a goroutine shows: a buffer for the client's write routine, a packet on
`sendStream`, a buffer for the server's writer, a packet offered to the application on a
response channel or on `Misc`. -/
inductive Shown where
  | wrote (data : Bytes) (respCh : Option Nat)
  | sent (p : Nat)
  | dist (data : Bytes) (addr : Addr)
  | offered (respCh : Option Nat) (p : Nat)
  deriving DecidableEq

def shown? : Step → Option Shown
  | ⟨.writeStream data respCh, _⟩ => some (.wrote data respCh)
  | ⟨.sendStream p, _⟩ => some (.sent p)
  | ⟨.dist data addr, _⟩ => some (.dist data addr)
  | ⟨.deliver respCh p, _⟩ => some (.offered (some respCh) p)
  | ⟨.misc p, _⟩ => some (.offered none p)
  | _ => none

theorem shown?_hidden : Hidden shown? where
  get _ := rfl
  put _ _ := rfl
  call _ _ _ := rfl
  read _ _ _ := rfl
  keyStore _ _ := rfl
  keySent _ _ := rfl
  setSent _ _ _ := rfl
  nonce _ := rfl

/-! ## 2. Messages -/

theorem PktView.nonceSize_le_marshal (v : PktView) : Endpoint.nonceSize ≤ v.marshal.length := by
  have hm : (Json.quoteFrom true 0 (ascii "m")).length = 1 := by decide
  have hd : (Json.quoteFrom true 0 (ascii "d")).length = 1 := by decide
  simp only [marshal, Json.render, Json.renderMembers, Json.quote, List.length_cons,
    List.length_append, List.length_nil, hm, hd, Endpoint.nonceSize]
  omega

theorem PktView.metaGet_metaAdd (v : PktView) (key val k : GoString) :
    (v.after (.metaAdd key val)).metaGet k = if k = key then val else v.metaGet k := by
  simp only [after, metaGet, GoMap.get?_set]
  split
  · rfl
  · rfl

/-- A packet that has just been made decodes a message. -/
theorem JSONPkt.Shows.decodes {c : JSONPkt} {wire dest : GoString}
    (hc : c.Shows ⟨JSONPkt.refMeta [], wire, [], dest⟩) {w : PktView}
    (hkeys : JSONPkt.KeysValid w.kv) {body : Bytes} (hbody : w.wire = Base64.encode body) :
    ∃ d, c.unmarshal w.marshal = (d, none) ∧ d.data = body ∧
      ∀ k, d.metaGet k = Utf8.toValid (w.metaGet k) := by
  obtain ⟨d, hd, hdata, hmeta⟩ := JSONPkt.unmarshal_marshal hc.wireMap hkeys hbody
  refine ⟨d, hd, hdata, fun k => ?_⟩
  rw [hmeta, PktView.metaGet]
  cases w.kv.get? k with
  | some x => rfl
  | none =>
    -- of its own the packet has an empty ref only
    rw [Option.map_none, Option.none_or, JSONPkt.refMeta, GoMap.get?_set]
    split <;> simp

theorem relayView_ref (ref dest sender : GoString) (body : Bytes) :
    (relayView ref dest sender body).metaGet keyRef = ref := by
  simp only [relayView, PktView.metaGet, JSONPkt.refMeta, GoMap.get?_set]
  rw [if_neg (by decide), if_pos trivial]
  rfl

theorem relayView_from (ref dest sender : GoString) (body : Bytes) :
    (relayView ref dest sender body).metaGet keyRelayFrom = sender := by
  simp only [relayView, PktView.metaGet, GoMap.get?_set, if_true]
  rfl

theorem relayView_keysValid (ref dest sender : GoString) (body : Bytes) :
    JSONPkt.KeysValid (relayView ref dest sender body).kv :=
  JSONPkt.keysValid_set (JSONPkt.keysValid_set JSONPkt.keysValid_empty (by decide) _) (by decide) _

section Hops

variable {H : Endpoint → Choice → (e : Op) → Outcome (e.Res × Endpoint)} {s : Endpoint}

/-! ## 3. Pipelines -/

/-- The outcome of a pipeline that has gone through with this buffer. -/
def Through (r : Processed) (data : Bytes) : Prop :=
  r.1.stat = codeContinue ∧ r.2.1 = data ∧ r.2.2 = none

theorem inPipeline_completes (hH : Attends H) {cr : Crypto} (ha : cr.aead.Proper)
    {pipelines : GoString → List BufferTransform} (hin : pipelines pipelineIn = [cr.decryptTransport])
    {sender : GoString} {k : KeyRef} (hk : s.keys.getKeyStore sender = some k)
    (hsize : aesKeySize (bigBytes k.shared).length = true) {w : PktView} {buff : Bytes}
    (hbuff : Carried cr.aead (bigBytes k.shared) w.marshal buff) :
    Completes H shown? (processData pipelines { pipelineName := pipelineIn, sender } buff) s
      fun o r s' => o = [] ∧ s' = s ∧ Through r w.marshal := by
  have hjson : Json.parse w.marshal ≠ none := by
    rw [JSONPkt.parse_view]
    exact Option.some_ne_none _
  rw [processData, hin]
  refine (processTransforms_single_completes (P := fun o data s' => o = [] ∧ s' = s ∧
    data = w.marshal) rfl ?_).mono ?_
  · refine (decryptTransport_completes hH shown?_hidden ha hk hsize hjson
      w.nonceSize_le_marshal hbuff).mono ?_
    rintro o r s' ⟨rfl, rfl, rfl⟩
    exact ⟨rfl, rfl, rfl, rfl⟩
  · rintro o ⟨ctx, data, err⟩ s' ⟨rfl, rfl, rfl, rfl, rfl⟩
    exact ⟨rfl, rfl, rfl, rfl, rfl⟩

theorem outPipeline_completes (hH : Steady H) {cr : Crypto}
    {pipelines : GoString → List BufferTransform} (hout : pipelines pipelineOut = [cr.encryptTransport])
    {p : Nat} {c : JSONPkt} (hc : s.pkts.mem[p]? = some c) {k : KeyRef}
    (hk : s.keys.getKeyStore c.dest = some k)
    (hsize : aesKeySize (bigBytes k.shared).length = true) (text : Bytes) :
    Completes H shown? (processData pipelines { pkt := some p, pipelineName := pipelineOut } text) s
      fun o r s' => o = [] ∧ SameKeys s s' ∧
        ∃ data, Through r data ∧ Carried cr.aead (bigBytes k.shared) text data := by
  rw [processData, hout]
  refine (processTransforms_single_completes (P := fun o data s' => o = [] ∧ SameKeys s s' ∧
    Carried cr.aead (bigBytes k.shared) text data) rfl ?_).mono ?_
  · refine (encryptTransport_completes hH shown?_hidden rfl hc hk hsize text).mono ?_
    rintro o r s' ⟨rfl, hsame, hctx, hcarried⟩
    exact ⟨hctx, rfl, hsame, hcarried⟩
  · rintro o ⟨ctx, data, err⟩ s' ⟨rfl, rfl, rfl, hsame, hcarried⟩
    exact ⟨rfl, hsame, data, ⟨rfl, rfl, rfl⟩, hcarried⟩

/-! ## 4. The server -/

section Server

variable {svr : UDPServer} {sender : GoString} {w : PktView} {body : Bytes}

/-- What `accept` has made of a message: the request with the message's data and
metadata, and a response. -/
structure Begun (w : PktView) (body : Bytes) (s' : Endpoint) (q : Request) : Prop where
  ref : q.ref = Utf8.toValid (w.metaGet keyRef)
  target : q.targetName = Utf8.toValid (w.metaGet keyTarget)
  pkt : ∃ d, s'.pkts.mem[q.pkt]? = some d ∧ d.data = body ∧
    ∀ k, d.metaGet k = Utf8.toValid (w.metaGet k)
  used : q.pkt ∉ s'.pkts.pool

theorem accept_decodes (hH : Attends H) (hkeys : JSONPkt.KeysValid w.kv)
    (hbody : w.wire = Base64.encode body) {r : Processed} (hr : Through r w.marshal) :
    Completes H shown? (UDPServer.accept sender r) s fun o q s' => o = [] ∧
      s' = { s with pkts := s'.pkts } ∧ ∃ q', q = some q' ∧ Begun w body s' q' := by
  have hobs := shown?_hidden.toUnseen
  obtain ⟨ctx, data, err⟩ := r
  obtain ⟨hstat, hdata, herr⟩ := hr
  obtain rfl : data = w.marshal := hdata
  obtain rfl : err = none := herr
  have hgo : ¬ ctx.stat = codeStopNoop := by
    rw [show ctx.stat = codeContinue from hstat]
    decide
  rw [UDPServer.accept, UDPServer.decodeWith, if_neg hgo]
  refine completes_bind (newPkt_completes hH hobs [] []) ?_
  rintro o pkt s₁ ⟨rfl, wire, hpkt⟩
  obtain ⟨c, hc, hshows⟩ := hpkt.has
  obtain ⟨d, hd, hdata, hmeta⟩ := hshows.decodes hkeys hbody
  have happly : PktOp.apply c (.unmarshal w.marshal) = some d := by
    rw [PktOp.apply, hd]
  refine completes_perform_call hH hobs hc happly ?_
  simp only [PktOp.error, hd]
  have hmem := Endpoint.getElem?_setPkt_self (d := d) hc
  refine completes_read hH hobs hmem (completes_bind (newPkt_completes hH hobs _ sender) ?_)
  rintro o resp s₂ ⟨rfl, wire', hresp⟩
  obtain ⟨hthere, hused⟩ := hresp.keeps hmem hpkt.apart
  refine completes_read hH hobs hthere (completes_pure ⟨rfl, ?_, _, rfl, ?_⟩)
  · rw [hresp.rest, hpkt.rest]
    rfl
  · exact ⟨hmeta keyRef, hmeta keyTarget, ⟨d, hthere, hdata, hmeta⟩, hused⟩

/-- The relay target: the server puts a packet with the message's ref and data on
`sendStream`. -/
theorem relay_completes (hH : Attends H) (hq : svr.queues targetRelay = some [relayCallback])
    {buff : Bytes}
    (hpipe : Completes H shown? (processData svr.data { pipelineName := pipelineIn, sender } buff) s
      fun o r s' => o = [] ∧ s' = s ∧ Through r w.marshal)
    (hkeys : JSONPkt.KeysValid w.kv) (hbody : w.wire = Base64.encode body)
    (htarget : w.metaGet keyTarget = targetRelay) :
    Completes H shown? (svr.processIncoming buff sender) s fun o _ s' => s'.keys = s.keys ∧
      ∃ p, o = [.sent p] ∧ s'.sending = some p ∧
        s'.Has p (relayView (Utf8.toValid (w.metaGet keyRef)) (Utf8.toValid (w.metaGet keyRelayTo))
          sender body) := by
  have hobs := shown?_hidden.toUnseen
  rw [UDPServer.processIncoming_parts]
  refine completes_bind hpipe ?_
  rintro o r s₁ ⟨rfl, rfl, hr⟩
  refine completes_bind (accept_decodes hH hkeys hbody hr) ?_
  rintro o q s₂ ⟨rfl, hrest, q, rfl, hbegun⟩
  obtain ⟨d, hd, hdata, hmeta⟩ := hbegun.pkt
  have hname : q.targetName = targetRelay := by
    rw [hbegun.target, htarget]
    decide
  show Completes H shown? (processPacket svr.queues (q.ctx sender) q.resp >>= _) s₂ _
  rw [processPacket, show (q.ctx sender).targetName = targetRelay from hname, hq]
  have hqueue : Completes H shown? (processCallbacks q.resp [relayCallback] (q.ctx sender)) s₂
      fun o r s' => r = ({ q.ctx sender with stat := codeStopNoop, msg := ascii "packet forwarded" },
        none) ∧ ∃ p s₃, o = [.sent p] ∧ s' = { s₃ with sending := some p } ∧
        Made s₂ s₃ p (relayView (d.metaGet keyRef) (d.metaGet keyRelayTo) sender body) := by
    refine completes_bind (relayCallback_completes hH hobs hd q.resp) ?_
    rintro o ctx' s' ⟨rfl, p, s₃, body', rfl, rfl, hbody', hmade⟩
    rw [hbody' hbegun.used, hdata] at hmade
    exact completes_pure ⟨rfl, p, s₃, rfl, rfl, hmade⟩
  refine completes_bind hqueue ?_
  rintro o r s' ⟨rfl, p, s₃, rfl, rfl, hmade⟩
  -- the response goes back to the pool, and so does the request
  refine completes_bind (putBack_completes hH hobs (Q := fun o _ s' => o = [] ∧ ∃ pkts, s' =
    { s₃ with sending := some p, pkts } ∧ pkts.mem = s₃.pkts.mem) ⟨rfl, _, rfl, ?_⟩) ?_
  · exact PktPool.put_mem _ _
  rintro o u s' ⟨rfl, pkts, rfl, hmem⟩
  refine putBack_completes hH hobs ⟨?_, p, rfl, rfl, ?_⟩
  · show s₃.keys = s₁.keys
    rw [hmade.keys, hrest]
  · obtain ⟨c, hc, hshows⟩ := hmade.has
    rw [hmeta, hmeta] at hshows
    refine ⟨c, ?_, hshows⟩
    rw [PktPool.put_mem]
    exact hmem ▸ hc

/-- `processOutgoing` for a destination with a key. -/
theorem outgoing_completes (hH : Steady H) {cr : Crypto}
    (hout : svr.data pipelineOut = [cr.encryptTransport]) {p : Nat} {v : PktView} (hp : s.Has p v)
    {addr : Addr} (hres : svr.resolve v.dest = some addr) {k : KeyRef}
    (hk : s.keys.getKeyStore v.dest = some k)
    (hsize : aesKeySize (bigBytes k.shared).length = true) :
    Completes H shown? (svr.processOutgoing p) s fun o _ _ =>
      ∃ data, o = [.dist data addr] ∧ Carried cr.aead (bigBytes k.shared) v.marshal data := by
  have hA := hH.toAttends
  have hobs := shown?_hidden.toUnseen
  obtain ⟨c, hc, hv⟩ := hp
  refine completes_read hA hobs hc (completes_read hA hobs hc ?_)
  rw [show PktRead.eval c .dest = v.dest from hv.dest, hres,
    show PktRead.eval c .marshal = v.marshal from hv.marshal]
  have htransmit : Completes H shown? (svr.transmit p v.marshal addr) s fun o _ _ =>
      ∃ data, o = [.dist data addr] ∧ Carried cr.aead (bigBytes k.shared) v.marshal data := by
    refine completes_bind (outPipeline_completes hH hout hc (hv.dest ▸ hk) hsize _) ?_
    rintro o ⟨ctx, data, err⟩ s₁ ⟨rfl, -, data', ⟨hstat, rfl, rfl⟩, hcarried⟩
    have hgo : ctx.stat ≠ codeStopNoop := by
      rw [show ctx.stat = codeContinue from hstat]
      decide
    simp only [if_pos hgo]
    exact perform_completes hA rfl (fun _ => rfl) ⟨data, rfl, hcarried⟩
  refine completes_bind htransmit ?_
  rintro o u s₁ ⟨data, rfl, hcarried⟩
  exact putBack_completes hA hobs ⟨data, rfl, hcarried⟩

end Server

/-! ## 5. The client -/

section Client

variable {cl : UDPClient} {w : PktView} {body : Bytes}

/-- The packet is offered on the channel registered for its ref, or on `Misc`. -/
theorem answer_completes (hH : Attends H) (ref : GoString) (pkt : Nat) :
    Completes H shown? (UDPClient.answer ref pkt) s fun o _ s' =>
      s'.pkts = s.pkts ∧ s'.keys = s.keys ∧ o = [.offered (s.requests.get? ref).join pkt] := by
  have hmisc : Completes H shown? (do Routine.perform (.misc pkt); Routine.perform (.unregister ref)) s
      fun o _ s' => s'.pkts = s.pkts ∧ s'.keys = s.keys ∧ o = [.offered none pkt] :=
    completes_plain hH rfl (fun _ => rfl)
      (perform_completes hH rfl (fun _ => rfl) ⟨rfl, rfl, rfl⟩)
  refine completes_plain hH rfl (fun _ => rfl) ?_
  cases s.requests.get? ref with
  | none => exact hmisc
  | some respCh =>
    cases respCh with
    | none => exact hmisc
    | some respCh =>
      exact completes_plain hH rfl (fun _ => rfl)
        (perform_completes hH rfl (fun _ => rfl) ⟨rfl, rfl, rfl⟩)

/-- A message that comes in is decoded and offered. -/
theorem clientIn_completes (hH : Attends H) {buff : Bytes}
    (hpipe : Completes H shown?
      (processData cl.data { pipelineName := pipelineIn, sender := cl.addr } buff) s
      fun o r s' => o = [] ∧ s' = s ∧ Through r w.marshal)
    (hkeys : JSONPkt.KeysValid w.kv) (hbody : w.wire = Base64.encode body) :
    Completes H shown? (cl.processIncoming buff) s fun o _ s' => s'.keys = s.keys ∧
      ∃ p c, o = [.offered (s.requests.get? (Utf8.toValid (w.metaGet keyRef))).join p] ∧
        s'.pkts.mem[p]? = some c ∧ c.data = body ∧
        ∀ k, c.metaGet k = Utf8.toValid (w.metaGet k) := by
  have hobs := shown?_hidden.toUnseen
  refine completes_bind hpipe ?_
  rintro o ⟨ctx, data, err⟩ s₁ ⟨rfl, rfl, -, hdata, herr⟩
  obtain rfl : data = w.marshal := hdata
  obtain rfl : err = none := herr
  refine completes_bind (newPkt_completes hH hobs [] []) ?_
  rintro o p s₂ ⟨rfl, wire, hmade⟩
  obtain ⟨c, hc, hshows⟩ := hmade.has
  obtain ⟨d, hd, hdata, hmeta⟩ := hshows.decodes hkeys hbody
  have happly : PktOp.apply c (.unmarshal w.marshal) = some d := by
    rw [PktOp.apply, hd]
  refine completes_perform_call hH hobs hc happly ?_
  simp only [PktOp.error, hd]
  have hmem := Endpoint.getElem?_setPkt_self (d := d) hc
  refine completes_read hH hobs hmem ((answer_completes hH _ p).mono ?_)
  rintro o u s' ⟨hpkts, hkeys', rfl⟩
  refine ⟨?_, p, d, ?_, hpkts ▸ hmem, hdata, hmeta⟩
  · exact hkeys'.trans hmade.keys
  · rw [PktRead.eval, hmeta keyRef, ← hmade.requests]
    rfl

/-- The ref `Send` gives to a packet that has none. -/
theorem valid_of_isRef {ref : GoString} (h : Endpoint.isRef ref = true) : Utf8.Valid ref := by
  simp only [Endpoint.isRef, Bool.and_eq_true, List.all_eq_true] at h
  refine Utf8.valid_of_ascii fun b hb => ?_
  have hchar := h.2 b hb
  simp only [Endpoint.isRefChar, Bool.or_eq_true, Bool.and_eq_true, decide_eq_true_eq] at hchar
  rcases hchar with (⟨-, h⟩ | ⟨-, h⟩) | ⟨-, h⟩
  · exact lt_of_le_of_lt h (by decide)
  · exact lt_of_le_of_lt h (by decide)
  · exact lt_of_le_of_lt h (by decide)

/-- The packet `w` that `Send` makes of `v`: it has a ref, and is otherwise the same. -/
structure Refers (v w : PktView) : Prop where
  kept : v.metaGet keyRef ≠ [] → w.metaGet keyRef = v.metaGet keyRef
  valid : Utf8.Valid (v.metaGet keyRef) → Utf8.Valid (w.metaGet keyRef)
  others : ∀ k, k ≠ keyRef → w.metaGet k = v.metaGet k
  keys : JSONPkt.KeysValid v.kv → JSONPkt.KeysValid w.kv
  wire : w.wire = v.wire
  dest : w.dest = v.dest

theorem Refers.refl (v : PktView) : Refers v v := ⟨fun _ => rfl, id, fun _ _ => rfl, id, rfl, rfl⟩

theorem Refers.metaAdd {v : PktView} (hnil : v.metaGet keyRef = []) {ref : GoString}
    (href : Utf8.Valid ref) : Refers v (v.after (.metaAdd keyRef ref)) where
  kept h := absurd hnil h
  valid _ := by
    rw [PktView.metaGet_metaAdd, if_pos rfl]
    exact href
  others k hk := by rw [PktView.metaGet_metaAdd, if_neg hk]
  keys h := JSONPkt.keysValid_set h (by decide) ref
  wire := rfl
  dest := rfl

theorem ensureRef_completes (hH : Attends H) {p : Nat} {v : PktView} (hp : s.Has p v) :
    Completes H shown? (UDPClient.ensureRef p) s fun o ref s' => o = [] ∧
      ∃ c w, s' = s.setPkt p c ∧ c.Shows w ∧ Refers v w ∧ ref = w.metaGet keyRef := by
  have hobs := shown?_hidden.toUnseen
  obtain ⟨c, hc, hv⟩ := hp
  refine completes_read hH hobs hc ?_
  rw [PktRead.eval, hv.metaGet]
  split
  · next hnil =>
    have hgen : ∀ ch r s₁, H s ch .genRef = .ok (r, s₁) → s₁ = s ∧ Endpoint.isRef r = true := by
      intro ch r s₁ hh
      rw [hH.plain s ch _ rfl] at hh
      simp only [Endpoint.handle] at hh
      split at hh
      · cases hh
      · split at hh
        · next href =>
          cases hh
          exact ⟨rfl, href⟩
        · cases hh
    have hcan : ∃ ch r s₁, H s ch .genRef = .ok (r, s₁) :=
      ⟨⟨0, some (ascii "aaaaa")⟩, ascii "aaaaa", s, hH.plain s _ _ rfl⟩
    refine completes_op hcan fun ch ref s₁ hh => ?_
    obtain ⟨rfl, href⟩ := hgen ch ref s₁ hh
    obtain ⟨d, hd, hw⟩ := hv.apply (show (PktOp.metaAdd keyRef ref).isEdit = true from rfl)
    refine completes_call hH hobs hc hd (completes_pure ⟨rfl, d, _, rfl, hw, ?_, ?_⟩)
    · exact .metaAdd hnil (valid_of_isRef href)
    · rw [PktView.metaGet_metaAdd, if_pos rfl]
  · exact completes_pure ⟨rfl, c, v, (Endpoint.setPkt_of_mem hc).symm, hv, .refl v, rfl⟩

/-- `Send` of a packet for a destination with a key. -/
theorem send_completes (hH : Steady H) {cr : Crypto}
    (hout : cl.data pipelineOut = [cr.encryptTransport]) {p : Nat} {v : PktView} (hp : s.Has p v)
    {k : KeyRef} (hk : s.keys.getKeyStore v.dest = some k)
    (hsize : aesKeySize (bigBytes k.shared).length = true) (respCh : Option Nat) :
    Completes H shown? (cl.send p respCh) s fun o r _ => r = none ∧ ∃ w data, Refers v w ∧
      o = [.wrote data respCh] ∧ Carried cr.aead (bigBytes k.shared) w.marshal data := by
  have hA := hH.toAttends
  have hobs := shown?_hidden.toUnseen
  obtain ⟨c₀, hc₀, hv⟩ := hp
  refine completes_bind (ensureRef_completes hA ⟨c₀, hc₀, hv⟩) ?_
  rintro o ref s₁ ⟨rfl, c, w, rfl, hw, hrefers, -⟩
  have hc := Endpoint.getElem?_setPkt_self (d := c) hc₀
  have hdest : c.dest = v.dest := hw.dest.trans hrefers.dest
  refine completes_read hA hobs hc ?_
  rw [show PktRead.eval c .marshal = w.marshal from hw.marshal]
  refine completes_bind (outPipeline_completes hH hout hc (hdest.symm ▸ hk) hsize _) ?_
  rintro o ⟨ctx, data, err⟩ s₂ ⟨rfl, -, data', ⟨hstat, rfl, rfl⟩, hcarried⟩
  have hgo : ¬ ctx.stat = codeStopNoop := by
    rw [show ctx.stat = codeContinue from hstat]
    decide
  simp only [if_neg hgo]
  refine completes_det (fun ch => hH.write s₂ ch data respCh) ?_
  exact completes_plain hA rfl (fun _ => rfl)
    (completes_pure ⟨rfl, w, data, hrefers, rfl, hcarried⟩)

end Client

end Hops

/-! ## 6. From end to end -/

/-- The table has an entry for the address, with this secret, which AES accepts as a key. -/
def HasKey (t : KeyTable) (addr : GoString) (secret : Nat) : Prop :=
  aesKeySize (bigBytes secret).length = true ∧
    ∃ k, t.getKeyStore addr = some k ∧ k.shared = secret

namespace Parties

variable {ι : Type} {P : Parties ι}

/-- The state of client `i` after exchanges with the server and with client `j`. -/
def ClientReady (P : Parties ι) (i j : ι) (s : Endpoint) : Prop :=
  HasKey s.keys P.svrAddr (P.secret i (P.curve.pub P.svrKey)) ∧
    HasKey s.keys (P.addr j) (P.secret i (P.curve.pub (P.privKey j)))

/-- The state of the server after an exchange with client `i`. -/
def ServerReady (P : Parties ι) (i : ι) (s : Endpoint) : Prop :=
  HasKey s.keys (P.addr i) (P.svrSecret (P.curve.pub (P.privKey i)))

theorem addr_valid (P : Parties ι) (i : ι) : Utf8.Valid (P.addr i) := by
  refine Utf8.valid_of_ascii fun b hb => ?_
  have hplain := List.all_eq_true.mp (P.addr_plain i) b hb
  simp only [isPlain, Bool.and_eq_true, decide_eq_true_eq] at hplain
  exact hplain.1

/-- The application of the sender: `EncryptE2E` for an address, and `Send`. -/
def sendSealed (cr : Crypto) (cl : UDPClient) (addr : GoString) (pkt : Nat) (respCh : Option Nat) :
    Routine (Option GoString × Option GoString) := do
  let encErr ← cr.encryptE2E addr pkt
  let sendErr ← cl.send pkt respCh
  return (encErr, sendErr)

/-- The application of the receiver: `DecryptE2E` for the address in `_relay_src`, and
`Data`. -/
def openRelayed (cr : Crypto) (pkt : Nat) : Routine (Option GoString × Bytes) := do
  let sender ← Routine.metaGet pkt keyRelayFrom
  let err ← cr.decryptE2E sender pkt
  let data ← Routine.data pkt
  return (err, data)

section EndToEnd

variable {H : Endpoint → Choice → (e : Op) → Outcome (e.Res × Endpoint)}

/-- The receiver opens what the sender has sealed. -/
theorem openRelayed_completes (hH : Attends H) (ha : P.aead.Proper) {i j : ι} {s : Endpoint}
    (hs : P.ClientReady j i s) {p : Nat} {c : JSONPkt} (hc : s.pkts.mem[p]? = some c)
    (hfrom : c.metaGet keyRelayFrom = P.addr i) {n body : Bytes}
    (hn : n.length = Endpoint.nonceSize)
    (hdata : c.data = P.aead.sealText (bigBytes (P.secret i (P.curve.pub (P.privKey j)))) n body) :
    Completes H shown? (openRelayed (P.crypto j) p) s fun _ r _ => r = (none, body) := by
  have hobs := shown?_hidden
  obtain ⟨-, hsize, k, hk, hshared⟩ := hs
  rw [← hshared] at hsize
  have hsecret : k.shared = P.secret i (P.curve.pub (P.privKey j)) :=
    hshared.trans (P.curve.mul_comm _ _)
  rw [← hsecret] at hdata
  refine completes_read hH hobs.toUnseen hc ?_
  rw [PktRead.eval, hfrom]
  refine completes_bind (decryptE2E_completes hH hobs ha hc hk hsize hn hdata) ?_
  rintro o r s' ⟨rfl, rfl, rfl⟩
  exact completes_read hH hobs.toUnseen (Endpoint.getElem?_setPkt_self hc) (completes_pure rfl)

/-- The server takes in a message of client `i` for the relay. -/
theorem relayIn_completes (hH : Attends H) (ha : P.aead.Proper)
    (hrelay : P.server.queues targetRelay = some [relayCallback]) {i j : ι} {s : Endpoint}
    (hs : P.ServerReady i s) {w : PktView} {body : Bytes} (hkeys : JSONPkt.KeysValid w.kv)
    (hwire : w.wire = Base64.encode body) (href : Utf8.Valid (w.metaGet keyRef))
    (htarget : w.metaGet keyTarget = targetRelay) (hto : w.metaGet keyRelayTo = P.addr j)
    {data : Bytes}
    (hdata : Carried P.aead (bigBytes (P.secret i (P.curve.pub P.svrKey))) w.marshal data) :
    Completes H shown? (P.server.processIncoming data (P.addr i)) s fun o _ s' =>
      ∃ q, o = [.sent q] ∧ s'.Has q (relayView (w.metaGet keyRef) (P.addr j) (P.addr i) body) := by
  obtain ⟨hsize, k, hk, hshared⟩ := hs
  rw [← hshared] at hsize
  have hsecret : k.shared = P.secret i (P.curve.pub P.svrKey) :=
    hshared.trans (P.curve.mul_comm _ _)
  rw [← hsecret] at hdata
  have hpipe := inPipeline_completes (s := s) hH (show P.svrCrypto.aead.Proper from ha)
    (Crypto.extendServer_in P.data_in) hk hsize hdata
  refine (relay_completes hH hrelay hpipe hkeys hwire htarget).mono ?_
  rintro o u s' ⟨-, q, rfl, -, hq⟩
  rw [hto, show Utf8.toValid (P.addr j) = P.addr j from P.addr_valid j,
    show Utf8.toValid (w.metaGet keyRef) = w.metaGet keyRef from href] at hq
  exact ⟨q, rfl, hq⟩

/-- It gives out a packet for client `j`. -/
theorem relayOut_completes (hH : Steady H) {i j : ι} {s : Endpoint} (hs : P.ServerReady j s) {q : Nat}
    {ref : GoString} {body : Bytes} (hq : s.Has q (relayView ref (P.addr j) (P.addr i) body)) :
    Completes H shown? (P.server.processOutgoing q) s fun o _ _ => ∃ data, o = [.dist data (P.addr j)] ∧
      Carried P.aead (bigBytes (P.secret j (P.curve.pub P.svrKey)))
        (relayView ref (P.addr j) (P.addr i) body).marshal data := by
  obtain ⟨hsize, k, hk, hshared⟩ := hs
  rw [← hshared] at hsize
  have hsecret : k.shared = P.secret j (P.curve.pub P.svrKey) :=
    hshared.trans (P.curve.mul_comm _ _)
  rw [← hsecret]
  exact outgoing_completes hH (Crypto.extendServer_out P.data_out) hq
    (P.resolve_addr j) hk hsize

/-- Client `j` takes that in. -/
theorem relayed_completes (hH : Attends H) (ha : P.aead.Proper) {i j : ι} {s : Endpoint}
    (hs : P.ClientReady j i s) {ref : GoString} (href : Utf8.Valid ref) {body data : Bytes}
    (hdata : Carried P.aead (bigBytes (P.secret j (P.curve.pub P.svrKey)))
      (relayView ref (P.addr j) (P.addr i) body).marshal data) :
    Completes H shown? ((P.client j).processIncoming data) s fun o _ s' =>
      ∃ ch q c, o = [.offered ch q] ∧ s'.pkts.mem[q]? = some c ∧ c.metaGet keyRef = ref ∧
        c.metaGet keyRelayFrom = P.addr i ∧ c.data = body := by
  obtain ⟨⟨hsize, k, hk, hshared⟩, -⟩ := hs
  rw [← hshared] at hsize hdata
  have hpipe := inPipeline_completes (s := s) hH (show (P.crypto j).aead.Proper from ha)
    (Crypto.extendClient_in (c := UDPClient.new P.svrAddr) rfl) hk hsize hdata
  refine (clientIn_completes hH hpipe (relayView_keysValid _ _ _ _) rfl).mono ?_
  rintro o u s' ⟨-, q, c, rfl, hc, hbody, hmeta⟩
  refine ⟨_, q, c, rfl, hc, ?_, ?_, hbody⟩
  · rw [hmeta, relayView_ref]
    exact href
  · rw [hmeta, relayView_from]
    exact P.addr_valid i

/-- Client `i` seals the data of a packet for client `j` and sends the packet to the relay;
the server takes it in and gives another one out, and `j` takes that in and opens it. Each of
the steps is taken in any state in which the endpoint has the keys of the exchanges, and
comes to its end there. The data section of what the server takes in is `body`, and so is
the data of what it gives out. -/
theorem relay_end_to_end (hH : Steady H) (ha : P.aead.Proper)
    (hrelay : P.server.queues targetRelay = some [relayCallback]) {i j : ι} {sA : Endpoint}
    (hA : P.ClientReady i j sA) {p : Nat} {v : PktView} (hp : sA.Has p v)
    (hkeys : JSONPkt.KeysValid v.kv) (href : Utf8.Valid (v.metaGet keyRef))
    (htarget : v.metaGet keyTarget = targetRelay) (hto : v.metaGet keyRelayTo = P.addr j)
    (hdest : v.dest = P.svrAddr) (respCh : Option Nat) :
    Completes H shown? (sendSealed (P.crypto i) (P.client i) (P.addr j) p respCh) sA fun o r _ =>
      r = (none, none) ∧ ∃ body ref data, o = [.wrote data respCh] ∧
        (v.metaGet keyRef ≠ [] → ref = v.metaGet keyRef) ∧
        (∃ n, n.length = Endpoint.nonceSize ∧
          body = P.aead.sealText (bigBytes (P.secret i (P.curve.pub (P.privKey j)))) n v.buff) ∧
        (∃ w : PktView, w.wire = Base64.encode body ∧
          Carried P.aead (bigBytes (P.secret i (P.curve.pub P.svrKey))) w.marshal data) ∧
      ∀ sS, P.ServerReady i sS →
        Completes H shown? (P.server.processIncoming data (P.addr i)) sS fun o _ sS' =>
          ∃ q, o = [.sent q] ∧ sS'.Has q (relayView ref (P.addr j) (P.addr i) body) ∧
      ∀ sS₂, P.ServerReady j sS₂ → sS₂.Has q (relayView ref (P.addr j) (P.addr i) body) →
        Completes H shown? (P.server.processOutgoing q) sS₂ fun o _ _ =>
          ∃ data', o = [.dist data' (P.addr j)] ∧
      ∀ sB, P.ClientReady j i sB →
        Completes H shown? ((P.client j).processIncoming data') sB fun o _ sB' =>
          ∃ ch q' c, o = [.offered ch q'] ∧ sB'.pkts.mem[q']? = some c ∧
            c.metaGet keyRef = ref ∧ c.metaGet keyRelayFrom = P.addr i ∧
      ∀ sB₂, P.ClientReady j i sB₂ → sB₂.pkts.mem[q']? = some c →
        Completes H shown? (openRelayed (P.crypto j) q') sB₂ fun _ r _ => r = (none, v.buff) := by
  have hobs := shown?_hidden
  obtain ⟨⟨hsizeS, kS, hkS, hsharedS⟩, hsizeJ, kJ, hkJ, hsharedJ⟩ := hA
  rw [← hsharedS] at hsizeS
  obtain ⟨c, hc, hv⟩ := hp
  refine completes_bind (encryptE2E_completes hH hobs hc hkJ
    (hsharedJ ▸ hsizeJ)) ?_
  rintro o r s₁ ⟨rfl, rfl, n, hn, rfl⟩
  rw [hsharedJ, show c.data = v.buff from hv.buff]
  generalize hseal : (P.crypto i).aead.sealText (bigBytes (P.secret i (P.curve.pub (P.privKey j)))) n
    v.buff = body
  have hhas : (sA.setPkt p (c.rewritten body)).Has p
      { v with buff := body, wire := Base64.encode body } :=
    ⟨_, Endpoint.getElem?_setPkt_self hc, hv.rewritten body⟩
  refine completes_bind (send_completes hH
    (Crypto.extendClient_out (c := UDPClient.new P.svrAddr) rfl) hhas
    (k := kS) (hdest.symm ▸ hkS) hsizeS respCh) ?_
  rintro o r s₂ ⟨rfl, w, data, hrefers, rfl, hdata⟩
  rw [hsharedS] at hdata
  have hvalid : Utf8.Valid (w.metaGet keyRef) := hrefers.valid href
  refine completes_pure ⟨rfl, body, w.metaGet keyRef, data, rfl, hrefers.kept, ⟨n, hn, hseal.symm⟩,
    ⟨w, hrefers.wire, hdata⟩, fun sS hS => ?_⟩
  have htargetW : w.metaGet keyTarget = targetRelay :=
    (hrefers.others keyTarget (by decide)).trans htarget
  have htoW : w.metaGet keyRelayTo = P.addr j := (hrefers.others keyRelayTo (by decide)).trans hto
  refine (relayIn_completes hH.toAttends ha hrelay hS (hrefers.keys hkeys) hrefers.wire hvalid
    htargetW htoW hdata).mono ?_
  rintro o u sS' ⟨q, rfl, hq⟩
  refine ⟨q, rfl, hq, fun sS₂ hS₂ hq₂ => ?_⟩
  refine (relayOut_completes hH hS₂ hq₂).mono ?_
  rintro o u s' ⟨data', rfl, hdata'⟩
  refine ⟨data', rfl, fun sB hB => ?_⟩
  refine (relayed_completes hH.toAttends ha hB hvalid hdata').mono ?_
  rintro o u sB' ⟨ch, q', c', rfl, hc', href', hfrom, hbody⟩
  refine ⟨ch, q', c', rfl, hc', href', hfrom, fun sB₂ hB₂ hc₂ => ?_⟩
  exact openRelayed_completes hH.toAttends ha hB₂ hc₂ hfrom hn (hbody.trans hseal.symm)

end EndToEnd

/-! ## 7. The exchanges -/

section Reach

variable [DecidableEq ι] {owner : ι → GoString → Exchange} {n : Net ι}
  (hideal : P.aead.Ideal) (hrefs : P.RefsOwned Utf8.toValid owner)
  (hn : Reach P Utf8.toValid owner n)

include hideal hrefs hn

/-- In every reachable state of the network of exchanges, a client that has entries for
the server and for another client is ready if AES accepts the keys. -/
theorem clientReady_of_reach {i j : ι} {a b : KeyRef}
    (ha : (n.client i).state.keys.getKeyStore P.svrAddr = some a)
    (hb : (n.client i).state.keys.getKeyStore (P.addr j) = some b)
    (hsizeA : aesKeySize (bigBytes a.shared).length = true)
    (hsizeB : aesKeySize (bigBytes b.shared).length = true) :
    P.ClientReady i j (n.client i).state := by
  have htied := tied_of_reach hideal hrefs hn
  have hA := (htied.client_key ha).1 rfl
  have hB := (htied.client_key hb).2 j rfl
  exact ⟨⟨hA ▸ hsizeA, a, ha, hA⟩, hB ▸ hsizeB, b, hb, hB⟩

/-- So is the server with an entry for a client. -/
theorem serverReady_of_reach {i : ι} {a : KeyRef}
    (ha : n.server.state.keys.getKeyStore (P.addr i) = some a)
    (hsize : aesKeySize (bigBytes a.shared).length = true) :
    P.ServerReady i n.server.state := by
  have hA := (tied_of_reach hideal hrefs hn).server_key ha
  exact ⟨hA ▸ hsize, a, ha, hA⟩

end Reach

end Parties

/-! ## 8. A message -/

theorem AEAD.transparent_proper : AEAD.transparent.Proper where
  not_json := transparent_ideal.not_json
  nonce_le {k n m} hn := by
    show _ ≤ (n ++ (keyMark k ++ m)).length
    rw [List.length_append, hn]
    exact Nat.le_add_right _ _

namespace Pair

/-- A client with the keys of the server and of the other client. -/
def client (i : Bool) : Endpoint :=
  { Endpoint.init with
    keys := (KeyTable.empty.setKeyStore pair.svrAddr
      ⟨true, pair.secret i (pair.curve.pub pair.svrKey), ⟨none, none⟩⟩).setKeyStore (pair.addr (!i))
      ⟨true, pair.secret i (pair.curve.pub (pair.privKey (!i))), ⟨none, none⟩⟩ }

/-- The server with the keys of both; only one of them was told the server's. -/
def server : Endpoint :=
  { Endpoint.init with
    keys := (KeyTable.empty.setKeyStore (pair.addr true)
      ⟨true, pair.svrSecret (pair.curve.pub (pair.privKey true)), ⟨none, none⟩⟩).setKeyStore
      (pair.addr false) ⟨false, pair.svrSecret (pair.curve.pub (pair.privKey false)), ⟨none, none⟩⟩ }

theorem client_ready (i : Bool) : pair.ClientReady i (!i) (client i) := by
  cases i with
  | true => exact ⟨⟨by decide +kernel, _, rfl, rfl⟩, by decide +kernel, _, rfl, rfl⟩
  | false => exact ⟨⟨by decide +kernel, _, rfl, rfl⟩, by decide +kernel, _, rfl, rfl⟩

theorem server_ready (i : Bool) : pair.ServerReady i server := by
  cases i with
  | true => exact ⟨by decide +kernel, _, rfl, rfl⟩
  | false => exact ⟨by decide +kernel, _, rfl, rfl⟩

/-- What the sender does to compose the packet. -/
def helloOps : List PktOp :=
  newPktOps (ascii "r1") pair.svrAddr ++ [.metaAdd keyTarget targetRelay,
    .metaAdd keyRelayTo (pair.addr false), .write (ascii "hello")]

def helloView : PktView := helloOps.foldl PktView.after ⟨GoMap.empty, [], [], []⟩

theorem helloView_keysValid : JSONPkt.KeysValid helloView.kv := by
  have hvalid := JSONPkt.keysValid_empty
  exact JSONPkt.keysValid_set (JSONPkt.keysValid_set (JSONPkt.keysValid_set hvalid (by decide) _)
    (by decide) _) (by decide) _

theorem exists_sender : ∃ s, pair.ClientReady true false s ∧ s.Has 0 helloView := by
  have hops : ∀ op ∈ helloOps, op.isEdit = true := by
    intro op hop
    rcases List.mem_append.mp hop with hop | hop
    · exact isEdit_newPktOps _ _ op hop
    · simp only [List.mem_cons, List.not_mem_nil, or_false] at hop
      rcases hop with rfl | rfl | rfl <;> rfl
  obtain ⟨c, -, hshows⟩ := JSONPkt.shows_new.applyAll hops
  exact ⟨{ client true with pkts := ⟨[c], [], by simp⟩ }, client_ready true, c, rfl, hshows⟩

end Pair

open Pair in
/-- The five runs of one message, and what the receiver reads in the end. -/
theorem hello_relayed :
    ∃ sA trA s₁ data, Execs Endpoint.steady (Parties.sendSealed (pair.crypto true) (pair.client true)
        (pair.addr false) 0 none) sA trA (none, none) s₁ ∧ trA.filterMap shown? = [.wrote data none] ∧
      ∃ trS s₂ q, Execs Endpoint.steady (pair.server.processIncoming data (pair.addr true)) server
        trS () s₂ ∧ trS.filterMap shown? = [.sent q] ∧
      ∃ trO s₃ data', Execs Endpoint.steady (pair.server.processOutgoing q)
        { server with pkts := s₂.pkts } trO () s₃ ∧
        trO.filterMap shown? = [.dist data' (pair.addr false)] ∧
      ∃ trB s₄ ch q', Execs Endpoint.steady ((pair.client false).processIncoming data') (client false)
        trB () s₄ ∧ trB.filterMap shown? = [.offered ch q'] ∧
      ∃ tr s₅, Execs Endpoint.steady (Parties.openRelayed (pair.crypto false) q')
        { client false with pkts := s₄.pkts } tr (none, ascii "hello") s₅ := by
  obtain ⟨sA, hA, hp⟩ := exists_sender
  have hrun := Parties.relay_end_to_end Endpoint.steady_steady AEAD.transparent_proper
    (P := pair) rfl hA hp helloView_keysValid (by decide +kernel) (by decide +kernel)
    (by decide +kernel) (by decide +kernel) none
  obtain ⟨trA, r, s₁, hsend, rfl, body, ref, data, hdata, -, -, -, hS⟩ := hrun.execs
  obtain ⟨trS, u, s₂, hin, q, hq, hhas, hO⟩ := (hS server (server_ready true)).execs
  have hserver : pair.ServerReady false { server with pkts := s₂.pkts } := server_ready false
  obtain ⟨trO, u, s₃, hout, data', hdata', hB⟩ := (hO _ hserver hhas).execs
  obtain ⟨trB, u, s₄, hrecv, ch, q', c, hoff, hc, -, -, hopen⟩ :=
    (hB (client false) (client_ready false)).execs
  have hclient : pair.ClientReady false true { client false with pkts := s₄.pkts } :=
    client_ready false
  obtain ⟨tr, r, s₅, hlast, rfl⟩ := (hopen _ hclient hc).execs
  exact ⟨sA, trA, s₁, data, hsend, hdata, trS, s₂, q, hin, hq, trO, s₃, data', hout, hdata', trB, s₄,
    ch, q', hrecv, hoff, tr, s₅, hlast⟩

end Concord
