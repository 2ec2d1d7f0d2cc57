import Concord.Alone
import Concord.PipelineUses

/-!
# What the server answers

`processIncoming` of the server between two pieces of foreign code: the transforms of the
`_in_` pipeline, and the callbacks of the target. The rest of it is `accept`, which
decodes the request and makes a response for it, and `reply`, which decides what becomes of
the response (`processIncoming_parts`).

`processIncoming_contract`: whatever the foreign code does, `processIncoming` itself puts at
most one packet on `sendStream`, none only where a pipeline has asked for that, and the
packet has the request's ref and goes to the sender or where a relaying callback has said.
-/

namespace Concord

open Go

/-! ## 1. The parts of `processIncoming` -/

/-- A decoded request: the packet object, the response made for it, and what
`processIncoming` has read from the request. -/
structure Request where
  pkt : Nat
  resp : Nat
  ref : GoString
  targetName : GoString

/-- The context the callbacks are given. -/
def Request.ctx (q : Request) (sender : GoString) : TargetCtx :=
  { pkt := q.pkt, targetName := q.targetName, sender }

namespace UDPServer

/-- What a server reads from a decoded packet, and the response it makes for it. -/
def request (sender : GoString) (pkt : Nat) : Routine Request := do
  let ref ← Routine.metaGet pkt keyRef
  let resp ← Routine.newPkt ref sender
  let targetName ← Routine.metaGet pkt keyTarget
  return ⟨pkt, resp, ref, targetName⟩

/-- `processIncoming` between the two pipelines. -/
def accept (sender : GoString) : Processed → Routine (Option Request) :=
  decodeWith sender none fun pkt => do
    return some (← request sender pkt)

/-- `processIncoming` behind the callback queue. -/
def reply (sender : GoString) (q : Request) : TargetCtx × Option GoString → Routine Unit
  | (_, some err) => do
    Routine.putBack q.resp
    sendErr q.ref sender (ascii "packet pipeline error: " ++ err)
    Routine.putBack q.pkt
  | (ctx, none) => do
    dispatch ctx q.resp
    Routine.putBack q.pkt

end UDPServer

/-- What both servers do from the accepted request on. -/
def serveWith (queues : GoString → Option (List TargetCallback)) (sender : GoString)
    (reply : Request → TargetCtx × Option GoString → Routine Unit) : Option Request → Routine Unit
  | none => pure ()
  | some q => processPacket queues (q.ctx sender) q.resp >>= reply q

/-- What both servers do with a message. -/
def incomingWith (data : GoString → List BufferTransform)
    (queues : GoString → Option (List TargetCallback)) (sender : GoString)
    (reply : Request → TargetCtx × Option GoString → Routine Unit) (bin : Bytes) : Routine Unit :=
  processData data { pipelineName := pipelineIn, sender } bin >>= fun r =>
    UDPServer.accept sender r >>= serveWith queues sender reply

namespace UDPServer

/-- What follows on a decoded packet can be part of `next`, if it does nothing where the buffer is
refused. -/
theorem decodeWith_bind {α β : Type} {sender : GoString} {refused : α} {next : Nat → Routine α}
    {f : α → Routine β} {refused' : β} (hf : f refused = pure refused') (r : Processed) :
    decodeWith sender refused next r >>= f =
      decodeWith sender refused' (fun pkt => next pkt >>= f) r := by
  obtain ⟨ctx, data, err⟩ := r
  cases err with
  | some err =>
    rw [decodeWith, decodeWith, Prog.bind_assoc]
    exact congrArg (Prog.bind _) (funext fun _ => hf)
  | none =>
    by_cases hstat : ctx.stat = codeStopNoop
    · rw [decodeWith, decodeWith, if_pos hstat, if_pos hstat]
      exact hf
    · rw [decodeWith, decodeWith, if_neg hstat, if_neg hstat, Prog.bind_assoc]
      congr 1
      funext pkt
      rw [Prog.bind_assoc]
      congr 1
      funext err
      cases err with
      | some _ =>
        simp only [Prog.bind_assoc]
        exact congrArg (Prog.bind _) (funext fun _ => congrArg (Prog.bind _) (funext fun _ => hf))
      | none => rfl

/-- The servers' `processIncoming`, if what they do with a decoded packet begins with the request. -/
theorem afterServerIn_eq {queues : GoString → Option (List TargetCallback)} {sender : GoString}
    {reply : Request → TargetCtx × Option GoString → Routine Unit} {serve : Nat → Routine Unit}
    (hserve : ∀ pkt, (serve pkt >>= fun _ => Routine.putBack pkt) =
      request sender pkt >>= fun q => processPacket queues (q.ctx sender) q.resp >>= reply q)
    (r : Processed) :
    Site.afterServerIn sender serve r = accept sender r >>= serveWith queues sender reply := by
  rw [accept, decodeWith_bind (show serveWith queues sender reply none = pure () from rfl)]
  refine congrArg (decodeWith sender () · r) (funext fun pkt => (hserve pkt).trans ?_)
  rw [Prog.bind_assoc]
  rfl

theorem processIncoming_parts (svr : UDPServer) (data : Bytes) (sender : GoString) :
    svr.processIncoming data sender = incomingWith svr.data svr.queues sender (reply sender) data := by
  rw [processIncoming_site]
  refine congrArg (Prog.bind _) (funext fun r => afterServerIn_eq (fun pkt => ?_) r)
  unfold serveRequest request
  simp only [Prog.bind_assoc]
  congr 1
  funext ref
  congr 1
  funext resp
  congr 1
  funext target
  refine congrArg (Prog.bind _) (funext fun r => ?_)
  obtain ⟨ctx, err⟩ := r
  cases err with
  | some err => exact Prog.bind_assoc _ _ _
  | none => rfl

end UDPServer

/-! ## 2. Runs -/

/-- The packet an operation puts on `sendStream`. -/
def sent? : Step → Option Nat
  | ⟨.sendStream p, _⟩ => some p
  | _ => none

theorem sent?_unseen : Unseen sent? :=
  ⟨fun _ => rfl, fun _ _ => rfl, fun _ _ _ => rfl, fun _ _ _ => rfl⟩

/-- A value of the metadata of a packet object. -/
def Endpoint.metaOf (s : Endpoint) (p : Nat) (key : GoString) : GoString :=
  ((s.pkts.mem[p]?).map fun c => c.metaGet key).getD []

/-- How `processIncoming` has run: what the `_in_` pipeline has returned, the request
if there was one, what the callback queue has returned, the response's `_relay_dst` after
it, and the operations that were neither those of a transform nor those of a callback. -/
structure Course where
  piped : Processed
  request : Option Request
  queue : Option (TargetCtx × Option GoString)
  relayTo : GoString
  own : Trace

/-- What `processIncoming` itself has put on `sendStream`. -/
def Course.sent (k : Course) : List Nat := k.own.filterMap sent?

/-- A pipeline has asked for no answer, or for a relay to nowhere. -/
def Course.Silent (k : Course) : Prop :=
  (k.piped.2.2 = none ∧ k.piped.1.stat = codeStopNoop) ∨
  ∃ ctx, k.queue = some (ctx, none) ∧
    (ctx.stat = codeStopNoop ∨ ctx.stat = codeRelay ∧ k.relayTo = [])

/-- The callback queue has ended in `CodeRelay`. -/
def Course.Relays (k : Course) : Prop := ∃ ctx, k.queue = some (ctx, none) ∧ ctx.stat = codeRelay

/-- The request's ref is the one of the datagram, decoded into a new packet of the pool with the
empty ref; whatever text that packet has in its wire struct. -/
def Course.Decoded (k : Course) : Prop := ∀ q, k.request = some q →
  ∃ (e : JSONPkt) (wire : GoString), e.Shows ⟨JSONPkt.refMeta [], wire, [], []⟩ ∧
    (e.unmarshal k.piped.2.1).2 = none ∧ q.ref = (e.unmarshal k.piped.2.1).1.metaGet keyRef

/-- The run has sent at most one packet: none exactly where it was to be silent. A packet
for a datagram that was decoded has the request's ref. It goes to the sender, except after
`CodeRelay`, where it goes to the response's `_relay_dst` and names the sender as
`_relay_src`. -/
structure Course.Answers (k : Course) (sender : GoString) (s' : Endpoint) : Prop where
  once : k.sent.length ≤ 1
  silent : k.sent = [] ↔ k.Silent
  decoded : k.Decoded
  packet : ∀ p ∈ k.sent, ∃ c, s'.pkts.mem[p]? = some c ∧
    (∀ q, k.request = some q → c.metaGet keyRef = q.ref) ∧
    (¬ k.Relays → c.dest = sender) ∧
    (k.Relays → c.dest = k.relayTo ∧ c.metaGet keyRelayFrom = sender)

/-- The runs of `processIncoming` from `s` to `s'`, with the operations `tr`. -/
inductive Follows (svr : UDPServer) (data : Bytes) (sender : GoString) (s s' : Endpoint) :
    Trace → Course → Prop
  | refused {tr₁ tr₂ : Trace} {r : Processed} {s₁ : Endpoint} :
      Execs Endpoint.attended (processData svr.data { pipelineName := pipelineIn, sender } data)
        s tr₁ r s₁ →
      Execs Endpoint.attended (UDPServer.accept sender r) s₁ tr₂ none s' →
      Follows svr data sender s s' (tr₁ ++ tr₂) ⟨r, none, none, [], tr₂⟩
  | served {tr₁ tr₂ tr₃ tr₄ : Trace} {r : Processed} {s₁ s₂ s₃ : Endpoint} {q : Request}
      {o : TargetCtx × Option GoString} :
      Execs Endpoint.attended (processData svr.data { pipelineName := pipelineIn, sender } data)
        s tr₁ r s₁ →
      Execs Endpoint.attended (UDPServer.accept sender r) s₁ tr₂ (some q) s₂ →
      Execs Endpoint.attended (processPacket svr.queues (q.ctx sender) q.resp) s₂ tr₃ o s₃ →
      Execs Endpoint.attended (UDPServer.reply sender q o) s₃ tr₄ () s' →
      Follows svr data sender s s' (tr₁ ++ (tr₂ ++ (tr₃ ++ tr₄)))
        ⟨r, some q, some o, s₃.metaOf q.resp keyRelayTo, tr₂ ++ tr₄⟩

/-- Every run is one of these. -/
theorem exists_follows {svr : UDPServer} {data : Bytes} {sender : GoString} {s s' : Endpoint}
    {tr : Trace} {u : Unit}
    (h : Execs Endpoint.attended (svr.processIncoming data sender) s tr u s') :
    ∃ k, Follows svr data sender s s' tr k := by
  rw [UDPServer.processIncoming_parts] at h
  obtain ⟨tr₁, r, s₁, tr', hpipe, hrest, rfl⟩ := execs_bind.mp h
  obtain ⟨tr₂, q, s₂, tr', haccept, hserve, rfl⟩ := execs_bind.mp hrest
  cases q with
  | none =>
    obtain ⟨rfl, -, rfl⟩ := execs_pure.mp hserve
    rw [List.append_nil]
    exact ⟨_, .refused hpipe haccept⟩
  | some q =>
    obtain ⟨tr₃, o, s₃, tr₄, hqueue, hreply, rfl⟩ := execs_bind.mp hserve
    exact ⟨_, .served hpipe haccept hqueue hreply⟩

/-! ## 3. Callbacks -/

/-- A call the response writer has. -/
def PktOp.ofWriter : PktOp → Bool
  | .setDest _ | .unmarshal _ => false
  | _ => true

/-- The packet has become `d` by calls on its writer. -/
def WrittenTo (c d : JSONPkt) : Prop :=
  ∃ ops : List PktOp, (∀ op ∈ ops, op.ofWriter = true) ∧ ops.foldlM PktOp.apply c = some d

theorem WrittenTo.refl (c : JSONPkt) : WrittenTo c c := ⟨[], by simp, rfl⟩

theorem WrittenTo.trans {c d e : JSONPkt} (h : WrittenTo c d) (h' : WrittenTo d e) :
    WrittenTo c e := by
  obtain ⟨ops, hops, hd⟩ := h
  obtain ⟨ops', hops', he⟩ := h'
  refine ⟨ops ++ ops', fun op hop => ?_, ?_⟩
  · rcases List.mem_append.mp hop with hop | hop
    · exact hops op hop
    · exact hops' op hop
  · rw [List.foldlM_append, hd]
    exact he

/-- The writer does not reach the destination, and leaves the map in place. -/
theorem WrittenTo.kept {c d : JSONPkt} (h : WrittenTo c d) :
    d.dest = c.dest ∧ d.kvMeta = c.kvMeta := by
  obtain ⟨ops, hops, hd⟩ := h
  refine all_foldlM (P := fun x => x.dest = c.dest ∧ x.kvMeta = c.kvMeta)
    (C := fun _ op => op.ofWriter = true) (fun _ => hops) ?_ ⟨rfl, rfl⟩ hd
  intro op p q hop hp hq
  cases op with
  | metaAdd key val =>
    obtain ⟨r, -, rfl⟩ := Option.map_eq_some_iff.mp hq
    exact hp
  | metaClear =>
    cases hq
    rw [JSONPkt.metaClear]
    split
    · exact hp
    · exact hp
  | setDest dest => cases hop
  | unmarshal bin => cases hop
  | _ =>
    cases hq
    exact hp

/-- The response `pw` is in use in both states, has only been written to, and has kept
its ref. -/
def ResponseKept (pw : Nat) (s s' : Endpoint) : Prop :=
  ∀ c, s.pkts.mem[pw]? = some c → pw ∉ s.pkts.pool → pw ∉ s'.pkts.pool ∧
    ∃ d, s'.pkts.mem[pw]? = some d ∧ WrittenTo c d ∧ d.metaGet keyRef = c.metaGet keyRef

theorem ResponseKept.refl (pw : Nat) (s : Endpoint) : ResponseKept pw s s :=
  fun c hc hp => ⟨hp, c, hc, .refl c, rfl⟩

theorem ResponseKept.trans {pw : Nat} {s s₁ s' : Endpoint} (h : ResponseKept pw s s₁)
    (h' : ResponseKept pw s₁ s') : ResponseKept pw s s' := by
  intro c hc hp
  obtain ⟨hp₁, d, hd, hw, href⟩ := h c hc hp
  obtain ⟨hp', e, he, hw', href'⟩ := h' d hd hp₁
  exact ⟨hp', e, he, hw.trans hw', href'.trans href⟩

/-- The callback leaves `ctx.From` alone, and the ref of the response; it has nothing but
the writer of the response. -/
def KeepsResponse (cb : TargetCallback) : Prop :=
  ∀ ctx pw s tr ctx' s', Execs Endpoint.attended (cb ctx pw) s tr ctx' s' →
    ctx'.sender = ctx.sender ∧ ResponseKept pw s s'

/-- What every callback keeps, the queue keeps. -/
theorem processCallbacks_keeps {pw : Nat} {cbs : List TargetCallback}
    (hcbs : ∀ cb ∈ cbs, KeepsResponse cb) {ctx : TargetCtx} {s s' : Endpoint}
    {tr : Trace} {o : TargetCtx × Option GoString}
    (h : Execs Endpoint.attended (processCallbacks pw cbs ctx) s tr o s') :
    o.1.sender = ctx.sender ∧ ResponseKept pw s s' := by
  induction cbs generalizing ctx s tr with
  | nil =>
    obtain ⟨-, rfl, rfl⟩ := execs_pure.mp h
    exact ⟨rfl, .refl pw s'⟩
  | cons cb cbs ih =>
    obtain ⟨tr₁, ctx₁, s₁, tr₂, hcb, hrest, -⟩ := execs_bind.mp h
    obtain ⟨hsender, hresp⟩ := hcbs cb List.mem_cons_self _ _ _ _ _ _ hcb
    split at hrest
    · obtain ⟨-, rfl, rfl⟩ := execs_pure.mp hrest
      exact ⟨hsender, hresp⟩
    · split at hrest
      · obtain ⟨-, rfl, rfl⟩ := execs_pure.mp hrest
        exact ⟨hsender, hresp⟩
      · obtain ⟨hsender', hresp'⟩ := ih (fun cb hcb => hcbs cb (List.mem_cons_of_mem _ hcb)) hrest
        exact ⟨hsender'.trans hsender, hresp.trans hresp'⟩

theorem processPacket_keeps {queues : GoString → Option (List TargetCallback)}
    (hcb : ∀ name cbs, queues name = some cbs → ∀ cb ∈ cbs, KeepsResponse cb) {ctx : TargetCtx}
    {pw : Nat} {s s' : Endpoint} {tr : Trace} {o : TargetCtx × Option GoString}
    (h : Execs Endpoint.attended (processPacket queues ctx pw) s tr o s') :
    o.1.sender = ctx.sender ∧ ResponseKept pw s s' := by
  unfold processPacket at h
  split at h
  · obtain ⟨-, rfl, rfl⟩ := execs_pure.mp h
    exact ⟨rfl, .refl pw s'⟩
  · next cbs hq => exact processCallbacks_keeps (hcb _ cbs hq) h

/-! ## 4. The server's own code -/

namespace UDPServer

variable {s : Endpoint}

/-- The packet is for `dest`, with this ref. -/
def Addressed (s : Endpoint) (p : Nat) (ref dest : GoString) : Prop :=
  ∃ c, s.pkts.mem[p]? = some c ∧ c.metaGet keyRef = ref ∧ c.dest = dest

theorem Addressed.put {p q : Nat} {ref dest : GoString} (h : Addressed s p ref dest) :
    Addressed { s with pkts := s.pkts.put q } p ref dest := by
  rw [Addressed, PktPool.put_mem]
  exact h

theorem sendErr_completes (ref dest msg : GoString) :
    Completes Endpoint.attended sent? (sendErr ref dest msg) s fun o _ s' =>
      ∃ p, o = [p] ∧ Addressed s' p ref dest := by
  refine completes_bind (newErrPkt_completes Endpoint.attended_attends sent?_unseen ref dest msg) ?_
  rintro o p s₁ ⟨rfl, wire, hmade⟩
  obtain ⟨c, hc, hshows⟩ := hmade.has
  refine sendStream_completes Endpoint.attended_attends ⟨p, rfl, c, hc, ?_, hshows.dest⟩
  rw [hshows.metaGet]
  exact rfl

/-- What has become of a buffer: it was decoded into a new packet of the pool, with whatever text
that has left in its wire struct, or refused. -/
inductive Decoded (data : Bytes) (sender : GoString) (s' : Endpoint) :
    List Nat → Option Request → Prop
  | refused {e : JSONPkt} {wire : GoString} {p : Nat} :
      e.Shows ⟨JSONPkt.refMeta [], wire, [], []⟩ → (e.unmarshal data).2 ≠ none →
      Addressed s' p [] sender → Decoded data sender s' [p] none
  | begun {e : JSONPkt} {wire wire' : GoString} {q : Request} :
      e.Shows ⟨JSONPkt.refMeta [], wire, [], []⟩ → (e.unmarshal data).2 = none →
      q.ref = (e.unmarshal data).1.metaGet keyRef →
      s'.Has q.resp ⟨JSONPkt.refMeta q.ref, wire', [], sender⟩ → q.resp ∉ s'.pkts.pool →
      s'.pkts.mem[q.pkt]? = some (e.unmarshal data).1 → Decoded data sender s' [] (some q)

/-- What has become of the outcome `r` of the `_in_` pipeline, and what was sent. -/
inductive Accepted (r : Processed) (sender : GoString) (s' : Endpoint) :
    List Nat → Option Request → Prop
  | ignored : r.2.2 = none → r.1.stat = codeStopNoop → Accepted r sender s' [] none
  | refused {p : Nat} : ¬ (r.2.2 = none ∧ r.1.stat = codeStopNoop) →
      Addressed s' p [] sender → Accepted r sender s' [p] none
  | begun {q : Request} : ¬ (r.2.2 = none ∧ r.1.stat = codeStopNoop) →
      Decoded r.2.1 sender s' [] (some q) → Accepted r sender s' [] (some q)

theorem accept_decodes (sender : GoString) {ctx : TransformContext} (data : Bytes)
    (hstat : ctx.stat ≠ codeStopNoop) :
    Completes Endpoint.attended sent? (accept sender (ctx, data, none)) s
      fun o q s' => Decoded data sender s' o q := by
  have hH := Endpoint.attended_attends
  rw [accept, decodeWith, if_neg hstat]
  refine completes_bind (newPkt_completes hH sent?_unseen [] []) ?_
  rintro o pkt s₁ ⟨rfl, wire, hpkt⟩
  obtain ⟨e, he, hshows⟩ := hpkt.has
  refine completes_perform_call hH sent?_unseen he rfl ?_
  have hmem := Endpoint.getElem?_setPkt_self (d := (e.unmarshal data).1) he
  simp only [PktOp.error]
  cases hun : (e.unmarshal data).2 with
  | some err =>
    refine completes_bind (sendErr_completes [] sender _) ?_
    rintro o u s₂ ⟨p, rfl, hp⟩
    refine completes_bind (putBack_completes hH sent?_unseen (Q := fun o u s' => o = [] ∧
      Addressed s' p [] sender) ⟨rfl, hp.put⟩) ?_
    rintro o u s₃ ⟨rfl, hp⟩
    exact completes_pure (.refused hshows (by rw [hun]; exact Option.some_ne_none _) hp)
  | none =>
    refine completes_read hH sent?_unseen hmem ?_
    refine completes_bind (newPkt_completes hH sent?_unseen _ sender) ?_
    rintro o resp s₂ ⟨rfl, wire', hresp⟩
    have hthere := (hresp.keeps hmem hpkt.apart).1
    refine completes_read hH sent?_unseen hthere (completes_pure ?_)
    exact .begun hshows hun rfl hresp.has hresp.apart hthere

theorem accept_completes (sender : GoString) (r : Processed) :
    Completes Endpoint.attended sent? (accept sender r) s fun o q s' => Accepted r sender s' o q := by
  obtain ⟨ctx, data, err⟩ := r
  cases err with
  | some err =>
    refine completes_bind (sendErr_completes [] sender _) ?_
    rintro o u s₁ ⟨p, rfl, hp⟩
    exact completes_pure (.refused (by simp) hp)
  | none =>
    by_cases hstat : ctx.stat = codeStopNoop
    · rw [accept, decodeWith, if_pos hstat]
      exact completes_pure (.ignored rfl hstat)
    · refine (accept_decodes sender data hstat).mono fun o q s' hdec => ?_
      cases id hdec with
      | refused _ _ hp => exact .refused (fun h => hstat h.2) hp
      | begun _ _ _ _ _ _ => exact .begun (fun h => hstat h.2) hdec

/-- What has become of the response to `q` after the callback queue has returned `o` with
this `_relay_dst`, and what was sent. -/
inductive Replied (q : Request) (sender relayTo : GoString) (o : TargetCtx × Option GoString)
    (s' : Endpoint) : List Nat → Prop
  | kept : o.2 = none → (o.1.stat = codeStopNoop ∨ o.1.stat = codeRelay ∧ relayTo = []) →
      Replied q sender relayTo o s' []
  | error {p : Nat} : o.2 ≠ none → Addressed s' p q.ref sender → Replied q sender relayTo o s' [p]
  | relayed : o.2 = none → o.1.stat = codeRelay → relayTo ≠ [] →
      Addressed s' q.resp q.ref relayTo → s'.metaOf q.resp keyRelayFrom = sender →
      Replied q sender relayTo o s' [q.resp]
  | answered : o.2 = none → o.1.stat ≠ codeStopNoop → o.1.stat ≠ codeRelay →
      Addressed s' q.resp q.ref sender → Replied q sender relayTo o s' [q.resp]

/-- The response is closed and sent. -/
theorem closeSend_completes {p : Nat} {c : JSONPkt} (hc : s.pkts.mem[p]? = some c) :
    Completes Endpoint.attended sent? (do Routine.call p .close; Routine.perform (.sendStream p)) s
      fun o _ s' => o = [p] ∧ s'.pkts.mem[p]? = some c.close := by
  have hH := Endpoint.attended_attends
  exact completes_call hH sent?_unseen hc rfl
    (sendStream_completes hH ⟨rfl, Endpoint.getElem?_setPkt_self hc⟩)

theorem dispatch_completes {ctx : TargetCtx} {q : Request} {c : JSONPkt}
    (hc : s.pkts.mem[q.resp]? = some c) (hmeta : c.kvMeta.isSome) (href : c.metaGet keyRef = q.ref) :
    Completes Endpoint.attended sent? (dispatch ctx q.resp) s fun o _ s' =>
      c.dest = ctx.sender → Replied q ctx.sender (c.metaGet keyRelayTo) (ctx, none) s' o := by
  have hH := Endpoint.attended_attends
  unfold dispatch
  split
  · next hstat => exact putBack_completes hH sent?_unseen fun _ => .kept rfl (.inl hstat)
  next hnoop =>
  split
  · next hstat =>
    refine completes_read hH sent?_unseen hc ?_
    show Completes _ _ (if c.metaGet keyRelayTo ≠ [] then _ else _) _ _
    split
    · next hto =>
      obtain ⟨r, hr⟩ := Option.isSome_iff_exists.mp hmeta
      have hset := Endpoint.getElem?_setPkt_self (d := c.setDest (c.metaGet keyRelayTo)) hc
      have hadd : (c.setDest (c.metaGet keyRelayTo)).metaAdd keyRelayFrom ctx.sender =
          some _ := congrArg (Option.map _) hr
      refine completes_call hH sent?_unseen hc rfl (completes_call hH sent?_unseen hset hadd ?_)
      refine (closeSend_completes (Endpoint.getElem?_setPkt_self hset)).mono ?_
      rintro o u s' ⟨rfl, hp⟩ -
      refine .relayed rfl hstat hto ⟨_, hp, ?_, ?_⟩ ?_
      · have hget := JSONPkt.metaGet_metaAdd hadd keyRef
        rw [if_neg (by decide)] at hget
        exact hget.trans href
      · exact JSONPkt.metaAdd_dest hadd
      · rw [Endpoint.metaOf, hp]
        have hget := JSONPkt.metaGet_metaAdd hadd keyRelayFrom
        rw [if_pos rfl] at hget
        exact hget
    · next hto =>
      exact putBack_completes hH sent?_unseen fun _ => .kept rfl (.inr ⟨hstat, not_not.mp hto⟩)
  · next hrelay =>
    refine (closeSend_completes hc).mono ?_
    rintro o u s' ⟨rfl, hp⟩ hdest
    exact .answered rfl hnoop hrelay ⟨_, hp, href, hdest⟩

theorem Replied.put {q : Request} {sender relayTo : GoString} {o : TargetCtx × Option GoString}
    {sent : List Nat} (h : Replied q sender relayTo o s sent) (p : Nat) :
    Replied q sender relayTo o { s with pkts := s.pkts.put p } sent := by
  cases h with
  | kept herr hstat => exact .kept herr hstat
  | error herr hp => exact .error herr hp.put
  | relayed herr hstat hto hp hfrom =>
    refine .relayed herr hstat hto hp.put ?_
    rw [Endpoint.metaOf, PktPool.put_mem]
    exact hfrom
  | answered herr hnoop hrelay hp => exact .answered herr hnoop hrelay hp.put

theorem reply_completes {sender : GoString} {q : Request} {o : TargetCtx × Option GoString}
    {c : JSONPkt}
    (hc : s.pkts.mem[q.resp]? = some c) (hmeta : c.kvMeta.isSome) (href : c.metaGet keyRef = q.ref)
    (hsender : o.1.sender = sender) (hdest : c.dest = sender) :
    Completes Endpoint.attended sent? (reply sender q o) s fun sent _ s' =>
      Replied q sender (c.metaGet keyRelayTo) o s' sent := by
  have hH := Endpoint.attended_attends
  obtain ⟨ctx, err⟩ := o
  cases err with
  | some err =>
    refine completes_bind (putBack_completes hH sent?_unseen (Q := fun o _ _ => o = []) rfl) ?_
    rintro o u s₁ rfl
    refine completes_bind (sendErr_completes q.ref sender _) ?_
    rintro o u s₂ ⟨p, rfl, hp⟩
    exact putBack_completes hH sent?_unseen (.error (by simp) hp.put)
  | none =>
    cases hsender
    refine completes_bind (dispatch_completes hc hmeta href) fun o u s₁ hreplied => ?_
    refine putBack_completes hH sent?_unseen ?_
    rw [List.append_nil]
    exact (hreplied hdest).put q.pkt

end UDPServer

/-! ## 5. The contract -/

section Contract

open UDPServer

variable {svr : UDPServer} {data : Bytes} {sender : GoString} {s s' : Endpoint}
  {tr : Trace}

/-- After the callback queue the response has the ref and the destination it was made with. -/
theorem response_of_queue
    (hcb : ∀ name cbs, svr.queues name = some cbs → ∀ cb ∈ cbs, KeepsResponse cb) {q : Request}
    {wire : GoString} {o : TargetCtx × Option GoString}
    (hresp : s.Has q.resp ⟨JSONPkt.refMeta q.ref, wire, [], sender⟩) (huse : q.resp ∉ s.pkts.pool)
    (hqueue : Execs Endpoint.attended (processPacket svr.queues (q.ctx sender) q.resp) s tr o s') :
    o.1.sender = sender ∧ ∃ c, s'.pkts.mem[q.resp]? = some c ∧ c.kvMeta.isSome = true ∧
      c.metaGet keyRef = q.ref ∧ c.dest = sender := by
  obtain ⟨hsender, hkept⟩ := processPacket_keeps hcb hqueue
  obtain ⟨c, hc, hshows⟩ := hresp
  obtain ⟨-, d, hd, hw, href⟩ := hkept c hc huse
  obtain ⟨hdest, hmeta⟩ := hw.kept
  refine ⟨hsender, d, hd, ?_, ?_, hdest.trans hshows.dest⟩
  · obtain ⟨r, hr, -⟩ := hshows.kv
    rw [hmeta, hr]
    rfl
  · rw [href, hshows.metaGet]
    exact rfl

theorem Course.answers_none {k : Course} (hdec : k.Decoded) (hsent : k.sent = [])
    (hs : k.Silent) : k.Answers sender s' := by
  refine ⟨?_, ⟨fun _ => hs, fun _ => hsent⟩, hdec, fun p hp => ?_⟩
  · rw [hsent]
    exact Nat.zero_le _
  · rw [hsent] at hp
    cases hp

theorem Course.answers_one {k : Course} {p : Nat} {c : JSONPkt} (hdec : k.Decoded)
    (hsent : k.sent = [p]) (hs : ¬ k.Silent) (hc : s'.pkts.mem[p]? = some c)
    (href : ∀ q, k.request = some q → c.metaGet keyRef = q.ref)
    (hdest : ¬ k.Relays → c.dest = sender)
    (hrelay : k.Relays → c.dest = k.relayTo ∧ c.metaGet keyRelayFrom = sender) :
    k.Answers sender s' := by
  refine ⟨?_, ⟨fun h => ?_, fun h => absurd h hs⟩, hdec, fun p' hp' => ?_⟩
  · rw [hsent]
    exact le_refl _
  · rw [hsent] at h
    cases h
  · rw [hsent] at hp'
    cases List.mem_singleton.mp hp'
    exact ⟨c, hc, href, hdest, hrelay⟩

/-- Without a request there is no answer, or an error packet for the sender. -/
theorem answers_of_accepted {r : Processed}
    (haccept : Accepted r sender s' (tr.filterMap sent?) none) :
    Course.Answers ⟨r, none, none, [], tr⟩ sender s' := by
  have hdec : Course.Decoded ⟨r, none, none, [], tr⟩ := fun q hq => by cases hq
  have hrelays : ¬ Course.Relays ⟨r, none, none, [], tr⟩ := by
    rintro ⟨ctx, hq, -⟩
    cases hq
  generalize hsent : tr.filterMap sent? = sent at haccept
  cases haccept with
  | ignored herr hstat => exact Course.answers_none hdec hsent (.inl ⟨herr, hstat⟩)
  | refused hnot hp =>
    obtain ⟨c, hc, -, hdest⟩ := hp
    refine Course.answers_one hdec hsent ?_ hc (fun q hq => by cases hq) (fun _ => hdest)
      fun h => absurd h hrelays
    rintro (h | ⟨ctx, hq, -⟩)
    · exact hnot h
    · cases hq

/-- With a request it is what `reply` has made of the response. -/
theorem answers_of_replied {r : Processed} {q : Request} {o : TargetCtx × Option GoString}
    {relayTo : GoString} (hnot : ¬ (r.2.2 = none ∧ r.1.stat = codeStopNoop))
    (hdec : Course.Decoded ⟨r, some q, some o, relayTo, tr⟩)
    (hreply : Replied q sender relayTo o s' (tr.filterMap sent?)) :
    Course.Answers ⟨r, some q, some o, relayTo, tr⟩ sender s' := by
  obtain ⟨ctx, err⟩ := o
  have hsilent : Course.Silent ⟨r, some q, some (ctx, err), relayTo, tr⟩ →
      err = none ∧ (ctx.stat = codeStopNoop ∨ ctx.stat = codeRelay ∧ relayTo = []) := by
    rintro (h | ⟨ctx', hq, h⟩)
    · exact absurd h hnot
    · cases hq
      exact ⟨rfl, h⟩
  have hrelays : Course.Relays ⟨r, some q, some (ctx, err), relayTo, tr⟩ →
      err = none ∧ ctx.stat = codeRelay := by
    rintro ⟨ctx', hq, h⟩
    cases hq
    exact ⟨rfl, h⟩
  generalize hsent : tr.filterMap sent? = sent at hreply
  cases hreply with
  | kept herr hstat =>
    cases herr
    exact Course.answers_none hdec hsent (.inr ⟨ctx, rfl, hstat⟩)
  | error herr hp =>
    obtain ⟨c, hc, hcref, hdest⟩ := hp
    refine Course.answers_one hdec hsent (fun h => herr (hsilent h).1) hc (fun q' hq => ?_)
      (fun _ => hdest) fun h => absurd (hrelays h).1 herr
    cases hq
    exact hcref
  | relayed herr hstat hto hp hfrom =>
    obtain ⟨c, hc, hcref, hdest⟩ := hp
    cases herr
    refine Course.answers_one hdec hsent (fun h => ?_) hc (fun q' hq => ?_) (fun h => ?_)
      fun _ => ⟨hdest, ?_⟩
    · rcases (hsilent h).2 with hnoop | ⟨-, hnil⟩
      · exact absurd (hnoop.symm.trans hstat) (by decide)
      · exact hto hnil
    · cases hq
      exact hcref
    · exact absurd ⟨ctx, rfl, hstat⟩ h
    · rw [Endpoint.metaOf, hc] at hfrom
      exact hfrom
  | answered herr hnoop hrelay hp =>
    obtain ⟨c, hc, hcref, hdest⟩ := hp
    refine Course.answers_one hdec hsent (fun h => ?_) hc (fun q' hq => ?_) (fun _ => hdest)
      fun h => absurd (hrelays h).2 hrelay
    · rcases (hsilent h).2 with h | ⟨h, -⟩
      · exact hnoop h
      · exact hrelay h
    · cases hq
      exact hcref

/-- Once the queue has run for a request, `reply` makes of the response what `Replied` says. -/
theorem reply_of_accepted
    (hcb : ∀ name cbs, svr.queues name = some cbs → ∀ cb ∈ cbs, KeepsResponse cb) {r : Processed}
    {q : Request} {sent : List Nat} {o : TargetCtx × Option GoString}
    (hacc : Accepted r sender s sent (some q))
    (hqueue : Execs Endpoint.attended (processPacket svr.queues (q.ctx sender) q.resp) s tr o s') :
    sent = [] ∧ ¬ (r.2.2 = none ∧ r.1.stat = codeStopNoop) ∧
    (∀ relayTo own, Course.Decoded ⟨r, some q, some o, relayTo, own⟩) ∧
    Completes Endpoint.attended sent? (reply sender q o) s' fun sent _ s'' =>
      Replied q sender (s'.metaOf q.resp keyRelayTo) o s'' sent := by
  cases hacc with
  | begun hnot hdec =>
    cases hdec with
    | begun hshows hun href hresp huse hpkt =>
      obtain ⟨hsender, c, hc, hmeta, hcref, hdest⟩ := response_of_queue hcb hresp huse hqueue
      refine ⟨rfl, hnot, fun _ _ q' hq => ?_, ?_⟩
      · cases hq
        exact ⟨_, _, hshows, hun, href⟩
      · rw [Endpoint.metaOf, hc]
        exact reply_completes hc hmeta hcref hsender hdest

/-- `processIncoming` answers as it should, whatever its transforms and callbacks do, and
comes to its end if they do. -/
theorem processIncoming_contract
    (hcb : ∀ name cbs, svr.queues name = some cbs → ∀ cb ∈ cbs, KeepsResponse cb) (data : Bytes)
    (sender : GoString) (s : Endpoint) :
    (∀ tr u s', Execs Endpoint.attended (svr.processIncoming data sender) s tr u s' →
      ∃ k, Follows svr data sender s s' tr k ∧ k.Answers sender s') ∧
    ((∃ tr₁ r s₁, Execs Endpoint.attended
        (processData svr.data { pipelineName := pipelineIn, sender } data) s tr₁ r s₁ ∧
        ∀ tr₂ q s₂, Execs Endpoint.attended (accept sender r) s₁ tr₂ (some q) s₂ →
          ∃ tr₃ o s₃, Execs Endpoint.attended (processPacket svr.queues (q.ctx sender) q.resp)
            s₂ tr₃ o s₃) →
      ∃ tr u s', Execs Endpoint.attended (svr.processIncoming data sender) s tr u s') := by
  constructor
  · intro tr u s' h
    obtain ⟨k, hk⟩ := exists_follows h
    refine ⟨k, hk, ?_⟩
    cases hk with
    | @refused tr₁ tr₂ r s₁ hpipe haccept =>
      exact answers_of_accepted ((accept_completes sender r).2 _ _ _ haccept)
    | @served tr₁ tr₂ tr₃ tr₄ r s₁ s₂ s₃ q o hpipe haccept hqueue hreply =>
      obtain ⟨hsent, hnot, hdec, hreplied⟩ :=
        reply_of_accepted hcb ((accept_completes sender r).2 _ _ _ haccept) hqueue
      refine answers_of_replied hnot (hdec _ _) ?_
      rw [List.filterMap_append, hsent]
      exact hreplied.2 _ _ _ hreply
  · rintro ⟨tr₁, r, s₁, hpipe, hreturns⟩
    rw [processIncoming_parts]
    obtain ⟨tr₂, q, s₂, haccept, hacc⟩ := (accept_completes (s := s₁) sender r).execs
    cases q with
    | none =>
      exact ⟨_, (), s₂, execs_bind.mpr ⟨tr₁, r, s₁, _, hpipe,
        execs_bind.mpr ⟨tr₂, none, s₂, [], haccept, .ret () s₂, rfl⟩, rfl⟩⟩
    | some q =>
      obtain ⟨tr₃, o, s₃, hqueue⟩ := hreturns tr₂ q s₂ haccept
      obtain ⟨-, -, -, hreplied⟩ := reply_of_accepted hcb hacc hqueue
      obtain ⟨tr₄, u, s₄, hreply, -⟩ := hreplied.execs
      exact ⟨_, u, s₄, execs_bind.mpr ⟨tr₁, r, s₁, _, hpipe,
        execs_bind.mpr ⟨tr₂, some q, s₂, _, haccept,
          execs_bind.mpr ⟨tr₃, o, s₃, tr₄, hqueue, hreply, rfl⟩, rfl⟩, rfl⟩⟩

end Contract

/-! ## 6. The relay target -/

/-- The packet `relayCallback` makes: the ref and the data of the request, for the request's
`_relay_dst`, with the sender as `_relay_src`. -/
def relayView (ref dest sender : GoString) (body : Bytes) : PktView :=
  ⟨(JSONPkt.refMeta ref).set keyRelayFrom sender, Base64.encode body, body, dest⟩

/-- `relayCallback` sends one packet, and touches nothing but that. -/
theorem relayCallback_completes
    {H : Endpoint → Choice → (e : Op) → Outcome (e.Res × Endpoint)} {ω : Type}
    {obs : Step → Option ω} (hH : Attends H) (hobs : Unseen obs) {s : Endpoint}
    {ctx : TargetCtx} {c : JSONPkt} (hc : s.pkts.mem[ctx.pkt]? = some c) (pw : Nat) :
    Completes H obs (relayCallback ctx pw) s fun o ctx' s' =>
      ctx' = { ctx with stat := codeStopNoop, msg := ascii "packet forwarded" } ∧
      ∃ p s₁ body, o = (obs ⟨.sendStream p, ()⟩).toList ∧ s' = { s₁ with sending := some p } ∧
        (ctx.pkt ∉ s.pkts.pool → body = c.data) ∧
        Made s s₁ p (relayView (c.metaGet keyRef) (c.metaGet keyRelayTo) ctx.sender body) := by
  refine completes_read hH hobs hc (completes_read hH hobs hc ?_)
  refine completes_bind (newPkt_completes hH hobs _ _) ?_
  rintro o p s₁ ⟨rfl, wire, hmade⟩
  obtain ⟨d, hd, hshows⟩ := hmade.has
  obtain ⟨d₁, hd₁, hshows₁⟩ :=
    hshows.apply (show (PktOp.metaAdd keyRelayFrom ctx.sender).isEdit = true from rfl)
  have hmem₁ := Endpoint.getElem?_setPkt_self (d := d₁) hd
  refine completes_call hH hobs hd hd₁ ?_
  -- the request is there, unless the pool has handed it out as the new packet
  have hthere : ∃ e, (s₁.setPkt p d₁).pkts.mem[ctx.pkt]? = some e ∧
      (ctx.pkt ∉ s.pkts.pool → e.data = c.data) := by
    by_cases heq : ctx.pkt = p
    · exact ⟨d₁, heq ▸ hmem₁, fun huse => absurd heq (hmade.ne hc huse)⟩
    · exact ⟨c, (Endpoint.getElem?_setPkt_ne heq).trans ((hmade.others _ heq).trans hc),
        fun _ => rfl⟩
  obtain ⟨e, he, hdata⟩ := hthere
  refine completes_read hH hobs he ?_
  obtain ⟨d₂, hd₂, hshows₂⟩ := hshows₁.apply (show (PktOp.write e.data).isEdit = true from rfl)
  obtain ⟨d₃, hd₃, hshows₃⟩ := hshows₂.apply (show PktOp.close.isEdit = true from rfl)
  have hmem₂ := Endpoint.getElem?_setPkt_self (d := d₂) hmem₁
  refine completes_call hH hobs hmem₁ hd₂ (completes_call hH hobs hmem₂ hd₃ ?_)
  refine completes_bind (sendStream_completes hH
    (Q := fun o _ s' => o = (obs ⟨.sendStream p, ()⟩).toList ∧
    s' = { s₁.setPkt p d₃ with sending := some p }) ⟨rfl, ?_⟩) ?_
  · rw [Endpoint.setPkt_setPkt, Endpoint.setPkt_setPkt]
  rintro o u s₂ ⟨rfl, rfl⟩
  refine completes_pure ⟨rfl, p, _, e.data, ?_, rfl, hdata, hmade.setPkt hshows₃⟩
  rw [List.append_nil]
  rfl

/-- The relay target of every server leaves the response alone. -/
theorem relayCallback_keeps : KeepsResponse relayCallback := by
  intro ctx pw s tr ctx' s' h
  obtain ⟨ch, ref, s₁, tr', hread, -, -⟩ := execs_perform.mp h
  obtain ⟨-, c, hc, -⟩ := Endpoint.handle_read_ok (c := ch) hread
  have hdone := (relayCallback_completes Endpoint.attended_attends sent?_unseen hc pw).2 tr ctx' s' h
  obtain ⟨rfl, p, s₁, body, -, rfl, -, hmade⟩ := hdone
  refine ⟨rfl, fun d hd huse => ?_⟩
  obtain ⟨hmem, hpool⟩ := hmade.keeps hd huse
  exact ⟨hpool, d, hmem, .refl d, rfl⟩

/-- A callback that has the response relayed to an address. -/
def forwardTo (addr : GoString) : TargetCallback := fun ctx pw => do
  Routine.call pw (.metaAdd keyRelayTo addr)
  return { ctx with stat := codeRelay }

theorem forwardTo_keeps (addr : GoString) : KeepsResponse (forwardTo addr) := by
  intro ctx pw s tr ctx' s' h
  obtain ⟨ch, r, s₁, tr', hcall, hrest, -⟩ := execs_perform.mp h
  obtain ⟨c, d, hc, hd, -, rfl⟩ := Endpoint.handle_call_ok (c := ch) hcall
  obtain ⟨-, rfl, rfl⟩ := execs_pure.mp hrest
  refine ⟨rfl, fun c' hc' huse => ?_⟩
  cases hc'.symm.trans hc
  refine ⟨huse, d, Endpoint.getElem?_setPkt_self hc, ⟨[.metaAdd keyRelayTo addr], ?_, ?_⟩, ?_⟩
  · simp [PktOp.ofWriter]
  · rw [List.foldlM_cons, hd]
    rfl
  · rw [JSONPkt.metaGet_metaAdd hd, if_neg (by decide)]

/-- A server with such a target beside the relay target. -/
def forwardServer : UDPServer :=
  { UDPServer.new some with
    queues := addCallback (UDPServer.new some).queues (ascii "fwd")
      (forwardTo (ascii "10.0.0.7:7000")) }

theorem forwardServer_keeps : ∀ name cbs, forwardServer.queues name = some cbs →
    ∀ cb ∈ cbs, KeepsResponse cb := by
  intro name cbs hq cb hcb
  rcases mem_addCallback hq hcb with ⟨cbs₀, hq₀, hcb₀⟩ | rfl
  · have hnew : addCallback (fun _ => none) targetRelay relayCallback name = some cbs₀ := hq₀
    rcases mem_addCallback hnew hcb₀ with ⟨cbs₁, hq₁, -⟩ | rfl
    · cases hq₁
    · exact relayCallback_keeps
  · exact forwardTo_keeps _

/-- A queue of one callback returns when the callback does. -/
theorem processCallbacks_returns {cb : TargetCallback} {ctx : TargetCtx} {pw : Nat} {s : Endpoint}
    (h : ∃ tr ctx' s', Execs Endpoint.attended (cb ctx pw) s tr ctx' s') :
    ∃ tr o s', Execs Endpoint.attended (processCallbacks pw [cb] ctx) s tr o s' := by
  obtain ⟨tr, ctx', s', h⟩ := h
  have hrest : ∃ o, Execs Endpoint.attended
      (if ctx'.stat = codeStopError then pure (ctx', some (Fmt.errorf ctx'.msg))
        else if ctx'.stat = codeStopNoop ∨ ctx'.stat = codeStopCloseSend then pure (ctx', none)
        else processCallbacks pw [] ctx') s' [] o s' := by
    split
    · exact ⟨_, .ret _ _⟩
    · split
      · exact ⟨_, .ret _ _⟩
      · exact ⟨_, .ret _ _⟩
  obtain ⟨o, ho⟩ := hrest
  exact ⟨_, o, s', execs_bind.mpr ⟨tr, ctx', s', [], h, ho, rfl⟩⟩

/-- Its queues come to an end. -/
theorem forwardServer_returns {q : Request} {sender : GoString} {v : PktView} {c : JSONPkt}
    {s : Endpoint} (hpkt : s.pkts.mem[q.pkt]? = some c) (hresp : s.Has q.resp v) :
    ∃ tr o s', Execs Endpoint.attended
      (processPacket forwardServer.queues (q.ctx sender) q.resp) s tr o s' := by
  by_cases hfwd : q.targetName = ascii "fwd"
  · have hq : forwardServer.queues (q.ctx sender).targetName =
        some [forwardTo (ascii "10.0.0.7:7000")] := by
      rw [Request.ctx, hfwd]
      rfl
    rw [processPacket, hq]
    obtain ⟨d, hd, hshows⟩ := hresp
    obtain ⟨e, he, -⟩ := hshows.apply
      (show (PktOp.metaAdd keyRelayTo (ascii "10.0.0.7:7000")).isEdit = true from rfl)
    have hcb : Completes Endpoint.attended sent?
        (forwardTo (ascii "10.0.0.7:7000") (q.ctx sender) q.resp) s fun _ _ _ => True :=
      completes_call Endpoint.attended_attends sent?_unseen hd he (completes_pure trivial)
    exact processCallbacks_returns hcb.1
  · by_cases hrelay : q.targetName = targetRelay
    · have hq : forwardServer.queues (q.ctx sender).targetName = some [relayCallback] := by
        rw [Request.ctx, hrelay]
        rfl
      rw [processPacket, hq]
      exact processCallbacks_returns
        (relayCallback_completes Endpoint.attended_attends sent?_unseen hpkt q.resp).1
    · have hq : forwardServer.queues (q.ctx sender).targetName = none := by
        simp only [forwardServer, UDPServer.new, addCallback, Request.ctx, if_neg hfwd,
          if_neg hrelay]
      rw [processPacket, hq]
      exact ⟨[], _, s, .ret _ s⟩

def forwardDatagram : Bytes :=
  ascii "\x7b\"m\":\x7b\"_ref\":\"r1\",\"_tgt\":\"fwd\"\x7d,\"d\":\"\"\x7d"

/-- A datagram for the target: there is a run, and every run answers as it should. -/
theorem forwardServer_answers :
    (∃ tr u s', Execs Endpoint.attended
      (forwardServer.processIncoming forwardDatagram (ascii "10.0.0.5:5000")) Endpoint.init tr u s') ∧
    ∀ tr u s', Execs Endpoint.attended
      (forwardServer.processIncoming forwardDatagram (ascii "10.0.0.5:5000")) Endpoint.init tr u s' →
      ∃ k, Follows forwardServer forwardDatagram (ascii "10.0.0.5:5000") Endpoint.init s' tr k ∧
        k.Answers (ascii "10.0.0.5:5000") s' := by
  obtain ⟨hsafe, hlive⟩ := processIncoming_contract forwardServer_keeps forwardDatagram
    (ascii "10.0.0.5:5000") Endpoint.init
  refine ⟨hlive ⟨[], _, Endpoint.init, .ret _ _, fun tr₂ q s₂ haccept => ?_⟩, hsafe⟩
  have hacc := (UDPServer.accept_completes (ascii "10.0.0.5:5000") _).2 _ _ _ haccept
  generalize tr₂.filterMap sent? = sent at hacc
  cases hacc with
  | begun _ hdec =>
    cases hdec with
    | begun _ _ _ hresp _ hpkt => exact forwardServer_returns hpkt hresp

end Concord
