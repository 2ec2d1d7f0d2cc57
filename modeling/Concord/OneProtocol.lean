import Concord.Go.Seen
import Concord.Dispatch

/-!
# The TCP server and the UDP server

A connection of the TCP server and the UDP server get the same message. An observer sees the
`From` that each transform and each callback is given, and the packets that are enqueued.

`same_protocol_iff`: they look the same exactly if the peer's address is the one the TCP server
listens on, and a response that a callback wants to have relayed is for that address already, with
the peer as `_relay_src`.
-/

namespace Concord

open Go

/-! ## 1. What an observer sees -/

/-- A key is looked up for an address, or a packet is enqueued. -/
inductive Seen where
  | asked (addr : GoString)
  | sent (dest : GoString) (kv : Option Meta) (data : Bytes)

/-- The address it is about. -/
def Seen.addr : Seen → GoString
  | .asked addr => addr
  | .sent dest _ _ => dest

def seenOp (s : Endpoint) : Op → List Seen
  | .getKeyStore addr => [.asked addr]
  | .sendStream p => (s.pkts.mem[p]?.map fun c => Seen.sent c.dest c.kvMap c.data).toList
  | _ => []

/-- A transform that looks up the key for its `From` first, as `decryptTransport` does. -/
def watchTransform (t : BufferTransform) : BufferTransform := fun ctx data => do
  let _ ← Routine.perform (.getKeyStore ctx.sender)
  t ctx data

/-- A callback that looks up the key for its `From` first. -/
def watchCallback (cb : TargetCallback) : TargetCallback := fun ctx pw => do
  let _ ← Routine.perform (.getKeyStore ctx.sender)
  cb ctx pw

def watchData (data : GoString → List BufferTransform) : GoString → List BufferTransform :=
  fun name => (data name).map watchTransform

def watchQueues (queues : GoString → Option (List TargetCallback)) :
    GoString → Option (List TargetCallback) :=
  fun name => (queues name).map (List.map watchCallback)

namespace TCPServer

/-- The server with stages that show their `From`. -/
def watched (svr : TCPServer) : TCPServer := ⟨watchData svr.data, watchQueues svr.queues, svr.addr⟩

/-- The UDP server with the same stages, watched. -/
def watchedUDP (svr : TCPServer) (resolve : GoString → Option Addr) : UDPServer :=
  ⟨watchData svr.data, watchQueues svr.queues, resolve⟩

/-- A message from a peer looks the same on a connection and on the UDP server with the same
pipelines, in every world. -/
def SameProtocol (svr : TCPServer) (resolve : GoString → Option Addr) (data : Bytes) (peer : Addr)
    (s : Endpoint) : Prop :=
  ∀ cs, (svr.watched.processIncoming data).seen Endpoint.attended seenOp cs s =
    ((svr.watchedUDP resolve).processIncoming data peer).seen Endpoint.attended seenOp cs s

/-! ## 2. The parts of `processIncoming` -/

/-- `processIncoming` of a connection behind the callback queue. -/
def reply (addr : Addr) (q : Request) : TargetCtx × Option GoString → Routine Unit
  | (_, some err) => do
    Routine.putBack q.resp
    UDPServer.sendErr q.ref addr (ascii "packet pipeline error: " ++ err)
    Routine.putBack q.pkt
  | (ctx, none) => do
    if ctx.stat = codeStopNoop then
      Routine.putBack q.resp
    else
      Routine.call q.resp .close
      Routine.perform (.sendStream q.resp)
    Routine.putBack q.pkt

end TCPServer

theorem TCPServer.processIncoming_eq (svr : TCPServer) (bin : Bytes) :
    svr.processIncoming bin =
      incomingWith svr.data svr.queues svr.addr (TCPServer.reply svr.addr) bin := by
  rw [processIncoming_site]
  refine congrArg (Prog.bind _) (funext fun r => UDPServer.afterServerIn_eq (fun pkt => ?_) r)
  unfold serveRequest UDPServer.request
  simp only [Prog.bind_assoc]
  congr 1
  funext ref
  congr 1
  funext resp
  congr 1
  funext target
  refine congrArg (Prog.bind _) (funext fun r => ?_)
  obtain ⟨ctx, err⟩ := r
  cases err with
  | some err => exact Prog.bind_assoc _ _ _
  | none =>
    by_cases hstat : ctx.stat = codeStopNoop
    · simp only [TCPServer.reply, if_pos hstat]
    · simp only [TCPServer.reply, if_neg hstat]
      exact Prog.bind_assoc _ _ _

/-! ## 3. Watching changes nothing -/

theorem attended_getKeyStore (s : Endpoint) (addr : GoString) (c : Choice) :
    s.attended c (.getKeyStore addr) = .ok (s.keys.getKeyStore addr, s) := rfl

theorem ends_watchTransform {t : BufferTransform} {ctx : TransformContext} {bin : Bytes}
    {s s' : Endpoint} {r : TransformContext × Bytes} :
    Ends Endpoint.attended (watchTransform t ctx bin) s r s' ↔
      Ends Endpoint.attended (t ctx bin) s r s' :=
  ends_det (attended_getKeyStore s ctx.sender)

theorem ends_watchCallback {cb : TargetCallback} {ctx ctx' : TargetCtx} {pw : Nat}
    {s s' : Endpoint} :
    Ends Endpoint.attended (watchCallback cb ctx pw) s ctx' s' ↔
      Ends Endpoint.attended (cb ctx pw) s ctx' s' :=
  ends_det (attended_getKeyStore s ctx.sender)

theorem ends_processTransforms_watch {ts : List BufferTransform} {ctx : TransformContext}
    {bin : Bytes} {s s' : Endpoint} {r : Processed} :
    Ends Endpoint.attended (processTransforms (ts.map watchTransform) ctx bin) s r s' ↔
      Ends Endpoint.attended (processTransforms ts ctx bin) s r s' := by
  induction ts generalizing ctx bin s with
  | nil => rfl
  | cons t ts ih =>
    rw [List.map_cons, processTransforms, processTransforms, ends_bind, ends_bind]
    refine exists_congr fun b => exists_congr fun s₁ => and_congr ends_watchTransform ?_
    simp only
    split
    · rfl
    · split
      · rfl
      · exact ih

theorem ends_processCallbacks_watch {cbs : List TargetCallback} {ctx : TargetCtx} {pw : Nat}
    {s s' : Endpoint} {o : TargetCtx × Option GoString} :
    Ends Endpoint.attended (processCallbacks pw (cbs.map watchCallback) ctx) s o s' ↔
      Ends Endpoint.attended (processCallbacks pw cbs ctx) s o s' := by
  induction cbs generalizing ctx s with
  | nil => rfl
  | cons cb cbs ih =>
    rw [List.map_cons, processCallbacks, processCallbacks, ends_bind, ends_bind]
    refine exists_congr fun b => exists_congr fun s₁ => and_congr ends_watchCallback ?_
    split
    · rfl
    · split
      · rfl
      · exact ih

theorem ends_processPacket_watch {queues : GoString → Option (List TargetCallback)}
    {ctx : TargetCtx} {pw : Nat} {s s' : Endpoint} {o : TargetCtx × Option GoString} :
    Ends Endpoint.attended (processPacket (watchQueues queues) ctx pw) s o s' ↔
      Ends Endpoint.attended (processPacket queues ctx pw) s o s' := by
  unfold processPacket watchQueues
  cases queues ctx.targetName with
  | none => rfl
  | some cbs => exact ends_processCallbacks_watch

/-! ## 4. The same address -/

/-- The response is addressed the way a relay to its `_relay_dst` would address it. -/
def RelayedAlready (c : JSONPkt) (sender : GoString) : Prop :=
  c.metaGet keyRelayTo ≠ [] ∧ c.dest = c.metaGet keyRelayTo ∧
    ∃ m, c.kvMap = some m ∧ m.get? keyRelayFrom = some sender

/-- Whenever the callback queue for this message ends in `CodeRelay`, the response is
addressed that way. -/
def TCPServer.NothingToRelay (svr : TCPServer) (bin : Bytes) (s : Endpoint) : Prop :=
  ∀ r s₁ q s₂ ctx s₃ c,
    Ends Endpoint.attended
      (processData svr.data { pipelineName := pipelineIn, sender := svr.addr } bin) s r s₁ →
    Ends Endpoint.attended (UDPServer.accept svr.addr r) s₁ (some q) s₂ →
    Ends Endpoint.attended (processPacket svr.queues (q.ctx svr.addr) q.resp) s₂ (ctx, none) s₃ →
    ctx.stat = codeRelay → s₃.pkts.mem[q.resp]? = some c → RelayedAlready c ctx.sender

section Reply

variable {s : Endpoint} {p : Nat} {c : JSONPkt} {cs : Nat → Choice}

/-- A call on a packet is not seen. -/
theorem seen_call {α : Type} {d : JSONPkt} {op : PktOp} {f : Unit → Routine α}
    (hc : s.pkts.mem[p]? = some c) (hd : op.apply c = some d) :
    (Routine.call p op >>= f).seen Endpoint.attended seenOp cs s =
      (f ()).seen Endpoint.attended seenOp (later cs) (s.setPkt p d) :=
  Prog.seen_det (f := fun _ => f ()) (Endpoint.handle_call hc hd)

/-- A call that panics, or on a packet that is not there. -/
theorem seen_call_none {α : Type} {op : PktOp} {f : Unit → Routine α}
    (h : s.pkts.mem[p]?.bind op.apply = none) :
    (Routine.call p op >>= f).seen Endpoint.attended seenOp cs s = [] := by
  refine Prog.seen_stuck (f := fun _ => f ()) fun ch => ?_
  simp only [Endpoint.attended, Endpoint.handle]
  cases hp : s.pkts.mem[p]? with
  | none => exact .inl rfl
  | some c =>
    rw [hp, Option.bind_some] at h
    simp only [h]
    exact .inr trivial

theorem seen_metaGet_none {α : Type} {key : GoString} {f : GoString → Routine α}
    (h : s.pkts.mem[p]? = none) :
    (Routine.metaGet p key >>= f).seen Endpoint.attended seenOp cs s = [] := by
  refine Prog.seen_stuck fun ch => .inl ?_
  simp only [Endpoint.attended, Endpoint.handle, h]

theorem seen_metaGet {α : Type} {key : GoString} {f : GoString → Routine α}
    (hc : s.pkts.mem[p]? = some c) :
    (Routine.metaGet p key >>= f).seen Endpoint.attended seenOp cs s =
      (f (c.metaGet key)).seen Endpoint.attended seenOp (later cs) s :=
  Prog.seen_det (Endpoint.handle_read hc (.metaGet key))

theorem seen_put {α : Type} {f : Unit → Routine α} :
    (Routine.putBack p >>= f).seen Endpoint.attended seenOp cs s =
      (f ()).seen Endpoint.attended seenOp (later cs) { s with pkts := s.pkts.put p } :=
  Prog.seen_det (fun _ => rfl)

theorem seen_putBack : (Routine.putBack p).seen Endpoint.attended seenOp cs s = [] := rfl

/-- The packet is closed and enqueued, and another put back. -/
theorem seen_closeSend {q : Nat} (hc : s.pkts.mem[p]? = some c) :
    (do
      Routine.call p .close
      Routine.perform (.sendStream p)
      Routine.putBack q : Routine Unit).seen Endpoint.attended seenOp cs s =
      [.sent c.dest c.kvMap c.data] := by
  rw [seen_call hc rfl]
  have hsend : ∀ ch, (s.setPkt p c.close).attended ch (.sendStream p) =
      .ok ((), { s.setPkt p c.close with sending := some p }) := fun _ => rfl
  refine (Prog.seen_det hsend).trans ?_
  rw [seen_putBack, List.append_nil, seenOp, Endpoint.getElem?_setPkt_self hc]
  rfl

theorem kvMap_metaAdd {d : JSONPkt} {key val : GoString} (h : c.metaAdd key val = some d) :
    ∃ m, c.kvMap = some m ∧ d.kvMap = some (m.set key val) := by
  obtain ⟨r, hr, rfl⟩ := Option.map_eq_some_iff.mp h
  obtain ⟨m, hm⟩ := JSONPkt.maps_kvMeta hr
  refine ⟨m, (JSONPkt.kvMap_some hr).trans hm, ?_⟩
  rw [JSONPkt.kvMap_some (p := c.modifyMap r _) hr]
  rw [JSONPkt.maps_modifyMap, if_pos rfl, hm]
  rfl

theorem metaAdd_data {d : JSONPkt} {key val : GoString} (h : c.metaAdd key val = some d) :
    d.data = c.data := by
  obtain ⟨r, -, rfl⟩ := Option.map_eq_some_iff.mp h
  rfl

theorem set_eq_self_iff {m : Meta} {key val : GoString} :
    m.set key val = m ↔ m.get? key = some val := by
  constructor
  · intro h
    have hget := GoMap.get?_set m key key val
    rw [if_pos rfl, h] at hget
    exact hget
  · intro h
    refine GoMap.ext_get? fun k => ?_
    rw [GoMap.get?_set]
    split
    · next hk => rw [hk, h]
    · rfl

/-- What is seen of the end of the UDP server for a response that is to be relayed. -/
theorem seen_relay {q : Nat} {ctx : TargetCtx} (hstat : ctx.stat = codeRelay)
    (hc : s.pkts.mem[p]? = some c) :
    [.sent c.dest c.kvMap c.data] = (UDPServer.dispatch ctx p >>= fun _ =>
        Routine.putBack q).seen Endpoint.attended seenOp cs s ↔
      RelayedAlready c ctx.sender := by
  unfold UDPServer.dispatch
  rw [if_neg (by rw [hstat]; decide), if_pos hstat, Prog.bind_assoc, seen_metaGet hc]
  by_cases hto : c.metaGet keyRelayTo ≠ []
  · rw [if_pos hto]
    simp only [Prog.bind_assoc]
    rw [seen_call hc rfl]
    have hset := Endpoint.getElem?_setPkt_self (d := c.setDest (c.metaGet keyRelayTo)) hc
    cases hadd : (c.setDest (c.metaGet keyRelayTo)).metaAdd keyRelayFrom ctx.sender with
    | none =>
      -- with a nil map the relay panics
      rw [seen_call_none (by rw [hset]; exact hadd)]
      refine iff_of_false (List.cons_ne_nil _ _) fun ⟨_, _, m, hm, _⟩ => ?_
      have hnil : c.kvMeta = none := Option.map_eq_none_iff.mp hadd
      rw [JSONPkt.kvMap_none hnil] at hm
      cases hm
    | some d =>
      have happly : PktOp.apply (c.setDest (c.metaGet keyRelayTo))
          (.metaAdd keyRelayFrom ctx.sender) = some d := hadd
      rw [seen_call hset happly, seen_closeSend (Endpoint.getElem?_setPkt_self hset)]
      obtain ⟨m, hm, hd⟩ := kvMap_metaAdd hadd
      have hkv : c.kvMap = some m := hm
      rw [List.cons.injEq, Seen.sent.injEq, JSONPkt.metaAdd_dest hadd, metaAdd_data hadd, hd, hkv,
        Option.some.injEq]
      constructor
      · rintro ⟨⟨hdest, hmap, -⟩, -⟩
        exact ⟨hto, hdest, m, hkv, set_eq_self_iff.mp hmap.symm⟩
      · rintro ⟨-, hdest, m', hm', hfrom⟩
        cases hkv.symm.trans hm'
        exact ⟨⟨hdest, (set_eq_self_iff.mpr hfrom).symm, rfl⟩, rfl⟩
  · rw [if_neg hto, seen_put, seen_putBack]
    exact iff_of_false (List.cons_ne_nil _ _) fun h => hto h.1

/-- Behind the callback queue the two servers differ in a relay only. -/
theorem reply_seen_iff {q : Request} {o : TargetCtx × Option GoString} {sender : GoString} :
    (∀ cs, (TCPServer.reply sender q o).seen Endpoint.attended seenOp cs s =
      (UDPServer.reply sender q o).seen Endpoint.attended seenOp cs s) ↔
    ∀ ctx c, o = (ctx, none) → ctx.stat = codeRelay → s.pkts.mem[q.resp]? = some c →
      RelayedAlready c ctx.sender := by
  obtain ⟨ctx, err⟩ := o
  cases err with
  | some err => exact iff_of_true (fun _ => rfl) fun _ _ h => by cases h
  | none =>
    by_cases hrelay : ctx.stat = codeRelay
    · have hnoop : ctx.stat ≠ codeStopNoop := by
        rw [hrelay]
        decide
      have htcp : TCPServer.reply sender q (ctx, none) =
          (do Routine.call q.resp .close; Routine.perform (.sendStream q.resp);
              Routine.putBack q.pkt) := by
        rw [TCPServer.reply, if_neg hnoop]
      rw [htcp]
      cases hc : s.pkts.mem[q.resp]? with
      | none =>
        refine iff_of_true (fun cs => ?_) fun _ _ _ _ h => by cases h
        rw [seen_call_none (by rw [hc]; rfl), UDPServer.reply, UDPServer.dispatch, if_neg hnoop,
          if_pos hrelay, Prog.bind_assoc, seen_metaGet_none hc]
      | some c =>
        simp only [seen_closeSend hc]
        constructor
        · rintro h ctx' c' heq - hc'
          cases heq
          cases hc'
          exact (seen_relay hrelay hc).mp (h fun _ => default)
        · intro h cs
          exact (seen_relay hrelay hc).mpr (h ctx c rfl hrelay rfl)
    · refine iff_of_true (fun cs => ?_) fun _ _ heq hstat => by
        cases heq
        exact absurd hstat hrelay
      have hsame : TCPServer.reply sender q (ctx, none) = UDPServer.reply sender q (ctx, none) := by
        rw [TCPServer.reply, UDPServer.reply, UDPServer.dispatch, if_neg hrelay]
        by_cases hnoop : ctx.stat = codeStopNoop
        · rw [if_pos hnoop, if_pos hnoop]
        · rw [if_neg hnoop, if_neg hnoop]
          exact (Prog.bind_assoc _ _ _).symm
      rw [hsame]

end Reply

/-- Two servers at the same address. -/
theorem same_address_iff (svr : TCPServer) (resolve : GoString → Option Addr) (bin : Bytes)
    (s : Endpoint) : svr.SameProtocol resolve bin svr.addr s ↔ svr.NothingToRelay bin s := by
  unfold TCPServer.SameProtocol
  rw [TCPServer.processIncoming_eq, UDPServer.processIncoming_parts]
  refine Prog.seen_bind_congr.trans ?_
  constructor
  · intro h r s₁ q s₂ ctx s₃ c hr hq hctx hstat hc
    have hserve :=
      Prog.seen_bind_congr.mp (h r s₁ (ends_processTransforms_watch.mpr hr)) (some q) s₂ hq
    have hreply := Prog.seen_bind_congr.mp hserve (ctx, none) s₃ (ends_processPacket_watch.mpr hctx)
    exact reply_seen_iff.mp hreply ctx c rfl hstat hc
  · intro h r s₁ hr
    refine Prog.seen_bind_congr.mpr fun q s₂ hq => ?_
    cases q with
    | none => exact fun _ => rfl
    | some q =>
      refine Prog.seen_bind_congr.mpr fun o s₃ ho => reply_seen_iff.mpr fun ctx c heq hstat hc => ?_
      subst heq
      exact h r s₁ q s₂ ctx s₃ c (ends_processTransforms_watch.mp hr) hq
        (ends_processPacket_watch.mp ho) hstat hc

/-! ## 5. Other addresses -/

/-- The operation is not observed. -/
def Op.unseen : Op → Bool
  | .getKeyStore _ | .sendStream _ => false
  | _ => true

theorem seenOp_unseen (e : Op) (he : e.unseen = true) (s : Endpoint) : seenOp s e = [] := by
  cases e with
  | getKeyStore addr => cases he
  | sendStream p => cases he
  | _ => rfl

section Other

variable {s : Endpoint} {sender : GoString}

/-- What is seen first is about this address. -/
abbrev FirstAbout {α : Type} (sender : GoString) (x : Routine α) (s : Endpoint)
    (Q : α → Endpoint → Prop) : Prop :=
  Prog.First Endpoint.attended seenOp (fun y => y.addr = sender) x s Q

variable {α : Type} {Q : α → Endpoint → Prop}

theorem newPkt_first (ref dest : GoString) :
    FirstAbout sender (Routine.newPkt ref dest) s fun p s' =>
      ∃ wire, Made s s' p ⟨JSONPkt.refMeta ref, wire, [], dest⟩ := by
  have hnew := newPkt_completes (s := s) Endpoint.attended_attends sent?_unseen ref dest
  exact Prog.first_of_allOps seenOp_unseen (Routine.newPkt_allOps rfl fun _ _ _ => rfl) hnew.1
    fun tr p s' h => (hnew.2 tr p s' h).2

theorem newErrPkt_first (ref dest msg : GoString) :
    FirstAbout sender (Routine.newErrPkt ref dest msg) s fun p s' =>
      ∃ wire, Made s s' p ⟨JSONPkt.errMeta ref msg, wire, [], dest⟩ := by
  have hnew := newErrPkt_completes (s := s) Endpoint.attended_attends sent?_unseen ref dest msg
  exact Prog.first_of_allOps seenOp_unseen (Routine.newErrPkt_allOps rfl fun _ _ _ => rfl) hnew.1
    fun tr p s' h => (hnew.2 tr p s' h).2

/-- An operation that is not observed, with a determined result. -/
theorem first_det {e : Op} {r : e.Res} {s' : Endpoint} {f : e.Res → Routine α}
    (he : e.unseen = true) (hh : ∀ ch, s.attended ch e = .ok (r, s'))
    (hf : FirstAbout sender (f r) s' Q) : FirstAbout sender (Routine.perform e >>= f) s Q := by
  have hperform : FirstAbout sender (Routine.perform e) s fun r' t => r' = r ∧ t = s' := by
    refine Prog.first_of_allOps seenOp_unseen ⟨he, fun _ => trivial⟩ ?_ fun tr r' t h => ?_
    · exact ⟨_, r, s', execs_perform.mpr ⟨default, r, s', [], hh default, .ret r s', rfl⟩⟩
    · obtain ⟨ch, hh'⟩ := ends_perform.mp ⟨tr, h⟩
      cases (hh ch).symm.trans hh'
      exact ⟨rfl, rfl⟩
  refine Prog.first_bind hperform ?_
  rintro _ _ ⟨rfl, rfl⟩
  exact hf

/-- A packet for this address is enqueued. -/
theorem send_first {p : Nat} {c : JSONPkt} {f : Unit → Routine α} (hc : s.pkts.mem[p]? = some c)
    (hdest : c.dest = sender) :
    FirstAbout sender (Routine.perform (.sendStream p) >>= f) s Q := by
  refine Prog.first_op (y := .sent c.dest c.kvMap c.data) (fun _ => rfl) ?_ hdest
  rw [seenOp, hc]
  rfl

theorem sendErr_first {f : Unit → Routine α} (ref msg : GoString) :
    FirstAbout sender (UDPServer.sendErr ref sender msg >>= f) s Q := by
  unfold UDPServer.sendErr
  rw [Prog.bind_assoc]
  refine Prog.first_bind (newErrPkt_first ref sender msg) ?_
  rintro p s₁ ⟨wire, hmade⟩
  obtain ⟨c, hc, hshows⟩ := hmade.has
  exact send_first hc hshows.dest

/-- The first stage of a pipeline shows the address. -/
theorem asked_first {f : Option KeyRef → Routine α} :
    FirstAbout sender (Routine.perform (.getKeyStore sender) >>= f) s Q :=
  Prog.first_op (y := .asked sender) (attended_getKeyStore s sender) rfl rfl

/-- Something is seen of the end of `processIncoming`, first about this address: where the
callback queue has failed, or has left the context as it was. -/
structure ShowsSender (sender : GoString)
    (reply : Request → TargetCtx × Option GoString → Routine Unit) : Prop where
  failed : ∀ q ctx err s, FirstAbout sender (reply q (ctx, some err)) s fun _ _ => False
  answered : ∀ q ctx s c, ctx.stat = codeContinue → s.pkts.mem[q.resp]? = some c →
    c.dest = sender → FirstAbout sender (reply q (ctx, none)) s fun _ _ => False

theorem serve_first {queues : GoString → Option (List TargetCallback)}
    {reply : Request → TargetCtx × Option GoString → Routine Unit} (hreply : ShowsSender sender reply)
    {q : Request} {c : JSONPkt} (hc : s.pkts.mem[q.resp]? = some c) (hdest : c.dest = sender) :
    FirstAbout sender (serveWith (watchQueues queues) sender reply (some q)) s fun _ _ => False := by
  show FirstAbout sender (processPacket (watchQueues queues) (q.ctx sender) q.resp >>= reply q) s _
  unfold processPacket watchQueues
  cases queues (q.ctx sender).targetName with
  | none => exact hreply.failed q _ _ s
  | some cbs =>
    cases cbs with
    | nil => exact hreply.answered q _ s c rfl hc hdest
    | cons cb cbs => exact asked_first

/-- A message without transforms: it is refused, or there is a response for the sender. -/
theorem accept_first {ctx : TransformContext} (hstat : ctx.stat ≠ codeStopNoop) (bin : Bytes) :
    FirstAbout sender (UDPServer.accept sender (ctx, bin, none)) s fun o s' =>
      ∃ q c, o = some q ∧ s'.pkts.mem[q.resp]? = some c ∧ c.dest = sender := by
  rw [UDPServer.accept, UDPServer.decodeWith, if_neg hstat]
  refine Prog.first_bind (newPkt_first [] []) ?_
  rintro pkt s₁ ⟨wire, hmade⟩
  obtain ⟨c, hc, -⟩ := hmade.has
  have hc₁ := Endpoint.getElem?_setPkt_self (d := (c.unmarshal bin).1) hc
  refine first_det rfl (Endpoint.handle_call hc rfl) ?_
  simp only [PktOp.error]
  cases (c.unmarshal bin).2 with
  | some err => exact sendErr_first _ _
  | none =>
    refine first_det rfl (Endpoint.handle_read hc₁ _) ?_
    refine Prog.first_bind (newPkt_first _ sender) ?_
    rintro resp s₂ ⟨wire, hresp⟩
    obtain ⟨d, hd, hshows⟩ := hresp.has
    refine first_det rfl (Endpoint.handle_read (hresp.keeps hc₁ hmade.apart).1 _) ?_
    exact Prog.first_pure ⟨_, d, rfl, hd, hshows.dest⟩

theorem incoming_first {data : GoString → List BufferTransform}
    {queues : GoString → Option (List TargetCallback)}
    {reply : Request → TargetCtx × Option GoString → Routine Unit} (hreply : ShowsSender sender reply)
    (bin : Bytes) :
    FirstAbout sender (incomingWith (watchData data) (watchQueues queues) sender reply bin) s
      fun _ _ => False := by
  unfold incomingWith processData watchData
  cases data pipelineIn with
  | cons t ts => exact asked_first
  | nil =>
    have haccept : FirstAbout sender
        (UDPServer.accept sender ({ pipelineName := pipelineIn, sender }, bin, none)) s _ :=
      accept_first (show codeContinue ≠ codeStopNoop by decide) bin
    refine Prog.first_bind (x := UDPServer.accept sender _) haccept ?_
    rintro _ s₁ ⟨q, c, rfl, hc, hdest⟩
    exact serve_first hreply hc hdest

theorem tcpReply_shows : ShowsSender sender (TCPServer.reply sender) where
  failed q ctx err s := first_det rfl (fun _ => rfl) (sendErr_first _ _)
  answered q ctx s c hstat hc hdest := by
    rw [TCPServer.reply, if_neg (by rw [hstat]; decide)]
    exact first_det rfl (Endpoint.handle_call hc rfl)
      (send_first (Endpoint.getElem?_setPkt_self hc) hdest)

theorem udpReply_shows : ShowsSender sender (UDPServer.reply sender) where
  failed q ctx err s := first_det rfl (fun _ => rfl) (sendErr_first _ _)
  answered q ctx s c hstat hc hdest := by
    rw [UDPServer.reply, UDPServer.dispatch, if_neg (by rw [hstat]; decide),
      if_neg (by rw [hstat]; decide)]
    exact first_det rfl (Endpoint.handle_call hc rfl)
      (send_first (Endpoint.getElem?_setPkt_self hc) hdest)

end Other

/-- The two servers look the same for a message exactly if the peer has the address the TCP server
listens on, and a response that is to be relayed is addressed to that end already. -/
theorem same_protocol_iff (svr : TCPServer) (resolve : GoString → Option Addr) (bin : Bytes)
    (peer : Addr) (s : Endpoint) :
    svr.SameProtocol resolve bin peer s ↔ peer = svr.addr ∧ svr.NothingToRelay bin s := by
  constructor
  · intro h
    have hpeer : peer = svr.addr := by
      unfold TCPServer.SameProtocol at h
      rw [TCPServer.processIncoming_eq, UDPServer.processIncoming_parts] at h
      obtain ⟨y, htcp, hudp⟩ := Prog.first_unique (incoming_first tcpReply_shows bin)
        (incoming_first udpReply_shows bin) h
      exact hudp.symm.trans htcp
    subst hpeer
    exact ⟨rfl, (same_address_iff svr resolve bin s).mp h⟩
  · rintro ⟨rfl, h⟩
    exact (same_address_iff svr resolve bin s).mpr h

/-- A server without stages. -/
def bareTCP : TCPServer := TCPServer.new (ascii "10.0.0.9:9000")

/-- A server with a target that has its response relayed. -/
def forwardTCP : TCPServer :=
  { bareTCP with
    queues := addCallback (fun _ => none) (ascii "fwd") (forwardTo (ascii "10.0.0.7:7000")) }

/-- A malformed message is answered to another address, and a relay is not made, not even if the
addresses are the same. -/
theorem tcp_server_differs :
    ¬ bareTCP.SameProtocol some [] (ascii "10.0.0.5:5000") Endpoint.init ∧
    ¬ forwardTCP.SameProtocol some forwardDatagram forwardTCP.addr Endpoint.init := by
  constructor
  · intro h
    have haddr := congrArg (List.map Seen.addr) (h fun _ => default)
    exact absurd haddr (by decide +kernel)
  · intro h
    have haddr := congrArg (List.map Seen.addr) (h fun _ => default)
    exact absurd haddr (by decide +kernel)

end Concord
