import Concord.Go.Spending
import Concord.Relay
import Concord.RemoteCalls

/-!
# The goroutines of a caller

1. What a service sends is a packet whose data was written with `Close`
   (`Service.Handles.committed`). What a courteous service sends is relayed, or goes back to where
   the request came from with the ref of the request (`Service.Handles.traced`).
2. What a client has written and what it may offer a packet for, from its log (`Outbox`): a
   datagram that has come in, or a call whose write has failed.
3. The proof system of a client. It is stated for the calls `made` that the client will have made
   in the end. A request that is registered under a ref is for a call with that ref, so if there
   is only one, a packet that is delivered answers it. A goroutine has one token for what it was
   started for, and spends it when it offers a packet.
-/

namespace Concord

open Go

/-! ## 1. What a service sends -/

/-- The packet is for the same receiver and has the same ref. -/
structure PktView.Follows (v w : PktView) : Prop where
  dest : w.dest = v.dest
  ref : w.metaGet keyRef = v.metaGet keyRef

namespace PktView

theorem Follows.refl (v : PktView) : v.Follows v := ⟨rfl, rfl⟩

theorem Follows.trans {u v w : PktView} (h : u.Follows v) (h' : v.Follows w) : u.Follows w :=
  ⟨h'.dest.trans h.dest, h'.ref.trans h.ref⟩

/-- A call of the response writer, but for `Clear` on the metadata and a new ref. -/
theorem follows_after {v : PktView} {op : PktOp} (hop : op.ofWriter = true) (hclear : op ≠ .metaClear)
    (href : ∀ val, op ≠ .metaAdd keyRef val) : v.Follows (v.after op) := by
  refine ⟨?_, ?_⟩
  · cases op with
    | setDest dest => cases hop
    | _ => rfl
  · cases op with
    | metaAdd key val =>
      rw [metaGet_metaAdd, if_neg]
      rintro rfl
      exact href val rfl
    | metaClear => exact absurd rfl hclear
    | _ => rfl

end PktView

/-- The callbacks of a courteous service leave the receiver and the ref of the response alone. -/
theorem runHandlers_follows {hs : List Handler} (hhs : ∀ h ∈ hs, h.Courteous) {ctx : HandlerCtx}
    {x x' : Transaction} {r : HandlerCtx × Option GoString}
    (h : Ends Transaction.handle (runHandlers hs ctx) x r x') :
    r.1.sender = ctx.sender ∧ x.resp.Follows x'.resp := by
  induction hs generalizing ctx x with
  | nil =>
    obtain ⟨rfl, rfl⟩ := ends_pure.mp h
    exact ⟨rfl, .refl _⟩
  | cons hd rest ih =>
    obtain ⟨ctx₁, x₁, hd₁, hrest⟩ := ends_bind.mp h
    obtain ⟨f, hf, rfl⟩ := hhs hd List.mem_cons_self
    obtain ⟨r₁, x₂, hf₁, hret⟩ := ends_bind.mp hd₁
    obtain ⟨rfl, rfl⟩ := ends_pure.mp hret
    have hfollows : x.resp.Follows x₁.resp := by
      refine hf₁.keeps (I := fun y => x.resp.Follows y.resp) (fun {s s' c e r} he hs hh => ?_) (hf ctx)
        (.refl _)
      cases e with
      | compose op =>
        cases hh
        exact hs.trans (PktView.follows_after op.2 he.1 he.2)
      | _ =>
        cases hh
        exact hs
    split at hrest
    · obtain ⟨rfl, rfl⟩ := ends_pure.mp hrest
      exact ⟨rfl, hfollows⟩
    · split at hrest
      · obtain ⟨rfl, rfl⟩ := ends_pure.mp hrest
        exact ⟨rfl, hfollows⟩
      · obtain ⟨hsender, hrest⟩ := ih (fun h hh => hhs h (List.mem_cons_of_mem _ hh)) hrest
        exact ⟨hsender, hfollows.trans hrest⟩

/-- The packet is relayed, or goes back to the sender with the given ref. -/
def PktView.Returns (w : PktView) (sender ref : GoString) : Prop :=
  w.metaGet keyRelayFrom ≠ [] ∨ w.dest = sender ∧ w.metaGet keyRef = ref

namespace Service

variable {svc : Service} {sender : GoString}

theorem get?_refMeta (ref : GoString) : (JSONPkt.refMeta ref).get? keyRef = some ref := by
  rw [JSONPkt.refMeta, GoMap.get?_set, if_pos rfl]

theorem errorView_ref (ref dest msg : GoString) (stale : Bytes) :
    (errorView ref dest msg stale).metaGet keyRef = ref := by
  simp only [PktView.metaGet, errorView, JSONPkt.errMeta, GoMap.get?_set,
    if_neg (show keyRef ≠ keySvrStatus by decide), if_neg (show keyRef ≠ keySvrMsg by decide),
    get?_refMeta, Option.getD_some]

/-- The callbacks of a service, courteous or not, leave the response as `Close` or `NewPkt` has
left it. -/
theorem Runs.committed {req : PktView} {r : HandlerCtx × Option GoString} {resp : PktView}
    (h : svc.Runs sender req r resp) : resp.Committed := by
  obtain ⟨req', h⟩ := h
  refine h.keeps (I := fun y => y.resp.Committed) (fun {s s' c e r} _ hs hh => ?_)
    (Prog.allOps_of_forall (P := fun _ => True) (fun _ => trivial) _) ⟨[], rfl⟩
  cases e with
  | compose op =>
    cases hh
    exact PktView.after_committed hs _
  | _ =>
    cases hh
    exact hs

theorem composed_committed {ctx : HandlerCtx} {resp w : PktView} (hresp : resp.Committed)
    (h : composed ctx resp = some w) : w.Committed := by
  unfold composed at h
  split at h
  · cases h
  · split at h
    · split at h
      · cases h
        exact PktView.after_committed (PktView.after_committed (PktView.after_committed hresp _) _) _
      · cases h
    · cases h
      exact PktView.after_committed hresp _

theorem Replies.committed {req : PktView} {v : Option PktView} (h : svc.Replies sender req v)
    {w : PktView} (hw : v = some w) : w.Committed := by
  cases h with
  | served _ _ hruns => exact composed_committed hruns.committed hw
  | _ =>
    cases hw
    exact ⟨_, rfl⟩

/-- What is sent for a datagram has its data from `Close`. -/
theorem Handles.committed {q : Bytes × GoString} {w : PktView} (h : svc.Handles q (some w)) :
    w.Committed := by
  cases h with
  | malformed stale hbin => exact ⟨_, rfl⟩
  | request hwire hreplies => exact hreplies.committed rfl

/-- A datagram that answers another is a packet of the service. -/
theorem Answers.packet {q : Bytes × GoString} {out : Bytes × Addr} (h : svc.Answers q (some out)) :
    ∃ w : PktView, svc.Handles q (some w) ∧ out.1 = w.marshal ∧ svc.resolve w.dest = some out.2 := by
  obtain ⟨v, hhandles, hout⟩ := h
  obtain ⟨w, rfl, hw⟩ := Option.bind_eq_some_iff.mp hout.symm
  obtain ⟨addr, haddr, rfl⟩ := Option.map_eq_some_iff.mp hw
  exact ⟨w, hhandles, rfl, haddr⟩

theorem composed_traced {ctx : HandlerCtx} {resp w : PktView} (hctx : ctx.sender ≠ [])
    (h : composed ctx resp = some w) : w.Returns resp.dest (resp.metaGet keyRef) := by
  unfold composed at h
  split at h
  · cases h
  · split at h
    · split at h
      · cases h
        refine .inl ?_
        rw [show ∀ v : PktView, (v.after .close).metaGet keyRelayFrom = v.metaGet keyRelayFrom from
          fun _ => rfl, PktView.metaGet_metaAdd, if_pos rfl]
        exact hctx
      · cases h
    · cases h
      exact .inr ⟨rfl, rfl⟩

/-- What is sent for a request. -/
theorem Replies.traced (hsvc : svc.Courteous) (hsender : sender ≠ []) {req : PktView}
    {v : Option PktView} (h : svc.Replies sender req v) {w : PktView} (hw : v = some w) :
    w.Returns sender (req.metaGet keyRef) := by
  cases h with
  | forwarded htarget =>
    cases hw
    refine .inl ?_
    rw [PktView.metaGet, forwardView, GoMap.get?_set, if_pos rfl]
    exact hsender
  | unknown stale => cases hw; exact .inr ⟨rfl, errorView_ref _ _ _ _⟩
  | failed stale => cases hw; exact .inr ⟨rfl, errorView_ref _ _ _ _⟩
  | @served ctx resp _ _ hruns =>
    obtain ⟨req', hruns⟩ := hruns
    obtain ⟨hctx, hfollows⟩ := runHandlers_follows (fun h hh => by
      obtain ⟨t, ht, rfl⟩ := List.mem_map.mp hh
      exact hsvc t (List.mem_filter.mp ht).1) hruns
    have hctx : ctx.sender = sender := hctx
    have hret := composed_traced (hctx ▸ hsender) hw
    rw [hfollows.dest, hfollows.ref] at hret
    rwa [show PktView.metaGet ⟨JSONPkt.refMeta (req.metaGet keyRef), [], [], sender⟩ keyRef =
      req.metaGet keyRef by rw [PktView.metaGet, get?_refMeta]; rfl] at hret

/-- What is sent for the bytes of a packet. -/
theorem Handles.traced (hsvc : svc.Courteous) (hsender : sender ≠ []) {data : Bytes} {w : PktView}
    (h : svc.Handles (data, sender) (some w)) :
    w.Returns sender (if Json.parse data = none then [] else callRef data) := by
  cases h with
  | malformed stale hbin =>
    rw [if_pos hbin]
    exact .inr ⟨rfl, errorView_ref _ _ _ _⟩
  | @request u body _ _ hwire hreplies =>
    rw [if_neg (by rw [JSONPkt.parse_view]; exact fun h => nomatch h), callRef_marshal,
      ← metaGet_decodedView u body [] keyRef_ascii]
    exact hreplies.traced hsvc hsender rfl

end Service

/-! ## 2. The log of a client -/

/-- What a packet is offered for. -/
inductive Offer where
  | answer (data : Bytes)
  | failure (ch : Nat)
  deriving DecidableEq

/-- What a log says of the write routine: the call that is being written, those that were
written, and all there is to offer packets for. -/
structure Outbox where
  writing : Option (Bytes × Option Nat)
  sent : List (Bytes × Option Nat)
  offers : List Offer

namespace Outbox

variable {α : Type}

/-- A failed write is reported on the channel of the call, if it has one. -/
def failures (o : Outbox) : List Offer := (o.writing.bind Prod.snd).toList.map .failure

def step (o : Outbox) : Entry Op Op.Res (UDPClient.Env α) → Outbox
  | .act _ (.writeStream data ch) _ => { o with writing := some (data, ch) }
  | .env (.datagram data) => { o with offers := o.offers ++ [.answer data] }
  | .env .wrote => { o with writing := none, sent := o.sent ++ o.writing.toList }
  | .env (.writeFailed _) => { o with writing := none, offers := o.offers ++ o.failures }
  | _ => o

end Outbox

section Outboxes

variable {α : Type} {log : List (Entry Op Op.Res (UDPClient.Env α))}

def outbox (log : List (Entry Op Op.Res (UDPClient.Env α))) : Outbox :=
  log.foldl Outbox.step ⟨none, [], []⟩

theorem outbox_snoc (log : List (Entry Op Op.Res (UDPClient.Env α)))
    (x : Entry Op Op.Res (UDPClient.Env α)) : outbox (log ++ [x]) = (outbox log).step x := by
  simp [outbox]

/-- An operation of a goroutine writes nothing, and gives nothing to offer. -/
theorem outbox_act {s st : Endpoint} {c : Choice} {i : Nat} {e : Op} {r : e.Res}
    (hw : (outbox log).writing = s.writing) (hh : s.handle c e = .ok (r, st)) :
    (outbox (log ++ [.act i e r])).writing = st.writing ∧
      (outbox (log ++ [.act i e r])).offers = (outbox log).offers := by
  rw [outbox_snoc]
  cases e with
  | writeStream data ch =>
    simp only [Endpoint.handle] at hh
    split at hh
    · cases hh
    · cases hh
      exact ⟨rfl, rfl⟩
  | receive ch =>
    simp only [Endpoint.handle] at hh
    split at hh
    · cases hh
    · cases hh
      exact ⟨hw, rfl⟩
  | writeDone | register | unregister | deliver =>
    cases hh
    exact ⟨hw, rfl⟩
  | _ => exact ⟨hw.trans ((Endpoint.handle_frame hh).2.2.2 rfl).1.symm, rfl⟩

theorem offered_snoc (log : List (Entry Op Op.Res (UDPClient.Env α)))
    (x : Entry Op Op.Res (UDPClient.Env α)) :
    UDPClient.offered (log ++ [x]) = UDPClient.offered log ++ (UDPClient.offerOf x).toList := by
  rw [UDPClient.offered, List.filterMap_append]
  cases h : UDPClient.offerOf x <;> simp [h, UDPClient.offered]

theorem incoming_snoc (log : List (Entry Op Op.Res (UDPClient.Env α)))
    (x : Entry Op Op.Res (UDPClient.Env α)) :
    UDPClient.incoming (log ++ [x]) = UDPClient.incoming log ++ (UDPClient.incomingOf x).toList := by
  rw [UDPClient.incoming, List.filterMap_append]
  cases h : UDPClient.incomingOf x <;> simp [h, UDPClient.incoming]

end Outboxes

/-! ## 3. The client -/

/-- A buffer is handed to the write routine, and `G` is known of it. -/
theorem Guarded.writeStream_known {K : Knowledge} {G : Op → Heap → Prop} {h : Heap} {data : Bytes}
    {ch : Option Nat} {Q : Unit → Heap → Prop} (hw : K.write data ch)
    (hQ : G (.writeStream data ch) h → Q () h) :
    (Routine.perform (.writeStream data ch)).wp (guarded K G) h Q :=
  ⟨hw, hQ⟩

namespace Deployment

variable {ι : Type}

section Client

variable (D : Deployment ι) (i : ι) (made : Bytes × Option Nat → Prop)

/-- On a client: a request is for a call with its ref, and what is delivered is a response. -/
def callerKnows : Knowledge where
  get c := c.Sound
  send _ := True
  dist _ _ := True
  key _ _ _ := True
  write data _ := ∃ u : PktView, u.Committed ∧ data = u.marshal
  request ref ch := ∃ data, made (data, ch) ∧ callRef data = Utf8.toValid ref
  deliver ch c := ∃ v, c.Shows v ∧ v.Committed ∧
    (D.svc.Courteous → OneCallPerRef made → D.Response i made ch v)
  misc c := ∃ v, c.Shows v ∧ v.Committed

/-- The client makes no other calls. -/
def Keeps (e : Op) (_ : Heap) : Prop := ∀ data ch, e = .writeStream data ch → made (data, ch)

/-- A packet is offered on a channel for a datagram with the ref of a call on it, or for the
failed write of such a call. -/
def Pays (ch : Nat) : Offer → Prop
  | .answer data => ∃ x, made (x, some ch) ∧ callRef x = callRef data
  | .failure ch' => ch' = ch

def offerPrice : Op → Option (Offer → Prop)
  | .deliver ch _ => some (Pays made ch)
  | _ => none

/-- What a courteous service sends the client is relayed, or answers one of its calls with the
ref of the call. -/
def Answering (w : PktView) : Prop :=
  D.svc.Courteous → w.metaGet keyRelayFrom ≠ [] ∨
    ∃ req ch, made (req, ch) ∧ D.svc.Handles (req, D.addr i) (some w) ∧
      Utf8.toValid (w.metaGet keyRef) = callRef req

/-- A datagram the client may be handed. -/
def Incoming (data : Bytes) : Prop :=
  ∃ w : PktView, data = w.marshal ∧ w.Committed ∧ D.Answering i made w

end Client

variable {D : Deployment ι} {i : ι} {made : Bytes × Option Nat → Prop} {h : Heap}
  {p : Nat} {v : PktView}

theorem send_legible (D : Deployment ι) (pkt : Nat) (ch : Option Nat) :
    (D.client.send pkt ch).AllOps Op.legible := by
  refine Prog.allOps_bind ?_ fun ref => Prog.allOps_op trivial fun bin => ?_
  · refine Prog.allOps_op trivial fun ref => Prog.allOps_ite (fun _ => ?_) fun _ => trivial
    exact Prog.allOps_op trivial fun ref => Prog.allOps_bind (Routine.call_allOps trivial)
      fun _ => trivial
  · refine Prog.allOps_bind (show (processData D.client.data _ bin).AllOps Op.legible from trivial)
      fun r => ?_
    obtain ⟨ctx, bin, err⟩ := r
    cases err with
    | some err => trivial
    | none =>
      exact Prog.allOps_ite (fun _ => trivial) fun _ =>
        Prog.allOps_op trivial fun _ => Prog.allOps_op trivial fun _ => trivial

/-- `Send` registers the request for the call it has made. -/
theorem send_calls {ch : Option Nat} (hp : h.Has p v) (hc : v.Committed)
    {Q : Option GoString → Heap → Prop}
    (hQ : ∀ v' h', h'.Has p v' → v'.Committed → h.Keeps h' p → Q none h') :
    (D.client.send p ch).wp (guarded (D.callerKnows i made) (Keeps made)) h Q := by
  rw [UDPClient.send, Prog.wp_bind]
  refine Parties.ensureRef_has hp fun ref v' h' hp' hv' href _ hk => ?_
  have hc' : v'.Committed := by
    rcases hv' with rfl | rfl
    · exact hc
    · exact PktView.after_committed hc _
  rw [Prog.wp_bind]
  refine Guarded.read_wp hp' ?_
  rw [Prog.wp_bind]
  change (if codeContinue = codeStopNoop then _ else _ : Routine (Option GoString)).wp _ _ _
  rw [if_neg (by decide), Prog.wp_bind]
  refine Guarded.writeStream_known ⟨v', hc', rfl⟩ fun hkeeps => ?_
  have href : callRef v'.marshal = Utf8.toValid ref := by rw [callRef_marshal, href]
  rw [Prog.wp_bind]
  exact Guarded.register_wp ⟨_, hkeeps _ _ rfl, href⟩ (hQ v' h' hp' hc' hk)

/-- A goroutine of the application. -/
theorem perform_calls (script : ClientScript) {held : List Nat} (hheld : Parties.Holds h held) :
    (D.client.perform script held).wp (linkRules (D.callerKnows i made) (Keeps made)) h
      fun _ _ => True := by
  induction script generalizing h held with
  | ret a => trivial
  | op call k ih =>
    cases call with
    | newPkt ref dest =>
      rw [UDPClient.perform, Prog.wp_bind]
      exact hheld.newPkt_wp (fun c hc => hc) fun p h' hh => ih () hh
    | edit n op =>
      rw [UDPClient.perform]
      cases hn : held[n]? with
      | none => trivial
      | some p =>
        simp only
        rw [Prog.wp_bind]
        exact hheld.edit_wp hn op.2 fun h' hh => ih () hh
    | read n r =>
      rw [UDPClient.perform]
      cases hn : held[n]? with
      | none => trivial
      | some p =>
        simp only
        rw [Prog.wp_bind]
        exact hheld.read_wp hn fun x => ih x hheld
    | putBack n =>
      rw [UDPClient.perform]
      cases hn : held[n]? with
      | none => trivial
      | some p =>
        simp only
        rw [Prog.wp_bind]
        exact hheld.putBack_wp hn fun h' hh => ih () hh
    | send n respCh =>
      rw [UDPClient.perform]
      cases hn : held[n]? with
      | none => trivial
      | some p =>
        obtain ⟨v, hv, hc⟩ := hheld.get hn
        simp only
        rw [Prog.wp_bind]
        exact linked_of_guarded (D.send_legible p _) (send_calls hv hc
          fun v' h' hv' hc' hk => ih none (hheld.keeps ⟨v', hv', hc'⟩ hk))
    | receive respCh =>
      rw [UDPClient.perform, Prog.wp_bind]
      refine hheld.receive_wp (fun c hc => ?_) fun p h' hh => ih () hh
      obtain ⟨v, hv, hcommitted, -⟩ := hc
      exact ⟨v, hv, hcommitted⟩
    | receiveMisc =>
      rw [UDPClient.perform, Prog.wp_bind]
      exact hheld.receiveMisc_wp (fun c hc => hc) fun p h' hh => ih () hh
    | oracle =>
      rw [UDPClient.perform, Prog.wp_bind]
      exact linked_of_guarded ⟨trivial, fun _ => trivial⟩ (fun r _ => ih r hheld)

theorem ensureRef_free (pkt : Nat) :
    (UDPClient.ensureRef pkt).AllOps fun e => offerPrice made e = none :=
  Prog.allOps_op rfl fun _ => Prog.allOps_ite
    (fun _ => Prog.allOps_op rfl fun _ => Prog.allOps_bind (Routine.call_allOps rfl) fun _ => trivial)
    fun _ => trivial

theorem send_free (pkt : Nat) (ch : Option Nat) :
    (D.client.send pkt ch).AllOps fun e => offerPrice made e = none := by
  refine Prog.allOps_bind (ensureRef_free pkt) fun ref => Prog.allOps_op rfl fun bin => ?_
  refine Prog.allOps_bind (show (processData D.client.data _ bin).AllOps _ from trivial) fun r => ?_
  obtain ⟨ctx, bin, err⟩ := r
  cases err with
  | some err => trivial
  | none =>
    exact Prog.allOps_ite (fun _ => trivial) fun _ =>
      Prog.allOps_op rfl fun _ => Prog.allOps_op rfl fun _ => trivial

/-- The applications offer nothing. -/
theorem perform_free (script : ClientScript) (held : List Nat) :
    (D.client.perform script held).AllOps fun e => offerPrice made e = none := by
  induction script generalizing held with
  | ret a => trivial
  | op call k ih =>
    cases call with
    | newPkt ref dest =>
      exact Prog.allOps_bind (Routine.newPkt_allOps rfl fun _ _ _ => rfl) fun p => ih () _
    | edit n op =>
      rw [UDPClient.perform]
      cases held[n]? with
      | none => trivial
      | some p => exact Prog.allOps_bind (Routine.call_allOps rfl) fun _ => ih () held
    | read n r =>
      rw [UDPClient.perform]
      cases held[n]? with
      | none => trivial
      | some p => exact Prog.allOps_op rfl fun x => ih x held
    | putBack n =>
      rw [UDPClient.perform]
      cases held[n]? with
      | none => trivial
      | some p => exact Prog.allOps_op rfl fun _ => ih () _
    | send n respCh =>
      rw [UDPClient.perform]
      cases held[n]? with
      | none => trivial
      | some p => exact Prog.allOps_bind (send_free p respCh) fun err => ih err held
    | receive respCh => exact Prog.allOps_op rfl fun p => ih () _
    | receiveMisc => exact Prog.allOps_op rfl fun p => ih () _
    | oracle => exact Prog.allOps_op rfl fun x => ih x held

/-- The call the packet's ref is registered for is the one the packet answers. -/
theorem response_of_incoming {w : PktView} {body : Bytes} {ch : Nat} (dest : GoString)
    (hbody : w.wire = Base64.encode body)
    (hw : D.Answering i made w)
    (hreq : (D.callerKnows i made).request (Utf8.toValid (w.metaGet keyRef)) (some ch))
    (hsvc : D.svc.Courteous) (hone : OneCallPerRef made) :
    D.Response i made ch (decodedView w body dest) := by
  rcases hw hsvc with hrelay | ⟨req, ch', hmade, hhandles, href⟩
  · refine .relayed ?_
    rw [metaGet_decodedView w body dest keyRelayFrom_ascii]
    exact fun h => hrelay (Utf8.eq_of_toValid_ascii (k := []) (fun b hb => nomatch hb) h)
  · obtain ⟨data, hdata, hsame⟩ := hreq
    rw [Utf8.toValid_idem, href] at hsame
    cases hone _ _ hdata hmade hsame
    exact .answer dest hdata hhandles hbody

section Goroutines

variable (D i made)

/-- The rules of a client: a packet that is offered costs a token. -/
def callerRules : Prog.Rules Op Op.Res (Heap × Option Offer) :=
  Prog.Rules.spending (fun _ => linkRules (D.callerKnows i made) (Keeps made)) (offerPrice made)

variable {D i made} {β : Type} {t : Option Offer}

/-- Code that offers and decodes nothing keeps the token. -/
theorem caller_wp {x : Routine β} {Q : β → Heap × Option Offer → Prop}
    (hfree : x.AllOps fun e => offerPrice made e = none) (hx : x.AllOps Op.legible)
    (hwp : x.wp (guarded (D.callerKnows i made) (Keeps made)) h fun b h' => Q b (h', t)) :
    x.wp (D.callerRules i made) (h, t) Q :=
  Prog.wp_spending (linkRules_mono _ _) hfree (linked_of_guarded hx hwp)

/-- A packet is offered. -/
theorem offer_wp {o : Offer} {ch : Nat} {c : JSONPkt} {Q : Unit → Heap × Option Offer → Prop}
    (ho : Pays made ch o) (hp : (p, c) ∈ h) (hd : (D.callerKnows i made).deliver ch c)
    (hQ : Q () (h.erase p, none)) :
    (Routine.perform (.deliver ch p)).wp (D.callerRules i made) (h, some o) Q :=
  Prog.wp_spend (e := Op.deliver ch p) rfl ho
    (linked_of_guarded ⟨trivial, fun _ => trivial⟩ (Guarded.deliver_wp hp hd hQ))

/-- The goroutine for a datagram. -/
theorem processIncoming_calls {data : Bytes} (hdata : D.Incoming i made data) :
    (D.client.processIncoming data).wp (D.callerRules i made) (h, some (.answer data))
      fun _ _ => True := by
  obtain ⟨w, rfl, hcommitted, hw⟩ := hdata
  have hnone : ∀ ctx, processData D.client.data ctx w.marshal = pure (ctx, w.marshal, none) := fun _ => rfl
  rw [UDPClient.processIncoming, hnone, Prog.wp_bind, Prog.wp_pure]
  simp only
  rw [Prog.wp_bind]
  refine caller_wp (Routine.newPkt_allOps rfl fun _ _ _ => rfl) (ownEdits_legible.newPkt _ _)
    (Guarded.newPkt_wp (W := fun wire => ∃ body, wire = Base64.encode body) (fun c hc => hc)
      fun pkt h₁ wire _ _ hpkt _ => ?_)
  rw [Prog.wp_bind]
  refine caller_wp ⟨rfl, fun _ => trivial⟩ ⟨.inr ⟨w, hcommitted, rfl⟩, fun _ => trivial⟩
    (Guarded.unmarshal_shows_wp (M := (· = w)) hpkt (.inr ⟨w, rfl, rfl⟩) (fun _ hu => hu ▸ hcommitted)
      (fun u body h₂ dest hu _ hbody hv _ => ?_) fun e h₂ _ _ => trivial)
  obtain rfl := hu.symm
  change h₂.Has pkt (decodedView w body dest) at hv
  simp only
  rw [Prog.wp_bind]
  refine caller_wp ⟨rfl, fun _ => trivial⟩ ⟨trivial, fun _ => trivial⟩ (Guarded.read_wp hv ?_)
  rw [show (decodedView w body dest).read (.metaGet keyRef) = Utf8.toValid (w.metaGet keyRef) from
    metaGet_decodedView w body dest keyRef_ascii]
  rw [UDPClient.answer, Prog.wp_bind]
  refine caller_wp ⟨rfl, fun _ => trivial⟩ ⟨trivial, fun _ => trivial⟩ (Guarded.lookup_wp fun r hr => ?_)
  have hunreg : ∀ g, (Routine.perform (.unregister (Utf8.toValid (w.metaGet keyRef)))).wp
      (D.callerRules i made) g fun _ _ => True :=
    fun _ => caller_wp ⟨rfl, fun _ => trivial⟩ ⟨trivial, fun _ => trivial⟩ (Guarded.unregister_wp trivial)
  obtain ⟨c, hc, hshows⟩ := hv
  have hmisc : (Routine.perform (.misc pkt)).wp (D.callerRules i made) (h₂, some (.answer w.marshal))
      fun _ g => (Routine.perform (.unregister (Utf8.toValid (w.metaGet keyRef)))).wp
        (D.callerRules i made) g fun _ _ => True :=
    caller_wp ⟨rfl, fun _ => trivial⟩ ⟨trivial, fun _ => trivial⟩
      (Guarded.misc_wp hc ⟨_, hshows, body, hbody⟩ (hunreg _))
  rcases r with - | - | ch
  · simp only
    rw [Prog.wp_bind]
    exact hmisc
  · simp only
    rw [Prog.wp_bind]
    exact hmisc
  · simp only
    rw [Prog.wp_bind]
    refine offer_wp ?_ hc ⟨_, hshows, ⟨body, hbody⟩, response_of_incoming dest hbody hw (hr _ rfl)⟩
      (hunreg _)
    obtain ⟨x, hx, href⟩ := hr _ rfl
    rw [Utf8.toValid_idem] at href
    exact ⟨x, hx, href.trans (callRef_marshal w).symm⟩

theorem writeError_calls {ch : Nat} {err : GoString} :
    (UDPClient.writeError ch err).wp (D.callerRules i made) (h, some (.failure ch))
      fun _ _ => True := by
  rw [UDPClient.writeError, Prog.wp_bind]
  refine caller_wp (Routine.newErrPkt_allOps rfl fun _ _ _ => rfl) (ownEdits_legible.newErrPkt _ _ _)
    (Guarded.newErrPkt_wp (W := fun wire => ∃ body, wire = Base64.encode body) (fun c hc => hc)
      fun p h₁ wire _ hw hp _ => ?_)
  obtain ⟨c, hc, hv⟩ := hp
  obtain ⟨stale, rfl⟩ := hw
  rw [Prog.wp_bind]
  exact offer_wp rfl hc ⟨_, hv, ⟨stale, rfl⟩, fun _ _ => .writeError err stale⟩
    (caller_wp ⟨rfl, fun _ => trivial⟩ ⟨trivial, fun _ => trivial⟩ (Guarded.writeDone_wp trivial))

end Goroutines

/-! ### The proof system -/

/-- The step makes no other call. -/
def KeepsStep (made : Bytes × Option Nat → Prop)
    (s : Sys Op Op.Res Endpoint (UDPClient.Env ClientScript))
    (ev : Event Choice (UDPClient.Env ClientScript)) : Prop :=
  ∀ j c data ch k, ev = .act j c → s.threads[j]? = some (.op (.writeStream data ch) k) →
    made (data, ch)

/-- The state of a client, its log and the goroutines: every packet that was offered was paid for
with a token, and no token twice. -/
structure Calling (D : Deployment ι) (i : ι) (made : Bytes × Option Nat → Prop) (s : Endpoint)
    (log : List (Entry Op Op.Res (UDPClient.Env ClientScript))) (gs : List (Heap × Option Offer))
    (spent : List (Offer × Nat)) : Prop where
  owns : Owns (D.callerKnows i made) s (gs.map Prod.fst)
  sound : ∀ c ∈ s.pkts.mem, c.Sound
  current : (outbox log).writing = s.writing
  writing : ∀ w, s.writing = some w → made w
  custody : Custody (outbox log).offers (gs.map Prod.snd) none (spent.map Prod.fst)
  offered : UDPClient.offered log = spent.map Prod.snd
  pays : ∀ m ∈ spent, Pays made m.2 m.1

section Calling

variable {s st : Endpoint} {log : List (Entry Op Op.Res (UDPClient.Env ClientScript))}
  {gs : List (Heap × Option Offer)} {spent : List (Offer × Nat)}

/-- What the write routine is writing is one of the calls. -/
theorem writing_of_handle {c : Choice} {e : Op} {r : e.Res}
    (hw : ∀ w, s.writing = some w → made w) (he : ∀ h, Keeps made e h)
    (hh : s.handle c e = .ok (r, st)) : ∀ w, st.writing = some w → made w := by
  cases e with
  | writeStream data ch =>
    simp only [Endpoint.handle] at hh
    split at hh
    · cases hh
    · cases hh
      intro w hw'
      cases hw'
      exact he [] _ _ rfl
  | receive ch =>
    simp only [Endpoint.handle] at hh
    split at hh
    · cases hh
    · cases hh
      exact hw
  | writeDone | register | unregister | deliver =>
    cases hh
    exact hw
  | _ =>
    rw [((Endpoint.handle_frame hh).2.2.2 rfl).1]
    exact hw

/-- One operation of a goroutine. -/
theorem Calling.act (w : D.Calling i made s log gs spent) {j : Nat} {c : Choice} {e : Op}
    {g : Heap × Option Offer} {Φ : e.Res → Heap × Option Offer → Prop} {r : e.Res}
    (hj : gs[j]? = some g) (hkeeps : ∀ h, Keeps made e h) (hΦ : D.callerRules i made e g Φ)
    (hh : s.handle c e = .ok (r, st)) :
    ∃ g' spent', Φ r g' ∧ D.Calling i made st (log ++ [.act j e r]) (gs.set j g') spent' := by
  obtain ⟨h, t⟩ := g
  have hj₁ : (gs.map Prod.fst)[j]? = some h := by rw [List.getElem?_map, hj]; rfl
  have hj₂ : (gs.map Prod.snd)[j]? = some t := by rw [List.getElem?_map, hj]; rfl
  have hfst : ∀ h' t', (gs.set j (h', t')).map Prod.fst = (gs.map Prod.fst).set j h' :=
    fun _ _ => List.map_set
  have hsnd : ∀ h' t', (gs.set j (h', t')).map Prod.snd = (gs.map Prod.snd).set j t' :=
    fun _ _ => List.map_set
  obtain ⟨houtbox, hoffers⟩ := outbox_act (i := j) w.current hh
  have hwriting := writing_of_handle w.writing hkeeps hh
  have hget : ∀ x, s.pkts.pick c.pick = some x → x.Sound := Parties.sound_pick w.sound c.pick
  rcases Prog.Rules.spending_cases hΦ with ⟨hprice, hleg, hΦ⟩ | ⟨pays, o, hprice, rfl, hpays, hleg, hΦ⟩
  · obtain ⟨h', hΦ', hacted⟩ := w.owns.act hj₁ hΦ (fun _ => hget) hh
    refine ⟨(h', t), spent, hΦ' (hkeeps h), ?_, Endpoint.handle_sound w.sound hleg hh, houtbox,
      hwriting, ?_, ?_, w.pays⟩
    · rw [hfst]
      exact hacted.owns
    · rw [hoffers, hsnd, set_self hj₂]
      exact w.custody
    · rw [offered_snoc, w.offered]
      cases e with
      | deliver ch p => cases hprice
      | _ => exact List.append_nil _
  · obtain ⟨h', hΦ', hacted⟩ := w.owns.act hj₁ hΦ (fun _ => hget) hh
    cases e with
    | deliver ch p =>
      cases hprice
      refine ⟨(h', none), spent ++ [(o, ch)], hΦ' (hkeeps h), ?_, Endpoint.handle_sound w.sound hleg hh,
        houtbox, hwriting, ?_, ?_, ?_⟩
      · rw [hfst]
        exact hacted.owns
      · rw [hoffers, hsnd, List.map_append]
        exact w.custody.discharge hj₂
      · rw [offered_snoc, w.offered, List.map_append]
        rfl
      · intro m hm
        rcases List.mem_append.mp hm with hm | hm
        · exact w.pays m hm
        · rw [List.mem_singleton.mp hm]
          exact hpays
    | _ => cases hprice

/-- A step around the goroutines. -/
theorem Calling.env (w : D.Calling i made s log gs spent) {a : UDPClient.Env ClientScript}
    (he : D.client.env (fun script => D.client.perform script []) s a = some (st, none)) :
    D.Calling i made st (log ++ [.env a]) gs spent := by
  have hlog : UDPClient.offered (log ++ [.env a]) = UDPClient.offered log :=
    (offered_snoc _ _).trans (List.append_nil _)
  cases a with
  | app script => cases he
  | datagram data => cases he
  | wrote =>
    obtain ⟨x, -, h⟩ := Option.map_eq_some_iff.mp he
    cases h
    refine ⟨w.owns.written _, w.sound, ?_, nofun, ?_, hlog.trans w.offered, w.pays⟩
    · rw [outbox_snoc]
      rfl
    · rw [outbox_snoc]
      exact w.custody
  | writeFailed err =>
    obtain ⟨x, hx, h⟩ := Option.map_eq_some_iff.mp he
    split at h
    · next hnone =>
      cases h
      refine ⟨w.owns.written _, w.sound, ?_, nofun, ?_, hlog.trans w.offered, w.pays⟩
      · rw [outbox_snoc]
        rfl
      · -- nobody waits for the response
        have hfailures : (outbox log).failures = [] := by
          rw [Outbox.failures, w.current, hx, Option.bind_some, hnone]
          rfl
        rw [outbox_snoc, Outbox.step, hfailures, List.append_nil]
        exact w.custody
    · cases h
  | gc n =>
    cases he
    refine ⟨w.owns.drop n, w.sound, ?_, w.writing, ?_, hlog.trans w.offered, w.pays⟩
    · rw [outbox_snoc]
      exact w.current
    · rw [outbox_snoc]
      exact w.custody

/-- A goroutine is started, with its token. -/
theorem Calling.spawn (w : D.Calling i made s log gs spent) {a : UDPClient.Env ClientScript}
    {f : Routine Unit} (hincoming : ∀ data, a = .datagram data → D.Incoming i made data)
    (he : D.client.env (fun script => D.client.perform script []) s a = some (st, some f)) :
    ∃ g, f.wp (D.callerRules i made) g (fun _ _ => True) ∧
      D.Calling i made st (log ++ [.env a]) (gs ++ [g]) spent := by
  have hlog : UDPClient.offered (log ++ [.env a]) = UDPClient.offered log :=
    (offered_snoc _ _).trans (List.append_nil _)
  have howns : ∀ t : Option Offer,
      Owns (D.callerKnows i made) s ((gs ++ [([], t)]).map Prod.fst) := by
    intro t
    rw [List.map_append]
    exact w.owns.spawn
  rcases UDPClient.env_spawn he with ⟨script, rfl, rfl, rfl⟩ | ⟨data, rfl, rfl, rfl⟩ |
    ⟨err, x, ch, rfl, hx, hch, rfl, rfl⟩
  · refine ⟨([], none), Prog.wp_spending (linkRules_mono _ _) (perform_free script [])
      (perform_calls script ⟨List.nodup_nil, fun p hp => nomatch hp⟩), howns _, w.sound, ?_, w.writing,
      ?_, hlog.trans w.offered, w.pays⟩
    · rw [outbox_snoc]
      exact w.current
    · rw [outbox_snoc, List.map_append]
      exact w.custody.idle
  · refine ⟨([], some (.answer data)), processIncoming_calls (hincoming data rfl), howns _, w.sound, ?_,
      w.writing, ?_, hlog.trans w.offered, w.pays⟩
    · rw [outbox_snoc]
      exact w.current
    · rw [outbox_snoc, List.map_append]
      exact w.custody.come _
  · have hfailures : (outbox log).failures = [.failure ch] := by
      rw [Outbox.failures, w.current, hx, Option.bind_some, hch]
      rfl
    have hwritten : Owns (D.callerKnows i made) { s with writing := none, failing := true }
        ((gs ++ [([], some (Offer.failure ch))]).map Prod.fst) := by
      rw [List.map_append]
      exact (w.owns.written true).spawn
    refine ⟨([], some (.failure ch)), writeError_calls, hwritten, w.sound, ?_, nofun, ?_,
      hlog.trans w.offered, w.pays⟩
    · rw [outbox_snoc]
      rfl
    · rw [outbox_snoc, Outbox.step, hfailures, List.map_append]
      exact w.custody.come _

end Calling

/-- The proof system of client `i`. -/
def callerLogic (D : Deployment ι) (i : ι) (made : Bytes × Option Nat → Prop) :
    Logic D.clientMachine (Heap × Option Offer) where
  rules := D.callerRules i made
  mono := Prog.Rules.spending_mono (fun _ => linkRules_mono _ _) _
  inv s log gs := ∃ spent, D.Calling i made s log gs spent
  final _ := True
  allowed s ev := KeepsStep made s ev ∧
    ∀ data, ev = .env (.datagram data) → D.Incoming i made data
  mayCrash := True
  act := by
    rintro s j c e k gs g Φ ht ⟨ha, -⟩ ⟨spent, w⟩ hj hΦ
    have hkeeps : ∀ h, Keeps made e h := by
      rintro h data ch rfl
      exact ha j c data ch k rfl ht
    split
    · next r st hh =>
      obtain ⟨g', spent', hΦ', w'⟩ := w.act hj hkeeps hΦ hh
      exact ⟨g', hΦ', spent', w'⟩
    · trivial
    · trivial
  env := by
    rintro s a gs st - ⟨spent, w⟩ he
    exact ⟨spent, w.env he⟩
  spawn := by
    rintro s a gs st f ⟨-, ha⟩ - ⟨spent, w⟩ he
    obtain ⟨g, hwp, w'⟩ := w.spawn (fun data hdata => ha data (congrArg _ hdata)) he
    exact ⟨g, hwp, spent, w'⟩

end Deployment

end Concord
