import Concord.Service
import Concord.Go.Spending

/-!
# The goroutines of a service

The proof system in which the server's goroutines are shown to do what `Service.Answers`
says. Besides its packet objects, a goroutine owns the datagram it has to answer. It gives
that away with the packet it puts on `sendStream` or with the bytes it hands to the writer,
so no datagram is answered twice, and a goroutine that ends with one has nothing to say to
it.

`processIncoming_owed` and `processOutgoing_owed` are the two goroutines of the server.
-/

namespace Concord

open Go

/-! ## 1. The rules -/

theorem JSONPkt.storeMember_dest (p : JSONPkt) (k : GoString) (v : Json) :
    (p.storeMember k v).1.dest = p.dest := by
  unfold storeMember
  split
  · unfold storeMeta ensureWireMap
    split
    · rfl
    · simp only
      split <;> rfl
    · rfl
  · split
    · unfold storeData
      split <;> rfl
    · rfl

theorem JSONPkt.storeMembers_dest (p : JSONPkt) (ms : List (GoString × Json)) :
    (p.storeMembers ms).1.dest = p.dest := by
  induction ms generalizing p with
  | nil => rfl
  | cons e ms ih => exact (ih _).trans (p.storeMember_dest e.1 e.2)

/-- The destination is not part of what is decoded. -/
theorem JSONPkt.unmarshal_dest (p : JSONPkt) (bin : Bytes) : (p.unmarshal bin).1.dest = p.dest := by
  have hjson : ∀ doc, (p.jsonUnmarshal doc).1.dest = p.dest := by
    intro doc
    cases doc with
    | obj ms => exact p.storeMembers_dest ms
    | _ => rfl
  unfold unmarshal
  split
  · rfl
  · next doc _ =>
    have := hjson doc
    split
    · next q h =>
      rw [h] at this
      exact this
    · next q h =>
      rw [h] at this
      split <;> exact this

/-- The operation passes the request on, to `sendPkts` or out. -/
def Op.spends : Op → Bool
  | .sendStream _ | .dist _ _ => true
  | _ => false

theorem Op.of_not_spends {e : Op} (h : e.spends = false) :
    e.onSending = false ∧ ∀ data addr, e ≠ .dist data addr := by
  cases e with
  | sendStream p => cases h
  | dist data addr => cases h
  | _ => exact ⟨rfl, fun _ _ he => by cases he⟩

/-- The price of that: the request, whatever it is. -/
def Op.toll (τ : Type) (e : Op) : Option (τ → Prop) := if e.spends then some fun _ => True else none

theorem Op.toll_eq_none {τ : Type} {e : Op} : e.toll τ = none ↔ e.spends = false := by
  cases h : e.spends <;> simp [toll, h]

/-- The operation is none that panics or that waits for something outside of the server. -/
def Op.prompt : Op → Bool
  | .panic | .genRef | .writeStream _ _ | .receive _ | .receiveMisc => false
  | _ => true

/-- The operation decodes what is legible, is prompt and passes nothing on. -/
structure Op.Plain (e : Op) : Prop where
  legible : e.legible
  prompt : e.prompt = true
  keeps : e.spends = false

/-- The packet objects of a goroutine, and the datagram it has to answer. -/
abbrev Owed := Heap × Option (Bytes × GoString)

namespace Service

variable (svc : Service)

/-- What goes out is an answer to the datagram `d`. -/
def knows (d : Option (Bytes × GoString)) : Knowledge where
  get c := c.Sound
  send c := ∃ q v, d = some q ∧ c.Shows v ∧ svc.Handles q (some v)
  dist data addr := ∃ q, d = some q ∧ svc.Answers q (some (data, addr))
  key _ _ _ := True
  write _ _ := True
  request _ _ := True
  deliver _ _ := True
  misc _ := True

/-- The rules for packet objects, where `d` is the datagram to answer. -/
def promptRules (d : Option (Bytes × GoString)) : Prog.Rules Op Op.Res Heap :=
  (linkRules (svc.knows d) fun _ _ => True).only fun e => e.prompt = true

theorem promptRules_mono (d : Option (Bytes × GoString)) : (svc.promptRules d).Mono :=
  Prog.Rules.only_mono (linkRules_mono _ _) _

/-- Passing something on takes the datagram. -/
def rules : Prog.Rules Op Op.Res Owed :=
  Prog.Rules.spending svc.promptRules (Op.toll (Bytes × GoString))

theorem rules_mono : svc.rules.Mono := Prog.Rules.spending_mono svc.promptRules_mono _

variable {svc} {h : Heap} {d : Option (Bytes × GoString)}

/-- Code that passes nothing on is proved with the rules for packet objects. -/
theorem plain_wp {β : Type} {x : Routine β} {Q : β → Owed → Prop} (hx : x.AllOps Op.Plain)
    (hwp : x.wp (guarded (svc.knows d) fun _ _ => True) h fun b h' => Q b (h', d)) :
    x.wp svc.rules (h, d) Q := by
  refine Prog.wp_spending (svc.promptRules_mono d)
    (hx.mono fun _ he => Op.toll_eq_none.mpr he.keeps) ?_
  exact Prog.wp_only (linkRules_mono _ _) (hx.mono fun _ he => he.prompt)
    (linked_of_guarded (hx.mono fun _ he => he.legible) hwp)

theorem plain_read (p : Nat) (r : PktRead) : (Routine.perform (.read p r)).AllOps Op.Plain :=
  ⟨⟨trivial, rfl, rfl⟩, fun _ => trivial⟩

theorem plain_edit {op : PktOp} (hop : op.isEdit = true) (p : Nat) : Op.Plain (.call p op) := by
  refine ⟨Op.legible_call fun bin h => ?_, rfl, rfl⟩
  subst h
  cases hop

theorem plain_call {op : PktOp} (hop : op.isEdit = true) (p : Nat) :
    (Routine.call p op).AllOps Op.Plain :=
  Routine.call_allOps (plain_edit hop p)

theorem plain_newPkt (ref dest : GoString) : (Routine.newPkt ref dest).AllOps Op.Plain :=
  Routine.newPkt_allOps ⟨trivial, rfl, rfl⟩ fun p op hop => plain_edit (by
    simp only [newPktOps, List.mem_cons, List.not_mem_nil, or_false] at hop
    rcases hop with rfl | rfl | rfl | rfl <;> rfl) p

theorem plain_newErrPkt (ref dest msg : GoString) :
    (Routine.newErrPkt ref dest msg).AllOps Op.Plain :=
  Routine.newErrPkt_allOps ⟨trivial, rfl, rfl⟩ fun p op hop => plain_edit (by
    simp only [newErrPktOps, newPktOps, List.cons_append, List.nil_append, List.mem_cons,
      List.not_mem_nil, or_false] at hop
    rcases hop with rfl | rfl | rfl | rfl | rfl | rfl <;> rfl) p

theorem plain_putBack (p : Nat) : (Routine.putBack p).AllOps Op.Plain :=
  ⟨⟨trivial, rfl, rfl⟩, fun _ => trivial⟩

/-! ## 2. Rules for the server's code -/

variable {p : Nat} {v : PktView}

theorem read_owed {r : PktRead} {Q : Bytes → Owed → Prop} (hp : h.Has p v) (hQ : Q (v.read r) (h, d)) :
    (Routine.perform (.read p r)).wp svc.rules (h, d) Q :=
  plain_wp (plain_read p r) (Guarded.read_wp hp hQ)

theorem call_owed {op : PktOp} (hop : op.isEdit = true) {Q : Unit → Owed → Prop} (hp : h.Has p v)
    (hQ : ∀ h', h'.Has p (v.after op) → h.Keeps h' p → Q () (h', d)) :
    (Routine.call p op).wp svc.rules (h, d) Q :=
  plain_wp (plain_call hop p) (Guarded.call_wp hop hp fun h' _ => hQ h')

theorem newPkt_owed {ref dest : GoString} {Q : Nat → Owed → Prop}
    (hQ : ∀ p h' stale, p ∉ h.keys → h'.Has p ⟨JSONPkt.refMeta ref, Base64.encode stale, [], dest⟩ →
      h.Keeps h' p → Q p (h', d)) :
    (Routine.newPkt ref dest).wp svc.rules (h, d) Q := by
  refine plain_wp (plain_newPkt ref dest) (Guarded.newPkt_wp
    (W := fun wire => ∃ body, wire = Base64.encode body) (fun c hc => hc) ?_)
  rintro p h' wire hp ⟨stale, rfl⟩ hv hk
  exact hQ p h' stale hp hv hk

theorem putBack_owed {Q : Unit → Owed → Prop} (hp : p ∈ h.keys)
    (hQ : h.Keeps (h.erase p) p → Q () (h.erase p, d)) :
    (Routine.putBack p).wp svc.rules (h, d) Q :=
  plain_wp (plain_putBack p) (Guarded.putBack_wp hp hQ)

/-- A packet that answers the datagram is sent. -/
theorem send_owed {q : Bytes × GoString} {Q : Unit → Owed → Prop} (hp : h.Has p v)
    (hv : svc.Handles q (some v)) (hQ : h.Keeps (h.erase p) p → Q () (h.erase p, none)) :
    (Routine.perform (.sendStream p)).wp svc.rules (h, some q) Q :=
  Prog.wp_spend (e := Op.sendStream p) rfl trivial
    ⟨rfl, trivial, Guarded.send_wp hp (fun _ hc => ⟨q, v, rfl, hc, hv⟩) hQ⟩

theorem dist_owed {q : Bytes × GoString} {data : Bytes} {addr : Addr} {Q : Unit → Owed → Prop}
    (hd : svc.Answers q (some (data, addr))) (hQ : Q () (h, none)) :
    (Routine.perform (.dist data addr)).wp svc.rules (h, some q) Q :=
  Prog.wp_spend (e := Op.dist data addr) rfl trivial
    ⟨rfl, trivial, Guarded.dist_wp ⟨q, rfl, hd⟩ hQ⟩

theorem sendErr_owed {q : Bytes × GoString} {ref dest msg : GoString} {Q : Unit → Owed → Prop}
    (hv : ∀ stale, svc.Handles q (some (errorView ref dest msg stale)))
    (hQ : ∀ h' p, p ∉ h.keys → h.Keeps h' p → Q () (h', none)) :
    (UDPServer.sendErr ref dest msg).wp svc.rules (h, some q) Q := by
  rw [UDPServer.sendErr, Prog.wp_bind]
  refine plain_wp (plain_newErrPkt ref dest msg) (Guarded.newErrPkt_wp
    (W := fun wire => ∃ body, wire = Base64.encode body) (fun c hc => hc) ?_)
  rintro p h₁ wire hp ⟨stale, rfl⟩ hp₁ hk₁
  exact send_owed hp₁ (hv stale) fun hk₂ => hQ _ p hp (hk₁.trans hk₂)

/-! ## 3. The callbacks -/

/-- The packet objects of the request and the response are as in the transaction, but for the
text that the response still has in its wire struct. -/
structure Holding (pkt pw : Nat) (x : Transaction) (h : Heap) : Prop where
  req : h.Has pkt x.req
  resp : ∃ wire, h.Has pw { x.resp with wire := wire }

theorem HandlerCall.plain_on (pkt pw : Nat) (e : HandlerCall) :
    (HandlerCall.on pkt pw e).AllOps Op.Plain := by
  cases e with
  | read r => exact plain_read pkt r
  | edit op => exact plain_call op.2 pkt
  | respMeta key => exact plain_read pw _
  | compose op =>
    refine plain_call ?_ pw
    obtain ⟨op, hop⟩ := op
    cases op with
    | unmarshal bin => cases hop
    | _ => rfl
  | oracle => exact ⟨⟨trivial, rfl, rfl⟩, fun _ => trivial⟩

/-- A call of the writer does not look at the text in the wire struct. -/
theorem after_wire {op : PktOp} (hop : op.ofWriter = true) (v : PktView) (wire : GoString) :
    ∃ wire', { v with wire := wire }.after op = { v.after op with wire := wire' } := by
  cases op with
  | close => exact ⟨_, rfl⟩
  | setDest dest => cases hop
  | unmarshal bin => cases hop
  | _ => exact ⟨wire, rfl⟩

theorem handlerCall_holding {pkt pw : Nat} (hne : pkt ≠ pw) {K : Knowledge} {G : Op → Heap → Prop}
    (e : HandlerCall) (x : Transaction) (h : Heap) (hx : Holding pkt pw x h) :
    (HandlerCall.on pkt pw e).wp (guarded K G) h fun r h' =>
      ∃ c x', x.handle c e = .ok (r, x') ∧ Holding pkt pw x' h' := by
  obtain ⟨hreq, wire, hresp⟩ := hx
  cases e with
  | read r => exact Guarded.read_wp hreq ⟨0, x, rfl, hreq, wire, hresp⟩
  | edit op =>
    exact Guarded.call_wp op.2 hreq fun h' _ hv hk =>
      ⟨0, _, rfl, hv, wire, hk.has (Ne.symm hne) hresp⟩
  | respMeta key => exact Guarded.read_wp hresp ⟨0, x, rfl, hreq, wire, hresp⟩
  | compose op =>
    obtain ⟨op, hop⟩ := op
    have hedit : op.isEdit = true := by
      cases op with
      | unmarshal bin => cases hop
      | _ => rfl
    obtain ⟨wire', hwire⟩ := after_wire hop x.resp wire
    refine Guarded.call_wp hedit hresp fun h' _ hv hk => ⟨0, _, rfl, hk.has hne hreq, wire', ?_⟩
    rw [← hwire]
    exact hv
  | oracle => exact fun c _ => ⟨c, x, rfl, hreq, wire, hresp⟩

/-- The callbacks of a target end as they do on the transaction. -/
theorem runHandlers_owed {pkt pw : Nat} (hne : pkt ≠ pw) {hs : List Handler} (ctx : HandlerCtx)
    {x : Transaction} (hx : Holding pkt pw x h)
    {Q : TargetCtx × Option GoString → Owed → Prop}
    (hQ : ∀ r x' h', Ends Transaction.handle (runHandlers hs ctx) x r x' → Holding pkt pw x' h' →
      Q (r.1.on pkt, r.2) (h', d)) :
    (processCallbacks pw (hs.map Handler.callback) (ctx.on pkt)).wp svc.rules (h, d) Q := by
  rw [processCallbacks_handlers, Prog.wp_bind]
  refine plain_wp (Prog.translate_allOps (HandlerCall.plain_on pkt pw) _) ?_
  refine Prog.wp_mono (guarded_mono _ _) ?_
    (Prog.translate_wp (guarded_mono _ _) (handlerCall_holding hne) (runHandlers hs ctx) hx)
  rintro r h' ⟨x', hends, hx'⟩
  exact hQ r x' h' hends hx'

/-- The request is forwarded. -/
theorem relayCallback_owed {q : Bytes × GoString} {ctx : TargetCtx} {pw : Nat} {req : PktView}
    (hreq : h.Has ctx.pkt req) (hpw : pw ∈ h.keys)
    (hv : svc.Handles q (some (forwardView ctx.sender req))) {Q : TargetCtx → Owed → Prop}
    (hQ : ∀ h', h'.Has ctx.pkt req → pw ∈ h'.keys →
      Q { ctx with stat := codeStopNoop, msg := ascii "packet forwarded" } (h', none)) :
    (relayCallback ctx pw).wp svc.rules (h, some q) Q := by
  rw [relayCallback, Prog.wp_bind]
  refine read_owed hreq ?_
  rw [Prog.wp_bind]
  refine read_owed hreq ?_
  rw [Prog.wp_bind]
  refine newPkt_owed fun fwd h₁ stale hfwd hf₁ hk₁ => ?_
  have hne : ctx.pkt ≠ fwd := fun h => hfwd (h ▸ hreq.mem_keys)
  have hpwne : pw ≠ fwd := fun h => hfwd (h ▸ hpw)
  rw [Prog.wp_bind]
  refine call_owed rfl hf₁ fun h₂ hf₂ hk₂ => ?_
  rw [Prog.wp_bind]
  refine read_owed ((hk₁.trans hk₂).has hne hreq) ?_
  rw [Prog.wp_bind]
  refine call_owed rfl hf₂ fun h₃ hf₃ hk₃ => ?_
  rw [Prog.wp_bind]
  refine call_owed rfl hf₃ fun h₄ hf₄ hk₄ => ?_
  rw [Prog.wp_bind]
  refine send_owed hf₄ hv fun hk₅ => ?_
  have hk := ((hk₁.trans hk₂).trans hk₃).trans (hk₄.trans hk₅)
  refine hQ _ (hk.has hne hreq) ?_
  obtain ⟨⟨p, c⟩, hc, rfl⟩ := List.mem_map.mp hpw
  exact Heap.mem_keys (hk _ c hpwne hc)

/-! ## 4. The goroutines -/

/-- What a goroutine may end with: no datagram, or one that gets no answer. -/
def settled (svc : Service) (g : Owed) : Prop := ∀ q, g.2 = some q → svc.Answers q none

theorem settled_none (h : Heap) : svc.settled (h, none) := nofun

theorem settled_silent {q : Bytes × GoString} (hq : svc.Handles q none) (h : Heap) :
    svc.settled (h, some q) := by
  intro q' hq'
  cases hq'
  exact ⟨none, hq, rfl⟩

/-- The response is sent or put back. -/
theorem dispatch_owed {q : Bytes × GoString} {ctx : HandlerCtx} {pkt pw : Nat} (hne : pkt ≠ pw)
    {x : Transaction} (hx : Holding pkt pw x h) (hv : svc.Handles q (composed ctx x.resp)) :
    (UDPServer.dispatch (ctx.on pkt) pw).wp svc.rules (h, some q) fun _ g =>
      pkt ∈ g.1.keys ∧ svc.settled g := by
  obtain ⟨hreq, wire, hresp⟩ := hx
  have hput : svc.Handles q none →
      (Routine.putBack pw).wp svc.rules (h, some q) fun _ g => pkt ∈ g.1.keys ∧ svc.settled g :=
    fun hnone => putBack_owed hresp.mem_keys fun hk =>
      ⟨(hk.has hne hreq).mem_keys, settled_silent hnone _⟩
  have hclose : ∀ {h₁ : Heap} {v : PktView}, h₁.Has pw v → h.Keeps h₁ pw →
      svc.Handles q (some (v.after .close)) →
      (do Routine.call pw .close
          Routine.perform (.sendStream pw) : Routine Unit).wp svc.rules (h₁, some q) fun _ g =>
        pkt ∈ g.1.keys ∧ svc.settled g := by
    intro h₁ v hv₁ hk₁ hhandles
    rw [Prog.wp_bind]
    refine call_owed rfl hv₁ fun h₂ hv₂ hk₂ => send_owed hv₂ hhandles fun hk₃ => ?_
    exact ⟨((hk₁.trans (hk₂.trans hk₃)).has hne hreq).mem_keys, settled_none _⟩
  unfold UDPServer.dispatch
  unfold composed at hv
  by_cases hstat : ctx.stat = codeStopNoop
  · rw [if_pos hstat] at hv
    rw [if_pos (show (ctx.on pkt).stat = codeStopNoop from hstat)]
    exact hput hv
  rw [if_neg hstat] at hv
  rw [if_neg (show (ctx.on pkt).stat ≠ codeStopNoop from hstat)]
  by_cases hrelay : ctx.stat = codeRelay
  · rw [if_pos hrelay] at hv
    rw [if_pos (show (ctx.on pkt).stat = codeRelay from hrelay), Prog.wp_bind]
    refine read_owed hresp ?_
    change (if x.resp.metaGet keyRelayTo ≠ [] then _ else _ : Routine Unit).wp _ _ _
    by_cases hto : x.resp.metaGet keyRelayTo ≠ []
    · rw [if_pos hto] at hv
      rw [if_pos hto, Prog.wp_bind]
      refine call_owed rfl hresp fun h₁ hv₁ hk₁ => ?_
      rw [Prog.wp_bind]
      refine call_owed rfl hv₁ fun h₂ hv₂ hk₂ => ?_
      exact hclose hv₂ (hk₁.trans hk₂) hv
    · rw [if_neg hto] at hv
      rw [if_neg hto]
      exact hput hv
  · rw [if_neg hrelay] at hv
    rw [if_neg (show (ctx.on pkt).stat ≠ codeRelay from hrelay)]
    exact hclose hresp (Heap.keeps_refl h pw) hv

/-- A decoded request is answered. -/
theorem serveRequest_owed {q : Bytes × GoString} {sender : GoString} {pkt : Nat} {req : PktView}
    (hreq : h.Has pkt req) (hv : ∀ v, svc.Replies sender req v → svc.Handles q v) :
    (svc.server.serveRequest sender pkt).wp svc.rules (h, some q) fun _ g =>
      pkt ∈ g.1.keys ∧ svc.settled g := by
  rw [UDPServer.serveRequest, Prog.wp_bind]
  refine read_owed hreq ?_
  rw [Prog.wp_bind]
  refine newPkt_owed fun resp h₁ stale hresp hv₁ hk₁ => ?_
  have hne : pkt ≠ resp := fun h => hresp (h ▸ hreq.mem_keys)
  have hreq₁ := hk₁.has hne hreq
  rw [Prog.wp_bind]
  refine read_owed hreq₁ ?_
  change (processPacket svc.server.queues ⟨pkt, codeContinue, [], req.metaGet keyTarget, sender⟩ resp
    >>= _).wp _ _ _
  have herr : ∀ {h' : Heap} {err : GoString} {w : PktView}, h'.Has pkt w → resp ∈ h'.keys →
      (∀ stale, svc.Replies sender req (some (errorView (req.metaGet keyRef) sender
        (ascii "packet pipeline error: " ++ err) stale))) →
      (do Routine.putBack resp
          UDPServer.sendErr (req.metaGet keyRef) sender
            (ascii "packet pipeline error: " ++ err) : Routine Unit).wp svc.rules (h', some q)
        fun _ g => pkt ∈ g.1.keys ∧ svc.settled g := by
    intro h' err w hreq' hresp' hfails
    rw [Prog.wp_bind]
    refine putBack_owed hresp' fun hk => ?_
    have hreq₂ := hk.has hne hreq'
    refine sendErr_owed (fun stale => hv _ (hfails stale)) fun h₃ p hp hk₃ => ?_
    exact ⟨(hk₃.has (fun h => hp (h ▸ hreq₂.mem_keys)) hreq₂).mem_keys, settled_none _⟩
  rw [Prog.wp_bind]
  by_cases hrelay : req.metaGet keyTarget = targetRelay
  · obtain ⟨rest, hqueue⟩ := svc.queues_relay
    simp only [processPacket, hrelay, hqueue]
    rw [processCallbacks, Prog.wp_bind]
    refine relayCallback_owed hreq₁ hv₁.mem_keys (hv _ (.forwarded hrelay)) fun h₂ hreq₂ hresp₂ => ?_
    rw [if_neg (show codeStopNoop ≠ codeStopError by decide), if_pos (.inl rfl)]
    simp only [Prog.wp_pure]
    unfold UDPServer.dispatch
    rw [if_pos rfl]
    exact putBack_owed hresp₂ fun hk => ⟨(hk.has hne hreq₂).mem_keys, settled_none _⟩
  · by_cases hnone : svc.handlers (req.metaGet keyTarget) = []
    · simp only [processPacket, (queues_of_ne hrelay).1 hnone]
      exact herr hreq₁ hv₁.mem_keys fun stale => .unknown stale hrelay hnone
    · simp only [processPacket, (queues_of_ne hrelay).2 hnone]
      refine runHandlers_owed (x := ⟨req, ⟨JSONPkt.refMeta (req.metaGet keyRef), [], [], sender⟩⟩) hne
        ⟨codeContinue, [], req.metaGet keyTarget, sender⟩ ⟨hreq₁, _, hv₁⟩ fun r x' h₂ hends hx' => ?_
      obtain ⟨ctx, err⟩ := r
      cases err with
      | some err =>
        obtain ⟨hreq₂, wire, hresp₂⟩ := hx'
        exact herr hreq₂ hresp₂.mem_keys fun stale => .failed stale hrelay hnone ⟨x'.req, hends⟩
      | none => exact dispatch_owed hne hx' (hv _ (.served hrelay hnone ⟨x'.req, hends⟩))

/-- The bytes of a packet, or bytes that are no JSON, as the server decodes them. -/
theorem unmarshal_owed {q : Bytes × GoString} {pkt : Nat} {stale : Bytes} (hbin : Legible q.1)
    (hp : h.Has pkt ⟨JSONPkt.refMeta [], Base64.encode stale, [], []⟩)
    {Q : Option JSONPkt.UnmarshalErr → Owed → Prop}
    (hok : ∀ req h', h'.Has pkt req → (∀ v, svc.Replies q.2 req v → svc.Handles q v) → Q none (h', d))
    (herr : ∀ e h', pkt ∈ Heap.keys h' →
      (∀ stale, svc.Handles q (some (errorView [] q.2 (ascii "malformed packet") stale))) →
      Q (some e) (h', d)) :
    (Routine.unmarshal pkt q.1).wp svc.rules (h, d) Q := by
  obtain ⟨bin, sender⟩ := q
  refine plain_wp ⟨⟨hbin, rfl, rfl⟩, fun _ => trivial⟩ ?_
  obtain ⟨c, hc, hv⟩ := hp
  have hmem := fun c' => Heap.mem_set_self (Heap.mem_keys hc) c'
  refine ⟨c, hc, fun c' hc' _ => ?_⟩
  cases hc'
  rcases hbin with hbin | ⟨u, ⟨body, hbody⟩, rfl⟩
  · have hq : c.unmarshal bin = (c, some .badJson) := by simp only [JSONPkt.unmarshal, hbin]
    simp only [PktOp.error, hq]
    exact herr _ _ (Heap.mem_keys (hmem c)) fun stale => .malformed stale hbin
  · obtain ⟨q, hq, hshows⟩ := hv.unmarshal hbody
    have hdest : q.dest = [] := by
      rw [← show (c.unmarshal u.marshal).1 = q from congrArg Prod.fst hq, JSONPkt.unmarshal_dest]
      exact hv.dest
    simp only [PktOp.error, hq]
    rw [hdest] at hshows
    exact hok (decodedView u body []) _ ⟨q, hmem q, hshows⟩ fun v hreply => .request hbody hreply

/-- The goroutine for a datagram. -/
theorem processIncoming_owed {data : Bytes} {sender : GoString} (hdata : Legible data) :
    (svc.server.processIncoming data sender).wp svc.rules ([], some (data, sender)) fun _ g =>
      svc.settled g := by
  have hput : ∀ {g : Owed} {pkt : Nat}, pkt ∈ g.1.keys → svc.settled g →
      (Routine.putBack pkt).wp svc.rules g fun _ g => svc.settled g :=
    fun hmem hset => putBack_owed hmem fun _ => hset
  rw [UDPServer.processIncoming, Prog.wp_bind]
  change (if codeContinue = codeStopNoop then _ else _ : Routine Unit).wp _ _ _
  rw [if_neg (by decide), Prog.wp_bind]
  refine newPkt_owed fun pkt h₁ stale _ hpkt _ => ?_
  rw [Prog.wp_bind]
  refine unmarshal_owed (q := (data, sender)) hdata hpkt (fun req h₂ hreq hv => ?_)
    fun e h₂ hmem hv => ?_
  · simp only
    rw [Prog.wp_bind]
    exact Prog.wp_mono svc.rules_mono (fun _ g hg => hput hg.1 hg.2) (serveRequest_owed hreq hv)
  · simp only
    rw [Prog.wp_bind]
    refine sendErr_owed hv fun h₃ p hp hk₃ => hput ?_ (settled_none _)
    obtain ⟨⟨pkt, c⟩, hc, rfl⟩ := List.mem_map.mp hmem
    exact Heap.mem_keys (hk₃ _ c (fun h => hp (h ▸ Heap.mem_keys hc)) hc)

/-- The goroutine for a packet from `sendStream`. -/
theorem processOutgoing_owed {q : Bytes × GoString} (hp : h.Has p v)
    (hv : svc.Handles q (some v)) :
    (svc.server.processOutgoing p).wp svc.rules (h, some q) fun _ g => svc.settled g := by
  rw [UDPServer.processOutgoing, Prog.wp_bind]
  refine read_owed hp ?_
  rw [Prog.wp_bind]
  refine read_owed hp ?_
  have hout : svc.Answers q (svc.transmitted v) := ⟨some v, hv, rfl⟩
  unfold transmitted at hout
  cases haddr : svc.server.resolve (v.read .dest) with
  | none =>
    rw [show svc.resolve v.dest = none from haddr] at hout
    refine putBack_owed hp.mem_keys fun _ q' hq' => ?_
    cases hq'
    exact hout
  | some addr =>
    rw [show svc.resolve v.dest = some addr from haddr] at hout
    simp only
    rw [Prog.wp_bind, UDPServer.transmit, Prog.wp_bind]
    change (if codeContinue ≠ codeStopNoop then _ else _ : Routine Unit).wp _ _ _
    rw [if_pos (by decide)]
    exact dist_owed hout (putBack_owed hp.mem_keys fun _ => settled_none _)

end Service

end Concord
