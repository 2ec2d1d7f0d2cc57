import Concord.LinkLogic

/-!
# The goroutines of the server

With any targets of the application and any other senders, a request of the client is answered
with the server's key only after the client's was stored, and nothing else is sent under a ref that
is kept for exchanges: `serverIncoming_linked`, `serverOutgoing_linked`.
-/

namespace Concord

open Go

theorem PktOp.keeps_metaAdd {kept : GoString → Bool} {key val : GoString} (h : key ≠ keyRef) :
    (PktOp.metaAdd key val).Keeps kept :=
  fun heq => absurd heq h

namespace Parties

variable {ι : Type} {P : Parties ι} {i : ι} {kept : GoString → Bool} {G : Prop}

section Server

variable {h : Heap}

theorem sendErr_tells {ref dest msg : GoString} (href : keptRef kept ref = false)
    {Q : Unit → Heap → Prop} (hQ : ∀ h' p, p ∉ h.keys → h.Keeps h' p → Q () h') :
    (UDPServer.sendErr ref dest msg).wp (guarded (P.svrKnows i kept G) (P.Stores i G)) h Q := by
  rw [UDPServer.sendErr, Prog.wp_bind]
  refine Guarded.newErrPkt_wp (W := fun wire => ∃ body, wire = Base64.encode body)
    (fun c hc => hc) fun p h₁ wire hp hw hv hk => ?_
  refine Guarded.send_wp hv (fun c hc => ⟨_, hc, says_of_not_kept hw ?_⟩) fun hk' => ?_
  · exact Bool.eq_false_iff.mp href
  · exact hQ _ p hp (hk.trans hk')

/-- The packet object has a ref that is not kept. -/
def Harmless (kept : GoString → Bool) (h : Heap) (p : Nat) : Prop :=
  ∃ v, h.Has p v ∧ v.Committed ∧ ¬ Kept kept v

theorem Harmless.keeps {h' : Heap} {p q : Nat} (hp : Harmless kept h p) (hk : h.Keeps h' q)
    (hpq : p ≠ q) : Harmless kept h' p := by
  obtain ⟨v, hv, hc⟩ := hp
  exact ⟨v, hk.has hpq hv, hc⟩

theorem Harmless.mem_keys {p : Nat} (hp : Harmless kept h p) : p ∈ h.keys := by
  obtain ⟨v, hv, -⟩ := hp
  exact hv.mem_keys

/-- A call that puts no such ref on the packet. -/
theorem not_kept_after {v : PktView} (h : ¬ Kept kept v) {op : PktOp} (hop : op.Keeps kept) :
    ¬ Kept kept (v.after op) := by
  cases op with
  | metaAdd key val =>
    rw [Kept, PktView.metaGet, PktView.after, GoMap.get?_set]
    split
    · next hkey => exact Bool.eq_false_iff.mp (hop hkey.symm)
    · exact h
  | metaClear =>
    rw [Kept, PktView.metaGet, PktView.after, GoMap.get?_empty]
    exact Bool.eq_false_iff.mp (keptRef_nil kept)
  | _ => exact h

theorem harmless_call {K : Knowledge} {F : Op → Heap → Prop} {p : Nat} (hp : Harmless kept h p)
    {op : PktOp} (hedit : op.isEdit = true) (hop : op.Keeps kept) {Q : Unit → Heap → Prop}
    (hQ : ∀ h', Harmless kept h' p → h.Keeps h' p → Q () h') :
    (Routine.call p op).wp (guarded K F) h Q := by
  obtain ⟨v, hv, hc, hkept⟩ := hp
  exact Guarded.call_wp hedit hv fun h' _ hv' hk =>
    hQ h' ⟨_, hv', PktView.after_committed hc op, not_kept_after hkept hop⟩ hk

/-- A packet keeps its ref, or has the one that it decodes. -/
theorem not_kept_overlay {v u : PktView} (hv : ¬ Kept kept v) (hu : u.Committed)
    (href : keptRef kept (refIn u.marshal) = false) (wire dest : GoString) (body : Bytes) :
    ¬ Kept kept ⟨JSONPkt.overlay v.kv (coerceMeta u.kv), wire, body, dest⟩ := by
  rw [refIn_marshal hu, PktView.metaGet] at href
  rw [Kept, PktView.metaGet, JSONPkt.get?_overlay, JSONPkt.get?_coerceMeta_ascii _ keyRef_ascii]
  cases hget : u.kv.get? keyRef with
  | some x =>
    rw [hget] at href
    exact Bool.eq_false_iff.mp href
  | none => exact hv

theorem harmless_unmarshal {K : Knowledge} {F : Op → Heap → Prop} {p : Nat}
    (hp : Harmless kept h p) {bin : Bytes} (hbin : Legible bin)
    (href : keptRef kept (refIn bin) = false) {Q : Option JSONPkt.UnmarshalErr → Heap → Prop}
    (hQ : ∀ e h', Harmless kept h' p → h.Keeps h' p → Q e h') :
    (Routine.unmarshal p bin).wp (guarded K F) h Q := by
  obtain ⟨v, hv, hc, hkept⟩ := hp
  refine Guarded.unmarshal_shows_wp (M := PktView.Committed) hv hbin (fun _ hu => hu)
    (fun u body h' dest hu heq hbody hw hk => ?_) fun e h' hv' hk => hQ _ h' ⟨v, hv', hc, hkept⟩ hk
  subst heq
  exact hQ none h' ⟨_, hw, ⟨body, hbody⟩, not_kept_overlay hkept hu href _ _ _⟩ hk

theorem harmless_read {K : Knowledge} {F : Op → Heap → Prop} {p : Nat} (hp : Harmless kept h p)
    {r : PktRead} {Q : Bytes → Heap → Prop}
    (hQ : ∀ v, h.Has p v → ¬ Kept kept v → Q (v.read r) h) :
    (Routine.perform (.read p r)).wp (guarded K F) h Q := by
  obtain ⟨v, hv, -, hkept⟩ := hp
  exact Guarded.read_wp hv (hQ v hv hkept)

theorem harmless_new {F : Op → Heap → Prop} {ref dest : GoString}
    (href : keptRef kept ref = false) {Q : Nat → Heap → Prop}
    (hQ : ∀ p h', p ∉ h.keys → Harmless kept h' p → h.Keeps h' p → Q p h') :
    (Routine.newPkt ref dest).wp (guarded (P.svrKnows i kept G) F) h Q :=
  Guarded.newPkt_wp (W := fun wire => ∃ body, wire = Base64.encode body) (fun _ hc => hc)
    fun p h' _ hp hw hv hk => hQ p h' hp ⟨_, hv, hw, Bool.eq_false_iff.mp href⟩ hk

theorem harmless_send {F : Op → Heap → Prop} {p : Nat} (hp : Harmless kept h p)
    {Q : Unit → Heap → Prop} (hQ : h.Keeps (h.erase p) p → Q () (h.erase p)) :
    (Routine.perform (.sendStream p)).wp (guarded (P.svrKnows i kept G) F) h Q := by
  obtain ⟨v, hv, hc, hkept⟩ := hp
  exact Guarded.send_wp hv (fun c hs => ⟨v, hs, says_of_not_kept hc hkept⟩) hQ

/-- A request with a ref that is not kept, and its response. -/
def Polite (kept : GoString → Bool) (pkt pw : Nat) (ctx : TargetCtx) (h : Heap) : Prop :=
  ctx.pkt = pkt ∧ Harmless kept h pkt ∧ Harmless kept h pw

variable {pkt pw : Nat} {ctx : TargetCtx}

theorem relayCallback_polite (hctx : Polite kept pkt pw ctx h) :
    (relayCallback ctx pw).wp (guarded (P.svrKnows i kept G) (P.Stores i G)) h
      (Polite kept pkt pw) := by
  obtain ⟨rfl, hpkt, hpw⟩ := hctx
  rw [relayCallback, Prog.wp_bind]
  refine harmless_read hpkt fun v _ hkept => ?_
  rw [Prog.wp_bind]
  refine harmless_read hpkt fun _ _ _ => ?_
  rw [Prog.wp_bind]
  refine harmless_new (Bool.eq_false_iff.mpr hkept) fun fwd h₁ hfwd hf₁ hk₁ => ?_
  have hpkt₁ := hpkt.keeps hk₁ fun h => hfwd (h ▸ hpkt.mem_keys)
  have hpw₁ := hpw.keeps hk₁ fun h => hfwd (h ▸ hpw.mem_keys)
  have hne₁ : ctx.pkt ≠ fwd := fun h => hfwd (h ▸ hpkt.mem_keys)
  have hne₂ : pw ≠ fwd := fun h => hfwd (h ▸ hpw.mem_keys)
  rw [Prog.wp_bind]
  refine harmless_call hf₁ rfl (PktOp.keeps_metaAdd (by decide)) fun h₂ hf₂ hk₂ => ?_
  rw [Prog.wp_bind]
  refine harmless_read (hpkt₁.keeps hk₂ hne₁) fun _ _ _ => ?_
  rw [Prog.wp_bind]
  refine harmless_call hf₂ rfl (by trivial) fun h₃ hf₃ hk₃ => ?_
  rw [Prog.wp_bind]
  refine harmless_call hf₃ rfl (by trivial) fun h₄ hf₄ hk₄ => ?_
  rw [Prog.wp_bind]
  refine harmless_send hf₄ fun hk₅ => ?_
  have hk := (hk₂.trans hk₃).trans (hk₄.trans hk₅)
  exact ⟨rfl, hpkt₁.keeps hk hne₁, hpw₁.keeps hk hne₂⟩

theorem keyExchangeClient_polite (hne : pkt ≠ pw)
    (hctx : Polite kept pkt pw ctx h) :
    (Crypto.keyExchangeClient ctx pw).wp (guarded (P.svrKnows i kept G) (P.Stores i G)) h
      (Polite kept pkt pw) := by
  obtain ⟨rfl, hpkt, hpw⟩ := hctx
  unfold Crypto.keyExchangeClient
  rw [Prog.wp_bind]
  refine harmless_read hpkt fun v _ _ => ?_
  cases ipOf (v.read .data) with
  | none => exact ⟨rfl, hpkt, hpw⟩
  | some ip =>
    simp only
    rw [Prog.wp_bind]
    refine Guarded.getKeyStore_wp fun r _ => ?_
    cases r with
    | none => exact ⟨rfl, hpkt, hpw⟩
    | some keys =>
      simp only
      rw [Prog.wp_bind]
      refine harmless_call hpw rfl (PktOp.keeps_metaAdd (by decide)) fun h₁ hpw₁ hk₁ => ?_
      rw [Prog.wp_bind]
      refine harmless_call hpw₁ rfl (by trivial) fun h₂ hpw₂ hk₂ => ?_
      exact ⟨rfl, hpkt.keeps (hk₁.trans hk₂) hne, hpw₂⟩

/-- A call of one of two packets that keeps their refs. -/
theorem harmless_keeps {p q : Nat} {op : PktOp} (hpq : p ≠ q) (hop : op.Keeps kept)
    (hp : Harmless kept h p) (hq : Harmless kept h q) :
    guarded (P.svrKnows i kept G) (P.Stores i G) (.call p op) h fun _ h' =>
      Harmless kept h' p ∧ Harmless kept h' q := by
  by_cases hedit : op.isEdit = true
  · exact harmless_call (Q := fun _ h' => Harmless kept h' p ∧ Harmless kept h' q) hp hedit hop
      fun h' hp' hk => ⟨hp', hq.keeps hk hpq.symm⟩
  · cases op with
    | unmarshal bin =>
      exact harmless_unmarshal (Q := fun _ h' => Harmless kept h' p ∧ Harmless kept h' q) hp hop.1
        hop.2 fun _ h' hp' hk => ⟨hp', hq.keeps hk hpq.symm⟩
    | _ => exact absurd rfl hedit

/-- One operation of a callback of the application. -/
theorem keepsRefs_step {e : Op} (hne : pkt ≠ pw) (he : e.keepsRefs kept pkt pw)
    (hh : Harmless kept h pkt ∧ Harmless kept h pw) :
    guarded (P.svrKnows i kept G) (P.Stores i G) e h fun _ h' =>
      Harmless kept h' pkt ∧ Harmless kept h' pw := by
  cases e with
  | call p op =>
    obtain ⟨rfl | rfl, hop⟩ := he
    · exact harmless_keeps hne hop hh.1 hh.2
    · exact guarded_mono _ _ (fun _ _ => And.symm) (harmless_keeps hne.symm hop hh.2 hh.1)
  | read p r =>
    rcases he with rfl | rfl
    · exact harmless_read (Q := fun _ h' => Harmless kept h' p ∧ Harmless kept h' pw)
        hh.1 fun _ _ _ => hh
    · exact harmless_read (Q := fun _ h' => Harmless kept h' pkt ∧ Harmless kept h' p)
        hh.2 fun _ _ _ => hh
  | oracle => exact fun _ _ => hh
  | _ => exact he.elim

theorem keepsRefs_polite (hne : pkt ≠ pw) {cb : TargetCallback} (hcb : KeepsRefs kept cb)
    (hctx : Polite kept pkt pw ctx h) :
    (cb ctx pw).wp (guarded (P.svrKnows i kept G) (P.Stores i G)) h (Polite kept pkt pw) := by
  obtain ⟨f, hf, rfl⟩ := hcb
  obtain ⟨rfl, hpkt, hpw⟩ := hctx
  rw [Prog.wp_bind]
  refine Prog.wp_mono (guarded_mono _ _) (fun r h' hh => ?_)
    (Prog.wp_of_allOps (guarded_mono _ _) (keepsRefs_step hne) (hf ctx pw) ⟨hpkt, hpw⟩)
  exact ⟨rfl, hh.1, hh.2⟩

/-- The response is sent on, or put back. -/
theorem dispatch_polite {resp : Nat} (hresp : Harmless kept h resp)
    {Q : Unit → Heap → Prop} (hQ : ∀ h', h.Keeps h' resp → Q () h') :
    (UDPServer.dispatch ctx resp).wp (guarded (P.svrKnows i kept G) (P.Stores i G)) h Q := by
  have hclose : ∀ {h₁ : Heap}, Harmless kept h₁ resp → h.Keeps h₁ resp →
      (do Routine.call resp .close
          Routine.perform (.sendStream resp) : Routine Unit).wp
        (guarded (P.svrKnows i kept G) (P.Stores i G)) h₁ Q := by
    intro h₁ hresp₁ hk₁
    rw [Prog.wp_bind]
    refine harmless_call hresp₁ rfl (by trivial) fun h₂ hresp₂ hk₂ => ?_
    exact harmless_send hresp₂ fun hk₃ => hQ _ (hk₁.trans (hk₂.trans hk₃))
  have hput : (Routine.putBack resp).wp (guarded (P.svrKnows i kept G) (P.Stores i G)) h Q :=
    Guarded.putBack_wp hresp.mem_keys fun hk => hQ _ hk
  unfold UDPServer.dispatch
  rw [Prog.wp_ite]
  split
  · exact hput
  · rw [Prog.wp_ite]
    split
    · rw [Prog.wp_bind]
      refine harmless_read hresp fun v _ _ => ?_
      rw [Prog.wp_ite]
      split
      · rw [Prog.wp_bind]
        refine harmless_call hresp rfl (by trivial) fun h₁ hresp₁ hk₁ => ?_
        rw [Prog.wp_bind]
        refine harmless_call hresp₁ rfl (PktOp.keeps_metaAdd (by decide)) fun h₂ hresp₂ hk₂ => ?_
        exact hclose hresp₂ (hk₁.trans hk₂)
      · exact hput
    · exact hclose hresp (Heap.keeps_refl h resp)

/-- A callback of a target other than that of the exchanges with the server. -/
theorem server_callback {name : GoString} {cbs : List TargetCallback} {cb : TargetCallback}
    (hq : P.server.queues name = some cbs) (hcb : cb ∈ cbs)
    (hname : name ≠ Crypto.targetKeyExchangeServer) :
    cb = Crypto.keyExchangeClient ∨ ∃ cbs₀, P.svr.queues name = some cbs₀ ∧ cb ∈ cbs₀ := by
  rcases mem_addCallback hq hcb with ⟨cbs₀, hq₀, hcb₀⟩ | rfl
  · rw [addCallback, if_neg hname] at hq₀
    exact .inr ⟨cbs₀, hq₀, hcb₀⟩
  · exact .inl rfl

/-- The queue of such a target. -/
theorem processPacket_polite (hsvr : P.svr.Courteous kept) (hne : pkt ≠ pw)
    (hname : ctx.targetName ≠ Crypto.targetKeyExchangeServer)
    (hctx : Polite kept pkt pw ctx h) :
    (processPacket P.server.queues ctx pw).wp (guarded (P.svrKnows i kept G) (P.Stores i G)) h
      fun r => Polite kept pkt pw r.1 := by
  unfold processPacket
  split
  · exact hctx
  · next cbs hq =>
    refine processCallbacks_wp (guarded_mono _ _) (fun cb hcb ctx' g hg => ?_) hctx
    rcases server_callback hq hcb hname with rfl | ⟨cbs₀, hq₀, hcb₀⟩
    · exact keyExchangeClient_polite hne hg
    · rcases hsvr _ cbs₀ hq₀ cb hcb₀ with rfl | hkeeps
      · exact relayCallback_polite hg
      · exact keepsRefs_polite hne hkeeps hg

/-- The response to an exchange with the server, before and after `Close`. -/
def kexView (P : Parties ι) (ref wire dest : GoString) : PktView :=
  ⟨(JSONPkt.refMeta ref).set Crypto.keyNoCrypto (ascii "true"), wire, P.svrCrypto.publicKey, dest⟩

/-- An exchange with the server stores the client's key, and writes the server's. -/
theorem keyExchangeServer_stores {w : PktView} {ref wire dest : GoString} (hpkt : h.Has ctx.pkt w)
    (hkey : pubKeyOf w.buff = some (P.pub i)) (hsender : ctx.sender = P.addr i)
    (hpw : h.Has pw ⟨JSONPkt.refMeta ref, wire, [], dest⟩) :
    (P.svrCrypto.keyExchangeServer ctx pw).wp (guarded (P.svrKnows i kept G) (P.Stores i G)) h
      fun ctx' h' => ctx' = { ctx with stat := codeStopCloseSend } ∧ G ∧
        h'.Has pw (P.kexView ref wire dest) ∧ h.Keeps h' pw := by
  unfold Crypto.keyExchangeServer
  rw [Prog.wp_bind]
  refine Guarded.read_wp hpkt ?_
  rw [PktView.read, hkey]
  simp only
  rw [Prog.wp_bind]
  change ((pure (P.svrSecret (P.curve.pub (P.privKey i))) : Routine Nat)).wp _ _ _
  rw [Prog.wp_pure, Prog.wp_bind]
  -- from here on the client's key is stored
  refine Guarded.setKeyStore_wp ⟨hsender ▸ P.resolve_addr i, fun _ => rfl⟩ fun hG => ?_
  rw [Prog.wp_bind]
  refine Guarded.call_wp rfl hpw fun h₁ _ hv₁ hk₁ => ?_
  rw [Prog.wp_bind]
  refine Guarded.call_wp rfl hv₁ fun h₂ _ hv₂ hk₂ => ?_
  exact ⟨rfl, hG _ _ rfl hsender, hv₂, hk₁.trans hk₂⟩

/-- And it is the whole queue of its target. -/
theorem processPacket_kex {w : PktView} {ref wire dest : GoString} (hpkt : h.Has ctx.pkt w)
    (hkey : pubKeyOf w.buff = some (P.pub i)) (hsender : ctx.sender = P.addr i)
    (hname : ctx.targetName = Crypto.targetKeyExchangeServer)
    (hpw : h.Has pw ⟨JSONPkt.refMeta ref, wire, [], dest⟩)
    {Q : TargetCtx × Option GoString → Heap → Prop}
    (hQ : ∀ h', G → h'.Has pw (P.kexView ref wire dest) → h.Keeps h' pw →
      Q ({ ctx with stat := codeStopCloseSend }, none) h') :
    (processPacket P.server.queues ctx pw).wp (guarded (P.svrKnows i kept G) (P.Stores i G)) h Q := by
  rw [processPacket, hname, show P.server.queues Crypto.targetKeyExchangeServer =
    some [P.svrCrypto.keyExchangeServer] from server_queues P .server]
  simp only
  rw [processCallbacks, Prog.wp_bind]
  refine Prog.wp_mono (guarded_mono _ _) (fun ctx' h' hr => ?_)
    (keyExchangeServer_stores hpkt hkey hsender hpw)
  obtain ⟨rfl, hG, hv, hk⟩ := hr
  rw [if_neg (show codeStopCloseSend ≠ codeStopError by decide), if_pos (.inr rfl)]
  exact hQ h' hG hv hk

/-- The key of another sender goes under that sender's address. -/
theorem keyExchangeServer_strange (hne : pkt ≠ pw)
    (hsender : P.svr.resolve ctx.sender = some ctx.sender) (hother : ctx.sender ≠ P.addr i)
    (hctx : Polite kept pkt pw ctx h) :
    (P.svrCrypto.keyExchangeServer ctx pw).wp (guarded (P.svrKnows i kept G) (P.Stores i G)) h
      fun ctx' g => ctx'.sender = ctx.sender ∧ Polite kept pkt pw ctx' g := by
  obtain ⟨rfl, hpkt, hpw⟩ := hctx
  unfold Crypto.keyExchangeServer
  rw [Prog.wp_bind]
  refine harmless_read hpkt fun v _ _ => ?_
  cases pubKeyOf (v.read .data) with
  | none => exact ⟨rfl, rfl, hpkt, hpw⟩
  | some pk =>
    simp only
    rw [Prog.wp_bind, Crypto.computeSharedKey]
    split
    · rw [Prog.wp_pure, Prog.wp_bind]
      refine Guarded.setKeyStore_wp ⟨hsender, fun h => absurd h hother⟩ fun _ => ?_
      rw [Prog.wp_bind]
      refine harmless_call hpw rfl (PktOp.keeps_metaAdd (by decide)) fun h₁ hpw₁ hk₁ => ?_
      rw [Prog.wp_bind]
      refine harmless_call hpw₁ rfl (by trivial) fun h₂ hpw₂ hk₂ => ?_
      exact ⟨rfl, rfl, hpkt.keeps (hk₁.trans hk₂) hne, hpw₂⟩
    · exact Guarded.panic_wp

theorem processPacket_strange (hne : pkt ≠ pw)
    (hsender : P.svr.resolve ctx.sender = some ctx.sender) (hother : ctx.sender ≠ P.addr i)
    (hname : ctx.targetName = Crypto.targetKeyExchangeServer) (hctx : Polite kept pkt pw ctx h) :
    (processPacket P.server.queues ctx pw).wp (guarded (P.svrKnows i kept G) (P.Stores i G)) h
      fun r => Polite kept pkt pw r.1 := by
  rw [processPacket, hname, show P.server.queues Crypto.targetKeyExchangeServer =
    some [P.svrCrypto.keyExchangeServer] from server_queues P .server]
  refine Prog.wp_mono (guarded_mono _ _) (fun _ _ hr => hr.2) (processCallbacks_wp
    (J := fun ctx' g => ctx'.sender = ctx.sender ∧ Polite kept pkt pw ctx' g) (guarded_mono _ _)
    (fun cb hcb ctx' g hg => ?_) ⟨rfl, hctx⟩)
  obtain ⟨hsame, hg⟩ := hg
  rw [List.mem_singleton.mp hcb, ← hsame]
  exact keyExchangeServer_strange hne (hsame ▸ hsender) (hsame ▸ hother) hg

/-- What the server reads from a packet it has decoded. -/
structure Requests (P : Parties ι) (i : ι) (kept : GoString → Bool) (sender : Addr) (w : PktView) :
    Prop where
  committed : w.Committed
  client : Kept kept w → sender = P.addr i ∧ w.metaGet keyTarget = Crypto.targetKeyExchangeServer
  key : sender = P.addr i → w.metaGet keyTarget = Crypto.targetKeyExchangeServer →
    pubKeyOf w.buff = some (P.pub i)

theorem kept_decodedView (u : PktView) (body : Bytes) (dest : GoString) :
    Kept kept (decodedView u body dest) ↔ Kept kept u := by
  rw [Kept, metaGet_decodedView u body dest keyRef_ascii, keptRef_toValid]
  rfl

theorem Asks.requests {sender : Addr} {u : PktView} (hu : P.Asks i kept sender u) {body : Bytes}
    (hbody : u.wire = Base64.encode body) (dest : GoString) :
    P.Requests i kept sender (decodedView u body dest) := by
  have hascii : ∀ b ∈ Crypto.targetKeyExchangeServer, b < 0x80 := by decide +kernel
  have htarget : (decodedView u body dest).metaGet keyTarget = Crypto.targetKeyExchangeServer ↔
      u.metaGet keyTarget = Crypto.targetKeyExchangeServer := by
    rw [metaGet_decodedView u body dest keyTarget_ascii]
    constructor
    · exact Utf8.eq_of_toValid_ascii hascii
    · intro h
      rw [h]
      exact Utf8.valid_of_ascii hascii
  refine ⟨⟨body, hbody⟩, ?_, fun hs h => ?_⟩
  · rw [kept_decodedView, htarget]
    exact hu.client
  · obtain ⟨-, body', hbody', hkey⟩ := hu.key hs (htarget.mp h)
    have hsame : body = body' := Base64.encode_inj (hbody.symm.trans hbody')
    rw [show (decodedView u body dest).buff = body from rfl, hsame]
    exact hkey

/-- The queue of a request with a ref that is not kept. -/
theorem processPacket_harmless (hsvr : P.svr.Courteous kept) (hne : pkt ≠ pw)
    (hsender : P.svr.resolve ctx.sender = some ctx.sender)
    (hother : ctx.targetName = Crypto.targetKeyExchangeServer → ctx.sender ≠ P.addr i)
    (hctx : Polite kept pkt pw ctx h) :
    (processPacket P.server.queues ctx pw).wp (guarded (P.svrKnows i kept G) (P.Stores i G)) h
      fun r => Polite kept pkt pw r.1 := by
  by_cases hname : ctx.targetName = Crypto.targetKeyExchangeServer
  · exact processPacket_strange hne hsender (hother hname) hname hctx
  · exact processPacket_polite hsvr hne hname hctx

/-- A decoded request is answered. -/
theorem serveRequest_tells (hsvr : P.svr.Courteous kept) {sender : Addr}
    (hsender : P.svr.resolve sender = some sender) {w : PktView} (hpkt : h.Has pkt w)
    (hw : P.Requests i kept sender w) :
    (P.server.serveRequest sender pkt).wp (guarded (P.svrKnows i kept G) (P.Stores i G)) h
      fun _ h' => pkt ∈ h'.keys := by
  rw [UDPServer.serveRequest, Prog.wp_bind]
  refine Guarded.read_wp hpkt ?_
  rw [Prog.wp_bind]
  refine Guarded.newPkt_wp (W := fun wire => ∃ body, wire = Base64.encode body) (fun c hc => hc)
    fun resp h₁ wire hresp hwire hv hk₁ => ?_
  have hne : pkt ≠ resp := fun h => hresp (h ▸ hpkt.mem_keys)
  have hpkt₁ := hk₁.has hne hpkt
  rw [Prog.wp_bind]
  refine Guarded.read_wp hpkt₁ ?_
  rw [Prog.wp_bind]
  by_cases hown : sender = P.addr i ∧ w.metaGet keyTarget = Crypto.targetKeyExchangeServer
  · obtain ⟨rfl, htarget⟩ := hown
    refine processPacket_kex hpkt₁ (hw.key rfl htarget) rfl htarget hv fun h₂ hG hv₂ hk₂ => ?_
    simp only
    unfold UDPServer.dispatch
    rw [if_neg (show codeStopCloseSend ≠ codeStopNoop by decide),
      if_neg (show codeStopCloseSend ≠ codeRelay by decide), Prog.wp_bind]
    refine Guarded.call_wp rfl hv₂ fun h₃ _ hv₃ hk₃ => ?_
    refine Guarded.send_wp hv₃ (fun c hc => ⟨_, hc, ⟨_, rfl⟩, fun _ => ⟨rfl, rfl, hG⟩⟩) fun hk₄ => ?_
    exact ((hk₂.trans (hk₃.trans hk₄)).has hne hpkt₁).mem_keys
  · have hkept : ¬ Kept kept w := fun h => hown (hw.client h)
    have href : keptRef kept (w.metaGet keyRef) = false := Bool.eq_false_iff.mpr hkept
    have hctx : Polite kept pkt resp ⟨pkt, codeContinue, [], w.metaGet keyTarget, sender⟩ h₁ :=
      ⟨rfl, ⟨w, hpkt₁, hw.committed, hkept⟩, ⟨_, hv, hwire, hkept⟩⟩
    refine Prog.wp_mono (guarded_mono _ _) (fun r h₂ hr => ?_)
      (processPacket_harmless hsvr hne hsender (fun ht hs => hown ⟨hs, ht⟩) hctx)
    obtain ⟨ctx, err⟩ := r
    obtain ⟨-, hpkt₂, hresp₂⟩ := hr
    cases err with
    | some err =>
      simp only
      rw [Prog.wp_bind]
      refine Guarded.putBack_wp hresp₂.mem_keys fun hk₃ => ?_
      have hpkt₃ := hpkt₂.keeps hk₃ hne
      refine sendErr_tells href fun h₄ q hq hk₄ => ?_
      exact (hpkt₃.keeps hk₄ fun h => hq (h ▸ hpkt₃.mem_keys)).mem_keys
    | none =>
      exact dispatch_polite hresp₂ fun h₃ hk₃ => (hpkt₂.keeps hk₃ hne).mem_keys

/-- What the callbacks of the server decode is legible. -/
theorem callback_legible (hsvr : P.svr.Courteous kept) {name : GoString} {cbs : List TargetCallback}
    (hq : P.server.queues name = some cbs) : ∀ cb ∈ cbs, ∀ ctx pw, (cb ctx pw).AllOps Op.legible := by
  intro cb hcb ctx pw
  rcases mem_addCallback hq hcb with ⟨cbs₁, hq₁, hcb₁⟩ | rfl
  · rcases mem_addCallback hq₁ hcb₁ with ⟨cbs₀, hq₀, hcb₀⟩ | rfl
    · rcases hsvr name cbs₀ hq₀ cb hcb₀ with rfl | ⟨f, hf, rfl⟩
      · exact UDPServer.relayCallback_allOps ownEdits_legible ctx pw
      · refine Prog.allOps_bind ((hf ctx pw).mono fun e he => ?_) fun _ => trivial
        cases e with
        | call p op =>
          cases op with
          | unmarshal bin => exact he.2.1
          | _ => trivial
        | _ => trivial
    · exact (Crypto.keyExchangeServer_allOps _ ctx pw).mono fun _ => Op.legible_of_exchange
  · exact (Crypto.keyExchangeClient_allOps ctx pw).mono fun _ => Op.legible_of_exchange

/-- The goroutine for a datagram. -/
theorem serverIncoming_linked (hsvr : P.svr.Courteous kept) {sender : Addr}
    (hsender : P.svr.resolve sender = some sender) {data : Bytes}
    (hdata : P.Reads data (P.Asks i kept sender)) :
    (P.server.processIncoming data sender).wp
      (linkRules (P.svrKnows i kept G) (P.Stores i G)) [] fun _ _ => True := by
  rw [UDPServer.processIncoming, Prog.wp_bind, processData]
  rw [show P.server.data pipelineIn = [P.svrCrypto.decryptTransport] from
    Crypto.extendServer_in P.data_in]
  refine linked_of_guarded (single_legible _ _ (decryptTransport_allOps _)) ?_
  refine single_guarded (decryptTransport_guarded fun buff hopened => ?_)
  refine ⟨fun hs => absurd hs continue_ne_stopError, fun _ => ?_⟩
  have hbuff := hdata buff hopened
  have hcommitted : ∀ u, P.Asks i kept sender u → u.Committed := fun _ hu => hu.committed
  simp only
  rw [if_neg (by decide), Prog.wp_bind]
  refine linked_of_guarded (ownEdits_legible.newPkt _ _) (Guarded.newPkt_wp
    (W := fun wire => ∃ body, wire = Base64.encode body) (fun c hc => hc)
    fun pkt h₁ wire _ _ hpkt hk₁ => ?_)
  rw [Prog.wp_bind]
  refine linked_unmarshal (legible_of_read hcommitted hbuff)
    (Guarded.unmarshal_shows_wp hpkt hbuff hcommitted (fun u body h₂ dest hu _ hbody hw hk₂ => ?_)
      fun e h₂ hpkt₂ hk₂ => ?_)
  · simp only
    rw [Prog.wp_bind]
    refine Prog.wp_mono (linkRules_mono _ _) (fun _ h₃ hmem => ?_) (linked_of_guarded
      (UDPServer.serveRequest_allOps ownEdits_legible (fun _ _ hq => callback_legible hsvr hq) _ _)
      (serveRequest_tells hsvr hsender (w := decodedView u body dest) hw (hu.requests hbody dest)))
    exact linked_of_guarded (UDPServer.putBack_allOps ownEdits_legible _)
      (Guarded.putBack_wp hmem fun _ => trivial)
  · simp only
    rw [Prog.wp_bind]
    refine linked_of_guarded (UDPServer.sendErr_allOps ownEdits_legible _ _ _)
      (sendErr_tells (keptRef_nil kept) fun h₃ q hq hk₃ => ?_)
    refine linked_of_guarded (UDPServer.putBack_allOps ownEdits_legible _)
      (Guarded.putBack_wp (hk₃.has ?_ hpkt₂).mem_keys fun _ => trivial)
    exact fun h => hq (h ▸ hpkt₂.mem_keys)

/-- The goroutine for a packet from `sendStream`. -/
theorem serverOutgoing_linked {p : Nat} {v : PktView} (hp : h.Has p v) (hv : P.Says kept G v) :
    (P.server.processOutgoing p).wp (linkRules (P.svrKnows i kept G) (P.Stores i G)) h
      fun _ _ => True := by
  have hout : P.server.data pipelineOut = [P.svrCrypto.encryptTransport] :=
    Crypto.extendServer_out P.data_out
  refine linked_of_guarded (UDPServer.processOutgoing_allOps ownEdits_legible (fun _ _ => trivial)
    (fun t ht ctx data => ?_) p) ?_
  · rw [hout] at ht
    rw [List.mem_singleton.mp ht]
    exact (encryptTransport_allOps _ ctx data).mono fun _ => Op.legible_of_transport
  rw [UDPServer.processOutgoing, Prog.wp_bind]
  refine Guarded.read_wp hp ?_
  rw [Prog.wp_bind]
  refine Guarded.read_wp hp ?_
  cases P.server.resolve (v.read .dest) with
  | none => exact Guarded.putBack_wp hp.mem_keys fun _ => trivial
  | some addr =>
    simp only
    rw [Prog.wp_bind, UDPServer.transmit, Prog.wp_bind, processData, hout]
    have hdist : ∀ data, P.Sent v data →
        (Routine.perform (.dist data addr)).wp (guarded (P.svrKnows i kept G) (P.Stores i G)) h
          fun _ h' => (Routine.putBack p).wp (guarded (P.svrKnows i kept G) (P.Stores i G)) h'
            fun _ _ => True := fun data hsent =>
      Guarded.dist_wp ⟨v, hv, hsent⟩ (Guarded.putBack_wp hp.mem_keys fun _ => trivial)
    refine single_guarded (encryptTransport_guarded hp rfl ?_ ?_ ?_)
    · exact ⟨fun hs => absurd hs continue_ne_stopError, fun _ => hdist _ (.inl rfl)⟩
    · intro k n hn
      exact ⟨fun hs => absurd hs continue_ne_stopError, fun _ => hdist _ (.inr ⟨k, n, hn, rfl⟩)⟩
    · refine fun hskip msg => ⟨fun _ err => ?_, fun hs => absurd rfl hs⟩
      -- a response with a kept ref is not encrypted, so this is another one
      have hkept : keptRef kept (v.metaGet keyRef) = false := by
        refine Bool.eq_false_iff.mpr fun hkept => ?_
        rw [(hv.key hkept).2.1] at hskip
        cases hskip
      simp only
      rw [Prog.wp_bind]
      refine Guarded.read_wp hp ?_
      rw [Prog.wp_bind]
      refine Guarded.read_wp hp ?_
      refine sendErr_tells hkept fun h₁ q hq hk₁ => Guarded.putBack_wp ?_ fun _ => trivial
      exact (hk₁.has (fun h => hq (h ▸ hp.mem_keys)) hp).mem_keys

end Server

end Parties

end Concord
