import Concord.LinkLogic

/-!
# The goroutines of the client

Whatever the application does with the client and the extension, the client stores a key for the
server only from a response that has the server's key, and what it sends under a ref that is kept
for exchanges asks for that: `perform_linked`, `clientIncoming_linked`, `writeError_linked`.
-/

namespace Concord

open Go

namespace Parties

variable {ι : Type} {P : Parties ι} {i : ι} {kept : GoString → Bool} {G : Prop}

section Client

variable {h : Heap}

/-- On the client: an entry for the server holds the server's key, and what comes over the
channel of an exchange with the server has the server's key or none. -/
def cliKnows (P : Parties ι) (i : ι) (kept : GoString → Bool) (G : Prop) : Knowledge where
  get c := c.Sound
  send _ := True
  dist _ _ := True
  key a shared _ := a = P.svrAddr → shared = P.secret i (P.curve.pub P.svrKey) ∧ G
  write data _ := ∃ v, P.Asks i kept (P.addr i) v ∧ P.Sent v data
  request ref ch := ∀ k, ch = some (kexChannel k) → keptRef kept ref = true
  deliver ch c := c.Sound ∧ ∀ k, ch = kexChannel k →
    ∀ pk, pubKeyOf c.data = some pk → pk = P.svrPub ∧ G
  misc c := c.Sound

/-- A packet that is encoded is as asked. -/
def Encodes (P : Parties ι) (i : ι) (kept : GoString → Bool) (e : Op) (h : Heap) : Prop :=
  ∀ p, e = .read p .marshal → ∀ c, (p, c) ∈ h → ∀ asked, c.meets (P.crypto i) P.svrAddr kept asked = true

/-- The packet is no request for the key of a client with the server's address. -/
def AsksOther (P : Parties ι) (v : PktView) : Prop :=
  v.metaGet keyTarget = Crypto.targetKeyExchangeClient →
    v.wire ≠ Base64.encode (ipText P.svrAddr)

theorem asks_of_meets {c : JSONPkt} {v : PktView} (hv : c.Shows v) (hc : v.Committed)
    (href : v.metaGet keyRef ≠ [])
    (hmeets : ∀ asked, c.meets (P.crypto i) P.svrAddr kept asked = true) :
    P.Asks i kept (P.addr i) v ∧ P.AsksOther v := by
  obtain ⟨body, hbody⟩ := hc
  have hkey := of_decide_eq_true (hmeets .ownKey)
  have hown := of_decide_eq_true (hmeets .ownRef)
  have hother := of_decide_eq_true (hmeets .otherRef)
  have haddr := of_decide_eq_true (hmeets .otherAddr)
  rw [hv.metaGet keyTarget] at hkey hown hother haddr
  rw [hv.metaGet keyRef] at hown hother
  rw [hv.wire] at hkey haddr
  rw [hbody, Base64.decode_encode, Option.bind_some] at hkey
  refine ⟨⟨⟨body, hbody⟩, fun hkept => ⟨rfl, ?_⟩, fun _ ht => ?_⟩, haddr⟩
  · by_contra ht
    exact Bool.eq_false_iff.mp (hother ht) hkept
  · exact ⟨(hown ht).resolve_left href, body, hbody, hkey ht⟩

variable {K : Knowledge} {F : Op → Heap → Prop} {pkt : Nat} {v : PktView}

/-- `Send` gives the packet a ref if it has none. -/
theorem ensureRef_has (hp : h.Has pkt v) {Q : GoString → Heap → Prop}
    (hQ : ∀ ref v' h', h'.Has pkt v' → v' = v ∨ v' = v.after (.metaAdd keyRef ref) →
      v'.metaGet keyRef = ref → ref ≠ [] → h.Keeps h' pkt → Q ref h') :
    (UDPClient.ensureRef pkt).wp (guarded K F) h Q := by
  rw [UDPClient.ensureRef, Prog.wp_bind]
  refine Guarded.read_wp hp ?_
  rw [Prog.wp_ite]
  split
  · rw [Prog.wp_bind]
    refine Guarded.genRef_wp fun ref href => ?_
    rw [Prog.wp_bind]
    refine Guarded.call_wp rfl hp fun h' _ hp' hk => ?_
    refine hQ ref _ h' hp' (.inr rfl) ?_ (fun hnil => ?_) hk
    · rw [PktView.metaGet, PktView.after, GoMap.get?_set, if_pos rfl]
      rfl
    · rw [hnil] at href
      cases href
  · next hne => exact hQ _ v h hp (.inl rfl) rfl hne (Heap.keeps_refl h pkt)

/-- The `_out_` pipeline, before and after `Extend`. -/
theorem clientOut_guarded {installed : Bool} (hp : h.Has pkt v) {buff : Bytes}
    {Q : TransformContext × Bytes × Option GoString → Heap → Prop}
    (hplain : Q (⟨some pkt, codeContinue, [], pipelineOut, []⟩, buff, none) h)
    (hseal : ∀ k n : Bytes, n.length = Endpoint.nonceSize →
      Q (⟨some pkt, codeContinue, [], pipelineOut, []⟩, P.aead.sealText k n buff, none) h)
    (herr : ∀ ctx out err, Q (ctx, out, some err) h) :
    (processData (P.clientAt i installed).data { pkt := some pkt, pipelineName := pipelineOut }
      buff).wp (guarded K F) h Q := by
  cases installed with
  | false => exact hplain
  | true =>
    rw [processData, show (P.clientAt i true).data pipelineOut = [(P.crypto i).encryptTransport] from
      Crypto.extendClient_out (c := UDPClient.new P.svrAddr) rfl]
    refine single_guarded (encryptTransport_guarded hp rfl ?_ ?_ ?_)
    · exact ⟨fun hs => absurd hs continue_ne_stopError, fun _ => hplain⟩
    · intro k n hn
      exact ⟨fun hs => absurd hs continue_ne_stopError, fun _ => hseal k n hn⟩
    · exact fun _ msg => ⟨fun _ err => herr _ _ err, fun hs => absurd rfl hs⟩

/-- The `_in_` pipeline leaves the buffer or opens it. -/
theorem clientIn_guarded {installed : Bool} {ctx : TransformContext} {buff : Bytes}
    (hctx : ctx.pipelineName = pipelineIn ∧ ctx.stat = codeContinue)
    {Q : TransformContext × Bytes × Option GoString → Heap → Prop}
    (hQ : ∀ m, (m = buff ∨ ∃ k, P.aead.openText k buff = some m) → Q (ctx, m, none) h) :
    (processData (P.clientAt i installed).data ctx buff).wp (guarded K F) h Q := by
  cases installed with
  | false => exact hQ _ (.inl rfl)
  | true =>
    rw [processData, hctx.1, show (P.clientAt i true).data pipelineIn =
      [(P.crypto i).decryptTransport] from
      Crypto.extendClient_in (c := UDPClient.new P.svrAddr) rfl]
    refine single_guarded (decryptTransport_guarded fun m hm => ⟨fun hs => ?_, fun _ => hQ m hm⟩)
    exact absurd (hctx.2.symm.trans hs) continue_ne_stopError

/-- `Send`. -/
theorem send_asks {installed : Bool} {ch : Option Nat} (hp : h.Has pkt v) (hc : v.Committed)
    (hch : ∀ k, ch = some (kexChannel k) →
      v.metaGet keyTarget = Crypto.targetKeyExchangeServer) {Q : Option GoString → Heap → Prop}
    (hQ : ∀ err v' h', h'.Has pkt v' → v'.Committed → P.AsksOther v → h.Keeps h' pkt → Q err h') :
    ((P.clientAt i installed).send pkt ch).wp
      (guarded (P.cliKnows i kept G) (P.Encodes i kept)) h Q := by
  rw [UDPClient.send, Prog.wp_bind]
  refine ensureRef_has hp fun ref v' h' hp' hv' href hne hk => ?_
  have hsame : v'.metaGet keyTarget = v.metaGet keyTarget ∧ v'.wire = v.wire := by
    rcases hv' with rfl | rfl
    · exact ⟨rfl, rfl⟩
    · refine ⟨?_, rfl⟩
      rw [PktView.metaGet, PktView.after, GoMap.get?_set,
        if_neg (show keyTarget ≠ keyRef by decide)]
      rfl
  have hc' : v'.Committed := by
    rw [PktView.Committed, hsame.2]
    exact hc
  rw [Prog.wp_bind]
  refine Guarded.marshal_wp hp' fun hmeets => ?_
  obtain ⟨c, hmem, hshows⟩ := hp'
  obtain ⟨hasks, hother⟩ := asks_of_meets hshows hc' (href ▸ hne) (hmeets pkt rfl c hmem)
  have hpkt : h'.Has pkt v' := ⟨c, hmem, hshows⟩
  have hother : P.AsksOther v := by
    unfold AsksOther at hother ⊢
    rwa [hsame.1, hsame.2] at hother
  have hwrite : ∀ data, P.Sent v' data →
      (do Routine.perform (.writeStream data ch)
          Routine.perform (.register ref ch)
          return none : Routine (Option GoString)).wp
        (guarded (P.cliKnows i kept G) (P.Encodes i kept)) h' Q := by
    intro data hsent
    rw [Prog.wp_bind]
    refine Guarded.writeStream_wp ⟨v', hasks, hsent⟩ ?_
    rw [Prog.wp_bind]
    refine Guarded.register_wp (fun k hk => ?_) (hQ none v' h' hpkt hc' hother hk)
    have hkept := (hasks.key rfl (hsame.1.trans (hch k hk))).1
    rwa [Kept, href] at hkept
  rw [Prog.wp_bind]
  refine clientOut_guarded hpkt (hwrite _ (.inl rfl)) (fun k n hn => hwrite _ (.inr ⟨k, n, hn, rfl⟩))
    fun ctx out err => hQ _ v' h' hpkt hc' hother hk

theorem keyExResp_guarded {addr : GoString} {resp : Nat} {c : JSONPkt} (hresp : (resp, c) ∈ h)
    (hkey : addr = P.svrAddr → ∀ pk, pubKeyOf c.data = some pk → pk = P.svrPub ∧ G)
    {Q : Option GoString → Heap → Prop} (hQ : ∀ err, Q err h) :
    ((P.crypto i).processKeyExResp P.jsonErr addr resp).wp (guarded (P.cliKnows i kept G) F) h
      Q := by
  rw [Crypto.processKeyExResp, Prog.wp_bind]
  refine Guarded.readRaw_wp hresp ?_
  rw [show PktRead.eval c .data = c.data from rfl]
  cases hpk : pubKeyOf c.data with
  | none => exact hQ _
  | some pk =>
    simp only
    rw [Prog.wp_bind, Crypto.computeSharedKey]
    split
    · next x y hx hy =>
      rw [Prog.wp_pure, Prog.wp_bind]
      refine Guarded.setKeyStore_wp (fun haddr => ?_) fun _ => hQ _
      obtain ⟨rfl, hG⟩ := hkey haddr pk hpk
      cases hx
      cases hy
      exact ⟨rfl, hG⟩
    · exact Guarded.panic_wp

/-- An exchange, from the packet on. Its key is stored under the server's address only when it
is an exchange with the server, or asks for a client with that address. -/
theorem exchange_asks {β : Type} {installed : Bool} {ch : Nat} {addr target : GoString} {body : Bytes}
    {f : Option GoString → β} (hp : h.Has pkt v)
    (hch : ∀ k, ch = kexChannel k → target = Crypto.targetKeyExchangeServer)
    (haddr : addr = P.svrAddr → (∃ k, ch = kexChannel k) ∨
      target = Crypto.targetKeyExchangeClient ∧ body = ipText P.svrAddr) {Q : β → Heap → Prop}
    (hQ : ∀ b h', h.Keeps h' pkt → Q b h') :
    (do Routine.callAll pkt [.clear, .metaAdd keyTarget target, .write body, .close]
        let _ ← (P.clientAt i installed).send pkt (some ch)
        let resp ← Routine.perform (.receive ch)
        let err ← (P.crypto i).processKeyExResp P.jsonErr addr resp
        return f err : Routine β).wp (guarded (P.cliKnows i kept G) (P.Encodes i kept)) h Q := by
  rw [Prog.wp_bind]
  refine Guarded.callAll_wp rfl hp fun h₁ hp₁ hk₁ => ?_
  have htarget : ([PktOp.clear, .metaAdd keyTarget target, .write body, .close].foldl PktView.after
      v).metaGet keyTarget = target := by
    simp only [List.foldl_cons, List.foldl_nil, PktView.after, PktView.metaGet, GoMap.get?_set,
      if_true, Option.getD_some]
  rw [Prog.wp_bind]
  refine send_asks hp₁ ⟨body, rfl⟩ (fun k hk => ?_) fun _ v₂ h₂ _ _ hother hk₂ => ?_
  · rw [htarget]
    exact hch k (Option.some.inj hk)
  rw [Prog.wp_bind]
  refine Guarded.receive_wp fun resp c hresp hdel => ?_
  rw [Prog.wp_bind]
  refine keyExResp_guarded List.mem_cons_self (fun ha => ?_) fun err => ?_
  · rcases haddr ha with ⟨k, hk⟩ | ⟨ht, rfl⟩
    · exact hdel.2 k hk
    · exact absurd rfl (hother (htarget.trans ht))
  · exact hQ _ _ ((hk₁.trans hk₂).trans (Heap.keeps_cons _ _ _))

theorem eraseIdx_eq_erase {held : List Nat} (hd : held.Nodup) {n p : Nat}
    (hn : held[n]? = some p) : held.eraseIdx n = held.erase p := by
  obtain ⟨hlt, rfl⟩ := List.getElem?_eq_some_iff.mp hn
  exact (hd.erase_getElem n hlt).symm

/-- The packets a goroutine of the application holds. -/
structure Holds (h : Heap) (held : List Nat) : Prop where
  nodup : held.Nodup
  has : ∀ p ∈ held, ∃ v, h.Has p v ∧ v.Committed

theorem Holds.get {held : List Nat} (hh : Holds h held) {n p : Nat} (hn : held[n]? = some p) :
    ∃ v, h.Has p v ∧ v.Committed :=
  hh.has p (List.mem_of_getElem? hn)

/-- The goroutine has one packet more. -/
theorem Holds.snoc {held : List Nat} (hh : Holds h held) {h' : Heap} {p : Nat} (hp : p ∉ h.keys)
    (hv : ∃ v, h'.Has p v ∧ v.Committed) (hk : h.Keeps h' p) : Holds h' (held ++ [p]) := by
  have hne : ∀ q ∈ held, q ≠ p := by
    rintro q hq rfl
    obtain ⟨v, hv, -⟩ := hh.has q hq
    exact hp hv.mem_keys
  refine ⟨?_, fun q hq => ?_⟩
  · refine List.nodup_append.mpr ⟨hh.nodup, List.nodup_singleton p, fun q hq r hr => ?_⟩
    rw [List.mem_singleton.mp hr]
    exact hne q hq
  · rcases List.mem_append.mp hq with hq | hq
    · obtain ⟨v, hv, hc⟩ := hh.has q hq
      exact ⟨v, hk.has (hne q hq) hv, hc⟩
    · rw [List.mem_singleton.mp hq]
      exact hv

/-- One of the packets has changed. -/
theorem Holds.keeps {held : List Nat} (hh : Holds h held) {h' : Heap} {p : Nat}
    (hv : ∃ v, h'.Has p v ∧ v.Committed) (hk : h.Keeps h' p) : Holds h' held := by
  refine ⟨hh.nodup, fun q hq => ?_⟩
  by_cases hqp : q = p
  · exact hqp ▸ hv
  · obtain ⟨v, hv, hc⟩ := hh.has q hq
    exact ⟨v, hk.has hqp hv, hc⟩

/-- The goroutine has given one of the packets away. -/
theorem Holds.erase {held : List Nat} (hh : Holds h held) {h' : Heap} {n p : Nat}
    (hn : held[n]? = some p) (hk : h.Keeps h' p) : Holds h' (held.eraseIdx n) := by
  refine ⟨hh.nodup.eraseIdx n, fun q hq => ?_⟩
  rw [eraseIdx_eq_erase hh.nodup hn] at hq
  obtain ⟨hne, hq⟩ := hh.nodup.mem_erase_iff.mp hq
  obtain ⟨v, hv, hc⟩ := hh.has q hq
  exact ⟨v, hk.has hne hv, hc⟩

section Held

variable {K : Knowledge} {B : Op → Heap → Prop} {held : List Nat}

theorem Holds.newPkt_wp (hget : ∀ c, K.get c → c.Sound) (hh : Holds h held) {ref dest : GoString}
    {Q : Nat → Heap → Prop} (hQ : ∀ p h', Holds h' (held ++ [p]) → Q p h') :
    (Routine.newPkt ref dest).wp (linkRules K B) h Q :=
  linked_of_guarded (ownEdits_legible.newPkt _ _) (Guarded.newPkt_wp
    (W := fun wire => ∃ body, wire = Base64.encode body) hget
    fun p h' _ hp hw hv hk => hQ p h' (hh.snoc hp ⟨_, hv, hw⟩ hk))

theorem Holds.edit_wp (hh : Holds h held) {n p : Nat} (hn : held[n]? = some p) {op : PktOp}
    (hop : op.isEdit = true) {Q : Unit → Heap → Prop} (hQ : ∀ h', Holds h' held → Q () h') :
    (Routine.call p op).wp (linkRules K B) h Q := by
  obtain ⟨v, hv, hc⟩ := hh.get hn
  refine linked_of_guarded (Routine.call_allOps (Op.legible_call fun bin hbin => ?_))
    (Guarded.call_wp hop hv fun h' _ hv' hk =>
      hQ h' (hh.keeps ⟨_, hv', PktView.after_committed hc op⟩ hk))
  rw [hbin] at hop
  cases hop

theorem Holds.read_wp (hh : Holds h held) {n p : Nat} (hn : held[n]? = some p) {r : PktRead}
    {Q : Bytes → Heap → Prop} (hQ : ∀ x, Q x h) :
    (Routine.perform (.read p r)).wp (linkRules K B) h Q := by
  obtain ⟨v, hv, -⟩ := hh.get hn
  exact linked_of_guarded ⟨trivial, fun _ => trivial⟩ (Guarded.read_wp hv (hQ _))

theorem Holds.putBack_wp (hh : Holds h held) {n p : Nat} (hn : held[n]? = some p)
    {Q : Unit → Heap → Prop} (hQ : ∀ h', Holds h' (held.eraseIdx n) → Q () h') :
    (Routine.putBack p).wp (linkRules K B) h Q := by
  obtain ⟨v, hv, -⟩ := hh.get hn
  exact linked_of_guarded (UDPServer.putBack_allOps ownEdits_legible p)
    (Guarded.putBack_wp hv.mem_keys fun hk => hQ _ (hh.erase hn hk))

theorem Holds.receive_wp {ch : Nat} (hdel : ∀ c, K.deliver ch c → c.Sound) (hh : Holds h held)
    {Q : Nat → Heap → Prop} (hQ : ∀ p h', Holds h' (held ++ [p]) → Q p h') :
    (Routine.perform (.receive ch)).wp (linkRules K B) h Q := by
  refine linked_of_guarded ⟨trivial, fun _ => trivial⟩ (Guarded.receive_wp fun p c hp hc => ?_)
  obtain ⟨v, hv, hcommitted⟩ := hdel c hc
  exact hQ p _ (hh.snoc hp ⟨v, ⟨c, List.mem_cons_self, hv⟩, hcommitted⟩ (Heap.keeps_cons _ _ _))

theorem Holds.receiveMisc_wp (hmisc : ∀ c, K.misc c → c.Sound) (hh : Holds h held)
    {Q : Nat → Heap → Prop} (hQ : ∀ p h', Holds h' (held ++ [p]) → Q p h') :
    (Routine.perform .receiveMisc).wp (linkRules K B) h Q := by
  refine linked_of_guarded ⟨trivial, fun _ => trivial⟩ (Guarded.receiveMisc_wp fun p c hp hc => ?_)
  obtain ⟨v, hv, hcommitted⟩ := hmisc c hc
  exact hQ p _ (hh.snoc hp ⟨v, ⟨c, List.mem_cons_self, hv⟩, hcommitted⟩ (Heap.keeps_cons _ _ _))

end Held

/-! ### Nothing but a datagram is decoded -/

theorem clientOut_legible (installed : Bool) (ctx : TransformContext)
    (hctx : ctx.pipelineName = pipelineOut) (buff : Bytes) :
    (processData (P.clientAt i installed).data ctx buff).AllOps Op.legible := by
  cases installed with
  | false => trivial
  | true =>
    rw [processData, hctx, show (P.clientAt i true).data pipelineOut =
      [(P.crypto i).encryptTransport] from
      Crypto.extendClient_out (c := UDPClient.new P.svrAddr) rfl]
    exact single_legible _ _ (encryptTransport_allOps _)

theorem clientIn_legible (installed : Bool) (ctx : TransformContext)
    (hctx : ctx.pipelineName = pipelineIn) (buff : Bytes) :
    (processData (P.clientAt i installed).data ctx buff).AllOps Op.legible := by
  cases installed with
  | false => trivial
  | true =>
    rw [processData, hctx, show (P.clientAt i true).data pipelineIn =
      [(P.crypto i).decryptTransport] from
      Crypto.extendClient_in (c := UDPClient.new P.svrAddr) rfl]
    exact single_legible _ _ (decryptTransport_allOps _)

theorem answer_legible (ref : GoString) (pkt : Nat) :
    (UDPClient.answer ref pkt).AllOps Op.legible := by
  refine Prog.allOps_op trivial fun r => ?_
  rcases r with - | - | ch
  · exact Prog.allOps_op trivial fun _ => ⟨trivial, fun _ => trivial⟩
  · exact Prog.allOps_op trivial fun _ => ⟨trivial, fun _ => trivial⟩
  · exact Prog.allOps_op trivial fun _ => ⟨trivial, fun _ => trivial⟩

theorem send_legible (installed : Bool) (pkt : Nat) (ch : Option Nat) :
    ((P.clientAt i installed).send pkt ch).AllOps Op.legible := by
  refine Prog.allOps_bind ?_ fun ref => Prog.allOps_op trivial fun bin => ?_
  · refine Prog.allOps_op trivial fun ref => Prog.allOps_ite (fun _ => ?_) fun _ => trivial
    exact Prog.allOps_op trivial fun ref => Prog.allOps_bind (Routine.call_allOps trivial)
      fun _ => trivial
  · refine Prog.allOps_bind (clientOut_legible installed _ rfl bin) fun r => ?_
    obtain ⟨ctx, bin, err⟩ := r
    cases err with
    | some err => trivial
    | none =>
      exact Prog.allOps_ite (fun _ => trivial) fun _ =>
        Prog.allOps_op trivial fun _ => Prog.allOps_op trivial fun _ => trivial

theorem exchange_legible {β : Type} (installed : Bool) (ch : Nat) (addr target : GoString)
    (body : Bytes) (f : Option GoString → β) (pkt : Nat) :
    (do Routine.callAll pkt [.clear, .metaAdd keyTarget target, .write body, .close]
        let _ ← (P.clientAt i installed).send pkt (some ch)
        let resp ← Routine.perform (.receive ch)
        let err ← (P.crypto i).processKeyExResp P.jsonErr addr resp
        return f err : Routine β).AllOps Op.legible := by
  refine Prog.allOps_bind (Routine.callAll_allOps fun op hop => ?_) fun _ => ?_
  · refine Op.legible_call fun bin h => ?_
    simp [h] at hop
  refine Prog.allOps_bind (send_legible installed pkt _) fun _ => ?_
  exact Prog.allOps_op trivial fun resp => Prog.allOps_bind
    (Crypto.processKeyExResp_allOps _ _ trivial (fun _ => trivial) trivial) fun _ => trivial

/-! ### The goroutines -/

/-- A goroutine of the application. -/
theorem perform_linked {script : Script} (hscript : script.AllOps ApiCall.decodesLegible)
    {held : List Nat} (hheld : Holds h held) :
    (P.perform i script held).wp (linkRules (P.cliKnows i kept G) (P.Encodes i kept)) h
      fun _ _ => True := by
  -- by induction on the script; what it holds stays committed whatever it does
  induction script generalizing h held with
  | ret a => trivial
  | op call k ih =>
    cases call with
    | newPkt ref dest =>
      rw [perform, Prog.wp_bind]
      exact hheld.newPkt_wp (fun c hc => hc) fun p h' hh => ih () (hscript.2 _) hh
    | edit n op =>
      rw [perform]
      cases hn : held[n]? with
      | none => trivial
      | some p =>
        simp only
        rw [Prog.wp_bind]
        exact hheld.edit_wp hn op.2 fun h' hh => ih () (hscript.2 _) hh
    | unmarshal n bin =>
      rw [perform]
      cases hn : held[n]? with
      | none => trivial
      | some p =>
        obtain ⟨v, hv, hc⟩ := hheld.get hn
        simp only
        rw [Prog.wp_bind]
        refine linked_unmarshal hscript.1 (Guarded.unmarshal_shows_wp (M := PktView.Committed) hv
          hscript.1 (fun _ hu => hu) (fun u body h' dest _ _ hbody hw hk => ?_) fun e h' hv' hk => ?_)
        · exact ih _ (hscript.2 _) (hheld.keeps ⟨_, hw, body, hbody⟩ hk)
        · exact ih _ (hscript.2 _) (hheld.keeps ⟨v, hv', hc⟩ hk)
    | read n r =>
      rw [perform]
      cases hn : held[n]? with
      | none => trivial
      | some p =>
        simp only
        rw [Prog.wp_bind]
        exact hheld.read_wp hn fun x => ih x (hscript.2 _) hheld
    | putBack n =>
      rw [perform]
      cases hn : held[n]? with
      | none => trivial
      | some p =>
        simp only
        rw [Prog.wp_bind]
        exact hheld.putBack_wp hn fun h' hh => ih () (hscript.2 _) hh
    | send installed n respCh =>
      rw [perform]
      cases hn : held[n]? with
      | none => trivial
      | some p =>
        obtain ⟨v, hv, hc⟩ := hheld.get hn
        simp only
        rw [Prog.wp_bind]
        refine linked_of_guarded (send_legible installed p _) (send_asks hv hc (fun k hk => ?_)
          fun err v' h' hv' hc' _ hk => ih err (hscript.2 _) (hheld.keeps ⟨v', hv', hc'⟩ hk))
        obtain ⟨c, -, hck⟩ := Option.map_eq_some_iff.mp hk
        exact absurd hck (appChannel_ne c k)
    | receive respCh =>
      rw [perform, Prog.wp_bind]
      refine hheld.receive_wp (fun c hc => ?_) fun p h' hh => ih () (hscript.2 _) hh
      exact hc.1
    | receiveMisc =>
      rw [perform, Prog.wp_bind]
      exact hheld.receiveMisc_wp (fun c hc => hc) fun p h' hh => ih () (hscript.2 _) hh
    | configureClient n kexResp =>
      rw [perform]
      cases hn : held[n]? with
      | none => trivial
      | some p =>
        obtain ⟨v, hv, hc⟩ := hheld.get hn
        simp only
        rw [Prog.wp_bind, Crypto.configureClient, Prog.wp_bind]
        exact linked_of_guarded (exchange_legible false _ _ _ _ _ p) (exchange_asks hv (fun _ _ => rfl)
          (fun _ => .inl ⟨kexResp, rfl⟩) fun err h' hk => ih _ (hscript.2 _) (hheld.erase hn hk))
    | serverKEx installed n kexResp =>
      rw [perform]
      cases hn : held[n]? with
      | none => trivial
      | some p =>
        obtain ⟨v, hv, hc⟩ := hheld.get hn
        simp only
        rw [Prog.wp_bind]
        exact linked_of_guarded (exchange_legible installed _ _ _ _ _ p) (exchange_asks hv
          (fun _ _ => rfl) (fun _ => .inl ⟨kexResp, rfl⟩)
          fun err h' hk => ih err (hscript.2 _) (hheld.erase hn hk))
    | clientKEx installed clientAddr n respChan =>
      rw [perform]
      cases hn : held[n]? with
      | none => trivial
      | some p =>
        obtain ⟨v, hv, hc⟩ := hheld.get hn
        simp only
        rw [Prog.wp_bind]
        refine linked_of_guarded (exchange_legible installed _ _ _ _ _ p) (exchange_asks hv
          (fun k hk => absurd hk (appChannel_ne respChan k)) (fun ha => .inr ⟨rfl, ?_⟩)
          fun err h' hk => ih err (hscript.2 _) (hheld.erase hn hk))
        rw [ha]
    | oracle =>
      rw [perform, Prog.wp_bind]
      exact linked_of_guarded ⟨trivial, fun _ => trivial⟩ (fun r _ => ih r (hscript.2 _) hheld)

/-- The goroutine for a datagram of the server, before and after `Extend`. -/
theorem clientIncoming_linked {installed : Bool} {data : Bytes}
    (hdata : P.Reads data (P.Says kept G)) :
    ((P.clientAt i installed).processIncoming data).wp
      (linkRules (P.cliKnows i kept G) (P.Encodes i kept)) h fun _ _ => True := by
  rw [UDPClient.processIncoming, Prog.wp_bind]
  refine linked_of_guarded (clientIn_legible installed _ rfl data)
    (clientIn_guarded ⟨rfl, rfl⟩ fun buff hopened => ?_)
  have hbuff := hdata buff hopened
  have hcommitted : ∀ v, P.Says kept G v → v.Committed := fun _ hv => hv.committed
  simp only
  rw [Prog.wp_bind]
  refine linked_of_guarded (ownEdits_legible.newPkt _ _) (Guarded.newPkt_wp
    (W := fun wire => ∃ body, wire = Base64.encode body) (fun c hc => hc)
    fun pkt h₁ wire _ _ hpkt _ => ?_)
  rw [Prog.wp_bind]
  refine linked_unmarshal (legible_of_read hcommitted hbuff)
    (Guarded.unmarshal_shows_wp hpkt hbuff hcommitted (fun v body h₂ dest hv _ hbody hw _ => ?_)
      fun e h₂ _ _ => trivial)
  change h₂.Has pkt (decodedView v body dest) at hw
  simp only
  rw [Prog.wp_bind]
  refine linked_of_guarded ⟨trivial, fun _ => trivial⟩ (Guarded.read_wp hw ?_)
  rw [show (decodedView v body dest).read (.metaGet keyRef) = Utf8.toValid (v.metaGet keyRef) from
    metaGet_decodedView v body dest keyRef_ascii]
  obtain ⟨c, hc, hshows⟩ := hw
  refine linked_of_guarded (answer_legible _ _) (answer_guarded hc ⟨_, hshows, body, hbody⟩
    fun ch hreq => ⟨⟨_, hshows, body, hbody⟩, fun k hk pk hpk => ?_⟩)
  -- a kept ref, so the message is the response to an exchange
  have hkept : Kept kept v := by
    have := hreq k (congrArg some hk)
    rwa [keptRef_toValid] at this
  obtain ⟨hwire, -, hG⟩ := hv.key hkept
  have hsame : body = P.svrCrypto.publicKey := Base64.encode_inj (hbody.symm.trans hwire)
  rw [show c.data = body from hshows.buff, hsame, show pubKeyOf P.svrCrypto.publicKey =
    some P.svrPub from pubKeyOf_pubKeyText _] at hpk
  exact ⟨(Option.some.inj hpk).symm, hG⟩

theorem writeError_linked {ch : Nat} {err : GoString} :
    (UDPClient.writeError ch err).wp (linkRules (P.cliKnows i kept G) (P.Encodes i kept)) h
      fun _ _ => True := by
  refine linked_of_guarded ?_ ?_
  · exact Prog.allOps_bind (ownEdits_legible.newErrPkt _ _ _) fun _ =>
      Prog.allOps_op trivial fun _ => ⟨trivial, fun _ => trivial⟩
  rw [UDPClient.writeError, Prog.wp_bind]
  refine Guarded.newErrPkt_wp (W := fun wire => ∃ body, wire = Base64.encode body) (fun c hc => hc)
    fun p h₁ wire _ hw hp _ => ?_
  obtain ⟨c, hc, hv⟩ := hp
  rw [Prog.wp_bind]
  refine Guarded.deliver_wp hc ⟨⟨_, hv, hw⟩, fun k _ pk hpk => ?_⟩ (Guarded.writeDone_wp trivial)
  rw [show c.data = [] from hv.buff, pubKeyOf_nil] at hpk
  cases hpk

end Client

end Parties

end Concord
