import Concord.OwnLogic

/-!
# Ownership is linear in the UDP server

Packets move between the pool, `processIncoming`, `sendStream` and
`processOutgoing`, with deferred and explicit `PutBack`s on every path.

1. The rules of the server's operations, in terms of which packet objects a
   goroutine holds.
2. Every routine of the server ends holding nothing, and callbacks and
   transforms are asked only to leave what they were handed (`TargetCallback.Linear`,
   `BufferTransform.Linear`). The relay and key-exchange callbacks and the
   transport transforms do.
3. `Ledger`: who holds what, replayed from the log of a run alone. The replay
   fails at the first access, hand-off or `PutBack` by a goroutine that does not
   hold the packet, and at a `Get` of a packet somebody holds.
4. `ownership_linear`: it never fails.
-/

namespace Concord

open Go

/-! ## 1. Rules -/

/-- An operation of the server's code, as opposed to the client's. The flag of a key
store is only ever set. -/
def Op.onServer : Op → Bool
  | .writeStream _ _ | .writeDone | .register _ _ | .lookup _ | .unregister _ | .deliver _ _ | .misc _
  | .receive _ | .receiveMisc | .genRef => false
  | .setKeySent _ b => b
  | _ => true

def serverRules : Prog.Rules Op Op.Res Heap := fun e h Φ =>
  e.onServer = true ∧ ownRules .nothing e h Φ

theorem serverRules_mono : serverRules.Mono := fun _ _ _ _ h hΦ =>
  ⟨hΦ.1, ownRules_mono _ h hΦ.2⟩

section Rules

variable {h : Heap} {p : Nat}

theorem exists_content (hp : p ∈ h.keys) : ∃ c, (p, c) ∈ h := by
  obtain ⟨⟨q, c⟩, hc, rfl⟩ := List.mem_map.mp hp
  exact ⟨c, hc⟩

theorem read_wp {r : PktRead} {Q : Bytes → Heap → Prop} (hp : p ∈ h.keys) (hQ : ∀ v, Q v h) :
    (Routine.perform (.read p r)).wp serverRules h Q := by
  obtain ⟨c, hc⟩ := exists_content hp
  exact ⟨rfl, c, hc, hQ _⟩

theorem op_wp {op : PktOp} {Q : Option JSONPkt.UnmarshalErr → Heap → Prop} (hp : p ∈ h.keys)
    (hQ : ∀ r h', Heap.keys h' = h.keys → Q r h') :
    (Routine.perform (.call p op)).wp serverRules h Q := by
  obtain ⟨c, hc⟩ := exists_content hp
  exact ⟨rfl, c, hc, fun c' _ => hQ _ _ (Heap.keys_set h p c')⟩

theorem call_wp {op : PktOp} {Q : Unit → Heap → Prop} (hp : p ∈ h.keys)
    (hQ : ∀ h', Heap.keys h' = h.keys → Q () h') : (Routine.call p op).wp serverRules h Q := by
  rw [Routine.call, Prog.wp_bind]
  exact op_wp hp fun _ h' hk => hQ h' hk

theorem callAll_wp {ops : List PktOp} {Q : Unit → Heap → Prop} (hp : p ∈ h.keys)
    (hQ : ∀ h', Heap.keys h' = h.keys → Q () h') : (Routine.callAll p ops).wp serverRules h Q := by
  induction ops generalizing h with
  | nil => exact hQ h rfl
  | cons op ops ih =>
    rw [Routine.callAll, Prog.wp_bind]
    exact call_wp hp fun h' hk => ih (hk ▸ hp) fun h'' hk' => hQ h'' (hk'.trans hk)

theorem get_wp {Q : Nat → Heap → Prop}
    (hQ : ∀ p h', p ∉ h.keys → Heap.keys h' = p :: h.keys → Q p h') :
    (Routine.perform .poolGet).wp serverRules h Q :=
  ⟨rfl, fun p _ hp _ => hQ p _ hp rfl⟩

theorem newPkt_wp {ref dest : GoString} {Q : Nat → Heap → Prop}
    (hQ : ∀ p h', p ∉ h.keys → Heap.keys h' = p :: h.keys → Q p h') :
    (Routine.newPkt ref dest).wp serverRules h Q := by
  rw [Routine.newPkt, Prog.wp_bind]
  refine get_wp fun p h' hp hk => ?_
  rw [Prog.wp_bind]
  exact callAll_wp (hk ▸ List.mem_cons_self) fun h'' hk' => hQ p h'' hp (hk'.trans hk)

theorem newErrPkt_wp {ref dest msg : GoString} {Q : Nat → Heap → Prop}
    (hQ : ∀ p h', p ∉ h.keys → Heap.keys h' = p :: h.keys → Q p h') :
    (Routine.newErrPkt ref dest msg).wp serverRules h Q := by
  rw [Routine.newErrPkt, Prog.wp_bind]
  refine get_wp fun p h' hp hk => ?_
  rw [Prog.wp_bind]
  exact callAll_wp (hk ▸ List.mem_cons_self) fun h'' hk' => hQ p h'' hp (hk'.trans hk)

/-- What is left after the goroutine has given `p` away. -/
theorem keys_erase_cons {rest : List Nat} (hk : h.keys = p :: rest) (hp : p ∉ rest) :
    (h.erase p).keys = rest := by
  rw [Heap.keys_erase, hk, List.filter_cons_of_neg (by simp)]
  refine List.filter_eq_self.mpr fun q hq => ?_
  have hne : q ≠ p := fun e => hp (e ▸ hq)
  simpa using hne

theorem putBack_wp {rest : List Nat} {Q : Unit → Heap → Prop} (hk : h.keys = p :: rest)
    (hp : p ∉ rest) (hQ : ∀ h', Heap.keys h' = rest → Q () h') :
    (Routine.putBack p).wp serverRules h Q :=
  ⟨rfl, hk ▸ List.mem_cons_self, hQ _ (keys_erase_cons hk hp)⟩

theorem send_wp {rest : List Nat} {Q : Unit → Heap → Prop} (hk : h.keys = p :: rest)
    (hp : p ∉ rest) (hQ : ∀ h', Heap.keys h' = rest → Q () h') :
    (Routine.perform (.sendStream p)).wp serverRules h Q := by
  obtain ⟨c, hc⟩ := exists_content (hk ▸ List.mem_cons_self : p ∈ h.keys)
  exact ⟨rfl, c, hc, trivial, hQ _ (keys_erase_cons hk hp)⟩

theorem getKeyStore_wp {a : GoString} {Q : Option KeyRef → Heap → Prop} (hQ : ∀ r, Q r h) :
    (Routine.perform (.getKeyStore a)).wp serverRules h Q :=
  ⟨rfl, fun r _ => hQ r⟩

theorem getKeySent_wp {ks : Nat} {Q : Bool → Heap → Prop} (hQ : ∀ r, Q r h) :
    (Routine.perform (.getKeySent ks)).wp serverRules h Q :=
  ⟨rfl, hQ⟩

theorem sendErr_wp {ref dest msg : GoString} {Q : Unit → Heap → Prop}
    (hQ : ∀ h', Heap.keys h' = h.keys → Q () h') :
    (UDPServer.sendErr ref dest msg).wp serverRules h Q := by
  rw [UDPServer.sendErr, Prog.wp_bind]
  exact newErrPkt_wp fun p h' hp hk => send_wp hk hp hQ

end Rules

/-! ## 2. The server's routines -/

/-- The callback leaves the packets it was handed, and anything else it holds, as
they are: none is kept, given away or put back. -/
def TargetCallback.Linear (cb : TargetCallback) : Prop :=
  ∀ (ctx : TargetCtx) (pw : Nat) (h : Heap), ctx.pkt ∈ h.keys → pw ∈ h.keys →
    (cb ctx pw).wp serverRules h fun ctx' h' => ctx'.pkt ∈ h.keys ∧ Heap.keys h' = h.keys

/-- The same for a transform, which is handed a packet on the way out. -/
def BufferTransform.Linear (t : BufferTransform) : Prop :=
  ∀ (ctx : TransformContext) (data : Bytes) (h : Heap), (∀ p, ctx.pkt = some p → p ∈ h.keys) →
    (t ctx data).wp serverRules h fun r h' =>
      (∀ p, r.1.pkt = some p → p ∈ h.keys) ∧ Heap.keys h' = h.keys

theorem relayCallback_linear : TargetCallback.Linear relayCallback := by
  intro ctx pw h hpkt _
  simp only [relayCallback, Prog.wp_bind]
  refine read_wp hpkt fun ref => read_wp hpkt fun relayAddr => ?_
  refine newPkt_wp fun fwd h₁ hfwd hk₁ => ?_
  have hmem : ∀ {h' : Heap}, h'.keys = h₁.keys → fwd ∈ h'.keys := fun hk => by
    rw [hk, hk₁]
    exact List.mem_cons_self
  refine call_wp (hmem rfl) fun h₂ hk₂ => ?_
  refine read_wp (by rw [hk₂, hk₁]; exact List.mem_cons_of_mem _ hpkt) fun body => ?_
  refine call_wp (hmem hk₂) fun h₃ hk₃ => ?_
  refine call_wp (hmem (hk₃.trans hk₂)) fun h₄ hk₄ => ?_
  exact send_wp (hk₄.trans (hk₃.trans (hk₂.trans hk₁))) hfwd fun h₅ hk₅ => ⟨hpkt, hk₅⟩

theorem UDPServer.new_linear (resolve : GoString → Option Addr) (name : GoString)
    (cbs : List TargetCallback) (h : (UDPServer.new resolve).queues name = some cbs) :
    ∀ cb ∈ cbs, TargetCallback.Linear cb := by
  intro cb hcb
  simp only [UDPServer.new] at h
  rcases mem_addCallback h hcb with ⟨cbs₀, h₀, -⟩ | rfl
  · cases h₀
  · exact relayCallback_linear

namespace UDPServer

section Routines

variable {svr : UDPServer}
  (hq : ∀ name cbs, svr.queues name = some cbs → ∀ cb ∈ cbs, TargetCallback.Linear cb)
  (hdata : ∀ name, ∀ t ∈ svr.data name, BufferTransform.Linear t)

theorem dispatch_wp {h : Heap} {ctx : TargetCtx} {resp : Nat} {rest : List Nat}
    (hk : h.keys = resp :: rest) (hn : resp ∉ rest) :
    (dispatch ctx resp).wp serverRules h fun _ h' => Heap.keys h' = rest := by
  have hresp : resp ∈ h.keys := hk ▸ List.mem_cons_self
  unfold dispatch
  simp only [Prog.wp_ite, Prog.wp_bind]
  split
  · exact putBack_wp hk hn fun h' hk' => hk'
  split
  · refine read_wp hresp fun relayAddr => ?_
    split
    · refine call_wp hresp fun h₁ hk₁ => call_wp (hk₁ ▸ hresp) fun h₂ hk₂ => ?_
      refine call_wp (hk₂ ▸ hk₁ ▸ hresp) fun h₃ hk₃ => ?_
      exact send_wp (hk₃.trans (hk₂.trans (hk₁.trans hk))) hn fun h' hk' => hk'
    · exact putBack_wp hk hn fun h' hk' => hk'
  · refine call_wp hresp fun h₁ hk₁ => ?_
    exact send_wp (hk₁.trans hk) hn fun h' hk' => hk'

include hq in
theorem serveRequest_wp {h : Heap} {sender : GoString} {pkt : Nat} (hpkt : pkt ∈ h.keys) :
    (svr.serveRequest sender pkt).wp serverRules h fun _ h' => Heap.keys h' = h.keys := by
  simp only [serveRequest, Prog.wp_bind]
  refine read_wp hpkt fun ref => newPkt_wp fun resp h₁ hn hk₁ => ?_
  have hpkt₁ : pkt ∈ h₁.keys := by
    rw [hk₁]
    exact List.mem_cons_of_mem _ hpkt
  have hresp₁ : resp ∈ h₁.keys := by
    rw [hk₁]
    exact List.mem_cons_self
  refine read_wp hpkt₁ fun target => ?_
  refine Prog.wp_mono serverRules_mono (fun r h₂ hr => ?_)
    (processPacket_wp (J := fun ctx h' => ctx.pkt ∈ h₁.keys ∧ Heap.keys h' = h₁.keys)
      serverRules_mono (fun name cbs hcbs cb hcb ctx h' hJ => ?_) ⟨hpkt₁, rfl⟩)
  · obtain ⟨ctx, err⟩ := r
    have hk₂ := hr.2.trans hk₁
    cases err with
    | none => exact dispatch_wp hk₂ hn
    | some err =>
      simp only [Prog.wp_bind]
      refine putBack_wp hk₂ hn fun h₃ hk₃ => sendErr_wp fun h₄ hk₄ => hk₄.trans hk₃
  · refine Prog.wp_mono serverRules_mono (fun ctx' h'' hc => ⟨hJ.2 ▸ hc.1, hc.2.trans hJ.2⟩)
      (hq name cbs hcbs cb hcb ctx resp h' (hJ.2.symm ▸ hJ.1) (hJ.2.symm ▸ hresp₁))

include hq hdata in
theorem processIncoming_wp (data : Bytes) (sender : GoString) :
    (svr.processIncoming data sender).wp serverRules [] fun _ h' => h' = [] := by
  have hnil : ∀ {h' : Heap}, h'.keys = [] → h' = [] := fun hk => List.map_eq_nil_iff.mp hk
  simp only [processIncoming, processData, Prog.wp_bind]
  refine Prog.wp_mono serverRules_mono (fun r h₁ hr => ?_)
    (processTransforms_wp (J := fun ctx h' => (∀ p, ctx.pkt = some p → p ∈ Heap.keys []) ∧
      Heap.keys h' = []) serverRules_mono (fun t ht ctx data h' hJ => ?_)
      ⟨fun p hp => (nomatch hp), rfl⟩)
  · obtain ⟨ctx, data, err⟩ := r
    cases err with
    | some err => exact sendErr_wp fun h' hk => hnil (hk.trans hr.2)
    | none =>
      simp only [Prog.wp_ite, Prog.wp_bind, Prog.wp_pure]
      split
      · exact hnil hr.2
      refine newPkt_wp fun pkt h₂ hn hk₂ => ?_
      rw [hr.2] at hn hk₂
      have hpkt₂ : pkt ∈ h₂.keys := by
        rw [hk₂]
        exact List.mem_cons_self
      refine op_wp hpkt₂ fun uerr h₃ hk₃ => ?_
      cases uerr with
      | some _ =>
        simp only [Prog.wp_bind]
        refine sendErr_wp fun h₄ hk₄ => ?_
        exact putBack_wp (hk₄.trans (hk₃.trans hk₂)) hn fun h' hk => hnil hk
      | none =>
        simp only [Prog.wp_bind]
        refine Prog.wp_mono serverRules_mono (fun _ h₄ hk₄ => ?_)
          (serveRequest_wp hq (hk₃.symm ▸ hpkt₂))
        exact putBack_wp (hk₄.trans (hk₃.trans hk₂)) hn fun h' hk => hnil hk
  · refine Prog.wp_mono serverRules_mono (fun r h'' hr => ?_)
      (hdata _ t ht ctx data h' (hJ.2.symm ▸ hJ.1))
    rw [hJ.2] at hr
    exact hr

include hdata in
theorem processOutgoing_wp (pkt : Nat) (c : JSONPkt) :
    (svr.processOutgoing pkt).wp serverRules [(pkt, c)] fun _ h' => h' = [] := by
  have hmem : ∀ {h : Heap}, h.keys = [pkt] → pkt ∈ h.keys := fun hk => by
    rw [hk]
    exact List.mem_singleton_self pkt
  have hput : ∀ {h : Heap}, h.keys = [pkt] →
      (Routine.putBack pkt).wp serverRules h fun _ h' => h' = [] := fun hk =>
    putBack_wp hk List.not_mem_nil fun h' hk' => List.map_eq_nil_iff.mp hk'
  simp only [processOutgoing, Prog.wp_bind]
  refine read_wp (hmem rfl) fun bin => read_wp (hmem rfl) fun dest => ?_
  cases svr.resolve dest with
  | none => exact hput rfl
  | some addr =>
    simp only [transmit, processData, Prog.wp_bind]
    refine Prog.wp_mono serverRules_mono (fun r h₁ hr => ?_)
      (processTransforms_wp (J := fun ctx h' => (∀ p, ctx.pkt = some p → p = pkt) ∧
        Heap.keys h' = [pkt]) serverRules_mono (fun t ht ctx data h' hJ => ?_)
        ⟨fun p hp => (Option.some.inj hp).symm, rfl⟩)
    · obtain ⟨ctx, bin, err⟩ := r
      cases err with
      | some err =>
        simp only [Prog.wp_bind]
        refine read_wp (hmem hr.2) fun ref => read_wp (hmem hr.2) fun dest => ?_
        exact sendErr_wp fun h₂ hk₂ => hput (hk₂.trans hr.2)
      | none =>
        simp only [Prog.wp_ite, Prog.wp_pure]
        split
        · exact ⟨rfl, trivial, hput hr.2⟩
        · exact hput hr.2
    · refine Prog.wp_mono serverRules_mono (fun r h'' hr => ?_)
        (hdata _ t ht ctx data h' fun p hp => hJ.1 p hp ▸ hmem hJ.2)
      rw [hJ.2] at hr
      exact ⟨fun p hp => List.mem_singleton.mp (hr.1 p hp), hr.2⟩

end Routines

end UDPServer

/-! ### The Crypto extension -/

namespace Crypto

theorem encryptAES_wp {a : AEAD} {key data : Bytes} {h : Heap}
    {Q : Except GoString Bytes → Heap → Prop} (hQ : ∀ r, Q r h) :
    (encryptAES a key data).wp serverRules h Q := by
  simp only [encryptAES, Prog.wp_ite, Prog.wp_bind, Prog.wp_pure]
  split
  · refine ⟨rfl, fun r _ => ?_⟩
    cases r with
    | none => exact hQ _
    | some n => exact hQ _
  · exact hQ _

theorem panic_wp {α : Type} {h : Heap} {Q : α → Heap → Prop} :
    (Routine.panic : Routine α).wp serverRules h Q :=
  ⟨rfl, trivial⟩

theorem decryptAES_wp {a : AEAD} {key data : Bytes} {h : Heap}
    {Q : Except GoString Bytes → Heap → Prop} (hQ : ∀ r, Q r h) :
    (decryptAES a key data).wp serverRules h Q := by
  simp only [decryptAES, Prog.wp_ite, Prog.wp_pure]
  split
  · split
    · exact panic_wp
    · split <;> exact hQ _
  · exact hQ _

theorem encryptTransport_linear (cr : Crypto) : BufferTransform.Linear cr.encryptTransport := by
  intro ctx data h hpkt
  unfold encryptTransport
  split
  · exact panic_wp
  · next p hp =>
    have hmem := hpkt p hp
    simp only [Prog.wp_bind, Prog.wp_ite, Prog.wp_pure]
    refine read_wp hmem fun v => ?_
    split
    · exact ⟨hpkt, rfl⟩
    · refine read_wp hmem fun dest => getKeyStore_wp fun r => ?_
      cases r with
      | none => exact ⟨hpkt, rfl⟩
      | some k =>
        simp only [Prog.wp_bind, Prog.wp_ite, Prog.wp_pure]
        refine getKeySent_wp fun sent => ?_
        split
        · refine encryptAES_wp fun r => ?_
          cases r with
          | error err => exact ⟨hpkt, rfl⟩
          | ok ciphertext => exact ⟨hpkt, rfl⟩
        · exact ⟨rfl, hpkt, rfl⟩

theorem decryptTransport_linear (cr : Crypto) : BufferTransform.Linear cr.decryptTransport := by
  intro ctx data h hpkt
  simp only [decryptTransport, Prog.wp_bind]
  refine getKeyStore_wp fun r => ?_
  cases r with
  | none => exact ⟨hpkt, rfl⟩
  | some k =>
    simp only [Prog.wp_bind]
    refine decryptAES_wp fun r => ?_
    cases r with
    | error err => exact ⟨hpkt, rfl⟩
    | ok decrypted => exact ⟨hpkt, rfl⟩

/-- Both key-exchange callbacks end by writing to the response. -/
theorem respond_wp {h : Heap} {ctx : TargetCtx} {pw : Nat} {body : Bytes} (hpkt : ctx.pkt ∈ h.keys)
    (hpw : pw ∈ h.keys) {ctx' : TargetCtx} (hctx : ctx'.pkt = ctx.pkt) :
    (do Routine.call pw (.metaAdd keyNoCrypto (ascii "true"))
        Routine.call pw (.write body)
        return ctx' : Routine TargetCtx).wp serverRules h fun ctx' h' =>
      ctx'.pkt ∈ h.keys ∧ Heap.keys h' = h.keys := by
  simp only [Prog.wp_bind, Prog.wp_pure]
  refine call_wp hpw fun h₁ hk₁ => call_wp (hk₁ ▸ hpw) fun h₂ hk₂ => ?_
  exact ⟨hctx ▸ hpkt, hk₂.trans hk₁⟩

theorem keyExchangeServer_linear (cr : Crypto) : TargetCallback.Linear cr.keyExchangeServer := by
  intro ctx pw h hpkt hpw
  unfold keyExchangeServer
  rw [Prog.wp_bind]
  refine read_wp hpkt fun body => ?_
  cases pubKeyOf body with
  | none => exact ⟨hpkt, rfl⟩
  | some pk =>
    simp only [computeSharedKey, Prog.wp_bind]
    split
    · exact ⟨rfl, trivial, respond_wp hpkt hpw rfl⟩
    · exact panic_wp

theorem keyExchangeClient_linear : TargetCallback.Linear keyExchangeClient := by
  intro ctx pw h hpkt hpw
  unfold keyExchangeClient
  rw [Prog.wp_bind]
  refine read_wp hpkt fun body => ?_
  cases ipOf body with
  | none => exact ⟨hpkt, rfl⟩
  | some ip =>
    simp only
    rw [Prog.wp_bind]
    refine getKeyStore_wp fun r => ?_
    cases r with
    | none => exact ⟨hpkt, rfl⟩
    | some keys => exact respond_wp hpkt hpw rfl

theorem extendServer_data_linear {cr : Crypto} {svr : UDPServer}
    (hdata : ∀ name, ∀ t ∈ svr.data name, BufferTransform.Linear t) (name : GoString)
    (t : BufferTransform) (ht : t ∈ (cr.extendServer svr).data name) : BufferTransform.Linear t := by
  rcases mem_addTransform ht with ht | rfl
  · rcases mem_addTransform ht with ht | rfl
    · exact hdata name t ht
    · exact decryptTransport_linear cr
  · exact encryptTransport_linear cr

theorem extendServer_queues_linear {cr : Crypto} {svr : UDPServer}
    (hq : ∀ name cbs, svr.queues name = some cbs → ∀ cb ∈ cbs, TargetCallback.Linear cb)
    (name : GoString) (cbs : List TargetCallback)
    (h : (cr.extendServer svr).queues name = some cbs) : ∀ cb ∈ cbs, TargetCallback.Linear cb := by
  intro cb hcb
  rcases mem_addCallback h hcb with ⟨cbs₁, h₁, hcb₁⟩ | rfl
  · rcases mem_addCallback h₁ hcb₁ with ⟨cbs₀, h₀, hcb₀⟩ | rfl
    · exact hq name cbs₀ h₀ cb hcb₀
    · exact keyExchangeServer_linear cr
  · exact keyExchangeClient_linear

end Crypto

/-! ## 3. The ledger -/

/-- Who holds which packet objects: each goroutine, and the hand-off of
`sendStream`. -/
structure Ledger where
  held : List (List Nat)
  handoff : Option Nat

namespace Ledger

def owned (l : Ledger) : List Nat := l.handoff.toList ++ l.held.flatten

/-- A goroutine that holds `held` may perform the operation: it holds the packet it
touches, a packet it gets is held by nobody, and the hand-off is free when it
sends. -/
def permits (l : Ledger) (held : List Nat) : (e : Op) → e.Res → Bool
  | .poolGet, p => p ∉ l.owned
  | .sendStream p, _ => p ∈ held && l.handoff.isNone
  | e, _ => e.touches.all fun p => p ∈ held

/-- The ledger after an entry of the log; `none` if the entry is not permitted. -/
def record (l : Ledger) : Entry Op Op.Res UDPServer.Env → Option Ledger
  | .act i e r =>
    match l.held[i]? with
    | none => none
    | some held =>
      if l.permits held e r then
        some ⟨l.held.set i (heldAfter e r held), if e.onSending then e.touches else l.handoff⟩
      else none
  | .env (.datagram _ _) => some ⟨l.held ++ [[]], l.handoff⟩
  | .env .sendPkts => some ⟨l.held ++ [l.handoff.toList], none⟩
  | .env (.gc _) => some l

/-- The ledger of a whole log. -/
def ofLog (log : List (Entry Op Op.Res UDPServer.Env)) : Option Ledger :=
  log.foldlM record ⟨[], none⟩

theorem ofLog_snoc {log : List (Entry Op Op.Res UDPServer.Env)} {l : Ledger} (h : ofLog log = some l)
    (x : Entry Op Op.Res UDPServer.Env) : ofLog (log ++ [x]) = l.record x := by
  have h' : log.foldlM record ⟨[], none⟩ = some l := h
  simp [ofLog, List.foldlM_append, h']

end Ledger

/-- The entry is a `Get` that hands out packet object `p`. -/
def isGet (p : Nat) : Entry Op Op.Res UDPServer.Env → Bool
  | .act _ .poolGet q => decide (p = q)
  | _ => false

/-- The entry is a `PutBack` of packet object `p`. -/
def isPut (p : Nat) : Entry Op Op.Res UDPServer.Env → Bool
  | .act _ (.poolPut q) _ => decide (p = q)
  | _ => false

def isGc : Entry Op Op.Res UDPServer.Env → Bool
  | .env (.gc _) => true
  | _ => false

section Step

variable {s s' : Endpoint} {hs : List Heap} {i : Nat} {h h' : Heap} {c : Choice} {e : Op} {r : e.Res}

/-- The ledger that goes with the goroutines' heaps. -/
def ledgerOf (s : Endpoint) (hs : List Heap) : Ledger := ⟨hs.map Heap.keys, s.sending⟩

theorem owned_count (s : Endpoint) (hs : List Heap) (p : Nat) :
    (ledgerOf s hs).owned.count p =
      s.sending.toList.count p + (hs.map Heap.keys).flatten.count p := by
  simp [ledgerOf, Ledger.owned]

theorem le_places (s : Endpoint) (hs : List Heap) (p : Nat) :
    s.pkts.pool.count p + (ledgerOf s hs).owned.count p ≤ (places s hs).count p := by
  rw [owned_count, places_count]
  omega

/-- What an operation of the server does to the hand-off. -/
theorem sending_act (hh : s.handle c e = .ok (r, s')) :
    s'.sending = (if e.onSending then e.touches else s.sending) ∧
      (e.onSending = true → s.sending = none) := by
  by_cases he : e.onSending = true
  · cases e with
    | sendStream p =>
      obtain ⟨hn, rfl⟩ := Endpoint.handle_send_ok hh
      exact ⟨rfl, fun _ => hn⟩
    | _ => cases he
  · rw [if_neg he]
    exact ⟨(Endpoint.handle_frame hh).2.2.1 (by simpa using he), fun h => absurd h he⟩

theorem record_act (hi : hs[i]? = some h)
    (hh : s.handle c e = .ok (r, s')) (ha : Acted .nothing s' hs i h h' e r) :
    (ledgerOf s hs).record (.act i e r) = some (ledgerOf s' (hs.set i h')) := by
  obtain ⟨hsend, hfree⟩ := sending_act hh
  have hheld : (ledgerOf s hs).held[i]? = some h.keys := by
    rw [ledgerOf, List.getElem?_map, hi]
    rfl
  have hperm : (ledgerOf s hs).permits h.keys e r = true := by
    have htouch : (e.touches.all fun p => p ∈ h.keys) = true := by
      cases ht : e.touches with
      | none => rfl
      | some p => simpa using ha.entitled p ht
    cases e with
    | poolGet =>
      have hcount : (ledgerOf s hs).owned.count r = 0 := by
        have hlin := ha.owns.linear r
        have hset := count_keys_set hi h' r
        rw [ha.held, heldAfter, count_cons_ite, if_pos rfl] at hset
        rw [places_count, hsend] at hlin
        rw [owned_count]
        simp only [Op.onSending] at hlin
        simp only [Bool.false_eq_true, if_false] at hlin
        omega
      simpa [Ledger.permits] using List.count_eq_zero.mp hcount
    | sendStream p =>
      simp only [Ledger.permits, Bool.and_eq_true, decide_eq_true_eq]
      exact ⟨ha.entitled p rfl, by rw [ledgerOf, hfree rfl]; rfl⟩
    | _ => exact htouch
  rw [Ledger.record, hheld]
  simp only [hperm, if_true]
  simp only [ledgerOf, List.map_set, ha.held, hsend]

/-- Every packet a goroutine acquires comes from a `Get`, and the only way to be
rid of one for good is `PutBack`. -/
theorem owned_act (o : Owns .nothing s hs) (hi : hs[i]? = some h) (hsrv : e.onServer = true)
    (hh : s.handle c e = .ok (r, s')) (ha : Acted .nothing s' hs i h h' e r) (p : Nat) :
    (ledgerOf s' (hs.set i h')).owned.count p + (if isPut p (.act i e r) then 1 else 0) =
      (ledgerOf s hs).owned.count p + if isGet p (.act i e r) then 1 else 0 := by
  obtain ⟨hsend, hfree⟩ := sending_act hh
  have hset := count_keys_set hi h' p
  have hone : p ∈ h.keys → h.keys.count p = 1 := fun hp => (o.exclusive hi hp).2.2.2.2.1
  rw [owned_count, owned_count, hsend]
  rw [ha.held] at hset
  cases e with
  | poolGet =>
    rw [heldAfter, count_cons_ite] at hset
    simp only [Op.onSending, isPut, isGet, Bool.false_eq_true, if_false, decide_eq_true_eq] at hset ⊢
    omega
  | poolPut q =>
    have hq := ha.entitled q rfl
    rw [heldAfter, count_filter_ne] at hset
    simp only [Op.onSending, isPut, isGet, Bool.false_eq_true, if_false, decide_eq_true_eq] at hset ⊢
    by_cases hpq : p = q
    · subst hpq
      have := hone hq
      simp only [if_true] at hset ⊢
      omega
    · rw [if_neg hpq] at hset
      rw [if_neg hpq]
      omega
  | sendStream q =>
    have hq := ha.entitled q rfl
    rw [heldAfter, count_filter_ne] at hset
    rw [hfree rfl]
    simp only [Op.onSending, Op.touches, isPut, isGet, Bool.false_eq_true, if_false, if_true,
      Option.toList_some, Option.toList_none, List.count_nil, count_cons_ite] at hset ⊢
    by_cases hpq : p = q
    · subst hpq
      have := hone hq
      simp only [if_true] at hset ⊢
      omega
    · simp only [if_neg hpq] at hset ⊢
      omega
  | deliver ch q => cases hsrv
  | misc q => cases hsrv
  | receive ch => cases hsrv
  | receiveMisc => cases hsrv
  | _ =>
    simp only [heldAfter] at hset
    simp only [Op.onSending, isPut, isGet, Bool.false_eq_true, if_false]
    omega

/-- A packet object that exists is in the pool or owned, as long as none is
dropped. -/
theorem placed_act (o : Owns .nothing s hs) (hi : hs[i]? = some h) (hsrv : e.onServer = true)
    (hh : s.handle c e = .ok (r, s')) (ha : Acted .nothing s' hs i h h' e r)
    (hall : ∀ p < s.pkts.mem.length, 1 ≤ s.pkts.pool.count p + (ledgerOf s hs).owned.count p) :
    ∀ p < s'.pkts.mem.length,
      1 ≤ s'.pkts.pool.count p + (ledgerOf s' (hs.set i h')).owned.count p := by
  intro p hp
  have hown := owned_act o hi hsrv hh ha p
  have hold := hall p
  cases e with
  | poolGet =>
    cases hh
    cases hn : s.pkts.pool[c.pick]? with
    | some q =>
      rw [PktPool.get_some hn] at hp hown ⊢
      have her := count_eraseIdx hn p
      have hlt := hold hp
      simp only [isPut, isGet, Bool.false_eq_true, if_false, decide_eq_true_eq] at hown ⊢
      omega
    | none =>
      rw [PktPool.get_none hn] at hp hown ⊢
      have hlen : p < s.pkts.mem.length + 1 := by simpa [PktPool.alloc] using hp
      have hpool : s.pkts.alloc.2.pool = s.pkts.pool := rfl
      have hnew : s.pkts.alloc.1 = s.pkts.mem.length := rfl
      simp only [isPut, isGet, Bool.false_eq_true, if_false, decide_eq_true_eq, hnew] at hown
      simp only [hpool]
      split at hown
      · omega
      · next hne =>
        have := hold (by omega)
        omega
  | poolPut q =>
    cases hh
    have hq : q < s.pkts.mem.length := o.lt_length (List.mem_append_right _
      (List.mem_append_right _ (List.mem_append_right _ (List.mem_append_right _ (List.mem_flatten.mpr
        ⟨h.keys, List.mem_map_of_mem (List.mem_of_getElem? hi), ha.entitled q rfl⟩)))))
    have hpool : (s.pkts.put q).pool = q :: s.pkts.pool := by
      rw [PktPool.put, dif_pos hq]
    simp only [PktPool.put_mem] at hp
    have hlt := hold hp
    simp only [isPut, isGet, Bool.false_eq_true, if_false, decide_eq_true_eq] at hown
    rw [hpool, count_cons_ite]
    omega
  | call q op =>
    obtain ⟨pkt, d, hq, -, -, rfl⟩ := Endpoint.handle_call_ok hh
    have hlt := hold (by simpa [PktPool.setPkt] using hp)
    have hpool : (s.pkts.setPkt q d).pool = s.pkts.pool := rfl
    simp only [isPut, isGet, Bool.false_eq_true, if_false] at hown
    simp only [hpool]
    omega
  | _ =>
    rw [(Endpoint.handle_frame hh).1 rfl] at hp ⊢
    have hlt := hold hp
    simp only [isPut, isGet, Bool.false_eq_true, if_false] at hown
    omega

end Step

/-! ## 4. Every run -/

section Runs

variable {svr : UDPServer}
  (hq : ∀ name cbs, svr.queues name = some cbs → ∀ cb ∈ cbs, TargetCallback.Linear cb)
  (hdata : ∀ name, ∀ t ∈ svr.data name, BufferTransform.Linear t)

/-- The state, the log and the heaps agree on who holds what. -/
structure Booked (s : Endpoint) (log : List (Entry Op Op.Res UDPServer.Env)) (hs : List Heap) :
    Prop where
  owns : Owns .nothing s hs
  ledger : Ledger.ofLog log = some (ledgerOf s hs)
  balance : ∀ p, log.countP (isGet p) = log.countP (isPut p) + (ledgerOf s hs).owned.count p
  placed : log.all (fun x => !isGc x) = true →
    ∀ p < s.pkts.mem.length, 1 ≤ s.pkts.pool.count p + (ledgerOf s hs).owned.count p

theorem Booked.act {s s' : Endpoint} {log : List (Entry Op Op.Res UDPServer.Env)} {hs : List Heap}
    (b : Booked s log hs) {i : Nat} {h h' : Heap} {c : Choice} {e : Op} {r : e.Res}
    (hi : hs[i]? = some h) (hsrv : e.onServer = true) (hh : s.handle c e = .ok (r, s'))
    (ha : Acted .nothing s' hs i h h' e r) : Booked s' (log ++ [.act i e r]) (hs.set i h') where
  owns := ha.owns
  ledger := by rw [Ledger.ofLog_snoc b.ledger, record_act hi hh ha]
  balance p := by
    have hown := owned_act b.owns hi hsrv hh ha p
    have hbal := b.balance p
    simp only [List.countP_append, List.countP_singleton]
    omega
  placed hgc := by
    rw [List.all_append, Bool.and_eq_true] at hgc
    exact placed_act b.owns hi hsrv hh ha (b.placed hgc.1)

/-- `readPkts` and `sendPkts` start a goroutine with what it is handed. -/
theorem Booked.env {s s' : Endpoint} {log : List (Entry Op Op.Res UDPServer.Env)}
    {hs hs' : List Heap} (b : Booked s log hs) {a : UDPServer.Env} (ho : Owns .nothing s' hs')
    (hrec : (ledgerOf s hs).record (.env a) = some (ledgerOf s' hs'))
    (hown : ∀ p, (ledgerOf s' hs').owned.count p = (ledgerOf s hs).owned.count p)
    (hpkts : isGc (.env a) = false → s'.pkts = s.pkts) : Booked s' (log ++ [.env a]) hs' where
  owns := ho
  ledger := by rw [Ledger.ofLog_snoc b.ledger, hrec]
  balance p := by
    have hbal := b.balance p
    rw [hown]
    simpa [isGet, isPut] using hbal
  placed hgc p hp := by
    rw [List.all_append, Bool.and_eq_true] at hgc
    rw [hpkts (by simpa using hgc.2)] at hp ⊢
    rw [hown]
    exact b.placed hgc.1 p hp

def bookLogic : Logic svr.machine Heap where
  rules := serverRules
  mono := serverRules_mono
  inv := Booked
  final h := h = []
  allowed _ _ := True
  mayCrash := True
  act := by
    intro s i c e k hs h Φ _ _ hb hi hΦ
    split
    · next r st hh =>
      obtain ⟨h', hr, ha⟩ := hb.owns.act hi hΦ.2 (fun _ _ _ => trivial) hh
      exact ⟨h', hr, hb.act hi hΦ.1 hh ha⟩
    · trivial
    · trivial
  env := by
    intro s a hs st _ hb he
    obtain ⟨n, rfl, rfl⟩ := UDPServer.env_quiet he
    exact hb.env (hb.owns.drop n) rfl (fun p => rfl) (fun h => by cases h)
  spawn := by
    intro s a hs st t _ _ hb he
    rcases UDPServer.env_spawn he with ⟨d, sender, rfl, rfl, rfl⟩ | ⟨p, rfl, hp, rfl, rfl⟩
    · refine ⟨[], UDPServer.processIncoming_wp hq hdata d sender, hb.env hb.owns.spawn ?_ ?_ ?_⟩
      · simp [Ledger.record, ledgerOf, Heap.keys]
      · intro p
        rw [owned_count, owned_count, flatten_keys_snoc]
        simp [Heap.keys]
      · exact fun _ => rfl
    · obtain ⟨c, -, -, ho⟩ := hb.owns.spawnSend hp
      refine ⟨[(p, c)], UDPServer.processOutgoing_wp hdata p c, hb.env ho ?_ ?_ ?_⟩
      · simp [Ledger.record, ledgerOf, Heap.keys, hp]
      · intro q
        rw [owned_count, owned_count, flatten_keys_snoc, hp]
        simp [Heap.keys, Nat.add_comm]
      · exact fun _ => rfl

theorem Booked.init : Booked Endpoint.init [] [] where
  owns := Owns.init _
  ledger := rfl
  balance p := by simp [ledgerOf, Ledger.owned, Endpoint.init]
  placed _ p hp := by simp [Endpoint.init, PktPool.empty] at hp

include hq hdata in
/-- The bookkeeping holds along every run. -/
theorem booked_run {evs : List (Event Choice UDPServer.Env)}
    {s : Sys Op Op.Res Endpoint UDPServer.Env}
    (h : svr.machine.run UDPServer.start evs = .ok s) :
    ∃ hs : List Heap, hs.length = s.threads.length ∧ Booked s.state s.log hs ∧
      ∀ (i : Nat) (t : Routine Unit) (h : Heap), s.threads[i]? = some t → hs[i]? = some h →
        t.wp serverRules h fun _ h' => h' = [] := by
  have hinit : (bookLogic hq hdata).Holds UDPServer.start :=
    ⟨[], rfl, Booked.init, by simp [UDPServer.start]⟩
  exact (bookLogic hq hdata).run_holds hinit
    (Machine.eachAllowed_of_forall (fun _ _ => trivial) _ _) h

include hq hdata in
/-- Ownership is linear along every run without a panic, with callbacks and
transforms that leave the packets they are handed. The ledger never fails, so a
packet is touched only by the goroutine that holds it and `Get` hands out only
packets nobody holds. No packet object is in two places, and as long as the
runtime drops none, each is in the pool or owned. Every `Get` of a packet object is
matched by one `PutBack`, except that of a packet that is owned right now; a
goroutine that has ended owns none. -/
theorem ownership_linear {evs : List (Event Choice UDPServer.Env)}
    {s : Sys Op Op.Res Endpoint UDPServer.Env}
    (h : svr.machine.run UDPServer.start evs = .ok s) :
    ∃ l, Ledger.ofLog s.log = some l ∧ l.held.length = s.threads.length ∧
      l.handoff = s.state.sending ∧
      (∀ p, (s.state.pkts.pool ++ l.owned).count p ≤ 1) ∧
      (s.log.all (fun x => !isGc x) = true →
        ∀ p < s.state.pkts.mem.length, (s.state.pkts.pool ++ l.owned).count p = 1) ∧
      (∀ i : Nat, s.threads[i]? = some (.ret ()) → l.held[i]? = some []) ∧
      ∀ p, s.log.countP (isGet p) = s.log.countP (isPut p) + l.owned.count p := by
  obtain ⟨hs, hlen, hb, hwp⟩ := booked_run hq hdata h
  have hone : ∀ p, (s.state.pkts.pool ++ (ledgerOf s.state hs).owned).count p ≤ 1 := fun p => by
    rw [List.count_append]
    exact (le_places s.state hs p).trans (hb.owns.linear p)
  refine ⟨ledgerOf s.state hs, hb.ledger, by simpa [ledgerOf] using hlen, rfl, hone,
    fun hgc p hp => ?_, fun i hi => ?_, hb.balance⟩
  · have hle := hone p
    have hge := hb.placed hgc p hp
    rw [List.count_append] at hle ⊢
    omega
  · obtain ⟨g, hg⟩ := Logic.exists_ghost hlen hi
    have hnil : g = [] := hwp i _ g hi hg
    rw [ledgerOf, List.getElem?_map, hg, hnil]
    rfl

end Runs

/-- A packet is relayed: the goroutine that handles the request is still at work when
`sendPkts` starts the one that sends the forwarded packet, and ends before it. -/
def relayRun : List (Event Choice UDPServer.Env) :=
  .env (.datagram (ascii ("\x7b\"m\":\x7b\"_ref\":\"r1\",\"_tgt\":\"svr.relay\"," ++
      "\"_relay_dst\":\"10.0.0.2:4000\"\x7d\x7d")) (ascii "10.0.0.1:4000")) ::
    List.replicate 25 (.act 0 {}) ++ .env .sendPkts :: List.replicate 2 (.act 1 {}) ++
    List.replicate 2 (.act 0 {}) ++ List.replicate 2 (.act 1 {})

/-- All three packets of the relayed request end up in the pool, once each. -/
theorem relayRun_linear :
    ∃ s l, (UDPServer.new some).machine.run UDPServer.start relayRun = .ok s ∧
      Ledger.ofLog s.log = some l ∧ s.state.pkts.pool = [2, 0, 1] ∧
      ∀ p, s.log.countP (isGet p) = s.log.countP (isPut p) + l.owned.count p := by
  obtain ⟨s, hs, hpool⟩ := Option.map_eq_some_iff.mp
    (show ((UDPServer.new some).machine.run UDPServer.start relayRun).result?.map
      (fun s => s.state.pkts.pool) = some [2, 0, 1] by decide +kernel)
  obtain ⟨l, hl, -, -, -, -, -, hbal⟩ := ownership_linear (UDPServer.new_linear some)
    (by simp [UDPServer.new]) (Outcome.eq_ok_of_result? hs)
  exact ⟨s, l, Outcome.eq_ok_of_result? hs, hl, hpool, hbal⟩

end Concord
