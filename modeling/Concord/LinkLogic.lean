import Concord.ClientHistory
import Concord.KeyExchangeLogic
import Concord.Link
import Concord.PacketRoundTrip

/-!
# What the client and the server know

What ties the entries of both key tables to the two private keys, for any traffic of the
client's application and of the other senders. The goroutines of the server keep to it by
`LinkServer`, those of the client by `LinkClient`.

1. `Sound`: packets of both pools have one map, whatever they were used for, since nothing but
   bytes of such packets is decoded.
2. The messages under way (`Asks`, `Says`). A request with a ref that is kept for exchanges is
   the client's and carries its key. A response with such a ref carries the server's key, and is
   made after the server has stored the client's.
-/

namespace Concord

open Go

/-! ## 1. Sound packets -/

/-- What is decoded is legible. -/
def Op.legible : Op → Prop
  | .call _ (.unmarshal bin) => Legible bin
  | _ => True

theorem Op.legible_call {p : Nat} {op : PktOp} (h : ∀ bin, op ≠ .unmarshal bin) :
    (Op.call p op).legible := by
  cases op with
  | unmarshal bin => exact absurd rfl (h bin)
  | _ => trivial

/-- The packet has one map, and a text in the wire struct that `Close` has put there. -/
def JSONPkt.Sound (c : JSONPkt) : Prop := ∃ v, c.Shows v ∧ v.Committed

theorem JSONPkt.sound_new : JSONPkt.new.Sound := ⟨_, shows_new, [], rfl⟩

theorem JSONPkt.Sound.apply {c d : JSONPkt} (h : c.Sound) {p : Nat} {op : PktOp}
    (hop : (Op.call p op).legible) (hd : op.apply c = some d) : d.Sound := by
  obtain ⟨v, hv, hc⟩ := h
  by_cases hedit : op.isEdit = true
  · obtain ⟨q, hq, hshows⟩ := hv.apply hedit
    obtain rfl : q = d := Option.some.inj (hq.symm.trans hd)
    exact ⟨_, hshows, PktView.after_committed hc op⟩
  · cases op with
    | unmarshal bin =>
      cases hd
      rcases hop with hbin | ⟨w, ⟨body, hbody⟩, rfl⟩
      · rw [show c.unmarshal bin = (c, some .badJson) by simp only [JSONPkt.unmarshal, hbin]]
        exact ⟨v, hv, hc⟩
      · obtain ⟨q, hq, hshows⟩ := hv.unmarshal hbody
        rw [hq]
        exact ⟨_, hshows, body, hbody⟩
    | _ => exact absurd rfl hedit

/-- One operation keeps the packets sound. -/
theorem Endpoint.handle_sound {s s' : Endpoint} {ch : Choice} {e : Op} {r : e.Res}
    (h : ∀ c ∈ s.pkts.mem, c.Sound) (he : e.legible) (hh : s.handle ch e = .ok (r, s')) :
    ∀ c ∈ s'.pkts.mem, c.Sound := by
  cases e with
  | poolGet =>
    cases hh
    exact PktPool.all_get JSONPkt.sound_new h ch.pick
  | poolPut p =>
    cases hh
    rw [show (({ s with pkts := s.pkts.put p } : Endpoint)).pkts.mem = s.pkts.mem from
      PktPool.put_mem _ _]
    exact h
  | call p op =>
    obtain ⟨c, d, hc, hd, -, rfl⟩ := Endpoint.handle_call_ok hh
    intro x hx
    rcases List.mem_or_eq_of_mem_set hx with hx | rfl
    · exact h x hx
    · exact (h c (List.mem_of_getElem? hc)).apply he hd
  | _ =>
    rw [(Endpoint.handle_frame hh).1 rfl]
    exact h

/-! ## 2. Rules and messages -/

/-- The rules with the obligation to decode what is legible only. -/
def linkRules (K : Knowledge) (G : Op → Heap → Prop) : Prog.Rules Op Op.Res Heap :=
  (guarded K G).only Op.legible

theorem linkRules_mono (K : Knowledge) (G : Op → Heap → Prop) : (linkRules K G).Mono :=
  Prog.Rules.only_mono (guarded_mono K G) _

/-- Code that decodes nothing is proved with the rules it has without the obligation. -/
theorem linked_of_guarded {K : Knowledge} {G : Op → Heap → Prop} {β : Type} {x : Routine β}
    {h : Heap} {Q : β → Heap → Prop} (hx : x.AllOps Op.legible) (hwp : x.wp (guarded K G) h Q) :
    x.wp (linkRules K G) h Q :=
  Prog.wp_only (guarded_mono K G) hx hwp

theorem linked_unmarshal {K : Knowledge} {G : Op → Heap → Prop} {h : Heap} {p : Nat} {bin : Bytes}
    {Q : Option JSONPkt.UnmarshalErr → Heap → Prop} (hbin : Legible bin)
    (hwp : (Routine.unmarshal p bin).wp (guarded K G) h Q) :
    (Routine.unmarshal p bin).wp (linkRules K G) h Q :=
  linked_of_guarded ⟨hbin, fun _ => trivial⟩ hwp

theorem ownEdits_legible : UDPServer.OwnEdits Op.legible :=
  ⟨trivial, fun _ => trivial, fun _ _ h => Op.legible_call h, fun _ _ => trivial, fun _ => trivial⟩

/-- The transforms decode nothing. -/
theorem Op.legible_of_transport {e : Op} (h : e.ofTransport = true) : e.legible := by
  cases e with
  | call p op => cases h
  | _ => trivial

/-- Nor do the callbacks of the key exchanges. -/
theorem Op.legible_of_exchange {e : Op} (h : e.ofExchange = true) : e.legible := by
  cases e with
  | call p op =>
    cases op with
    | unmarshal bin => cases h
    | _ => trivial
  | _ => trivial

theorem single_legible {t : BufferTransform} (ctx : TransformContext) (buff : Bytes)
    (ht : ∀ ctx buff, (t ctx buff).AllOps fun e => e.ofTransport = true) :
    (processTransforms [t] ctx buff).AllOps Op.legible :=
  processTransforms_allOps (fun t' ht' ctx data => by
    rw [List.mem_singleton.mp ht']
    exact (ht ctx data).mono fun _ => Op.legible_of_transport) ctx buff

/-! ### The messages -/

/-- The record of a packet that has decoded the bytes of another. -/
def decodedView (u : PktView) (body : Bytes) (dest : GoString) : PktView :=
  ⟨JSONPkt.overlay (JSONPkt.refMeta []) (coerceMeta u.kv), u.wire, body, dest⟩

theorem metaGet_decodedView (u : PktView) (body : Bytes) (dest : GoString) {k : GoString}
    (hk : ∀ b ∈ k, b < 0x80) : (decodedView u body dest).metaGet k = Utf8.toValid (u.metaGet k) := by
  rw [PktView.metaGet, decodedView, JSONPkt.get?_overlay, JSONPkt.get?_coerceMeta_ascii _ hk,
    PktView.metaGet]
  cases u.kv.get? k with
  | some x => rfl
  | none =>
    rw [JSONPkt.refMeta, GoMap.get?_set]
    by_cases href : k = keyRef
    · simp [href]
    · simp [href]

/-- A packet decodes the bytes of a message, or bytes that are no JSON. -/
theorem Guarded.unmarshal_shows_wp {K : Knowledge} {G : Op → Heap → Prop} {h : Heap} {p : Nat}
    {v : PktView} {M : PktView → Prop} {bin : Bytes} (hp : h.Has p v)
    (hbin : Json.parse bin = none ∨ ∃ u, M u ∧ bin = u.marshal) (hM : ∀ u, M u → u.Committed)
    {Q : Option JSONPkt.UnmarshalErr → Heap → Prop}
    (hok : ∀ u body h' dest, M u → bin = u.marshal → u.wire = Base64.encode body →
      h'.Has p ⟨JSONPkt.overlay v.kv (coerceMeta u.kv), u.wire, body, dest⟩ → h.Keeps h' p →
      Q none h')
    (herr : ∀ e h', h'.Has p v → h.Keeps h' p → Q (some e) h') :
    (Routine.unmarshal p bin).wp (guarded K G) h Q := by
  obtain ⟨c, hc, hv⟩ := hp
  have hmem := fun c' => Heap.mem_set_self (Heap.mem_keys hc) c'
  refine ⟨c, hc, fun c' hc' _ => ?_⟩
  cases hc'
  rcases hbin with hbin | ⟨u, hu, rfl⟩
  · have hq : c.unmarshal bin = (c, some .badJson) := by simp only [JSONPkt.unmarshal, hbin]
    simp only [PktOp.error, hq]
    exact herr _ _ ⟨c, hmem c, hv⟩ (Heap.keeps_set h p c)
  · obtain ⟨body, hwire⟩ := hM u hu
    obtain ⟨q, hq, hshows⟩ := hv.unmarshal hwire
    simp only [PktOp.error, hq]
    exact hok u body _ q.dest hu rfl hwire ⟨q, hmem q, hshows⟩ (Heap.keeps_set h p q)

/-! ### The refs that are kept -/

theorem keptRef_nil (kept : GoString → Bool) : keptRef kept [] = false := rfl

/-- A ref is kept as JSON writes it. -/
theorem keptRef_toValid (kept : GoString → Bool) (ref : GoString) :
    keptRef kept (Utf8.toValid ref) = keptRef kept ref := by
  unfold keptRef
  rw [Utf8.toValid_idem]
  congr 1
  exact decide_eq_decide.mpr (not_congr Utf8.toValid_eq_nil)

theorem refIn_marshal {u : PktView} (hu : u.Committed) :
    refIn u.marshal = Utf8.toValid (u.metaGet keyRef) := by
  obtain ⟨body, hbody⟩ := hu
  obtain ⟨q, hq, hshows⟩ := JSONPkt.shows_new.unmarshal hbody
  rw [refIn, hq, hshows.metaGet, PktView.metaGet, JSONPkt.get?_overlay,
    JSONPkt.get?_coerceMeta_ascii _ keyRef_ascii, PktView.metaGet]
  cases u.kv.get? keyRef with
  | some x => rfl
  | none => rfl

namespace Parties

variable {ι : Type} (P : Parties ι) (i : ι) (kept : GoString → Bool) (G : Prop)

/-- The ref of the packet is kept for exchanges with the server. -/
def Kept (v : PktView) : Prop := keptRef kept (v.metaGet keyRef) = true

/-- A message to the server: one with such a ref is a request of the client with the client's
public key. -/
structure Asks (sender : Addr) (v : PktView) : Prop where
  committed : v.Committed
  client : Kept kept v → sender = P.addr i ∧ v.metaGet keyTarget = Crypto.targetKeyExchangeServer
  key : sender = P.addr i → v.metaGet keyTarget = Crypto.targetKeyExchangeServer →
    Kept kept v ∧ ∃ body, v.wire = Base64.encode body ∧ pubKeyOf body = some (P.pub i)

/-- A message of the server: one with such a ref is the response to such a request, is not
sealed, and was made after the server had stored the client's key, at which time `G` became
true. -/
structure Says (v : PktView) : Prop where
  committed : v.Committed
  key : Kept kept v → v.wire = Base64.encode P.svrCrypto.publicKey ∧
    Crypto.isSkip (v.metaGet Crypto.keyNoCrypto) = true ∧ G

/-- On the server: the entries of the key table are under addresses that resolve to themselves,
and the client's is made with the client's key. -/
def svrKnows : Knowledge where
  get c := c.Sound
  send c := ∃ v, c.Shows v ∧ P.Says kept G v
  dist data _ := ∃ v, P.Says kept G v ∧ P.Sent v data
  key a shared _ := P.svr.resolve a = some a ∧
    (a = P.addr i → shared = P.svrSecret (P.curve.pub (P.privKey i)))
  write _ _ := True
  request _ _ := True
  deliver _ _ := True
  misc _ := True

/-- `G` is true once the client's key has been stored. -/
def Stores (e : Op) (_ : Heap) : Prop := ∀ a k, e = .setKeyStore a k → a = P.addr i → G

variable {P i kept G}

theorem says_of_not_kept {v : PktView} (hc : v.Committed) (h : ¬ Kept kept v) : P.Says kept G v :=
  ⟨hc, fun hk => absurd hk h⟩

theorem legible_of_read {M : PktView → Prop} (hM : ∀ u, M u → u.Committed) {bin : Bytes}
    (h : Json.parse bin = none ∨ ∃ u, M u ∧ bin = u.marshal) : Legible bin :=
  h.imp_right fun ⟨u, hu, hbin⟩ => ⟨u, hM u hu, hbin⟩

end Parties

end Concord
