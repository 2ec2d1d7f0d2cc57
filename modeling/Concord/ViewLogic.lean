import Concord.OwnLogic
import Concord.PacketView

/-!
# Rules for goroutines that work on messages

The ownership rules, for packet objects whose contents are known as records
(`PktView`): a read gives the record's value, a call updates it, and a packet the
creator hands out is the record `NewPkt` or `NewErrPkt` describes as long as the pool
hands out clean packets.
-/

namespace Concord

open Go

/-- No data is left in the wire struct, and there is one map. -/
def JSONPkt.clean (c : JSONPkt) : Bool :=
  c.kvMeta.isSome && decide (c.kvMeta = c.wireMeta) && decide (c.wireData = [])

theorem JSONPkt.clean_shows {c : JSONPkt} (h : c.clean = true) : ∃ v, c.Shows v ∧ v.wire = [] := by
  simp only [clean, Bool.and_eq_true, decide_eq_true_eq] at h
  obtain ⟨⟨hkv, hsame⟩, hw⟩ := h
  obtain ⟨r, hr⟩ := Option.isSome_iff_exists.mp hkv
  obtain ⟨m, hm⟩ := maps_kvMeta hr
  exact ⟨⟨m, c.wireData, c.buff, c.dest⟩, ⟨⟨r, hr, hsame ▸ hr, hm⟩, rfl, rfl, rfl⟩, hw⟩

/-- What a read of such a packet returns. -/
def PktView.read (v : PktView) : PktRead → Bytes
  | .dest => v.dest
  | .metaGet key => v.metaGet key
  | .data => v.buff
  | .marshal => v.marshal

theorem JSONPkt.Shows.read {c : JSONPkt} {v : PktView} (h : c.Shows v) (r : PktRead) :
    r.eval c = v.read r := by
  cases r with
  | dest => exact h.dest
  | metaGet key => exact h.metaGet key
  | data => exact h.buff
  | marshal => exact h.marshal

/-! ## 1. Heaps -/

namespace Heap

/-- Packet object `p` of the heap is as the record says. -/
def Has (h : Heap) (p : Nat) (v : PktView) : Prop := ∃ c, (p, c) ∈ h ∧ c.Shows v

/-- The heap `h'` holds everything of `h` but maybe `p`. -/
def Keeps (h h' : Heap) (p : Nat) : Prop := ∀ q d, q ≠ p → (q, d) ∈ h → (q, d) ∈ h'

variable {h h' h'' : Heap} {p q : Nat} {v : PktView} {c d : JSONPkt}

theorem Has.mem_keys (hp : h.Has p v) : p ∈ h.keys := by
  obtain ⟨c, hc, -⟩ := hp
  exact Heap.mem_keys hc

theorem Keeps.trans (h₁ : h.Keeps h' p) (h₂ : h'.Keeps h'' p) : h.Keeps h'' p :=
  fun q d hq hd => h₂ q d hq (h₁ q d hq hd)

theorem Keeps.has (hk : h.Keeps h' p) (hq : q ≠ p) (hv : h.Has q v) : h'.Has q v := by
  obtain ⟨c, hc, hs⟩ := hv
  exact ⟨c, hk q c hq hc, hs⟩

theorem keeps_refl (h : Heap) (p : Nat) : h.Keeps h p := fun _ _ _ hd => hd

theorem keeps_cons (h : Heap) (e : Nat × JSONPkt) (p : Nat) : h.Keeps (e :: h) p :=
  fun _ _ _ hd => List.mem_cons_of_mem _ hd

theorem keeps_set (h : Heap) (p : Nat) (c : JSONPkt) : h.Keeps (h.set p c) p := by
  intro q d hq hd
  refine List.mem_map.mpr ⟨(q, d), hd, ?_⟩
  rw [if_neg hq]

theorem keeps_erase (h : Heap) (p : Nat) : h.Keeps (h.erase p) p :=
  fun _ _ hq hd => List.mem_filter.mpr ⟨hd, by simpa using hq⟩

theorem mem_set_self (hp : p ∈ h.keys) (c : JSONPkt) : (p, c) ∈ h.set p c := by
  obtain ⟨e, he, hpe⟩ := List.mem_map.mp hp
  exact List.mem_map.mpr ⟨e, he, by rw [if_pos hpe]⟩

end Heap

/-! ## 2. Rules -/

/-- The ownership rules where `G` is known of every operation that is performed. -/
def guarded (K : Knowledge) (G : Op → Heap → Prop) : Prog.Rules Op Op.Res Heap := fun e h Φ =>
  ownRules K e h fun r h' => G e h → Φ r h'

theorem guarded_mono (K : Knowledge) (G : Op → Heap → Prop) : (guarded K G).Mono :=
  fun _ _ _ _ h hΦ => ownRules_mono K (fun r h' hr hG => h r h' (hr hG)) hΦ

namespace Guarded

variable {K : Knowledge} {G : Op → Heap → Prop} {h : Heap} {p : Nat} {v : PktView} {c : JSONPkt}

theorem read_wp {r : PktRead} {Q : Bytes → Heap → Prop} (hp : h.Has p v) (hQ : Q (v.read r) h) :
    (Routine.perform (.read p r)).wp (guarded K G) h Q := by
  obtain ⟨c, hc, hv⟩ := hp
  refine ⟨c, hc, fun _ => ?_⟩
  rw [hv.read r]
  exact hQ

/-- A read of a packet object with known contents. -/
theorem readRaw_wp {r : PktRead} {Q : Bytes → Heap → Prop} (hp : (p, c) ∈ h)
    (hQ : Q (r.eval c) h) : (Routine.perform (.read p r)).wp (guarded K G) h Q :=
  ⟨c, hp, fun _ => hQ⟩

/-- The packet is encoded, and `G` is known of it. -/
theorem marshal_wp {Q : Bytes → Heap → Prop} (hp : h.Has p v)
    (hQ : G (.read p .marshal) h → Q v.marshal h) :
    (Routine.marshal p).wp (guarded K G) h Q := by
  obtain ⟨c, hc, hv⟩ := hp
  refine ⟨c, hc, fun hG => ?_⟩
  rw [hv.read .marshal]
  exact hQ hG

theorem call_wp {op : PktOp} (hop : op.isEdit = true) {Q : Unit → Heap → Prop} (hp : h.Has p v)
    (hQ : ∀ h', G (.call p op) h → h'.Has p (v.after op) → h.Keeps h' p → Q () h') :
    (Routine.call p op).wp (guarded K G) h Q := by
  obtain ⟨c, hc, hv⟩ := hp
  rw [Routine.call, Prog.wp_bind]
  refine ⟨c, hc, fun c' hc' hG => ?_⟩
  obtain ⟨q, hq, hs⟩ := hv.apply hop
  cases hc'.symm.trans hq
  exact hQ _ hG ⟨c', Heap.mem_set_self (Heap.mem_keys hc) c', hs⟩ (Heap.keeps_set h p c')

/-- A packet that has just been made decodes the bytes of a message, or bytes that are
no JSON. -/
theorem unmarshal_wp {dest : GoString} {M : PktView → Prop} {bin : Bytes}
    (hp : h.Has p ⟨JSONPkt.refMeta [], [], [], dest⟩)
    (hbin : Json.parse bin = none ∨ ∃ u, M u ∧ bin = u.marshal)
    (hM : ∀ u, M u → JSONPkt.KeysValid u.kv ∧ ∃ body, u.wire = Base64.encode body)
    {Q : Option JSONPkt.UnmarshalErr → Heap → Prop}
    (hok : ∀ u body c h', M u → u.wire = Base64.encode body → (p, c) ∈ h' → c.data = body →
      (∀ k, c.metaGet k = Utf8.toValid (u.metaGet k)) → h.Keeps h' p → Q none h')
    (herr : ∀ e h', p ∈ Heap.keys h' → h.Keeps h' p → Q (some e) h') :
    (Routine.unmarshal p bin).wp (guarded K G) h Q := by
  obtain ⟨c, hc, hv⟩ := hp
  have hmem := fun c' => Heap.mem_set_self (Heap.mem_keys hc) c'
  refine ⟨c, hc, fun c' hc' _ => ?_⟩
  cases hc'
  rcases hbin with hbin | ⟨u, hu, rfl⟩
  · have hq : c.unmarshal bin = (c, some .badJson) := by simp only [JSONPkt.unmarshal, hbin]
    simp only [PktOp.error, hq]
    exact herr _ _ (Heap.mem_keys (hmem c)) (Heap.keeps_set h p c)
  · obtain ⟨hkeys, body, hwire⟩ := hM u hu
    obtain ⟨q, hq, hdata, hmeta⟩ := JSONPkt.unmarshal_marshal hv.wireMap hkeys hwire
    simp only [PktOp.error, hq]
    refine hok u body q _ hu hwire (hmem q) hdata (fun k => ?_) (Heap.keeps_set h p q)
    rw [hmeta k, PktView.metaGet, JSONPkt.refMeta, GoMap.get?_set]
    cases u.kv.get? k with
    | some x => rfl
    | none =>
      by_cases hk : k = keyRef
      · simp [hk, Utf8.toValid, Utf8.toValidFrom]
      · simp [hk, Utf8.toValid, Utf8.toValidFrom]

theorem callAll_wp {ops : List PktOp} (hops : ops.all PktOp.isEdit = true)
    {Q : Unit → Heap → Prop} (hp : h.Has p v)
    (hQ : ∀ h', h'.Has p (ops.foldl PktView.after v) → h.Keeps h' p → Q () h') :
    (Routine.callAll p ops).wp (guarded K G) h Q := by
  induction ops generalizing h v with
  | nil => exact hQ h hp (Heap.keeps_refl h p)
  | cons op ops ih =>
    rw [List.all_cons, Bool.and_eq_true] at hops
    rw [Routine.callAll, Prog.wp_bind]
    refine call_wp hops.1 hp fun h' _ hp' hk => ?_
    exact ih hops.2 hp' fun h'' hp'' hk' => hQ h'' hp'' (hk.trans hk')

/-- A packet from the pool, where `W` is known of the text in the wire struct. -/
theorem get_wp {W : GoString → Prop} (hget : ∀ c, K.get c → ∃ v, c.Shows v ∧ W v.wire)
    {Q : Nat → Heap → Prop}
    (hQ : ∀ p h' v, p ∉ h.keys → W v.wire → h'.Has p v → h.Keeps h' p → Q p h') :
    (Routine.perform .poolGet).wp (guarded K G) h Q := by
  intro p c hp hc _
  obtain ⟨v, hv, hw⟩ := hget c hc
  exact hQ p _ v hp hw ⟨c, List.mem_cons_self, hv⟩ (Heap.keeps_cons h (p, c) p)

/-- A packet from the creator still has the text of its last use in the wire struct. -/
theorem newPkt_wp {W : GoString → Prop} (hget : ∀ c, K.get c → ∃ v, c.Shows v ∧ W v.wire)
    {ref dest : GoString} {Q : Nat → Heap → Prop}
    (hQ : ∀ p h' wire, p ∉ h.keys → W wire → h'.Has p ⟨JSONPkt.refMeta ref, wire, [], dest⟩ →
      h.Keeps h' p → Q p h') : (Routine.newPkt ref dest).wp (guarded K G) h Q := by
  rw [Routine.newPkt, Prog.wp_bind]
  refine get_wp hget fun p h' v hp hw hv hk => ?_
  rw [Prog.wp_bind]
  exact callAll_wp rfl hv fun h'' hv' hk' => hQ p h'' v.wire hp hw hv' (hk.trans hk')

theorem newErrPkt_wp {W : GoString → Prop} (hget : ∀ c, K.get c → ∃ v, c.Shows v ∧ W v.wire)
    {ref dest msg : GoString} {Q : Nat → Heap → Prop}
    (hQ : ∀ p h' wire, p ∉ h.keys → W wire → h'.Has p ⟨JSONPkt.errMeta ref msg, wire, [], dest⟩ →
      h.Keeps h' p → Q p h') : (Routine.newErrPkt ref dest msg).wp (guarded K G) h Q := by
  rw [Routine.newErrPkt, Prog.wp_bind]
  refine get_wp hget fun p h' v hp hw hv hk => ?_
  rw [Prog.wp_bind]
  exact callAll_wp rfl hv fun h'' hv' hk' => hQ p h'' v.wire hp hw hv' (hk.trans hk')

theorem newPkt_clean_wp (hget : ∀ c, K.get c → c.clean = true) {ref dest : GoString}
    {Q : Nat → Heap → Prop}
    (hQ : ∀ p h', p ∉ h.keys → h'.Has p ⟨JSONPkt.refMeta ref, [], [], dest⟩ → h.Keeps h' p →
      Q p h') : (Routine.newPkt ref dest).wp (guarded K G) h Q := by
  refine newPkt_wp (W := (· = [])) (fun c hc => JSONPkt.clean_shows (hget c hc))
    fun p h' wire hp hw hv hk => ?_
  subst hw
  exact hQ p h' hp hv hk

theorem newErrPkt_clean_wp (hget : ∀ c, K.get c → c.clean = true) {ref dest msg : GoString}
    {Q : Nat → Heap → Prop}
    (hQ : ∀ p h', p ∉ h.keys → h'.Has p ⟨JSONPkt.errMeta ref msg, [], [], dest⟩ → h.Keeps h' p →
      Q p h') : (Routine.newErrPkt ref dest msg).wp (guarded K G) h Q := by
  refine newErrPkt_wp (W := (· = [])) (fun c hc => JSONPkt.clean_shows (hget c hc))
    fun p h' wire hp hw hv hk => ?_
  subst hw
  exact hQ p h' hp hv hk

theorem putBack_wp {Q : Unit → Heap → Prop} (hp : p ∈ h.keys)
    (hQ : h.Keeps (h.erase p) p → Q () (h.erase p)) :
    (Routine.putBack p).wp (guarded K G) h Q :=
  ⟨hp, fun _ => hQ (Heap.keeps_erase h p)⟩

theorem send_wp {Q : Unit → Heap → Prop} (hp : h.Has p v) (hsend : ∀ c, c.Shows v → K.send c)
    (hQ : h.Keeps (h.erase p) p → Q () (h.erase p)) :
    (Routine.perform (.sendStream p)).wp (guarded K G) h Q := by
  obtain ⟨c, hc, hv⟩ := hp
  exact ⟨c, hc, hsend c hv, fun _ => hQ (Heap.keeps_erase h p)⟩

theorem dist_wp {data : Bytes} {addr : Addr} {Q : Unit → Heap → Prop} (hd : K.dist data addr)
    (hQ : Q () h) : (Routine.perform (.dist data addr)).wp (guarded K G) h Q :=
  ⟨hd, fun _ => hQ⟩

theorem panic_wp {α : Type} {Q : α → Heap → Prop} :
    (Routine.panic : Routine α).wp (guarded K G) h Q :=
  trivial

theorem getKeyStore_wp {a : GoString} {Q : Option KeyRef → Heap → Prop}
    (hQ : ∀ r : Option KeyRef, (∀ k, r = some k → K.key a k.shared k.pub) → Q r h) :
    (Routine.perform (.getKeyStore a)).wp (guarded K G) h Q :=
  fun r hr _ => hQ r hr

theorem getKeySent_wp {ks : Nat} {Q : Bool → Heap → Prop} (hQ : ∀ b, Q b h) :
    (Routine.perform (.getKeySent ks)).wp (guarded K G) h Q :=
  fun b _ => hQ b

theorem setKeyStore_wp {a : GoString} {k : KeyStore} {Q : Unit → Heap → Prop}
    (hk : K.key a k.shared k.pub) (hQ : G (.setKeyStore a k) h → Q () h) :
    (Routine.perform (.setKeyStore a k)).wp (guarded K G) h Q :=
  ⟨hk, hQ⟩

/-! ### The client's operations -/

theorem genRef_wp {Q : GoString → Heap → Prop} (hQ : ∀ ref, Endpoint.isRef ref = true → Q ref h) :
    (Routine.perform .genRef).wp (guarded K G) h Q :=
  fun ref href _ => hQ ref href

theorem writeStream_wp {data : Bytes} {ch : Option Nat} {Q : Unit → Heap → Prop}
    (hw : K.write data ch) (hQ : Q () h) :
    (Routine.perform (.writeStream data ch)).wp (guarded K G) h Q :=
  ⟨hw, fun _ => hQ⟩

theorem register_wp {ref : GoString} {ch : Option Nat} {Q : Unit → Heap → Prop}
    (hr : K.request ref ch) (hQ : Q () h) :
    (Routine.perform (.register ref ch)).wp (guarded K G) h Q :=
  ⟨hr, fun _ => hQ⟩

theorem lookup_wp {ref : GoString} {Q : Option (Option Nat) → Heap → Prop}
    (hQ : ∀ r : Option (Option Nat), (∀ ch, r = some ch → K.request ref ch) → Q r h) :
    (Routine.perform (.lookup ref)).wp (guarded K G) h Q :=
  fun r hr _ => hQ r hr

theorem deliver_wp {ch : Nat} {Q : Unit → Heap → Prop} (hp : (p, c) ∈ h) (hd : K.deliver ch c)
    (hQ : Q () (h.erase p)) : (Routine.perform (.deliver ch p)).wp (guarded K G) h Q :=
  ⟨c, hp, hd, fun _ => hQ⟩

theorem misc_wp {Q : Unit → Heap → Prop} (hp : (p, c) ∈ h) (hm : K.misc c) (hQ : Q () (h.erase p)) :
    (Routine.perform (.misc p)).wp (guarded K G) h Q :=
  ⟨c, hp, hm, fun _ => hQ⟩

theorem unregister_wp {ref : GoString} {Q : Unit → Heap → Prop} (hQ : Q () h) :
    (Routine.perform (.unregister ref)).wp (guarded K G) h Q :=
  fun _ => hQ

theorem writeDone_wp {Q : Unit → Heap → Prop} (hQ : Q () h) :
    (Routine.perform .writeDone).wp (guarded K G) h Q :=
  fun _ => hQ

theorem receive_wp {ch : Nat} {Q : Nat → Heap → Prop}
    (hQ : ∀ p c, p ∉ h.keys → K.deliver ch c → Q p ((p, c) :: h)) :
    (Routine.perform (.receive ch)).wp (guarded K G) h Q :=
  fun p c hp hc _ => hQ p c hp hc

theorem receiveMisc_wp {Q : Nat → Heap → Prop}
    (hQ : ∀ p c, p ∉ h.keys → K.misc c → Q p ((p, c) :: h)) :
    (Routine.perform .receiveMisc).wp (guarded K G) h Q :=
  fun p c hp hc _ => hQ p c hp hc

end Guarded

end Concord
