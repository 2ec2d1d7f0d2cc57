import Concord.PoolCoherence
import Concord.PacketView

/-!
# A packet over the wire

What is written to a packet, committed by `Close`, encoded, and decoded into another
packet. Both packets come out of a pool, so each may have been used for anything before
that leaves the pool in order: for messages, for error packets, and for the decoding of
bytes that `Marshal` has made.

1. `Genuine`: the packets such a history makes. Each has one map behind both of its
   references, and a text in the wire struct that `Close` has put there.
2. `marshal_unmarshal_recycled`: the receiver of the bytes reads the metadata the sender
   shows, and the data written since the last `Clear`.
-/

namespace Concord

open Go

/-! ## 1. Packets with an orderly past -/

/-- The packets that come about by calls of which every `Unmarshal` is given the bytes of
such a packet. -/
inductive Genuine : JSONPkt → Prop
  | new : Genuine JSONPkt.new
  | edit {p q : JSONPkt} {op : PktOp} : Genuine p → op.isEdit = true → op.apply p = some q → Genuine q
  | decode {p q : JSONPkt} : Genuine p → Genuine q → Genuine (p.unmarshal q.marshal).1

/-- Only bytes of such a packet are decoded. -/
def DecodesGenuine (_ : JSONPkt) : PktOp → Prop
  | .unmarshal bin => ∃ q, Genuine q ∧ bin = q.marshal
  | _ => True

/-- The text in the wire struct is one that `Close` makes. -/
def PktView.Committed (v : PktView) : Prop := ∃ body, v.wire = Base64.encode body

namespace JSONPkt

/-- The bytes of a packet are decoded if its text is. -/
theorem decodes_of_unmarshal {p : JSONPkt} {w : PktView}
    (h : (p.unmarshal w.marshal).2 = none) : ∃ body, Base64.decode (Utf8.toValid w.wire) = some body := by
  obtain ⟨doc, body, hdoc, -, hdec, -⟩ := unmarshal_ok_iff.mp (Prod.ext rfl h)
  cases (parse_view w).symm.trans hdoc
  exact ⟨body, hdec⟩

/-- Decoding the bytes of a packet keeps the one map, with the entries of the document over
its own. -/
theorem Shows.unmarshal_of_decode {p : JSONPkt} {v : PktView} (h : p.Shows v) {w : PktView}
    {body : Bytes} (hdec : Base64.decode (Utf8.toValid w.wire) = some body) :
    ∃ q, p.unmarshal w.marshal = (q, none) ∧
      q.Shows ⟨overlay v.kv (coerceMeta w.kv), Utf8.toValid w.wire, body, q.dest⟩ := by
  obtain ⟨r, -, hwire, -⟩ := h.kv
  refine ⟨_, unmarshal_ok_iff.mpr ⟨viewDoc w, body, parse_view w, typeError_viewDoc w, hdec, rfl⟩,
    ⟨?_, ?_, rfl, rfl⟩⟩
  · -- the document has an object for the map, so the wire struct stays on the map it has
    have hsame : (p.jsonUnmarshal (viewDoc w)).1.wireMeta = some r := by
      rw [(wireMeta_jsonUnmarshal p (viewDoc w)).mpr, hwire]
      rw [metaPatch_viewDoc, hwire]
      rfl
    refine ⟨r, hsame, hsame, ?_⟩
    have hmap := wireMap_jsonUnmarshal p (viewDoc w)
    rw [wireMap_some hsame, metaPatch_viewDoc, h.wireMap] at hmap
    exact hmap
  · change (p.jsonUnmarshal (viewDoc w)).1.wireData = Utf8.toValid w.wire
    rw [wireData_jsonUnmarshal, docData_viewDoc, Option.getD_some]

theorem Shows.unmarshal {p : JSONPkt} {v : PktView} (h : p.Shows v) {w : PktView} {body : Bytes}
    (hbody : w.wire = Base64.encode body) :
    ∃ q, p.unmarshal w.marshal = (q, none) ∧
      q.Shows ⟨overlay v.kv (coerceMeta w.kv), w.wire, body, q.dest⟩ := by
  have hvalid : Utf8.toValid w.wire = w.wire := by rw [hbody, Base64.encode_valid]
  have hdec : Base64.decode (Utf8.toValid w.wire) = some body := by
    rw [hvalid, hbody, Base64.decode_encode]
  have hq := h.unmarshal_of_decode hdec
  rwa [hvalid] at hq

end JSONPkt

theorem PktView.after_committed {v : PktView} (h : v.Committed) (op : PktOp) :
    (v.after op).Committed := by
  cases op with
  | close => exact ⟨v.buff, rfl⟩
  | _ => exact h

theorem Genuine.shows {p : JSONPkt} (h : Genuine p) : ∃ v, p.Shows v ∧ v.Committed := by
  induction h with
  | new => exact ⟨_, JSONPkt.shows_new, [], rfl⟩
  | @edit p q op _ hop hq ih =>
    obtain ⟨v, hv, hc⟩ := ih
    obtain ⟨q', hq', hshows⟩ := hv.apply hop
    obtain rfl : q' = q := Option.some.inj (hq'.symm.trans hq)
    exact ⟨v.after op, hshows, PktView.after_committed hc op⟩
  | @decode p q _ _ ihp ihq =>
    obtain ⟨v, hv, -⟩ := ihp
    obtain ⟨w, hw, body, hbody⟩ := ihq
    obtain ⟨r, hr, hshows⟩ := hv.unmarshal hbody
    rw [hw.marshal, hr]
    exact ⟨_, hshows, body, hbody⟩

theorem genuine_op {op : PktOp} {p q : JSONPkt} (hC : DecodesGenuine p op) (hp : Genuine p)
    (h : op.apply p = some q) : Genuine q := by
  cases op with
  | unmarshal bin =>
    obtain ⟨r, hr, rfl⟩ := hC
    cases h
    exact hp.decode hr
  | _ => exact hp.edit rfl h

/-- Every packet of a creator with such a history. -/
theorem genuine_of_run {ops : List PoolOp} {s : PktPool}
    (hC : PktPool.empty.EachMeets DecodesGenuine ops) (hs : PktPool.empty.run ops = some s) :
    ∀ p ∈ s.mem, Genuine p :=
  PktPool.run_all .new genuine_op hC (by simp [PktPool.empty]) hs

/-! ## 2. Composing a packet -/

/-- A call that composes a message. -/
def PktOp.Composes (op : PktOp) : Prop := op.isEdit = true ∧ ∀ p, AddsValid p op

/-- The writes since the last `Clear`, after those in `buff`. -/
def PktOp.writtenFrom (buff : Bytes) : List PktOp → Bytes
  | [] => buff
  | .write data :: ops => writtenFrom (buff ++ data) ops
  | .clear :: ops => writtenFrom [] ops
  | _ :: ops => writtenFrom buff ops

/-- The data the calls write. -/
def PktOp.written (ops : List PktOp) : Bytes := writtenFrom [] ops

namespace JSONPkt

variable {p : JSONPkt} {v : PktView}

/-- A sequence of calls is a sequence of updates of the record. -/
theorem Shows.applyAll (h : p.Shows v) {ops : List PktOp} (hops : ∀ op ∈ ops, op.isEdit = true) :
    ∃ q, ops.foldlM PktOp.apply p = some q ∧ q.Shows (ops.foldl PktView.after v) := by
  induction ops generalizing p v with
  | nil => exact ⟨p, rfl, h⟩
  | cons op ops ih =>
    obtain ⟨q, hq, hshows⟩ := h.apply (hops op List.mem_cons_self)
    obtain ⟨r, hr, hshows⟩ := ih hshows fun op hop => hops op (List.mem_cons_of_mem _ hop)
    refine ⟨r, ?_, hshows⟩
    rw [List.foldlM_cons, hq]
    exact hr

end JSONPkt

theorem buff_foldl_after (ops : List PktOp) (v : PktView) :
    (ops.foldl PktView.after v).buff = PktOp.writtenFrom v.buff ops := by
  induction ops generalizing v with
  | nil => rfl
  | cons op ops ih =>
    rw [List.foldl_cons, ih]
    cases op <;> rfl

theorem metaValid_foldl_after {ops : List PktOp} (hops : ∀ op ∈ ops, op.Composes) {v : PktView}
    (hv : JSONPkt.MetaValid v.kv) : JSONPkt.MetaValid (ops.foldl PktView.after v).kv := by
  induction ops generalizing v with
  | nil => exact hv
  | cons op ops ih =>
    refine ih (fun op hop => hops op (List.mem_cons_of_mem _ hop)) ?_
    obtain ⟨-, hadd⟩ := hops op List.mem_cons_self
    cases op with
    | metaAdd key val =>
      obtain ⟨hkey, hval⟩ := hadd JSONPkt.new
      exact JSONPkt.metaValid_set hv hkey hval
    | metaClear => exact JSONPkt.metaValid_empty
    | _ => exact hv

/-- `NewPkt` of a packet with one map. -/
theorem JSONPkt.Shows.newPkt {p : JSONPkt} {v : PktView} (h : p.Shows v) (ref dest : GoString) :
    ∃ q, p.newPkt ref dest = some q ∧ q.Shows ⟨JSONPkt.refMeta ref, v.wire, [], dest⟩ := by
  have hops : ∀ op ∈ newPktOps ref dest, op.isEdit = true := by
    intro op hop
    simp only [newPktOps, List.mem_cons, List.not_mem_nil, or_false] at hop
    rcases hop with rfl | rfl | rfl | rfl <;> rfl
  rw [newPkt_eq_ops]
  exact h.applyAll hops

/-! ## 3. Round trip -/

/-- Valid strings come back as they were; of its own the receiver has an empty ref only. -/
theorem metaGet_over_refMeta {m : Meta} (hm : JSONPkt.MetaValid m) (k : GoString) :
    (((m.get? k).map Utf8.toValid).or ((JSONPkt.refMeta []).get? k)).getD [] = (m.get? k).getD [] := by
  cases hk : m.get? k with
  | some x => exact (hm k x hk).2
  | none =>
    rw [Option.map_none, Option.none_or, JSONPkt.refMeta, GoMap.get?_set]
    split <;> simp

/-- The sender's packet and the receiver's packet come out of pools with any history that
decodes nothing but bytes of `Marshal`. The sender calls `NewPkt`, composes a message
with valid strings and closes it; the receiver calls `NewPkt` with an empty ref and
decodes the sender's bytes. -/
theorem marshal_unmarshal_recycled {hist₁ hist₂ : List PoolOp} {s₁ s₂ : PktPool}
    (hC₁ : PktPool.empty.EachMeets DecodesGenuine hist₁) (hs₁ : PktPool.empty.run hist₁ = some s₁)
    (hC₂ : PktPool.empty.EachMeets DecodesGenuine hist₂) (hs₂ : PktPool.empty.run hist₂ = some s₂)
    {p q : JSONPkt} (hp : p ∈ s₁.mem) (hq : q ∈ s₂.mem) {ref : GoString} (href : Utf8.Valid ref)
    (dest dest' : GoString) {calls : List PktOp} (hcalls : ∀ op ∈ calls, op.Composes) :
    ∃ p₀ p₁ q₀ q₁, p.newPkt ref dest = some p₀ ∧
      (calls ++ [PktOp.close]).foldlM PktOp.apply p₀ = some p₁ ∧
      q.newPkt [] dest' = some q₀ ∧ q₀.unmarshal p₁.marshal = (q₁, none) ∧
      q₁.data = PktOp.written calls ∧ ∀ k, q₁.metaGet k = p₁.metaGet k := by
  obtain ⟨v, hv, -⟩ := (genuine_of_run hC₁ hs₁ p hp).shows
  obtain ⟨w, hw, -⟩ := (genuine_of_run hC₂ hs₂ q hq).shows
  obtain ⟨p₀, hp₀, hv₀⟩ := hv.newPkt ref dest
  obtain ⟨q₀, hq₀, hw₀⟩ := hw.newPkt [] dest'
  have hedit : ∀ op ∈ calls ++ [PktOp.close], op.isEdit = true := by
    intro op hop
    rcases List.mem_append.mp hop with hop | hop
    · exact (hcalls op hop).1
    · rw [List.mem_singleton.mp hop]
      rfl
  obtain ⟨p₁, hp₁, hv₁⟩ := hv₀.applyAll hedit
  rw [List.foldl_append, List.foldl_cons, List.foldl_nil] at hv₁
  -- what the sender's record has become
  have hvalid : JSONPkt.MetaValid
      (calls.foldl PktView.after ⟨JSONPkt.refMeta ref, v.wire, [], dest⟩).kv :=
    metaValid_foldl_after hcalls (JSONPkt.metaValid_set JSONPkt.metaValid_empty (by decide) href)
  have hbuff := buff_foldl_after calls ⟨JSONPkt.refMeta ref, v.wire, [], dest⟩
  generalize calls.foldl PktView.after ⟨JSONPkt.refMeta ref, v.wire, [], dest⟩ = u at *
  obtain ⟨q₁, hq₁, hdata, hmeta⟩ := JSONPkt.unmarshal_marshal hw₀.wireMap
    (v := u.after .close) (fun k x hx => (hvalid k x hx).1) rfl
  refine ⟨p₀, p₁, q₀, q₁, hp₀, hp₁, hq₀, hv₁.marshal ▸ hq₁, hdata.trans hbuff, fun k => ?_⟩
  rw [hmeta, hv₁.metaGet]
  exact metaGet_over_refMeta hvalid k

/-- A packet that has been used for a message, and then to decode another packet. -/
def usedOps : List PoolOp :=
  [.newPkt 0 (ascii "r0") [], .call 0 (.metaAdd (ascii "k") (ascii "old")),
    .call 0 (.write (ascii "secret")), .call 0 .close, .call 0 (.unmarshal JSONPkt.new.marshal),
    .putBack 0]

def helloCalls : List PktOp :=
  [.write (ascii "x"), .clear, .metaAdd keyTarget (ascii "t"), .write (ascii "hello")]

/-- Used for both sides of the next message, it shows nothing of that. -/
theorem hello_recycled :
    ∃ s p p₀ p₁ q₀ q₁, PktPool.empty.run usedOps = some s ∧ p ∈ s.mem ∧
      p.newPkt (ascii "r1") [] = some p₀ ∧
      (helloCalls ++ [PktOp.close]).foldlM PktOp.apply p₀ = some p₁ ∧
      p.newPkt [] [] = some q₀ ∧ q₀.unmarshal p₁.marshal = (q₁, none) ∧
      q₁.data = ascii "hello" ∧ ∀ k, q₁.metaGet k = p₁.metaGet k := by
  have hrun : ((PktPool.empty.run usedOps).bind fun s => s.mem[0]?.map fun _ => ()) = some () := by
    decide +kernel
  obtain ⟨s, hs, h⟩ := Option.bind_eq_some_iff.mp hrun
  obtain ⟨p, hp, -⟩ := Option.map_eq_some_iff.mp h
  have hp : p ∈ s.mem := List.mem_of_getElem? hp
  have hnew : ∀ p, ∀ op ∈ newPktOps (ascii "r0") [], DecodesGenuine p op := by
    intro p op hop
    simp only [newPktOps, List.mem_cons, List.not_mem_nil, or_false] at hop
    rcases hop with rfl | rfl | rfl | rfl <;> trivial
  have hC : PktPool.empty.EachMeets DecodesGenuine usedOps :=
    ⟨hnew, fun _ _ => ⟨fun _ _ => trivial, fun _ _ => ⟨fun _ _ => trivial, fun _ _ =>
      ⟨fun _ _ => trivial, fun _ _ => ⟨fun _ _ => ⟨_, .new, rfl⟩, fun _ _ =>
        ⟨trivial, fun _ _ => trivial⟩⟩⟩⟩⟩⟩
  have hcalls : ∀ op ∈ helloCalls, op.Composes := by
    intro op hop
    simp only [helloCalls, List.mem_cons, List.not_mem_nil, or_false] at hop
    rcases hop with rfl | rfl | rfl | rfl
    · exact ⟨rfl, fun _ => trivial⟩
    · exact ⟨rfl, fun _ => trivial⟩
    · exact ⟨rfl, fun _ => ⟨by decide, by decide⟩⟩
    · exact ⟨rfl, fun _ => trivial⟩
  obtain ⟨p₀, p₁, q₀, q₁, hp₀, hp₁, hq₀, hq₁, hdata, hmeta⟩ :=
    marshal_unmarshal_recycled hC hs hC hs hp hp (show Utf8.Valid (ascii "r1") by decide) [] [] hcalls
  exact ⟨s, p, p₀, p₁, q₀, q₁, hs, hp, hp₀, hp₁, hq₀, hq₁, hdata, hmeta⟩

end Concord
