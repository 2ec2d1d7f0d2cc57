import Concord.PacketCodec
import Concord.Pool

/-!
# The two views of a packet's metadata

`Marshal` encodes `jsonPkt.Meta`; `Meta()` reads and writes `KVMeta.meta`. The
creator makes them one map object, and `Unmarshal` rebinds `Meta()` to the wire
struct's map, but only after `json.Unmarshal` has returned without an error. A
document that replaces the map and has a member of the wrong type returns in
between, with the wire struct already on another map.

* `marshal_meta_eq_metaGet`: over every history without such a decode, `Marshal`
  encodes what `Meta()` shows, for every packet and key.
* `torn_views_diverge`: once the two are different maps, the next `Add` can make
  them show different values.
-/

namespace Concord

open Go JSONPkt

/-- Only valid strings are added to the metadata. -/
def AddsValid (_ : JSONPkt) : PktOp → Prop
  | .metaAdd k v => Utf8.Valid k ∧ Utf8.Valid v
  | _ => True

/-- No document with a member of the wrong type gives the packet another map. -/
def NotTorn (p : JSONPkt) : PktOp → Prop
  | .unmarshal bin => ∀ doc, Json.parse bin = some doc → typeError doc = true →
      (metaPatch doc).rebinds p.wireMeta = false
  | _ => True

/-- Both views are one map object, and its strings are valid. -/
structure Coherent (p : JSONPkt) : Prop where
  same : p.wireMeta = p.kvMeta
  valid : p.MapsValid

theorem Coherent.encoded_eq {p : JSONPkt} (h : Coherent p) (k : GoString) :
    index (encodedMeta p.marshal) k = p.metaGet k := by
  have hmap : p.wireMap = p.kvMap := by rw [wireMap, kvMap, h.same]
  rw [encodedMeta_marshal, metaGet, ← hmap]
  cases hw : p.wireMap with
  | none => rfl
  | some m =>
    have hm : MetaValid m := by
      obtain ⟨r, -, hr⟩ := Option.bind_eq_some_iff.mp hw
      exact h.valid m (List.mem_of_getElem? hr)
    rw [Option.map_some, coerceMeta_of_valid hm]

/-! ## One call -/

theorem coherent_metaClear {p : JSONPkt} (hp : Coherent p) : Coherent p.metaClear := by
  unfold metaClear
  split
  · exact hp
  · refine ⟨hp.same, mapsValid_modifyMap hp.valid _ fun m _ => ?_⟩
    rw [deleteKeys_eq_empty]
    exact metaValid_empty

theorem coherent_unmarshal {p : JSONPkt} (hp : Coherent p) {bin : Bytes}
    (hC : NotTorn p (.unmarshal bin)) : Coherent (p.unmarshal bin).1 := by
  refine ⟨?_, mapsValid_unmarshal hp.valid bin⟩
  rcases unmarshal_cases p bin with ⟨_, h⟩ | ⟨doc, hdoc, ⟨hte, h⟩ | ⟨_, b, h⟩⟩
  · rw [h]
    exact hp.same
  · -- the decode returned before `setMeta`: the wire map must be the old one
    rw [h, (wireMeta_jsonUnmarshal p doc).mpr (hC doc hdoc hte), hp.same,
      (refAfter_jsonUnmarshal p doc).kvMeta]
  · rw [h]
    rfl

theorem coherent_op {op : PktOp} {p q : JSONPkt} (hadd : AddsValid p op) (htorn : NotTorn p op)
    (hp : Coherent p) (h : op.apply p = some q) : Coherent q := by
  cases op with
  | metaAdd k v =>
    obtain ⟨r, -, rfl⟩ := Option.map_eq_some_iff.mp h
    exact ⟨hp.same, mapsValid_modifyMap hp.valid r fun m hm => metaValid_set hm hadd.1 hadd.2⟩
  | metaClear => cases h; exact coherent_metaClear hp
  | setDest d => cases h; exact ⟨hp.same, hp.valid⟩
  | write d => cases h; exact ⟨hp.same, hp.valid⟩
  | clear => cases h; exact ⟨hp.same, hp.valid⟩
  | close => cases h; exact ⟨hp.same, hp.valid⟩
  | unmarshal bin => cases h; exact coherent_unmarshal hp htorn

/-! ## Whole histories -/

theorem eachMeets_and {C D : JSONPkt → PktOp → Prop} {s : PktPool} {ops : List PoolOp}
    (hC : s.EachMeets C ops) (hD : s.EachMeets D ops) :
    s.EachMeets (fun p op => C p op ∧ D p op) ops := by
  induction ops generalizing s with
  | nil => trivial
  | cons op ops ih =>
    refine ⟨?_, fun s' hs' => ih (hC.2 s' hs') (hD.2 s' hs')⟩
    have hc := hC.1
    have hd := hD.1
    cases op with
    | newPkt choice ref dest => exact fun p op h => ⟨hc p op h, hd p op h⟩
    | newErrPkt choice ref dest msg => exact fun p op h => ⟨hc p op h, hd p op h⟩
    | call i op => exact fun p h => ⟨hc p h, hd p h⟩
    | _ => trivial

/-- In every history that adds valid strings and has no torn decode, `Marshal`
encodes for every key what `Meta().Get` returns, for every packet of the
creator. -/
theorem marshal_meta_eq_metaGet {ops : List PoolOp} {s : PktPool}
    (hadd : PktPool.empty.EachMeets AddsValid ops) (htorn : PktPool.empty.EachMeets NotTorn ops)
    (hs : PktPool.empty.run ops = some s) :
    ∀ p ∈ s.mem, ∀ k, index (encodedMeta p.marshal) k = p.metaGet k := by
  have hall : ∀ p ∈ s.mem, Coherent p :=
    PktPool.run_all ⟨rfl, mapsValid_new⟩ (fun hC hp h => coherent_op hC.1 hC.2 hp h)
      (eachMeets_and hadd htorn) (by simp [PktPool.empty]) hs
  exact fun p hp => (hall p hp).encoded_eq

theorem addsValid_newPktOps {ref : GoString} (h : Utf8.Valid ref) (dest : GoString) :
    ∀ p, ∀ op ∈ newPktOps ref dest, AddsValid p op := by
  intro p op hop
  simp only [newPktOps, List.mem_cons, List.not_mem_nil, or_false] at hop
  rcases hop with rfl | rfl | rfl | rfl
  · trivial
  · trivial
  · trivial
  · exact ⟨by decide, h⟩

theorem notTorn_newPktOps (ref dest : GoString) :
    ∀ p, ∀ op ∈ newPktOps ref dest, NotTorn p op := by
  intro p op hop
  simp only [newPktOps, List.mem_cons, List.not_mem_nil, or_false] at hop
  rcases hop with rfl | rfl | rfl | rfl <;> trivial

/-- A packet reused for a request that is decoded without an error. -/
def decodedOps : List PoolOp :=
  [.newPkt 0 (ascii "r") [], .call 0 (.unmarshal (ascii "\x7b\"m\":\x7b\"a\":\"b\"\x7d\x7d"))]

theorem decodedOps_views_agree :
    ∃ s, PktPool.empty.run decodedOps = some s ∧
      ∀ p ∈ s.mem, ∀ k, index (encodedMeta p.marshal) k = p.metaGet k := by
  have hrun : (PktPool.empty.run decodedOps).isSome = true := by decide +kernel
  obtain ⟨s, hs⟩ := Option.isSome_iff_exists.mp hrun
  have hparse : ((Json.parse (ascii "\x7b\"m\":\x7b\"a\":\"b\"\x7d\x7d")).map typeError) =
      some false := by decide +kernel
  have hadd : PktPool.empty.EachMeets AddsValid decodedOps :=
    ⟨addsValid_newPktOps (by decide) _, fun _ _ => ⟨fun _ _ => trivial, fun _ _ => trivial⟩⟩
  have htorn : PktPool.empty.EachMeets NotTorn decodedOps := by
    refine ⟨notTorn_newPktOps _ _, fun _ _ => ⟨fun p _ doc hdoc hte => ?_, fun _ _ => trivial⟩⟩
    rw [hdoc, Option.map_some, hte] at hparse
    exact absurd hparse (by decide)
  exact ⟨s, hs, marshal_meta_eq_metaGet hadd htorn hs⟩

/-- The decode fails on the data member, with the metadata already gone from the
wire struct. -/
def tornOps : List PoolOp :=
  [.newPkt 0 (ascii "r") [], .call 0 (.unmarshal (ascii "\x7b\"m\":null,\"d\":5\x7d"))]

theorem tornOps_views_differ :
    PktPool.empty.EachMeets AddsValid tornOps ∧
    ∃ s p, PktPool.empty.run tornOps = some s ∧ p ∈ s.mem ∧
      p.metaGet keyRef = ascii "r" ∧ index (encodedMeta p.marshal) keyRef = [] := by
  have h : ((PktPool.empty.run tornOps).bind fun s => s.mem[0]?.map fun p =>
      (p.metaGet keyRef, index (encodedMeta p.marshal) keyRef)) = some (ascii "r", []) := by
    decide +kernel
  obtain ⟨s, hs, h⟩ := Option.bind_eq_some_iff.mp h
  obtain ⟨p, hp, h⟩ := Option.map_eq_some_iff.mp h
  simp only [Prod.mk.injEq] at h
  exact ⟨⟨addsValid_newPktOps (by decide) _, fun _ _ => ⟨fun _ _ => trivial, fun _ _ => trivial⟩⟩,
    s, p, hs, List.mem_of_getElem? hp, h.1, h.2⟩

/-- Nothing brings separate maps back in step: whatever the key, some value added
next is not the one `Marshal` encodes. -/
theorem torn_views_diverge {p : JSONPkt} (hkv : p.kvMeta ≠ none) (h : p.wireMeta ≠ p.kvMeta)
    (k : GoString) :
    ∃ v q, p.metaAdd k v = some q ∧ index (encodedMeta q.marshal) k ≠ q.metaGet k := by
  obtain ⟨r, hr⟩ := Option.ne_none_iff_exists'.mp hkv
  have hadd : ∀ v, p.metaAdd k v = some (p.modifyMap r fun m => m.set k v) := fun v => by
    rw [metaAdd, hr, Option.map_some]
  have hget : ∀ v, (p.modifyMap r fun m => m.set k v).metaGet k = v := fun v => by
    obtain ⟨m, hm⟩ := maps_kvMeta hr
    rw [metaGet, kvMap_some (p := p.modifyMap r fun m => m.set k v) hr, maps_modifyMap, if_pos rfl,
      hm]
    simp [index]
  have hwire : ∀ v, (p.modifyMap r fun m => m.set k v).wireMap = p.wireMap := fun v => by
    cases hw : p.wireMeta with
    | none => rw [wireMap_none (p := p.modifyMap r fun m => m.set k v) hw, wireMap_none hw]
    | some w =>
      have hne : w ≠ r := fun e => h (by rw [hw, hr, e])
      rw [wireMap_some (p := p.modifyMap r fun m => m.set k v) hw, wireMap_some hw,
        maps_modifyMap, if_neg hne]
  by_cases he : index (p.wireMap.map coerceMeta) k = []
  · refine ⟨ascii "x", _, hadd _, ?_⟩
    rw [encodedMeta_marshal, hwire, he, hget]
    decide
  · refine ⟨[], _, hadd _, ?_⟩
    rw [encodedMeta_marshal, hwire, hget]
    exact he

end Concord
