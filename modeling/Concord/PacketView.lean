import Concord.PacketCodec
import Concord.Pool

/-!
# Packets as messages

Between the creator and `Unmarshal` a packet has one metadata map, which both of its
references name. Such a packet is a record (`PktView`), the calls on it are updates of
the record (`Shows.apply`), and what `Marshal` makes of it depends on the record alone.

`unmarshal_marshal`: the receiver of the bytes reads the metadata that was sent, with
every value coerced to valid UTF-8, and the data that was closed.
-/

namespace Concord

open Go

/-- The metadata, the data text of the wire struct, the data buffer and the
destination. -/
structure PktView where
  kv : Meta
  wire : GoString
  buff : Bytes
  dest : GoString

/-- The packet has one map, and is as the record says. -/
structure JSONPkt.Shows (p : JSONPkt) (v : PktView) : Prop where
  kv : ∃ r, p.kvMeta = some r ∧ p.wireMeta = some r ∧ p.maps[r]? = some v.kv
  wire : p.wireData = v.wire
  buff : p.buff = v.buff
  dest : p.dest = v.dest

/-- A call other than `Unmarshal`. -/
def PktOp.isEdit : PktOp → Bool
  | .unmarshal _ => false
  | _ => true

namespace PktView

/-- The record after a call on the packet. -/
def after (v : PktView) : PktOp → PktView
  | .metaAdd key val => { v with kv := v.kv.set key val }
  | .metaClear => { v with kv := GoMap.empty }
  | .setDest dest => { v with dest := dest }
  | .write data => { v with buff := v.buff ++ data }
  | .clear => { v with buff := [] }
  | .close => { v with wire := Base64.encode v.buff }
  | .unmarshal _ => v

/-- A value of the metadata. -/
def metaGet (v : PktView) (key : GoString) : GoString := (v.kv.get? key).getD []

/-- The bytes of the packet. -/
def marshal (v : PktView) : Bytes :=
  (Json.obj [(ascii "m", JSONPkt.metaDoc (some v.kv)), (ascii "d", .str v.wire)]).render

end PktView

theorem keyRef_ascii : ∀ b ∈ keyRef, b < 0x80 := by decide +kernel

theorem keyTarget_ascii : ∀ b ∈ keyTarget, b < 0x80 := by decide +kernel

namespace JSONPkt

section Shows

variable {p : JSONPkt} {v : PktView}

theorem shows_new : JSONPkt.new.Shows ⟨GoMap.empty, [], [], []⟩ := ⟨⟨0, rfl, rfl, rfl⟩, rfl, rfl, rfl⟩

theorem Shows.kvMap (h : p.Shows v) : p.kvMap = some v.kv := by
  obtain ⟨r, hkv, -, hm⟩ := h.kv
  rw [kvMap_some hkv, hm]

theorem Shows.wireMap (h : p.Shows v) : p.wireMap = some v.kv := by
  obtain ⟨r, -, hw, hm⟩ := h.kv
  rw [wireMap_some hw, hm]

theorem Shows.metaGet (h : p.Shows v) (key : GoString) : p.metaGet key = v.metaGet key := by
  rw [JSONPkt.metaGet, h.kvMap]
  rfl

theorem Shows.marshal (h : p.Shows v) : p.marshal = v.marshal := by
  rw [JSONPkt.marshal, wireDoc, h.wireMap, h.wire]
  rfl

/-- The one map is changed in place. -/
theorem Shows.modifyMap (h : p.Shows v) {r : Nat} (hr : p.kvMeta = some r) (f : Meta → Meta) :
    (p.modifyMap r f).Shows { v with kv := f v.kv } := by
  obtain ⟨r', hkv, hw, hm⟩ := h.kv
  cases hr.symm.trans hkv
  refine ⟨⟨r, hkv, hw, ?_⟩, h.wire, h.buff, h.dest⟩
  rw [maps_modifyMap, if_pos rfl, hm]
  rfl

/-- A call on the packet is an update of the record. -/
theorem Shows.apply (h : p.Shows v) {op : PktOp} (hop : op.isEdit = true) :
    ∃ q, op.apply p = some q ∧ q.Shows (v.after op) := by
  obtain ⟨r, hkv, hw, hm⟩ := h.kv
  cases op with
  | metaAdd key val =>
    refine ⟨p.modifyMap r fun m => m.set key val, ?_, h.modifyMap hkv _⟩
    rw [PktOp.apply, metaAdd, hkv, Option.map_some]
  | metaClear =>
    refine ⟨_, rfl, ?_⟩
    rw [metaClear, hkv, PktView.after, ← deleteKeys_eq_empty v.kv]
    exact h.modifyMap hkv deleteKeys
  | setDest dest => exact ⟨_, rfl, ⟨r, hkv, hw, hm⟩, h.wire, h.buff, rfl⟩
  | write data => exact ⟨_, rfl, ⟨r, hkv, hw, hm⟩, h.wire, congrArg (· ++ data) h.buff, h.dest⟩
  | clear => exact ⟨_, rfl, ⟨r, hkv, hw, hm⟩, h.wire, rfl, h.dest⟩
  | close => exact ⟨_, rfl, ⟨r, hkv, hw, hm⟩, congrArg Base64.encode h.buff, h.buff, h.dest⟩
  | unmarshal bin => cases hop

end Shows

/-! ## Over the wire -/

/-- Every key of the map is valid UTF-8. -/
def KeysValid (m : Meta) : Prop := ∀ k x, m.get? k = some x → Utf8.Valid k

theorem keysValid_empty : KeysValid GoMap.empty := by
  intro k x h
  simp at h

theorem keysValid_set {m : Meta} (hm : KeysValid m) {k : GoString} (hk : Utf8.Valid k)
    (x : GoString) : KeysValid (m.set k x) := by
  intro k' x' h
  rw [GoMap.get?_set] at h
  split at h
  · next he => exact he ▸ hk
  · exact hm k' x' h

/-- Coercion changes the value of a key that no other key is coerced to. -/
theorem get?_coerceMeta_of {m : Meta} {k : GoString}
    (hk : ∀ k' x, m.get? k' = some x → (k = Utf8.toValid k' ↔ k = k')) :
    (coerceMeta m).get? k = (m.get? k).map Utf8.toValid := by
  have hlast : ∀ es : List (GoString × GoString), (∀ e ∈ es, m.get? e.1 = some e.2) →
      lastSet k (es.map fun e => (Utf8.toValid e.1, Utf8.toValid e.2)) =
        (lastSet k es).map Utf8.toValid := by
    intro es hes
    induction es with
    | nil => rfl
    | cons e es ih =>
      rw [List.map_cons, lastSet, lastSet, ih fun e he => hes e (List.mem_cons_of_mem _ he)]
      cases lastSet k es with
      | some x => rfl
      | none =>
        by_cases he : k = e.1
        · simp [he, ← (hk e.1 e.2 (hes e List.mem_cons_self)).mpr he]
        · simp [he, mt (hk e.1 e.2 (hes e List.mem_cons_self)).mp he]
  have hfold : coerceMeta m = (m.entries.map fun e => (Utf8.toValid e.1, Utf8.toValid e.2)).foldl
      (fun n e => n.set e.1 e.2) GoMap.empty := by
    rw [coerceMeta, List.foldl_map]
  rw [hfold, get?_foldl_set, hlast _ fun e he => GoMap.mem_entries_iff.mp he,
    lastSet_eq_lookup m.sorted, GoMap.get?_empty, Option.or_none]
  rfl

/-- With valid keys, coercion changes the values only. -/
theorem get?_coerceMeta {m : Meta} (hm : KeysValid m) (k : GoString) :
    (coerceMeta m).get? k = (m.get? k).map Utf8.toValid :=
  get?_coerceMeta_of fun k' x h => by rw [hm k' x h]

/-- The value of an ASCII key, whatever the other keys are. -/
theorem get?_coerceMeta_ascii (m : Meta) {k : GoString} (hk : ∀ b ∈ k, b < 0x80) :
    (coerceMeta m).get? k = (m.get? k).map Utf8.toValid := by
  refine get?_coerceMeta_of fun k' x _ => ⟨fun h => ?_, fun h => ?_⟩
  · exact (Utf8.eq_of_toValid_ascii hk h.symm).symm
  · rw [← h]
    exact (Utf8.valid_of_ascii hk).symm

/-- The document `Marshal` writes, as it is read. -/
def viewDoc (v : PktView) : Json :=
  .obj [(ascii "m", Json.toValid (metaDoc (some v.kv))), (ascii "d", .str (Utf8.toValid v.wire))]

theorem parse_view (v : PktView) :
    Json.parse v.marshal = some (viewDoc v) :=
  Json.parse_render ⟨by decide, fits_metaDoc (some v.kv), trivial, trivial⟩

theorem metaPatch_viewDoc (v : PktView) : metaPatch (viewDoc v) = .onto (coerceMeta v.kv) :=
  congrArg MetaPatch.onto (storeEntries_toValid v.kv.entries GoMap.empty)

theorem docData_viewDoc (v : PktView) : docData (viewDoc v) = some (Utf8.toValid v.wire) := rfl

theorem typeError_viewDoc (v : PktView) : typeError (viewDoc v) = false := by
  have hstr : ∀ es : List (GoString × GoString),
      (Json.toValidMembers (es.map fun e => (e.1, Json.str e.2))).any (fun e => (elemString e.2).2) =
        false := by
    intro es
    induction es with
    | nil => rfl
    | cons e es ih => exact ih
  have hmeta : ∀ p : JSONPkt, (p.storeMeta (Json.toValid (metaDoc (some v.kv)))).2 = false :=
    fun _ => hstr v.kv.entries
  simp only [typeError, viewDoc, jsonUnmarshal, storeMembers, storeMember, storeData,
    show isMetaKey (ascii "m") = true from rfl, show isMetaKey (ascii "d") = false from rfl,
    show isDataKey (ascii "d") = true from rfl, if_true, hmeta, Bool.or_false,
    Bool.false_eq_true, if_false]

/-- A packet decodes the bytes of another: it has the sender's metadata over its own,
and the data the sender has closed. -/
theorem unmarshal_marshal {p : JSONPkt} {m : Meta} (hp : p.wireMap = some m) {v : PktView}
    (hkeys : KeysValid v.kv) {body : Bytes} (hbody : v.wire = Base64.encode body) :
    ∃ q, p.unmarshal v.marshal = (q, none) ∧ q.data = body ∧ ∀ k, q.metaGet k =
      (((v.kv.get? k).map Utf8.toValid).or (m.get? k)).getD [] := by
  have hdec : Base64.decode ((docData (viewDoc v)).getD p.wireData) = some body := by
    rw [docData_viewDoc, Option.getD_some, hbody, Base64.encode_valid, Base64.decode_encode]
  have hq : p.unmarshal v.marshal = (_, none) :=
    unmarshal_ok_iff.mpr ⟨viewDoc v, body, parse_view v, typeError_viewDoc v, hdec, rfl⟩
  refine ⟨_, hq, rfl, fun k => ?_⟩
  rw [JSONPkt.metaGet, unmarshal_ok_kvMap hq (parse_view v), metaPatch_viewDoc, hp]
  simp only [MetaPatch.apply, index, Option.bind_some]
  rw [get?_overlay, get?_coerceMeta hkeys]

end JSONPkt

end Concord
