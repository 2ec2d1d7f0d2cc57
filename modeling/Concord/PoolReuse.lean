import Concord.PacketCodec
import Concord.Pool

/-!
# Reuse of pooled packets

`NewPkt` resets the map behind `Meta()`, the data buffer and the destination of
the packet object it takes from the pool. It does not reset the wire struct:
`jsonPkt.Data` survives, and so does `jsonPkt.Meta` when it is no longer the map
behind `Meta()`. Two kinds of traffic read the wire struct without overwriting
it first.

* `Unmarshal` merges into it: `decodeNew_eq_fresh_iff` says exactly when a
  decode on a reused packet agrees with the decode on a new one.
* An error packet is encoded without a `Close`: `errBytes_iff` says exactly when
  its bytes carry the error and nothing else.
-/

namespace Concord

open Go JSONPkt

namespace PktPool

/-! ## 1. The packet object the pool hands out -/

/-- `NewPkt` and then `Unmarshal` on the packet it returned. -/
def decodeNew (s : PktPool) (choice : Nat) (ref dest : GoString) (bin : Bytes) :
    Option (JSONPkt × Option UnmarshalErr) := do
  let (i, s) ← s.newPkt choice ref dest
  let p ← s.mem[i]?
  return p.unmarshal bin

/-- `NewErrPkt` and then `Marshal`, as the server and the client send errors. -/
def errBytes (s : PktPool) (choice : Nat) (ref dest msg : GoString) : Option Bytes := do
  let (i, s) ← s.newErrPkt choice ref dest msg
  let p ← s.mem[i]?
  return p.marshal

theorem setPkt_getElem? {s : PktPool} {i : Nat} {p : JSONPkt} (h : s.mem[i]? = some p)
    (q : JSONPkt) : (s.setPkt i q).mem[i]? = some q := by
  simp only [setPkt]
  rw [List.getElem?_set_self (List.getElem?_eq_some_iff.mp h).1]

theorem decodeNew_eq {s : PktPool} {choice : Nat} {o : JSONPkt} (ho : s.pick choice = some o)
    (ref dest : GoString) (bin : Bytes) :
    s.decodeNew choice ref dest bin = (o.newPkt ref dest).map fun p => p.unmarshal bin := by
  simp only [pick] at ho
  simp only [decodeNew, newPkt, onPkt, ho, Option.bind_eq_bind, Option.bind_some]
  cases o.newPkt ref dest with
  | none => rfl
  | some p => simp [setPkt_getElem? ho]

theorem errBytes_eq {s : PktPool} {choice : Nat} {o : JSONPkt} (ho : s.pick choice = some o)
    (ref dest msg : GoString) :
    s.errBytes choice ref dest msg = (o.newErrPkt ref dest msg).map marshal := by
  simp only [pick] at ho
  simp only [errBytes, newErrPkt, onPkt, ho, Option.bind_eq_bind, Option.bind_some]
  cases o.newErrPkt ref dest msg with
  | none => rfl
  | some p => simp [setPkt_getElem? ho]

/-- On an empty pool every packet is a new one. -/
theorem pick_empty (choice : Nat) : empty.pick choice = some JSONPkt.new := rfl

end PktPool

/-- The wire struct's map after the map behind `Meta()` has been rewritten. -/
theorem wireMap_rewritten {o : JSONPkt} {r : Nat} (hr : o.kvMeta = some r) (u : Meta)
    (dest : GoString) :
    JSONPkt.wireMap { (o.modifyMap r fun _ => u) with buff := [], dest := dest } =
      if o.wireMeta = o.kvMeta then some u else o.wireMap := by
  have hmap : JSONPkt.wireMap { (o.modifyMap r fun _ => u) with buff := [], dest := dest } =
      (o.modifyMap r fun _ => u).wireMap := rfl
  rw [hmap]
  cases hw : o.wireMeta with
  | none =>
    rw [if_neg (by simp [hr]), wireMap_none (p := o.modifyMap r fun _ => u) hw, wireMap_none hw]
  | some w =>
    rw [wireMap_some (p := o.modifyMap r fun _ => u) hw, wireMap_some hw, maps_modifyMap, hr]
    by_cases h : w = r
    · obtain ⟨m, hm⟩ := maps_wireMeta hw
      rw [if_pos h, if_pos (congrArg some h), hm]
      rfl
    · rw [if_neg h, if_neg fun e => h (Option.some.inj e)]

/-! ## 2. Decoding into a reused packet -/

/-- The value of `k` after the document does not depend on the map before. -/
def JSONPkt.MetaPatch.decides : MetaPatch → GoString → Bool
  | .untouched, _ => false
  | .onto u, k => (u.get? k).isSome
  | .replace _, _ => true

theorem index_apply_eq_iff (patch : MetaPatch) (c c' : Option Meta) (k : GoString) :
    index (patch.apply c) k = index (patch.apply c') k ↔
      patch.decides k = true ∨ index c k = index c' k := by
  cases patch with
  | untouched => simp [MetaPatch.apply, MetaPatch.decides]
  | replace r => simp [MetaPatch.apply, MetaPatch.decides]
  | onto u =>
    have key : ∀ c : Option Meta,
        index (MetaPatch.apply (.onto u) c) k = (u.get? k).getD (index c k) := by
      intro c
      cases c with
      | none => simp [MetaPatch.apply, index]
      | some m =>
        simp only [MetaPatch.apply, index, Option.bind_some, get?_overlay]
        cases u.get? k <;> rfl
    rw [key, key, MetaPatch.decides]
    cases u.get? k <;> simp

/-- The packet object `o` leaves no trace in the decode of `doc` after
`NewPkt(ref, _)`: what the document does not set is as in a new packet. -/
def LeavesNoTrace (o : JSONPkt) (ref : GoString) (doc : Json) : Prop :=
  ((docData doc).isSome = true ∨ Base64.decode o.wireData = some []) ∧
  (o.wireMeta = o.kvMeta ∨
    ∀ k, (metaPatch doc).decides k = true ∨ index o.wireMap k = index (some (refMeta ref)) k)

/-- What `NewPkt` and a successful `Unmarshal` give on the packet object `o`. -/
theorem newPkt_unmarshal {o p q : JSONPkt} {ref dest : GoString} {bin : Bytes} {doc : Json}
    (hp : o.newPkt ref dest = some p) (hdoc : Json.parse bin = some doc)
    (hq : p.unmarshal bin = (q, none)) :
    Base64.decode ((docData doc).getD o.wireData) = some q.data ∧
    ∀ k, q.metaGet k = index ((metaPatch doc).apply
      (if o.wireMeta = o.kvMeta then some (refMeta ref) else o.wireMap)) k := by
  rw [newPkt_eq] at hp
  obtain ⟨r, hr, rfl⟩ := Option.map_eq_some_iff.mp hp
  have hdata := unmarshal_ok_data hq hdoc
  refine ⟨hdata, fun k => ?_⟩
  rw [metaGet, unmarshal_ok_kvMap hq hdoc, wireMap_rewritten hr]

/-- A new packet decodes every document some packet decodes. -/
theorem fresh_decodes {p q : JSONPkt} {bin : Bytes} (hq : p.unmarshal bin = (q, none))
    (ref dest : GoString) :
    ∃ f g, JSONPkt.new.newPkt ref dest = some f ∧ f.unmarshal bin = (g, none) := by
  obtain ⟨doc, dec, hdoc, hte, hdec, -⟩ := unmarshal_ok_iff.mp hq
  have hf : ∃ f, JSONPkt.new.newPkt ref dest = some f ∧ f.wireData = [] :=
    ⟨_, newPkt_eq JSONPkt.new ref dest, rfl⟩
  obtain ⟨f, hf, hwd⟩ := hf
  have hdec' : ∃ dec', Base64.decode ((docData doc).getD f.wireData) = some dec' := by
    cases hd : docData doc with
    | some s =>
      rw [hd] at hdec
      exact ⟨dec, hdec⟩
    | none => exact ⟨[], by rw [hwd]; rfl⟩
  obtain ⟨dec', hdec'⟩ := hdec'
  exact ⟨f, _, hf, unmarshal_ok_iff.mpr ⟨doc, dec', hdoc, hte, hdec', rfl⟩⟩

/-- After any history of the pool, a successful decode on the packet `NewPkt`
returns agrees with the one on a new packet exactly when the packet object leaves
no trace. -/
theorem decodeNew_eq_fresh_iff {ops : List PoolOp} {choice : Nat} {ref dest : GoString}
    {bin : Bytes} {doc : Json} {o q : JSONPkt}
    (ho : ((PktPool.empty.run ops).bind fun s => s.pick choice) = some o)
    (hdoc : Json.parse bin = some doc)
    (hq : ((PktPool.empty.run ops).bind fun s => s.decodeNew choice ref dest bin) =
      some (q, none)) :
    (∃ g, PktPool.empty.decodeNew choice ref dest bin = some (g, none) ∧
      q.data = g.data ∧ ∀ k, q.metaGet k = g.metaGet k) ↔ LeavesNoTrace o ref doc := by
  obtain ⟨s, hs, ho⟩ := Option.bind_eq_some_iff.mp ho
  rw [hs, Option.bind_some, PktPool.decodeNew_eq ho] at hq
  obtain ⟨p, hp, hq⟩ := Option.map_eq_some_iff.mp hq
  obtain ⟨f, g, hf, hg⟩ := fresh_decodes hq ref dest
  obtain ⟨hqd, hqm⟩ := newPkt_unmarshal hp hdoc hq
  obtain ⟨hgd, hgm⟩ := newPkt_unmarshal hf hdoc hg
  have hfresh : PktPool.empty.decodeNew choice ref dest bin = some (g, none) := by
    rw [PktPool.decodeNew_eq (PktPool.pick_empty choice), hf, Option.map_some, hg]
  have hdata : q.data = g.data ↔
      ((docData doc).isSome = true ∨ Base64.decode o.wireData = some []) := by
    cases hd : docData doc with
    | some t =>
      rw [hd] at hqd hgd
      simp [Option.some.inj (hqd.symm.trans hgd)]
    | none =>
      rw [hd] at hqd hgd
      have hg0 : g.data = [] := (Option.some.inj hgd).symm
      simp only [Option.getD_none] at hqd
      simp [hqd, hg0]
  have hmeta : (∀ k, q.metaGet k = g.metaGet k) ↔ (o.wireMeta = o.kvMeta ∨
      ∀ k, (metaPatch doc).decides k = true ∨ index o.wireMap k = index (some (refMeta ref)) k) := by
    have hnew : JSONPkt.new.wireMeta = JSONPkt.new.kvMeta := rfl
    simp only [hqm, hgm, if_pos hnew, index_apply_eq_iff]
    by_cases h : o.wireMeta = o.kvMeta
    · simp [h]
    · simp [h]
  constructor
  · rintro ⟨g', hg', hd, hm⟩
    obtain rfl : g = g' := by
      rw [hfresh] at hg'
      simpa using hg'
    exact ⟨hdata.mp hd, hmeta.mp hm⟩
  · rintro ⟨hd, hm⟩
    exact ⟨g, hfresh, hdata.mpr hd, hmeta.mpr hm⟩

/-- A request with a payload has been decoded into the packet, and the packet is
back in the pool. -/
def payloadOps : List PoolOp :=
  [.newPkt 0 [] [],
    .call 0 (.unmarshal (ascii "\x7b\"m\":\x7b\x7d,\"d\":\"c2VjcmV0\"\x7d")),
    .putBack 0]

/-- A document without a data member. -/
def bareDoc : Bytes := ascii "\x7b\"m\":\x7b\x7d\x7d"

/-- A document with both members. -/
def fullDoc : Bytes := ascii "\x7b\"m\":\x7b\x7d,\"d\":\"\"\x7d"

theorem exists_decoded {x : Option (JSONPkt × Option UnmarshalErr)} {d : Bytes}
    (h : (x.map fun r => (r.1.data, r.2)) = some (d, none)) :
    ∃ q, x = some (q, none) ∧ q.data = d := by
  obtain ⟨⟨q, e⟩, hx, hr⟩ := Option.map_eq_some_iff.mp h
  simp only [Prod.mk.injEq] at hr
  exact ⟨q, hr.2 ▸ hx, hr.1⟩

/-- The next request has no data member and is read with the payload of the
earlier one. -/
theorem decodeNew_payload_leaks :
    ∃ q, ((PktPool.empty.run payloadOps).bind fun s => s.decodeNew 0 [] [] bareDoc) =
        some (q, none) ∧ q.data = ascii "secret" ∧
      ¬ ∃ g, PktPool.empty.decodeNew 0 [] [] bareDoc = some (g, none) ∧
        q.data = g.data ∧ ∀ k, q.metaGet k = g.metaGet k := by
  obtain ⟨q, hq, hqd⟩ := @exists_decoded
    ((PktPool.empty.run payloadOps).bind fun s => s.decodeNew 0 [] [] bareDoc) (ascii "secret")
    (by decide +kernel)
  obtain ⟨g, hg, hgd⟩ := @exists_decoded (PktPool.empty.decodeNew 0 [] [] bareDoc) []
    (by decide +kernel)
  refine ⟨q, hq, hqd, ?_⟩
  rintro ⟨g', hg', hd, -⟩
  obtain rfl : g = g' := by
    rw [hg] at hg'
    simpa using hg'
  rw [hqd, hgd] at hd
  exact absurd hd (by decide)

/-- A request with both members is read as by a new packet. -/
theorem decodeNew_fullDoc_eq_fresh :
    ∃ o doc q, ((PktPool.empty.run payloadOps).bind fun s => s.pick 0) = some o ∧
      Json.parse fullDoc = some doc ∧ LeavesNoTrace o [] doc ∧
      ((PktPool.empty.run payloadOps).bind fun s => s.decodeNew 0 [] [] fullDoc) =
        some (q, none) ∧
      ∃ g, PktPool.empty.decodeNew 0 [] [] fullDoc = some (g, none) ∧
        q.data = g.data ∧ ∀ k, q.metaGet k = g.metaGet k := by
  obtain ⟨q, hq, -⟩ := @exists_decoded
    ((PktPool.empty.run payloadOps).bind fun s => s.decodeNew 0 [] [] fullDoc) []
    (by decide +kernel)
  have hpick : (((PktPool.empty.run payloadOps).bind fun s => s.pick 0).map fun o =>
      decide (o.wireMeta = o.kvMeta)) = some true := by decide +kernel
  obtain ⟨o, ho, hm⟩ := Option.map_eq_some_iff.mp hpick
  have hdoc : Json.parse fullDoc = some (.obj [(ascii "m", .obj []), (ascii "d", .str [])]) := by
    rfl
  have hclean : LeavesNoTrace o [] (.obj [(ascii "m", .obj []), (ascii "d", .str [])]) :=
    ⟨.inl (by decide), .inl (of_decide_eq_true hm)⟩
  exact ⟨o, _, q, ho, hdoc, hclean, hq, (decodeNew_eq_fresh_iff ho hdoc hq).mpr hclean⟩

/-! ## 3. The bytes of an error packet -/

theorem wireData_valid_op {op : PktOp} {p q : JSONPkt} (hp : Utf8.Valid p.wireData)
    (h : op.apply p = some q) : Utf8.Valid q.wireData := by
  cases op with
  | metaAdd k v =>
    obtain ⟨r, -, rfl⟩ := Option.map_eq_some_iff.mp h
    exact hp
  | metaClear =>
    cases h
    unfold metaClear
    split <;> exact hp
  | setDest d => cases h; exact hp
  | write d => cases h; exact hp
  | clear => cases h; exact hp
  | close =>
    cases h
    exact Base64.encode_valid p.buff
  | unmarshal bin =>
    cases h
    exact wireData_valid_unmarshal hp bin

theorem eachMeets_true (s : PktPool) (ops : List PoolOp) :
    s.EachMeets (fun _ _ => True) ops := by
  induction ops generalizing s with
  | nil => trivial
  | cons op ops ih =>
    refine ⟨?_, fun s' _ => ih s'⟩
    cases op <;> simp [PoolOp.Meets]

/-- The wire data of every packet the pool can hand out is valid UTF-8. -/
theorem pick_wireData_valid {ops : List PoolOp} {s : PktPool} {choice : Nat} {o : JSONPkt}
    (hs : PktPool.empty.run ops = some s) (ho : s.pick choice = some o) :
    Utf8.Valid o.wireData := by
  have hnew : Utf8.Valid JSONPkt.new.wireData := Utf8.valid_nil
  have hall := PktPool.run_all hnew (fun _ hp h => wireData_valid_op hp h)
    (eachMeets_true PktPool.empty ops) (by simp [PktPool.empty]) hs
  exact PktPool.all_get hnew hall choice o (List.mem_of_getElem? ho)

theorem errMeta_entries (ref msg : GoString) :
    (errMeta ref msg).entries =
      [(keySvrMsg, msg), (keyRef, ref), (keySvrStatus, ascii "-1")] := rfl

theorem coerceMeta_errMeta (ref msg : GoString) :
    coerceMeta (errMeta ref msg) = errMeta ref msg ↔ Utf8.Valid ref ∧ Utf8.Valid msg := by
  have hco : coerceMeta (errMeta ref msg) = errMeta (Utf8.toValid ref) (Utf8.toValid msg) := by
    rw [coerceMeta, errMeta_entries]
    rfl
  rw [hco]
  constructor
  · intro h
    have hent := congrArg GoMap.entries h
    simp only [errMeta_entries, List.cons.injEq, Prod.mk.injEq, true_and, and_true] at hent
    exact ⟨hent.2, hent.1⟩
  · rintro ⟨hr, hm⟩
    rw [hr, hm]

/-- After any history of the pool, the bytes of an error packet carry exactly the
error's metadata and an empty data section if and only if the packet object the
pool hands out has no data left in its wire struct and either its wire map is the
one behind `Meta()`, the strings being valid UTF-8, or it is another map that
happens to read as the error's metadata. -/
theorem errBytes_iff {ops : List PoolOp} {choice : Nat} {ref dest msg : GoString} {bin : Bytes}
    {o : JSONPkt} (ho : ((PktPool.empty.run ops).bind fun s => s.pick choice) = some o)
    (hb : ((PktPool.empty.run ops).bind fun s => s.errBytes choice ref dest msg) = some bin) :
    (encodedMeta bin = some (errMeta ref msg) ∧ (encodedData bin).bind Base64.decode = some []) ↔
      Base64.decode o.wireData = some [] ∧
      (o.wireMeta = o.kvMeta ∧ Utf8.Valid ref ∧ Utf8.Valid msg ∨
        o.wireMeta ≠ o.kvMeta ∧ o.wireMap.map coerceMeta = some (errMeta ref msg)) := by
  obtain ⟨s, hs, ho⟩ := Option.bind_eq_some_iff.mp ho
  have hvalid := pick_wireData_valid hs ho
  rw [hs, Option.bind_some, PktPool.errBytes_eq ho, newErrPkt_eq] at hb
  simp only [Option.map_map, Option.map_eq_some_iff] at hb
  obtain ⟨r, hr, rfl⟩ := hb
  simp only [Function.comp_apply]
  rw [encodedMeta_marshal, encodedData_marshal, wireMap_rewritten hr, Option.bind_some]
  simp only [modifyMap_wireData, show Utf8.toValid o.wireData = o.wireData from hvalid]
  rw [and_comm]
  refine and_congr_right fun _ => ?_
  by_cases h : o.wireMeta = o.kvMeta
  · simp [h, coerceMeta_errMeta]
  · simp [h]

/-- The error packet answers another client and carries the payload of the
request before. -/
theorem errBytes_payload_leaks :
    ∃ bin, ((PktPool.empty.run payloadOps).bind fun s =>
        s.errBytes 0 [] [] (ascii "malformed packet")) = some bin ∧
      (encodedData bin).bind Base64.decode = some (ascii "secret") ∧
      ¬ (encodedMeta bin = some (errMeta [] (ascii "malformed packet")) ∧
        (encodedData bin).bind Base64.decode = some []) := by
  have h : (((PktPool.empty.run payloadOps).bind fun s =>
      s.errBytes 0 [] [] (ascii "malformed packet")).map fun bin =>
        (encodedData bin).bind Base64.decode) = some (some (ascii "secret")) := by decide +kernel
  obtain ⟨bin, hbin, hd⟩ := Option.map_eq_some_iff.mp h
  refine ⟨bin, hbin, hd, ?_⟩
  rintro ⟨-, hd'⟩
  rw [hd] at hd'
  exact absurd hd' (by decide)

/-- On a new pool the error packet is what it should be. -/
theorem errBytes_new_pool :
    ∃ bin, (PktPool.empty.run []).bind (fun s => s.errBytes 0 [] [] (ascii "malformed packet")) =
        some bin ∧
      encodedMeta bin = some (errMeta [] (ascii "malformed packet")) ∧
      (encodedData bin).bind Base64.decode = some [] :=
  ⟨_, rfl, (@errBytes_iff [] 0 [] [] (ascii "malformed packet") _ JSONPkt.new rfl rfl).mpr
    ⟨rfl, .inl ⟨rfl, Utf8.valid_nil, by decide⟩⟩⟩

end Concord
