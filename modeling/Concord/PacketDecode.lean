import Concord.Packet

/-!
# What decoding does to a packet

`Unmarshal` writes into whatever the packet already holds. This module says
what it does as a function of the document alone:

* `dataPatch`: the last string a document stores into `jsonPkt.Data`, if any;
* `metaPatch`: what a document does to the map behind `jsonPkt.Meta`. Either it
  puts entries over the map that is there, or a `null` has cut the packet off
  from that map and the result does not depend on it.

`unmarshal_ok_iff` gives the result of a successful decode in these terms, and
`wireMeta_jsonUnmarshal` says when the packet ends up with another map object.
-/

namespace Concord

open Go

namespace JSONPkt

/-! ## 1. Map references -/

@[simp] theorem modifyMap_wireMeta (p : JSONPkt) (r : Nat) (f : Meta → Meta) :
    (p.modifyMap r f).wireMeta = p.wireMeta := rfl

@[simp] theorem modifyMap_kvMeta (p : JSONPkt) (r : Nat) (f : Meta → Meta) :
    (p.modifyMap r f).kvMeta = p.kvMeta := rfl

@[simp] theorem modifyMap_wireData (p : JSONPkt) (r : Nat) (f : Meta → Meta) :
    (p.modifyMap r f).wireData = p.wireData := rfl

@[simp] theorem modifyMap_buff (p : JSONPkt) (r : Nat) (f : Meta → Meta) :
    (p.modifyMap r f).buff = p.buff := rfl

theorem maps_modifyMap (p : JSONPkt) (r j : Nat) (f : Meta → Meta) :
    (p.modifyMap r f).maps[j]? = if j = r then p.maps[j]?.map f else p.maps[j]? := by
  simp only [modifyMap, List.getElem?_modify, Option.map_eq_map]
  by_cases h : j = r
  · simp [h]
  · simp [h, Ne.symm h]

theorem wireMap_some {p : JSONPkt} {r : Nat} (h : p.wireMeta = some r) :
    p.wireMap = p.maps[r]? := by
  rw [wireMap, h, Option.bind_some]

theorem wireMap_none {p : JSONPkt} (h : p.wireMeta = none) : p.wireMap = none := by
  rw [wireMap, h, Option.bind_none]

theorem kvMap_some {p : JSONPkt} {r : Nat} (h : p.kvMeta = some r) : p.kvMap = p.maps[r]? := by
  rw [kvMap, h, Option.bind_some]

theorem kvMap_none {p : JSONPkt} (h : p.kvMeta = none) : p.kvMap = none := by
  rw [kvMap, h, Option.bind_none]

/-- A non-nil reference names a map. -/
theorem maps_wireMeta {p : JSONPkt} {r : Nat} (h : p.wireMeta = some r) :
    ∃ m, p.maps[r]? = some m :=
  ⟨_, List.getElem?_eq_getElem (p.wireMeta_lt r h)⟩

theorem maps_kvMeta {p : JSONPkt} {r : Nat} (h : p.kvMeta = some r) :
    ∃ m, p.maps[r]? = some m :=
  ⟨_, List.getElem?_eq_getElem (p.kvMeta_lt r h)⟩

theorem metaAdd_dest {p q : JSONPkt} {k v : GoString} (h : p.metaAdd k v = some q) :
    q.dest = p.dest := by
  obtain ⟨r, -, rfl⟩ := Option.map_eq_some_iff.mp h
  rfl

theorem metaGet_metaAdd {p q : JSONPkt} {k v : GoString} (h : p.metaAdd k v = some q)
    (k' : GoString) : q.metaGet k' = if k' = k then v else p.metaGet k' := by
  obtain ⟨r, hr, rfl⟩ := Option.map_eq_some_iff.mp h
  obtain ⟨m, hm⟩ := maps_kvMeta hr
  have hmap : (p.modifyMap r fun m => m.set k v).kvMap = some (m.set k v) := by
    rw [kvMap_some (p := p.modifyMap r fun m => m.set k v) hr, maps_modifyMap, if_pos rfl, hm]
    rfl
  rw [metaGet, hmap, metaGet, kvMap_some hr, hm]
  simp only [index, Option.bind_some, GoMap.get?_set]
  split
  · rfl
  · rfl

/-! ## 2. `NewPkt` and `NewErrPkt` -/

theorem deleteKeys_eq_empty (m : Meta) : deleteKeys m = GoMap.empty := by
  have key : ∀ (es : List (GoString × GoString)) (n : Meta) (k : GoString),
      (es.foldl (fun m e => m.delete e.1) n).get? k =
        if k ∈ es.map Prod.fst then none else n.get? k := by
    intro es
    induction es with
    | nil => simp
    | cons e es ih =>
      intro n k
      rw [List.foldl_cons, ih, GoMap.get?_delete]
      by_cases h1 : k = e.1 <;> by_cases h2 : k ∈ es.map Prod.fst <;> simp_all
  have absent : ∀ (es : List (GoString × GoString)) (k : GoString),
      k ∉ es.map Prod.fst → GoMap.lookup k es = none := by
    intro es k
    induction es with
    | nil => exact fun _ => rfl
    | cons e es ih =>
      intro h
      rw [List.map_cons, List.mem_cons, not_or] at h
      rw [GoMap.lookup, if_neg h.1]
      exact ih h.2
  refine GoMap.ext_get? fun k => ?_
  rw [deleteKeys, key, GoMap.get?_empty]
  split
  · rfl
  · next h => exact absent _ _ h

/-- The metadata `NewPkt` leaves behind `Meta()`. -/
def refMeta (ref : GoString) : Meta := GoMap.empty.set keyRef ref

/-- The metadata `NewErrPkt` leaves behind `Meta()`. -/
def errMeta (ref msg : GoString) : Meta :=
  ((refMeta ref).set keySvrStatus (ascii "-1")).set keySvrMsg msg

/-- `NewPkt` panics exactly on a packet whose `Meta()` map is nil, and otherwise
rewrites that one map. -/
theorem newPkt_eq (p : JSONPkt) (ref dest : GoString) :
    p.newPkt ref dest = p.kvMeta.map fun r =>
      { (p.modifyMap r fun _ => refMeta ref) with buff := [], dest := dest } := by
  cases hk : p.kvMeta with
  | none => simp [newPkt, metaAdd, metaClear, clear, setDest, hk]
  | some r =>
    simp only [newPkt, metaAdd, metaClear, clear, setDest, hk, modifyMap, Option.map_some,
      Option.some.injEq]
    congr 1
    rw [List.modify_modify_eq]
    congr 1
    funext m
    simp [deleteKeys_eq_empty, refMeta]

theorem newErrPkt_eq (p : JSONPkt) (ref dest msg : GoString) :
    p.newErrPkt ref dest msg = p.kvMeta.map fun r =>
      { (p.modifyMap r fun _ => errMeta ref msg) with buff := [], dest := dest } := by
  rw [newErrPkt, newPkt_eq]
  cases hk : p.kvMeta with
  | none => rfl
  | some r =>
    simp only [Option.map_some, Option.bind_eq_bind, Option.bind_some, metaAdd, modifyMap, hk,
      Option.some.injEq]
    congr 1
    rw [List.modify_modify_eq, List.modify_modify_eq]
    rfl

/-- Whatever packet object it was made of, an error packet has its metadata behind `Meta()`, no
data section and its destination. -/
theorem newErrPkt_some {p q : JSONPkt} {ref dest msg : GoString}
    (h : p.newErrPkt ref dest msg = some q) :
    q.kvMap = some (errMeta ref msg) ∧ q.data = [] ∧ q.dest = dest := by
  rw [newErrPkt_eq] at h
  obtain ⟨r, hr, rfl⟩ := Option.map_eq_some_iff.mp h
  obtain ⟨m, hm⟩ := maps_kvMeta hr
  refine ⟨?_, rfl, rfl⟩
  have hmap : (p.modifyMap r fun _ => errMeta ref msg).kvMap = some (errMeta ref msg) := by
    rw [kvMap_some (p := p.modifyMap r fun _ => errMeta ref msg) hr, maps_modifyMap, if_pos rfl, hm]
    rfl
  exact hmap

/-! ## 3. What a document does to the data field -/

/-- The last string a list of members stores into `jsonPkt.Data`. -/
def dataPatch : List (GoString × Json) → Option GoString
  | [] => none
  | (k, v) :: ms =>
    match dataPatch ms with
    | some s => some s
    | none =>
      match isMetaKey k, isDataKey k, v with
      | false, true, .str s => some s
      | _, _, _ => none

theorem storeMeta_wireData (p : JSONPkt) (v : Json) : (p.storeMeta v).1.wireData = p.wireData := by
  cases v with
  | obj ms =>
    simp only [storeMeta, ensureWireMap]
    cases p.wireMeta <;> rfl
  | _ => rfl

theorem storeMembers_wireData (p : JSONPkt) (ms : List (GoString × Json)) :
    (p.storeMembers ms).1.wireData = (dataPatch ms).getD p.wireData := by
  induction ms generalizing p with
  | nil => rfl
  | cons e ms ih =>
    obtain ⟨k, v⟩ := e
    simp only [storeMembers, ih, dataPatch]
    cases dataPatch ms with
    | some s => rfl
    | none =>
      simp only [Option.getD_none, storeMember]
      cases hm : isMetaKey k with
      | true => simp [storeMeta_wireData]
      | false =>
        cases hd : isDataKey k with
        | false => simp
        | true => cases v <;> rfl

/-! ## 4. What a document does to the metadata map -/

/-- `untouched`: the document has nothing for the map. `onto u`: the entries
`u` are put over the map that is there, or over a new map when it is nil.
`replace r`: a `null` was met; the map of before plays no part in the result. -/
inductive MetaPatch where
  | untouched
  | onto (u : Meta)
  | replace (r : Option Meta)

def MetaPatch.step : MetaPatch → Json → MetaPatch
  | _, .null => .replace none
  | .untouched, .obj ms => .onto (storeEntries GoMap.empty ms)
  | .onto u, .obj ms => .onto (storeEntries u ms)
  | .replace r, .obj ms => .replace (some (storeEntries (r.getD GoMap.empty) ms))
  | patch, _ => patch

/-- The patch of a list of members, behind a patch already applied. -/
def metaPatchFrom (patch : MetaPatch) : List (GoString × Json) → MetaPatch
  | [] => patch
  | (k, v) :: ms => metaPatchFrom (if isMetaKey k then patch.step v else patch) ms

/-- What a document does to `jsonPkt.Meta`. -/
def metaPatch : Json → MetaPatch
  | .obj ms => metaPatchFrom .untouched ms
  | _ => .untouched

/-- The entries of `u` put over the map `m`. -/
def overlay (m u : Meta) : Meta := u.entries.foldl (fun m e => m.set e.1 e.2) m

def MetaPatch.apply : MetaPatch → Option Meta → Option Meta
  | .untouched, c => c
  | .onto u, some m => some (overlay m u)
  | .onto u, none => some u
  | .replace r, _ => r

/-- The last of a list of assignments to `k`. -/
def lastSet (k : GoString) : List (GoString × GoString) → Option GoString
  | [] => none
  | e :: es => (lastSet k es).or (if k = e.1 then some e.2 else none)

theorem get?_foldl_set (es : List (GoString × GoString)) (m : Meta) (k : GoString) :
    (es.foldl (fun m e => m.set e.1 e.2) m).get? k = (lastSet k es).or (m.get? k) := by
  induction es generalizing m with
  | nil => rfl
  | cons e es ih =>
    rw [List.foldl_cons, ih, GoMap.get?_set, lastSet]
    cases lastSet k es with
    | some s => rfl
    | none =>
      by_cases h : k = e.1
      · simp [h]
      · simp [h]

/-- In a sorted entry list the last assignment to a key is the only one. -/
theorem lastSet_eq_lookup {es : List (GoString × GoString)}
    (h : es.Pairwise fun a b => a.1 < b.1) (k : GoString) :
    lastSet k es = GoMap.lookup k es := by
  induction es with
  | nil => rfl
  | cons e es ih =>
    rw [List.pairwise_cons] at h
    rw [lastSet, GoMap.lookup, ih h.2]
    by_cases hk : k = e.1
    · rw [if_pos hk, if_pos hk, hk, GoMap.lookup_eq_none_of_lt h.1]
      rfl
    · rw [if_neg hk, if_neg hk, Option.or_none]

theorem get?_overlay (m u : Meta) (k : GoString) :
    (overlay m u).get? k = (u.get? k).or (m.get? k) := by
  rw [overlay, get?_foldl_set, lastSet_eq_lookup u.sorted]
  rfl

theorem storeEntries_eq (m : Meta) (ms : List (GoString × Json)) :
    storeEntries m ms =
      (ms.map fun e => (e.1, (elemString e.2).1)).foldl (fun m e => m.set e.1 e.2) m := by
  rw [storeEntries, List.foldl_map]

theorem storeEntries_overlay (m u : Meta) (ms : List (GoString × Json)) :
    storeEntries (overlay m u) ms = overlay m (storeEntries u ms) := by
  refine GoMap.ext_get? fun k => ?_
  rw [get?_overlay, storeEntries_eq, storeEntries_eq, get?_foldl_set, get?_foldl_set,
    get?_overlay, Option.or_assoc]

theorem storeEntries_eq_overlay (m : Meta) (ms : List (GoString × Json)) :
    storeEntries m ms = overlay m (storeEntries GoMap.empty ms) :=
  storeEntries_overlay m GoMap.empty ms

theorem wireMap_storeMeta_obj (p : JSONPkt) (ms : List (GoString × Json)) :
    (p.storeMeta (.obj ms)).1.wireMap = some (storeEntries (p.wireMap.getD GoMap.empty) ms) := by
  cases hw : p.wireMeta with
  | some r =>
    obtain ⟨m, hm⟩ := maps_wireMeta hw
    have hw' : (p.modifyMap r fun m => storeEntries m ms).wireMeta = some r := hw
    simp only [storeMeta, ensureWireMap, hw]
    rw [wireMap_some hw', wireMap_some hw, maps_modifyMap, if_pos rfl, hm]
    rfl
  | none =>
    simp only [storeMeta, ensureWireMap, hw]
    rw [wireMap_none hw, wireMap_some (r := p.maps.length) rfl, maps_modifyMap, if_pos rfl]
    simp

/-- One value stored into the map is one step of the patch. -/
theorem wireMap_storeMeta {p : JSONPkt} {patch : MetaPatch} {c : Option Meta}
    (h : p.wireMap = patch.apply c) (v : Json) :
    (p.storeMeta v).1.wireMap = (patch.step v).apply c := by
  cases v with
  | null => rfl
  | obj ms =>
    rw [wireMap_storeMeta_obj, h]
    cases patch with
    | untouched =>
      cases c with
      | some m => simp only [MetaPatch.step, MetaPatch.apply, Option.getD_some,
          ← storeEntries_eq_overlay]
      | none => rfl
    | onto u =>
      cases c with
      | some m => simp only [MetaPatch.step, MetaPatch.apply, Option.getD_some,
          storeEntries_overlay]
      | none => rfl
    | replace r => rfl
  | _ => exact h

theorem storeData_wireMap (p : JSONPkt) (v : Json) : (p.storeData v).1.wireMap = p.wireMap := by
  cases v <;> rfl

theorem wireMap_storeMembers {p : JSONPkt} {patch : MetaPatch} {c : Option Meta}
    (h : p.wireMap = patch.apply c) (ms : List (GoString × Json)) :
    (p.storeMembers ms).1.wireMap = (metaPatchFrom patch ms).apply c := by
  induction ms generalizing p patch with
  | nil => exact h
  | cons e ms ih =>
    obtain ⟨k, v⟩ := e
    simp only [storeMembers, metaPatchFrom, storeMember]
    cases isMetaKey k with
    | true => exact ih (wireMap_storeMeta h v)
    | false =>
      cases isDataKey k with
      | true => exact ih ((storeData_wireMap p v).trans h)
      | false => exact ih h

/-- The map of the wire struct after a decode. -/
theorem wireMap_jsonUnmarshal (p : JSONPkt) (doc : Json) :
    (p.jsonUnmarshal doc).1.wireMap = (metaPatch doc).apply p.wireMap := by
  cases doc with
  | obj ms => exact wireMap_storeMembers rfl ms
  | _ => rfl

/-! ## 5. Which map object the packet ends up with -/

/-- The wire struct refers to another map, or to none, after the document. -/
def MetaPatch.rebinds : MetaPatch → Option Nat → Bool
  | .untouched, _ => false
  | .onto _, w => w.isNone
  | .replace none, w => w.isSome
  | .replace (some _), _ => true

/-- The map reference of `q`, which `p` has become by a document's members so
far. A map made on the way is not one of the maps of `p`. -/
structure RefAfter (p : JSONPkt) (patch : MetaPatch) (q : JSONPkt) : Prop where
  kvMeta : q.kvMeta = p.kvMeta
  grown : p.maps.length ≤ q.maps.length
  wireMeta : match patch with
    | .untouched => q.wireMeta = p.wireMeta
    | .onto _ => q.wireMeta = p.wireMeta ∧ p.wireMeta ≠ none ∨
        p.wireMeta = none ∧ ∃ r, q.wireMeta = some r ∧ p.maps.length ≤ r
    | .replace none => q.wireMeta = none
    | .replace (some _) => ∃ r, q.wireMeta = some r ∧ p.maps.length ≤ r

theorem storeMeta_obj_wireMeta (q : JSONPkt) (ms : List (GoString × Json)) :
    (q.storeMeta (.obj ms)).1.kvMeta = q.kvMeta ∧
    q.maps.length ≤ (q.storeMeta (.obj ms)).1.maps.length ∧
    (q.storeMeta (.obj ms)).1.wireMeta = some (q.wireMeta.getD q.maps.length) := by
  cases hw : q.wireMeta with
  | some r => simp [storeMeta, ensureWireMap, hw, modifyMap]
  | none => simp [storeMeta, ensureWireMap, hw, modifyMap]

theorem refAfter_storeMeta {p q : JSONPkt} {patch : MetaPatch} (h : RefAfter p patch q) (v : Json) :
    RefAfter p (patch.step v) (q.storeMeta v).1 := by
  cases v with
  | null => exact ⟨h.kvMeta, h.grown, rfl⟩
  | obj ms =>
    obtain ⟨hk, hl, hw⟩ := storeMeta_obj_wireMeta q ms
    refine ⟨hk.trans h.kvMeta, le_trans h.grown hl, ?_⟩
    have hq := h.wireMeta
    rw [hw]
    cases patch with
    | untouched =>
      rw [hq]
      cases hp : p.wireMeta with
      | some r => exact .inl ⟨rfl, by simp⟩
      | none => exact .inr ⟨rfl, _, rfl, h.grown⟩
    | onto u =>
      rcases hq with ⟨hq, hn⟩ | ⟨hn, r, hq, hr⟩
      · rw [hq]
        cases hp : p.wireMeta with
        | some r => exact .inl ⟨rfl, by simp⟩
        | none => exact absurd hp hn
      · exact .inr ⟨hn, r, by rw [hq]; rfl, hr⟩
    | replace r =>
      cases r with
      | none => exact ⟨_, rfl, by rw [show q.wireMeta = none from hq]; exact h.grown⟩
      | some m =>
        obtain ⟨r, hq, hr⟩ := hq
        exact ⟨r, by rw [hq]; rfl, hr⟩
  | _ => exact h

theorem refAfter_storeMembers {p q : JSONPkt} {patch : MetaPatch} (h : RefAfter p patch q)
    (ms : List (GoString × Json)) : RefAfter p (metaPatchFrom patch ms) (q.storeMembers ms).1 := by
  induction ms generalizing q patch with
  | nil => exact h
  | cons e ms ih =>
    obtain ⟨k, v⟩ := e
    simp only [storeMembers, metaPatchFrom, storeMember]
    cases isMetaKey k with
    | true => exact ih (refAfter_storeMeta h v)
    | false =>
      cases isDataKey k with
      | true =>
        refine ih (q := (q.storeData v).1) ⟨?_, ?_, ?_⟩
        · rw [← h.kvMeta]
          cases v <;> rfl
        · refine le_trans h.grown (le_of_eq ?_)
          cases v <;> rfl
        · have hw : (q.storeData v).1.wireMeta = q.wireMeta := by cases v <;> rfl
          rw [hw]
          exact h.wireMeta
      | false => exact ih h

theorem refAfter_jsonUnmarshal (p : JSONPkt) (doc : Json) :
    RefAfter p (metaPatch doc) (p.jsonUnmarshal doc).1 := by
  cases doc with
  | obj ms => exact refAfter_storeMembers ⟨rfl, le_refl _, rfl⟩ ms
  | _ => exact ⟨rfl, le_refl _, rfl⟩

/-- A decode leaves the wire struct with the map object it had exactly when the
document does not rebind it. -/
theorem wireMeta_jsonUnmarshal (p : JSONPkt) (doc : Json) :
    (p.jsonUnmarshal doc).1.wireMeta = p.wireMeta ↔
      (metaPatch doc).rebinds p.wireMeta = false := by
  have h := (refAfter_jsonUnmarshal p doc).wireMeta
  have fresh : ∀ {r : Nat}, p.maps.length ≤ r → some r ≠ p.wireMeta := fun hr he =>
    absurd (p.wireMeta_lt _ he.symm) (not_lt.mpr hr)
  cases hpatch : metaPatch doc with
  | untouched =>
    rw [hpatch] at h
    simp [h, MetaPatch.rebinds]
  | onto u =>
    rw [hpatch] at h
    rcases h with ⟨h, hn⟩ | ⟨hn, r, h, hr⟩
    · simpa [h, MetaPatch.rebinds] using Option.isSome_iff_ne_none.mpr hn
    · simp [h, hn, MetaPatch.rebinds]
  | replace r =>
    rw [hpatch] at h
    cases r with
    | none => rw [show _ = none from h]; cases p.wireMeta <;> simp [MetaPatch.rebinds]
    | some m =>
      obtain ⟨r, h, hr⟩ := h
      simp [h, MetaPatch.rebinds, fresh hr]

/-! ## 6. The result of a decode -/

/-- The document's own string for `jsonPkt.Data`, if it has one. -/
def docData : Json → Option GoString
  | .obj ms => dataPatch ms
  | _ => none

theorem wireData_jsonUnmarshal (p : JSONPkt) (doc : Json) :
    (p.jsonUnmarshal doc).1.wireData = (docData doc).getD p.wireData := by
  cases doc with
  | obj ms => exact storeMembers_wireData p ms
  | _ => rfl

theorem typeError_storeMembers (p q : JSONPkt) (ms : List (GoString × Json)) :
    (p.storeMembers ms).2 = (q.storeMembers ms).2 := by
  induction ms generalizing p q with
  | nil => rfl
  | cons e ms ih =>
    obtain ⟨k, v⟩ := e
    simp only [storeMembers]
    rw [ih _ (q.storeMember k v).1]
    congr 1
    simp only [storeMember]
    cases isMetaKey k with
    | true => cases v <;> rfl
    | false =>
      cases isDataKey k with
      | true => cases v <;> rfl
      | false => rfl

/-- A type error depends on the document, not on the packet. -/
theorem typeError_jsonUnmarshal (p q : JSONPkt) (doc : Json) :
    (p.jsonUnmarshal doc).2 = (q.jsonUnmarshal doc).2 := by
  cases doc with
  | obj ms => exact typeError_storeMembers p q ms
  | _ => rfl

/-- The document is reported as having a member of the wrong type. -/
def typeError (doc : Json) : Bool := (JSONPkt.new.jsonUnmarshal doc).2

/-- A decode that returns no error, and what the packet holds then. -/
theorem unmarshal_ok_iff {p q : JSONPkt} {bin : Bytes} :
    p.unmarshal bin = (q, none) ↔
      ∃ doc dec, Json.parse bin = some doc ∧ typeError doc = false ∧
        Base64.decode ((docData doc).getD p.wireData) = some dec ∧
        q = { (p.jsonUnmarshal doc).1.setMeta with buff := dec } := by
  unfold unmarshal
  cases hb : Json.parse bin with
  | none => simp
  | some doc =>
    have herr : (p.jsonUnmarshal doc).2 = typeError doc := typeError_jsonUnmarshal p _ doc
    have hdata := wireData_jsonUnmarshal p doc
    rcases hr : p.jsonUnmarshal doc with ⟨r, e⟩
    rw [hr] at herr hdata
    simp only at herr hdata
    simp only [Option.some.injEq, exists_and_left, existsAndEq, true_and, ← herr, ← hdata, hr]
    cases e with
    | true => simp
    | false =>
      simp only [true_and]
      cases Base64.decode r.wireData with
      | none => simp
      | some dec => simp [eq_comm]

/-- Any decode: either the text is no JSON, or the document is stored and, unless
it has a member of the wrong type, `Meta()` is rebound. -/
theorem unmarshal_cases (p : JSONPkt) (bin : Bytes) :
    (Json.parse bin = none ∧ (p.unmarshal bin).1 = p) ∨
    ∃ doc, Json.parse bin = some doc ∧
      (typeError doc = true ∧ (p.unmarshal bin).1 = (p.jsonUnmarshal doc).1 ∨
        typeError doc = false ∧
          ∃ buff, (p.unmarshal bin).1 = { (p.jsonUnmarshal doc).1.setMeta with buff := buff }) := by
  unfold unmarshal
  cases hb : Json.parse bin with
  | none => exact .inl ⟨rfl, rfl⟩
  | some doc =>
    have herr : (p.jsonUnmarshal doc).2 = typeError doc := typeError_jsonUnmarshal p _ doc
    refine .inr ⟨doc, rfl, ?_⟩
    rcases hr : p.jsonUnmarshal doc with ⟨r, e⟩
    rw [hr] at herr
    simp only [hr]
    cases e with
    | true => exact .inl ⟨herr.symm, rfl⟩
    | false =>
      refine .inr ⟨herr.symm, ?_⟩
      simp only
      cases Base64.decode r.wireData with
      | none => exact ⟨r.buff, rfl⟩
      | some dec => exact ⟨dec, rfl⟩

theorem unmarshal_ok_data {p q : JSONPkt} {bin : Bytes} {doc : Json}
    (h : p.unmarshal bin = (q, none)) (hb : Json.parse bin = some doc) :
    Base64.decode ((docData doc).getD p.wireData) = some q.data := by
  obtain ⟨doc', dec, hb', _, hdec, rfl⟩ := unmarshal_ok_iff.mp h
  rw [hb] at hb'
  cases hb'
  exact hdec

theorem unmarshal_ok_kvMap {p q : JSONPkt} {bin : Bytes} {doc : Json}
    (h : p.unmarshal bin = (q, none)) (hb : Json.parse bin = some doc) :
    q.kvMap = (metaPatch doc).apply p.wireMap := by
  obtain ⟨doc', dec, hb', _, _, rfl⟩ := unmarshal_ok_iff.mp h
  rw [hb] at hb'
  cases hb'
  exact wireMap_jsonUnmarshal p doc

end JSONPkt

end Concord
