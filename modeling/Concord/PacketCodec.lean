import Concord.PacketDecode

/-!
# What an encoded packet says

`encodedMeta` and `encodedData` read the metadata and the data text back from
the bytes `Marshal` produced. `encodedMeta_marshal` and `encodedData_marshal`
give them in terms of the wire struct: nothing of the packet behind `Meta()` or
in the data buffer appears in the bytes.

A string that is not valid UTF-8 is coerced on the way, so the last section
follows the validity of a packet's strings through the calls on it.
-/

namespace Concord

open Go

/-- The metadata object of an encoded packet, as a map. -/
def encodedMeta (bin : Bytes) : Option Meta :=
  match Json.parse bin with
  | some (.obj ms) =>
    match ms.lookup (ascii "m") with
    | some (.obj es) => some (JSONPkt.storeEntries GoMap.empty es)
    | _ => none
  | _ => none

/-- The data text of an encoded packet. -/
def encodedData (bin : Bytes) : Option GoString :=
  match Json.parse bin with
  | some (.obj ms) =>
    match ms.lookup (ascii "d") with
    | some (.str d) => some d
    | _ => none
  | _ => none

/-- A map with every string coerced to valid UTF-8. -/
def coerceMeta (m : Meta) : Meta :=
  m.entries.foldl (fun n e => n.set (Utf8.toValid e.1) (Utf8.toValid e.2)) GoMap.empty

namespace JSONPkt

/-! ## 1. Reading `Marshal` back -/

theorem fits_metaDoc (c : Option Meta) : Json.Fits (Json.maxNestingDepth - 1) (metaDoc c) := by
  cases c with
  | none => trivial
  | some m =>
    refine ⟨by decide, ?_⟩
    induction m.entries with
    | nil => trivial
    | cons e es ih => exact ⟨trivial, ih⟩

theorem parse_marshal (p : JSONPkt) :
    Json.parse p.marshal = some (.obj [(ascii "m", Json.toValid (metaDoc p.wireMap)),
      (ascii "d", .str (Utf8.toValid p.wireData))]) :=
  Json.parse_render ⟨by decide, fits_metaDoc p.wireMap, trivial, trivial⟩

theorem storeEntries_toValid (es : List (GoString × GoString)) (m : Meta) :
    storeEntries m (Json.toValidMembers (es.map fun e => (e.1, .str e.2))) =
      es.foldl (fun n e => n.set (Utf8.toValid e.1) (Utf8.toValid e.2)) m := by
  induction es generalizing m with
  | nil => rfl
  | cons e es ih => exact ih _

theorem encodedMeta_marshal (p : JSONPkt) : encodedMeta p.marshal = p.wireMap.map coerceMeta := by
  have hm : (ascii "m" == ascii "m") = true := by decide
  rw [encodedMeta, parse_marshal]
  simp only [List.lookup_cons, hm]
  cases p.wireMap with
  | none => rfl
  | some m => exact congrArg some (storeEntries_toValid m.entries GoMap.empty)

theorem encodedData_marshal (p : JSONPkt) :
    encodedData p.marshal = some (Utf8.toValid p.wireData) := by
  have hm : (ascii "d" == ascii "m") = false := by decide
  have hd : (ascii "d" == ascii "d") = true := by decide
  rw [encodedData, parse_marshal]
  simp only [List.lookup_cons, hm, hd]

/-! ## 2. Valid strings -/

/-- Every key and value of the map is valid UTF-8. -/
def MetaValid (m : Meta) : Prop := ∀ k v, m.get? k = some v → Utf8.Valid k ∧ Utf8.Valid v

theorem metaValid_empty : MetaValid GoMap.empty := by
  intro k v h
  simp at h

theorem metaValid_set {m : Meta} {k v : GoString} (hm : MetaValid m) (hk : Utf8.Valid k)
    (hv : Utf8.Valid v) : MetaValid (m.set k v) := by
  intro k' v' h
  rw [GoMap.get?_set] at h
  split at h
  · next he =>
    cases h
    exact ⟨he ▸ hk, hv⟩
  · exact hm k' v' h

/-- What JSON writes is valid. -/
theorem metaValid_coerceMeta (m : Meta) : MetaValid (coerceMeta m) := by
  have hfold : ∀ (es : List (GoString × GoString)) (n : Meta), MetaValid n →
      MetaValid (es.foldl (fun n e => n.set (Utf8.toValid e.1) (Utf8.toValid e.2)) n) := by
    intro es
    induction es with
    | nil => exact fun n hn => hn
    | cons e es ih =>
      exact fun n hn => ih _ (metaValid_set hn (Utf8.toValid_idem _) (Utf8.toValid_idem _))
  exact hfold m.entries GoMap.empty metaValid_empty

theorem coerceMeta_of_valid {m : Meta} (hm : MetaValid m) : coerceMeta m = m := by
  have hcopy : coerceMeta m = overlay GoMap.empty m := by
    refine List.foldl_ext _ _ _ fun n e he => ?_
    obtain ⟨hk, hv⟩ := hm e.1 e.2 (GoMap.mem_entries_iff.mp he)
    rw [hk, hv]
  rw [hcopy]
  refine GoMap.ext_get? fun k => ?_
  rw [get?_overlay, GoMap.get?_empty, Option.or_none]

theorem valid_members {ms : List (GoString × Json)} (h : Json.toValidMembers ms = ms) :
    ∀ e ∈ ms, Utf8.Valid e.1 ∧ Json.toValid e.2 = e.2 := by
  intro e he
  rw [Json.toValidMembers_eq_map] at h
  have := List.map_eq_map_iff.mp (h.trans (List.map_id ms).symm) e he
  exact ⟨congrArg Prod.fst this, congrArg Prod.snd this⟩

theorem dataPatch_valid {ms : List (GoString × Json)} (h : ∀ e ∈ ms, Json.toValid e.2 = e.2)
    {s : GoString} (hs : dataPatch ms = some s) : Utf8.Valid s := by
  induction ms with
  | nil => cases hs
  | cons e ms ih =>
    obtain ⟨k, v⟩ := e
    unfold dataPatch at hs
    cases hd : dataPatch ms with
    | some t =>
      simp only [hd] at hs
      cases hs
      exact ih (fun e he => h e (List.mem_cons_of_mem _ he)) hd
    | none =>
      simp only [hd] at hs
      split at hs
      · cases hs
        exact Json.str.inj (h _ List.mem_cons_self)
      · cases hs

/-- The wire data of a decoded packet is valid: it is a scanned string or what
was there. -/
theorem wireData_valid_unmarshal {p : JSONPkt} (hp : Utf8.Valid p.wireData) (bin : Bytes) :
    Utf8.Valid (p.unmarshal bin).1.wireData := by
  have key : ∀ {doc}, Json.parse bin = some doc → Utf8.Valid (p.jsonUnmarshal doc).1.wireData := by
    intro doc hdoc
    rw [wireData_jsonUnmarshal]
    cases hd : docData doc with
    | none => exact hp
    | some s =>
      cases doc with
      | obj ms =>
        have hv := valid_members (Json.obj.inj (Json.parse_valid hdoc))
        exact dataPatch_valid (fun e he => (hv e he).2) hd
      | _ => cases hd
  rcases unmarshal_cases p bin with ⟨_, h⟩ | ⟨doc, hdoc, ⟨_, h⟩ | ⟨_, b, h⟩⟩
  · rw [h]
    exact hp
  · rw [h]
    exact key hdoc
  · rw [h]
    exact key hdoc

/-- Every map object of the packet holds valid strings. -/
def MapsValid (p : JSONPkt) : Prop := ∀ m ∈ p.maps, MetaValid m

theorem mapsValid_new : new.MapsValid := by
  intro m hm
  have : m = GoMap.empty := by simpa [new] using hm
  exact this ▸ metaValid_empty

theorem mapsValid_modifyMap {p : JSONPkt} (hp : p.MapsValid) (r : Nat) {f : Meta → Meta}
    (hf : ∀ m, MetaValid m → MetaValid (f m)) : (p.modifyMap r f).MapsValid := by
  intro m hm
  obtain ⟨j, hj⟩ := List.mem_iff_getElem?.mp hm
  rw [maps_modifyMap] at hj
  split at hj
  · obtain ⟨n, hn, rfl⟩ := Option.map_eq_some_iff.mp hj
    exact hf n (hp n (List.mem_of_getElem? hn))
  · exact hp m (List.mem_of_getElem? hj)

theorem metaValid_storeEntries {m : Meta} (hm : MetaValid m) {es : List (GoString × Json)}
    (hes : ∀ e ∈ es, Utf8.Valid e.1 ∧ Json.toValid e.2 = e.2) : MetaValid (storeEntries m es) := by
  induction es generalizing m with
  | nil => exact hm
  | cons e es ih =>
    obtain ⟨hk, hv⟩ := hes e List.mem_cons_self
    refine ih (metaValid_set hm hk ?_) fun e he => hes e (List.mem_cons_of_mem _ he)
    cases he : e.2 with
    | str s =>
      rw [he] at hv
      exact Json.str.inj hv
    | _ => exact Utf8.valid_nil

theorem mapsValid_storeMeta {p : JSONPkt} (hp : p.MapsValid) {v : Json}
    (hv : Json.toValid v = v) : (p.storeMeta v).1.MapsValid := by
  cases v with
  | obj es =>
    have hes := valid_members (Json.obj.inj hv)
    have hens : p.ensureWireMap.1.MapsValid := by
      unfold ensureWireMap
      split
      · exact hp
      · intro m hm
        rcases List.mem_append.mp hm with hm | hm
        · exact hp m hm
        · exact List.mem_singleton.mp hm ▸ metaValid_empty
    exact mapsValid_modifyMap hens _ fun m hm => metaValid_storeEntries hm hes
  | _ => exact hp

theorem mapsValid_storeMembers {p : JSONPkt} (hp : p.MapsValid) {ms : List (GoString × Json)}
    (hms : ∀ e ∈ ms, Json.toValid e.2 = e.2) : (p.storeMembers ms).1.MapsValid := by
  induction ms generalizing p with
  | nil => exact hp
  | cons e ms ih =>
    obtain ⟨k, v⟩ := e
    have hq : (p.storeMember k v).1.MapsValid := by
      unfold storeMember
      split
      · exact mapsValid_storeMeta hp (hms _ List.mem_cons_self)
      · split
        · cases v <;> exact hp
        · exact hp
    exact ih hq fun e he => hms e (List.mem_cons_of_mem _ he)

theorem mapsValid_unmarshal {p : JSONPkt} (hp : p.MapsValid) (bin : Bytes) :
    (p.unmarshal bin).1.MapsValid := by
  have key : ∀ {doc}, Json.parse bin = some doc → (p.jsonUnmarshal doc).1.MapsValid := by
    intro doc hdoc
    cases doc with
    | obj ms =>
      have hv := valid_members (Json.obj.inj (Json.parse_valid hdoc))
      exact mapsValid_storeMembers hp fun e he => (hv e he).2
    | _ => exact hp
  rcases unmarshal_cases p bin with ⟨_, h⟩ | ⟨doc, hdoc, ⟨_, h⟩ | ⟨_, b, h⟩⟩
  · rw [h]
    exact hp
  · rw [h]
    exact key hdoc
  · rw [h]
    exact key hdoc

end JSONPkt

end Concord
