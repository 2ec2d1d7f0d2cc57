import Concord.Go.JsonCodec
import Concord.Go.Base64
import Concord.Go.Map

/-!
# Packets

`JSONPkt` of `packet/json_packet.go` with its `KVMeta` metadata accessor of
`packet/metadata.go`.

A packet holds its metadata twice: `jsonPkt.Meta`, which `Marshal` encodes, and
`KVMeta.meta`, which `Meta()` reads and writes. Both are references to map
objects, so what one of them does is seen through the other exactly as long as
they name the same object. No map reference leaves its packet, so the map
objects of a packet are kept in the packet.

`json.Unmarshal` into the wire struct is `JSONPkt.jsonUnmarshal`: a member
`m` or `d` (in either case) is stored as it is met, `null` makes the map
reference nil and leaves the string alone, an object is merged into the map
that is there, and a member of the wrong type is reported at the end but does
not stop the others from being stored.
-/

namespace Concord

open Go

abbrev GoString := Bytes

/-- The contents of a `map[string]string`. -/
abbrev Meta := GoMap GoString GoString

/-! ## Metadata keys -/

def keySvrStatus : GoString := ascii "_stat"
def keySvrMsg : GoString := ascii "_msg"
def keyRef : GoString := ascii "_ref"
def keyTarget : GoString := ascii "_tgt"

/-- Every key of a map deleted in turn, as `KVMeta.Clear` does. -/
def deleteKeys (m : Meta) : Meta := m.entries.foldl (fun m e => m.delete e.1) m

/-- A packet object. A map reference is an index into `maps`, or `none` for a
nil map. -/
structure JSONPkt where
  maps : List Meta
  /-- `jsonPkt.Meta` -/
  wireMeta : Option Nat
  /-- `jsonPkt.Data` -/
  wireData : GoString
  buff : Bytes
  /-- `meta.meta`, the map behind `Meta()` -/
  kvMeta : Option Nat
  dest : GoString
  wireMeta_lt : ∀ r, wireMeta = some r → r < maps.length
  kvMeta_lt : ∀ r, kvMeta = some r → r < maps.length

namespace JSONPkt

/-- The packet the pool's `New` function makes. The map of `NewKVMeta` is
dropped at once for the wire struct's own map. -/
def new : JSONPkt where
  maps := [GoMap.empty, GoMap.empty]
  wireMeta := some 0
  wireData := []
  buff := []
  kvMeta := some 0
  dest := []
  wireMeta_lt := by simp
  kvMeta_lt := by simp

/-- The map `jsonPkt.Meta` refers to. -/
def wireMap (p : JSONPkt) : Option Meta := p.wireMeta.bind fun r => p.maps[r]?

/-- The map `Meta()` refers to. -/
def kvMap (p : JSONPkt) : Option Meta := p.kvMeta.bind fun r => p.maps[r]?

/-- `m[key]` in Go: a nil map and an absent key give the zero string. -/
def index (m : Option Meta) (key : GoString) : GoString := (m.bind fun m => m.get? key).getD []

/-! ## Accessors and writers -/

/-- One of the packet's map objects is changed in place. -/
def modifyMap (p : JSONPkt) (r : Nat) (f : Meta → Meta) : JSONPkt :=
  { p with
    maps := p.maps.modify r f
    wireMeta_lt := by simpa using p.wireMeta_lt
    kvMeta_lt := by simpa using p.kvMeta_lt }

/-- `Meta().Get`. -/
def metaGet (p : JSONPkt) (key : GoString) : GoString := index p.kvMap key

/-- `Meta().Add`. Assigning to an entry of a nil map panics. -/
def metaAdd (p : JSONPkt) (key val : GoString) : Option JSONPkt :=
  p.kvMeta.map fun r => p.modifyMap r fun m => m.set key val

/-- `Meta().Clear`. -/
def metaClear (p : JSONPkt) : JSONPkt :=
  match p.kvMeta with
  | none => p
  | some r => p.modifyMap r deleteKeys

/-- `Data`. -/
def data (p : JSONPkt) : Bytes := p.buff

/-- `Write`. -/
def write (p : JSONPkt) (d : Bytes) : JSONPkt := { p with buff := p.buff ++ d }

/-- `Clear`, the writer's; it empties the data buffer. -/
def clear (p : JSONPkt) : JSONPkt := { p with buff := [] }

/-- `Close` commits the buffer to the wire struct. -/
def close (p : JSONPkt) : JSONPkt := { p with wireData := Base64.encode p.buff }

def setDest (p : JSONPkt) (dest : GoString) : JSONPkt := { p with dest := dest }

/-! ## The codec -/

/-- A `map[string]string` as a JSON value. -/
def metaDoc : Option Meta → Json
  | none => .null
  | some m => .obj (m.entries.map fun e => (e.1, .str e.2))

/-- The wire struct as a JSON value. -/
def wireDoc (p : JSONPkt) : Json :=
  .obj [(ascii "m", metaDoc p.wireMap), (ascii "d", .str p.wireData)]

/-- `Marshal`. Encoding a struct of a string map and a string cannot fail. -/
def marshal (p : JSONPkt) : Bytes := p.wireDoc.render

/-- A map element decoded from a JSON value: the string and whether the value
had the wrong type. The element starts as the zero string and is stored even
then. -/
def elemString : Json → GoString × Bool
  | .str s => (s, false)
  | .null => ([], false)
  | _ => ([], true)

/-- The members of an object stored into a map, one after the other. -/
def storeEntries (m : Meta) (ms : List (GoString × Json)) : Meta :=
  ms.foldl (fun m e => m.set e.1 (elemString e.2).1) m

/-- The map behind `jsonPkt.Meta`, made first when it is nil. -/
def ensureWireMap (p : JSONPkt) : JSONPkt × Nat :=
  match p.wireMeta with
  | some r => (p, r)
  | none =>
    ({ p with
        maps := p.maps ++ [GoMap.empty]
        wireMeta := some p.maps.length
        wireMeta_lt := by simp
        kvMeta_lt := fun r h => by
          rw [List.length_append]
          exact Nat.lt_add_right _ (p.kvMeta_lt r h) }, p.maps.length)

/-- A value stored into `jsonPkt.Meta`, and whether it had the wrong type. -/
def storeMeta (p : JSONPkt) : Json → JSONPkt × Bool
  | .null => ({ p with wireMeta := none, wireMeta_lt := by simp }, false)
  | .obj ms =>
    let (q, r) := p.ensureWireMap
    (q.modifyMap r fun m => storeEntries m ms, ms.any fun e => (elemString e.2).2)
  | _ => (p, true)

/-- A value stored into `jsonPkt.Data`, and whether it had the wrong type. -/
def storeData (p : JSONPkt) : Json → JSONPkt × Bool
  | .str s => ({ p with wireData := s }, false)
  | .null => (p, false)
  | _ => (p, true)

def isMetaKey (k : GoString) : Bool := k = ascii "m" || k = ascii "M"
def isDataKey (k : GoString) : Bool := k = ascii "d" || k = ascii "D"

/-- One member of the document. Names are matched without regard to case, and
unknown members are skipped. -/
def storeMember (p : JSONPkt) (k : GoString) (v : Json) : JSONPkt × Bool :=
  if isMetaKey k then p.storeMeta v
  else if isDataKey k then p.storeData v
  else (p, false)

def storeMembers (p : JSONPkt) : List (GoString × Json) → JSONPkt × Bool
  | [] => (p, false)
  | (k, v) :: ms =>
    let (q, e) := p.storeMember k v
    let (q', e') := q.storeMembers ms
    (q', e || e')

/-- `json.Unmarshal` of a syntactically correct document into the wire struct,
and whether it reports a type error. -/
def jsonUnmarshal (p : JSONPkt) : Json → JSONPkt × Bool
  | .obj ms => p.storeMembers ms
  | .null => (p, false)
  | _ => (p, true)

inductive UnmarshalErr where
  | badJson
  | badType
  | badBase64
  deriving DecidableEq

/-- `Meta()` refers to the map of the wire struct from here on (`setMeta`). -/
def setMeta (p : JSONPkt) : JSONPkt :=
  { p with kvMeta := p.wireMeta, kvMeta_lt := p.wireMeta_lt }

/-- `Unmarshal`: the packet afterwards, and the error it returned. A failed
decode keeps what it has stored. -/
def unmarshal (p : JSONPkt) (bin : Bytes) : JSONPkt × Option UnmarshalErr :=
  match Json.parse bin with
  | none => (p, some .badJson)
  | some doc =>
    match p.jsonUnmarshal doc with
    | (q, true) => (q, some .badType)
    | (q, false) =>
      match Base64.decode q.wireData with
      | none => (q.setMeta, some .badBase64)
      | some dec => ({ q.setMeta with buff := dec }, none)

end JSONPkt

/-! ## `JSONPktCreator` on the packet the pool hands out -/

/-- `NewPkt` after `pool.Get` has returned `p`; `none` is a panic. -/
def JSONPkt.newPkt (p : JSONPkt) (ref dest : GoString) : Option JSONPkt :=
  ((p.metaClear.clear).setDest dest).metaAdd keyRef ref

/-- `NewErrPkt` after `pool.Get` has returned `p`. -/
def JSONPkt.newErrPkt (p : JSONPkt) (ref dest msg : GoString) : Option JSONPkt := do
  let p ← p.newPkt ref dest
  let p ← p.metaAdd keySvrStatus (ascii "-1")
  p.metaAdd keySvrMsg msg

end Concord
