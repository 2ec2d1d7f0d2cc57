import Concord.Pipeline
import Concord.Go.Big

/-!
# The Crypto extension

`core/crypto`: AES-GCM and ECDH are parameters (`AEAD`, `Curve`); everything
around them is translated. The key of a peer is the `big.Int` encoding of the
shared secret, so its length depends on the secret.
-/

namespace Concord

open Go

/-! ## Primitives -/

/-- AES in GCM mode as `crypto.go` uses it: `sealText` is the nonce followed by
the sealed text, `openText` takes such a buffer apart. Opening inverts sealing,
nothing else opens, and a sealing is longer than what it seals. -/
structure AEAD where
  sealText : (key nonce plain : Bytes) → Bytes
  openText : (key buff : Bytes) → Option Bytes
  open_seal : ∀ {k n m : Bytes}, n.length = Endpoint.nonceSize → openText k (sealText k n m) = some m
  sealed_of_open : ∀ {k c m : Bytes}, openText k c = some m →
    ∃ n, n.length = Endpoint.nonceSize ∧ c = sealText k n m
  length_seal : ∀ {k n m : Bytes}, m.length < (sealText k n m).length

namespace AEAD

/-- No ciphertext is JSON. -/
def NotJson (a : AEAD) : Prop :=
  ∀ ⦃k n m : Bytes⦄, n.length = Endpoint.nonceSize → Json.parse (a.sealText k n m) = none

/-- No ciphertext is made under two keys. A cipher that adds a nonce and a tag to the text cannot
have this of all keys; it stands for the keys that are used. -/
def OneKey (a : AEAD) : Prop :=
  ∀ ⦃k k' n n' m m' : Bytes⦄, n.length = Endpoint.nonceSize → n'.length = Endpoint.nonceSize →
    a.sealText k n m = a.sealText k' n' m' → k = k'

/-- What is asked of the cipher where the receiver of a datagram tries any key on it. -/
structure Ideal (a : AEAD) : Prop where
  not_json : a.NotJson
  one_key : a.OneKey

/-- A ciphertext of an ideal cipher is made of one text. -/
theorem Ideal.seal_inj {a : AEAD} (ha : a.Ideal) {k k' n n' m m' : Bytes}
    (hn : n.length = Endpoint.nonceSize) (hn' : n'.length = Endpoint.nonceSize)
    (h : a.sealText k n m = a.sealText k' n' m') : m = m' := by
  have hopen : a.openText k (a.sealText k n m) = some m' := by
    rw [h, ha.one_key hn hn' h]
    exact a.open_seal hn'
  exact Option.some.inj ((a.open_seal hn).symm.trans hopen)

end AEAD

/-- The curve: private keys, their public points, and the x coordinate of the
product of a private scalar and a point. Shared secrets commute. -/
structure Curve where
  Priv : Type
  pub : Priv → Nat × Nat
  mul : Priv → Int × Int → Nat
  mul_comm : ∀ a b : Priv, mul a (Int.ofNat (pub b).1, Int.ofNat (pub b).2) =
    mul b (Int.ofNat (pub a).1, Int.ofNat (pub a).2)

/-- A `Crypto`: its primitives and its private key. The key table is part of the
endpoint's state. -/
structure Crypto where
  aead : AEAD
  curve : Curve
  privKey : curve.Priv

/-! ## `aes_cipher.go` -/

def aesKeySize (n : Nat) : Bool := n = 16 || n = 24 || n = 32

/-- The error of `aes.NewCipher` for a key of the wrong length. -/
def keySizeError (n : Nat) : GoString := ascii "crypto/aes: invalid key size " ++ decimal n

/-- The text `rand.Reader` fails with is not specified. -/
def randError : GoString := ascii "unexpected EOF"

/-- `encryptAES`. -/
def encryptAES (a : AEAD) (key data : Bytes) : Routine (Except GoString Bytes) :=
  if aesKeySize key.length then do
    match ← Routine.perform .readNonce with
    | none => return .error (Fmt.errorf (ascii "nonce gen fail: " ++ randError))
    | some nonce => return .ok (a.sealText key nonce data)
  else
    return .error (Fmt.errorf (ascii "cipher init fail: " ++ keySizeError key.length))

/-- `decryptAES`; slicing off the nonce of a shorter buffer panics. -/
def decryptAES (a : AEAD) (key data : Bytes) : Routine (Except GoString Bytes) :=
  if aesKeySize key.length then
    if data.length < Endpoint.nonceSize then Routine.panic
    else
      match a.openText key data with
      | none => return .error (ascii "decrypt fail: cipher: message authentication failed")
      | some plain => return .ok plain
  else
    return .error (Fmt.errorf (ascii "cipher init fail: " ++ keySizeError key.length))

/-! ## Public keys on the wire -/

/-- `json.Marshal` of a public key with both coordinates. -/
def pubKeyText (x y : Nat) : Bytes :=
  (Json.obj [(ascii "x", .num (decimal x)), (ascii "y", .num (decimal y))]).render

/-- A `*big.Int` coordinate as a JSON value. -/
def coordDoc : Option Int → Json
  | none => .null
  | some n => .num (bigText n)

/-- `json.Marshal` of a stored public key. -/
def PublicKey.text (pk : PublicKey) : Bytes :=
  (Json.obj [(ascii "x", coordDoc pk.x), (ascii "y", coordDoc pk.y)]).render

/-- A JSON value decoded into a `*big.Int`: `none` is an error, and `null` makes
the pointer nil. -/
def coordOf : Json → Option (Option Int)
  | .null => some none
  | .num text => (parseBig text).map some
  | _ => none

def isXKey (k : GoString) : Bool := k = ascii "x" || k = ascii "X"
def isYKey (k : GoString) : Bool := k = ascii "y" || k = ascii "Y"

/-- The members of an object stored into a `PublicKey`; an error of a coordinate
ends the decode. -/
def pubKeyOfMembers (pk : PublicKey) : List (GoString × Json) → Option PublicKey
  | [] => some pk
  | (k, v) :: ms =>
    if isXKey k then (coordOf v).bind fun c => pubKeyOfMembers { pk with x := c } ms
    else if isYKey k then (coordOf v).bind fun c => pubKeyOfMembers { pk with y := c } ms
    else pubKeyOfMembers pk ms

/-- `json.Unmarshal` into a new `PublicKey`. -/
def pubKeyOf (bin : Bytes) : Option PublicKey :=
  match Json.parse bin with
  | some (.obj ms) => pubKeyOfMembers ⟨none, none⟩ ms
  | some .null => some ⟨none, none⟩
  | _ => none

def isIPKey (k : GoString) : Bool :=
  k = ascii "ip" || k = ascii "IP" || k = ascii "Ip" || k = ascii "iP"

/-- `json.Unmarshal` into a new struct with one string field `ip`, and whether it
reports a type error; the loop goes on after one. -/
def ipOfMembers (ip : GoString) : List (GoString × Json) → GoString × Bool
  | [] => (ip, false)
  | (k, v) :: ms =>
    if isIPKey k then
      match v with
      | .str s => ipOfMembers s ms
      | .null => ipOfMembers ip ms
      | _ => ((ipOfMembers ip ms).1, true)
    else ipOfMembers ip ms

def ipOf (bin : Bytes) : Option GoString :=
  match Json.parse bin with
  | some (.obj ms) =>
    match ipOfMembers [] ms with
    | (ip, false) => some ip
    | (_, true) => none
  | some .null => some []
  | _ => none

namespace Crypto

/-! ## `crypto.go` -/

def keyNoCrypto : GoString := ascii "_no_crypto"
def targetKeyExchangeServer : GoString := ascii "crypto.kex-cs"
def targetKeyExchangeClient : GoString := ascii "crypto.kex-cc"

/-- The values of `KeyNoCrypto` that make the extension skip a packet. -/
def isSkip (v : GoString) : Bool :=
  v = ascii "true" || v = ascii "t" || v = ascii "yes" || v = ascii "y" || v = ascii "1"

/-- `publicKey`: the JSON text of the own public key. -/
def publicKey (cr : Crypto) : Bytes :=
  pubKeyText (cr.curve.pub cr.privKey).1 (cr.curve.pub cr.privKey).2

/-- `computeSharedKey`; a missing coordinate is a nil dereference. -/
def computeSharedKey (cr : Crypto) (pk : PublicKey) : Routine Nat :=
  match pk.x, pk.y with
  | some x, some y => pure (cr.curve.mul cr.privKey (x, y))
  | _, _ => Routine.panic

/-- `encryptTransport`. -/
def encryptTransport (cr : Crypto) : BufferTransform := fun ctx buff =>
  match ctx.pkt with
  | none => Routine.panic
  | some p => do
    let v ← Routine.metaGet p keyNoCrypto
    if isSkip v then return (ctx, buff)
    let dest ← Routine.dest p
    match ← Routine.perform (.getKeyStore dest) with
    | none => return (ctx, buff)
    | some k =>
      if ← Routine.perform (.getKeySent k.id) then
        match ← encryptAES cr.aead (bigBytes k.shared) buff with
        | .error err =>
          return ({ ctx with stat := codeStopError, msg := ascii "encryption error: " ++ err }, buff)
        | .ok ciphertext => return (ctx, ciphertext)
      else
        -- the packet is taken to be the one that carries the server's public key
        Routine.perform (.setKeySent k.id true)
        return (ctx, buff)

/-- `decryptTransport`. -/
def decryptTransport (cr : Crypto) : BufferTransform := fun ctx buff => do
  match ← Routine.perform (.getKeyStore ctx.sender) with
  | none => return (ctx, buff)
  | some k =>
    match ← decryptAES cr.aead (bigBytes k.shared) buff with
    | .error _ => return (ctx, buff)
    | .ok decrypted => return (ctx, decrypted)

/-! ## `server.go` -/

/-- `keyExchangeServer`. -/
def keyExchangeServer (cr : Crypto) : TargetCallback := fun ctx pw => do
  let body ← Routine.data ctx.pkt
  match pubKeyOf body with
  | none => return { ctx with stat := codeStopError, msg := ascii "malformed packet" }
  | some pk =>
    let shared ← cr.computeSharedKey pk
    Routine.perform (.setKeyStore ctx.sender ⟨false, shared, pk⟩)
    Routine.call pw (.metaAdd keyNoCrypto (ascii "true"))
    Routine.call pw (.write cr.publicKey)
    return { ctx with stat := codeStopCloseSend }

/-- `keyExchangeClient`. -/
def keyExchangeClient : TargetCallback := fun ctx pw => do
  let body ← Routine.data ctx.pkt
  match ipOf body with
  | none => return { ctx with stat := codeStopError, msg := ascii "malformed packet" }
  | some ip =>
    match ← Routine.perform (.getKeyStore ip) with
    | none => return { ctx with stat := codeStopError, msg := ascii "client non-existent" }
    | some keys =>
      Routine.call pw (.metaAdd keyNoCrypto (ascii "true"))
      Routine.call pw (.write keys.pub.text)
      return ctx

end Crypto

/-! ## Operations of the transforms and the callbacks -/

/-- The operation is one that the transforms perform. -/
def Op.ofTransport : Op → Bool
  | .read _ (.metaGet _) | .read _ .dest | .getKeyStore _ | .getKeySent _ | .setKeySent _ _
  | .readNonce | .panic => true
  | _ => false

theorem encryptTransport_allOps (cr : Crypto) (ctx : TransformContext) (buff : Bytes) :
    (cr.encryptTransport ctx buff).AllOps fun e => e.ofTransport = true := by
  unfold Crypto.encryptTransport
  split
  · exact Prog.allOps_op rfl fun e => nomatch e
  · refine Prog.allOps_op rfl fun v => Prog.allOps_ite (fun _ => trivial) fun _ => ?_
    refine Prog.allOps_op rfl fun dest => Prog.allOps_op rfl fun r => ?_
    cases r with
    | none => trivial
    | some k =>
      refine Prog.allOps_op rfl fun sent => Prog.allOps_ite (fun _ => ?_) fun _ => ?_
      · refine Prog.allOps_bind ?_ fun r => ?_
        · unfold encryptAES
          refine Prog.allOps_ite (fun _ => Prog.allOps_op rfl fun r => ?_) fun _ => trivial
          cases r <;> trivial
        · cases r <;> trivial
      · exact Prog.allOps_op rfl fun _ => trivial

theorem decryptTransport_allOps (cr : Crypto) (ctx : TransformContext) (buff : Bytes) :
    (cr.decryptTransport ctx buff).AllOps fun e => e.ofTransport = true := by
  refine Prog.allOps_op rfl fun r => ?_
  cases r with
  | none => trivial
  | some k =>
    refine Prog.allOps_bind ?_ fun r => ?_
    · unfold decryptAES
      refine Prog.allOps_ite (fun _ => Prog.allOps_ite (fun _ => ?_) fun _ => ?_) fun _ => trivial
      · exact Prog.allOps_op rfl fun e => nomatch e
      · split <;> trivial
    · cases r <;> trivial

/-- The operation is one that the callbacks of the key exchanges perform. -/
def Op.ofExchange : Op → Bool
  | .read _ .data | .getKeyStore _ | .setKeyStore _ _ | .panic => true
  | .call _ (.metaAdd _ _) | .call _ (.write _) => true
  | _ => false

namespace Crypto

theorem computeSharedKey_allOps {P : Op → Prop} (hpanic : P .panic) (cr : Crypto) (pk : PublicKey) :
    (cr.computeSharedKey pk).AllOps P := by
  unfold computeSharedKey
  split
  · trivial
  · exact Prog.allOps_op hpanic fun e => nomatch e

theorem keyExchangeServer_allOps (cr : Crypto) (ctx : TargetCtx) (pw : Nat) :
    (cr.keyExchangeServer ctx pw).AllOps fun e => e.ofExchange = true := by
  unfold keyExchangeServer
  refine Prog.allOps_op rfl fun body => ?_
  split
  · trivial
  · have hpanic : Op.ofExchange .panic = true := rfl
    exact Prog.allOps_bind (computeSharedKey_allOps hpanic cr _) fun shared =>
      Prog.allOps_op rfl fun _ => Prog.allOps_op rfl fun _ => Prog.allOps_op rfl fun _ => trivial

theorem keyExchangeClient_allOps (ctx : TargetCtx) (pw : Nat) :
    (keyExchangeClient ctx pw).AllOps fun e => e.ofExchange = true := by
  unfold keyExchangeClient
  refine Prog.allOps_op rfl fun body => ?_
  split
  · trivial
  · refine Prog.allOps_op rfl fun keys => ?_
    cases keys with
    | none => trivial
    | some keys => exact Prog.allOps_op rfl fun _ => Prog.allOps_op rfl fun _ => trivial

end Crypto

/-! ## The laws can be met -/

/-- What the transparent cipher puts between the nonce and the text: the key, with its
length in unary. -/
def keyMark (key : Bytes) : Bytes := 0 :: (List.replicate key.length 1 ++ 0 :: key)

theorem replicate_cons_inj {n n' : Nat} {x y : Bytes}
    (h : List.replicate n (1 : UInt8) ++ 0 :: x = List.replicate n' 1 ++ 0 :: y) : n = n' := by
  induction n generalizing n' with
  | zero =>
    cases n' with
    | zero => rfl
    | succ n' => cases h
  | succ n ih =>
    cases n' with
    | zero => cases h
    | succ n' =>
      rw [List.replicate_succ, List.replicate_succ, List.cons_append, List.cons_append] at h
      rw [ih (List.cons.inj h).2]

theorem keyMark_append_inj {k k' m m' : Bytes} (h : keyMark k ++ m = keyMark k' ++ m') :
    k = k' ∧ m = m' := by
  have hlen : k.length = k'.length := by
    refine replicate_cons_inj (x := k ++ m) (y := k' ++ m') ?_
    simpa [keyMark] using h
  have hmark : keyMark k = keyMark k' :=
    (List.append_inj h (by simp [keyMark, hlen])).1
  refine ⟨?_, (List.append_inj h (by simp [keyMark, hlen])).2⟩
  have := (List.append_inj (List.cons.inj hmark).2 (by simp [hlen])).2
  exact (List.cons.inj this).2

/-- A cipher that hides nothing and satisfies every law. -/
def AEAD.transparent : AEAD where
  sealText key nonce plain := nonce ++ (keyMark key ++ plain)
  openText key buff :=
    if Endpoint.nonceSize ≤ buff.length ∧
        (buff.drop Endpoint.nonceSize).take (keyMark key).length = keyMark key then
      some (buff.drop (Endpoint.nonceSize + (keyMark key).length))
    else none
  open_seal := by
    intro k n m hn
    have hdrop : (n ++ (keyMark k ++ m)).drop Endpoint.nonceSize = keyMark k ++ m :=
      List.drop_left' hn
    rw [if_pos ⟨by simp [hn], by rw [hdrop, List.take_left']; rfl⟩, ← List.drop_drop, hdrop,
      List.drop_left' rfl]
  sealed_of_open := by
    intro k c m h
    split at h
    · next hc =>
      cases h
      refine ⟨c.take Endpoint.nonceSize, by simp [hc.1], ?_⟩
      rw [← List.drop_drop]
      conv_lhs => rw [← List.take_append_drop Endpoint.nonceSize c,
        ← List.take_append_drop (keyMark k).length (c.drop Endpoint.nonceSize), hc.2]
    · cases h
  length_seal := by
    intro k n m
    simp [keyMark]
    omega

/-- Its ciphertext has a NUL byte in it, and shows the key. -/
theorem AEAD.transparent_ideal : AEAD.transparent.Ideal where
  not_json _ _ _ _ := Json.parse_nul _ _
  one_key _ _ _ _ _ _ hn hn' h := (keyMark_append_inj (List.append_inj h (hn.trans hn'.symm)).2).1

/-- A group in which every shared secret is a valid 16 byte key. -/
def Curve.multiplicative : Curve where
  Priv := Nat
  pub n := (n, n)
  mul a pt := 2 ^ 127 + a * pt.1.toNat % 2 ^ 127
  mul_comm a b := by simp [Nat.mul_comm]

def Crypto.transparent (privKey : Nat) : Crypto := ⟨.transparent, .multiplicative, privKey⟩

end Concord
