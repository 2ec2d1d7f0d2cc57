import Concord.Alone

/-!
# Encryption from end to end

`EncryptFor`, `DecryptFrom`, `EncryptE2E` and `DecryptE2E` of `core/crypto/client.go`, and
what they and the transforms of the transport do in a goroutine that is left alone.

`decryptTransport_completes`: the receiver, who cannot tell a sealed buffer from a plain one,
gets the sender's bytes in both cases (`Carried`). `decryptE2E_completes`: a packet that was
sealed with `EncryptE2E` under the same key has its data back.
-/

namespace Concord

open Go

/-! ## 1. `client.go` -/

namespace Crypto

/-- `EncryptFor`. -/
def encryptFor (cr : Crypto) (addr : GoString) (data : Bytes) : Routine (Except GoString Bytes) := do
  match ← Routine.perform (.getKeyStore addr) with
  | none => return .error (Fmt.errorf (ascii "keys not exchanged"))
  | some ks =>
    match ← encryptAES cr.aead (bigBytes ks.shared) data with
    | .error err => return .error (Fmt.errorf (ascii "encryption error: " ++ err))
    | .ok encrypted => return .ok encrypted

/-- `DecryptFrom`. -/
def decryptFrom (cr : Crypto) (addr : GoString) (data : Bytes) : Routine (Except GoString Bytes) := do
  match ← Routine.perform (.getKeyStore addr) with
  | none => return .error (Fmt.errorf (ascii "keys not exchanged"))
  | some ks =>
    match ← decryptAES cr.aead (bigBytes ks.shared) data with
    | .error err => return .error (Fmt.errorf (ascii "encryption error: " ++ err))
    | .ok decrypted => return .ok decrypted

/-- The packet's data is replaced. -/
def rewrite (pkt : Nat) (data : Bytes) : Routine Unit := do
  Routine.call pkt .clear
  Routine.call pkt (.write data)
  Routine.call pkt .close

/-- `EncryptE2E`: the error it returns, if any. -/
def encryptE2E (cr : Crypto) (addr : GoString) (pkt : Nat) : Routine (Option GoString) := do
  let data ← Routine.data pkt
  match ← cr.encryptFor addr data with
  | .error err => return some (ascii "e2e encrypt error: " ++ err)
  | .ok encrypted =>
    rewrite pkt encrypted
    return none

/-- `DecryptE2E`: the error it returns, if any. -/
def decryptE2E (cr : Crypto) (sender : GoString) (pkt : Nat) : Routine (Option GoString) := do
  let data ← Routine.data pkt
  match ← cr.decryptFrom sender data with
  | .error err => return some (ascii "e2e decrypt error: " ++ err)
  | .ok decrypted =>
    rewrite pkt decrypted
    return none

end Crypto

/-! ## 2. Handlers -/

/-- Beyond `Attends`: `rand.Reader` does not fail, and the client's write routine is there to
take a buffer. -/
structure Steady (H : Endpoint → Choice → (e : Op) → Outcome (e.Res × Endpoint)) : Prop
    extends Attends H where
  nonce : ∀ {s c r s'}, H s c .readNonce = .ok (r, s') →
    s' = s ∧ ∃ n, r = some n ∧ n.length = Endpoint.nonceSize
  nonce_can : ∀ s, ∃ c r s', H s c .readNonce = .ok (r, s')
  write : ∀ s c data respCh,
    H s c (.writeStream data respCh) = .ok ((), { s with writing := some (data, respCh) })

/-- `attended`, with a source of randomness that does not fail and a write routine that
takes what it is given. -/
def Endpoint.steady (s : Endpoint) (c : Choice) : (e : Op) → Outcome (e.Res × Endpoint)
  | .readNonce =>
    match c.bytes with
    | some n => if n.length = nonceSize then .ok (some n, s) else .block
    | none => .block
  | .writeStream data respCh => .ok ((), { s with writing := some (data, respCh) })
  | e => s.attended c e

theorem Endpoint.steady_steady : Steady Endpoint.steady where
  plain s c e he := by
    cases e with
    | poolGet => cases he
    | sendStream p => cases he
    | readNonce => cases he
    | writeStream data respCh => cases he
    | _ => rfl
  get h := attended_attends.get h
  get_new := attended_attends.get_new
  send _ _ _ := rfl
  nonce {s c r s'} h := by
    cases hc : c.bytes with
    | none =>
      simp only [steady, hc] at h
      cases h
    | some n =>
      simp only [steady, hc] at h
      split at h
      · next hn =>
        cases h
        exact ⟨rfl, n, rfl, hn⟩
      · cases h
  nonce_can s := ⟨⟨0, some (List.replicate 12 0)⟩, some (List.replicate 12 0), s, rfl⟩
  write _ _ _ _ := rfl

/-- The observer does not see the key table and the source of randomness either. -/
structure Hidden {ω : Type} (obs : ((e : Op) × e.Res) → Option ω) : Prop extends Unseen obs where
  keyStore : ∀ a r, obs ⟨.getKeyStore a, r⟩ = none
  keySent : ∀ i r, obs ⟨.getKeySent i, r⟩ = none
  setSent : ∀ i b r, obs ⟨.setKeySent i b, r⟩ = none
  nonce : ∀ r, obs ⟨.readNonce, r⟩ = none

/-! ## 3. Ciphers -/

/-- Beyond the laws of `AEAD`: no ciphertext is JSON, and it has room for the nonce it begins
with. -/
structure AEAD.Proper (a : AEAD) : Prop where
  not_json : a.NotJson
  nonce_le : ∀ {k n m}, n.length = Endpoint.nonceSize →
    Endpoint.nonceSize ≤ (a.sealText k n m).length

/-- The buffer is the text itself, or the text sealed. -/
def Carried (a : AEAD) (key text buff : Bytes) : Prop :=
  buff = text ∨ ∃ n, n.length = Endpoint.nonceSize ∧ buff = a.sealText key n text

section Rules

variable {H : Endpoint → Choice → (e : Op) → Outcome (e.Res × Endpoint)} {α ω : Type}
  {obs : ((e : Op) × e.Res) → Option ω} {s : Endpoint} {Q : List ω → α → Endpoint → Prop} {p : Nat}

theorem completes_getKeyStore (hH : Attends H) (hobs : Hidden obs) {a : GoString}
    {f : Option KeyRef → Routine α} (hf : Completes H obs (f (s.keys.getKeyStore a)) s Q) :
    Completes H obs (Routine.perform (.getKeyStore a) >>= f) s Q := by
  refine completes_plain hH rfl (fun _ => rfl) ?_
  rw [hobs.keyStore]
  exact hf

theorem encryptAES_completes (hH : Steady H) (hobs : Hidden obs) {a : AEAD} {key data : Bytes}
    (hkey : aesKeySize key.length = true) :
    Completes H obs (encryptAES a key data) s fun o r s' => o = [] ∧ s' = s ∧
      ∃ n, n.length = Endpoint.nonceSize ∧ r = .ok (a.sealText key n data) := by
  unfold encryptAES
  rw [if_pos hkey]
  refine completes_op (hH.nonce_can s) fun ch r s₁ hh => ?_
  obtain ⟨rfl, n, rfl, hn⟩ := hH.nonce hh
  refine completes_pure ⟨?_, rfl, n, hn, rfl⟩
  rw [hobs.nonce]
  rfl

theorem decryptAES_completes {a : AEAD} {key data : Bytes} (hkey : aesKeySize key.length = true)
    (hlen : Endpoint.nonceSize ≤ data.length) :
    Completes H obs (decryptAES a key data) s fun o r s' => o = [] ∧ s' = s ∧
      r.toOption = a.openText key data := by
  unfold decryptAES
  rw [if_pos hkey, if_neg (Nat.not_lt.mpr hlen)]
  cases a.openText key data with
  | none => exact completes_pure ⟨rfl, rfl, rfl⟩
  | some plain => exact completes_pure ⟨rfl, rfl, rfl⟩

theorem completes_getKeySent (hH : Attends H) (hobs : Hidden obs) {i : Nat} {f : Bool → Routine α}
    (hf : Completes H obs (f (s.keys.getKeySent i)) s Q) :
    Completes H obs (Routine.perform (.getKeySent i) >>= f) s Q := by
  refine completes_plain hH rfl (fun _ => rfl) ?_
  rw [hobs.keySent]
  exact hf

theorem completes_setKeySent (hH : Attends H) (hobs : Hidden obs) {i : Nat} {b : Bool}
    {f : Unit → Routine α}
    (hf : Completes H obs (f ()) { s with keys := s.keys.setKeySent i b } Q) :
    Completes H obs (Routine.perform (.setKeySent i b) >>= f) s Q := by
  refine completes_plain hH rfl (fun _ => rfl) ?_
  rw [hobs.setSent]
  exact hf

/-! ## 4. The transport -/

/-- The states differ at most in what key stores have been sent. -/
def SameKeys (s s' : Endpoint) : Prop :=
  s' = { s with keys := s'.keys } ∧ ∀ a, s'.keys.getKeyStore a = s.keys.getKeyStore a

theorem SameKeys.refl (s : Endpoint) : SameKeys s s := ⟨rfl, fun _ => rfl⟩

/-- What goes out for a peer with a key is the text or a sealing of it. -/
theorem encryptTransport_completes (hH : Steady H) (hobs : Hidden obs) {cr : Crypto}
    {ctx : TransformContext} (hctx : ctx.pkt = some p) {c : JSONPkt}
    (hc : s.pkts.mem[p]? = some c) {k : KeyRef} (hk : s.keys.getKeyStore c.dest = some k)
    (hsize : aesKeySize (bigBytes k.shared).length = true) (text : Bytes) :
    Completes H obs (cr.encryptTransport ctx text) s fun o r s' => o = [] ∧ SameKeys s s' ∧
      r.1 = ctx ∧ Carried cr.aead (bigBytes k.shared) text r.2 := by
  have hA := hH.toAttends
  unfold Crypto.encryptTransport
  rw [hctx]
  refine completes_read hA hobs.toUnseen hc ?_
  split
  · exact completes_pure ⟨rfl, .refl s, rfl, .inl rfl⟩
  · refine completes_read hA hobs.toUnseen hc (completes_getKeyStore hA hobs ?_)
    rw [PktRead.eval, hk]
    refine completes_getKeySent hA hobs ?_
    split
    · refine completes_bind (encryptAES_completes hH hobs hsize) ?_
      rintro o r s' ⟨rfl, rfl, n, hn, rfl⟩
      exact completes_pure ⟨rfl, .refl s', rfl, .inr ⟨n, hn, rfl⟩⟩
    · refine completes_setKeySent hA hobs (completes_pure ⟨rfl, ⟨rfl, fun a => ?_⟩, rfl, .inl rfl⟩)
      exact KeyTable.getKeyStore_setKeySent _ _ _ _

/-- The receiver gets the text back. -/
theorem decryptTransport_completes (hH : Attends H) (hobs : Hidden obs) {cr : Crypto}
    (ha : cr.aead.Proper) {ctx : TransformContext} {k : KeyRef}
    (hk : s.keys.getKeyStore ctx.sender = some k)
    (hsize : aesKeySize (bigBytes k.shared).length = true) {text buff : Bytes}
    (hjson : Json.parse text ≠ none) (hlen : Endpoint.nonceSize ≤ text.length)
    (hbuff : Carried cr.aead (bigBytes k.shared) text buff) :
    Completes H obs (cr.decryptTransport ctx buff) s fun o r s' => o = [] ∧ s' = s ∧
      r = (ctx, text) := by
  have hlong : Endpoint.nonceSize ≤ buff.length := by
    rcases hbuff with rfl | ⟨n, hn, rfl⟩
    · exact hlen
    · exact ha.nonce_le hn
  refine completes_getKeyStore hH hobs ?_
  rw [hk]
  refine completes_bind (decryptAES_completes hsize hlong) ?_
  rintro o r s' ⟨rfl, rfl, hr⟩
  rcases hbuff with rfl | ⟨n, hn, rfl⟩
  · -- what is JSON was not sealed
    have hnone : cr.aead.openText (bigBytes k.shared) buff = none := by
      cases hopen : cr.aead.openText (bigBytes k.shared) buff with
      | none => rfl
      | some m =>
        obtain ⟨n, hn, rfl⟩ := cr.aead.sealed_of_open hopen
        exact absurd (ha.not_json hn) hjson
    rw [hnone] at hr
    cases r with
    | error err => exact completes_pure ⟨rfl, rfl, rfl⟩
    | ok m => cases hr
  · rw [cr.aead.open_seal hn] at hr
    cases r with
    | error err => cases hr
    | ok m =>
      cases hr
      exact completes_pure ⟨rfl, rfl, rfl⟩

/-- A pipeline of one transform that goes on. -/
theorem processTransforms_single_completes {t : BufferTransform} {ctx : TransformContext}
    (hctx : ctx.stat = codeContinue) {data : Bytes} {P : List ω → Bytes → Endpoint → Prop}
    (ht : Completes H obs (t ctx data) s fun o r s' => r.1 = ctx ∧ P o r.2 s') :
    Completes H obs (processTransforms [t] ctx data) s fun o r s' =>
      r.1 = ctx ∧ r.2.2 = none ∧ P o r.2.1 s' := by
  have herr : ¬ ctx.stat = codeStopError := by
    rw [hctx]
    decide
  have hstop : ¬ (ctx.stat = codeStopNoop ∨ ctx.stat = codeStopCloseSend) := by
    rw [hctx]
    decide
  refine completes_bind ht ?_
  rintro o ⟨ctx', data'⟩ s' ⟨heq, hP⟩
  obtain rfl : ctx' = ctx := heq
  simp only [if_neg herr, if_neg hstop]
  refine completes_pure ⟨rfl, rfl, ?_⟩
  rw [List.append_nil]
  exact hP

/-! ## 5. Packets -/

/-- The packet with other data, as `Clear`, `Write` and `Close` leave it. -/
def JSONPkt.rewritten (c : JSONPkt) (data : Bytes) : JSONPkt := ((c.clear).write data).close

theorem JSONPkt.Shows.rewritten {c : JSONPkt} {v : PktView} (h : c.Shows v) (data : Bytes) :
    (c.rewritten data).Shows { v with buff := data, wire := Base64.encode data } :=
  ⟨h.kv, rfl, rfl, h.dest⟩

theorem rewrite_completes (hH : Attends H) (hobs : Unseen obs) {c : JSONPkt}
    (hc : s.pkts.mem[p]? = some c) (data : Bytes) :
    Completes H obs (Crypto.rewrite p data) s fun o _ s' =>
      o = [] ∧ s' = s.setPkt p (c.rewritten data) := by
  have hc₁ := Endpoint.getElem?_setPkt_self (d := c.clear) hc
  have hc₂ := Endpoint.getElem?_setPkt_self (d := (c.clear).write data) hc₁
  refine completes_call hH hobs hc rfl (completes_call hH hobs hc₁ rfl ?_)
  refine completes_call (f := fun _ => pure ()) hH hobs hc₂ rfl (completes_pure ⟨rfl, ?_⟩)
  rw [Endpoint.setPkt_setPkt, Endpoint.setPkt_setPkt]
  rfl

/-- `EncryptE2E` for an address with a key. -/
theorem encryptE2E_completes (hH : Steady H) (hobs : Hidden obs) {cr : Crypto} {addr : GoString}
    {c : JSONPkt} (hc : s.pkts.mem[p]? = some c) {k : KeyRef}
    (hk : s.keys.getKeyStore addr = some k) (hsize : aesKeySize (bigBytes k.shared).length = true) :
    Completes H obs (cr.encryptE2E addr p) s fun o r s' => o = [] ∧ r = none ∧
      ∃ n, n.length = Endpoint.nonceSize ∧
        s' = s.setPkt p (c.rewritten (cr.aead.sealText (bigBytes k.shared) n c.data)) := by
  have hA := hH.toAttends
  have hfor : Completes H obs (cr.encryptFor addr c.data) s fun o r s' => o = [] ∧ s' = s ∧
      ∃ n, n.length = Endpoint.nonceSize ∧
        r = .ok (cr.aead.sealText (bigBytes k.shared) n c.data) := by
    refine completes_getKeyStore hA hobs ?_
    rw [hk]
    refine completes_bind (encryptAES_completes hH hobs hsize) ?_
    rintro o r s' ⟨rfl, rfl, n, hn, rfl⟩
    exact completes_pure ⟨rfl, rfl, n, hn, rfl⟩
  refine completes_read hA hobs.toUnseen hc (completes_bind hfor ?_)
  rintro o r s' ⟨rfl, rfl, n, hn, rfl⟩
  refine completes_bind (rewrite_completes hA hobs.toUnseen hc _) ?_
  rintro o u s' ⟨rfl, rfl⟩
  exact completes_pure ⟨rfl, rfl, n, hn, rfl⟩

/-- `DecryptE2E` of what was sealed under the key of that address. -/
theorem decryptE2E_completes (hH : Attends H) (hobs : Hidden obs) {cr : Crypto}
    (ha : cr.aead.Proper) {addr : GoString} {c : JSONPkt} (hc : s.pkts.mem[p]? = some c) {k : KeyRef}
    (hk : s.keys.getKeyStore addr = some k) (hsize : aesKeySize (bigBytes k.shared).length = true)
    {n body : Bytes} (hn : n.length = Endpoint.nonceSize)
    (hdata : c.data = cr.aead.sealText (bigBytes k.shared) n body) :
    Completes H obs (cr.decryptE2E addr p) s fun o r s' => o = [] ∧ r = none ∧
      s' = s.setPkt p (c.rewritten body) := by
  have hfrom : Completes H obs (cr.decryptFrom addr c.data) s fun o r s' => o = [] ∧ s' = s ∧
      r = .ok body := by
    refine completes_getKeyStore hH hobs ?_
    rw [hk, hdata]
    refine completes_bind (decryptAES_completes hsize (ha.nonce_le hn)) ?_
    rintro o r s' ⟨rfl, rfl, hr⟩
    rw [cr.aead.open_seal hn] at hr
    cases r with
    | error err => cases hr
    | ok m =>
      cases hr
      exact completes_pure ⟨rfl, rfl, rfl⟩
  refine completes_read hH hobs.toUnseen hc (completes_bind hfrom ?_)
  rintro o r s' ⟨rfl, rfl, rfl⟩
  refine completes_bind (rewrite_completes hH hobs.toUnseen hc _) ?_
  rintro o u s' ⟨rfl, rfl⟩
  exact completes_pure ⟨rfl, rfl, rfl⟩

end Rules

end Concord
