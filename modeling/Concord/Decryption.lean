import Concord.Go.Yields
import Concord.EndToEnd

/-!
# Decryption of any buffer

`decryptTransport`, `DecryptFrom` and `DecryptE2E` on a buffer that may come from anyone.

`decryptAES_pure`: a buffer with room for a nonce is opened or refused. `decryptAES_short`: a
shorter one is sliced out of bounds, if the key is one that AES accepts.
`opens_exactly_iff`: the three return the plaintext of what was sealed under the key of the
address, and leave alone or refuse everything else, exactly where the buffer has room for a nonce
or there is no such key.
-/

namespace Concord

open Go

/-! ## 1. `decryptAES` -/

section Cipher

variable {a : AEAD} {key data : Bytes}

/-- What `decryptAES` returns where it returns. -/
theorem decryptAES_pure (h : aesKeySize key.length = true → Endpoint.nonceSize ≤ data.length) :
    (aesKeySize key.length = true ∧ ∃ plain, a.openText key data = some plain ∧
      decryptAES a key data = pure (.ok plain)) ∨
    ((aesKeySize key.length = true → a.openText key data = none) ∧
      ∃ err, decryptAES a key data = pure (.error err)) := by
  unfold decryptAES
  cases hkey : aesKeySize key.length with
  | false => exact .inr ⟨(fun h => by cases h), _, rfl⟩
  | true =>
    rw [if_pos rfl, if_neg (Nat.not_lt.mpr (h hkey))]
    cases hopen : a.openText key data with
    | none => exact .inr ⟨fun _ => rfl, _, rfl⟩
    | some plain => exact .inl ⟨rfl, plain, rfl, rfl⟩

theorem decryptAES_short (hkey : aesKeySize key.length = true)
    (hlen : data.length < Endpoint.nonceSize) : decryptAES a key data = Routine.panic := by
  unfold decryptAES
  rw [if_pos hkey, if_pos hlen]

theorem crashes_panic {α β : Type} {f : α → Routine β} {s : Endpoint} :
    Crashes Endpoint.handle (Routine.panic >>= f) s :=
  .now (c := default) rfl

end Cipher

/-! ## 2. Sealed buffers -/

namespace Crypto

/-- The buffer is `plain`, sealed under the key that is stored for the address. -/
def Sealed (cr : Crypto) (s : Endpoint) (addr : GoString) (buff plain : Bytes) : Prop :=
  ∃ k nonce, s.keys.getKeyStore addr = some k ∧ aesKeySize (bigBytes k.shared).length = true ∧
    nonce.length = Endpoint.nonceSize ∧ buff = cr.aead.sealText (bigBytes k.shared) nonce plain

/-- The key that is stored for the address is one that AES accepts. -/
def HasAESKey (s : Endpoint) (addr : GoString) : Prop :=
  ∃ k, s.keys.getKeyStore addr = some k ∧ aesKeySize (bigBytes k.shared).length = true

variable {cr : Crypto} {s : Endpoint} {addr : GoString} {buff plain : Bytes} {k : KeyRef}

/-- With the key at hand, sealed buffers are those that open. -/
theorem sealed_iff (hk : s.keys.getKeyStore addr = some k) :
    cr.Sealed s addr buff plain ↔ aesKeySize (bigBytes k.shared).length = true ∧
      cr.aead.openText (bigBytes k.shared) buff = some plain := by
  constructor
  · rintro ⟨k', nonce, hk', hsize, hn, rfl⟩
    cases hk.symm.trans hk'
    exact ⟨hsize, cr.aead.open_seal hn⟩
  · rintro ⟨hsize, hopen⟩
    obtain ⟨nonce, hn, hbuff⟩ := cr.aead.sealed_of_open hopen
    exact ⟨k, nonce, hk, hsize, hn, hbuff⟩

/-- A buffer is sealed for one plaintext at most. -/
theorem Sealed.unique {plain' : Bytes} (h : cr.Sealed s addr buff plain)
    (h' : cr.Sealed s addr buff plain') : plain' = plain := by
  have ⟨_, _, hk, _⟩ := h
  have hopen := ((sealed_iff hk).mp h).2.symm.trans ((sealed_iff hk).mp h').2
  exact (Option.some.inj hopen).symm

/-! ## 3. The entry points -/

/-- A program that returns `good` of the plaintext of a sealed buffer and `bad` of another,
and does not panic. -/
def Settles {α : Type} (cr : Crypto) (s : Endpoint) (addr : GoString) (buff : Bytes)
    (x : Routine α) (good : Bytes → α → Endpoint → Prop) (bad : α → Endpoint → Prop) : Prop :=
  (∀ plain, cr.Sealed s addr buff plain → ∃ a s', good plain a s' ∧ Yields Endpoint.handle x s a s') ∧
  ((∀ plain, ¬ cr.Sealed s addr buff plain) → ∃ a s', bad a s' ∧ Yields Endpoint.handle x s a s')

/-- `decryptTransport`, `DecryptFrom` and `DecryptE2E` are exact on this buffer. -/
structure OpensExactly (cr : Crypto) (s : Endpoint) (addr : GoString) (buff : Bytes) : Prop where
  transport : ∀ ctx : TransformContext, ctx.sender = addr →
    cr.Settles s addr buff (cr.decryptTransport ctx buff)
      (fun plain r s' => r = (ctx, plain) ∧ s' = s) (fun r s' => r = (ctx, buff) ∧ s' = s)
  decryptFrom : cr.Settles s addr buff (cr.decryptFrom addr buff)
    (fun plain r s' => r = .ok plain ∧ s' = s) (fun r s' => (∃ err, r = .error err) ∧ s' = s)
  e2e : ∀ p c, s.pkts.mem[p]? = some c → c.data = buff →
    cr.Settles s addr buff (cr.decryptE2E addr p)
      (fun plain r s' => r = none ∧ ∃ d, d.data = plain ∧ s' = s.setPkt p d)
      (fun r s' => (∃ err, r = some err) ∧ s' = s)

theorem Settles.not_crashes {α : Type} {x : Routine α} {good : Bytes → α → Endpoint → Prop}
    {bad : α → Endpoint → Prop} (h : cr.Settles s addr buff x good bad) :
    ¬ Crashes Endpoint.handle x s := by
  by_cases hs : ∃ plain, cr.Sealed s addr buff plain
  · obtain ⟨plain, hs⟩ := hs
    obtain ⟨_, _, -, hy⟩ := h.1 plain hs
    exact hy.1
  · obtain ⟨_, _, -, hy⟩ := h.2 (not_exists.mp hs)
    exact hy.1

theorem getKeyStore_handle (s : Endpoint) (addr : GoString) (c : Choice) :
    s.handle c (.getKeyStore addr) = .ok (s.keys.getKeyStore addr, s) := rfl

/-- What the entry points have in common: the key is looked up, and the buffer is opened with it. -/
theorem settles_lookup {α : Type} {f : Option KeyRef → Routine α}
    {good : Bytes → α → Endpoint → Prop} {bad : α → Endpoint → Prop}
    (hlen : HasAESKey s addr → Endpoint.nonceSize ≤ buff.length)
    (hnone : ∃ a s', bad a s' ∧ Yields Endpoint.handle (f none) s a s')
    (hok : ∀ k plain, decryptAES cr.aead (bigBytes k.shared) buff = pure (.ok plain) →
      ∃ a s', good plain a s' ∧ Yields Endpoint.handle (f (some k)) s a s')
    (herr : ∀ k err, decryptAES cr.aead (bigBytes k.shared) buff = pure (.error err) →
      ∃ a s', bad a s' ∧ Yields Endpoint.handle (f (some k)) s a s') :
    cr.Settles s addr buff (Routine.perform (.getKeyStore addr) >>= f) good bad := by
  have hlook : ∀ {a s'}, Yields Endpoint.handle (f (s.keys.getKeyStore addr)) s a s' →
      Yields Endpoint.handle (Routine.perform (.getKeyStore addr) >>= f) s a s' :=
    fun h => yields_det (getKeyStore_handle s addr) h
  cases hk : s.keys.getKeyStore addr with
  | none =>
    rw [hk] at hlook
    obtain ⟨a, s', hbad, hy⟩ := hnone
    refine ⟨fun plain ⟨k, _, hk', _⟩ => ?_, fun _ => ⟨a, s', hbad, hlook hy⟩⟩
    rw [hk] at hk'
    cases hk'
  | some k =>
    rw [hk] at hlook
    rcases decryptAES_pure (a := cr.aead) (fun hsize => hlen ⟨k, hk, hsize⟩) with
      ⟨hsize, plain, hopen, hdec⟩ | ⟨hshut, err, hdec⟩
    · have hsealed : cr.Sealed s addr buff plain := (sealed_iff hk).mpr ⟨hsize, hopen⟩
      obtain ⟨a, s', hgood, hy⟩ := hok k plain hdec
      refine ⟨fun plain' h' => ?_, fun hnot => absurd hsealed (hnot plain)⟩
      rw [hsealed.unique h']
      exact ⟨a, s', hgood, hlook hy⟩
    · obtain ⟨a, s', hbad, hy⟩ := herr k err hdec
      refine ⟨fun plain h' => ?_, fun _ => ⟨a, s', hbad, hlook hy⟩⟩
      obtain ⟨hsize, hopen⟩ := (sealed_iff hk).mp h'
      rw [hshut hsize] at hopen
      cases hopen

theorem decryptTransport_settles (hlen : HasAESKey s addr → Endpoint.nonceSize ≤ buff.length)
    {ctx : TransformContext} (hctx : ctx.sender = addr) :
    cr.Settles s addr buff (cr.decryptTransport ctx buff)
      (fun plain r s' => r = (ctx, plain) ∧ s' = s) (fun r s' => r = (ctx, buff) ∧ s' = s) := by
  subst hctx
  refine settles_lookup hlen ⟨_, s, ⟨rfl, rfl⟩, yields_pure⟩ (fun k plain hdec => ?_)
    fun k err hdec => ?_
  · refine ⟨_, s, ⟨rfl, rfl⟩, ?_⟩
    simp only [hdec]
    exact yields_pure
  · refine ⟨_, s, ⟨rfl, rfl⟩, ?_⟩
    simp only [hdec]
    exact yields_pure

theorem decryptFrom_settles (hlen : HasAESKey s addr → Endpoint.nonceSize ≤ buff.length) :
    cr.Settles s addr buff (cr.decryptFrom addr buff)
      (fun plain r s' => r = .ok plain ∧ s' = s)
      (fun r s' => (∃ err, r = .error err) ∧ s' = s) := by
  refine settles_lookup hlen ⟨_, s, ⟨⟨_, rfl⟩, rfl⟩, yields_pure⟩ (fun k plain hdec => ?_)
    fun k err hdec => ?_
  · refine ⟨_, s, ⟨rfl, rfl⟩, ?_⟩
    simp only [hdec]
    exact yields_pure
  · refine ⟨.error (Fmt.errorf (ascii "encryption error: " ++ err)), s, ⟨⟨_, rfl⟩, rfl⟩, ?_⟩
    simp only [hdec]
    exact yields_pure

theorem yields_call {α : Type} {a : α} {s' : Endpoint} {p : Nat} {c q : JSONPkt} {op : PktOp}
    {f : Unit → Routine α} (hc : s.pkts.mem[p]? = some c) (hq : op.apply c = some q)
    (hf : Yields Endpoint.handle (f ()) (s.setPkt p q) a s') :
    Yields Endpoint.handle (Routine.call p op >>= f) s a s' :=
  yields_det (f := fun _ => f ()) (Endpoint.handle_call hc hq) hf

/-- `Clear`, `Write` and `Close` on a packet object. -/
theorem rewrite_yields {p : Nat} {c : JSONPkt} (hc : s.pkts.mem[p]? = some c) (data : Bytes) :
    Yields Endpoint.handle (rewrite p data) s () (s.setPkt p (c.rewritten data)) := by
  have hc₁ := Endpoint.getElem?_setPkt_self (d := c.clear) hc
  have hc₂ := Endpoint.getElem?_setPkt_self (d := (c.clear).write data) hc₁
  refine yields_call hc rfl (yields_call hc₁ rfl ?_)
  refine yields_call (f := fun _ => pure ()) hc₂ rfl ?_
  rw [Endpoint.setPkt_setPkt, Endpoint.setPkt_setPkt]
  exact yields_pure

theorem decryptE2E_settles (hlen : HasAESKey s addr → Endpoint.nonceSize ≤ buff.length) {p : Nat}
    {c : JSONPkt} (hc : s.pkts.mem[p]? = some c) (hdata : c.data = buff) :
    cr.Settles s addr buff (cr.decryptE2E addr p)
      (fun plain r s' => r = none ∧ ∃ d, d.data = plain ∧ s' = s.setPkt p d)
      (fun r s' => (∃ err, r = some err) ∧ s' = s) := by
  subst hdata
  have hfrom : cr.Settles s addr c.data (cr.decryptFrom addr c.data) _ _ := decryptFrom_settles hlen
  obtain ⟨hgood, hbad⟩ := hfrom
  constructor
  · intro plain hsealed
    obtain ⟨_, _, ⟨rfl, rfl⟩, hfrom⟩ := hgood plain hsealed
    refine ⟨none, _, ⟨rfl, c.rewritten plain, rfl, rfl⟩, ?_⟩
    refine yields_det (Endpoint.handle_read hc .data) (yields_bind hfrom ?_)
    exact yields_bind (rewrite_yields hc plain) yields_pure
  · intro hnot
    obtain ⟨_, s', ⟨⟨err, rfl⟩, hs⟩, hfrom⟩ := hbad hnot
    subst s'
    refine ⟨some (ascii "e2e decrypt error: " ++ err), s, ⟨⟨_, rfl⟩, rfl⟩, ?_⟩
    exact yields_det (Endpoint.handle_read hc .data) (yields_bind hfrom yields_pure)

/-! ## 4. The buffers -/

/-- A buffer that is too short for the nonce is sliced out of bounds. -/
theorem decryptFrom_crashes (hkey : HasAESKey s addr) (hlen : buff.length < Endpoint.nonceSize) :
    Crashes Endpoint.handle (cr.decryptFrom addr buff) s := by
  obtain ⟨k, hk, hsize⟩ := hkey
  refine (crashes_det (getKeyStore_handle s addr)).mpr ?_
  rw [hk]
  simp only [decryptAES_short hsize hlen]
  exact crashes_panic

end Crypto

/-- Decryption is total and exact where the buffer has room for a nonce or no key that AES
accepts is stored for the address; otherwise it panics. -/
theorem opens_exactly_iff (cr : Crypto) (s : Endpoint) (addr : GoString) (buff : Bytes) :
    cr.OpensExactly s addr buff ↔
      (Crypto.HasAESKey s addr → Endpoint.nonceSize ≤ buff.length) := by
  constructor
  · intro h hkey
    by_contra hlen
    exact h.decryptFrom.not_crashes (Crypto.decryptFrom_crashes hkey (Nat.lt_of_not_le hlen))
  · intro hlen
    exact ⟨fun _ hctx => Crypto.decryptTransport_settles hlen hctx,
      Crypto.decryptFrom_settles hlen, fun _ _ hc hdata => Crypto.decryptE2E_settles hlen hc hdata⟩

/-- A state in which a key of 32 bytes is stored for one address. -/
def oneKey (addr : GoString) (shared : Nat) : Endpoint :=
  { Endpoint.init with keys := KeyTable.empty.setKeyStore addr ⟨true, shared, ⟨none, none⟩⟩ }

/-- An empty datagram from a peer with a key makes all three panic. -/
theorem empty_buffer_not_opened :
    ¬ (Crypto.transparent 1).OpensExactly (oneKey (ascii "peer") (2 ^ 255)) (ascii "peer") [] := by
  intro h
  have hkey : Crypto.HasAESKey (oneKey (ascii "peer") (2 ^ 255)) (ascii "peer") :=
    ⟨_, rfl, by decide +kernel⟩
  exact h.decryptFrom.not_crashes (Crypto.decryptFrom_crashes hkey (by decide))

end Concord
