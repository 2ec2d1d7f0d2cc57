import Concord.Decryption

/-!
# Keys that AES accepts

The key bytes are those of the shared secret without leading zeros, so how many there are
depends on the secret, and AES takes 16, 24 or 32 of them.

`length_bigBytes`: the secrets with a given number of bytes. `key_usable_iff`: a secret below
`2 ^ 256` can be used, by all of `encryptTransport`, `EncryptFor` and `EncryptE2E` and for
every buffer, exactly if it is in one of the three ranges.
-/

namespace Concord

open Go

/-! ## 1. The number of key bytes -/

theorem length_bigBytes (x n : Nat) :
    (bigBytes x).length = n + 1 ↔ 256 ^ n ≤ x ∧ x < 256 ^ (n + 1) := by
  have hlen : (bigBytes x).length = (Nat.digits 256 x).length := by simp [bigBytes]
  rw [hlen, ← Nat.lt_digits_length_iff (by decide), ← Nat.digits_length_le_iff (by decide)]
  omega

/-- The secrets whose bytes are an AES key. -/
theorem aesKeySize_bigBytes (x : Nat) :
    aesKeySize (bigBytes x).length = true ↔ (256 ^ 15 ≤ x ∧ x < 256 ^ 16) ∨
      (256 ^ 23 ≤ x ∧ x < 256 ^ 24) ∨ 256 ^ 31 ≤ x ∧ x < 256 ^ 32 := by
  simp only [aesKeySize, Bool.or_eq_true, decide_eq_true_eq, ← length_bigBytes]
  tauto

/-! ## 2. What a secret is good for -/

/-- Nothing is observed. -/
def silent : ((e : Op) × e.Res) → Option Unit := fun _ => none

theorem silent_hidden : Hidden silent where
  get _ := rfl
  put _ _ := rfl
  call _ _ _ := rfl
  read _ _ _ := rfl
  keyStore _ _ := rfl
  keySent _ _ := rfl
  setSent _ _ _ := rfl
  nonce _ := rfl

/-- Whoever has stored the secret `x` gets `plain` out of `data`, by all three functions. -/
def OpensWith (a : AEAD) (x : Nat) (data plain : Bytes) : Prop :=
  ∀ (cr : Crypto) (s : Endpoint) (addr : GoString) (k : KeyRef), cr.aead = a →
    s.keys.getKeyStore addr = some k → k.shared = x →
    (∀ ctx : TransformContext, ctx.sender = addr →
      Yields Endpoint.handle (cr.decryptTransport ctx data) s (ctx, plain) s) ∧
    Yields Endpoint.handle (cr.decryptFrom addr data) s (.ok plain) s ∧
    ∀ p c, s.pkts.mem[p]? = some c → c.data = data →
      ∃ d, d.data = plain ∧ Yields Endpoint.handle (cr.decryptE2E addr p) s none (s.setPkt p d)

theorem opensWith_seal {a : AEAD} {x : Nat} {n plain : Bytes}
    (hsize : aesKeySize (bigBytes x).length = true) (hn : n.length = Endpoint.nonceSize)
    (hlen : Endpoint.nonceSize ≤ (a.sealText (bigBytes x) n plain).length) :
    OpensWith a x (a.sealText (bigBytes x) n plain) plain := by
  rintro cr s addr k rfl hk rfl
  have hsealed : cr.Sealed s addr (cr.aead.sealText (bigBytes k.shared) n plain) plain :=
    ⟨k, n, hk, hsize, hn, rfl⟩
  refine ⟨fun ctx hctx => ?_, ?_, fun p c hc hdata => ?_⟩
  · obtain ⟨_, _, ⟨rfl, rfl⟩, hy⟩ :=
      (Crypto.decryptTransport_settles (fun _ => hlen) hctx).1 plain hsealed
    exact hy
  · obtain ⟨_, _, ⟨rfl, rfl⟩, hy⟩ := (Crypto.decryptFrom_settles fun _ => hlen).1 plain hsealed
    exact hy
  · obtain ⟨_, _, ⟨rfl, d, hd, rfl⟩, hy⟩ :=
      (Crypto.decryptE2E_settles (fun _ => hlen) hc hdata).1 plain hsealed
    exact ⟨d, hd, hy⟩

/-- Every way to encrypt under the stored secret `x` succeeds, for every buffer, and what comes
out is decrypted with the same secret. The source of nonces does not fail (`steady`). -/
structure Crypto.Usable (cr : Crypto) (x : Nat) : Prop where
  encryptTransport : ∀ (s : Endpoint) (ctx : TransformContext) (p : Nat) (c : JSONPkt) (k : KeyRef)
    (buff : Bytes), ctx.pkt = some p → s.pkts.mem[p]? = some c →
    Crypto.isSkip (c.metaGet keyNoCrypto) = false → s.keys.getKeyStore c.dest = some k →
    k.shared = x → s.keys.getKeySent k.id = true →
    Completes Endpoint.steady silent (cr.encryptTransport ctx buff) s fun _ r s' =>
      r.1 = ctx ∧ s' = s ∧ OpensWith cr.aead x r.2 buff
  encryptFor : ∀ (s : Endpoint) (addr : GoString) (k : KeyRef) (buff : Bytes),
    s.keys.getKeyStore addr = some k → k.shared = x →
    Completes Endpoint.steady silent (cr.encryptFor addr buff) s fun _ r s' =>
      s' = s ∧ ∃ data, r = .ok data ∧ OpensWith cr.aead x data buff
  encryptE2E : ∀ (s : Endpoint) (addr : GoString) (p : Nat) (c : JSONPkt) (k : KeyRef),
    s.pkts.mem[p]? = some c → s.keys.getKeyStore addr = some k → k.shared = x →
    Completes Endpoint.steady silent (cr.encryptE2E addr p) s fun _ r s' =>
      r = none ∧ ∃ d, s' = s.setPkt p d ∧ OpensWith cr.aead x d.data c.data

section Usable

variable {cr : Crypto} {x : Nat}

theorem Crypto.usable_of_size (hsize : aesKeySize (bigBytes x).length = true)
    (hlen : ∀ {k n m}, n.length = Endpoint.nonceSize →
      Endpoint.nonceSize ≤ (cr.aead.sealText k n m).length) : cr.Usable x where
  encryptTransport := by
    rintro s ctx p c k buff hctx hc hskip hk rfl hsent
    have hA := Endpoint.steady_steady.toAttends
    have hobs := silent_hidden
    unfold Crypto.encryptTransport
    rw [hctx]
    refine completes_read hA hobs.toUnseen hc ?_
    rw [PktRead.eval, hskip, if_neg Bool.false_ne_true]
    refine completes_read hA hobs.toUnseen hc (completes_getKeyStore hA hobs ?_)
    rw [PktRead.eval, hk]
    refine completes_getKeySent hA hobs ?_
    rw [hsent, if_pos rfl]
    refine completes_bind (encryptAES_completes Endpoint.steady_steady hobs hsize) ?_
    rintro o r s' ⟨rfl, rfl, n, hn, rfl⟩
    exact completes_pure ⟨rfl, rfl, opensWith_seal hsize hn (hlen hn)⟩
  encryptFor := by
    rintro s addr k buff hk rfl
    refine completes_getKeyStore Endpoint.steady_steady.toAttends silent_hidden ?_
    rw [hk]
    refine completes_bind (encryptAES_completes Endpoint.steady_steady silent_hidden hsize) ?_
    rintro o r s' ⟨rfl, rfl, n, hn, rfl⟩
    exact completes_pure ⟨rfl, _, rfl, opensWith_seal hsize hn (hlen hn)⟩
  encryptE2E := by
    rintro s addr p c k hc hk rfl
    refine (encryptE2E_completes Endpoint.steady_steady silent_hidden hc hk hsize).mono ?_
    rintro o r s' ⟨-, rfl, n, hn, rfl⟩
    exact ⟨rfl, _, rfl, opensWith_seal hsize hn (hlen hn)⟩

theorem encryptAES_refused {a : AEAD} {key data : Bytes} (hsize : ¬ aesKeySize key.length = true) :
    encryptAES a key data =
      pure (.error (Fmt.errorf (ascii "cipher init fail: " ++ keySizeError key.length))) := by
  unfold encryptAES
  rw [if_neg hsize]

/-- A secret with another number of bytes is refused by `aes.NewCipher`. -/
theorem Crypto.size_of_usable (h : cr.Usable x) : aesKeySize (bigBytes x).length = true := by
  by_contra hsize
  have hk : (oneKey (ascii "peer") x).keys.getKeyStore (ascii "peer") =
      some ⟨0, x, ⟨none, none⟩⟩ := rfl
  obtain ⟨⟨tr, r, s', hx⟩, hQ⟩ := h.encryptFor _ _ _ [] hk rfl
  obtain ⟨-, data, rfl, -⟩ := hQ tr r s' hx
  obtain ⟨c, r, s₁, tr', hh, hx, rfl⟩ := execs_perform.mp hx
  cases hh
  rw [hk] at hx
  simp only [encryptAES_refused hsize] at hx
  obtain ⟨-, heq, -⟩ := execs_pure.mp hx
  cases heq

end Usable

/-- The secrets below `2 ^ 256` that can be used: those of 16, 24 or 32 bytes. -/
theorem key_usable_iff (cr : Crypto)
    (hlen : ∀ {k n m}, n.length = Endpoint.nonceSize →
      Endpoint.nonceSize ≤ (cr.aead.sealText k n m).length) {x : Nat} (hx : x < 2 ^ 256) :
    cr.Usable x ↔
      (2 ^ 120 ≤ x ∧ x < 2 ^ 128) ∨ (2 ^ 184 ≤ x ∧ x < 2 ^ 192) ∨ 2 ^ 248 ≤ x := by
  have hsizes := aesKeySize_bigBytes x
  norm_num at hsizes hx ⊢
  constructor
  · intro h
    rcases hsizes.mp (Crypto.size_of_usable h) with h | h | h
    · exact .inl h
    · exact .inr (.inl h)
    · exact .inr (.inr h.1)
  · rintro (h | h | h)
    · exact Crypto.usable_of_size (hsizes.mpr (.inl h)) hlen
    · exact Crypto.usable_of_size (hsizes.mpr (.inr (.inl h))) hlen
    · exact Crypto.usable_of_size (hsizes.mpr (.inr (.inr ⟨h, hx⟩))) hlen

theorem full_key_usable : (Crypto.transparent 1).Usable (2 ^ 255) :=
  (key_usable_iff _ (fun {_ _ _} hn => by simp [Crypto.transparent, AEAD.transparent, hn])
    (by norm_num)).mpr (.inr (.inr (by norm_num)))

/-- A secret with a zero byte in front cannot be used. -/
theorem short_key_not_usable : ¬ (Crypto.transparent 1).Usable (2 ^ 247) := fun h =>
  absurd (Crypto.size_of_usable h) (by decide +kernel)

end Concord
