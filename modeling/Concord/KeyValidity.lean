import Concord.Go.Trace
import Concord.Decryption
import Concord.KeyExchange

/-!
# The public keys that are stored

`keyExchangeServer` and `ProcessKeyExResp` decode the body of a packet into a public key and
store it. Neither looks whether both coordinates are there, or whether they are a point of the
curve.

`GoodBody`: the body is no public key at all, or one on the curve.
`keyExchangeServer_valid_iff` and `processKeyExResp_valid_iff`: only for such a body the
functions report an error and store nothing, or store a point of the curve with its secret.
`keys_valid_of_run`: in every run in which only such bodies are stored, the key table of a
server or a client has points of the curve only. `only_valid_keys_iff` has all of it.
-/

namespace Concord

open Go

/-! ## 1. The curve -/

/-- The prime of P-256. -/
def p256Prime : Int := 2 ^ 256 - 2 ^ 224 + 2 ^ 192 + 2 ^ 96 - 1

/-- The coefficient `b` of P-256. -/
def p256B : Int := 0x5ac635d8aa3a93e7b3ebbd55769886bc651d06b0cc53b0f63bce3c3e27d2604b

/-- The point is on P-256: `y² = x³ - 3x + b`. -/
def OnP256 (x y : Int) : Prop :=
  0 ≤ x ∧ x < p256Prime ∧ 0 ≤ y ∧ y < p256Prime ∧ (y ^ 2 - (x ^ 3 - 3 * x + p256B)) % p256Prime = 0

instance (x y : Int) : Decidable (OnP256 x y) := inferInstanceAs (Decidable (_ ∧ _))

/-- The base point of P-256 is on it. -/
example : OnP256 0x6b17d1f2e12c4247f8bce6e563a440f277037d812deb33a0f4a13945d898c296
    0x4fe342e2fe1a7f9b8ee7eb4a7c0f9e162bce33576b315ececbb6406837bf51f5 := by decide +kernel

/-- The body is not a public key, or is one with both coordinates on the curve. -/
def GoodBody (body : Bytes) : Prop :=
  ∀ pk, pubKeyOf body = some pk → ∃ x y, pk = ⟨some x, some y⟩ ∧ OnP256 x y

/-- `GoodBody`, computed. -/
def isGoodBody (body : Bytes) : Bool :=
  match pubKeyOf body with
  | none => true
  | some ⟨some x, some y⟩ => decide (OnP256 x y)
  | some _ => false

theorem isGoodBody_iff {body : Bytes} : isGoodBody body = true ↔ GoodBody body := by
  unfold isGoodBody GoodBody
  split
  · next h => simp [h]
  · next x y h => simp [h]
  · next pk hne h =>
    simp only [h, Option.some.injEq, Bool.false_eq_true, false_iff]
    intro hall
    obtain ⟨x, y, rfl, -⟩ := hall pk rfl
    exact hne x y rfl

instance (body : Bytes) : Decidable (GoodBody body) := decidable_of_iff _ isGoodBody_iff

/-- The operation does not store a key. -/
def Op.keepsKeys : Op → Bool
  | .setKeyStore _ _ => false
  | _ => true

namespace Crypto

/-- The secret that belongs to the public key, whose coordinates are both there. -/
def KeyFor (cr : Crypto) (pub : PublicKey) (shared : Nat) : Prop :=
  ∃ x y, pub = ⟨some x, some y⟩ ∧ shared = cr.curve.mul cr.privKey (x, y)

/-- The public key is on the curve, and this is its secret. -/
def ValidKey (cr : Crypto) (pub : PublicKey) (shared : Nat) : Prop :=
  ∃ x y, pub = ⟨some x, some y⟩ ∧ OnP256 x y ∧ shared = cr.curve.mul cr.privKey (x, y)

/-! ## 2. One call -/

/-- The routine does not panic, and reports an error and leaves the key table alone, or stores a
valid key for the address. -/
def StoresValid {α : Type} (cr : Crypto) (s : Endpoint) (addr : GoString) (x : Routine α)
    (failed : α → Prop) : Prop :=
  ¬ Crashes Endpoint.handle x s ∧ ∀ a s', Ends Endpoint.handle x s a s' →
    (failed a ∧ s'.keys = s.keys) ∨
    ¬ failed a ∧ ∃ k, cr.ValidKey k.pub k.shared ∧ s'.keys = s.keys.setKeyStore addr k

section Calls

variable {α : Type} {cr : Crypto} {s s' : Endpoint} {addr : GoString} {x : Routine α}
  {failed : α → Prop} {a : α} {k : KeyStore}

theorem storesValid_of_error (hx : Yields Endpoint.handle x s a s') (ha : failed a)
    (hs : s'.keys = s.keys) : cr.StoresValid s addr x failed := by
  refine ⟨hx.1, fun b t h => ?_⟩
  obtain ⟨rfl, rfl⟩ := (hx.2 b t).mp h
  exact .inl ⟨ha, hs⟩

/-- What is stored is valid exactly if the routine may store it. -/
theorem storesValid_of_stored (hx : Yields Endpoint.handle x s a s') (ha : ¬ failed a)
    (hs : s'.keys = s.keys.setKeyStore addr k) :
    cr.StoresValid s addr x failed ↔ cr.ValidKey k.pub k.shared := by
  constructor
  · intro h
    rcases h.2 a s' hx.ends with ⟨hfailed, -⟩ | ⟨-, k', hk', hs'⟩
    · exact absurd hfailed ha
    · have hheap := congrArg KeyTable.heap (hs.symm.trans hs')
      rw [show k = k' by simpa [KeyTable.setKeyStore] using hheap]
      exact hk'
  · refine fun hk => ⟨hx.1, fun b t h => ?_⟩
    obtain ⟨rfl, rfl⟩ := (hx.2 b t).mp h
    exact .inr ⟨ha, k, hk, hs⟩

/-- A public key, by what `computeSharedKey` makes of it. -/
theorem computeSharedKey_cases (cr : Crypto) (pk : PublicKey) :
    (∃ x y, pk = ⟨some x, some y⟩ ∧
      cr.computeSharedKey pk = pure (cr.curve.mul cr.privKey (x, y))) ∨
    (∀ x y, pk ≠ ⟨some x, some y⟩) ∧ cr.computeSharedKey pk = Routine.panic := by
  obtain ⟨x, y⟩ := pk
  cases x with
  | none => exact .inr ⟨(fun _ _ h => by cases h), rfl⟩
  | some x =>
    cases y with
    | none => exact .inr ⟨(fun _ _ h => by cases h), rfl⟩
    | some y => exact .inl ⟨x, y, rfl, rfl⟩

theorem validKey_iff {x y : Int} :
    cr.ValidKey ⟨some x, some y⟩ (cr.curve.mul cr.privKey (x, y)) ↔ OnP256 x y := by
  constructor
  · rintro ⟨x', y', h, hon, -⟩
    cases h
    exact hon
  · exact fun hon => ⟨x, y, rfl, hon, rfl⟩

theorem goodBody_of_some {body : Bytes} {pk : PublicKey} (h : pubKeyOf body = some pk) :
    GoodBody body ↔ ∃ x y, pk = ⟨some x, some y⟩ ∧ OnP256 x y := by
  constructor
  · exact fun hgood => hgood pk h
  · intro hpk pk' h'
    cases h.symm.trans h'
    exact hpk

/-- What the two functions have in common: a body that is no key is reported, and a key is
stored before the rest. -/
theorem storesValid_iff {p : Nat} {c : JSONPkt} {f : Bytes → Routine α} {b : Bool}
    {rest : Unit → Routine α} (hc : s.pkts.mem[p]? = some c)
    (hnone : pubKeyOf c.data = none → ∃ a, failed a ∧ f c.data = pure a)
    (hsome : ∀ pk, pubKeyOf c.data = some pk → f c.data =
      cr.computeSharedKey pk >>= fun shared =>
        Routine.perform (.setKeyStore addr ⟨b, shared, pk⟩) >>= rest)
    (hrest : ∀ keys, ∃ a pkts, ¬ failed a ∧ Yields Endpoint.handle (rest ())
      { s with keys := keys } a { s with keys := keys, pkts := pkts }) :
    cr.StoresValid s addr (Routine.data p >>= f) failed ↔ GoodBody c.data := by
  have hread := Endpoint.handle_read hc .data
  cases hpk : pubKeyOf c.data with
  | none =>
    obtain ⟨a, ha, hf⟩ := hnone hpk
    have hy : Yields Endpoint.handle (Routine.data p >>= f) s a s :=
      yields_det hread (show Yields _ (f c.data) s a s by rw [hf]; exact yields_pure)
    refine iff_of_true (storesValid_of_error hy ha rfl) fun pk h => ?_
    rw [hpk] at h
    cases h
  | some pk =>
    have hf := hsome pk hpk
    rw [goodBody_of_some hpk]
    rcases computeSharedKey_cases cr pk with ⟨x, y, rfl, hcomp⟩ | ⟨hne, hcomp⟩
    · rw [hcomp] at hf
      let k : KeyStore := ⟨b, cr.curve.mul cr.privKey (x, y), some x, some y⟩
      obtain ⟨a, pkts, ha, hy⟩ := hrest (s.keys.setKeyStore addr k)
      have hstore : ∀ ch, s.handle ch (.setKeyStore addr k) =
          .ok ((), { s with keys := s.keys.setKeyStore addr k }) := fun _ => rfl
      have hx : Yields Endpoint.handle (Routine.data p >>= f) s a _ := yields_det hread
        (show Yields _ (f c.data) s a _ by rw [hf]; exact yields_det hstore hy)
      rw [storesValid_of_stored hx ha rfl, validKey_iff]
      constructor
      · exact fun hon => ⟨x, y, rfl, hon⟩
      · rintro ⟨x', y', h, hon⟩
        cases h
        exact hon
    · rw [hcomp] at hf
      refine iff_of_false (fun h => h.1 ?_) fun ⟨x, y, h, _⟩ => hne x y h
      refine (crashes_det hread).mpr (show Crashes _ (f c.data) s from ?_)
      rw [hf]
      exact crashes_panic

theorem keyExchangeServer_valid_iff {ctx : TargetCtx} {pw : Nat} {c : JSONPkt} {v : PktView}
    (hc : s.pkts.mem[ctx.pkt]? = some c) (hpw : s.Has pw v) :
    cr.StoresValid s ctx.sender (cr.keyExchangeServer ctx pw)
      (fun ctx' => ctx'.stat = codeStopError) ↔ GoodBody c.data := by
  obtain ⟨d, hd, hshows⟩ := hpw
  obtain ⟨d₁, hd₁, -⟩ := hshows.apply
    (show (PktOp.metaAdd keyNoCrypto (ascii "true")).isEdit = true from rfl)
  refine storesValid_iff hc (fun h => ?_) (fun pk h => by rw [h]) fun keys => ?_
  · rw [h]
    exact ⟨_, rfl, rfl⟩
  · have hd₁' := Endpoint.getElem?_setPkt_self (s := { s with keys := keys }) (d := d₁) hd
    exact ⟨_, _, show codeStopCloseSend ≠ codeStopError by decide,
      yields_call (c := d) hd hd₁ (yields_call hd₁' rfl yields_pure)⟩

theorem processKeyExResp_valid_iff {jsonErr : Bytes → GoString} {resp : Nat} {c : JSONPkt}
    (hc : s.pkts.mem[resp]? = some c) :
    cr.StoresValid s addr (cr.processKeyExResp jsonErr addr resp) (fun r => r ≠ none) ↔
      GoodBody c.data := by
  refine storesValid_iff hc (fun h => ?_) (fun pk h => by rw [h]) fun keys => ?_
  · rw [h]
    exact ⟨_, Option.some_ne_none _, rfl⟩
  · exact ⟨none, s.pkts, not_not_intro rfl, yields_pure⟩

end Calls

/-! ## 3. The bodies that keys come from -/

/-- The body a goroutine has read by this operation. -/
def bodyRead : (e : Op) → e.Res → Option Bytes
  | .read _ .data, body => some body
  | _, _ => none

/-- The key is the one in the body, with its secret. -/
def KeyIn (cr : Crypto) (k : KeyStore) (body : Option Bytes) : Prop :=
  ∃ bin, body = some bin ∧ pubKeyOf bin = some k.pub ∧ cr.KeyFor k.pub k.shared

/-- The ghost value of a goroutine is the body it has read last, if that was its last
operation; a key that is stored comes from it. -/
def bodyRules (cr : Crypto) : Prog.Rules Op Op.Res (Option Bytes) := fun e g Φ =>
  (∀ a k, e = .setKeyStore a k → cr.KeyIn k g) ∧ ∀ r, Φ r (bodyRead e r)

theorem bodyRules_mono {cr : Crypto} : cr.bodyRules.Mono :=
  fun _ _ _ _ hΦ H => ⟨H.1, fun r => hΦ _ _ (H.2 r)⟩

/-- The program stores no other keys than those it has just read from a packet. -/
def Stores {α : Type} (cr : Crypto) (x : Routine α) : Prop :=
  ∀ g, x.wp cr.bodyRules g fun _ _ => True

section Stores

variable {α β : Type} {cr : Crypto}

theorem stores_pure {a : α} : cr.Stores (pure a) := fun _ => trivial

theorem stores_bind {x : Routine β} {f : β → Routine α} (hx : cr.Stores x)
    (hf : ∀ b, cr.Stores (f b)) : cr.Stores (x >>= f) := fun g => by
  rw [Prog.wp_bind]
  exact Prog.wp_mono bodyRules_mono (fun b g' _ => hf b g') (hx g)

theorem stores_of_allOps {x : Routine α} (hx : x.AllOps fun e => e.keepsKeys = true) :
    cr.Stores x := fun _ => by
  refine Prog.wp_of_allOps (J := fun _ => True) bodyRules_mono (fun he _ => ?_) hx trivial
  refine ⟨fun a k h => ?_, fun _ => trivial⟩
  rw [h] at he
  cases he

theorem stores_perform {e : Op} (he : e.keepsKeys = true) : cr.Stores (Routine.perform e) :=
  stores_of_allOps ⟨he, fun _ => trivial⟩

/-- A body is read, and the key in it is stored. -/
theorem stores_key {p : Nat} {f : Bytes → Routine α} {addr : GoString} {b : Bool}
    {rest : Unit → Routine α}
    (hnone : ∀ body, pubKeyOf body = none → cr.Stores (f body))
    (hsome : ∀ body pk, pubKeyOf body = some pk → f body =
      cr.computeSharedKey pk >>= fun shared =>
        Routine.perform (.setKeyStore addr ⟨b, shared, pk⟩) >>= rest)
    (hrest : ∀ u, cr.Stores (rest u)) : cr.Stores (Routine.data p >>= f) := fun _ => by
  refine ⟨(fun _ _ h => by cases h), fun body => ?_⟩
  show (f body).wp cr.bodyRules (some body) _
  cases hpk : pubKeyOf body with
  | none => exact hnone body hpk _
  | some pk =>
    rw [hsome body pk hpk]
    rcases computeSharedKey_cases cr pk with ⟨x, y, rfl, hcomp⟩ | ⟨-, hcomp⟩
    · rw [hcomp]
      refine ⟨fun a k h => ?_, fun u => hrest u _⟩
      cases h
      exact ⟨body, rfl, hpk, x, y, rfl, rfl⟩
    · rw [hcomp]
      exact ⟨(fun _ _ h => by cases h), fun r => r.elim⟩

theorem processKeyExResp_stores (jsonErr : Bytes → GoString) (addr : GoString) (resp : Nat) :
    cr.Stores (cr.processKeyExResp jsonErr addr resp) := by
  refine stores_key (fun body h => ?_) (fun body pk h => by rw [h]) fun _ => stores_pure
  rw [h]
  exact stores_pure

theorem keyExchangeServer_stores (ctx : TargetCtx) (pw : Nat) :
    cr.Stores (cr.keyExchangeServer ctx pw) := by
  refine stores_key (fun body h => ?_) (fun body pk h => by rw [h]) fun _ => ?_
  · rw [h]
    exact stores_pure
  · refine stores_of_allOps (Prog.allOps_bind (Routine.call_allOps rfl)
      fun _ => ?_)
    exact Prog.allOps_bind (Routine.call_allOps rfl) fun _ => trivial

end Stores

/-! ## 4. Runs -/

section Runs

variable {ε : Type} {cr : Crypto}

/-- The body goroutine `i` has read by its last operation. -/
def lastBody (i : Nat) (log : List (Entry Op Op.Res ε)) : Option Bytes :=
  (own i log).getLast?.bind fun y => bodyRead y.1 y.2

theorem lastBody_self (i : Nat) (log : List (Entry Op Op.Res ε)) (e : Op) (r : e.Res) :
    lastBody i (log ++ [.act i e r]) = bodyRead e r := by
  rw [lastBody, own_snoc_self, List.getLast?_concat]
  rfl

theorem lastBody_ne {i j : Nat} (hij : j ≠ i) (log : List (Entry Op Op.Res ε)) (e : Op)
    (r : e.Res) : lastBody i (log ++ [.act j e r]) = lastBody i log := by
  rw [lastBody, own_snoc_ne hij, lastBody]

theorem lastBody_env (i : Nat) (log : List (Entry Op Op.Res ε)) (a : ε) :
    lastBody i (log ++ [.env a]) = lastBody i log := by
  rw [lastBody, own_snoc_env, lastBody]

/-- The goroutine is about to store a key. -/
def storesNext (s : Sys Op Op.Res Endpoint ε) (i : Nat) : Bool :=
  match s.threads[i]? with
  | some (.op e _) => !e.keepsKeys
  | _ => false

/-- A goroutine that stores a key in this step has read it from a good body. -/
def FromGoodBody (s : Sys Op Op.Res Endpoint ε) : Event Choice ε → Prop
  | .env _ => True
  | .act i _ => storesNext s i = true → ∀ body ∈ lastBody i s.log, GoodBody body

instance (s : Sys Op Op.Res Endpoint ε) : (ev : Event Choice ε) → Decidable (FromGoodBody s ev)
  | .env _ => .isTrue trivial
  | .act _ _ => inferInstanceAs (Decidable (_ → _))

/-- Every key in the table is a point of the curve, with its secret. -/
def KeysValid (cr : Crypto) (t : KeyTable) : Prop :=
  ∀ a k, t.getKeyStore a = some k → cr.ValidKey k.pub k.shared

theorem keysValid_handle {s s' : Endpoint} {ch : Choice} {e : Op} {r : e.Res}
    (hs : cr.KeysValid s.keys) (he : ∀ a k, e = .setKeyStore a k → cr.ValidKey k.pub k.shared)
    (h : s.handle ch e = .ok (r, s')) : cr.KeysValid s'.keys := by
  cases hon : e.onKeys with
  | false =>
    rw [(Endpoint.handle_frame h).2.1 hon]
    exact hs
  | true =>
    cases e with
    | setKeyStore a k =>
      cases h
      intro b k' hk'
      rw [KeyTable.getKeyStore_setKeyStore] at hk'
      split at hk'
      · cases hk'
        exact he a k rfl
      · exact hs b k' hk'
    | setKeySent i b =>
      cases h
      intro a k hk
      rw [KeyTable.getKeyStore_setKeySent] at hk
      exact hs a k hk
    | _ => cases hon

theorem KeyIn.valid {k : KeyStore} {body : Bytes} (h : cr.KeyIn k (some body))
    (hgood : GoodBody body) : cr.ValidKey k.pub k.shared := by
  obtain ⟨bin, hbin, hpk, x, y, hxy, hshared⟩ := h
  cases hbin
  obtain ⟨x', y', hxy', hon⟩ := hgood k.pub hpk
  cases hxy.symm.trans hxy'
  exact ⟨x, y, hxy, hon, hshared⟩

variable {env : Endpoint → ε → Option (Endpoint × Option (Routine Unit))}

/-- The logic of the goroutines that store the keys they have read. -/
def bodyLogic (cr : Crypto) (hkeys : ∀ s a st t, env s a = some (st, t) → st.keys = s.keys)
    (hspawn : ∀ s a st t, env s a = some (st, some t) → cr.Stores t) :
    Logic (Machine.mk Endpoint.handle env) (Option Bytes) where
  rules := cr.bodyRules
  mono := bodyRules_mono
  inv s log gs := cr.KeysValid s.keys ∧ ∀ i g, gs[i]? = some g → g = lastBody i log
  final _ := True
  allowed := FromGoodBody
  mayCrash := True
  act := by
    intro s i ch e k gs g Φ ht ha hinv hg hrule
    obtain ⟨hvalid, hgs⟩ := hinv
    split
    · next r st hh =>
      refine ⟨bodyRead e r, hrule.2 r, keysValid_handle hvalid (fun a ks he => ?_) hh, ?_⟩
      · subst he
        have hin := hrule.1 a ks rfl
        have hlast := hgs i g hg
        have ⟨body, hbody, _⟩ := hin
        rw [hbody] at hin hlast
        have hnext : storesNext s i = true := by
          rw [storesNext, ht]
          rfl
        exact hin.valid (ha hnext body hlast.symm)
      · intro j g' hj
        rcases getElem?_set_cases hj with ⟨rfl, rfl⟩ | ⟨hij, hj⟩
        · exact (lastBody_self _ _ _ _).symm
        · rw [lastBody_ne hij]
          exact hgs j g' hj
    · trivial
    · trivial
  env := by
    intro s a gs st _ hinv he
    refine ⟨?_, fun i g hg => ?_⟩
    · rw [hkeys _ _ _ _ he]
      exact hinv.1
    · rw [lastBody_env]
      exact hinv.2 i g hg
  spawn := by
    intro s a gs st t _ _ hinv he
    refine ⟨lastBody gs.length s.log, hspawn _ _ _ _ he _, ?_, fun i g hg => ?_⟩
    · rw [hkeys _ _ _ _ he]
      exact hinv.1
    · rw [lastBody_env]
      rcases getElem?_snoc_cases hg with hg | ⟨rfl, rfl⟩
      · exact hinv.2 i g hg
      · rfl

/-- In a run in which only good bodies are stored, every key in the table is valid. -/
theorem keys_valid_of_run (hkeys : ∀ s a st t, env s a = some (st, t) → st.keys = s.keys)
    (hspawn : ∀ s a st t, env s a = some (st, some t) → cr.Stores t)
    {evs : List (Event Choice ε)} {s' : Sys Op Op.Res Endpoint ε}
    (hrun : (Machine.mk Endpoint.handle env).run ⟨Endpoint.init, [], []⟩ evs = .ok s')
    (hgood : (Machine.mk Endpoint.handle env).EachAllowed FromGoodBody ⟨Endpoint.init, [], []⟩ evs) :
    cr.KeysValid s'.state.keys := by
  have hstart : (bodyLogic cr hkeys hspawn).Holds ⟨Endpoint.init, [], []⟩ := by
    refine ⟨[], rfl, ⟨fun a k hk => ?_, ?_⟩, ?_⟩
    · cases hk
    · exact fun i g hg => by cases hg
    · exact fun i t g ht => by cases ht
  obtain ⟨gs, -, ⟨hvalid, -⟩, -⟩ := (bodyLogic cr hkeys hspawn).run_holds hstart hgood hrun
  exact hvalid

end Runs

/-! ## 5. Servers and clients -/

/-- No pipeline of transforms stores other keys than it reads. -/
def DataStores (cr : Crypto) (data : GoString → List BufferTransform) : Prop :=
  ∀ name, ∀ t ∈ data name, ∀ ctx bin, cr.Stores (t ctx bin)

/-- No callback stores other keys than it reads. -/
def QueuesStore (cr : Crypto) (queues : GoString → Option (List TargetCallback)) : Prop :=
  ∀ name cbs, queues name = some cbs → ∀ cb ∈ cbs, ∀ ctx pw, cr.Stores (cb ctx pw)

section Endpoints

variable {cr : Crypto} {svr : UDPServer} {c : UDPClient}

/-- The transforms of the extension store no keys. -/
theorem dataStores_extend {data : GoString → List BufferTransform} (h : cr.DataStores data) :
    cr.DataStores (addTransform (addTransform data pipelineIn cr.decryptTransport) pipelineOut
      cr.encryptTransport) := by
  have hkeeps : ∀ e : Op, e.ofTransport = true → e.keepsKeys = true := fun e he => by
    cases e with
    | setKeyStore a k => cases he
    | _ => rfl
  intro name t ht ctx bin
  rcases mem_addTransform ht with ht | rfl
  · rcases mem_addTransform ht with ht | rfl
    · exact h name t ht ctx bin
    · exact stores_of_allOps ((decryptTransport_allOps cr ctx bin).mono hkeeps)
  · exact stores_of_allOps ((encryptTransport_allOps cr ctx bin).mono hkeeps)

theorem keyExchangeClient_stores (ctx : TargetCtx) (pw : Nat) :
    cr.Stores (keyExchangeClient ctx pw) := by
  refine stores_of_allOps (Prog.allOps_op rfl fun body => ?_)
  cases ipOf body with
  | none => exact Prog.allOps_pure _
  | some ip =>
    refine Prog.allOps_op rfl fun keys => ?_
    cases keys with
    | none => exact Prog.allOps_pure _
    | some k =>
      refine Prog.allOps_bind (Routine.call_allOps rfl) fun _ => ?_
      exact Prog.allOps_bind (Routine.call_allOps rfl) fun _ => trivial

/-- Of the callbacks of the extension, `keyExchangeServer` stores the key it reads. -/
theorem queuesStore_extend (h : cr.QueuesStore svr.queues) :
    cr.QueuesStore (cr.extendServer svr).queues := by
  intro name cbs hcbs cb hcb ctx pw
  rcases mem_addCallback hcbs hcb with ⟨cbs₁, hcbs₁, hcb₁⟩ | rfl
  · rcases mem_addCallback hcbs₁ hcb₁ with ⟨cbs₂, hcbs₂, hcb₂⟩ | rfl
    · exact h name cbs₂ hcbs₂ cb hcb₂ ctx pw
    · exact keyExchangeServer_stores ctx pw
  · exact keyExchangeClient_stores ctx pw

theorem ownEdits_keepsKeys : UDPServer.OwnEdits fun e => e.keepsKeys = true :=
  ⟨rfl, fun _ => rfl, fun _ _ _ => rfl, fun _ _ => rfl, fun _ => rfl⟩

theorem processData_stores {data : GoString → List BufferTransform} (h : cr.DataStores data)
    (ctx : TransformContext) (bin : Bytes) : cr.Stores (processData data ctx bin) := fun _ =>
  processTransforms_wp (J := fun _ _ => True) bodyRules_mono
    (fun t ht ctx bin g _ => h _ t ht ctx bin g) trivial

theorem processPacket_stores (h : cr.QueuesStore svr.queues) (ctx : TargetCtx) (pw : Nat) :
    cr.Stores (processPacket svr.queues ctx pw) := fun _ =>
  processPacket_wp (J := fun _ _ => True) bodyRules_mono
    (fun name cbs hcbs cb hcb ctx g _ => h name cbs hcbs cb hcb ctx pw g) trivial

theorem stores_newPkt (ref dest : GoString) : cr.Stores (Routine.newPkt ref dest) :=
  stores_of_allOps (ownEdits_keepsKeys.newPkt ref dest)

theorem stores_sendErr (ref dest msg : GoString) : cr.Stores (UDPServer.sendErr ref dest msg) :=
  stores_of_allOps (UDPServer.sendErr_allOps ownEdits_keepsKeys ref dest msg)

theorem stores_read (p : Nat) (r : PktRead) : cr.Stores (Routine.perform (.read p r)) :=
  stores_perform rfl

theorem stores_putBack (p : Nat) : cr.Stores (Routine.putBack p) :=
  stores_perform rfl

theorem stores_unmarshal (p : Nat) (bin : Bytes) : cr.Stores (Routine.unmarshal p bin) :=
  stores_perform rfl

theorem serveRequest_stores (h : cr.QueuesStore svr.queues) (sender : GoString) (pkt : Nat) :
    cr.Stores (svr.serveRequest sender pkt) := by
  refine stores_bind (stores_read _ _) fun ref => stores_bind (stores_newPkt _ _) fun resp => ?_
  refine stores_bind (stores_read _ _) fun target => ?_
  refine stores_bind (processPacket_stores h _ resp) fun r => ?_
  obtain ⟨ctx, err⟩ := r
  cases err with
  | some err => exact stores_bind (stores_putBack resp) fun _ => stores_sendErr _ _ _
  | none => exact stores_of_allOps (UDPServer.dispatch_allOps ownEdits_keepsKeys ctx resp)

theorem serverIncoming_stores (hdata : cr.DataStores svr.data) (h : cr.QueuesStore svr.queues)
    (bin : Bytes) (sender : GoString) : cr.Stores (svr.processIncoming bin sender) := by
  refine stores_bind (processData_stores hdata _ bin) fun r => ?_
  obtain ⟨ctx, bin, err⟩ := r
  cases err with
  | some err => exact stores_sendErr _ _ _
  | none =>
    simp only
    split
    · exact stores_pure
    refine stores_bind (stores_newPkt _ _) fun pkt => ?_
    refine stores_bind (stores_unmarshal pkt bin) fun err => ?_
    cases err with
    | some err => exact stores_bind (stores_sendErr _ _ _) fun _ => stores_putBack pkt
    | none => exact stores_bind (serveRequest_stores h sender pkt) fun _ => stores_putBack pkt

theorem serverOutgoing_stores (hdata : cr.DataStores svr.data) (pkt : Nat) :
    cr.Stores (svr.processOutgoing pkt) := by
  refine stores_bind (stores_read _ _) fun bin => stores_bind (stores_read _ _) fun dest => ?_
  cases svr.resolve dest with
  | none => exact stores_putBack pkt
  | some addr =>
    refine stores_bind ?_ fun _ => stores_putBack pkt
    refine stores_bind (processData_stores hdata _ bin) fun r => ?_
    obtain ⟨ctx, bin, err⟩ := r
    cases err with
    | some err =>
      exact stores_bind (stores_read _ _) fun _ => stores_bind (stores_read _ _) fun _ =>
        stores_sendErr _ _ _
    | none =>
      simp only
      split
      · exact stores_perform rfl
      · exact stores_pure

/-- A new server has the relay callback only. -/
theorem queuesStore_new (resolve : GoString → Option Addr) :
    cr.QueuesStore (UDPServer.new resolve).queues := by
  intro name cbs hcbs cb hcb ctx pw
  have hnew : addCallback (fun _ => none) targetRelay relayCallback name = some cbs := hcbs
  rcases mem_addCallback hnew hcb with ⟨cbs₀, hnone, -⟩ | rfl
  · cases hnone
  · exact stores_of_allOps (UDPServer.relayCallback_allOps ownEdits_keepsKeys ctx pw)

theorem server_keys_valid (hdata : cr.DataStores svr.data) (hq : cr.QueuesStore svr.queues)
    {evs : List (Event Choice UDPServer.Env)} {s' : Sys Op Op.Res Endpoint UDPServer.Env}
    (hrun : (cr.extendServer svr).machine.run UDPServer.start evs = .ok s')
    (hgood : (cr.extendServer svr).machine.EachAllowed FromGoodBody UDPServer.start evs) :
    cr.KeysValid s'.state.keys := by
  refine keys_valid_of_run (fun s a st t h => ?_) (fun s a st t h => ?_) hrun hgood
  · cases t with
    | none =>
      obtain ⟨n, -, rfl⟩ := UDPServer.env_quiet h
      rfl
    | some t =>
      rcases UDPServer.env_spawn h with ⟨_, _, -, rfl, -⟩ | ⟨p, -, -, rfl, -⟩
      · rfl
      · rfl
  · rcases UDPServer.env_spawn h with ⟨bin, sender, -, -, rfl⟩ | ⟨p, -, -, -, rfl⟩
    · exact serverIncoming_stores (dataStores_extend hdata) (queuesStore_extend hq) bin sender
    · exact serverOutgoing_stores (dataStores_extend hdata) p

/-- `Send` of a client. -/
theorem send_stores (hdata : cr.DataStores c.data) (pkt : Nat) (respCh : Option Nat) :
    cr.Stores (c.send pkt respCh) := by
  refine stores_bind ?_ fun ref => stores_bind (stores_read _ _) fun bin => ?_
  · refine stores_bind (stores_read _ _) fun ref => ?_
    split
    · refine stores_bind (stores_perform rfl) fun ref => ?_
      exact stores_bind (stores_of_allOps (Routine.call_allOps rfl))
        fun _ => stores_pure
    · exact stores_pure
  · refine stores_bind (processData_stores hdata _ bin) fun r => ?_
    obtain ⟨ctx, bin, err⟩ := r
    cases err with
    | some err => exact stores_pure
    | none =>
      simp only
      split
      · exact stores_pure
      · refine stores_bind (stores_perform rfl) fun _ => ?_
        exact stores_bind (stores_perform rfl) fun _ => stores_pure

/-- `ServerKEx` and `ClientKEx` differ in the packet they configure and in the text of their
error. -/
theorem exchange_stores (hdata : cr.DataStores c.data) {ops : List PktOp} (pkt ch : Nat)
    (jsonErr : Bytes → GoString) (addr : GoString) (text : GoString → GoString) :
    cr.Stores (do
      Routine.callAll pkt ops
      let _ ← c.send pkt (some ch)
      let resp ← Routine.perform (.receive ch)
      let err ← cr.processKeyExResp jsonErr addr resp
      return err.map text : Routine (Option GoString)) := by
  refine stores_bind (stores_of_allOps (Routine.callAll_allOps fun _ _ => rfl))
    fun _ => stores_bind (send_stores hdata _ _) fun _ => ?_
  refine stores_bind (stores_perform rfl) fun resp => ?_
  exact stores_bind (processKeyExResp_stores jsonErr addr resp) fun _ => stores_pure

theorem serverKEx_stores (hdata : cr.DataStores c.data) (jsonErr : Bytes → GoString)
    (svrAddr : GoString) (pkt kexResp : Nat) :
    cr.Stores (cr.serverKEx jsonErr c svrAddr pkt kexResp) :=
  exchange_stores hdata pkt kexResp jsonErr svrAddr _

theorem clientKEx_stores (hdata : cr.DataStores c.data) (jsonErr : Bytes → GoString)
    (clientAddr : GoString) (pkt respChan : Nat) :
    cr.Stores (cr.clientKEx jsonErr c clientAddr pkt respChan) :=
  exchange_stores hdata pkt respChan jsonErr clientAddr _

theorem clientIncoming_stores (hdata : cr.DataStores c.data) (bin : Bytes) :
    cr.Stores (c.processIncoming bin) := by
  refine stores_bind (processData_stores hdata _ bin) fun r => ?_
  obtain ⟨ctx, bin, err⟩ := r
  cases err with
  | some err => exact stores_pure
  | none =>
    refine stores_bind (stores_newPkt _ _) fun pkt => ?_
    refine stores_bind (stores_unmarshal pkt bin) fun err => ?_
    cases err with
    | some err => exact stores_pure
    | none =>
      refine stores_bind (stores_read _ _) fun ref => ?_
      refine stores_bind (stores_perform rfl) fun req => ?_
      split
      · exact stores_bind (stores_perform rfl) fun _ => stores_perform rfl
      · exact stores_bind (stores_perform rfl) fun _ => stores_perform rfl

theorem writeError_stores (respCh : Nat) (err : GoString) :
    cr.Stores (UDPClient.writeError respCh err) := by
  refine stores_bind (stores_of_allOps (ownEdits_keepsKeys.newErrPkt _ _ _)) fun p => ?_
  exact stores_bind (stores_perform rfl) fun _ =>
    stores_perform rfl

theorem client_keys_valid {α : Type} {app : α → Routine Unit} (hdata : cr.DataStores c.data)
    (happ : ∀ call, cr.Stores (app call)) {evs : List (Event Choice (UDPClient.Env α))}
    {s' : Sys Op Op.Res Endpoint (UDPClient.Env α)}
    (hrun : (c.machine app).run UDPClient.start evs = .ok s')
    (hgood : (c.machine app).EachAllowed FromGoodBody UDPClient.start evs) :
    cr.KeysValid s'.state.keys := by
  refine keys_valid_of_run (fun s a st t h => ?_) (fun s a st t h => ?_) hrun hgood
  · cases t with
    | none =>
      rcases UDPClient.env_quiet h with rfl | ⟨n, -, rfl⟩
      · rfl
      · rfl
    | some t =>
      rcases UDPClient.env_spawn h with ⟨_, -, rfl, -⟩ | ⟨_, -, rfl, -⟩ | ⟨_, _, _, -, -, -, rfl, -⟩
      · rfl
      · rfl
      · rfl
  · rcases UDPClient.env_spawn h with ⟨call, -, -, rfl⟩ | ⟨bin, -, -, rfl⟩ |
      ⟨err, w, respCh, -, -, -, -, rfl⟩
    · exact happ call
    · exact clientIncoming_stores hdata bin
    · exact writeError_stores respCh err

end Endpoints

end Crypto

/-- The keys that are stored are valid exactly for bodies that are no keys or valid ones. -/
theorem only_valid_keys_iff (cr : Crypto) :
    (∀ (s : Endpoint) (ctx : TargetCtx) (pw : Nat) (c : JSONPkt) (v : PktView),
      s.pkts.mem[ctx.pkt]? = some c → s.Has pw v →
      (cr.StoresValid s ctx.sender (cr.keyExchangeServer ctx pw)
        (fun ctx' => ctx'.stat = codeStopError) ↔ GoodBody c.data)) ∧
    (∀ (s : Endpoint) (jsonErr : Bytes → GoString) (addr : GoString) (resp : Nat) (c : JSONPkt),
      s.pkts.mem[resp]? = some c →
      (cr.StoresValid s addr (cr.processKeyExResp jsonErr addr resp) (fun r => r ≠ none) ↔
        GoodBody c.data)) ∧
    (∀ (svr : UDPServer) (evs : List (Event Choice UDPServer.Env))
      (s' : Sys Op Op.Res Endpoint UDPServer.Env), cr.DataStores svr.data →
      cr.QueuesStore svr.queues →
      (cr.extendServer svr).machine.run UDPServer.start evs = .ok s' →
      (cr.extendServer svr).machine.EachAllowed Crypto.FromGoodBody UDPServer.start evs →
      cr.KeysValid s'.state.keys) ∧
    ∀ (α : Type) (c : UDPClient) (app : α → Routine Unit)
      (evs : List (Event Choice (UDPClient.Env α)))
      (s' : Sys Op Op.Res Endpoint (UDPClient.Env α)), cr.DataStores c.data →
      (∀ call, cr.Stores (app call)) → (c.machine app).run UDPClient.start evs = .ok s' →
      (c.machine app).EachAllowed Crypto.FromGoodBody UDPClient.start evs →
      cr.KeysValid s'.state.keys :=
  ⟨fun _ _ _ _ _ hc hpw => Crypto.keyExchangeServer_valid_iff hc hpw,
    fun _ _ _ _ _ hc => Crypto.processKeyExResp_valid_iff hc,
    fun _ _ _ hdata hq hrun hgood => Crypto.server_keys_valid hdata hq hrun hgood,
    fun _ _ _ _ _ hdata happ hrun hgood => Crypto.client_keys_valid hdata happ hrun hgood⟩

/-- The base point of the curve, as a body. -/
def basePoint : Bytes :=
  pubKeyText 0x6b17d1f2e12c4247f8bce6e563a440f277037d812deb33a0f4a13945d898c296
    0x4fe342e2fe1a7f9b8ee7eb4a7c0f9e162bce33576b315ececbb6406837bf51f5

/-- A server that gets a request for an exchange with the key in this body, and works on it until
the key is stored. -/
def storesFrom (body : Bytes) : List (Event Choice UDPServer.Env) :=
  .env (.datagram (PktView.marshal
    ⟨(JSONPkt.refMeta (ascii "r")).set keyTarget Crypto.targetKeyExchangeServer,
      Base64.encode body, body, []⟩) (ascii "peer")) ::
  List.replicate 16 (.act 0 ⟨0, none⟩)

/-- The server of these runs. -/
def keyServer : UDPServer := UDPServer.new fun _ => none

/-- The base point is stored, and is valid. -/
theorem base_point_stored :
    ∃ s', ((Crypto.transparent 1).extendServer keyServer).machine.run UDPServer.start
        (storesFrom basePoint) = .ok s' ∧
      (s'.state.keys.getKeyStore (ascii "peer")).isSome = true ∧
      (Crypto.transparent 1).KeysValid s'.state.keys := by
  have hrun : (((Crypto.transparent 1).extendServer keyServer).machine.run UDPServer.start
      (storesFrom basePoint)).result?.any
        (fun s => (s.state.keys.getKeyStore (ascii "peer")).isSome) = true := by
    decide +kernel
  have hgood : ((Crypto.transparent 1).extendServer keyServer).machine.EachAllowed
      Crypto.FromGoodBody UDPServer.start (storesFrom basePoint) := by
    decide +kernel
  rw [Option.any_eq_true] at hrun
  obtain ⟨s', hs', hkey⟩ := hrun
  have hrun := Outcome.eq_ok_of_result? hs'
  exact ⟨s', hrun, hkey, (only_valid_keys_iff _).2.2.1 keyServer _ s' (fun _ _ ht => by cases ht)
    (Crypto.queuesStore_new _) hrun hgood⟩

/-- A point that is not on the curve is stored, and a missing coordinate is dereferenced. -/
theorem hostile_keys_not_refused :
    (∃ s', ((Crypto.transparent 1).extendServer keyServer).machine.run UDPServer.start
        (storesFrom (pubKeyText 1 1)) = .ok s' ∧
      ¬ (Crypto.transparent 1).KeysValid s'.state.keys) ∧
    ((Crypto.transparent 1).extendServer keyServer).machine.run UDPServer.start
      (storesFrom (ascii "\x7b\x7d")) = .crash := by
  refine ⟨?_, Outcome.eq_crash_of_isCrash (by decide +kernel)⟩
  have hrun : (((Crypto.transparent 1).extendServer keyServer).machine.run UDPServer.start
      (storesFrom (pubKeyText 1 1))).result?.any (fun s =>
        (s.state.keys.getKeyStore (ascii "peer")).any fun k => k.pub = ⟨some 1, some 1⟩) = true := by
    decide +kernel
  rw [Option.any_eq_true] at hrun
  obtain ⟨s', hs', hkey⟩ := hrun
  rw [Option.any_eq_true] at hkey
  obtain ⟨k, hk, hpub⟩ := hkey
  refine ⟨s', Outcome.eq_ok_of_result? hs', fun hvalid => ?_⟩
  obtain ⟨x, y, hxy, hon, -⟩ := hvalid _ k hk
  rw [of_decide_eq_true hpub] at hxy
  cases hxy
  exact absurd hon (by decide +kernel)

end Concord
