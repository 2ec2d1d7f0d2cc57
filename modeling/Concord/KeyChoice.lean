import Concord.UDPClient

/-!
# Which key protects a packet

`encryptTransport` looks the key up under the string `Dest()` holds, while the bytes
go to the address that string resolves to (`processOutgoing`) or to the server
address of the client (`Send`). Nothing ties the two together: another spelling of
an address finds no key, and on a client the destination may even name another peer.

`sealed_under_peer_key_iff`: on both endpoints the bytes written to an address with a
stored key are sealed under that key exactly when the entry under `Dest()` holds the
same key (or a key AES does not accept, for then nothing is written).
-/

namespace Concord

open Go

/-- The operations of a routine that ran alone, with their results. -/
abbrev Trace := List ((e : Op) × e.Res)

/-! ## 1. Single operations -/

section Ops

variable {s s' : Endpoint} {tr : Trace} {α : Type} {a : α} {p : Nat} {c : JSONPkt}

theorem execs_read (hp : s.pkts.mem[p]? = some c) {r : PktRead} {f : Bytes → Routine α} :
    Execs Endpoint.handle (Routine.perform (.read p r) >>= f) s tr a s' ↔
      ∃ tr', Execs Endpoint.handle (f (r.eval c)) s tr' a s' ∧ tr = ⟨.read p r, r.eval c⟩ :: tr' :=
  execs_det fun _ => by simp only [Endpoint.handle, hp]

theorem exists_execs_read (hp : s.pkts.mem[p]? = some c) {r : PktRead} {f : Bytes → Routine α}
    {P : Trace → Prop}
    (h : ∃ tr, Execs Endpoint.handle (f (r.eval c)) s tr a s' ∧ P (⟨.read p r, r.eval c⟩ :: tr)) :
    ∃ tr, Execs Endpoint.handle (Routine.perform (.read p r) >>= f) s tr a s' ∧ P tr :=
  exists_execs_det (fun _ => by simp only [Endpoint.handle, hp]) h

theorem execs_getKeyStore {b : GoString} {f : Option KeyRef → Routine α} :
    Execs Endpoint.handle (Routine.perform (.getKeyStore b) >>= f) s tr a s' ↔
      ∃ tr', Execs Endpoint.handle (f (s.keys.getKeyStore b)) s tr' a s' ∧
        tr = ⟨.getKeyStore b, s.keys.getKeyStore b⟩ :: tr' :=
  execs_det fun _ => rfl

theorem execs_getKeySent {i : Nat} {f : Bool → Routine α} :
    Execs Endpoint.handle (Routine.perform (.getKeySent i) >>= f) s tr a s' ↔
      ∃ tr', Execs Endpoint.handle (f (s.keys.getKeySent i)) s tr' a s' ∧
        tr = ⟨.getKeySent i, s.keys.getKeySent i⟩ :: tr' :=
  execs_det fun _ => rfl

theorem execs_readNonce {f : Option Bytes → Routine α} :
    Execs Endpoint.handle (Routine.perform .readNonce >>= f) s tr a s' ↔
      ∃ r tr', (∀ n, r = some n → n.length = Endpoint.nonceSize) ∧
        Execs Endpoint.handle (f r) s tr' a s' ∧ tr = ⟨.readNonce, r⟩ :: tr' := by
  constructor
  · intro h
    obtain ⟨ch, r, s₁, tr', hh, h, rfl⟩ := execs_op.mp h
    cases hh
    refine ⟨_, tr', fun n hn => ?_, h, rfl⟩
    simpa using (Option.filter_eq_some_iff.mp hn).2
  · rintro ⟨r, tr', hr, h, rfl⟩
    refine Execs.op (c := ⟨0, r⟩) ?_ h
    have hfilter : r.filter (fun n => n.length = Endpoint.nonceSize) = r := by
      cases r with
      | none => rfl
      | some n => simp [hr n rfl]
    simp only [Endpoint.handle, hfilter]

end Ops

/-! ## 2. The transform -/

/-- What `encryptTransport` makes of a buffer for `dest`, all keys of the table being
sent. -/
def Protected (cr : Crypto) (t : KeyTable) (dest : GoString) (buff out : Bytes) : Prop :=
  match t.getKeyStore dest with
  | none => out = buff
  | some k => aesKeySize (bigBytes k.shared).length = true ∧ ∃ nonce,
      nonce.length = Endpoint.nonceSize ∧ out = cr.aead.sealText (bigBytes k.shared) nonce buff

/-- The operation shows nothing of the packet's bytes to the outside. -/
def Op.internal : Op → Bool
  | .read _ .marshal | .dist _ _ | .writeStream _ _ => false
  | _ => true

section Transform

variable {cr : Crypto} {s s' : Endpoint} {tr : Trace} {p : Nat} {c : JSONPkt}
  {ctx : TransformContext} {buff : Bytes}

theorem encryptAES_execs {a : AEAD} {key : Bytes} {r : Except GoString Bytes}
    (h : Execs Endpoint.handle (encryptAES a key buff) s tr r s') :
    s' = s ∧ ∀ out, r = .ok out → aesKeySize key.length = true ∧ ∃ nonce,
      nonce.length = Endpoint.nonceSize ∧ out = a.sealText key nonce buff := by
  unfold encryptAES at h
  split at h
  · next hkey =>
    obtain ⟨n, tr', hn, hf, -⟩ := execs_readNonce.mp h
    cases n with
    | none =>
      obtain ⟨-, rfl, rfl⟩ := execs_pure.mp hf
      exact ⟨rfl, nofun⟩
    | some nonce =>
      obtain ⟨-, rfl, rfl⟩ := execs_pure.mp hf
      refine ⟨rfl, fun out hout => ?_⟩
      cases hout
      exact ⟨hkey, nonce, hn nonce rfl, rfl⟩
  · obtain ⟨-, rfl, rfl⟩ := execs_pure.mp h
    exact ⟨rfl, nofun⟩

theorem exists_encryptAES {a : AEAD} {key nonce : Bytes} (hkey : aesKeySize key.length = true)
    (hn : nonce.length = Endpoint.nonceSize) :
    ∃ tr, Execs Endpoint.handle (encryptAES a key buff) s tr (.ok (a.sealText key nonce buff)) s := by
  unfold encryptAES
  rw [if_pos hkey]
  exact ⟨_, execs_readNonce.mpr ⟨some nonce, [], fun n h => Option.some.inj h ▸ hn, .ret _ _, rfl⟩⟩

theorem encryptTransport_internal (ctx : TransformContext) (buff : Bytes) :
    (cr.encryptTransport ctx buff).AllOps fun e => e.internal = true :=
  (encryptTransport_allOps cr ctx buff).mono fun e he => by
    cases e with
    | read p r => cases r <;> first | rfl | cases he
    | dist data addr => cases he
    | writeStream data respCh => cases he
    | _ => rfl

variable (hp : s.pkts.mem[p]? = some c) (hctx : ctx.pkt = some p)
  (hskip : Crypto.isSkip (c.metaGet Crypto.keyNoCrypto) = false)
  (hsent : ∀ a k, s.keys.getKeyStore a = some k → s.keys.getKeySent k.id = true)

include hp hctx hskip hsent in
theorem encryptTransport_execs {r : TransformContext × Bytes}
    (h : Execs Endpoint.handle (cr.encryptTransport ctx buff) s tr r s') :
    s' = s ∧ (r.1.stat = codeStopError ∨
      r.1 = ctx ∧ Protected cr s.keys c.dest buff r.2) := by
  unfold Crypto.encryptTransport at h
  rw [hctx] at h
  obtain ⟨tr₁, h₁, -⟩ := (execs_read hp).mp h
  rw [if_neg (by simpa [PktRead.eval] using hskip)] at h₁
  obtain ⟨tr₂, h₂, -⟩ := (execs_read hp).mp h₁
  obtain ⟨tr₃, h₃, -⟩ := execs_getKeyStore.mp h₂
  unfold Protected
  cases hk : s.keys.getKeyStore c.dest with
  | none =>
    rw [PktRead.eval, hk] at h₃
    obtain ⟨-, rfl, rfl⟩ := execs_pure.mp h₃
    exact ⟨rfl, .inr ⟨rfl, rfl⟩⟩
  | some k =>
    rw [PktRead.eval, hk] at h₃
    obtain ⟨tr₄, h₄, -⟩ := execs_getKeySent.mp h₃
    rw [if_pos (hsent _ k hk)] at h₄
    obtain ⟨tr₅, res, s₁, tr₆, he, h₅, -⟩ := execs_bind.mp h₄
    obtain ⟨rfl, hres⟩ := encryptAES_execs he
    cases res with
    | error err =>
      obtain ⟨-, rfl, rfl⟩ := execs_pure.mp h₅
      exact ⟨rfl, .inl rfl⟩
    | ok out =>
      obtain ⟨-, rfl, rfl⟩ := execs_pure.mp h₅
      exact ⟨rfl, .inr ⟨rfl, hres out rfl⟩⟩

include hp hctx hskip hsent in
theorem exists_encryptTransport {out : Bytes} (h : Protected cr s.keys c.dest buff out) :
    ∃ tr, Execs Endpoint.handle (cr.encryptTransport ctx buff) s tr (ctx, out) s ∧ True := by
  unfold Crypto.encryptTransport
  rw [hctx]
  refine exists_execs_read hp ?_
  rw [if_neg (by simpa [PktRead.eval] using hskip)]
  refine exists_execs_read hp (exists_execs_det (fun _ => rfl) ?_)
  unfold Protected at h
  rw [PktRead.eval]
  cases hk : s.keys.getKeyStore c.dest with
  | none =>
    rw [hk] at h
    subst h
    exact ⟨[], .ret _ _, trivial⟩
  | some k =>
    rw [hk] at h
    obtain ⟨hkey, nonce, hn, rfl⟩ := h
    obtain ⟨tr, he⟩ := exists_encryptAES (s := s) (a := cr.aead) hkey hn
    refine exists_execs_det (fun _ => rfl) ?_
    rw [if_pos (hsent _ k hk)]
    exact exists_execs_bind he ⟨[], .ret _ _, trivial⟩

theorem outPipeline_internal {r : TransformContext × Bytes × Option GoString}
    (h : Execs Endpoint.handle (processTransforms [cr.encryptTransport] ctx buff) s tr r s') :
    ∀ y ∈ tr, y.1.internal = true := by
  have hops : (processTransforms [cr.encryptTransport] ctx buff).AllOps fun e => e.internal = true :=
    processTransforms_allOps (fun t ht ctx data => List.mem_singleton.mp ht ▸
      encryptTransport_internal ctx data) ctx buff
  exact h.allOps hops

include hp hctx hskip hsent in
theorem outPipeline_execs (hstat : ctx.stat = codeContinue)
    {r : TransformContext × Bytes × Option GoString}
    (h : Execs Endpoint.handle (processTransforms [cr.encryptTransport] ctx buff) s tr r s') :
    s' = s ∧ (r.2.2 = none → r.1 = ctx ∧ Protected cr s.keys c.dest buff r.2.1) := by
  obtain ⟨tr₁, x, s₁, tr₂, ht, hf, -⟩ := execs_bind.mp h
  obtain ⟨rfl, hx⟩ := encryptTransport_execs hp hctx hskip hsent ht
  obtain ⟨ctx', out⟩ := x
  simp only at hx hf
  rcases hx with herr | ⟨rfl, hprot⟩
  · rw [if_pos herr] at hf
    obtain ⟨-, rfl, rfl⟩ := execs_pure.mp hf
    exact ⟨rfl, nofun⟩
  · rw [hstat] at hf
    obtain ⟨-, rfl, rfl⟩ := execs_pure.mp hf
    exact ⟨rfl, fun _ => ⟨rfl, hprot⟩⟩

include hp hctx hskip hsent in
theorem exists_outPipeline (hstat : ctx.stat = codeContinue) {out : Bytes}
    (h : Protected cr s.keys c.dest buff out) :
    ∃ tr, Execs Endpoint.handle (processTransforms [cr.encryptTransport] ctx buff) s tr
      (ctx, out, none) s := by
  obtain ⟨tr, ht, -⟩ := exists_encryptTransport hp hctx hskip hsent h
  refine ⟨tr ++ [], execs_bind.mpr ⟨tr, _, s, [], ht, ?_, rfl⟩⟩
  simp only [hstat]
  exact .ret _ _

end Transform

/-! ## 3. The server -/

section Server

variable {cr : Crypto} {svr : UDPServer} {s : Endpoint} {p : Nat} {c : JSONPkt}
  (hout : svr.data pipelineOut = []) (hp : s.pkts.mem[p]? = some c)
  (hskip : Crypto.isSkip (c.metaGet Crypto.keyNoCrypto) = false)
  (hsent : ∀ a k, s.keys.getKeyStore a = some k → s.keys.getKeySent k.id = true)

/-- An operation that writes nothing to the network. -/
def Op.unsent : Op → Bool
  | .dist _ _ | .writeStream _ _ => false
  | _ => true

theorem not_mem_of_ops {q : Op → Bool} {tr : Trace} {y : (e : Op) × e.Res}
    (h : ∀ y ∈ tr, q y.1 = true) (hy : q y.1 = false) : y ∉ tr := fun hm => by
  rw [h y hm] at hy
  cases hy

/-- The error path of `processOutgoing`. -/
theorem errOps_unsent (pkt : Nat) (err : GoString) :
    (do let ref ← Routine.metaGet pkt keyRef
        let dest ← Routine.dest pkt
        UDPServer.sendErr ref dest (ascii "pipeline error: " ++ err) :
      Routine Unit).AllOps fun e => e.unsent = true :=
  Prog.allOps_op rfl fun _ => Prog.allOps_op rfl fun _ =>
    UDPServer.sendErr_allOps (P := fun e => e.unsent = true)
      ⟨rfl, fun _ => rfl, fun _ _ _ => rfl, fun _ _ => rfl, fun _ => rfl⟩ _ _ _

include hout hp hskip hsent in
/-- What `processOutgoing` can write for a packet. -/
theorem processOutgoing_writes_iff {data : Bytes} {addr : Addr} :
    (∃ tr s', Execs Endpoint.handle ((cr.extendServer svr).processOutgoing p) s tr () s' ∧
      ⟨.dist data addr, ()⟩ ∈ tr) ↔
    svr.resolve c.dest = some addr ∧ Protected cr s.keys c.dest c.marshal data := by
  constructor
  · rintro ⟨tr, s', h, hmem⟩
    obtain ⟨tr₁, h₁, rfl⟩ := (execs_read hp).mp h
    obtain ⟨tr₂, h₂, rfl⟩ := (execs_read hp).mp h₁
    have hmem₂ : ⟨.dist data addr, ()⟩ ∈ tr₂ := by simpa using hmem
    have hput : ∀ {s₁ tr' s'}, Execs Endpoint.handle (Routine.putBack p) s₁ tr' () s' →
        ⟨.dist data addr, ()⟩ ∉ tr' := fun h =>
      not_mem_of_ops (q := Op.unsent)
        (h.allOps (P := fun e => e.unsent = true) ⟨rfl, fun _ => trivial⟩) rfl
    simp only [PktRead.eval] at h₂
    cases haddr : (cr.extendServer svr).resolve c.dest with
    | none =>
      rw [haddr] at h₂
      exact absurd hmem₂ (hput h₂)
    | some addr' =>
      rw [haddr] at h₂
      obtain ⟨tr₃, _, s₃, tr₄, ht, hlast, rfl⟩ := execs_bind.mp h₂
      obtain ⟨tr₅, r, s₅, tr₆, hpipe, hw, rfl⟩ := execs_bind.mp ht
      rw [processData, Crypto.extendServer_out hout] at hpipe
      obtain ⟨rfl, hprot⟩ := outPipeline_execs hp rfl hskip hsent rfl hpipe
      have hnot := not_mem_of_ops (q := Op.internal) (y := ⟨.dist data addr, ()⟩)
        (outPipeline_internal hpipe) rfl
      have hmem₆ : ⟨.dist data addr, ()⟩ ∈ tr₆ := by simpa [hnot, hput hlast] using hmem₂
      obtain ⟨ctx, out, err⟩ := r
      cases err with
      | some err =>
        exact absurd hmem₆ (not_mem_of_ops (q := Op.unsent) (hw.allOps (errOps_unsent p _)) rfl)
      | none =>
        obtain ⟨rfl, hprot⟩ := hprot rfl
        obtain ⟨c', _, s', tr', hh, hret, rfl⟩ := execs_op.mp hw
        obtain ⟨rfl, -, -⟩ := execs_pure.mp hret
        cases List.mem_singleton.mp hmem₆
        exact ⟨haddr, hprot⟩
  · rintro ⟨haddr, hprot⟩
    let ctx : TransformContext := { pkt := some p, pipelineName := pipelineOut }
    obtain ⟨tr, hpipe⟩ : ∃ tr, Execs Endpoint.handle (processTransforms [cr.encryptTransport] ctx
        c.marshal) s tr (ctx, data, none) s := exists_outPipeline hp rfl hskip hsent rfl hprot
    rw [← Crypto.extendServer_out hout] at hpipe
    have hsend : Execs Endpoint.handle ((cr.extendServer svr).transmit p c.marshal addr) s
        (tr ++ [⟨.dist data addr, ()⟩]) () s :=
      execs_bind.mpr ⟨tr, _, s, _, hpipe, .op (c := {}) rfl (.ret _ _), rfl⟩
    have hrun : ∃ tr, Execs Endpoint.handle ((cr.extendServer svr).processOutgoing p) s tr ()
        { s with pkts := s.pkts.put p } ∧ ⟨.dist data addr, ()⟩ ∈ tr := by
      refine exists_execs_read hp (exists_execs_read hp ?_)
      simp only [PktRead.eval, show (cr.extendServer svr).resolve c.dest = some addr from haddr]
      exact exists_execs_bind hsend ⟨_, .op (c := {}) rfl (.ret _ _), by simp⟩
    obtain ⟨tr, h⟩ := hrun
    exact ⟨tr, _, h⟩

end Server

/-! ## 4. The client -/

section Client

variable {cr : Crypto} {cl : UDPClient} {s s' : Endpoint} {p : Nat} {c : JSONPkt} {tr : Trace}

theorem ensureRef_internal (p : Nat) :
    (UDPClient.ensureRef p).AllOps fun e => e.internal = true := by
  refine Prog.allOps_op rfl fun ref => Prog.allOps_ite (fun _ => ?_) fun _ => trivial
  exact Prog.allOps_op rfl fun ref => Prog.allOps_bind
    (Routine.call_allOps (P := fun e => e.internal = true) rfl) fun _ => trivial

/-- The packet with its ref is for the same destination, and as much to be skipped as
before. -/
theorem ensureRef_execs (hp : s.pkts.mem[p]? = some c) {ref : GoString}
    (h : Execs Endpoint.handle (UDPClient.ensureRef p) s tr ref s') :
    s'.keys = s.keys ∧ s'.writing = s.writing ∧ s'.failing = s.failing ∧
      ∃ c', s'.pkts.mem[p]? = some c' ∧ c'.dest = c.dest ∧
        c'.metaGet Crypto.keyNoCrypto = c.metaGet Crypto.keyNoCrypto := by
  obtain ⟨tr₁, h₁, -⟩ := (execs_read hp).mp h
  split at h₁
  · obtain ⟨ch, ref', s₂, tr₂, hgen, h₂, -⟩ := execs_perform.mp h₁
    have hs₂ : s₂ = s := by
      simp only [Endpoint.handle] at hgen
      split at hgen
      · cases hgen
      · split at hgen
        · cases hgen
          rfl
        · cases hgen
    subst hs₂
    obtain ⟨tr₃, _, s₃, tr₄, hadd, h₃, -⟩ := execs_bind.mp h₂
    obtain ⟨-, -, rfl⟩ := execs_pure.mp h₃
    obtain ⟨ch', r, s₄, tr₅, hcall, h₄, -⟩ := execs_perform.mp hadd
    obtain ⟨-, -, rfl⟩ := execs_pure.mp h₄
    obtain ⟨pkt, q, hpkt, hq, -, rfl⟩ := Endpoint.handle_call_ok hcall
    cases hp.symm.trans hpkt
    refine ⟨rfl, rfl, rfl, q, ?_, JSONPkt.metaAdd_dest hq, ?_⟩
    · exact List.getElem?_set_self (List.getElem?_eq_some_iff.mp hpkt).1
    · rw [JSONPkt.metaGet_metaAdd hq, if_neg (by decide)]
  · obtain ⟨-, -, rfl⟩ := execs_pure.mp h₁
    exact ⟨rfl, rfl, rfl, c, hp, rfl, rfl⟩

theorem exists_ensureRef (hp : s.pkts.mem[p]? = some c) (hmap : c.kvMeta ≠ none) :
    ∃ tr ref s', Execs Endpoint.handle (UDPClient.ensureRef p) s tr ref s' := by
  by_cases href : c.metaGet keyRef = []
  · obtain ⟨r, hr⟩ := Option.ne_none_iff_exists'.mp hmap
    let ref := ascii "aaaaa"
    let s₁ := { s with pkts := s.pkts.setPkt p (c.modifyMap r fun m => m.set keyRef ref) }
    have hadd : s.handle {} (.call p (.metaAdd keyRef ref)) = .ok (none, s₁) := by
      simp only [Endpoint.handle, hp, PktOp.apply, JSONPkt.metaAdd, hr, Option.map_some]
      rfl
    have hcall : Execs Endpoint.handle (Routine.call p (.metaAdd keyRef ref)) s
        [⟨.call p (.metaAdd keyRef ref), none⟩] () s₁ :=
      execs_perform.mpr ⟨{}, _, s₁, [], hadd, .ret _ _, rfl⟩
    obtain ⟨tr, hgen⟩ : ∃ tr, Execs Endpoint.handle (do
        let ref ← Routine.perform .genRef
        Routine.call p (.metaAdd keyRef ref)
        return ref : Routine GoString) s tr ref s₁ :=
      ⟨_, execs_perform.mpr ⟨⟨0, some ref⟩, ref, s, _, rfl,
        execs_bind.mpr ⟨_, (), _, [], hcall, .ret _ _, rfl⟩, rfl⟩⟩
    refine ⟨_ :: tr, ref, s₁, (execs_read hp).mpr ⟨tr, ?_, rfl⟩⟩
    rw [PktRead.eval, if_pos href]
    exact hgen
  · refine ⟨[⟨.read p (.metaGet keyRef), c.metaGet keyRef⟩], c.metaGet keyRef, s, ?_⟩
    refine (execs_read hp).mpr ⟨[], ?_, rfl⟩
    rw [PktRead.eval, if_neg href]
    exact .ret _ _

variable (hout : cl.data pipelineOut = []) (hp : s.pkts.mem[p]? = some c)
  (hskip : Crypto.isSkip (c.metaGet Crypto.keyNoCrypto) = false)
  (hsent : ∀ a k, s.keys.getKeyStore a = some k → s.keys.getKeySent k.id = true)

include hout hp hskip hsent in
/-- What `Send` hands to the writer for the bytes `bin` it has marshalled. -/
theorem send_writes {respCh ch : Option Nat} {data bin : Bytes} {r : Option GoString}
    (h : Execs Endpoint.handle ((cr.extendClient cl).send p respCh) s tr r s')
    (hdata : ⟨.writeStream data ch, ()⟩ ∈ tr) (hbin : ⟨.read p .marshal, bin⟩ ∈ tr) :
    Protected cr s.keys c.dest bin data := by
  obtain ⟨tr₁, ref, s₁, tr₂, href, h₁, rfl⟩ := execs_bind.mp h
  obtain ⟨hkeys, -, -, c', hp', hdest, hmeta⟩ := ensureRef_execs hp href
  obtain ⟨tr₃, h₂, rfl⟩ := (execs_read hp').mp h₁
  obtain ⟨tr₄, x, s₄, tr₅, hpipe, h₃, rfl⟩ := execs_bind.mp h₂
  rw [processData, Crypto.extendClient_out hout] at hpipe
  have hnot : ∀ {tr : Trace}, (∀ y ∈ tr, y.1.internal = true) →
      ⟨.writeStream data ch, ()⟩ ∉ tr ∧ ⟨.read p .marshal, bin⟩ ∉ tr := fun htr =>
    ⟨not_mem_of_ops (q := Op.internal) htr rfl, not_mem_of_ops (q := Op.internal) htr rfl⟩
  have href₁ := hnot (href.allOps (ensureRef_internal p))
  have hpipe₁ := hnot (outPipeline_internal hpipe)
  obtain ⟨rfl, hprot⟩ := outPipeline_execs hp' rfl (hmeta.symm ▸ hskip) (hkeys.symm ▸ hsent) rfl hpipe
  rw [hkeys, hdest] at hprot
  have hdata₅ : ⟨.writeStream data ch, ()⟩ ∈ tr₅ := by simpa [href₁.1, hpipe₁.1] using hdata
  obtain ⟨ctx, out, err⟩ := x
  cases err with
  | some err =>
    obtain ⟨rfl, -, -⟩ := execs_pure.mp h₃
    cases hdata₅
  | none =>
    obtain ⟨rfl, hprot⟩ := hprot rfl
    obtain ⟨_, _, s₆, tr₆, -, h₄, rfl⟩ := execs_perform.mp h₃
    obtain ⟨_, _, s₇, tr₇, -, h₅, rfl⟩ := execs_perform.mp h₄
    obtain ⟨rfl, -, -⟩ := execs_pure.mp h₅
    obtain ⟨rfl, -⟩ : data = out ∧ ch = respCh := by simpa using hdata₅
    have hbin' : @Eq (Op.Res (.read p .marshal)) bin (PktRead.eval c' .marshal) := by
      simpa [href₁.2, hpipe₁.2] using hbin
    obtain rfl : bin = c'.marshal := hbin'
    exact hprot

include hout hp hskip hsent in
/-- With the writer idle, `Send` goes through. -/
theorem exists_send (hmap : c.kvMeta ≠ none) (hw : s.writing = none) (hf : s.failing = false)
    (respCh : Option Nat) :
    ∃ bin, ∀ data, Protected cr s.keys c.dest bin data →
      ∃ tr r s', Execs Endpoint.handle ((cr.extendClient cl).send p respCh) s tr r s' ∧
        ⟨.writeStream data respCh, ()⟩ ∈ tr ∧ ⟨.read p .marshal, bin⟩ ∈ tr := by
  obtain ⟨tr₁, ref, s₁, href⟩ := exists_ensureRef hp hmap
  obtain ⟨hkeys, hw₁, hf₁, c', hp', hdest, hmeta⟩ := ensureRef_execs hp href
  refine ⟨c'.marshal, fun data hprot => ?_⟩
  rw [← hkeys, ← hdest] at hprot
  let ctx : TransformContext := { pkt := some p, pipelineName := pipelineOut }
  obtain ⟨tr₂, hpipe⟩ : ∃ tr, Execs Endpoint.handle (processTransforms [cr.encryptTransport] ctx
      c'.marshal) s₁ tr (ctx, data, none) s₁ :=
    exists_outPipeline hp' rfl (hmeta.symm ▸ hskip) (hkeys.symm ▸ hsent) rfl hprot
  rw [← Crypto.extendClient_out hout] at hpipe
  have hwrite : s₁.handle {} (.writeStream data respCh) =
      .ok ((), { s₁ with writing := some (data, respCh) }) := by
    simp [Endpoint.handle, hw₁, hf₁, hw, hf]
  have hrun : ∃ tr, Execs Endpoint.handle ((cr.extendClient cl).send p respCh) s tr none
      { s₁ with
        writing := some (data, respCh)
        requests := s₁.requests.set ref respCh } ∧
      (⟨.writeStream data respCh, ()⟩ ∈ tr ∧ ⟨.read p .marshal, c'.marshal⟩ ∈ tr) := by
    refine exists_execs_bind href (exists_execs_read hp' (exists_execs_bind hpipe ?_))
    exact ⟨_, .op hwrite (.op (c := {}) rfl (.ret _ _)), by simp [PktRead.eval]⟩
  obtain ⟨tr, h⟩ := hrun
  exact ⟨tr, _, _, h⟩

end Client

/-! ## 5. Both endpoints -/

/-- The entry under `dest` holds the key of `ck`, or one nothing can be sealed with. -/
def KeyAgrees (t : KeyTable) (dest : GoString) (ck : KeyRef) : Prop :=
  ∃ k, t.getKeyStore dest = some k ∧
    (aesKeySize (bigBytes k.shared).length = true → bigBytes k.shared = bigBytes ck.shared)

/-- `data` is a sealing of `plain` under the key of `ck`. -/
def SealedUnder (cr : Crypto) (ck : KeyRef) (plain data : Bytes) : Prop :=
  ∃ nonce, nonce.length = Endpoint.nonceSize ∧
    data = cr.aead.sealText (bigBytes ck.shared) nonce plain

/-- The plain bytes are too short to be a sealing of themselves. -/
theorem not_sealedUnder_self (cr : Crypto) (ck : KeyRef) (plain : Bytes) :
    ¬ SealedUnder cr ck plain plain := by
  rintro ⟨nonce, -, heq⟩
  have hlong : plain.length < (cr.aead.sealText (bigBytes ck.shared) nonce plain).length :=
    cr.aead.length_seal
  rw [← heq] at hlong
  exact absurd hlong (lt_irrefl _)

theorem sealedUnder_iff_agrees (cr : Crypto) (hone : cr.aead.OneKey) {t : KeyTable}
    {dest : GoString} (buff : Bytes) {ck : KeyRef} :
    (∀ out, Protected cr t dest buff out → SealedUnder cr ck buff out) ↔ KeyAgrees t dest ck := by
  unfold Protected KeyAgrees
  cases hk : t.getKeyStore dest with
  | none =>
    exact ⟨fun h => absurd (h buff rfl) (not_sealedUnder_self cr ck buff), by simp⟩
  | some k =>
    constructor
    · refine fun h => ⟨k, rfl, fun hkey => ?_⟩
      have hn : (List.replicate Endpoint.nonceSize (0 : UInt8)).length = Endpoint.nonceSize := by
        simp
      obtain ⟨nonce, hnonce, heq⟩ := h _ ⟨hkey, _, hn, rfl⟩
      exact hone hn hnonce heq
    · rintro ⟨k', hk', hagree⟩ out ⟨hkey, nonce, hn, rfl⟩
      cases hk'
      exact ⟨nonce, hn, by rw [hagree hkey]⟩

/-- The packet has not been excepted from encryption, and every key of the table has
been sent. -/
structure Encryptable (s : Endpoint) (p : Nat) (c : JSONPkt) : Prop where
  pkt : s.pkts.mem[p]? = some c
  unskipped : Crypto.isSkip (c.metaGet Crypto.keyNoCrypto) = false
  sent : ∀ a k, s.keys.getKeyStore a = some k → s.keys.getKeySent k.id = true

/-- On a server and on a client with nothing but the Crypto extension in their `_out_`
pipelines: whenever the packet is sent, the bytes written to an address with a stored
key are its marshalled bytes sealed under that key, if and only if the entry under
`Dest()` agrees with the one under that address. On the server the address is what
`Dest()` resolves to, on the client that of the server. -/
theorem sealed_under_peer_key_iff (cr : Crypto) (hone : cr.aead.OneKey) {svr : UDPServer}
    {cl : UDPClient} {s sc : Endpoint} {p pc : Nat} {c cc : JSONPkt} (hsvr : svr.data pipelineOut = [])
    (hcl : cl.data pipelineOut = []) (he : Encryptable s p c) (hec : Encryptable sc pc cc)
    (hmap : cc.kvMeta ≠ none) (hwriting : sc.writing = none) (hfailing : sc.failing = false) :
    ((∀ tr s' data addr ck,
        Execs Endpoint.handle ((cr.extendServer svr).processOutgoing p) s tr () s' →
        ⟨.dist data addr, ()⟩ ∈ tr → s.keys.getKeyStore addr = some ck →
        SealedUnder cr ck c.marshal data) ↔
      ∀ addr ck, svr.resolve c.dest = some addr → s.keys.getKeyStore addr = some ck →
        KeyAgrees s.keys c.dest ck) ∧
    ((∀ respCh tr r s' data ch bin ck,
        Execs Endpoint.handle ((cr.extendClient cl).send pc respCh) sc tr r s' →
        ⟨.writeStream data ch, ()⟩ ∈ tr → ⟨.read pc .marshal, bin⟩ ∈ tr →
        sc.keys.getKeyStore cl.addr = some ck → SealedUnder cr ck bin data) ↔
      ∀ ck, sc.keys.getKeyStore cl.addr = some ck → KeyAgrees sc.keys cc.dest ck) := by
  refine ⟨⟨fun h addr ck haddr hck => ?_, fun h tr s' data addr ck hex hmem hck => ?_⟩,
    ⟨fun h ck hck => ?_, fun h respCh tr r s' data ch bin ck hex hdata hbin hck => ?_⟩⟩
  · refine (sealedUnder_iff_agrees cr hone c.marshal).mp fun out hprot => ?_
    obtain ⟨tr, s', hex, hmem⟩ := (processOutgoing_writes_iff hsvr he.pkt he.unskipped he.sent).mpr
      ⟨haddr, hprot⟩
    exact h tr s' out addr ck hex hmem hck
  · obtain ⟨haddr, hprot⟩ := (processOutgoing_writes_iff hsvr he.pkt he.unskipped he.sent).mp
      ⟨tr, s', hex, hmem⟩
    exact (sealedUnder_iff_agrees cr hone c.marshal).mpr (h addr ck haddr hck) data hprot
  · obtain ⟨bin, hsend⟩ := @exists_send cr cl sc pc cc hcl hec.pkt hec.unskipped hec.sent hmap
      hwriting hfailing none
    refine (sealedUnder_iff_agrees cr hone bin).mp fun out hprot => ?_
    obtain ⟨tr, r, s', hex, hdata, hbin⟩ := hsend out hprot
    exact h none tr r s' out none bin ck hex hdata hbin hck
  · exact (sealedUnder_iff_agrees cr hone bin).mpr (h ck hck) data
      (send_writes hcl hec.pkt hec.unskipped hec.sent hex hdata hbin)

/-! ## 6. Two spellings -/

def loopback : Addr := ascii "127.0.0.1:4000"

/-- `net.ResolveUDPAddr` as far as it matters here. -/
def resolveLocal (dest : GoString) : Option Addr :=
  if dest = ascii "localhost:4000" then some loopback else some dest

theorem resolveLocal_localhost : resolveLocal (ascii "localhost:4000") = some loopback := if_pos rfl

theorem resolveLocal_loopback : resolveLocal loopback = some loopback := if_neg (by decide)

/-- A key is stored for `loopback` and has been sent, and packet 0 is for `dest`. -/
def endpointWith (dest : GoString) : Endpoint :=
  { Endpoint.init with
    pkts := ⟨[JSONPkt.new.setDest dest], [], by simp⟩
    keys := KeyTable.empty.setKeyStore loopback ⟨true, 2 ^ 127, ⟨none, none⟩⟩ }

theorem endpointWith_getKeyStore (dest a : GoString) :
    (endpointWith dest).keys.getKeyStore a =
      if a = loopback then some ⟨0, 2 ^ 127, ⟨none, none⟩⟩ else none := by
  rw [endpointWith, KeyTable.getKeyStore_setKeyStore]
  rfl

theorem endpointWith_encryptable (dest : GoString) :
    Encryptable (endpointWith dest) 0 (JSONPkt.new.setDest dest) where
  pkt := rfl
  unskipped := rfl
  sent a k hk := by
    rw [endpointWith_getKeyStore] at hk
    split at hk
    · cases hk
      rfl
    · cases hk

/-- Both endpoints write a packet for `localhost:4000` to `127.0.0.1:4000` as it is,
though the key for that address is in the table. -/
theorem localhost_plain :
    (∃ tr s' ck, Execs Endpoint.handle (((Crypto.transparent 5).extendServer
        (UDPServer.new resolveLocal)).processOutgoing 0) (endpointWith (ascii "localhost:4000")) tr ()
        s' ∧
      ⟨.dist (JSONPkt.new.setDest (ascii "localhost:4000")).marshal loopback, ()⟩ ∈ tr ∧
      (endpointWith (ascii "localhost:4000")).keys.getKeyStore loopback = some ck ∧
      ¬ SealedUnder (Crypto.transparent 5) ck (JSONPkt.new.setDest (ascii "localhost:4000")).marshal
        (JSONPkt.new.setDest (ascii "localhost:4000")).marshal) ∧
    ∃ tr r s' ck bin, Execs Endpoint.handle (((Crypto.transparent 5).extendClient
        (UDPClient.new loopback)).send 0 none) (endpointWith (ascii "localhost:4000")) tr r s' ∧
      ⟨.writeStream bin none, ()⟩ ∈ tr ∧ ⟨.read 0 .marshal, bin⟩ ∈ tr ∧
      (endpointWith (ascii "localhost:4000")).keys.getKeyStore loopback = some ck ∧
      ¬ SealedUnder (Crypto.transparent 5) ck bin bin := by
  have he := endpointWith_encryptable (ascii "localhost:4000")
  have hck : (endpointWith (ascii "localhost:4000")).keys.getKeyStore loopback =
      some ⟨0, 2 ^ 127, ⟨none, none⟩⟩ := by rw [endpointWith_getKeyStore, if_pos rfl]
  have hplain : ∀ buff, Protected (Crypto.transparent 5)
      (endpointWith (ascii "localhost:4000")).keys (ascii "localhost:4000") buff buff := by
    intro buff
    rw [Protected, endpointWith_getKeyStore, if_neg (by decide)]
  constructor
  · obtain ⟨tr, s', hex, hmem⟩ := (@processOutgoing_writes_iff (Crypto.transparent 5)
      (UDPServer.new resolveLocal) _ _ _ rfl he.pkt he.unskipped he.sent _ loopback).mpr
      ⟨resolveLocal_localhost, hplain _⟩
    exact ⟨tr, s', _, hex, hmem, hck, not_sealedUnder_self _ _ _⟩
  · obtain ⟨bin, hsend⟩ := @exists_send (Crypto.transparent 5) (UDPClient.new loopback) _ _ _ rfl
      he.pkt he.unskipped he.sent (by decide) rfl rfl none
    obtain ⟨tr, r, s', hex, hdata, hbin⟩ := hsend bin (hplain bin)
    exact ⟨tr, r, s', _, bin, hex, hdata, hbin, hck, not_sealedUnder_self _ _ _⟩

/-- Spelled as the key is stored, it is sealed on both. -/
theorem loopback_sealed :
    (∀ tr s' data addr ck, Execs Endpoint.handle (((Crypto.transparent 5).extendServer
        (UDPServer.new resolveLocal)).processOutgoing 0) (endpointWith loopback) tr () s' →
      ⟨.dist data addr, ()⟩ ∈ tr → (endpointWith loopback).keys.getKeyStore addr = some ck →
      SealedUnder (Crypto.transparent 5) ck (JSONPkt.new.setDest loopback).marshal data) ∧
    ∀ respCh tr r s' data ch bin ck, Execs Endpoint.handle (((Crypto.transparent 5).extendClient
        (UDPClient.new loopback)).send 0 respCh) (endpointWith loopback) tr r s' →
      ⟨.writeStream data ch, ()⟩ ∈ tr → ⟨.read 0 .marshal, bin⟩ ∈ tr →
      (endpointWith loopback).keys.getKeyStore loopback = some ck →
      SealedUnder (Crypto.transparent 5) ck bin data := by
  have hagree : ∀ ck, (endpointWith loopback).keys.getKeyStore loopback = some ck →
      KeyAgrees (endpointWith loopback).keys loopback ck := fun ck hck => ⟨ck, hck, fun _ => rfl⟩
  obtain ⟨hserver, hclient⟩ := @sealed_under_peer_key_iff (Crypto.transparent 5)
    AEAD.transparent_ideal.one_key (UDPServer.new resolveLocal) (UDPClient.new loopback) _ _ _ _ _ _
    rfl rfl (endpointWith_encryptable loopback) (endpointWith_encryptable loopback) (by decide) rfl
    rfl
  refine ⟨hserver.mpr fun addr ck haddr hck => ?_, hclient.mpr hagree⟩
  obtain rfl : loopback = addr := Option.some.inj (resolveLocal_loopback.symm.trans haddr)
  exact hagree ck hck

end Concord
