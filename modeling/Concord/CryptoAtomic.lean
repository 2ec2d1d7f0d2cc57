import Concord.ClientHistory
import Concord.EndToEnd
import Concord.KeyExchange
import Concord.PipelineLock

/-!
# Failed calls of the Crypto extension

`Extend` with the kind it is given, and what `Extend`, `ProcessKeyExResp`, `EncryptE2E`,
`DecryptE2E` and the callbacks of a key exchange have changed when they fail.

1. `Extend` installs its transforms before it looks at the kind.
2. `Fails`: the operations a call performs on its way to an error, with anything the other
   goroutines do in between.
3. `atomic_on_error_iff`: every call that fails has changed nothing, except `Extend` with a kind
   it does not know.
-/

namespace Concord

open Go

/-! ## 1. `Extend` -/

/-- `core.Processor` -/
structure Processor where
  data : DataPipeline
  queues : GoString → Option (List TargetCallback)

namespace Crypto

/-- `installOnServer`; the second component is the error it returns, if any. -/
def installOnServer (cr : Crypto) (p : Processor) : Processor × Option GoString :=
  ({ p with
      queues := addCallback (addCallback p.queues targetKeyExchangeServer cr.keyExchangeServer)
        targetKeyExchangeClient keyExchangeClient }, none)

/-- `installOnClient` -/
def installOnClient (p : Processor) : Processor × Option GoString := (p, none)

def installTransforms (cr : Crypto) (target : Processor) : Processor :=
  { target with
    data := (target.data.addTransform pipelineIn cr.decryptTransport).addTransform pipelineOut
      cr.encryptTransport }

/-- `Extend` -/
def extend (cr : Crypto) (kind : GoString) (target : Processor) : Processor × Option GoString :=
  let target := cr.installTransforms target
  if kind = ascii "server" then
    match cr.installOnServer target with
    | (target, some err) =>
      (target, some (Fmt.errorf (ascii "error installing on server: " ++ err)))
    | (target, none) => (target, none)
  else if kind = ascii "client" then
    match installOnClient target with
    | (target, some err) =>
      (target, some (Fmt.errorf (ascii "error installing on client: " ++ err)))
    | (target, none) => (target, none)
  else
    (target, some (Fmt.errorf (ascii "unknown processor kind: \"" ++ kind ++ ascii "\"")))

variable {cr : Crypto}

theorem extend_server (locked : Bool) (svr : UDPServer) :
    cr.extend (ascii "server") ⟨⟨locked, svr.data⟩, svr.queues⟩ =
      (⟨⟨locked, (cr.extendServer svr).data⟩, (cr.extendServer svr).queues⟩, none) := rfl

theorem extend_client (locked : Bool) (c : UDPClient)
    (queues : GoString → Option (List TargetCallback)) :
    cr.extend (ascii "client") ⟨⟨locked, c.data⟩, queues⟩ =
      (⟨⟨locked, (cr.extendClient c).data⟩, queues⟩, none) := rfl

theorem extend_unknown {kind : GoString} (target : Processor)
    (hkind : ¬ (kind = ascii "server" ∨ kind = ascii "client")) :
    cr.extend kind target = (cr.installTransforms target,
      some (Fmt.errorf (ascii "unknown processor kind: \"" ++ kind ++ ascii "\""))) := by
  rw [not_or] at hkind
  rw [extend, if_neg hkind.1, if_neg hkind.2]

/-- The transforms are really there: the pipeline of incoming data is longer. -/
theorem installTransforms_ne (target : Processor) : cr.installTransforms target ≠ target := by
  intro h
  have hin : target.data.pipelines pipelineIn ++ [cr.decryptTransport] =
      target.data.pipelines pipelineIn :=
    congrArg (fun p : Processor => p.data.pipelines pipelineIn) h
  exact List.cons_ne_nil _ _ (List.append_right_eq_self.mp hin)

end Crypto

/-! ## 2. Calls that fail -/

/-- The operation leaves all of the shared state as it is. -/
def Op.Looks (e : Op) : Prop :=
  ∀ (s s' : Endpoint) (c : Choice) (r : e.Res), s.handle c e = .ok (r, s') → s' = s

theorem looks_read (p : Nat) (r : PktRead) : (Op.read p r).Looks :=
  fun _ _ _ _ h => (Endpoint.handle_read_ok h).1

theorem looks_getKeyStore (addr : GoString) : (Op.getKeyStore addr).Looks :=
  fun _ _ _ _ h => by cases h; rfl

theorem looks_readNonce : Op.readNonce.Looks := fun _ _ _ _ h => by cases h; rfl

theorem looks_panic : Op.panic.Looks := fun _ _ _ r _ => r.elim

namespace Crypto

inductive Call where
  | extend (kind : GoString)
  | processKeyExResp (addr : GoString) (resp : Nat)
  | encryptE2E (addr : GoString) (pkt : Nat)
  | decryptE2E (sender : GoString) (pkt : Nat)
  | keyExchangeServer (ctx : TargetCtx) (pw : Nat)
  | keyExchangeClient (ctx : TargetCtx) (pw : Nat)

/-- On this way through the callback it sets `CodeStopError`: that is the status at the end,
whichever it was before. -/
def SetsStopError (cb : TargetCallback) (ctx : TargetCtx) (pw : Nat) (tr : List Step) : Prop :=
  ∀ stat, ∃ ctx', (cb { ctx with stat := stat } pw).Leads tr (.ret ctx') ∧
    ctx'.stat = codeStopError

/-- A call on the extension of a processor fails: the operations it has performed on the shared
state, and the processor afterwards. -/
inductive Fails (cr : Crypto) (jsonErr : Bytes → GoString) (p : Processor) :
    Call → List Step → Processor → Prop
  | extend {kind err : GoString} {p' : Processor} : cr.extend kind p = (p', some err) →
      Fails cr jsonErr p (.extend kind) [] p'
  | processKeyExResp {addr err : GoString} {resp : Nat} {tr : List Step} :
      (cr.processKeyExResp jsonErr addr resp).Leads tr (.ret (some err)) →
      Fails cr jsonErr p (.processKeyExResp addr resp) tr p
  | encryptE2E {addr err : GoString} {pkt : Nat} {tr : List Step} :
      (cr.encryptE2E addr pkt).Leads tr (.ret (some err)) →
      Fails cr jsonErr p (.encryptE2E addr pkt) tr p
  | decryptE2E {sender err : GoString} {pkt : Nat} {tr : List Step} :
      (cr.decryptE2E sender pkt).Leads tr (.ret (some err)) →
      Fails cr jsonErr p (.decryptE2E sender pkt) tr p
  | keyExchangeServer {ctx : TargetCtx} {pw : Nat} {tr : List Step} :
      SetsStopError cr.keyExchangeServer ctx pw tr →
      Fails cr jsonErr p (.keyExchangeServer ctx pw) tr p
  | keyExchangeClient {ctx : TargetCtx} {pw : Nat} {tr : List Step} :
      SetsStopError Crypto.keyExchangeClient ctx pw tr →
      Fails cr jsonErr p (.keyExchangeClient ctx pw) tr p

/-- When the call fails, on any processor and after any operations, the processor is the one
there was, and none of the operations has changed the key table or a packet. -/
def AtomicOnError (cr : Crypto) (jsonErr : Bytes → GoString) (call : Call) : Prop :=
  ∀ p tr p', cr.Fails jsonErr p call tr p' → p' = p ∧ ∀ y ∈ tr, y.1.Looks

section Ways

variable {cr : Crypto} {addr err : GoString} {pkt : Nat} {tr : List Step}

theorem processKeyExResp_error {jsonErr : Bytes → GoString}
    (h : (cr.processKeyExResp jsonErr addr pkt).Leads tr (.ret (some err))) :
    ∀ y ∈ tr, y.1.Looks := by
  obtain ⟨body, tr₁, rfl, h₁⟩ := Prog.leads_perform_ret h
  split at h₁
  · obtain ⟨rfl, -⟩ := Prog.leads_ret.mp h₁
    exact List.forall_mem_singleton.mpr (looks_read _ _)
  · obtain ⟨_, _, _, -, -, h₂⟩ := Prog.leads_bind_ret h₁
    obtain ⟨_, _, -, h₃⟩ := Prog.leads_perform_ret h₂
    cases (Prog.leads_ret.mp h₃).2

theorem encryptFor_looks (data : Bytes) : (cr.encryptFor addr data).AllOps Op.Looks := by
  refine Prog.allOps_op (looks_getKeyStore _) fun ks => ?_
  cases ks with
  | none => trivial
  | some ks =>
    refine Prog.allOps_bind ?_ fun r => by cases r <;> trivial
    unfold encryptAES
    refine Prog.allOps_ite (fun _ => Prog.allOps_op looks_readNonce fun n => ?_) fun _ => trivial
    cases n <;> trivial

theorem decryptFrom_looks (data : Bytes) : (cr.decryptFrom addr data).AllOps Op.Looks := by
  refine Prog.allOps_op (looks_getKeyStore _) fun ks => ?_
  cases ks with
  | none => trivial
  | some ks =>
    refine Prog.allOps_bind ?_ fun r => by cases r <;> trivial
    unfold decryptAES
    refine Prog.allOps_ite (fun _ => Prog.allOps_ite (fun _ => ?_) fun _ => ?_) fun _ => trivial
    · exact Prog.allOps_op looks_panic fun e => nomatch e
    · split <;> trivial

/-- What `EncryptE2E` and `DecryptE2E` have in common: they rewrite the packet when nothing can
fail any more. -/
theorem rewrite_error {x : Bytes → Routine (Except GoString Bytes)} {text : GoString → GoString}
    (hx : ∀ data, (x data).AllOps Op.Looks)
    (h : (Routine.data pkt >>= fun data => x data >>= fun r =>
      match r with
      | .error err => pure (some (text err))
      | .ok data => rewrite pkt data >>= fun _ => pure none).Leads tr (.ret (some err))) :
    ∀ y ∈ tr, y.1.Looks := by
  obtain ⟨data, tr₁, rfl, h₁⟩ := Prog.leads_perform_ret h
  obtain ⟨tr₂, r, tr₃, rfl, hlead, h₂⟩ := Prog.leads_bind_ret h₁
  cases r with
  | ok data =>
    obtain ⟨_, _, _, -, -, h₃⟩ := Prog.leads_bind_ret h₂
    cases (Prog.leads_ret.mp h₃).2
  | error err =>
    obtain ⟨rfl, -⟩ := Prog.leads_ret.mp h₂
    rw [List.append_nil]
    exact List.forall_mem_cons.mpr ⟨looks_read _ _, (hlead.allOps (hx data)).1⟩

theorem encryptE2E_error (h : (cr.encryptE2E addr pkt).Leads tr (.ret (some err))) :
    ∀ y ∈ tr, y.1.Looks :=
  rewrite_error encryptFor_looks h

theorem decryptE2E_error (h : (cr.decryptE2E addr pkt).Leads tr (.ret (some err))) :
    ∀ y ∈ tr, y.1.Looks :=
  rewrite_error decryptFrom_looks h

variable {ctx : TargetCtx} {pw : Nat}

theorem keyExchangeServer_error (h : SetsStopError cr.keyExchangeServer ctx pw tr) :
    ∀ y ∈ tr, y.1.Looks := by
  obtain ⟨ctx', h, hstat⟩ := h codeContinue
  obtain ⟨body, tr₁, rfl, h₁⟩ := Prog.leads_perform_ret h
  split at h₁
  · obtain ⟨rfl, -⟩ := Prog.leads_ret.mp h₁
    exact List.forall_mem_singleton.mpr (looks_read _ _)
  · obtain ⟨_, _, _, -, -, h₂⟩ := Prog.leads_bind_ret h₁
    obtain ⟨_, _, -, h₃⟩ := Prog.leads_perform_ret h₂
    obtain ⟨_, _, _, -, -, h₄⟩ := Prog.leads_bind_ret h₃
    obtain ⟨_, _, _, -, -, h₅⟩ := Prog.leads_bind_ret h₄
    cases (Prog.leads_ret.mp h₅).2
    exact absurd hstat (show codeStopCloseSend ≠ codeStopError by decide)

theorem keyExchangeClient_error (h : SetsStopError keyExchangeClient ctx pw tr) :
    ∀ y ∈ tr, y.1.Looks := by
  obtain ⟨ctx', h, hstat⟩ := h codeContinue
  obtain ⟨body, tr₁, rfl, h₁⟩ := Prog.leads_perform_ret h
  split at h₁
  · obtain ⟨rfl, -⟩ := Prog.leads_ret.mp h₁
    exact List.forall_mem_singleton.mpr (looks_read _ _)
  · obtain ⟨keys, tr₂, rfl, h₂⟩ := Prog.leads_perform_ret h₁
    cases keys with
    | none =>
      obtain ⟨rfl, -⟩ := Prog.leads_ret.mp h₂
      exact List.forall_mem_cons.mpr
        ⟨looks_read _ _, List.forall_mem_singleton.mpr (looks_getKeyStore _)⟩
    | some keys =>
      -- an answer leaves the status as it was
      obtain ⟨_, _, _, -, -, h₃⟩ := Prog.leads_bind_ret h₂
      obtain ⟨_, _, _, -, -, h₄⟩ := Prog.leads_bind_ret h₃
      cases (Prog.leads_ret.mp h₄).2
      exact absurd hstat (show codeContinue ≠ codeStopError by decide)

theorem extend_known {kind err : GoString} {p p' : Processor}
    (hkind : kind = ascii "server" ∨ kind = ascii "client") :
    cr.extend kind p ≠ (p', some err) := by
  intro h
  rcases hkind with rfl | rfl <;> cases h

end Ways

/-! ## 3. The calls that change nothing when they fail -/

theorem atomic_on_error_iff (cr : Crypto) (jsonErr : Bytes → GoString) (call : Call) :
    cr.AtomicOnError jsonErr call ↔
      ∀ kind, call = .extend kind → kind = ascii "server" ∨ kind = ascii "client" := by
  constructor
  · rintro hatomic kind rfl
    by_contra hkind
    let p : Processor := ⟨.new, fun _ => none⟩
    exact installTransforms_ne p (hatomic p [] _ (.extend (extend_unknown p hkind))).1
  · intro hkind p tr p' hfails
    cases hfails with
    | extend h => exact absurd h (extend_known (hkind _ rfl))
    | processKeyExResp h => exact ⟨rfl, processKeyExResp_error h⟩
    | encryptE2E h => exact ⟨rfl, encryptE2E_error h⟩
    | decryptE2E h => exact ⟨rfl, decryptE2E_error h⟩
    | keyExchangeServer h => exact ⟨rfl, keyExchangeServer_error h⟩
    | keyExchangeClient h => exact ⟨rfl, keyExchangeClient_error h⟩

/-- A server that is extended as a `Server` reports the error and works with the extension's
transforms all the same; after a second attempt, with the kind spelt right, everything it sends
is sealed twice. -/
theorem misspelt_not_atomic :
    let cr := Crypto.transparent 1
    let p : Processor := ⟨.new, fun _ => none⟩
    let failed := cr.extend (ascii "Server") p
    ¬ cr.AtomicOnError (fun _ => []) (.extend (ascii "Server")) ∧
    failed.2 = some (ascii "unknown processor kind: \"Server\"") ∧
    (p.data.pipelines pipelineOut).length = 0 ∧
    (failed.1.data.pipelines pipelineOut).length = 1 ∧
    ((cr.extend (ascii "server") failed.1).1.data.pipelines pipelineOut).length = 2 := by
  refine ⟨fun h => ?_, by decide, rfl, rfl, rfl⟩
  have hkind : ¬ (ascii "Server" = ascii "server" ∨ ascii "Server" = ascii "client") := by decide
  exact installTransforms_ne _ (h ⟨.new, fun _ => none⟩ [] _ (.extend (extend_unknown _ hkind))).1

end Crypto

end Concord
