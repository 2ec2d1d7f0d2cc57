import Concord.RequestTable
import Concord.Go.Trace

/-!
# The log of a client

Any number of goroutines of the application call `Send`, the write routine writes or
fails, and every datagram starts a `processIncoming`. The log of such a run tells
everything that matters for the requests.

1. `replay`: the request table, the request that is being written and what every
   goroutine was started for, from the log alone.
2. `Uses`: code of an application, which reaches the client through `Send` only.
3. The ways through the client's routines: what a goroutine has done when it is about to
   offer a packet or to delete an entry.
4. `run_explained`: the log of every run explains its state.
-/

namespace Concord

open Go

/-! ## 1. Replaying a log -/

/-- What a goroutine of the client was started for. -/
inductive Origin (α : Type) where
  | app (call : α)
  | incoming (data : Bytes)
  | failedWrite (respCh : Nat) (err : GoString)

/-- What is left of a log: the response channel of the request that is being written,
the request table, and the origins of all goroutines. -/
structure Replay (α : Type) where
  writing : Option (Option Nat)
  requests : GoMap GoString (Option Nat)
  origins : List (Origin α)

namespace Replay

variable {α : Type}

def act (h : Replay α) : Op → Replay α
  | .writeStream _ respCh => { h with writing := some respCh }
  | .register ref respCh => { h with requests := h.requests.set ref respCh }
  | .unregister ref => { h with requests := h.requests.delete ref }
  | _ => h

def env (h : Replay α) : UDPClient.Env α → Replay α
  | .app call => { h with origins := h.origins ++ [.app call] }
  | .datagram data => { h with origins := h.origins ++ [.incoming data] }
  | .wrote => { h with writing := none }
  | .writeFailed err =>
    match h.writing with
    | some (some respCh) =>
      { h with writing := none, origins := h.origins ++ [.failedWrite respCh err] }
    | _ => { h with writing := none }
  | .gc _ => h

def step (h : Replay α) : Entry Op Op.Res (UDPClient.Env α) → Replay α
  | .act _ e _ => h.act e
  | .env a => h.env a

/-- A failed write starts a goroutine if somebody waits for the response. -/
theorem env_writeFailed (h : Replay α) (err : GoString) :
    (∃ respCh, h.writing = some (some respCh) ∧ h.env (.writeFailed err) =
      { h with writing := none, origins := h.origins ++ [.failedWrite respCh err] }) ∨
    (∀ respCh, h.writing ≠ some (some respCh)) ∧
      h.env (.writeFailed err) = { h with writing := none } := by
  simp only [env]
  split
  · next respCh hw => exact .inl ⟨respCh, hw, rfl⟩
  · next hw => exact .inr ⟨hw, rfl⟩

theorem act_origins (h : Replay α) (e : Op) : (h.act e).origins = h.origins := by
  unfold act
  split
  · rfl
  · rfl
  · rfl
  · rfl

theorem env_requests (h : Replay α) (a : UDPClient.Env α) : (h.env a).requests = h.requests := by
  cases a with
  | writeFailed err =>
    rcases h.env_writeFailed err with ⟨respCh, -, heq⟩ | ⟨-, heq⟩
    · rw [heq]
    · rw [heq]
  | _ => rfl

/-- Goroutines keep their numbers. -/
theorem step_origins (h : Replay α) (x : Entry Op Op.Res (UDPClient.Env α)) :
    h.origins <+: (h.step x).origins := by
  cases x with
  | act i e r => exact ⟨[], (List.append_nil _).trans (act_origins h e).symm⟩
  | env a =>
    cases a with
    | app call => exact List.prefix_append _ _
    | datagram data => exact List.prefix_append _ _
    | wrote => exact List.prefix_rfl
    | gc n => exact List.prefix_rfl
    | writeFailed err =>
      rw [step]
      rcases env_writeFailed h err with ⟨respCh, -, heq⟩ | ⟨-, heq⟩
      · rw [heq]
        exact List.prefix_append _ _
      · rw [heq]

end Replay

section Replays

variable {α : Type} {log : List (Entry Op Op.Res (UDPClient.Env α))}

def replay (log : List (Entry Op Op.Res (UDPClient.Env α))) : Replay α :=
  log.foldl Replay.step ⟨none, GoMap.empty, []⟩

theorem replay_snoc (log : List (Entry Op Op.Res (UDPClient.Env α)))
    (x : Entry Op Op.Res (UDPClient.Env α)) : replay (log ++ [x]) = (replay log).step x := by
  simp [replay]

theorem replay_origins (log log' : List (Entry Op Op.Res (UDPClient.Env α))) :
    (replay log).origins <+: (replay (log ++ log')).origins := by
  induction log' using List.reverseRecOn with
  | nil => rw [List.append_nil]
  | append_singleton log' x ih =>
    rw [← List.append_assoc, replay_snoc]
    exact ih.trans (Replay.step_origins _ x)

theorem origin_append {pre : List (Entry Op Op.Res (UDPClient.Env α))} {i : Nat} {o : Origin α}
    (h : (replay pre).origins[i]? = some o) (post : List (Entry Op Op.Res (UDPClient.Env α))) :
    (replay (pre ++ post)).origins[i]? = some o := by
  obtain ⟨os, hos⟩ := replay_origins pre post
  rw [← hos, List.getElem?_append_left (List.getElem?_eq_some_iff.mp h).1, h]

/-- The entry changes what stands under `ref` in the table. -/
def Entry.touches (ref : GoString) : Entry Op Op.Res (UDPClient.Env α) → Bool
  | .act _ (.register ref' _) _ | .act _ (.unregister ref') _ => ref' == ref
  | _ => false

/-- An entry of the table comes from the last change under its ref, a registration. -/
theorem registration_of_get? {ref : GoString} {respCh : Option Nat}
    (h : (replay log).requests.get? ref = some respCh) :
    ∃ pre i post, log = pre ++ .act i (.register ref respCh) () :: post ∧
      ∀ x ∈ post, Entry.touches ref x = false := by
  induction log using List.reverseRecOn with
  | nil => cases h
  | append_singleton log x ih =>
    rw [replay_snoc] at h
    -- a step that is no change under this ref is added to the rest
    have hold : (replay log).requests.get? ref = some respCh → Entry.touches ref x = false →
        ∃ pre i post, log ++ [x] = pre ++ .act i (.register ref respCh) () :: post ∧
          ∀ x ∈ post, Entry.touches ref x = false := by
      intro hget hx
      obtain ⟨pre, i, post, rfl, hpost⟩ := ih hget
      refine ⟨pre, i, post ++ [x], by simp, fun y hy => ?_⟩
      rcases List.mem_append.mp hy with hy | hy
      · exact hpost y hy
      · exact List.mem_singleton.mp hy ▸ hx
    cases x with
    | act i e r =>
      cases e with
      | register ref' respCh' =>
        simp only [Replay.step, Replay.act, GoMap.get?_set] at h
        split at h
        · next heq =>
          cases h
          subst heq
          exact ⟨log, i, [], rfl, fun y hy => absurd hy List.not_mem_nil⟩
        · next hne => exact hold h (by simpa [Entry.touches] using Ne.symm hne)
      | unregister ref' =>
        simp only [Replay.step, Replay.act, GoMap.get?_delete] at h
        split at h
        · cases h
        · next hne => exact hold h (by simpa [Entry.touches] using Ne.symm hne)
      | _ => exact hold h rfl
    | env a =>
      rw [Replay.step, Replay.env_requests] at h
      exact hold h rfl

/-- A registration stands as long as nothing changes under its ref. -/
theorem get?_of_registration {ref : GoString} {respCh : Option Nat} {i : Nat}
    {pre post : List (Entry Op Op.Res (UDPClient.Env α))}
    (hpost : ∀ x ∈ post, Entry.touches ref x = false) :
    (replay (pre ++ .act i (.register ref respCh) () :: post)).requests.get? ref = some respCh := by
  induction post using List.reverseRecOn with
  | nil =>
    rw [replay_snoc]
    simp [Replay.step, Replay.act]
  | append_singleton post x ih =>
    have hx := hpost x (List.mem_append_right _ (List.mem_singleton_self _))
    have ih := ih fun y hy => hpost y (List.mem_append_left _ hy)
    rw [← List.cons_append, ← List.append_assoc, replay_snoc]
    cases x with
    | act j e r =>
      cases e with
      | register ref' respCh' =>
        have hne : ref ≠ ref' := by
          rintro rfl
          simp [Entry.touches] at hx
        simpa [Replay.step, Replay.act, hne] using ih
      | unregister ref' =>
        have hne : ref ≠ ref' := by
          rintro rfl
          simp [Entry.touches] at hx
        simpa [Replay.step, Replay.act, hne] using ih
      | _ => exact ih
    | env a => rwa [Replay.step, Replay.env_requests]

/-- The hand-off of a request with this response channel. -/
def Entry.handsOff (respCh : Nat) : Entry Op Op.Res (UDPClient.Env α) → Bool
  | .act _ (.writeStream _ (some respCh')) _ => respCh' == respCh
  | _ => false

theorem eq_of_handsOff {x : Entry Op Op.Res (UDPClient.Env α)} {respCh : Nat}
    (h : Entry.handsOff respCh x = true) :
    ∃ i data, x = .act i (.writeStream data (some respCh)) () := by
  cases x with
  | env a => cases h
  | act i e r =>
    cases e with
    | writeStream data ch =>
      cases ch with
      | none => cases h
      | some ch =>
        obtain rfl : ch = respCh := by simpa [Entry.handsOff] using h
        exact ⟨i, data, rfl⟩
    | _ => cases h

def Origin.failed (respCh : Nat) : Origin α → Bool
  | .failedWrite respCh' _ => respCh' == respCh
  | _ => false

/-- Every failure belongs to a request that was handed off. -/
theorem failures_le (log : List (Entry Op Op.Res (UDPClient.Env α))) (respCh : Nat) :
    (replay log).origins.countP (Origin.failed respCh) +
      (if (replay log).writing = some (some respCh) then 1 else 0) ≤
        log.countP (Entry.handsOff respCh) := by
  induction log using List.reverseRecOn with
  | nil => simp [replay]
  | append_singleton log x ih =>
    rw [replay_snoc, List.countP_append, List.countP_singleton]
    cases x with
    | act i e r =>
      cases e with
      | writeStream data ch =>
        have hhand : Entry.handsOff respCh (Entry.act (ε := UDPClient.Env α) i
            (.writeStream data ch) r) = true ↔ ch = some respCh := by
          cases ch with
          | none => simp [Entry.handsOff]
          | some ch => simp [Entry.handsOff]
        simp only [Replay.step, Replay.act, hhand, Option.some.injEq]
        omega
      | _ => exact Nat.le_add_right_of_le ih
    | env a =>
      cases a with
      | app call =>
        simp only [Replay.step, Replay.env, List.countP_append, List.countP_singleton,
          Origin.failed]
        exact Nat.le_add_right_of_le ih
      | datagram data =>
        simp only [Replay.step, Replay.env, List.countP_append, List.countP_singleton,
          Origin.failed]
        exact Nat.le_add_right_of_le ih
      | wrote =>
        simp only [Replay.step, Replay.env, reduceCtorEq, if_false]
        omega
      | gc n => exact Nat.le_add_right_of_le ih
      | writeFailed err =>
        rw [Replay.step]
        rcases Replay.env_writeFailed (replay log) err with ⟨ch, hw, heq⟩ | ⟨-, heq⟩
        · -- the request that was being written becomes a failure
          rw [hw] at ih
          rw [heq, List.countP_append, List.countP_singleton]
          simp only [Option.some.injEq, Origin.failed, beq_iff_eq] at ih ⊢
          simp only [reduceCtorEq, if_false]
          omega
        · rw [heq]
          simp only [reduceCtorEq, if_false]
          omega

/-- The step in which the write has failed. -/
theorem failure_of_origin {respCh : Nat}
    (h : (replay log).origins.any (Origin.failed respCh) = true) :
    ∃ pre err post, log = pre ++ .env (.writeFailed err) :: post ∧
      (replay pre).writing = some (some respCh) ∧
      (replay (pre ++ [.env (.writeFailed err)])).origins.any (Origin.failed respCh) = true := by
  induction log using List.reverseRecOn with
  | nil => cases h
  | append_singleton log x ih =>
    by_cases hold : (replay log).origins.any (Origin.failed respCh) = true
    · obtain ⟨pre, err, post, rfl, hw, hfail⟩ := ih hold
      exact ⟨pre, err, post ++ [x], by simp, hw, hfail⟩
    · -- this step has added the origin
      have hnew := h
      rw [replay_snoc] at h
      cases x with
      | act i e r =>
        rw [Replay.step, Replay.act_origins] at h
        exact absurd h hold
      | env a =>
        cases a with
        | writeFailed err =>
          rw [Replay.step] at h
          rcases Replay.env_writeFailed (replay log) err with ⟨ch, hw, heq⟩ | ⟨-, heq⟩
          · rw [heq, List.any_append, Bool.or_eq_true] at h
            rcases h with h | h
            · exact absurd h hold
            · obtain rfl : ch = respCh := by simpa [Origin.failed] using h
              exact ⟨log, err, [], rfl, hw, hnew⟩
          · rw [heq] at h
            exact absurd h hold
        | app call =>
          rw [Replay.step, Replay.env, List.any_append, Bool.or_eq_true] at h
          exact absurd (h.resolve_right (by simp [Origin.failed])) hold
        | datagram data =>
          rw [Replay.step, Replay.env, List.any_append, Bool.or_eq_true] at h
          exact absurd (h.resolve_right (by simp [Origin.failed])) hold
        | wrote => exact absurd h hold
        | gc n => exact absurd h hold

end Replays

/-! ## 2. Applications -/

/-- The operations on the request table, the write stream and the channels of a client. -/
def Op.ofClient : Op → Bool
  | .writeStream _ _ | .writeDone | .register _ _ | .lookup _ | .unregister _ | .deliver _ _
  | .misc _ => true
  | _ => false

/-- An operation of a transform: neither one of the client's own nor a decoding. -/
def Op.quiet : Op → Bool
  | .call _ (.unmarshal _) => false
  | e => !e.ofClient

theorem Op.ofClient_of_quiet {e : Op} (h : e.quiet = true) : e.ofClient = false := by
  unfold quiet at h
  split at h
  · cases h
  · simpa using h

/-- The transforms of the client leave its requests to the client. -/
def UDPClient.Quiet (c : UDPClient) : Prop :=
  ∀ name, ∀ t ∈ c.data name, ∀ ctx data, (t ctx data).AllOps fun e => e.quiet = true

/-- Code of an application: anything but the client's own operations, and calls of
`Send`. -/
inductive Uses (c : UDPClient) : Routine Unit → Prop
  | done : Uses c (pure ())
  | op {e : Op} {k : e.Res → Routine Unit} : e.ofClient = false → (∀ r, Uses c (k r)) →
      Uses c (.op e k)
  | send {pkt : Nat} {respCh : Option Nat} {k : Option GoString → Routine Unit} :
      (∀ r, Uses c (k r)) → Uses c (c.send pkt respCh >>= k)

/-- An operation of a goroutine, with its result. -/
abbrev Step := (e : Op) × e.Res

/-- A call `Send(pkt, respCh)` has come to the hand-off, and `ref` is the ref that the
packet had or was given. -/
def Requested (pkt : Nat) (respCh : Option Nat) (ref : GoString) (tr : List Step) : Prop :=
  ∃ pre named bin between data post,
    tr = pre ++ named ++ ⟨.read pkt .marshal, bin⟩ :: between ++
      ⟨.writeStream data respCh, ()⟩ :: post ∧
    (UDPClient.ensureRef pkt).Leads named (.ret ref) ∧ ∀ y ∈ between, y.1.ofClient = false

theorem Requested.append_left {pkt : Nat} {respCh : Option Nat} {ref : GoString} {tr : List Step}
    (h : Requested pkt respCh ref tr) (tr' : List Step) : Requested pkt respCh ref (tr' ++ tr) := by
  obtain ⟨pre, named, bin, between, data, post, rfl, hnamed, hbetween⟩ := h
  exact ⟨tr' ++ pre, named, bin, between, data, post, by simp, hnamed, hbetween⟩

theorem Requested.append_right {pkt : Nat} {respCh : Option Nat} {ref : GoString} {tr : List Step}
    (h : Requested pkt respCh ref tr) (tr' : List Step) : Requested pkt respCh ref (tr ++ tr') := by
  obtain ⟨pre, named, bin, between, data, post, rfl, hnamed, hbetween⟩ := h
  exact ⟨pre, named, bin, between, data, post ++ tr', by simp, hnamed, hbetween⟩

theorem Uses.bind {c : UDPClient} {β : Type} {x : Routine β} {f : β → Routine Unit}
    (hx : x.AllOps fun e => e.ofClient = false) (hf : ∀ b, Uses c (f b)) : Uses c (x >>= f) := by
  rw [Prog.bind_eq]
  induction x with
  | ret b => exact hf b
  | op e k ih => exact .op hx.1 fun r => ih r (hx.2 r)

theorem request_uses {c : UDPClient} (call : GoString × Nat) : Uses c (request c call) := by
  refine Uses.bind ?_ fun p => .send fun _ => .done
  exact Routine.newPkt_allOps (P := fun e => e.ofClient = false) rfl fun _ _ _ => rfl

theorem requestClient_quiet : requestClient.Quiet := by
  intro name t ht
  exact absurd ht List.not_mem_nil

/-! ## 3. The ways through the routines -/

namespace UDPClient

variable {c : UDPClient} {tr : List Step}

theorem ensureRef_quiet (pkt : Nat) : (ensureRef pkt).AllOps fun e => e.quiet = true := by
  refine Prog.allOps_op rfl fun ref => Prog.allOps_ite (fun _ => ?_) fun _ => trivial
  exact Prog.allOps_op rfl fun ref => Prog.allOps_bind
    (Routine.call_allOps (P := fun e => e.quiet = true) rfl) fun _ => trivial

theorem callAll_quiet {p : Nat} {ops : List PktOp}
    (h : ∀ op ∈ ops, (Op.call p op).quiet = true) :
    (Routine.callAll p ops).AllOps fun e => e.quiet = true := by
  induction ops with
  | nil => trivial
  | cons op ops ih =>
    refine Prog.allOps_bind (Routine.call_allOps (h op List.mem_cons_self)) fun _ => ?_
    exact ih fun op hop => h op (List.mem_cons_of_mem _ hop)

theorem newPkt_quiet (ref dest : GoString) :
    (Routine.newPkt ref dest).AllOps fun e => e.quiet = true := by
  refine Prog.allOps_op rfl fun p => Prog.allOps_bind (callAll_quiet ?_) fun _ => trivial
  simp [newPktOps, Op.quiet, Op.ofClient]

theorem newErrPkt_quiet (ref dest msg : GoString) :
    (Routine.newErrPkt ref dest msg).AllOps fun e => e.quiet = true := by
  refine Prog.allOps_op rfl fun p => Prog.allOps_bind (callAll_quiet ?_) fun _ => trivial
  simp [newErrPktOps, newPktOps, Op.quiet, Op.ofClient]

theorem Quiet.processData (hc : c.Quiet) (ctx : TransformContext) (data : Bytes) :
    (processData c.data ctx data).AllOps fun e => e.quiet = true :=
  processTransforms_allOps (hc ctx.pipelineName) ctx data

/-- What a goroutine in `Send` has done: nothing of the client's own before the hand-off,
which the registration follows. -/
theorem send_leads (hc : c.Quiet) {pkt : Nat} {respCh : Option Nat} {t : Routine (Option GoString)}
    (h : (c.send pkt respCh).Leads tr t) :
    (∀ y ∈ tr, y.1.ofClient = false) ∨ ∃ named ref bin between data post,
      tr = named ++ ⟨.read pkt .marshal, bin⟩ :: between ++ ⟨.writeStream data respCh, ()⟩ :: post ∧
      (ensureRef pkt).Leads named (.ret ref) ∧ (∀ y ∈ named, y.1.ofClient = false) ∧
      (∀ y ∈ between, y.1.ofClient = false) ∧
      (post = [] ∨ post = [⟨.register ref respCh, ()⟩]) := by
  rcases Prog.leads_bind_allOps (ensureRef_quiet pkt) h with
    hall | ⟨named, ref, tr₁, rfl, hnamed, href, h₁⟩
  · exact .inl fun y hy => Op.ofClient_of_quiet (hall y hy)
  replace hnamed : ∀ y ∈ named, y.1.ofClient = false := fun y hy =>
    Op.ofClient_of_quiet (hnamed y hy)
  rcases Prog.leads_perform.mp h₁ with ⟨rfl, -⟩ | ⟨bin, tr₂, rfl, h₂⟩
  · exact .inl (by simpa using hnamed)
  -- so far nothing of the client's own, whatever part of the pipeline has been run
  have hnone : ∀ {tr'}, (∀ y ∈ tr', y.1.ofClient = false) →
      ∀ y ∈ named ++ (⟨.read pkt .marshal, bin⟩ :: tr' : List Step), y.1.ofClient = false := by
    intro tr' htr y hy
    rcases List.mem_append.mp hy with hy | hy
    · exact hnamed y hy
    · rcases List.mem_cons.mp hy with rfl | hy
      · rfl
      · exact htr y hy
  rcases Prog.leads_bind_allOps (hc.processData _ bin) h₂ with
    hall | ⟨between, r, tr₃, rfl, hb, -, h₃⟩
  · exact .inl (hnone fun y hy => Op.ofClient_of_quiet (hall y hy))
  replace hb : ∀ y ∈ between, y.1.ofClient = false := fun y hy => Op.ofClient_of_quiet (hb y hy)
  obtain ⟨ctx, data, err⟩ := r
  cases err with
  | some err =>
    rw [(Prog.leads_ret.mp h₃).1, List.append_nil]
    exact .inl (hnone hb)
  | none =>
    simp only at h₃
    split at h₃
    · rw [(Prog.leads_ret.mp h₃).1, List.append_nil]
      exact .inl (hnone hb)
    · rcases Prog.leads_perform.mp h₃ with ⟨rfl, -⟩ | ⟨u, tr₄, rfl, h₄⟩
      · rw [List.append_nil]
        exact .inl (hnone hb)
      · refine .inr ⟨named, ref, bin, between, data, tr₄, by simp, href, hnamed, hb, ?_⟩
        rcases Prog.leads_perform.mp h₄ with ⟨rfl, -⟩ | ⟨u, tr₅, rfl, h₅⟩
        · exact .inl rfl
        · exact .inr (by rw [(Prog.leads_ret.mp h₅).1])

/-- The end of `processIncoming`, from the decoding on. -/
def decode (pkt : Nat) (data : Bytes) : Routine Unit := do
  match ← Routine.unmarshal pkt data with
  | some _ => pure ()
  | none =>
    let ref ← Routine.metaGet pkt keyRef
    answer ref pkt

/-- What a goroutine does that has found `res` under the ref of its packet. -/
def offer (pkt : Nat) : Option (Option Nat) → Routine Unit
  | some (some respCh) => Routine.perform (.deliver respCh pkt)
  | _ => Routine.perform (.misc pkt)

def offerStep (pkt : Nat) : Option (Option Nat) → Step
  | some (some respCh) => ⟨.deliver respCh pkt, ()⟩
  | _ => ⟨.misc pkt, ()⟩

theorem answer_eq (ref : GoString) (pkt : Nat) :
    answer ref pkt = Routine.perform (.lookup ref) >>= fun res =>
      offer pkt res >>= fun _ => Routine.perform (.unregister ref) := by
  unfold answer
  congr 1
  funext res
  match res with
  | none => rfl
  | some none => rfl
  | some (some respCh) => rfl

/-- What a goroutine has done since it began to decode, and what it still has to do. -/
inductive Decoding (pkt : Nat) (data : Bytes) : List Step → Routine Unit → Prop
  | before : Decoding pkt data [] (decode pkt data)
  | refused (err : JSONPkt.UnmarshalErr) :
      Decoding pkt data [⟨.call pkt (.unmarshal data), some err⟩] (pure ())
  | decoded : Decoding pkt data [⟨.call pkt (.unmarshal data), none⟩]
      (Routine.metaGet pkt keyRef >>= fun ref => answer ref pkt)
  | named (ref : GoString) : Decoding pkt data
      [⟨.call pkt (.unmarshal data), none⟩, ⟨.read pkt (.metaGet keyRef), ref⟩] (answer ref pkt)
  | found (ref : GoString) (res : Option (Option Nat)) : Decoding pkt data
      [⟨.call pkt (.unmarshal data), none⟩, ⟨.read pkt (.metaGet keyRef), ref⟩, ⟨.lookup ref, res⟩]
      (offer pkt res >>= fun _ => Routine.perform (.unregister ref))
  | offered (ref : GoString) (res : Option (Option Nat)) : Decoding pkt data
      [⟨.call pkt (.unmarshal data), none⟩, ⟨.read pkt (.metaGet keyRef), ref⟩, ⟨.lookup ref, res⟩,
        offerStep pkt res] (Routine.perform (.unregister ref))
  | deleted (ref : GoString) (res : Option (Option Nat)) : Decoding pkt data
      [⟨.call pkt (.unmarshal data), none⟩, ⟨.read pkt (.metaGet keyRef), ref⟩, ⟨.lookup ref, res⟩,
        offerStep pkt res, ⟨.unregister ref, ()⟩] (pure ())

theorem offer_leads {pkt : Nat} {res : Option (Option Nat)} {f : Unit → Routine Unit}
    {t : Routine Unit} (h : (offer pkt res >>= f).Leads tr t) :
    tr = [] ∧ t = (offer pkt res >>= f) ∨
      ∃ tr', tr = offerStep pkt res :: tr' ∧ (f ()).Leads tr' t := by
  match res with
  | none =>
    rcases Prog.leads_perform.mp h with hnil | ⟨r, tr', rfl, h₁⟩
    · exact .inl hnil
    · exact .inr ⟨tr', rfl, h₁⟩
  | some none =>
    rcases Prog.leads_perform.mp h with hnil | ⟨r, tr', rfl, h₁⟩
    · exact .inl hnil
    · exact .inr ⟨tr', rfl, h₁⟩
  | some (some respCh) =>
    rcases Prog.leads_perform.mp h with hnil | ⟨r, tr', rfl, h₁⟩
    · exact .inl hnil
    · exact .inr ⟨tr', rfl, h₁⟩

theorem decode_leads {pkt : Nat} {data : Bytes} {t : Routine Unit}
    (h : (decode pkt data).Leads tr t) : Decoding pkt data tr t := by
  rcases Prog.leads_perform.mp h with ⟨rfl, rfl⟩ | ⟨err, tr₁, rfl, h₁⟩
  · exact .before
  cases err with
  | some err =>
    obtain ⟨rfl, rfl⟩ := Prog.leads_ret.mp h₁
    exact .refused err
  | none =>
    rcases Prog.leads_perform.mp h₁ with ⟨rfl, rfl⟩ | ⟨ref, tr₂, rfl, h₂⟩
    · exact .decoded
    rw [answer_eq] at h₂
    rcases Prog.leads_perform.mp h₂ with ⟨rfl, rfl⟩ | ⟨res, tr₃, rfl, h₃⟩
    · exact answer_eq ref pkt ▸ .named ref
    rcases offer_leads h₃ with ⟨rfl, rfl⟩ | ⟨tr₄, rfl, h₄⟩
    · exact .found ref res
    rcases Prog.leads_op.mp h₄ with ⟨rfl, rfl⟩ | ⟨u, tr₅, rfl, h₅⟩
    · exact .offered ref res
    obtain ⟨rfl, rfl⟩ := Prog.leads_ret.mp h₅
    exact .deleted ref res

/-- `processIncoming` after the pipeline. -/
def decodeNew : TransformContext × Bytes × Option GoString → Routine Unit
  | (_, _, some _) => pure ()
  | (_, data, none) => do
    let pkt ← Routine.newPkt [] []
    decode pkt data

theorem processIncoming_eq (c : UDPClient) (data : Bytes) :
    c.processIncoming data =
      processData c.data { pipelineName := pipelineIn, sender := c.addr } data >>= decodeNew := by
  unfold processIncoming
  congr 1
  funext r
  obtain ⟨ctx, data, err⟩ := r
  cases err with
  | some err => rfl
  | none => rfl

/-- A goroutine in `processIncoming` has done nothing of note, or has begun to decode. -/
theorem processIncoming_leads (hc : c.Quiet) {data : Bytes} {t : Routine Unit}
    (h : (c.processIncoming data).Leads tr t) :
    (∀ y ∈ tr, y.1.quiet = true) ∨ ∃ tr₀ pkt bin tail, tr = tr₀ ++ tail ∧
      (∀ y ∈ tr₀, y.1.quiet = true) ∧ Decoding pkt bin tail t := by
  rw [processIncoming_eq] at h
  rcases Prog.leads_bind_allOps (hc.processData _ data) h with
    hall | ⟨tr₀, ⟨ctx, bin, err⟩, tr₁, rfl, hq, -, h₁⟩
  · exact .inl hall
  cases err with
  | some err =>
    rw [(Prog.leads_ret.mp h₁).1, List.append_nil]
    exact .inl hq
  | none =>
    rcases Prog.leads_bind_allOps (newPkt_quiet [] []) h₁ with
      hall | ⟨tr₂, pkt, tr₃, rfl, hq₂, -, h₂⟩
    · exact .inl (List.forall_mem_append.mpr ⟨hq, hall⟩)
    · exact .inr ⟨tr₀ ++ tr₂, pkt, bin, tr₃, by simp, List.forall_mem_append.mpr ⟨hq, hq₂⟩,
        decode_leads h₂⟩

/-- At an operation of its own the goroutine is decoding. -/
theorem processIncoming_at (hc : c.Quiet) {data : Bytes} {e : Op} {k : e.Res → Routine Unit}
    (he : e.quiet = false) (h : (c.processIncoming data).Leads tr (.op e k)) :
    ∃ tr₀ pkt bin tail, tr = tr₀ ++ tail ∧ (∀ y ∈ tr₀, y.1.quiet = true) ∧
      Decoding pkt bin tail (.op e k) := by
  rw [processIncoming_eq] at h
  have hne : ¬ e.quiet = true := by simp [he]
  obtain ⟨tr₀, ⟨ctx, bin, err⟩, tr₁, rfl, hq, -, h₁⟩ :=
    Prog.leads_bind_op (hc.processData _ data) hne h
  cases err with
  | some err => cases (Prog.leads_ret.mp h₁).2
  | none =>
    obtain ⟨tr₂, pkt, tr₃, rfl, hq₂, -, h₂⟩ := Prog.leads_bind_op (newPkt_quiet [] []) hne h₁
    exact ⟨tr₀ ++ tr₂, pkt, bin, tr₃, by simp, List.forall_mem_append.mpr ⟨hq, hq₂⟩,
      decode_leads h₂⟩

/-- The write routine offers one packet, which it has made to report the error. -/
theorem writeError_at {respCh ch p : Nat} {err : GoString} {k : Unit → Routine Unit}
    (h : (writeError respCh err).Leads tr (.op (.deliver ch p) k)) :
    ch = respCh ∧ (∀ y ∈ tr, y.1.quiet = true) ∧
      (Routine.newErrPkt [] [] (ascii "packet write error: " ++ err)).Leads tr (.ret p) := by
  obtain ⟨tr₀, q, tr₁, rfl, hq, hnew, h₁⟩ := Prog.leads_bind_op (newErrPkt_quiet [] [] _)
    (show ¬ (Op.deliver ch p).quiet = true by simp [Op.quiet, Op.ofClient]) h
  rcases Prog.leads_perform.mp h₁ with ⟨rfl, heq⟩ | ⟨u, tr₂, rfl, h₂⟩
  · cases heq
    rw [List.append_nil]
    exact ⟨rfl, hq, hnew⟩
  · rcases Prog.leads_op.mp h₂ with ⟨-, heq⟩ | ⟨u, tr₃, rfl, h₃⟩
    · cases heq
    · cases (Prog.leads_ret.mp h₃).2

end UDPClient

/-! ### The application -/

/-- An operation that only `Send` performs. -/
def Op.sends : Op → Bool
  | .writeStream _ _ | .register _ _ => true
  | _ => false

/-- An operation of `Send` or of `processIncoming`, but not of the write routine. -/
def Op.requests : Op → Bool
  | .writeStream _ _ | .register _ _ | .lookup _ | .unregister _ | .misc _ => true
  | _ => false

theorem Op.requests_of_free {e : Op} (h : e.ofClient = false) : e.requests = false := by
  cases e with
  | writeStream data ch => cases h
  | register ref ch => cases h
  | lookup ref => cases h
  | unregister ref => cases h
  | misc p => cases h
  | _ => rfl

theorem Op.sends_of_requests {e : Op} (h : e.requests = false) : e.sends = false := by
  cases e with
  | writeStream data ch => cases h
  | register ref ch => cases h
  | _ => rfl

theorem Op.sends_of_free {e : Op} (h : e.ofClient = false) : e.sends = false :=
  Op.sends_of_requests (Op.requests_of_free h)

def Step.handsOff (respCh : Nat) (y : Step) : Bool :=
  match y.1 with
  | .writeStream _ ch => ch == some respCh
  | _ => false

def Step.registers (respCh : Nat) (y : Step) : Bool :=
  match y.1 with
  | .register _ ch => ch == some respCh
  | _ => false

/-- Hand-offs and registrations are those of `Send`. -/
structure Requests (tr : List Step) : Prop where
  registered : ∀ ref respCh, ⟨.register ref respCh, ()⟩ ∈ tr → ∃ pkt, Requested pkt respCh ref tr
  handed : ∀ data respCh, ⟨.writeStream data respCh, ()⟩ ∈ tr →
    ∃ pkt ref, Requested pkt respCh ref tr
  count_le : ∀ respCh, tr.countP (Step.registers respCh) ≤ tr.countP (Step.handsOff respCh)

namespace Requests

variable {c : UDPClient} {tr tr' : List Step}

theorem append (h : Requests tr) (h' : Requests tr') : Requests (tr ++ tr') where
  registered ref respCh hmem := by
    rcases List.mem_append.mp hmem with hmem | hmem
    · obtain ⟨pkt, hr⟩ := h.registered ref respCh hmem
      exact ⟨pkt, hr.append_right tr'⟩
    · obtain ⟨pkt, hr⟩ := h'.registered ref respCh hmem
      exact ⟨pkt, hr.append_left tr⟩
  handed data respCh hmem := by
    rcases List.mem_append.mp hmem with hmem | hmem
    · obtain ⟨pkt, ref, hr⟩ := h.handed data respCh hmem
      exact ⟨pkt, ref, hr.append_right tr'⟩
    · obtain ⟨pkt, ref, hr⟩ := h'.handed data respCh hmem
      exact ⟨pkt, ref, hr.append_left tr⟩
  count_le respCh := by
    rw [List.countP_append, List.countP_append]
    exact Nat.add_le_add (h.count_le respCh) (h'.count_le respCh)

theorem of_no_sends (h : ∀ y ∈ tr, y.1.sends = false) : Requests tr where
  registered ref respCh hmem := by cases h _ hmem
  handed data respCh hmem := by cases h _ hmem
  count_le respCh := by
    have hnone : tr.countP (Step.registers respCh) = 0 := by
      refine List.countP_eq_zero.mpr fun y hy hreg => ?_
      have hfree := h y hy
      obtain ⟨e, r⟩ := y
      cases e with
      | register ref ch => cases hfree
      | _ => cases hreg
    rw [hnone]
    exact Nat.zero_le _

theorem of_free (h : ∀ y ∈ tr, y.1.ofClient = false) : Requests tr :=
  of_no_sends fun y hy => Op.sends_of_free (h y hy)

theorem of_send (hc : c.Quiet) {pkt : Nat} {respCh : Option Nat} {t : Routine (Option GoString)}
    (h : (c.send pkt respCh).Leads tr t) : Requests tr := by
  rcases UDPClient.send_leads hc h with
    hfree | ⟨named, ref, bin, between, data, post, rfl, href, hnamed, hb, hpost⟩
  · exact of_free hfree
  have hreq : Requested pkt respCh ref (named ++ ⟨.read pkt .marshal, bin⟩ :: between ++
      ⟨.writeStream data respCh, ()⟩ :: post) :=
    ⟨[], named, bin, between, data, post, by simp, href, hb⟩
  have hfront : ∀ y ∈ named ++ (⟨.read pkt .marshal, bin⟩ :: between : List Step),
      y.1.ofClient = false :=
    List.forall_mem_append.mpr ⟨hnamed, List.forall_mem_cons.mpr ⟨rfl, hb⟩⟩
  refine ⟨fun ref' ch hmem => ?_, fun data' ch hmem => ?_, fun ch => ?_⟩
  · rcases List.mem_append.mp hmem with hmem | hmem
    · cases hfront _ hmem
    · rcases hpost with rfl | rfl
      · simp at hmem
      · obtain ⟨rfl, rfl⟩ : ref' = ref ∧ ch = respCh := by simpa using hmem
        exact ⟨pkt, hreq⟩
  · rcases List.mem_append.mp hmem with hmem | hmem
    · cases hfront _ hmem
    · rcases hpost with rfl | rfl
      · obtain ⟨rfl, rfl⟩ : data' = data ∧ ch = respCh := by simpa using hmem
        exact ⟨pkt, ref, hreq⟩
      · obtain ⟨rfl, rfl⟩ : data' = data ∧ ch = respCh := by simpa using hmem
        exact ⟨pkt, ref, hreq⟩
  · have hlast : (⟨.writeStream data respCh, ()⟩ :: post : List Step).countP (Step.registers ch) ≤
        (⟨.writeStream data respCh, ()⟩ :: post : List Step).countP (Step.handsOff ch) := by
      rcases hpost with rfl | rfl
      · simp [Step.registers]
      · by_cases hch : respCh = some ch
        · simp [Step.registers, Step.handsOff, hch]
        · simp [Step.registers, hch]
    have hle := Nat.add_le_add ((of_free hfront).count_le ch) hlast
    rwa [← List.countP_append, ← List.countP_append] at hle

theorem of_uses (hc : c.Quiet) {x t : Routine Unit} (hx : Uses c x) (h : x.Leads tr t) :
    Requests tr := by
  induction hx generalizing tr with
  | done =>
    obtain ⟨rfl, -⟩ := Prog.leads_ret.mp h
    exact of_free fun y hy => absurd hy List.not_mem_nil
  | @op e k he _ ih =>
    rcases Prog.leads_op.mp h with ⟨rfl, -⟩ | ⟨r, tr', rfl, h₁⟩
    · exact of_free fun y hy => absurd hy List.not_mem_nil
    · have hone : Requests [⟨e, r⟩] := of_free (by simpa using he)
      exact hone.append (ih r h₁)
  | @send pkt respCh k _ ih =>
    rcases Prog.leads_bind h with ⟨x', hx', -⟩ | ⟨tr₁, r, tr₂, rfl, hsend, h₁⟩
    · exact of_send hc hx'
    · exact (of_send hc hsend).append (ih r h₁)

end Requests

/-- An operation that `processIncoming` and the write routine perform, and `Send` does not. -/
def Op.answers : Op → Bool
  | .writeDone | .lookup _ | .unregister _ | .deliver _ _ | .misc _ => true
  | _ => false

theorem Op.answers_of_free {e : Op} (h : e.ofClient = false) : e.answers = false := by
  cases e with
  | writeDone => cases h
  | lookup ref => cases h
  | unregister ref => cases h
  | deliver ch p => cases h
  | misc p => cases h
  | _ => rfl

theorem UDPClient.send_allOps {c : UDPClient} (hc : c.Quiet) (pkt : Nat) (respCh : Option Nat) :
    (c.send pkt respCh).AllOps fun e => e.answers = false := by
  have hquiet : ∀ e : Op, e.quiet = true → e.answers = false := fun e he =>
    Op.answers_of_free (Op.ofClient_of_quiet he)
  refine Prog.allOps_bind ((ensureRef_quiet pkt).mono hquiet) fun ref =>
    Prog.allOps_op rfl fun bin => ?_
  refine Prog.allOps_bind ((hc.processData _ bin).mono hquiet) fun r => ?_
  obtain ⟨ctx, bin, err⟩ := r
  cases err with
  | some err => trivial
  | none =>
    exact Prog.allOps_ite (fun _ => trivial) fun _ =>
      Prog.allOps_op rfl fun _ => Prog.allOps_op rfl fun _ => trivial

theorem Uses.allOps {c : UDPClient} (hc : c.Quiet) {x : Routine Unit} (h : Uses c x) :
    x.AllOps fun e => e.answers = false := by
  induction h with
  | done => trivial
  | op he _ ih => exact ⟨Op.answers_of_free he, ih⟩
  | send _ ih => exact Prog.allOps_bind (UDPClient.send_allOps hc _ _) ih

/-! ### The other goroutines -/

namespace UDPClient

theorem writeError_allOps (respCh : Nat) (err : GoString) :
    (writeError respCh err).AllOps fun e => e.requests = false :=
  Prog.allOps_bind ((newErrPkt_quiet [] [] _).mono fun _ he =>
    Op.requests_of_free (Op.ofClient_of_quiet he)) fun _ =>
    Prog.allOps_op rfl fun _ => ⟨rfl, fun _ => trivial⟩

theorem decode_allOps (pkt : Nat) (data : Bytes) :
    (decode pkt data).AllOps fun e => e.sends = false := by
  refine Prog.allOps_op rfl fun err => ?_
  cases err with
  | some err => trivial
  | none =>
    refine Prog.allOps_op rfl fun ref => ?_
    rw [answer_eq]
    refine Prog.allOps_op rfl fun res => Prog.allOps_bind ?_ fun _ => ⟨rfl, fun _ => trivial⟩
    match res with
    | none => exact ⟨rfl, fun _ => trivial⟩
    | some none => exact ⟨rfl, fun _ => trivial⟩
    | some (some respCh) => exact ⟨rfl, fun _ => trivial⟩

theorem processIncoming_allOps {c : UDPClient} (hc : c.Quiet) (data : Bytes) :
    (c.processIncoming data).AllOps fun e => e.sends = false := by
  rw [processIncoming_eq]
  refine Prog.allOps_bind ((hc.processData _ data).mono fun _ he =>
    Op.sends_of_free (Op.ofClient_of_quiet he)) fun r => ?_
  obtain ⟨ctx, data, err⟩ := r
  cases err with
  | some err => trivial
  | none =>
    exact Prog.allOps_bind ((newPkt_quiet [] []).mono fun _ he =>
      Op.sends_of_free (Op.ofClient_of_quiet he)) fun pkt =>
      decode_allOps pkt data

end UDPClient

/-! ## 4. The log explains the state -/

section Explained

variable {α : Type}

/-- The program a goroutine was started with. -/
def Origin.program (c : UDPClient) (app : α → Routine Unit) : Origin α → Routine Unit
  | .app call => app call
  | .incoming data => c.processIncoming data
  | .failedWrite respCh err => UDPClient.writeError respCh err

structure Explained (c : UDPClient) (app : α → Routine Unit)
    (s : Sys Op Op.Res Endpoint (UDPClient.Env α)) : Prop where
  writing : s.state.writing.map Prod.snd = (replay s.log).writing
  requests : s.state.requests = (replay s.log).requests
  length_eq : (replay s.log).origins.length = s.threads.length
  tids : Machine.TidsOk s
  leads : ∀ (i : Nat) (o : Origin α), (replay s.log).origins[i]? = some o →
    ∃ t, s.threads[i]? = some t ∧ (o.program c app).Leads (own i s.log) t

variable {c : UDPClient} {app : α → Routine Unit}
  {s s' : Sys Op Op.Res Endpoint (UDPClient.Env α)} {evs : List (Event Choice (UDPClient.Env α))}

theorem replay_act {st st' : Endpoint} {h : Replay α} {ch : Choice} {e : Op} {r : e.Res}
    (hw : st.writing.map Prod.snd = h.writing) (hreq : st.requests = h.requests)
    (hh : st.handle ch e = .ok (r, st')) :
    st'.writing.map Prod.snd = (h.act e).writing ∧ st'.requests = (h.act e).requests := by
  cases e with
  | writeStream data respCh =>
    simp only [Endpoint.handle] at hh
    split at hh
    · cases hh
    · cases hh
      exact ⟨rfl, hreq⟩
  | register ref respCh =>
    cases hh
    exact ⟨hw, congrArg (GoMap.set · ref respCh) hreq⟩
  | unregister ref =>
    cases hh
    exact ⟨hw, congrArg (GoMap.delete · ref) hreq⟩
  | writeDone =>
    cases hh
    exact ⟨hw, hreq⟩
  | deliver respCh p =>
    cases hh
    exact ⟨hw, hreq⟩
  | receive respCh =>
    simp only [Endpoint.handle] at hh
    split at hh
    · cases hh
    · cases hh
      exact ⟨hw, hreq⟩
  | _ =>
    obtain ⟨hw', hreq', -⟩ := (Endpoint.handle_frame hh).2.2.2 rfl
    rw [hw', hreq']
    exact ⟨hw, hreq⟩

/-- An environment step starts the goroutine the log says. -/
theorem replay_env {st st' : Endpoint} {h : Replay α} {a : UDPClient.Env α}
    {t : Option (Routine Unit)} (hw : st.writing.map Prod.snd = h.writing)
    (hreq : st.requests = h.requests) (he : c.env app st a = some (st', t)) :
    st'.writing.map Prod.snd = (h.env a).writing ∧ st'.requests = (h.env a).requests ∧
      ∃ new : Option (Origin α), (h.env a).origins = h.origins ++ new.toList ∧
        t = new.map (Origin.program c app) := by
  cases a with
  | app call =>
    cases he
    exact ⟨hw, hreq, some _, rfl, rfl⟩
  | datagram data =>
    cases he
    exact ⟨hw, hreq, some _, rfl, rfl⟩
  | gc n =>
    cases he
    exact ⟨hw, hreq, none, (List.append_nil _).symm, rfl⟩
  | wrote =>
    obtain ⟨w, -, heq⟩ := Option.map_eq_some_iff.mp he
    cases heq
    exact ⟨rfl, hreq, none, (List.append_nil _).symm, rfl⟩
  | writeFailed err =>
    obtain ⟨⟨bin, respCh⟩, hst, heq⟩ := Option.map_eq_some_iff.mp he
    rw [hst] at hw
    cases respCh with
    | none =>
      rcases h.env_writeFailed err with ⟨ch, hch, -⟩ | ⟨-, henv⟩
      · cases hw.trans hch
      · cases heq
        rw [henv]
        exact ⟨rfl, hreq, none, (List.append_nil _).symm, rfl⟩
    | some respCh =>
      rcases h.env_writeFailed err with ⟨ch, hch, henv⟩ | ⟨hch, -⟩
      · cases hw.trans hch
        cases heq
        rw [henv]
        exact ⟨rfl, hreq, some _, rfl, rfl⟩
      · exact absurd hw.symm (hch respCh)

theorem explained_start : Explained c app UDPClient.start where
  writing := rfl
  requests := rfl
  length_eq := rfl
  tids _ _ _ h := absurd h List.not_mem_nil
  leads _ _ h := by cases h

theorem Explained.step {ev : Event Choice (UDPClient.Env α)} (x : Explained c app s)
    (h : (c.machine app).step s ev = .ok s') : Explained c app s' := by
  have htids := Machine.step_tidsOk x.tids h
  have hstep := h
  rcases Machine.step_ok h with ⟨i, ch, e, k, r, st, -, hi, hh, rfl⟩ | ⟨a, st, -, he, rfl⟩ |
    ⟨a, st, t, -, he, rfl⟩
  · obtain ⟨hw, hreq⟩ := replay_act x.writing x.requests hh
    refine ⟨?_, ?_, ?_, htids, fun j o hj => ?_⟩
    · rw [replay_snoc]
      exact hw
    · rw [replay_snoc]
      exact hreq
    · rw [replay_snoc, Replay.step, Replay.act_origins, x.length_eq, List.length_set]
    · rw [replay_snoc, Replay.step, Replay.act_origins] at hj
      obtain ⟨t, ht, hlead⟩ := x.leads j o hj
      obtain ⟨t', tr, ht', hown, hlead'⟩ := Machine.step_leads hstep ht
      exact ⟨t', ht', hown ▸ hlead.append hlead'⟩
  · obtain ⟨hw, hreq, new, horigins, hnew⟩ := replay_env x.writing x.requests he
    cases new with
    | some o => cases hnew
    | none =>
      rw [Option.toList_none, List.append_nil] at horigins
      refine ⟨?_, ?_, ?_, htids, fun j o hj => ?_⟩
      · rw [replay_snoc]
        exact hw
      · rw [replay_snoc]
        exact hreq
      · rw [replay_snoc, Replay.step, horigins, x.length_eq]
      · rw [replay_snoc, Replay.step, horigins] at hj
        rw [own_snoc_env]
        exact x.leads j o hj
  · obtain ⟨hw, hreq, new, horigins, hnew⟩ := replay_env x.writing x.requests he
    cases new with
    | none => cases hnew
    | some o =>
      cases hnew
      refine ⟨?_, ?_, ?_, htids, fun j o' hj => ?_⟩
      · rw [replay_snoc]
        exact hw
      · rw [replay_snoc]
        exact hreq
      · rw [replay_snoc, Replay.step, horigins, List.length_append, List.length_append, x.length_eq]
        rfl
      · rw [replay_snoc, Replay.step, horigins, Option.toList_some] at hj
        rw [own_snoc_env]
        by_cases hlt : j < s.threads.length
        · rw [List.getElem?_append_left (x.length_eq ▸ hlt)] at hj
          rw [List.getElem?_append_left hlt]
          exact x.leads j o' hj
        · -- the new goroutine has done nothing yet
          have hge := Nat.le_of_not_lt hlt
          rw [List.getElem?_append_right (x.length_eq ▸ hge), x.length_eq] at hj
          rw [List.getElem?_append_right hge, own_eq_nil x.tids hge]
          cases hn : j - s.threads.length with
          | zero =>
            rw [hn] at hj
            cases hj
            exact ⟨_, rfl, .nil _⟩
          | succ n =>
            rw [hn] at hj
            cases hj

/-- The log of every run explains its state. -/
theorem run_explained (h : (c.machine app).run UDPClient.start evs = .ok s) : Explained c app s :=
  Machine.run_invariant (M := c.machine app) (fun hx hs => hx.step hs) explained_start h

/-- An entry of the log was made by a goroutine with an origin, which had come so far. -/
theorem explained_act (h : (c.machine app).run UDPClient.start evs = .ok s)
    {pre post : List (Entry Op Op.Res (UDPClient.Env α))} {i : Nat} {e : Op} {r : e.Res}
    (hlog : s.log = pre ++ .act i e r :: post) :
    ∃ s₁ k ch st o, Explained c app s₁ ∧ s₁.log = pre ∧ s₁.threads[i]? = some (.op e k) ∧
      s₁.state.handle ch e = .ok (r, st) ∧ (replay pre).origins[i]? = some o ∧
      (o.program c app).Leads (own i pre) (.op e k) := by
  obtain ⟨evs₁, ch, k, s₁, st, hrun, hpre, hi, hh⟩ := Machine.run_act h rfl hlog
  have x := run_explained hrun
  have hlt : i < (replay s₁.log).origins.length :=
    x.length_eq ▸ (List.getElem?_eq_some_iff.mp hi).1
  obtain ⟨t, ht, hlead⟩ := x.leads i _ (List.getElem?_eq_getElem hlt)
  cases hi.symm.trans ht
  subst hpre
  exact ⟨s₁, k, ch, st, _, x, rfl, hi, hh, List.getElem?_eq_getElem hlt, hlead⟩

end Explained

end Concord
