import Concord.Dispatch
import Concord.PipelineStatus
import Concord.PoolPoison
import Concord.Go.Seen

/-!
# The texts of errors

What a client is told when a transform of `_in_` or a callback has stopped a request with
`CodeStopError`. Both pipelines make an error from the stage's message with `fmt.Errorf`, of which
the message is the format or its end, and `processIncoming` puts a text of its own before it.

1. `stageLoop_error`: the pipeline returns that error, and no other.
2. `accept_sends_text` and `reply_sends_text`: it comes out as `_msg` of the packet that is sent.
3. `error_texts_iff`: which is the stage's message exactly if there is no percent sign in it.
-/

namespace Concord

open Go

/-! ## 1. Pipelines -/

/-- A loop that ends in `CodeStopError` returns the error of the stage that has set it. -/
theorem stageLoop_error {α : Type} {stat : α → Int} {err : α → GoString}
    {H : Endpoint → Choice → (e : Op) → Outcome (e.Res × Endpoint)} {xs : List (α → Routine α)}
    {a : α} {s s' : Endpoint} {tr : Trace} {r : α × Option GoString}
    (h : Execs H (stageLoop stat err xs a) s tr r s') (ha : stat a ≠ codeStopError)
    (hr : stat r.1 = codeStopError) : r.2 = some (err r.1) := by
  induction xs generalizing a s tr with
  | nil =>
    obtain ⟨-, rfl, -⟩ := execs_pure.mp h
    exact absurd hr ha
  | cons x xs ih =>
    obtain ⟨tr₁, b, s₁, tr₂, -, hrest, -⟩ := execs_bind.mp h
    split at hrest
    · obtain ⟨-, rfl, -⟩ := execs_pure.mp hrest
      rfl
    · next hb =>
      split at hrest
      · obtain ⟨-, rfl, -⟩ := execs_pure.mp hrest
        exact absurd hr hb
      · exact ih hrest hb

theorem processData_error {pipelines : GoString → List BufferTransform} {ctx : TransformContext}
    {data : Bytes} {s s' : Endpoint} {tr : Trace} {r : Processed}
    (h : Execs Endpoint.attended (processData pipelines ctx data) s tr r s')
    (hctx : ctx.stat = codeContinue) (hr : r.1.stat = codeStopError) :
    r.2.2 = some (Fmt.errorf (ascii "pipeline terminated: " ++ r.1.msg)) := by
  rw [processData, processTransforms_eq_loop] at h
  obtain ⟨tr₁, b, s₁, tr₂, hloop, hret, -⟩ := execs_bind.mp h
  obtain ⟨-, rfl, -⟩ := execs_pure.mp hret
  exact stageLoop_error hloop (by rw [hctx]; decide) hr

theorem processPacket_error {queues : GoString → Option (List TargetCallback)} {ctx : TargetCtx}
    {pw : Nat} {s s' : Endpoint} {tr : Trace} {o : TargetCtx × Option GoString}
    (h : Execs Endpoint.attended (processPacket queues ctx pw) s tr o s')
    (hctx : ctx.stat = codeContinue) (ho : o.1.stat = codeStopError) :
    o.2 = some (Fmt.errorf o.1.msg) := by
  unfold processPacket at h
  split at h
  · obtain ⟨-, rfl, -⟩ := execs_pure.mp h
    exact absurd (hctx.symm.trans ho) (by decide)
  · rw [processCallbacks_eq_loop] at h
    exact stageLoop_error h (by rw [hctx]; decide) ho

/-! ## 2. Packets -/

namespace UDPServer

variable {s : Endpoint}

/-- One packet is sent, and this is its `_msg`. -/
def SendsText (msg : GoString) (sent : List Nat) (s' : Endpoint) : Prop :=
  ∃ p, sent = [p] ∧ s'.metaOf p keySvrMsg = msg

theorem SendsText.put {msg : GoString} {sent : List Nat} (h : SendsText msg sent s) (q : Nat) :
    SendsText msg sent { s with pkts := s.pkts.put q } := by
  obtain ⟨p, hp, hmsg⟩ := h
  refine ⟨p, hp, ?_⟩
  rw [Endpoint.metaOf, PktPool.put_mem]
  exact hmsg

theorem sendErr_sends_text (ref dest msg : GoString) :
    Completes Endpoint.attended sent? (sendErr ref dest msg) s fun o _ s' => SendsText msg o s' := by
  refine completes_bind (newErrPkt_completes Endpoint.attended_attends sent?_unseen ref dest msg) ?_
  rintro o p s₁ ⟨rfl, wire, hmade⟩
  obtain ⟨c, hc, hshows⟩ := hmade.has
  refine sendStream_completes Endpoint.attended_attends ⟨p, rfl, ?_⟩
  rw [Endpoint.metaOf, show (Endpoint.pkts { s₁ with sending := some p }) = s₁.pkts from rfl, hc]
  exact hshows.metaGet keySvrMsg

theorem accept_sends_text {sender err : GoString} {r : Processed} (hr : r.2.2 = some err) :
    Completes Endpoint.attended sent? (accept sender r) s fun o q s' =>
      q = none ∧ SendsText (ascii "data pipeline error: " ++ err) o s' := by
  obtain ⟨ctx, data, _⟩ := r
  cases hr
  refine completes_bind (sendErr_sends_text [] sender _) fun o u s₁ hsent => completes_pure ⟨rfl, ?_⟩
  rw [List.append_nil]
  exact hsent

theorem reply_sends_text {sender err : GoString} {q : Request} {o : TargetCtx × Option GoString}
    (ho : o.2 = some err) :
    Completes Endpoint.attended sent? (reply sender q o) s fun sent _ s' =>
      SendsText (ascii "packet pipeline error: " ++ err) sent s' := by
  have hH := Endpoint.attended_attends
  obtain ⟨ctx, _⟩ := o
  cases ho
  refine completes_bind (putBack_completes hH sent?_unseen (Q := fun o _ _ => o = []) rfl) ?_
  rintro o u s₁ rfl
  refine completes_bind (sendErr_sends_text q.ref sender _) fun o u s₂ hsent => ?_
  refine putBack_completes hH sent?_unseen ?_
  rw [List.append_nil]
  exact hsent.put q.pkt

end UDPServer

/-! ## 3. What the client reads -/

/-- A text before a message does not change whether it is kept. -/
theorem errorf_append_eq_iff {before msg : GoString} (h : Fmt.percent ∉ before) :
    Fmt.errorf (before ++ msg) = before ++ msg ↔ Fmt.percent ∉ msg := by
  rw [Fmt.errorf_eq_iff, List.mem_append, not_or]
  exact and_iff_right h

open UDPServer

/-- However `processIncoming` runs, if a callback or a transform of `_in_` has stopped it with
`CodeStopError`, one packet is sent, and its `_msg` ends in the message of the stage exactly if
there is no percent sign in it. -/
theorem error_texts_iff (svr : UDPServer) (data : Bytes) (sender : GoString) (s s' : Endpoint)
    (tr : Trace) (u : Unit)
    (h : Execs Endpoint.attended (svr.processIncoming data sender) s tr u s') :
    ∃ k, Follows svr data sender s s' tr k ∧
      (∀ ctx err, k.queue = some (ctx, err) → ctx.stat = codeStopError →
        ∃ p, k.sent = [p] ∧
          (s'.metaOf p keySvrMsg = ascii "packet pipeline error: " ++ ctx.msg ↔
            Fmt.percent ∉ ctx.msg)) ∧
      (k.piped.1.stat = codeStopError →
        ∃ p, k.sent = [p] ∧
          (s'.metaOf p keySvrMsg =
              ascii "data pipeline error: pipeline terminated: " ++ k.piped.1.msg ↔
            Fmt.percent ∉ k.piped.1.msg)) := by
  obtain ⟨k, hk⟩ := exists_follows h
  refine ⟨k, hk, ?_⟩
  have hdata : ascii "data pipeline error: pipeline terminated: " =
      ascii "data pipeline error: " ++ ascii "pipeline terminated: " := by decide +kernel
  cases hk with
  | @refused tr₁ tr₂ r s₁ hpipe haccept =>
    refine ⟨(fun ctx err hq => by cases hq), fun hstat => ?_⟩
    have herr := processData_error hpipe rfl hstat
    obtain ⟨-, p, hsent, hmsg⟩ := (accept_sends_text herr).2 _ _ _ haccept
    refine ⟨p, hsent, ?_⟩
    rw [hmsg, hdata, List.append_assoc, List.append_cancel_left_eq]
    exact errorf_append_eq_iff (by decide)
  | @served tr₁ tr₂ tr₃ tr₄ r s₁ s₂ s₃ q o hpipe haccept hqueue hreply =>
    refine ⟨fun ctx err hq hstat => ?_, fun hstat => ?_⟩
    · cases hq
      have herr := processPacket_error hqueue rfl hstat
      have hacc := (accept_completes sender r).2 _ _ _ haccept
      obtain ⟨p, hsent, hmsg⟩ := (reply_sends_text herr).2 _ _ _ hreply
      refine ⟨p, ?_, ?_⟩
      · generalize hnone : tr₂.filterMap sent? = sent at hacc
        cases hacc with
        | begun _ _ =>
          rw [Course.sent, List.filterMap_append, hnone, hsent]
          rfl
      · rw [hmsg, List.append_cancel_left_eq]
        exact Fmt.errorf_eq_iff ctx.msg
    · have herr := processData_error hpipe rfl hstat
      obtain ⟨hq, -⟩ := (accept_sends_text herr).2 _ _ _ haccept
      cases hq

/-- A callback that refuses with this message, and a transform that does. -/
def declines (msg : GoString) : TargetCallback := fun ctx _ =>
  pure { ctx with stat := codeStopError, msg }

def stops (msg : GoString) : BufferTransform := fun ctx data =>
  pure ({ ctx with stat := codeStopError, msg }, data)

/-- Servers with one of them. -/
def decliningServer (msg : GoString) : UDPServer :=
  { bareServer with queues := addCallback bareServer.queues (ascii "ask") (declines msg) }

def stoppingServer (msg : GoString) : UDPServer :=
  { bareServer with data := addTransform bareServer.data pipelineIn (stops msg) }

def askDatagram : Bytes := ascii "\x7b\"m\":\x7b\"_ref\":\"r1\",\"_tgt\":\"ask\"\x7d,\"d\":\"\"\x7d"

/-- A message without percent signs. -/
theorem plain_text_kept :
    ∃ tr s' k p, Execs Endpoint.attended
        ((stoppingServer (ascii "not today")).processIncoming askDatagram (ascii "10.0.0.5:5000"))
        Endpoint.init tr () s' ∧
      Follows (stoppingServer (ascii "not today")) askDatagram (ascii "10.0.0.5:5000")
        Endpoint.init s' tr k ∧ k.sent = [p] ∧
      s'.metaOf p keySvrMsg =
        ascii "data pipeline error: pipeline terminated: not today" := by
  have hsome : (((stoppingServer (ascii "not today")).processIncoming askDatagram
      (ascii "10.0.0.5:5000")).exec Endpoint.attended (fun _ => {}) Endpoint.init).isSome = true := by
    decide +kernel
  obtain ⟨⟨u, cs, s'⟩, hexec⟩ := Option.isSome_iff_exists.mp hsome
  obtain ⟨tr, h⟩ := Prog.execs_of_exec hexec
  obtain ⟨k, hk, -, hpiped⟩ := error_texts_iff _ _ _ _ _ _ _ h
  have hr : k.piped.1.stat = codeStopError ∧ k.piped.1.msg = ascii "not today" := by
    cases hk with
    | refused hpipe _ =>
      obtain ⟨-, rfl, -⟩ := execs_pure.mp hpipe
      exact ⟨rfl, rfl⟩
    | served hpipe _ _ _ =>
      obtain ⟨-, rfl, -⟩ := execs_pure.mp hpipe
      exact ⟨rfl, rfl⟩
  obtain ⟨p, hsent, hmsg⟩ := hpiped hr.1
  rw [hr.2] at hmsg
  have htext : ascii "data pipeline error: pipeline terminated: " ++ ascii "not today" =
      ascii "data pipeline error: pipeline terminated: not today" := by decide +kernel
  exact ⟨tr, s', k, p, h, hk, hsent, (hmsg.mpr (by decide)).trans htext⟩

/-- A run of the server after which a packet with this `_msg` waits to be sent. -/
def Tells (svr : UDPServer) (evs : List (Event Choice UDPServer.Env)) (msg : GoString) : Prop :=
  ∃ sys p, svr.machine.run UDPServer.start evs = .ok sys ∧ sys.state.sending = some p ∧
    sys.state.metaOf p keySvrMsg = msg

theorem tells_of_result {svr : UDPServer} {evs : List (Event Choice UDPServer.Env)}
    {msg : GoString} (h : ((svr.machine.run UDPServer.start evs).result?.bind fun sys =>
      sys.state.sending.map fun p => sys.state.metaOf p keySvrMsg) = some msg) : Tells svr evs msg := by
  obtain ⟨sys, hsys, h⟩ := Option.bind_eq_some_iff.mp h
  obtain ⟨p, hp, hmsg⟩ := Option.map_eq_some_iff.mp h
  exact ⟨sys, p, Outcome.eq_ok_of_result? hsys, hp, hmsg⟩

/-- Directives in the message are replaced, whichever stage it comes from. -/
theorem percent_not_kept :
    Tells (decliningServer (ascii "50% off")) (serveSteps 0 askDatagram oneRequest)
      (ascii "packet pipeline error: 50%!o(MISSING)ff") ∧
    Tells (stoppingServer (ascii "disk 100% full")) (serveSteps 0 askDatagram 8)
      (ascii "data pipeline error: pipeline terminated: disk 100%!f(MISSING)ull") :=
  ⟨tells_of_result (by decide +kernel), tells_of_result (by decide +kernel)⟩

end Concord
