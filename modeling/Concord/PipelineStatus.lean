import Concord.Go.Stages
import Concord.Pipeline

/-!
# Statuses that stop a pipeline

`DataPipeline.Process` and `PacketPipeline.Process` stop at three of the four statuses other than
`CodeContinue`. `CodeRelay` is not one of them, nor is a number without a name.

The stages are any programs: they read and write packets, look keys up, send, and may end in
more than one way. `processData_ends` and `processPacket_ends`: the outcomes of the pipelines are
those of the stages that are run (`StageRun`).
`nonzero_stops_iff`: any status other than zero stops the pipeline exactly if every stage
but the last leaves zero or one of the three.
-/

namespace Concord

open Go

/-! ## 1. Stages -/

/-- The statuses at which both loops stop. -/
def stopsAt (stat : Int) : Bool :=
  stat = codeStopError || stat = codeStopNoop || stat = codeStopCloseSend

theorem stopsAt_continue : stopsAt codeContinue = false := by decide

theorem stopsAt_eq_false {stat : Int} :
    stopsAt stat = false ↔
      ¬ stat = codeStopError ∧ ¬ (stat = codeStopNoop ∨ stat = codeStopCloseSend) := by
  simp only [stopsAt, Bool.or_eq_false_iff, decide_eq_false_iff_not, not_or, and_assoc]

/-- What a stage can make of its argument and of the endpoint, the response included. `H` is how
its operations are carried out: `Endpoint.handle`, or that with steps of other goroutines in
between. -/
def stage {α χ : Type} (H : Endpoint → χ → (e : Op) → Outcome (e.Res × Endpoint))
    (x : α → Routine α) (y z : α × Endpoint) : Prop :=
  Ends H (x y.1) y.2 z.1 z.2

/-- The loop of both pipelines, on whatever a stage works on. -/
def stageLoop {α : Type} (stat : α → Int) (err : α → GoString) :
    List (α → Routine α) → α → Routine (α × Option GoString)
  | [], a => pure (a, none)
  | x :: xs, a => do
    let b ← x a
    if stat b = codeStopError then
      return (b, some (err b))
    else if stat b = codeStopNoop ∨ stat b = codeStopCloseSend then
      return (b, none)
    else
      stageLoop stat err xs b

theorem processCallbacks_eq_loop (pw : Nat) (cbs : List TargetCallback) (ctx : TargetCtx) :
    processCallbacks pw cbs ctx = stageLoop TargetCtx.stat (fun ctx => Fmt.errorf ctx.msg)
      (cbs.map fun cb ctx => cb ctx pw) ctx := by
  induction cbs generalizing ctx with
  | nil => rfl
  | cons cb cbs ih => simp only [processCallbacks, List.map_cons, stageLoop, ih]

/-- Callers of `DataPipeline.Process` get the context and the buffer apart. -/
def apart (r : (TransformContext × Bytes) × Option GoString) :
    TransformContext × Bytes × Option GoString := (r.1.1, r.1.2, r.2)

theorem processTransforms_eq_loop (ts : List BufferTransform) (ctx : TransformContext)
    (data : Bytes) :
    processTransforms ts ctx data = stageLoop (fun x => x.1.stat)
      (fun x => Fmt.errorf (ascii "pipeline terminated: " ++ x.1.msg))
      (ts.map fun t x => t x.1 x.2) (ctx, data) >>= fun r => pure (apart r) := by
  induction ts generalizing ctx data with
  | nil => rfl
  | cons t ts ih =>
    simp only [processTransforms, List.map_cons, stageLoop, ih, Prog.bind_assoc]
    congr 1
    funext x
    split
    · rfl
    · split
      · rfl
      · rfl

section Loop

variable {α χ : Type} {H : Endpoint → χ → (e : Op) → Outcome (e.Res × Endpoint)}
  {stat : α → Int} {err : α → GoString}

/-- What the loop returns as its error, by what the stages have left that were run. -/
def stageErr (stat : α → Int) (err : α → GoString) (ys : List (α × Endpoint)) : Option GoString :=
  ys.getLast?.bind fun y => if stat y.1 = codeStopError then some (err y.1) else none

theorem stageErr_cons {y : α × Endpoint} {ys : List (α × Endpoint)}
    (h : ¬ stat y.1 = codeStopError) : stageErr stat err (y :: ys) = stageErr stat err ys := by
  cases ys with
  | nil => simp [stageErr, h]
  | cons z zs =>
    rw [stageErr, List.getLast?_cons_cons]
    rfl

/-- A stage that stops the loop is the last one that is run. -/
theorem stageLoop_stop {xs : List (α → Routine α)} {b : α} {s s' : Endpoint}
    {r : α × Option GoString} (hstop : stopsAt (stat b) = true) :
    Ends H (if stat b = codeStopError then pure (b, some (err b))
      else if stat b = codeStopNoop ∨ stat b = codeStopCloseSend then pure (b, none)
      else stageLoop stat err xs b) s r s' ↔
    (b, s) = (r.1, s') ∧ r.2 = stageErr stat err [(b, s)] := by
  simp only [stageErr, List.getLast?_singleton, Option.bind_some, Prod.mk.injEq]
  split
  · rw [ends_pure, Prod.ext_iff]
    tauto
  · next herr =>
    have hquiet : stat b = codeStopNoop ∨ stat b = codeStopCloseSend := by
      by_contra hno
      rw [stopsAt_eq_false.mpr ⟨herr, hno⟩] at hstop
      cases hstop
    rw [if_pos hquiet, ends_pure, Prod.ext_iff]
    tauto

/-- The outcomes of the loop are those of the stages that are run. -/
theorem stageLoop_ends {xs : List (α → Routine α)} {a : α} {s s' : Endpoint}
    {r : α × Option GoString} :
    Ends H (stageLoop stat err xs a) s r s' ↔
      ∃ ys, StageRun (fun y => stopsAt (stat y.1)) (xs.map (stage H)) (a, s) ys ∧
        ys.getLastD (a, s) = (r.1, s') ∧ r.2 = stageErr stat err ys := by
  induction xs generalizing a s with
  | nil =>
    rw [stageLoop, ends_pure, Prod.ext_iff]
    constructor
    · rintro ⟨⟨h₁, h₂⟩, rfl⟩
      exact ⟨[], .done, by rw [h₁]; rfl, h₂⟩
    · rintro ⟨ys, hrun, hlast, herr⟩
      cases hrun
      cases hlast
      exact ⟨⟨rfl, herr⟩, rfl⟩
  | cons x xs ih =>
    rw [stageLoop, ends_bind]
    constructor
    · rintro ⟨b, s₁, hx, hrest⟩
      cases hstop : stopsAt (stat b) with
      | true =>
        obtain ⟨hlast, herr⟩ := (stageLoop_stop hstop).mp hrest
        exact ⟨[(b, s₁)], .stop hx hstop, hlast, herr⟩
      | false =>
        obtain ⟨hne, hquiet⟩ := stopsAt_eq_false.mp hstop
        rw [if_neg hne, if_neg hquiet] at hrest
        obtain ⟨ys, hrun, hlast, herr⟩ := ih.mp hrest
        refine ⟨(b, s₁) :: ys, .go hx hstop hrun, ?_, ?_⟩
        · rw [List.getLastD_cons]
          exact hlast
        · rw [stageErr_cons hne]
          exact herr
    · rintro ⟨ys, hrun, hlast, herr⟩
      cases hrun with
      | @stop _ _ _ y hx hstop =>
        exact ⟨y.1, y.2, hx, (stageLoop_stop hstop).mpr ⟨hlast, herr⟩⟩
      | @go _ _ _ y ys hx hstop hrun =>
        obtain ⟨hne, hquiet⟩ := stopsAt_eq_false.mp hstop
        rw [List.getLastD_cons] at hlast
        rw [stageErr_cons hne] at herr
        refine ⟨y.1, y.2, hx, ?_⟩
        rw [if_neg hne, if_neg hquiet]
        exact ih.mpr ⟨ys, hrun, hlast, herr⟩

/-- Of `n` stages, the next is run exactly if those before it have left `CodeContinue`, and the
loop ends with the first stage that leaves something else, or with the last. -/
def NonzeroStops (stat : α → Int) (n : Nat) (ys : List (α × Endpoint)) : Prop :=
  StopsUnless (fun y => stat y.1 = codeContinue) n ys ∧
  ((∃ before y, ys = before ++ [y] ∧
      (∀ z ∈ before, stat z.1 = codeContinue) ∧ stat y.1 ≠ codeContinue) ∨
    ys.length = n ∧ ∀ y ∈ ys, stat y.1 = codeContinue)

/-- Every stage but the last leaves zero or a status that stops the loop. -/
def Recognised (stat : α → Int) (n : Nat) (ys : List (α × Endpoint)) : Prop :=
  ∀ i y, ys[i]? = some y → i + 1 < n → stat y.1 = codeContinue ∨ stopsAt (stat y.1) = true

theorem nonzeroStops_iff (stat : α → Int) {rs : List (α × Endpoint → α × Endpoint → Prop)}
    {x : α × Endpoint} {ys : List (α × Endpoint)} (h : StageRun (fun y => stopsAt (stat y.1)) rs x ys) :
    NonzeroStops stat rs.length ys ↔ Recognised stat rs.length ys := by
  have hgoes : ∀ y : α × Endpoint, stat y.1 = codeContinue → stopsAt (stat y.1) = false :=
    fun y hy => by rw [hy, stopsAt_continue]
  have hrec : Recognised stat rs.length ys ↔
      StopsUnless (fun y => stat y.1 = codeContinue) rs.length ys := by
    rw [h.stopsUnless_iff hgoes]
    refine forall₄_congr fun i y hy hi => ?_
    rw [← Bool.not_eq_true, ← or_iff_not_imp_right]
  rw [hrec]
  exact ⟨fun hun => hun.1, fun hun => ⟨hun, hun.last h.length_le⟩⟩

end Loop

/-! ## 2. The pipelines -/

section Pipelines

variable {χ : Type} (H : Endpoint → χ → (e : Op) → Outcome (e.Res × Endpoint))

/-- The ways in which the transforms can be run, one after the other. -/
def TransformRun (ts : List BufferTransform) :
    (TransformContext × Bytes) × Endpoint → List ((TransformContext × Bytes) × Endpoint) → Prop :=
  StageRun (fun y => stopsAt y.1.1.stat) ((ts.map fun t x => t x.1 x.2).map (stage H))

/-- The ways in which the callbacks can be run on the response `pw`. -/
def CallbackRun (pw : Nat) (cbs : List TargetCallback) :
    TargetCtx × Endpoint → List (TargetCtx × Endpoint) → Prop :=
  StageRun (fun y => stopsAt y.1.stat) ((cbs.map fun cb ctx => cb ctx pw).map (stage H))

variable {H} {s s' : Endpoint}

theorem processData_ends {pipelines : GoString → List BufferTransform} {ctx : TransformContext}
    {data : Bytes} {r : TransformContext × Bytes × Option GoString} :
    Ends H (processData pipelines ctx data) s r s' ↔
      ∃ ys, TransformRun H (pipelines ctx.pipelineName) ((ctx, data), s) ys ∧
        ys.getLastD ((ctx, data), s) = ((r.1, r.2.1), s') ∧
        r.2.2 = stageErr (fun x => x.1.stat)
          (fun x => Fmt.errorf (ascii "pipeline terminated: " ++ x.1.msg)) ys := by
  rw [processData, processTransforms_eq_loop, ends_bind]
  constructor
  · rintro ⟨b, s₁, hloop, hret⟩
    obtain ⟨rfl, rfl⟩ := ends_pure.mp hret
    exact stageLoop_ends.mp hloop
  · intro h
    exact ⟨((r.1, r.2.1), r.2.2), s', stageLoop_ends.mpr h, ends_pure.mpr ⟨rfl, rfl⟩⟩

theorem processPacket_ends {queues : GoString → Option (List TargetCallback)}
    {cbs : List TargetCallback} {ctx : TargetCtx} (hq : queues ctx.targetName = some cbs) {pw : Nat}
    {r : TargetCtx × Option GoString} :
    Ends H (processPacket queues ctx pw) s r s' ↔
      ∃ ys, CallbackRun H pw cbs (ctx, s) ys ∧ ys.getLastD (ctx, s) = (r.1, s') ∧
        r.2 = stageErr TargetCtx.stat (fun ctx => Fmt.errorf ctx.msg) ys := by
  rw [processPacket, hq]
  simp only [processCallbacks_eq_loop]
  exact stageLoop_ends

end Pipelines

/-- The outcomes of both pipelines are those of the stages that are run. Any status other than
zero stops them, where every stage but the last leaves zero or one of `CodeStopError`,
`CodeStopNoop` and `CodeStopCloseSend`; and only there. -/
theorem nonzero_stops_iff {χ : Type} (H : Endpoint → χ → (e : Op) → Outcome (e.Res × Endpoint))
    (s : Endpoint) (pipelines : GoString → List BufferTransform) (tctx : TransformContext)
    (data : Bytes) (queues : GoString → Option (List TargetCallback)) (ctx : TargetCtx) (pw : Nat)
    {cbs : List TargetCallback} (hq : queues ctx.targetName = some cbs) :
    ((∀ r s', Ends H (processData pipelines tctx data) s r s' ↔
        ∃ ys, TransformRun H (pipelines tctx.pipelineName) ((tctx, data), s) ys ∧
          ys.getLastD ((tctx, data), s) = ((r.1, r.2.1), s') ∧
          r.2.2 = stageErr (fun x => x.1.stat)
            (fun x => Fmt.errorf (ascii "pipeline terminated: " ++ x.1.msg)) ys) ∧
      ∀ ys, TransformRun H (pipelines tctx.pipelineName) ((tctx, data), s) ys →
        (NonzeroStops (fun x => x.1.stat) (pipelines tctx.pipelineName).length ys ↔
          Recognised (fun x => x.1.stat) (pipelines tctx.pipelineName).length ys)) ∧
    (∀ r s', Ends H (processPacket queues ctx pw) s r s' ↔
        ∃ ys, CallbackRun H pw cbs (ctx, s) ys ∧ ys.getLastD (ctx, s) = (r.1, s') ∧
          r.2 = stageErr TargetCtx.stat (fun ctx => Fmt.errorf ctx.msg) ys) ∧
      ∀ ys, CallbackRun H pw cbs (ctx, s) ys →
        (NonzeroStops TargetCtx.stat cbs.length ys ↔ Recognised TargetCtx.stat cbs.length ys) := by
  refine ⟨⟨fun r s' => processData_ends, fun ys h => ?_⟩, fun r s' => processPacket_ends hq,
    fun ys h => ?_⟩
  · simpa only [List.length_map] using nonzeroStops_iff (fun x : TransformContext × Bytes => x.1.stat) h
  · simpa only [List.length_map] using nonzeroStops_iff TargetCtx.stat h

/-- A callback that writes the data of the request into the response and sets the status. -/
def copies (stat : Int) : TargetCallback := fun ctx pw => do
  let data ← Prog.perform (.read ctx.pkt .data)
  let _ ← Prog.perform (.call pw (.write data))
  return { ctx with stat }

theorem copies_ends {s : Endpoint} {ctx : TargetCtx} {pw : Nat} {req resp : JSONPkt} (stat : Int)
    (hreq : s.pkts.mem[ctx.pkt]? = some req) (hresp : s.pkts.mem[pw]? = some resp) :
    Ends Endpoint.handle (copies stat ctx pw) s { ctx with stat }
      { s with pkts := s.pkts.setPkt pw (resp.write req.data) } := by
  have hread : ∀ c, s.handle c (.read ctx.pkt .data) = .ok (req.data, s) := fun c => by
    simp only [Endpoint.handle, hreq]
    rfl
  have hwrite : ∀ c, s.handle c (.call pw (.write req.data)) =
      .ok (none, { s with pkts := s.pkts.setPkt pw (resp.write req.data) }) := fun c => by
    simp only [Endpoint.handle, hresp]
    rfl
  exact (ends_det hread).mpr ((ends_det hwrite).mpr (ends_pure.mpr ⟨rfl, rfl⟩))

/-- A context as the server makes it, for a request that says hello and an empty response. -/
def someCtx : TargetCtx := { pkt := 0, targetName := ascii "app", sender := ascii "10.0.0.2:1" }

def greeting : JSONPkt := JSONPkt.new.write (ascii "hello")

def greeted : Endpoint :=
  { Endpoint.init with pkts := PktPool.empty.alloc.2.alloc.2.setPkt 0 greeting }

/-- The endpoint after the response has been written to. -/
def Endpoint.responded (s : Endpoint) (resp : JSONPkt) : Endpoint :=
  { s with pkts := s.pkts.setPkt 1 (resp.write greeting.data) }

def answered : Endpoint := greeted.responded JSONPkt.new

def answeredTwice : Endpoint := answered.responded (JSONPkt.new.write greeting.data)

theorem copies_greeted (stat : Int) :
    stage Endpoint.handle (fun ctx => copies stat ctx 1) (someCtx, greeted)
      ({ someCtx with stat }, answered) :=
  copies_ends stat rfl rfl

theorem copies_answered :
    stage Endpoint.handle (fun ctx => copies codeContinue ctx 1)
      ({ someCtx with stat := codeRelay }, answered) (someCtx, answeredTwice) :=
  copies_ends codeContinue rfl rfl

/-- `CodeStopNoop` in front of another callback stops the queue: the response is what the first
one has written. -/
theorem noop_stops :
    ∃ ys, CallbackRun Endpoint.handle 1 [copies codeStopNoop, copies codeContinue]
        (someCtx, greeted) ys ∧
      NonzeroStops TargetCtx.stat 2 ys ∧
      ys.getLastD (someCtx, greeted) = ({ someCtx with stat := codeStopNoop }, answered) := by
  have hrun : CallbackRun Endpoint.handle 1 [copies codeStopNoop, copies codeContinue]
      (someCtx, greeted) [({ someCtx with stat := codeStopNoop }, answered)] :=
    .stop (copies_greeted codeStopNoop) rfl
  refine ⟨_, hrun, ?_, rfl⟩
  have hiff := (nonzero_stops_iff Endpoint.handle greeted (fun _ => []) { pipelineName := [] } []
    (fun _ => some [copies codeStopNoop, copies codeContinue]) someCtx 1 rfl).2.2 _ hrun
  refine hiff.mpr fun i y hy hi => ?_
  cases i with
  | zero =>
    cases hy
    exact .inr rfl
  | succ i => exact absurd hi (by simp)

/-- `CodeRelay` does not: the callback behind it is run, writes into the response and takes the
status back. -/
theorem relay_does_not_stop :
    ∃ ys, CallbackRun Endpoint.handle 1 [copies codeRelay, copies codeContinue]
        (someCtx, greeted) ys ∧
      ¬ NonzeroStops TargetCtx.stat 2 ys ∧
      Ends Endpoint.handle (processPacket (fun _ => some [copies codeRelay, copies codeContinue])
        someCtx 1) greeted (someCtx, none) answeredTwice := by
  have hrun : CallbackRun Endpoint.handle 1 [copies codeRelay, copies codeContinue]
      (someCtx, greeted) [({ someCtx with stat := codeRelay }, answered),
        (someCtx, answeredTwice)] :=
    .go (copies_greeted codeRelay) rfl (.go copies_answered rfl .done)
  refine ⟨_, hrun, fun h => ?_, (processPacket_ends rfl).mpr ⟨_, hrun, rfl, rfl⟩⟩
  rcases (nonzeroStops_iff TargetCtx.stat hrun).mp h 0 _ rfl (by decide) with hzero | hstop
  · cases hzero
  · cases hstop

end Concord
