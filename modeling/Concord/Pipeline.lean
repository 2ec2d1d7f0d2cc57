import Concord.Endpoint
import Concord.Go.Fmt

/-!
# Pipelines

`core/extension.go`, `core/data_pipeline.go` and `core/packet_pipeline.go`: the
contexts that are passed along a pipeline, and the loops that run the
transforms of a data pipeline and the callbacks of a target until one of them
sets a stopping status.

`processTransforms_wp` and `processPacket_wp` are the rules the rest of the
development uses for the loops: what every stage keeps, the loop keeps.
-/

namespace Concord

open Go

/-! ## Status codes and contexts -/

def codeContinue : Int := 0
def codeStopError : Int := -1
def codeStopCloseSend : Int := 1
def codeStopNoop : Int := 2
def codeRelay : Int := 3

/-- `TransformContext`; on an incoming buffer there is no packet yet. -/
structure TransformContext where
  pkt : Option Nat := none
  stat : Int := codeContinue
  msg : GoString := []
  pipelineName : GoString
  sender : GoString := []

/-- `TargetCtx` -/
structure TargetCtx where
  pkt : Nat
  stat : Int := codeContinue
  msg : GoString := []
  targetName : GoString
  sender : GoString

/-- `BufferTransform`: the context afterwards, and the resulting buffer. -/
abbrev BufferTransform := TransformContext → Bytes → Routine (TransformContext × Bytes)

/-- `TargetCallback`, on the packet object behind the writer. -/
abbrev TargetCallback := TargetCtx → Nat → Routine TargetCtx

/-- `AddTransform`. -/
def addTransform (pipelines : GoString → List BufferTransform) (pipelineName : GoString)
    (transform : BufferTransform) : GoString → List BufferTransform := fun name =>
  if name = pipelineName then pipelines name ++ [transform] else pipelines name

/-- `AddCallback`. -/
def addCallback (queues : GoString → Option (List TargetCallback)) (targetName : GoString)
    (cb : TargetCallback) : GoString → Option (List TargetCallback) := fun name =>
  if name = targetName then some ((queues name).getD [] ++ [cb]) else queues name

theorem mem_addTransform {pipelines : GoString → List BufferTransform} {pipelineName name : GoString}
    {transform t : BufferTransform} (h : t ∈ addTransform pipelines pipelineName transform name) :
    t ∈ pipelines name ∨ t = transform := by
  unfold addTransform at h
  split at h
  · rcases List.mem_append.mp h with h | h
    · exact .inl h
    · exact .inr (List.mem_singleton.mp h)
  · exact .inl h

/-- A callback of a queue was there before, or is the one that was added. -/
theorem mem_addCallback {queues : GoString → Option (List TargetCallback)}
    {targetName name : GoString} {new cb : TargetCallback} {cbs : List TargetCallback}
    (h : addCallback queues targetName new name = some cbs) (hcb : cb ∈ cbs) :
    (∃ cbs₀, queues name = some cbs₀ ∧ cb ∈ cbs₀) ∨ cb = new := by
  unfold addCallback at h
  split at h
  · cases h
    rcases List.mem_append.mp hcb with hcb | hcb
    · cases hq : queues name with
      | none => simp [hq] at hcb
      | some cbs₀ => exact .inl ⟨cbs₀, rfl, by simpa [hq] using hcb⟩
    · exact .inr (List.mem_singleton.mp hcb)
  · exact .inl ⟨cbs, h, hcb⟩

/-! ## The loops -/

/-- The loop of `DataPipeline.Process`; the last component is the error it
returns. -/
def processTransforms : List BufferTransform → TransformContext → Bytes →
    Routine (TransformContext × Bytes × Option GoString)
  | [], ctx, data => pure (ctx, data, none)
  | transform :: rest, ctx, data => do
    let (ctx, data) ← transform ctx data
    if ctx.stat = codeStopError then
      return (ctx, data, some (Fmt.errorf (ascii "pipeline terminated: " ++ ctx.msg)))
    else if ctx.stat = codeStopNoop ∨ ctx.stat = codeStopCloseSend then
      return (ctx, data, none)
    else
      processTransforms rest ctx data

/-- `DataPipeline.Process`. -/
def processData (pipelines : GoString → List BufferTransform) (ctx : TransformContext)
    (data : Bytes) : Routine (TransformContext × Bytes × Option GoString) :=
  processTransforms (pipelines ctx.pipelineName) ctx data

/-- The loop of `PacketPipeline.Process`. -/
def processCallbacks (pw : Nat) : List TargetCallback → TargetCtx →
    Routine (TargetCtx × Option GoString)
  | [], ctx => pure (ctx, none)
  | cb :: rest, ctx => do
    let ctx ← cb ctx pw
    if ctx.stat = codeStopError then
      return (ctx, some (Fmt.errorf ctx.msg))
    else if ctx.stat = codeStopNoop ∨ ctx.stat = codeStopCloseSend then
      return (ctx, none)
    else
      processCallbacks pw rest ctx

/-- `PacketPipeline.Process`. -/
def processPacket (queues : GoString → Option (List TargetCallback)) (ctx : TargetCtx) (pw : Nat) :
    Routine (TargetCtx × Option GoString) :=
  match queues ctx.targetName with
  | none => pure (ctx, some (ascii "target not found"))
  | some callbacks => processCallbacks pw callbacks ctx

/-! ## Operations of the loops -/

section Operations

variable {P : Op → Prop}

theorem processTransforms_allOps {ts : List BufferTransform}
    (hts : ∀ t ∈ ts, ∀ ctx data, (t ctx data).AllOps P) (ctx : TransformContext) (data : Bytes) :
    (processTransforms ts ctx data).AllOps P := by
  induction ts generalizing ctx data with
  | nil => trivial
  | cons t ts ih =>
    refine Prog.allOps_bind (hts t List.mem_cons_self ctx data) fun r => ?_
    exact Prog.allOps_ite (fun _ => trivial) fun _ => Prog.allOps_ite (fun _ => trivial) fun _ =>
      ih (fun t ht => hts t (List.mem_cons_of_mem _ ht)) _ _

theorem processPacket_allOps {queues : GoString → Option (List TargetCallback)}
    (hq : ∀ name cbs, queues name = some cbs → ∀ cb ∈ cbs, ∀ ctx pw, (cb ctx pw).AllOps P)
    (ctx : TargetCtx) (pw : Nat) : (processPacket queues ctx pw).AllOps P := by
  unfold processPacket
  split
  · trivial
  · next cbs h =>
    have hcbs := hq _ cbs h
    clear h
    induction cbs generalizing ctx with
    | nil => trivial
    | cons cb cbs ih =>
      refine Prog.allOps_bind (hcbs cb List.mem_cons_self ctx pw) fun ctx' => ?_
      exact Prog.allOps_ite (fun _ => trivial) fun _ => Prog.allOps_ite (fun _ => trivial) fun _ =>
        ih ctx' fun cb hcb => hcbs cb (List.mem_cons_of_mem _ hcb)

end Operations

/-! ## Rules -/

section Rules

variable {γ : Type} {S : Prog.Rules Op Op.Res γ}

theorem processTransforms_wp (hS : S.Mono) {J : TransformContext → γ → Prop}
    {ts : List BufferTransform}
    (hts : ∀ t ∈ ts, ∀ ctx data g, J ctx g → (t ctx data).wp S g fun r g' => J r.1 g')
    {ctx : TransformContext} {data : Bytes} {g : γ} (hg : J ctx g) :
    (processTransforms ts ctx data).wp S g fun r g' => J r.1 g' := by
  induction ts generalizing ctx data g with
  | nil => exact hg
  | cons t ts ih =>
    rw [processTransforms, Prog.wp_bind]
    refine Prog.wp_mono hS (fun r g' hr => ?_) (hts t List.mem_cons_self ctx data g hg)
    obtain ⟨ctx', data'⟩ := r
    simp only
    split
    · exact hr
    · split
      · exact hr
      · exact ih (fun t ht => hts t (List.mem_cons_of_mem _ ht)) hr

theorem processCallbacks_wp (hS : S.Mono) {pw : Nat} {J : TargetCtx → γ → Prop}
    {cbs : List TargetCallback}
    (hcbs : ∀ cb ∈ cbs, ∀ ctx g, J ctx g → (cb ctx pw).wp S g fun ctx' g' => J ctx' g')
    {ctx : TargetCtx} {g : γ} (hg : J ctx g) :
    (processCallbacks pw cbs ctx).wp S g fun r g' => J r.1 g' := by
  induction cbs generalizing ctx g with
  | nil => exact hg
  | cons cb cbs ih =>
    rw [processCallbacks, Prog.wp_bind]
    refine Prog.wp_mono hS (fun ctx' g' hr => ?_) (hcbs cb List.mem_cons_self ctx g hg)
    split
    · exact hr
    · split
      · exact hr
      · exact ih (fun cb hcb => hcbs cb (List.mem_cons_of_mem _ hcb)) hr

/-- A target that is not configured touches nothing; any other runs its queue. -/
theorem processPacket_wp (hS : S.Mono) {queues : GoString → Option (List TargetCallback)}
    {pw : Nat} {J : TargetCtx → γ → Prop}
    (hq : ∀ name cbs, queues name = some cbs → ∀ cb ∈ cbs, ∀ ctx g, J ctx g →
      (cb ctx pw).wp S g fun ctx' g' => J ctx' g')
    {ctx : TargetCtx} {g : γ} (hg : J ctx g) :
    (processPacket queues ctx pw).wp S g fun r g' => J r.1 g' := by
  unfold processPacket
  split
  · exact hg
  · next cbs h => exact processCallbacks_wp hS (hq _ cbs h) hg

end Rules

end Concord
