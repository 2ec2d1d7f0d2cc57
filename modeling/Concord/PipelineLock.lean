import Concord.UDPServer

/-!
# Locking a data pipeline

The methods of `DataPipeline` in `core/data_pipeline.go`, over any sequence of calls. `Serve` locks
the pipeline of its server, and the interface says that nothing is added from then on; but
`AddTransform` does not look at the lock.

1. `pipelines_after`: a pipeline holds every transform that was ever added under its name.
2. `locked_frozen_iff`: so it is the one that was there before the lock exactly if nothing was
   added under that name while it was locked.
-/

namespace Concord

open Go

structure DataPipeline where
  locked : Bool
  pipelines : GoString → List BufferTransform

namespace DataPipeline

def new : DataPipeline := ⟨false, fun _ => []⟩

def lock (d : DataPipeline) : DataPipeline := { d with locked := true }

def unlock (d : DataPipeline) : DataPipeline := { d with locked := false }

def addTransform (d : DataPipeline) (pipelineName : GoString) (transform : BufferTransform) :
    DataPipeline :=
  { d with pipelines := Concord.addTransform d.pipelines pipelineName transform }

def process (d : DataPipeline) (ctx : TransformContext) (data : Bytes) :
    Routine (TransformContext × Bytes × Option GoString) :=
  processData d.pipelines ctx data

/-! ## Calls -/

/-- A call on a pipeline; the transforms have names of their own. -/
inductive Call (ι : Type) where
  | lock
  | unlock
  | addTransform (pipelineName : GoString) (transform : ι)
  | process (ctx : TransformContext) (data : Bytes)

variable {ι : Type}

/-- The pipeline after a call, when the names stand for these transforms. -/
def step (tr : ι → BufferTransform) (d : DataPipeline) : Call ι → DataPipeline
  | .lock => d.lock
  | .unlock => d.unlock
  | .addTransform pipelineName i => d.addTransform pipelineName (tr i)
  | .process _ _ => d

def after (tr : ι → BufferTransform) (calls : List (Call ι)) : DataPipeline :=
  calls.foldl (step tr) new

/-- Whether the last call of `Lock` or `Unlock` was one of `Lock`, given what was before. -/
def lockedAfter (locked : Bool) (calls : List (Call ι)) : Bool :=
  calls.foldl (fun locked call =>
    match call with
    | .lock => true
    | .unlock => false
    | _ => locked) locked

/-- The transforms that were added under a name, each with whether the pipeline was locked. -/
def adds (name : GoString) : Bool → List (Call ι) → List (ι × Bool)
  | _, [] => []
  | _, .lock :: calls => adds name true calls
  | _, .unlock :: calls => adds name false calls
  | locked, .addTransform pipelineName i :: calls =>
    if name = pipelineName then (i, locked) :: adds name locked calls else adds name locked calls
  | locked, .process _ _ :: calls => adds name locked calls

/-- Those that were added while the pipeline was unlocked. -/
def addedUnlocked (name : GoString) (calls : List (Call ι)) : List ι :=
  ((adds name false calls).filter fun a => !a.2).map Prod.fst

/-- Nothing was added under this name while the pipeline was locked. -/
def NoneAddedLocked (name : GoString) (calls : List (Call ι)) : Prop :=
  ∀ a ∈ adds name false calls, a.2 = false

instance (name : GoString) (calls : List (Call ι)) : Decidable (NoneAddedLocked name calls) :=
  inferInstanceAs (Decidable (∀ a ∈ adds name false calls, a.2 = false))

theorem adds_append (name : GoString) (locked : Bool) (calls calls' : List (Call ι)) :
    adds name locked (calls ++ calls') =
      adds name locked calls ++ adds name (lockedAfter locked calls) calls' := by
  induction calls generalizing locked with
  | nil => rfl
  | cons call calls ih =>
    cases call with
    | lock => exact ih true
    | unlock => exact ih false
    | addTransform pipelineName i =>
      rw [List.cons_append, adds, adds]
      split
      · exact congrArg ((i, locked) :: ·) (ih locked)
      · exact ih locked
    | process ctx data => exact ih locked

theorem pipelines_foldl (tr : ι → BufferTransform) (name : GoString) (calls : List (Call ι))
    (d : DataPipeline) :
    (calls.foldl (step tr) d).pipelines name =
      d.pipelines name ++ (adds name d.locked calls).map fun a => tr a.1 := by
  induction calls generalizing d with
  | nil => exact (List.append_nil _).symm
  | cons call calls ih =>
    rw [List.foldl_cons, ih]
    cases call with
    | lock => rfl
    | unlock => rfl
    | addTransform pipelineName i =>
      simp only [step, addTransform, Concord.addTransform, adds]
      split
      · rw [List.append_assoc]
        rfl
      · rfl
    | process ctx data => rfl

/-- Every transform that was added under the name. -/
theorem pipelines_after (tr : ι → BufferTransform) (name : GoString) (calls : List (Call ι)) :
    (after tr calls).pipelines name = (adds name false calls).map fun a => tr a.1 :=
  pipelines_foldl tr name calls new

/-! ## Telling pipelines apart -/

/-- A transform that adds one byte. -/
def stamp : BufferTransform := fun ctx data => pure (ctx, data ++ [0])

theorem processTransforms_stamps (n : Nat) (name : GoString) (data : Bytes) :
    processTransforms (List.replicate n stamp) { pipelineName := name } data =
      pure ({ pipelineName := name }, data ++ List.replicate n 0, none) := by
  induction n generalizing data with
  | zero =>
    rw [List.replicate_zero, List.replicate_zero, List.append_nil]
    rfl
  | succ n ih =>
    have hrest := ih (data ++ [0])
    rw [List.append_assoc] at hrest
    exact hrest

/-- Stamps are counted by what they add. -/
theorem stamps_inj {m n : Nat} {name : GoString}
    (h : processTransforms (List.replicate m stamp) { pipelineName := name } [] =
      processTransforms (List.replicate n stamp) { pipelineName := name } []) : m = n := by
  rw [processTransforms_stamps, processTransforms_stamps] at h
  have hdata : List.replicate m (0 : UInt8) = List.replicate n 0 :=
    congrArg (fun r : TransformContext × Bytes × Option GoString => r.2.1) (Prog.ret.inj h)
  rw [← List.length_replicate (n := m) (a := (0 : UInt8)), hdata, List.length_replicate]

/-- With the same stamp for every name, `Process` counts what was added. -/
theorem process_stamps (name : GoString) (calls : List (Call ι)) :
    (after (fun _ => stamp) calls).process { pipelineName := name } [] =
      processTransforms (List.replicate (adds name false calls).length stamp)
        { pipelineName := name } [] := by
  rw [process, processData, pipelines_after, List.map_const']

/-- A call of `AddTransform` is seen by every later `Process` under its name, locked or not. -/
theorem process_ne_of_add (name : GoString) (i : ι) (before rest : List (Call ι)) :
    (after (fun _ => stamp) (before ++ .addTransform name i :: rest)).process
        { pipelineName := name } [] ≠
      (after (fun _ => stamp) (before ++ rest)).process { pipelineName := name } [] := by
  rw [process_stamps, process_stamps]
  intro h
  have hlen := stamps_inj h
  rw [adds_append, adds_append, adds, if_pos rfl, List.length_append, List.length_append,
    List.length_cons] at hlen
  omega

/-! ## The lock -/

/-- After any calls, `Process` runs the transforms that were added under the name while the
pipeline was unlocked, whatever the transforms are, exactly if none was added while it was locked.
A call of `AddTransform` while it is locked always has an effect. -/
theorem locked_frozen_iff (calls : List (Call ι)) (name : GoString) :
    ((∀ (tr : ι → BufferTransform) (ctx : TransformContext) (data : Bytes),
        ctx.pipelineName = name →
        (after tr calls).process ctx data =
          processTransforms ((addedUnlocked name calls).map tr) ctx data) ↔
      NoneAddedLocked name calls) ∧
    ∀ before i rest, calls = before ++ .addTransform name i :: rest →
      lockedAfter false before = true →
      ∃ (tr : ι → BufferTransform) (ctx : TransformContext) (data : Bytes),
        ctx.pipelineName = name ∧
        (after tr calls).process ctx data ≠ (after tr (before ++ rest)).process ctx data := by
  refine ⟨⟨fun h => ?_, fun h tr ctx data hname => ?_⟩, fun before i rest hcalls _ => ?_⟩
  · -- as many transforms were added unlocked as were added at all
    have hstamps := h (fun _ => stamp) { pipelineName := name } [] rfl
    rw [process_stamps, List.map_const', addedUnlocked, List.length_map] at hstamps
    have hall := List.length_filter_eq_length_iff.mp (stamps_inj hstamps).symm
    exact fun a ha => (Bool.not_eq_true' a.2).mp (hall a ha)
  · have hfilter : (adds name false calls).filter (fun a => !a.2) = adds name false calls :=
      List.filter_eq_self.mpr fun a ha => (Bool.not_eq_true' a.2).mpr (h a ha)
    rw [process, processData, hname, pipelines_after, addedUnlocked, hfilter, List.map_map]
    rfl
  · subst hcalls
    exact ⟨fun _ => stamp, { pipelineName := name }, [], rfl, process_ne_of_add name i before rest⟩

/-- A server's pipeline: locked once its transforms are there, and unlocked before more are
added. -/
def servedCalls : List (Call Bool) :=
  [.addTransform pipelineIn true, .lock, .process { pipelineName := pipelineIn } [1], .unlock,
    .addTransform pipelineIn false, .lock]

theorem served_frozen :
    (after (fun _ => stamp) servedCalls).process { pipelineName := pipelineIn } [1] =
      processTransforms [stamp, stamp] { pipelineName := pipelineIn } [1] :=
  (locked_frozen_iff servedCalls pipelineIn).1.mpr (by decide) (fun _ => stamp) _ [1] rfl

/-- A transform that is added to the pipeline of a running server is run. -/
theorem locked_not_frozen :
    lockedAfter false [Call.lock (ι := Unit)] = true ∧
    addedUnlocked pipelineOut [Call.lock, .addTransform pipelineOut ()] = [] ∧
    (after (fun _ => stamp) [.lock, .addTransform pipelineOut ()]).process
        { pipelineName := pipelineOut } [] = pure ({ pipelineName := pipelineOut }, [0], none) ∧
    processTransforms [] { pipelineName := pipelineOut } [] =
      pure ({ pipelineName := pipelineOut }, [], none) :=
  ⟨rfl, by decide, rfl, rfl⟩

end DataPipeline

end Concord
