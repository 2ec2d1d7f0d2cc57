import Concord.KeyChoice

/-!
# Stacked extensions

`Extend` of an extension appends a transform to the `_in_` pipeline and one to the `_out_`
pipeline of a processor, and `Process` runs either pipeline from its first transform to
its last. The receiver therefore undoes first what the sender did first, with everything
the sender did later still on top of it.

`stack_roundtrips_iff`: whatever the extensions are, as long as each undoes its own work,
a buffer comes back if and only if the order of installation reads the same backwards. Two
Crypto extensions with different keys never get a buffer back (`crypto_pair_not_opened`).
-/

namespace Concord

open Go

/-! ## 1. Installing extensions -/

/-- What an extension appends to the data pipelines of a processor. -/
structure DataExtension where
  inTransform : BufferTransform
  outTransform : BufferTransform

namespace DataExtension

/-- `Extend`. -/
def extend (e : DataExtension) (data : GoString → List BufferTransform) :
    GoString → List BufferTransform :=
  addTransform (addTransform data pipelineIn e.inTransform) pipelineOut e.outTransform

/-- A processor without transforms after the extensions have been installed in turn. -/
def installAll (es : List DataExtension) : GoString → List BufferTransform :=
  es.foldl (fun data e => e.extend data) fun _ => []

theorem foldl_extend_in (es : List DataExtension) (data : GoString → List BufferTransform) :
    es.foldl (fun data e => e.extend data) data pipelineIn =
      data pipelineIn ++ es.map inTransform := by
  induction es generalizing data with
  | nil => simp
  | cons e es ih =>
    have hne : pipelineIn ≠ pipelineOut := by decide
    rw [List.foldl_cons, ih, extend, addTransform, if_neg hne, addTransform, if_pos rfl]
    simp

theorem foldl_extend_out (es : List DataExtension) (data : GoString → List BufferTransform) :
    es.foldl (fun data e => e.extend data) data pipelineOut =
      data pipelineOut ++ es.map outTransform := by
  induction es generalizing data with
  | nil => simp
  | cons e es ih =>
    have hne : pipelineOut ≠ pipelineIn := by decide
    rw [List.foldl_cons, ih, extend, addTransform, if_pos rfl, addTransform, if_neg hne]
    simp

theorem installAll_in (es : List DataExtension) :
    installAll es pipelineIn = es.map inTransform := foldl_extend_in es _

theorem installAll_out (es : List DataExtension) :
    installAll es pipelineOut = es.map outTransform := foldl_extend_out es _

end DataExtension

/-- The Crypto extension; on a server it installs its targets as well. -/
def Crypto.extension (cr : Crypto) : DataExtension := ⟨cr.decryptTransport, cr.encryptTransport⟩

theorem Crypto.extendServer_data (cr : Crypto) (svr : UDPServer) :
    (cr.extendServer svr).data = cr.extension.extend svr.data := rfl

theorem Crypto.extendClient_data (cr : Crypto) (c : UDPClient) :
    (cr.extendClient c).data = cr.extension.extend c.data := rfl

/-! ## 2. Runs of a pipeline that is not stopped -/

/-- The pipeline goes on with this context. -/
def TransformContext.Flows (ctx : TransformContext) : Prop :=
  ctx.stat ≠ codeStopError ∧ ctx.stat ≠ codeStopNoop ∧ ctx.stat ≠ codeStopCloseSend

/-- The transforms are run one after the other, and none stops the pipeline. -/
inductive Chain : List BufferTransform → TransformContext → Bytes → Endpoint →
    TransformContext → Bytes → Endpoint → Prop
  | nil (ctx : TransformContext) (buff : Bytes) (s : Endpoint) : Chain [] ctx buff s ctx buff s
  | cons {t : BufferTransform} {ts : List BufferTransform} {ctx ctx₁ ctx' : TransformContext}
      {buff buff₁ out : Bytes} {s s₁ s' : Endpoint} :
      Ends Endpoint.handle (t ctx buff) s (ctx₁, buff₁) s₁ → ctx₁.Flows →
      Chain ts ctx₁ buff₁ s₁ ctx' out s' → Chain (t :: ts) ctx buff s ctx' out s'

section Chains

variable {ts us : List BufferTransform} {ctx ctx' : TransformContext} {buff out : Bytes}
  {s s' : Endpoint} {err : Option GoString}

theorem chain_of_ends
    (h : Ends Endpoint.handle (processTransforms ts ctx buff) s (ctx', out, err) s')
    (hflow : ctx'.Flows) : Chain ts ctx buff s ctx' out s' := by
  induction ts generalizing ctx buff s with
  | nil =>
    obtain ⟨heq, rfl⟩ := ends_pure.mp h
    cases heq
    exact .nil _ _ _
  | cons t ts ih =>
    obtain ⟨⟨ctx₁, buff₁⟩, s₁, ht, h⟩ := ends_bind.mp h
    simp only at h
    -- a stage that stops the pipeline would have left its status behind
    split at h
    · next hstat =>
      obtain ⟨h, -⟩ := ends_pure.mp h
      cases h
      exact absurd hstat hflow.1
    · next hne =>
      split at h
      · next hstat =>
        obtain ⟨h, -⟩ := ends_pure.mp h
        cases h
        rcases hstat with hstat | hstat
        · exact absurd hstat hflow.2.1
        · exact absurd hstat hflow.2.2
      · next hstop =>
        obtain ⟨hnoop, hclose⟩ := not_or.mp hstop
        exact .cons ht ⟨hne, hnoop, hclose⟩ (ih h)

theorem ends_of_chain (h : Chain ts ctx buff s ctx' out s') :
    Ends Endpoint.handle (processTransforms ts ctx buff) s (ctx', out, none) s' := by
  induction h with
  | nil ctx buff s => exact ends_pure.mpr ⟨rfl, rfl⟩
  | cons ht hflow _ ih =>
    refine ends_bind.mpr ⟨_, _, ht, ?_⟩
    simp only
    rw [if_neg hflow.1, if_neg (not_or.mpr hflow.2)]
    exact ih

theorem chain_append (h : Chain (ts ++ us) ctx buff s ctx' out s') :
    ∃ ctx₁ buff₁ s₁, Chain ts ctx buff s ctx₁ buff₁ s₁ ∧ Chain us ctx₁ buff₁ s₁ ctx' out s' := by
  induction ts generalizing ctx buff s with
  | nil => exact ⟨ctx, buff, s, .nil _ _ _, h⟩
  | cons t ts ih =>
    cases h with
    | cons ht hflow h =>
      obtain ⟨ctx₁, buff₁, s₁, h₁, h₂⟩ := ih h
      exact ⟨ctx₁, buff₁, s₁, .cons ht hflow h₁, h₂⟩

end Chains

/-! ## 3. Extensions that undo their own work -/

/-- What the `_out_` transform makes of a buffer in a sender's state, the `_in_` transform
turns back in a receiver's state. `S` and `R` are what is known of the two states, and the
transforms keep it. -/
structure DataExtension.Inverts (e : DataExtension) (S R : Endpoint → Prop) : Prop where
  out_keeps : ∀ {ctx buff s r s'}, S s → Ends Endpoint.handle (e.outTransform ctx buff) s r s' → S s'
  in_keeps : ∀ {ctx buff s r s'}, R s → Ends Endpoint.handle (e.inTransform ctx buff) s r s' → R s'
  inverts : ∀ {ctx ctx₁ ctx' ctx₂ : TransformContext} {buff wire out : Bytes} {s s' r r'},
    S s → R r → Ends Endpoint.handle (e.outTransform ctx buff) s (ctx₁, wire) s' → ctx₁.Flows →
    Ends Endpoint.handle (e.inTransform ctx' wire) r (ctx₂, out) r' → ctx₂.Flows → out = buff

/-- With the extensions on both endpoints, what the sender's `_out_` pipeline makes of a
buffer the receiver's `_in_` pipeline turns back, all statuses being `CodeContinue`. -/
def RoundTrips (es : List DataExtension) (S R : Endpoint → Prop) : Prop :=
  ∀ (p : Nat) (sender : GoString) (buff wire out : Bytes) (ctx ctx' : TransformContext)
    (s s' r r' : Endpoint), S s → R r →
    Ends Endpoint.handle (processData (DataExtension.installAll es)
      { pkt := some p, pipelineName := pipelineOut } buff) s (ctx, wire, none) s' →
    ctx.stat = codeContinue →
    Ends Endpoint.handle (processData (DataExtension.installAll es)
      { pipelineName := pipelineIn, sender := sender } wire) r (ctx', out, none) r' →
    ctx'.stat = codeContinue → out = buff

theorem TransformContext.flows_of_continue {ctx : TransformContext} (h : ctx.stat = codeContinue) :
    ctx.Flows := by
  unfold Flows
  rw [h]
  decide

/-- The receiver has to work backwards. -/
theorem chain_reverse {S R : Endpoint → Prop} {es : List DataExtension}
    (hes : ∀ e ∈ es, e.Inverts S R) {ctx ctx₁ ctx' ctx₂ : TransformContext}
    {buff wire out : Bytes} {s s' r r' : Endpoint} (hs : S s) (hr : R r)
    (hout : Chain (es.map DataExtension.outTransform) ctx buff s ctx₁ wire s')
    (hin : Chain (es.reverse.map DataExtension.inTransform) ctx' wire r ctx₂ out r') :
    out = buff ∧ R r' := by
  induction es generalizing ctx buff s ctx₂ out r' with
  | nil =>
    cases hout
    cases hin
    exact ⟨rfl, hr⟩
  | cons e es ih =>
    have he := hes e List.mem_cons_self
    rw [List.reverse_cons, List.map_append, List.map_cons, List.map_nil] at hin
    obtain ⟨ctx₃, mid, r₁, hin, hlast⟩ := chain_append hin
    cases hout with
    | cons ht hflow hout =>
      obtain ⟨rfl, hr₁⟩ := ih (fun e he => hes e (List.mem_cons_of_mem _ he)) (he.out_keeps hs ht)
        hout hin
      cases hlast with
      | cons hi hflow' hnil =>
        cases hnil
        exact ⟨he.inverts hs hr₁ ht hflow hi hflow', he.in_keeps hr₁ hi⟩

/-! ## 4. Extensions that show the order -/

/-- A stamp in front of a buffer. -/
def stamp (i : Nat) : Bytes := List.replicate i 1 ++ [0]

def stripStamp (i : Nat) (buff : Bytes) : Bytes :=
  if (stamp i).isPrefixOf buff then buff.drop (i + 1) else buff

/-- Extension `i` puts its stamp on a buffer, and takes it off if it is there. -/
def stamping (i : Nat) : DataExtension where
  inTransform ctx buff := pure (ctx, stripStamp i buff)
  outTransform ctx buff := pure (ctx, stamp i ++ buff)

theorem length_stamp (i : Nat) : (stamp i).length = i + 1 := by simp [stamp]

theorem stripStamp_append (i : Nat) (buff : Bytes) : stripStamp i (stamp i ++ buff) = buff := by
  have hfront : (stamp i).isPrefixOf (stamp i ++ buff) = true :=
    List.isPrefixOf_iff_prefix.mpr (List.prefix_append _ _)
  rw [stripStamp, if_pos hfront, List.drop_left' (length_stamp i)]

theorem stamping_inverts (i : Nat) : (stamping i).Inverts (fun _ => True) fun _ => True where
  out_keeps _ _ := trivial
  in_keeps _ _ := trivial
  inverts := by
    intro ctx ctx₁ ctx' ctx₂ buff wire out s s' r r' _ _ hout _ hin _
    obtain ⟨hout, -⟩ := ends_pure.mp hout
    obtain ⟨hin, -⟩ := ends_pure.mp hin
    cases hout
    cases hin
    exact stripStamp_append i buff

/-- Stripping takes at most the stamps of the given names off. -/
theorem length_foldl_stripStamp (names : List Nat) (buff : Bytes) :
    buff.length ≤
      (names.foldl (fun b i => stripStamp i b) buff).length + (names.map (· + 1)).sum := by
  induction names generalizing buff with
  | nil => simp
  | cons i names ih =>
    have hone : buff.length ≤ (stripStamp i buff).length + (i + 1) := by
      unfold stripStamp
      split
      · rw [List.length_drop]
        omega
      · omega
    have hrest := ih (stripStamp i buff)
    rw [List.foldl_cons, List.map_cons, List.sum_cons]
    omega

theorem length_flatMap_stamp (names : List Nat) :
    (names.flatMap stamp).length = (names.map (· + 1)).sum := by
  induction names with
  | nil => rfl
  | cons i names ih =>
    rw [List.flatMap_cons, List.length_append, ih, length_stamp, List.map_cons, List.sum_cons]

/-- Stamps come off completely only in the order in which they stand. -/
theorem eq_of_foldl_stripStamp {xs ys : List Nat}
    (hsum : (xs.map (· + 1)).sum = (ys.map (· + 1)).sum)
    (h : xs.foldl (fun b i => stripStamp i b) (ys.flatMap stamp) = []) : xs = ys := by
  induction xs generalizing ys with
  | nil =>
    cases ys with
    | nil => rfl
    | cons y ys =>
      rw [List.map_cons, List.sum_cons] at hsum
      simp only [List.map_nil, List.sum_nil] at hsum
      omega
  | cons x xs ih =>
    rw [List.foldl_cons] at h
    rw [List.map_cons, List.sum_cons] at hsum
    by_cases hfront : (stamp x).isPrefixOf (ys.flatMap stamp) = true
    · obtain ⟨rest, hrest⟩ := List.isPrefixOf_iff_prefix.mp hfront
      cases ys with
      | nil => simp [stamp] at hrest
      | cons y ys =>
        -- the stamps are a code without prefixes
        have hxy : x = y := by
          refine replicate_cons_inj (x := rest) (y := ys.flatMap stamp) ?_
          simpa [stamp] using hrest
        subst hxy
        rw [List.flatMap_cons, stripStamp_append] at h
        rw [List.map_cons, List.sum_cons] at hsum
        rw [ih (by omega) h]
    · -- one stamp too few comes off
      rw [stripStamp, if_neg hfront] at h
      have hlen := length_foldl_stripStamp xs (ys.flatMap stamp)
      rw [h, length_flatMap_stamp, ← hsum, List.length_nil] at hlen
      omega

theorem foldl_stamp (names : List Nat) (buff : Bytes) :
    names.foldl (fun b i => stamp i ++ b) buff = names.reverse.flatMap stamp ++ buff := by
  induction names generalizing buff with
  | nil => rfl
  | cons i names ih => simp [ih]

/-- A pipeline of transforms that compute. -/
theorem ends_computed {ι : Type} (t : ι → BufferTransform) (f : ι → Bytes → Bytes)
    (ht : ∀ i ctx buff, t i ctx buff = pure (ctx, f i buff)) (ctx : TransformContext)
    (hctx : ctx.stat = codeContinue) (names : List ι) (buff : Bytes) (s : Endpoint) :
    Ends Endpoint.handle (processTransforms (names.map t) ctx buff) s
      (ctx, names.foldl (fun b i => f i b) buff, none) s := by
  obtain ⟨herr, hnoop, hclose⟩ := TransformContext.flows_of_continue hctx
  induction names generalizing buff with
  | nil => exact ends_pure.mpr ⟨rfl, rfl⟩
  | cons i names ih =>
    rw [List.map_cons, processTransforms, ht]
    refine ends_bind.mpr ⟨_, s, ends_pure.mpr ⟨rfl, rfl⟩, ?_⟩
    simp only
    rw [if_neg herr, if_neg (not_or.mpr ⟨hnoop, hclose⟩)]
    exact ih (f i buff)

/-! ## 5. Which orders work -/

/-- The extensions are installed in the order `names` on both endpoints. -/
theorem stack_roundtrips_iff (names : List Nat) :
    (∀ (E : Nat → DataExtension) (S R : Endpoint → Prop), (∀ i ∈ names, (E i).Inverts S R) →
      RoundTrips (names.map E) S R) ↔ names.reverse = names := by
  constructor
  · intro h
    -- with stamps, the buffer on the wire shows the order of installation
    have hround := h stamping (fun _ => True) (fun _ => True) fun i _ => stamping_inverts i
    have hout := ends_computed (fun i => (stamping i).outTransform) (fun i b => stamp i ++ b)
      (fun _ _ _ => rfl) { pkt := some 0, pipelineName := pipelineOut } rfl names []
      Endpoint.init
    have hin := ends_computed (fun i => (stamping i).inTransform) stripStamp
      (fun _ _ _ => rfl) { pipelineName := pipelineIn, sender := [] } rfl names
      (names.reverse.flatMap stamp) Endpoint.init
    rw [foldl_stamp, List.append_nil] at hout
    have hnil := hround 0 [] _ _ _ _ _ _ _ _ _ trivial trivial
      (by rw [processData, DataExtension.installAll_out, List.map_map]; exact hout) rfl
      (by rw [processData, DataExtension.installAll_in, List.map_map]; exact hin) rfl
    refine (eq_of_foldl_stripStamp ?_ hnil).symm
    rw [List.map_reverse, List.sum_reverse]
  · intro hrev E S R hE p sender buff wire out ctx ctx' s s' r r' hs hr hout hctx hin hctx'
    rw [processData, DataExtension.installAll_out] at hout
    rw [processData, DataExtension.installAll_in] at hin
    have hback : (names.map E).reverse = names.map E := by rw [← List.map_reverse, hrev]
    have hin := chain_of_ends hin (TransformContext.flows_of_continue hctx')
    rw [← hback] at hin
    refine (chain_reverse (fun e he => ?_) hs hr
      (chain_of_ends hout (TransformContext.flows_of_continue hctx)) hin).1
    obtain ⟨i, hi, rfl⟩ := List.mem_map.mp he
    exact hE i hi

/-! ## 6. Two Crypto extensions -/

/-- A Crypto extension on a connection to a peer whose key it holds, and has sent. -/
def cryptoStage (a : AEAD) (key : Bytes) : DataExtension where
  inTransform ctx buff := do
    match ← decryptAES a key buff with
    | .error _ => return (ctx, buff)
    | .ok decrypted => return (ctx, decrypted)
  outTransform ctx buff := do
    match ← encryptAES a key buff with
    | .error err =>
      return ({ ctx with stat := codeStopError, msg := ascii "encryption error: " ++ err }, buff)
    | .ok ciphertext => return (ctx, ciphertext)

section Stage

variable {cr : Crypto} {a : AEAD} {key : Bytes} {k : KeyRef} {s s' : Endpoint} {p : Nat}
  {c : JSONPkt} {ctx ctx' : TransformContext} {buff out : Bytes}

theorem encryptTransport_stage (hp : s.pkts.mem[p]? = some c) (hctx : ctx.pkt = some p)
    (hskip : Crypto.isSkip (c.metaGet Crypto.keyNoCrypto) = false)
    (hk : s.keys.getKeyStore c.dest = some k) (hsent : s.keys.getKeySent k.id = true) :
    Ends Endpoint.handle (cr.encryptTransport ctx buff) s (ctx', out) s' ↔
      Ends Endpoint.handle ((cryptoStage cr.aead (bigBytes k.shared)).outTransform ctx buff) s
        (ctx', out) s' := by
  have hread : ∀ r ch, s.handle ch (.read p r) = .ok (r.eval c, s) := fun r ch => by
    simp only [Endpoint.handle, hp]
  obtain ⟨_, stat, msg, name, sender⟩ := ctx
  cases hctx
  unfold Crypto.encryptTransport
  refine (ends_det (hread (.metaGet Crypto.keyNoCrypto))).trans ?_
  rw [PktRead.eval, hskip, if_neg (by decide)]
  refine (ends_det (hread .dest)).trans ?_
  have hstore : ∀ ch, s.handle ch (.getKeyStore c.dest) = .ok (s.keys.getKeyStore c.dest, s) :=
    fun _ => rfl
  have hflag : ∀ ch, s.handle ch (.getKeySent k.id) = .ok (s.keys.getKeySent k.id, s) :=
    fun _ => rfl
  refine (ends_det hstore).trans ?_
  rw [hk]
  refine (ends_det hflag).trans ?_
  rw [hsent, if_pos rfl]
  exact Iff.rfl

theorem decryptTransport_stage (hk : s.keys.getKeyStore ctx.sender = some k) :
    Ends Endpoint.handle (cr.decryptTransport ctx buff) s (ctx', out) s' ↔
      Ends Endpoint.handle ((cryptoStage cr.aead (bigBytes k.shared)).inTransform ctx buff) s
        (ctx', out) s' := by
  have hstore : ∀ ch, s.handle ch (.getKeyStore ctx.sender) =
      .ok (s.keys.getKeyStore ctx.sender, s) := fun _ => rfl
  refine (ends_det hstore).trans ?_
  rw [hk]
  exact Iff.rfl

theorem stage_out
    (h : Ends Endpoint.handle ((cryptoStage a key).outTransform ctx buff) s (ctx', out) s') :
    s' = s ∧ (ctx'.Flows →
      ∃ nonce, nonce.length = Endpoint.nonceSize ∧ out = a.sealText key nonce buff) := by
  obtain ⟨r, s₁, ⟨tr, hr⟩, hrest⟩ := ends_bind.mp h
  obtain ⟨rfl, hok⟩ := encryptAES_execs hr
  cases r with
  | error err =>
    obtain ⟨heq, rfl⟩ := ends_pure.mp hrest
    cases heq
    exact ⟨rfl, fun hflow => absurd rfl hflow.1⟩
  | ok ciphertext =>
    obtain ⟨heq, rfl⟩ := ends_pure.mp hrest
    cases heq
    exact ⟨rfl, fun _ => (hok _ rfl).2⟩

theorem stage_in (hkey : aesKeySize key.length = true)
    (h : Ends Endpoint.handle ((cryptoStage a key).inTransform ctx buff) s (ctx', out) s') :
    s' = s ∧ out = (a.openText key buff).getD buff := by
  obtain ⟨r, s₁, hr, hrest⟩ := ends_bind.mp h
  unfold decryptAES at hr
  rw [if_pos hkey] at hr
  split at hr
  · -- a buffer without a nonce panics
    obtain ⟨e, s₂, hr, -⟩ := ends_bind.mp hr
    exact e.elim
  · cases hopen : a.openText key buff with
    | none =>
      rw [hopen] at hr
      obtain ⟨rfl, rfl⟩ := ends_pure.mp hr
      obtain ⟨heq, rfl⟩ := ends_pure.mp hrest
      cases heq
      exact ⟨rfl, rfl⟩
    | some m =>
      rw [hopen] at hr
      obtain ⟨rfl, rfl⟩ := ends_pure.mp hr
      obtain ⟨heq, rfl⟩ := ends_pure.mp hrest
      cases heq
      exact ⟨rfl, rfl⟩

/-- One Crypto extension undoes its own work. -/
theorem cryptoStage_inverts (hkey : aesKeySize key.length = true) (S R : Endpoint → Prop) :
    (cryptoStage a key).Inverts S R where
  out_keeps := by
    intro ctx buff s r s' hs h
    exact (stage_out h).1 ▸ hs
  in_keeps := by
    intro ctx buff s r s' hs h
    exact (stage_in hkey h).1 ▸ hs
  inverts := by
    intro ctx ctx₁ ctx' ctx₂ buff wire out s s' r r' _ _ hout hflow hin _
    obtain ⟨nonce, hn, rfl⟩ := (stage_out hout).2 hflow
    rw [(stage_in hkey hin).2, a.open_seal hn]
    rfl

theorem exists_stage_out (a : AEAD) {key : Bytes} (hkey : aesKeySize key.length = true)
    (ctx : TransformContext) (buff : Bytes) (s : Endpoint) :
    ∃ wire, Ends Endpoint.handle ((cryptoStage a key).outTransform ctx buff) s (ctx, wire) s := by
  have hn : (List.replicate Endpoint.nonceSize 0 : Bytes).length = Endpoint.nonceSize :=
    List.length_replicate
  have he : ∃ tr, Execs Endpoint.handle (encryptAES a key buff) s tr _ s := exists_encryptAES hkey hn
  obtain ⟨tr, he⟩ := he
  exact ⟨_, ends_bind.mpr ⟨_, s, ⟨tr, he⟩, ends_pure.mpr ⟨rfl, rfl⟩⟩⟩

theorem exists_stage_in (a : AEAD) {key : Bytes} (hkey : aesKeySize key.length = true)
    (ctx : TransformContext) {buff : Bytes} (hlen : Endpoint.nonceSize ≤ buff.length) (s : Endpoint) :
    ∃ out, Ends Endpoint.handle ((cryptoStage a key).inTransform ctx buff) s (ctx, out) s := by
  have hdec : ∃ r, decryptAES a key buff = pure r := by
    unfold decryptAES
    rw [if_pos hkey, if_neg (Nat.not_lt.mpr hlen)]
    split
    · exact ⟨_, rfl⟩
    · exact ⟨_, rfl⟩
  obtain ⟨r, hr⟩ := hdec
  have hfirst : Ends Endpoint.handle (decryptAES a key buff) s r s := by
    rw [hr]
    exact ends_pure.mpr ⟨rfl, rfl⟩
  cases r with
  | error err => exact ⟨_, ends_bind.mpr ⟨_, s, hfirst, ends_pure.mpr ⟨rfl, rfl⟩⟩⟩
  | ok decrypted => exact ⟨_, ends_bind.mpr ⟨_, s, hfirst, ends_pure.mpr ⟨rfl, rfl⟩⟩⟩

end Stage

/-- What is sealed under one key does not open under another. -/
theorem open_other_key {a : AEAD} (hone : a.OneKey) {key₁ key₂ nonce m : Bytes} (hne : key₁ ≠ key₂)
    (hn : nonce.length = Endpoint.nonceSize) : a.openText key₁ (a.sealText key₂ nonce m) = none := by
  cases hopen : a.openText key₁ (a.sealText key₂ nonce m) with
  | none => rfl
  | some m' =>
    obtain ⟨n, hn', hseal⟩ := a.sealed_of_open hopen
    exact absurd (hone hn hn' hseal).symm hne

/-- Two Crypto extensions with different keys: the first one cannot open what the second
one has sealed, and when the second one has opened it, nobody opens the rest. -/
theorem crypto_pair_not_opened {a : AEAD} (hone : a.OneKey) {key₁ key₂ : Bytes} (hne : key₁ ≠ key₂)
    (hkey₁ : aesKeySize key₁.length = true) (hkey₂ : aesKeySize key₂.length = true)
    {ctx ctx₁ ctx' ctx₂ : TransformContext} {buff wire out : Bytes} {s s' r r' : Endpoint}
    (hout : Chain [(cryptoStage a key₁).outTransform, (cryptoStage a key₂).outTransform] ctx buff s
      ctx₁ wire s')
    (hin : Chain [(cryptoStage a key₁).inTransform, (cryptoStage a key₂).inTransform] ctx' wire r
      ctx₂ out r') :
    ∃ nonce, nonce.length = Endpoint.nonceSize ∧ out = a.sealText key₁ nonce buff := by
  cases hout with
  | cons ht₁ hflow₁ hout =>
  cases hout with
  | cons ht₂ hflow₂ hout =>
  cases hout
  obtain ⟨n₁, hn₁, rfl⟩ := (stage_out ht₁).2 hflow₁
  obtain ⟨n₂, hn₂, rfl⟩ := (stage_out ht₂).2 hflow₂
  cases hin with
  | cons hi₁ _ hin =>
  cases hin with
  | cons hi₂ _ hin =>
  cases hin
  have hfirst := (stage_in hkey₁ hi₁).2
  rw [open_other_key hone hne hn₂, Option.getD_none] at hfirst
  have hsecond := (stage_in hkey₂ hi₂).2
  rw [hfirst, a.open_seal hn₂, Option.getD_some] at hsecond
  exact ⟨n₁, hn₁, hsecond⟩

def pairKey (b : UInt8) : Bytes := List.replicate 16 b

/-- Two Crypto extensions, each of which undoes its own work. -/
def cryptoPair : List DataExtension :=
  [cryptoStage .transparent (pairKey 1), cryptoStage .transparent (pairKey 2)]

theorem cryptoPair_inverts :
    ∀ e ∈ cryptoPair, e.Inverts (fun _ => True) fun _ => True := by
  intro e he
  rcases List.mem_cons.mp he with rfl | he
  · exact cryptoStage_inverts (by decide) _ _
  · cases List.mem_singleton.mp he
    exact cryptoStage_inverts (by decide) _ _

/-- The pair has runs on every buffer that is not shorter than a nonce. -/
theorem exists_pair_runs (ctx ctx' : TransformContext) (hctx : ctx.Flows) (hctx' : ctx'.Flows)
    {buff : Bytes} (hlen : Endpoint.nonceSize ≤ buff.length) (s : Endpoint) :
    ∃ wire out, Chain (cryptoPair.map DataExtension.outTransform) ctx buff s ctx wire s ∧
      Chain (cryptoPair.map DataExtension.inTransform) ctx' wire s ctx' out s := by
  have hkey₁ : aesKeySize (pairKey 1).length = true := by decide
  have hkey₂ : aesKeySize (pairKey 2).length = true := by decide
  obtain ⟨mid, h₁⟩ := exists_stage_out .transparent hkey₁ ctx buff s
  obtain ⟨wire, h₂⟩ := exists_stage_out .transparent hkey₂ ctx mid s
  obtain ⟨n₁, hn₁, rfl⟩ := (stage_out h₁).2 hctx
  obtain ⟨n₂, hn₂, rfl⟩ := (stage_out h₂).2 hctx
  have hlen₁ := Nat.le_of_lt
    (Nat.lt_of_le_of_lt hlen (AEAD.transparent.length_seal (k := pairKey 1) (n := n₁)))
  have hlen₂ := Nat.le_of_lt
    (Nat.lt_of_le_of_lt hlen₁ (AEAD.transparent.length_seal (k := pairKey 2) (n := n₂)))
  obtain ⟨shut, h₃⟩ := exists_stage_in .transparent hkey₁ ctx' hlen₂ s
  have hshut := (stage_in hkey₁ h₃).2
  rw [open_other_key AEAD.transparent_ideal.one_key (by decide) hn₂, Option.getD_none] at hshut
  subst hshut
  obtain ⟨out, h₄⟩ := exists_stage_in .transparent hkey₂ ctx' hlen₂ s
  exact ⟨_, out, .cons h₁ hctx (.cons h₂ hctx (.nil _ _ _)),
    .cons h₃ hctx' (.cons h₄ hctx' (.nil _ _ _))⟩

/-- A buffer goes out and does not come back. -/
theorem crypto_pair_fails :
    (∀ e ∈ cryptoPair, e.Inverts (fun _ => True) fun _ => True) ∧
    ∃ wire out ctx ctx', Ends Endpoint.handle (processData (DataExtension.installAll cryptoPair)
        { pkt := some 0, pipelineName := pipelineOut } (ascii "hello, world")) Endpoint.init
        (ctx, wire, none) Endpoint.init ∧ ctx.stat = codeContinue ∧
      Ends Endpoint.handle (processData (DataExtension.installAll cryptoPair)
        { pipelineName := pipelineIn, sender := ascii "peer" } wire) Endpoint.init
        (ctx', out, none) Endpoint.init ∧ ctx'.stat = codeContinue ∧
      out ≠ ascii "hello, world" := by
  refine ⟨cryptoPair_inverts, ?_⟩
  have hlen : Endpoint.nonceSize ≤ (ascii "hello, world").length := by decide
  obtain ⟨wire, out, hout, hin⟩ := exists_pair_runs
    { pkt := some 0, pipelineName := pipelineOut }
    { pipelineName := pipelineIn, sender := ascii "peer" }
    (TransformContext.flows_of_continue rfl) (TransformContext.flows_of_continue rfl) hlen
    Endpoint.init
  refine ⟨wire, out, { pkt := some 0, pipelineName := pipelineOut },
    { pipelineName := pipelineIn, sender := ascii "peer" }, ?_, rfl, ?_, rfl, fun hback => ?_⟩
  · rw [processData, DataExtension.installAll_out]
    exact ends_of_chain hout
  · rw [processData, DataExtension.installAll_in]
    exact ends_of_chain hin
  · obtain ⟨nonce, hn, hsealed⟩ := crypto_pair_not_opened AEAD.transparent_ideal.one_key
      (by decide) (by decide) (by decide)
      hout hin
    have hlen := AEAD.transparent.length_seal (k := pairKey 1) (n := nonce)
      (m := ascii "hello, world")
    rw [← hsealed, hback] at hlen
    exact Nat.lt_irrefl _ hlen

end Concord
