import Concord.Go.Via
import Concord.KeyChoice

/-!
# The packets a packet gives rise to

When the `_out_` pipeline fails on a packet, `processOutgoing` puts an error packet for
the same destination on `sendStream`. It comes to the same pipeline, and if that fails
again there is a third packet, and so on. An error packet is made of a packet object of the pool,
with whatever that was left with, and `rand.Reader` may fail or not.

1. `follows_iff`: one link of the chain.
2. `chainFinite_of_passes`: with any transforms, the chain ends where the pipeline lets error
   packets for the destination pass; `not_chainFinite_of_fails`: it does not where the pipeline
   can fail on all of them.
3. `crypto_chainFinite_iff`: a server with nothing but the Crypto extension is always in one of
   the two cases. A stored key that AES does not accept makes every packet for its address go
   round for ever.
-/

namespace Concord

open Go

/-! ## 1. One link -/

/-- The error packet made of a new packet. -/
def errPkt (ref dest msg : GoString) : JSONPkt :=
  { (JSONPkt.new.modifyMap 0 fun _ => JSONPkt.errMeta ref msg) with buff := [], dest := dest }

theorem newErrPkt_new (ref dest msg : GoString) :
    JSONPkt.new.newErrPkt ref dest msg = some (errPkt ref dest msg) := by
  rw [JSONPkt.newErrPkt_eq]
  rfl

/-- What the pool hands out is a packet object. -/
theorem PktPool.exists_pick (s : PktPool) (choice : Nat) : ∃ o, s.pick choice = some o := by
  unfold pick
  cases hi : s.pool[choice]? with
  | none =>
    rw [get_none hi]
    exact ⟨JSONPkt.new, by simp [alloc]⟩
  | some i =>
    rw [get_some hi]
    exact ⟨_, List.getElem?_eq_getElem (s.pool_lt i (List.mem_of_getElem? hi))⟩

/-- Any result of an operation, or any but a failure of `rand.Reader`. -/
def randOk (mayFail : Bool) (y : (e : Op) × e.Res) : Prop :=
  mayFail = true ∨ y ≠ ⟨.readNonce, none⟩

section Ends

variable {s s' : Endpoint} {p : Nat} {c : JSONPkt} {mayFail : Bool}

theorem randOk_of_ne {e : Op} (he : e ≠ .readNonce) (r : e.Res) : randOk mayFail ⟨e, r⟩ :=
  .inr fun h => he (congrArg Sigma.fst h)

theorem endsVia_read (hp : s.pkts.mem[p]? = some c) {r : PktRead} {α : Type} {a : α}
    {f : Bytes → Routine α} :
    EndsVia Endpoint.handle (randOk mayFail) (Routine.perform (.read p r) >>= f) s a s' ↔
      EndsVia Endpoint.handle (randOk mayFail) (f (r.eval c)) s a s' :=
  endsVia_det (randOk_of_ne Op.noConfusion _) fun _ => by simp only [Endpoint.handle, hp]

theorem setPkt_self (hp : s.pkts.mem[p]? = some c) : s.pkts.setPkt p c = s.pkts := by
  simp only [PktPool.setPkt, set_self hp]

theorem ends_callAll {ops : List PktOp} (hp : s.pkts.mem[p]? = some c) {u : Unit} :
    Ends Endpoint.handle (Routine.callAll p ops) s u s' ↔
      ∃ q, ops.foldlM PktOp.apply c = some q ∧ s' = { s with pkts := s.pkts.setPkt p q } := by
  induction ops generalizing s c with
  | nil =>
    rw [Routine.callAll, ends_pure]
    constructor
    · rintro ⟨-, rfl⟩
      exact ⟨c, rfl, by rw [setPkt_self hp]⟩
    · rintro ⟨q, hq, rfl⟩
      cases hq
      exact ⟨rfl, by rw [setPkt_self hp]⟩
  | cons op ops ih =>
    rw [List.foldlM_cons]
    cases hd : op.apply c with
    | none =>
      constructor
      · rintro ⟨tr, h⟩
        obtain ⟨ch, r, s₁, tr', hcall, -, -⟩ := execs_perform.mp h
        obtain ⟨c', q, hc', hq, -⟩ := Endpoint.handle_call_ok (c := ch) hcall
        cases hp.symm.trans hc'
        cases hd.symm.trans hq
      · rintro ⟨q, hq, -⟩
        cases hq
    | some d =>
      have hset : (s.pkts.setPkt p d).mem[p]? = some d :=
        List.getElem?_set_self (List.getElem?_eq_some_iff.mp hp).1
      have hstep : Ends Endpoint.handle (Routine.callAll p (op :: ops)) s u s' ↔
          Ends Endpoint.handle (Routine.callAll p ops) { s with pkts := s.pkts.setPkt p d } u s' :=
        ends_det (f := fun _ => Routine.callAll p ops) fun _ => by
          simp only [Endpoint.handle, hp, hd]
          rfl
      rw [hstep, ih hset]
      simp only [PktPool.setPkt, List.set_set, Option.bind_eq_bind, Option.bind_some]

/-- `NewErrPkt` makes its packet of what the pool hands out. -/
theorem ends_newErrPkt {ref dest msg : GoString} {i : Nat} :
    Ends Endpoint.handle (Routine.newErrPkt ref dest msg) s i s' ↔
      ∃ choice o e, s.pkts.pick choice = some o ∧ o.newErrPkt ref dest msg = some e ∧
        i = (s.pkts.get choice).1 ∧
        s' = { s with pkts := (s.pkts.get choice).2.setPkt (s.pkts.get choice).1 e } := by
  have hcalls : ∀ {choice o}, s.pkts.pick choice = some o → ∀ {u s'},
      Ends Endpoint.handle (Routine.callAll (s.pkts.get choice).1 (newErrPktOps ref dest msg))
        { s with pkts := (s.pkts.get choice).2 } u s' ↔
      ∃ e, o.newErrPkt ref dest msg = some e ∧
        s' = { s with pkts := (s.pkts.get choice).2.setPkt (s.pkts.get choice).1 e } := by
    intro choice o ho u s'
    rw [newErrPkt_eq_ops]
    exact ends_callAll (s := { s with pkts := (s.pkts.get choice).2 }) ho
  rw [Routine.newErrPkt, ends_bind]
  constructor
  · rintro ⟨j, s₁, hget, h⟩
    obtain ⟨ch, hh⟩ := ends_perform.mp hget
    cases hh
    obtain ⟨o, ho⟩ := s.pkts.exists_pick ch.pick
    obtain ⟨u, s₂, hall, hret⟩ := ends_bind.mp h
    obtain ⟨rfl, rfl⟩ := ends_pure.mp hret
    obtain ⟨e, he, rfl⟩ := (hcalls ho).mp hall
    exact ⟨ch.pick, o, e, ho, he, rfl, rfl⟩
  · rintro ⟨choice, o, e, ho, he, rfl, rfl⟩
    refine ⟨_, _, ends_perform.mpr ⟨⟨choice, none⟩, rfl⟩, ?_⟩
    exact ends_bind.mpr ⟨(), _, (hcalls ho).mpr ⟨e, he, rfl⟩, ends_pure.mpr ⟨rfl, rfl⟩⟩

theorem ends_sendStream (hs : s.sending = none) {i : Nat} {u : Unit} :
    Ends Endpoint.handle (Routine.perform (.sendStream i)) s u s' ↔
      s' = { s with sending := some i } := by
  rw [Routine.perform, ends_perform]
  simp [Endpoint.handle, hs, eq_comm]

theorem ends_putBack {i : Nat} {u : Unit} :
    Ends Endpoint.handle (Routine.putBack i) s u s' ↔ s' = { s with pkts := s.pkts.put i } := by
  rw [Routine.putBack, Routine.perform, ends_perform]
  simp [Endpoint.handle, eq_comm]

end Ends

namespace UDPServer

/-- The transforms of `_out_` put no packets on `sendStream`, which is the server's own. -/
def OutQuiet (svr : UDPServer) : Prop :=
  ∀ t ∈ svr.data pipelineOut, ∀ ctx data, (t ctx data).AllOps fun e => e.onSending = false

/-- The `_out_` pipeline as `processOutgoing` runs it. -/
def outPipeline (svr : UDPServer) (p : Nat) (bin : Bytes) :
    Routine (TransformContext × Bytes × Option GoString) :=
  processData svr.data { pkt := some p, pipelineName := pipelineOut } bin

/-- The `_out_` pipeline can fail on packet `p`, which is `c`, with this error and in this state. -/
def Fails (svr : UDPServer) (mayFail : Bool) (s : Endpoint) (p : Nat) (c : JSONPkt) (err : GoString)
    (s₁ : Endpoint) : Prop :=
  ∃ ctx bin, EndsVia Endpoint.handle (randOk mayFail) (svr.outPipeline p c.marshal) s
    (ctx, bin, some err) s₁

/-- The error path of `processOutgoing` for packet `p`, which is `c` by then: `y.2` is a packet
object of the pool, or a new one, made into the error packet. -/
def ErrSent (s : Endpoint) (p : Nat) (c : JSONPkt) (err : GoString) (y : Endpoint × Nat) : Prop :=
  ∃ choice o e, s.pkts.pick choice = some o ∧
    o.newErrPkt (c.metaGet keyRef) c.dest (ascii "pipeline error: " ++ err) = some e ∧
    y = ({ s with pkts := ((s.pkts.get choice).2.setPkt (s.pkts.get choice).1 e).put p },
      (s.pkts.get choice).1)

/-- The goroutine for packet `x.2`, started in `x.1`, has put packet `y.2` on
`sendStream`, where `sendPkts` has taken it. -/
def Follows (svr : UDPServer) (mayFail : Bool) (x y : Endpoint × Nat) : Prop :=
  ∃ s', EndsVia Endpoint.handle (randOk mayFail) (svr.processOutgoing x.2) x.1 () s' ∧
    s'.sending = some y.2 ∧ y.1 = { s' with sending := none }

/-- There is no infinite sequence of packets, each put on `sendStream` for the one
before, that starts with packet `p`. -/
def ChainFinite (svr : UDPServer) (mayFail : Bool) (s : Endpoint) (p : Nat) : Prop :=
  Acc (fun y x => svr.Follows mayFail x y) (s, p)

section Links

variable {svr : UDPServer} {mayFail : Bool} {s s' : Endpoint} {p : Nat} {c : JSONPkt}

/-- The operations of the server's own code do not read from `rand.Reader`. -/
theorem ownEdits_randOk : OwnEdits fun e => ∀ r, randOk mayFail ⟨e, r⟩ where
  get := randOk_of_ne Op.noConfusion
  put _ := randOk_of_ne Op.noConfusion
  call _ _ _ := randOk_of_ne Op.noConfusion
  read _ _ := randOk_of_ne Op.noConfusion
  send _ := randOk_of_ne Op.noConfusion

theorem endsVia_sendErr (hs : s.sending = none) {ref dest msg : GoString} {u : Unit} :
    EndsVia Endpoint.handle (randOk mayFail) (sendErr ref dest msg) s u s' ↔
      ∃ choice o e, s.pkts.pick choice = some o ∧ o.newErrPkt ref dest msg = some e ∧
        s' = { s with
          pkts := (s.pkts.get choice).2.setPkt (s.pkts.get choice).1 e
          sending := some (s.pkts.get choice).1 } := by
  rw [endsVia_iff_ends (sendErr_allOps ownEdits_randOk ref dest msg), sendErr, ends_bind]
  constructor
  · rintro ⟨i, s₁, hnew, hsend⟩
    obtain ⟨choice, o, e, ho, he, rfl, rfl⟩ := ends_newErrPkt.mp hnew
    exact ⟨choice, o, e, ho, he, (ends_sendStream (by exact hs)).mp hsend⟩
  · rintro ⟨choice, o, e, ho, he, rfl⟩
    exact ⟨_, _, ends_newErrPkt.mpr ⟨choice, o, e, ho, he, rfl, rfl⟩,
      (ends_sendStream (by exact hs)).mpr rfl⟩

theorem endsVia_putBack {u : Unit} :
    EndsVia Endpoint.handle (randOk mayFail) (Routine.putBack p) s u s' ↔
      s' = { s with pkts := s.pkts.put p } := by
  rw [endsVia_iff_ends (putBack_allOps ownEdits_randOk p), ends_putBack]

/-- A quiet pipeline leaves the packet `sendPkts` is to take alone. -/
theorem outPipeline_sending (hout : svr.OutQuiet) {bin : Bytes}
    {r : TransformContext × Bytes × Option GoString}
    (h : EndsVia Endpoint.handle (randOk mayFail) (svr.outPipeline p bin) s r s') :
    s'.sending = s.sending := by
  have hops : (svr.outPipeline p bin).AllOps fun e => e.onSending = false :=
    processTransforms_allOps hout _ bin
  refine h.ends.keeps (I := fun t => t.sending = s.sending) (fun {s s' c e r} he hs hh => ?_) hops rfl
  exact ((Endpoint.handle_frame hh).2.2.1 he).trans hs

theorem Fails.sending (hout : svr.OutQuiet) {err : GoString} {s₁ : Endpoint}
    (h : svr.Fails mayFail s p c err s₁) : s₁.sending = s.sending := by
  obtain ⟨ctx, bin, hpipe⟩ := h
  exact outPipeline_sending hout hpipe

/-- A pipeline that does not fail leads to no packet on `sendStream`. -/
theorem transmit_passed (hs : s.sending = none) {ctx : TransformContext} {bin : Bytes} {addr : Addr}
    {u : Unit} (h : EndsVia Endpoint.handle (randOk mayFail)
      (if ctx.stat ≠ codeStopNoop then Routine.perform (.dist bin addr) else pure ()) s u s') :
    s'.sending = none := by
  split at h
  · obtain ⟨-, ch, hh⟩ := endsVia_perform.mp h
    cases hh
    exact hs
  · obtain ⟨-, rfl⟩ := endsVia_pure.mp h
    exact hs

/-- The error path of `transmit`. -/
theorem endsVia_errPath {err : GoString} {u : Unit} :
    EndsVia Endpoint.handle (randOk mayFail) (do
        let ref ← Routine.metaGet p keyRef
        let dest ← Routine.dest p
        sendErr ref dest (ascii "pipeline error: " ++ err)) s u s' ↔
      ∃ c, s.pkts.mem[p]? = some c ∧ EndsVia Endpoint.handle (randOk mayFail)
        (sendErr (c.metaGet keyRef) c.dest (ascii "pipeline error: " ++ err)) s u s' := by
  constructor
  · intro h
    obtain ⟨ref, s₁, hread, -⟩ := endsVia_bind.mp h
    obtain ⟨-, ch, hh⟩ := endsVia_perform.mp hread
    obtain ⟨-, c, hc, -⟩ := Endpoint.handle_read_ok (c := ch) hh
    exact ⟨c, hc, (endsVia_read hc).mp ((endsVia_read hc).mp h)⟩
  · rintro ⟨c, hc, h⟩
    exact (endsVia_read hc).mpr ((endsVia_read hc).mpr h)

/-- `transmit` puts a packet on `sendStream` when the pipeline fails, and only then. -/
theorem transmit_sends (hout : svr.OutQuiet) (hs : s.sending = none) {addr : Addr} {q : Nat}
    (hq : s'.sending = some q) {u : Unit} :
    EndsVia Endpoint.handle (randOk mayFail) (svr.transmit p c.marshal addr) s u s' ↔
      ∃ err s₁ c₁, svr.Fails mayFail s p c err s₁ ∧ s₁.pkts.mem[p]? = some c₁ ∧
        EndsVia Endpoint.handle (randOk mayFail)
          (sendErr (c₁.metaGet keyRef) c₁.dest (ascii "pipeline error: " ++ err)) s₁ u s' := by
  rw [transmit, endsVia_bind]
  constructor
  · rintro ⟨⟨ctx, bin, err⟩, s₁, hpipe, h⟩
    cases err with
    | none =>
      have hnone := transmit_passed ((outPipeline_sending hout hpipe).trans hs) h
      cases hnone.symm.trans hq
    | some err =>
      obtain ⟨c₁, hc₁, h⟩ := endsVia_errPath.mp h
      exact ⟨err, s₁, c₁, ⟨ctx, bin, hpipe⟩, hc₁, h⟩
  · rintro ⟨err, s₁, c₁, ⟨ctx, bin, hpipe⟩, hc₁, h⟩
    exact ⟨_, s₁, hpipe, endsVia_errPath.mpr ⟨c₁, hc₁, h⟩⟩

/-- One link of the chain. -/
theorem follows_iff (hout : svr.OutQuiet) (hp : s.pkts.mem[p]? = some c) (hs : s.sending = none)
    {y : Endpoint × Nat} :
    svr.Follows mayFail (s, p) y ↔ svr.resolve c.dest ≠ none ∧
      ∃ err s₁ c₁, svr.Fails mayFail s p c err s₁ ∧ s₁.pkts.mem[p]? = some c₁ ∧
        ErrSent s₁ p c₁ err y := by
  unfold Follows
  cases haddr : svr.resolve c.dest with
  | none =>
    have hread : ∀ {u s'}, EndsVia Endpoint.handle (randOk mayFail) (svr.processOutgoing p) s u s' ↔
        EndsVia Endpoint.handle (randOk mayFail) (Routine.putBack p) s u s' := by
      intro u s'
      refine (endsVia_read hp).trans ((endsVia_read hp).trans ?_)
      simp only [PktRead.eval, haddr]
    simp only [hread, ne_eq, not_true_eq_false, false_and, iff_false]
    rintro ⟨s', h, hsend, -⟩
    obtain rfl := endsVia_putBack.mp h
    cases hs.symm.trans hsend
  | some addr =>
    have hread : ∀ {u s'}, EndsVia Endpoint.handle (randOk mayFail) (svr.processOutgoing p) s u s' ↔
        EndsVia Endpoint.handle (randOk mayFail) (svr.transmit p c.marshal addr >>= fun _ =>
          Routine.putBack p) s u s' := by
      intro u s'
      refine (endsVia_read hp).trans ((endsVia_read hp).trans ?_)
      simp only [PktRead.eval, haddr]
    simp only [hread, ne_eq, reduceCtorEq, not_false_eq_true, true_and]
    constructor
    · rintro ⟨s', h, hsend, hy⟩
      obtain ⟨u, t, ht, hput⟩ := endsVia_bind.mp h
      obtain rfl := endsVia_putBack.mp hput
      have hsent : t.sending = some y.2 := hsend
      obtain ⟨err, s₁, c₁, hfail, hc₁, herr⟩ := (transmit_sends hout hs hsent).mp ht
      have hs₁ : s₁.sending = none := (hfail.sending hout).trans hs
      obtain ⟨choice, o, e, ho, he, rfl⟩ := (endsVia_sendErr hs₁).mp herr
      refine ⟨err, s₁, c₁, hfail, hc₁, choice, o, e, ho, he, Prod.ext ?_ (Option.some.inj hsent).symm⟩
      rw [hy, ← hs₁]
    · rintro ⟨err, s₁, c₁, hfail, hc₁, choice, o, e, ho, he, rfl⟩
      have hs₁ : s₁.sending = none := (hfail.sending hout).trans hs
      refine ⟨_, endsVia_bind.mpr ⟨(), _, (transmit_sends hout hs (q := (s₁.pkts.get choice).1)
        rfl).mpr ⟨err, s₁, c₁, hfail, hc₁, (endsVia_sendErr hs₁).mpr ⟨choice, o, e, ho, he, rfl⟩⟩,
        endsVia_putBack.mpr rfl⟩, rfl, ?_⟩
      rw [← hs₁]

end Links

/-! ## 2. Chains -/

/-- `NewErrPkt` can make this packet for the destination, of whatever packet object. -/
def IsErrPkt (dest : GoString) (e : JSONPkt) : Prop :=
  ∃ o ref msg, JSONPkt.newErrPkt o ref dest msg = some e

/-- With this key table, the `_out_` pipeline fails on no error packet for the destination. -/
def PassesErrors (svr : UDPServer) (mayFail : Bool) (keys : KeyTable) (dest : GoString) : Prop :=
  ∀ s p e, s.keys = keys → s.pkts.mem[p]? = some e → IsErrPkt dest e →
    ∀ err s₁, ¬ svr.Fails mayFail s p e err s₁

/-- With this key table, the `_out_` pipeline can fail on every error packet for the destination,
and leave the table and the destination as they are. -/
def FailsErrors (svr : UDPServer) (mayFail : Bool) (keys : KeyTable) (dest : GoString) : Prop :=
  ∀ s p e, s.keys = keys → s.pkts.mem[p]? = some e → IsErrPkt dest e →
    ∃ err s₁ c₁, svr.Fails mayFail s p e err s₁ ∧ s₁.keys = keys ∧
      s₁.pkts.mem[p]? = some c₁ ∧ c₁.dest = dest

section Chains

variable {svr : UDPServer} {mayFail : Bool} {s s₁ : Endpoint} {p : Nat} {c c₁ : JSONPkt}
  {err : GoString}

/-- The next packet is an error packet for the same destination. -/
theorem ErrSent.isErrPkt {y : Endpoint × Nat} (h : ErrSent s p c err y) :
    y.1.keys = s.keys ∧ y.1.sending = s.sending ∧
      ∃ e, y.1.pkts.mem[y.2]? = some e ∧ IsErrPkt c.dest e := by
  obtain ⟨choice, o, e, ho, he, rfl⟩ := h
  refine ⟨rfl, rfl, e, ?_, o, _, _, he⟩
  rw [PktPool.put_mem]
  exact List.getElem?_set_self (List.getElem?_eq_some_iff.mp ho).1

/-- There always is one: the pool may have nothing to reuse. -/
theorem exists_errSent (s : Endpoint) (p : Nat) (c : JSONPkt) (err : GoString) :
    ∃ y, ErrSent s p c err y := by
  have hpick : s.pkts.pick s.pkts.pool.length = some JSONPkt.new := by
    rw [PktPool.pick, PktPool.get_none (List.getElem?_eq_none (le_refl _))]
    simp [PktPool.alloc]
  exact ⟨_, s.pkts.pool.length, JSONPkt.new, _, hpick, newErrPkt_new _ _ _, rfl⟩

/-- The chain ends where the destination does not resolve, or where the pipeline, if it fails on
the packet at all, fails on no error packet for the destination then. -/
theorem chainFinite_of_passes (hout : svr.OutQuiet) (hp : s.pkts.mem[p]? = some c)
    (hs : s.sending = none)
    (h : svr.resolve c.dest = none ∨ ∀ err s₁ c₁, svr.Fails mayFail s p c err s₁ →
      s₁.pkts.mem[p]? = some c₁ → svr.PassesErrors mayFail s₁.keys c₁.dest) :
    svr.ChainFinite mayFail s p := by
  refine .intro _ fun y hy => ?_
  obtain ⟨haddr, err, s₁, c₁, hfail, hc₁, hsent⟩ := (follows_iff hout hp hs).mp hy
  obtain ⟨hkeys, hsending, e, he, herr⟩ := hsent.isErrPkt
  have hpass := (h.resolve_left haddr) err s₁ c₁ hfail hc₁
  -- no packet follows the error packet
  refine .intro _ fun z hz => ?_
  have hs₁ : y.1.sending = none := hsending.trans ((hfail.sending hout).trans hs)
  obtain ⟨-, err', s₂, c₂, hfail₂, -, -⟩ := (follows_iff hout he hs₁).mp hz
  exact absurd hfail₂ (hpass y.1 y.2 e hkeys he herr err' s₂)

/-- No chain that stays among error packets the pipeline can fail on has an end. -/
theorem not_acc_of_fails {keys : KeyTable} {dest : GoString} (hout : svr.OutQuiet)
    (haddr : svr.resolve dest ≠ none) (hfails : svr.FailsErrors mayFail keys dest)
    {x : Endpoint × Nat} {e : JSONPkt} (hkeys : x.1.keys = keys) (hs : x.1.sending = none)
    (he : x.1.pkts.mem[x.2]? = some e) (herr : IsErrPkt dest e) :
    ¬ Acc (fun y x => svr.Follows mayFail x y) x := by
  intro hacc
  induction hacc generalizing e with
  | intro x _ ih =>
    have hdest : e.dest = dest := by
      obtain ⟨o, ref, msg, hnew⟩ := herr
      exact (JSONPkt.newErrPkt_some hnew).2.2
    obtain ⟨err, s₁, c₁, hfail, hkeys₁, hc₁, hdest₁⟩ := hfails x.1 x.2 e hkeys he herr
    obtain ⟨y, hsent⟩ := exists_errSent s₁ x.2 c₁ err
    have hfollows : svr.Follows mayFail x y :=
      (follows_iff hout he hs).mpr ⟨by rwa [hdest], err, s₁, c₁, hfail, hc₁, hsent⟩
    obtain ⟨hkeys₂, hsending, e', he', herr'⟩ := hsent.isErrPkt
    rw [hdest₁] at herr'
    exact ih y hfollows (hkeys₂.trans hkeys₁)
      (hsending.trans ((hfail.sending hout).trans hs)) he' herr'

/-- The chain does not end where the pipeline fails on the packet and can fail on every error
packet for the destination. -/
theorem not_chainFinite_of_fails (hout : svr.OutQuiet) (hp : s.pkts.mem[p]? = some c)
    (hs : s.sending = none) (haddr : svr.resolve c.dest ≠ none)
    (hfail : svr.Fails mayFail s p c err s₁) (hc₁ : s₁.pkts.mem[p]? = some c₁)
    (haddr₁ : svr.resolve c₁.dest ≠ none) (hfails : svr.FailsErrors mayFail s₁.keys c₁.dest) :
    ¬ svr.ChainFinite mayFail s p := by
  intro hacc
  obtain ⟨y, hsent⟩ := exists_errSent s₁ p c₁ err
  obtain ⟨hkeys, hsending, e, he, herr⟩ := hsent.isErrPkt
  refine not_acc_of_fails hout haddr₁ hfails hkeys
    (hsending.trans ((hfail.sending hout).trans hs)) he herr (hacc.inv ?_)
  exact (follows_iff hout hp hs).mpr ⟨haddr, err, s₁, c₁, hfail, hc₁, hsent⟩

end Chains

end UDPServer

/-! ## 3. The Crypto extension -/

/-- The packet has to be sealed with a key AES does not accept, or with any key while `rand.Reader`
may fail. -/
def Stuck (mayFail : Bool) (keys : KeyTable) (c : JSONPkt) : Prop :=
  Crypto.isSkip (c.metaGet Crypto.keyNoCrypto) = false ∧
    ∃ k, keys.getKeyStore c.dest = some k ∧ keys.getKeySent k.id = true ∧
      (aesKeySize (bigBytes k.shared).length = false ∨ mayFail = true)

section CryptoChain

variable {cr : Crypto} {svr : UDPServer} {mayFail : Bool} {s s₁ : Endpoint} {p : Nat} {c : JSONPkt}
  {buff : Bytes}

theorem encryptAES_fails_iff (a : AEAD) (key buff : Bytes) :
    (∃ err, EndsVia Endpoint.handle (randOk mayFail) (encryptAES a key buff) s (.error err) s₁) ↔
      s₁ = s ∧ (aesKeySize key.length = false ∨ mayFail = true) := by
  unfold encryptAES
  cases hkey : aesKeySize key.length with
  | false =>
    rw [if_neg (by simp)]
    simp [endsVia_pure]
  | true =>
    rw [if_pos rfl]
    simp only [Bool.true_eq_false, false_or]
    constructor
    · rintro ⟨err, h⟩
      obtain ⟨n, s₂, hread, h⟩ := endsVia_bind.mp h
      obtain ⟨hok, ch, hh⟩ := endsVia_perform.mp hread
      have hstate : s₂ = s := (congrArg Prod.snd (Outcome.ok.inj hh)).symm
      cases n with
      | none =>
        obtain ⟨-, rfl⟩ := endsVia_pure.mp h
        exact ⟨hstate, hok.resolve_right fun hne => hne rfl⟩
      | some nonce => cases (endsVia_pure.mp h).1
    · rintro ⟨rfl, hfail⟩
      have hread : EndsVia Endpoint.handle (randOk mayFail) (Routine.perform .readNonce) s₁ none s₁ :=
        endsVia_perform.mpr ⟨.inl hfail, ⟨0, none⟩, rfl⟩
      exact ⟨_, endsVia_bind.mpr ⟨none, s₁, hread, endsVia_pure.mpr ⟨rfl, rfl⟩⟩⟩

theorem endsVia_encryptTransport (hp : s.pkts.mem[p]? = some c) {ctx : TransformContext}
    (hctx : ctx.pkt = some p) {r : TransformContext × Bytes} :
    EndsVia Endpoint.handle (randOk mayFail) (cr.encryptTransport ctx buff) s r s₁ ↔
      if Crypto.isSkip (c.metaGet Crypto.keyNoCrypto) then r = (ctx, buff) ∧ s₁ = s
      else
        match s.keys.getKeyStore c.dest with
        | none => r = (ctx, buff) ∧ s₁ = s
        | some k =>
          if s.keys.getKeySent k.id then
            ∃ res, EndsVia Endpoint.handle (randOk mayFail)
                (encryptAES cr.aead (bigBytes k.shared) buff) s res s₁ ∧
              r = match res with
                | .error err =>
                  ({ ctx with stat := codeStopError, msg := ascii "encryption error: " ++ err }, buff)
                | .ok ciphertext => (ctx, ciphertext)
          else r = (ctx, buff) ∧ s₁ = { s with keys := s.keys.setKeySent k.id true } := by
  unfold Crypto.encryptTransport
  rw [hctx]
  simp only
  rw [Routine.metaGet, endsVia_read hp, PktRead.eval]
  by_cases hskip : Crypto.isSkip (c.metaGet Crypto.keyNoCrypto) = true
  · rw [if_pos hskip, if_pos hskip]
    exact endsVia_pure
  · rw [if_neg hskip, if_neg hskip, Routine.dest, endsVia_read hp, PktRead.eval]
    rw [Routine.perform, endsVia_det (randOk_of_ne Op.noConfusion _) (fun _ => rfl)]
    cases hk : s.keys.getKeyStore c.dest with
    | none => exact endsVia_pure
    | some k =>
      simp only
      rw [Routine.perform, endsVia_det (randOk_of_ne Op.noConfusion _) (fun _ => rfl)]
      by_cases hsent : s.keys.getKeySent k.id = true
      · rw [if_pos hsent, if_pos hsent, endsVia_bind]
        constructor
        · rintro ⟨res, t, he, h⟩
          cases res with
          | error err =>
            obtain ⟨rfl, rfl⟩ := endsVia_pure.mp h
            exact ⟨_, he, rfl⟩
          | ok ciphertext =>
            obtain ⟨rfl, rfl⟩ := endsVia_pure.mp h
            exact ⟨_, he, rfl⟩
        · rintro ⟨res, he, rfl⟩
          refine ⟨res, s₁, he, ?_⟩
          cases res with
          | error err => exact endsVia_pure.mpr ⟨rfl, rfl⟩
          | ok ciphertext => exact endsVia_pure.mpr ⟨rfl, rfl⟩
      · rw [if_neg hsent, if_neg hsent, Routine.perform,
          endsVia_det (randOk_of_ne Op.noConfusion _) (fun _ => rfl)]
        exact endsVia_pure

/-- `encryptTransport` can stop with an error on a stuck packet, and leaves everything as it is
then; it cannot on another. -/
theorem encryptTransport_fails_iff (cr : Crypto) (ctx : TransformContext) (buff : Bytes)
    (hp : s.pkts.mem[p]? = some c) (hctx : ctx.pkt = some p) (hstat : ctx.stat = codeContinue) :
    (∃ x, EndsVia Endpoint.handle (randOk mayFail) (cr.encryptTransport ctx buff) s x s₁ ∧
      x.1.stat = codeStopError) ↔ Stuck mayFail s.keys c ∧ s₁ = s := by
  have hgo : ctx.stat ≠ codeStopError := by rw [hstat]; decide
  simp only [endsVia_encryptTransport hp hctx, Stuck]
  cases hskip : Crypto.isSkip (c.metaGet Crypto.keyNoCrypto) with
  | true => simp [hgo]
  | false =>
    cases hk : s.keys.getKeyStore c.dest with
    | none => simp [hgo]
    | some k =>
      cases hsent : s.keys.getKeySent k.id with
      | false => simp [hsent, hgo]
      | true =>
        simp only [Bool.false_eq_true, if_false, if_true, true_and, Option.some.injEq,
          exists_eq_left', hsent]
        rw [and_comm, ← encryptAES_fails_iff cr.aead (bigBytes k.shared) buff]
        constructor
        · rintro ⟨x, ⟨res, he, rfl⟩, herr⟩
          cases res with
          | error err => exact ⟨err, he⟩
          | ok ciphertext => exact absurd herr hgo
        · rintro ⟨err, he⟩
          exact ⟨_, ⟨.error err, he, rfl⟩, rfl⟩

/-- The pipeline of a server with nothing but the Crypto extension can fail on stuck packets
only. -/
theorem extendServer_fails_iff (cr : Crypto) (hout : svr.data pipelineOut = [])
    (hp : s.pkts.mem[p]? = some c) :
    (∃ err, (cr.extendServer svr).Fails mayFail s p c err s₁) ↔ Stuck mayFail s.keys c ∧ s₁ = s := by
  rw [← encryptTransport_fails_iff cr { pkt := some p, pipelineName := pipelineOut } c.marshal hp
    rfl rfl]
  unfold UDPServer.Fails UDPServer.outPipeline processData
  rw [Crypto.extendServer_out hout]
  constructor
  · rintro ⟨err, ctx, bin, h⟩
    obtain ⟨⟨ctx', out⟩, t, hx, h⟩ := endsVia_bind.mp h
    simp only at h
    split at h
    · next herr =>
      obtain ⟨-, rfl⟩ := endsVia_pure.mp h
      exact ⟨_, hx, herr⟩
    · split at h
      · cases (endsVia_pure.mp h).1
      · cases (endsVia_pure.mp h).1
  · rintro ⟨x, hx, herr⟩
    refine ⟨Fmt.errorf (ascii "pipeline terminated: " ++ x.1.msg), x.1, x.2,
      endsVia_bind.mpr ⟨x, s₁, hx, ?_⟩⟩
    simp only [herr, if_true]
    exact endsVia_pure.mpr ⟨rfl, rfl⟩

theorem extendServer_outQuiet (hout : svr.data pipelineOut = []) : (cr.extendServer svr).OutQuiet := by
  intro t ht ctx data
  rw [Crypto.extendServer_out hout, List.mem_singleton] at ht
  subst ht
  exact (encryptTransport_allOps cr ctx data).mono fun e he => by
    cases e with
    | sendStream p => cases he
    | _ => rfl

/-- The error packets for the destination of a stuck packet are stuck: they have no skip value. -/
theorem Stuck.errPkt (h : Stuck mayFail s.keys c) {e : JSONPkt} (he : UDPServer.IsErrPkt c.dest e) :
    Stuck mayFail s.keys e := by
  obtain ⟨o, ref, msg, hnew⟩ := he
  obtain ⟨hmap, -, hdest⟩ := JSONPkt.newErrPkt_some hnew
  obtain ⟨-, k, hk, hsent, hkey⟩ := h
  refine ⟨?_, k, by rw [hdest, hk], hsent, hkey⟩
  have hnone : e.metaGet Crypto.keyNoCrypto = [] := (congrArg (JSONPkt.index · _) hmap).trans rfl
  rw [hnone]
  rfl

/-- A server with nothing but the Crypto extension: the chain of a packet has no end exactly when
the packet is stuck. -/
theorem crypto_chainFinite_iff (hout : svr.data pipelineOut = []) (hp : s.pkts.mem[p]? = some c)
    (hs : s.sending = none) :
    (cr.extendServer svr).ChainFinite mayFail s p ↔
      svr.resolve c.dest = none ∨ ¬ Stuck mayFail s.keys c := by
  have hquiet : (cr.extendServer svr).OutQuiet := extendServer_outQuiet hout
  constructor
  · intro hfin
    by_contra hnot
    obtain ⟨haddr, hstuck⟩ := not_or.mp hnot
    have hstuck := not_not.mp hstuck
    obtain ⟨err, hfail⟩ := (extendServer_fails_iff cr hout hp).mpr ⟨hstuck, rfl⟩
    refine UDPServer.not_chainFinite_of_fails hquiet hp hs haddr hfail hp haddr ?_ hfin
    intro t q e hkeys he herr
    have hstuck' : Stuck mayFail t.keys e := by
      rw [hkeys]
      exact hstuck.errPkt herr
    obtain ⟨err, hfail⟩ := (extendServer_fails_iff cr hout he).mpr ⟨hstuck', rfl⟩
    obtain ⟨o, ref, msg, hnew⟩ := herr
    exact ⟨err, t, e, hfail, hkeys, he, (JSONPkt.newErrPkt_some hnew).2.2⟩
  · intro h
    refine UDPServer.chainFinite_of_passes hquiet hp hs (h.imp_right fun hfree => ?_)
    intro err s₁ c₁ hfail
    exact absurd ((extendServer_fails_iff cr hout hp).mp ⟨err, hfail⟩).1 hfree

end CryptoChain

/-- The chain of a packet, with any transforms that leave `sendStream` to the server. It ends if
the destination does not resolve, or if the pipeline, where it fails on the packet, lets the error
packets for the destination pass that `NewErrPkt` can make; it does not if the pipeline can fail
on all of them. With nothing but the Crypto extension it has no end exactly for a stuck packet. -/
theorem error_chain_finite (svr : UDPServer) (hout : svr.OutQuiet) (mayFail : Bool) {s : Endpoint}
    {p : Nat} {c : JSONPkt} (hp : s.pkts.mem[p]? = some c) (hs : s.sending = none) :
    ((svr.resolve c.dest = none ∨ ∀ err s₁ c₁, svr.Fails mayFail s p c err s₁ →
        s₁.pkts.mem[p]? = some c₁ → svr.PassesErrors mayFail s₁.keys c₁.dest) →
      svr.ChainFinite mayFail s p) ∧
    (∀ err s₁ c₁, svr.resolve c.dest ≠ none → svr.Fails mayFail s p c err s₁ →
      s₁.pkts.mem[p]? = some c₁ → svr.resolve c₁.dest ≠ none →
      svr.FailsErrors mayFail s₁.keys c₁.dest → ¬ svr.ChainFinite mayFail s p) ∧
    ∀ cr base, svr = Crypto.extendServer cr base → base.data pipelineOut = [] →
      (svr.ChainFinite mayFail s p ↔ svr.resolve c.dest = none ∨ ¬ Stuck mayFail s.keys c) := by
  refine ⟨UDPServer.chainFinite_of_passes hout hp hs, fun err s₁ c₁ haddr hfail hc₁ haddr₁ hfails =>
    UDPServer.not_chainFinite_of_fails hout hp hs haddr hfail hc₁ haddr₁ hfails, ?_⟩
  rintro cr base rfl hbase
  exact crypto_chainFinite_iff hbase hp hs

/-! ### Two endpoints -/

/-- A packet object that was last used for a peer's data. -/
def usedPkt : JSONPkt := { JSONPkt.new with wireData := ascii "c2VjcmV0" }

/-- The endpoint with that object in its pool, and this secret stored for `loopback`. -/
def endpointSharing (shared : Nat) : Endpoint :=
  { Endpoint.init with
    pkts := ⟨[JSONPkt.new.setDest loopback, usedPkt], [1], by simp⟩
    keys := KeyTable.empty.setKeyStore loopback ⟨true, shared, ⟨none, none⟩⟩ }

/-- Every packet for the peer goes round for ever if the secret has 13 bytes, though `rand.Reader`
never fails. -/
theorem short_key_chain_infinite :
    ¬ ((Crypto.transparent 5).extendServer (UDPServer.new resolveLocal)).ChainFinite false
      (endpointSharing (2 ^ 100)) 0 := by
  rw [crypto_chainFinite_iff (c := JSONPkt.new.setDest loopback) rfl rfl rfl, not_or, not_not]
  exact ⟨by decide, rfl, ⟨0, 2 ^ 100, ⟨none, none⟩⟩, by decide +kernel, by decide +kernel,
    .inl (by decide +kernel)⟩

/-- A transform that refuses everything but error packets. -/
def refusesAnswers : BufferTransform := fun ctx buff =>
  match ctx.pkt with
  | none => return (ctx, buff)
  | some p => do
    let stat ← Routine.metaGet p keySvrStatus
    if stat = ascii "-1" then return (ctx, buff)
    return ({ ctx with stat := codeStopError, msg := ascii "too late" }, buff)

def refusingServer : UDPServer :=
  { UDPServer.new resolveLocal with
    data := addTransform (fun _ => []) pipelineOut refusesAnswers }

theorem refusingServer_outQuiet : refusingServer.OutQuiet := by
  intro t ht ctx data
  obtain rfl := List.mem_singleton.mp ht
  unfold refusesAnswers
  split
  · trivial
  · exact Prog.allOps_op rfl fun stat => Prog.allOps_ite (fun _ => trivial) fun _ => trivial

theorem refusingServer_passes (keys : KeyTable) (dest : GoString) :
    refusingServer.PassesErrors true keys dest := by
  rintro s p e - he ⟨o, ref, msg, hnew⟩ err s₁ ⟨ctx, bin, h⟩
  have hstat : e.metaGet keySvrStatus = ascii "-1" :=
    (congrArg (JSONPkt.index · _) (JSONPkt.newErrPkt_some hnew).1).trans rfl
  obtain ⟨⟨ctx', out⟩, t, hx, h⟩ := endsVia_bind.mp h
  have hx := (endsVia_read he).mp hx
  rw [PktRead.eval, if_pos hstat] at hx
  obtain ⟨heq, -⟩ := endsVia_pure.mp hx
  cases heq
  cases (endsVia_pure.mp h).1

/-- The chain ends if the secret is of 16 bytes and `rand.Reader` does not fail; and it ends, after
one error packet, with a pipeline that refuses everything else. -/
theorem valid_key_chain_finite :
    ((Crypto.transparent 5).extendServer (UDPServer.new resolveLocal)).ChainFinite false
      (endpointSharing (2 ^ 127)) 0 ∧
    refusingServer.ChainFinite true (endpointSharing (2 ^ 100)) 0 := by
  constructor
  · refine ((error_chain_finite _ (extendServer_outQuiet rfl) false
      (c := JSONPkt.new.setDest loopback) rfl rfl).2.2 _ _ rfl rfl).mpr (.inr ?_)
    rintro ⟨-, k, hk, -, hkey⟩
    have hk' : (endpointSharing (2 ^ 127)).keys.getKeyStore loopback =
        some ⟨0, 2 ^ 127, ⟨none, none⟩⟩ := by decide +kernel
    cases hk.symm.trans hk'
    rcases hkey with hkey | hkey
    · exact absurd hkey (by decide +kernel)
    · cases hkey
  · exact (error_chain_finite refusingServer refusingServer_outQuiet true
      (c := JSONPkt.new.setDest loopback) rfl rfl).1
      (.inr fun _ _ _ _ _ => refusingServer_passes _ _)

end Concord
