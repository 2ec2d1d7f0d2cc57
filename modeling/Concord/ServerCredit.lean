import Concord.ServiceRefinement

/-!
# The server does not amplify

`writes_le_reads`: a server never writes more datagrams than it has received, whatever bytes
it is sent, whatever its transforms and callbacks do as long as they send nothing themselves,
and in every interleaving. This covers the Crypto extension and the relay target, and also the
error packets that a failing `_out_` pipeline makes of the packets it is given.

A datagram that comes in is one credit. The goroutine that has it passes it on with the packet
it puts on `sendStream`, and the goroutine of that packet spends it on a datagram or on another
error packet.
-/

namespace Concord

open Go

/-- The server's transforms and callbacks send nothing, but for the relay callback. -/
structure UDPServer.Discreet (svr : UDPServer) : Prop where
  data : ∀ name, ∀ t ∈ svr.data name, ∀ ctx data, (t ctx data).AllOps fun e => e.spends = false
  callbacks : ∀ name cbs, svr.queues name = some cbs → ∀ cb ∈ cbs,
    cb = relayCallback ∨ ∀ ctx pw, (cb ctx pw).AllOps fun e => e.spends = false

theorem UDPServer.discreet_new (resolve : GoString → Option Addr) :
    (UDPServer.new resolve).Discreet where
  data _ _ ht := nomatch ht
  callbacks name cbs hq cb hcb := by
    have hnew : addCallback (fun _ => none) targetRelay relayCallback name = some cbs := hq
    rcases mem_addCallback hnew hcb with ⟨cbs₀, hq₀, -⟩ | rfl
    · cases hq₀
    · exact .inl rfl

theorem Op.spends_of_transport {e : Op} (he : e.ofTransport = true) : e.spends = false := by
  cases e with
  | sendStream p => cases he
  | dist data addr => cases he
  | _ => rfl

theorem Op.spends_of_exchange {e : Op} (he : e.ofExchange = true) : e.spends = false := by
  cases e with
  | sendStream p => cases he
  | dist data addr => cases he
  | _ => rfl

theorem UDPServer.Discreet.extend {svr : UDPServer} (h : svr.Discreet) (cr : Crypto) :
    (cr.extendServer svr).Discreet where
  data name t ht ctx data := by
    rcases mem_addTransform ht with ht | rfl
    · rcases mem_addTransform ht with ht | rfl
      · exact h.data name t ht ctx data
      · exact (decryptTransport_allOps cr ctx data).mono fun _ => Op.spends_of_transport
    · exact (encryptTransport_allOps cr ctx data).mono fun _ => Op.spends_of_transport
  callbacks name cbs hq cb hcb := by
    rcases mem_addCallback hq hcb with ⟨cbs₁, hq₁, hcb₁⟩ | rfl
    · rcases mem_addCallback hq₁ hcb₁ with ⟨cbs₀, hq₀, hcb₀⟩ | rfl
      · exact h.callbacks name cbs₀ hq₀ cb hcb₀
      · exact .inr fun ctx pw =>
          (Crypto.keyExchangeServer_allOps cr ctx pw).mono fun _ => Op.spends_of_exchange
    · exact .inr fun ctx pw =>
        (Crypto.keyExchangeClient_allOps ctx pw).mono fun _ => Op.spends_of_exchange

/-! ## 1. Credits -/

/-- What a goroutine has: a credit, or none. -/
abbrev Purse := Unit × Option Unit

def Purse.full : Purse := ((), some ())

/-- A credit is needed for a send. -/
def creditRules : Prog.Rules Op Op.Res Purse :=
  Prog.Rules.spending (fun _ => Prog.Rules.free) (Op.toll Unit)

theorem creditRules_mono : creditRules.Mono :=
  Prog.Rules.spending_mono (fun _ => Prog.Rules.free_mono) _

namespace Credit

variable {g : Purse} {β : Type}

/-- Code that sends nothing leaves the credit. -/
theorem quiet_wp {x : Routine β} (hx : x.AllOps fun e => e.spends = false)
    {Q : β → Purse → Prop} (hQ : ∀ b, Q b g) : x.wp creditRules g Q :=
  Prog.wp_spending (t := g.2) Prog.Rules.free_mono (hx.mono fun _ => Op.toll_eq_none.mpr)
    (Prog.wp_free hQ)

/-- Sending spends it. -/
theorem spend_wp {e : Op} (he : e.spends = true) {Q : e.Res → Purse → Prop}
    (hQ : ∀ r, Q r ((), none)) : (Routine.perform e).wp creditRules Purse.full Q :=
  Prog.wp_spend (if_pos he) trivial (Prog.wp_free hQ)

theorem newPkt_quiet (ref dest : GoString) :
    (Routine.newPkt ref dest).AllOps fun e => e.spends = false :=
  Routine.newPkt_allOps rfl fun _ _ _ => rfl

theorem call_quiet (p : Nat) (op : PktOp) : (Routine.call p op).AllOps fun e => e.spends = false :=
  Routine.call_allOps rfl

theorem perform_quiet {e : Op} (he : e.spends = false) :
    (Routine.perform e).AllOps fun e => e.spends = false :=
  ⟨he, fun _ => trivial⟩

theorem sendErr_wp (ref dest msg : GoString) {Q : Unit → Purse → Prop} (hQ : Q () ((), none)) :
    (UDPServer.sendErr ref dest msg).wp creditRules Purse.full Q := by
  rw [UDPServer.sendErr, Prog.wp_bind]
  exact quiet_wp (Routine.newErrPkt_allOps rfl fun _ _ _ => rfl) fun p => spend_wp rfl fun _ => hQ

/-! ## 2. The goroutines -/

variable {svr : UDPServer}

/-- The relay callback sends, and then stops the queue. -/
theorem relayCallback_wp (ctx : TargetCtx) (pw : Nat) :
    (relayCallback ctx pw).wp creditRules Purse.full fun ctx' _ => ctx'.stat = codeStopNoop := by
  rw [relayCallback, Prog.wp_bind]
  refine quiet_wp (perform_quiet rfl) fun ref => ?_
  rw [Prog.wp_bind]
  refine quiet_wp (perform_quiet rfl) fun relayAddr => ?_
  rw [Prog.wp_bind]
  refine quiet_wp (newPkt_quiet _ _) fun fwdPkt => ?_
  rw [Prog.wp_bind]
  refine quiet_wp (call_quiet _ _) fun _ => ?_
  rw [Prog.wp_bind]
  refine quiet_wp (perform_quiet rfl) fun body => ?_
  rw [Prog.wp_bind]
  refine quiet_wp (call_quiet _ _) fun _ => ?_
  rw [Prog.wp_bind]
  refine quiet_wp (call_quiet _ _) fun _ => ?_
  rw [Prog.wp_bind]
  exact spend_wp rfl fun _ => rfl

/-- The queue of a target keeps the credit, or has spent it and asks for nothing more. -/
theorem processCallbacks_wp {cbs : List TargetCallback}
    (hcbs : ∀ cb ∈ cbs, cb = relayCallback ∨ ∀ ctx pw, (cb ctx pw).AllOps fun e => e.spends = false)
    (pw : Nat) (ctx : TargetCtx) :
    (processCallbacks pw cbs ctx).wp creditRules Purse.full fun r g =>
      g = Purse.full ∨ r.2 = none ∧ r.1.stat = codeStopNoop := by
  induction cbs generalizing ctx with
  | nil => exact .inl rfl
  | cons cb cbs ih =>
    rw [processCallbacks, Prog.wp_bind]
    rcases hcbs cb List.mem_cons_self with rfl | hcb
    · refine Prog.wp_mono creditRules_mono (fun ctx' g hstat => ?_) (relayCallback_wp ctx pw)
      rw [if_neg (by rw [hstat]; decide), if_pos (.inl hstat)]
      exact .inr ⟨rfl, hstat⟩
    · refine quiet_wp (hcb ctx pw) fun ctx' => ?_
      split
      · exact .inl rfl
      · split
        · exact .inl rfl
        · exact ih (fun cb hcb => hcbs cb (List.mem_cons_of_mem _ hcb)) ctx'

theorem processPacket_wp (h : svr.Discreet) (pw : Nat) (ctx : TargetCtx) :
    (processPacket svr.queues ctx pw).wp creditRules Purse.full fun r g =>
      g = Purse.full ∨ r.2 = none ∧ r.1.stat = codeStopNoop := by
  unfold processPacket
  split
  · exact .inl rfl
  · next cbs hq => exact processCallbacks_wp (h.callbacks _ cbs hq) pw ctx

theorem dispatch_wp (ctx : TargetCtx) (resp : Nat) {Q : Unit → Purse → Prop}
    (hQ : ∀ g, Q () g) : (UDPServer.dispatch ctx resp).wp creditRules Purse.full Q := by
  have hput : (Routine.putBack resp).wp creditRules Purse.full Q :=
    quiet_wp (perform_quiet rfl) fun _ => hQ _
  have hclose : (do Routine.call resp .close
                    Routine.perform (.sendStream resp) : Routine Unit).wp creditRules Purse.full Q := by
    rw [Prog.wp_bind]
    exact quiet_wp (call_quiet _ _) fun _ => spend_wp rfl fun _ => hQ _
  unfold UDPServer.dispatch
  rw [Prog.wp_ite]
  split
  · exact hput
  · rw [Prog.wp_ite]
    split
    · rw [Prog.wp_bind]
      refine quiet_wp (perform_quiet rfl) fun relayAddr => ?_
      rw [Prog.wp_ite]
      split
      · rw [Prog.wp_bind]
        refine quiet_wp (call_quiet _ _) fun _ => ?_
        rw [Prog.wp_bind]
        exact quiet_wp (call_quiet _ _) fun _ => hclose
      · exact hput
    · exact hclose

theorem serveRequest_wp (h : svr.Discreet) (sender : GoString) (pkt : Nat) {Q : Unit → Purse → Prop}
    (hQ : ∀ g, Q () g) : (svr.serveRequest sender pkt).wp creditRules Purse.full Q := by
  rw [UDPServer.serveRequest, Prog.wp_bind]
  refine quiet_wp (perform_quiet rfl) fun ref => ?_
  rw [Prog.wp_bind]
  refine quiet_wp (newPkt_quiet _ _) fun resp => ?_
  rw [Prog.wp_bind]
  refine quiet_wp (perform_quiet rfl) fun targetName => ?_
  rw [Prog.wp_bind]
  refine Prog.wp_mono creditRules_mono ?_ (processPacket_wp h resp _)
  rintro ⟨ctx, err⟩ g (rfl | ⟨rfl, hstat⟩)
  · cases err with
    | some err =>
      simp only
      rw [Prog.wp_bind]
      exact quiet_wp (perform_quiet rfl) fun _ => sendErr_wp _ _ _ (hQ _)
    | none => exact dispatch_wp ctx resp hQ
  · simp only
    rw [UDPServer.dispatch, if_pos hstat]
    exact quiet_wp (perform_quiet rfl) fun _ => hQ _

theorem processIncoming_wp (h : svr.Discreet) (data : Bytes) (sender : GoString) :
    (svr.processIncoming data sender).wp creditRules Purse.full fun _ _ => True := by
  rw [UDPServer.processIncoming, Prog.wp_bind]
  refine quiet_wp (processTransforms_allOps (h.data _) _ data) fun r => ?_
  obtain ⟨ctx, data, err⟩ := r
  cases err with
  | some err => exact sendErr_wp _ _ _ trivial
  | none =>
    simp only
    rw [Prog.wp_ite]
    split
    · trivial
    · rw [Prog.wp_bind]
      refine quiet_wp (newPkt_quiet _ _) fun pkt => ?_
      rw [Prog.wp_bind]
      refine quiet_wp (perform_quiet rfl) fun err => ?_
      have hput : ∀ g, (Routine.putBack pkt).wp creditRules g fun _ _ => True :=
        fun _ => quiet_wp (perform_quiet rfl) fun _ => trivial
      cases err with
      | some _ =>
        simp only
        rw [Prog.wp_bind]
        exact sendErr_wp _ _ _ (hput _)
      | none =>
        simp only
        rw [Prog.wp_bind]
        exact serveRequest_wp h sender pkt hput

theorem processOutgoing_wp (h : svr.Discreet) (p : Nat) :
    (svr.processOutgoing p).wp creditRules Purse.full fun _ _ => True := by
  have hput : ∀ g, (Routine.putBack p).wp creditRules g fun _ _ => True :=
    fun _ => quiet_wp (perform_quiet rfl) fun _ => trivial
  rw [UDPServer.processOutgoing, Prog.wp_bind]
  refine quiet_wp (perform_quiet rfl) fun bin => ?_
  rw [Prog.wp_bind]
  refine quiet_wp (perform_quiet rfl) fun dest => ?_
  cases svr.resolve dest with
  | none => exact hput _
  | some addr =>
    simp only
    rw [Prog.wp_bind, UDPServer.transmit, Prog.wp_bind]
    refine quiet_wp (processTransforms_allOps (h.data _) _ bin) fun r => ?_
    obtain ⟨ctx, bin, err⟩ := r
    cases err with
    | some err =>
      simp only
      rw [Prog.wp_bind]
      refine quiet_wp (perform_quiet rfl) fun ref => ?_
      rw [Prog.wp_bind]
      exact quiet_wp (perform_quiet rfl) fun dest => sendErr_wp _ _ _ (hput _)
    | none =>
      simp only
      rw [Prog.wp_ite]
      split
      · exact spend_wp rfl fun _ => hput _
      · exact hput _

/-! ## 3. Every run -/

/-- Every credit is with one goroutine, is in the slot of `sendPkts`, or is spent. -/
structure Backed (s : Endpoint) (log : List (Entry Op Op.Res UDPServer.Env)) (gs : List Purse)
    (done : List Unit) : Prop where
  custody : Custody ((Service.received log).map fun _ => ()) (gs.map Prod.snd)
    (s.sending.map fun _ => ()) done
  written : (Service.written log).length = done.length

theorem Backed.act {s st : Endpoint} {log : List (Entry Op Op.Res UDPServer.Env)}
    {gs : List Purse} {done : List Unit} (b : Backed s log gs done) {i : Nat} {c : Choice}
    {e : Op} {g : Purse} {Φ : e.Res → Purse → Prop} {r : e.Res} (hi : gs[i]? = some g)
    (hΦ : creditRules e g Φ) (hh : s.handle c e = .ok (r, st)) :
    ∃ g' done', Φ r g' ∧ Backed st (log ++ [.act i e r]) (gs.set i g') done' := by
  have hi' : (gs.map Prod.snd)[i]? = some g.2 := by rw [List.getElem?_map, hi]; rfl
  have hset : ∀ g' : Purse, (gs.set i g').map Prod.snd = (gs.map Prod.snd).set i g'.2 :=
    fun _ => List.map_set
  rcases Prog.Rules.spending_cases hΦ with ⟨hprice, hΦ⟩ | ⟨pays, t, hprice, hg, -, hΦ⟩
  · obtain ⟨hsend, hdist⟩ := Op.of_not_spends (Op.toll_eq_none.mp hprice)
    refine ⟨g, done, hΦ r, ?_, ?_⟩
    · rw [Service.received_act, set_self hi, (Endpoint.handle_frame hh).2.2.1 hsend]
      exact b.custody
    · rw [Service.written_act hdist]
      exact b.written
  · rw [hg] at hi'
    cases e with
    | sendStream p =>
      obtain ⟨hfree, rfl⟩ := Endpoint.handle_send_ok hh
      refine ⟨((), none), done, hΦ r, ?_, ?_⟩
      · have hcustody := b.custody
        rw [hfree] at hcustody
        rw [Service.received_act, hset]
        exact hcustody.park hi'
      · rw [Service.written_act (e := .sendStream p) fun _ _ h => nomatch h]
        exact b.written
    | dist data addr =>
      cases hh
      refine ⟨((), none), done ++ [()], hΦ _, ?_, ?_⟩
      · rw [Service.received_act, hset]
        exact b.custody.discharge hi'
      · rw [Service.written_snoc, List.length_append, List.length_append, b.written]
        rfl
    | _ => cases hprice

/-- The proof system of a server whose callbacks send nothing. -/
def logic (h : svr.Discreet) : Logic svr.machine Purse where
  rules := creditRules
  mono := creditRules_mono
  inv s log gs := ∃ done, Backed s log gs done
  final _ := True
  allowed _ _ := True
  mayCrash := True
  act := by
    rintro s i c e k gs g Φ - - ⟨done, b⟩ hi hΦ
    split
    · next r st hh =>
      obtain ⟨g', done', hΦ', b'⟩ := b.act hi hΦ hh
      exact ⟨g', hΦ', done', b'⟩
    · trivial
    · trivial
  env := by
    rintro s a gs st - ⟨done, b⟩ he
    obtain ⟨n, rfl, rfl⟩ := UDPServer.env_quiet he
    refine ⟨done, ?_, ?_⟩
    · rw [Service.received_env (a := .gc n) fun _ _ h => nomatch h]
      exact b.custody
    · rw [Service.written_env]
      exact b.written
  spawn := by
    rintro s a gs st t - - ⟨done, b⟩ he
    rcases UDPServer.env_spawn he with ⟨data, sender, rfl, rfl, rfl⟩ | ⟨p, rfl, hp, rfl, rfl⟩
    · refine ⟨Purse.full, processIncoming_wp h data sender, done, ?_, ?_⟩
      · rw [Service.received_snoc, List.map_append, List.map_append]
        exact b.custody.come ()
      · rw [Service.written_env]
        exact b.written
    · refine ⟨Purse.full, processOutgoing_wp h p, done, ?_, ?_⟩
      · have hcustody := b.custody
        rw [hp] at hcustody
        rw [List.map_append, Service.received_env (a := .sendPkts) fun _ _ h => nomatch h]
        exact hcustody.take
      · rw [Service.written_env]
        exact b.written

end Credit

/-- In every run of a server whose transforms and callbacks send nothing themselves, at most as
many datagrams have been written as have been received. -/
theorem UDPServer.writes_le_reads {svr : UDPServer} (h : svr.Discreet)
    {evs : List (Event Choice UDPServer.Env)} {s : Sys Op Op.Res Endpoint UDPServer.Env}
    (hrun : svr.machine.run UDPServer.start evs = .ok s) :
    (Service.written s.log).length ≤ (Service.received s.log).length := by
  have hstart : (Credit.logic h).Holds UDPServer.start :=
    ⟨[], rfl, ⟨[], .start, rfl⟩, fun i t g ht => by simp [UDPServer.start] at ht⟩
  obtain ⟨gs, -, ⟨done, b⟩, -⟩ := (Credit.logic h).run_holds hstart
    (Machine.eachAllowed_of_forall (fun _ _ => trivial) _ _) hrun
  have hdone := b.custody.length_done_le
  rw [List.length_map] at hdone
  exact b.written.trans_le hdone

/-- A server with the Crypto extension receives one byte, and sends an error packet for it. -/
def Credit.malformedRun : List (Event Choice UDPServer.Env) :=
  .env (.datagram [0] (ascii "10.0.0.2:1")) ::
    (List.replicate 16 (.act 0 ⟨100, none⟩) ++ .env .sendPkts ::
      List.replicate 7 (.act 1 ⟨100, none⟩))

theorem UDPServer.writes_le_reads_malformed :
    ∃ s, ((Crypto.transparent 5).extendServer (UDPServer.new some)).machine.run UDPServer.start
        Credit.malformedRun = .ok s ∧
      0 < (Service.written s.log).length ∧
      (Service.written s.log).length ≤ (Service.received s.log).length := by
  have h : ((((Crypto.transparent 5).extendServer (UDPServer.new some)).machine.run UDPServer.start
      Credit.malformedRun).result?.map fun s => (Service.written s.log).length) = some 1 := by
    decide +kernel
  obtain ⟨s, hs, hwritten⟩ := Option.map_eq_some_iff.mp h
  have hrun := Outcome.eq_ok_of_result? hs
  refine ⟨s, hrun, by rw [hwritten]; decide, ?_⟩
  exact UDPServer.writes_le_reads ((UDPServer.discreet_new some).extend _) hrun

end Concord
