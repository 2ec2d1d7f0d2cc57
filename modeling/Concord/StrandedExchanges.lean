import Concord.KeyRefusals
import Concord.RequestRaces

/-!
# Exchanges that wait for ever

`ServerKEx` and `ClientKEx` do not look at what `Send` returns: they wait for the response either
way. The response channel is made in the exchange, so a response can come only through the entry
that `Send` registers or the write that it hands over.

1. `Posted`: the packets on the channels of a client are those that were offered and not received.
2. `standing_or_offered`: in a run with fresh refs a registered channel stands in the table until a
   packet is offered on it.
3. `handed_of_answerable`: nothing refers to a channel that was never handed over.
4. `stranded_iff_failed`: an exchange waits for an answer that cannot come exactly if its `Send` has
   failed, and then it never returns.
-/

namespace Concord

open Go

/-! ## 1. The packets on the channels -/

/-- A packet is received that is there. -/
theorem handle_receive_ok {st st' : Endpoint} {ch : Nat} (choice : Choice)
    {r : Op.Res (.receive ch)} (hh : st.handle choice (.receive ch) = .ok (r, st')) :
    (∃ p, (ch, p) ∈ st.inbox) ∧ st'.inbox = st.inbox.eraseP fun e => e.1 = ch := by
  simp only [Endpoint.handle] at hh
  split at hh
  · cases hh
  · next x hx =>
    cases hh
    have hch : x.1 = ch := by simpa using List.find?_some hx
    exact ⟨⟨x.2, hch ▸ List.mem_of_find?_eq_some hx⟩, rfl⟩

/-- What an operation does to the packets on the channels. -/
theorem handle_inbox {st st' : Endpoint} {choice : Choice} {e : Op} {r : e.Res}
    (hh : st.handle choice e = .ok (r, st')) :
    (∃ ch p, e = .deliver ch p ∧ st'.inbox = st.inbox ++ [(ch, p)]) ∨
    (∃ ch, e = .receive ch ∧ st'.inbox = st.inbox.eraseP fun e => e.1 = ch) ∨
    (∀ ch p, e ≠ .deliver ch p) ∧ st'.inbox = st.inbox := by
  cases e with
  | deliver ch p =>
    cases hh
    exact .inl ⟨ch, p, rfl, rfl⟩
  | receive ch => exact .inr (.inl ⟨ch, rfl, (handle_receive_ok choice hh).2⟩)
  | writeStream data respCh =>
    simp only [Endpoint.handle] at hh
    split at hh
    · cases hh
    · cases hh
      exact .inr (.inr ⟨(fun _ _ => Op.noConfusion), rfl⟩)
  | writeDone | register _ _ | unregister _ =>
    cases hh
    exact .inr (.inr ⟨(fun _ _ => Op.noConfusion), rfl⟩)
  | _ =>
    exact .inr (.inr ⟨(fun _ _ => Op.noConfusion), ((Endpoint.handle_frame hh).2.2.2 rfl).2.2⟩)

section Runs

variable {α : Type} {c : UDPClient} {app : α → Routine Unit}
  {s s' : Sys Op Op.Res Endpoint (UDPClient.Env α)} {evs : List (Event Choice (UDPClient.Env α))}

theorem env_inbox {st st' : Endpoint} {a : UDPClient.Env α} {t : Option (Routine Unit)}
    (he : c.env app st a = some (st', t)) : st'.inbox = st.inbox := by
  cases t with
  | none =>
    rcases UDPClient.env_quiet he with rfl | ⟨n, -, rfl⟩
    · rfl
    · rfl
  | some t =>
    rcases UDPClient.env_spawn he with ⟨call, -, rfl, -⟩ | ⟨data, -, rfl, -⟩ |
      ⟨err, w, respCh, -, -, -, rfl, -⟩
    · rfl
    · rfl
    · rfl

/-- The packets on the channels: they were offered, and those that were offered on a channel on
which nothing has been received are still there. -/
structure Posted (s : Sys Op Op.Res Endpoint (UDPClient.Env α)) : Prop where
  source : ∀ x ∈ s.state.inbox, ∃ j, Entry.act j (.deliver x.1 x.2) () ∈ s.log
  there : ∀ j ch p, Entry.act j (.deliver ch p) () ∈ s.log →
    (∀ i q, Entry.act i (.receive ch) q ∉ s.log) → (ch, p) ∈ s.state.inbox

/-- A step that leaves the packets alone and offers none. -/
theorem Posted.quiet (x : Posted s) {y : Entry Op Op.Res (UDPClient.Env α)}
    (hlog : s'.log = s.log ++ [y]) (hinbox : s'.state.inbox = s.state.inbox)
    (hy : ∀ j ch p, y ≠ .act j (.deliver ch p) ()) : Posted s' where
  source z hz := by
    obtain ⟨j, hj⟩ := x.source z (hinbox ▸ hz)
    exact ⟨j, hlog ▸ List.mem_append_left _ hj⟩
  there j ch p hj hnone := by
    rw [hlog] at hj
    rcases List.mem_append.mp hj with hj | hj
    · rw [hinbox]
      exact x.there j ch p hj fun i q hi => hnone i q (hlog ▸ List.mem_append_left _ hi)
    · exact absurd (List.mem_singleton.mp hj).symm (hy j ch p)

theorem Posted.step (x : Posted s) {ev : Event Choice (UDPClient.Env α)}
    (h : (c.machine app).step s ev = .ok s') : Posted s' := by
  rcases Machine.step_ok h with ⟨i, choice, e, k, r, st, -, -, hh, rfl⟩ | ⟨a, st, -, he, rfl⟩ |
    ⟨a, st, t, -, he, rfl⟩
  · rcases handle_inbox hh with ⟨ch, p, rfl, hin⟩ | ⟨ch, rfl, hin⟩ | ⟨hne, hin⟩
    · refine ⟨fun z hz => ?_, fun j ch' p' hj hnone => ?_⟩
      · rcases List.mem_append.mp (hin ▸ hz) with hz | hz
        · obtain ⟨j, hj⟩ := x.source z hz
          exact ⟨j, List.mem_append_left _ hj⟩
        · rw [List.mem_singleton.mp hz]
          exact ⟨i, List.mem_append_right _ List.mem_cons_self⟩
      · show (ch', p') ∈ st.inbox
        rw [hin]
        rcases List.mem_append.mp hj with hj | hj
        · exact List.mem_append_left _ (x.there j ch' p' hj fun i q hi =>
            hnone i q (List.mem_append_left _ hi))
        · cases List.mem_singleton.mp hj
          exact List.mem_append_right _ (List.mem_singleton_self _)
    · refine ⟨fun z hz => ?_, fun j ch' p' hj hnone => ?_⟩
      · obtain ⟨j, hj⟩ := x.source z (List.mem_of_mem_eraseP (hin ▸ hz))
        exact ⟨j, List.mem_append_left _ hj⟩
      · -- what is received was offered on the channel of the receiver
        have hch : ch' ≠ ch := by
          rintro rfl
          exact hnone i r (List.mem_append_right _ List.mem_cons_self)
        rcases List.mem_append.mp hj with hj | hj
        · have hold := x.there j ch' p' hj fun i q hi => hnone i q (List.mem_append_left _ hi)
          show (ch', p') ∈ st.inbox
          rw [hin]
          exact (List.mem_eraseP_of_neg (by simpa using hch)).mpr hold
        · cases List.mem_singleton.mp hj
    · refine x.quiet rfl hin fun j ch p heq => ?_
      cases heq
      exact hne ch p rfl
  · exact x.quiet rfl (env_inbox he) fun _ _ _ heq => by cases heq
  · exact x.quiet rfl (env_inbox he) fun _ _ _ heq => by cases heq

theorem run_posted (h : (c.machine app).run UDPClient.start evs = .ok s) : Posted s :=
  Machine.run_invariant (M := c.machine app) (fun hx hs => hx.step hs)
    ⟨fun _ hx => absurd hx List.not_mem_nil, fun _ _ _ hx => absurd hx List.not_mem_nil⟩ h

/-! ## 2. Registered channels -/

/-- A registered channel stands in the table, or a packet has been offered on it. -/
def Kept (s : Sys Op Op.Res Endpoint (UDPClient.Env α)) (ref : GoString) (ch : Nat) : Prop :=
  s.state.requests.get? ref = some (some ch) ∨ ∃ j p, Entry.act j (.deliver ch p) () ∈ s.log

theorem Kept.step (hc : c.Quiet) (happ : ∀ call, Uses c (app call))
    (h : (c.machine app).run UDPClient.start evs = .ok s) {ev : Event Choice (UDPClient.Env α)}
    (hstep : (c.machine app).step s ev = .ok s')
    (hfresh : EachStep (fun log x => freshRef log x = true) s'.log) {ref : GoString} {ch : Nat}
    (hkept : Kept s ref ch) : Kept s' ref ch := by
  obtain ⟨x, hx⟩ := Machine.step_log hstep
  obtain ⟨hkeep, hdelete⟩ := registrations_kept hc happ h hstep hfresh
  rcases hkept with hget | ⟨j, p, hj⟩
  · by_cases hdel : ∃ i ref', s'.log = s.log ++ [.act i (.unregister ref') ()]
    · obtain ⟨i, ref', hlog⟩ := hdel
      by_cases href : ref = ref'
      · -- the goroutine that deletes the entry has found it and answered
        subst href
        obtain ⟨_, _, _, -, -, hfound⟩ := hdelete i ref hlog
        obtain ⟨p, hp⟩ := (hfound _ hget).2 ch rfl
        exact .inr ⟨i, p, hlog ▸ List.mem_append_left _ hp⟩
      · refine .inl ?_
        rw [(run_explained h).requests] at hget
        rw [(run_explained (Machine.run_snoc h hstep)).requests, hlog, replay_snoc]
        simpa [Replay.step, Replay.act, href] using hget
    · exact .inl (hkeep (fun i ref' hlog => hdel ⟨i, ref', hlog⟩) ref _ hget)
  · exact .inr ⟨j, p, hx ▸ List.mem_append_left _ hj⟩

/-- In a run with fresh refs every registered channel is kept. -/
theorem standing_or_offered (hc : c.Quiet) (happ : ∀ call, Uses c (app call))
    (h : (c.machine app).run UDPClient.start evs = .ok s)
    (hfresh : EachStep (fun log x => freshRef log x = true) s.log) {i ch : Nat} {ref : GoString}
    (hreg : Entry.act i (.register ref (some ch)) () ∈ s.log) : Kept s ref ch := by
  let I : Sys Op Op.Res Endpoint (UDPClient.Env α) → Prop := fun s =>
    (∃ evs, (c.machine app).run UDPClient.start evs = .ok s) ∧
      (EachStep (fun log x => freshRef log x = true) s.log →
        Entry.act i (.register ref (some ch)) () ∈ s.log → Kept s ref ch)
  have hrun : I s := by
    refine Machine.run_invariant (M := c.machine app) ?_ ⟨⟨[], rfl⟩, fun _ hreg => ?_⟩ h
    · rintro s₁ ev s₂ ⟨⟨evs₁, h₁⟩, hkept⟩ hstep
      have h₂ := Machine.run_snoc h₁ hstep
      refine ⟨⟨_, h₂⟩, fun hfresh hreg => ?_⟩
      obtain ⟨x, hx⟩ := Machine.step_log hstep
      rw [hx] at hreg
      rcases List.mem_append.mp hreg with hreg | hreg
      · exact (hkept (hx ▸ hfresh).left hreg).step hc happ h₁ hstep hfresh
      · refine .inl ?_
        rw [(run_explained h₂).requests, hx, replay_snoc, ← List.mem_singleton.mp hreg]
        simp [Replay.step, Replay.act]
    · exact absurd hreg List.not_mem_nil
  exact hrun.2 hfresh hreg

/-! ## 3. What refers to a channel -/

/-- Something refers to the response channel: an entry of the table, the pending write, the report
of its failure, or a goroutine that has found the channel and is about to offer its packet. -/
def Answerable (s : Sys Op Op.Res Endpoint (UDPClient.Env α)) (ch : Nat) : Prop :=
  (∃ ref, s.state.requests.get? ref = some (some ch)) ∨
  (∃ data, s.state.writing = some (data, some ch)) ∨
  (∃ (j : Nat) (err : GoString), (replay s.log).origins[j]? = some (.failedWrite ch err)) ∨
  ∃ (j p : Nat) (k : Unit → Routine Unit), s.threads[j]? = some (.op (.deliver ch p) k)

theorem handed_of_requested {j pkt ch : Nat} {ref : GoString}
    (h : Requested pkt (some ch) ref (own j s.log)) :
    ∃ j data, Entry.act j (.writeStream data (some ch)) () ∈ s.log := by
  obtain ⟨pre, named, bin, between, data, post, hown, -, -⟩ := h
  exact ⟨j, data, mem_own.mp (by rw [hown]; simp)⟩

variable (hc : c.Quiet) (happ : ∀ call, Uses c (app call))
  (h : (c.machine app).run UDPClient.start evs = .ok s)

include hc happ h

theorem handed_of_offered {j ch p : Nat} (hj : Entry.act j (.deliver ch p) () ∈ s.log) :
    ∃ j data, Entry.act j (.writeStream data (some ch)) () ∈ s.log := by
  obtain ⟨pre, post, hlog⟩ := List.append_of_mem hj
  rcases offer_cause hc happ h hlog with ⟨err, ho⟩ | ⟨ref, hfound⟩
  · obtain ⟨_, _, _, hreq⟩ := requested_of_failure hc happ h ho
    exact handed_of_requested hreq
  · obtain ⟨_, _, hreq⟩ := requested_of_found hc happ h hfound
    exact handed_of_requested hreq

/-- A channel that something refers to was handed over with a request. -/
theorem handed_of_answerable {ch : Nat} (hans : Answerable s ch) :
    ∃ j data, Entry.act j (.writeStream data (some ch)) () ∈ s.log := by
  have x := run_explained h
  rcases hans with ⟨ref, hget⟩ | ⟨data, hw⟩ | ⟨j, err, ho⟩ | ⟨j, p, k, hj⟩
  · rw [x.requests] at hget
    obtain ⟨pre, j, post, hlog, -⟩ := registration_of_get? hget
    have hreg : Entry.act j (.register ref (some ch)) () ∈ s.log := by rw [hlog]; simp
    obtain ⟨pkt, hreq⟩ := (requests_own hc happ h j).registered ref _ (mem_own.mpr hreg)
    exact handed_of_requested hreq
  · have hwriting : (replay s.log).writing = some (some ch) := by rw [← x.writing, hw]; rfl
    have hcount := failures_le s.log ch
    rw [if_pos hwriting] at hcount
    obtain ⟨y, hy, hhand⟩ := List.countP_pos_iff.mp (Nat.lt_of_lt_of_le (Nat.succ_pos _) hcount)
    obtain ⟨j, data, rfl⟩ := eq_of_handsOff hhand
    exact ⟨j, data, hy⟩
  · obtain ⟨_, _, _, hreq⟩ := requested_of_failure hc happ h ho
    exact handed_of_requested hreq
  · -- the packet is offered in the next step of the goroutine
    have hstep : (c.machine app).step s (.act j {}) = .ok
        ⟨{ s.state with inbox := s.state.inbox ++ [(ch, p)] }, s.threads.set j (k ()),
          s.log ++ [.act j (.deliver ch p) ()]⟩ := by
      simp only [Machine.step, hj]
      rfl
    obtain ⟨i, data, hi⟩ := handed_of_offered hc happ (Machine.run_snoc h hstep)
      (List.mem_append_right _ (List.mem_singleton_self _))
    rcases List.mem_append.mp hi with hi | hi
    · exact ⟨i, data, hi⟩
    · cases List.mem_singleton.mp hi

end Runs

/-! ## 4. Exchanges -/

/-- A call of `ServerKEx` or `ClientKEx`. -/
structure KexCall where
  cr : Crypto
  jsonErr : Bytes → GoString
  svrAddr : GoString
  exchange : Exchange
  pkt : Nat
  ch : Nat

namespace KexCall

def routine (x : KexCall) (c : UDPClient) : Routine (Option GoString) :=
  match x.exchange with
  | .server => x.cr.serverKEx x.jsonErr c x.svrAddr x.pkt x.ch
  | .client addr => x.cr.clientKEx x.jsonErr c addr x.pkt x.ch

/-- What the exchange does before it sends its packet. -/
def configure (x : KexCall) : Routine Unit :=
  match x.exchange with
  | .server => x.cr.configureKeyExServerPkt x.pkt
  | .client addr => Crypto.configureKeyExClientPkt addr x.pkt

/-- What it does after. -/
def await (x : KexCall) : Routine (Option GoString) :=
  match x.exchange with
  | .server => x.cr.awaitKey x.jsonErr x.svrAddr (ascii "handshake error: " ++ ·) x.ch
  | .client addr => x.cr.awaitKey x.jsonErr addr (ascii "client-kex ferror: " ++ ·) x.ch

theorem routine_eq (x : KexCall) (c : UDPClient) :
    x.routine c = (do
      x.configure
      let _ ← c.send x.pkt (some x.ch)
      x.await) := by
  unfold routine configure await
  cases x.exchange with
  | server => rfl
  | client addr => rfl

theorem configure_free (x : KexCall) : x.configure.AllOps fun e => e.ofClient = false := by
  unfold configure
  split
  · exact Routine.callAll_allOps fun _ _ => rfl
  · exact Routine.callAll_allOps fun _ _ => rfl

theorem await_free (x : KexCall) : x.await.AllOps fun e => e.ofClient = false := by
  have hawait : ∀ addr text, (x.cr.awaitKey x.jsonErr addr text x.ch).AllOps fun e =>
      e.ofClient = false := fun addr text =>
    Prog.allOps_op rfl fun _ => Prog.allOps_bind
      (Crypto.processKeyExResp_allOps x.jsonErr addr rfl (fun _ => rfl) rfl) fun _ => trivial
  unfold await
  split
  · exact hawait _ _
  · exact hawait _ _

/-- The exchange waits for a packet on its channel. -/
theorem await_eq (x : KexCall) : ∃ f, x.await = .op (.receive x.ch) f := by
  unfold await
  split
  · exact ⟨_, rfl⟩
  · exact ⟨_, rfl⟩

end KexCall

/-- `Send` fails without having done anything of the client's own, or has registered its channel. -/
theorem UDPClient.send_returns {c : UDPClient} (hc : c.Quiet) {pkt : Nat} {respCh : Option Nat}
    {tr : List Step} {sent : Option GoString} (h : (c.send pkt respCh).Leads tr (.ret sent)) :
    (∃ err, sent = some err) ∧ (∀ y ∈ tr, y.1.ofClient = false) ∨
      sent = none ∧ ∃ ref, ⟨.register ref respCh, ()⟩ ∈ tr := by
  obtain ⟨tr₁, ref, tr₂, rfl, href, h₁⟩ := Prog.leads_bind_ret h
  obtain ⟨bin, tr₃, rfl, h₂⟩ := Prog.leads_perform_ret h₁
  obtain ⟨tr₄, ⟨ctx, data, err⟩, tr₅, rfl, hdata, h₃⟩ := Prog.leads_bind_ret h₂
  have hfree : ∀ y ∈ tr₁ ++ (⟨.read pkt .marshal, bin⟩ :: tr₄ : List Step), y.1.ofClient = false :=
    List.forall_mem_append.mpr
      ⟨fun y hy => Op.ofClient_of_quiet ((href.allOps (ensureRef_quiet pkt)).1 y hy),
        List.forall_mem_cons.mpr
          ⟨rfl, fun y hy => Op.ofClient_of_quiet ((hdata.allOps (hc.processData _ bin)).1 y hy)⟩⟩
  cases err with
  | some err =>
    obtain ⟨rfl, heq⟩ := Prog.leads_ret.mp h₃
    cases heq
    rw [List.append_nil]
    exact .inl ⟨⟨_, rfl⟩, hfree⟩
  | none =>
    simp only at h₃
    split at h₃
    · obtain ⟨rfl, heq⟩ := Prog.leads_ret.mp h₃
      cases heq
      rw [List.append_nil]
      exact .inl ⟨⟨_, rfl⟩, hfree⟩
    · obtain ⟨_, tr₆, rfl, h₄⟩ := Prog.leads_perform_ret h₃
      obtain ⟨_, tr₇, rfl, h₅⟩ := Prog.leads_perform_ret h₄
      obtain ⟨rfl, heq⟩ := Prog.leads_ret.mp h₅
      cases heq
      exact .inr ⟨rfl, ref, by simp⟩

/-- The operation hands the channel over, registers it or receives on it. -/
def Op.usesChannel (ch : Nat) : Op → Bool
  | .writeStream _ respCh | .register _ respCh => respCh == some ch
  | .receive ch' => ch' == ch
  | _ => false

section Exchanges

variable {α : Type} {c : UDPClient} {app : α → Routine Unit}
  {s s' : Sys Op Op.Res Endpoint (UDPClient.Env α)} {evs evs' : List (Event Choice (UDPClient.Env α))}
  {i : Nat} {x : KexCall} {k : Option GoString → Routine Unit} {sent : Option GoString}

/-- Goroutine `i` of the application is in the exchange, where `Send` has returned `sent` and a
response is awaited. The channel was made in the exchange: the goroutine has not used it before,
no other one has used it, and nothing was received on it. -/
structure Awaits (c : UDPClient) (app : α → Routine Unit)
    (s : Sys Op Op.Res Endpoint (UDPClient.Env α)) (i : Nat) (x : KexCall)
    (k : Option GoString → Routine Unit) (sent : Option GoString) : Prop where
  way : ∃ call before conf way, (replay s.log).origins[i]? = some (.app call) ∧
    (app call).Leads before (x.routine c >>= k) ∧ (∀ y ∈ before, y.1.usesChannel x.ch = false) ∧
    x.configure.Leads conf (.ret ()) ∧ (c.send x.pkt (some x.ch)).Leads way (.ret sent) ∧
    own i s.log = before ++ (conf ++ way)
  mine : ∀ j e r, Entry.act j e r ∈ s.log → e.usesChannel x.ch = true →
    j = i ∧ e ≠ .receive x.ch

/-- The exchange is blocked on its channel, and nothing refers to it. -/
structure Stranded (s : Sys Op Op.Res Endpoint (UDPClient.Env α)) (i : Nat) (x : KexCall)
    (k : Option GoString → Routine Unit) : Prop where
  waits : s.threads[i]? = some (x.await >>= k)
  empty : ∀ e ∈ s.state.inbox, e.1 ≠ x.ch
  unanswerable : ¬ Answerable s x.ch

theorem Awaits.waits (hw : Awaits c app s i x k sent)
    (h : (c.machine app).run UDPClient.start evs = .ok s) :
    s.threads[i]? = some (x.await >>= k) := by
  obtain ⟨call, before, conf, way, ho, happ, -, hconf, hsend, hown⟩ := hw.way
  obtain ⟨t, ht, hlead⟩ := (run_explained h).leads i _ ho
  have hroutine : (x.routine c >>= k).Leads (conf ++ way) (x.await >>= k) := by
    rw [x.routine_eq]
    exact ((hconf.bind _).append (hsend.bind _)).bind k
  have hcome : (app call).Leads (own i s.log) (x.await >>= k) := hown ▸ happ.append hroutine
  rw [ht, hlead.unique hcome]

/-- A channel whose `Send` has failed was never handed over. -/
theorem Awaits.not_handed (hc : c.Quiet) {err : GoString} (hw : Awaits c app s i x k (some err))
    (j : Nat) (data : Bytes) : Entry.act j (.writeStream data (some x.ch)) () ∉ s.log := by
  intro hj
  have huses : (Op.writeStream data (some x.ch)).usesChannel x.ch = true := by simp [Op.usesChannel]
  obtain ⟨rfl, -⟩ := hw.mine j _ _ hj huses
  obtain ⟨call, before, conf, way, -, -, hbefore, hconf, hsend, hown⟩ := hw.way
  have hmem := mem_own.mpr hj
  rw [hown] at hmem
  rcases List.mem_append.mp hmem with hmem | hmem
  · exact absurd huses (by simp [hbefore _ hmem])
  · rcases List.mem_append.mp hmem with hmem | hmem
    · cases (hconf.allOps x.configure_free).1 _ hmem
    · rcases UDPClient.send_returns hc hsend with ⟨-, hfree⟩ | ⟨hnone, -⟩
      · cases hfree _ hmem
      · cases hnone

section Failed

variable (hc : c.Quiet) (happ : ∀ call, Uses c (app call))
  (h : (c.machine app).run UDPClient.start evs = .ok s)

include hc happ h

theorem stranded_of_failed {err : GoString} (hw : Awaits c app s i x k (some err)) :
    Stranded s i x k where
  waits := hw.waits h
  empty e he hch := by
    obtain ⟨j, hj⟩ := (run_posted h).source e he
    obtain ⟨j', data, hj'⟩ := handed_of_offered hc happ h (hch ▸ hj)
    exact hw.not_handed hc j' data hj'
  unanswerable hans := by
    obtain ⟨j, data, hj⟩ := handed_of_answerable hc happ h hans
    exact hw.not_handed hc j data hj

/-- A registered channel is answerable, or there is a packet on it. -/
theorem not_stranded_of_sent (hfresh : EachStep (fun log x => freshRef log x = true) s.log)
    (hw : Awaits c app s i x k none) : ¬ Stranded s i x k := by
  intro hstranded
  obtain ⟨call, before, conf, way, -, -, -, -, hsend, hown⟩ := hw.way
  rcases UDPClient.send_returns hc hsend with ⟨⟨err, herr⟩, -⟩ | ⟨-, ref, hreg⟩
  · cases herr
  · have hmem : ⟨.register ref (some x.ch), ()⟩ ∈ own i s.log := by simp [hown, hreg]
    rcases standing_or_offered hc happ h hfresh (mem_own.mp hmem) with hget | ⟨j, p, hj⟩
    · exact hstranded.unanswerable (.inl ⟨ref, hget⟩)
    · refine hstranded.empty _ ((run_posted h).there j x.ch p hj fun i' q hi => ?_) rfl
      exact (hw.mine i' _ q hi (by simp [Op.usesChannel])).2 rfl

end Failed

/-- The step of another goroutine, or of the environment. -/
theorem Awaits.quiet (hw : Awaits c app s i x k sent) {y : Entry Op Op.Res (UDPClient.Env α)}
    (hlog : s'.log = s.log ++ [y]) (hown : own i s'.log = own i s.log)
    (hy : ∀ j e r, y = .act j e r → e.usesChannel x.ch = false) : Awaits c app s' i x k sent where
  way := by
    obtain ⟨call, before, conf, way, ho, hrest⟩ := hw.way
    exact ⟨call, before, conf, way, hlog ▸ origin_append ho _, hown ▸ hrest⟩
  mine j e r hj huses := by
    rw [hlog] at hj
    rcases List.mem_append.mp hj with hj | hj
    · exact hw.mine j e r hj huses
    · rw [hy j e r (List.mem_singleton.mp hj).symm] at huses
      cases huses

/-- An exchange whose `Send` has failed takes no step. -/
theorem Awaits.step (hc : c.Quiet) (happ : ∀ call, Uses c (app call))
    (h : (c.machine app).run UDPClient.start evs = .ok s) {err : GoString}
    (hw : Awaits c app s i x k (some err)) {ev : Event Choice (UDPClient.Env α)}
    (hstep : (c.machine app).step s ev = .ok s')
    (hmine : ∀ j e r, Entry.act j e r ∈ s'.log → e.usesChannel x.ch = true → j = i) :
    Awaits c app s' i x k (some err) := by
  have hstranded := stranded_of_failed hc happ h hw
  rcases Machine.step_ok hstep with ⟨j, choice, e, f, r, st, -, hj, hh, rfl⟩ | ⟨a, st, -, -, rfl⟩ |
    ⟨a, st, t, -, -, rfl⟩
  · have hij : j ≠ i := by
      rintro rfl
      obtain ⟨g, hg⟩ := x.await_eq
      have hthread := hj.symm.trans hstranded.waits
      rw [hg] at hthread
      cases hthread
      have hreceive : s.state.handle choice (.receive x.ch) = .ok (r, st) := hh
      obtain ⟨⟨p, hp⟩, -⟩ := handle_receive_ok choice hreceive
      exact hstranded.empty _ hp rfl
    refine hw.quiet rfl (own_snoc_ne hij _ _ _) fun j' e' r' heq => ?_
    cases heq
    refine Bool.eq_false_iff.mpr fun huses => hij (hmine _ _ r ?_ huses)
    exact List.mem_append_right _ (List.mem_singleton_self _)
  · exact hw.quiet rfl (own_snoc_env _ _ _) fun _ _ _ heq => by cases heq
  · exact hw.quiet rfl (own_snoc_env _ _ _) fun _ _ _ heq => by cases heq

/-- It waits as long as no other goroutine uses its channel. -/
theorem Awaits.later (hc : c.Quiet) (happ : ∀ call, Uses c (app call))
    (h : (c.machine app).run UDPClient.start evs = .ok s) {err : GoString}
    (hw : Awaits c app s i x k (some err)) (h' : (c.machine app).run s evs' = .ok s')
    (hmine : ∀ j e r, Entry.act j e r ∈ s'.log → e.usesChannel x.ch = true → j = i) :
    Awaits c app s' i x k (some err) := by
  let I : Sys Op Op.Res Endpoint (UDPClient.Env α) → Prop := fun s =>
    (∃ evs, (c.machine app).run UDPClient.start evs = .ok s) ∧
      ((∀ j e r, Entry.act j e r ∈ s.log → e.usesChannel x.ch = true → j = i) →
        Awaits c app s i x k (some err))
  have hrun : I s' := by
    refine Machine.run_invariant (M := c.machine app) ?_ ⟨⟨evs, h⟩, fun _ => hw⟩ h'
    rintro s₁ ev s₂ ⟨⟨evs₁, h₁⟩, hawaits⟩ hstep
    refine ⟨⟨_, Machine.run_snoc h₁ hstep⟩, fun hmine => ?_⟩
    obtain ⟨y, hy⟩ := Machine.step_log hstep
    refine (hawaits fun j e r hj huses => hmine j e r ?_ huses).step hc happ h₁ hstep hmine
    exact hy ▸ List.mem_append_left _ hj
  exact hrun.2 hmine

/-- An exchange whose `Send` has failed is stranded, and stays so as long as no other goroutine
uses its channel. In a run with fresh refs no other exchange is. -/
theorem stranded_iff_failed (hc : c.Quiet) (happ : ∀ call, Uses c (app call))
    (h : (c.machine app).run UDPClient.start evs = .ok s) (hw : Awaits c app s i x k sent) :
    (sent ≠ none → ∀ evs' s', (c.machine app).run s evs' = .ok s' →
      (∀ j e r, Entry.act j e r ∈ s'.log → e.usesChannel x.ch = true → j = i) →
      Stranded s' i x k) ∧
    (EachStep (fun log x => freshRef log x = true) s.log →
      (Stranded s i x k ↔ sent ≠ none)) := by
  cases sent with
  | none =>
    refine ⟨fun hne => absurd rfl hne, fun hfresh => ?_⟩
    exact iff_of_false (not_stranded_of_sent hc happ h hfresh hw) (not_not_intro rfl)
  | some err =>
    refine ⟨fun _ evs' s' h' hmine => ?_, fun _ => ?_⟩
    · exact stranded_of_failed hc happ (Machine.run_append h h') (hw.later hc happ h h' hmine)
    · exact iff_of_true (stranded_of_failed hc happ h hw) (Option.some_ne_none err)

end Exchanges

/-! ## 5. Runs -/

def Origin.app? {α : Type} : Origin α → Option α
  | .app call => some call
  | _ => none

theorem Origin.eq_of_app? {α : Type} {o : Option (Origin α)} {call : α}
    (h : o.bind Origin.app? = some call) : o = some (.app call) := by
  obtain ⟨o, rfl, h⟩ := Option.bind_eq_some_iff.mp h
  cases o with
  | app call' =>
    cases h
    rfl
  | incoming data => cases h
  | failedWrite respCh err => cases h

/-- The extension leaves the requests of its client to the client. -/
theorem Crypto.extendClient_quiet (cr : Crypto) {c : UDPClient} (hc : c.Quiet) :
    (cr.extendClient c).Quiet := by
  have hquiet : ∀ e : Op, e.ofTransport = true → e.quiet = true := fun e he => by
    cases e with
    | read p r => rfl
    | getKeyStore addr => rfl
    | getKeySent k => rfl
    | setKeySent k b => rfl
    | readNonce => rfl
    | panic => rfl
    | _ => cases he
  intro name t ht ctx data
  rcases mem_addTransform ht with ht | rfl
  · rcases mem_addTransform ht with ht | rfl
    · exact hc name t ht ctx data
    · exact (decryptTransport_allOps cr ctx data).mono hquiet
  · exact (encryptTransport_allOps cr ctx data).mono hquiet

theorem KexCall.uses (x : KexCall) {c : UDPClient} {k : Option GoString → Routine Unit}
    (hk : ∀ r, Uses c (k r)) : Uses c (x.routine c >>= k) := by
  rw [x.routine_eq, Prog.bind_assoc]
  refine Uses.bind x.configure_free fun _ => ?_
  rw [Prog.bind_assoc]
  exact .send fun _ => Uses.bind x.await_free hk

/-- A curve whose secrets are too short for AES. -/
def Curve.short : Curve where
  Priv := Nat
  pub n := (n, n)
  mul a pt := a * pt.1.toNat
  mul_comm a b := by simp [Nat.mul_comm]

namespace Stranding

def svrAddr : Addr := ascii "10.0.0.1:1"

def crypto : Crypto := ⟨.transparent, .short, (5 : Nat)⟩

def client : UDPClient := crypto.extendClient (UDPClient.new svrAddr)

def kexCall (exchange : Exchange) (pkt ch : Nat) : KexCall :=
  ⟨crypto, fun _ => [], svrAddr, exchange, pkt, ch⟩

/-- A goroutine of the application: an exchange with a new packet for the server, with this ref and
this channel. -/
def exchanges (call : GoString × Exchange × Nat) : Routine Unit := do
  let p ← Routine.newPkt call.1 svrAddr
  let _ ← (kexCall call.2.1 p call.2.2).routine client
  pure ()

theorem client_quiet : client.Quiet :=
  crypto.extendClient_quiet fun _ _ ht => absurd ht List.not_mem_nil

theorem exchanges_uses (call : GoString × Exchange × Nat) : Uses client (exchanges call) := by
  refine Uses.bind ?_ fun p => KexCall.uses _ fun _ => .done
  exact Routine.newPkt_allOps (P := fun e => e.ofClient = false) rfl fun _ _ _ => rfl

/-- The exchange has come to its channel after `n` steps. -/
def requests (tid n : Nat) (call : GoString × Exchange × Nat) :
    List (Event Choice (UDPClient.Env (GoString × Exchange × Nat))) :=
  .env (.app call) :: List.replicate n (.act tid {})

/-- The server's key, in a response to the packet `r0`. -/
def response : Bytes :=
  PktView.marshal ⟨JSONPkt.refMeta (ascii "r0"), Base64.encode (pubKeyText 3 3), pubKeyText 3 3, []⟩

/-- Reads off a state that the goroutine awaits a response, with packet `p`: five operations make
the packet, four configure it, and the others are those of `Send`. -/
def awaits (s : Sys Op Op.Res Endpoint (UDPClient.Env (GoString × Exchange × Nat))) (i : Nat)
    (call : GoString × Exchange × Nat) (p : Nat) (sent : Option GoString) : Bool :=
  let before := (own i s.log).take 5
  let conf := ((own i s.log).drop 5).take 4
  let way := ((own i s.log).drop 5).drop 4
  let x := kexCall call.2.1 p call.2.2
  decide (((replay s.log).origins[i]?.bind Origin.app?) = some call ∧
    ((Routine.newPkt call.1 svrAddr).follow before).bind Prog.returned = some p ∧
    (x.configure.follow conf).bind Prog.returned = some () ∧
    ((client.send p (some call.2.2)).follow way).bind Prog.returned = some sent) &&
  before.all (fun y => !y.1.usesChannel call.2.2) &&
  s.log.all fun
    | .act j e _ => !e.usesChannel call.2.2 || (decide (j = i) && decide (e ≠ .receive call.2.2))
    | .env _ => true

theorem awaits_of_awaits {s : Sys Op Op.Res Endpoint (UDPClient.Env (GoString × Exchange × Nat))}
    {i : Nat} {call : GoString × Exchange × Nat} {p : Nat} {sent : Option GoString}
    (h : awaits s i call p sent = true) :
    Awaits client exchanges s i (kexCall call.2.1 p call.2.2) (fun _ => pure ()) sent := by
  simp only [awaits, Bool.and_eq_true, decide_eq_true_eq] at h
  obtain ⟨⟨⟨ho, hnew, hconf, hsend⟩, hbefore⟩, hmine⟩ := h
  refine ⟨⟨call, _, _, _, Origin.eq_of_app? ho, (Prog.leads_of_returned hnew).bind _, ?_,
    Prog.leads_of_returned hconf, Prog.leads_of_returned hsend, ?_⟩, fun j e r hj huses => ?_⟩
  · intro y hy
    simpa [kexCall] using List.all_eq_true.mp hbefore y hy
  · rw [List.take_append_drop, List.take_append_drop]
  · replace huses : e.usesChannel call.2.2 = true := huses
    simpa [huses, kexCall] using List.all_eq_true.mp hmine _ hj

/-- `Answerable`, computed. -/
def isAnswerable (s : Sys Op Op.Res Endpoint (UDPClient.Env (GoString × Exchange × Nat))) (ch : Nat) :
    Bool :=
  s.state.requests.entries.any (fun e => e.2 = some ch) ||
  s.state.writing.any (fun w => w.2 = some ch) || hasFailed ch s.log ||
  s.threads.any fun t => t.next.any fun
    | .deliver ch' _ => ch' == ch
    | _ => false

theorem not_answerable {s : Sys Op Op.Res Endpoint (UDPClient.Env (GoString × Exchange × Nat))}
    {ch : Nat} (h : isAnswerable s ch = false) : ¬ Answerable s ch := by
  simp only [isAnswerable, Bool.or_eq_false_iff] at h
  obtain ⟨⟨⟨hentries, hwriting⟩, hfailed⟩, hthreads⟩ := h
  rintro (⟨ref, hget⟩ | ⟨data, hw⟩ | ⟨j, err, ho⟩ | ⟨j, p, k, hj⟩)
  · have hentry := List.any_eq_false.mp hentries (ref, some ch) (GoMap.mem_entries_iff.mpr hget)
    simp at hentry
  · simp [hw] at hwriting
  · have horigin := List.any_eq_false.mp hfailed _ (List.mem_of_getElem? ho)
    simp [Origin.failed] at horigin
  · have hthread := List.any_eq_false.mp hthreads _ (List.mem_of_getElem? hj)
    simp [Prog.next] at hthread

/-- After the exchange with the server: a request for the key of another client. The secret that
was agreed on is no AES key, so `Send` cannot seal it. -/
def unsealable : List (Event Choice (UDPClient.Env (GoString × Exchange × Nat))) :=
  requests 0 16 (ascii "r0", .server, 0) ++ .env .wrote :: .env (.datagram response) ::
    List.replicate 11 (.act 1 {}) ++ List.replicate 3 (.act 0 {}) ++
    requests 2 15 (ascii "r1", .client (ascii "10.0.0.3:1"), 1)

/-- Two exchanges with one ref: the second registers it in the place of the first. -/
def sharedRef : List (Event Choice (UDPClient.Env (GoString × Exchange × Nat))) :=
  requests 0 16 (ascii "r0", .server, 0) ++ .env .wrote :: requests 1 16 (ascii "r0", .server, 1) ++
    [.env .wrote]

end Stranding

open Stranding

/-- An exchange whose packet was sent can get its response. -/
theorem sent_not_stranded :
    ∃ s, (client.machine exchanges).run UDPClient.start (requests 0 16 (ascii "r0", .server, 0)) =
        .ok s ∧ Awaits client exchanges s 0 (kexCall .server 0 0) (fun _ => pure ()) none ∧
      ¬ Stranded s 0 (kexCall .server 0 0) fun _ => pure () := by
  have h : ((client.machine exchanges).run UDPClient.start
      (requests 0 16 (ascii "r0", .server, 0))).result?.any (fun s =>
        awaits s 0 (ascii "r0", .server, 0) 0 none &&
          decide (EachStep (fun log x => freshRef log x = true) s.log)) = true := by
    decide +kernel
  rw [Option.any_eq_true] at h
  obtain ⟨s, hs, h⟩ := h
  obtain ⟨hawaits, hfresh⟩ := Bool.and_eq_true_iff.mp h
  have hrun := Outcome.eq_ok_of_result? hs
  have hw := awaits_of_awaits hawaits
  refine ⟨s, hrun, hw, fun hstranded => ?_⟩
  exact ((stranded_iff_failed client_quiet exchanges_uses hrun hw).2 (of_decide_eq_true hfresh)).mp
    hstranded rfl

/-- A client with the extension waits for ever when its request cannot be sealed, and also when its
entry was overwritten. -/
theorem exchanges_stranded :
    (∃ s, (client.machine exchanges).run UDPClient.start unsealable = .ok s ∧
      Awaits client exchanges s 2 (kexCall (.client (ascii "10.0.0.3:1")) 2 1) (fun _ => pure ())
        (some (ascii "data pipeline error: pipeline terminated: encryption error: " ++
          ascii "cipher init fail: crypto/aes: invalid key size 1")) ∧
      Stranded s 2 (kexCall (.client (ascii "10.0.0.3:1")) 2 1) fun _ => pure ()) ∧
    ∃ s, (client.machine exchanges).run UDPClient.start sharedRef = .ok s ∧
      Awaits client exchanges s 0 (kexCall .server 0 0) (fun _ => pure ()) none ∧
      Stranded s 0 (kexCall .server 0 0) fun _ => pure () := by
  have hunsealable : ((client.machine exchanges).run UDPClient.start unsealable).result?.any
      (fun s => awaits s 2 (ascii "r1", .client (ascii "10.0.0.3:1"), 1) 2
        (some (ascii "data pipeline error: pipeline terminated: encryption error: " ++
          ascii "cipher init fail: crypto/aes: invalid key size 1"))) = true := by
    decide +kernel
  have hshared : ((client.machine exchanges).run UDPClient.start sharedRef).result?.any (fun s =>
      awaits s 0 (ascii "r0", .server, 0) 0 none && !isAnswerable s 0 &&
        decide (s.state.inbox = [])) = true := by
    decide +kernel
  rw [Option.any_eq_true] at hunsealable hshared
  obtain ⟨s, hs, hawaits⟩ := hunsealable
  obtain ⟨s', hs', h⟩ := hshared
  simp only [Bool.and_eq_true, Bool.not_eq_true', decide_eq_true_eq] at h
  obtain ⟨⟨hawaits', hanswerable⟩, hinbox⟩ := h
  have hrun := Outcome.eq_ok_of_result? hs
  have hrun' := Outcome.eq_ok_of_result? hs'
  have hw := awaits_of_awaits hawaits
  have hw' := awaits_of_awaits hawaits'
  refine ⟨⟨s, hrun, hw, stranded_of_failed client_quiet exchanges_uses hrun hw⟩, s', hrun', hw', ?_⟩
  refine ⟨hw'.waits hrun', fun e he => ?_, not_answerable hanswerable⟩
  rw [hinbox] at he
  exact absurd he List.not_mem_nil

end Concord
